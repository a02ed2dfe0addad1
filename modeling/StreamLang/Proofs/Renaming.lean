import StreamLang.Proofs.Language
import StreamLang.Proofs.Value.Matching
/-!
Evaluation in two stores of scopes that differ in which scopes they are. Two runs over the same node
open their scopes in step. If each name that the node looks for around itself gives matching values on
both sides, and so does each name that a function looks for where it was made, both runs come to
matching values; a value without functions is the same.
-/
namespace StreamLang

namespace Tree

/-- What a node looks for around itself: names that nothing in it is sure to have bound before. -/
inductive Wants (t : Tree) : NodeId → String → Prop where
  | reference {i name} (hk : t.kind? i = some (.reference name)) : Wants t i name
  | part {i kind c name} (hk : t.kind? i = some kind) (hb : kind ≠ .block)
    (hf : ∀ parameters, kind ≠ .function parameters) (hc : c ∈ t.children i) (h : Wants t c name) :
    Wants t i name
  | body {i parameters c name} (hk : t.kind? i = some (.function parameters)) (hc : c ∈ t.children i)
    (h : Wants t c name) (hn : name ∉ parameters) : Wants t i name
  | statement {i before c after name} (hk : t.kind? i = some .block)
    (hc : t.children i = before ++ c :: after) (h : Wants t c name)
    (hn : ∀ b ∈ before, t.kind? b ≠ some (.bind name)) : Wants t i name

/-- What statements look for around their block. -/
def WantsAmong (t : Tree) (is : List NodeId) (name : String) : Prop :=
  ∃ before c after, is = before ++ c :: after ∧ t.Wants c name ∧
    ∀ b ∈ before, t.kind? b ≠ some (.bind name)

variable {t : Tree} {i : NodeId} {is : List NodeId} {name : String}

theorem WantsAmong.cons (h : t.WantsAmong is name) (hi : t.kind? i ≠ some (.bind name)) :
    t.WantsAmong (i :: is) name := by
  obtain ⟨before, c, after, rfl, hc, hn⟩ := h
  exact ⟨i :: before, c, after, rfl, hc, List.forall_mem_cons.2 ⟨hi, hn⟩⟩

theorem WantsAmong.block (h : t.WantsAmong (t.children i) name) (hk : t.kind? i = some .block) :
    t.Wants i name := by
  obtain ⟨before, c, after, hc, h, hn⟩ := h
  exact .statement hk hc h hn

end Tree

/-! ### Two stores in step -/

namespace Scopes

/-- What the body of a function runs in: a new scope inside the one that the function has kept, where
its parameters stand for the arguments. -/
def called (σ : Scopes) (c : Closure) (arguments : List Value) : Scopes :=
  (σ.addChild c.scope).2.defineAll σ.all.size (c.parameters.zip arguments)

section InStep

variable (n n' : Nat)

/-- The scopes are those that were opened the same number of scopes after the first so many. -/
def Twins (x x' : Nat) : Prop := ∃ k, x = n + k ∧ x' = n' + k

/-- The scopes are twins or older than all twins. -/
def Paired (x x' : Nat) : Prop := Twins n n' x x' ∨ x < n ∧ x' < n'

/-- The name gives matching values. -/
def Sees (M : Closure → Closure → Prop) (σ σ' : Scopes) (x x' : ScopeId) (name : String) : Prop :=
  Option.Rel (Value.Matches M) (σ.lookup x name) (σ'.lookup x' name)

/-- In step, scopes are opened inside of such as are paired, and the same names are bound in twins. -/
structure InStep (M : Closure → Closure → Prop) (σ σ' : Scopes) : Prop where
  nested : σ.Nested
  nested' : σ'.Nested
  sizes : Twins n n' σ.all.size σ'.all.size
  own : ∀ (x x' : Nat) (name : String), Twins n n' x x' →
    Option.Rel (Value.Matches M) (σ.own? x name) (σ'.own? x' name)
  around : ∀ x x' : Nat, Twins n n' x x' → x < σ.all.size →
    ∃ o o' : Nat, σ.outside? x = some o ∧ σ'.outside? x' = some o' ∧ Paired n n' o o'

/-- Related functions are of one node, and what their body looks for gives matching values. -/
structure Akin (t : Tree) (M : Closure → Closure → Prop) (σ σ' : Scopes) (c c' : Closure) : Prop where
  function : c.function = c'.function
  body : c.body = c'.body
  parameters : c.parameters = c'.parameters
  paired : Paired n n' c.scope c'.scope
  lt : c.scope < σ.all.size
  sees : ∀ name, t.Wants c.body name → name ∉ c.parameters → Sees M σ σ' c.scope c'.scope name

/-- The stores are in step and all related functions are akin. -/
structure Mirrored (t : Tree) (M : Closure → Closure → Prop) (σ σ' : Scopes) : Prop
    extends InStep n n' M σ σ' where
  akin : ∀ c c', M c c' → Akin n n' t M σ σ' c c'
  respected : Closure.Respected M

variable {n n'} {t : Tree} {M N : Closure → Closure → Prop} {σ σ' : Scopes} {x x' y y' : Nat}
  {name : String} {v v' : Value}

theorem Twins.left_iff (h : Twins n n' x x') (hy : Twins n n' y y') : x = y ↔ x' = y' := by
  obtain ⟨k, rfl, rfl⟩ := h
  obtain ⟨l, rfl, rfl⟩ := hy
  omega

theorem Twins.lt_iff (h : Twins n n' x x') (hy : Twins n n' y y') : x < y ↔ x' < y' := by
  obtain ⟨k, rfl, rfl⟩ := h
  obtain ⟨l, rfl, rfl⟩ := hy
  omega

theorem Twins.succ (h : Twins n n' x x') : Twins n n' (x + 1) (x' + 1) := by
  obtain ⟨k, rfl, rfl⟩ := h
  exact ⟨k + 1, rfl, rfl⟩

theorem Twins.le (h : Twins n n' x x') : n ≤ x ∧ n' ≤ x' := by
  obtain ⟨k, rfl, rfl⟩ := h
  exact ⟨Nat.le_add_right n k, Nat.le_add_right n' k⟩

theorem Paired.lt (h : Paired n n' x x') (hs : Twins n n' y y') (hx : x < y) : x' < y' := by
  rcases h with h | h
  · exact (h.lt_iff hs).1 hx
  · exact Nat.lt_of_lt_of_le h.2 hs.le.2

theorem rel_mono {a b : Option Value} (hle : ∀ c d, M c d → N c d) :
    Option.Rel (Value.Matches M) a b → Option.Rel (Value.Matches N) a b
  | .some h => .some (h.mono hle)
  | .none => .none

theorem Sees.mono (h : Sees M σ σ' x x' name) (hle : ∀ c d, M c d → N c d) :
    Sees N σ σ' x x' name := rel_mono hle h

theorem Sees.getD (h : Sees M σ σ' x x' name) {u : Value} (plain : u.Every fun _ => False) :
    ((σ.lookup x name).getD u).Matches M ((σ'.lookup x' name).getD u) := by
  unfold Sees at h
  generalize σ.lookup x name = a at *
  generalize σ'.lookup x' name = b at *
  cases h with
  | some h => exact h
  | none => exact Value.matches_of_plain plain

namespace InStep

theorem mono (h : InStep n n' M σ σ') (hle : ∀ c d, M c d → N c d) : InStep n n' N σ σ' :=
  { h with
    own := fun x x' name hx => rel_mono hle (h.own x x' name hx) }

/-- Both sides open a scope. -/
theorem addChild (h : InStep n n' M σ σ') (hx : Paired n n' x x') (hlt : x < σ.all.size) :
    InStep n n' M (σ.addChild x).2 (σ'.addChild x').2 where
  nested := Scopes.nested_addChild h.nested hlt
  nested' := Scopes.nested_addChild h.nested' (hx.lt h.sizes hlt)
  sizes := by
    rw [Scopes.size_addChild, Scopes.size_addChild]
    exact h.sizes.succ
  own y y' name hy := by
    rw [Scopes.own?_addChild, Scopes.own?_addChild]
    exact h.own y y' name hy
  around y y' hy hylt := by
    rw [Scopes.outside?_addChild, Scopes.outside?_addChild]
    rw [Scopes.size_addChild] at hylt
    by_cases heq : y = σ.all.size
    · rw [if_pos heq, if_pos ((hy.left_iff h.sizes).1 heq)]
      exact ⟨x, x', rfl, rfl, hx⟩
    · rw [if_neg heq, if_neg (mt (hy.left_iff h.sizes).2 heq)]
      exact h.around y y' hy (by omega)

/-- Both sides bind a name in twins. -/
theorem define (h : InStep n n' M σ σ') (hx : Twins n n' x x') (hlt : x < σ.all.size)
    (name : String) (hv : v.Matches M v') :
    InStep n n' M (σ.define x name v) (σ'.define x' name v') where
  nested := Scopes.nested_define h.nested x name v
  nested' := Scopes.nested_define h.nested' x' name v'
  sizes := by
    rw [Scopes.size_define, Scopes.size_define]
    exact h.sizes
  own y y' other hy := by
    rw [Scopes.own?_define hlt, Scopes.own?_define ((hx.lt_iff h.sizes).1 hlt)]
    by_cases heq : y = x ∧ name = other
    · rw [if_pos heq, if_pos ⟨(hy.left_iff hx).1 heq.1, heq.2⟩]
      exact .some hv
    · rw [if_neg heq, if_neg fun hc => heq ⟨(hy.left_iff hx).2 hc.1, hc.2⟩]
      exact h.own y y' other hy
  around y y' hy hylt := by
    rw [Scopes.outside?_define, Scopes.outside?_define]
    rw [Scopes.size_define] at hylt
    exact h.around y y' hy hylt

end InStep

/-- Both runs have gone on: functions that were related still are, and what matched still does. -/
structure Continues (n n' : Nat) (t : Tree) (M : Closure → Closure → Prop) (σ σ' : Scopes)
    (N : Closure → Closure → Prop) (τ τ' : Scopes) : Prop where
  le : ∀ c d, M c d → N c d
  new : ∀ c d, N c d → M c d ∨ Twins n n' c.scope d.scope
  size : σ.all.size ≤ τ.all.size
  mirrored : Mirrored n n' t N τ τ'
  sees : ∀ (y y' : Nat) (name : String), Paired n n' y y' → y < σ.all.size →
    Sees M σ σ' y y' name → Sees N τ τ' y y' name

variable {L : Closure → Closure → Prop} {τ τ' ρ ρ' : Scopes}

theorem Continues.refl (h : Mirrored n n' t M σ σ') : Continues n n' t M σ σ' M σ σ' :=
  ⟨fun _ _ => id, fun _ _ => .inl, Nat.le_refl _, h, fun _ _ _ _ _ => id⟩

theorem Continues.trans (h : Continues n n' t M σ σ' N τ τ') (h' : Continues n n' t N τ τ' L ρ ρ') :
    Continues n n' t M σ σ' L ρ ρ' where
  le c d hc := h'.le c d (h.le c d hc)
  new c d hc := (h'.new c d hc).elim (h.new c d) .inr
  size := Nat.le_trans h.size h'.size
  mirrored := h'.mirrored
  sees y y' name hy hlt hs :=
    h'.sees y y' name hy (Nat.lt_of_lt_of_le hlt h.size) (h.sees y y' name hy hlt hs)

namespace Mirrored

end Mirrored
end InStep
end Scopes

/-! ### Evaluation -/

section Evaluation

open Scopes

variable {n n' : Nat} {t : Tree} {M N : Closure → Closure → Prop} {σ τ : Scopes} {name : String}
  {v : Value}

/-- All that is read of streams matches itself. -/
def World.Shared (w : World) (M : Closure → Closure → Prop) : Prop :=
  ∀ i stream mode, (w.reading i stream mode).Matches M (w.reading i stream mode)

theorem World.Shared.mono {w : World} (h : w.Shared M) (hle : ∀ c d, M c d → N c d) : w.Shared N :=
  fun i stream mode => (h i stream mode).mono hle

namespace Tree

end Tree
end Evaluation
end StreamLang
