import Mathlib.Logic.Relation
import StreamLang.Proofs.Scopes
import StreamLang.Step.Basic
import StreamLang.Value.Operations
/-!
The functions that a value has in it, at any depth. Operators never make functions and never hand one
on, reading a field hands on what the structure had, and a name gives what was bound to it.
-/
namespace StreamLang

namespace Value

/-- The function is the value or lies in it. -/
inductive Mentions : Value → Closure → Prop where
  | self (c : Closure) : Mentions (function c) c
  | item {items : List Value} {v : Value} {c : Closure} (hv : v ∈ items) (h : Mentions v c) :
    Mentions (list items) c
  | field {fields : List (String × Value)} {name : String} {v : Value} {c : Closure}
    (hv : (name, v) ∈ fields) (h : Mentions v c) : Mentions (struct fields) c

/-- All functions in the value are such. -/
def Every (p : Closure → Prop) (v : Value) : Prop := ∀ c, v.Mentions c → p c

variable {p q : Closure → Prop}

@[simp] theorem every_number (n : Number) : (number n).Every p := by rintro _ ⟨⟩
@[simp] theorem every_text (s : String) : (text s).Every p := by rintro _ ⟨⟩
@[simp] theorem every_boolean (b : Bool) : (boolean b).Every p := by rintro _ ⟨⟩
@[simp] theorem every_exception (e : Exception) : (exception e).Every p := by rintro _ ⟨⟩

@[simp] theorem every_failure (kind : ExceptionKind) (message : String) (i : NodeId) :
    (failure kind message i).Every p := every_exception _

@[simp] theorem every_function {c : Closure} : (function c).Every p ↔ p c := by
  constructor
  · exact fun h => h c (.self c)
  · rintro h _ ⟨⟩
    exact h

@[simp] theorem every_list {items : List Value} :
    (list items).Every p ↔ ∀ v ∈ items, v.Every p := by
  constructor
  · exact fun h v hv c hc => h c (.item hv hc)
  · rintro h c ⟨⟩
    exact h _ ‹_› c ‹_›

@[simp] theorem every_struct {fields : List (String × Value)} :
    (struct fields).Every p ↔ ∀ f ∈ fields, f.2.Every p := by
  constructor
  · exact fun h f hf c hc => h c (.field hf hc)
  · rintro h c ⟨⟩
    exact h _ ‹_› c ‹_›

theorem Every.mono {v : Value} (h : v.Every p) (hpq : ∀ c, p c → q c) : v.Every q :=
  fun c hc => hpq c (h c hc)

theorem every_of_isException {v : Value} (h : v.isException = true) : v.Every p := by
  cases v <;> simp_all [isException]

theorem every_arithmetic (o : BinaryOperator) (a b : Number) (i : NodeId) :
    (arithmetic o a b i).Every p := by
  unfold arithmetic
  split
  · exact every_failure _ _ _
  · cases o <;> simp [mismatch]

theorem every_applyOperator (o : BinaryOperator) (left right : Value) (i : NodeId) :
    (applyOperator o left right i).Every p := by
  unfold applyOperator
  split
  · exact every_text _
  · exact every_boolean _
  · exact every_boolean _
  · exact every_arithmetic _ _ _ _
  · exact every_failure _ _ _

theorem every_binary (o : BinaryOperator) (left right : Value) (i : NodeId) :
    (binary o left right i).Every p := by
  unfold binary
  split
  · exact every_boolean _
  · exact every_boolean _
  · split
    · exact every_of_isException ‹_›
    · split
      · exact every_of_isException ‹_›
      · exact every_applyOperator _ _ _ _

theorem every_unary (o : UnaryOperator) (operand : Value) (i : NodeId) :
    (unary o operand i).Every p := by
  unfold unary
  split <;> simp [mismatch]

theorem Every.property {v : Value} (h : v.Every p) (name : String) (i : NodeId) :
    (v.property name i).Every p := by
  unfold Value.property
  split
  · exact every_exception _
  · split
    · exact every_struct.1 h _ (Assoc.mem_of_get? ‹_›)
    · exact every_failure _ _ _
  · exact every_failure _ _ _

theorem every_struct_ofList {names : List String} {vs : List Value}
    (h : ∀ v ∈ vs, v.Every p) : (struct (Assoc.ofList (names.zip vs))).Every p :=
  every_struct.2 fun _ hf => h _ (List.of_mem_zip (Assoc.mem_of_mem_ofList hf)).2

end Value

namespace Scopes

/-- All functions that a name can give are such. -/
def Every (p : Closure → Prop) (s : Scopes) : Prop :=
  ∀ (i : ScopeId) (scope : Scope), s.all[i]? = some scope →
    ∀ b ∈ scope.bindings, (b.2.read i).Every p

variable {p q : Closure → Prop} {s : Scopes}

theorem Every.mono (h : s.Every p) (hpq : ∀ c, p c → q c) : s.Every q :=
  fun i scope hs b hb => (h i scope hs b hb).mono hpq

theorem every_empty : empty.Every p := by
  intro i scope hs
  simp [empty] at hs

theorem Every.addRoot (h : s.Every p) : s.addRoot.2.Every p := by
  intro i scope hs b hb
  rw [Scopes.addRoot, Array.getElem?_push] at hs
  split at hs
  · cases hs
    cases hb
  · exact h i scope hs b hb

/-- In some of the scopes, which go on inside each other and to which all new ones belong, all functions
that a name can give are such. -/
structure Confines (G : ScopeId → Prop) (p : Closure → Prop) (s : Scopes) : Prop where
  fresh : ∀ i : ScopeId, s.all.size ≤ i → G i
  around : ∀ i o, G i → s.outside? i = some o → G o
  every : ∀ (i : ScopeId) (scope : Scope), G i → s.all[i]? = some scope →
    ∀ b ∈ scope.bindings, (b.2.read i).Every p

theorem every_iff : s.Every p ↔ s.Confines (fun _ => True) p :=
  ⟨fun h => ⟨fun _ _ => trivial, fun _ _ _ _ => trivial, fun i scope _ => h i scope⟩,
    fun h i scope => h.every i scope trivial⟩

namespace Confines

variable {G : ScopeId → Prop}

theorem mono (h : s.Confines G p) (hpq : ∀ c, p c → q c) : s.Confines G q :=
  { h with every := fun i scope hi hs b hb => (h.every i scope hi hs b hb).mono hpq }

theorem addChild (h : s.Confines G p) {parent : ScopeId} (hp : G parent) :
    (s.addChild parent).2.Confines G p where
  fresh i hi := by
    rw [size_addChild] at hi
    exact h.fresh i (Nat.le_of_succ_le hi)
  around i o hi ho := by
    rw [outside?_addChild] at ho
    split at ho
    · exact Option.some.inj ho ▸ hp
    · exact h.around i o hi ho
  every i scope hi hs b hb := by
    rw [addChild_all] at hs
    split at hs
    · cases hs
      cases hb
    · exact h.every i scope hi hs b hb

theorem define (h : s.Confines G p) (i : ScopeId) (name : String) {v : Value} (hv : v.Every p) :
    (s.define i name v).Confines G p where
  fresh j hj := h.fresh j (size_define s i name v ▸ hj)
  around j o hj ho := h.around j o hj (outside?_define s i name v j ▸ ho)
  every j scope hj hs b hb := by
    rw [define_all] at hs
    obtain ⟨old, hold, rfl⟩ := Option.map_eq_some_iff.1 hs
    split at hb
    · rename_i heq
      subst heq
      rcases Assoc.mem_of_mem_put hb with rfl | hb
      · simpa using hv
      · exact h.every _ old hj hold b hb
    · exact h.every j old hj hold b hb

theorem defineAll (h : s.Confines G p) (i : ScopeId) {bindings : List (String × Value)}
    (hb : ∀ b ∈ bindings, b.2.Every p) : (s.defineAll i bindings).Confines G p := by
  induction bindings generalizing s with
  | nil => exact h
  | cons b rest ih =>
    exact ih (h.define i b.1 (hb b List.mem_cons_self))
      fun c hc => hb c (List.mem_cons_of_mem _ hc)

/-- A name gives what some scope around has for it. -/
theorem lookup (h : s.Confines G p) {i : ScopeId} (hi : G i) {name : String} {v : Value}
    (hv : s.lookup i name = some v) : v.Every p := by
  have key (n : Nat) (i : ScopeId) (hi : G i) (hv : s.lookupWithin name n i = some v) :
      v.Every p := by
    induction n generalizing i with
    | zero => cases hv
    | succ n ih =>
      rw [lookupWithin] at hv
      split at hv
      · cases hv
      · rename_i scope hs
        split at hv
        · rename_i b hb
          cases hv
          exact h.every i scope hi hs _ (Assoc.mem_of_get? hb)
        · split at hv
          · cases hv
          · rename_i o ho
            exact ih o (h.around i o hi (by rw [outside?, hs]; exact ho)) hv
  exact key _ i hi hv

end Confines

/-- A name that can be seen from the scope gives a value with the function in it. -/
def Shows (s : Scopes) (i : ScopeId) (c : Closure) : Prop :=
  ∃ o, Relation.ReflTransGen (fun i o => s.outside? i = some o) i o ∧
    ∃ scope, s.all[o]? = some scope ∧ ∃ b ∈ scope.bindings, (b.2.read o).Mentions c

/-- The scopes that can be looked into from one of them and from where such functions were made, and all
that are opened later. -/
def Opens (s : Scopes) (globals : ScopeId) (kept : Closure → Prop) (o : ScopeId) : Prop :=
  s.all.size ≤ o ∨ ∃ i, (i = globals ∨ ∃ c, kept c ∧ c.scope = i) ∧
    Relation.ReflTransGen (fun i o => s.outside? i = some o) i o

theorem opens_globals (s : Scopes) (globals : ScopeId) (kept : Closure → Prop) :
    s.Opens globals kept globals :=
  .inr ⟨_, .inl rfl, .refl⟩

theorem opens_kept (s : Scopes) (globals : ScopeId) {kept : Closure → Prop} {c : Closure}
    (hc : kept c) : s.Opens globals kept c.scope :=
  .inr ⟨_, .inr ⟨c, hc, rfl⟩, .refl⟩

/-- If all functions that can be seen from there are among them, and all of them are such, the scopes
give no others. -/
theorem confines_opens {globals : ScopeId} {kept : Closure → Prop}
    (here : ∀ c, s.Shows globals c → kept c) (there : ∀ f c, kept f → s.Shows f.scope c → kept c)
    (hq : ∀ c, kept c → q c) :
    s.Confines (s.Opens globals kept) (fun c => q c ∧ s.Opens globals kept c.scope) where
  fresh _ hi := .inl hi
  around i o hi ho := by
    rcases hi with hi | ⟨j, hj, hji⟩
    · exact absurd hi (Nat.not_le.2 (lt_size_of_outside? ho))
    · exact .inr ⟨j, hj, hji.tail ho⟩
  every i scope hi hs b hb c hc := by
    have hkept : kept c := by
      rcases hi with hi | ⟨j, rfl | ⟨f, hf, rfl⟩, hji⟩
      · rw [Array.getElem?_eq_none hi] at hs
        cases hs
      · exact here c ⟨i, hji, scope, hs, b, hb, hc⟩
      · exact there f c hf ⟨i, hji, scope, hs, b, hb, hc⟩
    exact ⟨hq c hkept, s.opens_kept globals hkept⟩

theorem Every.addChild (h : s.Every p) (parent : ScopeId) : (s.addChild parent).2.Every p :=
  every_iff.2 ((every_iff.1 h).addChild trivial)

theorem Every.define (h : s.Every p) (i : ScopeId) (name : String) {v : Value}
    (hv : v.Every p) : (s.define i name v).Every p :=
  every_iff.2 ((every_iff.1 h).define i name hv)

theorem Every.defineAll (h : s.Every p) (i : ScopeId) {bindings : List (String × Value)}
    (hb : ∀ b ∈ bindings, b.2.Every p) : (s.defineAll i bindings).Every p :=
  every_iff.2 ((every_iff.1 h).defineAll i hb)

/-- A name gives what some scope has for it. -/
theorem Every.lookup (h : s.Every p) {i : ScopeId} {name : String} {v : Value}
    (hv : s.lookup i name = some v) : v.Every p :=
  (every_iff.1 h).lookup trivial hv

end Scopes
end StreamLang
