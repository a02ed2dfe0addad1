import StreamLang.Proofs.Scopes
import StreamLang.Proofs.Tree.Names
/-!
What names mean, told from what was done. A pass opens a scope for the program, for every run of a
block and for every call of a function, and binds put names into the scopes of blocks. A node that is
evaluated in some scope has its place among these: each block and each function around it has a scope
around that one. So what the analysis says of a name, going up the tree, can be compared with what is
found for it, going outwards through the scopes.
-/
namespace StreamLang

/-- What a scope was opened for. -/
inductive Purpose where
  | program
  | block (node : NodeId)
  | call (c : Closure) (arguments : List Value)

/-- What is done about names. -/
inductive Deed where
  | opens (scope outside : ScopeId) (purpose : Purpose)
  /-- A bind has its value, and its name gives that value in the scope from now on. -/
  | binds (scope : ScopeId) (node : NodeId) (v : Value)

/-- What was done, the last deed first. -/
abbrev Deeds := List Deed

namespace Deeds

/-- The binds that were run in a scope, the last one first. -/
def bound (D : Deeds) (x : ScopeId) : List (NodeId × Value) :=
  D.filterMap fun
    | .binds y i v => if y = x then some (i, v) else none
    | .opens .. => none

/-- The last bind of a name that was run in a scope, with its value. -/
def last? (D : Deeds) (t : Tree) (x : ScopeId) (name : String) : Option (NodeId × Value) :=
  (D.bound x).find? fun b => t.isBindOf name b.1

/-- Going outwards from `x`, the first scope opened for such a purpose is `y`, inside `o`. -/
inductive Innermost (D : Deeds) (p : Purpose → Prop) :
    ScopeId → ScopeId → ScopeId → Purpose → Prop where
  | here {x o u} (opened : .opens x o u ∈ D) (such : p u) : Innermost D p x x o u
  | around {x o u y o' u'} (opened : .opens x o u ∈ D) (other : ¬ p u)
    (further : Innermost D p o y o' u') : Innermost D p x y o' u'

variable {D : Deeds} {x y : ScopeId} {i : NodeId} {v : Value}

@[simp] theorem bound_opens (y o : ScopeId) (u : Purpose) (x : ScopeId) :
    bound (.opens y o u :: D) x = bound D x := rfl

theorem bound_binds (y : ScopeId) (i : NodeId) (v : Value) (x : ScopeId) :
    bound (.binds y i v :: D) x = if y = x then (i, v) :: bound D x else bound D x := by
  by_cases hy : y = x <;> simp [bound, hy]

theorem mem_bound : (i, v) ∈ D.bound x ↔ .binds x i v ∈ D := by
  simp only [bound, List.mem_filterMap]
  constructor
  · rintro ⟨d, hd, h⟩
    cases d with
    | opens => cases h
    | binds y j w =>
      simp only [Option.ite_none_right_eq_some, Option.some.injEq, Prod.mk.injEq] at h
      obtain ⟨rfl, rfl, rfl⟩ := h
      exact hd
  · exact fun h => ⟨_, h, by simp⟩

theorem bound_suffix (d : Deed) (x : ScopeId) : D.bound x <:+ bound (d :: D) x := by
  cases d with
  | opens => exact List.suffix_refl _
  | binds y i v =>
    rw [bound_binds]
    split
    · exact List.suffix_cons _ _
    · exact List.suffix_refl _

end Deeds

/-- What a scope that was opened for something has for a name. -/
def Purpose.has (t : Tree) (D : Deeds) (x : ScopeId) (name : String) : Purpose → Option Value
  | program => none
  | block _ => (D.last? t x name).map (·.2)
  | call c arguments => ((c.parameters.zip arguments).reverse.find? (·.1 == name)).map (·.2)

namespace Tree

variable {t : Tree}

/-- The binds among the statements of a block before one of them, the last one first. -/
def bindsBefore (t : Tree) (b c : NodeId) : List NodeId :=
  ((t.before b c).filter (t.kindIs NodeKind.isBind)).reverse

/-- The node `i` is evaluated in the scope `x`, going by what was done: every block and function
around it has a scope around `x`. The binds before the place have been run, and, as long as nobody
looks from inside a function, no others; the body of a function may run at any later time. -/
inductive Placed (t : Tree) (D : Deeds) : Bool → NodeId → ScopeId → Prop where
  | program {away x o} (opened : .opens x o .program ∈ D) : Placed t D away t.root x
  | part {away p i x} (child : i ∈ t.children p) (hb : t.kind? p ≠ some .block)
    (hf : t.isFunction p = false) (outer : Placed t D away p x) : Placed t D away i x
  | statement {away b c x o} (opened : .opens x o (.block b) ∈ D) (hb : t.kind? b = some .block)
    (child : c ∈ t.children b) (outer : Placed t D away b o)
    (run : t.bindsBefore b c <:+ (D.bound x).map (·.1))
    (only : away = false → (D.bound x).map (·.1) = t.bindsBefore b c) : Placed t D away c x
  | body {away x} {c : Closure} {arguments : List Value}
    (opened : .opens x c.scope (.call c arguments) ∈ D)
    (hf : t.kind? c.function = some (.function c.parameters)) (child : c.body ∈ t.children c.function)
    (arity : c.parameters.length = arguments.length) (outer : Placed t D true c.function c.scope) :
    Placed t D away c.body x

end Tree

/-- The scopes are as the deeds have left them. -/
structure Deeds.Tell (D : Deeds) (t : Tree) (globals : ScopeId) (scopes : Scopes) : Prop where
  nested : scopes.Nested
  program : ∀ {x o}, .opens x o .program ∈ D → o = globals
  outside : ∀ {x o u}, .opens x o u ∈ D → scopes.outside? x = some o
  unique : ∀ {x o o' u u'}, .opens x o u ∈ D → .opens x o' u' ∈ D → u = u'
  own : ∀ {x o u}, .opens x o u ∈ D → ∀ name, scopes.own? x name = u.has t D x name
  binds : ∀ {x i v}, .binds x i v ∈ D → x < scopes.all.size ∧
    ∀ {o u}, .opens x o u ∈ D → ∃ b, u = .block b ∧ i ∈ t.children b

namespace Deeds.Tell

variable {D : Deeds} {t : Tree} {globals x o y : ScopeId} {scopes scopes' : Scopes} {u : Purpose}

theorem nil (hn : scopes.Nested) : Tell [] t globals scopes :=
  ⟨hn, by simp, by simp, by simp, by simp, by simp⟩

variable (T : D.Tell t globals scopes)
include T

theorem lt_size (h : .opens x o u ∈ D) : x < scopes.all.size :=
  Scopes.lt_size_of_outside? (T.outside h)

theorem outside_lt (h : .opens x o u ∈ D) : o < x := Scopes.outside?_lt T.nested (T.outside h)

theorem lookup (h : .opens x o u ∈ D) (name : String) :
    scopes.lookup x name = (u.has t D x name).or (scopes.lookup o name) := by
  rw [Scopes.lookup_eq_own? T.nested (T.outside h), T.own h]

theorem bound_size : D.bound scopes.all.size = [] := by
  refine List.eq_nil_iff_forall_not_mem.2 fun ⟨i, v⟩ h => ?_
  exact Nat.lt_irrefl _ (T.binds (Deeds.mem_bound.1 h)).1

/-- One scope more, with what belongs into it. -/
theorem opens (hn : scopes'.Nested) (hsize : scopes'.all.size = scopes.all.size + 1)
    (hout : ∀ i, scopes'.outside? i = if i = scopes.all.size then some o else scopes.outside? i)
    (hown : ∀ i name, scopes'.own? i name =
      if i = scopes.all.size then u.has t D i name else scopes.own? i name)
    (hp : u = .program → o = globals) :
    Tell (.opens scopes.all.size o u :: D) t globals scopes' where
  nested := hn
  program h := by
    rcases List.mem_cons.1 h with h | h
    · cases h
      exact hp rfl
    · exact T.program h
  outside h := by
    rw [hout]
    rcases List.mem_cons.1 h with h | h
    · cases h
      exact if_pos rfl
    · rw [if_neg (Nat.ne_of_lt (T.lt_size h))]
      exact T.outside h
  unique h h' := by
    rcases List.mem_cons.1 h with h | h <;> rcases List.mem_cons.1 h' with h' | h'
    · cases h
      cases h'
      rfl
    · cases h
      exact absurd (T.lt_size h') (Nat.lt_irrefl _)
    · cases h'
      exact absurd (T.lt_size h) (Nat.lt_irrefl _)
    · exact T.unique h h'
  own h name := by
    rw [hown]
    rcases List.mem_cons.1 h with h | h
    · cases h
      rw [if_pos rfl]
      rfl
    · rw [if_neg (Nat.ne_of_lt (T.lt_size h)), T.own h]
      rfl
  binds h := by
    rcases List.mem_cons.1 h with h | h
    · cases h
    refine ⟨hsize ▸ Nat.lt_succ_of_lt (T.binds h).1, fun h' => ?_⟩
    rcases List.mem_cons.1 h' with h' | h'
    · cases h'
      exact absurd (T.binds h).1 (Nat.lt_irrefl _)
    · exact (T.binds h).2 h'

/-- One empty scope more. -/
theorem opens_empty (ho : o < scopes.all.size)
    (hu : ∀ name, u.has t D scopes.all.size name = none) (hp : u = .program → o = globals) :
    Tell (.opens scopes.all.size o u :: D) t globals (scopes.addChild o).2 := by
  refine T.opens (Scopes.nested_addChild T.nested ho) (Scopes.size_addChild scopes o)
    (Scopes.outside?_addChild scopes o) (fun i name => ?_) hp
  rw [Scopes.own?_addChild]
  split
  · rename_i hi
    subst hi
    rw [hu, Scopes.own?_of_le (Nat.le_refl _)]
  · rfl

/-- One name more in the scope of a block. -/
theorem bind {b i : NodeId} {name : String} (opened : .opens y o (.block b) ∈ D)
    (child : i ∈ t.children b) (kind : t.kind? i = some (.bind name)) (v : Value) :
    Tell (.binds y i v :: D) t globals (scopes.define y name v) where
  nested := Scopes.nested_define T.nested y name v
  program h := T.program (by simpa using h)
  outside h := (Scopes.outside?_define ..).trans (T.outside (by simpa using h))
  unique h h' := T.unique (by simpa using h) (by simpa using h')
  own {x o' u} h other := by
    have h : .opens x o' u ∈ D := by simpa using h
    rw [Scopes.own?_define (T.lt_size opened), T.own h]
    by_cases hx : x = y
    · subst hx
      obtain rfl := T.unique opened ‹.opens x o' u ∈ D›
      have hlast : Deeds.last? (.binds x i v :: D) t x other =
          if name = other then some (i, v) else D.last? t x other := by
        have : t.isBindOf other i = decide (name = other) := by
          rw [Bool.eq_iff_iff, Tree.isBindOf_iff, kind]
          simp
        rw [Deeds.last?, Deeds.bound_binds, if_pos rfl, List.find?_cons, this]
        by_cases hn : name = other <;> simp [hn, Deeds.last?]
      simp only [Purpose.has, hlast, true_and]
      split <;> rfl
    · rw [if_neg fun h => hx h.1]
      cases u <;> simp [Purpose.has, Deeds.last?, Deeds.bound_binds, Ne.symm hx]
  binds {x j w} h := by
    rw [Scopes.size_define]
    have sub {o u} (h' : .opens x o u ∈ Deed.binds y i v :: D) : .opens x o u ∈ D := by simpa using h'
    rcases List.mem_cons.1 h with h | h
    · cases h
      refine ⟨T.lt_size opened, fun h' => ?_⟩
      exact ⟨b, T.unique (sub h') opened, child⟩
    · exact ⟨(T.binds h).1, fun h' => (T.binds h).2 (sub h')⟩

end Deeds.Tell

namespace Tree.Placed

variable {t : Tree} {D : Deeds} {globals : ScopeId} {scopes : Scopes} {away : Bool} {i : NodeId}
  {x : ScopeId}

/-- What may happen later takes no place away. -/
theorem afar (h : t.Placed D away i x) : t.Placed D true i x := by
  induction h with
  | program opened => exact .program opened
  | part child hb hf _ ih => exact .part child hb hf ih
  | statement opened hb child _ run _ ih => exact .statement opened hb child ih run (by simp)
  | body opened hf child arity outer _ => exact .body opened hf child arity outer

theorem lt_size (T : D.Tell t globals scopes) (h : t.Placed D away i x) : x < scopes.all.size := by
  induction h with
  | program opened => exact T.lt_size opened
  | part _ _ _ _ ih => exact ih
  | statement opened => exact T.lt_size opened
  | body opened => exact T.lt_size opened

/-- Another deed takes no place away, if it is not that of a bind in one of the scopes. -/
theorem cons (T : D.Tell t globals scopes) (h : t.Placed D away i x) (d : Deed)
    (hd : away = false → ∀ y ≤ x, Deeds.bound (d :: D) y = D.bound y) :
    t.Placed (d :: D) away i x := by
  induction h with
  | program opened => exact .program (List.mem_cons_of_mem _ opened)
  | part child hb hf _ ih => exact .part child hb hf (ih hd)
  | @statement away b c x o opened hb child _ run only ih =>
    refine .statement (List.mem_cons_of_mem _ opened) hb child (ih fun ha y hy => hd ha y ?_)
      (run.trans ((Deeds.bound_suffix d x).map _)) fun ha => ?_
    · exact Nat.le_trans hy (Nat.le_of_lt (T.outside_lt opened))
    · rw [hd ha x (Nat.le_refl x)]
      exact only ha
  | body opened hf child arity _ ih =>
    exact .body (List.mem_cons_of_mem _ opened) hf child arity (ih (by simp))

end Tree.Placed

/-! ### What the analysis says of a name -/

namespace Tree

variable {t : Tree} {name : String} {p c : NodeId}

/-- No function lies within `c` and around `i`. -/
def Direct (t : Tree) (c i : NodeId) : Prop :=
  ∀ a, t.Within c a → t.Within a i → t.isFunction a = false

theorem find?_bindsBefore :
    (t.bindsBefore p c).find? (t.isBindOf name) = (t.before p c).reverse.find? (t.isBindOf name) := by
  rw [bindsBefore, ← List.filter_reverse, List.find?_filter]
  congr 1
  funext j
  cases h : t.isBindOf name j with
  | false => simp
  | true => simp [kindIs, isBindOf_iff.1 h, NodeKind.isBind]

theorem Ordered.resolveAlong_statement (o : t.Ordered) (away : Bool) (hc : c ∈ t.children p)
    (hp : t.kind? p = some .block) : t.resolveAlong name c away (t.ancestors c) =
      match (t.before p c).reverse.find? (t.isBindOf name) with
      | some b => .bind b
      | none =>
        match if away then ((t.children p).dropWhile (· != c)).find? (t.isBindOf name) else none with
        | some b => .bind b
        | none => t.resolveAlong name p away (t.ancestors p) := by
  rw [o.ancestors_child hc, before]
  cases hb : ((t.children p).takeWhile (· != c)).reverse.find? (t.isBindOf name) <;>
    cases ha : (if away then ((t.children p).dropWhile (· != c)).find? (t.isBindOf name) else none) <;>
    simp [resolveAlong, hp, List.span_eq_takeWhile_dropWhile, hb, ha]

theorem Ordered.resolveAlong_part (o : t.Ordered) (away : Bool) (hc : c ∈ t.children p)
    (hb : t.kind? p ≠ some .block) (hf : t.isFunction p = false) :
    t.resolveAlong name c away (t.ancestors c) = t.resolveAlong name p away (t.ancestors p) := by
  rw [o.ancestors_child hc, resolveAlong]
  split
  · exact absurd ‹_› hb
  · rename_i h
    simp [isFunction, h] at hf
  · rfl

theorem Ordered.resolveAlong_body (o : t.Ordered) (away : Bool) (hc : c ∈ t.children p)
    {parameters : List String} (hp : t.kind? p = some (.function parameters)) :
    t.resolveAlong name c away (t.ancestors c) = match parameters.idxOf? name with
      | some index => .parameter p index
      | none => t.resolveAlong name p true (t.ancestors p) := by
  rw [o.ancestors_child hc]
  cases h : parameters.idxOf? name <;> simp [resolveAlong, hp, h]

end Tree

/-- Of the arguments for parameters of one name the last one is found. -/
theorem exists_last_argument {name : String} {parameters : List String} {arguments : List Value}
    (hlength : parameters.length = arguments.length) (hmem : name ∈ parameters) :
    ∃ (j : Nat) (v : Value), arguments[j]? = some v ∧ parameters[j]? = some name ∧
      ((parameters.zip arguments).reverse.find? (·.1 == name)).map (·.2) = some v ∧
      ∀ l : Nat, parameters[l]? = some name → l ≤ j := by
  induction parameters generalizing arguments with
  | nil => cases hmem
  | cons p ps ih =>
    obtain ⟨a, as, rfl⟩ := List.exists_cons_of_length_eq_add_one hlength.symm
    rw [List.zip_cons_cons, List.reverse_cons, List.find?_append]
    by_cases hm : name ∈ ps
    · obtain ⟨j, v, ha, hp, hf, hl⟩ := ih (by simpa using hlength) hm
      obtain ⟨e, he, rfl⟩ := Option.map_eq_some_iff.1 hf
      refine ⟨j + 1, e.2, ha, hp, by simp [he], fun l h => ?_⟩
      cases l with
      | zero => exact Nat.zero_le _
      | succ l => exact Nat.succ_le_succ (hl l h)
    · obtain rfl : name = p := by simpa [hm] using hmem
      have hnone : (ps.zip as).reverse.find? (·.1 == name) = none := by
        simp only [List.find?_eq_none, List.mem_reverse, beq_iff_eq, Prod.forall]
        rintro q b hq rfl
        exact hm (List.of_mem_zip hq).1
      refine ⟨0, a, rfl, rfl, by simp [hnone], fun l h => ?_⟩
      cases l with
      | zero => exact Nat.le_refl _
      | succ l =>
        have h : ps[l]? = some name := h
        exact absurd (List.mem_of_getElem? h) hm

namespace Deeds

variable (D : Deeds) (t : Tree) (globals : ScopeId) (scopes : Scopes) (name : String) (away : Bool)
  (i : NodeId) (x : ScopeId)

/-- At the node `i` in the scope `x` a name gives what the innermost run of the block `p` has for it,
which is in the scope `y`: the value of the last bind of the name that has been run, or what the name
gives outside of the block. The statement `c` of the block holds `i`, and `b` is a bind of the name. -/
structure FromBlock (b p c : NodeId) (y o : ScopeId) : Prop where
  bind : b ∈ t.children p
  statement : c ∈ t.children p
  within : t.Within c i
  innermost : D.Innermost (· = .block p) x y o (.block p)
  answer : scopes.lookup x name = ((D.last? t y name).map (·.2)).or (scopes.lookup o name)
  same : ∀ {j v}, D.last? t y name = some (j, v) → j ∈ t.children p ∧ t.isBindOf name j = true
  before : b ∈ t.before p c → (D.last? t y name).isSome
  direct : away = false → t.Direct c i → ∃ v, D.last? t y name = some (b, v)

/-- At the node `i` in the scope `x` a name gives an argument of the innermost call of the function
`f`: the last one of those whose parameter has the name, of which `k` is the first. -/
structure FromCall (f : NodeId) (k : Nat) (c : Closure) (arguments : List Value) (j : Nat) (v : Value) :
    Prop where
  lt : i < f
  function : c.function = f
  kind : t.kind? f = some (.function c.parameters)
  innermost : ∃ y o, D.Innermost (fun u => ∃ c arguments, u = .call c arguments ∧ c.function = f)
    x y o (.call c arguments)
  parameter : c.parameters[j]? = some name
  argument : arguments[j]? = some v
  answer : scopes.lookup x name = some v
  between : ∀ l, c.parameters[l]? = some name → k ≤ l ∧ l ≤ j
  first : c.parameters[k]? = some name

/-- What is found for a name, according to what the analysis says of it. -/
def Named : Resolution → Prop
  | .bind b => ∃ p c y o, D.FromBlock t scopes name away i x b p c y o
  | .parameter f k => ∃ c arguments j v, D.FromCall t scopes name i x f k c arguments j v
  | .global => scopes.lookup x name = scopes.lookup globals name

variable {D t globals scopes name away i x}

/-- A part of a node that is no function and no block sees what the node sees. -/
theorem Named.part (o : t.Ordered) {p : NodeId} {r : Resolution}
    (h : D.Named t globals scopes name away p x r) (child : i ∈ t.children p) :
    D.Named t globals scopes name away i x r := by
  cases r with
  | global => exact h
  | parameter f k =>
    obtain ⟨c, arguments, j, v, h⟩ := h
    exact ⟨c, arguments, j, v, { h with lt := Nat.lt_trans (o.child_lt child) h.lt }⟩
  | bind b =>
    obtain ⟨q, c, y, o', h⟩ := h
    refine ⟨q, c, y, o', { h with
      within := h.within.trans (.child child)
      direct := fun ha hd => h.direct ha fun a hca hap => hd a hca (hap.trans (.child child)) }⟩

/-- What a scope has nothing for is looked for around it, and the tree is climbed likewise. -/
theorem Named.outward (o : t.Ordered) (T : D.Tell t globals scopes) {p : NodeId} {away' : Bool}
    {outside : ScopeId} {u : Purpose} {r : Resolution}
    (h : D.Named t globals scopes name away' p outside r) (child : i ∈ t.children p)
    (opened : .opens x outside u ∈ D) (none : u.has t D x name = none)
    (of : u = .block p ∨ ∃ c arguments, u = .call c arguments ∧ c.function = p)
    (ha : away = false → t.isFunction p = false → away' = false) :
    D.Named t globals scopes name away i x r := by
  have hlookup : scopes.lookup x name = scopes.lookup outside name := by
    rw [T.lookup opened, none, Option.none_or]
  cases r with
  | global => exact hlookup.trans h
  | parameter f k =>
    obtain ⟨c, arguments, j, v, h⟩ := h
    obtain ⟨y, o', hin⟩ := h.innermost
    refine ⟨c, arguments, j, v, { h with
      lt := Nat.lt_trans (o.child_lt child) h.lt
      innermost := ⟨y, o', .around opened ?_ hin⟩
      answer := hlookup.trans h.answer }⟩
    rintro ⟨c', arguments', rfl, hc'⟩
    rcases of with hu | ⟨c'', arguments'', hu, hf⟩
    · cases hu
    · cases hu
      exact Nat.ne_of_lt h.lt (hf.symm.trans hc')
  | bind b =>
    obtain ⟨q, c, y, o', h⟩ := h
    have hlt : p < q := Nat.lt_of_le_of_lt (o.within_le h.within) (o.child_lt h.statement)
    refine ⟨q, c, y, o', { h with
      within := h.within.trans (.child child)
      innermost := .around opened ?_ h.innermost
      answer := hlookup.trans h.answer
      direct := fun hf hd => h.direct (ha hf (hd p h.within (.child child))) fun a hca hap =>
        hd a hca (hap.trans (.child child)) }⟩
    rintro rfl
    rcases of with hu | ⟨c'', arguments'', hu, hf⟩
    · cases hu
      exact Nat.lt_irrefl _ hlt
    · cases hu

end Deeds

namespace Tree.Placed

variable {t : Tree} {D : Deeds} {globals : ScopeId} {scopes : Scopes} {away : Bool} {i : NodeId}
  {x : ScopeId}

/-- What is found for a name is what the analysis says. -/
theorem named (o : t.Ordered) (top : t.parent? t.root = none) (T : D.Tell t globals scopes)
    (h : t.Placed D away i x) (name : String) :
    D.Named t globals scopes name away i x (t.resolveAlong name i away (t.ancestors i)) := by
  induction h with
  | program opened =>
    rw [ancestors_root top, resolveAlong, ← T.program opened]
    exact T.lookup opened name
  | part child hb hf _ ih =>
    rw [o.resolveAlong_part _ child hb hf]
    exact ih.part o child
  | @statement away b c x out opened hb child outer run only ih =>
    have answer := T.lookup opened name
    have same {j : NodeId} {v : Value} (h : D.last? t x name = some (j, v)) :
        j ∈ t.children b ∧ t.isBindOf name j = true := by
      obtain ⟨b', hu, hj⟩ := (T.binds (Deeds.mem_bound.1 (List.mem_of_find?_eq_some h))).2 opened
      cases hu
      exact ⟨hj, List.find?_some (p := fun e : NodeId × Value => t.isBindOf name e.1) h⟩
    have found (ha : away = false) :
        (D.last? t x name).map (·.1) = (t.before b c).reverse.find? (t.isBindOf name) := by
      rw [← find?_bindsBefore, ← only ha, List.find?_map]
      rfl
    have before {j : NodeId} (hj : t.isBindOf name j = true) (hm : j ∈ t.before b c) :
        (D.last? t x name).isSome := by
      have hb : j ∈ t.bindsBefore b c := by
        simp [bindsBefore, hm, kindIs, isBindOf_iff.1 hj, NodeKind.isBind]
      obtain ⟨⟨k, v⟩, hkv, rfl⟩ := List.mem_map.1 (run.subset hb)
      exact List.find?_isSome.2 ⟨(k, v), hkv, hj⟩
    -- a bind in the block itself
    have here {j : NodeId} (hj : j ∈ t.children b) (hn : t.isBindOf name j = true)
        (direct : away = false → ∃ v, D.last? t x name = some (j, v)) :
        D.Named t globals scopes name away c x (.bind j) :=
      ⟨b, c, x, out, hj, child, .refl c, .here opened rfl, answer, same, before hn,
        fun ha _ => direct ha⟩
    rw [o.resolveAlong_statement _ child hb]
    split
    · rename_i j hfind
      refine here ?_ (List.find?_some hfind) fun ha => ?_
      · exact (List.takeWhile_sublist _).subset
          (List.mem_reverse.1 (List.mem_of_find?_eq_some hfind))
      · have := found ha
        rw [hfind] at this
        obtain ⟨⟨k, v⟩, hkv, rfl⟩ := Option.map_eq_some_iff.1 this
        exact ⟨v, hkv⟩
    · rename_i hfind
      split
      · rename_i j honwards
        cases away with
        | false => cases honwards
        | true =>
          exact here ((List.dropWhile_sublist _).subset (List.mem_of_find?_eq_some honwards))
            (List.find?_some honwards) (by simp)
      · rename_i honwards
        have hnone : D.last? t x name = none := by
          cases away with
          | false =>
            have := found rfl
            rw [hfind] at this
            exact Option.map_eq_none_iff.1 this
          | true =>
            refine Option.eq_none_iff_forall_ne_some.2 fun e he => ?_
            obtain ⟨hj, hn⟩ := same (j := e.1) (v := e.2) he
            rw [← List.takeWhile_append_dropWhile (p := (· != c)) (l := t.children b),
              List.mem_append] at hj
            rcases hj with hj | hj
            · exact List.find?_eq_none.1 hfind e.1 (List.mem_reverse.2 hj) hn
            · exact List.find?_eq_none.1 honwards e.1 hj hn
        refine ih.outward o T child opened ?_ (.inl rfl) fun ha _ => ha
        simp [Purpose.has, hnone]
  | @body away x c arguments opened hf child arity outer ih =>
    have answer := T.lookup opened name
    rw [o.resolveAlong_body _ child hf]
    split
    · rename_i k hk
      obtain ⟨hlt, hname, hfirst⟩ := List.idxOf?_eq_some_iff.1 hk
      obtain ⟨j, v, ha, hp, hv, hl⟩ :=
        exists_last_argument arity (hname ▸ List.getElem_mem hlt)
      refine ⟨c, arguments, j, v, o.child_lt child, rfl, hf,
        ⟨x, c.scope, .here opened ⟨c, arguments, rfl, rfl⟩⟩, hp, ha, ?_, fun l h => ⟨?_, hl l h⟩, ?_⟩
      · rw [answer]
        simp only [Purpose.has, hv, Option.some_or]
      · obtain ⟨hl, hn⟩ := List.getElem?_eq_some_iff.1 h
        exact Nat.le_of_not_lt fun hlk => hfirst l hlk hn
      · rw [List.getElem?_eq_getElem hlt, hname]
    · rename_i hk
      have hmem : name ∉ c.parameters := List.idxOf?_eq_none_iff.1 hk
      refine ih.outward o T child opened ?_ (.inr ⟨c, arguments, rfl, rfl⟩) fun _ h => ?_
      · simp only [Purpose.has, Option.map_eq_none_iff, List.find?_eq_none, List.mem_reverse,
          beq_iff_eq, Prod.forall]
        rintro q b hq rfl
        exact hmem (List.of_mem_zip hq).1
      · simp [isFunction, hf] at h

end Tree.Placed
end StreamLang
