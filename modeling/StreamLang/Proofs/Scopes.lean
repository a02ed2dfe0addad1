import StreamLang.Scope
/-!
Looking names up while scopes are added. What is found from a scope depends on that scope and older
ones alone, so scopes that are opened later never change it.
-/
namespace StreamLang.Scopes

/-- Every scope lies inside an older one. -/
def Nested (s : Scopes) : Prop :=
  ∀ (i : Nat) (scope : Scope) (p : Nat),
    s.all[i]? = some scope → scope.parent = some p → p < i

/-- The second store has all scopes of the first, as they were, and maybe more. -/
def Extends (s s' : Scopes) : Prop := ∀ i < s.all.size, s'.all[i]? = s.all[i]?

theorem Extends.refl (s : Scopes) : Extends s s := fun _ _ => rfl

theorem Extends.size_le {s s' : Scopes} (h : Extends s s') : s.all.size ≤ s'.all.size := by
  cases hn : s.all.size with
  | zero => omega
  | succ n =>
    have hlt : n < s.all.size := by omega
    have := h n hlt
    rw [Array.getElem?_eq_getElem hlt] at this
    have := (Array.getElem?_eq_some_iff.1 this).1
    omega

theorem Extends.trans {s s' s'' : Scopes} (h : Extends s s') (h' : Extends s' s'') :
    Extends s s'' := fun i hi =>
  (h' i (Nat.lt_of_lt_of_le hi h.size_le)).trans (h i hi)

theorem lookupWithin_eq {s : Scopes} (hn : Nested s) (name : String) (n m i : Nat) (h : i < n)
    (h' : i < m) : s.lookupWithin name n i = s.lookupWithin name m i := by
  induction n generalizing m i with
  | zero => omega
  | succ n ih =>
    cases m with
    | zero => omega
    | succ m =>
      rw [lookupWithin, lookupWithin]
      cases hs : s.all[i]? with
      | none => rfl
      | some scope =>
        cases hg : Assoc.get? name scope.bindings with
        | some b => simp only [hg]
        | none =>
          cases hp : scope.parent with
          | none => simp only [hg, hp]
          | some p =>
            have := hn i scope p hs hp
            simp only [hg, hp]
            exact ih m p (by omega) (by omega)

/-- A name is looked for in the scope itself and then around it. -/
theorem lookup_eq {s : Scopes} (hn : Nested s) {i : Nat} {scope : Scope}
    (hs : s.all[i]? = some scope) (name : String) :
    s.lookup i name = match Assoc.get? name scope.bindings with
      | some b => some (b.read i)
      | none => match scope.parent with
        | some p => s.lookup p name
        | none => none := by
  rw [lookup, lookupWithin, hs]
  cases hg : Assoc.get? name scope.bindings with
  | some v => simp only [hg]
  | none =>
    cases hp : scope.parent with
    | none => simp only [hg, hp]
    | some p =>
      have := hn i scope p hs hp
      simp only [hg, hp]
      exact lookupWithin_eq hn name i (p + 1) p (by omega) (by omega)

theorem Extends.lookup {s s' : Scopes} (h : Extends s s') (hn : Nested s) (hn' : Nested s')
    (name : String) (i : Nat) (hi : i < s.all.size) : s'.lookup i name = s.lookup i name := by
  induction i using Nat.strongRecOn with
  | ind i ih =>
    have hs : s.all[i]? = some s.all[i] := Array.getElem?_eq_getElem hi
    rw [lookup_eq hn hs, lookup_eq hn' ((h i hi).trans hs)]
    cases Assoc.get? name s.all[i].bindings with
    | some v => rfl
    | none =>
      cases hp : s.all[i].parent with
      | none => rfl
      | some p =>
        have hlt := hn i _ p hs hp
        exact ih p hlt (by omega)

/-! ### Opening a scope -/

theorem addChild_all (s : Scopes) (p i : Nat) :
    (s.addChild p).2.all[i]? =
      if i = s.all.size then some ⟨[], some p⟩ else s.all[i]? := by
  simp only [addChild, Array.getElem?_push]

theorem size_addChild (s : Scopes) (p : Nat) :
    (s.addChild p).2.all.size = s.all.size + 1 := by simp [addChild]

theorem extends_addChild (s : Scopes) (p : Nat) : Extends s (s.addChild p).2 := fun i hi => by
  rw [addChild_all, if_neg (by omega)]

/-- A single scope has no parent. -/
theorem nested_root : Nested empty.addRoot.2 := by
  intro i scope p hi hp
  cases i with
  | zero =>
    cases hi
    cases hp
  | succ i => cases hi

theorem nested_addChild {s : Scopes} (hn : Nested s) {p : Nat} (hp : p < s.all.size) :
    Nested (s.addChild p).2 := by
  intro i scope q hs hq
  rw [addChild_all] at hs
  split at hs
  · cases hs
    cases hq
    omega
  · exact hn i scope q hs hq

/-- A new scope shows what the one around it shows. -/
theorem lookup_addChild {s : Scopes} (hn : Nested s) {p : Nat} (hp : p < s.all.size)
    (name : String) : (s.addChild p).2.lookup (s.addChild p).1 name = s.lookup p name := by
  have hn' := nested_addChild hn hp
  have hs : (s.addChild p).2.all[(s.addChild p).1]? = some ⟨[], some p⟩ := by
    rw [addChild_all]
    exact if_pos rfl
  rw [lookup_eq hn' hs]
  exact (extends_addChild s p).lookup hn hn' name p hp

/-! ### Binding a name -/

theorem define_all (s : Scopes) (i : Nat) (name : String) (v : Value) (j : Nat) :
    (s.define i name v).all[j]? = (s.all[j]?).map fun scope =>
      if j = i then { scope with bindings := Assoc.put name (.keep i v) scope.bindings } else scope := by
  simp only [define, Array.getElem?_modify]
  by_cases h : i = j
  · subst h
    simp
  · simp [h, Ne.symm h]

@[simp] theorem size_define (s : Scopes) (i : Nat) (name : String) (v : Value) :
    (s.define i name v).all.size = s.all.size := by simp [define]

theorem nested_define {s : Scopes} (hn : Nested s) (i : Nat) (name : String) (v : Value) :
    Nested (s.define i name v) := by
  intro j scope p hs hp
  rw [define_all] at hs
  obtain ⟨old, hold, rfl⟩ := Option.map_eq_some_iff.1 hs
  refine hn j old p hold ?_
  split at hp <;> exact hp

/-- Binding a name in a new scope keeps all older ones. -/
theorem extends_define {s s' : Scopes} (h : Extends s s') {i : Nat} (hi : s.all.size ≤ i)
    (name : String) (v : Value) : Extends s (s'.define i name v) := fun j hj => by
  rw [define_all, h j hj]
  have : j ≠ i := by omega
  simp [this]

/-- What is found from older scopes stays. -/
theorem lookup_define_of_lt {s : Scopes} (hn : Nested s) {i j : Nat} (hj : j < i) (name : String)
    (v : Value) (other : String) : (s.define i name v).lookup j other = s.lookup j other := by
  have hn' := nested_define hn i name v
  induction j using Nat.strongRecOn with
  | ind j ih =>
    have hsame : (s.define i name v).all[j]? = s.all[j]? := by
      rw [define_all]
      simp [Nat.ne_of_lt hj]
    cases hs : s.all[j]? with
    | none => rw [lookup, lookup, lookupWithin, lookupWithin, hsame, hs]
    | some scope =>
      rw [lookup_eq hn' (hsame.trans hs), lookup_eq hn hs]
      cases Assoc.get? other scope.bindings with
      | some w => rfl
      | none =>
        cases hp : scope.parent with
        | none => rfl
        | some p =>
          have hlt := hn j scope p hs hp
          exact ih p hlt (Nat.lt_trans hlt hj)

/-- A name bound in a scope is found there; all others are found as before. -/
theorem lookup_define {s : Scopes} (hn : Nested s) {i : Nat} (hi : i < s.all.size)
    (name : String) (v : Value) (other : String) :
    (s.define i name v).lookup i other =
      if name = other then some v else s.lookup i other := by
  have hs : s.all[i]? = some s.all[i] := Array.getElem?_eq_getElem hi
  have hs' : (s.define i name v).all[i]? =
      some { s.all[i] with bindings := Assoc.put name (.keep i v) s.all[i].bindings } := by
    rw [define_all, hs]
    simp
  have hn' := nested_define hn i name v
  rw [lookup_eq hn' hs', lookup_eq hn hs, Assoc.get?_put]
  by_cases h : name = other
  · simp [h]
  · simp only [h, if_false]
    cases Assoc.get? other s.all[i].bindings with
    | some w => rfl
    | none =>
      cases hp : s.all[i].parent with
      | none => rfl
      | some p => exact lookup_define_of_lt hn (hn i _ p hs hp) name v other

/-! ### Binding names -/

section Bindings

variable {s s' : Scopes} {i : ScopeId}

@[simp] theorem size_defineAll (s : Scopes) (i : ScopeId) (bindings : List (String × Value)) :
    (s.defineAll i bindings).all.size = s.all.size := by
  induction bindings generalizing s with
  | nil => rfl
  | cons b rest ih => exact (ih (s.define i b.1 b.2)).trans (size_define s i b.1 b.2)

theorem nested_defineAll (hn : Nested s) (i : ScopeId) (bindings : List (String × Value)) :
    Nested (s.defineAll i bindings) := by
  induction bindings generalizing s with
  | nil => exact hn
  | cons b rest ih => exact ih (nested_define hn i b.1 b.2)

theorem extends_defineAll (h : Extends s s') (hi : s.all.size ≤ i)
    (bindings : List (String × Value)) : Extends s (s'.defineAll i bindings) := by
  induction bindings generalizing s' with
  | nil => exact h
  | cons b rest ih => exact ih (extends_define h hi b.1 b.2)

end Bindings

/-! ### What a scope has itself -/

/-- What a scope has for a name, not looking outwards. -/
def own? (s : Scopes) (i : ScopeId) (name : String) : Option Value :=
  (Assoc.get? name (s.bindings i)).map (·.read i)

/-- The scope around another. -/
def outside? (s : Scopes) (i : ScopeId) : Option ScopeId := (s.all[i]?).bind (·.parent)

section Own

variable {s : Scopes} {i o : ScopeId}

theorem outside?_lt (hn : Nested s) (h : s.outside? i = some o) : o < i := by
  obtain ⟨scope, hs, hp⟩ := Option.bind_eq_some_iff.1 h
  exact hn i scope o hs hp

theorem lt_size_of_outside? (h : s.outside? i = some o) : i < s.all.size := by
  obtain ⟨scope, hs, -⟩ := Option.bind_eq_some_iff.1 h
  exact (Array.getElem?_eq_some_iff.1 hs).1

theorem lookup_eq_own? (hn : Nested s) (h : s.outside? i = some o) (name : String) :
    s.lookup i name = (s.own? i name).or (s.lookup o name) := by
  obtain ⟨scope, hs, hp⟩ := Option.bind_eq_some_iff.1 h
  rw [lookup_eq hn hs, hp]
  simp only [own?, bindings, hs, Option.map_some, Option.getD_some]
  cases Assoc.get? name scope.bindings <;> rfl

theorem own?_of_le (h : s.all.size ≤ i) (name : String) : s.own? i name = none := by
  simp [own?, bindings, h]

@[simp] theorem own?_addChild (s : Scopes) (p i : ScopeId) (name : String) :
    (s.addChild p).2.own? i name = s.own? i name := by
  simp only [own?, bindings, addChild_all]
  split
  · subst_vars
    simp
  · rfl

theorem outside?_addChild (s : Scopes) (p i : ScopeId) :
    (s.addChild p).2.outside? i = if i = s.all.size then some p else s.outside? i := by
  simp only [outside?, addChild_all]
  split <;> rfl

theorem own?_define (hi : i < s.all.size) (name : String) (v : Value) (j : ScopeId)
    (other : String) : (s.define i name v).own? j other =
      if j = i ∧ name = other then some v else s.own? j other := by
  simp only [own?, bindings, define_all]
  by_cases hj : j = i
  · subst hj
    have hs : s.all[j]? = some s.all[j] := Array.getElem?_eq_getElem hi
    simp only [hs, Option.map_some, if_true, Option.getD_some, Assoc.get?_put, true_and]
    split <;> simp
  · cases s.all[j]? <;> simp [hj]

@[simp] theorem outside?_define (s : Scopes) (i : ScopeId) (name : String) (v : Value)
    (j : ScopeId) : (s.define i name v).outside? j = s.outside? j := by
  simp only [outside?, define_all]
  cases s.all[j]? with
  | none => rfl
  | some scope =>
    simp only [Option.map_some, Option.bind_some]
    split <;> rfl

theorem own?_defineAll (hi : i < s.all.size) (bindings : List (String × Value)) (j : ScopeId)
    (name : String) : (s.defineAll i bindings).own? j name =
      if j = i then ((bindings.reverse.find? (·.1 == name)).map (·.2)).or (s.own? j name)
      else s.own? j name := by
  induction bindings generalizing s with
  | nil => simp [defineAll]
  | cons b rest ih =>
    have hstep : s.defineAll i (b :: rest) = (s.define i b.1 b.2).defineAll i rest := rfl
    rw [hstep, ih (by simpa using hi), own?_define hi, List.reverse_cons, List.find?_append]
    by_cases hj : j = i
    · cases rest.reverse.find? (·.1 == name) with
      | some c => simp [hj]
      | none => by_cases hb : b.1 = name <;> simp [hj, hb]
    · simp [hj]

@[simp] theorem outside?_defineAll (s : Scopes) (i : ScopeId) (bindings : List (String × Value))
    (j : ScopeId) : (s.defineAll i bindings).outside? j = s.outside? j := by
  induction bindings generalizing s with
  | nil => rfl
  | cons b rest ih => exact (ih (s.define i b.1 b.2)).trans (outside?_define s i b.1 b.2 j)

end Own

end StreamLang.Scopes
