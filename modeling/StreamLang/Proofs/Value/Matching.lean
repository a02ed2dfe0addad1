import StreamLang.Proofs.Machine.Functions
/-!
Values that are the same but for their functions. Of the functions, those that stand in the same places
are related in some way. As long as the relation keeps apart what equality keeps apart, no operator can
tell such values from each other, and a value without functions is related to itself only.
-/
namespace StreamLang

/-- Related functions take as many arguments, and they are equal to each other on one side just if they
are on the other. -/
structure Closure.Respected (M : Closure → Closure → Prop) : Prop where
  parameters : ∀ {c c'}, M c c' → c.parameters = c'.parameters
  same : ∀ {c c' d d'}, M c c' → M d d' → c.same d = c'.same d'

namespace Value

mutual
/-- The values are the same but for functions, which are related. -/
def Matches (M : Closure → Closure → Prop) : Value → Value → Prop
  | number a, number b => a = b
  | text a, text b => a = b
  | boolean a, boolean b => a = b
  | list vs, list ws => MatchesItems M vs ws
  | struct xs, struct ys => MatchesFields M xs ys
  | function c, function d => M c d
  | exception a, exception b => a = b
  | _, _ => False

def MatchesItems (M : Closure → Closure → Prop) : List Value → List Value → Prop
  | [], [] => True
  | v :: vs, w :: ws => v.Matches M w ∧ MatchesItems M vs ws
  | _, _ => False

def MatchesFields (M : Closure → Closure → Prop) :
    List (String × Value) → List (String × Value) → Prop
  | [], [] => True
  | (name, v) :: xs, (name', w) :: ys => name = name' ∧ v.Matches M w ∧ MatchesFields M xs ys
  | _, _ => False
end

variable {M N : Closure → Closure → Prop}

mutual
theorem Matches.mono (h : ∀ c d, M c d → N c d) : ∀ {v w : Value}, v.Matches M w → v.Matches N w
  | list _, list _, hv => MatchesItems.mono h hv
  | struct _, struct _, hv => MatchesFields.mono h hv
  | function _, function _, hv => h _ _ hv
  | number _, number _, hv => hv
  | text _, text _, hv => hv
  | boolean _, boolean _, hv => hv
  | exception _, exception _, hv => hv

theorem MatchesItems.mono (h : ∀ c d, M c d → N c d) : ∀ {vs ws : List Value},
    MatchesItems M vs ws → MatchesItems N vs ws
  | [], [], _ => trivial
  | _ :: _, _ :: _, hv => ⟨hv.1.mono h, hv.2.mono h⟩

theorem MatchesFields.mono (h : ∀ c d, M c d → N c d) : ∀ {xs ys : List (String × Value)},
    MatchesFields M xs ys → MatchesFields N xs ys
  | [], [], _ => trivial
  | (_, _) :: _, (_, _) :: _, hv => ⟨hv.1, hv.2.1.mono h, hv.2.2.mono h⟩
end

mutual
/-- A value whose functions are related to themselves is related to itself. -/
theorem Matches.self : ∀ {v : Value}, (v.Every fun c => M c c) → v.Matches M v
  | number _, _ | text _, _ | boolean _, _ | exception _, _ => rfl
  | function c, h => h c (.self c)
  | list _, h => MatchesItems.self (every_list.1 h)
  | struct _, h => MatchesFields.self (every_struct.1 h)

theorem MatchesItems.self : ∀ {vs : List Value}, (∀ v ∈ vs, v.Every fun c => M c c) →
    MatchesItems M vs vs
  | [], _ => trivial
  | _ :: _, h =>
    ⟨Matches.self (h _ List.mem_cons_self),
      MatchesItems.self fun v hv => h v (List.mem_cons_of_mem _ hv)⟩

theorem MatchesFields.self : ∀ {xs : List (String × Value)}, (∀ f ∈ xs, f.2.Every fun c => M c c) →
    MatchesFields M xs xs
  | [], _ => trivial
  | (_, _) :: _, h => ⟨rfl, Matches.self (h _ List.mem_cons_self),
      MatchesFields.self fun f hf => h f (List.mem_cons_of_mem _ hf)⟩
end

/-- Without functions a value is related to itself only. -/
theorem matches_of_plain {v : Value} (h : v.Every fun _ => False) : v.Matches M v :=
  Matches.self (h.mono fun _ => False.elim)

mutual
/-- A value whose functions are related to themselves only is related to itself only. -/
theorem Matches.eq : ∀ {v w : Value}, v.Matches M w → (v.Every fun c => ∀ d, M c d → c = d) → v = w
  | number _, number _, h, _ => congrArg _ h
  | text _, text _, h, _ => congrArg _ h
  | boolean _, boolean _, h, _ => congrArg _ h
  | exception _, exception _, h, _ => congrArg _ h
  | list _, list _, h, only => congrArg _ (MatchesItems.eq h (every_list.1 only))
  | struct _, struct _, h, only => congrArg _ (MatchesFields.eq h (every_struct.1 only))
  | function _, function _, h, only => congrArg _ (every_function.1 only _ h)

theorem MatchesItems.eq : ∀ {vs ws : List Value}, MatchesItems M vs ws →
    (∀ v ∈ vs, v.Every fun c => ∀ d, M c d → c = d) → vs = ws
  | [], [], _, _ => rfl
  | _ :: _, _ :: _, h, only => by
    rw [h.1.eq (only _ List.mem_cons_self), h.2.eq fun v hv => only v (List.mem_cons_of_mem _ hv)]

theorem MatchesFields.eq : ∀ {xs ys : List (String × Value)}, MatchesFields M xs ys →
    (∀ f ∈ xs, f.2.Every fun c => ∀ d, M c d → c = d) → xs = ys
  | [], [], _, _ => rfl
  | (_, _) :: _, (_, _) :: _, h, only => by
    rw [h.1, h.2.1.eq (only _ List.mem_cons_self),
      h.2.2.eq fun f hf => only f (List.mem_cons_of_mem _ hf)]
end

/-! ### Operators -/

section Operators

variable {v v' w w' : Value}

theorem Matches.typeName_eq (h : v.Matches M v') : v.typeName = v'.typeName := by
  cases v <;> cases v' <;> first | rfl | cases h

theorem Matches.isException_eq (h : v.Matches M v') : v.isException = v'.isException := by
  cases v <;> cases v' <;> first | rfl | cases h

theorem MatchesItems.length_eq : ∀ {vs ws : List Value}, MatchesItems M vs ws →
    vs.length = ws.length
  | [], [], _ => rfl
  | _ :: _, _ :: _, h => congrArg Nat.succ h.2.length_eq

theorem MatchesFields.length_eq : ∀ {xs ys : List (String × Value)}, MatchesFields M xs ys →
    xs.length = ys.length
  | [], [], _ => rfl
  | (_, _) :: _, (_, _) :: _, h => congrArg Nat.succ h.2.2.length_eq

theorem MatchesFields.get? (name : String) : ∀ {xs ys : List (String × Value)},
    MatchesFields M xs ys → Option.Rel (Matches M) (Assoc.get? name xs) (Assoc.get? name ys)
  | [], [], _ => .none
  | (a, _) :: _, (_, _) :: _, ⟨rfl, hv, hs⟩ => by
    by_cases h : a = name
    · simpa [Assoc.get?, h] using Option.Rel.some hv
    · simpa [Assoc.get?, h] using hs.get? name

theorem MatchesFields.put (name : String) (hv : v.Matches M v') :
    ∀ {xs ys : List (String × Value)}, MatchesFields M xs ys →
      MatchesFields M (Assoc.put name v xs) (Assoc.put name v' ys)
  | [], [], _ => ⟨rfl, hv, trivial⟩
  | (a, _) :: _, (_, _) :: _, ⟨rfl, hu, hs⟩ => by
    by_cases h : a = name
    · simpa [Assoc.put, h] using ⟨rfl, hv, hs⟩
    · simpa [Assoc.put, h] using ⟨rfl, hu, hs.put name hv⟩

mutual
/-- Equality cannot tell them apart. -/
theorem Matches.equal_eq (hM : Closure.Respected M) : ∀ {v v' w w' : Value}, v.Matches M v' →
    w.Matches M w' → v.equal w = v'.equal w'
  | list vs, list vs', w, w', h, h' => by
    cases w <;> cases w' <;> first | rfl | cases h' | skip
    exact MatchesItems.equalItems_eq hM h h'
  | struct xs, struct xs', w, w', h, h' => by
    cases w <;> cases w' <;> first | rfl | cases h' | skip
    rename_i ys ys'
    simp only [equal, h.length_eq, MatchesFields.length_eq h',
      MatchesFields.equalFields_eq hM h h']
  | function c, function c', w, w', h, h' => by
    cases w <;> cases w' <;> first | rfl | cases h' | skip
    exact hM.same h h'
  | number _, number _, w, w', rfl, h' | text _, text _, w, w', rfl, h'
  | boolean _, boolean _, w, w', rfl, h' | exception _, exception _, w, w', rfl, h' => by
    cases w <;> cases w' <;> first | rfl | cases h' <;> rfl

theorem MatchesItems.equalItems_eq (hM : Closure.Respected M) : ∀ {vs vs' ws ws' : List Value},
    MatchesItems M vs vs' → MatchesItems M ws ws' → equalItems vs ws = equalItems vs' ws'
  | [], [], [], [], _, _ => rfl
  | [], [], _ :: _, _ :: _, _, _ => rfl
  | _ :: _, _ :: _, [], [], _, _ => rfl
  | _ :: _, _ :: _, _ :: _, _ :: _, h, h' => by
    rw [equalItems, equalItems, h.1.equal_eq hM h'.1, MatchesItems.equalItems_eq hM h.2 h'.2]

theorem MatchesFields.equalFields_eq (hM : Closure.Respected M) :
    ∀ {xs xs' ys ys' : List (String × Value)}, MatchesFields M xs xs' → MatchesFields M ys ys' →
      equalFields xs ys = equalFields xs' ys'
  | [], [], _, _, _, _ => rfl
  | (name, v) :: _, (_, v') :: _, ys, ys', ⟨rfl, hv, hs⟩, h' => by
    have hget := h'.get? name
    rw [equalFields, equalFields, MatchesFields.equalFields_eq hM hs h']
    revert hget
    cases Assoc.get? name ys <;> cases Assoc.get? name ys' <;> intro hget <;> cases hget
    · rfl
    · simp only [hv.equal_eq hM ‹_›]
end

theorem Matches.applyOperator_eq (hv : v.Matches M v') (hw : w.Matches M w') (o : BinaryOperator)
    (i : NodeId) : applyOperator o v w i = applyOperator o v' w' i := by
  have htv := hv.typeName_eq
  have htw := hw.typeName_eq
  cases v <;> cases v' <;> first
    | (exfalso; exact hv)
    | (cases w <;> cases w' <;> first
        | (exfalso; exact hw)
        | (cases hv; cases hw; rfl)
        | (cases hv; cases o <;> simp only [applyOperator, htw])
        | (cases hw; cases o <;> simp only [applyOperator, htv])
        | (cases o <;> simp only [applyOperator, htv, htw]))

theorem Matches.binary (hM : Closure.Respected M) (hv : v.Matches M v') (hw : w.Matches M w')
    (o : BinaryOperator) (i : NodeId) : (binary o v w i).Matches M (Value.binary o v' w' i) := by
  unfold Value.binary
  split
  · exact hv.equal_eq hM hw
  · exact congrArg (!·) (hv.equal_eq hM hw)
  · rw [← hv.isException_eq, ← hw.isException_eq]
    split
    · exact hv
    · split
      · exact hw
      · rw [hv.applyOperator_eq hw]
        exact matches_of_plain (every_applyOperator _ _ _ _)

theorem Matches.unary (hv : v.Matches M v') (o : UnaryOperator) (i : NodeId) :
    (unary o v i).Matches M (Value.unary o v' i) := by
  have heq : Value.unary o v i = Value.unary o v' i := by
    have ht := hv.typeName_eq
    cases v <;> cases v' <;> first
      | (exfalso; exact hv)
      | (cases hv; rfl)
      | (cases o <;> simp only [Value.unary, ht])
  rw [heq]
  exact matches_of_plain (every_unary o v' i)

theorem Matches.property (hv : v.Matches M v') (name : String) (i : NodeId) :
    (v.property name i).Matches M (v'.property name i) := by
  have ht := hv.typeName_eq
  cases v <;> cases v' <;> first
    | (exfalso; exact hv)
    | (cases hv; exact matches_of_plain (by simp [Value.property, mismatch]))
    | skip
  · exact matches_of_plain (by simp [Value.property, mismatch])
  · rename_i xs ys
    have hget := MatchesFields.get? name hv
    simp only [Value.property]
    revert hget
    cases Assoc.get? name xs <;> cases Assoc.get? name ys <;> intro hget <;> cases hget
    · rfl
    · assumption
  · exact matches_of_plain (by simp [Value.property, mismatch])

end Operators

end Value

namespace Machine

open Value

variable {M : Closure → Closure → Prop}

end Machine
end StreamLang
