import Mathlib.Tactic.MkIffOfInductiveProp
import StreamLang.Proofs.Value.Equality
import StreamLang.Value.Display
import StreamLang.Value.Operations
/-!
What a change can hide behind equality. Values that settle into the same form are of one type, and so
are what operators and field access make of them, but for quotients by zeros of different signs
(`Value.alike_of_equal`).
-/
namespace StreamLang
namespace Value

variable {v v' w w' : Value} {a a' b b' : Number}

/-! ### Values that settle into the same form -/

@[simp] theorem settled_eq_text {s : String} : v.settled = text s ↔ v = text s := by
  cases v <;> simp [settled]

@[simp] theorem settled_eq_boolean {c : Bool} : v.settled = boolean c ↔ v = boolean c := by
  cases v <;> simp [settled]

@[simp] theorem settled_eq_exception {e : Exception} : v.settled = exception e ↔ v = exception e := by
  cases v <;> simp [settled]

theorem settled_eq_number {n : Number} : v.settled = number n ↔
    ∃ a, v = number a ∧ a.amount.unsigned = n.amount ∧ a.unit = n.unit := by
  obtain ⟨amount, unit⟩ := n
  cases v <;> simp [settled]

theorem settled_number : (number a).settled = (number b).settled ↔
    a.amount.unsigned = b.amount.unsigned ∧ a.unit = b.unit := by
  simp [settled]

theorem typeName_congr (h : v.settled = v'.settled) : v.typeName = v'.typeName := by
  have kept (u : Value) : u.settled.typeName = u.typeName := by cases u <;> rfl
  rw [← kept v, h, kept v']

theorem isException_congr (h : v.settled = v'.settled) : v.isException = v'.isException := by
  have kept (u : Value) : u.settled.isException = u.isException := by cases u <;> rfl
  rw [← kept v, h, kept v']

/-- Numbers in the same place have amounts of the same sign. -/
def SameSign : Value → Value → Prop
  | number a, number b => a.amount.negative = b.amount.negative
  | _, _ => True

theorem SameSign.refl (v : Value) : v.SameSign v := by cases v <;> simp [SameSign]

/-! ### Operators -/

theorem settled_arithmetic (o : BinaryOperator) (i : NodeId)
    (ha : (number a).settled = (number a').settled) (hb : (number b).settled = (number b').settled)
    (hdivisor : o = .divide → (number b).SameSign (number b')) :
    (arithmetic o a b i).settled = (arithmetic o a' b' i).settled := by
  obtain ⟨ha, haunit⟩ := settled_number.1 ha
  obtain ⟨hb, hbunit⟩ := settled_number.1 hb
  have hless := Amount.comparisons_congr ha hb
  have hgreater := Amount.comparisons_congr hb ha
  unfold arithmetic
  rw [unitText, unitText, unitText, unitText, haunit, hbunit]
  split
  · rfl
  · cases o with
    | add => exact settled_number.2 ⟨Amount.unsigned_add ha hb, rfl⟩
    | subtract => exact settled_number.2 ⟨Amount.unsigned_sub ha hb, rfl⟩
    | multiply => exact settled_number.2 ⟨Amount.unsigned_mul ha hb, rfl⟩
    | remainder => exact settled_number.2 ⟨Amount.unsigned_rem ha hb, rfl⟩
    | divide =>
      have hsame : b.amount = b'.amount := by
        rcases Amount.unsigned_eq_iff.1 hb with h | ⟨hzero, hzero'⟩
        · exact h
        · exact Amount.ext_of_magnitude (hdivisor rfl) (by simp_all [Amount.isZero])
      refine settled_number.2 ⟨?_, rfl⟩
      simpa [hsame] using Amount.unsigned_div ha b'.amount
    | less => exact congrArg (settled ∘ boolean) hless.1
    | greater => exact congrArg (settled ∘ boolean) hgreater.1
    | lessOrEqual => exact congrArg (settled ∘ boolean) hless.2
    | greaterOrEqual => exact congrArg (settled ∘ boolean) hgreater.2
    | _ => rfl

theorem settled_applyOperator (o : BinaryOperator) (i : NodeId) (hv : v.settled = v'.settled)
    (hw : w.settled = w'.settled) (hdivisor : o = .divide → w.SameSign w') :
    (applyOperator o v w i).settled = (applyOperator o v' w' i).settled := by
  unfold applyOperator
  split
  · rw [eq_comm, settled, settled_eq_text] at hv hw
    rw [hv, hw]
  · rw [eq_comm, settled, settled_eq_boolean] at hv hw
    rw [hv, hw]
  · rw [eq_comm, settled, settled_eq_boolean] at hv hw
    rw [hv, hw]
  · obtain ⟨c, rfl, -⟩ := settled_eq_number.1 hv.symm
    obtain ⟨d, rfl, -⟩ := settled_eq_number.1 hw.symm
    cases o <;> exact settled_arithmetic _ i hv hw hdivisor
  · -- Operands that settle alike do not fit either.
    rename_i hnumber hadd hand hor
    split
    · rw [settled, settled_eq_text] at hv hw
      exact (hadd _ _ rfl hv hw).elim
    · rw [settled, settled_eq_boolean] at hv hw
      exact (hand _ _ rfl hv hw).elim
    · rw [settled, settled_eq_boolean] at hv hw
      exact (hor _ _ rfl hv hw).elim
    · obtain ⟨c, rfl, -⟩ := settled_eq_number.1 hv
      obtain ⟨d, rfl, -⟩ := settled_eq_number.1 hw
      exact (hnumber c d rfl rfl).elim
    · rw [typeName_congr hv, typeName_congr hw]

/-- Equality sees no more than the forms that the values settle into. -/
theorem equal_congr (hd : v.Throughout Distinct) (hd' : v'.Throughout Distinct)
    (he : w.Throughout Distinct) (he' : w'.Throughout Distinct) (hv : v.settled = v'.settled)
    (hw : w.settled = w'.settled) : v.equal w = v'.equal w' := by
  rw [Bool.eq_iff_iff, equal_iff hd he, equal_iff hd' he', hv, hw, ← defined_settled, hv,
    defined_settled]

theorem settled_binary (o : BinaryOperator) (i : NodeId) (hd : v.Throughout Distinct)
    (hd' : v'.Throughout Distinct) (he : w.Throughout Distinct) (he' : w'.Throughout Distinct)
    (hv : v.settled = v'.settled) (hw : w.settled = w'.settled)
    (hdivisor : o = .divide → w.SameSign w') :
    (binary o v w i).settled = (binary o v' w' i).settled := by
  have hequal : v.equal w = v'.equal w' := equal_congr hd hd' he he' hv hw
  unfold binary
  rw [hequal, isException_congr hv, isException_congr hw]
  split
  · rfl
  · rfl
  · split
    · exact hv
    · split
      · exact hw
      · exact settled_applyOperator o i hv hw hdivisor

theorem settled_unary (o : UnaryOperator) (i : NodeId) (hv : v.settled = v'.settled) :
    (unary o v i).settled = (unary o v' i).settled := by
  unfold unary
  split
  · rw [eq_comm, settled, settled_eq_exception] at hv
    rw [hv]
  · obtain ⟨c, rfl, -⟩ := settled_eq_number.1 hv.symm
    obtain ⟨hamount, hunit⟩ := settled_number.1 hv
    exact settled_number.2 ⟨Amount.unsigned_neg hamount, hunit⟩
  · rw [eq_comm, settled, settled_eq_boolean] at hv
    rw [hv]
  · rename_i hexception hnumber hboolean
    split
    · rw [settled, settled_eq_exception] at hv
      exact (hexception _ hv).elim
    · obtain ⟨c, rfl, -⟩ := settled_eq_number.1 hv
      exact (hnumber c rfl rfl).elim
    · rw [settled, settled_eq_boolean] at hv
      exact (hboolean _ rfl hv).elim
    · rw [typeName_congr hv]

/-! ### Fields -/

/-- What a field settles into is told by what the structure settles into. -/
theorem get?_settled {xs : List (String × Value)} (hx : (struct xs).Distinct) {name : String}
    {u : Value} : (Assoc.get? name xs).map settled = some u ↔ (name, u) ∈ settledFields xs := by
  rw [mem_settledFields, Option.map_eq_some_iff]
  constructor
  · rintro ⟨v, hget, rfl⟩
    exact ⟨v, Assoc.mem_of_get? hget, rfl⟩
  · rintro ⟨v, hmem, rfl⟩
    exact ⟨v, Assoc.get?_of_mem hx hmem, rfl⟩

theorem settled_property (name : String) (i : NodeId) (hd : v.Throughout Distinct)
    (hd' : v'.Throughout Distinct) (hv : v.settled = v'.settled) :
    (property v name i).settled = (property v' name i).settled := by
  cases v with
  | struct xs =>
    cases v' with
    | struct ys =>
      have hperm := (settled_struct_eq_iff hd.self).1 hv
      have hget : (Assoc.get? name xs).map settled = (Assoc.get? name ys).map settled := by
        refine Option.ext fun u => ?_
        rw [get?_settled hd.self, get?_settled hd'.self, hperm.mem_iff]
      unfold property
      cases hx : Assoc.get? name xs <;> cases hy : Assoc.get? name ys <;> simp_all
    | _ => simp [settled] at hv
  | exception e =>
    rw [eq_comm, settled, settled_eq_exception] at hv
    rw [hv]
  | _ => cases v' <;> simp_all [settled, property, typeName]

/-! ### What follows -/

theorem distinct_failure (kind : ExceptionKind) (message : String) (i : NodeId) :
    (failure kind message i).Throughout Distinct := throughout_exception.2 trivial

theorem distinct_of_isException (h : v.isException = true) : v.Throughout Distinct := by
  cases v <;> simp_all [isException, Distinct]

theorem distinct_arithmetic (o : BinaryOperator) (a b : Number) (i : NodeId) :
    (arithmetic o a b i).Throughout Distinct := by
  unfold arithmetic
  split
  · exact distinct_failure _ _ _
  · cases o <;> simp [mismatch, distinct_failure, Distinct]

theorem distinct_binary (o : BinaryOperator) (v w : Value) (i : NodeId) :
    (binary o v w i).Throughout Distinct := by
  unfold binary
  split
  · exact throughout_boolean.2 trivial
  · exact throughout_boolean.2 trivial
  · split
    · exact distinct_of_isException ‹_›
    · split
      · exact distinct_of_isException ‹_›
      · unfold applyOperator
        split
        · exact throughout_text.2 trivial
        · exact throughout_boolean.2 trivial
        · exact throughout_boolean.2 trivial
        · exact distinct_arithmetic _ _ _ _
        · exact distinct_failure _ _ _

theorem distinct_unary (o : UnaryOperator) (v : Value) (i : NodeId) :
    (unary o v i).Throughout Distinct := by
  unfold unary
  split <;> simp [mismatch, distinct_failure, Distinct]

theorem distinct_property (hd : v.Throughout Distinct) (name : String) (i : NodeId) :
    (property v name i).Throughout Distinct := by
  unfold property
  split
  · exact throughout_exception.2 trivial
  · split
    · exact hd.field (Assoc.mem_of_get? ‹_›)
    · exact distinct_failure _ _ _
  · exact distinct_failure _ _ _

/-- The values differ at most in the signs of zeros and the order of fields: they are the same if
these agree, and equal unless something in them is undefined. -/
structure Alike (v w : Value) : Prop where
  settled : v.settled = w.settled
  equal_iff : v.equal w = true ↔ v.Throughout Defined
  same : v.Aligned w → v = w

theorem alike_of_settled (hd : v.Throughout Distinct) (he : w.Throughout Distinct)
    (plain : v.Every fun _ => False) (h : v.settled = w.settled) : Alike v w where
  settled := h
  equal_iff := by rw [Value.equal_iff hd he, and_iff_right h]
  same := eq_of_aligned hd he plain h

/-- A change between equal values is one of signs of zeros and of the order of fields, and nothing
in the values is undefined. Whatever operators and field access make of them is alike again, unless
the divisors of quotients are zeros of different signs. -/
theorem alike_of_equal (plain : v.Every fun _ => False) (hd : v.Throughout Distinct)
    (he : w.Throughout Distinct) (h : v.equal w = true) :
    v.Throughout Defined ∧ Alike v w ∧ (v.Aligned w → v.display = w.display) ∧
      ∀ i : NodeId,
        (∀ o u, u.Throughout Distinct → Alike (binary o v u i) (binary o w u i) ∧
          ((o = .divide → v.SameSign w) → Alike (binary o u v i) (binary o u w i))) ∧
        (∀ o, Alike (unary o v i) (unary o w i)) ∧
        ∀ name, Alike (property v name i) (property w name i) := by
  obtain ⟨hsettled, hdefined⟩ := (equal_iff hd he).1 h
  have halike : Alike v w := alike_of_settled hd he plain hsettled
  have of_binary (o : BinaryOperator) (v w v' w' : Value) (i : NodeId)
      (h : (binary o v w i).settled = (binary o v' w' i).settled) :
      Alike (binary o v w i) (binary o v' w' i) :=
    alike_of_settled (distinct_binary _ _ _ _) (distinct_binary _ _ _ _) (every_binary _ _ _ _) h
  refine ⟨hdefined, halike, fun ha => congrArg display (halike.same ha), fun i => ⟨fun o u hu =>
    ⟨?_, fun hsign => ?_⟩, fun o => ?_, fun name => ?_⟩⟩
  · exact of_binary _ _ _ _ _ _ (settled_binary o i hd he hu hu hsettled rfl fun _ => .refl u)
  · exact of_binary _ _ _ _ _ _ (settled_binary o i hu hu hd he rfl hsettled hsign)
  · exact alike_of_settled (distinct_unary _ _ _) (distinct_unary _ _ _) (every_unary _ _ _)
      (settled_unary o i hsettled)
  · exact alike_of_settled (distinct_property hd _ _) (distinct_property he _ _)
      (plain.property _ _) (settled_property name i hd he hsettled)

/-! A structure with a zero and, within a list, one with a negative zero: in the second one both have
the other sign and all fields the other order. -/

namespace Hidden

def before : Value :=
  .struct [("sum", .plain .zero),
    ("parts", .list [.struct [("x", .number ⟨.negativeZero, some "m"⟩), ("y", .text "a")]])]
def after : Value :=
  .struct [("parts", .list [.struct [("y", .text "a"), ("x", .number ⟨.zero, some "m"⟩)]]),
    ("sum", .plain .negativeZero)]

def one : Value := .plain ⟨0x3FF0000000000000⟩
def forward : Value := .struct [("x", one), ("y", .boolean true)]
def backward : Value := .struct [("y", .boolean true), ("x", one)]

/-- What can be read off the values. -/
@[mk_iff]
structure Checked : Prop where
  equal : before.equal after = true
  zeros : (plain .zero).equal (plain .negativeZero) = true
  zeros_shown : (plain .zero).display ≠ (plain .negativeZero).display
  quotients : (binary .divide one (plain .zero) 0).equal
    (binary .divide one (plain .negativeZero) 0) = false
  orders : forward.equal backward = true
  orders_shown : forward.display ≠ backward.display
  infinities : (plain .infinity).equal (plain .infinity) = true
  difference : (binary .subtract (plain .infinity) (plain .infinity) 0).equal
    (binary .subtract (plain .infinity) (plain .infinity) 0) = false

theorem checked : Checked := checked_iff.2 (by decide +kernel)

end Hidden

open Hidden in
/-- The two structures are alike, and so are their sums. -/
theorem Hidden.before_after_alike :
    before.Every (fun _ => False) ∧ before.Throughout Distinct ∧ after.Throughout Distinct ∧
      before.equal after = true ∧ Alike before after ∧
      Alike (property before "sum" 0) (property after "sum" 0) ∧
      Alike (binary .equal before one 0) (binary .equal after one 0) ∧
      Alike (binary .divide one before 0) (binary .divide one after 0) := by
  have hplain : before.Every fun _ => False := by simp [before, plain]
  have hd : before.Throughout Distinct := by simp [before, plain, Distinct]
  have he : after.Throughout Distinct := by simp [after, plain, Distinct]
  have hone : one.Throughout Distinct := by simp [one, plain, Distinct]
  obtain ⟨-, halike, -, h⟩ := alike_of_equal hplain hd he checked.equal
  obtain ⟨hbinary, -, hproperty⟩ := h 0
  exact ⟨hplain, hd, he, checked.equal, halike, hproperty "sum", (hbinary .equal one hone).1,
    (hbinary .divide one hone).2 fun _ => trivial⟩

open Hidden in
/-- Equal values may be shown differently: a zero and its negative, by which quotients differ too, and
the fields of a structure in another order. An infinity less itself is not equal to the same again. -/
theorem exists_shown_differently :
    ((plain .zero).equal (plain .negativeZero) = true ∧
      (plain .zero).display ≠ (plain .negativeZero).display ∧
      (binary .divide one (plain .zero) 0).equal
        (binary .divide one (plain .negativeZero) 0) = false) ∧
    (forward.equal backward = true ∧ forward.display ≠ backward.display) ∧
    (plain .infinity).equal (plain .infinity) = true ∧
      (binary .subtract (plain .infinity) (plain .infinity) 0).equal
        (binary .subtract (plain .infinity) (plain .infinity) 0) = false :=
  ⟨⟨checked.zeros, checked.zeros_shown, checked.quotients⟩,
    ⟨checked.orders, checked.orders_shown⟩, checked.infinities, checked.difference⟩

end Value
end StreamLang
