import Mathlib.Data.Nat.Bitwise
import StreamLang.Amount
/-!
The two zeros are equal, and no other two amounts are. Operations on one or the other give results
that differ at most in the sign of a zero, but for a division by them.
-/
namespace StreamLang.Amount

/-- The amount with the sign of a zero dropped. -/
def unsigned (x : Amount) : Amount := if x.isZero then zero else x

def negativeZero : Amount := ⟨0x8000000000000000⟩

/-! ### What is equal -/

theorem magnitude_eq (x : Amount) : x.magnitude = x.bits.toNat % 2 ^ 63 := by
  rw [magnitude, UInt64.toNat_and]
  exact Nat.and_two_pow_sub_one_eq_mod _ 63

theorem negative_eq (x : Amount) : x.negative = decide (2 ^ 63 ≤ x.bits.toNat) := by
  have hbit : x.negative = x.bits.toNat.testBit 63 := by
    rw [negative, Bool.eq_iff_iff, bne_iff_ne, ne_eq, ← UInt64.toNat_inj, UInt64.toNat_and,
      show (0x8000000000000000 : UInt64).toNat = 2 ^ 63 from rfl, Nat.and_two_pow]
    cases x.bits.toNat.testBit 63 <;> simp
  have hlt := x.bits.toNat_lt
  rw [hbit, Nat.testBit_eq_decide_div_mod_eq, decide_eq_decide]
  omega

theorem ext_of_magnitude {x y : Amount} (hs : x.negative = y.negative)
    (hm : x.magnitude = y.magnitude) : x = y := by
  have hx := x.bits.toNat_lt
  have hy := y.bits.toNat_lt
  rw [magnitude_eq, magnitude_eq] at hm
  rw [negative_eq, negative_eq, decide_eq_decide] at hs
  have hbits : x.bits.toNat = y.bits.toNat := by omega
  exact congrArg Amount.mk (UInt64.toNat_inj.1 hbits)

theorem isZero_iff {x : Amount} : x.isZero = true ↔ x = zero ∨ x = negativeZero := by
  constructor
  · intro h
    have hm : x.magnitude = 0 := by simpa [isZero] using h
    cases hs : x.negative with
    | false => exact .inl (ext_of_magnitude hs hm)
    | true => exact .inr (ext_of_magnitude hs hm)
  · rintro (rfl | rfl) <;> rfl

theorem isNaN_of_isZero {x : Amount} (h : x.isZero = true) : x.isNaN = false := by
  rcases isZero_iff.1 h with rfl | rfl <;> rfl

/-- Amounts without their signs agree if they are the same or both are zeros. -/
theorem unsigned_eq_iff {x y : Amount} :
    x.unsigned = y.unsigned ↔ x = y ∨ x.isZero = true ∧ y.isZero = true := by
  unfold unsigned
  by_cases hx : x.isZero <;> by_cases hy : y.isZero <;> simp only [hx, hy, if_true]
  · simp
  · constructor
    · rintro rfl
      exact absurd rfl hy
    · rintro (rfl | ⟨-, h⟩)
      · exact absurd hx hy
      · exact absurd h (by simp)
  · constructor
    · rintro rfl
      exact absurd rfl hx
    · rintro (rfl | ⟨h, -⟩)
      · exact absurd hy hx
      · exact absurd h (by simp)
  · simp

theorem key_eq_iff {x y : Amount} : x.key = y.key ↔ x.unsigned = y.unsigned := by
  rw [unsigned_eq_iff]
  constructor
  · intro h
    unfold key at h
    by_cases hm : x.magnitude = 0
    · have hy : y.magnitude = 0 := by
        simp only [hm] at h
        split at h <;> split at h <;> omega
      exact .inr (by simp [isZero, hm, hy])
    · left
      refine ext_of_magnitude ?_ ?_
      · cases hx : x.negative <;> cases hy : y.negative <;> simp [hx, hy] at h ⊢ <;> omega
      · split at h <;> split at h <;> omega
  · rintro (rfl | ⟨hx, hy⟩)
    · rfl
    · rcases isZero_iff.1 hx with rfl | rfl <;> rcases isZero_iff.1 hy with rfl | rfl <;> rfl

theorem isNaN_unsigned (x : Amount) : x.unsigned.isNaN = x.isNaN := by
  unfold unsigned
  split
  · rename_i h
    rw [isNaN_of_isZero h]
    rfl
  · rfl

/-- Equal are the amounts that agree without their signs, unless they are undefined. -/
theorem equal_iff {x y : Amount} :
    x.equal y = true ↔ x.unsigned = y.unsigned ∧ x.isNaN = false := by
  rw [equal, Bool.and_eq_true, decide_eq_true_iff, key_eq_iff, comparable, Bool.and_eq_true]
  constructor
  · rintro ⟨⟨hx, -⟩, h⟩
    exact ⟨h, by simpa using hx⟩
  · rintro ⟨h, hx⟩
    have hy : y.isNaN = false := by rw [← isNaN_unsigned, ← h, isNaN_unsigned, hx]
    simp [h, hx, hy]

/-! ### Operations on zeros -/

open Float.Model (UnpackedFloat)
open Float.Model.UnpackedFloat (Sign)

/-- Two results that are the same or both zeros. -/
def Near (u v : UnpackedFloat) : Prop := u = v ∨ ∃ s t, u = .zero s ∧ v = .zero t

/-- What an operation does once its operands are taken apart. -/
def Models (op : Float → Float → Float) (f : UnpackedFloat → UnpackedFloat → UnpackedFloat) : Prop :=
  ∀ a b : Float, op a b = ⟨.pack (f a.toModel.unpack b.toModel.unpack)⟩

theorem unpack_zero {x : Amount} (h : x.isZero = true) : ∃ s, x.toFloat.toModel.unpack = .zero s := by
  rcases isZero_iff.1 h with rfl | rfl
  · exact ⟨.positive, rfl⟩
  · exact ⟨.negative, rfl⟩

theorem unsigned_of_near {u v : UnpackedFloat} (h : Near u v) :
    (ofFloat ⟨.pack u⟩).unsigned = (ofFloat ⟨.pack v⟩).unsigned := by
  rcases h with rfl | ⟨s, t, rfl, rfl⟩
  · rfl
  · cases s <;> cases t <;> rfl

/-- Operations that treat the zeros alike on the left do so with amounts. -/
theorem unsigned_rounded_left {op : Float → Float → Float}
    {f : UnpackedFloat → UnpackedFloat → UnpackedFloat} (hop : Models op f)
    (hf : ∀ s t u, Near (f (.zero s) u) (f (.zero t) u)) {x x' : Amount}
    (h : x.unsigned = x'.unsigned) (y : Amount) :
    (rounded op x y).unsigned = (rounded op x' y).unsigned := by
  rcases unsigned_eq_iff.1 h with rfl | ⟨hx, hx'⟩
  · rfl
  · obtain ⟨s, hs⟩ := unpack_zero hx
    obtain ⟨t, ht⟩ := unpack_zero hx'
    simp only [rounded, isNaN_of_isZero hx, isNaN_of_isZero hx', Bool.false_eq_true, if_false]
    split
    · rfl
    · rw [hop, hop, hs, ht]
      exact unsigned_of_near (hf s t _)

theorem unsigned_rounded_right {op : Float → Float → Float}
    {f : UnpackedFloat → UnpackedFloat → UnpackedFloat} (hop : Models op f)
    (hf : ∀ s t u, Near (f u (.zero s)) (f u (.zero t))) {y y' : Amount}
    (h : y.unsigned = y'.unsigned) (x : Amount) :
    (rounded op x y).unsigned = (rounded op x y').unsigned := by
  rcases unsigned_eq_iff.1 h with rfl | ⟨hy, hy'⟩
  · rfl
  · obtain ⟨s, hs⟩ := unpack_zero hy
    obtain ⟨t, ht⟩ := unpack_zero hy'
    simp only [rounded, isNaN_of_isZero hy, isNaN_of_isZero hy', Bool.false_eq_true, if_false]
    split
    · rfl
    · rw [hop, hop, hs, ht]
      exact unsigned_of_near (hf s t _)

variable {x x' y y' : Amount}

theorem near_add (s t : Sign) (u : UnpackedFloat) :
    Near (.add .binary64 (.zero s) u) (.add .binary64 (.zero t) u) ∧
      Near (.add .binary64 u (.zero s)) (.add .binary64 u (.zero t)) := by
  cases u with
  | zero r => cases s <;> cases t <;> cases r <;> exact ⟨.inr ⟨_, _, rfl, rfl⟩, .inr ⟨_, _, rfl, rfl⟩⟩
  | _ => exact ⟨.inl rfl, .inl rfl⟩

theorem near_sub (s t : Sign) (u : UnpackedFloat) :
    Near (.sub .binary64 (.zero s) u) (.sub .binary64 (.zero t) u) ∧
      Near (.sub .binary64 u (.zero s)) (.sub .binary64 u (.zero t)) := by
  cases u with
  | zero r => cases s <;> cases t <;> cases r <;> exact ⟨.inr ⟨_, _, rfl, rfl⟩, .inr ⟨_, _, rfl, rfl⟩⟩
  | _ => exact ⟨.inl rfl, .inl rfl⟩

theorem near_mul (s t : Sign) (u : UnpackedFloat) :
    Near (.mul .binary64 (.zero s) u) (.mul .binary64 (.zero t) u) ∧
      Near (.mul .binary64 u (.zero s)) (.mul .binary64 u (.zero t)) := by
  cases u with
  | zero => exact ⟨.inr ⟨_, _, rfl, rfl⟩, .inr ⟨_, _, rfl, rfl⟩⟩
  | finite => exact ⟨.inr ⟨_, _, rfl, rfl⟩, .inr ⟨_, _, rfl, rfl⟩⟩
  | _ => exact ⟨.inl rfl, .inl rfl⟩

theorem near_div (s t : Sign) (u : UnpackedFloat) :
    Near (.div .binary64 (.zero s) u) (.div .binary64 (.zero t) u) := by
  cases u with
  | infinity => exact .inr ⟨_, _, rfl, rfl⟩
  | finite => exact .inr ⟨_, _, rfl, rfl⟩
  | _ => exact .inl rfl

theorem unsigned_add (hx : x.unsigned = x'.unsigned) (hy : y.unsigned = y'.unsigned) :
    (x + y).unsigned = (x' + y').unsigned :=
  (unsigned_rounded_left (fun _ _ => rfl) (fun s t u => (near_add s t u).1) hx y).trans
    (unsigned_rounded_right (fun _ _ => rfl) (fun s t u => (near_add s t u).2) hy x')

theorem unsigned_sub (hx : x.unsigned = x'.unsigned) (hy : y.unsigned = y'.unsigned) :
    (x - y).unsigned = (x' - y').unsigned :=
  (unsigned_rounded_left (fun _ _ => rfl) (fun s t u => (near_sub s t u).1) hx y).trans
    (unsigned_rounded_right (fun _ _ => rfl) (fun s t u => (near_sub s t u).2) hy x')

theorem unsigned_mul (hx : x.unsigned = x'.unsigned) (hy : y.unsigned = y'.unsigned) :
    (x * y).unsigned = (x' * y').unsigned :=
  (unsigned_rounded_left (fun _ _ => rfl) (fun s t u => (near_mul s t u).1) hx y).trans
    (unsigned_rounded_right (fun _ _ => rfl) (fun s t u => (near_mul s t u).2) hy x')

/-- The divisor has to be the same. -/
theorem unsigned_div (hx : x.unsigned = x'.unsigned) (y : Amount) :
    (x / y).unsigned = (x' / y).unsigned :=
  unsigned_rounded_left (fun _ _ => rfl) near_div hx y

theorem rem_of_isZero (hx : x.isZero = true) (y : Amount) : (x.rem y).unsigned =
    if y.isNaN then y.quiet.unsigned else if y.isZero then undefined else zero := by
  have hNaN := isNaN_of_isZero hx
  have hzero : x.isFinite = true ∧ x.significand = 0 ∧ x.unsigned = zero := by
    rcases isZero_iff.1 hx with rfl | rfl <;> exact ⟨rfl, rfl, rfl⟩
  obtain ⟨hfinite, hsignificand, hunsigned⟩ := hzero
  have hsign : (zero.withSign x.negative).unsigned = zero := by
    cases x.negative <;> rfl
  unfold rem
  rw [hNaN, hfinite, hsignificand]
  cases y.isNaN <;> cases y.isZero <;> cases y.isFinite <;>
    simp [ofScaled, hunsigned, hsign] <;> rfl

theorem unsigned_rem (hx : x.unsigned = x'.unsigned) (hy : y.unsigned = y'.unsigned) :
    (x.rem y).unsigned = (x'.rem y').unsigned := by
  have left : (x.rem y).unsigned = (x'.rem y).unsigned := by
    rcases unsigned_eq_iff.1 hx with rfl | ⟨hx, hx'⟩
    · rfl
    · rw [rem_of_isZero hx, rem_of_isZero hx']
  rcases unsigned_eq_iff.1 hy with rfl | ⟨hy, hy'⟩
  · exact left
  · rw [left]
    simp [rem, isNaN_of_isZero hy, isNaN_of_isZero hy', hy, hy']

theorem unsigned_neg (hx : x.unsigned = x'.unsigned) : (-x).unsigned = (-x').unsigned := by
  rcases unsigned_eq_iff.1 hx with rfl | ⟨hx, hx'⟩
  · rfl
  · rcases isZero_iff.1 hx with rfl | rfl <;> rcases isZero_iff.1 hx' with rfl | rfl <;> rfl

/-- Comparisons do not see the sign of a zero. -/
theorem comparisons_congr (hx : x.unsigned = x'.unsigned) (hy : y.unsigned = y'.unsigned) :
    x.less y = x'.less y' ∧ x.atMost y = x'.atMost y' := by
  have hNaN {z z' : Amount} (h : z.unsigned = z'.unsigned) : z.isNaN = z'.isNaN := by
    rw [← isNaN_unsigned, h, isNaN_unsigned]
  simp [less, atMost, comparable, hNaN hx, hNaN hy, key_eq_iff.2 hx, key_eq_iff.2 hy]

end StreamLang.Amount
