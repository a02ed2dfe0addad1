import Mathlib.Data.Nat.Log
import Mathlib.Tactic.Ring
import StreamLang.Proofs.Amount.Zeros
/-!
How operations round. The amounts from zero up stand one after another, so that the bits of each say at
which place it stands. A sum, product or quotient of them is the amount nearest to the exact result, and
the place of that grows with the result, through all exponents and beyond the greatest finite amount.
The place is counted on fractions of whole numbers, in units of the smallest amount above zero.
-/
namespace StreamLang.Amount

/-- The whole number nearest to a fraction, the even one if two are. -/
def nearest (n d : Nat) : Nat :=
  if 2 * (n % d) < d then n / d
  else if 2 * (n % d) = d then n / d + n / d % 2
  else n / d + 1

theorem div_le_nearest (n d : Nat) : n / d ≤ nearest n d := by
  unfold nearest
  split
  · exact Nat.le_refl _
  · split <;> omega

theorem nearest_le_succ (n d : Nat) : nearest n d ≤ n / d + 1 := by
  unfold nearest
  split
  · exact Nat.le_succ _
  · split <;> omega

theorem nearest_mono {n n' : Nat} (d : Nat) (h : n ≤ n') : nearest n d ≤ nearest n' d := by
  rcases (Nat.div_le_div_right (c := d) h).lt_or_eq with hlt | heq
  · exact (nearest_le_succ n d).trans (Nat.le_trans hlt (div_le_nearest n' d))
  · have hmod : n % d ≤ n' % d := by
      have := Nat.div_add_mod n d
      have := Nat.div_add_mod n' d
      rw [heq] at *
      omega
    unfold nearest
    rw [heq]
    split <;> split <;> (try split) <;> (try split) <;> omega

theorem nearest_mul_left {c : Nat} (hc : 0 < c) (n d : Nat) :
    nearest (c * n) (c * d) = nearest n d := by
  unfold nearest
  rw [Nat.mul_mod_mul_left, Nat.mul_div_mul_left n d hc, Nat.mul_left_comm]
  simp only [Nat.mul_lt_mul_left hc, Nat.mul_right_inj hc.ne']

theorem nearest_mul {d : Nat} (hd : 0 < d) (q : Nat) : nearest (q * d) d = q := by
  simp [nearest, Nat.mul_mod_left, Nat.mul_div_cancel q hd, hd]

/-- Less than half a step does not count. -/
theorem nearest_add {q d j : Nat} (hj : 2 * j < d) : nearest (q * d + j) d = q := by
  have hlt : j < d := by omega
  have hmod : (q * d + j) % d = j := by
    rw [Nat.mul_add_mod_self_right, Nat.mod_eq_of_lt hlt]
  have hdiv : (q * d + j) / d = q := by
    rw [Nat.mul_comm, Nat.mul_add_div (by omega), Nat.div_eq_of_lt hlt, Nat.add_zero]
  rw [nearest, hmod, hdiv, if_pos hj]

theorem nearest_le {n d q : Nat} (hd : 0 < d) (h : n ≤ q * d) : nearest n d ≤ q :=
  (nearest_mono d h).trans_eq (nearest_mul hd q)

theorem le_nearest {n d q : Nat} (hd : 0 < d) (h : q * d ≤ n) : q ≤ nearest n d :=
  (nearest_mul hd q).symm.trans_le (nearest_mono d h)

/-- How far amounts are apart, as a power of two, next to a fraction. -/
def step (n d : Nat) : Nat := (n / d).log2 - 52

/-- The place of a fraction among the amounts from zero up, if it is counted in units of `2 ^ -1074`.
There are `2 ^ 52` amounts for each distance after the first. -/
def place (n d : Nat) : Nat := nearest n (d * 2 ^ step n d) + step n d * 2 ^ 52

theorem log2_mono {m n : Nat} (h : m ≤ n) : m.log2 ≤ n.log2 := by
  rw [Nat.log2_eq_log_two, Nat.log2_eq_log_two]
  exact Nat.log_mono_right h

theorem lt_step {d : Nat} (hd : 0 < d) (n : Nat) : n < 2 ^ 53 * (d * 2 ^ step n d) := by
  have hlog : n / d < 2 ^ (step n d + 53) := by
    refine Nat.lt_log2_self.trans_le (Nat.pow_le_pow_right (by decide) ?_)
    unfold step
    omega
  calc n < 2 ^ (step n d + 53) * d := (Nat.div_lt_iff_lt_mul hd).1 hlog
    _ = 2 ^ 53 * (d * 2 ^ step n d) := by ring

theorem step_le {n d : Nat} (hd : 0 < d) (hs : 0 < step n d) : 2 ^ 52 * (d * 2 ^ step n d) ≤ n := by
  have hlog : 2 ^ (step n d + 52) ≤ n / d := by
    have hpos : n / d ≠ 0 := by
      intro h0
      simp [step, h0] at hs
    refine (Nat.pow_le_pow_right (by decide) ?_).trans (Nat.log2_self_le hpos)
    unfold step at hs ⊢
    omega
  calc 2 ^ 52 * (d * 2 ^ step n d) = 2 ^ (step n d + 52) * d := by ring
    _ ≤ n := (Nat.le_div_iff_mul_le hd).1 hlog

/-- What is greater does not come before. -/
theorem place_mono {n n' d : Nat} (hd : 0 < d) (h : n ≤ n') : place n d ≤ place n' d := by
  have hunit (k : Nat) : 0 < d * 2 ^ k := Nat.mul_pos hd (Nat.two_pow_pos k)
  have hstep : step n d ≤ step n' d :=
    Nat.sub_le_sub_right (log2_mono (Nat.div_le_div_right h)) 52
  unfold place
  rcases hstep.lt_or_eq with hlt | heq
  · have upper : nearest n (d * 2 ^ step n d) ≤ 2 ^ 53 := nearest_le (hunit _) (lt_step hd n).le
    have lower : 2 ^ 52 ≤ nearest n' (d * 2 ^ step n' d) :=
      le_nearest (hunit _) (step_le hd (Nat.zero_lt_of_lt hlt))
    have hrest : (step n d + 1) * 2 ^ 52 ≤ step n' d * 2 ^ 52 := Nat.mul_le_mul_right _ hlt
    omega
  · rw [heq]
    exact Nat.add_le_add_right (nearest_mono _ h) _

theorem place_mul_left {c : Nat} (hc : 0 < c) (n d : Nat) : place (c * n) (c * d) = place n d := by
  have hstep : step (c * n) (c * d) = step n d := by
    rw [step, Nat.mul_div_mul_left n d hc, step]
  rw [place, hstep, Nat.mul_assoc, nearest_mul_left hc, place]

theorem place_zero {d : Nat} (hd : 0 < d) : place 0 d = 0 := by
  simp [place, step, nearest, hd]

/-! ### How results are rounded -/

open Float.Model (UnpackedFloat Format totalExponent)
open Float.Model.UnpackedFloat (ExtendedMantissa Accuracy Sign accuracyOfFraction roundWithAccuracy)

/-- A fraction as its whole part with two bits for the rest. -/
def quotient (n d : Nat) : ExtendedMantissa :=
  ⟨n / d, decide (d ≤ 2 * (n % d)), decide (2 * (n % d) % d ≠ 0)⟩

theorem shiftRightOne_quotient {d : Nat} (hd : 0 < d) (n : Nat) :
    (quotient n d).shiftRightOne = quotient n (d * 2) := by
  have hlt : n % d < d := Nat.mod_lt n hd
  have hmod : n % (d * 2) = n % d + d * (n / d % 2) := Nat.mod_mul
  have hrest : 2 * (n % (d * 2)) % (d * 2) = 2 * (n % d) := by
    rw [hmod]
    rcases Nat.mod_two_eq_zero_or_one (n / d) with h | h <;> rw [h]
    · rw [Nat.mul_zero, Nat.add_zero, Nat.mod_eq_of_lt (by omega)]
    · rw [Nat.mul_one, Nat.mul_add, Nat.mul_comm 2 d, Nat.add_mod_right, Nat.mod_eq_of_lt (by omega)]
  rw [ExtendedMantissa.shiftRightOne, quotient, quotient, ExtendedMantissa.mk.injEq]
  refine ⟨Nat.div_div_eq_div_mul n d 2, ?_, ?_⟩
  · rw [hmod]
    rcases Nat.mod_two_eq_zero_or_one (n / d) with h | h <;> simp [h] <;> omega
  · rw [hrest, ← Bool.decide_or, decide_eq_decide]
    constructor
    · rintro (h | h)
      · omega
      · intro h0
        exact h (by rw [h0, Nat.zero_mod])
    · intro h
      by_cases hle : d ≤ 2 * (n % d)
      · exact .inl hle
      · exact .inr (by rwa [Nat.mod_eq_of_lt (by omega)])

theorem quotient_shift {d : Nat} (hd : 0 < d) (n k : Nat) :
    quotient n d >>> k = quotient n (d * 2 ^ k) := by
  show k.repeat ExtendedMantissa.shiftRightOne (quotient n d) = _
  induction k with
  | zero => simp [Nat.repeat]
  | succ k ih =>
    rw [Nat.repeat, ih, shiftRightOne_quotient (Nat.mul_pos hd (Nat.two_pow_pos k)), Nat.pow_succ,
      Nat.mul_assoc]

theorem roundedMantissa_quotient {d : Nat} (hd : 0 < d) (n : Nat) :
    (quotient n d).roundedMantissa = nearest n d := by
  have hlt : n % d < d := Nat.mod_lt n hd
  have hrest : 2 * (n % d) % d = if d ≤ 2 * (n % d) then 2 * (n % d) - d else 2 * (n % d) := by
    split
    · rw [Nat.mod_eq_sub_mod ‹_›, Nat.mod_eq_of_lt (by omega)]
    · exact Nat.mod_eq_of_lt (by omega)
  unfold nearest ExtendedMantissa.roundedMantissa quotient
  rw [hrest]
  by_cases hle : d ≤ 2 * (n % d)
  · by_cases heq : 2 * (n % d) = d
    · simp [heq, ExtendedMantissa.accuracy, Accuracy.roundToNearestEven]
    · have h : 2 * (n % d) - d ≠ 0 := by omega
      simp [hle, h, heq, ExtendedMantissa.accuracy, Accuracy.roundToNearestEven]
  · have h : 2 * (n % d) < d := by omega
    by_cases h0 : n % d = 0 <;>
      simp [hle, h, h0, hd, hd.ne', ExtendedMantissa.accuracy, Accuracy.roundToNearestEven]

theorem ofMantissaAndAccuracy_quotient {d : Nat} (hd : 0 < d) (n : Nat) :
    ExtendedMantissa.ofMantissaAndAccuracy (n / d) (accuracyOfFraction (n % d) d) = quotient n d := by
  have hlt : n % d < d := Nat.mod_lt n hd
  unfold accuracyOfFraction quotient
  by_cases h0 : n % d = 0
  · simp [h0, ExtendedMantissa.ofMantissaAndAccuracy, hd.ne']
  · rw [if_neg h0]
    rcases Nat.lt_trichotomy (2 * (n % d)) d with h | h | h
    · rw [Nat.compare_eq_lt.2 h]
      simp [ExtendedMantissa.ofMantissaAndAccuracy, Nat.mod_eq_of_lt h, h0, h]
    · rw [Nat.compare_eq_eq.2 h]
      simp [ExtendedMantissa.ofMantissaAndAccuracy, h]
    · rw [Nat.compare_eq_gt.2 h]
      have hrest : 2 * (n % d) % d = 2 * (n % d) - d := by
        rw [Nat.mod_eq_sub_mod h.le, Nat.mod_eq_of_lt (by omega)]
      have : 2 * (n % d) - d ≠ 0 := by omega
      simp [ExtendedMantissa.ofMantissaAndAccuracy, hrest, h.le, this]

/-! ### What results look like -/

/-- The bits of what is above all finite amounts. -/
def top : Nat := 2047 * 2 ^ 52

theorem toNat_packComponents (b : BitVec 11) (c : BitVec 52) :
    (UnpackedFloat.packComponents .binary64 .positive b c).toNat = b.toNat * 2 ^ 52 + c.toNat := by
  show (Sign.positive.toBitVec ++ b ++ c).toNat = _
  have hc := c.isLt
  rw [BitVec.toNat_append, BitVec.toNat_append, ← Nat.shiftLeft_add_eq_or_of_lt hc,
    ← Nat.shiftLeft_add_eq_or_of_lt b.isLt, Nat.shiftLeft_eq]
  simp [Sign.toBitVec]

/-- Such are the mantissas and exponents of finite amounts. -/
structure Canonical (m : Nat) (e : Int) : Prop where
  mantissa : m < 2 ^ 53
  exponent : -1074 ≤ e
  normal : -1074 < e → 2 ^ 52 ≤ m

theorem toNat_pack_finite {m : Nat} {e : Int} (h : Canonical m e) (hm : 0 < m) :
    (UnpackedFloat.pack .binary64 (.finite .positive m e hm)).toNat =
      min (m + (e + 1074).toNat * 2 ^ 52) top := by
  obtain ⟨hlt, hexp, hnormal⟩ := h
  have hbias : ((Format.binary64.exponentBias : Nat) : Int) = 1023 := by decide
  have hbits : Format.binary64.mantissaBits = 53 := by decide
  have hbiased : (e + (Format.binary64.exponentBias : Int) + (52 : Nat)).toNat =
      (e + 1074).toNat + 1 := by omega
  unfold UnpackedFloat.pack
  simp only [hbiased, hbits]
  split
  · rename_i hbig
    have htop : m + (e + 1074).toNat * 2 ^ 52 ≥ top := by
      have := hnormal (by omega)
      unfold top
      omega
    rw [UnpackedFloat.packedInfinity, toNat_packComponents, min_eq_right htop]
    decide
  · rename_i hsmall
    have hle : m + (e + 1074).toNat * 2 ^ 52 ≤ top := by
      unfold top
      omega
    rw [min_eq_left hle]
    split
    · rename_i hlog
      have hge : 2 ^ 52 ≤ m := (Nat.le_log2 hm.ne').1 (by omega)
      rw [toNat_packComponents, BitVec.toNat_ofNat, BitVec.toNat_ofNat, Nat.mod_eq_of_lt (by omega),
        show m = (m - 2 ^ 52) + 2 ^ 52 by omega, Nat.add_mod_right, Nat.mod_eq_of_lt (by omega)]
      omega
    · rename_i hlog
      have hless : m < 2 ^ 52 := by
        by_contra hge
        have h52 : 52 ≤ m.log2 := (Nat.le_log2 hm.ne').2 (by omega)
        have h53 : m.log2 < 53 := (Nat.log2_lt hm.ne').2 hlt
        omega
      have hzero : e = -1074 := by
        by_contra hne
        exact absurd (hnormal (by omega)) (by omega)
      rw [toNat_packComponents, BitVec.toNat_ofNat, BitVec.toNat_ofNat, Nat.mod_eq_of_lt hless, hzero]
      simp

/-! ### Where results stand -/

theorem step_scaled {n d a b : Nat} (hd : 0 < d) (hq : 0 < n / d) :
    step (n * 2 ^ a) (d * 2 ^ b) = (n / d).log2 + a - (b + 52) := by
  have low : 2 ^ (n / d).log2 * d ≤ n := (Nat.le_div_iff_mul_le hd).1 (Nat.log2_self_le hq.ne')
  have high : n < 2 ^ ((n / d).log2 + 1) * d := (Nat.div_lt_iff_lt_mul hd).1 Nat.lt_log2_self
  have hunit : 0 < d * 2 ^ b := Nat.mul_pos hd (Nat.two_pow_pos b)
  generalize (n / d).log2 = k at low high ⊢
  rcases Nat.lt_or_ge (k + a) b with hlt | hge
  · have hzero : n * 2 ^ a / (d * 2 ^ b) = 0 := by
      refine Nat.div_eq_of_lt ?_
      calc n * 2 ^ a < 2 ^ (k + 1) * d * 2 ^ a := Nat.mul_lt_mul_of_pos_right high (Nat.two_pow_pos a)
        _ = d * 2 ^ (k + 1 + a) := by ring
        _ ≤ d * 2 ^ b := Nat.mul_le_mul_left d (Nat.pow_le_pow_right (by decide) (by omega))
    rw [step, hzero, Nat.log2_zero]
    omega
  · have hpow : 2 ^ (k + a - b) * 2 ^ b = 2 ^ k * 2 ^ a := by
      rw [← Nat.pow_add, ← Nat.pow_add, Nat.sub_add_cancel hge]
    have hlow : 2 ^ (k + a - b) ≤ n * 2 ^ a / (d * 2 ^ b) := by
      refine (Nat.le_div_iff_mul_le hunit).2 ?_
      calc 2 ^ (k + a - b) * (d * 2 ^ b) = 2 ^ (k + a - b) * 2 ^ b * d := by ring
        _ = 2 ^ k * d * 2 ^ a := by rw [hpow]; ring
        _ ≤ n * 2 ^ a := Nat.mul_le_mul_right _ low
    have hhigh : n * 2 ^ a / (d * 2 ^ b) < 2 ^ (k + a - b + 1) := by
      refine (Nat.div_lt_iff_lt_mul hunit).2 ?_
      calc n * 2 ^ a < 2 ^ (k + 1) * d * 2 ^ a := Nat.mul_lt_mul_of_pos_right high (Nat.two_pow_pos a)
        _ = 2 * (2 ^ k * 2 ^ a) * d := by ring
        _ = 2 ^ (k + a - b + 1) * (d * 2 ^ b) := by rw [← hpow]; ring
    have hne : n * 2 ^ a / (d * 2 ^ b) ≠ 0 := (Nat.lt_of_lt_of_le (Nat.two_pow_pos _) hlow).ne'
    rw [step, (Nat.log2_eq_iff hne).2 ⟨hlow, hhigh⟩]
    omega

/-- Next to nothing, amounts are as far apart as the first two. -/
theorem step_scaled_of_zero {n d a b : Nat} (hd : 0 < d) (hq : n / d = 0) (hab : a ≤ b) :
    step (n * 2 ^ a) (d * 2 ^ b) = 0 := by
  have hlt : n < d := (Nat.div_eq_zero_iff_lt hd).1 hq
  have hzero : n * 2 ^ a / (d * 2 ^ b) = 0 := by
    refine Nat.div_eq_of_lt ?_
    calc n * 2 ^ a < d * 2 ^ a := Nat.mul_lt_mul_of_pos_right hlt (Nat.two_pow_pos a)
      _ ≤ d * 2 ^ b := Nat.mul_le_mul_left d (Nat.pow_le_pow_right (by decide) hab)
  rw [step, hzero, Nat.log2_zero]

/-- Where mantissas are shifted to. -/
theorem targetExponent_eq (e : Int) : Format.binary64.targetExponent e = max (e - 53) (-1074) := by
  have hmin : Format.binary64.minExponent = -1074 := by decide
  have hbits : ((Format.binary64.mantissaBits : Nat) : Int) = 53 := by decide
  rw [Format.targetExponent, hmin, hbits]

theorem targetExponent_totalExponent (m : Nat) (e : Int) :
    Format.binary64.targetExponent (totalExponent m e) = max (m.log2 + e - 52) (-1074) := by
  rw [targetExponent_eq, totalExponent]
  omega

/-- Once a mantissa has been rounded, it is shifted once more if it has grown beyond the last place. -/
theorem toNat_pack_again {m k : Nat} (hm : m ≤ 2 ^ 53) (hnormal : 0 < k → 2 ^ 52 ≤ m) :
    let again := UnpackedFloat.shiftToTargetExponent .binary64 m ((k : Int) - 1074) .exact
    (UnpackedFloat.pack .binary64 (if h : again.1.mantissa = 0 then .zero .positive
      else .finite .positive again.1.mantissa again.2 (Nat.pos_of_ne_zero h))).toNat =
        min (m + k * 2 ^ 52) top := by
  intro again
  have hagain : again = UnpackedFloat.shiftToExponent m ((k : Int) - 1074) .exact
      (max (m.log2 + ((k : Int) - 1074) - 52) (-1074)) := by
    rw [← targetExponent_totalExponent]
    rfl
  rcases hm.lt_or_eq with hlt | rfl
  · have hlog : m.log2 ≤ 52 := by
      by_cases h0 : m = 0
      · simp [h0]
      · exact Nat.le_of_lt_succ ((Nat.log2_lt h0).2 hlt)
    have hsame : again = (⟨m, false, false⟩, (k : Int) - 1074) := by
      have hnone : (max ((m.log2 : Int) + ((k : Int) - 1074) - 52) (-1074) - ((k : Int) - 1074)).toNat =
          0 := by omega
      rw [hagain, UnpackedFloat.shiftToExponent, hnone]
      simp [ExtendedMantissa.ofMantissaAndAccuracy, HShiftRight.hShiftRight, Nat.repeat]
    rw [hsame]
    by_cases h0 : m = 0
    · have hk : k = 0 := by
        by_contra hk
        exact absurd (hnormal (Nat.pos_of_ne_zero hk)) (by omega)
      subst h0 hk
      decide
    · have hcanonical : Canonical m ((k : Int) - 1074) :=
        ⟨hlt, by omega, fun h => hnormal (by omega)⟩
      rw [dif_neg h0, toNat_pack_finite hcanonical]
      congr 3
      omega
  · have hlog : ((2 ^ 53 : Nat).log2 : Int) = 53 := by decide
    have hnext : again = (⟨2 ^ 52, false, false⟩, (k : Int) - 1073) := by
      have hone : (max (((2 ^ 53 : Nat).log2 : Int) + ((k : Int) - 1074) - 52) (-1074) -
          ((k : Int) - 1074)).toNat = 1 := by omega
      rw [hagain, UnpackedFloat.shiftToExponent, hone, Prod.mk.injEq]
      exact ⟨rfl, by omega⟩
    have hcanonical : Canonical (2 ^ 52) ((k : Int) - 1073) := ⟨by decide, by omega, fun _ => le_rfl⟩
    rw [hnext]
    rw [dif_neg (show ¬ 2 ^ 52 = 0 by decide), toNat_pack_finite hcanonical]
    congr 1
    have : ((k : Int) - 1073 + 1074).toNat = k + 1 := by omega
    rw [this]
    omega

/-- The result of rounding a fraction, in which a unit stands for `2 ^ e`, is known by its place. The
fraction has been taken fine enough. -/
theorem toNat_pack_round {n d a b : Nat} {e : Int} (hd : 0 < d) (he : e + 1074 = a - b)
    (hfine : a ≤ b ∨ 2 ^ 52 ≤ n / d) :
    (UnpackedFloat.pack .binary64 (roundWithAccuracy .binary64 .positive (n / d) e
      (accuracyOfFraction (n % d) d))).toNat = min (place (n * 2 ^ a) (d * 2 ^ b)) top := by
  have hunit : 0 < d * 2 ^ b := Nat.mul_pos hd (Nat.two_pow_pos b)
  have hlow := step_le (n := n * 2 ^ a) hunit
  have hhigh := lt_step hunit (n * 2 ^ a)
  have hstep : step (n * 2 ^ a) (d * 2 ^ b) = (n / d).log2 + a - (b + 52) := by
    rcases Nat.eq_zero_or_pos (n / d) with hq | hq
    · have hab : a ≤ b := hfine.resolve_right (by omega)
      rw [step_scaled_of_zero hd hq hab, hq, Nat.log2_zero]
      omega
    · exact step_scaled hd hq
  have hreach : a ≤ step (n * 2 ^ a) (d * 2 ^ b) + b := by
    rcases hfine with hab | hq
    · omega
    · have := (Nat.le_log2 (by omega)).2 hq
      omega
  unfold place
  generalize step (n * 2 ^ a) (d * 2 ^ b) = k at hreach hlow hhigh hstep ⊢
  -- Both sides count the same steps.
  have hnearest : nearest (n * 2 ^ a) (d * 2 ^ b * 2 ^ k) = nearest n (d * 2 ^ (k + b - a)) := by
    have hpow : 2 ^ b * 2 ^ k = 2 ^ (k + b - a) * 2 ^ a := by
      rw [← Nat.pow_add, ← Nat.pow_add, Nat.sub_add_cancel hreach, Nat.add_comm]
    rw [Nat.mul_assoc, hpow, ← Nat.mul_assoc, Nat.mul_comm n, Nat.mul_comm (d * _),
      nearest_mul_left (Nat.two_pow_pos a)]
  have hshift : UnpackedFloat.shiftToTargetExponent .binary64 (n / d) e (accuracyOfFraction (n % d) d) =
      (quotient n (d * 2 ^ (k + b - a)), (k : Int) - 1074) := by
    have htarget : max (((n / d).log2 : Int) + e - 52) (-1074) = (k : Int) - 1074 := by omega
    have hamount : ((k : Int) - 1074 - e).toNat = k + b - a := by omega
    rw [UnpackedFloat.shiftToTargetExponent, targetExponent_totalExponent, htarget,
      UnpackedFloat.shiftToExponent, ofMantissaAndAccuracy_quotient hd, quotient_shift hd, hamount]
    congr 1
    omega
  unfold roundWithAccuracy
  rw [hshift]
  dsimp only
  rw [roundedMantissa_quotient (Nat.mul_pos hd (Nat.two_pow_pos _)), ← hnearest]
  refine toNat_pack_again (nearest_le (Nat.mul_pos hunit (Nat.two_pow_pos k)) hhigh.le) fun hk => ?_
  exact le_nearest (Nat.mul_pos hunit (Nat.two_pow_pos k)) (hlow hk)

/-- The same for a whole number. -/
theorem toNat_pack_round_exact {n a b : Nat} {e : Int} (he : e + 1074 = a - b)
    (hfine : a ≤ b ∨ 2 ^ 52 ≤ n) :
    (UnpackedFloat.pack .binary64 (roundWithAccuracy .binary64 .positive n e .exact)).toNat =
      min (place (n * 2 ^ a) (2 ^ b)) top := by
  have := toNat_pack_round (n := n) Nat.one_pos he (by rwa [Nat.div_one])
  rw [Nat.div_one, Nat.mod_one, Nat.one_mul] at this
  exact this

/-- The same for a whole number that may be too coarse. -/
theorem toNat_pack_normalize {n a : Nat} (hn : 0 < n) {e : Int} (he : e + 1074 = a) :
    (UnpackedFloat.pack .binary64 (UnpackedFloat.normalize .binary64 n e .positive)).toNat =
      min (place (n * 2 ^ a) 1) top := by
  have hpos : compare (n : Int) 0 = .gt := Int.compare_eq_gt.2 (by omega)
  unfold UnpackedFloat.normalize
  rw [hpos]
  simp only [Int.toNat_natCast]
  unfold UnpackedFloat.round UnpackedFloat.decreaseExponent
  simp only [targetExponent_totalExponent]
  obtain ⟨k, hk⟩ : ∃ k : Nat, k = (e - max ((n.log2 : Int) + e - 52) (-1074)).toNat := ⟨_, rfl⟩
  rw [← hk, Nat.shiftLeft_eq]
  have hfine : a - k ≤ 0 ∨ 2 ^ 52 ≤ n * 2 ^ k := by
    rcases Nat.eq_zero_or_pos (a - k) with h0 | h0
    · exact .inl h0.le
    · right
      calc 2 ^ 52 ≤ 2 ^ (n.log2 + k) := Nat.pow_le_pow_right (by decide) (by omega)
        _ = 2 ^ n.log2 * 2 ^ k := Nat.pow_add ..
        _ ≤ n * 2 ^ k := Nat.mul_le_mul_right _ (Nat.log2_self_le hn.ne')
  have hexact := toNat_pack_round_exact (n := n * 2 ^ k) (a := a - k) (b := 0) (e := e - k)
    (by omega) hfine
  have hpow : n * 2 ^ k * 2 ^ (a - k) = n * 2 ^ a := by
    rw [Nat.mul_assoc, ← Nat.pow_add, Nat.add_sub_cancel' (by omega)]
  rw [hexact, hpow, Nat.pow_zero]

/-! ### Amounts from zero up -/

/-- What stands at a place, in units of `2 ^ -1074`. -/
def units (p : Nat) : Nat :=
  if p < 2 ^ 52 then p else (2 ^ 52 + p % 2 ^ 52) * 2 ^ (p / 2 ^ 52 - 1)

/-- The amount one, in the same units. -/
def whole : Nat := 2 ^ 1074

theorem whole_pos : 0 < whole := by
  rw [whole]
  apply Nat.pow_pos
  decide

theorem two_pow_whole (k : Nat) : 2 ^ (k + 1074) = 2 ^ k * whole := by rw [whole, pow_add]

theorem units_eq {m k : Nat} (hlt : m < 2 ^ 53) (hnormal : 0 < k → 2 ^ 52 ≤ m) :
    units (m + k * 2 ^ 52) = m * 2 ^ k := by
  unfold units
  rcases Nat.lt_or_ge m (2 ^ 52) with hsmall | hlarge
  · have hk : k = 0 := by
      by_contra hk
      exact absurd (hnormal (Nat.pos_of_ne_zero hk)) (by omega)
    subst hk
    rw [if_pos (by omega)]
    omega
  · have hdiv : (m + k * 2 ^ 52) / 2 ^ 52 - 1 = k := by omega
    have hmod : 2 ^ 52 + (m + k * 2 ^ 52) % 2 ^ 52 = m := by omega
    rw [if_neg (by omega), hdiv, hmod]

theorem exists_canonical (p : Nat) : ∃ m k, p = m + k * 2 ^ 52 ∧ m < 2 ^ 53 ∧ (0 < k → 2 ^ 52 ≤ m) := by
  rcases Nat.lt_or_ge p (2 ^ 52) with hsmall | hlarge
  · exact ⟨p, 0, by omega, by omega, by omega⟩
  · exact ⟨2 ^ 52 + p % 2 ^ 52, p / 2 ^ 52 - 1, by omega, by omega, by omega⟩

/-- What stands at a place is not rounded. -/
theorem place_units (p : Nat) : place (units p) 1 = p := by
  obtain ⟨m, k, rfl, hlt, hnormal⟩ := exists_canonical p
  rw [units_eq hlt hnormal]
  have hstep : step (m * 2 ^ k) 1 = k := by
    rcases Nat.eq_zero_or_pos k with rfl | hk
    · have hlog : m.log2 ≤ 52 := by
        by_cases h0 : m = 0
        · simp [h0]
        · exact Nat.le_of_lt_succ ((Nat.log2_lt h0).2 hlt)
      rw [step, Nat.pow_zero, Nat.mul_one, Nat.div_one]
      omega
    · have hge := hnormal hk
      have hlog : m.log2 = 52 := (Nat.log2_eq_iff (by omega)).2 ⟨hge, hlt⟩
      have := step_scaled (n := m) (a := k) (b := 0) Nat.one_pos (by omega)
      rw [Nat.pow_zero, Nat.mul_one, Nat.div_one, hlog] at this
      rw [this]
      omega
  rw [place, hstep, Nat.one_mul, nearest_mul (Nat.two_pow_pos k)]

theorem units_mono {p p' : Nat} (h : p ≤ p') : units p ≤ units p' := by
  by_contra hlt
  have hplace := place_mono Nat.one_pos (Nat.le_of_not_le hlt)
  rw [place_units, place_units] at hplace
  exact hlt (Nat.le_antisymm h hplace ▸ Nat.le_refl _)

/-- The amount at a place, taken apart. -/
inductive Unpacked : Nat → UnpackedFloat → Prop where
  | zero : Unpacked 0 (.zero .positive)
  | infinity : Unpacked top (.infinity .positive)
  | finite {m k : Nat} {e : Int} (hm : 0 < m) (hlt : m < 2 ^ 53) (hnormal : 0 < k → 2 ^ 52 ≤ m)
    (he : e + 1074 = k) (hsmall : m + k * 2 ^ 52 < top) :
    Unpacked (m + k * 2 ^ 52) (.finite .positive m e hm)

theorem Unpacked.toNat_pack {p : Nat} {u : UnpackedFloat} (h : Unpacked p u) :
    (UnpackedFloat.pack .binary64 u).toNat = p := by
  cases h with
  | zero => decide
  | infinity => decide
  | finite hm hlt hnormal he hsmall =>
    rw [toNat_pack_finite ⟨hlt, by omega, fun h => hnormal (by omega)⟩ hm, he, Int.toNat_natCast,
      min_eq_left hsmall.le]

theorem toNat_unpackMantissa (b : BitVec 64) :
    (@UnpackedFloat.unpackMantissa .binary64 b).toNat = b.toNat % 2 ^ 52 := by
  simp [UnpackedFloat.unpackMantissa, BitVec.extractLsb_toNat]

theorem toNat_unpackExponent (b : BitVec 64) :
    (@UnpackedFloat.unpackExponent .binary64 b).toNat = b.toNat / 2 ^ 52 % 2 ^ 11 := by
  simp [UnpackedFloat.unpackExponent, BitVec.extractLsb_toNat, Nat.shiftRight_eq_div_pow]

theorem unpackSign_eq {b : BitVec 64} (hb : b.toNat < 2 ^ 63) :
    @UnpackedFloat.unpackSign .binary64 b = 0#1 := by
  rw [← BitVec.toNat_inj]
  show (b.extractLsb (52 + 11) (52 + 11)).toNat = 0
  rw [BitVec.extractLsb_toNat, Nat.shiftRight_eq_div_pow]
  omega

/-- Whatever is not above the top stands at its place. -/
theorem unpacked {b : BitVec 64} {p : Nat} (hp : b.toNat = p) (htop : p ≤ top) :
    Unpacked p (UnpackedFloat.unpack .binary64 b) := by
  have hsign : Sign.ofBitVec (@UnpackedFloat.unpackSign .binary64 b) = .positive := by
    rw [unpackSign_eq (by unfold top at htop; omega)]
    rfl
  have hbias : ((Format.binary64.exponentBias : Nat) : Int) = 1023 := by decide
  have hall : (-1#11).toNat = 2047 := by decide
  have hm := toNat_unpackMantissa b
  have he := toNat_unpackExponent b
  rw [hp] at hm he
  unfold UnpackedFloat.unpack
  dsimp only
  rw [hsign]
  by_cases h : @UnpackedFloat.unpackExponent .binary64 b = -1#11
  · rw [if_pos h]
    rw [h, hall] at he
    obtain rfl : p = top := by unfold top at htop ⊢; omega
    rw [if_pos (BitVec.eq_of_toNat_eq (by rw [hm]; decide))]
    exact .infinity
  · rw [if_neg h]
    have hless : p < top := by
      refine htop.lt_of_ne fun heq => h (BitVec.eq_of_toNat_eq ?_)
      rw [he, heq]
      decide
    unfold top at hless
    by_cases h0 : @UnpackedFloat.unpackExponent .binary64 b = 0#11
    · rw [if_pos h0]
      rw [h0, BitVec.toNat_ofNat, Nat.zero_mod] at he
      by_cases hzero : @UnpackedFloat.unpackMantissa .binary64 b = 0#52
      · rw [dif_pos hzero]
        rw [hzero, BitVec.toNat_ofNat, Nat.zero_mod] at hm
        obtain rfl : p = 0 := by omega
        exact .zero
      · rw [dif_neg hzero]
        obtain rfl : p = (@UnpackedFloat.unpackMantissa .binary64 b).toNat + 0 * 2 ^ 52 := by
          omega
        refine .finite _ (by omega) (by omega) ?_ (by unfold top; omega)
        rw [h0, BitVec.toNat_ofNat, Nat.zero_mod]
        omega
    · rw [if_neg h0]
      have hpos : 0 < p / 2 ^ 52 % 2 ^ 11 := by
        rw [← he]
        exact Nat.pos_of_ne_zero fun hzero => h0 (BitVec.eq_of_toNat_eq hzero)
      have hlead : (1#1 ++ @UnpackedFloat.unpackMantissa .binary64 b).toNat =
          2 ^ 52 + p % 2 ^ 52 := by
        rw [BitVec.toNat_append, ← Nat.shiftLeft_add_eq_or_of_lt (BitVec.isLt _), hm]
        rfl
      obtain ⟨k, hk⟩ : ∃ k, p / 2 ^ 52 % 2 ^ 11 = k + 1 := Nat.exists_eq_succ_of_ne_zero hpos.ne'
      obtain rfl : p = (1#1 ++ @UnpackedFloat.unpackMantissa .binary64 b).toNat + k * 2 ^ 52 := by
        omega
      refine .finite _ (by omega) (by omega) ?_ (by unfold top; omega)
      rw [he, hk]
      omega

/-! ### What operations give -/

namespace Unpacked

variable {p q : Nat} {u v : UnpackedFloat}

theorem le_top (h : Unpacked p u) : p ≤ top := by
  cases h with
  | zero => decide
  | infinity => exact Nat.le_refl _
  | finite _ _ _ _ hsmall => exact hsmall.le

theorem isNaN (h : Unpacked p u) : u.isNaN = false := by cases h <;> rfl

/-- An amount is the result of adding nothing to it. -/
theorem min_place (h : Unpacked p u) : min (place (units p) 1) top = p := by
  rw [place_units, min_eq_left h.le_top]

/-- Nothing is above the top. -/
theorem min_place_top {n : Nat} (h : units top ≤ n) : min (place n 1) top = top := by
  refine min_eq_right ?_
  calc top = place (units top) 1 := (place_units top).symm
    _ ≤ place n 1 := place_mono Nat.one_pos h

theorem toNat_pack_add (hu : Unpacked p u) (hv : Unpacked q v) :
    (UnpackedFloat.pack .binary64 (.add .binary64 u v)).toNat =
      min (place (units p + units q) 1) top := by
  have hzero : units 0 = 0 := rfl
  cases hu with
  | zero =>
    rw [hzero, Nat.zero_add, hv.min_place]
    cases hv with
    | zero => decide
    | infinity => decide
    | finite => exact Unpacked.toNat_pack (.finite ‹_› ‹_› ‹_› ‹_› ‹_›)
  | infinity =>
    rw [min_place_top (Nat.le_add_right _ _)]
    cases hv <;> exact Unpacked.infinity.toNat_pack
  | @finite m k e hm hlt hnormal he hsmall =>
    have hsame : Unpacked (m + k * 2 ^ 52) (.finite .positive m e hm) :=
      .finite hm hlt hnormal he hsmall
    cases hv with
    | zero =>
      rw [hzero, Nat.add_zero, hsame.min_place]
      exact hsame.toNat_pack
    | infinity =>
      rw [min_place_top (Nat.le_add_left _ _)]
      exact Unpacked.infinity.toNat_pack
    | @finite m' k' e' hm' hlt' hnormal' he' hsmall' =>
      have hmin : min e e' + 1074 = (min k k' : Nat) := by omega
      have hshift : (e - min e e').toNat = k - min k k' := by omega
      have hshift' : (e' - min e e').toNat = k' - min k k' := by omega
      have hadd : UnpackedFloat.add .binary64 (.finite .positive m e hm) (.finite .positive m' e' hm') =
          .normalize .binary64 (m * 2 ^ (k - min k k') + m' * 2 ^ (k' - min k k') : Nat) (min e e')
            .positive := by
        rw [← hshift, ← hshift', ← Nat.shiftLeft_eq, ← Nat.shiftLeft_eq]
        rfl
      have hpow (m k j : Nat) (hj : j ≤ k) : m * 2 ^ (k - j) * 2 ^ j = m * 2 ^ k := by
        rw [Nat.mul_assoc, ← Nat.pow_add, Nat.sub_add_cancel hj]
      have hpos : 0 < m * 2 ^ (k - min k k') + m' * 2 ^ (k' - min k k') :=
        Nat.add_pos_left (Nat.mul_pos hm (Nat.two_pow_pos _)) _
      rw [hadd, toNat_pack_normalize hpos hmin, Nat.add_mul, hpow m k _ (Nat.min_le_left _ _),
        hpow m' k' _ (Nat.min_le_right _ _), units_eq hlt hnormal, units_eq hlt' hnormal']

/-- Neither amount is infinite. -/
theorem toNat_pack_mul (hu : Unpacked p u) (hv : Unpacked q v) (hp : p < top) (hq : q < top) :
    (UnpackedFloat.pack .binary64 (.mul .binary64 u v)).toNat =
      min (place (units p * units q) whole) top := by
  have hzero : units 0 = 0 := rfl
  have hplace : place 0 whole = 0 := place_zero whole_pos
  cases hu with
  | infinity => exact absurd hp (lt_irrefl _)
  | zero =>
    rw [hzero, Nat.zero_mul, hplace]
    cases hv with
    | infinity => exact absurd hq (lt_irrefl _)
    | zero => decide
    | finite => exact Unpacked.zero.toNat_pack
  | @finite m k e hm hlt hnormal he hsmall =>
    cases hv with
    | infinity => exact absurd hq (lt_irrefl _)
    | zero =>
      rw [hzero, Nat.mul_zero, hplace]
      exact Unpacked.zero.toNat_pack
    | @finite m' k' e' hm' hlt' hnormal' he' hsmall' =>
      have hfine : k + k' ≤ 1074 ∨ 2 ^ 52 ≤ m * m' := by
        rcases Nat.eq_zero_or_pos k with h0 | h0
        · rcases Nat.eq_zero_or_pos k' with h0' | h0'
          · exact .inl (by omega)
          · exact .inr ((hnormal' h0').trans (Nat.le_mul_of_pos_left m' hm))
        · exact .inr ((hnormal h0).trans (Nat.le_mul_of_pos_right m hm'))
      have hround := toNat_pack_round_exact (n := m * m') (a := k + k') (b := 1074) (e := e + e')
        (by omega) hfine
      rw [units_eq hlt hnormal, units_eq hlt' hnormal',
        show m * 2 ^ k * (m' * 2 ^ k') = m * m' * 2 ^ (k + k') by ring]
      exact hround

/-- An amount divided by one above zero. Neither is infinite. -/
theorem toNat_pack_div (hu : Unpacked p u) (hv : Unpacked q v) (hp : p < top) (hq : q < top)
    (hpos : 0 < q) : (UnpackedFloat.pack .binary64 (.div .binary64 u v)).toNat =
      min (place (units p * whole) (units q)) top := by
  cases hv with
  | zero => exact absurd hpos (lt_irrefl _)
  | infinity => exact absurd hq (lt_irrefl _)
  | @finite m' k' e' hm' hlt' hnormal' he' hsmall' =>
    have hunits : units (m' + k' * 2 ^ 52) = m' * 2 ^ k' := units_eq hlt' hnormal'
    cases hu with
    | infinity => exact absurd hp (lt_irrefl _)
    | zero =>
      have hzero : units 0 = 0 := rfl
      rw [hzero, Nat.zero_mul, hunits, place_zero (Nat.mul_pos hm' (Nat.two_pow_pos k'))]
      exact Unpacked.zero.toNat_pack
    | @finite m k e hm hlt hnormal he hsmall =>
      obtain ⟨t, ht⟩ : ∃ t, t = min (e - e') (Format.binary64.targetExponent
        (totalExponent m e - totalExponent m' e')) := ⟨_, rfl⟩
      obtain ⟨j, hj⟩ : ∃ j : Nat, j = (e - e' - t).toNat := ⟨_, rfl⟩
      have hdiv : UnpackedFloat.div .binary64 (.finite .positive m e hm) (.finite .positive m' e' hm') =
          roundWithAccuracy .binary64 .positive (m * 2 ^ j / m') t
            (accuracyOfFraction (m * 2 ^ j % m') m') := by
        rw [← Nat.shiftLeft_eq, hj, ht]
        rfl
      rw [targetExponent_eq, totalExponent, totalExponent] at ht
      have hfine : k + 1074 ≤ k' + j ∨ 2 ^ 52 ≤ m * 2 ^ j / m' := by
        rcases Nat.lt_or_ge (k' + j) (k + 1074) with h | h
        swap
        · exact .inl h
        · right
          refine (Nat.le_div_iff_mul_le hm').2 ?_
          calc 2 ^ 52 * m' ≤ 2 ^ 52 * 2 ^ (m'.log2 + 1) := Nat.mul_le_mul_left _ Nat.lt_log2_self.le
            _ = 2 ^ (52 + (m'.log2 + 1)) := (Nat.pow_add ..).symm
            _ ≤ 2 ^ (m.log2 + j) := Nat.pow_le_pow_right (by decide) (by omega)
            _ = 2 ^ m.log2 * 2 ^ j := Nat.pow_add ..
            _ ≤ m * 2 ^ j := Nat.mul_le_mul_right _ (Nat.log2_self_le hm.ne')
      have hround := toNat_pack_round (n := m * 2 ^ j) (a := k + 1074) (b := k' + j) (e := t) hm'
        (by omega) hfine
      have hleft : m * 2 ^ j * 2 ^ (k + 1074) = 2 ^ j * (m * 2 ^ k * whole) := by
        rw [two_pow_whole]
        ring
      have hright : m' * 2 ^ (k' + j) = 2 ^ j * (m' * 2 ^ k') := by ring
      rw [hdiv, hround, hleft, hright, place_mul_left (Nat.two_pow_pos j), units_eq hlt hnormal, hunits]

/-- Taking nothing away. -/
theorem toNat_pack_sub_zero (hu : Unpacked p u) :
    (UnpackedFloat.pack .binary64 (.sub .binary64 u (.zero .positive))).toNat = p := by
  cases hu with
  | zero => decide
  | infinity => decide
  | finite => exact Unpacked.toNat_pack (.finite ‹_› ‹_› ‹_› ‹_› ‹_›)

end Unpacked

/-! ### Amounts -/

/-- The amount is zero or greater, so that it stands at the place that its bits say. -/
def Ranked (x : Amount) : Prop := x.bits.toNat ≤ top

variable {x y z : Amount}

theorem Ranked.unpacked (hx : x.Ranked) : Unpacked x.bits.toNat x.toFloat.toModel.unpack :=
  Amount.unpacked (Amount.unpacked rfl hx).toNat_pack hx

theorem Ranked.isNaN (hx : x.Ranked) : x.isNaN = false := by
  unfold Ranked top at hx
  have hexp : x.exponentBits = x.bits.toNat / 2 ^ 52 % 2 ^ 11 := by
    rw [exponentBits, UInt64.toNat_and, UInt64.toNat_shiftRight, Nat.shiftRight_eq_div_pow]
    exact Nat.and_two_pow_sub_one_eq_mod _ 11
  have hfrac : x.fraction = x.bits.toNat % 2 ^ 52 := by
    rw [fraction, UInt64.toNat_and]
    exact Nat.and_two_pow_sub_one_eq_mod _ 52
  rw [Amount.isNaN, hexp, hfrac]
  by_contra hne
  simp at hne
  omega

theorem toNat_bits_ofFloat {u : UnpackedFloat} {p : Nat}
    (hu : (UnpackedFloat.pack .binary64 u).toNat = p) (hp : p ≤ top) :
    (ofFloat ⟨.pack u⟩).bits.toNat = p := by
  have hnan : Float.isNaN ⟨.pack u⟩ = false := (Amount.unpacked hu hp).isNaN
  rw [ofFloat, hnan]
  exact hu

theorem toNat_bits_rounded {op : Float → Float → Float}
    {f : UnpackedFloat → UnpackedFloat → UnpackedFloat} (hop : Models op f) (hx : x.Ranked)
    (hy : y.Ranked) {p : Nat} (htop : p ≤ top)
    (hp : (UnpackedFloat.pack .binary64 (f x.toFloat.toModel.unpack y.toFloat.toModel.unpack)).toNat =
      p) : (rounded op x y).bits.toNat = p := by
  rw [rounded, hx.isNaN, hy.isNaN, hop]
  exact toNat_bits_ofFloat hp htop

theorem toNat_bits_add (hx : x.Ranked) (hy : y.Ranked) :
    (x + y).bits.toNat = min (place (units x.bits.toNat + units y.bits.toNat) 1) top :=
  toNat_bits_rounded (fun _ _ => rfl) hx hy (Nat.min_le_right _ _)
    (hx.unpacked.toNat_pack_add hy.unpacked)

theorem toNat_bits_mul (hx : x.bits.toNat < top) (hy : y.bits.toNat < top) :
    (x * y).bits.toNat = min (place (units x.bits.toNat * units y.bits.toNat) whole) top :=
  toNat_bits_rounded (fun _ _ => rfl) hx.le hy.le (Nat.min_le_right _ _)
    ((Ranked.unpacked hx.le).toNat_pack_mul (Ranked.unpacked hy.le) hx hy)

theorem toNat_bits_div (hx : x.bits.toNat < top) (hy : y.bits.toNat < top) (hpos : 0 < y.bits.toNat) :
    (x / y).bits.toNat = min (place (units x.bits.toNat * whole) (units y.bits.toNat)) top :=
  toNat_bits_rounded (fun _ _ => rfl) hx.le hy.le (Nat.min_le_right _ _)
    ((Ranked.unpacked hx.le).toNat_pack_div (Ranked.unpacked hy.le) hx hy hpos)

theorem sub_zero (hx : x.Ranked) : x - zero = x := by
  have hbits : (x - zero).bits.toNat = x.bits.toNat :=
    toNat_bits_rounded (f := .sub .binary64) (fun _ _ => rfl) hx (Nat.zero_le _) hx
      hx.unpacked.toNat_pack_sub_zero
  exact congrArg Amount.mk (UInt64.toNat_inj.1 hbits)

theorem units_one : units 0x3FF0000000000000 = whole := by decide +kernel

theorem toNat_pack_ofNat (n : Nat) :
    (UnpackedFloat.pack .binary64 (.ofNat .binary64 n)).toNat = min (place (n * whole) 1) top := by
  rcases Nat.eq_zero_or_pos n with rfl | hn
  · rw [Nat.zero_mul, place_zero Nat.one_pos]
    decide
  · exact toNat_pack_normalize hn (e := 0) rfl

theorem units_limit : units 0x4340000000000000 = 2 ^ 53 * whole := by decide +kernel

/-- Small whole numbers are made in one way and large ones in another. -/
theorem exists_ofNat (n : Nat) : ∃ u, Float.ofNat n = ⟨.pack u⟩ ∧
    (UnpackedFloat.pack .binary64 u).toNat = min (place (n * whole) 1) top := by
  by_cases hn : n < 2 ^ 53
  · have hfloat : Float.ofNat n = n.toUInt64.toFloat * Float.ofBits 0x3FF0000000000000 := by
      show Float.ofScientific n false 0 = _
      rw [Float.ofScientific, dif_pos ⟨hn, by decide⟩]
      rfl
    have hword : n.toUInt64.toNat = n := UInt64.toNat_ofNat_of_lt' (by
      show n < 2 ^ 64
      omega)
    have hplace : place (n * whole) 1 < top := by
      calc place (n * whole) 1 ≤ place (units 0x4340000000000000) 1 := by
            rw [units_limit]
            exact place_mono Nat.one_pos (Nat.mul_le_mul_right _ hn.le)
        _ = 0x4340000000000000 := place_units _
        _ < top := by decide
    have hu : Unpacked (place (n * whole) 1) n.toUInt64.toFloat.toModel.unpack := by
      refine Amount.unpacked ((toNat_pack_ofNat n.toUInt64.toNat).trans ?_) hplace.le
      rw [hword, min_eq_left hplace.le]
    have hone : Unpacked 0x3FF0000000000000 (Float.ofBits 0x3FF0000000000000).toModel.unpack :=
      Ranked.unpacked (x := ⟨0x3FF0000000000000⟩) (by unfold Ranked; decide)
    refine ⟨.mul .binary64 n.toUInt64.toFloat.toModel.unpack
      (Float.ofBits 0x3FF0000000000000).toModel.unpack, hfloat, ?_⟩
    have hmul := hu.toNat_pack_mul hone hplace (by decide)
    have hsame := place_mul_left whole_pos (units (place (n * whole) 1)) 1
    rw [Nat.mul_one, Nat.mul_comm, place_units] at hsame
    rw [hmul, units_one, hsame]
  · have hfloat : Float.ofNat n = .ofModel (.ofScientific n 0) := by
      show Float.ofScientific n false 0 = _
      rw [Float.ofScientific, dif_neg fun h => hn h.1]
      rfl
    refine ⟨.ofScientific .binary64 n 0, hfloat, ?_⟩
    have hexp : (2 : Int) ^ Format.binary64.exponentBits = 2048 := by decide
    have hbits : Format.binary64.mantissaBits = 53 := by decide
    have hsign : Sign.positive * Sign.positive = Sign.positive := rfl
    have hround : UnpackedFloat.ofScientific .binary64 n 0 =
        roundWithAccuracy .binary64 .positive (n * 2 ^ 53) (-53) .exact := by
      unfold UnpackedFloat.ofScientific
      rw [dif_neg (by omega), hexp, if_neg (by decide), if_neg (by omega), if_pos (le_refl 0),
        ← Nat.shiftLeft_eq]
      show roundWithAccuracy .binary64 (.positive * .positive)
        (n <<< Format.binary64.mantissaBits * 10 ^ Int.toNat 0)
        (-(Format.binary64.mantissaBits : Int) + 0) .exact = _
      rw [hsign, hbits, Int.toNat_zero, Nat.pow_zero, Nat.mul_one, Int.add_zero, Nat.cast_ofNat]
    have hpow : n * 2 ^ 53 * 2 ^ 1021 = n * whole := by
      rw [Nat.mul_assoc, ← pow_add, whole]
    rw [hround, toNat_pack_round_exact (a := 1021) (b := 0) (by omega) (.inr (by omega)), hpow,
      Nat.pow_zero]

/-- A whole number is rounded once. -/
theorem toNat_bits_ofNat (n : Nat) : (ofNat n).bits.toNat = min (place (n * whole) 1) top := by
  obtain ⟨u, hfloat, hu⟩ := exists_ofNat n
  rw [ofNat, hfloat]
  exact toNat_bits_ofFloat hu (Nat.min_le_right _ _)

/-! ### Greater operands give no smaller results -/

theorem ranked_add (hx : x.Ranked) (hy : y.Ranked) : (x + y).Ranked := by
  rw [Ranked, toNat_bits_add hx hy]
  exact Nat.min_le_right _ _

theorem ranked_ofNat (n : Nat) : (ofNat n).Ranked := by
  rw [Ranked, toNat_bits_ofNat]
  exact Nat.min_le_right _ _

theorem min_top_mono {p p' : Nat} (h : p ≤ p') : min p top ≤ min p' top :=
  le_min ((Nat.min_le_left _ _).trans h) (Nat.min_le_right _ _)

variable {x' y' : Amount}

theorem ofNat_mono {m n : Nat} (h : m ≤ n) : (ofNat m).bits ≤ (ofNat n).bits := by
  rw [UInt64.le_iff_toNat_le, toNat_bits_ofNat, toNat_bits_ofNat]
  exact min_top_mono (place_mono Nat.one_pos (Nat.mul_le_mul_right _ h))

theorem add_mono (hx' : x'.Ranked) (hy' : y'.Ranked) (hx : x.bits ≤ x'.bits) (hy : y.bits ≤ y'.bits) :
    (x + y).bits ≤ (x' + y').bits := by
  rw [UInt64.le_iff_toNat_le] at hx hy ⊢
  rw [toNat_bits_add (hx.trans hx') (hy.trans hy'), toNat_bits_add hx' hy']
  exact min_top_mono (place_mono Nat.one_pos (Nat.add_le_add (units_mono hx) (units_mono hy)))

end StreamLang.Amount
