import Mathlib.Tactic.MkIffOfInductiveProp
import StreamLang.Host
import StreamLang.Proofs.Amount.Rounding
/-!
The readings of a clock, which are taken apart into seconds and the rest and put together again. Each
part is rounded, and so is their sum and its multiple; however long a clock runs, it never reads less
than before.
-/
namespace StreamLang

namespace Amount

theorem place_eq {m k : Nat} (hlt : m < 2 ^ 53) (hnormal : 0 < k → 2 ^ 52 ≤ m) :
    place (m * 2 ^ k) 1 = m + k * 2 ^ 52 := by
  rw [← units_eq hlt hnormal, place_units]

/-- Whole numbers of fifty-three bits are not rounded. -/
theorem units_ofNat {n : Nat} (hn : n < 2 ^ 53) : units (ofNat n).bits.toNat = n * whole := by
  rcases Nat.eq_zero_or_pos n with rfl | hpos
  · rw [toNat_bits_ofNat, Nat.zero_mul, place_zero Nat.one_pos]
    rfl
  · have hlog : n.log2 < 53 := (Nat.log2_lt hpos.ne').2 hn
    obtain ⟨m, hm⟩ : ∃ m, m = n * 2 ^ (52 - n.log2) := ⟨_, rfl⟩
    have hwhole : n * whole = m * 2 ^ (1022 + n.log2) := by
      have hexp : 52 - n.log2 + (1022 + n.log2) = 1074 := by omega
      rw [hm, whole, mul_assoc, ← pow_add, hexp]
    have hfull : n.log2 + (52 - n.log2) = 52 := by omega
    have hlow : 2 ^ 52 ≤ m := by
      calc 2 ^ 52 = 2 ^ n.log2 * 2 ^ (52 - n.log2) := by rw [← pow_add, hfull]
        _ ≤ m := hm ▸ Nat.mul_le_mul_right _ (Nat.log2_self_le hpos.ne')
    have hhigh : m < 2 ^ 53 := by
      calc m < 2 ^ (n.log2 + 1) * 2 ^ (52 - n.log2) :=
            hm ▸ Nat.mul_lt_mul_of_pos_right Nat.lt_log2_self (Nat.two_pow_pos _)
        _ = 2 ^ 53 := by rw [← pow_add, Nat.add_right_comm, hfull]
    have hplace := place_eq (k := 1022 + n.log2) hhigh fun _ => hlow
    rw [toNat_bits_ofNat, hwhole, hplace, min_eq_left (by unfold top; omega),
      units_eq hhigh fun _ => hlow]

/-- What is less than one is lost where amounts are two apart. -/
theorem place_units_add {p f : Nat} (hp : 2 ^ 53 * whole ≤ units p) (hf : f < whole) :
    place (units p + f) 1 = p := by
  obtain ⟨m, k, rfl, hlt, hnormal⟩ := exists_canonical p
  rw [units_eq hlt hnormal] at hp ⊢
  have hk : 1075 ≤ k := by
    by_contra hk
    have hpow : 2 ^ k ≤ whole := by
      rw [whole]
      apply Nat.pow_le_pow_right
      · decide
      · omega
    have hless : m * 2 ^ k < 2 ^ 53 * whole :=
      Nat.mul_lt_mul_of_lt_of_le hlt hpow whole_pos
    exact absurd hp hless.not_ge
  have hge := hnormal (by omega)
  have hhalf : 2 * f < 2 ^ k := by
    calc 2 * f < 2 * whole := by omega
      _ = 2 ^ (1074 + 1) := by rw [whole, ← pow_succ' 2 1074]
      _ ≤ 2 ^ k := by
        apply Nat.pow_le_pow_right
        · decide
        · exact hk
  have hstep : step (m * 2 ^ k + f) 1 = k := by
    have hlog : (m * 2 ^ k + f).log2 = k + 52 := by
      have hne : m * 2 ^ k + f ≠ 0 :=
        (Nat.add_pos_left (Nat.mul_pos (by omega) (Nat.two_pow_pos k)) f).ne'
      refine (Nat.log2_eq_iff hne).2 ⟨?_, ?_⟩
      · calc 2 ^ (k + 52) = 2 ^ 52 * 2 ^ k := by rw [pow_add, mul_comm]
          _ ≤ m * 2 ^ k := Nat.mul_le_mul_right _ hge
          _ ≤ m * 2 ^ k + f := Nat.le_add_right _ _
      · calc m * 2 ^ k + f < (m + 1) * 2 ^ k := by
              rw [Nat.succ_mul]
              omega
          _ ≤ 2 ^ 53 * 2 ^ k := Nat.mul_le_mul_right _ hlt
          _ = 2 ^ (k + 52 + 1) := by rw [← pow_add]; congr 1; omega
    rw [step, Nat.div_one, hlog, Nat.add_sub_cancel]
  rw [place, hstep, Nat.one_mul, nearest_add hhalf]

/-! ### Milliseconds from seconds and the rest -/

/-- A part of a second, counted in thousandths. -/
def thousandths (k : Nat) : Amount := ofNat (k * 1000000) / ofNat 1000000000

/-- What can be read off the numbers that a clock works with. -/
@[mk_iff]
structure Parts : Prop where
  second : (ofNat 1000000000).bits = 0x41CDCD6500000000
  units_second : 0 < units 0x41CDCD6500000000
  last : (thousandths 999).bits = 0x3FEFF7CED916872B
  units_last : units 0x3FEFF7CED916872B < whole
  limit : (ofNat (2 ^ 53)).bits = 0x4340000000000000
  thousand : (ofNat 1000).bits = 0x408F400000000000
  infinite : infinity * ofNat 1000 = infinity

theorem parts : Parts := (parts_iff).2 (by decide +kernel)

variable {x y x' : Amount} {j k s : Nat}

theorem ofNat_lt_top (hk : k < 1000) : (ofNat (k * 1000000)).bits.toNat < top := by
  have hle : (ofNat (k * 1000000)).bits ≤ (ofNat 1000000000).bits := ofNat_mono (by omega)
  rw [UInt64.le_iff_toNat_le, parts.second] at hle
  exact hle.trans_lt (by decide)

theorem toNat_bits_thousandths (hk : k < 1000) : (thousandths k).bits.toNat =
    min (place (units (ofNat (k * 1000000)).bits.toNat * whole) (units 0x41CDCD6500000000)) top := by
  rw [thousandths, toNat_bits_div (ofNat_lt_top hk) (by rw [parts.second]; decide)
    (by rw [parts.second]; decide), parts.second]
  rfl

theorem thousandths_mono (h : j ≤ k) (hk : k < 1000) :
    (thousandths j).bits ≤ (thousandths k).bits := by
  rw [UInt64.le_iff_toNat_le, toNat_bits_thousandths (h.trans_lt hk), toNat_bits_thousandths hk]
  refine min_top_mono (place_mono parts.units_second (Nat.mul_le_mul_right _ (units_mono ?_)))
  exact UInt64.le_iff_toNat_le.1 (ofNat_mono (Nat.mul_le_mul_right _ h))

theorem units_thousandths (hk : k < 1000) : units (thousandths k).bits.toNat < whole := by
  have hle := thousandths_mono (Nat.le_of_lt_succ hk) (by decide : 999 < 1000)
  rw [UInt64.le_iff_toNat_le, parts.last] at hle
  exact (units_mono hle).trans_lt parts.units_last

theorem ranked_thousandths (hk : k < 1000) : (thousandths k).Ranked := by
  rw [Ranked, toNat_bits_thousandths hk]
  exact Nat.min_le_right _ _

/-- A part of a second does not lead beyond the next one. -/
theorem add_thousandths_le (s : Nat) (hk : k < 1000) :
    (ofNat s + thousandths k).bits ≤ (ofNat (s + 1)).bits := by
  have hless := units_thousandths hk
  rw [UInt64.le_iff_toNat_le, toNat_bits_add (ranked_ofNat s) (ranked_thousandths hk)]
  rcases Nat.lt_or_ge s (2 ^ 53) with hs | hs
  · rw [units_ofNat hs, toNat_bits_ofNat]
    refine min_top_mono (place_mono Nat.one_pos ?_)
    rw [Nat.succ_mul]
    omega
  · have hlarge : 2 ^ 53 * whole ≤ units (ofNat s).bits.toNat := by
      have hle := UInt64.le_iff_toNat_le.1 (ofNat_mono hs)
      rw [parts.limit] at hle
      exact units_limit ▸ units_mono hle
    rw [place_units_add hlarge hless, min_eq_left (ranked_ofNat s)]
    exact UInt64.le_iff_toNat_le.1 (ofNat_mono (Nat.le_succ s))

theorem le_add (hx : x.Ranked) (hy : y.Ranked) : x.bits ≤ (x + y).bits := by
  rw [UInt64.le_iff_toNat_le, toNat_bits_add hx hy]
  refine le_min ?_ hx
  calc x.bits.toNat = place (units x.bits.toNat) 1 := (place_units _).symm
    _ ≤ _ := place_mono Nat.one_pos (Nat.le_add_right _ _)

theorem mul_thousand_of_top (hx : x.bits.toNat = top) : (x * ofNat 1000).bits.toNat = top := by
  obtain rfl : x = infinity := congrArg Amount.mk (UInt64.toNat_inj.1 hx)
  rw [parts.infinite]
  exact hx

theorem toNat_bits_mul_thousand (hx : x.bits.toNat < top) : (x * ofNat 1000).bits.toNat =
    min (place (units x.bits.toNat * units 0x408F400000000000) whole) top := by
  rw [toNat_bits_mul hx (by rw [parts.thousand]; decide), parts.thousand]
  rfl

theorem ranked_mul_thousand (hx : x.Ranked) : (x * ofNat 1000).Ranked := by
  rcases Nat.lt_or_eq_of_le hx with hless | htop
  · rw [Ranked, toNat_bits_mul_thousand hless]
    exact Nat.min_le_right _ _
  · exact (mul_thousand_of_top htop).le

theorem mul_thousand_mono (hx' : x'.Ranked) (h : x.bits ≤ x'.bits) :
    (x * ofNat 1000).bits ≤ (x' * ofNat 1000).bits := by
  rw [UInt64.le_iff_toNat_le] at h ⊢
  rcases Nat.lt_or_eq_of_le hx' with hless | htop
  · rw [toNat_bits_mul_thousand (h.trans_lt hless), toNat_bits_mul_thousand hless]
    exact min_top_mono (place_mono whole_pos (Nat.mul_le_mul_right _ (units_mono h)))
  · rw [mul_thousand_of_top htop]
    exact ranked_mul_thousand (h.trans hx')

theorem atMost_of_le (hy : y.Ranked) (h : x.bits ≤ y.bits) : x.atMost y = true := by
  rw [UInt64.le_iff_toNat_le] at h
  have hkey {z : Amount} (hz : z.Ranked) : z.key = z.bits.toNat := by
    have hless : z.bits.toNat < 2 ^ 63 := by
      unfold Ranked top at hz
      omega
    rw [key, negative_eq, decide_eq_false (by omega), if_neg Bool.false_ne_true, magnitude_eq,
      Nat.mod_eq_of_lt hless]
  have hx : x.Ranked := h.trans hy
  rw [atMost, comparable, hx.isNaN, hy.isNaN, hkey hx, hkey hy]
  simpa using h

end Amount

namespace Clock

open Amount

/-- The milliseconds that a clock reads. -/
def elapsed (n : Nat) : Amount := (ofNat (n / 1000) + thousandths (n % 1000)) * ofNat 1000

theorem reading_eq (n : Nat) : reading n = .plain (elapsed n) := rfl

theorem ranked_elapsed (n : Nat) : (elapsed n).Ranked :=
  ranked_mul_thousand (ranked_add (ranked_ofNat _) (ranked_thousandths (Nat.mod_lt n (by decide))))

theorem elapsed_zero : elapsed 0 = zero := by decide +kernel

/-- A clock never reads less than before. -/
theorem elapsed_mono {m n : Nat} (h : m ≤ n) : (elapsed m).bits ≤ (elapsed n).bits := by
  have hm : m % 1000 < 1000 := Nat.mod_lt m (by decide)
  have hn : n % 1000 < 1000 := Nat.mod_lt n (by decide)
  refine mul_thousand_mono (ranked_add (ranked_ofNat _) (ranked_thousandths hn)) ?_
  rcases (Nat.div_le_div_right (c := 1000) h).lt_or_eq with hlt | heq
  · calc (ofNat (m / 1000) + thousandths (m % 1000)).bits
      _ ≤ (ofNat (m / 1000 + 1)).bits := add_thousandths_le _ hm
      _ ≤ (ofNat (n / 1000)).bits := ofNat_mono hlt
      _ ≤ _ := le_add (ranked_ofNat _) (ranked_thousandths hn)
  · rw [heq]
    have hle : m % 1000 ≤ n % 1000 := by omega
    exact add_mono (ranked_ofNat _) (ranked_thousandths hn) (UInt64.le_refl _) (thousandths_mono hle hn)

end Clock
end StreamLang
