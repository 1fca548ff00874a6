import FieldPlan.Binary64
import Mathlib

/-!
# Integers as doubles

* `Binary64.roundUnits_mono` : rounding keeps the order of magnitudes;
* `Binary64.ofInt_mono`, `Binary64.ofInt_exact` : the double nearest to an integer grows with it, and
  is the integer itself up to `2 ^ 53`; so no two integers up to there share one (`Binary64.ofInt_inj`).
-/

namespace FieldPlan

namespace Binary64

/-! ## Rounding -/

theorem le_roundQuotient (num den : Nat) : num / den ≤ roundQuotient num den := by
  unfold roundQuotient
  dsimp only
  split_ifs <;> omega

theorem roundQuotient_le (num den : Nat) : roundQuotient num den ≤ num / den + 1 := by
  unfold roundQuotient
  dsimp only
  split_ifs <;> omega

theorem roundQuotient_mono {m n : Nat} (den : Nat) (h : m ≤ n) :
    roundQuotient m den ≤ roundQuotient n den := by
  rcases Nat.lt_or_eq_of_le (Nat.div_le_div_right (c := den) h) with hlt | heq
  · calc
      roundQuotient m den ≤ m / den + 1 := roundQuotient_le m den
      _ ≤ n / den := hlt
      _ ≤ roundQuotient n den := le_roundQuotient n den
  · have rest : m % den ≤ n % den := by
      have hm := Nat.div_add_mod m den
      have hn := Nat.div_add_mod n den
      rw [heq] at hm
      omega
    unfold roundQuotient
    rw [heq]
    dsimp only
    split_ifs <;> omega

theorem roundUnits_one (m : Nat) :
    roundUnits m 1 = roundQuotient m (2 ^ spareBits m) * 2 ^ spareBits m := by
  unfold roundUnits
  rw [Nat.div_one]
  show roundQuotient m (1 * 2 ^ spareBits m) * 2 ^ spareBits m = _
  rw [Nat.one_mul]

theorem spareBits_le (m : Nat) : spareBits m ≤ m.log2 := Nat.sub_le _ _

/-- Rounding keeps the leading power of two. -/
theorem pow_le_roundUnits {m : Nat} (hm : m ≠ 0) : 2 ^ m.log2 ≤ roundUnits m 1 := by
  have split : 2 ^ m.log2 = 2 ^ (m.log2 - spareBits m) * 2 ^ spareBits m := by
    rw [← Nat.pow_add, Nat.sub_add_cancel (spareBits_le m)]
  rw [roundUnits_one, split]
  refine Nat.mul_le_mul_right _ (Nat.le_trans ?_ (le_roundQuotient _ _))
  rw [Nat.le_div_iff_mul_le (Nat.two_pow_pos _), ← split]
  exact Nat.log2_self_le hm

/-- Rounding goes up to the next power of two at most. -/
theorem roundUnits_le_pow (m : Nat) : roundUnits m 1 ≤ 2 ^ (m.log2 + 1) := by
  have split : 2 ^ (m.log2 + 1) = 2 ^ (m.log2 + 1 - spareBits m) * 2 ^ spareBits m := by
    rw [← Nat.pow_add, Nat.sub_add_cancel (Nat.le_succ_of_le (spareBits_le m))]
  rw [roundUnits_one, split]
  refine Nat.mul_le_mul_right _ (Nat.le_trans (roundQuotient_le _ _) ?_)
  rw [Nat.succ_le_iff, Nat.div_lt_iff_lt_mul (Nat.two_pow_pos _), ← split]
  exact Nat.lt_log2_self

theorem roundUnits_mono {m n : Nat} (h : m ≤ n) : roundUnits m 1 ≤ roundUnits n 1 := by
  rcases Nat.eq_zero_or_pos m with rfl | hm
  · exact Nat.zero_le _
  have hn : n ≠ 0 := Nat.ne_of_gt (Nat.lt_of_lt_of_le hm h)
  have logs : m.log2 ≤ n.log2 :=
    (Nat.le_log2 hn).mpr (Nat.le_trans (Nat.log2_self_le (Nat.ne_of_gt hm)) h)
  rcases Nat.lt_or_eq_of_le logs with hlt | heq
  · -- The next power of two lies between the two.
    calc
      roundUnits m 1 ≤ 2 ^ (m.log2 + 1) := roundUnits_le_pow m
      _ ≤ 2 ^ n.log2 := Nat.pow_le_pow_right Nat.two_pos hlt
      _ ≤ roundUnits n 1 := pow_le_roundUnits hn
  · have bits : spareBits m = spareBits n := congrArg (· - 52) heq
    rw [roundUnits_one, roundUnits_one, bits]
    exact Nat.mul_le_mul_right _ (roundQuotient_mono _ h)

/-- What has no bits to be rounded stays as it is. -/
theorem roundUnits_of_dvd {m : Nat} (h : 2 ^ spareBits m ∣ m) : roundUnits m 1 = m := by
  have exactly : roundQuotient m (2 ^ spareBits m) = m / 2 ^ spareBits m := by
    unfold roundQuotient
    have pos := Nat.two_pow_pos (spareBits m)
    rw [Nat.mod_eq_zero_of_dvd h, if_pos (by omega)]
  rw [roundUnits_one, exactly, Nat.div_mul_cancel h]

/-! ## Integers -/

theorem roundUnits_mul_pow {n : Nat} (h : n ≤ 2 ^ 53) (j : Nat) :
    roundUnits (n * Nat.pow 2 j) 1 = n * Nat.pow 2 j := by
  refine roundUnits_of_dvd ?_
  show 2 ^ spareBits (n * 2 ^ j) ∣ n * 2 ^ j
  rcases Nat.lt_or_eq_of_le h with hlt | rfl
  · rcases Nat.eq_zero_or_pos n with rfl | hn
    · rw [Nat.zero_mul]
      exact Nat.dvd_zero _
    have small : n * 2 ^ j < 2 ^ (53 + j) := by
      rw [Nat.pow_add]
      exact Nat.mul_lt_mul_of_pos_right hlt (Nat.two_pow_pos _)
    have nonzero : n * 2 ^ j ≠ 0 := Nat.ne_of_gt (Nat.mul_pos hn (Nat.two_pow_pos _))
    have bits : spareBits (n * 2 ^ j) ≤ j := by
      have := (Nat.log2_lt nonzero).mpr small
      unfold spareBits
      omega
    exact Nat.dvd_mul_left_of_dvd (Nat.pow_dvd_pow 2 bits) n
  · rw [← Nat.pow_add]
    exact Nat.pow_dvd_pow 2 (Nat.le_trans (spareBits_le _) (Nat.le_of_eq Nat.log2_two_pow))

theorem roundUnits_mul_one {n : Nat} (h : n ≤ 2 ^ 53) : roundUnits (n * one) 1 = n * one := by
  unfold one
  generalize 1074 = j
  exact roundUnits_mul_pow h j

theorem one_pos : 0 < one := by
  unfold one
  generalize 1074 = j
  exact Nat.two_pow_pos j

/-- The double nearest to an integer grows with it. -/
theorem ofInt_mono {m n : Int} (h : m ≤ n) : (ofInt m).scaled ≤ (ofInt n).scaled := by
  have mono : ∀ {a b : Nat}, a ≤ b → (roundUnits (a * one) 1 : Int) ≤ roundUnits (b * one) 1 :=
    fun hab => Int.ofNat_le.mpr (roundUnits_mono (Nat.mul_le_mul_right one hab))
  unfold scaled ofInt
  simp only [decide_eq_true_eq]
  split_ifs with hm hn hn
  · exact Int.neg_le_neg (mono (by omega))
  · omega
  · omega
  · exact mono (by omega)

/-- An integer up to `2 ^ 53` is its own double. -/
theorem ofInt_exact {n : Int} (h : n.natAbs ≤ 2 ^ 53) : (ofInt n).scaled = n * one := by
  unfold scaled ofInt
  simp only [decide_eq_true_eq]
  rw [roundUnits_mul_one h, Int.natCast_mul]
  split_ifs with hn
  · rw [← Int.neg_mul, Int.ofNat_natAbs_of_nonpos (Int.le_of_lt hn), Int.neg_neg]
  · rw [Int.natAbs_of_nonneg (Int.not_lt.mp hn)]

/-- Up to there no two integers have the same double. -/
theorem ofInt_inj {m n : Int} (hm : m.natAbs ≤ 2 ^ 53) (hn : n.natAbs ≤ 2 ^ 53)
    (h : (ofInt m).scaled = (ofInt n).scaled) : m = n := by
  rw [ofInt_exact hm, ofInt_exact hn] at h
  exact Int.eq_of_mul_eq_mul_right (Int.natCast_ne_zero.mpr (Nat.ne_of_gt one_pos)) h

end Binary64

end FieldPlan
