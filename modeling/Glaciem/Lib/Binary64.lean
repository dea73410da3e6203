import Mathlib.Tactic
import Mathlib.Data.Int.Log

/-!
# Glaciem — rounding to binary64

A float operation is the exact operation on rationals followed by a rounding to 53 significant
bits, ties to even. The exponent range is left unbounded: the amounts computed with are far
inside the range of normal numbers.
-/

namespace Glaciem

def roundHalfEven (q : ℚ) : Int :=
  if q - ⌊q⌋ < 1 / 2 then ⌊q⌋
  else if 1 / 2 < q - ⌊q⌋ then ⌊q⌋ + 1
  else if ⌊q⌋ % 2 = 0 then ⌊q⌋ else ⌊q⌋ + 1

/-- The spacing of the 53-bit floats around a positive `q`. -/
def ulp (q : ℚ) : ℚ := 2 ^ (Int.log 2 q - 52)

def binary64 (q : ℚ) : ℚ :=
  if q = 0 then 0
  else if q < 0 then - (roundHalfEven (-q / ulp (-q)) * ulp (-q))
  else roundHalfEven (q / ulp q) * ulp q

variable {q : ℚ}

theorem roundHalfEven_le_of_le {n : Int} (h : q ≤ n) : roundHalfEven q ≤ n := by
  have hfloor : ⌊q⌋ ≤ n := by exact_mod_cast (Int.floor_le q).trans h
  rcases h.lt_or_eq with hlt | heq
  · -- strictly below `n`, the next integer above `q` is still at most `n`
    have hsucc : ⌊q⌋ + 1 ≤ n := Int.floor_lt.mpr hlt
    unfold roundHalfEven
    split_ifs <;> omega
  · subst heq
    simp [roundHalfEven]

theorem roundHalfEven_nonneg (h : 0 ≤ q) : 0 ≤ roundHalfEven q := by
  have hfloor : 0 ≤ ⌊q⌋ := Int.floor_nonneg.mpr h
  unfold roundHalfEven
  split_ifs <;> omega

theorem ulp_pos (q : ℚ) : 0 < ulp q := zpow_pos (by norm_num) _

theorem exists_eq_mul_ulp (hq : 0 < q) (hlt : q < 2 ^ 53) (n : Int) :
    ∃ k : Int, (n : ℚ) = k * ulp q := by
  have hlog : Int.log 2 q ≤ 52 := by
    have hpow : Int.log 2 q < 53 := (Int.lt_zpow_iff_log_lt (by norm_num) hq).mp
      (by exact_mod_cast hlt)
    omega
  obtain ⟨j, hj⟩ : ∃ j : Nat, 52 - Int.log 2 q = j := ⟨(52 - Int.log 2 q).toNat, by omega⟩
  refine ⟨n * 2 ^ j, ?_⟩
  have hexp : Int.log 2 q - 52 = -(j : Int) := by omega
  rw [ulp, hexp, zpow_neg, zpow_natCast]
  push_cast
  rw [mul_assoc, mul_inv_cancel₀ (by positivity), mul_one]

theorem binary64_nonpos (h : q ≤ 0) : binary64 q ≤ 0 := by
  unfold binary64
  rcases h.lt_or_eq with hneg | hzero
  · rw [if_neg hneg.ne, if_pos hneg, neg_nonpos]
    have hquot : 0 ≤ -q / ulp (-q) := div_nonneg (by linarith) (ulp_pos _).le
    exact mul_nonneg (by exact_mod_cast roundHalfEven_nonneg hquot) (ulp_pos _).le
  · rw [if_pos hzero]

theorem binary64_nonneg (h : 0 ≤ q) : 0 ≤ binary64 q := by
  unfold binary64
  split_ifs with hzero hneg
  · exact le_rfl
  · exact absurd h (not_le.mpr hneg)
  · have hquot : 0 ≤ q / ulp q := div_nonneg h (ulp_pos _).le
    exact mul_nonneg (by exact_mod_cast roundHalfEven_nonneg hquot) (ulp_pos _).le

theorem binary64_le_of_le {n : Nat} (hn : n ≤ 2 ^ 53) (h : q ≤ n) : binary64 q ≤ n := by
  rcases le_or_gt q 0 with hneg | hpos
  · exact (binary64_nonpos hneg).trans (by positivity)
  have hround : binary64 q = roundHalfEven (q / ulp q) * ulp q := by
    rw [binary64, if_neg hpos.ne', if_neg hpos.le.not_gt]
  rw [hround]
  have hn' : (n : ℚ) ≤ 2 ^ 53 := by exact_mod_cast hn
  -- `n` is a multiple of the spacing at `q`, also when `q` is `2 ^ 53` itself
  obtain ⟨k, hk⟩ : ∃ k : Int, (n : ℚ) = k * ulp q := by
    rcases (h.trans hn').lt_or_eq with hlt | heq
    · exact exists_eq_mul_ulp hpos hlt n
    · have hnq : (n : ℚ) = 2 ^ 53 := le_antisymm hn' (heq ▸ h)
      have hlog : Int.log 2 ((2 : ℚ) ^ 53) = 53 := by
        have := Int.log_zpow (R := ℚ) (b := 2) (by norm_num) 53
        exact_mod_cast this
      exact ⟨2 ^ 52, by rw [hnq, heq, ulp, hlog]; norm_num⟩
  rw [hk] at h ⊢
  have hquot : q / ulp q ≤ k := (div_le_iff₀ (ulp_pos q)).mpr h
  exact mul_le_mul_of_nonneg_right (by exact_mod_cast roundHalfEven_le_of_le hquot) (ulp_pos q).le

example : binary64 (2 ^ 53 + 3) = 2 ^ 53 + 4 := by decide +kernel

/-- A way to round the result of an operation. It keeps the sign. -/
structure Rounding where
  round : ℚ → ℚ
  nonneg : ∀ {q}, 0 ≤ q → 0 ≤ round q
  nonpos : ∀ {q}, q ≤ 0 → round q ≤ 0

namespace Rounding

/-- No rounding. -/
def exact : Rounding := ⟨id, id, id⟩

def float : Rounding := ⟨binary64, binary64_nonneg, binary64_nonpos⟩

theorem zero (r : Rounding) : r.round 0 = 0 := le_antisymm (r.nonpos le_rfl) (r.nonneg le_rfl)

end Rounding

end Glaciem
