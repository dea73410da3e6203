import Mathlib.Tactic

/-!
# Glaciem — products and quotients of double words

`mul128` of `int-util.h`, the product of two words by halves of 32 bits, and `div128_64` of
`int-util.cpp`. Words are numbers below `2 ^ 64`; `mul128_eq` and `div128By64_eq` say that no bit is
lost.
-/

namespace Glaciem.Wide

def mul128 (multiplier multiplicand : Nat) : Nat × Nat :=
  let a := multiplier / 2 ^ 32
  let b := multiplier % 2 ^ 32
  let c := multiplicand / 2 ^ 32
  let d := multiplicand % 2 ^ 32
  let ac := a * c % 2 ^ 64
  let ad := a * d % 2 ^ 64
  let bc := b * c % 2 ^ 64
  let bd := b * d % 2 ^ 64
  let adbc := (ad + bc) % 2 ^ 64
  let adbcCarry := if adbc < ad then 1 else 0
  let productLo := (bd + adbc * 2 ^ 32 % 2 ^ 64) % 2 ^ 64
  let productLoCarry := if productLo < bd then 1 else 0
  (productLo, (ac + adbc / 2 ^ 32 + adbcCarry * 2 ^ 32 + productLoCarry) % 2 ^ 64)

def div128By64 (dividendHi dividendLo divisor : Nat) : Nat × Nat :=
  let q := (dividendHi <<< 64 ||| dividendLo) / divisor
  (q / 2 ^ 64 % 2 ^ 64, q % 2 ^ 64)

/-- The product by halves. None of the four parts overflows a word. -/
theorem mul_eq_halves {a b : Nat} (ha : a < 2 ^ 64) (hb : b < 2 ^ 64) :
    ∃ p00 p10 p01 p11, a % 2 ^ 32 * (b % 2 ^ 32) = p00 ∧ a / 2 ^ 32 * (b % 2 ^ 32) = p10
      ∧ a % 2 ^ 32 * (b / 2 ^ 32) = p01 ∧ a / 2 ^ 32 * (b / 2 ^ 32) = p11
      ∧ a * b = p00 + 2 ^ 32 * p10 + 2 ^ 32 * p01 + 2 ^ 64 * p11
      ∧ p00 ≤ (2 ^ 32 - 1) * (2 ^ 32 - 1) ∧ p10 ≤ (2 ^ 32 - 1) * (2 ^ 32 - 1)
      ∧ p01 ≤ (2 ^ 32 - 1) * (2 ^ 32 - 1) ∧ p11 ≤ (2 ^ 32 - 1) * (2 ^ 32 - 1) := by
  have hhalf {x y : Nat} (hx : x < 2 ^ 32) (hy : y < 2 ^ 32) :
      x * y ≤ (2 ^ 32 - 1) * (2 ^ 32 - 1) :=
    Nat.mul_le_mul (Nat.le_pred_of_lt hx) (Nat.le_pred_of_lt hy)
  have hal : a % 2 ^ 32 < 2 ^ 32 := Nat.mod_lt _ (by decide)
  have hbl : b % 2 ^ 32 < 2 ^ 32 := Nat.mod_lt _ (by decide)
  have hah : a / 2 ^ 32 < 2 ^ 32 := by omega
  have hbh : b / 2 ^ 32 < 2 ^ 32 := by omega
  refine ⟨_, _, _, _, rfl, rfl, rfl, rfl, ?_, hhalf hal hbl, hhalf hah hbl, hhalf hal hbh,
    hhalf hah hbh⟩
  conv_lhs => rw [← Nat.mod_add_div a (2 ^ 32), ← Nat.mod_add_div b (2 ^ 32)]
  ring

theorem mul128_eq {a b : Nat} (ha : a < 2 ^ 64) (hb : b < 2 ^ 64) :
    mul128 a b = (a * b % 2 ^ 64, a * b / 2 ^ 64) := by
  obtain ⟨p00, p10, p01, p11, h00, h10, h01, h11, hmul, hb00, hb10, hb01, hb11⟩ :=
    mul_eq_halves ha hb
  unfold mul128
  dsimp only
  rw [h00, h10, h01, h11, hmul]
  refine Prod.ext ?_ ?_
  · dsimp only
    omega
  · dsimp only
    split <;> split <;> omega

theorem div128By64_eq {hi lo : Nat} (divisor : Nat) (hlo : lo < 2 ^ 64) :
    div128By64 hi lo divisor
      = ((hi * 2 ^ 64 + lo) / divisor / 2 ^ 64 % 2 ^ 64,
        (hi * 2 ^ 64 + lo) / divisor % 2 ^ 64) := by
  rw [div128By64, ← Nat.shiftLeft_add_eq_or_of_lt hlo, Nat.shiftLeft_eq]

end Glaciem.Wide
