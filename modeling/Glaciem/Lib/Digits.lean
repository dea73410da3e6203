import Mathlib.Data.Nat.Digits.Lemmas
import Mathlib.Tactic

/-!
# Glaciem — positional digits of a fixed width

`fixedDigits b w n` are the `w` lowest digits of `n` in base `b`, low digit first, leading zeros
included. On numbers below `b ^ w` it is inverse to `Nat.ofDigits`.
-/

namespace Glaciem.Digits

open Nat

def fixedDigits (b : Nat) : Nat → Nat → List Nat
  | 0, _ => []
  | w + 1, n => n % b :: fixedDigits b w (n / b)

@[simp] theorem length_fixedDigits (b w : Nat) : ∀ n, (fixedDigits b w n).length = w := by
  induction w with
  | zero => intro n; rfl
  | succ w ih => intro n; rw [fixedDigits, List.length_cons, ih]

theorem lt_of_mem_fixedDigits {b : Nat} (hb : 0 < b) (w : Nat) :
    ∀ {n d : Nat}, d ∈ fixedDigits b w n → d < b := by
  induction w with
  | zero => intro n d h; cases h
  | succ w ih =>
    intro n d h
    rw [fixedDigits, List.mem_cons] at h
    rcases h with rfl | h
    · exact mod_lt n hb
    · exact ih h

theorem ofDigits_fixedDigits (b w : Nat) :
    ∀ {n : Nat}, n < b ^ w → Nat.ofDigits b (fixedDigits b w n) = n := by
  induction w with
  | zero =>
    intro n h
    rw [pow_zero] at h
    rw [fixedDigits, ofDigits_nil]
    omega
  | succ w ih =>
    intro n h
    have hdiv : n / b < b ^ w := by
      rw [pow_succ] at h
      exact Nat.div_lt_of_lt_mul (by rwa [Nat.mul_comm])
    rw [fixedDigits, Nat.ofDigits_cons, ih hdiv]
    exact Nat.mod_add_div n b

/-- Digits are the digits of their value: no other list of that length has it. -/
theorem fixedDigits_ofDigits {b : Nat} (hb : 1 < b) {ds : List Nat} (hds : ∀ d ∈ ds, d < b) :
    fixedDigits b ds.length (Nat.ofDigits b ds) = ds := by
  apply ofDigits_inj_of_len_eq hb
  · exact length_fixedDigits b ds.length _
  · intro d hd
    exact lt_of_mem_fixedDigits (by omega) ds.length hd
  · exact hds
  · exact ofDigits_fixedDigits b ds.length (ofDigits_lt_base_pow_length hb hds)

end Glaciem.Digits
