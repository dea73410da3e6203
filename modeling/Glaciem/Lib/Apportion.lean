import Mathlib.Tactic

/-!
# Glaciem — splitting an amount in proportion to shares

An amount `A` split over a list of share counts out of a total `T`: the slice of `s` shares
is `A * s / T`, rounded down.
-/

namespace Glaciem.Apportion

def slices (A T : Nat) (ss : List Nat) : List Nat := ss.map (fun s => A * s / T)

/-- The slices and what the divisions leave make up the whole. -/
theorem sum_slices_add_rem (A T : Nat) (ss : List Nat) :
    T * (slices A T ss).sum + (ss.map (fun s => A * s % T)).sum = A * ss.sum := by
  unfold slices
  induction ss with
  | nil => simp
  | cons s rest ih =>
    have hs := Nat.div_add_mod (A * s) T
    simp only [List.map_cons, List.sum_cons, mul_add]
    omega

theorem sum_slices_le {T : Nat} (hT : 0 < T) (A : Nat) {ss : List Nat} (hss : ss.sum ≤ T) :
    (slices A T ss).sum ≤ A := by
  have heuclid := sum_slices_add_rem A T ss
  have hbound : A * ss.sum ≤ A * T := Nat.mul_le_mul_left A hss
  have hle : T * (slices A T ss).sum ≤ T * A := by
    rw [mul_comm T A]
    omega
  exact Nat.le_of_mul_le_mul_left hle hT

end Glaciem.Apportion
