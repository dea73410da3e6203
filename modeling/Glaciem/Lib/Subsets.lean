import Mathlib.Data.Finset.Powerset
import Mathlib.Data.Fintype.BigOperators
import Mathlib.Tactic

/-!
# Glaciem — subsets of one size

The subsets of size `r` of a finite type that contain an element and avoid others, with their
number, and the two facts that make sharing among such subsets a threshold scheme: two subsets that
are large together meet, and an element lies in a subset of each size that avoids the others.
-/

namespace Glaciem

open Finset

variable {ι : Type} [Fintype ι] [DecidableEq ι]

/-- The subsets of size `r` that contain `j` and avoid `s`. -/
def groupsWith (r : Nat) (j : ι) (s : Finset ι) : Finset (Finset ι) :=
  (Finset.powersetCard (r - 1) (insert j s)ᶜ).image (insert j)

theorem mem_groupsWith {r : Nat} {j : ι} {s T : Finset ι} (hj : j ∉ s) (hr : 1 ≤ r) :
    T ∈ groupsWith r j s ↔ j ∈ T ∧ Disjoint T s ∧ T.card = r := by
  rw [groupsWith, mem_image]
  constructor
  · rintro ⟨U, hU, rfl⟩
    rw [mem_powersetCard] at hU
    have hnot : ∀ a ∈ U, a ≠ j ∧ a ∉ s := fun a ha => by
      have := hU.1 ha
      rw [mem_compl, mem_insert, not_or] at this
      exact this
    refine ⟨mem_insert_self _ _, ?_, ?_⟩
    · rw [disjoint_insert_left]
      exact ⟨hj, disjoint_left.mpr fun a ha => (hnot a ha).2⟩
    · rw [card_insert_of_notMem fun h => (hnot j h).1 rfl, hU.2]
      omega
  · rintro ⟨hjT, hdisj, hcard⟩
    refine ⟨T.erase j, ?_, insert_erase hjT⟩
    rw [mem_powersetCard, card_erase_of_mem hjT, hcard]
    refine ⟨fun a ha => ?_, rfl⟩
    rw [mem_erase] at ha
    rw [mem_compl, mem_insert, not_or]
    exact ⟨ha.1, disjoint_left.mp hdisj ha.2⟩

theorem card_groupsWith {j : ι} {s : Finset ι} (hj : j ∉ s) (r : Nat) :
    (groupsWith r j s).card = (Fintype.card ι - 1 - s.card).choose (r - 1) := by
  have hinj : Set.InjOn (insert j)
      (Finset.powersetCard (r - 1) (insert j s)ᶜ : Set (Finset ι)) := by
    -- erasing `j` undoes the insertion, since these subsets do not contain it
    intro U hU V hV hUV
    have hfree : ∀ W ∈ Finset.powersetCard (r - 1) (insert j s)ᶜ, j ∉ W := fun W hW hjW => by
      have := (mem_powersetCard.mp hW).1 hjW
      rw [mem_compl] at this
      exact this (mem_insert_self _ _)
    rw [← erase_insert (hfree U hU), ← erase_insert (hfree V hV), hUV]
  rw [groupsWith, card_image_of_injOn hinj, card_powersetCard, card_compl, card_insert_of_notMem hj]
  congr 1
  omega

theorem exists_group {r : Nat} {j : ι} {s : Finset ι} (hj : j ∉ s) (hr : 1 ≤ r)
    (hle : r + s.card ≤ Fintype.card ι) : ∃ T : Finset ι, j ∈ T ∧ Disjoint T s ∧ T.card = r := by
  have hpos : 0 < (groupsWith r j s).card := by
    rw [card_groupsWith hj]
    exact Nat.choose_pos (by omega)
  obtain ⟨T, hT⟩ := card_pos.mp hpos
  exact ⟨T, (mem_groupsWith hj hr).mp hT⟩

omit [Fintype ι] in
theorem exists_mem_inter {S T U : Finset ι} (hS : S ⊆ U) (hT : T ⊆ U)
    (hcard : U.card < S.card + T.card) : ∃ j ∈ S, j ∈ T := by
  obtain ⟨j, hj⟩ := inter_nonempty_of_card_lt_card_add_card hS hT hcard
  rw [mem_inter] at hj
  exact ⟨j, hj⟩

end Glaciem
