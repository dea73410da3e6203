import Mathlib.Tactic

/-!
# Glaciem — sums by key

Rows that bear a key and an amount, added up for one key: what an accounting loop leaves in
`total[key]`.

* `sumFor_eq_of_mem` — over rows with distinct keys it is the amount of the key's row.
-/

namespace Glaciem

open List

section KeyedSum

variable {α κ : Type} [DecidableEq κ]

/-- The sum of the amounts of the rows that bear the key `k`. -/
def sumFor (key : α → κ) (amount : α → Int) (rows : List α) (k : κ) : Int :=
  ((rows.filter (fun r => key r = k)).map amount).sum

variable (key : α → κ) (amount : α → Int)

@[simp] theorem sumFor_nil (k : κ) : sumFor key amount [] k = 0 := rfl

theorem sumFor_cons (r : α) (rows : List α) (k : κ) :
    sumFor key amount (r :: rows) k
      = (if key r = k then amount r else 0) + sumFor key amount rows k := by
  unfold sumFor
  by_cases h : key r = k
  · simp [h]
  · simp [h]

@[simp] theorem sumFor_append (a b : List α) (k : κ) :
    sumFor key amount (a ++ b) k = sumFor key amount a k + sumFor key amount b k := by
  simp [sumFor]

variable {rows : List α}

theorem sumFor_eq_zero {k : κ} (h : ∀ r ∈ rows, key r ≠ k) : sumFor key amount rows k = 0 := by
  have hnone : rows.filter (fun r => key r = k) = [] :=
    filter_eq_nil_iff.mpr fun r hr => by simpa using h r hr
  rw [sumFor, hnone]
  rfl

/-- Leaving out rows does not raise a sum of amounts that are not negative. -/
theorem sumFor_filter_le (p : α → Bool) (hpos : ∀ r ∈ rows, 0 ≤ amount r) (k : κ) :
    sumFor key amount (rows.filter p) k ≤ sumFor key amount rows k := by
  induction rows with
  | nil => exact Int.le_refl _
  | cons r rest ih =>
    have hrest := ih (fun r' hr' => hpos r' (mem_cons_of_mem _ hr'))
    have hr := hpos r mem_cons_self
    rw [sumFor_cons, filter_cons]
    split
    · rw [sumFor_cons]
      omega
    · split <;> omega

theorem sumFor_filter_of_ne (p : α → Bool) {r : α} {k : κ} (h : key r ≠ k) (rows : List α) :
    sumFor key amount ((r :: rows).filter p) k = sumFor key amount (rows.filter p) k := by
  rw [filter_cons]
  split
  · rw [sumFor_cons, if_neg h, Int.zero_add]
  · rfl

/-- Two filters that split the rows of a key split its sum. -/
theorem sumFor_filter_add {p q : α → Bool} {k : κ} (h : ∀ r, key r = k → q r = !p r)
    (rows : List α) : sumFor key amount (rows.filter p) k + sumFor key amount (rows.filter q) k
      = sumFor key amount rows k := by
  induction rows with
  | nil => rfl
  | cons r rest ih =>
    rw [sumFor_cons key amount r rest]
    by_cases hr : key r = k
    · have hq := h r hr
      cases hp : p r with
      | false =>
        rw [hp] at hq
        rw [filter_cons_of_neg (by simp [hp]), filter_cons_of_pos hq, sumFor_cons, if_pos hr]
        omega
      | true =>
        rw [hp] at hq
        rw [filter_cons_of_pos hp, filter_cons_of_neg (by simp [hq]), sumFor_cons, if_pos hr]
        omega
    · rw [sumFor_filter_of_ne key amount p hr, sumFor_filter_of_ne key amount q hr, if_neg hr]
      omega

theorem sumFor_mono {a b : α → Int} (h : ∀ r ∈ rows, a r ≤ b r) (k : κ) :
    sumFor key a rows k ≤ sumFor key b rows k := by
  induction rows with
  | nil => exact Int.le_refl _
  | cons r rest ih =>
    have hrest := ih (fun r' hr' => h r' (mem_cons_of_mem _ hr'))
    have hr := h r mem_cons_self
    rw [sumFor_cons, sumFor_cons]
    split <;> omega

theorem sumFor_map {β : Type} (f : β → α) (rows : List β) (k : κ) :
    sumFor key amount (rows.map f) k = sumFor (key ∘ f) (amount ∘ f) rows k := by
  simp [sumFor, filter_map, Function.comp_def]

/-- With distinct keys the sum is the amount of the one row. -/
theorem sumFor_eq_of_mem (hnodup : (rows.map key).Nodup) {r : α} (hr : r ∈ rows) :
    sumFor key amount rows (key r) = amount r := by
  induction rows with
  | nil => exact absurd hr (by simp)
  | cons r₀ rest ih =>
    rw [map_cons, nodup_cons] at hnodup
    rw [sumFor_cons]
    rcases mem_cons.mp hr with rfl | hin
    · have hrest : sumFor key amount rest (key r) = 0 :=
        sumFor_eq_zero key amount fun r' hr' heq =>
          hnodup.1 (heq ▸ mem_map.mpr ⟨r', hr', rfl⟩)
      rw [if_pos rfl, hrest, Int.add_zero]
    · have hne : key r₀ ≠ key r := fun heq =>
        hnodup.1 (heq ▸ mem_map.mpr ⟨r, hin, rfl⟩)
      rw [if_neg hne, ih hnodup.2 hin, Int.zero_add]

end KeyedSum

end Glaciem
