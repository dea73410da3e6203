import Mathlib.Data.List.DropRight
import Mathlib.Data.List.Sort
import Mathlib.Tactic

/-!
# Glaciem — windows at the end of a list, and the median

The last `n` elements of a list are `List.rtake n`. A window may be read off in one piece, be
spliced from the ends of two lists, or be shifted by one element; it is the same window.

* `orderStat_le_iff` — the elements of the sorted list by counting: smaller elements, or one more
  that is 0, do not give a greater median.
-/

namespace Glaciem

open List

section Windows

variable {α : Type}

theorem rtake_eq_drop (l : List α) (n : Nat) : l.rtake n = l.drop (l.length - n) := rfl

theorem length_rtake (l : List α) (n : Nat) : (l.rtake n).length = min n l.length := by
  rw [rtake_eq_drop, length_drop]
  omega

theorem rtake_of_length_le {l : List α} {n : Nat} (h : l.length ≤ n) : l.rtake n = l := by
  rw [rtake_eq_drop, Nat.sub_eq_zero_of_le h, drop_zero]

theorem rtake_min_length (l : List α) (n : Nat) : l.rtake (min n l.length) = l.rtake n := by
  rw [rtake_eq_drop, rtake_eq_drop]
  congr 1
  omega

theorem take_drop_eq_rtake {l : List α} {n : Nat} (h : n ≤ l.length) :
    (l.drop (l.length - n)).take n = l.rtake n := by
  rw [take_of_length_le (by rw [length_drop]; omega), rtake_eq_drop]

theorem rtake_append_of_le (l r : List α) {n : Nat} (h : r.length ≤ n) :
    (l ++ r).rtake n = l.rtake (n - r.length) ++ r := by
  rw [rtake_eq_drop, rtake_eq_drop, length_append, drop_append_of_le_length (by omega)]
  congr 2
  omega

theorem rtake_append_of_ge (l r : List α) {n : Nat} (h : n ≤ r.length) :
    (l ++ r).rtake n = r.rtake n := by
  rw [rtake_eq_drop, rtake_eq_drop, length_append, Nat.add_sub_assoc h, drop_append,
    drop_eq_nil_of_le (Nat.le_add_right _ _), Nat.add_sub_cancel_left, nil_append]

theorem rtake_concat (l : List α) (x : α) (n : Nat) :
    (l ++ [x]).rtake n = (l.rtake n ++ [x]).rtake n := by
  cases n with
  | zero => simp [rtake_eq_drop]
  | succ n =>
    have hone : [x].length ≤ n + 1 := by simp
    rw [rtake_append_of_le l [x] hone, rtake_append_of_le (l.rtake (n + 1)) [x] hone]
    congr 1
    rw [rtake_eq_drop, rtake_eq_drop, rtake_eq_drop, drop_drop, length_drop]
    congr 1
    omega

theorem rtake_append (l r : List α) (n : Nat) : (l.rtake n ++ r).rtake n = (l ++ r).rtake n := by
  induction r using reverseRecOn with
  | nil =>
    rw [append_nil, append_nil]
    exact rtake_of_length_le ((length_rtake l n).trans_le (Nat.min_le_left _ _))
  | append_singleton r x ih =>
    rw [← append_assoc, ← append_assoc, rtake_concat, ih, ← rtake_concat]

end Windows

section Median

/-- `epee::misc_utils::median`: the middle element of the sorted list, or the mean of the two
middle ones, rounded down; 0 for the empty list. -/
def median (v : List Nat) : Nat :=
  let sorted := v.insertionSort (· ≤ ·)
  let n := v.length / 2
  if v.length % 2 = 1 then sorted.getD n 0
  else (sorted.getD (n - 1) 0 + sorted.getD n 0) / 2

theorem insertionSort_eq_of_perm {α : Type} {f : α → Nat} (hf : Function.Injective f)
    {v w : List α} (h : v.Perm w) :
    (v.insertionSort fun a b => f a ≤ f b) = w.insertionSort fun a b => f a ≤ f b := by
  refine Perm.eq_of_pairwise (fun a b _ _ hab hba => hf (le_antisymm hab hba))
    (pairwise_insertionSort _ v) (pairwise_insertionSort _ w) ?_
  exact ((perm_insertionSort _ v).trans h).trans (perm_insertionSort _ w).symm

theorem median_perm {v w : List Nat} (h : v.Perm w) : median v = median w := by
  have hsorted : v.insertionSort (· ≤ ·) = w.insertionSort (· ≤ ·) :=
    insertionSort_eq_of_perm Function.injective_id h
  rw [median, median, hsorted, h.length_eq]

example : median [7, 1, 3] = 3 ∧ median [4, 1, 9, 2] = 3 := by decide

def orderStat (l : List Nat) (i : Nat) : Nat := (l.insertionSort (· ≤ ·)).getD i 0

theorem getD_le_iff_of_sorted {l : List Nat} (h : l.Pairwise (· ≤ ·)) {i : Nat} (hi : i < l.length)
    (x : Nat) : l.getD i 0 ≤ x ↔ i < l.countP (· ≤ x) := by
  induction l generalizing i with
  | nil => exact absurd hi (Nat.not_lt_zero i)
  | cons a t ih =>
    obtain ⟨hfirst, ht⟩ := pairwise_cons.mp h
    by_cases ha : a ≤ x
    · rw [countP_cons_of_pos (by simpa using ha)]
      cases i with
      | zero => simpa using ha
      | succ i =>
        rw [getD_cons_succ, ih ht (Nat.lt_of_succ_lt_succ hi), Nat.succ_lt_succ_iff]
    · -- no element is as small as x
      have hnone : (a :: t).countP (· ≤ x) = 0 := by
        rw [countP_eq_zero]
        intro y hy
        rcases mem_cons.mp hy with rfl | hy
        · simpa using ha
        · have := hfirst y hy
          simp only [decide_eq_true_eq]
          omega
      have hmem : (a :: t).getD i 0 ∈ a :: t := by
        rw [getD_eq_getElem?_getD, getElem?_eq_getElem hi]
        exact getElem_mem hi
      have hge : a ≤ (a :: t).getD i 0 := by
        rcases mem_cons.mp hmem with heq | ht'
        · exact heq.ge
        · exact hfirst _ ht'
      rw [hnone]
      omega

theorem orderStat_le_iff {l : List Nat} {i : Nat} (hi : i < l.length) (x : Nat) :
    orderStat l i ≤ x ↔ i < l.countP (· ≤ x) := by
  have hperm := perm_insertionSort (· ≤ ·) l
  rw [orderStat, getD_le_iff_of_sorted (pairwise_insertionSort _ _)
    (by rwa [length_insertionSort]), hperm.countP_eq]

theorem orderStat_mono {l : List Nat} {i j : Nat} (hij : i ≤ j) (hj : j < l.length) :
    orderStat l i ≤ orderStat l j := by
  rw [orderStat_le_iff (by omega)]
  exact lt_of_le_of_lt hij ((orderStat_le_iff hj _).mp le_rfl)

theorem median_eq_orderStat (l : List Nat) : median l
    = if l.length % 2 = 1 then orderStat l (l.length / 2)
      else (orderStat l (l.length / 2 - 1) + orderStat l (l.length / 2)) / 2 := rfl

theorem median_le_of_forall₂ {l m : List Nat} (h : Forall₂ (· ≤ ·) l m) :
    median l ≤ median m := by
  have hlength := h.length_eq
  have hcount : ∀ x, m.countP (· ≤ x) ≤ l.countP (· ≤ x) := by
    intro x
    induction h with
    | nil => exact le_rfl
    | cons hab _ ih =>
      rw [countP_cons, countP_cons]
      have := ih (by simpa using hlength)
      simp only [decide_eq_true_eq]
      split <;> split <;> omega
  have hstat : ∀ i < l.length, orderStat l i ≤ orderStat m i := by
    intro i hi
    rw [orderStat_le_iff hi]
    exact lt_of_lt_of_le ((orderStat_le_iff (hlength ▸ hi) _).mp le_rfl) (hcount _)
  rcases Nat.eq_zero_or_pos l.length with hnil | hpos
  · rw [eq_nil_of_length_eq_zero hnil]
    exact Nat.zero_le _
  · have hlow := hstat (l.length / 2 - 1) (by omega)
    have hhigh := hstat (l.length / 2) (by omega)
    rw [median_eq_orderStat, median_eq_orderStat, ← hlength]
    split
    · exact hhigh
    · exact Nat.div_le_div_right (add_le_add hlow hhigh)

theorem median_cons_zero_le (l : List Nat) : median (0 :: l) ≤ median l := by
  have hstat : ∀ i < l.length, orderStat (0 :: l) (i + 1) ≤ orderStat l i := by
    intro i hi
    rw [orderStat_le_iff (Nat.succ_lt_succ hi), countP_cons_of_pos (by simp)]
    exact Nat.succ_lt_succ ((orderStat_le_iff hi _).mp le_rfl)
  rcases Nat.eq_zero_or_pos l.length with hnil | hpos
  · rw [eq_nil_of_length_eq_zero hnil]
    decide
  · rw [median_eq_orderStat, median_eq_orderStat, length_cons]
    by_cases hodd : l.length % 2 = 1
    · -- the lower middle element is at most the upper one, which moved down by one place
      have hupper := hstat (l.length / 2) (by omega)
      have hlower : orderStat (0 :: l) (l.length / 2) ≤ orderStat (0 :: l) (l.length / 2 + 1) :=
        orderStat_mono (Nat.le_succ _) (by rw [length_cons]; omega)
      rw [if_pos hodd, if_neg (by omega), show (l.length + 1) / 2 = l.length / 2 + 1 by omega,
        Nat.add_sub_cancel]
      omega
    · have hupper := hstat (l.length / 2 - 1) (by omega)
      have hmono : orderStat l (l.length / 2 - 1) ≤ orderStat l (l.length / 2) :=
        orderStat_mono (Nat.sub_le _ _) (by omega)
      rw [Nat.sub_add_cancel (by omega)] at hupper
      rw [if_neg hodd, if_pos (by omega), show (l.length + 1) / 2 = l.length / 2 by omega]
      omega

theorem median_concat_zero_le (l : List Nat) (n : Nat) :
    median ((l ++ [0]).rtake n) ≤ median (l.rtake n) := by
  rcases lt_or_ge l.length n with hgrow | hfull
  · rw [rtake_of_length_le (by rw [length_append, length_singleton]; omega),
      rtake_of_length_le hgrow.le, median_perm (perm_append_singleton 0 l)]
    exact median_cons_zero_le l
  · cases n with
    | zero =>
      have hnil : ∀ m : List Nat, m.rtake 0 = [] := fun m => by
        rw [rtake_eq_drop, Nat.sub_zero, drop_length]
      rw [hnil, hnil]
    | succ n =>
      -- the oldest element is replaced by the zero
      have hold : ∃ x, l.rtake (n + 1) = x :: l.rtake n := by
        have hlt : l.length - (n + 1) < l.length := by omega
        refine ⟨l[l.length - (n + 1)], ?_⟩
        rw [rtake_eq_drop, rtake_eq_drop, drop_eq_getElem_cons hlt]
        congr 2
        omega
      obtain ⟨x, hx⟩ := hold
      have hnew : (l ++ [0]).rtake (n + 1) = l.rtake n ++ [0] := by
        rw [rtake_append_of_le l [0] (by simp)]
        rfl
      rw [hx, hnew, median_perm (perm_append_singleton 0 _)]
      exact median_le_of_forall₂ (.cons (Nat.zero_le x) (forall₂_refl _))

theorem median_zeros_le (l new : List Nat) (n : Nat) {count : Nat} (h : new.length ≤ count) :
    median ((l ++ replicate count 0).rtake n) ≤ median ((l ++ new).rtake n) := by
  have hmore : ∀ (m : List Nat) (k : Nat),
      median ((m ++ replicate k 0).rtake n) ≤ median (m.rtake n) := by
    intro m k
    induction k with
    | zero => rw [replicate_zero, append_nil]
    | succ k ih =>
      rw [replicate_succ', ← append_assoc]
      exact (median_concat_zero_le _ n).trans ih
  have hsplit : replicate count 0
      = replicate new.length 0 ++ replicate (count - new.length) 0 := by
    rw [replicate_append_replicate, Nat.add_sub_cancel' h]
  have hzeros : ∀ m : List Nat, Forall₂ (· ≤ ·) (replicate m.length 0) m := by
    intro m
    induction m with
    | nil => exact .nil
    | cons x m ih => exact .cons (Nat.zero_le x) ih
  refine (?_ : _ ≤ _).trans (hmore (l ++ new) (count - new.length))
  rw [hsplit, ← append_assoc]
  have hall : Forall₂ (· ≤ ·)
      (l ++ replicate new.length 0 ++ replicate (count - new.length) 0)
      (l ++ new ++ replicate (count - new.length) 0) :=
    rel_append (rel_append (forall₂_refl l) (hzeros new)) (forall₂_refl _)
  refine median_le_of_forall₂ ?_
  rw [rtake_eq_drop, rtake_eq_drop, hall.length_eq]
  exact forall₂_drop _ hall

end Median

end Glaciem
