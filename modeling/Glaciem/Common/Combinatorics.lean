import Mathlib.Data.Fintype.EquivFin
import Mathlib.Data.List.Sublists
import Mathlib.Data.Nat.Choose.Basic
import Mathlib.GroupTheory.Perm.Support

/-!
# Glaciem — permuting a vector and choosing from one

`apply_permutation` of `common/apply_permutation.h` follows the cycles of a permutation with swaps,
and overwrites each entry it has followed by its own index. A vector of `n` elements is a function
on `Fin n` there. `Combinator` and `combinations_count` of `common/combinator.h` list and count
subsets: those of `sublistsLen`, in the opposite order.
-/

namespace Glaciem.Common

open List Equiv
open Function (Injective update update_of_ne update_self)

variable {α : Type} {n : Nat}

/-! ## Permuting in place -/

/-- The `while` loop that starts at `i`: none when the fuel runs out. -/
def followCycle (i : Fin n) : Nat → Fin n → (Fin n → Fin n) → (Fin n → α) →
    Option ((Fin n → Fin n) × (Fin n → α))
  | 0, _, _, _ => none
  | fuel + 1, current, permutation, v =>
    let next := permutation current
    let marked := update permutation current current
    if i ≠ next then followCycle i fuel next marked (v ∘ swap current next)
    else some (marked, v)

/-- None is the exception of the sanity check. Entries that have passed it are below `n`. -/
def applyPermutation (permutation : Fin n → Nat) (v : Fin n → α) : Option (Fin n → α) :=
  if ∀ m < n, ∃ j, permutation j = m then
    let entries j := ⟨permutation j % n, Nat.mod_lt _ j.pos⟩
    ((finRange n).foldlM (fun s i => followCycle i (n + 1) i s.1 s.2) (entries, v)).map Prod.snd
  else none

section

variable {i current : Fin n} {permutation : Fin n → Fin n} {q : Perm (Fin n)}

/-- `q` is what is left to apply. The element of `i` has been carried to `current`, which the
entries still call `i`. -/
structure Following (i current : Fin n) (permutation : Fin n → Fin n) (q : Perm (Fin n)) :
    Prop where
  entries : ∀ j, permutation j = if q j = current then i else q j
  start : current = i ∨ q i = i

/-- A swap settles `current`, and what was settled stays so. -/
theorem swap_mul_fixed {j : Fin n} (hmoves : q current ≠ current) (hj : q j = j) :
    (swap current (q current) * q) j = j := by
  rw [Perm.mul_apply, hj]
  refine swap_apply_of_ne_of_ne ?_ fun heq => ?_
  · rintro rfl
    exact hmoves hj
  · have hback : q j = q current := hj.trans heq
    exact hmoves (heq.symm.trans (q.injective hback))

theorem Following.step (h : Following i current permutation q) (hne : i ≠ permutation current) :
    q current ≠ current ∧ permutation current = q current ∧
      Following i (q current) (update permutation current current)
        (swap current (q current) * q) := by
  have hmoves : q current ≠ current := by
    intro hfix
    exact hne (by rw [h.entries, if_pos hfix])
  refine ⟨hmoves, by rw [h.entries, if_neg hmoves], fun j => ?_, .inr ?_⟩
  · rcases eq_or_ne j current with rfl | hj
    · simp [hmoves.symm]
    · have hother : q j ≠ q current := fun heq => hj (q.injective heq)
      rw [update_of_ne hj, h.entries, Perm.mul_apply]
      -- only the last entry of the cycle leads to `current`, and it says `i` before and after
      by_cases hlast : q j = current
      · simp [hlast]
      · rw [swap_apply_of_ne_of_ne hlast hother, if_neg hlast, if_neg hother]
  · rcases h.start with rfl | hfix
    · simp
    · exact swap_mul_fixed hmoves hfix

theorem Following.done (h : Following i current permutation q) (heq : i = permutation current) :
    update permutation current current = q ∧ q i = i := by
  have hfix : q current = current := by
    by_contra hmoves
    rw [h.entries, if_neg hmoves] at heq
    rcases h.start with rfl | hstart
    · exact hmoves heq.symm
    · have hback : q i = q current := hstart.trans heq
      exact hmoves (heq.symm.trans (q.injective hback))
  refine ⟨funext fun j => ?_, h.start.elim (fun hi => hi ▸ hfix) id⟩
  rcases eq_or_ne j current with rfl | hj
  · rw [update_self, hfix]
  · have hother : q j ≠ current := fun heq => hj (q.injective (heq.trans hfix.symm))
    rw [update_of_ne hj, h.entries, if_neg hother]

/-- Induction on the fuel: every swap settles a position, and what is left to apply to the vector
stays the same. -/
theorem followCycle_spec {fuel : Nat} (v : Fin n → α) (h : Following i current permutation q)
    (hfuel : q.support.card < fuel) :
    ∃ (q' : Perm (Fin n)) (v' : Fin n → α),
      followCycle i fuel current permutation v = some (⇑q', v') ∧ v' ∘ q' = v ∘ q ∧ q' i = i ∧
        ∀ j, q j = j → q' j = j := by
  induction fuel generalizing current permutation q v with
  | zero => cases hfuel
  | succ fuel ih =>
    unfold followCycle
    dsimp only
    split_ifs with hne
    · obtain ⟨hmoves, hnext, hstep⟩ := h.step hne
      have hless := Perm.card_support_swap_mul hmoves
      rw [hnext]
      obtain ⟨q', v', hrun, hsame, hi, hfixed⟩ :=
        ih (v ∘ swap current (q current)) hstep (by omega)
      refine ⟨q', v', hrun, ?_, hi, fun j hj => hfixed j (swap_mul_fixed hmoves hj)⟩
      -- the swap of the vector and the swap in `q` cancel
      rw [hsame]
      funext j
      simp
    · obtain ⟨hmarked, hi⟩ := h.done (not_not.mp hne)
      exact ⟨q, v, by rw [hmarked], rfl, hi, fun _ hj => hj⟩

end

theorem foldlM_followCycle (is : List (Fin n)) (q : Perm (Fin n)) (v : Fin n → α) :
    ∃ (q' : Perm (Fin n)) (v' : Fin n → α),
      is.foldlM (fun s i => followCycle i (n + 1) i s.1 s.2) (⇑q, v) = some (⇑q', v') ∧
        v' ∘ q' = v ∘ q ∧ (∀ i ∈ is, q' i = i) ∧ ∀ j, q j = j → q' j = j := by
  induction is generalizing q v with
  | nil => exact ⟨q, v, rfl, rfl, by simp, fun _ hj => hj⟩
  | cons i is ih =>
    have hstart : Following i i q q := ⟨fun j => by split_ifs with h <;> simp [h], .inl rfl⟩
    have hcard : q.support.card < n + 1 :=
      Nat.lt_succ_of_le ((Finset.card_le_univ _).trans_eq (Fintype.card_fin n))
    obtain ⟨q₁, v₁, hrun, hsame, hi, hfixed⟩ := followCycle_spec v hstart hcard
    obtain ⟨q', v', hrest, hsame', his, hfixed'⟩ := ih q₁ v₁
    refine ⟨q', v', ?_, hsame'.trans hsame, ?_, fun j hj => hfixed' j (hfixed j hj)⟩
    · rw [foldlM_cons, hrun]
      exact hrest
    · rw [forall_mem_cons]
      exact ⟨hfixed' i hi, his⟩

/-- The vector is permuted, and anything that is no permutation is refused. -/
theorem apply_permutation_spec (permutation : Fin n → Nat) (v : Fin n → α) :
    (applyPermutation permutation v ≠ none ↔ ∃ q : Perm (Fin n), ∀ i, permutation i = q i) ∧
      ∀ q : Perm (Fin n), (∀ i, permutation i = q i) →
        applyPermutation permutation v = some fun i => v (q i) := by
  have happly : ∀ q : Perm (Fin n), (∀ i, permutation i = q i) →
      applyPermutation permutation v = some fun i => v (q i) := by
    intro q hq
    have hcheck : ∀ m < n, ∃ j, permutation j = m :=
      fun m hm => ⟨q.symm ⟨m, hm⟩, by rw [hq, apply_symm_apply]⟩
    have hentries : (fun j => ⟨permutation j % n, Nat.mod_lt _ j.pos⟩ : Fin n → Fin n) = q :=
      funext fun j => Fin.ext (by rw [hq]; exact Nat.mod_eq_of_lt (q j).isLt)
    obtain ⟨q', v', hrun, hsame, hall, -⟩ := foldlM_followCycle (finRange n) q v
    have hdone : q' = 1 := Perm.ext fun i => hall i (mem_finRange i)
    rw [hdone] at hsame
    rw [applyPermutation, if_pos hcheck]
    dsimp only
    rw [hentries, hrun]
    exact congrArg some hsame
  refine ⟨⟨fun hne => ?_, fun ⟨q, hq⟩ => by simp [happly q hq]⟩, happly⟩
  have hcheck : ∀ m < n, ∃ j, permutation j = m := by
    by_contra hbad
    exact hne (if_neg hbad)
  -- every index has a place, so the places are distinct and the entries are all below `n`
  choose place hplace using fun m : Fin n => hcheck m m.isLt
  have hinj : Injective place := fun a b hab => Fin.ext (by rw [← hplace a, hab, hplace b])
  let q := (ofBijective place (Finite.injective_iff_bijective.mp hinj)).symm
  refine ⟨q, fun i => ?_⟩
  rw [← hplace (q i)]
  exact congrArg permutation (q.symm_apply_apply i).symm

/-! ## Subsets of one size -/

section

variable (n) (origin : Nat → α)

/-- `current` is the positions chosen so far, `combinations` the result so far. -/
def doCombine : (k start : Nat) → List Nat → List (List α) → List (List α)
  | 0, _, _, combinations => combinations
  | k + 1, start, current, combinations =>
    (range' start (n - k - start)).foldl (fun combinations i =>
      if k + 1 > 1 then doCombine k (i + 1) (current ++ [i]) combinations
      else combinations ++ [(current ++ [i]).map origin]) combinations

def combine (k : Nat) : Option (List (List α)) :=
  if k > n ∨ k = 0 then none else some (doCombine n origin k 0 [] [])

/-- The product so far, and the `n` that the loop counts down. -/
def countStep (s : UInt64 × UInt32) (i : Nat) : UInt64 × UInt32 :=
  (s.1 * s.2.toUInt64 / UInt64.ofNat (i + 1), s.2 - 1)

def combinationsCount (k n : UInt32) : Option UInt64 :=
  if k > n then none else some ((range k.toNat).foldl countStep (1, n)).1

def choices (k start : Nat) : List (List Nat) :=
  (sublistsLen k (range' start (n - start))).reverse

theorem foldl_choices {f : List Nat → List α} {k : Nat} {add : List (List α) → Nat → List (List α)}
    (hadd : ∀ acc i, add acc i = acc ++ (choices n k (i + 1)).map fun c => f (i :: c))
    (start : Nat) (acc : List (List α)) :
    (range' start (n - k - start)).foldl add acc = acc ++ (choices n (k + 1) start).map f := by
  obtain ⟨m, hm⟩ : ∃ m, n - k - start = m := ⟨_, rfl⟩
  rw [hm]
  induction m generalizing start acc with
  | zero =>
    have hshort : (range' start (n - start)).length < k + 1 := by
      rw [length_range']
      omega
    simp [choices, sublistsLen_of_length_lt hshort]
  | succ m ih =>
    have hfirst : n - start = n - (start + 1) + 1 := by omega
    rw [range'_succ, foldl_cons, ih _ _ (by omega), hadd, append_assoc]
    simp [choices, hfirst, range'_succ, Function.comp_def]

theorem doCombine_eq (k start : Nat) (current : List Nat) (acc : List (List α)) :
    doCombine n origin (k + 1) start current acc
      = acc ++ (choices n (k + 1) start).map fun c => (current ++ c).map origin := by
  induction k generalizing start current acc with
  | zero => exact foldl_choices n (fun acc i => by simp [choices]) start acc
  | succ k ih => exact foldl_choices n (fun acc i => by simp [ih]) start acc

theorem sublistsLen_map (k : Nat) (l : List Nat) :
    sublistsLen k (l.map origin) = (sublistsLen k l).map (map origin) := by
  induction l generalizing k with
  | nil => cases k <;> simp
  | cons a l ih => cases k <;> simp [ih, Function.comp_def]

end

theorem pairwise_sublistsLen {l : List Nat} (h : l.Pairwise (· < ·)) (k : Nat) :
    (sublistsLen k l).reverse.Pairwise (· < ·) := by
  induction l generalizing k with
  | nil => cases k <;> simp
  | cons a l ih =>
    obtain ⟨ha, hl⟩ := pairwise_cons.mp h
    cases k with
    | zero => simp
    | succ k =>
      rw [sublistsLen_succ_cons, reverse_append, ← map_reverse, pairwise_append, pairwise_map]
      -- a choice that begins with `a` comes before those that begin further on
      refine ⟨(ih hl k).imp fun hlt => Lex.cons hlt, ih hl (k + 1), fun c hc d hd => ?_⟩
      obtain ⟨c', -, rfl⟩ := mem_map.mp hc
      obtain ⟨hsub, hlen⟩ := mem_sublistsLen.mp (mem_reverse.mp hd)
      obtain ⟨b, d', rfl⟩ := exists_cons_of_length_eq_add_one hlen
      exact Lex.rel (ha b (hsub.subset mem_cons_self))

theorem foldl_countStep {n : UInt32} {k : Nat} (hk : k ≤ n.toNat)
    (hfit : ∀ i < k, n.toNat.choose i * (n.toNat - i) < 2 ^ 64) :
    ((range k).foldl countStep (1, n)).1.toNat = n.toNat.choose k
      ∧ ((range k).foldl countStep (1, n)).2.toNat = n.toNat - k := by
  induction k with
  | zero => simp
  | succ k ih =>
    obtain ⟨hcount, hleft⟩ := ih (by omega) fun i hi => hfit i (by omega)
    have hn := n.toNat_lt
    have hdivisor : (UInt64.ofNat (k + 1)).toNat = k + 1 :=
      UInt64.toNat_ofNat_of_lt' (show k + 1 < 2 ^ 64 by omega)
    have hone : (1 : UInt32) ≤ ((range k).foldl countStep (1, n)).2 := by
      rw [UInt32.le_iff_toNat_le, hleft]
      exact Nat.le_sub_of_add_le' hk
    rw [range_succ, foldl_append]
    simp only [foldl_cons, foldl_nil, countStep]
    rw [UInt64.toNat_div, UInt64.toNat_mul, UInt32.toNat_toUInt64, hcount, hleft, hdivisor,
      Nat.mod_eq_of_lt (hfit k k.lt_succ_self), ← Nat.choose_succ_right_eq,
      UInt32.toNat_sub_of_le _ _ hone, hleft]
    exact ⟨Nat.mul_div_cancel _ k.succ_pos, Nat.sub_sub _ _ _⟩

/-- The arguments of `combinations_count` are `uint32_t`. -/
theorem combinationsCount_eq {k : Nat} (hk : k ≤ n) (hn : n < 2 ^ 32)
    (hfit : ∀ i < k, n.choose i * (n - i) < 2 ^ 64) :
    combinationsCount (.ofNat k) (.ofNat n) = some (.ofNat (n.choose k)) := by
  have htoNat : (UInt32.ofNat n).toNat = n := UInt32.toNat_ofNat_of_lt' hn
  have hk' : (UInt32.ofNat k).toNat = k := UInt32.toNat_ofNat_of_lt' (hk.trans_lt hn)
  have hle : ¬ UInt32.ofNat k > UInt32.ofNat n := by
    rw [gt_iff_lt, UInt32.lt_iff_toNat_lt, htoNat, hk']
    omega
  rw [combinationsCount, if_neg hle, hk',
    ← UInt64.ofNat_toNat (x := ((range k).foldl countStep (1, .ofNat n)).1),
    (foldl_countStep (by rwa [htoNat]) (by rwa [htoNat])).1, htoNat]

/-- Every subset of `k` items is returned once, in lexicographic order of the positions. -/
theorem combine_spec {k : Nat} {origin : Nat → α} (hk : 1 ≤ k) (hkn : k ≤ n)
    (hdistinct : ((range n).map origin).Nodup) :
    ∃ places : List (List Nat), combine n origin k = some (places.map (map origin)) ∧
      (∀ c, c ∈ places.map (map origin) ↔ c <+ (range n).map origin ∧ c.length = k) ∧
      (places.map (map origin)).Nodup ∧
      (∀ p ∈ places, p <+ range n) ∧ places.Pairwise (· < ·) ∧ places.length = n.choose k ∧
      (n < 2 ^ 32 → (∀ i < k, n.choose i * (n - i) < 2 ^ 64) →
        combinationsCount (.ofNat k) (.ofNat n) = some (.ofNat (n.choose k))) := by
  obtain ⟨k, rfl⟩ := Nat.exists_eq_add_of_le' hk
  have hrun : combine n origin (k + 1) = some ((choices n (k + 1) 0).map (map origin)) := by
    rw [combine, if_neg (by omega), doCombine_eq]
    rfl
  have hplaces : choices n (k + 1) 0 = (sublistsLen (k + 1) (range n)).reverse := by
    rw [choices, Nat.sub_zero, range_eq_range']
  rw [hplaces] at hrun
  refine ⟨_, hrun, fun c => ?_, ?_, fun p hp => ?_, pairwise_sublistsLen pairwise_lt_range _, ?_,
    combinationsCount_eq hkn⟩
  · rw [map_reverse, ← sublistsLen_map, mem_reverse, mem_sublistsLen]
  · rw [map_reverse, ← sublistsLen_map, nodup_reverse]
    exact nodup_sublistsLen _ hdistinct
  · exact (mem_sublistsLen.mp (mem_reverse.mp hp)).1
  · rw [length_reverse, length_sublistsLen, length_range]

theorem combine_spec_pairs : ∃ places : List (List Nat),
    combine 3 (· + 10) 2 = some (places.map (map (· + 10))) ∧ places.Pairwise (· < ·) := by
  obtain ⟨places, hrun, -, -, -, hlex, -⟩ :=
    combine_spec (show 1 ≤ 2 by decide) (show 2 ≤ 3 by decide)
      (show ((range 3).map (· + 10)).Nodup by decide)
  exact ⟨places, hrun, hlex⟩

end Glaciem.Common
