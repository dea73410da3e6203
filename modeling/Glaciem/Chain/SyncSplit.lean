import Mathlib.Tactic

/-!
# Glaciem — finding the split with a short chain history

A node that synchronises sends the ids of its last eleven blocks, of ever sparser ones below, and of
genesis (`get_short_chain_history`). The peer starts from the first of them that it has
(`find_blockchain_supplement`).
-/

namespace Glaciem.Chain

open List

/-- The heights that the loop of `get_short_chain_history` comes to; each round goes further back,
so `sz` rounds are enough. -/
def historyLoop (sz : Nat) : Nat → Nat → Nat → Nat → List Nat
  | 0, _, _, _ => []
  | fuel + 1, i, currentMultiplier, currentBackOffset =>
    if currentBackOffset < sz then
      (sz - currentBackOffset) ::
        if i < 10 then historyLoop sz fuel (i + 1) currentMultiplier (currentBackOffset + 1)
        else historyLoop sz fuel (i + 1) (currentMultiplier * 2)
          (currentBackOffset + currentMultiplier * 2)
    else []

def historyHeights (sz : Nat) : List Nat :=
  let heights := historyLoop sz sz 0 1 1
  if sz = 0 then [] else if 0 ∈ heights then heights else heights ++ [0]

def getShortChainHistory {H : Type} (chain : List H) : List H :=
  (historyHeights chain.length).filterMap (chain[·]?)

def findBlockchainSupplement {H : Type} [DecidableEq H] (chain qblockIds : List H) : Option Nat :=
  if qblockIds = [] ∨ qblockIds.getLast? ≠ chain[0]? then none
  else (qblockIds.find? (· ∈ chain)).map (chain.idxOf ·)

/-! ## The heights of a history -/

/-- The loop in round `i`: ten single steps, then the steps double. -/
def AtRound (i m off : Nat) : Prop :=
  if i < 10 then m = 1 ∧ off = i + 1 else m = 2 ^ (i - 10) ∧ off = 9 + 2 * m

variable {sz fuel i m off c : Nat}

theorem historyLoop_succ (h : AtRound i m off) : ∃ m' off', AtRound (i + 1) m' off'
    ∧ off < off' ∧ (off' = off + 1 ∨ off' + 9 ≤ 2 * off)
    ∧ historyLoop sz (fuel + 1) i m off
      = if off < sz then (sz - off) :: historyLoop sz fuel (i + 1) m' off' else [] := by
  unfold AtRound at h ⊢
  rw [historyLoop]
  by_cases hi : i < 10
  · rw [if_pos hi] at h ⊢
    refine ⟨m, off + 1, ?_, by omega, .inl rfl, rfl⟩
    split_ifs with hlast
    · omega
    · rw [show i + 1 - 10 = 0 by omega]
      omega
  · rw [if_neg hi] at h ⊢
    have hm : 0 < m := h.1 ▸ Nat.two_pow_pos _
    refine ⟨m * 2, off + m * 2, ?_, by omega, .inr (by omega), rfl⟩
    rw [if_neg (by omega), h.1, h.2, h.1, ← Nat.pow_succ, show i + 1 - 10 = (i - 10).succ by omega]
    omega

theorem AtRound.lt_log (h : AtRound i m off) (hlt : off < sz) : i < 11 + Nat.log 2 sz := by
  unfold AtRound at h
  split_ifs at h with hi
  · omega
  · have := Nat.le_log_of_pow_le one_lt_two (h.1 ▸ (by omega : m ≤ sz))
    omega

theorem historyLoop_spec (h : AtRound i m off) :
    (historyLoop sz fuel i m off).Pairwise (· > ·)
      ∧ (∀ k ∈ historyLoop sz fuel i m off, 0 < k ∧ k ≤ sz - off)
      ∧ (historyLoop sz fuel i m off).length ≤ 11 + Nat.log 2 sz - i := by
  induction fuel generalizing i m off with
  | zero => exact ⟨.nil, nofun, Nat.zero_le _⟩
  | succ fuel ih =>
    obtain ⟨m', off', hnext, hmore, -, heq⟩ := historyLoop_succ h
    rw [heq]
    split_ifs with hlt
    · obtain ⟨hsorted, hmem, hlength⟩ := ih hnext
      have hround := h.lt_log hlt
      have hlower : ∀ k ∈ historyLoop sz fuel (i + 1) m' off', 0 < k ∧ k < sz - off := by
        intro k hk
        have := hmem k hk
        omega
      refine ⟨pairwise_cons.mpr ⟨fun k hk => (hlower k hk).2, hsorted⟩, forall_mem_cons.mpr
        ⟨by omega, fun k hk => (hlower k hk).imp_right Nat.le_of_lt⟩, ?_⟩
      rw [length_cons]
      omega
    · exact ⟨.nil, nofun, Nat.zero_le _⟩

/-- The first height at or below `c` is not far below it: an offset is at most nine short of twice
the one before it. -/
theorem find?_historyLoop (hc : c < sz) (hfuel : sz ≤ fuel + i) (h : AtRound i m off)
    (hbefore : sz - c ≤ off → off - (sz - c) ≤ sz - c - 10) :
    ∃ s, (historyLoop sz fuel i m off ++ [0]).find? (· ≤ c) = some s
      ∧ s ≤ c ∧ c - s ≤ sz - c - 10 := by
  induction fuel generalizing i m off with
  | zero =>
    have hreach : i < off := by
      unfold AtRound at h
      have := Nat.lt_two_pow_self (n := i - 10)
      split_ifs at h <;> omega
    exact ⟨0, rfl, Nat.zero_le c, by omega⟩
  | succ fuel ih =>
    obtain ⟨m', off', hnext, hmore, hgrowth, heq⟩ := historyLoop_succ h
    rw [heq]
    split_ifs with hlt
    · by_cases hreach : sz - c ≤ off
      · have := hbefore hreach
        exact ⟨_, find?_cons_of_pos (by simp; omega), by omega, by omega⟩
      · obtain ⟨s, hs, hbound⟩ := ih (by omega) hnext (by omega)
        refine ⟨s, ?_, hbound⟩
        rw [cons_append, find?_cons_of_neg (by simp; omega), hs]
    · have := hbefore (by omega)
      exact ⟨0, rfl, Nat.zero_le c, by omega⟩

/-- Genesis is never met in the loop, and comes last. -/
theorem historyHeights_spec (hsz : 0 < sz) :
    historyHeights sz = historyLoop sz sz 0 1 1 ++ [0] ∧ (historyHeights sz).Pairwise (· > ·)
      ∧ (∀ h ∈ historyHeights sz, h < sz) ∧ (historyHeights sz).length ≤ 12 + Nat.log 2 sz := by
  obtain ⟨hsorted, hmem, hlength⟩ := @historyLoop_spec sz sz 0 1 1 ⟨rfl, rfl⟩
  have heq : historyHeights sz = historyLoop sz sz 0 1 1 ++ [0] := by
    unfold historyHeights
    rw [if_neg hsz.ne', if_neg fun hzero => absurd (hmem 0 hzero).1 (lt_irrefl 0)]
  rw [heq, length_append, forall_mem_append, forall_mem_singleton]
  refine ⟨rfl, pairwise_append.mpr ⟨hsorted, pairwise_singleton _ _, fun h hh z hz => ?_⟩,
    ⟨fun h hh => ?_, hsz⟩, ?_⟩
  · rw [mem_singleton.mp hz]
    exact (hmem h hh).1
  · have := hmem h hh
    omega
  · rw [length_singleton]
    omega

/-! ## The split with another chain -/

section

variable {H : Type} {A B : List H} {parent : H → H}
  (hA : A.IsChain fun a b => a = parent b) (hB : B.IsChain fun a b => a = parent b)
  (hc : c < A.length) (hcommon : B[c]? = A[c]?)

include hA hB hc hcommon

theorem getElem?_of_common {k : Nat} (hk : k ≤ c) : B[k]? = A[k]? := by
  induction c with
  | zero => rwa [Nat.le_zero.mp hk]
  | succ c ih =>
    rcases Nat.le_succ_iff.mp hk with hle | rfl
    · refine ih (Nat.lt_of_succ_lt hc) ?_ hle
      obtain ⟨hlt, heq⟩ := List.getElem?_eq_some_iff.mp (hcommon.trans (getElem?_eq_getElem hc))
      rw [getElem?_eq_getElem (Nat.lt_of_succ_lt hlt), getElem?_eq_getElem (Nat.lt_of_succ_lt hc),
        isChain_iff_getElem.mp hB c hlt, heq, isChain_iff_getElem.mp hA c hc]
    · exact hcommon

/-- Two chains, given by their ids, with their highest common block at height `c`. The peer starts
no further below `c` than `c` is below the tip, less ten. -/
theorem sync_split [DecidableEq H] (hnodup : B.Nodup) (hhighest : ∀ id ∈ A.drop (c + 1), id ∉ B) :
    (∃ s, findBlockchainSupplement B (getShortChainHistory A) = some s ∧ s ≤ c ∧ A[s]? = B[s]?
      ∧ c - s ≤ A.length - c - 10)
    ∧ (∃ heights : List Nat, heights.Pairwise (· > ·) ∧ heights.getLast? = some 0
      ∧ (getShortChainHistory A).map some = heights.map (A[·]?))
    ∧ (getShortChainHistory A).length ≤ 12 + Nat.log 2 A.length := by
  obtain ⟨heights, hsorted, hbelow, hlength⟩ := historyHeights_spec (Nat.zero_lt_of_lt hc)
  have hsame := fun k (hk : k ≤ c) => getElem?_of_common hA hB hc hcommon hk
  -- an id of `A` is known to the peer exactly up to the split
  have hknown : (fun h => (A[h]?).any (· ∈ B)) = fun h => decide (h ≤ c) := by
    funext h
    by_cases hle : h ≤ c
    · have hget := getElem?_eq_getElem (hle.trans_lt hc)
      simpa [hget, hle] using mem_of_getElem? ((hsame h hle).trans hget)
    · cases hid : A[h]? with
      | none => simp [hle]
      | some id =>
        obtain ⟨k, rfl⟩ := Nat.exists_eq_add_of_le (Nat.lt_of_not_le hle)
        rw [← getElem?_drop] at hid
        simpa [hle] using hhighest id (mem_of_getElem? hid)
  refine ⟨?_, ⟨_, hsorted, by rw [heights, getLast?_concat], ?_⟩,
    (length_filterMap_le _ _).trans hlength⟩
  · obtain ⟨s, hs, hle, hbound⟩ := find?_historyLoop hc (Nat.le_refl _)
      (show AtRound 0 1 1 from ⟨rfl, rfl⟩) (by omega)
    have hget := getElem?_eq_getElem (hle.trans_lt hc)
    have hfind : (getShortChainHistory A).find? (· ∈ B) = some A[s] := by
      rw [getShortChainHistory, find?_filterMap, hknown, heights, hs]
      exact hget
    have hlast : (getShortChainHistory A).getLast? = B[0]? := by
      rw [getShortChainHistory, heights, filterMap_append, hsame 0 (Nat.zero_le c)]
      simp [getElem?_eq_getElem (Nat.zero_lt_of_lt hc)]
    obtain ⟨hlt, heq⟩ := List.getElem?_eq_some_iff.mp ((hsame s hle).trans hget)
    refine ⟨s, ?_, hle, (hsame s hle).symm, hbound⟩
    unfold findBlockchainSupplement
    rw [if_neg, hfind, Option.map_some, ← heq, hnodup.idxOf_getElem]
    rintro (hnil | hne)
    · rw [hnil] at hfind
      cases hfind
    · exact hne hlast
  · rw [getShortChainHistory, map_filterMap_some_eq_filter_map_isSome, filter_eq_self]
    intro o ho
    obtain ⟨h, hh, rfl⟩ := mem_map.mp ho
    simp [hbelow h hh]

end

/-- Forty blocks, and a peer with twenty others above the thirteenth. -/
theorem sync_split_sample : ∃ s,
    findBlockchainSupplement (range 13 ++ range' 50 20) (getShortChainHistory (range 40)) = some s
      ∧ s ≤ 12 ∧ (range 40)[s]? = (range 13 ++ range' 50 20)[s]? ∧ 12 - s ≤ 40 - 12 - 10 := by
  let parent (id : Nat) : Nat := if id = 50 then 12 else id - 1
  exact (@sync_split 12 Nat (range 40) (range 13 ++ range' 50 20) parent (by decide) (by decide)
    (by decide) (by decide) _ (by decide) (by decide)).1

end Glaciem.Chain
