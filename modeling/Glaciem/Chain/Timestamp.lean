import Glaciem.Lib.Window

/-!
# Glaciem — the timestamp rules

The two overloads of `check_block_timestamp` in `blockchain.cpp`: on the main chain the timestamp
of a new block is bounded by the clock, by the launch of the network, and from
`BLOCKCHAIN_TIMESTAMP_CHECK_WINDOW` blocks on by the median of the last ones; for an alternative
block only a median is looked at, of the timestamps `build_alt_chain` and
`complete_timestamps_vector` collect.
-/

namespace Glaciem.Chain

open List

def BLOCKCHAIN_TIMESTAMP_CHECK_WINDOW : Nat := 60
def CRYPTONOTE_BLOCK_FUTURE_TIME_LIMIT : Nat := 60 * 60 * 2
def GLACIEM_LAUNCH_TIMESTAMP : Nat := 1779249600

def futureLimit (now : Nat) : Nat := (now + CRYPTONOTE_BLOCK_FUTURE_TIME_LIMIT) % 2 ^ 64

def checkTimestampVector (timestamps : List Nat) (ts : Nat) : Bool :=
  if ts < median timestamps then false else true

variable (chain : List Nat)

def checkBlockTimestamp (now ts : Nat) : Bool :=
  if ts > futureLimit now then false
  else if chain.length ≥ 1 ∧ ts < GLACIEM_LAUNCH_TIMESTAMP then false
  else if chain.length < BLOCKCHAIN_TIMESTAMP_CHECK_WINDOW then true
  else
    checkTimestampVector (chain.drop (chain.length - BLOCKCHAIN_TIMESTAMP_CHECK_WINDOW)) ts

/-- Add timestamps of the main chain, from a height downwards. The callers ignore that it fails when
the height is not on the chain. -/
def completeTimestampsVector (main : List Nat) (startTopHeight : Nat) (timestamps : List Nat) :
    List Nat :=
  if timestamps.length ≥ BLOCKCHAIN_TIMESTAMP_CHECK_WINDOW then timestamps
  else if startTopHeight ≥ main.length then timestamps
  else
    let needElements := BLOCKCHAIN_TIMESTAMP_CHECK_WINDOW - timestamps.length
    let stopOffset := if startTopHeight > needElements then startTopHeight - needElements else 0
    timestamps ++ ((main.take (startTopHeight + 1)).drop (stopOffset + 1)).reverse

/-- The vector `build_alt_chain` collects for a block on an alternative chain that stands on the
first `fork` blocks: its own timestamps, newest first, then the main chain's. -/
def collectTimestamps (main alt : List Nat) (fork : Nat) : List Nat :=
  completeTimestampsVector main (fork - 1) alt.reverse

/-! ## What is collected -/

/-- For a chain that ends in `n` alternative blocks: all of these when they fill the window, else
the last blocks without genesis. -/
def comparedWith (n : Nat) : List Nat :=
  if n ≥ BLOCKCHAIN_TIMESTAMP_CHECK_WINDOW then chain.rtake n
  else chain.tail.rtake BLOCKCHAIN_TIMESTAMP_CHECK_WINDOW

theorem collected_perm (main alt : List Nat) {fork : Nat} (hpos : 0 < fork)
    (hfork : fork ≤ main.length) :
    (collectTimestamps main alt fork).Perm (comparedWith (main.take fork ++ alt) alt.length) := by
  unfold collectTimestamps completeTimestampsVector comparedWith
  rw [length_reverse]
  split
  · rw [rtake_append_of_ge _ _ le_rfl, rtake_of_length_le le_rfl]
    exact reverse_perm alt
  rename_i hshort
  rw [if_neg (by omega : ¬ fork - 1 ≥ main.length)]
  have hlen : (main.take fork).length = fork := by rw [length_take, min_eq_left hfork]
  have hne : main.take fork ≠ [] := ne_nil_of_length_pos (by omega)
  have hstop : (if fork - 1 > BLOCKCHAIN_TIMESTAMP_CHECK_WINDOW - alt.length
      then fork - 1 - (BLOCKCHAIN_TIMESTAMP_CHECK_WINDOW - alt.length) else 0)
      = fork - 1 - (BLOCKCHAIN_TIMESTAMP_CHECK_WINDOW - alt.length) := by
    split <;> omega
  -- the part of the main chain is the end of its first `fork` blocks, read backwards
  have hmain : (main.take (fork - 1 + 1)).drop
        (fork - 1 - (BLOCKCHAIN_TIMESTAMP_CHECK_WINDOW - alt.length) + 1)
      = (main.take fork).tail.rtake (BLOCKCHAIN_TIMESTAMP_CHECK_WINDOW - alt.length) := by
    rw [rtake_eq_drop, length_tail, hlen, ← drop_one, drop_drop,
      Nat.sub_add_cancel hpos, add_comm]
  rw [tail_append_of_ne_nil hne, rtake_append_of_le _ _ (by omega)]
  dsimp only
  rw [hstop, hmain]
  exact ((reverse_perm _).append (reverse_perm _)).trans perm_append_comm

theorem checkTimestampVector_iff (timestamps : List Nat) (ts : Nat) :
    checkTimestampVector timestamps ts = true ↔ median timestamps ≤ ts := by
  unfold checkTimestampVector
  split
  · rename_i hlt
    simpa using hlt
  · rename_i hnot
    simpa using hnot

theorem alternative_check_iff (main alt : List Nat) {fork : Nat} (ts : Nat) (hpos : 0 < fork)
    (hfork : fork ≤ main.length) :
    checkTimestampVector (collectTimestamps main alt fork) ts = true
      ↔ median (comparedWith (main.take fork ++ alt) alt.length) ≤ ts := by
  rw [checkTimestampVector_iff, median_perm (collected_perm main alt hpos hfork)]

def WithinClock (now ts : Nat) : Prop := GLACIEM_LAUNCH_TIMESTAMP ≤ ts ∧ ts ≤ futureLimit now

instance (now ts : Nat) : Decidable (WithinClock now ts) := inferInstanceAs (Decidable (_ ∧ _))

def mainMedian : Nat :=
  if chain.length < BLOCKCHAIN_TIMESTAMP_CHECK_WINDOW then 0
  else median (chain.rtake BLOCKCHAIN_TIMESTAMP_CHECK_WINDOW)

def NotBefore (ts : Nat) : Prop :=
  (chain ≠ [] → GLACIEM_LAUNCH_TIMESTAMP ≤ ts) ∧ mainMedian chain ≤ ts

theorem checkBlockTimestamp_iff_notBefore (now ts : Nat) :
    checkBlockTimestamp chain now ts = true ↔ ts ≤ futureLimit now ∧ NotBefore chain ts := by
  unfold checkBlockTimestamp NotBefore mainMedian
  rw [← length_pos_iff]
  split
  · simp only [Bool.false_eq_true, false_iff]
    omega
  split
  · simp only [Bool.false_eq_true, false_iff]
    omega
  split
  · simp only [true_iff]
    omega
  · rw [checkTimestampVector_iff, ← rtake_eq_drop]
    omega

theorem checkBlockTimestamp_iff {chain : List Nat} (hchain : chain ≠ []) (now ts : Nat) :
    checkBlockTimestamp chain now ts = true ↔ WithinClock now ts ∧ mainMedian chain ≤ ts := by
  rw [checkBlockTimestamp_iff_notBefore]
  constructor
  · rintro ⟨hclock, hlaunch, hmedian⟩
    exact ⟨⟨hlaunch hchain, hclock⟩, hmedian⟩
  · rintro ⟨⟨hlaunch, hclock⟩, hmedian⟩
    exact ⟨hclock, fun _ => hlaunch, hmedian⟩

/-! ## Where the two rules agree -/

/-- With more than a window of blocks, and at most a window of alternative ones, both rules take the
same median. -/
def RulesAgree (n now ts : Nat) : Prop :=
  if n ≤ BLOCKCHAIN_TIMESTAMP_CHECK_WINDOW ∧ BLOCKCHAIN_TIMESTAMP_CHECK_WINDOW < chain.length then
    ts < median (chain.rtake BLOCKCHAIN_TIMESTAMP_CHECK_WINDOW) ∨ WithinClock now ts
  else if ts < median (comparedWith chain n) then
    ¬ WithinClock now ts ∨ ts < mainMedian chain
  else WithinClock now ts ∧ mainMedian chain ≤ ts

theorem comparedWith_eq_rtake {chain : List Nat} {n : Nat}
    (hn : n ≤ BLOCKCHAIN_TIMESTAMP_CHECK_WINDOW)
    (hlong : BLOCKCHAIN_TIMESTAMP_CHECK_WINDOW < chain.length) :
    comparedWith chain n = chain.rtake BLOCKCHAIN_TIMESTAMP_CHECK_WINDOW := by
  unfold comparedWith
  split
  · rename_i hge
    rw [le_antisymm hn hge]
  · rw [rtake_eq_drop, rtake_eq_drop, length_tail, ← drop_one, drop_drop]
    congr 1
    omega

/-- For every chain and every split into main and alternative part, both rules decide alike about
a timestamp exactly when it meets `RulesAgree`. -/
theorem alternative_check_agrees_iff (main alt : List Nat) (fork now ts : Nat) (hpos : 0 < fork)
    (hfork : fork ≤ main.length) :
    checkTimestampVector (collectTimestamps main alt fork) ts
        = checkBlockTimestamp (main.take fork ++ alt) now ts
      ↔ RulesAgree (main.take fork ++ alt) alt.length now ts := by
  have hchain : main.take fork ++ alt ≠ [] := by
    refine ne_nil_of_length_pos ?_
    rw [length_append, length_take]
    omega
  rw [Bool.eq_iff_iff, alternative_check_iff main alt ts hpos hfork, checkBlockTimestamp_iff hchain]
  unfold RulesAgree
  split
  · rename_i hsame
    have hmedian : mainMedian (main.take fork ++ alt)
        = median ((main.take fork ++ alt).rtake BLOCKCHAIN_TIMESTAMP_CHECK_WINDOW) :=
      if_neg (by omega)
    rw [comparedWith_eq_rtake hsame.1 hsame.2, hmedian, ← not_lt]
    tauto
  · split
    · rename_i hbelow
      rw [← not_lt, ← not_lt]
      tauto
    · rename_i hnot
      rw [← not_lt]
      tauto

def afterLaunch (seconds : Nat) : Nat := GLACIEM_LAUNCH_TIMESTAMP + seconds

def evenChain (n : Nat) : List Nat := (List.range n).map fun i => afterLaunch (120 * i)

theorem alternative_check_agrees_on_time :
    let alt := [afterLaunch 7900, afterLaunch 8000, afterLaunch 8100]
    let ts := afterLaunch 8200
    checkTimestampVector (collectTimestamps (evenChain 70) alt 65) ts
      = checkBlockTimestamp ((evenChain 70).take 65 ++ alt) ts ts := by
  intro alt ts
  refine (alternative_check_agrees_iff (evenChain 70) alt 65 ts ts (by decide) (by decide)).mpr ?_
  rw [RulesAgree, if_pos (by decide)]
  exact .inr (by decide)

/-- A block dated three hours ahead of the clock passes as an alternative block and not on the main
chain; on a chain of four blocks only an alternative block is compared with a median. -/
theorem alternative_check_disagrees :
    let now := afterLaunch 8400
    let ahead := now + 3 * 3600
    let early := afterLaunch 100
    (checkTimestampVector (collectTimestamps (evenChain 70) [] 70) ahead = true
        ∧ checkBlockTimestamp (evenChain 70) now ahead = false)
      ∧ checkTimestampVector (collectTimestamps (evenChain 4) [] 4) early = false
        ∧ checkBlockTimestamp (evenChain 4) now early = true := by
  decide +kernel

end Glaciem.Chain
