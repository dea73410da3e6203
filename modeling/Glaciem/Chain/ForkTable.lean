import Glaciem.Chain.HardFork
import Glaciem.Lib.System

/-!
# Glaciem — runs of the fork state

What the fork state of a node says after any additions, pops, reorganisations and restarts, and what
a pop leaves in the window of votes.
-/

namespace Glaciem.Chain

open List Function

/-! ## Runs -/

inductive ForkOp
  | add (v : Vote)
  | pop (nblocks : Nat)
  | reorganize (height : Nat)
  -- `Blockchain::init` pops blocks from the database and reorganises from the height it comes to
  | unwind (nblocks : Nat)
  | restart

structure ForkNode where
  chain : List Vote
  fork : HardFork

namespace ForkNode

variable (T : ForkTable)

def start : ForkNode := ⟨[], HardFork.init T [] fun _ => 0⟩

def restarted (s : ForkNode) : ForkNode :=
  { s with fork := HardFork.init T s.chain s.fork.dbVersions }

/-- A block is added if it passes `check`. The genesis block is never popped. -/
def step (s : ForkNode) : ForkOp → Option ForkNode
  | .add v =>
    if s.fork.check T v then some ⟨s.chain ++ [v], s.fork.add T v s.chain.length⟩ else none
  | .pop nblocks =>
    let left := s.chain.length - nblocks
    if 0 < nblocks ∧ 0 < left then
      some ⟨s.chain.take left, s.fork.onBlockPopped T left nblocks⟩
    else none
  | .reorganize height => some { s with fork := s.fork.reorganizeFromChainHeight T s.chain height }
  | .unwind nblocks =>
    let left := s.chain.length - nblocks
    if 0 < left then
      some ⟨s.chain.take left, s.fork.reorganizeFromChainHeight T (s.chain.take left) left⟩
    else none
  | .restart => some (s.restarted T)

end ForkNode

def forkNodes (T : ForkTable) : System ForkNode ForkOp := ⟨ForkNode.step T⟩

theorem follows_step {T : ForkTable} {s s' : ForkNode} {op : ForkOp}
    (h : s.fork.Follows T s.chain) (hstep : s.step T op = some s') :
    s'.fork.Follows T s'.chain := by
  cases op with
  | add v =>
    simp only [ForkNode.step] at hstep
    split at hstep
    · rename_i hcheck
      cases hstep
      rw [h.check, decide_eq_true_iff] at hcheck
      exact h.add hcheck
    · cases hstep
  | pop nblocks =>
    simp only [ForkNode.step] at hstep
    split at hstep
    · rename_i hguard
      cases hstep
      refine h.onBlockPopped (by omega) fun hnil => ?_
      rw [hnil, length_nil, Nat.zero_sub] at hguard
      exact absurd hguard.2 (lt_irrefl 0)
    · cases hstep
  | reorganize height =>
    cases hstep
    exact h.reorganizeFromChainHeight height
  | unwind nblocks =>
    simp only [ForkNode.step] at hstep
    split at hstep
    · rename_i hpos
      cases hstep
      exact h.unwind hpos (Nat.sub_le _ _)
    · cases hstep
  | restart =>
    cases hstep
    exact h.init

theorem follows_of_exec {T : ForkTable} {s : ForkNode} {ops : List ForkOp}
    (h : (forkNodes T).exec (ForkNode.start T) ops = some s) : s.fork.Follows T s.chain := by
  have hstart : (ForkNode.start T).fork.Follows T (ForkNode.start T).chain :=
    (HardFork.follows_empty (T := T) fun _ => 0).init
  exact (forkNodes T).invariant_of_exec follows_step hstart h

/-- After any additions, pops, reorganisations and restarts the version in force is the ideal one of
the next height, and a node restarted on the same database accepts the same blocks. -/
theorem current_version_is_ideal (T : ForkTable) (ops : List ForkOp) (s : ForkNode)
    (h : (forkNodes T).exec (ForkNode.start T) ops = some s) :
    s.fork.currentVersion T = T.idealVersion s.chain.length
      ∧ (s.restarted T).fork.currentVersion T = s.fork.currentVersion T
      ∧ ∀ v, (s.restarted T).fork.check T v = s.fork.check T v := by
  have hfollows := follows_of_exec h
  have hrestarted : (s.restarted T).fork.Follows T s.chain := hfollows.init
  refine ⟨?_, ?_, fun v => ?_⟩
  · rw [hfollows.currentVersion, T.idealVersion_eq]
  · rw [hrestarted.currentVersion, hfollows.currentVersion]
  · rw [hrestarted.check, hfollows.check]

def sampleForks : ForkTable where
  heights := [⟨1, 0, 0⟩, ⟨2, 2, 0⟩, ⟨5, 3, 0⟩]
  originalVersion := 1
  windowSize := 2
  nonempty := by decide
  window_pos := by decide
  increasing := by decide
  voteless := by decide
  original := rfl

def sampleForkOps : List ForkOp :=
  [.add ⟨1, 1⟩, .add ⟨1, 9⟩, .add ⟨2, 2⟩, .add ⟨5, 5⟩, .pop 2, .add ⟨2, 5⟩, .reorganize 2, .restart,
    .add ⟨5, 7⟩, .unwind 1]

theorem current_version_is_ideal_sample :
    ∃ s, (forkNodes sampleForks).exec (ForkNode.start sampleForks) sampleForkOps = some s
      ∧ s.chain = [⟨1, 1⟩, ⟨1, 9⟩, ⟨2, 5⟩]
      ∧ s.fork.currentVersion sampleForks = 5
      ∧ (s.restarted sampleForks).fork.currentVersion sampleForks = 5 := by
  have hrun : ((forkNodes sampleForks).exec (ForkNode.start sampleForks) sampleForkOps).map
      ForkNode.chain = some [⟨1, 1⟩, ⟨1, 9⟩, ⟨2, 5⟩] := by decide +kernel
  obtain ⟨s, hs, hchain⟩ := Option.map_eq_some_iff.mp hrun
  obtain ⟨hideal, hrestarted, -⟩ := current_version_is_ideal sampleForks sampleForkOps s hs
  have hfive : s.fork.currentVersion sampleForks = 5 := by
    rw [hideal, hchain]
    decide
  exact ⟨s, hs, hchain, hfive, hrestarted.trans hfive⟩

/-! ## What a pop leaves in the window

`on_block_popped` takes the last vote off the window and puts the recorded version of the popped
height in front, where `reorganize_from_block_height` reads the votes of the blocks again. -/

namespace HardFork

variable {T : ForkTable} {s : HardFork} {chain : List Vote}

def windowVotes (T : ForkTable) (chain : List Vote) : List Nat :=
  (chain.map fun v => T.effectiveVersion v.voting).drop (chain.length - T.windowSize)

/-- Of the blocks above height `n`, the last `k` of the chain: the ones whose votes come back into
the window voted for the version recorded a window later. -/
def VotesReturn (T : ForkTable) (chain : List Vote) (n k : Nat) : Prop :=
  T.windowSize ≤ n ∧ ∀ i < k, i < T.windowSize →
    chain[n - T.windowSize + i]?.map (fun v => T.effectiveVersion v.voting)
      = some (T.versionAt (n + i))

theorem fst_trim (size : Nat) (versions : List Nat) (counts : Nat → Nat) :
    (trim size versions counts).1 = versions.drop (versions.length + 1 - size) := by
  induction versions generalizing counts with
  | nil => rw [drop_nil, trim]
  | cons old rest ih =>
    unfold trim
    split
    · rw [ih, length_cons, show rest.length + 1 + 1 - size = rest.length + 1 - size + 1 by omega,
        drop_succ_cons]
    · rw [length_cons, show rest.length + 1 + 1 - size = 0 by omega, drop_zero]

theorem versions_add {v : Vote} (hv : s.check T v = true) (hw : s.versions = windowVotes T chain) :
    (s.add T v chain.length).versions = windowVotes T (chain ++ [v]) := by
  have hpos := T.window_pos
  unfold HardFork.add
  rw [if_pos hv]
  show (trim T.windowSize s.versions s.lastVersions).1 ++ [T.effectiveVersion v.voting] = _
  rw [fst_trim, hw, windowVotes, windowVotes, drop_drop, length_drop, length_map, map_append,
    length_append, length_singleton, drop_append_of_le_length (by rw [length_map]; omega)]
  congr 2
  omega

theorem versions_unrecordAll (n k : Nat) (hne : s.versions ≠ []) :
    (unrecordAll n k s).versions
      = ((range k).map (fun i => s.dbVersions (n + i)) ++ s.versions).take s.versions.length := by
  induction k generalizing s with
  | zero => rw [range_zero, map_nil, nil_append, take_length, unrecordAll]
  | succ k ih =>
    have hpos := length_pos_iff.mpr hne
    -- what is pushed out at the back is beyond the length that is kept
    have hback : s.versions = s.versions.dropLast ++ [s.versions.getLast hne] :=
      (dropLast_append_getLast hne).symm
    rw [unrecordAll, ih (List.cons_ne_nil _ _)]
    show (_ ++ s.dbVersions (n + k) :: s.versions.dropLast).take
      (s.dbVersions (n + k) :: s.versions.dropLast).length = _
    rw [length_cons, length_dropLast, Nat.sub_add_cancel hpos, range_succ, map_append,
      map_singleton,
      append_assoc, singleton_append]
    conv_rhs => rw [hback, ← cons_append, ← append_assoc]
    rw [← hback]
    refine (take_append_of_le_length ?_).symm
    rw [length_append, length_cons, length_dropLast]
    omega

theorem versions_reorganize_top (s : HardFork) (hne : chain ≠ []) :
    (s.reorganizeFromBlockHeight T chain (chain.length - 1)).versions = windowVotes T chain
      ∧ (s.reorganizeFromBlockHeight T chain (chain.length - 1)).Counted := by
  have hpos := length_pos_iff.mpr hne
  have hwindow := T.window_pos
  have hstart : (if T.windowSize - 1 ≤ chain.length - 1 then
      chain.length - 1 - (T.windowSize - 1) else 0) = chain.length - T.windowSize := by
    split <;> omega
  unfold reorganizeFromBlockHeight
  rw [if_neg (by omega)]
  simp only [Nat.sub_add_cancel hpos, take_length, drop_length, addAll, hstart]
  obtain ⟨hcounted, hversions, -⟩ := recordAll_spec (T := T)
    (s := { s.cleared with currentForkIndex := T.indexBack _ s.currentForkIndex })
    (chain.drop (chain.length - T.windowSize)) (counted_cleared s)
  refine ⟨hversions.trans ?_, hcounted⟩
  rw [map_drop]
  rfl

theorem Follows.popped_window_iff {n k : Nat} (h : s.Follows T chain)
    (hw : s.versions = windowVotes T chain) (hk : 0 < k) (hlen : n + k = chain.length) :
    (s.onBlockPopped T n k).versions = windowVotes T (chain.take n) ↔ VotesReturn T chain n k := by
  have hpos := T.window_pos
  have hne : s.versions ≠ [] := h.filled (ne_nil_of_length_pos (by omega))
  have hsize : s.versions.length = min T.windowSize chain.length := by
    rw [hw, windowVotes, length_drop, length_map]
    omega
  show (unrecordAll n k s).versions = _ ↔ _
  rw [versions_unrecordAll n k hne, VotesReturn]
  by_cases hfull : T.windowSize ≤ n
  · simp only [hfull, true_and]
    refine (Iff.intro (fun heq i => congrArg (·[i]?) heq) ext_getElem?).trans
      (forall_congr' fun i => ?_)
    rw [getElem?_take, hsize, min_eq_left (by omega), windowVotes, getElem?_drop, getElem?_map,
      getElem?_take, length_take, min_eq_left (by omega)]
    by_cases hi : i < T.windowSize
    · rw [if_pos hi, if_pos (by omega)]
      by_cases hik : i < k
      · rw [getElem?_append_left (by rwa [length_map, length_range]), getElem?_map,
          getElem?_range hik, Option.map_some, h.recorded _ (by omega)]
        exact ⟨fun heq _ _ => heq.symm, fun heq => (heq hik hi).symm⟩
      · -- the votes that stayed are read from the same blocks
        rw [getElem?_append_right (by rw [length_map, length_range]; omega), length_map,
          length_range, hw, windowVotes, getElem?_drop, getElem?_map,
          show chain.length - T.windowSize + (i - k) = n - T.windowSize + i by omega]
        exact ⟨fun _ hlt => absurd hlt hik, fun _ => rfl⟩
    · rw [if_neg hi, if_neg (by omega)]
      exact ⟨fun _ _ hlt => absurd hlt hi, fun _ => rfl⟩
  · simp only [hfull, false_and, iff_false]
    intro heq
    have hlength := congrArg List.length heq
    rw [length_take, length_append, length_map, length_range, hsize, windowVotes, length_drop,
      length_map, length_take] at hlength
    omega

/-- A block more and a block less, or any number of blocks less, gives the window back only where
the votes that come back were votes for the versions recorded a window later. -/
theorem pop_restores_window_iff (T : ForkTable) (s : HardFork) (chain : List Vote)
    (h : s.Follows T chain) (hw : s.versions = windowVotes T chain) :
    (∀ v, s.check T v = true →
      (((s.add T v chain.length).onBlockPopped T chain.length 1).versions = s.versions
          ∧ ((s.add T v chain.length).onBlockPopped T chain.length 1).lastVersions = s.lastVersions
        ↔ VotesReturn T (chain ++ [v]) chain.length 1))
      ∧ ∀ n k, 0 < n → 0 < k → n + k = chain.length →
        ((s.onBlockPopped T n k).versions
              = (s.reorganizeFromBlockHeight T (chain.take n) (n - 1)).versions
            ∧ (s.onBlockPopped T n k).lastVersions
              = (s.reorganizeFromBlockHeight T (chain.take n) (n - 1)).lastVersions
          ↔ VotesReturn T chain n k) := by
  -- counters that are counts agree where the windows do
  have hcounts {s t : HardFork} (hs : s.Counted) (ht : t.Counted) :
      s.versions = t.versions ∧ s.lastVersions = t.lastVersions ↔ s.versions = t.versions :=
    ⟨And.left, fun heq => ⟨heq, by rw [show s.lastVersions = _ from hs, heq]; exact ht.symm⟩⟩
  constructor
  · intro v hv
    have hallows : HardFork.Allows (T.versionAt chain.length) v := by
      rw [h.check] at hv
      exact of_decide_eq_true hv
    have hadd := h.add hallows
    have hlen : chain.length + 1 = (chain ++ [v]).length := by simp
    rw [hcounts (hadd.onBlockPopped hlen (concat_ne_nil _ _)).counted h.counted, hw,
      ← hadd.popped_window_iff (versions_add hv hw) one_pos hlen, take_left]
  · intro n k hn hk hlen
    have htake : (chain.take n).length = n := by rw [length_take, min_eq_left (by omega)]
    obtain ⟨hversions, hcounted⟩ := versions_reorganize_top (T := T) s
      (ne_nil_of_length_pos (by omega) : chain.take n ≠ [])
    rw [htake] at hversions hcounted
    rw [hcounts (h.onBlockPopped hlen (ne_nil_of_length_pos (by omega))).counted hcounted,
      hversions,
      h.popped_window_iff hw hk hlen]

def sampleVotes (votes : List Vote) : HardFork := addAll sampleForks {} votes 0

theorem pop_restores_window_iff_sample :
    ((sampleVotes [⟨1, 1⟩, ⟨1, 9⟩]).onBlockPopped sampleForks 1 1).versions
          = ((sampleVotes [⟨1, 1⟩, ⟨1, 9⟩]).reorganizeFromBlockHeight sampleForks
            [⟨1, 1⟩] 0).versions
        ∧ ((sampleVotes [⟨1, 1⟩, ⟨1, 9⟩]).onBlockPopped sampleForks 1 1).lastVersions
          = ((sampleVotes [⟨1, 1⟩, ⟨1, 9⟩]).reorganizeFromBlockHeight sampleForks
              [⟨1, 1⟩] 0).lastVersions
      ↔ VotesReturn sampleForks [⟨1, 1⟩, ⟨1, 9⟩] 1 1 := by
  refine (pop_restores_window_iff sampleForks (sampleVotes [⟨1, 1⟩, ⟨1, 9⟩]) [⟨1, 1⟩, ⟨1, 9⟩]
    ((follows_empty fun _ => 0).addAll [⟨1, 1⟩, ⟨1, 9⟩] fun k v hk => ?_) (by decide)).2 1 1
    one_pos one_pos rfl
  match k, hk with
  | 0, rfl => decide
  | 1, rfl => decide

/-- A pop leaves two votes in the window, a chain of one block has one. -/
theorem popped_window_keeps_its_length :
    ((sampleVotes [⟨1, 1⟩, ⟨1, 9⟩]).onBlockPopped sampleForks 1 1).versions = [1, 1]
      ∧ (sampleVotes [⟨1, 1⟩]).versions = [1]
      ∧ ((sampleVotes [⟨1, 1⟩, ⟨1, 9⟩]).reorganizeFromBlockHeight sampleForks
          [⟨1, 1⟩] 0).versions = [1] := by
  decide

end HardFork

end Glaciem.Chain
