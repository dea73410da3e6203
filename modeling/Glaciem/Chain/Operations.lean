import Glaciem.Chain.Runs

/-!
# Glaciem — the node at the grain of single operations

Within one arrival the node pops blocks, adds some, and asks for difficulties in between. Here
these are steps of their own, in any order: `operations`. An arrival, whether it extends the
chain, is stored, switches, or is rolled back, is a run of them (`reaches_of_step`), so what holds
after any sequence of operations holds at every point within an arrival too.
-/

namespace Glaciem.Chain

open Option

open HardFork (versionAt)

variable {H : Type} [DecidableEq H] {R : Rules H}

inductive Operation (H : Type) where
  | handleBlockToMainChain (now : Nat) (b : Block H) (extra : List (Tx H))
  | popBlock
  | invalidate
  | updateWeightLimit
  | reorganize (height : Nat)
  | placeAlternativeBlock (b : Block H) (extra : List (Tx H))
  | removeAlts (ids : List H)
  | getDifficultyForNextBlock
  | addTx (tx : Tx H)
  | cleanupHandleIncomingBlocks

def operations (R : Rules H) : System (Node H) (Operation H) where
  step n
    | .handleBlockToMainChain now b extra => some (handleBlockToMainChain R now n b extra).1
    | .popBlock => (popBlock R n).map Prod.fst
    | .invalidate => some n.invalidate
    | .updateWeightLimit => some (n.updateWeightLimit R)
    | .reorganize height => some (n.reorganize height)
    | .placeAlternativeBlock b extra => some (placeAlternativeBlock R n b extra).node
    | .removeAlts ids => some { n with alts := removeAlts n.alts ids }
    | .getDifficultyForNextBlock => some (n.getDifficultyForNextBlock R).2
    | .addTx tx => some (n.addTx R tx)
    | .cleanupHandleIncomingBlocks => some { n with cache := n.cache.endReset }

/-! ## An arrival is a run of operations -/

section Decompose

theorem reaches_invalidate (R : Rules H) (n : Node H) : (operations R).Reaches n n.invalidate :=
  .of_step .invalidate rfl

theorem reaches_popWhile (more : List (Entry H) → Bool) (fuel : Nat) (n : Node H) :
    (operations R).Reaches n (popWhile R more fuel n).1 := by
  induction fuel generalizing n with
  | zero => exact .refl n
  | succ fuel ih =>
    unfold popWhile
    split
    · split
      · exact .refl n
      · rename_i n' e hpop
        have hstep : (operations R).Reaches n n' := .of_step .popBlock (by simp [operations, hpop])
        exact hstep.trans (ih n')
    · exact .refl n

theorem reaches_addBlocks (now : Nat) (n : Node H) (bs : List (Block H)) :
    (operations R).Reaches n (addBlocks R now n bs).1 := by
  induction bs generalizing n with
  | nil => exact .refl n
  | cons b rest ih =>
    have hstep : (operations R).Reaches n (handleBlockToMainChain R now n b []).1 :=
      .of_step (.handleBlockToMainChain now b []) rfl
    unfold addBlocks
    dsimp only
    split
    · exact hstep.trans (ih _)
    · exact hstep

theorem reaches_rollback (now : Nat) (n : Node H) (original : List (Block H)) (height : Nat) :
    (operations R).Reaches n (rollbackBlockchainSwitching R now n original height) := by
  unfold rollbackBlockchainSwitching
  split
  · exact .refl n
  have hpopped := (reaches_invalidate R n).trans
    (reaches_popWhile (fun chain => chain.length ≠ height) n.chain.length n.invalidate)
  have hupdated := hpopped.trans (.of_step .updateWeightLimit rfl)
  have hreorganized := hupdated.trans (.of_step (.reorganize height) rfl)
  have hadded := hreorganized.trans (reaches_addBlocks now _ original)
  dsimp only
  split
  · exact hadded.trans (.of_step (.reorganize height) rfl)
  · exact hadded

theorem reaches_disconnect (n : Node H) (forkParent : H) :
    (operations R).Reaches n (disconnect R n forkParent).1 := by
  have hpopped := (reaches_invalidate R n).trans
    (reaches_popWhile (fun chain => topId R chain ≠ forkParent) n.chain.length n.invalidate)
  exact hpopped.trans (.of_step .updateWeightLimit rfl)

theorem reaches_switch {now : Nat} {handle : Node H → Block H → Option (Node H × Bool)}
    (hhandle : ∀ {n b r}, handle n b = some r → (operations R).Reaches n r.1) {n : Node H}
    {alt : List (AltBlock H)} {discard : Bool} {r : Node H × Bool}
    (hswitch : switchToAlternativeBlockchain R now handle n alt discard = some r) :
    (operations R).Reaches n r.1 := by
  rcases switch_inv hswitch with
    rfl | ⟨front, n₁, old, n₂, count, -, -, -, hdisconnect, hadd, hend⟩
  · exact .of_step .invalidate rfl
  have hadded := (reaches_disconnect n front.block.prevId).trans
    (reaches_addBlocks (R := R) now _ (alt.map AltBlock.block))
  rw [hdisconnect, hadd] at hadded
  rcases hend with ⟨n₃, ids, rfl, rfl⟩ | ⟨n₃, -, hpush, rfl⟩
  · exact (hadded.trans (reaches_rollback now _ _ _)).trans (.of_step (.removeAlts _) rfl)
  · have hpushed : (operations R).Reaches n n₃ :=
      pushAll_preserves (fun _ hn hr => hn.trans (hhandle hr)) hadded hpush
    have hremoved := hpushed.trans
      (.of_step (.removeAlts (alt.map fun a => R.blockId a.block)) rfl)
    exact hremoved.trans (.of_step (.reorganize _) rfl)

theorem reaches_handleAlternativeBlock {now depth : Nat} {n : Node H} {b : Block H}
    {extra : List (Tx H)} {r : Node H × Bool}
    (hr : handleAlternativeBlock R now depth n b extra = some r) :
    (operations R).Reaches n r.1 := by
  induction depth generalizing n b extra r with
  | zero => cases hr
  | succ depth ih =>
    have hplaced := (reaches_invalidate R n).trans
      (.of_step (S := operations R) (.placeAlternativeBlock b extra) rfl)
    rcases handleAlternativeBlock_cases hr with hdone | ⟨n', alt, discard, hplace, hswitch⟩
    · rw [hdone] at hplaced
      exact hplaced
    · rw [hplace] at hplaced
      exact hplaced.trans (reaches_switch (fun hc => ih hc) hswitch)

theorem reaches_of_step {n n' : Node H} {ev : Event H}
    (hstep : (blockchain R).step n ev = some n') : (operations R).Reaches n n' := by
  cases ev with
  | addNewBlock now depth b extra =>
    obtain ⟨r, hr, rfl⟩ := map_eq_some_iff.mp hstep
    rcases addNewBlock_cases hr with rfl | rfl | ⟨-, -, halternative⟩
    · exact .refl n
    · exact .of_step (.handleBlockToMainChain now b extra) rfl
    · exact reaches_handleAlternativeBlock halternative
  | popBlocks nblocks =>
    cases hstep
    exact (reaches_popWhile _ _ n).trans (.of_step .updateWeightLimit rfl)
  | getDifficultyForNextBlock => exact .of_step .getDifficultyForNextBlock hstep
  | addTx tx => exact .of_step (.addTx tx) hstep
  | cleanupHandleIncomingBlocks => exact .of_step .cleanupHandleIncomingBlocks hstep

end Decompose

/-! ## What holds at every point -/

theorem place_frame (n : Node H) (b : Block H) (extra : List (Tx H)) :
    ∃ pool alts, (placeAlternativeBlock R n b extra).node
      = { n with pool := pool, alts := alts } := by
  rcases place_cases (R := R) n b extra with ⟨ok, heq⟩ | ⟨alt, _, difficulty, -, -, -, -, heq⟩
  · exact ⟨n.pool, n.alts, by rw [heq]; rfl⟩
  · obtain ⟨alts, hnode⟩ := recordAlternativeBlock_node (R := R) n alt
      (altRecord R (parentOf n.chain alt b.prevId) b difficulty) extra
    exact ⟨_, alts, by rw [heq, hnode]⟩

theorem tracked_operation {n n' : Node H} {op : Operation H} (h : n.Tracked R)
    (hstep : (operations R).step n op = some n') : n'.Tracked R := by
  cases op with
  | handleBlockToMainChain now b extra =>
    cases hstep
    exact h.handle now b extra
  | popBlock =>
    obtain ⟨r, hpop, rfl⟩ := map_eq_some_iff.mp hstep
    exact (h.popBlock hpop).1
  | invalidate =>
    cases hstep
    exact h.invalidate
  | updateWeightLimit | removeAlts ids =>
    cases hstep
    exact h.congr rfl rfl rfl
  | reorganize height =>
    cases hstep
    exact h.reorganize height
  | placeAlternativeBlock b extra =>
    cases hstep
    obtain ⟨pool, alts, hnode⟩ := place_frame (R := R) n b extra
    rw [hnode]
    exact h.congr rfl rfl rfl
  | getDifficultyForNextBlock =>
    cases hstep
    exact h.query
  | addTx tx =>
    cases hstep
    obtain ⟨pool, hnode⟩ := addTx_frame (R := R) n tx
    rw [hnode]
    exact h.congr rfl rfl rfl
  | cleanupHandleIncomingBlocks =>
    cases hstep
    exact h.endReset

theorem tracked_of_reaches {n : Node H} (h : (operations R).Reaches (Node.init R) n) :
    n.Tracked R :=
  h.invariant tracked_operation (tracked_init R)

/-- Every run goes through operations only, and after any operations the difficulty of the next
block is computed from the last blocks of the chain as it is, genesis left out. -/
theorem difficulty_of_run (R : Rules H) :
    (∀ events n, (blockchain R).exec (Node.init R) events = some n →
        (operations R).Reaches (Node.init R) n)
      ∧ ∀ n, (operations R).Reaches (Node.init R) n →
        (n.getDifficultyForNextBlock R).1
          = nextDifficulty ((stampsOf n.chain).tail.rtake DIFFICULTY_BLOCKS_COUNT)
              (difficultyTarget n.hardFork.version) := by
  refine ⟨fun events n h => System.Reaches.of_exec reaches_of_step h, fun n h => ?_⟩
  have htracked := tracked_of_reaches h
  rw [htracked.query_fst, htracked.currentVersion]
  rfl

theorem difficulty_of_run_sample : ∃ n,
    (operations openRules).Reaches (Node.init openRules) n ∧ idsOf n.chain = [1, 2]
      ∧ (n.getDifficultyForNextBlock openRules).1
        = nextDifficulty ((stampsOf n.chain).tail.rtake DIFFICULTY_BLOCKS_COUNT)
            (difficultyTarget n.hardFork.version) := by
  have hrun : ((blockchain openRules).exec (Node.init openRules)
      (steadyBlocks 4 ++ [.popBlocks 2])).map (fun n => idsOf n.chain) = some [1, 2] := by
    decide +kernel
  obtain ⟨n, hn, hids⟩ := map_eq_some_iff.mp hrun
  have hreaches := (difficulty_of_run openRules).1 _ n hn
  exact ⟨n, hreaches, hids, (difficulty_of_run openRules).2 n hreaches⟩

def Launched (chain : List (Entry H)) : Prop :=
  ∀ height e, 1 ≤ height → chain[height]? = some e → GLACIEM_LAUNCH_TIMESTAMP ≤ e.block.timestamp

omit [DecidableEq H] in
theorem Launched.of_append {chain rest : List (Entry H)} (h : Launched (chain ++ rest)) :
    Launched chain := by
  intro height e hheight he
  refine h height e hheight ?_
  rw [List.getElem?_append_left (List.getElem?_eq_some_iff.mp he).1, he]

omit [DecidableEq H] in
theorem Launched.concat {chain : List (Entry H)} {e : Entry H} (h : Launched chain)
    (he : NotBefore (timestampsOf chain) e.block.timestamp) : Launched (chain ++ [e]) := by
  intro height e' hheight he'
  rcases Nat.lt_or_ge height chain.length with hlt | hge
  · rw [List.getElem?_append_left hlt] at he'
    exact h height e' hheight he'
  · -- the new block: the chain below it has its genesis block
    rw [List.getElem?_append_right hge] at he'
    obtain rfl : e' = e := List.mem_singleton.mp (List.mem_of_getElem? he')
    have hlen := (List.getElem?_eq_some_iff.mp he').1
    rw [List.length_singleton] at hlen
    refine he.1 (List.ne_nil_of_length_pos ?_)
    rw [timestampsOf, List.length_map]
    omega

theorem handle_chain_cases (R : Rules H) (now : Nat) (n : Node H) (b : Block H)
    (extra : List (Tx H)) :
    (handleBlockToMainChain R now n b extra).1.chain = n.chain
      ∨ ∃ e, e.block = b ∧ admits R now n b = true
        ∧ (handleBlockToMainChain R now n b extra).1.chain = n.chain ++ [e] := by
  rcases handle_cases R now n b extra with heq | heq | ⟨hadmits, -, heq⟩
  · exact .inl (by rw [heq])
  · exact .inl (by rw [heq]; rfl)
  rw [heq]
  have hcases := complete_cases R (n.getDifficultyForNextBlock R).2 b
    (n.getDifficultyForNextBlock R).1 extra
  generalize Node.complete R (n.getDifficultyForNextBlock R).2 b _ extra = r at hcases ⊢
  cases hcases with
  | returned | pruned => exact .inl rfl
  | recorded left new reward => exact .inr ⟨_, rfl, hadmits, (record_frame R _ left _).1⟩

theorem launched_operation {n n' : Node H} {op : Operation H} (h : Launched n.chain)
    (hstep : (operations R).step n op = some n') : Launched n'.chain := by
  cases op with
  | handleBlockToMainChain now b extra =>
    cases hstep
    rcases handle_chain_cases R now n b extra with heq | ⟨e, rfl, hadmits, heq⟩
    · rw [heq]
      exact h
    · rw [heq]
      simp only [admits, Bool.and_eq_true, checkBlockTimestamp_iff_notBefore] at hadmits
      exact h.concat hadmits.2.2
  | popBlock =>
    obtain ⟨⟨n', e⟩, hpop, rfl⟩ := map_eq_some_iff.mp hstep
    obtain ⟨hsplit, -, rfl⟩ := popBlock_eq_some R hpop
    rw [hsplit] at h
    rw [validateIfChanged_frame]
    exact h.of_append
  | placeAlternativeBlock b extra =>
    cases hstep
    obtain ⟨pool, alts, hnode⟩ := place_frame (R := R) n b extra
    rw [hnode]
    exact h
  | addTx tx =>
    cases hstep
    obtain ⟨pool, hnode⟩ := addTx_frame (R := R) n tx
    rw [hnode]
    exact h
  | invalidate | updateWeightLimit | reorganize | removeAlts | getDifficultyForNextBlock
  | cleanupHandleIncomingBlocks =>
    cases hstep
    exact h

/-- After every run, and at every point within one, each block above genesis is dated at the
launch or later. -/
theorem launch_of_run (R : Rules H) :
    (∀ events n, (blockchain R).exec (Node.init R) events = some n → Launched n.chain)
      ∧ ∀ n, (operations R).Reaches (Node.init R) n → Launched n.chain := by
  have hinit : Launched (Node.init R).chain := fun height e _ he => by simp [Node.init] at he
  have hpoints : ∀ n, (operations R).Reaches (Node.init R) n → Launched n.chain := by
    rintro n ⟨ops, hops⟩
    exact (operations R).invariant_of_exec (fun h hstep => launched_operation h hstep) hinit hops
  exact ⟨fun events n h => hpoints n (System.Reaches.of_exec reaches_of_step h), hpoints⟩

theorem launch_of_run_sample : ∃ n,
    (blockchain openRules).exec (Node.init openRules) (steadyBlocks 3) = some n
      ∧ n.chain.length = 3 ∧ Launched n.chain := by
  have hrun : ((blockchain openRules).exec (Node.init openRules) (steadyBlocks 3)).map
      (fun n => n.chain.length) = some 3 := by decide +kernel
  obtain ⟨n, hn, hlen⟩ := map_eq_some_iff.mp hrun
  exact ⟨n, hn, hlen, (launch_of_run openRules).1 _ n hn⟩

/-! ## Main and alternative chain -/

/-- The difficulty an alternative chain on the first `fork` blocks has to meet next is the one a
node asks for whose main chain these blocks are. -/
theorem alternative_difficulty_eq (R : Rules H) (n m : Node H) (alt : List (AltBlock H))
    (fork : Nat) (hpos : 0 < fork) (hfork : fork ≤ n.chain.length)
    (hfront : ∀ front, alt.head? = some front → front.height = fork) (hm : m.Tracked R)
    (hsame : stampsOf m.chain = (stampsOf n.chain).take fork ++ alt.map AltBlock.stamp) :
    altDifficulty n.chain alt (fork + alt.length) = (m.getDifficultyForNextBlock R).1 := by
  rw [altDifficulty_eq hpos hfork hfront, hm.query_fst, requiredDifficulty_eq, hsame]

def sampleFork : List (AltBlock Nat) :=
  [{ block := sampleBlock 13 2 2 (afterLaunch 300) [] 0
     id := 13, height := 2, cumulativeDifficulty := 3, coins := 0 }]

theorem alternative_difficulty_eq_sample : ∃ n m : Node Nat,
    (blockchain openRules).exec (Node.init openRules) (steadyBlocks 3) = some n
      ∧ m.Tracked openRules ∧ idsOf m.chain = [1, 2, 13]
      ∧ altDifficulty n.chain sampleFork 3 = (m.getDifficultyForNextBlock openRules).1 := by
  have hn : ((blockchain openRules).exec (Node.init openRules) (steadyBlocks 3)).map
      (fun n => stampsOf n.chain) = some
        [⟨afterLaunch 0, 1⟩, ⟨afterLaunch 120, 2⟩, ⟨afterLaunch 240, 3⟩] := by
    decide +kernel
  have hm : ((blockchain openRules).exec (Node.init openRules) (steadyBlocks 2
      ++ [.addNewBlock (afterLaunch 300) 1 (sampleBlock 13 2 2 (afterLaunch 300) [] 0) []])).map
      (fun m => (stampsOf m.chain, idsOf m.chain)) = some
        ([⟨afterLaunch 0, 1⟩, ⟨afterLaunch 120, 2⟩, ⟨afterLaunch 300, 3⟩], [1, 2, 13]) := by
    decide +kernel
  obtain ⟨n, hn, hstamps⟩ := map_eq_some_iff.mp hn
  obtain ⟨m, hm, hpair⟩ := map_eq_some_iff.mp hm
  obtain ⟨hstamps', hids⟩ := Prod.mk.inj hpair
  have htracked : m.Tracked openRules :=
    tracked_of_reaches (System.Reaches.of_exec reaches_of_step hm)
  have hlen : 2 ≤ n.chain.length := by
    have hlen := congrArg List.length hstamps
    rw [stampsOf, List.length_map] at hlen
    simp [hlen]
  refine ⟨n, m, hn, htracked, hids,
    alternative_difficulty_eq openRules n m sampleFork 2 (by decide) hlen ?_ htracked ?_⟩
  · intro front hfront
    cases hfront
    rfl
  · rw [hstamps, hstamps']
    rfl

end Glaciem.Chain
