import Glaciem.Chain.Valid
import Glaciem.Chain.Switch

/-!
# Glaciem — every run keeps the invariant

The loops of a switch keep what one pop and one added block keep, the switch keeps what its loops
keep, and so does `handle_alternative_block`, by induction on the nesting.
-/

namespace Glaciem.Chain

open List

open HardFork (versionAt)

variable {H : Type} [DecidableEq H] {R : Rules H}

/-! ## The two loops -/

variable {n : Node H} {handle : Node H → Block H → Option (Node H × Bool)} {alt : List (AltBlock H)}
  {now depth : Nat} {r : Node H × Bool} {chain : List (Entry H)} {extra : List (Tx H)} {b : Block H}

/-- A loop of pops takes a suffix off a valid chain and leaves the rest valid. -/
theorem popWhile_spec (more : List (Entry H) → Bool) (fuel : Nat) (h : n.Valid R) :
    (popWhile R more fuel n).1.Valid R
      ∧ n.chain = (popWhile R more fuel n).1.chain ++ (popWhile R more fuel n).2
      ∧ (popWhile R more fuel n).1.alts = n.alts := by
  induction fuel generalizing n with
  | zero => exact ⟨h, (append_nil _).symm, rfl⟩
  | succ fuel ih =>
    unfold popWhile
    split
    · split
      · exact ⟨h, (append_nil _).symm, rfl⟩
      · rename_i n' e hpop
        obtain ⟨hn', hchain, -, halts⟩ := h.popBlock hpop
        obtain ⟨hend, hrest, hends⟩ := ih hn'
        refine ⟨hend, ?_, hends.trans halts⟩
        rw [hchain]
        nth_rewrite 1 [hrest]
        rw [append_assoc]
    · exact ⟨h, (append_nil _).symm, rfl⟩

/-- It stops at `keep` if the test fails there and at no longer chain. Induction on the fuel,
with the last popped block taken off `rest`. -/
theorem popWhile_eq_of_split {more : List (Entry H) → Bool} {fuel : Nat}
    {keep rest : List (Entry H)} (h : n.Valid R) (hchain : n.chain = keep ++ rest)
    (hkeep : keep ≠ []) (hstop : more keep = false)
    (hmore : ∀ pre suf, rest = pre ++ suf → pre ≠ [] → more (keep ++ pre) = true)
    (hfuel : rest.length ≤ fuel) :
    (popWhile R more fuel n).1.chain = keep ∧ (popWhile R more fuel n).2 = rest := by
  induction fuel generalizing n rest with
  | zero =>
    obtain rfl : rest = [] := length_eq_zero_iff.mp (Nat.le_zero.mp hfuel)
    exact ⟨by rw [popWhile, hchain, append_nil], rfl⟩
  | succ fuel ih =>
    unfold popWhile
    rcases eq_nil_or_concat rest with rfl | ⟨init, last, rfl⟩
    · rw [append_nil] at hchain
      rw [hchain, hstop, if_neg (by simp)]
      exact ⟨hchain, rfl⟩
    rw [concat_eq_append] at *
    have hgo : more n.chain = true := by
      rw [hchain]
      exact hmore _ [] (append_nil _).symm (by simp)
    rw [if_pos hgo]
    have hlen : ¬ n.chain.length ≤ 1 := by
      have hpos := length_pos_iff.mpr hkeep
      rw [hchain, length_append, length_append, length_singleton]
      omega
    cases hpop : popBlock R n with
    | none =>
      rw [popBlock, if_neg hlen, Option.map_eq_none_iff, hchain, ← append_assoc,
        getLast?_concat] at hpop
      cases hpop
    | some r =>
      obtain ⟨n', e⟩ := r
      obtain ⟨hn', hsplit, -, -⟩ := h.popBlock hpop
      rw [hchain, ← append_assoc] at hsplit
      obtain ⟨hinit, he⟩ := append_inj' hsplit rfl
      cases he
      have hrec := ih hn' hinit.symm
        (fun pre suf heq hpre => hmore pre (suf ++ [last]) (by rw [heq, append_assoc]) hpre)
        (by rw [length_append, length_singleton] at hfuel; omega)
      exact ⟨hrec.1, by dsimp only; rw [hrec.2]⟩

/-- Blocks are added until one fails; the chain grows by those before it. -/
theorem addBlocks_spec (now : Nat) (h : n.Settled R) (bs : List (Block H)) :
    ∃ es : List (Entry H), (addBlocks R now n bs).1.chain = n.chain ++ es
      ∧ es.map Entry.block = bs.take (addBlocks R now n bs).2
      ∧ es.length = (addBlocks R now n bs).2
      ∧ (addBlocks R now n bs).1.Settled R ∧ (addBlocks R now n bs).1.alts = n.alts
      ∧ ∀ e ∈ es, e.block.timestamp ≤ futureLimit now := by
  induction bs generalizing n with
  | nil =>
    exact ⟨[], (append_nil _).symm, rfl, rfl, h, rfl, fun _ he => absurd he not_mem_nil⟩
  | cons b rest ih =>
    unfold addBlocks
    have hspec := handle_spec h now b []
    generalize handleBlockToMainChain R now n b [] = r at hspec ⊢
    cases hspec with
    | refused n' hn' hchain halts =>
      exact ⟨[], by simpa using hchain, rfl, rfl, hn', halts, fun _ he => absurd he not_mem_nil⟩
    | added n' e hn' he hblock hclock hchain halts =>
      obtain ⟨es, hes, hblocks, hlen, hsettled, hends, hclocks⟩ := ih hn'
      refine ⟨e :: es, ?_, ?_, ?_, hsettled, hends.trans halts,
        forall_mem_cons.mpr ⟨hblock ▸ hclock, hclocks⟩⟩
      · simp only [if_true]
        rw [hes, hchain, append_assoc]
        rfl
      · simp [hblock, hblocks]
      · simp [hlen]

/-! ## Rollback and switch -/

/-- A rollback keeps what was on the chain and adds blocks of the disconnected ones alone. -/
theorem rollback_spec (now : Nat) (h : n.Settled R) (original : List (Block H)) (height : Nat) :
    (rollbackBlockchainSwitching R now n original height).Settled R
      ∧ (rollbackBlockchainSwitching R now n original height).alts = n.alts
      ∧ ∀ e ∈ (rollbackBlockchainSwitching R now n original height).chain,
        e ∈ n.chain ∨ e.block ∈ original := by
  unfold rollbackBlockchainSwitching
  split
  · exact ⟨h, rfl, fun _ => .inl⟩
  obtain ⟨hpopped, hsplit, halts⟩ := popWhile_spec
    (fun chain => chain.length ≠ height) n.chain.length h.toValid.invalidate
  dsimp only
  obtain ⟨es, hchain, hblocks, -, hadded, hends, -⟩ := addBlocks_spec now
    (hpopped.updateWeightLimit.reorganize height) original
  have halts' := hends.trans halts
  generalize addBlocks R now _ original = added at *
  have horigin : ∀ e ∈ added.1.chain, e ∈ n.chain ∨ e.block ∈ original := by
    intro e he
    rw [hchain] at he
    refine (mem_append.mp he).imp (fun hold => ?_) fun hnew => ?_
    · exact hsplit ▸ mem_append_left _ hold
    · exact mem_of_mem_take (hblocks ▸ mem_map_of_mem hnew)
  split
  · exact ⟨hadded.reorganize height, halts', horigin⟩
  · exact ⟨hadded, halts', horigin⟩

theorem disconnect_spec (h : n.Valid R) (forkParent : H) :
    (disconnect R n forkParent).1.Settled R
      ∧ n.chain = (disconnect R n forkParent).1.chain ++ (disconnect R n forkParent).2
      ∧ (disconnect R n forkParent).1.alts = n.alts := by
  obtain ⟨hpopped, hchain, halts⟩ := popWhile_spec
    (fun chain => topId R chain ≠ forkParent) n.chain.length h.invalidate
  exact ⟨hpopped.updateWeightLimit, hchain, halts⟩

omit [DecidableEq H] in
/-- Handing back the old blocks keeps what every one of the calls keeps. -/
theorem pushAll_preserves {P : Node H → Prop} {bs : List (Block H)}
    (hhandle : ∀ {n b r}, b ∈ bs → P n → handle n b = some r → P r.1) {n' : Node H} (h : P n)
    (hpush : pushAll handle n bs = some n') : P n' := by
  induction bs generalizing n with
  | nil =>
    cases hpush
    exact h
  | cons b rest ih =>
    obtain ⟨r, hr, hrest⟩ := Option.bind_eq_some_iff.mp hpush
    exact ih (fun hb => hhandle (mem_cons_of_mem _ hb)) (hhandle mem_cons_self h hr) hrest

theorem Node.Settled.withAlts (h : n.Settled R) (alts : List (AltBlock H)) :
    ({ n with alts := alts } : Node H).Settled R :=
  ⟨⟨h.toTracked.congr rfl rfl rfl, h.chain, h.pool⟩, h.weight⟩

/-- A switch is refused, or it disconnects the main chain above the fork and then either rolls
back or goes through. -/
theorem switch_inv {discard : Bool}
    (hswitch : switchToAlternativeBlockchain R now handle n alt discard = some r) :
    r = (n.invalidate, false)
      ∨ ∃ front n₁ old n₂ count, alt.head? = some front ∧ tooDeep n.chain front.height = false
        ∧ front.block.prevId ∈ idsOf n.chain ∧ disconnect R n front.block.prevId = (n₁, old)
        ∧ addBlocks R now n₁ (alt.map AltBlock.block) = (n₂, count)
        ∧ ((∃ n₃ ids, n₃ = rollbackBlockchainSwitching R now n₂
          (old.map Entry.block) n₁.chain.length
            ∧ r = ({ n₃ with alts := removeAlts n₃.alts ids }, false))
          ∨ ∃ n₃, count = alt.length
            ∧ pushAll handle n₂ (if discard then [] else old.map Entry.block) = some n₃
            ∧ r = (({ n₃ with
                alts := removeAlts n₃.alts (alt.map fun a => R.blockId a.block) } :
                  Node H).reorganize n₁.chain.length, true)) := by
  unfold switchToAlternativeBlockchain at hswitch
  split at hswitch
  · exact .inl (Option.some.inj hswitch).symm
  rename_i front rest
  split at hswitch
  · exact .inl (Option.some.inj hswitch).symm
  rename_i hcap
  split at hswitch
  · exact .inl (Option.some.inj hswitch).symm
  rename_i hconnects
  refine .inr ⟨front, _, _, _, _, rfl, eq_false_of_ne_true hcap, not_not.mp hconnects, rfl, rfl, ?_⟩
  dsimp only at hswitch
  split at hswitch
  · exact .inl ⟨_, _, rfl, (Option.some.inj hswitch).symm⟩
  · rename_i hcount
    obtain ⟨n₃, hpush, rfl⟩ := Option.map_eq_some_iff.mp hswitch
    exact .inr ⟨n₃, not_not.mp hcount, hpush, rfl⟩

theorem settled_switch (hhandle : ∀ {n b r}, n.Settled R → handle n b = some r → r.1.Settled R)
    {discard : Bool} (h : n.Settled R)
    (hswitch : switchToAlternativeBlockchain R now handle n alt discard = some r) :
    r.1.Settled R := by
  rcases switch_inv hswitch with
    rfl | ⟨front, n₁, old, n₂, count, -, -, -, hdisconnect, hadd, hend⟩
  · exact h.invalidate
  obtain ⟨hn₁, -, -⟩ := disconnect_spec h.toValid front.block.prevId
  rw [hdisconnect] at hn₁
  obtain ⟨es, -, -, -, hn₂, -⟩ := addBlocks_spec now hn₁ (alt.map AltBlock.block)
  rw [hadd] at hn₂
  rcases hend with ⟨n₃, ids, rfl, rfl⟩ | ⟨n₃, -, hpush, rfl⟩
  · exact (rollback_spec now hn₂ _ _).1.withAlts _
  · exact ((pushAll_preserves (fun _ => hhandle) hn₂ hpush).withAlts _).reorganize _

/-! ## Alternative blocks -/

theorem heightOf?_of_split {pre post : List (Entry H)} {e : Entry H} (hnodup : (idsOf chain).Nodup)
    (hsplit : chain = pre ++ e :: post) :
    heightOf? chain e.id = some pre.length := by
  have hlen : pre.length < (idsOf chain).length := by
    rw [idsOf, length_map, hsplit, length_append, length_cons]
    omega
  have hget : (idsOf chain)[pre.length] = e.id := by
    simp [idsOf, hsplit]
  refine idxOf?_eq_some_iff.mpr ⟨hlen, hget, fun j hj heq => ?_⟩
  have hsame := (List.Nodup.getElem_inj_iff hnodup).mp (heq.trans hget.symm)
  omega

theorem heightOf?_eq_some {id : H} {height : Nat} (h : heightOf? chain id = some height) :
    ∃ pre e post, chain = pre ++ e :: post ∧ pre.length = height ∧ e.id = id := by
  obtain ⟨hlen, hget, -⟩ := idxOf?_eq_some_iff.mp h
  have hlt : height < chain.length := by simpa [idsOf] using hlen
  refine ⟨chain.take height, chain[height], chain.drop (height + 1), ?_, ?_, ?_⟩
  · rw [getElem_cons_drop, take_append_drop]
  · rw [length_take, Nat.min_eq_left hlt.le]
  · simpa [idsOf] using hget

theorem take_of_heightOf? {id : H} {height : Nat} (h : heightOf? chain id = some height) :
    height + 1 ≤ chain.length ∧ topId R (chain.take (height + 1)) = id := by
  obtain ⟨pre, e, post, rfl, rfl, rfl⟩ := heightOf?_eq_some h
  refine ⟨by simp, ?_⟩
  rw [append_cons, take_append_of_le_length (by simp), take_of_length_le (by simp), topId_concat]

/-- The stored ancestors of a block, the first of which stands on the main chain. -/
theorem buildAltChain_eq_some {prevId : H} {timestamps : List Nat}
    (hbuild : buildAltChain R n prevId = some (alt, timestamps)) :
    alt = walkAlts n.alts n.alts.length prevId ∧ ∃ parent,
      heightOf? n.chain ((alt.head?.map fun a => a.block.prevId).getD prevId) = some parent
        ∧ timestamps = completeTimestampsVector (timestampsOf n.chain) parent
          (alt.map fun a => a.block.timestamp).reverse := by
  unfold buildAltChain at hbuild
  dsimp only at hbuild
  split at hbuild
  · -- on stored blocks
    rename_i front hhead
    split at hbuild
    · cases hbuild
    split at hbuild
    · cases hbuild
    rename_i parent hparent
    split at hbuild
    · cases hbuild
    obtain ⟨rfl, rfl⟩ := Prod.mk.inj (Option.some.inj hbuild)
    exact ⟨rfl, parent, by rw [hhead]; exact hparent, rfl⟩
  · -- directly on the main chain
    rename_i hhead
    split at hbuild
    · cases hbuild
    rename_i parent hparent
    obtain ⟨rfl, rfl⟩ := Prod.mk.inj (Option.some.inj hbuild)
    exact ⟨(head?_eq_none_iff.mp hhead).symm, parent, hparent, rfl⟩

omit [DecidableEq H] in
/-- On an alternative chain the difficulty is asked of the stamps below the fork and those of the
alternative blocks. -/
theorem altDifficulty_eq {fork : Nat} (hpos : 0 < fork) (hfork : fork ≤ chain.length)
    (hfront : ∀ front, alt.head? = some front → front.height = fork) :
    altDifficulty chain alt (fork + alt.length)
      = requiredOn ((stampsOf chain).take fork ++ alt.map AltBlock.stamp) := by
  have hstart : (alt.head?.map AltBlock.height).getD (fork + alt.length) = fork := by
    cases alt with
    | nil => rfl
    | cons front rest => exact hfront front rfl
  have hlen : ((stampsOf chain).take fork ++ alt.map AltBlock.stamp).length
      = fork + alt.length := by
    rw [length_append, length_take, length_map, stampsOf, length_map, Nat.min_eq_left hfork]
  rw [altDifficulty, hstart, nextDifficultyForAlternativeChain_eq (stampsOf chain)
    (alt.map AltBlock.stamp) _ hpos (by simpa [stampsOf] using hfork) (by rw [length_map]),
    idealVersion_hardForks, requiredOn, hlen]

theorem poolOk_keepExtra {pool : List (PoolTx H)} (h : PoolOk chain pool)
    (hextra : ∀ t ∈ extra, t.pruned = false) :
    PoolOk chain (keepExtra R chain pool extra) := by
  unfold keepExtra
  induction extra generalizing pool with
  | nil => exact h
  | cons t rest ih =>
    rw [foldl_cons]
    refine ih ?_ fun u hu => hextra u (mem_cons_of_mem _ hu)
    split
    · exact h
    · rename_i hnew
      simp only [Bool.or_eq_true, decide_eq_true_eq, any_eq_true, not_or, not_exists,
        not_and] at hnew
      have hid : t.id ∉ poolIds pool := fun hin => by
        obtain ⟨p, hp, hpt⟩ := mem_map.mp hin
        exact hnew.1 p hp hpt
      exact (h.concat (p := ⟨t, true⟩) hid (fun hin => hnew.2 (bodyIdsOf_subset chain hin))
        (hextra t mem_cons_self)).sublist (poolKeep_sublist R pool t)

/-- An alternative block is turned away, or it passed the checks and is recorded. -/
theorem place_cases (n : Node H) (b : Block H) (extra : List (Tx H)) :
    (∃ ok, placeAlternativeBlock R n b extra = .done n ok)
      ∨ ∃ alt timestamps difficulty, buildAltChain R n b.prevId = some (alt, timestamps)
        ∧ difficulty = altDifficulty n.chain alt ((parentOf n.chain alt b.prevId).height + 1)
        ∧ altAdmits R n b = true
        ∧ altVerifies R n alt timestamps b ((parentOf n.chain alt b.prevId).height + 1) difficulty
          extra = true
        ∧ placeAlternativeBlock R n b extra = recordAlternativeBlock R n alt
          (altRecord R (parentOf n.chain alt b.prevId) b difficulty) extra := by
  unfold placeAlternativeBlock
  split
  · exact .inl ⟨_, rfl⟩
  rename_i hadmits
  split
  · exact .inl ⟨_, rfl⟩
  split
  · exact .inl ⟨_, rfl⟩
  rename_i alt timestamps hbuild
  dsimp only
  split
  · exact .inl ⟨_, rfl⟩
  · rename_i hverifies
    exact .inr ⟨alt, timestamps, _, hbuild, rfl, eq_true_of_ne_false hadmits,
      eq_true_of_ne_false hverifies, rfl⟩

theorem handleAlternativeBlock_cases
    (hr : handleAlternativeBlock R now (depth + 1) n b extra = some r) :
    placeAlternativeBlock R n.invalidate b extra = .done r.1 r.2
      ∨ ∃ n' alt discard, placeAlternativeBlock R n.invalidate b extra = .switch n' alt discard
        ∧ switchToAlternativeBlockchain R now
          (fun m c => handleAlternativeBlock R now depth m c []) n' alt discard = some r := by
  unfold handleAlternativeBlock at hr
  split at hr
  · rename_i n' ok hplace
    cases hr
    exact .inl hplace
  · rename_i n' alt discard hplace
    exact .inr ⟨n', alt, discard, hplace, hr⟩

theorem addNewBlock_cases (hr : addNewBlock R now depth n b extra = some r) :
    r = (n, false) ∨ r = handleBlockToMainChain R now n b extra
      ∨ haveBlock n (R.blockId b) = false ∧ b.prevId ≠ topId R n.chain
        ∧ handleAlternativeBlock R now depth n b extra = some r := by
  unfold addNewBlock at hr
  split at hr
  · exact .inl (Option.some.inj hr).symm
  rename_i hnew
  split at hr
  · rename_i hprev
    exact .inr (.inr ⟨eq_false_of_ne_true hnew, hprev, hr⟩)
  · exact .inr (.inl (Option.some.inj hr).symm)

def AltOutcome.node : AltOutcome H → Node H
  | .done n _ => n
  | .switch n _ _ => n

theorem recordAlternativeBlock_node (n : Node H) (alt : List (AltBlock H)) (a : AltBlock H)
    (extra : List (Tx H)) : ∃ alts, (recordAlternativeBlock R n alt a extra).node
      = { n with pool := keepExtra R n.chain n.pool extra, alts := alts } := by
  unfold recordAlternativeBlock
  split
  · exact ⟨n.alts, rfl⟩
  split
  · exact ⟨n.alts ++ [a], rfl⟩
  split
  · exact ⟨n.alts ++ [a], rfl⟩
  · exact ⟨n.alts ++ [a], rfl⟩

theorem settled_place (h : n.Settled R) (b : Block H) (extra : List (Tx H)) :
    (placeAlternativeBlock R n b extra).node.Settled R := by
  rcases place_cases (R := R) n b extra with
    ⟨ok, heq⟩ | ⟨alt, timestamps, difficulty, -, -, -, hverifies, heq⟩
  · rw [heq]
    exact h
  · obtain ⟨alts, hnode⟩ := recordAlternativeBlock_node (R := R) n alt
      (altRecord R (parentOf n.chain alt b.prevId) b difficulty) extra
    rw [heq, hnode]
    have hextra : ∀ t ∈ extra, t.pruned = false := by
      simp only [altVerifies, Bool.and_eq_true, all_eq_true] at hverifies
      exact fun t ht => R.nonInputOk_unpruned _ t (hverifies.2 t ht)
    exact ⟨⟨h.toTracked.congr rfl rfl rfl, h.chain, poolOk_keepExtra h.pool hextra⟩, h.weight⟩

/-- Induction on the depth: a switch hands the old blocks back to the same function. -/
theorem settled_handleAlternativeBlock (h : n.Settled R)
    (hr : handleAlternativeBlock R now depth n b extra = some r) : r.1.Settled R := by
  induction depth generalizing n b extra r with
  | zero => cases hr
  | succ depth ih =>
    have hplaced := settled_place h.invalidate b extra
    rcases handleAlternativeBlock_cases hr with hdone | ⟨n', alt, discard, hplace, hswitch⟩
    · rw [hdone] at hplaced
      exact hplaced
    · rw [hplace] at hplaced
      exact settled_switch (fun hn hc => ih hn hc) hplaced hswitch

/-! ## Runs -/

theorem addTx_frame (n : Node H) (tx : Tx H) : ∃ pool, n.addTx R tx = { n with pool := pool } := by
  unfold Node.addTx
  dsimp only
  split
  · exact ⟨n.pool, rfl⟩
  · exact ⟨_, rfl⟩

theorem settled_addTx (h : n.Settled R) (tx : Tx H) : (n.addTx R tx).Settled R := by
  unfold Node.addTx
  dsimp only
  split
  · exact h
  · rename_i hnew
    simp only [Bool.or_eq_true, decide_eq_true_eq, any_eq_true, not_or, not_exists,
      not_and, Bool.not_eq_true', Bool.not_eq_false] at hnew
    obtain ⟨⟨⟨hpool, hchain⟩, hok⟩, -⟩ := hnew
    have hid : tx.id ∉ poolIds n.pool := fun hin => by
      obtain ⟨p, hp, hpt⟩ := mem_map.mp hin
      exact hpool p hp hpt
    have hpool' := h.pool.concat (p := ⟨tx, false⟩) hid
      (fun hin => hchain (bodyIdsOf_subset n.chain hin)) (R.nonInputOk_unpruned _ tx hok)
    exact ⟨h.toValid.withPool (hpool'.sublist (R.evict_sublist _)), h.weight⟩

/-- Every request keeps a node in order. -/
theorem settled_step {n' : Node H} {ev : Event H} (h : n.Settled R)
    (hstep : (blockchain R).step n ev = some n') : n'.Settled R := by
  cases ev with
  | addNewBlock now depth b extra =>
    obtain ⟨r, hr, rfl⟩ := Option.map_eq_some_iff.mp hstep
    rcases addNewBlock_cases hr with rfl | rfl | ⟨-, -, halternative⟩
    · exact h
    · have hspec := handle_spec h now b extra
      generalize handleBlockToMainChain R now n b extra = r at hspec ⊢
      cases hspec with
      | refused n' hn' | added n' e hn' => exact hn'
    · exact settled_handleAlternativeBlock h halternative
  | popBlocks nblocks =>
    cases hstep
    exact (popWhile_spec _ _ h.toValid).1.updateWeightLimit
  | getDifficultyForNextBlock =>
    cases hstep
    exact h.query
  | addTx tx =>
    cases hstep
    exact settled_addTx h tx
  | cleanupHandleIncomingBlocks =>
    cases hstep
    exact ⟨⟨h.toTracked.endReset, h.chain, h.pool⟩, h.weight⟩

theorem settled_of_exec {events : List (Event H)}
    (h : (blockchain R).exec (Node.init R) events = some n) : n.Settled R :=
  (blockchain R).invariant_of_exec settled_step (settled_init R) h

end Glaciem.Chain
