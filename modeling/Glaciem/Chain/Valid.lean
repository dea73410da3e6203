import Glaciem.Lib.Linked
import Glaciem.Chain.Tracked

/-!
# Glaciem — valid chains and the invariant of the node

What a block must satisfy to stand on a chain, in terms of the chain alone, and what the node
keeps about its chain, its caches and its pool.

* `Extends R chain e` — the block `e` may follow `chain`: what `handle_block_to_main_chain` checks,
  but for the clock;
* `ValidChain` — every block extends those before it;
* `Node.Valid` — the chain is valid, and fork state, difficulty cache and pool belong to it. It is
  kept by a difficulty query and by a pop (`Node.Valid.popBlock`);
* `Node.Settled` — the weight median too belongs to the chain.
-/

namespace Glaciem.Chain

open List

open HardFork (versionAt)

variable {H : Type} [DecidableEq H]

/-! ## Valid chains -/

/-- The entry `e` passed every check of a block on top of `chain`, except for the clock. -/
structure Extends (R : Rules H) (chain : List (Entry H)) (e : Entry H) : Prop where
  parent : e.block.prevId = topId R chain
  version : HardFork.Allows (versionAt chain.length) e.block.vote
  timestamp : NotBefore (timestampsOf chain) e.block.timestamp
  verified : verifies R chain (versionAt chain.length) e.block (requiredDifficulty chain) = true
  hashes : e.txs.map Tx.id = e.block.txHashes
  inputs : ∀ t ∈ e.txs, R.checkTxInputs chain t = true
  unpruned : ∀ t ∈ e.txs, t.pruned = false
  recorded : ∃ reward,
    rewardFor chain (versionAt chain.length) (R.nextWeightMedian chain) e.block e.txs = some reward
      ∧ e = entryFor R chain e.block e.txs (requiredDifficulty chain) reward
  accepted : dbAccepts R chain e = true

def ValidChain (R : Rules H) (chain : List (Entry H)) : Prop :=
  ∀ pre e post, chain = pre ++ e :: post → Extends R pre e

section Chains

variable {R : Rules H}

theorem validChain_nil : ValidChain R [] := stepwise_nil

variable {chain : List (Entry H)} {e : Entry H}

theorem ValidChain.of_append {rest : List (Entry H)} (h : ValidChain R (chain ++ rest)) :
    ValidChain R chain := Stepwise.of_append h

theorem ValidChain.last (h : ValidChain R (chain ++ [e])) :
    Extends R chain e := Stepwise.last h

theorem ValidChain.concat (h : ValidChain R chain) (he : Extends R chain e) :
    ValidChain R (chain ++ [e]) := Stepwise.concat h he

theorem Extends.id_eq (h : Extends R chain e) : e.id = R.blockId e.block := by
  obtain ⟨reward, -, heq⟩ := h.recorded
  rw [heq]
  rfl

theorem Extends.new (h : Extends R chain e) :
    e.id ∉ idsOf chain ∧ (e.txs.map Tx.id).Nodup ∧ ∀ t ∈ e.txs, t.id ∉ txIdsOf chain := by
  have hdb := h.accepted
  simp only [dbAccepts, Bool.and_eq_true, decide_eq_true_eq, all_eq_true, Entry.txIds] at hdb
  obtain ⟨⟨⟨hid, hnodup⟩, hnew⟩, -⟩ := hdb
  refine ⟨hid, (nodup_cons.mp (of_decide_eq_true hnodup)).2, fun t ht => ?_⟩
  exact hnew t.id (mem_cons_of_mem _ (mem_map_of_mem ht))

end Chains

/-! ## The invariant -/

/-- A tracked node with a valid chain and a pool that fits it. -/
structure Node.Valid (R : Rules H) (n : Node H) : Prop extends Node.Tracked R n where
  chain : ValidChain R n.chain
  pool : PoolOk n.chain n.pool

/-- A valid node whose weight median has been brought up to date. -/
structure Node.Settled (R : Rules H) (n : Node H) : Prop extends Node.Valid R n where
  weight : n.weightMedian = R.nextWeightMedian n.chain

section Steps

variable {R : Rules H} {n n' : Node H}

theorem settled_init (R : Rules H) : (Node.init R).Settled R :=
  ⟨⟨tracked_init R, validChain_nil, poolOk_nil _⟩, rfl⟩

theorem Node.Valid.updateWeightLimit (h : n.Valid R) : (n.updateWeightLimit R).Settled R :=
  ⟨⟨h.toTracked.congr rfl rfl rfl, h.chain, h.pool⟩, rfl⟩

theorem Node.Valid.invalidate (h : n.Valid R) : n.invalidate.Valid R :=
  ⟨h.toTracked.invalidate, h.chain, h.pool⟩

theorem Node.Settled.invalidate (h : n.Settled R) : n.invalidate.Settled R :=
  ⟨h.toValid.invalidate, h.weight⟩

theorem Node.Settled.reorganize (h : n.Settled R) (height : Nat) :
    (n.reorganize height).Settled R :=
  ⟨⟨h.toTracked.reorganize height, h.chain, h.pool⟩, h.weight⟩

variable {pool : List (PoolTx H)} {e : Entry H} {now : Nat}

theorem Node.Valid.withPool (h : n.Valid R) (hpool : PoolOk n.chain pool) :
    ({ n with pool := pool } : Node H).Valid R :=
  ⟨h.toTracked.congr rfl rfl rfl, h.chain, hpool⟩

theorem Node.Settled.query (h : n.Settled R) : (n.getDifficultyForNextBlock R).2.Settled R :=
  ⟨⟨h.toTracked.query, h.chain, h.pool⟩, h.weight⟩

theorem PoolOk.pop {chain : List (Entry H)} (h : PoolOk (chain ++ [e]) pool)
    (he : Extends R chain e) :
    PoolOk chain (e.txs.foldl (poolKeep R) pool) := by
  obtain ⟨-, hnodup, hnew⟩ := he.new
  have hfresh : ∀ p ∈ pool, p.tx.id ∉ bodyIdsOf chain ∧ p.tx.id ∉ e.txs.map Tx.id := by
    intro p hp
    have hnot := h.fresh p hp
    rwa [bodyIdsOf_concat, mem_append, not_or] at hnot
  have hchain : PoolOk chain pool := ⟨h.nodup, fun p hp => (hfresh p hp).1, h.unpruned⟩
  refine hchain.foldl_poolKeep R hnodup (fun t ht hin => ?_)
    (fun t ht hin => hnew t ht (bodyIdsOf_subset chain hin)) he.unpruned
  obtain ⟨p, hp, hid⟩ := mem_map.mp hin
  exact (hfresh p hp).2 (mem_map.mpr ⟨t, ht, hid.symm⟩)

theorem Node.Valid.popBlock (h : n.Valid R) (hpop : popBlock R n = some (n', e)) :
    n'.Valid R ∧ n.chain = n'.chain ++ [e] ∧ n'.chain ≠ [] ∧ n'.alts = n.alts := by
  obtain ⟨htracked, hchain, hne, halts⟩ := h.toTracked.popBlock hpop
  have hvalid := h.chain
  have hpool := h.pool
  rw [hchain] at hvalid hpool
  have hext := hvalid.last
  have hunpruned : (e.txs.filter fun t : Tx H => !t.pruned) = e.txs :=
    filter_eq_self.mpr fun t ht => by simp [hext.unpruned t ht]
  refine ⟨⟨htracked, hvalid.of_append, ?_⟩, hchain, hne, halts⟩
  -- the pool of the popped node is a part of the old one with the block's transactions
  refine (hpool.pop hext).sublist ?_
  obtain ⟨-, -, rfl⟩ := popBlock_eq_some R hpop
  rw [hunpruned]
  exact validateIfChanged_sublist R _ _

theorem record_frame (R : Rules H) (n : Node H) (pool : List (PoolTx H)) (e : Entry H) :
    (n.record R pool e).chain = n.chain ++ [e] ∧ (n.record R pool e).alts = n.alts
      ∧ (n.record R pool e).weightMedian = R.nextWeightMedian (n.chain ++ [e])
      ∧ (n.record R pool e).pool.Sublist pool := by
  unfold Node.record
  dsimp only
  split
  · exact ⟨rfl, rfl, rfl, List.Sublist.refl _⟩
  · rw [validateIfChanged_frame]
    exact ⟨rfl, rfl, rfl, validateIfChanged_sublist R _ _⟩

theorem Node.Valid.record (h : n.Valid R) (hqueried : n.cache.topHash = topId R n.chain)
    (he : Extends R n.chain e) (hpool : PoolOk (n.chain ++ [e]) pool) :
    (n.record R pool e).Settled R := by
  have htracked : (n.record R pool e).Tracked R := h.toTracked.record hqueried he.new.1 he.version
  obtain ⟨hchain, -, hweight, hsub⟩ := record_frame R n pool e
  refine ⟨⟨htracked, ?_, ?_⟩, ?_⟩
  · rw [hchain]
    exact h.chain.concat he
  · rw [hchain]
    exact hpool.sublist hsub
  · rw [hchain]
    exact hweight

/-! ### Handling a block -/

/-- What becomes of a block for the main chain: nothing but bookkeeping, or an entry on top. -/
inductive Handled (R : Rules H) (now : Nat) (n : Node H) (b : Block H) : Node H × Bool → Prop
  | refused (n' : Node H) (hn' : n'.Settled R) (hchain : n'.chain = n.chain)
      (halts : n'.alts = n.alts) : Handled R now n b (n', false)
  | added (n' : Node H) (e : Entry H) (hn' : n'.Settled R) (he : Extends R n.chain e)
      (hblock : e.block = b) (hclock : b.timestamp ≤ futureLimit now)
      (hchain : n'.chain = n.chain ++ [e]) (halts : n'.alts = n.alts) : Handled R now n b (n', true)

theorem Handled.congr {b : Block H} {r : Node H × Bool} (h : Handled R now n b r)
    (hchain : n.chain = n'.chain) (halts : n.alts = n'.alts) : Handled R now n' b r := by
  cases h with
  | refused m hm hc ha => exact .refused m hm (hc.trans hchain) (ha.trans halts)
  | added m e hm he hblock hclock hc ha =>
    exact .added m e hm (hchain ▸ he) hblock hclock (hchain ▸ hc) (ha.trans halts)

theorem Node.Valid.admits_iff (h : n.Valid R) (now : Nat) (b : Block H) :
    admits R now n b = true ↔ b.prevId = topId R n.chain
      ∧ HardFork.Allows (versionAt n.chain.length) b.vote
      ∧ b.timestamp ≤ futureLimit now ∧ NotBefore (timestampsOf n.chain) b.timestamp := by
  simp only [admits, Bool.and_eq_true, decide_eq_true_eq, h.check,
    checkBlockTimestamp_iff_notBefore, and_assoc]

/-- A block that passed the checks of the header is refused for its transactions or its reward,
or added. -/
theorem Node.Settled.complete {b : Block H} (h : n.Settled R) (extra : List (Tx H))
    (hqueried : n.cache.topHash = topId R n.chain) (hadmits : admits R now n b = true)
    (hverifies : verifies R n.chain (versionAt n.chain.length) b
      (requiredDifficulty n.chain) = true) :
    Handled R now n b (n.complete R b (requiredDifficulty n.chain) extra) := by
  have hrefused : ∀ (pool : List (PoolTx H)) (invalid : List H) (success : Bool),
      PoolOk n.chain pool → Handled R now n b
        ({ n with pool := pool, invalid := invalid, batchSuccess := success }, false) :=
    fun pool invalid success hpool =>
      .refused _ ⟨⟨h.toTracked.congr rfl rfl rfl, h.chain, hpool⟩, h.weight⟩ rfl rfl
  have hcases := complete_cases R n b (requiredDifficulty n.chain) extra
  generalize n.complete R b (requiredDifficulty n.chain) extra = r at hcases ⊢
  cases hcases with
  | returned done left new invalid success hg => exact hrefused _ _ _ (h.pool.returnTxs R hg)
  | pruned left new hg =>
    exact hrefused _ n.invalid n.batchSuccess (h.pool.sublist (hg.left_eq ▸ filter_sublist))
  | recorded left new reward hg hnew hunpruned hreward hdb =>
    obtain ⟨hparent, hversion, hclock, hnotBefore⟩ := (h.toValid.admits_iff now b).mp hadmits
    rw [h.currentVersion, h.weight] at hreward
    generalize hentry : entryFor R n.chain b (new.map Taken.tx) (requiredDifficulty n.chain) reward
      = e at hdb ⊢
    have hblock : e.block = b := by rw [← hentry]; rfl
    have htxs : e.txs = new.map Taken.tx := by rw [← hentry]; rfl
    have hids : e.txs.map Tx.id = b.txHashes := by
      rw [htxs, map_map]
      exact hg.ids_eq
    have he : Extends R n.chain e := by
      refine ⟨hblock ▸ hparent, hblock ▸ hversion, hblock ▸ hnotBefore, hblock ▸ hverifies,
        hblock ▸ hids, ?_, ?_, ⟨reward, ?_, ?_⟩, hdb⟩
      · intro t ht
        obtain ⟨u, hu, rfl⟩ := mem_map.mp (htxs ▸ ht)
        exact (hnew u hu).2
      · intro t ht
        obtain ⟨u, hu, rfl⟩ := mem_map.mp (htxs ▸ ht)
        exact hunpruned u hu
      · rw [hblock, htxs]
        exact hreward
      · rw [hblock, htxs]
        exact hentry.symm
    have hpool : PoolOk (n.chain ++ [e]) left := by
      rw [hg.left_eq, ← hids]
      exact h.pool.push
    obtain ⟨hchain, halts, -, -⟩ := record_frame R n left e
    exact .added _ e (h.toValid.record hqueried he hpool) he hblock hclock hchain halts

theorem handle_spec (h : n.Settled R) (now : Nat) (b : Block H) (extra : List (Tx H)) :
    Handled R now n b (handleBlockToMainChain R now n b extra) := by
  rcases handle_cases R now n b extra with heq | heq | ⟨hadmits, hverifies, heq⟩
  · rw [heq]
    exact .refused n h rfl rfl
  · rw [heq]
    exact .refused _ h.query rfl rfl
  · rw [h.currentVersion, h.toTracked.query_fst] at hverifies
    rw [heq, h.toTracked.query_fst]
    exact (h.query.complete extra (queried_topHash R n) hadmits hverifies).congr rfl rfl

/-- Conversely, an entry that extends the chain is added again if the clock allows it and its
transactions are to be had. -/
theorem handle_of_extends {extra : List (Tx H)} (h : n.Settled R) (he : Extends R n.chain e)
    (hclock : e.block.timestamp ≤ futureLimit now)
    (hinj : Set.InjOn Tx.id {t | Offered n.pool extra t})
    (htxs : ∀ t ∈ e.txs, Offered n.pool extra t)
    (hextra : ∀ t ∈ extra, R.nonInputOk (versionAt n.chain.length) t = true) :
    ∃ n', handleBlockToMainChain R now n e.block extra = (n', true)
      ∧ n'.chain = n.chain ++ [e] := by
  have hadmits : admits R now n e.block = true :=
    (h.toValid.admits_iff now e.block).mpr ⟨he.parent, he.version, hclock, he.timestamp⟩
  obtain ⟨-, hnodup, hnew⟩ := he.new
  obtain ⟨reward, hreward, hentry⟩ := he.recorded
  obtain ⟨left, new, hcollect, htaken⟩ : ∃ left new, collectTxs R n.chain (e.txs.map Tx.id) n.pool
      extra [] = .all left ([] ++ new) ∧ new.map Taken.tx = e.txs :=
    collectTxs_eq_all hinj hnodup htxs fun t ht => ⟨hnew t ht, he.inputs t ht⟩
  have hunpruned : (e.txs.any Tx.pruned) = false := by
    rw [any_eq_false]
    exact fun t ht => by simp [he.unpruned t ht]
  refine ⟨Node.record R (n.getDifficultyForNextBlock R).2 left e, ?_, (record_frame R _ left e).1⟩
  unfold handleBlockToMainChain
  rw [if_neg (by simp [hadmits])]
  dsimp only
  rw [h.currentVersion, h.toTracked.query_fst, if_neg (by simp [he.verified]),
    if_neg (by simpa using hextra), Node.complete]
  rw [he.hashes, nil_append] at hcollect
  simp [hcollect, htaken, hunpruned, h.weight, h.currentVersion, hreward, ← hentry,
    he.accepted]

end Steps

end Glaciem.Chain
