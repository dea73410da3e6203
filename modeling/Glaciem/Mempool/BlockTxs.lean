import Glaciem.Mempool.Indexes

/-!
# Glaciem — a block that fails after its transactions were taken

`handle_block_to_main_chain` of `cryptonote_core/blockchain.cpp` from where it takes the
transactions of a block out of the pool: the loop over their hashes, `return_txs_to_pool` and the
ways the call ends. The checks before do not touch the pool.
-/

namespace Glaciem.Mempool

open Option hiding filter_filter
open List Dict

variable {H K F : Type} [DecidableEq H] [DecidableEq K]

/-! ## The function -/

section Model

structure ExtraTx (K : Type) where
  tx : Transaction K
  weight : Nat

/-- A block whose header and coinbase have passed, and what the chain says about the rest of it. -/
structure IncomingBlock (H K : Type) where
  txHashes : List H
  extraBlockTxs : Dict H (ExtraTx K)
  coinbaseWeight : Nat
  hfVersion : Nat
  /-- The hash of the block is one of `m_blocks_hash_check`. -/
  fastCheck : Bool
  /-- The weight that `m_blocks_hash_check` has for the height, 0 for none. -/
  knownWeight : Nat
  txExists : H → Bool
  checkTxInputs : H → Transaction K → Bool
  /-- `validate_miner_transaction`, for a weight and a sum of fees. -/
  validateMinerTransaction : Nat → Nat → Bool
  /-- `add_block` of the database throws nothing. -/
  addBlock : List (H × Transaction K) → Bool

/-- The points of failure once transactions may have been taken. -/
inductive BlockFailure where
  | txExists
  | missingTx
  | wrongInputs
  | prunedWithoutWeight
  | minerTransaction
  | databaseAdd
  deriving DecidableEq

structure BlockTx (H K : Type) where
  id : H
  tx : Transaction K
  weight : Nat
  fee : Nat
  pruned : Bool
  foundInPool : Bool
  deriving DecidableEq

def PoolRecord.blockTx (id : H) (r : PoolRecord K) : BlockTx H K :=
  ⟨id, r.tx, r.txMeta.weight, r.txMeta.fee, r.txMeta.pruned, true⟩

def ExtraTx.blockTx (id : H) (e : ExtraTx K) : BlockTx H K :=
  ⟨id, e.tx, e.weight, e.tx.fee.getD 0, e.tx.pruned, false⟩

def IncomingBlock.inputsOk (B : IncomingBlock H K) (id : H) (tx : Transaction K) : Bool :=
  B.fastCheck || B.checkTxInputs id tx

namespace TxMemoryPool

/-- The loop over the hashes: each transaction comes from the pool or from those with the block. -/
def gatherTxs (E : Env H K F) (B : IncomingBlock H K) : List H → TxMemoryPool H K F →
    Dict H (ExtraTx K) → List (BlockTx H K) →
    Option BlockFailure × TxMemoryPool H K F × List (BlockTx H K)
  | [], p, _, txs => (none, p, txs)
  | id :: rest, p, extra, txs =>
    if B.txExists id then (some .txExists, p, txs)
    else
      match p.takeTx E id with
      | (some r, p) =>
        if B.inputsOk id r.tx then gatherTxs E B rest p extra (txs ++ [r.blockTx id])
        else (some .wrongInputs, p, txs ++ [r.blockTx id])
      | (none, p) =>
        match extra.get? id with
        | some e =>
          if B.inputsOk id e.tx then
            gatherTxs E B rest p (extra.erase id) (txs ++ [e.blockTx id])
          else (some .wrongInputs, p, txs ++ [e.blockTx id])
        | none => (some .missingTx, p, txs)

variable [LinearOrder F]

def returnTx (E : Env H K F) (C : ChainView H K) (version : Nat) (p : TxMemoryPool H K F)
    (t : BlockTx H K) : TxMemoryPool H K F :=
  (p.addTx E C t.tx t.id t.weight .block version version).2

def returnTxsToPool (E : Env H K F) (C : ChainView H K) (version : Nat) (txs : List (BlockTx H K))
    (p : TxMemoryPool H K F) : TxMemoryPool H K F :=
  (txs.filter BlockTx.foundInPool).foldl (returnTx E C version) p

/-- `handle_block_to_main_chain` from its loop on. The exit for pruned transactions is a jump to the
end that returns nothing to the pool. -/
def handleBlockTxs (E : Env H K F) (C : ChainView H K) (B : IncomingBlock H K)
    (p : TxMemoryPool H K F) : Option BlockFailure × TxMemoryPool H K F :=
  match gatherTxs E B B.txHashes p B.extraBlockTxs [] with
  | (some failure, p, txs) => (some failure, returnTxsToPool E C B.hfVersion txs p)
  | (none, p, txs) =>
    let pruned := txs.any BlockTx.pruned
    if pruned && B.knownWeight = 0 then (some .prunedWithoutWeight, p)
    else
      let weight := if pruned then B.knownWeight
        else B.coinbaseWeight + (txs.map BlockTx.weight).sum
      if !B.validateMinerTransaction weight (txs.map BlockTx.fee).sum then
        (some .minerTransaction, returnTxsToPool E C B.hfVersion txs p)
      else if !B.addBlock (txs.map fun t => (t.id, t.tx)) then
        (some .databaseAdd, returnTxsToPool E C B.hfVersion txs p)
      else (none, p)

end TxMemoryPool

end Model

/-! ## What a block finds -/

section Gathering

namespace IncomingBlock

/-- The transactions the loop comes to, and whether each hash has one with right inputs. -/
def finds (B : IncomingBlock H K) : List H → Dict H (PoolRecord K) → Dict H (ExtraTx K) →
    List (BlockTx H K) × Bool
  | [], _, _ => ([], true)
  | id :: rest, rows, extra =>
    if B.txExists id then ([], false)
    else
      match rows.get? id with
      | some r =>
        if B.inputsOk id r.tx then
          let found := B.finds rest (rows.erase id) extra
          (r.blockTx id :: found.1, found.2)
        else ([r.blockTx id], false)
      | none =>
        match extra.get? id with
        | some e =>
          if B.inputsOk id e.tx then
            let found := B.finds rest rows (extra.erase id)
            (e.blockTx id :: found.1, found.2)
          else ([e.blockTx id], false)
        | none => ([], false)

def takes (B : IncomingBlock H K) (rows : Dict H (PoolRecord K)) : List (BlockTx H K) :=
  (B.finds B.txHashes rows B.extraBlockTxs).1.filter BlockTx.foundInPool

/-- Each hash has a transaction with right inputs, one is pruned, and no weight is known for the
block. -/
def lacksWeight (B : IncomingBlock H K) (rows : Dict H (PoolRecord K)) : Bool :=
  (B.finds B.txHashes rows B.extraBlockTxs).2
    && (B.finds B.txHashes rows B.extraBlockTxs).1.any BlockTx.pruned && B.knownWeight = 0

end IncomingBlock

variable {B : IncomingBlock H K} {E : Env H K F} {ids : List H} {rows : Dict H (PoolRecord K)}
  {extra : Dict H (ExtraTx K)} {t : BlockTx H K}

section

omit [DecidableEq K]

theorem row_of_mem_finds (h : t ∈ (B.finds ids rows extra).1.filter BlockTx.foundInPool) :
    ∃ r, rows.get? t.id = some r ∧ t = r.blockTx t.id := by
  induction ids generalizing rows extra with
  | nil => cases h
  | cons id rest ih =>
    rw [IncomingBlock.finds] at h
    split at h
    · cases h
    · cases hr : rows.get? id with
      | some r =>
        have hthis : ∀ {t}, t = r.blockTx id →
            ∃ r, rows.get? t.id = some r ∧ t = r.blockTx t.id := by
          rintro _ rfl
          exact ⟨r, hr, rfl⟩
        simp only [hr] at h
        split at h
        · rcases mem_cons.mp (mem_of_mem_filter h) with heq | hmem
          · exact hthis heq
          · obtain ⟨r', hr', heq⟩ := ih (mem_filter.mpr ⟨hmem, (mem_filter.mp h).2⟩)
            by_cases hid : t.id = id
            · rw [hid, get?_erase_self] at hr'
              cases hr'
            · exact ⟨r', (get?_erase_ne _ hid).symm.trans hr', heq⟩
        · exact hthis (mem_singleton.mp (mem_of_mem_filter h))
      | none =>
        simp only [hr] at h
        split at h
        · split at h
          · exact ih h
          · cases h
        · cases h

theorem nodup_finds :
    (((B.finds ids rows extra).1.filter BlockTx.foundInPool).map BlockTx.id).Nodup := by
  induction ids generalizing rows extra with
  | nil => exact nodup_nil
  | cons id rest ih =>
    rw [IncomingBlock.finds]
    split
    · exact nodup_nil
    · split
      · split
        · refine nodup_cons.mpr ⟨fun hmem => ?_, ih⟩
          obtain ⟨t, ht, hid⟩ := mem_map.mp hmem
          obtain ⟨r, hr, -⟩ := row_of_mem_finds ht
          rw [hid] at hr
          exact absurd ((get?_erase_self _ _).symm.trans hr) (by simp)
        · exact nodup_singleton _
      · split
        · split
          · exact ih
          · exact nodup_nil
        · exact nodup_nil

end

namespace TxMemoryPool

def takeAll (E : Env H K F) (ids : List H) (p : TxMemoryPool H K F) : TxMemoryPool H K F :=
  ids.foldl (fun p id => (p.takeTx E id).2) p

theorem gatherTxs_eq (ids : List H) (extra : Dict H (ExtraTx K)) (p : TxMemoryPool H K F)
    (txs : List (BlockTx H K)) :
    (gatherTxs E B ids p extra txs).2
        = (takeAll E (((B.finds ids p.records extra).1.filter BlockTx.foundInPool).map BlockTx.id)
          p,
          txs ++ (B.finds ids p.records extra).1)
      ∧ (gatherTxs E B ids p extra txs).1.isNone = (B.finds ids p.records extra).2 := by
  induction ids generalizing p extra txs with
  | nil => exact ⟨by rw [gatherTxs, IncomingBlock.finds, append_nil]; rfl, rfl⟩
  | cons id rest ih =>
    rw [gatherTxs, IncomingBlock.finds]
    split
    · exact ⟨by rw [append_nil]; rfl, rfl⟩
    · unfold takeTx
      cases hr : p.records.get? id with
      | some r =>
        dsimp only
        have htake : (p.takeTx E id).2 = p.discard E id r := by rw [takeTx, hr]
        split
        · obtain ⟨hpool, hfailure⟩ := ih extra (p.discard E id r) (txs ++ [r.blockTx id])
          rw [records_discard] at hpool hfailure
          refine ⟨hpool.trans ?_, hfailure⟩
          rw [append_assoc]
          refine congrArg₂ Prod.mk ?_ rfl
          show _ = takeAll E _ (p.takeTx E id).2
          rw [htake]
        · refine ⟨congrArg₂ Prod.mk ?_ rfl, rfl⟩
          exact htake.symm
      | none =>
        dsimp only
        split
        · split
          · obtain ⟨hpool, hfailure⟩ := ih (extra.erase id) p (txs ++ [ExtraTx.blockTx id _])
            exact ⟨hpool.trans (by rw [append_assoc]; rfl), hfailure⟩
          · exact ⟨rfl, rfl⟩
        · exact ⟨by rw [append_nil]; rfl, rfl⟩

end TxMemoryPool

end Gathering

/-! ## The pool without what was taken -/

section Taken

namespace TxMemoryPool

variable {E : Env H K F} {p q : TxMemoryPool H K F} {ts : List (BlockTx H K)} {id : H}
  {r : PoolRecord K}

structure Lacks (p q : TxMemoryPool H K F) (ts : List (BlockTx H K)) : Prop where
  rows : ∀ id, q.records.get? id = if id ∈ ts.map BlockTx.id then none else p.records.get? id
  index : q.txsByFeeAndReceiveTime
    = p.txsByFeeAndReceiveTime.filter fun e => e.id ∉ ts.map BlockTx.id
  weight : q.txpoolWeight = p.txpoolWeight - (ts.map BlockTx.weight).sum
  maxWeight : q.txpoolMaxWeight = p.txpoolMaxWeight
  added : ∀ id, id ∈ ts.map BlockTx.id ∨ p.transient.added.get? id = none →
    q.transient.added.get? id = none
  reads : q.reads = p.reads + ts.length

theorem lacks_nil : Lacks p p [] := by
  refine ⟨fun id => rfl, ?_, rfl, rfl, ?_, rfl⟩
  · simp
  · rintro id (hid | hid)
    · cases hid
    · exact hid

theorem lacks_discard (hr : p.records.get? id = some r) :
    Lacks p (p.discard E id r) [r.blockTx id] := by
  obtain ⟨spent, hframe⟩ := discard_frame E p id r
  rw [hframe]
  refine ⟨fun id' => ?_, ?_, ?_, rfl, fun id' hid' => ?_, rfl⟩
  · by_cases hid : id' = id
    · subst hid
      simp [PoolRecord.blockTx]
    · simp [PoolRecord.blockTx, hid, get?_erase_ne _ hid]
  · simp [PoolRecord.blockTx, eraseById]
  · simp [PoolRecord.blockTx]
  · show (p.transient.added.erase id).get? id' = none
    by_cases hid : id' = id
    · rw [hid, get?_erase_self]
    · rw [get?_erase_ne _ hid]
      exact hid'.resolve_left (by simpa [PoolRecord.blockTx] using hid)

theorem Lacks.trans {t : BlockTx H K} {p₁ : TxMemoryPool H K F} (h : Lacks p p₁ [t])
    (h' : Lacks p₁ q ts) : Lacks p q (t :: ts) := by
  refine ⟨fun id => ?_, ?_, ?_, h'.maxWeight.trans h.maxWeight, fun id hid => ?_, ?_⟩
  · rw [h'.rows, h.rows]
    by_cases hid : id = t.id <;> by_cases hmem : id ∈ ts.map BlockTx.id <;> simp [hid, hmem]
  · rw [h'.index, h.index, filter_filter]
    refine filter_congr fun e _ => ?_
    by_cases hid : e.id = t.id <;> by_cases hmem : e.id ∈ ts.map BlockTx.id <;> simp [hid, hmem]
  · rw [h'.weight, h.weight, map_cons, sum_cons, Nat.sub_sub]
    simp
  · refine h'.added id ?_
    rw [map_cons, mem_cons] at hid
    rcases hid with (hid | hid) | hid
    · exact .inr (h.added id (.inl (by simpa using hid)))
    · exact .inl hid
    · exact .inr (h.added id (.inr hid))
  · rw [h'.reads, h.reads]
    simp only [length_cons, length_nil]
    omega

theorem lacks_takeAll (hnodup : (ts.map BlockTx.id).Nodup)
    (hrows : ∀ t ∈ ts, ∃ r, p.records.get? t.id = some r ∧ t = r.blockTx t.id) :
    Lacks p (takeAll E (ts.map BlockTx.id) p) ts := by
  induction ts generalizing p with
  | nil => exact lacks_nil
  | cons t rest ih =>
    obtain ⟨⟨r, hr, ht⟩, hrest⟩ := forall_mem_cons.mp hrows
    rw [map_cons, nodup_cons] at hnodup
    have htake : (p.takeTx E t.id).2 = p.discard E t.id r := by rw [takeTx, hr]
    have hfirst : Lacks p (p.takeTx E t.id).2 [t] := by
      rw [htake, ht]
      exact lacks_discard hr
    refine hfirst.trans (ih hnodup.2 fun t' ht' => ?_)
    obtain ⟨r', hr', heq⟩ := hrest t' ht'
    have hne : t'.id ≠ t.id := fun hid => hnodup.1 (mem_map.mpr ⟨t', ht', hid⟩)
    refine ⟨r', ?_, heq⟩
    rw [htake, records_discard, get?_erase_ne _ hne]
    exact hr'

end TxMemoryPool

end Taken

/-! ## Coming back -/

section Returned

variable [LinearOrder F]

def BlockTx.record (t : BlockTx H K) (receiveTime : Nat) : PoolRecord K :=
  ⟨t.tx, ⟨t.weight, t.fee, receiveTime, .block, t.tx.pruned⟩⟩

def BlockTx.entry (E : Env H K F) (t : BlockTx H K) (receiveTime : Nat) : FeeEntry H F :=
  ⟨E.addedRate t.fee t.weight, receiveTime, t.id⟩

namespace TxMemoryPool

def written (E : Env H K F) (p : TxMemoryPool H K F) (t : BlockTx H K) : TxMemoryPool H K F :=
  { p with
    records := p.records.set t.id (t.record (E.clock p.reads))
    spentKeyImages := p.spentKeyImages.insertAll t.tx.keyImages t.id
    txsByFeeAndReceiveTime := insertSorted (t.entry E (E.clock p.reads)) p.txsByFeeAndReceiveTime
    txpoolWeight := p.txpoolWeight + t.weight
    transient := p.transient.put (E.clock (p.reads + 1)) t.id
    reads := p.reads + 2 }

structure Free (p : TxMemoryPool H K F) (id : H) : Prop where
  row : p.records.get? id = none
  unlisted : id ∉ p.ids
  notAdded : p.transient.added.get? id = none

variable {E : Env H K F} {C : ChainView H K} {p q : TxMemoryPool H K F} {t : BlockTx H K}
  {ts : List (BlockTx H K)} {version : Nat}

theorem addTxWritten_taken (hfree : p.Free t.id) :
    addTxWritten E { p.tick with
        spentKeyImages := p.spentKeyImages.insertAll t.tx.keyImages t.id
        records := p.records.set t.id (t.record (E.clock p.reads)) } t.id
          (t.record (E.clock p.reads)) true
      = (true, (written E p t).prune E p.txpoolMaxWeight) := by
  have hunlisted : t.id ∉ p.txsByFeeAndReceiveTime.map FeeEntry.id := hfree.unlisted
  unfold addTxWritten addTxToTransientLists insertByFee
  simp only [tick, hfree.notAdded, isSome_none, Bool.false_eq_true, if_false, if_true, hunlisted]
  rfl

theorem addTx_taken (hfree : p.Free t.id) (hfee : t.tx.fee = some t.fee) :
    p.addTx E C t.tx t.id t.weight .block version version
      = (true, (written E p t).prune E p.txpoolMaxWeight) := by
  have hkeys : insertKeyImages t.id .block t.tx.keyImages p.tick
      = (true, { p.tick with
          spentKeyImages := p.spentKeyImages.insertAll t.tx.keyImages t.id }) := by
    refine insertKeyImages_eq (.inl rfl) (.inl ?_)
    rw [txMatchesCategory, show p.tick.records.get? t.id = none from hfree.row]
  have hrow : p.tick.records.get? t.id = none := hfree.row
  unfold addTx
  rw [hfee]
  simp only [passesChecks, decide_true, Bool.true_or, Bool.and_self, Bool.true_eq_false, if_false]
  split
  · unfold addTxRightInputs
    simp only [hrow, isSome_none, isNone_none, map_none, getD_none,
      Bool.false_and, Bool.or_true, Bool.false_eq_true, if_false, if_true, hkeys,
      upgradeRelayMethod_none]
    rw [show p.tick.records.erase t.id = p.records from erase_of_none hfree.row]
    exact addTxWritten_taken hfree
  · unfold addTxWrongInputs
    simp only [if_true, hkeys]
    exact addTxWritten_taken hfree

/-! ### Pruning -/

def keptAt (p : TxMemoryPool H K F) (id : H) : Bool :=
  (p.records.get? id).all PoolRecord.keptByBlock

/-- Pruning evicts nothing: the pool is not too heavy, or everything after the first entry of the
fee index is kept by a block. -/
def Spares (p : TxMemoryPool H K F) : Prop :=
  p.txpoolWeight ≤ p.txpoolMaxWeight
    ∨ ∀ e ∈ p.txsByFeeAndReceiveTime.tail, p.keptAt e.id = true

section

omit [LinearOrder F]

variable {ids : List H} {bytes : Nat}

theorem get?_pruneLoop_none {id : H} (h : p.records.get? id = none) :
    (pruneLoop E bytes ids p).records.get? id = none := by
  refine eq_none_iff_forall_ne_some.mpr fun r hr => ?_
  have hmem := items_pruneLoop_subset bytes ids p (get?_eq_some_iff _ |>.mp hr)
  rw [p.records.get?_eq_some_iff.mpr hmem] at h
  cases h

theorem pruneLoop_spared
    (h : p.txpoolWeight ≤ bytes ∨ ∀ id ∈ ids, p.keptAt id = true) :
    pruneLoop E bytes ids p = p := by
  induction ids with
  | nil => rfl
  | cons id rest ih =>
    rw [pruneLoop]
    split
    · rfl
    · next hover =>
      have hkept := forall_mem_cons.mp (h.resolve_left hover)
      have hrest := ih (.inr hkept.2)
      split
      · exact hrest
      · next r hr =>
        have hr' := hkept.1
        rw [keptAt, hr, all_some] at hr'
        rw [if_pos hr']
        exact hrest

theorem pruneLoop_evicts (hover : bytes < p.txpoolWeight)
    (h : ∃ id ∈ ids, p.keptAt id = false) :
    ∃ id, p.keptAt id = false ∧ (pruneLoop E bytes ids p).records.get? id = none := by
  induction ids with
  | nil =>
    obtain ⟨id, hid, -⟩ := h
    cases hid
  | cons id rest ih =>
    have hnext : p.keptAt id = true → ∃ id ∈ rest, p.keptAt id = false := by
      intro hkept
      obtain ⟨id', hid', hfree⟩ := h
      rcases mem_cons.mp hid' with rfl | hid'
      · rw [hkept] at hfree
        cases hfree
      · exact ⟨id', hid', hfree⟩
    rw [pruneLoop, if_neg (not_le.mpr hover)]
    cases hr : p.records.get? id with
    | none =>
      refine ih (hnext ?_)
      rw [keptAt, hr, all_none]
    | some r =>
      dsimp only
      split
      · next hkept =>
        refine ih (hnext ?_)
        rw [keptAt, hr, all_some, hkept]
      · next hfree =>
        refine ⟨id, ?_, get?_pruneLoop_none ?_⟩
        · rw [keptAt, hr, all_some]
          exact Bool.not_eq_true _ |>.mp hfree
        · rw [records_discard, get?_erase_self]

theorem prune_max (p : TxMemoryPool H K F) : p.prune E p.txpoolMaxWeight
    = pruneLoop E p.txpoolMaxWeight (p.txsByFeeAndReceiveTime.tail.map FeeEntry.id).reverse p := by
  unfold prune
  split <;> rfl

theorem Spares.prune (h : p.Spares) : p.prune E p.txpoolMaxWeight = p := by
  rw [prune_max]
  refine pruneLoop_spared (h.imp_right fun hkept id hid => ?_)
  obtain ⟨e, he, rfl⟩ := mem_map.mp (mem_reverse.mp hid)
  exact hkept e he

theorem prune_evicts (h : ¬ p.Spares) :
    ∃ id, p.keptAt id = false ∧ (p.prune E p.txpoolMaxWeight).records.get? id = none := by
  obtain ⟨hover, hfree⟩ := not_or.mp h
  rw [prune_max]
  refine pruneLoop_evicts (not_le.mp hover) ?_
  obtain ⟨e, hrest⟩ := not_forall.mp hfree
  obtain ⟨he, hkept⟩ := Classical.not_imp.mp hrest
  exact ⟨e.id, mem_reverse.mpr (mem_map_of_mem he), Bool.not_eq_true _ |>.mp hkept⟩

def evict (E : Env H K F) (p : TxMemoryPool H K F) (id : H) : TxMemoryPool H K F :=
  if p.keptAt id then p else (p.takeTx E id).2

theorem get?_evict_ne {id first : H} (h : id ≠ first) :
    (p.evict E first).records.get? id = p.records.get? id := by
  unfold evict takeTx
  split
  · rfl
  split
  · rfl
  · rw [records_discard, get?_erase_ne _ h]

theorem keptAt_foldl_evict {id : H} (h : id ∈ ids ∨ p.keptAt id = true) :
    (ids.foldl (evict E) p).keptAt id = true := by
  induction ids generalizing p with
  | nil => exact h.resolve_left not_mem_nil
  | cons first rest ih =>
    refine ih ?_
    by_cases hid : id = first
    · subst hid
      right
      unfold evict
      split
      · assumption
      · next hfree =>
        unfold takeTx
        split
        · next hnone => exact absurd (by rw [keptAt, hnone, all_none]) hfree
        · rw [keptAt, records_discard, get?_erase_self, all_none]
    · rw [keptAt, get?_evict_ne hid]
      exact h.imp_left fun hmem => (mem_cons.mp hmem).resolve_left hid

theorem get?_foldl_evict {id : H} (h : id ∉ ids) :
    (ids.foldl (evict E) p).records.get? id = p.records.get? id := by
  induction ids generalizing p with
  | nil => rfl
  | cons first rest ih =>
    obtain ⟨hne, hrest⟩ := not_or.mp (mt mem_cons.mpr h)
    exact (ih hrest).trans (get?_evict_ne hne)

theorem pruneLoop_eq (bytes : Nat) (ids : List H) (p : TxMemoryPool H K F) : ∃ n,
    pruneLoop E bytes ids p = (ids.take n).foldl (evict E) p
      ∧ ((pruneLoop E bytes ids p).txpoolWeight ≤ bytes ∨ ids.length ≤ n)
      ∧ ∀ m < n, bytes < ((ids.take m).foldl (evict E) p).txpoolWeight := by
  induction ids generalizing p with
  | nil => exact ⟨0, rfl, .inr le_rfl, fun m h => absurd h m.not_lt_zero⟩
  | cons id rest ih =>
    by_cases hfits : p.txpoolWeight ≤ bytes
    · rw [pruneLoop, if_pos hfits]
      exact ⟨0, rfl, .inl hfits, fun m h => absurd h m.not_lt_zero⟩
    have hloop : pruneLoop E bytes (id :: rest) p = pruneLoop E bytes rest (p.evict E id) := by
      rw [pruneLoop, if_neg hfits, evict, takeTx, keptAt]
      cases p.records.get? id with
      | none => rfl
      | some r => cases hkept : r.keptByBlock <;> simp [hkept]
    obtain ⟨n, heq, hend, hbefore⟩ := ih (p.evict E id)
    rw [hloop]
    refine ⟨n + 1, heq, hend.imp_right Nat.succ_le_succ, fun m hm => ?_⟩
    cases m with
    | zero => exact not_le.mp hfits
    | succ m => exact hbefore m (Nat.lt_of_succ_lt_succ hm)

theorem Free.shrinks {id : H} (h : p.Free id) (hshrinks : Relation.ReflTransGen (Shrinks E) p q) :
    q.Free id := by
  refine invariant_of_steps (P := fun p : TxMemoryPool H K F => p.Free id) (fun {p q} h hstep => ?_)
    hshrinks h
  cases hstep with
  | @discard id' r hr =>
    obtain ⟨spent, hframe⟩ := discard_frame E p id' r
    have hnone : ∀ {ν : Type} (d : Dict H ν), d.get? id = none → (d.erase id').get? id = none := by
      intro ν d hd
      by_cases hid : id = id'
      · rw [hid, get?_erase_self]
      · rw [get?_erase_ne _ hid, hd]
    rw [hframe]
    refine ⟨hnone _ h.row, fun hmem => h.unlisted ?_, hnone _ h.notAdded⟩
    exact (filter_sublist.map FeeEntry.id).subset hmem
  | tick | timedOut => exact ⟨h.row, h.unlisted, h.notAdded⟩

theorem Free.pruneLoop {id : H} (h : p.Free id) : (pruneLoop E bytes ids p).Free id :=
  h.shrinks (shrinks_pruneLoop _ _ _)

end

/-- After `prune` the pool is within the limit, 0 standing for the maximum, or all but the entry of
the highest rate are kept by a block. What goes are the lowest rates that may go, as long as the
pool does not fit. -/
theorem prune_evicts_lowest (E : Env H K F) (p : TxMemoryPool H K F) (bytes : Nat)
    (hnodup : p.ids.Nodup) (hlisted : p.records.keys ⊆ p.ids)
    (hsorted : p.txsByFeeAndReceiveTime.Pairwise fun a b => txFeeCompare b a = false) :
    let limit := if bytes = 0 then p.txpoolMaxWeight else bytes
    let q := p.prune E bytes
    (q.txpoolWeight ≤ limit ∨ ∀ id, q.keptAt id = true ∨ p.ids.head? = some id)
      ∧ (∀ e ∈ p.txsByFeeAndReceiveTime, ∀ e' ∈ p.txsByFeeAndReceiveTime,
        q.records.get? e.id ≠ p.records.get? e.id → txFeeCompare e e' = true →
        q.keptAt e'.id = true)
      ∧ ∃ n, q = (p.ids.tail.reverse.take n).foldl (evict E) p
        ∧ ∀ m < n, limit < ((p.ids.tail.reverse.take m).foldl (evict E) p).txpoolWeight := by
  intro limit q
  have hq : q = pruneLoop E limit p.ids.tail.reverse p := by
    rw [ids, ← map_tail]
    rfl
  obtain ⟨n, heq, hend, hbefore⟩ := pruneLoop_eq (E := E) limit p.ids.tail.reverse p
  rw [← hq] at heq hend
  refine ⟨hend.imp_right fun hall id => ?_, fun e he e' he' hgone hlower => ?_, n, heq, hbefore⟩
  · rw [heq, take_of_length_le hall]
    by_cases hid : id ∈ p.ids.tail
    · exact .inl (keptAt_foldl_evict (.inl (mem_reverse.mpr hid)))
    cases hr : p.records.get? id with
    | none => exact .inl (keptAt_foldl_evict (.inr (by rw [keptAt, hr, all_none])))
    | some r =>
      have hmem := hlisted (p.records.mem_keys.mpr ⟨r, hr⟩)
      cases hids : p.ids with
      | nil => simp [hids] at hmem
      | cons first rest =>
        rw [hids] at hmem hid
        rw [(mem_cons.mp hmem).resolve_right hid, head?_cons]
        exact .inr rfl
  · -- the loop has come to the end of the index from some entry on
    obtain ⟨k, hk⟩ : ∃ k, p.ids.tail.reverse.take n
        = ((p.txsByFeeAndReceiveTime.drop k).map FeeEntry.id).reverse :=
      ⟨_, by rw [take_reverse, drop_tail, ids, ← map_drop]⟩
    rw [hk] at heq
    have hin : e.id ∈ (p.txsByFeeAndReceiveTime.drop k).map FeeEntry.id := by
      by_contra hout
      exact hgone (heq ▸ get?_foldl_evict (mt mem_reverse.mp hout))
    obtain ⟨e₁, he₁, hid⟩ := List.mem_map.mp hin
    obtain rfl := inj_on_of_nodup_map hnodup (mem_of_mem_drop he₁) he hid
    rw [heq]
    refine keptAt_foldl_evict (.inl (mem_reverse.mpr (mem_map_of_mem ?_)))
    rw [← take_append_drop k p.txsByFeeAndReceiveTime] at hsorted he'
    refine (mem_append.mp he').resolve_left fun hfront => ?_
    rw [(pairwise_append.mp hsorted).2.2 e' hfront e₁ he₁] at hlower
    cases hlower

/-! ### All of them -/

theorem get?_written_ne {id : H} (h : id ≠ t.id) :
    (written E p t).records.get? id = p.records.get? id := get?_set_ne _ _ h

theorem Free.written {id : H} (h : p.Free id) (hne : id ≠ t.id) : (written E p t).Free id := by
  refine ⟨(get?_written_ne hne).trans h.row, fun hmem => ?_, ?_⟩
  · have hmem' := ((perm_insertSorted _ _).map FeeEntry.id).subset hmem
    rcases mem_cons.mp hmem' with heq | hmem'
    · exact hne heq
    · exact h.unlisted hmem'
  · exact (get?_set_ne _ _ hne).trans h.notAdded

theorem keptAt_written (id : H) :
    (written E p t).keptAt id = (decide (id = t.id) || p.keptAt id) := by
  by_cases hid : id = t.id
  · rw [hid, decide_eq_true rfl, Bool.true_or, keptAt]
    show ((p.records.set t.id _).get? t.id).all _ = true
    rw [get?_set_self]
    rfl
  · rw [decide_eq_false hid, Bool.false_or, keptAt, get?_written_ne hid, keptAt]

omit [DecidableEq H] in
theorem mem_tail_insertSorted {e e' : FeeEntry H F} {index : List (FeeEntry H F)}
    (h : e' ∈ index.tail) : e' ∈ (insertSorted e index).tail := by
  cases index with
  | nil => cases h
  | cons u rest =>
    rw [tail_cons] at h
    rw [insertSorted_cons]
    split
    · exact mem_cons_of_mem _ h
    · exact (perm_insertSorted e rest).mem_iff.mpr (mem_cons_of_mem _ h)

theorem Spares.of_written (h : (written E p t).Spares) (hfree : p.Free t.id) : p.Spares := by
  refine h.imp (fun hweight => Nat.le_trans (Nat.le_add_right _ _) hweight) fun hkept e he => ?_
  have hkept' := hkept e (mem_tail_insertSorted he)
  rw [keptAt_written] at hkept'
  by_cases hid : e.id = t.id
  · rw [hid, keptAt, hfree.row]
    rfl
  · rwa [decide_eq_false hid, Bool.false_or] at hkept'

theorem Spares.of_foldl_written (h : (ts.foldl (written E) p).Spares)
    (hfree : ∀ t ∈ ts, p.Free t.id) (hnodup : (ts.map BlockTx.id).Nodup) : p.Spares := by
  induction ts generalizing p with
  | nil => exact h
  | cons t rest ih =>
    obtain ⟨hfirst, hrest⟩ := forall_mem_cons.mp hfree
    rw [map_cons, nodup_cons] at hnodup
    refine (ih h (fun t' ht' => (hrest t' ht').written ?_) hnodup.2).of_written hfirst
    exact fun hid => hnodup.1 (mem_map.mpr ⟨t', ht', hid⟩)

theorem get?_returned_none {id : H} (hrow : p.records.get? id = none)
    (hid : id ∉ ts.map BlockTx.id) (hfree : ∀ t ∈ ts, p.Free t.id)
    (hnodup : (ts.map BlockTx.id).Nodup) (hfees : ∀ t ∈ ts, t.tx.fee = some t.fee) :
    (ts.foldl (returnTx E C version) p).records.get? id = none := by
  induction ts generalizing p with
  | nil => exact hrow
  | cons t rest ih =>
    obtain ⟨hfirst, hrest⟩ := forall_mem_cons.mp hfree
    obtain ⟨hfee, hfees⟩ := forall_mem_cons.mp hfees
    rw [map_cons, nodup_cons] at hnodup
    rw [map_cons, mem_cons, not_or] at hid
    rw [foldl_cons, returnTx, addTx_taken hfirst hfee]
    refine ih (get?_pruneLoop_none ((get?_written_ne hid.1).trans hrow)) hid.2 ?_ hnodup.2 hfees
    intro t' ht'
    refine ((hrest t' ht').written ?_).pruneLoop
    exact fun hid => hnodup.1 (mem_map.mpr ⟨t', ht', hid⟩)

theorem returned_iff (C : ChainView H K) (version : Nat) (hfree : ∀ t ∈ ts, p.Free t.id)
    (hnodup : (ts.map BlockTx.id).Nodup) (hfees : ∀ t ∈ ts, t.tx.fee = some t.fee) :
    (∀ id, ((ts.foldl (returnTx E C version) p).records.get? id).isSome = true
        ↔ (p.records.get? id).isSome = true ∨ id ∈ ts.map BlockTx.id)
      ↔ ts = [] ∨ (ts.foldl (written E) p).Spares := by
  induction ts generalizing p with
  | nil => exact iff_of_true (fun id => by simp) (.inl rfl)
  | cons t rest ih =>
    obtain ⟨hfirst, hrest⟩ := forall_mem_cons.mp hfree
    obtain ⟨hfee, hfees⟩ := forall_mem_cons.mp hfees
    rw [map_cons, nodup_cons] at hnodup
    have hrest' : ∀ t' ∈ rest, (written E p t).Free t'.id := fun t' ht' =>
      (hrest t' ht').written fun hid => hnodup.1 (mem_map.mpr ⟨t', ht', hid⟩)
    rw [foldl_cons, foldl_cons, returnTx, addTx_taken hfirst hfee]
    dsimp only
    by_cases hspares : (written E p t).Spares
    · -- nothing is evicted, and it is about the others
      have hpruned : (written E p t).prune E p.txpoolMaxWeight = written E p t := hspares.prune
      have hrows : ∀ id, (p.records.get? id).isSome = true ∨ id ∈ (t :: rest).map BlockTx.id
          ↔ ((written E p t).records.get? id).isSome = true ∨ id ∈ rest.map BlockTx.id := by
        intro id
        rw [map_cons, mem_cons]
        by_cases hid : id = t.id
        · have hwritten : ((written E p t).records.get? id).isSome = true := by
            rw [hid]
            exact congrArg Option.isSome (get?_set_self _ _ _)
          exact iff_of_true (.inr (.inl hid)) (.inl hwritten)
        · rw [get?_written_ne hid]
          simp only [hid, false_or]
      rw [hpruned]
      simp only [hrows]
      rw [ih hrest' hnodup.2 hfees]
      constructor
      · rintro (rfl | hlast)
        · exact .inr hspares
        · exact .inr hlast
      · rintro (hnil | hlast)
        · cases hnil
        · exact .inr hlast
    · -- something is evicted, and does not come back
      refine iff_of_false (fun hall => ?_) ?_
      · obtain ⟨id, hkept, hgone⟩ := prune_evicts (E := E) hspares
        change ((written E p t).prune E p.txpoolMaxWeight).records.get? id = none at hgone
        rw [keptAt_written, Bool.or_eq_false_iff] at hkept
        obtain ⟨hid, hkept⟩ := hkept
        have hrow : (p.records.get? id).isSome = true := by
          rw [keptAt] at hkept
          cases hr : p.records.get? id with
          | none =>
            rw [hr] at hkept
            cases hkept
          | some r => rfl
        have hnot : id ∉ rest.map BlockTx.id := by
          intro hmem
          obtain ⟨t', ht', rfl⟩ := mem_map.mp hmem
          rw [(hrest t' ht').row] at hrow
          cases hrow
        have hback := (hall id).mpr (.inl hrow)
        rw [get?_returned_none hgone hnot (fun t' ht' => (hrest' t' ht').pruneLoop) hnodup.2
          hfees] at hback
        cases hback
      · rintro (hnil | hlast)
        · cases hnil
        · exact hspares (hlast.of_foldl_written hrest' hnodup.2)

/-! ### The condition -/

/-- The entries with which transactions come back: the clock is read twice for each. -/
def returnEntries (E : Env H K F) : Nat → List (BlockTx H K) → List (FeeEntry H F)
  | _, [] => []
  | reads, t :: rest => t.entry E (E.clock reads) :: returnEntries E (reads + 2) rest

def StaysFirst (u : FeeEntry H F) (entries : List (FeeEntry H F)) : Prop :=
  ∀ e ∈ entries, txFeeCompare e u = false

omit [DecidableEq H] in
theorem forall_tail_foldl_insertSorted {P : FeeEntry H F → Prop} {entries : List (FeeEntry H F)}
    (hentries : ∀ e ∈ entries, P e) (index : List (FeeEntry H F)) :
    (∀ e ∈ (entries.foldl (fun index e => insertSorted e index) index).tail, P e)
      ↔ (∀ e ∈ index.tail, P e) ∧ ∀ u ∈ index.head?, P u ∨ StaysFirst u entries := by
  induction entries generalizing index with
  | nil =>
    refine iff_self_and.mpr fun _ u _ => .inr fun e he => ?_
    cases he
  | cons e rest ih =>
    obtain ⟨he, hrest⟩ := forall_mem_cons.mp hentries
    rw [foldl_cons, ih hrest]
    cases index with
    | nil =>
      refine iff_of_true ⟨fun e' he' => ?_, fun u hu => ?_⟩ ⟨fun e' he' => ?_, fun u hu => ?_⟩
      · cases he'
      · cases hu
        exact .inl he
      · cases he'
      · cases hu
    | cons u index =>
      rw [insertSorted_cons]
      cases hcompare : txFeeCompare e u with
      | true =>
        -- the new entry is the first one now
        have hnot : ¬ StaysFirst u (e :: rest) := fun hstays => by
          rw [hstays e mem_cons_self] at hcompare
          cases hcompare
        simp only [if_true, tail_cons, head?_cons, mem_some_iff, forall_eq',
          forall_mem_cons, he, true_or, and_true, hnot, or_false]
        exact and_comm
      | false =>
        have hstays : StaysFirst u (e :: rest) ↔ StaysFirst u rest :=
          forall_mem_cons.trans (and_iff_right hcompare)
        have htail : (∀ e' ∈ insertSorted e index, P e') ↔ ∀ e' ∈ index, P e' := by
          simp only [(perm_insertSorted e index).mem_iff]
          exact forall_mem_cons.trans (and_iff_right he)
        simp only [Bool.false_eq_true, if_false, tail_cons, head?_cons,
          mem_some_iff, forall_eq', htail, hstays]

theorem foldl_written (ts : List (BlockTx H K)) (p : TxMemoryPool H K F) :
    (ts.foldl (written E) p).txpoolWeight = p.txpoolWeight + (ts.map BlockTx.weight).sum
      ∧ (ts.foldl (written E) p).txpoolMaxWeight = p.txpoolMaxWeight
      ∧ (ts.foldl (written E) p).txsByFeeAndReceiveTime
        = (returnEntries E p.reads ts).foldl (fun index e => insertSorted e index)
            p.txsByFeeAndReceiveTime
      ∧ ∀ id, (ts.foldl (written E) p).keptAt id
        = (decide (id ∈ ts.map BlockTx.id) || p.keptAt id) := by
  induction ts generalizing p with
  | nil => exact ⟨rfl, rfl, rfl, fun id => rfl⟩
  | cons t rest ih =>
    obtain ⟨hweight, hmax, hindex, hkept⟩ := ih (written E p t)
    refine ⟨hweight.trans ?_, hmax, hindex, fun id => (hkept id).trans ?_⟩
    · rw [map_cons, sum_cons, ← add_assoc]
      rfl
    · rw [keptAt_written, ← Bool.or_assoc]
      refine congrArg (· || p.keptAt id) ?_
      rw [map_cons, Bool.or_comm, ← Bool.decide_or]
      simp only [mem_cons]

omit [DecidableEq H] [DecidableEq K] [LinearOrder F] in
theorem id_mem_of_mem_returnEntries {e : FeeEntry H F} {reads : Nat}
    (h : e ∈ returnEntries E reads ts) : e.id ∈ ts.map BlockTx.id := by
  induction ts generalizing reads with
  | nil => cases h
  | cons t rest ih =>
    rcases mem_cons.mp h with rfl | h
    · exact mem_cons_self
    · exact mem_cons_of_mem _ (ih h)

/-- The pool is not too heavy with what has come back, or everything is kept by a block but the
first of the rest, if it stays in front. -/
theorem spares_foldl_written_iff
    (hlisted : ∀ e ∈ p.txsByFeeAndReceiveTime, e.id ∉ ts.map BlockTx.id) :
    (ts.foldl (written E) p).Spares
      ↔ p.txpoolWeight + (ts.map BlockTx.weight).sum ≤ p.txpoolMaxWeight
        ∨ (∀ e ∈ p.txsByFeeAndReceiveTime.tail, p.keptAt e.id = true)
          ∧ ∀ u ∈ p.txsByFeeAndReceiveTime.head?,
            p.keptAt u.id = true ∨ StaysFirst u (returnEntries E p.reads ts) := by
  obtain ⟨hweight, hmax, hindex, hkept⟩ := foldl_written (E := E) ts p
  have hsame : ∀ e ∈ p.txsByFeeAndReceiveTime,
      (ts.foldl (written E) p).keptAt e.id = p.keptAt e.id := by
    intro e he
    rw [hkept, decide_eq_false (hlisted e he), Bool.false_or]
  unfold Spares
  rw [hweight, hmax, hindex, forall_tail_foldl_insertSorted]
  · refine or_congr_right (and_congr (forall₂_congr fun e he => ?_) (forall₂_congr fun u hu => ?_))
    · rw [hsame e (mem_of_mem_tail he)]
    · rw [hsame u (mem_of_mem_head? hu)]
  · intro e he
    rw [hkept, decide_eq_true (id_mem_of_mem_returnEntries he), Bool.true_or]

/-- When a block that fails leaves the pool as it was: it takes nothing, or there is no pruned
transaction without a weight for the block, and pruning evicts nothing once what it took has come
back. -/
def Undisturbed (E : Env H K F) (B : IncomingBlock H K) (p : TxMemoryPool H K F) : Prop :=
  let taken := B.takes p.records
  let left := p.txsByFeeAndReceiveTime.filter fun e => e.id ∉ taken.map BlockTx.id
  taken = [] ∨ B.lacksWeight p.records = false
    ∧ (max p.txpoolWeight (taken.map BlockTx.weight).sum ≤ p.txpoolMaxWeight
      ∨ (∀ e ∈ left.tail, p.keptAt e.id = true)
        ∧ ∀ u ∈ left.head?, p.keptAt u.id = true
          ∨ StaysFirst u (returnEntries E (p.reads + taken.length) taken))

end TxMemoryPool

end Returned

/-! ## A block that fails -/

section Failure

variable [LinearOrder F] {E : Env H K F} {C : ChainView H K} {B : IncomingBlock H K}
  {p q : TxMemoryPool H K F} {ts : List (BlockTx H K)}

open TxMemoryPool

theorem handleBlockTxs_failed (hfail : (handleBlockTxs E C B p).1 ≠ none) :
    (handleBlockTxs E C B p).2
      = if B.lacksWeight p.records then takeAll E ((B.takes p.records).map BlockTx.id) p
        else (B.takes p.records).foldl (returnTx E C B.hfVersion)
          (takeAll E ((B.takes p.records).map BlockTx.id) p) := by
  obtain ⟨hpool, hfailure⟩ := gatherTxs_eq (E := E) (B := B) B.txHashes B.extraBlockTxs p []
  unfold handleBlockTxs IncomingBlock.lacksWeight at *
  generalize gatherTxs E B B.txHashes p B.extraBlockTxs [] = result at *
  obtain ⟨failure, pool, txs⟩ := result
  rw [nil_append] at hpool
  obtain ⟨rfl, rfl⟩ := Prod.mk.inj hpool
  rw [← hfailure]
  cases failure with
  | some failure => rfl
  | none =>
    simp only [isNone_none, Bool.true_and] at hfail ⊢
    split
    · rfl
    · next hweight =>
      rw [if_neg hweight] at hfail
      generalize (if (B.finds B.txHashes p.records B.extraBlockTxs).1.any BlockTx.pruned = true then
        B.knownWeight else _) = weight at hfail ⊢
      split
      · rfl
      · next hminer =>
        rw [if_neg hminer] at hfail
        split
        · rfl
        · next hadd =>
          rw [if_neg hadd] at hfail
          exact absurd rfl hfail

section

omit [LinearOrder F]

theorem TxMemoryPool.Lacks.free (h : Lacks p q ts) {t : BlockTx H K} (ht : t ∈ ts) :
    q.Free t.id := by
  have hid : t.id ∈ ts.map BlockTx.id := mem_map_of_mem ht
  refine ⟨by rw [h.rows, if_pos hid], fun hmem => ?_, h.added _ (.inl hid)⟩
  rw [ids, h.index] at hmem
  obtain ⟨e, he, heq⟩ := mem_map.mp hmem
  have hnot : e.id ∉ ts.map BlockTx.id := by simpa using (mem_filter.mp he).2
  exact hnot (heq ▸ hid)

theorem TxMemoryPool.Lacks.isSome_or (h : Lacks p q ts)
    (hrows : ∀ t ∈ ts, ∃ r, p.records.get? t.id = some r ∧ t = r.blockTx t.id) (id : H) :
    (q.records.get? id).isSome = true ∨ id ∈ ts.map BlockTx.id
      ↔ (p.records.get? id).isSome = true := by
  rw [h.rows]
  by_cases hid : id ∈ ts.map BlockTx.id
  · obtain ⟨t, ht, rfl⟩ := mem_map.mp hid
    obtain ⟨r, hr, -⟩ := hrows t ht
    rw [hr]
    exact iff_of_true (.inr hid) rfl
  · rw [if_neg hid]
    simp only [hid, or_false]

end

theorem TxMemoryPool.Lacks.spares_iff (h : Lacks p q ts) :
    (ts.foldl (written E) q).Spares
      ↔ max p.txpoolWeight (ts.map BlockTx.weight).sum ≤ p.txpoolMaxWeight
        ∨ (∀ e ∈ (p.txsByFeeAndReceiveTime.filter fun e => e.id ∉ ts.map BlockTx.id).tail,
            p.keptAt e.id = true)
          ∧ ∀ u ∈ (p.txsByFeeAndReceiveTime.filter fun e => e.id ∉ ts.map BlockTx.id).head?,
            p.keptAt u.id = true ∨ StaysFirst u (returnEntries E (p.reads + ts.length) ts) := by
  have hlisted : ∀ e ∈ q.txsByFeeAndReceiveTime, e.id ∉ ts.map BlockTx.id := by
    intro e he
    rw [h.index] at he
    simpa using (mem_filter.mp he).2
  have hkept : ∀ e ∈ q.txsByFeeAndReceiveTime, q.keptAt e.id = p.keptAt e.id := by
    intro e he
    rw [keptAt, h.rows, if_neg (hlisted e he), keptAt]
  rw [spares_foldl_written_iff hlisted, h.weight, h.maxWeight, h.reads, Nat.sub_add_eq_max,
    ← h.index]
  refine or_congr_right (and_congr (forall₂_congr fun e he => ?_) (forall₂_congr fun u hu => ?_))
  · rw [hkept e (mem_of_mem_tail he)]
  · rw [hkept u (mem_of_mem_head? hu)]

theorem handleBlockTxs_keeps_iff (hcharged : Charged E p.records)
    (hfail : (handleBlockTxs E C B p).1 ≠ none) :
    (∀ id, ((handleBlockTxs E C B p).2.records.get? id).isSome = (p.records.get? id).isSome)
      ↔ Undisturbed E B p := by
  have hrows : ∀ t ∈ B.takes p.records, ∃ r, p.records.get? t.id = some r ∧ t = r.blockTx t.id :=
    fun t ht => row_of_mem_finds ht
  have hnodup : ((B.takes p.records).map BlockTx.id).Nodup := nodup_finds
  have hlacks : Lacks p (takeAll E ((B.takes p.records).map BlockTx.id) p) (B.takes p.records) :=
    lacks_takeAll hnodup hrows
  have hfees : ∀ t ∈ B.takes p.records, t.tx.fee = some t.fee := by
    intro t ht
    obtain ⟨r, hr, heq⟩ := hrows t ht
    have hfee := hcharged t.id r hr
    rw [heq]
    exact hfee.tx_fee.trans hfee.meta_fee
  rw [handleBlockTxs_failed hfail, Undisturbed]
  split
  · next hpruned =>
    -- nothing comes back
    simp only [hpruned, Bool.true_eq_false, false_and, or_false]
    constructor
    · intro hsame
      refine eq_nil_iff_forall_not_mem.mpr fun t ht => ?_
      obtain ⟨r, hr, -⟩ := hrows t ht
      have hgone := hsame t.id
      rw [(hlacks.free ht).row, hr] at hgone
      cases hgone
    · intro hnone
      rw [hnone]
      exact fun id => rfl
  · next hweight =>
    simp only [hweight, true_and]
    rw [← hlacks.spares_iff (E := E), ← returned_iff C B.hfVersion
      (fun t ht => hlacks.free ht) hnodup hfees]
    refine forall_congr' fun id => ?_
    rw [hlacks.isSome_or hrows, Bool.eq_iff_iff]

/-- For every pool reached from a database whose rows have the fees of their transactions, and every
block that fails once its transactions are being taken: the pool has the transactions it had just if
`Undisturbed` holds. -/
theorem failed_block_keeps_pool_iff (E : Env H K F) (db : Dict H (PoolRecord K)) (reads : Nat)
    (ops : List (PoolOp E)) (p : TxMemoryPool H K F) (hdb : Charged E db)
    (hrun : (pools E).exec (TxMemoryPool.new db reads) ops = some p) (C : ChainView H K)
    (B : IncomingBlock H K) (hfail : (handleBlockTxs E C B p).1 ≠ none) :
    (∀ id, ((handleBlockTxs E C B p).2.records.get? id).isSome = (p.records.get? id).isSome)
      ↔ Undisturbed E B p := by
  have hstep : ∀ {q : TxMemoryPool H K F} {op : PoolOp E} {q' : TxMemoryPool H K F},
      Charged E q.records → (pools E).step q op = some q' → Charged E q'.records := by
    intro q op q' h hstep
    cases hstep
    exact charged_of_moves (moves_after op) h h
  exact handleBlockTxs_keeps_iff ((pools E).invariant_of_exec hstep hdb hrun) hfail

end Failure

def twoTxs : TxMemoryPool Nat Nat Nat :=
  ((pools sampleEnv).exec (TxMemoryPool.new Dict.empty 0) [.init 0, sampleAdd 1 .fluff true,
    sampleAdd 2 .fluff true]).getD (TxMemoryPool.new Dict.empty 0)

theorem prune_evicts_lowest_sample : (twoTxs.prune sampleEnv 6).txpoolWeight ≤ 6
    ∨ ∀ id, (twoTxs.prune sampleEnv 6).keptAt id = true ∨ twoTxs.ids.head? = some id :=
  (TxMemoryPool.prune_evicts_lowest sampleEnv twoTxs 6 (by decide +kernel) (by decide +kernel)
    (by decide +kernel)).1

/-- A limit of 0 means the configured maximum: nothing is evicted. -/
theorem prune_zero_keeps_all :
    ((twoTxs.prune sampleEnv 0).txpoolWeight, (twoTxs.prune sampleEnv 0).records.keys,
      (twoTxs.prune sampleEnv 0).keptAt 2, twoTxs.ids.head?) = (15, [1, 2], false, some 1) := by
  decide +kernel

/-- A block with the transactions 3 and 2 that fails on its coinbase. -/
def unpaidBlock : IncomingBlock Nat Nat where
  txHashes := [3, 2]
  extraBlockTxs := Dict.empty
  coinbaseWeight := 1
  hfVersion := 1
  fastCheck := false
  knownWeight := 0
  txExists _ := false
  checkTxInputs _ _ := true
  validateMinerTransaction _ _ := false
  addBlock _ := true

theorem failed_block_keeps_pool_iff_sample : ∃ p : TxMemoryPool Nat Nat Nat,
    (pools sampleEnv).exec (TxMemoryPool.new Dict.empty 0) [.init 0, sampleAdd 1 .fluff true,
        sampleAdd 2 .fluff true, sampleAdd 3 .fluff true] = some p
      ∧ p.records.keys = [1, 2, 3]
      ∧ (TxMemoryPool.handleBlockTxs sampleEnv (sampleView true) unpaidBlock p).1
        = some .minerTransaction
      ∧ ∀ id, ((TxMemoryPool.handleBlockTxs sampleEnv
        (sampleView true) unpaidBlock p).2.records.get?
          id).isSome = (p.records.get? id).isSome := by
  have hrun : ((pools sampleEnv).exec (TxMemoryPool.new Dict.empty 0) [.init 0,
      sampleAdd 1 .fluff true, sampleAdd 2 .fluff true, sampleAdd 3 .fluff true]).map (fun p =>
        (p.records.keys, (TxMemoryPool.handleBlockTxs sampleEnv (sampleView true) unpaidBlock p).1,
          unpaidBlock.lacksWeight p.records, decide (max p.txpoolWeight
            ((unpaidBlock.takes p.records).map BlockTx.weight).sum ≤ p.txpoolMaxWeight)))
      = some ([1, 2, 3], some .minerTransaction, false, true) := by
    decide +kernel
  obtain ⟨p, hp, hvalues⟩ := map_eq_some_iff.mp hrun
  simp only [Prod.mk.injEq] at hvalues
  obtain ⟨hkeys, hfailure, hpruned, hweight⟩ := hvalues
  refine ⟨p, hp, hkeys, hfailure, ?_⟩
  refine (failed_block_keeps_pool_iff sampleEnv Dict.empty 0 _ p ?_ hp (sampleView true) unpaidBlock
    (by simp [hfailure])).mpr (.inr ⟨hpruned, .inl (of_decide_eq_true hweight)⟩)
  intro id r hr
  cases hr

/-- A block whose hash is known but not its weight: transaction 1 is in the pool, and 2 came with
the block without its signatures. -/
def prunedBlock : IncomingBlock Nat Nat where
  txHashes := [1, 2]
  extraBlockTxs := Dict.empty.set 2 ⟨{ sampleEnv.content 2 with pruned := true }, 10⟩
  coinbaseWeight := 1
  hfVersion := 1
  fastCheck := true
  knownWeight := 0
  txExists _ := false
  checkTxInputs _ _ := true
  validateMinerTransaction _ _ := true
  addBlock _ := true

theorem exists_handled {ops : List (PoolOp sampleEnv)} {B : IncomingBlock Nat Nat}
    {keys left : List Nat}
    {failure : Option BlockFailure}
    (h : ((pools sampleEnv).exec (TxMemoryPool.new Dict.empty 0) ops).map (fun p =>
        (p.records.keys, (TxMemoryPool.handleBlockTxs sampleEnv (sampleView true) B p).1,
          (TxMemoryPool.handleBlockTxs sampleEnv (sampleView true) B p).2.records.keys))
      = some (keys, failure, left)) :
    ∃ p, (pools sampleEnv).exec (TxMemoryPool.new Dict.empty 0) ops = some p ∧ p.records.keys = keys
      ∧ (TxMemoryPool.handleBlockTxs sampleEnv (sampleView true) B p).1 = failure
      ∧ (TxMemoryPool.handleBlockTxs sampleEnv (sampleView true) B p).2.records.keys = left := by
  obtain ⟨p, hp, hvalues⟩ := map_eq_some_iff.mp h
  simp only [Prod.mk.injEq] at hvalues
  exact ⟨p, hp, hvalues⟩

/-- Transaction 1 is lost to a block that is refused for a pruned transaction; or, in a pool opened
with a lower limit than before, to a block that took others and fails. -/
theorem failed_block_loses_transactions :
    (∃ p : TxMemoryPool Nat Nat Nat,
      (pools sampleEnv).exec (TxMemoryPool.new Dict.empty 0) [.init 0, sampleAdd 1 .fluff true]
          = some p
        ∧ p.records.keys = [1]
        ∧ (TxMemoryPool.handleBlockTxs sampleEnv (sampleView true) prunedBlock p).1
          = some .prunedWithoutWeight
        ∧ (TxMemoryPool.handleBlockTxs sampleEnv (sampleView true) prunedBlock p).2.records.keys
          = [])
      ∧ ∃ p : TxMemoryPool Nat Nat Nat,
        (pools sampleEnv).exec (TxMemoryPool.new Dict.empty 0) [.init 0, sampleAdd 4 .fluff true,
            sampleAdd 1 .fluff true, sampleAdd 2 .fluff true, sampleAdd 3 .fluff true, .init 30]
            = some p
          ∧ p.records.keys = [4, 1, 2, 3]
          ∧ (TxMemoryPool.handleBlockTxs sampleEnv (sampleView true) unpaidBlock p).1
            = some .minerTransaction
          ∧ (TxMemoryPool.handleBlockTxs sampleEnv (sampleView true) unpaidBlock p).2.records.keys
            = [4, 3, 2] := by
  exact ⟨exists_handled (by decide +kernel), exists_handled (by decide +kernel)⟩

end Glaciem.Mempool
