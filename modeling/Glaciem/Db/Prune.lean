import Glaciem.Common.Pruning
import Glaciem.Db.Undo

/-!
# Glaciem — pruning the database

`prune_blockchain`, `update_pruning` and `check_pruning` are `BlockchainLMDB::prune_worker` in its
three modes. Pruning deletes rows of `txs_prunable`; which, a seed says: the blocks of one stripe in
eight and those near the top keep their data (`tools::has_unpruned_block`). `txs_prunable_tip` has
the transactions of the blocks near the top, whose data is still to be pruned. The loops commit
every 4096 deletions and go on where they were; nothing depends on it.
-/

namespace Glaciem.Db

/-! ## Seeds -/

def makePruningSeed (stripe logStripes : Nat) : Option Nat :=
  if logStripes ≤ 0x7 ∧ 0 < stripe ∧ stripe ≤ 1 <<< logStripes then
    some ((logStripes <<< 7) ||| (stripe - 1))
  else none

def hasUnprunedBlock (blockHeight blockchainHeight pruningSeed : Nat) : Bool :=
  hasUnprunedBlockFrom (blockHeight + CRYPTONOTE_PRUNING_TIP_BLOCKS) blockHeight blockchainHeight
    pruningSeed

/-! ## The worker -/

inductive PruneMode where
  | prune
  | update
  | check
  deriving DecidableEq

/-- What `prune_mode_check` logs as an error, with the height. -/
inductive Complaint where
  | notInTip (height : Nat)
  | dataFound (height : Nat)
  | dataMissing (height : Nat)
  deriving DecidableEq

namespace Tables

variable {H K P C : Type} [LinearOrder H] [LinearOrder K] (db : Tables H K P C)

def isV1Tx (txId : Nat) : Except DbError Bool :=
  match db.txsPruned.get? txId with
  | none => .error (.dbError "Failed to find transaction pruned data: ")
  | some base => .ok (decide (base.version ≤ 1))

def toPrune (seed txId blockHeight : Nat) : Except DbError Bool :=
  if hasUnprunedBlock blockHeight db.height seed then .ok false
  else (db.isV1Tx txId).map (!·)

structure Pruning where
  txsPrunable : Table Nat (List UInt8)
  txsPrunableTip : Table (Nat ×ₗ Nat) Unit

/-- The loop over the tip table, of which a row that has left the tip is taken out. -/
def pruneTip (seed : Nat) (st : Pruning) : List ((Nat ×ₗ Nat) × Unit) → Except DbError Pruning
  | [] => .ok st
  | row :: rest => do
    let (txId, blockHeight) := ofLex row.1
    if blockHeight + CRYPTONOTE_PRUNING_TIP_BLOCKS < db.height then
      let pruned ← db.toPrune seed txId blockHeight
      pruneTip seed
        { txsPrunable := if pruned then st.txsPrunable.del txId else st.txsPrunable
          txsPrunableTip := st.txsPrunableTip.del row.1 } rest
    else pruneTip seed st rest

/-- The loop over all transactions when pruning begins. -/
def pruneAll (seed : Nat) (st : Pruning) : List (H × TxIndex) → Except DbError Pruning
  | [] => .ok st
  | (_, index) :: rest => do
    let pruned ← db.toPrune seed index.txId index.blockId
    pruneAll seed
      { txsPrunable := if pruned then st.txsPrunable.del index.txId else st.txsPrunable
        txsPrunableTip :=
          if db.height ≤ index.blockId + CRYPTONOTE_PRUNING_TIP_BLOCKS then
            st.txsPrunableTip.put (toLex (index.txId, index.blockId)) ()
          else st.txsPrunableTip } rest

/-- The same loop in the mode that only checks. -/
def checkAll (seed : Nat) : List (H × TxIndex) → Except DbError (List Complaint)
  | [] => .ok []
  | (_, index) :: rest => do
    let pruned ← db.toPrune seed index.txId index.blockId
    let complaints ← checkAll seed rest
    let present := (db.txsPrunable.get? index.txId).isSome
    return (if db.height ≤ index.blockId + CRYPTONOTE_PRUNING_TIP_BLOCKS
          ∧ (db.txsPrunableTip.dups index.txId).isEmpty then [.notInTip index.blockId] else [])
      ++ (if pruned ∧ present then [.dataFound index.blockId] else [])
      ++ (if ¬ pruned ∧ ¬ present then [.dataMissing index.blockId] else [])
      ++ complaints

/-- From the seed it is given, the stored one and a random stripe; `none` if pruning is not enabled
and not to be. -/
def pruneSeed (mode : PruneMode) (pruningSeed random : Nat) : Except DbError (Option Nat) := do
  let logStripes := getPruningLogStripes pruningSeed
  if logStripes ≠ 0 ∧ logStripes ≠ CRYPTONOTE_PRUNING_LOG_STRIPES then
    throw (.dbError "Pruning seed not in range")
  let stripe := getPruningStripe pruningSeed
  if 1 <<< CRYPTONOTE_PRUNING_LOG_STRIPES < stripe then
    throw (.dbError "Pruning seed not in range")
  match db.pruningSeed with
  | none =>
    if mode ≠ .prune then return none
    let stripe := if stripe = 0 then random else stripe
    let seed ← orThrow (.runtimeError "stripe out of range")
      (makePruningSeed stripe CRYPTONOTE_PRUNING_LOG_STRIPES)
    return some seed
  | some data =>
    let stripe := if stripe = 0 then getPruningStripe data else stripe
    if getPruningStripe data ≠ stripe then
      throw (.dbError "Blockchain already pruned with different seed")
    if getPruningLogStripes data ≠ CRYPTONOTE_PRUNING_LOG_STRIPES then
      throw (.dbError "Blockchain already pruned with different base")
    let seed ← orThrow (.runtimeError "stripe out of range")
      (makePruningSeed stripe CRYPTONOTE_PRUNING_LOG_STRIPES)
    return some seed

def pruneWorker (mode : PruneMode) (pruningSeed random : Nat) :
    Except DbError (Tables H K P C × List Complaint) := do
  let some seed ← db.pruneSeed mode pruningSeed random | return (db, [])
  let st : Pruning := ⟨db.txsPrunable, db.txsPrunableTip⟩
  match mode with
  | .prune =>
    let st ← db.pruneAll seed st db.txIndices.rows
    return (db.withPruning st.txsPrunable st.txsPrunableTip (db.pruningSeed <|> some seed), [])
  | .update =>
    let st ← db.pruneTip seed st db.txsPrunableTip.rows
    return (db.withPruning st.txsPrunable st.txsPrunableTip db.pruningSeed, [])
  | .check =>
    let complaints ← db.checkAll seed db.txIndices.rows
    return (db, complaints)

def pruneBlockchain (pruningSeed random : Nat) : Except DbError (Tables H K P C) :=
  (db.pruneWorker .prune pruningSeed random).map Prod.fst

def updatePruning : Except DbError (Tables H K P C) := (db.pruneWorker .update 0 0).map Prod.fst

def checkPruning : Except DbError (List Complaint) := (db.pruneWorker .check 0 0).map Prod.snd

/-! ## What the loops leave -/

variable {db} {db' : Tables H K P C} {seed : Nat} {st st' : Pruning}

def Prunes (db : Tables H K P C) (seed txId blockHeight : Nat) : Prop :=
  db.toPrune seed txId blockHeight = .ok true

instance (seed txId blockHeight : Nat) : Decidable (db.Prunes seed txId blockHeight) :=
  match h : db.toPrune seed txId blockHeight with
  | .ok true => .isTrue h
  | .ok false => .isFalse fun h' => by rw [Prunes, h] at h'; cases h'
  | .error _ => .isFalse fun h' => by rw [Prunes, h] at h'; cases h'

def LeftTip (db : Tables H K P C) (key : Nat ×ₗ Nat) : Prop :=
  (ofLex key).2 + CRYPTONOTE_PRUNING_TIP_BLOCKS < db.height

instance (key : Nat ×ₗ Nat) : Decidable (db.LeftTip key) := inferInstanceAs (Decidable (_ < _))

theorem get?_prunable_step {t : Table Nat (List UInt8)} {pruned : Bool} {txId id : Nat}
    {here later : Prop} [Decidable here] [Decidable later]
    (hhere : here ↔ id = txId ∧ pruned = true) :
    (if later then none else (if pruned then t.del id else t).get? txId)
      = if here ∨ later then none else t.get? txId := by
  by_cases hlater : later
  · rw [if_pos hlater, if_pos (.inr hlater)]
  · rw [if_neg hlater]
    cases pruned with
    | false => rw [if_neg (by simp), if_neg (by simp [hhere, hlater])]
    | true =>
      rw [if_pos rfl, Table.get?_del]
      exact if_congr (by simp [hhere, hlater, eq_comm]) rfl rfl

theorem pruneTip_spec {rows : List ((Nat ×ₗ Nat) × Unit)} (h : db.pruneTip seed st rows = .ok st') :
    (∀ txId, st'.txsPrunable.get? txId
        = if ∃ row ∈ rows, (ofLex row.1).1 = txId ∧ db.LeftTip row.1
            ∧ db.Prunes seed txId (ofLex row.1).2
          then none else st.txsPrunable.get? txId)
      ∧ ∀ key, st'.txsPrunableTip.get? key
        = if (∃ row ∈ rows, row.1 = key) ∧ db.LeftTip key
          then none else st.txsPrunableTip.get? key := by
  induction rows generalizing st with
  | nil =>
    cases h
    simp
  | cons row rest ih =>
    simp only [List.exists_mem_cons_iff]
    unfold pruneTip at h
    dsimp only at h
    split at h
    · next hleft =>
      have hleft : db.LeftTip row.1 := hleft
      obtain ⟨pruned, hpruned, hrest⟩ := bind_eq_ok.mp h
      obtain ⟨hdata, htip⟩ := ih hrest
      refine ⟨fun txId => ?_, fun key => ?_⟩
      · rw [hdata txId]
        refine get?_prunable_step ⟨?_, ?_⟩
        · rintro ⟨rfl, -, hprunes⟩
          exact ⟨rfl, Except.ok.inj (hpruned.symm.trans hprunes)⟩
        · rintro ⟨rfl, rfl⟩
          exact ⟨rfl, hleft, hpruned⟩
      · rw [htip key, Table.get?_del]
        by_cases hkey : key = row.1
        · subst hkey
          simp [hleft]
        · have hkey' : ¬ row.1 = key := Ne.symm hkey
          simp [hkey, hkey']
    · next hnot =>
      have hnot : ¬ db.LeftTip row.1 := hnot
      obtain ⟨hdata, htip⟩ := ih h
      refine ⟨fun txId => ?_, fun key => ?_⟩
      · rw [hdata txId]
        exact if_congr ⟨.inr, fun h => h.resolve_left fun h => hnot h.2.1⟩ rfl rfl
      · rw [htip key]
        by_cases hkey : row.1 = key
        · subst hkey
          simp [hnot]
        · simp [hkey]

def InTip (db : Tables H K P C) (blockHeight : Nat) : Prop :=
  db.height ≤ blockHeight + CRYPTONOTE_PRUNING_TIP_BLOCKS

instance (blockHeight : Nat) : Decidable (db.InTip blockHeight) :=
    inferInstanceAs (Decidable (_ ≤ _))

theorem pruneAll_spec {rows : List (H × TxIndex)} (h : db.pruneAll seed st rows = .ok st') :
    (∀ txId, st'.txsPrunable.get? txId
        = if ∃ row ∈ rows, row.2.txId = txId ∧ db.Prunes seed txId row.2.blockId
          then none else st.txsPrunable.get? txId)
      ∧ ∀ key, st'.txsPrunableTip.get? key
        = if ∃ row ∈ rows, toLex (row.2.txId, row.2.blockId) = key ∧ db.InTip row.2.blockId
          then some () else st.txsPrunableTip.get? key := by
  induction rows generalizing st with
  | nil =>
    cases h
    simp
  | cons row rest ih =>
    obtain ⟨txHash, index⟩ := row
    simp only [List.exists_mem_cons_iff]
    obtain ⟨pruned, hpruned, hrest⟩ := bind_eq_ok.mp h
    obtain ⟨hdata, htip⟩ := ih hrest
    refine ⟨fun txId => ?_, fun key => ?_⟩
    · rw [hdata txId]
      refine get?_prunable_step ⟨?_, ?_⟩
      · rintro ⟨rfl, hprunes⟩
        exact ⟨rfl, Except.ok.inj (hpruned.symm.trans hprunes)⟩
      · rintro ⟨rfl, rfl⟩
        exact ⟨rfl, hpruned⟩
    · rw [htip key]
      by_cases hlater : ∃ row ∈ rest, toLex (row.2.txId, row.2.blockId) = key
        ∧ db.InTip row.2.blockId
      · rw [if_pos hlater, if_pos (.inr hlater)]
      · rw [if_neg hlater]
        by_cases hin : db.height ≤ index.blockId + CRYPTONOTE_PRUNING_TIP_BLOCKS
        · rw [if_pos hin, Table.get?_put]
          by_cases hkey : key = toLex (index.txId, index.blockId)
          · rw [if_pos hkey, if_pos (.inl ⟨hkey.symm, hin⟩)]
          · rw [if_neg hkey, if_neg (not_or.mpr ⟨fun h => hkey h.1.symm, hlater⟩)]
        · rw [if_neg hin, if_neg (not_or.mpr ⟨fun h => hin h.2, hlater⟩)]

theorem pruneWorker_eq_ok {mode : PruneMode} {pruningSeed random : Nat}
    {complaints : List Complaint}
    (h : db.pruneWorker mode pruningSeed random = .ok (db', complaints)) :
    (db.pruneSeed mode pruningSeed random = .ok none ∧ db' = db ∧ complaints = [])
      ∨ ∃ seed, db.pruneSeed mode pruningSeed random = .ok (some seed) ∧ match mode with
        | .prune => complaints = []
            ∧ ∃ st, db.pruneAll seed ⟨db.txsPrunable, db.txsPrunableTip⟩ db.txIndices.rows = .ok st
              ∧ db' = db.withPruning st.txsPrunable st.txsPrunableTip (db.pruningSeed <|> some seed)
        | .update => complaints = []
            ∧ ∃ st, db.pruneTip seed ⟨db.txsPrunable, db.txsPrunableTip⟩ db.txsPrunableTip.rows
              = .ok st
              ∧ db' = db.withPruning st.txsPrunable st.txsPrunableTip db.pruningSeed
        | .check => db' = db ∧ db.checkAll seed db.txIndices.rows = .ok complaints := by
  obtain ⟨found, hseed, h⟩ := bind_eq_ok.mp h
  cases found with
  | none =>
    cases h
    exact .inl ⟨hseed, rfl, rfl⟩
  | some seed =>
    refine .inr ⟨seed, hseed, ?_⟩
    cases mode with
    | prune | update =>
      obtain ⟨st, hst, h⟩ := bind_eq_ok.mp h
      cases h
      exact ⟨rfl, st, hst, rfl⟩
    | check =>
      obtain ⟨found, hfound, h⟩ := bind_eq_ok.mp h
      cases h
      exact ⟨rfl, hfound⟩

end Tables

end Glaciem.Db
