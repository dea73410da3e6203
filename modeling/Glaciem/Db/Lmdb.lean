import Glaciem.Lib.Table

/-!
# Glaciem — the tables of the database

`BlockchainDB::add_block` and `pop_block` with the functions of `BlockchainLMDB` they call: how a
block with its transactions is spread over twelve tables and taken out of them again.

* `Tables` — the tables, each ordered by what LMDB compares its rows by.

A blob stands for what it is parsed to, so a transaction is stored as its base and its prunable
part. A call that throws leaves no trace: the write transaction around it is aborted. Counters are
far below 64 bits.
-/

namespace Glaciem.Db

/-! ## Blocks and transactions -/

section Data

inductive TxIn (K : Type) where
  | gen
  | toScript
  | toScripthash
  | toKey (kImage : K)
  deriving DecidableEq

/-- `tx_out`. The key is what `get_output_public_key` gives. -/
structure TxOut (P : Type) where
  amount : Nat
  key : Option P
  deriving DecidableEq

/-- The part of a transaction that is never pruned. Of the ring signatures it has the masks. -/
structure TxBase (K P C : Type) where
  version : Nat
  unlockTime : Nat
  vin : List (TxIn K)
  vout : List (TxOut P)
  outPk : List C
  deriving DecidableEq

/-- A transaction; `prunable` is the rest of its blob. -/
structure Tx (K P C : Type) extends TxBase K P C where
  prunable : List UInt8
  deriving DecidableEq

structure Block (H K P C : Type) where
  majorVersion : Nat
  minorVersion : Nat
  timestamp : Nat
  prevId : H
  nonce : Nat
  minerTx : Tx K P C
  txHashes : List H
  deriving DecidableEq

structure NewBlock (H K P C : Type) where
  block : Block H K P C
  blockWeight : Nat
  longTermBlockWeight : Nat
  cumulativeDifficulty : Nat
  coinsGenerated : Nat
  txs : List (Tx K P C)
  deriving DecidableEq

structure Env (H K P C : Type) where
  blockHash : Block H K P C → H
  txHash : Tx K P C → H
  prunableHash : Tx K P C → H
  zeroCommit : Nat → C

end Data

/-! ## The tables -/

section Tables

/-- `mdb_block_info`, without the height. -/
structure BlockInfo (H : Type) where
  timestamp : Nat
  coins : Nat
  weight : Nat
  difficulty : Nat
  hash : H
  cumRct : Nat
  longTermBlockWeight : Nat
  deriving DecidableEq

/-- `txindex`, without the hash. -/
structure TxIndex where
  txId : Nat
  unlockTime : Nat
  blockId : Nat
  deriving DecidableEq

/-- Without the amount index. Rows of other amounts than 0 are of the type `pre_rct_outkey`, which
has no commitment. -/
structure OutKey (P C : Type) where
  outputId : Nat
  pubkey : P
  unlockTime : Nat
  height : Nat
  commitment : Option C
  deriving DecidableEq

variable (H K P C : Type) [LinearOrder H] [LinearOrder K]

structure Tables where
  blocks : Table Nat (Block H K P C) := .empty
  blockInfo : Table Nat (BlockInfo H) := .empty
  blockHeights : Table H Nat := .empty
  txIndices : Table H TxIndex := .empty
  txsPruned : Table Nat (TxBase K P C) := .empty
  txsPrunable : Table Nat (List UInt8) := .empty
  txsPrunableHash : Table Nat H := .empty
  /-- by transaction and height -/
  txsPrunableTip : Table (Nat ×ₗ Nat) Unit := .empty
  txOutputs : Table Nat (List Nat) := .empty
  outputTxs : Table Nat (H × Nat) := .empty
  /-- by amount and index -/
  outputAmounts : Table (Nat ×ₗ Nat) (OutKey P C) := .empty
  spentKeys : Table K Unit := .empty
  /-- `pruning_seed` of the properties -/
  pruningSeed : Option Nat := none

end Tables

inductive DbError where
  | blockExists (message : String)
  | blockParentDne (message : String)
  | blockDne (message : String)
  | txExists (message : String)
  | txDne (message : String)
  | outputDne (message : String)
  | keyImageExists (message : String)
  | dbError (message : String)
  | runtimeError (message : String)
  deriving DecidableEq

def orThrow {α : Type} (e : DbError) : Option α → Except DbError α
  | some a => .ok a
  | none => .error e

namespace Tables

variable {H K P C : Type} [LinearOrder H] [LinearOrder K] (E : Env H K P C) (db : Tables H K P C)

def height : Nat := db.blocks.size

def getTxCount : Nat := db.txsPruned.size

def numOutputs : Nat :=
  match db.outputTxs.last? with
  | none => 0
  | some row => 1 + row.1

def getBlockchainPruningSeed : Nat := db.pruningSeed.getD 0

/-! ## Adding a block -/

def addSpentKey (kImage : K) : Except DbError (Tables H K P C) := do
  let spentKeys ← orThrow
    (.keyImageExists "Attempting to add spent key image that's already in the db")
    (db.spentKeys.putNew kImage ())
  return { db with spentKeys := spentKeys }

def addInputs (db : Tables H K P C) : List (TxIn K) → Except DbError (Tables H K P C)
  | [] => .ok db
  | .toKey kImage :: rest => do
    let db ← db.addSpentKey kImage
    addInputs db rest
  | .gen :: rest => addInputs db rest
  | _ :: _ => .error (.runtimeError "Unexpected input type, aborting")

def addTransactionData (tx : Tx K P C) (txHash txPrunableHash : H) :
    Except DbError (Tables H K P C × Nat) := do
  let txId := db.getTxCount
  if let some index := db.txIndices.get? txHash then
    throw (.txExists ("Attempting to add transaction that's already in the db (tx id "
      ++ toString index.txId ++ ")"))
  let txsPruned ← orThrow (.dbError "Failed to add pruned tx blob to db transaction: ")
    (db.txsPruned.append txId tx.toTxBase)
  let txsPrunable ← orThrow (.dbError "Failed to add prunable tx blob to db transaction: ")
    (db.txsPrunable.append txId tx.prunable)
  let txsPrunableHash ←
    if 1 < tx.version then
      orThrow (.dbError "Failed to add prunable tx prunable hash to db transaction: ")
        (db.txsPrunableHash.append txId txPrunableHash)
    else pure db.txsPrunableHash
  return ({ db with
    txIndices := db.txIndices.put txHash ⟨txId, tx.unlockTime, db.height⟩
    txsPruned := txsPruned
    txsPrunable := txsPrunable
    txsPrunableTip :=
      if db.getBlockchainPruningSeed ≠ 0 then db.txsPrunableTip.put (toLex (txId, db.height)) ()
      else db.txsPrunableTip
    txsPrunableHash := txsPrunableHash }, txId)

/-- `add_output`. The amount index is the number of outputs of the amount. -/
def addOutput (txHash : H) (amount : Nat) (key : Option P) (localIndex unlockTime : Nat)
    (commitment : Option C) : Except DbError (Tables H K P C × Nat) := do
  let outputId := db.numOutputs
  let pubkey ← orThrow (.dbError "Could not get an output public key from a tx output.") key
  if amount = 0 ∧ commitment.isNone then
    throw (.dbError "RCT output without commitment")
  let outputTxs ← orThrow (.dbError "Failed to add output tx hash to db transaction: ")
    (db.outputTxs.append outputId (txHash, localIndex))
  let amountIndex := (db.outputAmounts.dups amount).length
  let outputAmounts ← orThrow (.dbError "Failed to add output pubkey to db transaction: ")
    (db.outputAmounts.appendDup amount amountIndex
      ⟨outputId, pubkey, unlockTime, db.height, if amount = 0 then commitment else none⟩)
  return ({ db with outputTxs := outputTxs, outputAmounts := outputAmounts }, amountIndex)

end Tables

section Stored

variable {K P C : Type}

variable (tx : TxBase K P C)

/-- A transaction with an input of the type `txin_gen`, as `add_transaction` sees it. -/
def TxBase.minerTx : Bool := tx.vin.any fun
  | .gen => true
  | _ => false

def TxBase.isPseudoRct : Bool :=
  decide (2 ≤ tx.version) && match tx.vin with
    | [.gen] => true
    | _ => false

def TxBase.storedAmount (out : TxOut P) : Nat :=
  if tx.minerTx ∧ tx.version = 2 then 0 else out.amount

/-- The amount under which it is looked up for its removal. -/
def TxBase.removedAmount (out : TxOut P) : Nat := if tx.isPseudoRct then 0 else out.amount

end Stored

namespace Tables

variable {H K P C : Type} [LinearOrder H] [LinearOrder K] (E : Env H K P C) (db : Tables H K P C)

def addOutputs (tx : TxBase K P C) (txHash : H) (db : Tables H K P C) :
    Nat → List (TxOut P) → Except DbError (Tables H K P C × List Nat)
  | _, [] => .ok (db, [])
  | i, out :: rest => do
    let commitment :=
      -- the outputs of a coinbase have the identity mask
      if tx.minerTx ∧ tx.version = 2 then some (E.zeroCommit out.amount)
      else if 1 < tx.version then tx.outPk[i]? else none
    let (db, index) ← db.addOutput txHash (tx.storedAmount out) out.key i tx.unlockTime commitment
    let (db, indices) ← addOutputs tx txHash db (i + 1) rest
    return (db, index :: indices)

def addTxAmountOutputIndices (txId : Nat) (indices : List Nat) :
    Except DbError (Tables H K P C) := do
  let txOutputs ← orThrow
    (.dbError "Failed to add <tx hash, amount output index array> to db transaction: ")
    (db.txOutputs.append txId indices)
  return { db with txOutputs := txOutputs }

def addTransaction (tx : Tx K P C) (txHash : H) : Except DbError (Tables H K P C) := do
  let db ← db.addInputs tx.vin
  let (db, txId) ← db.addTransactionData tx txHash (E.prunableHash tx)
  let (db, indices) ← addOutputs E tx.toTxBase txHash db 0 tx.vout
  db.addTxAmountOutputIndices txId indices

/-- The transactions of a block after the miner's, each under the hash the block has for it. -/
def addTransactions (db : Tables H K P C) : List (Tx K P C × H) → Except DbError (Tables H K P C)
  | [] => .ok db
  | (tx, txHash) :: rest => do
    let db ← db.addTransaction E tx txHash
    addTransactions db rest

/-- The checks of `BlockchainLMDB::add_block`: the block is new, and its parent is the top block. -/
def checkNewBlock (blkHash prevId : H) : Except DbError Unit :=
  if (db.blockHeights.get? blkHash).isSome then
    .error (.blockExists "Attempting to add block that's already in the db")
  else if db.height = 0 then .ok ()
  else
    match db.blockHeights.get? prevId with
    | none => .error
        (.dbError "Failed to get top block hash to check for new block's parent: ")
    | some prev =>
      if prev = db.height - 1 then .ok ()
      else .error (.blockParentDne "Top block is not new block's parent")

/-- `bi_cum_rct`: from version 4 on the count of the block before is added. -/
def cumRct (majorVersion numRctOuts : Nat) : Except DbError Nat :=
  if 4 ≤ majorVersion then
    match (if db.height = 0 then none else db.blockInfo.get? (db.height - 1)) with
    | none => .error (.blockDne "Failed to get block info: ")
    | some prev => .ok (numRctOuts + prev.cumRct)
  else .ok numRctOuts

def addBlockData (b : NewBlock H K P C) (numRctOuts : Nat) : Except DbError (Tables H K P C) := do
  let blkHash := E.blockHash b.block
  let height := db.height
  db.checkNewBlock blkHash b.block.prevId
  let blocks ← orThrow (.dbError "Failed to add block blob to db transaction: ")
    (db.blocks.append height b.block)
  let cumRct ← db.cumRct b.block.majorVersion numRctOuts
  let blockInfo ← orThrow (.dbError "Failed to add block info to db transaction: ")
    (db.blockInfo.append height ⟨b.block.timestamp, b.coinsGenerated, b.blockWeight,
      b.cumulativeDifficulty, blkHash, cumRct, b.longTermBlockWeight⟩)
  return { db with
    blocks := blocks
    blockInfo := blockInfo
    blockHeights := db.blockHeights.put blkHash height }

end Tables

/-- The outputs of a block that `add_block` counts as RingCT outputs. -/
def NewBlock.numRctOuts {H K P C : Type} (b : NewBlock H K P C) : Nat :=
  (if b.block.minerTx.version = 2 then b.block.minerTx.vout.length else 0)
    + (b.txs.map fun tx => tx.vout.countP fun out => out.amount = 0).sum

namespace Tables

variable {H K P C : Type} [LinearOrder H] [LinearOrder K] (E : Env H K P C) (db : Tables H K P C)

def addBlock (b : NewBlock H K P C) : Except DbError (Tables H K P C) := do
  if b.block.txHashes.length ≠ b.txs.length then
    throw (.runtimeError "Inconsistent tx/hashes sizes")
  let db ← db.addTransaction E b.block.minerTx (E.txHash b.block.minerTx)
  let db ← db.addTransactions E (b.txs.zip b.block.txHashes)
  db.addBlockData E b b.numRctOuts

/-! ## Popping a block -/

def getPrunedTx (txHash : H) : Option (TxBase K P C) := do
  let index ← db.txIndices.get? txHash
  db.txsPruned.get? index.txId

/-- `get_tx`: only if no part is pruned. -/
def getTx (txHash : H) : Option (Tx K P C) := do
  let index ← db.txIndices.get? txHash
  let base ← db.txsPruned.get? index.txId
  let prunable ← db.txsPrunable.get? index.txId
  return ⟨base, prunable⟩

def removeSpentKeys (db : Tables H K P C) : List (TxIn K) → Tables H K P C
  | [] => db
  | .toKey kImage :: rest => removeSpentKeys { db with spentKeys := db.spentKeys.del kImage } rest
  | _ :: rest => removeSpentKeys db rest

def removeOutput (amount outIndex : Nat) : Except DbError (Tables H K P C) := do
  let out ← orThrow (.outputDne
      "Attempting to get an output index by amount and amount index, but amount not found")
    (db.outputAmounts.get? (toLex (amount, outIndex)))
  if (db.outputTxs.get? out.outputId).isNone then
    throw (.dbError "Unexpected: global output index not found in m_output_txs")
  return { db with
    outputTxs := db.outputTxs.del out.outputId
    outputAmounts := db.outputAmounts.del (toLex (amount, outIndex)) }

/-- The loop of `remove_tx_outputs`, from the last output to the first. -/
def removeOutputs (db : Tables H K P C) : List (Nat × Nat) → Except DbError (Tables H K P C)
  | [] => .ok db
  | (amount, index) :: rest => do
    let db ← removeOutputs db rest
    db.removeOutput amount index

def removeTxOutputs (txId : Nat) (tx : TxBase K P C) : Except DbError (Tables H K P C) := do
  let indices := (db.txOutputs.get? txId).getD []
  if indices.isEmpty ∧ ¬ tx.vout.isEmpty then
    throw (.dbError "tx has outputs, but no output indices found")
  db.removeOutputs ((tx.vout.map tx.removedAmount).zip indices)

def removeTransactionData (txHash : H) (tx : TxBase K P C) : Except DbError (Tables H K P C) := do
  let index ← orThrow (.txDne "Attempting to remove transaction that isn't in the db")
    (db.txIndices.get? txHash)
  let txId := index.txId
  if (db.txsPruned.get? txId).isNone then
    throw (.dbError "Failed to locate pruned tx for removal: ")
  if 1 < tx.version ∧ (db.txsPrunableHash.get? txId).isNone then
    throw (.dbError "Failed to locate prunable hash tx for removal: ")
  let db := { db with
    txsPruned := db.txsPruned.del txId
    txsPrunable := db.txsPrunable.del txId
    txsPrunableTip := db.txsPrunableTip.delFirstDup txId
    txsPrunableHash := if 1 < tx.version then db.txsPrunableHash.del txId else db.txsPrunableHash }
  let db ← db.removeTxOutputs txId tx
  return { db with
    txOutputs := db.txOutputs.del txId
    txIndices := db.txIndices.del txHash }

def removeTransaction (txHash : H) : Except DbError (Tables H K P C) := do
  let tx ← orThrow (.txDne "pruned tx with hash not found in db") (db.getPrunedTx txHash)
  (db.removeSpentKeys tx.vin).removeTransactionData txHash tx

def removeBlock : Except DbError (Tables H K P C) := do
  let height := db.height
  if height = 0 then
    throw (.blockDne "Attempting to remove block from an empty blockchain")
  let info ← orThrow (.blockDne "Attempting to remove block that's not in the db: ")
    (db.blockInfo.get? (height - 1))
  if (db.blockHeights.get? info.hash).isNone then
    throw (.dbError "Failed to locate block height by hash for removal: ")
  if (db.blocks.get? (height - 1)).isNone then
    throw (.dbError "Failed to locate block data for removal: ")
  return { db with
    blockHeights := db.blockHeights.del info.hash
    blocks := db.blocks.del (height - 1)
    blockInfo := db.blockInfo.del (height - 1) }

/-- From the last hash of the block to the first. A transaction that is pruned is returned as its
base. -/
def popTransactions (db : Tables H K P C) :
    List H → Except DbError (Tables H K P C × List (Tx K P C))
  | [] => .ok (db, [])
  | txHash :: rest => do
    let (db, txs) ← popTransactions db rest
    let tx ← orThrow (.dbError "Failed to get pruned or unpruned transaction from the db")
      (db.getTx txHash <|> (db.getPrunedTx txHash).map fun base => ⟨base, []⟩)
    let db ← db.removeTransaction txHash
    return (db, txs ++ [tx])

def popBlock : Except DbError (Block H K P C × List (Tx K P C) × Tables H K P C) := do
  let block ← orThrow (.blockDne "Attempting to remove block from an empty blockchain")
    (if db.height = 0 then none else db.blocks.get? (db.height - 1))
  let db ← db.removeBlock
  let (db, txs) ← db.popTransactions block.txHashes
  let db ← db.removeTransaction (E.txHash block.minerTx)
  return (block, txs, db)

end Tables

end Glaciem.Db
