import Glaciem.Lib.ChangeFeed
import Glaciem.Lib.KeyIndex
import Glaciem.Lib.System

/-!
# Glaciem — the transaction pool

`tx_memory_pool` of `cryptonote_core/tx_pool.cpp`: the records in the database and the four things
kept in memory beside them, namely the spent key images, the index by fee rate, the total weight,
and the lists of what was added and removed.

The clock is a sequence of readings and `reads` counts those that were taken, so that the time may
change during a call. An id stands for the contents of its transaction.
-/

namespace Glaciem.Mempool

/-! ## Relay methods -/

inductive RelayMethod where
  | none | «local» | forward | stem | fluff | block
  deriving DecidableEq

def RelayMethod.rank : RelayMethod → Nat
  | .none => 0
  | .«local» => 1
  | .forward => 2
  | .stem => 3
  | .fluff => 4
  | .block => 5

inductive RelayCategory where
  | broadcasted | relayable | legacy | all
  deriving DecidableEq

def matchesCategory : RelayMethod → RelayCategory → Bool
  | _, .all => true
  | method, .relayable => method ≠ .none
  | .block, _ => true
  | .fluff, _ => true
  | .none, category => category = .legacy
  | _, _ => false

def upgradeRelayMethod (old method : RelayMethod) : RelayMethod :=
  if old.rank < method.rank then method else old

theorem broadcasted_upgrade {old : RelayMethod} (method : RelayMethod)
    (h : matchesCategory old .broadcasted = true) :
    matchesCategory (upgradeRelayMethod old method) .broadcasted = true := by
  revert h
  cases old <;> cases method <;> decide

/-! ## Data -/

def MAX_TX_EXTRA_SIZE : Nat := 1060
def DEFAULT_TXPOOL_MAX_WEIGHT : Nat := 648000000
def CRYPTONOTE_MEMPOOL_TX_LIVETIME : Nat := 86400 * 3
def CRYPTONOTE_MEMPOOL_TX_FROM_ALT_BLOCK_LIVETIME : Nat := 604800

/-- The bounds of `track_removed_tx`: `MAX_REMOVED`, a quarter of it and one more, 30 minutes. -/
def removedLimits : FeedLimits := ⟨20000, 20000 / 4 + 1, 30 * 60, by decide⟩

section Data

variable (H K F : Type)

/-- A transaction, by what the pool reads of it. `fee` is `get_tx_fee`, `none` if it throws. -/
structure Transaction where
  keyImages : List K
  fee : Option Nat
  extraSize : Nat
  unlockTime : Nat
  pruned : Bool
  deriving DecidableEq

structure TxMeta where
  weight : Nat
  fee : Nat
  receiveTime : Nat
  relayMethod : RelayMethod
  pruned : Bool
  deriving DecidableEq

structure PoolRecord where
  tx : Transaction K
  txMeta : TxMeta
  deriving DecidableEq

structure Env where
  /-- The readings of `time(NULL)`. -/
  clock : Nat → Nat
  /-- The transaction with an id, as it was before any pruning. -/
  content : H → Transaction K
  /-- `get_transaction_weight` of it. -/
  weightOf : H → Nat
  /-- The rules of `ver_non_input_consensus` at a version other than that there are inputs and that
  no key image is spent twice. -/
  otherRules : Nat → Transaction K → Bool
  /-- `fee / (double)weight`. -/
  feeRate : Nat → Nat → F
  /-- The rows of the database in the order of `for_all_txpool_txes`. -/
  rows : List (H × PoolRecord K) → List (H × PoolRecord K)
  rows_perm : ∀ items, (rows items).Perm items

structure ChainView where
  checkFee : Nat → Nat → Bool
  /-- `check_tx_inputs`, which is told whether the transaction is kept by a block. -/
  checkTxInputs : H → Transaction K → Bool → Bool

structure FeeEntry where
  rate : F
  receiveTime : Nat
  id : H
  deriving DecidableEq

/-- `tx_memory_pool`. The four `m_added_txs…` and `m_removed_txs…` are `transient`. -/
structure TxMemoryPool [DecidableEq K] where
  records : Dict H (PoolRecord K)
  spentKeyImages : KeyIndex K H
  txsByFeeAndReceiveTime : List (FeeEntry H F)
  txpoolWeight : Nat
  txpoolMaxWeight : Nat
  transient : ChangeFeed H
  timedOutTransactions : List H
  reads : Nat

end Data

section Model

variable {H K F : Type} [DecidableEq H] [DecidableEq K]

def Env.verNonInputConsensus (E : Env H K F) (version : Nat) (tx : Transaction K) : Bool :=
  tx.keyImages ≠ [] && decide tx.keyImages.Nodup && E.otherRules version tx

/-- The rate that `add_tx` lists, which guards against a weight of 0. `init` and `set_relayed` do
not. -/
def Env.addedRate (E : Env H K F) (fee weight : Nat) : F :=
  E.feeRate fee (if weight = 0 then 1 else weight)

def PoolRecord.matchesCategory (r : PoolRecord K) (category : RelayCategory) : Bool :=
  Mempool.matchesCategory r.txMeta.relayMethod category

def PoolRecord.keptByBlock (r : PoolRecord K) : Bool := r.txMeta.relayMethod = .block

namespace TxMemoryPool

def new (records : Dict H (PoolRecord K)) (reads : Nat) : TxMemoryPool H K F where
  records := records
  spentKeyImages := KeyIndex.empty
  txsByFeeAndReceiveTime := []
  txpoolWeight := 0
  txpoolMaxWeight := DEFAULT_TXPOOL_MAX_WEIGHT
  transient := ChangeFeed.empty
  timedOutTransactions := []
  reads := reads

variable (E : Env H K F) (p : TxMemoryPool H K F)

def tick : TxMemoryPool H K F := { p with reads := p.reads + 1 }

variable (id : H)

def txMatchesCategory (category : RelayCategory) : Bool :=
  match p.records.get? id with
  | none => false
  | some r => r.matchesCategory category

/-! ## Key images -/

def haveTxKeyimgAsSpent (keyImage : K) (txid : H) : Bool :=
  let ids := p.spentKeyImages.owners keyImage
  if ids = ∅ then false
  else if 1 < ids.card || txid ∉ ids then true
  else p.txMatchesCategory txid .legacy

variable (tx : Transaction K)

def haveTxKeyimgesAsSpent (txid : H) : Bool :=
  tx.keyImages.any fun keyImage => p.haveTxKeyimgAsSpent keyImage txid

/-- `insert_key_images`, by the key images of the transaction. What was inserted before a failure
stays. -/
def insertKeyImages (id : H) (txRelay : RelayMethod) :
    List K → TxMemoryPool H K F → Bool × TxMemoryPool H K F
  | [], p => (true, p)
  | keyImage :: rest, p =>
    let ids := p.spentKeyImages.owners keyImage
    if txRelay ≠ .block ∧ ¬ (ids = ∅ ∨ ids = {id}) then (false, p)
    else if id ∈ ids ∧ p.txMatchesCategory id .legacy = true then (false, p)
    else insertKeyImages id txRelay rest
      { p with spentKeyImages := p.spentKeyImages.insert keyImage id }

/-- `remove_transaction_keyimages`, which returns at the first one that is not found. -/
def removeTransactionKeyimages (id : H) : List K → TxMemoryPool H K F → TxMemoryPool H K F
  | [], p => p
  | keyImage :: rest, p =>
    if id ∈ p.spentKeyImages.owners keyImage then
      removeTransactionKeyimages id rest
        { p with spentKeyImages := p.spentKeyImages.erase keyImage id }
    else p

theorem insertKeyImages_frame (txRelay : RelayMethod) (keyImages : List K)
    (p : TxMemoryPool H K F) : ∃ spent,
      (insertKeyImages id txRelay keyImages p).2 = { p with spentKeyImages := spent } := by
  induction keyImages generalizing p with
  | nil => exact ⟨_, rfl⟩
  | cons keyImage rest ih =>
    rw [insertKeyImages]
    split
    · exact ⟨_, rfl⟩
    · split
      · exact ⟨_, rfl⟩
      · exact ih _

theorem removeTransactionKeyimages_frame (keyImages : List K) (p : TxMemoryPool H K F) :
    ∃ spent, removeTransactionKeyimages id keyImages p = { p with spentKeyImages := spent } := by
  induction keyImages generalizing p with
  | nil => exact ⟨_, rfl⟩
  | cons keyImage rest ih =>
    rw [removeTransactionKeyimages]
    split
    · exact ih _
    · exact ⟨_, rfl⟩

/-! ## Removal -/

def reduceTxpoolWeight (weight : Nat) : TxMemoryPool H K F :=
  { p with txpoolWeight := p.txpoolWeight - weight }

def removeRecord (weight : Nat) : TxMemoryPool H K F :=
  removeTransactionKeyimages id tx.keyImages
    (({ p with records := p.records.erase id } : TxMemoryPool H K F).reduceTxpoolWeight weight)

theorem removeRecord_frame (weight : Nat) :
    ∃ spent, p.removeRecord id tx weight = { p with
      records := p.records.erase id
      txpoolWeight := p.txpoolWeight - weight
      spentKeyImages := spent } :=
  removeTransactionKeyimages_frame id tx.keyImages _

def eraseById (index : List (FeeEntry H F)) : List (FeeEntry H F) := index.filter fun e => e.id ≠ id

def removeTxFromTransientLists
    (sensitive : Bool) : TxMemoryPool H K F :=
  { p with
    txsByFeeAndReceiveTime := eraseById id p.txsByFeeAndReceiveTime
    transient := p.transient.remove removedLimits (E.clock p.reads) id sensitive
    reads := p.reads + 1 }

variable (r : PoolRecord K)

def discard : TxMemoryPool H K F :=
  (p.removeRecord id r.tx r.txMeta.weight).removeTxFromTransientLists E id
    (!r.matchesCategory .broadcasted)

theorem records_discard : (p.discard E id r).records = p.records.erase id := by
  obtain ⟨spent, hspent⟩ := p.removeRecord_frame id r.tx r.txMeta.weight
  rw [discard, hspent]
  rfl

def takeTx : Option (PoolRecord K) × TxMemoryPool H K F :=
  match p.records.get? id with
  | none => (none, p)
  | some r => (some r, p.discard E id r)

def pruneLoop (E : Env H K F) (bytes : Nat) : List H → TxMemoryPool H K F → TxMemoryPool H K F
  | [], p => p
  | id :: rest, p =>
    if p.txpoolWeight ≤ bytes then p
    else
      match p.records.get? id with
      | none => pruneLoop E bytes rest p
      | some r =>
        if r.keptByBlock then pruneLoop E bytes rest p
        else pruneLoop E bytes rest (p.discard E id r)

/-- `prune`, which never comes to the first entry. -/
def prune (bytes : Nat) : TxMemoryPool H K F :=
  pruneLoop E (if bytes = 0 then p.txpoolMaxWeight else bytes)
    (p.txsByFeeAndReceiveTime.tail.map FeeEntry.id).reverse p

/-! ## The index by fee rate -/

variable [LinearOrder F]

/-- `txFeeCompare`: the higher rate first, then the earlier time. -/
def txFeeCompare (a b : FeeEntry H F) : Bool :=
  if b.rate < a.rate then true
  else if a.rate < b.rate then false
  else a.receiveTime < b.receiveTime

def insertSorted (e : FeeEntry H F) (index : List (FeeEntry H F)) : List (FeeEntry H F) :=
  index.takeWhile (fun e' => !txFeeCompare e e')
    ++ e :: index.dropWhile (fun e' => !txFeeCompare e e')

/-- `insert`, which is refused if the id is there. -/
def insertByFee (e : FeeEntry H F) (index : List (FeeEntry H F)) : List (FeeEntry H F) :=
  if e.id ∈ index.map FeeEntry.id then index else insertSorted e index

def addTxToTransientLists (rate : F)
    (receiveTime : Nat) : TxMemoryPool H K F :=
  let now := E.clock p.reads
  let index := if (p.transient.added.get? id).isSome then eraseById id p.txsByFeeAndReceiveTime
    else p.txsByFeeAndReceiveTime
  { p with
    txsByFeeAndReceiveTime := insertByFee ⟨rate, receiveTime, id⟩ index
    transient := p.transient.put now id
    reads := p.reads + 1 }

/-! ## Adding -/

/-- The checks of `add_tx` before the key images, other than the one of the fee. A transaction kept
by a block needs only the rules without inputs, and those only if they were not checked before. -/
def passesChecks (id : H)
    (keptByBlock : Bool) (version nicVerifiedHfVersion : Nat) : Bool :=
  (keptByBlock || id ∉ p.timedOutTransactions)
    && (version = nicVerifiedHfVersion || E.verNonInputConsensus version tx)
    && (keptByBlock || tx.extraSize ≤ MAX_TX_EXTRA_SIZE)
    && (keptByBlock || tx.unlockTime = 0)

def addTxDone : Bool × TxMemoryPool H K F := (true, p.prune E p.txpoolMaxWeight)

/-- The row of a transaction has been written: the lists follow, and the weight if
`m_added_to_pool`. -/
def addTxWritten
    (addedToPool : Bool) : Bool × TxMemoryPool H K F :=
  let p := p.addTxToTransientLists E id (E.addedRate r.txMeta.fee r.txMeta.weight)
    r.txMeta.receiveTime
  addTxDone E { p with
    txpoolWeight := if addedToPool then p.txpoolWeight + r.txMeta.weight else p.txpoolWeight }

/-- The row is written with `MDB_NODUPDATA`, which on a table without duplicates overwrites one that
is there. -/
def addTxWrongInputs (id : H)
    (txWeight fee receiveTime : Nat) (txRelay : RelayMethod) : Bool × TxMemoryPool H K F :=
  match insertKeyImages id txRelay tx.keyImages p with
  | (false, p) => (false, p)
  | (true, p) =>
    let r : PoolRecord K := ⟨tx, ⟨txWeight, fee, receiveTime, txRelay, tx.pruned⟩⟩
    addTxWritten E { p with records := p.records.set id r } id r true

/-- One that is there is written again if its relay method goes up; a stem transaction that comes
back as stem has looped. -/
def addTxRightInputs (id : H)
    (txWeight fee receiveTime : Nat) (txRelay : RelayMethod) : Bool × TxMemoryPool H K F :=
  let existing := p.records.get? id
  let old := (existing.map fun r => r.txMeta.relayMethod).getD .none
  let txRelay := if existing.isSome && txRelay = .stem && old = .stem then .fluff else txRelay
  if old.rank < txRelay.rank || existing.isNone then
    match insertKeyImages id txRelay tx.keyImages p with
    | (false, p) => (false, p)
    | (true, p) =>
      let r : PoolRecord K :=
        ⟨tx, ⟨txWeight, fee, receiveTime, upgradeRelayMethod old txRelay, tx.pruned⟩⟩
      addTxWritten E { p with records := (p.records.erase id).set id r } id r existing.isNone
  else addTxDone E p

def addTx (E : Env H K F) (C : ChainView H K) (p : TxMemoryPool H K F) (tx : Transaction K) (id : H)
    (txWeight : Nat) (txRelay : RelayMethod) (version nicVerifiedHfVersion : Nat) :
    Bool × TxMemoryPool H K F :=
  let keptByBlock : Bool := txRelay = .block
  match tx.fee with
  | none => (false, p)
  | some fee =>
    if (passesChecks E p tx id keptByBlock version nicVerifiedHfVersion
        && (keptByBlock || C.checkFee txWeight fee)
        && (keptByBlock || !p.haveTxKeyimgesAsSpent tx id)) = false then (false, p)
    else
      let receiveTime := E.clock p.reads
      if C.checkTxInputs id tx keptByBlock then
        p.tick.addTxRightInputs E tx id txWeight fee receiveTime txRelay
      else if keptByBlock then
        p.tick.addTxWrongInputs E tx id txWeight fee receiveTime txRelay
      else (false, p.tick)

/-! ## The other operations -/

def setRelayedOne (E : Env H K F) (now : Nat) (method : RelayMethod) (p : TxMemoryPool H K F)
    (id : H) : TxMemoryPool H K F :=
  match p.records.get? id with
  | none => p
  | some r =>
    let r' : PoolRecord K :=
      { r with txMeta.relayMethod := upgradeRelayMethod r.txMeta.relayMethod method }
    let p : TxMemoryPool H K F := { p with records := p.records.set id r' }
    if !r.matchesCategory .broadcasted && r'.matchesCategory .broadcasted then
      p.addTxToTransientLists E id (E.feeRate r.txMeta.fee r.txMeta.weight) now
    else p

def setRelayed (ids : List H) (method : RelayMethod) : TxMemoryPool H K F :=
  ids.foldl (setRelayedOne E (E.clock p.reads) method) p.tick

/-- Whether a record has outlived its time. The age is a difference of 64-bit words. -/
def isStuck (now : Nat) (r : PoolRecord K) : Bool :=
  let age := (now + 2 ^ 64 - r.txMeta.receiveTime) % 2 ^ 64
  (CRYPTONOTE_MEMPOOL_TX_LIVETIME < age && !r.keptByBlock)
    || (CRYPTONOTE_MEMPOOL_TX_FROM_ALT_BLOCK_LIVETIME < age && r.keptByBlock)

def timeOut : TxMemoryPool H K F :=
  let p := p.removeTxFromTransientLists E id (!r.matchesCategory .broadcasted)
  { p with timedOutTransactions := id :: p.timedOutTransactions }

/-- The first loop of `remove_stuck_transactions`: the rows that are stuck leave the lists, and are
returned. -/
def dropStuck (E : Env H K F) : List (H × PoolRecord K) → TxMemoryPool H K F →
    List (H × PoolRecord K) × TxMemoryPool H K F
  | [], p => ([], p)
  | (id, r) :: rest, p =>
    if isStuck (E.clock p.reads) r then
      let (remove, p) := dropStuck E rest (p.tick.timeOut E id r)
      ((id, r) :: remove, p)
    else dropStuck E rest p.tick

/-- `remove_stuck_transactions`. The second loop removes the rows. -/
def removeStuckTransactions : TxMemoryPool H K F :=
  let (remove, p) := dropStuck E (E.rows p.records.items) p
  remove.foldl (fun p row => p.removeRecord row.1 row.2.tx row.2.txMeta.weight) p

def emptyTransaction : Transaction K := ⟨[], some 0, 0, 0, false⟩

/-- Taken out and added again, it gets its old row back. `update_txpool_tx` throws if the
transaction is gone by then. -/
def validateOne (E : Env H K F) (C : ChainView H K) (version : Nat) (p : TxMemoryPool H K F)
    (row : H × PoolRecord K) : TxMemoryPool H K F :=
  let (taken, p) := p.takeTx E row.1
  let tx := (taken.map PoolRecord.tx).getD emptyTransaction
  match p.addTx E C tx row.1 row.2.txMeta.weight row.2.txMeta.relayMethod version 0 with
  | (false, p) => p
  | (true, p) =>
    match p.records.get? row.1 with
    | none => p
    | some r => { p with records := p.records.set row.1 { r with txMeta := row.2.txMeta } }

/-- `validate`. Pruned transactions are skipped. -/
def validate (E : Env H K F) (C : ChainView H K) (p : TxMemoryPool H K F) (version : Nat) :
    TxMemoryPool H K F :=
  ((E.rows p.records.items).filter fun row => !row.2.txMeta.pruned).foldl
    (validateOne E C version) { p with transient := ChangeFeed.empty }

/-- One pass of `init` over the rows, which stops when the key images of one cannot be inserted. -/
def initPass (E : Env H K F) (kept : Bool) : List (H × PoolRecord K) → TxMemoryPool H K F →
    Bool × TxMemoryPool H K F
  | [], p => (true, p)
  | (id, r) :: rest, p =>
    if r.keptByBlock ≠ kept then initPass E kept rest p
    else
      match insertKeyImages id r.txMeta.relayMethod r.tx.keyImages p with
      | (false, p) => (false, p)
      | (true, p) =>
        let p := p.addTxToTransientLists E id (E.feeRate r.txMeta.fee r.txMeta.weight)
          r.txMeta.receiveTime
        initPass E kept rest { p with txpoolWeight := p.txpoolWeight + r.txMeta.weight }

/-- `init`: first the rows that are not kept by a block, then those that are. -/
def init (maxTxpoolWeight : Nat) : Bool × TxMemoryPool H K F :=
  let p : TxMemoryPool H K F := { p with
    txpoolMaxWeight := if maxTxpoolWeight = 0 then DEFAULT_TXPOOL_MAX_WEIGHT else maxTxpoolWeight
    txsByFeeAndReceiveTime := []
    transient := ChangeFeed.empty
    spentKeyImages := KeyIndex.empty
    txpoolWeight := 0 }
  match initPass E false (E.rows p.records.items) p with
  | (false, p) => (false, p)
  | (true, p) => initPass E true (E.rows p.records.items) p

end TxMemoryPool

/-! ## Runs -/

/-- The transaction of an id comes as it is or pruned. A caller that gives a version as verified has
verified the transaction for it, and there is no version 0. -/
inductive PoolOp (E : Env H K F) where
  | init (maxTxpoolWeight : Nat)
  | setTxpoolMaxWeight (bytes : Nat)
  | addTx (C : ChainView H K) (id : H) (pruned : Bool) (txRelay : RelayMethod)
      (version nicVerifiedHfVersion : Nat) (verified : nicVerifiedHfVersion = version →
        E.verNonInputConsensus version { E.content id with pruned := pruned } = true)
  | takeTx (id : H)
  | prune (bytes : Nat)
  | removeStuckTransactions
  | validate (C : ChainView H K) (version : Nat) (hversion : version ≠ 0)
  | setRelayed (ids : List H) (method : RelayMethod)

variable [LinearOrder F]

def TxMemoryPool.after {E : Env H K F} (p : TxMemoryPool H K F) : PoolOp E → TxMemoryPool H K F
  | .init maxTxpoolWeight => (p.init E maxTxpoolWeight).2
  | .setTxpoolMaxWeight bytes => { p with txpoolMaxWeight := bytes }
  | .addTx C id pruned txRelay version nicVerifiedHfVersion _ =>
    (p.addTx E C { E.content id with pruned := pruned } id (E.weightOf id) txRelay version
      nicVerifiedHfVersion).2
  | .takeTx id => (p.takeTx E id).2
  | .prune bytes => p.prune E bytes
  | .removeStuckTransactions => p.removeStuckTransactions E
  | .validate C version _ => p.validate E C version
  | .setRelayed ids method => p.setRelayed E ids method

def pools (E : Env H K F) : System (TxMemoryPool H K F) (PoolOp E) where
  step p op := some (p.after op)

end Model

end Glaciem.Mempool
