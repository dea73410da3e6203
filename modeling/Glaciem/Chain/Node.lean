import Glaciem.Block.Longhash
import Glaciem.Chain.HardFork
import Glaciem.Chain.Timestamp
import Glaciem.Chain.Reward

/-!
# Glaciem — the node: chain, pool, and one block more or less

The state of `Blockchain` and its `tx_memory_pool` as far as consensus reads it, with
`handle_block_to_main_chain` and `pop_block_from_blockchain` of `cryptonote_core/blockchain.cpp`.

* `Rules` — the checks whose code is not embedded (hashes and proof of work, ring signatures, key
  images, the weight median), as functions of what they are given. `evict` stands for
  `tx_memory_pool::prune`, which never drops what was kept by a block.
-/

namespace Glaciem.Chain

/-! ## Data -/

section Data

variable (H : Type)

structure Tx where
  id : H
  fee : UInt64
  weight : UInt64
  pruned : Bool
  deriving DecidableEq

/-- A transaction of the pool. `kept` is `kept_by_block`: it came with a block. -/
structure PoolTx where
  tx : Tx H
  kept : Bool
  deriving DecidableEq

/-- `genHeight` is the height of its only input, `none` if it has not exactly one input of the type
`txin_gen`. -/
structure MinerTx where
  id : H
  version : Nat
  unlockTime : Nat
  genHeight : Option Nat
  rctTypeNull : Bool
  vout : List UInt64
  weight : UInt64
  deriving DecidableEq

structure Block where
  majorVersion : Nat
  minorVersion : Nat
  timestamp : Nat
  prevId : H
  nonce : UInt32
  minerTx : MinerTx H
  txHashes : List H
  deriving DecidableEq

/-- A block of the main chain: its id, its transactions, and what the database records. -/
structure Entry where
  block : Block H
  id : H
  cumulativeDifficulty : Nat
  coins : UInt64
  weight : UInt64
  txs : List (Tx H)
  deriving DecidableEq

structure AltBlock where
  block : Block H
  id : H
  height : Nat
  cumulativeDifficulty : Nat
  coins : UInt64
  deriving DecidableEq

structure Rules where
  nullHash : H
  blockId : Block H → H
  /-- `check_hash` of `get_block_longhash`, for a height, a seed and a difficulty. -/
  mainWorkOk : Block H → Nat → H → Nat → Bool
  /-- `check_hash` of the hash an alternative block gets. -/
  altWorkOk : Block H → Nat → H → Nat → Bool
  /-- `check_tx_inputs` against the chain. -/
  checkTxInputs : List (Entry H) → Tx H → Bool
  /-- `ver_non_input_consensus` at a version. -/
  nonInputOk : Nat → Tx H → Bool
  /-- `check_output_types` at a version. -/
  outputTypesOk : Nat → MinerTx H → Bool
  /-- No key image of the new block is spent. -/
  keyImagesNew : List (Entry H) → Entry H → Bool
  /-- What `update_next_cumulative_weight_limit` computes from the chain. -/
  nextWeightMedian : List (Entry H) → UInt64
  checkpoints : List (Nat × H)
  /-- Whether the pool accepts a relayed transaction at a version. -/
  relayOk : List (Entry H) → Nat → Tx H → Bool
  evict : List (PoolTx H) → List (PoolTx H)
  /-- A pruned transaction has no weight and is of version 2, so no version accepts it. -/
  nonInputOk_unpruned : ∀ version tx, nonInputOk version tx = true → tx.pruned = false
  evict_sublist : ∀ pool, (evict pool).Sublist pool
  evict_kept : ∀ pool p, p ∈ pool → p.kept = true → p ∈ evict pool

/-- The state of the node. `invalid` is `m_invalid_blocks`, `batchSuccess` is `m_batch_success`. -/
structure Node where
  chain : List (Entry H)
  alts : List (AltBlock H)
  pool : List (PoolTx H)
  invalid : List H
  hardFork : HardFork
  cache : DifficultyCache H
  weightMedian : UInt64
  batchSuccess : Bool := true

end Data

section Model

variable {H : Type}

def Entry.stamp (e : Entry H) : Stamp := ⟨e.block.timestamp, e.cumulativeDifficulty⟩

def AltBlock.stamp (a : AltBlock H) : Stamp := ⟨a.block.timestamp, a.cumulativeDifficulty⟩

def Block.vote (b : Block H) : Vote := Vote.ofBlock b.majorVersion b.minorVersion

def Entry.txIds (e : Entry H) : List H := e.block.minerTx.id :: e.txs.map Tx.id

def idsOf (chain : List (Entry H)) : List H := chain.map Entry.id

def stampsOf (chain : List (Entry H)) : List Stamp := chain.map Entry.stamp

def timestampsOf (chain : List (Entry H)) : List Nat := chain.map fun e => e.block.timestamp

def txIdsOf (chain : List (Entry H)) : List H := chain.flatMap Entry.txIds

variable (R : Rules H) (chain : List (Entry H))

def topId : H := (idsOf chain).getLast?.getD R.nullHash

def idAt (height : Nat) : H := (idsOf chain)[height]?.getD R.nullHash

def Node.init : Node H :=
  { chain := [], alts := [], pool := [], invalid := [], hardFork := {}
    cache := { topHash := R.nullHash }, weightMedian := R.nextWeightMedian [] }

variable (n : Node H)

def Node.updateWeightLimit : Node H := { n with weightMedian := R.nextWeightMedian n.chain }

def Node.reorganize (height : Nat) : Node H :=
  { n with
    hardFork := n.hardFork.reorganizeFromChainHeight hardForks
      (n.chain.map fun e => e.block.vote) height }

def Node.invalidate (n : Node H) : Node H := { n with cache := n.cache.invalidate }

/-! ## The pool -/

variable (pool : List (PoolTx H))

/-- `add_tx` with `relay_method::block`: such a transaction is always kept. -/
def poolKeep (tx : Tx H) : List (PoolTx H) := R.evict (pool ++ [⟨tx, true⟩])

/-- `tx_memory_pool::validate`: what is not pruned is taken out and added again at a version. -/
def Node.validatePool (version : Nat) : Node H :=
  { n with
    pool := R.evict (n.pool.filter fun p =>
      p.tx.pruned || R.nonInputOk version p.tx && (p.kept || R.relayOk n.chain version p.tx)) }

def Node.validateIfChanged (oldVersion : Nat) : Node H :=
  if n.hardFork.version ≠ oldVersion then n.validatePool R n.hardFork.version else n

def popBlock : Option (Node H × Entry H) :=
  if n.chain.length ≤ 1 then none
  else
    n.chain.getLast?.map fun e =>
      let left := n.chain.dropLast
      let n' := { n.invalidate with
        chain := left
        hardFork := n.hardFork.onBlockPopped hardForks left.length 1
        pool := (e.txs.filter fun t : Tx H => !t.pruned).foldl (poolKeep R) n.pool }
      (n'.validateIfChanged R n.hardFork.version, e)

variable [DecidableEq H]

def poolTake (id : H) : Option (Tx H × List (PoolTx H)) :=
  (pool.find? fun p => p.tx.id = id).map fun p => (p.tx, pool.filter fun q => q.tx.id ≠ id)

/-! ## Validating a block -/

def Node.getDifficultyForNextBlock : Nat × Node H :=
  let (difficulty, cache) := n.cache.query (topId R n.chain) (stampsOf n.chain)
    (difficultyTarget n.hardFork.version)
  (difficulty, { n with cache := cache })

@[simp] theorem queried_chain :
    (n.getDifficultyForNextBlock R).2.chain = n.chain := rfl

@[simp] theorem queried_pool :
    (n.getDifficultyForNextBlock R).2.pool = n.pool := rfl

@[simp] theorem queried_hardFork :
    (n.getDifficultyForNextBlock R).2.hardFork = n.hardFork := rfl

@[simp] theorem queried_weightMedian :
    (n.getDifficultyForNextBlock R).2.weightMedian = n.weightMedian := rfl

def CRYPTONOTE_MINED_MONEY_UNLOCK_WINDOW : Nat := 60
def HF_VERSION_MIN_V2_COINBASE_TX : Nat := 12
def HF_VERSION_REJECT_SIGS_IN_COINBASE : Nat := 12
def CRYPTONOTE_REWARD_BLOCKS_WINDOW : Nat := 100

def prevalidateMinerTransaction (b : Block H) (height version : Nat) : Bool :=
  b.minerTx.genHeight = some height
    && (b.minerTx.version > 1 || version < HF_VERSION_MIN_V2_COINBASE_TX)
    && (b.minerTx.rctTypeNull
      || !(version ≥ HF_VERSION_REJECT_SIGS_IN_COINBASE && b.minerTx.version ≥ 2))
    && b.minerTx.unlockTime = height + CRYPTONOTE_MINED_MONEY_UNLOCK_WINDOW
    && checkOutsOverflow b.minerTx.vout
    && R.outputTypesOk version b.minerTx

/-- `checkpoints::check_block`, without the flag. -/
def checkpointOk (height : Nat) (id : H) : Bool :=
  R.checkpoints.all fun p => p.1 ≠ height || p.2 = id

def mainSeed (b : Block H) (height : Nat) : H :=
  if b.majorVersion ≥ RX_BLOCK_VERSION.toNat then
    idAt R chain (rxSeedheight {} (UInt64.ofNat height)).toNat
  else R.nullHash

/-- The checks of `handle_block_to_main_chain` before the difficulty is known: parent, version and
timestamp. -/
def admits (now : Nat) (n : Node H) (b : Block H) : Bool :=
  b.prevId = topId R n.chain && n.hardFork.check hardForks b.vote
    && checkBlockTimestamp (timestampsOf n.chain) now b.timestamp

/-- The checks after it, up to the transactions: work, checkpoint and coinbase, for the version in
force. -/
def verifies (version : Nat) (b : Block H) (difficulty : Nat) : Bool :=
  difficulty ≠ 0
    && R.mainWorkOk b chain.length (mainSeed R chain b chain.length) difficulty
    && checkpointOk R chain.length (R.blockId b)
    && prevalidateMinerTransaction R b chain.length version

structure Taken (H : Type) where
  tx : Tx H
  fromPool : Bool

inductive Collected (H : Type) where
  | all (pool : List (PoolTx H)) (taken : List (Taken H))
  | failed (pool : List (PoolTx H)) (taken : List (Taken H)) (wrongInputs : Bool)

/-- From the pool, else from those that came with the block. A transaction that is in the chain, or
cannot be found, or has wrong inputs ends the loop. -/
def collectTxs (R : Rules H) (chain : List (Entry H)) :
    List H → List (PoolTx H) → List (Tx H) → List (Taken H) → Collected H
  | [], pool, _, taken => .all pool taken
  | id :: rest, pool, extra, taken =>
    if id ∈ txIdsOf chain then .failed pool taken false
    else
      match poolTake pool id with
      | some (tx, pool') =>
        if R.checkTxInputs chain tx then collectTxs R chain rest pool' extra (taken ++ [⟨tx, true⟩])
        else .failed pool' (taken ++ [⟨tx, true⟩]) true
      | none =>
        match extra.find? fun t => t.id = id with
        | some tx =>
          if R.checkTxInputs chain tx then
            collectTxs R chain rest pool (extra.filter fun t => t.id ≠ id) (taken ++ [⟨tx, false⟩])
          else .failed pool (taken ++ [⟨tx, false⟩]) true
        | none => .failed pool taken false

def returnTxs (taken : List (Taken H)) : List (PoolTx H) :=
  ((taken.filter Taken.fromPool).map Taken.tx).foldl (poolKeep R) pool

def rewardMedian (version : Nat) (weightMedian : UInt64) : UInt64 :=
  if version ≥ HF_VERSION_EFFECTIVE_SHORT_TERM_MEDIAN_IN_PENALTY then weightMedian
  else UInt64.ofNat (median
    ((chain.rtake CRYPTONOTE_REWARD_BLOCKS_WINDOW).map fun e => e.weight.toNat))

def coinsOf : UInt64 := (chain.getLast?.map Entry.coins).getD 0

def difficultyOf : Nat :=
  (chain.getLast?.map Entry.cumulativeDifficulty).getD 0

def blockWeight (b : Block H) (txs : List (Tx H)) : UInt64 :=
  wrapSum (b.minerTx.weight :: txs.map Tx.weight)

/-- The reward `validate_miner_transaction` returns for a block with its transactions. -/
def rewardFor (version : Nat) (weightMedian : UInt64) (b : Block H)
    (txs : List (Tx H)) : Option UInt64 :=
  validateMinerTransaction b.minerTx.vout (blockWeight b txs) (wrapSum (txs.map Tx.fee))
    (coinsOf chain) version (rewardMedian chain version weightMedian)

def entryFor (b : Block H) (txs : List (Tx H)) (difficulty : Nat) (reward : UInt64) : Entry H :=
  { block := b
    id := R.blockId b
    cumulativeDifficulty := (difficulty + difficultyOf chain) % 2 ^ 128
    coins := addCoins (coinsOf chain) reward
    weight := blockWeight b txs
    txs := txs }

/-- `BlockchainDB::add_block` does not throw: block, transactions and key images are new. -/
def dbAccepts (e : Entry H) : Bool :=
  decide (e.id ∉ idsOf chain) && decide (e.txIds.Nodup)
    && e.txIds.all (fun id => id ∉ txIdsOf chain) && R.keyImagesNew chain e

def Node.record (e : Entry H) : Node H :=
  let oldVersion := n.hardFork.version
  let height := n.chain.length
  let n' := ({ n with
    chain := n.chain ++ [e]
    pool := pool
    hardFork := n.hardFork.add hardForks e.block.vote height } : Node H).updateWeightLimit R
  let n'' := (n'.getDifficultyForNextBlock R).2
  -- the pool is empty when the genesis block comes
  if height = 0 then n'' else n''.validateIfChanged R oldVersion

/-- The end of `handle_block_to_main_chain`: transactions, coinbase, database. -/
def Node.complete (b : Block H) (difficulty : Nat)
    (extra : List (Tx H)) : Node H × Bool :=
  match collectTxs R n.chain b.txHashes n.pool extra [] with
  | .failed pool taken wrongInputs =>
    ({ n with
      pool := returnTxs R pool taken
      invalid := if wrongInputs then R.blockId b :: n.invalid else n.invalid }, false)
  | .all pool taken =>
    let txs := taken.map Taken.tx
    -- a pruned transaction fails the block, and what was taken is not returned
    if txs.any Tx.pruned then ({ n with pool := pool }, false)
    else
      match rewardFor n.chain n.hardFork.version n.weightMedian b txs with
      | none => ({ n with pool := returnTxs R pool taken }, false)
      | some reward =>
        let e := entryFor R n.chain b txs difficulty reward
        if dbAccepts R n.chain e then (n.record R pool e, true)
        else ({ n with pool := returnTxs R pool taken, batchSuccess := false }, false)

/-- At the time `now`, for a block that came with some of its transactions. -/
def handleBlockToMainChain (now : Nat) (n : Node H) (b : Block H)
    (extra : List (Tx H)) : Node H × Bool :=
  if admits R now n b = false then (n, false)
  else
    let (difficulty, n') := n.getDifficultyForNextBlock R
    let version := n.hardFork.version
    if verifies R n.chain version b difficulty = false then (n', false)
    else if extra.all (R.nonInputOk version) = false then (n', false)
    else n'.complete R b difficulty extra

end Model

end Glaciem.Chain
