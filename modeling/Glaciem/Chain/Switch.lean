import Glaciem.Lib.System
import Glaciem.Chain.Node

/-!
# Glaciem — alternative blocks, chain switches and rollbacks

`handle_alternative_block`, `switch_to_alternative_blockchain`, `rollback_blockchain_switching` and
the entry points of `Blockchain`, as functions on the node, and the node as a transition system over
them. The clock stands still during one arrival.

* `handleAlternativeBlock` — validate and store an alternative block, and switch when its chain is
  heavier or reaches a checkpoint. A switch hands the old blocks back to this function, which may
  switch again: the nesting is bounded by `depth`, and `none` says that it was not enough.
-/

namespace Glaciem.Chain

variable {H : Type} [DecidableEq H]

def CRYPTONOTE_MAX_REORG_DEPTH : Nat := 60

/-! ## Going back -/

/-- Pop blocks while `more` says so, at most `fuel` of them; also the popped blocks, the lowest
first. -/
def popWhile (R : Rules H) (more : List (Entry H) → Bool) : Nat → Node H → Node H × List (Entry H)
  | 0, n => (n, [])
  | fuel + 1, n =>
    if more n.chain then
      match popBlock R n with
      | none => (n, [])
      | some (n', e) =>
        let (n'', popped) := popWhile R more fuel n'
        (n'', popped ++ [e])
    else (n, [])

/-- Add blocks to the main chain until one fails; also how many were added. -/
def addBlocks (R : Rules H) (now : Nat) : Node H → List (Block H) → Node H × Nat
  | n, [] => (n, 0)
  | n, b :: rest =>
    let (n', added) := handleBlockToMainChain R now n b []
    if added then
      let (n'', count) := addBlocks R now n' rest
      (n'', count + 1)
    else (n', 0)

variable (R : Rules H)

/-- Pop down to a height and add the original blocks again. If one of them fails the rest is given
up. -/
def rollbackBlockchainSwitching (now : Nat) (n : Node H) (original : List (Block H))
    (rollbackHeight : Nat) : Node H :=
  if rollbackHeight > n.chain.length then n
  else
    let (n₁, _) := popWhile R (fun chain => chain.length ≠ rollbackHeight) n.chain.length
      n.invalidate
    let (n₂, count) := addBlocks R now ((n₁.updateWeightLimit R).reorganize rollbackHeight) original
    if count = original.length then n₂.reorganize rollbackHeight else n₂

/-! ## Alternative chains -/

def altBlock? (alts : List (AltBlock H)) (id : H) : Option (AltBlock H) :=
  alts.find? fun a => a.id = id

def removeAlts (alts : List (AltBlock H)) (ids : List H) : List (AltBlock H) :=
  alts.filter fun a => a.id ∉ ids

/-- Follow the parents from an id through the stored alternative blocks, the lowest first in the
result. -/
def walkAlts (alts : List (AltBlock H)) : Nat → H → List (AltBlock H)
  | 0, _ => []
  | fuel + 1, id =>
    match altBlock? alts id with
    | none => []
    | some a => walkAlts alts fuel a.block.prevId ++ [a]

variable (chain : List (Entry H))

/-- The height of a block of the main chain (`get_block_height`), `none` if it is not there. -/
def heightOf? (id : H) : Option Nat := (idsOf chain).idxOf? id

variable (n : Node H)

/-- `build_alt_chain`: the alternative chain that ends in `prevId`, and the timestamps for the
median. -/
def buildAltChain (prevId : H) : Option (List (AltBlock H) × List Nat) :=
  let alt := walkAlts n.alts n.alts.length prevId
  let timestamps := (alt.map fun a => a.block.timestamp).reverse
  match alt.head? with
  | some front =>
    if n.chain.length ≤ front.height then none
    else
      match heightOf? n.chain front.block.prevId with
      | none => none
      | some parent =>
        if idAt R n.chain (front.height - 1) ≠ front.block.prevId then none
        else some (alt, completeTimestampsVector (timestampsOf n.chain) parent timestamps)
  | none =>
    match heightOf? n.chain prevId with
    | none => none
    | some parent => some ([], completeTimestampsVector (timestampsOf n.chain) parent [])

structure Parent where
  height : Nat
  cumulativeDifficulty : Nat
  coins : UInt64

variable (alt : List (AltBlock H))

def parentOf (prevId : H) : Parent :=
  match alt.getLast? with
  | some a => ⟨a.height, a.cumulativeDifficulty, a.coins⟩
  | none =>
    let height := (heightOf? chain prevId).getD 0
    ⟨height, difficultyOf (chain.take (height + 1)), coinsOf (chain.take (height + 1))⟩

def altDifficulty (height : Nat) : Nat :=
  nextDifficultyForAlternativeChain (stampsOf chain) (alt.map AltBlock.stamp)
    ((alt.head?.map AltBlock.height).getD height) height (hardForks.idealVersion height)

def altSeed (b : Block H)
    (height : Nat) : H :=
  if b.majorVersion ≥ RX_BLOCK_VERSION.toNat then
    let seedHeight := (rxSeedheight {} (UInt64.ofNat height)).toNat
    if alt.head?.any fun front => front.height ≤ seedHeight then
      ((alt.find? fun a => a.height = seedHeight + 1).map fun a => a.block.prevId).getD R.nullHash
    else idAt R chain seedHeight
  else R.nullHash

/-- `is_alternative_block_allowed`: the last checkpoint the chain has reached is below the
block. -/
def alternativeBlockAllowed (blockchainHeight blockHeight : Nat) : Bool :=
  blockHeight ≠ 0 && R.checkpoints.all fun p => p.1 > blockchainHeight || p.1 < blockHeight

/-- `get_block_height`: 0 if the coinbase has no height. -/
def Block.height (b : Block H) : Nat := b.minerTx.genHeight.getD 0

/-- The checks of `handle_alternative_block` before the parent is looked for. -/
def altAdmits (b : Block H) : Bool :=
  b.height ≠ 0 && alternativeBlockAllowed R n.chain.length b.height
    && n.hardFork.checkForHeight hardForks b.vote b.height

/-- The checks after the alternative chain is built. The version is that of the height the block
claims. -/
def altVerifies (timestamps : List Nat)
    (b : Block H) (height difficulty : Nat) (extra : List (Tx H)) : Bool :=
  let version := hardForks.idealVersion b.height
  checkTimestampVector timestamps b.timestamp
    && checkpointOk R height (R.blockId b)
    && difficulty ≠ 0
    && R.altWorkOk b height (altSeed R n.chain alt b height) difficulty
    && prevalidateMinerTransaction R b height version
    && extra.all (R.nonInputOk version)

def keepExtra (pool : List (PoolTx H))
    (extra : List (Tx H)) : List (PoolTx H) :=
  extra.foldl (fun pool t =>
    if (pool.any fun p => p.tx.id = t.id) || decide (t.id ∈ txIdsOf chain) then pool
    else poolKeep R pool t) pool

def altRecord (parent : Parent) (b : Block H) (difficulty : Nat) : AltBlock H :=
  { block := b
    id := R.blockId b
    height := parent.height + 1
    cumulativeDifficulty := (parent.cumulativeDifficulty + difficulty) % 2 ^ 128
    coins := addCoins parent.coins (wrapSum b.minerTx.vout) }

inductive AltOutcome (H : Type) where
  | done (n : Node H) (ok : Bool)
  | switch (n : Node H) (alt : List (AltBlock H)) (discard : Bool)

/-- Store a block that passed the checks, and compare its chain with the main chain. -/
def recordAlternativeBlock (a : AltBlock H)
    (extra : List (Tx H)) : AltOutcome H :=
  let n' := { n with pool := keepExtra R n.chain n.pool extra }
  if (altBlock? n.alts a.id).isSome then .done n' false
  else
    let n'' := { n' with alts := n.alts ++ [a] }
    if R.checkpoints.any fun p => p.1 = a.height then .switch n'' (alt ++ [a]) true
    else if difficultyOf n.chain < a.cumulativeDifficulty then .switch n'' (alt ++ [a]) false
    else .done n'' true

def placeAlternativeBlock (b : Block H) (extra : List (Tx H)) : AltOutcome H :=
  if altAdmits R n b = false then .done n false
  else if (altBlock? n.alts b.prevId).isNone ∧ b.prevId ∉ idsOf n.chain then .done n true
  else
    match buildAltChain R n b.prevId with
    | none => .done n false
    | some (alt, timestamps) =>
      let parent := parentOf n.chain alt b.prevId
      let difficulty := altDifficulty n.chain alt (parent.height + 1)
      if altVerifies R n alt timestamps b (parent.height + 1) difficulty extra = false then
        .done n false
      else recordAlternativeBlock R n alt (altRecord R parent b difficulty) extra

/-! ## Switching -/

def tooDeep (forkHeight : Nat) : Bool :=
  decide (chain.length > forkHeight ∧ chain.length - forkHeight > CRYPTONOTE_MAX_REORG_DEPTH)

def disconnect (forkParent : H) : Node H × List (Entry H) :=
  let (n', popped) :=
    popWhile R (fun chain => topId R chain ≠ forkParent) n.chain.length n.invalidate
  (n'.updateWeightLimit R, popped)

def pushAll (handle : Node H → Block H → Option (Node H × Bool)) :
    Node H → List (Block H) → Option (Node H)
  | n, [] => some n
  | n, b :: rest => (handle n b).bind fun r => pushAll handle r.1 rest

def switchToAlternativeBlockchain (now : Nat)
    (handle : Node H → Block H → Option (Node H × Bool)) (n : Node H) (alt : List (AltBlock H))
    (discard : Bool) : Option (Node H × Bool) :=
  match alt with
  | [] => some (n.invalidate, false)
  | front :: _ =>
    if tooDeep n.chain front.height then some (n.invalidate, false)
    else if front.block.prevId ∉ idsOf n.chain then some (n.invalidate, false)
    else
      let (n₁, disconnected) := disconnect R n front.block.prevId
      let splitHeight := n₁.chain.length
      let old := disconnected.map Entry.block
      let (n₂, count) := addBlocks R now n₁ (alt.map AltBlock.block)
      if count ≠ alt.length then
        let n₃ := rollbackBlockchainSwitching R now n₂ old splitHeight
        let orphaned := (alt.drop count).map fun a => R.blockId a.block
        some ({ n₃ with alts := removeAlts n₃.alts orphaned }, false)
      else
        (pushAll handle n₂ (if discard then [] else old)).map fun n₃ =>
          let kept := removeAlts n₃.alts (alt.map fun a => R.blockId a.block)
          (({ n₃ with alts := kept } : Node H).reorganize splitHeight, true)

def handleAlternativeBlock (R : Rules H) (now : Nat) :
    Nat → Node H → Block H → List (Tx H) → Option (Node H × Bool)
  | 0, _, _, _ => none
  | depth + 1, n, b, extra =>
    match placeAlternativeBlock R n.invalidate b extra with
    | .done n' ok => some (n', ok)
    | .switch n' alt discard =>
      switchToAlternativeBlockchain R now (fun m c => handleAlternativeBlock R now depth m c [])
        n' alt discard

/-! ## The node as a system -/

def haveBlock (id : H) : Bool :=
  decide (id ∈ idsOf n.chain) || (altBlock? n.alts id).isSome || decide (id ∈ n.invalid)

def addNewBlock (now depth : Nat) (n : Node H) (b : Block H) (extra : List (Tx H)) :
    Option (Node H × Bool) :=
  if haveBlock n (R.blockId b) then some (n, false)
  else if b.prevId ≠ topId R n.chain then handleAlternativeBlock R now depth n b extra
  else some (handleBlockToMainChain R now n b extra)

def popBlocks (nblocks : Nat) : Node H :=
  (popWhile R (fun _ => true) (min nblocks (n.chain.length - 1)) n).1.updateWeightLimit R

inductive Event (H : Type) where
  | addNewBlock (now depth : Nat) (b : Block H) (extra : List (Tx H))
  | popBlocks (nblocks : Nat)
  | getDifficultyForNextBlock
  | addTx (tx : Tx H)
  | cleanupHandleIncomingBlocks

def Node.addTx (tx : Tx H) : Node H :=
  let version := n.hardFork.version
  if (n.pool.any fun p => p.tx.id = tx.id) || decide (tx.id ∈ txIdsOf n.chain)
      || !R.nonInputOk version tx || !R.relayOk n.chain version tx then n
  else { n with pool := R.evict (n.pool ++ [⟨tx, false⟩]) }

/-- The node as a transition system. A call whose `depth` is not enough is no step. -/
def blockchain : System (Node H) (Event H) where
  step n
    | .addNewBlock now depth b extra => (addNewBlock R now depth n b extra).map Prod.fst
    | .popBlocks nblocks => some (popBlocks R n nblocks)
    | .getDifficultyForNextBlock => some (n.getDifficultyForNextBlock R).2
    | .addTx tx => some (n.addTx R tx)
    | .cleanupHandleIncomingBlocks => some { n with cache := n.cache.endReset }

/-! ## Sample data

Every hash has enough work, ids are nonces, every complete transaction is right, and blocks claim
the reward due. -/

def openRules : Rules Nat where
  nullHash := 0
  blockId b := b.nonce.toNat
  mainWorkOk _ _ _ _ := true
  altWorkOk _ _ _ _ := true
  checkTxInputs _ _ := true
  nonInputOk _ tx := !tx.pruned
  outputTypesOk _ _ := true
  keyImagesNew _ _ := true
  nextWeightMedian _ := 0
  checkpoints := []
  relayOk _ _ _ := true
  evict pool := pool
  nonInputOk_unpruned _ tx h := by simpa using h
  evict_sublist pool := List.Sublist.refl pool
  evict_kept _ _ hp _ := hp

def sampleCoins (height : Nat) : UInt64 :=
  (List.range height).foldl
    (fun coins k => addCoins coins (baseReward coins (HardFork.versionAt k))) 0

/-- The block with the id `id` at a height, with transactions of the given ids that pay `fees`
together. -/
def sampleBlock (id height prev timestamp : Nat) (txHashes : List Nat) (fees : UInt64) :
    Block Nat :=
  let version := HardFork.versionAt height
  { majorVersion := version
    minorVersion := version
    timestamp := timestamp
    prevId := prev
    nonce := UInt32.ofNat id
    minerTx :=
      { id := 1000 + id, version := 2, unlockTime := height + 60, genHeight := some height
        rctTypeNull := true, vout := [baseReward (sampleCoins height) version + fees]
        weight := 100 }
    txHashes := txHashes }

def sampleTx (id : Nat) (fee : UInt64) : Tx Nat := ⟨id, fee, 200, false⟩

/-- The first `count` blocks of a chain of blocks two minutes apart, with ids from 1 on. -/
def steadyBlocks (count : Nat) : List (Event Nat) :=
  (List.range count).map fun height =>
    let timestamp := afterLaunch (120 * height)
    .addNewBlock timestamp 1 (sampleBlock (height + 1) height height timestamp [] 0) []

def payingRun (fee : UInt64) : List (Event Nat) :=
  let timestamp := afterLaunch 240
  steadyBlocks 2 ++ [.addTx (sampleTx 50 fee),
    .addNewBlock timestamp 1 (sampleBlock 3 2 2 timestamp [50] fee) []]

end Glaciem.Chain
