import Mathlib.Data.UInt
import Mathlib.Tactic

/-!
# Glaciem — checking the inputs of a transaction

`core::check_tx_semantic` and `Blockchain::check_tx_inputs`: what a transaction has to be in itself,
and what the outputs it refers to have to be on the chain. An input names the members of its ring by
relative offsets, whose running 64-bit sums are the indices of the outputs of its amount.

The curve and the proofs are parameters (`Crypto`). The chain is what these functions read of it:
the outputs of an amount are numbered 0, 1, 2, … in chain order, and heights stay far below the 64
bits they are computed with; both are fields of `View`.
-/

namespace Glaciem.Chain.TxInputs

/-! ## Transactions -/

structure TxinToKey (K : Type) where
  amount : UInt64
  keyOffsets : List UInt64
  kImage : K
  deriving DecidableEq

inductive TxinV (K : Type) where
  | gen
  | toScript
  | toScripthash
  | toKey (txin : TxinToKey K)
  deriving DecidableEq

def TxinV.toKey? {K : Type} : TxinV K → Option (TxinToKey K)
  | .toKey txin => some txin
  | _ => none

inductive TxoutTarget (P : Type) where
  | toScript
  | toScripthash
  | toKey (key : P)
  | toTaggedKey (key : P)
  deriving DecidableEq

structure TxOut (P : Type) where
  amount : UInt64
  target : TxoutTarget P
  deriving DecidableEq

/-- A transaction, as far as the checks read it: of the signatures only how many there are. -/
structure Transaction (K P : Type) where
  version : Nat
  vin : List (TxinV K)
  vout : List (TxOut P)
  signatures : List Nat := []
  outPk : Nat := 0
  deriving DecidableEq

def Transaction.toKeyInputs {K P : Type} (tx : Transaction K P) : List (TxinToKey K) :=
  tx.vin.filterMap TxinV.toKey?

structure OutputData (P : Type) where
  unlockTime : UInt64
  pubkey : P
  commitment : P
  height : Nat
  deriving DecidableEq

structure View (K P : Type) where
  height : Nat
  height_pos : 0 < height
  height_le : height ≤ 2 ^ 63
  hfVersion : Nat
  /-- `get_adjusted_time` at the height of the chain -/
  adjustedTime : UInt64
  /-- the clock of the machine -/
  time : UInt64
  outputs : UInt64 → List (OutputData P)
  ordered : ∀ amount, (outputs amount).Pairwise fun o o' => o.height ≤ o'.height
  created : ∀ amount, ∀ o ∈ outputs amount, o.height < height
  hasKeyImage : K → Bool

structure Crypto (K P : Type) where
  checkKey : P → Bool
  /-- the key image is not the identity and has the prime order -/
  inDomain : K → Bool
  verInputProofsRings : Transaction K P → List (List (P × P)) → Bool

/-! ## Semantic checks -/

section Semantic

variable {K P : Type} [DecidableEq K]

def allToKey (vin : List (TxinV K)) (p : List (TxinToKey K) → Bool) : Bool :=
  match vin.mapM TxinV.toKey? with
  | none => false
  | some txins => p txins

def sumsWithoutOverflow : UInt64 → List UInt64 → Bool
  | _, [] => true
  | money, amount :: rest =>
    if money > amount + money then false else sumsWithoutOverflow (money + amount) rest

def TxoutTarget.publicKey : TxoutTarget P → Option P
  | .toKey key | .toTaggedKey key => some key
  | _ => none

def TxoutTarget.isKey : TxoutTarget P → Bool
  | .toKey _ => true
  | _ => false

def TxoutTarget.isTaggedKey : TxoutTarget P → Bool
  | .toTaggedKey _ => true
  | _ => false

def checkOutsValid (X : Crypto K P) (tx : Transaction K P) : Bool :=
  tx.vout.all fun out =>
    match out.target.publicKey with
    | none => false
    | some key => !(tx.version = 1 && out.amount = 0) && X.checkKey key

variable (tx : Transaction K P)

def checkMoneyOverflow : Bool :=
  allToKey tx.vin (fun txins => sumsWithoutOverflow 0 (txins.map TxinToKey.amount))
    && sumsWithoutOverflow 0 (tx.vout.map TxOut.amount)

def checkAmountsV1 : Bool :=
  tx.version ≠ 1 || (tx.vout.map TxOut.amount).sum < (tx.toKeyInputs.map TxinToKey.amount).sum

def checkTxInputsKeyimagesDiff : Bool :=
  allToKey tx.vin fun txins => (txins.map TxinToKey.kImage).Nodup

def checkTxInputsRingMembersDiff (hfVersion : Nat) : Bool :=
  if hfVersion ≥ 6 then
    allToKey tx.vin fun txins => txins.all fun txin => txin.keyOffsets.tail.all (· ≠ 0)
  else true

def checkTxInputsKeyimagesDomain (X : Crypto K P) (tx : Transaction K P) : Bool :=
  allToKey tx.vin fun txins => txins.all fun txin => X.inDomain txin.kImage

def checkOutputTypes (hfVersion : Nat) : Bool :=
  tx.vout.all fun out =>
    if hfVersion > 15 then out.target.isTaggedKey
    else if hfVersion < 15 then out.target.isKey
    else (out.target.isKey || out.target.isTaggedKey)
      && (tx.vout.head?.map fun o => o.target.isTaggedKey) = some out.target.isTaggedKey

def checkTxSemantic (X : Crypto K P) (tx : Transaction K P) (hfVersion : Nat) : Bool :=
  !tx.vin.isEmpty && allToKey tx.vin (fun _ => true) && checkOutsValid X tx
    && (tx.version ≤ 1 || tx.outPk = tx.vout.length) && checkMoneyOverflow tx && checkAmountsV1 tx
    && checkTxInputsKeyimagesDiff tx && checkTxInputsRingMembersDiff tx hfVersion
    && checkTxInputsKeyimagesDomain X tx && checkOutputTypes tx hfVersion

end Semantic

/-! ## Rings -/

def absoluteFrom : UInt64 → List UInt64 → List UInt64
  | _, [] => []
  | acc, offset :: rest => (offset + acc) :: absoluteFrom (offset + acc) rest

def relativeOutputOffsetsToAbsolute (off : List UInt64) : List UInt64 := absoluteFrom 0 off

def maxBlockNumber : UInt64 := 500000000

def lockedTxAllowedDeltaBlocks : Nat := 1

def lockedTxAllowedDeltaSecondsV1 : UInt64 := 60

def lockedTxAllowedDeltaSecondsV2 : UInt64 := 120

def defaultTxSpendableAge : Nat := 10

section Inputs

variable {K P : Type}

variable (c : View K P)

/-- An unlock time is a height, or from `maxBlockNumber` on a time. -/
def View.isTxSpendtimeUnlocked (unlockTime : UInt64) (hfVersion : Nat) : Bool :=
  if unlockTime < maxBlockNumber then
    c.height - 1 + lockedTxAllowedDeltaBlocks ≥ unlockTime.toNat
  else
    let currentTime := if hfVersion ≥ 13 then c.adjustedTime else c.time
    currentTime + (if c.hfVersion < 2 then lockedTxAllowedDeltaSecondsV1
      else lockedTxAllowedDeltaSecondsV2) ≥ unlockTime

def View.output (amount index : UInt64) : Option (OutputData P) := (c.outputs amount)[index.toNat]?

/-- The members of a ring with their keys, if all exist and are unlocked, and the height of the last
one. -/
def View.scanOutputkeysForIndexes (txin : TxinToKey K) : Option (List (P × P) × Nat) :=
  match (relativeOutputOffsetsToAbsolute txin.keyOffsets).mapM (c.output txin.amount) with
  | none => none
  | some outputs =>
    match outputs.getLast? with
    | none => none
    | some last =>
      if outputs.all fun o => c.isTxSpendtimeUnlocked o.unlockTime c.hfVersion then
        some (outputs.map (fun o => (o.pubkey, o.commitment)), last.height)
      else none

def View.checkTxInput (version : Nat) (signatures : Option Nat) (txin : TxinToKey K)
    (maxUsedBlockHeight : Nat) : Option (List (P × P) × Nat) :=
  if txin.keyOffsets.isEmpty || c.hasKeyImage txin.kImage then none
  else
    match c.scanOutputkeysForIndexes txin with
    | none => none
    | some (keys, height) =>
      if version = 1 && signatures ≠ some keys.length then none
      else some (keys, max maxUsedBlockHeight height)

def View.checkEachInput (c : View K P) (version : Nat) :
    List Nat → List (TxinV K) → Nat → Option (List (List (P × P)) × Nat)
  | _, [], maxUsedBlockHeight => some ([], maxUsedBlockHeight)
  | signatures, .toKey txin :: rest, maxUsedBlockHeight =>
    match c.checkTxInput version signatures.head? txin maxUsedBlockHeight with
    | none => none
    | some (keys, maxUsedBlockHeight) =>
      (c.checkEachInput version signatures.tail rest maxUsedBlockHeight).map
        fun (rings, height) => (keys :: rings, height)
  | _, _ :: _, _ => none

/-! ## The whole check -/

/-- A ring of `n` members mixes with `n - 1` others; computed as `size_t`. -/
def ringMixin (txin : TxinToKey K) : Nat :=
  if txin.keyOffsets.isEmpty then 2 ^ 64 - 1 else txin.keyOffsets.length - 1

def minMixin (hfVersion : Nat) : Nat :=
  if hfVersion ≥ 15 then 15 else if hfVersion ≥ 8 then 10 else if hfVersion ≥ 7 then 6
  else if hfVersion ≥ 6 then 4 else 2

def View.isMixable (txin : TxinToKey K) : Bool :=
  txin.amount = 0 || minMixin c.hfVersion < (c.outputs txin.amount).length

def View.checkRingSizes (tx : Transaction K P) : Bool :=
  let mixins := tx.toKeyInputs.map ringMixin
  let minActual := mixins.foldl min (2 ^ 64 - 1)
  let maxActual := mixins.foldl max 0
  let nUnmixable := tx.toKeyInputs.countP fun txin => !c.isMixable txin
  let nMixable := tx.toKeyInputs.countP c.isMixable
  let hf := c.hfVersion
  if hf ≥ 12 && minActual ≠ maxActual then false
  else if minActual < minMixin hf && !(hf = 15 && minActual = 10) then
    !(nUnmixable = 0) && !(nMixable > 1)
  else !((hf > 15 && minActual > 15) || (hf = 15 && minActual ≠ 15 && minActual ≠ 10)
    || (hf < 15 && hf ≥ 10 && minActual > 10) || ((hf = 8 || hf = 9) && minActual ≠ 10))

def View.checkTxVersion (tx : Transaction K P) : Bool :=
  let nUnmixable := tx.toKeyInputs.countP fun txin => !c.isMixable txin
  let maxTxVersion := if c.hfVersion ≤ 3 then 1 else 2
  let minTxVersion := if nUnmixable > 0 then 1 else if c.hfVersion ≥ 6 then 2 else 1
  minTxVersion ≤ tx.version && tx.version ≤ maxTxVersion

def sortedInputs [LinearOrder K] (tx : Transaction K P) : Bool :=
  (tx.toKeyInputs.map TxinToKey.kImage).Pairwise (fun k k' => k' < k)

/-- A transaction whose rings were verified before with the same keys (`verifiedRings`, for
`valid_input_verification_id_inout`) skips the proofs. -/
def View.checkTxInputs [LinearOrder K] [DecidableEq P] (X : Crypto K P)
    (tx : Transaction K P) (verifiedRings : Option (List (List (P × P)))) : Bool :=
  !(c.hfVersion ≥ 12 && tx.version ≥ 2 && tx.vout.length < 2)
    && (c.hfVersion < 2 || (c.checkRingSizes tx && c.checkTxVersion tx))
    && (c.hfVersion < 7 || sortedInputs tx)
    && match c.checkEachInput tx.version tx.signatures tx.vin 0 with
      | none => false
      | some (rings, maxUsedBlockHeight) =>
        (c.hfVersion < 12 || maxUsedBlockHeight + defaultTxSpendableAge ≤ c.height)
          && (verifiedRings = some rings || X.verInputProofsRings tx rings)

end Inputs

end Glaciem.Chain.TxInputs
