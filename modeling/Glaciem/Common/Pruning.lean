import Mathlib.Tactic

/-!
# Glaciem — pruning seeds

`common/pruning.h` and `common/pruning.cpp`. A seed names one stripe of blocks in `2 ^ log_stripes`.
A node with the seed has the full data of the blocks of that stripe and of those near the top.
-/

namespace Glaciem

def CRYPTONOTE_PRUNING_STRIPE_SIZE : Nat := 4096
def CRYPTONOTE_PRUNING_LOG_STRIPES : Nat := 3
def CRYPTONOTE_PRUNING_TIP_BLOCKS : Nat := 5500

def getPruningLogStripes (pruningSeed : Nat) : Nat := (pruningSeed >>> 7) &&& 0x7

/-- `get_pruning_stripe` of a seed; 0 if nothing is pruned. -/
def getPruningStripe (pruningSeed : Nat) : Nat :=
  if pruningSeed = 0 then 0 else 1 + (pruningSeed &&& 0x7f)

/-- `get_pruning_stripe` of a block; 0 near the top. `reach` is the sum
`block_height + CRYPTONOTE_PRUNING_TIP_BLOCKS`: the heights a peer sends are any 64-bit numbers and
it can wrap, those of the database are counts of its rows. -/
def getBlockStripe (reach blockHeight blockchainHeight logStripes : Nat) : Nat :=
  if blockchainHeight ≤ reach then 0
  else ((blockHeight / CRYPTONOTE_PRUNING_STRIPE_SIZE) &&& ((1 <<< logStripes) - 1)) + 1

/-- `has_unpruned_block`, with `reach` as there. -/
def hasUnprunedBlockFrom (reach blockHeight blockchainHeight pruningSeed : Nat) : Bool :=
  let stripe := getPruningStripe pruningSeed
  if stripe = 0 then true
  else
    let blockStripe :=
      getBlockStripe reach blockHeight blockchainHeight (getPruningLogStripes pruningSeed)
    blockStripe = 0 || blockStripe = stripe

end Glaciem
