import Glaciem.Chain.RingMembers

/-!
# Glaciem — when the wallet takes an output for spendable

`is_transfer_unlocked` of `wallet2` against the rule of the node for ring members. Both read an
unlock time below `maxBlockNumber` as a height and any other as a time, and both ask for ten blocks
on top. They differ in the leeway they give a time: the node chooses it by the fork version of its
chain, the wallet by the height of the output's block, against the height at which another chain had
its second fork.
-/

namespace Glaciem.Wallet

open Glaciem.Chain.TxInputs

inductive NetworkType where
  | mainnet
  | testnet
  | stagenet
  | fakechain
  deriving DecidableEq

/-- What the wallet's check reads. The time is that of the daemon (its own clock when there is no
daemon). -/
structure WalletView where
  nettype : NetworkType
  blockchainCurrentHeight : Nat
  adjustedTime : UInt64

def NetworkType.v2height : NetworkType → Nat
  | .testnet => 624634
  | .stagenet => 32000
  | _ => 1009827

def WalletView.isTxSpendtimeUnlocked (w : WalletView) (unlockTime : UInt64) (blockHeight : Nat) :
    Bool :=
  if unlockTime < maxBlockNumber then
    w.blockchainCurrentHeight - 1 + lockedTxAllowedDeltaBlocks ≥ unlockTime.toNat
  else
    let leeway := if blockHeight < w.nettype.v2height then lockedTxAllowedDeltaSecondsV1
      else lockedTxAllowedDeltaSecondsV2
    w.adjustedTime + leeway ≥ unlockTime

def WalletView.isTransferUnlocked (w : WalletView) (unlockTime : UInt64) (blockHeight : Nat) :
    Bool :=
  w.isTxSpendtimeUnlocked unlockTime blockHeight
    && !(blockHeight + defaultTxSpendableAge > w.blockchainCurrentHeight)

section Node

variable {K P : Type}

def acceptsRingMember (c : View K P) (unlockTime : UInt64) (blockHeight : Nat) : Bool :=
  c.isTxSpendtimeUnlocked unlockTime c.hfVersion
    && (c.hfVersion < 12 || blockHeight + defaultTxSpendableAge ≤ c.height)

theorem acceptsRingMember_iff (c : View K P) {amount index : UInt64} {kImage : K}
    {o : OutputData P} (hkey : c.hasKeyImage kImage = false) (ho : c.output amount index = some o) :
    acceptsRingMember c o.unlockTime o.height = true ↔
      ∃ keys maxUsedBlockHeight, c.checkTxInput 2 none ⟨amount, [index], kImage⟩ 0
          = some (keys, maxUsedBlockHeight)
        ∧ (c.hfVersion < 12 ∨ maxUsedBlockHeight + defaultTxSpendableAge ≤ c.height) := by
  have hindices : (TxinToKey.mk amount [index] kImage).indices = [index] := by
    simp [TxinToKey.indices, relativeOutputOffsetsToAbsolute, absoluteFrom]
  have hmembers : c.members ⟨amount, [index], kImage⟩ = some [o.spent] := by
    simp [View.members, hindices, ho]
  have hlast : c.lastHeight ⟨amount, [index], kImage⟩ = o.height :=
    c.lastHeight_eq (by rw [hindices]; rfl) ho
  rw [View.checkTxInput_eq, View.ring, hmembers, hlast, acceptsRingMember]
  cases hunlocked : c.isTxSpendtimeUnlocked o.unlockTime c.hfVersion with
  | false | true => simp [hkey, View.unlockedKeys, OutputData.spent, hunlocked]

/-! ## The comparison -/

/-- The leeways of 60 and of 120 seconds on top of the adjusted time both reach the unlock time, or
neither does. -/
def LeewaysAgree (adjustedTime unlockTime : UInt64) : Prop :=
  unlockTime ≤ adjustedTime + lockedTxAllowedDeltaSecondsV1
    ↔ unlockTime ≤ adjustedTime + lockedTxAllowedDeltaSecondsV2

/-- A wallet of the main network that has all blocks of the node's chain and is told its adjusted
time. -/
structure Synchronised (w : WalletView) (c : View K P) : Prop where
  nettype_eq : w.nettype = .mainnet
  height_eq : w.blockchainCurrentHeight = c.height
  adjustedTime_eq : w.adjustedTime = c.adjustedTime

theorem isTransferUnlocked_eq {w : WalletView} {c : View K P} (hw : Synchronised w c)
    (unlockTime : UInt64) (h : Nat) : w.isTransferUnlocked unlockTime h
      = ((if unlockTime < maxBlockNumber then decide (c.height - 1 + 1 ≥ unlockTime.toNat)
          else if h < 1009827 then
            decide (unlockTime ≤ c.adjustedTime + lockedTxAllowedDeltaSecondsV1)
          else decide (unlockTime ≤ c.adjustedTime + lockedTxAllowedDeltaSecondsV2))
        && decide (h + defaultTxSpendableAge ≤ c.height)) := by
  rw [WalletView.isTransferUnlocked, WalletView.isTxSpendtimeUnlocked, hw.nettype_eq, hw.height_eq,
    hw.adjustedTime_eq]
  congr 1
  · simp only [NetworkType.v2height, ge_iff_le, lockedTxAllowedDeltaBlocks]
    by_cases hv2 : h < 1009827
    · simp only [hv2, if_true]
    · simp only [hv2, if_false]
  · rw [← decide_not]
    congr 1
    simp

theorem acceptsRingMember_eq {c : View K P} (hhf : 13 ≤ c.hfVersion) (unlockTime : UInt64)
    (h : Nat) : acceptsRingMember c unlockTime h
      = ((if unlockTime < maxBlockNumber then decide (c.height - 1 + 1 ≥ unlockTime.toNat)
          else decide (unlockTime ≤ c.adjustedTime + lockedTxAllowedDeltaSecondsV2))
        && decide (h + defaultTxSpendableAge ≤ c.height)) := by
  have hold : decide (c.hfVersion < 12) = false := decide_eq_false (by omega)
  have hv2 : ¬ c.hfVersion < 2 := by omega
  rw [acceptsRingMember, View.isTxSpendtimeUnlocked, hold, if_pos hhf, if_neg hv2, Bool.false_or]
  rfl

/-- They agree exactly when the unlock time is a height, or the block is past the wallet's fork
height, or the output is too young anyway, or the two leeways agree. -/
theorem wallet_agrees_iff (w : WalletView) (c : View K P) (hw : Synchronised w c)
    (hhf : 13 ≤ c.hfVersion) (unlockTime : UInt64) (h : Nat) :
    w.isTransferUnlocked unlockTime h = acceptsRingMember c unlockTime h
      ↔ unlockTime < maxBlockNumber ∨ 1009827 ≤ h ∨ c.height < h + defaultTxSpendableAge
        ∨ LeewaysAgree c.adjustedTime unlockTime := by
  rw [isTransferUnlocked_eq hw, acceptsRingMember_eq hhf, LeewaysAgree]
  by_cases hblocks : unlockTime < maxBlockNumber
  · simp [hblocks]
  by_cases hv2 : h < 1009827
  · by_cases hage : h + defaultTxSpendableAge ≤ c.height
    · simp only [hblocks, hv2, hage, if_true, if_false, decide_true, Bool.and_true,
        decide_eq_decide, false_or, not_le.mpr hv2, not_lt.mpr hage]
    · simp [hage, Nat.lt_of_not_le hage]
  · simp [hblocks, hv2, not_lt.mp hv2]

end Node

def sampleWallet : WalletView := ⟨.mainnet, 100, 1800000000⟩

theorem wallet_agrees_iff_sample : Synchronised sampleWallet sampleView
    ∧ sampleWallet.isTransferUnlocked 1800000050 5 = acceptsRingMember sampleView 1800000050 5 := by
  have hw : Synchronised sampleWallet sampleView := ⟨rfl, rfl, rfl⟩
  refine ⟨hw, (wallet_agrees_iff sampleWallet sampleView hw (by decide) 1800000050 5).mpr ?_⟩
  exact .inr (.inr (.inr (by unfold LeewaysAgree; decide)))

/-- The node accepts an output that unlocks 90 seconds from now, the wallet takes it for locked. -/
theorem wallet_disagrees : Synchronised sampleWallet sampleView
    ∧ sampleWallet.isTransferUnlocked 1800000090 5 = false
    ∧ acceptsRingMember sampleView 1800000090 5 = true :=
  ⟨⟨rfl, rfl, rfl⟩, by decide +kernel, by decide +kernel⟩

end Glaciem.Wallet
