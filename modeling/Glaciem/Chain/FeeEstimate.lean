import Glaciem.Chain.Amount
import Glaciem.Chain.LongTermWeight

/-!
# Glaciem — fee estimates and the fee check

`check_fee`, `get_dynamic_base_fee` and `get_dynamic_base_fee_estimate_2021_scaling` of
`cryptonote_core/blockchain.cpp`. The estimate moves the window of long-term weights on by a number
of empty blocks. A transaction that pays it is accepted after as many blocks at most, whatever their
weights are.
-/

namespace Glaciem.Chain

open List Option Nat

variable {H : Type}

variable {coins : UInt64} {version fee : Nat}

/-! ## The fee of a transaction -/

def DYNAMIC_FEE_REFERENCE_TRANSACTION_WEIGHT : Nat := 3000
def CRYPTONOTE_SCALING_2021_FEE_ROUNDING_PLACES : Nat := 2
def BLOCK_REWARD_OVERESTIMATE : Nat := 10 * 1000000000000

/-- `get_fee_quantization_mask`: 12 decimals of the coin, 8 of the fee. -/
def feeQuantizationMask : Nat := 10 ^ (12 - 8)

def quantizeFee (fee : Nat) : Nat :=
  (fee + feeQuantizationMask - 1) % 2 ^ 64 / feeQuantizationMask * feeQuantizationMask

/-- `get_dynamic_base_fee`. The products and quotients are of 128 bits. -/
def getDynamicBaseFee (blockReward medianBlockWeight : Nat) : Nat :=
  let median := max CRYPTONOTE_BLOCK_GRANTED_FULL_REWARD_ZONE_V5 medianBlockWeight
  let lo := blockReward * DYNAMIC_FEE_REFERENCE_TRANSACTION_WEIGHT / median / median
  let lo := lo - lo / 20
  if lo = 0 then 1 else lo

def checkFee (limits : WeightLimits) (coins : UInt64) (version txWeight fee : Nat) : Bool :=
  let median := limits.cumulWeightLimit / 2
  match getBlockReward (UInt64.ofNat median) 1 coins version with
  | none => false
  | some baseReward =>
    let feePerByte := getDynamicBaseFee baseReward.toNat (min median limits.longTermEffectiveMedian)
    let neededFee := quantizeFee (txWeight * feePerByte % 2 ^ 64)
    neededFee - neededFee / 50 ≤ fee

def feesFor (baseReward Mnw Mlw : Nat) : Option (List Nat) :=
  let Mfw := min Mnw Mlw
  let Fl := baseReward * DYNAMIC_FEE_REFERENCE_TRANSACTION_WEIGHT % 2 ^ 64 / (Mfw * Mfw % 2 ^ 64)
  let Fn := 4 * baseReward * DYNAMIC_FEE_REFERENCE_TRANSACTION_WEIGHT % 2 ^ 64
    / (Mfw * Mfw % 2 ^ 64)
  let Fm := 16 * baseReward * DYNAMIC_FEE_REFERENCE_TRANSACTION_WEIGHT % 2 ^ 64
    / (CRYPTONOTE_BLOCK_GRANTED_FULL_REWARD_ZONE_V5 * Mfw % 2 ^ 64)
  let Fh := max (4 * Fm % 2 ^ 64) (4 * Fm * Mfw % 2 ^ 64
    / (32 * DYNAMIC_FEE_REFERENCE_TRANSACTION_WEIGHT * Mnw % 2 ^ 64
      / CRYPTONOTE_BLOCK_GRANTED_FULL_REWARD_ZONE_V5))
  [Fl, Fn, Fm, Fh].mapM fun f => roundMoneyUp f CRYPTONOTE_SCALING_2021_FEE_ROUNDING_PLACES

/-- The long-term median for the wallet: the window moved on by empty blocks. -/
def penaltyFreeZoneForWallet (rm : RollingMedian Nat) (graceBlocks : Nat) : Nat :=
  let rm := rm.insertAll (replicate graceBlocks 0)
  max (if rm.sz = 0 then 0 else rm.median getMid) CRYPTONOTE_BLOCK_GRANTED_FULL_REWARD_ZONE_V5

def feeEstimate2021Scaling (W : Weighing H) (s : WeightState H) (coins : UInt64)
    (version graceBlocks : Nat) : Option (List Nat) :=
  if CRYPTONOTE_REWARD_BLOCKS_WINDOW < graceBlocks then none
  else
    let Mlw := penaltyFreeZoneForWallet s.cacheRollingMedian graceBlocks
    let weights := s.getLastNBlocksWeights W (100 - graceBlocks) ++ replicate graceBlocks 0
    let Msw := max (median weights) Mlw
    let Mnw := min Msw (50 * Mlw % 2 ^ 64)
    let baseReward := match getBlockReward (UInt64.ofNat (s.limits.cumulWeightLimit / 2)) 1 coins
        version with
      | some baseReward => baseReward.toNat
      | none => BLOCK_REWARD_OVERESTIMATE
    feesFor baseReward Mnw Mlw

theorem getBlockReward_one (median coins : UInt64) (version : Nat) :
    getBlockReward median 1 coins version = some (baseReward coins version) := by
  have hzone : 1 ≤ getMinBlockWeight version := by
    unfold getMinBlockWeight
    split
    · decide
    · split <;> decide
  have hmedian : 1 ≤ if median < getMinBlockWeight version then getMinBlockWeight version
      else median := by
    split
    · exact hzone
    · next hge => exact UInt64.le_trans hzone (UInt64.not_lt.mp hge)
  exact if_pos hmedian

theorem baseReward_anti {coins' : UInt64} (h : coins.toNat ≤ coins'.toNat) (version : Nat) :
    (baseReward coins' version).toNat ≤ (baseReward coins version).toNat := by
  have hsub : ∀ c : UInt64, (MONEY_SUPPLY - c).toNat = 2 ^ 64 - 1 - c.toNat := by
    intro c
    rw [UInt64.toNat_sub_of_le _ _ (UInt64.le_iff_toNat_le.mpr ?_)]
    · rfl
    · exact le_of_lt_succ c.toNat_lt
  have hshift : ∀ k : UInt64,
      ((MONEY_SUPPLY - coins') >>> k).toNat ≤ ((MONEY_SUPPLY - coins) >>> k).toNat := by
    intro k
    rw [UInt64.toNat_shiftRight, UInt64.toNat_shiftRight, shiftRight_eq_div_pow,
      shiftRight_eq_div_pow, hsub, hsub]
    exact Nat.div_le_div_right (Nat.sub_le_sub_left h _)
  unfold baseReward
  dsimp only
  generalize UInt64.ofNat (EMISSION_SPEED_FACTOR_PER_MINUTE - _) = k
  generalize FINAL_SUBSIDY_PER_MINUTE * _ = tail
  have hle := hshift k
  split
  · split
    · exact le_rfl
    · next hnot => exact UInt64.le_iff_toNat_le.mp (UInt64.not_lt.mp hnot)
  · next hnot =>
    have hge := UInt64.le_iff_toNat_le.mp (UInt64.not_lt.mp hnot)
    rw [if_neg (UInt64.not_lt.mpr (UInt64.le_iff_toNat_le.mpr (hge.trans hle)))]
    exact hle

theorem le_foldl_addCoins (coins : UInt64) (rewards : List UInt64) :
    coins.toNat ≤ (rewards.foldl addCoins coins).toNat := by
  induction rewards generalizing coins with
  | nil => exact le_rfl
  | cons reward rewards ih =>
    have hstep : coins.toNat ≤ (addCoins coins reward).toNat := by
      have := coins.toNat_lt
      rw [toNat_addCoins]
      omega
    rw [foldl_cons]
    exact hstep.trans (ih _)

/-! ## The check against the estimate -/

theorem feeMedian_limitsFor {shortTermMedian longTermMedian : Nat} {old : WeightLimits}
    (hversion : HF_VERSION_2021_SCALING ≤ version)
    (hsurge : CRYPTONOTE_SHORT_TERM_BLOCK_WEIGHT_SURGE_FACTOR
      * max CRYPTONOTE_BLOCK_GRANTED_FULL_REWARD_ZONE_V5 longTermMedian < 2 ^ 64)
    (hlimit : (limitsFor version shortTermMedian (some longTermMedian) old).cumulWeightMedian * 2
      < 2 ^ 64) :
    min ((limitsFor version shortTermMedian (some longTermMedian) old).cumulWeightLimit / 2)
        (max CRYPTONOTE_BLOCK_GRANTED_FULL_REWARD_ZONE_V5 longTermMedian)
      = max CRYPTONOTE_BLOCK_GRANTED_FULL_REWARD_ZONE_V5 longTermMedian := by
  have hlate : 15 ≤ version := hversion
  have hfactor : CRYPTONOTE_SHORT_TERM_BLOCK_WEIGHT_SURGE_FACTOR = 50 := rfl
  have hzone : (getMinBlockWeight version).toNat = 300000 := by
    unfold getMinBlockWeight
    rw [if_neg (by omega), if_neg (by omega)]
    rfl
  have hmin : 300000 ≤ max CRYPTONOTE_BLOCK_GRANTED_FULL_REWARD_ZONE_V5 longTermMedian :=
    le_max_left _ _
  unfold limitsFor at hlimit ⊢
  simp only [if_pos hversion, hzone] at hlimit ⊢
  generalize max CRYPTONOTE_BLOCK_GRANTED_FULL_REWARD_ZONE_V5 longTermMedian = effective at *
  rw [Nat.mod_eq_of_lt hsurge] at hlimit ⊢
  rw [hfactor] at hlimit ⊢
  have hbound : effective ≤ min (max effective shortTermMedian) (50 * effective) := by omega
  generalize min (max effective shortTermMedian) (50 * effective) = median at *
  have hbound' : effective ≤ (if median ≤ 300000 then 300000 else median) := by
    split <;> omega
  generalize (if median ≤ 300000 then 300000 else median) = median' at *
  rw [Nat.mod_eq_of_lt hlimit, Nat.mul_div_cancel _ (by decide)]
  omega

theorem longTermEffectiveMedian_limitsFor (version shortTermMedian longTermMedian : Nat)
    (old : WeightLimits) :
    (limitsFor version shortTermMedian (some longTermMedian) old).longTermEffectiveMedian
      = max CRYPTONOTE_BLOCK_GRANTED_FULL_REWARD_ZONE_V5 longTermMedian := rfl

theorem quantizeFee_mono {fee' : Nat} (h : fee ≤ fee')
    (hfit : fee' + feeQuantizationMask ≤ 2 ^ 64) :
    quantizeFee fee ≤ quantizeFee fee' := by
  have hpos : 0 < feeQuantizationMask := by decide
  unfold quantizeFee
  rw [Nat.mod_eq_of_lt (by omega), Nat.mod_eq_of_lt (by omega)]
  exact Nat.mul_le_mul_right _ (Nat.div_le_div_right (by omega))

theorem checkFee_of_le {limits : WeightLimits} {txWeight median : Nat}
    (hmedian : min (limits.cumulWeightLimit / 2) limits.longTermEffectiveMedian = median)
    (hfee : getDynamicBaseFee (baseReward coins version).toNat median ≤ fee)
    (hproduct : txWeight * fee + feeQuantizationMask ≤ 2 ^ 64) :
    checkFee limits coins version txWeight (quantizeFee (txWeight * fee)) = true := by
  have hmask : 0 < feeQuantizationMask := by decide
  have hle := mul_le_mul_left txWeight hfee
  unfold checkFee
  dsimp only
  rw [getBlockReward_one]
  dsimp only
  rw [hmedian, Nat.mod_eq_of_lt (by omega), decide_eq_true_eq]
  exact (sub_le _ _).trans (quantizeFee_mono hle hproduct)

theorem getDynamicBaseFee_le {reward reward' median median' : Nat} (hreward : reward' ≤ reward)
    (hzone : CRYPTONOTE_BLOCK_GRANTED_FULL_REWARD_ZONE_V5 ≤ median) (hmedian : median ≤ median')
    (hpos : median * median ≤ reward * DYNAMIC_FEE_REFERENCE_TRANSACTION_WEIGHT)
    (hfee : reward * DYNAMIC_FEE_REFERENCE_TRANSACTION_WEIGHT / (median * median) ≤ fee) :
    getDynamicBaseFee reward' median' ≤ fee := by
  have hmedian0 : 0 < median := lt_of_lt_of_le (by decide) hzone
  have hsquare : 0 < median * median := mul_pos hmedian0 hmedian0
  have hone : 1 ≤ fee := le_trans ((le_div_iff_mul_le hsquare).mpr (by omega)) hfee
  have hlo : reward' * DYNAMIC_FEE_REFERENCE_TRANSACTION_WEIGHT / median' / median' ≤ fee := by
    rw [Nat.div_div_eq_div_mul]
    calc reward' * DYNAMIC_FEE_REFERENCE_TRANSACTION_WEIGHT / (median' * median')
        ≤ reward' * DYNAMIC_FEE_REFERENCE_TRANSACTION_WEIGHT / (median * median) :=
          Nat.div_le_div_left (Nat.mul_le_mul hmedian hmedian) hsquare
      _ ≤ reward * DYNAMIC_FEE_REFERENCE_TRANSACTION_WEIGHT / (median * median) :=
          Nat.div_le_div_right (Nat.mul_le_mul_right _ hreward)
      _ ≤ fee := hfee
  unfold getDynamicBaseFee
  rw [max_eq_right (hzone.trans hmedian)]
  dsimp only
  split <;> omega

theorem penaltyFreeZoneForWallet_eq {rm : RollingMedian Nat} (h : rm.Valid) {weights : List Nat}
    (hitems : rm.items = weights.rtake rm.capacity) (graceBlocks : Nat) :
    penaltyFreeZoneForWallet rm graceBlocks
      = max (median ((weights ++ replicate graceBlocks 0).rtake rm.capacity))
          CRYPTONOTE_BLOCK_GRANTED_FULL_REWARD_ZONE_V5 := by
  obtain ⟨hvalid, hmoved, -⟩ := h.insertAll (replicate graceBlocks 0)
  rw [hitems, rtake_append] at hmoved
  unfold penaltyFreeZoneForWallet
  dsimp only
  rw [← hmoved]
  generalize rm.insertAll _ = rm' at *
  split
  · next hempty =>
    rw [eq_nil_of_length_eq_zero (rm'.length_items.trans hempty)]
    rfl
  · next hne => rw [hvalid.median_eq (pos_of_ne_zero hne)]

theorem le_feeEstimate {W : Weighing H} {s : WeightState H} {graceBlocks : Nat} {fees : List Nat}
    (hfees : feeEstimate2021Scaling W s coins version graceBlocks = some fees)
    (hfee : fees[0]? = some fee)
    (hfit : penaltyFreeZoneForWallet s.cacheRollingMedian graceBlocks
      * penaltyFreeZoneForWallet s.cacheRollingMedian graceBlocks < 2 ^ 64) :
    (baseReward coins version).toNat * DYNAMIC_FEE_REFERENCE_TRANSACTION_WEIGHT
      / (penaltyFreeZoneForWallet s.cacheRollingMedian graceBlocks
        * penaltyFreeZoneForWallet s.cacheRollingMedian graceBlocks) ≤ fee := by
  unfold feeEstimate2021Scaling at hfees
  split at hfees
  · cases hfees
  · dsimp only at hfees
    rw [getBlockReward_one] at hfees
    have hzone : 300000 ≤ penaltyFreeZoneForWallet s.cacheRollingMedian graceBlocks :=
      le_max_right _ _
    generalize penaltyFreeZoneForWallet s.cacheRollingMedian graceBlocks = zone at *
    generalize median _ = short at hfees
    have hsmall : zone < 2 ^ 32 := by
      by_contra hlarge
      have := mul_le_mul (not_lt.mp hlarge) (not_lt.mp hlarge)
      omega
    have hmin : min (min (max short zone) (50 * zone % 2 ^ 64)) zone = zone := by
      rw [Nat.mod_eq_of_lt (by omega)]
      omega
    have hreward := baseReward_lt coins version
    have hproduct : (baseReward coins version).toNat * DYNAMIC_FEE_REFERENCE_TRANSACTION_WEIGHT
        < 2 ^ 64 := by
      unfold DYNAMIC_FEE_REFERENCE_TRANSACTION_WEIGHT
      omega
    unfold feesFor at hfees
    dsimp only at hfees
    rw [hmin, Nat.mod_eq_of_lt hproduct, Nat.mod_eq_of_lt hfit, mapM_cons] at hfees
    obtain ⟨first, hfirst, hrest⟩ := bind_eq_some_iff.mp hfees
    obtain ⟨rest, -, hlist⟩ := bind_eq_some_iff.mp hrest
    cases hlist
    cases hfee
    exact le_of_roundMoneyUp (lt_of_le_of_lt (div_le_self _ _) hproduct) hfirst

/-! ## Runs -/

section Runs

variable [DecidableEq H] {W : Weighing H} {S : Set (Block H)}

structure WeightState.Current (W : Weighing H) (S : Set (Block H)) (s : WeightState H) : Prop
    extends s.Sound W S where
  window_pos : 0 < W.window
  items : s.cacheRollingMedian.items = s.longTermWeights.rtake W.window
  limits : ∃ shortTermMedian old, s.limits = limitsFor (W.version s.chain.length) shortTermMedian
    (some (median (s.longTermWeights.rtake W.window))) old

theorem WeightState.Sound.current_of_update {s s' : WeightState H} (h : s.Sound W S)
    (hinj : Set.InjOn W.rules.blockId S)
    (hversion : HF_VERSION_LONG_TERM_BLOCK_WEIGHT ≤ W.version s.chain.length)
    (hs' : s.updateNextCumulativeWeightLimit W = some s') :
    s'.Current W S ∧ s'.chain = s.chain := by
  obtain ⟨hchain, hsound, hlimits, hitems⟩ := h.of_update hinj hs'
  have hweights : s'.longTermWeights = s.longTermWeights := by
    rw [WeightState.longTermWeights, hchain, WeightState.longTermWeights]
  rw [if_neg (not_lt.mpr hversion)] at hlimits
  obtain ⟨hwindow, hitems⟩ := hitems hversion
  refine ⟨⟨hsound, hwindow, ?_, ?_⟩, hchain⟩
  · rw [hweights]
    exact hitems
  · rw [hweights, hchain]
    exact ⟨_, _, hlimits⟩

def nextOps (next : List (Block H)) : List (WeightOp H) :=
  next.flatMap fun b => [.addBlock b, .update]

theorem WeightState.Current.next {s s' : WeightState H} {next : List (Block H)}
    (h : s.Current W S) (hinj : Set.InjOn W.rules.blockId S) (hS : ∀ b ∈ next, b ∈ S)
    (hversion : ∀ height, s.chain.length ≤ height → height ≤ s.chain.length + next.length →
      HF_VERSION_LONG_TERM_BLOCK_WEIGHT ≤ W.version height)
    (hs' : (weighedChains W).exec s (nextOps next) = some s') :
    s'.Current W S ∧ s'.blocks = s.blocks ++ next := by
  induction next generalizing s with
  | nil =>
    cases hs'
    exact ⟨h, (append_nil _).symm⟩
  | cons b next ih =>
    obtain ⟨s₁, hadd, hrest⟩ := (weighedChains W).exec_cons.mp hs'
    obtain ⟨s₂, hupdate, hrest⟩ := (weighedChains W).exec_cons.mp hrest
    obtain ⟨hb, hS⟩ := forall_mem_cons.mp hS
    obtain ⟨hsound, hblocks⟩ := h.toSound.addBlock hinj hb hadd
    have hlength : s₁.chain.length = s.chain.length + 1 := by
      rw [← s₁.length_blocks, hblocks, length_append, s.length_blocks]
      rfl
    obtain ⟨hcurrent, hchain⟩ :=
      hsound.current_of_update hinj (hversion _ (by omega) (by simp; omega)) hupdate
    obtain ⟨hlast, hall⟩ := ih hcurrent hS (fun height hlow hhigh => hversion height
      (by rw [hchain] at hlow; omega) (by rw [hchain] at hhigh; simp; omega)) hrest
    refine ⟨hlast, ?_⟩
    rw [hall, WeightState.blocks, hchain]
    show s₁.blocks ++ next = _
    rw [hblocks, append_assoc]
    rfl

omit [DecidableEq H] in
theorem weightsFrom_append (W : Weighing H) (bs cs : List (Block H)) :
    ∃ new, weightsFrom W (bs ++ cs) = weightsFrom W bs ++ new ∧ new.length = cs.length := by
  induction cs using reverseRecOn with
  | nil => exact ⟨[], by simp, rfl⟩
  | append_singleton cs c ih =>
    obtain ⟨new, hnew, hlength⟩ := ih
    refine ⟨new ++ [nextWeight W (weightsFrom W (bs ++ cs)) c], ?_, ?_⟩
    · rw [← append_assoc, weightsFrom_concat, ← append_assoc, ← hnew]
    · rw [length_append, length_append, hlength]
      rfl

/-- After any run that ends with an update, and at most as many further blocks as there are grace
blocks: a transaction that pays the first fee of the estimate for its weight, rounded up to the
quantum, passes, if the reference fee is not below one unit and the products fit into words. -/
theorem fee_estimate_kept (W : Weighing H) (memory : Nat → Nat) (ops : List (WeightOp H))
    (s s' : WeightState H) (next : List (Block H)) (coins : UInt64) (rewards : List UInt64)
    (version graceBlocks txWeight fee : Nat) (fees : List Nat)
    (hinj : Set.InjOn W.rules.blockId (weighedArrivals (ops ++ next.map .addBlock)))
    (hrun : (weighedChains W).exec (WeightState.init W memory) (ops ++ [.update]) = some s)
    (hnext : (weighedChains W).exec s (nextOps next) = some s')
    (hgrace : next.length ≤ graceBlocks)
    (hversion : ∀ height, s.chain.length ≤ height → height ≤ s.chain.length + next.length →
      W.version height = version)
    (hscaling : HF_VERSION_2021_SCALING ≤ version)
    (hfees : feeEstimate2021Scaling W s coins version graceBlocks = some fees)
    (hfee : fees[0]? = some fee)
    (hreward : penaltyFreeZoneForWallet s.cacheRollingMedian graceBlocks
        * penaltyFreeZoneForWallet s.cacheRollingMedian graceBlocks
      ≤ (baseReward coins version).toNat * DYNAMIC_FEE_REFERENCE_TRANSACTION_WEIGHT)
    (hsquare : penaltyFreeZoneForWallet s.cacheRollingMedian graceBlocks
        * penaltyFreeZoneForWallet s.cacheRollingMedian graceBlocks < 2 ^ 64)
    (hsurge : CRYPTONOTE_SHORT_TERM_BLOCK_WEIGHT_SURGE_FACTOR * s'.limits.longTermEffectiveMedian
      < 2 ^ 64)
    (hlimit : s'.limits.cumulWeightMedian * 2 < 2 ^ 64)
    (hproduct : txWeight * fee + feeQuantizationMask ≤ 2 ^ 64) :
    checkFee s'.limits (rewards.foldl addCoins coins) version txWeight
      (quantizeFee (txWeight * fee)) = true := by
  have hlate : HF_VERSION_LONG_TERM_BLOCK_WEIGHT ≤ version := le_trans (by decide) hscaling
  -- the state of the estimate, and the state of the check
  obtain ⟨s₀, hs₀, hupdate⟩ := (weighedChains W).exec_append.mp hrun
  obtain ⟨s₁, hupdate, hlast⟩ := (weighedChains W).exec_cons.mp hupdate
  cases hlast
  have hsound : s₀.Sound W (weighedArrivals (ops ++ next.map .addBlock)) :=
    sound_of_exec hinj (fun b hb => mem_append_left _ hb) hs₀
  have hsame : s.chain = s₀.chain := (hsound.of_update hinj hupdate).1
  obtain ⟨hcurrent, -⟩ := hsound.current_of_update hinj
    (by rw [← hsame, hversion _ (le_refl _) (le_add_right _ _)]; exact hlate) hupdate
  obtain ⟨hcurrent', hblocks⟩ := hcurrent.next hinj
    (fun b hb => mem_append_right _ (mem_map.mpr ⟨b, hb, rfl⟩))
    (fun height hlow hhigh => (hversion height hlow hhigh).symm ▸ hlate) hnext
  have hlength : s'.chain.length = s.chain.length + next.length := by
    rw [← s'.length_blocks, hblocks, length_append, s.length_blocks]
  obtain ⟨new, hnew, hnewLength⟩ := weightsFrom_append W s.blocks next
  obtain ⟨short, old, hlimits⟩ := hcurrent'.limits
  rw [hversion _ (by omega) (le_of_eq hlength)] at hlimits
  have heffective : s'.limits.longTermEffectiveMedian
      = max CRYPTONOTE_BLOCK_GRANTED_FULL_REWARD_ZONE_V5
          (median (s'.longTermWeights.rtake W.window)) := by
    rw [hlimits, longTermEffectiveMedian_limitsFor]
  -- empty blocks in the window instead of the real ones
  have hzone : penaltyFreeZoneForWallet s.cacheRollingMedian graceBlocks
      ≤ s'.limits.longTermEffectiveMedian := by
    have hcapacity := hcurrent.cached.capacity
    rw [penaltyFreeZoneForWallet_eq (hcurrent.cached.valid hcurrent.window_pos)
        (hcapacity.symm ▸ hcurrent.items), hcapacity, heffective, hcurrent'.weights, hblocks, hnew,
      ← hcurrent.weights, max_comm]
    exact max_le_max le_rfl (median_zeros_le _ _ _ (hnewLength.trans_le hgrace))
  have hmedian : min (s'.limits.cumulWeightLimit / 2) s'.limits.longTermEffectiveMedian
      = s'.limits.longTermEffectiveMedian := by
    rw [heffective] at hsurge ⊢
    rw [hlimits] at hlimit ⊢
    exact feeMedian_limitsFor hscaling hsurge hlimit
  refine checkFee_of_le hmedian ?_ hproduct
  exact getDynamicBaseFee_le (baseReward_anti (le_foldl_addCoins coins rewards) version)
    (le_max_right _ _) hzone hreward (le_feeEstimate hfees hfee hsquare)

end Runs

def sampleFeeOps : List (WeightOp Nat) :=
  [.addBlock (sampleBlock 1 0 0 0 [] 0), .addBlock (sampleBlock 2 1 1 0 [] 0),
    .addBlock (sampleBlock 3 2 2 0 [] 0)]

theorem fee_estimate_kept_sample : ∃ s s' : WeightState Nat,
    (weighedChains sampleWeighing).exec (WeightState.init sampleWeighing fun _ => 7)
        (sampleFeeOps ++ [.update]) = some s
      ∧ feeEstimate2021Scaling sampleWeighing s 0 18 1 = some [65000, 260000, 4500000, 47000000]
      ∧ (weighedChains sampleWeighing).exec s (nextOps [sampleBlock 4 3 3 0 [] 0]) = some s'
      ∧ checkFee s'.limits 35000000000000 18 2000 (quantizeFee (2000 * 65000)) = true := by
  -- the fee, the height and the penalty-free zone of the estimate, and the medians after one block
  have hrun : ((weighedChains sampleWeighing).exec (WeightState.init sampleWeighing fun _ => 7)
      (sampleFeeOps ++ [.update])).bind (fun s =>
        ((weighedChains sampleWeighing).exec s (nextOps [sampleBlock 4 3 3 0 [] 0])).bind fun s' =>
          (feeEstimate2021Scaling sampleWeighing s 0 18 1).map fun fees =>
            (fees, [penaltyFreeZoneForWallet s.cacheRollingMedian 1, s.chain.length,
              s'.limits.longTermEffectiveMedian, s'.limits.cumulWeightMedian]))
      = some ([65000, 260000, 4500000, 47000000], [1275000, 3, 3208750, 3208750]) := by
    decide +kernel
  obtain ⟨s, hs, hrun⟩ := bind_eq_some_iff.mp hrun
  obtain ⟨s', hs', hrun⟩ := bind_eq_some_iff.mp hrun
  obtain ⟨fees, hfees, hrun⟩ := map_eq_some_iff.mp hrun
  simp only [Prod.mk.injEq, cons.injEq, and_true] at hrun
  obtain ⟨rfl, hzone, hlength, heffective, hmedian⟩ := hrun
  have hversion : ∀ height, s.chain.length ≤ height → height ≤ s.chain.length + 1 →
      sampleWeighing.version height = 18 := by
    intro height hlow hhigh
    rw [hlength] at hlow hhigh
    obtain rfl | rfl : height = 3 ∨ height = 4 := by omega
    · decide +kernel
    · decide +kernel
  exact ⟨s, s', hs, hfees, hs', fee_estimate_kept sampleWeighing (fun _ => 7) sampleFeeOps s s'
    [sampleBlock 4 3 3 0 [] 0] 0 [35000000000000] 18 1 2000 65000 _
    (injOn_weighedArrivals (by decide +kernel)) hs hs' (by decide) hversion (by decide) hfees rfl
    (by rw [hzone]; decide +kernel) (by rw [hzone]; decide) (by rw [heffective]; decide)
    (by rw [hmedian]; decide) (by decide)⟩

end Glaciem.Chain
