import Glaciem.Chain.Difficulty
import Glaciem.Lib.Wide

/-!
# Glaciem — the block reward and the coinbase transaction

`get_block_reward` (`cryptonote_basic_impl.cpp`), the checks of the coinbase amounts in
`validate_miner_transaction` and `check_outs_overflow`, and how the recorded
`already_generated_coins` grows. All amounts and weights are 64-bit words that wrap, as in the
source.
-/

namespace Glaciem.Chain

open Nat

def MONEY_SUPPLY : UInt64 := 0xffffffffffffffff
def EMISSION_SPEED_FACTOR_PER_MINUTE : Nat := 20
def FINAL_SUBSIDY_PER_MINUTE : UInt64 := 300000000000
def HF_VERSION_EFFECTIVE_SHORT_TERM_MEDIAN_IN_PENALTY : Nat := 12
def HF_VERSION_EXACT_COINBASE : Nat := 13

/-! ## The reward -/

def getMinBlockWeight (version : Nat) : UInt64 :=
  if version < 2 then 20000 else if version < 5 then 60000 else 300000

def baseReward (alreadyGeneratedCoins : UInt64) (version : Nat) : UInt64 :=
  let targetMinutes := difficultyTarget version / 60
  let emissionSpeedFactor := EMISSION_SPEED_FACTOR_PER_MINUTE - (targetMinutes - 1)
  let reward := (MONEY_SUPPLY - alreadyGeneratedCoins) >>> UInt64.ofNat emissionSpeedFactor
  let tail := FINAL_SUBSIDY_PER_MINUTE * UInt64.ofNat targetMinutes
  if reward < tail then tail else reward

/-- `none` for a block that is too large. The two 128-bit divisions are done on natural numbers, and
the lower word is returned. -/
def getBlockReward (medianWeight currentBlockWeight alreadyGeneratedCoins : UInt64)
    (version : Nat) : Option UInt64 :=
  let base := baseReward alreadyGeneratedCoins version
  let zone := getMinBlockWeight version
  let median := if medianWeight < zone then zone else medianWeight
  if currentBlockWeight ≤ median then some base
  else if currentBlockWeight > 2 * median then none
  else
    let multiplicand := (2 * median - currentBlockWeight) * currentBlockWeight
    let product := base.toNat * multiplicand.toNat
    some (UInt64.ofNat (product / median.toNat / median.toNat))

theorem baseReward_lt (coins : UInt64) (version : Nat) :
    (baseReward coins version).toNat < 2 ^ 46 := by
  have hshift : ∀ k : UInt64, 19 ≤ k.toNat % 64 →
      ((MONEY_SUPPLY - coins) >>> k).toNat < 2 ^ 46 := by
    intro k hk
    have hcoins := (MONEY_SUPPLY - coins).toNat_lt
    have hle : (MONEY_SUPPLY - coins).toNat / 2 ^ (k.toNat % 64)
        ≤ (MONEY_SUPPLY - coins).toNat / 2 ^ 19 :=
      Nat.div_le_div_left (Nat.pow_le_pow_right (by decide) hk) (by decide)
    rw [UInt64.toNat_shiftRight, Nat.shiftRight_eq_div_pow]
    omega
  unfold baseReward difficultyTarget
  dsimp only
  split
  · split
    · decide
    · exact hshift _ (by decide)
  · split
    · decide
    · exact hshift _ (by decide)

theorem mul_sub_self_le (m w : Nat) : (2 * m - w) * w ≤ m * m := by
  rcases Nat.lt_or_ge (2 * m) w with hlt | hge
  · rw [Nat.sub_eq_zero_of_le hlt.le, Nat.zero_mul]
    exact Nat.zero_le _
  · obtain ⟨k, hk⟩ := Nat.exists_eq_add_of_le hge
    rw [show 2 * m - w = k by omega]
    nlinarith [sq_nonneg ((w : Int) - k), hk]

variable {weight coins median : UInt64} {version : Nat}

theorem getBlockReward_le {reward : UInt64}
    (h : getBlockReward median weight coins version = some reward) :
    reward.toNat ≤ (baseReward coins version).toNat := by
  unfold getBlockReward at h
  dsimp only at h
  generalize (if median < getMinBlockWeight version then getMinBlockWeight version
    else median) = m at h
  split at h
  · cases h
    exact le_rfl
  split at h
  · cases h
  cases h
  rename_i hsmall hlarge
  rw [UInt64.le_iff_toNat_le] at hsmall
  rw [gt_iff_lt, UInt64.not_lt, UInt64.le_iff_toNat_le] at hlarge
  -- a median of 63 bits or more was refused: its double wraps below the weight
  have hdouble : (2 * m).toNat = 2 * m.toNat := by
    have hm := m.toNat_lt
    rw [UInt64.toNat_mul, show (2 : UInt64).toNat = 2 from rfl] at hlarge ⊢
    omega
  have hle : weight.toNat ≤ 2 * m.toNat := hdouble ▸ hlarge
  have hproduct : ((2 * m - weight) * weight).toNat ≤ m.toNat * m.toNat := by
    have hsub : (2 * m - weight).toNat = 2 * m.toNat - weight.toNat := by
      rw [UInt64.toNat_sub_of_le _ _ (by rw [UInt64.le_iff_toNat_le, hdouble]; exact hle), hdouble]
    rw [UInt64.toNat_mul, hsub]
    exact (Nat.mod_le _ _).trans (mul_sub_self_le _ _)
  rw [UInt64.toNat_ofNat', Nat.div_div_eq_div_mul]
  refine (Nat.mod_le _ _).trans ?_
  calc (baseReward coins version).toNat * ((2 * m - weight) * weight).toNat / (m.toNat * m.toNat)
      ≤ (baseReward coins version).toNat * (m.toNat * m.toNat) / (m.toNat * m.toNat) :=
        Nat.div_le_div_right (Nat.mul_le_mul_left _ hproduct)
    _ ≤ (baseReward coins version).toNat := by
        rcases Nat.eq_zero_or_pos (m.toNat * m.toNat) with hzero | hpos
        · rw [hzero, Nat.div_zero]
          exact Nat.zero_le _
        · rw [Nat.mul_div_cancel _ hpos]

/-! ## The exact penalty -/

/-- The chain of one product and two quotients in `get_block_reward`, as high and low word. -/
def penalizedReward (base multiplicand median : Nat) : Nat × Nat :=
  let (productLo, productHi) := Wide.mul128 base multiplicand
  let (rewardHi, rewardLo) := Wide.div128By64 productHi productLo median
  Wide.div128By64 rewardHi rewardLo median

/-- What a block of weight `w` is to earn at the effective median `m`. -/
def exactReward (base m w : Nat) : Nat := if w ≤ m then base else base * (2 * m - w) * w / m ^ 2

theorem penalizedReward_eq {base x m : Nat} (hbase : base < 2 ^ 64) (hx : x < 2 ^ 64) :
    penalizedReward base x m = (base * x / m / m / 2 ^ 64, base * x / m / m % 2 ^ 64) := by
  have hproduct : base * x < 2 ^ 64 * 2 ^ 64 := mul_lt_mul'' hbase hx
  have hquotient := div_le_self (base * x) m
  have hsecond := div_le_self (base * x / m) m
  unfold penalizedReward
  rw [Wide.mul128_eq hbase hx]
  dsimp only
  rw [Wide.div128By64_eq m (mod_lt _ (by decide)), div_add_mod']
  rw [Wide.div128By64_eq m (mod_lt _ (by decide)),
    mod_eq_of_lt (show base * x / m / 2 ^ 64 < 2 ^ 64 by omega), div_add_mod',
    mod_eq_of_lt (show base * x / m / m / 2 ^ 64 < 2 ^ 64 by omega)]

theorem exactReward_le (base m w : Nat) : exactReward base m w ≤ base := by
  unfold exactReward
  split
  · exact le_rfl
  · rw [mul_assoc, pow_two]
    exact Nat.div_le_of_le_mul (by
      rw [mul_comm (m * m)]
      exact Nat.mul_le_mul_left _ (mul_sub_self_le m w))

theorem exactReward_anti (base : Nat) {m w w' : Nat} (hm : m < w) (hw : w ≤ w') :
    exactReward base m w' ≤ exactReward base m w := by
  rw [exactReward, exactReward, if_neg (by omega), if_neg (by omega), mul_assoc, mul_assoc]
  refine Nat.div_le_div_right (Nat.mul_le_mul_left _ ?_)
  rcases Nat.lt_or_ge (2 * m) w' with hlt | hge
  · rw [Nat.sub_eq_zero_of_le hlt.le, Nat.zero_mul]
    exact Nat.zero_le _
  · -- beyond the median the parabola falls
    obtain ⟨k, hk⟩ := Nat.exists_eq_add_of_le hge
    obtain ⟨j, rfl⟩ := Nat.exists_eq_add_of_le hw
    rw [show 2 * m - (w + j) = k by omega, show 2 * m - w = k + j by omega]
    nlinarith [show k ≤ w by omega]

theorem getBlockReward_eq (median weight coins : UInt64) (version : Nat)
    (hmedian : median.toNat < 2 ^ 32) (hweight : weight.toNat < 2 ^ 32) :
    getBlockReward median weight coins version =
      let m := max median.toNat (getMinBlockWeight version).toNat
      if weight.toNat ≤ 2 * m then
        some (UInt64.ofNat (exactReward (baseReward coins version).toNat m weight.toNat))
      else none := by
  have hzone : (getMinBlockWeight version).toNat < 2 ^ 32 := by
    unfold getMinBlockWeight
    split <;> [decide; split <;> decide]
  unfold getBlockReward
  dsimp only
  have heffective : (if median < getMinBlockWeight version then getMinBlockWeight version
      else median).toNat = max median.toNat (getMinBlockWeight version).toNat := by
    split
    · rename_i hlt
      rw [UInt64.lt_iff_toNat_lt] at hlt
      omega
    · rename_i hge
      rw [UInt64.lt_iff_toNat_lt] at hge
      omega
  generalize (if median < getMinBlockWeight version then getMinBlockWeight version
    else median) = m at heffective ⊢
  have hm : m.toNat < 2 ^ 32 := by omega
  have hdouble : (2 * m).toNat = 2 * m.toNat := by
    rw [UInt64.toNat_mul, show (2 : UInt64).toNat = 2 from rfl]
    omega
  rw [← heffective, exactReward]
  simp only [UInt64.le_iff_toNat_le, gt_iff_lt, UInt64.lt_iff_toNat_lt, hdouble]
  split
  · rw [if_pos (by omega), UInt64.ofNat_toNat]
  split
  · rw [if_neg (by omega)]
  · rename_i hlarge
    have hsub : (2 * m - weight).toNat = 2 * m.toNat - weight.toNat := by
      rw [UInt64.toNat_sub_of_le _ _ (by rw [UInt64.le_iff_toNat_le, hdouble]; omega), hdouble]
    have hmul := mul_sub_self_le m.toNat weight.toNat
    have hsquare : m.toNat * m.toNat < 2 ^ 32 * 2 ^ 32 := mul_lt_mul'' hm hm
    rw [if_pos (by omega), UInt64.toNat_mul, hsub, mod_eq_of_lt (by omega),
      Nat.div_div_eq_div_mul, mul_assoc, pow_two]

/-- The reward fails exactly above twice the effective median and is the exact quotient below; it is
at most the base and falls above the median. -/
theorem block_reward_exact (median weight coins : UInt64) (version : Nat)
    (hmedian : median.toNat < 2 ^ 32) (hweight : weight.toNat < 2 ^ 32) :
    let m := max median.toNat (getMinBlockWeight version).toNat
    let base := (baseReward coins version).toNat
    (getBlockReward median weight coins version = none ↔ 2 * m < weight.toNat)
      ∧ (∀ r, getBlockReward median weight coins version = some r →
        r.toNat = exactReward base m weight.toNat ∧ r.toNat ≤ base
        ∧ (m < weight.toNat →
          penalizedReward base ((2 * m - weight.toNat) * weight.toNat) m = (0, r.toNat)
          ∧ ∀ w' r', weight ≤ w' → w'.toNat < 2 ^ 32 →
            getBlockReward median w' coins version = some r' → r' ≤ r)) := by
  intro m base
  have hbase := baseReward_lt coins version
  have hvalue {w r : UInt64} (hw : w.toNat < 2 ^ 32)
      (h : getBlockReward median w coins version = some r) :
      w.toNat ≤ 2 * m ∧ r.toNat = exactReward base m w.toNat := by
    rw [getBlockReward_eq _ _ _ _ hmedian hw] at h
    dsimp only at h
    split at h
    · have hle := exactReward_le base m w.toNat
      cases h
      exact ⟨‹_›, mod_eq_of_lt (show exactReward base m w.toNat < 2 ^ 64 by omega)⟩
    · cases h
  refine ⟨?_, fun r hr => ?_⟩
  · rw [getBlockReward_eq _ _ _ _ hmedian hweight]
    dsimp only
    split <;> simp <;> omega
  obtain ⟨hle, hexact⟩ := hvalue hweight hr
  have hmax := exactReward_le base m weight.toNat
  refine ⟨hexact, hexact ▸ hmax, fun hlarge => ⟨?_, fun w' r' hw hw' hr' => ?_⟩⟩
  · have hm : m < 2 ^ 32 := by omega
    have hsquare : m * m < 2 ^ 32 * 2 ^ 32 := mul_lt_mul'' hm hm
    have hmul := mul_sub_self_le m weight.toNat
    have hquotient : base * ((2 * m - weight.toNat) * weight.toNat) / m / m
        = exactReward base m weight.toNat := by
      rw [exactReward, if_neg (by omega), Nat.div_div_eq_div_mul, mul_assoc, pow_two]
    rw [penalizedReward_eq (by omega) (by omega), hquotient, hexact]
    exact Prod.ext (by dsimp only; omega) (by dsimp only; omega)
  · rw [UInt64.le_iff_toNat_le] at hw ⊢
    rw [hexact, (hvalue hw' hr').2]
    exact exactReward_anti base hlarge hw

theorem block_reward_exact_sample :
    getBlockReward 0 450000 0 16 = some (UInt64.ofNat (exactReward (2 ^ 45 - 1) 300000 450000))
      ∧ penalizedReward (2 ^ 45 - 1) (150000 * 450000) 300000 = (0, 26388279066623) := by
  have hr : getBlockReward 0 450000 0 16 = some 26388279066623 := by decide +kernel
  obtain ⟨hexact, -, hwords⟩ := (block_reward_exact 0 450000 0 16 (by decide) (by decide)).2 _ hr
  exact ⟨by rw [hr]; decide +kernel, (hwords (by decide)).1⟩

/-! ## Sums of words -/

def wrapSum (words : List UInt64) : UInt64 := words.foldl (· + ·) 0

def exactSum (words : List UInt64) : Nat := (words.map UInt64.toNat).sum

theorem toNat_foldl_add (words : List UInt64) (start : UInt64)
    (h : start.toNat + exactSum words < 2 ^ 64) :
    (words.foldl (· + ·) start).toNat = start.toNat + exactSum words := by
  induction words generalizing start with
  | nil => rfl
  | cons w rest ih =>
    rw [exactSum, List.map_cons, List.sum_cons] at h ⊢
    have hadd : (start + w).toNat = start.toNat + w.toNat := by
      rw [UInt64.toNat_add]
      omega
    rw [List.foldl_cons, ih _ (by rw [hadd, exactSum]; omega), hadd, exactSum, add_assoc]

theorem toNat_wrapSum {words : List UInt64} (h : exactSum words < 2 ^ 64) :
    (wrapSum words).toNat = exactSum words := by
  rw [wrapSum, toNat_foldl_add words 0 (by simpa using h)]
  simp

def outsFit (money : UInt64) : List UInt64 → Bool
  | [] => true
  | amount :: rest => if money > amount + money then false else outsFit (money + amount) rest

def checkOutsOverflow (vout : List UInt64) : Bool := outsFit 0 vout

theorem outsFit_iff (money : UInt64) (vout : List UInt64) :
    outsFit money vout = true ↔ money.toNat + exactSum vout < 2 ^ 64 := by
  induction vout generalizing money with
  | nil =>
    exact iff_of_true rfl money.toNat_lt
  | cons amount rest ih =>
    have hm := money.toNat_lt
    have ha := amount.toNat_lt
    rw [outsFit, exactSum, List.map_cons, List.sum_cons]
    simp only [gt_iff_lt, UInt64.lt_iff_toNat_lt, UInt64.toNat_add]
    split
    · simp only [Bool.false_eq_true, false_iff]
      omega
    · rw [ih, UInt64.toNat_add, exactSum]
      omega

theorem checkOutsOverflow_iff (vout : List UInt64) :
    checkOutsOverflow vout = true ↔ exactSum vout < 2 ^ 64 := by
  rw [checkOutsOverflow, outsFit_iff]
  simp

/-! ## The coinbase transaction -/

def stripZeros : Nat → Nat → Nat
  | 0, amount => amount
  | fuel + 1, amount => if amount % 10 = 0 then stripZeros fuel (amount / 10) else amount

/-- `is_valid_decomposed_amount`. A word has at most twenty digits. -/
def isValidDecomposedAmount (amount : UInt64) : Bool :=
  amount ≠ 0 && decide (stripZeros 20 amount.toNat < 10)

/-- For coinbase outputs `vout`, the block's weight, the sum of its fees and the coins generated
before. `median` is the weight median the source takes for the version. -/
def validateMinerTransaction (vout : List UInt64) (cumulativeBlockWeight fee coins : UInt64)
    (version : Nat) (median : UInt64) : Option UInt64 :=
  let moneyInUse := wrapSum vout
  if version = 3 ∧ vout.all isValidDecomposedAmount = false then none
  else
    match getBlockReward median cumulativeBlockWeight coins version with
    | none => none
    | some base =>
      if base + fee < moneyInUse then none
      else if version < 2 ∨ version ≥ HF_VERSION_EXACT_COINBASE then
        if base + fee ≠ moneyInUse then none else some base
      else if moneyInUse - fee > base then none
      else some (moneyInUse - fee)

def ExactCoinbase (version : Nat) : Prop := version < 2 ∨ version ≥ HF_VERSION_EXACT_COINBASE

theorem validateMinerTransaction_eq_some {vout : List UInt64} {fee base : UInt64}
    (hexact : ExactCoinbase version)
    (h : validateMinerTransaction vout weight fee coins version median = some base) :
    getBlockReward median weight coins version = some base ∧ base + fee = wrapSum vout := by
  unfold validateMinerTransaction at h
  dsimp only at h
  split at h
  · cases h
  split at h
  · cases h
  rename_i base' hreward
  split at h
  · cases h
  rw [if_pos (show version < 2 ∨ version ≥ HF_VERSION_EXACT_COINBASE from hexact)] at h
  split at h
  · cases h
  · rename_i hsum
    cases h
    exact ⟨hreward, not_not.mp hsum⟩

def addCoins (coins reward : UInt64) : UInt64 :=
  if reward < MONEY_SUPPLY - coins then coins + reward else MONEY_SUPPLY

theorem toNat_addCoins (coins reward : UInt64) :
    (addCoins coins reward).toNat = min (coins.toNat + reward.toNat) (2 ^ 64 - 1) := by
  have hc := coins.toNat_lt
  have hr := reward.toNat_lt
  have hsub : (MONEY_SUPPLY - coins).toNat = 2 ^ 64 - 1 - coins.toNat := by
    rw [UInt64.toNat_sub_of_le _ _ (by
      rw [UInt64.le_iff_toNat_le]
      show coins.toNat ≤ 2 ^ 64 - 1
      omega)]
    rfl
  unfold addCoins
  split
  · rename_i hlt
    rw [UInt64.lt_iff_toNat_lt, hsub] at hlt
    rw [UInt64.toNat_add]
    omega
  · rename_i hge
    rw [UInt64.not_lt, UInt64.le_iff_toNat_le, hsub] at hge
    show 2 ^ 64 - 1 = _
    omega

end Glaciem.Chain
