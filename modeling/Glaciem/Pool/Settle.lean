import Glaciem.Lib.Apportion
import Glaciem.Lib.KeyedSum
import Glaciem.Pool.Ledger

/-!
# Glaciem — settling a round

`settle_round` and `sponsorship_consume_block` of `pool/server/pool-server.py`: what one found
block credits to the wallets of its round. Python's `x * y / z` is a float: `Config.rounding` says
what each of its operations makes of the exact result.
-/

namespace Glaciem.Pool

open List

open Apportion

/-! ## Definitions -/

/-- Python's `int` of a number. -/
def pyInt (q : ℚ) : Int := q.num.tdiv q.den

/-- `int(reward * POOL_FEE_PERCENT / 100.0)`: the reward becomes a float, then the product and the
quotient are rounded. -/
def poolCut (cfg : Config) (reward : Nat) : Int :=
  let round := cfg.rounding.round
  pyInt (round (round (round reward * cfg.poolFeePercent) / 100))

/-- `int(amount * shares / total)`, and 0 when it is negative. The product of integers is exact and
their quotient is rounded once. -/
def Config.slice (cfg : Config) (amount : Int) (shares total : Nat) : Nat :=
  (pyInt (cfg.rounding.round (amount * shares / total))).toNat

def distributable (cfg : Config) (reward : Nat) (bonus : Int) : Int :=
  reward - poolCut cfg reward + bonus

def nextBonus : Option Sponsorship → Int
  | none => 0
  | some st =>
    if st.active = false ∨ st.perBlockAtomic ≤ 0 ∨ st.remainingAtomic ≤ 0 then 0
    else min st.perBlockAtomic st.remainingAtomic

def offeredBonus (io : FileIO) (fund : Option Sponsorship) : Int :=
  nextBonus (loadJsonFile io.loadOk fund none)

def drawBonus (st : Sponsorship) (bonus : Int) : Sponsorship :=
  { st with
    remainingAtomic := st.remainingAtomic - bonus
    blocksUsed := st.blocksUsed + 1
    active := if st.remainingAtomic - bonus ≤ 0 then false else st.active }

/-- `sponsorship_consume_block`: the bonus of this block and the fund file after it; `none`
when saving the file raises. -/
def sponsorshipConsumeBlock (io : FileIO) (fund : Option Sponsorship) :
    Option (Int × Option Sponsorship) :=
  match loadJsonFile io.loadOk fund none with
  | none => some (0, fund)
  | some st =>
    let bonus := nextBonus (some st)
    if bonus ≤ 0 then some (0, fund)
    else if io.saveOk then some (bonus, some (drawBonus st bonus))
    else none

/-- The loop of `settle_round` over `miner_stats`: one row for every wallet with shares in the
round and a positive credit. -/
def creditEntries (cfg : Config) (height : Nat) (bonus : Int) (settlement : Nat) (dist : Int)
    (total : Nat) (stats : List (String × MinerStats)) : List CreditEntry :=
  stats.filterMap fun (wallet, s) =>
    if s.sharesThisRound ≤ 0 then none
    else
      let credit := cfg.slice dist s.sharesThisRound total
      if credit > 0 then
        some { height := height, wallet := wallet, atomic := credit,
               shares := s.sharesThisRound, roundShares := total, sponsorshipAtomic := bonus,
               settlement := settlement }
      else none

def paidWallets (cfg : Config) (dist : Int) (total : Nat) (stats : List (String × MinerStats)) :
    List (String × MinerStats) :=
  stats.filter fun item =>
    0 < item.2.sharesThisRound ∧ 0 < cfg.slice dist item.2.sharesThisRound total

structure Settlement where
  bonus : Int
  entries : List CreditEntry
  deriving DecidableEq

/-- `settle_round`. `io` is the outcome of the sponsorship file update; `none` when it
raises. -/
def settleRound (cfg : Config) (io : FileIO) (settlement : Nat) (block : BlockRow)
    (stats : Dict String MinerStats) (fund : Option Sponsorship) :
    Option (Settlement × Option Sponsorship) :=
  if block.rewardAtomic = 0 then some (⟨0, []⟩, fund)
  else
    match sponsorshipConsumeBlock io fund with
    | none => none
    | some (bonus, fund') =>
      if block.roundShares ≤ 0 then some (⟨bonus, []⟩, fund')
      else
        some (⟨bonus, creditEntries cfg block.height bonus settlement
          (distributable cfg block.rewardAtomic bonus) block.roundShares stats.items⟩, fund')

/-! ## Slices -/

theorem pyInt_le_of_le {q : ℚ} {n : Nat} (h : q ≤ n) : pyInt q ≤ n := by
  unfold pyInt
  rcases Int.le_total 0 q.num with hnum | hnum
  · rw [Int.tdiv_eq_ediv_of_nonneg hnum, ← Rat.floor_def]
    exact_mod_cast (Int.floor_le q).trans h
  · have hneg := Int.tdiv_nonneg (Int.neg_nonneg.mpr hnum) (Int.natCast_nonneg q.den)
    rw [Int.neg_tdiv] at hneg
    omega

namespace Config

variable (cfg : Config)

@[simp] theorem slice_no_shares (amount : Int) (total : Nat) : cfg.slice amount 0 total = 0 := by
  simp [slice, Rounding.zero, pyInt]

@[simp] theorem slice_no_total (amount : Int) (shares : Nat) : cfg.slice amount shares 0 = 0 := by
  simp [slice, Rounding.zero, pyInt]

variable {cfg}

theorem slice_exact (hround : cfg.rounding = .exact) {amount : Int} (hamount : 0 ≤ amount)
    (shares total : Nat) : cfg.slice amount shares total = amount.toNat * shares / total := by
  obtain ⟨a, rfl⟩ := Int.eq_ofNat_of_zero_le hamount
  have hfloor := Rat.floor_intCast_div_natCast ((a : Int) * shares) total
  push_cast at hfloor
  have hnum : (0 : ℚ) ≤ a * shares / total := by positivity
  rw [slice, hround, pyInt, Rounding.exact, Int.toNat_natCast]
  dsimp only [id]
  push_cast
  rw [Int.tdiv_eq_ediv_of_nonneg (Rat.num_nonneg.mpr hnum), ← Rat.floor_def]
  change ⌊(a * shares / total : ℚ)⌋.toNat = _
  rw [hfloor]
  exact_mod_cast Int.toNat_natCast _

end Config

/-! ## The rows of one settlement -/

section Rows

variable (cfg : Config) (height : Nat) (bonus : Int) (settlement : Nat) (dist : Int) (total : Nat)

def creditRow (wallet : String) (shares : Nat) : CreditEntry where
  height := height
  wallet := wallet
  atomic := cfg.slice dist shares total
  shares := shares
  roundShares := total
  sponsorshipAtomic := bonus
  settlement := settlement

variable (stats : List (String × MinerStats))

/-- Every wallet has a row; those without an amount are left out. A wallet without shares has
none. -/
theorem creditEntries_eq : creditEntries cfg height bonus settlement dist total stats
      = (stats.map fun item => creditRow cfg height bonus settlement dist total item.1
          item.2.sharesThisRound).filter fun c => c.atomic > 0 := by
  unfold creditEntries
  rw [← filterMap_eq_map, filter_filterMap]
  refine filterMap_congr fun item _ => ?_
  by_cases hs : item.2.sharesThisRound ≤ 0
  · have hzero : item.2.sharesThisRound = 0 := by omega
    simp [hzero, creditRow, Option.filter]
  · by_cases hc : cfg.slice dist item.2.sharesThisRound total > 0
    · simp [hs, hc, creditRow, Option.filter]
    · simp [hs, hc, creditRow, Option.filter]

/-- The rows are those of the wallets paid, with their shares. -/
theorem map_shares_creditEntries :
    (creditEntries cfg height bonus settlement dist total stats).map CreditEntry.shares
      = (paidWallets cfg dist total stats).map fun item => item.2.sharesThisRound := by
  rw [creditEntries_eq, filter_map, map_map, paidWallets]
  refine congrArg _ (filter_congr fun item _ => decide_eq_decide.mpr ⟨fun hpos => ?_, And.right⟩)
  refine ⟨Nat.pos_of_ne_zero fun hzero => ?_, hpos⟩
  simp [creditRow, hzero] at hpos

theorem length_creditEntries : (creditEntries cfg height bonus settlement dist total stats).length
      = (paidWallets cfg dist total stats).length := by
  simpa using congrArg length (map_shares_creditEntries cfg height bonus settlement dist
    total stats)

variable {stats : List (String × MinerStats)}

theorem creditEntries_congr {stats' : List (String × MinerStats)}
    (h : stats.map (fun item => (item.1, item.2.sharesThisRound))
      = stats'.map (fun item => (item.1, item.2.sharesThisRound))) :
    creditEntries cfg height bonus settlement dist total stats
      = creditEntries cfg height bonus settlement dist total stats' := by
  have hrows := congrArg (map fun p => creditRow cfg height bonus settlement dist total p.1 p.2) h
  rw [map_map, map_map] at hrows
  rw [creditEntries_eq, creditEntries_eq]
  exact congrArg _ hrows

theorem creditEntries_total_zero (stats : List (String × MinerStats)) :
    creditEntries cfg height bonus settlement dist 0 stats = [] := by
  rw [creditEntries_eq, filter_eq_nil_iff]
  intro c hc
  obtain ⟨item, -, rfl⟩ := mem_map.mp hc
  simp [creditRow]

theorem mem_creditEntries {c : CreditEntry}
    (hc : c ∈ creditEntries cfg height bonus settlement dist total stats) :
    c.height = height ∧ c.settlement = settlement ∧ c.sponsorshipAtomic = bonus
      ∧ 0 < c.atomic ∧ 0 < c.shares := by
  rw [creditEntries_eq, mem_filter, decide_eq_true_iff] at hc
  obtain ⟨hc, hpos⟩ := hc
  obtain ⟨item, -, rfl⟩ := mem_map.mp hc
  refine ⟨rfl, rfl, rfl, hpos, Nat.pos_of_ne_zero fun hzero => ?_⟩
  have hzero : item.2.sharesThisRound = 0 := hzero
  simp [creditRow, hzero] at hpos

theorem totalAtomic_filter_pos (rows : List CreditEntry) :
    totalAtomic (rows.filter (fun c => c.atomic > 0)) = totalAtomic rows := by
  induction rows with
  | nil => rfl
  | cons c rest ih =>
    by_cases hc : c.atomic > 0
    · rw [filter_cons_of_pos (by simpa using hc), totalAtomic_cons, totalAtomic_cons, ih]
    · rw [filter_cons_of_neg (by simpa using hc), totalAtomic_cons, ih]
      omega

theorem totalAtomic_creditEntries (stats : List (String × MinerStats)) :
    totalAtomic (creditEntries cfg height bonus settlement dist total stats)
      = (stats.map fun item => cfg.slice dist item.2.sharesThisRound total).sum := by
  rw [creditEntries_eq, totalAtomic_filter_pos, totalAtomic, map_map]
  rfl

/-- **No overdraft.** When the total covers the shares of the round and nothing is rounded up, the
credits of a settlement never exceed the distributable amount. -/
theorem totalAtomic_creditEntries_le (hround : cfg.rounding = .exact) (hdist : 0 ≤ dist)
    (htotal : 0 < total) (hcover : (stats.map (fun item => item.2.sharesThisRound)).sum ≤ total) :
    (totalAtomic (creditEntries cfg height bonus settlement dist total stats) : Int) ≤ dist := by
  have hsum := sum_slices_le htotal dist.toNat hcover
  rw [slices, map_map] at hsum
  rw [totalAtomic_creditEntries]
  simp only [Config.slice_exact hround hdist]
  exact (Int.ofNat_le.mpr hsum).trans_eq (Int.toNat_of_nonneg hdist)

/-- A wallet of the round is credited its slice of the distributable amount; a slice of zero has no
row. -/
theorem creditedTo_creditEntries (hnodup : (stats.map Prod.fst).Nodup)
    {wallet : String} {s : MinerStats} (hmem : (wallet, s) ∈ stats) :
    creditedTo (creditEntries cfg height bonus settlement dist total stats) wallet
      = cfg.slice dist s.sharesThisRound total := by
  have hsum := sumFor_eq_of_mem Prod.fst
    (fun item => (cfg.slice dist item.2.sharesThisRound total : Int)) hnodup hmem
  have hrows : (creditEntries cfg height bonus settlement dist total stats).filter
      (fun c => c.wallet = wallet) = creditEntries cfg height bonus settlement dist total
        (stats.filter fun item => item.1 = wallet) := by
    rw [creditEntries_eq, creditEntries_eq, filter_comm, filter_map]
    rfl
  rw [creditedTo, hrows, totalAtomic_creditEntries]
  have hcast := Nat.cast_list_sum (R := Int) ((stats.filter fun item => item.1 = wallet).map
    fun item => cfg.slice dist item.2.sharesThisRound total)
  rw [map_map] at hcast
  exact_mod_cast hcast.trans hsum

end Rows

/-! ## The pool's cut -/

theorem poolCut_le {cfg : Config} (hround : cfg.rounding = .exact) (hfee : cfg.poolFeePercent ≤ 100)
    (reward : Nat) : poolCut cfg reward ≤ reward := by
  have hreward : (0 : ℚ) ≤ reward := Nat.cast_nonneg reward
  unfold poolCut
  rw [hround]
  refine pyInt_le_of_le ?_
  calc (reward : ℚ) * cfg.poolFeePercent / 100 ≤ reward * 100 / 100 := by gcongr
    _ = reward := by ring

theorem poolCut_zero (cfg : Config) : poolCut cfg 0 = 0 := by
  simp [poolCut, pyInt, Rounding.zero]

/-! ## The bonus -/

theorem nextBonus_nonneg (fund : Option Sponsorship) : 0 ≤ nextBonus fund := by
  cases fund with
  | none => exact Int.le_refl 0
  | some st =>
    by_cases hst : st.active = false ∨ st.perBlockAtomic ≤ 0 ∨ st.remainingAtomic ≤ 0
    · simp only [nextBonus, if_pos hst, Int.le_refl]
    · simp only [nextBonus, if_neg hst]
      rw [not_or, not_or] at hst
      omega

theorem sponsorshipConsumeBlock_eq_some {io : FileIO} {fund fund' : Option Sponsorship}
    {bonus : Int}
    (hcons : sponsorshipConsumeBlock io fund = some (bonus, fund')) :
    bonus = offeredBonus io fund
      ∧ (bonus = 0 ∧ fund' = fund
        ∨ 0 < bonus ∧ ∃ st, fund = some st ∧ fund' = some (drawBonus st bonus)) := by
  unfold sponsorshipConsumeBlock at hcons
  unfold offeredBonus
  cases hload : loadJsonFile io.loadOk fund none with
  | none =>
    rw [hload] at hcons
    cases hcons
    exact ⟨rfl, .inl ⟨rfl, rfl⟩⟩
  | some st =>
    rw [hload] at hcons
    have hfund : fund = some st := by
      unfold loadJsonFile at hload
      split at hload
      · exact hload
      · exact absurd hload (by simp)
    have hnonneg := nextBonus_nonneg (some st)
    simp only at hcons
    split at hcons
    · next hle =>
      -- nothing on offer: the file is not written
      cases hcons
      exact ⟨by omega, .inl ⟨rfl, rfl⟩⟩
    · next hpos =>
      split at hcons
      · cases hcons
        exact ⟨rfl, .inr ⟨by omega, st, hfund, rfl⟩⟩
      · cases hcons

theorem sponsorshipConsumeBlock_eq_none_iff {io : FileIO} {fund : Option Sponsorship} :
    sponsorshipConsumeBlock io fund = none ↔ 0 < offeredBonus io fund ∧ io.saveOk = false := by
  unfold sponsorshipConsumeBlock offeredBonus
  cases loadJsonFile io.loadOk fund none with
  | none => simp [nextBonus]
  | some st =>
    dsimp only
    split
    · next hle => simp [hle]
    · next hpos =>
      have hpos' : 0 < nextBonus (some st) := by omega
      cases io.saveOk with
      | false => simp [hpos']
      | true => simp

/-! ## What a settlement returns -/

section Returned

variable {cfg : Config} {io : FileIO} {k : Nat} {block : BlockRow} {stats : Dict String MinerStats}
  {fund fund' : Option Sponsorship} {S : Settlement}

theorem settleRound_eq_some
    (hset : settleRound cfg io k block stats fund = some (S, fund'))
    (hreward : block.rewardAtomic ≠ 0) :
    sponsorshipConsumeBlock io fund = some (S.bonus, fund')
      ∧ S.entries = creditEntries cfg block.height S.bonus k
        (distributable cfg block.rewardAtomic S.bonus) block.roundShares stats.items := by
  unfold settleRound at hset
  rw [if_neg hreward] at hset
  cases hcons : sponsorshipConsumeBlock io fund with
  | none =>
    rw [hcons] at hset
    cases hset
  | some drawn =>
    obtain ⟨bonus, fund₁⟩ := drawn
    rw [hcons] at hset
    simp only at hset
    split at hset
    · next hzero =>
      -- the early return for a round without shares writes what the loop would
      cases hset
      rw [Nat.le_zero.mp hzero, creditEntries_total_zero]
      exact ⟨rfl, rfl⟩
    · cases hset
      exact ⟨rfl, rfl⟩

theorem settleRound_eq_none_iff :
    settleRound cfg io k block stats fund = none
      ↔ block.rewardAtomic ≠ 0 ∧ 0 < offeredBonus io fund ∧ io.saveOk = false := by
  rw [← sponsorshipConsumeBlock_eq_none_iff]
  unfold settleRound
  split
  · next hzero => simp [hzero]
  · next hreward =>
    cases sponsorshipConsumeBlock io fund with
    | none => simp [hreward]
    | some drawn =>
      dsimp only
      split <;> simp

theorem rewardAtomic_ne_zero (hset : settleRound cfg io k block stats fund = some (S, fund'))
    (hne : S.entries ≠ []) : block.rewardAtomic ≠ 0 := by
  intro hzero
  rw [settleRound, if_pos hzero] at hset
  cases hset
  exact hne rfl

theorem mem_settled (hset : settleRound cfg io k block stats fund = some (S, fund'))
    {c : CreditEntry} (hc : c ∈ S.entries) :
    c.height = block.height ∧ c.settlement = k ∧ 0 < c.shares := by
  rw [(settleRound_eq_some hset (rewardAtomic_ne_zero hset (ne_nil_of_mem hc))).2] at hc
  obtain ⟨hh, hk, -, -, hs⟩ := mem_creditEntries _ _ _ _ _ _ hc
  exact ⟨hh, hk, hs⟩

end Returned

end Glaciem.Pool
