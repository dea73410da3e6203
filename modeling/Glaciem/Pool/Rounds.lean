import Glaciem.Pool.Solvency

/-!
# Glaciem — what a wallet is told it is owed, and what one round pays

`_handle_miner` reports the pending and the maturing balance of a wallet and their sum as what is
unpaid. Only the pending balance has the payouts taken off, and it is cut off at zero, so a payout
that took more than had matured by then, if only for its share of the fee, is not taken off the
maturing credits.

`payout_round` pays from the pending balances; `round_pays` takes the scale and the products as
exact rationals.
-/

namespace Glaciem.Pool.Payout

open List

def balanceOf (balances : List Dest) (w : String) : Int :=
  ((balances.find? fun d => d.wallet = w).map Dest.amount).getD 0

theorem balanceOf_cons (d : Dest) (balances : List Dest) (w : String) :
    balanceOf (d :: balances) w = if d.wallet = w then d.amount else balanceOf balances w := by
  unfold balanceOf
  by_cases h : d.wallet = w
  · simp [h]
  · simp [h]

theorem balanceOf_filterMap (f : String → Int) (ws : List String) (w : String) :
    balanceOf (ws.filterMap fun w => if f w > 0 then some ⟨w, f w⟩ else none) w
      = if w ∈ ws then max 0 (f w) else 0 := by
  induction ws with
  | nil => rfl
  | cons w' ws ih =>
    rw [filterMap_cons]
    by_cases hw : w' = w
    · subst hw
      by_cases hpos : f w' > 0
      · simp only [if_pos hpos, balanceOf_cons, if_true, mem_cons_self]
        omega
      · simp only [if_neg hpos, ih, mem_cons_self, if_true]
        split <;> omega
    · have hmem : w ∈ w' :: ws ↔ w ∈ ws := by simp [Ne.symm hw]
      by_cases hpos : f w' > 0
      · simp only [if_pos hpos, balanceOf_cons, if_neg hw, ih, hmem]
      · simp only [if_neg hpos, ih, hmem]

theorem balanceOf_map (f : String → Int) (ws : List String) (w : String) :
    balanceOf (ws.map fun w => ⟨w, f w⟩) w = if w ∈ ws then f w else 0 := by
  induction ws with
  | nil => rfl
  | cons w' ws ih =>
    rw [map_cons, balanceOf_cons, ih]
    by_cases hw : w' = w
    · simp [hw]
    · simp [hw, Ne.symm hw]

section Unpaid

variable (arrived : Option (List Nat)) (credits : List CreditEntry) (payouts : List PayoutRow)
  (adjustments : List Adjustment) {w : String}

def netMatured (w : String) : Int :=
  creditsTo (countable arrived credits) w - paidTo payouts w + adjustedBy adjustments w

theorem balanceOf_pending (hw : w ≠ "") :
    balanceOf (computePendingBalances arrived credits payouts adjustments) w
      = max 0 (netMatured arrived credits payouts adjustments w) := by
  have hfind := balanceOf_filterMap (netMatured arrived credits payouts adjustments)
    (allWallets (countable arrived credits) payouts adjustments) w
  refine hfind.trans ?_
  split
  · rfl
  · rename_i hmem
    -- a wallet that occurs nowhere has nothing in any of the sums
    simp only [allWallets, mem_dedup, mem_filter, mem_append, mem_map,
      decide_eq_true_eq, hw, ne_eq, not_false_eq_true, and_true, not_or, not_exists, not_and]
      at hmem
    obtain ⟨⟨hc, hp⟩, ha⟩ := hmem
    rw [netMatured, creditsTo, paidTo, adjustedBy, sumFor_eq_zero _ _ hc, sumFor_eq_zero _ _ hp,
      sumFor_eq_zero _ _ ha]
    rfl

theorem balanceOf_maturing :
    balanceOf (computeMaturingBalances arrived credits) w
      = creditsTo (maturingCredits arrived credits) w := by
  refine (balanceOf_map _ _ w).trans ?_
  split
  · rfl
  · rename_i hmem
    refine (sumFor_eq_zero _ _ fun c hc heq => hmem ?_).symm
    exact mem_dedup.mpr (mem_map.mpr ⟨c, hc, heq⟩)

theorem creditsTo_split (hw : w ≠ "") :
    creditsTo credits w
      = creditsTo (countable arrived credits) w
        + creditsTo (maturingCredits arrived credits) w := by
  cases arrived with
  | none => simp [countable, maturingCredits, creditsTo]
  | some heights =>
    refine (sumFor_filter_add _ _ (fun c hc => ?_) credits).symm
    simp [hc, hw]

/-- The unpaid total is right for a wallet exactly when its matured credits cover its payouts or
nothing of it is maturing. -/
theorem unpaid_total_iff (hw : w ≠ "") :
    balanceOf (computePendingBalances arrived credits payouts adjustments) w
        + balanceOf (computeMaturingBalances arrived credits) w
      = max 0 (creditsTo credits w + adjustedBy adjustments w - paidTo payouts w)
    ↔ paidTo payouts w ≤ creditsTo (countable arrived credits) w + adjustedBy adjustments w
      ∨ creditsTo (maturingCredits arrived credits) w = 0 := by
  have hmaturing := creditsTo_nonneg (maturingCredits arrived credits) w
  rw [balanceOf_pending arrived credits payouts adjustments hw, balanceOf_maturing,
    creditsTo_split arrived credits hw, netMatured]
  omega

end Unpaid

def sampleCredits : List CreditEntry :=
  [⟨100, "R1", 5 * 10 ^ 11, 1, 1, 0, 0⟩, ⟨200, "R1", 3 * 10 ^ 11, 1, 1, 0, 1⟩]

def samplePayouts : List PayoutRow := [⟨"R1", 5 * 10 ^ 11, 2 * 10 ^ 9, some (2 * 10 ^ 9)⟩]

theorem unpaid_total_iff_before_payout :
    balanceOf (computePendingBalances (some [100]) sampleCredits [] []) "R1"
        + balanceOf (computeMaturingBalances (some [100]) sampleCredits) "R1"
      = max 0 (creditsTo sampleCredits "R1" + adjustedBy [] "R1" - paidTo [] "R1") :=
  (unpaid_total_iff (some [100]) sampleCredits [] [] (by decide)).mpr (by decide)

/-- After the payout the fee share is missing from the unpaid total. -/
theorem fee_share_not_taken_off :
    balanceOf (computePendingBalances (some [100]) sampleCredits samplePayouts []) "R1"
        + balanceOf (computeMaturingBalances (some [100]) sampleCredits) "R1" = 3 * 10 ^ 11
      ∧ max 0 (creditsTo sampleCredits "R1" + adjustedBy [] "R1" - paidTo samplePayouts "R1")
        = 3 * 10 ^ 11 - 2 * 10 ^ 9 := by
  decide

/-! ## One round -/

/-- `int(a * scale)` with the quotient and the product taken as rationals. -/
def exactShare (available total a : Int) : Int := pyInt ((a : ℚ) * ((available : ℚ) / total))

def payoutPlanExact (cfg : Config) (unlocked : Int) (owed : List Dest) : List Dest :=
  payoutPlanBy exactShare cfg unlocked owed

section Plan

variable {cfg : Config} {unlocked : Int} {owed : List Dest}

theorem pyInt_nonneg {q : ℚ} (h : 0 ≤ q) : 0 ≤ pyInt q :=
  Int.tdiv_nonneg (Rat.num_nonneg.mpr h) (Int.natCast_nonneg q.den)

theorem pyInt_le_self {q : ℚ} (h : 0 ≤ q) : (pyInt q : ℚ) ≤ q := by
  rw [pyInt, Int.tdiv_eq_ediv_of_nonneg (Rat.num_nonneg.mpr h), ← Rat.floor_def]
  exact Int.floor_le q

theorem exactShare_le {available total a : Int} (htotal : available < total) (hpos : 0 < total)
    (ha : 0 ≤ a) : exactShare available total a ≤ a := by
  obtain ⟨n, rfl⟩ := Int.eq_ofNat_of_zero_le ha
  have hscale : (available : ℚ) / total ≤ 1 := by
    rw [div_le_one (by exact_mod_cast hpos)]
    exact_mod_cast htotal.le
  refine pyInt_le_of_le ?_
  calc ((n : Int) : ℚ) * ((available : ℚ) / total) ≤ ((n : Int) : ℚ) * 1 := by gcongr
    _ = n := by rw [mul_one, Int.cast_natCast]

theorem sum_exactShare_le {available : Int} (havail : 0 ≤ available)
    (hpos : ∀ d ∈ owed, 0 < d.amount) (htotal : 0 < totalOwed owed) :
    (owed.map fun d => exactShare available (totalOwed owed) d.amount).sum ≤ available := by
  have hscale : (0 : ℚ) ≤ (available : ℚ) / totalOwed owed := by positivity
  -- each floor is below its share, and the shares add up exactly
  have hsum : ∀ ds : List Dest, (∀ d ∈ ds, 0 < d.amount) →
      (((ds.map fun d => exactShare available (totalOwed owed) d.amount).sum : Int) : ℚ)
        ≤ (totalOwed ds : ℚ) * ((available : ℚ) / totalOwed owed) := by
    intro ds hds
    induction ds with
    | nil => simp [totalOwed]
    | cons d ds ih =>
      have hhead : (exactShare available (totalOwed owed) d.amount : ℚ)
          ≤ d.amount * ((available : ℚ) / totalOwed owed) := by
        have hd : (0 : ℚ) ≤ d.amount := by exact_mod_cast (hds d mem_cons_self).le
        exact pyInt_le_self (mul_nonneg hd hscale)
      have hrest := ih fun d' hd' => hds d' (mem_cons_of_mem d hd')
      simp only [totalOwed, map_cons, sum_cons, Int.cast_add, add_mul] at hhead hrest ⊢
      exact add_le_add hhead hrest
  have hne : (totalOwed owed : ℚ) ≠ 0 := by exact_mod_cast htotal.ne'
  have hall := hsum owed hpos
  rw [mul_div_cancel₀ _ hne] at hall
  exact_mod_cast hall

theorem totalOwed_payoutPlanExact_le (hpos : ∀ d ∈ owed, 0 < d.amount)
    (hmin : 0 ≤ cfg.minPayoutAtomic)
    (havail : cfg.minPayoutAtomic ≤ unlocked - feeReserveAtomic) :
    totalOwed (payoutPlanExact cfg unlocked owed) ≤ unlocked - feeReserveAtomic := by
  have hnonneg := hmin.trans havail
  unfold payoutPlanExact payoutPlanBy
  simp only [if_neg (Int.not_lt.mpr havail)]
  split
  · rename_i hcapped
    -- leaving the small shares out does not raise the sum
    have hshares : ∀ d ∈ owed, 0 ≤ exactShare (unlocked - feeReserveAtomic) (totalOwed owed)
        d.amount := by
      intro d hd
      have hamount := hpos d hd
      have htotal := totalOwed_pos hpos hd
      exact pyInt_nonneg (by positivity)
    refine (List.Sublist.sum_le_sum (filter_sublist.map _) ?_).trans ?_
    · intro x hx
      rw [map_map] at hx
      obtain ⟨d, hd, rfl⟩ := mem_map.mp hx
      exact hshares d hd
    · rw [map_map]
      exact sum_exactShare_le hnonneg hpos (by omega)
  · omega

end Plan

section Round

/-- What one round of payouts promises: about its destinations, given the balances pending before,
and about those pending once its rows are in the payouts file. -/
structure RoundPays (cfg : Config) (unlocked : Int) (fee : Nat) (pending dests after : List Dest) :
    Prop where
  min_le : ∀ d ∈ dests, cfg.minPayoutAtomic ≤ d.amount
  le_pending : ∀ d ∈ dests, d.amount ≤ balanceOf pending d.wallet
  total_le : cfg.minPayoutAtomic ≤ unlocked - feeReserveAtomic →
    totalOwed dests ≤ unlocked - feeReserveAtomic
  once : (dests.map Dest.wallet).Nodup
  recorded : ∀ d ∈ dests, ∃ row ∈ payoutRows dests fee, row.wallet = d.wallet
    ∧ row.atomic = d.amount ∧ balanceOf after d.wallet
      = max 0 (balanceOf pending d.wallet - (d.amount + (row.roundFeeShare.getD 0 : Nat)))
  fees_le : ((payoutRows dests fee).map fun row => row.roundFeeShare.getD 0).sum ≤ fee

variable (cfg : Config) (arrived : Option (List Nat)) (credits : List CreditEntry)
  (payouts : List PayoutRow) (adjustments : List Adjustment) (unlocked : Int) (fee : Nat)

def roundDests : List Dest :=
  payoutPlanExact cfg unlocked
    (eligible cfg (computePendingBalances arrived credits payouts adjustments))

variable {arrived credits payouts adjustments}

theorem balanceOf_of_mem_pending {d : Dest}
    (hd : d ∈ computePendingBalances arrived credits payouts adjustments) :
    d.wallet ≠ "" ∧
      d.amount = balanceOf (computePendingBalances arrived credits payouts adjustments) d.wallet ∧
      d.amount = netMatured arrived credits payouts adjustments d.wallet := by
  obtain ⟨w, hw, hnet⟩ := mem_filterMap.mp hd
  have hname : w ≠ "" := of_decide_eq_true (mem_filter.mp (mem_dedup.mp hw)).2
  simp only at hnet
  split at hnet
  · rename_i hpos
    cases hnet
    refine ⟨hname, ?_, rfl⟩
    rw [balanceOf_pending arrived credits payouts adjustments hname]
    exact (Int.max_eq_right hpos.le).symm
  · cases hnet

theorem paidTo_payoutRows {dests : List Dest} (hnodup : (dests.map Dest.wallet).Nodup) {d : Dest}
    (hd : d ∈ dests) :
    paidTo (payoutRows dests fee) d.wallet
      = d.amount + ((fee / max 1 dests.length : Nat) : Int) := by
  rw [paidTo, payoutRows, sumFor_map]
  exact sumFor_eq_of_mem _ _ hnodup hd

theorem sum_feeShares_le (dests : List Dest) :
    ((payoutRows dests fee).map fun row => row.roundFeeShare.getD 0).sum ≤ fee := by
  have hsum : ((payoutRows dests fee).map fun row => row.roundFeeShare.getD 0).sum
      = dests.length * (fee / max 1 dests.length) := by
    simp [payoutRows, Function.comp_def]
  calc _ = dests.length * (fee / max 1 dests.length) := hsum
    _ ≤ max 1 dests.length * (fee / max 1 dests.length) :=
      Nat.mul_le_mul_right _ (Nat.le_max_right 1 dests.length)
    _ ≤ fee := Nat.mul_div_le fee (max 1 dests.length)

/-- A round pays as it should, whatever credits, payouts and adjustments are on file. -/
theorem round_pays (hmin : 0 ≤ Config.minPayoutAtomic cfg) :
    let dests := roundDests cfg arrived credits payouts adjustments unlocked
    RoundPays cfg unlocked fee (computePendingBalances arrived credits payouts adjustments) dests
      (computePendingBalances arrived credits (payouts ++ payoutRows dests fee) adjustments) := by
  intro dests
  have hpending : ∀ d ∈ eligible cfg (computePendingBalances arrived credits payouts adjustments),
      d ∈ computePendingBalances arrived credits payouts adjustments :=
    fun d hd => (mem_filter.mp hd).1
  have hpos := fun d hd => (mem_computePendingBalances (hpending d hd)).1
  have honce : (dests.map Dest.wallet).Nodup := nodup_payoutPlanBy
    (nodup_eligible (nodup_computePendingBalances arrived credits payouts adjustments))
  have hpaid : ∀ d ∈ dests, _ := fun d hd => mem_payoutPlanBy (fun hcapped d₀ hd₀ _ =>
    exactShare_le hcapped (totalOwed_pos hpos hd₀) (hpos d₀ hd₀).le) hd
  refine ⟨?_, ?_, totalOwed_payoutPlanExact_le hpos hmin, honce, ?_, sum_feeShares_le fee _⟩
  · intro d hd
    exact (hpaid d hd).1.elim (fun howed => of_decide_eq_true (mem_filter.mp howed).2) id
  · intro d hd
    obtain ⟨-, d₀, hd₀, hwallet, hle⟩ := hpaid d hd
    rw [← hwallet, ← (balanceOf_of_mem_pending (hpending d₀ hd₀)).2.1]
    exact hle
  · intro d hd
    obtain ⟨-, d₀, hd₀, hwallet, -⟩ := hpaid d hd
    obtain ⟨hname, hbalance, hnet⟩ := balanceOf_of_mem_pending (hpending d₀ hd₀)
    rw [hwallet] at hname hbalance hnet
    refine ⟨_, mem_map.mpr ⟨d, hd, rfl⟩, rfl, rfl, ?_⟩
    have hafter := paidTo_payoutRows fee honce hd
    rw [balanceOf_pending _ _ _ _ hname, ← hbalance, hnet, netMatured, netMatured, paidTo,
      sumFor_append, ← paidTo, ← paidTo, hafter, Option.getD_some]
    congr 1
    omega

theorem round_pays_sample :
    let pending := computePendingBalances (some [100]) sampleCredits
    let dests := roundDests {} (some [100]) sampleCredits [] [] (4 * 10 ^ 11)
    dests = [⟨"R1", 35 * 10 ^ 10⟩] ∧ RoundPays {} (4 * 10 ^ 11) (2 * 10 ^ 9) (pending [] []) dests
      (pending ([] ++ payoutRows dests (2 * 10 ^ 9)) []) :=
  ⟨by decide +kernel, round_pays {} _ _ (by decide)⟩

end Round

end Glaciem.Pool.Payout
