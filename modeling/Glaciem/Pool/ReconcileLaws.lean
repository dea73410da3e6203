import Glaciem.Pool.Reconcile

/-!
# Glaciem — what a reconcile pass does to a settled round, and when a second pass agrees

Two laws of `reconcile_credits_once`, both decided height by height: the rows a pass keeps at a
height depend on the rows at that height only (`rowsAt_kept`). A round that wrote two rows or more
is treated as an orphan race and rescaled to the raw coinbase, which undoes the pool's cut and the
sponsorship bonus.

The slices are quotients of floats. They may round up, so that all but the last together exceed the
amount that arrived (`overshoot`); the last row is then dropped and the sum is too large.
-/

namespace Glaciem.Pool

open List Function Nat

section Slices

variable (cfg : Config) (actual total : Nat)

/-- The row with its slice of `actual`. -/
def CreditEntry.toSlice (c : CreditEntry) : CreditEntry :=
  { c with atomic := cfg.slice actual c.shares total }

@[simp] theorem toSlice_shares (c : CreditEntry) :
    (c.toSlice cfg actual total).shares = c.shares := rfl

def sliceSum (shares : List Nat) : Nat := (shares.map (cfg.slice actual · total)).sum

theorem sliceSum_append (a b : List Nat) :
    sliceSum cfg actual total (a ++ b)
      = sliceSum cfg actual total a + sliceSum cfg actual total b := by
  simp [sliceSum]

theorem sliceSum_no_total (shares : List Nat) : sliceSum cfg actual 0 shares = 0 := by
  simp [sliceSum]

theorem totalAtomic_map_toSlice (rows : List CreditEntry) :
    totalAtomic (rows.map (CreditEntry.toSlice cfg actual total))
      = sliceSum cfg actual total (rows.map CreditEntry.shares) := by
  simp [totalAtomic, sliceSum, CreditEntry.toSlice, comp_def]

/-- By how much the slices of all rows but the last exceed the amount. -/
def overshoot (shares : List Nat) : Nat := sliceSum cfg actual shares.sum shares.dropLast - actual

theorem totalShares_append (a b : List CreditEntry) :
    totalShares (a ++ b) = totalShares a + totalShares b := by
  simp [totalShares]

theorem totalShares_map_toSlice (rows : List CreditEntry) :
    totalShares (rows.map (CreditEntry.toSlice cfg actual total)) = totalShares rows := by
  simp [totalShares, comp_def]

/-! ## The distribution loop in closed form -/

theorem distribute_snoc (assigned : Nat) (init : List CreditEntry) (last : CreditEntry) :
    distribute cfg actual total assigned (init ++ [last])
      = init.map (CreditEntry.toSlice cfg actual total) ++ [{ last with
          atomic := actual
            - (assigned + sliceSum cfg actual total (init.map CreditEntry.shares)) }] := by
  induction init generalizing assigned with
  | nil => simp [distribute, sliceSum]
  | cons c rest ih =>
    -- the loop's test for the last row fails here: `last` is still to come
    have hne : rest ++ [last] ≠ [] := by simp
    have hunfold : distribute cfg actual total assigned (c :: (rest ++ [last]))
        = c.toSlice cfg actual total :: distribute cfg actual total
            (assigned + cfg.slice actual c.shares total) (rest ++ [last]) := by
      cases h : rest ++ [last] with
      | nil => exact absurd h hne
      | cons c' rest' => rfl
    have hsum : sliceSum cfg actual total ((c :: rest).map CreditEntry.shares)
        = cfg.slice actual c.shares total
          + sliceSum cfg actual total (rest.map CreditEntry.shares) := by
      simp [sliceSum]
    rw [cons_append, hunfold, ih, hsum, map_cons, cons_append, add_assoc]

end Slices

section Group

variable {cfg : Config} {arrived : Nat → Option Nat} {walletH : Nat} {h actual total : Nat}

/-- Every row but the last gets its slice, the last one the remainder; rows of zero amount go. -/
theorem kept_snoc (harr : arrived h = some actual) {init : List CreditEntry} (hinit : init ≠ [])
    (last : CreditEntry) (hdef : totalShares (init ++ [last]) = total) (htotal : 0 < total) :
    (reconcileGroup cfg arrived walletH h (init ++ [last])).kept
      = (init.map (CreditEntry.toSlice cfg actual total)).filter (fun c => c.atomic > 0)
        ++ [{ last with atomic := actual
              - sliceSum cfg actual total (init.map CreditEntry.shares) }].filter
            (fun c => c.atomic > 0) := by
  obtain ⟨c, rest, rfl⟩ := exists_cons_of_ne_nil hinit
  have hgroup : ∃ c' rest', rest ++ [last] = c' :: rest' := exists_cons_of_ne_nil (by simp)
  obtain ⟨c', rest', hrest⟩ := hgroup
  have hdist := distribute_snoc cfg actual total 0 (c :: rest) last
  rw [zero_add] at hdist
  rw [cons_append, hrest] at hdef hdist ⊢
  simp only [reconcileGroup, harr, hdef, gt_iff_lt, if_pos htotal, hdist, filter_append]

theorem kept_singleton (harr : arrived h = some actual) (c : CreditEntry) :
    (reconcileGroup cfg arrived walletH h [c]).kept = [{ c with atomic := actual }] := by
  simp only [reconcileGroup, harr]

variable {g : List CreditEntry}

theorem kept_of_no_shares (cfg : Config) (walletH : Nat) (harr : arrived h = some actual)
    (hg : g ≠ []) (hzero : totalShares g = 0) :
    ∃ c : CreditEntry,
      (reconcileGroup cfg arrived walletH h g).kept = [{ c with atomic := actual }] := by
  match g with
  | [] => exact absurd rfl hg
  | [c] => exact ⟨c, kept_singleton harr c⟩
  | c :: c' :: rest =>
    refine ⟨c, ?_⟩
    have hnot : ¬ totalShares (c :: c' :: rest) > 0 := by omega
    simp only [reconcileGroup, harr, if_neg hnot]

theorem overshoot_of_no_shares (cfg : Config) (actual : Nat) (hzero : totalShares g = 0) :
    overshoot cfg actual (g.map CreditEntry.shares) = 0 := by
  have hsum : (g.map CreditEntry.shares).sum = 0 := hzero
  rw [overshoot, hsum, sliceSum_no_total, Nat.zero_sub]

/-- The rows kept at a height whose coinbase arrived add up to it, and to more when the slices
exceed it. -/
theorem totalAtomic_kept (cfg : Config) (walletH : Nat) (harr : arrived h = some actual)
    (hg : g ≠ []) :
    totalAtomic (reconcileGroup cfg arrived walletH h g).kept
      = actual + overshoot cfg actual (g.map CreditEntry.shares) := by
  rcases Nat.eq_zero_or_pos (totalShares g) with hzero | htotal
  · obtain ⟨c, hkept⟩ := kept_of_no_shares cfg walletH harr hg hzero
    rw [hkept, totalAtomic_cons, totalAtomic_nil, overshoot_of_no_shares cfg actual hzero]
  obtain ⟨init, last, rfl⟩ := (eq_nil_or_concat' g).resolve_left hg
  rw [overshoot, map_append, map_singleton, dropLast_concat]
  cases init with
  | nil => simp [kept_singleton harr, sliceSum]
  | cons c rest =>
    -- the last row takes what the slices before it leave
    rw [kept_snoc harr (by simp) last rfl htotal, totalAtomic_append, totalAtomic_filter_pos,
      totalAtomic_filter_pos, totalAtomic_map_toSlice, totalAtomic_cons, totalAtomic_nil]
    have htotal' : ((c :: rest).map CreditEntry.shares ++ [last.shares]).sum
        = totalShares (c :: rest ++ [last]) := by simp [totalShares]
    rw [htotal']
    dsimp only
    omega

theorem kept_nil : (reconcileGroup cfg arrived walletH h []).kept = [] := by
  unfold reconcileGroup
  cases arrived h with
  | none => dsimp only; split <;> rfl
  | some _ => rfl

theorem height_of_mem_kept (hg : ∀ c ∈ g, c.height = h) {c : CreditEntry}
    (hc : c ∈ (reconcileGroup cfg arrived walletH h g).kept) : c.height = h := by
  obtain ⟨c₀, hc₀, hident⟩ := exists_mem_of_mem_kept hc
  rw [← (ident_eq_fields hident).1]
  exact hg c₀ hc₀

end Group

/-! ## From heights to the file -/

variable {items : List (Nat × List CreditEntry)} {f : Nat → List CreditEntry → List CreditEntry}

theorem rowsAt_flatMap_of_not_mem (hf : ∀ p ∈ items, ∀ c ∈ f p.1 p.2, c.height = p.1) {h : Nat}
    (hh : h ∉ items.map Prod.fst) : rowsAt (items.flatMap (fun p => f p.1 p.2)) h = [] := by
  unfold rowsAt
  rw [filter_eq_nil_iff]
  intro c hc
  obtain ⟨p, hp, hcp⟩ := mem_flatMap.mp hc
  have hheight := hf p hp c hcp
  simp only [decide_eq_true_eq]
  rintro rfl
  exact hh (mem_map.mpr ⟨p, hp, hheight.symm⟩)

theorem rowsAt_flatMap (hnodup : (items.map Prod.fst).Nodup)
    (hf : ∀ p ∈ items, ∀ c ∈ f p.1 p.2, c.height = p.1) {h : Nat} {g : List CreditEntry}
    (hmem : (h, g) ∈ items) : rowsAt (items.flatMap (fun p => f p.1 p.2)) h = f h g := by
  induction items with
  | nil => exact absurd hmem (by simp)
  | cons p rest ih =>
    rw [map_cons, nodup_cons] at hnodup
    have hrest := ih hnodup.2 (fun q hq => hf q (mem_cons_of_mem _ hq))
    rw [flatMap_cons, rowsAt_append]
    rcases mem_cons.mp hmem with rfl | hin
    · have hself : rowsAt (f h g) h = f h g :=
        filter_eq_self.mpr fun c hc => by simpa using hf (h, g) (by simp) c hc
      rw [hself, rowsAt_flatMap_of_not_mem (fun q hq => hf q (mem_cons_of_mem _ hq)) hnodup.1,
        append_nil]
    · have hne : p.1 ≠ h := by
        rintro rfl
        exact hnodup.1 (mem_map.mpr ⟨_, hin, rfl⟩)
      have hnone : rowsAt (f p.1 p.2) h = [] := by
        unfold rowsAt
        rw [filter_eq_nil_iff]
        intro c hc
        rw [hf p (by simp) c hc]
        simpa using hne
      rw [hnone, nil_append, hrest hin]

section Pass

variable (cfg : Config) (arrived : Nat → Option Nat) (walletH : Nat)

theorem kept_eq_flatMap (credits : List CreditEntry) :
    (reconcileCredits cfg arrived walletH credits).kept
      = (byHeight credits).items.flatMap
          (fun p => (reconcileGroup cfg arrived walletH p.1 p.2).kept) := by
  simp only [reconcileCredits, flatMap_map]

variable {credits : List CreditEntry}

theorem height_of_mem_items {p : Nat × List CreditEntry} (hp : p ∈ (byHeight credits).items) :
    ∀ c ∈ p.2, c.height = p.1 := by
  intro c hc
  rw [(mem_byHeight_items.mp hp).1] at hc
  exact (mem_rowsAt.mp hc).2

theorem height_of_mem_kept_items :
    ∀ p ∈ (byHeight credits).items,
      ∀ c ∈ (reconcileGroup cfg arrived walletH p.1 p.2).kept, c.height = p.1 :=
  fun _ hp _ hc => height_of_mem_kept (height_of_mem_items hp) hc

theorem rowsAt_kept (credits : List CreditEntry) (h : Nat) :
    rowsAt (reconcileCredits cfg arrived walletH credits).kept h
      = (reconcileGroup cfg arrived walletH h (rowsAt credits h)).kept := by
  rw [kept_eq_flatMap]
  by_cases hnil : rowsAt credits h = []
  · rw [hnil, kept_nil]
    refine rowsAt_flatMap_of_not_mem
      (f := fun h g => (reconcileGroup cfg arrived walletH h g).kept)
      (height_of_mem_kept_items cfg arrived walletH) ?_
    intro hmem
    obtain ⟨⟨h', g⟩, hitem, rfl⟩ := mem_map.mp hmem
    obtain ⟨hg, hne⟩ := mem_byHeight_items.mp hitem
    exact hne (hg.trans hnil)
  · exact rowsAt_flatMap (f := fun h g => (reconcileGroup cfg arrived walletH h g).kept)
      (byHeight credits).nodup (height_of_mem_kept_items cfg arrived walletH)
      (mem_byHeight_items.mpr ⟨rfl, hnil⟩)

/-! ## When a pass writes nothing -/

/-- Every height of the ledger is either settled in one row and arrived, or too recent to
judge. -/
def LedgerQuiet (credits : List CreditEntry) : Prop :=
  ∀ c ∈ credits, match arrived c.height with
    | some _ => (rowsAt credits c.height).length = 1
    | none => (walletH : Int) - c.height < cfg.reconcileSafetyAge

theorem reconcileGroup_quiet_iff (h : Nat) {g : List CreditEntry} (hne : g ≠ []) :
    ((reconcileGroup cfg arrived walletH h g).dropped = []
        ∧ (reconcileGroup cfg arrived walletH h g).rescaled = 0)
      ↔ match arrived h with
        | some _ => g.length = 1
        | none => (walletH : Int) - h < cfg.reconcileSafetyAge := by
  unfold reconcileGroup
  cases arrived h with
  | none =>
    dsimp only
    split
    · next hrecent => simp [hrecent]
    · next hold => simp [hold, hne]
  | some actual =>
    match g with
    | [] => exact absurd rfl hne
    | [c] => simp
    | c :: c' :: rest =>
      dsimp only
      split <;> simp

theorem LedgerQuiet.length_eq_one {cfg : Config} {arrived : Nat → Option Nat} {walletH : Nat}
    (hquiet : LedgerQuiet cfg arrived walletH credits) {h actual : Nat}
    (harr : arrived h = some actual) (hne : rowsAt credits h ≠ []) :
    (rowsAt credits h).length = 1 := by
  obtain ⟨c, hc⟩ := exists_mem_of_ne_nil _ hne
  obtain ⟨hmem, hh⟩ := mem_rowsAt.mp hc
  have hone := hquiet c hmem
  rwa [hh, harr] at hone

theorem writes_eq_false_iff (credits : List CreditEntry) :
    (reconcileCredits cfg arrived walletH credits).writes = false
      ↔ LedgerQuiet cfg arrived walletH credits := by
  have hgroups : (reconcileCredits cfg arrived walletH credits).writes = false
      ↔ ∀ p ∈ (byHeight credits).items,
          (reconcileGroup cfg arrived walletH p.1 p.2).dropped = []
            ∧ (reconcileGroup cfg arrived walletH p.1 p.2).rescaled = 0 := by
    simp only [GroupOutcome.writes, reconcileCredits, decide_eq_false_iff_not, not_or, not_not,
      pos_iff_ne_zero, gt_iff_lt, flatMap_map, flatMap_eq_nil_iff, map_map,
      sum_eq_zero_iff, mem_map, comp_apply, forall_exists_index, and_imp,
      forall_apply_eq_imp_iff₂]
    exact ⟨fun hall p hp => ⟨hall.1 p hp, hall.2 p hp⟩,
      fun hall => ⟨fun p hp => (hall p hp).1, fun p hp => (hall p hp).2⟩⟩
  rw [hgroups]
  constructor
  · intro hall c hc
    have hrow : rowsAt credits c.height ≠ [] := ne_nil_of_mem (mem_rowsAt.mpr ⟨hc, rfl⟩)
    exact (reconcileGroup_quiet_iff cfg arrived walletH c.height hrow).mp
      (hall (c.height, rowsAt credits c.height) (mem_byHeight_items.mpr ⟨rfl, hrow⟩))
  · rintro hquiet ⟨h, g⟩ hp
    obtain ⟨rfl, hne⟩ := mem_byHeight_items.mp hp
    obtain ⟨c, hc⟩ := exists_mem_of_ne_nil _ hne
    obtain ⟨hcmem, rfl⟩ := mem_rowsAt.mp hc
    exact (reconcileGroup_quiet_iff cfg arrived walletH c.height hne).mpr (hquiet c hcmem)

end Pass

/-- A pass over a quiet ledger leaves the file alone; any other saves what the groups keep. -/
theorem reconcileCreditsOnce_cases (cfg : Config) (ts : List Transfer) (height : Option Nat)
    (credits : List CreditEntry) :
    (LedgerQuiet cfg (arrivedOf ts) (height.getD 0) credits
        ∧ reconcileCreditsOnce cfg (some ts) height credits = credits)
      ∨ (¬ LedgerQuiet cfg (arrivedOf ts) (height.getD 0) credits
        ∧ reconcileCreditsOnce cfg (some ts) height credits
          = (reconcileCredits cfg (arrivedOf ts) (height.getD 0) credits).kept) := by
  rw [← writes_eq_false_iff, reconcileCreditsOnce, reconcileFile]
  cases (reconcileCredits cfg (arrivedOf ts) (height.getD 0) credits).writes with
  | false => exact .inl ⟨rfl, rfl⟩
  | true => exact .inr ⟨Bool.true_eq_false.mp, rfl⟩

/-! ## A settled round -/

/-- The part of `dist` that the slices leave unassigned; negative if they round up to more. -/
def roundingDust (cfg : Config) (dist : Int) (total : Nat) (stats : Dict String MinerStats) : Int :=
  dist - (stats.items.map fun item => cfg.slice dist item.2.sharesThisRound total).sum

/-- The sum recorded at a height is kept, up to dust smaller than the number `n` of rows. -/
def SumKept (before after n : Nat) : Prop := after = before ∨ ((after : Int) - before).natAbs < n

section Settled

variable {cfg : Config} {io : FileIO} {k : Nat} {block : BlockRow} {stats : Dict String MinerStats}
  {fund fund' : Option Sponsorship} {S : Settlement}

theorem totalAtomic_settled (hset : settleRound cfg io k block stats fund = some (S, fund'))
    (hne : S.entries ≠ []) :
    (totalAtomic S.entries : Int) = block.rewardAtomic - (poolCut cfg block.rewardAtomic - S.bonus
      + roundingDust cfg (distributable cfg block.rewardAtomic S.bonus) block.roundShares
          stats) := by
  rw [(settleRound_eq_some hset (rewardAtomic_ne_zero hset hne)).2, totalAtomic_creditEntries]
  unfold roundingDust distributable
  omega

variable {old : List CreditEntry}

section

variable (hset : settleRound cfg io k block stats fund = some (S, fund'))

include hset

theorem rowsAt_settled
    (hfresh : rowsAt old block.height = []) :
    rowsAt (old ++ S.entries) block.height = S.entries := by
  have hself : rowsAt S.entries block.height = S.entries :=
    filter_eq_self.mpr fun c hc => by simpa using (mem_settled hset hc).1
  rw [rowsAt_append, hfresh, nil_append, hself]

theorem ledgerQuiet_settled_iff
    (hone : S.entries.length = 1) (hfresh : rowsAt old block.height = [])
    {arrived : Nat → Option Nat} (walletH : Nat)
    (harr : arrived block.height = some block.rewardAtomic) :
    LedgerQuiet cfg arrived walletH (old ++ S.entries) ↔ LedgerQuiet cfg arrived walletH old := by
  have hother : ∀ c ∈ old, rowsAt (old ++ S.entries) c.height = rowsAt old c.height := by
    intro c hc
    have hne : c.height ≠ block.height := fun h =>
      ne_nil_of_mem (mem_rowsAt.mpr ⟨hc, h⟩) hfresh
    have hnone : rowsAt S.entries c.height = [] :=
      filter_eq_nil_iff.mpr fun c' hc' => by
        rw [(mem_settled hset hc').1]
        simpa using hne.symm
    rw [rowsAt_append, hnone, append_nil]
  constructor
  · intro hquiet c hc
    have hc' := hquiet c (mem_append_left _ hc)
    rwa [hother c hc] at hc'
  · intro hquiet c hc
    rcases mem_append.mp hc with hold | hnew
    · rw [hother c hold]
      exact hquiet c hold
    · rw [(mem_settled hset hnew).1, harr, rowsAt_settled hset hfresh]
      exact hone

theorem shares_settled (hreward : block.rewardAtomic ≠ 0) :
    S.bonus = offeredBonus io fund
      ∧ S.entries.map CreditEntry.shares = (paidWallets cfg (distributable cfg block.rewardAtomic
          (offeredBonus io fund)) block.roundShares stats.items).map
            fun item => item.2.sharesThisRound := by
  obtain ⟨hcons, hentries⟩ := settleRound_eq_some hset hreward
  have hbonus := (sponsorshipConsumeBlock_eq_some hcons).1
  rw [hentries, map_shares_creditEntries, hbonus]
  exact ⟨rfl, rfl⟩

theorem sumKept_settled_iff
    (old : List CreditEntry) (hfresh : rowsAt old block.height = [])
    (transfers : List Transfer) (height : Option Nat)
    (harr : arrivedOf transfers block.height = some block.rewardAtomic) :
    SumKept (totalAtomic S.entries)
        (totalAtomic (rowsAt (reconcileCreditsOnce cfg (some transfers) height (old ++ S.entries))
          block.height)) S.entries.length
      ↔ S.entries = []
        ∨ (S.entries.length = 1 ∧ LedgerQuiet cfg (arrivedOf transfers) (height.getD 0) old)
        ∨ (poolCut cfg block.rewardAtomic - S.bonus
            + roundingDust cfg (distributable cfg block.rewardAtomic S.bonus) block.roundShares
                stats
            + overshoot cfg block.rewardAtomic (S.entries.map CreditEntry.shares)).natAbs
              < S.entries.length := by
  have hrows := rowsAt_settled hset hfresh
  have hkept := rowsAt_kept cfg (arrivedOf transfers) (height.getD 0) (old ++ S.entries)
    block.height
  rw [hrows] at hkept
  have hcases := reconcileCreditsOnce_cases cfg transfers height (old ++ S.entries)
  by_cases hnil : S.entries = []
  · -- nothing was settled, so nothing is recorded before or after
    have hzero : rowsAt (reconcileCreditsOnce cfg (some transfers) height (old ++ S.entries))
        block.height = [] := by
      rcases hcases with ⟨-, hfile⟩ | ⟨-, hfile⟩
      · rw [hfile, hrows, hnil]
      · rw [hfile, hkept, hnil, kept_nil]
    rw [hzero, hnil]
    exact iff_of_true (.inl rfl) (.inl rfl)
  have hsum := totalAtomic_settled hset hnil
  have hlen : 0 < S.entries.length := length_pos_of_ne_nil hnil
  rcases hcases with ⟨hquiet, hfile⟩ | ⟨hloud, hfile⟩
  · -- the file is not saved: only possible with a single row here
    have hone : S.entries.length = 1 := by
      rw [← hrows]
      exact hquiet.length_eq_one harr (hrows.symm ▸ hnil)
    rw [hfile, hrows]
    exact iff_of_true (.inl rfl)
      (.inr (.inl ⟨hone, (ledgerQuiet_settled_iff hset hone hfresh _ harr).mp hquiet⟩))
  · rw [hfile, hkept, totalAtomic_kept _ _ harr hnil]
    constructor
    · intro h
      refine .inr (.inr ?_)
      rcases h with h | h <;> omega
    · rintro (h | h | h)
      · exact absurd h hnil
      · exact absurd ((ledgerQuiet_settled_iff hset h.1 hfresh _ harr).mpr h.2) hloud
      · exact .inr (by omega)

end

/-- **A settled round under reconciliation.** Once the coinbase has arrived, a pass keeps its sum,
up to dust, exactly when the round pays nobody; or it pays one wallet and no other height makes the
pass save the file; or the pool's cut, less the bonus, plus the dust of the settlement and what the
slices of the pass exceed the reward by, is smaller than the number of wallets paid. -/
theorem settled_round_kept_iff
    (hset : settleRound cfg io k block stats fund = some (S, fund'))
    (old : List CreditEntry) (hfresh : rowsAt old block.height = [])
    (transfers : List Transfer) (height : Option Nat)
    (harr : arrivedOf transfers block.height = some block.rewardAtomic) :
    let bonus := offeredBonus io fund
    let dist := distributable cfg block.rewardAtomic bonus
    let shares := (paidWallets cfg dist block.roundShares stats.items).map
      fun item => item.2.sharesThisRound
    SumKept (totalAtomic S.entries)
        (totalAtomic (rowsAt (reconcileCreditsOnce cfg (some transfers) height (old ++ S.entries))
          block.height)) S.entries.length
      ↔ block.rewardAtomic = 0 ∨ shares = []
        ∨ (shares.length = 1 ∧ LedgerQuiet cfg (arrivedOf transfers) (height.getD 0) old)
        ∨ (poolCut cfg block.rewardAtomic - bonus + roundingDust cfg dist block.roundShares stats
            + overshoot cfg block.rewardAtomic shares).natAbs < shares.length := by
  intro bonus dist shares
  rw [sumKept_settled_iff hset old hfresh transfers height harr]
  by_cases hreward : block.rewardAtomic = 0
  · have hnil : S.entries = [] := by
      by_contra hne
      exact rewardAtomic_ne_zero hset hne hreward
    exact iff_of_true (.inl hnil) (.inl hreward)
  · obtain ⟨hbonus, hshares⟩ := shares_settled hset hreward
    have hlen : S.entries.length = (S.entries.map CreditEntry.shares).length := (length_map _).symm
    rw [← map_eq_nil_iff (f := CreditEntry.shares), hlen, hshares, hbonus]
    exact (or_iff_right hreward).symm

end Settled

def twoMiners : Dict String MinerStats :=
  (Dict.empty.set (sampleWallet 'a') { sharesThisRound := 1 }).set (sampleWallet 'b')
    { sharesThisRound := 1 }

def twoMinersRows (atomic : Nat) : List CreditEntry :=
  [⟨5, sampleWallet 'a', atomic, 1, 2, 0, 0⟩, ⟨5, sampleWallet 'b', atomic, 1, 2, 0, 0⟩]

theorem settled_round_kept_without_fee :
    SumKept (totalAtomic (twoMinersRows 500))
      (totalAtomic (rowsAt (reconcileCreditsOnce {} (some [⟨5, 1000⟩]) (some 6)
        ([] ++ twoMinersRows 500)) 5)) 2 := by
  have hset : settleRound {} {} 0 ⟨5, 1000, 2⟩ twoMiners none
      = some (⟨0, twoMinersRows 500⟩, none) := by decide +kernel
  refine (settled_round_kept_iff hset [] rfl [⟨5, 1000⟩] (some 6) rfl).mpr ?_
  exact .inr (.inr (.inr (by decide +kernel)))

/-- With a fee of one percent the pass hands the pool's cut back to the miners: the round
settles 990 of 1000, and the pass makes it 1000. -/
theorem settled_round_fee_undone :
    ∃ S, settleRound { poolFeePercent := 1 } {} 0 ⟨5, 1000, 2⟩ twoMiners none = some (S, none)
      ∧ totalAtomic S.entries = 990
      ∧ totalAtomic (rowsAt (reconcileCreditsOnce { poolFeePercent := 1 } (some [⟨5, 1000⟩])
          (some 6) ([] ++ S.entries)) 5) = 1000
      ∧ ¬ SumKept 990 1000 S.entries.length := by
  refine ⟨⟨0, twoMinersRows 495⟩, by decide +kernel, by decide, by decide +kernel, ?_⟩
  unfold SumKept
  decide

/-! ## A second pass -/

/-- The rows of a group of several rows that keep an amount: those with a slice, and the last one
if the slices before it leave something. -/
def retained (cfg : Config) (actual : Nat) (group : List CreditEntry) : List CreditEntry :=
  let total := totalShares group
  group.dropLast.filter (fun c => 0 < cfg.slice actual c.shares total)
    ++ if sliceSum cfg actual total (group.dropLast.map CreditEntry.shares) < actual then
        group.getLast?.toList
      else []

/-- The slices do not exceed the amount, and dividing by the shares that stay on record gives every
kept row but the last the same slice again. -/
def SlicesStable (cfg : Config) (actual : Nat) (group : List CreditEntry) : Prop :=
  overshoot cfg actual (group.map CreditEntry.shares) = 0
    ∧ ∀ c ∈ (retained cfg actual group).dropLast,
      cfg.slice actual c.shares (totalShares (retained cfg actual group))
        = cfg.slice actual c.shares (totalShares group)

section SecondPass

variable {cfg : Config} {arrived : Nat → Option Nat} {walletH : Nat} {h actual total : Nat}
  {rows init g : List CreditEntry}

theorem filter_map_toSlice (rows : List CreditEntry) :
    (rows.map (CreditEntry.toSlice cfg actual total)).filter (fun c => c.atomic > 0)
      = (rows.filter (fun c => 0 < cfg.slice actual c.shares total)).map
          (CreditEntry.toSlice cfg actual total) := by
  rw [filter_map]
  rfl

theorem sliceSum_filter_pos (cfg : Config) (actual total : Nat) (rows : List CreditEntry) :
    sliceSum cfg actual total
        ((rows.filter (fun c => 0 < cfg.slice actual c.shares total)).map CreditEntry.shares)
      = sliceSum cfg actual total (rows.map CreditEntry.shares) := by
  rw [← totalAtomic_map_toSlice, ← totalAtomic_map_toSlice, ← filter_map_toSlice,
    totalAtomic_filter_pos]

theorem retained_snoc (init : List CreditEntry) (last : CreditEntry)
    (hdef : totalShares (init ++ [last]) = total) :
    retained cfg actual (init ++ [last])
      = init.filter (fun c => 0 < cfg.slice actual c.shares total)
        ++ if sliceSum cfg actual total (init.map CreditEntry.shares) < actual then [last]
          else [] := by
  simp [retained, hdef]

theorem overshoot_snoc (init : List CreditEntry) (last : CreditEntry)
    (hdef : totalShares (init ++ [last]) = total) :
    overshoot cfg actual ((init ++ [last]).map CreditEntry.shares)
      = sliceSum cfg actual total (init.map CreditEntry.shares) - actual := by
  have hsum : ((init ++ [last]).map CreditEntry.shares).sum = total := hdef
  rw [overshoot, hsum, map_append, map_singleton, dropLast_concat]

/-- A pass keeps the retained rows, all but the last of them with their slices. The last one has
what the others leave, unless the slices exceed the amount. -/
theorem kept_retained (cfg : Config) (walletH : Nat) (harr : arrived h = some actual)
    (hlen : 2 ≤ g.length) (htotal : 0 < totalShares g) :
    (retained cfg actual g = [] ∧ (reconcileGroup cfg arrived walletH h g).kept = []
        ∧ overshoot cfg actual (g.map CreditEntry.shares) = 0)
      ∨ ∃ paid last a, retained cfg actual g = paid ++ [last]
        ∧ (reconcileGroup cfg arrived walletH h g).kept
          = paid.map (CreditEntry.toSlice cfg actual (totalShares g)) ++ [{ last with atomic := a }]
        ∧ 0 < a ∧ (∀ c ∈ paid, 0 < cfg.slice actual c.shares (totalShares g))
        ∧ (a = actual - sliceSum cfg actual (totalShares g) (paid.map CreditEntry.shares)
            ↔ overshoot cfg actual (g.map CreditEntry.shares) = 0) := by
  obtain ⟨init, last, rfl⟩ := (eq_nil_or_concat' g).resolve_left (by rintro rfl; simp at hlen)
  have hinit : init ≠ [] := by
    rintro rfl
    simp at hlen
  generalize hdef : totalShares (init ++ [last]) = total at htotal ⊢
  rw [retained_snoc init last hdef, overshoot_snoc init last hdef,
    kept_snoc harr hinit last hdef htotal, filter_map_toSlice]
  have hsum := sliceSum_filter_pos cfg actual total init
  have hpos : ∀ c ∈ init.filter (fun c => 0 < cfg.slice actual c.shares total),
      0 < cfg.slice actual c.shares total := fun c hc => by simpa using (mem_filter.mp hc).2
  generalize init.filter (fun c => 0 < cfg.slice actual c.shares total) = paid at hsum hpos ⊢
  by_cases hrest : sliceSum cfg actual total (init.map CreditEntry.shares) < actual
  · -- the last row keeps a remainder
    have hrem : 0 < actual - sliceSum cfg actual total (init.map CreditEntry.shares) := by omega
    rw [if_pos hrest, filter_cons_of_pos (by simpa using hrem), filter_nil]
    refine .inr ⟨paid, last, _, rfl, rfl, hrem, hpos, ?_⟩
    rw [hsum]
    exact iff_of_true rfl (by omega)
  · -- the last row goes, and the last slice stands in its place
    have hrem : ¬ 0 < actual - sliceSum cfg actual total (init.map CreditEntry.shares) := by omega
    rw [if_neg hrest, filter_cons_of_neg (by simpa using hrem), filter_nil, append_nil, append_nil]
    rcases eq_nil_or_concat' paid with rfl | ⟨front, final, rfl⟩
    · have hzero : sliceSum cfg actual total (init.map CreditEntry.shares) = 0 := hsum.symm
      exact .inl ⟨rfl, rfl, by omega⟩
    · have hfinal := hpos final (by simp)
      refine .inr ⟨front, final, _, rfl, by rw [map_append]; rfl, hfinal,
        fun c hc => hpos c (mem_append_left _ hc), ?_⟩
      have hsplit : sliceSum cfg actual total (init.map CreditEntry.shares)
          = sliceSum cfg actual total (front.map CreditEntry.shares)
            + cfg.slice actual final.shares total := by
        rw [← hsum, map_append, sliceSum_append]
        simp [sliceSum]
      omega

theorem eq_of_filter_append_eq {α : Type} {p : α → Bool} {xs ys xs' ys' : List α}
    (heq : xs.filter p ++ ys.filter p = xs' ++ ys') (hx : xs.length = xs'.length)
    (hy : ys.length = ys'.length) : xs = xs' ∧ ys = ys' := by
  have hlen := congrArg length heq
  rw [length_append, length_append] at hlen
  have hxle := length_filter_le p xs
  have hyle := length_filter_le p ys
  have hxs : xs.filter p = xs := filter_eq_self.mpr (length_filter_eq_length_iff.mp (by omega))
  have hys : ys.filter p = ys := filter_eq_self.mpr (length_filter_eq_length_iff.mp (by omega))
  rw [hxs, hys] at heq
  exact append_inj heq hx

/-- Several rows with slices out of `total` shares, and a last one with `a`, are a fixed point
exactly when their own shares give the same slices and the last has the remainder. -/
theorem kept_eq_self_iff (harr : arrived h = some actual) (hrows : rows ≠ []) (last : CreditEntry)
    (hpos : ∀ c ∈ rows, 0 < cfg.slice actual c.shares total) {a : Nat} (ha : 0 < a) :
    (reconcileGroup cfg arrived walletH h
        (rows.map (CreditEntry.toSlice cfg actual total) ++ [{ last with atomic := a }])).kept
      = rows.map (CreditEntry.toSlice cfg actual total) ++ [{ last with atomic := a }]
    ↔ (∀ c ∈ rows, cfg.slice actual c.shares (totalShares (rows ++ [last]))
          = cfg.slice actual c.shares total)
      ∧ a = actual - sliceSum cfg actual total (rows.map CreditEntry.shares) := by
  have htotal : totalShares (rows.map (CreditEntry.toSlice cfg actual total)
      ++ [{ last with atomic := a }]) = totalShares (rows ++ [last]) := by
    rw [totalShares_append, totalShares_map_toSlice, totalShares_append]
    rfl
  have hsharespos : 0 < totalShares (rows ++ [last]) := by
    obtain ⟨c, rest, rfl⟩ := exists_cons_of_ne_nil hrows
    have hc : 0 < c.shares := by
      refine Nat.pos_of_ne_zero fun h0 => ?_
      simpa [h0] using hpos c (by simp)
    simp only [totalShares, cons_append, map_cons, sum_cons]
    omega
  have hinit : rows.map (CreditEntry.toSlice cfg actual total) ≠ [] := by simpa using hrows
  have hshares : (rows.map (CreditEntry.toSlice cfg actual total)).map CreditEntry.shares
      = rows.map CreditEntry.shares := by simp
  rw [kept_snoc harr hinit _ htotal hsharespos, hshares]
  generalize totalShares (rows ++ [last]) = total'
  have hslices : (rows.map (CreditEntry.toSlice cfg actual total)).map
        (CreditEntry.toSlice cfg actual total') = rows.map (CreditEntry.toSlice cfg actual total)
      ↔ ∀ c ∈ rows, cfg.slice actual c.shares total' = cfg.slice actual c.shares total := by
    rw [map_map, map_inj_left]
    refine forall₂_congr fun c _ => ?_
    simp [CreditEntry.toSlice]
  have hsum : (∀ c ∈ rows, cfg.slice actual c.shares total' = cfg.slice actual c.shares total) →
      sliceSum cfg actual total' (rows.map CreditEntry.shares)
        = sliceSum cfg actual total (rows.map CreditEntry.shares) := by
    intro hstable
    unfold sliceSum
    rw [map_map, map_map]
    exact congrArg sum (map_congr_left hstable)
  constructor
  · intro heq
    obtain ⟨hfront, hback⟩ := eq_of_filter_append_eq heq (by simp) (by simp)
    have hstable := hslices.mp hfront
    refine ⟨hstable, ?_⟩
    rw [← hsum hstable]
    exact (congrArg CreditEntry.atomic (cons.inj hback).1).symm
  · rintro ⟨hstable, hrem⟩
    rw [hslices.mpr hstable, hsum hstable, ← hrem, filter_cons_of_pos (by simpa using ha),
      filter_nil, filter_eq_self.mpr]
    intro c hc
    obtain ⟨c₀, hc₀, rfl⟩ := mem_map.mp hc
    simpa [CreditEntry.toSlice] using hpos c₀ hc₀

theorem retained_of_no_shares (cfg : Config) (actual : Nat) (hzero : totalShares g = 0) :
    (retained cfg actual g).length ≤ 1 := by
  have hnone : g.dropLast.filter (fun c => 0 < cfg.slice actual c.shares 0) = [] := by
    simp
  rw [retained, hzero, hnone, nil_append]
  split
  · cases g.getLast? <;> simp
  · simp

theorem slicesStable_of_retained (hover : overshoot cfg actual (g.map CreditEntry.shares) = 0)
    (hlen : (retained cfg actual g).length ≤ 1) : SlicesStable cfg actual g := by
  refine ⟨hover, fun c hc => ?_⟩
  have hpos := length_pos_of_mem hc
  rw [length_dropLast] at hpos
  omega

theorem kept_kept_eq_iff (harr : arrived h = some actual) (hlen : 2 ≤ g.length) :
    (reconcileGroup cfg arrived walletH h (reconcileGroup cfg arrived walletH h g).kept).kept
      = (reconcileGroup cfg arrived walletH h g).kept
    ↔ SlicesStable cfg actual g := by
  rcases Nat.eq_zero_or_pos (totalShares g) with hzero | htotal
  · -- no share data: the first row is kept alone, with the whole coinbase
    obtain ⟨c, hkept⟩ := kept_of_no_shares cfg walletH harr (by rintro rfl; simp at hlen) hzero
    refine iff_of_true ?_ (slicesStable_of_retained (overshoot_of_no_shares cfg actual hzero)
      (retained_of_no_shares cfg actual hzero))
    rw [hkept, kept_singleton harr]
  rcases kept_retained cfg walletH harr hlen htotal with
    ⟨hret, hkept, hover⟩ | ⟨paid, last, a, hret, hkept, ha, hpos, hrem⟩
  · rw [hkept]
    exact iff_of_true kept_nil (slicesStable_of_retained hover (by rw [hret]; simp))
  rw [hkept, SlicesStable, hret, dropLast_concat, ← hrem]
  cases paid with
  | nil =>
    -- one row is left, which a second pass gives the whole coinbase
    rw [map_nil, nil_append, kept_singleton harr]
    simp [sliceSum, eq_comm]
  | cons c rest => rw [kept_eq_self_iff harr (by simp) last hpos ha, and_comm]

theorem length_kept_le_one_iff (cfg : Config) (walletH : Nat) (harr : arrived h = some actual)
    (hlen : 2 ≤ g.length) :
    (reconcileGroup cfg arrived walletH h g).kept.length ≤ 1
      ↔ (retained cfg actual g).length ≤ 1 := by
  rcases Nat.eq_zero_or_pos (totalShares g) with hzero | htotal
  · obtain ⟨c, hkept⟩ := kept_of_no_shares cfg walletH harr (by rintro rfl; simp at hlen) hzero
    rw [hkept]
    exact iff_of_true (by simp) (retained_of_no_shares cfg actual hzero)
  rcases kept_retained cfg walletH harr hlen htotal with
    ⟨hret, hkept, -⟩ | ⟨paid, last, a, hret, hkept, -⟩
  · rw [hret, hkept]
  · rw [hret, hkept]
    simp

end SecondPass

/-! ## Two passes over the file -/

section TwoPasses

variable (cfg : Config) (arrived : Nat → Option Nat) (walletH : Nat)

theorem flatMap_filter_ne_nil {α β γ : Type} [DecidableEq β] (items : List (α × List β))
    (f : α → List β → List γ) (hf : ∀ a, f a [] = []) :
    ((items.filter (fun p => p.2 ≠ [])).flatMap (fun p => f p.1 p.2))
      = items.flatMap (fun p => f p.1 p.2) := by
  induction items with
  | nil => rfl
  | cons p rest ih =>
    obtain ⟨a, g⟩ := p
    cases g with
    | nil =>
      rw [filter_cons_of_neg (by simp), ih, flatMap_cons, hf, nil_append]
    | cons b g => rw [filter_cons_of_pos (by simp), flatMap_cons, ih, flatMap_cons]

variable (credits : List CreditEntry)

theorem kept_kept_eq_flatMap :
    (reconcileCredits cfg arrived walletH
        (reconcileCredits cfg arrived walletH credits).kept).kept
      = (byHeight credits).items.flatMap (fun p => (reconcileGroup cfg arrived walletH p.1
          (reconcileGroup cfg arrived walletH p.1 p.2).kept).kept) := by
  -- the first pass leaves a ledger that is grouped already, so the second finds these groups
  let groups := (byHeight credits).items.map
    (fun p => (p.1, (reconcileGroup cfg arrived walletH p.1 p.2).kept))
  have hkept : (reconcileCredits cfg arrived walletH credits).kept = groups.flatMap Prod.snd := by
    rw [kept_eq_flatMap, flatMap_map]
  have hnodup : (groups.map Prod.fst).Nodup := by
    rw [map_map]
    exact (byHeight credits).nodup
  have hheight : ∀ p ∈ groups, ∀ c ∈ p.2, c.height = p.1 := by
    intro p hp
    obtain ⟨q, hq, rfl⟩ := mem_map.mp hp
    exact height_of_mem_kept_items cfg arrived walletH q hq
  have hitems := byHeight_flatMap groups hnodup hheight
  rw [hkept, kept_eq_flatMap, hitems, flatMap_filter_ne_nil groups
    (fun h g => (reconcileGroup cfg arrived walletH h g).kept) (fun _ => kept_nil), flatMap_map]

theorem kept_kept_eq_iff_forall :
    (reconcileCredits cfg arrived walletH
        (reconcileCredits cfg arrived walletH credits).kept).kept
      = (reconcileCredits cfg arrived walletH credits).kept
    ↔ ∀ h, (reconcileGroup cfg arrived walletH h
        (reconcileGroup cfg arrived walletH h (rowsAt credits h)).kept).kept
      = (reconcileGroup cfg arrived walletH h (rowsAt credits h)).kept := by
  constructor
  · intro heq h
    rw [← rowsAt_kept, ← rowsAt_kept, heq]
  · intro hall
    rw [kept_kept_eq_flatMap, kept_eq_flatMap]
    refine flatMap_congr fun p hp => ?_
    rw [(mem_byHeight_items.mp hp).1]
    exact hall p.1

theorem kept_of_not_arrived {h : Nat} (harr : arrived h = none) (g : List CreditEntry) :
    (reconcileGroup cfg arrived walletH h g).kept
      = if (walletH : Int) - h < cfg.reconcileSafetyAge then g else [] := by
  simp only [reconcileGroup, harr]
  split <;> rfl

theorem kept_kept_of_short (h : Nat) {g : List CreditEntry}
    (hshort : ∀ actual, arrived h = some actual → g.length < 2) :
    (reconcileGroup cfg arrived walletH h (reconcileGroup cfg arrived walletH h g).kept).kept
      = (reconcileGroup cfg arrived walletH h g).kept := by
  cases harr : arrived h with
  | none =>
    simp only [kept_of_not_arrived cfg arrived walletH harr]
    split <;> rfl
  | some actual =>
    match g, hshort actual harr with
    | [], _ => rw [kept_nil, kept_nil]
    | [c], _ => rw [kept_singleton harr, kept_singleton harr]
    | _ :: _ :: _, hlt => exact absurd hlt (by simp)

theorem kept_kept_eq_iff_stable :
    (reconcileCredits cfg arrived walletH
        (reconcileCredits cfg arrived walletH credits).kept).kept
      = (reconcileCredits cfg arrived walletH credits).kept
    ↔ ∀ h actual, arrived h = some actual → 2 ≤ (rowsAt credits h).length →
        SlicesStable cfg actual (rowsAt credits h) := by
  rw [kept_kept_eq_iff_forall]
  constructor
  · intro hall h actual harr hlen
    exact (kept_kept_eq_iff harr hlen).mp (hall h)
  · intro hstable h
    by_cases hshort : ∀ actual, arrived h = some actual → (rowsAt credits h).length < 2
    · exact kept_kept_of_short cfg arrived walletH h hshort
    · simp only [not_forall, not_lt] at hshort
      obtain ⟨actual, harr, hlen⟩ := hshort
      exact (kept_kept_eq_iff harr hlen).mpr (hstable h actual harr hlen)

/-- A second pass saves nothing exactly when the first leaves one row at most of every group. -/
theorem ledgerQuiet_kept_iff :
    LedgerQuiet cfg arrived walletH (reconcileCredits cfg arrived walletH credits).kept
    ↔ ∀ h actual, arrived h = some actual → 2 ≤ (rowsAt credits h).length →
        (retained cfg actual (rowsAt credits h)).length ≤ 1 := by
  constructor
  · intro hquiet h actual harr hlen
    rw [← length_kept_le_one_iff cfg walletH harr hlen, ← rowsAt_kept]
    by_cases hnil : rowsAt (reconcileCredits cfg arrived walletH credits).kept h = []
    · simp [hnil]
    · exact (hquiet.length_eq_one harr hnil).le
  · intro hshort c hc
    have hrow := mem_rowsAt.mpr ⟨hc, rfl⟩
    have hne := length_pos_of_mem hrow
    rw [rowsAt_kept] at hrow hne ⊢
    cases harr : arrived c.height with
    | none =>
      rw [kept_of_not_arrived cfg arrived walletH harr] at hrow
      by_contra hold
      rw [if_neg hold] at hrow
      exact not_mem_nil hrow
    | some actual =>
      refine le_antisymm ?_ hne
      match hg : rowsAt credits c.height with
      | [] => rw [kept_nil]; simp
      | [c'] => rw [kept_singleton harr]; simp
      | c₁ :: c₂ :: rest =>
        have hlen : 2 ≤ (rowsAt credits c.height).length := by simp [hg]
        rw [← hg, length_kept_le_one_iff cfg walletH harr hlen]
        exact hshort c.height actual harr hlen

end TwoPasses

/-- **Idempotence, exactly.** Two passes against the same wallet answers leave the file of one
exactly when either the first leaves one row at most of every group of several rows whose coinbase
arrived, or at each of these heights the slices do not exceed the coinbase and dropping the rows
without an amount does not move them. -/
theorem reconcileCreditsOnce_idempotent_iff (cfg : Config) (transfers : Option (List Transfer))
    (height : Option Nat) (credits : List CreditEntry) :
    reconcileCreditsOnce cfg transfers height (reconcileCreditsOnce cfg transfers height credits)
      = reconcileCreditsOnce cfg transfers height credits
    ↔ ∀ ts, transfers = some ts →
        (∀ h actual, arrivedOf ts h = some actual → 2 ≤ (rowsAt credits h).length →
          (retained cfg actual (rowsAt credits h)).length ≤ 1)
        ∨ ∀ h actual, arrivedOf ts h = some actual → 2 ≤ (rowsAt credits h).length →
          SlicesStable cfg actual (rowsAt credits h) := by
  cases transfers with
  | none => exact iff_of_true rfl (fun ts hts => absurd hts (by simp))
  | some ts =>
    simp only [Option.some.injEq, forall_eq']
    rw [← ledgerQuiet_kept_iff cfg (arrivedOf ts) (height.getD 0),
      ← kept_kept_eq_iff_stable cfg (arrivedOf ts) (height.getD 0)]
    rcases reconcileCreditsOnce_cases cfg ts height credits with ⟨hquiet, hfile⟩ | ⟨-, hfile⟩
    · -- nothing is saved: every arrived height has a single row
      rw [hfile, hfile]
      refine iff_of_true rfl (.inr ?_)
      rw [kept_kept_eq_iff_forall]
      intro h
      refine kept_kept_of_short _ _ _ h fun actual harr => ?_
      by_cases hnil : rowsAt credits h = []
      · rw [hnil]
        exact two_pos
      · rw [hquiet.length_eq_one harr hnil]
        exact one_lt_two
    · rw [hfile]
      rcases reconcileCreditsOnce_cases cfg ts height _ with ⟨hquiet, hsecond⟩ | ⟨hloud, hsecond⟩
      · rw [hsecond]
        exact iff_of_true rfl (.inl hquiet)
      · rw [hsecond, or_iff_right hloud]

/-- Three rows of one height share a coinbase of 10 by 9, 1 and 9 shares. The first pass drops
the middle row, whose slice is zero, and the second pass divides by 18 shares, not 19. -/
theorem reconcileCreditsOnce_not_idempotent :
    let credits : List CreditEntry :=
      [⟨5, sampleWallet 'a', 4, 9, 19, 0, 0⟩, ⟨5, sampleWallet 'b', 1, 1, 19, 0, 0⟩,
        ⟨5, sampleWallet 'c', 4, 9, 19, 0, 0⟩]
    let pass := reconcileCreditsOnce {} (some [⟨5, 10⟩]) (some 6)
    (pass credits).map CreditEntry.atomic = [4, 6]
      ∧ (pass (pass credits)).map CreditEntry.atomic = [5, 5]
      ∧ pass (pass credits) ≠ pass credits := by
  decide +kernel

end Glaciem.Pool
