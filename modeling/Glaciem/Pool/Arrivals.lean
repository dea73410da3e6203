import Glaciem.Pool.ReconcileLaws

/-!
# Glaciem — what a reconcile pass saves, and what it may take away

Two properties of `reconcile_credits_once`, both decided by whether it writes the file at all. The
pass knows one transfer a height, the last one listed, and judges the age of a block by a height
read after the list. A credit whose coinbase the wallet has is cut to another transfer at its
height, or dropped when its coinbase was scanned between the two answers.
-/

namespace Glaciem.Pool

section File

variable {cfg : Config} {ts : List Transfer} {height : Option Nat} {credits : List CreditEntry}

/-- At every height the rows of the computed list, at a height that arrived the amount that arrived,
and no row of an old height that did not. -/
structure Persisted (cfg : Config) (ts : List Transfer) (height : Option Nat)
    (credits file : List CreditEntry) : Prop where
  rows : ∀ h, rowsAt file h
    = rowsAt (reconcileCredits cfg (arrivedOf ts) (height.getD 0) credits).kept h
  arrived : ∀ h actual, arrivedOf ts h = some actual → rowsAt credits h ≠ [] →
    totalAtomic (rowsAt file h) = actual
  phantoms : ∀ c ∈ file, arrivedOf ts c.height = none →
    ((height.getD 0 : Nat) : Int) - c.height < cfg.reconcileSafetyAge

theorem persisted_iff_of_rows {file : List CreditEntry} (hrows : ∀ h, rowsAt file h
      = rowsAt (reconcileCredits cfg (arrivedOf ts) (height.getD 0) credits).kept h) :
    Persisted cfg ts height credits file
      ↔ ∀ h actual, arrivedOf ts h = some actual →
        overshoot cfg actual ((rowsAt credits h).map CreditEntry.shares) = 0 := by
  have hsum : ∀ h actual, arrivedOf ts h = some actual → rowsAt credits h ≠ [] →
      totalAtomic (rowsAt file h)
        = actual + overshoot cfg actual ((rowsAt credits h).map CreditEntry.shares) := by
    intro h actual harr hne
    rw [hrows, rowsAt_kept, totalAtomic_kept cfg _ harr hne]
  refine ⟨fun hpersisted h actual harr => ?_, fun hexact =>
    ⟨hrows, fun h actual harr hne => ?_, fun c hc hnone => ?_⟩⟩
  · by_cases hnil : rowsAt credits h = []
    · rw [hnil]
      exact overshoot_of_no_shares cfg actual rfl
    · have harrived := hpersisted.arrived h actual harr hnil
      have htotal := hsum h actual harr hnil
      omega
  · rw [hsum h actual harr hne, hexact h actual harr, add_zero]
  · have hmem : c ∈ rowsAt file c.height := mem_rowsAt.mpr ⟨hc, rfl⟩
    rw [hrows, rowsAt_kept, reconcileGroup, hnone] at hmem
    dsimp only at hmem
    split at hmem
    · assumption
    · cases hmem

theorem LedgerQuiet.overshoot_eq_zero
    (hquiet : LedgerQuiet cfg (arrivedOf ts) (height.getD 0) credits) (h actual : Nat)
    (harr : arrivedOf ts h = some actual) :
    overshoot cfg actual ((rowsAt credits h).map CreditEntry.shares) = 0 := by
  by_cases hnil : rowsAt credits h = []
  · rw [hnil]
    exact overshoot_of_no_shares cfg actual rfl
  · obtain ⟨c, hone⟩ := List.length_eq_one_iff.mp (hquiet.length_eq_one harr hnil)
    simp [hone, overshoot, sliceSum]

/-- It is so exactly when the slices of no height exceed what arrived there, and a height with
several credits arrived, or an old one did not, or every credit alone at a height that arrived has
the amount already. -/
theorem persisted_iff (cfg : Config) (ts : List Transfer) (height : Option Nat)
    (credits : List CreditEntry) :
    Persisted cfg ts height credits (reconcileCreditsOnce cfg (some ts) height credits)
      ↔ (∀ h actual, arrivedOf ts h = some actual →
          overshoot cfg actual ((rowsAt credits h).map CreditEntry.shares) = 0)
        ∧ (¬ LedgerQuiet cfg (arrivedOf ts) (height.getD 0) credits
          ∨ ∀ c ∈ credits, ∀ actual, arrivedOf ts c.height = some actual →
            rowsAt credits c.height = [c] → c.atomic = actual) := by
  rcases reconcileCreditsOnce_cases cfg ts height credits with ⟨hquiet, hfile⟩ | ⟨hloud, hfile⟩
  · rw [hfile, or_iff_right (not_not_intro hquiet), and_iff_right hquiet.overshoot_eq_zero]
    constructor
    · intro hpersisted c hc actual harr halone
      have hsum := hpersisted.arrived c.height actual harr (by simp [halone])
      rwa [halone, totalAtomic_cons, totalAtomic_nil, add_zero] at hsum
    · intro hamounts
      refine (persisted_iff_of_rows fun h => ?_).mpr hquiet.overshoot_eq_zero
      rw [rowsAt_kept]
      by_cases hnil : rowsAt credits h = []
      · rw [hnil, kept_nil]
      · obtain ⟨c, hc⟩ := List.exists_mem_of_ne_nil _ hnil
        obtain ⟨hmem, rfl⟩ := mem_rowsAt.mp hc
        have hgroup := hquiet c hmem
        cases harr : arrivedOf ts c.height with
        | none =>
          rw [harr] at hgroup
          rw [kept_of_not_arrived _ _ _ harr, if_pos hgroup]
        | some actual =>
          rw [harr] at hgroup
          obtain ⟨c', hone⟩ := List.length_eq_one_iff.mp hgroup
          have hself : c = c' := List.mem_singleton.mp (hone ▸ hc)
          subst hself
          rw [hone, kept_singleton harr, ← hamounts c hmem actual harr hone]
  · rw [hfile, and_iff_left (.inl hloud)]
    exact persisted_iff_of_rows fun _ => rfl

/-- A single credit of 700 for a coinbase of 500: the correction stays in memory. -/
theorem correction_not_saved :
    let credits : List CreditEntry := [⟨5, sampleWallet 'a', 700, 9, 9, 0, 0⟩]
    (reconcileCredits {} (arrivedOf [⟨5, 500⟩]) 60 credits).kept.map CreditEntry.atomic = [500]
      ∧ (reconcileCreditsOnce {} (some [⟨5, 500⟩]) (some 60) credits).map CreditEntry.atomic = [700]
      ∧ ¬ Persisted {} [⟨5, 500⟩] (some 60) credits
        (reconcileCreditsOnce {} (some [⟨5, 500⟩]) (some 60) credits) := by
  refine ⟨by decide +kernel, by decide +kernel, fun hpersisted => ?_⟩
  have hsum := hpersisted.arrived 5 500 (by decide) (by decide +kernel)
  exact absurd hsum (by decide +kernel)

end File

/-! ## The credits of a coinbase -/

/-- What each credit at a height is due of the coinbase, by the rule of the pass itself: its slice,
and the last credit the remainder; without shares on record the first credit has all of it. -/
def coinbaseDerived (cfg : Config) (amount : Nat) (g : List CreditEntry) : List Nat :=
  if 0 < totalShares g then
    (distribute cfg amount (totalShares g) 0 g).map CreditEntry.atomic
  else (g.take 1).map (fun _ => amount) ++ (g.drop 1).map (fun _ => 0)

/-- Every credit at the height of the coinbase `t` is still there, and none is below the smaller of
what it was and what it is due of the coinbase. -/
def Safe (cfg : Config) (before after : List CreditEntry) (t : Transfer) : Prop :=
  (rowsAt after t.height).map CreditEntry.ident = (rowsAt before t.height).map CreditEntry.ident
    ∧ List.Forall₂ (· ≤ ·)
      (List.zipWith min ((rowsAt before t.height).map CreditEntry.atomic)
        (coinbaseDerived cfg t.amount (rowsAt before t.height)))
      ((rowsAt after t.height).map CreditEntry.atomic)

section Group

variable {cfg : Config} {arrived : Nat → Option Nat} {walletH h actual : Nat} {g : List CreditEntry}

theorem length_distribute (cfg : Config) (actual total assigned : Nat) (g : List CreditEntry) :
    (distribute cfg actual total assigned g).length = g.length := by
  have hlen := congrArg List.length (map_ident_distribute cfg actual total assigned g)
  rwa [List.length_map, List.length_map] at hlen

theorem length_coinbaseDerived (cfg : Config) (amount : Nat) (g : List CreditEntry) :
    (coinbaseDerived cfg amount g).length = g.length := by
  unfold coinbaseDerived
  split
  · rw [List.length_map, length_distribute]
  · rw [List.length_append, List.length_map, List.length_map, ← List.length_append,
      List.take_append_drop]

theorem forall₂_zipWith_min : ∀ {as bs : List Nat}, as.length = bs.length →
    List.Forall₂ (· ≤ ·) (List.zipWith min as bs) as
  | [], [], _ => .nil
  | _ :: _, _ :: _, hlen =>
    .cons (Nat.min_le_left _ _) (forall₂_zipWith_min (Nat.succ.inj hlen))

theorem coinbaseDerived_singleton (cfg : Config) (amount : Nat) (c : CreditEntry) :
    coinbaseDerived cfg amount [c] = [amount] := by
  unfold coinbaseDerived
  split <;> simp [distribute]

/-- A pass keeps all rows of a height that arrived exactly when there is one at most or each is
given something, and the rows it keeps then have what they are due. -/
theorem kept_whole_iff (cfg : Config) (walletH : Nat) (harr : arrived h = some actual)
    (g : List CreditEntry) :
    ((reconcileGroup cfg arrived walletH h g).kept.map CreditEntry.ident = g.map CreditEntry.ident
        ↔ g.length ≤ 1 ∨ ∀ a ∈ coinbaseDerived cfg actual g, 0 < a)
      ∧ ((reconcileGroup cfg arrived walletH h g).kept.map CreditEntry.ident
          = g.map CreditEntry.ident →
        (reconcileGroup cfg arrived walletH h g).kept.map CreditEntry.atomic
          = coinbaseDerived cfg actual g) := by
  match g with
  | [] =>
    rw [kept_nil]
    exact ⟨iff_of_true rfl (.inl (by simp)), fun _ => by simp [coinbaseDerived, totalShares]⟩
  | [c] =>
    rw [kept_singleton harr, coinbaseDerived_singleton]
    exact ⟨iff_of_true rfl (.inl (by simp)), fun _ => rfl⟩
  | c :: c' :: rest =>
    have hlen : ¬ (c :: c' :: rest).length ≤ 1 := by simp
    rw [or_iff_right hlen]
    by_cases htotal : totalShares (c :: c' :: rest) > 0
    · simp only [reconcileGroup, harr, if_pos htotal, coinbaseDerived]
      have hident := map_ident_distribute cfg actual (totalShares (c :: c' :: rest)) 0
        (c :: c' :: rest)
      rw [← hident, List.forall_mem_map]
      generalize distribute cfg actual (totalShares (c :: c' :: rest)) 0 (c :: c' :: rest) = dist
      have hself : (dist.filter fun c => c.atomic > 0).map CreditEntry.ident
            = dist.map CreditEntry.ident → dist.filter (fun c => c.atomic > 0) = dist := by
        intro heq
        have hcount := congrArg List.length heq
        rw [List.length_map, List.length_map] at hcount
        exact List.filter_eq_self.mpr (List.length_filter_eq_length_iff.mp hcount)
      refine ⟨⟨fun heq c hc => ?_, fun hpos => ?_⟩, fun heq => by rw [hself heq]⟩
      · simpa using List.filter_eq_self.mp (hself heq) c hc
      · rw [List.filter_eq_self.mpr fun c hc => by simpa using hpos c hc]
    · -- without shares the first row is kept alone
      simp only [reconcileGroup, harr, if_neg htotal, coinbaseDerived]
      have hne : ¬ [({ c with atomic := actual } : CreditEntry)].map CreditEntry.ident
          = (c :: c' :: rest).map CreditEntry.ident := by simp
      refine ⟨iff_of_false hne fun hpos => ?_, fun heq => absurd heq hne⟩
      exact absurd (hpos 0 (by simp)) (lt_irrefl 0)

end Group

/-- The wallet lists the transfers `ts`, and has scanned those in `later` too when it reports its
height. The credits for its coinbases are safe exactly when the pass has no reason to write, or for
each coinbase the last transfer listed at its height gives every credit there something, and no
less than the credit was or is due of the coinbase; or none is listed, and the height counts as
recent or has no credit. -/
theorem credits_safe_iff (cfg : Config) (ts later : List Transfer) (height : Option Nat)
    (credits : List CreditEntry) (coinbase : Transfer → Prop) :
    (∀ t ∈ ts ++ later, coinbase t →
        Safe cfg credits (reconcileCreditsOnce cfg (some ts) height credits) t)
      ↔ LedgerQuiet cfg (arrivedOf ts) (height.getD 0) credits
        ∨ ∀ t ∈ ts ++ later, coinbase t →
          let g := rowsAt credits t.height
          match arrivedOf ts t.height with
          | some actual => (g.length ≤ 1 ∨ ∀ a ∈ coinbaseDerived cfg actual g, 0 < a)
              ∧ List.Forall₂ (· ≤ ·)
                (List.zipWith min (g.map CreditEntry.atomic) (coinbaseDerived cfg t.amount g))
                (coinbaseDerived cfg actual g)
          | none => ((height.getD 0 : Nat) : Int) - t.height < cfg.reconcileSafetyAge ∨ g = [] := by
  have hsame : ∀ t : Transfer, List.Forall₂ (· ≤ ·)
      (List.zipWith min ((rowsAt credits t.height).map CreditEntry.atomic)
        (coinbaseDerived cfg t.amount (rowsAt credits t.height)))
      ((rowsAt credits t.height).map CreditEntry.atomic) := fun t =>
    forall₂_zipWith_min (by rw [length_coinbaseDerived, List.length_map])
  rcases reconcileCreditsOnce_cases cfg ts height credits with ⟨hquiet, hfile⟩ | ⟨hloud, hfile⟩
  · rw [hfile]
    exact iff_of_true (fun t _ _ => ⟨rfl, hsame t⟩) (.inl hquiet)
  · rw [hfile, or_iff_right hloud]
    refine forall_congr' fun t => forall_congr' fun _ => forall_congr' fun _ => ?_
    unfold Safe
    rw [rowsAt_kept]
    cases harr : arrivedOf ts t.height with
    | some actual =>
      obtain ⟨hwhole, hdue⟩ := kept_whole_iff cfg (height.getD 0) harr (rowsAt credits t.height)
      dsimp only
      rw [← hwhole]
      exact and_congr_right fun hident => by rw [hdue hident]
    | none =>
      dsimp only
      rw [kept_of_not_arrived _ _ _ harr]
      split
      · next hrecent => exact iff_of_true ⟨rfl, hsame t⟩ (.inl hrecent)
      · next hold =>
        rw [or_iff_right hold]
        constructor
        · rintro ⟨hident, -⟩
          exact List.map_eq_nil_iff.mp hident.symm
        · intro hnil
          rw [hnil]
          exact ⟨rfl, .nil⟩

/-- A block of 500 at height 100 is scanned, with ten more, between the two answers: its credit is
dropped. Or 3 are paid to the wallet at that height, and a phantom makes the pass write: its credit
is cut to 3. Or two credits of 250 have no shares on record: the second is dropped. -/
theorem coinbase_credit_lost :
    let credit : CreditEntry := ⟨100, sampleWallet 'a', 500, 9, 9, 0, 0⟩
    let phantom : CreditEntry := ⟨7, sampleWallet 'a', 500, 9, 9, 0, 0⟩
    let half (c : Char) : CreditEntry := ⟨100, sampleWallet c, 250, 0, 0, 0, 0⟩
    reconcileCreditsOnce {} (some []) (some 111) [credit] = []
      ∧ ¬ Safe {} [credit] (reconcileCreditsOnce {} (some []) (some 111) [credit]) ⟨100, 500⟩
      ∧ reconcileCreditsOnce {} (some [⟨100, 500⟩, ⟨100, 3⟩]) (some 111) [phantom, credit]
        = [{ credit with atomic := 3 }]
      ∧ ¬ Safe {} [phantom, credit] (reconcileCreditsOnce {} (some [⟨100, 500⟩, ⟨100, 3⟩])
        (some 111) [phantom, credit]) ⟨100, 500⟩
      ∧ reconcileCreditsOnce {} (some [⟨100, 500⟩]) (some 111) [half 'a', half 'b']
        = [{ half 'a' with atomic := 500 }]
      ∧ ¬ Safe {} [half 'a', half 'b'] (reconcileCreditsOnce {} (some [⟨100, 500⟩]) (some 111)
        [half 'a', half 'b']) ⟨100, 500⟩ := by
  unfold Safe
  decide +kernel

end Glaciem.Pool
