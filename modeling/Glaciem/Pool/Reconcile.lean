import Glaciem.Pool.Settle

/-!
# Glaciem — reconciling the credits file with the wallet

`reconcile_credits_once` of `pool/server/pool-server.py`, as a function of the ledger it loaded
and the wallet's answers. Rows are bucketed by height in the order heights first occur; each
bucket is kept, rescaled to the coinbase that arrived, or dropped.
-/

namespace Glaciem.Pool

open List Dict

/-! ## Definitions -/

structure Transfer where
  height : Nat
  amount : Nat
  deriving DecidableEq

/-- `arrived`, the dictionary from height to amount: the last transfer at a height counts. -/
def arrivedOf (transfers : List Transfer) (h : Nat) : Option Nat :=
  (transfers.reverse.find? (fun t => t.height = h)).map Transfer.amount

def addToBucket (buckets : Dict Nat (List CreditEntry)) (c : CreditEntry) :
    Dict Nat (List CreditEntry) :=
  buckets.set c.height ((buckets.get? c.height).getD [] ++ [c])

def byHeight (credits : List CreditEntry) : Dict Nat (List CreditEntry) :=
  credits.foldl addToBucket Dict.empty

/-- The loop that distributes `actual` over a group by share ratio. The last row gets what the
others, `assigned`, have left. -/
def distribute (cfg : Config) (actual total : Nat) : Nat → List CreditEntry → List CreditEntry
  | _, [] => []
  | assigned, [last] => [{ last with atomic := actual - assigned }]
  | assigned, c :: rest =>
    let slice := cfg.slice actual c.shares total
    { c with atomic := slice } :: distribute cfg actual total (assigned + slice) rest

structure GroupOutcome where
  kept : List CreditEntry
  dropped : List CreditEntry
  rescaled : Nat
  deriving DecidableEq

def totalShares (group : List CreditEntry) : Nat := (group.map CreditEntry.shares).sum

variable (cfg : Config)

variable (arrived : Nat → Option Nat)

def reconcileGroup (walletH h : Nat)
    (group : List CreditEntry) : GroupOutcome :=
  match arrived h with
  | some actual =>
    match group with
    | [] => ⟨[], [], 0⟩
    | [c] => ⟨[{ c with atomic := actual }], [], 0⟩
    | c :: rest =>
      if totalShares (c :: rest) > 0 then
        let shared := distribute cfg actual (totalShares (c :: rest)) 0 (c :: rest)
        ⟨shared.filter (fun c => c.atomic > 0), shared.filter (fun c => ¬ c.atomic > 0), 1⟩
      else ⟨[{ c with atomic := actual }], rest, 1⟩
  | none =>
    if (walletH : Int) - h < cfg.reconcileSafetyAge then ⟨group, [], 0⟩
    else ⟨[], group, 0⟩

def reconcileCredits (walletH : Nat)
    (credits : List CreditEntry) : GroupOutcome :=
  let outcomes := (byHeight credits).items.map
    (fun (h, g) => reconcileGroup cfg arrived walletH h g)
  ⟨outcomes.flatMap GroupOutcome.kept, outcomes.flatMap GroupOutcome.dropped,
    (outcomes.map GroupOutcome.rescaled).sum⟩

def GroupOutcome.writes (o : GroupOutcome) : Bool := o.dropped ≠ [] ∨ o.rescaled > 0

def reconcileFile (walletH : Nat)
    (credits : List CreditEntry) : List CreditEntry :=
  let o := reconcileCredits cfg arrived walletH credits
  if o.writes then o.kept else credits

/-- A failed `get_transfers` ends the pass, a failed `get_height` reads as height 0. -/
def reconcileCreditsOnce (transfers : Option (List Transfer))
    (height : Option Nat) (credits : List CreditEntry) : List CreditEntry :=
  match transfers with
  | none => credits
  | some ts => reconcileFile cfg (arrivedOf ts) (height.getD 0) credits

/-- The loop over the public block list: one row a height, with the heights seen so far. -/
def reconcileBlocks (cfg : Config) (arrived : Nat → Option Nat) (walletH : Nat) :
    List Nat → List BlockRow → List BlockRow
  | _, [] => []
  | seen, b :: rest =>
    let tooRecent : Bool := (walletH : Int) - b.height < cfg.reconcileSafetyAge
    match arrived b.height with
    | some actual =>
      if b.height ∉ seen ∨ tooRecent then
        { b with rewardAtomic := actual }
          :: reconcileBlocks cfg arrived walletH (b.height :: seen) rest
      else reconcileBlocks cfg arrived walletH seen rest
    | none =>
      if tooRecent then b :: reconcileBlocks cfg arrived walletH (b.height :: seen) rest
      else reconcileBlocks cfg arrived walletH seen rest

def rowsAt (credits : List CreditEntry) (h : Nat) : List CreditEntry :=
  credits.filter (fun c => c.height = h)

/-! ## Bucketing -/

theorem rowsAt_append (a b : List CreditEntry) (h : Nat) :
    rowsAt (a ++ b) h = rowsAt a h ++ rowsAt b h := by
  simp [rowsAt]

theorem byHeight_append (a b : List CreditEntry) :
    byHeight (a ++ b) = b.foldl addToBucket (byHeight a) :=
  foldl_append

/-- The rows at a height, in ledger order. Induction from the end of the ledger. -/
theorem get?_byHeight (credits : List CreditEntry) (h : Nat) :
    (byHeight credits).get? h
      = if rowsAt credits h = [] then none else some (rowsAt credits h) := by
  induction credits using reverseRecOn with
  | nil => rfl
  | append_singleton rows c ih =>
    rw [byHeight_append, foldl_cons, foldl_nil, addToBucket, rowsAt_append]
    by_cases hc : c.height = h
    · have hsingle : rowsAt [c] h = [c] := by simp [rowsAt, hc]
      have hbucket : ((byHeight rows).get? h).getD [] = rowsAt rows h := by
        rw [ih]
        split
        · next hnil => rw [hnil, Option.getD_none]
        · rfl
      rw [hc, get?_set_self, hbucket, hsingle, if_neg (by simp)]
    · have hsingle : rowsAt [c] h = [] := by simp [rowsAt, hc]
      rw [get?_set_ne _ _ (fun e => hc e.symm), ih, hsingle, append_nil]

variable {credits : List CreditEntry} {h : Nat} {c : CreditEntry}

theorem mem_byHeight_items {g : List CreditEntry} :
    (h, g) ∈ (byHeight credits).items ↔ g = rowsAt credits h ∧ g ≠ [] := by
  rw [← get?_eq_some_iff, get?_byHeight]
  split
  · next hnil =>
    refine ⟨fun h => absurd h (by simp), ?_⟩
    rintro ⟨rfl, hne⟩
    exact absurd hnil hne
  · next hne =>
    refine ⟨fun h => ?_, fun h => by rw [h.1]⟩
    rw [Option.some.injEq] at h
    exact ⟨h.symm, h ▸ hne⟩

theorem mem_rowsAt : c ∈ rowsAt credits h ↔ c ∈ credits ∧ c.height = h := by
  simp [rowsAt]

theorem foldl_addToBucket_group (g : List CreditEntry) (hg : ∀ c ∈ g, c.height = h)
    (d : Dict Nat (List CreditEntry)) (hd : h ∉ d.items.map Prod.fst) :
    (g.foldl addToBucket d).items = if g = [] then d.items else d.items ++ [(h, g)] := by
  induction g using reverseRecOn with
  | nil => rfl
  | append_singleton rows c ih =>
    have hrows := ih (fun c' hc' => hg c' (mem_append_left _ hc'))
    have hc : c.height = h := hg c (by simp)
    rw [foldl_append, foldl_cons, foldl_nil, if_neg (by simp)]
    generalize rows.foldl addToBucket d = acc at hrows
    cases rows with
    | nil =>
      rw [if_pos rfl] at hrows
      have hnone : acc.get? h = none := by
        cases hget : acc.get? h with
        | none => rfl
        | some v =>
          rw [get?_eq_some_iff, hrows] at hget
          exact absurd (mem_map.mpr ⟨_, hget, rfl⟩) hd
      simp only [addToBucket, Dict.set, hc, hnone, hrows, Option.getD_none, nil_append]
      exact setIn_of_not_mem _ hd
    | cons r rs =>
      rw [if_neg (by simp)] at hrows
      have hsome : acc.get? h = some (r :: rs) := by
        rw [get?_eq_some_iff, hrows]
        simp
      simp only [addToBucket, Dict.set, hc, hsome, hrows, Option.getD_some]
      exact setIn_append_newest _ _ hd

/-- Bucketing a ledger that is already grouped by distinct heights gives the non-empty groups
back. Induction from the last group. -/
theorem byHeight_flatMap (groups : List (Nat × List CreditEntry))
    (hnodup : (groups.map Prod.fst).Nodup) (hheight : ∀ p ∈ groups, ∀ c ∈ p.2, c.height = p.1) :
    (byHeight (groups.flatMap Prod.snd)).items = groups.filter (fun p => p.2 ≠ []) := by
  induction groups using reverseRecOn with
  | nil => rfl
  | append_singleton gs p ih =>
    obtain ⟨h, g⟩ := p
    have hnodup' := hnodup
    rw [map_append, nodup_append] at hnodup'
    have hgs := ih hnodup'.1 (fun p hp => hheight p (mem_append_left _ hp))
    have hnew : h ∉ gs.map Prod.fst := fun hmem => hnodup'.2.2 h hmem h (by simp) rfl
    rw [flatMap_append, byHeight_append]
    have hd : h ∉ (byHeight (gs.flatMap Prod.snd)).items.map Prod.fst := by
      rw [hgs]
      intro hmem
      obtain ⟨q, hq, hqh⟩ := mem_map.mp hmem
      exact hnew (mem_map.mpr ⟨q, mem_of_mem_filter hq, hqh⟩)
    have hg : ∀ c ∈ g, c.height = h := hheight (h, g) (by simp)
    simp only [flatMap_cons, flatMap_nil, append_nil]
    rw [foldl_addToBucket_group g hg _ hd, hgs, filter_append]
    by_cases hnil : g = []
    · simp [hnil]
    · simp [hnil]

/-! ## Rows keep their identity

A pass changes amounts only. -/

theorem ident_eq_fields {c' : CreditEntry} (h : c.ident = c'.ident) :
    c.height = c'.height ∧ c.wallet = c'.wallet ∧ c.settlement = c'.settlement := by
  simp only [CreditEntry.ident, CreditEntry.mk.injEq] at h
  exact ⟨h.1, h.2.1, h.2.2.2.2.2.2⟩

theorem map_ident_distribute (actual total assigned : Nat) (g : List CreditEntry) :
    (distribute cfg actual total assigned g).map CreditEntry.ident = g.map CreditEntry.ident := by
  fun_induction distribute cfg actual total assigned g with
  | case1 => rfl
  | case2 => rfl
  | case3 assigned c rest hrest slice ih =>
    rw [map_cons, ih, map_cons]
    rfl

theorem map_ident_reconcileGroup (walletH h : Nat)
    (g : List CreditEntry) :
    (((reconcileGroup cfg arrived walletH h g).kept
        ++ (reconcileGroup cfg arrived walletH h g).dropped).map CreditEntry.ident).Perm
      (g.map CreditEntry.ident) := by
  unfold reconcileGroup
  cases arrived h with
  | none =>
    dsimp only
    split
    · simp
    · simp
  | some actual =>
    match g with
    | [] => exact Perm.refl _
    | [c] => exact Perm.refl _
    | c :: c' :: rest =>
      dsimp only
      split
      · have hpart := filter_append_perm (fun c : CreditEntry => decide (c.atomic > 0))
          (distribute cfg actual (totalShares (c :: c' :: rest)) 0 (c :: c' :: rest))
        have hident := hpart.map CreditEntry.ident
        rw [map_ident_distribute] at hident
        simpa only [decide_not] using hident
      · exact Perm.refl _

theorem exists_mem_of_mem_kept {cfg : Config} {arrived : Nat → Option Nat} {walletH : Nat}
    {g : List CreditEntry} (hc : c ∈ (reconcileGroup cfg arrived walletH h g).kept) :
    ∃ c₀ ∈ g, c₀.ident = c.ident := by
  have hmem : c.ident ∈ g.map CreditEntry.ident :=
    (map_ident_reconcileGroup cfg arrived walletH h g).mem_iff.mp
      (mem_map_of_mem (mem_append_left _ hc))
  exact mem_map.mp hmem

theorem exists_mem_reconcileCredits {cfg : Config} {arrived : Nat → Option Nat} {walletH : Nat}
    (hc : c ∈ (reconcileCredits cfg arrived walletH credits).kept) :
    ∃ c₀ ∈ credits, c₀.ident = c.ident := by
  simp only [reconcileCredits, flatMap_map, mem_flatMap] at hc
  obtain ⟨⟨h, g⟩, hitem, hc⟩ := hc
  obtain ⟨c₀, hc₀, hident⟩ := exists_mem_of_mem_kept hc
  rw [(mem_byHeight_items.mp hitem).1, mem_rowsAt] at hc₀
  exact ⟨c₀, hc₀.1, hident⟩

theorem ident_mem_reconcileCredits (walletH : Nat)
    (hc : c ∈ credits) :
    (∃ c' ∈ (reconcileCredits cfg arrived walletH credits).kept, c'.ident = c.ident)
      ∨ ∃ c' ∈ (reconcileCredits cfg arrived walletH credits).dropped, c'.ident = c.ident := by
  have hrow : c ∈ rowsAt credits c.height := mem_rowsAt.mpr ⟨hc, rfl⟩
  have hitem : (c.height, rowsAt credits c.height) ∈ (byHeight credits).items :=
    mem_byHeight_items.mpr ⟨rfl, ne_nil_of_mem hrow⟩
  have hout : c.ident ∈ ((reconcileGroup cfg arrived walletH c.height
      (rowsAt credits c.height)).kept ++ (reconcileGroup cfg arrived walletH c.height
      (rowsAt credits c.height)).dropped).map CreditEntry.ident :=
    (map_ident_reconcileGroup cfg arrived walletH c.height _).mem_iff.mpr
      (mem_map_of_mem hrow)
  obtain ⟨c', hc', hident⟩ := mem_map.mp hout
  simp only [reconcileCredits, flatMap_map, mem_flatMap]
  rcases mem_append.mp hc' with hkept | hdropped
  · exact Or.inl ⟨c', ⟨_, hitem, hkept⟩, hident⟩
  · exact Or.inr ⟨c', ⟨_, hitem, hdropped⟩, hident⟩

end Glaciem.Pool
