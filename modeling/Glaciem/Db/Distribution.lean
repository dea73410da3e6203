import Glaciem.Chain.HardFork
import Glaciem.Db.Outputs

/-!
# Glaciem — output distributions

How many outputs of an amount the chain has, block by block: `get_output_distribution` of
`Blockchain` and of `BlockchainLMDB`, and `process_distribution`, which the RPC handler applies to
the result.

* `exact_iff` — the first path is exact. The second adds the base to every entry and then returns 0
  for it, so it is exact only where there is nothing below the first height.
-/

namespace Glaciem.Db

open List

variable {H K P C : Type}

/-! ## The functions -/

def HF_VERSION_DYNAMIC_FEE : Nat := 4

def getEarliestIdealHeightForVersion (version : Nat) : Nat :=
  go (2 ^ 64 - 1) Chain.hardForks.heights.reverse
where
  go (height : Nat) : List Chain.Fork → Nat
    | [] => height
    | fork :: rest => if version ≤ fork.version then go fork.height rest else height

structure Scan where
  distribution : List Nat
  base : Nat

/-- Its loop over the heights of the outputs. -/
def scanOutputs (fromHeight toHeight : Nat) (st : Scan) : List Nat → Scan
  | [] => st
  | height :: rest =>
    let st :=
      if fromHeight ≤ height then
        { st with distribution := st.distribution.modify (height - fromHeight) (· + 1) }
      else { st with base := st.base + 1 }
    if 0 < toHeight ∧ toHeight < height then st else scanOutputs fromHeight toHeight st rest

def runningSums (sum : Nat) : List Nat → List Nat
  | [] => []
  | d :: ds => (sum + d) :: runningSums (sum + d) ds

namespace Tables

variable [LinearOrder H] [LinearOrder K] (db : Tables H K P C)

def getBlockCumulativeRctOutputs (heights : List Nat) : Except DbError (List Nat) :=
  match heights.find? fun height => db.height ≤ height with
  | some height => .error (.blockDne ("Attempt to get rct distribution from height "
      ++ toString height
      ++ " failed -- block size not in db"))
  | none => heights.mapM fun height =>
    orThrow (.dbError "Error attempting to retrieve rct distribution from the db: ")
      ((db.blockInfo.get? height).map (·.cumRct))

/-- `BlockchainLMDB::get_output_distribution`, the distribution and the base. -/
def getOutputDistribution (amount fromHeight toHeight : Nat) : Option (List Nat × Nat) :=
  if db.height ≤ fromHeight then none
  else
    let st := scanOutputs fromHeight toHeight ⟨replicate (db.height - fromHeight) 0, 0⟩
      (db.rowHeights amount)
    some (runningSums 0 (st.distribution.modifyHead (· + st.base)), 0)

end Tables

structure Distribution where
  startHeight : Nat
  distribution : List Nat
  base : Nat
  deriving DecidableEq

/-- `Blockchain::get_output_distribution`; `none` where it returns false. -/
def getOutputDistribution [LinearOrder H] [LinearOrder K] (fakechain : Bool) (db : Tables H K P C)
    (amount fromHeight toHeight : Nat) : Except DbError (Option Distribution) := do
  let startHeight :=
    if amount = 0 ∧ ¬ fakechain then getEarliestIdealHeightForVersion HF_VERSION_DYNAMIC_FEE else 0
  if 0 < toHeight ∧ toHeight < fromHeight then
    return none
  let startHeight := if startHeight < fromHeight then fromHeight else startHeight
  if db.height = 0 then
    return none
  if db.height ≤ startHeight ∨ db.height ≤ toHeight then
    return none
  if amount = 0 then
    -- the size that is reserved wraps, which is a `length_error`
    if toHeight + 1 < startHeight then
      throw (.runtimeError "vector::reserve")
    let realStartHeight := startHeight - 1
    let distribution ← db.getBlockCumulativeRctOutputs
      (range' realStartHeight (toHeight + 1 - realStartHeight))
    if 0 < startHeight then
      return some ⟨startHeight, distribution.tail, distribution.headD 0⟩
    return some ⟨startHeight, distribution, 0⟩
  else
    return (db.getOutputDistribution amount startHeight toHeight).map fun (distribution, base) =>
      ⟨startHeight, distribution, base⟩

def differences (prev : Nat) : List Nat → List Nat
  | [] => []
  | d :: ds => (d - prev) :: differences d ds

def processDistribution (cumulative : Bool) (r : Distribution) : Distribution :=
  if cumulative then r else { r with distribution := differences r.base r.distribution }

theorem runningSums_getElem? (sum : Nat) (ds : List Nat) (i : Nat) :
    (runningSums sum ds)[i]? = ds[i]?.map fun _ => sum + (ds.take (i + 1)).sum := by
  induction ds generalizing sum i with
  | nil => rfl
  | cons d ds ih =>
    cases i with
    | zero => simp [runningSums]
    | succ i =>
      rw [runningSums, getElem?_cons_succ, getElem?_cons_succ, ih, take_succ_cons, sum_cons]
      simp only [add_assoc]

theorem differences_getElem? (prev : Nat) (ds : List Nat) (i : Nat) :
    (differences prev ds)[i]? = ds[i]?.map fun d => d - ((prev :: ds)[i]?).getD 0 := by
  induction ds generalizing prev i with
  | nil => rfl
  | cons d ds ih =>
    cases i with
    | zero => rfl
    | succ i =>
      rw [differences, getElem?_cons_succ, ih]
      rfl

section Scan

variable {fromHeight toHeight : Nat}

/-- The loop stops after the first output above the range, so within the range it counts all of
them. -/
theorem scanOutputs_spec (hle : fromHeight ≤ toHeight) {heights : List Nat}
    (hsorted : heights.Pairwise (· ≤ ·)) (st : Scan) :
    (∀ i, fromHeight + i ≤ toHeight → (scanOutputs fromHeight toHeight st heights).distribution[i]?
        = st.distribution[i]?.map (· + heights.count (fromHeight + i)))
      ∧ (scanOutputs fromHeight toHeight st heights).base
        = st.base + heights.countP (· < fromHeight) := by
  induction heights generalizing st with
  | nil => exact ⟨fun i _ => by simp [scanOutputs], rfl⟩
  | cons height rest ih =>
    obtain ⟨hhead, hrest⟩ := pairwise_cons.mp hsorted
    obtain ⟨st₁, hst₁⟩ : ∃ st₁, st₁ = if fromHeight ≤ height then
        { st with distribution := st.distribution.modify (height - fromHeight) (· + 1) }
      else { st with base := st.base + 1 } := ⟨_, rfl⟩
    have hunfold : scanOutputs fromHeight toHeight st (height :: rest)
        = if 0 < toHeight ∧ toHeight < height then st₁
          else scanOutputs fromHeight toHeight st₁ rest := by rw [hst₁]; rfl
    -- what one output adds
    have hentry : ∀ i, st₁.distribution[i]?
        = st.distribution[i]?.map (· + if height = fromHeight + i then 1 else 0) := by
      intro i
      rw [hst₁]
      split
      · next hge =>
        by_cases heq : height - fromHeight = i
        · rw [if_pos (by omega)]
          simp [heq]
        · rw [if_neg (by omega)]
          simp [heq]
      · next hlt =>
        rw [if_neg (by omega)]
        simp
    have hbase : st₁.base = st.base + if height < fromHeight then 1 else 0 := by
      rw [hst₁]
      split
      · next hge => rw [if_neg (by omega)]; rfl
      · next hlt => rw [if_pos (by omega)]
    rw [hunfold, countP_cons]
    simp only [count_cons, decide_eq_true_eq, beq_iff_eq]
    split
    · next hbreak =>
      have hcount : ∀ i, fromHeight + i ≤ toHeight → rest.count (fromHeight + i) = 0 := by
        intro i hi
        refine count_eq_zero.mpr fun hmem => ?_
        have := hhead _ hmem
        omega
      have hbelow : rest.countP (· < fromHeight) = 0 := by
        refine countP_eq_zero.mpr fun h hmem => ?_
        have := hhead _ hmem
        simp only [decide_eq_true_eq]
        omega
      refine ⟨fun i hi => ?_, ?_⟩
      · rw [hentry, hcount i hi, zero_add]
      · rw [hbase, hbelow, zero_add]
    · obtain ⟨hentries, hbase'⟩ := ih hrest st₁
      refine ⟨fun i hi => ?_, ?_⟩
      · rw [hentries i hi, hentry, Option.map_map]
        congr 1
        funext d
        simp only [Function.comp_apply]
        omega
      · rw [hbase', hbase]
        omega

end Scan

/-! ## Exact distributions -/

/-- Up to `toHeight` a distribution has the outputs created, cumulative and block by block, and its
base are those below its first height. -/
structure Exact (chain : List (NewBlock H K P C)) (amount toHeight : Nat) (r : Distribution) :
    Prop where
  cumulative : ∀ i, r.startHeight + i ≤ toHeight →
    (processDistribution true r).distribution[i]?
      = some (createdBelow chain amount (r.startHeight + i + 1))
  noncumulative : ∀ i, r.startHeight + i ≤ toHeight →
    (processDistribution false r).distribution[i]?
      = some (createdAt chain amount (r.startHeight + i))
  base : r.base = createdBelow chain amount r.startHeight

section Exact

variable {chain : List (NewBlock H K P C)} {amount toHeight : Nat} {r : Distribution}

theorem Exact.of_totals (hbase : r.base = createdBelow chain amount r.startHeight)
    (htotals : ∀ i, r.startHeight + i ≤ toHeight →
      r.distribution[i]? = some (createdBelow chain amount (r.startHeight + i + 1))) :
    Exact chain amount toHeight r where
  cumulative := htotals
  noncumulative := by
    intro i hi
    change (differences r.base r.distribution)[i]? = _
    have hprev : ((r.base :: r.distribution)[i]?).getD 0
        = createdBelow chain amount (r.startHeight + i) := by
      cases i with
      | zero => exact hbase
      | succ i =>
        rw [getElem?_cons_succ, htotals i (by omega)]
        rfl
    rw [differences_getElem?, htotals i hi, Option.map_some, hprev, createdBelow_succ,
      Nat.add_sub_cancel_left]
  base := hbase

omit r in
theorem sum_take_created {start : Nat} {counts : List Nat}
    (hcounts : ∀ j, start + j ≤ toHeight → counts[j]? = some (createdAt chain amount (start + j)))
    {n : Nat} (hn : start + n ≤ toHeight + 1) :
    createdBelow chain amount start + (counts.take n).sum
      = createdBelow chain amount (start + n) := by
  induction n with
  | zero => rfl
  | succ n ih =>
    rw [take_add_one, sum_append, ← add_assoc, ih (by omega), hcounts n (by omega),
      ← add_assoc, createdBelow_succ]
    simp

end Exact

theorem mapM_eq_ok {ε α β : Type} {f : α → Except ε β} {g : α → β} {l : List α}
    (h : ∀ a ∈ l, f a = .ok (g a)) : l.mapM f = .ok (l.map g) := by
  induction l with
  | nil => exact mapM_nil
  | cons a l ih =>
    obtain ⟨ha, hl⟩ := forall_mem_cons.mp h
    rw [mapM_cons, ha, ih hl]
    rfl

section Paths

variable [LinearOrder H] [LinearOrder K] {E : Env H K P C} {chain : List (NewBlock H K P C)}
  {db : Tables H K P C}

theorem Stores.getOutputDistribution {amount fromHeight toHeight : Nat} (h : Stores E chain db)
    (hle : fromHeight ≤ toHeight) (hlt : toHeight < db.height) :
    ∃ distribution, db.getOutputDistribution amount fromHeight toHeight = some (distribution, 0)
      ∧ ∀ i, fromHeight + i ≤ toHeight →
        distribution[i]? = some (createdBelow chain amount (fromHeight + i + 1)) := by
  have hsorted : (db.rowHeights amount).Pairwise (· ≤ ·) := by
    rw [h.rowHeights]
    exact outputHeights_sorted
  obtain ⟨hentries, hbase⟩ :=
    scanOutputs_spec hle hsorted ⟨replicate (db.height - fromHeight) 0, 0⟩
  unfold Tables.getOutputDistribution
  rw [if_neg (by omega)]
  refine ⟨_, rfl, fun i hi => ?_⟩
  generalize scanOutputs fromHeight toHeight ⟨replicate (db.height - fromHeight) 0, 0⟩
    (db.rowHeights amount) = st at hentries hbase
  obtain ⟨counts, base⟩ := st
  have hcounts : ∀ j, fromHeight + j ≤ toHeight →
      counts[j]? = some (createdAt chain amount (fromHeight + j)) := by
    intro j hj
    rw [hentries j hj, getElem?_replicate, if_pos (by omega), Option.map_some, zero_add,
      h.rowHeights, count_outputHeights]
  rw [h.rowHeights, countP_outputHeights, zero_add] at hbase
  have hsum := sum_take_created hcounts (show fromHeight + (i + 1) ≤ toHeight + 1 by omega)
  rw [runningSums_getElem?]
  have hi' := hcounts i hi
  cases counts with
  | nil => cases hi'
  | cons count rest =>
    rw [take_succ_cons, sum_cons] at hsum
    rw [modifyHead_cons, take_succ_cons, sum_cons, hbase, add_assoc fromHeight i 1, ← hsum]
    cases i with
    | zero => simp; omega
    | succ i =>
      rw [getElem?_cons_succ] at hi' ⊢
      rw [hi', Option.map_some]
      congr 1
      omega

theorem Stores.getBlockCumulativeRctOutputs {start n : Nat} (h : Stores E chain db)
    (hchain : ScheduledChain chain) (hlt : start + n ≤ db.height) :
    db.getBlockCumulativeRctOutputs (range' start n)
      = .ok ((range' start n).map fun height => createdBelow chain 0 (height + 1)) := by
  have hbounds : ∀ height ∈ range' start n, height < db.height := by
    intro height hmem
    have := mem_range'_1.mp hmem
    omega
  have hfind : (range' start n).find? (fun height => db.height ≤ height) = none := by
    refine find?_eq_none.mpr fun height hmem => ?_
    have := hbounds height hmem
    simpa using this
  unfold Tables.getBlockCumulativeRctOutputs
  rw [hfind]
  refine mapM_eq_ok fun height hmem => ?_
  obtain ⟨info, hget, hcum⟩ := h.blockInfo hchain (h.height ▸ hbounds height hmem)
  rw [hget, ← hcum]
  rfl

def rctTotals (chain : List (NewBlock H K P C)) (start toHeight : Nat) : List Nat :=
  (range' start (toHeight + 1 - start)).map fun height => createdBelow chain 0 (height + 1)

omit [LinearOrder H] [LinearOrder K] in
theorem rctTotals_getElem? {start toHeight i : Nat} (hi : start + i ≤ toHeight) :
    (rctTotals chain start toHeight)[i]? = some (createdBelow chain 0 (start + i + 1)) := by
  rw [rctTotals, getElem?_map, getElem?_range' (by omega), one_mul]
  rfl

def rctStart (fakechain : Bool) : Nat :=
  if fakechain then 0 else getEarliestIdealHeightForVersion HF_VERSION_DYNAMIC_FEE

theorem Stores.rct_eq {fromHeight toHeight : Nat} (h : Stores E chain db)
    (hchain : ScheduledChain chain)
    (fakechain : Bool) (hrange : ¬ (0 < toHeight ∧ toHeight < fromHeight)) :
    Db.getOutputDistribution fakechain db 0 fromHeight toHeight
      = if db.height ≤ max (rctStart fakechain) fromHeight ∨ db.height ≤ toHeight then .ok none
        else if toHeight + 1 < max (rctStart fakechain) fromHeight then
          .error (.runtimeError "vector::reserve")
        else .ok (some ⟨max (rctStart fakechain) fromHeight,
          rctTotals chain (max (rctStart fakechain) fromHeight) toHeight,
          createdBelow chain 0 (max (rctStart fakechain) fromHeight)⟩) := by
  have hearliest : (if 0 = 0 ∧ ¬ fakechain = true then
      getEarliestIdealHeightForVersion HF_VERSION_DYNAMIC_FEE else 0) = rctStart fakechain := by
    cases fakechain <;> rfl
  have hmax : (if rctStart fakechain < fromHeight then fromHeight else rctStart fakechain)
      = max (rctStart fakechain) fromHeight := by
    split <;> omega
  unfold Db.getOutputDistribution
  dsimp only
  rw [hearliest, hmax, if_neg hrange]
  generalize max (rctStart fakechain) fromHeight = start
  by_cases hempty : db.height = 0
  · rw [if_pos hempty, if_pos (by omega)]
    rfl
  rw [if_neg hempty]
  split
  · rfl
  next hheights =>
  rw [if_pos rfl]
  split
  · rfl
  next hreserve =>
  refine bind_eq_ok.mpr ⟨_, h.getBlockCumulativeRctOutputs hchain (by omega), ?_⟩
  split
  · next hpos =>
    have hrange : range' (start - 1) (toHeight + 1 - (start - 1))
        = (start - 1) :: range' start (toHeight + 1 - start) := by
      rw [show toHeight + 1 - (start - 1) = toHeight + 1 - start + 1 by omega, range'_succ,
        Nat.sub_add_cancel hpos]
    rw [hrange, map_cons, tail_cons, headD_cons, Nat.sub_add_cancel hpos]
    rfl
  · next hzero =>
    obtain rfl : start = 0 := by omega
    rfl

theorem Stores.exact_rct {fakechain : Bool} {fromHeight toHeight : Nat} {r : Distribution}
    (h : Stores E chain db) (hchain : ScheduledChain chain) (hle : fromHeight ≤ toHeight)
    (hr : Db.getOutputDistribution fakechain db 0 fromHeight toHeight = .ok (some r)) :
    Exact chain 0 toHeight r := by
  rw [h.rct_eq hchain fakechain (by omega)] at hr
  split at hr
  · cases hr
  split at hr
  · cases hr
  cases hr
  exact Exact.of_totals rfl fun i hi => rctTotals_getElem? hi

theorem Stores.exact_amount_iff {fakechain : Bool} {amount fromHeight toHeight : Nat}
    {r : Distribution}
    (h : Stores E chain db) (hamount : amount ≠ 0) (hle : fromHeight ≤ toHeight)
    (hr : Db.getOutputDistribution fakechain db amount fromHeight toHeight = .ok (some r)) :
    Exact chain amount toHeight r ↔ createdBelow chain amount fromHeight = 0 := by
  unfold Db.getOutputDistribution at hr
  dsimp only at hr
  have hearliest : (if amount = 0 ∧ ¬ fakechain = true then
      getEarliestIdealHeightForVersion HF_VERSION_DYNAMIC_FEE else 0) = 0 :=
        if_neg fun h => hamount h.1
  have hstart : (if 0 < fromHeight then fromHeight else 0) = fromHeight := by split <;> omega
  rw [hearliest, hstart] at hr
  split at hr
  · cases hr
  split at hr
  · cases hr
  split at hr
  · cases hr
  next hheights =>
  obtain ⟨distribution, hpath, htotals⟩ : ∃ distribution,
      db.getOutputDistribution amount fromHeight toHeight = some (distribution, 0) ∧ _ :=
    h.getOutputDistribution hle (by omega)
  rw [hpath] at hr
  cases hr
  refine ⟨fun hexact => hexact.base.symm, fun hbelow => ?_⟩
  exact Exact.of_totals hbelow.symm htotals

end Paths

/-! ## Runs -/

def chainOf (ops : List (Op H K P C)) : List (NewBlock H K P C) :=
  ops.foldl (fun chain op => op.onChain chain) []

def Op.Scheduled (height : Nat) : Op H K P C → Prop
  | .add b => b.Scheduled height
  | _ => True

theorem Op.Scheduled.regular {op : Op H K P C} {height : Nat} (h : op.Scheduled height) :
    op.Regular := by
  cases op with
  | add b => exact NewBlock.Scheduled.regular h
  | pop | pruneBlockchain pruningSeed random | updatePruning => trivial

theorem ScheduledChain.onChain {op : Op H K P C} {chain : List (NewBlock H K P C)}
    (h : ScheduledChain chain) (hop : op.Scheduled chain.length) :
    ScheduledChain (op.onChain chain) := by
  cases op with
  | add b => exact ⟨hop, h⟩
  | pop =>
    cases chain with
    | nil => trivial
    | cons b chain => exact h.2
  | pruneBlockchain pruningSeed random | updatePruning => exact h

section Runs

variable [LinearOrder H] [LinearOrder K] {E : Env H K P C}

theorem Stores.of_scheduled {ops : List (Op H K P C)} {chain : List (NewBlock H K P C)}
    {db db' : Tables H K P C} (h : Stores E chain db) (hchain : ScheduledChain chain)
    (hmeets : (database E).Meets (fun db op => op.Scheduled db.height) db ops)
    (hrun : (database E).exec db ops = some db') :
    Stores E (ops.foldl Op.onChain chain) db' ∧ ScheduledChain (ops.foldl Op.onChain chain) :=
  (database E).related_of_meets (R := fun chain db => Stores E chain db ∧ ScheduledChain chain)
    (fun h hop hstep => ⟨h.1.step_chain hop.regular hstep, h.2.onChain (h.1.height ▸ hop)⟩)
    ⟨h, hchain⟩ hmeets hrun

/-- After every run, a distribution of RingCT outputs is exact, and one of another amount if and
only if none lies below the range. -/
theorem distribution_exact_iff {ops : List (Op H K P C)} {db : Tables H K P C} {fakechain : Bool}
    {amount fromHeight toHeight : Nat} {r : Distribution}
    (hmeets : (database E).Meets (fun db op => op.Scheduled db.height) {} ops)
    (hrun : (database E).exec {} ops = some db) (hle : fromHeight ≤ toHeight)
    (hr : getOutputDistribution fakechain db amount fromHeight toHeight = .ok (some r)) :
    Exact (chainOf ops) amount toHeight r ↔
      amount = 0 ∨ createdBelow (chainOf ops) amount fromHeight = 0 := by
  obtain ⟨hstores, hchain⟩ := Stores.empty.of_scheduled trivial hmeets hrun
  by_cases hamount : amount = 0
  · subst hamount
    exact iff_of_true (hstores.exact_rct hchain hle hr) (.inl rfl)
  · rw [or_iff_right hamount]
    exact hstores.exact_amount_iff hamount hle hr

end Runs

section Sample

def sampleFirstBlock (height amount : Nat) : NewBlock Nat Nat Nat Nat where
  block := ⟨1, 1, height, height - 1, height,
    ⟨⟨1, height, [.gen], [⟨amount, some height⟩], []⟩, []⟩, []⟩
  blockWeight := 80
  longTermBlockWeight := 80
  cumulativeDifficulty := height + 1
  coinsGenerated := amount
  txs := []

def sampleForkBlock (height : Nat) : NewBlock Nat Nat Nat Nat where
  block := ⟨18, 18, height, height - 1, height, sampleCoinbase height [.gen], []⟩
  blockWeight := 80
  longTermBlockWeight := 80
  cumulativeDifficulty := height + 1
  coinsGenerated := height
  txs := []

def sampleChainOps : List (Op Nat Nat Nat Nat) :=
  [.add (sampleFirstBlock 0 5), .add (sampleFirstBlock 1 7), .add (sampleForkBlock 2), .pop,
    .add (sampleForkBlock 2)]

instance (height : Nat) (b : NewBlock Nat Nat Nat Nat) : Decidable (b.Scheduled height) :=
  inferInstanceAs (Decidable (_ ∧ _))

instance (height : Nat) : ∀ op : Op Nat Nat Nat Nat, Decidable (op.Scheduled height)
  | .add b => inferInstanceAs (Decidable (b.Scheduled height))
  | .pop => inferInstanceAs (Decidable True)
  | .pruneBlockchain _ _ => inferInstanceAs (Decidable True)
  | .updatePruning => inferInstanceAs (Decidable True)

theorem distribution_exact_iff_sample : ∃ db r,
    (database sampleEnv).exec {} sampleChainOps = some db
    ∧ getOutputDistribution false db 0 0 2 = .ok (some r) ∧ r = ⟨2, [1], 0⟩
    ∧ Exact (chainOf sampleChainOps) 0 2 r := by
  have hexists : ∃ db r, (database sampleEnv).execChecked
      (fun db op => decide (op.Scheduled db.height)) {} sampleChainOps = some db
      ∧ getOutputDistribution false db 0 0 2 = .ok (some r) ∧ r = ⟨2, [1], 0⟩ :=
        ⟨_, _, rfl, rfl, rfl⟩
  obtain ⟨db, r, hchecked, hr, heq⟩ := hexists
  obtain ⟨hrun, hmeets⟩ :=
    (database sampleEnv).exec_of_checked (fun _ _ h => of_decide_eq_true h) hchecked
  exact ⟨db, r, hrun, hr, heq, (distribution_exact_iff hmeets hrun (by decide) hr).mpr (.inl rfl)⟩

/-- The output of the amount 5 is in block 0. A request from height 1 on has it in the entry of that
height, and no base. -/
theorem base_is_lost : ∃ db, (database sampleEnv).exec {} sampleChainOps = some db
    ∧ getOutputDistribution false db 5 1 1 = .ok (some ⟨1, [1, 1], 0⟩)
    ∧ (processDistribution false ⟨1, [1, 1], 0⟩).distribution[0]? = some 1
    ∧ createdAt (chainOf sampleChainOps) 5 1 = 0 ∧ createdBelow (chainOf sampleChainOps) 5 1 = 1 :=
  ⟨_, rfl, rfl, rfl, rfl, rfl⟩

end Sample

end Glaciem.Db
