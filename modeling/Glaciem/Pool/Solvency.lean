import Glaciem.Pool.Payout

/-!
# Glaciem — what a cold sweep leaves in the wallet

`cold_sweep_once` sends everything above a buffer to cold storage, after setting aside the
pending balances that are over the payout threshold. The pool owes more than those: balances
below the threshold, the part of a maturing credit that its own coinbase does not bring (the
growth-fund bonus), and what is left of the growth fund.
-/

namespace Glaciem.Pool.Payout

/-! ## What the pool owes -/

/-- The credits behind `compute_maturing_balances`: those whose block has not matured yet. Before
the first scan of the wallet there are none. -/
def maturingCredits (arrived : Option (List Nat)) (credits : List CreditEntry) : List CreditEntry :=
  match arrived with
  | none => []
  | some heights => credits.filter (fun c => c.wallet ≠ "" ∧ c.height ∉ heights)

def computeMaturingBalances (arrived : Option (List Nat)) (credits : List CreditEntry) :
    List Dest :=
  let rows := maturingCredits arrived credits
  (rows.map CreditEntry.wallet).dedup.map fun w => ⟨w, creditsTo rows w⟩

/-- The part of the maturing credits that the coinbase of their own height, still locked in the
wallet, does not bring. -/
def beyondCoinbases (locked : Nat → Int) (maturing : List CreditEntry) : Int :=
  ((maturing.map CreditEntry.height).dedup.map fun h =>
    max 0 (sumFor CreditEntry.height (fun c => (c.atomic : Int)) maturing h - locked h)).sum

def remainingFund : Option Sponsorship → Int
  | none => 0
  | some fund => max 0 fund.remainingAtomic

/-- Everything the unlocked balance has to cover: the pending balances, the maturing credits
beyond their own coinbases, and the rest of the growth fund. -/
def liabilities (f : Files) (fund : Option Sponsorship) (locked : Nat → Int) : Int :=
  totalOwed (computePendingBalances f.arrived f.credits f.payouts f.adjustments)
    + beyondCoinbases locked (maturingCredits f.arrived f.credits) + remainingFund fund

/-! ## One call of the sweep -/

def finishSweep (cfg : Config) (envs : Nat → Env) : Nat → Nat → State → State
  | 0, _, s => s
  | fuel + 1, n, s =>
    match s.sweep with
    | .idle => s
    | _ => finishSweep cfg envs fuel (n + 1) (sweepAdvance cfg (envs n) s)

variable (cfg : Config)

variable (envs : Nat → Env)

/-- `cold_sweep_once` from its start to its end, nothing else moving. The `n`-th section learns
`envs n` from outside; a call has at most nine. -/
def coldSweepOnce (s : State) : State := finishSweep cfg envs 8 1 (sweepAdvance cfg (envs 0) s)

/-- The balances the sweep reads: a file that does not load reads as empty. -/
def pendingRead (f : Files) : List Dest :=
  computePendingBalances f.arrived (loadJsonFile (envs 1).loadOk f.credits [])
    (loadJsonFile (envs 2).loadOk f.payouts []) (loadJsonFile (envs 3).loadOk f.adjustments [])

def setAside (f : Files) : Int := totalOwed (eligible cfg (pendingRead envs f))

variable (unlocked : Int)

/-- There is a valid cold address, the wallet tells its balance, the balance exceeds what is set
aside by more than the buffer, and the transfer goes through. -/
def Sweeps (f : Files) : Prop :=
  cfg.coldAddress ≠ "" ∧ isValidWallet cfg.coldAddress = true ∧ (envs 0).balance = some unlocked
    ∧ cfg.coldHotBufferAtomic < max 0 (unlocked - setAside cfg envs f)
    ∧ (envs 5).transfer ≠ .refused

instance (cfg : Config) (envs : Nat → Env) (unlocked : Int) (f : Files) :
    Decidable (Sweeps cfg envs unlocked f) :=
  inferInstanceAs (Decidable (_ ∧ _ ∧ _ ∧ _ ∧ _))

/-- What the network takes for the transfer. The pool learns it only from an answer; `unseen` is
the fee of a transfer whose answer was lost. -/
def networkFee (unseen : Nat) : TransferReply → Nat
  | .ok fee => fee
  | .refused => 0
  | .lost => unseen

/-- The unlocked balance after the call: less what the call sent, and less the network fee if it
sent anything. -/
def balanceLeft (unseen : Nat) (s : State) : Int :=
  match (coldSweepOnce cfg envs s).swept.drop s.swept.length with
  | [] => unlocked
  | sent => unlocked - totalOwed sent - networkFee unseen (envs 5).transfer

/-! ## What the call sends -/

theorem finishSweep_reading (s : State) :
    finishSweep cfg envs 8 1 { s with sweep := .reading unlocked .start }
      = finishSweep cfg envs 4 5
          { s with sweep :=
              if h : 0 < sweepAmount cfg unlocked (pendingRead envs s.toFiles)
              then .sending ⟨_, h⟩ else .idle } := rfl

theorem finishSweep_sending_swept
    (amount : {a : Int // 0 < a}) (s : State) :
    (finishSweep cfg envs 4 5 { s with sweep := .sending amount }).swept
      = if (envs 5).transfer = .refused then s.swept
        else s.swept ++ [⟨cfg.coldAddress, amount⟩] := by
  cases h : (envs 5).transfer with
  | refused | lost => simp [finishSweep, sweepAdvance, h]
  | ok fee => cases hsave : (envs 7).saveOk <;> simp [finishSweep, sweepAdvance, h, hsave]

theorem coldSweepOnce_swept {unlocked : Int} {s : State}
    (hidle : s.sweep = .idle) (hbalance : ∀ u, (envs 0).balance = some u → u = unlocked) :
    (coldSweepOnce cfg envs s).swept
      = if Sweeps cfg envs unlocked s.toFiles
        then s.swept ++ [⟨cfg.coldAddress, sweepAmount cfg unlocked (pendingRead envs s.toFiles)⟩]
        else s.swept := by
  have hstay : finishSweep cfg envs 8 1 s = s := by simp [finishSweep, hidle]
  unfold coldSweepOnce
  by_cases haddr : cfg.coldAddress = "" ∨ isValidWallet cfg.coldAddress = false
  · have hno : ¬ Sweeps cfg envs unlocked s.toFiles := by
      rintro ⟨hne, hvalid, -⟩
      rcases haddr with h | h
      · exact hne h
      · rw [h] at hvalid
        cases hvalid
    rw [if_neg hno, sweepAdvance, hidle]
    simp only [if_pos haddr, hstay]
  · cases hb : (envs 0).balance with
    | none =>
      have hno : ¬ Sweeps cfg envs unlocked s.toFiles := by
        rintro ⟨-, -, hsome, -⟩
        rw [hb] at hsome
        cases hsome
      rw [if_neg hno, sweepAdvance, hidle]
      simp only [if_neg haddr, hb, hstay]
    | some u =>
      obtain rfl := hbalance u hb
      rw [sweepAdvance, hidle]
      simp only [if_neg haddr, hb]
      rw [finishSweep_reading]
      have hiff : Sweeps cfg envs u s.toFiles
          ↔ 0 < sweepAmount cfg u (pendingRead envs s.toFiles) ∧ (envs 5).transfer ≠ .refused := by
        rw [not_or, Bool.not_eq_false] at haddr
        refine ⟨fun h => ⟨Int.sub_pos.mpr h.2.2.2.1, h.2.2.2.2⟩, fun h => ?_⟩
        exact ⟨haddr.1, haddr.2, hb, Int.sub_pos.mp h.1, h.2⟩
      by_cases hpos : 0 < sweepAmount cfg u (pendingRead envs s.toFiles)
      · rw [dif_pos hpos, finishSweep_sending_swept]
        simp only [hiff, hpos, true_and, ne_eq, ite_not]
      · rw [dif_neg hpos, if_neg (fun h => hpos (hiff.mp h).1)]
        rfl

theorem balanceLeft_eq {unlocked : Int} (unseen : Nat)
    {s : State} (hidle : s.sweep = .idle)
    (hbalance : ∀ u, (envs 0).balance = some u → u = unlocked) :
    balanceLeft cfg envs unlocked unseen s
      = if Sweeps cfg envs unlocked s.toFiles
        then min unlocked (setAside cfg envs s.toFiles) + cfg.coldHotBufferAtomic
          - networkFee unseen (envs 5).transfer
        else unlocked := by
  unfold balanceLeft
  rw [coldSweepOnce_swept cfg envs hidle hbalance]
  split_ifs with hsweeps
  · rw [List.drop_left]
    simp only [totalOwed, List.map_cons, List.map_nil, List.sum_cons, List.sum_nil, sweepAmount,
      setAside]
    omega
  · rw [List.drop_length]

/-! ## Solvency -/

/-- The pending balances beyond what the sweep sets aside. -/
def pendingNotSetAside (f : Files) : Int :=
  totalOwed (computePendingBalances f.arrived f.credits f.payouts f.adjustments)
    - min unlocked (setAside cfg envs f)

/-- A wallet that covers all liabilities still does after the sweep exactly when nothing was sent,
or the buffer pays for the pending balances that were not set aside, the bonus part of the maturing
credits, the growth fund and the fee. -/
theorem sweep_solvent_iff (cfg : Config) (envs : Nat → Env) (fund : Option Sponsorship)
    (locked : Nat → Int) (unlocked : Int) (unseen : Nat) (s : State) (hidle : s.sweep = .idle)
    (hbalance : ∀ u, (envs 0).balance = some u → u = unlocked)
    (hcovered : liabilities s.toFiles fund locked ≤ unlocked) :
    liabilities s.toFiles fund locked ≤ balanceLeft cfg envs unlocked unseen s
      ↔ (Sweeps cfg envs unlocked s.toFiles →
          pendingNotSetAside cfg envs unlocked s.toFiles
            + beyondCoinbases locked (maturingCredits s.arrived s.credits) + remainingFund fund
            + networkFee unseen (envs 5).transfer ≤ cfg.coldHotBufferAtomic) := by
  rw [balanceLeft_eq cfg envs unseen hidle hbalance]
  by_cases hsweeps : Sweeps cfg envs unlocked s.toFiles
  · rw [if_pos hsweeps, imp_iff_right hsweeps, liabilities, pendingNotSetAside]
    omega
  · rw [if_neg hsweeps]
    exact iff_of_true hcovered fun h => absurd h hsweeps

def smoothCall : Nat → Env := fun _ => { balance := some unlocked, transfer := .ok (10 ^ 9) }

theorem sweep_solvent_small_ledger :
    let s : State :=
      { credits := [⟨5, "a", 10 ^ 10, 1, 1, 0, 0⟩, ⟨5, "b", 4 * 10 ^ 12, 1, 1, 0, 0⟩,
          ⟨90, "a", 9 * 10 ^ 12, 1, 1, 0, 0⟩]
        arrived := some [5] }
    let cfg : Config := { coldAddress := sampleWallet 'c' }
    let fund : Sponsorship := ⟨true, 10 ^ 12, 2 * 10 ^ 12, 3⟩
    let locked : Nat → Int := fun _ => 6 * 10 ^ 12
    Sweeps cfg (smoothCall (10 ^ 14)) (10 ^ 14) s.toFiles
      ∧ liabilities s.toFiles (some fund) locked
        ≤ balanceLeft cfg (smoothCall (10 ^ 14)) (10 ^ 14) 0 s := by
  intro s cfg fund locked
  refine ⟨by decide +kernel, ?_⟩
  exact (sweep_solvent_iff cfg (smoothCall (10 ^ 14)) (some fund) locked (10 ^ 14) 0 s rfl
    (fun u h => (Option.some.inj h).symm) (by decide +kernel)).mpr fun _ => by decide +kernel

/-- A wallet that holds the growth fund of 25000 GLAC and owes nothing else: the sweep sends all
of it but the buffer, and the fund is no longer covered. -/
theorem sweep_takes_growth_fund :
    let cfg : Config := { coldAddress := sampleWallet 'c' }
    let fund : Sponsorship := ⟨true, 10 ^ 12, 25000 * 10 ^ 12, 0⟩
    let unlocked : Int := 25000 * 10 ^ 12
    liabilities {} (some fund) (fun _ => 0) ≤ unlocked
      ∧ ((coldSweepOnce cfg (smoothCall unlocked) {}).swept.map Dest.amount) = [24950 * 10 ^ 12]
      ∧ balanceLeft cfg (smoothCall unlocked) unlocked 0 {}
        < liabilities {} (some fund) (fun _ => 0) := by
  decide +kernel

end Glaciem.Pool.Payout
