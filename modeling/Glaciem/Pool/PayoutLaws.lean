import Glaciem.Pool.Payout

/-!
# Glaciem — nobody is paid more than they are owed

The payouts file is written after the transfer, by two threads that do not know of each other, and a
file that does not load reads as an empty one. `Careful` says, step by step, what has to go right
for a wallet `w`:

* the answer to a payout's transfer arrives, and its rows are saved;
* a round reads the payouts and the adjustments that are there;
* a thread that saves the payouts file finds it as it loaded it, and does not start the save while
  the other thread is at its own;
* the process does not stop between a transfer and the save of its rows;
* nobody takes credits or adjustments away that a round has counted or paid;
* the float cap is exact enough (`CapExact`).

`wallet_overpaid` has one run for each way to fail.
-/

namespace Glaciem.Pool.Payout

/-! ## The property and the condition -/

def entitledTo (f : Files) (w : String) : Int := creditsTo f.credits w + adjustedBy f.adjustments w

/-- The payouts sent to `w` are within its entitlement, and unless `w` is the operator's own cold
address, so is everything sent to it. -/
def NotOverpaid (cfg : Config) (w : String) (s : State) : Prop :=
  sentTo s.paidOut w ≤ entitledTo s.toFiles w
  ∧ (w ≠ cfg.coldAddress → sentTo (s.paidOut ++ s.swept) w ≤ entitledTo s.toFiles w)

/-- A state to start from: no round is under way, the payouts file is whole, what was sent is on
file and was owed. -/
structure Consistent (cfg : Config) (w : String) (s : State) : Prop where
  idle : s.payout = .idle
  whole : s.clash = false
  recorded : sentTo s.paidOut w ≤ paidTo s.payouts w
  within : sentTo s.paidOut w ≤ entitledTo s.toFiles w
  sweptCold : ∀ d ∈ s.swept, d.wallet = cfg.coldAddress

/-- A change of the ledger that takes nothing from `w`, or that comes between two rounds and
leaves the balance of `w` non-negative. -/
def LedgerKept (w : String) (s : State) (credits : List CreditEntry)
    (adjustments : List Adjustment) : Prop :=
  (creditsTo s.credits w ≤ creditsTo credits w
    ∧ adjustedBy s.adjustments w ≤ adjustedBy adjustments w)
  ∨ (s.payout = .idle ∧ paidTo s.payouts w ≤ creditsTo credits w + adjustedBy adjustments w)

def CarefulPayout (w : String) (env : Env) (s : State) : PayoutPhase → Prop
  | .reading (.credits _) => env.loadOk = true
  | .reading (.payouts _ _) => env.loadOk = true
  | .owed owed => ∀ unlocked, env.balance = some unlocked → CapExact w unlocked owed
  | .sending _ => env.transfer ≠ .lost
  | .logLoaded _ _ _ => env.saveOk = true ∧ s.sweep.isSaving = false
  | .saving _ _ log => env.saveOk = true ∧ log = s.payouts
  | _ => True

def CarefulSweep (env : Env) (s : State) : SweepPhase → Prop
  | .logLoaded _ _ _ => env.saveOk = true → s.payout.isSaving = false
  | .saving _ _ log => env.saveOk = true → log = s.payouts
  | _ => True

def PayoutPhase.inFlight : PayoutPhase → List Dest
  | .sent dests _ => dests
  | .logLoaded dests _ _ => dests
  | .saving dests _ _ => dests
  | _ => []

def Careful (w : String) (s : State) : Label → Prop
  | .payout env => CarefulPayout w env s s.payout
  | .sweep env => CarefulSweep env s s.sweep
  | .ledger credits adjustments => LedgerKept w s credits adjustments
  | .torn _ | .scan _ => True
  | .crash => s.payout.inFlight = []

/-! ## The invariant -/

structure Account where
  credited : Int
  adjusted : Int
  sent : Int

def State.account (s : State) (w : String) : Account :=
  ⟨creditsTo s.credits w, adjustedBy s.adjustments w, sentTo s.paidOut w⟩

/-- What a round has read is no more than what is on file, less at least what was sent. -/
def Reading.Sound (w : String) (a : Account) : Reading → Prop
  | .start => True
  | .credits cr => creditsTo cr w ≤ a.credited
  | .payouts cr pa => creditsTo cr w ≤ a.credited ∧ a.sent ≤ paidTo pa w
  | .adjustments cr pa adj =>
    creditsTo cr w ≤ a.credited ∧ a.sent ≤ paidTo pa w ∧ adjustedBy adj w ≤ a.adjusted

/-- Distinct wallets, and `w` may still be sent what it is listed with. -/
structure Affordable (w : String) (a : Account) (ds : List Dest) : Prop where
  nodup : (ds.map Dest.wallet).Nodup
  within : ∀ d ∈ ds, d.wallet = w → a.sent + d.amount ≤ a.credited + a.adjusted

def PayoutPhase.Sound (w : String) (a : Account) : PayoutPhase → Prop
  | .reading r => r.Sound w a
  | .owed ds => Affordable w a ds ∧ ∀ d ∈ ds, 0 < d.amount
  | .sending dests => Affordable w a dests
  | _ => True

structure PayInv (cfg : Config) (w : String) (s : State) : Prop where
  whole : s.clash = false
  within : sentTo s.paidOut w ≤ entitledTo s.toFiles w
  recorded : sentTo s.paidOut w ≤ paidTo s.payouts w + sentTo s.payout.inFlight w
  sound : s.payout.Sound w (s.account w)
  sweptCold : ∀ d ∈ s.swept, d.wallet = cfg.coldAddress

section Phases

variable {cfg : Config} {w : String} {a b : Account}

theorem Affordable.mono {ds : List Dest} (h : Affordable w a ds) (hcr : a.credited ≤ b.credited)
    (hadj : a.adjusted ≤ b.adjusted) (hsent : b.sent = a.sent) : Affordable w b ds where
  nodup := h.nodup
  within d hd hw := by
    have hle := h.within d hd hw
    omega

theorem PayoutPhase.Sound.mono {p : PayoutPhase} (h : p.Sound w a)
    (hcr : a.credited ≤ b.credited) (hadj : a.adjusted ≤ b.adjusted) (hsent : b.sent = a.sent) :
    p.Sound w b := by
  cases p with
  | reading r =>
    cases r with
    | start => trivial
    | credits cr => exact Int.le_trans h hcr
    | payouts cr pa => exact ⟨h.1.trans hcr, hsent ▸ h.2⟩
    | adjustments cr pa adj => exact ⟨h.1.trans hcr, hsent ▸ h.2.1, h.2.2.trans hadj⟩
  | owed ds => exact ⟨Affordable.mono h.1 hcr hadj hsent, h.2⟩
  | sending dests => exact Affordable.mono h hcr hadj hsent
  | idle | sent _ _ | logLoaded _ _ _ | saving _ _ _ => trivial

theorem Affordable.eligible {ds : List Dest} (h : Affordable w a ds) :
    Affordable w a (eligible cfg ds) where
  nodup := nodup_eligible h.nodup
  within d hd hw := h.within d (List.mem_filter.mp hd).1 hw

theorem affordable_computePendingBalances (arrived : Option (List Nat))
    {cr : List CreditEntry} {pa : List PayoutRow} {adj : List Adjustment}
    (h : (Reading.adjustments cr pa adj).Sound w a) :
    Affordable w a (computePendingBalances arrived cr pa adj) where
  nodup := nodup_computePendingBalances arrived cr pa adj
  within d hd hw := by
    obtain ⟨hcr, hpaid, hadj⟩ := h
    have hle := (mem_computePendingBalances hd).2
    rw [hw] at hle
    omega

theorem Affordable.payoutPlan {unlocked : Int} {owed : List Dest} (h : Affordable w a owed)
    (hpos : ∀ d ∈ owed, 0 < d.amount) (hcap : CapExact w unlocked owed) :
    Affordable w a (payoutPlan cfg unlocked owed) where
  nodup := nodup_payoutPlanBy h.nodup
  within d hd hw := by
    obtain ⟨d₀, hd₀, hwallet, hle⟩ := mem_payoutPlan hpos (hw.symm ▸ hcap) hd
    have hle₀ := h.within d₀ hd₀ (hwallet.trans hw)
    omega

theorem Affordable.sent_add_le {ds : List Dest} (h : Affordable w a ds)
    (hbefore : a.sent ≤ a.credited + a.adjusted) :
    a.sent + sentTo ds w ≤ a.credited + a.adjusted := by
  by_cases hmem : ∃ d ∈ ds, d.wallet = w
  · obtain ⟨d, hd, hw⟩ := hmem
    have hsum : sentTo ds w = d.amount := hw ▸ sumFor_eq_of_mem _ _ h.nodup hd
    rw [hsum]
    exact h.within d hd hw
  · have hsum : sentTo ds w = 0 :=
      sumFor_eq_zero _ _ fun d hd hw => hmem ⟨d, hd, hw⟩
    rw [hsum, Int.add_zero]
    exact hbefore

end Phases

/-! ## One step -/

section Steps

variable {cfg : Config} {w : String} {s : State} {env : Env}

theorem PayInv.of_consistent (h : Consistent cfg w s) : PayInv cfg w s where
  whole := h.whole
  within := h.within
  recorded := by
    rw [h.idle]
    show _ ≤ _ + (0 : Int)
    rw [Int.add_zero]
    exact h.recorded
  sound := by
    rw [h.idle]
    trivial
  sweptCold := h.sweptCold

variable (h : PayInv cfg w s)

include h

theorem PayInv.notOverpaid : NotOverpaid cfg w s := by
  refine ⟨h.within, fun hw => ?_⟩
  have hswept : sentTo s.swept w = 0 :=
    sumFor_eq_zero _ _ fun d hd heq => hw (heq.symm.trans (h.sweptCold d hd))
  have htotal : sentTo (s.paidOut ++ s.swept) w = sentTo s.paidOut w + sentTo s.swept w :=
    sumFor_append _ _ _ _ _
  rw [htotal, hswept, Int.add_zero]
  exact h.within

theorem PayInv.of_phase {p : PayoutPhase}
    (hflight : p.inFlight = s.payout.inFlight) (hsound : p.Sound w (s.account w)) :
    PayInv cfg w { s with payout := p } where
  whole := h.whole
  within := h.within
  recorded := by
    show _ ≤ _ + sentTo p.inFlight w
    rw [hflight]
    exact h.recorded
  sound := hsound
  sweptCold := h.sweptCold

theorem PayInv.read {r : Reading} (hp : s.payout = .reading r)
    (hcareful : CarefulPayout w env s (.reading r)) : PayInv cfg w (payoutAdvance cfg env s) := by
  have hsound := h.sound
  have hflight : s.payout.inFlight = [] := by rw [hp]; rfl
  have hrecorded := h.recorded
  rw [hflight] at hrecorded
  have hpaid : sentTo s.paidOut w ≤ paidTo s.payouts w := by
    simpa [sentTo] using hrecorded
  rw [hp] at hsound
  unfold payoutAdvance
  rw [hp]
  cases r with
  | start =>
    refine h.of_phase hflight.symm ?_
    -- credits that do not load read as none, which only lowers the balance
    show creditsTo (loadJsonFile env.loadOk s.credits []) w ≤ creditsTo s.credits w
    unfold loadJsonFile
    split
    · exact Int.le_refl _
    · exact creditsTo_nonneg s.credits w
  | credits cr =>
    have hload : env.loadOk = true := hcareful
    refine h.of_phase hflight.symm ?_
    show _ ∧ sentTo s.paidOut w ≤ paidTo (loadJsonFile env.loadOk s.payouts []) w
    rw [hload]
    exact ⟨hsound, hpaid⟩
  | payouts cr pa =>
    have hload : env.loadOk = true := hcareful
    refine h.of_phase hflight.symm ?_
    show _ ∧ _ ∧ adjustedBy (loadJsonFile env.loadOk s.adjustments []) w
      ≤ adjustedBy s.adjustments w
    rw [hload]
    exact ⟨hsound.1, hsound.2, Int.le_refl _⟩
  | adjustments cr pa adj =>
    have hafford := affordable_computePendingBalances s.arrived hsound
    dsimp only [Reading.advance]
    split
    · exact h.of_phase hflight.symm trivial
    · refine h.of_phase hflight.symm ⟨hafford.eligible, fun d hd => ?_⟩
      exact (mem_computePendingBalances (List.mem_filter.mp hd).1).1

theorem PayInv.plan {ds : List Dest} (hp : s.payout = .owed ds)
    (hcareful : CarefulPayout w env s (.owed ds)) : PayInv cfg w (payoutAdvance cfg env s) := by
  have hsound := h.sound
  have hflight : s.payout.inFlight = [] := by rw [hp]; rfl
  rw [hp] at hsound
  unfold payoutAdvance
  rw [hp]
  cases hbal : env.balance with
  | none => exact h.of_phase hflight.symm trivial
  | some unlocked =>
    dsimp only
    split
    · exact h.of_phase hflight.symm trivial
    · exact h.of_phase hflight.symm (hsound.1.payoutPlan hsound.2 (hcareful unlocked hbal))

theorem PayInv.send {ds : List Dest} (hp : s.payout = .sending ds)
    (hcareful : CarefulPayout w env s (.sending ds)) : PayInv cfg w (payoutAdvance cfg env s) := by
  have hsound := h.sound
  have hrecorded := h.recorded
  rw [hp] at hsound hrecorded
  have happend : sentTo (s.paidOut ++ ds) w = sentTo s.paidOut w + sentTo ds w :=
    sumFor_append _ _ _ _ _
  unfold payoutAdvance
  rw [hp]
  cases htransfer : env.transfer with
  | refused => exact h.of_phase (by rw [hp]; rfl) trivial
  | lost => exact absurd htransfer hcareful
  | ok fee =>
    exact
      { whole := h.whole
        within := by
          show sentTo (s.paidOut ++ ds) w ≤ _
          rw [happend]
          exact Affordable.sent_add_le hsound h.within
        recorded := by
          show sentTo (s.paidOut ++ ds) w ≤ paidTo s.payouts w + sentTo ds w
          have hbefore : sentTo s.paidOut w ≤ paidTo s.payouts w + 0 := hrecorded
          rw [happend]
          omega
        sound := trivial
        sweptCold := h.sweptCold }

theorem PayInv.beginSave {ds : List Dest} {fee : Nat} {log : List PayoutRow}
    (hp : s.payout = .logLoaded ds fee log)
    (hcareful : CarefulPayout w env s (.logLoaded ds fee log)) :
    PayInv cfg w (payoutAdvance cfg env s) := by
  obtain ⟨hsave, halone⟩ := hcareful
  have hphase : PayInv cfg w { s with payout := .saving ds fee log } :=
    h.of_phase (by rw [hp]; rfl) trivial
  unfold payoutAdvance
  rw [hp]
  simp only [if_pos hsave, halone, Bool.or_false]
  exact hphase

theorem PayInv.save {ds : List Dest} {fee : Nat} {log : List PayoutRow}
    (hp : s.payout = .saving ds fee log)
    (hcareful : CarefulPayout w env s (.saving ds fee log)) :
    PayInv cfg w (payoutAdvance cfg env s) := by
  have hrecorded := h.recorded
  rw [hp] at hrecorded
  obtain ⟨hsave, rfl⟩ := hcareful
  unfold payoutAdvance
  rw [hp]
  simp only [if_pos hsave, h.whole, Bool.false_and]
  exact
    { whole := rfl
      within := h.within
      recorded := by
        have hrows := sentTo_le_paidTo_payoutRows ds fee w
        have hsum : paidTo (s.payouts ++ payoutRows ds fee) w
            = paidTo s.payouts w + paidTo (payoutRows ds fee) w := sumFor_append _ _ _ _ _
        have hbefore : sentTo s.paidOut w ≤ paidTo s.payouts w + sentTo ds w := hrecorded
        show sentTo s.paidOut w ≤ paidTo (s.payouts ++ payoutRows ds fee) w + (0 : Int)
        omega
      sound := trivial
      sweptCold := h.sweptCold }

theorem PayInv.payout (hcareful : CarefulPayout w env s s.payout) :
    PayInv cfg w (payoutAdvance cfg env s) := by
  cases hp : s.payout with
  | idle | sent ds fee =>
    unfold payoutAdvance
    rw [hp]
    exact h.of_phase (by rw [hp]; rfl) trivial
  | reading r => exact h.read hp (hp ▸ hcareful)
  | owed ds => exact h.plan hp (hp ▸ hcareful)
  | sending ds => exact h.send hp (hp ▸ hcareful)
  | logLoaded ds fee log => exact h.beginSave hp (hp ▸ hcareful)
  | saving ds fee log => exact h.save hp (hp ▸ hcareful)

theorem PayInv.of_sweep {p : SweepPhase} {payouts : List PayoutRow}
    {swept : List Dest} {clash : Bool} (hpaid : paidTo s.payouts w ≤ paidTo payouts w)
    (hcold : ∀ d ∈ swept, d.wallet = cfg.coldAddress) (hwhole : clash = false) :
    PayInv cfg w { s with sweep := p, payouts := payouts, swept := swept, clash := clash } where
  whole := hwhole
  within := h.within
  recorded := h.recorded.trans (Int.add_le_add_right hpaid _)
  sound := h.sound
  sweptCold := hcold

theorem PayInv.sweep (hcareful : CarefulSweep env s s.sweep) :
    PayInv cfg w (sweepAdvance cfg env s) := by
  have hmove (p : SweepPhase) : PayInv cfg w { s with sweep := p } :=
    h.of_sweep (Int.le_refl _) h.sweptCold h.whole
  have hsent (p : SweepPhase) (amount : Int) :
      PayInv cfg w { s with sweep := p, swept := s.swept ++ [⟨cfg.coldAddress, amount⟩] } := by
    refine h.of_sweep (Int.le_refl _) (fun d hd => ?_) h.whole
    rcases List.mem_append.mp hd with hold | hnew
    · exact h.sweptCold d hold
    · rw [List.mem_singleton.mp hnew]
  unfold sweepAdvance
  cases hp : s.sweep with
  | idle =>
    dsimp only
    split
    · exact h
    · cases env.balance with
      | none => exact h
      | some unlocked => exact hmove _
  | reading unlocked r =>
    dsimp only
    cases r.advance env.loadOk s.toFiles with
    | inl r' | inr pending => exact hmove _
  | sending amount =>
    cases env.transfer with
    | refused => exact hmove _
    | lost | ok fee => exact hsent _ _
  | sent amount fee => exact hmove _
  | logLoaded amount fee log =>
    rw [hp] at hcareful
    dsimp only
    split
    · rename_i hsave
      refine h.of_sweep (Int.le_refl _) h.sweptCold ?_
      rw [h.whole, hcareful hsave]
      rfl
    · exact hmove _
  | saving amount fee log =>
    rw [hp] at hcareful
    refine h.of_sweep ?_ h.sweptCold (by rw [h.whole, Bool.false_and])
    split
    · rename_i hsave
      have hrow := paidTo_sweepRow_nonneg cfg amount fee w
      have hsum : paidTo (log ++ [sweepRow cfg amount fee]) w
          = paidTo log w + paidTo [sweepRow cfg amount fee] w := sumFor_append _ _ _ _ _
      rw [hsum, hcareful hsave]
      omega
    · exact Int.le_refl _

theorem PayInv.ledger {credits : List CreditEntry}
    {adjustments : List Adjustment} (hkept : LedgerKept w s credits adjustments) :
    PayInv cfg w { s with credits := credits, adjustments := adjustments } := by
  have hwithin : sentTo s.paidOut w ≤ creditsTo s.credits w + adjustedBy s.adjustments w := h.within
  rcases hkept with ⟨hcr, hadj⟩ | ⟨hidle, hbalance⟩
  · exact
      { whole := h.whole
        within := hwithin.trans (Int.add_le_add hcr hadj)
        recorded := h.recorded
        sound := h.sound.mono hcr hadj rfl
        sweptCold := h.sweptCold }
  · have hrecorded := h.recorded
    rw [hidle] at hrecorded
    have hpaid : sentTo s.paidOut w ≤ paidTo s.payouts w + 0 := hrecorded
    exact
      { whole := h.whole
        within := by
          show sentTo s.paidOut w ≤ creditsTo credits w + adjustedBy adjustments w
          omega
        recorded := h.recorded
        sound := by
          show s.payout.Sound w _
          rw [hidle]
          trivial
        sweptCold := h.sweptCold }

theorem PayInv.step {l : Label} {s' : State} (hcareful : Careful w s l)
    (hstep : (loops cfg).step s l = some s') : PayInv cfg w s' := by
  cases l with
  | payout env =>
    cases hstep
    exact h.payout hcareful
  | sweep env =>
    cases hstep
    exact h.sweep hcareful
  | torn rows =>
    -- no save has met another one, so the step is disabled
    change (if s.clash then _ else none) = _ at hstep
    rw [h.whole] at hstep
    cases hstep
  | ledger credits adjustments =>
    cases hstep
    exact h.ledger hcareful
  | scan heights =>
    cases hstep
    exact ⟨h.whole, h.within, h.recorded, h.sound, h.sweptCold⟩
  | crash =>
    cases hstep
    -- nothing is in flight, so what was sent is all on file
    have hrecorded := h.recorded
    rw [show s.payout.inFlight = [] from hcareful] at hrecorded
    exact ⟨rfl, h.within, hrecorded, trivial, h.sweptCold⟩

end Steps

/-! ## Whole runs -/

/-- In every run whose steps are careful for `w`, from every consistent state, `w` is not
overpaid in any state reached. -/
theorem never_overpaid (cfg : Config) (w : String) {s s' : State} {ls : List Label}
    (hstart : Consistent cfg w s) (hcareful : (loops cfg).Meets (Careful w) s ls)
    (hrun : (loops cfg).exec s ls = some s') : NotOverpaid cfg w s' := by
  have hinv : PayInv cfg w s' :=
    (loops cfg).invariant_of_meets (fun h hc hs => PayInv.step h hc hs)
      (PayInv.of_consistent hstart) hcareful hrun
  exact hinv.notOverpaid

instance (w : String) (unlocked : Int) (owed : List Dest) : Decidable (CapExact w unlocked owed) :=
  inferInstanceAs (Decidable (_ → _))

instance (w : String) (env : Env) (s : State) : ∀ ph, Decidable (CarefulPayout w env s ph)
  | .reading (.credits _) | .reading (.payouts _ _) => inferInstanceAs (Decidable (_ = _))
  | .owed owed => inferInstanceAs (Decidable (∀ unlocked ∈ env.balance, CapExact w unlocked owed))
  | .sending _ => inferInstanceAs (Decidable (_ ≠ _))
  | .logLoaded _ _ _ | .saving _ _ _ => inferInstanceAs (Decidable (_ ∧ _))
  | .idle | .reading .start | .reading (.adjustments _ _ _) | .sent _ _ =>
    inferInstanceAs (Decidable True)

instance (env : Env) (s : State) : ∀ ph, Decidable (CarefulSweep env s ph)
  | .logLoaded _ _ _ | .saving _ _ _ => inferInstanceAs (Decidable (_ → _))
  | .idle | .reading _ _ | .sending _ | .sent _ _ => inferInstanceAs (Decidable True)

instance (w : String) (s : State) : ∀ l, Decidable (Careful w s l)
  | .payout env => inferInstanceAs (Decidable (CarefulPayout w env s s.payout))
  | .sweep env => inferInstanceAs (Decidable (CarefulSweep env s s.sweep))
  | .ledger _ _ => inferInstanceAs (Decidable (_ ∨ _))
  | .torn _ | .scan _ => inferInstanceAs (Decidable True)
  | .crash => inferInstanceAs (Decidable (_ = _))

def sampleCredit (wallet : String) (atomic : Nat) : CreditEntry := ⟨1, wallet, atomic, 1, 1, 0, 0⟩

def sweepingConfig : Config := { coldAddress := sampleWallet 'c' }

def payoutSections (n : Nat) : List Label := List.replicate n (.payout {})

/-- A round up to its transfer: five sections read the files, then the wallet is asked for its
balance, then for the transfer. -/
def roundUpToTransfer (unlocked : Int) (reply : TransferReply) : List Label :=
  payoutSections 5 ++ [.payout { balance := some unlocked }, .payout { transfer := reply }]

def wholeRound (unlocked : Int) : List Label :=
  roundUpToTransfer unlocked (.ok 0) ++ payoutSections 3

def sweepUpToLoad (unlocked : Int) : List Label :=
  [.sweep { balance := some unlocked }] ++ List.replicate 4 (.sweep {})
    ++ [.sweep { transfer := .ok 0 }, .sweep {}]

theorem never_overpaid_sample :
    let start : State :=
      { credits := [sampleCredit "a" (3 * 10 ^ 12), sampleCredit "b" (10 ^ 12)]
        adjustments := [⟨"a", -(10 ^ 12)⟩] }
    let run := wholeRound (15 * 10 ^ 11 + feeReserveAtomic) ++ sweepUpToLoad (10 ^ 14)
      ++ [.sweep {}, .sweep {}] ++ wholeRound (10 ^ 14)
    ∃ s, (loops sweepingConfig).exec start run = some s
      ∧ (sentTo s.paidOut "a", s.swept.length) = (2 * 10 ^ 12, 1)
      ∧ NotOverpaid sweepingConfig "a" s := by
  intro start run
  have hend : ((loops sweepingConfig).execChecked (fun s l => decide (Careful "a" s l)) start
      run).map (fun s => (sentTo s.paidOut "a", s.swept.length)) = some (2 * 10 ^ 12, 1) := by
    decide +kernel
  obtain ⟨s, hexec, hmeets, hsent⟩ :=
    (loops sweepingConfig).exists_of_checked (fun _ _ => of_decide_eq_true) hend
  have hstart : Consistent sweepingConfig "a" start :=
    ⟨rfl, rfl, by decide +kernel, by decide +kernel, by simp [start]⟩
  exact ⟨s, hexec, hsent, never_overpaid sweepingConfig "a" hstart hmeets hexec⟩

/-! ## The ways to fail -/

def oneCredit : State := { credits := [sampleCredit "a" (10 ^ 12)] }

def largeCredits : State :=
  { credits := [sampleCredit "a" (2 ^ 53 + 3), sampleCredit "b" (3 * 2 ^ 53)] }

/-- The run starts in a consistent state and ends with wallet `a` overpaid. -/
def Overpays (start : State) (run : List Label) : Prop :=
  Consistent sweepingConfig "a" start
    ∧ ∃ s, (loops sweepingConfig).exec start run = some s ∧ ¬ NotOverpaid sweepingConfig "a" s

theorem overpays_of_check {start : State} {run : List Label}
    (hstart : Consistent sweepingConfig "a" start)
    (hcheck : ((loops sweepingConfig).exec start run).any (fun s =>
      entitledTo s.toFiles "a" < sentTo s.paidOut "a") = true) : Overpays start run := by
  obtain ⟨s, hexec, hover⟩ := (Option.any_eq_true _ _).mp hcheck
  refine ⟨hstart, s, hexec, fun hnot => ?_⟩
  exact absurd (of_decide_eq_true hover) (Int.not_lt.mpr hnot.1)

theorem consistent_oneCredit : Consistent sweepingConfig "a" oneCredit :=
  ⟨rfl, rfl, by decide +kernel, by decide +kernel, by simp [oneCredit]⟩

theorem consistent_largeCredits : Consistent sweepingConfig "a" largeCredits :=
  ⟨rfl, rfl, by decide +kernel, by decide +kernel, by simp [largeCredits]⟩

def lostReply : List Label := roundUpToTransfer (10 ^ 13) .lost ++ wholeRound (10 ^ 13)

def unsavedRows : List Label :=
  roundUpToTransfer (10 ^ 13) (.ok 0) ++ [.payout {}, .payout { saveOk := false }]
    ++ wholeRound (10 ^ 13)

def crashBeforeSave : List Label :=
  roundUpToTransfer (10 ^ 13) (.ok 0) ++ [.crash] ++ wholeRound (10 ^ 13)

def unreadablePayouts : List Label :=
  wholeRound (10 ^ 13) ++ payoutSections 2 ++ [.payout { loadOk := false }] ++ payoutSections 2
    ++ [.payout { balance := some (10 ^ 13) }, .payout { transfer := .ok 0 }]

def sweepOverwrites : List Label :=
  sweepUpToLoad (10 ^ 14) ++ wholeRound (10 ^ 13) ++ [.sweep {}, .sweep {}] ++ wholeRound (10 ^ 13)

/-- The sweep opens the temporary file while the round is at its save. The round renames it, the
sweep writes over it, and what is left is not JSON. -/
def savesClash : List Label :=
  sweepUpToLoad (10 ^ 14) ++ roundUpToTransfer (10 ^ 13) (.ok 0) ++ payoutSections 2
    ++ [.sweep {}, .payout {}, .torn [], .sweep { saveOk := false }] ++ wholeRound (10 ^ 13)

def cappedRound : List Label := wholeRound (4 * 2 ^ 53 + 2 + feeReserveAtomic)

/-- Each of these runs overpays: the first six send the credit twice, the last one rounds it
up. -/
theorem wallet_overpaid :
    Overpays oneCredit lostReply ∧ Overpays oneCredit unsavedRows
      ∧ Overpays oneCredit crashBeforeSave ∧ Overpays oneCredit unreadablePayouts
      ∧ Overpays oneCredit sweepOverwrites ∧ Overpays oneCredit savesClash
      ∧ Overpays largeCredits cappedRound :=
  ⟨overpays_of_check consistent_oneCredit (by decide +kernel),
    overpays_of_check consistent_oneCredit (by decide +kernel),
    overpays_of_check consistent_oneCredit (by decide +kernel),
    overpays_of_check consistent_oneCredit (by decide +kernel),
    overpays_of_check consistent_oneCredit (by decide +kernel),
    overpays_of_check consistent_oneCredit (by decide +kernel),
    overpays_of_check consistent_largeCredits (by decide +kernel)⟩

end Glaciem.Pool.Payout
