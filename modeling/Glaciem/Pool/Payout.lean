import Glaciem.Lib.Binary64
import Glaciem.Lib.KeyedSum
import Glaciem.Lib.System
import Glaciem.Pool.Settle

/-!
# Glaciem — the payout loop and the cold sweep

`payout_round` and `cold_sweep_once` of `pool/server/pool-server.py` as two threads over the ledger
files and the wallet. Every load and save of a file, every remote call and the snapshot of the
matured heights is a step of its own; neither thread takes a lock on the files.
`TransferReply.lost`: the wallet executed the transfer and the answer did not arrive, or could not
be read.

`save_json_atomic` is two steps: it opens the temporary file, then writes it and renames it. Both
threads use one name for it, so that a thread may write into a file that the other one has renamed
already, or rename a file that the other one is still writing. From a moment at which both have it
open until neither has (`clash`), the payouts file may come to hold anything (`Label.torn`); a file
that is no longer JSON reads as empty.

Two fields of the state are proof-only: `paidOut` and `swept`, what the wallet really sent for
either thread.
-/

namespace Glaciem.Pool.Payout

open List

/-! ## Data -/

/-- A row of `pool-payouts.json`. Rows of a sweep have no `round_fee_share`. -/
structure PayoutRow where
  wallet : String
  atomic : Int
  txFeeAtomic : Nat
  roundFeeShare : Option Nat
  deriving DecidableEq

structure Adjustment where
  wallet : String
  atomic : Int
  deriving DecidableEq

structure Dest where
  wallet : String
  amount : Int
  deriving DecidableEq

def PayoutRow.deducts (p : PayoutRow) : Int := p.atomic + (p.roundFeeShare.getD p.txFeeAtomic : Nat)

def creditsTo (credits : List CreditEntry) (w : String) : Int :=
  sumFor CreditEntry.wallet (fun c => (c.atomic : Int)) credits w

def paidTo (payouts : List PayoutRow) (w : String) : Int :=
  sumFor PayoutRow.wallet PayoutRow.deducts payouts w

def adjustedBy (adjustments : List Adjustment) (w : String) : Int :=
  sumFor Adjustment.wallet Adjustment.atomic adjustments w

def sentTo (dests : List Dest) (w : String) : Int := sumFor Dest.wallet Dest.amount dests w

/-! ## The balances -/

variable (arrived : Option (List Nat))

/-- The credits that count: all of them before the first scan of the wallet, else those whose
block has matured in it. -/
def countable (credits : List CreditEntry) : List CreditEntry :=
  match arrived with
  | none => credits
  | some heights => credits.filter (fun c => c.height ∈ heights)

def allWallets (earned : List CreditEntry) (payouts : List PayoutRow)
    (adjustments : List Adjustment) : List String :=
  ((earned.map CreditEntry.wallet ++ payouts.map PayoutRow.wallet
    ++ adjustments.map Adjustment.wallet).filter (fun w => w ≠ "")).dedup

/-- Credits less payouts plus adjustments, where positive. The source keeps the wallets in a set;
nothing depends on their order. -/
def computePendingBalances (credits : List CreditEntry)
    (payouts : List PayoutRow) (adjustments : List Adjustment) : List Dest :=
  let earned := countable arrived credits
  (allWallets earned payouts adjustments).filterMap fun w =>
    let net := creditsTo earned w - paidTo payouts w + adjustedBy adjustments w
    if net > 0 then some ⟨w, net⟩ else none

def feeReserveAtomic : Int := 5 * 10 ^ 10

variable (cfg : Config)

def eligible (pending : List Dest) : List Dest :=
  pending.filter (fun d => d.amount ≥ cfg.minPayoutAtomic)

def totalOwed (owed : List Dest) : Int := (owed.map Dest.amount).sum

/-- `int(a * scale)` with `scale = available / total_owed`, as floats compute it. -/
def scaledShare (available total a : Int) : Int :=
  pyInt (binary64 (binary64 a * binary64 (available / total)))

/-- Everything when the balance covers it, else everybody's fraction, dropping those below the
threshold. Empty when the round sends nothing. -/
def payoutPlanBy (share : Int → Int → Int → Int) (cfg : Config) (unlocked : Int)
    (owed : List Dest) : List Dest :=
  let available := unlocked - feeReserveAtomic
  if available < cfg.minPayoutAtomic then []
  else if totalOwed owed > available then
    eligible cfg (owed.map fun d => { d with amount := share available (totalOwed owed) d.amount })
  else owed

def payoutPlan (unlocked : Int) (owed : List Dest) : List Dest :=
  payoutPlanBy scaledShare cfg unlocked owed

def payoutRows (dests : List Dest) (fee : Nat) : List PayoutRow :=
  dests.map (fun d => ⟨d.wallet, d.amount, fee, some (fee / max 1 dests.length)⟩)

def sweepAmount (unlocked : Int) (pending : List Dest) : Int :=
  max 0 (unlocked - totalOwed (eligible cfg pending)) - cfg.coldHotBufferAtomic

/-! ## The threads -/

inductive TransferReply where
  | ok (fee : Nat)
  | refused
  | lost
  deriving DecidableEq

structure Env where
  loadOk : Bool := true
  saveOk : Bool := true
  balance : Option Int := none
  transfer : TransferReply := .refused

/-- The files, and the cache of matured heights (`none` before the first scan). -/
structure Files where
  credits : List CreditEntry := []
  payouts : List PayoutRow := []
  adjustments : List Adjustment := []
  arrived : Option (List Nat) := none

inductive Reading where
  | start
  | credits (credits : List CreditEntry)
  | payouts (credits : List CreditEntry) (payouts : List PayoutRow)
  | adjustments (credits : List CreditEntry) (payouts : List PayoutRow)
      (adjustments : List Adjustment)
  deriving DecidableEq

/-- One section of `compute_pending_balances`: read on, or return the balances. -/
def Reading.advance (loadOk : Bool) (f : Files) : Reading → Reading ⊕ List Dest
  | .start => .inl (.credits (loadJsonFile loadOk f.credits []))
  | .credits cr => .inl (.payouts cr (loadJsonFile loadOk f.payouts []))
  | .payouts cr pa => .inl (.adjustments cr pa (loadJsonFile loadOk f.adjustments []))
  | .adjustments cr pa adj => .inr (computePendingBalances f.arrived cr pa adj)

inductive PayoutPhase where
  | idle
  | reading (r : Reading)
  | owed (owed : List Dest)
  | sending (dests : List Dest)
  | sent (dests : List Dest) (fee : Nat)
  | logLoaded (dests : List Dest) (fee : Nat) (log : List PayoutRow)
  | saving (dests : List Dest) (fee : Nat) (log : List PayoutRow)
  deriving DecidableEq

def PayoutPhase.isSaving : PayoutPhase → Bool
  | .saving _ _ _ => true
  | _ => false

/-- Where the sweep thread stands. The amount it sends is positive by its type. -/
inductive SweepPhase where
  | idle
  | reading (unlocked : Int) (r : Reading)
  | sending (amount : {a : Int // 0 < a})
  | sent (amount : {a : Int // 0 < a}) (fee : Nat)
  | logLoaded (amount : {a : Int // 0 < a}) (fee : Nat) (log : List PayoutRow)
  | saving (amount : {a : Int // 0 < a}) (fee : Nat) (log : List PayoutRow)

def SweepPhase.isSaving : SweepPhase → Bool
  | .saving _ _ _ => true
  | _ => false

structure State extends Files where
  payout : PayoutPhase := .idle
  sweep : SweepPhase := .idle
  clash : Bool := false
  paidOut : List Dest := []
  swept : List Dest := []

/-- One section of `payout_round`. An exception ends the round: `payout_loop` swallows it. -/
def payoutAdvance (env : Env) (s : State) : State :=
  match s.payout with
  | .idle => { s with payout := .reading .start }
  | .reading r =>
    match r.advance env.loadOk s.toFiles with
    | .inl r' => { s with payout := .reading r' }
    | .inr pending =>
      { s with payout := if eligible cfg pending = [] then .idle else .owed (eligible cfg pending) }
  | .owed owed =>
    match env.balance with
    | none => { s with payout := .idle }
    | some unlocked =>
      { s with payout := if payoutPlan cfg unlocked owed = [] then .idle
                         else .sending (payoutPlan cfg unlocked owed) }
  | .sending dests =>
    match env.transfer with
    | .refused => { s with payout := .idle }
    | .lost => { s with payout := .idle, paidOut := s.paidOut ++ dests }
    | .ok fee => { s with payout := .sent dests fee, paidOut := s.paidOut ++ dests }
  | .sent dests fee =>
    { s with payout := .logLoaded dests fee (loadJsonFile env.loadOk s.payouts []) }
  | .logLoaded dests fee log =>
    if env.saveOk then
      { s with payout := .saving dests fee log, clash := s.clash || s.sweep.isSaving }
    else { s with payout := .idle }
  | .saving dests fee log =>
    { s with payout := .idle
             payouts := if env.saveOk then log ++ payoutRows dests fee else s.payouts
             clash := s.clash && s.sweep.isSaving }

def sweepRow (amount : Int) (fee : Nat) : PayoutRow :=
  ⟨cfg.coldAddress, amount, fee, none⟩

def sweepAdvance (env : Env) (s : State) : State :=
  match s.sweep with
  | .idle =>
    if cfg.coldAddress = "" ∨ isValidWallet cfg.coldAddress = false then s
    else
      match env.balance with
      | none => s
      | some unlocked => { s with sweep := .reading unlocked .start }
  | .reading unlocked r =>
    match r.advance env.loadOk s.toFiles with
    | .inl r' => { s with sweep := .reading unlocked r' }
    | .inr pending =>
      { s with sweep := if h : 0 < sweepAmount cfg unlocked pending then .sending ⟨_, h⟩
                        else .idle }
  | .sending amount =>
    match env.transfer with
    | .refused => { s with sweep := .idle }
    | .lost => { s with sweep := .idle, swept := s.swept ++ [⟨cfg.coldAddress, amount⟩] }
    | .ok fee =>
      { s with sweep := .sent amount fee, swept := s.swept ++ [⟨cfg.coldAddress, amount⟩] }
  | .sent amount fee =>
    { s with sweep := .logLoaded amount fee (loadJsonFile env.loadOk s.payouts []) }
  | .logLoaded amount fee log =>
    if env.saveOk then
      { s with sweep := .saving amount fee log, clash := s.clash || s.payout.isSaving }
    else { s with sweep := .idle }
  | .saving amount fee log =>
    { s with sweep := .idle
             payouts := if env.saveOk then log ++ [sweepRow cfg amount fee] else s.payouts
             clash := s.clash && s.payout.isSaving }

/-- A section of either thread, what two saves at once make of the payouts file, a change of the
credits and adjustments by anybody else, a scan of the wallet, and a crash with its restart, which
leaves the files. -/
inductive Label where
  | payout (env : Env)
  | sweep (env : Env)
  | torn (rows : List PayoutRow)
  | ledger (credits : List CreditEntry) (adjustments : List Adjustment)
  | scan (heights : List Nat)
  | crash

def step (s : State) : Label → Option State
  | .payout env => some (payoutAdvance cfg env s)
  | .sweep env => some (sweepAdvance cfg env s)
  | .torn rows => if s.clash then some { s with payouts := rows } else none
  | .ledger credits adjustments => some { s with credits := credits, adjustments := adjustments }
  | .scan heights => some { s with arrived := some heights }
  | .crash => some { s with payout := .idle, sweep := .idle, clash := false, arrived := none }

def loops : System State Label := ⟨step cfg⟩

/-! ## What the balances and the plan promise -/

theorem creditsTo_nonneg (credits : List CreditEntry) (w : String) : 0 ≤ creditsTo credits w := by
  refine sum_nonneg fun x hx => ?_
  obtain ⟨c, -, rfl⟩ := mem_map.mp hx
  exact Int.natCast_nonneg c.atomic

theorem creditsTo_countable_le (credits : List CreditEntry)
    (w : String) : creditsTo (countable arrived credits) w ≤ creditsTo credits w := by
  cases arrived with
  | none => exact Int.le_refl _
  | some heights => exact sumFor_filter_le _ _ _ (fun c _ => Int.natCast_nonneg c.atomic) w

variable {d : Dest} {owed : List Dest} {cfg : Config}

theorem mem_computePendingBalances {arrived : Option (List Nat)} {credits : List CreditEntry}
    {payouts : List PayoutRow} {adjustments : List Adjustment}
    (hd : d ∈ computePendingBalances arrived credits payouts adjustments) :
    0 < d.amount ∧ d.amount ≤ creditsTo credits d.wallet - paidTo payouts d.wallet
      + adjustedBy adjustments d.wallet := by
  obtain ⟨w, -, hw⟩ := mem_filterMap.mp hd
  have hle := creditsTo_countable_le arrived credits w
  simp only at hw
  split at hw
  · cases hw
    dsimp only
    omega
  · cases hw

theorem nodup_computePendingBalances (credits : List CreditEntry)
    (payouts : List PayoutRow) (adjustments : List Adjustment) :
    ((computePendingBalances arrived credits payouts adjustments).map Dest.wallet).Nodup := by
  -- the wallets of the result are those of `allWallets` with a positive balance, in their order
  rw [computePendingBalances, map_filterMap]
  refine List.Nodup.filterMap ?_ (nodup_dedup _)
  intro w w' v hv hv'
  simp only [Option.mem_def, Option.map_eq_some_iff] at hv hv'
  obtain ⟨d, hd, rfl⟩ := hv
  obtain ⟨d', hd', heq⟩ := hv'
  split at hd
  · split at hd'
    · cases hd
      cases hd'
      exact heq.symm
    · cases hd'
  · cases hd

theorem scaledShare_le {available total a : Int} (htotal : available < total) (hpos : 0 < total)
    (ha : 0 ≤ a) (hbits : a ≤ 2 ^ 53) : scaledShare available total a ≤ a := by
  obtain ⟨n, rfl⟩ := Int.eq_ofNat_of_zero_le ha
  have hn : n ≤ 2 ^ 53 := by exact_mod_cast hbits
  have hscale : binary64 ((available : ℚ) / total) ≤ 1 := by
    have hle : (available : ℚ) / total ≤ (1 : Nat) := by
      rw [Nat.cast_one, div_le_one (by exact_mod_cast hpos)]
      exact_mod_cast htotal.le
    exact_mod_cast binary64_le_of_le (by norm_num) hle
  have hself : binary64 ((n : Int) : ℚ) ≤ n := binary64_le_of_le hn (by simp)
  have hnonneg : 0 ≤ binary64 ((n : Int) : ℚ) := binary64_nonneg (by simp)
  refine pyInt_le_of_le (binary64_le_of_le hn ?_)
  calc binary64 ((n : Int) : ℚ) * binary64 ((available : ℚ) / total)
      ≤ binary64 ((n : Int) : ℚ) * 1 := by gcongr
    _ ≤ n := by rw [mul_one]; exact hself

theorem totalOwed_pos (hpos : ∀ d ∈ owed, 0 < d.amount) (hd : d ∈ owed) : 0 < totalOwed owed := by
  refine sum_pos _ ?_ ?_
  · intro x hx
    obtain ⟨d', hd', rfl⟩ := mem_map.mp hx
    exact hpos d' hd'
  · exact ne_nil_of_mem (mem_map.mpr ⟨d, hd, rfl⟩)

/-- The float cap is exact enough for `w`: the round is not capped, or 53 bits hold what is
owed to `w`. -/
def CapExact (w : String) (unlocked : Int) (owed : List Dest) : Prop :=
  totalOwed owed > unlocked - feeReserveAtomic → ∀ d ∈ owed, d.wallet = w → d.amount ≤ 2 ^ 53

variable {share : Int → Int → Int → Int} {unlocked : Int}

theorem mem_payoutPlanBy (hshare : unlocked - feeReserveAtomic < totalOwed owed →
      ∀ d₀ ∈ owed, d₀.wallet = d.wallet →
        share (unlocked - feeReserveAtomic) (totalOwed owed) d₀.amount ≤ d₀.amount)
    (hd : d ∈ payoutPlanBy share cfg unlocked owed) :
    (d ∈ owed ∨ cfg.minPayoutAtomic ≤ d.amount)
      ∧ ∃ d₀ ∈ owed, d₀.wallet = d.wallet ∧ d.amount ≤ d₀.amount := by
  unfold payoutPlanBy at hd
  simp only at hd
  split at hd
  · cases hd
  · split at hd
    · rename_i hcapped
      obtain ⟨hmem, hmin⟩ := mem_filter.mp hd
      obtain ⟨d₀, hd₀, rfl⟩ := mem_map.mp hmem
      exact ⟨Or.inr (of_decide_eq_true hmin), d₀, hd₀, rfl, hshare hcapped d₀ hd₀ rfl⟩
    · exact ⟨Or.inl hd, d, hd, rfl, Int.le_refl _⟩

theorem mem_payoutPlan (hpos : ∀ d ∈ owed, 0 < d.amount) (hcap : CapExact d.wallet unlocked owed)
    (hd : d ∈ payoutPlan cfg unlocked owed) :
    ∃ d₀ ∈ owed, d₀.wallet = d.wallet ∧ d.amount ≤ d₀.amount := by
  refine (mem_payoutPlanBy (fun hcapped d₀ hd₀ hwallet => ?_) hd).2
  exact scaledShare_le hcapped (totalOwed_pos hpos hd₀) (hpos d₀ hd₀).le
    (hcap hcapped d₀ hd₀ hwallet)

theorem nodup_eligible {ds : List Dest} (h : (ds.map Dest.wallet).Nodup) :
    ((eligible cfg ds).map Dest.wallet).Nodup :=
  h.sublist (filter_sublist.map _)

theorem nodup_payoutPlanBy (h : (owed.map Dest.wallet).Nodup) :
    ((payoutPlanBy share cfg unlocked owed).map Dest.wallet).Nodup := by
  unfold payoutPlanBy
  simp only
  split
  · exact nodup_nil
  · split
    · refine nodup_eligible ?_
      rw [map_map]
      exact h
    · exact h

theorem sentTo_le_paidTo_payoutRows (dests : List Dest) (fee : Nat) (w : String) :
    sentTo dests w ≤ paidTo (payoutRows dests fee) w := by
  rw [paidTo, payoutRows, sumFor_map]
  refine sumFor_mono _ (fun d _ => ?_) w
  exact Int.le_add_of_nonneg_right (Int.natCast_nonneg _)

theorem paidTo_sweepRow_nonneg (cfg : Config) (amount : {a : Int // 0 < a}) (fee : Nat)
    (w : String) : 0 ≤ paidTo [sweepRow cfg amount fee] w := by
  rw [paidTo, sumFor_cons, sumFor_nil, Int.add_zero]
  split
  · exact Int.add_nonneg amount.2.le (Int.natCast_nonneg fee)
  · exact Int.le_refl 0

end Glaciem.Pool.Payout
