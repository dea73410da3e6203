import Glaciem.Faucet.Session
import Glaciem.Lib.Dict

/-!
# Glaciem — the payout daemon of the faucet

`process_claims` of `wordmine/payout/payout_daemon.py`, over the KV store and the wallet. Every
remote call is a step of its own with an answer that the environment chooses: a call can take effect
although its answer is lost, and can fail. The helpers of the daemon swallow failures of `kv_put`
and `kv_delete`, and turn a failed `kv_get` into a missing record.

Two fields of the state are proof-only: `issued`, the ids of all claims so far, and `transfers`, the
claim ids of the transfers the wallet has executed.
-/

namespace Glaciem.Faucet

open List

/-! ## The daemon -/

/-- `qkey.rsplit(':', 1)[-1]`, the id in a key `queue:<time>:<id>`. -/
def claimIdOf (qkey : String) : String :=
  String.ofList (qkey.toList.reverse.takeWhile (· ≠ ':')).reverse

/-- The stored value, nothing (also when the call fails), or a body that is not JSON, on which the
daemon raises. -/
inductive GetAnswer where
  | stored
  | failed
  | garbled
  deriving DecidableEq

/-- A result, an error (also when no reply arrives), or a reply on which the daemon raises. -/
inductive TransferAnswer where
  | result (txHash : String) (fee : Nat)
  | error (message : String)
  | raises
  deriving DecidableEq

inductive Phase where
  | idle
  | loop (keys : List String)
  | transferring (rec : ClaimRecord) (qkey : String) (keys : List String)
  | putting (rec : ClaimRecord) (qkey : String) (keys : List String)
  | deleting (qkey : String) (keys : List String)
  deriving DecidableEq

/-- The claim records and the daemon. A listing can be late or leave out keys, so any keys can be in
the queue. -/
structure DaemonState where
  claims : Dict String ClaimRecord := Dict.empty
  phase : Phase := .idle
  issued : List String := []
  transfers : List String := []
  deriving DecidableEq

inductive DaemonLabel where
  /-- the worker puts a claim record and its queue entry -/
  | claim (claimId : String) (rec : ClaimRecord)
  /-- the time to live of a record ends -/
  | expire (claimId : String)
  | list (keys : List String)
  | get (answer : GetAnswer)
  | transfer (executed : Bool) (answer : TransferAnswer)
  | put (applied : Bool)
  | delete
  /-- the daemon is stopped, and starts again -/
  | restart
  deriving DecidableEq

/-- What `process_claims` does with the record of a queue entry. -/
def dispatch (minPayout : Int) (qkey : String) (keys : List String) : Option ClaimRecord → Phase
  | none => .deleting qkey keys
  | some rec =>
    if rec.status ≠ .pending then .deleting qkey keys
    else if rec.amountAtomic < minPayout then
      .putting { rec with status := .failed, error := "below minimum payout" } qkey keys
    else .transferring rec qkey keys

/-- What `process_claims` does with the answer to a transfer. -/
def settle (rec : ClaimRecord) (qkey : String) (keys : List String) : TransferAnswer → Phase
  | .result txHash fee =>
    .putting { rec with status := .paid, txHash := txHash, fee := fee } qkey keys
  | .error message => .putting { rec with status := .failed, error := message } qkey keys
  | .raises => .idle

/-- A call of the daemon, by its phase, or something that happens beside it. -/
def daemonStep (minPayout : Int) (s : DaemonState) (l : DaemonLabel) : Option DaemonState :=
  match l, s.phase with
  | .claim claimId rec, _ =>
    -- ids are random, so a new claim has a new one
    if claimId ∈ s.issued ∨ rec.status ≠ .pending then none
    else some { s with claims := s.claims.set claimId rec, issued := claimId :: s.issued }
  | .expire claimId, _ => some { s with claims := s.claims.erase claimId }
  | .list keys, .idle =>
    if keys.length ≤ 20 then
      some { s with phase := if keys = [] then .idle else .loop keys }
    else none
  | .get answer, .loop (qkey :: keys) =>
    match answer with
    | .stored =>
      some { s with phase := dispatch minPayout qkey keys (s.claims.get? (claimIdOf qkey)) }
    | .failed => some { s with phase := dispatch minPayout qkey keys none }
    | .garbled => some { s with phase := .idle }
  | .transfer executed answer, .transferring rec qkey keys =>
    some { s with phase := settle rec qkey keys answer
                  transfers := if executed then claimIdOf qkey :: s.transfers else s.transfers }
  | .put applied, .putting rec qkey keys =>
    some { s with phase := .deleting qkey keys
                  claims := if applied then s.claims.set (claimIdOf qkey) rec else s.claims }
  | .delete, .deleting _ keys => some { s with phase := if keys = [] then .idle else .loop keys }
  | .restart, _ => some { s with phase := .idle }
  | _, _ => none

def daemon (minPayout : Int) : System DaemonState DaemonLabel := ⟨daemonStep minPayout⟩

/-! ## Each claim is paid once -/

/-- The daemon is about to write that the claim `claimId` is paid. -/
def Phase.Paying (claimId : String) : Phase → Prop
  | .putting rec qkey _ => rec.status = .paid ∧ claimIdOf qkey = claimId
  | _ => False

/-- A transfer that the wallet executes is answered with its result, the write of a paid record
takes effect, and the daemon is not stopped before it. -/
def Settled (s : DaemonState) : DaemonLabel → Prop
  | .transfer executed answer => executed = true → ∃ txHash fee, answer = .result txHash fee
  | .put applied => (∃ claimId, s.phase.Paying claimId) → applied = true
  | .restart => ¬ ∃ claimId, s.phase.Paying claimId
  | _ => True

def Phase.Agrees (s : DaemonState) : Phase → Prop
  | .transferring _ qkey _ => claimIdOf qkey ∈ s.issued ∧ claimIdOf qkey ∉ s.transfers
    ∧ ∀ rec, s.claims.get? (claimIdOf qkey) = some rec → rec.status ≠ .failed
  | .putting rec qkey _ => claimIdOf qkey ∈ s.issued ∧ rec.status ≠ .pending
    ∧ (rec.status = .failed → claimIdOf qkey ∉ s.transfers)
  | _ => True

/-- No claim was paid twice. A claim whose record is pending was not paid, up to the write that is
about to happen, and a failed one was not paid. -/
structure PaidOnce (s : DaemonState) : Prop where
  nodup : s.transfers.Nodup
  issued : ∀ id ∈ s.transfers, id ∈ s.issued
  keys : ∀ id rec, s.claims.get? id = some rec → id ∈ s.issued
  pending : ∀ id rec, s.claims.get? id = some rec → rec.status = .pending → id ∈ s.transfers →
    s.phase.Paying id
  failed : ∀ id rec, s.claims.get? id = some rec → rec.status = .failed → id ∉ s.transfers
  agrees : s.phase.Agrees s

theorem paidOnce_start : PaidOnce {} where
  nodup := nodup_nil
  issued id h := absurd h not_mem_nil
  keys id rec h := by cases h
  pending id rec h := by cases h
  failed id rec h := by cases h
  agrees := trivial

variable {s : DaemonState} {rec : ClaimRecord}

section

variable (hs : PaidOnce s)

include hs

theorem agrees_dispatch (hpaying : ∀ id, ¬ s.phase.Paying id) (minPayout : Int)
    (qkey : String) (keys : List String) :
    (dispatch minPayout qkey keys (s.claims.get? (claimIdOf qkey))).Agrees s := by
  cases hget : s.claims.get? (claimIdOf qkey) with
  | none => trivial
  | some rec =>
    -- the record is pending where it is used, so its claim was not paid
    have hunpaid : rec.status = .pending → claimIdOf qkey ∉ s.transfers := fun hpending hmem =>
      hpaying _ (hs.pending _ rec hget hpending hmem)
    simp only [dispatch]
    split_ifs with hstatus hamount
    · trivial
    · exact ⟨hs.keys _ rec hget, ClaimStatus.noConfusion, fun _ => hunpaid (not_not.mp hstatus)⟩
    · refine ⟨hs.keys _ rec hget, hunpaid (not_not.mp hstatus), fun rec' hget' => ?_⟩
      rw [hget, Option.some.injEq] at hget'
      rw [← hget', not_not.mp hstatus]
      exact ClaimStatus.noConfusion

theorem PaidOnce.setPhase (hpaying : ∀ id, ¬ s.phase.Paying id) {phase : Phase}
    (hagrees : phase.Agrees s) : PaidOnce { s with phase := phase } where
  nodup := hs.nodup
  issued := hs.issued
  keys := hs.keys
  pending id rec hget hstatus hmem := absurd (hs.pending id rec hget hstatus hmem) (hpaying id)
  failed := hs.failed
  agrees := by cases phase <;> exact hagrees

theorem PaidOnce.claim {claimId : String} (hnew : claimId ∉ s.issued) :
    PaidOnce { s with claims := s.claims.set claimId rec, issued := claimId :: s.issued } := by
  -- the other claims keep their records
  have hold : ∀ id, id ∈ s.issued → (s.claims.set claimId rec).get? id = s.claims.get? id :=
    fun id hid => Dict.get?_set_ne _ _ fun h => hnew (h ▸ hid)
  refine ⟨hs.nodup, fun id hid => mem_cons_of_mem _ (hs.issued id hid), ?_, ?_, ?_, ?_⟩
  · intro id rec' hget
    by_cases hid : id = claimId
    · exact hid ▸ mem_cons_self
    · rw [Dict.get?_set_ne _ _ hid] at hget
      exact mem_cons_of_mem _ (hs.keys id rec' hget)
  · intro id rec' hget hstatus hmem
    rw [hold id (hs.issued id hmem)] at hget
    exact hs.pending id rec' hget hstatus hmem
  · intro id rec' hget hstatus hmem
    rw [hold id (hs.issued id hmem)] at hget
    exact hs.failed id rec' hget hstatus hmem
  · have hagrees := hs.agrees
    cases hphase : s.phase with
    | transferring rec' qkey keys =>
      rw [hphase] at hagrees
      obtain ⟨hissued, hunpaid, hstored⟩ := hagrees
      refine ⟨mem_cons_of_mem _ hissued, hunpaid, fun rec'' hget => ?_⟩
      rw [hold _ hissued] at hget
      exact hstored rec'' hget
    | putting rec' qkey keys =>
      rw [hphase] at hagrees
      exact ⟨mem_cons_of_mem _ hagrees.1, hagrees.2⟩
    | _ => trivial

theorem PaidOnce.expire (claimId : String) :
    PaidOnce { s with claims := s.claims.erase claimId } := by
  have hold : ∀ id rec, (s.claims.erase claimId).get? id = some rec →
      s.claims.get? id = some rec := by
    intro id rec hget
    by_cases hid : id = claimId
    · rw [hid, Dict.get?_erase_self] at hget
      cases hget
    · rwa [Dict.get?_erase_ne _ hid] at hget
  refine ⟨hs.nodup, hs.issued, fun id rec hget => hs.keys id rec (hold id rec hget),
    fun id rec hget => hs.pending id rec (hold id rec hget),
    fun id rec hget => hs.failed id rec (hold id rec hget), ?_⟩
  have hagrees := hs.agrees
  cases hphase : s.phase with
  | transferring rec qkey keys =>
    rw [hphase] at hagrees
    exact ⟨hagrees.1, hagrees.2.1, fun rec' hget => hagrees.2.2 rec' (hold _ rec' hget)⟩
  | putting rec qkey keys =>
    rw [hphase] at hagrees
    exact hagrees
  | _ => trivial

theorem PaidOnce.transfer {qkey : String} {keys : List String}
    (hphase : s.phase = .transferring rec qkey keys) {executed : Bool} {answer : TransferAnswer}
    (hsettled : executed = true → ∃ txHash fee, answer = .result txHash fee) :
    PaidOnce { s with phase := settle rec qkey keys answer
                      transfers := if executed then claimIdOf qkey :: s.transfers
                        else s.transfers } := by
  have hagrees := hs.agrees
  rw [hphase] at hagrees
  obtain ⟨hissued, hunpaid, hstored⟩ := hagrees
  have hpaying : ∀ id, ¬ s.phase.Paying id := by
    intro id h
    rw [hphase] at h
    exact h
  cases executed with
  | false =>
    refine hs.setPhase hpaying ?_
    cases answer with
    | result txHash fee => exact ⟨hissued, ClaimStatus.noConfusion, ClaimStatus.noConfusion⟩
    | error message => exact ⟨hissued, ClaimStatus.noConfusion, fun _ => hunpaid⟩
    | raises => trivial
  | true =>
    obtain ⟨txHash, fee, rfl⟩ := hsettled rfl
    refine ⟨nodup_cons.mpr ⟨hunpaid, hs.nodup⟩, ?_, hs.keys, ?_, ?_, ?_⟩
    · exact forall_mem_cons.mpr ⟨hissued, hs.issued⟩
    · -- the claim just paid is the one whose record is written next
      intro id rec' hget hstatus hmem
      rcases mem_cons.mp hmem with rfl | hold
      · exact ⟨rfl, rfl⟩
      · exact absurd (hs.pending id rec' hget hstatus hold) (hpaying id)
    · intro id rec' hget hstatus hmem
      rcases mem_cons.mp hmem with rfl | hold
      · exact hstored rec' hget hstatus
      · exact hs.failed id rec' hget hstatus hold
    · exact ⟨hissued, ClaimStatus.noConfusion, ClaimStatus.noConfusion⟩

theorem PaidOnce.put {qkey : String} {keys : List String}
    (hphase : s.phase = .putting rec qkey keys) {applied : Bool}
    (hsettled : rec.status = .paid → applied = true) :
    PaidOnce { s with phase := .deleting qkey keys
                      claims := if applied then s.claims.set (claimIdOf qkey) rec
                        else s.claims } := by
  have hagrees := hs.agrees
  rw [hphase] at hagrees
  obtain ⟨hissued, hpending, hfailed⟩ := hagrees
  -- a paid claim whose record is pending is the one in hand
  have hinhand : ∀ id rec', s.claims.get? id = some rec' → rec'.status = .pending →
      id ∈ s.transfers → rec.status = .paid ∧ claimIdOf qkey = id := by
    intro id rec' hget hstatus hmem
    have hpaying := hs.pending id rec' hget hstatus hmem
    rw [hphase] at hpaying
    exact hpaying
  cases applied with
  | false =>
    refine ⟨hs.nodup, hs.issued, hs.keys, fun id rec' hget hstatus hmem => ?_, hs.failed, trivial⟩
    exact absurd (hsettled (hinhand id rec' hget hstatus hmem).1) Bool.false_ne_true
  | true =>
    -- the stored records are the one just written and the others
    have hcases : ∀ id rec', (s.claims.set (claimIdOf qkey) rec).get? id = some rec' →
        id = claimIdOf qkey ∧ rec' = rec ∨ id ≠ claimIdOf qkey ∧ s.claims.get? id = some rec' := by
      intro id rec' hget
      by_cases hid : id = claimIdOf qkey
      · rw [hid, Dict.get?_set_self, Option.some.injEq] at hget
        exact .inl ⟨hid, hget.symm⟩
      · rw [Dict.get?_set_ne _ _ hid] at hget
        exact .inr ⟨hid, hget⟩
    refine ⟨hs.nodup, hs.issued, fun id rec' hget => ?_, fun id rec' hget hstatus hmem => ?_,
      fun id rec' hget hstatus hmem => ?_, trivial⟩
    · rcases hcases id rec' hget with ⟨rfl, -⟩ | ⟨-, hold⟩
      · exact hissued
      · exact hs.keys id rec' hold
    · rcases hcases id rec' hget with ⟨-, rfl⟩ | ⟨hid, hold⟩
      · exact absurd hstatus hpending
      · exact absurd (hinhand id rec' hold hstatus hmem).2.symm hid
    · rcases hcases id rec' hget with ⟨rfl, rfl⟩ | ⟨-, hold⟩
      · exact hfailed hstatus hmem
      · exact hs.failed id rec' hold hstatus hmem

theorem PaidOnce.loop (hpaying : ∀ id, ¬ s.phase.Paying id) (keys : List String) :
    PaidOnce { s with phase := if keys = [] then .idle else .loop keys } := by
  refine hs.setPhase hpaying ?_
  by_cases hkeys : keys = []
  · rw [if_pos hkeys]
    trivial
  · rw [if_neg hkeys]
    trivial

theorem PaidOnce.step {minPayout : Int} {s' : DaemonState} {l : DaemonLabel}
    (hsettled : Settled s l) (hstep : daemonStep minPayout s l = some s') : PaidOnce s' := by
  have hnot : ∀ {phase : Phase}, s.phase = phase → (∀ id, ¬ phase.Paying id) →
      ∀ id, ¬ s.phase.Paying id := fun hphase h => hphase ▸ h
  unfold daemonStep at hstep
  split at hstep
  · -- a new claim
    split_ifs at hstep with hold
    cases hstep
    exact hs.claim (not_or.mp hold).1
  · cases hstep
    exact hs.expire _
  · rename_i keys hphase
    split at hstep
    · cases hstep
      exact hs.loop (hnot hphase fun _ h => h) keys
    · cases hstep
  · rename_i answer qkey keys hphase
    have hpaying := hnot hphase fun _ h => h
    cases answer with
    | stored =>
      cases hstep
      exact hs.setPhase hpaying (agrees_dispatch hs hpaying minPayout qkey keys)
    | failed | garbled =>
      cases hstep
      exact hs.setPhase hpaying trivial
  · rename_i executed answer rec qkey keys hphase
    cases hstep
    exact hs.transfer hphase hsettled
  · rename_i applied rec qkey keys hphase
    cases hstep
    refine hs.put hphase fun hpaid => hsettled ⟨claimIdOf qkey, ?_⟩
    rw [hphase]
    exact ⟨hpaid, rfl⟩
  · rename_i qkey keys hphase
    cases hstep
    exact hs.loop (hnot hphase fun _ h => h) keys
  · cases hstep
    exact hs.setPhase (not_exists.mp hsettled) trivial
  · cases hstep

end

/-- In every run in which executed transfers are answered and their records written, each claim is
paid at most once and a failed one never. -/
theorem claims_paid_once_of_run (minPayout : Int) (ls : List DaemonLabel) (s : DaemonState)
    (hmeets : (daemon minPayout).Meets Settled {} ls)
    (hrun : (daemon minPayout).exec {} ls = some s) :
    (∀ id, s.transfers.count id ≤ 1)
      ∧ ∀ id rec, s.claims.get? id = some rec → rec.status = .failed → id ∉ s.transfers := by
  have hpaid : PaidOnce s := (daemon minPayout).invariant_of_meets
    (fun h hsettled hstep => h.step hsettled hstep) paidOnce_start hmeets hrun
  exact ⟨nodup_iff_count_le_one.mp hpaid.nodup, hpaid.failed⟩

def sampleClaim : ClaimRecord where
  address := sampleAddress
  amount := 0
  amountAtomic := 2000
  createdAt := 0

instance (phase : Phase) : Decidable (∃ claimId, phase.Paying claimId) :=
  match phase with
  | .putting rec qkey _ => decidable_of_iff (rec.status = .paid)
      ⟨fun h => ⟨claimIdOf qkey, h, rfl⟩, fun ⟨_, h, _⟩ => h⟩
  | .idle | .loop _ | .transferring _ _ _ | .deleting _ _ => isFalse fun ⟨_, h⟩ => h

instance (s : DaemonState) : (l : DaemonLabel) → Decidable (Settled s l)
  | .transfer false _ => isTrue fun h => by cases h
  | .transfer true (.result txHash fee) => isTrue fun _ => ⟨txHash, fee, rfl⟩
  | .transfer true (.error _) => isFalse fun h => by
      obtain ⟨_, _, heq⟩ := h rfl
      cases heq
  | .transfer true .raises => isFalse fun h => by
      obtain ⟨_, _, heq⟩ := h rfl
      cases heq
  | .put applied => inferInstanceAs (Decidable (_ → applied = true))
  | .restart => inferInstanceAs (Decidable (¬ _))
  | .claim _ _ | .expire _ | .list _ | .get _ | .delete => isTrue trivial

def settledRun : List DaemonLabel :=
  [.claim "c_1" sampleClaim, .list ["queue:0:c_1"], .get .stored, .transfer true (.result "tx" 1),
    .put true, .delete, .restart, .list ["queue:0:c_1"], .get .stored, .delete]

theorem claims_paid_once_of_run_sample : ∃ s : DaemonState,
    (daemon 1000).exec {} settledRun = some s ∧ s.transfers = ["c_1"]
      ∧ ∀ id, s.transfers.count id ≤ 1 := by
  have hcheck : ((daemon 1000).execChecked (fun s l => decide (Settled s l)) {} settledRun).map
      (fun s => s.transfers) = some ["c_1"] := by
    decide +kernel
  obtain ⟨s, hrun, hmeets, htransfers⟩ :=
    (daemon 1000).exists_of_checked (fun _ _ => of_decide_eq_true) hcheck
  exact ⟨s, hrun, htransfers, (claims_paid_once_of_run 1000 settledRun s hmeets hrun).1⟩

def lostReplyRun : List DaemonLabel :=
  [.claim "c_1" sampleClaim, .list ["queue:0:c_1"], .get .stored,
    .transfer true (.error "http 0: timed out"), .put true, .delete]

def lostPutRun : List DaemonLabel :=
  [.claim "c_1" sampleClaim, .list ["queue:0:c_1"], .get .stored, .transfer true (.result "tx" 1),
    .put false, .delete, .list ["queue:0:c_1"], .get .stored, .transfer true (.result "tx2" 1)]

/-- A claim that is recorded as failed and was transferred, and one that is paid twice. -/
theorem claim_paid_and_failed :
    (∃ s : DaemonState, (daemon 1000).exec {} lostReplyRun = some s ∧ s.transfers = ["c_1"]
      ∧ (s.claims.get? "c_1").map (fun rec => rec.status) = some .failed)
      ∧ ∃ s : DaemonState, (daemon 1000).exec {} lostPutRun = some s
        ∧ s.transfers = ["c_1", "c_1"] := by
  have hreply : ((daemon 1000).exec {} lostReplyRun).map (fun s => (s.transfers,
      (s.claims.get? "c_1").map (fun rec => rec.status))) = some (["c_1"], some .failed) := by
    decide +kernel
  have hput : ((daemon 1000).exec {} lostPutRun).map (fun s => s.transfers)
      = some ["c_1", "c_1"] := by
    decide +kernel
  obtain ⟨s, hs, hfacts⟩ := Option.map_eq_some_iff.mp hreply
  exact ⟨⟨s, hs, (Prod.mk.inj hfacts).1, (Prod.mk.inj hfacts).2⟩, Option.map_eq_some_iff.mp hput⟩

end Glaciem.Faucet
