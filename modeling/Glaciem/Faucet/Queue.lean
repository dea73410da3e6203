import Glaciem.Faucet.PayoutDaemon

/-!
# Glaciem — the queue of the payout daemon

The daemon of `Faucet.PayoutDaemon` together with the `queue:` keys in KV. The worker puts the
record of a claim and then an entry of the queue for it, both for a day; the daemon deletes an entry
when it takes its claim for settled.

* `queues` — the daemon, the worker and the entries as a transition system. A listing is of entries
  that were written at some time.
-/

namespace Glaciem.Faucet

open List

/-! ## The daemon with its queue -/

def queueKey (time : Nat) (claimId : String) : String := "queue:" ++ toString time ++ ":" ++ claimId

/-- The daemon and the keys of the queue. `written` is proof-only: all keys that were put so far. -/
structure QueueState where
  daemon : DaemonState := {}
  queue : List String := []
  written : List String := []
  deriving DecidableEq

inductive QueueLabel where
  /-- the worker puts the entry of a claim, whose record it has put before -/
  | enqueue (time : Nat) (claimId : String)
  /-- the time to live of an entry ends, which is not before that of the record put before it -/
  | expireEntry (qkey : String)
  | list (keys : List String)
  | delete (applied : Bool)
  /-- a new claim, the expiry of a record, a restart, or another call of the daemon -/
  | other (l : DaemonLabel)
  deriving DecidableEq

def DaemonState.Pending (s : DaemonState) (claimId : String) : Prop :=
  ∃ rec, s.claims.get? claimId = some rec ∧ rec.status = .pending

instance (s : DaemonState) (claimId : String) : Decidable (s.Pending claimId) :=
  decidable_of_iff ((s.claims.get? claimId).any (fun rec => decide (rec.status = .pending)) = true)
    (by simp [DaemonState.Pending, Option.any_eq_true])

def queueStep (minPayout : Int) (s : QueueState) : QueueLabel → Option QueueState
  | .enqueue time claimId =>
    -- ids are made of letters, digits and an underscore
    if claimId ∈ s.daemon.issued ∧ ':' ∉ claimId.toList then
      some { s with queue := queueKey time claimId :: s.queue
                    written := queueKey time claimId :: s.written }
    else none
  | .expireEntry qkey =>
    if s.daemon.Pending (claimIdOf qkey) then none
    else some { s with queue := s.queue.filter (· ≠ qkey) }
  | .list keys =>
    if ∀ key ∈ keys, key ∈ s.written then
      (daemonStep minPayout s.daemon (.list keys)).map fun d => { s with daemon := d }
    else none
  | .delete applied =>
    match s.daemon.phase with
    | .deleting qkey _ =>
      (daemonStep minPayout s.daemon .delete).map fun d =>
        { s with daemon := d
                 queue := if applied then s.queue.filter (· ≠ qkey) else s.queue }
    | _ => none
  | .other l =>
    match l with
    | .list _ | .delete => none
    | l => (daemonStep minPayout s.daemon l).map fun d => { s with daemon := d }

def queues (minPayout : Int) : System QueueState QueueLabel := ⟨queueStep minPayout⟩

/-! ## Entries are not dropped -/

def Phase.keys : Phase → List String
  | .idle => []
  | .loop keys => keys
  | .transferring _ qkey keys | .putting _ qkey keys | .deleting qkey keys => qkey :: keys

/-- A read of a record that is pending does not fail, and neither does a write over one. -/
def Heard (s : QueueState) : QueueLabel → Prop
  | .other (.get .failed) =>
    ∀ qkey keys, s.daemon.phase = .loop (qkey :: keys) → ¬ s.daemon.Pending (claimIdOf qkey)
  | .other (.put false) =>
    ∀ rec qkey keys, s.daemon.phase = .putting rec qkey keys → ¬ s.daemon.Pending (claimIdOf qkey)
  | _ => True

def Phase.Safe (s : DaemonState) : Phase → Prop
  | .putting rec _ _ => rec.status ≠ .pending
  | .deleting qkey _ => ¬ s.Pending (claimIdOf qkey)
  | _ => True

/-- An entry is deleted only when its record is not pending, and a pending record has its entries.
-/
structure Retained (s : QueueState) : Prop where
  issued : ∀ qkey ∈ s.written, claimIdOf qkey ∈ s.daemon.issued
  listed : ∀ qkey ∈ s.daemon.phase.keys, qkey ∈ s.written
  safe : s.daemon.phase.Safe s.daemon
  queued : ∀ qkey ∈ s.written, s.daemon.Pending (claimIdOf qkey) → qkey ∈ s.queue

theorem claimIdOf_queueKey (time : Nat) {claimId : String} (h : ':' ∉ claimId.toList) :
    claimIdOf (queueKey time claimId) = claimId := by
  have hid : ∀ c ∈ claimId.toList.reverse, decide (c ≠ ':') = true := by
    intro c hc
    refine decide_eq_true fun hcolon => h ?_
    rw [← hcolon]
    exact mem_reverse.mp hc
  unfold claimIdOf queueKey
  rw [String.toList_append, String.toList_append, reverse_append, reverse_append,
    takeWhile_append_of_pos hid]
  simp

theorem retained_start : Retained {} where
  issued _ h := absurd h not_mem_nil
  listed _ h := absurd h not_mem_nil
  safe := trivial
  queued _ h := absurd h not_mem_nil

section Steps

variable {minPayout : Int} {s : QueueState} {d : DaemonState}

theorem Retained.setDaemon (h : Retained s) (hissued : s.daemon.issued ⊆ d.issued)
    (hkeys : ∀ qkey ∈ d.phase.keys, qkey ∈ s.written) (hsafe : d.phase.Safe d)
    (hpending : ∀ qkey ∈ s.written, d.Pending (claimIdOf qkey) →
      s.daemon.Pending (claimIdOf qkey)) : Retained { s with daemon := d } where
  issued qkey hqkey := hissued (h.issued qkey hqkey)
  listed := hkeys
  safe := hsafe
  queued qkey hqkey hp := h.queued qkey hqkey (hpending qkey hqkey hp)

theorem Retained.setPhase (h : Retained s) {phase : Phase}
    (hkeys : phase.keys ⊆ s.daemon.phase.keys)
    (hsafe : phase.Safe s.daemon) :
    Retained { s with daemon := { s.daemon with phase := phase } } :=
  h.setDaemon (Subset.refl _) (fun qkey hqkey => h.listed qkey (hkeys hqkey))
    (by cases phase <;> exact hsafe) fun _ _ hp => hp

theorem Phase.Safe.of_pending {d' : DaemonState} {phase : Phase} (h : phase.Safe d)
    (hpending : ∀ qkey ∈ phase.keys, d'.Pending (claimIdOf qkey) → d.Pending (claimIdOf qkey)) :
    phase.Safe d' := by
  cases phase with
  | putting rec qkey keys => exact h
  | deleting qkey keys => exact fun hp => h (hpending qkey mem_cons_self hp)
  | _ => trivial

theorem Retained.enqueue (h : Retained s) (time : Nat) {claimId : String}
    (hissued : claimId ∈ s.daemon.issued) (hid : ':' ∉ claimId.toList) :
    Retained { s with queue := queueKey time claimId :: s.queue
                      written := queueKey time claimId :: s.written } where
  issued := forall_mem_cons.mpr ⟨(claimIdOf_queueKey time hid).symm ▸ hissued, h.issued⟩
  listed qkey hqkey := mem_cons_of_mem _ (h.listed qkey hqkey)
  safe := h.safe
  queued := forall_mem_cons.mpr ⟨fun _ => mem_cons_self,
    fun qkey hqkey hp => mem_cons_of_mem _ (h.queued qkey hqkey hp)⟩

theorem Retained.filter (h : Retained s) {qkey : String}
    (hsettled : ¬ s.daemon.Pending (claimIdOf qkey)) :
    Retained { s with queue := s.queue.filter (· ≠ qkey) } where
  issued := h.issued
  listed := h.listed
  safe := h.safe
  queued qkey' hqkey' hp := by
    refine mem_filter.mpr ⟨h.queued qkey' hqkey' hp, decide_eq_true ?_⟩
    rintro rfl
    exact hsettled hp

theorem safe_loop (keys : List String) :
    (if keys = [] then Phase.idle else .loop keys).Safe d
      ∧ (if keys = [] then Phase.idle else .loop keys).keys = keys := by
  by_cases hkeys : keys = []
  · rw [if_pos hkeys, hkeys]
    exact ⟨trivial, rfl⟩
  · rw [if_neg hkeys]
    exact ⟨trivial, rfl⟩

theorem safe_dispatch (minPayout : Int) {qkey : String} (keys : List String)
    {found : Option ClaimRecord}
    (hfound : found = d.claims.get? (claimIdOf qkey)
      ∨ found = none ∧ ¬ d.Pending (claimIdOf qkey)) :
    (dispatch minPayout qkey keys found).Safe d
      ∧ (dispatch minPayout qkey keys found).keys = qkey :: keys := by
  cases found with
  | none =>
    refine ⟨?_, rfl⟩
    rcases hfound with hfound | ⟨-, hsettled⟩
    · rintro ⟨rec, hrec, -⟩
      rw [← hfound] at hrec
      cases hrec
    · exact hsettled
  | some rec =>
    have hstored := hfound.resolve_right (fun hnone => by cases hnone.1)
    unfold dispatch
    dsimp only
    split
    · next hstatus =>
      refine ⟨?_, rfl⟩
      rintro ⟨rec', hrec', hpending⟩
      rw [← hstored] at hrec'
      cases hrec'
      exact hstatus hpending
    · split
      · exact ⟨ClaimStatus.noConfusion, rfl⟩
      · exact ⟨trivial, rfl⟩

theorem Retained.claim (h : Retained s) {claimId : String} (rec : ClaimRecord)
    (hnew : claimId ∉ s.daemon.issued) :
    Retained { s with daemon := { s.daemon with
      claims := s.daemon.claims.set claimId rec, issued := claimId :: s.daemon.issued } } := by
  have hpending : ∀ qkey ∈ s.written, DaemonState.Pending { s.daemon with
      claims := s.daemon.claims.set claimId rec, issued := claimId :: s.daemon.issued }
        (claimIdOf qkey) → s.daemon.Pending (claimIdOf qkey) := by
    rintro qkey hqkey ⟨rec', hrec', hstatus⟩
    have hne : claimIdOf qkey ≠ claimId := fun heq => hnew (heq ▸ h.issued qkey hqkey)
    exact ⟨rec', (Dict.get?_set_ne _ _ hne).symm.trans hrec', hstatus⟩
  refine h.setDaemon (subset_cons_self _ _) h.listed ?_ hpending
  exact h.safe.of_pending fun qkey hqkey => hpending qkey (h.listed qkey hqkey)

theorem Retained.expire (h : Retained s) (claimId : String) :
    Retained { s with daemon := { s.daemon with claims := s.daemon.claims.erase claimId } } := by
  have hpending : ∀ qkey, DaemonState.Pending { s.daemon with
      claims := s.daemon.claims.erase claimId } (claimIdOf qkey) →
        s.daemon.Pending (claimIdOf qkey) := by
    rintro qkey ⟨rec, hrec, hstatus⟩
    by_cases hid : claimIdOf qkey = claimId
    · exact absurd ((congrArg _ hid).trans (Dict.get?_erase_self _ _) |>.symm.trans hrec) (by simp)
    · exact ⟨rec, (Dict.get?_erase_ne _ hid).symm.trans hrec, hstatus⟩
  refine h.setDaemon (Subset.refl _) h.listed ?_ fun qkey _ => hpending qkey
  exact h.safe.of_pending fun qkey _ => hpending qkey

theorem Retained.put (h : Retained s) {rec : ClaimRecord} {qkey : String} {keys : List String}
    (hphase : s.daemon.phase = .putting rec qkey keys) {applied : Bool}
    (hheard : applied = false → ¬ s.daemon.Pending (claimIdOf qkey)) :
    Retained { s with daemon := { s.daemon with
      phase := .deleting qkey keys
      claims := if applied then s.daemon.claims.set (claimIdOf qkey) rec else s.daemon.claims }
        } := by
  have hsafe := h.safe
  have hlisted := h.listed
  rw [hphase] at hsafe hlisted
  cases applied with
  | false => exact h.setDaemon (Subset.refl _) hlisted (hheard rfl) fun _ _ hp => hp
  | true =>
    refine h.setDaemon (Subset.refl _) hlisted ?_ ?_
    · rintro ⟨rec', hrec', hpending⟩
      cases (Dict.get?_set_self _ _ _).symm.trans hrec'
      exact hsafe hpending
    · rintro qkey' - ⟨rec', hrec', hpending⟩
      by_cases hid : claimIdOf qkey' = claimIdOf qkey
      · cases ((congrArg _ hid).trans (Dict.get?_set_self _ _ _)).symm.trans hrec'
        exact absurd hpending hsafe
      · exact ⟨rec', (Dict.get?_set_ne _ _ hid).symm.trans hrec', hpending⟩

theorem Retained.other (h : Retained s) {l : DaemonLabel} (hheard : Heard s (.other l))
    (hlist : ∀ keys, l ≠ .list keys) (hdelete : l ≠ .delete)
    (hstep : daemonStep minPayout s.daemon l = some d) : Retained { s with daemon := d } := by
  unfold daemonStep at hstep
  split at hstep
  · split_ifs at hstep with hold
    cases hstep
    exact h.claim _ (not_or.mp hold).1
  · cases hstep
    exact h.expire _
  · next keys _ => exact absurd rfl (hlist keys)
  · next answer qkey keys hphase =>
    have hkeys : s.daemon.phase.keys = qkey :: keys := by rw [hphase]; rfl
    cases answer with
    | stored =>
      cases hstep
      obtain ⟨hsafe, hsame⟩ := safe_dispatch minPayout keys (.inl rfl)
      exact h.setPhase (hkeys ▸ hsame ▸ Subset.refl _) hsafe
    | failed =>
      cases hstep
      obtain ⟨hsafe, hsame⟩ := safe_dispatch minPayout keys
        (.inr ⟨rfl, hheard qkey keys hphase⟩)
      exact h.setPhase (hkeys ▸ hsame ▸ Subset.refl _) hsafe
    | garbled =>
      cases hstep
      exact h.setPhase (nil_subset _) trivial
  · next executed answer rec qkey keys hphase =>
    have hkeys : s.daemon.phase.keys = qkey :: keys := by rw [hphase]; rfl
    cases hstep
    refine h.setDaemon (Subset.refl _) ?_ ?_ fun _ _ hp => hp
    · intro qkey' hqkey'
      refine h.listed qkey' (hkeys ▸ ?_)
      cases answer with
      | raises => cases hqkey'
      | _ => exact hqkey'
    · cases answer with
      | raises => trivial
      | _ => exact ClaimStatus.noConfusion
  · next applied rec qkey keys hphase =>
    cases hstep
    refine h.put hphase fun hlost => ?_
    subst hlost
    exact hheard rec qkey keys hphase
  · exact absurd rfl hdelete
  · cases hstep
    exact h.setPhase (nil_subset _) trivial
  · cases hstep

theorem daemonStep_list {s : DaemonState} {keys : List String}
    (h : daemonStep minPayout s (.list keys) = some d) :
    d = { s with phase := if keys = [] then .idle else .loop keys } := by
  unfold daemonStep at h
  cases hphase : s.phase with
  | idle =>
    rw [hphase] at h
    dsimp only at h
    split at h
    · cases h
      rfl
    · cases h
  | _ =>
    rw [hphase] at h
    cases h

theorem Retained.step {l : QueueLabel} {s' : QueueState} (h : Retained s) (hheard : Heard s l)
    (hstep : queueStep minPayout s l = some s') : Retained s' := by
  cases l with
  | enqueue time claimId =>
    rw [queueStep] at hstep
    split_ifs at hstep with hclaim
    cases hstep
    exact h.enqueue time hclaim.1 hclaim.2
  | expireEntry qkey =>
    rw [queueStep] at hstep
    split_ifs at hstep with hpending
    cases hstep
    exact h.filter hpending
  | list keys =>
    rw [queueStep] at hstep
    split_ifs at hstep with hwritten
    obtain ⟨d, hd, rfl⟩ := Option.map_eq_some_iff.mp hstep
    obtain ⟨hsafe, hkeys⟩ := safe_loop (d := s.daemon) keys
    rw [daemonStep_list hd]
    refine h.setDaemon (Subset.refl _) (fun qkey hqkey => ?_) ?_ fun _ _ hp => hp
    · exact hwritten qkey (hkeys ▸ hqkey)
    · exact hsafe.of_pending fun _ _ hp => hp
  | delete applied =>
    rw [queueStep] at hstep
    split at hstep
    · next qkey keys hphase =>
      obtain ⟨d, hd, rfl⟩ := Option.map_eq_some_iff.mp hstep
      obtain ⟨hsafe, hkeys⟩ := safe_loop (d := s.daemon) keys
      have hsettled : ¬ s.daemon.Pending (claimIdOf qkey) := by
        have hphaseSafe := h.safe
        rw [hphase] at hphaseSafe
        exact hphaseSafe
      have hnext : Retained { s with daemon := d } := by
        unfold daemonStep at hd
        rw [hphase] at hd
        cases hd
        refine h.setPhase ?_ hsafe
        rw [hkeys, hphase]
        exact subset_cons_self _ _
      cases applied with
      | false => exact hnext
      | true =>
        have hsame : d.Pending (claimIdOf qkey) ↔ s.daemon.Pending (claimIdOf qkey) := by
          unfold daemonStep at hd
          rw [hphase] at hd
          cases hd
          rfl
        exact hnext.filter (hsame.not.mpr hsettled)
    · cases hstep
  | other l =>
    unfold queueStep at hstep
    dsimp only at hstep
    split at hstep
    · cases hstep
    · cases hstep
    · next hlist hdelete =>
      obtain ⟨d, hd, rfl⟩ := Option.map_eq_some_iff.mp hstep
      exact h.other hheard hlist hdelete hd

end Steps

/-- In every run in which no read of a pending record fails and no write over one is lost: an entry
that is about to be deleted has a record that is absent or final, and a pending claim keeps its
entries. -/
theorem pending_claims_queued_of_run (minPayout : Int) (ls : List QueueLabel) (s : QueueState)
    (hmeets : (queues minPayout).Meets Heard {} ls)
    (hrun : (queues minPayout).exec {} ls = some s) :
    (∀ qkey keys, s.daemon.phase = .deleting qkey keys →
        s.daemon.claims.get? (claimIdOf qkey) = none
          ∨ ∃ rec, s.daemon.claims.get? (claimIdOf qkey) = some rec
            ∧ (rec.status = .paid ∨ rec.status = .failed))
      ∧ ∀ qkey ∈ s.written, ∀ rec, s.daemon.claims.get? (claimIdOf qkey) = some rec →
        rec.status = .pending → qkey ∈ s.queue := by
  have hretained : Retained s := (queues minPayout).invariant_of_meets
    (fun h hheard hstep => h.step hheard hstep) retained_start hmeets hrun
  constructor
  · intro qkey keys hphase
    have hsafe := hretained.safe
    rw [hphase] at hsafe
    cases hrec : s.daemon.claims.get? (claimIdOf qkey) with
    | none => exact .inl rfl
    | some rec =>
      refine .inr ⟨rec, rfl, ?_⟩
      cases hstatus : rec.status with
      | pending => exact absurd ⟨rec, hrec, hstatus⟩ hsafe
      | paid => exact .inl rfl
      | failed => exact .inr rfl
  · exact fun qkey hqkey rec hrec hstatus => hretained.queued qkey hqkey ⟨rec, hrec, hstatus⟩

instance (s : QueueState) : (l : QueueLabel) → Decidable (Heard s l)
  | .other (.get .failed) =>
    match hphase : s.daemon.phase with
    | .loop (qkey :: keys) => decidable_of_iff (¬ s.daemon.Pending (claimIdOf qkey)) (by
        simp only [Heard, hphase, Phase.loop.injEq, cons.injEq]
        exact ⟨fun h q k hq => hq.1 ▸ h, fun h => h qkey keys ⟨rfl, rfl⟩⟩)
    | .loop [] | .idle | .transferring _ _ _ | .putting _ _ _ | .deleting _ _ =>
      isTrue fun _ _ h => by rw [hphase] at h; cases h
  | .other (.put false) =>
    match hphase : s.daemon.phase with
    | .putting rec qkey keys => decidable_of_iff (¬ s.daemon.Pending (claimIdOf qkey)) (by
        simp only [Heard, hphase, Phase.putting.injEq]
        exact ⟨fun h r q k hq => hq.2.1 ▸ h, fun h => h rec qkey keys ⟨rfl, rfl, rfl⟩⟩)
    | .idle | .loop _ | .transferring _ _ _ | .deleting _ _ =>
      isTrue fun _ _ _ h => by rw [hphase] at h; cases h
  | .other (.put true) | .other (.get .stored) | .other (.get .garbled) | .other (.claim _ _)
  | .other (.expire _) | .other (.list _) | .other (.transfer _ _) | .other .delete
  | .other .restart | .enqueue _ _ | .expireEntry _ | .list _ | .delete _ => isTrue trivial

def heardRun : List QueueLabel :=
  [.other (.claim "c_1" sampleClaim), .enqueue 5 "c_1", .other (.claim "c_2" sampleClaim),
    .enqueue 6 "c_2", .list ["queue:5:c_1", "queue:6:c_2"], .other (.get .stored),
    .other (.transfer true (.result "tx" 1)), .other (.put true), .delete true,
    .other (.get .stored), .other (.transfer true .raises)]

theorem pending_claims_queued_of_run_sample : ∃ s : QueueState,
    (queues 1000).exec {} heardRun = some s ∧ s.queue = ["queue:6:c_2"]
      ∧ ∀ qkey ∈ s.written, ∀ rec, s.daemon.claims.get? (claimIdOf qkey) = some rec →
        rec.status = .pending → qkey ∈ s.queue := by
  have hcheck : ((queues 1000).execChecked (fun s l => decide (Heard s l)) {} heardRun).map
      (fun s => s.queue) = some ["queue:6:c_2"] := by
    decide +kernel
  obtain ⟨s, hrun, hmeets, hqueue⟩ :=
    (queues 1000).exists_of_checked (fun _ _ => of_decide_eq_true) hcheck
  exact ⟨s, hrun, hqueue, (pending_claims_queued_of_run 1000 heardRun s hmeets hrun).2⟩

def failedGetRun : List QueueLabel :=
  [.other (.claim "c_1" sampleClaim), .enqueue 5 "c_1", .list ["queue:5:c_1"],
    .other (.get .failed), .delete true]

def failedPutRun : List QueueLabel :=
  [.other (.claim "c_1" sampleClaim), .enqueue 5 "c_1", .list ["queue:5:c_1"],
    .other (.get .stored), .other (.transfer false (.error "not enough unlocked money")),
    .other (.put false), .delete true]

/-- In both runs the claim stays pending and has no entry. -/
theorem pending_claim_dropped :
    (∃ s : QueueState, (queues 1000).exec {} failedGetRun = some s ∧ s.queue = []
        ∧ (s.daemon.claims.get? "c_1").map (fun rec => rec.status) = some .pending)
      ∧ ∃ s : QueueState, (queues 1000).exec {} failedPutRun = some s ∧ s.queue = []
        ∧ (s.daemon.claims.get? "c_1").map (fun rec => rec.status) = some .pending := by
  have hget : ((queues 1000).exec {} failedGetRun).map (fun s => (s.queue,
      (s.daemon.claims.get? "c_1").map (fun rec => rec.status))) = some ([], some .pending) := by
    decide +kernel
  have hput : ((queues 1000).exec {} failedPutRun).map (fun s => (s.queue,
      (s.daemon.claims.get? "c_1").map (fun rec => rec.status))) = some ([], some .pending) := by
    decide +kernel
  obtain ⟨s, hs, hfacts⟩ := Option.map_eq_some_iff.mp hget
  obtain ⟨s', hs', hfacts'⟩ := Option.map_eq_some_iff.mp hput
  exact ⟨⟨s, hs, Prod.mk.inj hfacts⟩, ⟨s', hs', Prod.mk.inj hfacts'⟩⟩

end Glaciem.Faucet
