import Glaciem.Pool.Server

/-!
# Glaciem — what a section of a handler can do

One inversion for the whole handler. `advance` has some thirty branches, but only a few of them
touch the books: the share counters, the dedupe sets, the settled-height guard, the credits
file, the lock and the history. `Move` lists these; every other branch is `Move.quiet`.

Invariants of the pool are proved from `Move`, never from `advance`.
-/

namespace Glaciem.Pool

def Shared.roundTotal (c : Shared) : Nat := c.minerStats.sumBy MinerStats.sharesThisRound

def Phase.unit : Phase → Option (Nat × UInt32)
  | .verifying t => some (t.job, t.nonce)
  | .valid t => some (t.job, t.nonce)
  | _ => none

def Phase.holdsLock : Phase → Bool
  | .appending _ _ | .appendLoaded _ _ _ | .appendSaving _ _ _ | .settled _ | .blockLoading _
  | .blockLoaded _ _ => true
  | _ => false

def Phase.copy : Phase → Option (List CreditEntry)
  | .appendLoaded _ _ arr | .appendSaving _ _ arr => some arr
  | _ => none

structure Phase.Bare (ph : Phase) : Prop where
  unit : ph.unit = none
  unlocked : ph.holdsLock = false
  rows : ph.rows = []
  copy : ph.copy = none

structure SameBooks (c c' : Shared) : Prop where
  heap : c'.jobs.length = c.jobs.length
  submissions : c'.submissions = c.submissions
  round : c'.roundTotal = c.roundTotal
  current : c'.stats.currentRoundShares = c.stats.currentRoundShares
  settled : c'.settledHeights = c.settledHeights
  credits : c'.credits = c.credits
  tmp : c'.tmp = c.tmp
  lock : c'.stateLock = c.stateLock
  log : c'.log = c.log

inductive Move (cfg : Config) (i : Nat) (c : Shared) : Phase → Shared → Phase → Prop where
  /-- A section that leaves the books alone, outside the settlement. -/
  | quiet {ph ph' : Phase} {c' : Shared} (hbooks : SameBooks c c')
      (hunlocked : ph.holdsLock = false) (hrows : ph.rows = []) (hbare : ph'.Bare) :
      Move cfg i c ph c' ph'
  /-- The duplicate check passes. -/
  | check {req : Request} {t : Ticket} {id : String} (hid : req.jobId = .text id)
      (hjob : c.recentJobs.get? id = some t.job) (hwallet : t.wallet = req.wallet)
      (hnonce : t.nonce = req.nonce) (hheap : t.job < c.jobs.length)
      (hnew : dedupeKey t.wallet t.nonce ∉ c.submissions t.job) :
      Move cfg i c (.admitted req) c (.verifying t)
  /-- The share verifies. -/
  | verified {t : Ticket} : Move cfg i c (.verifying t) c (.valid t)
  /-- A verified share is recorded. -/
  | recorded {t : Ticket} : Move cfg i c (.valid t) (recordShare c t) (.credited t)
  /-- The settlement section is entered and `settle_round` returns. -/
  | settle {t : Ticket} {block : BlockRow} {io : FileIO} {S : Settlement}
      {fund : Option Sponsorship} {c' : Shared} (hfree : c.stateLock = none)
      (hnew : block.height ∉ c.settledHeights)
      (hset : settleRound cfg io c.log.settlements.length block
        (countBlock c t.wallet block).minerStats c.sponsorship = some (S, fund))
      (hc' : c' = { noteSettlement (countBlock c t.wallet block) block S fund with
        stateLock := some i }) :
      Move cfg i c (.found t block) c'
        (if S.entries = [] then .settled block else .appending block S.entries)
  /-- `settle_round` raises: the guard and the block counters stay. -/
  | raised {t : Ticket} {block : BlockRow} {reply : Reply}
      (hnew : block.height ∉ c.settledHeights) :
      Move cfg i c (.found t block) (countBlock c t.wallet block) (.done reply)
  /-- `append_credits` loads the file. -/
  | appendLoad {block : BlockRow} {entries : List CreditEntry} :
      Move cfg i c (.appending block entries) c (.appendLoaded block entries c.credits)
  /-- `append_credits` opens the temporary file. -/
  | appendOpen {block : BlockRow} {entries arr : List CreditEntry} {c' : Shared}
      (hc' : c' = { c with tmp := c.tmp.setSettlement true }) :
      Move cfg i c (.appendLoaded block entries arr) c' (.appendSaving block entries arr)
  /-- `append_credits` replaces the file. -/
  | appendSave {block : BlockRow} {entries arr : List CreditEntry} {c' : Shared}
      (hc' : c' = { c with
        credits := arr ++ entries
        tmp := c.tmp.setSettlement false
        log := { c.log with appended := c.log.appended ++ entries } }) :
      Move cfg i c (.appendSaving block entries arr) c' (.settled block)
  /-- The round counters are reset. -/
  | reset {block : BlockRow} : Move cfg i c (.settled block) (resetRound c) (.blockLoading block)
  /-- A settlement goes on without touching the books, as when `append_credits` fails. -/
  | within {ph ph' : Phase} {c' : Shared} {tmp : TempFile} (hheld : ph.holdsLock = true)
      (hholds : ph'.holdsLock = true) (hunit : ph'.unit = none) (hrows : ph'.rows = [])
      (hcopy : ph'.copy = none) (hclash : c.tmp.clash = false → tmp.clash = false)
      (hc' : c' = { c with tmp := tmp }) : Move cfg i c ph c' ph'
  /-- The lock is released. -/
  | release {ph : Phase} {reply : Reply} {c' : Shared} (hheld : ph.holdsLock = true)
      (hbooks : SameBooks { c with stateLock := none } c') : Move cfg i c ph c' (.done reply)

theorem TempFile.clash_set_false (f : TempFile) :
    (f.clash = false → (f.setSettlement false).clash = false)
      ∧ (f.clash = false → (f.setReconciler false).clash = false) := by
  simp +contextual [setSettlement, setReconciler]

section Cases

variable {cfg : Config} {i : Nat} {c : Shared}

theorem SameBooks.refl (c : Shared) : SameBooks c c := ⟨rfl, rfl, rfl, rfl, rfl, rfl, rfl, rfl, rfl⟩

theorem Phase.bare_done (reply : Reply) : (Phase.done reply).Bare := ⟨rfl, rfl, rfl, rfl⟩

theorem locked_eq_some {body r : Shared × Phase} (h : c.locked body = some r) :
    c.stateLock = none ∧ body = r := by
  unfold Shared.locked at h
  split at h
  · next hfree =>
    rw [Option.some.injEq] at h
    exact ⟨hfree, h⟩
  · cases h

variable {env : Env}

theorem hardCheck_cases {req : Request} {c' : Shared} {ph' : Phase}
    (h : hardCheck cfg env c req = some (c', ph')) : SameBooks c c' ∧ ph'.Bare := by
  unfold hardCheck at h
  simp only at h
  split at h
  · obtain ⟨-, heq⟩ := locked_eq_some h
    cases heq
    exact ⟨by constructor <;> rfl, Phase.bare_done _⟩
  · split at h
    · obtain ⟨-, heq⟩ := locked_eq_some h
      cases heq
      exact ⟨by constructor <;> rfl, Phase.bare_done _⟩
    · cases h
      exact ⟨by constructor <;> rfl, ⟨rfl, rfl, rfl, rfl⟩⟩

theorem duplicateCheck_cases (cfg : Config) (i : Nat) (c : Shared) (req : Request) :
    Move cfg i c (.admitted req) (duplicateCheck c req).1 (duplicateCheck c req).2 := by
  have hstale : Move cfg i c (.admitted req)
      (c.reject (fun r => { r with staleJob := r.staleJob + 1 }))
      (.done (.refused 200 "stale job")) :=
    .quiet (by constructor <;> rfl) rfl rfl (Phase.bare_done _)
  unfold duplicateCheck
  cases hid : req.jobId with
  | unhashable => exact .quiet (SameBooks.refl c) rfl rfl (Phase.bare_done _)
  | falsy | otherKey => exact hstale
  | text id =>
    dsimp only
    cases href : c.recentJobs.get? id with
    | none => exact hstale
    | some ref =>
      dsimp only
      cases hjob : c.jobs[ref]? with
      | none => exact hstale
      | some job =>
        dsimp only
        split
        · exact .quiet (by constructor <;> rfl) rfl rfl (Phase.bare_done _)
        · next hnew =>
          refine .check hid href rfl rfl (List.getElem?_eq_some_iff.mp hjob).1 ?_
          simpa only [Shared.submissions, hjob, Option.map_some, Option.getD_some] using hnew

theorem bare_validate (now : ℚ) (body : SubmitBody) : (validate now body).Bare := by
  unfold validate
  split
  · exact ⟨rfl, rfl, rfl, rfl⟩
  · exact ⟨rfl, rfl, rfl, rfl⟩
  · exact ⟨rfl, rfl, rfl, rfl⟩
  · split
    · exact ⟨rfl, rfl, rfl, rfl⟩
    · split
      · exact ⟨rfl, rfl, rfl, rfl⟩
      · exact ⟨rfl, rfl, rfl, rfl⟩

theorem bare_submitToDaemon (env : Env) (t : Ticket) : (submitToDaemon env t).Bare := by
  unfold submitToDaemon
  split
  · split
    · exact ⟨rfl, rfl, rfl, rfl⟩
    · split <;> exact ⟨rfl, rfl, rfl, rfl⟩
  · exact ⟨rfl, rfl, rfl, rfl⟩

theorem enterSettlement_cases {t : Ticket} {block : BlockRow} (hfree : c.stateLock = none) :
    Move cfg i c (.found t block) (enterSettlement cfg env i c t block).1
      (enterSettlement cfg env i c t block).2 := by
  unfold enterSettlement
  split
  · exact .quiet (by constructor <;> rfl) rfl rfl (Phase.bare_done _)
  · next hnew =>
    dsimp only
    cases hset : settleRound cfg ⟨env.loadOk, env.saveOk⟩
        (countBlock c t.wallet block).log.settlements.length block
        (countBlock c t.wallet block).minerStats (countBlock c t.wallet block).sponsorship with
    | none => exact .raised hnew
    | some result => exact .settle hfree hnew hset rfl

/-- **Every section is one of the moves.** -/
theorem advance_cases {ph ph' : Phase} {c' : Shared} (h : advance cfg env i c ph = some (c', ph')) :
    Move cfg i c ph c' ph' := by
  cases ph with
  | jobReceived wallet =>
    cases wallet with
    | none =>
      cases h
      exact .quiet (SameBooks.refl c) rfl rfl (Phase.bare_done _)
    | some wallet =>
      simp only [advance] at h
      split at h
      · cases h
        refine .quiet (by constructor <;> rfl) rfl rfl ?_
        split <;> exact ⟨rfl, rfl, rfl, rfl⟩
      · cases h
        exact .quiet (SameBooks.refl c) rfl rfl (Phase.bare_done _)
  | jobAdmitted wallet =>
    simp only [advance] at h
    split at h
    · obtain ⟨-, heq⟩ := locked_eq_some h
      cases heq
      exact .quiet (SameBooks.refl c) rfl rfl (Phase.bare_done _)
    · obtain ⟨-, heq⟩ := locked_eq_some h
      cases heq
      refine .quiet ⟨rfl, rfl, ?_, rfl, rfl, rfl, rfl, rfl, rfl⟩ rfl rfl (Phase.bare_done _)
      -- a wallet that was not known enters with no shares
      show Dict.sumBy _ _ = Dict.sumBy _ _
      split
      · rfl
      · next hnone =>
        refine c.minerStats.sumBy_set_of_eq _ ?_
        rw [hnone]
        rfl
  | received body =>
    obtain ⟨-, heq⟩ := locked_eq_some h
    cases heq
    exact .quiet (by constructor <;> rfl) rfl rfl ⟨rfl, rfl, rfl, rfl⟩
  | counted body =>
    cases h
    exact .quiet (SameBooks.refl c) rfl rfl (bare_validate _ _)
  | badRequest message | outdated | strikeCounted =>
    obtain ⟨-, heq⟩ := locked_eq_some h
    cases heq
    exact .quiet (by constructor <;> rfl) rfl rfl (Phase.bare_done _)
  | validated req =>
    obtain ⟨hbooks, hbare⟩ := hardCheck_cases h
    exact .quiet hbooks rfl rfl hbare
  | admitted req =>
    obtain ⟨-, heq⟩ := locked_eq_some h
    have hmove := duplicateCheck_cases cfg i c req
    rwa [heq] at hmove
  | verifying t =>
    simp only [advance, verifyShare, Option.some.injEq, Prod.mk.injEq] at h
    obtain ⟨rfl, hph⟩ := h
    split at hph
    · rw [← hph]
      exact .verified
    · refine .quiet (SameBooks.refl _) rfl rfl ?_
      rw [← hph]
      split <;> exact ⟨rfl, rfl, rfl, rfl⟩
  | struck wallet =>
    cases h
    exact .quiet (by constructor <;> rfl) rfl rfl ⟨rfl, rfl, rfl, rfl⟩
  | valid t =>
    obtain ⟨-, heq⟩ := locked_eq_some h
    cases heq
    exact .recorded
  | credited t =>
    cases h
    refine .quiet (by constructor <;> rfl) rfl rfl ?_
    split <;> exact ⟨rfl, rfl, rfl, rfl⟩
  | submitting t =>
    cases h
    exact .quiet (SameBooks.refl c) rfl rfl (bare_submitToDaemon _ _)
  | accepted t | rewarded t reward =>
    cases h
    exact .quiet (SameBooks.refl c) rfl rfl ⟨rfl, rfl, rfl, rfl⟩
  | found t block =>
    obtain ⟨hfree, heq⟩ := locked_eq_some h
    have hmove : Move cfg i c (.found t block) (enterSettlement cfg env i c t block).1
        (enterSettlement cfg env i c t block).2 := enterSettlement_cases hfree
    rwa [heq] at hmove
  | appending block entries =>
    cases h
    split
    · exact .appendLoad
    · exact .within rfl rfl rfl rfl rfl id rfl
  | appendLoaded block entries arr =>
    simp only [advance] at h
    split at h
    · cases h
      exact .appendOpen rfl
    · cases h
      exact .within rfl rfl rfl rfl rfl id rfl
  | appendSaving block entries arr =>
    cases h
    split
    · exact .appendSave rfl
    · exact .within rfl rfl rfl rfl rfl (TempFile.clash_set_false c.tmp).1 rfl
  | settled block =>
    cases h
    exact .reset
  | blockLoading block =>
    simp only [advance] at h
    split at h
    · cases h
      exact .within rfl rfl rfl rfl rfl id rfl
    · cases h
      exact .release rfl (SameBooks.refl _)
  | blockLoaded block arr =>
    cases h
    exact .release rfl (by constructor <;> rfl)
  | done reply => cases h

theorem advance_waiting {ph ph' : Phase} {c' : Shared} (hlock : c.stateLock ≠ none)
    (hph : ph.holdsLock = false) (h : advance cfg env i c ph = some (c', ph')) :
    c' = { c with hard := c'.hard } := by
  have hwait : ∀ body, c.locked body = none := fun body => if_neg hlock
  cases ph with
  | jobReceived wallet =>
    cases wallet with
    | none => cases h; rfl
    | some wallet =>
      simp only [advance] at h
      split at h <;> cases h <;> rfl
  | jobAdmitted wallet =>
    simp only [advance, hwait] at h
    split at h <;> cases h
  | validated req =>
    simp only [advance, hardCheck, Shared.locked, if_neg hlock] at h
    split at h
    · cases h
    · split at h <;> cases h
      rfl
  | received | badRequest | admitted | outdated | strikeCounted | valid | found =>
    simp [advance, hwait] at h
  | counted | verifying | struck | credited | submitting | accepted | rewarded =>
    cases h
    rfl
  | appending | appendLoaded | appendSaving | settled | blockLoading | blockLoaded => cases hph
  | done => cases h

end Cases

/-! ## The helpers and the books -/

theorem submissions_addSubmission (c : Shared) (job job' : Nat) (key : String) :
    (c.addSubmission job key).submissions job'
      = if job = job' ∧ job < c.jobs.length then key :: c.submissions job'
        else c.submissions job' := by
  unfold Shared.submissions Shared.addSubmission
  by_cases hj : job = job'
  · subst hj
    by_cases hlt : job < c.jobs.length
    · simp [hlt]
    · simp [hlt]
  · simp [hj]

theorem roundTotal_recordShare (c : Shared) (t : Ticket) :
    (recordShare c t).roundTotal = c.roundTotal + 1 := by
  show Dict.sumBy (Dict.set _ _ _) _ = _
  have hset := c.minerStats.sumBy_set MinerStats.sharesThisRound t.wallet
    { (c.minerStats.get? t.wallet).getD {} with
      sharesTotal := ((c.minerStats.get? t.wallet).getD {}).sharesTotal + 1
      sharesThisRound := ((c.minerStats.get? t.wallet).getD {}).sharesThisRound + 1 }
  have hold : ((c.minerStats.get? t.wallet).map MinerStats.sharesThisRound).getD 0
      = ((c.minerStats.get? t.wallet).getD {}).sharesThisRound := by
    cases c.minerStats.get? t.wallet with
    | none => rfl
    | some s => rfl
  rw [hold] at hset
  simp only [Shared.roundTotal, Shared.addSubmission] at hset ⊢
  omega

theorem shares_countBlock (c : Shared) (finder : String) (block : BlockRow) :
    (countBlock c finder block).minerStats.items.map (fun item => (item.1, item.2.sharesThisRound))
      = c.minerStats.items.map (fun item => (item.1, item.2.sharesThisRound)) := by
  unfold countBlock
  split
  · rfl
  · next s hs => exact Dict.map_setIn_of_eq MinerStats.sharesThisRound hs rfl

theorem roundTotal_countBlock (c : Shared) (finder : String) (block : BlockRow) :
    (countBlock c finder block).roundTotal = c.roundTotal := by
  have hshares := congrArg (fun l => (l.map Prod.snd).sum) (shares_countBlock c finder block)
  simp only [List.map_map] at hshares
  exact hshares

theorem roundTotal_resetRound (c : Shared) : (resetRound c).roundTotal = 0 := by
  show Dict.sumBy (Dict.mapValues _ _) _ = 0
  rw [Dict.sumBy_mapValues]
  simp [Dict.sumBy]

/-! ## The reconciler -/

inductive ReconcilerMove (cfg : Config) (c : Shared) :
    ReconcilerPhase → Shared → ReconcilerPhase → Prop where
  /-- A section that does not concern the credits file. -/
  | quiet {ph ph' : ReconcilerPhase} (blocks : List BlockRow) (hrows : ph'.rows = []) :
      ReconcilerMove cfg c ph { c with blocks := blocks } ph'
  /-- The credits file is loaded, or reads as empty. -/
  | load (ts : List Transfer) (walletH : Nat) (ok : Bool) :
      ReconcilerMove cfg c .idle c (.loaded ts walletH (loadJsonFile ok c.credits []))
  /-- Rows are classified, and the file is not saved. -/
  | classify {ph ph' : ReconcilerPhase} {c' : Shared} {dropped : List CreditEntry} {tmp : TempFile}
      (hrows : ph'.rows = []) (hclash : c.tmp.clash = false → tmp.clash = false)
      (hc' : c' = { c with
        tmp := tmp, log := { c.log with phantoms := c.log.phantoms ++ dropped } }) :
      ReconcilerMove cfg c ph c' ph'
  /-- The temporary file is opened for the rows that are kept. -/
  | beginSave {ts : List Transfer} {walletH : Nat} {credits : List CreditEntry} {c' : Shared}
      (hwrites : (reconcileCredits cfg (arrivedOf ts) walletH credits).writes = true)
      (hc' : c' = { c with tmp := c.tmp.setReconciler true }) :
      ReconcilerMove cfg c (.loaded ts walletH credits) c' (.saving ts walletH credits)
  /-- The rows that are kept replace the file. -/
  | save {ts : List Transfer} {walletH : Nat} {credits : List CreditEntry} {c' : Shared}
      (hc' : c' = { c with
        credits := (reconcileCredits cfg (arrivedOf ts) walletH credits).kept
        tmp := c.tmp.setReconciler false
        log := { c.log with phantoms := c.log.phantoms
          ++ (reconcileCredits cfg (arrivedOf ts) walletH credits).dropped } }) :
      ReconcilerMove cfg c (.saving ts walletH credits) c' (.blocksDue ts walletH)

theorem reconcilerAdvance_cases (cfg : Config) (env : ReconcilerEnv) (c : Shared)
    (ph : ReconcilerPhase) :
    ReconcilerMove cfg c ph (reconcilerAdvance cfg env c ph).1
      (reconcilerAdvance cfg env c ph).2 := by
  cases ph with
  | idle =>
    unfold reconcilerAdvance
    cases env.transfers with
    | none => exact .quiet c.blocks rfl
    | some ts => exact .load ts _ _
  | loaded ts walletH credits =>
    unfold reconcilerAdvance
    dsimp only
    split
    · next hwrites =>
      split
      · exact .beginSave hwrites rfl
      · exact .classify rfl id rfl
    · exact .classify rfl id rfl
  | saving ts walletH credits =>
    unfold reconcilerAdvance
    dsimp only
    split
    · exact .save rfl
    · exact .classify rfl (TempFile.clash_set_false c.tmp).2 rfl
  | blocksDue ts walletH => exact .quiet c.blocks rfl
  | blocksLoaded ts walletH blocks => exact .quiet _ rfl

variable {cfg : Config}

theorem ReconcilerMove.frame {c c' : Shared} {ph ph' : ReconcilerPhase}
    (h : ReconcilerMove cfg c ph c' ph') :
    ∃ credits tmp blocks phantoms,
      c' = { c with credits := credits, tmp := tmp, blocks := blocks
                    log := { c.log with phantoms := phantoms } } := by
  cases h with
  | quiet blocks _ | load ts walletH ok => exact ⟨_, _, _, _, rfl⟩
  | classify _ _ hc' | beginSave _ hc' | save hc' => exact ⟨_, _, _, _, hc'⟩

/-! ## Steps of the system -/

variable {s s' : State}

theorem reconcile_step {env : ReconcilerEnv}
    (h : poolStep cfg s (.reconcile env) = some s') :
    ∃ c' ph', ReconcilerMove cfg s.shared s.reconciler c' ph'
      ∧ s' = { s with shared := c', reconciler := ph' } := by
  rw [poolStep, Option.some.injEq] at h
  exact ⟨_, _, reconcilerAdvance_cases cfg env s.shared s.reconciler, h.symm⟩

theorem torn_step {rows : List CreditEntry} (h : poolStep cfg s (.torn rows) = some s') :
    s.shared.tmp.clash = true ∧ (∀ c ∈ rows, ∃ c₀ ∈ s.rowsInPlay, c₀.ident = c.ident)
      ∧ s' = { s with shared := { s.shared with credits := rows } } := by
  rw [poolStep] at h
  split at h
  · next hall =>
    cases h
    exact ⟨hall.1, fun c hc => List.mem_map.mp (hall.2 c hc), rfl⟩
  · cases h

theorem refresh_step {r : TemplateReply} (h : poolStep cfg s (.refresh r) = some s') :
    s' = { s with shared := refreshJob cfg s.shared r } := by
  rw [poolStep] at h
  split at h
  · rw [Option.some.injEq] at h
    exact h.symm
  · cases h

theorem handler_step {i : Nat} {env : Env}
    (h : poolStep cfg s (.handler i env) = some s') :
    ∃ ph c' ph', s.handlers[i]? = some ph ∧ Move cfg i s.shared ph c' ph'
      ∧ s' = { s with shared := c', handlers := s.handlers.set i ph' } := by
  simp only [poolStep] at h
  split at h
  · cases h
  · next ph hph =>
    split at h
    · cases h
    · next c' ph' hadv =>
      cases h
      exact ⟨ph, c', ph', hph, advance_cases hadv, rfl⟩

/-! ## The round counter

`current_round_shares` and the wallets' `shares_this_round` are updated together in every section.
-/

theorem Move.roundTotal_eq {i : Nat} {c c' : Shared} {ph ph' : Phase}
    (hmove : Move cfg i c ph c' ph') (h : c.roundTotal = c.stats.currentRoundShares) :
    c'.roundTotal = c'.stats.currentRoundShares := by
  cases hmove with
  | quiet hbooks _ _ _ => rw [hbooks.round, hbooks.current, h]
  | check _ _ _ _ _ _ | verified | appendLoad => exact h
  | @recorded t =>
    show (recordShare c t).roundTotal = c.stats.currentRoundShares + 1
    rw [roundTotal_recordShare, h]
  | @settle t block _ _ _ _ _ _ _ hc' =>
    subst hc'
    exact (roundTotal_countBlock c t.wallet block).trans h
  | @raised t block _ _ => exact (roundTotal_countBlock c t.wallet block).trans h
  | appendOpen hc' | appendSave hc' | within _ _ _ _ _ _ hc' =>
    subst hc'
    exact h
  | reset => exact roundTotal_resetRound c
  | release _ hbooks =>
    rw [hbooks.round, hbooks.current]
    exact h

theorem roundTotal_step {l : Label}
    (h : s.shared.roundTotal = s.shared.stats.currentRoundShares)
    (hstep : poolStep cfg s l = some s') :
    s'.shared.roundTotal = s'.shared.stats.currentRoundShares := by
  cases l with
  | refresh r =>
    rw [refresh_step hstep]
    unfold refreshJob
    split <;> exact h
  | jobRequest wallet | request body | fund fund =>
    cases hstep
    exact h
  | handler i env =>
    obtain ⟨ph, c', ph', -, hmove, rfl⟩ := handler_step hstep
    exact hmove.roundTotal_eq h
  | reconcile env =>
    obtain ⟨c', ph', hmove, rfl⟩ := reconcile_step hstep
    obtain ⟨credits, tmp, blocks, phantoms, rfl⟩ := hmove.frame
    exact h
  | torn rows =>
    obtain ⟨-, -, rfl⟩ := torn_step hstep
    exact h
  | restart creditsOk blocksOk =>
    cases hstep
    rfl

end Glaciem.Pool
