import Glaciem.Pool.Shares

/-!
# Glaciem — every submit is tallied

`_handle_submit` counts the attempt first and then, on every way out, an accepted share or one
reason for the refusal: except where it raises. `do_POST` answers an exception with status 500 and
counts nothing. A body that is not a JSON object raises, and so does looking up a job by a key that
cannot be hashed.
-/

namespace Glaciem.Pool

open List

def Rejects.total (r : Rejects) : Nat :=
  r.rateLimit + r.staleJob + r.duplicate + r.invalidShare + r.badRequest + r.banned
    + r.staleAgainstOldJob

def Shared.tallied (c : Shared) : Nat := c.stats.sharesTotal + c.stats.rejects.total

def SubmitBody.lookable : SubmitBody → Bool
  | .malformed _ => false
  | .fields .unhashable _ _ _ => false
  | .fields _ _ _ _ => true

def Phase.untallied : Phase → Nat
  | .counted _ | .badRequest _ | .validated _ | .admitted _ | .verifying _ | .outdated | .struck _
  | .strikeCounted | .valid _ => 1
  | _ => 0

def Phase.Lookable : Phase → Prop
  | .received body | .counted body => body.lookable = true
  | .validated req | .admitted req => req.jobId ≠ .unhashable
  | _ => True

structure Tallies (c : Shared) (ph : Phase) (c' : Shared) (ph' : Phase) : Prop where
  lookable : ph'.Lookable
  balance : c'.stats.submitsTotal + c.tallied + ph.untallied
    = c.stats.submitsTotal + c'.tallied + ph'.untallied

section Sections

variable {cfg : Config} {env : Env} {i : Nat} {c c' : Shared} {ph ph' : Phase}

theorem Tallies.same (hsubmits : c'.stats.submitsTotal = c.stats.submitsTotal)
    (htallied : c'.tallied = c.tallied) (hph : ph'.untallied = ph.untallied)
    (hlook : ph'.Lookable) : Tallies c ph c' ph' :=
  ⟨hlook, by rw [hsubmits, htallied, hph]⟩

theorem Tallies.tally (hsubmits : c'.stats.submitsTotal = c.stats.submitsTotal)
    (htallied : c'.tallied = c.tallied + 1) (hph : ph.untallied = 1) (hph' : ph'.untallied = 0)
    (hlook : ph'.Lookable) : Tallies c ph c' ph' :=
  ⟨hlook, by omega⟩

theorem Tallies.reject {count : Rejects → Rejects} {reply : Reply}
    (hcount : (count c.stats.rejects).total = c.stats.rejects.total + 1)
    (hph : ph.untallied = 1) : Tallies c ph (c.reject count) (.done reply) :=
  .tally rfl (congrArg (c.stats.sharesTotal + ·) hcount) hph rfl trivial

theorem tallies_hardCheck {req : Request} (hlook : req.jobId ≠ .unhashable)
    (h : hardCheck cfg env c req = some (c', ph')) : Tallies c (.validated req) c' ph' := by
  unfold hardCheck at h
  simp only at h
  split at h
  · obtain ⟨-, heq⟩ := locked_eq_some h
    cases heq
    exact .tally rfl (by simp only [Shared.tallied, Shared.reject, Rejects.total]; omega) rfl rfl
      trivial
  · split at h
    · obtain ⟨-, heq⟩ := locked_eq_some h
      cases heq
      exact .tally rfl (by simp only [Shared.tallied, Shared.reject, Rejects.total]; omega) rfl rfl
        trivial
    · cases h
      exact .same rfl rfl rfl hlook

theorem tallies_duplicateCheck {req : Request} (hlook : req.jobId ≠ .unhashable) :
    Tallies c (.admitted req) (duplicateCheck c req).1 (duplicateCheck c req).2 := by
  have hstale : Tallies c (.admitted req)
      (c.reject (fun r => { r with staleJob := r.staleJob + 1 }))
      (.done (.refused 200 "stale job")) :=
    .reject (by simp only [Rejects.total]; omega) rfl
  have hdup : Tallies c (.admitted req)
      (c.reject (fun r => { r with duplicate := r.duplicate + 1 }))
      (.done (.refused 200 "duplicate")) :=
    .reject (by simp only [Rejects.total]; omega) rfl
  unfold duplicateCheck
  cases hid : req.jobId with
  | unhashable => exact absurd hid hlook
  | falsy | otherKey => exact hstale
  | text id =>
    dsimp only
    cases c.recentJobs.get? id with
    | none => exact hstale
    | some ref =>
      dsimp only
      cases c.jobs[ref]? with
      | none => exact hstale
      | some job =>
        dsimp only
        split
        · exact hdup
        · exact .same rfl rfl rfl trivial

theorem tallies_validate {body : SubmitBody} (hlook : body.lookable = true) :
    Tallies c (.counted body) c (validate env.now body) := by
  unfold validate
  split
  · cases hlook
  · exact .same rfl rfl rfl trivial
  · exact .same rfl rfl rfl trivial
  · split
    · exact .same rfl rfl rfl trivial
    · split
      · refine .same rfl rfl rfl ?_
        rintro rfl
        cases hlook
      · exact .same rfl rfl rfl trivial

theorem advance_tallies (hlook : ph.Lookable) (h : advance cfg env i c ph = some (c', ph')) :
    Tallies c ph c' ph' := by
  cases ph with
  | received body =>
    obtain ⟨-, heq⟩ := locked_eq_some h
    cases heq
    exact ⟨hlook, by simp only [Phase.untallied, Shared.tallied]; omega⟩
  | counted body =>
    cases h
    exact tallies_validate hlook
  | validated req => exact tallies_hardCheck hlook h
  | admitted req =>
    obtain ⟨-, heq⟩ := locked_eq_some h
    have htallies : Tallies c (.admitted req) _ _ := tallies_duplicateCheck hlook
    rwa [heq] at htallies
  | badRequest _ | outdated | strikeCounted =>
    obtain ⟨-, heq⟩ := locked_eq_some h
    cases heq
    exact .reject (by simp only [Rejects.total]; omega) rfl
  | valid t =>
    obtain ⟨-, heq⟩ := locked_eq_some h
    cases heq
    exact .tally rfl (Nat.add_right_comm _ _ _) rfl rfl trivial
  | jobReceived wallet =>
    cases wallet <;> simp only [advance] at h <;> (repeat' split at h) <;> cases h <;>
      exact .same rfl rfl rfl trivial
  | done reply => cases h
  | _ =>
    -- the verification, what follows on the tally, and the answer to `/pool/job`
    simp only [advance, verifyShare, submitToDaemon, enterSettlement, Shared.locked] at h
    (repeat' split at h) <;> cases h <;> exact .same rfl rfl rfl trivial

end Sections

/-- Every attempt is accepted, refused for a reason, or on its way. -/
structure TallyInv (s : State) : Prop where
  lookable : ∀ ph ∈ s.handlers, ph.Lookable
  balance : s.shared.stats.submitsTotal
    = s.shared.tallied + (s.handlers.map Phase.untallied).sum

def Lookable : Label → Prop
  | .request body => body.lookable = true
  | _ => True

variable {cfg : Config} {s s' : State} {l : Label}

theorem sum_untallied_set {i : Nat} {ph ph' : Phase} {hs : List Phase} (h : hs[i]? = some ph) :
    ((hs.set i ph').map Phase.untallied).sum + ph.untallied
      = (hs.map Phase.untallied).sum + ph'.untallied := by
  induction hs generalizing i with
  | nil => cases h
  | cons ph₀ hs ih =>
    cases i with
    | zero =>
      cases h
      simp only [set_cons_zero, map_cons, sum_cons]
      omega
    | succ i =>
      have hrest := ih h
      simp only [set_cons_succ, map_cons, sum_cons]
      omega

theorem TallyInv.arrive {ph : Phase} (hinv : TallyInv s) (hph : ph.untallied = 0)
    (hlook : ph.Lookable) : TallyInv { s with handlers := s.handlers ++ [ph] } := by
  refine ⟨?_, ?_⟩
  · intro ph' hph'
    rcases mem_append.mp hph' with hold | hnew
    · exact hinv.lookable ph' hold
    · rw [mem_singleton.mp hnew]
      exact hlook
  · simp only [map_append, sum_append, map_cons, map_nil, sum_singleton, hph]
    exact hinv.balance

theorem TallyInv.step (hinv : TallyInv s) (hlook : Lookable l)
    (hstep : poolStep cfg s l = some s') : TallyInv s' := by
  cases l with
  | refresh r =>
    rw [refresh_step hstep]
    refine ⟨hinv.lookable, ?_⟩
    unfold refreshJob
    split <;> exact hinv.balance
  | jobRequest wallet =>
    cases hstep
    exact hinv.arrive rfl trivial
  | request body =>
    cases hstep
    exact hinv.arrive rfl hlook
  | handler i env =>
    simp only [poolStep] at hstep
    split at hstep
    · cases hstep
    · next ph hph =>
      split at hstep
      · cases hstep
      · next c' ph' hadv =>
        cases hstep
        have htallies := advance_tallies (hinv.lookable ph (mem_of_getElem? hph)) hadv
        refine ⟨?_, ?_⟩
        · intro ph'' hmem
          rcases mem_or_eq_of_mem_set hmem with hold | rfl
          · exact hinv.lookable ph'' hold
          · exact htallies.lookable
        · have hbalance := htallies.balance
          have hsum := @sum_untallied_set i ph ph' _ hph
          have hbefore := hinv.balance
          dsimp only
          omega
  | reconcile env =>
    obtain ⟨c', ph', hmove, rfl⟩ := reconcile_step hstep
    obtain ⟨credits, tmp, blocks, phantoms, rfl⟩ := hmove.frame
    exact ⟨hinv.lookable, hinv.balance⟩
  | torn rows =>
    obtain ⟨-, -, rfl⟩ := torn_step hstep
    exact ⟨hinv.lookable, hinv.balance⟩
  | fund fund =>
    cases hstep
    exact ⟨hinv.lookable, hinv.balance⟩
  | restart creditsOk blocksOk =>
    cases hstep
    exact ⟨fun _ h => absurd h not_mem_nil, rfl⟩

/-- As long as every submit is an object with a job id that can be looked up, the attempts are the
accepted shares and the refusals whenever no handler is at work. -/
theorem submits_tallied_of_run {ls : List Label} (hlook : ∀ l ∈ ls, Lookable l)
    (hexec : (pool cfg).exec {} ls = some s)
    (hidle : ∀ ph ∈ s.handlers, ∃ reply, ph = .done reply) :
    s.shared.stats.submitsTotal = s.shared.stats.sharesTotal + s.shared.stats.rejects.total := by
  have hinv : TallyInv s := (pool cfg).invariant_of_meets
    (fun hinv hl hstep => hinv.step hl hstep) ⟨forall_mem_nil _, rfl⟩
    ((pool cfg).meets_of_labels (fun ev hev _ => hlook ev hev) {}) hexec
  have hzero : (s.handlers.map Phase.untallied).sum = 0 := by
    refine sum_eq_zero fun n hn => ?_
    obtain ⟨ph, hph, rfl⟩ := mem_map.mp hn
    obtain ⟨reply, rfl⟩ := hidle ph hph
    rfl
  rw [hinv.balance, hzero]
  rfl

def sampleSubmits : List Label :=
  [sampleRefresh, sampleShare '1' 7 false, .request (.fields .falsy none none false)]
    ++ sections 0 7 ++ sections 1 3

theorem submits_tallied_of_run_sample :
    ∃ s, (pool {}).exec {} sampleSubmits = some s ∧ s.shared.stats.submitsTotal = 2
      ∧ s.shared.stats.submitsTotal
        = s.shared.stats.sharesTotal + s.shared.stats.rejects.total := by
  have hrun : ((pool {}).exec {} sampleSubmits).map (fun s => (s.shared.stats.submitsTotal,
      s.handlers.all fun ph => match ph with | .done _ => true | _ => false)) = some (2, true) := by
    decide +kernel
  obtain ⟨s, hexec, heq⟩ := Option.map_eq_some_iff.mp hrun
  obtain ⟨htotal, hidle⟩ := Prod.mk.inj heq
  refine ⟨s, hexec, htotal, submits_tallied_of_run ?_ hexec fun ph hph => ?_⟩
  · intro l hl
    fin_cases hl <;> trivial
  · have hdone := all_eq_true.mp hidle ph hph
    cases ph with
    | done reply => exact ⟨reply, rfl⟩
    | _ => cases hdone

/-- A body that is not JSON is counted as an attempt and as nothing else. -/
theorem malformed_submit_untallied :
    ∃ s, (pool {}).exec {} ([.request (.malformed "Expecting value: line 1 column 1 (char 0)")]
        ++ sections 0 2) = some s
      ∧ (∀ ph ∈ s.handlers, ∃ reply, ph = .done reply)
      ∧ s.shared.stats.submitsTotal = 1
      ∧ s.shared.stats.sharesTotal + s.shared.stats.rejects.total = 0 := by
  refine ⟨_, rfl, ?_, rfl, rfl⟩
  intro ph hph
  exact ⟨_, mem_singleton.mp hph⟩

end Glaciem.Pool
