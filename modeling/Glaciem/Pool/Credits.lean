import Glaciem.Pool.Shares

/-!
# Glaciem — the credits file under settlements, reconciler and restarts

Two properties of `pool-credits.json` over whole runs of the pool.

* **Lost rows.** The reconciler writes back a ledger it loaded earlier, and takes no lock. Two
  settlements cannot race each other, since both hold `STATE_LOCK` (`LockInv`).
* **One settlement a height.** The settled-height guard covers every row in play: those in the file,
  those a settlement is about to write, and those the reconciler may write back.
-/

namespace Glaciem.Pool

open List

/-! ## The lock -/

def LockInv (s : State) : Prop :=
  ∀ j ph, s.handlers[j]? = some ph → ph.holdsLock = true → s.shared.stateLock = some j

section Lock

variable {cfg : Config} {s s' : State} {l : Label}

theorem lockInv_init : LockInv {} := fun _ _ h => absurd h (by simp)

theorem LockInv.of_move (hinv : LockInv s) {i : Nat} {c' : Shared} {ph' : Phase}
    (hi : ph'.holdsLock = true → c'.stateLock = some i)
    (hothers : ∀ j, j ≠ i → s.shared.stateLock = some j → c'.stateLock = some j) :
    LockInv { s with shared := c', handlers := s.handlers.set i ph' } := by
  intro j ph hj hph
  rcases getElem?_set_cases hj with ⟨rfl, rfl⟩ | ⟨hne, hold⟩
  · exact hi hph
  · exact hothers j (fun e => hne e.symm) (hinv j ph hold hph)

theorem LockInv.arrive (hinv : LockInv s) {ph : Phase} (hph : ph.holdsLock = false) :
    LockInv { s with handlers := s.handlers ++ [ph] } := by
  intro j q hj hq
  rcases getElem?_concat_cases hj with rfl | hold
  · rw [hph] at hq
    cases hq
  · exact hinv j q hold hq

theorem LockInv.step (hinv : LockInv s) (hstep : poolStep cfg s l = some s') : LockInv s' := by
  cases l with
  | refresh r =>
    rw [refresh_step hstep]
    unfold refreshJob
    split <;> exact hinv
  | jobRequest wallet | request body =>
    cases hstep
    exact hinv.arrive rfl
  | handler i env =>
    obtain ⟨ph, c', ph', hph, hmove, rfl⟩ := handler_step hstep
    have hheld := hinv i ph hph
    cases hmove with
    | quiet hbooks _ _ hbare =>
      refine hinv.of_move (fun h => ?_) (fun j _ hj => hbooks.lock.trans hj)
      rw [hbare.unlocked] at h
      cases h
    | check _ _ _ _ _ _ | verified | recorded | raised _ =>
      exact hinv.of_move (fun h => by cases h) (fun _ _ hj => hj)
    | settle hfree _ _ hc' =>
      subst hc'
      refine hinv.of_move (fun _ => rfl) (fun j _ hj => ?_)
      rw [hfree] at hj
      cases hj
    | appendLoad | reset => exact hinv.of_move (fun _ => hheld rfl) (fun _ _ hj => hj)
    | appendOpen hc' | appendSave hc' =>
      subst hc'
      exact hinv.of_move (fun _ => hheld rfl) (fun _ _ hj => hj)
    | within hlocked _ _ _ _ _ hc' =>
      subst hc'
      exact hinv.of_move (fun _ => hheld hlocked) (fun _ _ hj => hj)
    | release hlocked hbooks =>
      refine hinv.of_move (fun h => by cases h) (fun j hne hj => ?_)
      -- only the handler that releases the lock held it
      rw [hheld hlocked, Option.some.injEq] at hj
      exact absurd hj.symm hne
  | reconcile env =>
    obtain ⟨c', ph', hmove, rfl⟩ := reconcile_step hstep
    obtain ⟨credits, tmp, blocks, phantoms, rfl⟩ := hmove.frame
    exact hinv
  | torn rows =>
    obtain ⟨-, -, rfl⟩ := torn_step hstep
    exact hinv
  | fund fund =>
    cases hstep
    exact hinv
  | restart creditsOk blocksOk =>
    cases hstep
    exact fun _ _ h => absurd h (by simp)

theorem LockInv.unique (hinv : LockInv s) {i j : Nat} {ph ph' : Phase}
    (hi : s.handlers[i]? = some ph) (hph : ph.holdsLock = true)
    (hj : s.handlers[j]? = some ph') (hph' : ph'.holdsLock = true) : i = j := by
  have hsame := (hinv i ph hi hph).symm.trans (hinv j ph' hj hph')
  exact Option.some.inj hsame

/-- While a handler settles a round, it alone holds `STATE_LOCK`. Unless the process is restarted,
no step of another thread changes what is in memory but the tables of bans and rates. -/
theorem settlement_undisturbed {ls : List Label} (hexec : (pool cfg).exec {} ls = some s) {i : Nat}
    {ph : Phase} (hi : s.handlers[i]? = some ph) (hph : ph.holdsLock = true)
    (hother : ∀ env, l ≠ .handler i env)
    (hlive : ∀ creditsOk blocksOk, l ≠ .restart creditsOk blocksOk)
    (hstep : (pool cfg).step s l = some s') :
    s.shared.stateLock = some i ∧ s'.handlers[i]? = some ph
      ∧ ∃ hard credits tmp blocks fund log, s'.shared = { s.shared with
          hard := hard, credits := credits, tmp := tmp, blocks := blocks, sponsorship := fund
          log := log } := by
  have hinv := (pool cfg).invariant_of_exec LockInv.step lockInv_init hexec
  have hlock := hinv i ph hi hph
  have hheld : s.shared.stateLock ≠ none := by simp [hlock]
  refine ⟨hlock, ?_⟩
  change poolStep cfg s l = some s' at hstep
  cases l with
  | refresh r =>
    rw [poolStep, if_neg hheld] at hstep
    cases hstep
  | jobRequest wallet | request body =>
    cases hstep
    exact ⟨(getElem?_append_left (List.getElem?_eq_some_iff.mp hi).1).trans hi, _, _, _, _, _, _,
      rfl⟩
  | handler j env =>
    have hne : j ≠ i := fun h => hother env (h ▸ rfl)
    simp only [poolStep] at hstep
    split at hstep
    · cases hstep
    next ph₁ hj =>
    split at hstep
    · cases hstep
    next c' ph' hadvance =>
    cases hstep
    have hout : ph₁.holdsLock = false :=
      Bool.eq_false_iff.mpr fun hin => hne (hinv.unique hj hin hi hph)
    exact ⟨by rw [getElem?_set_ne hne, hi], _, _, _, _, _, _, advance_waiting hheld hout hadvance⟩
  | reconcile env =>
    obtain ⟨c', ph', hmove, rfl⟩ := reconcile_step hstep
    obtain ⟨credits, tmp, blocks, phantoms, rfl⟩ := hmove.frame
    exact ⟨hi, _, _, _, _, _, _, rfl⟩
  | torn rows =>
    obtain ⟨-, -, rfl⟩ := torn_step hstep
    exact ⟨hi, _, _, _, _, _, _, rfl⟩
  | fund fund =>
    cases hstep
    exact ⟨hi, _, _, _, _, _, _, rfl⟩
  | restart creditsOk blocksOk => exact absurd rfl (hlive _ _)

/-- The first of two handlers settles a block while the second one notes its accepted share. -/
theorem settlement_undisturbed_sample : ∃ s s', (pool {}).exec {}
      ([sampleRefresh, sampleShare '1' 7 true, sampleShare '2' 8 true] ++ sections 1 6
        ++ sections 0 11) = some s
    ∧ (pool {}).step s (.handler 1 sampleEnv) = some s'
    ∧ s'.shared.minerStats = s.shared.minerStats := by
  have hrun : ((pool {}).exec {} ([sampleRefresh, sampleShare '1' 7 true, sampleShare '2' 8 true]
      ++ sections 1 6 ++ sections 0 11)).bind
        (fun s => ((pool {}).step s (.handler 1 sampleEnv)).map
        fun _ => s.handlers.map Phase.holdsLock) = some [true, false] := by decide +kernel
  obtain ⟨s, hs, hrest⟩ := Option.bind_eq_some_iff.mp hrun
  obtain ⟨s', hs', hlocks⟩ := Option.map_eq_some_iff.mp hrest
  have hfirst : s.handlers[0]?.map Phase.holdsLock = some true := by
    rw [← getElem?_map, hlocks]
    rfl
  obtain ⟨ph, hi, hph⟩ := Option.map_eq_some_iff.mp hfirst
  obtain ⟨-, -, hard, credits, tmp, blocks, fund, log, hsame⟩ :=
    settlement_undisturbed hs hi hph (by simp) (by simp) hs'
  exact ⟨s, s', hs, hs', by rw [hsame]⟩

end Lock

/-! ## Lost rows -/

def Accounted (rows phantoms : List CreditEntry) (e : CreditEntry) : Prop :=
  (∃ c ∈ rows, c.ident = e.ident) ∨ ∃ d ∈ phantoms, d.ident = e.ident

def AppendedKept (s : State) : Prop :=
  ∀ e ∈ s.shared.log.appended, Accounted s.shared.credits s.shared.log.phantoms e

/-- A pass of the reconciler that saves the credits file finds it as it loaded it, and neither it
nor a settlement starts a save while the other is at its own. -/
def SavesWhatItLoaded (cfg : Config) : State → Label → Prop
  | s, .reconcile _ => ∀ ts walletH loaded,
      (s.reconciler = .loaded ts walletH loaded →
        (reconcileCredits cfg (arrivedOf ts) walletH loaded).writes = true →
        s.shared.tmp.settlement = false)
      ∧ (s.reconciler = .saving ts walletH loaded → s.shared.credits = loaded)
  | s, .handler i _ => ∀ block entries arr,
      s.handlers[i]? = some (.appendLoaded block entries arr) → s.shared.tmp.reconciler = false
  | _, _ => True

/-- No two saves have met, and the file, and the copy of it that a settlement has loaded, account
for every appended row. -/
structure RowsInv (s : State) : Prop where
  lock : LockInv s
  whole : s.shared.tmp.clash = false
  kept : AppendedKept s
  loaded : ∀ (j : Nat) (ph : Phase) (arr : List CreditEntry),
    s.handlers[j]? = some ph → ph.copy = some arr →
    ∀ e ∈ s.shared.log.appended, Accounted arr s.shared.log.phantoms e

variable {phantoms rows : List CreditEntry} {e : CreditEntry}

theorem Accounted.more_phantoms {more : List CreditEntry} (h : Accounted rows phantoms e) :
    Accounted rows (phantoms ++ more) e := by
  rcases h with hrow | ⟨d, hd, hident⟩
  · exact .inl hrow
  · exact .inr ⟨d, mem_append_left _ hd, hident⟩

theorem Accounted.more_rows {more : List CreditEntry} (h : Accounted rows phantoms e) :
    Accounted (rows ++ more) phantoms e := by
  rcases h with ⟨c, hc, hident⟩ | hphantom
  · exact .inl ⟨c, mem_append_left _ hc, hident⟩
  · exact .inr hphantom

theorem Accounted.reconcile {cfg : Config} {arrived : Nat → Option Nat} {walletH : Nat}
    (h : Accounted rows phantoms e) :
    Accounted (reconcileCredits cfg arrived walletH rows).kept
      (phantoms ++ (reconcileCredits cfg arrived walletH rows).dropped) e := by
  rcases h with ⟨c, hc, hident⟩ | ⟨d, hd, hident⟩
  · rcases ident_mem_reconcileCredits cfg arrived walletH hc with ⟨c', hc', h'⟩ | ⟨c', hc', h'⟩
    · exact .inl ⟨c', hc', h'.trans hident⟩
    · exact .inr ⟨c', mem_append_right _ hc', h'.trans hident⟩
  · exact .inr ⟨d, mem_append_left _ hd, hident⟩

section Rows

variable {cfg : Config} {s s' : State} {l : Label}

theorem rowsInv_init : RowsInv {} :=
  ⟨lockInv_init, rfl, fun _ h => absurd h (by simp), fun _ _ _ h => absurd h (by simp)⟩

variable {c' : Shared} {ph : Phase}

theorem RowsInv.of_books (hinv : RowsInv s) {i : Nat} {ph' : Phase}
    (hlock : LockInv { s with shared := c', handlers := s.handlers.set i ph' })
    (hcredits : c'.credits = s.shared.credits) (happended : c'.log.appended = s.shared.log.appended)
    (hphantoms : c'.log.phantoms = s.shared.log.phantoms) (hwhole : c'.tmp.clash = false)
    (hcopy : ph'.copy = none) :
    RowsInv { s with shared := c', handlers := s.handlers.set i ph' } := by
  refine ⟨hlock, hwhole, fun e he => ?_, fun j ph arr hj harr e he => ?_⟩
  · show Accounted c'.credits c'.log.phantoms e
    rw [hcredits, hphantoms]
    exact hinv.kept e (happended ▸ he)
  · show Accounted arr c'.log.phantoms e
    rw [hphantoms]
    rcases getElem?_set_cases hj with ⟨-, rfl⟩ | ⟨-, hold⟩
    · rw [hcopy] at harr
      cases harr
    · exact hinv.loaded j ph arr hold harr e (happended ▸ he)

theorem RowsInv.arrive (hinv : RowsInv s)
    (hlock : LockInv { s with handlers := s.handlers ++ [ph] }) (hcopy : ph.copy = none) :
    RowsInv { s with handlers := s.handlers ++ [ph] } := by
  refine ⟨hlock, hinv.whole, hinv.kept, fun j q arr hj harr => ?_⟩
  rcases getElem?_concat_cases hj with rfl | hold
  · rw [hcopy] at harr
    cases harr
  · exact hinv.loaded j q arr hold harr

theorem Phase.holdsLock_of_copy {arr : List CreditEntry} (h : ph.copy = some arr) :
    ph.holdsLock = true := by
  cases ph with
  | appendLoaded block entries arr | appendSaving block entries arr => rfl
  | _ => cases h

theorem RowsInv.of_handler (hinv : RowsInv s) {i : Nat} {ph' : Phase}
    (hlock : LockInv { s with shared := c', handlers := s.handlers.set i ph' })
    (hph : s.handlers[i]? = some ph) (hmove : Move cfg i s.shared ph c' ph')
    (halone : ∀ block entries arr, ph = .appendLoaded block entries arr →
      s.shared.tmp.reconciler = false) :
    RowsInv { s with shared := c', handlers := s.handlers.set i ph' } := by
  have hwhole := hinv.whole
  cases hmove with
  | quiet hbooks _ _ hbare =>
    exact hinv.of_books hlock hbooks.credits (by rw [hbooks.log]) (by rw [hbooks.log])
      (by rwa [hbooks.tmp]) hbare.copy
  | check _ _ _ _ _ _ | verified | recorded | raised _ | reset =>
    exact hinv.of_books hlock rfl rfl rfl hwhole rfl
  | settle _ _ _ hc' =>
    subst hc'
    refine hinv.of_books hlock rfl rfl rfl hwhole ?_
    split <;> rfl
  | appendLoad =>
    -- the copy just loaded is the file
    refine ⟨hlock, hwhole, hinv.kept, fun j ph arr hj harr => ?_⟩
    rcases getElem?_set_cases hj with ⟨-, rfl⟩ | ⟨-, hold⟩
    · cases harr
      exact hinv.kept
    · exact hinv.loaded j ph arr hold harr
  | @appendOpen block entries arr _ hc' =>
    subst hc'
    refine ⟨hlock, ?_, hinv.kept, fun j ph arr' hj harr' => ?_⟩
    · simp [TempFile.setSettlement, hwhole, halone block entries arr rfl]
    · rcases getElem?_set_cases hj with ⟨-, rfl⟩ | ⟨-, hold⟩
      · cases harr'
        exact hinv.loaded i _ arr hph rfl
      · exact hinv.loaded j ph arr' hold harr'
  | @appendSave block entries arr _ hc' =>
    subst hc'
    have hcopy := hinv.loaded i _ arr hph rfl
    refine ⟨hlock, (TempFile.clash_set_false _).1 hwhole, fun e he => ?_,
      fun j ph arr' hj harr' => ?_⟩
    · rcases mem_append.mp he with hold | hnew
      · exact (hcopy e hold).more_rows
      · exact .inl ⟨e, mem_append_right _ hnew, rfl⟩
    · -- no other settlement is under way
      rcases getElem?_set_cases hj with ⟨-, rfl⟩ | ⟨hne, hold⟩
      · cases harr'
      · exact absurd (hinv.lock.unique hph rfl hold (Phase.holdsLock_of_copy harr')) hne
  | within _ _ _ _ hcopy hclash hc' =>
    subst hc'
    exact hinv.of_books hlock rfl rfl rfl (hclash hwhole) hcopy
  | release _ hbooks =>
    exact hinv.of_books hlock hbooks.credits (by rw [hbooks.log]) (by rw [hbooks.log])
      (by rw [hbooks.tmp]; exact hwhole) rfl

theorem RowsInv.of_reconciler (hinv : RowsInv s) {ph' : ReconcilerPhase}
    (hlock : LockInv { s with shared := c', reconciler := ph' })
    (hsaves : ∀ env, SavesWhatItLoaded cfg s (.reconcile env))
    (hmove : ReconcilerMove cfg s.shared s.reconciler c' ph') :
    RowsInv { s with shared := c', reconciler := ph' } := by
  have hwhole := hinv.whole
  generalize hrec : s.reconciler = rec at hmove
  cases hmove with
  | quiet blocks _ | load ts walletH ok => exact ⟨hlock, hwhole, hinv.kept, hinv.loaded⟩
  | classify _ hclash hc' =>
    subst hc'
    exact ⟨hlock, hclash hwhole, fun e he => (hinv.kept e he).more_phantoms,
      fun j ph arr hj harr e he => (hinv.loaded j ph arr hj harr e he).more_phantoms⟩
  | @beginSave ts walletH credits _ hwrites hc' =>
    subst hc'
    have halone := (hsaves {} ts walletH credits).1 hrec hwrites
    exact ⟨hlock, by simp [TempFile.setReconciler, hwhole, halone], hinv.kept, hinv.loaded⟩
  | @save ts walletH credits _ hc' =>
    subst hc'
    -- the file that is replaced is the one that was classified
    have hsame := (hsaves {} ts walletH credits).2 hrec
    refine ⟨hlock, (TempFile.clash_set_false _).2 hwhole, fun e he => ?_,
      fun j ph arr hj harr e he => (hinv.loaded j ph arr hj harr e he).more_phantoms⟩
    have hacc := hinv.kept e he
    rw [hsame] at hacc
    exact hacc.reconcile

theorem RowsInv.step (hinv : RowsInv s) (hsaves : SavesWhatItLoaded cfg s l)
    (hstep : poolStep cfg s l = some s') : RowsInv s' := by
  have hlock := hinv.lock.step hstep
  cases l with
  | refresh r =>
    rw [refresh_step hstep] at hlock ⊢
    refine ⟨hlock, ?_, ?_, ?_⟩
    · unfold refreshJob
      split <;> exact hinv.whole
    · show AppendedKept _
      unfold refreshJob
      split <;> exact hinv.kept
    · unfold refreshJob
      split <;> exact hinv.loaded
  | jobRequest wallet | request body =>
    cases hstep
    exact hinv.arrive hlock rfl
  | handler i env =>
    obtain ⟨ph, c', ph', hph, hmove, rfl⟩ := handler_step hstep
    exact hinv.of_handler hlock hph hmove fun block entries arr hsame =>
      hsaves block entries arr (hsame ▸ hph)
  | reconcile env =>
    obtain ⟨c', ph', hmove, rfl⟩ := reconcile_step hstep
    exact hinv.of_reconciler hlock (fun _ => hsaves) hmove
  | torn rows =>
    -- no two saves have met, so the step is disabled
    obtain ⟨hclash, -⟩ := torn_step hstep
    rw [hinv.whole] at hclash
    cases hclash
  | fund fund =>
    cases hstep
    exact ⟨hlock, hinv.whole, hinv.kept, hinv.loaded⟩
  | restart creditsOk blocksOk =>
    cases hstep
    exact ⟨hlock, rfl, hinv.kept, fun _ _ _ h => absurd h (by simp)⟩

/-- **No lost rows.** In every run in which each pass of the reconciler that saves the file finds it
as it loaded it, and no save of the file starts during another one, every appended row is in the
file, up to its amount, or was classified as a phantom. -/
theorem appended_rows_kept {ls : List Label}
    (hmeets : (pool cfg).Meets (SavesWhatItLoaded cfg) {} ls)
    (hexec : (pool cfg).exec {} ls = some s) : AppendedKept s :=
  ((pool cfg).invariant_of_meets (fun hinv hsaves hstep => RowsInv.step hinv hsaves hstep)
    rowsInv_init hmeets hexec).kept

end Rows

def savesWhatItLoadedCheck (s : State) : Label → Bool
  | .reconcile _ =>
    match s.reconciler with
    | .loaded _ _ _ => !s.shared.tmp.settlement
    | .saving _ _ loaded => s.shared.credits = loaded
    | _ => true
  | .handler _ _ => !s.shared.tmp.reconciler
  | _ => true

theorem savesWhatItLoaded_of_check (cfg : Config) (s : State) (l : Label)
    (h : savesWhatItLoadedCheck s l = true) : SavesWhatItLoaded cfg s l := by
  cases l with
  | reconcile env =>
    intro ts walletH loaded
    refine ⟨fun hrec _ => ?_, fun hrec => ?_⟩
    · simpa only [savesWhatItLoadedCheck, hrec, Bool.not_eq_true'] using h
    · simpa only [savesWhatItLoadedCheck, hrec, decide_eq_true_eq] using h
  | handler i env =>
    intro _ _ _ _
    simpa only [savesWhatItLoadedCheck, Bool.not_eq_true'] using h
  | _ => trivial

def nothingArrived : Label := .reconcile { transfers := some [], height := some 100 }

def laterRefresh : Label :=
  .refresh { token := "b", blockhashingBlob := some (List.replicate 76 1)
             blocktemplateBlob := some (List.replicate 120 1), seedHash := "", height := 6
             difficulty := 1000 }

def laterShare : Label := .request (.fields (.text "j_b") (some (sampleWallet '2')) (some 8) true)

theorem appended_rows_kept_sample :
    let run := [sampleRefresh, sampleShare '1' 7 true] ++ sections 0 17
      ++ [nothingArrived, nothingArrived, nothingArrived]
    ∃ s, (pool {}).exec {} run = some s
      ∧ (s.shared.log.appended.length, s.shared.credits, s.shared.log.phantoms.length)
        = (1, [], 1)
      ∧ AppendedKept s := by
  intro run
  have hend : ((pool {}).execChecked savesWhatItLoadedCheck {} run).map (fun s =>
      (s.shared.log.appended.length, s.shared.credits, s.shared.log.phantoms.length))
      = some (1, [], 1) := by
    decide +kernel
  obtain ⟨s, hexec, hmeets, hrows⟩ :=
    (pool {}).exists_of_checked (savesWhatItLoaded_of_check {}) hend
  exact ⟨s, hexec, hrows, appended_rows_kept hmeets hexec⟩

/-- The reconciler loads the file, a block at height 6 is settled, and the reconciler saves what it
kept of the older file: the row of height 6 is gone. -/
theorem appended_row_lost :
    ∃ s, (pool {}).exec {} ([sampleRefresh, sampleShare '1' 7 true] ++ sections 0 17
        ++ [nothingArrived, laterRefresh, laterShare] ++ sections 1 17
        ++ [nothingArrived, nothingArrived]) = some s
      ∧ s.shared.log.appended.map CreditEntry.height = [5, 6]
      ∧ s.shared.log.phantoms.map CreditEntry.height = [5]
      ∧ s.shared.credits = []
      ∧ ¬ AppendedKept s := by
  have hrun : ((pool {}).exec {} ([sampleRefresh, sampleShare '1' 7 true] ++ sections 0 17
        ++ [nothingArrived, laterRefresh, laterShare] ++ sections 1 17
        ++ [nothingArrived, nothingArrived])).map
      (fun s => (s.shared.log.appended, s.shared.log.phantoms, s.shared.credits))
      = some ([⟨5, sampleWallet '1', 1000, 1, 1, 0, 0⟩, ⟨6, sampleWallet '2', 1000, 1, 1, 0, 1⟩],
          [⟨5, sampleWallet '1', 1000, 1, 1, 0, 0⟩], []) := by
    decide +kernel
  obtain ⟨s, hexec, hrows⟩ := Option.map_eq_some_iff.mp hrun
  obtain ⟨happended, hphantoms, hcredits⟩ : _ ∧ _ ∧ _ := by
    simpa only [Prod.mk.injEq] using hrows
  refine ⟨s, hexec, by rw [happended]; rfl, by rw [hphantoms]; rfl, hcredits, fun hkept => ?_⟩
  have hlost := hkept ⟨6, sampleWallet '2', 1000, 1, 1, 0, 1⟩ (by rw [happended]; simp)
  rw [hphantoms, hcredits] at hlost
  rcases hlost with ⟨c, hc, -⟩ | ⟨d, hd, hident⟩
  · exact absurd hc (by simp)
  · rw [mem_singleton] at hd
    rw [hd] at hident
    exact absurd (ident_eq_fields hident).1 (by decide)

/-! ## One settlement a height -/

def ReloadsCredits : State → Label → Prop
  | _, .restart creditsOk _ => creditsOk = true
  | _, _ => True

def InPlay (s : State) (c : CreditEntry) : Prop :=
  c ∈ s.shared.credits ∨ (∃ ph ∈ s.handlers, c ∈ ph.rows) ∨ c ∈ s.reconciler.rows

/-- The guard knows the height of every row in play, and no height has rows of two
settlements. -/
structure GuardInv (s : State) : Prop where
  guarded : ∀ c, InPlay s c → c.height ∈ s.shared.settledHeights
  single : ∀ c c', InPlay s c → InPlay s c' → c.height = c'.height → c.settlement = c'.settlement

section Guard

variable {cfg : Config} {s s' : State} {l : Label}

/-- Every row in play has the height and the settlement of a row that was in play before, and no
settled height is forgotten. -/
theorem GuardInv.inherit (hinv : GuardInv s)
    (hrows : ∀ c, InPlay s' c → ∃ c₀, InPlay s c₀ ∧ c₀.height = c.height
      ∧ c₀.settlement = c.settlement)
    (hsettled : ∀ h ∈ s.shared.settledHeights, h ∈ s'.shared.settledHeights) : GuardInv s' := by
  refine ⟨fun c hc => ?_, fun c c' hc hc' hheight => ?_⟩
  · obtain ⟨c₀, h₀, hh, -⟩ := hrows c hc
    exact hh ▸ hsettled _ (hinv.guarded c₀ h₀)
  · obtain ⟨c₀, h₀, hh, hs⟩ := hrows c hc
    obtain ⟨c₁, h₁, hh', hs'⟩ := hrows c' hc'
    rw [← hs, ← hs']
    exact hinv.single c₀ c₁ h₀ h₁ (hh.trans (hheight.trans hh'.symm))

theorem GuardInv.mono (hinv : GuardInv s) (hrows : ∀ c, InPlay s' c → InPlay s c)
    (hsettled : ∀ h ∈ s.shared.settledHeights, h ∈ s'.shared.settledHeights) : GuardInv s' :=
  hinv.inherit (fun c hc => ⟨c, hrows c hc, rfl, rfl⟩) hsettled

variable {ph' : Phase} {c' : Shared} {i : Nat}

theorem InPlay.of_move {c : CreditEntry}
    (h : InPlay { s with shared := c', handlers := s.handlers.set i ph' } c)
    (hcredits : c'.credits = s.shared.credits) : InPlay s c ∨ c ∈ ph'.rows := by
  rcases h with hfile | ⟨ph, hph, hc⟩ | hrec
  · exact .inl (.inl (hcredits ▸ hfile))
  · rcases mem_or_eq_of_mem_set hph with hold | rfl
    · exact .inl (.inr (.inl ⟨ph, hold, hc⟩))
    · exact .inr hc
  · exact .inl (.inr (.inr hrec))

/-- A settlement at a height the guard does not know: its rows share one number, and no row in
play has their height. -/
theorem GuardInv.settle (hinv : GuardInv s) {height : Nat} (number : Nat)
    (hnew : height ∉ s.shared.settledHeights)
    (hrows : ∀ c, InPlay s' c → InPlay s c ∨ (c.height = height ∧ c.settlement = number))
    (hsettled : s'.shared.settledHeights = height :: s.shared.settledHeights) : GuardInv s' := by
  have hfresh : ∀ c, InPlay s c → c.height ≠ height :=
    fun c hc heq => hnew (heq ▸ hinv.guarded c hc)
  refine ⟨fun c hc => ?_, fun c₁ c₂ hc₁ hc₂ heq => ?_⟩
  · rw [hsettled]
    rcases hrows c hc with hold | ⟨hheight, -⟩
    · exact mem_cons_of_mem _ (hinv.guarded c hold)
    · rw [hheight]
      exact mem_cons_self
  · rcases hrows c₁ hc₁ with hold₁ | ⟨hh₁, hs₁⟩
    · rcases hrows c₂ hc₂ with hold₂ | ⟨hh₂, -⟩
      · exact hinv.single c₁ c₂ hold₁ hold₂ heq
      · exact absurd (heq.trans hh₂) (hfresh c₁ hold₁)
    · rcases hrows c₂ hc₂ with hold₂ | ⟨-, hs₂⟩
      · exact absurd (heq.symm.trans hh₁) (hfresh c₂ hold₂)
      · rw [hs₁, hs₂]

theorem GuardInv.arrive (hinv : GuardInv s) {ph : Phase} (hrows : ph.rows = []) :
    GuardInv { s with handlers := s.handlers ++ [ph] } := by
  refine hinv.mono (fun c hc => ?_) (fun _ h => h)
  rcases hc with hfile | ⟨q, hq, hc⟩ | hrec
  · exact .inl hfile
  · rcases mem_append.mp hq with hold | hnew
    · exact .inr (.inl ⟨q, hold, hc⟩)
    · rw [mem_singleton.mp hnew, hrows] at hc
      exact absurd hc (by simp)
  · exact .inr (.inr hrec)

theorem GuardInv.of_no_rows (hinv : GuardInv s) (hrows : ph'.rows = [])
    (hcredits : c'.credits = s.shared.credits)
    (hsettled : ∀ h ∈ s.shared.settledHeights, h ∈ c'.settledHeights) :
    GuardInv { s with shared := c', handlers := s.handlers.set i ph' } := by
  refine hinv.mono (fun c hc => ?_) hsettled
  rcases hc.of_move hcredits with hold | hnew
  · exact hold
  · rw [hrows] at hnew
    exact absurd hnew (by simp)

theorem GuardInv.of_handler (hinv : GuardInv s) {ph : Phase} (hph : s.handlers[i]? = some ph)
    (hmove : Move cfg i s.shared ph c' ph') :
    GuardInv { s with shared := c', handlers := s.handlers.set i ph' } := by
  have hmem : ph ∈ s.handlers := mem_of_getElem? hph
  cases hmove with
  | quiet hbooks _ _ hbare =>
    exact hinv.of_no_rows hbare.rows hbooks.credits (fun h hh => hbooks.settled ▸ hh)
  | check _ _ _ _ _ _ | verified | recorded | reset => exact hinv.of_no_rows rfl rfl (fun _ h => h)
  | @settle t block io S fund _ _ hnew hset hc' =>
    -- the only move that brings new rows: the guard did not know their height
    subst hc'
    refine hinv.settle s.shared.log.settlements.length hnew (fun c hc => ?_) rfl
    rcases hc.of_move rfl with hold | hentry
    · exact .inl hold
    · have hmem : c ∈ S.entries := by
        split at hentry
        · exact absurd hentry (by simp [Phase.rows])
        · exact hentry
      obtain ⟨hheight, hnumber, -⟩ := mem_settled hset hmem
      exact .inr ⟨hheight, hnumber⟩
  | raised _ => exact hinv.of_no_rows rfl rfl (fun _ h => mem_cons_of_mem _ h)
  | @appendLoad block entries =>
    -- the handler now carries the file's rows besides its own
    refine hinv.mono (fun c hc => ?_) (fun _ h => h)
    rcases hc.of_move rfl with hold | hnew
    · exact hold
    · rcases mem_append.mp hnew with hfile | hentry
      · exact .inl hfile
      · exact .inr (.inl ⟨_, hmem, hentry⟩)
  | @appendOpen block entries arr _ hc' =>
    subst hc'
    refine hinv.mono (fun c hc => ?_) (fun _ h => h)
    rcases hc.of_move rfl with hold | hcarried
    · exact hold
    · exact .inr (.inl ⟨_, hmem, hcarried⟩)
  | appendSave hc' =>
    -- the rows of the new file are those the handler carried
    subst hc'
    refine hinv.mono (fun c hc => ?_) (fun _ h => h)
    rcases hc with hfile | ⟨q, hq, hc⟩ | hrec
    · exact .inr (.inl ⟨_, hmem, hfile⟩)
    · rcases mem_or_eq_of_mem_set hq with hold | rfl
      · exact .inr (.inl ⟨q, hold, hc⟩)
      · exact absurd hc (by simp [Phase.rows])
    · exact .inr (.inr hrec)
  | within _ _ _ hrows _ _ hc' =>
    subst hc'
    exact hinv.of_no_rows hrows rfl (fun _ h => h)
  | release _ hbooks =>
    exact hinv.of_no_rows rfl hbooks.credits (fun h hh => hbooks.settled ▸ hh)

theorem InPlay.of_reconciler {ph' : ReconcilerPhase} {c : CreditEntry}
    (h : InPlay { s with shared := c', reconciler := ph' } c)
    (hcredits : c'.credits = s.shared.credits) : InPlay s c ∨ c ∈ ph'.rows := by
  rcases h with hfile | hhandler | hloaded
  · exact .inl (.inl (hcredits ▸ hfile))
  · exact .inl (.inr (.inl hhandler))
  · exact .inr hloaded

theorem GuardInv.of_reconciler_no_rows (hinv : GuardInv s) {ph' : ReconcilerPhase}
    (hrows : ph'.rows = []) (hcredits : c'.credits = s.shared.credits)
    (hsettled : c'.settledHeights = s.shared.settledHeights) :
    GuardInv { s with shared := c', reconciler := ph' } := by
  refine hinv.mono (fun c hc => ?_) (fun h hh => hsettled ▸ hh)
  rcases hc.of_reconciler hcredits with hold | hnew
  · exact hold
  · rw [hrows] at hnew
    exact absurd hnew (by simp)

theorem GuardInv.of_reconciler (hinv : GuardInv s) {ph' : ReconcilerPhase}
    (hmove : ReconcilerMove cfg s.shared s.reconciler c' ph') :
    GuardInv { s with shared := c', reconciler := ph' } := by
  generalize hrec : s.reconciler = rec at hmove
  cases hmove with
  | quiet blocks hrows => exact hinv.of_reconciler_no_rows hrows rfl rfl
  | load ts walletH ok =>
    refine hinv.mono (fun c hc => ?_) (fun _ h => h)
    rcases hc.of_reconciler rfl with hold | hloaded
    · exact hold
    · -- what was loaded is the file, or nothing
      left
      simp only [ReconcilerPhase.rows, loadJsonFile] at hloaded
      split at hloaded
      · exact hloaded
      · exact absurd hloaded (by simp)
  | classify hrows _ hc' =>
    subst hc'
    exact hinv.of_reconciler_no_rows hrows rfl rfl
  | beginSave _ hc' =>
    subst hc'
    refine hinv.mono (fun c hc => ?_) (fun _ h => h)
    rcases hc.of_reconciler rfl with hold | hloaded
    · exact hold
    · exact .inr (.inr (by rw [hrec]; exact hloaded))
  | save hc' =>
    -- the amounts change, so the rows of the new file only inherit height and settlement
    subst hc'
    refine hinv.inherit (fun c hc => ?_) (fun _ h => h)
    rcases hc with hfile | hhandler | hloaded
    · obtain ⟨c₀, hc₀, hident⟩ := exists_mem_reconcileCredits hfile
      obtain ⟨hheight, -, hsettlement⟩ := ident_eq_fields hident
      exact ⟨c₀, .inr (.inr (by rw [hrec]; exact hc₀)), hheight, hsettlement⟩
    · exact ⟨c, .inr (.inl hhandler), rfl, rfl⟩
    · exact absurd hloaded (by simp [ReconcilerPhase.rows])

/-- Whatever two saves at once leave in the file, its rows were in play. -/
theorem GuardInv.torn (hinv : GuardInv s) {rows : List CreditEntry}
    (hrows : ∀ c ∈ rows, ∃ c₀ ∈ s.rowsInPlay, c₀.ident = c.ident) :
    GuardInv { s with shared := { s.shared with credits := rows } } := by
  refine hinv.inherit (fun c hc => ?_) (fun _ h => h)
  rcases hc with hfile | hhandler | hloaded
  · obtain ⟨c₀, hc₀, hident⟩ := hrows c hfile
    obtain ⟨hheight, -, hsettlement⟩ := ident_eq_fields hident
    refine ⟨c₀, ?_, hheight, hsettlement⟩
    simpa [State.rowsInPlay, InPlay, or_assoc] using hc₀
  · exact ⟨c, .inr (.inl hhandler), rfl, rfl⟩
  · exact ⟨c, .inr (.inr hloaded), rfl, rfl⟩

theorem GuardInv.restart (hinv : GuardInv s) (blocksOk : Bool) :
    GuardInv { shared := restart true blocksOk s.shared } := by
  have hfile : ∀ c, InPlay { shared := Pool.restart true blocksOk s.shared } c →
      c ∈ s.shared.credits := by
    rintro c (hfile | ⟨ph, hph, -⟩ | hrec)
    · exact hfile
    · exact absurd hph (by simp)
    · exact absurd hrec (by simp [ReconcilerPhase.rows])
  refine ⟨fun c hc => ?_, fun c c' hc hc' => ?_⟩
  · exact mem_append_left _ (mem_map.mpr ⟨c, hfile c hc, rfl⟩)
  · exact hinv.single c c' (.inl (hfile c hc)) (.inl (hfile c' hc'))

theorem GuardInv.step (hinv : GuardInv s) (hreload : ReloadsCredits s l)
    (hstep : poolStep cfg s l = some s') : GuardInv s' := by
  cases l with
  | refresh r =>
    rw [refresh_step hstep]
    unfold refreshJob
    split <;> exact ⟨hinv.guarded, hinv.single⟩
  | jobRequest wallet | request body =>
    cases hstep
    exact hinv.arrive rfl
  | handler i env =>
    obtain ⟨ph, c', ph', hph, hmove, rfl⟩ := handler_step hstep
    exact hinv.of_handler hph hmove
  | reconcile env =>
    obtain ⟨c', ph', hmove, rfl⟩ := reconcile_step hstep
    exact hinv.of_reconciler hmove
  | torn rows =>
    obtain ⟨-, hrows, rfl⟩ := torn_step hstep
    exact hinv.torn hrows
  | fund fund =>
    cases hstep
    exact ⟨hinv.guarded, hinv.single⟩
  | restart creditsOk blocksOk =>
    cases hstep
    rw [show creditsOk = true from hreload]
    exact hinv.restart blocksOk

end Guard

end Glaciem.Pool
