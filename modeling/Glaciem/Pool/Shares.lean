import Glaciem.Pool.Moves

/-!
# Glaciem — counting shares, and settling what was counted

Two races of the submit path, stated over whole runs of the pool.

* **Double counting.** The duplicate check and the insertion of the key are two sections, with the
  verification between them, and the key names the wallet although the work does not depend on it.
* **A stale denominator.** `round_shares` is read before the settlement takes the lock.
-/

namespace Glaciem.Pool

open List

/-! ## Double counting -/

def ShareRecord.unit (r : ShareRecord) : Nat × UInt32 := (r.job, r.nonce)

def timesCounted (s : State) (job : Nat) (nonce : UInt32) : Nat :=
  s.shared.log.shares.countP (fun r => r.job = job ∧ r.nonce = nonce)

/-- The log records what the round's counters count: a section that raises `current_round_shares` or
a wallet's `shares_this_round` adds one share to the log, and to each of the two. -/
theorem Move.counters {cfg : Config} {i : Nat} {c c' : Shared} {ph ph' : Phase}
    (hmove : Move cfg i c ph c' ph') :
    (∃ r, c'.log.shares = c.log.shares ++ [r] ∧ c'.roundTotal = c.roundTotal + 1
        ∧ c'.stats.currentRoundShares = c.stats.currentRoundShares + 1)
      ∨ (c'.log.shares = c.log.shares ∧ c'.roundTotal ≤ c.roundTotal
        ∧ c'.stats.currentRoundShares ≤ c.stats.currentRoundShares) := by
  cases hmove with
  | quiet hbooks _ _ _ | release _ hbooks =>
    exact .inr ⟨by rw [hbooks.log], hbooks.round.le, hbooks.current.le⟩
  | check _ _ _ _ _ _ | verified | appendLoad => exact .inr ⟨rfl, le_rfl, le_rfl⟩
  | recorded => exact .inl ⟨_, rfl, roundTotal_recordShare c _, rfl⟩
  | @settle t block _ _ _ _ _ _ _ hc' =>
    subst hc'
    exact .inr ⟨rfl, (roundTotal_countBlock c t.wallet block).le, le_rfl⟩
  | @raised t block _ _ => exact .inr ⟨rfl, (roundTotal_countBlock c t.wallet block).le, le_rfl⟩
  | appendOpen hc' | appendSave hc' | within _ _ _ _ _ _ hc' =>
    subst hc'
    exact .inr ⟨rfl, le_rfl, le_rfl⟩
  | reset => exact .inr ⟨rfl, (roundTotal_resetRound c).trans_le (Nat.zero_le _), Nat.zero_le _⟩

/-- A share that enters the duplicate check meets no other handler that verifies or records the
same job and nonce, and no key of another wallet for this nonce. -/
def NoRace : State → Label → Prop
  | s, .handler i _ => ∀ req id job, s.handlers[i]? = some (.admitted req) →
      req.jobId = .text id → s.shared.recentJobs.get? id = some job →
      (∀ ph ∈ s.handlers, ph.unit ≠ some (job, req.nonce))
        ∧ ∀ w, w ≠ req.wallet → dedupeKey w req.nonce ∉ s.shared.submissions job
  | _, _ => True

/-- No unit is both counted and under way, or either of them twice; and every counted share has
left its key. -/
structure SharesInv (s : State) : Prop where
  heap : ∀ ph ∈ s.handlers, ∀ u, ph.unit = some u → u.1 < s.shared.jobs.length
  logged : ∀ r ∈ s.shared.log.shares,
    r.job < s.shared.jobs.length ∧ dedupeKey r.wallet r.nonce ∈ s.shared.submissions r.job
  unique : (s.shared.log.shares.map ShareRecord.unit ++ s.handlers.filterMap Phase.unit).Nodup

theorem sharesInv_init : SharesInv {} :=
  ⟨fun _ h => absurd h (by simp), fun _ h => absurd h (by simp), nodup_nil⟩

theorem units_perm (counted : List (Nat × UInt32)) (pre : List Phase) (ph : Phase)
    (post : List Phase) :
    (counted ++ (pre ++ ph :: post).filterMap Phase.unit).Perm
      (ph.unit.toList ++ (counted ++ (pre.filterMap Phase.unit ++ post.filterMap Phase.unit))) :=
  ((filterMap_split_perm Phase.unit pre ph post).append_left counted).trans
    (perm_append_comm_assoc _ _ _)

section Step

variable {cfg : Config} {s s' : State} {i : Nat}

variable (hinv : SharesInv s)

include hinv

theorem SharesInv.of_no_new_unit {ph ph' : Phase} {c' : Shared}
    (hph : s.handlers[i]? = some ph) (hheap : c'.jobs.length = s.shared.jobs.length)
    (hsub : c'.submissions = s.shared.submissions) (hlog : c'.log.shares = s.shared.log.shares)
    (hunit : ph'.unit = none ∨ ph'.unit = ph.unit) :
    SharesInv { s with shared := c', handlers := s.handlers.set i ph' } := by
  obtain ⟨pre, post, hsplit, hset⟩ := exists_split_set hph
  have hmem : ph ∈ s.handlers := mem_of_getElem? hph
  refine ⟨fun q hq u hu => ?_, fun r hr => ?_, ?_⟩
  · show u.1 < c'.jobs.length
    rw [hheap]
    rcases mem_or_eq_of_mem_set hq with hold | rfl
    · exact hinv.heap q hold u hu
    · rcases hunit with hnone | hsame
      · rw [hnone] at hu
        cases hu
      · exact hinv.heap ph hmem u (hsame ▸ hu)
  · show r.job < c'.jobs.length ∧ _ ∈ c'.submissions r.job
    rw [hheap, hsub]
    exact hinv.logged r (hlog ▸ hr)
  · show (c'.log.shares.map ShareRecord.unit
      ++ (s.handlers.set i ph').filterMap Phase.unit).Nodup
    have hold := hinv.unique
    rw [hsplit, (units_perm _ _ _ _).nodup_iff] at hold
    rw [hlog, hset, (units_perm _ _ _ _).nodup_iff]
    rcases hunit with hnone | hsame
    · rw [hnone]
      exact hold.sublist (sublist_append_right _ _)
    · rw [hsame]
      exact hold

theorem SharesInv.arrive {ph : Phase} (hph : ph.unit = none) :
    SharesInv { s with handlers := s.handlers ++ [ph] } := by
  refine ⟨fun q hq u hu => ?_, hinv.logged, ?_⟩
  · rcases mem_append.mp hq with hold | hnew
    · exact hinv.heap q hold u hu
    · rw [mem_singleton] at hnew
      rw [hnew, hph] at hu
      cases hu
  · show (_ ++ (s.handlers ++ [ph]).filterMap Phase.unit).Nodup
    rw [filterMap_append, filterMap_cons_none hph, filterMap_nil, append_nil]
    exact hinv.unique

theorem SharesInv.of_shares {c' : Shared} {rec : ReconcilerPhase}
    (hjobs : c'.jobs = s.shared.jobs) (hlog : c'.log.shares = s.shared.log.shares) :
    SharesInv { s with shared := c', reconciler := rec } := by
  have hsub : c'.submissions = s.shared.submissions := by
    unfold Shared.submissions
    rw [hjobs]
  refine ⟨fun q hq u hu => ?_, fun r hr => ?_, ?_⟩
  · show u.1 < c'.jobs.length
    rw [hjobs]
    exact hinv.heap q hq u hu
  · show r.job < c'.jobs.length ∧ _ ∈ c'.submissions r.job
    rw [hjobs, hsub]
    exact hinv.logged r (hlog ▸ hr)
  · show (c'.log.shares.map ShareRecord.unit ++ _).Nodup
    rw [hlog]
    exact hinv.unique

theorem SharesInv.refresh (r : TemplateReply) :
    SharesInv { s with shared := refreshJob cfg s.shared r } := by
  unfold refreshJob
  split
  · exact hinv
  · refine ⟨fun q hq u hu => ?_, fun rec hrec => ?_, hinv.unique⟩
    · show u.1 < (s.shared.jobs ++ [_]).length
      rw [length_append]
      exact Nat.lt_add_right _ (hinv.heap q hq u hu)
    · obtain ⟨hlt, hkey⟩ := hinv.logged rec hrec
      refine ⟨?_, ?_⟩
      · show rec.job < (s.shared.jobs ++ [_]).length
        rw [length_append]
        exact Nat.lt_add_right _ hlt
      · simp only [Shared.submissions] at hkey ⊢
        rwa [getElem?_append_left hlt]

theorem SharesInv.check {req : Request} {t : Ticket} {id : String}
    (hph : s.handlers[i]? = some (.admitted req)) (hid : req.jobId = .text id)
    (hjob : s.shared.recentJobs.get? id = some t.job) (hwallet : t.wallet = req.wallet)
    (hnonce : t.nonce = req.nonce) (hheap : t.job < s.shared.jobs.length)
    (hnew : dedupeKey t.wallet t.nonce ∉ s.shared.submissions t.job) {env : Env}
    (hrace : NoRace s (.handler i env)) :
    SharesInv { s with handlers := s.handlers.set i (.verifying t) } := by
  obtain ⟨hothers, hkeys⟩ := hrace req id t.job hph hid hjob
  obtain ⟨pre, post, hsplit, hset⟩ := exists_split_set hph
  refine ⟨fun q hq u hu => ?_, hinv.logged, ?_⟩
  · rcases mem_or_eq_of_mem_set hq with hold | rfl
    · exact hinv.heap q hold u hu
    · cases hu
      exact hheap
  · show (s.shared.log.shares.map ShareRecord.unit
      ++ (s.handlers.set i (.verifying t)).filterMap Phase.unit).Nodup
    have hold := hinv.unique
    rw [hset, (units_perm _ _ _ _).nodup_iff]
    show ((t.job, t.nonce) :: (s.shared.log.shares.map ShareRecord.unit
      ++ (pre.filterMap Phase.unit ++ post.filterMap Phase.unit))).Nodup
    refine nodup_cons.mpr ⟨fun hmem => ?_, ?_⟩
    · rcases mem_append.mp hmem with hcounted | hunderway
      · -- counted before: by this wallet, which the code checks, or by another one
        obtain ⟨r, hr, hunit⟩ := mem_map.mp hcounted
        obtain ⟨hrjob, hrnonce⟩ := Prod.mk.inj hunit
        have hkey := (hinv.logged r hr).2
        rw [hrjob, hrnonce] at hkey
        by_cases hw : r.wallet = t.wallet
        · exact hnew (hw ▸ hkey)
        · rw [hwallet] at hw
          rw [hnonce] at hkey
          exact hkeys r.wallet hw hkey
      · have hin : (t.job, t.nonce) ∈ s.handlers.filterMap Phase.unit := by
          rw [hsplit, (filterMap_split_perm Phase.unit pre _ post).mem_iff]
          exact hunderway
        obtain ⟨q, hq, hqu⟩ := mem_filterMap.mp hin
        exact hothers q hq (hnonce ▸ hqu)
    · rw [hsplit, (units_perm _ _ _ _).nodup_iff] at hold
      exact hold

theorem SharesInv.record {t : Ticket}
    (hph : s.handlers[i]? = some (.valid t)) :
    SharesInv { s with shared := recordShare s.shared t
                       handlers := s.handlers.set i (.credited t) } := by
  have hlen : (recordShare s.shared t).jobs.length = s.shared.jobs.length := by
    show (modify _ _ _).length = _
    exact length_modify _ _ _
  have hheap : t.job < s.shared.jobs.length := hinv.heap _ (mem_of_getElem? hph) _ rfl
  have hsub : ∀ job, (recordShare s.shared t).submissions job
      = if t.job = job ∧ t.job < s.shared.jobs.length
        then dedupeKey t.wallet t.nonce :: s.shared.submissions job
        else s.shared.submissions job :=
    fun job => submissions_addSubmission s.shared t.job job _
  obtain ⟨pre, post, hsplit, hset⟩ := exists_split_set hph
  refine ⟨fun q hq u hu => ?_, fun r hr => ?_, ?_⟩
  · show u.1 < (recordShare s.shared t).jobs.length
    rw [hlen]
    rcases mem_or_eq_of_mem_set hq with hold | rfl
    · exact hinv.heap q hold u hu
    · cases hu
  · show r.job < (recordShare s.shared t).jobs.length
      ∧ _ ∈ (recordShare s.shared t).submissions r.job
    rw [hlen, hsub]
    rcases mem_append.mp hr with hold | hnew
    · obtain ⟨hlt, hkey⟩ := hinv.logged r hold
      refine ⟨hlt, ?_⟩
      split
      · exact mem_cons_of_mem _ hkey
      · exact hkey
    · rw [mem_singleton] at hnew
      subst hnew
      exact ⟨hheap, by rw [if_pos ⟨rfl, hheap⟩]; exact mem_cons_self⟩
  · -- the unit moves from the handler to the log
    show ((s.shared.log.shares ++ [_]).map ShareRecord.unit
      ++ (s.handlers.set i (.credited t)).filterMap Phase.unit).Nodup
    have hold := hinv.unique
    rw [hsplit, (units_perm _ _ _ _).nodup_iff] at hold
    rw [hset, (units_perm _ _ _ _).nodup_iff, map_append, append_assoc]
    exact perm_middle.nodup_iff.mpr hold

theorem SharesInv.step {l : Label} (hrace : NoRace s l)
    (hstep : poolStep cfg s l = some s') : SharesInv s' := by
  cases l with
  | refresh r =>
    rw [refresh_step hstep]
    exact hinv.refresh r
  | jobRequest wallet | request body =>
    cases hstep
    exact hinv.arrive rfl
  | handler i env =>
    obtain ⟨ph, c', ph', hph, hmove, rfl⟩ := handler_step hstep
    cases hmove with
    | quiet hbooks _ _ hbare =>
      exact hinv.of_no_new_unit hph hbooks.heap hbooks.submissions (by rw [hbooks.log])
        (.inl hbare.unit)
    | check hid hjob hwallet hnonce hheap hnew =>
      exact hinv.check hph hid hjob hwallet hnonce hheap hnew hrace
    | verified => exact hinv.of_no_new_unit hph rfl rfl rfl (.inr rfl)
    | recorded => exact hinv.record hph
    | settle _ _ _ hc' =>
      subst hc'
      refine hinv.of_no_new_unit hph rfl rfl rfl (.inl ?_)
      split <;> rfl
    | raised _ | appendLoad | reset => exact hinv.of_no_new_unit hph rfl rfl rfl (.inl rfl)
    | appendOpen hc' | appendSave hc' =>
      subst hc'
      exact hinv.of_no_new_unit hph rfl rfl rfl (.inl rfl)
    | within _ _ hunit _ _ _ hc' =>
      subst hc'
      exact hinv.of_no_new_unit hph rfl rfl rfl (.inl hunit)
    | release _ hbooks =>
      exact hinv.of_no_new_unit hph hbooks.heap hbooks.submissions (by rw [hbooks.log])
        (.inl rfl)
  | reconcile env =>
    obtain ⟨c', ph', hmove, rfl⟩ := reconcile_step hstep
    obtain ⟨credits, tmp, blocks, phantoms, rfl⟩ := hmove.frame
    exact hinv.of_shares rfl rfl
  | torn rows =>
    obtain ⟨-, -, rfl⟩ := torn_step hstep
    exact hinv.of_shares rfl rfl
  | fund fund =>
    cases hstep
    exact ⟨hinv.heap, hinv.logged, hinv.unique⟩
  | restart creditsOk blocksOk =>
    cases hstep
    exact ⟨fun _ h => absurd h (by simp), hinv.logged,
      hinv.unique.sublist ((nil_sublist _).append_left _)⟩

end Step

/-- **Counting once.** In every run in which no share passes the duplicate check while another
handler is at work on the same job and nonce, or after another wallet had it counted, every
unit of work is counted at most once. -/
theorem shares_counted_once (cfg : Config) {ls : List Label} {s : State}
    (hmeets : (pool cfg).Meets NoRace {} ls) (hexec : (pool cfg).exec {} ls = some s)
    (job : Nat) (nonce : UInt32) : timesCounted s job nonce ≤ 1 := by
  have hinv : SharesInv s :=
    (pool cfg).invariant_of_meets (fun hinv hrace hstep => SharesInv.step hinv hrace hstep)
      sharesInv_init hmeets hexec
  have hnodup := hinv.unique.sublist (sublist_append_left _ _)
  have hcount := nodup_iff_count_le_one.mp hnodup (job, nonce)
  rw [count, countP_map] at hcount
  refine le_trans (le_of_eq ?_) hcount
  refine countP_congr fun r _ => ?_
  simp [ShareRecord.unit, Prod.ext_iff]

/-! ### Runs -/

def sampleRefresh : Label :=
  .refresh { token := "a", blockhashingBlob := some (replicate 76 1)
             blocktemplateBlob := some (replicate 120 1), seedHash := "", height := 5
             difficulty := 1000 }

def sampleShare (c : Char) (nonce : Int) (fullBlock : Bool) : Label :=
  .request (.fields (.text "j_a") (some (sampleWallet c)) (some nonce) fullBlock)

def sampleEnv : Env := { now := 100, dataset := some (fun _ _ => true), reward := some 1000 }

def sections (i n : Nat) : List Label := replicate n (.handler i sampleEnv)

def noRaceCheck (s : State) : Label → Bool
  | .handler i _ =>
    match s.handlers[i]? with
    | some (.admitted req) =>
      s.shared.jobs.all (fun job => job.submissions.isEmpty)
        && s.handlers.all (fun ph => match ph.unit with
          | none => true
          | some u => u.2 ≠ req.nonce)
    | _ => true
  | _ => true

theorem noRace_of_check (s : State) (l : Label) (h : noRaceCheck s l = true) : NoRace s l := by
  cases l with
  | handler i env =>
    intro req id job hph hid hjob
    simp only [noRaceCheck, hph, Bool.and_eq_true, all_eq_true] at h
    refine ⟨fun ph hmem hunit => ?_, fun w _ hkey => ?_⟩
    · have hne := h.2 ph hmem
      simp [hunit] at hne
    · unfold Shared.submissions at hkey
      cases hget : s.shared.jobs[job]? with
      | none =>
        rw [hget] at hkey
        exact absurd hkey (by simp)
      | some j =>
        rw [hget] at hkey
        have hempty := h.1 j (mem_of_getElem? hget)
        rw [List.isEmpty_iff] at hempty
        exact absurd hkey (by simp [hempty])
  | _ => trivial

theorem shares_counted_once_sample :
    let run := [sampleRefresh, sampleShare '1' 7 false, sampleShare '2' 8 false]
      ++ sections 0 5 ++ sections 1 5 ++ sections 0 2 ++ sections 1 2
    ∃ s, (pool {}).exec {} run = some s ∧ s.shared.log.shares.length = 2
      ∧ timesCounted s 0 7 ≤ 1 := by
  intro run
  have hlen : ((pool {}).execChecked noRaceCheck {} run).map
      (fun s => s.shared.log.shares.length) = some 2 := by
    decide +kernel
  obtain ⟨s, hexec, hmeets, hshares⟩ := (pool {}).exists_of_checked noRace_of_check hlen
  exact ⟨s, hexec, hshares, shares_counted_once {} hmeets hexec 0 7⟩

/-- Two requests with one share pass the duplicate check before either is recorded; or two wallets
submit the same nonce. -/
theorem share_counted_twice :
    ((pool {}).exec {} ([sampleRefresh, sampleShare '1' 7 false, sampleShare '1' 7 false]
        ++ sections 0 4 ++ sections 1 4 ++ sections 0 2 ++ sections 1 2)).map
      (fun s => (timesCounted s 0 7, s.shared.stats.currentRoundShares)) = some (2, 2)
    ∧ ((pool {}).exec {} ([sampleRefresh, sampleShare '1' 7 false]
        ++ sections 0 6 ++ [sampleShare '2' 7 false] ++ sections 1 6)).map
      (fun s => (timesCounted s 0 7, s.shared.stats.currentRoundShares)) = some (2, 2) := by
  constructor
  · decide +kernel
  · decide +kernel

/-! ## A stale denominator -/

/-- In every state of a run the round counter is the sum of the wallets' counters. -/
theorem round_counter_of_run {cfg : Config} {ls : List Label} {s : State}
    (hexec : (pool cfg).exec {} ls = some s) :
    s.shared.roundTotal = s.shared.stats.currentRoundShares :=
  (pool cfg).invariant_of_exec (fun h hstep => roundTotal_step h hstep) rfl hexec

theorem round_counter_of_run_sample : ∃ s, (pool {}).exec {}
      ([sampleRefresh, sampleShare '1' 7 false] ++ sections 0 7) = some s
    ∧ s.shared.stats.currentRoundShares = 1 ∧ s.shared.roundTotal = 1 := by
  have hrun : ((pool {}).exec {} ([sampleRefresh, sampleShare '1' 7 false] ++ sections 0 7)).map
      (fun s => s.shared.stats.currentRoundShares) = some 1 := by decide +kernel
  obtain ⟨s, hs, hone⟩ := Option.map_eq_some_iff.mp hrun
  exact ⟨s, hs, hone, (round_counter_of_run hs).trans hone⟩

def SettlementRecord.total (r : SettlementRecord) : Nat := (r.shares.map Prod.snd).sum

/-- A settlement credits at most the distributable amount, and each wallet of the round its
proportional slice of it, rounded down. -/
def FairSettlement (cfg : Config) (r : SettlementRecord) : Prop :=
  (totalAtomic r.entries : Int) ≤ distributable cfg r.block.rewardAtomic r.bonus
    ∧ ∀ p ∈ r.shares, 0 < p.2 →
      (creditedTo r.entries p.1 : Int)
        = distributable cfg r.block.rewardAtomic r.bonus * p.2 / r.total

/-- A handler that enters the settlement of a new block with a reward carries the share total of the
round as it now stands. -/
def FreshTotal : State → Label → Prop
  | s, .handler i _ => ∀ t block, s.handlers[i]? = some (.found t block) →
      block.height ∉ s.shared.settledHeights → block.rewardAtomic ≠ 0 →
      block.roundShares = s.shared.stats.currentRoundShares
  | _, _ => True

structure RoundInv (cfg : Config) (s : State) : Prop where
  total : s.shared.roundTotal = s.shared.stats.currentRoundShares
  fair : ∀ r ∈ s.shared.log.settlements, FairSettlement cfg r

theorem roundInv_init (cfg : Config) : RoundInv cfg {} := ⟨rfl, fun _ h => absurd h (by simp)⟩

section Fair

variable {cfg : Config} {io : FileIO} {k : Nat} {block : BlockRow}
  {stats : Dict String MinerStats} {fund fund' : Option Sponsorship} {S : Settlement}

theorem fair_of_no_reward (hset : settleRound cfg io k block stats fund = some (S, fund'))
    (hreward : block.rewardAtomic = 0) (shares : List (String × Nat)) :
    FairSettlement cfg ⟨block, S.bonus, S.entries, shares⟩ := by
  rw [settleRound, if_pos hreward, Option.some.injEq, Prod.mk.injEq] at hset
  obtain ⟨rfl, -⟩ := hset
  have hdist : distributable cfg block.rewardAtomic 0 = 0 := by
    unfold distributable
    rw [hreward, poolCut_zero]
    rfl
  refine ⟨?_, fun p _ _ => ?_⟩
  · show (0 : Int) ≤ distributable cfg block.rewardAtomic 0
    rw [hdist]
  · show (0 : Int) = distributable cfg block.rewardAtomic 0 * p.2 / _
    rw [hdist, Int.zero_mul, Int.zero_ediv]

theorem fair_of_total (hround : cfg.rounding = .exact) (hfee : cfg.poolFeePercent ≤ 100)
    (hset : settleRound cfg io k block stats fund = some (S, fund'))
    (hreward : block.rewardAtomic ≠ 0)
    (htotal : block.roundShares = stats.sumBy MinerStats.sharesThisRound) :
    FairSettlement cfg ⟨block, S.bonus, S.entries,
      stats.items.map (fun item => (item.1, item.2.sharesThisRound))⟩ := by
  obtain ⟨hcons, hentries⟩ := settleRound_eq_some hset hreward
  have hbonus : 0 ≤ S.bonus := by
    rw [(sponsorshipConsumeBlock_eq_some hcons).1]
    exact nextBonus_nonneg _
  have hdist : 0 ≤ distributable cfg block.rewardAtomic S.bonus := by
    have hcut := poolCut_le hround hfee block.rewardAtomic
    unfold distributable
    omega
  have hsum : (stats.items.map (fun item => item.2.sharesThisRound)).sum = block.roundShares :=
    htotal.symm
  refine ⟨?_, fun p hp hpos => ?_⟩
  · show (totalAtomic S.entries : Int) ≤ _
    rcases Nat.eq_zero_or_pos block.roundShares with hzero | hpos
    · rw [hentries, hzero, creditEntries_total_zero]
      exact hdist
    · rw [hentries]
      exact totalAtomic_creditEntries_le _ _ _ _ _ _ hround hdist hpos (le_of_eq hsum)
  · obtain ⟨item, hitem, rfl⟩ := mem_map.mp hp
    have htot : SettlementRecord.total ⟨block, S.bonus, S.entries,
        stats.items.map (fun item => (item.1, item.2.sharesThisRound))⟩ = block.roundShares := by
      rw [SettlementRecord.total, map_map]
      exact hsum
    show (creditedTo S.entries item.1 : Int)
      = distributable cfg block.rewardAtomic S.bonus * item.2.sharesThisRound / _
    rw [htot, hentries, creditedTo_creditEntries _ _ _ _ _ _ stats.nodup hitem,
      Config.slice_exact hround hdist]
    generalize distributable cfg block.rewardAtomic S.bonus = dist at hdist
    obtain ⟨d, rfl⟩ := Int.eq_ofNat_of_zero_le hdist
    simp

end Fair

theorem RoundInv.fair_of_move {cfg : Config} (hround : cfg.rounding = .exact)
    (hfee : cfg.poolFeePercent ≤ 100) {s : State} {i : Nat} {env : Env} {ph ph' : Phase}
    {c' : Shared} (hinv : RoundInv cfg s)
    (hfresh : FreshTotal s (.handler i env)) (hph : s.handlers[i]? = some ph)
    (hmove : Move cfg i s.shared ph c' ph') :
    ∀ r ∈ c'.log.settlements, FairSettlement cfg r := by
  cases hmove with
  | quiet hbooks _ _ _ | release _ hbooks =>
    rw [hbooks.log]
    exact hinv.fair
  | check _ _ _ _ _ _ | verified | recorded | raised _ | appendLoad | reset => exact hinv.fair
  | @settle t block io S fund _ _ hnew hset hc' =>
    subst hc'
    have htotal := roundTotal_countBlock s.shared t.wallet block
    intro r hr
    rcases mem_append.mp hr with hold | hlast
    · exact hinv.fair r hold
    · rw [mem_singleton] at hlast
      subst hlast
      by_cases hreward : block.rewardAtomic = 0
      · exact fair_of_no_reward hset hreward _
      · -- the total the finder carries is the total of the counters the settlement reads
        have hshares := hfresh t block hph hnew hreward
        exact fair_of_total hround hfee hset hreward
          (hshares.trans (hinv.total.symm.trans htotal.symm))
  | appendOpen hc' | appendSave hc' | within _ _ _ _ _ _ hc' =>
    subst hc'
    exact hinv.fair

theorem RoundInv.step {cfg : Config} (hround : cfg.rounding = .exact)
    (hfee : cfg.poolFeePercent ≤ 100) {s s' : State} {l : Label} (hinv : RoundInv cfg s)
    (hfresh : FreshTotal s l) (hstep : poolStep cfg s l = some s') : RoundInv cfg s' := by
  refine ⟨roundTotal_step hinv.total hstep, ?_⟩
  cases l with
  | refresh r =>
    rw [refresh_step hstep]
    unfold refreshJob
    split <;> exact hinv.fair
  | jobRequest wallet | request body | fund fund | restart creditsOk blocksOk =>
    cases hstep
    exact hinv.fair
  | handler i env =>
    obtain ⟨ph, c', ph', hph, hmove, rfl⟩ := handler_step hstep
    exact hinv.fair_of_move hround hfee hfresh hph hmove
  | reconcile env =>
    obtain ⟨c', ph', hmove, rfl⟩ := reconcile_step hstep
    obtain ⟨credits, tmp, blocks, phantoms, rfl⟩ := hmove.frame
    exact hinv.fair
  | torn rows =>
    obtain ⟨-, -, rfl⟩ := torn_step hstep
    exact hinv.fair

/-- **Fair settlements.** With exact quotients and a fee of at most 100 percent, in every run in
which each settlement starts with the share total as it then stands, every settlement credits at
most the distributable amount, and each wallet its slice of it. -/
theorem settlements_fair {cfg : Config} (hround : cfg.rounding = .exact)
    (hfee : cfg.poolFeePercent ≤ 100) {ls : List Label} {s : State}
    (hmeets : (pool cfg).Meets FreshTotal {} ls) (hexec : (pool cfg).exec {} ls = some s) :
    ∀ r ∈ s.shared.log.settlements, FairSettlement cfg r :=
  ((pool cfg).invariant_of_meets
    (fun hinv hfresh hstep => RoundInv.step hround hfee hinv hfresh hstep)
    (roundInv_init cfg) hmeets hexec).fair

def freshTotalCheck (s : State) : Label → Bool
  | .handler i _ =>
    match s.handlers[i]? with
    | some (.found _ block) => block.roundShares = s.shared.stats.currentRoundShares
    | _ => true
  | _ => true

theorem freshTotal_of_check (s : State) (l : Label) (h : freshTotalCheck s l = true) :
    FreshTotal s l := by
  cases l with
  | handler i env =>
    intro t block hph _ _
    simpa only [freshTotalCheck, hph, decide_eq_true_eq] using h
  | _ => trivial

theorem settlements_fair_sample :
    let run := [sampleRefresh, sampleShare '1' 7 false, sampleShare '2' 8 true]
      ++ sections 0 6 ++ sections 1 11
    let cfg : Config := { rounding := .exact }
    ∃ s, (pool cfg).exec {} run = some s
      ∧ s.shared.log.settlements.map (fun r => r.entries.map CreditEntry.atomic) = [[500, 500]]
      ∧ ∀ r ∈ s.shared.log.settlements, FairSettlement cfg r := by
  intro run cfg
  have hentries : ((pool cfg).execChecked freshTotalCheck {} run).map (fun s =>
      s.shared.log.settlements.map (fun r => r.entries.map CreditEntry.atomic))
      = some [[500, 500]] := by
    decide +kernel
  obtain ⟨s, hexec, hmeets, hatomic⟩ := (pool cfg).exists_of_checked freshTotal_of_check hentries
  exact ⟨s, hexec, hatomic, settlements_fair rfl (by decide +kernel) hmeets hexec⟩

/-- The finder of a block reads a share total of 1, and another wallet's share is counted before the
settlement takes the lock. It credits 1000 to both, out of 1000. -/
theorem settlement_overdraws :
    ∃ s r, (pool {}).exec {} ([sampleRefresh, sampleShare '1' 7 true] ++ sections 0 10
        ++ [sampleShare '2' 8 false] ++ sections 1 6 ++ sections 0 1) = some s
      ∧ r ∈ s.shared.log.settlements
      ∧ r.entries.map CreditEntry.atomic = [1000, 1000]
      ∧ distributable {} r.block.rewardAtomic r.bonus = 1000
      ∧ ¬ FairSettlement {} r := by
  have hrun : ((pool {}).exec {} ([sampleRefresh, sampleShare '1' 7 true]
        ++ sections 0 10 ++ [sampleShare '2' 8 false] ++ sections 1 6 ++ sections 0 1)).map
      (fun s => s.shared.log.settlements)
      = some [{ block := ⟨5, 1000, 1⟩, bonus := 0
                entries := [⟨5, sampleWallet '1', 1000, 1, 1, 0, 0⟩,
                  ⟨5, sampleWallet '2', 1000, 1, 1, 0, 0⟩]
                shares := [(sampleWallet '1', 1), (sampleWallet '2', 1)] }] := by
    decide +kernel
  obtain ⟨s, hexec, hlog⟩ := Option.map_eq_some_iff.mp hrun
  have hdist : distributable {} 1000 0 = 1000 := by decide +kernel
  refine ⟨s, _, hexec, hlog ▸ mem_singleton_self _, rfl, hdist, fun hfair => ?_⟩
  have hle := hfair.1
  simp only [hdist] at hle
  exact absurd hle (by decide)

end Glaciem.Pool
