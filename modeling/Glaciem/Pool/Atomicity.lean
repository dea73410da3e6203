import Glaciem.Pool.Moves

/-!
# Glaciem — is the settlement of an accepted block atomic?

`submit_block`, from the daemon's `OK` on, run without another thread in between: five pieces of
state are updated in sequence, with swallowed exceptions and early returns between them.

* `submitBlock` — the call as one function of the outcomes of its remote call and its file
  operations. It is what the handler's sections do when they run one after the other.
-/

namespace Glaciem.Pool

open List

/-! ## The call as one function -/

structure Outcomes where
  reward : Option Nat
  fundFile : FileIO
  creditsFile : FileIO
  blocksFile : FileIO

def appendCredits (io : FileIO) (entries : List CreditEntry) (c : Shared) : Shared :=
  if entries ≠ [] ∧ io.loadOk ∧ io.saveOk then
    { c with credits := c.credits ++ entries
             tmp := (c.tmp.setSettlement true).setSettlement false
             log := { c.log with appended := c.log.appended ++ entries } }
  else c

def appendBlock (io : FileIO) (block : BlockRow) (c : Shared) : Shared :=
  if io.loadOk ∧ io.saveOk then { c with blocks := (block :: c.blocks).take 200 } else c

def foundBlock (o : Outcomes) (t : Ticket) (c : Shared) : BlockRow :=
  ⟨t.template.height, o.reward.getD 0, c.stats.currentRoundShares⟩

def submitBlock (cfg : Config) (o : Outcomes) (t : Ticket) (c : Shared) : Shared :=
  let block := foundBlock o t c
  if block.height ∈ c.settledHeights then
    { c with stats := { c.stats with orphanDedupes := c.stats.orphanDedupes + 1 } }
  else
    let c := countBlock c t.wallet block
    match settleRound cfg o.fundFile c.log.settlements.length block c.minerStats c.sponsorship with
    | none => c
    | some (S, fund) =>
      appendBlock o.blocksFile block (resetRound
        (appendCredits o.creditsFile S.entries (noteSettlement c block S fund)))

/-! ## The call and the handler's sections -/

def Outcomes.env (o : Outcomes) : Phase → Env
  | .accepted _ => { reward := o.reward }
  | .found _ _ => { loadOk := o.fundFile.loadOk, saveOk := o.fundFile.saveOk }
  | .appending _ _ | .appendLoaded _ _ _ | .appendSaving _ _ _ =>
    { loadOk := o.creditsFile.loadOk, saveOk := o.creditsFile.saveOk }
  | .blockLoading _ | .blockLoaded _ _ =>
    { loadOk := o.blocksFile.loadOk, saveOk := o.blocksFile.saveOk }
  | _ => {}

def runAlone (cfg : Config) (o : Outcomes) (i : Nat) : Nat → Shared × Phase → Shared × Phase
  | 0, p => p
  | n + 1, (c, ph) =>
    match advance cfg (o.env ph) i c ph with
    | none => (c, ph)
    | some p => runAlone cfg o i n p

/-- The step is one of handler `i`, with what `o` says about the section it is at. -/
def Follows (o : Outcomes) (i : Nat) (s : State) (l : Label) : Prop :=
  ∃ ph, s.handlers[i]? = some ph ∧ l = .handler i (o.env ph)

section Alone

variable (cfg : Config) (o : Outcomes) (i : Nat)

theorem runAlone_done (n : Nat) (c : Shared) (reply : Reply) :
    runAlone cfg o i n (c, .done reply) = (c, .done reply) := by
  cases n with
  | zero => rfl
  | succ n => rfl

theorem runAlone_succ {n : Nat} {c : Shared} {ph : Phase} {p : Shared × Phase}
    (h : advance cfg (o.env ph) i c ph = some p) :
    runAlone cfg o i (n + 1) (c, ph) = runAlone cfg o i n p := by
  rw [runAlone, h]

theorem runAlone_settled (c : Shared) (block : BlockRow) (n : Nat) :
    runAlone cfg o i (n + 3) (c, .settled block)
      = ({ appendBlock o.blocksFile block (resetRound c) with stateLock := none },
          .done .block) := by
  rw [runAlone_succ cfg o i (rfl : advance _ _ _ _ (.settled block) = _)]
  cases hload : o.blocksFile.loadOk with
  | false =>
    have hadv : advance cfg (o.env (.blockLoading block)) i (resetRound c) (.blockLoading block)
        = some ({ resetRound c with stateLock := none }, .done .block) := by
      simp [advance, Outcomes.env, hload]
    rw [runAlone_succ cfg o i hadv, runAlone_done, appendBlock, if_neg (by simp [hload])]
  | true =>
    have hadv : advance cfg (o.env (.blockLoading block)) i (resetRound c) (.blockLoading block)
        = some (resetRound c, .blockLoaded block (resetRound c).blocks) := by
      simp [advance, Outcomes.env, hload]
    rw [runAlone_succ cfg o i hadv,
      runAlone_succ cfg o i (rfl : advance _ _ _ _ (.blockLoaded block _) = _), runAlone_done]
    cases hsave : o.blocksFile.saveOk with
    | false => simp [appendBlock, Outcomes.env, hsave]
    | true => simp [appendBlock, Outcomes.env, hload, hsave]

theorem runAlone_appending (c : Shared) (block : BlockRow) {entries : List CreditEntry}
    (hne : entries ≠ []) :
    runAlone cfg o i 6 (c, .appending block entries)
      = ({ appendBlock o.blocksFile block (resetRound (appendCredits o.creditsFile entries c)) with
            stateLock := none }, .done .block) := by
  cases hload : o.creditsFile.loadOk with
  | false =>
    have hadv : advance cfg (o.env (.appending block entries)) i c (.appending block entries)
        = some (c, .settled block) := by
      simp [advance, Outcomes.env, hload]
    rw [runAlone_succ cfg o i hadv, runAlone_settled cfg o i c block 2, appendCredits,
      if_neg (by simp [hload])]
  | true =>
    have hadv : advance cfg (o.env (.appending block entries)) i c (.appending block entries)
        = some (c, .appendLoaded block entries c.credits) := by
      simp [advance, Outcomes.env, hload]
    rw [runAlone_succ cfg o i hadv]
    cases hsave : o.creditsFile.saveOk with
    | false =>
      have hfail : advance cfg (o.env (.appendLoaded block entries c.credits)) i c
          (.appendLoaded block entries c.credits) = some (c, .settled block) := by
        simp [advance, Outcomes.env, hsave]
      rw [runAlone_succ cfg o i hfail, runAlone_settled cfg o i _ block 1, appendCredits,
        if_neg (by simp [hsave])]
    | true =>
      have hopened : advance cfg (o.env (.appendLoaded block entries c.credits)) i c
          (.appendLoaded block entries c.credits)
            = some ({ c with tmp := c.tmp.setSettlement true },
                .appendSaving block entries c.credits) := by
        simp [advance, Outcomes.env, hsave]
      have hsaved : advance cfg (o.env (.appendSaving block entries c.credits)) i
          { c with tmp := c.tmp.setSettlement true } (.appendSaving block entries c.credits)
            = some (appendCredits o.creditsFile entries c, .settled block) := by
        simp [advance, Outcomes.env, appendCredits, hload, hsave, hne]
      rw [runAlone_succ cfg o i hopened, runAlone_succ cfg o i hsaved,
        runAlone_settled cfg o i _ block 0]

theorem settlement_lock (entries : List CreditEntry) (block : BlockRow) {c : Shared}
    (hfree : c.stateLock = none) :
    { appendBlock o.blocksFile block (resetRound (appendCredits o.creditsFile entries
        { c with stateLock := some i })) with stateLock := none }
      = appendBlock o.blocksFile block (resetRound (appendCredits o.creditsFile entries c)) := by
  obtain ⟨jobs, currentJob, recentJobs, settledHeights, minerStats, stats, hard, stateLock,
    credits, tmp, blocks, sponsorship, log⟩ := c
  cases hfree
  unfold appendBlock appendCredits
  split
  · split <;> rfl
  · split <;> rfl

theorem runAlone_submitBlock {c : Shared} (hfree : c.stateLock = none) (t : Ticket) :
    ∃ reply, runAlone cfg o i 9 (c, .accepted t) = (submitBlock cfg o t c, .done reply) := by
  rw [runAlone_succ cfg o i (rfl : advance _ _ _ _ (.accepted t) = _),
    runAlone_succ cfg o i (rfl : advance _ _ _ _ (.rewarded t _) = _)]
  show ∃ reply, runAlone cfg o i 7 (c, .found t (foundBlock o t c)) = _
  have hadv : advance cfg (o.env (.found t (foundBlock o t c))) i c (.found t (foundBlock o t c))
      = some (enterSettlement cfg (o.env (.found t (foundBlock o t c))) i c t
          (foundBlock o t c)) := by
    rw [advance, Shared.locked, if_pos hfree]
  rw [runAlone_succ cfg o i hadv]
  unfold enterSettlement submitBlock
  by_cases hsettled : (foundBlock o t c).height ∈ c.settledHeights
  · simp only [if_pos hsettled]
    exact ⟨_, runAlone_done cfg o i _ _ _⟩
  · simp only [if_neg hsettled]
    cases hset : settleRound cfg o.fundFile
        (countBlock c t.wallet (foundBlock o t c)).log.settlements.length (foundBlock o t c)
        (countBlock c t.wallet (foundBlock o t c)).minerStats
        (countBlock c t.wallet (foundBlock o t c)).sponsorship with
    | none =>
      simp only [Outcomes.env, hset]
      exact ⟨_, runAlone_done cfg o i _ _ _⟩
    | some result =>
      obtain ⟨S, fund⟩ := result
      simp only [Outcomes.env, hset]
      refine ⟨.block, ?_⟩
      have hfree' : (noteSettlement (countBlock c t.wallet (foundBlock o t c)) (foundBlock o t c)
          S fund).stateLock = none := hfree
      rw [← settlement_lock o i S.entries (foundBlock o t c) hfree']
      by_cases hnil : S.entries = []
      · rw [if_pos hnil, runAlone_settled cfg o i _ _ 3, appendCredits, if_neg (by simp [hnil])]
      · rw [if_neg hnil, runAlone_appending cfg o i _ _ hnil]

theorem exec_runAlone (n : Nat) {s : State} {ph : Phase} (hph : s.handlers[i]? = some ph) :
    ∃ ls, (pool cfg).Meets (Follows o i) s ls
      ∧ (pool cfg).exec s ls = some { s with
          shared := (runAlone cfg o i n (s.shared, ph)).1
          handlers := s.handlers.set i (runAlone cfg o i n (s.shared, ph)).2 } := by
  have hstay : s.handlers.set i ph = s.handlers := by
    obtain ⟨pre, post, hsplit, hset⟩ := exists_split_set hph
    rw [hset, ← hsplit]
  induction n generalizing s ph with
  | zero => exact ⟨[], trivial, by simp only [runAlone, hstay]; rfl⟩
  | succ n ih =>
    cases hadv : advance cfg (o.env ph) i s.shared ph with
    | none =>
      refine ⟨[], trivial, ?_⟩
      simp only [runAlone, hadv, hstay]
      rfl
    | some p =>
      obtain ⟨c', ph'⟩ := p
      -- the step of this section, then the rest
      have hlt : i < s.handlers.length := (List.getElem?_eq_some_iff.mp hph).1
      have hph' : (s.handlers.set i ph')[i]? = some ph' := List.getElem?_set_self hlt
      obtain ⟨ls, hls, hexec⟩ := ih (s := { s with shared := c', handlers := s.handlers.set i ph' })
        hph' (set_set _)
      have hstep : (pool cfg).step s (.handler i (o.env ph))
          = some { s with shared := c', handlers := s.handlers.set i ph' } := by
        simp only [pool, poolStep, hph, hadv]
      refine ⟨.handler i (o.env ph) :: ls, ⟨⟨ph, hph, rfl⟩, fun s' hs' => ?_⟩, ?_⟩
      · rw [hstep] at hs'
        cases hs'
        exact hls
      · refine (System.exec_cons _).mpr ⟨_, hstep, ?_⟩
        rw [hexec, runAlone_succ cfg o i hadv, set_set]

end Alone

/-! ## The two outcomes -/

def fundRemaining : Option Sponsorship → Int
  | none => 0
  | some st => st.remainingAtomic

def fundDebit (c c' : Shared) : Int := fundRemaining c.sponsorship - fundRemaining c'.sponsorship

/-- The rows of the round: one for every wallet with shares and a positive slice of the block's
reward and the bonus. -/
def roundCredits (cfg : Config) (reward : Nat) (bonus : Int) (t : Ticket) (c : Shared) :
    List CreditEntry :=
  creditEntries cfg t.template.height bonus c.log.settlements.length
    (distributable cfg reward bonus) c.roundTotal c.minerStats.items

/-- The round is settled as a whole: its rows are in the file, with the bonus that the fund was
debited, and the counters are reset. -/
structure SettledWhole (cfg : Config) (reward : Nat) (t : Ticket) (c c' : Shared) : Prop where
  credits : c'.credits = c.credits ++ roundCredits cfg reward (fundDebit c c') t c
  bonus : roundCredits cfg reward (fundDebit c c') t c = [] → fundDebit c c' = 0
  current : c'.stats.currentRoundShares = 0
  shares : ∀ item ∈ c'.minerStats.items, item.2.sharesThisRound = 0

structure Untouched (c c' : Shared) : Prop where
  current : c'.stats.currentRoundShares = c.stats.currentRoundShares
  shares : c'.minerStats.items.map (fun item => (item.1, item.2.sharesThisRound))
    = c.minerStats.items.map (fun item => (item.1, item.2.sharesThisRound))
  settled : c'.settledHeights = c.settledHeights
  fund : c'.sponsorship = c.sponsorship

def payees (cfg : Config) (reward : Nat) (bonus : Int) (c : Shared) : List (String × MinerStats) :=
  paidWallets cfg (distributable cfg reward bonus) c.roundTotal c.minerStats.items

/-- The height was settled before; or the reward is not seen, and nobody would be paid anyway; or
the fund cannot be saved, and the round is empty; or no bonus is drawn for a round that pays nobody,
and the credits file can be written if it pays somebody. -/
def SettlesCleanly (cfg : Config) (reward : Nat) (lookupOk : Bool) (fundFile creditsFile : FileIO)
    (t : Ticket) (c : Shared) : Prop :=
  t.template.height ∈ c.settledHeights ∨
  if lookupOk = false ∨ reward = 0 then payees cfg reward 0 c = []
  else if 0 < offeredBonus fundFile c.sponsorship ∧ fundFile.saveOk = false then c.roundTotal = 0
  else
    (payees cfg reward (offeredBonus fundFile c.sponsorship) c = [] →
      offeredBonus fundFile c.sponsorship = 0)
    ∧ (payees cfg reward (offeredBonus fundFile c.sponsorship) c ≠ [] →
      creditsFile.loadOk = true ∧ creditsFile.saveOk = true)

/-! ## What the call leaves -/

section Call

variable {cfg : Config} {o : Outcomes} {t : Ticket} {c : Shared}

theorem untouched_of_settled (hsettled : t.template.height ∈ c.settledHeights) :
    Untouched c (submitBlock cfg o t c) := by
  have hcall : submitBlock cfg o t c
      = { c with stats := { c.stats with orphanDedupes := c.stats.orphanDedupes + 1 } } :=
    if_pos hsettled
  rw [hcall]
  exact ⟨rfl, rfl, rfl, rfl⟩

abbrev settlementOf (cfg : Config) (o : Outcomes) (t : Ticket) (c : Shared) :
    Option (Settlement × Option Sponsorship) :=
  settleRound cfg o.fundFile c.log.settlements.length (foundBlock o t c)
    (countBlock c t.wallet (foundBlock o t c)).minerStats c.sponsorship

theorem submitBlock_of_new (hnew : t.template.height ∉ c.settledHeights) :
    submitBlock cfg o t c = match settlementOf cfg o t c with
      | none => countBlock c t.wallet (foundBlock o t c)
      | some (S, fund) => appendBlock o.blocksFile (foundBlock o t c) (resetRound
          (appendCredits o.creditsFile S.entries
            (noteSettlement (countBlock c t.wallet (foundBlock o t c))
              (foundBlock o t c) S fund))) :=
  if_neg hnew

theorem submitBlock_of_raise (hnew : t.template.height ∉ c.settledHeights)
    (hset : settlementOf cfg o t c = none) :
    submitBlock cfg o t c = countBlock c t.wallet (foundBlock o t c) := by
  rw [submitBlock_of_new hnew, hset]

variable {S : Settlement} {fund : Option Sponsorship}

theorem submitBlock_of_settle (hnew : t.template.height ∉ c.settledHeights)
    (hset : settlementOf cfg o t c = some (S, fund)) :
    (submitBlock cfg o t c).credits = (appendCredits o.creditsFile S.entries c).credits
      ∧ (submitBlock cfg o t c).sponsorship = fund
      ∧ (submitBlock cfg o t c).stats.currentRoundShares = 0
      ∧ (∀ item ∈ (submitBlock cfg o t c).minerStats.items, item.2.sharesThisRound = 0)
      ∧ (submitBlock cfg o t c).settledHeights = t.template.height :: c.settledHeights := by
  have hreset : ∀ (d : Shared), ∀ item ∈ (resetRound d).minerStats.items,
      item.2.sharesThisRound = 0 := by
    intro d item hitem
    obtain ⟨item', -, rfl⟩ := mem_map.mp hitem
    rfl
  rw [submitBlock_of_new hnew, hset]
  unfold appendBlock appendCredits
  by_cases hwrite : S.entries ≠ [] ∧ o.creditsFile.loadOk = true ∧ o.creditsFile.saveOk = true
  · simp only [if_pos hwrite]
    split <;> exact ⟨rfl, rfl, rfl, hreset _, rfl⟩
  · simp only [if_neg hwrite]
    split <;> exact ⟨rfl, rfl, rfl, hreset _, rfl⟩

theorem appendCredits_credits_iff (io : FileIO) (entries : List CreditEntry) (c : Shared) :
    (appendCredits io entries c).credits = c.credits ++ entries
      ↔ (entries ≠ [] → io.loadOk = true ∧ io.saveOk = true) := by
  unfold appendCredits
  by_cases hne : entries = []
  · simp [hne]
  · by_cases hio : io.loadOk = true ∧ io.saveOk = true
    · simp [hne, hio]
    · rw [if_neg (fun h => hio h.2)]
      refine iff_of_false (fun h => hne ?_) (fun h => hio (h hne))
      exact self_eq_append_right.mp h

theorem roundCredits_eq_nil_iff (cfg : Config) (reward : Nat) (bonus : Int) (t : Ticket)
    (c : Shared) : roundCredits cfg reward bonus t c = [] ↔ payees cfg reward bonus c = [] := by
  rw [← length_eq_zero_iff, ← length_eq_zero_iff, roundCredits, length_creditEntries]
  rfl

theorem entries_eq_roundCredits (hround : c.roundTotal = c.stats.currentRoundShares)
    (hreward : (foundBlock o t c).rewardAtomic ≠ 0)
    (hset : settlementOf cfg o t c = some (S, fund)) :
    S.entries = roundCredits cfg (foundBlock o t c).rewardAtomic S.bonus t c := by
  rw [(settleRound_eq_some hset hreward).2, roundCredits, hround]
  exact creditEntries_congr _ _ _ _ _ _ (shares_countBlock c t.wallet (foundBlock o t c))

theorem debit_of_consume {io : FileIO} {fund' : Option Sponsorship} {bonus : Int}
    (hcons : sponsorshipConsumeBlock io fund = some (bonus, fund')) :
    fundRemaining fund - fundRemaining fund' = bonus := by
  rcases (sponsorshipConsumeBlock_eq_some hcons).2 with ⟨rfl, rfl⟩ | ⟨-, st, rfl, rfl⟩
  · exact Int.sub_self _
  · show st.remainingAtomic - (st.remainingAtomic - bonus) = bonus
    omega

theorem settledWhole_of_raise_iff (reward : Nat)
    (hround : c.roundTotal = c.stats.currentRoundShares)
    (hnew : t.template.height ∉ c.settledHeights)
    (hset : settlementOf cfg o t c = none) :
    SettledWhole cfg reward t c (submitBlock cfg o t c) ↔ c.roundTotal = 0 := by
  rw [submitBlock_of_raise hnew hset]
  have hzero : (∀ item ∈ (countBlock c t.wallet (foundBlock o t c)).minerStats.items,
      item.2.sharesThisRound = 0) ↔ c.roundTotal = 0 := by
    rw [← roundTotal_countBlock c t.wallet (foundBlock o t c), Shared.roundTotal, Dict.sumBy,
      sum_eq_zero_iff, forall_mem_map]
  refine ⟨fun h => hzero.mp h.shares, fun htotal => ?_⟩
  have hdebit : fundDebit c (countBlock c t.wallet (foundBlock o t c)) = 0 := Int.sub_self _
  have hrows : ∀ bonus, roundCredits cfg reward bonus t c = [] := by
    intro bonus
    rw [roundCredits, htotal, creditEntries_total_zero]
  refine ⟨?_, fun _ => hdebit, ?_, hzero.mpr htotal⟩
  · rw [hrows, append_nil]
    rfl
  · show c.stats.currentRoundShares = 0
    rw [← hround, htotal]

theorem settledWhole_of_no_reward_iff (reward : Nat)
    (hnew : t.template.height ∉ c.settledHeights)
    (hzero : (foundBlock o t c).rewardAtomic = 0) :
    SettledWhole cfg reward t c (submitBlock cfg o t c) ↔ payees cfg reward 0 c = [] := by
  have hset : settlementOf cfg o t c = some (⟨0, []⟩, c.sponsorship) := if_pos hzero
  obtain ⟨hcredits, hfund, hcurrent, hshares, -⟩ := submitBlock_of_settle hnew hset
  have hsame : (submitBlock cfg o t c).credits = c.credits := by
    rw [hcredits, appendCredits, if_neg (by simp)]
  have hdebit : fundDebit c (submitBlock cfg o t c) = 0 := by
    rw [fundDebit, hfund]
    exact Int.sub_self _
  rw [← roundCredits_eq_nil_iff cfg reward 0 t c]
  constructor
  · intro h
    have hrows := h.credits
    rw [hsame, hdebit] at hrows
    exact self_eq_append_right.mp hrows
  · intro hnil
    refine ⟨?_, fun _ => hdebit, hcurrent, hshares⟩
    rw [hsame, hdebit, hnil, append_nil]

theorem settledWhole_of_settle_iff (hround : c.roundTotal = c.stats.currentRoundShares)
    (hnew : t.template.height ∉ c.settledHeights) (hreward : (foundBlock o t c).rewardAtomic ≠ 0)
    (hset : settlementOf cfg o t c = some (S, fund)) :
    SettledWhole cfg (foundBlock o t c).rewardAtomic t c (submitBlock cfg o t c)
      ↔ (payees cfg (foundBlock o t c).rewardAtomic (offeredBonus o.fundFile c.sponsorship) c = [] →
          offeredBonus o.fundFile c.sponsorship = 0)
        ∧ (payees cfg (foundBlock o t c).rewardAtomic
          (offeredBonus o.fundFile c.sponsorship) c ≠ [] →
          o.creditsFile.loadOk = true ∧ o.creditsFile.saveOk = true) := by
  obtain ⟨hcredits, hfund, hcurrent, hshares, -⟩ := submitBlock_of_settle hnew hset
  have hcons := (settleRound_eq_some hset hreward).1
  have hbonus : S.bonus = offeredBonus o.fundFile c.sponsorship :=
    (sponsorshipConsumeBlock_eq_some hcons).1
  have hentries := entries_eq_roundCredits hround hreward hset
  have hdebit : fundDebit c (submitBlock cfg o t c) = S.bonus := by
    rw [fundDebit, hfund]
    exact debit_of_consume hcons
  rw [← hbonus, ← roundCredits_eq_nil_iff cfg _ S.bonus t c, Ne,
    ← roundCredits_eq_nil_iff cfg _ S.bonus t c, ← hentries]
  have hwritten : (submitBlock cfg o t c).credits = c.credits ++ S.entries
      ↔ (S.entries ≠ [] → o.creditsFile.loadOk = true ∧ o.creditsFile.saveOk = true) := by
    rw [hcredits]
    exact appendCredits_credits_iff _ _ _
  constructor
  · intro h
    have hrows := h.credits
    have hdrawn := h.bonus
    rw [hdebit, ← hentries] at hrows hdrawn
    exact ⟨hdrawn, hwritten.mp hrows⟩
  · rintro ⟨hdrawn, hio⟩
    refine ⟨?_, ?_, hcurrent, hshares⟩
    · rw [hdebit, ← hentries]
      exact hwritten.mpr hio
    · rw [hdebit, ← hentries]
      exact hdrawn

theorem not_untouched_of_new (hnew : t.template.height ∉ c.settledHeights) :
    ¬ Untouched c (submitBlock cfg o t c) := by
  intro h
  have hsettled : (submitBlock cfg o t c).settledHeights
    = t.template.height :: c.settledHeights := by
    cases hset : settlementOf cfg o t c with
    | none =>
      rw [submitBlock_of_raise hnew hset]
      rfl
    | some result => exact (submitBlock_of_settle hnew hset).2.2.2.2
  have hsame := h.settled
  rw [hsettled] at hsame
  exact cons_ne_self _ _ hsame

end Call

/-- **Atomicity, exactly.** Over any state whose round counter is the sum of the wallets' counters:
whatever the outcomes of the remote call and the file operations, the call settles the round as a
whole or leaves it untouched exactly when it `SettlesCleanly`. -/
theorem submitBlock_atomic_iff (cfg : Config) (reward : Nat) (lookupOk : Bool)
    (fundFile creditsFile blocksFile : FileIO) (t : Ticket) (c : Shared)
    (hround : c.roundTotal = c.stats.currentRoundShares) :
    let o : Outcomes := ⟨if lookupOk then some reward else none, fundFile, creditsFile, blocksFile⟩
    (SettledWhole cfg reward t c (submitBlock cfg o t c) ∨ Untouched c (submitBlock cfg o t c))
      ↔ SettlesCleanly cfg reward lookupOk fundFile creditsFile t c := by
  intro o
  by_cases hsettled : t.template.height ∈ c.settledHeights
  · exact iff_of_true (Or.inr (untouched_of_settled hsettled)) (Or.inl hsettled)
  rw [SettlesCleanly, or_iff_right hsettled, or_iff_left (not_untouched_of_new hsettled)]
  have hseen : (foundBlock o t c).rewardAtomic = if lookupOk then reward else 0 := by
    show (if lookupOk then some reward else none).getD 0 = _
    cases lookupOk <;> rfl
  by_cases hmissing : lookupOk = false ∨ reward = 0
  · rw [if_pos hmissing]
    refine settledWhole_of_no_reward_iff reward hsettled ?_
    rw [hseen]
    rcases hmissing with rfl | rfl
    · rfl
    · exact ite_self 0
  · rw [if_neg hmissing]
    rw [not_or, Bool.not_eq_false] at hmissing
    rw [if_pos hmissing.1] at hseen
    have hreward : (foundBlock o t c).rewardAtomic ≠ 0 := hseen ▸ hmissing.2
    cases hset : settlementOf cfg o t c with
    | none =>
      rw [if_pos (settleRound_eq_none_iff.mp hset).2]
      exact settledWhole_of_raise_iff reward hround hsettled hset
    | some result =>
      have hsaved : ¬ (0 < offeredBonus fundFile c.sponsorship ∧ fundFile.saveOk = false) := by
        intro hraise
        rw [settlementOf, settleRound_eq_none_iff.mpr ⟨hreward, hraise⟩] at hset
        cases hset
      rw [if_neg hsaved, ← hseen]
      exact settledWhole_of_settle_iff hround hsettled hreward hset

def oneMiner : Shared :=
  { minerStats := Dict.empty.set (sampleWallet '1') { sharesThisRound := 1 }
    stats := { currentRoundShares := 1 }
    sponsorship := some ⟨true, 10, 100, 0⟩ }

def oneMinerTicket : Ticket :=
  { job := 0
    template := { jobId := "j_a", blockhashingBlob := none, blocktemplateBlob := none
                  seedHash := "", height := 5, networkDifficulty := 1000, shareDifficulty := 1 }
    wallet := sampleWallet '1', nonce := 7, fullBlock := true, now := 0 }

theorem submitBlock_atomic_when_all_succeed :
    let c' := submitBlock {} ⟨some 1000, {}, {}, {}⟩ oneMinerTicket oneMiner
    c'.credits.map CreditEntry.atomic = [1010]
      ∧ (SettledWhole {} 1000 oneMinerTicket oneMiner c' ∨ Untouched oneMiner c') := by
  refine ⟨by decide +kernel, ?_⟩
  refine (submitBlock_atomic_iff {} 1000 true {} {} {} oneMinerTicket oneMiner rfl).mpr ?_
  unfold SettlesCleanly
  decide +kernel

def OneMinerAtomic (o : Outcomes) : Prop :=
  SettledWhole {} 1000 oneMinerTicket oneMiner (submitBlock {} o oneMinerTicket oneMiner)
    ∨ Untouched oneMiner (submitBlock {} o oneMinerTicket oneMiner)

theorem not_oneMinerAtomic {o : Outcomes}
    (hguard : (submitBlock {} o oneMinerTicket oneMiner).settledHeights ≠ oneMiner.settledHeights)
    (hrows : (submitBlock {} o oneMinerTicket oneMiner).credits
      ≠ oneMiner.credits ++ roundCredits {} 1000
        (fundDebit oneMiner (submitBlock {} o oneMinerTicket oneMiner)) oneMinerTicket oneMiner) :
    ¬ OneMinerAtomic o := by
  intro hatomic
  cases hatomic with
  | inl hwhole => exact hrows hwhole.credits
  | inr huntouched => exact hguard huntouched.settled

/-- A failed reward lookup, a fund that cannot be saved, and a credits file that cannot be written
each leave the round half settled. The first and the third lose its credits, the third also the
bonus; the second keeps the counters but marks the height as settled. -/
theorem submitBlock_not_atomic :
    ¬ OneMinerAtomic ⟨none, {}, {}, {}⟩
      ∧ ¬ OneMinerAtomic ⟨some 1000, { saveOk := false }, {}, {}⟩
      ∧ ¬ OneMinerAtomic ⟨some 1000, {}, { saveOk := false }, {}⟩ :=
  ⟨not_oneMinerAtomic (by decide +kernel) (by decide +kernel),
    not_oneMinerAtomic (by decide +kernel) (by decide +kernel),
    not_oneMinerAtomic (by decide +kernel) (by decide +kernel)⟩

/-- From the daemon's `OK` on, with the lock free, the sections of one handler, with the outcomes
`o`, lead to what `submitBlock` says, whatever the other threads are at. -/
theorem settles_alone (cfg : Config) (o : Outcomes) {i : Nat} {s : State} {t : Ticket}
    (hph : s.handlers[i]? = some (.accepted t)) (hfree : s.shared.stateLock = none) :
    ∃ ls reply, (pool cfg).Meets (Follows o i) s ls
      ∧ (pool cfg).exec s ls = some { s with
          shared := submitBlock cfg o t s.shared
          handlers := s.handlers.set i (.done reply) } := by
  obtain ⟨ls, hls, hexec⟩ := exec_runAlone cfg o i 9 hph
  obtain ⟨reply, halone⟩ := runAlone_submitBlock cfg o i hfree t
  rw [halone] at hexec
  exact ⟨ls, reply, hls, hexec⟩

theorem settles_alone_sample : ∃ ls s,
    (pool {}).exec { shared := oneMiner, handlers := [.accepted oneMinerTicket] } ls = some s
      ∧ s.shared.credits.map CreditEntry.atomic = [1010] := by
  have hcredits : (submitBlock {} ⟨some 1000, {}, {}, {}⟩ oneMinerTicket oneMiner).credits.map
      CreditEntry.atomic = [1010] := by decide +kernel
  obtain ⟨ls, reply, -, hexec⟩ := settles_alone {} ⟨some 1000, {}, {}, {}⟩ (i := 0)
    (s := { shared := oneMiner, handlers := [.accepted oneMinerTicket] }) rfl rfl
  exact ⟨ls, _, hexec, hcredits⟩

end Glaciem.Pool
