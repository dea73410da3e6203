import Glaciem.Chain.Runs

/-!
# Glaciem — emission along the chain

What the chain records as generated coins, against what its coinbases pay out. The outputs of a
block are its penalised reward plus fees, as words, and the recorded coins grow by the reward
(`Extends.amounts`).
-/

namespace Glaciem.Chain

open List

open HardFork (versionAt)

variable {H : Type} [DecidableEq H] {R : Rules H}

/-! ## One block -/

def penalisedReward (R : Rules H) (chain : List (Entry H)) (e : Entry H) : UInt64 :=
  (getBlockReward (rewardMedian chain (versionAt chain.length) (R.nextWeightMedian chain))
    (blockWeight e.block e.txs) (coinsOf chain) (versionAt chain.length)).getD 0

def Entry.outs (e : Entry H) : List UInt64 := e.block.minerTx.vout

def Entry.fees (e : Entry H) : List UInt64 := e.txs.map Tx.fee

theorem exactCoinbase_versionAt (height : Nat) : ExactCoinbase (versionAt height) := by
  unfold ExactCoinbase versionAt
  split
  · exact .inr (by decide)
  · exact .inl (by decide)

structure Amounts (R : Rules H) (chain : List (Entry H)) (e : Entry H) : Prop where
  coins : e.coins = addCoins (coinsOf chain) (penalisedReward R chain e)
  outs : penalisedReward R chain e + wrapSum e.fees = wrapSum e.outs
  fit : checkOutsOverflow e.outs = true
  penalty : (penalisedReward R chain e).toNat
    ≤ (baseReward (coinsOf chain) (versionAt chain.length)).toNat

variable {chain : List (Entry H)} {e : Entry H}

theorem Extends.amounts (h : Extends R chain e) : Amounts R chain e := by
  obtain ⟨reward, hreward, hentry⟩ := h.recorded
  obtain ⟨hblock, hsum⟩ :=
    validateMinerTransaction_eq_some (exactCoinbase_versionAt chain.length) hreward
  have hpenalised : penalisedReward R chain e = reward := by
    rw [penalisedReward, hblock, Option.getD_some]
  have hverified := h.verified
  simp only [verifies, prevalidateMinerTransaction, Bool.and_eq_true] at hverified
  refine ⟨?_, ?_, hverified.2.1.2, ?_⟩
  · rw [hpenalised]
    simpa only [entryFor] using congrArg Entry.coins hentry
  · rw [hpenalised]
    exact hsum
  · rw [hpenalised]
    exact getBlockReward_le hblock

def SumsExact (words : List UInt64) : Prop :=
  ∀ k, (wrapSum (words.take k)).toNat = exactSum (words.take k)

theorem sumsExact_of_fit {words : List UInt64} (h : exactSum words < 2 ^ 64) : SumsExact words := by
  intro k
  refine toNat_wrapSum (Nat.lt_of_le_of_lt ?_ h)
  exact Sublist.sum_le_sum ((take_sublist k words).map _) fun _ _ => Nat.zero_le _

def FeesFit (R : Rules H) (chain : List (Entry H)) (e : Entry H) : Prop :=
  exactSum e.fees < 2 ^ 64 - (penalisedReward R chain e).toNat

omit [DecidableEq H] in
theorem feesFit_of_lt (h : exactSum e.fees < 2 ^ 63) : FeesFit R chain e := by
  have hbase := baseReward_lt (coinsOf chain) (versionAt chain.length)
  have hpenalised : (penalisedReward R chain e).toNat < 2 ^ 46 := by
    unfold penalisedReward
    cases hreward : getBlockReward _ _ _ _ with
    | none => decide
    | some reward => exact lt_of_le_of_lt (getBlockReward_le hreward) hbase
  unfold FeesFit
  omega

omit [DecidableEq H] in
theorem Amounts.exact (h : Amounts R chain e) (hfees : FeesFit R chain e) :
    exactSum e.outs = (penalisedReward R chain e).toNat + exactSum e.fees := by
  have hfee : (wrapSum e.fees).toNat = exactSum e.fees :=
    toNat_wrapSum (by unfold FeesFit at hfees; omega)
  have hmoney := toNat_wrapSum ((checkOutsOverflow_iff e.outs).mp h.fit)
  unfold FeesFit at hfees
  rw [← hmoney, ← h.outs, UInt64.toNat_add, hfee]
  omega

/-! ## The whole chain -/

def totalOuts (chain : List (Entry H)) : Nat := (chain.map fun e => exactSum e.outs).sum

def totalFees (chain : List (Entry H)) : Nat := (chain.map fun e => exactSum e.fees).sum

def AllFeesFit (R : Rules H) (chain : List (Entry H)) : Prop :=
  ∀ pre e post, chain = pre ++ e :: post → FeesFit R pre e

omit [DecidableEq H] in
theorem coinsOf_concat (chain : List (Entry H)) (e : Entry H) :
    coinsOf (chain ++ [e]) = e.coins := by
  simp [coinsOf]

theorem coinsOf_eq (h : ValidChain R chain) (hfees : AllFeesFit R chain) :
    ∃ minted, totalOuts chain = totalFees chain + minted
      ∧ (coinsOf chain).toNat = min minted (2 ^ 64 - 1) := by
  induction chain using reverseRecOn with
  | nil => exact ⟨0, rfl, rfl⟩
  | append_singleton chain e ih =>
    obtain ⟨minted, htotal, hcoins⟩ := ih h.of_append
      fun pre e' post heq => hfees pre e' (post ++ [e]) (by rw [heq]; simp)
    have hamounts := h.last.amounts
    have hexact := hamounts.exact (hfees chain e [] rfl)
    refine ⟨minted + (penalisedReward R chain e).toNat, ?_, ?_⟩
    · simp only [totalOuts, totalFees, map_append, map_cons, map_nil,
        sum_append, sum_singleton] at htotal ⊢
      omega
    · rw [coinsOf_concat, hamounts.coins, toNat_addCoins, hcoins]
      omega

/-- Emission over every chain a run produces, as long as the fees of each block leave room for its
reward. -/
theorem emission_of_run (R : Rules H) (events : List (Event H)) (n : Node H)
    (h : (blockchain R).exec (Node.init R) events = some n) (hfees : AllFeesFit R n.chain)
    (pre : List (Entry H)) (e : Entry H) (post : List (Entry H))
    (hsplit : n.chain = pre ++ e :: post) :
    (coinsOf pre).toNat ≤ e.coins.toNat
      ∧ ((totalOuts (pre ++ [e]) : Int) - totalFees (pre ++ [e]) < 2 ^ 64 →
        (e.coins.toNat : Int) = totalOuts (pre ++ [e]) - totalFees (pre ++ [e]))
      ∧ exactSum e.outs ≤ (penalisedReward R pre e).toNat + exactSum e.fees
      ∧ (penalisedReward R pre e).toNat ≤ (baseReward (coinsOf pre) (versionAt pre.length)).toNat
      ∧ SumsExact e.outs ∧ SumsExact e.fees
      ∧ (penalisedReward R pre e + wrapSum e.fees).toNat
        = (penalisedReward R pre e).toNat + exactSum e.fees := by
  have hchain := (settled_of_exec h).chain
  have hamounts := (hchain pre e post hsplit).amounts
  have hfit := hfees pre e post hsplit
  have hexact := hamounts.exact hfit
  have houts := (checkOutsOverflow_iff e.outs).mp hamounts.fit
  -- the chain up to the block is a valid chain of its own
  rw [hsplit, append_cons] at hchain
  obtain ⟨minted, htotal, hcoins⟩ := coinsOf_eq hchain.of_append
    fun pre' e' post' heq => hfees pre' e' (post' ++ post) (by
      rw [hsplit, append_cons, heq]
      simp)
  rw [coinsOf_concat] at hcoins
  refine ⟨?_, ?_, hexact.le, hamounts.penalty, sumsExact_of_fit houts,
    sumsExact_of_fit (by omega), ?_⟩
  · have hlt := (coinsOf pre).toNat_lt
    rw [hamounts.coins, toNat_addCoins]
    omega
  · intro hbound
    omega
  · rw [hamounts.outs, toNat_wrapSum houts, hexact]

theorem emission_of_run_paying : ∃ n pre e,
    (blockchain openRules).exec (Node.init openRules) (payingRun 7) = some n
      ∧ n.chain = pre ++ [e] ∧ exactSum e.fees = 7
      ∧ (coinsOf pre).toNat ≤ e.coins.toNat
      ∧ exactSum e.outs ≤ (penalisedReward openRules pre e).toNat + exactSum e.fees := by
  have hrun : ((blockchain openRules).exec (Node.init openRules) (payingRun 7)).map
      (fun n => n.chain.map fun e => exactSum e.fees) = some [0, 0, 7] := by decide +kernel
  obtain ⟨n, hn, hlist⟩ := Option.map_eq_some_iff.mp hrun
  have hfees : AllFeesFit openRules n.chain := by
    intro pre e post hsplit
    have hmem : exactSum e.fees ∈ [0, 0, 7] := by
      rw [← hlist, hsplit]
      exact mem_map_of_mem (by simp)
    refine feesFit_of_lt (lt_of_le_of_lt ?_ (by decide : 7 < 2 ^ 63))
    simp only [mem_cons, not_mem_nil, or_false] at hmem
    omega
  obtain ⟨pre, e, hsplit⟩ : ∃ pre e, n.chain = pre ++ [e] := by
    rcases eq_nil_or_concat n.chain with hnil | ⟨pre, e, hsplit⟩
    · rw [hnil] at hlist
      cases hlist
    · exact ⟨pre, e, by rw [hsplit, concat_eq_append]⟩
  have hlast : exactSum e.fees = 7 := by
    rw [hsplit, map_append] at hlist
    simpa using congrArg getLast? hlist
  obtain ⟨hmono, -, hcreate, -⟩ := emission_of_run openRules _ n hn hfees pre e [] hsplit
  exact ⟨n, pre, e, hn, hsplit, hlast, hmono, hcreate⟩

/-! ## Alternative chains -/

def altRecords (R : Rules H) (chain : List (Entry H)) :
    List (AltBlock H) → List (Block H × Nat) → List (AltBlock H)
  | alt, [] => alt
  | alt, (b, difficulty) :: rest =>
    altRecords R chain (alt ++ [altRecord R (parentOf chain alt b.prevId) b difficulty]) rest

def storedCoins (coins : UInt64) : List (Block H) → List UInt64
  | [] => []
  | b :: rest =>
    let next := addCoins coins (wrapSum b.minerTx.vout)
    next :: storedCoins next rest

theorem altRecords_concat_coins (chain : List (Entry H)) (alt : List (AltBlock H))
    (a : AltBlock H) (bs : List (Block H × Nat)) :
    (altRecords R chain (alt ++ [a]) bs).map AltBlock.coins
      = alt.map AltBlock.coins ++ a.coins :: storedCoins a.coins (bs.map Prod.fst) := by
  induction bs generalizing alt a with
  | nil => simp [altRecords, storedCoins]
  | cons bd rest ih =>
    obtain ⟨b, difficulty⟩ := bd
    have hparent : (parentOf chain (alt ++ [a]) b.prevId).coins = a.coins := by
      simp [parentOf]
    rw [altRecords, ih, map_append, altRecord, hparent]
    simp [storedCoins]

theorem altRecords_coins (chain : List (Entry H)) (bs : List (Block H × Nat)) {coins : UInt64}
    (hparent : ∀ b, bs.head? = some b → (parentOf chain [] b.1.prevId).coins = coins) :
    (altRecords R chain [] bs).map AltBlock.coins = storedCoins coins (bs.map Prod.fst) := by
  cases bs with
  | nil => rfl
  | cons bd rest =>
    obtain ⟨b, difficulty⟩ := bd
    have hcoins := hparent _ rfl
    rw [altRecords, altRecords_concat_coins, altRecord, hcoins]
    simp [storedCoins]

/-- Both paths record the same coins for a block: it takes no fees, or the cap is reached either
way. -/
def CoinsAgree (R : Rules H) (chain : List (Entry H)) (e : Entry H) : Prop :=
  wrapSum e.fees = 0 ∨ MONEY_SUPPLY.toNat
    ≤ (coinsOf chain).toNat + min (penalisedReward R chain e).toNat (wrapSum e.outs).toNat

omit [DecidableEq H] in
theorem Amounts.addCoins_outs_iff (h : Amounts R chain e) :
    addCoins (coinsOf chain) (wrapSum e.outs) = e.coins ↔ CoinsAgree R chain e := by
  have hfree : wrapSum e.fees = 0 ↔ (wrapSum e.outs).toNat = (penalisedReward R chain e).toNat := by
    have hreward := (penalisedReward R chain e).toNat_lt
    have hfees := (wrapSum e.fees).toNat_lt
    rw [← UInt64.toNat_inj, ← h.outs, UInt64.toNat_add, UInt64.toNat_zero]
    omega
  have hsupply : MONEY_SUPPLY.toNat = 2 ^ 64 - 1 := rfl
  rw [h.coins, ← UInt64.toNat_inj, toNat_addCoins, toNat_addCoins, CoinsAgree, hfree, hsupply]
  omega

/-- Induction on the blocks of the fork: as long as the coins agreed, the parents' coins are the
same. -/
theorem storedCoins_eq_iff {pre suffix : List (Entry H)} (h : ValidChain R (pre ++ suffix)) :
    storedCoins (coinsOf pre) (suffix.map Entry.block) = suffix.map Entry.coins
      ↔ ∀ s e t, suffix = s ++ e :: t → CoinsAgree R (pre ++ s) e := by
  induction suffix generalizing pre with
  | nil => simp [storedCoins]
  | cons e rest ih =>
    have hamounts := (h pre e rest rfl).amounts
    rw [append_cons] at h
    have hrest := ih h
    rw [coinsOf_concat] at hrest
    rw [map_cons, map_cons, storedCoins, cons.injEq]
    constructor
    · rintro ⟨hhead, htail⟩ s e' t heq
      rw [hhead, hrest] at htail
      cases s with
      | nil =>
        obtain ⟨rfl, rfl⟩ := cons.inj heq
        rw [append_nil]
        exact hamounts.addCoins_outs_iff.mp hhead
      | cons x s =>
        obtain ⟨rfl, rfl⟩ := cons.inj heq
        rw [append_cons]
        exact htail s e' t rfl
    · intro hall
      have hhead := hamounts.addCoins_outs_iff.mpr (by simpa using hall [] e rest rfl)
      refine ⟨hhead, ?_⟩
      rw [show addCoins (coinsOf pre) (wrapSum e.block.minerTx.vout) = e.coins from hhead, hrest]
      intro s e' t heq
      have hagree := hall (e :: s) e' t (by rw [heq, cons_append])
      rwa [append_cons] at hagree

/-- Two nodes share the blocks `pre`. The blocks `suffix` follow on the main chain of one, the other
gets them as alternative blocks. Both record the same coins for all of them exactly when each of
them meets `CoinsAgree`. -/
theorem alternative_coins_agree_iff (R : Rules H) (events events' : List (Event H)) (n m : Node H)
    (hn : (blockchain R).exec (Node.init R) events = some n)
    (hm : (blockchain R).exec (Node.init R) events' = some m)
    (pre suffix other : List (Entry H)) (hpre : pre ≠ []) (hchain : n.chain = pre ++ suffix)
    (hother : m.chain = pre ++ other) (difficulty : Entry H → Nat) :
    (altRecords R m.chain [] (suffix.map fun e => (e.block, difficulty e))).map AltBlock.coins
        = suffix.map Entry.coins
      ↔ ∀ s e t, suffix = s ++ e :: t → CoinsAgree R (pre ++ s) e := by
  have hvalid := (settled_of_exec hn).chain
  rw [hchain] at hvalid
  obtain ⟨init, last, rfl⟩ : ∃ init last, pre = init ++ [last] :=
    ⟨_, _, (dropLast_append_getLast hpre).symm⟩
  rw [append_assoc, singleton_append] at hother
  -- the first block of the fork stands on the last shared one
  have hparent : ∀ b, (suffix.map fun e => (e.block, difficulty e)).head? = some b →
      (parentOf m.chain [] b.1.prevId).coins = coinsOf (init ++ [last]) := by
    intro b hb
    cases suffix with
    | nil => cases hb
    | cons e rest =>
      cases hb
      have hprev := (hvalid (init ++ [last]) e rest rfl).parent
      rw [topId_concat] at hprev
      have hheight := heightOf?_of_split (settled_of_exec hm).nodup hother
      simp only [parentOf, getLast?_nil, hprev, hheight, Option.getD_some]
      rw [hother, take_append, take_of_length_le (Nat.le_succ _), Nat.add_sub_cancel_left]
      rfl
  rw [altRecords_coins m.chain _ hparent, ← storedCoins_eq_iff hvalid, map_map]
  rfl

theorem alternative_coins_agree_steady : ∃ n e₁ e₂ e₃,
    (blockchain openRules).exec (Node.init openRules) (steadyBlocks 3) = some n
      ∧ n.chain = [e₁, e₂, e₃]
      ∧ (altRecords openRules n.chain [] [(e₃.block, 1)]).map AltBlock.coins = [e₃.coins] := by
  have hrun : ((blockchain openRules).exec (Node.init openRules) (steadyBlocks 3)).map
      (fun n => n.chain.map Entry.fees) = some [[], [], []] := by decide +kernel
  obtain ⟨n, hn, hfees⟩ := Option.map_eq_some_iff.mp hrun
  obtain ⟨e₁, e₂, e₃, hchain⟩ : ∃ e₁ e₂ e₃, n.chain = [e₁, e₂, e₃] :=
    length_eq_three.mp (by simpa using congrArg length hfees)
  rw [hchain] at hfees
  have hfree : e₃.fees = [] := by simpa using congrArg getLast? hfees
  refine ⟨n, e₁, e₂, e₃, hn, hchain, ?_⟩
  refine (alternative_coins_agree_iff openRules _ _ n n hn hn [e₁, e₂] [e₃] [e₃] (by simp) hchain
    hchain fun _ => 1).mpr ?_
  intro s e t hsplit
  have hmem : e ∈ [e₃] := hsplit ▸ by simp
  rw [mem_singleton.mp hmem]
  exact .inl (by rw [hfree]; rfl)

/-- A block with a fee of 7, as an alternative block of one node and on the main chain of another:
the first records 7 coins more. -/
theorem alternative_coins_disagree :
    let timestamp := afterLaunch 300
    let arrival := [.addTx (sampleTx 50 7),
      .addNewBlock timestamp 1 (sampleBlock 13 2 2 timestamp [50] 7) []]
    ((blockchain openRules).exec (Node.init openRules) (steadyBlocks 3 ++ arrival)).map
        (fun m => m.alts.map fun a => (a.id, a.coins)) = some [(13, 70368660291622)]
      ∧ ((blockchain openRules).exec (Node.init openRules) (steadyBlocks 2 ++ arrival)).map
        (fun n => n.chain.getLast?.map fun e => (e.id, e.coins))
          = some (some (13, 70368660291615)) := by
  decide +kernel

end Glaciem.Chain
