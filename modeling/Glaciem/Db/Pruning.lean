import Glaciem.Db.Store

/-!
# Glaciem — what a pruned database keeps

The seed of a pruned database promises data: of the blocks of one stripe, and of those near the top.

* `PruningSound db prunedAt` — what runs keep, where `prunedAt` is the height of the chain at the
  last pruning call: a transaction that is of version 1, in the stripe, or was near the top at that
  time has its data; those near the top are in the tip table; one that is not there and not in the
  stripe has no data.
-/

namespace Glaciem.Db

open List Option Table Nat

/-! ## Seeds -/

section Seeds

def ValidSeed (seed : Nat) : Prop :=
  ∃ stripe, makePruningSeed stripe CRYPTONOTE_PRUNING_LOG_STRIPES = some seed

theorem ValidSeed.spec {seed : Nat} (h : ValidSeed seed) :
    getPruningLogStripes seed = CRYPTONOTE_PRUNING_LOG_STRIPES ∧ getPruningStripe seed ≠ 0
      ∧ ∀ stripe, makePruningSeed stripe CRYPTONOTE_PRUNING_LOG_STRIPES = some seed ↔
          stripe = getPruningStripe seed := by
  obtain ⟨stripe, hstripe⟩ := h
  have hrange : ∀ {stripe seed : Nat},
      makePruningSeed stripe CRYPTONOTE_PRUNING_LOG_STRIPES = some seed →
      (1 ≤ stripe ∧ stripe ≤ 8) ∧ getPruningStripe seed = stripe
        ∧ getPruningLogStripes seed = CRYPTONOTE_PRUNING_LOG_STRIPES := by
    intro stripe seed h
    unfold makePruningSeed at h
    split at h
    · next hbounds =>
      obtain ⟨-, hpos, hle⟩ := hbounds
      have hle : stripe ≤ 8 := hle
      cases h
      refine ⟨⟨hpos, hle⟩, ?_⟩
      interval_cases stripe <;> decide
    · cases h
  obtain ⟨hbounds, hget, hlog⟩ := hrange hstripe
  refine ⟨hlog, by omega, fun stripe' => ⟨fun h => ((hrange h).2.1).symm, ?_⟩⟩
  rintro rfl
  rw [hget]
  exact hstripe

def InStripe (blockHeight seed : Nat) : Prop :=
  ((blockHeight / CRYPTONOTE_PRUNING_STRIPE_SIZE) &&& ((1 <<< getPruningLogStripes seed) - 1)) + 1
    = getPruningStripe seed

instance (blockHeight seed : Nat) : Decidable (InStripe blockHeight seed) :=
  inferInstanceAs (Decidable (_ = _))

theorem hasUnprunedBlock_iff {blockHeight blockchainHeight seed : Nat} (h : ValidSeed seed) :
    hasUnprunedBlock blockHeight blockchainHeight seed = true ↔
      blockchainHeight ≤ blockHeight + CRYPTONOTE_PRUNING_TIP_BLOCKS
        ∨ InStripe blockHeight seed := by
  obtain ⟨-, hstripe, -⟩ := h.spec
  unfold hasUnprunedBlock hasUnprunedBlockFrom getBlockStripe InStripe
  rw [if_neg hstripe]
  split
  · next htip => simp [htip]
  · next htip => simp [htip]

end Seeds

namespace Tables

variable {H K P C : Type} [LinearOrder H] [LinearOrder K] {E : Env H K P C}
  {db db' : Tables H K P C}

def Stored (db : Tables H K P C) (txHash : H) (index : TxIndex) (base : TxBase K P C) : Prop :=
  db.txIndices.get? txHash = some index ∧ db.txsPruned.get? index.txId = some base

variable {base : TxBase K P C}

theorem toPrune_iff {seed txId blockHeight : Nat}
    (hbase : db.txsPruned.get? txId = some base) :
    db.toPrune seed txId blockHeight
      = .ok (!hasUnprunedBlock blockHeight db.height seed && decide (1 < base.version)) := by
  unfold toPrune isV1Tx
  rw [hbase]
  cases hasUnprunedBlock blockHeight db.height seed with
  | true => rfl
  | false =>
    have hversion : (!decide (base.version ≤ 1)) = decide (1 < base.version) := by
      rw [← decide_not]
      exact decide_eq_decide.mpr not_le
    exact congrArg Except.ok hversion

theorem prunes_iff {seed txId blockHeight : Nat} (hseed : ValidSeed seed)
    (hbase : db.txsPruned.get? txId = some base) :
    db.Prunes seed txId blockHeight ↔ 1 < base.version ∧ ¬ InStripe blockHeight seed
      ∧ blockHeight + CRYPTONOTE_PRUNING_TIP_BLOCKS < db.height := by
  unfold Prunes
  rw [toPrune_iff hbase]
  have hunpruned : hasUnprunedBlock blockHeight db.height seed = true ↔ _ :=
    hasUnprunedBlock_iff hseed
  cases hblock : hasUnprunedBlock blockHeight db.height seed with
  | true =>
    rw [hblock] at hunpruned
    have hkept := hunpruned.mp rfl
    simp only [Bool.not_true, Bool.false_and, Except.ok.injEq, Bool.false_eq_true, false_iff]
    rintro ⟨-, hstripe, htip⟩
    rcases hkept with hkept | hkept
    · omega
    · exact hstripe hkept
  | false =>
    rw [hblock] at hunpruned
    have hpruned : ¬ (db.height ≤ blockHeight + CRYPTONOTE_PRUNING_TIP_BLOCKS
        ∨ InStripe blockHeight seed) :=
      fun h => absurd (hunpruned.mpr h) (by simp)
    rw [not_or, not_le] at hpruned
    simp [hpruned]

/-- Pruning a chain of that height takes the data of the transaction. -/
def Dropped (seed height : Nat) (index : TxIndex) (base : TxBase K P C) : Prop :=
  1 < base.version ∧ ¬ InStripe index.blockId seed
    ∧ index.blockId + CRYPTONOTE_PRUNING_TIP_BLOCKS < height

instance (seed height : Nat) (index : TxIndex) (base : TxBase K P C) :
    Decidable (Dropped seed height index base) := inferInstanceAs (Decidable (_ ∧ _))

omit [LinearOrder K] in
theorem Dropped.mono {seed height height' : Nat} {index : TxIndex} (hle : height ≤ height')
    (h : Dropped seed height index base) : Dropped seed height' index base :=
  ⟨h.1, h.2.1, h.2.2.trans_le hle⟩

abbrev tipKey (index : TxIndex) : Nat ×ₗ Nat := toLex (index.txId, index.blockId)

structure PruningSound (db : Tables H K P C) (prunedAt : Nat) : Prop where
  seed : ∀ {seed}, db.pruningSeed = some seed → ValidSeed seed
  present : ∀ {txHash index base}, db.Stored txHash index base →
    (∀ seed, db.pruningSeed = some seed → ¬ Dropped seed prunedAt index base) →
    db.txsPrunable.get? index.txId ≠ none
  tip : ∀ {txHash index base}, db.Stored txHash index base → db.pruningSeed ≠ none →
    prunedAt ≤ index.blockId + CRYPTONOTE_PRUNING_TIP_BLOCKS →
    db.txsPrunableTip.get? (tipKey index) ≠ none
  gone : ∀ {txHash index base seed}, db.Stored txHash index base → db.pruningSeed = some seed →
    1 < base.version → ¬ InStripe index.blockId seed →
    db.txsPrunableTip.get? (tipKey index) = none → db.txsPrunable.get? index.txId = none

/-! ## Additions and pops -/

theorem pruningSound_empty : ({} : Tables H K P C).PruningSound 0 where
  seed := fun h => (nomatch h)
  present := fun h => (nomatch h.1)
  tip := fun h => (nomatch h.1)
  gone := fun h => (nomatch h.1)

variable {prunedAt : Nat}

/-- What `db'` has stored is in `db`, with the same prunable rows. -/
def SameRows (db db' : Tables H K P C) : Prop :=
  ∀ {txHash index base}, db'.Stored txHash index base → db.Stored txHash index base
    ∧ db'.txsPrunable.get? index.txId = db.txsPrunable.get? index.txId
    ∧ db'.txsPrunableTip.get? (tipKey index) = db.txsPrunableTip.get? (tipKey index)

theorem PruningSound.of_same (h : db.PruningSound prunedAt)
    (hseed : db'.pruningSeed = db.pruningSeed) (hsame : SameRows db db') :
    db'.PruningSound prunedAt where
  seed := fun hs => h.seed (hseed ▸ hs)
  present := by
    intro txHash index base hstored hkept
    obtain ⟨hold, hdata, -⟩ := hsame hstored
    rw [hseed] at hkept
    rw [hdata]
    exact h.present hold hkept
  tip := by
    intro txHash index base hstored hpruned htip
    obtain ⟨hold, -, hrow⟩ := hsame hstored
    rw [hseed] at hpruned
    rw [hrow]
    exact h.tip hold hpruned htip
  gone := by
    intro txHash index base seed hstored hs hversion hstripe hnone
    obtain ⟨hold, hdata, hrow⟩ := hsame hstored
    rw [hseed] at hs
    rw [hrow] at hnone
    rw [hdata]
    exact h.gone hold hs hversion hstripe hnone

theorem Added.stored_cases {tx : Tx K P C} {txHash txHash' : H} {index : TxIndex}
    (h : Added E db tx txHash db') (hids : db.IdsSound)
    (hstored : db'.Stored txHash' index base) :
    (index = ⟨db.getTxCount, tx.unlockTime, db.height⟩ ∧ base = tx.toTxBase)
      ∨ (db.Stored txHash' index base ∧ index.txId ≠ db.getTxCount) := by
  obtain ⟨hindex, hbase⟩ := hstored
  rw [h.txsPruned, get?_put] at hbase
  rcases h.index_cases hindex with ⟨-, rfl⟩ | hold
  · rw [if_pos rfl] at hbase
    cases hbase
    exact .inl ⟨rfl, rfl⟩
  · have hne := (hids.below hold).ne
    rw [if_neg hne] at hbase
    exact .inr ⟨⟨hold, hbase⟩, hne⟩

theorem Added.pruningSound {tx : Tx K P C} {txHash : H} (h : Added E db tx txHash db')
    (hids : db.IdsSound) (hsound : db.PruningSound prunedAt) :
    db'.PruningSound prunedAt := by
  have hseed := h.pruningSeed
  -- the rows of the transactions before are not touched
  have hdata : ∀ {txId}, txId ≠ db.getTxCount →
      db'.txsPrunable.get? txId = db.txsPrunable.get? txId := by
    intro txId hne
    rw [h.txsPrunable, get?_put_ne hne]
  have hrow : ∀ {txId blockHeight}, txId ≠ db.getTxCount →
      db'.txsPrunableTip.get? (toLex (txId, blockHeight))
        = db.txsPrunableTip.get? (toLex (txId, blockHeight)) := by
    intro txId blockHeight hne
    rw [h.txsPrunableTip]
    split
    · exact get?_put_ne fun heq => hne (congrArg (fun x => (ofLex x).1) heq)
    · rfl
  -- and once pruning is enabled the new one is in the tip table
  have hnew : db.pruningSeed ≠ none →
      db'.txsPrunableTip.get? (toLex (db.getTxCount, db.height)) ≠ none := by
    intro hsome
    obtain ⟨seed, hs⟩ := ne_none_iff_exists'.mp hsome
    have hnonzero : db.getBlockchainPruningSeed ≠ 0 := by
      intro hzero
      rw [getBlockchainPruningSeed, hs, getD_some] at hzero
      exact (hsound.seed hs).spec.2.1 (by rw [hzero]; rfl)
    rw [h.txsPrunableTip, if_pos hnonzero, get?_put_self]
    simp
  refine ⟨fun hs => hsound.seed (hseed ▸ hs), ?_, ?_, ?_⟩
  · intro txHash' index base hstored hkept
    rcases h.stored_cases hids hstored with ⟨rfl, rfl⟩ | ⟨hold, hne⟩
    · rw [h.txsPrunable, get?_put_self]
      simp
    · rw [hseed] at hkept
      rw [hdata hne]
      exact hsound.present hold hkept
  · intro txHash' index base hstored hsome htip
    rw [hseed] at hsome
    rcases h.stored_cases hids hstored with ⟨rfl, rfl⟩ | ⟨hold, hne⟩
    · exact hnew hsome
    · rw [hrow hne]
      exact hsound.tip hold hsome htip
  · intro txHash' index base seed hstored hs hversion hstripe hnone
    rw [hseed] at hs
    rcases h.stored_cases hids hstored with ⟨rfl, rfl⟩ | ⟨hold, hne⟩
    · exact absurd hnone (hnew (by rw [hs]; simp))
    · rw [hrow hne] at hnone
      rw [hdata hne]
      exact hsound.gone hold hs hversion hstripe hnone

variable {pairs : List (Tx K P C × H)}

theorem addTransactions_pruningSound (h : db.addTransactions E pairs = .ok db') (hids : db.IdsSound)
    (hsound : db.PruningSound prunedAt) : db'.PruningSound prunedAt :=
  (addTransactions_induction (I := fun db => db.IdsSound ∧ db.PruningSound prunedAt)
    (fun hadded hold => ⟨hadded.idsSound hold.1, hadded.pruningSound hold.1 hold.2⟩) h
    ⟨hids, hsound⟩).2

theorem addBlock_pruningSound {b : NewBlock H K P C} (h : db.addBlock E b = .ok db')
    (hids : db.IdsSound) (hsound : db.PruningSound prunedAt) :
    db'.PruningSound prunedAt ∧ db'.height = db.height + 1 := by
  have hheight := addBlock_height h
  obtain ⟨-, db₁, htxs, hblock⟩ := addBlock_eq_ok h
  have hsound' := addTransactions_pruningSound htxs hids hsound
  obtain ⟨cumRct, -, rfl⟩ := hblock.fields
  exact ⟨hsound'.of_same rfl fun hstored => ⟨hstored, rfl, rfl⟩, hheight⟩

theorem addTransactions_stored {txHash : H} {index : TxIndex}
    (h : db.addTransactions E pairs = .ok db') (hids : db.IdsSound)
    (hstored : db.Stored txHash index base) : db'.Stored txHash index base := by
  refine (addTransactions_induction (I := fun db => db.IdsSound ∧ db.Stored txHash index base)
    (fun hadded hold => ⟨hadded.idsSound hold.1, hadded.index_mono hold.2.1, ?_⟩) h
      ⟨hids, hstored⟩).2
  rw [hadded.txsPruned, get?_put_ne (hold.1.below hold.2.1).ne]
  exact hold.2.2

end Tables

open Tables

variable {H K P C : Type} [LinearOrder H] [LinearOrder K] {E : Env H K P C}

theorem Stores.pop_pruningSound {chain : List (NewBlock H K P C)} {b : NewBlock H K P C}
    {db db' : Tables H K P C} {block : Block H K P C} {txs : List (Tx K P C)} {prunedAt : Nat}
    (h : Stores E (b :: chain) db) (hsound : db.PruningSound prunedAt)
    (hpop : db.popBlock E = .ok (block, txs, db')) :
    db'.PruningSound prunedAt ∧ db.height = db'.height + 1 := by
  obtain ⟨hids, htip⟩ := h.sound
  have hone := htip.oneHeight hids
  obtain ⟨db₀, db₁, p, t, s, hstores, hregular, hadd, rfl⟩ := h.top
  rw [popBlock_of_add hadd hregular.amountsAgree p t s] at hpop
  cases hpop
  obtain ⟨-, db₂, htxs, hblock⟩ := addBlock_eq_ok hadd
  have hids₀ := hstores.sound.1
  have hheight : db₁.height = db₀.height + 1 := addBlock_height hadd
  refine ⟨hsound.of_same rfl ?_, hheight⟩
  intro txHash index base hstored
  have hold : db₀.Stored txHash index base := hstored
  have hbelow := hids₀.below hold.1
  obtain ⟨cumRct, -, rfl⟩ := hblock.fields
  have hkept : db₂.Stored txHash index base := addTransactions_stored htxs hids₀ hold
  refine ⟨hkept, ?_, ?_⟩
  · exact get?_delPrunable.trans (if_neg (by omega))
  · exact (get?_delTips hone _ _ _ _).2.trans (if_neg (by omega))

/-! ## Pruning calls -/

namespace Tables

variable {db db' : Tables H K P C}

theorem pruneSeed_eq_ok {mode : PruneMode} {pruningSeed random : Nat} {result : Option Nat}
    (h : db.pruneSeed mode pruningSeed random = .ok result) (hvalid : ∀ {seed},
      db.pruningSeed = some seed → ValidSeed seed) :
    match result with
    | none => mode ≠ .prune ∧ db.pruningSeed = none
    | some seed => ValidSeed seed ∧ (db.pruningSeed = none ∨ db.pruningSeed = some seed)
        ∧ (mode ≠ .prune → db.pruningSeed = some seed) := by
  unfold pruneSeed at h
  dsimp only at h
  split at h
  · cases h
  · split at h
    · cases h
    · cases hstored : db.pruningSeed with
      | none =>
        rw [hstored] at h
        dsimp only at h
        split at h
        · next hmode =>
          cases h
          exact ⟨hmode, rfl⟩
        · next hmode =>
          obtain ⟨seed', hmake, h⟩ := bind_eq_ok.mp h
          cases h
          exact ⟨⟨_, orThrow_eq_ok.mp hmake⟩, .inl rfl, fun hne => absurd hne hmode⟩
      | some data =>
        rw [hstored] at h
        dsimp only at h
        generalize (if getPruningStripe pruningSeed = 0 then getPruningStripe data
          else getPruningStripe pruningSeed) = stripe at h
        split at h
        · cases h
        · next hstripe =>
          split at h
          · cases h
          · obtain ⟨seed', hmake, h⟩ := bind_eq_ok.mp h
            cases h
            rw [← not_not.mp hstripe] at hmake
            have hdata := ((hvalid hstored).spec.2.2 _).mpr rfl
            have heq : seed' = data := Option.mem_unique (orThrow_eq_ok.mp hmake) hdata
            subst heq
            exact ⟨hvalid hstored, .inr rfl, fun _ => rfl⟩

theorem pruneSeed_update {seed : Nat} (h : db.pruningSeed = some seed) (hvalid : ValidSeed seed)
    (mode : PruneMode) : db.pruneSeed mode 0 0 = .ok (some seed) := by
  obtain ⟨hlog, hstripe, hmake⟩ := hvalid.spec
  unfold pruneSeed
  rw [h]
  dsimp only
  rw [if_neg (by decide), if_neg (by decide), if_pos (show getPruningStripe 0 = 0 from rfl),
    if_neg (not_not.mpr rfl), if_neg (not_not.mpr hlog), (hmake _).mpr rfl]
  rfl

section Calls

variable {seed : Nat} {st : Pruning} {txHash : H} {index : TxIndex} {base : TxBase K P C}

theorem IdsSound.index_eq (hids : db.IdsSound) (hstored : db.Stored txHash index base) {txHash' : H}
    {index' : TxIndex} (hindex : db.txIndices.get? txHash' = some index')
    (heq : index'.txId = index.txId) :
    index' = index := by
  have hhash := hids.unique hindex hstored.1 heq
  subst hhash
  exact Option.mem_unique hindex hstored.1

theorem TipSound.of_mem (htipSound : db.TipSound) {row : (Nat ×ₗ Nat) × Unit}
    (hmem : row ∈ db.txsPrunableTip.rows) :
    ∃ txHash index, db.txIndices.get? txHash = some index ∧ row.1 = tipKey index := by
  obtain ⟨txHash, index, hindex, hid, hheight⟩ := htipSound (ofLex row.1).1 (ofLex row.1).2
    (ne_none_iff_exists'.mpr ⟨row.2, get?_eq_some_iff.mpr hmem⟩)
  exact ⟨txHash, index, hindex, by rw [tipKey, hid, hheight]; rfl⟩

theorem pruneAll_stored (hids : db.IdsSound) (hvalid : ValidSeed seed)
    (hst : db.pruneAll seed ⟨db.txsPrunable, db.txsPrunableTip⟩ db.txIndices.rows = .ok st)
    (hstored : db.Stored txHash index base) :
    st.txsPrunable.get? index.txId
        = (if Dropped seed db.height index base then none else db.txsPrunable.get? index.txId)
      ∧ st.txsPrunableTip.get? (tipKey index)
        = if db.height ≤ index.blockId + CRYPTONOTE_PRUNING_TIP_BLOCKS then some ()
          else db.txsPrunableTip.get? (tipKey index) := by
  obtain ⟨hdata, htip⟩ := pruneAll_spec hst
  have hrow := get?_eq_some_iff.mp hstored.1
  rw [hdata, htip]
  refine ⟨if_congr ⟨?_, ?_⟩ rfl rfl, if_congr ⟨?_, ?_⟩ rfl rfl⟩
  · rintro ⟨row, hmem, heq, hprunes⟩
    rw [hids.index_eq hstored (get?_eq_some_iff.mpr hmem) heq] at hprunes
    exact (prunes_iff hvalid hstored.2).mp hprunes
  · intro hdropped
    exact ⟨_, hrow, rfl, (prunes_iff hvalid hstored.2).mpr hdropped⟩
  · rintro ⟨row, -, heq, hin⟩
    have hheight : row.2.blockId = index.blockId := congrArg (fun x => (ofLex x).2) heq
    exact hheight ▸ hin
  · intro hin
    exact ⟨_, hrow, rfl, hin⟩

theorem pruneTip_stored (hids : db.IdsSound) (htipSound : db.TipSound) (hvalid : ValidSeed seed)
    (hst : db.pruneTip seed ⟨db.txsPrunable, db.txsPrunableTip⟩ db.txsPrunableTip.rows = .ok st)
    (hstored : db.Stored txHash index base) :
    st.txsPrunable.get? index.txId
        = (if db.txsPrunableTip.get? (tipKey index) ≠ none
            ∧ Dropped seed db.height index base then none else db.txsPrunable.get? index.txId)
      ∧ st.txsPrunableTip.get? (tipKey index)
        = if index.blockId + CRYPTONOTE_PRUNING_TIP_BLOCKS < db.height then none
          else db.txsPrunableTip.get? (tipKey index) := by
  obtain ⟨hdata, htip⟩ := pruneTip_spec hst
  rw [hdata, htip]
  constructor
  · refine if_congr ⟨?_, ?_⟩ rfl rfl
    · rintro ⟨row, hmem, heq, hleft, hprunes⟩
      have hrow : db.txsPrunableTip.get? row.1 = some row.2 := get?_eq_some_iff.mpr hmem
      -- the row is that of the transaction
      have hkey : row.1 = tipKey index := by
        obtain ⟨txHash', index', hindex', hrow'⟩ := htipSound.of_mem hmem
        rw [hrow'] at heq ⊢
        rw [hids.index_eq hstored hindex' heq]
      rw [hkey] at hrow hprunes
      refine ⟨by rw [hrow]; simp, (prunes_iff hvalid hstored.2).mp hprunes⟩
    · rintro ⟨hrow, hdropped⟩
      obtain ⟨v, hv⟩ := ne_none_iff_exists'.mp hrow
      exact ⟨_, get?_eq_some_iff.mp hv, rfl, hdropped.2.2,
        (prunes_iff hvalid hstored.2).mpr hdropped⟩
  · by_cases hleft : index.blockId + CRYPTONOTE_PRUNING_TIP_BLOCKS < db.height
    · rw [if_pos hleft]
      split
      · rfl
      · next hnot =>
        refine eq_none_iff_forall_ne_some.mpr fun v hv => ?_
        exact hnot ⟨⟨_, get?_eq_some_iff.mp hv, rfl⟩, hleft⟩
    · rw [if_neg hleft, if_neg fun h => hleft h.2]

variable {prunedAt : Nat}

theorem PruningSound.pruneAll (hsound : db.PruningSound prunedAt) (hids : db.IdsSound)
    (hle : prunedAt ≤ db.height) (hvalid : ValidSeed seed)
    (hseed : db.pruningSeed = none ∨ db.pruningSeed = some seed)
    (hst : db.pruneAll seed ⟨db.txsPrunable, db.txsPrunableTip⟩ db.txIndices.rows = .ok st) :
    (db.withPruning st.txsPrunable st.txsPrunableTip (some seed)).PruningSound db.height := by
  refine ⟨fun h => by cases h; exact hvalid, ?_, ?_, ?_⟩
  · intro txHash index base hstored hkept
    have hold : db.Stored txHash index base := hstored
    have hkept' := hkept seed rfl
    change st.txsPrunable.get? index.txId ≠ none
    rw [(pruneAll_stored hids hvalid hst hold).1, if_neg hkept']
    refine hsound.present hold fun seed' hseed' => ?_
    have hsame : seed' = seed := by
      rcases hseed with h | h <;> rw [h] at hseed' <;> cases hseed'
      rfl
    subst hsame
    exact fun h => hkept' (h.mono hle)
  · intro txHash index base hstored _ hin
    change st.txsPrunableTip.get? _ ≠ none
    rw [(pruneAll_stored hids hvalid hst hstored).2, if_pos hin]
    simp
  · intro txHash index base seed' hstored hseed' hversion hstripe hnone
    cases hseed'
    have hnone' : st.txsPrunableTip.get? (tipKey index) = none := hnone
    rw [(pruneAll_stored hids hvalid hst hstored).2] at hnone'
    change st.txsPrunable.get? index.txId = none
    rw [(pruneAll_stored hids hvalid hst hstored).1]
    split at hnone'
    · cases hnone'
    · next hleft => exact if_pos ⟨hversion, hstripe, by omega⟩

theorem PruningSound.pruneTip (hsound : db.PruningSound prunedAt) (hids : db.IdsSound)
    (htipSound : db.TipSound) (hle : prunedAt ≤ db.height) (hseed : db.pruningSeed = some seed)
    (hst : db.pruneTip seed ⟨db.txsPrunable, db.txsPrunableTip⟩ db.txsPrunableTip.rows = .ok st) :
    (db.withPruning st.txsPrunable st.txsPrunableTip db.pruningSeed).PruningSound db.height := by
  have hvalid := hsound.seed hseed
  refine ⟨hsound.seed, ?_, ?_, ?_⟩
  · intro txHash index base hstored hkept
    have hold : db.Stored txHash index base := hstored
    have hkept' := hkept seed hseed
    change st.txsPrunable.get? index.txId ≠ none
    rw [(pruneTip_stored hids htipSound hvalid hst hold).1, if_neg fun h => hkept' h.2]
    refine hsound.present hold fun seed' hseed' => ?_
    cases hseed.symm.trans hseed'
    exact fun h => hkept' (h.mono hle)
  · intro txHash index base hstored hsome hin
    change st.txsPrunableTip.get? _ ≠ none
    rw [(pruneTip_stored hids htipSound hvalid hst hstored).2, if_neg (by omega)]
    exact hsound.tip hstored hsome (hle.trans hin)
  · intro txHash index base seed' hstored hseed' hversion hstripe hnone
    cases hseed.symm.trans hseed'
    have hold : db.Stored txHash index base := hstored
    have hnone' : st.txsPrunableTip.get? (tipKey index) = none := hnone
    rw [(pruneTip_stored hids htipSound hvalid hst hold).2] at hnone'
    change st.txsPrunable.get? index.txId = none
    rw [(pruneTip_stored hids htipSound hvalid hst hold).1]
    -- either the row has left the tip in this call, or the data was gone before
    by_cases hrow : db.txsPrunableTip.get? (tipKey index) = none
    · rw [if_neg fun h => h.1 hrow]
      exact hsound.gone hold hseed hversion hstripe hrow
    · split at hnone'
      · next hleft => exact if_pos ⟨hrow, hversion, hstripe, hleft⟩
      · exact absurd hnone' hrow

theorem pruneTip_ok {rows : List ((Nat ×ₗ Nat) × Unit)}
    (h : ∀ row ∈ rows, db.txsPruned.get? (ofLex row.1).1 ≠ none) :
    ∃ st', db.pruneTip seed st rows = .ok st' := by
  induction rows generalizing st with
  | nil => exact ⟨st, rfl⟩
  | cons row rest ih =>
    obtain ⟨hrow, hrest⟩ := forall_mem_cons.mp h
    obtain ⟨base, hbase⟩ := ne_none_iff_exists'.mp hrow
    unfold Tables.pruneTip
    dsimp only
    split
    · obtain ⟨st', hst'⟩ := ih hrest
      exact ⟨st', bind_eq_ok.mpr ⟨_, toPrune_iff hbase, hst'⟩⟩
    · exact ih hrest

variable {rows : List (H × TxIndex)}

theorem pruneAll_ok (h : ∀ row ∈ rows, db.txsPruned.get? row.2.txId ≠ none) :
    ∃ st', db.pruneAll seed st rows = .ok st' := by
  induction rows generalizing st with
  | nil => exact ⟨st, rfl⟩
  | cons row rest ih =>
    obtain ⟨hrow, hrest⟩ := forall_mem_cons.mp h
    obtain ⟨base, hbase⟩ := ne_none_iff_exists'.mp hrow
    obtain ⟨st', hst'⟩ := ih hrest
    exact ⟨st', bind_eq_ok.mpr ⟨_, toPrune_iff hbase, hst'⟩⟩

/-- The rows of the transaction are those that pruning leaves. -/
def RowsPruned (db : Tables H K P C) (seed : Nat) (index : TxIndex) (base : TxBase K P C) : Prop :=
  db.txsPruned.get? index.txId = some base
    ∧ (db.height ≤ index.blockId + CRYPTONOTE_PRUNING_TIP_BLOCKS →
      db.txsPrunableTip.get? (tipKey index) ≠ none)
    ∧ (db.txsPrunable.get? index.txId = none ↔ Dropped seed db.height index base)

theorem checkAll_ok (hvalid : ValidSeed seed)
    (h : ∀ row ∈ rows, ∃ base, db.RowsPruned seed row.2 base) : db.checkAll seed rows = .ok [] := by
  induction rows with
  | nil => rfl
  | cons row rest ih =>
    obtain ⟨txHash, index⟩ := row
    obtain ⟨⟨base, hbase, htip, hdata⟩, hrest⟩ := forall_mem_cons.mp h
    obtain ⟨pruned, hpruned⟩ : ∃ pruned, db.toPrune seed index.txId index.blockId = .ok pruned :=
      ⟨_, toPrune_iff hbase⟩
    have hiff : db.Prunes seed index.txId index.blockId ↔ _ := prunes_iff hvalid hbase
    rw [Prunes, hpruned, Except.ok.injEq] at hiff
    refine bind_eq_ok.mpr ⟨pruned, hpruned, bind_eq_ok.mpr ⟨[], ih hrest, ?_⟩⟩
    have hnotInTip : ¬ (db.height ≤ index.blockId + CRYPTONOTE_PRUNING_TIP_BLOCKS
        ∧ (db.txsPrunableTip.dups index.txId).isEmpty) := by
      rintro ⟨hin, hempty⟩
      obtain ⟨v, hv⟩ := ne_none_iff_exists'.mp (htip hin)
      have hmem := mem_dups.mpr hv
      rw [isEmpty_iff.mp hempty] at hmem
      cases hmem
    have hdataFound : ¬ (pruned ∧ (db.txsPrunable.get? index.txId).isSome) := by
      rintro ⟨hp, hsome⟩
      rw [hdata.mpr (hiff.mp hp)] at hsome
      cases hsome
    have hdataMissing : ¬ (¬ pruned ∧ ¬ (db.txsPrunable.get? index.txId).isSome) := by
      rintro ⟨hp, hnone⟩
      rw [not_isSome_iff_eq_none] at hnone
      exact hp (hiff.mpr (hdata.mp hnone))
    dsimp only
    rw [if_neg hnotInTip, if_neg hdataFound, if_neg hdataMissing]
    rfl

theorem PruningSound.updatePruning (hsound : db.PruningSound prunedAt) (hids : db.IdsSound)
    (htipSound : db.TipSound) (hle : prunedAt ≤ db.height) (hseed : db.pruningSeed = some seed) :
    ∃ db', db.updatePruning = .ok db'
      ∧ (∀ {txHash index base}, db'.Stored txHash index base → 1 < base.version →
          hasUnprunedBlock index.blockId db'.height seed = false →
          db'.txsPrunable.get? index.txId = none)
      ∧ db'.checkPruning = .ok [] := by
  have hvalid := hsound.seed hseed
  have hrows : ∀ row ∈ db.txsPrunableTip.rows, db.txsPruned.get? (ofLex row.1).1 ≠ none := by
    intro row hmem
    obtain ⟨txHash, index, hindex, hrow⟩ := htipSound.of_mem hmem
    rw [hrow]
    exact hids.base hindex
  obtain ⟨st, hst⟩ : ∃ st, db.pruneTip seed ⟨db.txsPrunable, db.txsPrunableTip⟩
      db.txsPrunableTip.rows = .ok st := pruneTip_ok hrows
  have hsound' := hsound.pruneTip hids htipSound hle hseed hst
  have hgone : ∀ {txHash index base}, db.Stored txHash index base →
      Dropped seed db.height index base →
      st.txsPrunable.get? index.txId = none := by
    intro txHash index base hstored hdropped
    refine hsound'.gone hstored hseed hdropped.1 hdropped.2.1 ?_
    exact (pruneTip_stored hids htipSound hvalid hst hstored).2.trans (if_pos hdropped.2.2)
  refine ⟨db.withPruning st.txsPrunable st.txsPrunableTip db.pruningSeed, ?_, ?_, ?_⟩
  · exact map_eq_ok.mpr ⟨(_, []), bind_eq_ok.mpr ⟨some seed, pruneSeed_update hseed hvalid .update,
      bind_eq_ok.mpr ⟨st, hst, rfl⟩⟩, rfl⟩
  · intro txHash index base hstored hversion hnot
    rw [← Bool.not_eq_true, hasUnprunedBlock_iff hvalid, not_or, not_le] at hnot
    exact hgone hstored ⟨hversion, hnot.2, hnot.1⟩
  · refine map_eq_ok.mpr ⟨(_, []), bind_eq_ok.mpr ⟨some seed, pruneSeed_update hseed hvalid .check,
      bind_eq_ok.mpr ⟨[], checkAll_ok hvalid ?_, rfl⟩⟩, rfl⟩
    intro row hmem
    have hindex : db.txIndices.get? row.1 = some row.2 := get?_eq_some_iff.mpr hmem
    obtain ⟨base, hbase⟩ := ne_none_iff_exists'.mp (hids.base hindex)
    have hstored : db.Stored row.1 row.2 base := ⟨hindex, hbase⟩
    refine ⟨base, hbase, hsound'.tip hstored fun h => (nomatch hseed.symm.trans h), ?_,
      hgone hstored⟩
    intro hnone
    by_contra hkept
    refine hsound'.present hstored (fun seed' hseed' => ?_) hnone
    cases hseed.symm.trans hseed'
    exact hkept

end Calls

end Tables

/-! ## Runs -/

/-- A database with the height it had at the last pruning call, which no function reads. -/
structure PrunedDb (H K P C : Type) [LinearOrder H] [LinearOrder K] where
  db : Tables H K P C := {}
  prunedAt : Nat := 0

def Op.prunedAt (op : Op H K P C) (s : PrunedDb H K P C) : Nat :=
  match op with
  | .pruneBlockchain _ _ => s.db.height
  | .updatePruning => if s.db.pruningSeed = none then s.prunedAt else s.db.height
  | _ => s.prunedAt

def prunings (E : Env H K P C) : System (PrunedDb H K P C) (Op H K P C) where
  step s op := (databaseStep E s.db op).map fun db => ⟨db, op.prunedAt s⟩

/-- The blocks are regular, and no pop takes the chain below the height of the last pruning call. -/
def KeepsTip (s : PrunedDb H K P C) : Op H K P C → Prop
  | .add b => b.Regular
  | .pop => s.prunedAt < s.db.height
  | _ => True

theorem KeepsTip.regular {s : PrunedDb H K P C} {op : Op H K P C} (h : KeepsTip s op) :
    op.Regular := by
  cases op with
  | add b => exact h
  | pop | pruneBlockchain pruningSeed random | updatePruning => exact trivial

structure PrunedDb.Sound (E : Env H K P C) (s : PrunedDb H K P C) : Prop where
  stores : ∃ chain, Stores E chain s.db
  prunedAt_le : s.prunedAt ≤ s.db.height
  pruning : s.db.PruningSound s.prunedAt

theorem PrunedDb.Sound.step {s s' : PrunedDb H K P C} {op : Op H K P C} (h : s.Sound E)
    (hop : KeepsTip s op) (hstep : (prunings E).step s op = some s') : s'.Sound E := by
  obtain ⟨⟨chain, hstores⟩, hle, hsound⟩ := h
  obtain ⟨db', hdb', rfl⟩ := map_eq_some_iff.mp hstep
  obtain ⟨hids, htipSound⟩ := hstores.sound
  have hstores' : ∃ chain', Stores E chain' db' := hstores.step hop.regular hdb'
  cases op with
  | add b =>
    obtain ⟨hsound', hheight⟩ := addBlock_pruningSound (toOption_eq_some.mp hdb') hids hsound
    exact ⟨hstores', by rw [hheight]; exact le_succ_of_le hle, hsound'⟩
  | pop =>
    have hbelow : s.prunedAt < s.db.height := hop
    obtain ⟨⟨block, txs, db₁⟩, hpop, rfl⟩ := map_eq_some_iff.mp hdb'
    rw [toOption_eq_some] at hpop
    cases chain with
    | nil =>
      rw [hstores.height] at hbelow
      cases hbelow
    | cons b chain =>
      obtain ⟨hsound', hheight⟩ := hstores.pop_pruningSound hsound hpop
      exact ⟨hstores', by rw [hheight] at hbelow; exact le_of_lt_succ hbelow, hsound'⟩
  | pruneBlockchain pruningSeed random =>
    obtain ⟨⟨db₁, complaints⟩, hprune, rfl⟩ := map_eq_ok.mp (toOption_eq_some.mp hdb')
    rcases pruneWorker_eq_ok hprune with ⟨hnone, -⟩ | ⟨seed, hseed, -, st, hst, rfl⟩
    · exact absurd rfl (pruneSeed_eq_ok hnone hsound.seed).1
    · obtain ⟨hvalid, hstored, -⟩ := pruneSeed_eq_ok hseed hsound.seed
      have hsound' := hsound.pruneAll hids hle hvalid hstored hst
      have hkept : (s.db.pruningSeed <|> some seed) = some seed := by
        rcases hstored with h | h <;> rw [h] <;> rfl
      refine ⟨hstores', le_rfl, ?_⟩
      rw [hkept]
      exact hsound'
  | updatePruning =>
    obtain ⟨⟨db₁, complaints⟩, hprune, rfl⟩ := map_eq_ok.mp (toOption_eq_some.mp hdb')
    rcases pruneWorker_eq_ok hprune with ⟨hnone, rfl, -⟩ | ⟨seed, hseed, -, st, hst, rfl⟩
    · have hprunedAt : Op.updatePruning.prunedAt s = s.prunedAt :=
        if_pos (pruneSeed_eq_ok hnone hsound.seed).2
      rw [hprunedAt]
      exact ⟨⟨chain, hstores⟩, hle, hsound⟩
    · have hstored := (pruneSeed_eq_ok hseed hsound.seed).2.2 (by decide)
      have hsome : s.db.pruningSeed ≠ none := by
        rw [hstored]
        simp
      have hprunedAt : Op.updatePruning.prunedAt s = s.db.height := if_neg hsome
      rw [hprunedAt]
      exact ⟨hstores', le_rfl, hsound.pruneTip hids htipSound hle hstored hst⟩

/-! ## A chain of `n` blocks -/

section Grown

theorem strictMono_amountKey : StrictMono fun i : Nat => (toLex (0, i) : Nat ×ₗ Nat) :=
  fun _ _ h => Prod.Lex.lt_iff.mpr (.inr ⟨rfl, h⟩)

/-- Blocks with no transactions but the miner's, up to the counts of rows in the tables of blocks,
of transactions, of outputs, and of the lists of outputs. -/
def grown (blocks txs outputs lists : Nat) : Tables Nat Nat Nat Nat where
  blocks := upTo strictMono_id blocks fun i => (sampleBlock i [.gen] []).block
  blockInfo := upTo strictMono_id blocks fun i => ⟨i, i, 80, i + 1, i, 1, 80⟩
  blockHeights := upTo strictMono_id blocks id
  txIndices := upTo strictMono_id txs fun i => ⟨i, i, i⟩
  txsPruned := upTo strictMono_id txs fun i => (sampleCoinbase i [.gen]).toTxBase
  txsPrunable := upTo strictMono_id txs fun _ => []
  txsPrunableHash := upTo strictMono_id txs id
  txOutputs := upTo strictMono_id lists fun i => [i]
  outputTxs := upTo strictMono_id outputs fun i => (i, 0)
  outputAmounts := upTo strictMono_amountKey outputs fun i => ⟨i, i, i, i, some 5⟩

variable (n t o l : Nat)

theorem height_grown : (grown n t o l).height = n := by
  simp [height, grown, Table.size, upTo]

theorem count_grown : (grown n t o l).getTxCount = t := by
  simp [getTxCount, grown, Table.size, upTo]

theorem orThrow_append {ν : Type} (e : DbError) (f : Nat → ν) :
    orThrow e ((upTo strictMono_id n f).append n (f n)) = .ok (upTo strictMono_id (n + 1) f) :=
  orThrow_eq_ok.mpr (append_upTo strictMono_id n f)

theorem get?_upTo_self {ν : Type} (f : Nat → ν) : (upTo strictMono_id n f).get? n = none :=
  get?_of_above (above_upTo strictMono_id n f)

theorem addTransactionData_grown : (grown n n o l).addTransactionData (sampleCoinbase n [.gen]) n n
    = .ok (grown n (n + 1) o l, n) := by
  have hput : (grown n n o l).txIndices.put n ⟨n, n, n⟩ = (grown n (n + 1) o l).txIndices :=
    put_upTo strictMono_id n _
  unfold addTransactionData
  rw [count_grown, height_grown,
    show (grown n n o l).txIndices.get? n = none from get?_upTo_self n _]
  refine bind_eq_ok.mpr ⟨_, orThrow_append n _ _, bind_eq_ok.mpr ⟨_, orThrow_append n _ _,
    bind_eq_ok.mpr ⟨_, orThrow_append n _ id, ?_⟩⟩⟩
  exact congrArg (fun t => Except.ok ({ grown n (n + 1) o l with txIndices := t }, n)) hput

theorem addOutput_grown : (grown n t n l).addOutput n 0 (some n) 0 n (some 5)
    = .ok (grown n t (n + 1) l, n) := by
  have houtputs : (grown n t n l).numOutputs = n := by
    cases n with
    | zero => rfl
    | succ n => simp [numOutputs, grown, Table.last?, upTo, range_succ, Nat.add_comm]
  have hdups : (grown n t n l).outputAmounts.dups 0
      = (range n).map fun i => (i, ⟨i, i, i, i, some 5⟩) := by
    simp [dups, grown, upTo, filterMap_map, Function.comp_def, dupOf]
  have hlength : ((grown n t n l).outputAmounts.dups 0).length = n := by simp [hdups]
  have hamounts : (grown n t n l).outputAmounts.appendDup 0 n ⟨n, n, n, n, some 5⟩
      = some (grown n t (n + 1) l).outputAmounts := by
    refine appendDup_eq_some.mpr ⟨fun r hr => ?_, (put_upTo strictMono_amountKey n _).symm⟩
    rw [hdups] at hr
    obtain ⟨i, hi, rfl⟩ := mem_map.mp hr
    exact mem_range.mp hi
  unfold addOutput
  rw [houtputs, hlength, height_grown]
  exact bind_eq_ok.mpr ⟨n, rfl, bind_eq_ok.mpr ⟨_, orThrow_append n _ _,
    bind_eq_ok.mpr ⟨_, orThrow_eq_ok.mpr hamounts, rfl⟩⟩⟩

theorem checkNewBlock_grown : (grown n t o l).checkNewBlock n (n - 1) = .ok () := by
  have hnew : (grown n t o l).blockHeights.get? n = none := get?_upTo_self n id
  unfold checkNewBlock
  rw [hnew, height_grown]
  cases n with
  | zero => rfl
  | succ n =>
    have hparent : (grown (n + 1) t o l).blockHeights.get? n = some n :=
      get?_upTo strictMono_id _ id (lt_succ_self n)
    simp [hparent]

theorem addBlock_grown : (grown n n n n).addBlock sampleEnv (sampleBlock n [.gen] [])
    = .ok (grown (n + 1) (n + 1) (n + 1) (n + 1)) := by
  have htx : (grown n n n n).addTransaction sampleEnv (sampleCoinbase n [.gen]) n
      = .ok (grown n (n + 1) (n + 1) (n + 1)) :=
    bind_eq_ok.mpr ⟨_, rfl, bind_eq_ok.mpr ⟨_, addTransactionData_grown n n n, bind_eq_ok.mpr
      ⟨_, bind_eq_ok.mpr ⟨_, addOutput_grown n (n + 1) n, rfl⟩, bind_eq_ok.mpr
        ⟨_, orThrow_append n _ fun i => [i], rfl⟩⟩⟩⟩
  refine bind_eq_ok.mpr ⟨_, htx, bind_eq_ok.mpr ⟨_, rfl, ?_⟩⟩
  have hput : (grown n (n + 1) (n + 1) (n + 1)).blockHeights.put n n
      = (grown (n + 1) n n n).blockHeights := put_upTo strictMono_id n id
  unfold addBlockData
  rw [height_grown]
  refine bind_eq_ok.mpr ⟨_, checkNewBlock_grown n _ _ _,
    bind_eq_ok.mpr ⟨_, orThrow_append n _ _, bind_eq_ok.mpr
    ⟨_, rfl, bind_eq_ok.mpr ⟨_, orThrow_append n _ _, ?_⟩⟩⟩⟩
  exact congrArg
    (fun t => Except.ok { grown (n + 1) (n + 1) (n + 1) (n + 1) with blockHeights := t }) hput

def growOps (n : Nat) : List (Op Nat Nat Nat Nat) :=
  (List.range n).map fun height => .add (sampleBlock height [.gen] [])

theorem growOps_succ (n : Nat) :
    growOps (n + 1) = growOps n ++ [.add (sampleBlock n [.gen] [])] := by
  rw [growOps, range_succ, map_append]
  rfl

theorem sampleBlock_regular (n : Nat) : (sampleBlock n [.gen] []).Regular :=
  ⟨⟨le_refl 2, fun _ => rfl⟩, fun _ h => (nomatch h)⟩

theorem exec_growOps (n : Nat) : (prunings sampleEnv).exec {} (growOps n) = some ⟨grown n n n n, 0⟩
    ∧ ∃ chain, Stores sampleEnv chain (grown n n n n) := by
  induction n with
  | zero => exact ⟨rfl, [], .empty⟩
  | succ n ih =>
    obtain ⟨hrun, chain, hstores⟩ := ih
    refine ⟨?_, _, .add hstores (sampleBlock_regular n) (addBlock_grown n)⟩
    rw [growOps_succ, System.exec_append]
    refine ⟨_, hrun, (prunings sampleEnv).exec_cons.mpr ⟨_, ?_, rfl⟩⟩
    exact map_eq_some_iff.mpr ⟨_, toOption_eq_some.mpr (addBlock_grown n), rfl⟩

theorem stored_grown {i : Nat} (hi : i < n) :
    (grown n n n n).Stored i ⟨i, i, i⟩ (sampleCoinbase i [.gen]).toTxBase :=
  ⟨get?_upTo strictMono_id n _ hi, get?_upTo strictMono_id n _ hi⟩

/-- Pruned down to stripe 2, a chain longer than the tip loses the data of block 0. -/
theorem exec_growOps_prune (hn : 5500 < n) : ∃ st : Pruning,
    (prunings sampleEnv).exec {} (growOps n ++ [.pruneBlockchain 0 2])
        = some ⟨(grown n n n n).withPruning st.txsPrunable st.txsPrunableTip (some 385), n⟩
      ∧ st.txsPrunable.get? 0 = none := by
  obtain ⟨hrun, chain, hstores⟩ := exec_growOps n
  obtain ⟨hids, -⟩ := hstores.sound
  have hstored := stored_grown n (Nat.zero_lt_of_lt hn)
  have hheight := height_grown n n n n
  have hseed : (grown n n n n).pruningSeed = none := rfl
  generalize grown n n n n = db at *
  obtain ⟨st, hst⟩ : ∃ st, db.pruneAll 385 ⟨db.txsPrunable, db.txsPrunableTip⟩ db.txIndices.rows
      = .ok st := pruneAll_ok fun row hrow => hids.base (get?_eq_some_iff.mpr hrow)
  have hprune : db.pruneBlockchain 0 2
      = .ok (db.withPruning st.txsPrunable st.txsPrunableTip (some 385)) := by
    unfold pruneBlockchain pruneWorker pruneSeed
    rw [hseed]
    exact map_eq_ok.mpr ⟨_, bind_eq_ok.mpr ⟨some 385, rfl, bind_eq_ok.mpr ⟨st, hst, rfl⟩⟩, rfl⟩
  refine ⟨st, ?_, ?_⟩
  · rw [System.exec_append]
    refine ⟨_, hrun, (prunings sampleEnv).exec_cons.mpr ⟨_, map_eq_some_iff.mpr
      ⟨_, toOption_eq_some.mpr hprune, ?_⟩, rfl⟩⟩
    exact congrArg (PrunedDb.mk _) hheight
  · refine (pruneAll_stored hids ⟨2, rfl⟩ hst hstored).1.trans (if_pos ⟨by decide, by decide, ?_⟩)
    rw [hheight]
    exact hn

end Grown

/-! ## What a run keeps -/

/-- In every run in which no pop takes the chain below the height of the last pruning call, what the
seed promises is there, and after a call to `update_pruning` nothing else. -/
theorem pruning_kept_of_run {ops : List (Op H K P C)} {s : PrunedDb H K P C} {seed : Nat}
    (hmeets : (prunings E).Meets KeepsTip {} ops) (hrun : (prunings E).exec {} ops = some s)
    (hseed : s.db.pruningSeed = some seed) :
    (∀ txHash index base, s.db.Stored txHash index base →
        hasUnprunedBlock index.blockId s.db.height seed = true →
        s.db.txsPrunable.get? index.txId ≠ none)
      ∧ ∃ db', s.db.updatePruning = .ok db'
        ∧ (∀ txHash index base, db'.Stored txHash index base → 1 < base.version →
            hasUnprunedBlock index.blockId db'.height seed = false →
            db'.txsPrunable.get? index.txId = none)
        ∧ db'.checkPruning = .ok [] := by
  have hinit : ({} : PrunedDb H K P C).Sound E := ⟨⟨[], .empty⟩, le_refl 0, pruningSound_empty⟩
  obtain ⟨⟨chain, hstores⟩, hle, hsound⟩ :=
    (prunings E).invariant_of_meets (fun h hop hs => PrunedDb.Sound.step h hop hs) hinit hmeets hrun
  obtain ⟨hids, htipSound⟩ := hstores.sound
  refine ⟨fun txHash index base hstored hunpruned => ?_, ?_⟩
  · refine hsound.present hstored fun seed' hseed' hdropped => ?_
    cases hseed.symm.trans hseed'
    obtain ⟨-, hstripe, hbelow⟩ := hdropped
    rcases (hasUnprunedBlock_iff (hsound.seed hseed)).mp hunpruned with htip | hin
    · omega
    · exact hstripe hin
  · obtain ⟨db', hupdate, hgone, hcheck⟩ := hsound.updatePruning hids htipSound hle hseed
    exact ⟨db', hupdate, fun _ _ _ hstored => hgone hstored, hcheck⟩

theorem pruning_kept_of_run_sample : ∃ s db',
    (prunings sampleEnv).exec {} (growOps 5501 ++ [.pruneBlockchain 0 2]) = some s
      ∧ s.db.txsPrunable.get? 0 = none ∧ s.db.txsPrunable.get? 4096 ≠ none
      ∧ s.db.updatePruning = .ok db' ∧ db'.checkPruning = .ok [] := by
  obtain ⟨n, hn⟩ : ∃ n, n = 5501 := ⟨_, rfl⟩
  rw [← hn]
  obtain ⟨st, hrun, hgone⟩ := exec_growOps_prune n hn.ge
  have hmeets : (prunings sampleEnv).Meets KeepsTip {} (growOps n ++ [.pruneBlockchain 0 2]) := by
    refine (prunings sampleEnv).meets_of_labels (fun op hop s => ?_) {}
    rcases mem_append.mp hop with hop | hop
    · obtain ⟨height, -, rfl⟩ := mem_map.mp hop
      exact sampleBlock_regular height
    · rw [mem_singleton.mp hop]
      trivial
  obtain ⟨hkept, db', hupdate, -, hcheck⟩ := pruning_kept_of_run hmeets hrun rfl
  have hstored := stored_grown n (by omega : 4096 < n)
  refine ⟨_, db', hrun, hgone, hkept _ ⟨4096, 4096, 4096⟩ _ hstored ?_, hupdate, hcheck⟩
  change hasUnprunedBlock 4096 (grown n n n n).height 385 = true
  rw [height_grown, hn]
  decide

/-- 5501 blocks are pruned down to stripe 2, which takes the data of block 0; then the top block is
popped and block 0 is near the top. -/
theorem popped_into_pruned_part : ∃ s txHash index base seed,
    (prunings sampleEnv).exec {} (growOps 5501 ++ [.pruneBlockchain 0 2, .pop]) = some s
      ∧ s.db.pruningSeed = some seed ∧ s.db.Stored txHash index base ∧ base.version = 2
      ∧ hasUnprunedBlock index.blockId s.db.height seed = true
      ∧ s.db.txsPrunable.get? index.txId = none := by
  obtain ⟨n, hn⟩ : ∃ n, n = 5500 := ⟨_, rfl⟩
  obtain ⟨st, hrun, hgone⟩ := exec_growOps_prune (n + 1) (by omega)
  have hpop := popBlock_of_add (addBlock_grown n) (sampleBlock_regular n).amountsAgree
    st.txsPrunable st.txsPrunableTip (some 385)
  refine ⟨⟨(grown n n n n).withPruning (delPrunable st.txsPrunable (grown n n n n).getTxCount 1)
    (delTips st.txsPrunableTip (grown n n n n).getTxCount 1) (some 385), n + 1⟩,
    0, ⟨0, 0, 0⟩, _, 385, ?_, rfl, stored_grown n (by omega), rfl, ?_, ?_⟩
  · rw [show 5501 = n + 1 by omega, append_cons, System.exec_append]
    refine ⟨_, hrun, (prunings sampleEnv).exec_cons.mpr ⟨_, ?_, rfl⟩⟩
    exact map_eq_some_iff.mpr ⟨_, map_eq_some_iff.mpr ⟨_, toOption_eq_some.mpr hpop, rfl⟩, rfl⟩
  · change hasUnprunedBlock 0 (grown n n n n).height 385 = true
    rw [height_grown, hn]
    decide
  · refine get?_delPrunable.trans ?_
    rw [if_neg, hgone]
    rw [count_grown, hn]
    decide

end Glaciem.Db
