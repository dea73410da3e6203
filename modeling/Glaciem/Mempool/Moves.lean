import Glaciem.Mempool.TxPool

/-!
# Glaciem — what a call does to the pool

Every call of `tx_memory_pool` is a sequence of few moves: a row leaves with its entries, a row is
written and listed, a row is changed in place, the lists are cleared. What is true of the pool in
every run (what clients are told, the order of the fee index, the fees in the rows) is then proved
for a move.
-/

namespace Glaciem.Mempool

open List Dict Option Relation

variable {H K F : Type} [DecidableEq H] [DecidableEq K] {E : Env H K F}
  {p q : TxMemoryPool H K F} {id : H} {r r' : PoolRecord K}

namespace TxMemoryPool

/-! ## Removal -/

section Removal

/-- A row leaves with its entries, the clock is read, or the ids that timed out are noted. -/
inductive Shrinks (E : Env H K F) : TxMemoryPool H K F → TxMemoryPool H K F → Prop
  | discard {p : TxMemoryPool H K F} {id : H} {r : PoolRecord K} (hr : p.records.get? id = some r) :
    Shrinks E p (p.discard E id r)
  | tick (p : TxMemoryPool H K F) : Shrinks E p p.tick
  | timedOut (p : TxMemoryPool H K F) (ids : List H) :
    Shrinks E p { p with timedOutTransactions := ids }

theorem discard_frame (E : Env H K F) (p : TxMemoryPool H K F) (id : H) (r : PoolRecord K) :
    ∃ spent, p.discard E id r = { p with
      records := p.records.erase id
      spentKeyImages := spent
      txsByFeeAndReceiveTime := eraseById id p.txsByFeeAndReceiveTime
      txpoolWeight := p.txpoolWeight - r.txMeta.weight
      transient := p.transient.remove removedLimits (E.clock p.reads) id
        (!r.matchesCategory .broadcasted)
      reads := p.reads + 1 } := by
  obtain ⟨spent, hframe⟩ := p.removeRecord_frame id r.tx r.txMeta.weight
  refine ⟨spent, ?_⟩
  rw [discard, hframe]
  rfl

theorem shrinks_takeTx (id : H) : ReflTransGen (Shrinks E) p (p.takeTx E id).2 := by
  unfold takeTx
  cases hr : p.records.get? id with
  | none => exact .refl
  | some r => exact .single (.discard hr)

theorem shrinks_pruneLoop (bytes : Nat) (ids : List H) (p : TxMemoryPool H K F) :
    ReflTransGen (Shrinks E) p (pruneLoop E bytes ids p) := by
  induction ids generalizing p with
  | nil => exact .refl
  | cons id rest ih =>
    rw [pruneLoop]
    split
    · exact .refl
    · split
      · exact ih p
      · next r hr =>
        split
        · exact ih p
        · exact .head (.discard hr) (ih _)

/-- The lists in memory and the clock of another pool. -/
def withLists (p q : TxMemoryPool H K F) : TxMemoryPool H K F :=
  { p with
    txsByFeeAndReceiveTime := q.txsByFeeAndReceiveTime
    transient := q.transient
    timedOutTransactions := q.timedOutTransactions
    reads := q.reads }

theorem removeRecord_withLists (tx : Transaction K) (weight : Nat) :
    (p.withLists q).removeRecord id tx weight = (p.removeRecord id tx weight).withLists q := by
  have hkeyImages : ∀ keyImages (p : TxMemoryPool H K F),
      removeTransactionKeyimages id keyImages (p.withLists q)
        = (removeTransactionKeyimages id keyImages p).withLists q := by
    intro keyImages
    induction keyImages with
    | nil => exact fun p => rfl
    | cons keyImage rest ih =>
      intro p
      by_cases hmem : id ∈ p.spentKeyImages.owners keyImage
      · rw [removeTransactionKeyimages, removeTransactionKeyimages, if_pos hmem, ← ih]
        exact if_pos hmem
      · rw [removeTransactionKeyimages, removeTransactionKeyimages, if_neg hmem]
        exact if_neg hmem
  exact hkeyImages tx.keyImages (reduceTxpoolWeight { p with records := p.records.erase id } weight)

theorem timeOut_withLists :
    (p.withLists q).tick.timeOut E id r = p.withLists (q.tick.timeOut E id r) := rfl

theorem dropStuck_withLists (rows : List (H × PoolRecord K)) (p q : TxMemoryPool H K F) :
    dropStuck E rows (q.withLists p)
      = ((dropStuck E rows p).1, q.withLists (dropStuck E rows p).2) := by
  induction rows generalizing p with
  | nil => rfl
  | cons row rest ih =>
    have htick : (q.withLists p).tick = q.withLists p.tick := rfl
    have hreads : (q.withLists p).reads = p.reads := rfl
    rw [dropStuck, dropStuck, hreads]
    split
    · rw [timeOut_withLists, ih]
    · rw [htick, ih]

/-- A row that is stuck leaves at once. The first loop does not read the rows, so it is the same as
removing them in a second one. -/
def expire (E : Env H K F) (p : TxMemoryPool H K F) (row : H × PoolRecord K) : TxMemoryPool H K F :=
  if isStuck (E.clock p.reads) row.2 then
    (p.tick.removeRecord row.1 row.2.tx row.2.txMeta.weight).withLists
      (p.tick.timeOut E row.1 row.2)
  else p.tick

theorem foldl_expire (rows : List (H × PoolRecord K)) (p : TxMemoryPool H K F) :
    (dropStuck E rows p).1.foldl (fun p row => p.removeRecord row.1 row.2.tx row.2.txMeta.weight)
      (dropStuck E rows p).2 = rows.foldl (expire E) p := by
  induction rows generalizing p with
  | nil => rw [dropStuck, foldl_nil, foldl_nil]
  | cons row rest ih =>
    obtain ⟨id, r⟩ := row
    rw [foldl_cons, ← ih, dropStuck, expire]
    by_cases hstuck : isStuck (E.clock p.reads) r = true
    · -- what the loop does to the lists is the same with and without the row
      have hloop : p.tick.withLists (dropStuck E rest (p.tick.timeOut E id r)).2
          = (dropStuck E rest (p.tick.timeOut E id r)).2 :=
        (congrArg Prod.snd (dropStuck_withLists rest (p.tick.timeOut E id r) p.tick)).symm
      rw [if_pos hstuck, if_pos hstuck, dropStuck_withLists, ← removeRecord_withLists, hloop]
      rfl
    · rw [if_neg hstuck, if_neg hstuck]

theorem expire_stuck : (p.tick.removeRecord id r.tx r.txMeta.weight).withLists
    (p.tick.timeOut E id r)
    = { p.tick.discard E id r with timedOutTransactions := id :: p.timedOutTransactions } := by
  obtain ⟨spent, hframe⟩ := p.tick.removeRecord_frame id r.tx r.txMeta.weight
  rw [discard, hframe]
  simp only [withLists, timeOut, removeTxFromTransientLists, tick]

theorem shrinks_expire {rows : List (H × PoolRecord K)} (hnodup : (rows.map Prod.fst).Nodup)
    (hrows : ∀ row ∈ rows, p.records.get? row.1 = some row.2) :
    ReflTransGen (Shrinks E) p (rows.foldl (expire E) p) := by
  induction rows generalizing p with
  | nil => exact .refl
  | cons row rest ih =>
    obtain ⟨id, r⟩ := row
    obtain ⟨hr, hrest⟩ := forall_mem_cons.mp hrows
    rw [map_cons, nodup_cons] at hnodup
    rw [foldl_cons]
    refine .head (.tick p) ?_
    unfold expire
    split
    · rw [expire_stuck]
      refine .head (.discard hr) (.head (.timedOut _ _) (ih hnodup.2 fun row' hrow' => ?_))
      have hne : row'.1 ≠ id := fun heq => hnodup.1 (mem_map.mpr ⟨row', hrow', heq⟩)
      show (p.tick.discard E id r).records.get? row'.1 = _
      rw [records_discard, get?_erase_ne _ hne]
      exact hrest row' hrow'
    · exact ih hnodup.2 hrest

theorem get?_of_mem_rows {row : H × PoolRecord K} (hrow : row ∈ E.rows p.records.items) :
    p.records.get? row.1 = some row.2 :=
  p.records.get?_eq_some_iff.mpr ((E.rows_perm p.records.items).mem_iff.mp hrow)

theorem shrinks_removeStuckTransactions :
    ReflTransGen (Shrinks E) p (p.removeStuckTransactions E) := by
  have hnodup : ((E.rows p.records.items).map Prod.fst).Nodup :=
    ((E.rows_perm p.records.items).map _).nodup_iff.mpr p.records.nodup
  have hexpire := foldl_expire (E := E) (E.rows p.records.items) p
  unfold removeStuckTransactions
  dsimp only
  rw [hexpire]
  exact shrinks_expire hnodup fun row hrow => get?_of_mem_rows hrow

end Removal

end TxMemoryPool

/-! ## Moves -/

/-- The row has the fee of the transaction with its id. -/
structure ChargesFee (E : Env H K F) (id : H) (r : PoolRecord K) : Prop where
  tx_fee : r.tx.fee = (E.content id).fee
  meta_fee : (E.content id).fee = some r.txMeta.fee

def Charged (E : Env H K F) (rows : Dict H (PoolRecord K)) : Prop :=
  ∀ id r, rows.get? id = some r → ChargesFee E id r

namespace TxMemoryPool

/-- `records` are the rows of the pool with one written. A transaction that was broadcast stays so.
If `charged`, the row has the fee of its transaction once the others have. -/
structure Writes (E : Env H K F) (charged : Prop) (p : TxMemoryPool H K F) (id : H)
    (r : PoolRecord K) (records : Dict H (PoolRecord K)) : Prop where
  get? : ∀ id', records.get? id' = if id' = id then some r else p.records.get? id'
  broadcasted : ∀ old, p.records.get? id = some old →
    old.matchesCategory .broadcasted = true → r.matchesCategory .broadcasted = true
  charges : charged → Charged E p.records → ChargesFee E id r

variable [LinearOrder F]

/-- One move of a call. -/
inductive Move (E : Env H K F) (charged : Prop) : TxMemoryPool H K F → TxMemoryPool H K F → Prop
  | shrinks {p q : TxMemoryPool H K F} (h : Shrinks E p q) : Move E charged p q
  | put {p : TxMemoryPool H K F} {id : H} {r : PoolRecord K} {records : Dict H (PoolRecord K)}
      (hwrites : Writes E charged p id r records) (rate : F) (receiveTime : Nat) :
    Move E charged p (({ p with records := records } :
      TxMemoryPool H K F).addTxToTransientLists E id
      rate receiveTime)
  | setRow {p : TxMemoryPool H K F} {id : H} {r old : PoolRecord K}
      {records : Dict H (PoolRecord K)}
      (hwrites : Writes E charged p id r records) (hold : p.records.get? id = some old)
      (hsame : r.matchesCategory .broadcasted = old.matchesCategory .broadcasted) :
    Move E charged p { p with records := records }
  | clear {p : TxMemoryPool H K F} {index : List (FeeEntry H F)}
      (hindex : index.Sublist p.txsByFeeAndReceiveTime) : Move E charged p { p with
        txsByFeeAndReceiveTime := index
        transient := ChangeFeed.empty }
  | frame (p : TxMemoryPool H K F) (spent : KeyIndex K H) (weight maxWeight : Nat) :
    Move E charged p { p with
      spentKeyImages := spent
      txpoolWeight := weight
      txpoolMaxWeight := maxWeight }

abbrev Moves (E : Env H K F) (charged : Prop) (p q : TxMemoryPool H K F) : Prop :=
  ReflTransGen (Move E charged) p q

variable {C : ChainView H K} {tx : Transaction K} {txWeight version nicVerifiedHfVersion : Nat}
  {txRelay : RelayMethod} {charged : Prop}

theorem moves_of_shrinks (h : ReflTransGen (Shrinks E) p q) : Moves E charged p q :=
  ReflTransGen.mono (fun _ _ => Move.shrinks) _ _ h

theorem moves_addTxWritten {records : Dict H (PoolRecord K)}
    (hwrites : Writes E charged p id r records) (addedToPool : Bool) :
    Moves E charged p (addTxWritten E { p with records := records } id r addedToPool).2 :=
  .head (.put hwrites _ _) (.head (.frame _ _ _ _) (moves_of_shrinks (shrinks_pruneLoop _ _ _)))

omit [LinearOrder F] in
theorem records_insertKeyImages {keyImages : List K} {ok : Bool}
    (hins : insertKeyImages id txRelay keyImages p = (ok, q)) : q.records = p.records := by
  obtain ⟨spent, hframe⟩ := insertKeyImages_frame id txRelay keyImages p
  rw [hins] at hframe
  subst hframe
  rfl

theorem move_insertKeyImages {keyImages : List K} {ok : Bool}
    (hins : insertKeyImages id txRelay keyImages p = (ok, q)) : Move E charged p q := by
  obtain ⟨spent, hframe⟩ := insertKeyImages_frame id txRelay keyImages p
  rw [hins] at hframe
  subst hframe
  exact .frame p spent p.txpoolWeight p.txpoolMaxWeight

theorem moves_addTxWrongInputs {fee receiveTime : Nat} (hfee : tx.fee = some fee)
    (htx : charged → tx.fee = (E.content id).fee) :
    Moves E charged p (p.addTxWrongInputs E tx id txWeight fee receiveTime .block).2 := by
  unfold addTxWrongInputs
  split
  · next q hins => exact .single (move_insertKeyImages hins)
  · next q hins =>
    exact .head (move_insertKeyImages hins) (moves_addTxWritten ⟨(get?_set _ _ · _),
      fun _ _ _ => rfl, fun hcharged _ => ⟨htx hcharged, (htx hcharged).symm.trans hfee⟩⟩ true)

theorem moves_addTxRightInputs {fee receiveTime : Nat} (hfee : tx.fee = some fee)
    (htx : charged → tx.fee = (E.content id).fee) :
    Moves E charged p (p.addTxRightInputs E tx id txWeight fee receiveTime txRelay).2 := by
  unfold addTxRightInputs
  dsimp only
  -- the relay method that is written, whatever it is
  generalize (if (p.records.get? id).isSome && decide (txRelay = .stem)
    && decide (_ = RelayMethod.stem) then RelayMethod.fluff else txRelay) = relay
  split
  · split
    · next q hins => exact .single (move_insertKeyImages hins)
    · next q hins =>
      refine .head (move_insertKeyImages hins) (moves_addTxWritten ⟨fun id' => ?_,
        fun old hold hpublic => ?_,
        fun hcharged _ => ⟨htx hcharged, (htx hcharged).symm.trans hfee⟩⟩ _)
      · rw [get?_set]
        split
        · rfl
        · next hid => exact get?_erase_ne _ hid
      · -- a transaction that was broadcast stays so
        rw [records_insertKeyImages hins] at hold
        simp only [hold]
        exact broadcasted_upgrade _ hpublic
  · exact moves_of_shrinks (shrinks_pruneLoop _ _ _)

theorem moves_addTx (htx : charged → tx.fee = (E.content id).fee) :
    Moves E charged p (p.addTx E C tx id txWeight txRelay version nicVerifiedHfVersion).2 := by
  unfold addTx
  split
  · exact .refl
  · next fee hfee =>
    dsimp only
    split
    · exact .refl
    · refine .head (.shrinks (.tick p)) ?_
      split
      · exact moves_addTxRightInputs hfee htx
      · split
        · next hkept =>
          rw [of_decide_eq_true hkept]
          exact moves_addTxWrongInputs hfee htx
        · exact .refl

theorem moves_setRelayedOne (now : Nat) (method : RelayMethod) (id : H) :
    Moves E charged p (setRelayedOne E now method p id) := by
  unfold setRelayedOne
  cases hr : p.records.get? id with
  | none => exact .refl
  | some r =>
    have hwrites : ∀ r', r'.tx = r.tx → r'.txMeta.fee = r.txMeta.fee →
        r'.txMeta.relayMethod = upgradeRelayMethod r.txMeta.relayMethod method →
        Writes E charged p id r' (p.records.set id r') := by
      intro r' htx hfee hrelay
      refine ⟨(get?_set p.records id · _), fun old hold hpublic => ?_, fun _ h => ?_⟩
      · cases hr.symm.trans hold
        rw [PoolRecord.matchesCategory, hrelay]
        exact broadcasted_upgrade method hpublic
      · exact ⟨htx ▸ (h id r hr).tx_fee, hfee ▸ (h id r hr).meta_fee⟩
    dsimp only
    split
    · refine .single (.put (hwrites _ ?_ ?_ ?_) _ _) <;> rfl
    · next hnot =>
      -- the row is as public as it was
      refine .single (.setRow (hwrites _ ?_ ?_ ?_) hr ?_)
      · rfl
      · rfl
      · rfl
      · cases hold : r.matchesCategory .broadcasted with
        | true => exact broadcasted_upgrade method hold
        | false =>
          rw [hold] at hnot
          simpa using hnot

theorem moves_setRelayed (ids : List H) (method : RelayMethod) :
    Moves E charged p (p.setRelayed E ids method) := by
  refine .head (.shrinks (.tick p)) ?_
  exact foldlRecOn (motive := Moves E charged _) ids _ .refl
    fun q hq id _ => hq.trans (moves_setRelayedOne _ method id)

/-! ### Validation -/

theorem addTx_emptyTransaction (hversion : version ≠ 0) :
    p.addTx E C emptyTransaction id txWeight txRelay version 0 = (false, p) := by
  have hver : E.verNonInputConsensus version (emptyTransaction : Transaction K) = false := rfl
  have hpasses : passesChecks E p (emptyTransaction : Transaction K) id (decide (txRelay = .block))
      version 0 = false := by
    simp [passesChecks, hver, hversion]
  change (if (passesChecks E p emptyTransaction id _ version 0 && _ && _) = false then _ else _) = _
  rw [hpasses, Bool.false_and, Bool.false_and, if_pos rfl]

omit [LinearOrder F] in
theorem items_shrinks (h : Shrinks E p q) : q.records.items ⊆ p.records.items := by
  cases h with
  | discard hr =>
    rw [records_discard]
    exact filter_sublist.subset
  | tick | timedOut ids => exact Subset.refl _

omit [LinearOrder F] in
theorem items_pruneLoop_subset (bytes : Nat) (ids : List H) (p : TxMemoryPool H K F) :
    (pruneLoop E bytes ids p).records.items ⊆ p.records.items :=
  invariant_of_steps (P := fun q : TxMemoryPool H K F => q.records.items ⊆ p.records.items)
    (fun h hstep => Subset.trans (items_shrinks hstep) h) (shrinks_pruneLoop bytes ids p)
    (Subset.refl _)

omit [LinearOrder F] in
theorem eq_of_addTxDone (hr : p.records.get? id = some r)
    (hr' : (addTxDone E p).2.records.get? id = some r') : r' = r := by
  have hmem := items_pruneLoop_subset _ _ _ ((get?_eq_some_iff _).mp hr')
  rw [← get?_eq_some_iff, hr] at hmem
  exact (Option.some.inj hmem).symm

theorem eq_of_addTxWritten {addedToPool : Bool} (hr : p.records.get? id = some r)
    (hr' : (addTxWritten E p id r addedToPool).2.records.get? id = some r') : r' = r :=
  eq_of_addTxDone (E := E) (p := { p.addTxToTransientLists E id _ _ with txpoolWeight := _ }) hr hr'

theorem upgradeRelayMethod_none (method : RelayMethod) :
    upgradeRelayMethod .none method = method := by
  cases method <;> rfl

theorem relayMethod_addTxRightInputs (hnew : p.records.get? id = none)
    (hr' : (p.addTxRightInputs E tx id txWeight fee receiveTime txRelay).2.records.get? id
      = some r') : r'.txMeta.relayMethod = txRelay := by
  unfold TxMemoryPool.addTxRightInputs at hr'
  simp only [hnew, isSome_none, isNone_none, map_none, getD_none,
    Bool.false_and, Bool.or_true, Bool.false_eq_true, if_false, if_true] at hr'
  split at hr'
  · next q hins =>
    rw [records_insertKeyImages hins, hnew] at hr'
    cases hr'
  · rw [eq_of_addTxWritten (get?_set_self _ _ _) hr']
    exact upgradeRelayMethod_none txRelay

theorem relayMethod_addTxWrongInputs (hnew : p.records.get? id = none)
    (hr' : (p.addTxWrongInputs E tx id txWeight fee receiveTime txRelay).2.records.get? id
      = some r') : r'.txMeta.relayMethod = txRelay := by
  unfold TxMemoryPool.addTxWrongInputs at hr'
  split at hr'
  · next q hins =>
    rw [records_insertKeyImages hins, hnew] at hr'
    cases hr'
  · rw [eq_of_addTxWritten (get?_set_self _ _ _) hr']

theorem relayMethod_addTx (hnew : p.records.get? id = none)
    (hr' : (p.addTx E C tx id txWeight txRelay version nicVerifiedHfVersion).2.records.get? id
      = some r') : r'.txMeta.relayMethod = txRelay := by
  have hnone : p.records.get? id ≠ some r' := by simp [hnew]
  unfold TxMemoryPool.addTx at hr'
  split at hr'
  · exact absurd hr' hnone
  · dsimp only at hr'
    split at hr'
    · exact absurd hr' hnone
    · split at hr'
      · exact relayMethod_addTxRightInputs (p := p.tick) hnew hr'
      · split at hr'
        · exact relayMethod_addTxWrongInputs (p := p.tick) hnew hr'
        · exact absurd hr' hnone

/-- What `validate` does with a row: nothing if it is gone by then, else it is taken out and added
again, and gets its old data back if it is there. -/
theorem validateOne_cases (C : ChainView H K) (hversion : version ≠ 0) (row : H × PoolRecord K) :
    validateOne E C version p row = p ∨ ∃ r q, p.records.get? row.1 = some r
      ∧ q = ((p.discard E row.1 r).addTx E C r.tx row.1 row.2.txMeta.weight
        row.2.txMeta.relayMethod version 0).2
      ∧ (validateOne E C version p row = q
        ∨ ∃ r', q.records.get? row.1 = some r' ∧ r'.txMeta.relayMethod = row.2.txMeta.relayMethod
          ∧ validateOne E C version p row
            = { q with records := q.records.set row.1 { r' with txMeta := row.2.txMeta } }) := by
  unfold validateOne takeTx
  cases hr : p.records.get? row.1 with
  | none =>
    dsimp only [map_none, getD_none]
    rw [addTx_emptyTransaction hversion]
    exact .inl rfl
  | some r =>
    dsimp only [map_some, getD_some]
    have hnew : (p.discard E row.1 r).records.get? row.1 = none := by
      rw [records_discard, get?_erase_self]
    have hrelay : ∀ r', ((p.discard E row.1 r).addTx E C r.tx row.1 row.2.txMeta.weight
        row.2.txMeta.relayMethod version 0).2.records.get? row.1 = some r' →
          r'.txMeta.relayMethod = row.2.txMeta.relayMethod := fun r' => relayMethod_addTx hnew
    refine .inr ⟨r, _, rfl, rfl, ?_⟩
    generalize (p.discard E row.1 r).addTx E C r.tx row.1 row.2.txMeta.weight
      row.2.txMeta.relayMethod version 0 = added at hrelay ⊢
    obtain ⟨ok, q⟩ := added
    cases ok with
    | false => exact .inl rfl
    | true =>
      dsimp only at hrelay ⊢
      cases hr' : q.records.get? row.1 with
      | none => exact .inl rfl
      | some r' => exact .inr ⟨r', rfl, hrelay r' hr', rfl⟩

theorem moves_validateOne (hversion : version ≠ 0) {row : H × PoolRecord K}
    (hcharged : charged → Charged E p.records) (hrow : charged → ChargesFee E row.1 row.2) :
    Moves E charged p (validateOne E C version p row) := by
  rcases validateOne_cases (E := E) (p := p) C hversion row with heq | ⟨r, q, hr, hq, hcases⟩
  · rw [heq]
  · have hadd : Moves E charged p q := by
      rw [hq]
      exact .head (.shrinks (.discard hr)) (moves_addTx fun h => (hcharged h row.1 r hr).tx_fee)
    rcases hcases with heq | ⟨r', hr', hrelay, heq⟩
    · rw [heq]
      exact hadd
    · rw [heq]
      have hsame : ({ r' with txMeta := row.2.txMeta } : PoolRecord K).matchesCategory .broadcasted
          = r'.matchesCategory .broadcasted := by
        show Mempool.matchesCategory _ _ = Mempool.matchesCategory _ _
        rw [hrelay]
      refine hadd.tail (.setRow ⟨(get?_set _ _ · _), fun old hold hpublic => ?_,
        fun h hq' => ⟨(hq' row.1 r' hr').tx_fee, (hrow h).meta_fee⟩⟩ hr' hsame)
      cases hr'.symm.trans hold
      exact hsame.trans hpublic

theorem charged_of_moves (h : Moves E charged p q) (hcharged : charged)
    (hp : Charged E p.records) : Charged E q.records := by
  refine invariant_of_steps (P := fun p : TxMemoryPool H K F => Charged E p.records)
    (fun {p q} hp hmove id' r' hr' => ?_) h hp
  cases hmove with
  | shrinks h =>
    exact hp id' r' (p.records.get?_eq_some_iff.mpr
      (items_shrinks h (q.records.get?_eq_some_iff.mp hr')))
  | put hwrites | setRow hwrites =>
    replace hr' := (hwrites.get? id').symm.trans hr'
    split at hr'
    · next hid =>
      cases hr'
      exact hid ▸ hwrites.charges hcharged hp
    · exact hp id' r' hr'
  | clear | frame => exact hp id' r' hr'

theorem moves_validate (hversion : version ≠ 0) :
    Moves E (Charged E p.records) p (p.validate E C version) := by
  refine foldlRecOn (motive := Moves E (Charged E p.records) p) _ _
    (.single (.clear (Sublist.refl _))) fun q hq row hrow => ?_
  refine hq.trans (moves_validateOne hversion (fun hp => charged_of_moves hq hp hp) fun hp => ?_)
  exact hp row.1 row.2 (get?_of_mem_rows (mem_of_mem_filter hrow))

/-! ### Reading the database -/

theorem moves_initPass (kept : Bool) {rows : List (H × PoolRecord K)}
    (hrows : ∀ row ∈ rows, p.records.get? row.1 = some row.2) :
    Moves E charged p (initPass E kept rows p).2
      ∧ (initPass E kept rows p).2.records = p.records := by
  induction rows generalizing p with
  | nil => exact ⟨.refl, rfl⟩
  | cons row rest ih =>
    obtain ⟨id, r⟩ := row
    obtain ⟨hr, hrest⟩ := forall_mem_cons.mp hrows
    rw [initPass]
    split
    · exact ih hrest
    · split
      · next q hins => exact ⟨.single (move_insertKeyImages hins), records_insertKeyImages hins⟩
      · next q hins =>
        have hrecords := records_insertKeyImages hins
        rw [← hrecords] at hr hrest
        obtain ⟨hmoves, hsame⟩ := ih (p := { q.addTxToTransientLists E id
            (E.feeRate r.txMeta.fee r.txMeta.weight) r.txMeta.receiveTime with
              txpoolWeight := q.txpoolWeight + r.txMeta.weight }) hrest
        have hput : Move E charged q (q.addTxToTransientLists E id
            (E.feeRate r.txMeta.fee r.txMeta.weight) r.txMeta.receiveTime) := by
          refine .put ⟨fun id' => ?_, fun old hold hpublic => ?_, fun _ hq => hq id r hr⟩ _ _
          · split
            · next hid => rw [hid, hr]
            · rfl
          · cases hr.symm.trans hold
            exact hpublic
        exact ⟨.head (move_insertKeyImages hins) (.head hput (.head (.frame _ _ _ _) hmoves)),
          hsame.trans hrecords⟩

theorem moves_init (maxTxpoolWeight : Nat) :
    Moves E charged p (p.init E maxTxpoolWeight).2 := by
  unfold TxMemoryPool.init
  dsimp only
  generalize hstart : ({ p with
    txpoolMaxWeight := if maxTxpoolWeight = 0 then DEFAULT_TXPOOL_MAX_WEIGHT else maxTxpoolWeight
    txsByFeeAndReceiveTime := []
    transient := ChangeFeed.empty
    spentKeyImages := KeyIndex.empty
    txpoolWeight := 0 } : TxMemoryPool H K F) = start
  have hclear : Moves E charged p start ∧ start.records = p.records := by
    subst hstart
    exact ⟨.head (.clear (nil_sublist _)) (.single (.frame _ _ _ _)), rfl⟩
  obtain ⟨hfirst, -⟩ := moves_initPass (E := E) (p := start) false
    fun row hrow => get?_of_mem_rows (E := E) hrow
  rw [hclear.2] at hfirst
  split
  · next q hpass =>
    rw [hpass] at hfirst
    exact hclear.1.trans hfirst
  · next q hpass =>
    rw [hpass] at hfirst
    refine hclear.1.trans (hfirst.trans (moves_initPass true fun row hrow => ?_).1)
    exact get?_of_mem_rows (E := E) hrow

theorem moves_after (op : PoolOp E) : Moves E (Charged E p.records) p (p.after op) := by
  cases op with
  | init maxTxpoolWeight => exact moves_init maxTxpoolWeight
  | setTxpoolMaxWeight bytes => exact .single (.frame p p.spentKeyImages p.txpoolWeight bytes)
  | addTx C id pruned txRelay version nicVerifiedHfVersion _ => exact moves_addTx fun _ => rfl
  | takeTx id => exact moves_of_shrinks (shrinks_takeTx id)
  | prune bytes => exact moves_of_shrinks (shrinks_pruneLoop _ _ _)
  | removeStuckTransactions => exact moves_of_shrinks shrinks_removeStuckTransactions
  | validate C version hversion => exact moves_validate hversion
  | setRelayed ids method => exact moves_setRelayed ids method

/-! ## The order of the fee index -/

section Order

omit [DecidableEq H]

theorem perm_insertSorted (e : FeeEntry H F) (index : List (FeeEntry H F)) :
    (insertSorted e index).Perm (e :: index) := by
  refine perm_middle.trans ?_
  rw [takeWhile_append_dropWhile]

theorem insertSorted_cons (e u : FeeEntry H F) (index : List (FeeEntry H F)) :
    insertSorted e (u :: index)
      = if txFeeCompare e u then e :: u :: index else u :: insertSorted e index := by
  unfold insertSorted
  cases h : txFeeCompare e u with
  | true | false => simp [h]

theorem txFeeCompare_iff {a b : FeeEntry H F} : txFeeCompare a b = true
    ↔ b.rate < a.rate ∨ a.rate = b.rate ∧ a.receiveTime < b.receiveTime := by
  unfold txFeeCompare
  rcases lt_trichotomy a.rate b.rate with h | h | h
  · simp [h, h.not_gt, h.ne]
  · simp [h]
  · simp [h, h.ne']

theorem txFeeCompare_trans {a b c : FeeEntry H F} (h : txFeeCompare a b = true)
    (h' : txFeeCompare b c = true) : txFeeCompare a c = true := by
  rw [txFeeCompare_iff] at *
  rcases h with h | ⟨h, ht⟩ <;> rcases h' with h' | ⟨h', ht'⟩
  · exact .inl (h'.trans h)
  · exact .inl (h' ▸ h)
  · exact .inl (h ▸ h')
  · exact .inr ⟨h.trans h', ht.trans ht'⟩

/-- No entry stands before one of a higher rate, or of the same rate and an earlier time. -/
abbrev FeeOrdered (index : List (FeeEntry H F)) : Prop :=
  index.Pairwise fun a b => txFeeCompare b a = false

theorem FeeOrdered.insertSorted {index : List (FeeEntry H F)} (h : FeeOrdered index)
    (e : FeeEntry H F) : FeeOrdered (insertSorted e index) := by
  induction index with
  | nil => exact pairwise_singleton _ _
  | cons u rest ih =>
    obtain ⟨hu, hrest⟩ := pairwise_cons.mp h
    rw [insertSorted_cons]
    split
    · next hbefore =>
      refine pairwise_cons.mpr ⟨fun x hx => Bool.not_eq_true _ |>.mp fun hx' => ?_, h⟩
      -- what comes before the new entry comes before the one it is put in front of
      have hxu := txFeeCompare_trans hx' hbefore
      rcases mem_cons.mp hx with rfl | hx
      · simp [txFeeCompare] at hxu
      · rw [hu x hx] at hxu
        cases hxu
    · next hafter =>
      refine pairwise_cons.mpr ⟨fun x hx => ?_, ih hrest⟩
      rcases mem_cons.mp ((perm_insertSorted e rest).subset hx) with rfl | hx
      · exact Bool.not_eq_true _ |>.mp hafter
      · exact hu x hx

end Order

theorem FeeOrdered.insertByFee {index : List (FeeEntry H F)} (h : FeeOrdered index)
    (e : FeeEntry H F) : FeeOrdered (insertByFee e index) := by
  unfold TxMemoryPool.insertByFee
  split
  · exact h
  · exact h.insertSorted e

theorem feeOrdered_of_moves (h : Moves E charged p q) (hp : FeeOrdered p.txsByFeeAndReceiveTime) :
    FeeOrdered q.txsByFeeAndReceiveTime := by
  refine invariant_of_steps (P := fun p : TxMemoryPool H K F => FeeOrdered p.txsByFeeAndReceiveTime)
    (fun {p q} hp hmove => ?_) h hp
  cases hmove with
  | shrinks h =>
    cases h with
    | @discard id r hr =>
      obtain ⟨spent, hframe⟩ := discard_frame E p id r
      rw [hframe]
      exact hp.filter _
    | tick | timedOut => exact hp
  | put =>
    refine FeeOrdered.insertByFee ?_ _
    split
    · exact hp.filter _
    · exact hp
  | setRow | frame => exact hp
  | clear hindex => exact hp.sublist hindex

end TxMemoryPool

/-- After any sequence of calls the fee index is in order. -/
theorem fee_index_ordered_of_run [LinearOrder F] {db : Dict H (PoolRecord K)} {reads : Nat}
    {ops : List (PoolOp E)} (h : (pools E).exec (TxMemoryPool.new db reads) ops = some p) :
    TxMemoryPool.FeeOrdered p.txsByFeeAndReceiveTime := by
  have hstep : ∀ {p : TxMemoryPool H K F} {op : PoolOp E} {q : TxMemoryPool H K F},
      TxMemoryPool.FeeOrdered p.txsByFeeAndReceiveTime → (pools E).step p op = some q →
        TxMemoryPool.FeeOrdered q.txsByFeeAndReceiveTime := by
    intro p op q hp hstep
    cases hstep
    exact TxMemoryPool.feeOrdered_of_moves (TxMemoryPool.moves_after op) hp
  exact (pools E).invariant_of_exec hstep Pairwise.nil h

end Glaciem.Mempool
