import Glaciem.Db.Lmdb

/-!
# Glaciem — popping undoes adding

Each function that adds to the tables writes rows that were not there, and the function that takes
them out again deletes just these.

* `withPruning` — the same tables with other prunable parts. The removals of a transaction restore
  all other tables whatever pruning has done to these (`removeTransaction_of_add`,
  `popBlock_of_add`).
-/

namespace Glaciem.Db

open List Option Table

theorem bind_eq_ok {ε α β : Type} {x : Except ε α} {f : α → Except ε β} {b : β} :
    (x >>= f) = .ok b ↔ ∃ a, x = .ok a ∧ f a = .ok b := by
  cases x with
  | error e | ok a => simp [bind, Except.bind]

theorem orThrow_eq_ok {α : Type} {e : DbError} {o : Option α} {a : α} :
    orThrow e o = .ok a ↔ o = some a := by
  cases o with
  | none => exact ⟨fun h => (nomatch h), fun h => (nomatch h)⟩
  | some b => exact ⟨fun h => by cases h; rfl, fun h => by cases h; rfl⟩

variable {H K P C : Type} [LinearOrder H] [LinearOrder K] {E : Env H K P C}
  {db db' : Tables H K P C}

namespace Tables

/-! ## Key images -/

def keyImages (vin : List (TxIn K)) : List K := vin.filterMap fun
  | .toKey kImage => some kImage
  | _ => none

theorem addSpentKey_eq_ok {kImage : K} : db.addSpentKey kImage = .ok db' ↔
    db.spentKeys.get? kImage = none
      ∧ db' = { db with spentKeys := db.spentKeys.put kImage () } := by
  unfold addSpentKey
  rw [bind_eq_ok]
  simp only [orThrow_eq_ok, putNew_eq_some]
  constructor
  · rintro ⟨t, ⟨hnone, rfl⟩, heq⟩
    cases heq
    exact ⟨hnone, rfl⟩
  · rintro ⟨hnone, rfl⟩
    exact ⟨_, ⟨hnone, rfl⟩, rfl⟩

theorem addInputs_eq_ok {vin : List (TxIn K)} (h : db.addInputs vin = .ok db') :
    db' = { db with spentKeys := db'.spentKeys }
      ∧ (∀ k ∈ keyImages vin, db.spentKeys.get? k = none)
      ∧ ∀ k, db'.spentKeys.get? k
          = if k ∈ keyImages vin then some () else db.spentKeys.get? k := by
  induction vin generalizing db with
  | nil =>
    cases h
    exact ⟨rfl, by simp [keyImages], by simp [keyImages]⟩
  | cons input rest ih =>
    cases input with
    | gen => exact ih h
    | toScript | toScripthash => cases h
    | toKey kImage =>
      obtain ⟨db₁, hadd, hrest⟩ := bind_eq_ok.mp h
      obtain ⟨hnone, rfl⟩ := addSpentKey_eq_ok.mp hadd
      obtain ⟨hfields, hfresh, hget⟩ := ih hrest
      have himages : keyImages (.toKey kImage :: rest) = kImage :: keyImages rest := rfl
      rw [himages]
      refine ⟨hfields, ?_, ?_⟩
      · intro k hk
        rcases mem_cons.mp hk with rfl | hk
        · exact hnone
        · have hk' := hfresh k hk
          rw [get?_put] at hk'
          split at hk'
          · cases hk'
          · exact hk'
      · intro k
        rw [hget k]
        rw [get?_put]
        by_cases hk : k ∈ keyImages rest
        · simp [hk]
        · by_cases heq : k = kImage <;> simp [hk, heq]

theorem removeSpentKeys_eq (db : Tables H K P C) (vin : List (TxIn K)) :
    ∃ t, db.removeSpentKeys vin = { db with spentKeys := t }
      ∧ ∀ k, t.get? k = if k ∈ keyImages vin then none else db.spentKeys.get? k := by
  induction vin generalizing db with
  | nil => exact ⟨db.spentKeys, rfl, by simp [keyImages]⟩
  | cons input rest ih =>
    cases input with
    | gen | toScript | toScripthash => exact ih db
    | toKey kImage =>
      obtain ⟨t, heq, hget⟩ := ih { db with spentKeys := db.spentKeys.del kImage }
      refine ⟨t, heq, fun k => ?_⟩
      have himages : keyImages (.toKey kImage :: rest) = kImage :: keyImages rest := rfl
      rw [hget k, himages]
      rw [get?_del]
      by_cases hk : k ∈ keyImages rest
      · simp [hk]
      · by_cases heq : k = kImage <;> simp [hk, heq]

theorem removeSpentKeys_of_add {vin : List (TxIn K)} (h : db.addInputs vin = .ok db')
    (db₁ : Tables H K P C) (hkeys : db₁.spentKeys = db'.spentKeys) :
    db₁.removeSpentKeys vin = { db₁ with spentKeys := db.spentKeys } := by
  obtain ⟨-, hfresh, hget⟩ := addInputs_eq_ok h
  obtain ⟨t, heq, ht⟩ := removeSpentKeys_eq db₁ vin
  rw [heq]
  congr 1
  refine ext_get? fun k => ?_
  rw [ht k, hkeys, hget k]
  split
  · next hk => exact (hfresh k hk).symm
  · rfl

/-! ## Outputs -/

variable {txHash : H} {indices : List Nat} {tx : Tx K P C} {txId numRctOuts : Nat}
  {b : NewBlock H K P C}

theorem addOutput_eq_ok {amount : Nat} {key : Option P} {localIndex unlockTime : Nat}
    {commitment : Option C} {index : Nat}
    (h : db.addOutput txHash amount key localIndex unlockTime commitment = .ok (db', index)) :
    ∃ pubkey, key = some pubkey ∧ index = (db.outputAmounts.dups amount).length
      ∧ db.outputTxs.get? db.numOutputs = none
      ∧ (∀ r ∈ db.outputAmounts.dups amount, r.1 < index)
      ∧ db' = { db with
          outputTxs := db.outputTxs.put db.numOutputs (txHash, localIndex)
          outputAmounts := db.outputAmounts.put (toLex (amount, index))
            ⟨db.numOutputs, pubkey, unlockTime, db.height,
              if amount = 0 then commitment else none⟩ } := by
  obtain ⟨pubkey, hkey, h⟩ := bind_eq_ok.mp h
  rw [orThrow_eq_ok] at hkey
  dsimp only at h
  split at h
  · cases h
  · obtain ⟨outputTxs, houtputTxs, h⟩ := bind_eq_ok.mp h
    obtain ⟨outputAmounts, houtputAmounts, h⟩ := bind_eq_ok.mp h
    obtain ⟨habove, rfl⟩ := append_eq_some.mp (orThrow_eq_ok.mp houtputTxs)
    obtain ⟨hdups, rfl⟩ := appendDup_eq_some.mp (orThrow_eq_ok.mp houtputAmounts)
    cases h
    exact ⟨pubkey, hkey, rfl, get?_of_above habove, hdups, rfl⟩

theorem removeOutput_of_add {amount : Nat} {key : Option P} {localIndex unlockTime : Nat}
    {commitment : Option C} {index : Nat}
    (h : db.addOutput txHash amount key localIndex unlockTime commitment = .ok (db', index))
    (db₁ : Tables H K P C) (htxs : db₁.outputTxs = db'.outputTxs)
    (hamounts : db₁.outputAmounts = db'.outputAmounts) :
    db₁.removeOutput amount index
      = .ok { db₁ with outputTxs := db.outputTxs, outputAmounts := db.outputAmounts } := by
  obtain ⟨pubkey, -, -, hfresh, hdups, rfl⟩ := addOutput_eq_ok h
  have hamount := get?_of_above_dups hdups
  unfold removeOutput
  rw [hamounts, htxs]
  rw [get?_put_self, del_put hamount]
  simp only [orThrow, bind, Except.bind, get?_put_self, isNone_some, del_put hfresh]
  rfl

/-- Removing the outputs `rows` from tables with the outputs of `db` leaves those given. -/
def RemovesTo (db : Tables H K P C) (rows : List (Nat × Nat)) (outputTxs : Table Nat (H × Nat))
    (outputAmounts : Table (Nat ×ₗ Nat) (OutKey P C)) : Prop :=
  ∀ db₁ : Tables H K P C, db₁.outputTxs = db.outputTxs → db₁.outputAmounts = db.outputAmounts →
    db₁.removeOutputs rows
      = .ok { db₁ with outputTxs := outputTxs, outputAmounts := outputAmounts }

theorem addOutputs_eq_ok {tx : TxBase K P C} {i : Nat} {outs : List (TxOut P)}
    (h : addOutputs E tx txHash db i outs = .ok (db', indices)) :
    indices.length = outs.length
      ∧ db' = { db with outputTxs := db'.outputTxs, outputAmounts := db'.outputAmounts }
      ∧ db'.RemovesTo ((outs.map tx.storedAmount).zip indices) db.outputTxs db.outputAmounts := by
  induction outs generalizing db i indices with
  | nil =>
    cases h
    refine ⟨rfl, rfl, fun db₁ htxs hamounts => ?_⟩
    rw [← htxs, ← hamounts]
    rfl
  | cons out rest ih =>
    obtain ⟨⟨db₂, index⟩, hout, h⟩ := bind_eq_ok.mp h
    obtain ⟨⟨db₃, indices'⟩, hrest, h⟩ := bind_eq_ok.mp h
    cases h
    obtain ⟨hlength, hfields, hundo⟩ := ih hrest
    obtain ⟨pubkey, -, -, -, -, hdb₂⟩ := addOutput_eq_ok hout
    refine ⟨congrArg (· + 1) hlength, ?_, fun db₁ htxs hamounts => ?_⟩
    · rw [hfields, hdb₂]
    · rw [map_cons, zip_cons_cons, removeOutputs, hundo db₁ htxs hamounts]
      exact removeOutput_of_add hout _ rfl rfl

/-! ## The data of a transaction -/

def withTransaction (db : Tables H K P C) (tx : Tx K P C) (txHash txPrunableHash : H) :
    Tables H K P C :=
  { db with
    txIndices := db.txIndices.put txHash ⟨db.getTxCount, tx.unlockTime, db.height⟩
    txsPruned := db.txsPruned.put db.getTxCount tx.toTxBase
    txsPrunable := db.txsPrunable.put db.getTxCount tx.prunable
    txsPrunableTip :=
      if db.getBlockchainPruningSeed ≠ 0 then
        db.txsPrunableTip.put (toLex (db.getTxCount, db.height)) ()
      else db.txsPrunableTip
    txsPrunableHash :=
      if 1 < tx.version then db.txsPrunableHash.put db.getTxCount txPrunableHash
      else db.txsPrunableHash }

theorem addTransactionData_eq_ok {txPrunableHash : H}
    (h : db.addTransactionData tx txHash txPrunableHash = .ok (db', txId)) :
    txId = db.getTxCount ∧ db' = db.withTransaction tx txHash txPrunableHash
      ∧ db.txIndices.get? txHash = none
      ∧ (∀ r ∈ db.txsPruned.rows, r.1 < txId) ∧ (∀ r ∈ db.txsPrunable.rows, r.1 < txId)
      ∧ (1 < tx.version → ∀ r ∈ db.txsPrunableHash.rows, r.1 < txId) := by
  unfold addTransactionData at h
  dsimp only at h
  split at h
  · cases h
  · next hnone =>
    have hnone := eq_none_iff_forall_ne_some.mpr hnone
    obtain ⟨txsPruned, hpruned, h⟩ := bind_eq_ok.mp h
    obtain ⟨txsPrunable, hprunable, h⟩ := bind_eq_ok.mp h
    obtain ⟨habove, rfl⟩ := append_eq_some.mp (orThrow_eq_ok.mp hpruned)
    obtain ⟨habove', rfl⟩ := append_eq_some.mp (orThrow_eq_ok.mp hprunable)
    unfold withTransaction
    split at h
    · next hversion =>
      obtain ⟨txsPrunableHash, hhash, h⟩ := bind_eq_ok.mp h
      obtain ⟨habove'', rfl⟩ := append_eq_some.mp (orThrow_eq_ok.mp hhash)
      cases h
      rw [if_pos hversion]
      exact ⟨rfl, rfl, hnone, habove, habove', fun _ => habove''⟩
    · next hversion =>
      cases h
      rw [if_neg hversion]
      exact ⟨rfl, rfl, hnone, habove, habove', fun h => absurd h hversion⟩

def withPruning (db : Tables H K P C) (txsPrunable : Table Nat (List UInt8))
    (txsPrunableTip : Table (Nat ×ₗ Nat) Unit) (pruningSeed : Option Nat) : Tables H K P C :=
  { db with
    txsPrunable := txsPrunable
    txsPrunableTip := txsPrunableTip
    pruningSeed := pruningSeed }

/-! ## Transactions -/

/-- The rows of the transaction are new ones, and the removals of its inputs and outputs undo what
they have written. -/
structure Added (E : Env H K P C) (db : Tables H K P C) (tx : Tx K P C) (txHash : H)
    (db' : Tables H K P C) : Prop where
  fields : db' = { db.withTransaction tx txHash (E.prunableHash tx) with
    spentKeys := db'.spentKeys
    outputTxs := db'.outputTxs
    outputAmounts := db'.outputAmounts
    txOutputs := db'.txOutputs }
  hash_new : db.txIndices.get? txHash = none
  pruned_below : ∀ r ∈ db.txsPruned.rows, r.1 < db.getTxCount
  prunable_below : ∀ r ∈ db.txsPrunable.rows, r.1 < db.getTxCount
  prunableHash_below : 1 < tx.version → ∀ r ∈ db.txsPrunableHash.rows, r.1 < db.getTxCount
  txOutputs_below : ∀ r ∈ db.txOutputs.rows, r.1 < db.getTxCount
  keys_undo : ∀ db₁ : Tables H K P C, db₁.spentKeys = db'.spentKeys →
    db₁.removeSpentKeys tx.vin = { db₁ with spentKeys := db.spentKeys }
  outputs_undo : ∃ indices, db'.txOutputs = db.txOutputs.put db.getTxCount indices
    ∧ indices.length = tx.vout.length
    ∧ db'.RemovesTo ((tx.vout.map tx.storedAmount).zip indices) db.outputTxs db.outputAmounts

theorem addTransaction_eq_ok (h : db.addTransaction E tx txHash = .ok db') :
    Added E db tx txHash db' := by
  obtain ⟨db₁, hinputs, h⟩ := bind_eq_ok.mp h
  obtain ⟨⟨db₂, txId⟩, hdata, h⟩ := bind_eq_ok.mp h
  obtain ⟨⟨db₃, indices⟩, houtputs, h⟩ := bind_eq_ok.mp h
  obtain ⟨txOutputs, happend, h⟩ := bind_eq_ok.mp h
  cases h
  obtain ⟨habove, rfl⟩ := append_eq_some.mp (orThrow_eq_ok.mp happend)
  have hkeys := removeSpentKeys_of_add hinputs
  obtain ⟨hfields₁, -, -⟩ := addInputs_eq_ok hinputs
  obtain ⟨rfl, rfl, hnone, hpruned, hprunable, hhash⟩ := addTransactionData_eq_ok hdata
  obtain ⟨hlength, hfields₃, hundo⟩ := addOutputs_eq_ok houtputs
  generalize db₁.spentKeys = keys at hfields₁ hkeys
  subst hfields₁
  generalize db₃.outputTxs = outputTxs at hfields₃ hundo
  generalize db₃.outputAmounts = outputAmounts at hfields₃ hundo
  subst hfields₃
  exact {
    fields := rfl
    hash_new := hnone
    pruned_below := hpruned
    prunable_below := hprunable
    prunableHash_below := hhash
    txOutputs_below := habove
    keys_undo := hkeys
    outputs_undo := ⟨indices, rfl, hlength, hundo⟩ }

theorem removeTxOutputs_eq {tx : TxBase K P C} (hindices : db.txOutputs.get? txId = some indices)
    (hlength : indices.length = tx.vout.length) :
    db.removeTxOutputs txId tx = db.removeOutputs ((tx.vout.map tx.removedAmount).zip indices) := by
  have hempty : ¬ (indices.isEmpty = true ∧ ¬ tx.vout.isEmpty = true) := by
    rintro ⟨hindices, hvout⟩
    rw [isEmpty_iff.mp hindices, length_nil] at hlength
    exact hvout (isEmpty_iff.mpr (length_eq_zero_iff.mp hlength.symm))
  unfold removeTxOutputs
  rw [hindices, getD_some, if_neg hempty]

theorem removeTransaction_eq {tx : TxBase K P C} {index : TxIndex} {keys : Table K Unit}
    {outputTxs : Table Nat (H × Nat)} {outputAmounts : Table (Nat ×ₗ Nat) (OutKey P C)}
    (hindex : db.txIndices.get? txHash = some index)
    (hpruned : db.txsPruned.get? index.txId = some tx)
    (hhash : 1 < tx.version → db.txsPrunableHash.get? index.txId ≠ none)
    (hindices : db.txOutputs.get? index.txId = some indices)
    (hlength : indices.length = tx.vout.length)
    (hkeys : db.removeSpentKeys tx.vin = { db with spentKeys := keys })
    (houtputs : db.RemovesTo ((tx.vout.map tx.removedAmount).zip indices) outputTxs outputAmounts) :
    db.removeTransaction txHash = .ok { db with
      spentKeys := keys
      outputTxs := outputTxs
      outputAmounts := outputAmounts
      txsPruned := db.txsPruned.del index.txId
      txsPrunable := db.txsPrunable.del index.txId
      txsPrunableTip := db.txsPrunableTip.delFirstDup index.txId
      txsPrunableHash :=
        if 1 < tx.version then db.txsPrunableHash.del index.txId else db.txsPrunableHash
      txOutputs := db.txOutputs.del index.txId
      txIndices := db.txIndices.del txHash } := by
  have hbase : db.getPrunedTx txHash = some tx := by
    rw [getPrunedTx, hindex]
    exact hpruned
  have hhash' : ¬ (1 < tx.version ∧ (db.txsPrunableHash.get? index.txId).isNone = true) := by
    rintro ⟨hversion, hnone⟩
    exact hhash hversion (isNone_iff_eq_none.mp hnone)
  unfold removeTransaction
  rw [hbase]
  refine bind_eq_ok.mpr ⟨tx, rfl, ?_⟩
  rw [hkeys]
  refine bind_eq_ok.mpr ⟨index, orThrow_eq_ok.mpr hindex, ?_⟩
  rw [if_neg (by rw [hpruned]; simp), if_neg hhash']
  refine bind_eq_ok.mpr ⟨_, (removeTxOutputs_eq ?_ hlength).trans (houtputs _ ?_ ?_), rfl⟩
  · exact hindices
  · rfl
  · rfl

theorem Added.removeTransaction (h : Added E db tx txHash db')
    (hamounts : ∀ out ∈ tx.vout, tx.removedAmount out = tx.storedAmount out)
    (p : Table Nat (List UInt8)) (t : Table (Nat ×ₗ Nat) Unit) (s : Option Nat) :
    (db'.withPruning p t s).removeTransaction txHash
      = .ok (db.withPruning (p.del db.getTxCount) (t.delFirstDup db.getTxCount) s) := by
  obtain ⟨indices, htxOutputs, hlength, hundo⟩ := h.outputs_undo
  have hblocks : db'.blocks = db.blocks ∧ db'.blockInfo = db.blockInfo
      ∧ db'.blockHeights = db.blockHeights := by
    rw [h.fields]
    exact ⟨rfl, rfl, rfl⟩
  have hindices : db'.txIndices = db.txIndices.put txHash
    ⟨db.getTxCount, tx.unlockTime, db.height⟩ := by
    rw [h.fields]
    rfl
  have hpruned : db'.txsPruned = db.txsPruned.put db.getTxCount tx.toTxBase := by
    rw [h.fields]
    rfl
  have hhash : db'.txsPrunableHash = if 1 < tx.version then
      db.txsPrunableHash.put db.getTxCount (E.prunableHash tx) else db.txsPrunableHash := by
    rw [h.fields]
    rfl
  have hhash' : (if 1 < tx.version then db'.txsPrunableHash.del db.getTxCount
      else db'.txsPrunableHash)
      = db.txsPrunableHash := by
    rw [hhash]
    split
    · next hversion => exact del_put (get?_of_above (h.prunableHash_below hversion))
    · rfl
  have hremove : (db'.withPruning p t s).removeTransaction txHash = .ok { db'.withPruning p t s with
      spentKeys := db.spentKeys
      outputTxs := db.outputTxs
      outputAmounts := db.outputAmounts
      txsPruned := db'.txsPruned.del db.getTxCount
      txsPrunable := p.del db.getTxCount
      txsPrunableTip := t.delFirstDup db.getTxCount
      txsPrunableHash :=
        if 1 < tx.version then db'.txsPrunableHash.del db.getTxCount else db'.txsPrunableHash
      txOutputs := db'.txOutputs.del db.getTxCount
      txIndices := db'.txIndices.del txHash } := by
    have hindex : (db'.withPruning p t s).txIndices.get? txHash
        = some ⟨db.getTxCount, tx.unlockTime, db.height⟩ :=
      (congrArg (·.get? txHash) hindices).trans get?_put_self
    have hbase : (db'.withPruning p t s).txsPruned.get? db.getTxCount = some tx.toTxBase :=
      (congrArg (·.get? db.getTxCount) hpruned).trans get?_put_self
    refine removeTransaction_eq hindex hbase ?_ ?_ hlength (h.keys_undo _ rfl) ?_
    · intro hversion
      change db'.txsPrunableHash.get? db.getTxCount ≠ none
      rw [hhash, if_pos hversion, get?_put_self]
      simp
    · exact (congrArg (·.get? db.getTxCount) htxOutputs).trans get?_put_self
    · rw [map_congr_left hamounts]
      exact hundo
  rw [hremove, hhash', hindices, hpruned, htxOutputs, del_put h.hash_new,
    del_put (get?_of_above h.pruned_below), del_put (get?_of_above h.txOutputs_below)]
  simp only [withPruning, hblocks]

theorem Added.getTxCount (h : Added E db tx txHash db') : db'.getTxCount = db.getTxCount + 1 := by
  have hpruned : db'.txsPruned = db.txsPruned.put db.getTxCount tx.toTxBase := by
    rw [h.fields]
    rfl
  unfold Tables.getTxCount
  rw [hpruned]
  exact size_put (get?_of_above h.pruned_below)

theorem Added.read (h : Added E db tx txHash db') (p : Table Nat (List UInt8))
    (t : Table (Nat ×ₗ Nat) Unit) (s : Option Nat) :
    ((db'.withPruning p t s).getTx txHash <|>
        ((db'.withPruning p t s).getPrunedTx txHash).map fun base => ⟨base, []⟩)
      = some { tx with prunable := (p.get? db.getTxCount).getD [] } := by
  have hindex : (db'.withPruning p t s).txIndices.get? txHash
      = some ⟨db.getTxCount, tx.unlockTime, db.height⟩ := by
    rw [h.fields]
    exact get?_put_self
  have hbase : (db'.withPruning p t s).txsPruned.get? db.getTxCount = some tx.toTxBase := by
    rw [h.fields]
    exact get?_put_self
  have hprunable : (db'.withPruning p t s).txsPrunable = p := rfl
  rw [getTx, getPrunedTx, hindex]
  dsimp only [bind_eq_bind, bind_some]
  rw [hbase, hprunable]
  cases p.get? db.getTxCount <;> rfl

/-! ## Blocks -/

def delPrunable (p : Table Nat (List UInt8)) (txId n : Nat) : Table Nat (List UInt8) :=
  (List.range' txId n).foldr (fun i p => p.del i) p

def delTips (t : Table (Nat ×ₗ Nat) Unit) (txId n : Nat) : Table (Nat ×ₗ Nat) Unit :=
  (List.range' txId n).foldr (fun i t => t.delFirstDup i) t

theorem get?_delPrunable {p : Table Nat (List UInt8)} {n i : Nat} :
    (delPrunable p txId n).get? i
      = if txId ≤ i ∧ i < txId + n then none else p.get? i := by
  induction n generalizing txId with
  | zero => simp [delPrunable]
  | succ n ih =>
    have hcons : delPrunable p txId (n + 1) = (delPrunable p (txId + 1) n).del txId := rfl
    rw [hcons, get?_del, ih]
    by_cases heq : i = txId
    · simp [heq]
    · rw [if_neg heq]
      congr 1
      exact propext ⟨fun h => by omega, fun h => by omega⟩

def popped (p : Table Nat (List UInt8)) : Nat → List (Tx K P C × H) → List (Tx K P C)
  | _, [] => []
  | txId, (tx, _) :: rest =>
    popped p (txId + 1) rest ++ [{ tx with prunable := (p.get? txId).getD [] }]

def AmountsAgree (tx : TxBase K P C) : Prop :=
  ∀ out ∈ tx.vout, tx.removedAmount out = tx.storedAmount out

theorem popTransactions_of_add {pairs : List (Tx K P C × H)}
    (h : db.addTransactions E pairs = .ok db')
    (hamounts : ∀ pair ∈ pairs, AmountsAgree pair.1.toTxBase)
    (p : Table Nat (List UInt8)) (t : Table (Nat ×ₗ Nat) Unit) (s : Option Nat) :
    (db'.withPruning p t s).popTransactions (pairs.map Prod.snd)
      = .ok (db.withPruning (delPrunable p db.getTxCount pairs.length)
          (delTips t db.getTxCount pairs.length) s, popped p db.getTxCount pairs) := by
  induction pairs generalizing db with
  | nil =>
    cases h
    rfl
  | cons pair rest ih =>
    obtain ⟨tx, txHash⟩ := pair
    obtain ⟨hhead, htail⟩ := forall_mem_cons.mp hamounts
    obtain ⟨db₁, hadd, hrest⟩ := bind_eq_ok.mp h
    have hadded := addTransaction_eq_ok hadd
    have hpop := ih hrest htail
    rw [hadded.getTxCount] at hpop
    -- what was popped before does not touch the prunable data of this transaction
    have hget : (delPrunable p (db.getTxCount + 1) rest.length).get? db.getTxCount
        = p.get? db.getTxCount := by
      rw [get?_delPrunable, if_neg (by omega)]
    rw [map_cons, popTransactions, hpop]
    refine bind_eq_ok.mpr ⟨_, rfl, ?_⟩
    refine bind_eq_ok.mpr ⟨_, orThrow_eq_ok.mpr (hadded.read _ _ _), ?_⟩
    refine bind_eq_ok.mpr ⟨_, hadded.removeTransaction hhead _ _ _, ?_⟩
    rw [hget]
    rfl

/-- What `BlockchainLMDB::add_block` writes. -/
def withBlock (E : Env H K P C) (db : Tables H K P C) (b : NewBlock H K P C) (cumRct : Nat) :
    Tables H K P C :=
  { db with
    blocks := db.blocks.put db.height b.block
    blockInfo := db.blockInfo.put db.height ⟨b.block.timestamp, b.coinsGenerated, b.blockWeight,
      b.cumulativeDifficulty, E.blockHash b.block, cumRct, b.longTermBlockWeight⟩
    blockHeights := db.blockHeights.put (E.blockHash b.block) db.height }

theorem checkNewBlock_eq_ok {blkHash prevId : H} (h : db.checkNewBlock blkHash prevId = .ok ()) :
    db.blockHeights.get? blkHash = none
      ∧ (db.height ≠ 0 → db.blockHeights.get? prevId = some (db.height - 1)) := by
  unfold checkNewBlock at h
  split at h
  · cases h
  · next hnew =>
    refine ⟨by simpa using hnew, fun hheight => ?_⟩
    rw [if_neg hheight] at h
    split at h
    · cases h
    · next prev hprev =>
      split at h
      · next heq => rw [hprev, heq]
      · cases h

structure AddedBlock (E : Env H K P C) (db : Tables H K P C) (b : NewBlock H K P C)
    (numRctOuts : Nat) (db' : Tables H K P C) : Prop where
  fields : ∃ cumRct, db.cumRct b.block.majorVersion numRctOuts = .ok cumRct
    ∧ db' = db.withBlock E b cumRct
  hash_new : db.blockHeights.get? (E.blockHash b.block) = none
  parent : db.height ≠ 0 → db.blockHeights.get? b.block.prevId = some (db.height - 1)
  blocks_below : ∀ r ∈ db.blocks.rows, r.1 < db.height
  info_below : ∀ r ∈ db.blockInfo.rows, r.1 < db.height

theorem addBlockData_eq_ok (h : db.addBlockData E b numRctOuts = .ok db') :
    AddedBlock E db b numRctOuts db' := by
  obtain ⟨⟨⟩, hcheck, h⟩ := bind_eq_ok.mp h
  obtain ⟨blocks, hblocks, h⟩ := bind_eq_ok.mp h
  obtain ⟨cumRct, hcumRct, h⟩ := bind_eq_ok.mp h
  obtain ⟨blockInfo, hinfo, h⟩ := bind_eq_ok.mp h
  cases h
  obtain ⟨hbelow, rfl⟩ := append_eq_some.mp (orThrow_eq_ok.mp hblocks)
  obtain ⟨hbelow', rfl⟩ := append_eq_some.mp (orThrow_eq_ok.mp hinfo)
  obtain ⟨hnew, hparent⟩ := checkNewBlock_eq_ok hcheck
  exact ⟨⟨cumRct, hcumRct, rfl⟩, hnew, hparent, hbelow, hbelow'⟩

theorem AddedBlock.height (h : AddedBlock E db b numRctOuts db') : db'.height = db.height + 1 := by
  obtain ⟨cumRct, -, rfl⟩ := h.fields
  exact size_put (get?_of_above h.blocks_below)

theorem removeBlock_eq {height : Nat} {info : BlockInfo H} (hheight : db.height = height + 1)
    (hinfo : db.blockInfo.get? height = some info)
    (hheights : db.blockHeights.get? info.hash ≠ none) (hblock : db.blocks.get? height ≠ none) :
    db.removeBlock = .ok { db with
      blockHeights := db.blockHeights.del info.hash
      blocks := db.blocks.del height
      blockInfo := db.blockInfo.del height } := by
  unfold Tables.removeBlock
  rw [hheight, if_neg (Nat.succ_ne_zero _), Nat.add_sub_cancel]
  refine bind_eq_ok.mpr ⟨info, orThrow_eq_ok.mpr hinfo, ?_⟩
  rw [if_neg (by simpa using hheights), if_neg (by simpa using hblock)]
  rfl

theorem AddedBlock.removeBlock (h : AddedBlock E db b numRctOuts db') (p : Table Nat (List UInt8))
    (t : Table (Nat ×ₗ Nat) Unit) (s : Option Nat) :
    (db'.withPruning p t s).removeBlock = .ok (db.withPruning p t s) := by
  have hheight : (db'.withPruning p t s).height = db.height + 1 := h.height
  obtain ⟨cumRct, -, rfl⟩ := h.fields
  rw [removeBlock_eq hheight get?_put_self (by rw [withPruning, withBlock, get?_put_self]; simp)
    (by rw [withPruning, withBlock, get?_put_self]; simp)]
  simp only [withPruning, withBlock, del_put h.hash_new, del_put (get?_of_above h.blocks_below),
    del_put (get?_of_above h.info_below)]

end Tables

def NewBlock.pairs (E : Env H K P C) (b : NewBlock H K P C) : List (Tx K P C × H) :=
  (b.block.minerTx, E.txHash b.block.minerTx) :: b.txs.zip b.block.txHashes

namespace Tables

theorem addBlock_eq_ok {b : NewBlock H K P C} (h : db.addBlock E b = .ok db') :
    b.block.txHashes.length = b.txs.length
      ∧ ∃ db₁, db.addTransactions E (b.pairs E) = .ok db₁
      ∧ AddedBlock E db₁ b b.numRctOuts db' := by
  unfold addBlock at h
  split at h
  · cases h
  · next hlength =>
    obtain ⟨db₁, hminer, h⟩ := bind_eq_ok.mp h
    obtain ⟨db₂, htxs, h⟩ := bind_eq_ok.mp h
    refine ⟨by simpa using hlength, db₂, ?_, addBlockData_eq_ok h⟩
    exact bind_eq_ok.mpr ⟨db₁, hminer, htxs⟩

theorem popBlock_of_add {b : NewBlock H K P C} (h : db.addBlock E b = .ok db')
    (hamounts : ∀ pair ∈ b.pairs E, AmountsAgree pair.1.toTxBase)
    (p : Table Nat (List UInt8)) (t : Table (Nat ×ₗ Nat) Unit) (s : Option Nat) :
    (db'.withPruning p t s).popBlock E
      = .ok (b.block, popped p (db.getTxCount + 1) (b.txs.zip b.block.txHashes),
          db.withPruning (delPrunable p db.getTxCount (b.pairs E).length)
            (delTips t db.getTxCount (b.pairs E).length) s) := by
  obtain ⟨hlength, db₂, htxs, hblock⟩ := addBlock_eq_ok h
  obtain ⟨db₁, hminer, hrest⟩ := bind_eq_ok.mp htxs
  obtain ⟨hhead, htail⟩ := forall_mem_cons.mp hamounts
  have hadded := addTransaction_eq_ok hminer
  have hheight : (db'.withPruning p t s).height = db₂.height + 1 := hblock.height
  have hget : (db'.withPruning p t s).blocks.get? db₂.height = some b.block := by
    obtain ⟨cumRct, -, rfl⟩ := hblock.fields
    exact get?_put_self
  have hpop := popTransactions_of_add hrest htail p t s
  rw [map_snd_zip (by omega), hadded.getTxCount] at hpop
  unfold popBlock
  rw [hheight, if_neg (Nat.succ_ne_zero _), Nat.add_sub_cancel, hget]
  refine bind_eq_ok.mpr ⟨_, rfl, ?_⟩
  refine bind_eq_ok.mpr ⟨_, hblock.removeBlock p t s, ?_⟩
  refine bind_eq_ok.mpr ⟨_, hpop, ?_⟩
  refine bind_eq_ok.mpr ⟨_, hadded.removeTransaction hhead _ _ _, ?_⟩
  rfl

end Tables

end Glaciem.Db
