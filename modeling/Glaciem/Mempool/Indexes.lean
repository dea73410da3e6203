import Glaciem.Mempool.Moves

/-!
# Glaciem — the indexes of the pool and its records

The pool keeps beside its records a total weight, an index of spent key images and an index by fee
rate, and each operation updates them one by one. After any sequence of operations they say what the
records say, unless the weight of a transaction has been counted twice: `add_tx` does so when it is
given a transaction kept by a block, the inputs are wrong, and the pool has it as not yet broadcast.
-/

namespace Glaciem.Mempool

open Dict

open Finset

open List hiding all_eq_true beq_eq_decide filter_filter filter_map filter_true map_cons
  mem_singleton mem_singleton_self
open Option

variable {H K F : Type} [DecidableEq H] [DecidableEq K]

/-! ## Rows and indexes -/

/-- A row has the key images and the weight of the transaction with its id, and spends no key image
twice. -/
structure Describes (E : Env H K F) (id : H) (r : PoolRecord K) : Prop where
  keyImages : r.tx.keyImages = (E.content id).keyImages
  nodup : r.tx.keyImages.Nodup
  ne_nil : r.tx.keyImages ≠ []
  weight : r.txMeta.weight = E.weightOf id

/-- The weight, the key image index and the ids of the fee index say what the rows say. -/
structure Indexes (E : Env H K F) (rows : List (H × PoolRecord K)) (weight : Nat)
    (spent : KeyIndex K H) (ids : List H) : Prop where
  nodup : (rows.map Prod.fst).Nodup
  describes : ∀ id r, (id, r) ∈ rows → Describes E id r
  weight_eq : weight = (rows.map fun row => row.2.txMeta.weight).sum
  mem_owners : ∀ keyImage id, id ∈ spent.owners keyImage
    ↔ ∃ r, (id, r) ∈ rows ∧ keyImage ∈ r.tx.keyImages
  ids_perm : ids.Perm (rows.map Prod.fst)

/-- Of the rows that share a key image, at most one is not kept by a block. -/
def OneFree (rows : List (H × PoolRecord K)) : Prop :=
  ∀ keyImage id id' r r', (id, r) ∈ rows → (id', r') ∈ rows → keyImage ∈ r.tx.keyImages →
    keyImage ∈ r'.tx.keyImages → r.keptByBlock = false → r'.keptByBlock = false → id = id'

abbrev without (id : H) (rows : List (H × PoolRecord K)) : List (H × PoolRecord K) :=
  rows.filter fun row => row.1 ≠ id

omit [DecidableEq K] in
theorem mem_without {id id' : H} {r : PoolRecord K} {rows : List (H × PoolRecord K)} :
    (id', r) ∈ without id rows ↔ (id', r) ∈ rows ∧ id' ≠ id := by
  rw [mem_filter, decide_eq_true_eq]

omit [DecidableEq K] in
theorem map_fst_without (id : H) (rows : List (H × PoolRecord K)) :
    (without id rows).map Prod.fst = (rows.map Prod.fst).filter fun id' => id' ≠ id := by
  rw [List.filter_map]
  rfl

variable {E : Env H K F}

variable {id : H}

section Rows

variable {rows : List (H × PoolRecord K)} {weight weight' : Nat} {spent spent' : KeyIndex K H}
  {ids ids' : List H} {r : PoolRecord K}

section

variable (h : Indexes E rows weight spent ids)

include h

omit [DecidableEq H] in
theorem Indexes.perm {rows' : List (H × PoolRecord K)}
    (hperm : rows.Perm rows') : Indexes E rows' weight spent ids where
  nodup := (hperm.map Prod.fst).nodup_iff.mp h.nodup
  describes id r hr := h.describes id r (hperm.mem_iff.mpr hr)
  weight_eq := h.weight_eq.trans (hperm.map _).sum_eq
  mem_owners keyImage id := by
    rw [h.mem_owners]
    simp only [hperm.mem_iff]
  ids_perm := h.ids_perm.trans (hperm.map Prod.fst)

omit [DecidableEq H] in
theorem Indexes.eq_of_mem {r' : PoolRecord K}
    (hr : (id, r) ∈ rows) (hr' : (id, r') ∈ rows) : r = r' := by
  have := inj_on_of_nodup_map h.nodup hr hr' rfl
  exact (Prod.mk.inj this).2

theorem Indexes.put (hr : Describes E id r)
    (hspent : ∀ keyImage id', id' ∈ spent'.owners keyImage
      ↔ id' ∈ spent.owners keyImage ∨ id' = id ∧ keyImage ∈ r.tx.keyImages)
    (hids : ids'.Perm (id :: ids.filter fun id' => id' ≠ id))
    (hweight : weight'
      = ((without id rows).map fun row => row.2.txMeta.weight).sum + r.txMeta.weight) :
    Indexes E (without id rows ++ [(id, r)]) weight' spent' ids' where
  nodup := by
    rw [map_append, map_fst_without]
    refine List.Nodup.append (h.nodup.filter _) (nodup_singleton _) ?_
    simp
  describes id' r' hr' := by
    rcases mem_append.mp hr' with hold | hnew
    · exact h.describes id' r' (mem_without.mp hold).1
    · cases List.mem_singleton.mp hnew
      exact hr
  weight_eq := by
    rw [hweight, map_append, sum_append]
    rfl
  mem_owners keyImage id' := by
    rw [hspent, h.mem_owners]
    simp only [mem_append, List.mem_singleton, Prod.mk.injEq, mem_without]
    constructor
    · rintro (⟨r', hr', hmem⟩ | ⟨rfl, hmem⟩)
      · by_cases hid : id' = id
        · -- the rows of an id have the same key images
          subst hid
          rw [(h.describes id' r' hr').keyImages, ← hr.keyImages] at hmem
          exact ⟨r, .inr ⟨rfl, rfl⟩, hmem⟩
        · exact ⟨r', .inl ⟨hr', hid⟩, hmem⟩
      · exact ⟨r, .inr ⟨rfl, rfl⟩, hmem⟩
    · rintro ⟨r', ⟨hr', -⟩ | ⟨rfl, rfl⟩, hmem⟩
      · exact .inl ⟨r', hr', hmem⟩
      · exact .inr ⟨rfl, hmem⟩
  ids_perm := by
    rw [map_append, map_fst_without]
    refine hids.trans (((h.ids_perm.filter _).cons _).trans ?_)
    exact (perm_append_singleton _ _).symm

theorem Indexes.remove (hr : (id, r) ∈ rows) :
    Indexes E (without id rows) (weight - r.txMeta.weight) (spent.eraseAll r.tx.keyImages id)
      (ids.filter fun id' => id' ≠ id) where
  nodup := by
    rw [map_fst_without]
    exact h.nodup.filter _
  describes id' r' hr' := h.describes id' r' (mem_without.mp hr').1
  weight_eq := by
    have hsum := sum_filter_ne (fun r : PoolRecord K => r.txMeta.weight) id h.nodup
    rw [(lookupIn_eq_some_iff h.nodup).mpr hr, map_some, getD_some, ← h.weight_eq] at hsum
    exact (Nat.eq_sub_of_add_eq hsum).symm
  mem_owners keyImage id' := by
    rw [KeyIndex.mem_owners_eraseAll, h.mem_owners]
    simp only [mem_without]
    constructor
    · rintro ⟨⟨r', hr', hmem⟩, hnot⟩
      refine ⟨r', ⟨hr', ?_⟩, hmem⟩
      rintro rfl
      rw [h.eq_of_mem hr' hr] at hmem
      exact hnot ⟨rfl, hmem⟩
    · rintro ⟨r', ⟨hr', hid⟩, hmem⟩
      exact ⟨⟨r', hr', hmem⟩, fun hsame => hid hsame.1⟩
  ids_perm := by
    rw [map_fst_without]
    exact h.ids_perm.filter _

end

omit [DecidableEq H] [DecidableEq K] in
theorem OneFree.subset {rows' : List (H × PoolRecord K)} (h : OneFree rows) (hsub : rows' ⊆ rows) :
    OneFree rows' :=
  fun keyImage id id' r r' hr hr' => h keyImage id id' r r' (hsub hr) (hsub hr')

end Rows

/-! ## The fee index -/

section FeeIndex

variable [LinearOrder F]

open TxMemoryPool

omit [LinearOrder F] in
theorem perm_cons_filter_ne {ids : List H} {id : H} (hnodup : ids.Nodup) (hmem : id ∈ ids) :
    ids.Perm (id :: ids.filter fun id' => id' ≠ id) := by
  have herase := perm_cons_erase hmem
  rw [hnodup.erase_eq_filter] at herase
  simpa [bne, beq_eq_decide] using herase

omit [LinearOrder F] in
theorem map_id_eraseById (id : H) (index : List (FeeEntry H F)) :
    (eraseById id index).map FeeEntry.id = (index.map FeeEntry.id).filter fun id' => id' ≠ id := by
  rw [List.filter_map]
  rfl

theorem perm_insertByFee {e : FeeEntry H F} {index : List (FeeEntry H F)}
    (hnodup : (index.map FeeEntry.id).Nodup) :
    ((insertByFee e index).map FeeEntry.id).Perm
      (e.id :: (index.map FeeEntry.id).filter fun id' => id' ≠ e.id) := by
  unfold insertByFee
  split
  · rename_i hmem
    exact perm_cons_filter_ne hnodup hmem
  · rename_i hmem
    have hall : (index.map FeeEntry.id).filter (fun id' => id' ≠ e.id) = index.map FeeEntry.id :=
      filter_eq_self.mpr fun id' hid' => by
        have hne : id' ≠ e.id := fun h => hmem (h ▸ hid')
        simpa using hne
    rw [hall]
    exact (perm_insertSorted e index).map FeeEntry.id

def TxMemoryPool.ids (p : TxMemoryPool H K F) : List H := p.txsByFeeAndReceiveTime.map FeeEntry.id

theorem perm_ids_addTxToTransientLists {E : Env H K F} {p : TxMemoryPool H K F}
    (hnodup : p.ids.Nodup) (id : H) (rate : F) (receiveTime : Nat) :
    (p.addTxToTransientLists E id rate receiveTime).ids.Perm
      (id :: p.ids.filter fun id' => id' ≠ id) := by
  unfold addTxToTransientLists ids
  split
  · have hnodup' : ((eraseById id p.txsByFeeAndReceiveTime).map FeeEntry.id).Nodup := by
      rw [map_id_eraseById]
      exact hnodup.filter _
    refine (perm_insertByFee hnodup').trans ?_
    rw [map_id_eraseById, List.filter_filter]
    simp only [Bool.and_self]
    rfl
  · exact perm_insertByFee hnodup

omit [LinearOrder F] in
theorem ids_removeTxFromTransientLists {E : Env H K F} (p : TxMemoryPool H K F) (id : H)
    (sensitive : Bool) : (p.removeTxFromTransientLists E id sensitive).ids
      = p.ids.filter fun id' => id' ≠ id :=
  map_id_eraseById id _

end FeeIndex

/-! ## The loops over key images -/

variable {txRelay : RelayMethod}

section KeyImages

variable {keyImages : List K} {p : TxMemoryPool H K F}

open TxMemoryPool

/-- If no other transaction spends them, or the transaction comes with a block, and it is new or not
broadcast. -/
theorem insertKeyImages_eq
    (hfree : txRelay = .block ∨ ∀ k ∈ keyImages, p.spentKeyImages.owners k ⊆ {id})
    (hnew : p.txMatchesCategory id .legacy = false
      ∨ keyImages.Nodup ∧ ∀ k ∈ keyImages, id ∉ p.spentKeyImages.owners k) :
    insertKeyImages id txRelay keyImages p
      = (true, { p with spentKeyImages := p.spentKeyImages.insertAll keyImages id }) := by
  induction keyImages generalizing p with
  | nil => rfl
  | cons k rest ih =>
    rw [insertKeyImages]
    have hone : ¬ (txRelay ≠ .block
        ∧ ¬ (p.spentKeyImages.owners k = ∅ ∨ p.spentKeyImages.owners k = {id})) := by
      rintro ⟨hblock, hnot⟩
      rcases hfree with hfree | hfree
      · exact hblock hfree
      · exact hnot (subset_singleton_iff.mp (hfree k mem_cons_self))
    have hprivate : ¬ (id ∈ p.spentKeyImages.owners k ∧ p.txMatchesCategory id .legacy = true) := by
      rintro ⟨hmem, hlegacy⟩
      rcases hnew with hnew | ⟨-, hnew⟩
      · rw [hnew] at hlegacy
        cases hlegacy
      · exact hnew k mem_cons_self hmem
    rw [if_neg hone, if_neg hprivate, ih]
    · rfl
    · rcases hfree with hfree | hfree
      · exact .inl hfree
      · refine .inr fun k' hk' => ?_
        show (p.spentKeyImages.insert k id).owners k' ⊆ {id}
        rw [KeyIndex.owners_insert]
        split
        · exact insert_subset (mem_singleton_self _) (hfree k mem_cons_self)
        · exact hfree k' (mem_cons_of_mem _ hk')
    · rcases hnew with hnew | ⟨hnodup, hnew⟩
      · exact .inl hnew
      · obtain ⟨hk, hnodup⟩ := nodup_cons.mp hnodup
        refine .inr ⟨hnodup, fun k' hk' => ?_⟩
        show id ∉ (p.spentKeyImages.insert k id).owners k'
        rw [KeyIndex.owners_insert, if_neg (ne_of_mem_of_not_mem hk' hk)]
        exact hnew k' (mem_cons_of_mem _ hk')

theorem insertKeyImages_legacy (hne : keyImages ≠ [])
    (hlegacy : p.txMatchesCategory id .legacy = true)
    (hmem : ∀ k ∈ keyImages, id ∈ p.spentKeyImages.owners k) :
    insertKeyImages id txRelay keyImages p = (false, p) := by
  cases keyImages with
  | nil => exact absurd rfl hne
  | cons k rest =>
    rw [insertKeyImages]
    split
    · rfl
    · rw [if_pos ⟨hmem k mem_cons_self, hlegacy⟩]

theorem removeTransactionKeyimages_eq (hnodup : keyImages.Nodup)
    (hmem : ∀ k ∈ keyImages, id ∈ p.spentKeyImages.owners k) :
    removeTransactionKeyimages id keyImages p
      = { p with spentKeyImages := p.spentKeyImages.eraseAll keyImages id } := by
  induction keyImages generalizing p with
  | nil => rfl
  | cons k rest ih =>
    obtain ⟨hk, hnodup⟩ := nodup_cons.mp hnodup
    rw [removeTransactionKeyimages, if_pos (hmem k mem_cons_self), ih hnodup]
    · rfl
    · intro k' hk'
      show id ∈ (p.spentKeyImages.erase k id).owners k'
      rw [KeyIndex.owners_erase, if_neg (ne_of_mem_of_not_mem hk' hk)]
      exact hmem k' (mem_cons_of_mem _ hk')

end KeyImages

/-! ## The pool -/

structure Indexed (E : Env H K F) (p : TxMemoryPool H K F) : Prop where
  indexes : Indexes E p.records.items p.txpoolWeight p.spentKeyImages p.ids
  oneFree : OneFree p.records.items

section Removal

variable {p : TxMemoryPool H K F} {r : PoolRecord K}

open TxMemoryPool

theorem removeRecord_eq {ids : List H}
    (h : Indexes E p.records.items p.txpoolWeight p.spentKeyImages ids)
    (hr : p.records.get? id = some r) : p.removeRecord id r.tx r.txMeta.weight = { p with
      records := p.records.erase id
      txpoolWeight := p.txpoolWeight - r.txMeta.weight
      spentKeyImages := p.spentKeyImages.eraseAll r.tx.keyImages id } := by
  have hmem := p.records.get?_eq_some_iff.mp hr
  exact removeTransactionKeyimages_eq (h.describes id r hmem).nodup
    fun k hk => (h.mem_owners k id).mpr ⟨r, hmem, hk⟩

theorem Indexed.discard (h : Indexed E p) (hr : p.records.get? id = some r) :
    Indexed E (p.discard E id r) := by
  refine ⟨?_, ?_⟩
  · unfold TxMemoryPool.discard
    rw [removeRecord_eq h.indexes hr, ids_removeTxFromTransientLists]
    exact h.indexes.remove (p.records.get?_eq_some_iff.mp hr)
  · rw [records_discard]
    exact h.oneFree.subset filter_sublist.subset

theorem Indexed.shrinks {q : TxMemoryPool H K F} (h : Indexed E p)
    (hshrinks : Relation.ReflTransGen (Shrinks E) p q) : Indexed E q := by
  refine invariant_of_steps (fun h hstep => ?_) hshrinks h
  cases hstep with
  | discard hr => exact h.discard hr
  | tick | timedOut => exact ⟨h.indexes, h.oneFree⟩

end Removal

section Adding

variable [LinearOrder F] {C : ChainView H K} {p p' : TxMemoryPool H K F} {r : PoolRecord K}
  {tx : Transaction K} {txWeight fee receiveTime : Nat}

open TxMemoryPool

omit [LinearOrder F] in
theorem without_eq_self (h : p.records.get? id = none) :
    without id p.records.items = p.records.items :=
  congrArg Dict.items (erase_of_none h)

section

variable (h : Indexed E p)

include h

omit [LinearOrder F] in
theorem Indexed.weight_put (hr : Describes E id r) :
    (if (p.records.get? id).isNone then p.txpoolWeight + r.txMeta.weight else p.txpoolWeight)
      = ((without id p.records.items).map fun row => row.2.txMeta.weight).sum
        + r.txMeta.weight := by
  have hsum := sum_filter_ne (fun r : PoolRecord K => r.txMeta.weight) id p.records.nodup
  have hweight := h.indexes.weight_eq
  change _ + ((p.records.get? id).map _).getD 0 = _ at hsum
  rw [← hweight] at hsum
  cases hget : p.records.get? id with
  | none =>
    rw [hget, map_none, getD_none, add_zero] at hsum
    rw [isNone_none, if_pos rfl, ← hsum]
  | some r₀ =>
    rw [hget, map_some, getD_some] at hsum
    have hsame : r₀.txMeta.weight = r.txMeta.weight :=
      (h.indexes.describes id r₀ (p.records.get?_eq_some_iff.mp hget)).weight.trans hr.weight.symm
    rw [isNone_some, if_neg Bool.false_ne_true, ← hsum, hsame]

omit [LinearOrder F] in
theorem Indexed.put (hr : Describes E id r)
    (hfree : r.keptByBlock = true ∨ ∀ k ∈ r.tx.keyImages, p.spentKeyImages.owners k ⊆ {id})
    (hrecords : p'.records.items = without id p.records.items ++ [(id, r)])
    (hspent : p'.spentKeyImages = p.spentKeyImages.insertAll r.tx.keyImages id)
    (hids : p'.ids.Perm (id :: p.ids.filter fun id' => id' ≠ id))
    (hweight : p'.txpoolWeight = if (p.records.get? id).isNone then
      p.txpoolWeight + r.txMeta.weight else p.txpoolWeight) : Indexed E p' := by
  -- whoever shares a key image with the new record and is not kept by a block has its id
  have hnew : ∀ k id' r', (id', r') ∈ p.records.items → k ∈ r.tx.keyImages →
      k ∈ r'.tx.keyImages → r.keptByBlock = false → id' = id := by
    intro k id' r' hr' hk hk' hnot
    rcases hfree with hkept | hfree
    · rw [hkept] at hnot
      cases hnot
    · have howner := (h.indexes.mem_owners k id').mpr ⟨r', hr', hk'⟩
      exact mem_singleton.mp (hfree k hk howner)
  refine ⟨?_, ?_⟩
  · rw [hrecords, hspent, hweight, h.weight_put hr]
    exact h.indexes.put hr (fun k id' => KeyIndex.mem_owners_insertAll) hids rfl
  · rw [hrecords]
    intro k id₁ id₂ r₁ r₂ h₁ h₂ hk₁ hk₂ hfree₁ hfree₂
    rcases mem_append.mp h₁ with h₁ | h₁
    · rcases mem_append.mp h₂ with h₂ | h₂
      · exact h.oneFree k id₁ id₂ r₁ r₂ (mem_without.mp h₁).1 (mem_without.mp h₂).1 hk₁ hk₂ hfree₁
          hfree₂
      · cases List.mem_singleton.mp h₂
        exact hnew k id₁ r₁ (mem_without.mp h₁).1 hk₂ hk₁ hfree₂
    · cases List.mem_singleton.mp h₁
      rcases mem_append.mp h₂ with h₂ | h₂
      · exact (hnew k id₂ r₂ (mem_without.mp h₂).1 hk₁ hk₂ hfree₁).symm
      · cases List.mem_singleton.mp h₂
        rfl

omit [LinearOrder F] [DecidableEq H] in
theorem Indexed.nodup_ids : p.ids.Nodup := h.indexes.ids_perm.nodup_iff.mpr h.indexes.nodup

omit [LinearOrder F] in
theorem Indexed.mem_owners (hr : p.records.get? id = some r) {k : K}
    (hk : k ∈ (E.content id).keyImages) : id ∈ p.spentKeyImages.owners k := by
  have hmem := p.records.get?_eq_some_iff.mp hr
  rw [← (h.indexes.describes id r hmem).keyImages] at hk
  exact (h.indexes.mem_owners k id).mpr ⟨r, hmem, hk⟩

omit [LinearOrder F] in
theorem Indexed.addTxDone : Indexed E (addTxDone E p).2 := h.shrinks (shrinks_pruneLoop _ _ _)

/-- A transaction that comes with a block and has wrong inputs, unless the pool has it as not yet
broadcast. -/
theorem Indexed.addTxWrongInputs
    (hr : Describes E id ⟨tx, ⟨txWeight, fee, receiveTime, .block, tx.pruned⟩⟩)
    (hcount : ∀ r, p.records.get? id = some r → r.matchesCategory .legacy = true) :
    Indexed E (p.addTxWrongInputs E tx id txWeight fee receiveTime .block).2 := by
  unfold TxMemoryPool.addTxWrongInputs
  cases hget : p.records.get? id with
  | some r₀ =>
    have hlegacy : p.txMatchesCategory id .legacy = true := by
      rw [txMatchesCategory, hget]
      exact hcount r₀ hget
    rw [insertKeyImages_legacy hr.ne_nil hlegacy
      fun k hk => h.mem_owners hget (hr.keyImages ▸ hk)]
    exact h
  | none =>
    have hnew : p.txMatchesCategory id .legacy = false := by rw [txMatchesCategory, hget]
    rw [insertKeyImages_eq (.inl rfl) (.inl hnew)]
    refine Indexed.addTxDone (h.put hr (.inl rfl) ?_ rfl ?_ ?_)
    · rw [without_eq_self hget]
      refine setIn_of_not_mem _ fun hmem => ?_
      obtain ⟨r, hr⟩ := p.records.mem_keys.mp hmem
      rw [hget] at hr
      cases hr
    · exact perm_ids_addTxToTransientLists (E := E) h.nodup_ids id _ _
    · rw [hget]
      rfl

end

omit [LinearOrder F] in
theorem owners_of_not_spent {k : K} (h : p.haveTxKeyimgAsSpent k id = false) :
    p.spentKeyImages.owners k ⊆ {id}
      ∧ (id ∈ p.spentKeyImages.owners k → p.txMatchesCategory id .legacy = false) := by
  unfold haveTxKeyimgAsSpent at h
  generalize p.spentKeyImages.owners k = ids at h ⊢
  dsimp only at h
  split at h
  · rename_i hempty
    rw [hempty]
    exact ⟨empty_subset _, fun hmem => absurd hmem (notMem_empty _)⟩
  · split at h
    · cases h
    · rename_i hone
      refine ⟨?_, fun _ => h⟩
      simp only [Bool.or_eq_true, decide_eq_true_eq, not_or, not_lt, not_not] at hone
      intro id' hid'
      exact mem_singleton.mpr (card_le_one.mp hone.1 id' hid' id hone.2)

theorem upgradeRelayMethod_block (old : RelayMethod) : upgradeRelayMethod old .block = .block := by
  cases old <;> rfl

omit [LinearOrder F] in
theorem items_erase_set (r : PoolRecord K) :
    ((p.records.erase id).set id r).items = without id p.records.items ++ [(id, r)] := by
  refine setIn_of_not_mem _ fun hmem => ?_
  obtain ⟨r', hr'⟩ := (p.records.erase id).mem_keys.mp hmem
  rw [get?_erase_self] at hr'
  cases hr'

theorem Indexed.addTxRightInputs (h : Indexed E p)
    (hr : ∀ relay, Describes E id ⟨tx, ⟨txWeight, fee, receiveTime, relay, tx.pruned⟩⟩)
    (hspent : txRelay = .block ∨ p.haveTxKeyimgesAsSpent tx id = false) :
    Indexed E (p.addTxRightInputs E tx id txWeight fee receiveTime txRelay).2 := by
  unfold TxMemoryPool.addTxRightInputs
  dsimp only
  -- the relay method that is written: a loop turns stem into fluff, which does not matter here
  generalize hrelay : (if (p.records.get? id).isSome && decide (txRelay = .stem)
    && decide (_ = RelayMethod.stem) then RelayMethod.fluff else txRelay) = relay
  have hspent' : relay = .block ∨ ∀ k ∈ tx.keyImages, p.haveTxKeyimgAsSpent k id = false := by
    rcases hspent with hblock | hspent
    · subst hblock
      simp at hrelay
      exact .inl hrelay.symm
    · right
      simpa [haveTxKeyimgesAsSpent] using hspent
  split
  · by_cases hlegacy : p.txMatchesCategory id .legacy = true
    · -- one that was broadcast comes again with a block, and is refused
      have hthere : ∀ k ∈ tx.keyImages, id ∈ p.spentKeyImages.owners k := by
        cases hget : p.records.get? id with
        | none =>
          rw [txMatchesCategory, hget] at hlegacy
          cases hlegacy
        | some r₀ => exact fun k hk => h.mem_owners hget ((hr relay).keyImages ▸ hk)
      rw [insertKeyImages_legacy (hr relay).ne_nil hlegacy hthere]
      exact h
    · rw [Bool.not_eq_true] at hlegacy
      have hfree : relay = .block ∨ ∀ k ∈ tx.keyImages, p.spentKeyImages.owners k ⊆ {id} :=
        hspent'.imp_right fun hspent k hk => (owners_of_not_spent (hspent k hk)).1
      rw [insertKeyImages_eq hfree (.inl hlegacy)]
      refine Indexed.addTxDone (h.put (hr _) ?_ (items_erase_set _) rfl ?_ rfl)
      · refine hfree.imp_left fun hblock => ?_
        rw [hblock, upgradeRelayMethod_block]
        rfl
      · exact perm_ids_addTxToTransientLists (E := E) h.nodup_ids id _ _
  · exact h.addTxDone

variable {version nicVerifiedHfVersion : Nat}

omit [DecidableEq H] [LinearOrder F] in
theorem describes_of_verNonInputConsensus (hver : E.verNonInputConsensus version tx = true)
    (hid : tx.keyImages = (E.content id).keyImages) (hweight : txWeight = E.weightOf id)
    (relay : RelayMethod) :
    Describes E id ⟨tx, ⟨txWeight, fee, receiveTime, relay, tx.pruned⟩⟩ := by
  simp only [Env.verNonInputConsensus, Bool.and_eq_true, decide_eq_true_eq] at hver
  exact ⟨hid, hver.1.2, hver.1.1, hweight⟩

/-- Unless the transaction comes with a block, has wrong inputs, and is in the pool but not
broadcast: its weight is then counted twice. -/
theorem Indexed.addTx (h : Indexed E p) (hid : tx.keyImages = (E.content id).keyImages)
    (hweight : txWeight = E.weightOf id)
    (hverified : nicVerifiedHfVersion = version → E.verNonInputConsensus version tx = true)
    (hcount : txRelay = .block → C.checkTxInputs id tx true = false →
      ∀ r, p.records.get? id = some r → r.matchesCategory .legacy = true) :
    Indexed E (p.addTx E C tx id txWeight txRelay version nicVerifiedHfVersion).2 := by
  unfold TxMemoryPool.addTx
  split
  · exact h
  · rename_i fee hfee
    dsimp only
    split
    · exact h
    · rename_i hpasses
      simp only [Bool.not_eq_false, Bool.and_eq_true, passesChecks] at hpasses
      obtain ⟨⟨⟨⟨⟨-, hver⟩, -⟩, -⟩, -⟩, hspent⟩ := hpasses
      have hver : E.verNonInputConsensus version tx = true := by
        rcases Bool.or_eq_true _ _ ▸ hver with hsame | hver
        · exact hverified (of_decide_eq_true hsame).symm
        · exact hver
      have hr : ∀ relay, Describes E id ⟨tx, ⟨txWeight, fee, E.clock p.reads, relay, tx.pruned⟩⟩ :=
        describes_of_verNonInputConsensus hver hid hweight
      have hspent : txRelay = .block ∨ p.haveTxKeyimgesAsSpent tx id = false := by
        simpa using hspent
      have htick : Indexed E p.tick := ⟨h.indexes, h.oneFree⟩
      split
      · exact htick.addTxRightInputs hr hspent
      · rename_i hinputs
        split
        · rename_i hkept
          have hblock : txRelay = .block := of_decide_eq_true hkept
          subst hblock
          exact htick.addTxWrongInputs (hr .block) (hcount rfl (by simpa using hinputs))
        · exact htick

end Adding

/-! ## The other operations -/

section Updates

variable {p : TxMemoryPool H K F} {r : PoolRecord K}

open TxMemoryPool

theorem Indexed.setRow (h : Indexed E p) (hr : p.records.get? id = some r) (r' : PoolRecord K)
    (htx : r'.tx = r.tx)
    (hweight : r'.txMeta.weight = r.txMeta.weight)
    (hkept : r'.keptByBlock = false → r.keptByBlock = false) :
    Indexed E { p with records := p.records.set id r' } := by
  have hmem := p.records.get?_eq_some_iff.mp hr
  -- every row is one from before, but for what the indexes do not read
  have hold : ∀ id₁ r₁, (id₁, r₁) ∈ (p.records.set id r').items →
      ∃ r₀, (id₁, r₀) ∈ p.records.items ∧ r₁.tx = r₀.tx ∧ r₁.txMeta.weight = r₀.txMeta.weight
        ∧ (r₁.keptByBlock = false → r₀.keptByBlock = false) := by
    intro id₁ r₁ h₁
    rw [← get?_eq_some_iff] at h₁
    by_cases hid : id₁ = id
    · subst hid
      rw [get?_set_self] at h₁
      cases h₁
      exact ⟨r, hmem, htx, hweight, hkept⟩
    · rw [get?_set_ne _ _ hid, get?_eq_some_iff] at h₁
      exact ⟨r₁, h₁, rfl, rfl, fun hfree => hfree⟩
  have hnew : ∀ id₁ r₀, (id₁, r₀) ∈ p.records.items →
      ∃ r₁, (id₁, r₁) ∈ (p.records.set id r').items ∧ r₁.tx = r₀.tx := by
    intro id₁ r₀ h₀
    by_cases hid : id₁ = id
    · subst hid
      cases h.indexes.eq_of_mem h₀ hmem
      exact ⟨r', (get?_eq_some_iff _).mp (get?_set_self _ _ _), htx⟩
    · rw [← get?_eq_some_iff, ← p.records.get?_set_ne r' hid, get?_eq_some_iff] at h₀
      exact ⟨r₀, h₀, rfl⟩
  refine ⟨⟨(p.records.set id r').nodup, ?_, ?_, ?_, ?_⟩, ?_⟩
  · intro id₁ r₁ h₁
    obtain ⟨r₀, h₀, htx₀, hweight₀, -⟩ := hold id₁ r₁ h₁
    have hdesc := h.indexes.describes id₁ r₀ h₀
    exact ⟨by rw [htx₀]; exact hdesc.keyImages, by rw [htx₀]; exact hdesc.nodup,
      by rw [htx₀]; exact hdesc.ne_nil, hweight₀.trans hdesc.weight⟩
  · refine h.indexes.weight_eq.trans (p.records.sumBy_set_of_eq (fun r => r.txMeta.weight) ?_).symm
    rw [hr]
    exact hweight.symm
  · intro k id₁
    rw [h.indexes.mem_owners]
    constructor
    · rintro ⟨r₀, h₀, hk⟩
      obtain ⟨r₁, h₁, htx₁⟩ := hnew id₁ r₀ h₀
      exact ⟨r₁, h₁, htx₁ ▸ hk⟩
    · rintro ⟨r₁, h₁, hk⟩
      obtain ⟨r₀, h₀, htx₀, -⟩ := hold id₁ r₁ h₁
      exact ⟨r₀, h₀, htx₀ ▸ hk⟩
  · have hkeys : (p.records.set id r').items.map Prod.fst = p.records.items.map Prod.fst :=
      (keys_setIn id r' p.records.items).trans
        (if_pos (mem_map.mpr ⟨_, hmem, rfl⟩))
    rw [hkeys]
    exact h.indexes.ids_perm
  · intro k id₁ id₂ r₁ r₂ h₁ h₂ hk₁ hk₂ hfree₁ hfree₂
    obtain ⟨r₁', h₁', htx₁, -, hkept₁⟩ := hold id₁ r₁ h₁
    obtain ⟨r₂', h₂', htx₂, -, hkept₂⟩ := hold id₂ r₂ h₂
    exact h.oneFree k id₁ id₂ r₁' r₂' h₁' h₂' (htx₁ ▸ hk₁) (htx₂ ▸ hk₂) (hkept₁ hfree₁)
      (hkept₂ hfree₂)

variable [LinearOrder F]

theorem Indexed.relist (h : Indexed E p) (hr : p.records.get? id = some r) (rate : F)
    (receiveTime : Nat) : Indexed E (p.addTxToTransientLists E id rate receiveTime) := by
  refine ⟨⟨h.indexes.nodup, h.indexes.describes, h.indexes.weight_eq, h.indexes.mem_owners, ?_⟩,
    h.oneFree⟩
  have hmem : id ∈ p.ids := by
    rw [h.indexes.ids_perm.mem_iff]
    exact mem_map.mpr ⟨_, p.records.get?_eq_some_iff.mp hr, rfl⟩
  exact (perm_ids_addTxToTransientLists h.nodup_ids id rate receiveTime).trans
    ((perm_cons_filter_ne h.nodup_ids hmem).symm.trans h.indexes.ids_perm)

omit [DecidableEq K] in
theorem keptByBlock_upgrade (method : RelayMethod)
    (h : upgradeRelayMethod r.txMeta.relayMethod method ≠ .block) : r.keptByBlock = false := by
  refine decide_eq_false fun hblock => h ?_
  rw [hblock]
  cases method <;> rfl

theorem Indexed.setRelayedOne (h : Indexed E p) (now : Nat) (method : RelayMethod) (id : H) :
    Indexed E (setRelayedOne E now method p id) := by
  unfold TxMemoryPool.setRelayedOne
  split
  · exact h
  · rename_i r hr
    have hset := h.setRow hr { r with
        txMeta.relayMethod := upgradeRelayMethod r.txMeta.relayMethod method } rfl rfl
      fun hfree => keptByBlock_upgrade method (of_decide_eq_false hfree)
    dsimp only
    split
    · exact hset.relist (get?_set_self _ _ _) _ _
    · exact hset

theorem Indexed.setRelayed (h : Indexed E p) (ids : List H) (method : RelayMethod) :
    Indexed E (p.setRelayed E ids method) := by
  have htick : Indexed E p.tick := ⟨h.indexes, h.oneFree⟩
  exact List.foldlRecOn ids _ htick fun q hq id _ => hq.setRelayedOne _ method id

end Updates

section Validate

variable [LinearOrder F] {C : ChainView H K} {p : TxMemoryPool H K F} {r r' : PoolRecord K}
  {tx : Transaction K} {txWeight fee receiveTime version nicVerifiedHfVersion : Nat}

open TxMemoryPool

theorem Indexed.validateOne (h : Indexed E p) (hversion : version ≠ 0) {row : H × PoolRecord K}
    (hrow : Describes E row.1 row.2) : Indexed E (validateOne E C version p row) := by
  rcases validateOne_cases (E := E) (p := p) C hversion row with heq | ⟨r, q, hr, hq, hcases⟩
  · rw [heq]
    exact h
  · have hadded : Indexed E q := by
      have hnew : (p.discard E row.1 r).records.get? row.1 = none := by
        rw [records_discard, get?_erase_self]
      rw [hq]
      exact (h.discard hr).addTx (h.indexes.describes row.1 r
        (p.records.get?_eq_some_iff.mp hr)).keyImages
        hrow.weight (fun h0 => absurd h0.symm hversion)
        (fun _ _ r' hr' => absurd (hnew.symm.trans hr') (by simp))
    rcases hcases with heq | ⟨r', hr', hrelay, heq⟩
    · rw [heq]
      exact hadded
    · have hdescribes := hadded.indexes.describes row.1 r' (q.records.get?_eq_some_iff.mp hr')
      rw [heq]
      refine hadded.setRow hr' _ rfl (hrow.weight.trans hdescribes.weight.symm) fun hfree => ?_
      exact decide_eq_false fun hblock => of_decide_eq_false hfree (hrelay ▸ hblock)

theorem Indexed.validate (h : Indexed E p) (hversion : version ≠ 0) :
    Indexed E (p.validate E C version) := by
  have hcleared : Indexed E { p with transient := ChangeFeed.empty } := ⟨h.indexes, h.oneFree⟩
  refine List.foldlRecOn _ _ hcleared fun q hq row hrow => hq.validateOne hversion ?_
  exact h.indexes.describes row.1 row.2
    ((E.rows_perm p.records.items).mem_iff.mp (mem_of_mem_filter hrow))

end Validate

section Init

variable [LinearOrder F] {p : TxMemoryPool H K F}

open TxMemoryPool

/-- Each row describes its transaction, and rows that share a key image are kept by a block but for
one. -/
structure Consistent (E : Env H K F) (rows : List (H × PoolRecord K)) : Prop where
  describes : ∀ id r, (id, r) ∈ rows → Describes E id r
  oneFree : OneFree rows

abbrev passRows (kept : Bool) (rows : List (H × PoolRecord K)) : List (H × PoolRecord K) :=
  rows.filter fun row => row.2.keptByBlock = kept

omit [LinearOrder F] in
/-- The key images of a row can be inserted after those of other rows, of which none that is not
kept by a block shares one with it. -/
theorem insertKeyImages_row {done : List (H × PoolRecord K)} {id : H} {r : PoolRecord K}
    (h : Indexes E done p.txpoolWeight p.spentKeyImages p.ids) (hr : Describes E id r)
    (hnew : id ∉ done.map Prod.fst)
    (hfree : r.keptByBlock = true ∨ ∀ k id' r', (id', r') ∈ done → k ∈ r.tx.keyImages →
      k ∈ r'.tx.keyImages → id' = id) :
    insertKeyImages id r.txMeta.relayMethod r.tx.keyImages p
      = (true, { p with spentKeyImages := p.spentKeyImages.insertAll r.tx.keyImages id }) := by
  refine insertKeyImages_eq ?_ (.inr ⟨hr.nodup, ?_⟩)
  · rcases hfree with hkept | hfree
    · exact .inl (of_decide_eq_true hkept)
    · refine .inr fun k hk id' hid' => mem_singleton.mpr ?_
      obtain ⟨r', hr', hk'⟩ := (h.mem_owners k id').mp hid'
      exact hfree k id' r' hr' hk hk'
  · intro k _ hmem
    obtain ⟨r', hr', -⟩ := (h.mem_owners k id).mp hmem
    exact hnew (mem_map.mpr ⟨_, hr', rfl⟩)

theorem indexes_initPass (kept : Bool) {done rows : List (H × PoolRecord K)}
    (h : Indexes E done p.txpoolWeight p.spentKeyImages p.ids)
    (hdesc : ∀ row ∈ rows, Describes E row.1 row.2)
    (hnodup : ((done ++ passRows kept rows).map Prod.fst).Nodup)
    (hfree : kept = false → OneFree (done ++ passRows kept rows)
      ∧ ∀ row ∈ done, row.2.keptByBlock = false) :
    ∃ q, initPass E kept rows p = (true, q) ∧ q.records = p.records
      ∧ Indexes E (done ++ passRows kept rows) q.txpoolWeight q.spentKeyImages q.ids := by
  induction rows generalizing p done with
  | nil => exact ⟨p, rfl, rfl, by simpa [passRows] using h⟩
  | cons row rest ih =>
    obtain ⟨id, r⟩ := row
    obtain ⟨hr, hdesc⟩ := forall_mem_cons.mp hdesc
    rw [initPass]
    by_cases hkept : r.keptByBlock = kept
    · have hpass : passRows kept ((id, r) :: rest) = (id, r) :: passRows kept rest :=
        filter_cons_of_pos (decide_eq_true hkept)
      rw [hpass, append_cons] at hnodup hfree ⊢
      have hid : id ∉ done.map Prod.fst := by
        intro hmem
        rw [append_assoc, map_append] at hnodup
        exact (nodup_append.mp hnodup).2.2 id hmem id (by simp) rfl
      have hshared : r.keptByBlock = true ∨ ∀ k id' r', (id', r') ∈ done → k ∈ r.tx.keyImages →
          k ∈ r'.tx.keyImages → id' = id := by
        cases hr' : r.keptByBlock with
        | true => exact .inl rfl
        | false =>
          obtain ⟨hfree, hdone⟩ := hfree (hkept.symm.trans hr')
          refine .inr fun k id' r' hmem hk hk' => ?_
          exact hfree k id' id r' r (by simp [hmem]) (by simp) hk' hk (hdone _ hmem) hr'
      rw [if_neg (not_not.mpr hkept), insertKeyImages_row h hr hid hshared]
      have hwithout : without id done = done := by
        refine filter_eq_self.mpr fun row hrow => decide_eq_true ?_
        exact fun heq => hid (mem_map.mpr ⟨row, hrow, heq⟩)
      have hput := h.put hr (fun k id' => KeyIndex.mem_owners_insertAll)
        (perm_ids_addTxToTransientLists (E := E) (p := { p with
            spentKeyImages := p.spentKeyImages.insertAll r.tx.keyImages id })
          (h.ids_perm.nodup_iff.mpr h.nodup) id (E.feeRate r.txMeta.fee r.txMeta.weight)
          r.txMeta.receiveTime) rfl
      rw [hwithout, ← h.weight_eq] at hput
      refine ih hput hdesc hnodup fun hpass => ?_
      obtain ⟨hfree, hdone⟩ := hfree hpass
      refine ⟨hfree, fun row hrow => ?_⟩
      rcases mem_append.mp hrow with hrow | hrow
      · exact hdone row hrow
      · rw [List.mem_singleton.mp hrow]
        exact hkept.trans hpass
    · have hpass : passRows kept ((id, r) :: rest) = passRows kept rest :=
        filter_cons_of_neg (by simpa using hkept)
      rw [hpass] at hnodup hfree ⊢
      rw [if_pos hkept]
      exact ih h hdesc hnodup hfree

theorem Indexed.init (h : Consistent E p.records.items) (maxTxpoolWeight : Nat) :
    Indexed E (p.init E maxTxpoolWeight).2 := by
  have hperm := E.rows_perm p.records.items
  have hrows : ∀ row ∈ E.rows p.records.items, Describes E row.1 row.2 :=
    fun row hrow => h.describes row.1 row.2 (hperm.mem_iff.mp hrow)
  have hnodup : ((E.rows p.records.items).map Prod.fst).Nodup :=
    (hperm.map Prod.fst).nodup_iff.mpr p.records.nodup
  have hsplit : (passRows false (E.rows p.records.items)
    ++ passRows true (E.rows p.records.items)).Perm
      p.records.items := by
    refine List.Perm.trans ?_ hperm
    have hnot : passRows false (E.rows p.records.items)
        = (E.rows p.records.items).filter fun row => !row.2.keptByBlock :=
      filter_congr fun row _ => by cases row.2.keptByBlock <;> rfl
    have hyes : passRows true (E.rows p.records.items)
        = (E.rows p.records.items).filter fun row => row.2.keptByBlock :=
      filter_congr fun row _ => by cases row.2.keptByBlock <;> rfl
    rw [hnot, hyes]
    exact perm_append_comm.trans (filter_append_perm _ _)
  have hnil : Indexes E [] 0 (KeyIndex.empty : KeyIndex K H) [] :=
    ⟨nodup_nil, fun _ _ hr => absurd hr not_mem_nil, rfl, fun k id => by simp, List.Perm.nil⟩
  unfold TxMemoryPool.init
  dsimp only
  -- the rows that are not kept by a block share no key image
  obtain ⟨q, hq, hrecords, hfirst⟩ := indexes_initPass (E := E) false (p := { p with
      txpoolMaxWeight := if maxTxpoolWeight = 0 then DEFAULT_TXPOOL_MAX_WEIGHT else maxTxpoolWeight
      txsByFeeAndReceiveTime := []
      transient := ChangeFeed.empty
      spentKeyImages := KeyIndex.empty
      txpoolWeight := 0 }) hnil hrows
    (hnodup.sublist (filter_sublist.map Prod.fst))
    (fun _ => ⟨h.oneFree.subset fun row hrow =>
      hperm.mem_iff.mp (mem_of_mem_filter hrow), fun row hrow => by cases hrow⟩)
  rw [hq]
  dsimp only
  rw [hrecords]
  obtain ⟨q', hq', hrecords', hsecond⟩ := indexes_initPass true hfirst hrows
    ((hsplit.map Prod.fst).nodup_iff.mpr p.records.nodup) (fun hkept => by cases hkept)
  rw [hq']
  have hall : q'.records = p.records := hrecords'.trans hrecords
  refine ⟨?_, ?_⟩
  · rw [hall]
    exact hsecond.perm hsplit
  · rw [hall]
    exact h.oneFree

end Init

/-! ## Runs -/

section Runs

variable [LinearOrder F]

open TxMemoryPool

/-- A transaction that comes with a block and has wrong inputs is not in the pool, or has been
broadcast. -/
def CountsOnce {E : Env H K F} (p : TxMemoryPool H K F) : PoolOp E → Prop
  | .addTx C id pruned txRelay _ _ _ =>
    txRelay = .block → C.checkTxInputs id { E.content id with pruned := pruned } true = false →
      ∀ r, p.records.get? id = some r → r.matchesCategory .legacy = true
  | _ => True

instance {E : Env H K F} (p : TxMemoryPool H K F) : (op : PoolOp E) → Decidable (CountsOnce p op)
  | .addTx C id pruned txRelay _ _ _ =>
    decidable_of_iff (txRelay = .block →
        C.checkTxInputs id { E.content id with pruned := pruned } true = false →
          (p.records.get? id).all (fun r => r.matchesCategory .legacy) = true) (by
      simp only [CountsOnce, all_eq_true])
  | .init _ => isTrue trivial
  | .setTxpoolMaxWeight _ => isTrue trivial
  | .takeTx _ => isTrue trivial
  | .prune _ => isTrue trivial
  | .removeStuckTransactions => isTrue trivial
  | .validate _ _ _ => isTrue trivial
  | .setRelayed _ _ => isTrue trivial

theorem Indexed.after {E : Env H K F} {p : TxMemoryPool H K F} (h : Indexed E p) {op : PoolOp E}
    (hop : CountsOnce p op) : Indexed E (p.after op) := by
  cases op with
  | init maxTxpoolWeight => exact Indexed.init ⟨h.indexes.describes, h.oneFree⟩ maxTxpoolWeight
  | setTxpoolMaxWeight bytes => exact ⟨h.indexes, h.oneFree⟩
  | addTx C id pruned txRelay version nicVerifiedHfVersion verified =>
    exact h.addTx rfl rfl verified hop
  | takeTx id => exact h.shrinks (shrinks_takeTx id)
  | prune bytes => exact h.shrinks (shrinks_pruneLoop _ _ _)
  | removeStuckTransactions => exact h.shrinks shrinks_removeStuckTransactions
  | validate C version hversion => exact h.validate hversion
  | setRelayed ids method => exact h.setRelayed ids method

/-- After `init` over a consistent database and any calls of which none counts a weight twice: the
weight is the sum of the stored ones, a key image has as owners the transactions that spend it, the
fee index has each transaction once, and of those that share a key image at most one is not kept by
a block. -/
theorem pool_indexes_of_run (E : Env H K F) (db : Dict H (PoolRecord K))
    (reads maxTxpoolWeight : Nat) (ops : List (PoolOp E)) (p : TxMemoryPool H K F)
    (hdb : Consistent E db.items)
    (hmeets : (pools E).Meets CountsOnce (TxMemoryPool.new db reads) (.init maxTxpoolWeight :: ops))
    (hrun : (pools E).exec (TxMemoryPool.new db reads) (.init maxTxpoolWeight :: ops) = some p) :
    p.txpoolWeight = p.records.sumBy (fun r => r.txMeta.weight)
      ∧ (∀ keyImage id, id ∈ p.spentKeyImages.owners keyImage
        ↔ ∃ r, p.records.get? id = some r ∧ keyImage ∈ r.tx.keyImages)
      ∧ p.ids.Perm p.records.keys
      ∧ ∀ keyImage id id' r r', p.records.get? id = some r → p.records.get? id' = some r' →
        keyImage ∈ r.tx.keyImages → keyImage ∈ r'.tx.keyImages →
        r.keptByBlock = false → r'.keptByBlock = false → id = id' := by
  obtain ⟨p₁, hinit, hrest⟩ := (pools E).exec_cons.mp hrun
  cases hinit
  have hindexed : Indexed E p := (pools E).invariant_of_meets
    (fun h hop hstep => by cases hstep; exact h.after hop)
    (Indexed.init hdb maxTxpoolWeight) (hmeets.2 _ rfl) hrest
  refine ⟨hindexed.indexes.weight_eq, ?_, hindexed.indexes.ids_perm, ?_⟩
  · simp only [get?_eq_some_iff]
    exact hindexed.indexes.mem_owners
  · simp only [get?_eq_some_iff]
    exact hindexed.oneFree

end Runs

/-- Transactions whose only key image is their id, and a clock that starts at 100. -/
def sampleEnv : Env Nat Nat Nat where
  clock n := 100 + n
  content id := ⟨[id], some (10 * id), 0, 0, false⟩
  weightOf id := 5 * id
  otherRules _ _ := true
  feeRate fee weight := fee / weight
  rows items := items
  rows_perm _ := List.Perm.refl _

def sampleView (inputs : Bool) : ChainView Nat Nat where
  checkFee _ _ := true
  checkTxInputs _ _ _ := inputs

def sampleAdd (id : Nat) (txRelay : RelayMethod) (inputs : Bool) : PoolOp sampleEnv :=
  .addTx (sampleView inputs) id false txRelay 1 0 fun h => absurd h (by decide)

theorem pool_indexes_of_run_sample : ∃ p : TxMemoryPool Nat Nat Nat,
    (pools sampleEnv).exec (TxMemoryPool.new Dict.empty 0) [.init 0, sampleAdd 1 .stem true,
        sampleAdd 2 .block false, sampleAdd 1 .fluff true, .takeTx 2] = some p
      ∧ p.records.keys = [1] ∧ p.txpoolWeight = p.records.sumBy (fun r => r.txMeta.weight) := by
  have hcheck : ((pools sampleEnv).execChecked (fun p op => decide (CountsOnce p op))
      (TxMemoryPool.new Dict.empty 0) [.init 0, sampleAdd 1 .stem true, sampleAdd 2 .block false,
        sampleAdd 1 .fluff true, .takeTx 2]).map (fun p => p.records.keys) = some [1] := by
    decide +kernel
  obtain ⟨p, hp, hmeets, hkeys⟩ :=
    (pools sampleEnv).exists_of_checked (fun _ _ => of_decide_eq_true) hcheck
  have hdb : Consistent sampleEnv (Dict.empty : Dict Nat (PoolRecord Nat)).items :=
    ⟨fun id r hr => absurd hr not_mem_nil, fun k id id' r r' hr => absurd hr not_mem_nil⟩
  exact ⟨p, hp, hkeys, (pool_indexes_of_run sampleEnv Dict.empty 0 0 _ p hdb hmeets hp).1⟩

/-- The weight of a stem transaction that comes again with an alternative block, when its inputs are
spent on the main chain, is counted twice. -/
theorem pool_weight_counted_twice : ∃ p : TxMemoryPool Nat Nat Nat,
    (pools sampleEnv).exec (TxMemoryPool.new Dict.empty 0)
        [.init 0, sampleAdd 1 .stem true, sampleAdd 1 .block false] = some p
      ∧ p.txpoolWeight = 10 ∧ p.records.sumBy (fun r => r.txMeta.weight) = 5 := by
  have hrun : ((pools sampleEnv).exec (TxMemoryPool.new Dict.empty 0)
      [.init 0, sampleAdd 1 .stem true, sampleAdd 1 .block false]).map
        (fun p => (p.txpoolWeight, p.records.sumBy fun r => r.txMeta.weight)) = some (10, 5) := by
    decide +kernel
  obtain ⟨p, hp, hweights⟩ := map_eq_some_iff.mp hrun
  exact ⟨p, hp, (Prod.mk.inj hweights).1, (Prod.mk.inj hweights).2⟩

end Glaciem.Mempool
