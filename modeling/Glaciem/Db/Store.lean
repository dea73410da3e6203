import Glaciem.Db.Prune
import Glaciem.Lib.System

/-!
# Glaciem — what the database stores

Runs of additions, pops and pruning calls on one database.

* `Sound` — what such runs keep: ids number the transactions, each has its base, and a row of the
  tip table is the height of its transaction.
-/

namespace Glaciem.Db

open List Table

variable {H K P C : Type} [LinearOrder H] [LinearOrder K] {E : Env H K P C}

/-! ## Regular transactions -/

section Regular

/-- A transaction as the rules of the chain allow it: of version 1 or 2, with an input of the type
`txin_gen` only by itself. -/
def TxBase.Regular (tx : TxBase K P C) : Prop := tx.version ≤ 2 ∧ (.gen ∈ tx.vin → tx.vin = [.gen])

instance [DecidableEq K] (tx : TxBase K P C) : Decidable tx.Regular :=
  inferInstanceAs (Decidable (_ ∧ (_ → _)))

variable {tx : TxBase K P C}

section

omit [LinearOrder K]

theorem TxBase.minerTx_iff : tx.minerTx = true ↔ .gen ∈ tx.vin := by
  unfold TxBase.minerTx
  rw [any_eq_true]
  constructor
  · rintro ⟨input, hmem, h⟩
    cases input with
    | gen => exact hmem
    | _ => cases h
  · intro h
    exact ⟨.gen, h, rfl⟩

theorem TxBase.isPseudoRct_iff : tx.isPseudoRct = true ↔ 2 ≤ tx.version ∧ tx.vin = [.gen] := by
  unfold TxBase.isPseudoRct
  rw [Bool.and_eq_true, decide_eq_true_eq]
  refine and_congr_right fun _ => ?_
  split
  · next heq => simp [heq]
  · next hne => exact ⟨fun h => (nomatch h), fun h => absurd h hne⟩

theorem TxBase.Regular.isPseudoRct_iff (h : tx.Regular) :
    tx.isPseudoRct = true ↔ tx.minerTx = true ∧ tx.version = 2 := by
  rw [TxBase.isPseudoRct_iff, TxBase.minerTx_iff]
  constructor
  · rintro ⟨hversion, hvin⟩
    exact ⟨by rw [hvin]; exact mem_singleton_self _, le_antisymm h.1 hversion⟩
  · rintro ⟨hgen, hversion⟩
    exact ⟨hversion.ge, h.2 hgen⟩

theorem TxBase.Regular.amountsAgree (h : tx.Regular) : Tables.AmountsAgree tx := by
  intro out _
  unfold TxBase.removedAmount TxBase.storedAmount
  simp only [h.isPseudoRct_iff]

end

end Regular

def NewBlock.Regular (b : NewBlock H K P C) : Prop :=
  b.block.minerTx.Regular ∧ ∀ tx ∈ b.txs, tx.Regular

instance (b : NewBlock H K P C) : Decidable b.Regular := inferInstanceAs (Decidable (_ ∧ _))

omit [LinearOrder H] [LinearOrder K] in
theorem NewBlock.Regular.amountsAgree {b : NewBlock H K P C} (h : b.Regular) :
    ∀ pair ∈ b.pairs E, Tables.AmountsAgree pair.1.toTxBase := by
  refine forall_mem_cons.mpr ⟨h.1.amountsAgree, fun pair hpair => ?_⟩
  exact (h.2 _ (of_mem_zip hpair).1).amountsAgree

variable {db db' : Tables H K P C}

variable {pairs : List (Tx K P C × H)}

namespace Tables

/-! ## Ids -/

def TipSound (db : Tables H K P C) : Prop := ∀ txId blockHeight,
  db.txsPrunableTip.get? (toLex (txId, blockHeight)) ≠ none →
    ∃ txHash index, db.txIndices.get? txHash = some index ∧ index.txId = txId
      ∧ index.blockId = blockHeight

structure IdsSound (db : Tables H K P C) : Prop where
  below : ∀ {txHash index}, db.txIndices.get? txHash = some index → index.txId < db.getTxCount
  unique : ∀ {txHash txHash' index index'}, db.txIndices.get? txHash = some index →
    db.txIndices.get? txHash' = some index' → index.txId = index'.txId → txHash = txHash'
  base : ∀ {txHash index}, db.txIndices.get? txHash = some index →
    db.txsPruned.get? index.txId ≠ none

variable {txHash : H} {tx : Tx K P C} {index : TxIndex}

section

variable (h : Added E db tx txHash db')

include h

theorem Added.txIndices :
    db'.txIndices = db.txIndices.put txHash ⟨db.getTxCount, tx.unlockTime, db.height⟩ := by
  rw [h.fields]
  rfl

theorem Added.txsPruned : db'.txsPruned = db.txsPruned.put db.getTxCount tx.toTxBase := by
  rw [h.fields]
  rfl

theorem Added.txsPrunable : db'.txsPrunable = db.txsPrunable.put db.getTxCount tx.prunable := by
  rw [h.fields]
  rfl

theorem Added.txsPrunableTip :
    db'.txsPrunableTip = if db.getBlockchainPruningSeed ≠ 0 then
      db.txsPrunableTip.put (toLex (db.getTxCount, db.height)) () else db.txsPrunableTip := by
  rw [h.fields]
  rfl

theorem Added.pruningSeed : db'.pruningSeed = db.pruningSeed := by
  rw [h.fields]
  rfl

theorem Added.index_cases {txHash' : H}
    (hindex : db'.txIndices.get? txHash' = some index) :
    (txHash' = txHash ∧ index = ⟨db.getTxCount, tx.unlockTime, db.height⟩)
      ∨ db.txIndices.get? txHash' = some index := by
  rw [h.txIndices, get?_put] at hindex
  split at hindex
  · next heq =>
    cases hindex
    exact .inl ⟨heq, rfl⟩
  · exact .inr hindex

theorem Added.index_mono {txHash' : H}
    (hindex : db.txIndices.get? txHash' = some index) :
    db'.txIndices.get? txHash' = some index := by
  have hne : txHash' ≠ txHash := by
    rintro rfl
    rw [h.hash_new] at hindex
    cases hindex
  rw [h.txIndices, get?_put_ne hne]
  exact hindex

theorem Added.idsSound (hids : db.IdsSound) : db'.IdsSound where
  below := by
    intro txHash' index hindex
    rw [h.getTxCount]
    rcases h.index_cases hindex with ⟨-, rfl⟩ | hold
    · exact Nat.lt_succ_self _
    · exact Nat.lt_succ_of_lt (hids.below hold)
  unique := by
    intro txHash₁ txHash₂ index₁ index₂ h₁ h₂ heq
    rcases h.index_cases h₁ with ⟨rfl, rfl⟩ | hold₁ <;>
      rcases h.index_cases h₂ with ⟨rfl, rfl⟩ | hold₂
    · rfl
    · exact absurd heq.symm (hids.below hold₂).ne
    · exact absurd heq (hids.below hold₁).ne
    · exact hids.unique hold₁ hold₂ heq
  base := by
    intro txHash' index hindex
    rw [h.txsPruned, get?_put]
    rcases h.index_cases hindex with ⟨-, rfl⟩ | hold
    · simp
    · rw [if_neg (hids.below hold).ne]
      exact hids.base hold

theorem Added.tipSound (htip : db.TipSound) : db'.TipSound := by
  intro txId blockHeight hrow
  have hold : db.txsPrunableTip.get? (toLex (txId, blockHeight)) ≠ none →
      ∃ txHash index, db'.txIndices.get? txHash = some index ∧ index.txId = txId
        ∧ index.blockId = blockHeight := by
    intro hrow
    obtain ⟨txHash', index, hindex, hfields⟩ := htip txId blockHeight hrow
    exact ⟨txHash', index, h.index_mono hindex, hfields⟩
  rw [h.txsPrunableTip] at hrow
  split at hrow
  · rw [get?_put] at hrow
    split at hrow
    · next heq =>
      cases heq
      exact ⟨txHash, _, by rw [h.txIndices, get?_put_self], rfl, rfl⟩
    · exact hold hrow
  · exact hold hrow

end

theorem addTransactions_induction {I : Tables H K P C → Prop}
    (hstep : ∀ {db tx txHash db'}, Added E db tx txHash db' → I db → I db')
    (h : db.addTransactions E pairs = .ok db') (hdb : I db) : I db' := by
  induction pairs generalizing db with
  | nil =>
    cases h
    exact hdb
  | cons pair rest ih =>
    obtain ⟨db₁, hadd, hrest⟩ := bind_eq_ok.mp h
    exact ih hrest (hstep (addTransaction_eq_ok hadd) hdb)

theorem tipSound_empty : ({} : Tables H K P C).TipSound := fun _ _ h => absurd rfl h

theorem idsSound_empty : ({} : Tables H K P C).IdsSound :=
  ⟨fun h => (nomatch h), fun h => (nomatch h), fun h => (nomatch h)⟩

theorem addTransactions_sound (h : db.addTransactions E pairs = .ok db') (hids : db.IdsSound)
    (htip : db.TipSound) : db'.IdsSound ∧ db'.TipSound :=
  addTransactions_induction (I := fun db => db.IdsSound ∧ db.TipSound)
    (fun hadded hold => ⟨hadded.idsSound hold.1, hadded.tipSound hold.2⟩) h ⟨hids, htip⟩

theorem addTransactions_index (h : db.addTransactions E pairs = .ok db')
    (hindex : db'.txIndices.get? txHash = some index) :
    db.getTxCount ≤ index.txId ∨ db.txIndices.get? txHash = some index := by
  induction pairs generalizing db with
  | nil =>
    cases h
    exact .inr hindex
  | cons pair rest ih =>
    obtain ⟨db₁, hadd, hrest⟩ := bind_eq_ok.mp h
    have hadded := addTransaction_eq_ok hadd
    rcases ih hrest with hnew | hold
    · rw [hadded.getTxCount] at hnew
      exact .inl (by omega)
    · rcases hadded.index_cases hold with ⟨-, rfl⟩ | hold
      · exact .inl le_rfl
      · exact .inr hold

theorem addTransactions_count (h : db.addTransactions E pairs = .ok db') :
    db'.getTxCount = db.getTxCount + pairs.length := by
  induction pairs generalizing db with
  | nil =>
    cases h
    rfl
  | cons pair rest ih =>
    obtain ⟨db₁, hadd, hrest⟩ := bind_eq_ok.mp h
    rw [ih hrest, (addTransaction_eq_ok hadd).getTxCount, length_cons]
    omega

theorem Added.height (h : Added E db tx txHash db') : db'.height = db.height := by
  rw [h.fields]
  rfl

theorem addTransactions_height (h : db.addTransactions E pairs = .ok db') :
    db'.height = db.height :=
  addTransactions_induction (I := fun db₁ => db₁.height = db.height)
    (fun hadded hold => hadded.height.trans hold) h rfl

theorem addBlock_height {b : NewBlock H K P C} (h : db.addBlock E b = .ok db') :
    db'.height = db.height + 1 := by
  obtain ⟨-, db₁, htxs, hblock⟩ := addBlock_eq_ok h
  exact hblock.height.trans (congrArg (· + 1) (addTransactions_height htxs))

/-! ## The tip table after a pop -/

section Tips

variable {t : Table (Nat ×ₗ Nat) Unit}

def OneHeight (t : Table (Nat ×ₗ Nat) Unit) : Prop := ∀ txId h h',
  t.get? (toLex (txId, h)) ≠ none → t.get? (toLex (txId, h')) ≠ none → h = h'

theorem get?_delFirstDup (hone : OneHeight t) (txId i h : Nat) :
    (t.delFirstDup txId).get? (toLex (i, h))
      = if i = txId then none else t.get? (toLex (i, h)) := by
  unfold Table.delFirstDup
  cases hhead : (t.dups txId).head? with
  | none =>
    dsimp only
    have hnil := head?_eq_none_iff.mp hhead
    split
    · next heq =>
      subst heq
      refine Option.eq_none_iff_forall_ne_some.mpr fun v hv => ?_
      have hmem := mem_dups.mpr hv
      rw [hnil] at hmem
      cases hmem
    · rfl
  | some row =>
    obtain ⟨d, v⟩ := row
    have hrow := mem_dups.mp (mem_of_mem_head? hhead)
    rw [get?_del]
    by_cases hi : i = txId
    · subst hi
      rw [if_pos rfl]
      split
      · rfl
      · next hne =>
        by_contra hsome
        exact hne (by rw [hone i h d hsome (by rw [hrow]; simp)])
    · rw [if_neg hi, if_neg]
      intro heq
      exact hi (congrArg (fun x => (ofLex x).1) heq)

theorem OneHeight.delFirstDup (hone : OneHeight t) (txId : Nat) :
    OneHeight (t.delFirstDup txId) := by
  intro i h h' hrow hrow'
  rw [get?_delFirstDup hone] at hrow hrow'
  split at hrow
  · exact absurd rfl hrow
  · rename_i hne
    rw [if_neg hne] at hrow'
    exact hone i h h' hrow hrow'

theorem get?_delTips (hone : OneHeight t) (txId n i h : Nat) :
    OneHeight (delTips t txId n)
      ∧ (delTips t txId n).get? (toLex (i, h))
        = if txId ≤ i ∧ i < txId + n then none else t.get? (toLex (i, h)) := by
  induction n generalizing txId with
  | zero =>
    refine ⟨hone, ?_⟩
    rw [if_neg (by omega)]
    rfl
  | succ n ih =>
    obtain ⟨hone', hget⟩ := ih (txId + 1)
    have hcons : delTips t txId (n + 1) = (delTips t (txId + 1) n).delFirstDup txId := rfl
    rw [hcons]
    refine ⟨hone'.delFirstDup txId, ?_⟩
    rw [get?_delFirstDup hone', hget]
    by_cases heq : i = txId
    · simp [heq]
    · rw [if_neg heq]
      congr 1
      exact propext ⟨fun h => by omega, fun h => by omega⟩

end Tips

theorem TipSound.oneHeight (h : db.TipSound) (hids : db.IdsSound) :
    OneHeight db.txsPrunableTip := by
  intro txId b b' hrow hrow'
  obtain ⟨txHash, index, hindex, rfl, rfl⟩ := h _ _ hrow
  obtain ⟨txHash', index', hindex', heq, rfl⟩ := h _ _ hrow'
  have hhash := hids.unique hindex hindex' heq.symm
  subst hhash
  rw [hindex] at hindex'
  cases hindex'
  rfl

theorem tipSound_of_pop (h : db.addTransactions E pairs = .ok db') (p : Table Nat (List UInt8))
    {p' : Table Nat (List UInt8)} {t : Table (Nat ×ₗ Nat) Unit} {s : Option Nat}
    (hids : db'.IdsSound) (htip : (db'.withPruning p t s).TipSound) :
    (db.withPruning p' (delTips t db.getTxCount pairs.length) s).TipSound := by
  intro txId blockHeight hrow
  have hids' : (db'.withPruning p t s).IdsSound := ⟨hids.below, hids.unique, hids.base⟩
  have hone : OneHeight t := htip.oneHeight hids'
  have hrow' : (delTips t db.getTxCount pairs.length).get? (toLex (txId, blockHeight))
    ≠ none := hrow
  rw [(get?_delTips hone _ _ _ _).2] at hrow'
  split at hrow'
  · exact absurd rfl hrow'
  · rename_i hrange
    obtain ⟨txHash, index, hindex, rfl, rfl⟩ := htip _ _ hrow'
    have hbelow : index.txId < db'.getTxCount := hids.below hindex
    rw [addTransactions_count h] at hbelow
    rcases addTransactions_index h hindex with hnew | hold
    · omega
    · exact ⟨txHash, index, hold, rfl, rfl⟩

end Tables

open Tables

inductive Stores (E : Env H K P C) : List (NewBlock H K P C) → Tables H K P C → Prop where
  | empty : Stores E [] {}
  | add {chain db db'} {b : NewBlock H K P C} : Stores E chain db → b.Regular →
      db.addBlock E b = .ok db' → Stores E (b :: chain) db'
  | prune {chain db} (p : Table Nat (List UInt8)) (t : Table (Nat ×ₗ Nat) Unit) (s : Option Nat) :
      Stores E chain db → (db.withPruning p t s).TipSound → Stores E chain (db.withPruning p t s)

variable {chain : List (NewBlock H K P C)}

namespace Stores

variable {b : NewBlock H K P C}

theorem sound (h : Stores E chain db) : db.IdsSound ∧ db.TipSound := by
  induction h with
  | empty => exact ⟨idsSound_empty, tipSound_empty⟩
  | add _ _ hadd ih =>
    obtain ⟨-, db₁, htxs, hblock⟩ := addBlock_eq_ok hadd
    obtain ⟨hids, htip⟩ := addTransactions_sound htxs ih.1 ih.2
    obtain ⟨cumRct, -, rfl⟩ := hblock.fields
    exact ⟨⟨hids.below, hids.unique, hids.base⟩, htip⟩
  | prune p t s _ htip ih => exact ⟨⟨ih.1.below, ih.1.unique, ih.1.base⟩, htip⟩

theorem top (h : Stores E (b :: chain) db) :
    ∃ db₀ db₁ p t s, Stores E chain db₀ ∧ b.Regular ∧ db₀.addBlock E b = .ok db₁
      ∧ db = db₁.withPruning p t s := by
  generalize hchain : b :: chain = chain' at h
  induction h with
  | empty => cases hchain
  | add hstores hregular hadd _ =>
    cases hchain
    exact ⟨_, _, _, _, _, hstores, hregular, hadd, rfl⟩
  | prune p t s _ _ ih =>
    obtain ⟨db₀, db₁, p', t', s', hstores, hregular, hadd, rfl⟩ := ih hchain
    exact ⟨db₀, db₁, p, t, s, hstores, hregular, hadd, rfl⟩

theorem pop (h : Stores E (b :: chain) db) :
    ∃ txs db', db.popBlock E = .ok (b.block, txs, db') ∧ Stores E chain db' := by
  have htip := h.sound.2
  obtain ⟨db₀, db₁, p, t, s, hstores, hregular, hadd, rfl⟩ := h.top
  refine ⟨_, _, popBlock_of_add hadd hregular.amountsAgree p t s, .prune _ _ _ hstores ?_⟩
  obtain ⟨-, db₂, htxs, hblock⟩ := addBlock_eq_ok hadd
  obtain ⟨hids, -⟩ := addTransactions_sound htxs hstores.sound.1 hstores.sound.2
  obtain ⟨cumRct, -, rfl⟩ := hblock.fields
  exact tipSound_of_pop htxs p hids htip

theorem height (h : Stores E chain db) : db.height = chain.length := by
  induction h with
  | empty => rfl
  | add _ _ hadd ih => rw [addBlock_height hadd, ih, length_cons]
  | prune p t s _ _ ih => exact ih

end Stores

/-! ## An addition and a pop -/

namespace Tables

theorem addTransactions_prunable (h : db.addTransactions E pairs = .ok db') :
    delPrunable db'.txsPrunable db.getTxCount pairs.length = db.txsPrunable
      ∧ popped db'.txsPrunable db.getTxCount pairs = (pairs.map Prod.fst).reverse
      ∧ db'.pruningSeed = db.pruningSeed := by
  induction pairs generalizing db with
  | nil =>
    cases h
    exact ⟨rfl, rfl, rfl⟩
  | cons pair rest ih =>
    obtain ⟨tx, txHash⟩ := pair
    obtain ⟨db₁, hadd, hrest⟩ := bind_eq_ok.mp h
    have hadded := addTransaction_eq_ok hadd
    obtain ⟨hdel, hpopped, hseed'⟩ := ih hrest
    rw [hadded.getTxCount] at hdel hpopped
    -- the later transactions leave the data of this one
    have hget : db'.txsPrunable.get? db.getTxCount = some tx.prunable := by
      have hkept := congrArg (·.get? db.getTxCount) hdel
      rw [get?_delPrunable, if_neg (by omega), hadded.txsPrunable, get?_put_self] at hkept
      exact hkept
    refine ⟨?_, ?_, hseed'.trans hadded.pruningSeed⟩
    · have hcons : delPrunable db'.txsPrunable db.getTxCount (rest.length + 1)
          = (delPrunable db'.txsPrunable (db.getTxCount + 1) rest.length).del db.getTxCount := rfl
      rw [length_cons, hcons, hdel, hadded.txsPrunable,
        del_put (get?_of_above hadded.prunable_below)]
    · rw [popped, hpopped, hget, map_cons, reverse_cons]
      rfl

theorem addTransactions_tip (h : db.addTransactions E pairs = .ok db') (hids : db.IdsSound)
    (htip : db.TipSound) :
    delTips db'.txsPrunableTip db.getTxCount pairs.length = db.txsPrunableTip := by
  induction pairs generalizing db with
  | nil =>
    cases h
    rfl
  | cons pair rest ih =>
    obtain ⟨tx, txHash⟩ := pair
    obtain ⟨db₁, hadd, hrest⟩ := bind_eq_ok.mp h
    have hadded := addTransaction_eq_ok hadd
    have hdel := ih hrest (hadded.idsSound hids) (hadded.tipSound htip)
    rw [hadded.getTxCount] at hdel
    -- the id of the new transaction is not in the tip table
    have hnone : db.txsPrunableTip.dups db.getTxCount = [] := by
      refine dups_eq_nil fun blockHeight => ?_
      by_contra hrow
      obtain ⟨txHash', index, hindex, hid, -⟩ := htip _ _ hrow
      exact absurd hid (hids.below hindex).ne
    have hcons : delTips db'.txsPrunableTip db.getTxCount (rest.length + 1)
        = (delTips db'.txsPrunableTip (db.getTxCount + 1) rest.length).delFirstDup
          db.getTxCount := rfl
    rw [length_cons, hcons, hdel, hadded.txsPrunableTip]
    split
    · exact delFirstDup_put hnone
    · exact delFirstDup_of_nil hnone

end Tables

/-- In a state that stores a chain, a pop right after an addition gives back the block, its
transactions and all tables. -/
theorem Stores.pop_of_add {chain : List (NewBlock H K P C)} {b : NewBlock H K P C}
    {db db' : Tables H K P C} (h : Stores E chain db) (hregular : b.Regular)
    (hadd : db.addBlock E b = .ok db') :
    db'.popBlock E = .ok (b.block, b.txs.reverse, db) := by
  obtain ⟨hlength, db₂, htxs, hblock⟩ := addBlock_eq_ok hadd
  obtain ⟨db₁, hminer, hrest⟩ := bind_eq_ok.mp htxs
  obtain ⟨hids, htip⟩ := h.sound
  have hpop := popBlock_of_add hadd hregular.amountsAgree db'.txsPrunable db'.txsPrunableTip
    db'.pruningSeed
  obtain ⟨cumRct, -, rfl⟩ := hblock.fields
  obtain ⟨hprunable, -, hseed⟩ := addTransactions_prunable htxs
  obtain ⟨-, hpopped, -⟩ := addTransactions_prunable hrest
  rw [(addTransaction_eq_ok hminer).getTxCount, map_fst_zip (by omega)] at hpopped
  have htips := addTransactions_tip htxs hids htip
  refine hpop.trans ?_
  change Except.ok (b.block, popped db₂.txsPrunable _ _, db.withPruning
    (delPrunable db₂.txsPrunable _ _) (delTips db₂.txsPrunableTip _ _) db₂.pruningSeed) = _
  rw [hpopped, hprunable, htips, hseed]
  rfl

/-! ## Runs -/

namespace Tables

theorem pruneWorker_frame {mode : PruneMode} {pruningSeed random : Nat}
    {complaints : List Complaint}
    (h : db.pruneWorker mode pruningSeed random = .ok (db', complaints)) (htip : db.TipSound) :
    db' = db.withPruning db'.txsPrunable db'.txsPrunableTip db'.pruningSeed ∧ db'.TipSound := by
  rcases pruneWorker_eq_ok h with ⟨-, rfl, -⟩ | ⟨seed, -, h⟩
  · exact ⟨rfl, htip⟩
  · cases mode with
    | prune =>
      obtain ⟨-, st, hst, rfl⟩ := h
      refine ⟨rfl, fun txId blockHeight hrow => ?_⟩
      have hrow' : st.txsPrunableTip.get? (toLex (txId, blockHeight)) ≠ none := hrow
      rw [(pruneAll_spec hst).2] at hrow'
      split at hrow'
      · next hin =>
        obtain ⟨row, hmem, heq, -⟩ := hin
        cases heq
        exact ⟨row.1, row.2, get?_eq_some_iff.mpr hmem, rfl, rfl⟩
      · exact htip _ _ hrow'
    | update =>
      obtain ⟨-, st, hst, rfl⟩ := h
      refine ⟨rfl, fun txId blockHeight hrow => ?_⟩
      have hrow' : st.txsPrunableTip.get? (toLex (txId, blockHeight)) ≠ none := hrow
      rw [(pruneTip_spec hst).2] at hrow'
      split at hrow'
      · exact absurd rfl hrow'
      · exact htip _ _ hrow'
    | check =>
      obtain ⟨rfl, -⟩ := h
      exact ⟨rfl, htip⟩

end Tables

inductive Op (H K P C : Type) where
  | add (b : NewBlock H K P C)
  | pop
  | pruneBlockchain (pruningSeed random : Nat)
  | updatePruning

def Op.Regular : Op H K P C → Prop
  | .add b => b.Regular
  | _ => True

def Op.onChain (chain : List (NewBlock H K P C)) : Op H K P C → List (NewBlock H K P C)
  | .add b => b :: chain
  | .pop => chain.tail
  | _ => chain

def databaseStep (E : Env H K P C) (db : Tables H K P C) : Op H K P C → Option (Tables H K P C)
  | .add b => (db.addBlock E b).toOption
  | .pop => (db.popBlock E).toOption.map fun r => r.2.2
  | .pruneBlockchain pruningSeed random => (db.pruneBlockchain pruningSeed random).toOption
  | .updatePruning => db.updatePruning.toOption

def database (E : Env H K P C) : System (Tables H K P C) (Op H K P C) := ⟨databaseStep E⟩

theorem toOption_eq_some {ε α : Type} {x : Except ε α} {a : α} :
    x.toOption = some a ↔ x = .ok a := by
  cases x with
  | error e => exact ⟨fun h => (nomatch h), fun h => (nomatch h)⟩
  | ok b => exact ⟨fun h => by cases h; rfl, fun h => by cases h; rfl⟩

theorem map_eq_ok {ε α β : Type} {x : Except ε α} {f : α → β} {b : β} :
    x.map f = .ok b ↔ ∃ a, x = .ok a ∧ f a = b := by
  cases x with
  | error e | ok a => simp [Except.map]

namespace Stores

theorem of_pruneWorker {mode : PruneMode} {pruningSeed random : Nat} {complaints : List Complaint}
    (h : Stores E chain db)
    (hprune : db.pruneWorker mode pruningSeed random = .ok (db', complaints)) :
    Stores E chain db' := by
  obtain ⟨hframe, htip⟩ := pruneWorker_frame hprune h.sound.2
  rw [hframe] at htip ⊢
  exact .prune _ _ _ h htip

theorem step_chain {op : Op H K P C} (h : Stores E chain db) (hop : op.Regular)
    (hstep : (database E).step db op = some db') : Stores E (op.onChain chain) db' := by
  cases op with
  | add b => exact .add h hop (toOption_eq_some.mp hstep)
  | pop =>
    obtain ⟨⟨block, txs, db₁⟩, hpop, rfl⟩ := Option.map_eq_some_iff.mp hstep
    rw [toOption_eq_some] at hpop
    cases chain with
    | nil =>
      rw [popBlock, h.height] at hpop
      cases hpop
    | cons b chain =>
      obtain ⟨txs', db₂, hpop', hstores⟩ := h.pop
      rw [hpop'] at hpop
      cases hpop
      exact hstores
  | pruneBlockchain pruningSeed random | updatePruning =>
    obtain ⟨⟨db₁, complaints⟩, hprune, rfl⟩ := map_eq_ok.mp (toOption_eq_some.mp hstep)
    exact h.of_pruneWorker hprune

theorem step {op : Op H K P C} (h : Stores E chain db) (hop : op.Regular)
    (hstep : (database E).step db op = some db') : ∃ chain', Stores E chain' db' :=
  ⟨_, h.step_chain hop hstep⟩

/-- After a run the database stores the blocks added and not popped. -/
theorem of_exec {ops : List (Op H K P C)} (h : Stores E chain db) (hops : ∀ op ∈ ops, op.Regular)
    (hrun : (database E).exec db ops = some db') : Stores E (ops.foldl Op.onChain chain) db' :=
  (database E).related_of_meets (fun h hop hstep => h.step_chain hop hstep) h
    ((database E).meets_of_labels (fun op hop _ => hops op hop) db) hrun

end Stores

/-- In every state a run of regular blocks reaches, popping the block just added gives it back with
its transactions, the last one first, and leaves all tables as they were. -/
theorem pop_restores {ops : List (Op H K P C)} {db db' : Tables H K P C} {b : NewBlock H K P C}
    (hops : ∀ op ∈ ops, op.Regular) (hrun : (database E).exec {} ops = some db)
    (hregular : b.Regular)
    (hadd : db.addBlock E b = .ok db') : db'.popBlock E = .ok (b.block, b.txs.reverse, db) :=
  (Stores.empty.of_exec hops hrun).pop_of_add hregular hadd

/-! ## Two blocks -/

section Sample

def sampleEnv : Env Nat Nat Nat Nat where
  blockHash := fun block => block.nonce
  txHash := fun tx => tx.unlockTime
  prunableHash := fun tx => tx.unlockTime
  zeroCommit := fun amount => amount

def sampleCoinbase (height : Nat) (vin : List (TxIn Nat)) : Tx Nat Nat Nat where
  version := 2
  unlockTime := height
  vin := vin
  vout := [⟨5, some height⟩]
  outPk := []
  prunable := []

def sampleSpend : Tx Nat Nat Nat where
  version := 2
  unlockTime := 50
  vin := [.toKey 7, .toKey 3]
  vout := [⟨0, some 1⟩, ⟨0, some 2⟩]
  outPk := [11, 12]
  prunable := [1, 2, 3]

def sampleBlock (height : Nat) (vin : List (TxIn Nat)) (txs : List (Tx Nat Nat Nat)) :
    NewBlock Nat Nat Nat Nat where
  block := ⟨1, 1, height, height - 1, height, sampleCoinbase height vin, txs.map (·.unlockTime)⟩
  blockWeight := 80
  longTermBlockWeight := 80
  cumulativeDifficulty := height + 1
  coinsGenerated := height
  txs := txs

def sampleOps : List (Op Nat Nat Nat Nat) := [.add (sampleBlock 0 [.gen] []), .pruneBlockchain 0 1]

theorem sampleOps_regular : ∀ op ∈ sampleOps, op.Regular := by
  refine forall_mem_cons.mpr ⟨?_, forall_mem_cons.mpr ⟨trivial, fun _ h => (nomatch h)⟩⟩
  change (sampleBlock 0 [.gen] []).Regular
  decide

theorem pop_restores_sample : ∃ db db', (database sampleEnv).exec {} sampleOps = some db
      ∧ db.addBlock sampleEnv (sampleBlock 1 [.gen] [sampleSpend]) = .ok db'
      ∧ db'.popBlock sampleEnv
        = .ok ((sampleBlock 1 [.gen] [sampleSpend]).block, [sampleSpend], db) := by
  have hexists : ∃ db db', (database sampleEnv).exec {} sampleOps = some db
      ∧ db.addBlock sampleEnv (sampleBlock 1 [.gen] [sampleSpend]) = .ok db' := ⟨_, _, rfl, rfl⟩
  obtain ⟨db, db', hrun, hadd⟩ := hexists
  exact ⟨db, db', hrun, hadd, pop_restores sampleOps_regular hrun (by decide) hadd⟩

/-- A coinbase with a second input is stored under the amount 0 and looked up under its own. -/
theorem irregular_coinbase_not_popped : ∃ db',
    ({} : Tables Nat Nat Nat Nat).addBlock sampleEnv (sampleBlock 0 [.gen, .toKey 7] []) = .ok db'
      ∧ db'.popBlock sampleEnv = .error (.outputDne
        "Attempting to get an output index by amount and amount index, but amount not found") :=
  ⟨_, rfl, rfl⟩

end Sample

end Glaciem.Db
