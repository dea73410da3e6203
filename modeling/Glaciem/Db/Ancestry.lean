import Glaciem.Db.Outputs

/-!
# Glaciem — a hash tells the blocks below it

Every block names the one before it, and `add_block` checks that this is the top block. So the hash
of a block, read from the database at some height, tells all blocks up to that height, whatever
happened to the chain since another block was seen there with the same hash.
-/

namespace Glaciem.Db

open List

variable {H K P C : Type}

/-- The hash of the block at a height of a chain, which is given with its last block first. -/
def hashAt (E : Env H K P C) (chain : List (NewBlock H K P C)) (height : Nat) : Option H :=
  (chain.reverse[height]?).map fun b => E.blockHash b.block

/-- Every block but the first names the one before it. -/
def Linked (E : Env H K P C) (chain : List (NewBlock H K P C)) : Prop :=
  ∀ {height b}, chain.reverse[height + 1]? = some b → hashAt E chain height = some b.block.prevId

section Lookup

variable {E : Env H K P C} {chain : List (NewBlock H K P C)} {b : NewBlock H K P C} {height : Nat}

theorem hashAt_cons : hashAt E (b :: chain) height
    = if height = chain.length then some (E.blockHash b.block) else hashAt E chain height := by
  unfold hashAt
  rw [getElem?_reverse_cons]
  split <;> rfl

theorem hashAt_eq_none (h : chain.length ≤ height) : hashAt E chain height = none := by
  unfold hashAt
  rw [getElem?_eq_none (by rw [length_reverse]; exact h)]
  rfl

theorem lt_of_hashAt {hash : H} (h : hashAt E chain height = some hash) :
    height < chain.length := by
  by_contra hge
  rw [hashAt_eq_none (not_lt.mp hge)] at h
  cases h

theorem exists_hashAt (h : height < chain.length) : ∃ hash, hashAt E chain height = some hash := by
  unfold hashAt
  rw [getElem?_eq_getElem (by rw [length_reverse]; exact h)]
  exact ⟨_, rfl⟩

end Lookup

section Stored

variable [LinearOrder H] [LinearOrder K] {E : Env H K P C} {chain : List (NewBlock H K P C)}
  {db : Tables H K P C}

open Tables

theorem Tables.addTransactions_blockHeights {pairs : List (Tx K P C × H)} {db db' : Tables H K P C}
    (h : db.addTransactions E pairs = .ok db') : db'.blockHeights = db.blockHeights := by
  refine addTransactions_induction (I := fun db₁ => db₁.blockHeights = db.blockHeights)
    (fun hadded hold => ?_) h rfl
  rw [hadded.fields]
  exact hold

theorem Stores.getHash (h : Stores E chain db) (height : Nat) :
    (db.blockInfo.get? height).map (·.hash) = hashAt E chain height := by
  induction h with
  | empty => rfl
  | @add chain db db' b hstores _ hadd ih =>
    obtain ⟨-, db₁, htxs, hblock⟩ := addBlock_eq_ok hadd
    obtain ⟨cumRct, -, rfl⟩ := hblock.fields
    change ((db₁.blockInfo.put db₁.height _).get? height).map _ = _
    rw [addTransactions_height htxs, hstores.height, addTransactions_blockInfo htxs, Table.get?_put,
      hashAt_cons]
    split
    · rfl
    · exact ih
  | prune p t s _ _ ih => exact ih

theorem Stores.blockHeights (h : Stores E chain db) {hash : H} {height : Nat} :
    db.blockHeights.get? hash = some height ↔ hashAt E chain height = some hash := by
  induction h with
  | empty => constructor <;> intro h <;> cases h
  | @add chain db db' b hstores _ hadd ih =>
    obtain ⟨-, db₁, htxs, hblock⟩ := addBlock_eq_ok hadd
    have hnew := hblock.hash_new
    obtain ⟨cumRct, -, rfl⟩ := hblock.fields
    change (db₁.blockHeights.put (E.blockHash b.block) db₁.height).get? hash = some height ↔ _
    rw [addTransactions_blockHeights htxs] at hnew ⊢
    rw [addTransactions_height htxs, hstores.height, Table.get?_put, hashAt_cons]
    by_cases hlast : height = chain.length
    · -- no older block has this height
      have hfree : db.blockHeights.get? hash ≠ some height := by
        simp [ih, hashAt_eq_none hlast.ge]
      rw [if_pos hlast]
      split
      · next heq => simp [hlast, heq]
      · next hne => simp [hfree, Ne.symm hne]
    · rw [if_neg hlast, ← ih]
      split
      · next heq => simp [heq, hnew, Ne.symm hlast]
      · rfl
  | prune p t s _ _ ih => exact ih

theorem Stores.linked (h : Stores E chain db) : Linked E chain := by
  induction h with
  | empty => exact fun hb => (nomatch hb)
  | @add chain db db' b hstores _ hadd ih =>
    obtain ⟨-, db₁, htxs, hblock⟩ := addBlock_eq_ok hadd
    have hparent := hblock.parent
    rw [addTransactions_height htxs, hstores.height, addTransactions_blockHeights htxs] at hparent
    intro height b' hb'
    rw [getElem?_reverse_cons] at hb'
    split at hb'
    · next heq =>
      cases hb'
      have hprev := hstores.blockHeights.mp (hparent (by omega))
      rw [← heq, Nat.add_sub_cancel] at hprev
      rw [hashAt_cons, if_neg (by omega)]
      exact hprev
    · have hold := ih hb'
      rw [hashAt_cons, if_neg (lt_of_hashAt hold).ne]
      exact hold
  | prune p t s _ _ ih => exact ih

/-- After every run the chain of the blocks added and not popped is linked, `block_info` has their
hashes by height, and `block_heights` is its inverse. -/
theorem block_tables_of_run {ops : List (Op H K P C)} (hops : ∀ op ∈ ops, op.Regular)
    (hrun : (database E).exec {} ops = some db) (hash : H) (height : Nat) :
    let chain := ops.foldl Op.onChain []
    db.height = chain.length ∧ Linked E chain
      ∧ (db.blockInfo.get? height).map (·.hash) = hashAt E chain height
      ∧ (db.blockHeights.get? hash = some height ↔ hashAt E chain height = some hash) := by
  have hstores := Stores.empty.of_exec hops hrun
  exact ⟨hstores.height, hstores.linked, hstores.getHash height, hstores.blockHeights⟩

end Stored

/-- A block with a transaction at height 1, and with the hash 9. -/
def rivalBlock : NewBlock Nat Nat Nat Nat :=
  { sampleBlock 1 [.gen] [sampleSpend] with
    block := { (sampleBlock 1 [.gen] [sampleSpend]).block with nonce := 9 } }

def replacingOps : List (Op Nat Nat Nat Nat) :=
  [.add (sampleBlock 0 [.gen] []), .add (sampleBlock 1 [.gen] []), .pruneBlockchain 0 1, .pop,
    .add rivalBlock]

theorem block_tables_of_run_sample : ∃ db, (database sampleEnv).exec {} replacingOps = some db
    ∧ db.height = 2 ∧ db.blockHeights.get? 9 = some 1 ∧ ¬ db.blockHeights.get? 1 = some 1 := by
  have hops : ∀ op ∈ replacingOps, op.Regular := by
    simp only [replacingOps, forall_mem_cons]
    exact ⟨show NewBlock.Regular _ by decide, show NewBlock.Regular _ by decide, trivial, trivial,
      show rivalBlock.Regular by decide, fun _ h => (nomatch h)⟩
  obtain ⟨db, hrun⟩ : ∃ db, (database sampleEnv).exec {} replacingOps = some db := ⟨_, rfl⟩
  have htables := block_tables_of_run hops hrun
  exact ⟨db, hrun, (htables 9 1).1, (htables 9 1).2.2.2.mpr rfl,
    fun h => (nomatch (htables 1 1).2.2.2.mp h)⟩

def DistinctHashes (E : Env H K P C) (known : NewBlock H K P C → Prop) : Prop :=
  ∀ {b b'}, known b → known b' → E.blockHash b.block = E.blockHash b'.block →
    b.block = b'.block ∧ b.txs = b'.txs

structure History (E : Env H K P C) (known : NewBlock H K P C → Prop)
    (chain : List (NewBlock H K P C)) : Prop where
  linked : Linked E chain
  known : ∀ b ∈ chain, known b

section Agree

variable {E : Env H K P C} {known : NewBlock H K P C → Prop}
  {chain chain' : List (NewBlock H K P C)}
  (h : History E known chain) (h' : History E known chain') (hdistinct : DistinctHashes E known)
  {height : Nat} {hash : H} (hhash : hashAt E chain height = some hash)
  (hhash' : hashAt E chain' height = some hash)

include h h' hdistinct hhash hhash'

theorem History.block_eq :
    ∃ b b', chain.reverse[height]? = some b ∧ chain'.reverse[height]? = some b'
      ∧ b.block = b'.block ∧ b.txs = b'.txs := by
  obtain ⟨b, hb, hhash⟩ := Option.map_eq_some_iff.mp hhash
  obtain ⟨b', hb', hhash'⟩ := Option.map_eq_some_iff.mp hhash'
  have hknown := h.known b (mem_reverse.mp (mem_of_getElem? hb))
  have hknown' := h'.known b' (mem_reverse.mp (mem_of_getElem? hb'))
  exact ⟨b, b', hb, hb', hdistinct hknown hknown' (hhash.trans hhash'.symm)⟩

theorem History.createdAt_eq {k : Nat} (hk : k ≤ height) (amount : Nat) :
    createdAt chain amount k = createdAt chain' amount k := by
  -- down from the height where the hashes are the same
  induction height generalizing hash with
  | zero =>
    obtain rfl := Nat.le_zero.mp hk
    obtain ⟨b, b', hb, hb', hblock, htxs⟩ := h.block_eq h' hdistinct hhash hhash'
    simp only [createdAt, hb, hb', NewBlock.created, hblock, htxs]
  | succ height ih =>
    obtain ⟨b, b', hb, hb', hblock, htxs⟩ := h.block_eq h' hdistinct hhash hhash'
    rcases Nat.le_succ_iff.mp hk with hk | rfl
    · have hprev' := h'.linked hb'
      rw [← hblock] at hprev'
      exact ih (h.linked hb) hprev' hk
    · simp only [createdAt, hb, hb', NewBlock.created, hblock, htxs]

theorem History.createdBelow_eq {n : Nat} (hn : n ≤ height + 1) (amount : Nat) :
    createdBelow chain amount n = createdBelow chain' amount n := by
  unfold createdBelow
  congr 1
  refine map_congr_left fun k hk => ?_
  have := mem_range.mp hk
  exact h.createdAt_eq h' hdistinct hhash hhash' (by omega) amount

end Agree

end Glaciem.Db
