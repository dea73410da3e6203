import Glaciem.Db.Store

/-!
# Glaciem — the outputs of a chain and how the tables count them

The outputs that the blocks of a chain create, by amount and height, against the two places where
the database counts them: the rows of `output_amounts`, which have the height of their block, and
the running total of RingCT outputs in `block_info`.
-/

namespace Glaciem.Db

open List Nat

variable {H K P C : Type}

/-! ## What a chain creates -/

def TxBase.created (amount : Nat) (tx : TxBase K P C) : Nat :=
  tx.vout.countP fun out => tx.storedAmount out = amount

def NewBlock.created (amount : Nat) (b : NewBlock H K P C) : Nat :=
  b.block.minerTx.created amount + (b.txs.map fun tx => tx.created amount).sum

/-- The outputs of an amount created at a height of a chain, which is given with its last block
first. -/
def createdAt (chain : List (NewBlock H K P C)) (amount height : Nat) : Nat :=
  match chain.reverse[height]? with
  | some b => b.created amount
  | none => 0

def createdBelow (chain : List (NewBlock H K P C)) (amount height : Nat) : Nat :=
  ((range height).map (createdAt chain amount)).sum

variable {chain : List (NewBlock H K P C)}

section Created

variable {b : NewBlock H K P C} {amount : Nat}

theorem getElem?_reverse_cons (height : Nat) : (b :: chain).reverse[height]?
    = if height = chain.length then some b else chain.reverse[height]? := by
  rw [reverse_cons]
  rcases lt_trichotomy height chain.length with hlt | rfl | hgt
  · rw [getElem?_append_left (by rwa [length_reverse]), if_neg hlt.ne]
  · rw [if_pos rfl, getElem?_append_right (by rw [length_reverse]), length_reverse, Nat.sub_self]
    rfl
  · rw [if_neg hgt.ne', getElem?_eq_none (by simp; omega),
      getElem?_eq_none (by rw [length_reverse]; exact hgt.le)]

theorem createdAt_cons (height : Nat) : createdAt (b :: chain) amount height
    = if height = chain.length then b.created amount else createdAt chain amount height := by
  unfold createdAt
  rw [getElem?_reverse_cons]
  by_cases heq : height = chain.length
  · rw [if_pos heq, if_pos heq]
  · rw [if_neg heq, if_neg heq]

variable {height : Nat}

theorem createdAt_of_le (h : chain.length ≤ height) : createdAt chain amount height = 0 := by
  unfold createdAt
  rw [getElem?_eq_none (by rw [length_reverse]; exact h)]

theorem createdBelow_succ (height : Nat) : createdBelow chain amount (height + 1)
    = createdBelow chain amount height + createdAt chain amount height := by
  unfold createdBelow
  rw [range_succ, map_append, sum_append_nat]
  simp

theorem createdBelow_cons (h : height ≤ chain.length) :
    createdBelow (b :: chain) amount height = createdBelow chain amount height := by
  unfold createdBelow
  congr 1
  refine map_congr_left fun k hk => ?_
  rw [createdAt_cons, if_neg (by have := mem_range.mp hk; omega)]

def outputHeights (amount : Nat) : List (NewBlock H K P C) → List Nat
  | [] => []
  | b :: chain => outputHeights amount chain ++ replicate (b.created amount) chain.length

theorem lt_of_mem_outputHeights (h : height ∈ outputHeights amount chain) :
    height < chain.length := by
  induction chain with
  | nil => cases h
  | cons b chain ih =>
    rw [length_cons]
    rcases mem_append.mp h with h | h
    · exact lt_succ_of_lt (ih h)
    · rw [eq_of_mem_replicate h]
      exact lt_succ_self _

theorem outputHeights_sorted : (outputHeights amount chain).Pairwise (· ≤ ·) := by
  induction chain with
  | nil => exact .nil
  | cons b chain ih =>
    refine pairwise_append.mpr ⟨ih, pairwise_replicate.mpr (.inr le_rfl), ?_⟩
    intro height hmem height' hmem'
    rw [eq_of_mem_replicate hmem']
    exact (lt_of_mem_outputHeights hmem).le

theorem count_outputHeights (height : Nat) :
    (outputHeights amount chain).count height = createdAt chain amount height := by
  induction chain with
  | nil => rfl
  | cons b chain ih =>
    rw [outputHeights, count_append, ih, createdAt_cons, count_replicate]
    by_cases heq : height = chain.length
    · rw [if_pos heq, if_pos (beq_iff_eq.mpr heq.symm), createdAt_of_le heq.ge, zero_add]
    · rw [if_neg heq, if_neg fun h => heq (beq_iff_eq.mp h).symm, add_zero]

theorem countP_lt_succ (heights : List Nat) (n : Nat) :
    heights.countP (· < n + 1) = heights.countP (· < n) + heights.count n := by
  induction heights with
  | nil => rfl
  | cons height rest ih =>
    rw [countP_cons, countP_cons, count_cons, ih]
    rcases lt_trichotomy height n with hlt | heq | hgt
    · simp [hlt, hlt.ne, lt_succ_of_lt hlt]
      omega
    · simp [heq]
      omega
    · have h₁ : ¬ height < n + 1 := by omega
      have h₂ : ¬ height < n := by omega
      simp [h₁, h₂, hgt.ne']

theorem countP_outputHeights (height : Nat) :
    (outputHeights amount chain).countP (· < height) = createdBelow chain amount height := by
  induction height with
  | zero => simp [createdBelow]
  | succ height ih => rw [countP_lt_succ, ih, count_outputHeights, createdBelow_succ]

end Created

/-! ## The rows of an amount -/

namespace Tables

variable [LinearOrder H] [LinearOrder K] {E : Env H K P C} {db db' : Tables H K P C}

def rowHeights (db : Tables H K P C) (amount : Nat) : List Nat :=
  (db.outputAmounts.dups amount).map fun row => row.2.height

variable {commitment : Option C} {txHash : H} {outs : List (TxOut P)}

theorem addOutput_rowHeights {amount : Nat} {key : Option P} {localIndex unlockTime : Nat}
    {index : Nat}
    (h : db.addOutput txHash amount key localIndex unlockTime commitment = .ok (db', index))
    (amount' : Nat) : db'.rowHeights amount'
      = db.rowHeights amount' ++ replicate (if amount = amount' then 1 else 0) db.height := by
  obtain ⟨pubkey, -, rfl, -, hbelow, rfl⟩ := addOutput_eq_ok h
  unfold rowHeights
  by_cases heq : amount = amount'
  · subst heq
    rw [Table.dups_put_of_above hbelow, map_append, if_pos rfl]
    rfl
  · rw [Table.dups_put_ne (Ne.symm heq), if_neg heq, replicate_zero, append_nil]

theorem addOutputs_rowHeights {tx : TxBase K P C} {i : Nat} {indices : List Nat}
    (h : addOutputs E tx txHash db i outs = .ok (db', indices)) (amount : Nat) :
    db'.rowHeights amount = db.rowHeights amount
      ++ replicate (outs.countP fun out => tx.storedAmount out = amount) db.height
      ∧ db'.height = db.height := by
  induction outs generalizing db i indices with
  | nil =>
    cases h
    exact ⟨(append_nil _).symm, rfl⟩
  | cons out rest ih =>
    obtain ⟨⟨db₁, index⟩, hadd, h⟩ := bind_eq_ok.mp h
    obtain ⟨⟨db₂, indices'⟩, hrest, h⟩ := bind_eq_ok.mp h
    cases h
    have hheight : db₁.height = db.height := by
      obtain ⟨pubkey, -, -, -, -, rfl⟩ := addOutput_eq_ok hadd
      rfl
    obtain ⟨hrows, hheight'⟩ := ih hrest
    refine ⟨?_, hheight'.trans hheight⟩
    rw [hrows, addOutput_rowHeights hadd, hheight, append_assoc, replicate_append_replicate,
      countP_cons]
    congr 2
    simp only [decide_eq_true_eq]
    exact add_comm _ _

theorem addTransaction_rowHeights {tx : Tx K P C} (h : db.addTransaction E tx txHash = .ok db')
    (amount : Nat) : db'.rowHeights amount
      = db.rowHeights amount ++ replicate (tx.created amount) db.height := by
  obtain ⟨db₁, hinputs, h⟩ := bind_eq_ok.mp h
  obtain ⟨⟨db₂, txId⟩, hdata, h⟩ := bind_eq_ok.mp h
  obtain ⟨⟨db₃, indices⟩, houtputs, h⟩ := bind_eq_ok.mp h
  obtain ⟨txOutputs, -, h⟩ := bind_eq_ok.mp h
  cases h
  obtain ⟨hfields, -, -⟩ := addInputs_eq_ok hinputs
  obtain ⟨-, rfl, -⟩ := addTransactionData_eq_ok hdata
  rw [hfields] at houtputs
  exact (addOutputs_rowHeights houtputs amount).1

theorem addTransactions_rowHeights {pairs : List (Tx K P C × H)}
    (h : db.addTransactions E pairs = .ok db') (amount : Nat) : db'.rowHeights amount
      = db.rowHeights amount
        ++ replicate (pairs.map fun pair => pair.1.created amount).sum db.height := by
  induction pairs generalizing db with
  | nil =>
    cases h
    exact (append_nil _).symm
  | cons pair rest ih =>
    obtain ⟨db₁, hadd, hrest⟩ := bind_eq_ok.mp h
    rw [ih hrest, addTransaction_rowHeights hadd, (addTransaction_eq_ok hadd).height,
      append_assoc, replicate_append_replicate, map_cons, sum_cons]

theorem addBlock_rowHeights {b : NewBlock H K P C} (h : db.addBlock E b = .ok db') (amount : Nat) :
    db'.rowHeights amount = db.rowHeights amount ++ replicate (b.created amount) db.height := by
  obtain ⟨hlength, db₁, htxs, hblock⟩ := addBlock_eq_ok h
  have hrows := addTransactions_rowHeights htxs amount
  obtain ⟨cumRct, -, rfl⟩ := hblock.fields
  have hfst : (b.txs.zip b.block.txHashes).map Prod.fst = b.txs := map_fst_zip hlength.ge
  have hcreated : ((b.pairs E).map fun pair => pair.1.created amount).sum = b.created amount := by
    have hsum := congrArg (map fun tx => tx.created amount) hfst
    rw [map_map] at hsum
    rw [NewBlock.pairs, map_cons, sum_cons, NewBlock.created, ← hsum]
    rfl
  rw [hcreated] at hrows
  exact hrows

/-! ## RingCT outputs -/

theorem addOutput_commitment {amount : Nat} {key : Option P} {localIndex unlockTime : Nat}
    {index : Nat}
    (h : db.addOutput txHash amount key localIndex unlockTime commitment = .ok (db', index)) :
    amount = 0 → commitment ≠ none := by
  obtain ⟨pubkey, -, h⟩ := bind_eq_ok.mp h
  dsimp only at h
  split at h
  · cases h
  · next hrct => exact fun hzero hnone => hrct ⟨hzero, by rw [hnone]; rfl⟩

/-- A transaction of version 1 has no output that is stored under the amount 0: it has no
commitment. -/
theorem addOutputs_created {tx : TxBase K P C} {i : Nat} {indices : List Nat}
    (h : addOutputs E tx txHash db i outs = .ok (db', indices)) (hversion : tx.version ≤ 1) :
    outs.countP (fun out => tx.storedAmount out = 0) = 0 := by
  induction outs generalizing db db' i indices with
  | nil => rfl
  | cons out rest ih =>
    obtain ⟨⟨db₁, index⟩, hadd, h⟩ := bind_eq_ok.mp h
    obtain ⟨⟨db₂, indices'⟩, hrest, h⟩ := bind_eq_ok.mp h
    have hcommitment := addOutput_commitment hadd
    rw [if_neg (by omega), if_neg (by omega)] at hcommitment
    rw [countP_cons, ih hrest, if_neg]
    exact fun hzero => hcommitment (of_decide_eq_true hzero) rfl

theorem addTransaction_created {tx : Tx K P C} (h : db.addTransaction E tx txHash = .ok db')
    (hversion : tx.version ≤ 1) : tx.created 0 = 0 := by
  obtain ⟨db₁, -, h⟩ := bind_eq_ok.mp h
  obtain ⟨⟨db₂, txId⟩, -, h⟩ := bind_eq_ok.mp h
  obtain ⟨⟨db₃, indices⟩, houtputs, -⟩ := bind_eq_ok.mp h
  exact addOutputs_created houtputs hversion

end Tables

/-- One input of the type `txin_gen` in the miner transaction and none elsewhere, the genesis
transaction of version 1 alone in its block, and the versions of the fork table, in which version 4
and above begin at height 2. -/
def NewBlock.Scheduled (height : Nat) (b : NewBlock H K P C) : Prop :=
  (b.block.minerTx.vin = [.gen] ∧ b.block.minerTx.version ≤ 2)
    ∧ (∀ tx ∈ b.txs, .gen ∉ tx.vin ∧ tx.version ≤ 2)
    ∧ (height = 0 → b.block.minerTx.version = 1 ∧ b.txs = [])
    ∧ (2 ≤ height → 4 ≤ b.block.majorVersion)

def ScheduledChain : List (NewBlock H K P C) → Prop
  | [] => True
  | b :: chain => b.Scheduled chain.length ∧ ScheduledChain chain

section Scheduled

open Tables

variable [LinearOrder H] [LinearOrder K] {E : Env H K P C} {b : NewBlock H K P C}

variable {height : Nat}

omit [LinearOrder H] [LinearOrder K] in
theorem NewBlock.Scheduled.regular (h : b.Scheduled height) : b.Regular := by
  obtain ⟨⟨hvin, hversion⟩, htxs, -, -⟩ := h
  refine ⟨⟨hversion, fun _ => hvin⟩, fun tx htx => ⟨(htxs tx htx).2, fun hgen => ?_⟩⟩
  exact absurd hgen (htxs tx htx).1

variable {db : Tables H K P C}

theorem NewBlock.Scheduled.numRctOuts {db' : Tables H K P C} (h : b.Scheduled height)
    (hadd : db.addBlock E b = .ok db') : b.numRctOuts = b.created 0 := by
  obtain ⟨⟨hvin, hversion⟩, htxs, -, -⟩ := h
  obtain ⟨-, db₁, hpairs, -⟩ := addBlock_eq_ok hadd
  obtain ⟨db₂, hminer, -⟩ := bind_eq_ok.mp hpairs
  have hmine : b.block.minerTx.minerTx = true := TxBase.minerTx_iff.mpr (by rw [hvin]; simp)
  unfold NewBlock.numRctOuts NewBlock.created
  congr 1
  · split
    · next htwo =>
      -- the amounts of such a coinbase are all stored as 0
      refine (countP_eq_length.mpr fun out _ => ?_).symm
      rw [decide_eq_true_eq, TxBase.storedAmount, if_pos ⟨hmine, htwo⟩]
    · next hne => exact (addTransaction_created hminer (by omega)).symm
  · congr 1
    refine map_congr_left fun tx htx => ?_
    have hstored : ∀ out, tx.storedAmount out = out.amount :=
      fun out => if_neg fun h => (htxs tx htx).1 (TxBase.minerTx_iff.mp h.1)
    unfold TxBase.created
    simp only [hstored]

theorem Stores.rowHeights (h : Stores E chain db)
    (amount : Nat) : db.rowHeights amount = outputHeights amount chain := by
  induction h with
  | empty => rfl
  | add hstores _ hadd ih =>
    rw [addBlock_rowHeights hadd, ih, hstores.height]
    rfl
  | prune p t s _ _ ih => exact ih

theorem Tables.addTransactions_blockInfo {pairs : List (Tx K P C × H)} {db' : Tables H K P C}
    (h : db.addTransactions E pairs = .ok db') : db'.blockInfo = db.blockInfo := by
  refine addTransactions_induction (I := fun db₁ => db₁.blockInfo = db.blockInfo)
    (fun hadded hold => ?_) h rfl
  rw [hadded.fields]
  exact hold

theorem Stores.genesis (h : Stores E chain db)
    (hchain : ScheduledChain chain) : createdAt chain 0 0 = 0 := by
  induction h with
  | empty => rfl
  | @add chain db db' b hstores _ hadd ih =>
    rw [createdAt_cons]
    split
    · next hzero =>
      obtain ⟨hversion, htxs⟩ := hchain.1.2.2.1 hzero.symm
      rw [← hchain.1.numRctOuts hadd, NewBlock.numRctOuts, if_neg (by omega), htxs]
      rfl
    · exact ih hchain.2
  | prune p t s _ _ ih => exact ih hchain

theorem Stores.blockInfo
    (h : Stores E chain db) (hchain : ScheduledChain chain) (hlt : height < chain.length) :
    ∃ info, db.blockInfo.get? height = some info
      ∧ info.cumRct = createdBelow chain 0 (height + 1) := by
  induction h generalizing height with
  | empty => cases hlt
  | @add chain db db' b hstores _ hadd ih =>
    have hrct := hchain.1.numRctOuts hadd
    obtain ⟨-, db₁, htxs, hblock⟩ := addBlock_eq_ok hadd
    obtain ⟨cumRct, hcumRct, rfl⟩ := hblock.fields
    have hinfo := addTransactions_blockInfo htxs
    have hheight : db₁.height = chain.length := (addTransactions_height htxs).trans hstores.height
    change ∃ info, (db₁.blockInfo.put db₁.height _).get? height = some info ∧ _
    rw [hheight, hinfo]
    rcases Nat.lt_succ_iff_lt_or_eq.mp hlt with hbelow | rfl
    · rw [Table.get?_put_ne hbelow.ne, createdBelow_cons hbelow]
      exact ih hchain.2 hbelow
    · refine ⟨_, Table.get?_put_self, ?_⟩
      rw [createdBelow_succ, createdBelow_cons le_rfl, createdAt_cons, if_pos rfl]
      unfold Tables.cumRct at hcumRct
      rw [hheight, hinfo] at hcumRct
      split at hcumRct
      · -- the total of the block before is carried on
        split at hcumRct
        · cases hcumRct
        · next prev hprev =>
          cases hcumRct
          split at hprev
          · cases hprev
          · next hpos =>
            obtain ⟨info, hget, hcum⟩ := ih hchain.2 (sub_one_lt hpos)
            cases hget.symm.trans hprev
            rw [sub_one_add_one hpos] at hcum
            exact (congrArg₂ (· + ·) hrct hcum).trans (add_comm _ _)
      · -- it is not, but the only block before is the genesis block
        next hversion =>
        cases hcumRct
        have hearly : chain.length < 2 := by
          by_contra hlate
          exact hversion (hchain.1.2.2.2 (by omega))
        have hzero : createdBelow chain 0 chain.length = 0 := by
          interval_cases hlength : chain.length
          · rfl
          · rw [createdBelow_succ, hstores.genesis hchain.2]
            rfl
        exact hrct.trans (by rw [hzero, zero_add])
  | prune p t s _ _ ih => exact ih hchain hlt

end Scheduled

end Glaciem.Db
