import Glaciem.Lib.Dict
import Glaciem.Chain.Seed

/-!
# Glaciem — hashes computed ahead for a batch of blocks

`prepare_handle_incoming_blocks` of `cryptonote_core/blockchain.cpp` hashes the blocks of a batch in
several threads before they are handled, the `j`-th block for the height the chain has plus `j`, and
with seeds that may be blocks of the batch. `handle_block_to_main_chain` then takes the hash of a
block from this table, if it is there.
-/

namespace Glaciem.Chain

open List Nat

variable {H P : Type}

/-! ## The hash of a block -/

structure WorkHashes (H P : Type) where
  latticeHash : Block H → H → P
  rxSlowHash : H → Block H → P
  cnSlowHash : Block H → (variant height : Nat) → P
  workaround : P

def longhashOf (pow : WorkHashes H P) (b : Block H) (height : Nat) (seed : H) : P :=
  -- "block 202612 bug workaround", tested before any version
  if height = 202612 then pow.workaround
  else if b.majorVersion ≥ HF_VERSION_LATTICE.toNat then pow.latticeHash b seed
  else if b.majorVersion ≥ RX_BLOCK_VERSION.toNat then pow.rxSlowHash seed b
  else
    let variant := if b.majorVersion ≥ HF_VERSION_CRYPTONIGHT_VARIANT_1.toNat
      then b.majorVersion - (HF_VERSION_CRYPTONIGHT_VARIANT_1.toNat - 1) else 0
    pow.cnSlowHash b variant height

def blockLonghash (R : Rules H) (pow : WorkHashes H P) (idByHeight : Nat → H) (b : Block H)
    (height : Nat) : P :=
  longhashOf pow b height
    (if b.majorVersion ≥ RX_BLOCK_VERSION.toNat then idByHeight (seedHeightOf height)
      else R.nullHash)

/-- `get_block_longhash` with no batch in preparation: the seed is a block of the chain. -/
def chainLonghash (R : Rules H) (pow : WorkHashes H P) (chain : List (Entry H)) (b : Block H)
    (height : Nat) : P := blockLonghash R pow (idAt R chain) b height

def workHashesOf (pow : PowHashes) (getTxTreeHash : List UInt8 → List Hash → Hash)
    (encode : Block Hash → Glaciem.Block) : WorkHashes Hash Hash where
  latticeHash b seed := pow.latticeHash (getBlockHashingBlob getTxTreeHash (encode b)) seed
  rxSlowHash seed b := pow.rxSlowHash seed (getBlockHashingBlob getTxTreeHash (encode b))
  cnSlowHash b variant height :=
    pow.cnSlowHash (getBlockHashingBlob getTxTreeHash (encode b)) variant (UInt64.ofNat height)
  workaround := longhash202612

theorem longhashOf_eq (pow : PowHashes) (getTxTreeHash : List UInt8 → List Hash → Hash)
    (encode : Block Hash → Glaciem.Block) (b : Block Hash) {height : Nat} (seed : Hash)
    (hversion : (encode b).majorVersion.toNat = b.majorVersion) (hheight : height < 2 ^ 64) :
    longhashOf (workHashesOf pow getTxTreeHash encode) b height seed
      = getBlockLonghashBlob pow (getBlockHashingBlob getTxTreeHash (encode b))
          (UInt64.ofNat height) (encode b).majorVersion seed := by
  have hspecial : UInt64.ofNat height = 202612 ↔ height = 202612 := by
    constructor
    · intro h
      have := congrArg UInt64.toNat h
      rw [UInt64.toNat_ofNat', mod_eq_of_lt hheight] at this
      exact this
    · rintro rfl
      rfl
  have hge : ∀ v : UInt8, b.majorVersion ≥ v.toNat ↔ (encode b).majorVersion ≥ v := by
    intro v
    rw [← hversion]
    exact UInt8.le_iff_toNat_le.symm
  unfold longhashOf getBlockLonghashBlob
  simp only [hspecial, hge]
  simp only [workHashesOf, hversion]

/-! ## Preparing a batch -/

variable [DecidableEq H]

section Prepare

variable (R : Rules H) (pow : WorkHashes H P) (idByHeight : Nat → H)

def pendingIdByHeight (chain : List (Entry H)) (batch : List (Block H)) (height : Nat) : H :=
  if chain.length ≠ 0 ∧ chain.length ≤ height ∧ height - chain.length < batch.length then
    (batch[height - chain.length]?.map R.blockId).getD R.nullHash
  else idAt R chain height

def longhashWorker : Nat → List (Block H) → Dict H P → Dict H P
  | _, [], map => map
  | height, b :: rest, map =>
    longhashWorker (height + 1) rest
      (map.emplace (R.blockId b) (blockLonghash R pow idByHeight b height))

/-- The maps of the threads from the `i`-th on. A thread takes `batches` blocks, and one more if it
is among the first `extra`. -/
def workerMaps (batches extra : Nat) : Nat → Nat → Nat → List (Block H) → List (Dict H P)
  | 0, _, _, _ => []
  | left + 1, i, height, blocks =>
    let nblocks := if i < extra then batches + 1 else batches
    if nblocks = 0 then []
    else longhashWorker R pow idByHeight height (blocks.take nblocks) Dict.empty
      :: workerMaps batches extra left (i + 1) (height + nblocks) (blocks.drop nblocks)

def preparedTable (threads : Nat) (chain : List (Entry H)) (batch : List (Block H)) : Dict H P :=
  (workerMaps R pow (pendingIdByHeight R chain batch) (batch.length / threads)
    (batch.length % threads) threads 0 chain.length batch).foldl
      (fun table map => table.emplaceAll map.items) Dict.empty

/-- Whether the hashes are computed. The parent of the first block is looked at only if every thread
gets a block. -/
def preparesHashes (threads : Nat) (n : Node H) (batch : List (Block H)) : Bool :=
  (batch.length / threads = 0 || batch.head?.all fun b => b.prevId = topId R n.chain)
    && batch.all fun b => !haveBlock n (R.blockId b)

def prepareHandleIncomingBlocks (threads : Nat) (n : Node H) (batch : List (Block H)) : Dict H P :=
  if preparesHashes R threads n batch then preparedTable R pow threads n.chain batch else Dict.empty

def usingTable (checkHash : P → Nat → Bool) (table : Dict H P) : Rules H :=
  { R with mainWorkOk := fun b height seed difficulty =>
      checkHash ((table.get? (R.blockId b)).getD (longhashOf pow b height seed)) difficulty }

/-! ### The table in closed form -/

def hashedFrom : Nat → List (Block H) → List (H × P)
  | _, [] => []
  | height, b :: rest =>
    (R.blockId b, blockLonghash R pow idByHeight b height) :: hashedFrom (height + 1) rest

variable {R pow idByHeight}

theorem longhashWorker_eq (height : Nat) (blocks : List (Block H)) (map : Dict H P) :
    longhashWorker R pow idByHeight height blocks map
      = map.emplaceAll (hashedFrom R pow idByHeight height blocks) := by
  induction blocks generalizing height map with
  | nil => rfl
  | cons b rest ih => exact ih _ _

omit [DecidableEq H] in
theorem hashedFrom_append (height : Nat) (blocks rest : List (Block H)) :
    hashedFrom R pow idByHeight height (blocks ++ rest)
      = hashedFrom R pow idByHeight height blocks
        ++ hashedFrom R pow idByHeight (height + blocks.length) rest := by
  induction blocks generalizing height with
  | nil => rfl
  | cons b blocks ih =>
    rw [cons_append, hashedFrom, hashedFrom, ih, length_cons, cons_append]
    congr 3
    omega

theorem get?_foldl_workerMaps (batches extra left i height : Nat) (blocks : List (Block H))
    (table : Dict H P) (hall : blocks.length = batches * left + (extra - i))
    (hle : extra ≤ i + left)
    (id : H) :
    ((workerMaps R pow idByHeight batches extra left i height blocks).foldl
      (fun table map => table.emplaceAll map.items) table).get? id
        = (table.get? id).or (Dict.lookupIn id (hashedFrom R pow idByHeight height blocks)) := by
  induction left generalizing i height blocks table with
  | zero =>
    have hnil : blocks = [] := eq_nil_of_length_eq_zero (by omega)
    rw [hnil]
    exact (Option.or_none).symm
  | succ left ih =>
    unfold workerMaps
    dsimp only
    generalize hn : (if i < extra then batches + 1 else batches) = nblocks
    have hsize : nblocks + (batches * left + (extra - (i + 1))) = blocks.length := by
      rw [hall, mul_succ, ← hn]
      split <;> omega
    split
    next hzero =>
      -- no block is left for this thread, hence none for the later ones
      have hbatches : batches = 0 := by
        revert hn
        split <;> omega
      have hnil : blocks = [] := by
        refine eq_nil_of_length_eq_zero ?_
        rw [hbatches] at hn hall
        revert hn
        split <;> omega
      rw [hnil]
      exact (Option.or_none).symm
    next =>
      have hrest : (blocks.drop nblocks).length = batches * left + (extra - (i + 1)) := by
        rw [length_drop]
        omega
      have htaken : (blocks.take nblocks).length = nblocks := by
        rw [length_take]
        omega
      have hitems : ∀ items : List (H × P), ((Dict.empty : Dict H P).emplaceAll items).get? id
          = Dict.lookupIn id items := fun items => Dict.get?_emplaceAll _ _ _
      rw [foldl_cons, ih _ _ _ _ hrest (by omega), Dict.get?_emplaceAll, longhashWorker_eq,
        Option.or_assoc]
      congr 1
      conv_rhs => rw [← take_append_drop nblocks blocks, hashedFrom_append, htaken]
      rw [Dict.lookupIn_append]
      congr 1
      exact hitems _

theorem lookupIn_hashedFrom {height j : Nat} {batch : List (Block H)} {b : Block H}
    (hb : batch[j]? = some b)
    (hfirst : ∀ i c, i < j → batch[i]? = some c → R.blockId c ≠ R.blockId b) :
    Dict.lookupIn (R.blockId b) (hashedFrom R pow idByHeight height batch)
      = some (blockLonghash R pow idByHeight b (height + j)) := by
  induction batch generalizing height j with
  | nil => cases hb
  | cons c rest ih =>
    rw [hashedFrom, Dict.lookupIn]
    cases j with
    | zero =>
      cases hb
      exact if_pos rfl
    | succ j =>
      have hne : R.blockId c ≠ R.blockId b := hfirst 0 c (succ_pos j) rfl
      rw [if_neg hne, ih hb fun i d hi hd => hfirst (i + 1) d (succ_lt_succ hi) hd]
      congr 2
      omega

theorem get?_preparedTable {threads j : Nat} (hthreads : 0 < threads) (chain : List (Entry H))
    {batch : List (Block H)} {b : Block H} (hb : batch[j]? = some b)
    (hfirst : ∀ i c, i < j → batch[i]? = some c → R.blockId c ≠ R.blockId b) :
    (preparedTable R pow threads chain batch).get? (R.blockId b)
      = some (blockLonghash R pow (pendingIdByHeight R chain batch) b (chain.length + j)) := by
  have hall : batch.length = batch.length / threads * threads + (batch.length % threads - 0) := by
    rw [Nat.sub_zero, mul_comm]
    exact (Nat.div_add_mod _ _).symm
  have hle : batch.length % threads ≤ 0 + threads := by
    rw [zero_add]
    exact (mod_lt _ hthreads).le
  unfold preparedTable
  rw [get?_foldl_workerMaps _ _ _ _ _ _ _ hall hle, lookupIn_hashedFrom hb hfirst]
  rfl

end Prepare

/-! ## When the entry is right -/

/-- The hash of a block for its place `j` in the batch takes the same height and seed as on the
chain it is added to: for a block with a seed the block at its seed height counts, for an older one
the height itself. -/
def SameWork (R : Rules H) (chain₀ : List (Entry H)) (batch : List (Block H)) (j : Nat)
    (chain : List (Entry H)) (b : Block H) : Prop :=
  (chain₀.length + j = 202612 ↔ chain.length = 202612)
    ∧ (chain.length ≠ 202612 →
      if b.majorVersion ≥ RX_BLOCK_VERSION.toNat then
        pendingIdByHeight R chain₀ batch (seedHeightOf (chain₀.length + j))
          = idAt R chain (seedHeightOf chain.length)
      else chain₀.length + j = chain.length)

variable {batch : List (Block H)} {chain₀ chain : List (Entry H)} {j : Nat} {R : Rules H}

theorem not_lattice_of_not_rx {version : Nat} (h : ¬ version ≥ RX_BLOCK_VERSION.toNat) :
    ¬ version ≥ HF_VERSION_LATTICE.toNat :=
  fun hle => h (le_trans (by decide) hle)

omit [DecidableEq H] in
theorem blockLonghash_congr {b : Block H} (h : SameWork R chain₀ batch j chain b)
    (pow : WorkHashes H P) :
    blockLonghash R pow (pendingIdByHeight R chain₀ batch) b (chain₀.length + j)
      = chainLonghash R pow chain b chain.length := by
  obtain ⟨hspecial, hwork⟩ := h
  unfold chainLonghash blockLonghash longhashOf
  by_cases hheight : chain.length = 202612
  · rw [if_pos (hspecial.mpr hheight), if_pos hheight]
  · have hwork := hwork hheight
    rw [if_neg (mt hspecial.mp hheight), if_neg hheight]
    by_cases hseed : b.majorVersion ≥ RX_BLOCK_VERSION.toNat
    · rw [if_pos hseed] at hwork
      simp only [if_pos hseed, hwork]
    · rw [if_neg hseed] at hwork
      simp only [if_neg hseed, if_neg (not_lattice_of_not_rx hseed), hwork]

def tellingApart (seed : H) (height : Nat) (hit miss : P) : WorkHashes H P where
  latticeHash _ s := if s = seed then hit else miss
  rxSlowHash s _ := if s = seed then hit else miss
  cnSlowHash _ _ h := if h = height then hit else miss
  workaround := miss

theorem sameWork_of_longhash [Nontrivial P] {b : Block H}
    (h : ∀ pow : WorkHashes H P, blockLonghash R pow (pendingIdByHeight R chain₀ batch) b
      (chain₀.length + j) = chainLonghash R pow chain b chain.length) :
    SameWork R chain₀ batch j chain b := by
  obtain ⟨hit, miss, hne⟩ := exists_pair_ne P
  have hspecial : chain₀.length + j = 202612 ↔ chain.length = 202612 := by
    -- the constant of the workaround against all other values
    have hconst := h ⟨fun _ _ => hit, fun _ _ => hit, fun _ _ _ => hit, miss⟩
    unfold chainLonghash blockLonghash longhashOf at hconst
    simp only [ite_self] at hconst
    grind
  refine ⟨hspecial, fun hheight => ?_⟩
  have htell := h (tellingApart (idAt R chain (seedHeightOf chain.length)) chain.length hit miss)
  unfold chainLonghash blockLonghash longhashOf tellingApart at htell
  rw [if_neg (mt hspecial.mp hheight), if_neg hheight] at htell
  split
  · next hseed =>
    simp only [if_pos hseed, ite_self, if_true] at htell
    exact by_contra fun hother => hne (ite_eq_left_iff.mp htell hother).symm
  · next hseed =>
    simp only [if_neg hseed, if_neg (not_lattice_of_not_rx hseed), if_true] at htell
    exact by_contra fun hother => hne (ite_eq_left_iff.mp htell hother).symm

omit [DecidableEq H] in
/-- Below the place a block has in the batch, the ids of the preparation are those of the chain with
the blocks before it. -/
theorem pendingIdByHeight_eq {height : Nat} (hne : chain₀ ≠ [])
    (hj : j ≤ batch.length) (hids : idsOf chain = idsOf chain₀ ++ (batch.take j).map R.blockId)
    (hheight : height < chain₀.length + j) :
    pendingIdByHeight R chain₀ batch height = idAt R chain height := by
  have hlength : (idsOf chain₀).length = chain₀.length := length_map ..
  unfold pendingIdByHeight idAt
  rw [hids]
  by_cases hold : height < chain₀.length
  · rw [if_neg fun h => not_lt.mpr h.2.1 hold, getElem?_append_left (hlength.symm ▸ hold)]
  · have hpos : chain₀.length ≠ 0 := fun h => hne (eq_nil_of_length_eq_zero h)
    rw [if_pos ⟨hpos, Nat.le_of_not_lt hold, by omega⟩, getElem?_append_right (by omega),
      getElem?_map, getElem?_take, if_pos (by omega), hlength]

omit [DecidableEq H] in
/-- A block that comes after all blocks before it in the batch, on the chain of the preparation,
is hashed as on that chain. -/
theorem sameWork_in_order (hne : chain₀ ≠ []) (hj : j ≤ batch.length)
    (hids : idsOf chain = idsOf chain₀ ++ (batch.take j).map R.blockId) (b : Block H) :
    SameWork R chain₀ batch j chain b := by
  have hlength : chain₀.length + j = chain.length := by
    have := congrArg length hids
    simp only [idsOf, length_append, length_map, length_take] at this
    omega
  have hpos : 0 < chain₀.length := length_pos_iff.mpr hne
  have hseed : seedHeightOf (chain₀.length + j) < chain₀.length + j := by
    rcases seedHeightOf_le (chain₀.length + j) with hzero | hle <;> omega
  refine ⟨by rw [hlength], fun _ => ?_⟩
  split
  · rw [pendingIdByHeight_eq hne hj hids hseed, hlength]
  · exact hlength

/-- For every batch, number of threads and preparation, and every block that passes its other
checks: whatever the hash functions, the table's entry is accepted only if it is the block's hash on
the chain, if and only if its place in the batch gives the same work. It does when the blocks before
it were added in order. -/
theorem precomputed_longhash_iff [Nontrivial P] (R : Rules H) {threads : Nat}
    (hthreads : 0 < threads) (n₀ : Node H) (batch : List (Block H))
    (hprepares : preparesHashes R threads n₀ batch = true) {j : Nat} {b : Block H}
    (hb : batch[j]? = some b)
    (hfirst : ∀ i c, i < j → batch[i]? = some c → R.blockId c ≠ R.blockId b)
    (now : Nat) (n : Node H) (extra : List (Tx H))
    (hvalid : (handleBlockToMainChain { R with mainWorkOk := fun _ _ _ _ => true } now n b extra).2
      = true) :
    ((∀ (pow : WorkHashes H P) (checkHash : P → Nat → Bool) (table : Dict H P),
        table = prepareHandleIncomingBlocks R pow threads n₀ batch →
        (handleBlockToMainChain (usingTable R pow checkHash table) now n b extra).2 = true →
          table.get? (R.blockId b) = some (chainLonghash R pow n.chain b n.chain.length))
      ↔ SameWork R n₀.chain batch j n.chain b)
    ∧ (n₀.chain ≠ [] → idsOf n.chain = idsOf n₀.chain ++ (batch.take j).map R.blockId →
        SameWork R n₀.chain batch j n.chain b) := by
  have hentry : ∀ pow : WorkHashes H P,
      (prepareHandleIncomingBlocks R pow threads n₀ batch).get? (R.blockId b)
        = some (blockLonghash R pow (pendingIdByHeight R n₀.chain batch) b
            (n₀.chain.length + j)) := by
    intro pow
    rw [prepareHandleIncomingBlocks, if_pos hprepares]
    exact get?_preparedTable hthreads n₀.chain hb hfirst
  refine ⟨⟨fun h => ?_, ?_⟩, fun hne hids => ?_⟩
  · -- a comparison that every hash passes accepts the block with any table
    refine sameWork_of_longhash fun (pow : WorkHashes H P) => ?_
    have hright := h pow (fun _ _ => true) _ rfl hvalid
    rw [hentry] at hright
    exact Option.some.inj hright
  · rintro h pow checkHash table rfl _
    rw [hentry, blockLonghash_congr h]
  · exact sameWork_in_order hne (List.getElem?_eq_some_iff.mp hb).1.le hids b

def plainBlock (id height prev : Nat) (coins : UInt64) : Block Nat where
  majorVersion := 18
  minorVersion := 18
  timestamp := afterLaunch (120 * height)
  prevId := prev
  nonce := UInt32.ofNat id
  minerTx :=
    { id := 10000 + id, version := 2, unlockTime := height + 60, genHeight := some height
      rctTypeNull := true, vout := [baseReward coins 18], weight := 100 }
  txHashes := []

/-- A chain of 2111 blocks: two more, and the seed is the block 2048 and no longer the first. -/
def epochNode : Node Nat where
  chain := (range 2111).map fun height =>
    ⟨plainBlock (height + 1) height height 0, height + 1, height + 1, 0, 100, []⟩
  alts := []
  pool := []
  invalid := []
  hardFork := { currentForkIndex := 1 }
  cache := { topHash := 0 }
  weightMedian := 0

def epochBatch : List (Block Nat) :=
  [plainBlock 3001 2111 2111 0, plainBlock 3002 2110 2110 0,
    plainBlock 3003 2112 3001 (addCoins 0 (baseReward 0 18))]

def epochHashes : WorkHashes Nat Nat where
  latticeHash b seed := b.nonce.toNat * 10000 + seed
  rxSlowHash seed b := b.nonce.toNat * 10000 + seed
  cnSlowHash _ _ _ := 0
  workaround := 0

/-- The two blocks that end the epoch and the first one of the next. -/
def orderedBatch : List (Block Nat) :=
  let coins := addCoins 0 (baseReward 0 18)
  [plainBlock 3001 2111 2111 0, plainBlock 3003 2112 3001 coins,
    plainBlock 3004 2113 3003 (addCoins coins (baseReward coins 18))]

def epochEnd : List (Event Nat) :=
  (orderedBatch.take 2).map (.addNewBlock (afterLaunch 300000) 1 · [])

theorem precomputed_longhash_across_epoch : ∃ n b, orderedBatch[2]? = some b
    ∧ (blockchain openRules).exec epochNode epochEnd = some n
    ∧ (prepareHandleIncomingBlocks openRules epochHashes 4 epochNode orderedBatch).get? 3004
      = some (chainLonghash openRules epochHashes n.chain b n.chain.length) := by
  have hrun : ((blockchain openRules).exec epochNode epochEnd).bind (fun n => orderedBatch[2]?.map
      fun b => (preparesHashes openRules 4 epochNode orderedBatch, openRules.blockId b,
        (handleBlockToMainChain openRules (afterLaunch 300000) n b []).2,
        decide (idsOf n.chain = idsOf epochNode.chain ++ [3001, 3003])))
      = some (true, 3004, true, true) := by
    decide +kernel
  obtain ⟨n, hn, hrest⟩ := Option.bind_eq_some_iff.mp hrun
  obtain ⟨b, hb, hvalues⟩ := Option.map_eq_some_iff.mp hrest
  obtain ⟨hprepares, hid, hvalid, hids⟩ : _ ∧ _ ∧ _ ∧ _ := by
    simpa only [Prod.mk.injEq] using hvalues
  have hnew : ∀ c ∈ orderedBatch.take 2, openRules.blockId c ≠ openRules.blockId b := by
    rw [hid]
    decide
  obtain ⟨hiff, hinOrder⟩ := precomputed_longhash_iff (P := Nat) openRules (by decide : 0 < 4)
    epochNode orderedBatch hprepares hb
    (fun i c hi hc => hnew c (mem_of_getElem? ((getElem?_take_of_lt hi).trans hc))) _ n [] hvalid
  have hentry := hiff.mpr (hinOrder (by simp [epochNode]) (of_decide_eq_true hids)) epochHashes
    (fun _ _ => true) _ rfl hvalid
  rw [hid] at hentry
  exact ⟨n, b, hb, hn, hentry⟩

def epochTable : Dict Nat Nat :=
  prepareHandleIncomingBlocks openRules epochHashes 4 epochNode epochBatch

def epochRules : Rules Nat :=
  usingTable openRules epochHashes (fun hash _ => hash ≠ 30030001) epochTable

/-- The block beside the tip is stored as an alternative one and takes no height, so the last one is
hashed for the height after its own. -/
theorem precomputed_longhash_of_next_epoch :
    ((addNewBlock epochRules (afterLaunch 300000) 1 epochNode
        (plainBlock 3001 2111 2111 0) []).bind fun r₀ =>
      (addNewBlock epochRules (afterLaunch 300000) 1 r₀.1
        (plainBlock 3002 2110 2110 0) []).bind fun r₁ =>
      (addNewBlock epochRules (afterLaunch 300000) 1 r₁.1
        (plainBlock 3003 2112 3001 (addCoins 0 (baseReward 0 18))) []).map fun r₂ =>
        (r₀.2 && r₁.2 && r₂.2, [r₁.1.chain.length, r₁.1.alts.length, idAt openRules r₂.1.chain 2112,
          chainLonghash openRules epochHashes r₁.1.chain
            (plainBlock 3003 2112 3001 (addCoins 0 (baseReward 0 18))) 2112,
          (epochTable.get? 3003).getD 0]))
      = some (true, [2112, 1, 3003, 30030001, 30032049]) := by
  decide +kernel

end Glaciem.Chain
