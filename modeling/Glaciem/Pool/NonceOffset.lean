import Glaciem.Block.Header

/-!
# Glaciem — where the pool and the miner put the nonce

A miner finds the nonce slot of a hashing blob by parsing the three leading varints (`nonce_offset`,
`pow/app/miner_core.m`). The pool finds it by scanning for the first four zero bytes from offset 34
on (`find_nonce_offset` / `find_nonce_offset_buf`, `pool/server/pool-server.py`). Offset 34 lies
inside `prev_id`, so the scan can stop early.
-/

namespace Glaciem

open List

open Bytes

/-! ## The miner's side (`pow/app/miner_core.m`) -/

/-- The loop of `nonce_offset`: skip `v` varints from offset `p` on, as far as the blob
reaches. -/
def skipVarints (blob : List UInt8) : Nat → Nat → Nat
  | 0, p => p
  | v + 1, p =>
    if p < blob.length then skipVarints blob v (p + varintSpan (blob.drop p)) else p

def nonceOffset (blob : List UInt8) : Nat := skipVarints blob 3 0 + 32

/-- The bytes the mining loop hashes for the nonce `nn`, `none` when it skips the template. -/
def minerHashInput (hb : List UInt8) (nn : UInt32) : Option (List UInt8) :=
  if hb.length < 1 ∨ hb.length > 250 then none
  else if nonceOffset hb + 4 > hb.length then none
  else some (storeLe32 hb (nonceOffset hb) nn)

/-! ## The pool's side (`pool/server/pool-server.py`, `pool_verify.c`) -/

def findNonceOffsetBuf (buf : List UInt8) : Nat := scanZeroWord buf 34 80 39

def findNonceOffset (buf : List UInt8) : Nat := scanZeroWord buf 34 80 39

/-- The buffer `pool_verify_share` and `pool_verify_share_v2` hash, `none` when they return
`-1` for bad arguments. -/
def poolVerifyShareInput (blob : List UInt8) (nonceOffset : Nat) (nonce : UInt32) :
    Option (List UInt8) :=
  if blob.length ≤ 0 ∨ blob.length > 256 then none
  else if nonceOffset + 4 > blob.length then none
  else some (storeLe32 blob nonceOffset nonce)

/-- The bytes `verify_share_against_job` has hashed for a job's hashing blob. -/
def verifyShareInput (blob : List UInt8) (nonce : UInt32) : Option (List UInt8) :=
  poolVerifyShareInput blob (findNonceOffsetBuf blob) nonce

/-- The template blob `submit_block` sends to the daemon, `none` when it answers
"nonce offset OOB". -/
def submitBlockBlob (tb hb : List UInt8) (nonce : UInt32) : Option (List UInt8) :=
  if findNonceOffset hb + 4 > tb.length then none
  else some (storeLe32 tb (findNonceOffset hb) nonce)

/-! ## The miner's parse finds the slot -/

section

variable (getTxTreeHash : List UInt8 → List Hash → Hash)

theorem skipVarints_append (pre : List UInt8) (i : Nat) (rest : List UInt8) (v : Nat) :
    skipVarints (pre ++ (writeVarint i ++ rest)) (v + 1) pre.length
      = skipVarints (pre ++ (writeVarint i ++ rest)) v (pre.length + (writeVarint i).length) := by
  have hpos := writeVarint_length_pos i
  rw [skipVarints, if_pos (by simp only [length_append]; omega), drop_left,
    varintSpan_writeVarint_append]

variable (b : Block)

theorem nonceOffset_getBlockHashingBlob :
    nonceOffset (getBlockHashingBlob getTxTreeHash b) = b.nonceSlot := by
  set maj := writeVarint b.majorVersion.toNat with hmaj
  set min := writeVarint b.minorVersion.toNat with hmin
  set ts := writeVarint b.timestamp.toNat with hts
  set rest := b.prevId.data ++ (le32 b.nonce ++ ((getTxTreeHash b.minerTx b.txHashes).data
    ++ writeVarint (b.txHashes.length + 1))) with hrest
  have hblob : getBlockHashingBlob getTxTreeHash b = maj ++ (min ++ (ts ++ rest)) := by
    rw [getBlockHashingBlob_eq, BlockHeader.beforeNonce, BlockHeader.versionBytes]
    simp only [hmaj, hmin, hts, hrest, append_assoc]
  -- skip one varint after the other, each from the end of the ones before it
  have h1 := skipVarints_append [] b.majorVersion.toNat (min ++ (ts ++ rest)) 2
  have h2 := skipVarints_append maj b.minorVersion.toNat (ts ++ rest) 1
  have h3 := skipVarints_append (maj ++ min) b.timestamp.toNat rest 0
  simp only [nil_append, length_nil, zero_add, ← hmaj] at h1
  simp only [append_assoc, length_append, ← hts] at h3
  unfold nonceOffset
  rw [hblob, h1, h2, h3, skipVarints]
  unfold BlockHeader.nonceSlot BlockHeader.versionBytes
  simp only [length_append]
  rfl

theorem minerHashInput_getBlockHashingBlob (n : UInt32) :
    minerHashInput (getBlockHashingBlob getTxTreeHash b) n
      = some (getBlockHashingBlob getTxTreeHash (b.withNonce n)) := by
  have hlen := getBlockHashingBlob_length getTxTreeHash b
  unfold minerHashInput
  rw [if_neg (by omega), nonceOffset_getBlockHashingBlob, if_neg (by omega),
    storeLe32_getBlockHashingBlob]

/-! ## The pool's scan

Before the nonce slot the scan crosses the bytes of `prev_id` from index `34 - versionBytes.length`
on. -/

/-- The part of `prev_id` the scan crosses stops no scan: its last byte is not zero (a zero
there joins the zero nonce), and it holds no four zero bytes in a row from offset 34 on. -/
def BlockHeader.PrevIdClear (h : BlockHeader) : Prop :=
  h.prevId.data[31]? ≠ some 0 ∧
    ∀ i, 34 ≤ h.versionBytes.length + i → i + 3 < 32 → zeroWordAt h.prevId.data i = false

theorem getBlockHashingBlob_prevId {i : Nat} (hi : i < 32) :
    (getBlockHashingBlob getTxTreeHash b)[b.versionBytes.length + i]? = b.prevId.data[i]? := by
  have hsize := b.prevId.size
  rw [getBlockHashingBlob_eq, BlockHeader.beforeNonce, append_assoc,
    getElem?_append_right (by omega), Nat.add_sub_cancel_left, getElem?_append_left (by omega)]

theorem getBlockHashingBlob_nonce (hn : b.nonce = 0) {k : Nat} (hk : k < 4) :
    (getBlockHashingBlob getTxTreeHash b)[b.nonceSlot + k]? = some 0 := by
  rw [getBlockHashingBlob_eq, ← BlockHeader.beforeNonce_length,
    getElem?_append_right (by omega), Nat.add_sub_cancel_left,
    getElem?_append_left (by simpa using hk), hn]
  interval_cases k <;> rfl

theorem zeroWordAt_nonceSlot (hn : b.nonce = 0) :
    zeroWordAt (getBlockHashingBlob getTxTreeHash b) b.nonceSlot = true := by
  rw [zeroWordAt_iff]
  intro k hk
  exact getBlockHashingBlob_nonce getTxTreeHash b hn hk

theorem no_zeroWord_before_nonceSlot_iff (hn : b.nonce = 0) :
    (∀ j, 34 ≤ j → j < b.nonceSlot →
        zeroWordAt (getBlockHashingBlob getTxTreeHash b) j = false)
      ↔ b.PrevIdClear := by
  have hver := b.versionBytes_length
  have hslot : b.nonceSlot = b.versionBytes.length + 32 := rfl
  constructor
  · intro hnone
    refine ⟨fun hlast => ?_, fun i hi hi3 => ?_⟩
    · -- a zero last byte and the first three nonce bytes make a zero word one offset early
      have hz : zeroWordAt (getBlockHashingBlob getTxTreeHash b) (b.versionBytes.length + 31)
          = true := by
        rw [zeroWordAt_iff]
        intro k hk
        rcases Nat.eq_zero_or_pos k with rfl | hpos
        · rw [add_zero, getBlockHashingBlob_prevId _ _ (by decide), hlast]
        · have hnonce := getBlockHashingBlob_nonce getTxTreeHash b hn (k := k - 1) (by omega)
          rw [show b.versionBytes.length + 31 + k = b.nonceSlot + (k - 1) from by omega]
          exact hnonce
      rw [hnone _ (by omega) (by omega)] at hz
      exact absurd hz (by decide)
    · have hj := hnone (b.versionBytes.length + i) hi (by omega)
      rw [Bool.eq_false_iff] at hj ⊢
      intro hz
      apply hj
      rw [zeroWordAt_iff] at hz ⊢
      intro k hk
      rw [add_assoc, getBlockHashingBlob_prevId _ _ (by omega)]
      exact hz k hk
  · rintro ⟨hlast, hclear⟩ j hj34 hjslot
    rw [Bool.eq_false_iff]
    intro hz
    rw [zeroWordAt_iff] at hz
    obtain ⟨i, rfl⟩ : ∃ i, j = b.versionBytes.length + i := ⟨j - b.versionBytes.length, by omega⟩
    rcases lt_or_ge (i + 3) 32 with hin | hout
    · -- the word lies inside `prev_id`
      have hzi : zeroWordAt b.prevId.data i = true := by
        rw [zeroWordAt_iff]
        intro k hk
        have := hz k hk
        rwa [add_assoc, getBlockHashingBlob_prevId _ _ (by omega)] at this
      rw [hclear i hj34 hin] at hzi
      exact absurd hzi (by decide)
    · -- the word reaches past `prev_id`, so it covers its last byte
      have hb := hz (31 - i) (by omega)
      rw [show b.versionBytes.length + i + (31 - i) = b.versionBytes.length + 31 from by omega,
        getBlockHashingBlob_prevId _ _ (by decide)] at hb
      exact hlast hb

theorem findNonceOffset_eq_nonceSlot_iff (hn : b.nonce = 0) :
    findNonceOffset (getBlockHashingBlob getTxTreeHash b) = b.nonceSlot ↔ b.PrevIdClear := by
  have hlen := getBlockHashingBlob_length getTxTreeHash b
  have hver := b.versionBytes_length
  have hslot : b.nonceSlot = b.versionBytes.length + 32 := rfl
  rw [← no_zeroWord_before_nonceSlot_iff getTxTreeHash b hn]
  exact scanZeroWord_eq_iff (by omega) (by omega) (zeroWordAt_nonceSlot getTxTreeHash b hn)

/-! ## Agreement of pool, daemon and miner -/

/-- The pool places the nonce where the block serialization and the miner have it, and for every
nonce it verifies the bytes the miner hashed, and sends the daemon a block whose hashing blob is
those bytes. -/
def PoolAgreesWithMiner : Prop :=
  let hb := getBlockHashingBlob getTxTreeHash b
  findNonceOffset hb = b.nonceSlot ∧ findNonceOffsetBuf hb = b.nonceSlot
    ∧ nonceOffset hb = b.nonceSlot
    ∧ ∀ n : UInt32, ∃ bytes b', minerHashInput hb n = some bytes
        ∧ verifyShareInput hb n = some bytes
        ∧ submitBlockBlob (blockToBlob b) hb n = some (blockToBlob b')
        ∧ getBlockHashingBlob getTxTreeHash b' = bytes

theorem verifyShareInput_of_nonceSlot (n : UInt32)
    (hoff : findNonceOffsetBuf (getBlockHashingBlob getTxTreeHash b) = b.nonceSlot) :
    verifyShareInput (getBlockHashingBlob getTxTreeHash b) n
      = some (getBlockHashingBlob getTxTreeHash (b.withNonce n)) := by
  have hlen := getBlockHashingBlob_length getTxTreeHash b
  unfold verifyShareInput poolVerifyShareInput
  rw [hoff, if_neg (by omega), if_neg (by omega), storeLe32_getBlockHashingBlob]

theorem submitBlockBlob_of_nonceSlot (n : UInt32)
    (hoff : findNonceOffset (getBlockHashingBlob getTxTreeHash b) = b.nonceSlot) :
    submitBlockBlob (blockToBlob b) (getBlockHashingBlob getTxTreeHash b) n
      = some (blockToBlob (b.withNonce n)) := by
  have hlen : b.nonceSlot + 4 ≤ (blockToBlob b).length := by
    rw [blockToBlob_eq]
    simp only [length_append, BlockHeader.beforeNonce_length, le32_length]
    omega
  unfold submitBlockBlob
  rw [hoff, if_neg (by omega), storeLe32_blockToBlob]

/-- **Nonce placement.** On a template with zero nonce, pool, daemon and miner agree for every nonce
exactly when the scanned tail of `prev_id` is clear. -/
theorem pool_agrees_with_miner_iff (b : Block) (hn : b.nonce = 0) :
    PoolAgreesWithMiner getTxTreeHash b ↔ b.PrevIdClear := by
  rw [← findNonceOffset_eq_nonceSlot_iff getTxTreeHash b hn]
  constructor
  · intro h
    exact h.1
  · intro hoff
    refine ⟨hoff, hoff, nonceOffset_getBlockHashingBlob getTxTreeHash b, fun n => ?_⟩
    exact ⟨_, b.withNonce n, minerHashInput_getBlockHashingBlob getTxTreeHash b n,
      verifyShareInput_of_nonceSlot getTxTreeHash b n hoff,
      submitBlockBlob_of_nonceSlot getTxTreeHash b n hoff, rfl⟩

end

def templateOn (prevId : Hash) : Block where
  majorVersion := 18
  minorVersion := 18
  timestamp := 1779000000
  prevId := prevId
  nonce := 0
  minerTx := []
  txHashes := []
  txHashes_size := noTxHashes_size

theorem pool_agrees_on_clear_template :
    (templateOn ⟨replicate 32 1, rfl⟩).nonce = 0
      ∧ PoolAgreesWithMiner (fun _ _ => nullHash) (templateOn ⟨replicate 32 1, rfl⟩) := by
  have hwords : ∀ i < 29, zeroWordAt (replicate 32 1) i = false := by decide +kernel
  have hclear : (templateOn ⟨replicate 32 1, rfl⟩).PrevIdClear :=
    ⟨by decide, fun i _ hi => hwords i (by omega)⟩
  exact ⟨rfl, (pool_agrees_with_miner_iff _ _ rfl).mpr hclear⟩

/-- A previous block hash that ends in a zero byte moves the pool's slot one byte down: 38
where the nonce is at 39. -/
theorem pool_disagrees_when_prevId_ends_in_zero :
    (templateOn ⟨replicate 31 1 ++ [0], rfl⟩).nonce = 0
      ∧ (templateOn ⟨replicate 31 1 ++ [0], rfl⟩).nonceSlot = 39
      ∧ findNonceOffset (getBlockHashingBlob (fun _ _ => nullHash)
          (templateOn ⟨replicate 31 1 ++ [0], rfl⟩)) = 38
      ∧ ¬ PoolAgreesWithMiner (fun _ _ => nullHash)
          (templateOn ⟨replicate 31 1 ++ [0], rfl⟩) := by
  have hslot : (templateOn ⟨replicate 31 1 ++ [0], rfl⟩).nonceSlot = 39 := by
    decide +kernel
  have hfind : findNonceOffset (getBlockHashingBlob (fun _ _ => nullHash)
      (templateOn ⟨replicate 31 1 ++ [0], rfl⟩)) = 38 := by
    decide +kernel
  refine ⟨rfl, hslot, hfind, fun hagree => ?_⟩
  have hoff := hagree.1
  rw [hfind, hslot] at hoff
  exact absurd hoff (by decide)

end Glaciem
