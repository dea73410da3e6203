import Glaciem.Lib.Bytes

/-!
# Glaciem — block headers and the block hashing blob

The serialized form of a block as the daemon produces it (`src/cryptonote_basic/cryptonote_basic.h`,
`cryptonote_format_utils.cpp`). `getBlockHashingBlob` are the bytes a miner hashes: the header, the
Merkle root and the transaction count. The Merkle root of a block is the section variable
`getTxTreeHash`.
-/

namespace Glaciem

open Bytes

structure Hash where
  data : List UInt8
  size : data.length = 32
  deriving DecidableEq

def nullHash : Hash := ⟨List.replicate 32 0, by decide⟩

structure BlockHeader where
  majorVersion : UInt8
  minorVersion : UInt8
  timestamp : UInt64
  prevId : Hash
  nonce : UInt32
  deriving DecidableEq

/-- `cryptonote::block`. The miner transaction is carried in its serialized form. -/
structure Block extends BlockHeader where
  minerTx : List UInt8
  txHashes : List Hash
  txHashes_size : txHashes.length < 2 ^ 64
  deriving DecidableEq

theorem noTxHashes_size : ([] : List Hash).length < 2 ^ 64 := by decide

def Block.withNonce (b : Block) (n : UInt32) : Block := { b with nonce := n }

/-! ## Serialization -/

variable (h : BlockHeader)

def BlockHeader.versionBytes : List UInt8 :=
  writeVarint h.majorVersion.toNat ++ writeVarint h.minorVersion.toNat
    ++ writeVarint h.timestamp.toNat

def BlockHeader.beforeNonce : List UInt8 := h.versionBytes ++ h.prevId.data

def BlockHeader.serialize : List UInt8 := h.beforeNonce ++ le32 h.nonce

def BlockHeader.nonceSlot : Nat := h.versionBytes.length + 32

theorem BlockHeader.beforeNonce_length : h.beforeNonce.length = h.nonceSlot := by
  unfold beforeNonce nonceSlot
  rw [List.length_append, h.prevId.size]

theorem BlockHeader.versionBytes_length :
    3 ≤ h.versionBytes.length ∧ h.versionBytes.length ≤ 14 := by
  have hmaj := writeVarint_length_pos h.majorVersion.toNat
  have hmin := writeVarint_length_pos h.minorVersion.toNat
  have hts := writeVarint_length_pos h.timestamp.toNat
  have hmaj' := writeVarint_length_le 1 h.majorVersion.toNat
    (lt_trans h.majorVersion.toNat_lt (by decide))
  have hmin' := writeVarint_length_le 1 h.minorVersion.toNat
    (lt_trans h.minorVersion.toNat_lt (by decide))
  have hts' := writeVarint_length_le 9 h.timestamp.toNat
    (lt_trans h.timestamp.toNat_lt (by decide))
  unfold versionBytes
  rw [List.length_append, List.length_append]
  omega

/-- `block_to_blob`: header, miner transaction, then the counted list of transaction hashes. -/
def blockToBlob (b : Block) : List UInt8 :=
  b.serialize ++ b.minerTx ++ writeVarint b.txHashes.length ++ b.txHashes.flatMap Hash.data

section HashingBlob

-- `get_tx_tree_hash`: the Merkle root over the miner transaction and the transaction hashes.
variable (getTxTreeHash : List UInt8 → List Hash → Hash)

def getBlockHashingBlob (b : Block) : List UInt8 :=
  b.serialize ++ (getTxTreeHash b.minerTx b.txHashes).data
    ++ writeVarint (b.txHashes.length + 1)

/-! ## Both blobs around the nonce

The two blobs share everything up to and including the nonce. -/

theorem getBlockHashingBlob_eq (b : Block) :
    getBlockHashingBlob getTxTreeHash b = b.beforeNonce ++ (le32 b.nonce
      ++ ((getTxTreeHash b.minerTx b.txHashes).data ++ writeVarint (b.txHashes.length + 1))) := by
  simp only [getBlockHashingBlob, BlockHeader.serialize, List.append_assoc]

theorem blockToBlob_eq (b : Block) :
    blockToBlob b = b.beforeNonce ++ (le32 b.nonce
      ++ (b.minerTx ++ (writeVarint b.txHashes.length ++ b.txHashes.flatMap Hash.data))) := by
  simp only [blockToBlob, BlockHeader.serialize, List.append_assoc]

/-- A hashing blob carries the root and at least one count byte after its nonce, and is short: no
buffer check along the mining path refuses one. -/
theorem getBlockHashingBlob_length (b : Block) :
    b.nonceSlot + 37 ≤ (getBlockHashingBlob getTxTreeHash b).length
      ∧ (getBlockHashingBlob getTxTreeHash b).length ≤ 92 := by
  have hcount := writeVarint_length_pos (b.txHashes.length + 1)
  have hcount' := writeVarint_length_le 9 (b.txHashes.length + 1)
    (lt_of_le_of_lt (Nat.succ_le_of_lt b.txHashes_size) (by decide))
  have hroot := (getTxTreeHash b.minerTx b.txHashes).size
  have hver := b.versionBytes_length
  rw [getBlockHashingBlob_eq]
  simp only [List.length_append, BlockHeader.beforeNonce_length, le32_length, hroot,
    BlockHeader.nonceSlot]
  omega

theorem storeLe32_getBlockHashingBlob (b : Block) (n : UInt32) :
    storeLe32 (getBlockHashingBlob getTxTreeHash b) b.nonceSlot n
      = getBlockHashingBlob getTxTreeHash (b.withNonce n) := by
  rw [getBlockHashingBlob_eq, ← BlockHeader.beforeNonce_length, storeLe32_append,
    getBlockHashingBlob_eq]
  rfl

end HashingBlob

theorem storeLe32_blockToBlob (b : Block) (n : UInt32) :
    storeLe32 (blockToBlob b) b.nonceSlot n = blockToBlob (b.withNonce n) := by
  rw [blockToBlob_eq, ← BlockHeader.beforeNonce_length, storeLe32_append, blockToBlob_eq]
  rfl

end Glaciem
