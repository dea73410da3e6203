import Glaciem.Block.Header

/-!
# Glaciem — proof-of-work dispatch on the main and the alternative chain

Two dispatchers choose the proof-of-work function of a block. The main chain goes through
`get_block_longhash` (`cryptonote_format_utils.cpp`, wrapped in `cryptonote_tx_utils.cpp`), which
sees the height; an alternative block goes through `get_altblock_longhash`, which does not. The hash
functions themselves are parameters (`PowHashes`).
-/

namespace Glaciem

open Bytes

def HF_VERSION_LATTICE : UInt8 := 18

def RX_BLOCK_VERSION : UInt8 := 12

def HF_VERSION_CRYPTONIGHT_VARIANT_1 : UInt8 := 7

/-- The proof-of-work functions the dispatchers choose from. -/
structure PowHashes where
  latticeHash : List UInt8 → Hash → Hash
  rxSlowHash : Hash → List UInt8 → Hash
  cnSlowHash : List UInt8 → Nat → UInt64 → Hash

def longhash202612 : Hash :=
  ⟨[0x84, 0xf6, 0x47, 0x66, 0x47, 0x5d, 0x51, 0x83, 0x7a, 0xc9, 0xef, 0xbe, 0xf1, 0x92, 0x64,
    0x86, 0xe5, 0x85, 0x63, 0xc9, 0x5a, 0x19, 0xfe, 0xf4, 0xae, 0xc3, 0x25, 0x4f, 0x03, 0x00,
    0x00, 0x00], rfl⟩

/-- The seed epoch parameters of `rx-slow-hash.c` (2048 and 64 unless the environment shortens
them). -/
structure SeedEpoch where
  blocks : UInt64 := 2048
  lag : UInt64 := 64

def rxSeedheight (epoch : SeedEpoch) (height : UInt64) : UInt64 :=
  if height ≤ epoch.blocks + epoch.lag then 0
  else (height - epoch.lag - 1) &&& ~~~ (epoch.blocks - 1)

section Dispatch

variable (pow : PowHashes) (getTxTreeHash : List UInt8 → List Hash → Hash) (epoch : SeedEpoch)

def getBlockLonghashBlob (blob : List UInt8) (height : UInt64) (majorVersion : UInt8)
    (seedHash : Hash) : Hash :=
  -- "block 202612 bug workaround", tested before any version
  if height = 202612 then longhash202612
  else if majorVersion ≥ HF_VERSION_LATTICE then pow.latticeHash blob seedHash
  else if majorVersion ≥ RX_BLOCK_VERSION then pow.rxSlowHash seedHash blob
  else
    let powVariant := if majorVersion ≥ HF_VERSION_CRYPTONIGHT_VARIANT_1
      then majorVersion.toNat - (HF_VERSION_CRYPTONIGHT_VARIANT_1.toNat - 1) else 0
    pow.cnSlowHash blob powVariant height

/-- `pbc` is the chain's block-id lookup (`get_pending_block_id_by_height`), absent when the caller
passes no chain; `seedHash` is the caller's seed pointer. -/
def getBlockLonghash (pbc : Option (UInt64 → Hash)) (b : Block) (height : UInt64)
    (seedHash : Option Hash) : Hash :=
  let seed := match pbc with
    | some idByHeight =>
      if b.majorVersion ≥ RX_BLOCK_VERSION
      then seedHash.getD (idByHeight (rxSeedheight epoch height)) else nullHash
    | none => nullHash
  getBlockLonghashBlob pow (getBlockHashingBlob getTxTreeHash b) height b.majorVersion seed

def getAltblockLonghash (b : Block) (seedHash : Hash) : Hash :=
  let bd := getBlockHashingBlob getTxTreeHash b
  if b.majorVersion ≥ HF_VERSION_LATTICE then pow.latticeHash bd seedHash
  else pow.rxSlowHash seedHash bd

/-- On a chain, from the RandomX version on, the wrapper hashes with the caller's seed, or else with
the id of the seed block. -/
theorem getBlockLonghash_eq (idByHeight : UInt64 → Hash) (b : Block) (height : UInt64)
    (seedHash : Option Hash) (hv : b.majorVersion ≥ RX_BLOCK_VERSION) :
    getBlockLonghash pow getTxTreeHash epoch (some idByHeight) b height seedHash
      = getBlockLonghashBlob pow (getBlockHashingBlob getTxTreeHash b) height b.majorVersion
          (seedHash.getD (idByHeight (rxSeedheight epoch height))) := by
  simp only [getBlockLonghash, if_pos hv]

/-- From the Lattice version on the blob-level dispatcher is `lattice_hash`, except at the
height of the workaround. -/
theorem getBlockLonghashBlob_lattice (blob : List UInt8) (height : UInt64) {majorVersion : UInt8}
    (seedHash : Hash) (hv : majorVersion ≥ HF_VERSION_LATTICE) :
    getBlockLonghashBlob pow blob height majorVersion seedHash
      = if height = 202612 then longhash202612 else pow.latticeHash blob seedHash := by
  simp only [getBlockLonghashBlob, if_pos hv]

theorem getAltblockLonghash_lattice (b : Block) (seedHash : Hash)
    (hv : b.majorVersion ≥ HF_VERSION_LATTICE) :
    getAltblockLonghash pow getTxTreeHash b seedHash
      = pow.latticeHash (getBlockHashingBlob getTxTreeHash b) seedHash := by
  simp only [getAltblockLonghash, if_pos hv]

/-- **The two paths agree.** For a Lattice block, the main-chain hash is `lattice_hash` of the
hashing blob and the alternative-chain hash exactly when the height is not 202612 (or the hash of
the workaround happens to be the block's own). -/
theorem longhash_paths_agree_iff (idByHeight : UInt64 → Hash) (b : Block) (height : UInt64)
    (seedHash : Option Hash) (hv : b.majorVersion ≥ HF_VERSION_LATTICE) :
    (getBlockLonghash pow getTxTreeHash epoch (some idByHeight) b height seedHash
        = pow.latticeHash (getBlockHashingBlob getTxTreeHash b)
            (seedHash.getD (idByHeight (rxSeedheight epoch height)))
      ∧ getBlockLonghash pow getTxTreeHash epoch (some idByHeight) b height seedHash
        = getAltblockLonghash pow getTxTreeHash b
            (seedHash.getD (idByHeight (rxSeedheight epoch height))))
      ↔ height ≠ 202612 ∨ pow.latticeHash (getBlockHashingBlob getTxTreeHash b)
            (seedHash.getD (idByHeight (rxSeedheight epoch height))) = longhash202612 := by
  have hrx : b.majorVersion ≥ RX_BLOCK_VERSION :=
    UInt8.le_trans (by decide : RX_BLOCK_VERSION ≤ HF_VERSION_LATTICE) hv
  rw [getBlockLonghash_eq pow getTxTreeHash epoch idByHeight b height seedHash hrx,
    getBlockLonghashBlob_lattice pow _ height _ hv, getAltblockLonghash_lattice _ _ _ _ hv]
  by_cases hheight : height = 202612
  · rw [if_pos hheight]
    constructor
    · rintro ⟨h, _⟩
      exact Or.inr h.symm
    · rintro (h | h)
      · exact absurd hheight h
      · exact ⟨h.symm, h.symm⟩
  · rw [if_neg hheight]
    exact ⟨fun _ => Or.inl hheight, fun _ => ⟨rfl, rfl⟩⟩

end Dispatch

/-! ## A Lattice block at the special height -/

def latticeBlock : Block where
  majorVersion := 18
  minorVersion := 18
  timestamp := 1779000000
  prevId := ⟨List.replicate 32 1, rfl⟩
  nonce := 0
  minerTx := []
  txHashes := []
  txHashes_size := noTxHashes_size

/-- The epoch seed of `pow/test_vectors.txt`, bytes `00` to `1f`. -/
def vectorSeed : Hash := ⟨(List.range 32).map UInt8.ofNat, by decide⟩

/-- `lattice_hash` of `latticeBlock`'s hashing blob (with a zero Merkle root) under
`vectorSeed`. -/
def latticeBlockHash : Hash :=
  ⟨[151, 6, 205, 139, 131, 240, 237, 82, 114, 103, 180, 209, 205, 203, 147, 218, 120, 186, 119,
    80, 246, 161, 246, 112, 181, 152, 158, 110, 86, 216, 193, 63], rfl⟩

def latticeBlockPow : PowHashes where
  latticeHash blob seed :=
    if blob = getBlockHashingBlob (fun _ _ => nullHash) latticeBlock ∧ seed = vectorSeed
    then latticeBlockHash else nullHash
  rxSlowHash _ _ := nullHash
  cnSlowHash _ _ _ := nullHash

theorem longhash_paths_agree_below :
    latticeBlock.majorVersion ≥ HF_VERSION_LATTICE
      ∧ getBlockLonghash latticeBlockPow (fun _ _ => nullHash) {} (some fun _ => vectorSeed)
          latticeBlock 202611 none
        = getAltblockLonghash latticeBlockPow (fun _ _ => nullHash) latticeBlock vectorSeed :=
  ⟨by decide, ((longhash_paths_agree_iff latticeBlockPow (fun _ _ => nullHash) {}
    (fun _ => vectorSeed) latticeBlock 202611 none (by decide)).mpr (Or.inl (by decide))).2⟩

/-- The main chain hashes a Lattice block to the constant of the workaround, the alternative path to
its Lattice hash. -/
theorem longhash_paths_differ_at_202612 :
    latticeBlock.majorVersion ≥ HF_VERSION_LATTICE
      ∧ getBlockLonghash latticeBlockPow (fun _ _ => nullHash) {} (some fun _ => vectorSeed)
          latticeBlock 202612 none = longhash202612
      ∧ getAltblockLonghash latticeBlockPow (fun _ _ => nullHash) latticeBlock vectorSeed
        = latticeBlockHash
      ∧ getBlockLonghash latticeBlockPow (fun _ _ => nullHash) {} (some fun _ => vectorSeed)
          latticeBlock 202612 none
        ≠ getAltblockLonghash latticeBlockPow (fun _ _ => nullHash) latticeBlock vectorSeed := by
  have hmain : getBlockLonghash latticeBlockPow (fun _ _ => nullHash) {}
      (some fun _ => vectorSeed) latticeBlock 202612 none = longhash202612 := rfl
  have halt : getAltblockLonghash latticeBlockPow (fun _ _ => nullHash) latticeBlock vectorSeed
      = latticeBlockHash := by
    simp only [getAltblockLonghash, latticeBlockPow, and_self, if_true]
    rfl
  refine ⟨by decide, hmain, halt, ?_⟩
  rw [hmain, halt]
  decide

end Glaciem
