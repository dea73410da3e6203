import Glaciem.Block.Header
import Glaciem.Block.RctFormat

/-!
# Glaciem — the binary format of blocks

`block`, `transaction` and their parts as `src/cryptonote_basic/cryptonote_basic.h` serializes them,
and on top `parse_and_validate_block_from_blob` and `block_to_blob` (`cryptonote_format_utils.cpp`).

A reader of the daemon takes a varint whose last byte is missing for complete (`read_varint` returns
the number of bytes it took when it meets the end of the input). So the daemon reads in the mode
`Mode.lenient`, and a block can have more than one encoding that is accepted.
-/

namespace Glaciem.Serial

open List Option

open Codec

def hash : Codec Hash :=
  (blob 32).imap (fun b => ⟨b.val, b.property⟩) (fun h => ⟨h.data, h.size⟩) fun _ => rfl

/-- A member of type `std::vector<uint8_t>`: its elements are plain bytes. -/
def bytes : Codec (List UInt8) := container uint8 uint8_minSize

theorem hash_minSize : hash.MinSize 1 := imap_minSize fun a w h =>
  (by decide : 1 ≤ 32).trans (blob_minSize 32 a w h)

theorem hash_exact : hash.Exact := imap_carries (blob_exact 32)

theorem bytes_exact : bytes.Exact := container_exact uint8_exact

/-! ## Inputs and outputs -/

structure TxoutToScript where
  keys : List Key
  script : List UInt8
  deriving DecidableEq

def txoutToScript : Codec TxoutToScript :=
  (keys.pair bytes).imap (fun p => ⟨p.1, p.2⟩) (fun t => (t.keys, t.script)) fun _ => rfl

theorem txoutToScript_exact : txoutToScript.Exact :=
  imap_carries (pair_carries keys_exact bytes_exact)

inductive TxinV where
  | gen (height : UInt64)
  | toScript (prev : Key) (prevout : UInt64) (sigset : List UInt8)
  | toScripthash (prev : Key) (prevout : UInt64) (script : TxoutToScript) (sigset : List UInt8)
  | toKey (amount : UInt64) (keyOffsets : List UInt64) (kImage : Key)
  deriving DecidableEq

def TxinV.tag : TxinV → UInt8
  | gen .. => 0xff
  | toScript .. => 0x0
  | toScripthash .. => 0x1
  | toKey .. => 0x2

def txinOfTag (t : UInt8) : Codec TxinV :=
  if t = 0xff then
    varint64.pimap .gen (fun
      | .gen height => some height
      | _ => none) fun _ => rfl
  else if t = 0x0 then
    (key.pair <| varint64.pair bytes).pimap (fun p => .toScript p.1 p.2.1 p.2.2) (fun
      | .toScript prev prevout sigset => some (prev, prevout, sigset)
      | _ => none) fun _ => rfl
  else if t = 0x1 then
    (key.pair <| varint64.pair <| txoutToScript.pair bytes).pimap
      (fun p => .toScripthash p.1 p.2.1 p.2.2.1 p.2.2.2) (fun
      | .toScripthash prev prevout script sigset => some (prev, prevout, script, sigset)
      | _ => none) fun _ => rfl
  else if t = 0x2 then
    (varint64.pair <| (container varint64 varint64_minSize).pair key).pimap
      (fun p => .toKey p.1 p.2.1 p.2.2) (fun
      | .toKey amount keyOffsets kImage => some (amount, keyOffsets, kImage)
      | _ => none) fun _ => rfl
  else fail

theorem txinOfTag_tag {t : UInt8} {m : Mode} {bs rest : List UInt8} {v : TxinV}
    (h : (txinOfTag t).read m bs = some (v, rest)) : v.tag = t := by
  unfold txinOfTag at h
  split_ifs at h with h1 h2 h3 h4
  · exact tag_of_pimap_read h fun _ => h1.symm
  · exact tag_of_pimap_read h fun _ => h2.symm
  · exact tag_of_pimap_read h fun _ => h3.symm
  · exact tag_of_pimap_read h fun _ => h4.symm
  · cases h

def txin : Codec TxinV := tagged TxinV.tag txinOfTag txinOfTag_tag

theorem txin_exact : txin.Exact := by
  refine tagged_carries fun t => ?_
  unfold txinOfTag
  split_ifs
  · refine pimap_carries varint64_exact ?_
    rintro a (_ | _ | _ | _) ⟨⟩
    rfl
  · refine pimap_carries (pair_carries key_exact (pair_carries varint64_exact bytes_exact)) ?_
    rintro a (_ | _ | _ | _) ⟨⟩
    rfl
  · refine pimap_carries (pair_carries key_exact (pair_carries varint64_exact
      (pair_carries txoutToScript_exact bytes_exact))) ?_
    rintro a (_ | _ | _ | _) ⟨⟩
    rfl
  · refine pimap_carries (pair_carries varint64_exact
      (pair_carries (container_exact varint64_exact) key_exact)) ?_
    rintro a (_ | _ | _ | _) ⟨⟩
    rfl
  · exact fail_carries id

inductive TxoutTargetV where
  | toScript (script : TxoutToScript)
  | toScripthash (hash : Key)
  | toKey (key : Key)
  | toTaggedKey (key : Key) (viewTag : UInt8)
  deriving DecidableEq

def TxoutTargetV.tag : TxoutTargetV → UInt8
  | toScript .. => 0x0
  | toScripthash .. => 0x1
  | toKey .. => 0x2
  | toTaggedKey .. => 0x3

def txoutTargetOfTag (t : UInt8) : Codec TxoutTargetV :=
  if t = 0x0 then
    txoutToScript.pimap .toScript (fun
      | .toScript script => some script
      | _ => none) fun _ => rfl
  else if t = 0x1 then
    key.pimap .toScripthash (fun
      | .toScripthash hash => some hash
      | _ => none) fun _ => rfl
  else if t = 0x2 then
    key.pimap .toKey (fun
      | .toKey key => some key
      | _ => none) fun _ => rfl
  else if t = 0x3 then
    (key.pair uint8).pimap (fun p => .toTaggedKey p.1 p.2) (fun
      | .toTaggedKey key viewTag => some (key, viewTag)
      | _ => none) fun _ => rfl
  else fail

theorem txoutTargetOfTag_tag {t : UInt8} {m : Mode} {bs rest : List UInt8} {v : TxoutTargetV}
    (h : (txoutTargetOfTag t).read m bs = some (v, rest)) : v.tag = t := by
  unfold txoutTargetOfTag at h
  split_ifs at h with h1 h2 h3 h4
  · exact tag_of_pimap_read h fun _ => h1.symm
  · exact tag_of_pimap_read h fun _ => h2.symm
  · exact tag_of_pimap_read h fun _ => h3.symm
  · exact tag_of_pimap_read h fun _ => h4.symm
  · cases h

def txoutTarget : Codec TxoutTargetV :=
  tagged TxoutTargetV.tag txoutTargetOfTag txoutTargetOfTag_tag

theorem txoutTarget_exact : txoutTarget.Exact := by
  refine tagged_carries fun t => ?_
  unfold txoutTargetOfTag
  split_ifs
  · refine pimap_carries txoutToScript_exact ?_
    rintro a (_ | _ | _ | _) ⟨⟩
    rfl
  · refine pimap_carries key_exact ?_
    rintro a (_ | _ | _ | _) ⟨⟩
    rfl
  · refine pimap_carries key_exact ?_
    rintro a (_ | _ | _ | _) ⟨⟩
    rfl
  · refine pimap_carries (pair_carries key_exact uint8_exact) ?_
    rintro a (_ | _ | _ | _) ⟨⟩
    rfl
  · exact fail_carries id

structure TxOut where
  amount : UInt64
  target : TxoutTargetV
  deriving DecidableEq

def txOut : Codec TxOut :=
  (varint64.pair txoutTarget).imap (fun p => ⟨p.1, p.2⟩)
    (fun o => (o.amount, o.target)) fun _ => rfl

theorem txOut_minSize : txOut.MinSize 1 := imap_minSize (seq_minSize varint64_minSize _)

theorem txOut_exact : txOut.Exact := imap_carries (pair_carries varint64_exact txoutTarget_exact)

/-! ## Transactions -/

structure TransactionPrefix where
  version : UInt64
  unlockTime : UInt64
  vin : List TxinV
  vout : List TxOut
  extra : List UInt8
  deriving DecidableEq

def transactionPrefix : Codec TransactionPrefix :=
  ((varint64.ensure fun version => !(version == 0 || 2 < version)).pair <| varint64.pair <|
    (container txin tagged_minSize).pair <| (container txOut txOut_minSize).pair bytes).imap
  (fun p => ⟨p.1, p.2.1, p.2.2.1, p.2.2.2.1, p.2.2.2.2⟩)
  (fun t => (t.version, t.unlockTime, t.vin, t.vout, t.extra)) fun _ => rfl

theorem transactionPrefix_exact : transactionPrefix.Exact :=
  imap_carries <| pair_carries (ensure_carries varint64_exact) <| pair_carries varint64_exact <|
    pair_carries (container_exact txin_exact) <| pair_carries (container_exact txOut_exact)
      bytes_exact

abbrev Signature := Blob 64

def getSignatureSize : TxinV → Nat
  | .toKey _ keyOffsets _ => keyOffsets.length
  | _ => 0

/-- Without their number; the bytes left are checked first. -/
def inputSignatures (i : TxinV) : Codec (List Signature) :=
  (exactly (getSignatureSize i) (blob 64)).atLeast (getSignatureSize i * 64)
    (exactly_minSize (blob_minSize 64) _)

theorem readEach_inputSignatures_of_none {m : Mode} (vin : List TxinV) (bs : List UInt8)
    (h : vin.all fun i => getSignatureSize i == 0) :
    readEach m (vin.map inputSignatures) bs = some (vin.map fun _ => [], bs) := by
  induction vin with
  | nil => rfl
  | cons i vin ih =>
    simp only [all_cons, Bool.and_eq_true, beq_iff_eq] at h
    have hread : (inputSignatures i).read m bs = some ([], bs) := by
      simp only [inputSignatures, atLeast, h.1, zero_mul, not_lt_zero, if_false]
      rfl
    rw [map_cons, readEach, hread, bind_some, ih h.2]
    rfl

/-- One vector for each input. Before writing the whole member may be empty when no input has a
signature. -/
def signatures (vin : List TxinV) : Codec (List (List Signature)) where
  read m := (each (vin.map inputSignatures)).read m
  write s :=
    if s = [] then if vin.all fun i => getSignatureSize i == 0 then some [] else none
    else (each (vin.map inputSignatures)).write s
  norm s := if s = [] then vin.map fun _ => []
    else (each (vin.map inputSignatures)).norm s
  read_mono h := (each _).read_mono h
  read_write {s w} h rest := by
    split_ifs at h ⊢ with hs hnone
    · cases h
      exact readEach_inputSignatures_of_none vin rest hnone
    · exact (each _).read_write h rest
  write_read {m bs s rest} h := by
    obtain ⟨hn, w, hw, hbs⟩ := (each _).write_read h
    by_cases hs : s = []
    · -- no inputs, so nothing was read
      subst hs
      have hlen := length_of_writeEach _ hw
      rw [length_map] at hlen
      obtain rfl := eq_nil_of_length_eq_zero hlen.symm
      cases hw
      exact ⟨rfl, [], rfl, hbs⟩
    · rw [if_neg hs, if_neg hs]
      exact ⟨hn, w, hw, hbs⟩

/-- `transaction`. The flag `pruned` is set by `serialize_base` only, and the miner transaction of a
block is always a whole one. -/
structure Transaction extends TransactionPrefix where
  signatures : List (List Signature)
  rctSignatures : RctSig
  deriving DecidableEq

/-- The `mixin` of `serialize_rctsig_prunable`, a `size_t`: one less than the ring size of the first
input. -/
def mixin : List TxinV → Nat
  | .toKey _ keyOffsets _ :: _ => if keyOffsets.isEmpty then 2 ^ 64 - 1 else keyOffsets.length - 1
  | _ => 0

def transactionBody (t : TransactionPrefix) : Codec (List (List Signature) × RctSig) :=
  if t.version == 1 then (signatures t.vin).pair (skip .null)
  else (skip []).pair <|
    if t.vin.isEmpty then skip .null else rctSig t.vin.length t.vout.length (mixin t.vin)

def transaction : Codec Transaction :=
  (transactionPrefix.seq transactionBody).imap (fun p => ⟨p.1, p.2.1, p.2.2⟩)
    (fun t => (t.toTransactionPrefix, t.signatures, t.rctSignatures)) fun _ => rfl

/-- A transaction without what its encoding does not have: the signatures of the other version, and
the members its type of ring signature does not use. -/
def Transaction.carried (t : Transaction) : Transaction :=
  { t with
    signatures := if t.version == 1 then
        if t.signatures = [] then t.vin.map fun _ => [] else t.signatures
      else []
    rctSignatures := if t.version == 1 || t.vin.isEmpty then .null else t.rctSignatures.carried }

theorem signatures_carries (vin : List TxinV) :
    (signatures vin).Carries fun s => if s = [] then vin.map fun _ => [] else s := by
  intro s w h
  simp only [signatures] at h ⊢
  split_ifs at h ⊢ with hs
  · rfl
  · have hexact : ∀ c ∈ vin.map inputSignatures, c.Exact := by
      intro c hc
      obtain ⟨i, -, rfl⟩ := mem_map.mp hc
      exact fun a w hw => exactly_exact (blob_exact 64) _ a w hw
    exact each_exact hexact s w h

theorem transactionBody_carries (t : TransactionPrefix) :
    (transactionBody t).Carries fun p =>
      (if t.version == 1 then if p.1 = [] then t.vin.map fun _ => [] else p.1 else [],
        if t.version == 1 || t.vin.isEmpty then .null else p.2.carried) := by
  unfold transactionBody
  split
  · next h =>
    simp only [h, Bool.true_or, if_true]
    exact pair_carries (signatures_carries t.vin) (skip_carries RctSig.null)
  · next h =>
    rw [Bool.not_eq_true] at h
    have hrct : (if t.vin.isEmpty then skip .null
        else rctSig t.vin.length t.vout.length (mixin t.vin)).Carries
          fun r => if t.vin.isEmpty then .null else r.carried := by
      split
      · exact skip_carries RctSig.null
      · exact rctSig_carries _ _ _
    simp only [h, Bool.false_or]
    exact pair_carries (skip_carries []) hrct

theorem transaction_carries : transaction.Carries Transaction.carried :=
  imap_carries (seq_carries transactionPrefix_exact transactionBody_carries)

/-! ## Blocks -/

structure Block extends BlockHeader where
  minerTx : Transaction
  txHashes : List Hash
  deriving DecidableEq

def blockHeader : Codec BlockHeader :=
  (varint8.pair <| varint8.pair <| varint64.pair <| hash.pair uint32).imap
    (fun p => ⟨p.1, p.2.1, p.2.2.1, p.2.2.2.1, p.2.2.2.2⟩)
    (fun h => (h.majorVersion, h.minorVersion, h.timestamp, h.prevId, h.nonce)) fun _ => rfl

def maxTxPerBlock : Nat := 0x10000000

def block : Codec Block :=
  ((blockHeader.pair <| transaction.pair <| container hash hash_minSize).imap
    (fun p => ⟨p.1, p.2.1, p.2.2⟩) (fun b => (b.toBlockHeader, b.minerTx, b.txHashes))
    fun _ => rfl).ensure
  fun b => !(maxTxPerBlock < b.txHashes.length)

def parseBlock (m : Mode) (blob : List UInt8) : Option Block :=
  match block.read m blob with
  | some (b, []) => some b
  | _ => none

def parseAndValidateBlockFromBlob (blob : List UInt8) : Option Block := parseBlock .lenient blob

def blockToBlob (b : Block) : Option (List UInt8) := block.write b

def Block.carried (b : Block) : Block := { b with minerTx := b.minerTx.carried }

theorem blockHeader_exact : blockHeader.Exact :=
  imap_carries <| pair_carries (imap_carries (varint_exact 8)) <|
    pair_carries (imap_carries (varint_exact 8)) <| pair_carries varint64_exact <|
    pair_carries hash_exact uint32_exact

theorem block_carries : block.Carries Block.carried :=
  ensure_carries <| imap_carries <| pair_carries blockHeader_exact <|
    pair_carries transaction_carries (container_exact hash_exact)

variable {blob : List UInt8} {b : Block}

/-! ## Canonical encodings -/

/-- The reader finds the last byte of every varint it asks for. -/
def VarintsComplete (blob : List UInt8) : Prop := (parseBlock .strict blob).isSome

instance (blob : List UInt8) : Decidable (VarintsComplete blob) :=
  inferInstanceAs (Decidable ((parseBlock .strict blob).isSome = true))

theorem parseBlock_eq_some {m : Mode} :
    parseBlock m blob = some b ↔ block.read m blob = some (b, []) := by
  unfold parseBlock
  split
  · next h => simp [h]
  · next h =>
    refine ⟨nofun, fun hread => ?_⟩
    exact absurd hread (h b)

theorem parseBlock_mono (h : parseBlock .strict blob = some b) :
    parseAndValidateBlockFromBlob blob = some b :=
  parseBlock_eq_some.mpr (block.read_mono (parseBlock_eq_some.mp h))

theorem blockToBlob_of_strict
    (h : parseBlock .strict blob = some b) : blockToBlob b = some blob := by
  obtain ⟨-, w, hw, hblob⟩ := block.write_read (parseBlock_eq_some.mp h)
  rw [hblob rfl, append_nil]
  exact hw

theorem strict_of_blockToBlob (h : blockToBlob b = some blob) :
    parseBlock .strict blob = some b.carried := by
  have hread := block.read_write h []
  rw [append_nil, block_carries b blob h] at hread
  exact parseBlock_eq_some.mpr hread

/-- A block that was parsed from `blob` is serialized to `blob` again exactly when no varint of
`blob` is unfinished; and every block that can be serialized is parsed back, without what the
encoding does not carry. -/
theorem block_encoding_canonical_iff (blob : List UInt8) (b : Block) :
    (parseAndValidateBlockFromBlob blob = some b →
      (blockToBlob b = some blob ↔ VarintsComplete blob)) ∧
    (blockToBlob b = some blob → parseAndValidateBlockFromBlob blob = some b.carried) := by
  refine ⟨fun hparse => ⟨fun h => ?_, fun h => ?_⟩, fun h => ?_⟩
  · rw [VarintsComplete, strict_of_blockToBlob h]
    rfl
  · obtain ⟨b', hb'⟩ := isSome_iff_exists.mp h
    obtain rfl : b' = b := Option.mem_unique (parseBlock_mono hb') hparse
    exact blockToBlob_of_strict hb'
  · exact parseBlock_mono (strict_of_blockToBlob h)

/-- The encoding of a block without transactions, up to the number of its transactions. -/
def cutBlob : List UInt8 :=
  -- versions, timestamp 1800000000, previous block, nonce
  [18, 18, 0x80, 0xa4, 0xa7, 0xda, 0x06] ++ replicate 32 7 ++ [1, 2, 3, 4]
  -- version 2, unlocked at height 64, one generating input at height 4
  ++ [2, 64, 1, 0xff, 4]
  -- one output to a key with a view tag
  ++ [1, 5, 3] ++ replicate 32 8 ++ [6]
  -- the transaction key, no ring signature
  ++ [33, 1] ++ replicate 32 9 ++ [0]

def sampleBlock : Block where
  majorVersion := 18
  minorVersion := 18
  timestamp := 1800000000
  prevId := ⟨replicate 32 7, by decide⟩
  nonce := 0x04030201
  minerTx :=
    { version := 2
      unlockTime := 64
      vin := [.gen 4]
      vout := [⟨5, .toTaggedKey ⟨replicate 32 8, by decide⟩ 6⟩]
      extra := 1 :: replicate 32 9
      signatures := []
      rctSignatures := .null }
  txHashes := []

/-- Without its last byte, the number of transactions, a block is accepted like the whole one;
serializing it does not give it back. -/
theorem cut_block_accepted :
    parseAndValidateBlockFromBlob cutBlob = some sampleBlock
      ∧ parseAndValidateBlockFromBlob (cutBlob ++ [0]) = some sampleBlock
      ∧ blockToBlob sampleBlock = some (cutBlob ++ [0])
      ∧ blockToBlob sampleBlock ≠ some cutBlob := by
  have hstrict : parseBlock .strict (cutBlob ++ [0]) = some sampleBlock := by decide +kernel
  have hwrite := blockToBlob_of_strict hstrict
  refine ⟨by decide +kernel, parseBlock_mono hstrict, hwrite, ?_⟩
  rw [hwrite]
  decide

end Glaciem.Serial
