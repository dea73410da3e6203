import Glaciem.Lib.Codec
import Glaciem.Lib.Digits

/-!
# Glaciem — block-wise base58 and tagged addresses

The text code of addresses (`common/base58.cpp`). Bytes are taken in blocks of eight, the last one
shorter, and a block of each length has a fixed number of letters, so a text splits into blocks from
its length alone. Decoding works from the last letter of a block to the first in 64-bit arithmetic
and refuses a block whose value does not fit.

A value has one text only: `encode_of_decode`, and `encodeAddr_of_decodeAddr` with a varint tag and
a checksum. `decode_encode` and `decodeAddr_encodeAddr` are the other direction.
-/

namespace Glaciem.Base58

open List Nat

open Bytes Codec Digits

/-! ## Letters and block sizes -/

def alphabet : List UInt8 :=
  "123456789ABCDEFGHJKLMNPQRSTUVWXYZabcdefghijkmnopqrstuvwxyz".toList.map
    fun c => UInt8.ofNat c.toNat

def alphabetSize : Nat := alphabet.length

def encodedBlockSizes : List Nat := [0, 2, 3, 5, 6, 7, 9, 10, 11]

def fullBlockSize : Nat := 8

def fullEncodedBlockSize : Nat := 11

def addrChecksumSize : Nat := 4

def reverseAlphabet (letter : UInt8) : Option Nat := alphabet.idxOf? letter

/-- The number of bytes a block of `encodedBlockSize` letters holds. -/
def decodedBlockSizes (encodedBlockSize : Nat) : Option Nat :=
  encodedBlockSizes.idxOf? encodedBlockSize

@[simp] theorem alphabetSize_eq : alphabetSize = 58 := by decide

theorem reverseAlphabet_alphabet :
    ∀ d < 58, reverseAlphabet (alphabet.getD d 0) = some d := by decide +kernel

theorem alphabet_reverseAlphabet {letter : UInt8} {d : Nat}
    (h : reverseAlphabet letter = some d) : d < 58 ∧ alphabet.getD d 0 = letter := by
  obtain ⟨hlt, hletter, -⟩ := idxOf?_eq_some_iff.mp h
  refine ⟨alphabetSize_eq ▸ hlt, ?_⟩
  rw [getD_eq_getElem?_getD, getElem?_eq_getElem hlt, Option.getD_some, hletter]

/-! ## Words and bytes -/

def uint8beTo64 (data : List UInt8) : Nat := Nat.ofDigits 256 (data.reverse.map UInt8.toNat)

def uint64To8be (num size : Nat) : List UInt8 :=
  ((fixedDigits 256 size num).map UInt8.ofNat).reverse

@[simp] theorem length_uint64To8be (num size : Nat) : (uint64To8be num size).length = size := by
  simp [uint64To8be]

theorem lt_of_mem_toNat (data : List UInt8) : ∀ d ∈ data.map UInt8.toNat, d < 256 := by
  intro d hd
  obtain ⟨b, -, rfl⟩ := mem_map.mp hd
  exact b.toNat_lt

theorem uint8beTo64_lt (data : List UInt8) : uint8beTo64 data < 256 ^ data.length := by
  have h := ofDigits_lt_base_pow_length (by decide) (lt_of_mem_toNat data.reverse)
  rwa [length_map, length_reverse] at h

theorem uint8beTo64_uint64To8be {num size : Nat} (h : num < 256 ^ size) :
    uint8beTo64 (uint64To8be num size) = num := by
  have hmap : (fixedDigits 256 size num).map (UInt8.toNat ∘ UInt8.ofNat)
      = fixedDigits 256 size num := by
    conv_rhs => rw [← map_id (fixedDigits 256 size num)]
    refine map_congr_left fun d hd => ?_
    have hlt := lt_of_mem_fixedDigits (by decide) size hd
    rw [Function.comp_apply, UInt8.toNat_ofNat']
    exact Nat.mod_eq_of_lt hlt
  rw [uint8beTo64, uint64To8be, reverse_reverse, map_map, hmap]
  exact ofDigits_fixedDigits 256 size h

theorem uint64To8be_uint8beTo64 (data : List UInt8) :
    uint64To8be (uint8beTo64 data) data.length = data := by
  have hdigits := fixedDigits_ofDigits (by decide) (lt_of_mem_toNat data.reverse)
  rw [length_map, length_reverse] at hdigits
  rw [uint64To8be, uint8beTo64, hdigits, map_map]
  have hid : UInt8.ofNat ∘ UInt8.toNat = id := funext fun _ => UInt8.ofNat_toNat
  rw [hid, map_id, reverse_reverse]

/-! ## One block -/

def letterOf (digit : Nat) : UInt8 := alphabet.getD digit 0

/-- The source fills the block with the letter of zero and writes letters from the end for as long
as a rest is left. -/
def encodeBlock (block : List UInt8) : List UInt8 :=
  ((fixedDigits alphabetSize (encodedBlockSizes.getD block.length 0)
    (uint8beTo64 block)).map letterOf).reverse

/-- The letters from the last to the first: `order` is the weight of the next letter and `resNum`
the sum so far, both 64-bit words. -/
def decodeDigits : Nat → Nat → List UInt8 → Option Nat
  | _, resNum, [] => some resNum
  | order, resNum, letter :: letters =>
    match reverseAlphabet letter with
    | none => none
    | some digit =>
      let productHi := order * digit / 2 ^ 64
      let tmp := (resNum + order * digit % 2 ^ 64) % 2 ^ 64
      if tmp < resNum ∨ productHi ≠ 0 then none
      else decodeDigits (order * alphabetSize % 2 ^ 64) tmp letters

def decodeBlock (block : List UInt8) : Option (List UInt8) :=
  match decodedBlockSizes block.length with
  | none => none
  | some resSize =>
    if resSize = 0 then none
    else match decodeDigits 1 0 block.reverse with
      | none => none
      | some resNum =>
        if resSize < fullBlockSize ∧ 2 ^ (8 * resSize) ≤ resNum then none
        else some (uint64To8be resNum resSize)

theorem carry_iff {x y : Nat} (hx : x < 2 ^ 64) :
    ((x + y % 2 ^ 64) % 2 ^ 64 < x ∨ y / 2 ^ 64 ≠ 0) ↔ 2 ^ 64 ≤ x + y := by
  omega

/-- The digit of a letter is the only one that can stand first. -/
theorem exists_digits_cons {letter : UInt8} {letters : List UInt8} {digit : Nat}
    (hrev : reverseAlphabet letter = some digit) {P : List Nat → Prop} :
    (∃ ds : List Nat, letter :: letters = ds.map letterOf ∧ (∀ d ∈ ds, d < 58) ∧ P ds)
      ↔ ∃ ds : List Nat, letters = ds.map letterOf ∧ (∀ d ∈ ds, d < 58) ∧ P (digit :: ds) := by
  obtain ⟨hdigit, hletter⟩ := alphabet_reverseAlphabet hrev
  constructor
  · rintro ⟨_ | ⟨d, ds⟩, hds, hlt, hP⟩
    · cases hds
    · obtain ⟨hd, hrest⟩ := forall_mem_cons.mp hlt
      rw [map_cons, cons.injEq] at hds
      rw [hds.1, letterOf, reverseAlphabet_alphabet d hd] at hrev
      cases hrev
      exact ⟨ds, hds.2, hrest, hP⟩
  · rintro ⟨ds, rfl, hlt, hP⟩
    exact ⟨digit :: ds, by rw [map_cons, letterOf, hletter], forall_mem_cons.mpr ⟨hdigit, hlt⟩, hP⟩

/-- Letters whose value fits into 64 bits. The weight is read only while letters are left, and up to
there it has not wrapped. -/
theorem decodeDigits_eq_some_iff (letters : List UInt8) : ∀ {k order resNum r : Nat},
    (letters ≠ [] → order = 58 ^ k) → k + letters.length ≤ 11 → resNum < 2 ^ 64 →
    (decodeDigits order resNum letters = some r ↔
      ∃ ds : List Nat, letters = ds.map letterOf ∧ (∀ d ∈ ds, d < 58) ∧
        r = resNum + 58 ^ k * Nat.ofDigits 58 ds ∧ r < 2 ^ 64) := by
  induction letters with
  | nil =>
    intro k order resNum r _ _ hnum
    rw [decodeDigits, Option.some.injEq]
    constructor
    · rintro rfl
      exact ⟨[], rfl, nofun, by simp, hnum⟩
    · rintro ⟨ds, hds, -, hr, -⟩
      rw [map_eq_nil_iff.mp hds.symm] at hr
      simpa using hr.symm
  | cons letter letters ih =>
    intro k order resNum r horder hlen hnum
    rw [length_cons] at hlen
    obtain rfl := horder (cons_ne_nil _ _)
    rw [decodeDigits]
    cases hrev : reverseAlphabet letter with
    | none =>
      refine ⟨nofun, ?_⟩
      rintro ⟨ds, hds, hlt, -, -⟩
      cases ds with
      | nil => cases hds
      | cons d ds =>
        rw [map_cons, cons.injEq] at hds
        rw [hds.1, letterOf, reverseAlphabet_alphabet d (hlt d mem_cons_self)] at hrev
        cases hrev
    | some digit =>
      dsimp only
      have hvalue : ∀ ds, resNum + 58 ^ k * Nat.ofDigits 58 (digit :: ds)
          = resNum + 58 ^ k * digit + 58 ^ (k + 1) * Nat.ofDigits 58 ds := by
        intro ds
        rw [ofDigits_cons, Nat.pow_succ]
        ring
      rw [exists_digits_cons hrev]
      simp only [hvalue]
      by_cases hcarry : 2 ^ 64 ≤ resNum + 58 ^ k * digit
      · rw [if_pos ((carry_iff hnum).mpr hcarry)]
        refine ⟨nofun, ?_⟩
        rintro ⟨ds, -, -, hr, hfit⟩
        omega
      · rw [if_neg (fun h => hcarry ((carry_iff hnum).mp h))]
        have htmp : (resNum + 58 ^ k * digit % 2 ^ 64) % 2 ^ 64 = resNum + 58 ^ k * digit := by
          omega
        have hnext : letters ≠ [] → 58 ^ k * alphabetSize % 2 ^ 64 = 58 ^ (k + 1) := by
          intro hne
          have hpos := length_pos_iff.mpr hne
          have hpow : 58 ^ (k + 1) ≤ 58 ^ 10 := Nat.pow_le_pow_right (by decide) (by omega)
          rw [alphabetSize_eq, ← Nat.pow_succ]
          exact Nat.mod_eq_of_lt (hpow.trans_lt (by decide))
        rw [htmp, ih hnext (by omega) (by omega)]

/-- Every block length has its own number of letters, and room for every block of that
length. -/
theorem blockSizes :
    ∀ n ≤ 8, decodedBlockSizes (encodedBlockSizes.getD n 0) = some n ∧
      encodedBlockSizes.getD n 0 ≤ 11 ∧ 256 ^ n ≤ 58 ^ encodedBlockSizes.getD n 0 := by
  decide

theorem decodedBlockSizes_eq_some {m n : Nat} (h : decodedBlockSizes m = some n) :
    n ≤ 8 ∧ encodedBlockSizes.getD n 0 = m := by
  obtain ⟨hlt, hget, -⟩ := idxOf?_eq_some_iff.mp h
  refine ⟨le_of_lt_succ hlt, ?_⟩
  rw [getD_eq_getElem?_getD, getElem?_eq_getElem hlt, Option.getD_some, hget]

variable {block data : List UInt8}

theorem decodeDigits_block (hlen : block.length ≤ 11) {r : Nat} :
    decodeDigits 1 0 block.reverse = some r ↔
      ∃ ds : List Nat, block.reverse = ds.map letterOf ∧ (∀ d ∈ ds, d < 58) ∧
        r = Nat.ofDigits 58 ds ∧ r < 2 ^ 64 := by
  rw [decodeDigits_eq_some_iff block.reverse (fun _ => (pow_zero 58).symm)
    (by rw [length_reverse]; omega) (by decide)]
  simp only [pow_zero, one_mul, zero_add]

theorem pow_256 (n : Nat) : 256 ^ n = 2 ^ (8 * n) := pow_mul 2 8 n ▸ rfl

theorem encodeBlock_of_decodeBlock (h : decodeBlock block = some data) :
    decodedBlockSizes block.length = some data.length ∧ encodeBlock data = block := by
  unfold decodeBlock at h
  split at h
  · cases h
  rename_i resSize hsize
  obtain ⟨hres, henc⟩ := decodedBlockSizes_eq_some hsize
  have hlen : block.length ≤ 11 := henc ▸ (blockSizes resSize hres).2.1
  split at h
  · cases h
  split at h
  · cases h
  rename_i resNum hnum
  split at h
  · cases h
  rename_i hfit
  cases h
  obtain ⟨ds, hletters, hds, rfl, h64⟩ := (decodeDigits_block hlen).mp hnum
  have hdslen : ds.length = block.length := by
    rw [← length_map letterOf, ← hletters, length_reverse]
  have hlt : Nat.ofDigits 58 ds < 256 ^ resSize := by
    rw [pow_256]
    by_cases hfull : resSize < fullBlockSize
    · omega
    · rw [show resSize = 8 from le_antisymm hres (not_lt.mp hfull)]
      exact h64
  refine ⟨by rw [length_uint64To8be, hsize], ?_⟩
  rw [encodeBlock, length_uint64To8be, uint8beTo64_uint64To8be hlt, henc, alphabetSize_eq,
    ← hdslen, fixedDigits_ofDigits (by decide) hds, ← hletters, reverse_reverse]

@[simp] theorem length_encodeBlock (data : List UInt8) :
    (encodeBlock data).length = encodedBlockSizes.getD data.length 0 := by
  rw [encodeBlock, length_reverse, length_map, length_fixedDigits]

theorem decodeBlock_encodeBlock (hne : data ≠ []) (hlen : data.length ≤ fullBlockSize) :
    decodeBlock (encodeBlock data) = some data := by
  have hpos := length_pos_iff.mpr hne
  obtain ⟨hsize, hwidth, hroom⟩ := blockSizes data.length hlen
  have hvalue := uint8beTo64_lt data
  have h64 : 256 ^ data.length ≤ 2 ^ 64 := by
    rw [pow_256]
    exact Nat.pow_le_pow_right (by decide) (mul_le_mul_left 8 hlen)
  have hnum : decodeDigits 1 0 (encodeBlock data).reverse = some (uint8beTo64 data) := by
    rw [decodeDigits_block (by rwa [length_encodeBlock])]
    refine ⟨fixedDigits 58 (encodedBlockSizes.getD data.length 0) (uint8beTo64 data), ?_, ?_,
      ?_, ?_⟩
    · rw [encodeBlock, reverse_reverse, alphabetSize_eq]
    · intro d hd
      exact lt_of_mem_fixedDigits (by decide) _ hd
    · exact (ofDigits_fixedDigits 58 _ (hvalue.trans_le hroom)).symm
    · exact hvalue.trans_le h64
  unfold decodeBlock
  rw [length_encodeBlock, hsize]
  dsimp only
  rw [if_neg (by omega), hnum]
  dsimp only
  rw [if_neg, uint64To8be_uint8beTo64]
  rintro ⟨-, hover⟩
  rw [pow_256] at hvalue
  omega

/-! ## Texts of any length -/

def encodeBlocks : Nat → List UInt8 → List UInt8
  | 0, data => if data.isEmpty then [] else encodeBlock data
  | fullBlockCount + 1, data =>
    encodeBlock (data.take fullBlockSize) ++ encodeBlocks fullBlockCount (data.drop fullBlockSize)

def encode (data : List UInt8) : List UInt8 := encodeBlocks (data.length / fullBlockSize) data

def decodeBlocks : Nat → List UInt8 → Option (List UInt8)
  | 0, enc => if enc.isEmpty then some [] else decodeBlock enc
  | fullBlockCount + 1, enc =>
    match decodeBlock (enc.take fullEncodedBlockSize) with
    | none => none
    | some block =>
      (decodeBlocks fullBlockCount (enc.drop fullEncodedBlockSize)).map (block ++ ·)

def decode (enc : List UInt8) : Option (List UInt8) :=
  match decodedBlockSizes (enc.length % fullEncodedBlockSize) with
  | none => none
  | some _ => decodeBlocks (enc.length / fullEncodedBlockSize) enc

theorem decoded_lt_full {m n : Nat} (h : decodedBlockSizes m = some n)
    (hm : m < fullEncodedBlockSize) : n < fullBlockSize := by
  obtain ⟨hn, henc⟩ := decodedBlockSizes_eq_some h
  refine lt_of_le_of_ne hn fun heq => ?_
  subst heq
  exact absurd (henc ▸ hm) (by decide)

theorem encode_append (h : block.length = fullBlockSize) :
    encode (block ++ data) = encodeBlock block ++ encode data := by
  have hcount : (block ++ data).length / fullBlockSize = data.length / fullBlockSize + 1 := by
    rw [length_append, h, add_comm, add_div_right _ (by decide)]
  rw [encode, hcount, encodeBlocks, take_left' h, drop_left' h]
  rfl

theorem encode_of_decodeBlocks (n : Nat) : ∀ {enc data : List UInt8},
    enc.length / fullEncodedBlockSize = n → decodeBlocks n enc = some data → encode data = enc := by
  induction n with
  | zero =>
    intro enc data hn h
    have hshort : enc.length < fullEncodedBlockSize := by
      rwa [div_eq_zero_iff_lt (by decide)] at hn
    rw [decodeBlocks] at h
    split at h
    · rename_i hempty
      cases h
      rw [List.isEmpty_iff.mp hempty]
      rfl
    · obtain ⟨hsize, henc⟩ := encodeBlock_of_decodeBlock h
      have hlt := decoded_lt_full hsize hshort
      have hne : data.isEmpty = false := by
        rw [← Bool.not_eq_true, List.isEmpty_iff]
        rintro rfl
        rename_i hempty
        exact hempty (by rw [← henc]; rfl)
      rw [encode, div_eq_of_lt hlt, encodeBlocks, if_neg (by rw [hne]; decide), henc]
  | succ n ih =>
    intro enc data hn h
    have hlong : fullEncodedBlockSize ≤ enc.length := by
      rw [← one_le_div_iff (by decide), hn]
      omega
    rw [decodeBlocks] at h
    split at h
    · cases h
    rename_i block hblock
    obtain ⟨rest, hrest, rfl⟩ := Option.map_eq_some_iff.mp h
    obtain ⟨hsize, henc⟩ := encodeBlock_of_decodeBlock hblock
    have hfull : block.length = fullBlockSize := by
      rw [length_take_of_le hlong] at hsize
      exact (Option.some.inj hsize).symm
    have hcount : (enc.drop fullEncodedBlockSize).length / fullEncodedBlockSize = n := by
      unfold fullEncodedBlockSize at hn hlong ⊢
      rw [length_drop]
      omega
    rw [encode_append hfull, henc, ih hcount hrest, take_append_drop]

theorem encode_of_decode {enc : List UInt8} (h : decode enc = some data) : encode data = enc := by
  unfold decode at h
  split at h
  · cases h
  · exact encode_of_decodeBlocks _ rfl h

theorem length_encodeBlock_take (hlong : fullBlockSize ≤ data.length) :
    (encodeBlock (data.take fullBlockSize)).length = fullEncodedBlockSize := by
  rw [length_encodeBlock, length_take_of_le hlong]
  rfl

theorem length_drop_block {n : Nat} (hn : data.length / fullBlockSize = n + 1) :
    fullBlockSize ≤ data.length ∧ (data.drop fullBlockSize).length / fullBlockSize = n
      ∧ (data.drop fullBlockSize).length % fullBlockSize = data.length % fullBlockSize := by
  rw [length_drop]
  unfold fullBlockSize at hn ⊢
  omega

theorem length_encodeBlocks (n : Nat) : ∀ {data : List UInt8}, data.length / fullBlockSize = n →
    (encodeBlocks n data).length
      = n * fullEncodedBlockSize + encodedBlockSizes.getD (data.length % fullBlockSize) 0 := by
  induction n with
  | zero =>
    intro data hn
    have hshort : data.length < fullBlockSize := by
      rwa [div_eq_zero_iff_lt (by decide)] at hn
    rw [encodeBlocks, Nat.mod_eq_of_lt hshort]
    split
    · rename_i hempty
      rw [List.isEmpty_iff.mp hempty]
      rfl
    · rw [length_encodeBlock, zero_mul, zero_add]
  | succ n ih =>
    intro data hn
    obtain ⟨hlong, hcount, hmod⟩ := length_drop_block hn
    rw [encodeBlocks, length_append, length_encodeBlock_take hlong, ih hcount, hmod]
    unfold fullEncodedBlockSize
    omega

theorem length_encode (data : List UInt8) :
    (encode data).length = data.length / fullBlockSize * fullEncodedBlockSize
      + encodedBlockSizes.getD (data.length % fullBlockSize) 0 :=
  length_encodeBlocks _ rfl

theorem decodeBlocks_encodeBlocks (n : Nat) : ∀ {data : List UInt8},
    data.length / fullBlockSize = n → decodeBlocks n (encodeBlocks n data) = some data := by
  induction n with
  | zero =>
    intro data hn
    have hshort : data.length < fullBlockSize := by
      rwa [div_eq_zero_iff_lt (by decide)] at hn
    rw [encodeBlocks]
    split
    · rename_i hempty
      rw [List.isEmpty_iff.mp hempty]
      rfl
    · rename_i hempty
      have hne : data ≠ [] := fun h => hempty (List.isEmpty_iff.mpr h)
      have hdecode := decodeBlock_encodeBlock hne hshort.le
      rw [decodeBlocks, if_neg, hdecode]
      intro h
      rw [List.isEmpty_iff.mp h] at hdecode
      cases hdecode
  | succ n ih =>
    intro data hn
    obtain ⟨hlong, hcount, -⟩ := length_drop_block hn
    have htake : (data.take fullBlockSize).length = fullBlockSize := length_take_of_le hlong
    have hfirst := length_encodeBlock_take hlong
    have hblock : decodeBlock (encodeBlock (data.take fullBlockSize))
        = some (data.take fullBlockSize) := by
      refine decodeBlock_encodeBlock ?_ htake.le
      rw [← length_pos_iff, htake]
      decide
    rw [encodeBlocks, decodeBlocks, take_left' hfirst, drop_left' hfirst, hblock]
    dsimp only
    rw [ih hcount, Option.map_some, take_append_drop]

theorem decode_encode (data : List UInt8) : decode (encode data) = some data := by
  have hmod : data.length % fullBlockSize ≤ 7 := by
    unfold fullBlockSize
    omega
  obtain ⟨hsize, hwidth, -⟩ := blockSizes (data.length % fullBlockSize) (by omega)
  have hshort : encodedBlockSizes.getD (data.length % fullBlockSize) 0 < fullEncodedBlockSize := by
    generalize data.length % fullBlockSize = m at hmod
    revert m
    decide
  have hlast : (encode data).length % fullEncodedBlockSize
      = encodedBlockSizes.getD (data.length % fullBlockSize) 0 := by
    rw [length_encode, mul_comm, mul_add_mod, Nat.mod_eq_of_lt hshort]
  have hcount : (encode data).length / fullEncodedBlockSize = data.length / fullBlockSize := by
    rw [length_encode, mul_comm, mul_add_div (by decide), div_eq_of_lt hshort,
      add_zero]
  rw [decode, hlast, hsize]
  rw [hcount]
  exact decodeBlocks_encodeBlocks _ rfl

/-- Every byte string has one text, and that text alone is decoded to it. -/
theorem decode_eq_some_iff (enc data : List UInt8) :
    decode enc = some data ↔ encode data = enc := by
  constructor
  · exact encode_of_decode
  · rintro rfl
    exact decode_encode data

/-! ## Tagged and checked texts -/

section Addr

-- `cn_fast_hash`
variable (cnFastHash : List UInt8 → Blob 32)

def addrChecksum (buf : List UInt8) : List UInt8 := (cnFastHash buf).val.take addrChecksumSize

def encodeAddr (tag : Nat) (data : List UInt8) : List UInt8 :=
  let buf := writeVarint tag ++ data
  encode (buf ++ addrChecksum cnFastHash buf)

def decodeAddr (addr : List UInt8) : Option (Nat × List UInt8) :=
  match decode addr with
  | none => none
  | some addrData =>
    if addrData.length ≤ addrChecksumSize then none
    else
      let checksum := addrData.drop (addrData.length - addrChecksumSize)
      let addrData := addrData.take (addrData.length - addrChecksumSize)
      if addrChecksum cnFastHash addrData ≠ checksum then none
      else match readVarint .lenient 64 0 0 addrData with
        | none => none
        | some (tag, data) => if addrData.length - data.length = 0 then none else some (tag, data)

@[simp] theorem length_addrChecksum (buf : List UInt8) :
    (addrChecksum cnFastHash buf).length = addrChecksumSize := by
  rw [addrChecksum, length_take, (cnFastHash buf).property]
  rfl

/-- Without something after the tag, the tag may have lost its last byte. -/
theorem encodeAddr_of_decodeAddr {addr data : List UInt8} {tag : Nat}
    (h : decodeAddr cnFastHash addr = some (tag, data)) (hdata : data ≠ []) :
    encodeAddr cnFastHash tag data = addr := by
  unfold decodeAddr at h
  split at h
  · cases h
  rename_i addrData hdecode
  split at h
  · cases h
  dsimp only at h
  split at h
  · cases h
  rename_i hcheck
  split at h
  · cases h
  rename_i tag' data' hread
  split at h
  · cases h
  cases h
  have hstrict := readVarint_strict_of_rest _ hread hdata
  obtain ⟨-, hwritten⟩ := readVarint_eq_some _ (by decide) (by decide) hstrict
  obtain ⟨i, htag, hbuf, -⟩ := hwritten rfl
  rw [pow_zero, mul_one, zero_add] at htag
  subst htag
  rw [encodeAddr, ← hbuf, not_ne_iff.mp hcheck, take_append_drop]
  exact encode_of_decode hdecode

theorem decodeAddr_encodeAddr {tag : Nat} (htag : tag < 2 ^ 64) (data : List UInt8) :
    decodeAddr cnFastHash (encodeAddr cnFastHash tag data) = some (tag, data) := by
  have hpos := writeVarint_length_pos tag
  have hread : readVarint .lenient 64 0 0 (writeVarint tag ++ data) = some (tag, data) := by
    have := readVarint_writeVarint 64 data tag (by decide) (.inl rfl)
      (show 0 + tag * 2 ^ 0 < 2 ^ 64 by simpa using htag)
    rw [pow_zero, mul_one, zero_add] at this
    exact readVarint_mono _ this
  generalize hbuf : writeVarint tag ++ data = buf at hread
  have hlen : buf.length = (writeVarint tag).length + data.length := by
    rw [← hbuf, length_append]
  have hsum : (buf ++ addrChecksum cnFastHash buf).length = buf.length + addrChecksumSize := by
    rw [length_append, length_addrChecksum]
  rw [encodeAddr, hbuf, decodeAddr, decode_encode]
  dsimp only
  rw [hsum, Nat.add_sub_cancel, take_left, drop_left, if_neg (by omega),
    if_neg (not_ne_iff.mpr rfl), hread]
  dsimp only
  rw [if_neg (by omega)]

end Addr

end Glaciem.Base58
