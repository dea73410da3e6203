import Glaciem.Address.Base58

/-!
# Glaciem — parsing addresses

`get_account_address_from_str` reads a text as an address of a network
(`cryptonote_basic/cryptonote_basic_impl.cpp`). It knows two formats. The base58 format carries a
tag that belongs to one network and one kind of address, and a checksum; the keys in it must be
points of the curve. The old format is 132 hex digits: a version, the two keys and the sum of the
bytes before it, with no network in it and no look at the keys.

A text *parses safely* when it is taken on at most one network, what it is taken for has good keys,
and encoding that again gives the text.
-/

namespace Glaciem.Address

open List Option

open Codec Digits Base58

/-! ## Public keys -/

abbrev PublicKey := Blob 32

def fieldPrime : Nat := 2 ^ 255 - 19

def feD : Nat := 37095705934669439343138083508754565189542113879843219016388785533085940283555

def feSqrtm1 : Nat := 19681161376707505956807079304988542015446066515923890162744021073123829784752

example : feD * 121666 % fieldPrime = fieldPrime - 121665 := by decide

example : feSqrtm1 * feSqrtm1 % fieldPrime = fieldPrime - 1 := by decide

/-- `base ^ e` in the field, for `e < 2 ^ fuel`. -/
def fePow : Nat → Nat → Nat → Nat
  | 0, _, _ => 1
  | fuel + 1, base, e =>
    let r := fePow fuel (base * base % fieldPrime) (e / 2)
    if e % 2 = 1 then base * r % fieldPrime else r

/-- The field element `uv³(uv⁷)^((q-5)/8)`, a square root of `u / v` or of `-u / v` if there
is one. -/
def feDivpowm1 (u v : Nat) : Nat :=
  u * fePow 2 v 3 % fieldPrime * fePow 252 (u * fePow 3 v 7 % fieldPrime) ((fieldPrime - 5) / 8)
    % fieldPrime

/-- The low 255 bits of the key are `y`, the top bit is the sign of `x`. -/
def geFrombytesVartime (s : PublicKey) : Option (Nat × Nat) :=
  let value := Nat.ofDigits 256 (s.val.map UInt8.toNat)
  let y := value % 2 ^ 255
  let sign := value / 2 ^ 255
  if y ≥ fieldPrime then none
  else
    let u := (y * y + (fieldPrime - 1)) % fieldPrime
    let v := (feD * (y * y % fieldPrime) + 1) % fieldPrime
    let x := feDivpowm1 u v
    let vxx := x * x % fieldPrime * v % fieldPrime
    if vxx ≠ u ∧ (vxx + u) % fieldPrime ≠ 0 then none
    else
      let x := if vxx ≠ u then x * feSqrtm1 % fieldPrime else x
      if x % 2 ≠ sign then
        -- if `x = 0`, the sign must be positive
        if x = 0 then none else some (fieldPrime - x, y)
      else some (x, y)

def checkKey (key : PublicKey) : Bool := (geFrombytesVartime key).isSome

/-! ## Networks -/

inductive NetworkType where
  | mainnet
  | testnet
  | stagenet
  | fakechain
  | undefined
  deriving DecidableEq

structure Config where
  publicAddressBase58Prefix : Nat
  publicIntegratedAddressBase58Prefix : Nat
  publicSubaddressBase58Prefix : Nat

def getConfig : NetworkType → Except String Config
  | .mainnet => .ok ⟨144, 272, 400⟩
  | .testnet => .ok ⟨528, 656, 784⟩
  | .stagenet => .ok ⟨912, 1040, 1168⟩
  | .fakechain => .ok ⟨144, 272, 400⟩
  | .undefined => .error "Invalid network type"

def Config.tags (config : Config) : List Nat :=
  [config.publicAddressBase58Prefix, config.publicIntegratedAddressBase58Prefix,
    config.publicSubaddressBase58Prefix]

/-! ## Addresses as bytes -/

structure AccountPublicAddress where
  spendPublicKey : PublicKey
  viewPublicKey : PublicKey
  deriving DecidableEq

structure IntegratedAddress where
  adr : AccountPublicAddress
  paymentId : Blob 8

def accountPublicAddress : Codec AccountPublicAddress :=
  (pair (blob 32) (blob 32)).imap (fun r => ⟨r.1, r.2⟩)
    (fun a => (a.spendPublicKey, a.viewPublicKey))
    fun _ => rfl

def integratedAddress : Codec IntegratedAddress :=
  (pair accountPublicAddress (blob 8)).imap (fun r => ⟨r.1, r.2⟩) (fun a => (a.adr, a.paymentId))
    fun _ => rfl

/-- `parse_binary`: the whole of `data` is the value. -/
def parseBinary {α : Type} (c : Codec α) (data : List UInt8) : Option α :=
  match c.read .lenient data with
  | some (a, []) => some a
  | _ => none

def serializableObjectToBlob {α : Type} (c : Codec α) (a : α) : List UInt8 := (c.write a).getD []

theorem serializableObjectToBlob_of_parseBinary {α : Type} {c : Codec α}
    (hmode : ∀ bs, c.read .lenient bs = c.read .strict bs) (hmin : c.MinSize 32)
    {data : List UInt8} {a : α} (h : parseBinary c data = some a) :
    serializableObjectToBlob c a = data ∧ data ≠ [] := by
  unfold parseBinary at h
  split at h
  · rename_i b hread
    cases h
    rw [hmode] at hread
    obtain ⟨-, w, hw, hbytes⟩ := c.write_read hread
    have hdata : data = w := by rw [hbytes rfl, append_nil]
    refine ⟨by rw [serializableObjectToBlob, hw, getD_some, hdata], ?_⟩
    have hlen := hmin a w hw
    rw [hdata, ← length_pos_iff]
    omega
  · cases h

theorem parseBinary_serializableObjectToBlob {α : Type} {c : Codec α} {a : α} {w : List UInt8}
    (hw : c.write a = some w) (hnorm : c.norm a = a) :
    parseBinary c (serializableObjectToBlob c a) = some a := by
  have hread := c.read_mono (c.read_write hw [])
  rw [append_nil, hnorm] at hread
  rw [serializableObjectToBlob, hw, Option.getD_some, parseBinary, hread]

theorem accountPublicAddress_minSize : accountPublicAddress.MinSize 32 :=
  imap_minSize (seq_minSize (blob_minSize 32) _)

theorem integratedAddress_minSize : integratedAddress.MinSize 32 :=
  imap_minSize (seq_minSize accountPublicAddress_minSize _)

/-! ## The old format -/

/-- A packed record of the old format: version, address, sum of the bytes before. -/
structure PublicAddressOuterBlob where
  ver : UInt8
  address : AccountPublicAddress
  checkSum : UInt8

def byteSum (bs : List UInt8) : UInt8 := bs.foldl (· + ·) 0

def getAccountAddressChecksum (bl : PublicAddressOuterBlob) : UInt8 :=
  byteSum (bl.ver :: (bl.address.spendPublicKey.val ++ bl.address.viewPublicKey.val))

def publicAddressOuterBlob : Codec PublicAddressOuterBlob :=
  (pair uint8 (pair accountPublicAddress uint8)).imap (fun r => ⟨r.1, r.2.1, r.2.2⟩)
    (fun b => (b.ver, b.address, b.checkSum)) fun _ => rfl

def sizeofOuterBlob : Nat := 66

def publicAddressTextblobVer : UInt8 := 0

def isx (c : UInt8) : Option UInt8 :=
  if 0x30 ≤ c ∧ c ≤ 0x39 then some (c - 0x30)
  else if 0x41 ≤ c ∧ c ≤ 0x46 then some (c - 0x41 + 10)
  else if 0x61 ≤ c ∧ c ≤ 0x66 then some (c - 0x61 + 10)
  else none

def parseHexstrToBinbuff : List UInt8 → Option (List UInt8)
  | [] => some []
  | [_] => none
  | hi :: lo :: rest =>
    match isx hi, isx lo, parseHexstrToBinbuff rest with
    | some tmp, some t2, some res => some ((tmp <<< 4 ||| t2) :: res)
    | _, _, _ => none

/-! ## Parsing and encoding -/

/-- What an address text is taken for; `paymentId` is there only when `has_payment_id` is. -/
structure AddressParseInfo where
  address : AccountPublicAddress
  isSubaddress : Bool
  paymentId : Option (Blob 8)
  deriving DecidableEq

section

-- `cn_fast_hash`
variable (cnFastHash : List UInt8 → Blob 32)

variable (nettype : NetworkType)

def getAccountAddressAsStr (subaddress : Bool)
    (adr : AccountPublicAddress) : Except String (List UInt8) := do
  let config ← getConfig nettype
  let tag := if subaddress then config.publicSubaddressBase58Prefix
    else config.publicAddressBase58Prefix
  pure (encodeAddr cnFastHash tag (serializableObjectToBlob accountPublicAddress adr))

def getAccountIntegratedAddressAsStr (adr : AccountPublicAddress)
    (paymentId : Blob 8) : Except String (List UInt8) := do
  let config ← getConfig nettype
  pure (encodeAddr cnFastHash config.publicIntegratedAddressBase58Prefix
    (serializableObjectToBlob integratedAddress ⟨adr, paymentId⟩))

def fromBase58 (config : Config) (str : List UInt8) : Option AddressParseInfo :=
  match decodeAddr cnFastHash str with
  | none => none
  | some (tag, data) =>
    let parsed : Option AddressParseInfo :=
      if config.publicIntegratedAddressBase58Prefix = tag then
        (parseBinary integratedAddress data).map fun iadr => ⟨iadr.adr, false, some iadr.paymentId⟩
      else if config.publicAddressBase58Prefix = tag then
        (parseBinary accountPublicAddress data).map fun adr => ⟨adr, false, none⟩
      else if config.publicSubaddressBase58Prefix = tag then
        (parseBinary accountPublicAddress data).map fun adr => ⟨adr, true, none⟩
      else none
    parsed.filter fun info =>
      checkKey info.address.spendPublicKey && checkKey info.address.viewPublicKey

def fromOldFormat (str : List UInt8) : Option AddressParseInfo :=
  match parseHexstrToBinbuff str with
  | none => none
  | some buff =>
    if buff.length ≠ sizeofOuterBlob then none
    else match publicAddressOuterBlob.read .lenient buff with
      | none => none
      | some (bl, _) =>
        if bl.ver > publicAddressTextblobVer then none
        else if bl.checkSum ≠ getAccountAddressChecksum bl then none
        else some ⟨bl.address, false, none⟩

def getAccountAddressFromStr (str : List UInt8) :
    Except String (Option AddressParseInfo) := do
  let config ← getConfig nettype
  pure (if 2 * sizeofOuterBlob ≠ str.length then fromBase58 cnFastHash config str
    else fromOldFormat str)

def asStr (info : AddressParseInfo) : Except String (List UInt8) :=
  match info.paymentId with
  | some paymentId => getAccountIntegratedAddressAsStr cnFastHash nettype info.address paymentId
  | none => getAccountAddressAsStr cnFastHash nettype info.isSubaddress info.address

/-! ## Base58 texts -/

def Config.tagOf (config : Config) (info : AddressParseInfo) : Nat :=
  match info.paymentId with
  | some _ => config.publicIntegratedAddressBase58Prefix
  | none => if info.isSubaddress then config.publicSubaddressBase58Prefix
    else config.publicAddressBase58Prefix

def AddressParseInfo.toBlob (info : AddressParseInfo) : List UInt8 :=
  match info.paymentId with
  | some paymentId => serializableObjectToBlob integratedAddress ⟨info.address, paymentId⟩
  | none => serializableObjectToBlob accountPublicAddress info.address

variable {nettype} {config : Config} {info : AddressParseInfo} {str : List UInt8}

theorem asStr_eq (h : getConfig nettype = .ok config) (info : AddressParseInfo) :
    asStr cnFastHash nettype info
      = .ok (encodeAddr cnFastHash (config.tagOf info) info.toBlob) := by
  unfold asStr Config.tagOf AddressParseInfo.toBlob
  cases info.paymentId with
  | some paymentId =>
    dsimp only
    rw [getAccountIntegratedAddressAsStr, h]
    rfl
  | none =>
    rw [getAccountAddressAsStr, h]
    rfl

theorem fromBase58_eq_some (h : fromBase58 cnFastHash config str = some info) :
    decodeAddr cnFastHash str = some (config.tagOf info, info.toBlob) ∧ info.toBlob ≠ [] ∧
      checkKey info.address.spendPublicKey = true ∧
      checkKey info.address.viewPublicKey = true := by
  unfold fromBase58 at h
  split at h
  · cases h
  rename_i tag data hdecode
  obtain ⟨hparsed, hkeys⟩ := filter_eq_some_iff.mp h
  rw [Bool.and_eq_true] at hkeys
  have hblob : config.tagOf info = tag ∧ info.toBlob = data ∧ data ≠ [] := by
    split_ifs at hparsed with hintegrated haddress hsubaddress
    · obtain ⟨iadr, hiadr, rfl⟩ := map_eq_some_iff.mp hparsed
      exact ⟨hintegrated,
        serializableObjectToBlob_of_parseBinary (fun _ => rfl) integratedAddress_minSize hiadr⟩
    · obtain ⟨adr, hadr, rfl⟩ := map_eq_some_iff.mp hparsed
      exact ⟨haddress,
        serializableObjectToBlob_of_parseBinary (fun _ => rfl) accountPublicAddress_minSize hadr⟩
    · obtain ⟨adr, hadr, rfl⟩ := map_eq_some_iff.mp hparsed
      exact ⟨hsubaddress,
        serializableObjectToBlob_of_parseBinary (fun _ => rfl) accountPublicAddress_minSize hadr⟩
  obtain ⟨rfl, rfl, hne⟩ := hblob
  exact ⟨hdecode, hne, hkeys⟩

theorem fromBase58_asStr (hconfig : getConfig nettype = .ok config)
    (h : fromBase58 cnFastHash config str = some info) :
    asStr cnFastHash nettype info = .ok str := by
  obtain ⟨hdecode, hne, -, -⟩ := fromBase58_eq_some cnFastHash h
  rw [asStr_eq cnFastHash hconfig, encodeAddr_of_decodeAddr cnFastHash hdecode hne]

def publicNetworks : List NetworkType := [.mainnet, .testnet, .stagenet]

theorem tagOf_mem_tags (config : Config) (info : AddressParseInfo) :
    config.tagOf info ∈ config.tags := by
  unfold Config.tagOf Config.tags
  split
  · simp
  · split <;> simp

theorem eq_of_shared_tag : ∀ n ∈ publicNetworks, ∀ n' ∈ publicNetworks,
    ∀ config config' : Config, getConfig n = .ok config → getConfig n' = .ok config' →
      ∀ tag ∈ config.tags, tag ∈ config'.tags → n = n' := by
  intro n hn n' hn' config config' h h' tag htag htag'
  fin_cases hn <;> fin_cases hn' <;> cases h <;> cases h' <;>
    simp [Config.tags] at htag htag' ⊢ <;> omega

theorem fromBase58_network {n n' : NetworkType} (hn : n ∈ publicNetworks)
    (hn' : n' ∈ publicNetworks) {config' : Config} (h : getConfig n = .ok config)
    (h' : getConfig n' = .ok config') {info' : AddressParseInfo}
    (hinfo : fromBase58 cnFastHash config str = some info)
    (hinfo' : fromBase58 cnFastHash config' str = some info') : n = n' := by
  have hdecode := (fromBase58_eq_some cnFastHash hinfo).1
  have hdecode' := (fromBase58_eq_some cnFastHash hinfo').1
  have htag : config.tagOf info = config'.tagOf info' :=
    congrArg Prod.fst (Option.mem_unique hdecode hdecode')
  have hmem' := tagOf_mem_tags config' info'
  rw [← htag] at hmem'
  exact eq_of_shared_tag n hn n' hn' config config' h h' _ (tagOf_mem_tags config info) hmem'

theorem length_toBlob (info : AddressParseInfo) :
    info.toBlob.length = 64 ∨ info.toBlob.length = 72 := by
  obtain ⟨⟨⟨spend, hspend⟩, ⟨view, hview⟩⟩, sub, paymentId⟩ := info
  cases paymentId with
  | none =>
    left
    show (spend ++ view).length = 64
    rw [length_append, hspend, hview]
  | some paymentId =>
    right
    show ((spend ++ view) ++ paymentId.val).length = 72
    rw [length_append, length_append, hspend, hview, paymentId.property]

theorem length_text (h : getConfig nettype = .ok config) (info : AddressParseInfo) :
    2 * sizeofOuterBlob ≠ (encodeAddr cnFastHash (config.tagOf info) info.toBlob).length := by
  have htag : ∀ tag ∈ config.tags, (Bytes.writeVarint tag).length = 2 := by
    cases nettype <;> cases h <;> decide +kernel
  rw [encodeAddr, length_encode, length_append, length_addrChecksum, length_append,
    htag _ (tagOf_mem_tags config info)]
  rcases length_toBlob info with hlen | hlen <;> rw [hlen] <;> decide

theorem fromBase58_encodeAddr (h : getConfig nettype = .ok config) (info : AddressParseInfo) :
    fromBase58 cnFastHash config (encodeAddr cnFastHash (config.tagOf info) info.toBlob)
      = (some { info with isSubaddress := info.isSubaddress && info.paymentId.isNone }).filter
        fun info => checkKey info.address.spendPublicKey
          && checkKey info.address.viewPublicKey := by
  have htag : ∀ tag ∈ config.tags, tag < 2 ^ 64 := by cases nettype <;> cases h <;> decide
  obtain ⟨adr, sub, paymentId⟩ := info
  rw [fromBase58, decodeAddr_encodeAddr _ (htag _ (tagOf_mem_tags config _))]
  dsimp only
  congr 1
  cases paymentId with
  | some paymentId =>
    have hiadr := parseBinary_serializableObjectToBlob (c := integratedAddress)
      (a := ⟨adr, paymentId⟩) rfl rfl
    simp [AddressParseInfo.toBlob, Config.tagOf, hiadr]
  | none =>
    have hadr := parseBinary_serializableObjectToBlob (c := accountPublicAddress) (a := adr) rfl rfl
    -- the tags of a network are distinct
    cases sub <;> cases nettype <;> cases h <;>
      simp [AddressParseInfo.toBlob, Config.tagOf, hadr]

end

/-! ## Texts of the old format -/

theorem length_parseHexstrToBinbuff : ∀ {str buff : List UInt8},
    parseHexstrToBinbuff str = some buff → 2 * buff.length = str.length
  | [], buff, h => by
    cases h
    rfl
  | [_], buff, h => by cases h
  | hi :: lo :: rest, buff, h => by
    rw [parseHexstrToBinbuff] at h
    split at h
    · rename_i hrest
      cases h
      have := length_parseHexstrToBinbuff hrest
      simp only [length_cons]
      omega
    · cases h

def PublicAddressOuterBlob.toBytes (bl : PublicAddressOuterBlob) : List UInt8 :=
  bl.ver :: (bl.address.spendPublicKey.val ++ bl.address.viewPublicKey.val) ++ [bl.checkSum]

theorem publicAddressOuterBlob_read (bl : PublicAddressOuterBlob) :
    publicAddressOuterBlob.read .lenient bl.toBytes = some (bl, []) := by
  have hwrite : publicAddressOuterBlob.write bl = some bl.toBytes := by
    change some ([bl.ver] ++ ((bl.address.spendPublicKey.val ++ bl.address.viewPublicKey.val)
      ++ [bl.checkSum])) = some bl.toBytes
    rw [PublicAddressOuterBlob.toBytes, singleton_append, cons_append]
  have hread := publicAddressOuterBlob.read_mono (publicAddressOuterBlob.read_write hwrite [])
  rwa [append_nil] at hread

theorem exists_outerBlob {buff : List UInt8} (h : buff.length = sizeofOuterBlob) :
    ∃ bl : PublicAddressOuterBlob, buff = bl.toBytes := by
  unfold sizeofOuterBlob at h
  obtain ⟨ver, rest, rfl⟩ := exists_cons_of_length_pos (by omega : 0 < buff.length)
  rw [length_cons] at h
  have hne : rest ≠ [] := by
    rintro rfl
    cases h
  have hkeys : rest.dropLast.length = 64 := by
    rw [length_dropLast]
    omega
  refine ⟨⟨ver, ⟨⟨rest.dropLast.take 32, ?_⟩, ⟨rest.dropLast.drop 32, ?_⟩⟩, rest.getLast hne⟩, ?_⟩
  · rw [length_take, hkeys]
    rfl
  · rw [length_drop, hkeys]
  · rw [PublicAddressOuterBlob.toBytes, take_append_drop, cons_append, dropLast_concat_getLast]

/-- Hex digits of version 0, 64 bytes of keys and the sum of all bytes before it. -/
def OldFormat (str : List UInt8) : Prop :=
  str.length = 2 * sizeofOuterBlob ∧ ∃ buff, parseHexstrToBinbuff str = some buff ∧
    buff.head? = some publicAddressTextblobVer ∧ buff.getLast? = some (byteSum buff.dropLast)

theorem fromOldFormat_isSome_iff {str : List UInt8} (hlen : str.length = 2 * sizeofOuterBlob) :
    (∃ info, fromOldFormat str = some info) ↔ OldFormat str := by
  unfold fromOldFormat OldFormat
  rw [and_iff_right hlen]
  cases hbuff : parseHexstrToBinbuff str with
  | none => simp
  | some buff =>
    have hsize : buff.length = sizeofOuterBlob := by
      have := length_parseHexstrToBinbuff hbuff
      omega
    obtain ⟨bl, rfl⟩ := exists_outerBlob hsize
    have hhead : bl.toBytes.head? = some bl.ver := rfl
    have hlast : bl.toBytes.getLast? = some bl.checkSum := getLast?_concat
    have hsum : byteSum bl.toBytes.dropLast = getAccountAddressChecksum bl := by
      rw [PublicAddressOuterBlob.toBytes, dropLast_concat]
      rfl
    dsimp only
    rw [if_neg (not_ne_iff.mpr hsize), publicAddressOuterBlob_read]
    dsimp only
    constructor
    · rintro ⟨info, hinfo⟩
      split_ifs at hinfo with hver hcheck
      refine ⟨bl.toBytes, rfl, ?_, ?_⟩
      · rw [hhead, Option.some.injEq, ← UInt8.toNat_inj]
        rw [gt_iff_lt, UInt8.lt_iff_toNat_lt] at hver
        exact Nat.eq_zero_of_not_pos hver
      · rw [hlast, hsum, not_ne_iff.mp hcheck]
    · rintro ⟨buff, hbuff', hver, hcheck⟩
      obtain rfl := Option.some.inj hbuff'
      rw [hhead, Option.some.injEq] at hver
      rw [hlast, hsum, Option.some.injEq] at hcheck
      rw [if_neg (by rw [hver]; decide), if_neg (not_ne_iff.mpr hcheck)]
      exact ⟨_, rfl⟩

/-! ## All texts -/

structure ParsesSafely (cnFastHash : List UInt8 → Blob 32) (str : List UInt8) : Prop where
  network : ∀ n ∈ publicNetworks, ∀ n' ∈ publicNetworks, ∀ info info' : AddressParseInfo,
    getAccountAddressFromStr cnFastHash n str = .ok (some info) →
      getAccountAddressFromStr cnFastHash n' str = .ok (some info') → n = n'
  keys : ∀ (nettype : NetworkType) (info : AddressParseInfo),
    getAccountAddressFromStr cnFastHash nettype str = .ok (some info) →
      checkKey info.address.spendPublicKey = true ∧ checkKey info.address.viewPublicKey = true
  text : ∀ (nettype : NetworkType) (info : AddressParseInfo),
    getAccountAddressFromStr cnFastHash nettype str = .ok (some info) →
      asStr cnFastHash nettype info = .ok str

theorem getAccountAddressFromStr_eq {cnFastHash : List UInt8 → Blob 32} :
    getAccountAddressFromStr cnFastHash nettype str = .ok (some info) ↔
      ∃ config, getConfig nettype = .ok config ∧
        (if 2 * sizeofOuterBlob ≠ str.length then fromBase58 cnFastHash config str
          else fromOldFormat str) = some info := by
  unfold getAccountAddressFromStr
  cases getConfig nettype with
  | error e => exact ⟨nofun, by rintro ⟨config, h, -⟩; cases h⟩
  | ok config =>
    constructor
    · intro h
      exact ⟨config, rfl, Except.ok.inj h⟩
    · rintro ⟨_, h, hinfo⟩
      cases h
      exact congrArg Except.ok hinfo

/-- A text parses safely exactly when it is not in the old format. -/
theorem parses_safely_iff (cnFastHash : List UInt8 → Blob 32) (str : List UInt8) :
    ParsesSafely cnFastHash str ↔ ¬ OldFormat str := by
  constructor
  · -- the old format names no network: the text is taken on two of them
    rintro hsafe hold
    obtain ⟨info, hinfo⟩ := (fromOldFormat_isSome_iff hold.1).mpr hold
    have htaken : ∀ {n config}, getConfig n = .ok config →
        getAccountAddressFromStr cnFastHash n str = .ok (some info) := by
      intro n config hn
      refine getAccountAddressFromStr_eq.mpr ⟨config, hn, ?_⟩
      rw [if_neg (not_ne_iff.mpr hold.1.symm), hinfo]
    have := hsafe.network .mainnet (by decide) .testnet (by decide) info info (htaken rfl)
      (htaken rfl)
    cases this
  · intro hold
    -- every text that is taken is then a base58 text
    have hbase58 : ∀ {n info}, getAccountAddressFromStr cnFastHash n str = .ok (some info) →
        ∃ config, getConfig n = .ok config ∧ fromBase58 cnFastHash config str = some info := by
      intro n info h
      obtain ⟨config, hconfig, hinfo⟩ := getAccountAddressFromStr_eq.mp h
      refine ⟨config, hconfig, ?_⟩
      split_ifs at hinfo with hlen
      · exact hinfo
      · have hlen' : str.length = 2 * sizeofOuterBlob := (not_ne_iff.mp hlen).symm
        exact absurd ((fromOldFormat_isSome_iff hlen').mp ⟨info, hinfo⟩) hold
    refine ⟨?_, ?_, ?_⟩
    · intro n hn n' hn' info info' h h'
      obtain ⟨config, hconfig, hinfo⟩ := hbase58 h
      obtain ⟨config', hconfig', hinfo'⟩ := hbase58 h'
      exact fromBase58_network cnFastHash hn hn' hconfig hconfig' hinfo hinfo'
    · intro n info h
      obtain ⟨config, -, hinfo⟩ := hbase58 h
      exact (fromBase58_eq_some cnFastHash hinfo).2.2
    · intro n info h
      obtain ⟨config, hconfig, hinfo⟩ := hbase58 h
      exact fromBase58_asStr cnFastHash hconfig hinfo

def sampleKey : PublicKey := ⟨2 :: List.replicate 31 0, rfl⟩

/-- `00`, twice `02` and 31 times `00`, and the sum `04`, in hex digits. -/
def sampleText : List UInt8 :=
  let key : List UInt8 := 0x30 :: 0x32 :: List.replicate 62 0x30
  0x30 :: 0x30 :: (key ++ key) ++ [0x30, 0x34]

/-- A text of the old format is taken on two networks with keys that are no points, and encoding
the address gives another text. -/
theorem old_format_taken :
    let taken : Except String (Option AddressParseInfo) :=
      .ok (some ⟨⟨sampleKey, sampleKey⟩, false, none⟩)
    getAccountAddressFromStr (fun _ => Blob.zero 32) .mainnet sampleText = taken ∧
    getAccountAddressFromStr (fun _ => Blob.zero 32) .testnet sampleText = taken ∧
    checkKey sampleKey = false ∧
    getAccountAddressAsStr (fun _ => Blob.zero 32) .mainnet false ⟨sampleKey, sampleKey⟩
      ≠ .ok sampleText := by
  decide +kernel

/-- On the network it was encoded for, an address is parsed as what it is exactly when its keys are
points of the curve and it is not both integrated and a subaddress. -/
theorem encoded_address_parses_iff (cnFastHash : List UInt8 → Blob 32) (nettype : NetworkType)
    (info : AddressParseInfo) (str : List UInt8) (h : asStr cnFastHash nettype info = .ok str) :
    getAccountAddressFromStr cnFastHash nettype str = .ok (some info) ↔
      checkKey info.address.spendPublicKey = true ∧ checkKey info.address.viewPublicKey = true
        ∧ (info.paymentId.isSome → info.isSubaddress = false) := by
  obtain ⟨config, hconfig⟩ : ∃ config, getConfig nettype = .ok config := by
    cases nettype with
    | undefined =>
      unfold asStr at h
      split at h <;> cases h
    | mainnet | testnet | stagenet | fakechain => exact ⟨_, rfl⟩
  rw [asStr_eq cnFastHash hconfig, Except.ok.injEq] at h
  subst h
  simp only [getAccountAddressFromStr_eq, hconfig, Except.ok.injEq, exists_eq_left',
    if_pos (length_text cnFastHash hconfig info), fromBase58_encodeAddr cnFastHash hconfig]
  obtain ⟨adr, sub, paymentId⟩ := info
  cases paymentId <;> cases sub <;> simp [filter_eq_some_iff]

theorem encoded_address_parses_sample :
    let key : PublicKey := ⟨1 :: List.replicate 31 0, rfl⟩
    ∃ str, asStr (fun _ => Blob.zero 32) .stagenet ⟨⟨key, key⟩, true, none⟩ = .ok str
      ∧ getAccountAddressFromStr (fun _ => Blob.zero 32) .stagenet str
        = .ok (some ⟨⟨key, key⟩, true, none⟩) :=
  ⟨_, rfl, (encoded_address_parses_iff _ _ _ _ rfl).mpr
    ⟨by decide +kernel, by decide +kernel, by simp⟩⟩

end Glaciem.Address
