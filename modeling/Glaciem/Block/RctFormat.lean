import Glaciem.Lib.Codec

/-!
# Glaciem — the binary format of ring signatures

The part of a transaction that `src/ringct/rctTypes.h` serializes: `serialize_rctsig_base` and
`serialize_rctsig_prunable`, each one template that reads or writes, so each is one `Codec` here. A
`FIELD` line is a component of a sequence, a `return false` a `fail` or an `ensure`, an array of
known size an `exactly`.
-/

namespace Glaciem.Serial

open List Option

open Codec

/-- A 32-byte blob: `rct::key`, and `crypto::hash`, `public_key` and `key_image`. -/
abbrev Key := Blob 32

def key : Codec Key := blob 32

/-- `VARINT_FIELD` of a 64-bit member, `size_t` included. -/
def varint64 : Codec UInt64 :=
  (varint 64).imap (fun n => ⟨⟨n⟩⟩) (fun u => u.toBitVec.toFin) fun _ => rfl

def varint32 : Codec UInt32 :=
  (varint 32).imap (fun n => ⟨⟨n⟩⟩) (fun u => u.toBitVec.toFin) fun _ => rfl

def varint8 : Codec UInt8 :=
  (varint 8).imap (fun n => ⟨⟨n⟩⟩) (fun u => u.toBitVec.toFin) fun _ => rfl

def keys : Codec (List Key) :=
  container key fun a w h => (by decide : 1 ≤ 32).trans (blob_minSize 32 a w h)

theorem key_exact : key.Exact := blob_exact 32

theorem keys_exact : keys.Exact := container_exact key_exact

theorem varint64_minSize : varint64.MinSize 1 := imap_minSize (varint_minSize 64)

theorem varint64_exact : varint64.Exact := imap_carries (varint_exact 64)

theorem varint32_exact : varint32.Exact := imap_carries (varint_exact 32)

/-! ## Range proofs -/

structure RangeSig where
  asig : Blob 4128
  Ci : Blob 2048
  deriving DecidableEq

def rangeSig : Codec RangeSig :=
  ((blob 4128).pair (blob 2048)).imap (fun p => ⟨p.1, p.2⟩) (fun r => (r.asig, r.Ci)) fun _ => rfl

structure Bulletproof where
  A : Key
  S : Key
  T1 : Key
  T2 : Key
  taux : Key
  mu : Key
  L : List Key
  R : List Key
  a : Key
  b : Key
  t : Key
  deriving DecidableEq

def bulletproof : Codec Bulletproof :=
  ((key.pair <| key.pair <| key.pair <| key.pair <| key.pair <| key.pair <| keys.pair <|
      keys.pair <| key.pair <| key.pair key).imap
    (fun ⟨A, S, T1, T2, taux, mu, L, R, a, b, t⟩ => ⟨A, S, T1, T2, taux, mu, L, R, a, b, t⟩)
    (fun p => (p.A, p.S, p.T1, p.T2, p.taux, p.mu, p.L, p.R, p.a, p.b, p.t))
    fun _ => rfl).ensure
  fun p => !(p.L.isEmpty || p.L.length != p.R.length)

structure BulletproofPlus where
  A : Key
  A1 : Key
  B : Key
  r1 : Key
  s1 : Key
  d1 : Key
  L : List Key
  R : List Key
  deriving DecidableEq

def bulletproofPlus : Codec BulletproofPlus :=
  ((key.pair <| key.pair <| key.pair <| key.pair <| key.pair <| key.pair <| keys.pair keys).imap
    (fun ⟨A, A1, B, r1, s1, d1, L, R⟩ => ⟨A, A1, B, r1, s1, d1, L, R⟩)
    (fun p => (p.A, p.A1, p.B, p.r1, p.s1, p.d1, p.L, p.R))
    fun _ => rfl).ensure
  fun p => !(p.L.isEmpty || p.L.length != p.R.length)

theorem rangeSig_exact : rangeSig.Exact :=
  imap_carries (pair_carries (blob_exact 4128) (blob_exact 2048))

theorem bulletproof_exact : bulletproof.Exact :=
  ensure_carries <| imap_carries <| pair_carries key_exact <| pair_carries key_exact <|
    pair_carries key_exact <| pair_carries key_exact <| pair_carries key_exact <|
    pair_carries key_exact <| pair_carries keys_exact <| pair_carries keys_exact <|
    pair_carries key_exact <| pair_carries key_exact key_exact

theorem bulletproofPlus_exact : bulletproofPlus.Exact :=
  ensure_carries <| imap_carries <| pair_carries key_exact <| pair_carries key_exact <|
    pair_carries key_exact <| pair_carries key_exact <| pair_carries key_exact <|
    pair_carries key_exact <| pair_carries keys_exact keys_exact

/-- `n_bulletproof_max_amounts_base`, 0 when the sizes are wrong. -/
def nBulletproofMaxAmountsBase (lSize rSize : Nat) : Nat :=
  if 6 ≤ lSize ∧ lSize = rSize ∧ lSize ≤ 10 then 2 ^ (lSize - 6) else 0

/-- The loop of `n_bulletproof_max_amounts` and of `n_bulletproof_plus_max_amounts`, from the sum
`n` on. -/
def sumMaxAmounts : Nat → List Nat → Nat
  | n, [] => n
  | n, n2 :: rest =>
    if n2 < 0xffffffff - n then
      if n2 = 0 then 0 else sumMaxAmounts (n + n2) rest
    else 0

theorem length_le_sumMaxAmounts (l : List Nat) : ∀ n, sumMaxAmounts n l ≠ 0 →
    n + l.length ≤ sumMaxAmounts n l ∧ (l ≠ [] → sumMaxAmounts n l < 2 ^ 32) := by
  induction l with
  | nil =>
    intro n _
    exact ⟨Nat.le_refl n, fun h => absurd rfl h⟩
  | cons n2 rest ih =>
    intro n h
    rw [sumMaxAmounts] at h ⊢
    split_ifs at h ⊢ with hfit hzero
    · exact absurd rfl h
    · obtain ⟨hle, hlt⟩ := ih _ h
      rw [length_cons]
      refine ⟨by omega, fun _ => ?_⟩
      cases rest with
      | nil =>
        rw [sumMaxAmounts]
        omega
      | cons => exact hlt (cons_ne_nil _ _)
    · exact absurd rfl h

theorem sumMaxAmounts_of_long {l : List Nat} (h : 2 ^ 32 ≤ l.length) : sumMaxAmounts 0 l = 0 := by
  by_contra hne
  have hl : l ≠ [] := by
    rintro rfl
    simp at h
  have hsum := length_le_sumMaxAmounts l 0 hne
  have := hsum.2 hl
  omega

section Proofs

variable {P : Type} (count : Codec UInt32) (c : Codec P) (amounts : P → Nat) (outputs : Nat)

/-- Their number `nbp`, a `uint32_t`, then `nbp` proofs that cover all outputs. The writer checks
the whole vector and writes `nbp` elements of it. -/
def proofs (hcount : count.Exact) (hc : c.Exact) : Codec (List P) where
  read m bs := (count.read m bs).bind fun r =>
    if outputs < r.1.toNat then none
    else ((exactly r.1.toNat c).ensure
      fun ps => !(sumMaxAmounts 0 (ps.map amounts) < outputs)).read m r.2
  write ps := (count.write (UInt32.ofNat ps.length)).bind fun w =>
    if outputs < (UInt32.ofNat ps.length).toNat then none
    else if sumMaxAmounts 0 (ps.map amounts) < outputs then none
    else ((exactly (UInt32.ofNat ps.length).toNat c).write
      (ps.take (UInt32.ofNat ps.length).toNat)).map (w ++ ·)
  norm ps := ps.take (UInt32.ofNat ps.length).toNat
  read_mono {bs r} h := by
    rw [bind_eq_some_iff] at h ⊢
    obtain ⟨n, hn, h⟩ := h
    refine ⟨n, count.read_mono hn, ?_⟩
    split_ifs at h ⊢
    exact (ensure _ _).read_mono h
  read_write {ps w} h rest := by
    rw [bind_eq_some_iff] at h
    obtain ⟨w1, h1, h⟩ := h
    split_ifs at h with hnbp hcover
    rw [map_eq_some_iff] at h
    obtain ⟨w2, h2, rfl⟩ := h
    set nbp := UInt32.ofNat ps.length with hdef
    have hnorm : (exactly nbp.toNat c).norm (ps.take nbp.toNat) = ps.take nbp.toNat := by
      exact exactly_exact hc _ _ _ h2
    -- a vector too long for its count is accepted only when there is nothing to cover
    have hcover' : ¬ sumMaxAmounts 0 ((ps.take nbp.toNat).map amounts) < outputs := by
      by_cases hlong : 2 ^ 32 ≤ ps.length
      · rw [sumMaxAmounts_of_long (by rwa [length_map])] at hcover
        omega
      · rwa [take_of_length_le]
        rw [hdef, UInt32.toNat_ofNat', Nat.mod_eq_of_lt (by omega)]
    have hread := ((exactly nbp.toNat c).ensure
      fun ps => !(sumMaxAmounts 0 (ps.map amounts) < outputs)).read_write (a := ps.take nbp.toNat)
      (w := w2) (by simp only [ensure, hnorm, hcover', decide_false, Bool.not_false, if_true, h2])
      rest
    rw [append_assoc, count.read_write h1, bind_some, hcount _ _ h1, id_eq, if_neg hnbp]
    exact hread.trans (congrArg (fun l => some (l, rest)) hnorm)
  write_read {m bs ps rest} h := by
    rw [bind_eq_some_iff] at h
    obtain ⟨⟨nbp, mid⟩, hn, h⟩ := h
    dsimp only at h
    split_ifs at h with hnbp
    obtain ⟨-, w1, hw1, hbs⟩ := count.write_read hn
    obtain ⟨hread, hcover⟩ := filter_eq_some_iff.mp h
    have hlen : ps.length = nbp.toNat := length_of_exactly_read hread
    obtain ⟨-, w2, hw2, hmid⟩ := (exactly nbp.toNat c).write_read hread
    have hof : UInt32.ofNat ps.length = nbp := by rw [hlen, UInt32.ofNat_toNat]
    have htake : ps.take nbp.toNat = ps := take_of_length_le hlen.le
    refine ⟨by rw [hof, htake], w1 ++ w2, ?_, fun hm => ?_⟩
    · simp only [Bool.not_eq_true', decide_eq_false_iff_not] at hcover
      rw [hof, hw1, bind_some, if_neg hnbp, if_neg hcover, htake, hw2]
      rfl
    · rw [hbs hm, hmid hm, append_assoc]

end Proofs

/-! ## Signatures -/

structure MgSig where
  ss : List (List Key)
  cc : Key
  deriving DecidableEq

structure Clsag where
  s : List Key
  c1 : Key
  D : Key
  deriving DecidableEq

def mgSig (rows columns : Nat) : Codec MgSig :=
  ((exactly rows (exactly columns key)).pair key).imap (fun p => ⟨p.1, p.2⟩)
    (fun g => (g.ss, g.cc)) fun _ => rfl

def clsag (scalars : Nat) : Codec Clsag :=
  ((exactly scalars key).pair (key.pair key)).imap (fun p => ⟨p.1, p.2.1, p.2.2⟩)
    (fun g => (g.s, g.c1, g.D)) fun _ => rfl

structure EcdhTuple where
  mask : Key
  amount : Key
  deriving DecidableEq

/-! ## Types -/

def rctTypeNull : UInt8 := 0
def rctTypeFull : UInt8 := 1
def rctTypeSimple : UInt8 := 2
def rctTypeBulletproof : UInt8 := 3
def rctTypeBulletproof2 : UInt8 := 4
def rctTypeCLSAG : UInt8 := 5
def rctTypeBulletproofPlus : UInt8 := 6

variable (type : UInt8)

/-- The types other than `RCTTypeNull` that both templates accept. -/
def isKnownType : Bool :=
  type == rctTypeFull || type == rctTypeSimple || type == rctTypeBulletproof
    || type == rctTypeBulletproof2 || type == rctTypeCLSAG || type == rctTypeBulletproofPlus

/-- Since `RCTTypeBulletproof2` only the first 8 bytes of an amount are serialized. -/
def hasShortAmounts : Bool :=
  type == rctTypeBulletproof2 || type == rctTypeCLSAG || type == rctTypeBulletproofPlus

def hasPrunablePseudoOuts : Bool :=
  type == rctTypeBulletproof || type == rctTypeBulletproof2 || type == rctTypeCLSAG
    || type == rctTypeBulletproofPlus

/-- `RCTTypeSimple` and its successors sign each input by itself. -/
def signsEachInput : Bool :=
  type == rctTypeSimple || type == rctTypeBulletproof || type == rctTypeBulletproof2

def hasBulletproofs : Bool :=
  type == rctTypeBulletproof || type == rctTypeBulletproof2 || type == rctTypeCLSAG

def hasClsags : Bool := type == rctTypeCLSAG || type == rctTypeBulletproofPlus

/-! ## The unprunable part -/

/-- `rct::rctSigBase`; of an output key only the mask. -/
structure RctSigBase where
  type : UInt8
  txnFee : UInt64
  pseudoOuts : List Key
  ecdhInfo : List EcdhTuple
  outPk : List Key
  deriving DecidableEq

def EcdhTuple.truncAmount (e : EcdhTuple) : Blob 8 :=
  ⟨e.amount.val.take 8, by rw [length_take, e.amount.property]; rfl⟩

/-- What loading makes of 8 bytes: an amount filled with zeros, no mask. -/
def EcdhTuple.ofTruncAmount (b : Blob 8) : EcdhTuple where
  mask := .zero 32
  amount := ⟨b.val ++ List.replicate 24 0, by rw [length_append, b.property]; rfl⟩

theorem EcdhTuple.truncAmount_ofTruncAmount (b : Blob 8) : (ofTruncAmount b).truncAmount = b :=
  Subtype.ext (take_left' b.property)

def ecdhTuple : Codec EcdhTuple :=
  if hasShortAmounts type then
    (blob 8).imap .ofTruncAmount EcdhTuple.truncAmount EcdhTuple.truncAmount_ofTruncAmount
  else (key.pair key).imap (fun p => ⟨p.1, p.2⟩) (fun e => (e.mask, e.amount)) fun _ => rfl

def rctSigBaseBody (inputs outputs : Nat) (type : UInt8) :
    Codec (UInt64 × List Key × List EcdhTuple × List Key) :=
  varint64.pair <|
    (if type == rctTypeSimple then exactly inputs key else skip []).pair <|
    (exactly outputs (ecdhTuple type)).pair (exactly outputs key)

def rctSigBase (inputs outputs : Nat) : Codec RctSigBase :=
  (uint8.seq fun type =>
    if type == rctTypeNull then skip (0, [], [], [])
    else if isKnownType type then rctSigBaseBody inputs outputs type
    else fail).imap
  (fun p => ⟨p.1, p.2.1, p.2.2.1, p.2.2.2.1, p.2.2.2.2⟩)
  (fun r => (r.type, r.txnFee, r.pseudoOuts, r.ecdhInfo, r.outPk)) fun _ => rfl

/-! ## The prunable part -/

structure RctSigPrunable where
  rangeSigs : List RangeSig := []
  bulletproofs : List Bulletproof := []
  bulletproofsPlus : List BulletproofPlus := []
  MGs : List MgSig := []
  CLSAGs : List Clsag := []
  pseudoOuts : List Key := []
  deriving DecidableEq

def Bulletproof.maxAmounts (p : Bulletproof) : Nat :=
  nBulletproofMaxAmountsBase p.L.length p.R.length

def BulletproofPlus.maxAmounts (p : BulletproofPlus) : Nat :=
  nBulletproofMaxAmountsBase p.L.length p.R.length

/-- The range proofs, of the kind the type has. The count of `RCTTypeBulletproof` is a plain
32-bit word. -/
def rangeProofs (outputs : Nat) : Codec (List RangeSig × List Bulletproof × List BulletproofPlus) :=
  if type == rctTypeBulletproofPlus then
    (skip []).pair <| (skip []).pair <| proofs varint32 bulletproofPlus
      BulletproofPlus.maxAmounts outputs varint32_exact bulletproofPlus_exact
  else if type == rctTypeBulletproof2 || type == rctTypeCLSAG then
    (skip []).pair <| (proofs varint32 bulletproof
      Bulletproof.maxAmounts outputs varint32_exact bulletproof_exact).pair (skip [])
  else if type == rctTypeBulletproof then
    (skip []).pair <| (proofs uint32 bulletproof
      Bulletproof.maxAmounts outputs uint32_exact bulletproof_exact).pair (skip [])
  else (exactly outputs rangeSig).pair <| (skip []).pair (skip [])

def ringSigs (inputs mixin : Nat) : Codec (List MgSig × List Clsag) :=
  if hasClsags type then (skip []).pair (exactly inputs (clsag (mixin + 1)))
  else (exactly (if signsEachInput type then inputs else 1)
    (mgSig (mixin + 1) ((if signsEachInput type then 1 else inputs) + 1))).pair (skip [])

def rctSigPrunable (inputs outputs mixin : Nat) : Codec RctSigPrunable :=
  if inputs ≥ 0xffffffff ∨ outputs ≥ 0xffffffff ∨ mixin ≥ 0xffffffff then fail
  else if type == rctTypeNull then skip {}
  else if isKnownType type then
    ((rangeProofs type outputs).pair <| (ringSigs type inputs mixin).pair <|
      if hasPrunablePseudoOuts type then exactly inputs key else skip []).imap
    (fun p => ⟨p.1.1, p.1.2.1, p.1.2.2, p.2.1.1, p.2.1.2, p.2.2⟩)
    (fun r => ((r.rangeSigs, r.bulletproofs, r.bulletproofsPlus), (r.MGs, r.CLSAGs), r.pseudoOuts))
    fun _ => rfl
  else fail

structure RctSig extends RctSigBase where
  p : RctSigPrunable
  deriving DecidableEq

def RctSig.null : RctSig := ⟨⟨rctTypeNull, 0, [], [], []⟩, {}⟩

def rctSig (inputs outputs mixin : Nat) : Codec RctSig :=
  ((rctSigBase inputs outputs).seq fun base =>
    if base.type != rctTypeNull then rctSigPrunable base.type inputs outputs mixin
    else skip {}).imap
  (fun p => ⟨p.1, p.2⟩) (fun r => (r.toRctSigBase, r.p)) fun _ => rfl

/-! ## What a signature carries -/

def EcdhTuple.carried (e : EcdhTuple) : EcdhTuple :=
  if hasShortAmounts type then ofTruncAmount e.truncAmount else e

def RctSigBase.carried (r : RctSigBase) : RctSigBase :=
  if r.type == rctTypeNull then ⟨r.type, 0, [], [], []⟩
  else { r with
    pseudoOuts := if r.type == rctTypeSimple then r.pseudoOuts else []
    ecdhInfo := r.ecdhInfo.map (EcdhTuple.carried r.type) }

def countedProofs {P : Type} (ps : List P) : List P := ps.take (UInt32.ofNat ps.length).toNat

def RctSigPrunable.carried (r : RctSigPrunable) : RctSigPrunable :=
  if type == rctTypeNull then {}
  else
    { rangeSigs := if hasBulletproofs type || type == rctTypeBulletproofPlus then []
        else r.rangeSigs
      bulletproofs := if hasBulletproofs type then countedProofs r.bulletproofs else []
      bulletproofsPlus :=
        if type == rctTypeBulletproofPlus then countedProofs r.bulletproofsPlus else []
      MGs := if hasClsags type then [] else r.MGs
      CLSAGs := if hasClsags type then r.CLSAGs else []
      pseudoOuts := if hasPrunablePseudoOuts type then r.pseudoOuts else [] }

def RctSig.carried (r : RctSig) : RctSig := ⟨r.toRctSigBase.carried, r.p.carried r.type⟩

theorem ecdhTuple_carries : (ecdhTuple type).Carries (EcdhTuple.carried type) := by
  unfold ecdhTuple EcdhTuple.carried
  split
  · exact imap_carries (blob_exact 8)
  · exact imap_carries (pair_carries key_exact key_exact)

theorem rctSigBaseBody_carries (inputs outputs : Nat) (type : UInt8) :
    (rctSigBaseBody inputs outputs type).Carries fun p =>
      (p.1, if type == rctTypeSimple then p.2.1 else [],
        p.2.2.1.map (EcdhTuple.carried type), p.2.2.2) := by
  have hpseudo : (if type == rctTypeSimple then exactly inputs key else skip []).Carries
      fun ps => if type == rctTypeSimple then ps else [] := by
    split
    · exact exactly_exact key_exact inputs
    · exact skip_carries []
  exact pair_carries varint64_exact <| pair_carries hpseudo <|
    pair_carries (exactly_carries (ecdhTuple_carries type) outputs)
      (exactly_exact key_exact outputs)

theorem rctSigBase_carries (inputs outputs : Nat) :
    (rctSigBase inputs outputs).Carries RctSigBase.carried := by
  have hbody : ∀ type, (if type == rctTypeNull then skip (0, [], [], [])
      else if isKnownType type then rctSigBaseBody inputs outputs type else fail).Carries fun p =>
        if type == rctTypeNull then (0, [], [], [])
        else (p.1, if type == rctTypeSimple then p.2.1 else [],
          p.2.2.1.map (EcdhTuple.carried type), p.2.2.2) := by
    intro type
    split
    · exact skip_carries _
    split
    · exact rctSigBaseBody_carries inputs outputs type
    · exact fail_carries _
  refine (imap_carries (seq_carries uint8_exact hbody)).congr fun r => ?_
  simp only [id_eq, RctSigBase.carried]
  split <;> rfl

theorem proofs_carries {P : Type} {count : Codec UInt32} {c : Codec P} {amounts : P → Nat}
    {outputs : Nat} {hcount : count.Exact} {hc : c.Exact} :
    (proofs count c amounts outputs hcount hc).Carries countedProofs :=
  fun _ _ _ => rfl

theorem rangeProofs_carries (outputs : Nat) :
    (rangeProofs type outputs).Carries fun p =>
      (if hasBulletproofs type || type == rctTypeBulletproofPlus then [] else p.1,
        if hasBulletproofs type then countedProofs p.2.1 else [],
        if type == rctTypeBulletproofPlus then countedProofs p.2.2 else []) := by
  unfold rangeProofs
  split
  · next h =>
    rw [beq_iff_eq] at h
    subst h
    exact pair_carries (skip_carries []) (pair_carries (skip_carries []) proofs_carries)
  split
  · next hplus h =>
    have hbp : hasBulletproofs type = true := by
      rw [hasBulletproofs, Bool.or_assoc, h, Bool.or_true]
    simp only [hbp, hplus, Bool.true_or, if_true]
    exact pair_carries (skip_carries []) (pair_carries proofs_carries (skip_carries []))
  split
  · next hplus _ h =>
    have hbp : hasBulletproofs type = true := by rw [hasBulletproofs, h, Bool.true_or, Bool.true_or]
    simp only [hbp, hplus, Bool.true_or, if_true]
    exact pair_carries (skip_carries []) (pair_carries proofs_carries (skip_carries []))
  · next hplus h2 h =>
    have hbp : hasBulletproofs type = false := by
      rw [hasBulletproofs, Bool.or_assoc, Bool.eq_false_iff.mpr h, Bool.eq_false_iff.mpr h2]
      rfl
    simp only [hbp, hplus, Bool.or_false, if_false, Bool.false_eq_true]
    exact pair_carries (exactly_exact rangeSig_exact outputs)
      (pair_carries (skip_carries []) (skip_carries []))

theorem ringSigs_carries (inputs mixin : Nat) :
    (ringSigs type inputs mixin).Carries fun p =>
      (if hasClsags type then [] else p.1, if hasClsags type then p.2 else []) := by
  have hclsag : ∀ n, (clsag n).Exact := fun n =>
    imap_carries (pair_carries (exactly_exact key_exact n) (pair_carries key_exact key_exact))
  have hmg : ∀ n k, (mgSig n k).Exact := fun n k =>
    imap_carries (pair_carries (exactly_exact (exactly_exact key_exact k) n) key_exact)
  unfold ringSigs
  split
  · exact pair_carries (skip_carries []) (exactly_exact (hclsag _) _)
  · exact pair_carries (exactly_exact (hmg _ _) _) (skip_carries [])

theorem rctSigPrunable_carries (inputs outputs mixin : Nat) :
    (rctSigPrunable type inputs outputs mixin).Carries (RctSigPrunable.carried type) := by
  have hpseudo : (if hasPrunablePseudoOuts type then exactly inputs key else skip []).Carries
      fun ps => if hasPrunablePseudoOuts type then ps else [] := by
    split
    · exact exactly_exact key_exact inputs
    · exact skip_carries []
  unfold rctSigPrunable RctSigPrunable.carried
  split
  · exact fail_carries _
  split
  · exact skip_carries _
  split
  · exact imap_carries (pair_carries (rangeProofs_carries type outputs)
      (pair_carries (ringSigs_carries type inputs mixin) hpseudo))
  · exact fail_carries _

theorem rctSig_carries (inputs outputs mixin : Nat) :
    (rctSig inputs outputs mixin).Carries RctSig.carried := by
  have hp : ∀ base : RctSigBase, (if base.type != rctTypeNull
      then rctSigPrunable base.type inputs outputs mixin else skip {}).Carries
        (RctSigPrunable.carried base.type) := by
    intro base
    split
    · exact rctSigPrunable_carries _ _ _ _
    · next h =>
      simp only [bne_iff_ne, ne_eq, Decidable.not_not] at h
      rw [h]
      exact skip_carries _
  refine (imap_carries (seq_carries (rctSigBase_carries inputs outputs) hp)).congr fun r => ?_
  have htype : r.toRctSigBase.carried.type = r.type := by
    rw [RctSigBase.carried]
    split <;> rfl
  simp only [RctSig.carried, htype]

end Glaciem.Serial
