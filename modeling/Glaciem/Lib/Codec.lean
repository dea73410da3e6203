import Glaciem.Lib.Bytes

/-!
# Glaciem — two-way binary formats

A `Codec α` is a reader and a writer of values of type `α` that are known to fit together. The
reader takes a prefix of a byte string and returns the rest; it has two modes, which differ in what
happens when the input ends before the last byte of a varint. The laws are fields of the structure,
so a format built from the combinators below has them without a proof of its own:

* `read_mono` — what the strict reader accepts, the lenient one accepts with the same result;
* `read_write` — reading what was written gives the value back, up to `norm`, the value with
  everything reset that the format does not carry;
* `write_read` — a value that was read can be written, and when it was read strictly the bytes
  written are the bytes read.
-/

namespace Glaciem

open List Option Nat

open Bytes

/-- What a reader does with a varint whose last byte is missing. -/
inductive Mode where
  /-- Take the groups read so far for the value. -/
  | lenient
  /-- Refuse the input. -/
  | strict
  deriving DecidableEq

structure Codec (α : Type) where
  read : Mode → List UInt8 → Option (α × List UInt8)
  write : α → Option (List UInt8)
  norm : α → α
  read_mono : ∀ {bs : List UInt8} {r : α × List UInt8},
    read .strict bs = some r → read .lenient bs = some r
  read_write : ∀ {a : α} {w : List UInt8}, write a = some w →
    ∀ rest, read .strict (w ++ rest) = some (norm a, rest)
  write_read : ∀ {m : Mode} {bs : List UInt8} {a : α} {rest : List UInt8},
    read m bs = some (a, rest) →
      norm a = a ∧ ∃ w, write a = some w ∧ (m = .strict → bs = w ++ rest)

namespace Codec

variable {α β γ : Type}

variable (c : Codec α)

/-- Every encoding of the format has at least `k` bytes. -/
def MinSize (k : Nat) : Prop := ∀ (a : α) (w : List UInt8), c.write a = some w → k ≤ w.length

/-- Of a value that can be written the format carries `f a`. -/
def Carries (f : α → α) : Prop := ∀ (a : α) (w : List UInt8), c.write a = some w → c.norm a = f a

/-- The format carries the whole of every value that can be written. -/
abbrev Exact : Prop := c.Carries id

variable {f : α → α} {shift bits k n : Nat} {m : Mode} {as : List α}

theorem Carries.congr {c : Codec α} {g : α → α} (h : c.Carries f) (hfg : ∀ a, f a = g a) :
    c.Carries g :=
  fun a w hw => (h a w hw).trans (hfg a)

/-! ## Bytes and words -/

def uint8 : Codec UInt8 where
  read _ bs := match bs with
    | [] => none
    | b :: rest => some (b, rest)
  write b := some [b]
  norm := id
  read_mono h := h
  read_write h rest := by
    cases h
    rfl
  write_read {m bs a rest} h := by
    cases bs with
    | nil => cases h
    | cons b bs =>
      cases h
      exact ⟨rfl, [a], rfl, fun _ => rfl⟩

theorem uint8_minSize : uint8.MinSize 1 := by
  intro a w h
  cases h
  exact le_refl 1

def Blob (n : Nat) : Type := { bs : List UInt8 // bs.length = n }

instance (n : Nat) : DecidableEq (Blob n) :=
  inferInstanceAs (DecidableEq { bs : List UInt8 // bs.length = n })

def Blob.zero (n : Nat) : Blob n := ⟨replicate n 0, length_replicate⟩

def blob (n : Nat) : Codec (Blob n) where
  read _ bs := if h : n ≤ bs.length then some (⟨bs.take n, length_take_of_le h⟩, bs.drop n)
    else none
  write b := some b.val
  norm := id
  read_mono h := h
  read_write {a w} h rest := by
    cases h
    have hlen : n ≤ (a.val ++ rest).length := by
      rw [length_append, a.property]
      omega
    rw [dif_pos hlen]
    have htake : (a.val ++ rest).take n = a.val := take_left' a.property
    have hdrop : (a.val ++ rest).drop n = rest := drop_left' a.property
    rw [hdrop]
    exact congrArg (fun b => some (b, rest)) (Subtype.ext htake)
  write_read {m bs a rest} h := by
    split at h
    · cases h
      exact ⟨rfl, _, rfl, fun _ => (take_append_drop n bs).symm⟩
    · cases h

theorem blob_minSize (n : Nat) : (blob n).MinSize n := by
  intro a w h
  cases h
  exact a.property.ge

theorem uint8_exact : uint8.Exact := fun _ _ _ => rfl

theorem blob_exact (n : Nat) : (blob n).Exact := fun _ _ _ => rfl

/-! ## Varints -/

/-- From the group at `shift` on; `acc` is what the groups before gave. A group that does not fit
into `bits` bits and a last group that is zero are refused. -/
def readVarint (m : Mode) (bits : Nat) : Nat → Nat → List UInt8 → Option (Nat × List UInt8)
  | _, acc, [] => match m with
    | .lenient => some (acc, [])
    | .strict => none
  | shift, acc, byte :: bs =>
    if shift + 7 ≥ bits ∧ byte.toNat ≥ 2 ^ (bits - shift) then none
    else if byte = 0 ∧ shift ≠ 0 then none
    else if byte &&& 0x80 = 0 then some (acc ||| (byte &&& 0x7f).toNat <<< shift, bs)
    else readVarint m bits (shift + 7) (acc ||| (byte &&& 0x7f).toNat <<< shift) bs

theorem toNat_and_low (b : UInt8) : (b &&& 0x7f).toNat = b.toNat % 128 := by
  rw [UInt8.toNat_and]
  exact and_two_pow_sub_one_eq_mod b.toNat 7

theorem or_group {acc : Nat} (h : acc < 2 ^ shift) (x : Nat) :
    acc ||| x <<< shift = acc + x * 2 ^ shift := by
  rw [Nat.or_comm, ← Nat.shiftLeft_add_eq_or_of_lt h, Nat.shiftLeft_eq, add_comm]

theorem no_continuation_iff (b : UInt8) : b &&& 0x80 = 0 ↔ b.toNat < 128 := by
  rw [← not_iff_not, ← Ne, continuation_bit_iff, not_lt]

theorem readVarint_mono (bs : List UInt8) : ∀ {shift acc : Nat} {r},
    readVarint .strict bits shift acc bs = some r →
      readVarint .lenient bits shift acc bs = some r := by
  induction bs with
  | nil => intro shift acc r h; cases h
  | cons byte bs ih =>
    intro shift acc r h
    rw [readVarint] at h ⊢
    split_ifs at h ⊢ with h1 h2 h3
    · exact h
    · exact ih h

theorem readVarint_strict_of_rest (bs : List UInt8) :
    ∀ {shift acc v : Nat} {rest : List UInt8},
      readVarint .lenient bits shift acc bs = some (v, rest) → rest ≠ [] →
        readVarint .strict bits shift acc bs = some (v, rest) := by
  induction bs with
  | nil =>
    intro shift acc v rest h hrest
    cases h
    exact absurd rfl hrest
  | cons byte bs ih =>
    intro shift acc v rest h hrest
    rw [readVarint] at h ⊢
    split_ifs at h ⊢ with h1 h2 h3
    · exact h
    · exact ih h hrest

theorem lt_of_shifted_lt {i : Nat} (h : i * 2 ^ shift < 2 ^ bits) : i < 2 ^ (bits - shift) := by
  by_contra hge
  have hpow : 2 ^ bits ≤ 2 ^ (bits - shift) * 2 ^ shift := by
    rw [← Nat.pow_add]
    exact Nat.pow_le_pow_right (by decide) (by omega)
  have hmul : 2 ^ (bits - shift) * 2 ^ shift ≤ i * 2 ^ shift := Nat.mul_le_mul_right _ (by omega)
  omega

theorem shift_lt_of_group_lt {x : Nat} (h128 : 128 ≤ x) (h : x < 2 ^ (bits - shift)) :
    shift + 7 < bits := by
  by_contra hge
  have hpow : 2 ^ (bits - shift) ≤ 2 ^ 7 := Nat.pow_le_pow_right (by decide) (by omega)
  omega

theorem group_lt {acc x : Nat} (hacc : acc < 2 ^ shift) (hx : x < 128) :
    acc + x * 2 ^ shift < 2 ^ (shift + 7) := by
  have hmul : x * 2 ^ shift ≤ 127 * 2 ^ shift := Nat.mul_le_mul_right _ (by omega)
  rw [Nat.pow_add]
  omega

/-- Induction on the number, one group at a time; a group after the first is never zero. -/
theorem readVarint_writeVarint (bits : Nat) (rest : List UInt8) (i : Nat) :
    ∀ {shift acc : Nat}, acc < 2 ^ shift → (shift = 0 ∨ 0 < i) →
      acc + i * 2 ^ shift < 2 ^ bits →
      readVarint .strict bits shift acc (writeVarint i ++ rest)
        = some (acc + i * 2 ^ shift, rest) := by
  induction i using Nat.strongRecOn with
  | ind i ih =>
    intro shift acc hacc hpos hfit
    have hbound : i < 2 ^ (bits - shift) := lt_of_shifted_lt (by omega)
    rcases lt_or_ge i 0x80 with hlt | hge
    · have hbyte : (UInt8.ofNat i).toNat = i := by
        rw [UInt8.toNat_ofNat']
        omega
      rw [writeVarint_of_lt hlt, singleton_append, readVarint, if_neg, if_neg, if_pos,
        toNat_and_low, hbyte, mod_eq_of_lt hlt, or_group hacc]
      · rw [no_continuation_iff, hbyte]
        exact hlt
      · rintro ⟨hzero, hshift⟩
        have := congrArg UInt8.toNat hzero
        rw [hbyte] at this
        rcases hpos with h0 | h0
        · exact hshift h0
        · simp at this
          omega
      · rw [hbyte]
        omega
    · have hbyte : (UInt8.ofNat (i % 0x80 + 0x80)).toNat = i % 0x80 + 0x80 := by
        rw [UInt8.toNat_ofNat']
        omega
      have hshift : shift + 7 < bits := shift_lt_of_group_lt hge hbound
      have hgroup : (i % 0x80 + 0x80) % 128 = i % 128 := by omega
      have hvalue : acc + i % 128 * 2 ^ shift + i / 0x80 * 2 ^ (shift + 7)
          = acc + i * 2 ^ shift := by
        rw [Nat.pow_add]
        conv_rhs => rw [← div_add_mod i 128]
        ring
      rw [writeVarint_of_ge hge, cons_append, readVarint, if_neg, if_neg, if_neg,
        toNat_and_low, hbyte, hgroup, or_group hacc,
        ih (i / 0x80) (by omega) (group_lt hacc (by omega)) (.inr (by omega)) (by omega), hvalue]
      · rw [no_continuation_iff, hbyte]
        omega
      · rintro ⟨hzero, -⟩
        have := congrArg UInt8.toNat hzero
        rw [hbyte] at this
        simp at this
      · omega

theorem readVarint_eq_some (bs : List UInt8) :
    ∀ {shift acc v : Nat} {rest : List UInt8}, acc < 2 ^ shift → acc < 2 ^ bits →
      readVarint m bits shift acc bs = some (v, rest) →
      v < 2 ^ bits ∧ (m = .strict →
        ∃ i, v = acc + i * 2 ^ shift ∧ bs = writeVarint i ++ rest ∧ (shift ≠ 0 → 0 < i)) := by
  induction bs with
  | nil =>
    intro shift acc v rest hacc hfit h
    cases m with
    | lenient =>
      cases h
      exact ⟨hfit, nofun⟩
    | strict => cases h
  | cons byte bs ih =>
    intro shift acc v rest hacc hfit h
    have hlt256 := byte.toNat_lt
    rw [readVarint] at h
    split_ifs at h with hover hzero hlast
    · -- the last group
      rw [no_continuation_iff] at hlast
      rw [toNat_and_low, mod_eq_of_lt hlast, or_group hacc] at h
      cases h
      have hpos : shift ≠ 0 → 0 < byte.toNat := by
        intro hshift
        rw [pos_iff_ne_zero]
        intro h0
        exact hzero ⟨UInt8.toNat_inj.mp h0, hshift⟩
      refine ⟨?_, fun _ => ⟨byte.toNat, rfl, ?_, hpos⟩⟩
      · by_cases hroom : shift + 7 < bits
        · exact (group_lt hacc hlast).trans (Nat.pow_lt_pow_right (by decide) hroom)
        · have hbyte : byte.toNat + 1 ≤ 2 ^ (bits - shift) := by omega
          by_cases hle : shift ≤ bits
          · have hpow : 2 ^ (bits - shift) * 2 ^ shift = 2 ^ bits := by
              rw [← Nat.pow_add, Nat.sub_add_cancel hle]
            have hmul := Nat.mul_le_mul_right (2 ^ shift) hbyte
            rw [hpow, add_mul] at hmul
            omega
          · rw [Nat.sub_eq_zero_of_le (by omega), Nat.pow_zero] at hbyte
            omega
      · rw [writeVarint_of_lt hlast, UInt8.ofNat_toNat]
        rfl
    · -- more groups follow, so this one leaves room for them
      rw [no_continuation_iff] at hlast
      have hroom : shift + 7 < bits := by
        by_contra hge
        exact hover ⟨by omega, by
          have : 2 ^ (bits - shift) ≤ 2 ^ 7 := Nat.pow_le_pow_right (by decide) (by omega)
          omega⟩
      have hgroup : acc + byte.toNat % 128 * 2 ^ shift < 2 ^ (shift + 7) := group_lt hacc (by omega)
      rw [toNat_and_low, or_group hacc] at h
      obtain ⟨hv, hstrict⟩ := ih hgroup
        (hgroup.trans (Nat.pow_lt_pow_right (by decide) hroom)) h
      refine ⟨hv, fun hm => ?_⟩
      obtain ⟨i, rfl, rfl, hi⟩ := hstrict hm
      have hi' := hi (by omega)
      refine ⟨byte.toNat % 128 + 128 * i, ?_, ?_, fun _ => by omega⟩
      · rw [Nat.pow_add]
        ring
      · have hbyte : (byte.toNat % 128 + 128 * i) % 0x80 + 0x80 = byte.toNat := by omega
        have hrest : (byte.toNat % 128 + 128 * i) / 0x80 = i := by omega
        have hge : byte.toNat % 128 + 128 * i ≥ 0x80 := by omega
        rw [writeVarint_of_ge hge, hbyte, UInt8.ofNat_toNat, hrest]
        rfl

def varint (bits : Nat) : Codec (Fin (2 ^ bits)) where
  read m bs := (readVarint m bits 0 0 bs).bind fun r =>
    if h : r.1 < 2 ^ bits then some (⟨r.1, h⟩, r.2) else none
  write n := some (writeVarint n.val)
  norm := id
  read_mono {bs r} h := by
    rw [bind_eq_some_iff] at h ⊢
    obtain ⟨q, hq, hr⟩ := h
    exact ⟨q, readVarint_mono bs hq, hr⟩
  read_write {n w} h rest := by
    cases h
    rw [readVarint_writeVarint bits rest n.val (by decide) (.inl rfl) (by simp)]
    simp
  write_read {m bs n rest} h := by
    rw [bind_eq_some_iff] at h
    obtain ⟨⟨v, rest'⟩, hv, h⟩ := h
    split at h
    · cases h
      obtain ⟨-, hstrict⟩ := readVarint_eq_some bs (by decide) (Nat.two_pow_pos bits) hv
      refine ⟨rfl, _, rfl, fun hm => ?_⟩
      obtain ⟨i, hi, hbs, -⟩ := hstrict hm
      obtain rfl : v = i := by simpa using hi
      exact hbs
    · cases h

theorem varint_minSize (bits : Nat) : (varint bits).MinSize 1 := by
  intro n w h
  cases h
  exact writeVarint_length_pos n.val

def uint32 : Codec UInt32 where
  read _ bs := match bs with
    | b0 :: b1 :: b2 :: b3 :: rest => some (UInt32.ofNat
        (b0.toNat + b1.toNat * 2 ^ 8 + b2.toNat * 2 ^ 16 + b3.toNat * 2 ^ 24), rest)
    | _ => none
  write n := some (le32 n)
  norm := id
  read_mono h := h
  read_write {n w} h rest := by
    cases h
    simp only [le32, cons_append, nil_append, id_eq, Option.some.injEq, Prod.mk.injEq, and_true]
    rw [← UInt32.toNat_inj]
    have hn := n.toNat_lt
    simp [shiftRight_eq_div_pow]
    omega
  write_read {m bs n rest} h := by
    match bs, h with
    | b0 :: b1 :: b2 :: b3 :: rest, h =>
      cases h
      refine ⟨rfl, _, rfl, fun _ => ?_⟩
      have h0 := b0.toNat_lt
      have h1 := b1.toNat_lt
      have h2 := b2.toNat_lt
      have h3 := b3.toNat_lt
      simp only [le32, cons_append, nil_append, cons.injEq, and_true]
      refine ⟨?_, ?_, ?_, ?_⟩ <;> rw [← UInt8.toNat_inj] <;>
        simp [shiftRight_eq_div_pow] <;> omega

theorem varint_exact (bits : Nat) : (varint bits).Exact := fun _ _ _ => rfl

theorem uint32_exact : uint32.Exact := fun _ _ _ => rfl

/-! ## Sequences, choices and checks -/

/-- Nothing is written; reading gives `d`. -/
def skip (d : α) : Codec α where
  read _ bs := some (d, bs)
  write _ := some []
  norm _ := d
  read_mono h := h
  read_write h rest := by
    cases h
    rfl
  write_read h := by
    cases h
    exact ⟨rfl, [], rfl, fun _ => rfl⟩

def fail : Codec α where
  read _ _ := none
  write _ := none
  norm := id
  read_mono h := h
  read_write h := by cases h
  write_read h := by cases h

/-- One format after another; the second may depend on the value of the first. -/
def seq (k : α → Codec β) : Codec (α × β) where
  read m bs := (c.read m bs).bind fun r => ((k r.1).read m r.2).map fun q => ((r.1, q.1), q.2)
  write p := (c.write p.1).bind fun w => ((k (c.norm p.1)).write p.2).map (w ++ ·)
  norm p := (c.norm p.1, (k (c.norm p.1)).norm p.2)
  read_mono {bs r} h := by
    simp only [bind_eq_some_iff, map_eq_some_iff] at h ⊢
    obtain ⟨p, hp, q, hq, rfl⟩ := h
    exact ⟨p, c.read_mono hp, q, (k p.1).read_mono hq, rfl⟩
  read_write {p w} h rest := by
    simp only [bind_eq_some_iff, map_eq_some_iff] at h
    obtain ⟨w1, h1, w2, h2, rfl⟩ := h
    rw [append_assoc, c.read_write h1, bind_some, (k _).read_write h2]
    rfl
  write_read {m bs p rest} h := by
    simp only [bind_eq_some_iff, map_eq_some_iff] at h
    obtain ⟨⟨a, mid⟩, ha, ⟨b, rest'⟩, hb, h⟩ := h
    cases h
    dsimp only at hb
    obtain ⟨hna, w1, hw1, hbs⟩ := c.write_read ha
    obtain ⟨hnb, w2, hw2, hmid⟩ := (k a).write_read hb
    refine ⟨by simp only [hna, hnb], w1 ++ w2, ?_, fun hm => ?_⟩
    · simp only [hw1, hna, hw2, bind_some, map_some]
    · rw [hbs hm, hmid hm, append_assoc]

def pair (d : Codec β) : Codec (α × β) := c.seq fun _ => d

/-- The format of `α` for the values of `β` that `g` takes to one of `α`. -/
def pimap (f : α → β) (g : β → Option α) (h : ∀ a, g (f a) = some a) :
    Codec β where
  read m bs := (c.read m bs).map fun r => (f r.1, r.2)
  write b := (g b).bind c.write
  norm b := match g b with
    | some a => f (c.norm a)
    | none => b
  read_mono {bs r} hr := by
    rw [map_eq_some_iff] at hr ⊢
    obtain ⟨p, hp, rfl⟩ := hr
    exact ⟨p, c.read_mono hp, rfl⟩
  read_write {b w} hw rest := by
    rw [bind_eq_some_iff] at hw
    obtain ⟨a, ha, hw⟩ := hw
    rw [c.read_write hw, ha]
    rfl
  write_read {m bs b rest} hr := by
    rw [map_eq_some_iff] at hr
    obtain ⟨⟨a, rest'⟩, hp, hr⟩ := hr
    cases hr
    obtain ⟨hn, w, hw, hbs⟩ := c.write_read hp
    refine ⟨?_, w, ?_, hbs⟩
    · simp only [h, hn]
    · rw [h, bind_some, hw]

theorem tag_of_pimap_read {c : Codec α} {f : α → β} {g : β → Option α}
    {h : ∀ a, g (f a) = some a} {bs rest : List UInt8} {b : β} {τ : Type} {tag : β → τ} {t : τ}
    (hr : (c.pimap f g h).read m bs = some (b, rest)) (htag : ∀ a, tag (f a) = t) : tag b = t := by
  obtain ⟨p, -, hb⟩ := map_eq_some_iff.mp hr
  cases hb
  exact htag p.1

def imap (f : α → β) (g : β → α) (h : ∀ a, g (f a) = a) : Codec β :=
  c.pimap f (fun b => some (g b)) fun a => congrArg some (h a)

def ensure (p : α → Bool) : Codec α where
  read m bs := (c.read m bs).filter fun r => p r.1
  write a := if p (c.norm a) then c.write a else none
  norm := c.norm
  read_mono {bs r} h := by
    rw [filter_eq_some_iff] at h ⊢
    exact ⟨c.read_mono h.1, h.2⟩
  read_write {a w} h rest := by
    split at h
    · next hp => rw [c.read_write h, filter_some_pos (by exact hp)]
    · cases h
  write_read {m bs a rest} h := by
    rw [filter_eq_some_iff] at h
    obtain ⟨hn, w, hw, hbs⟩ := c.write_read h.1
    refine ⟨hn, w, ?_, hbs⟩
    rw [hn, if_pos h.2, hw]

/-- A reader that first checks that at least `k` bytes are left. -/
def atLeast (k : Nat) (hk : c.MinSize k) : Codec α where
  read m bs := if bs.length < k then none else c.read m bs
  write := c.write
  norm := c.norm
  read_mono {bs r} h := by
    split_ifs at h ⊢
    exact c.read_mono h
  read_write {a w} h rest := by
    have := hk a w h
    rw [if_neg (by rw [length_append]; omega), c.read_write h]
  write_read {m bs a rest} h := by
    split_ifs at h
    exact c.write_read h

variable {c}

theorem seq_minSize (hc : c.MinSize k) (d : α → Codec β) : (c.seq d).MinSize k := by
  intro p w h
  simp only [seq, bind_eq_some_iff, map_eq_some_iff] at h
  obtain ⟨w1, h1, w2, -, rfl⟩ := h
  rw [length_append]
  exact (hc _ _ h1).trans (le_add_right _ _)

theorem pimap_minSize (hc : c.MinSize k) {f : α → β} {g : β → Option α}
    {h : ∀ a, g (f a) = some a} : (c.pimap f g h).MinSize k := by
  intro b w hw
  obtain ⟨a, -, hw⟩ := bind_eq_some_iff.mp hw
  exact hc a w hw

theorem imap_minSize (hc : c.MinSize k) {f : α → β} {g : β → α} {h : ∀ a, g (f a) = a} :
    (c.imap f g h).MinSize k :=
  pimap_minSize hc

theorem skip_carries (d : α) : (skip d).Carries fun _ => d := fun _ _ _ => rfl

theorem fail_carries (f : α → α) : (fail : Codec α).Carries f := nofun

theorem seq_carries {k : α → Codec β} {g : α → β → β} (hc : c.Carries f)
    (hk : ∀ a, (k a).Carries (g a)) :
    (c.seq k).Carries fun p => (f p.1, g (f p.1) p.2) := by
  rintro ⟨a, b⟩ w h
  simp only [seq, bind_eq_some_iff, map_eq_some_iff] at h
  obtain ⟨w1, h1, w2, h2, -⟩ := h
  simp only [seq, ← hc a w1 h1, hk _ b w2 h2]

theorem pair_carries {d : Codec β} {g : β → β} (hc : c.Carries f) (hd : d.Carries g) :
    (c.pair d).Carries (Prod.map f g) :=
  seq_carries hc fun _ => hd

theorem ensure_carries (hc : c.Carries f) {p : α → Bool} : (c.ensure p).Carries f := by
  intro a w h
  simp only [ensure] at h
  split_ifs at h
  exact hc a w h

theorem pimap_carries (hc : c.Carries f) {F : α → β} {G : β → Option α}
    {h : ∀ a, G (F a) = some a} {g : β → β} (hg : ∀ a b, G b = some a → F (f a) = g b) :
    (c.pimap F G h).Carries g := by
  intro b w hw
  obtain ⟨a, ha, hw⟩ := bind_eq_some_iff.mp hw
  simp only [pimap, ha, hc a w hw]
  exact hg a b ha

theorem imap_carries (hc : c.Carries f) {F : α → β} {G : β → α} {h : ∀ a, G (F a) = a} :
    (c.imap F G h).Carries fun b => F (f (G b)) := by
  refine pimap_carries hc ?_
  rintro a b ⟨⟩
  rfl

/-! ### Tagged values -/

section Tagged

variable (tag : β → UInt8) (c : UInt8 → Codec β)

def tagged (h : ∀ {t m bs b rest}, (c t).read m bs = some (b, rest) → tag b = t) : Codec β where
  read m bs := match bs with
    | [] => none
    | t :: bs => (c t).read m bs
  write b := ((c (tag b)).write b).map (tag b :: ·)
  norm b := (c (tag b)).norm b
  read_mono {bs r} hr := by
    cases bs with
    | nil => cases hr
    | cons t bs => exact (c t).read_mono hr
  read_write {b w} hw rest := by
    rw [map_eq_some_iff] at hw
    obtain ⟨w, hw, rfl⟩ := hw
    exact (c (tag b)).read_write hw rest
  write_read {m bs b rest} hr := by
    cases bs with
    | nil => cases hr
    | cons t bs =>
      obtain ⟨hn, w, hw, hbs⟩ := (c t).write_read hr
      obtain rfl := h hr
      exact ⟨hn, tag b :: w, by rw [hw]; rfl, fun hm => by rw [hbs hm]; rfl⟩

variable {tag c} {h : ∀ {t m bs b rest}, (c t).read m bs = some (b, rest) → tag b = t}

theorem tagged_minSize : (tagged tag c h).MinSize 1 := by
  intro b w hw
  obtain ⟨w, -, rfl⟩ := map_eq_some_iff.mp hw
  exact le_add_left 1 w.length

theorem tagged_carries {f : β → β} (hc : ∀ t, (c t).Carries f) : (tagged tag c h).Carries f := by
  intro b w hw
  obtain ⟨w, hw, -⟩ := map_eq_some_iff.mp hw
  exact hc _ b w hw

end Tagged

/-! ### Lists -/

def readEach (m : Mode) : List (Codec α) → List UInt8 → Option (List α × List UInt8)
  | [], bs => some ([], bs)
  | c :: cs, bs => (c.read m bs).bind fun r =>
      (readEach m cs r.2).map fun q => (r.1 :: q.1, q.2)

def writeEach : List (Codec α) → List α → Option (List UInt8)
  | [], [] => some []
  | c :: cs, a :: as => (c.write a).bind fun w => (writeEach cs as).map (w ++ ·)
  | _, _ => none

variable (cs : List (Codec α))

theorem readEach_mono : ∀ {bs : List UInt8} {r},
    readEach .strict cs bs = some r → readEach .lenient cs bs = some r := by
  induction cs with
  | nil => exact id
  | cons c cs ih =>
    intro bs r h
    simp only [readEach, bind_eq_some_iff, map_eq_some_iff] at h ⊢
    obtain ⟨p, hp, q, hq, rfl⟩ := h
    exact ⟨p, c.read_mono hp, q, ih hq, rfl⟩

theorem readEach_writeEach : ∀ {as : List α} {w : List UInt8},
    writeEach cs as = some w → ∀ rest, readEach .strict cs (w ++ rest)
      = some (zipWith Codec.norm cs as, rest) := by
  induction cs with
  | nil =>
    intro as w h rest
    cases as with
    | nil => cases h; rfl
    | cons a as => cases h
  | cons c cs ih =>
    intro as w h rest
    cases as with
    | nil => cases h
    | cons a as =>
      simp only [writeEach, bind_eq_some_iff, map_eq_some_iff] at h
      obtain ⟨w1, h1, w2, h2, rfl⟩ := h
      rw [readEach, append_assoc, c.read_write h1, bind_some, ih h2]
      rfl

theorem writeEach_readEach :
    ∀ {bs rest : List UInt8} {as : List α}, readEach m cs bs = some (as, rest) →
      zipWith Codec.norm cs as = as ∧ as.length = cs.length ∧
        ∃ w, writeEach cs as = some w ∧ (m = .strict → bs = w ++ rest) := by
  induction cs with
  | nil =>
    intro bs rest as h
    cases h
    exact ⟨rfl, rfl, [], rfl, fun _ => rfl⟩
  | cons c cs ih =>
    intro bs rest as h
    simp only [readEach, bind_eq_some_iff, map_eq_some_iff] at h
    obtain ⟨⟨a, mid⟩, ha, ⟨as', rest'⟩, has, h⟩ := h
    cases h
    dsimp only at has
    obtain ⟨hn, w1, hw1, hbs⟩ := c.write_read ha
    obtain ⟨hns, hlen, w2, hw2, hmid⟩ := ih has
    refine ⟨?_, congrArg (· + 1) hlen, w1 ++ w2, ?_, fun hm => ?_⟩
    · rw [zipWith_cons_cons, hn, hns]
    · simp only [writeEach, hw1, hw2, bind_some, map_some]
    · rw [hbs hm, hmid hm, append_assoc]

def each : Codec (List α) where
  read m := readEach m cs
  write := writeEach cs
  norm := zipWith Codec.norm cs
  read_mono h := readEach_mono cs h
  read_write h := readEach_writeEach cs h
  write_read h :=
    have h := writeEach_readEach cs h
    ⟨h.1, h.2.2⟩

def exactly (n : Nat) (c : Codec α) : Codec (List α) := each (replicate n c)

theorem length_of_writeEach : ∀ {as : List α} {w : List UInt8},
    writeEach cs as = some w → as.length = cs.length := by
  induction cs with
  | nil =>
    intro as w h
    cases as with
    | nil => rfl
    | cons a as => cases h
  | cons c cs ih =>
    intro as w h
    cases as with
    | nil => cases h
    | cons a as =>
      simp only [writeEach, bind_eq_some_iff, map_eq_some_iff] at h
      obtain ⟨w1, -, w2, h2, -⟩ := h
      exact congrArg (· + 1) (ih h2)

theorem length_of_exactly_write {w : List UInt8} (h : (exactly n c).write as = some w) :
    as.length = n := by
  rw [length_of_writeEach _ h, length_replicate]

theorem length_of_exactly_read {bs rest : List UInt8}
    (h : (exactly n c).read m bs = some (as, rest)) : as.length = n := by
  rw [(writeEach_readEach _ h).2.1, length_replicate]

theorem exactly_norm (c : Codec α) (h : as.length = n) : (exactly n c).norm as = as.map c.norm := by
  subst h
  induction as with
  | nil => rfl
  | cons a as ih =>
    simp only [exactly, each, length_cons, replicate_succ, zipWith_cons_cons,
      map_cons, cons.injEq, true_and]
    exact ih

theorem exactly_minSize (hc : c.MinSize k) (n : Nat) : (exactly n c).MinSize (n * k) := by
  intro as w h
  induction n generalizing as w with
  | zero => omega
  | succ n ih =>
    cases as with
    | nil => cases h
    | cons a as =>
      simp only [exactly, each, replicate_succ, writeEach, bind_eq_some_iff, map_eq_some_iff] at h
      obtain ⟨w1, h1, w2, h2, rfl⟩ := h
      have hw1 := hc a w1 h1
      have hw2 := ih as w2 h2
      rw [length_append, add_mul]
      omega

/-- The number of elements as a varint, then the elements. The count may not exceed the number of
bytes left, which no list that was written does. -/
def container (c : Codec α) (hc : c.MinSize 1) : Codec (List α) where
  read m bs := ((varint 64).read m bs).bind fun r =>
    ((exactly r.1.val c).atLeast (r.1.val * 1) (exactly_minSize hc _)).read m r.2
  write as := if h : as.length < 2 ^ 64 then
      ((varint 64).write ⟨as.length, h⟩).bind fun w =>
        ((exactly as.length c).write as).map (w ++ ·)
    else none
  norm as := as.map c.norm
  read_mono {bs r} h := by
    rw [bind_eq_some_iff] at h ⊢
    obtain ⟨n, hn, h⟩ := h
    exact ⟨n, (varint 64).read_mono hn, ((exactly _ c).atLeast _ _).read_mono h⟩
  read_write {as w} h rest := by
    split at h
    · simp only [bind_eq_some_iff, map_eq_some_iff] at h
      obtain ⟨w1, h1, w2, h2, rfl⟩ := h
      have helems := ((exactly as.length c).atLeast _ (exactly_minSize hc _)).read_write h2 rest
      rw [append_assoc, (varint 64).read_write h1, bind_some]
      exact helems.trans (congrArg (fun l => some (l, rest)) (exactly_norm c rfl))
    · cases h
  write_read {m bs as rest} h := by
    rw [bind_eq_some_iff] at h
    obtain ⟨⟨⟨n, hlt⟩, mid⟩, hn, h⟩ := h
    dsimp only at h
    obtain ⟨hnas, w2, hw2, hmid⟩ := ((exactly n c).atLeast _ (exactly_minSize hc _)).write_read h
    obtain ⟨-, w1, hw1, hbs⟩ := (varint 64).write_read hn
    obtain rfl : as.length = n := length_of_exactly_write hw2
    refine ⟨(exactly_norm c rfl).symm.trans hnas, w1 ++ w2, ?_, fun hm => ?_⟩
    · rw [dif_pos hlt, hw1, bind_some]
      exact congrArg (Option.map (w1 ++ ·)) hw2
    · rw [hbs hm, hmid hm, append_assoc]

theorem each_exact {cs : List (Codec α)} (hcs : ∀ c ∈ cs, c.Exact) : (each cs).Exact := by
  intro as w h
  simp only [each, id_eq] at h ⊢
  induction cs generalizing as w with
  | nil =>
    rw [eq_nil_of_length_eq_zero (length_of_writeEach _ h)]
    rfl
  | cons c cs ih =>
    cases as with
    | nil => cases h
    | cons a as =>
      simp only [writeEach, bind_eq_some_iff, map_eq_some_iff] at h
      obtain ⟨w1, h1, w2, h2, -⟩ := h
      rw [zipWith_cons_cons, hcs c mem_cons_self a w1 h1,
        ih (fun c hc => hcs c (mem_cons_of_mem _ hc)) as w2 h2]
      rfl

theorem exactly_carries (hc : c.Carries f) (n : Nat) : (exactly n c).Carries (map f) := by
  intro as w h
  rw [exactly_norm c (length_of_exactly_write h)]
  induction n generalizing as w with
  | zero =>
    rw [eq_nil_of_length_eq_zero (length_of_exactly_write h)]
    rfl
  | succ n ih =>
    cases as with
    | nil => rfl
    | cons a as =>
      simp only [exactly, each, replicate_succ, writeEach, bind_eq_some_iff, map_eq_some_iff] at h
      obtain ⟨w1, h1, w2, h2, -⟩ := h
      rw [map_cons, map_cons, hc a w1 h1, ih as w2 h2]

theorem exactly_exact (hc : c.Exact) (n : Nat) : (exactly n c).Exact :=
  (exactly_carries hc n).congr map_id

theorem container_carries {hmin : c.MinSize 1} (hc : c.Carries f) :
    (container c hmin).Carries (map f) := by
  intro as w h
  simp only [container] at h
  split_ifs at h
  simp only [bind_eq_some_iff, map_eq_some_iff] at h
  obtain ⟨w1, -, w2, h2, -⟩ := h
  exact (exactly_norm c rfl).symm.trans (exactly_carries hc _ as w2 h2)

theorem container_exact {hmin : c.MinSize 1} (hc : c.Exact) : (container c hmin).Exact :=
  (container_carries hc).congr map_id

end Codec

end Glaciem
