import Mathlib.Tactic

/-!
# Glaciem — byte strings: varints, little-endian words and the zero-word scan

* `writeVarint` emits a number in base 128, low group first, with the continuation bit `0x80` on
  every byte but the last; `varintSpan` is the number of bytes a reader skips to get past the varint
  at the head of a byte string.
-/

namespace Glaciem.Bytes

open List

/-! ## Varints -/

def writeVarint (i : Nat) : List UInt8 :=
  if i ≥ 0x80 then UInt8.ofNat (i % 0x80 + 0x80) :: writeVarint (i / 0x80)
  else [UInt8.ofNat i]
termination_by i
decreasing_by omega

theorem writeVarint_of_lt {i : Nat} (h : i < 0x80) : writeVarint i = [UInt8.ofNat i] := by
  rw [writeVarint, if_neg (by omega)]

theorem writeVarint_of_ge {i : Nat} (h : i ≥ 0x80) :
    writeVarint i = UInt8.ofNat (i % 0x80 + 0x80) :: writeVarint (i / 0x80) := by
  rw [writeVarint, if_pos h]

theorem writeVarint_length_pos (i : Nat) : 1 ≤ (writeVarint i).length := by
  rw [writeVarint]
  split <;> simp

theorem writeVarint_length_le (k : Nat) :
    ∀ i, i < 128 ^ (k + 1) → (writeVarint i).length ≤ k + 1 := by
  induction k with
  | zero =>
    intro i hi
    rw [writeVarint_of_lt (by simpa using hi)]
    simp
  | succ k ih =>
    intro i hi
    rcases lt_or_ge i 0x80 with hlt | hge
    · rw [writeVarint_of_lt hlt]
      simp
    · have hdiv : i / 0x80 < 128 ^ (k + 1) := by
        rw [Nat.div_lt_iff_lt_mul (by decide)]
        rw [Nat.pow_succ] at hi
        exact hi
      have hrest := ih (i / 0x80) hdiv
      rw [writeVarint_of_ge hge]
      simp only [length_cons]
      omega

/-- Every byte with the continuation bit is followed by another one, as far as the string reaches.
-/
def varintSpan : List UInt8 → Nat
  | [] => 1
  | b :: bs => if b &&& 0x80 ≠ 0 then varintSpan bs + 1 else 1

theorem continuation_bit_iff (b : UInt8) : b &&& 0x80 ≠ 0 ↔ 128 ≤ b.toNat := by
  have h : ∀ n : Fin 256, UInt8.ofNat n.val &&& 0x80 ≠ 0 ↔ 128 ≤ n.val := by decide +kernel
  have hb := h ⟨b.toNat, b.toNat_lt⟩
  rwa [UInt8.ofNat_toNat] at hb

theorem varintSpan_writeVarint_append (i : Nat) (rest : List UInt8) :
    varintSpan (writeVarint i ++ rest) = (writeVarint i).length := by
  induction i using Nat.strongRecOn with
  | ind i ih =>
    rcases lt_or_ge i 0x80 with hlt | hge
    · rw [writeVarint_of_lt hlt, singleton_append, varintSpan, if_neg]
      · rfl
      · rw [continuation_bit_iff, UInt8.toNat_ofNat']
        omega
    · rw [writeVarint_of_ge hge, cons_append, varintSpan, if_pos]
      · rw [ih (i / 0x80) (by omega), length_cons]
      · rw [continuation_bit_iff, UInt8.toNat_ofNat']
        omega

/-! ## Little-endian words -/

def le32 (n : UInt32) : List UInt8 :=
  [n.toUInt8, (n >>> 8).toUInt8, (n >>> 16).toUInt8, (n >>> 24).toUInt8]

@[simp] theorem le32_length (n : UInt32) : (le32 n).length = 4 := rfl

variable (buf : List UInt8)

def storeLe32 (off : Nat) (n : UInt32) : List UInt8 :=
  (((buf.set off n.toUInt8).set (off + 1) (n >>> 8).toUInt8).set (off + 2)
    (n >>> 16).toUInt8).set (off + 3) (n >>> 24).toUInt8

theorem storeLe32_append (pre suf : List UInt8) (old n : UInt32) :
    storeLe32 (pre ++ (le32 old ++ suf)) pre.length n = pre ++ (le32 n ++ suf) := by
  have hset : ∀ (k : Nat) (l : List UInt8) (b : UInt8),
      (pre ++ l).set (pre.length + k) b = pre ++ l.set k b := by
    intro k l b
    rw [set_append_right _ _ (by omega), Nat.add_sub_cancel_left]
  have hset0 : ∀ (l : List UInt8) (b : UInt8), (pre ++ l).set pre.length b = pre ++ l.set 0 b :=
    hset 0
  unfold storeLe32
  rw [hset0, hset, hset, hset]
  rfl

/-! ## Scanning for a zero word -/

def zeroWordAt (off : Nat) : Bool :=
  buf[off]? == some 0 && buf[off + 1]? == some 0 && buf[off + 2]? == some 0
    && buf[off + 3]? == some 0

theorem zeroWordAt_iff (off : Nat) :
    zeroWordAt buf off = true ↔ ∀ k < 4, buf[off + k]? = some 0 := by
  constructor
  · intro h k hk
    simp only [zeroWordAt, Bool.and_eq_true, beq_iff_eq] at h
    obtain ⟨⟨⟨h0, h1⟩, h2⟩, h3⟩ := h
    interval_cases k
    · exact h0
    · exact h1
    · exact h2
    · exact h3
  · intro h
    simp only [zeroWordAt, Bool.and_eq_true, beq_iff_eq]
    exact ⟨⟨⟨h 0 (by decide), h 1 (by decide)⟩, h 2 (by decide)⟩, h 3 (by decide)⟩

/-- The first offset in `[lo, min (buf.length - 4) hi)` at which four zero bytes stand, and
`dflt` when there is none. -/
def scanZeroWord (lo hi dflt : Nat) : Nat :=
  ((range' lo (min (buf.length - 4) hi - lo)).find? (zeroWordAt buf)).getD dflt

/-- With a zero word at an offset `n` of the window, the scan stops at `n` exactly when none stands
before it. -/
theorem scanZeroWord_eq_iff {buf : List UInt8} {lo hi dflt n : Nat} (hlo : lo ≤ n)
    (hhi : n < min (buf.length - 4) hi) (hz : zeroWordAt buf n = true) :
    scanZeroWord buf lo hi dflt = n ↔ ∀ j, lo ≤ j → j < n → zeroWordAt buf j = false := by
  have hmem : n ∈ range' lo (min (buf.length - 4) hi - lo) := by
    rw [mem_range'_1]
    omega
  -- the window holds a zero word, so the scan finds one and never falls back to `dflt`
  obtain ⟨m, hm⟩ : ∃ m, (range' lo (min (buf.length - 4) hi - lo)).find? (zeroWordAt buf)
      = some m := by
    have hsome := find?_isSome.mpr ⟨n, hmem, hz⟩
    exact Option.isSome_iff_exists.mp hsome
  have hfirst := find?_range'_eq_some.mp hm
  unfold scanZeroWord
  rw [hm, Option.getD_some]
  constructor
  · rintro rfl j hj hjm
    simpa using hfirst.2.2 j hj hjm
  · intro hnone
    rcases lt_trichotomy m n with hlt | heq | hgt
    · have hmlo := (mem_range'_1.mp hfirst.2.1).1
      rw [hnone m hmlo hlt] at hfirst
      exact absurd hfirst.1 (by decide)
    · exact heq
    · have := hfirst.2.2 n hlo hgt
      rw [hz] at this
      exact absurd this (by decide)

end Glaciem.Bytes
