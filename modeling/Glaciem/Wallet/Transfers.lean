import Glaciem.Block.Header
import Glaciem.Lib.System

/-!
# Glaciem — the transfers of a wallet

How `wallet2` keeps the outputs it has received while it scans blocks, and how it takes blocks back
(`process_new_transaction`, `process_parsed_blocks`, `detach_blockchain` in
`src/wallet/wallet2.cpp`), for a wallet that knows its key images.

Scanning is abstract: a transaction is given by the outputs the wallet finds in it, in the order it
finds them, and by its inputs. A one-time key may be received more than once; the wallet then keeps
the larger output, in the place of the smaller one.
-/

namespace Glaciem.Wallet

open List Function

structure Output (K : Type) where
  txid : Hash
  internalOutputIndex : Nat
  globalOutputIndex : Nat
  publicKey : K
  amount : Nat
  deriving DecidableEq

/-- An input, `txin_to_key`. The amount is 0 where it is hidden. -/
structure TxInput (I : Type) where
  keyImage : I
  amount : Nat
  deriving DecidableEq

structure Tx (K I : Type) where
  received : List (Output K)
  vin : List (TxInput I)

structure ParsedBlock (K I : Type) where
  hash : Hash
  prevId : Hash
  txs : List (Tx K I)

structure Transfer (K : Type) where
  output : Output K
  blockHeight : Nat
  amount : Nat
  spent : Bool
  spentHeight : Nat
  deriving DecidableEq

/-- `m_transfers`, `m_key_images` and `m_pub_keys`. -/
@[ext] structure Book (K I : Type) where
  transfers : List (Transfer K)
  keyImages : I → Option Nat
  pubKeys : K → Option Nat

def Book.empty {K I : Type} : Book K I := ⟨[], fun _ => none, fun _ => none⟩

inductive Event (K I : Type) where
  | received (o : Output K)
  | spent (i : TxInput I)

section

variable {K I : Type} [DecidableEq K] [DecidableEq I] (keyImage : K → I)

/-! ## One output, one input -/

def Transfer.replaceBy (height : Nat) (o : Output K) (td : Transfer K) : Transfer K :=
  { td with output := o, blockHeight := height, amount := o.amount }

def Book.append (height : Nat) (o : Output K) (b : Book K I) : Book K I where
  transfers := b.transfers ++ [⟨o, height, o.amount, false, 0⟩]
  keyImages := update b.keyImages (keyImage o.publicKey) (some b.transfers.length)
  pubKeys := update b.pubKeys o.publicKey (some b.transfers.length)

/-- The body of the loop over the received outputs of a transaction; `none` is an exception. -/
def Book.receive (height : Nat) (o : Output K) (b : Book K I) : Option (Book K I) :=
  match b.pubKeys o.publicKey with
  | none => some (b.append keyImage height o)
  | some i => match b.transfers[i]? with
    | none => none
    | some td =>
      if td.spent || td.amount ≥ o.amount then some b
      -- the new larger output replaces the smaller one
      else some { b with transfers := b.transfers.set i (td.replaceBy height o) }

def Transfer.spendAt (height : Nat) (i : TxInput I) (td : Transfer K) : Transfer K :=
  { td with amount := if i.amount > 0 then i.amount else td.amount
            spent := true
            spentHeight := height }

def Book.spend (height : Nat) (i : TxInput I) (b : Book K I) : Option (Book K I) :=
  match b.keyImages i.keyImage with
  | none => some b
  | some j => match b.transfers[j]? with
    | none => none
    | some td => some { b with transfers := b.transfers.set j (td.spendAt height i) }

def books : System (Book K I) (Nat × Event K I) where
  step b l := match l.2 with
    | .received o => b.receive keyImage l.1 o
    | .spent i => b.spend l.1 i

structure Book.Indexed (b : Book K I) : Prop where
  pubKeys_eq_some : ∀ {k i}, b.pubKeys k = some i ↔
    ∃ td, b.transfers[i]? = some td ∧ td.output.publicKey = k
  keyImages_eq_some : ∀ {x i}, b.keyImages x = some i ↔
    ∃ td, b.transfers[i]? = some td ∧ keyImage td.output.publicKey = x

/-- What a step can do: append a transfer, replace one by a larger output of the same key, spend
one, or nothing. -/
inductive Moves (b : Book K I) : Nat × Event K I → Book K I → Prop where
  | appended (height : Nat) (o : Output K) (hnew : b.pubKeys o.publicKey = none) :
      Moves b (height, .received o) (b.append keyImage height o)
  | ignored (height : Nat) (o : Output K) (i : Nat) (td : Transfer K)
      (hkey : b.pubKeys o.publicKey = some i) (htd : b.transfers[i]? = some td)
      (hkeep : td.spent ∨ o.amount ≤ td.amount) :
      Moves b (height, .received o) b
  | replaced (height : Nat) (o : Output K) (i : Nat) (td : Transfer K)
      (hkey : b.pubKeys o.publicKey = some i) (htd : b.transfers[i]? = some td)
      (hspent : td.spent = false) (hlarger : td.amount < o.amount) :
      Moves b (height, .received o)
        { b with transfers := b.transfers.set i (td.replaceBy height o) }
  | foreign (height : Nat) (i : TxInput I) (hnone : b.keyImages i.keyImage = none) :
      Moves b (height, .spent i) b
  | spent (height : Nat) (i : TxInput I) (j : Nat) (td : Transfer K)
      (hkey : b.keyImages i.keyImage = some j) (htd : b.transfers[j]? = some td) :
      Moves b (height, .spent i) { b with transfers := b.transfers.set j (td.spendAt height i) }

variable {b b' : Book K I} {l : Nat × Event K I} {td : Transfer K} {i h n : Nat}
  {ls : List (Nat × Event K I)}

theorem moves_of_step (h : (books keyImage).step b l = some b') : Moves keyImage b l b' := by
  obtain ⟨height, o | i⟩ := l
  · simp only [books, Book.receive] at h
    split at h
    · next hkey =>
      cases h
      exact .appended height o hkey
    · next i hkey =>
      split at h
      · cases h
      · next td htd =>
        split at h
        · next hkeep =>
          cases h
          rw [Bool.or_eq_true, decide_eq_true_eq] at hkeep
          exact .ignored height o i td hkey htd hkeep
        · next hkeep =>
          cases h
          rw [Bool.or_eq_true, decide_eq_true_eq, not_or, Bool.not_eq_true] at hkeep
          exact .replaced height o i td hkey htd hkeep.1 (by omega)
  · simp only [books, Book.spend] at h
    split at h
    · next hkey =>
      cases h
      exact .foreign height i hkey
    · next j hkey =>
      split at h
      · cases h
      · next td htd =>
        cases h
        exact .spent height i j td hkey htd

theorem Book.Indexed.step_isSome (hb : b.Indexed keyImage) (l : Nat × Event K I) :
    ∃ b', (books keyImage).step b l = some b' := by
  obtain ⟨height, o | i⟩ := l
  · simp only [books, receive]
    split
    · exact ⟨_, rfl⟩
    · next j hkey =>
      obtain ⟨td, htd, -⟩ := hb.pubKeys_eq_some.mp hkey
      rw [htd]
      dsimp only
      split
      · exact ⟨_, rfl⟩
      · exact ⟨_, rfl⟩
  · simp only [books, spend]
    split
    · exact ⟨_, rfl⟩
    · next j hkey =>
      obtain ⟨td, htd, -⟩ := hb.keyImages_eq_some.mp hkey
      rw [htd]
      exact ⟨_, rfl⟩

/-! ## What a step keeps -/

omit [DecidableEq K] [DecidableEq I] in
theorem Book.Indexed.set (hb : b.Indexed keyImage) {td' : Transfer K}
    (htd : b.transfers[i]? = some td) (hkey : td'.output.publicKey = td.output.publicKey) :
    ({ b with transfers := b.transfers.set i td' } : Book K I).Indexed keyImage := by
  have hkeys : ∀ (p : K → Prop) (j : Nat),
      (∃ t, b.transfers[j]? = some t ∧ p t.output.publicKey) ↔
        ∃ t, (b.transfers.set i td')[j]? = some t ∧ p t.output.publicKey := by
    intro p j
    obtain ⟨hi, -⟩ := List.getElem?_eq_some_iff.mp htd
    by_cases hij : i = j
    · subst hij
      rw [List.getElem?_set_self hi, htd]
      simp [hkey]
    · rw [getElem?_set_ne hij]
  constructor
  · intro k j
    exact hb.pubKeys_eq_some.trans (hkeys (· = k) j)
  · intro x j
    exact hb.keyImages_eq_some.trans (hkeys (keyImage · = x) j)

omit [DecidableEq K] in
theorem index_append {X : Type} [DecidableEq X] {f : Transfer K → X} {ts : List (Transfer K)}
    {index : X → Option Nat} (td : Transfer K)
    (h : ∀ x i, index x = some i ↔ ∃ t, ts[i]? = some t ∧ f t = x) (hnew : index (f td) = none)
    {x : X} :
    update index (f td) (some ts.length) x = some i ↔
      ∃ t, (ts ++ [td])[i]? = some t ∧ f t = x := by
  by_cases hx : x = f td
  · subst hx
    rw [update_self]
    constructor
    · rintro ⟨⟩
      exact ⟨td, getElem?_concat_length, rfl⟩
    · rintro ⟨t, ht, hft⟩
      rcases lt_or_ge i ts.length with hlt | hge
      · rw [List.getElem?_append_left hlt] at ht
        rw [(h _ _).mpr ⟨t, ht, hft⟩] at hnew
        cases hnew
      · have hi : i < (ts ++ [td]).length := (List.getElem?_eq_some_iff.mp ht).1
        rw [length_append, length_singleton] at hi
        exact congrArg some (by omega)
  · rw [update_of_ne hx, h]
    constructor
    · rintro ⟨t, ht, hft⟩
      have hlt := (List.getElem?_eq_some_iff.mp ht).1
      exact ⟨t, by rw [List.getElem?_append_left hlt, ht], hft⟩
    · rintro ⟨t, ht, hft⟩
      rcases lt_or_ge i ts.length with hlt | hge
      · exact ⟨t, by rwa [List.getElem?_append_left hlt] at ht, hft⟩
      · rw [getElem?_append_right hge] at ht
        have hmem := mem_singleton.mp (mem_of_getElem? ht)
        subst hmem
        exact absurd hft.symm hx

variable {keyImage} (hinj : Function.Injective keyImage)
include hinj

theorem Book.Indexed.step (hb : b.Indexed keyImage) (h : (books keyImage).step b l = some b') :
    b'.Indexed keyImage := by
  cases moves_of_step keyImage h with
  | appended height o hnew =>
    have hnewImage : b.keyImages (keyImage o.publicKey) = none := by
      rw [Option.eq_none_iff_forall_ne_some]
      intro i hi
      obtain ⟨td, htd, hkey⟩ := hb.keyImages_eq_some.mp hi
      rw [hb.pubKeys_eq_some.mpr ⟨td, htd, hinj hkey⟩] at hnew
      cases hnew
    exact ⟨index_append ⟨o, height, o.amount, false, 0⟩ (fun _ _ => hb.pubKeys_eq_some) hnew,
      index_append ⟨o, height, o.amount, false, 0⟩ (f := fun t => keyImage t.output.publicKey)
        (fun _ _ => hb.keyImages_eq_some) hnewImage⟩
  | ignored | foreign => exact hb
  | replaced height o i td hkey htd =>
    obtain ⟨td', htd', hkey'⟩ := hb.pubKeys_eq_some.mp hkey
    obtain rfl : td' = td := Option.mem_unique htd' htd
    exact hb.set keyImage htd hkey'.symm
  | spent height i j td hkey htd => exact hb.set keyImage htd rfl

omit hinj

def Book.Below (h : Nat) (b : Book K I) : Prop :=
  ∀ td ∈ b.transfers, td.blockHeight < h ∧ (td.spent = true → td.spentHeight < h)
    ∧ (td.spent = false → td.spentHeight = 0)

theorem Book.Below.step (hb : b.Below h) (hl : l.1 < h)
    (hstep : (books keyImage).step b l = some b') : b'.Below h := by
  cases moves_of_step keyImage hstep with
  | appended height o =>
    intro td htd
    rcases mem_append.mp htd with hold | hnew
    · exact hb td hold
    · rw [mem_singleton] at hnew
      subst hnew
      exact ⟨hl, nofun, fun _ => rfl⟩
  | ignored | foreign => exact hb
  | replaced height o i td _ htd hspent =>
    intro t ht
    rcases mem_or_eq_of_mem_set ht with hold | rfl
    · exact hb t hold
    · have hold := hb td (mem_of_getElem? htd)
      exact ⟨hl, hold.2.1, hold.2.2⟩
  | spent height i j td _ htd =>
    intro t ht
    rcases mem_or_eq_of_mem_set ht with hold | rfl
    · exact hb t hold
    · exact ⟨(hb td (mem_of_getElem? htd)).1, fun _ => hl, nofun⟩

/-! ## The transfers of an earlier book

A book with `n` transfers goes through events of later blocks. Its transfers stay where they are,
and keep their keys; a larger output with the key of one of them takes its place, with the height of
the later block. -/

def inputsOf : List (Nat × Event K I) → List (Nat × TxInput I)
  | [] => []
  | (height, .spent i) :: ls => (height, i) :: inputsOf ls
  | (_, .received _) :: ls => inputsOf ls

def Transfer.spendAll (keyImage : K → I) (td : Transfer K) : List (Nat × TxInput I) → Transfer K
  | [] => td
  | i :: is =>
    if keyImage td.output.publicKey = i.2.keyImage then (td.spendAt i.1 i.2).spendAll keyImage is
    else td.spendAll keyImage is

/-- The event replaces none of the first `n` transfers. -/
def KeepsOld (n : Nat) (b : Book K I) (l : Nat × Event K I) : Prop :=
  match l.2 with
  | .received o => ∀ i td, b.pubKeys o.publicKey = some i → i < n → b.transfers[i]? = some td →
      td.spent = true ∨ o.amount ≤ td.amount
  | .spent _ => True

theorem transfer_of_step {Q : Transfer K → Prop} (hstep : (books keyImage).step b l = some b')
    (htd : b.transfers[i]? = some td) (hkeep : Q td)
    (hreplace : ∀ o, b.pubKeys o.publicKey = some i → Q (td.replaceBy l.1 o))
    (hspend : ∀ x : TxInput I, Q (td.spendAt l.1 x)) :
    ∃ td', b'.transfers[i]? = some td' ∧ Q td' := by
  have hi := (List.getElem?_eq_some_iff.mp htd).1
  cases moves_of_step keyImage hstep with
  | appended => exact ⟨td, by rw [Book.append, List.getElem?_append_left hi, htd], hkeep⟩
  | ignored | foreign => exact ⟨td, htd, hkeep⟩
  | replaced height o j td' hkey htd' =>
    by_cases hij : j = i
    · subst hij
      obtain rfl : td' = td := Option.mem_unique htd' htd
      exact ⟨_, List.getElem?_set_self hi, hreplace o hkey⟩
    · exact ⟨td, by rw [getElem?_set_ne hij, htd], hkeep⟩
  | spent height x j td' hkey htd' =>
    by_cases hij : j = i
    · subst hij
      obtain rfl : td' = td := Option.mem_unique htd' htd
      exact ⟨_, List.getElem?_set_self hi, hspend x⟩
    · exact ⟨td, by rw [getElem?_set_ne hij, htd], hkeep⟩

theorem Book.Indexed.key_of_step (hb : b.Indexed keyImage)
    (hstep : (books keyImage).step b l = some b') (htd : b.transfers[i]? = some td) :
    ∃ td', b'.transfers[i]? = some td' ∧ td'.output.publicKey = td.output.publicKey := by
  refine transfer_of_step hstep htd rfl (fun o hkey => ?_) (fun _ => rfl)
  obtain ⟨t, ht, hkey'⟩ := hb.pubKeys_eq_some.mp hkey
  obtain rfl : t = td := Option.mem_unique ht htd
  exact hkey'.symm

theorem height_ge_of_step (hl : h ≤ l.1) (hstep : (books keyImage).step b l = some b')
    (htd : b.transfers[i]? = some td) (hge : h ≤ td.blockHeight) :
    ∃ td', b'.transfers[i]? = some td' ∧ h ≤ td'.blockHeight :=
  transfer_of_step hstep htd hge (fun _ _ => hl) (fun _ => hge)

/-- All transfers from the `n`-th on have a height of `h` or more. -/
def Book.LateFrom (h n : Nat) (b : Book K I) : Prop :=
  ∀ i td, n ≤ i → b.transfers[i]? = some td → h ≤ td.blockHeight

theorem Book.LateFrom.step (hb : b.LateFrom h n) (hl : h ≤ l.1)
    (hstep : (books keyImage).step b l = some b') :
    b'.LateFrom h n := by
  intro i td hi htd
  by_cases hlt : i < b.transfers.length
  · have hold : b.transfers[i]? = some (b.transfers.get ⟨i, hlt⟩) := getElem?_eq_getElem hlt
    obtain ⟨td', htd', hge⟩ := height_ge_of_step hl hstep hold (hb i _ hi hold)
    obtain rfl : td' = td := Option.mem_unique htd' htd
    exact hge
  · -- only an appended transfer is beyond the old ones
    cases moves_of_step keyImage hstep with
    | appended height o =>
      rw [append, getElem?_append_right (by omega)] at htd
      have hmem := mem_singleton.mp (mem_of_getElem? htd)
      subst hmem
      exact hl
    | ignored | foreign =>
      exact absurd (List.getElem?_eq_some_iff.mp htd).1 hlt
    | replaced | spent =>
      have hlen := (List.getElem?_eq_some_iff.mp htd).1
      rw [List.length_set] at hlen
      exact absurd hlen hlt

/-- Either the event leaves the first `n` transfers as they are but for being spent, or it gives one
of them the height of its block. -/
theorem Book.Indexed.old_of_step (hb : b.Indexed keyImage)
    (hstep : (books keyImage).step b l = some b') :
    (KeepsOld n b l ∧ ∀ i td, i < n → b.transfers[i]? = some td →
        b'.transfers[i]? = some (td.spendAll keyImage (inputsOf [l])))
      ∨ (¬ KeepsOld n b l ∧ ∃ i td, i < n ∧ b'.transfers[i]? = some td ∧ td.blockHeight = l.1) := by
  cases moves_of_step keyImage hstep with
  | appended height o hnew =>
    refine .inl ⟨fun i td hkey => ?_, fun i td _ htd => ?_⟩
    · rw [hnew] at hkey
      cases hkey
    · rw [append, List.getElem?_append_left (List.getElem?_eq_some_iff.mp htd).1, htd]
      rfl
  | ignored height o i td hkey htd hkeep =>
    refine .inl ⟨fun j t hj _ ht => ?_, fun _ _ _ h => h⟩
    obtain rfl : i = j := Option.mem_unique hkey hj
    obtain rfl : td = t := Option.mem_unique htd ht
    exact hkeep
  | replaced height o j td hkey htd hspent hlarger =>
    by_cases hj : j < n
    · refine .inr ⟨fun hkeeps => ?_, j, _, hj,
        List.getElem?_set_self (List.getElem?_eq_some_iff.mp htd).1, rfl⟩
      rcases hkeeps j td hkey hj htd with h | h
      · rw [hspent] at h
        cases h
      · omega
    · refine .inl ⟨fun i t hi hlt _ => ?_, fun i t hi ht => ?_⟩
      · obtain rfl : j = i := Option.mem_unique hkey hi
        exact absurd hlt hj
      · rw [getElem?_set_ne (by omega), ht]
        rfl
  | foreign height x hnone =>
    refine .inl ⟨trivial, fun i td _ htd => ?_⟩
    have hne : keyImage td.output.publicKey ≠ x.keyImage := by
      intro heq
      rw [hb.keyImages_eq_some.mpr ⟨td, htd, heq⟩] at hnone
      cases hnone
    rw [htd, inputsOf, inputsOf, Transfer.spendAll, if_neg hne, Transfer.spendAll]
  | spent height x j td hkey htd =>
    refine .inl ⟨trivial, fun i t _ ht => ?_⟩
    obtain ⟨td', htd', hx⟩ := hb.keyImages_eq_some.mp hkey
    obtain rfl : td' = td := Option.mem_unique htd' htd
    rw [inputsOf, inputsOf, Transfer.spendAll]
    by_cases hij : j = i
    · subst hij
      obtain rfl : td' = t := Option.mem_unique htd' ht
      rw [if_pos hx, List.getElem?_set_self (List.getElem?_eq_some_iff.mp ht).1]
      rfl
    · have hne : keyImage t.output.publicKey ≠ x.keyImage := by
        intro heq
        rw [hb.keyImages_eq_some.mpr ⟨t, ht, heq⟩] at hkey
        exact hij (Option.some.inj hkey).symm
      rw [if_neg hne, getElem?_set_ne hij, ht, Transfer.spendAll]

/-! ## Runs -/

omit [DecidableEq K] in
theorem spendAll_append (td : Transfer K) (is js : List (Nat × TxInput I)) :
    td.spendAll keyImage (is ++ js) = (td.spendAll keyImage is).spendAll keyImage js := by
  induction is generalizing td with
  | nil => rfl
  | cons i is ih =>
    rw [cons_append, Transfer.spendAll, Transfer.spendAll]
    split
    · exact ih _
    · exact ih _

omit [DecidableEq K] [DecidableEq I] in
theorem inputsOf_cons (l : Nat × Event K I) (ls : List (Nat × Event K I)) :
    inputsOf (l :: ls) = inputsOf [l] ++ inputsOf ls := by
  obtain ⟨height, o | i⟩ := l
  · rfl
  · rfl

theorem exec_of_indexed (hinj : Function.Injective keyImage) (ls : List (Nat × Event K I)) :
    ∀ {b : Book K I}, b.Indexed keyImage → ∃ b', (books keyImage).exec b ls = some b' := by
  induction ls with
  | nil => exact fun _ => ⟨_, rfl⟩
  | cons l ls ih =>
    intro b hb
    obtain ⟨b₁, hb₁⟩ := hb.step_isSome keyImage l
    obtain ⟨b', hb'⟩ := ih (hb.step hinj hb₁)
    exact ⟨b', (books keyImage).exec_cons.mpr ⟨b₁, hb₁, hb'⟩⟩

theorem indexed_of_exec (hinj : Function.Injective keyImage) (hb : b.Indexed keyImage)
    (h : (books keyImage).exec b ls = some b') : b'.Indexed keyImage :=
  (books keyImage).invariant_of_exec (fun hb hs => hb.step hinj hs) hb h

theorem below_of_exec (hb : b.Below h) (hls : ∀ l ∈ ls, l.1 < h)
    (hexec : (books keyImage).exec b ls = some b') : b'.Below h :=
  (books keyImage).invariant_of_meets (P := fun _ l => l.1 < h)
    (fun hb hl hs => hb.step hl hs) hb
    ((books keyImage).meets_of_labels (fun l hl _ => hls l hl) b) hexec

theorem lateFrom_of_exec (hb : b.LateFrom h n) (hls : ∀ l ∈ ls, h ≤ l.1)
    (hexec : (books keyImage).exec b ls = some b') : b'.LateFrom h n :=
  (books keyImage).invariant_of_meets (P := fun _ l => h ≤ l.1)
    (fun hb hl hs => hb.step hl hs) hb
    ((books keyImage).meets_of_labels (fun l hl _ => hls l hl) b) hexec

theorem height_ge_of_exec (hls : ∀ l ∈ ls, h ≤ l.1) (hexec : (books keyImage).exec b ls = some b')
    (hb : ∃ td, b.transfers[i]? = some td ∧ h ≤ td.blockHeight) :
    ∃ td, b'.transfers[i]? = some td ∧ h ≤ td.blockHeight := by
  refine @System.invariant_of_meets _ _ (books keyImage) _ _ _ (fun _ l => h ≤ l.1)
    (fun b => ∃ td, b.transfers[i]? = some td ∧ h ≤ td.blockHeight) ?_ hb
    ((books keyImage).meets_of_labels (fun l hl _ => hls l hl) b) hexec
  rintro s l s' ⟨td, htd, hge⟩ hl hs
  exact height_ge_of_step hl hs htd hge

theorem key_of_exec (hinj : Function.Injective keyImage) (hb : b.Indexed keyImage)
    (hexec : (books keyImage).exec b ls = some b') (htd : b.transfers[i]? = some td) :
    ∃ td', b'.transfers[i]? = some td' ∧ td'.output.publicKey = td.output.publicKey := by
  induction ls generalizing b td with
  | nil =>
    cases hexec
    exact ⟨td, htd, rfl⟩
  | cons l ls ih =>
    obtain ⟨b₁, hb₁, hrest⟩ := (books keyImage).exec_cons.mp hexec
    obtain ⟨td₁, htd₁, hkey₁⟩ := hb.key_of_step hb₁ htd
    obtain ⟨td', htd', hkey'⟩ := ih (hb.step hinj hb₁) hrest htd₁
    exact ⟨td', htd', hkey'.trans hkey₁⟩

/-- A run of late events either leaves the first `n` transfers as they are but for being spent, or
ends with one of them at a late height. Induction on the events. -/
theorem old_of_exec (hinj : Function.Injective keyImage) (ls : List (Nat × Event K I)) :
    ∀ {b b' : Book K I}, b.Indexed keyImage → (∀ l ∈ ls, h ≤ l.1) →
      (books keyImage).exec b ls = some b' →
      ((books keyImage).Meets (KeepsOld n) b ls ∧ ∀ i td, i < n → b.transfers[i]? = some td →
          b'.transfers[i]? = some (td.spendAll keyImage (inputsOf ls)))
        ∨ (¬ (books keyImage).Meets (KeepsOld n) b ls ∧
            ∃ i td, i < n ∧ b'.transfers[i]? = some td ∧ h ≤ td.blockHeight) := by
  induction ls with
  | nil =>
    intro b b' _ _ hexec
    cases hexec
    exact .inl ⟨trivial, fun _ _ _ htd => htd⟩
  | cons l ls ih =>
    intro b b' hb hls hexec
    obtain ⟨hl, hls⟩ := forall_mem_cons.mp hls
    obtain ⟨b₁, hb₁, hrest⟩ := (books keyImage).exec_cons.mp hexec
    have hmeets : (books keyImage).Meets (KeepsOld n) b (l :: ls) ↔
        KeepsOld n b l ∧ (books keyImage).Meets (KeepsOld n) b₁ ls := by
      refine and_congr_right fun _ => ⟨fun h => h b₁ hb₁, fun h b₂ hb₂ => ?_⟩
      obtain rfl : b₁ = b₂ := Option.mem_unique hb₁ hb₂
      exact h
    rw [hmeets]
    rcases hb.old_of_step (n := n) hb₁ with ⟨hkeeps, hold⟩ | ⟨hnot, i, td, hi, htd, hheight⟩
    · rcases ih (hb.step hinj hb₁) hls hrest with ⟨hm, hold'⟩ | ⟨hm, hlate⟩
      · refine .inl ⟨⟨hkeeps, hm⟩, fun i td hi htd => ?_⟩
        rw [inputsOf_cons, spendAll_append]
        exact hold' i _ hi (hold i td hi htd)
      · exact .inr ⟨fun h => hm h.2, hlate⟩
    · obtain ⟨td', htd', hge⟩ := height_ge_of_exec hls hrest ⟨td, htd, by omega⟩
      exact .inr ⟨fun h => hnot h.1, i, td', hi, htd', hge⟩

end

end Glaciem.Wallet
