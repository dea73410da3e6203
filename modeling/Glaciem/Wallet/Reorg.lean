import Mathlib.Data.List.TakeWhile
import Glaciem.Wallet.Transfers

/-!
# Glaciem — a wallet that follows a reorganisation

When the daemon switches to another branch, `process_parsed_blocks` finds the first block that
differs, `detach_blockchain` takes the wallet back to that height, and the new blocks are scanned.

`detach_blockchain` cuts the list of transfers at the first one that is not older than the split.
That is right as long as the list is sorted by height. A larger output with the key of an older
transfer takes the older one's place with its own height: after that the cut removes the older
transfer for good, and with it every transfer behind it. An input with an explicit amount overwrites
the amount of the transfer it spends, and detaching does not bring the old amount back.
-/

namespace Glaciem.Wallet

open Option hiding map_map mem_map
open List Function Nat

/-- `hashchain`: the ids of the blocks from height `offset` on. -/
@[ext] structure HashChain where
  offset : Nat
  ids : List Hash
  deriving DecidableEq

variable (c : HashChain)

def HashChain.size : Nat := c.ids.length + c.offset

def HashChain.pushBack (id : Hash) : HashChain := { c with ids := c.ids ++ [id] }

def HashChain.append (ids : List Hash) : HashChain := { c with ids := c.ids ++ ids }

def HashChain.crop (height : Nat) : HashChain := { c with ids := c.ids.take (height - c.offset) }

def HashChain.isInBounds (idx : Nat) : Bool := idx ≥ c.offset ∧ idx < c.size

def HashChain.at? (height : Nat) : Option Hash :=
  if height < c.offset then none else c.ids[height - c.offset]?

/-- The part of a wallet that scanning writes. -/
@[ext] structure Wallet2 (K I : Type) where
  book : Book K I
  blockchain : HashChain

section

variable {K I : Type} [DecidableEq K] [DecidableEq I] (keyImage : K → I)

/-! ## Scanning -/

variable (height : Nat)

variable (b : Book K I)

def processNewTransaction (tx : Tx K I) : Option (Book K I) :=
  (tx.received.foldlM (m := Option) (fun (b : Book K I) o => b.receive keyImage height o) b).bind
    fun b => tx.vin.foldlM (fun (b : Book K I) i => b.spend height i) b

def Wallet2.processNewBlockchainEntry (w : Wallet2 K I) (bl : ParsedBlock K I) (height : Nat) :
    Option (Wallet2 K I) :=
  if height ≠ w.blockchain.size then none
  else (bl.txs.foldlM (m := Option) (processNewTransaction keyImage height) w.book).map
    fun book => ⟨book, w.blockchain.pushBack bl.hash⟩

def Wallet2.scan (w : Wallet2 K I) : List (ParsedBlock K I) → Option (Wallet2 K I)
  | [] => some w
  | bl :: bls => (w.processNewBlockchainEntry keyImage bl w.blockchain.size).bind (·.scan bls)

/-! ## Detaching -/

variable (td : Transfer K)

/-- Spending at or above `height` is taken back. -/
def Transfer.resetSpent : Transfer K :=
  if td.spent && td.spentHeight ≥ height then { td with spent := false, spentHeight := 0 } else td

def eraseKeys {X : Type} [DecidableEq X] : List X → (X → Option Nat) → Option (X → Option Nat)
  | [], index => some index
  | x :: xs, index => if (index x).isSome then eraseKeys xs (update index x none) else none

def Wallet2.detachBlockchain (w : Wallet2 K I) (height : Nat) : Option (Wallet2 K I) :=
  let transfers := w.book.transfers.map (Transfer.resetSpent height)
  -- everything from the first transfer on that is not below the height
  let detached := transfers.dropWhile fun td => td.blockHeight < height
  (eraseKeys (detached.map fun td => keyImage td.output.publicKey) w.book.keyImages).bind
    fun keyImages => (eraseKeys (detached.map fun td => td.output.publicKey) w.book.pubKeys).map
      fun pubKeys =>
        ⟨⟨transfers.takeWhile fun td => td.blockHeight < height, keyImages, pubKeys⟩,
          if height ≤ w.blockchain.size ∧ height ≥ w.blockchain.offset then w.blockchain.crop height
          else w.blockchain⟩

def Wallet2.handleReorg (w : Wallet2 K I) (height : Nat) : Option (Wallet2 K I) :=
  if height < w.blockchain.offset ∧ w.blockchain.size > w.blockchain.offset then none
  else w.detachBlockchain keyImage height

def parentsMatch : Option Hash → List (ParsedBlock K I) → Bool
  | _, [] => true
  | prev, bl :: bls => (match prev with
      | some id => decide (id = bl.prevId)
      | none => true) && parentsMatch (some bl.hash) bls

def Wallet2.processBlocks (maxReorgDepth startHeight : Nat) :
    Nat → List (ParsedBlock K I) → Wallet2 K I → Option (Wallet2 K I)
  | _, [], w => some w
  | current, bl :: bls, w =>
    (if current ≥ w.blockchain.size then w.processNewBlockchainEntry keyImage bl current
      else match w.blockchain.at? current with
        | none => none
        | some id =>
          if bl.hash ≠ id then
            -- a split
            if current = startHeight then none
            else if w.blockchain.size - current > maxReorgDepth then none
            else (w.handleReorg keyImage current).bind
              (·.processNewBlockchainEntry keyImage bl current)
          else some w).bind
      (processBlocks maxReorgDepth startHeight (current + 1) bls)

def Wallet2.processParsedBlocks (maxReorgDepth startHeight : Nat) (bls : List (ParsedBlock K I))
    (w : Wallet2 K I) : Option (Wallet2 K I) :=
  if !w.blockchain.isInBounds startHeight then none
  else
    let prev := if startHeight = 0 then none else w.blockchain.at? (startHeight - 1)
    if parentsMatch prev bls then w.processBlocks keyImage maxReorgDepth startHeight startHeight bls
    else none

/-! ## Scanning as a run of events -/

def txEvents (tx : Tx K I) : List (Nat × Event K I) :=
  tx.received.map (fun o => (height, .received o)) ++ tx.vin.map fun i => (height, .spent i)

def blockEvents (bl : ParsedBlock K I) : List (Nat × Event K I) := bl.txs.flatMap (txEvents height)

def chainEvents : Nat → List (ParsedBlock K I) → List (Nat × Event K I)
  | _, [] => []
  | height, bl :: bls => blockEvents height bl ++ chainEvents (height + 1) bls

theorem processNewTransaction_eq (tx : Tx K I) :
    processNewTransaction keyImage height b tx = (books keyImage).exec b (txEvents height tx) := by
  rw [System.exec_eq_foldlM, txEvents, foldlM_append, foldlM_map]
  simp only [foldlM_map]
  rfl

theorem foldlM_processNewTransaction_eq (txs : List (Tx K I)) :
    ∀ b : Book K I, txs.foldlM (m := Option) (processNewTransaction keyImage height) b
      = (books keyImage).exec b (txs.flatMap (txEvents height)) := by
  induction txs with
  | nil => exact fun _ => rfl
  | cons tx txs ih =>
    intro b
    rw [foldlM_cons, processNewTransaction_eq, flatMap_cons, System.exec_append_bind]
    exact congrArg _ (funext ih)

theorem Wallet2.processNewBlockchainEntry_eq (w : Wallet2 K I) (bl : ParsedBlock K I) :
    w.processNewBlockchainEntry keyImage bl w.blockchain.size
      = ((books keyImage).exec w.book (blockEvents w.blockchain.size bl)).map
          fun book => ⟨book, w.blockchain.pushBack bl.hash⟩ := by
  rw [processNewBlockchainEntry, if_neg (not_not_intro rfl), foldlM_processNewTransaction_eq,
    blockEvents]

theorem HashChain.size_pushBack (id : Hash) : (c.pushBack id).size = c.size + 1 := by
  simp only [size, pushBack, length_append, length_singleton]
  omega

theorem HashChain.pushBack_append (id : Hash) (ids : List Hash) :
    (c.pushBack id).append ids = c.append (id :: ids) := by
  simp only [append, pushBack, append_assoc, singleton_append]

theorem Wallet2.scan_eq (bls : List (ParsedBlock K I)) : ∀ w : Wallet2 K I,
    w.scan keyImage bls = ((books keyImage).exec w.book (chainEvents w.blockchain.size bls)).map
      fun book => ⟨book, w.blockchain.append (bls.map ParsedBlock.hash)⟩ := by
  induction bls with
  | nil =>
    intro w
    simp [scan, chainEvents, System.exec, HashChain.append]
  | cons bl bls ih =>
    intro w
    rw [scan, processNewBlockchainEntry_eq, chainEvents, System.exec_append_bind]
    cases (books keyImage).exec w.book (blockEvents w.blockchain.size bl) with
    | none => rfl
    | some book =>
      simp only [map_some, bind_some, ih, HashChain.size_pushBack,
        HashChain.pushBack_append, map_cons]

theorem Wallet2.scan_append (bls bls' : List (ParsedBlock K I)) : ∀ w : Wallet2 K I,
    w.scan keyImage (bls ++ bls') = (w.scan keyImage bls).bind (·.scan keyImage bls') := by
  induction bls with
  | nil => exact fun _ => rfl
  | cons bl bls ih =>
    intro w
    rw [cons_append, scan, scan, bind_assoc]
    exact congrArg _ (funext ih)

omit [DecidableEq K] [DecidableEq I] in
theorem le_of_mem_chainEvents {l : Nat × Event K I} (bls : List (ParsedBlock K I)) :
    ∀ {height : Nat}, l ∈ chainEvents height bls → height ≤ l.1 ∧ l.1 < height + bls.length := by
  induction bls with
  | nil =>
    intro height h
    cases h
  | cons bl bls ih =>
    intro height h
    rcases mem_append.mp h with hbl | hbls
    · obtain ⟨tx, -, htx⟩ := mem_flatMap.mp hbl
      have hl : l.1 = height := by
        rcases mem_append.mp htx with ho | hi
        · obtain ⟨o, -, rfl⟩ := mem_map.mp ho
          rfl
        · obtain ⟨i, -, rfl⟩ := mem_map.mp hi
          rfl
      rw [length_cons]
      omega
    · have := ih hbls
      rw [length_cons]
      omega

/-! ## What the abandoned branch does to a transfer -/

def lastAmount (x : I) (is : List (Nat × TxInput I)) : Option Nat :=
  (is.filter fun i => i.2.keyImage = x ∧ i.2.amount > 0).getLast?.map (·.2.amount)

/-- None of the inputs spends the transfer when it was spent before, and when it was not, they leave
its amount as it was. -/
def KeepsTransfer (is : List (Nat × TxInput I)) : Prop :=
  if td.spent then ∀ i ∈ is, i.2.keyImage ≠ keyImage td.output.publicKey
  else ∀ a, lastAmount (keyImage td.output.publicKey) is = some a → a = td.amount

omit [DecidableEq K] in
theorem keepsTransfer_nil : KeepsTransfer keyImage td [] := by
  unfold KeepsTransfer
  split
  · nofun
  · nofun

theorem lastAmount_concat (x : I) (is : List (Nat × TxInput I)) (i : Nat × TxInput I) :
    lastAmount x (is ++ [i]) = if i.2.keyImage = x ∧ i.2.amount > 0 then some i.2.amount
      else lastAmount x is := by
  unfold lastAmount
  rw [filter_append]
  split
  · next h =>
    rw [filter_singleton, decide_eq_true h, cond_true, getLast?_concat, map_some]
  · next h =>
    rw [filter_singleton, decide_eq_false h, cond_false, append_nil]

omit [DecidableEq K] in
theorem spendAll_cases {h : Nat} (is : List (Nat × TxInput I))
    (his : ∀ i ∈ is, h ≤ i.1) :
    ((∀ i ∈ is, i.2.keyImage ≠ keyImage td.output.publicKey) ∧ td.spendAll keyImage is = td)
      ∨ (∃ s, h ≤ s ∧ (∃ i ∈ is, i.2.keyImage = keyImage td.output.publicKey)
        ∧ td.spendAll keyImage is = { td with
            amount := (lastAmount (keyImage td.output.publicKey) is).getD td.amount
            spent := true
            spentHeight := s }) := by
  induction is using reverseRecOn with
  | nil => exact .inl ⟨nofun, rfl⟩
  | append_singleton is i ih =>
    have hi : h ≤ i.1 := his i (by simp)
    rw [spendAll_append, lastAmount_concat]
    rcases ih fun j hj => his j (mem_append_left _ hj) with ⟨hnone, heq⟩ | ⟨s, hs, hsome, heq⟩
    · rw [heq, Transfer.spendAll, Transfer.spendAll, Transfer.spendAll]
      by_cases hx : keyImage td.output.publicKey = i.2.keyImage
      · rw [if_pos hx]
        refine .inr ⟨i.1, hi, ⟨i, by simp, hx.symm⟩, ?_⟩
        have hlast : lastAmount (keyImage td.output.publicKey) is = none := by
          have hfilter : is.filter (fun j => j.2.keyImage = keyImage td.output.publicKey
              ∧ j.2.amount > 0) = [] := by
            rw [filter_eq_nil_iff]
            intro j hj
            simp [hnone j hj]
          rw [lastAmount, hfilter]
          rfl
        rw [hx] at hlast
        simp only [Transfer.spendAt, hlast, hx, true_and]
        split <;> rfl
      · rw [if_neg hx]
        refine .inl ⟨fun j hj => ?_, rfl⟩
        rcases mem_append.mp hj with hj | hj
        · exact hnone j hj
        · rw [mem_singleton] at hj
          subst hj
          exact fun h => hx h.symm
    · rw [heq, Transfer.spendAll, Transfer.spendAll, Transfer.spendAll]
      obtain ⟨j, hj, hjx⟩ := hsome
      have hsome' : ∃ i' ∈ is ++ [i], i'.2.keyImage = keyImage td.output.publicKey :=
        ⟨j, mem_append_left _ hj, hjx⟩
      by_cases hx : keyImage td.output.publicKey = i.2.keyImage
      · rw [if_pos hx]
        refine .inr ⟨i.1, hi, hsome', ?_⟩
        simp only [Transfer.spendAt, hx, true_and]
        split <;> rfl
      · rw [if_neg hx, if_neg fun h => hx h.1.symm]
        exact .inr ⟨s, hs, hsome', rfl⟩

omit [DecidableEq K] in
theorem resetSpent_spendAll_iff {h : Nat} {td : Transfer K} {is : List (Nat × TxInput I)}
    (his : ∀ i ∈ is, h ≤ i.1) (hspent : td.spent = true → td.spentHeight < h)
    (hunspent : td.spent = false → td.spentHeight = 0) :
    (td.spendAll keyImage is).resetSpent h = td ↔ KeepsTransfer keyImage td is := by
  have hreset : td.resetSpent h = td := by
    rw [Transfer.resetSpent]
    split
    · next hc =>
      rw [Bool.and_eq_true, decide_eq_true_eq] at hc
      have := hspent hc.1
      omega
    · rfl
  unfold KeepsTransfer
  rcases spendAll_cases keyImage td is his with ⟨hnone, heq⟩ | ⟨s, hs, ⟨i, hi, hix⟩, heq⟩
  · rw [heq]
    refine iff_of_true hreset ?_
    split
    · exact hnone
    · intro a ha
      obtain ⟨j, hj, -⟩ := map_eq_some_iff.mp ha
      have hmem := mem_of_getLast? hj
      rw [mem_filter] at hmem
      exact absurd (of_decide_eq_true hmem.2).1 (hnone j hmem.1)
  · rw [heq, Transfer.resetSpent, if_pos (by simp [hs])]
    cases hsp : td.spent with
    | true =>
      refine iff_of_false (fun hcon => ?_) fun hnone => hnone i hi hix
      have := congrArg Transfer.spent hcon
      rw [hsp] at this
      cases this
    | false =>
      simp only [Bool.false_eq_true, if_false]
      constructor
      · intro hcon a ha
        have := congrArg Transfer.amount hcon
        rw [ha] at this
        exact this
      · intro hamount
        have hgetD : (lastAmount (keyImage td.output.publicKey) is).getD td.amount = td.amount := by
          cases hlast : lastAmount (keyImage td.output.publicKey) is with
          | none => rfl
          | some a => exact hamount a hlast
        rw [hgetD, ← hsp, ← hunspent hsp]

/-! ## Detaching a book with sound indices -/

theorem eraseKeys_eq {X : Type} [DecidableEq X] (xs : List X) :
    ∀ {index : X → Option Nat}, xs.Nodup → (∀ x ∈ xs, (index x).isSome) →
      eraseKeys xs index = some fun x => if x ∈ xs then none else index x := by
  induction xs with
  | nil =>
    intro index _ _
    simp [eraseKeys]
  | cons x xs ih =>
    intro index hnodup hsome
    obtain ⟨hx, hxs⟩ := nodup_cons.mp hnodup
    obtain ⟨hsx, hsxs⟩ := forall_mem_cons.mp hsome
    have hrest : ∀ y ∈ xs, (update index x none y).isSome := by
      intro y hy
      rw [update_of_ne fun (h : y = x) => hx (h ▸ hy)]
      exact hsxs y hy
    rw [eraseKeys, if_pos hsx, ih hxs hrest]
    congr
    funext y
    by_cases hy : y = x
    · subst hy
      simp
    · simp only [mem_cons, hy, false_or, update_of_ne hy]

omit [DecidableEq K] [DecidableEq I] in
theorem Book.Indexed.nodup {b : Book K I} (hb : b.Indexed keyImage) :
    (b.transfers.map fun td => td.output.publicKey).Nodup := by
  rw [nodup_iff_getElem?_ne_getElem?]
  intro i j hij hj heq
  rw [length_map] at hj
  rw [getElem?_map, getElem?_map, getElem?_eq_getElem hj,
    getElem?_eq_getElem (hij.trans hj), map_some, map_some, Option.some.injEq] at heq
  have h1 := hb.pubKeys_eq_some.mpr ⟨_, getElem?_eq_getElem (hij.trans hj), heq⟩
  have h2 := hb.pubKeys_eq_some.mpr ⟨_, getElem?_eq_getElem hj, rfl⟩
  have := Option.mem_unique h1 h2
  omega

omit [DecidableEq K] in
@[simp] theorem Transfer.resetSpent_output : (td.resetSpent height).output = td.output := by
  rw [resetSpent]
  split <;> rfl

omit [DecidableEq K] in
@[simp] theorem Transfer.resetSpent_blockHeight :
    (td.resetSpent height).blockHeight = td.blockHeight := by
  rw [resetSpent]
  split <;> rfl

def Book.kept : List (Transfer K) :=
  (b.transfers.map (Transfer.resetSpent height)).takeWhile fun td => td.blockHeight < height

def Book.detached : List (Transfer K) :=
  (b.transfers.map (Transfer.resetSpent height)).dropWhile fun td => td.blockHeight < height

def Book.detachAt : Book K I where
  transfers := b.kept height
  keyImages x := if x ∈ (b.detached height).map (fun td => keyImage td.output.publicKey) then none
    else b.keyImages x
  pubKeys k := if k ∈ (b.detached height).map (fun td => td.output.publicKey) then none
    else b.pubKeys k

variable (hinj : Function.Injective keyImage)
include hinj

theorem Wallet2.detachBlockchain_eq {w : Wallet2 K I} (hw : w.book.Indexed keyImage) {height : Nat}
    (hsize : height ≤ w.blockchain.size) (hoffset : w.blockchain.offset ≤ height) :
    w.detachBlockchain keyImage height
      = some ⟨w.book.detachAt keyImage height, w.blockchain.crop height⟩ := by
  have hsub : ((w.book.detached height).map fun td => td.output.publicKey).Sublist
      (w.book.transfers.map fun td => td.output.publicKey) := by
    have hall := ((w.book.transfers.map (Transfer.resetSpent height)).dropWhile_sublist
      fun td => td.blockHeight < height).map fun td => td.output.publicKey
    rwa [map_map, show ((fun td : Transfer K => td.output.publicKey) ∘ Transfer.resetSpent height)
      = fun td => td.output.publicKey from funext fun td => by simp] at hall
  have hnodup := (hw.nodup keyImage).sublist hsub
  have hmem : ∀ td ∈ w.book.detached height, ∃ (i : Nat) (t : Transfer K),
      w.book.transfers[i]? = some t ∧ t.output.publicKey = td.output.publicKey := by
    intro td htd
    obtain ⟨t, ht, hkey⟩ := mem_map.mp (hsub.subset (mem_map_of_mem htd))
    obtain ⟨i, hi⟩ := mem_iff_getElem?.mp ht
    exact ⟨i, t, hi, hkey⟩
  have himages : eraseKeys ((w.book.detached height).map fun td => keyImage td.output.publicKey)
      w.book.keyImages = some fun x =>
        if x ∈ (w.book.detached height).map (fun td => keyImage td.output.publicKey)
          then none else w.book.keyImages x := by
    refine eraseKeys_eq _ ?_ fun x hx => ?_
    · have := hnodup.map hinj
      rwa [map_map] at this
    · obtain ⟨td, htd, rfl⟩ := mem_map.mp hx
      obtain ⟨i, t, ht, hkey⟩ := hmem td htd
      rw [hw.keyImages_eq_some.mpr ⟨t, ht, congrArg keyImage hkey⟩]
      rfl
  have hkeys : eraseKeys ((w.book.detached height).map fun td => td.output.publicKey)
      w.book.pubKeys = some fun k =>
        if k ∈ (w.book.detached height).map (fun td => td.output.publicKey)
          then none else w.book.pubKeys k := by
    refine eraseKeys_eq _ hnodup fun k hk => ?_
    obtain ⟨td, htd, rfl⟩ := mem_map.mp hk
    obtain ⟨i, t, ht, hkey⟩ := hmem td htd
    rw [hw.pubKeys_eq_some.mpr ⟨t, ht, hkey⟩]
    rfl
  rw [Book.detached] at himages hkeys
  simp only [detachBlockchain, himages, hkeys, bind_some, map_some]
  rw [if_pos ⟨hsize, hoffset⟩]
  rfl

omit hinj

omit [DecidableEq K] [DecidableEq I] in
theorem index_detach {X : Type} [DecidableEq X] (f : K → X) {index index' : X → Option Nat}
    {ts ts' : List (Transfer K)} {gone : List X}
    (h : ∀ x i, index x = some i ↔ ∃ t, ts[i]? = some t ∧ f t.output.publicKey = x)
    (h' : ∀ x i, index' x = some i ↔ ∃ t, ts'[i]? = some t ∧ f t.output.publicKey = x)
    (hkey : ∀ (i : Nat) (t : Transfer K), ts[i]? = some t →
      ∃ t', ts'[i]? = some t' ∧ t'.output.publicKey = t.output.publicKey)
    (hgone : ∀ x, x ∈ gone ↔ ∃ i t, ts.length ≤ i ∧ ts'[i]? = some t ∧ f t.output.publicKey = x) :
    (fun x => if x ∈ gone then none else index' x) = index := by
  funext x
  refine Option.ext fun i => ?_
  constructor
  · intro hi
    split_ifs at hi with hx
    obtain ⟨t', ht', hfx⟩ := (h' x i).mp hi
    have hlt : i < ts.length := by
      by_contra hge
      exact hx ((hgone x).mpr ⟨i, t', by omega, ht', hfx⟩)
    have ht := getElem?_eq_getElem hlt
    obtain ⟨t'', ht'', hk⟩ := hkey i _ ht
    obtain rfl : t'' = t' := Option.mem_unique ht'' ht'
    exact (h x i).mpr ⟨_, ht, by rw [← hk, hfx]⟩
  · intro hi
    obtain ⟨t, ht, hfx⟩ := (h x i).mp hi
    obtain ⟨t', ht', hk⟩ := hkey i t ht
    have hi' : index' x = some i := (h' x i).mpr ⟨t', ht', by rw [hk, hfx]⟩
    rw [if_neg, hi']
    intro hx
    obtain ⟨j, t'', hj, ht'', hfx''⟩ := (hgone x).mp hx
    have hj' := (h' x j).mpr ⟨t'', ht'', hfx''⟩
    have : i = j := Option.mem_unique hi' hj'
    have hlt := (List.getElem?_eq_some_iff.mp ht).1
    omega

/-! ## The split

`p` is the book of the common part, `h` the height of the split, and `b` the book after the events
of the abandoned branch. -/

section Split

variable {h : Nat} {p b : Book K I} {ls : List (Nat × Event K I)}
  (hp : p.Indexed keyImage) (hbelow : p.Below h) (hls : ∀ l ∈ ls, h ≤ l.1)
  (hexec : (books keyImage).exec p ls = some b)

/-- The events of an abandoned branch replace no transfer of the common part, and its inputs leave
no trace on one. -/
def Undisturbed (p : Book K I) (ls : List (Nat × Event K I)) : Prop :=
  (books keyImage).Meets (KeepsOld p.transfers.length) p ls
    ∧ ∀ td ∈ p.transfers, KeepsTransfer keyImage td (inputsOf ls)

omit [DecidableEq K] [DecidableEq I] in
theorem le_of_mem_inputsOf {i : Nat × TxInput I} (hls : ∀ l ∈ ls, h ≤ l.1)
    (hi : i ∈ inputsOf ls) : h ≤ i.1 := by
  induction ls with
  | nil => cases hi
  | cons l ls ih =>
    obtain ⟨hl, hrest⟩ := forall_mem_cons.mp hls
    obtain ⟨height, o | x⟩ := l
    · exact ih hrest hi
    · rcases mem_cons.mp hi with rfl | hi
      · exact hl
      · exact ih hrest hi

include hinj hp hbelow hls hexec

theorem map_resetSpent_of_undisturbed (hkeep : Undisturbed keyImage p ls) :
    b.transfers.map (Transfer.resetSpent h) = p.transfers
      ++ (b.transfers.drop p.transfers.length).map (Transfer.resetSpent h) := by
  have hold : ∀ i td, i < p.transfers.length → p.transfers[i]? = some td →
      b.transfers[i]? = some (td.spendAll keyImage (inputsOf ls)) := by
    rcases old_of_exec hinj ls hp hls hexec with ⟨-, hold⟩ | ⟨hnot, -⟩
    · exact hold
    · exact absurd hkeep.1 hnot
  have htake : (b.transfers.take p.transfers.length).map (Transfer.resetSpent h) = p.transfers := by
    refine ext_getElem? fun i => ?_
    rw [getElem?_map, getElem?_take]
    split
    · next hlt =>
      have htd := getElem?_eq_getElem hlt
      have hmem := mem_of_getElem? htd
      rw [htd, hold i _ hlt htd, map_some, (resetSpent_spendAll_iff keyImage
        (fun _ => le_of_mem_inputsOf hls) (hbelow _ hmem).2.1 (hbelow _ hmem).2.2).mpr
          (hkeep.2 _ hmem)]
    · next hge =>
      rw [getElem?_eq_none (by omega)]
      rfl
  conv_lhs => rw [← take_append_drop p.transfers.length b.transfers, map_append, htake]

omit hinj hp hbelow in
theorem late_of_exec : b.LateFrom h p.transfers.length := by
  refine lateFrom_of_exec (fun i td hi htd => ?_) hls hexec
  have := (List.getElem?_eq_some_iff.mp htd).1
  omega

theorem kept_detached_of_undisturbed (hkeep : Undisturbed keyImage p ls) :
    b.kept h = p.transfers
      ∧ b.detached h = (b.transfers.drop p.transfers.length).map (Transfer.resetSpent h) := by
  have hmap := map_resetSpent_of_undisturbed keyImage hinj hp hbelow hls hexec hkeep
  have hold : ∀ td ∈ p.transfers, decide (td.blockHeight < h) = true :=
    fun td htd => decide_eq_true (hbelow td htd).1
  have hnew : ∀ td ∈ (b.transfers.drop p.transfers.length).map (Transfer.resetSpent h),
      decide (td.blockHeight < h) = false := by
    intro td htd
    obtain ⟨t, ht, rfl⟩ := mem_map.mp htd
    obtain ⟨i, hi⟩ := mem_iff_getElem?.mp ht
    rw [getElem?_drop] at hi
    have := late_of_exec keyImage hls hexec _ t (le_add_right _ _) hi
    simpa using this
  constructor
  · rw [Book.kept, hmap, takeWhile_append_of_pos hold, append_right_eq_self, takeWhile_eq_nil_iff]
    exact fun hl => Bool.eq_false_iff.mp (hnew _ (getElem_mem hl))
  · rw [Book.detached, hmap, dropWhile_append_of_pos hold, dropWhile_eq_self_iff]
    exact fun hl => Bool.eq_false_iff.mp (hnew _ (getElem_mem hl))

theorem detach_of_undisturbed (hkeep : Undisturbed keyImage p ls) : b.detachAt keyImage h = p := by
  obtain ⟨hkept, hdetached⟩ := kept_detached_of_undisturbed keyImage hinj hp hbelow hls hexec hkeep
  have hb := indexed_of_exec hinj hp hexec
  have hgone : ∀ {X : Type} (f : K → X) (x : X),
      x ∈ (b.detached h).map (fun td => f td.output.publicKey) ↔ ∃ i t, p.transfers.length ≤ i ∧
        b.transfers[i]? = some t ∧ f t.output.publicKey = x := by
    intro X f x
    rw [hdetached, map_map, mem_map]
    constructor
    · rintro ⟨t, ht, rfl⟩
      obtain ⟨i, hi⟩ := mem_iff_getElem?.mp ht
      rw [getElem?_drop] at hi
      exact ⟨_, t, le_add_right _ _, hi, by simp⟩
    · rintro ⟨i, t, hi, ht, rfl⟩
      refine ⟨t, mem_iff_getElem?.mpr ⟨i - p.transfers.length, ?_⟩, by simp⟩
      rw [getElem?_drop, Nat.add_sub_cancel' hi, ht]
  have hkey : ∀ (i : Nat) (t : Transfer K), p.transfers[i]? = some t →
      ∃ t', b.transfers[i]? = some t' ∧ t'.output.publicKey = t.output.publicKey :=
    fun i t ht => key_of_exec hinj hp hexec ht
  refine Book.ext hkept ?_ ?_
  · exact index_detach keyImage (fun _ _ => hp.keyImages_eq_some)
      (fun _ _ => hb.keyImages_eq_some) hkey (hgone keyImage)
  · exact index_detach id (fun _ _ => hp.pubKeys_eq_some)
      (fun _ _ => hb.pubKeys_eq_some) hkey (hgone id)

theorem undisturbed_of_detach (hmem : ∀ td ∈ p.transfers, td ∈ b.kept h)
    (hkeys : ∀ k i, p.pubKeys k = some i →
      k ∉ (b.detached h).map fun td => td.output.publicKey) :
    Undisturbed keyImage p ls := by
  have hb := indexed_of_exec hinj hp hexec
  have hsplit : b.kept h ++ b.detached h = b.transfers.map (Transfer.resetSpent h) :=
    takeWhile_append_dropWhile
  rcases old_of_exec (n := p.transfers.length) hinj ls hp hls hexec with
    ⟨hmeets, hold⟩ | ⟨-, i, td, hi, htd, hge⟩
  · refine ⟨hmeets, fun td htd => ?_⟩
    obtain ⟨i, hi⟩ := mem_iff_getElem?.mp htd
    have hlt := (List.getElem?_eq_some_iff.mp hi).1
    have hbi := hold i td hlt hi
    -- the transfer that is `td` after detaching has its key, so it is the one in its place
    have hin : td ∈ b.transfers.map (Transfer.resetSpent h) := by
      rw [← hsplit]
      exact mem_append_left _ (hmem td htd)
    obtain ⟨t, ht, hreset⟩ := mem_map.mp hin
    obtain ⟨j, hj⟩ := mem_iff_getElem?.mp ht
    have hkey : t.output.publicKey = td.output.publicKey := by
      rw [← hreset, Transfer.resetSpent_output]
    obtain ⟨t', ht', hkey'⟩ := key_of_exec hinj hp hexec hi
    have hij : i = j := Option.some.inj ((hb.pubKeys_eq_some.mpr ⟨t', ht', hkey'⟩).symm.trans
      (hb.pubKeys_eq_some.mpr ⟨t, hj, hkey⟩))
    subst hij
    obtain rfl : td.spendAll keyImage (inputsOf ls) = t := Option.mem_unique hbi hj
    exact (resetSpent_spendAll_iff keyImage (fun _ => le_of_mem_inputsOf hls)
      (hbelow td htd).2.1 (hbelow td htd).2.2).mp hreset
  · -- the replaced transfer stands behind the cut
    exfalso
    have hpi := getElem?_eq_getElem hi
    obtain ⟨t', ht', hkey⟩ := key_of_exec hinj hp hexec hpi
    obtain rfl : t' = td := Option.mem_unique ht' htd
    refine hkeys _ i (hp.pubKeys_eq_some.mpr ⟨_, hpi, hkey.symm⟩) ?_
    have hreset : (b.kept h ++ b.detached h)[i]? = some (t'.resetSpent h) := by
      rw [hsplit, getElem?_map, htd, map_some]
    have hcut : (b.kept h).length ≤ i := by
      by_contra hlt
      rw [getElem?_append_left (by omega)] at hreset
      have := mem_takeWhile_imp (mem_of_getElem? hreset)
      rw [decide_eq_true_eq, Transfer.resetSpent_blockHeight] at this
      omega
    rw [getElem?_append_right hcut] at hreset
    exact mem_map.mpr ⟨_, mem_of_getElem? hreset, by simp⟩

end Split

/-! ## The loop over the blocks of the daemon -/

theorem HashChain.size_append (ids : List Hash) : (c.append ids).size = c.size + ids.length := by
  simp only [size, append, length_append]
  omega

theorem HashChain.crop_append (ids : List Hash) : (c.append ids).crop c.size = c := by
  simp only [crop, append, size, Nat.add_sub_cancel, take_left]

theorem HashChain.at?_append (ids : List Hash) (i : Nat) :
    (c.append ids).at? (c.size + i) = ids[i]? := by
  have hin : ¬ c.size + i < (c.append ids).offset := by
    simp only [append, size]
    omega
  have hpos : c.size + i - (c.append ids).offset = c.ids.length + i := by
    simp only [append, size]
    omega
  rw [at?, if_neg hin, hpos, append, getElem?_append_right (le_add_right _ _),
    Nat.add_sub_cancel_left]

theorem Wallet2.processBlocks_tip (maxReorgDepth startHeight : Nat) (bls : List (ParsedBlock K I)) :
    ∀ w : Wallet2 K I, processBlocks keyImage maxReorgDepth startHeight w.blockchain.size bls w
      = w.scan keyImage bls := by
  induction bls with
  | nil => exact fun _ => rfl
  | cons bl bls ih =>
    intro w
    rw [processBlocks, if_pos le_rfl, scan, processNewBlockchainEntry_eq]
    cases (books keyImage).exec w.book (blockEvents w.blockchain.size bl) with
    | none => rfl
    | some book =>
      have := ih ⟨book, w.blockchain.pushBack bl.hash⟩
      rw [HashChain.size_pushBack] at this
      exact this

theorem Wallet2.processBlocks_common {maxReorgDepth startHeight : Nat}
    (bls rest : List (ParsedBlock K I)) (w : Wallet2 K I) :
    ∀ {current : Nat}, (∀ i (hi : i < bls.length),
        w.blockchain.at? (current + i) = some (bls.get ⟨i, hi⟩).hash) →
      current + bls.length ≤ w.blockchain.size →
      processBlocks keyImage maxReorgDepth startHeight current (bls ++ rest) w
        = processBlocks keyImage maxReorgDepth startHeight (current + bls.length) rest w := by
  induction bls with
  | nil => exact fun _ _ => rfl
  | cons bl bls ih =>
    intro current hids hsize
    rw [length_cons] at hsize
    have hhead := hids 0 (by simp)
    rw [add_zero] at hhead
    have htail : ∀ i (hi : i < bls.length),
        w.blockchain.at? (current + 1 + i) = some (bls.get ⟨i, hi⟩).hash := by
      intro i hi
      rw [add_assoc, add_comm 1 i]
      exact hids (i + 1) (by simpa using hi)
    have hrest := ih htail (by omega)
    rw [cons_append, processBlocks, if_neg (by omega), hhead]
    simp only [get_eq_getElem, getElem_cons_zero, ne_eq, not_true_eq_false, if_false, bind_some]
    rw [hrest, length_cons, add_assoc, add_comm 1]

/-! ## Reorganisations -/

def SameWallet (w w' : Wallet2 K I) : Prop :=
  (∀ td, td ∈ w.book.transfers ↔ td ∈ w'.book.transfers) ∧ w.book.keyImages = w'.book.keyImages
    ∧ w.book.pubKeys = w'.book.pubKeys ∧ w.blockchain = w'.blockchain

/-- `B` splits off from `A` behind a block with this id. -/
def SplitsOff (id : Hash) (A B : List (ParsedBlock K I)) : Prop :=
  ∃ a as b bs, A = a :: as ∧ B = b :: bs ∧ b.hash ≠ a.hash ∧ parentsMatch (some id) B

omit [DecidableEq K] [DecidableEq I] in
theorem Book.Indexed.empty : (Book.empty : Book K I).Indexed keyImage := by
  constructor
  · simp [Book.empty]
  · simp [Book.empty]

omit [DecidableEq K] [DecidableEq I] in
theorem parentsMatch_append (xs ys : List (ParsedBlock K I)) (x : ParsedBlock K I) :
    ∀ prev, parentsMatch prev (xs ++ [x] ++ ys)
      = (parentsMatch prev (xs ++ [x]) && parentsMatch (some x.hash) ys) := by
  induction xs with
  | nil => simp [parentsMatch]
  | cons y xs ih =>
    intro prev
    simp only [cons_append, parentsMatch, ih, Bool.and_assoc]

theorem HashChain.at?_last {c : HashChain} (hc : c.ids ≠ []) (ids : List Hash) :
    (c.append ids).at? (c.size - 1) = c.ids.getLast? := by
  have hpos := length_pos_iff.mpr hc
  have hin : ¬ c.size - 1 < (c.append ids).offset := by
    simp only [append, size]
    omega
  have hidx : c.size - 1 - (c.append ids).offset = c.ids.length - 1 := by
    simp only [append, size]
    omega
  rw [at?, if_neg hin, hidx, append, getElem?_append_left (by omega), getLast?_eq_getElem?]

theorem HashChain.append_append (ids ids' : List Hash) :
    (c.append ids).append ids' = c.append (ids ++ ids') := by
  simp only [append, append_assoc]

section

variable {maxReorgDepth : Nat} {cP : HashChain} {wA : Wallet2 K I}
  {C : List (ParsedBlock K I)} {c : ParsedBlock K I} {A B : List (ParsedBlock K I)}

include hinj in
/-- The answer of the daemon overlaps the chain of the wallet in `C ++ [c]`, behind which `B` splits
off: the wallet detaches at the split and scans `B`. -/
theorem Wallet2.processParsedBlocks_split (hcP : cP.ids ≠ [])
    (hchain : wA.blockchain = cP.append ((C ++ [c]).map ParsedBlock.hash ++ A.map ParsedBlock.hash))
    (hindexed : wA.book.Indexed keyImage) (hdepth : A.length ≤ maxReorgDepth)
    (hparents : parentsMatch cP.ids.getLast? (C ++ [c])) (hsplit : SplitsOff c.hash A B) :
    processParsedBlocks keyImage maxReorgDepth cP.size (C ++ [c] ++ B) wA
      = (wA.detachBlockchain keyImage (cP.size + (C ++ [c]).length)).bind (·.scan keyImage B) := by
  obtain ⟨a, as, b, bs, rfl, rfl, hne, hB⟩ := hsplit
  have hpos := length_pos_iff.mpr hcP
  have hstart : cP.size ≠ 0 := by
    simp only [HashChain.size]
    omega
  have hsize : wA.blockchain.size = cP.size + (C ++ [c]).length + (a :: as).length := by
    rw [hchain, HashChain.size_append, length_append, length_map, length_map]
    omega
  have hcheck : parentsMatch (if cP.size = 0 then none else wA.blockchain.at? (cP.size - 1))
      (C ++ [c] ++ b :: bs) = true := by
    rw [if_neg hstart, hchain, HashChain.at?_last hcP, parentsMatch_append, hparents, hB]
    rfl
  have hcommon : ∀ i (hi : i < (C ++ [c]).length),
      wA.blockchain.at? (cP.size + i) = some ((C ++ [c]).get ⟨i, hi⟩).hash := by
    intro i hi
    rw [hchain, HashChain.at?_append, getElem?_append_left (by rwa [length_map]),
      getElem?_map, getElem?_eq_getElem hi]
    rfl
  have hfork : wA.blockchain.at? (cP.size + (C ++ [c]).length) = some a.hash := by
    rw [hchain, HashChain.at?_append, getElem?_append_right (by rw [length_map]),
      length_map, Nat.sub_self]
    rfl
  have hoffset : wA.blockchain.offset ≤ cP.size := by
    rw [hchain]
    exact Nat.le_add_left _ _
  have hbounds : wA.blockchain.isInBounds cP.size = true :=
    decide_eq_true ⟨hoffset, by rw [hsize]; simp; omega⟩
  have hdetach := detachBlockchain_eq keyImage hinj hindexed
    (show cP.size + (C ++ [c]).length ≤ wA.blockchain.size by omega) (by omega)
  rw [processParsedBlocks, if_neg (by simp [hbounds])]
  dsimp only
  rw [if_pos hcheck, processBlocks_common keyImage _ _ _ hcommon (by omega),
    processBlocks, if_neg (by rw [hsize, length_cons]; omega), hfork]
  simp only [ne_eq, hne, not_false_eq_true, if_true]
  rw [if_neg (by simp), if_neg (by omega), handleReorg, if_neg (by omega), hdetach,
    bind_some, bind_some]
  -- the detached chain ends at the split, so the rest is scanned
  have hcrop : (wA.blockchain.crop (cP.size + (C ++ [c]).length)).size
      = cP.size + (C ++ [c]).length := by
    simp only [HashChain.size, HashChain.crop, length_take] at hsize hoffset ⊢
    omega
  have htip := processBlocks_tip keyImage maxReorgDepth cP.size (b :: bs)
    ⟨wA.book.detachAt keyImage (cP.size + (C ++ [c]).length),
      wA.blockchain.crop (cP.size + (C ++ [c]).length)⟩
  simp only [hcrop] at htip
  rw [processBlocks, if_pos hcrop.le] at htip
  exact htip

end

theorem scan_empty {c₀ : HashChain} {bls : List (ParsedBlock K I)} {w : Wallet2 K I}
    (hinj : Function.Injective keyImage) (h : Wallet2.scan keyImage ⟨.empty, c₀⟩ bls = some w) :
    w.book.Indexed keyImage ∧ w.book.Below w.blockchain.size
      ∧ w.blockchain = c₀.append (bls.map ParsedBlock.hash) := by
  rw [Wallet2.scan_eq, map_eq_some_iff] at h
  obtain ⟨book, hbook, rfl⟩ := h
  refine ⟨indexed_of_exec hinj (Book.Indexed.empty keyImage) hbook, ?_, rfl⟩
  refine below_of_exec (fun td htd => by cases htd) (fun l hl => ?_) hbook
  have := le_of_mem_chainEvents bls hl
  rw [HashChain.size_append, length_map]
  exact this.2

/-- For a wallet that has scanned a common part and a branch `A` on it, following every other branch
gives the wallet that scanned the common part and that branch, exactly when `A` left the transfers
of the common part undisturbed. -/
theorem reorg_equals_rescan_iff (hinj : Function.Injective keyImage) {c₀ : HashChain}
    (hc₀ : c₀.ids ≠ []) {P C A : List (ParsedBlock K I)} {c : ParsedBlock K I} {maxReorgDepth : Nat}
    (hparents : parentsMatch (c₀.append (P.map ParsedBlock.hash)).ids.getLast? (C ++ [c]))
    (hdepth : A.length ≤ maxReorgDepth) {wP wA : Wallet2 K I}
    (hwP : Wallet2.scan keyImage ⟨.empty, c₀⟩ (P ++ (C ++ [c])) = some wP)
    (hwA : wP.scan keyImage A = some wA) :
    (∀ B, SplitsOff c.hash A B → ∃ w w',
        wA.processParsedBlocks keyImage maxReorgDepth (c₀.size + P.length) (C ++ [c] ++ B) = some w
          ∧ Wallet2.scan keyImage ⟨.empty, c₀⟩ (P ++ (C ++ [c]) ++ B) = some w' ∧ SameWallet w w')
      ↔ Undisturbed keyImage wP.book (chainEvents wP.blockchain.size A) := by
  obtain ⟨hindexed, hbelow, hchainP⟩ := scan_empty keyImage hinj hwP
  rw [Wallet2.scan_eq, map_eq_some_iff] at hwA
  obtain ⟨book, hexec, rfl⟩ := hwA
  have hls : ∀ l ∈ chainEvents wP.blockchain.size A, wP.blockchain.size ≤ l.1 :=
    fun l hl => (le_of_mem_chainEvents A hl).1
  have hsizeP : c₀.size + P.length = (c₀.append (P.map ParsedBlock.hash)).size := by
    rw [HashChain.size_append, length_map]
  have hsize : wP.blockchain.size
      = (c₀.append (P.map ParsedBlock.hash)).size + (C ++ [c]).length := by
    rw [hchainP, HashChain.size_append, HashChain.size_append, map_append, length_append,
      length_map, length_map]
    omega
  have hchain : wP.blockchain.append (A.map ParsedBlock.hash)
      = (c₀.append (P.map ParsedBlock.hash)).append
          ((C ++ [c]).map ParsedBlock.hash ++ A.map ParsedBlock.hash) := by
    rw [hchainP, HashChain.append_append, HashChain.append_append, map_append, append_assoc]
  have hne : (c₀.append (P.map ParsedBlock.hash)).ids ≠ [] := by
    simp [HashChain.append, hc₀]
  -- following `B` is detaching and scanning
  have hfollow : ∀ B, SplitsOff c.hash A B →
      Wallet2.processParsedBlocks keyImage maxReorgDepth (c₀.size + P.length) (C ++ [c] ++ B)
          ⟨book, wP.blockchain.append (A.map ParsedBlock.hash)⟩
        = Wallet2.scan keyImage ⟨book.detachAt keyImage wP.blockchain.size, wP.blockchain⟩ B := by
    intro B hB
    have hb := indexed_of_exec hinj hindexed hexec
    rw [hsizeP, Wallet2.processParsedBlocks_split keyImage hinj hne hchain hb hdepth hparents hB,
      ← hsize, Wallet2.detachBlockchain_eq keyImage hinj hb, bind_some, HashChain.crop_append]
    · rw [HashChain.size_append]
      exact le_add_right _ _
    · simp only [HashChain.append, HashChain.size]
      exact le_add_left _ _
  have hrescan : ∀ B, Wallet2.scan keyImage ⟨.empty, c₀⟩ (P ++ (C ++ [c]) ++ B)
      = wP.scan keyImage B := by
    intro B
    rw [Wallet2.scan_append, hwP, bind_some]
  constructor
  · intro hall
    cases A with
    | nil => exact ⟨trivial, fun td _ => keepsTransfer_nil keyImage td⟩
    | cons a as =>
      -- a branch of one block without transactions
      obtain ⟨id, hid⟩ : ∃ id : Hash, id ≠ a.hash := by
        by_cases hnull : a.hash = nullHash
        · exact ⟨⟨replicate 32 1, by decide⟩, by rw [hnull]; decide⟩
        · exact ⟨nullHash, fun h => hnull h.symm⟩
      have hB : SplitsOff c.hash (a :: as) [⟨id, c.hash, []⟩] :=
        ⟨a, as, _, [], rfl, rfl, hid, by simp [parentsMatch]⟩
      obtain ⟨w, w', hw, hw', hsame⟩ := hall _ hB
      rw [hfollow _ hB, Wallet2.scan_eq] at hw
      rw [hrescan, Wallet2.scan_eq] at hw'
      cases hw
      cases hw'
      obtain ⟨hmem, -, hkeys, -⟩ := hsame
      refine undisturbed_of_detach keyImage hinj hindexed hbelow hls hexec
        (fun td htd => (hmem td).mpr htd) fun k i hk hgone => ?_
      have hnone : (book.detachAt keyImage wP.blockchain.size).pubKeys k = none := if_pos hgone
      have hsome : (book.detachAt keyImage wP.blockchain.size).pubKeys k = some i :=
        (congrFun hkeys k).trans hk
      rw [hnone] at hsome
      cases hsome
  · intro hkeep B hB
    have hdetach := detach_of_undisturbed keyImage hinj hindexed hbelow hls hexec hkeep
    rw [hfollow B hB, hrescan B, hdetach]
    obtain ⟨book', hbook'⟩ := exec_of_indexed hinj (chainEvents wP.blockchain.size B) hindexed
    have hscan := Wallet2.scan_eq keyImage B wP
    rw [hbook'] at hscan
    exact ⟨_, _, hscan, hscan, fun _ => Iff.rfl, rfl, rfl, rfl⟩

end

/-! ## A key received twice -/

def sampleHash (n : UInt8) : Hash := ⟨replicate 32 n, length_replicate⟩

def payingBlock (n prev : UInt8) (outputs : List (Nat × Nat)) : ParsedBlock Nat Nat where
  hash := sampleHash n
  prevId := sampleHash prev
  txs := [⟨outputs.map fun o => ⟨sampleHash n, 0, o.1, o.1, o.2⟩, []⟩]

def genesisWallet : Wallet2 Nat Nat := ⟨.empty, ⟨0, [sampleHash 0]⟩⟩

theorem reorg_equals_rescan_iff_sample :
    ∃ wP wA w w', genesisWallet.scan id [payingBlock 1 0 [(7, 10), (8, 20)]] = some wP
      ∧ wP.scan id [payingBlock 2 1 [(9, 15)]] = some wA
      ∧ wA.processParsedBlocks id 100 1
          [payingBlock 1 0 [(7, 10), (8, 20)], ⟨sampleHash 3, sampleHash 1, []⟩] = some w
      ∧ genesisWallet.scan id
          [payingBlock 1 0 [(7, 10), (8, 20)], ⟨sampleHash 3, sampleHash 1, []⟩] = some w'
      ∧ SameWallet w w' := by
  have hkeep : ∀ wP, genesisWallet.scan id [payingBlock 1 0 [(7, 10), (8, 20)]] = some wP →
      Undisturbed id wP.book (chainEvents wP.blockchain.size [payingBlock 2 1 [(9, 15)]]) := by
    rintro wP ⟨⟩
    refine ⟨⟨fun i td hkey => ?_, fun _ _ => trivial⟩, fun td _ => keepsTransfer_nil id td⟩
    cases hkey
  have hB : SplitsOff (payingBlock 1 0 [(7, 10), (8, 20)]).hash [payingBlock 2 1 [(9, 15)]]
      [⟨sampleHash 3, sampleHash 1, []⟩] :=
    ⟨_, [], _, [], rfl, rfl, by decide, by decide⟩
  have hgenesis : genesisWallet.blockchain.ids ≠ [] := by decide
  have hparents : parentsMatch (genesisWallet.blockchain.append
      (([] : List (ParsedBlock Nat Nat)).map ParsedBlock.hash)).ids.getLast?
      ([] ++ [payingBlock 1 0 [(7, 10), (8, 20)]]) = true := by decide
  have hdepth : [payingBlock 2 1 [(9, 15)]].length ≤ 100 := by decide
  obtain ⟨w, w', hw, hw', hsame⟩ := (reorg_equals_rescan_iff id (fun _ _ h => h) hgenesis hparents
    hdepth rfl rfl).mpr (hkeep _ rfl) _ hB
  exact ⟨_, _, w, w', rfl, rfl, hw, hw', hsame⟩

/-- The branch repeats the key of the first output with a larger amount. When it is abandoned the
wallet has lost both of its outputs. -/
theorem reorg_loses_transfers :
    ((((genesisWallet.scan id [payingBlock 1 0 [(7, 10), (8, 20)]]).bind
        (·.scan id [payingBlock 2 1 [(7, 15)]])).bind
        (·.processParsedBlocks id 100 1
          [payingBlock 1 0 [(7, 10), (8, 20)], ⟨sampleHash 3, sampleHash 1, []⟩])).map
        (·.book.transfers)) = some []
      ∧ (genesisWallet.scan id
          [payingBlock 1 0 [(7, 10), (8, 20)], ⟨sampleHash 3, sampleHash 1, []⟩]).map
          (·.book.transfers.map fun td => (td.output.publicKey, td.amount))
        = some [(7, 10), (8, 20)] := by
  decide

end Glaciem.Wallet
