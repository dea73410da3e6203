import Glaciem.Common.Pruning
import Glaciem.Lib.Dict
import Glaciem.Lib.System

/-!
# Glaciem — the block download queue

`block_queue` of `cryptonote_protocol`: the spans of blocks that were asked of the peers or have
arrived from them, with two tables that shadow them, the hashes that are requested and the hashes
whose blocks are there. The spans are kept by the height they start at, as in the source, whose set
is ordered by it; only `get_next_needed_height` depends on the order, and goes through `spans`.
-/

namespace Glaciem.Protocol

open List Dict

/-! ## Pruning -/

def u64 (n : Nat) : Nat := n % 2 ^ 64

def u32 (n : Nat) : Nat := n % 2 ^ 32

def maxBlockNumber : Nat := 500000000

def hasUnprunedBlock (blockHeight blockchainHeight pruningSeed : Nat) : Bool :=
  hasUnprunedBlockFrom (u64 (blockHeight + CRYPTONOTE_PRUNING_TIP_BLOCKS)) blockHeight
    blockchainHeight pruningSeed

def getNextUnprunedBlockHeight (blockHeight blockchainHeight pruningSeed : Nat) : Nat :=
  let stripe := getPruningStripe pruningSeed
  let seedLogStripes := getPruningLogStripes pruningSeed
  let logStripes := if seedLogStripes = 0 then CRYPTONOTE_PRUNING_LOG_STRIPES else seedLogStripes
  let blockPruningStripe := blockHeight / CRYPTONOTE_PRUNING_STRIPE_SIZE % 2 ^ logStripes + 1
  let cycles := blockHeight / CRYPTONOTE_PRUNING_STRIPE_SIZE / 2 ^ logStripes
  let cycleStart := cycles + if stripe > blockPruningStripe then 0 else 1
  let h := cycleStart * (CRYPTONOTE_PRUNING_STRIPE_SIZE * 2 ^ logStripes)
    + (stripe - 1) * CRYPTONOTE_PRUNING_STRIPE_SIZE
  if blockHeight > maxBlockNumber + 1 then blockHeight
  else if blockchainHeight > maxBlockNumber + 1 then blockHeight
  else if stripe = 0 then blockHeight
  else if blockHeight + CRYPTONOTE_PRUNING_TIP_BLOCKS ≥ blockchainHeight then blockHeight
  else if blockPruningStripe = stripe then blockHeight
  else if h + CRYPTONOTE_PRUNING_TIP_BLOCKS > blockchainHeight then
    blockchainHeight - CRYPTONOTE_PRUNING_TIP_BLOCKS
  else if h < blockHeight then blockHeight
  else h

/-! ## The queue -/

structure Span (H B C : Type) where
  hashes : List H
  blocks : List B
  connectionId : C
  nblocks : Nat
  deriving DecidableEq

def Span.filled {H B C : Type} (s : Span H B C) : Bool := !s.blocks.isEmpty

structure BlockQueue (H B C : Type) where
  blocks : Dict Nat (Span H B C) := Dict.empty
  requestedHashes : Finset H := ∅
  haveBlocks : Dict H Nat := Dict.empty

namespace BlockQueue

variable {H B C : Type} [DecidableEq H] [DecidableEq C]

variable (q : BlockQueue H B C)

def requested (hash : H) : Bool := hash ∈ q.requestedHashes

def «have» (hash : H) : Bool := (q.haveBlocks.get? hash).isSome

/-- `blocks.insert`: nothing happens when there is a span at the height. -/
def insert (startBlockHeight : Nat) (s : Span H B C) : BlockQueue H B C :=
  { q with blocks := q.blocks.emplace startBlockHeight s }

def eraseBlock (startBlockHeight : Nat) : BlockQueue H B C :=
  match q.blocks.get? startBlockHeight with
  | none => q
  | some s =>
    { blocks := q.blocks.erase startBlockHeight
      requestedHashes := q.requestedHashes \ s.hashes.toFinset
      haveBlocks := q.haveBlocks.eraseAll s.hashes }

def eraseWhere (p : Nat → Span H B C → Bool) : BlockQueue H B C :=
  ((q.blocks.items.filter fun item => p item.1 item.2).map Prod.fst).foldl eraseBlock q

def flushSpans (connectionId : C) (all : Bool) : BlockQueue H B C :=
  q.eraseWhere fun _ s => s.connectionId = connectionId && (all || !s.filled)

def flushStaleSpans (liveConnections : List C) : BlockQueue H B C :=
  q.eraseWhere fun _ s => !s.filled && s.connectionId ∉ liveConnections

def removeSpans (connectionId : C) (startBlockHeight : Nat) : BlockQueue H B C :=
  q.eraseWhere fun height s => s.connectionId = connectionId && height ≤ startBlockHeight

def removeSpan (startBlockHeight : Nat) : BlockQueue H B C × Option (List H) :=
  (q.eraseBlock startBlockHeight, (q.blocks.get? startBlockHeight).map Span.hashes)

def setSpanHashes (startHeight : Nat) (connectionId : C)
    (hashes : List H) : BlockQueue H B C :=
  match q.blocks.get? startHeight with
  | none => q
  | some s =>
    if s.connectionId = connectionId then
      let q' := q.eraseBlock startHeight
      { q' with requestedHashes := q'.requestedHashes ∪ hashes.toFinset }.insert startHeight
        { s with hashes := hashes }
    else q

/-- `add_blocks` with blocks that have arrived: they take the place, and the hashes, of the span at
the height. -/
def addBlocks (height : Nat) (bcel : List B) (connectionId : C) : BlockQueue H B C :=
  let (q', hashes) := q.removeSpan height
  let q' := q'.insert height ⟨[], bcel, connectionId, bcel.length⟩
  match hashes with
  | none => q'
  | some hashes =>
    setSpanHashes
      { q' with requestedHashes := q'.requestedHashes ∪ hashes.toFinset
                haveBlocks := q'.haveBlocks.emplaceAll
                  (hashes.zipIdx.map fun (hash, i) => (hash, u64 (height + i))) }
      height connectionId hashes

/-- `add_blocks` with a number of blocks to come; an empty span throws. -/
def addEmptySpan (height nblocks : Nat) (connectionId : C) : BlockQueue H B C :=
  if nblocks = 0 then q else q.insert height ⟨[], [], connectionId, nblocks⟩

def skipRequested (q : BlockQueue H B C) : List H → Nat → List H × Nat
  | [], height => ([], height)
  | hash :: rest, height =>
    if q.requested hash then q.skipRequested rest (u64 (height + 1)) else (hash :: rest, height)

structure Reservation (H C : Type) where
  firstBlockHeight : Nat
  lastBlockHeight : Nat
  lastBlockHeight_lt : lastBlockHeight < 2 ^ 64
  maxBlocks : Nat
  connectionId : C
  syncPrunedBlocks : Bool
  localPruningSeed : Nat
  pruningSeed : Nat
  blockchainHeight : Nat
  blockHashes : List H

variable (r : Reservation H C)

def Reservation.hashesStart : Nat := u64 (r.lastBlockHeight - r.blockHashes.length + 1)

def Reservation.unprunedStart (spanStartHeight : Nat) : Nat :=
  let nextUnprunedHeight :=
    u32 (getNextUnprunedBlockHeight spanStartHeight r.blockchainHeight r.pruningSeed)
  if !r.syncPrunedBlocks && nextUnprunedHeight > spanStartHeight
      && nextUnprunedHeight < u64 (spanStartHeight + CRYPTONOTE_PRUNING_STRIPE_SIZE) then
    nextUnprunedHeight
  else spanStartHeight

/-- The hashes of the span that starts at the height: at most `maxBlocks`, and all pruned or all
unpruned when pruned blocks are synced. -/
def Reservation.takeSpan (r : Reservation H C) (spanStartHeight : Nat) : List H → Nat → List H
  | [], _ => []
  | hash :: rest, spanLength =>
    let height := u64 (spanStartHeight + spanLength)
    let firstIsPruned := r.syncPrunedBlocks
      && !hasUnprunedBlock spanStartHeight r.blockchainHeight r.localPruningSeed
    if spanLength < r.maxBlocks
        && (r.syncPrunedBlocks || hasUnprunedBlock height r.blockchainHeight r.pruningSeed)
        && !(r.syncPrunedBlocks
          && firstIsPruned = hasUnprunedBlock height r.blockchainHeight r.localPruningSeed)
    then hash :: r.takeSpan spanStartHeight rest (spanLength + 1)
    else []

def spanFrom (spanStartHeight : Nat) : Nat × List H :=
  if spanStartHeight ≥ u64 (r.blockHashes.length + r.hashesStart) then (0, [])
  else
    let skipped :=
      q.skipRequested (r.blockHashes.drop (spanStartHeight - r.hashesStart)) spanStartHeight
    (skipped.2, r.takeSpan skipped.2 skipped.1 0)

def spanToReserve : Nat × List H :=
  if r.lastBlockHeight < r.firstBlockHeight || r.maxBlocks = 0 then (0, [])
  else if r.blockHashes.length > r.lastBlockHeight then (0, [])
  else
    -- skip everything we've already requested
    q.spanFrom r (r.unprunedStart (q.skipRequested r.blockHashes r.hashesStart).2)

def reserveSpan : (Nat × Nat) × BlockQueue H B C :=
  let (spanStartHeight, hashes) := q.spanToReserve r
  if hashes = [] then ((0, 0), q)
  else
    ((spanStartHeight, hashes.length),
      (q.addEmptySpan spanStartHeight hashes.length r.connectionId).setSpanHashes spanStartHeight
        r.connectionId hashes)

def spans : List (Nat × Span H B C) := q.blocks.items.insertionSort fun a b => a.1 ≤ b.1

/-- The sweep of `get_next_needed_height`: everything from the height of the chain up to
`coveredUntil` is in a span that was passed. -/
def sweep (blockchainHeight : Nat) : List (Nat × Span H B C) → Nat → Nat
  | [], coveredUntil => coveredUntil
  | (startBlockHeight, s) :: rest, coveredUntil =>
    if u64 (startBlockHeight + s.nblocks + (2 ^ 64 - 1)) < blockchainHeight then
      sweep blockchainHeight rest coveredUntil
    else if coveredUntil < startBlockHeight then coveredUntil
    else sweep blockchainHeight rest (max coveredUntil (u64 (startBlockHeight + s.nblocks)))

def getNextNeededHeight (blockchainHeight : Nat) : Nat :=
  sweep blockchainHeight q.spans blockchainHeight

/-! ## Operations -/

inductive Op (H B C : Type) where
  | reserveSpan (r : Reservation H C)
  | addBlocks (height : Nat) (bcel : List B) (connectionId : C)
  | addEmptySpan (height nblocks : Nat) (connectionId : C)
  | setSpanHashes (startHeight : Nat) (connectionId : C) (hashes : List H)
  | removeSpan (startBlockHeight : Nat)
  | removeSpans (connectionId : C) (startBlockHeight : Nat)
  | flushSpans (connectionId : C) (all : Bool)
  | flushStaleSpans (liveConnections : List C)

def after : Op H B C → BlockQueue H B C
  | .reserveSpan r => (q.reserveSpan r).2
  | .addBlocks height bcel connectionId => q.addBlocks height bcel connectionId
  | .addEmptySpan height nblocks connectionId => q.addEmptySpan height nblocks connectionId
  | .setSpanHashes startHeight connectionId hashes =>
      q.setSpanHashes startHeight connectionId hashes
  | .removeSpan startBlockHeight => (q.removeSpan startBlockHeight).1
  | .removeSpans connectionId startBlockHeight => q.removeSpans connectionId startBlockHeight
  | .flushSpans connectionId all => q.flushSpans connectionId all
  | .flushStaleSpans liveConnections => q.flushStaleSpans liveConnections

def queues : System (BlockQueue H B C) (Op H B C) := ⟨fun q op => some (q.after op)⟩

/-- The tables say what the spans list, and no hash is listed by two spans. -/
structure Consistent (q : BlockQueue H B C) : Prop where
  requested_iff : ∀ hash, q.requested hash = true
    ↔ ∃ height s, q.blocks.get? height = some s ∧ hash ∈ s.hashes
  have_iff : ∀ hash, q.have hash = true
    ↔ ∃ height s, q.blocks.get? height = some s ∧ s.filled = true ∧ hash ∈ s.hashes
  once : ∀ hash height height' s s', q.blocks.get? height = some s →
    q.blocks.get? height' = some s' → hash ∈ s.hashes → hash ∈ s'.hashes → height = height'

/-- No requested hash of a reservation comes within `maxBlocks` after one that is not. -/
def Gapless (r : Reservation H C) : Prop :=
  ∀ i j hash hash', i ≤ j → j < i + r.maxBlocks → r.blockHashes[i]? = some hash →
    r.blockHashes[j]? = some hash' → q.requested hash = false → q.requested hash' = false

/-- The hashes of a reservation are gapless, and the connection has no filled span where a hash that
is not requested would start one. Hashes that are set are listed by no other span, nor set on a
filled one. Blocks arrive for a span with hashes only if there are any. -/
def Careful : Op H B C → Prop
  | .reserveSpan r =>
    q.Gapless r ∧ ∀ i hash s, r.blockHashes[i]? = some hash → q.requested hash = false →
        q.blocks.get? (u64 (r.hashesStart + i)) = some s → s.connectionId = r.connectionId →
        s.filled = false
  | .addBlocks height bcel _ =>
    ∀ s, q.blocks.get? height = some s → s.hashes ≠ [] → bcel ≠ []
  | .setSpanHashes startHeight connectionId hashes =>
    ∀ s, q.blocks.get? startHeight = some s → s.connectionId = connectionId →
      (hashes ≠ [] → s.filled = false) ∧ ∀ height s', q.blocks.get? height = some s' →
        height ≠ startHeight → ∀ hash ∈ hashes, hash ∉ s'.hashes
  | _ => True

/-! ## One operation -/

variable {q q' : BlockQueue H B C} {r : Reservation H C} {height : Nat} {s : Span H B C}

section

omit [DecidableEq C]

theorem consistent_empty : Consistent ({} : BlockQueue H B C) where
  requested_iff hash := by simp [requested, Dict.get?, Dict.empty, Dict.lookupIn]
  have_iff hash := by simp [«have», Dict.get?, Dict.empty, Dict.lookupIn]
  once hash height height' s s' h := by cases h

omit [DecidableEq H] in
/-- A span of the new queue is the new one or an old one elsewhere. -/
theorem exists_span_put (hfree : q.blocks.get? height = none)
    (hblocks : ∀ k, q'.blocks.get? k = if k = height then some s else q.blocks.get? k)
    (p : Span H B C → Prop) : (∃ k t, q'.blocks.get? k = some t ∧ p t)
      ↔ (∃ k t, q.blocks.get? k = some t ∧ p t) ∨ p s := by
  constructor
  · rintro ⟨k, t, ht, hp⟩
    rw [hblocks] at ht
    split_ifs at ht
    · cases ht
      exact .inr hp
    · exact .inl ⟨k, t, ht, hp⟩
  · rintro (⟨k, t, ht, hp⟩ | hp)
    · refine ⟨k, t, ?_, hp⟩
      rw [hblocks, if_neg, ht]
      rintro rfl
      rw [hfree] at ht
      cases ht
    · exact ⟨height, s, by rw [hblocks, if_pos rfl], hp⟩

theorem Consistent.put (hq : Consistent q) (height : Nat) (s : Span H B C)
    (hfree : q.blocks.get? height = none)
    (hnew : ∀ hash ∈ s.hashes, q.requested hash = false)
    (hblocks : ∀ k, q'.blocks.get? k = if k = height then some s else q.blocks.get? k)
    (hrequested : ∀ hash, q'.requested hash = true ↔ q.requested hash = true ∨ hash ∈ s.hashes)
    (hhave : ∀ hash, q'.have hash = true
      ↔ q.have hash = true ∨ s.filled = true ∧ hash ∈ s.hashes) : Consistent q' := by
  refine ⟨fun hash => ?_, fun hash => ?_, ?_⟩
  · rw [hrequested, hq.requested_iff, exists_span_put hfree hblocks]
  · rw [hhave, hq.have_iff, exists_span_put hfree hblocks]
  · -- the hashes of the new span were not listed
    have hnone : ∀ hash ∈ s.hashes, ∀ k t, q.blocks.get? k = some t → hash ∉ t.hashes := by
      intro hash hmem k t ht hmem'
      have hlisted := (hq.requested_iff hash).mpr ⟨k, t, ht, hmem'⟩
      rw [hnew hash hmem] at hlisted
      cases hlisted
    intro hash k k' t t' ht ht' hmem hmem'
    rw [hblocks] at ht ht'
    split_ifs at ht ht' with hk hk'
    · rw [hk, hk']
    · cases ht
      exact absurd hmem' (hnone hash hmem k' t' ht')
    · cases ht'
      exact absurd hmem (hnone hash hmem' k t ht)
    · exact hq.once hash k k' t t' ht ht' hmem hmem'

theorem requested_eraseBlock (hs : q.blocks.get? height = some s) (hash : H) :
    (q.eraseBlock height).requested hash = true ↔ q.requested hash = true ∧ hash ∉ s.hashes := by
  simp [eraseBlock, hs, requested]

theorem have_eraseBlock (hs : q.blocks.get? height = some s) (hash : H) :
    (q.eraseBlock height).have hash = true ↔ q.have hash = true ∧ hash ∉ s.hashes := by
  simp only [eraseBlock, hs, «have», get?_eraseAll]
  by_cases hmem : hash ∈ s.hashes
  · simp [hmem]
  · simp [hmem]

theorem get?_eraseBlock (q : BlockQueue H B C) (height k : Nat) :
    (q.eraseBlock height).blocks.get? k = if k = height then none else q.blocks.get? k := by
  unfold eraseBlock
  by_cases hk : k = height
  · subst hk
    split
    · next hnone => rw [if_pos rfl, hnone]
    · rw [if_pos rfl, get?_erase_self]
  · rw [if_neg hk]
    split
    · rfl
    · exact get?_erase_ne _ hk

/-- The spans that list the hash are others exactly when it is not of the one that goes. -/
theorem exists_span_eraseBlock (hq : Consistent q) (hs : q.blocks.get? height = some s) {hash : H}
    {p : Span H B C → Prop} (hp : ∀ t, p t → hash ∈ t.hashes) :
    (∃ k t, (q.eraseBlock height).blocks.get? k = some t ∧ p t)
      ↔ (∃ k t, q.blocks.get? k = some t ∧ p t) ∧ hash ∉ s.hashes := by
  constructor
  · rintro ⟨k, t, ht, hpt⟩
    rw [get?_eraseBlock] at ht
    split_ifs at ht with hk
    exact ⟨⟨k, t, ht, hpt⟩, fun hmem => hk (hq.once hash k height t s ht hs (hp t hpt) hmem)⟩
  · rintro ⟨⟨k, t, ht, hpt⟩, hnot⟩
    refine ⟨k, t, ?_, hpt⟩
    rw [get?_eraseBlock, if_neg, ht]
    rintro rfl
    rw [hs, Option.some.injEq] at ht
    exact hnot (ht ▸ hp t hpt)

theorem Consistent.eraseBlock (hq : Consistent q) (height : Nat) :
    Consistent (q.eraseBlock height) := by
  cases hs : q.blocks.get? height with
  | none =>
    have hsame : q.eraseBlock height = q := by rw [BlockQueue.eraseBlock, hs]
    rwa [hsame]
  | some s =>
    refine ⟨fun hash => ?_, fun hash => ?_, fun hash k k' t t' ht ht' => ?_⟩
    · rw [requested_eraseBlock hs, hq.requested_iff, exists_span_eraseBlock hq hs fun _ h => h]
    · rw [have_eraseBlock hs, hq.have_iff, exists_span_eraseBlock hq hs fun _ h => h.2]
    · rw [get?_eraseBlock] at ht ht'
      split_ifs at ht ht'
      exact hq.once hash k k' t t' ht ht'

theorem Consistent.eraseWhere (hq : Consistent q) (p : Nat → Span H B C → Bool) :
    Consistent (q.eraseWhere p) := by
  unfold BlockQueue.eraseWhere
  generalize (q.blocks.items.filter fun item => p item.1 item.2).map Prod.fst = heights
  induction heights generalizing q with
  | nil => exact hq
  | cons height heights ih => exact ih (hq.eraseBlock height)

omit [DecidableEq H] in
theorem get?_insert (q : BlockQueue H B C) (height : Nat) (s : Span H B C) (k : Nat) :
    (q.insert height s).blocks.get? k
      = (q.blocks.get? k).or (if k = height then some s else none) := by
  rw [insert, get?_emplace]
  simp [Dict.lookupIn, eq_comm]

theorem requested_insert (q : BlockQueue H B C) (height : Nat) (s : Span H B C) (hash : H) :
    (q.insert height s).requested hash = q.requested hash := rfl

theorem have_insert (q : BlockQueue H B C) (height : Nat) (s : Span H B C) (hash : H) :
    (q.insert height s).have hash = q.have hash := rfl

theorem Consistent.insert (hq : Consistent q) (height : Nat) (hhashes : s.hashes = []) :
    Consistent (q.insert height s) := by
  cases hget : q.blocks.get? height with
  | none =>
    refine hq.put height s hget ?_ (fun k => ?_) ?_ ?_
    · simp [hhashes]
    · rw [get?_insert]
      by_cases hk : k = height
      · rw [hk, hget, if_pos rfl]
        rfl
      · rw [if_neg hk, if_neg hk, Option.or_none]
    · intro hash
      rw [hhashes, requested_insert]
      simp
    · intro hash
      rw [hhashes, have_insert]
      simp
  | some t =>
    have hsame : q.insert height s = q := by
      rw [BlockQueue.insert, emplace_of_some hget]
    rwa [hsame]

theorem Consistent.addEmptySpan (hq : Consistent q) (height nblocks : Nat) (connectionId : C) :
    Consistent (q.addEmptySpan height nblocks connectionId) := by
  unfold BlockQueue.addEmptySpan
  split_ifs
  · exact hq
  · exact hq.insert height rfl

end

theorem setSpanHashes_of_some {startHeight : Nat} (hs : q.blocks.get? startHeight = some s)
    (hashes : List H) :
    (∀ k, (q.setSpanHashes startHeight s.connectionId hashes).blocks.get? k = if k = startHeight
        then some { s with hashes := hashes } else q.blocks.get? k)
      ∧ (∀ hash, (q.setSpanHashes startHeight s.connectionId hashes).requested hash = true
        ↔ q.requested hash = true ∧ hash ∉ s.hashes ∨ hash ∈ hashes)
      ∧ ∀ hash, (q.setSpanHashes startHeight s.connectionId hashes).have hash = true
        ↔ q.have hash = true ∧ hash ∉ s.hashes := by
  have hset : q.setSpanHashes startHeight s.connectionId hashes
      = { q.eraseBlock startHeight with
          requestedHashes := (q.eraseBlock startHeight).requestedHashes ∪ hashes.toFinset }.insert
        startHeight { s with hashes := hashes } := by
    rw [BlockQueue.setSpanHashes, hs]
    exact if_pos rfl
  rw [hset]
  refine ⟨fun k => ?_, fun hash => ?_, have_eraseBlock hs⟩
  · rw [get?_insert]
    rw [get?_eraseBlock]
    by_cases hk : k = startHeight
    · simp [hk]
    · simp [hk]
  · rw [requested_insert, ← requested_eraseBlock hs]
    simp [requested]

theorem Consistent.setSpanHashes (hq : Consistent q) {startHeight : Nat} {connectionId : C}
    {hashes : List H}
    (hcareful : q.Careful (.setSpanHashes startHeight connectionId hashes)) :
    Consistent (q.setSpanHashes startHeight connectionId hashes) := by
  cases hs : q.blocks.get? startHeight with
  | none => rwa [BlockQueue.setSpanHashes, hs]
  | some s =>
    by_cases hconnection : s.connectionId = connectionId
    · subst hconnection
      obtain ⟨hfilled, hlisted⟩ := hcareful s hs rfl
      obtain ⟨hblocks, hrequested, hhave⟩ := setSpanHashes_of_some hs hashes
      have herased := hq.eraseBlock startHeight
      refine herased.put startHeight { s with hashes := hashes } ?_ ?_ (fun k => ?_) ?_ ?_
      · rw [get?_eraseBlock, if_pos rfl]
      · -- a hash that another span lists is not among the new ones
        intro hash hmem
        rw [← Bool.not_eq_true, herased.requested_iff]
        rintro ⟨k, t, ht, hmem'⟩
        rw [get?_eraseBlock] at ht
        split_ifs at ht with hk
        exact hlisted k t ht hk hash hmem hmem'
      · rw [hblocks, get?_eraseBlock]
        split_ifs <;> rfl
      · intro hash
        rw [hrequested, requested_eraseBlock hs]
      · intro hash
        have hnone : ¬ (s.filled = true ∧ hash ∈ hashes) := by
          rintro ⟨hf, hmem⟩
          rw [hfilled (ne_nil_of_mem hmem)] at hf
          cases hf
        rw [hhave, have_eraseBlock hs]
        exact (or_iff_left hnone).symm
    · rw [BlockQueue.setSpanHashes, hs]
      simpa only [if_neg hconnection] using hq

theorem addBlocks_of_some (hs : q.blocks.get? height = some s) (bcel : List B) (connectionId : C) :
    (∀ k, (q.addBlocks height bcel connectionId).blocks.get? k = if k = height
        then some ⟨s.hashes, bcel, connectionId, bcel.length⟩
        else (q.eraseBlock height).blocks.get? k)
      ∧ (∀ hash, (q.addBlocks height bcel connectionId).requested hash = true
        ↔ (q.eraseBlock height).requested hash = true ∨ hash ∈ s.hashes)
      ∧ ∀ hash, (q.addBlocks height bcel connectionId).have hash = true
        ↔ (q.eraseBlock height).have hash = true ∨ hash ∈ s.hashes := by
  have hfree : (q.eraseBlock height).blocks.get? height = none := by
    rw [get?_eraseBlock, if_pos rfl]
  -- the new span, with the old hashes in the tables and not yet in the span
  let q₂ : BlockQueue H B C :=
    { (q.eraseBlock height).insert height ⟨[], bcel, connectionId, bcel.length⟩ with
      requestedHashes := (q.eraseBlock height).requestedHashes ∪ s.hashes.toFinset
      haveBlocks := (q.eraseBlock height).haveBlocks.emplaceAll
        (s.hashes.zipIdx.map fun (hash, i) => (hash, u64 (height + i))) }
  have hadd : q.addBlocks height bcel connectionId
      = q₂.setSpanHashes height connectionId s.hashes := by
    rw [addBlocks, removeSpan, hs]
    rfl
  have hspan : q₂.blocks.get? height = some ⟨[], bcel, connectionId, bcel.length⟩ := by
    show ((q.eraseBlock height).insert height _).blocks.get? height = _
    rw [get?_insert, hfree, if_pos rfl]
    rfl
  obtain ⟨hblocks, hrequested, hhave⟩ := setSpanHashes_of_some hspan s.hashes
  rw [hadd]
  refine ⟨fun k => ?_, fun hash => ?_, fun hash => ?_⟩
  · rw [hblocks]
    by_cases hk : k = height
    · rw [if_pos hk, if_pos hk]
    · rw [if_neg hk, if_neg hk]
      show ((q.eraseBlock height).insert height _).blocks.get? k = _
      rw [get?_insert, if_neg hk, Option.or_none]
  · rw [hrequested]
    simp [q₂, requested]
  · have hitems : (s.hashes.zipIdx.map fun (hash, i) => (hash, u64 (height + i))).map Prod.fst
        = s.hashes := by
      rw [map_map]
      exact zipIdx_map_fst 0 s.hashes
    have hlookup := isSome_lookupIn hash
      (s.hashes.zipIdx.map fun (hash, i) => (hash, u64 (height + i)))
    rw [hitems] at hlookup
    rw [hhave, ← hlookup]
    simp only [q₂, «have», get?_emplaceAll, Option.isSome_or, Bool.or_eq_true,
      not_mem_nil, not_false_eq_true, and_true]

theorem Consistent.addBlocks (hq : Consistent q) {bcel : List B} {connectionId : C}
    (hcareful : q.Careful (.addBlocks height bcel connectionId)) :
    Consistent (q.addBlocks height bcel connectionId) := by
  cases hs : q.blocks.get? height with
  | none =>
    have hadd : q.addBlocks height bcel connectionId
        = (q.eraseBlock height).insert height ⟨[], bcel, connectionId, bcel.length⟩ := by
      rw [BlockQueue.addBlocks, removeSpan, hs]
      rfl
    rw [hadd]
    exact (hq.eraseBlock height).insert height rfl
  | some s =>
    obtain ⟨hblocks, hrequested, hhave⟩ := addBlocks_of_some hs bcel connectionId
    refine (hq.eraseBlock height).put height _ ?_ ?_ hblocks hrequested fun hash => ?_
    · rw [get?_eraseBlock, if_pos rfl]
    · intro hash hmem
      rw [← Bool.not_eq_true, requested_eraseBlock hs]
      exact fun h => h.2 hmem
    · rw [hhave]
      refine or_congr_right ⟨fun hmem => ⟨?_, hmem⟩, fun h => h.2⟩
      -- blocks arrived, as the span lists a hash
      have hne := hcareful s hs (ne_nil_of_mem hmem)
      simpa [Span.filled] using hne

/-! ## Reservations -/

theorem u64_add_u64 (a b : Nat) : u64 (u64 a + b) = u64 (a + b) := Nat.mod_add_mod a (2 ^ 64) b

omit [DecidableEq C] in
theorem skipRequested_spec (q : BlockQueue H B C) (hashes : List H) (a : Nat) :
    ∃ n ≤ hashes.length, q.skipRequested hashes (u64 a) = (hashes.drop n, u64 (a + n))
      ∧ ∀ hash rest, hashes.drop n = hash :: rest → q.requested hash = false := by
  induction hashes generalizing a with
  | nil => exact ⟨0, Nat.le_refl 0, rfl, fun hash rest h => by cases h⟩
  | cons hash hashes ih =>
    rw [skipRequested]
    split_ifs with hrequested
    · obtain ⟨n, hn, hskip, hstop⟩ := ih (a + 1)
      refine ⟨n + 1, Nat.succ_le_succ hn, ?_, hstop⟩
      rw [u64_add_u64, hskip, Nat.add_assoc, Nat.add_comm 1 n]
      rfl
    · refine ⟨0, Nat.zero_le _, rfl, fun hash' rest h => ?_⟩
      cases h
      exact Bool.eq_false_of_not_eq_true hrequested

section

omit [DecidableEq H] [DecidableEq C]

variable (r : Reservation H C)

theorem takeSpan_prefix (spanStartHeight : Nat) (hashes : List H) (n : Nat) :
    r.takeSpan spanStartHeight hashes n <+: hashes := by
  induction hashes generalizing n with
  | nil => exact prefix_rfl
  | cons hash hashes ih =>
    rw [Reservation.takeSpan]
    split_ifs
    · exact cons_prefix_cons.mpr ⟨rfl, ih (n + 1)⟩
    · exact nil_prefix

theorem length_takeSpan_le (spanStartHeight : Nat) (hashes : List H)
    (n : Nat) : (r.takeSpan spanStartHeight hashes n).length ≤ r.maxBlocks - n := by
  induction hashes generalizing n with
  | nil => exact Nat.zero_le _
  | cons hash hashes ih =>
    rw [Reservation.takeSpan]
    split_ifs with htake
    · have hlt : n < r.maxBlocks := by
        simp only [Bool.and_eq_true, decide_eq_true_eq] at htake
        exact htake.1.1
      have hrest := ih (n + 1)
      rw [length_cons]
      omega
    · exact Nat.zero_le _

theorem le_unprunedStart (spanStartHeight : Nat) :
    spanStartHeight ≤ r.unprunedStart spanStartHeight := by
  unfold Reservation.unprunedStart
  dsimp only
  split_ifs with hjump
  · simp only [Bool.and_eq_true, decide_eq_true_eq] at hjump
    exact hjump.1.2.le
  · exact le_rfl

end

structure SpanAt (q : BlockQueue H B C) (r : Reservation H C) (spanStartHeight : Nat)
    (hashes : List H) (i : Nat) : Prop where
  height_eq : spanStartHeight = u64 (r.hashesStart + i)
  isPrefix : hashes <+: r.blockHashes.drop i
  length_le : hashes.length ≤ r.maxBlocks
  first : ∀ hash rest, hashes = hash :: rest → q.requested hash = false

section

omit [DecidableEq C]

theorem spanFrom_spec (q : BlockQueue H B C) (r : Reservation H C) (spanStartHeight : Nat)
    (hle : spanStartHeight < u64 (r.blockHashes.length + r.hashesStart) →
      r.hashesStart ≤ spanStartHeight)
    (hne : (q.spanFrom r spanStartHeight).2 ≠ []) :
    ∃ i, SpanAt q r (q.spanFrom r spanStartHeight).1 (q.spanFrom r spanStartHeight).2 i := by
  unfold spanFrom at hne ⊢
  split_ifs at hne ⊢ with hout
  · exact absurd rfl hne
  · have hlt := Nat.lt_of_not_le hout
    have hstart := hle hlt
    have hu64 : spanStartHeight = u64 spanStartHeight :=
      (Nat.mod_eq_of_lt (hlt.trans (Nat.mod_lt _ (Nat.two_pow_pos 64)))).symm
    obtain ⟨n, -, hskip, hstop⟩ := q.skipRequested_spec
      (r.blockHashes.drop (spanStartHeight - r.hashesStart)) spanStartHeight
    rw [← hu64] at hskip
    dsimp only
    rw [hskip]
    have hprefix := takeSpan_prefix r (u64 (spanStartHeight + n))
      ((r.blockHashes.drop (spanStartHeight - r.hashesStart)).drop n) 0
    refine ⟨spanStartHeight - r.hashesStart + n, ?_, ?_, length_takeSpan_le r _ _ 0, ?_⟩
    · rw [← Nat.add_assoc, Nat.add_sub_cancel' hstart]
    · rwa [drop_drop] at hprefix ⊢
    · intro hash rest heq
      obtain ⟨tail, htail⟩ := hprefix
      rw [heq] at htail
      exact hstop hash (rest ++ tail) htail.symm

theorem spanToReserve_spec (q : BlockQueue H B C) (r : Reservation H C)
    (hne : (q.spanToReserve r).2 ≠ []) :
    ∃ i, SpanAt q r (q.spanToReserve r).1 (q.spanToReserve r).2 i := by
  unfold spanToReserve at hne ⊢
  split_ifs at hne ⊢ with hearly hfit
  · exact absurd rfl hne
  · exact absurd rfl hne
  · refine q.spanFrom_spec r _ (fun hlt => ?_) hne
    refine le_trans ?_ (le_unprunedStart r _)
    -- the count of heights wraps only past the last height there is, and then the hashes are out
    obtain ⟨n, hn, hskip, -⟩ := q.skipRequested_spec r.blockHashes
      (r.lastBlockHeight - r.blockHashes.length + 1)
    have hskip' : q.skipRequested r.blockHashes r.hashesStart = _ := hskip
    rw [hskip']
    have hlast := r.lastBlockHeight_lt
    have hpos := (Nat.zero_le _).trans_lt hlt
    unfold Reservation.hashesStart at hpos ⊢
    simp only [u64] at hpos ⊢
    omega

end

/-- Within `maxBlocks` after a hash that is not requested none is requested, and no span starts at
the height of a hash that is not requested. -/
def Reservable (q : BlockQueue H B C) (r : Reservation H C) : Prop :=
  q.Gapless r ∧ ∀ i hash, r.blockHashes[i]? = some hash → q.requested hash = false →
      q.blocks.get? (u64 (r.hashesStart + i)) = none

section

omit [DecidableEq C]

/-- The hash at place `j` of the span is at place `i + j` of the list. -/
theorem SpanAt.getElem?_eq {start i j : Nat} {hash : H} {hashes : List H}
    (hspan : SpanAt q r start hashes i) (hj : hashes[j]? = some hash) :
    r.blockHashes[i + j]? = some hash := by
  obtain ⟨tail, htail⟩ := hspan.isPrefix
  obtain ⟨hlt, -⟩ := List.getElem?_eq_some_iff.mp hj
  rw [← List.getElem?_drop, ← htail, List.getElem?_append_left hlt, hj]

theorem SpanAt.unrequested {start i : Nat} {hashes : List H} (hspan : SpanAt q r start hashes i)
    (hgap : q.Gapless r) :
    ∀ hash ∈ hashes, q.requested hash = false := by
  intro hash hmem
  obtain ⟨j, hj⟩ := mem_iff_getElem?.mp hmem
  obtain ⟨hlt, -⟩ := List.getElem?_eq_some_iff.mp hj
  have hlength := hspan.length_le
  obtain ⟨first, rest, rfl⟩ := List.exists_cons_of_ne_nil (ne_nil_of_mem hmem)
  exact hgap i (i + j) first hash (by omega) (by omega) (hspan.getElem?_eq (j := 0) rfl)
    (hspan.getElem?_eq hj) (hspan.first first rest rfl)

end

theorem Consistent.reserveSpan (hq : Consistent q) (hcareful : q.Careful (.reserveSpan r)) :
    Consistent (q.reserveSpan r).2 := by
  obtain ⟨hgap, hheight⟩ := hcareful
  unfold BlockQueue.reserveSpan
  dsimp only
  split_ifs with hnone
  · exact hq
  · obtain ⟨i, hspan⟩ := q.spanToReserve_spec r hnone
    generalize q.spanToReserve r = span at hspan hnone ⊢
    obtain ⟨start, hashes⟩ := span
    dsimp only at hspan hnone ⊢
    have hunrequested := hspan.unrequested hgap
    obtain ⟨first, rest, rfl⟩ := List.exists_cons_of_ne_nil hnone
    have hinserted : q.addEmptySpan start (first :: rest).length r.connectionId
        = q.insert start ⟨[], [], r.connectionId, (first :: rest).length⟩ :=
      if_neg (Nat.succ_ne_zero _)
    refine (hq.addEmptySpan start _ r.connectionId).setSpanHashes fun s hs hconnection => ?_
    rw [hinserted, get?_insert, if_pos rfl] at hs
    refine ⟨fun _ => ?_, fun height s' hs' hne hash hmem hmem' => ?_⟩
    · -- the span at the height is the new one, or one of the connection that was there
      cases hold : q.blocks.get? start with
      | none =>
        rw [hold] at hs
        cases hs
        rfl
      | some t =>
        rw [hold] at hs
        cases hs
        exact hheight i first s (hspan.getElem?_eq (j := 0) rfl) (hspan.first first rest rfl)
          (hspan.height_eq ▸ hold) hconnection
    · rw [hinserted, get?_insert, if_neg hne, Option.or_none] at hs'
      have hlisted := (hq.requested_iff hash).mpr ⟨height, s', hs', hmem'⟩
      rw [hunrequested hash hmem] at hlisted
      cases hlisted

/-! ## The next needed height -/

section

omit [DecidableEq H] [DecidableEq C]

def Covers (span : Nat × Span H B C) (height : Nat) : Prop :=
  span.1 ≤ height ∧ height < span.1 + span.2.nblocks

/-- Induction on the spans that are left: what the sweep adds is covered by them, and it stops at a
height that none of them covers. -/
theorem sweep_spec {blockchainHeight : Nat} {spans : List (Nat × Span H B C)}
    (hsorted : spans.Pairwise fun a b => a.1 ≤ b.1)
    (hfits : ∀ a ∈ spans, 0 < a.2.nblocks ∧ a.1 + a.2.nblocks < 2 ^ 64) {coveredUntil : Nat}
    (hle : blockchainHeight ≤ coveredUntil) :
    coveredUntil ≤ sweep blockchainHeight spans coveredUntil
      ∧ (∀ h, coveredUntil ≤ h → h < sweep blockchainHeight spans coveredUntil →
        ∃ a ∈ spans, Covers a h)
      ∧ ∀ a ∈ spans, ¬ Covers a (sweep blockchainHeight spans coveredUntil) := by
  induction spans generalizing coveredUntil with
  | nil => exact ⟨le_rfl, fun h hge hlt => absurd hge hlt.not_ge, fun a ha => absurd ha not_mem_nil⟩
  | cons span rest ih =>
    obtain ⟨start, s⟩ := span
    obtain ⟨hfirst, hsorted⟩ := pairwise_cons.mp hsorted
    obtain ⟨hpos, hlt⟩ : 0 < s.nblocks ∧ start + s.nblocks < 2 ^ 64 := hfits _ mem_cons_self
    have hrest := fun {c} => @ih hsorted (fun a ha => hfits a (mem_cons_of_mem _ ha)) c
    have hend : u64 (start + s.nblocks + (2 ^ 64 - 1)) = start + s.nblocks - 1 := by
      unfold u64
      omega
    rw [sweep, hend, show u64 (start + s.nblocks) = _ from Nat.mod_eq_of_lt hlt]
    split_ifs with hbelow hgap
    · obtain ⟨hge, hcovered, hfree⟩ := hrest hle
      refine ⟨hge, fun h hh hlt => ?_, forall_mem_cons.mpr ⟨fun hc => ?_, hfree⟩⟩
      · obtain ⟨a, ha, hc⟩ := hcovered h hh hlt
        exact ⟨a, mem_cons_of_mem _ ha, hc⟩
      · have hover : sweep blockchainHeight rest coveredUntil < start + s.nblocks := hc.2
        omega
    · refine ⟨le_rfl, fun h hge hlt => absurd hge hlt.not_ge, fun a ha hc => ?_⟩
      rcases mem_cons.mp ha with rfl | ha
      · exact absurd hc.1 hgap.not_ge
      · exact absurd ((hfirst a ha).trans hc.1) hgap.not_ge
    · obtain ⟨hge, hcovered, hfree⟩ := hrest (hle.trans (le_max_left _ (start + s.nblocks)))
      have hmax := le_max_right coveredUntil (start + s.nblocks)
      refine ⟨(le_max_left _ _).trans hge, fun h hh hlt => ?_,
        forall_mem_cons.mpr ⟨fun hc => absurd hc.2 (hmax.trans hge).not_gt, hfree⟩⟩
      by_cases hhead : h < start + s.nblocks
      · exact ⟨_, mem_cons_self, (Nat.le_of_not_lt hgap).trans hh, hhead⟩
      · obtain ⟨a, ha, hc⟩ := hcovered h (max_le hh (Nat.le_of_not_lt hhead)) hlt
        exact ⟨a, mem_cons_of_mem _ ha, hc⟩

/-- The next needed height is the least one from the height of the chain on that no span covers. -/
theorem next_needed_is_least (q : BlockQueue H B C) (blockchainHeight : Nat)
    (hfits : ∀ start s, q.blocks.get? start = some s → 0 < s.nblocks ∧ start + s.nblocks < 2 ^ 64) :
    IsLeast {h | blockchainHeight ≤ h ∧ ¬ ∃ start s, q.blocks.get? start = some s
        ∧ start ≤ h ∧ h < start + s.nblocks} (q.getNextNeededHeight blockchainHeight) := by
  have hmem : ∀ {a}, a ∈ q.spans ↔ q.blocks.get? a.1 = some a.2 := fun {a} =>
    ((perm_insertionSort _ _).mem_iff).trans q.blocks.get?_eq_some_iff.symm
  obtain ⟨hge, hcovered, hfree⟩ := sweep_spec
    (pairwise_insertionSort (fun a b : Nat × Span H B C => a.1 ≤ b.1) q.blocks.items)
    (fun a ha => hfits a.1 a.2 (hmem.mp ha)) le_rfl
  refine ⟨⟨hge, fun ⟨start, s, hs, hc⟩ => hfree (start, s) (hmem.mpr hs) hc⟩,
    fun h ⟨hh, hnone⟩ => ?_⟩
  by_contra hlt
  obtain ⟨a, ha, hc⟩ := hcovered h hh (Nat.lt_of_not_le hlt)
  exact hnone ⟨a.1, a.2, hmem.mp ha, hc⟩

end

theorem Consistent.after (hq : Consistent q) {op : Op H B C} (hcareful : q.Careful op) :
    Consistent (q.after op) := by
  cases op with
  | reserveSpan r => exact hq.reserveSpan hcareful
  | addBlocks height bcel connectionId => exact hq.addBlocks hcareful
  | addEmptySpan height nblocks connectionId => exact hq.addEmptySpan height nblocks connectionId
  | setSpanHashes startHeight connectionId hashes => exact hq.setSpanHashes hcareful
  | removeSpan startBlockHeight => exact hq.eraseBlock startBlockHeight
  | removeSpans connectionId startBlockHeight =>
    rw [BlockQueue.after, BlockQueue.removeSpans]
    exact hq.eraseWhere _
  | flushSpans connectionId all =>
    rw [BlockQueue.after, BlockQueue.flushSpans]
    exact hq.eraseWhere _
  | flushStaleSpans liveConnections =>
    rw [BlockQueue.after, BlockQueue.flushStaleSpans]
    exact hq.eraseWhere _

/-- In every run of careful operations the two tables say what the spans list, and no hash is
listed by two spans. -/
theorem queue_tables_of_run (ops : List (Op H B C)) (q : BlockQueue H B C)
    (hmeets : queues.Meets Careful {} ops) (hrun : queues.exec {} ops = some q) :
    (∀ hash, q.requested hash = true
        ↔ ∃ height s, q.blocks.get? height = some s ∧ hash ∈ s.hashes)
      ∧ (∀ hash, q.have hash = true
        ↔ ∃ height s, q.blocks.get? height = some s ∧ s.filled = true ∧ hash ∈ s.hashes)
      ∧ ∀ hash height height' s s', q.blocks.get? height = some s →
        q.blocks.get? height' = some s' → hash ∈ s.hashes → hash ∈ s'.hashes →
        height = height' := by
  have hq : Consistent q := queues.invariant_of_meets
    (fun hq hcareful hstep => by cases hstep; exact hq.after hcareful)
    consistent_empty hmeets hrun
  exact ⟨hq.requested_iff, hq.have_iff, hq.once⟩

/-! ## Sample runs -/

section

omit [DecidableEq C]

theorem gapless_of_check (h : ∀ x ∈ r.blockHashes.zipIdx, ∀ y ∈ r.blockHashes.zipIdx, x.2 ≤ y.2 →
    y.2 < x.2 + r.maxBlocks → q.requested x.1 = false → q.requested y.1 = false) : q.Gapless r :=
  fun i j hash hash' hij hj hi hj' => h (hash, i) (mk_mem_zipIdx_iff_getElem?.mpr hi) (hash', j)
    (mk_mem_zipIdx_iff_getElem?.mpr hj') hij hj

theorem reservable_of_check (hgap : q.Gapless r)
    (hfree : ∀ x ∈ r.blockHashes.zipIdx, q.requested x.1 = false →
      q.blocks.get? (u64 (r.hashesStart + x.2)) = none) : Reservable q r :=
  ⟨hgap, fun i hash hi => hfree (hash, i) (mk_mem_zipIdx_iff_getElem?.mpr hi)⟩

theorem Reservable.careful (h : Reservable q r) : q.Careful (.reserveSpan r) :=
  ⟨h.1, fun i hash s hi hrequested hs => by
    rw [h.2 i hash hi hrequested] at hs
    cases hs⟩

end

end BlockQueue

open BlockQueue

/-- A peer that is not pruned asks for the hashes, of which the last is at height 12. -/
def sampleReservation (connectionId maxBlocks : Nat) (blockHashes : List Nat) :
    Reservation Nat Nat where
  firstBlockHeight := 0
  lastBlockHeight := 12
  lastBlockHeight_lt := by decide
  maxBlocks := maxBlocks
  connectionId := connectionId
  syncPrunedBlocks := false
  localPruningSeed := 0
  pruningSeed := 0
  blockchainHeight := 13
  blockHashes := blockHashes

def carefulOps : List (Op Nat Unit Nat) :=
  [.reserveSpan (sampleReservation 1 2 [100, 101, 102]),
    .reserveSpan (sampleReservation 2 2 [100, 101, 102]), .addBlocks 10 [(), ()] 1,
    .flushSpans 2 false]

theorem queue_tables_of_run_sample : ∃ q : BlockQueue Nat Unit Nat,
    queues.exec {} carefulOps = some q ∧ q.have 100 = true ∧ q.requested 102 = false
      ∧ ∃ height s, q.blocks.get? height = some s ∧ s.filled = true ∧ 100 ∈ s.hashes := by
  have hmeets : queues.Meets Careful {} carefulOps := by
    refine ⟨(reservable_of_check (gapless_of_check (by decide)) (by decide)).careful,
      fun q hq => ?_⟩
    cases hq
    refine ⟨(reservable_of_check (gapless_of_check (by decide +kernel))
      (by decide +kernel)).careful,
      fun q hq => ?_⟩
    cases hq
    exact ⟨fun s _ _ => cons_ne_nil _ _, fun q _ => ⟨trivial, fun q _ => trivial⟩⟩
  have hrun : (queues.exec ({} : BlockQueue Nat Unit Nat) carefulOps).map
      (fun q => (q.have 100, q.requested 102)) = some (true, false) := by
    decide +kernel
  obtain ⟨q, hq, hfacts⟩ := Option.map_eq_some_iff.mp hrun
  obtain ⟨hhave, hrequested⟩ := Prod.mk.inj hfacts
  exact ⟨q, hq, hhave, hrequested, ((queue_tables_of_run carefulOps q hmeets hq).2.1 100).mp hhave⟩

def gappedQueue : BlockQueue Nat Unit Nat :=
  ((BlockQueue.addEmptySpan {} 20 1 1).addEmptySpan 12 2 1).addEmptySpan 10 3 2

theorem next_needed_is_least_sample : gappedQueue.getNextNeededHeight 11 = 14
    ∧ ¬ ∃ start s, gappedQueue.blocks.get? start = some s
      ∧ start ≤ gappedQueue.getNextNeededHeight 11
      ∧ gappedQueue.getNextNeededHeight 11 < start + s.nblocks := by
  have hall : ∀ a ∈ gappedQueue.blocks.items, 0 < a.2.nblocks ∧ a.1 + a.2.nblocks < 2 ^ 64 := by
    decide +kernel
  exact ⟨by decide +kernel, (next_needed_is_least gappedQueue 11 fun start s hs =>
    hall (start, s) (gappedQueue.blocks.get?_eq_some_iff.mp hs)).1.2⟩

/-- Past a span at the last height there is, the sum wraps and the sweep stays at that height. -/
theorem next_needed_wraps :
    (BlockQueue.addEmptySpan ({} : BlockQueue Nat Unit Nat) (2 ^ 64 - 1) 1 1).getNextNeededHeight
        (2 ^ 64 - 1) = 2 ^ 64 - 1
      ∧ ∃ s : Span Nat Unit Nat, (BlockQueue.addEmptySpan {} (2 ^ 64 - 1) 1 1).blocks.get?
        (2 ^ 64 - 1) = some s ∧ 2 ^ 64 - 1 < 2 ^ 64 - 1 + s.nblocks :=
  ⟨by decide +kernel, ⟨[], [], 1, 1⟩, by decide +kernel, by decide⟩

/-- The first peer has hashes for one block only; it leaves, and a third peer reserves over the span
of the second, which leaves too. -/
def overlappingOps : List (Op Nat Unit Nat) :=
  [.reserveSpan (sampleReservation 1 1 [100, 101, 102]),
    .reserveSpan (sampleReservation 2 3 [100, 101, 102]), .flushSpans 1 false,
    .reserveSpan (sampleReservation 3 3 [100, 101, 102])]

/-- Hash 101 is listed by two spans; when the second peer leaves, it is listed and not requested. -/
theorem queue_lists_hash_twice :
    (∃ q : BlockQueue Nat Unit Nat, queues.exec {} overlappingOps = some q
      ∧ (q.blocks.get? 10).map Span.hashes = some [100, 101, 102]
      ∧ (q.blocks.get? 11).map Span.hashes = some [101, 102])
      ∧ ∃ q : BlockQueue Nat Unit Nat,
        queues.exec {} (overlappingOps ++ [.flushSpans 2 false]) = some q
        ∧ (q.blocks.get? 10).map Span.hashes = some [100, 101, 102] ∧ q.requested 101 = false := by
  have htwice : (queues.exec ({} : BlockQueue Nat Unit Nat) overlappingOps).map
      (fun q => ((q.blocks.get? 10).map Span.hashes, (q.blocks.get? 11).map Span.hashes))
        = some (some [100, 101, 102], some [101, 102]) := by
    decide +kernel
  have hlost : (queues.exec ({} : BlockQueue Nat Unit Nat)
      (overlappingOps ++ [.flushSpans 2 false])).map
        (fun q => ((q.blocks.get? 10).map Span.hashes, q.requested 101))
          = some (some [100, 101, 102], false) := by
    decide +kernel
  obtain ⟨q, hq, hspans⟩ := Option.map_eq_some_iff.mp htwice
  obtain ⟨q', hq', hspan⟩ := Option.map_eq_some_iff.mp hlost
  exact ⟨⟨q, hq, (Prod.mk.inj hspans).1, (Prod.mk.inj hspans).2⟩,
    ⟨q', hq', (Prod.mk.inj hspan).1, (Prod.mk.inj hspan).2⟩⟩

end Glaciem.Protocol
