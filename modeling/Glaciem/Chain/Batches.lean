import Glaciem.Chain.Lineage

/-!
# Glaciem — batches of incoming blocks

Blocks arrive between `prepare_handle_incoming_blocks` and `cleanup_handle_incoming_blocks`, which
put what they write into one batch of the database. When `add_block` threw for one of them, the
cleanup aborts the batch. The tables are then as they were at its start, but nothing takes back what
the node keeps in memory about them.

* `batchedBlockchain` — the node with the two calls around its events;
* `Unbroken` — a batch that ends is one in which `add_block` threw for no block. What the events
  preserve holds after every run of this kind (`invariant_of_unbroken`).
-/

namespace Glaciem.Chain

variable {H : Type} {R : Rules H} {S : Set (Block H)}

/-- The node, and what it was when the batch was started. -/
structure Batched (H : Type) where
  node : Node H
  start : Node H

inductive BatchEvent (H : Type) where
  | prepareHandleIncomingBlocks
  | event (ev : Event H)

/-- `prepare_handle_incoming_blocks` resets `m_batch_success`. -/
def Node.prepare (n : Node H) : Node H := { n with batchSuccess := true }

/-- `batch_abort`. The chain, the alternative blocks, the pool and the recorded versions are tables
of the database. The fork index and its window, the difficulty cache, the weight median and the
list of invalid blocks are not. -/
def Node.batchAbort (n start : Node H) : Node H :=
  { n with
    chain := start.chain
    alts := start.alts
    pool := start.pool
    hardFork := { n.hardFork with dbVersions := start.hardFork.dbVersions } }

def Event.isCleanup : Event H → Bool
  | .cleanupHandleIncomingBlocks => true
  | _ => false

def Batched.init (R : Rules H) : Batched H := ⟨Node.init R, Node.init R⟩

/-- The event meets `P`, and if it ends a batch, `add_block` threw for no block of it. -/
def Unbroken (P : Node H → Event H → Prop) (s : Batched H) : BatchEvent H → Prop
  | .prepareHandleIncomingBlocks => True
  | .event ev => P s.node ev ∧ (ev.isCleanup = true → s.node.batchSuccess = true)

def unbrokenCheck (p : Node H → Event H → Bool) (s : Batched H) : BatchEvent H → Bool
  | .prepareHandleIncomingBlocks => true
  | .event ev => p s.node ev && (!ev.isCleanup || s.node.batchSuccess)

theorem unbroken_of_check {P : Node H → Event H → Prop} {p : Node H → Event H → Bool}
    (hcheck : ∀ n ev, p n ev = true → P n ev) (s : Batched H) (l : BatchEvent H)
    (h : unbrokenCheck p s l = true) : Unbroken P s l := by
  cases l with
  | prepareHandleIncomingBlocks => trivial
  | event ev =>
    simp only [unbrokenCheck, Bool.and_eq_true, Bool.or_eq_true, Bool.not_eq_true'] at h
    exact ⟨hcheck _ _ h.1, fun hend => h.2.resolve_left (by simp [hend])⟩

def BatchEvent.event? : BatchEvent H → Option (Event H)
  | .prepareHandleIncomingBlocks => none
  | .event ev => some ev

/-- The blocks that arrive in a run of batches. -/
def batchArrivals (ls : List (BatchEvent H)) : Set (Block H) :=
  arrivals (ls.filterMap BatchEvent.event?)

theorem batchArrivals_append (ls ls' : List (BatchEvent H)) :
    batchArrivals (ls ++ ls') = batchArrivals ls ∪ batchArrivals ls' := by
  ext b
  simp only [batchArrivals, arrivals, List.filterMap_append, List.mem_append, Set.mem_union,
    Set.mem_ofPred_eq, or_and_right, exists_or]

theorem mem_batchArrivals {ls : List (BatchEvent H)} {ev : Event H} {b : Block H}
    (hev : .event ev ∈ ls) (hb : ev.block? = some b) : b ∈ batchArrivals ls :=
  ⟨ev, List.mem_filterMap.mpr ⟨_, hev, rfl⟩, hb⟩

/-- The events as one batch. -/
def inBatch (events : List (Event H)) : List (BatchEvent H) :=
  .prepareHandleIncomingBlocks :: events.map .event ++ [.event .cleanupHandleIncomingBlocks]

variable [DecidableEq H]

def batchedBlockchain (R : Rules H) : System (Batched H) (BatchEvent H) where
  step s
    | .prepareHandleIncomingBlocks => some ⟨s.node.prepare, s.node⟩
    | .event ev =>
      if ev.isCleanup && !s.node.batchSuccess then
        some { s with node := s.node.batchAbort s.start }
      else ((blockchain R).step s.node ev).map fun n => { s with node := n }

/-- As long as no batch is aborted, what is kept by the events that meet `P` and bring blocks of `S`
holds of the node after every run of batches. -/
theorem invariant_of_unbroken {P : Node H → Event H → Prop} {I : Node H → Prop} {s s' : Batched H}
    {ls : List (BatchEvent H)} (hprepare : ∀ {n}, I n → I n.prepare)
    (hstep : ∀ {n ev n'}, I n → P n ev → (∀ b, ev.block? = some b → b ∈ S) →
      (blockchain R).step n ev = some n' → I n')
    (hinv : I s.node) (hmeets : (batchedBlockchain R).Meets (Unbroken P) s ls)
    (hS : batchArrivals ls ⊆ S) (hexec : (batchedBlockchain R).exec s ls = some s') :
    I s'.node := by
  refine (batchedBlockchain R).invariant_of_meets (I := fun s => I s.node)
    (fun {s l s'} hs hl hnext => ?_) hinv ((batchedBlockchain R).meets_and
      (Q := fun l => ∀ ev, l = .event ev → ∀ b, ev.block? = some b → b ∈ S) hmeets ?_) hexec
  · cases l with
    | prepareHandleIncomingBlocks =>
      cases hnext
      exact hprepare hs
    | event ev =>
      obtain ⟨⟨hP, hwhole⟩, harrives⟩ := hl
      have hstays : ¬(ev.isCleanup && !s.node.batchSuccess) = true := by
        simpa using hwhole
      simp only [batchedBlockchain, if_neg hstays] at hnext
      obtain ⟨n, hn, rfl⟩ := Option.map_eq_some_iff.mp hnext
      exact hstep hs hP (harrives ev rfl) hn
  · rintro l hl ev rfl b hb
    exact hS (mem_batchArrivals hl hb)

theorem Node.Settled.prepare {n : Node H} (h : n.Settled R) : n.prepare.Settled R :=
  ⟨⟨h.toTracked.congr rfl rfl rfl, h.chain, h.pool⟩, h.weight⟩

theorem Node.Traced.prepare {n : Node H} (h : n.Traced R S) : n.prepare.Traced R S :=
  ⟨h.toSettled.prepare, h.certified.congr rfl (List.Subset.refl _)⟩

/-- Along unbroken batches the node stays in order and every block it knows of has arrived. -/
theorem traced_of_unbroken {ls : List (BatchEvent H)} {s : Batched H}
    (hinj : Set.InjOn R.blockId S) (hS : batchArrivals ls ⊆ S)
    (hmeets : (batchedBlockchain R).Meets (Unbroken fun _ _ => True) (Batched.init R) ls)
    (hexec : (batchedBlockchain R).exec (Batched.init R) ls = some s) : s.node.Traced R S :=
  invariant_of_unbroken Node.Traced.prepare (fun h _ hev hstep => traced_step hinj h hev hstep)
    ⟨settled_init R, certified_init R S⟩ hmeets hS hexec

end Glaciem.Chain
