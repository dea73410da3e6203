import Mathlib.Data.List.TakeWhile
import Mathlib.Logic.Relation
import Glaciem.Lib.Dict

/-!
# Glaciem — a feed of changes for clients that come back

Some things come and go, and each one that is there is public or private. A client has seen what it
may see and asks later for the changes since a time. The feed answers from two bounded histories:
when each thing was last put, and which things were removed and when. Each history has a start; the
one of removals moves on when old entries are dropped.

Times have a coarse grain: a client is told again of what it may have seen, so removals are applied
before additions.
-/

namespace Glaciem

open List Function

/-- One thing that was removed; `hidden` if it was private then. -/
structure Removal (ι : Type) where
  time : Nat
  id : ι
  hidden : Bool
  deriving DecidableEq

/-- The bounds of the history of removals: how many, how many are dropped at once, and how old. -/
structure FeedLimits where
  size : Nat
  batch : Nat
  age : Nat
  batch_le : batch ≤ size

/-- The two histories. A start of 0 is none. -/
structure ChangeFeed (ι : Type) where
  added : Dict ι Nat
  addedStart : Nat
  removed : List (Removal ι)
  removedStart : Nat

namespace ChangeFeed

variable {ι : Type}

def empty : ChangeFeed ι := ⟨Dict.empty, 0, [], 0⟩

def insertByTime (e : Removal ι) (removed : List (Removal ι)) : List (Removal ι) :=
  removed.takeWhile (fun e' => e'.time ≤ e.time)
    ++ e :: removed.dropWhile (fun e' => e'.time ≤ e.time)

/-- Drop a batch of the oldest entries; the history then starts with the first one left. -/
def dropBatch (L : FeedLimits) (removed : List (Removal ι)) (start : Nat) :
    List (Removal ι) × Nat :=
  (removed.drop L.batch, ((removed.drop L.batch).head?.map Removal.time).getD start)

/-- Drop the entries before a time; the history then starts at that time, if there were any. -/
def dropBefore (earliest : Nat) (removed : List (Removal ι)) (start : Nat) :
    List (Removal ι) × Nat :=
  if (removed.dropWhile fun e => e.time < earliest).length < removed.length then
    (removed.dropWhile fun e => e.time < earliest, earliest)
  else (removed, start)

/-- Drop a batch if there are too many entries, else those that are too old. -/
def trim (L : FeedLimits) (now : Nat) (removed : List (Removal ι)) (start : Nat) :
    List (Removal ι) × Nat :=
  if L.size < removed.length then dropBatch L removed start
  else dropBefore (now - L.age) removed start

variable [DecidableEq ι]

def put (f : ChangeFeed ι) (now : Nat) (id : ι) : ChangeFeed ι :=
  { f with
    added := f.added.set id now
    addedStart := if f.addedStart = 0 then now else f.addedStart }

def remove (L : FeedLimits) (f : ChangeFeed ι) (now : Nat) (id : ι) (hidden : Bool) :
    ChangeFeed ι :=
  let trimmed := trim L now (insertByTime ⟨now, id, hidden⟩ f.removed)
    (if f.removedStart = 0 then now else f.removedStart)
  { f with
    added := f.added.erase id
    removed := trimmed.1
    removedStart := trimmed.2 }

end ChangeFeed

/-! ## The history of removals -/

namespace ChangeFeed

variable {ι : Type} {L : FeedLimits} {now start : Nat} {removed : List (Removal ι)}

/-- The entries are in order, and none is before the start. -/
structure Ordered (removed : List (Removal ι)) (start : Nat) : Prop where
  sorted : removed.Pairwise fun e e' => e.time ≤ e'.time
  start_le : ∀ e ∈ removed, start ≤ e.time

variable {e : Removal ι}

theorem insertByTime_eq (h : ∀ e' ∈ removed, e'.time ≤ e.time) :
    insertByTime e removed = removed ++ [e] := by
  have hall : ∀ e' ∈ removed, decide (e'.time ≤ e.time) = true :=
    fun e' he' => decide_eq_true (h e' he')
  rw [insertByTime, takeWhile_eq_self_iff.mpr hall, dropWhile_eq_nil_iff.mpr hall]

theorem Ordered.concat (h : Ordered removed start) (hlast : ∀ e' ∈ removed, e'.time ≤ e.time)
    (hstart : start ≤ e.time) :
    Ordered (removed ++ [e]) start := by
  refine ⟨pairwise_append.mpr ⟨h.sorted, pairwise_singleton _ _, ?_⟩, ?_⟩
  · intro e₁ he₁ e₂ he₂
    rw [mem_singleton] at he₂
    exact he₂ ▸ hlast e₁ he₁
  · intro e' he'
    rcases mem_append.mp he' with he' | he'
    · exact h.start_le e' he'
    · rw [mem_singleton] at he'
      exact he' ▸ hstart

/-- What is dropped is not later than the new start, and the start only moves on. -/
structure Trimmed (removed : List (Removal ι)) (start now : Nat)
    (trimmed : List (Removal ι) × Nat) : Prop where
  sublist : trimmed.1.Sublist removed
  ordered : Ordered trimmed.1 trimmed.2
  start_le : start ≤ trimmed.2
  le_now : trimmed.2 ≤ now
  dropped : ∀ e ∈ removed, e ∈ trimmed.1 ∨ e.time ≤ trimmed.2

variable (h : Ordered removed start)

include h

theorem Ordered.dropBatch (hpast : ∀ e ∈ removed, e.time ≤ now)
    (hsize : L.size < removed.length) : Trimmed removed start now (dropBatch L removed start) := by
  unfold ChangeFeed.dropBatch
  -- a batch is less than all, so an entry is left that starts the history
  cases hleft : removed.drop L.batch with
  | nil =>
    have hlength := congrArg length hleft
    rw [length_drop, length_nil] at hlength
    have := L.batch_le
    omega
  | cons first left =>
    have hsplit : removed = removed.take L.batch ++ first :: left := by
      rw [← hleft, take_append_drop]
    have hfirst : first ∈ removed := by
      rw [hsplit]
      exact mem_append_right _ mem_cons_self
    have hsorted := h.sorted
    rw [hsplit] at hsorted
    obtain ⟨-, hsortedLeft, hbefore⟩ := pairwise_append.mp hsorted
    refine ⟨?_, ⟨hsortedLeft, ?_⟩, h.start_le first hfirst, hpast first hfirst, ?_⟩
    · rw [← hleft]
      exact drop_sublist _ _
    · intro e he
      rcases mem_cons.mp he with rfl | he
      · exact le_rfl
      · exact rel_of_pairwise_cons hsortedLeft he
    · intro e he
      rw [hsplit] at he
      rcases mem_append.mp he with he | he
      · exact .inr (hbefore e he first mem_cons_self)
      · exact .inl he

theorem le_of_mem_dropWhile {earliest : Nat}
    (he : e ∈ removed.dropWhile fun e => e.time < earliest) : earliest ≤ e.time := by
  have hsorted := h.sorted.sublist (dropWhile_sublist fun e : Removal ι => e.time < earliest)
  have hhead := head?_dropWhile_not (fun e : Removal ι => e.time < earliest) removed
  cases hleft : removed.dropWhile fun e => e.time < earliest with
  | nil =>
    rw [hleft] at he
    cases he
  | cons first left =>
    rw [hleft] at he hsorted hhead
    have hfirst : earliest ≤ first.time := by simpa using hhead
    rcases mem_cons.mp he with rfl | he
    · exact hfirst
    · exact le_trans hfirst (rel_of_pairwise_cons hsorted he)

theorem Ordered.dropBefore {earliest : Nat} (hstart : start ≤ now)
    (hearliest : earliest ≤ now) :
    Trimmed removed start now (dropBefore earliest removed start) := by
  unfold ChangeFeed.dropBefore
  split
  · rename_i hlength
    have hsplit := takeWhile_append_dropWhile
      (p := fun e : Removal ι => e.time < earliest) (l := removed)
    have hsublist := dropWhile_sublist (l := removed) fun e : Removal ι => e.time < earliest
    -- something is dropped, so the new start is after the old one
    have hfirst : start ≤ earliest := by
      cases htaken : removed.takeWhile fun e => e.time < earliest with
      | nil =>
        rw [htaken, nil_append] at hsplit
        rw [hsplit] at hlength
        omega
      | cons e taken =>
        have he : e ∈ removed.takeWhile fun e => e.time < earliest := htaken ▸ mem_cons_self
        have hle := h.start_le e ((takeWhile_sublist _).subset he)
        have hlt : e.time < earliest := by simpa using mem_takeWhile_imp he
        omega
    refine ⟨hsublist, ⟨h.sorted.sublist hsublist, fun e he => le_of_mem_dropWhile h he⟩, hfirst,
      hearliest, ?_⟩
    intro e he
    rw [← hsplit] at he
    rcases mem_append.mp he with he | he
    · have hlt : e.time < earliest := by simpa using mem_takeWhile_imp he
      exact .inr (le_of_lt hlt)
    · exact .inl he
  · exact ⟨Sublist.refl _, h, le_rfl, hstart, fun e he => .inl he⟩

theorem Ordered.trim (hpast : ∀ e ∈ removed, e.time ≤ now)
    (hstart : start ≤ now) : Trimmed removed start now (trim L now removed start) := by
  unfold ChangeFeed.trim
  split
  · rename_i hsize
    exact h.dropBatch hpast hsize
  · exact h.dropBefore hstart (Nat.sub_le _ _)

end ChangeFeed

/-! ## What is there, and the feed of it -/

/-- What is there (`true` for public), the feed, and how often the clock was read. -/
structure Published (ι : Type) where
  contents : ι → Option Bool
  feed : ChangeFeed ι
  reads : Nat

namespace Published

variable {ι : Type}

def Visible (v : Published ι) (all : Bool) (id : ι) : Prop :=
  ∃ isPublic, v.contents id = some isPublic ∧ (all || isPublic) = true

def RemovedSince (v : Published ι) (all : Bool) (t : Nat) (id : ι) : Prop :=
  ∃ e ∈ v.feed.removed, t ≤ e.time ∧ e.id = id ∧ (all || !e.hidden) = true

variable [DecidableEq ι]

def PutSince (v : Published ι) (t : Nat) (id : ι) : Prop :=
  ∃ time, v.feed.added.get? id = some time ∧ t ≤ time

def Covers (v : Published ι) (t : Nat) : Prop :=
  v.feed.addedStart ≠ 0 ∧ v.feed.removedStart ≠ 0 ∧ v.feed.addedStart < t ∧ v.feed.removedStart < t

def putNow (clock : Nat → Nat) (v : Published ι) (id : ι) (isPublic : Bool) : Published ι :=
  { contents := update v.contents id (some isPublic)
    feed := v.feed.put (clock v.reads) id
    reads := v.reads + 1 }

def removeNow (L : FeedLimits) (clock : Nat → Nat) (v : Published ι) (id : ι) (isPublic : Bool) :
    Published ι :=
  { contents := update v.contents id none
    feed := v.feed.remove L (clock v.reads) id (!isPublic)
    reads := v.reads + 1 }

/-- One change, or one reading of the clock. What is public stays public until it is removed. -/
inductive Step (L : FeedLimits) (clock : Nat → Nat) : Published ι → Published ι → Prop
  | tick (v : Published ι) : Step L clock v { v with reads := v.reads + 1 }
  | put (v : Published ι) (id : ι) (isPublic : Bool)
      (hpublic : v.contents id = some true → isPublic = true) :
      Step L clock v (v.putNow clock id isPublic)
  | remove (v : Published ι) (id : ι) (isPublic : Bool) (hthere : v.contents id = some isPublic) :
      Step L clock v (v.removeNow L clock id isPublic)
  | clear (v : Published ι) : Step L clock v { v with feed := ChangeFeed.empty }

/-- The histories are in order and of the past, and a thing that is there was put after it was last
removed. -/
structure Wf (clock : Nat → Nat) (v : Published ι) : Prop where
  ordered : ChangeFeed.Ordered v.feed.removed v.feed.removedStart
  past : ∀ e ∈ v.feed.removed, e.time ≤ clock v.reads
  start_past : v.feed.removedStart ≤ clock v.reads
  nil_of_start : v.feed.removedStart = 0 → v.feed.removed = []
  put_again : ∀ e ∈ v.feed.removed, v.contents e.id ≠ none → v.PutSince e.time e.id

/-- The histories tell of everything that has gone or come since the state `v₀` seen at the time
`t`, or do not reach back that far. -/
structure Since (clock : Nat → Nat) (v₀ : Published ι) (all : Bool) (t : Nat) (v : Published ι) :
    Prop where
  before : t ≤ clock v.reads
  gone : ∀ id, v₀.Visible all id → v.Visible all id ∨ v.RemovedSince all t id
    ∨ v.feed.removedStart = 0 ∨ t ≤ v.feed.removedStart
  come : ∀ id, v.Visible all id → v₀.Visible all id ∨ v.PutSince t id
    ∨ v.feed.addedStart = 0 ∨ t ≤ v.feed.addedStart

variable {L : FeedLimits} {clock : Nat → Nat} {v₀ v v' : Published ι} {all : Bool} {t : Nat}

theorem wf_empty (contents : ι → Option Bool) (reads : Nat) :
    Wf clock ⟨contents, ChangeFeed.empty, reads⟩ :=
  ⟨⟨Pairwise.nil, fun _ he => absurd he not_mem_nil⟩,
    fun _ he => absurd he not_mem_nil, Nat.zero_le _, fun _ => rfl,
    fun _ he => absurd he not_mem_nil⟩

variable {id id' : ι} {isPublic : Bool}

theorem contents_putNow_ne (isPublic : Bool) (h : id' ≠ id) :
    (v.putNow clock id isPublic).contents id' = v.contents id' :=
  update_of_ne h _ _

theorem contents_removeNow_ne (isPublic : Bool) (h : id' ≠ id) :
    (v.removeNow L clock id isPublic).contents id' = v.contents id' :=
  update_of_ne h _ _

theorem contents_removeNow_self (id : ι) (isPublic : Bool) :
    (v.removeNow L clock id isPublic).contents id = none :=
  update_self _ _ _

theorem putSince_putNow_self (isPublic : Bool) (h : t ≤ clock v.reads) :
    (v.putNow clock id isPublic).PutSince t id :=
  ⟨clock v.reads, Dict.get?_set_self _ _ _, h⟩

theorem PutSince.putNow (h : v.PutSince t id') (isPublic : Bool) (hne : id' ≠ id) :
    (v.putNow clock id isPublic).PutSince t id' := by
  obtain ⟨time, htime, hle⟩ := h
  exact ⟨time, (Dict.get?_set_ne _ _ hne).trans htime, hle⟩

theorem PutSince.removeNow (h : v.PutSince t id') (isPublic : Bool) (hne : id' ≠ id) :
    (v.removeNow L clock id isPublic).PutSince t id' := by
  obtain ⟨time, htime, hle⟩ := h
  exact ⟨time, (Dict.get?_erase_ne _ hne).trans htime, hle⟩

theorem Wf.trimmed (h : Wf clock v) (id : ι) (hidden : Bool) :
    ChangeFeed.Trimmed (v.feed.removed ++ [⟨clock v.reads, id, hidden⟩])
      (if v.feed.removedStart = 0 then clock v.reads else v.feed.removedStart) (clock v.reads)
      ((v.feed.remove L (clock v.reads) id hidden).removed,
        (v.feed.remove L (clock v.reads) id hidden).removedStart) := by
  have hpast : ∀ e ∈ v.feed.removed ++ [⟨clock v.reads, id, hidden⟩], e.time ≤ clock v.reads := by
    intro e he
    rcases mem_append.mp he with he | he
    · exact h.past e he
    · rw [mem_singleton.mp he]
  unfold ChangeFeed.remove
  rw [ChangeFeed.insertByTime_eq h.past]
  by_cases hstart : v.feed.removedStart = 0
  · rw [if_pos hstart]
    refine ChangeFeed.Ordered.trim ?_ hpast le_rfl
    rw [h.nil_of_start hstart, nil_append]
    refine ⟨pairwise_singleton _ _, fun e he => ?_⟩
    rw [mem_singleton.mp he]
  · rw [if_neg hstart]
    exact (h.ordered.concat h.past h.start_past).trim hpast h.start_past

/-- Times are positive, as 0 stands for no start, and do not decrease. -/
theorem Wf.step (hmono : Monotone clock) (hpos : ∀ n, 0 < clock n) (h : Wf clock v)
    (hstep : Step L clock v v') : Wf clock v' := by
  have hnext : clock v.reads ≤ clock (v.reads + 1) := hmono (Nat.le_succ _)
  cases hstep with
  | tick =>
    exact ⟨h.ordered, fun e he => (h.past e he).trans hnext, h.start_past.trans hnext,
      h.nil_of_start, h.put_again⟩
  | put id isPublic hpublic =>
    refine ⟨h.ordered, fun e he => (h.past e he).trans hnext, h.start_past.trans hnext,
      h.nil_of_start, ?_⟩
    intro e he hthere
    by_cases hid : e.id = id
    · rw [hid]
      exact putSince_putNow_self isPublic (h.past e he)
    · rw [contents_putNow_ne isPublic hid] at hthere
      exact (h.put_again e he hthere).putNow isPublic hid
  | remove id isPublic hthere =>
    have htrim := h.trimmed (L := L) id !isPublic
    refine ⟨htrim.ordered, ?_, htrim.le_now.trans hnext, ?_, ?_⟩
    · intro e he
      rcases mem_append.mp (htrim.sublist.subset he) with he | he
      · exact (h.past e he).trans hnext
      · rw [mem_singleton.mp he]
        exact hnext
    · -- the start is positive by now
      intro hstart
      have hle := htrim.start_le
      have hnow := hpos v.reads
      change _ ≤ (v.removeNow L clock id isPublic).feed.removedStart at hle
      rw [hstart] at hle
      split at hle <;> omega
    · intro e he hthere'
      have hid : e.id ≠ id := by
        rintro rfl
        exact hthere' (contents_removeNow_self _ _)
      rw [contents_removeNow_ne isPublic hid] at hthere'
      rcases mem_append.mp (htrim.sublist.subset he) with he | he
      · exact (h.put_again e he hthere').removeNow isPublic hid
      · rw [mem_singleton.mp he] at hid
        exact absurd rfl hid
  | clear => exact wf_empty _ _

/-! ### What the feed tells of the time since a state -/

theorem Visible.putNow (h : v.Visible all id')
    (hpublic : v.contents id = some true → isPublic = true) :
    (v.putNow clock id isPublic).Visible all id' := by
  obtain ⟨wasPublic, hwas, hsees⟩ := h
  by_cases hid : id' = id
  · subst hid
    refine ⟨isPublic, update_self _ _ _, ?_⟩
    cases wasPublic with
    | true => rw [hpublic hwas, Bool.or_true]
    | false =>
      rw [Bool.or_false] at hsees
      rw [hsees, Bool.true_or]
  · exact ⟨wasPublic, (contents_putNow_ne isPublic hid).trans hwas, hsees⟩

theorem Visible.of_putNow (h : (v.putNow clock id isPublic).Visible all id') (hne : id' ≠ id) :
    v.Visible all id' := by
  obtain ⟨nowPublic, hnow, hsees⟩ := h
  exact ⟨nowPublic, (contents_putNow_ne isPublic hne).symm.trans hnow, hsees⟩

theorem Wf.removedSince_removeNow (h : Wf clock v)
    (htold : v.RemovedSince all t id' ∨ id' = id ∧ t ≤ clock v.reads ∧ (all || isPublic) = true) :
    (v.removeNow L clock id isPublic).RemovedSince all t id'
      ∨ t ≤ (v.removeNow L clock id isPublic).feed.removedStart := by
  have htrim := h.trimmed (L := L) id !isPublic
  obtain ⟨e, he, htime, hid, hsees⟩ : ∃ e ∈ v.feed.removed ++ [⟨clock v.reads, id, !isPublic⟩],
      t ≤ e.time ∧ e.id = id' ∧ (all || !e.hidden) = true := by
    rcases htold with ⟨e, he, htold⟩ | ⟨rfl, htime, hsees⟩
    · exact ⟨e, mem_append_left _ he, htold⟩
    · exact ⟨_, mem_append_right _ (mem_singleton_self _), htime, rfl, by simpa using hsees⟩
  rcases htrim.dropped e he with hkept | hdropped
  · exact .inl ⟨e, hkept, htime, hid, hsees⟩
  · exact .inr (htime.trans hdropped)

theorem Since.step (hmono : Monotone clock) (hwf : Wf clock v) (h : Since clock v₀ all t v)
    (hstep : Step L clock v v') : Since clock v₀ all t v' := by
  have hnext : clock v.reads ≤ clock (v.reads + 1) := hmono (Nat.le_succ _)
  cases hstep with
  | tick => exact ⟨h.before.trans hnext, h.gone, h.come⟩
  | put id isPublic hpublic =>
    refine ⟨h.before.trans hnext, ?_, ?_⟩
    · intro id' hid'
      rcases h.gone id' hid' with hsees | hrest
      · exact .inl (hsees.putNow hpublic)
      · exact .inr hrest
    · intro id' hsees
      by_cases hid : id' = id
      · subst hid
        exact .inr (.inl (putSince_putNow_self isPublic h.before))
      · rcases h.come id' (hsees.of_putNow hid) with hold | hput | hstart
        · exact .inl hold
        · exact .inr (.inl (hput.putNow isPublic hid))
        · -- a history without a start starts now
          refine .inr (.inr (.inr ?_))
          show t ≤ if v.feed.addedStart = 0 then clock v.reads else v.feed.addedStart
          have := h.before
          split <;> omega
  | remove id isPublic hthere =>
    have htrim := hwf.trimmed (L := L) id !isPublic
    refine ⟨h.before.trans hnext, ?_, ?_⟩
    · intro id' hid'
      rcases h.gone id' hid' with hsees | hremoved | hstart
      · by_cases hid : id' = id
        · subst hid
          obtain ⟨wasPublic, hwas, hsees⟩ := hsees
          cases hwas.symm.trans hthere
          rcases hwf.removedSince_removeNow (.inr ⟨rfl, h.before, hsees⟩) with htold | hstart
          · exact .inr (.inl htold)
          · exact .inr (.inr (.inr hstart))
        · obtain ⟨wasPublic, hwas, hsees⟩ := hsees
          exact .inl ⟨wasPublic, (contents_removeNow_ne isPublic hid).trans hwas, hsees⟩
      · rcases hwf.removedSince_removeNow (.inl hremoved) with htold | hstart
        · exact .inr (.inl htold)
        · exact .inr (.inr (.inr hstart))
      · refine .inr (.inr (.inr (le_trans ?_ htrim.start_le)))
        have := h.before
        split <;> omega
    · intro id' hsees
      obtain ⟨nowPublic, hnow, hall⟩ := hsees
      have hid : id' ≠ id := by
        rintro rfl
        exact absurd ((contents_removeNow_self _ _).symm.trans hnow) (by simp)
      have hsees : v.Visible all id' :=
        ⟨nowPublic, (contents_removeNow_ne isPublic hid).symm.trans hnow, hall⟩
      rcases h.come id' hsees with hold | hput | hstart
      · exact .inl hold
      · exact .inr (.inl (hput.removeNow isPublic hid))
      · exact .inr (.inr hstart)
  | clear =>
    exact ⟨h.before, fun _ _ => .inr (.inr (.inl rfl)),
      fun _ _ => .inr (.inr (.inl rfl))⟩

theorem Wf.steps (hmono : Monotone clock) (hpos : ∀ n, 0 < clock n) (h : Wf clock v)
    (hsteps : Relation.ReflTransGen (Step L clock) v v') : Wf clock v' := by
  induction hsteps with
  | refl => exact h
  | tail _ hstep ih => exact ih.step hmono hpos hstep

end Published

end Glaciem
