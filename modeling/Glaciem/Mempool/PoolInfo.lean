import Glaciem.Mempool.Indexes

/-!
# Glaciem — telling a client what changed in the pool

A client that has seen the pool at some time asks `get_pool_info` for the changes since. The answer
comes from `m_added_txs_by_id` and `m_removed_txs_by_time`, which are a `ChangeFeed` over the ids of
the pool: what is there are the rows of the database, and a row is public when its transaction has
been broadcast.
-/

namespace Glaciem.Mempool

open List Dict Function

variable {H K F : Type} [DecidableEq H] [DecidableEq K]

/-! ## The query -/

namespace TxMemoryPool

variable (p : TxMemoryPool H K F)

def published : Published H :=
  ⟨fun id => (p.records.get? id).map (·.matchesCategory .broadcasted), p.transient, p.reads⟩

variable {includeSensitive : Bool} {startTime : Nat}

variable {p} {q q' : TxMemoryPool H K F} {E : Env H K F} {id : H} {r : PoolRecord K}

/-! ## Calls as changes -/

def Follows (E : Env H K F) (p q : TxMemoryPool H K F) : Prop :=
  Relation.ReflTransGen (Published.Step removedLimits E.clock) p.published q.published

theorem Writes.map_get? {charged : Prop} {records : Dict H (PoolRecord K)}
    (h : Writes E charged p id r records) (f : PoolRecord K → Bool) :
    (fun id' => (records.get? id').map f)
      = update (fun id' => (p.records.get? id').map f) id (some (f r)) := by
  funext id'
  rw [h.get?]
  by_cases hid : id' = id
  · rw [hid, update_self, if_pos rfl]
    rfl
  · rw [update_of_ne hid, if_neg hid]

theorem map_get?_erase (f : PoolRecord K → Bool) (id : H) :
    (fun id' => ((p.records.erase id).get? id').map f)
      = update (fun id' => (p.records.get? id').map f) id none := by
  funext id'
  by_cases hid : id' = id
  · rw [hid, update_self, get?_erase_self]
    rfl
  · rw [update_of_ne hid, get?_erase_ne _ hid]

theorem follows_discard (hr : p.records.get? id = some r) : Follows E p (p.discard E id r) := by
  have hpublished : (p.discard E id r).published
      = p.published.removeNow removedLimits E.clock id (r.matchesCategory .broadcasted) := by
    obtain ⟨spent, hframe⟩ := discard_frame E p id r
    rw [hframe]
    unfold published Published.removeNow
    rw [map_get?_erase]
  rw [Follows, hpublished]
  refine Relation.ReflTransGen.single (.remove _ _ _ ?_)
  show (p.records.get? id).map _ = _
  rw [hr]
  rfl

section

variable [LinearOrder F]

/-- Each move is at most one change of the feed. -/
theorem follows_of_move {charged : Prop} (h : Move E charged p q) : Follows E p q := by
  cases h with
  | shrinks h =>
    cases h with
    | discard hr => exact follows_discard hr
    | tick => exact .single (.tick _)
    | timedOut => exact .refl
  | @put id r records hwrites rate receiveTime =>
    have hpublished : (({ p with records := records } :
      TxMemoryPool H K F).addTxToTransientLists E id
        rate receiveTime).published
          = p.published.putNow E.clock id (r.matchesCategory .broadcasted) := by
      unfold published Published.putNow addTxToTransientLists
      rw [hwrites.map_get?]
    rw [Follows, hpublished]
    refine .single (.put _ _ _ fun hwas => ?_)
    obtain ⟨old, hold, hmatches⟩ := Option.map_eq_some_iff.mp hwas
    exact hwrites.broadcasted old hold hmatches
  | @setRow id r old records hwrites hold hsame =>
    have hpublished : ({ p with records := records } : TxMemoryPool H K F).published
        = p.published := by
      unfold published
      rw [hwrites.map_get?, hsame, update_eq_self_iff.mpr]
      rw [hold]
      rfl
    rw [Follows, hpublished]
  | clear => exact .single (.clear _)
  | frame => exact .refl

theorem follows_of_exec {ops : List (PoolOp E)} (h : (pools E).exec p ops = some q) :
    Follows E p q := by
  refine (pools E).invariant_of_exec (fun {q op q'} hq hstep => ?_) .refl h
  cases hstep
  exact invariant_of_steps (fun hq hmove => hq.trans (follows_of_move hmove)) (moves_after op) hq

end

end TxMemoryPool

end Glaciem.Mempool
