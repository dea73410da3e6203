import Glaciem.Chain.Node

/-!
# Glaciem — transactions between chain and pool

What the operations on the pool keep, and the loop of `handle_block_to_main_chain` over the
transactions of a block in closed form.

* `PoolOk` — the pool holds each transaction once, none that is in the chain, none pruned.
-/

namespace Glaciem.Chain

open List

variable {H : Type}

variable (chain : List (Entry H))

def bodyIdsOf : List H := chain.flatMap fun e => e.txs.map Tx.id

def poolIds (pool : List (PoolTx H)) : List H := pool.map fun p => p.tx.id

theorem bodyIdsOf_subset : bodyIdsOf chain ⊆ txIdsOf chain := by
  intro id hid
  obtain ⟨e, he, hin⟩ := mem_flatMap.mp hid
  exact mem_flatMap.mpr ⟨e, he, mem_cons_of_mem _ hin⟩

theorem bodyIdsOf_concat (e : Entry H) :
    bodyIdsOf (chain ++ [e]) = bodyIdsOf chain ++ e.txs.map Tx.id := by
  simp [bodyIdsOf]

theorem idsOf_concat (e : Entry H) :
    idsOf (chain ++ [e]) = idsOf chain ++ [e.id] := map_append

theorem stampsOf_concat (e : Entry H) :
    stampsOf (chain ++ [e]) = stampsOf chain ++ [e.stamp] := map_append

theorem topId_concat (R : Rules H) (chain : List (Entry H)) (e : Entry H) :
    topId R (chain ++ [e]) = e.id := by
  simp [topId, idsOf]

structure PoolOk (chain : List (Entry H)) (pool : List (PoolTx H)) : Prop where
  nodup : (poolIds pool).Nodup
  fresh : ∀ p ∈ pool, p.tx.id ∉ bodyIdsOf chain
  unpruned : ∀ p ∈ pool, p.tx.pruned = false

theorem poolOk_nil : PoolOk chain [] :=
  ⟨nodup_nil, fun _ h => absurd h (not_mem_nil), fun _ h => absurd h (not_mem_nil)⟩

variable {chain}

theorem PoolOk.sublist {pool pool' : List (PoolTx H)} (h : PoolOk chain pool)
    (hsub : pool'.Sublist pool) : PoolOk chain pool' where
  nodup := h.nodup.sublist (hsub.map _)
  fresh p hp := h.fresh p (hsub.subset hp)
  unpruned p hp := h.unpruned p (hsub.subset hp)

theorem PoolOk.concat {pool : List (PoolTx H)} {p : PoolTx H} (h : PoolOk chain pool)
    (hid : p.tx.id ∉ poolIds pool) (hfresh : p.tx.id ∉ bodyIdsOf chain)
    (hunpruned : p.tx.pruned = false) : PoolOk chain (pool ++ [p]) := by
  refine ⟨?_, fun q hq => ?_, fun q hq => ?_⟩
  · rw [poolIds, map_append]
    exact Nodup.append h.nodup (nodup_singleton _) (by simpa [poolIds] using hid)
  · rcases mem_append.mp hq with hold | hnew
    · exact h.fresh q hold
    · rwa [mem_singleton.mp hnew]
  · rcases mem_append.mp hq with hold | hnew
    · exact h.unpruned q hold
    · rwa [mem_singleton.mp hnew]

/-! ## Keeping transactions of blocks -/

section Keep

variable (R : Rules H)

theorem poolKeep_sublist (pool : List (PoolTx H)) (t : Tx H) :
    (poolKeep R pool t).Sublist (pool ++ [⟨t, true⟩]) := R.evict_sublist _

variable {pool : List (PoolTx H)}

theorem mem_poolKeep {t u : Tx H} (h : ⟨u, true⟩ ∈ pool ∨ u = t) :
    ⟨u, true⟩ ∈ poolKeep R pool t := by
  refine R.evict_kept _ _ ?_ rfl
  rcases h with hin | rfl
  · exact mem_append_left _ hin
  · exact mem_append_right _ (mem_singleton.mpr rfl)

theorem foldl_poolKeep_sublist (pool : List (PoolTx H)) (ts : List (Tx H)) :
    (ts.foldl (poolKeep R) pool).Sublist (pool ++ ts.map fun t => ⟨t, true⟩) := by
  induction ts generalizing pool with
  | nil => simp
  | cons t rest ih =>
    have hkeep := (poolKeep_sublist R pool t).append_right
      (rest.map fun t => (⟨t, true⟩ : PoolTx H))
    rw [append_assoc] at hkeep
    exact (ih _).trans hkeep

theorem mem_foldl_poolKeep {ts : List (Tx H)} {u : Tx H} (h : ⟨u, true⟩ ∈ pool ∨ u ∈ ts) :
    ⟨u, true⟩ ∈ ts.foldl (poolKeep R) pool := by
  induction ts generalizing pool with
  | nil =>
    rcases h with hin | hin
    · exact hin
    · exact absurd hin (not_mem_nil)
  | cons t rest ih =>
    refine ih ?_
    rcases h with hin | hin
    · exact .inl (mem_poolKeep R (.inl hin))
    · rcases mem_cons.mp hin with rfl | hrest
      · exact .inl (mem_poolKeep R (.inr rfl))
      · exact .inr hrest

theorem PoolOk.foldl_poolKeep {ts : List (Tx H)} (h : PoolOk chain pool)
    (hnodup : (ts.map Tx.id).Nodup) (hdisjoint : ∀ t ∈ ts, t.id ∉ poolIds pool)
    (hfresh : ∀ t ∈ ts, t.id ∉ bodyIdsOf chain) (hunpruned : ∀ t ∈ ts, t.pruned = false) :
    PoolOk chain (ts.foldl (poolKeep R) pool) := by
  induction ts generalizing pool with
  | nil => exact h
  | cons t rest ih =>
    rw [map_cons, nodup_cons] at hnodup
    have hkept : PoolOk chain (poolKeep R pool t) :=
      (h.concat (p := ⟨t, true⟩) (hdisjoint t mem_cons_self) (hfresh t mem_cons_self)
        (hunpruned t mem_cons_self)).sublist (poolKeep_sublist R pool t)
    refine ih hkept hnodup.2 (fun u hu hin => ?_) (fun u hu => hfresh u (mem_cons_of_mem _ hu))
      fun u hu => hunpruned u (mem_cons_of_mem _ hu)
    have hmem := ((poolKeep_sublist R pool t).map fun p => p.tx.id).subset hin
    rw [map_append] at hmem
    rcases mem_append.mp hmem with hold | hnew
    · exact hdisjoint u (mem_cons_of_mem _ hu) hold
    · have hid : u.id = t.id := by simpa using hnew
      exact hnodup.1 (hid ▸ mem_map_of_mem hu)

theorem validatePool_sublist (n : Node H) (version : Nat) :
    (n.validatePool R version).pool.Sublist n.pool :=
  (R.evict_sublist _).trans filter_sublist

theorem validateIfChanged_sublist (n : Node H) (oldVersion : Nat) :
    (n.validateIfChanged R oldVersion).pool.Sublist n.pool := by
  unfold Node.validateIfChanged
  split
  · exact validatePool_sublist R n _
  · exact Sublist.refl _

theorem validateIfChanged_frame (n : Node H) (oldVersion : Nat) :
    n.validateIfChanged R oldVersion
      = { n with pool := (n.validateIfChanged R oldVersion).pool } := by
  unfold Node.validateIfChanged
  split <;> rfl

theorem popBlock_eq_some {n n' : Node H} {e : Entry H} (h : popBlock R n = some (n', e)) :
    n.chain = n.chain.dropLast ++ [e] ∧ n.chain.dropLast ≠ []
      ∧ n' = ({ n.invalidate with
          chain := n.chain.dropLast
          hardFork := n.hardFork.onBlockPopped hardForks n.chain.dropLast.length 1
          pool := (e.txs.filter fun t : Tx H => !t.pruned).foldl (poolKeep R) n.pool } :
        Node H).validateIfChanged R n.hardFork.version := by
  unfold popBlock at h
  split at h
  · cases h
  rename_i hlen
  obtain ⟨last, hlast, heq⟩ := Option.map_eq_some_iff.mp h
  rw [Prod.mk.injEq] at heq
  obtain ⟨rfl, rfl⟩ := heq
  refine ⟨?_, ?_, rfl⟩
  · rw [dropLast_append_getLast? _ hlast]
  · rw [← length_pos_iff, length_dropLast]
    omega

end Keep

/-! ## Taking transactions for a block -/

section Take

variable [DecidableEq H]

variable {pool left : List (PoolTx H)} {ids : List H} {new taken : List (Taken H)}
  {extra : List (Tx H)}

theorem poolTake_eq_some {pool' : List (PoolTx H)} {id : H} {t : Tx H}
    (h : poolTake pool id = some (t, pool')) :
    t.id = id ∧ (∃ p ∈ pool, p.tx = t) ∧ pool' = pool.filter fun q => q.tx.id ≠ id := by
  obtain ⟨p, hp, heq⟩ := Option.map_eq_some_iff.mp h
  rw [Prod.mk.injEq] at heq
  obtain ⟨rfl, rfl⟩ := heq
  refine ⟨by simpa using find?_some hp, ⟨p, mem_of_find?_eq_some hp, rfl⟩, rfl⟩

theorem poolTake_eq_none {id : H} (h : poolTake pool id = none) : id ∉ poolIds pool := by
  intro hin
  obtain ⟨p, hp, rfl⟩ := mem_map.mp hin
  rw [poolTake, Option.map_eq_none_iff, find?_eq_none] at h
  simpa using h p hp

structure Gathered (pool : List (PoolTx H)) (extra : List (Tx H)) (ids : List H)
    (left : List (PoolTx H)) (new : List (Taken H)) : Prop where
  ids_eq : (new.map fun t => t.tx.id) = ids
  left_eq : left = pool.filter fun q => q.tx.id ∉ ids
  nodup : ((new.filter Taken.fromPool).map fun t => t.tx.id).Nodup
  pooled : ∀ t ∈ new, t.fromPool = true → ∃ p ∈ pool, p.tx = t.tx
  brought : ∀ t ∈ new, t.fromPool = false → t.tx ∈ extra

theorem gathered_nil (pool : List (PoolTx H)) (extra : List (Tx H)) :
    Gathered pool extra [] pool [] where
  ids_eq := rfl
  left_eq := by simp
  nodup := nodup_nil
  pooled _ h := absurd h not_mem_nil
  brought _ h := absurd h not_mem_nil

theorem Gathered.cons_pool {p : PoolTx H} (hp : p ∈ pool)
    (h : Gathered (pool.filter fun q => q.tx.id ≠ p.tx.id) extra ids left new) :
    Gathered pool extra (p.tx.id :: ids) left (⟨p.tx, true⟩ :: new) where
  ids_eq := by rw [map_cons, h.ids_eq]
  left_eq := by
    rw [h.left_eq, filter_filter]
    congr 1
    funext q
    simp only [mem_cons, not_or, Bool.decide_and, ← Bool.and_comm (decide (q.tx.id ∉ ids)), ne_eq]
  nodup := by
    rw [filter_cons_of_pos rfl, map_cons, nodup_cons]
    refine ⟨fun hin => ?_, h.nodup⟩
    -- the pool has no further transaction of this id
    obtain ⟨t, ht, hid⟩ := mem_map.mp hin
    obtain ⟨hmem, hfrom⟩ := mem_filter.mp ht
    obtain ⟨q, hq, hqt⟩ := h.pooled t hmem hfrom
    have hne := (mem_filter.mp hq).2
    rw [hqt, hid] at hne
    simp at hne
  pooled t ht hfrom := by
    rcases mem_cons.mp ht with rfl | hrest
    · exact ⟨p, hp, rfl⟩
    · obtain ⟨q, hq, hqt⟩ := h.pooled t hrest hfrom
      exact ⟨q, (mem_filter.mp hq).1, hqt⟩
  brought t ht hfrom := by
    rcases mem_cons.mp ht with rfl | hrest
    · exact absurd hfrom (by simp)
    · exact h.brought t hrest hfrom

theorem Gathered.cons_extra {extra' : List (Tx H)} {tx : Tx H} (hnone : tx.id ∉ poolIds pool)
    (htx : tx ∈ extra) (hsub : extra' ⊆ extra) (h : Gathered pool extra' ids left new) :
    Gathered pool extra (tx.id :: ids) left (⟨tx, false⟩ :: new) where
  ids_eq := by rw [map_cons, h.ids_eq]
  left_eq := by
    rw [h.left_eq]
    refine filter_congr fun q hq => ?_
    have hne : q.tx.id ≠ tx.id := fun heq => hnone (heq ▸ mem_map.mpr ⟨q, hq, rfl⟩)
    simp [hne]
  nodup := by
    rw [filter_cons_of_neg (by simp)]
    exact h.nodup
  pooled t ht hfrom := by
    rcases mem_cons.mp ht with rfl | hrest
    · exact absurd hfrom (by simp)
    · exact h.pooled t hrest hfrom
  brought t ht hfrom := by
    rcases mem_cons.mp ht with rfl | hrest
    · exact htx
    · exact hsub (h.brought t hrest hfrom)

theorem PoolOk.returnTxs (R : Rules H) (h : PoolOk chain pool)
    (hg : Gathered pool extra ids left new) : PoolOk chain (returnTxs R left new) := by
  have hmem : ∀ t ∈ (new.filter Taken.fromPool).map Taken.tx,
      t.id ∈ ids ∧ ∃ p ∈ pool, p.tx = t := by
    intro t ht
    obtain ⟨u, hu, rfl⟩ := mem_map.mp ht
    obtain ⟨hnew, hfrom⟩ := mem_filter.mp hu
    exact ⟨hg.ids_eq ▸ mem_map.mpr ⟨u, hnew, rfl⟩, hg.pooled u hnew hfrom⟩
  have hsub : left.Sublist pool := hg.left_eq ▸ filter_sublist
  refine (h.sublist hsub).foldl_poolKeep R ?_ (fun t ht hin => ?_) (fun t ht => ?_) fun t ht => ?_
  · rw [map_map]
    exact hg.nodup
  · obtain ⟨q, hq, hqt⟩ := mem_map.mp hin
    rw [hg.left_eq] at hq
    have hnot := (mem_filter.mp hq).2
    rw [decide_eq_true_iff, hqt] at hnot
    exact hnot (hmem t ht).1
  · obtain ⟨-, p, hp, rfl⟩ := hmem t ht
    exact h.fresh p hp
  · obtain ⟨-, p, hp, rfl⟩ := hmem t ht
    exact h.unpruned p hp

theorem PoolOk.push {e : Entry H} (h : PoolOk chain pool) :
    PoolOk (chain ++ [e]) (pool.filter fun q => q.tx.id ∉ e.txs.map Tx.id) := by
  have hsub := h.sublist (filter_sublist (p := fun q => q.tx.id ∉ e.txs.map Tx.id))
  refine ⟨hsub.nodup, fun p hp hin => ?_, hsub.unpruned⟩
  rw [bodyIdsOf_concat] at hin
  rcases mem_append.mp hin with hold | hnew
  · exact hsub.fresh p hp hold
  · exact of_decide_eq_true (mem_filter.mp hp).2 hnew

theorem mem_returnTxs (R : Rules H) {u : Tx H} (hnodup : (poolIds pool).Nodup)
    (hg : Gathered pool [] ids left new) (hu : ⟨u, true⟩ ∈ pool) :
    ⟨u, true⟩ ∈ returnTxs R left new := by
  refine mem_foldl_poolKeep R ?_
  by_cases hin : u.id ∈ ids
  · right
    rw [← hg.ids_eq] at hin
    obtain ⟨t, ht, hid⟩ := mem_map.mp hin
    have hfrom : t.fromPool = true := by
      cases hf : t.fromPool with
      | true => rfl
      | false => exact absurd (hg.brought t ht hf) not_mem_nil
    obtain ⟨p, hp, hpt⟩ := hg.pooled t ht hfrom
    have hpu : p = ⟨u, true⟩ := inj_on_of_nodup_map hnodup hp hu (by rw [hpt]; exact hid)
    refine mem_map.mpr ⟨t, mem_filter.mpr ⟨ht, hfrom⟩, ?_⟩
    rw [← hpt, hpu]
  · left
    rw [hg.left_eq]
    exact mem_filter.mpr ⟨hu, by simpa using hin⟩

variable {R : Rules H}

theorem collectTxs_spec {result : Collected H}
    (h : collectTxs R chain ids pool extra taken = result) :
    match result with
    | .all left taken' => ∃ new, taken' = taken ++ new ∧ Gathered pool extra ids left new
        ∧ ∀ t ∈ new, t.tx.id ∉ txIdsOf chain ∧ R.checkTxInputs chain t.tx = true
    | .failed left taken' _ =>
        ∃ new done, taken' = taken ++ new ∧ Gathered pool extra done left new := by
  induction ids generalizing pool extra taken with
  | nil =>
    subst h
    exact ⟨[], (append_nil _).symm, gathered_nil _ _, fun _ ht => absurd ht not_mem_nil⟩
  | cons id rest ih =>
    rw [collectTxs] at h
    split at h
    · subst h
      exact ⟨[], [], (append_nil _).symm, gathered_nil _ _⟩
    rename_i hfresh
    split at h
    · rename_i tx pool' htake
      obtain ⟨rfl, ⟨p, hp, rfl⟩, rfl⟩ := poolTake_eq_some htake
      split at h
      · rename_i hinputs
        cases result with
        | all left taken' =>
          obtain ⟨new, rfl, hnew, hall⟩ := ih h
          refine ⟨⟨p.tx, true⟩ :: new, by simp, hnew.cons_pool hp, ?_⟩
          simpa using ⟨⟨hfresh, hinputs⟩, hall⟩
        | failed left taken' wrongInputs =>
          obtain ⟨new, done, rfl, hnew⟩ := ih h
          exact ⟨⟨p.tx, true⟩ :: new, _, by simp, hnew.cons_pool hp⟩
      · subst h
        exact ⟨[⟨p.tx, true⟩], _, rfl, (gathered_nil _ extra).cons_pool hp⟩
    · rename_i htake
      split at h
      · rename_i tx hfind
        obtain rfl : tx.id = id := by simpa using find?_some hfind
        have hmem := mem_of_find?_eq_some hfind
        have hnone := poolTake_eq_none htake
        split at h
        · rename_i hinputs
          cases result with
          | all left taken' =>
            obtain ⟨new, rfl, hnew, hall⟩ := ih h
            refine ⟨⟨tx, false⟩ :: new, by simp,
              hnew.cons_extra hnone hmem (filter_subset_self _), ?_⟩
            simpa using ⟨⟨hfresh, hinputs⟩, hall⟩
          | failed left taken' wrongInputs =>
            obtain ⟨new, done, rfl, hnew⟩ := ih h
            exact ⟨⟨tx, false⟩ :: new, _, by simp,
              hnew.cons_extra hnone hmem (filter_subset_self _)⟩
        · subst h
          exact ⟨[⟨tx, false⟩], _, rfl, (gathered_nil _ extra).cons_extra hnone hmem
            (Subset.refl _)⟩
      · subst h
        exact ⟨[], [], (append_nil _).symm, gathered_nil _ _⟩

/-- A transaction that a block can have: it is in the pool, or it came with the block. -/
def Offered (pool : List (PoolTx H)) (extra : List (Tx H)) (t : Tx H) : Prop :=
  (∃ p ∈ pool, p.tx = t) ∨ t ∈ extra

omit [DecidableEq H] in
theorem PoolOk.injOn_offered (h : PoolOk chain pool) :
    Set.InjOn Tx.id {t | Offered pool [] t} := by
  rintro _ (⟨p, hp, rfl⟩ | hnil) _ (⟨q, hq, rfl⟩ | hnil') hid
  · rw [inj_on_of_nodup_map h.nodup hp hq hid]
  all_goals exact absurd ‹_ ∈ []› not_mem_nil

theorem collectTxs_eq_all {txs : List (Tx H)}
    (hinj : Set.InjOn Tx.id {t | Offered pool extra t}) (hnodup : (txs.map Tx.id).Nodup)
    (hmem : ∀ t ∈ txs, Offered pool extra t)
    (hok : ∀ t ∈ txs, t.id ∉ txIdsOf chain ∧ R.checkTxInputs chain t = true) :
    ∃ left new, collectTxs R chain (txs.map Tx.id) pool extra taken = .all left (taken ++ new)
      ∧ new.map Taken.tx = txs := by
  induction txs generalizing pool extra taken with
  | nil => exact ⟨pool, [], by simp [collectTxs], rfl⟩
  | cons t rest ih =>
    obtain ⟨hfresh, hinputs⟩ := hok t mem_cons_self
    rw [map_cons, nodup_cons] at hnodup
    -- the others are not of this id, so they are still there
    have hrest : ∀ u ∈ rest, u.id ≠ t.id := fun u hu heq => hnodup.1 (heq ▸ mem_map_of_mem hu)
    have hgo : ∀ {pool' extra'} (x : Taken H), x.tx = t →
        (∀ u, Offered pool' extra' u → Offered pool extra u) →
        (∀ u, Offered pool extra u → u.id ≠ t.id → Offered pool' extra' u) →
        ∃ left new, collectTxs R chain (rest.map Tx.id) pool' extra' (taken ++ [x])
          = .all left (taken ++ new) ∧ new.map Taken.tx = t :: rest := by
      intro pool' extra' x hx hsub hkeep
      obtain ⟨left, new, hcollect, hnew⟩ := @ih pool' (taken ++ [x]) extra'
        (hinj.mono hsub) hnodup.2
        (fun u hu => hkeep u (hmem u (mem_cons_of_mem _ hu)) (hrest u hu))
        fun u hu => hok u (mem_cons_of_mem _ hu)
      exact ⟨left, x :: new, by rw [hcollect]; simp, by rw [map_cons, hx, hnew]⟩
    rw [map_cons, collectTxs, if_neg hfresh]
    cases htake : poolTake pool t.id with
    | some found =>
      obtain ⟨hid, ⟨p, hp, hpt⟩, hpool⟩ := poolTake_eq_some htake
      obtain rfl : found.1 = t := hinj (.inl ⟨p, hp, hpt⟩) (hmem t mem_cons_self) hid
      dsimp only
      rw [if_pos hinputs, hpool]
      refine hgo ⟨_, true⟩ rfl (fun u hu => ?_) fun u hu hne => ?_
      · exact hu.imp (fun ⟨q, hq, hqu⟩ => ⟨q, (mem_filter.mp hq).1, hqu⟩) id
      · exact hu.imp (fun ⟨q, hq, hqu⟩ => ⟨q, mem_filter.mpr ⟨hq, by simpa [hqu] using hne⟩, hqu⟩)
          id
    | none =>
      have hin : t ∈ extra := (hmem t mem_cons_self).resolve_left fun ⟨p, hp, hpt⟩ =>
        poolTake_eq_none htake (mem_map.mpr ⟨p, hp, by rw [hpt]⟩)
      cases hfind : extra.find? fun u => u.id = t.id with
      | none => simpa using find?_eq_none.mp hfind t hin
      | some u =>
        obtain rfl : u = t := hinj (.inr (mem_of_find?_eq_some hfind)) (hmem t mem_cons_self)
          (by simpa using find?_some hfind)
        dsimp only
        rw [if_pos hinputs]
        refine hgo ⟨_, false⟩ rfl (fun v hv => ?_) fun v hv hne => ?_
        · exact hv.imp id fun hin => (mem_filter.mp hin).1
        · exact hv.imp id fun hin => mem_filter.mpr ⟨hin, by simpa using hne⟩

/-- Something failed and what was taken is returned, a pruned transaction failed and it is not, or
the block is recorded. -/
inductive Completed (R : Rules H) (n : Node H) (b : Block H) (difficulty : Nat)
    (extra : List (Tx H)) : Node H × Bool → Prop
  | returned (done : List H) (left : List (PoolTx H)) (new : List (Taken H)) (invalid : List H)
      (success : Bool) (hg : Gathered n.pool extra done left new) :
      Completed R n b difficulty extra ({ n with
        pool := returnTxs R left new, invalid := invalid, batchSuccess := success }, false)
  | pruned (left : List (PoolTx H)) (new : List (Taken H))
      (hg : Gathered n.pool extra b.txHashes left new) (hpruned : ∃ t ∈ new, t.tx.pruned = true) :
      Completed R n b difficulty extra ({ n with pool := left }, false)
  | recorded (left : List (PoolTx H)) (new : List (Taken H)) (reward : UInt64)
      (hg : Gathered n.pool extra b.txHashes left new)
      (hnew : ∀ t ∈ new, t.tx.id ∉ txIdsOf n.chain ∧ R.checkTxInputs n.chain t.tx = true)
      (hunpruned : ∀ t ∈ new, t.tx.pruned = false)
      (hreward : rewardFor n.chain n.hardFork.version n.weightMedian b (new.map Taken.tx)
        = some reward)
      (hdb : dbAccepts R n.chain (entryFor R n.chain b (new.map Taken.tx) difficulty reward)
        = true) :
      Completed R n b difficulty extra
        (n.record R left (entryFor R n.chain b (new.map Taken.tx) difficulty reward), true)

theorem complete_cases (R : Rules H) (n : Node H) (b : Block H) (difficulty : Nat)
    (extra : List (Tx H)) :
    Completed R n b difficulty extra (n.complete R b difficulty extra) := by
  unfold Node.complete
  split
  · rename_i left taken wrongInputs hcollect
    obtain ⟨new, done, rfl, hg⟩ := collectTxs_spec hcollect
    exact .returned done left _ _ n.batchSuccess hg
  rename_i left taken hcollect
  obtain ⟨new, rfl, hg, hnew⟩ := collectTxs_spec hcollect
  dsimp only
  split
  · rename_i hpruned
    refine .pruned left taken hg ?_
    simpa using hpruned
  rename_i hunpruned
  split
  · exact .returned _ left taken n.invalid n.batchSuccess hg
  rename_i reward hreward
  split
  · rename_i hdb
    refine .recorded left taken reward hg hnew ?_ hreward hdb
    simpa using hunpruned
  · exact .returned _ left taken n.invalid false hg

theorem handle_cases (R : Rules H) (now : Nat) (n : Node H) (b : Block H) (extra : List (Tx H)) :
    handleBlockToMainChain R now n b extra = (n, false)
      ∨ handleBlockToMainChain R now n b extra = ((n.getDifficultyForNextBlock R).2, false)
      ∨ admits R now n b = true
        ∧ verifies R n.chain n.hardFork.version b (n.getDifficultyForNextBlock R).1 = true
        ∧ handleBlockToMainChain R now n b extra
          = Node.complete R (n.getDifficultyForNextBlock R).2 b (n.getDifficultyForNextBlock R).1
            extra := by
  unfold handleBlockToMainChain
  split
  · exact .inl rfl
  rename_i hadmits
  dsimp only
  split
  · exact .inr (.inl rfl)
  rename_i hverifies
  split
  · exact .inr (.inl rfl)
  · exact .inr (.inr ⟨eq_true_of_ne_false hadmits, eq_true_of_ne_false hverifies, rfl⟩)

end Take

end Glaciem.Chain
