import Glaciem.Chain.Mempool

/-!
# Glaciem — fork state and difficulty cache follow the chain

`Node.Tracked` is the part of the node's invariant that says nothing about transactions, coins or
weights: the ids of the chain are distinct, each block votes for the version of its height, and fork
state and difficulty cache are those of the chain. Each elementary operation keeps it, in whatever
order they come.
-/

namespace Glaciem.Chain

open List

open HardFork (versionAt)

variable {H : Type}

/-- The difficulty of the next block, from the chain alone. -/
def requiredDifficulty (chain : List (Entry H)) : Nat :=
  nextDifficulty (windowOf (stampsOf chain)) (difficultyTarget (versionAt chain.length))

/-- The same from the stamps of the blocks. -/
def requiredOn (stamps : List Stamp) : Nat :=
  nextDifficulty (windowOf stamps) (difficultyTarget (versionAt stamps.length))

theorem requiredDifficulty_eq (chain : List (Entry H)) :
    requiredDifficulty chain = requiredOn (stampsOf chain) := by
  rw [requiredDifficulty, requiredOn, stampsOf, List.length_map]

/-- The hard fork state and the difficulty cache are those of the chain. -/
structure Node.Tracked (R : Rules H) (n : Node H) : Prop where
  nodup : (idsOf n.chain).Nodup
  fork : n.hardFork.Follows hardForks (n.chain.map fun e => e.block.vote)
  cache : CacheSound n.cache R.nullHash (idsOf n.chain) (stampsOf n.chain)
    (difficultyTarget (versionAt n.chain.length))

section Steps

variable {R : Rules H} {n n' : Node H}

theorem tracked_init (R : Rules H) : (Node.init R).Tracked R where
  nodup := nodup_nil
  fork := HardFork.follows_empty _
  cache := ⟨.inl rfl, fun h => absurd h not_mem_nil,
    fun _ => (nextDifficulty_windowOf_short (show ([] : List Stamp).length ≤ 1 by simp) _).symm⟩

section

variable (h : n.Tracked R)

include h

theorem Node.Tracked.currentVersion :
    n.hardFork.version = versionAt n.chain.length := by
  rw [h.fork.version, length_map]

theorem Node.Tracked.check (v : Vote) :
    n.hardFork.check hardForks v = decide (HardFork.Allows (versionAt n.chain.length) v) := by
  rw [← h.currentVersion]
  rfl

theorem Node.Tracked.congr (hchain : n'.chain = n.chain)
    (hfork : n'.hardFork = n.hardFork) (hcache : n'.cache = n.cache) : n'.Tracked R := by
  obtain ⟨hnodup, hf, hc⟩ := h
  rw [← hchain] at hnodup hf hc
  exact ⟨hnodup, hfork ▸ hf, hcache ▸ hc⟩

theorem Node.Tracked.invalidate : n.invalidate.Tracked R :=
  ⟨h.nodup, h.fork, h.cache.invalidate⟩

theorem Node.Tracked.endReset : ({ n with cache := n.cache.endReset } : Node H).Tracked R :=
  ⟨h.nodup, h.fork, h.cache.endReset⟩

theorem Node.Tracked.reorganize (height : Nat) : (n.reorganize height).Tracked R :=
  ⟨h.nodup, h.fork.reorganizeFromChainHeight height, h.cache⟩

theorem Node.Tracked.validateIfChanged (oldVersion : Nat) :
    (n.validateIfChanged R oldVersion).Tracked R := by
  rw [validateIfChanged_frame]
  exact h.congr rfl rfl rfl

theorem Node.Tracked.popBlock {e : Entry H}
    (hpop : popBlock R n = some (n', e)) :
    n'.Tracked R ∧ n.chain = n'.chain ++ [e] ∧ n'.chain ≠ [] ∧ n'.alts = n.alts := by
  obtain ⟨hsplit, hne, rfl⟩ := popBlock_eq_some R hpop
  generalize n.chain.dropLast = left at hsplit hne ⊢
  obtain ⟨hnodup, hfork, hcache⟩ := h
  rw [hsplit] at hnodup hfork hcache
  rw [idsOf_concat] at hnodup
  rw [idsOf_concat, stampsOf_concat] at hcache
  have hpopped := hfork.onBlockPopped (n := left.length) (k := 1) (by simp) (by simp)
  rw [map_append, take_left' (length_map _)] at hpopped
  rw [validateIfChanged_frame]
  refine ⟨⟨hnodup.of_append_left, hpopped, ?_⟩, hsplit, hne, rfl⟩
  refine hcache.pop ?_ (by simpa [idsOf] using hne) _
  exact fun hin => disjoint_of_nodup_append hnodup hin (mem_singleton.mpr rfl)

end

variable [DecidableEq H]

/-- The cached answer is the difficulty of the chain. -/
theorem Node.Tracked.query_fst (h : n.Tracked R) :
    (n.getDifficultyForNextBlock R).1 = requiredDifficulty n.chain := by
  unfold Node.getDifficultyForNextBlock requiredDifficulty
  rw [h.currentVersion]
  exact h.cache.query_fst

theorem Node.Tracked.query (h : n.Tracked R) : (n.getDifficultyForNextBlock R).2.Tracked R := by
  refine ⟨h.nodup, h.fork, ?_⟩
  show CacheSound (n.cache.query _ _ (difficultyTarget n.hardFork.version)).2 _ _ _ _
  rw [h.currentVersion]
  exact h.cache.query

theorem queried_topHash (R : Rules H) (n : Node H) :
    (n.getDifficultyForNextBlock R).2.cache.topHash = topId R n.chain :=
  query_topHash _ _ _ _

/-- Adding a block on top of a cache for the block below keeps both in step. -/
theorem Node.Tracked.record {e : Entry H} {pool : List (PoolTx H)} (h : n.Tracked R)
    (hqueried : n.cache.topHash = topId R n.chain) (hid : e.id ∉ idsOf n.chain)
    (hversion : HardFork.Allows (versionAt n.chain.length) e.block.vote) :
    (n.record R pool e).Tracked R := by
  have hfork := h.fork.add (v := e.block.vote) (by rwa [length_map, versionAt_hardForks])
  rw [length_map] at hfork
  have hcache : CacheSound (n.cache.query e.id (stampsOf n.chain ++ [e.stamp])
      (difficultyTarget (versionAt (n.chain.length + 1)))).2 R.nullHash _ _ _ :=
    h.cache.query_append (by simp [stampsOf, idsOf]) hqueried hid _
  -- the node after the query that follows the database write
  have hrecorded : ((({ n with
      chain := n.chain ++ [e]
      pool := pool
      hardFork := n.hardFork.add hardForks e.block.vote n.chain.length } :
        Node H).updateWeightLimit R).getDifficultyForNextBlock R).2.Tracked R := by
    refine ⟨?_, ?_, ?_⟩
    · show (idsOf (n.chain ++ [e])).Nodup
      rw [idsOf_concat]
      exact List.Nodup.append h.nodup (nodup_singleton _) (by simpa using hid)
    · show HardFork.Follows _ _ ((n.chain ++ [e]).map _)
      rw [map_append]
      exact hfork
    · show CacheSound (n.cache.query (topId R (n.chain ++ [e])) (stampsOf (n.chain ++ [e]))
        (difficultyTarget (n.hardFork.add hardForks e.block.vote n.chain.length).version)).2 _
        (idsOf (n.chain ++ [e])) (stampsOf (n.chain ++ [e]))
        (difficultyTarget (versionAt (n.chain ++ [e]).length))
      rw [topId_concat, stampsOf_concat, idsOf_concat, hfork.version, length_append, length_append,
        length_map]
      exact hcache
  unfold Node.record
  dsimp only
  split
  · exact hrecorded
  · exact hrecorded.validateIfChanged _

theorem Node.Tracked.handle (h : n.Tracked R) (now : Nat) (b : Block H) (extra : List (Tx H)) :
    (handleBlockToMainChain R now n b extra).1.Tracked R := by
  rcases handle_cases R now n b extra with heq | heq | ⟨hadmits, -, heq⟩
  · rw [heq]
    exact h
  · rw [heq]
    exact h.query
  rw [heq]
  have hcases := complete_cases R (n.getDifficultyForNextBlock R).2 b
    (n.getDifficultyForNextBlock R).1 extra
  generalize Node.complete R (n.getDifficultyForNextBlock R).2 b _ extra = r at hcases ⊢
  cases hcases with
  | returned | pruned => exact h.query.congr rfl rfl rfl
  | recorded left new reward hg hnew hunpruned hreward hdb =>
    have hversion : HardFork.Allows (versionAt n.chain.length) b.vote := by
      simp only [admits, h.check, Bool.and_eq_true, decide_eq_true_eq] at hadmits
      exact hadmits.1.2
    simp only [dbAccepts, Bool.and_eq_true, decide_eq_true_eq] at hdb
    exact h.query.record (queried_topHash R n) hdb.1.1.1 hversion

end Steps

end Glaciem.Chain
