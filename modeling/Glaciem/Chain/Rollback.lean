import Glaciem.Chain.Runs

/-!
# Glaciem — what a failed switch leaves behind

`switch_to_alternative_blockchain` pops the blocks above the fork, adds the alternative ones, and
when one of them fails pops those again and hands the old blocks back to
`handle_block_to_main_chain`. The old blocks are checked once more, against the clock of now and
with transactions that went through the pool.

* `Holds`, `Knows` — a transaction is in the chain or kept in the pool; it is in the chain or in the
  pool at all.
-/

namespace Glaciem.Chain

open List

open HardFork (versionAt)

variable {H : Type} {R : Rules H}

/-! ## The pool when the version changes -/

/-- What the validation of the pool leaves when the version in force goes from `old` to `new`. -/
structure Revalidated (R : Rules H) (old new : Nat) (pool pool' : List (PoolTx H)) : Prop where
  sublist : pool'.Sublist pool
  kept : ∀ t, ⟨t, true⟩ ∈ pool → (new ≠ old → R.nonInputOk new t = true) → ⟨t, true⟩ ∈ pool'
  passed : new ≠ old → ∀ p ∈ pool', p.tx.pruned = false → R.nonInputOk new p.tx = true

theorem revalidated_validateIfChanged (n : Node H) (old : Nat) :
    Revalidated R old (n.validateIfChanged R old).hardFork.version n.pool
      (n.validateIfChanged R old).pool := by
  have hfork : (n.validateIfChanged R old).hardFork = n.hardFork := by
    rw [validateIfChanged_frame]
  rw [hfork]
  refine ⟨validateIfChanged_sublist R n old, ?_, ?_⟩
  · intro t ht hok
    unfold Node.validateIfChanged
    split
    · rename_i hchanged
      exact R.evict_kept _ _ (mem_filter.mpr ⟨ht, by simp [hok hchanged]⟩) rfl
    · exact ht
  · intro hchanged p hp hunpruned
    unfold Node.validateIfChanged at hp
    rw [if_pos hchanged] at hp
    have hfilter := (mem_filter.mp ((R.evict_sublist _).subset hp)).2
    rw [hunpruned, Bool.false_or, Bool.and_eq_true] at hfilter
    exact hfilter.1

theorem versionAt_succ_ne {k : Nat} (h : versionAt (k + 1) ≠ versionAt k) : k = 1 := by
  unfold versionAt at h
  by_contra hk
  split at h <;> split at h <;> omega

/-! ## Transactions that are held, and those that are known -/

def Confirmed (chain : List (Entry H)) (t : Tx H) : Prop := ∃ e ∈ chain, t ∈ e.txs

def Holds (n : Node H) (t : Tx H) : Prop := ⟨t, true⟩ ∈ n.pool ∨ Confirmed n.chain t

def Knows (n : Node H) (t : Tx H) : Prop := (∃ p ∈ n.pool, p.tx = t) ∨ Confirmed n.chain t

variable {rest chain : List (Entry H)}

theorem confirmed_append {t : Tx H} :
    Confirmed (chain ++ rest) t ↔ Confirmed chain t ∨ Confirmed rest t := by
  simp only [Confirmed, mem_append, or_and_right, exists_or]

theorem confirmed_singleton {e : Entry H} {t : Tx H} : Confirmed [e] t ↔ t ∈ e.txs := by
  simp only [Confirmed, mem_singleton, exists_eq_left]

theorem Confirmed.id_mem {t : Tx H} (h : Confirmed chain t) : t.id ∈ bodyIdsOf chain := by
  obtain ⟨e, he, ht⟩ := h
  exact mem_flatMap.mpr ⟨e, he, mem_map_of_mem ht⟩

variable [DecidableEq H]

theorem ValidChain.not_confirmed {t : Tx H} (h : ValidChain R (chain ++ rest))
    (ht : Confirmed rest t) : ¬ Confirmed chain t := by
  intro hchain
  obtain ⟨e, he, hmem⟩ := ht
  obtain ⟨s, r, rfl⟩ := append_of_mem he
  have hnew := (h (chain ++ s) e r (by rw [append_assoc])).new.2.2 t hmem
  refine hnew (bodyIdsOf_subset _ ?_)
  exact (confirmed_append.mpr (.inl hchain)).id_mem

/-! ### Pops -/

section Pop

variable {n n' : Node H} {e : Entry H}

theorem revalidated_popBlock (h : n.Valid R) (hpop : popBlock R n = some (n', e)) :
    Revalidated R (versionAt n.chain.length) (versionAt n'.chain.length)
      (e.txs.foldl (poolKeep R) n.pool) n'.pool := by
  obtain ⟨hvalid', hchain, -, -⟩ := h.popBlock hpop
  have hext := (hchain ▸ h.chain).last
  have hunpruned : (e.txs.filter fun t : Tx H => !t.pruned) = e.txs :=
    filter_eq_self.mpr fun t ht => by simp [hext.unpruned t ht]
  obtain ⟨-, -, heq⟩ := popBlock_eq_some R hpop
  rw [hunpruned, h.currentVersion] at heq
  rw [← hvalid'.currentVersion, heq]
  exact revalidated_validateIfChanged _ _

theorem holds_popBlock {t : Tx H} (h : n.Valid R) (hpop : popBlock R n = some (n', e))
    (ht : Holds n t) (hok : n'.chain.length = 1 → R.nonInputOk (versionAt 1) t = true) :
    Holds n' t := by
  obtain ⟨-, hchain, -, -⟩ := h.popBlock hpop
  have hlen : n.chain.length = n'.chain.length + 1 := by rw [hchain]; simp
  have hpooled : ⟨t, true⟩ ∈ e.txs.foldl (poolKeep R) n.pool → Holds n' t := by
    intro hin
    refine .inl ((revalidated_popBlock h hpop).kept t hin fun hne => ?_)
    rw [hlen] at hne
    have hone := versionAt_succ_ne hne.symm
    rw [hone]
    exact hok hone
  rw [Holds, hchain, confirmed_append, confirmed_singleton] at ht
  rcases ht with hin | hleft | hin
  · exact hpooled (mem_foldl_poolKeep R (.inl hin))
  · exact .inr hleft
  · exact hpooled (mem_foldl_poolKeep R (.inr hin))

theorem knows_popBlock {t : Tx H} (h : n.Valid R) (hpop : popBlock R n = some (n', e))
    (ht : Knows n' t) : Knows n t := by
  obtain ⟨-, hchain, -, -⟩ := h.popBlock hpop
  rw [Knows, hchain, confirmed_append, confirmed_singleton]
  rcases ht with ⟨p, hp, rfl⟩ | hin
  · have hmem := (foldl_poolKeep_sublist R n.pool e.txs).subset
      ((revalidated_popBlock h hpop).sublist.subset hp)
    rcases mem_append.mp hmem with hold | hpopped
    · exact .inl ⟨p, hold, rfl⟩
    · obtain ⟨u, hu, rfl⟩ := mem_map.mp hpopped
      exact .inr (.inr hu)
  · exact .inr (.inl hin)

theorem popBlock_passed {p : PoolTx H} (h : n.Valid R) (hpop : popBlock R n = some (n', e))
    (hlen : n'.chain.length = 1) (hp : p ∈ n'.pool) : R.nonInputOk (versionAt 1) p.tx = true := by
  obtain ⟨hvalid', hchain, -, -⟩ := h.popBlock hpop
  have hbefore : n.chain.length = 2 := by rw [hchain, length_append, hlen]; rfl
  have hpassed := (revalidated_popBlock h hpop).passed
  rw [hlen, hbefore] at hpassed
  exact hpassed (by decide) p hp (hvalid'.pool.unpruned p hp)

end Pop

/-! ### Blocks that bring no transactions -/

section Handle

variable {n : Node H}

variable {pool left : List (PoolTx H)}

theorem revalidated_record {e : Entry H} (h : n.Tracked R)
    (hrecorded : (n.record R pool e).Tracked R) (hne : n.chain ≠ []) :
    Revalidated R (versionAt n.chain.length) (versionAt (n.chain.length + 1)) pool
      (n.record R pool e).pool := by
  have hversion := hrecorded.currentVersion
  rw [(record_frame R n pool e).1, length_append, length_singleton] at hversion
  rw [← hversion, ← h.currentVersion]
  unfold Node.record
  rw [if_neg (by simpa using hne)]
  exact revalidated_validateIfChanged _ _

theorem Gathered.pooled_of_nil {ids : List H} {new : List (Taken H)}
    (hg : Gathered pool [] ids left new) {t : Taken H} (ht : t ∈ new) :
    ∃ p ∈ pool, p.tx = t.tx := by
  cases hfrom : t.fromPool with
  | true => exact hg.pooled t ht hfrom
  | false => exact absurd (hg.brought t ht hfrom) not_mem_nil

theorem Gathered.mem_returnTxs_of_nil {ids : List H} {new : List (Taken H)}
    (hg : Gathered pool [] ids left new) {p : PoolTx H} (hp : p ∈ returnTxs R left new) :
    ∃ q ∈ pool, q.tx = p.tx := by
  rcases mem_append.mp ((foldl_poolKeep_sublist R left _).subset hp) with hleft | hback
  · rw [hg.left_eq] at hleft
    exact ⟨p, (mem_filter.mp hleft).1, rfl⟩
  · obtain ⟨t, ht, rfl⟩ := mem_map.mp hback
    obtain ⟨u, hu, rfl⟩ := mem_map.mp ht
    exact hg.pooled_of_nil (mem_filter.mp hu).1

inductive HandledAlone (R : Rules H) (n : Node H) (b : Block H) : Node H × Bool → Prop
  | refused (m : Node H) (hchain : m.chain = n.chain)
      (hkept : ∀ t, ⟨t, true⟩ ∈ n.pool → ⟨t, true⟩ ∈ m.pool)
      (hold : ∀ p ∈ m.pool, ∃ q ∈ n.pool, q.tx = p.tx) : HandledAlone R n b (m, false)
  | added (m : Node H) (e : Entry H) (hchain : m.chain = n.chain ++ [e])
      (hids : e.txs.map Tx.id = b.txHashes) (htaken : ∀ t ∈ e.txs, ∃ p ∈ n.pool, p.tx = t)
      (hpool : n.chain ≠ [] → Revalidated R (versionAt n.chain.length)
        (versionAt (n.chain.length + 1)) (n.pool.filter fun q => q.tx.id ∉ b.txHashes) m.pool) :
      HandledAlone R n b (m, true)

theorem handledAlone (h : n.Settled R) (now : Nat) (b : Block H) :
    HandledAlone R n b (handleBlockToMainChain R now n b []) := by
  have hsame : ∀ p ∈ n.pool, ∃ q ∈ n.pool, q.tx = p.tx := fun p hp => ⟨p, hp, rfl⟩
  have htracked := h.toTracked.handle now b []
  rcases handle_cases R now n b [] with heq | heq | ⟨-, -, heq⟩
  · rw [heq]
    exact .refused n rfl (fun _ ht => ht) hsame
  · rw [heq]
    exact .refused _ rfl (fun _ ht => ht) hsame
  rw [heq] at htracked ⊢
  have hcases := complete_cases R (n.getDifficultyForNextBlock R).2 b
    (n.getDifficultyForNextBlock R).1 []
  generalize Node.complete R (n.getDifficultyForNextBlock R).2 b _ [] = r at hcases htracked ⊢
  cases hcases with
  | returned done left new invalid success hg =>
    exact .refused _ rfl (fun t ht => mem_returnTxs R h.pool.nodup hg ht)
      fun p hp => hg.mem_returnTxs_of_nil hp
  | pruned left new hg hpruned =>
    -- the pool holds no pruned transactions
    obtain ⟨t, ht, hbad⟩ := hpruned
    obtain ⟨p, hp, hpt⟩ := hg.pooled_of_nil ht
    rw [← hpt, h.pool.unpruned p hp] at hbad
    cases hbad
  | recorded left new reward hg =>
    refine .added _ _ (record_frame R _ left _).1 ?_ ?_ fun hne => ?_
    · exact (map_map ..).trans hg.ids_eq
    · intro t ht
      obtain ⟨u, hu, rfl⟩ := mem_map.mp ht
      exact hg.pooled_of_nil hu
    · have hleft : left = n.pool.filter fun q => q.tx.id ∉ b.txHashes := hg.left_eq
      rw [← hleft]
      exact revalidated_record h.query.toTracked htracked hne

theorem holds_handle (now : Nat) (b : Block H) {t : Tx H} (h : n.Settled R) (hne : n.chain ≠ [])
    (ht : Holds n t)
    (hok : n.chain.length = 1 → (handleBlockToMainChain R now n b []).2 = true →
      t.id ∈ b.txHashes ∨ R.nonInputOk (versionAt 2) t = true) :
    Holds (handleBlockToMainChain R now n b []).1 t := by
  have hcases := handledAlone h now b
  generalize handleBlockToMainChain R now n b [] = r at hcases hok ⊢
  cases hcases with
  | refused m hchain hkept hold =>
    rcases ht with hin | hin
    · exact .inl (hkept t hin)
    · exact .inr (hchain.symm ▸ hin)
  | added m e hchain hids htaken hpool =>
    rw [Holds, hchain, confirmed_append, confirmed_singleton]
    rcases ht with hin | hin
    · by_cases hmem : t.id ∈ b.txHashes
      · -- the block has taken it
        rw [← hids] at hmem
        obtain ⟨u, hu, hid⟩ := mem_map.mp hmem
        obtain ⟨p, hp, rfl⟩ := htaken u hu
        obtain rfl : p = ⟨t, true⟩ := inj_on_of_nodup_map h.pool.nodup hp hin hid
        exact .inr (.inr hu)
      · refine .inl ((hpool hne).kept t (mem_filter.mpr ⟨hin, by simpa using hmem⟩) ?_)
        intro hchanged
        have hone := versionAt_succ_ne hchanged
        rw [hone]
        exact (hok hone rfl).resolve_left hmem
    · exact .inr (.inl hin)

theorem knows_handle (now : Nat) (b : Block H) {t : Tx H} (h : n.Settled R) (hne : n.chain ≠ [])
    (ht : Knows (handleBlockToMainChain R now n b []).1 t) : Knows n t := by
  have hcases := handledAlone h now b
  generalize handleBlockToMainChain R now n b [] = r at hcases ht
  cases hcases with
  | refused m hchain hkept hold =>
    rcases ht with ⟨p, hp, rfl⟩ | hin
    · exact .inl (hold p hp)
    · exact .inr (hchain ▸ hin)
  | added m e hchain hids htaken hpool =>
    rw [Knows, hchain, confirmed_append, confirmed_singleton] at ht
    rcases ht with ⟨p, hp, rfl⟩ | hin | hin
    · exact .inl ⟨p, (mem_filter.mp ((hpool hne).sublist.subset hp)).1, rfl⟩
    · exact .inr hin
    · exact .inl (htaken t hin)

end Handle

/-! ### The loops -/

section Loops

variable {n : Node H} {t : Tx H}

inductive Pops (R : Rules H) : Node H → Node H → Prop
  | refl (n : Node H) : Pops R n n
  | step {n n' m : Node H} {e : Entry H} (hpop : popBlock R n = some (n', e))
      (hrest : Pops R n' m) :
      Pops R n m

omit [DecidableEq H] in
theorem popWhile_pops (more : List (Entry H) → Bool) (fuel : Nat) (n : Node H) :
    Pops R n (popWhile R more fuel n).1 := by
  induction fuel generalizing n with
  | zero => exact .refl n
  | succ fuel ih =>
    unfold popWhile
    split
    · split
      · exact .refl n
      · rename_i n' e hpop
        exact .step hpop (ih n')
    · exact .refl n

variable {m : Node H}

omit [DecidableEq H] in
theorem Pops.eq_of_short (hpops : Pops R n m) (hlen : n.chain.length ≤ 1) : m = n := by
  cases hpops with
  | refl => rfl
  | step hpop hrest =>
    rw [popBlock, if_pos hlen] at hpop
    cases hpop

theorem Pops.holds (hpops : Pops R n m) (h : n.Valid R) (ht : Holds n t)
    (hok : m.chain.length = 1 → R.nonInputOk (versionAt 1) t = true) : Holds m t := by
  induction hpops with
  | refl => exact ht
  | step hpop hrest ih =>
    refine ih (h.popBlock hpop).1 (holds_popBlock h hpop ht fun hlen => hok ?_) hok
    rw [hrest.eq_of_short hlen.le]
    exact hlen

theorem Pops.knows (hpops : Pops R n m) (h : n.Valid R) (ht : Knows m t) : Knows n t := by
  induction hpops with
  | refl => exact ht
  | step hpop hrest ih => exact knows_popBlock h hpop (ih (h.popBlock hpop).1 ht)

theorem Pops.passed {p : PoolTx H} (hpops : Pops R n m) (h : n.Valid R) (hlong : 1 < n.chain.length)
    (hlen : m.chain.length = 1) (hp : p ∈ m.pool) :
    R.nonInputOk (versionAt 1) p.tx = true := by
  induction hpops with
  | refl => exact absurd hlen hlong.ne'
  | @step n n' m e hpop hrest ih =>
    rcases lt_or_ge 1 n'.chain.length with hlong' | hshort
    · exact ih (h.popBlock hpop).1 hlong' hlen hp
    · -- the last pop
      obtain rfl := hrest.eq_of_short hshort
      exact popBlock_passed h hpop hlen hp

theorem holds_addBlocks {now : Nat} {bs : List (Block H)} (h : n.Settled R) (hne : n.chain ≠ [])
    (ht : Holds n t)
    (hok : n.chain.length = 1 → 0 < (addBlocks R now n bs).2 →
      (∃ b ∈ bs.head?, t.id ∈ b.txHashes) ∨ R.nonInputOk (versionAt 2) t = true) :
    Holds (addBlocks R now n bs).1 t := by
  induction bs generalizing n with
  | nil => exact ht
  | cons b rest ih =>
    unfold addBlocks at hok ⊢
    have hheld := holds_handle now b h hne ht
    have hspec := handle_spec h now b []
    generalize handleBlockToMainChain R now n b [] = r at hspec hheld hok ⊢
    cases hspec with
    | refused m hm hchain halts => exact hheld fun _ hadded => by cases hadded
    | added m e hm he hblock hclock hchain halts =>
      have hlen : m.chain.length = n.chain.length + 1 := by rw [hchain]; simp
      refine ih hm (by rw [hchain]; simp) (hheld fun hone _ => ?_) fun hone => ?_
      · have hfirst := hok hone (Nat.succ_pos _)
        simpa using hfirst
      · -- the version does not change above the second block
        have hpos := length_pos_iff.mpr hne
        omega

theorem knows_addBlocks {now : Nat} {bs : List (Block H)} (h : n.Settled R) (hne : n.chain ≠ [])
    (ht : Knows (addBlocks R now n bs).1 t) : Knows n t := by
  induction bs generalizing n with
  | nil => exact ht
  | cons b rest ih =>
    unfold addBlocks at ht
    have hknown := fun (ht : Knows _ t) => knows_handle now b h hne ht
    have hspec := handle_spec h now b []
    generalize handleBlockToMainChain R now n b [] = r at hspec hknown ht
    cases hspec with
    | refused m hm hchain halts => exact hknown ht
    | added m e hm he hblock hclock hchain halts =>
      exact hknown (ih hm (by rw [hchain]; simp) ht)

/-- The first block on genesis brings the second version: what is known before and after the loop is
in that block, or passes the checks of that version. -/
theorem addBlocks_passed (now : Nat) (bs : List (Block H)) (h : n.Settled R)
    (hlen : n.chain.length = 1) (hcount : 0 < (addBlocks R now n bs).2) :
    ∃ e es, (addBlocks R now n bs).1.chain = n.chain ++ e :: es ∧ bs.head? = some e.block
      ∧ ∀ t, Knows (addBlocks R now n bs).1 t →
        Confirmed (n.chain ++ [e]) t ∨ R.nonInputOk (versionAt 2) t = true := by
  have hne : n.chain ≠ [] := ne_nil_of_length_pos (by omega)
  cases bs with
  | nil => exact absurd hcount (lt_irrefl 0)
  | cons b rest =>
    unfold addBlocks at hcount ⊢
    have hspec := handle_spec h now b []
    have halone := handledAlone h now b
    generalize handleBlockToMainChain R now n b [] = r at hspec halone hcount ⊢
    cases hspec with
    | refused => exact absurd hcount (lt_irrefl 0)
    | added m e hm he hblock hclock hchain halts =>
      obtain ⟨es, hes, -⟩ := addBlocks_spec now hm rest
      refine ⟨e, es, ?_, by rw [hblock]; rfl, fun t ht => ?_⟩
      · show (addBlocks R now m rest).1.chain = _
        rw [hes, hchain, append_assoc, singleton_append]
      · have hknown : Knows m t := knows_addBlocks hm (by rw [hchain]; simp) ht
        rw [Knows, hchain] at hknown
        refine hknown.symm.imp_right ?_
        rintro ⟨p, hp, rfl⟩
        cases halone with
        | added _ _ _ _ _ hpool =>
          have hpassed := (hpool hne).passed
          rw [hlen] at hpassed
          exact hpassed (by decide) p hp (hm.pool.unpruned p hp)

theorem addBlocks_restores {now : Nat} {old : List (Entry H)} (h : n.Settled R)
    (hne : n.chain ≠ []) (hvalid : ValidChain R (n.chain ++ old))
    (hclock : ∀ e ∈ old, e.block.timestamp ≤ futureLimit now)
    (hheld : ∀ t, Confirmed old t → Holds n t)
    (hok : n.chain.length = 1 → ∀ t, Confirmed old.tail t → R.nonInputOk (versionAt 2) t = true) :
    (addBlocks R now n (old.map Entry.block)).1.chain = n.chain ++ old := by
  induction old generalizing n with
  | nil => exact (append_nil _).symm
  | cons e rest ih =>
    have htxs : ∀ t ∈ e.txs, Offered n.pool [] t := by
      intro t ht
      have hin : Confirmed (e :: rest) t := ⟨e, mem_cons_self, ht⟩
      exact .inl ⟨_, (hheld t hin).resolve_right (hvalid.not_confirmed hin), rfl⟩
    obtain ⟨m, hhandle, hchain⟩ := handle_of_extends h (hvalid n.chain e rest rfl)
      (hclock e mem_cons_self) h.pool.injOn_offered htxs (by simp)
    have hm : m.Settled R := by
      have hspec := handle_spec h now e.block []
      rw [hhandle] at hspec
      cases hspec
      assumption
    have hheld' : ∀ t, Confirmed rest t → Holds m t := by
      intro t ht
      have hin : Confirmed ([e] ++ rest) t := confirmed_append.mpr (.inr ht)
      have hholds := holds_handle now e.block h hne (hheld t hin)
        fun hone _ => .inr (hok hone t ht)
      rwa [hhandle] at hholds
    rw [append_cons, ← hchain] at hvalid ⊢
    rw [map_cons, addBlocks, hhandle]
    refine ih hm (by rw [hchain]; simp) hvalid (fun e' he' => hclock e' (mem_cons_of_mem _ he'))
      hheld' fun hone => ?_
    rw [hchain, length_append, length_singleton] at hone
    exact absurd (length_eq_zero_iff.mp (Nat.succ.inj hone)) hne

end Loops

/-! ## The way back -/

section WayBack

variable {n : Node H} {now : Nat} {keep old : List (Entry H)}

omit [DecidableEq H] in
theorem topId_append_ne (hnodup : (idsOf (keep ++ old)).Nodup) (hkeep : keep ≠ [])
    (hold : old ≠ []) : topId R (keep ++ old) ≠ topId R keep := by
  obtain ⟨k, x, rfl⟩ : ∃ k x, keep = k ++ [x] := ⟨_, _, (dropLast_append_getLast hkeep).symm⟩
  obtain ⟨o, y, rfl⟩ : ∃ o y, old = o ++ [y] := ⟨_, _, (dropLast_append_getLast hold).symm⟩
  rw [← append_assoc, topId_concat, topId_concat]
  intro heq
  rw [idsOf, map_append] at hnodup
  refine disjoint_of_nodup_append hnodup (a := x.id) ?_ ?_
  · exact mem_map_of_mem (mem_append_right _ (mem_singleton.mpr rfl))
  · exact heq ▸ mem_map_of_mem (mem_append_right _ (mem_singleton.mpr rfl))

theorem disconnect_eq (h : n.Valid R) (hchain : n.chain = keep ++ old) (hkeep : keep ≠ []) :
    (disconnect R n (topId R keep)).1.chain = keep ∧ (disconnect R n (topId R keep)).2 = old := by
  have hnodup := h.nodup
  rw [hchain] at hnodup
  refine popWhile_eq_of_split h.invalidate hchain hkeep (by simp) (fun pre suf heq hpre => ?_) ?_
  · rw [heq, ← append_assoc, idsOf, map_append] at hnodup
    exact decide_eq_true (topId_append_ne hnodup.of_append_left hkeep hpre)
  · rw [hchain, length_append]
    exact Nat.le_add_left _ _

def rollbackStart (R : Rules H) (n : Node H) (height : Nat) : Node H :=
  ((popWhile R (fun chain => chain.length ≠ height) n.chain.length n.invalidate).1.updateWeightLimit
    R).reorganize height

theorem rollback_frame (R : Rules H) (now : Nat) (original : List (Block H)) {height : Nat}
    (hheight : height ≤ n.chain.length) :
    (rollbackBlockchainSwitching R now n original height).chain
        = (addBlocks R now (rollbackStart R n height) original).1.chain := by
  unfold rollbackBlockchainSwitching
  rw [if_neg (not_lt.mpr hheight)]
  dsimp only
  split <;> rfl

theorem rollbackStart_spec (h : n.Settled R) (hchain : n.chain = keep ++ old) (hkeep : keep ≠ []) :
    (rollbackStart R n keep.length).Settled R ∧ (rollbackStart R n keep.length).chain = keep := by
  obtain ⟨hpopped, -, -⟩ := popWhile_spec (fun chain => chain.length ≠ keep.length) n.chain.length
    h.toValid.invalidate
  refine ⟨hpopped.updateWeightLimit.reorganize _, ?_⟩
  refine (popWhile_eq_of_split h.toValid.invalidate hchain hkeep (by simp) ?_ ?_).1
  · intro pre suf heq hpre
    have hpos := length_pos_iff.mpr hpre
    rw [decide_eq_true_iff, length_append]
    omega
  · show old.length ≤ n.chain.length
    rw [hchain, length_append]
    exact Nat.le_add_left _ _

/-- What it takes for the old blocks to come back after the blocks `bs` failed at position `i`.
Above the second block it is the clock alone. If all but genesis was popped, the pool has been
validated at the first version, and at the second one when a block stood on genesis again. -/
structure Restorable (R : Rules H) (now : Nat) (keep old : List (Entry H)) (bs : List (Block H))
    (i : Nat) : Prop where
  clock : ∀ e ∈ old, e.block.timestamp ≤ futureLimit now
  popped : keep.length = 1 → ∀ t, Confirmed old t → R.nonInputOk (versionAt 1) t = true
  tried : keep.length = 1 → 0 < i → ∀ t, Confirmed old t →
    (∃ b ∈ bs.head?, t.id ∈ b.txHashes) ∨ R.nonInputOk (versionAt 2) t = true
  readded : keep.length = 1 → ∀ t, Confirmed old.tail t → R.nonInputOk (versionAt 2) t = true

/-- The old blocks are disconnected and the new ones added, as many as pass. -/
def tryBlocks (R : Rules H) (now : Nat) (n : Node H) (keep : List (Entry H)) (bs : List (Block H)) :
    Node H × Nat := addBlocks R now (disconnect R n (topId R keep)).1 bs

/-- The node after those that passed are popped again. -/
def afterFailure (R : Rules H) (now : Nat) (n : Node H) (keep : List (Entry H))
    (bs : List (Block H)) : Node H := rollbackStart R (tryBlocks R now n keep bs).1 keep.length

variable {bs : List (Block H)} (h : n.Settled R) (hchain : n.chain = keep ++ old)
  (hkeep : keep ≠ [])

include h hchain hkeep

theorem tryBlocks_spec (now : Nat) (bs : List (Block H)) :
    (disconnect R n (topId R keep)).1.Settled R ∧ (disconnect R n (topId R keep)).1.chain = keep
      ∧ (tryBlocks R now n keep bs).1.Settled R
      ∧ (afterFailure R now n keep bs).Settled R ∧ (afterFailure R now n keep bs).chain = keep := by
  obtain ⟨hn₁, -, -⟩ := disconnect_spec h.toValid (topId R keep)
  obtain ⟨hchain₁, -⟩ := disconnect_eq h.toValid hchain hkeep
  obtain ⟨es, hes, -, -, hn₂, -, -⟩ := addBlocks_spec now hn₁ bs
  rw [hchain₁] at hes
  exact ⟨hn₁, hchain₁, hn₂, rollbackStart_spec hn₂ hes hkeep⟩

theorem addBlocks_afterFailure
    (hr : Restorable R now keep old bs (tryBlocks R now n keep bs).2) :
    (addBlocks R now (afterFailure R now n keep bs) (old.map Entry.block)).1.chain = n.chain := by
  obtain ⟨hn₁, hchain₁, hn₂, hm, hchainm⟩ := tryBlocks_spec h hchain hkeep now bs
  -- every transaction of the old blocks comes through the three loops
  have hheld : ∀ t, Confirmed old t → Holds (afterFailure R now n keep bs) t := by
    intro t ht
    have hpopped : Holds (disconnect R n (topId R keep)).1 t := by
      refine (popWhile_pops _ _ n.invalidate).holds h.toValid.invalidate (.inr ?_) fun hlen => ?_
      · rw [show n.invalidate.chain = keep ++ old from hchain]
        exact confirmed_append.mpr (.inr ht)
      · exact hr.popped (hchain₁ ▸ hlen) t ht
    have htried : Holds (tryBlocks R now n keep bs).1 t := by
      refine holds_addBlocks hn₁ (hchain₁.symm ▸ hkeep) hpopped fun hone hpos => ?_
      exact hr.tried (hchain₁ ▸ hone) hpos t ht
    refine (popWhile_pops _ _ _).holds hn₂.toValid.invalidate htried fun hlen => ?_
    exact hr.popped (hchainm ▸ hlen) t ht
  have hvalid := h.chain
  rw [hchain] at hvalid
  rw [hchain, addBlocks_restores hm (hchainm.symm ▸ hkeep) (hchainm.symm ▸ hvalid) hr.clock hheld
    (fun hone => hr.readded (hchainm ▸ hone)), hchainm]

theorem restorable_of_eq
    (heq : (addBlocks R now (afterFailure R now n keep bs) (old.map Entry.block)).1.chain
      = n.chain) : Restorable R now keep old bs (tryBlocks R now n keep bs).2 := by
  obtain ⟨hn₁, hchain₁, hn₂, hm, hchainm⟩ := tryBlocks_spec h hchain hkeep now bs
  have hvalid := h.chain
  rw [hchain] at hvalid heq
  have hne₁ : (disconnect R n (topId R keep)).1.chain ≠ [] := hchain₁.symm ▸ hkeep
  -- the transactions were known all the way
  have hlast : ∀ t, Confirmed old t →
      Knows (addBlocks R now (afterFailure R now n keep bs) (old.map Entry.block)).1 t :=
    fun t ht => .inr (heq.symm ▸ confirmed_append.mpr (.inr ht))
  have hknown₂ : ∀ t, Confirmed old t → Knows (tryBlocks R now n keep bs).1 t := by
    intro t ht
    have hstart := knows_addBlocks hm (hchainm.symm ▸ hkeep) (hlast t ht)
    exact (popWhile_pops _ _ (tryBlocks R now n keep bs).1.invalidate).knows
      hn₂.toValid.invalidate hstart
  refine ⟨?_, fun hone t ht => ?_, fun hone hpos t ht => ?_, fun hone t ht => ?_⟩
  · obtain ⟨es', hes', -, -, -, -, hclock⟩ := addBlocks_spec now hm (old.map Entry.block)
    rw [hchainm, heq] at hes'
    rwa [← append_cancel_left hes'] at hclock
  · rcases knows_addBlocks hn₁ hne₁ (hknown₂ t ht) with ⟨p, hp, rfl⟩ | hin
    · refine (popWhile_pops _ _ n.invalidate).passed h.toValid.invalidate ?_ ?_ hp
      · obtain ⟨e, he, -⟩ := ht
        have hpos := length_pos_of_mem he
        rw [show n.invalidate.chain = keep ++ old from hchain, length_append]
        omega
      · exact (congrArg length hchain₁).trans hone
    · exact absurd (hchain₁ ▸ hin) (hvalid.not_confirmed ht)
  · obtain ⟨e, es', hsplit, hhead, hcases⟩ :=
      addBlocks_passed now bs hn₁ ((congrArg length hchain₁).trans hone) hpos
    refine (hcases t (hknown₂ t ht)).imp_left fun hin => ⟨e.block, hhead, ?_⟩
    rw [hchain₁, confirmed_append, confirmed_singleton] at hin
    rw [← (hn₂.chain _ e es' hsplit).hashes]
    exact mem_map_of_mem (hin.resolve_left (hvalid.not_confirmed ht))
  · cases old with
    | nil =>
      obtain ⟨e, he, -⟩ := ht
      exact absurd he not_mem_nil
    | cons e₀ rest =>
      obtain ⟨es', hes', -, hlen, -⟩ := addBlocks_spec now hm ((e₀ :: rest).map Entry.block)
      rw [hchainm, heq] at hes'
      rw [← append_cancel_left hes'] at hlen
      obtain ⟨e, es, hsplit, -, hcases⟩ :=
        addBlocks_passed now ((e₀ :: rest).map Entry.block) hm
          ((congrArg length hchainm).trans hone) (by rw [← hlen]; exact Nat.succ_pos _)
      rw [hchainm, heq] at hsplit
      obtain ⟨rfl, -⟩ := cons.inj (append_cancel_left hsplit)
      have hin : Confirmed ([e₀] ++ rest) t := confirmed_append.mpr (.inr ht)
      rw [append_cons] at hvalid
      rw [hchainm] at hcases
      exact (hcases t (hlast t hin)).resolve_left (hvalid.not_confirmed ht)

end WayBack

/-! ## How a switch ends -/

section Switch

/-- The alternative chain leaves the main chain after the blocks `keep`, and the cap allows it. -/
structure Forks (R : Rules H) (n : Node H) (alt : List (AltBlock H)) (keep old : List (Entry H)) :
    Prop where
  cap : ∀ front, alt.head? = some front → tooDeep n.chain front.height = false
  parent : ∀ front, alt.head? = some front → front.block.prevId = topId R keep
  chain : n.chain = keep ++ old
  keep : keep ≠ []

inductive Switched (R : Rules H) (now : Nat) (handle : Node H → Block H → Option (Node H × Bool))
    (n : Node H) (alt : List (AltBlock H)) (discard : Bool) : Node H × Bool → Prop
  | refused : Switched R now handle n alt discard (n.invalidate, false)
  | failed (m : Node H) (keep old : List (Entry H)) (hforks : Forks R n alt keep old)
      (hm : m.Settled R) (halts : m.alts ⊆ n.alts)
      (hback : m.chain = (addBlocks R now (afterFailure R now n keep (alt.map AltBlock.block))
        (old.map Entry.block)).1.chain) :
      Switched R now handle n alt discard (m, false)
  | switched (m m' : Node H) (keep old es : List (Entry H)) (hforks : Forks R n alt keep old)
      (hm : m.Settled R) (hchain : m.chain = keep ++ es)
      (hblocks : es.map Entry.block = alt.map AltBlock.block) (halts : m.alts = n.alts)
      (hpush : pushAll handle m (if discard then [] else old.map Entry.block) = some m') :
      Switched R now handle n alt discard (({ m' with
        alts := removeAlts m'.alts (alt.map fun a => R.blockId a.block) } : Node H).reorganize
          keep.length, true)

theorem switch_cases {now : Nat} {handle : Node H → Block H → Option (Node H × Bool)} {n : Node H}
    {alt : List (AltBlock H)} {discard : Bool} {r : Node H × Bool} (h : n.Settled R)
    (hswitch : switchToAlternativeBlockchain R now handle n alt discard = some r) :
    Switched R now handle n alt discard r := by
  rcases switch_inv hswitch with
    rfl | ⟨front, n₁, old, n₂, count, hfront, hcap, hconnects, hdisconnect, hadd, hend⟩
  · exact .refused
  -- the blocks up to the parent of the first alternative block
  obtain ⟨e, he, hid⟩ := mem_map.mp hconnects
  obtain ⟨s, old', hsplit⟩ := append_of_mem he
  rw [append_cons] at hsplit
  have hparent : front.block.prevId = topId R (s ++ [e]) := by rw [topId_concat, hid]
  rw [hparent] at hdisconnect
  obtain ⟨hchain₁, hold₁⟩ := disconnect_eq h.toValid hsplit (by simp)
  obtain ⟨hn₁, -, halts₁⟩ := disconnect_spec h.toValid (topId R (s ++ [e]))
  obtain ⟨es, hes, hblocks, -, hn₂, halts₂, -⟩ := addBlocks_spec now hn₁ (alt.map AltBlock.block)
  have hback : afterFailure R now n (s ++ [e]) (alt.map AltBlock.block)
      = rollbackStart R n₂ (s ++ [e]).length := by
    rw [afterFailure, tryBlocks, hdisconnect, hadd]
  rw [hdisconnect] at hchain₁ hold₁ halts₁ hes hblocks hn₂ halts₂
  rw [hadd] at hes hblocks hn₂ halts₂
  obtain rfl : old = old' := hold₁
  have hforks : Forks R n alt (s ++ [e]) old := by
    refine ⟨fun front' hfront' => ?_, fun front' hfront' => ?_, hsplit, by simp⟩
    · rw [← Option.mem_unique hfront hfront']
      exact hcap
    · rw [← Option.mem_unique hfront hfront']
      exact hparent
  rw [show n₁.chain = s ++ [e] from hchain₁] at hes hend
  rcases hend with ⟨n₃, ids, rfl, rfl⟩ | ⟨m', hcount, hpush, rfl⟩
  · obtain ⟨hn₃, halts₃, -⟩ := rollback_spec now hn₂ (old.map Entry.block) (s ++ [e]).length
    refine .failed _ _ old hforks (hn₃.withAlts _) ?_ ?_
    · show removeAlts _ _ ⊆ n.alts
      rw [halts₃, halts₂, halts₁]
      exact filter_subset_self _
    · rw [hback]
      exact rollback_frame R now (old.map Entry.block) (by rw [hes]; simp)
  · refine .switched _ m' _ old es hforks hn₂ hes ?_ (halts₂.trans halts₁) hpush
    rw [hblocks, take_of_length_le]
    rw [hcount, length_map]

end Switch

/-! ## A failed switch -/

section Failed

def HasParent (n : Node H) (a : AltBlock H) : Prop :=
  a.block.prevId ∈ idsOf n.chain ∨ a.block.prevId ∈ n.alts.map AltBlock.id

/-- Everything is as before the call: the chain, the transactions of the disconnected blocks `old`,
and the parents of the alternative blocks. -/
structure Restored (n n' : Node H) (old : List (Entry H)) : Prop where
  chain : n'.chain = n.chain
  txs : ∀ t, Confirmed old t → Confirmed n'.chain t ∧ t.id ∉ poolIds n'.pool
  parents : ∀ a ∈ n'.alts, HasParent n a → HasParent n' a

/-- No alternative block is stored on one of the blocks `ids` but these themselves, unless the
chain has it too. -/
def NoneOrphaned (n : Node H) (ids : List H) : Prop :=
  ∀ a ∈ n.alts, a.id ∉ ids → a.block.prevId ∈ ids → a.block.prevId ∈ n.alts.map AltBlock.id →
    a.block.prevId ∈ idsOf n.chain

theorem hasParent_removeAlts_iff (n n' : Node H) {ids : List H} (hchain : n'.chain = n.chain)
    (halts : n'.alts = removeAlts n.alts ids) :
    (∀ a ∈ n'.alts, HasParent n a → HasParent n' a) ↔ NoneOrphaned n ids := by
  have hids : ∀ id, id ∈ n'.alts.map AltBlock.id ↔ id ∈ n.alts.map AltBlock.id ∧ id ∉ ids := by
    intro id
    rw [halts]
    simp only [removeAlts, mem_map, mem_filter, decide_eq_true_eq]
    constructor
    · rintro ⟨a, ⟨ha, hnot⟩, rfl⟩
      exact ⟨⟨a, ha, rfl⟩, hnot⟩
    · rintro ⟨⟨a, ha, rfl⟩, hnot⟩
      exact ⟨a, ⟨ha, hnot⟩, rfl⟩
  have hmem : ∀ a, a ∈ n'.alts ↔ a ∈ n.alts ∧ a.id ∉ ids := by
    intro a
    rw [halts, removeAlts, mem_filter, decide_eq_true_iff]
  unfold NoneOrphaned HasParent
  simp only [hmem, hids, hchain]
  constructor
  · intro hall a ha hid hprev hstored
    exact (hall a ⟨ha, hid⟩ (.inr hstored)).resolve_right fun hkept => hkept.2 hprev
  · rintro hall a ⟨ha, hid⟩ (hin | hstored)
    · exact .inl hin
    · by_cases hprev : a.block.prevId ∈ ids
      · exact .inl (hall a ha hid hprev hstored)
      · exact .inr ⟨hstored, hprev⟩

omit [DecidableEq H] in
theorem topId_mem {keep : List (Entry H)} (hkeep : keep ≠ []) : topId R keep ∈ idsOf keep := by
  obtain ⟨k, x, rfl⟩ : ∃ k x, keep = k ++ [x] := ⟨_, _, (dropLast_append_getLast hkeep).symm⟩
  rw [topId_concat]
  exact mem_map_of_mem (mem_append_right _ (mem_singleton.mpr rfl))

/-- Take a node in order, an alternative chain that starts on the last block of `keep` within the
cap, and the position `i` at which it fails. The switch leaves everything as it was exactly when the
old blocks can come back and no alternative block that stays was stored on one of those that go. -/
theorem failed_switch_restores_iff (R : Rules H) (now : Nat)
    (handle : Node H → Block H → Option (Node H × Bool)) (n : Node H) (hn : n.Settled R)
    (front : AltBlock H) (rest : List (AltBlock H)) (discard : Bool) (keep old : List (Entry H))
    (hchain : n.chain = keep ++ old) (hkeep : keep ≠ [])
    (hparent : front.block.prevId = topId R keep) (hcap : tooDeep n.chain front.height = false)
    (i : Nat) (hi : i < (front :: rest).length)
    (hfail : (addBlocks R now (disconnect R n front.block.prevId).1
      ((front :: rest).map AltBlock.block)).2 = i) :
    ∃ n', switchToAlternativeBlockchain R now handle n (front :: rest) discard = some (n', false)
      ∧ (Restored n n' old ↔ Restorable R now keep old ((front :: rest).map AltBlock.block) i
        ∧ NoneOrphaned n (((front :: rest).drop i).map fun a => R.blockId a.block)) := by
  obtain ⟨hchain₁, hold₁⟩ := disconnect_eq hn.toValid hchain hkeep
  obtain ⟨hn₁, -, halts₁⟩ := disconnect_spec hn.toValid (topId R keep)
  rw [hparent] at hfail
  have hconnects : ¬ front.block.prevId ∉ idsOf n.chain := by
    rw [not_not, hparent, hchain, idsOf, map_append]
    exact mem_append_left _ (topId_mem hkeep)
  unfold switchToAlternativeBlockchain
  dsimp only
  rw [hcap, if_neg Bool.false_ne_true, if_neg hconnects, hparent, hold₁, hchain₁, hfail,
    if_pos hi.ne]
  generalize (front :: rest).map AltBlock.block = bs at hfail ⊢
  obtain ⟨es, hes, -, -, hn₂, halts₂, -⟩ := addBlocks_spec now hn₁ bs
  obtain ⟨hn₃, halts₃, -⟩ := rollback_spec now hn₂ (old.map Entry.block) keep.length
  have hframe := rollback_frame R now (old.map Entry.block)
    (show keep.length ≤ (tryBlocks R now n keep bs).1.chain.length by
      rw [tryBlocks, hes, hchain₁, length_append]
      exact Nat.le_add_right _ _)
  rw [halts₂, halts₁] at halts₃
  refine ⟨_, rfl, ?_⟩
  -- the chain comes back exactly when the condition holds; the rest follows from the chain
  have hback : (rollbackBlockchainSwitching R now (addBlocks R now
      (disconnect R n (topId R keep)).1 bs).1 (old.map Entry.block) keep.length).chain = n.chain
      ↔ Restorable R now keep old bs i := by
    rw [← tryBlocks, hframe, ← hfail]
    exact ⟨restorable_of_eq hn hchain hkeep, addBlocks_afterFailure hn hchain hkeep⟩
  generalize rollbackBlockchainSwitching R now _ _ _ = n₃ at hn₃ halts₃ hback ⊢
  have hiff := fun hsame => hasParent_removeAlts_iff n ({ n₃ with
    alts := removeAlts n₃.alts (((front :: rest).drop i).map fun a => R.blockId a.block) } : Node H)
    hsame (congrArg (removeAlts · _) halts₃)
  constructor
  · rintro ⟨hsame, -, hparents⟩
    exact ⟨hback.mp hsame, (hiff hsame).mp hparents⟩
  · rintro ⟨hrestorable, hnone⟩
    have hsame := hback.mpr hrestorable
    refine ⟨hsame, fun t ht => ?_, (hiff hsame).mpr hnone⟩
    have hin : Confirmed n₃.chain t := by
      rw [hsame, hchain]
      exact confirmed_append.mpr (.inr ht)
    refine ⟨hin, fun hpool => ?_⟩
    obtain ⟨p, hp, hid⟩ := mem_map.mp hpool
    exact hn₃.pool.fresh p hp (hid ▸ hin.id_mem)

def earlyClock : Nat := afterLaunch 600

/-- A block dated almost three hours ahead of a clock ten minutes after the launch. As an
alternative block it is stored, on the main chain it is refused. -/
def aheadBlock (id height prev : Nat) : Block Nat :=
  sampleBlock id height prev (afterLaunch 10800 + 120 * height) [] 0

def aheadArrival (id height prev : Nat) : Event Nat :=
  .addNewBlock earlyClock 2 (aheadBlock id height prev) []

/-- Two blocks beside each other on genesis: the chain of the first has a transaction, and that of
the second goes on with a block dated ahead. -/
def forkOnGenesis : List (Event Nat) :=
  let clock := fun height => afterLaunch (120 * height)
  steadyBlocks 1 ++ [.addTx (sampleTx 50 5),
    .addNewBlock (clock 1) 1 (sampleBlock 2 1 1 (clock 1) [50] 5) [],
    .addNewBlock (clock 2) 1 (sampleBlock 3 2 2 (clock 2) [] 0) [],
    .addNewBlock (clock 5) 1 (sampleBlock 102 1 1 (clock 1) [] 0) [], aheadArrival 103 2 102]

theorem failed_switch_restores_sample : ∃ n front last n',
    (blockchain openRules).exec (Node.init openRules) forkOnGenesis = some n
      ∧ n.alts = [front, last] ∧ Confirmed (n.chain.drop 1) (sampleTx 50 5)
      ∧ switchToAlternativeBlockchain openRules earlyClock (fun _ _ => none) n [front, last] false
        = some (n', false)
      ∧ Restored n n' (n.chain.drop 1) := by
  have hrun : ((blockchain openRules).exec (Node.init openRules) forkOnGenesis).map (fun n =>
      (idsOf n.chain,
        n.alts.map fun a => [a.id, openRules.blockId a.block, a.block.prevId, a.height],
        (addBlocks openRules earlyClock (disconnect openRules n 1).1 (n.alts.map AltBlock.block)).2,
        n.chain.all fun e => e.block.timestamp ≤ futureLimit earlyClock,
        decide ((n.chain.drop 1).flatMap Entry.txs = [sampleTx 50 5])))
      = some ([1, 2, 3], [[102, 102, 1, 1], [103, 103, 102, 2]], 1, true, true) := by decide +kernel
  obtain ⟨n, hn, hsum⟩ := Option.map_eq_some_iff.mp hrun
  simp only [Prod.mk.injEq] at hsum
  obtain ⟨hids, halts, hcount, hclock, htxs⟩ := hsum
  obtain ⟨front, last, hfront⟩ : ∃ front last, n.alts = [front, last] :=
    length_eq_two.mp (by simpa using congrArg length halts)
  rw [hfront] at halts hcount
  simp only [map_cons, map_nil, cons.injEq, and_true] at halts
  obtain ⟨⟨hid, -, hprev, hheight⟩, hid', hblockId', -⟩ := halts
  have hlen : n.chain.length = 3 := by simpa [idsOf] using congrArg length hids
  have htop : topId openRules (n.chain.take 1) = 1 := by
    rw [topId, idsOf, map_take, show n.chain.map Entry.id = _ from hids]
    rfl
  have hpaid : ∀ t, Confirmed (n.chain.drop 1) t ↔ t = sampleTx 50 5 := fun t => by
    rw [Confirmed, ← mem_flatMap, of_decide_eq_true htxs, mem_singleton]
  have hopen : ∀ t, Confirmed (n.chain.drop 1) t → ∀ v, openRules.nonInputOk v t = true :=
    fun t ht _ => by rw [(hpaid t).mp ht]; rfl
  obtain ⟨n', hswitch, hiff⟩ := failed_switch_restores_iff openRules earlyClock
    (fun _ _ => none) n (settled_of_exec hn) front [last] false
    (n.chain.take 1) (n.chain.drop 1) (take_append_drop 1 _).symm
    (ne_nil_of_length_pos (by rw [length_take, hlen]; decide)) (by rw [hprev, htop])
    (by rw [tooDeep, hheight, hlen]; decide) 1 Nat.one_lt_two (by rw [hprev]; exact hcount)
  refine ⟨n, front, last, n', hn, hfront, (hpaid _).mpr rfl, hswitch, hiff.mpr
    ⟨⟨?_, fun _ t ht => hopen t ht _, fun _ _ t ht => .inr (hopen t ht _), ?_⟩, ?_⟩⟩
  · intro e he
    exact of_decide_eq_true (all_eq_true.mp hclock e (mem_of_mem_drop he))
  · rintro - t ⟨e, he, ht⟩
    exact hopen t ⟨e, mem_of_mem_tail he, ht⟩ _
  · intro a ha hnot hparent
    rw [hfront] at ha
    rcases mem_pair.mp ha with rfl | rfl
    · -- the block that stays is on genesis
      rw [hprev] at hparent
      exact absurd hparent (by simp [hblockId'])
    · exact absurd (by rw [hid']; simp [hblockId']) hnot

/-- The switch to the chain of 106 fails at 103, which is dated ahead of the clock. 103 to 106 are
removed; 114, stored on 103, stays without its parent. -/
theorem failed_switch_orphans :
    let fork := [aheadArrival 103 3 3, aheadArrival 114 4 103, aheadArrival 104 4 103,
      aheadArrival 105 5 104]
    let before := (blockchain openRules).exec (Node.init openRules) (steadyBlocks 6 ++ fork)
    let blocks := fun n : Node Nat => (idsOf n.chain, n.alts.map fun a => (a.id, a.block.prevId))
    before.map blocks
        = some ([1, 2, 3, 4, 5, 6], [(103, 3), (114, 103), (104, 103), (105, 104)])
      ∧ (before.bind fun n => addNewBlock openRules (afterLaunch 600) 2 n
          (aheadBlock 106 6 105) []).map (fun r => (r.2, blocks r.1))
        = some (false, [1, 2, 3, 4, 5, 6], [(114, 103)]) := by
  decide +kernel

end Failed

end Glaciem.Chain
