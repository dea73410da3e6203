import Glaciem.Chain.Batches
import Glaciem.Chain.Rollback

/-!
# Glaciem — finality of the reorg cap

`CRYPTONOTE_MAX_REORG_DEPTH` bounds the depth of one switch, measured on the chain it finds. A
switch to a heavier but shorter chain therefore brings blocks within reach of the next switch that
were out of reach before, and the cap as such makes no block final (`deep_block_removed`).
-/

namespace Glaciem.Chain

open List

open HardFork (versionAt)

variable {H : Type} [DecidableEq H] {R : Rules H} {S : Set (Block H)}

variable {a : AltBlock H} {alt : List (AltBlock H)} {fork depth now : Nat}
  {chain old keep pre post : List (Entry H)} {e : Entry H} {n : Node H} {r : Node H × Bool}

theorem Built.front_concat (hbuilt : Built R S chain alt a.block.prevId fork)
    (hvalid : ValidChain R chain) (hlineage : Lineage R S a (lineOf chain alt fork ++ [a.block]))
    {front : AltBlock H} (hfront : (alt ++ [a]).head? = some front) :
    front.height = fork ∧ front.block.prevId = topId R (chain.take fork) := by
  cases alt with
  | cons a' rest => exact hbuilt.front front hfront
  | nil =>
    obtain rfl : a = front := Option.some.inj hfront
    have hlower : ValidChain R (chain.take fork) := by
      rw [← take_append_drop fork chain] at hvalid
      exact hvalid.of_append
    have hheight := hlineage.height
    rw [length_append, length_lineOf hbuilt.le] at hheight
    refine ⟨Nat.succ.inj hheight, ?_⟩
    rw [hlower.topId_eq, ← hbuilt.tip, lineOf, map_nil, append_nil]

omit [DecidableEq H] in
theorem eq_take_of_topId (hnodup : (idsOf chain).Nodup) (hchain : chain = keep ++ old)
    (hkeep : keep ≠ []) (hpos : 0 < fork) (hle : fork ≤ chain.length)
    (htop : topId R keep = topId R (chain.take fork)) :
    keep = chain.take fork := by
  have htake : chain.take keep.length = keep := by rw [hchain]; simp
  have hpart : ∀ {j k : Nat}, 0 < j → j < k → k ≤ chain.length →
      topId R (chain.take k) ≠ topId R (chain.take j) := by
    intro j k hj hjk hk
    have hsplit : chain.take k = chain.take j ++ (chain.drop j).take (k - j) := by
      rw [← take_add, Nat.add_sub_cancel' hjk.le]
    have hids : (idsOf (chain.take k)).Nodup := by
      rw [idsOf, map_take]
      exact hnodup.sublist (take_sublist _ _)
    rw [hsplit] at hids ⊢
    refine topId_append_ne hids (ne_nil_of_length_pos ?_) (ne_nil_of_length_pos ?_)
    · rw [length_take]
      omega
    · rw [length_take, length_drop]
      omega
  have hlen : keep.length ≤ chain.length := by rw [hchain]; simp
  have hposk := length_pos_iff.mpr hkeep
  rw [← htake] at htop
  rcases lt_trichotomy keep.length fork with hlt | heq | hgt
  · exact absurd htop.symm (hpart hposk hlt hle)
  · rw [← heq, htake]
  · exact absurd htop (hpart hpos hgt hlen)

/-! ## No nested switches -/

theorem difficultyOf_of_lineage {bs : List (Block H)} (hvalid : ValidChain R chain)
    (hlineage : Lineage R S a bs) (hblocks : chain.map Entry.block = bs) :
    difficultyOf chain = a.cumulativeDifficulty := by
  rw [difficultyOf_eq, hvalid.stampsOf_eq, hblocks, hlineage.difficulty]

theorem Lineage.difficulty_eq (hinj : Set.InjOn R.blockId S) (hvalid : ValidChain R chain)
    (hS : ∀ e ∈ chain, e.block ∈ S) (hsplit : chain = pre ++ e :: post) {bs : List (Block H)}
    (h : Lineage R S a bs) (hblock : a.block = e.block) :
    a.cumulativeDifficulty = e.cumulativeDifficulty := by
  have hlower : ValidChain R (pre ++ [e]) := by
    rw [hsplit, append_cons] at hvalid
    exact hvalid.of_append
  have hline : bs = (pre ++ [e]).map Entry.block := by
    refine Linked.eq_of_getLast? hinj h.linked hlower.linked h.known (fun b hb => ?_) ?_
    · obtain ⟨e', he', rfl⟩ := mem_map.mp hb
      refine hS e' ?_
      rw [hsplit, append_cons]
      exact mem_append_left _ he'
    · rw [h.last, hblock, map_append, map_singleton, getLast?_concat]
  rw [h.difficulty, hline, ← hlower.stampsOf_eq, stampsOf_concat, cumulativeOf_concat]
  rfl

theorem no_nested_switch (hinj : Set.InjOn R.blockId S) (hvalid : ValidChain R chain)
    (hS : ∀ e ∈ chain, e.block ∈ S) (hsplit : chain = pre ++ e :: post) {m m' : Node H}
    (hlighter : e.cumulativeDifficulty ≤ difficultyOf m.chain)
    (hcheckpoints : ∀ p ∈ R.checkpoints, p.1 = pre.length → p.1 ≤ m.chain.length) {discard : Bool} :
    ¬ Placed R S m e.block (.switch m' alt discard) := by
  intro hplaced
  cases hplaced with
  | switch _ alt a fork _ _ _ hbuilt hblock hlineage hheight hallowed hwhy =>
    have hposition : e.block.height = pre.length := by
      rw [Block.height, (hvalid pre e post hsplit).genHeight_eq]
      rfl
    rcases hwhy with ⟨-, p, hp, hpa⟩ | ⟨-, hheavier⟩
    · -- below the end of the chain a checkpoint forbids alternative blocks
      have hle := hcheckpoints p hp (by rw [hpa, ← hheight, hposition])
      have hbelow := hallowed p hp hle
      omega
    · rw [hlineage.difficulty_eq hinj hvalid hS hsplit hblock] at hheavier
      omega

theorem placed_invalidate (hinj : Set.InjOn R.blockId S) (h : n.Settled R) (hn : n.Certified R S)
    {b : Block H} (hb : b ∈ S) (extra : List (Tx H)) :
    Placed R S n b (placeAlternativeBlock R n.invalidate b extra) := by
  have hplaced := placed hinj h.invalidate.chain (hn.congr rfl (Subset.refl _)) hb extra
  generalize placeAlternativeBlock R n.invalidate b extra = outcome at hplaced ⊢
  cases hplaced with
  | done n' ok hchain hn' => exact .done n' ok hchain hn'
  | switch n' alt a fork discard hchain hn' hbuilt hblock hlineage hheight hallowed hwhy =>
    exact .switch n' alt a fork discard hchain hn' hbuilt hblock hlineage hheight hallowed hwhy

structure Rests (R : Rules H) (S : Set (Block H)) (chain : List (Entry H)) (n : Node H) : Prop where
  settled : n.Settled R
  certified : n.Certified R S
  chain_eq : n.chain = chain

theorem rests_handleAlternativeBlock (hinj : Set.InjOn R.blockId S) {new : List (Entry H)}
    (hvalid : ValidChain R chain) (hS : ∀ e ∈ chain, e.block ∈ S)
    (hsplit : chain = pre ++ e :: post) (hlighter : e.cumulativeDifficulty ≤ difficultyOf new)
    (hcheckpoints : ∀ p ∈ R.checkpoints, p.1 = pre.length → p.1 ≤ new.length) {m : Node H}
    (hm : Rests R S new m) (hr : handleAlternativeBlock R now depth m e.block [] = some r) :
    Rests R S new r.1 := by
  obtain ⟨hsettled, hcertified, rfl⟩ := hm
  cases depth with
  | zero => cases hr
  | succ depth =>
    have hmem : e ∈ chain := by rw [hsplit]; simp
    have hplaced := placed_invalidate hinj hsettled hcertified (hS e hmem) []
    have hnode := settled_place hsettled.invalidate e.block []
    rcases handleAlternativeBlock_cases hr with hdone | ⟨m', alt, discard, hplace, -⟩
    · rw [hdone] at hplaced hnode
      cases hplaced with
      | done _ _ hchain hm' => exact ⟨hnode, hm', hchain⟩
    · rw [hplace] at hplaced
      exact absurd hplaced (no_nested_switch hinj hvalid hS hsplit hlighter hcheckpoints)

/-! ## One alternative block -/

inductive Moved (now : Nat) (chain : List (Entry H)) (b : Block H) : List (Entry H) → Prop
  | same : Moved now chain b chain
  | failed (chain' keep old : List (Entry H)) (hchain : chain = keep ++ old)
      (hcap : tooDeep chain keep.length = false)
      (hback : 1 < keep.length → (∀ e ∈ chain, e.block.timestamp ≤ futureLimit now) →
        chain' = chain) :
      Moved now chain b chain'
  | switched (keep old es : List (Entry H)) (hchain : chain = keep ++ old)
      (hcap : tooDeep chain keep.length = false) (hlen : (keep ++ es).length = b.height + 1) :
      Moved now chain b (keep ++ es)

theorem Forks.keep_eq (hforks : Forks R n (alt ++ [a]) keep old) (h : n.Settled R)
    (hbuilt : Built R S n.chain alt a.block.prevId fork)
    (hlineage : Lineage R S a (lineOf n.chain alt fork ++ [a.block])) :
    keep = n.chain.take fork ∧ keep.length = fork ∧ tooDeep n.chain keep.length = false := by
  obtain ⟨front, hfront⟩ : ∃ front, (alt ++ [a]).head? = some front :=
    ⟨_, head?_eq_some_head (by simp)⟩
  obtain ⟨hheight, hprev⟩ := hbuilt.front_concat h.chain hlineage hfront
  have heq := eq_take_of_topId h.nodup hforks.chain hforks.keep hbuilt.pos hbuilt.le
    ((hforks.parent front hfront).symm.trans hprev)
  have hlen : keep.length = fork := by rw [heq, length_take, Nat.min_eq_left hbuilt.le]
  refine ⟨heq, hlen, ?_⟩
  rw [hlen, ← hheight]
  exact hforks.cap front hfront

section Switch

variable (hinj : Set.InjOn R.blockId S) {discard : Bool} (h : n.Settled R)
  (hn : n.Certified R S) (hbuilt : Built R S n.chain alt a.block.prevId fork)
  (hlineage : Lineage R S a (lineOf n.chain alt fork ++ [a.block]))
  (hallowed : ∀ p ∈ R.checkpoints, p.1 ≤ n.chain.length → p.1 < a.height)
  (hheavier : discard = false → difficultyOf n.chain < a.cumulativeDifficulty)
  (hmax : ∀ e ∈ n.chain, e.cumulativeDifficulty ≤ difficultyOf n.chain)

include hinj h hn hbuilt hlineage hallowed hheavier hmax

theorem switched_rests {m m' : Node H} {es : List (Entry H)}
    (hforks : Forks R n (alt ++ [a]) keep old) (hm : m.Settled R) (hchain : m.chain = keep ++ es)
    (hblocks : es.map Entry.block = (alt ++ [a]).map AltBlock.block) (halts : m.alts = n.alts)
    (hpush : pushAll (fun m c => handleAlternativeBlock R now depth m c []) m
      (if discard then [] else old.map Entry.block) = some m') :
    m.chain.map Entry.block = lineOf n.chain alt fork ++ [a.block] ∧ m'.chain = m.chain := by
  obtain ⟨hkeep, -, -⟩ := hforks.keep_eq h hbuilt hlineage
  have hline : m.chain.map Entry.block = lineOf n.chain alt fork ++ [a.block] := by
    rw [hchain, map_append, hblocks, hkeep, lineOf, map_append, append_assoc]
    rfl
  have hlen : m.chain.length = a.height + 1 := by
    rw [hlineage.height, ← hline, length_map]
  have hrests : Rests R S m.chain m := by
    refine ⟨hm, ⟨fun e he => hlineage.known _ ?_, halts ▸ hn.alts⟩, rfl⟩
    rw [← hline]
    exact mem_map_of_mem he
  refine ⟨hline, ?_⟩
  cases discard with
  | true =>
    cases hpush
    rfl
  | false =>
    -- each old block is lighter than the new chain
    refine Rests.chain_eq (pushAll_preserves (fun {m₁ c r} hc hm₁ hhandle => ?_) hrests hpush)
    obtain ⟨e, he, rfl⟩ := mem_map.mp hc
    obtain ⟨s, t, rfl⟩ := append_of_mem he
    have hsplit : n.chain = (keep ++ s) ++ e :: t := by rw [hforks.chain, append_assoc]
    refine rests_handleAlternativeBlock hinj h.chain hn.chain hsplit ?_ ?_ hm₁ hhandle
    · rw [difficultyOf_of_lineage hm.chain hlineage hline]
      exact (hmax e (by rw [hsplit]; simp)).trans (hheavier rfl).le
    · intro p hp hpe
      have hbelow : p.1 ≤ n.chain.length := by rw [hpe, hsplit]; simp
      have habove := hallowed p hp hbelow
      omega

theorem switch_moved (hheight : a.block.height = a.height)
    (hr : switchToAlternativeBlockchain R now (fun m c => handleAlternativeBlock R now depth m c [])
      n (alt ++ [a]) discard = some r) :
    Moved now n.chain a.block r.1.chain := by
  have hcases := switch_cases h hr
  cases hcases with
  | refused => exact .same
  | failed m keep old hforks hm halts hback =>
    obtain ⟨-, -, hcap⟩ := hforks.keep_eq h hbuilt hlineage
    refine .failed _ keep old hforks.chain hcap fun hlong hclock => ?_
    rw [hback]
    refine addBlocks_afterFailure h hforks.chain hforks.keep ⟨fun e he => hclock e ?_, ?_, ?_, ?_⟩
    · rw [hforks.chain]
      exact mem_append_right _ he
    all_goals exact fun hone => absurd hone hlong.ne'
  | switched m m' keep old es hforks hm hchain hblocks halts hpush =>
    obtain ⟨-, -, hcap⟩ := hforks.keep_eq h hbuilt hlineage
    obtain ⟨hline, hsame⟩ := switched_rests hinj h hn hbuilt hlineage hallowed hheavier hmax hforks
      hm hchain hblocks halts hpush
    have hlen : m.chain.length = a.block.height + 1 := by
      have hlength := congrArg length hline
      rw [length_map, ← hlineage.height] at hlength
      rw [hlength, hheight]
    show Moved now n.chain a.block m'.chain
    rw [hsame, hchain]
    exact .switched keep old es hforks.chain hcap (hchain ▸ hlen)

end Switch

theorem handleAlternativeBlock_moved (hinj : Set.InjOn R.blockId S) {b : Block H}
    {extra : List (Tx H)} (h : n.Settled R) (hn : n.Certified R S) (hb : b ∈ S)
    (hmax : ∀ n' alt discard, placeAlternativeBlock R n.invalidate b extra
      = .switch n' alt discard → ∀ e ∈ n.chain, e.cumulativeDifficulty ≤ difficultyOf n.chain)
    (hr : handleAlternativeBlock R now depth n b extra = some r) :
    r.1.chain = n.chain
      ∨ (∃ n' alt discard, placeAlternativeBlock R n.invalidate b extra = .switch n' alt discard)
        ∧ Moved now n.chain b r.1.chain := by
  cases depth with
  | zero => cases hr
  | succ depth =>
    have hplaced := placed_invalidate hinj h hn hb extra
    have hnode := settled_place h.invalidate b extra
    rcases handleAlternativeBlock_cases hr with hdone | ⟨n', line, discard, hplace, hswitch⟩
    · rw [hdone] at hplaced
      cases hplaced with
      | done _ _ hchain hn' => exact .inl hchain
    rw [hplace] at hplaced hnode
    replace hmax := hmax _ _ _ hplace
    cases hplaced with
    | switch _ alt a fork _ hchain hn' hbuilt hblock hlineage hheight hallowed hwhy =>
      subst hblock
      rw [← hchain] at hbuilt hlineage hmax hwhy hallowed ⊢
      exact .inr ⟨⟨_, _, _, hplace⟩, switch_moved hinj hnode hn' hbuilt hlineage
        hallowed (fun hkept => (hwhy.resolve_left fun hdiscard => by simp [hkept] at hdiscard).2)
        hmax hheight hswitch⟩

/-! ## Calm arrivals -/

def overtakes (R : Rules H) (n : Node H) (b : Block H) (extra : List (Tx H)) : Bool :=
  !haveBlock n (R.blockId b) && b.prevId ≠ topId R n.chain
    && match placeAlternativeBlock R n.invalidate b extra with
      | .done _ _ => false
      | .switch _ _ _ => true

/-- When a block overtakes the chain, the chain ends in its heaviest block (no sum has wrapped
around), and while there is a block with more than the cap on top of it, the new chain is no shorter
and the clock is not behind the chain. Nothing is popped by hand. -/
def Calm (R : Rules H) (n : Node H) : Event H → Prop
  | .addNewBlock now _ b extra => overtakes R n b extra = true →
      (∀ e ∈ n.chain, e.cumulativeDifficulty ≤ difficultyOf n.chain)
        ∧ (CRYPTONOTE_MAX_REORG_DEPTH + 1 < n.chain.length → n.chain.length ≤ b.height + 1
          ∧ ∀ e ∈ n.chain, e.block.timestamp ≤ futureLimit now)
  | .popBlocks _ => False
  | _ => True

omit [DecidableEq H] in
theorem deep_in_keep (hchain : chain = keep ++ old) (hcap : tooDeep chain keep.length = false)
    (hsplit : chain = pre ++ e :: post) (hdeep : CRYPTONOTE_MAX_REORG_DEPTH < post.length) :
    ∃ mid, keep = pre ++ e :: mid ∧ 1 < keep.length := by
  have hlen : chain.length = pre.length + (post.length + 1) := by rw [hsplit]; simp
  have hlong : pre.length + 1 < keep.length := by
    have hwithin := of_decide_eq_false hcap
    omega
  have hdown : pre ++ [e] <+: chain := ⟨post, by rw [hsplit]; simp⟩
  obtain ⟨mid, hmid⟩ : pre ++ [e] <+: keep := by
    refine prefix_of_prefix_length_le hdown ⟨old, hchain.symm⟩ ?_
    rw [length_append, length_singleton]
    omega
  exact ⟨mid, by rw [← hmid]; simp, by omega⟩

theorem calm_step (hinj : Set.InjOn R.blockId S) {n' : Node H} {ev : Event H} (h : n.Settled R)
    (hn : n.Certified R S) (hcalm : Calm R n ev) (hS : ∀ b, ev.block? = some b → b ∈ S)
    (hstep : (blockchain R).step n ev = some n') :
    ∀ pre e post, n.chain = pre ++ e :: post → CRYPTONOTE_MAX_REORG_DEPTH < post.length →
      ∃ post', n'.chain = pre ++ e :: post' ∧ CRYPTONOTE_MAX_REORG_DEPTH < post'.length := by
  have hsame : ∀ {m : Node H}, m.chain = n.chain →
      ∀ pre e post, n.chain = pre ++ e :: post → CRYPTONOTE_MAX_REORG_DEPTH < post.length →
        ∃ post', m.chain = pre ++ e :: post' ∧ CRYPTONOTE_MAX_REORG_DEPTH < post'.length :=
    fun hchain pre e post hsplit hdeep => ⟨post, hchain.trans hsplit, hdeep⟩
  cases ev with
  | addNewBlock now depth b extra =>
    have hb : b ∈ S := hS b rfl
    obtain ⟨r, hr, rfl⟩ := Option.map_eq_some_iff.mp hstep
    rcases addNewBlock_cases hr with rfl | rfl | ⟨hnew, hprev, halternative⟩
    · exact hsame rfl
    · have hspec := handle_spec h now b extra
      generalize handleBlockToMainChain R now n b extra = r at hspec ⊢
      cases hspec with
      | refused m hm hchain halts => exact hsame hchain
      | added m e hm he hblock hclock hchain halts =>
        intro pre e' post hsplit hdeep
        refine ⟨post ++ [e], by rw [hchain, hsplit]; simp, ?_⟩
        rw [length_append]
        omega
    · -- what `Calm` says, once the block is known to overtake
      have hovertakes : ∀ m alt discard,
          placeAlternativeBlock R n.invalidate b extra = .switch m alt discard →
          overtakes R n b extra = true := by
        intro m alt discard hplace
        simp [overtakes, hnew, hprev, hplace]
      obtain hchain | ⟨⟨m, alt, discard, hplace⟩, hmoved⟩ :=
        handleAlternativeBlock_moved hinj h hn hb
          (fun m alt discard hplace => (hcalm (hovertakes m alt discard hplace)).1) halternative
      · exact hsame hchain
      intro pre e post hsplit hdeep
      have hlen : n.chain.length = pre.length + (post.length + 1) := by rw [hsplit]; simp
      obtain ⟨hlonger, hclock⟩ := (hcalm (hovertakes m alt discard hplace)).2 (by omega)
      generalize r.1.chain = chain' at hmoved ⊢
      cases hmoved with
      | same => exact ⟨post, hsplit, hdeep⟩
      | failed _ keep old hchain hcap hback =>
        obtain ⟨-, -, hlong⟩ := deep_in_keep hchain hcap hsplit hdeep
        exact ⟨post, (hback hlong hclock).trans hsplit, hdeep⟩
      | switched keep old es hchain hcap hlength =>
        obtain ⟨mid, rfl, -⟩ := deep_in_keep hchain hcap hsplit hdeep
        refine ⟨mid ++ es, by simp, ?_⟩
        simp only [length_append, length_cons] at hlength ⊢
        omega
  | popBlocks nblocks => exact absurd hcalm id
  | getDifficultyForNextBlock | cleanupHandleIncomingBlocks =>
    cases hstep
    exact hsame rfl
  | addTx tx =>
    cases hstep
    obtain ⟨pool, hnode⟩ := addTx_frame (R := R) n tx
    rw [hnode]
    exact hsame rfl

/-- The node is in order, and the block `e` on top of `pre` has more than the cap on top of it. -/
structure Final (R : Rules H) (S : Set (Block H)) (pre : List (Entry H)) (e : Entry H)
    (n : Node H) : Prop extends Node.Traced R S n where
  deep : ∃ post, n.chain = pre ++ e :: post ∧ CRYPTONOTE_MAX_REORG_DEPTH < post.length

theorem Final.prepare {pre : List (Entry H)} {e : Entry H} (h : Final R S pre e n) :
    Final R S pre e n.prepare :=
  ⟨h.toTraced.prepare, h.deep⟩

/-- If arriving blocks have distinct ids, no batch is aborted and from some moment on every step is
calm, a block that had more than the cap on top of it at that moment is in the chain ever after,
with all blocks below it. -/
theorem deep_block_stays (R : Rules H) (before later : List (BatchEvent H)) (s s' : Batched H)
    (hids : Set.InjOn R.blockId (batchArrivals (before ++ later)))
    (hs : (batchedBlockchain R).exec (Batched.init R) before = some s)
    (hwhole : (batchedBlockchain R).Meets (Unbroken fun _ _ => True) (Batched.init R) before)
    (hs' : (batchedBlockchain R).exec s later = some s')
    (hcalm : (batchedBlockchain R).Meets (Unbroken (Calm R)) s later)
    (pre : List (Entry H)) (e : Entry H) (post : List (Entry H))
    (hsplit : s.node.chain = pre ++ e :: post) (hdeep : CRYPTONOTE_MAX_REORG_DEPTH < post.length) :
    ∃ post', s'.node.chain = pre ++ e :: post' := by
  rw [batchArrivals_append] at hids
  -- up to the moment: the alternative blocks are stored with what their ancestors determine
  have htraced := traced_of_unbroken hids Set.subset_union_left hwhole hs
  -- from then on: the block stays that deep
  have hfinal := invariant_of_unbroken (I := Final R _ pre e) Final.prepare
    (fun {n ev n'} hinv hcalm hev hstep => by
      obtain ⟨htraced, post, hchain, hlong⟩ := hinv
      exact ⟨traced_step hids htraced hev hstep,
        calm_step hids htraced.toSettled htraced.certified hcalm hev hstep pre e post hchain hlong⟩)
    ⟨htraced, post, hsplit, hdeep⟩ hcalm Set.subset_union_right hs'
  obtain ⟨post', hchain, -⟩ := hfinal.deep
  exact ⟨post', hchain⟩

/-- `Calm`, by evaluation, whether or not a block is that deep. -/
def calmCheck (R : Rules H) (n : Node H) : Event H → Bool
  | .addNewBlock now _ b extra => !overtakes R n b extra
      || (n.chain.all fun e => e.cumulativeDifficulty ≤ difficultyOf n.chain)
        && n.chain.length ≤ b.height + 1
        && n.chain.all fun e => e.block.timestamp ≤ futureLimit now
  | .popBlocks _ => false
  | _ => true

theorem calm_of_check (n : Node H) (ev : Event H) (h : calmCheck R n ev = true) : Calm R n ev := by
  cases ev with
  | addNewBlock now depth b extra =>
    intro hovertakes
    simp only [calmCheck, hovertakes, Bool.not_true, Bool.false_or, Bool.and_eq_true,
      all_eq_true, decide_eq_true_eq] at h
    exact ⟨h.1.1, fun _ => ⟨h.1.2, h.2⟩⟩
  | popBlocks nblocks => cases h
  | getDifficultyForNextBlock | addTx | cleanupHandleIncomingBlocks => trivial

def longerFork : List (Event Nat) :=
  let now := afterLaunch 7560
  [.addNewBlock now 2 (sampleBlock 163 62 62 (now - 60) [] 0) [],
    .addNewBlock now 2 (sampleBlock 164 63 163 now [] 0) []]

theorem deep_block_stays_sample : ∃ s s' pre e post post',
    (batchedBlockchain openRules).exec (Batched.init openRules) (inBatch (steadyBlocks 63)) = some s
      ∧ s.node.chain = pre ++ e :: post ∧ e.id = 2 ∧ CRYPTONOTE_MAX_REORG_DEPTH < post.length
      ∧ (batchedBlockchain openRules).exec s (inBatch longerFork) = some s'
      ∧ (idsOf s'.node.chain).drop 60 = [61, 62, 163, 164]
      ∧ s'.node.chain = pre ++ e :: post' := by
  have hrun : ((batchedBlockchain openRules).execChecked (unbrokenCheck fun _ _ => true)
      (Batched.init openRules) (inBatch (steadyBlocks 63))).bind (fun s =>
        ((batchedBlockchain openRules).execChecked (unbrokenCheck (calmCheck openRules)) s
          (inBatch longerFork)).map fun s' =>
            ((idsOf s.node.chain).take 2, s.node.chain.length, (idsOf s'.node.chain).drop 60))
      = some ([1, 2], 63, [61, 62, 163, 164]) := by decide +kernel
  obtain ⟨s, hs, hrest⟩ := Option.bind_eq_some_iff.mp hrun
  obtain ⟨s', hs', hsum⟩ := Option.map_eq_some_iff.mp hrest
  simp only [Prod.mk.injEq] at hsum
  obtain ⟨hids, hlen, hend⟩ := hsum
  obtain ⟨hs, hwhole⟩ := (batchedBlockchain openRules).exec_of_checked
    (unbroken_of_check fun _ _ _ => trivial) hs
  obtain ⟨hs', hcalm⟩ := (batchedBlockchain openRules).exec_of_checked
    (unbroken_of_check calm_of_check) hs'
  obtain ⟨e₀, e₁, htake⟩ : ∃ e₀ e₁, s.node.chain.take 2 = [e₀, e₁] :=
    length_eq_two.mp (by rw [length_take, hlen]; rfl)
  have hsplit : s.node.chain = [e₀] ++ e₁ :: s.node.chain.drop 2 := by
    rw [← take_append_drop 2 s.node.chain, htake]
    simp
  have hid : e₁.id = 2 := by
    rw [idsOf, ← map_take, htake, map_cons, map_cons, cons.injEq, cons.injEq] at hids
    exact hids.2.1
  have hdeep : CRYPTONOTE_MAX_REORG_DEPTH < (s.node.chain.drop 2).length := by
    rw [length_drop, hlen]
    decide
  obtain ⟨post', hstays⟩ := deep_block_stays openRules _ _ s s' (injOn_arrivals (by decide +kernel))
    hs hwhole hs' hcalm [e₀] e₁ (s.node.chain.drop 2) hsplit hdeep
  exact ⟨s, s', [e₀], e₁, s.node.chain.drop 2, post', hs, hsplit, hid, hdeep, hs', hend, hstays⟩

def lateArrival (id height prev seconds : Nat) : Event Nat :=
  .addNewBlock (afterLaunch 2000000) 2 (sampleBlock id height prev (afterLaunch seconds) [] 0) []

/-- A chain of 63 blocks. The first three above genesis follow each other within seconds, the others
come eleven days later. -/
def slowBlocks : List (Event Nat) :=
  (range 63).map fun height =>
    lateArrival (height + 1) height height
      (if height ≤ 2 then height else if height = 3 then 0 else 1000000 + 120 * height)

/-- All transactions spend one key image: `check_tx_inputs` passes each of them as long as none is
in the chain, and `add_block` throws for a block with two. -/
def oneImageRules : Rules Nat :=
  { openRules with
    checkTxInputs := fun chain _ => chain.all fun e => e.txs.isEmpty
    keyImagesNew := fun chain e => chain.all (fun e' => e'.txs.isEmpty) && e.txs.length ≤ 1 }

def doubleSpend : Event Nat :=
  .addNewBlock (afterLaunch 2000000) 2
    (sampleBlock 64 63 63 (afterLaunch 1007560) [50, 51] 2)
    [sampleTx 50 1, sampleTx 51 1]

def idsAfter (R : Rules Nat) (ls : List (BatchEvent Nat)) : Option (List Nat) :=
  ((batchedBlockchain R).exec (Batched.init R) ls).map fun s => idsOf s.node.chain

/-- Block 2 has 61 blocks on top of it. In the first run a heavier fork within the cap leaves a
chain of six blocks, and from there a fork on genesis is within the cap too, and takes block 2 away.
In the second run the last eleven blocks come in one batch, which is aborted because of the last of
them, and the same fork is within the cap of the 53 blocks that are left. -/
theorem deep_block_removed :
    let first := inBatch [lateArrival 103 3 3 3, lateArrival 104 4 103 4, lateArrival 105 5 104 5]
    let second := inBatch [lateArrival 201 1 1 0, lateArrival 202 2 201 0, lateArrival 203 3 202 0,
      lateArrival 204 4 203 0, lateArrival 205 5 204 0]
    let early := inBatch (slowBlocks.take 53)
    let span := inBatch (slowBlocks.drop 53 ++ [doubleSpend])
    idsAfter openRules (inBatch slowBlocks) = some ((range 63).map (· + 1))
      ∧ idsAfter openRules (inBatch slowBlocks ++ first) = some [1, 2, 3, 103, 104, 105]
      ∧ idsAfter openRules (inBatch slowBlocks ++ first ++ second)
        = some [1, 201, 202, 203, 204, 205]
      ∧ idsAfter oneImageRules (early ++ span.dropLast) = some ((range 63).map (· + 1))
      ∧ idsAfter oneImageRules (early ++ span) = some ((range 53).map (· + 1))
      ∧ idsAfter oneImageRules (early ++ span ++ second) = some [1, 201, 202, 203, 204, 205] := by
  decide +kernel

end Glaciem.Chain
