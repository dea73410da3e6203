import Glaciem.Chain.Runs

/-!
# Glaciem — what is stored of an alternative block is a function of its ancestors

Each block names its parent and its height, so as long as no two blocks share an id it has one
line of ancestors down to genesis, whether they are on the main chain or not. The cumulative
difficulty of a block follows from this line.

* `stampsFrom` — timestamps and cumulative difficulties of a line of blocks; on the main chain they
  are what the database has (`ValidChain.stampsOf_eq`).
-/

namespace Glaciem.Chain

open List

open HardFork (versionAt)

variable {H : Type}

/-! ## Lines of blocks -/

def blockLinks (R : Rules H) : Links (Block H) H where
  root := R.nullHash
  id := R.blockId
  parent := Block.prevId
  position b := b.minerTx.genHeight

def cumulativeOf (stamps : List Stamp) : Nat :=
  (stamps.getLast?.map Stamp.cumulativeDifficulty).getD 0

def nextStamp (stamps : List Stamp) (b : Block H) : Stamp :=
  ⟨b.timestamp, (requiredOn stamps + cumulativeOf stamps) % 2 ^ 128⟩

def stampsFrom (bs : List (Block H)) : List Stamp := records nextStamp bs

theorem stampsFrom_concat (bs : List (Block H)) (b : Block H) :
    stampsFrom (bs ++ [b]) = stampsFrom bs ++ [nextStamp (stampsFrom bs) b] := records_concat _ _ _

theorem cumulativeOf_concat (stamps : List Stamp) (s : Stamp) :
    cumulativeOf (stamps ++ [s]) = s.cumulativeDifficulty := by
  simp [cumulativeOf]

theorem difficultyOf_eq (chain : List (Entry H)) :
    difficultyOf chain = cumulativeOf (stampsOf chain) := by
  rw [difficultyOf, cumulativeOf, stampsOf, getLast?_map, Option.map_map]
  rfl

variable {R : Rules H}

section MainChain

variable [DecidableEq H] {chain : List (Entry H)}

theorem Extends.stamp_eq {e : Entry H} (h : Extends R chain e) :
    e.stamp = nextStamp (stampsOf chain) e.block := by
  obtain ⟨reward, -, hentry⟩ := h.recorded
  have hdifficulty : e.cumulativeDifficulty
      = (requiredDifficulty chain + difficultyOf chain) % 2 ^ 128 := by
    rw [hentry]
    rfl
  rw [Entry.stamp, nextStamp, hdifficulty, requiredDifficulty_eq, difficultyOf_eq]

theorem ValidChain.stampsOf_eq (h : ValidChain R chain) :
    stampsOf chain = stampsFrom (chain.map Entry.block) := by
  induction chain using reverseRecOn with
  | nil => rfl
  | append_singleton chain e ih =>
    rw [stampsOf_concat, map_append, map_singleton, stampsFrom_concat,
      ← ih h.of_append, h.last.stamp_eq]

theorem ValidChain.topId_eq (h : ValidChain R chain) :
    topId R chain = (blockLinks R).tip (chain.map Entry.block) := by
  rcases eq_nil_or_concat chain with rfl | ⟨init, e, rfl⟩
  · rfl
  · rw [concat_eq_append] at h ⊢
    rw [topId_concat, map_append, map_singleton, Links.tip_concat, h.last.id_eq]
    rfl

theorem Extends.genHeight_eq {e : Entry H} (h : Extends R chain e) :
    e.block.minerTx.genHeight = some chain.length := by
  have hverified := h.verified
  simp only [verifies, prevalidateMinerTransaction, Bool.and_eq_true, decide_eq_true_eq]
    at hverified
  exact hverified.2.1.1.1.1.1

theorem ValidChain.linked (h : ValidChain R chain) :
    Linked (blockLinks R) (chain.map Entry.block) := by
  induction chain using reverseRecOn with
  | nil => exact stepwise_nil
  | append_singleton chain e ih =>
    rw [map_append, map_singleton]
    refine (ih h.of_append).concat ⟨?_, ?_⟩
    · exact h.last.parent.trans h.of_append.topId_eq
    · rw [length_map]
      exact h.last.genHeight_eq

end MainChain

/-! ## Lineages of alternative blocks -/

/-- The block `a` is stored with what its ancestors `bs` (itself the last), all among `S`,
determine. -/
structure Lineage (R : Rules H) (S : Set (Block H)) (a : AltBlock H) (bs : List (Block H)) :
    Prop where
  linked : Linked (blockLinks R) bs
  known : ∀ b ∈ bs, b ∈ S
  last : bs.getLast? = some a.block
  id : a.id = R.blockId a.block
  pos : 0 < a.height
  height : a.height + 1 = bs.length
  difficulty : a.cumulativeDifficulty = cumulativeOf (stampsFrom bs)

variable {S : Set (Block H)}

section Lineages

variable {a : AltBlock H}

theorem Lineage.tip {bs : List (Block H)} (h : Lineage R S a bs) :
    (blockLinks R).tip bs = a.id := by
  rw [Links.tip, h.last, h.id]
  rfl

theorem Lineage.eq_concat {bs cs : List (Block H)} (hinj : Set.InjOn R.blockId S)
    (h : Lineage R S a bs) (hcs : Linked (blockLinks R) cs) (hcS : ∀ c ∈ cs, c ∈ S) (hne : cs ≠ [])
    (hparent : a.block.prevId = (blockLinks R).tip cs) : bs = cs ++ [a.block] := by
  obtain ⟨pre, rfl⟩ := getLast?_eq_some_iff.mp h.last
  have hpre : pre ≠ [] := by
    have hlen := h.height
    have hpos := h.pos
    rw [length_append, length_singleton] at hlen
    exact ne_nil_of_length_pos (by omega)
  have hpreS : ∀ b ∈ pre, b ∈ S := fun b hb => h.known b (mem_append_left _ hb)
  obtain ⟨pre', x, rfl⟩ : ∃ l x, pre = l ++ [x] := ⟨_, _, (dropLast_append_getLast hpre).symm⟩
  obtain ⟨cs', y, rfl⟩ : ∃ l y, cs = l ++ [y] := ⟨_, _, (dropLast_append_getLast hne).symm⟩
  have hids : R.blockId x = R.blockId y := by
    have htip := h.linked.last.1.symm.trans hparent
    rwa [Links.tip_concat, Links.tip_concat] at htip
  have hxy : x = y := hinj (hpreS x (by simp)) (hcS y (by simp)) hids
  have hsame : pre' ++ [x] = cs' ++ [y] :=
    Linked.eq_of_getLast? hinj h.linked.of_append hcs hpreS hcS (by simp [hxy])
  rw [hsame]

theorem Lineage.stampsFrom_eq {cs : List (Block H)} (h : Lineage R S a (cs ++ [a.block])) :
    stampsFrom (cs ++ [a.block]) = stampsFrom cs ++ [a.stamp] := by
  have hdifficulty := h.difficulty
  rw [stampsFrom_concat, cumulativeOf_concat] at hdifficulty
  rw [stampsFrom_concat, AltBlock.stamp, hdifficulty]
  rfl

end Lineages

/-! ## The walk through the alternative blocks -/

section Walk

variable [DecidableEq H] {alts : List (AltBlock H)}

theorem altBlock?_eq_some {id : H} {a : AltBlock H} (h : altBlock? alts id = some a) :
    a ∈ alts ∧ a.id = id :=
  ⟨mem_of_find?_eq_some h, by simpa using find?_some h⟩

theorem walk_lineage (hinj : Set.InjOn R.blockId S) (halts : ∀ a ∈ alts, ∃ bs, Lineage R S a bs)
    {base : List (Block H)} (hbase : Linked (blockLinks R) base) (hbaseS : ∀ b ∈ base, b ∈ S)
    (hne : base ≠ []) {fuel : Nat} {id : H} {front : AltBlock H}
    (hhead : (walkAlts alts fuel id).head? = some front)
    (hfront : front.block.prevId = (blockLinks R).tip base) :
    ∃ a, (walkAlts alts fuel id).getLast? = some a ∧ a.id = id ∧ front.height = base.length
      ∧ Lineage R S a (base ++ (walkAlts alts fuel id).map AltBlock.block)
      ∧ stampsFrom (base ++ (walkAlts alts fuel id).map AltBlock.block)
        = stampsFrom base ++ (walkAlts alts fuel id).map AltBlock.stamp := by
  induction fuel generalizing id with
  | zero => cases hhead
  | succ fuel ih =>
    unfold walkAlts at hhead ⊢
    cases ha : altBlock? alts id with
    | none =>
      rw [ha] at hhead
      cases hhead
    | some a =>
      rw [ha] at hhead
      obtain ⟨hmem, hid⟩ := altBlock?_eq_some ha
      obtain ⟨bs, hbs⟩ := halts a hmem
      dsimp only at hhead ⊢
      -- the lineage of `a` goes on from that of its parent
      have hgoal : ∀ {cs : List (Block H)} {w : List (AltBlock H)},
          cs = base ++ w.map AltBlock.block →
          stampsFrom cs = stampsFrom base ++ w.map AltBlock.stamp → bs = cs ++ [a.block] →
          Lineage R S a (base ++ (w ++ [a]).map AltBlock.block)
            ∧ stampsFrom (base ++ (w ++ [a]).map AltBlock.block)
              = stampsFrom base ++ (w ++ [a]).map AltBlock.stamp := by
        rintro cs w rfl hstamps rfl
        rw [map_append, map_singleton, ← append_assoc, map_append,
          map_singleton, ← append_assoc, ← hstamps]
        exact ⟨hbs, hbs.stampsFrom_eq⟩
      refine ⟨a, getLast?_concat, hid, ?_⟩
      rcases eq_nil_or_concat (walkAlts alts fuel a.block.prevId) with hnil | ⟨w, last, hw⟩
      · rw [hnil] at hhead ⊢
        obtain rfl : a = front := Option.some.inj hhead
        have heq := hbs.eq_concat hinj hbase hbaseS hne hfront
        refine ⟨?_, hgoal (w := []) (by simp) (by simp) heq⟩
        have hlen := hbs.height
        rw [heq, length_append, length_singleton] at hlen
        exact Nat.succ.inj hlen
      · have hhead' : (walkAlts alts fuel a.block.prevId).head? = some front := by
          rw [hw, concat_eq_append] at hhead ⊢
          rwa [head?_append_of_ne_nil _ (by simp)] at hhead
        obtain ⟨a', -, hid', hheight, hlineage, hstamps⟩ := ih hhead'
        have heq := hbs.eq_concat hinj hlineage.linked hlineage.known (by simp [hne])
          (hid'.symm.trans hlineage.tip.symm)
        exact ⟨hheight, hgoal rfl hstamps heq⟩

end Walk

/-! ## Building and placing -/

section Place

variable [DecidableEq H]

def lineOf (chain : List (Entry H)) (alt : List (AltBlock H)) (fork : Nat) : List (Block H) :=
  (chain.take fork).map Entry.block ++ alt.map AltBlock.block

/-- The alternative chain `alt` that ends in `prevId` leaves the chain at the height `fork`. -/
structure Built (R : Rules H) (S : Set (Block H)) (chain : List (Entry H)) (alt : List (AltBlock H))
    (prevId : H) (fork : Nat) : Prop where
  pos : 0 < fork
  le : fork ≤ chain.length
  front : ∀ a, alt.head? = some a → a.height = fork ∧ a.block.prevId = topId R (chain.take fork)
  linked : Linked (blockLinks R) (lineOf chain alt fork)
  known : ∀ b ∈ lineOf chain alt fork, b ∈ S
  tip : (blockLinks R).tip (lineOf chain alt fork) = prevId
  stamps : stampsFrom (lineOf chain alt fork)
    = (stampsOf chain).take fork ++ alt.map AltBlock.stamp
  height : (parentOf chain alt prevId).height + 1 = (lineOf chain alt fork).length
  difficulty : (parentOf chain alt prevId).cumulativeDifficulty
    = cumulativeOf (stampsFrom (lineOf chain alt fork))

variable {timestamps : List Nat} {alt : List (AltBlock H)}

theorem build_lineage (hinj : Set.InjOn R.blockId S) {n : Node H} (hchain : ValidChain R n.chain)
    (hS : ∀ e ∈ n.chain, e.block ∈ S) (halts : ∀ a ∈ n.alts, ∃ bs, Lineage R S a bs) {prevId : H}
    (hbuild : buildAltChain R n prevId = some (alt, timestamps)) :
    ∃ fork, Built R S n.chain alt prevId fork := by
  -- the chain up to a block it has is a line of blocks of its own
  have hbase : ∀ {id : H} {height : Nat}, heightOf? n.chain id = some height →
      ValidChain R (n.chain.take (height + 1)) ∧ (∀ b ∈ (n.chain.take (height + 1)).map Entry.block,
        b ∈ S) ∧ (blockLinks R).tip ((n.chain.take (height + 1)).map Entry.block) = id := by
    intro id height hheight
    have hvalid : ValidChain R (n.chain.take (height + 1)) := by
      rw [← take_append_drop (height + 1) n.chain] at hchain
      exact hchain.of_append
    refine ⟨hvalid, fun b hb => ?_, ?_⟩
    · obtain ⟨e, he, rfl⟩ := mem_map.mp hb
      exact hS e (mem_of_mem_take he)
    · rw [← hvalid.topId_eq, (take_of_heightOf? hheight).2]
  obtain ⟨hwalk, height, hheight, -⟩ := buildAltChain_eq_some hbuild
  obtain ⟨hvalid, hbaseS, htip⟩ := hbase hheight
  obtain ⟨hle, htop⟩ := take_of_heightOf? (R := R) hheight
  cases hhead : alt.head? with
  | some front =>
    subst hwalk
    rw [hhead] at htip htop
    have hlen : ((n.chain.take (height + 1)).map Entry.block).length = height + 1 := by
      rw [length_map, length_take, Nat.min_eq_left hle]
    obtain ⟨a, hlast, hid, hfront, hlineage, hstamps⟩ :=
      walk_lineage hinj halts hvalid.linked hbaseS
      (ne_nil_of_length_pos (by omega)) hhead htip.symm
    refine ⟨height + 1, Nat.succ_pos _, hle, ?_, hlineage.linked, hlineage.known,
      hlineage.tip.trans hid, ?_, ?_, ?_⟩
    · intro a' ha'
      obtain rfl : front = a' := Option.mem_unique hhead ha'
      exact ⟨hfront.trans hlen, htop.symm⟩
    · rw [lineOf, hstamps, ← hvalid.stampsOf_eq, stampsOf, map_take]
      rfl
    · rw [parentOf, hlast]
      exact hlineage.height
    · rw [parentOf, hlast]
      exact hlineage.difficulty
  | none =>
    obtain rfl := head?_eq_none_iff.mp hhead
    rw [head?_nil, Option.map_none, Option.getD_none] at hheight htip
    have hline : lineOf n.chain [] (height + 1) = (n.chain.take (height + 1)).map Entry.block :=
      append_nil _
    refine ⟨height + 1, Nat.succ_pos _, hle, fun a ha => ?_, ?_, ?_, ?_, ?_, ?_, ?_⟩
    · cases ha
    · rw [hline]
      exact hvalid.linked
    · rw [hline]
      exact hbaseS
    · rw [hline]
      exact htip
    · rw [hline, ← hvalid.stampsOf_eq, stampsOf, map_take, map_nil, append_nil]
      rfl
    · rw [hline, parentOf, getLast?_nil, length_map, length_take, Nat.min_eq_left hle, hheight]
      rfl
    · rw [hline, parentOf, getLast?_nil, ← hvalid.stampsOf_eq, ← difficultyOf_eq, hheight]
      rfl

omit [DecidableEq H] in
theorem length_lineOf {chain : List (Entry H)} {fork : Nat} (hle : fork ≤ chain.length)
    (alt : List (AltBlock H)) : (lineOf chain alt fork).length = fork + alt.length := by
  rw [lineOf, length_append, length_map, length_map, length_take, Nat.min_eq_left hle]

theorem Built.lineage {n : Node H} {b : Block H} {fork : Nat} {extra : List (Tx H)}
    {parent : Parent} (hbuilt : Built R S n.chain alt b.prevId fork) (hb : b ∈ S)
    (hparent : parentOf n.chain alt b.prevId = parent)
    (hverifies : altVerifies R n alt timestamps b (parent.height + 1)
      (altDifficulty n.chain alt (parent.height + 1)) extra = true) :
    b.minerTx.genHeight = some (parent.height + 1)
      ∧ Lineage R S (altRecord R parent b (altDifficulty n.chain alt (parent.height + 1)))
        (lineOf n.chain alt fork ++ [b]) := by
  subst hparent
  have hheight := hbuilt.height
  have hgen : b.minerTx.genHeight = some ((parentOf n.chain alt b.prevId).height + 1) := by
    simp only [altVerifies, prevalidateMinerTransaction, Bool.and_eq_true,
      decide_eq_true_eq] at hverifies
    exact hverifies.1.2.1.1.1.1.1
  refine ⟨hgen, ?_, ?_, getLast?_concat, rfl, Nat.succ_pos _, ?_, ?_⟩
  · exact hbuilt.linked.concat ⟨hbuilt.tip.symm, hgen.trans (by rw [hheight])⟩
  · intro c hc
    rcases mem_append.mp hc with hold | hnew
    · exact hbuilt.known c hold
    · rwa [mem_singleton.mp hnew]
  · rw [length_append, ← hheight]
    rfl
  · rw [hheight, length_lineOf hbuilt.le, altDifficulty_eq hbuilt.pos hbuilt.le
      fun front hfront => (hbuilt.front front hfront).1, ← hbuilt.stamps]
    rw [stampsFrom_concat, cumulativeOf_concat, nextStamp, ← hbuilt.difficulty, Nat.add_comm]
    rfl

/-- Every block of the chain is among `S`, and every alternative block is stored with what its
ancestors determine. -/
structure Node.Certified (R : Rules H) (S : Set (Block H)) (n : Node H) : Prop where
  chain : ∀ e ∈ n.chain, e.block ∈ S
  alts : ∀ a ∈ n.alts, ∃ bs, Lineage R S a bs

omit [DecidableEq H] in
theorem Node.Certified.congr {n n' : Node H} (h : n.Certified R S) (hchain : n'.chain = n.chain)
    (halts : n'.alts ⊆ n.alts) : n'.Certified R S :=
  ⟨hchain ▸ h.chain, fun a ha => h.alts a (halts ha)⟩

inductive Placed (R : Rules H) (S : Set (Block H)) (n : Node H) (b : Block H) :
    AltOutcome H → Prop
  | done (n' : Node H) (ok : Bool) (hchain : n'.chain = n.chain) (hn' : n'.Certified R S) :
      Placed R S n b (.done n' ok)
  | switch (n' : Node H) (alt : List (AltBlock H)) (a : AltBlock H) (fork : Nat) (discard : Bool)
      (hchain : n'.chain = n.chain) (hn' : n'.Certified R S)
      (hbuilt : Built R S n.chain alt b.prevId fork) (hblock : a.block = b)
      (hlineage : Lineage R S a (lineOf n.chain alt fork ++ [b])) (hheight : b.height = a.height)
      (hallowed : ∀ p ∈ R.checkpoints, p.1 ≤ n.chain.length → p.1 < a.height)
      (hwhy : discard = true ∧ (∃ p ∈ R.checkpoints, p.1 = a.height)
        ∨ discard = false ∧ difficultyOf n.chain < a.cumulativeDifficulty) :
      Placed R S n b (.switch n' (alt ++ [a]) discard)

theorem placed (hinj : Set.InjOn R.blockId S) {n : Node H} (hvalid : ValidChain R n.chain)
    (hn : n.Certified R S) {b : Block H} (hb : b ∈ S) (extra : List (Tx H)) :
    Placed R S n b (placeAlternativeBlock R n b extra) := by
  rcases place_cases (R := R) n b extra with
    ⟨ok, heq⟩ | ⟨alt, timestamps, difficulty, hbuild, rfl, hadmits, hverifies, heq⟩
  · rw [heq]
    exact .done n ok rfl hn
  obtain ⟨fork, hbuilt⟩ := build_lineage hinj hvalid hn.chain hn.alts hbuild
  obtain ⟨hgen, hlineage⟩ := hbuilt.lineage hb rfl hverifies
  rw [heq]
  generalize hrecord : altRecord R (parentOf n.chain alt b.prevId) b
    (altDifficulty n.chain alt ((parentOf n.chain alt b.prevId).height + 1)) = a at hlineage ⊢
  have hblock : a.block = b := by rw [← hrecord]; rfl
  have hheight : b.height = a.height := by rw [← hrecord, Block.height, hgen]; rfl
  have hallowed : ∀ p ∈ R.checkpoints, p.1 ≤ n.chain.length → p.1 < a.height := by
    simp only [altAdmits, alternativeBlockAllowed, Bool.and_eq_true, all_eq_true,
      Bool.or_eq_true, decide_eq_true_eq] at hadmits
    exact fun p hp hle => hheight ▸ (hadmits.1.2.2 p hp).resolve_left (not_lt.mpr hle)
  have hstored : ∀ a' ∈ n.alts ++ [a], ∃ bs, Lineage R S a' bs := by
    intro a' ha'
    rcases mem_append.mp ha' with hold | hnew
    · exact hn.alts a' hold
    · rw [mem_singleton.mp hnew]
      exact ⟨_, hlineage⟩
  unfold recordAlternativeBlock
  split
  · exact .done _ _ rfl ⟨hn.chain, hn.alts⟩
  split
  · rename_i hcheckpoint
    rw [any_eq_true] at hcheckpoint
    obtain ⟨p, hp, hpa⟩ := hcheckpoint
    exact .switch _ alt a fork true rfl ⟨hn.chain, hstored⟩ hbuilt hblock hlineage hheight hallowed
      (.inl ⟨rfl, p, hp, of_decide_eq_true hpa⟩)
  split
  · rename_i hheavier
    exact .switch _ alt a fork false rfl ⟨hn.chain, hstored⟩ hbuilt hblock hlineage hheight hallowed
      (.inr ⟨rfl, hheavier⟩)
  · exact .done _ _ rfl ⟨hn.chain, hstored⟩

end Place

/-! ## Nodes stay certified -/

section Certified

variable [DecidableEq H] {n : Node H}

section

variable (h : n.Certified R S)

include h

omit [DecidableEq H] in
theorem Node.Certified.of_chain {n' : Node H}
    (hchain : ∀ e ∈ n'.chain, e.block ∈ S) (halts : n'.alts ⊆ n.alts) : n'.Certified R S :=
  ⟨hchain, fun a ha => h.alts a (halts ha)⟩

theorem Node.Certified.addBlocks (hn : n.Settled R) (now : Nat)
    {bs : List (Block H)} (hbs : ∀ b ∈ bs, b ∈ S) : (addBlocks R now n bs).1.Certified R S := by
  obtain ⟨es, hchain, hblocks, -, -, halts, -⟩ := addBlocks_spec now hn bs
  refine h.of_chain (fun e he => ?_) (halts ▸ Subset.refl _)
  rw [hchain] at he
  rcases mem_append.mp he with hold | hnew
  · exact h.chain e hold
  · have hmem : e.block ∈ es.map Entry.block := mem_map_of_mem hnew
    rw [hblocks] at hmem
    exact hbs _ (mem_of_mem_take hmem)

theorem Node.Certified.popWhile (hn : n.Valid R)
    (more : List (Entry H) → Bool) (fuel : Nat) : (popWhile R more fuel n).1.Certified R S := by
  obtain ⟨-, hchain, halts⟩ := popWhile_spec more fuel hn
  refine h.of_chain (fun e he => h.chain e ?_) (halts ▸ Subset.refl _)
  rw [hchain]
  exact mem_append_left _ he

theorem Node.Certified.rollback (hn : n.Settled R) (now : Nat)
    {original : List (Block H)} (horiginal : ∀ b ∈ original, b ∈ S) (height : Nat) :
    (rollbackBlockchainSwitching R now n original height).Certified R S := by
  obtain ⟨-, halts, horigin⟩ := rollback_spec now hn original height
  exact h.of_chain (fun e he => (horigin e he).elim (h.chain e) (horiginal _))
    (halts ▸ Subset.refl _)

theorem Node.Certified.disconnect (hn : n.Valid R) (forkParent : H) :
    (disconnect R n forkParent).1.Certified R S
      ∧ ∀ b ∈ (disconnect R n forkParent).2.map Entry.block, b ∈ S := by
  obtain ⟨-, hchain, halts⟩ := disconnect_spec hn forkParent
  refine ⟨h.of_chain (fun e he => h.chain e ?_) (halts ▸ Subset.refl _), fun b hb => ?_⟩
  · rw [hchain]
    exact mem_append_left _ he
  · obtain ⟨e, he, rfl⟩ := mem_map.mp hb
    refine h.chain e ?_
    rw [hchain]
    exact mem_append_right _ he

end

structure Node.Traced (R : Rules H) (S : Set (Block H)) (n : Node H) : Prop
    extends Node.Settled R n where
  certified : n.Certified R S

theorem Node.Traced.invalidate (h : n.Traced R S) : n.invalidate.Traced R S :=
  ⟨h.toSettled.invalidate, h.certified.congr rfl (Subset.refl _)⟩

theorem removeAlts_subset (alts : List (AltBlock H)) (ids : List H) :
    removeAlts alts ids ⊆ alts := filter_sublist.subset

variable {alt : List (AltBlock H)} {events : List (Event H)}

theorem Node.Traced.switched (h : n.Traced R S) (now : Nat)
    (halt : ∀ b ∈ alt.map AltBlock.block, b ∈ S) (forkParent : H) :
    (addBlocks R now (Chain.disconnect R n forkParent).1
      (alt.map AltBlock.block)).1.Traced R S := by
  obtain ⟨hsettled, -, -⟩ := disconnect_spec h.toValid forkParent
  obtain ⟨es, -, -, -, hadded, -⟩ := addBlocks_spec now hsettled (alt.map AltBlock.block)
  exact ⟨hadded, (h.certified.disconnect h.toValid forkParent).1.addBlocks hsettled now halt⟩

theorem traced_switch {now : Nat} {handle : Node H → Block H → Option (Node H × Bool)}
    (hhandle : ∀ {n b r}, b ∈ S → n.Traced R S → handle n b = some r → r.1.Traced R S)
    {discard : Bool} {r : Node H × Bool} (h : n.Traced R S)
    (halt : ∀ b ∈ alt.map AltBlock.block, b ∈ S)
    (hswitch : switchToAlternativeBlockchain R now handle n alt discard = some r) :
    r.1.Traced R S := by
  rcases switch_inv hswitch with
    rfl | ⟨front, n₁, old, n₂, count, -, -, -, hdisconnect, hadd, hend⟩
  · exact h.invalidate
  have hn₂ := h.switched now halt front.block.prevId
  have hold := (h.certified.disconnect h.toValid front.block.prevId).2
  rw [hdisconnect] at hn₂ hold
  rw [hadd] at hn₂
  rcases hend with ⟨n₃, ids, rfl, rfl⟩ | ⟨n₃, -, hpush, rfl⟩
  · exact ⟨(rollback_spec now hn₂.toSettled _ _).1.withAlts _,
      (hn₂.certified.rollback hn₂.toSettled now hold _).congr rfl (removeAlts_subset _ _)⟩
  · have hn₃ : n₃.Traced R S := by
      refine pushAll_preserves (fun hb => hhandle ?_) hn₂ hpush
      split at hb
      · exact absurd hb not_mem_nil
      · exact hold _ hb
    exact ⟨(hn₃.toSettled.withAlts _).reorganize _, hn₃.certified.congr rfl (removeAlts_subset _ _)⟩

theorem Node.Traced.place (hinj : Set.InjOn R.blockId S) (h : n.Traced R S) {b : Block H}
    (hb : b ∈ S) (extra : List (Tx H)) :
    (placeAlternativeBlock R n b extra).node.Traced R S
      ∧ ∀ n' alt discard, placeAlternativeBlock R n b extra = .switch n' alt discard →
        ∀ c ∈ alt.map AltBlock.block, c ∈ S := by
  have hsettled := settled_place h.toSettled b extra
  have hplaced := placed hinj h.chain h.certified hb extra
  generalize placeAlternativeBlock R n b extra = outcome at hsettled hplaced ⊢
  cases hplaced with
  | done n' ok hchain hn' => exact ⟨⟨hsettled, hn'⟩, fun _ _ _ heq => by cases heq⟩
  | switch n' alt a fork discard hchain hn' hbuilt hblock =>
    refine ⟨⟨hsettled, hn'⟩, fun _ _ _ heq c hc => ?_⟩
    cases heq
    rw [map_append] at hc
    rcases mem_append.mp hc with hold | hnew
    · exact hbuilt.known c (mem_append_right _ hold)
    · rwa [mem_singleton.mp hnew, hblock]

theorem traced_handleAlternativeBlock (hinj : Set.InjOn R.blockId S) {now depth : Nat}
    {b : Block H} {extra : List (Tx H)} {r : Node H × Bool} (hb : b ∈ S) (h : n.Traced R S)
    (hr : handleAlternativeBlock R now depth n b extra = some r) : r.1.Traced R S := by
  induction depth generalizing n b extra r with
  | zero => cases hr
  | succ depth ih =>
    obtain ⟨hplaced, halt⟩ := h.invalidate.place hinj hb extra
    rcases handleAlternativeBlock_cases hr with hdone | ⟨n', alt, discard, hplace, hswitch⟩
    · rw [hdone] at hplaced
      exact hplaced
    · rw [hplace] at hplaced
      exact traced_switch (fun hc hm hr => ih hc hm hr) hplaced (halt n' alt discard hplace) hswitch

def Event.block? : Event H → Option (Block H)
  | .addNewBlock _ _ b _ => some b
  | _ => none

def arrivals (events : List (Event H)) : Set (Block H) := {b | ∃ ev ∈ events, ev.block? = some b}

theorem traced_step (hinj : Set.InjOn R.blockId S) {n' : Node H} {ev : Event H} (h : n.Traced R S)
    (hS : ∀ b, ev.block? = some b → b ∈ S) (hstep : (blockchain R).step n ev = some n') :
    n'.Traced R S := by
  have hsettled := settled_step h.toSettled hstep
  cases ev with
  | addNewBlock now depth b extra =>
    have hb : b ∈ S := hS b rfl
    obtain ⟨r, hr, rfl⟩ := Option.map_eq_some_iff.mp hstep
    rcases addNewBlock_cases hr with rfl | rfl | ⟨-, -, halternative⟩
    · exact h
    · refine ⟨hsettled, ?_⟩
      have hspec := handle_spec h.toSettled now b extra
      generalize handleBlockToMainChain R now n b extra = r at hspec ⊢
      cases hspec with
      | refused m hm hchain halts => exact h.certified.congr hchain (halts ▸ Subset.refl _)
      | added m e hm he hblock hclock hchain halts =>
        refine h.certified.of_chain (fun e' he' => ?_) (halts ▸ Subset.refl _)
        rw [hchain] at he'
        rcases mem_append.mp he' with hold | hlast
        · exact h.certified.chain e' hold
        · rwa [mem_singleton.mp hlast, hblock]
    · exact traced_handleAlternativeBlock hinj hb h halternative
  | popBlocks nblocks =>
    cases hstep
    exact ⟨hsettled, (h.certified.popWhile h.toValid _ _).congr rfl (Subset.refl _)⟩
  | addTx tx =>
    cases hstep
    obtain ⟨pool, hnode⟩ := addTx_frame (R := R) n tx
    rw [hnode] at hsettled ⊢
    exact ⟨hsettled, h.certified.congr rfl (Subset.refl _)⟩
  | getDifficultyForNextBlock | cleanupHandleIncomingBlocks =>
    cases hstep
    exact ⟨hsettled, h.certified.congr rfl (Subset.refl _)⟩

omit [DecidableEq H] in
theorem certified_init (R : Rules H) (S : Set (Block H)) : (Node.init R).Certified R S :=
  ⟨fun _ h => absurd h not_mem_nil, fun _ h => absurd h not_mem_nil⟩

omit [DecidableEq H] in
theorem injOn_arrivals (h : ((events.filterMap Event.block?).map R.blockId).Nodup) :
    Set.InjOn R.blockId (arrivals events) := by
  intro b hb b' hb' heq
  obtain ⟨ev, hev, hblock⟩ := hb
  obtain ⟨ev', hev', hblock'⟩ := hb'
  exact inj_on_of_nodup_map h (mem_filterMap.mpr ⟨ev, hev, hblock⟩)
    (mem_filterMap.mpr ⟨ev', hev', hblock'⟩) heq

theorem traced_of_exec (hinj : Set.InjOn R.blockId S)
    (hS : ∀ ev ∈ events, ∀ b, ev.block? = some b → b ∈ S)
    (h : (blockchain R).exec (Node.init R) events = some n) : n.Traced R S :=
  (blockchain R).invariant_of_meets (fun hinv hev hstep => traced_step hinj hinv hev hstep)
    ⟨settled_init R, certified_init R S⟩
    ((blockchain R).meets_of_labels (fun ev hev _ => hS ev hev) _) h

end Certified

end Glaciem.Chain
