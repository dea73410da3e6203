import Glaciem.Chain.Lineage
import Glaciem.Chain.Template

/-!
# Glaciem — the seed of an alternative block

The seed of the proof of work is the id of a block some way below, on the block's own chain. For an
alternative block that block is an alternative one or one of the main chain, depending on where the
fork lies; the code finds it as the parent of the alternative block one above it.
-/

namespace Glaciem.Chain

open Option hiding map_map
open List

open HardFork (versionAt)

variable {H : Type} [DecidableEq H] {R : Rules H} {S : Set (Block H)}

theorem rxSeedheight_le (height : UInt64) :
    rxSeedheight {} height = 0 ∨ (rxSeedheight {} height).toNat + 65 ≤ height.toNat := by
  unfold rxSeedheight
  split
  · exact .inl rfl
  · rename_i hlate
    right
    have hlt : 2112 < height.toNat := Nat.lt_of_not_le hlate
    have hand : ((height - 64 - 1) &&& ~~~(2048 - 1)).toNat ≤ (height - 64 - 1).toNat := by
      rw [UInt64.toNat_and]
      exact Nat.and_le_left
    have hsub : (height - 64 - 1).toNat + 65 = height.toNat := by
      rw [UInt64.toNat_sub_of_le, UInt64.toNat_sub_of_le]
      · show height.toNat - 64 - 1 + 65 = height.toNat
        omega
      · show 64 ≤ height.toNat
        omega
      · show 1 ≤ (height - 64).toNat
        rw [UInt64.toNat_sub_of_le _ _ 
          (show (64 : UInt64).toNat ≤ height.toNat by show 64 ≤ _; omega)]
        show 1 ≤ height.toNat - 64
        omega
    show ((height - 64 - 1) &&& ~~~(2048 - 1)).toNat + 65 ≤ height.toNat
    omega

theorem seedHeightOf_le (height : Nat) :
    seedHeightOf height = 0 ∨ seedHeightOf height + 65 ≤ height := by
  have hmod : (UInt64.ofNat height).toNat ≤ height := by
    rw [UInt64.toNat_ofNat']
    exact Nat.mod_le _ _
  rcases rxSeedheight_le (UInt64.ofNat height) with hzero | hle
  · exact .inl (by rw [seedHeightOf, hzero]; rfl)
  · exact .inr (hle.trans hmod)

/-! ## The alternative chain of a block -/

/-- The ids of the chain that goes over from the main chain to an alternative one at `fork`. -/
def ownIds (chain : List (Entry H)) (alt : List (AltBlock H)) (fork : Nat) : List H :=
  (idsOf chain).take fork ++ alt.map AltBlock.id

theorem walkAlts_subset (alts : List (AltBlock H)) (fuel : Nat) (id : H) :
    walkAlts alts fuel id ⊆ alts := by
  induction fuel generalizing id with
  | zero => exact nil_subset _
  | succ fuel ih =>
    unfold walkAlts
    cases ha : altBlock? alts id with
    | none => exact nil_subset _
    | some a =>
      apply append_subset.mpr
      refine ⟨ih _, cons_subset.mpr ⟨(altBlock?_eq_some ha).1, nil_subset _⟩⟩

variable {e : Entry H} {n : Node H} {b : Block H} {k : Nat}

theorem ValidChain.id_of_mem {chain : List (Entry H)} (h : ValidChain R chain) (he : e ∈ chain) :
    e.id = R.blockId e.block := by
  obtain ⟨pre, post, hsplit⟩ := append_of_mem he
  exact (h pre e post hsplit).id_eq

omit [DecidableEq H] in
theorem Lineage.genHeight {a : AltBlock H} {bs : List (Block H)} (h : Lineage R S a bs) :
    a.block.minerTx.genHeight = some a.height := by
  obtain ⟨pre, rfl⟩ := getLast?_eq_some_iff.mp h.last
  have hheight := h.height
  rw [length_append, length_singleton] at hheight
  show (blockLinks R).position a.block = some a.height
  rw [h.linked.last.2]
  congr 1
  omega

omit [DecidableEq H] in
theorem getElem?_lineOf {chain : List (Entry H)} {fork : Nat} (hle : fork ≤ chain.length)
    (alt : List (AltBlock H)) (k : Nat) :
    (lineOf chain alt fork)[fork + k]? = alt[k]?.map AltBlock.block := by
  have hlen : ((chain.take fork).map Entry.block).length = fork := by
    rw [length_map, length_take, Nat.min_eq_left hle]
  rw [lineOf, getElem?_append_right (by omega), hlen, Nat.add_sub_cancel_left, getElem?_map]

/-- What `build_alt_chain` returns in a certified node: heights count up from the fork, and the ids
are those of the line of blocks. -/
structure AltLine (R : Rules H) (S : Set (Block H)) (chain : List (Entry H))
    (alt : List (AltBlock H)) (prevId : H) (fork : Nat) : Prop extends
    Built R S chain alt prevId fork where
  heights : ∀ k a, alt[k]? = some a → a.height = fork + k
  ids : (lineOf chain alt fork).map R.blockId = ownIds chain alt fork

theorem Node.Traced.altLine (hinj : Set.InjOn R.blockId S) (h : n.Traced R S) {prevId : H}
    {alt : List (AltBlock H)} {timestamps : List Nat}
    (hbuild : buildAltChain R n prevId = some (alt, timestamps)) :
    ∃ fork, AltLine R S n.chain alt prevId fork := by
  obtain ⟨fork, hbuilt⟩ := build_lineage hinj h.chain h.certified.chain h.certified.alts hbuild
  have hstored : ∀ a ∈ alt, ∃ bs, Lineage R S a bs := by
    intro a ha
    rw [(buildAltChain_eq_some hbuild).1] at ha
    exact h.certified.alts a (walkAlts_subset _ _ _ ha)
  refine ⟨fork, hbuilt, fun k a ha => ?_, ?_⟩
  · -- the block stands at `fork + k` in the line, and at its height by its coinbase
    obtain ⟨bs, hlineage⟩ := hstored a (mem_of_getElem? ha)
    have hline : (lineOf n.chain alt fork)[fork + k]? = some a.block := by
      rw [getElem?_lineOf hbuilt.le, ha]
      rfl
    have hposition : a.block.minerTx.genHeight = some (fork + k) := (hbuilt.linked.getElem? hline).1
    rw [hlineage.genHeight] at hposition
    exact Option.some.inj hposition
  · rw [lineOf, map_append, map_map, map_map, ownIds, idsOf, ← map_take]
    congr 1
    · apply map_congr_left
      intro e he
      exact (h.chain.id_of_mem (mem_of_mem_take he)).symm
    · apply map_congr_left
      intro a ha
      obtain ⟨bs, hlineage⟩ := hstored a ha
      exact hlineage.id.symm

omit [DecidableEq H] in
theorem altSeed_of_version (chain : List (Entry H)) (alt : List (AltBlock H))
    (hversion : b.majorVersion ≥ RX_BLOCK_VERSION.toNat) (height : Nat) :
    altSeed R chain alt b height =
      if (alt.head?.any fun front => front.height ≤ seedHeightOf height) then
        ((alt.find? fun a => a.height = seedHeightOf height + 1).map
          fun a => a.block.prevId).getD R.nullHash
      else idAt R chain (seedHeightOf height) := if_pos hversion

section Line

variable {chain : List (Entry H)} {alt : List (AltBlock H)} {prevId : H} {fork : Nat}

variable (h : AltLine R S chain alt prevId fork)

include h

theorem AltLine.length_ownIds : (ownIds chain alt fork).length = fork + alt.length := by
  rw [← h.ids, length_map, length_lineOf h.le]

/-- The id at a height of the line is what the block above it names as its parent. -/
theorem AltLine.getElem?_ownIds {k : Nat}
    (hk : k < fork + alt.length) :
    (ownIds chain alt fork)[k]? = some ((blockLinks R).tip
      ((lineOf chain alt fork).take (k + 1))) := by
  rw [← h.ids, getElem?_map]
  exact (blockLinks R).tip_take_succ (by rw [length_lineOf h.le]; exact hk)

theorem AltLine.prevId_eq {k : Nat} {a : AltBlock H}
    (ha : alt[k]? = some a) :
    a.block.prevId = (blockLinks R).tip ((lineOf chain alt fork).take (fork + k)) := by
  have hline : (lineOf chain alt fork)[fork + k]? = some a.block := by
    rw [getElem?_lineOf h.le, ha]
    rfl
  exact (h.linked.getElem? hline).2

theorem AltLine.getLast?_ownIds : (ownIds chain alt fork).getLast? = some prevId := by
  have hpos := h.pos
  rw [getLast?_eq_getElem?, h.length_ownIds, h.getElem?_ownIds (by omega)]
  rw [Nat.sub_add_cancel (by omega), ← length_lineOf h.le alt, take_length, h.tip]

/-- The block at the seed height lies below the fork, or the alternative block one above it names
it. -/
theorem AltLine.altSeed_eq {b : Block H}
    (hversion : b.majorVersion ≥ RX_BLOCK_VERSION.toNat) :
    (ownIds chain alt fork)[seedHeightOf (fork + alt.length)]?
      = some (altSeed R chain alt b (fork + alt.length)) := by
  have hpos := h.pos
  have hseed := seedHeightOf_le (fork + alt.length)
  rw [altSeed_of_version chain alt hversion]
  generalize seedHeightOf (fork + alt.length) = s at hseed ⊢
  by_cases hfork : (alt.head?.any fun front => front.height ≤ s) = true
  · -- the seed block is an alternative one: the block above it is on the alternative chain too
    obtain ⟨front, hfront, hle⟩ : ∃ front, alt.head? = some front ∧ front.height ≤ s := by
      cases hhead : alt.head? with
      | none => simp [hhead] at hfork
      | some front => exact ⟨front, rfl, by simpa [hhead] using hfork⟩
    rw [(h.front front hfront).1] at hle
    obtain ⟨a, hfind⟩ : ∃ a, (alt.find? fun a => a.height = s + 1) = some a := by
      have hlt : s + 1 - fork < alt.length := by omega
      have hheight := h.heights _ _ (getElem?_eq_getElem hlt)
      apply isSome_iff_exists.mp
      apply find?_isSome.mpr
      refine ⟨alt[s + 1 - fork], getElem_mem hlt, decide_eq_true ?_⟩
      omega
    obtain ⟨k, hk⟩ := mem_iff_getElem?.mp (mem_of_find?_eq_some hfind)
    have hheight : a.height = s + 1 := by simpa using find?_some hfind
    have hindex : fork + k = s + 1 := (h.heights k a hk).symm.trans hheight
    rw [if_pos hfork, hfind, h.getElem?_ownIds (by omega), ← hindex, ← h.prevId_eq hk]
    rfl
  · -- the seed block lies below the fork
    have hlt : s < fork := by
      by_contra hge
      cases hhead : alt.head? with
      | none =>
        rw [head?_eq_none_iff.mp hhead, length_nil] at hseed
        omega
      | some front =>
        have := (h.front front hhead).1
        simp [hhead] at hfork
        omega
    have hchain : s < (idsOf chain).length := by
      have := h.le
      rw [idsOf, length_map]
      omega
    rw [if_neg hfork, ownIds, getElem?_append_left (by rw [length_take]; omega),
      getElem?_take_of_lt hlt, idAt, getElem?_eq_getElem hchain]
    rfl

end Line

/-- The chain of `b` goes over from the main chain to `alt` at some fork and ends in the parent of
`b`. The seed is the id at the seed height of this chain, and the one `b` would be checked with if
it were the main chain. -/
def OwnSeed (R : Rules H) (chain : List (Entry H)) (alt : List (AltBlock H)) (b : Block H)
    (height : Nat) (seed : H) : Prop :=
  ∃ fork, 0 < fork ∧ fork ≤ chain.length
    ∧ (ownIds chain alt fork).getLast? = some b.prevId
    ∧ (ownIds chain alt fork).length = height
    ∧ (ownIds chain alt fork)[seedHeightOf height]? = some seed
    ∧ ∀ main, idsOf main = ownIds chain alt fork → mainSeed R main b height = seed

variable {chain : List (Entry H)} {alt : List (AltBlock H)} {fork : Nat}

theorem AltLine.ownSeed
    (h : AltLine R S chain alt b.prevId fork) (hversion : b.majorVersion ≥ RX_BLOCK_VERSION.toNat) :
    OwnSeed R chain alt b (fork + alt.length) (altSeed R chain alt b (fork + alt.length)) := by
  have hseed := h.altSeed_eq hversion
  refine ⟨fork, h.pos, h.le, h.getLast?_ownIds, h.length_ownIds, hseed, fun main hmain => ?_⟩
  unfold mainSeed idAt
  rw [if_pos hversion, hmain]
  show (ownIds chain alt fork)[seedHeightOf (fork + alt.length)]?.getD _ = _
  rw [hseed]
  rfl

theorem AltLine.height_parentOf {prevId : H}
    (h : AltLine R S chain alt prevId fork) :
    (parentOf chain alt prevId).height + 1 = fork + alt.length := by
  rw [h.height, length_lineOf h.le]

/-- The calls that one call comes to: itself, and those for the blocks the main chain had above the
fork, each on the node the ones before it left. -/
inductive AltCall (R : Rules H) (now : Nat) :
    Nat → Node H → Block H → List (Tx H) → Node H → Block H → Prop
  | self (depth : Nat) (n : Node H) (b : Block H) (extra : List (Tx H)) :
      AltCall R now (depth + 1) n b extra n.invalidate b
  | pushed {depth : Nat} {n n' n₃ m : Node H} {b c d : Block H} {extra : List (Tx H)}
      {alt : List (AltBlock H)} {front : AltBlock H} {pre post : List (Block H)} {discard : Bool}
      (hplace : placeAlternativeBlock R n.invalidate b extra = .switch n' alt discard)
      (hold : (disconnect R n' front.block.prevId).2.map Entry.block = pre ++ c :: post)
      (hpush : pushAll (fun m c => handleAlternativeBlock R now depth m c [])
        (addBlocks R now (disconnect R n' front.block.prevId).1 (alt.map AltBlock.block)).1 pre
          = some n₃)
      (hcall : AltCall R now depth n₃ c [] m d) :
      AltCall R now (depth + 1) n b extra m d

theorem AltCall.traced (hinj : Set.InjOn R.blockId S) {now depth : Nat} {m : Node H} {c : Block H}
    {extra : List (Tx H)} (hcall : AltCall R now depth n b extra m c) (h : n.Traced R S)
    (hb : b ∈ S) : m.Traced R S := by
  induction hcall with
  | self depth n b extra => exact h.invalidate
  | @pushed depth n n' n₃ m b c d extra alt front pre post discard hplace hold hpush hcall ih =>
    obtain ⟨hplaced, halt⟩ := h.invalidate.place hinj hb extra
    rw [hplace] at hplaced
    have hplaced : n'.Traced R S := hplaced
    have hadded := hplaced.switched now (halt n' alt discard hplace) front.block.prevId
    have hblocks := (hplaced.certified.disconnect hplaced.toValid front.block.prevId).2
    rw [hold] at hblocks
    refine ih (pushAll_preserves (fun hx hm hr => ?_) hadded hpush)
      (hblocks c (by simp))
    exact traced_handleAlternativeBlock hinj (hblocks _ (mem_append_left _ hx)) hm hr

/-! ## Templates -/

section

variable (hinj : Set.InjOn R.blockId S) {prevId : H} (h : AltLine R S chain alt prevId fork)
  (hvalid : ValidChain R chain) (hS : ∀ e ∈ chain, e.block ∈ S) (he : chain[k]? = some e)
  (hid : e.id = prevId)

include hinj h hvalid hS he hid

/-- If the parent is a block of the main chain, the line that ends in it is the main chain up to it,
even when the parent is stored as an alternative block too. -/
theorem AltLine.eq_take : lineOf chain alt fork = (chain.take (k + 1)).map Entry.block := by
  have hmem : e ∈ chain := mem_of_getElem? he
  have hlower : ValidChain R (chain.take (k + 1)) := by
    rw [← take_append_drop (k + 1) chain] at hvalid
    exact hvalid.of_append
  have hlast : ((chain.take (k + 1)).map Entry.block).getLast? = some e.block := by
    rw [take_add_one, he, toList_some, map_append]
    exact getLast?_concat
  -- the last block of the line has the id of `e`, so it is the block of `e`
  obtain ⟨x, hx⟩ : ∃ x, (lineOf chain alt fork).getLast? = some x := by
    have hpos := h.pos
    apply isSome_iff_exists.mp
    rw [getLast?_isSome, ← length_pos_iff, length_lineOf h.le]
    omega
  have hxid : R.blockId x = R.blockId e.block := by
    have htip := h.tip
    rw [Links.tip, hx] at htip
    rw [← hvalid.id_of_mem hmem, hid, ← htip]
    rfl
  have hxe : x = e.block := hinj (h.known x (mem_of_getLast? hx)) (hS e hmem) hxid
  refine Linked.eq_of_getLast? hinj h.linked hlower.linked h.known (fun b hb => ?_) ?_
  · obtain ⟨e', he', rfl⟩ := mem_map.mp hb
    exact hS e' (mem_of_mem_take he')
  · rw [hx, hlast, hxe]

theorem AltLine.ids_eq_take : ownIds chain alt fork = (idsOf chain).take (k + 1) := by
  rw [← h.ids, h.eq_take hinj hvalid hS he hid, idsOf, map_map, ← map_take]
  apply map_congr_left
  intro e' he'
  exact (hvalid.id_of_mem (mem_of_mem_take he')).symm

end

theorem ValidChain.height_eq (h : ValidChain R chain)
    (he : chain[k]? = some e) : e.block.height = k := by
  have hget : (chain.map Entry.block)[k]? = some e.block := by
    rw [getElem?_map, he]
    rfl
  have hposition : e.block.minerTx.genHeight = some k := (h.linked.getElem? hget).1
  rw [Block.height, hposition, getD_some]

theorem versionAt_of_ge {height : Nat} (h : versionAt height ≥ RX_BLOCK_VERSION.toNat) :
    2 ≤ height := by
  unfold HardFork.versionAt at h
  split at h
  · assumption
  · exact absurd h (by decide)

theorem Node.Traced.parentBase (hinj : Set.InjOn R.blockId S) (h : n.Traced R S) {id : H}
    {base : TemplateBase H} (hbase : parentBase R n id = some base)
    (hb : b.majorVersion = base.majorVersion) (hversion : b.majorVersion ≥ RX_BLOCK_VERSION.toNat) :
    ∃ alt timestamps fork, buildAltChain R n id = some (alt, timestamps)
      ∧ AltLine R S n.chain alt id fork ∧ base.prevId = id ∧ base.height = fork + alt.length
      ∧ base.seedHash = altSeed R n.chain alt b base.height := by
  unfold Chain.parentBase at hbase
  split at hbase
  · cases hbase
  cases hbuild : buildAltChain R n id with
  | none =>
    rw [hbuild] at hbase
    cases hbase
  | some built =>
    obtain ⟨alt, timestamps⟩ := built
    obtain ⟨fork, hline⟩ := h.altLine hinj hbuild
    rw [hbuild] at hbase
    refine ⟨alt, timestamps, fork, rfl, hline, ?_⟩
    cases hparent : n.chain.find? fun e => e.id = id with
    | some e =>
      simp only [hparent, Option.some.injEq] at hbase
      subst hbase
      obtain ⟨k, hk⟩ := mem_iff_getElem?.mp (mem_of_find?_eq_some hparent)
      have hid : e.id = id := by simpa using find?_some hparent
      rw [h.chain.height_eq hk] at hb ⊢
      have hids := hline.ids_eq_take hinj h.chain h.certified.chain hk hid
      have hlen : fork + alt.length = k + 1 := by
        rw [← hline.length_ownIds, hids, length_take, idsOf, length_map]
        have := (List.getElem?_eq_some_iff.mp hk).1
        omega
      refine ⟨rfl, hlen.symm, ?_⟩
      -- the version in force now is that of the main chain, which is as high as the parent's
      have hcurrent : n.hardFork.version ≥ RX_BLOCK_VERSION.toNat := by
        have hlow : 2 ≤ k + 1 := by
          rw [hb, idealVersion_hardForks] at hversion
          exact versionAt_of_ge hversion
        have hlong := (List.getElem?_eq_some_iff.mp hk).1
        rw [h.currentVersion, HardFork.versionAt, if_pos (by omega)]
        decide
      have hseed := hline.altSeed_eq hversion
      rw [hlen, hids, getElem?_take_of_lt] at hseed
      · show (mainTemplateSeed R n (k + 1)).2 = altSeed R n.chain alt b (k + 1)
        rw [mainTemplateSeed, if_pos hcurrent]
        show idAt R n.chain (seedHeightOf (k + 1)) = _
        rw [idAt, hseed, getD_some]
      · have := seedHeightOf_le (k + 1)
        omega
    | none =>
      simp only [hparent, Option.some.injEq] at hbase
      subst hbase
      obtain ⟨a, hlast⟩ : ∃ a, alt.getLast? = some a := by
        apply isSome_iff_exists.mp
        rw [getLast?_isSome]
        rintro rfl
        -- without alternative blocks the parent is on the main chain
        obtain ⟨-, parent, hheight, -⟩ := buildAltChain_eq_some hbuild
        obtain ⟨pre, e, post, hsplit, -, hid⟩ := heightOf?_eq_some hheight
        refine find?_eq_none.mp hparent e (by rw [hsplit]; simp) ?_
        exact decide_eq_true hid
      have hheight := hline.height_parentOf
      rw [parentOf, hlast] at hheight
      rw [hlast, map_some, getD_some]
      refine ⟨rfl, hheight, ?_⟩
      rw [altSeed_of_version _ _ hversion]
      rfl

/-! ## Runs -/

/-- After every run, `handle_alternative_block` checks the work of a block with the seed of the
block's own chain, in every call an arrival leads to; a template on any known block carries that
seed as well. -/
theorem alternative_seed_of_run {A : Type} [DecidableEq A] (R : Rules H) (events : List (Event H))
    (n : Node H) (hrun : (blockchain R).exec (Node.init R) events = some n) :
    (∀ now depth b extra m c alt timestamps,
        Set.InjOn R.blockId (arrivals events ∪ {b}) → AltCall R now depth n b extra m c →
        buildAltChain R m c.prevId = some (alt, timestamps) →
        c.majorVersion ≥ RX_BLOCK_VERSION.toNat →
        OwnSeed R m.chain alt c ((parentOf m.chain alt c.prevId).height + 1)
          (altSeed R m.chain alt c ((parentOf m.chain alt c.prevId).height + 1)))
      ∧ ∀ (src : TemplateSources H A) btc req id t,
        Set.InjOn R.blockId (arrivals events) → req.fromBlock = some id →
        (Miner.createBlockTemplate R src ⟨n, btc⟩ req).1 = some t →
        t.block.majorVersion ≥ RX_BLOCK_VERSION.toNat →
        ∃ alt timestamps, buildAltChain R n t.block.prevId = some (alt, timestamps)
          ∧ t.block.prevId = id ∧ t.seedHash = altSeed R n.chain alt t.block t.height
          ∧ OwnSeed R n.chain alt t.block t.height t.seedHash := by
  constructor
  · intro now depth b extra m c alt timestamps hinj hcall hbuild hversion
    have hn : n.Traced R (arrivals events ∪ {b}) :=
      traced_of_exec hinj (fun ev hev b hb => .inl ⟨ev, hev, hb⟩) hrun
    have hm := hcall.traced hinj hn (.inr rfl)
    obtain ⟨fork, hline⟩ := hm.altLine hinj hbuild
    rw [hline.height_parentOf]
    exact hline.ownSeed hversion
  · intro src btc req id t hinj hfrom ht hversion
    have hn : n.Traced R (arrivals events) :=
      traced_of_exec hinj (fun ev hev b hb => ⟨ev, hev, hb⟩) hrun
    have hcached : Miner.cached? R ⟨n, btc⟩ src.cookie req = none := by
      rw [Miner.cached?, hfrom]
      rfl
    unfold Miner.createBlockTemplate at ht
    simp only [hcached, hfrom] at ht
    obtain ⟨base, hbase, hon⟩ := bind_eq_some_iff.mp ht
    unfold templateOn at hon
    split at hon
    · cases hon
    obtain ⟨f, -, rfl⟩ := map_eq_some_iff.mp hon
    obtain ⟨alt, timestamps, fork, hbuild, hline, hprev, hheight, hseed⟩ :=
      hn.parentBase hinj hbase rfl hversion
    rw [← hprev] at hbuild hline
    refine ⟨alt, timestamps, hbuild, hprev, hseed, ?_⟩
    show OwnSeed R n.chain alt _ base.height base.seedHash
    rw [hseed, hheight]
    exact hline.ownSeed hversion

/-- The block 13 beside the third of four, on which 14 comes next. -/
def besideRun : List (Event Nat) :=
  steadyBlocks 4 ++ [.addNewBlock (afterLaunch 400) 1
    (sampleBlock 13 2 2 (afterLaunch 300) [] 0) []]

def otherFourth : Block Nat := sampleBlock 14 3 13 (afterLaunch 420) [] 0

theorem alternative_seed_of_run_sample : ∃ n alt timestamps t alt',
    (blockchain openRules).exec (Node.init openRules) besideRun = some n
      ∧ buildAltChain openRules n.invalidate otherFourth.prevId = some (alt, timestamps)
      ∧ OwnSeed openRules n.chain alt otherFourth 3 1
      ∧ (Miner.createBlockTemplate openRules (sampleSources (afterLaunch 420) 0)
          ⟨n, none⟩ ⟨some 13, 5, []⟩).1 = some t
      ∧ OwnSeed openRules n.chain alt' t.block 3 1 := by
  have hrun : ((blockchain openRules).exec (Node.init openRules) besideRun).bind (fun n =>
      (buildAltChain openRules n.invalidate otherFourth.prevId).bind fun r =>
        (Miner.createBlockTemplate openRules (sampleSources (afterLaunch 420) 0)
          ⟨n, none⟩ ⟨some 13, 5, []⟩).1.map fun t =>
            [(parentOf n.chain r.1 otherFourth.prevId).height,
              altSeed openRules n.chain r.1 otherFourth 3,
              t.block.majorVersion, t.height, t.seedHash]) = some [2, 1, 18, 3, 1] := by
    decide +kernel
  obtain ⟨n, hn, hrest⟩ := bind_eq_some_iff.mp hrun
  obtain ⟨⟨alt, timestamps⟩, hbuild, hrest⟩ := bind_eq_some_iff.mp hrest
  obtain ⟨t, ht, hvalues⟩ := map_eq_some_iff.mp hrest
  simp only [List.cons.injEq, and_true] at hvalues
  obtain ⟨hparent, hseed, hmajor, hheight, hseed'⟩ := hvalues
  -- the arrivals and the new block have distinct ids
  have hinj : Set.InjOn openRules.blockId (arrivals besideRun ∪ {otherFourth}) := by
    have hall : Set.InjOn openRules.blockId
        (arrivals (besideRun ++ [.addNewBlock 0 1 otherFourth []])) :=
      injOn_arrivals (by decide +kernel)
    refine hall.mono ?_
    rintro b (⟨ev, hev, hb⟩ | rfl)
    · exact ⟨ev, mem_append_left _ hev, hb⟩
    · exact ⟨_, mem_append_right _ (mem_singleton.mpr rfl), rfl⟩
  obtain ⟨hcalls, htemplates⟩ := alternative_seed_of_run (A := Nat) openRules besideRun n hn
  have hown := hcalls 0 1 otherFourth [] n.invalidate otherFourth alt timestamps hinj
    (.self 0 n otherFourth []) hbuild (by decide)
  obtain ⟨alt', -, -, -, -, hown'⟩ := htemplates _ none ⟨some 13, 5, []⟩ 13 t
    (hinj.mono Set.subset_union_left) rfl ht (by rw [hmajor]; decide)
  rw [hheight, hseed'] at hown'
  refine ⟨n, alt, timestamps, t, alt', hn, hbuild, ?_, ht, hown'⟩
  have hown : OwnSeed openRules n.chain alt otherFourth
    ((parentOf n.chain alt otherFourth.prevId).height + 1)
    (altSeed openRules n.chain alt otherFourth
      ((parentOf n.chain alt otherFourth.prevId).height + 1)) := hown
  rwa [hparent, hseed] at hown

end Glaciem.Chain
