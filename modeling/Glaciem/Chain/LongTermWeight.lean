import Glaciem.Lib.RollingWindow
import Glaciem.Chain.Lineage

/-!
# Glaciem — the long-term median of block weights

`get_long_term_block_weight_median`, `get_next_long_term_block_weight` and
`update_next_cumulative_weight_limit` of `cryptonote_core/blockchain.cpp`. The median of up to
100000 weights is kept in a rolling median that is keyed by the hash of the last block it covers. A
request is answered from it, or by moving it one block up, or by reading the weights again.

* `weightsFrom` — the long-term weights as a function of the blocks: a block has the same weight
  whenever it is added.
-/

namespace Glaciem.Chain

open List Option

variable {H : Type}

/-! ## Configuration and state -/

def CRYPTONOTE_LONG_TERM_BLOCK_WEIGHT_WINDOW_SIZE : Nat := 100000
def CRYPTONOTE_BLOCK_GRANTED_FULL_REWARD_ZONE_V5 : Nat := 300000
def CRYPTONOTE_SHORT_TERM_BLOCK_WEIGHT_SURGE_FACTOR : Nat := 50
def HF_VERSION_LONG_TERM_BLOCK_WEIGHT : Nat := 10
def HF_VERSION_2021_SCALING : Nat := 15

structure Weighing (H : Type) where
  rules : Rules H
  /-- The weight of a block with the transactions it names. -/
  weigh : Block H → Nat
  version : Nat → Nat
  window : Nat
  window_le : window ≤ CRYPTONOTE_LONG_TERM_BLOCK_WEIGHT_WINDOW_SIZE

structure WeighedBlock (H : Type) where
  block : Block H
  longTermWeight : Nat

/-- `m_long_term_effective_median_block_weight` and the two `m_current_block_cumul_weight_…`. -/
structure WeightLimits where
  longTermEffectiveMedian : Nat := 0
  cumulWeightMedian : Nat := 0
  cumulWeightLimit : Nat := 0
  deriving DecidableEq

structure WeightState (H : Type) where
  chain : List (WeighedBlock H)
  cacheTipHash : H
  cacheRollingMedian : RollingMedian Nat
  limits : WeightLimits

/-- The state of a new `Blockchain`; what the memory of the rolling median holds is left open. -/
def WeightState.init (W : Weighing H) (memory : Nat → Nat) : WeightState H where
  chain := []
  cacheTipHash := W.rules.nullHash
  cacheRollingMedian := .new memory W.window
  limits := {}

def WeightState.blocks (s : WeightState H) : List (Block H) := s.chain.map WeighedBlock.block

def WeightState.longTermWeights (s : WeightState H) : List Nat :=
  s.chain.map WeighedBlock.longTermWeight

/-! ## The operations -/

section Model

variable [DecidableEq H] (W : Weighing H) (s : WeightState H)

def WeightState.hashAt (height : Nat) : H :=
  ((s.blocks.map W.rules.blockId)[height]?).getD W.rules.nullHash

def WeightState.getLongTermBlockWeightMedian (startHeight count : Nat) :
    Option (Nat × WeightState H) :=
  let rm := s.cacheRollingMedian
  let height := s.chain.length
  let tipHeight := startHeight + count - 1
  let tipHash := if tipHeight < height then s.hashAt W tipHeight else W.rules.nullHash
  if count = 0 then none
  else if tipHeight < height ∧ count = rm.sz ∧ tipHash = s.cacheTipHash then
    some (rm.median getMid, s)
  else if 0 < tipHeight ∧ tipHeight < height
      ∧ (count = rm.sz
        ∨ (count = rm.sz + 1 ∧ rm.sz < CRYPTONOTE_LONG_TERM_BLOCK_WEIGHT_WINDOW_SIZE))
      ∧ s.hashAt W (tipHeight - 1) = s.cacheTipHash then
    let rm := rm.insert (s.longTermWeights.getD tipHeight 0)
    some (rm.median getMid, { s with cacheTipHash := tipHash, cacheRollingMedian := rm })
  else
    let rm := rm.clear.insertAll ((s.longTermWeights.drop startHeight).take count)
    some (rm.median getMid, { s with cacheTipHash := tipHash, cacheRollingMedian := rm })

def WeightState.requestMedian : Option (Nat × WeightState H) :=
  let nblocks := min W.window s.chain.length
  s.getLongTermBlockWeightMedian W (s.chain.length - nblocks) nblocks

def boundLongTermWeight (version longTermMedian blockWeight : Nat) : Nat :=
  let effective := max CRYPTONOTE_BLOCK_GRANTED_FULL_REWARD_ZONE_V5 longTermMedian
  if version ≥ HF_VERSION_2021_SCALING then
    min (max blockWeight (effective * 10 % 2 ^ 64 / 17))
      ((effective + effective * 7 % 2 ^ 64 / 10) % 2 ^ 64)
  else min blockWeight ((effective + effective * 2 % 2 ^ 64 / 5) % 2 ^ 64)

def WeightState.getNextLongTermBlockWeight (blockWeight : Nat) : Option (Nat × WeightState H) :=
  let version := W.version s.chain.length
  if version < HF_VERSION_LONG_TERM_BLOCK_WEIGHT then some (blockWeight, s)
  else (s.requestMedian W).map fun r => (boundLongTermWeight version r.1 blockWeight, r.2)

def limitsFor (version shortTermMedian : Nat) (longTermMedian : Option Nat)
    (old : WeightLimits) : WeightLimits :=
  let fullRewardZone := (getMinBlockWeight version).toNat
  let (effective, median) := match longTermMedian with
    | none => (old.longTermEffectiveMedian, shortTermMedian)
    | some longTermMedian =>
      let effective := max CRYPTONOTE_BLOCK_GRANTED_FULL_REWARD_ZONE_V5 longTermMedian
      let least := if version ≥ HF_VERSION_2021_SCALING then effective
        else CRYPTONOTE_BLOCK_GRANTED_FULL_REWARD_ZONE_V5
      (effective, min (max least shortTermMedian)
        (CRYPTONOTE_SHORT_TERM_BLOCK_WEIGHT_SURGE_FACTOR * effective % 2 ^ 64))
  let median := if median ≤ fullRewardZone then fullRewardZone else median
  { longTermEffectiveMedian := effective
    cumulWeightMedian := median
    cumulWeightLimit := median * 2 % 2 ^ 64 }

def WeightState.getLastNBlocksWeights (count : Nat) : List Nat := (s.blocks.map W.weigh).rtake count

def WeightState.updateNextCumulativeWeightLimit : Option (WeightState H) :=
  let version := W.version s.chain.length
  let shortTermMedian := median (s.getLastNBlocksWeights W CRYPTONOTE_REWARD_BLOCKS_WINDOW)
  if version < HF_VERSION_LONG_TERM_BLOCK_WEIGHT then
    some { s with limits := limitsFor version shortTermMedian none s.limits }
  else (s.requestMedian W).map fun r =>
    { r.2 with limits := limitsFor version shortTermMedian (some r.1) r.2.limits }

def WeightState.addBlock (b : Block H) : Option (WeightState H) :=
  if b.prevId = (blockLinks W.rules).tip s.blocks ∧ b.minerTx.genHeight = some s.chain.length then
    (s.getNextLongTermBlockWeight W (W.weigh b)).map fun r =>
      { r.2 with chain := r.2.chain ++ [⟨b, r.1⟩] }
  else none

inductive WeightOp (H : Type) where
  | addBlock (b : Block H)
  | popBlock
  | request
  | update

def weighedChains : System (WeightState H) (WeightOp H) where
  step s
    | .addBlock b => s.addBlock W b
    | .popBlock => some { s with chain := s.chain.dropLast }
    | .request => (s.requestMedian W).map Prod.snd
    | .update => s.updateNextCumulativeWeightLimit W

def weighedArrivals (ops : List (WeightOp H)) : Set (Block H) := {b | .addBlock b ∈ ops}

end Model

/-! ## The weights as a function of the blocks -/

variable (W : Weighing H) (S : Set (Block H))

def nextWeight (weights : List Nat) (b : Block H) : Nat :=
  if W.version weights.length < HF_VERSION_LONG_TERM_BLOCK_WEIGHT then W.weigh b
  else boundLongTermWeight (W.version weights.length) (median (weights.rtake W.window)) (W.weigh b)

def weightsFrom (bs : List (Block H)) : List Nat := records (nextWeight W) bs

theorem weightsFrom_concat (bs : List (Block H)) (b : Block H) :
    weightsFrom W (bs ++ [b]) = weightsFrom W bs ++ [nextWeight W (weightsFrom W bs) b] :=
  records_concat _ _ _

theorem length_weightsFrom (bs : List (Block H)) :
    (weightsFrom W bs).length = bs.length := length_records _ _

/-- Nothing, or the window at the end of the chain whose last block has the hash of the cache. That
chain need not be the present one. -/
structure Cached (tipHash : H) (rm : RollingMedian Nat) : Prop where
  capacity : rm.capacity = W.window
  valid : 0 < W.window → rm.Valid
  content : rm.sz = 0 ∨ ∃ bs, Linked (blockLinks W.rules) bs ∧ (∀ b ∈ bs, b ∈ S) ∧ bs ≠ []
    ∧ (blockLinks W.rules).tip bs = tipHash ∧ rm.items = (weightsFrom W bs).rtake W.window

/-- The blocks come from `S` and name each other, the weights are those of the blocks, and the cache
is as it should be. -/
structure WeightState.Sound (s : WeightState H) : Prop where
  linked : Linked (blockLinks W.rules) s.blocks
  mem : ∀ b ∈ s.blocks, b ∈ S
  weights : s.longTermWeights = weightsFrom W s.blocks
  cached : Cached W S s.cacheTipHash s.cacheRollingMedian

section Requests

variable [DecidableEq H] {W : Weighing H} {S : Set (Block H)} {s : WeightState H}

section

omit [DecidableEq H]

theorem WeightState.length_blocks (s : WeightState H) : s.blocks.length = s.chain.length :=
  length_map _

theorem WeightState.hashAt_eq (W : Weighing H) {s : WeightState H} {k : Nat}
    (hk : k < s.chain.length) :
    s.hashAt W k = (blockLinks W.rules).tip (s.blocks.take (k + 1)) := by
  have htip := (blockLinks W.rules).tip_take_succ (s.length_blocks.symm ▸ hk)
  unfold WeightState.hashAt
  rw [getElem?_map]
  exact (congrArg (Option.getD · W.rules.nullHash) htip :)

theorem WeightState.hashAt_last (W : Weighing H) {s : WeightState H} (hpos : 0 < s.chain.length) :
    s.hashAt W (s.chain.length - 1) = (blockLinks W.rules).tip s.blocks := by
  rw [hashAt_eq W (by omega), take_of_length_le (by rw [s.length_blocks]; omega)]

theorem WeightState.length_longTermWeights (s : WeightState H) :
    s.longTermWeights.length = s.chain.length := length_map _

/-- The answer to a request: the median of the window, with the chain and the limits unchanged and
the window in the cache. -/
def WeightState.Answered (W : Weighing H) (S : Set (Block H)) (s : WeightState H)
    (answer : Option (Nat × WeightState H)) : Prop :=
  ∃ s', answer = some (median (s.longTermWeights.rtake W.window), s')
    ∧ s'.chain = s.chain ∧ s'.limits = s.limits ∧ s'.Sound W S
    ∧ s'.cacheRollingMedian.items = s.longTermWeights.rtake W.window

theorem WeightState.Sound.answered (h : s.Sound W S) (hpos : 0 < min W.window s.chain.length)
    {rm : RollingMedian Nat} (hvalid : rm.Valid) (hcapacity : rm.capacity = W.window)
    (hitems : rm.items = s.longTermWeights.rtake W.window) :
    s.Answered W S (some (rm.median getMid, { s with
      cacheTipHash := (blockLinks W.rules).tip s.blocks, cacheRollingMedian := rm })) := by
  have hlength := s.length_longTermWeights
  have hsz : 0 < rm.sz := by
    rw [← rm.length_items, hitems, length_rtake]
    omega
  have hne : s.blocks ≠ [] := ne_nil_of_length_pos (by rw [s.length_blocks]; omega)
  rw [hvalid.median_eq hsz, hitems]
  refine ⟨_, rfl, rfl, rfl, ⟨h.linked, h.mem, h.weights, hcapacity, fun _ => hvalid, .inr ?_⟩,
    hitems⟩
  exact ⟨s.blocks, h.linked, h.mem, hne, rfl, by rw [hitems, h.weights]⟩

variable (hinj : Set.InjOn W.rules.blockId S)

include hinj

/-- The hash of the cache is that of one chain only. -/
theorem Cached.items_eq {tipHash : H} {rm : RollingMedian Nat} (h : Cached W S tipHash rm)
    {bs : List (Block H)} (hlinked : Linked (blockLinks W.rules) bs) (hmem : ∀ b ∈ bs, b ∈ S)
    (hne : bs ≠ []) (htip : (blockLinks W.rules).tip bs = tipHash) :
    rm.sz = 0 ∨ rm.items = (weightsFrom W bs).rtake W.window := by
  refine h.content.imp_right ?_
  rintro ⟨bs', hlinked', hmem', hne', htip', hitems⟩
  rw [hitems, hlinked'.eq_of_tip hinj hlinked hmem' hmem hne' hne (htip'.trans htip.symm)]

/-- With a cache for the block before the last one, the weight of the last one completes it. -/
theorem WeightState.Sound.items_moved (h : s.Sound W S) (hfirst : 0 < s.chain.length - 1)
    (hcount : min W.window s.chain.length ≤ s.cacheRollingMedian.sz + 1)
    (hhash : s.hashAt W (s.chain.length - 1 - 1) = s.cacheTipHash) :
    (s.cacheRollingMedian.items ++ [s.longTermWeights.getD (s.chain.length - 1) 0]).rtake W.window
      = s.longTermWeights.rtake W.window := by
  obtain ⟨pre, b, hsplit⟩ := (eq_nil_or_concat' s.blocks).resolve_left
    (ne_nil_of_length_pos (by rw [s.length_blocks]; omega))
  have hpre : pre.length + 1 = s.chain.length := by
    rw [← s.length_blocks, hsplit, length_append, length_singleton]
  have hweights : s.longTermWeights = weightsFrom W pre ++ [s.longTermWeights.getD
      (s.chain.length - 1) 0] := by
    have hlast : s.chain.length - 1 = (weightsFrom W pre).length := by
      rw [length_weightsFrom]
      omega
    rw [h.weights, hsplit, weightsFrom_concat, hlast]
    simp
  have hold : s.hashAt W (s.chain.length - 1 - 1) = (blockLinks W.rules).tip pre := by
    rw [WeightState.hashAt_eq W (by omega), hsplit,
      take_left' (by omega : pre.length = s.chain.length - 1 - 1 + 1)]
  rcases h.cached.items_eq hinj (Stepwise.of_append (hsplit ▸ h.linked))
    (fun c hc => h.mem c (hsplit ▸ mem_append_left _ hc)) (ne_nil_of_length_pos (by omega))
    (hold.symm.trans hhash) with hempty | hitems
  · -- an empty cache is moved only if the window is at most one block
    have hone : W.window ≤ 1 := by omega
    have hnone := eq_nil_of_length_eq_zero (s.cacheRollingMedian.length_items.trans hempty)
    rw [hnone, nil_append, hweights, rtake_append_of_ge _ _ hone, ← hweights]
  · rw [hitems, ← rtake_concat, ← hweights]

end

theorem WeightState.Sound.requestMedian (h : s.Sound W S) (hinj : Set.InjOn W.rules.blockId S)
    (hpos : 0 < min W.window s.chain.length) : s.Answered W S (s.requestMedian W) := by
  have hlength := s.length_longTermWeights
  have hwindow : 0 < W.window := by omega
  have hchain : 0 < s.chain.length := by omega
  have hvalid := h.cached.valid hwindow
  have htip : s.chain.length - min W.window s.chain.length + min W.window s.chain.length - 1
      = s.chain.length - 1 := by rw [Nat.sub_add_cancel (Nat.min_le_right _ _)]
  have htipHash : (if s.chain.length - 1 < s.chain.length then s.hashAt W (s.chain.length - 1)
      else W.rules.nullHash) = (blockLinks W.rules).tip s.blocks := by
    rw [if_pos (by omega), s.hashAt_last W hchain]
  unfold WeightState.requestMedian WeightState.getLongTermBlockWeightMedian
  dsimp only
  rw [htip, htipHash, if_neg (by omega)]
  split
  · next hhit =>
    -- the cache is for the last block
    obtain ⟨-, hcount, hhash⟩ := hhit
    rcases h.cached.items_eq hinj h.linked h.mem
      (ne_nil_of_length_pos (s.length_blocks.symm ▸ hchain)) hhash with hempty | hitems
    · omega
    · have hanswered := h.answered hpos hvalid h.cached.capacity (h.weights ▸ hitems)
      rwa [hhash] at hanswered
  split
  · next hmove =>
    -- the cache is for the block before it
    obtain ⟨hfirst, -, hcount, hhash⟩ := hmove
    obtain ⟨hitems, hcapacity⟩ :=
      hvalid.items_insert (s.longTermWeights.getD (s.chain.length - 1) 0)
    refine h.answered hpos (hvalid.insert _) (hcapacity.trans h.cached.capacity) ?_
    rw [hitems, h.cached.capacity]
    exact h.items_moved hinj hfirst (by omega) hhash
  · have hcapacity : s.cacheRollingMedian.clear.capacity = W.window := h.cached.capacity
    have hblocks : (s.longTermWeights.drop (s.chain.length - min W.window s.chain.length)).take
        (min W.window s.chain.length) = s.longTermWeights.rtake W.window := by
      rw [← hlength, take_drop_eq_rtake (Nat.min_le_right _ _), rtake_min_length]
    rw [hblocks]
    obtain ⟨hvalid', hitems, hcapacity'⟩ :=
      (s.cacheRollingMedian.valid_clear (hcapacity.symm ▸ hwindow)).insertAll
        (s.longTermWeights.rtake W.window)
    refine h.answered hpos hvalid' (hcapacity'.trans hcapacity) ?_
    rw [hitems, hcapacity]
    exact rtake_of_length_le (by simp [RollingMedian.items, RollingMedian.clear, length_rtake])

variable {r : Nat × WeightState H} {s' : WeightState H}

theorem WeightState.pos_of_requestMedian (hr : s.requestMedian W = some r) :
    0 < min W.window s.chain.length := by
  by_contra hzero
  unfold WeightState.requestMedian WeightState.getLongTermBlockWeightMedian at hr
  rw [if_pos (Nat.eq_zero_of_not_pos hzero)] at hr
  cases hr

section

variable (h : s.Sound W S)

include h

theorem WeightState.Sound.of_requestMedian (hinj : Set.InjOn W.rules.blockId S)
    (hr : s.requestMedian W = some r) :
    r.1 = median (s.longTermWeights.rtake W.window) ∧ r.2.chain = s.chain
      ∧ r.2.limits = s.limits ∧ r.2.Sound W S
      ∧ r.2.cacheRollingMedian.items = s.longTermWeights.rtake W.window := by
  obtain ⟨s', hs', hrest⟩ := h.requestMedian hinj (s.pos_of_requestMedian hr)
  rw [hs'] at hr
  cases hr
  exact ⟨rfl, hrest⟩

theorem WeightState.Sound.of_getNextLongTermBlockWeight
    (hinj : Set.InjOn W.rules.blockId S) {b : Block H}
    (hr : s.getNextLongTermBlockWeight W (W.weigh b) = some r) :
    r.1 = nextWeight W (weightsFrom W s.blocks) b ∧ r.2.chain = s.chain ∧ r.2.limits = s.limits
      ∧ r.2.Sound W S := by
  unfold WeightState.getNextLongTermBlockWeight at hr
  unfold nextWeight
  rw [length_weightsFrom, s.length_blocks]
  dsimp only at hr
  split at hr
  · next hversion =>
    cases hr
    exact ⟨(if_pos hversion).symm, rfl, rfl, h⟩
  · next hversion =>
    obtain ⟨q, hq, rfl⟩ := map_eq_some_iff.mp hr
    obtain ⟨hmedian, hchain, hlimits, hsound, -⟩ := h.of_requestMedian hinj hq
    rw [if_neg hversion, ← h.weights, ← hmedian]
    exact ⟨rfl, hchain, hlimits, hsound⟩

theorem WeightState.Sound.addBlock (hinj : Set.InjOn W.rules.blockId S)
    {b : Block H} (hb : b ∈ S) (hs' : s.addBlock W b = some s') :
    s'.Sound W S ∧ s'.blocks = s.blocks ++ [b] := by
  unfold WeightState.addBlock at hs'
  split at hs'
  · next hplace =>
    obtain ⟨r, hr, rfl⟩ := map_eq_some_iff.mp hs'
    obtain ⟨hweight, hchain, -, hsound⟩ := h.of_getNextLongTermBlockWeight hinj hr
    have hblocks : (r.2.chain ++ [WeighedBlock.mk b r.1]).map WeighedBlock.block
        = s.blocks ++ [b] := by
      rw [hchain, map_append]
      rfl
    have hweights : (r.2.chain ++ [WeighedBlock.mk b r.1]).map WeighedBlock.longTermWeight
        = s.longTermWeights ++ [r.1] := by
      rw [hchain, map_append]
      rfl
    refine ⟨⟨?_, ?_, ?_, hsound.cached⟩, hblocks⟩
    · show Linked _ (map _ _)
      rw [hblocks]
      exact h.linked.concat ⟨hplace.1, hplace.2.trans (by rw [s.length_blocks])⟩
    · show ∀ c ∈ map _ _, c ∈ S
      rw [hblocks]
      intro c hc
      rcases mem_append.mp hc with hc | hc
      · exact h.mem c hc
      · rw [mem_singleton.mp hc]
        exact hb
    · show map _ _ = weightsFrom W (map _ _)
      rw [hweights, hblocks, weightsFrom_concat, h.weights, hweight]
  · cases hs'

section

omit [DecidableEq H]

theorem WeightState.Sound.popBlock :
    WeightState.Sound W S { s with chain := s.chain.dropLast } := by
  rcases eq_nil_or_concat' s.chain with hnil | ⟨pre, last, hsplit⟩
  · have hsame : s.chain.dropLast = s.chain := by rw [hnil]; rfl
    rw [hsame]
    exact h
  · have hdrop : s.chain.dropLast = pre := by rw [hsplit, dropLast_concat]
    have hblocks : s.blocks = pre.map WeighedBlock.block ++ [last.block] := by
      rw [WeightState.blocks, hsplit, map_append]
      rfl
    have hweights := h.weights
    rw [hblocks, weightsFrom_concat, WeightState.longTermWeights, hsplit, map_append] at hweights
    rw [hdrop]
    refine ⟨Stepwise.of_append (hblocks ▸ h.linked), fun b hb => h.mem b ?_,
      (append_inj' hweights rfl).1, h.cached⟩
    rw [hblocks]
    exact mem_append_left _ hb

theorem WeightState.Sound.setLimits (limits : WeightLimits) :
    WeightState.Sound W S { s with limits := limits } := ⟨h.linked, h.mem, h.weights, h.cached⟩

end

/-- The limits `update_next_cumulative_weight_limit` sets are a function of the blocks, whatever the
cache was. -/
theorem WeightState.Sound.of_update (hinj : Set.InjOn W.rules.blockId S)
    (hs' : s.updateNextCumulativeWeightLimit W = some s') :
    s'.chain = s.chain ∧ s'.Sound W S
      ∧ s'.limits = limitsFor (W.version s.chain.length)
          (median (s.getLastNBlocksWeights W CRYPTONOTE_REWARD_BLOCKS_WINDOW))
          (if W.version s.chain.length < HF_VERSION_LONG_TERM_BLOCK_WEIGHT then none
            else some (median (s.longTermWeights.rtake W.window))) s.limits
      ∧ (HF_VERSION_LONG_TERM_BLOCK_WEIGHT ≤ W.version s.chain.length →
          0 < W.window ∧ s'.cacheRollingMedian.items = s.longTermWeights.rtake W.window) := by
  unfold WeightState.updateNextCumulativeWeightLimit at hs'
  dsimp only at hs'
  split at hs'
  · next hversion =>
    cases hs'
    refine ⟨rfl, h.setLimits _, ?_, fun hlate => absurd hversion (not_lt.mpr hlate)⟩
    rw [if_pos hversion]
  · next hversion =>
    obtain ⟨r, hr, rfl⟩ := map_eq_some_iff.mp hs'
    obtain ⟨hmedian, hchain, hlimits, hsound, hitems⟩ := h.of_requestMedian hinj hr
    have hwindow : 0 < W.window :=
      lt_of_lt_of_le (s.pos_of_requestMedian hr) (Nat.min_le_left _ _)
    refine ⟨hchain, hsound.setLimits _, ?_, fun _ => ⟨hwindow, hitems⟩⟩
    rw [if_neg hversion, hmedian, hlimits]

end

def cumulWeightMedianOf (W : Weighing H) (bs : List (Block H)) : Nat :=
  (limitsFor (W.version bs.length)
    (median ((bs.map W.weigh).rtake CRYPTONOTE_REWARD_BLOCKS_WINDOW))
    (if W.version bs.length < HF_VERSION_LONG_TERM_BLOCK_WEIGHT then none
      else some (median ((weightsFrom W bs).rtake W.window))) {}).cumulWeightMedian

def weightRules (W : Weighing H) : Rules H :=
  { W.rules with nextWeightMedian := fun chain =>
      UInt64.ofNat (cumulWeightMedianOf W (chain.map Entry.block)) }

theorem cumulWeightMedian_limitsFor (version shortTermMedian : Nat) (longTermMedian : Option Nat)
    (old old' : WeightLimits) :
    (limitsFor version shortTermMedian longTermMedian old).cumulWeightMedian
      = (limitsFor version shortTermMedian longTermMedian old').cumulWeightMedian := by
  cases longTermMedian <;> rfl

theorem updateWeightLimit_eq (h : s.Sound W S) (hinj : Set.InjOn W.rules.blockId S)
    (hs' : s.updateNextCumulativeWeightLimit W = some s') (n : Node H)
    (hblocks : n.chain.map Entry.block = s.blocks) :
    (n.updateWeightLimit (weightRules W)).weightMedian
      = UInt64.ofNat s'.limits.cumulWeightMedian := by
  obtain ⟨-, -, hlimits, -⟩ := h.of_update hinj hs'
  show UInt64.ofNat (cumulWeightMedianOf W (n.chain.map Entry.block)) = _
  rw [hlimits, hblocks, cumulWeightMedianOf, s.length_blocks, ← h.weights]
  exact congrArg UInt64.ofNat (cumulWeightMedian_limitsFor _ _ _ _ _)

end Requests

/-! ## Runs -/

section Runs

variable [DecidableEq H] {W : Weighing H} {S : Set (Block H)}

omit [DecidableEq H] in
theorem sound_init (W : Weighing H) (S : Set (Block H)) (memory : Nat → Nat) :
    (WeightState.init W memory).Sound W S where
  linked := stepwise_nil
  mem := by
    intro b hb
    cases hb
  weights := rfl
  cached :=
    { capacity := rfl
      valid := fun hwindow => RollingMedian.valid_clear _ hwindow
      content := .inl rfl }

theorem sound_step (hinj : Set.InjOn W.rules.blockId S) {s s' : WeightState H} {op : WeightOp H}
    (hS : ∀ b, op = .addBlock b → b ∈ S) (h : s.Sound W S)
    (hstep : (weighedChains W).step s op = some s') : s'.Sound W S := by
  cases op with
  | addBlock b => exact (h.addBlock hinj (hS b rfl) hstep).1
  | popBlock =>
    cases hstep
    exact h.popBlock
  | request =>
    obtain ⟨r, hr, rfl⟩ := map_eq_some_iff.mp hstep
    exact (h.of_requestMedian hinj hr).2.2.2.1
  | update => exact (h.of_update hinj hstep).2.1

theorem sound_of_exec {s : WeightState H} {ops : List (WeightOp H)} {memory : Nat → Nat}
    (hinj : Set.InjOn W.rules.blockId S) (hS : weighedArrivals ops ⊆ S)
    (h : (weighedChains W).exec (WeightState.init W memory) ops = some s) : s.Sound W S := by
  refine (weighedChains W).invariant_of_meets (P := fun _ op => op ∈ ops)
    (fun hsound hop hstep => ?_) (sound_init W S memory)
    ((weighedChains W).meets_of_labels (fun _ hop _ => hop) _) h
  refine sound_step hinj (fun b hb => hS ?_) hsound hstep
  show WeightOp.addBlock b ∈ ops
  exact hb ▸ hop

/-- After any additions, pops, reorganisations and requests, a request at the end of the chain
returns the median of the long-term weights of exactly the last `min window height` blocks. -/
theorem long_term_median_of_run (W : Weighing H) (memory : Nat → Nat) (ops : List (WeightOp H))
    (s : WeightState H) (hinj : Set.InjOn W.rules.blockId (weighedArrivals ops))
    (h : (weighedChains W).exec (WeightState.init W memory) ops = some s)
    (hpos : 0 < min W.window s.chain.length) :
    (s.getLongTermBlockWeightMedian W (s.chain.length - min W.window s.chain.length)
        (min W.window s.chain.length)).map Prod.fst
      = some (median (s.longTermWeights.rtake (min W.window s.chain.length))) := by
  obtain ⟨s', hrequest, -⟩ := (sound_of_exec hinj subset_rfl h).requestMedian hinj hpos
  have hwindow : s.longTermWeights.rtake (min W.window s.chain.length)
      = s.longTermWeights.rtake W.window := by
    rw [← s.length_longTermWeights, rtake_min_length]
  unfold WeightState.requestMedian at hrequest
  rw [hwindow, hrequest, map_some]

def WeightOp.block? : WeightOp H → Option (Block H)
  | .addBlock b => some b
  | _ => none

omit [DecidableEq H] in
theorem injOn_weighedArrivals {R : Rules H} {ops : List (WeightOp H)}
    (h : ((ops.filterMap WeightOp.block?).map R.blockId).Nodup) :
    Set.InjOn R.blockId (weighedArrivals ops) := by
  have hmem : ∀ b ∈ weighedArrivals ops, b ∈ ops.filterMap WeightOp.block? :=
    fun b hb => mem_filterMap.mpr ⟨_, hb, rfl⟩
  intro b hb b' hb' heq
  exact inj_on_of_nodup_map h (hmem b hb) (hmem b' hb') heq

end Runs

def sampleWeighing : Weighing Nat where
  rules := openRules
  weigh b := 1000000 * b.nonce.toNat
  version := HardFork.versionAt
  window := 2
  window_le := by decide

def sampleWeightOps : List (WeightOp Nat) :=
  [.addBlock (sampleBlock 1 0 0 0 [] 0), .addBlock (sampleBlock 2 1 1 0 [] 0), .update,
    .addBlock (sampleBlock 3 2 2 0 [] 0), .update, .popBlock, .request,
    .addBlock (sampleBlock 4 2 2 0 [] 0)]

theorem long_term_median_of_run_sample : ∃ s : WeightState Nat,
    (weighedChains sampleWeighing).exec (WeightState.init sampleWeighing fun _ => 7) sampleWeightOps
        = some s
      ∧ s.longTermWeights = [1000000, 2000000, 2550000]
      ∧ (s.getLongTermBlockWeightMedian sampleWeighing 1 2).map Prod.fst = some 2275000 := by
  have hrun : ((weighedChains sampleWeighing).exec (WeightState.init sampleWeighing fun _ => 7)
      sampleWeightOps).map (fun s => s.longTermWeights) = some [1000000, 2000000, 2550000] := by
    decide +kernel
  obtain ⟨s, hs, hweights⟩ := map_eq_some_iff.mp hrun
  have hlength : s.chain.length = 3 := by
    rw [← s.length_longTermWeights, hweights]
    rfl
  have hmedian := long_term_median_of_run sampleWeighing (fun _ => 7) sampleWeightOps s
    (injOn_weighedArrivals (by decide +kernel)) hs (by rw [hlength]; decide)
  have hcount : min sampleWeighing.window 3 = 2 := rfl
  have hstart : 3 - 2 = 1 := rfl
  have hvalue : median ([1000000, 2000000, 2550000].rtake 2) = 2275000 := by decide
  rw [hlength, hweights, hcount, hstart, hvalue] at hmedian
  exact ⟨s, hs, hweights, hmedian⟩

/-! ## The rolling median over any run -/

inductive MedianOp where
  | insert (v : Nat)
  | clear

def MedianOp.apply (s : RollingMedian Nat) : MedianOp → RollingMedian Nat
  | .insert v => s.insert v
  | .clear => s.clear

def itemsSince (ops : List MedianOp) : List Nat :=
  ops.foldl (fun items op => match op with | .insert v => items ++ [v] | .clear => []) []

/-- After any inserts and clears the structure holds the last items, and their median is its own.
An `int` that holds the capacity holds every position and its double. -/
theorem rolling_median_of_run (data : Nat → Nat) (capacity : Nat) (hroom : 0 < capacity)
    (ops : List MedianOp) :
    let s := ops.foldl MedianOp.apply (RollingMedian.new data capacity)
    s.sz = min capacity (itemsSince ops).length
      ∧ (0 < s.sz → s.median getMid = median ((itemsSince ops).rtake capacity))
      ∧ s.idx < capacity ∧ 2 * s.minCt ≤ capacity ∧ 2 * s.maxCt ≤ capacity := by
  intro s
  have hrun : s.Valid ∧ s.items = (itemsSince ops).rtake capacity ∧ s.capacity = capacity := by
    subst s
    induction ops using reverseRecOn with
    | nil => exact ⟨RollingMedian.valid_clear _ hroom, by simp [itemsSince, rtake_eq_drop]; rfl,
        rfl⟩
    | append_singleton ops op ih =>
      obtain ⟨hvalid, hitems, hcapacity⟩ := ih
      rw [itemsSince, foldl_append, foldl_append]
      cases op with
      | insert v =>
        obtain ⟨hinsert, hkept⟩ := hvalid.items_insert v
        refine ⟨hvalid.insert v, hinsert.trans ?_, hkept.trans hcapacity⟩
        rw [hitems, hcapacity, rtake_append]
        rfl
      | clear =>
        exact ⟨RollingMedian.valid_clear _ hvalid.room, by simp [rtake_eq_drop]; rfl, hcapacity⟩
  obtain ⟨hvalid, hitems, hcapacity⟩ := hrun
  have hsize := hvalid.size_le
  have hmin := hvalid.minCt
  have hmax := hvalid.maxCt
  rw [hcapacity] at hsize
  exact ⟨by rw [← RollingMedian.length_items, hitems, length_rtake],
    fun hsz => by rw [hvalid.median_eq hsz, hitems], hcapacity ▸ hvalid.idx_lt, by omega, by omega⟩

theorem rolling_median_of_run_sample :
    let s := [MedianOp.insert 9, .clear, .insert 5, .insert 1, .insert 8, .insert 2].foldl
      MedianOp.apply (RollingMedian.new (fun _ => 0) 3)
    s.sz = 3 ∧ s.median getMid = median [1, 8, 2] := by
  obtain ⟨hsz, hmedian, -⟩ := rolling_median_of_run (fun _ => 0) 3 (by decide)
    [.insert 9, .clear, .insert 5, .insert 1, .insert 8, .insert 2]
  exact ⟨hsz, hmedian (by rw [hsz]; decide)⟩

end Glaciem.Chain
