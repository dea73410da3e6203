import Glaciem.Chain.Switch

/-!
# Glaciem — block templates

`create_block_template` of `cryptonote_core/blockchain.cpp`: a block to be mined on the tip of the
main chain, or on any known block (`from_block`). A template for the tip is cached, and given out
again with a new timestamp as long as tip, pool, address and nonce are the same.

* `TemplateSources` — what the call reads besides the node, with the value the local variable
  `median_ts` happens to have: some exits of `check_block_timestamp` do not set it, and the template
  takes it as it is.
-/

namespace Glaciem.Chain

open Option

variable {H A : Type} [DecidableEq H] [DecidableEq A]

def lastVersion : Nat := (hardForks.forkAt (hardForks.heights.length - 1)).version

structure TemplateRequest (H A : Type) where
  fromBlock : Option H
  minerAddress : A
  exNonce : List UInt8

structure Filling (H : Type) where
  minerTx : MinerTx H
  txHashes : List H
  expectedReward : UInt64
  cumulativeWeight : UInt64

structure Template (H : Type) where
  block : Block H
  difficulty : Nat
  height : Nat
  expectedReward : UInt64
  cumulativeWeight : UInt64
  seedHeight : Nat
  seedHash : H

structure CachedTemplate (H A : Type) where
  template : Template H
  address : A
  nonce : List UInt8
  poolCookie : Nat

structure TemplateSources (H A : Type) where
  now : Nat
  medianTs : Nat
  cookie : Nat
  fill : (height version : Nat) → (prevId : H) → A → List UInt8 → Option (Filling H)

/-- The node with its template cache, empty unless `m_btc_valid`. -/
structure Miner (H A : Type) where
  node : Node H
  btc : Option (CachedTemplate H A)

structure TemplateBase (H : Type) where
  height : Nat
  majorVersion : Nat
  prevId : H
  difficulty : Nat
  seedHeight : Nat
  seedHash : H

def seedHeightOf (height : Nat) : Nat := (rxSeedheight {} (UInt64.ofNat height)).toNat

variable (R : Rules H)

def mainTemplateSeed (n : Node H) (height : Nat) : Nat × H :=
  if n.hardFork.version ≥ RX_BLOCK_VERSION.toNat then
    (seedHeightOf height, idAt R n.chain (seedHeightOf height))
  else (0, R.nullHash)

def altTemplateSeed (n : Node H) (alt : List (AltBlock H)) (height : Nat) : Nat × H :=
  let seedHeight := seedHeightOf height
  (seedHeight,
    if alt.head?.any fun front => front.height ≤ seedHeight then
      ((alt.find? fun a => a.height = seedHeight + 1).map fun a => a.block.prevId).getD R.nullHash
    else idAt R n.chain seedHeight)

def tipBase (n : Node H) : TemplateBase H × Node H :=
  let height := n.chain.length
  let (difficulty, n') := n.getDifficultyForNextBlock R
  let (seedHeight, seedHash) := mainTemplateSeed R n height
  ({ height := height
     majorVersion := n.hardFork.version
     prevId := topId R n.chain
     difficulty := difficulty
     seedHeight := seedHeight
     seedHash := seedHash }, n')

def parentBase (n : Node H) (id : H) : Option (TemplateBase H) :=
  if (altBlock? n.alts id).isNone ∧ id ∉ idsOf n.chain then none
  else
    match buildAltChain R n id with
    | none => none
    | some (alt, _) =>
      let parent := n.chain.find? fun e => e.id = id
      -- the height of a block of the main chain is read from its coinbase
      let height := match parent with
        | some e => e.block.height + 1
        | none => (alt.getLast?.map AltBlock.height).getD 0 + 1
      let (seedHeight, seedHash) := match parent with
        | some _ => mainTemplateSeed R n height
        | none => altTemplateSeed R n alt height
      some
        { height := height
          majorVersion := hardForks.idealVersion height
          prevId := id
          difficulty := altDifficulty n.chain alt ((parentOf n.chain alt id).height + 1)
          seedHeight := seedHeight
          seedHash := seedHash }

variable (chain : List Nat)

/-- With its output parameter `median_ts`, which only the last of its exits sets. -/
def checkBlockTimestampOut (now ts medianTs : Nat) : Bool × Nat :=
  if ts > futureLimit now then (false, medianTs)
  else if chain.length ≥ 1 ∧ ts < GLACIEM_LAUNCH_TIMESTAMP then (false, medianTs)
  else if chain.length < BLOCKCHAIN_TIMESTAMP_CHECK_WINDOW then (true, medianTs)
  else
    let timestamps := chain.drop (chain.length - BLOCKCHAIN_TIMESTAMP_CHECK_WINDOW)
    (checkTimestampVector timestamps ts, median timestamps)

/-- The timestamp of a new template: the clock, or `median_ts` when the check refuses the clock. -/
def templateTimestamp (now medianTs : Nat) : Nat :=
  let (ok, medianTs') := checkBlockTimestampOut chain now now medianTs
  if ok then now else medianTs'

def templateOn (src : TemplateSources H A) (chain : List (Entry H)) (base : TemplateBase H)
    (req : TemplateRequest H A) : Option (Template H) :=
  if base.difficulty = 0 then none
  else
    (src.fill base.height base.majorVersion base.prevId req.minerAddress req.exNonce).map fun f =>
      { block :=
          { majorVersion := base.majorVersion
            minorVersion := lastVersion
            timestamp := templateTimestamp (timestampsOf chain) src.now src.medianTs
            prevId := base.prevId
            nonce := 0
            minerTx := f.minerTx
            txHashes := f.txHashes }
        difficulty := base.difficulty
        height := base.height
        expectedReward := f.expectedReward
        cumulativeWeight := f.cumulativeWeight
        seedHeight := base.seedHeight
        seedHash := base.seedHash }

def Miner.cached? (s : Miner H A) (cookie : Nat) (req : TemplateRequest H A) :
    Option (CachedTemplate H A) :=
  if req.fromBlock.isSome then none
  else s.btc.filter fun c => c.address = req.minerAddress ∧ c.nonce = req.exNonce
    ∧ c.poolCookie = cookie ∧ c.template.block.prevId = topId R s.node.chain

def CachedTemplate.restamp (c : CachedTemplate H A) (now : Nat) : CachedTemplate H A :=
  { c with template := { c.template with block := { c.template.block with
    timestamp := if c.template.block.timestamp < now then now else c.template.block.timestamp } } }

def Miner.createBlockTemplate (src : TemplateSources H A) (s : Miner H A)
    (req : TemplateRequest H A) : Option (Template H) × Miner H A :=
  match s.cached? R src.cookie req with
  | some c => (some (c.restamp src.now).template, { s with btc := some (c.restamp src.now) })
  | none =>
    match req.fromBlock with
    | some id =>
      ((parentBase R s.node id).bind fun base => templateOn src s.node.chain base req, s)
    | none =>
      let (base, node) := tipBase R s.node
      let template := templateOn src s.node.chain base req
      -- an outdated cached template is dropped, and a new one is cached
      (template, ⟨node, template.map fun t => ⟨t, req.minerAddress, req.exNonce, src.cookie⟩⟩)

/-! ## The timestamp of a template -/

omit [DecidableEq H] [DecidableEq A] in
theorem restamp_timestamp (c : CachedTemplate H A) (now : Nat) :
    (c.restamp now).template.block.timestamp = max c.template.block.timestamp now := by
  show (if c.template.block.timestamp < now then now else c.template.block.timestamp) = _
  split <;> omega

theorem checkBlockTimestamp_max (now ts : Nat) :
    checkBlockTimestamp chain now (max ts now) = true
      ↔ (ts ≤ futureLimit now ∧ now ≤ futureLimit now)
        ∧ (chain ≠ [] → GLACIEM_LAUNCH_TIMESTAMP ≤ ts ∨ GLACIEM_LAUNCH_TIMESTAMP ≤ now)
        ∧ (mainMedian chain ≤ ts ∨ mainMedian chain ≤ now) := by
  rw [checkBlockTimestamp_iff_notBefore, NotBefore, max_le_iff, le_max_iff, le_max_iff]

theorem mainMedian_eq {chain : List Nat} (h : BLOCKCHAIN_TIMESTAMP_CHECK_WINDOW ≤ chain.length) :
    mainMedian chain = median (chain.drop (chain.length - BLOCKCHAIN_TIMESTAMP_CHECK_WINDOW)) := by
  rw [mainMedian, if_neg (not_lt.mpr h), rtake_eq_drop]

/-- What becomes of the clock as a timestamp: it is kept, or replaced by the median, or by the value
`median_ts` had. -/
theorem templateTimestamp_eq (now medianTs : Nat) :
    templateTimestamp chain now medianTs =
      if now ≤ futureLimit now ∧ (chain ≠ [] → GLACIEM_LAUNCH_TIMESTAMP ≤ now) then
        max now (mainMedian chain)
      else medianTs := by
  have hne : chain ≠ [] ↔ chain.length ≥ 1 := List.length_pos_iff.symm
  unfold templateTimestamp checkBlockTimestampOut
  by_cases hfuture : now > futureLimit now
  · rw [if_pos hfuture, if_neg (fun h => absurd h.1 (not_le.mpr hfuture))]
    rfl
  rw [if_neg hfuture]
  by_cases hlaunch : chain.length ≥ 1 ∧ now < GLACIEM_LAUNCH_TIMESTAMP
  · rw [if_pos hlaunch, if_neg (fun h =>
      absurd (h.2 (hne.mpr hlaunch.1)) (not_le.mpr hlaunch.2))]
    rfl
  have hkept : now ≤ futureLimit now ∧ (chain ≠ [] → GLACIEM_LAUNCH_TIMESTAMP ≤ now) :=
    ⟨not_lt.mp hfuture, fun hchain => not_lt.mp fun hlt => hlaunch ⟨hne.mp hchain, hlt⟩⟩
  have hright : (if now ≤ futureLimit now ∧ (chain ≠ [] → GLACIEM_LAUNCH_TIMESTAMP ≤ now) then
      max now (mainMedian chain) else medianTs) = max now (mainMedian chain) := if_pos hkept
  rw [if_neg hlaunch, hright]
  by_cases hshort : chain.length < BLOCKCHAIN_TIMESTAMP_CHECK_WINDOW
  · rw [if_pos hshort, mainMedian, if_pos hshort, Nat.max_zero]
    rfl
  · rw [if_neg hshort, mainMedian_eq (not_lt.mp hshort)]
    unfold checkTimestampVector
    dsimp only
    split
    · rename_i hbelow
      exact (max_eq_right (le_of_lt hbelow)).symm
    · rename_i habove
      exact (max_eq_left (not_lt.mp habove)).symm

/-- A new template for the tip needs a clock past the launch, unless there is no genesis block yet,
and a median within the future limit. A cached one must be within the future limit, and must not
come to lie before launch or median. -/
def TemplateInTime (now : Nat) : Option Nat → Prop
  | none => now ≤ futureLimit now ∧ (chain ≠ [] → GLACIEM_LAUNCH_TIMESTAMP ≤ now)
      ∧ mainMedian chain ≤ futureLimit now
  | some ts => (ts ≤ futureLimit now ∧ now ≤ futureLimit now)
      ∧ (chain ≠ [] → GLACIEM_LAUNCH_TIMESTAMP ≤ ts ∨ GLACIEM_LAUNCH_TIMESTAMP ≤ now)
      ∧ (mainMedian chain ≤ ts ∨ mainMedian chain ≤ now)

theorem futureLimit_lt (now : Nat) : futureLimit now < 2 ^ 64 := Nat.mod_lt _ (by decide)

theorem templateTimestamp_accepted_iff {now : Nat} (hnow : now < 2 ^ 64) :
    (∀ medianTs < 2 ^ 64,
        checkBlockTimestamp chain now (templateTimestamp chain now medianTs) = true)
      ↔ TemplateInTime chain now none := by
  simp only [templateTimestamp_eq, TemplateInTime]
  by_cases hkept : now ≤ futureLimit now ∧ (chain ≠ [] → GLACIEM_LAUNCH_TIMESTAMP ≤ now)
  · simp only [if_pos hkept]
    rw [max_comm, checkBlockTimestamp_max]
    constructor
    · intro h
      obtain ⟨⟨hmedian, hfuture⟩, -, -⟩ := h 0 (by decide)
      exact ⟨hkept.1, hkept.2, hmedian⟩
    · rintro ⟨-, -, hmedian⟩ _ _
      exact ⟨⟨hmedian, hkept.1⟩, fun hne => .inr (hkept.2 hne), .inl le_rfl⟩
  · -- the value is taken over: one that is refused exists
    simp only [if_neg hkept]
    refine iff_of_false (fun h => ?_) fun h => hkept ⟨h.1, h.2.1⟩
    by_cases hne : chain = []
    · have hlate := (checkBlockTimestamp_iff_notBefore chain now _).mp (h (2 ^ 64 - 1) (by decide))
      have hlimit := futureLimit_lt now
      refine hkept ⟨?_, fun hne' => absurd hne hne'⟩
      omega
    · have hearly := (checkBlockTimestamp_iff_notBefore chain now 0).mp (h 0 (by decide))
      exact absurd (hearly.2.1 hne) (by decide)

omit [DecidableEq H] [DecidableEq A] in
theorem templateOn_some_iff (src : TemplateSources H A) {chain : List (Entry H)}
    {base : TemplateBase H} {req : TemplateRequest H A} {t : Template H}
    (h : templateOn src chain base req = some t) (medianTs : Nat) (t' : Template H) :
    templateOn { src with medianTs := medianTs } chain base req = some t'
      ↔ t' = { t with block := { t.block with
          timestamp := templateTimestamp (timestampsOf chain) src.now medianTs } } := by
  unfold templateOn at h ⊢
  split at h
  · cases h
  · rename_i hdifficulty
    obtain ⟨f, hfill, rfl⟩ := map_eq_some_iff.mp h
    rw [if_neg hdifficulty, hfill, map_some, Option.some.injEq, eq_comm]

/-- For every chain, clock, pool and cache: `check_block_timestamp` accepts the timestamp of the
template for the tip, whatever the uninitialised `median_ts` was, exactly when the cached timestamp,
or else the clock, meets `TemplateInTime`. -/
theorem template_timestamp_iff (R : Rules H) (src : TemplateSources H A) (s : Miner H A)
    (req : TemplateRequest H A) (t : Template H) (htip : req.fromBlock = none)
    (hnow : src.now < 2 ^ 64) (hreturned : (s.createBlockTemplate R src req).1 = some t) :
    (∀ medianTs < 2 ^ 64, ∀ t',
        (s.createBlockTemplate R { src with medianTs := medianTs } req).1 = some t' →
        checkBlockTimestamp (timestampsOf s.node.chain) src.now t'.block.timestamp = true)
      ↔ TemplateInTime (timestampsOf s.node.chain) src.now
          ((s.cached? R src.cookie req).map fun c => c.template.block.timestamp) := by
  unfold Miner.createBlockTemplate at hreturned ⊢
  cases hcached : s.cached? R src.cookie req with
  | some c =>
    simp only [hcached, Option.some.injEq, forall_eq', restamp_timestamp, checkBlockTimestamp_max]
    exact ⟨fun h => h 0 (by decide), fun h _ _ => h⟩
  | none =>
    rw [hcached] at hreturned
    simp only [htip] at hreturned
    simp only [hcached, htip]
    rw [map_none, ← templateTimestamp_accepted_iff _ hnow]
    simp only [templateOn_some_iff src hreturned, forall_eq]

def sampleSources (now medianTs : Nat) : TemplateSources Nat Nat where
  now := now
  medianTs := medianTs
  cookie := 7
  fill height _ prevId _ _ :=
    let b := sampleBlock 900 height prevId now [] 0
    some ⟨b.minerTx, [], b.minerTx.vout.headD 0, b.minerTx.weight⟩

def sampleRequest : TemplateRequest Nat Nat := ⟨none, 5, []⟩

theorem template_timestamp_accepted : ∃ n t,
    (blockchain openRules).exec (Node.init openRules) (steadyBlocks 2) = some n
      ∧ (Miner.createBlockTemplate openRules (sampleSources (afterLaunch 300) 0) ⟨n, none⟩
          sampleRequest).1 = some t
      ∧ checkBlockTimestamp (timestampsOf n.chain) (afterLaunch 300)
          t.block.timestamp = true := by
  have hrun : ((blockchain openRules).exec (Node.init openRules) (steadyBlocks 2)).bind
      (fun n => (Miner.createBlockTemplate openRules
        (sampleSources (afterLaunch 300) 0) ⟨n, none⟩ sampleRequest).1.map
          fun _ => timestampsOf n.chain)
      = some [afterLaunch 0, afterLaunch 120] := by decide +kernel
  obtain ⟨n, hn, hrest⟩ := bind_eq_some_iff.mp hrun
  obtain ⟨t, ht, hchain⟩ := map_eq_some_iff.mp hrest
  have hintime : TemplateInTime (timestampsOf n.chain) (afterLaunch 300) none := by
    rw [hchain]
    exact ⟨by decide, fun _ => by decide, by decide⟩
  have haccepted := (template_timestamp_iff openRules
    (sampleSources (afterLaunch 300) 0) ⟨n, none⟩ sampleRequest t rfl (by decide)
      ht).mpr hintime
  exact ⟨n, t, hn, ht, haccepted 0 (by decide) t ht⟩

/-- Before the launch the template takes over what `median_ts` was, here 0; a cached template stays
when the clock is set back by more than two hours. -/
theorem template_timestamp_refused :
    ((blockchain openRules).exec (Node.init openRules) (steadyBlocks 1)).map (fun n =>
      let accepts := fun now (t : Template Nat) =>
        (t.block.timestamp, checkBlockTimestamp (timestampsOf n.chain) now t.block.timestamp)
      let early := GLACIEM_LAUNCH_TIMESTAMP - 100
      let late := afterLaunch 20000
      let back := afterLaunch 1000
      let before := Miner.createBlockTemplate openRules (sampleSources early 0) ⟨n, none⟩
        sampleRequest
      let first := Miner.createBlockTemplate openRules (sampleSources late 0) ⟨n, none⟩
        sampleRequest
      let again := first.2.createBlockTemplate openRules (sampleSources back 0) sampleRequest
      [before.1.map (accepts early), first.1.map (accepts late), again.1.map (accepts back)])
      = some [some (0, false), some (afterLaunch 20000, true),
          some (afterLaunch 20000, false)] := by
  decide +kernel

end Glaciem.Chain
