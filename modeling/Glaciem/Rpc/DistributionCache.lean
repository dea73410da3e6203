import Glaciem.Db.Ancestry
import Glaciem.Db.Distribution

/-!
# Glaciem — the cache of the output distribution

`RpcHandler::get_output_distribution` keeps the last distribution of RingCT outputs it has computed.
A request for the same range is answered from it, a longer one extends it, and one that does not fit
may give up its last ten entries first. Two block hashes say whether the chain is still the one it
was computed on.

The roll-back of the range 0..10 fails: there are entries for the heights from 2 on only, nine of
them, and the handler has moved the bounds of its cache when it finds out.
-/

namespace Glaciem.Rpc.DistributionCache

open List

open Glaciem.Db

/-! ## The handler -/

structure Cache (H : Type) where
  distribution : List Nat := []
  fromHeight : Nat := 0
  toHeight : Nat := 0
  startHeight : Nat := 0
  base : Nat := 0
  m10Hash : H
  topHash : H
  cached : Bool := false

/-- What the handler is given: the functions of the core, and the height of the chain. -/
structure Core (H : Type) where
  distribution : Nat → Nat → Nat → Except DbError (Option Distribution)
  getHash : Nat → Except DbError H
  blockchainHeight : Nat
  nullHash : H

variable {H K P C : Type}

section Handler

variable [DecidableEq H]

/-- The answer says whether the cache can be extended now; `none` is the failed check. -/
def Cache.rollBack (c : Core H) (cache : Cache H) (amount fromHeight toHeight : Nat) :
    Except DbError (Option Bool) × Cache H :=
  if cache.cached ∧ amount = 0 ∧ cache.fromHeight = fromHeight
      ∧ 10 ≤ cache.toHeight - cache.fromHeight ∧ cache.toHeight - 10 < toHeight then
    match c.getHash (cache.toHeight - 10) with
    | .error e => (.error e, cache)
    | .ok hash10 =>
      if hash10 = cache.m10Hash then
        let cache := { cache with
          toHeight := cache.toHeight - 10, topHash := hash10, m10Hash := c.nullHash }
        if 10 ≤ cache.distribution.length then
          (.ok (some true), { cache with
            distribution := cache.distribution.take (cache.distribution.length - 10) })
        else (.ok none, cache)
      else (.ok (some false), cache)
  else (.ok (some false), cache)

def Cache.compute (c : Core H) (cache : Cache H) (canExtend : Bool)
    (amount fromHeight toHeight : Nat) : Except DbError (Option Distribution) :=
  if canExtend then
    (c.distribution amount (cache.toHeight + 1) toHeight).map fun r => r.map fun r =>
      ⟨cache.startHeight, cache.distribution ++ r.distribution, cache.base⟩
  else c.distribution amount fromHeight toHeight

def trim (fromHeight toHeight : Nat) (r : Distribution) : Distribution :=
  if 0 < toHeight ∧ fromHeight ≤ toHeight then
    let offset := max fromHeight r.startHeight
    if offset ≤ toHeight ∧ toHeight - offset + 1 < r.distribution.length then
      { r with distribution := r.distribution.take (toHeight - offset + 1) }
    else r
  else r

def Cache.store (c : Core H) (cache : Cache H) (fromHeight toHeight : Nat) (r : Distribution) :
    Except DbError Unit × Cache H :=
  let cache := { cache with fromHeight := fromHeight, toHeight := toHeight }
  match c.getHash toHeight with
  | .error e => (.error e, cache)
  | .ok topHash =>
    match (if 10 ≤ toHeight then c.getHash (toHeight - 10) else .ok c.nullHash) with
    | .error e => (.error e, { cache with topHash := topHash })
    | .ok m10Hash => (.ok (),
        { distribution := r.distribution, fromHeight := fromHeight, toHeight := toHeight
          startHeight := r.startHeight, base := r.base, m10Hash := m10Hash, topHash := topHash
          cached := true })

def Cache.finish (c : Core H) (cache : Cache H) (canExtend : Bool)
    (amount fromHeight toHeight : Nat)
    (cumulative : Bool) : Except DbError (Option Distribution) × Cache H :=
  match cache.compute c canExtend amount fromHeight toHeight with
  | .error e => (.error e, cache)
  | .ok none => (.ok none, cache)
  | .ok (some r) =>
    let r := trim fromHeight toHeight r
    if amount = 0 then
      match cache.store c fromHeight toHeight r with
      | (.error e, cache) => (.error e, cache)
      | (.ok (), cache) => (.ok (some (processDistribution cumulative r)), cache)
    else (.ok (some (processDistribution cumulative r)), cache)

def getOutputDistribution (c : Core H) (cache : Cache H) (amount fromHeight toHeight : Nat)
    (cumulative : Bool) : Except DbError (Option Distribution) × Cache H :=
  match (if cache.toHeight < c.blockchainHeight then c.getHash cache.toHeight
    else .ok c.nullHash) with
  | .error e => (.error e, cache)
  | .ok topHash =>
    if cache.cached ∧ amount = 0 ∧ cache.fromHeight = fromHeight ∧ cache.toHeight = toHeight
        ∧ cache.topHash = topHash then
      (.ok (some (processDistribution cumulative
        ⟨cache.startHeight, cache.distribution, cache.base⟩)), cache)
    else if cache.cached ∧ amount = 0 ∧ cache.fromHeight = fromHeight
        ∧ cache.toHeight < toHeight ∧ topHash = cache.topHash then
      cache.finish c true amount fromHeight toHeight cumulative
    else
      match cache.rollBack c amount fromHeight toHeight with
      | (.error e, cache) => (.error e, cache)
      | (.ok none, cache) => (.ok none, cache)
      | (.ok (some canExtend), cache) =>
        cache.finish c canExtend amount fromHeight toHeight cumulative

def Cache.empty (nullHash : H) : Cache H := { m10Hash := nullHash, topHash := nullHash }

end Handler

/-! ## The answer without a cache -/

def answer (c : Core H) (amount fromHeight toHeight : Nat) (cumulative : Bool) :
    Except DbError (Option Distribution) :=
  (c.distribution amount fromHeight toHeight).map fun r => r.map fun r =>
    processDistribution cumulative (trim fromHeight toHeight r)

variable {known : NewBlock H K P C → Prop}

variable {chain : List (NewBlock H K P C)}

section Totals

variable {E : Env H K P C}

def rctDistribution (fakechain : Bool) (chain : List (NewBlock H K P C))
    (fromHeight toHeight : Nat) :
    Distribution :=
  ⟨max (rctStart fakechain) fromHeight, rctTotals chain
    (max (rctStart fakechain) fromHeight) toHeight,
    createdBelow chain 0 (max (rctStart fakechain) fromHeight)⟩

theorem rctStart_le (fakechain : Bool) : rctStart fakechain ≤ 2 := by cases fakechain <;> decide

theorem length_rctTotals (start toHeight : Nat) :
    (rctTotals chain start toHeight).length = toHeight + 1 - start := by
  rw [rctTotals, length_map, length_range']

theorem take_rctTotals {start toHeight : Nat} (h : 10 ≤ toHeight) :
    (rctTotals chain start toHeight).take ((rctTotals chain start toHeight).length - 10)
      = rctTotals chain start (toHeight - 10) := by
  have hsplit := range'_append_1 (s := start) (m := toHeight - 10 + 1 - start)
    (n := toHeight + 1 - start - (toHeight - 10 + 1 - start))
  rw [show toHeight - 10 + 1 - start + (toHeight + 1 - start - (toHeight - 10 + 1 - start))
    = toHeight + 1 - start by omega] at hsplit
  rw [length_rctTotals, rctTotals, rctTotals, ← map_take, ← hsplit, take_left']
  rw [length_range']
  omega

theorem trim_rct (fakechain : Bool) (fromHeight toHeight : Nat) :
    trim fromHeight toHeight (rctDistribution fakechain chain fromHeight toHeight)
      = rctDistribution fakechain chain fromHeight toHeight := by
  have hlength : (rctDistribution fakechain chain fromHeight toHeight).distribution.length
      = toHeight + 1 - max (rctStart fakechain) fromHeight := length_rctTotals _ _
  have hstart : (rctDistribution fakechain chain fromHeight toHeight).startHeight
      = max (rctStart fakechain) fromHeight := rfl
  unfold trim
  split
  · dsimp only
    rw [if_neg]
    rintro ⟨hoffset, hlong⟩
    rw [hlength, hstart] at hlong
    rw [hstart] at hoffset
    omega
  · rfl

section Same

variable {chain₀ : List (NewBlock H K P C)} {t : Nat} {hash : H} (h : History E known chain)
  (h₀ : History E known chain₀) (hdistinct : DistinctHashes E known)
  (hhash : hashAt E chain t = some hash) (hhash₀ : hashAt E chain₀ t = some hash)

include h h₀ hdistinct hhash hhash₀

theorem rctTotals_eq (start : Nat) : rctTotals chain₀ start t = rctTotals chain start t := by
  refine map_congr_left fun height hmem => ?_
  have := mem_range'_1.mp hmem
  exact h₀.createdBelow_eq h hdistinct hhash₀ hhash (by omega) 0

theorem rctTotals_append {start toHeight : Nat} (hstart : start ≤ t + 1) (hto : t ≤ toHeight) :
    rctTotals chain₀ start t ++ rctTotals chain (t + 1) toHeight
      = rctTotals chain start toHeight := by
  rw [rctTotals_eq h h₀ hdistinct hhash hhash₀, rctTotals, rctTotals, rctTotals, ← map_append]
  congr 1
  have hjoin := range'_append_1 (s := start) (m := t + 1 - start) (n := toHeight + 1 - (t + 1))
  rw [show start + (t + 1 - start) = t + 1 by omega,
    show t + 1 - start + (toHeight + 1 - (t + 1)) = toHeight + 1 - start by omega] at hjoin
  exact hjoin

theorem rctDistribution_eq {fakechain : Bool} {fromHeight : Nat}
    (hstart : max (rctStart fakechain) fromHeight ≤ t + 1) :
    rctDistribution fakechain chain₀ fromHeight t
      = rctDistribution fakechain chain fromHeight t := by
  unfold rctDistribution
  rw [rctTotals_eq h h₀ hdistinct hhash hhash₀, h₀.createdBelow_eq h hdistinct hhash₀ hhash hstart]

end Same

end Totals

section Requests

variable [LinearOrder H] [LinearOrder K] {E : Env H K P C} {db : Tables H K P C}

def coreOf (fakechain : Bool) (nullHash : H) (db : Tables H K P C) : Core H where
  distribution := Db.getOutputDistribution fakechain db
  getHash := fun height => orThrow (.blockDne ("Attempt to get hash from height " ++ toString height
    ++ " failed -- hash not in db")) ((db.blockInfo.get? height).map (·.hash))
  blockchainHeight := db.height
  nullHash := nullHash

section Core

variable {fakechain : Bool} {nullHash : H} {c : Core H} (hc : c = coreOf fakechain nullHash db)
  (h : Stores E chain db)

include hc h

theorem getHash_eq_ok {hash : H} {height : Nat} :
    c.getHash height = .ok hash ↔ hashAt E chain height = some hash := by
  rw [← h.getHash, hc]
  exact orThrow_eq_ok

/-- In a range of the chain the core answers, unless the range ends before the first height by more
than one. -/
theorem distribution_rct {fromHeight toHeight : Nat} (hchain : ScheduledChain chain)
    (hle : fromHeight ≤ toHeight) (hlt : toHeight < db.height)
    (hstart : rctStart fakechain < db.height) :
    c.distribution 0 fromHeight toHeight
      = if toHeight + 1 < max (rctStart fakechain) fromHeight then
          .error (.runtimeError "vector::reserve")
        else .ok (some (rctDistribution fakechain chain fromHeight toHeight)) := by
  subst hc
  refine (h.rct_eq hchain fakechain (by omega)).trans ?_
  rw [if_neg (by omega)]
  rfl

end Core

/-! ## Sound caches -/

/-- The cache is what the core would compute on a chain of known blocks. -/
structure CacheOf (E : Env H K P C) (known : NewBlock H K P C → Prop) (fakechain : Bool)
    (chain : List (NewBlock H K P C)) (cache : Cache H) : Prop where
  history : History E known chain
  le : cache.fromHeight ≤ cache.toHeight
  start_le : max (rctStart fakechain) cache.fromHeight ≤ cache.toHeight + 1
  data : (⟨cache.startHeight, cache.distribution, cache.base⟩ : Distribution)
    = rctDistribution fakechain chain cache.fromHeight cache.toHeight
  topHash : hashAt E chain cache.toHeight = some cache.topHash
  m10Hash : 10 ≤ cache.toHeight → hashAt E chain (cache.toHeight - 10) = some cache.m10Hash

def CacheSound (E : Env H K P C) (known : NewBlock H K P C → Prop) (fakechain : Bool)
    (cache : Cache H) : Prop :=
  cache.cached = true → ∃ chain, CacheOf E known fakechain chain cache

structure Sound (E : Env H K P C) (known : NewBlock H K P C → Prop) (fakechain : Bool)
    (chain : List (NewBlock H K P C)) (db : Tables H K P C) (cache : Cache H) : Prop where
  stores : Stores E chain db
  scheduled : ScheduledChain chain
  history : History E known chain
  cache : CacheSound E known fakechain cache

/-- The range 0..10 is cached, and the request begins at 0 but neither has the same range nor
extends it on the same chain. -/
def RollsBackFirst (db : Tables H K P C) (cache : Cache H) (fromHeight toHeight : Nat) : Prop :=
  cache.cached = true ∧ cache.fromHeight = 0 ∧ cache.toHeight = 10 ∧ fromHeight = 0 ∧ 0 < toHeight
    ∧ ¬ (10 ≤ toHeight ∧ (db.blockInfo.get? 10).map (·.hash) = some cache.topHash)

section Answer

variable {fakechain : Bool} {nullHash : H} {cache : Cache H} {fromHeight toHeight : Nat}

variable {c : Core H} (hc : c = coreOf fakechain nullHash db)
  (h : Sound E known fakechain chain db cache)

include hc h

theorem Sound.store (hle : fromHeight ≤ toHeight)
    (hlt : toHeight < db.height) (hstart : max (rctStart fakechain) fromHeight ≤ toHeight + 1)
    (cache' : Cache H) :
    ∃ cache'', cache'.store c fromHeight toHeight
        (rctDistribution fakechain chain fromHeight toHeight) = (.ok (), cache'')
      ∧ CacheOf E known fakechain chain cache'' := by
  rw [h.stores.height] at hlt
  obtain ⟨topHash, htop⟩ := exists_hashAt (E := E) hlt
  obtain ⟨m10Hash, hm10, hm10'⟩ : ∃ m10Hash,
      (if 10 ≤ toHeight then c.getHash (toHeight - 10)
        else .ok c.nullHash) = .ok m10Hash
      ∧ (10 ≤ toHeight → hashAt E chain (toHeight - 10) = some m10Hash) := by
    split
    · obtain ⟨m10Hash, hm10⟩ := exists_hashAt (E := E) (show toHeight - 10 < chain.length by omega)
      exact ⟨m10Hash, (getHash_eq_ok hc h.stores).mpr hm10, fun _ => hm10⟩
    · next hlow => exact ⟨_, rfl, fun h => absurd h hlow⟩
  refine ⟨{ distribution := (rctDistribution fakechain chain fromHeight toHeight).distribution,
            fromHeight := fromHeight, toHeight := toHeight
            startHeight := (rctDistribution fakechain chain fromHeight toHeight).startHeight
            base := (rctDistribution fakechain chain fromHeight toHeight).base
            m10Hash := m10Hash, topHash := topHash, cached := true },
    ?_, h.history, hle, hstart, rfl, htop, hm10'⟩
  unfold Cache.store
  rw [(getHash_eq_ok hc h.stores).mpr htop, hm10]

theorem Sound.finish (hle : fromHeight ≤ toHeight)
    (hlt : toHeight < db.height) (hstart : max (rctStart fakechain) fromHeight ≤ toHeight + 1)
    (cumulative : Bool) {cache' : Cache H} {canExtend : Bool}
    (hcompute : cache'.compute c canExtend 0 fromHeight toHeight
      = .ok (some (rctDistribution fakechain chain fromHeight toHeight))) :
    ∃ cache'', cache'.finish c canExtend 0 fromHeight toHeight cumulative
        = (.ok (some (processDistribution cumulative
            (rctDistribution fakechain chain fromHeight toHeight))), cache'')
      ∧ CacheOf E known fakechain chain cache'' := by
  obtain ⟨cache'', hstore, hcache⟩ := h.store hc hle hlt hstart cache'
  refine ⟨cache'', ?_, hcache⟩
  unfold Cache.finish
  rw [hcompute]
  dsimp only
  rw [trim_rct, if_pos rfl, hstore]

theorem Sound.answer_rct (hle : fromHeight ≤ toHeight)
    (hlt : toHeight < db.height) (hheight : rctStart fakechain < db.height) (cumulative : Bool) :
    answer c 0 fromHeight toHeight cumulative
      = if toHeight + 1 < max (rctStart fakechain) fromHeight then
          .error (.runtimeError "vector::reserve")
        else .ok (some (processDistribution cumulative
          (rctDistribution fakechain chain fromHeight toHeight))) := by
  unfold answer
  rw [distribution_rct hc h.stores h.scheduled hle hlt hheight]
  split
  · rfl
  · change Except.ok (some (processDistribution cumulative (trim _ _ _))) = _
    rw [trim_rct]

theorem Sound.compute_extend
    (hdistinct : DistinctHashes E known) (hlt : toHeight < db.height)
    (hheight : rctStart fakechain < db.height) {chain₀ : List (NewBlock H K P C)} {cache' : Cache H}
    {hash : H} (hhistory : History E known chain₀)
    (hdata : (⟨cache'.startHeight, cache'.distribution, cache'.base⟩ : Distribution)
      = rctDistribution fakechain chain₀ fromHeight cache'.toHeight)
    (hhash : hashAt E chain cache'.toHeight = some hash)
    (hhash₀ : hashAt E chain₀ cache'.toHeight = some hash)
    (hstart : max (rctStart fakechain) fromHeight ≤ cache'.toHeight + 1)
    (hmore : cache'.toHeight < toHeight) :
    cache'.compute c true 0 fromHeight toHeight
      = .ok (some (rctDistribution fakechain chain fromHeight toHeight)) := by
  have hnext : max (rctStart fakechain) (cache'.toHeight + 1) = cache'.toHeight + 1 := by omega
  have hbase := hhistory.createdBelow_eq h.history hdistinct hhash₀ hhash hstart 0
  have htotals := rctTotals_append h.history hhistory hdistinct hhash hhash₀ hstart hmore.le
  unfold Cache.compute
  rw [if_pos rfl, distribution_rct hc h.stores h.scheduled (by omega) hlt hheight, hnext,
    if_neg (by omega)]
  obtain ⟨hs, hd, hb⟩ := Distribution.mk.inj hdata
  rw [hs, hd, hb, hbase]
  change Except.ok (some (Distribution.mk _ (_ ++ rctTotals chain _ _) _)) = _
  rw [hnext, htotals]
  rfl

theorem Sound.rollBack (hdistinct : DistinctHashes E known)
    (hlt : toHeight < db.height) (hheight : rctStart fakechain < db.height)
    (hfirst : ¬ RollsBackFirst db cache fromHeight toHeight)
    (hmiss : cache.cached = true → cache.fromHeight = fromHeight →
      ¬ (cache.toHeight ≤ toHeight ∧ hashAt E chain cache.toHeight = some cache.topHash)) :
    cache.rollBack c 0 fromHeight toHeight = (.ok (some false), cache)
      ∨ ∃ cache', cache.rollBack c 0 fromHeight toHeight
            = (.ok (some true), cache')
          ∧ cache'.compute c true 0 fromHeight toHeight
            = .ok (some (rctDistribution fakechain chain fromHeight toHeight))
          ∧ max (rctStart fakechain) fromHeight ≤ toHeight + 1 := by
  unfold Cache.rollBack
  split
  · next hcond =>
    obtain ⟨hcached, -, rfl, hten, hmore⟩ := hcond
    obtain ⟨chain₀, hold⟩ := h.cache hcached
    have hto : 10 ≤ cache.toHeight := by omega
    have hlength := h.stores.height
    obtain ⟨hash10, hhash10⟩ : ∃ hash10, hashAt E chain (cache.toHeight - 10) = some hash10 :=
      exists_hashAt (by omega)
    rw [(getHash_eq_ok hc h.stores).mpr hhash10]
    dsimp only
    split
    · next hsame =>
      obtain ⟨hs, hd, hb⟩ := Distribution.mk.inj hold.data
      have htwo := rctStart_le fakechain
      -- only the range 0..10 has less than ten entries
      have hrange : ¬ (cache.fromHeight = 0 ∧ cache.toHeight = 10) := by
        rintro ⟨hzero, hten⟩
        refine hfirst ⟨hcached, hzero, hten, hzero, by omega, fun hhit => ?_⟩
        refine hmiss hcached rfl ⟨by omega, ?_⟩
        rw [hten, ← h.stores.getHash]
        exact hhit.2
      have hentries : cache.distribution.length
          = cache.toHeight + 1 - max (rctStart fakechain) cache.fromHeight := by
        rw [hd, length_rctTotals]
      refine .inr ⟨_, if_pos (by omega), ?_, by omega⟩
      refine h.compute_extend hc hdistinct hlt hheight hold.history ?_ hhash10
        ((hold.m10Hash hto).trans (congrArg some hsame.symm)) ?_ hmore
      · change Distribution.mk cache.startHeight (cache.distribution.take _) cache.base = _
        rw [hs, hd, take_rctTotals hto, hb]
        rfl
      · change max (rctStart fakechain) cache.fromHeight ≤ cache.toHeight - 10 + 1
        omega
    · exact .inl rfl
  · exact .inl rfl

theorem Sound.topHash :
    ∃ topHash, (if cache.toHeight < c.blockchainHeight then
        c.getHash cache.toHeight
      else .ok c.nullHash) = .ok topHash
      ∧ (cache.toHeight < db.height → hashAt E chain cache.toHeight = some topHash) := by
  subst hc
  split
  · next hlt =>
    have hlt' : cache.toHeight < db.height := hlt
    rw [h.stores.height] at hlt'
    obtain ⟨topHash, htop⟩ := exists_hashAt (E := E) hlt'
    exact ⟨topHash, (getHash_eq_ok rfl h.stores).mpr htop, fun _ => htop⟩
  · next hge => exact ⟨_, rfl, fun h => absurd h hge⟩

theorem Sound.request_amount {amount : Nat}
    (hamount : amount ≠ 0) (cumulative : Bool) :
    getOutputDistribution c cache amount fromHeight toHeight cumulative
      = (answer c amount fromHeight toHeight cumulative, cache) := by
  obtain ⟨topHash, htop, -⟩ := h.topHash hc
  have hrollBack : cache.rollBack c amount fromHeight toHeight
      = (.ok (some false), cache) := if_neg fun h => hamount h.2.1
  unfold getOutputDistribution
  rw [htop]
  dsimp only
  rw [if_neg fun h => hamount h.2.1, if_neg fun h => hamount h.2.1, hrollBack]
  dsimp only
  unfold Cache.finish Cache.compute answer
  rw [if_neg (by simp)]
  cases c.distribution amount fromHeight toHeight with
  | error e => rfl
  | ok r =>
    cases r with
    | none => rfl
    | some r => exact if_neg hamount

theorem Sound.request_rct
    (hdistinct : DistinctHashes E known) (hle : fromHeight ≤ toHeight) (hlt : toHeight < db.height)
    (hheight : rctStart fakechain < db.height)
    (hfirst : ¬ RollsBackFirst db cache fromHeight toHeight) (cumulative : Bool) :
    (getOutputDistribution c cache 0 fromHeight toHeight cumulative).1
        = answer c 0 fromHeight toHeight cumulative
      ∧ CacheSound E known fakechain (getOutputDistribution c cache 0
          fromHeight toHeight cumulative).2 := by
  obtain ⟨topHash, htop, hhash⟩ := h.topHash hc
  unfold getOutputDistribution
  rw [htop, h.answer_rct hc hle hlt hheight cumulative]
  dsimp only
  split
  · next hhit =>
    -- the same range, and the block at its end is the same
    obtain ⟨hcached, -, rfl, rfl, heq⟩ := hhit
    obtain ⟨chain₀, hold⟩ := h.cache hcached
    have htop₀ := hold.topHash
    rw [heq] at htop₀
    rw [hold.data, rctDistribution_eq h.history hold.history hdistinct
      (hhash hlt) htop₀ hold.start_le,
      if_neg (not_lt.mpr hold.start_le)]
    exact ⟨rfl, h.cache⟩
  · next hhit =>
    split
    · next hextend =>
      obtain ⟨hcached, -, rfl, hmore, heq⟩ := hextend
      obtain ⟨chain₀, hold⟩ := h.cache hcached
      have hstart := hold.start_le
      have htop₀ := hold.topHash
      rw [← heq] at htop₀
      obtain ⟨cache', hfinish, hcache'⟩ := h.finish hc hle hlt (by omega) cumulative
        (h.compute_extend hc hdistinct hlt hheight hold.history hold.data
          (hhash (by omega)) htop₀ hstart
          hmore)
      rw [hfinish, if_neg (by omega)]
      exact ⟨rfl, fun _ => ⟨chain, hcache'⟩⟩
    · next hextend =>
      have hmiss : cache.cached = true → cache.fromHeight = fromHeight →
          ¬ (cache.toHeight ≤ toHeight ∧ hashAt E chain cache.toHeight = some cache.topHash) := by
        rintro hcached hfrom ⟨hto, htop₀⟩
        have heq : topHash = cache.topHash := Option.mem_unique (hhash (by omega)) htop₀
        rcases lt_or_eq_of_le hto with hmore | hsame
        · exact hextend ⟨hcached, rfl, hfrom, hmore, heq⟩
        · exact hhit ⟨hcached, rfl, hfrom, hsame, heq.symm⟩
      have hcases : cache.rollBack c 0 fromHeight toHeight = _ ∨ _ :=
        h.rollBack hc hdistinct hlt hheight hfirst hmiss
      rcases hcases with hrollBack | ⟨cache', hrollBack, hcompute, hstart⟩
      · rw [hrollBack]
        dsimp only
        have hcompute : cache.compute c false 0 fromHeight toHeight = _ :=
          distribution_rct hc h.stores h.scheduled hle hlt hheight
        split
        · next hearly =>
          rw [if_pos hearly] at hcompute
          unfold Cache.finish
          rw [hcompute]
          exact ⟨rfl, h.cache⟩
        · next hstart =>
          rw [if_neg hstart] at hcompute
          obtain ⟨cache', hfinish, hcache'⟩ := h.finish hc hle hlt (by omega) cumulative hcompute
          rw [hfinish]
          exact ⟨rfl, fun _ => ⟨chain, hcache'⟩⟩
      · rw [hrollBack]
        dsimp only
        obtain ⟨cache'', hfinish, hcache''⟩ := h.finish hc hle hlt hstart cumulative hcompute
        rw [hfinish, if_neg (by omega)]
        exact ⟨rfl, fun _ => ⟨chain, hcache''⟩⟩

end Answer

/-! ## Runs -/

structure State (H K P C : Type) [LinearOrder H] [LinearOrder K] where
  db : Tables H K P C := {}
  cache : Cache H

inductive Step (H K P C : Type) where
  | chain (op : Op H K P C)
  | request (amount fromHeight toHeight : Nat) (cumulative : Bool)

def State.request (fakechain : Bool) (nullHash : H) (s : State H K P C)
    (amount fromHeight toHeight : Nat) (cumulative : Bool) :
    Except DbError (Option Distribution) × Cache H :=
  getOutputDistribution (coreOf fakechain nullHash s.db) s.cache amount fromHeight toHeight
    cumulative

def handler (E : Env H K P C) (fakechain : Bool) (nullHash : H) :
    System (State H K P C) (Step H K P C) where
  step s
    | .chain op => (databaseStep E s.db op).map fun db => { s with db := db }
    | .request amount fromHeight toHeight cumulative =>
      some { s with
        cache := (s.request fakechain nullHash amount fromHeight toHeight cumulative).2 }

/-- For the amount 0 the chain is long enough to have RingCT outputs, and the request does not have
the range 0..10 rolled back. -/
def Served (fakechain : Bool) (db : Tables H K P C) (cache : Cache H)
    (amount fromHeight toHeight : Nat) : Prop :=
  fromHeight ≤ toHeight ∧ toHeight < db.height
    ∧ (amount = 0 → rctStart fakechain < db.height ∧ ¬ RollsBackFirst db cache fromHeight toHeight)

def Serves (fakechain : Bool) (s : State H K P C) : Step H K P C → Prop
  | .chain op => op.Scheduled s.db.height
  | .request amount fromHeight toHeight _ =>
    Served fakechain s.db s.cache amount fromHeight toHeight

section Run

variable {fakechain : Bool} {nullHash : H}

theorem Sound.request {cache : Cache H} (h : Sound E known fakechain chain db cache)
    (hdistinct : DistinctHashes E known) {amount fromHeight toHeight : Nat}
    (hserved : Served fakechain db cache amount fromHeight toHeight) (cumulative : Bool) :
    (getOutputDistribution (coreOf fakechain nullHash db) cache amount fromHeight toHeight
        cumulative).1
        = answer (coreOf fakechain nullHash db) amount fromHeight toHeight cumulative
      ∧ CacheSound E known fakechain (getOutputDistribution (coreOf fakechain nullHash db) cache
          amount fromHeight toHeight cumulative).2 := by
  obtain ⟨hle, hlt, hrct⟩ := hserved
  by_cases hamount : amount = 0
  · subst hamount
    exact h.request_rct rfl hdistinct hle hlt (hrct rfl).1 (hrct rfl).2 cumulative
  · rw [h.request_amount rfl hamount]
    exact ⟨rfl, h.cache⟩

theorem Sound.chainStep {cache : Cache H} {op : Op H K P C} {db' : Tables H K P C}
    (h : Sound E known fakechain chain db cache) (hop : op.Scheduled db.height)
    (hknown : ∀ b, op = .add b → known b) (hstep : databaseStep E db op = some db') :
    Sound E known fakechain (op.onChain chain) db' cache := by
  have hstores := h.stores.step_chain hop.regular hstep
  refine ⟨hstores, h.scheduled.onChain (h.stores.height ▸ hop), ⟨hstores.linked, ?_⟩, h.cache⟩
  cases op with
  | add b => exact forall_mem_cons.mpr ⟨hknown b rfl, h.history.known⟩
  | pop => exact fun b hb => h.history.known b (mem_of_mem_tail hb)
  | pruneBlockchain pruningSeed random | updatePruning => exact h.history.known

theorem sound_step (hdistinct : DistinctHashes E known) {s s' : State H K P C} {l : Step H K P C}
    (h : ∃ chain, Sound E known fakechain chain s.db s.cache)
    (hl : Serves fakechain s l ∧ ∀ b, l = .chain (.add b) → known b)
    (hstep : (handler E fakechain nullHash).step s l = some s') :
    ∃ chain, Sound E known fakechain chain s'.db s'.cache := by
  obtain ⟨chain, hsound⟩ := h
  obtain ⟨hserves, hknown⟩ := hl
  cases l with
  | chain op =>
    obtain ⟨db', hdb', rfl⟩ := Option.map_eq_some_iff.mp hstep
    exact ⟨_, hsound.chainStep hserves (fun b hb => hknown b (congrArg _ hb)) hdb'⟩
  | request amount fromHeight toHeight cumulative =>
    cases hstep
    exact ⟨chain, hsound.stores, hsound.scheduled, hsound.history,
      (hsound.request hdistinct hserves cumulative).2⟩

end Run

/-- In every run of chain changes and requests, none of which has the range 0..10 rolled back, a
request is answered as it would be with an empty cache. -/
theorem cache_transparent_of_run {fakechain : Bool} {nullHash : H} {steps : List (Step H K P C)}
    {s : State H K P C} {amount fromHeight toHeight : Nat}
    (hdistinct : DistinctHashes E fun b => .chain (.add b) ∈ steps)
    (hmeets : (handler E fakechain nullHash).Meets (Serves fakechain)
      { cache := Cache.empty nullHash } steps)
    (hrun : (handler E fakechain nullHash).exec { cache := Cache.empty nullHash } steps = some s)
    (hserved : Served fakechain s.db s.cache amount fromHeight toHeight) (cumulative : Bool) :
    (s.request fakechain nullHash amount fromHeight toHeight cumulative).1
      = ({ s with cache := Cache.empty nullHash }.request fakechain nullHash amount
        fromHeight toHeight
          cumulative).1 := by
  have hlabels : ∀ l ∈ steps, ∀ b, l = .chain (.add b) → .chain (.add b) ∈ steps :=
    fun l hl b heq => heq ▸ hl
  have hempty : CacheSound E (fun b => .chain (.add b) ∈ steps) fakechain (Cache.empty nullHash) :=
    fun h => (nomatch h)
  have hinit : ∃ chain, Sound E (fun b => .chain (.add b) ∈ steps) fakechain chain
      ({} : Tables H K P C) (Cache.empty nullHash) :=
    ⟨[], .empty, trivial, ⟨Stores.empty.linked, fun _ h => (nomatch h)⟩, hempty⟩
  obtain ⟨chain, hsound⟩ := (handler E fakechain nullHash).invariant_of_meets
    (sound_step hdistinct) hinit ((handler E fakechain nullHash).meets_and hmeets hlabels) hrun
  have hsound₀ : Sound E (fun b => .chain (.add b) ∈ steps) fakechain chain s.db
      (Cache.empty nullHash) := ⟨hsound.stores, hsound.scheduled, hsound.history, hempty⟩
  have hserved₀ : Served fakechain s.db (Cache.empty nullHash) amount fromHeight toHeight :=
    ⟨hserved.1, hserved.2.1, fun h => ⟨(hserved.2.2 h).1, fun hfirst => (nomatch hfirst.1)⟩⟩
  exact (hsound.request hdistinct hserved cumulative).1.trans
    (hsound₀.request hdistinct hserved₀ cumulative).1.symm

end Requests

/-! ## Two requests -/

section Sample

instance (db : Tables Nat Nat Nat Nat) (cache : Cache Nat) (fromHeight toHeight : Nat) :
    Decidable (RollsBackFirst db cache fromHeight toHeight) := inferInstanceAs (Decidable (_ ∧ _))

instance (fakechain : Bool) (db : Tables Nat Nat Nat Nat) (cache : Cache Nat)
    (amount fromHeight toHeight : Nat) :
    Decidable (Served fakechain db cache amount fromHeight toHeight) :=
  inferInstanceAs (Decidable (_ ∧ _))

instance (fakechain : Bool) (s : State Nat Nat Nat Nat) : ∀ l, Decidable (Serves fakechain s l)
  | .chain op => inferInstanceAs (Decidable (op.Scheduled s.db.height))
  | .request _ _ _ _ => inferInstanceAs (Decidable (Served _ _ _ _ _ _))

/-- The top block is popped and added again between a request and a longer one. -/
def sampleSteps : List (Step Nat Nat Nat Nat) :=
  [.chain (.add (sampleFirstBlock 0 5)), .chain (.add (sampleFirstBlock 1 7)),
    .chain (.add (sampleForkBlock 2)), .request 0 0 2 true, .chain .pop,
    .chain (.add (sampleForkBlock 2)), .chain (.add (sampleForkBlock 3))]

theorem sampleSteps_distinct : DistinctHashes sampleEnv fun b => .chain (.add b) ∈ sampleSteps := by
  intro b b' hb hb' heq
  simp only [sampleSteps, mem_cons, Step.chain.injEq, Op.add.injEq, reduceCtorEq, false_or,
    not_mem_nil, or_false] at hb hb'
  -- the nonces are the heights
  have hnonce : b.block.nonce = b'.block.nonce := heq
  rcases hb with rfl | rfl | rfl | rfl | rfl <;> rcases hb' with rfl | rfl | rfl | rfl | rfl <;>
    first
    | exact ⟨rfl, rfl⟩
    | exact absurd hnonce (by decide)

theorem cache_transparent_of_run_sample :
    ∃ s, (handler sampleEnv false 100).exec { cache := Cache.empty 100 } sampleSteps = some s
      ∧ s.cache.cached = true ∧ (s.request false 100 0 0 3 true).1
        = ({ s with cache := Cache.empty 100 }.request false 100 0 0 3 true).1 := by
  have hexists : ∃ s, (handler sampleEnv false 100).execChecked
      (fun s l => decide (Serves false s l)) { cache := Cache.empty 100 } sampleSteps = some s
      ∧ s.cache.cached = true ∧ decide (Served false s.db s.cache 0 0 3) = true :=
        ⟨_, rfl, rfl, rfl⟩
  obtain ⟨s, hchecked, hcached, hserved⟩ := hexists
  obtain ⟨hrun, hmeets⟩ :=
    (handler sampleEnv false 100).exec_of_checked (fun _ _ h => of_decide_eq_true h) hchecked
  exact ⟨s, hrun, hcached, cache_transparent_of_run sampleSteps_distinct hmeets hrun
    (of_decide_eq_true hserved) true⟩

def firstSteps : List (Step Nat Nat Nat Nat) :=
  .chain (.add (sampleFirstBlock 0 5)) :: .chain (.add (sampleFirstBlock 1 7))
    :: ((List.range' 2 9).map fun height => .chain (.add (sampleForkBlock height)))
    ++ [.request 0 0 10 true]

/-- A request for the heights 0..5 after it is refused: the roll-back finds nine entries. -/
theorem roll_back_refused :
    ∃ s, (handler sampleEnv false 100).exec { cache := Cache.empty 100 } firstSteps = some s
      ∧ (s.request false 100 0 0 5 true).1 = .ok none
      ∧ ({ s with cache := Cache.empty 100 }.request false 100 0 0 5 true).1
        = .ok (some ⟨2, [1, 2, 3, 4], 0⟩) :=
  ⟨_, rfl, rfl, rfl⟩

end Sample

end Glaciem.Rpc.DistributionCache
