import Mathlib.Tactic

/-!
# Glaciem — hard fork versions

`HardFork` of `cryptonote_basic/hardfork.cpp`: which block version is in force at the end of the
chain, voted by the blocks of a window, for any table of forks that need no votes. The class keeps
the window of votes, the counters `last_versions` and the index of the fork in force, and each
operation updates them in its own way.

* `Follows T s chain` — the version in force and the recorded versions are those the table gives
  for the chain. All updates keep it, so no path through the node leaves the fork state behind the
  chain.
-/

namespace Glaciem.Chain

open List Function

/-- `hardfork_t`. The time is not used in the consensus rules. -/
structure Fork where
  version : Nat
  height : Nat
  threshold : Nat

structure Vote where
  version : Nat
  voting : Nat
  deriving DecidableEq

/-- `get_block_vote`: minor version 0 counts as 1. -/
def Vote.ofBlock (major minor : Nat) : Vote := ⟨major, if minor = 0 then 1 else minor⟩

/-- The forks of a network and the parameters of the class. `add_fork` accepts only increasing
versions and heights; the networks need no votes. -/
structure ForkTable where
  heights : List Fork
  originalVersion : Nat
  windowSize : Nat
  nonempty : heights ≠ []
  window_pos : 0 < windowSize
  increasing : heights.Pairwise fun f g => f.height < g.height ∧ f.version < g.version
  voteless : ∀ f ∈ heights, f.threshold = 0
  original : (heights.head nonempty).version = originalVersion

structure HardFork where
  currentForkIndex : Nat := 0
  versions : List Nat := []
  lastVersions : Nat → Nat := fun _ => 0
  dbVersions : Nat → Nat := fun _ => 0

namespace ForkTable

variable (T : ForkTable)

def forkAt (n : Nat) : Fork := T.heights.getD n ⟨T.originalVersion, 0, 0⟩

def effectiveVersion (voting : Nat) : Nat := min voting (T.forkAt (T.heights.length - 1)).version

def idealVersion (height : Nat) : Nat := go (T.heights.length - 1)
where
  go : Nat → Nat
    | 0 => T.originalVersion
    | n + 1 => if (T.forkAt (n + 1)).height ≤ height then (T.forkAt (n + 1)).version else go n

def indexDown (height : Nat) : Nat → Nat
  | 0 => 0
  | n + 1 => if (T.forkAt (n + 1)).height ≤ height then n + 1 else indexDown height n

def indexBack (version : Nat) : Nat → Nat
  | 0 => 0
  | n + 1 => if version < (T.forkAt (n + 1)).version then indexBack version n else n + 1

/-- Go on to the first fork of the version or to the last one, from index `n` with `k` to go. -/
def indexUp (version : Nat) : Nat → Nat → Nat
  | 0, n => n
  | k + 1, n => if (T.forkAt n).version ≠ version then indexUp version k (n + 1) else n

end ForkTable

namespace HardFork

/-- A block is of the version `version` and votes for it or a later one. -/
def Allows (version : Nat) (v : Vote) : Prop := v.version = version ∧ version ≤ v.voting

instance (version : Nat) (v : Vote) : Decidable (Allows version v) :=
  inferInstanceAs (Decidable (_ ∧ _))

variable (T : ForkTable) (s : HardFork)

def currentVersion : Nat := (T.forkAt s.currentForkIndex).version

def check (v : Vote) : Bool := decide (Allows (s.currentVersion T) v)

def votedLoop (height : Nat) : Nat → Nat → Nat
  | 0, _ => s.currentForkIndex
  | n + 1, accumulated =>
    let votes := accumulated + s.lastVersions (T.forkAt n).version
    let threshold := (T.windowSize * (T.forkAt n).threshold + 99) / 100
    if (T.forkAt n).height ≤ height ∧ threshold ≤ votes then n else votedLoop height n votes

def votedForkIndex (height : Nat) : Nat := s.votedLoop T height T.heights.length 0

def checkForHeight (v : Vote) (height : Nat) : Bool :=
  decide (Allows (T.forkAt (s.votedForkIndex T height)).version v)

def advanceTo (height : Nat) : HardFork :=
  { s with currentForkIndex :=
      if s.currentForkIndex < s.votedForkIndex T height then s.votedForkIndex T height
      else s.currentForkIndex }

def record (version : Nat) : HardFork :=
  { s with
    lastVersions := update s.lastVersions version (s.lastVersions version + 1)
    versions := s.versions ++ [version] }

/-- The votes that leave a window of the size `size` before a new one enters. -/
def trim (size : Nat) : List Nat → (Nat → Nat) → List Nat × (Nat → Nat)
  | [], counts => ([], counts)
  | old :: rest, counts =>
    if size ≤ rest.length + 1 then
      trim size rest (update counts old (counts old - 1))
    else (old :: rest, counts)

def add (v : Vote) (height : Nat) : HardFork :=
  if s.check T v then
    let (versions, counts) := trim T.windowSize s.versions s.lastVersions
    let s' := { s with
      dbVersions := update s.dbVersions height (s.currentVersion T)
      versions := versions
      lastVersions := counts }
    (s'.record (T.effectiveVersion v.voting)).advanceTo T (height + 1)
  else s

def cleared : HardFork := { s with versions := [], lastVersions := fun _ => 0 }

def recordAll (votes : List Vote) : HardFork :=
  votes.foldl (fun s v => s.record (T.effectiveVersion v.voting)) s

/-- One block leaves at the back of the window, the recorded version of its height enters at the
front. -/
def unrecord (height : Nat) : HardFork :=
  let last := s.versions.getLastD 0
  let counts := update s.lastVersions last (s.lastVersions last - 1)
  let version := s.dbVersions height
  { s with
    versions := version :: s.versions.dropLast
    lastVersions := update counts version (counts version + 1) }

/-- The loop of `on_block_popped` over `nblocks` heights, from the highest down. -/
def unrecordAll (newChainHeight : Nat) : Nat → HardFork → HardFork
  | 0, s => s
  | nblocks + 1, s => unrecordAll newChainHeight nblocks (s.unrecord (newChainHeight + nblocks))

def onBlockPopped (newChainHeight nblocks : Nat) : HardFork :=
  { unrecordAll newChainHeight nblocks s with
    currentForkIndex := T.indexDown newChainHeight (T.heights.length - 1) }

def addAll : HardFork → List Vote → Nat → HardFork
  | s, [], _ => s
  | s, v :: rest, height => addAll (s.add T v height) rest (height + 1)

variable (chain : List Vote)

def reorganizeFromBlockHeight (height : Nat) : HardFork :=
  if chain.length ≤ height then s
  else
    let rescanHeight := if T.windowSize - 1 ≤ height then height - (T.windowSize - 1) else 0
    let startVersion := if height = 0 then T.originalVersion else s.dbVersions height
    let s' := { s.cleared with
      currentForkIndex := T.indexBack startVersion s.currentForkIndex }
    ((s'.recordAll T ((chain.take (height + 1)).drop rescanHeight)).advanceTo T (height + 1)).addAll
      T (chain.drop (height + 1)) (height + 1)

def reorganizeFromChainHeight (height : Nat) : HardFork :=
  if height = 0 then s else s.reorganizeFromBlockHeight T chain (height - 1)

def rescanFromBlockHeight (height : Nat) : HardFork :=
  if chain.length ≤ height then s
  else
    let lastv := s.dbVersions (chain.length - 1)
    let s' := { s.cleared.recordAll T (chain.drop height) with
      currentForkIndex := T.indexUp lastv (T.heights.length - 1) 0 }
    s'.advanceTo T chain.length

def rescanFromChainHeight (height : Nat) : HardFork :=
  if height = 0 then s else s.rescanFromBlockHeight T chain (height - 1)

def init (dbVersions : Nat → Nat) : HardFork :=
  let height := if T.windowSize < chain.length then chain.length - (T.windowSize - 1) else 1
  rescanFromChainHeight T { dbVersions := dbVersions } chain height

end HardFork

/-! ## The index of a height

`indexDown` from the last fork is the index in force at a height; the other searches through the
table come to the same index. -/

namespace ForkTable

variable (T : ForkTable)

theorem length_pos : 0 < T.heights.length := length_pos_iff.mpr T.nonempty

def forkIndex (height : Nat) : Nat := T.indexDown height (T.heights.length - 1)

def versionAt (height : Nat) : Nat := (T.forkAt (T.forkIndex height)).version

variable {n height : Nat}

theorem forkAt_eq_getElem (hn : n < T.heights.length) : T.forkAt n = T.heights[n] := by
  rw [forkAt, getD_eq_getElem?_getD, getElem?_eq_getElem hn, Option.getD_some]

theorem forkAt_lt {m : Nat} (hmn : m < n) (hn : n < T.heights.length) :
    (T.forkAt m).height < (T.forkAt n).height ∧ (T.forkAt m).version < (T.forkAt n).version := by
  rw [T.forkAt_eq_getElem hn, T.forkAt_eq_getElem (hmn.trans hn)]
  exact pairwise_iff_getElem.mp T.increasing m n _ hn hmn

theorem threshold_forkAt (hn : n < T.heights.length) : (T.forkAt n).threshold = 0 := by
  rw [T.forkAt_eq_getElem hn]
  exact T.voteless _ (getElem_mem hn)

theorem version_forkAt_zero : (T.forkAt 0).version = T.originalVersion := by
  rw [T.forkAt_eq_getElem T.length_pos, ← head_eq_getElem T.nonempty, T.original]

theorem indexDown_le (height n : Nat) : T.indexDown height n ≤ n := by
  induction n with
  | zero => exact Nat.le_refl 0
  | succ n ih =>
    unfold indexDown
    split
    · exact le_rfl
    · exact Nat.le_succ_of_le ih

theorem forkIndex_lt (height : Nat) : T.forkIndex height < T.heights.length := by
  have hle : T.forkIndex height ≤ T.heights.length - 1 := T.indexDown_le height _
  have := T.length_pos
  omega

theorem height_indexDown (h : 0 < T.indexDown height n) :
    (T.forkAt (T.indexDown height n)).height ≤ height := by
  induction n with
  | zero => exact absurd h (lt_irrefl 0)
  | succ n ih =>
    unfold indexDown at h ⊢
    split
    · assumption
    · rw [if_neg (by assumption)] at h
      exact ih h

theorem lt_height_of_indexDown_lt {m : Nat} (hm : T.indexDown height n < m) (hmn : m ≤ n) :
    height < (T.forkAt m).height := by
  induction n with
  | zero => omega
  | succ n ih =>
    unfold indexDown at hm
    split at hm
    · omega
    · rename_i hnot
      rcases lt_or_ge n m with hlt | hge
      · obtain rfl : m = n + 1 := by omega
        exact Nat.lt_of_not_le hnot
      · exact ih hm hge

theorem forkIndex_eq (hn : n < T.heights.length) (hlow : 0 < n → (T.forkAt n).height ≤ height)
    (hhigh : ∀ m, n < m → m < T.heights.length → height < (T.forkAt m).height) :
    T.forkIndex height = n := by
  rcases lt_trichotomy (T.forkIndex height) n with hlt | heq | hgt
  · have := T.lt_height_of_indexDown_lt hlt (by omega)
    omega
  · exact heq
  · have := hhigh _ hgt (T.forkIndex_lt height)
    have := T.height_indexDown (Nat.zero_lt_of_lt hgt)
    unfold forkIndex at *
    omega

theorem forkIndex_mono {h h' : Nat} (hle : h ≤ h') : T.forkIndex h ≤ T.forkIndex h' := by
  by_contra hlt
  have hpos : 0 < T.forkIndex h := by omega
  have hheight : (T.forkAt (T.forkIndex h)).height ≤ h := T.height_indexDown hpos
  have hlast : T.forkIndex h ≤ T.heights.length - 1 := T.indexDown_le h _
  have := T.lt_height_of_indexDown_lt (Nat.lt_of_not_le hlt) hlast
  omega

theorem forkIndex_zero_of_lt (h : height < (T.forkAt 0).height) : T.forkIndex height = 0 := by
  refine T.forkIndex_eq T.length_pos (fun hpos => absurd hpos (lt_irrefl 0)) fun m hm hlen => ?_
  exact h.trans (T.forkAt_lt hm hlen).1

theorem forkIndex_zero : T.forkIndex 0 = 0 := by
  refine T.forkIndex_eq T.length_pos (fun hpos => absurd hpos (lt_irrefl 0)) fun m hm hlen => ?_
  exact Nat.zero_lt_of_lt (T.forkAt_lt hm hlen).1

theorem versionAt_zero : T.versionAt 0 = T.originalVersion := by
  rw [versionAt, forkIndex_zero, version_forkAt_zero]

theorem idealVersion_eq (height : Nat) : T.idealVersion height = T.versionAt height := by
  unfold idealVersion versionAt forkIndex
  induction T.heights.length - 1 with
  | zero => exact T.version_forkAt_zero.symm
  | succ n ih =>
    unfold idealVersion.go indexDown
    split
    · rfl
    · exact ih

theorem indexBack_eq (hn : n < T.heights.length) (hle : T.forkIndex height ≤ n) :
    T.indexBack (T.versionAt height) n = T.forkIndex height := by
  induction n with
  | zero => exact (Nat.le_zero.mp hle).symm
  | succ n ih =>
    unfold indexBack
    rcases lt_or_eq_of_le hle with hlt | heq
    · have hversion : T.versionAt height < (T.forkAt (n + 1)).version := (T.forkAt_lt hlt hn).2
      rw [if_pos hversion]
      exact ih (by omega) (by omega)
    · rw [versionAt, heq, if_neg (lt_irrefl _)]

theorem indexUp_eq {k : Nat} (hk : n + k = T.heights.length - 1) (hle : n ≤ T.forkIndex height) :
    T.indexUp (T.versionAt height) k n = T.forkIndex height := by
  induction k generalizing n with
  | zero =>
    have := T.forkIndex_lt height
    unfold indexUp
    omega
  | succ k ih =>
    unfold indexUp
    rcases lt_or_eq_of_le hle with hlt | heq
    · have hversion : (T.forkAt n).version < T.versionAt height :=
        (T.forkAt_lt hlt (T.forkIndex_lt height)).2
      rw [if_pos (ne_of_lt hversion)]
      exact ih (by omega) hlt
    · rw [versionAt, ← heq, if_neg (not_not.mpr rfl)]

end ForkTable

namespace HardFork

variable {T : ForkTable} {s : HardFork}

variable {n : Nat} {chain : List Vote}

theorem votedLoop_eq (height : Nat) (hn : n < T.heights.length) (accumulated : Nat) :
    s.votedLoop T height (n + 1) accumulated =
      if (T.forkAt 0).height ≤ height then T.indexDown height n else s.currentForkIndex := by
  induction n generalizing accumulated with
  | zero =>
    simp only [votedLoop, T.threshold_forkAt hn, mul_zero, zero_add, Nat.reduceDiv,
      zero_le, and_true]
    rfl
  | succ n ih =>
    rw [votedLoop, T.threshold_forkAt hn, ih (by omega)]
    simp only [mul_zero, zero_add, Nat.reduceDiv, zero_le, and_true,
      ForkTable.indexDown]
    have hfirst : (T.forkAt 0).height < (T.forkAt (n + 1)).height :=
      (T.forkAt_lt (Nat.zero_lt_succ n) hn).1
    split
    · rw [if_pos (by omega)]
    · rfl

theorem votedForkIndex_eq (s : HardFork) (height : Nat) :
    s.votedForkIndex T height =
      if (T.forkAt 0).height ≤ height then T.forkIndex height else s.currentForkIndex := by
  have hpos := T.length_pos
  unfold votedForkIndex ForkTable.forkIndex
  obtain ⟨n, hn⟩ : ∃ n, T.heights.length = n + 1 := ⟨T.heights.length - 1, by omega⟩
  rw [hn, votedLoop_eq height (by omega), Nat.add_sub_cancel]

theorem advanceTo_index {h h' : Nat} (hle : h ≤ h') (hindex : s.currentForkIndex = T.forkIndex h) :
    (s.advanceTo T h').currentForkIndex = T.forkIndex h' := by
  have hmono := T.forkIndex_mono hle
  simp only [advanceTo, votedForkIndex_eq, hindex]
  split
  · split <;> omega
  · rename_i hnot
    rw [T.forkIndex_zero_of_lt (Nat.lt_of_not_le hnot)] at hmono ⊢
    split <;> omega

/-! ## The counters -/

def Counted (s : HardFork) : Prop := s.lastVersions = fun v => s.versions.count v

theorem counted_cleared (s : HardFork) : s.cleared.Counted := by
  funext v
  exact count_nil.symm

theorem Counted.record (h : s.Counted) (version : Nat) : (s.record version).Counted := by
  funext v
  simp only [HardFork.record, count_append, count_singleton]
  rw [show s.lastVersions = _ from h]
  by_cases hv : v = version
  · subst hv
    simp
  · rw [update_of_ne hv]
    simp [Ne.symm hv]

theorem counted_trim (size : Nat) (versions : List Nat) :
    (trim size versions fun v => versions.count v).2 =
      fun v => (trim size versions fun v => versions.count v).1.count v := by
  induction versions with
  | nil => rfl
  | cons old rest ih =>
    unfold trim
    split
    · -- the oldest vote leaves, and one is taken off its counter
      have hcounts : update (fun v => (old :: rest).count v) old
          ((old :: rest).count old - 1) = fun v => rest.count v := by
        funext v
        by_cases hv : v = old
        · subst hv
          simp
        · rw [update_of_ne hv, count_cons_of_ne (Ne.symm hv)]
      rw [hcounts]
      exact ih
    · rfl

theorem Counted.trimmed (h : s.Counted) (size version : Nat) (dbVersions : Nat → Nat) :
    (HardFork.record { s with
      dbVersions := dbVersions
      versions := (trim size s.versions s.lastVersions).1
      lastVersions := (trim size s.versions s.lastVersions).2 } version).Counted := by
  have htrim := counted_trim size s.versions
  rw [← show s.lastVersions = _ from h] at htrim
  exact Counted.record (s := { s with dbVersions := _, versions := _, lastVersions := _ }) htrim _

theorem Counted.add (h : s.Counted) (v : Vote) (height : Nat) : (s.add T v height).Counted := by
  unfold HardFork.add
  split
  · exact h.trimmed _ _ _
  · exact h

theorem Counted.unrecord (h : s.Counted) (hne : s.versions ≠ []) (height : Nat) :
    (s.unrecord height).Counted := by
  obtain ⟨init, last, hversions⟩ := eq_nil_or_concat s.versions |>.resolve_left hne
  rw [concat_eq_append] at hversions
  have hcounts : update s.lastVersions last (s.lastVersions last - 1) =
      fun v => init.count v := by
    funext v
    rw [show s.lastVersions = _ from h, hversions]
    by_cases hv : v = last
    · subst hv
      simp
    · rw [update_of_ne hv]
      simp [Ne.symm hv]
  funext v
  simp only [HardFork.unrecord, hversions, getLastD_concat, dropLast_concat, hcounts]
  by_cases hv : v = s.dbVersions height
  · subst hv
    simp
  · rw [update_of_ne hv, count_cons_of_ne (Ne.symm hv)]

theorem unrecordAll_spec (newChainHeight nblocks : Nat) (h : s.Counted) (hne : s.versions ≠ []) :
    (unrecordAll newChainHeight nblocks s).Counted
      ∧ (unrecordAll newChainHeight nblocks s).versions ≠ []
      ∧ (unrecordAll newChainHeight nblocks s).dbVersions = s.dbVersions := by
  induction nblocks generalizing s with
  | zero => exact ⟨h, hne, rfl⟩
  | succ nblocks ih =>
    obtain ⟨hcounted, hfilled, hdb⟩ :=
      ih (h.unrecord hne (newChainHeight + nblocks)) (cons_ne_nil _ _)
    exact ⟨hcounted, hfilled, hdb⟩

theorem recordAll_spec (votes : List Vote) (h : s.Counted) :
    (s.recordAll T votes).Counted
      ∧ (s.recordAll T votes).versions
        = s.versions ++ votes.map (fun v => T.effectiveVersion v.voting)
      ∧ (s.recordAll T votes).currentForkIndex = s.currentForkIndex
      ∧ (s.recordAll T votes).dbVersions = s.dbVersions := by
  induction votes generalizing s with
  | nil => exact ⟨h, (append_nil _).symm, rfl, rfl⟩
  | cons v votes ih =>
    obtain ⟨hcounted, hversions, hindex, hdb⟩ := ih (h.record (T.effectiveVersion v.voting))
    refine ⟨hcounted, hversions.trans ?_, hindex, hdb⟩
    rw [HardFork.record, map_cons, append_assoc, singleton_append]

/-! ## Every operation keeps the state with the chain -/

/-- The index and the recorded versions are those of the heights, the counters are the counts of the
window, and the window is not empty unless the chain is. -/
structure Follows (T : ForkTable) (s : HardFork) (chain : List Vote) : Prop where
  index : s.currentForkIndex = T.forkIndex chain.length
  recorded : ∀ h < chain.length, s.dbVersions h = T.versionAt h
  accepted : ∀ k v, chain[k]? = some v → Allows (T.versionAt k) v
  counted : s.Counted
  filled : chain ≠ [] → s.versions ≠ []

section

variable (h : s.Follows T chain)

include h

theorem Follows.currentVersion : s.currentVersion T = T.versionAt chain.length := by
  rw [HardFork.currentVersion, h.index, ForkTable.versionAt]

theorem Follows.check (v : Vote) :
    s.check T v = decide (Allows (T.versionAt chain.length) v) := by
  rw [HardFork.check, h.currentVersion]

theorem Follows.add {v : Vote}
    (hv : Allows (T.versionAt chain.length) v) :
    (s.add T v chain.length).Follows T (chain ++ [v]) := by
  have hcheck : s.check T v = true := by rw [h.check, decide_eq_true hv]
  have hcounted : (s.add T v chain.length).Counted := h.counted.add v chain.length
  unfold HardFork.add at hcounted ⊢
  rw [if_pos hcheck] at hcounted ⊢
  refine ⟨?_, fun k hk => ?_, fun k v' hk => ?_, hcounted, fun _ => concat_ne_nil _ _⟩
  · rw [length_append, length_singleton]
    exact advanceTo_index (Nat.le_succ _) h.index
  · rw [length_append, length_singleton] at hk
    show update s.dbVersions chain.length (s.currentVersion T) k = _
    by_cases hkn : k = chain.length
    · subst hkn
      rw [update_self, h.currentVersion]
    · rw [update_of_ne hkn]
      exact h.recorded k (by omega)
  · rcases lt_or_ge k chain.length with hlt | hge
    · rw [getElem?_append_left hlt] at hk
      exact h.accepted k v' hk
    · obtain ⟨rfl, hk0⟩ : v' = v ∧ k = chain.length := by
        rw [getElem?_append_right hge, getElem?_singleton] at hk
        split at hk
        · exact ⟨(Option.some.inj hk).symm, by omega⟩
        · cases hk
      rwa [hk0]

theorem Follows.of_take (hn : n ≤ chain.length) :
    (∀ h < (chain.take n).length, s.dbVersions h = T.versionAt h)
      ∧ ∀ k v, (chain.take n)[k]? = some v → Allows (T.versionAt k) v := by
  refine ⟨fun k hk => h.recorded k ?_, fun k v hk => h.accepted k v ?_⟩
  · rw [length_take] at hk
    omega
  · rw [getElem?_take] at hk
    split at hk
    · exact hk
    · cases hk

theorem Follows.onBlockPopped {k : Nat} (hk : n + k = chain.length)
    (hne : chain ≠ []) :
    (s.onBlockPopped T n k).Follows T (chain.take n) := by
  obtain ⟨hcounted, hfilled, hdb⟩ := unrecordAll_spec n k h.counted (h.filled hne)
  obtain ⟨hrecorded, haccepted⟩ := h.of_take (n := n) (by omega)
  refine ⟨?_, ?_, haccepted, hcounted, fun _ => hfilled⟩
  · rw [length_take, min_eq_left (by omega)]
    rfl
  · intro m hm
    show (unrecordAll n k s).dbVersions m = _
    rw [hdb]
    exact hrecorded m hm

theorem Follows.addAll (rest : List Vote)
    (hrest : ∀ k v, (chain ++ rest)[k]? = some v → Allows (T.versionAt k) v) :
    (s.addAll T rest chain.length).Follows T (chain ++ rest) := by
  induction rest generalizing s chain with
  | nil =>
    rw [append_nil]
    exact h
  | cons v rest ih =>
    have hv : Allows (T.versionAt chain.length) v :=
      hrest chain.length v (by rw [getElem?_append_right (Nat.le_refl _), Nat.sub_self]; rfl)
    have happend : chain ++ v :: rest = (chain ++ [v]) ++ rest := by simp
    rw [happend] at hrest ⊢
    have := ih (h.add hv) hrest
    rw [length_append, length_singleton] at this
    exact this

end

/-- The rescan comes back to the state of the first `n + 1` blocks, whichever later index it had,
and adds the rest again. -/
theorem follows_reorganizeFromBlockHeight (hn : n < chain.length) {m : Nat} (hm : n ≤ m)
    (hindex : s.currentForkIndex = T.forkIndex m)
    (hrecorded : ∀ h < chain.length, s.dbVersions h = T.versionAt h)
    (haccepted : ∀ k v, chain[k]? = some v → Allows (T.versionAt k) v) :
    (s.reorganizeFromBlockHeight T chain n).Follows T chain := by
  have hstart : (if n = 0 then T.originalVersion else s.dbVersions n) = T.versionAt n := by
    split
    · subst n
      exact T.versionAt_zero.symm
    · exact hrecorded n hn
  unfold reorganizeFromBlockHeight
  rw [if_neg (not_le.mpr hn)]
  simp only [hstart, T.indexBack_eq (hindex ▸ T.forkIndex_lt m) (hindex ▸ T.forkIndex_mono hm)]
  generalize hwindow : (chain.take (n + 1)).drop _ = window
  have hne : window ≠ [] := by
    rw [← hwindow, ← length_pos_iff, length_drop, length_take]
    split <;> omega
  obtain ⟨hcounted, hversions, hback, hdb⟩ := recordAll_spec (T := T)
    (s := { s.cleared with currentForkIndex := T.forkIndex n }) window (counted_cleared s)
  generalize HardFork.recordAll T _ window = s' at *
  have htake : (chain.take (n + 1)).length = n + 1 := by
    rw [length_take]
    omega
  have hmid : (s'.advanceTo T (n + 1)).Follows T (chain.take (n + 1)) := by
    refine ⟨?_, fun k hk => ?_, fun k v hk => haccepted k v ?_, hcounted, fun _ => ?_⟩
    · rw [htake]
      exact advanceTo_index (Nat.le_succ n) hback
    · show s'.dbVersions k = _
      rw [hdb]
      exact hrecorded k (by omega)
    · rw [getElem?_take] at hk
      split at hk
      · exact hk
      · cases hk
    · show s'.versions ≠ []
      rw [hversions]
      exact fun hnil => hne (map_eq_nil_iff.mp (append_eq_nil_iff.mp hnil).2)
  have hend := hmid.addAll (chain.drop (n + 1)) (by rwa [take_append_drop])
  rwa [htake, take_append_drop] at hend

theorem Follows.reorganizeFromChainHeight (h : s.Follows T chain) (height : Nat) :
    (s.reorganizeFromChainHeight T chain height).Follows T chain := by
  unfold HardFork.reorganizeFromChainHeight
  split
  · exact h
  rcases lt_or_ge (height - 1) chain.length with hlt | hge
  · exact follows_reorganizeFromBlockHeight hlt (by omega) h.index h.recorded h.accepted
  · unfold reorganizeFromBlockHeight
    rw [if_pos hge]
    exact h

/-- Blocks that were taken from the database behind the back of the class are followed again after
a reorganisation from the new height. -/
theorem Follows.unwind (h : s.Follows T chain) (hpos : 0 < n) (hn : n ≤ chain.length) :
    (s.reorganizeFromChainHeight T (chain.take n) n).Follows T (chain.take n) := by
  obtain ⟨hrecorded, haccepted⟩ := h.of_take hn
  have htake : (chain.take n).length = n := by
    rw [length_take]
    omega
  unfold HardFork.reorganizeFromChainHeight
  rw [if_neg (by omega)]
  exact follows_reorganizeFromBlockHeight (by omega) (by omega) h.index hrecorded haccepted

theorem follows_rescanFromBlockHeight (hn : n < chain.length)
    (hrecorded : ∀ h < chain.length, s.dbVersions h = T.versionAt h)
    (haccepted : ∀ k v, chain[k]? = some v → Allows (T.versionAt k) v) :
    (s.rescanFromBlockHeight T chain n).Follows T chain := by
  unfold rescanFromBlockHeight
  rw [if_neg (Nat.not_le.mpr hn)]
  simp only [hrecorded (chain.length - 1) (by omega),
    T.indexUp_eq (Nat.zero_add _) (Nat.zero_le (T.forkIndex (chain.length - 1)))]
  obtain ⟨hcounted, hversions, -, hdb⟩ := recordAll_spec (T := T) (chain.drop n) (counted_cleared s)
  generalize HardFork.recordAll T _ (chain.drop n) = s' at *
  refine ⟨advanceTo_index (Nat.sub_le _ 1) rfl, fun k hk => ?_, haccepted, hcounted, fun _ => ?_⟩
  · show s'.dbVersions k = _
    rw [hdb]
    exact hrecorded k hk
  · show s'.versions ≠ []
    rw [hversions]
    intro hnil
    have hdrop := map_eq_nil_iff.mp (append_eq_nil_iff.mp hnil).2
    rw [drop_eq_nil_iff] at hdrop
    omega

theorem follows_empty (dbVersions : Nat → Nat) :
    ({ dbVersions := dbVersions } : HardFork).Follows T [] where
  index := T.forkIndex_zero.symm
  recorded := fun h hh => absurd hh (Nat.not_lt_zero h)
  accepted := fun k v hk => by cases hk
  counted := rfl
  filled := absurd rfl

theorem Follows.init (h : s.Follows T chain) :
    (HardFork.init T chain s.dbVersions).Follows T chain := by
  unfold HardFork.init rescanFromChainHeight
  rw [if_neg (by split <;> omega)]
  rcases Nat.eq_zero_or_pos chain.length with hzero | hpos
  · obtain rfl := eq_nil_of_length_eq_zero hzero
    unfold rescanFromBlockHeight
    rw [length_nil, if_pos (Nat.zero_le _)]
    exact follows_empty s.dbVersions
  · exact follows_rescanFromBlockHeight (by split <;> omega) h.recorded h.accepted

end HardFork

/-! ## The table of this chain -/

/-- `mainnet_hard_forks`; the tables of the test networks are the same. -/
def hardForks : ForkTable where
  heights := [⟨1, 1, 0⟩, ⟨18, 2, 0⟩]
  originalVersion := 1
  windowSize := 10080
  nonempty := by decide
  window_pos := by decide
  increasing := by decide
  voteless := by decide
  original := rfl

/-- `get_current_version` on this chain. -/
def HardFork.version (s : HardFork) : Nat := s.currentVersion hardForks

def HardFork.versionAt (height : Nat) : Nat := if 2 ≤ height then 18 else 1

theorem versionAt_hardForks (height : Nat) :
    hardForks.versionAt height = HardFork.versionAt height := by
  unfold ForkTable.versionAt HardFork.versionAt
  show (hardForks.forkAt (if 2 ≤ height then 1 else 0)).version = _
  split <;> rfl

theorem HardFork.Follows.version {s : HardFork} {chain : List Vote}
    (h : s.Follows hardForks chain) :
    s.version = versionAt chain.length := by
  rw [HardFork.version, h.currentVersion, versionAt_hardForks]

theorem idealVersion_hardForks (height : Nat) :
    hardForks.idealVersion height = HardFork.versionAt height := by
  rw [hardForks.idealVersion_eq, versionAt_hardForks]

end Glaciem.Chain
