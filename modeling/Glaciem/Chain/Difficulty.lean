import Glaciem.Lib.Window

/-!
# Glaciem — the difficulty of the next block

`next_difficulty` (`cryptonote_basic/difficulty.cpp`) over a window of the last
`DIFFICULTY_BLOCKS_COUNT` blocks, and the two functions of `blockchain.cpp` that assemble the
window: `get_difficulty_for_next_block` for the main chain, with a cached result and a window it
shifts by one block where it can, and `get_next_difficulty_for_alternative_chain`, which splices the
end of the alternative chain with the main chain below it.

Cumulative difficulties are 128-bit words; timestamps and heights are not computed with beyond
comparison and differences.
-/

namespace Glaciem.Chain

open List Option

def DIFFICULTY_WINDOW : Nat := 720
def DIFFICULTY_LAG : Nat := 15
def DIFFICULTY_CUT : Nat := 60
def DIFFICULTY_BLOCKS_COUNT : Nat := DIFFICULTY_WINDOW + DIFFICULTY_LAG
def DIFFICULTY_TARGET_V1 : Nat := 60
def DIFFICULTY_TARGET_V2 : Nat := 120

/-- What the difficulty depends on in a block: its timestamp, and the difficulties of the chain
up to it. -/
structure Stamp where
  timestamp : Nat
  cumulativeDifficulty : Nat
  deriving DecidableEq

def cutBounds (length : Nat) : Nat × Nat :=
  let kept := DIFFICULTY_WINDOW - 2 * DIFFICULTY_CUT
  if length ≤ kept then (0, length)
  else ((length - kept + 1) / 2, (length - kept + 1) / 2 + kept)

/-- The timestamps are sorted, the cumulative difficulties are not; 0 stands for a result of more
than 128 bits. -/
def nextDifficulty (window : List Stamp) (targetSeconds : Nat) : Nat :=
  let window := window.take DIFFICULTY_WINDOW
  if window.length ≤ 1 then 1
  else
    let timestamps := (window.map Stamp.timestamp).insertionSort (· ≤ ·)
    let difficulties := window.map Stamp.cumulativeDifficulty
    let (cutBegin, cutEnd) := cutBounds window.length
    let timeSpan := max 1 (timestamps.getD (cutEnd - 1) 0 - timestamps.getD cutBegin 0)
    let totalWork :=
      (difficulties.getD (cutEnd - 1) 0 + 2 ^ 128 - difficulties.getD cutBegin 0) % 2 ^ 128
    let res := (totalWork * targetSeconds + timeSpan - 1) / timeSpan
    if res > 2 ^ 128 - 1 then 0 else res

def difficultyTarget (version : Nat) : Nat :=
  if version < 2 then DIFFICULTY_TARGET_V1 else DIFFICULTY_TARGET_V2

def windowOf (stamps : List Stamp) : List Stamp := stamps.tail.rtake DIFFICULTY_BLOCKS_COUNT

theorem nextDifficulty_windowOf_short {stamps : List Stamp} (h : stamps.length ≤ 1)
    (target : Nat) : nextDifficulty (windowOf stamps) target = 1 := by
  have htail : stamps.tail = [] := by
    rw [← length_eq_zero_iff, length_tail]
    omega
  rw [windowOf, htail, rtake_of_length_le (Nat.zero_le _), nextDifficulty]
  simp

/-! ## The alternative chain -/

/-- For a block at `height` on an alternative chain whose first block is at `fork` (or on the main
chain itself). -/
def alternativeWindow (main alt : List Stamp) (fork height : Nat) : List Stamp :=
  if alt.length < DIFFICULTY_BLOCKS_COUNT then
    let stop := if alt.length = 0 then height else fork
    let count := min (DIFFICULTY_BLOCKS_COUNT - min DIFFICULTY_BLOCKS_COUNT alt.length) stop
    let start := if stop - count = 0 then 1 else stop - count
    (main.take stop).drop start ++ alt
  else alt.rtake DIFFICULTY_BLOCKS_COUNT

/-- `version` is the ideal version at `height`. The internal error the source reports as difficulty
0 does not occur: `length_alternativeWindow`. -/
def nextDifficultyForAlternativeChain (main alt : List Stamp) (fork height version : Nat) : Nat :=
  let window := alternativeWindow main alt fork height
  if window.length ≤ DIFFICULTY_BLOCKS_COUNT then nextDifficulty window (difficultyTarget version)
  else 0

theorem drop_offset_eq (l : List Stamp) (n : Nat) :
    l.drop (if l.length - n = 0 then 1 else l.length - n) = l.tail.rtake n := by
  rw [rtake_eq_drop, length_tail, ← drop_one, drop_drop]
  split
  · congr 1
    omega
  · congr 1
    omega

variable {height fork : Nat}

theorem alternativeWindow_eq (main alt : List Stamp) (hpos : 0 < fork) (hfork : fork ≤ main.length)
    (hheight : height = fork + alt.length) :
    alternativeWindow main alt fork height = windowOf (main.take fork ++ alt) := by
  have hlen : (main.take fork).length = fork := by rw [length_take, min_eq_left hfork]
  have hne : main.take fork ≠ [] := by
    rw [← length_pos_iff, hlen]
    exact hpos
  rw [windowOf, tail_append_of_ne_nil hne, alternativeWindow]
  split
  · rename_i hshort
    -- the block itself stands on the main chain when there is no alternative one below it
    have hstop : (if alt.length = 0 then height else fork) = fork := by
      split <;> omega
    have hstart : fork - min (DIFFICULTY_BLOCKS_COUNT - alt.length) fork
        = (main.take fork).length - (DIFFICULTY_BLOCKS_COUNT - alt.length) := by
      rw [hlen]
      omega
    rw [rtake_append_of_le _ _ hshort.le, hstop, min_eq_right hshort.le]
    dsimp only
    rw [hstart, drop_offset_eq]
  · rename_i hlong
    rw [rtake_append_of_ge _ _ (Nat.le_of_not_lt hlong)]

theorem nextDifficultyForAlternativeChain_eq (main alt : List Stamp) (version : Nat)
    (hpos : 0 < fork) (hfork : fork ≤ main.length) (hheight : height = fork + alt.length) :
    nextDifficultyForAlternativeChain main alt fork height version
      = nextDifficulty (windowOf (main.take fork ++ alt)) (difficultyTarget version) := by
  have hlength : (windowOf (main.take fork ++ alt)).length ≤ DIFFICULTY_BLOCKS_COUNT := by
    rw [windowOf, length_rtake]
    exact min_le_left _ _
  rw [nextDifficultyForAlternativeChain, alternativeWindow_eq main alt hpos hfork hheight,
    if_pos hlength]

/-! ## The main chain and its cache -/

/-- The fields of `Blockchain` that cache the difficulty. The two vectors `m_timestamps` and
`m_difficulties` grow and shrink together, so they are one window. -/
structure DifficultyCache (H : Type) where
  topHash : H
  difficulty : Nat := 1
  height : Nat := 0
  reset : Bool := true
  window : List Stamp := []

section Cache

variable {H : Type}

variable (c : DifficultyCache H)

def DifficultyCache.invalidate : DifficultyCache H :=
  { c with height := 0, reset := true }

/-- The part of `cleanup_handle_incoming_blocks` that ends the reset. -/
def DifficultyCache.endReset : DifficultyCache H :=
  if c.reset then { c with height := 0, reset := false } else c

def DifficultyCache.usableHeight : Nat := if c.reset then 0 else c.height

def DifficultyCache.nextWindow (stamps : List Stamp) : List Stamp :=
  if c.usableHeight ≠ 0 ∧ stamps.length = c.usableHeight + 1
      ∧ DIFFICULTY_BLOCKS_COUNT ≤ c.window.length then
    (c.window ++ stamps.getLast?.toList).rtake DIFFICULTY_BLOCKS_COUNT
  else
    let offset := stamps.length - min stamps.length DIFFICULTY_BLOCKS_COUNT
    stamps.drop (if offset = 0 then 1 else offset)

/-- The cached window, where it may be used, is that of the first `height` blocks of the chain. -/
def WindowSound (stamps : List Stamp) : Prop :=
  c.reset = true ∨ c.height = 0
    ∨ c.height ≤ stamps.length ∧ c.window = windowOf (stamps.take c.height)

/-- The cached hash is not that of a block below the top, and if it is that of the top, the cached
difficulty is right. -/
structure CacheSound (c : DifficultyCache H) (null : H) (ids : List H) (stamps : List Stamp)
    (target : Nat) : Prop where
  window : WindowSound c stamps
  below : c.topHash ∈ ids → c.topHash = ids.getLast?.getD null
  top : c.topHash = ids.getLast?.getD null →
    c.difficulty = nextDifficulty (windowOf stamps) target

variable {stamps : List Stamp} {c : DifficultyCache H} {ids : List H} {target : Nat} {null : H}

theorem WindowSound.nextWindow (h : WindowSound c stamps) :
    c.nextWindow stamps = windowOf stamps := by
  unfold DifficultyCache.nextWindow
  split
  · rename_i hshift
    obtain ⟨hheight, hlength, -⟩ := hshift
    -- the cached window is that of all blocks but the last
    rcases h with hreset | hzero | ⟨-, hwindow⟩
    · rw [DifficultyCache.usableHeight, if_pos hreset] at hheight
      exact absurd rfl hheight
    · rw [DifficultyCache.usableHeight, hzero, ite_self] at hheight
      exact absurd rfl hheight
    have hc : c.usableHeight = c.height := by
      unfold DifficultyCache.usableHeight at hheight ⊢
      split at hheight
      · exact absurd rfl hheight
      · rename_i hreset
        rw [if_neg hreset]
    rw [hc] at hheight hlength
    obtain ⟨init, last, rfl⟩ : ∃ init last, stamps = init ++ [last] :=
      ⟨_, _, (dropLast_append_getLast
        (ne_nil_of_length_pos (by omega) : stamps ≠ [])).symm⟩
    rw [length_append, length_singleton, Nat.add_right_cancel_iff] at hlength
    rw [← hlength, take_left] at hwindow
    have hinit : init ≠ [] := ne_nil_of_length_pos (by omega)
    rw [hwindow, getLast?_concat, toList_some, windowOf, windowOf,
      tail_append_of_ne_nil hinit, ← rtake_concat]
  · rw [show stamps.length - min stamps.length DIFFICULTY_BLOCKS_COUNT
      = stamps.length - DIFFICULTY_BLOCKS_COUNT by omega, drop_offset_eq, windowOf]

theorem cacheSound_fresh (null top : H) {window : List Stamp} (target : Nat) (reset : Bool)
    (htop : top = ids.getLast?.getD null) (hwindow : window = windowOf stamps) :
    CacheSound { topHash := top, difficulty := nextDifficulty window target
                 height := stamps.length, reset := reset, window := window }
      null ids stamps target where
  window := .inr (.inr ⟨le_rfl, by rw [take_length, hwindow]⟩)
  below _ := htop
  top _ := by rw [hwindow]

theorem CacheSound.invalidate (h : CacheSound c null ids stamps target) :
    CacheSound c.invalidate null ids stamps target :=
  ⟨.inl rfl, h.below, h.top⟩

theorem CacheSound.endReset (h : CacheSound c null ids stamps target) :
    CacheSound c.endReset null ids stamps target := by
  unfold DifficultyCache.endReset
  split
  · exact ⟨.inr (.inl rfl), h.below, h.top⟩
  · exact h

/-- When the last block is taken away, the cached hash is that of no block of the chain. -/
theorem CacheSound.pop {id : H} {st : Stamp}
    (h : CacheSound c null (ids ++ [id]) (stamps ++ [st]) target) (hnew : id ∉ ids)
    (hids : ids ≠ []) (target' : Nat) :
    CacheSound c.invalidate null ids stamps target' := by
  have hnot : c.topHash ∉ ids := by
    intro hin
    have hlast := h.below (mem_append_left _ hin)
    rw [getLast?_concat, getD_some] at hlast
    exact hnew (hlast ▸ hin)
  refine ⟨.inl rfl, fun hin => absurd hin hnot, fun htop => absurd ?_ hnot⟩
  have htop' : c.topHash = ids.getLast?.getD null := htop
  rw [htop', getLast?_eq_some_getLast hids, getD_some]
  exact getLast_mem hids

theorem WindowSound.append (h : WindowSound c stamps) (st : Stamp) :
    WindowSound c (stamps ++ [st]) := by
  rcases h with hreset | hzero | ⟨hle, hwindow⟩
  · exact .inl hreset
  · exact .inr (.inl hzero)
  · refine .inr (.inr ⟨?_, by rw [take_append_of_le_length hle, hwindow]⟩)
    rw [length_append]
    omega

variable [DecidableEq H]

/-- `get_difficulty_for_next_block`, for a chain that ends in the block `top`. -/
def DifficultyCache.query (top : H) (stamps : List Stamp) (target : Nat) :
    Nat × DifficultyCache H :=
  if top = c.topHash then (c.difficulty, c)
  else
    let window := c.nextWindow stamps
    let difficulty := nextDifficulty window target
    (difficulty,
      { topHash := top, difficulty := difficulty, height := stamps.length
        reset := c.reset, window := window })

theorem CacheSound.query_fst (h : CacheSound c null ids stamps target) :
    (c.query (ids.getLast?.getD null) stamps target).1
      = nextDifficulty (windowOf stamps) target := by
  unfold DifficultyCache.query
  split
  · rename_i heq
    exact h.top heq.symm
  · rw [h.window.nextWindow]

theorem query_topHash (c : DifficultyCache H) (top : H) (stamps : List Stamp) (target : Nat) :
    (c.query top stamps target).2.topHash = top := by
  unfold DifficultyCache.query
  split
  · rename_i heq
    exact heq.symm
  · rfl

theorem CacheSound.query (h : CacheSound c null ids stamps target) :
    CacheSound (c.query (ids.getLast?.getD null) stamps target).2 null ids stamps target := by
  unfold DifficultyCache.query
  split
  · exact h
  · exact cacheSound_fresh null _ target c.reset rfl h.window.nextWindow

theorem CacheSound.query_append {id : H} {st : Stamp} (h : CacheSound c null ids stamps target)
    (hlength : stamps.length = ids.length) (hqueried : c.topHash = ids.getLast?.getD null)
    (hnew : id ∉ ids) (target' : Nat) :
    CacheSound (c.query id (stamps ++ [st]) target').2 null (ids ++ [id]) (stamps ++ [st])
      target' := by
  have hlast : id = (ids ++ [id]).getLast?.getD null := by
    rw [getLast?_concat, getD_some]
  unfold DifficultyCache.query
  split
  · rename_i hhit
    -- only the null hash of the empty chain can come again; both windows are then empty
    have hids : ids = [] := by
      by_contra hne
      rw [getLast?_eq_some_getLast hne, getD_some] at hqueried
      exact hnew (by rw [hhit, hqueried]; exact getLast_mem hne)
    subst hids
    have hstamps : stamps = [] := eq_nil_of_length_eq_zero hlength
    subst hstamps
    refine ⟨h.window.append st, fun _ => hhit.symm.trans hlast, fun _ => ?_⟩
    rw [h.top hqueried, nextDifficulty_windowOf_short (by simp),
      nextDifficulty_windowOf_short (by simp)]
  · exact cacheSound_fresh null id target' c.reset hlast (h.window.append st).nextWindow

end Cache

end Glaciem.Chain
