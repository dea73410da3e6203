import Glaciem.Lib.Window

/-!
# Glaciem — a rolling median

`rolling_median_t` of `epee/rolling_median.h`: a circular queue of the last `N` items, and an array
of indices into it that is two heaps back to back. Position 0 is the median, positive positions are
a heap with its least item next to the median, negative ones a heap with its greatest item there.
-/

namespace Glaciem

open Nat

open Function

/-- The two heaps: items from the median up, and items up to the median. -/
inductive Side where
  | min
  | max

namespace Side

/-- The position of the `k`-th element of a heap; the 0-th is the median. -/
def index : Side → Nat → Int
  | .min, k => k
  | .max, k => -k

def other : Side → Side
  | .min => .max
  | .max => .min

section Order

variable {α : Type} [LinearOrder α]

/-- Nearer to the median, or as near. -/
def le : Side → α → α → Prop
  | .min, a, b => a ≤ b
  | .max, a, b => b ≤ a

def lt : Side → α → α → Prop
  | .min, a, b => a < b
  | .max, a, b => b < a

variable {side : Side} {a b c : α}

theorem le.refl (side : Side) (a : α) : side.le a a := by
  cases side <;> exact le_refl a

theorem le.trans (h : side.le a b) (h' : side.le b c) : side.le a c := by
  cases side
  · exact le_trans (α := α) h h'
  · exact le_trans (α := α) h' h

theorem lt.le (h : side.lt a b) : side.le a b := by
  cases side <;> exact le_of_lt (α := α) h

theorem not_lt_iff : ¬ side.lt a b ↔ side.le b a := by
  cases side <;> exact not_lt (α := α)

theorem le_other_iff : side.other.le a b ↔ side.le b a := by
  cases side <;> exact Iff.rfl

end Order

@[simp] theorem other_other (side : Side) : side.other.other = side := by
  cases side <;> rfl

theorem index_zero (side : Side) : side.index 0 = 0 := by
  cases side <;> rfl

theorem index_inj {side : Side} {k m : Nat} : side.index k = side.index m ↔ k = m := by
  cases side <;> simp only [index] <;> omega

theorem index_other_ne (side : Side) {k m : Nat} (hk : 0 < k) :
    side.other.index k ≠ side.index m := by
  cases side <;> simp only [index, other] <;> omega

end Side

structure RollingMedian (α : Type) where
  /-- The circular queue of values. -/
  data : Nat → α
  /-- The position of each value in `heap`. -/
  pos : Nat → Int
  /-- The two heaps around the median, as indices into `data`. -/
  heap : Int → Nat
  capacity : Nat
  idx : Nat
  minCt : Nat
  maxCt : Nat
  sz : Nat

namespace RollingMedian

variable {α : Type}

/-- "initial heap fill pattern: median,max,min,max,..." -/
def slot (n : Nat) : Int := if n % 2 = 1 then -((n + 1) / 2 : Nat) else ((n + 1) / 2 : Nat)

def clear (s : RollingMedian α) : RollingMedian α :=
  { s with
    idx := 0
    minCt := 0
    maxCt := 0
    sz := 0
    pos := slot
    heap := fun i => if i < 0 then 2 * i.natAbs - 1 else 2 * i.natAbs }

/-- The constructor. What `data` holds at first is not specified. -/
def new (data : Nat → α) (capacity : Nat) : RollingMedian α :=
  clear { data := data, pos := slot, heap := fun _ => 0, capacity := capacity, idx := 0, minCt := 0,
          maxCt := 0, sz := 0 }

variable [LinearOrder α] (s : RollingMedian α)

def mmless (i j : Int) : Bool := s.data (s.heap i) < s.data (s.heap j)

def mmexchange (i j : Int) : RollingMedian α :=
  { s with
    heap := update (update s.heap i (s.heap j)) j (s.heap i)
    pos := update (update s.pos (s.heap j) i) (s.heap i) j }

def mmCmpExch (i j : Int) : RollingMedian α × Bool :=
  if s.mmless i j then (s.mmexchange i j, true) else (s, false)

def count : Side → Nat
  | .min => s.minCt
  | .max => s.maxCt

/-- `mmless` of two elements of a heap; in the heap of the greatest the arguments change places. -/
def less : Side → Nat → Nat → Bool
  | .min, i, j => s.mmless i j
  | .max, i, j => s.mmless (-j) (-i)

def cmpExch : Side → Nat → Nat → RollingMedian α × Bool
  | .min, i, j => s.mmCmpExch i j
  | .max, i, j => s.mmCmpExch (-j) (-i)

/-- The child of an element that comes first in the order of the heap. -/
def child (side : Side) (i : Nat) : Nat :=
  if 2 * i < s.count side && s.less side (2 * i + 1) (2 * i) then 2 * i + 1 else 2 * i

def sortDownLoop (side : Side) : Nat → Nat → RollingMedian α → RollingMedian α
  | 0, _, s => s
  | fuel + 1, i, s =>
    if s.count side < 2 * i then s
    else
      let (s', swapped) := s.cmpExch side (s.child side i) (s.child side i / 2)
      if swapped then sortDownLoop side fuel (s.child side i) s' else s'

/-- `minSortDown` and `maxSortDown`. Every turn of the loop goes on to a later element. -/
def sortDown (side : Side) (i : Nat) : RollingMedian α := sortDownLoop side (s.count side) i s

def sortUpLoop (side : Side) : Nat → Nat → RollingMedian α → RollingMedian α × Bool
  | 0, i, s => (s, i = 0)
  | fuel + 1, i, s =>
    if i = 0 then (s, true)
    else
      let (s', swapped) := s.cmpExch side i (i / 2)
      if swapped then sortUpLoop side fuel (i / 2) s' else (s', false)

/-- `minSortUp` and `maxSortUp`: whether the element became the median. -/
def sortUp (side : Side) (i : Nat) : RollingMedian α × Bool := sortUpLoop side i i s

/-- Compare the median with the top of a heap, and sort the heap if they were exchanged. -/
def settle (side : Side) : RollingMedian α :=
  let (s', swapped) := s.cmpExch side 1 0
  if swapped then s'.sortDown side 1 else s'

/-- Only from the heap of the greatest the code looks whether the other heap has elements; from the
other one it always has. -/
def raise (side : Side) (i : Nat) : RollingMedian α :=
  let (s', top) := s.sortUp side i
  match side with
  | .min => if top then s'.settle .max else s'
  | .max => if top && s'.minCt ≠ 0 then s'.settle .min else s'

def lower (side : Side) : RollingMedian α :=
  if s.count side ≠ 0 then
    let (s', top) := s.sortUp side 1
    if top then s'.sortDown side 1 else s'
  else s

def insert (v : α) : RollingMedian α :=
  let p := s.pos s.idx
  let old := s.data s.idx
  let s := { s with
    data := update s.data s.idx v
    idx := (s.idx + 1) % s.capacity
    sz := min (s.sz + 1) s.capacity }
  if 0 < p then
    if s.minCt < (s.capacity - 1) / 2 then raise { s with minCt := s.minCt + 1 } .min p.natAbs
    else if old < v then s.sortDown .min p.natAbs
    else s.raise .min p.natAbs
  else if p < 0 then
    if s.maxCt < s.capacity / 2 then raise { s with maxCt := s.maxCt + 1 } .max p.natAbs
    else if v < old then s.sortDown .max p.natAbs
    else s.raise .max p.natAbs
  else
    (s.lower .max).lower .min

def median (getMid : α → α → α) : α :=
  let v := s.data (s.heap 0)
  if s.minCt < s.maxCt then getMid v (s.data (s.heap (-1))) else v

/-! ## One exchange -/

def elem (side : Side) (k : Nat) : α := s.data (s.heap (side.index k))

def exch : Side → Nat → Nat → RollingMedian α
  | .min, i, j => s.mmexchange i j
  | .max, i, j => s.mmexchange (-j) (-i)

variable {s} {side : Side} {i j k : Nat}

theorem cmpExch_eq : s.cmpExch side i j
    = if s.less side i j then (s.exch side i j, true) else (s, false) := by
  cases side <;> rfl

theorem less_iff : s.less side i j = true ↔ side.lt (s.elem side i) (s.elem side j) := by
  cases side <;> exact decide_eq_true_iff

section Exchange

omit [LinearOrder α]

theorem elem_zero (s : RollingMedian α) (side : Side) : s.elem side 0 = s.data (s.heap 0) := by
  rw [elem, side.index_zero]

theorem mmexchange_heap (s : RollingMedian α) (i j l : Int) :
    (s.mmexchange i j).heap l
      = if l = j then s.heap i else if l = i then s.heap j else s.heap l := by
  simp only [mmexchange, update_apply]

@[simp] theorem exch_data : (s.exch side i j).data = s.data := by
  cases side <;> rfl

@[simp] theorem exch_count (o : Side) : (s.exch side i j).count o = s.count o := by
  cases side <;> cases o <;> rfl

theorem elem_exch (k : Nat) : (s.exch side i j).elem side k
    = if k = i then s.elem side j else if k = j then s.elem side i else s.elem side k := by
  have hheap : (s.exch side i j).heap (side.index k)
      = if k = i then s.heap (side.index j)
        else if k = j then s.heap (side.index i) else s.heap (side.index k) := by
    cases side with
    | min =>
      simp only [exch, mmexchange_heap, Side.index, Int.natCast_inj]
      split <;> split <;> simp_all
    | max =>
      simp only [exch, mmexchange_heap, Side.index, neg_inj, Int.natCast_inj]
  rw [elem, exch_data, hheap]
  split
  · rfl
  · split <;> rfl

theorem elem_exch_other (hk : 0 < k) :
    (s.exch side i j).elem side.other k = s.elem side.other k := by
  have hi : side.other.index k ≠ side.index i := side.index_other_ne hk
  have hj : side.other.index k ≠ side.index j := side.index_other_ne hk
  have hheap : (s.exch side i j).heap (side.other.index k) = s.heap (side.other.index k) := by
    cases side with
    | min => exact (mmexchange_heap _ _ _ _).trans ((if_neg hj).trans (if_neg hi))
    | max => exact (mmexchange_heap _ _ _ _).trans ((if_neg hi).trans (if_neg hj))
  rw [elem, exch_data, hheap, elem]

end Exchange

/-! ## Order -/

/-- The heap is in order, with the median as the parent of its first element. -/
def HeapOrder (s : RollingMedian α) (side : Side) : Prop :=
  ∀ k, 0 < k → k ≤ s.count side → side.le (s.elem side (k / 2)) (s.elem side k)

/-- The order but for the element `i` against its parent. -/
structure UpOrder (s : RollingMedian α) (side : Side) (i : Nat) : Prop where
  except : ∀ k, 0 < k → k ≤ s.count side → k ≠ i → side.le (s.elem side (k / 2)) (s.elem side k)
  grand : 0 < i → ∀ k, k / 2 = i → k ≤ s.count side → side.le (s.elem side (i / 2)) (s.elem side k)

/-- The order but for the element `i` against its children. -/
structure DownOrder (s : RollingMedian α) (side : Side) (i : Nat) : Prop where
  except : ∀ k, 0 < k → k ≤ s.count side → k / 2 ≠ i →
    side.le (s.elem side (k / 2)) (s.elem side k)
  grand : ∀ k, k / 2 = i → k ≤ s.count side → side.le (s.elem side (i / 2)) (s.elem side k)

theorem UpOrder.move (h : s.UpOrder side i) (hi : 0 < i) (hle : i ≤ s.count side)
    (hless : s.less side i (i / 2) = true) : (s.exch side i (i / 2)).UpOrder side (i / 2) := by
  have hlt := less_iff.mp hless
  refine ⟨fun k hk hcount hne => ?_, fun hpos k hk hcount => ?_⟩
  · rw [exch_count] at hcount
    simp only [elem_exch]
    by_cases hki : k = i
    · -- the old parent is below the item that passed it
      rw [if_pos hki, hki, if_neg (by omega), if_pos rfl]
      exact hlt.le
    · rw [if_neg hki, if_neg hne]
      by_cases hchild : k / 2 = i
      · rw [if_pos hchild]
        exact h.grand hi k hchild hcount
      · rw [if_neg hchild]
        have hparent := h.except k hk hcount hki
        split
        · next hsibling =>
          rw [hsibling] at hparent
          exact hlt.le.trans hparent
        · exact hparent
  · rw [exch_count] at hcount
    simp only [elem_exch]
    have hup := h.except (i / 2) hpos (by omega) (by omega)
    rw [if_neg (by omega : ¬ i / 2 / 2 = i), if_neg (by omega : ¬ i / 2 / 2 = i / 2)]
    split
    · exact hup
    · next hki =>
      rw [if_neg (by omega)]
      have hparent := h.except k (by omega) hcount hki
      rw [hk] at hparent
      exact hup.trans hparent

theorem UpOrder.heapOrder (h : s.UpOrder side i)
    (hi : 0 < i → side.le (s.elem side (i / 2)) (s.elem side i)) : s.HeapOrder side := by
  intro k hk hcount
  by_cases hki : k = i
  · rw [hki]
    exact hi (hki ▸ hk)
  · exact h.except k hk hcount hki

theorem child_spec (hle : 2 * i ≤ s.count side) :
    s.child side i / 2 = i ∧ s.child side i ≤ s.count side
      ∧ ∀ k, k / 2 = i → k ≤ s.count side →
          side.le (s.elem side (s.child side i)) (s.elem side k) := by
  have htwo : ∀ k, k / 2 = i → k = 2 * i ∨ k = 2 * i + 1 := by omega
  unfold child
  by_cases hsecond : s.less side (2 * i + 1) (2 * i) = true
  · by_cases hroom : 2 * i < s.count side
    · rw [if_pos (by simp [hroom, hsecond])]
      refine ⟨by omega, hroom, fun k hk hcount => ?_⟩
      rcases htwo k hk with rfl | rfl
      · exact (less_iff.mp hsecond).le
      · exact .refl _ _
    · rw [if_neg (by simp [hroom])]
      refine ⟨by omega, hle, fun k hk hcount => ?_⟩
      rw [show k = 2 * i by omega]
      exact .refl _ _
  · rw [if_neg (by simp [hsecond])]
    refine ⟨by omega, hle, fun k hk hcount => ?_⟩
    rcases htwo k hk with rfl | rfl
    · exact .refl _ _
    · exact Side.not_lt_iff.mp (mt less_iff.mpr hsecond)

theorem DownOrder.move (h : s.DownOrder side i) (hi : 0 < i) (hle : 2 * i ≤ s.count side)
    (hless : s.less side (s.child side i) i = true) :
    (s.exch side (s.child side i) i).DownOrder side (s.child side i) := by
  obtain ⟨hparent, hcount, hfirst⟩ := child_spec hle
  have hlt := less_iff.mp hless
  generalize s.child side i = c at *
  refine ⟨fun k hk hk' hne => ?_, fun k hk hk' => ?_⟩
  · rw [exch_count] at hk'
    simp only [elem_exch]
    rw [if_neg hne]
    by_cases hkc : k = c
    · rw [if_pos hkc, hkc, if_pos hparent]
      exact hlt.le
    · rw [if_neg hkc]
      by_cases hki : k = i
      · -- the child takes the place of its parent
        rw [if_pos hki, hki, if_neg (by omega)]
        exact h.grand c hparent hcount
      · rw [if_neg hki]
        by_cases hchild : k / 2 = i
        · rw [if_pos hchild]
          exact hfirst k hchild hk'
        · rw [if_neg hchild]
          exact h.except k hk hk' hchild
  · rw [exch_count] at hk'
    simp only [elem_exch]
    rw [hparent, if_neg (by omega : ¬ i = c), if_pos rfl, if_neg (by omega : ¬ k = c),
      if_neg (by omega : ¬ k = i)]
    have := h.except k (by omega) hk' (by omega)
    rwa [hk] at this

theorem DownOrder.heapOrder (h : s.DownOrder side i)
    (hi : ∀ k, k / 2 = i → 0 < k → k ≤ s.count side → side.le (s.elem side i) (s.elem side k)) :
    s.HeapOrder side := by
  intro k hk hcount
  by_cases hchild : k / 2 = i
  · rw [hchild]
    exact hi k hchild hk hcount
  · exact h.except k hk hcount hchild

/-! ## Sorting -/

def InUse (s : RollingMedian α) (i : Int) : Prop := -(s.maxCt : Int) ≤ i ∧ i ≤ s.minCt

/-- All that sorting does to the structure: exchanges of positions in use. -/
inductive Exchanged (s : RollingMedian α) : RollingMedian α → Prop
  | refl : Exchanged s s
  | step {s' : RollingMedian α} (h : Exchanged s s') {i j : Int} (hi : s'.InUse i)
      (hj : s'.InUse j) : Exchanged s (s'.mmexchange i j)

omit [LinearOrder α] in
theorem Exchanged.trans {s₁ s₂ s₃ : RollingMedian α} (h : Exchanged s₁ s₂) (h' : Exchanged s₂ s₃) :
    Exchanged s₁ s₃ := by
  induction h' with
  | refl => exact h
  | step _ hi hj ih => exact .step ih hi hj

omit [LinearOrder α] in
theorem exchanged_exch (hi : i ≤ s.count side) (hj : j ≤ s.count side) :
    Exchanged s (s.exch side i j) := by
  have huse : ∀ k, k ≤ s.count side → s.InUse (side.index k) := by
    intro k hk
    cases side <;> simp only [InUse, count, Side.index] at hk ⊢ <;> omega
  cases side with
  | min => exact .step .refl (huse i hi) (huse j hj)
  | max => exact .step .refl (huse j hj) (huse i hi)

/-- Sorting down ends in order, and touches neither the median nor the other heap. -/
theorem sortDownLoop_spec {fuel : Nat} (h : s.DownOrder side i) (hi : 0 < i)
    (hcount : i ≤ s.count side) (hfuel : s.count side ≤ fuel + i) :
    (sortDownLoop side fuel i s).HeapOrder side ∧ Exchanged s (sortDownLoop side fuel i s)
      ∧ (sortDownLoop side fuel i s).elem side 0 = s.elem side 0
      ∧ ∀ k, 0 < k → (sortDownLoop side fuel i s).elem side.other k = s.elem side.other k := by
  induction fuel generalizing s i with
  | zero =>
    refine ⟨h.heapOrder fun k hk hpos hle => ?_, .refl, rfl, fun _ _ => rfl⟩
    omega
  | succ fuel ih =>
    rw [sortDownLoop]
    split
    · next hleaf =>
      refine ⟨h.heapOrder fun k hk hpos hle => ?_, .refl, rfl, fun _ _ => rfl⟩
      omega
    · next hchildren =>
      obtain ⟨hparent, hle, hfirst⟩ := child_spec (not_lt.mp hchildren)
      rw [cmpExch_eq, hparent]
      by_cases hless : s.less side (s.child side i) i = true
      · have hmove := h.move hi (not_lt.mp hchildren) hless
        generalize s.child side i = c at *
        rw [if_pos hless]
        obtain ⟨horder, hexch, hmedian, hother⟩ := ih hmove (by omega)
          (by rw [exch_count]; exact hle) (by rw [exch_count]; omega)
        refine ⟨horder, (exchanged_exch hle hcount).trans hexch, hmedian.trans ?_, fun k hk => ?_⟩
        · rw [elem_exch, if_neg (by omega), if_neg (by omega)]
        · exact (hother k hk).trans (elem_exch_other hk)
      · rw [if_neg hless]
        refine ⟨h.heapOrder fun k hk hpos hk' => ?_, .refl, rfl, fun _ _ => rfl⟩
        exact (Side.not_lt_iff.mp (mt less_iff.mpr hless)).trans (hfirst k hk hk')

theorem sortUpLoop_zero (fuel : Nat) : sortUpLoop side fuel 0 s = (s, true) := by
  cases fuel <;> rfl

theorem sortUpLoop_pos (fuel : Nat) (hi : 0 < i) : sortUpLoop side (fuel + 1) i s
    = if s.less side i (i / 2) then sortUpLoop side fuel (i / 2) (s.exch side i (i / 2))
      else (s, false) := by
  rw [sortUpLoop, if_neg (pos_iff_ne_zero.mp hi), cmpExch_eq]
  cases s.less side i (i / 2) <;> rfl

/-- The other heap is left. If the element became the median, the old median is the first element of
the heap. -/
theorem sortUpLoop_spec {fuel : Nat} (h : s.UpOrder side i) (hcount : i ≤ s.count side)
    (hfuel : i ≤ fuel) :
    (sortUpLoop side fuel i s).1.HeapOrder side ∧ Exchanged s (sortUpLoop side fuel i s).1
      ∧ (∀ k, 0 < k → (sortUpLoop side fuel i s).1.elem side.other k = s.elem side.other k)
      ∧ (0 < i → (sortUpLoop side fuel i s).2 = true →
          (sortUpLoop side fuel i s).1.elem side 1 = s.elem side 0)
      ∧ ((sortUpLoop side fuel i s).2 = false →
          (sortUpLoop side fuel i s).1.elem side 0 = s.elem side 0) := by
  induction fuel generalizing s i with
  | zero =>
    have hi : i = 0 := le_zero.mp hfuel
    subst hi
    exact ⟨h.heapOrder (absurd · (lt_irrefl 0)), .refl, fun _ _ => rfl,
      (absurd · (lt_irrefl 0)), fun _ => rfl⟩
  | succ fuel ih =>
    rcases Nat.eq_zero_or_pos i with hi | hi
    · subst hi
      rw [sortUpLoop_zero]
      exact ⟨h.heapOrder (absurd · (lt_irrefl 0)), .refl, fun _ _ => rfl,
        (absurd · (lt_irrefl 0)), fun _ => rfl⟩
    · rw [sortUpLoop_pos fuel hi]
      by_cases hless : s.less side i (i / 2) = true
      · rw [if_pos hless]
        obtain ⟨horder, hexch, hother, htop, hstay⟩ :=
          ih (h.move hi hcount hless) (by rw [exch_count]; omega) (by omega)
        refine ⟨horder, (exchanged_exch hcount (by omega)).trans hexch,
          fun k hk => (hother k hk).trans (elem_exch_other hk), fun _ hflag => ?_, fun hflag => ?_⟩
        · rcases Nat.eq_zero_or_pos (i / 2) with hparent | hparent
          · -- the last exchange, with the median
            have hone : i = 1 := by omega
            rw [hparent, sortUpLoop_zero, elem_exch, if_pos hone.symm]
          · rw [htop hparent hflag, elem_exch, if_neg (by omega), if_neg (by omega)]
        · rcases Nat.eq_zero_or_pos (i / 2) with hparent | hparent
          · rw [hparent, sortUpLoop_zero] at hflag
            cases hflag
          · rw [hstay hflag, elem_exch, if_neg (by omega), if_neg (by omega)]
      · rw [if_neg hless]
        refine ⟨h.heapOrder fun _ => ?_, .refl, fun _ _ => rfl, fun _ hflag => ?_, fun _ => rfl⟩
        · exact Side.not_lt_iff.mp (mt less_iff.mpr hless)
        · cases hflag

/-! ## The top of a heap against the median -/

/-- The heap is in order, whatever the median is. -/
def OrderBelow (s : RollingMedian α) (side : Side) : Prop :=
  ∀ k, 1 < k → k ≤ s.count side → side.le (s.elem side (k / 2)) (s.elem side k)

theorem HeapOrder.below (h : s.HeapOrder side) : s.OrderBelow side :=
  fun k hk hcount => h k (lt_of_succ_lt hk) hcount

theorem settle_spec (h : s.OrderBelow side) (hcount : 0 < s.count side) :
    (s.settle side).HeapOrder side ∧ Exchanged s (s.settle side)
      ∧ (s.settle side = s ∨ (s.settle side).elem side 0 = s.elem side 1)
      ∧ ∀ k, 0 < k → (s.settle side).elem side.other k = s.elem side.other k := by
  unfold settle
  rw [cmpExch_eq]
  by_cases hless : s.less side 1 0 = true
  · rw [if_pos hless]
    have hlt := less_iff.mp hless
    have hdown : (s.exch side 1 0).DownOrder side 1 := by
      refine ⟨fun k hk hk' hne => ?_, fun k hk hk' => ?_⟩
      · rw [exch_count] at hk'
        simp only [elem_exch]
        by_cases hone : k = 1
        · subst hone
          exact hlt.le
        · rw [if_neg hone, if_neg hne, if_neg (by omega), if_neg (by omega)]
          exact h k (by omega) hk'
      · rw [exch_count] at hk'
        have htop : 1 / 2 = 0 := rfl
        rw [htop, elem_exch, elem_exch, if_neg zero_ne_one, if_pos rfl, if_neg (by omega : ¬ k = 1),
          if_neg (by omega : ¬ k = 0)]
        have := h k (by omega) hk'
        rwa [hk] at this
    obtain ⟨horder, hexch, hmedian, hother⟩ :=
      sortDownLoop_spec hdown one_pos (by rw [exch_count]; exact hcount) (le_add_right _ 1)
    refine ⟨horder, (exchanged_exch hcount (zero_le _)).trans hexch, .inr (hmedian.trans ?_),
      fun k hk => (hother k hk).trans (elem_exch_other hk)⟩
    rw [elem_exch, if_neg zero_ne_one, if_pos rfl]
  · rw [if_neg hless]
    refine ⟨fun k hk hk' => ?_, .refl, .inl rfl, fun _ _ => rfl⟩
    rcases lt_or_ge 1 k with hbelow | htop
    · exact h k hbelow hk'
    · have hone : k = 1 := by omega
      subst hone
      exact Side.not_lt_iff.mp (mt less_iff.mpr hless)

theorem sortUp_one : s.sortUp side 1 = s.cmpExch side 1 0 := by
  rw [sortUp, sortUpLoop_pos 0 one_pos, cmpExch_eq]
  exact if_congr Iff.rfl (sortUpLoop_zero 0) rfl

theorem lower_eq : s.lower side = if s.count side ≠ 0 then s.settle side else s := by
  rw [lower, sortUp_one]
  rfl

omit [LinearOrder α] in
theorem Exchanged.count {s' : RollingMedian α} (h : Exchanged s s') (side : Side) :
    s'.count side = s.count side := by
  induction h with
  | refl => rfl
  | step _ _ _ ih => cases side <;> exact ih

omit [LinearOrder α] in
theorem elem_zero_other (s : RollingMedian α) (side : Side) :
    s.elem side.other 0 = s.elem side 0 := by
  rw [elem_zero, elem_zero]

theorem OrderBelow.of_eq {s' : RollingMedian α} (h : s.OrderBelow side)
    (hcount : s'.count side = s.count side)
    (heq : ∀ k, 0 < k → s'.elem side k = s.elem side k) : s'.OrderBelow side := by
  intro k hk hk'
  rw [heq k (by omega), heq (k / 2) (by omega)]
  exact h k hk (hcount ▸ hk')

theorem HeapOrder.of_below (h : s.OrderBelow side)
    (htop : 0 < s.count side → side.le (s.elem side 0) (s.elem side 1)) : s.HeapOrder side := by
  intro k hk hcount
  rcases lt_or_ge 1 k with hbelow | hone
  · exact h k hbelow hcount
  · have hk : k = 1 := by omega
    subst hk
    exact htop hcount

theorem raise_eq (hcount : ∀ o, (s.sortUp side i).1.count o = s.count o)
    (hmax : side = .min → 0 < s.maxCt) : s.raise side i
      = if (s.sortUp side i).2 = true ∧ 0 < s.count side.other
        then (s.sortUp side i).1.settle side.other else (s.sortUp side i).1 := by
  unfold raise
  cases side with
  | min =>
    have hpos : 0 < s.count (Side.min).other := hmax rfl
    simp only [hpos, and_true]
    rfl
  | max =>
    have hmin : (s.sortUp .max i).1.minCt = s.count (Side.max).other := hcount .min
    simp only [hmin, Bool.and_eq_true, decide_eq_true_eq, pos_iff_ne_zero]
    rfl

theorem raise_spec (h : s.UpOrder side i) (hi : 0 < i) (hcount : i ≤ s.count side)
    (hother : s.HeapOrder side.other) (hmax : side = .min → 0 < s.maxCt) :
    (s.raise side i).HeapOrder side ∧ (s.raise side i).HeapOrder side.other
      ∧ Exchanged s (s.raise side i) := by
  obtain ⟨horder, hexch, hframe, htop, hstay⟩ := sortUpLoop_spec h hcount (le_refl i)
  rw [raise_eq hexch.count hmax]
  change (s.sortUp side i).1.HeapOrder side at horder
  change Exchanged s (s.sortUp side i).1 at hexch
  change 0 < i → (s.sortUp side i).2 = true → (s.sortUp side i).1.elem side 1 = _ at htop
  change (s.sortUp side i).2 = false → (s.sortUp side i).1.elem side 0 = _ at hstay
  change ∀ k, 0 < k → (s.sortUp side i).1.elem side.other k = _ at hframe
  generalize s.sortUp side i = r at *
  have hbelow : r.1.OrderBelow side.other := hother.below.of_eq (hexch.count _) hframe
  split
  · next hsettle =>
    obtain ⟨hflag, hpos⟩ := hsettle
    obtain ⟨horder', hexch', hmedian, hframe'⟩ :=
      settle_spec hbelow (lt_of_lt_of_eq hpos (hexch.count _).symm)
    refine ⟨?_, horder', hexch.trans hexch'⟩
    rcases hmedian with hsame | hmedian
    · rw [hsame]
      exact horder
    · -- the top of the other heap is the median now, and was not after the old one
      rw [Side.other_other] at hframe'
      refine HeapOrder.of_below (horder.below.of_eq (hexch'.count _) hframe') fun _ => ?_
      rw [hframe' 1 one_pos, htop hi hflag, ← elem_zero_other, hmedian, hframe 1 one_pos,
        ← elem_zero_other, ← Side.le_other_iff]
      exact hother 1 one_pos hpos
  · next hsettle =>
    refine ⟨horder, HeapOrder.of_below hbelow fun hpos => ?_, hexch⟩
    rw [hexch.count] at hpos
    have hflag : r.2 = false := by
      by_contra hflag
      exact hsettle ⟨eq_true_of_ne_false hflag, hpos⟩
    rw [hframe 1 one_pos, elem_zero_other, hstay hflag, ← elem_zero_other]
    exact hother 1 one_pos hpos

theorem lower_lower_spec (hbelow : ∀ side, s.OrderBelow side)
    (htops : 0 < s.minCt → 0 < s.maxCt → s.elem .max 1 ≤ s.elem .min 1) :
    (∀ side, ((s.lower .max).lower .min).HeapOrder side)
      ∧ Exchanged s ((s.lower .max).lower .min) := by
  obtain ⟨hmax, hexch, hframe, htop⟩ : (s.lower .max).HeapOrder .max ∧ Exchanged s (s.lower .max)
      ∧ (∀ k, 0 < k → (s.lower .max).elem .min k = s.elem .min k)
      ∧ (0 < s.minCt → 0 < s.maxCt → (s.lower .max).elem .max 1 ≤ s.elem .min 1) := by
    rw [lower_eq]
    split
    · next hcount =>
      obtain ⟨horder, hexch, hmedian, hframe⟩ := settle_spec (hbelow .max) (pos_of_ne_zero hcount)
      refine ⟨horder, hexch, hframe, fun hmin hpos => ?_⟩
      rcases hmedian with hsame | hmedian
      · rw [hsame]
        exact htops hmin hpos
      · have hone : (s.settle .max).elem .max 1 ≤ (s.settle .max).elem .max 0 :=
          horder 1 one_pos ((hexch.count .max).symm ▸ hpos)
        exact (hone.trans_eq hmedian).trans (htops hmin hpos)
    · next hcount =>
      have hzero : s.count .max = 0 := not_not.mp hcount
      exact ⟨fun k hk hk' => by omega, .refl, fun _ _ => rfl, htops⟩
  generalize s.lower .max = s₁ at *
  have hmin : s₁.OrderBelow .min := (hbelow .min).of_eq (hexch.count .min) hframe
  rw [lower_eq]
  split
  · next hcount =>
    obtain ⟨horder, hexch', hmedian, hframe'⟩ := settle_spec hmin (pos_of_ne_zero hcount)
    refine ⟨fun side => ?_, hexch.trans hexch'⟩
    cases side with
    | min => exact horder
    | max =>
      rcases hmedian with hsame | hmedian
      · rw [hsame]
        exact hmax
      · refine HeapOrder.of_below (hmax.below.of_eq (hexch'.count .max) hframe') fun hpos => ?_
        show (s₁.settle .min).elem .max 1 ≤ (s₁.settle .min).elem .max 0
        rw [hexch'.count, hexch.count] at hpos
        have hpos' : 0 < s.minCt := by
          rw [hexch.count] at hcount
          exact pos_of_ne_zero hcount
        have hone : (s₁.settle .min).elem .max 1 = s₁.elem .max 1 := hframe' 1 one_pos
        rw [hone, elem_zero, ← elem_zero _ .min, hmedian, hframe 1 one_pos]
        exact htop hpos' hpos
  · next hcount =>
    have hzero : s₁.count .min = 0 := not_not.mp hcount
    refine ⟨fun side => ?_, hexch⟩
    cases side with
    | min => exact fun k hk hk' => by omega
    | max => exact hmax

end RollingMedian

end Glaciem
