import Glaciem.Lib.RollingMedian
import Mathlib.Data.List.Rotate

/-!
# Glaciem — the window of a rolling median

What the operations of `RollingMedian` mean: the structure holds the last `capacity` items that
were inserted, and its median is theirs.
-/

namespace Glaciem

open List Function Nat

namespace RollingMedian

variable {α : Type} [LinearOrder α] {s : RollingMedian α} {side : Side}

/-! ## The two index arrays -/

/-- The heaps hold as many items as the queue, shared out evenly, and `pos` and `heap` are inverse
to each other; what is not in use is as `clear` left it. -/
structure Linked (s : RollingMedian α) : Prop where
  room : 0 < s.capacity
  size_le : s.sz ≤ s.capacity
  idx_lt : s.idx < s.capacity
  growing : s.sz < s.capacity → s.idx = s.sz
  minCt : s.minCt = (s.sz - 1) / 2
  maxCt : s.maxCt = s.sz / 2
  pos_heap : 0 < s.sz → ∀ i, s.InUse i → s.heap i < s.sz ∧ s.pos (s.heap i) = i
  heap_pos : ∀ j < s.sz, s.InUse (s.pos j) ∧ s.heap (s.pos j) = j
  unused : ∀ j, s.sz ≤ j → j < s.capacity → s.pos j = slot j ∧ s.heap (slot j) = j

section Linked

omit [LinearOrder α]

theorem linked_clear (s : RollingMedian α) (hroom : 0 < s.capacity) : s.clear.Linked where
  room := hroom
  size_le := zero_le _
  idx_lt := hroom
  growing _ := rfl
  minCt := (Nat.zero_div 2).symm
  maxCt := (Nat.zero_div 2).symm
  pos_heap h := absurd h (Nat.lt_irrefl 0)
  heap_pos _ h := absurd h (Nat.not_lt_zero _)
  unused j _ _ := by
    refine ⟨rfl, ?_⟩
    simp only [clear, slot]
    split <;> split <;> omega

/-- On what is in use, both arrays are permuted by the swap of the two positions. -/
theorem Linked.mmexchange (h : s.Linked) (hsz : 0 < s.sz) {i j : Int} (hi : s.InUse i)
    (hj : s.InUse j) : (s.mmexchange i j).Linked := by
  obtain ⟨hai, hposi⟩ := h.pos_heap hsz i hi
  obtain ⟨hbj, hposj⟩ := h.pos_heap hsz j hj
  have hheap : ∀ l, (s.mmexchange i j).heap l = s.heap (Equiv.swap i j l) := by
    intro l
    rw [mmexchange_heap, Equiv.swap_apply_def]
    grind
  have hpos : ∀ n < s.sz, (s.mmexchange i j).pos n = Equiv.swap i j (s.pos n) := by
    intro n hn
    have hback := (h.heap_pos n hn).2
    simp only [RollingMedian.mmexchange, update_apply, Equiv.swap_apply_def]
    grind
  have huse : ∀ l, s.InUse l → s.InUse (Equiv.swap i j l) := by
    intro l hl
    rw [Equiv.swap_apply_def]
    split_ifs <;> assumption
  refine ⟨h.room, h.size_le, h.idx_lt, h.growing, h.minCt, h.maxCt, fun _ l hl => ?_,
    fun n hn => ?_, fun n hn hcap => ?_⟩
  · obtain ⟨hal, hposl⟩ := h.pos_heap hsz _ (huse l hl)
    rw [hheap, hpos _ hal, hposl, Equiv.swap_apply_self]
    exact ⟨hal, rfl⟩
  · obtain ⟨hn', hback⟩ := h.heap_pos n hn
    rw [hpos n hn, hheap, Equiv.swap_apply_self]
    exact ⟨huse _ hn', hback⟩
  · obtain ⟨hslot, hback⟩ := h.unused n hn hcap
    have hne : ∀ l, s.heap l < s.sz → slot n ≠ l := by
      rintro l hl rfl
      exact not_lt.mpr hn (hback ▸ hl)
    rw [hheap, Equiv.swap_apply_of_ne_of_ne (hne i hai) (hne j hbj)]
    refine ⟨?_, hback⟩
    simp only [RollingMedian.mmexchange, update_apply]
    rw [if_neg (hai.trans_le hn).ne', if_neg (hbj.trans_le hn).ne', hslot]

theorem Exchanged.linked {s' : RollingMedian α} (h : Exchanged s s') (hsz : 0 < s.sz)
    (hlinked : s.Linked) :
    s'.Linked ∧ s'.data = s.data ∧ s'.sz = s.sz ∧ s'.idx = s.idx ∧ s'.capacity = s.capacity := by
  induction h with
  | refl => exact ⟨hlinked, rfl, rfl, rfl, rfl⟩
  | step _ hi hj ih =>
    obtain ⟨hlinked, hdata, hsame, hidx, hcapacity⟩ := ih
    exact ⟨hlinked.mmexchange (hsame.symm ▸ hsz) hi hj, hdata, hsame, hidx, hcapacity⟩

end Linked

/-! ## Insertion -/

def store (s : RollingMedian α) (v : α) : RollingMedian α :=
  { s with
    data := update s.data s.idx v
    idx := (s.idx + 1) % s.capacity
    sz := min (s.sz + 1) s.capacity
    minCt := (min (s.sz + 1) s.capacity - 1) / 2
    maxCt := min (s.sz + 1) s.capacity / 2 }

section

omit [LinearOrder α]

theorem Linked.sz_store_pos (h : s.Linked) (v : α) : 0 < (s.store v).sz :=
  lt_min (succ_pos _) h.room

theorem store_eq {v : α} {minCt maxCt : Nat} (hmin : minCt = (min (s.sz + 1) s.capacity - 1) / 2)
    (hmax : maxCt = min (s.sz + 1) s.capacity / 2) :
    ({ s with
      data := update s.data s.idx v
      idx := (s.idx + 1) % s.capacity
      sz := min (s.sz + 1) s.capacity
      minCt := minCt
      maxCt := maxCt } : RollingMedian α) = s.store v := by
  subst hmin hmax
  rfl

/-- In a queue that is not full it is the next position of the pattern, in a full one any position
in use. -/
theorem Linked.pos_idx (h : s.Linked) :
    (s.sz < s.capacity ∧ s.pos s.idx = slot s.sz)
      ∨ (s.sz = s.capacity ∧ s.InUse (s.pos s.idx)) := by
  rcases lt_or_ge s.sz s.capacity with hgrow | hfull
  · rw [h.growing hgrow]
    exact .inl ⟨hgrow, (h.unused s.sz le_rfl hgrow).1⟩
  · have hsz : s.sz = s.capacity := le_antisymm h.size_le hfull
    exact .inr ⟨hsz, (h.heap_pos s.idx (hsz ▸ h.idx_lt)).1⟩

end

/-- `insert` by the place of the new item: the median, an element that goes down in its heap, or
one that goes up. -/
theorem insert_cases (h : s.Linked) (v : α) :
    (s.pos s.idx = 0 ∧ s.insert v = ((s.store v).lower .max).lower .min)
    ∨ ∃ side k, 0 < k ∧ s.pos s.idx = side.index k
      ∧ ((s.sz = s.capacity ∧ side.lt (s.data s.idx) v ∧ s.insert v = (s.store v).sortDown side k)
        ∨ ((s.sz = s.capacity → side.le v (s.data s.idx))
          ∧ s.insert v = (s.store v).raise side k)) := by
  have hmin := h.minCt
  have hmax := h.maxCt
  have hroom := h.room
  unfold insert
  generalize hp : s.pos s.idx = p
  have hplace : (s.sz < s.capacity ∧ (p < 0 → s.sz % 2 = 1) ∧ (p = 0 → s.sz = 0)
      ∧ (0 < p → s.sz % 2 = 0 ∧ 2 ≤ s.sz)) ∨ (s.sz = s.capacity ∧ s.InUse p) := by
    rw [← hp]
    refine h.pos_idx.imp_left fun ⟨hgrow, hslot⟩ => ?_
    unfold slot at hslot
    split at hslot <;> omega
  dsimp only
  rcases lt_trichotomy p 0 with hneg | hzero | hpos
  · right
    refine ⟨.max, p.natAbs, by omega, by simp only [Side.index]; omega, ?_⟩
    rw [if_neg (by omega), if_pos hneg]
    rcases hplace with ⟨hgrow, hodd, -⟩ | ⟨hfull, huse⟩
    · rw [if_pos (by omega), store_eq (by omega) (by omega)]
      exact .inr ⟨fun hfull => by omega, rfl⟩
    · rw [if_neg (by omega), store_eq (by omega) (by omega)]
      by_cases hlt : v < s.data s.idx
      · exact .inl ⟨hfull, hlt, if_pos hlt⟩
      · exact .inr ⟨fun _ => Side.not_lt_iff.mp hlt, if_neg hlt⟩
  · left
    rw [if_neg (by omega), if_neg (by omega)]
    refine ⟨hzero, ?_⟩
    rcases hplace with ⟨hgrow, -, hempty, -⟩ | ⟨hfull, huse⟩
    all_goals rw [store_eq (by omega) (by omega)]
  · right
    refine ⟨.min, p.natAbs, by omega, by simp only [Side.index]; omega, ?_⟩
    rw [if_pos hpos]
    rcases hplace with ⟨hgrow, -, -, heven⟩ | ⟨hfull, huse⟩
    · rw [if_pos (by omega), store_eq (by omega) (by omega)]
      exact .inr ⟨fun hfull => by omega, rfl⟩
    · rw [if_neg (by omega), store_eq (by omega) (by omega)]
      by_cases hlt : s.data s.idx < v
      · exact .inl ⟨hfull, hlt, if_pos hlt⟩
      · exact .inr ⟨fun _ => Side.not_lt_iff.mp hlt, if_neg hlt⟩

section

omit [LinearOrder α]

theorem Linked.store (h : s.Linked) (v : α) : (s.store v).Linked := by
  have hroom := h.room
  have hmin := h.minCt
  have hmax := h.maxCt
  have hle := h.size_le
  refine ⟨hroom, min_le_right _ _, mod_lt _ hroom, fun hgrow => ?_, rfl, rfl,
    fun _ i hi => ?_, fun j hj => ?_, fun j hj hcap => ?_⟩
  · simp only [RollingMedian.store] at hgrow ⊢
    rw [h.growing (by omega), mod_eq_of_lt (by omega)]
    omega
  · simp only [RollingMedian.store, InUse] at hi ⊢
    rcases h.pos_idx with ⟨hgrow, -⟩ | ⟨hfull, -⟩
    · obtain ⟨hslot, hheap⟩ := h.unused s.sz le_rfl hgrow
      by_cases hi' : i = slot s.sz
      · rw [hi', hheap]
        exact ⟨by omega, hslot⟩
      · have huse : s.InUse i ∧ 0 < s.sz := by
          unfold slot at hi'
          unfold InUse
          split at hi' <;> omega
        obtain ⟨hlt, hpos⟩ := h.pos_heap huse.2 i huse.1
        exact ⟨by omega, hpos⟩
    · obtain ⟨hlt, hpos⟩ := h.pos_heap (by omega) i ⟨by omega, by omega⟩
      exact ⟨by omega, hpos⟩
  · simp only [RollingMedian.store, InUse] at hj ⊢
    rcases lt_or_ge j s.sz with hold | hnew
    · obtain ⟨huse, hheap⟩ := h.heap_pos j hold
      unfold InUse at huse
      have hgrown : s.sz ≤ min (s.sz + 1) s.capacity := by omega
      exact ⟨by omega, hheap⟩
    · obtain ⟨hslot, hheap⟩ := h.unused j hnew (by omega)
      rw [hslot]
      refine ⟨?_, hheap⟩
      unfold slot
      split <;> omega
  · simp only [RollingMedian.store] at hj hcap ⊢
    exact h.unused j (by omega) hcap

theorem Linked.heap_pos_idx (h : s.Linked) : s.heap (s.pos s.idx) = s.idx := by
  rcases lt_or_ge s.sz s.capacity with hgrow | hfull
  · obtain ⟨hslot, hheap⟩ := h.unused s.sz le_rfl hgrow
    rw [h.growing hgrow, hslot, hheap]
  · exact (h.heap_pos s.idx (lt_of_lt_of_le h.idx_lt hfull)).2

end

variable {k : Nat}

section

omit [LinearOrder α]

theorem Linked.elem_store (h : s.Linked) (v : α) {side : Side}
    (hk : k ≤ (s.store v).count side) : (s.store v).elem side k
      = if side.index k = s.pos s.idx then v else s.elem side k := by
  have huse : (s.store v).InUse (side.index k) := by
    cases side <;> simp only [InUse, count, Side.index] at hk ⊢ <;> omega
  have hback : s.pos (s.heap (side.index k)) = side.index k :=
    ((h.store v).pos_heap (h.sz_store_pos v) _ huse).2
  show update s.data s.idx v (s.heap (side.index k)) = _
  rw [update_apply]
  refine if_congr ⟨fun heq => ?_, fun heq => ?_⟩ rfl rfl
  · rw [← hback, heq]
  · rw [heq, h.heap_pos_idx]

theorem Linked.elem_store_side (h : s.Linked) (v : α) {side : Side} {m : Nat}
    (hpos : s.pos s.idx = side.index k) (hm : m ≤ (s.store v).count side) :
    (s.store v).elem side m = if m = k then v else s.elem side m := by
  rw [h.elem_store v hm, hpos]
  exact if_congr Side.index_inj rfl rfl

end

structure Valid (s : RollingMedian α) : Prop extends s.Linked where
  order : ∀ side, s.HeapOrder side

theorem valid_clear (s : RollingMedian α) (hroom : 0 < s.capacity) : s.clear.Valid where
  toLinked := linked_clear s hroom
  order side k hk hcount := by
    have hzero : s.clear.count side = 0 := by cases side <;> rfl
    omega

theorem Valid.heapOrder_store (h : s.Valid) (v : α) (hside : ∀ k, side.index k ≠ s.pos s.idx)
    (hcount : (s.store v).count side = s.count side) : (s.store v).HeapOrder side := by
  intro k hk hk'
  rw [h.elem_store v hk', h.elem_store v (by omega), if_neg (hside _), if_neg (hside _)]
  exact h.order side k hk (hcount ▸ hk')

omit [LinearOrder α] in
theorem Linked.count_store (h : s.Linked) (v : α) {side : Side} (hk : 0 < k)
    (hpos : s.pos s.idx = side.index k) :
    k ≤ (s.store v).count side ∧ (s.store v).count side.other = s.count side.other
      ∧ (s.sz < s.capacity → (s.store v).count side = k ∧ s.count side + 1 = k)
      ∧ (s.sz = s.capacity → (s.store v).count side = s.count side) := by
  have hmin := h.minCt
  have hmax := h.maxCt
  have hroom := h.room
  have hplace := h.pos_idx
  rw [hpos] at hplace
  unfold slot InUse at hplace
  cases side <;> simp only [count, RollingMedian.store, Side.other, Side.index] at hplace ⊢ <;>
    split at hplace <;> omega

/-- From a child of the new item to its parent, when the heap is full. -/
theorem Valid.store_below (h : s.Valid) (v : α) (hk : 0 < k) (hpos : s.pos s.idx = side.index k)
    (hcount : (s.store v).count side = s.count side) {m : Nat} (hm : m / 2 = k)
    (hm' : m ≤ (s.store v).count side) :
    side.le ((s.store v).elem side (k / 2)) ((s.store v).elem side m) := by
  have horder := h.order side m (by omega) (hcount ▸ hm')
  rw [hm] at horder
  rw [h.elem_store_side v hpos hm', h.elem_store_side v hpos (m := k / 2) (by omega),
    if_neg (by omega), if_neg (by omega)]
  exact (h.order side k hk (by omega)).trans horder

theorem Valid.upOrder_store (h : s.Valid) (v : α) (hk : 0 < k)
    (hpos : s.pos s.idx = side.index k)
    (hle : s.sz = s.capacity → side.le v (s.elem side k)) : (s.store v).UpOrder side k := by
  obtain ⟨-, -, hgrow, hfull⟩ := h.count_store v hk hpos
  have helem := fun m => h.elem_store_side v (m := m) hpos
  rcases h.pos_idx with ⟨hroom, -⟩ | ⟨hroom, -⟩
  · obtain ⟨hlast, hnext⟩ := hgrow hroom
    refine ⟨fun m hm hm' hne => ?_, fun _ m hm hm' => by omega⟩
    rw [helem m hm', helem (m / 2) (by omega), if_neg hne, if_neg (by omega)]
    exact h.order side m hm (by omega)
  · have hcount := hfull hroom
    refine ⟨fun m hm hm' hne => ?_, fun _ m hm hm' => h.store_below v hk hpos hcount hm hm'⟩
    rw [helem m hm', helem (m / 2) (by omega), if_neg hne]
    have horder := h.order side m hm (hcount ▸ hm')
    split
    · next hchild =>
      rw [hchild] at horder
      exact (hle hroom).trans horder
    · exact horder

theorem Valid.downOrder_store (h : s.Valid) (v : α) (hk : 0 < k)
    (hpos : s.pos s.idx = side.index k) (hfull : s.sz = s.capacity)
    (hlt : side.lt (s.elem side k) v) : (s.store v).DownOrder side k := by
  obtain ⟨-, -, -, hcount⟩ := h.count_store v hk hpos
  have hcount := hcount hfull
  have helem := fun m => h.elem_store_side v (m := m) hpos
  refine ⟨fun m hm hm' hne => ?_, fun m hm hm' => h.store_below v hk hpos hcount hm hm'⟩
  rw [helem m hm', helem (m / 2) (by omega), if_neg hne]
  have horder := h.order side m hm (hcount ▸ hm')
  split
  · next hmk =>
    rw [hmk] at horder ⊢
    exact horder.trans hlt.le
  · exact horder

theorem HeapOrder.of_eq {s' : RollingMedian α} (h : s.HeapOrder side)
    (hcount : s'.count side = s.count side) (heq : ∀ k, s'.elem side k = s.elem side k) :
    s'.HeapOrder side := by
  intro k hk hk'
  rw [heq, heq]
  exact h k hk (hcount ▸ hk')

theorem Valid.insert_spec (h : s.Valid) (v : α) :
    (∀ side, (s.insert v).HeapOrder side) ∧ Exchanged (s.store v) (s.insert v) := by
  rcases insert_cases h.toLinked v with ⟨hpos, hinsert⟩ | ⟨side, k, hk, hpos, hcases⟩
  · rw [hinsert]
    have helem : ∀ side k, 0 < k → k ≤ (s.store v).count side →
        (s.store v).elem side k = s.elem side k := by
      intro side k hk hk'
      rw [h.elem_store v hk', hpos, ← side.index_zero, if_neg (by rw [Side.index_inj]; omega)]
    -- the counts grow only if the new item is not the median
    have hcount : ∀ side, (s.store v).count side ≤ s.count side := by
      have hplace := h.pos_idx
      have hmin := h.minCt
      have hmax := h.maxCt
      rw [hpos] at hplace
      unfold slot at hplace
      intro side
      cases side <;> simp only [count, store] <;> split at hplace <;> omega
    refine lower_lower_spec (fun side k hk hk' => ?_) fun hmin hmax => ?_
    · rw [helem side k (by omega) hk', helem side (k / 2) (by omega) (by omega)]
      exact h.order side k (by omega) (hk'.trans (hcount side))
    · rw [helem .max 1 one_pos hmax, helem .min 1 one_pos hmin]
      have hmax' : s.elem .max 1 ≤ s.elem .max 0 :=
        h.order .max 1 one_pos (hmax.trans_le (hcount .max))
      have hmin' : s.elem .min 0 ≤ s.elem .min 1 :=
        h.order .min 1 one_pos (hmin.trans_le (hcount .min))
      rw [elem_zero] at hmax' hmin'
      exact hmax'.trans hmin'
  · obtain ⟨hle, hother, -, -⟩ := h.count_store v hk hpos
    have hold : s.elem side k = s.data s.idx := by
      rw [elem, ← hpos, h.heap_pos_idx]
    have hotherOrder : (s.store v).HeapOrder side.other := by
      refine h.heapOrder_store v (fun m => ?_) hother
      have hne := side.other.index_other_ne (m := m) hk
      rw [Side.other_other] at hne
      rw [hpos]
      exact hne.symm
    have hboth : ∀ t : RollingMedian α, t.HeapOrder side → t.HeapOrder side.other →
        ∀ o, t.HeapOrder o := by
      intro t hside hother o
      cases side <;> cases o <;> assumption
    rcases hcases with ⟨hfull, hlt, hinsert⟩ | ⟨hup, hinsert⟩
    · rw [hinsert]
      obtain ⟨horder, hexch, hmedian, hframe⟩ :=
        sortDownLoop_spec (h.downOrder_store v hk hpos hfull (hold ▸ hlt)) hk hle (le_add_right _ k)
      refine ⟨hboth _ horder (hotherOrder.of_eq (hexch.count _) fun m => ?_), hexch⟩
      rcases Nat.eq_zero_or_pos m with rfl | hm
      · rw [elem_zero_other, elem_zero_other]
        exact hmedian
      · exact hframe m hm
    · rw [hinsert]
      have hmax : side = .min → 0 < (s.store v).maxCt := by
        rintro rfl
        simp only [count, store] at hle ⊢
        omega
      obtain ⟨horder, horder', hexch⟩ :=
        raise_spec (h.upOrder_store v hk hpos (hold ▸ hup)) hk hle hotherOrder hmax
      exact ⟨hboth _ horder horder', hexch⟩

theorem Valid.insert (h : s.Valid) (v : α) : (s.insert v).Valid := by
  obtain ⟨horder, hexch⟩ := h.insert_spec v
  exact ⟨(hexch.linked (h.sz_store_pos v) (h.store v)).1, horder⟩

/-! ## The window -/

/-- The items in the queue, the oldest first. -/
def items (s : RollingMedian α) : List α := ((range s.sz).map s.data).rotate s.idx

section

omit [LinearOrder α]

theorem length_items (s : RollingMedian α) : s.items.length = s.sz := by
  rw [items, length_rotate, length_map, length_range]

theorem rotate_set {l : List α} {n : Nat} (hn : n < l.length) (v : α) :
    (l.set n v).rotate (n + 1) = (l.rotate n).tail ++ [v] := by
  have hstart : (l.take n ++ [v]).length = n + 1 := by
    rw [length_append, length_take, length_singleton]
    omega
  have hset : l.set n v = (l.take n ++ [v]) ++ l.drop (n + 1) := by
    rw [set_eq_take_append_cons_drop, if_pos hn, append_assoc]
    rfl
  have hrotate : l.rotate n = l[n] :: (l.drop (n + 1) ++ l.take n) := by
    rw [rotate_eq_drop_append_take hn.le, drop_eq_getElem_cons hn]
    rfl
  have hturn := rotate_append_length_eq (l.take n ++ [v]) (l.drop (n + 1))
  rw [hstart, ← hset] at hturn
  rw [hturn, hrotate, tail_cons, append_assoc]

theorem items_store (h : s.Linked) (v : α) : (s.store v).items
    = if s.sz < s.capacity then s.items ++ [v] else s.items.tail ++ [v] := by
  have hlength : ((range s.sz).map s.data).length = s.sz := by simp
  have hmap : ∀ n, (range n).map (update s.data s.idx v)
      = ((range n).map s.data).set s.idx v := by
    intro n
    refine ext_getElem (by simp) fun k hk hk' => ?_
    simp only [getElem_map, getElem_range, getElem_set, update_apply, eq_comm]
  have hitems : (s.store v).items = (((range (min (s.sz + 1) s.capacity)).map s.data).set
      s.idx v).rotate ((s.idx + 1) % s.capacity) := by
    rw [← hmap]
    rfl
  rw [hitems, items]
  split
  · next hgrow =>
    rw [h.growing hgrow, min_eq_left hgrow, range_succ, map_append]
    generalize (range s.sz).map s.data = l at *
    have hlast : (l ++ [s.sz].map s.data).set s.sz v = l ++ [v] := by
      rw [set_append_right _ _ hlength.le, hlength, Nat.sub_self]
      rfl
    have hwhole : (l ++ [v]).length = s.sz + 1 := by simp [hlength]
    have hrotate : l.rotate s.sz = l := (congrArg l.rotate hlength.symm).trans (rotate_length l)
    rw [hlast, hrotate]
    rcases lt_or_ge (s.sz + 1) s.capacity with hmore | hlast
    · rw [mod_eq_of_lt hmore, ← hwhole, rotate_length]
    · rw [show s.sz + 1 = s.capacity by omega, mod_self, rotate_zero]
  · next hfull =>
    have hsz : s.sz = s.capacity := le_antisymm h.size_le (not_lt.mp hfull)
    have hidx : s.idx < ((range s.sz).map s.data).length := by
      rw [hlength, hsz]
      exact h.idx_lt
    rw [min_eq_right (by omega), ← hsz, ← rotate_set hidx]
    generalize (range s.sz).map s.data = l at *
    have hset : (l.set s.idx v).length = s.sz := by rw [length_set, hlength]
    rw [← hset, rotate_mod]

end

theorem Valid.items_insert (h : s.Valid) (v : α) :
    (s.insert v).items = (s.items ++ [v]).rtake s.capacity
      ∧ (s.insert v).capacity = s.capacity := by
  obtain ⟨-, hdata, hsame, hidx, hcapacity⟩ :=
    (h.insert_spec v).2.linked (h.sz_store_pos v) (h.store v)
  have hlength : (s.items ++ [v]).length = s.sz + 1 := by
    rw [length_append, length_items, length_singleton]
  refine ⟨?_, hcapacity⟩
  rw [items, hdata, hsame, hidx]
  refine (items_store h.toLinked v).trans ?_
  split
  · next hgrow => rw [rtake_of_length_le (by omega)]
  · next hfull =>
    have hle := h.size_le
    have hroom := h.room
    rw [rtake_eq_drop, hlength, show s.sz + 1 - s.capacity = 1 by omega, drop_one,
      tail_append_of_ne_nil (ne_nil_of_length_pos (by rw [length_items]; omega))]

def insertAll (s : RollingMedian α) (vs : List α) : RollingMedian α := vs.foldl insert s

theorem Valid.insertAll (h : s.Valid) (vs : List α) :
    (s.insertAll vs).Valid ∧ (s.insertAll vs).items = (s.items ++ vs).rtake s.capacity
      ∧ (s.insertAll vs).capacity = s.capacity := by
  induction vs using reverseRecOn with
  | nil =>
    refine ⟨h, ?_, rfl⟩
    rw [append_nil, rtake_of_length_le (s.length_items.trans_le h.size_le)]
    rfl
  | append_singleton vs v ih =>
    obtain ⟨hvalid, hitems, hcapacity⟩ := ih
    have hlast : s.insertAll (vs ++ [v]) = (s.insertAll vs).insert v := by
      rw [RollingMedian.insertAll, foldl_append]
      rfl
    obtain ⟨hnext, hsame⟩ := hvalid.items_insert v
    rw [hlast]
    refine ⟨hvalid.insert v, ?_, hsame.trans hcapacity⟩
    rw [hnext, hitems, hcapacity, ← append_assoc, ← rtake_concat]

/-! ## The median -/

theorem Valid.le_elem (h : s.Valid) (side : Side) (hk : k ≤ s.count side) :
    side.le (s.elem side 0) (s.elem side k)
      ∧ (0 < k → side.le (s.elem side 1) (s.elem side k)) := by
  induction k using Nat.strongRecOn with
  | ind k ih =>
    rcases Nat.eq_zero_or_pos k with rfl | hpos
    · exact ⟨.refl _ _, fun hk => absurd hk (lt_irrefl 0)⟩
    · have horder := h.order side k hpos hk
      obtain ⟨hmedian, htop⟩ := ih (k / 2) (by omega) (by omega)
      refine ⟨hmedian.trans horder, fun _ => ?_⟩
      rcases lt_or_ge 1 k with hbelow | hone
      · exact (htop (by omega)).trans horder
      · rw [show k = 1 by omega]
        exact .refl _ _

def heapItems (s : RollingMedian α) (side : Side) : List α :=
  (range (s.count side)).map fun k => s.elem side (k + 1)

omit [LinearOrder α] in
theorem Linked.perm_items (h : s.Linked) (hsz : 0 < s.sz) :
    s.items.Perm (s.heapItems .max ++ s.elem .min 0 :: s.heapItems .min) := by
  have hmin := h.minCt
  have hmax := h.maxCt
  -- the positions in use, and the places in the queue they refer to
  let positions : List Int := (range s.maxCt).map (fun k : Nat => -((k : Int) + 1))
    ++ 0 :: (range s.minCt).map (fun k : Nat => (k : Int) + 1)
  have huse : ∀ i ∈ positions, s.InUse i := by
    intro i hi
    simp only [positions, mem_append, mem_cons, mem_map, mem_range] at hi
    unfold InUse
    rcases hi with ⟨k, hk, rfl⟩ | rfl | ⟨k, hk, rfl⟩ <;> omega
  have hnodup : positions.Nodup := by
    refine nodup_append.mpr ⟨?_, nodup_cons.mpr ⟨?_, ?_⟩, ?_⟩
    · exact nodup_range.map fun a b hab => by simpa using hab
    · simp only [mem_map, not_exists, not_and]
      omega
    · exact nodup_range.map fun a b hab => by simpa using hab
    · simp only [mem_map, mem_cons, mem_range]
      rintro a ⟨k, hk, rfl⟩ b (rfl | ⟨m, hm, rfl⟩) <;> omega
  have hplaces : (positions.map s.heap).Perm (range s.sz) := by
    have hinj : (positions.map s.heap).Nodup := by
      refine hnodup.map_on fun i hi j hj heq => ?_
      rw [← (h.pos_heap hsz i (huse i hi)).2, heq, (h.pos_heap hsz j (huse j hj)).2]
    refine (hinj.subperm fun n hn => ?_).perm_of_length_le ?_
    · obtain ⟨i, hi, rfl⟩ := mem_map.mp hn
      exact mem_range.mpr (h.pos_heap hsz i (huse i hi)).1
    · simp only [positions, length_map, length_append, length_cons, length_range]
      omega
  have hsplit : (positions.map s.heap).map s.data
      = s.heapItems .max ++ s.elem .min 0 :: s.heapItems .min := by
    simp only [positions, map_append, map_cons, map_map]
    rfl
  rw [← hsplit, items]
  exact (rotate_perm _ _).trans (hplaces.map s.data).symm

theorem Valid.sorted_items (h : s.Valid) (hsz : 0 < s.sz) : s.items.insertionSort (· ≤ ·)
    = (s.heapItems .max).insertionSort (· ≤ ·)
      ++ s.elem .min 0 :: (s.heapItems .min).insertionSort (· ≤ ·) := by
  have hmax : ∀ a ∈ s.heapItems .max, a ≤ s.elem .min 0 := by
    intro a ha
    obtain ⟨k, hk, rfl⟩ := mem_map.mp ha
    exact (h.le_elem .max (mem_range.mp hk)).1
  have hmin : ∀ b ∈ s.heapItems .min, s.elem .min 0 ≤ b := by
    intro b hb
    obtain ⟨k, hk, rfl⟩ := mem_map.mp hb
    exact (h.le_elem .min (mem_range.mp hk)).1
  refine Perm.eq_of_pairwise' (r := (· ≤ ·)) (pairwise_insertionSort _ _) ?_ ?_
  · refine pairwise_append.mpr ⟨pairwise_insertionSort _ _,
      pairwise_cons.mpr ⟨fun b hb => ?_, pairwise_insertionSort _ _⟩, fun a ha b hb => ?_⟩
    · exact hmin b ((mem_insertionSort _).mp hb)
    · have ha' := hmax a ((mem_insertionSort _).mp ha)
      rcases mem_cons.mp hb with rfl | hb
      · exact ha'
      · exact ha'.trans (hmin b ((mem_insertionSort _).mp hb))
  · refine ((perm_insertionSort _ _).trans (h.perm_items hsz)).trans ?_
    exact ((perm_insertionSort _ _).symm).append
      (((perm_insertionSort _ _).symm).cons _)

theorem Valid.getLast_sorted (h : s.Valid) (hcount : 0 < s.maxCt)
    (hne : (s.heapItems .max).insertionSort (· ≤ ·) ≠ []) :
    ((s.heapItems .max).insertionSort (· ≤ ·)).getLast hne = s.elem .max 1 := by
  refine le_antisymm ?_ ?_
  · have hmem := (mem_insertionSort _).mp (getLast_mem hne)
    obtain ⟨k, hk, hkth⟩ := mem_map.mp hmem
    rw [← hkth]
    exact (h.le_elem .max (mem_range.mp hk)).2 (succ_pos k)
  · have htop : s.elem .max 1 ∈ (s.heapItems .max).insertionSort (· ≤ ·) :=
      (mem_insertionSort _).mpr (mem_map.mpr ⟨0, mem_range.mpr hcount, rfl⟩)
    exact (pairwise_insertionSort _ _).rel_getLast htop

end RollingMedian

def getMid (a b : Nat) : Nat := a / 2 + b / 2 + ((a - 2 * (a / 2)) + (b - 2 * (b / 2))) / 2

theorem getMid_eq (a b : Nat) : getMid a b = (b + a) / 2 := by
  unfold getMid
  omega

theorem RollingMedian.Valid.median_eq {s : RollingMedian Nat} (h : s.Valid) (hsz : 0 < s.sz) :
    s.median getMid = Glaciem.median s.items := by
  have hmin := h.minCt
  have hmax := h.maxCt
  have hleft : ((s.heapItems .max).insertionSort (· ≤ ·)).length = s.maxCt := by
    rw [length_insertionSort, heapItems, length_map, length_range]
    rfl
  have hmiddle : (s.items.insertionSort (· ≤ ·)).getD s.maxCt 0 = s.elem .min 0 := by
    rw [h.sorted_items hsz, ← hleft]
    simp
  have hheap : s.data (s.heap 0) = s.elem .min 0 := rfl
  unfold RollingMedian.median Glaciem.median
  rw [s.length_items, ← hmax]
  dsimp only
  rw [hmiddle, hheap]
  by_cases hodd : s.sz % 2 = 1
  · rw [if_neg (by omega), if_pos hodd]
  · have hpos : 0 < s.maxCt := by omega
    have hne : (s.heapItems .max).insertionSort (· ≤ ·) ≠ [] :=
      ne_nil_of_length_pos (hleft.symm ▸ hpos)
    have hbefore : (s.items.insertionSort (· ≤ ·)).getD (s.maxCt - 1) 0 = s.elem .max 1 := by
      rw [← h.getLast_sorted hpos hne, h.sorted_items hsz, getLast_eq_getElem, ← hleft,
        getD_eq_getElem?_getD, getElem?_append_left (by omega), getElem?_eq_getElem (by omega)]
      rfl
    have htop : s.data (s.heap (-1)) = s.elem .max 1 := rfl
    rw [if_pos (by omega), if_neg hodd, getMid_eq, hbefore, htop]

end Glaciem
