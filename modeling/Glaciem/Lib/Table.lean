import Mathlib.Tactic
import Mathlib.Data.Prod.Lex
import Mathlib.Data.List.Sort

/-!
# Glaciem — ordered tables

A table of a key/value store: rows in strictly increasing order of their keys. A store with sorted
duplicates is a table whose keys are pairs, a key and what its duplicates are compared by. A table
is determined by what it has for each key (`Table.ext_get?`), so writes are undone by whatever
restores `get?`.
-/

namespace Glaciem

open List Option

structure Table (κ ν : Type) [LinearOrder κ] where
  rows : List (κ × ν)
  sorted : rows.Pairwise fun a b => a.1 < b.1

namespace Table

variable {κ ν : Type} [LinearOrder κ]

instance [DecidableEq ν] : DecidableEq (Table κ ν) := fun t t' =>
  decidable_of_iff (t.rows = t'.rows) ⟨fun h => by cases t; cases t'; cases h; rfl,
    fun h => h ▸ rfl⟩

def empty : Table κ ν := ⟨[], .nil⟩

variable (t : Table κ ν)

def get? (k : κ) : Option ν := (t.rows.find? fun r => r.1 = k).map Prod.snd

def put (k : κ) (v : ν) : Table κ ν where
  rows := t.rows.filter (fun r => r.1 < k) ++ (k, v) :: t.rows.filter fun r => k < r.1
  sorted := by
    refine pairwise_append.mpr ⟨t.sorted.filter _, ?_, ?_⟩
    · exact pairwise_cons.mpr ⟨fun r hr => by simpa using (mem_filter.mp hr).2, t.sorted.filter _⟩
    · intro a ha b hb
      have hak : a.1 < k := by simpa using (mem_filter.mp ha).2
      rcases mem_cons.mp hb with rfl | hb
      · exact hak
      · exact hak.trans (by simpa using (mem_filter.mp hb).2)

def del (k : κ) : Table κ ν := ⟨t.rows.filter fun r => r.1 ≠ k, t.sorted.filter _⟩

def size : Nat := t.rows.length

def last? : Option (κ × ν) := t.rows.getLast?

/-- `MDB_NODUPDATA`: a write of a row that is not there yet. -/
def putNew (k : κ) (v : ν) : Option (Table κ ν) :=
  if (t.get? k).isNone then some (t.put k v) else none

/-- `MDB_APPEND`: a write of a row after all others. -/
def append (k : κ) (v : ν) : Option (Table κ ν) :=
  if ∀ r ∈ t.rows, r.1 < k then some (t.put k v) else none

/-! ## Rows and lookups -/

variable {t t' : Table κ ν} {k k' : κ} {v v' : ν}

theorem get?_eq_some_iff : t.get? k = some v ↔ (k, v) ∈ t.rows := by
  unfold get?
  obtain ⟨rows, sorted⟩ := t
  induction rows with
  | nil => simp
  | cons r rows ih =>
    obtain ⟨hr, hrows⟩ := pairwise_cons.mp sorted
    obtain ⟨rk, rv⟩ := r
    rw [find?_cons]
    by_cases hk : rk = k
    · subst hk
      have hnot : ∀ w, (rk, w) ∉ rows := fun w hw => lt_irrefl rk (hr _ hw)
      simp [hnot, eq_comm]
    · simp only [hk, decide_false]
      rw [ih hrows, mem_cons]
      constructor
      · exact Or.inr
      · rintro (h | h)
        · exact absurd (congrArg Prod.fst h).symm hk
        · exact h

theorem get?_eq_none_iff : t.get? k = none ↔ ∀ r ∈ t.rows, r.1 ≠ k := by
  rw [eq_none_iff_forall_ne_some]
  constructor
  · intro h r hr hk
    exact h r.2 (get?_eq_some_iff.mpr (hk ▸ hr))
  · intro h w hw
    exact h _ (get?_eq_some_iff.mp hw) rfl

theorem nodup_rows (t : Table κ ν) : t.rows.Nodup :=
  t.sorted.imp fun h heq => absurd (congrArg Prod.fst heq) (ne_of_lt h)

theorem ext_get? (h : ∀ k, t.get? k = t'.get? k) : t = t' := by
  have hmem : ∀ r, r ∈ t.rows ↔ r ∈ t'.rows := fun r => by
    rw [← get?_eq_some_iff (v := r.2), ← get?_eq_some_iff (v := r.2), h]
  have hperm : t.rows.Perm t'.rows := (perm_ext_iff_of_nodup t.nodup_rows t'.nodup_rows).mpr hmem
  have hrows : t.rows = t'.rows :=
    hperm.eq_of_pairwise (fun a b _ _ hab hba => absurd hab hba.not_gt) t.sorted t'.sorted
  cases t
  cases t'
  cases hrows
  rfl

theorem mem_rows_put {r : κ × ν} : r ∈ (t.put k v).rows ↔ r = (k, v) ∨ r ∈ t.rows ∧ r.1 ≠ k := by
  simp only [put, mem_append, mem_cons, mem_filter, decide_eq_true_eq, ne_iff_lt_or_gt]
  tauto

@[simp] theorem get?_put_self : (t.put k v).get? k = some v :=
  get?_eq_some_iff.mpr (mem_rows_put.mpr (Or.inl rfl))

theorem get?_put_ne (h : k' ≠ k) : (t.put k v).get? k' = t.get? k' := by
  refine Option.ext fun w => ?_
  rw [get?_eq_some_iff, get?_eq_some_iff, mem_rows_put]
  simp [h]

theorem get?_put : (t.put k v).get? k' = if k' = k then some v else t.get? k' := by
  split
  · next h => rw [h, get?_put_self]
  · next h => exact get?_put_ne h

@[simp] theorem get?_del_self : (t.del k).get? k = none :=
  get?_eq_none_iff.mpr fun r hr => by simpa using (mem_filter.mp hr).2

theorem get?_del_ne (h : k' ≠ k) : (t.del k).get? k' = t.get? k' := by
  refine Option.ext fun w => ?_
  rw [get?_eq_some_iff, get?_eq_some_iff, del, mem_filter]
  simp [h]

theorem get?_del : (t.del k).get? k' = if k' = k then none else t.get? k' := by
  split
  · next h => rw [h, get?_del_self]
  · next h => exact get?_del_ne h

theorem del_put (h : t.get? k = none) : (t.put k v).del k = t := by
  refine ext_get? fun k' => ?_
  rw [get?_del, get?_put]
  split
  · next hk => rw [hk, h]
  · rfl

theorem filter_lt_append_filter_gt {rows : List (κ × ν)}
    (sorted : rows.Pairwise fun a b => a.1 < b.1) :
    rows.filter (fun r => r.1 < k) ++ rows.filter (fun r => k < r.1)
      = rows.filter fun r => r.1 ≠ k := by
  induction rows with
  | nil => rfl
  | cons r rows ih =>
    obtain ⟨hr, hrows⟩ := pairwise_cons.mp sorted
    have hih := ih hrows
    rcases lt_trichotomy r.1 k with hlt | heq | hgt
    · simp [hlt, hlt.ne, hlt.le.not_gt, hih]
    · simp [heq, hih]
    · have hnone : rows.filter (fun r => r.1 < k) = [] :=
        filter_eq_nil_iff.mpr fun b hb => by simpa using (hgt.trans (hr b hb)).le
      rw [hnone, nil_append] at hih
      simp [hgt, hgt.ne', hgt.le.not_gt, hnone, hih]

theorem size_put (h : t.get? k = none) : (t.put k v).size = t.size + 1 := by
  have hall : t.rows.filter (fun r => r.1 ≠ k) = t.rows :=
    filter_eq_self.mpr fun r hr => by simpa using get?_eq_none_iff.mp h r hr
  have hlength := congrArg List.length (filter_lt_append_filter_gt (k := k) t.sorted)
  rw [hall, length_append] at hlength
  simp only [size, put, length_append, length_cons]
  omega

theorem putNew_eq_some : t.putNew k v = some t' ↔ t.get? k = none ∧ t' = t.put k v := by
  unfold putNew
  split
  · next h => simp [isNone_iff_eq_none.mp h, eq_comm]
  · next h => simp [isNone_iff_eq_none] at h; simp [h]

theorem append_eq_some : t.append k v = some t' ↔ (∀ r ∈ t.rows, r.1 < k) ∧ t' = t.put k v := by
  rw [append, Option.ite_none_right_eq_some, Option.some.injEq, eq_comm (b := t')]

theorem get?_of_above (h : ∀ r ∈ t.rows, r.1 < k) : t.get? k = none :=
  get?_eq_none_iff.mpr fun r hr => (h r hr).ne

/-! ## Consecutive rows -/

section UpTo

variable {key : Nat → κ} (hkey : StrictMono key) (n : Nat) (f : Nat → ν)

/-- The rows with the first `n` of the keys. -/
def upTo : Table κ ν :=
  ⟨(range n).map fun i => (key i, f i), pairwise_map.mpr (pairwise_lt_range.imp fun h => hkey h)⟩

theorem above_upTo : ∀ r ∈ (upTo hkey n f).rows, r.1 < key n := by
  intro r hr
  obtain ⟨i, hi, rfl⟩ := mem_map.mp hr
  exact hkey (mem_range.mp hi)

theorem get?_upTo {i : Nat} (hi : i < n) : (upTo hkey n f).get? (key i) = some (f i) :=
  get?_eq_some_iff.mpr (mem_map.mpr ⟨i, mem_range.mpr hi, rfl⟩)

theorem put_upTo : (upTo hkey n f).put (key n) (f n) = upTo hkey (n + 1) f := by
  have habove : ∀ r ∈ (range n).map fun i => (key i, f i), r.1 < key n := above_upTo hkey n f
  simp only [put, upTo, mk.injEq, range_succ, map_append, map_singleton]
  rw [filter_eq_self.mpr fun r hr => decide_eq_true (habove r hr),
    filter_eq_nil_iff.mpr fun r hr => by simpa using (habove r hr).le]

theorem append_upTo : (upTo hkey n f).append (key n) (f n) = some (upTo hkey (n + 1) f) :=
  append_eq_some.mpr ⟨above_upTo hkey n f, (put_upTo hkey n f).symm⟩

end UpTo

/-! ## Duplicates -/

section Dups

variable {δ : Type} [LinearOrder δ]

def dupOf (k : κ) (r : (κ ×ₗ δ) × ν) : Option (δ × ν) :=
  if (ofLex r.1).1 = k then some ((ofLex r.1).2, r.2) else none

def dups (t : Table (κ ×ₗ δ) ν) (k : κ) : List (δ × ν) := t.rows.filterMap (dupOf k)

/-- `MDB_APPENDDUP`: a write of a duplicate after all others of its key. -/
def appendDup (t : Table (κ ×ₗ δ) ν) (k : κ) (d : δ) (v : ν) : Option (Table (κ ×ₗ δ) ν) :=
  if ∀ r ∈ t.dups k, r.1 < d then some (t.put (toLex (k, d)) v) else none

/-- `MDB_SET` and `mdb_cursor_del`: take out the first duplicate of a key, if there is one. -/
def delFirstDup (t : Table (κ ×ₗ δ) ν) (k : κ) : Table (κ ×ₗ δ) ν :=
  match (t.dups k).head? with
  | some r => t.del (toLex (k, r.1))
  | none => t

variable {t t' : Table (κ ×ₗ δ) ν} {k k' : κ} {d d' : δ} {v : ν}

omit [LinearOrder δ] in
theorem dupOf_eq_some {r : (κ ×ₗ δ) × ν} : dupOf k r = some (d, v) ↔ r = (toLex (k, d), v) := by
  obtain ⟨key, w⟩ := r
  unfold dupOf
  split
  · next hk =>
    constructor
    · rintro ⟨⟩
      rw [← hk]
      rfl
    · rintro ⟨⟩
      rfl
  · next hk =>
    constructor
    · rintro ⟨⟩
    · rintro ⟨⟩
      exact absurd rfl hk

theorem mem_dups : (d, v) ∈ t.dups k ↔ t.get? (toLex (k, d)) = some v := by
  rw [get?_eq_some_iff, dups, mem_filterMap]
  simp only [dupOf_eq_some, exists_eq_right]

theorem appendDup_eq_some : t.appendDup k d v = some t' ↔
    (∀ r ∈ t.dups k, r.1 < d) ∧ t' = t.put (toLex (k, d)) v := by
  rw [appendDup, Option.ite_none_right_eq_some, Option.some.injEq, eq_comm (b := t')]

theorem get?_of_above_dups (h : ∀ r ∈ t.dups k, r.1 < d) : t.get? (toLex (k, d)) = none :=
  eq_none_iff_forall_ne_some.mpr fun _ hw => lt_irrefl d (h _ (mem_dups.mpr hw))

theorem dups_put_ne (h : k' ≠ k) : (t.put (toLex (k, d)) v).dups k' = t.dups k' := by
  have hnone : dupOf k' (toLex (k, d), v) = none := if_neg (Ne.symm h)
  have hsplit := congrArg (List.filterMap (dupOf k'))
    (filter_lt_append_filter_gt (k := toLex (k, d)) t.sorted)
  rw [filterMap_append] at hsplit
  rw [dups, put, filterMap_append, filterMap_cons_none hnone, hsplit, filterMap_filter, dups]
  refine filterMap_congr fun r _ => ?_
  by_cases hr : r.1 = toLex (k, d)
  · rw [dupOf, hr]
    simp [Ne.symm h]
  · simp [hr]

theorem dups_put_of_above (h : ∀ r ∈ t.dups k, r.1 < d) :
    (t.put (toLex (k, d)) v).dups k = t.dups k ++ [(d, v)] := by
  -- every duplicate of the key is among the rows below the new one
  have hbelow : ∀ r ∈ t.rows, dupOf k r ≠ none → r.1 < toLex (k, d) := by
    intro r hr hsome
    obtain ⟨⟨d', w⟩, hdup⟩ := ne_none_iff_exists'.mp hsome
    have hlt : d' < d := h _ (mem_filterMap.mpr ⟨r, hr, hdup⟩)
    rw [dupOf_eq_some.mp hdup]
    exact Prod.Lex.lt_iff.mpr (Or.inr ⟨rfl, hlt⟩)
  have hlow : (t.rows.filter fun r => r.1 < toLex (k, d)).filterMap (dupOf k) = t.dups k := by
    rw [filterMap_filter, dups]
    refine filterMap_congr fun r hr => ?_
    by_cases hsome : dupOf k r = none
    · simp [hsome]
    · simp [hbelow r hr hsome]
  have hhigh : (t.rows.filter fun r => toLex (k, d) < r.1).filterMap (dupOf k) = [] := by
    refine filterMap_eq_nil_iff.mpr fun r hr => ?_
    obtain ⟨hr, hgt⟩ := mem_filter.mp hr
    by_contra hsome
    exact absurd (hbelow r hr hsome) (not_lt_of_gt (by simpa using hgt))
  have hself : dupOf k (toLex (k, d), v) = some (d, v) := dupOf_eq_some.mpr rfl
  rw [dups, put, filterMap_append, filterMap_cons_some hself, hlow, hhigh]

theorem delFirstDup_put (h : t.dups k = []) : (t.put (toLex (k, d)) v).delFirstDup k = t := by
  have habove : ∀ r ∈ t.dups k, r.1 < d := fun r hr => by rw [h] at hr; cases hr
  unfold delFirstDup
  rw [dups_put_of_above habove, h]
  exact del_put (get?_of_above_dups habove)

theorem delFirstDup_of_nil (h : t.dups k = []) : t.delFirstDup k = t := by
  unfold delFirstDup
  rw [h]
  rfl

theorem dups_eq_nil (h : ∀ d, t.get? (toLex (k, d)) = none) : t.dups k = [] :=
  eq_nil_iff_forall_not_mem.mpr fun ⟨d, v⟩ hmem => by
    have hsome := mem_dups.mp hmem
    rw [h d] at hsome
    cases hsome

end Dups

end Table

end Glaciem
