import Mathlib.Tactic

/-!
# Glaciem — insertion-ordered dictionaries

A dictionary keeps its items in the order in which their keys were first set; setting a key that is
present overwrites its value in place. No key occurs twice, by construction. `sumBy_set` says how
the sum of a measure over the values changes when one key is set.
-/

namespace Glaciem

open List

/-- A dictionary with its items in the order of first insertion. -/
structure Dict (κ ν : Type) where
  items : List (κ × ν)
  nodup : (items.map Prod.fst).Nodup

namespace Dict

variable {κ ν μ : Type}

instance [DecidableEq κ] [DecidableEq ν] : DecidableEq (Dict κ ν) := fun d e =>
  decidable_of_iff (d.items = e.items) (by
    cases d
    cases e
    simp)

def empty : Dict κ ν := ⟨[], nodup_nil⟩

def keys (d : Dict κ ν) : List κ := d.items.map Prod.fst

variable [DecidableEq κ] (d : Dict κ ν)

def lookupIn (k : κ) : List (κ × ν) → Option ν
  | [] => none
  | (k', v) :: rest => if k' = k then some v else lookupIn k rest

def get? (k : κ) : Option ν := lookupIn k d.items

/-- Overwrite in place, or append. -/
def setIn (k : κ) (v : ν) : List (κ × ν) → List (κ × ν)
  | [] => [(k, v)]
  | (k', v') :: rest => if k' = k then (k, v) :: rest else (k', v') :: setIn k v rest

theorem keys_setIn (k : κ) (v : ν) (items : List (κ × ν)) :
    (setIn k v items).map Prod.fst
      = if k ∈ items.map Prod.fst then items.map Prod.fst else items.map Prod.fst ++ [k] := by
  induction items with
  | nil => simp [setIn]
  | cons item rest ih =>
    obtain ⟨k', v'⟩ := item
    by_cases hk : k' = k
    · subst hk
      simp [setIn]
    · have hk' : k ≠ k' := fun h => hk h.symm
      simp only [setIn, if_neg hk, map_cons, ih, mem_cons, hk', false_or]
      split <;> rfl

variable {items : List (κ × ν)} {k : κ} {v : ν}

theorem nodup_setIn (k : κ) (v : ν) (h : (items.map Prod.fst).Nodup) :
    ((setIn k v items).map Prod.fst).Nodup := by
  rw [keys_setIn]
  split
  · exact h
  · next hk => exact List.Nodup.append h (nodup_singleton k) (by simpa using hk)

def set (k : κ) (v : ν) : Dict κ ν :=
  ⟨setIn k v d.items, nodup_setIn k v d.nodup⟩

def mapValues (f : ν → μ) : Dict κ μ :=
  ⟨d.items.map (fun item => (item.1, f item.2)), by
    rw [map_map]
    exact d.nodup⟩

def erase (k : κ) : Dict κ ν :=
  ⟨d.items.filter (fun item => item.1 ≠ k), d.nodup.sublist (filter_sublist.map Prod.fst)⟩

/-- Without the first `n` items. -/
def dropOldest (n : Nat) : Dict κ ν :=
  ⟨d.items.drop n, by
    rw [map_drop]
    exact d.nodup.sublist (drop_sublist n _)⟩

def sumBy (f : ν → Nat) : Nat := (d.items.map (fun item => f item.2)).sum

/-! ## Lookup -/

theorem lookupIn_setIn (k k' : κ) (v : ν) (items : List (κ × ν)) :
    lookupIn k' (setIn k v items) = if k' = k then some v else lookupIn k' items := by
  induction items with
  | nil =>
    by_cases h : k' = k
    · simp [setIn, lookupIn, h]
    · have h' : k ≠ k' := fun e => h e.symm
      simp [setIn, lookupIn, h, h']
  | cons item rest ih =>
    obtain ⟨k'', v''⟩ := item
    by_cases hk : k'' = k
    · subst hk
      by_cases h : k' = k''
      · simp [setIn, lookupIn, h]
      · have h' : k'' ≠ k' := fun e => h e.symm
        simp [setIn, lookupIn, h, h']
    · simp only [setIn, if_neg hk, lookupIn, ih]
      by_cases hk' : k'' = k'
      · have : k' ≠ k := fun e => hk (hk'.trans e)
        simp [hk', this]
      · simp [hk']

theorem get?_set (k k' : κ) (v : ν) :
    (d.set k v).get? k' = if k' = k then some v else d.get? k' := lookupIn_setIn k k' v d.items

@[simp] theorem get?_set_self (k : κ) (v : ν) : (d.set k v).get? k = some v := by
  rw [get?_set, if_pos rfl]

theorem get?_set_ne {k' : κ} (v : ν) (h : k' ≠ k) : (d.set k v).get? k' = d.get? k' := by
  rw [get?_set, if_neg h]

/-- With distinct keys, a lookup finds every item. -/
theorem lookupIn_eq_some_iff (hnodup : (items.map Prod.fst).Nodup) :
    lookupIn k items = some v ↔ (k, v) ∈ items := by
  induction items with
  | nil => simp [lookupIn]
  | cons item rest ih =>
    obtain ⟨k', v'⟩ := item
    rw [map_cons, nodup_cons] at hnodup
    by_cases hk : k' = k
    · subst hk
      have hrest : (k', v) ∉ rest := fun h => hnodup.1 (mem_map.mpr ⟨_, h, rfl⟩)
      simp [lookupIn, hrest, eq_comm]
    · have hk' : k ≠ k' := fun h => hk h.symm
      simp [lookupIn, hk, hk', ih hnodup.2]

theorem get?_eq_some_iff : d.get? k = some v ↔ (k, v) ∈ d.items :=
  lookupIn_eq_some_iff d.nodup

theorem lookupIn_filter_ne (k k' : κ) (items : List (κ × ν)) :
    lookupIn k' (items.filter fun item => item.1 ≠ k)
      = if k' = k then none else lookupIn k' items := by
  induction items with
  | nil => simp [lookupIn]
  | cons item rest ih =>
    obtain ⟨k₀, v₀⟩ := item
    by_cases hk : k₀ = k
    · rw [filter_cons_of_neg (by simpa using hk), ih, lookupIn]
      split
      · rfl
      · next hne => rw [if_neg fun h => hne (h.symm.trans hk)]
    · rw [filter_cons_of_pos (by simpa using hk), lookupIn, lookupIn, ih]
      by_cases hk' : k₀ = k'
      · rw [if_pos hk', if_pos hk', if_neg fun h => hk (hk'.trans h)]
      · rw [if_neg hk', if_neg hk']

@[simp] theorem get?_erase_self (k : κ) : (d.erase k).get? k = none := by
  rw [get?, erase, lookupIn_filter_ne, if_pos rfl]

theorem get?_erase_ne {k' : κ} (h : k' ≠ k) : (d.erase k).get? k' = d.get? k' := by
  rw [get?, erase, lookupIn_filter_ne, if_neg h, get?]

theorem erase_of_none {d : Dict κ ν} (h : d.get? k = none) : d.erase k = d := by
  have hitems : d.items.filter (fun item => item.1 ≠ k) = d.items := by
    refine filter_eq_self.mpr fun item hitem => decide_eq_true ?_
    rintro rfl
    rw [d.get?_eq_some_iff.mpr hitem] at h
    cases h
  cases d
  simp only [erase, mk.injEq]
  exact hitems

theorem mem_keys : k ∈ d.keys ↔ ∃ v, d.get? k = some v := by
  simp only [keys, mem_map, get?_eq_some_iff]
  constructor
  · rintro ⟨⟨k', v⟩, hmem, rfl⟩
    exact ⟨v, hmem⟩
  · rintro ⟨v, hmem⟩
    exact ⟨(k, v), hmem, rfl⟩

theorem setIn_of_not_mem (v : ν) (hk : k ∉ items.map Prod.fst) :
    setIn k v items = items ++ [(k, v)] := by
  induction items with
  | nil => rfl
  | cons item rest ih =>
    obtain ⟨k', v'⟩ := item
    simp only [map_cons, mem_cons, not_or] at hk
    have hne : k' ≠ k := fun h => hk.1 h.symm
    rw [setIn, if_neg hne, ih hk.2, cons_append]

theorem setIn_append_newest (v v' : ν) (hk : k ∉ items.map Prod.fst) :
    setIn k v (items ++ [(k, v')]) = items ++ [(k, v)] := by
  induction items with
  | nil => simp [setIn]
  | cons item rest ih =>
    obtain ⟨k', v''⟩ := item
    simp only [map_cons, mem_cons, not_or] at hk
    have hne : k' ≠ k := fun h => hk.1 h.symm
    rw [cons_append, setIn, if_neg hne, ih hk.2, cons_append]

/-- A measure the new value shares with the old one does not see the write. -/
theorem map_setIn_of_eq (f : ν → μ) {v' : ν} (hk : lookupIn k items = some v')
    (hf : f v = f v') :
    (setIn k v items).map (fun item => (item.1, f item.2))
      = items.map (fun item => (item.1, f item.2)) := by
  induction items with
  | nil => exact absurd hk (by simp [lookupIn])
  | cons item rest ih =>
    obtain ⟨k₀, v₀⟩ := item
    rw [lookupIn] at hk
    rw [setIn]
    split
    · next heq =>
      rw [if_pos heq, Option.some.injEq] at hk
      rw [map_cons, map_cons, hf, ← hk, heq]
    · next hne =>
      rw [if_neg hne] at hk
      rw [map_cons, map_cons, ih hk]

/-! ## The first value of a key stays -/

/-- Set a key that is not present yet. -/
def emplace (k : κ) (v : ν) : Dict κ ν :=
  if (d.get? k).isSome then d else d.set k v

def emplaceAll (items : List (κ × ν)) : Dict κ ν :=
  items.foldl (fun d item => d.emplace item.1 item.2) d

/-- Writing all items leaves each of them, over what was there before. -/
theorem get?_foldl_set (hnodup : (items.map Prod.fst).Nodup) (d : Dict κ ν) :
    (items.foldl (fun d item => d.set item.1 item.2) d).get? k = some v
      ↔ (k, v) ∈ items ∨ k ∉ items.map Prod.fst ∧ d.get? k = some v := by
  induction items generalizing d with
  | nil => simp
  | cons item items ih =>
    obtain ⟨k₀, v₀⟩ := item
    rw [map_cons, nodup_cons] at hnodup
    rw [foldl_cons, ih hnodup.2]
    by_cases hk : k = k₀
    · subst hk
      have hnot : (k, v) ∉ items := fun h => hnodup.1 (mem_map.mpr ⟨_, h, rfl⟩)
      simp [hnot, hnodup.1, eq_comm]
    · simp [hk, get?_set_ne d v₀ hk]

theorem lookupIn_append (k : κ) (items rest : List (κ × ν)) :
    lookupIn k (items ++ rest) = (lookupIn k items).or (lookupIn k rest) := by
  induction items with
  | nil => rfl
  | cons item items ih =>
    rw [cons_append, lookupIn, lookupIn, ih]
    split <;> rfl

theorem get?_emplace (k : κ) (v : ν) (k' : κ) :
    (d.emplace k v).get? k' = (d.get? k').or (lookupIn k' [(k, v)]) := by
  unfold emplace
  by_cases hk : k = k'
  · subst hk
    cases hget : d.get? k with
    | none => simp [lookupIn]
    | some w => simp [hget]
  · have hne : lookupIn k' [(k, v)] = none := by simp [lookupIn, hk]
    rw [hne, Option.or_none]
    split
    · rfl
    · exact d.get?_set_ne v (Ne.symm hk)

theorem get?_emplaceAll (items : List (κ × ν)) (k : κ) :
    (d.emplaceAll items).get? k = (d.get? k).or (lookupIn k items) := by
  induction items generalizing d with
  | nil => exact (Option.or_none).symm
  | cons item items ih =>
    show ((d.emplace item.1 item.2).emplaceAll items).get? k = _
    rw [ih, get?_emplace, Option.or_assoc, ← lookupIn_append]
    rfl

theorem isSome_lookupIn (k : κ) (items : List (κ × ν)) :
    (lookupIn k items).isSome = true ↔ k ∈ items.map Prod.fst := by
  induction items with
  | nil => simp [lookupIn]
  | cons item rest ih =>
    rw [lookupIn, map_cons, mem_cons]
    split
    · next heq => simp [heq]
    · next hne => simp [ih, Ne.symm hne]

theorem emplace_of_some {d : Dict κ ν} (h : d.get? k = some v) (v' : ν) :
    d.emplace k v' = d := by
  rw [emplace, h]
  rfl

def eraseAll (ks : List κ) : Dict κ ν := ks.foldl erase d

theorem get?_eraseAll (ks : List κ) (k : κ) :
    (d.eraseAll ks).get? k = if k ∈ ks then none else d.get? k := by
  induction ks generalizing d with
  | nil => rfl
  | cons k₀ ks ih =>
    show ((d.erase k₀).eraseAll ks).get? k = _
    rw [ih]
    by_cases hk : k = k₀
    · subst hk
      simp
    · rw [d.get?_erase_ne hk]
      simp [hk]

/-! ## Additive measures -/

/-- The sum trades the old value of the key for the new one. -/
theorem sum_setIn (f : ν → Nat) (k : κ) (v : ν) (items : List (κ × ν)) :
    ((setIn k v items).map (fun item => f item.2)).sum + ((lookupIn k items).map f).getD 0
      = (items.map (fun item => f item.2)).sum + f v := by
  induction items with
  | nil => simp [setIn, lookupIn]
  | cons item rest ih =>
    obtain ⟨k', v'⟩ := item
    by_cases hk : k' = k
    · simp only [setIn, lookupIn, if_pos hk, map_cons, sum_cons, Option.map_some, Option.getD_some]
      omega
    · simp only [setIn, lookupIn, if_neg hk, map_cons, sum_cons]
      omega

theorem sumBy_set (f : ν → Nat) (k : κ) (v : ν) :
    (d.set k v).sumBy f + ((d.get? k).map f).getD 0 = d.sumBy f + f v :=
  sum_setIn f k v d.items

theorem sumBy_set_of_eq (f : ν → Nat)
    (h : ((d.get? k).map f).getD 0 = f v) : (d.set k v).sumBy f = d.sumBy f := by
  have hset := d.sumBy_set f k v
  omega

theorem sum_filter_ne (f : ν → Nat) (k : κ) (hnodup : (items.map Prod.fst).Nodup) :
    ((items.filter fun item => item.1 ≠ k).map fun item => f item.2).sum
        + ((lookupIn k items).map f).getD 0
      = (items.map fun item => f item.2).sum := by
  induction items with
  | nil => simp [lookupIn]
  | cons item rest ih =>
    obtain ⟨k', v'⟩ := item
    obtain ⟨hk', hrest⟩ := nodup_cons.mp hnodup
    by_cases hk : k' = k
    · -- no other item has the key
      have hall : rest.filter (fun item => item.1 ≠ k) = rest := by
        refine filter_eq_self.mpr fun item hitem => ?_
        have hne : item.1 ≠ k := fun h => hk' (mem_map.mpr ⟨item, hitem, h.trans hk.symm⟩)
        simpa using hne
      rw [filter_cons_of_neg (by simpa using hk), hall, lookupIn, if_pos hk]
      simp only [map_cons, sum_cons, Option.map_some, Option.getD_some]
      omega
    · rw [filter_cons_of_pos (by simpa using hk), lookupIn, if_neg hk]
      simp only [map_cons, sum_cons]
      have := ih hrest
      omega

omit [DecidableEq κ] in
theorem sumBy_mapValues (g : ν → μ) (f : μ → Nat) :
    (d.mapValues g).sumBy f = d.sumBy (fun v => f (g v)) := by
  simp [sumBy, mapValues, Function.comp_def]

end Dict

end Glaciem
