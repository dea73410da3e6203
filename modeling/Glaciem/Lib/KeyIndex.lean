import Mathlib.Data.Finset.Basic
import Glaciem.Lib.Dict

/-!
# Glaciem — an index from keys to their owners

Each owner has some keys, and several owners may share one. The index keeps the set of owners of
each key. A key without owners is not in it, by construction. `mem_owners_insertAll` and
`mem_owners_eraseAll` say what the index holds after all keys of one owner have been inserted or
erased.
-/

namespace Glaciem

open List Dict

structure KeyIndex (κ ω : Type) [DecidableEq κ] where
  sets : Dict κ (Finset ω)
  nonempty : ∀ k s, sets.get? k = some s → s.Nonempty

namespace KeyIndex

variable {κ ω : Type} [DecidableEq κ]

def empty : KeyIndex κ ω := ⟨Dict.empty, fun _ _ h => by cases h⟩

def owners (ix : KeyIndex κ ω) (k : κ) : Finset ω := (ix.sets.get? k).getD ∅

def keys (ix : KeyIndex κ ω) : List κ := ix.sets.keys

variable {ix : KeyIndex κ ω} {k : κ} {o : ω}

theorem mem_keys : k ∈ ix.keys ↔ (ix.owners k).Nonempty := by
  rw [keys, Dict.mem_keys, owners]
  constructor
  · rintro ⟨s, hs⟩
    rw [hs, Option.getD_some]
    exact ix.nonempty k s hs
  · intro hs
    cases hk : ix.sets.get? k with
    | none =>
      rw [hk, Option.getD_none] at hs
      exact absurd hs Finset.not_nonempty_empty
    | some s => exact ⟨s, rfl⟩

theorem nodup_keys (ix : KeyIndex κ ω) : ix.keys.Nodup := ix.sets.nodup

def assign (ix : KeyIndex κ ω) (k : κ) (s : {s : Finset ω // s.Nonempty}) : KeyIndex κ ω where
  sets := ix.sets.set k s
  nonempty k' s' h := by
    by_cases hk : k' = k
    · subst hk
      rw [get?_set_self, Option.some.injEq] at h
      exact h ▸ s.2
    · rw [get?_set_ne _ _ hk] at h
      exact ix.nonempty k' s' h

theorem mem_keys_assign {k' : κ} {s : {s : Finset ω // s.Nonempty}} :
    k' ∈ (ix.assign k s).keys ↔ k' = k ∨ k' ∈ ix.keys := by
  show k' ∈ (ix.sets.set k s.1).keys ↔ k' = k ∨ k' ∈ ix.sets.keys
  rw [Dict.mem_keys, Dict.mem_keys]
  by_cases hk : k' = k
  · subst hk
    simp
  · simp [get?_set_ne _ _ hk, hk]

def entries (ix : KeyIndex κ ω) : List (κ × {s : Finset ω // s.Nonempty}) :=
  ix.sets.items.attach.map fun item =>
    (item.1.1, ⟨item.1.2, ix.nonempty _ _ (ix.sets.get?_eq_some_iff.mpr item.2)⟩)

theorem map_fst_entries (ix : KeyIndex κ ω) : ix.entries.map Prod.fst = ix.keys := by
  rw [entries, map_map, keys, Dict.keys]
  exact attach_map_val (f := Prod.fst)

/-- Replace each key by another. Of two keys with the same replacement the later one counts. -/
def mapKeys {κ' : Type} [DecidableEq κ'] (f : κ → κ') (ix : KeyIndex κ ω) : KeyIndex κ' ω :=
  ix.entries.foldl (fun acc entry => acc.assign (f entry.1) entry.2) empty

theorem mem_keys_mapKeys {κ' : Type} [DecidableEq κ'] {f : κ → κ'} {k' : κ'} :
    k' ∈ (ix.mapKeys f).keys ↔ ∃ k ∈ ix.keys, f k = k' := by
  -- the accumulator has the keys it started with and the replacements made so far
  have hfold : ∀ (entries : List (κ × {s : Finset ω // s.Nonempty})) (acc : KeyIndex κ' ω),
      k' ∈ (entries.foldl (fun acc entry => acc.assign (f entry.1) entry.2) acc).keys
        ↔ k' ∈ acc.keys ∨ ∃ k ∈ entries.map Prod.fst, f k = k' := by
    intro entries
    induction entries with
    | nil => simp
    | cons entry entries ih =>
      intro acc
      rw [foldl_cons, ih, mem_keys_assign, map_cons]
      simp only [mem_cons, exists_eq_or_imp]
      rw [eq_comm]
      tauto
  rw [mapKeys, hfold, map_fst_entries, or_iff_right]
  exact not_mem_nil

variable [DecidableEq ω]

def allOwners (ix : KeyIndex κ ω) : Finset ω := ix.keys.toFinset.biUnion ix.owners

theorem mem_allOwners : o ∈ ix.allOwners ↔ ∃ k, o ∈ ix.owners k := by
  rw [allOwners, Finset.mem_biUnion]
  constructor
  · rintro ⟨k, -, ho⟩
    exact ⟨k, ho⟩
  · rintro ⟨k, ho⟩
    exact ⟨k, mem_toFinset.mpr (mem_keys.mpr ⟨o, ho⟩), ho⟩

def keysOf (ix : KeyIndex κ ω) (o : ω) : Finset κ := {k ∈ ix.keys.toFinset | o ∈ ix.owners k}

theorem mem_keysOf : k ∈ ix.keysOf o ↔ o ∈ ix.owners k := by
  rw [keysOf, Finset.mem_filter, and_iff_right_iff_imp]
  exact fun ho => mem_toFinset.mpr (mem_keys.mpr ⟨o, ho⟩)

def insert (ix : KeyIndex κ ω) (k : κ) (o : ω) : KeyIndex κ ω where
  sets := ix.sets.set k (Insert.insert o (ix.owners k))
  nonempty k' s h := by
    by_cases hk : k' = k
    · subst hk
      rw [get?_set_self, Option.some.injEq] at h
      exact h ▸ Finset.insert_nonempty _ _
    · rw [get?_set_ne _ _ hk] at h
      exact ix.nonempty k' s h

/-- Remove an owner of a key, and the key with its last owner. -/
def erase (ix : KeyIndex κ ω) (k : κ) (o : ω) : KeyIndex κ ω :=
  if h : ((ix.owners k).erase o).Nonempty then
    { sets := ix.sets.set k ((ix.owners k).erase o)
      nonempty := fun k' s hs => by
        by_cases hk : k' = k
        · subst hk
          rw [get?_set_self, Option.some.injEq] at hs
          exact hs ▸ h
        · rw [get?_set_ne _ _ hk] at hs
          exact ix.nonempty k' s hs }
  else
    { sets := ix.sets.erase k
      nonempty := fun k' s hs => by
        by_cases hk : k' = k
        · subst hk
          rw [get?_erase_self] at hs
          cases hs
        · rw [get?_erase_ne _ hk] at hs
          exact ix.nonempty k' s hs }

def insertAll (ix : KeyIndex κ ω) (ks : List κ) (o : ω) : KeyIndex κ ω :=
  ks.foldl (fun ix k => ix.insert k o) ix

def eraseAll (ix : KeyIndex κ ω) (ks : List κ) (o : ω) : KeyIndex κ ω :=
  ks.foldl (fun ix k => ix.erase k o) ix

omit [DecidableEq ω] in
@[simp] theorem owners_empty (k : κ) : (empty : KeyIndex κ ω).owners k = ∅ := rfl

theorem owners_insert (ix : KeyIndex κ ω) (k k' : κ) (o : ω) :
    (ix.insert k o).owners k'
      = if k' = k then Insert.insert o (ix.owners k) else ix.owners k' := by
  unfold owners insert
  split
  · next hk => rw [hk, get?_set_self, Option.getD_some]; rfl
  · next hk => rw [get?_set_ne _ _ hk]

theorem owners_erase (ix : KeyIndex κ ω) (k k' : κ) (o : ω) :
    (ix.erase k o).owners k' = if k' = k then (ix.owners k).erase o else ix.owners k' := by
  unfold erase
  split
  · next hleft =>
    show ((ix.sets.set k _).get? k').getD ∅ = _
    split
    · next hk => rw [hk, get?_set_self, Option.getD_some]
    · next hk => rw [get?_set_ne _ _ hk]; rfl
  · next hleft =>
    show ((ix.sets.erase k).get? k').getD ∅ = _
    split
    · next hk =>
      rw [hk, get?_erase_self, Option.getD_none, Finset.not_nonempty_iff_eq_empty.mp hleft]
    · next hk => rw [get?_erase_ne _ hk]; rfl

theorem mem_owners_insertAll {ks : List κ} {o' : ω} :
    o' ∈ (ix.insertAll ks o).owners k ↔ o' ∈ ix.owners k ∨ o' = o ∧ k ∈ ks := by
  induction ks generalizing ix with
  | nil => simp [insertAll]
  | cons k₀ ks ih =>
    show o' ∈ ((ix.insert k₀ o).insertAll ks o).owners k ↔ _
    rw [ih, owners_insert, mem_cons]
    split
    · next hk =>
      subst hk
      rw [Finset.mem_insert]
      tauto
    · next hk => tauto

theorem mem_owners_eraseAll {ks : List κ} {o' : ω} :
    o' ∈ (ix.eraseAll ks o).owners k ↔ o' ∈ ix.owners k ∧ ¬ (o' = o ∧ k ∈ ks) := by
  induction ks generalizing ix with
  | nil => simp [eraseAll]
  | cons k₀ ks ih =>
    show o' ∈ ((ix.erase k₀ o).eraseAll ks o).owners k ↔ _
    rw [ih, owners_erase, mem_cons]
    split
    · next hk =>
      subst hk
      rw [Finset.mem_erase]
      tauto
    · next hk => tauto

end KeyIndex

end Glaciem
