import Mathlib.Tactic

/-!
# Glaciem — lists built from their end

Histories in which each element is judged against those before it.

* `Stepwise P` — every element satisfies `P` over the elements before it;
* `records f` — a list of records, each computed from the records before it and the next element;
* `Links`, `Linked` — every element names its position and the id of the element before it. If ids
  are distinct, such a list is determined by its last element (`Linked.eq_of_getLast?`).
-/

namespace Glaciem

open List

/-! ## Elements judged against those before them -/

section Stepwise

variable {β : Type} {P : List β → β → Prop}

def Stepwise (P : List β → β → Prop) (bs : List β) : Prop :=
  ∀ pre b post, bs = pre ++ b :: post → P pre b

theorem stepwise_nil : Stepwise P [] := fun _ _ _ h => by simp at h

theorem Stepwise.of_append {bs rest : List β} (h : Stepwise P (bs ++ rest)) : Stepwise P bs :=
  fun pre b post heq => h pre b (post ++ rest) (by rw [heq]; simp)

theorem Stepwise.last {bs : List β} {b : β} (h : Stepwise P (bs ++ [b])) : P bs b := h bs b [] rfl

theorem Stepwise.concat {bs : List β} {b : β} (h : Stepwise P bs) (hb : P bs b) :
    Stepwise P (bs ++ [b]) := by
  intro pre b' post heq
  rcases eq_nil_or_concat post with rfl | ⟨post', last, rfl⟩
  · obtain ⟨rfl, hlast⟩ := append_inj' heq rfl
    cases hlast
    exact hb
  · have hsplit : bs ++ [b] = (pre ++ b' :: post') ++ [last] := by
      rw [heq]
      simp
    obtain ⟨hbs, -⟩ := append_inj' hsplit rfl
    exact h pre b' post' hbs

end Stepwise

/-! ## Records computed from the records before them -/

section Records

variable {β σ : Type} (f : List σ → β → σ)

def records (bs : List β) : List σ := bs.foldl (fun rs b => rs ++ [f rs b]) []

theorem records_concat (bs : List β) (b : β) :
    records f (bs ++ [b]) = records f bs ++ [f (records f bs) b] := by
  simp [records]

@[simp] theorem length_records (bs : List β) : (records f bs).length = bs.length := by
  induction bs using reverseRecOn with
  | nil => rfl
  | append_singleton bs b ih => rw [records_concat, length_append, length_append, ih]; rfl

end Records

/-! ## Elements that name the one before them -/

/-- How elements with ids of the type `κ` refer to each other. -/
structure Links (β κ : Type) where
  /-- What the first element has in place of the id before it. -/
  root : κ
  id : β → κ
  parent : β → κ
  position : β → Option Nat

section Linked

variable {β κ : Type} {L : Links β κ}

def Links.tip (L : Links β κ) (bs : List β) : κ := (bs.getLast?.map L.id).getD L.root

theorem Links.tip_concat (L : Links β κ) (bs : List β) (b : β) : L.tip (bs ++ [b]) = L.id b := by
  simp [tip]

def Linked (L : Links β κ) : List β → Prop :=
  Stepwise fun pre b => L.parent b = L.tip pre ∧ L.position b = some pre.length

theorem Linked.getElem? {bs : List β} (h : Linked L bs) {k : Nat} {b : β} (hb : bs[k]? = some b) :
    L.position b = some k ∧ L.parent b = L.tip (bs.take k) := by
  obtain ⟨hlt, hget⟩ := List.getElem?_eq_some_iff.mp hb
  have hsplit : bs = bs.take k ++ b :: bs.drop (k + 1) := by
    rw [← hget, List.getElem_cons_drop, List.take_append_drop]
  obtain ⟨hparent, hposition⟩ := h _ b _ hsplit
  rw [length_take, Nat.min_eq_left hlt.le] at hposition
  exact ⟨hposition, hparent⟩

theorem Links.tip_take_succ (L : Links β κ) {bs : List β} {k : Nat} (hk : k < bs.length) :
    bs[k]?.map L.id = some (L.tip (bs.take (k + 1))) := by
  rw [take_add_one, getElem?_eq_getElem hk, Option.toList_some, L.tip_concat]
  rfl

theorem Linked.eq_of_getLast? {S : Set β} (hinj : Set.InjOn L.id S) {bs cs : List β}
    (hbs : Linked L bs) (hcs : Linked L cs) (hbS : ∀ b ∈ bs, b ∈ S) (hcS : ∀ c ∈ cs, c ∈ S)
    (hlast : bs.getLast? = cs.getLast?) : bs = cs := by
  induction bs using reverseRecOn generalizing cs with
  | nil => exact (getLast?_eq_none_iff.mp hlast.symm).symm
  | append_singleton bs b ih =>
    rw [getLast?_concat] at hlast
    obtain ⟨cs, rfl⟩ : ∃ init, cs = init ++ [b] := by
      obtain ⟨init, hinit⟩ := getLast?_eq_some_iff.mp hlast.symm
      exact ⟨init, hinit⟩
    obtain ⟨hparent, hposition⟩ := hbs.last
    obtain ⟨hparent', hposition'⟩ := hcs.last
    have hlen : bs.length = cs.length := by
      rw [hposition] at hposition'
      exact Option.some.inj hposition'
    have hbS' : ∀ x ∈ bs, x ∈ S := fun x hx => hbS x (mem_append_left _ hx)
    have hcS' : ∀ x ∈ cs, x ∈ S := fun x hx => hcS x (mem_append_left _ hx)
    rw [ih hbs.of_append hcs.of_append hbS' hcS' ?_]
    rcases eq_nil_or_concat bs with rfl | ⟨bs', x, rfl⟩
    · rw [length_eq_zero_iff.mp hlen.symm]
    rcases eq_nil_or_concat cs with rfl | ⟨cs', y, rfl⟩
    · simp at hlen
    -- both lists before `b` end in the element with the id `b` names
    rw [hparent, concat_eq_append, concat_eq_append, L.tip_concat, L.tip_concat] at hparent'
    have hxy : x = y := hinj (hbS' x (by simp)) (hcS' y (by simp)) hparent'
    simp [hxy]

theorem Linked.eq_of_tip {S : Set β} (hinj : Set.InjOn L.id S) {bs cs : List β}
    (hbs : Linked L bs) (hcs : Linked L cs) (hbS : ∀ b ∈ bs, b ∈ S) (hcS : ∀ c ∈ cs, c ∈ S)
    (hbne : bs ≠ []) (hcne : cs ≠ []) (htip : L.tip bs = L.tip cs) : bs = cs := by
  have hb := getLast?_eq_getLast_of_ne_nil hbne
  have hc := getLast?_eq_getLast_of_ne_nil hcne
  rw [Links.tip, Links.tip, hb, hc] at htip
  have hlast := hinj (hbS _ (getLast_mem hbne)) (hcS _ (getLast_mem hcne)) htip
  exact hbs.eq_of_getLast? hinj hcs hbS hcS (by rw [hb, hc, hlast])

end Linked

end Glaciem
