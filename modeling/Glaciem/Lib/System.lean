import Mathlib.Tactic

/-!
# Glaciem — labelled transition systems and their runs

A system takes labelled steps that may be disabled. A label carries every choice the environment
makes in that step (which thread moves, what a remote call answers, whether a write fails), so a
list of labels is one interleaving and running it is a computation.

* `invariant_of_exec` and `invariant_of_meets` are the two induction rules: what one step (of the
  runs considered) preserves, every run preserves;
* `Reaches` forgets the labels, to put a large step together from small ones.
-/

namespace Glaciem

open List

structure System (σ ℓ : Type) where
  step : σ → ℓ → Option σ

namespace System

variable {σ ℓ : Type} (S : System σ ℓ)

def exec : σ → List ℓ → Option σ
  | s, [] => some s
  | s, l :: ls => (S.step s l).bind (fun s' => exec s' ls)

/-- Every step of the run from `s` meets `P` in the state it is taken from. -/
def Meets (P : σ → ℓ → Prop) : σ → List ℓ → Prop
  | _, [] => True
  | s, l :: ls => P s l ∧ ∀ s', S.step s l = some s' → Meets P s' ls

variable {s s' : σ} {ls : List ℓ} {P : σ → ℓ → Prop} {I : σ → Prop}

theorem exec_cons {l : ℓ} :
    S.exec s (l :: ls) = some s' ↔ ∃ s₁, S.step s l = some s₁ ∧ S.exec s₁ ls = some s' := by
  simp only [exec, Option.bind_eq_some_iff]

theorem exec_eq_foldlM (s : σ) (ls : List ℓ) : S.exec s ls = ls.foldlM (m := Option) S.step s := by
  induction ls generalizing s with
  | nil => rfl
  | cons l ls ih =>
    rw [exec, foldlM_cons]
    exact congrArg _ (funext ih)

theorem exec_append_bind (s : σ) (ls ls' : List ℓ) :
    S.exec s (ls ++ ls') = (S.exec s ls).bind (S.exec · ls') := by
  simp only [exec_eq_foldlM, foldlM_append]
  rfl

theorem exec_append {ls' : List ℓ} :
    S.exec s (ls ++ ls') = some s' ↔ ∃ s₁, S.exec s ls = some s₁ ∧ S.exec s₁ ls' = some s' := by
  rw [exec_append_bind, Option.bind_eq_some_iff]

theorem meets_and {Q : ℓ → Prop} (h : S.Meets P s ls) (hQ : ∀ l ∈ ls, Q l) :
    S.Meets (fun s l => P s l ∧ Q l) s ls := by
  induction ls generalizing s with
  | nil => trivial
  | cons l ls ih =>
    obtain ⟨hl, hls⟩ := forall_mem_cons.mp hQ
    exact ⟨⟨h.1, hl⟩, fun s' hs' => ih (h.2 s' hs') hls⟩

theorem meets_of_labels (hP : ∀ l ∈ ls, ∀ s, P s l) (s : σ) : S.Meets P s ls := by
  induction ls generalizing s with
  | nil => trivial
  | cons l ls ih =>
    obtain ⟨hl, hls⟩ := forall_mem_cons.mp hP
    exact ⟨hl s, fun s' _ => ih hls s'⟩

/-- Run a list of labels as long as each step passes a check. -/
def execChecked (p : σ → ℓ → Bool) : σ → List ℓ → Option σ
  | s, [] => some s
  | s, l :: ls => if p s l then (S.step s l).bind (fun s' => execChecked p s' ls) else none

theorem exec_of_checked {p : σ → ℓ → Bool} (hcheck : ∀ s l, p s l = true → P s l)
    (h : S.execChecked p s ls = some s') : S.exec s ls = some s' ∧ S.Meets P s ls := by
  induction ls generalizing s with
  | nil => exact ⟨h, trivial⟩
  | cons l ls ih =>
    rw [execChecked] at h
    split at h
    · next hl =>
      obtain ⟨s₁, hs₁, hrest⟩ := Option.bind_eq_some_iff.mp h
      obtain ⟨hexec, hmeets⟩ := ih hrest
      refine ⟨S.exec_cons.mpr ⟨s₁, hs₁, hexec⟩, hcheck s l hl, fun s₂ hs₂ => ?_⟩
      rwa [← Option.mem_unique hs₁ hs₂]
    · cases h

theorem exists_of_checked {p : σ → ℓ → Bool} (hcheck : ∀ s l, p s l = true → P s l) {α : Type}
    {f : σ → α} {a : α} (h : (S.execChecked p s ls).map f = some a) :
    ∃ s', S.exec s ls = some s' ∧ S.Meets P s ls ∧ f s' = a := by
  obtain ⟨s', hchecked, ha⟩ := Option.map_eq_some_iff.mp h
  obtain ⟨hexec, hmeets⟩ := S.exec_of_checked hcheck hchecked
  exact ⟨s', hexec, hmeets, ha⟩

/-- The state stays related to what `f` makes of the labels, if every step that meets `P` keeps
it so. -/
theorem related_of_meets {β : Type} {f : β → ℓ → β} {R : β → σ → Prop} {b : β}
    (hstep : ∀ {b s l s'}, R b s → P s l → S.step s l = some s' → R (f b l) s') (h : R b s)
    (hmeets : S.Meets P s ls) (hexec : S.exec s ls = some s') : R (ls.foldl f b) s' := by
  induction ls generalizing s b with
  | nil =>
    cases hexec
    exact h
  | cons l ls ih =>
    obtain ⟨s₁, hs₁, hrest⟩ := S.exec_cons.mp hexec
    exact ih (hstep h hmeets.1 hs₁) (hmeets.2 s₁ hs₁) hrest

/-- What every step that meets `P` preserves holds after every run whose steps meet `P`. -/
theorem invariant_of_meets (hstep : ∀ {s l s'}, I s → P s l → S.step s l = some s' → I s')
    (hinv : I s) (hmeets : S.Meets P s ls) (hexec : S.exec s ls = some s') : I s' :=
  S.related_of_meets (f := fun u _ => u) (R := fun _ => I) (b := ()) hstep hinv hmeets hexec

theorem invariant_of_exec (hstep : ∀ {s l s'}, I s → S.step s l = some s' → I s') (hinv : I s)
    (hexec : S.exec s ls = some s') : I s' :=
  S.invariant_of_meets (P := fun _ _ => True) (fun h _ hs => hstep h hs) hinv
    (S.meets_of_labels (fun _ _ _ => trivial) s) hexec

def Reaches (s s' : σ) : Prop := ∃ ls, S.exec s ls = some s'

variable {S}

theorem Reaches.refl (s : σ) : S.Reaches s s := ⟨[], rfl⟩

theorem Reaches.trans {s'' : σ} (h : S.Reaches s s') (h' : S.Reaches s' s'') : S.Reaches s s'' := by
  obtain ⟨ls, hls⟩ := h
  obtain ⟨ls', hls'⟩ := h'
  exact ⟨ls ++ ls', S.exec_append.mpr ⟨s', hls, hls'⟩⟩

theorem Reaches.of_step (l : ℓ) (h : S.step s l = some s') : S.Reaches s s' :=
  ⟨[l], S.exec_cons.mpr ⟨s', h, rfl⟩⟩

theorem Reaches.of_exec {ℓ' : Type} {T : System σ ℓ'}
    (hstep : ∀ {s l s'}, T.step s l = some s' → S.Reaches s s') {ls : List ℓ'}
    (h : T.exec s ls = some s') : S.Reaches s s' :=
  T.invariant_of_exec (I := S.Reaches s) (fun hr hs => hr.trans (hstep hs)) (.refl s) h

theorem Reaches.invariant (hstep : ∀ {s l s'}, I s → S.step s l = some s' → I s') (hinv : I s)
    (h : S.Reaches s s') : I s' :=
  let ⟨_, hexec⟩ := h
  S.invariant_of_exec hstep hinv hexec

end System

/-- What a relation preserves holds wherever it leads. -/
theorem invariant_of_steps {σ : Type} {step : σ → σ → Prop} {P : σ → Prop} {s s' : σ}
    (hstep : ∀ {s s'}, P s → step s s' → P s') (h : Relation.ReflTransGen step s s')
    (hinv : P s) : P s' := by
  induction h with
  | refl => exact hinv
  | tail _ h ih => exact hstep ih h

/-! ## A list of threads

A system with threads keeps them in a list; a step of thread `i` replaces the `i`-th entry. -/

section Threads

variable {τ μ : Type}

variable {threads : List τ} {t : τ}

theorem exists_split_set {i : Nat} (h : threads[i]? = some t) :
    ∃ pre post, threads = pre ++ t :: post ∧ ∀ t', threads.set i t' = pre ++ t' :: post := by
  obtain ⟨hlt, rfl⟩ := List.getElem?_eq_some_iff.mp h
  refine ⟨threads.take i, threads.drop (i + 1), by simp, fun t' => ?_⟩
  rw [set_eq_take_append_cons_drop, if_pos hlt]

theorem getElem?_set_cases {i j : Nat} {t' : τ} (h : (threads.set i t')[j]? = some t) :
    i = j ∧ t = t' ∨ i ≠ j ∧ threads[j]? = some t := by
  rw [getElem?_set] at h
  by_cases hij : i = j
  · rw [if_pos hij] at h
    split at h
    · cases h
      exact .inl ⟨hij, rfl⟩
    · cases h
  · rw [if_neg hij] at h
    exact .inr ⟨hij, h⟩

theorem getElem?_concat_cases {j : Nat} {t' : τ} (h : (threads ++ [t'])[j]? = some t) :
    t = t' ∨ threads[j]? = some t := by
  rcases lt_or_ge j threads.length with hlt | hge
  · rw [getElem?_append_left hlt] at h
    exact .inr h
  · rw [getElem?_append_right hge] at h
    have hmem := mem_of_getElem? h
    exact .inl (mem_singleton.mp hmem)

/-- What the threads carry is what the moving thread carries together with what the others
carry. -/
theorem filterMap_split_perm (f : τ → Option μ) (pre : List τ) (t : τ) (post : List τ) :
    ((pre ++ t :: post).filterMap f).Perm
      ((f t).toList ++ (pre.filterMap f ++ post.filterMap f)) := by
  rw [filterMap_append]
  cases ht : f t with
  | none => rw [filterMap_cons_none ht, Option.toList_none, nil_append]
  | some u =>
    rw [filterMap_cons_some ht]
    exact perm_middle

end Threads

end Glaciem
