import Glaciem.Pool.Server

/-!
# Glaciem — the dataset cache of the share verifier

`get_dataset_for` keeps one dataset, for the seed it was last asked for, and hands its address to
`verify_share_against_job`, which uses it after `_datasets_lock` has been released. Here the two run
as the threads of a transition system over the memory the datasets live in. The allocator may return
any address that is not live, so also one that was freed before.
-/

namespace Glaciem.Pool.Dataset

open List Function

/-! ## Seeds -/

def hexDigit? (c : Char) : Option UInt8 :=
  if '0' ≤ c ∧ c ≤ '9' then some (c.toNat - '0'.toNat).toUInt8
  else if 'a' ≤ c ∧ c ≤ 'f' then some (c.toNat - 'a'.toNat + 10).toUInt8
  else if 'A' ≤ c ∧ c ≤ 'F' then some (c.toNat - 'A'.toNat + 10).toUInt8
  else none

/-- The white space `bytes.fromhex` skips between two bytes. -/
def isHexSpace (c : Char) : Bool := c = ' ' || (9 ≤ c.toNat && c.toNat ≤ 13)

def bytesFromHex : List Char → Option (List UInt8)
  | [] => some []
  | [c] => if isHexSpace c then some [] else none
  | c :: d :: rest =>
    if isHexSpace c then bytesFromHex (d :: rest)
    else
      match hexDigit? c, hexDigit? d with
      | some hi, some lo => (bytesFromHex rest).map (fun bytes => (16 * hi + lo) :: bytes)
      | _, _ => none

/-- The seed a dataset is built from: `none` for a text `get_dataset_for` refuses. -/
def seedOf (seedHash : String) : Option (List UInt8) :=
  if seedHash.length ≠ 64 then none else bytesFromHex seedHash.toList

/-! ## Memory and threads -/

structure Verifier where
  loaded : Bool := true
  hasFingerprint : Bool := true

/-- The job's seed hash, the address, and the seed of the dataset that is live there at that moment.
-/
structure Pass where
  seedHash : String
  ptr : Nat
  found : Option (List UInt8)
  deriving DecidableEq

structure Memory where
  heap : Nat → Option (List UInt8) := fun _ => none
  currentDataset : Option (String × Nat) := none
  datasetsLock : Option Nat := none
  exited : Bool := false
  passed : List Pass := []

/-- Where a call of `verify_share_against_job` stands. All places from `building` to `freeing` are
inside `_datasets_lock`; `holding` is after it. -/
inductive Phase where
  | start (job : Template)
  | building (job : Template) (seed : List UInt8)
  | testing (job : Template) (seed : List UInt8) (ptr : Nat)
  | comparing (job : Template) (seed : List UInt8) (ptr ptr2 : Nat)
  | swapping (job : Template) (seed : List UInt8) (ptr : Nat)
  | freeing (job : Template) (seed : List UInt8) (ptr old : Nat)
  | holding (job : Template) (ptr : Nat)
  | done

/-- What the library answers: the address of a new dataset (`none` for a null pointer), and
whether two fingerprints agree. -/
structure Env where
  built : Option Nat := none
  agree : Bool := true

def Memory.alloc (m : Memory) (a : Nat) (seed : List UInt8) : Memory :=
  { m with heap := update m.heap a (some seed) }

def Memory.free (m : Memory) (a : Nat) : Memory := { m with heap := update m.heap a none }

/-- Refuse the seed, return the cached dataset, or take the lock to build one. A caller that finds
the lock taken waits. -/
def enter (v : Verifier) (i : Nat) (m : Memory) (job : Template) : Option (Memory × Phase) :=
  if v.loaded = false then some (m, .done)
  else
    match seedOf job.seedHash with
    | none => some (m, .done)
    | some seed =>
      if m.datasetsLock ≠ none then none
      else
        match m.currentDataset with
        | none => some ({ m with datasetsLock := some i }, .building job seed)
        | some (hash, ptr) =>
          if hash = job.seedHash then some (m, .holding job ptr)
          else some ({ m with datasetsLock := some i }, .building job seed)

def advance (v : Verifier) (env : Env) (i : Nat) (m : Memory) : Phase → Option (Memory × Phase)
  | .start job => enter v i m job
  | .building job seed =>
    match env.built with
    | none => some ({ m with datasetsLock := none }, .done)
    | some a =>
      if m.heap a ≠ none then none
      else some (m.alloc a seed,
        if v.hasFingerprint then .testing job seed a else .swapping job seed a)
  | .testing job seed ptr =>
    match env.built with
    | none => some (m, .swapping job seed ptr)
    | some a =>
      if m.heap a ≠ none then none else some (m.alloc a seed, .comparing job seed ptr a)
  | .comparing job seed ptr ptr2 =>
    if env.agree then some (m.free ptr2, .swapping job seed ptr)
    -- `os._exit(1)`
    else some ({ (m.free ptr2).free ptr with exited := true }, .done)
  | .swapping job seed ptr =>
    match m.currentDataset with
    | none =>
      some ({ m with currentDataset := some (job.seedHash, ptr), datasetsLock := none },
        .holding job ptr)
    | some (_, old) =>
      some ({ m with currentDataset := some (job.seedHash, ptr) }, .freeing job seed ptr old)
  | .freeing job _ ptr old => some ({ m.free old with datasetsLock := none }, .holding job ptr)
  | .holding job ptr =>
    match job.blockhashingBlob with
    | none => some (m, .done)
    | some _ =>
      some ({ m with passed := m.passed ++ [⟨job.seedHash, ptr, m.heap ptr⟩] }, .done)
  | .done => none

structure State where
  memory : Memory := {}
  threads : List Phase := []

/-- A handler starts to verify a share of some job, or thread `i` runs its next section. -/
inductive Label where
  | verify (job : Template)
  | advance (i : Nat) (env : Env)

def step (v : Verifier) (s : State) : Label → Option State
  | .verify job =>
    if s.memory.exited then none else some { s with threads := s.threads ++ [.start job] }
  | .advance i env =>
    if s.memory.exited then none
    else
      match s.threads[i]? with
      | none => none
      | some ph =>
        (advance v env i s.memory ph).map fun (m, ph') => ⟨m, s.threads.set i ph'⟩

def verifier (v : Verifier) : System State Label := ⟨step v⟩

@[simp] theorem heap_alloc_self (m : Memory) (a : Nat) (seed : List UInt8) :
    (m.alloc a seed).heap a = some seed := update_self ..

variable {a b j : Nat} {m : Memory} {v : Verifier}

theorem heap_alloc_ne (m : Memory) (seed : List UInt8) (h : b ≠ a) :
    (m.alloc a seed).heap b = m.heap b := update_of_ne h ..

theorem heap_free_ne (m : Memory) (h : b ≠ a) : (m.free a).heap b = m.heap b :=
  update_of_ne h ..

theorem ne_of_live {seed : List UInt8} (hfresh : m.heap a = none) (hlive : m.heap b = some seed) :
    b ≠ a := by
  rintro rfl
  rw [hfresh] at hlive
  cases hlive

theorem heap_alloc_of_live {seed seed' : List UInt8} (hfresh : m.heap a = none)
    (hlive : m.heap b = some seed') : (m.alloc a seed).heap b = some seed' := by
  rw [heap_alloc_ne m seed (ne_of_live hfresh hlive), hlive]

variable {ph : Phase}

theorem step_cases {s s' : State} {l : Label} (h : step v s l = some s') :
    (∃ job, l = .verify job ∧ s' = { s with threads := s.threads ++ [.start job] })
      ∨ ∃ i env ph m' ph', l = .advance i env ∧ s.threads[i]? = some ph
        ∧ advance v env i s.memory ph = some (m', ph') ∧ s' = ⟨m', s.threads.set i ph'⟩ := by
  cases l with
  | verify job =>
    simp only [step] at h
    split at h
    · cases h
    · cases h
      exact .inl ⟨job, rfl, rfl⟩
  | advance i env =>
    simp only [step] at h
    split at h
    · cases h
    split at h
    · cases h
    · rename_i ph hph
      obtain ⟨⟨m', ph'⟩, hadv, rfl⟩ := Option.map_eq_some_iff.mp h
      exact .inr ⟨i, env, ph, m', ph', rfl, hph, hadv, rfl⟩

/-! ## The invariant -/

def Phase.handle : Phase → Option Nat
  | .holding job ptr => if job.blockhashingBlob.isSome then some ptr else none
  | _ => none

def Phase.unpublished : Phase → List Nat
  | .testing _ _ ptr => [ptr]
  | .comparing _ _ ptr ptr2 => [ptr, ptr2]
  | .swapping _ _ ptr => [ptr]
  | _ => []

def Phase.inside : Phase → Bool
  | .start _ | .holding _ _ | .done => false
  | _ => true

def Live (m : Memory) (hash : String) (a : Nat) : Prop :=
  ∃ seed, seedOf hash = some seed ∧ m.heap a = some seed

structure Private (m : Memory) (seed : List UInt8) (a : Nat) : Prop where
  live : m.heap a = some seed
  notCurrent : ∀ hash, m.currentDataset ≠ some (hash, a)

def ThreadOk (m : Memory) (i : Nat) : Phase → Prop
  | .start _ | .done => True
  | .building job seed => m.datasetsLock = some i ∧ seedOf job.seedHash = some seed
  | .testing job seed ptr | .swapping job seed ptr =>
    m.datasetsLock = some i ∧ seedOf job.seedHash = some seed ∧ Private m seed ptr
  | .comparing job seed ptr ptr2 =>
    m.datasetsLock = some i ∧ seedOf job.seedHash = some seed ∧ Private m seed ptr
      ∧ Private m seed ptr2 ∧ ptr ≠ ptr2
  | .freeing job seed ptr old =>
    m.datasetsLock = some i ∧ seedOf job.seedHash = some seed ∧ m.heap ptr = some seed
      ∧ m.currentDataset = some (job.seedHash, ptr) ∧ ptr ≠ old
  | .holding job ptr => job.blockhashingBlob.isSome = true → Live m job.seedHash ptr

def PassesOwn (s : State) : Prop :=
  ∀ p ∈ s.memory.passed, ∃ seed, seedOf p.seedHash = some seed ∧ p.found = some seed

structure CacheInv (s : State) : Prop where
  /-- The cached dataset is live. -/
  current : ∀ hash a, s.memory.currentDataset = some (hash, a) → Live s.memory hash a
  threads : ∀ (j : Nat) (ph : Phase), s.threads[j]? = some ph → ThreadOk s.memory j ph
  /-- A dataset that is not handed out yet is in nobody's hands. -/
  unshared : ∀ ph ∈ s.threads, ∀ ph₀ ∈ s.threads, ∀ a ∈ ph.unpublished, ph₀.handle ≠ some a
  passed : PassesOwn s

theorem cacheInv_init : CacheInv {} where
  current hash a h := by cases h
  threads j ph h := by simp at h
  unshared ph h := by cases h
  passed p hp := by cases hp

theorem ThreadOk.lock_of_inside (h : ThreadOk m j ph) (hin : ph.inside = true) :
    m.datasetsLock = some j := by
  cases ph with
  | start _ | done | holding _ _ => cases hin
  | building _ _ | testing _ _ _ | comparing _ _ _ _ | swapping _ _ _ | freeing _ _ _ _ => exact h.1

theorem Phase.unpublished_of_outside (h : ph.inside = false) : ph.unpublished = [] := by
  cases ph with
  | start _ | done | holding _ _ => rfl
  | building _ _ | testing _ _ _ | comparing _ _ _ _ | swapping _ _ _ | freeing _ _ _ _ => cases h

theorem Phase.handle_of_inside (h : ph.inside = true) : ph.handle = none := by
  cases ph with
  | start _ | done | holding _ _ => cases h
  | building _ _ | testing _ _ _ | comparing _ _ _ _ | swapping _ _ _ | freeing _ _ _ _ => rfl

theorem ThreadOk.of_outside {m' : Memory} (h : ThreadOk m j ph)
    (hout : ph.inside = false) (hheap : ∀ a, ph.handle = some a → m'.heap a = m.heap a) :
    ThreadOk m' j ph := by
  cases ph with
  | start _ | done => trivial
  | holding job ptr =>
    intro hblob
    obtain ⟨seed, hseed, hlive⟩ := h hblob
    exact ⟨seed, hseed, by rw [hheap ptr (if_pos hblob), hlive]⟩
  | building _ _ | testing _ _ _ | comparing _ _ _ _ | swapping _ _ _ | freeing _ _ _ _ =>
    cases hout

theorem ThreadOk.live_of_handle (h : ThreadOk m j ph) (ha : ph.handle = some a) :
    ∃ seed, m.heap a = some seed := by
  cases ph with
  | holding job ptr =>
    rw [Phase.handle, Option.ite_none_right_eq_some] at ha
    obtain ⟨seed, -, hlive⟩ := h ha.1
    rw [Option.some.inj ha.2] at hlive
    exact ⟨seed, hlive⟩
  | start _ | done | building _ _ | testing _ _ _ | comparing _ _ _ _ | swapping _ _ _
  | freeing _ _ _ _ => cases ha

/-! ## Every step keeps it -/

section Steps

variable {s : State} {i : Nat} {ph ph' : Phase} {m' : Memory}

theorem mem_set_cases {ph₀ : Phase} (h : ph₀ ∈ s.threads.set i ph') :
    ph₀ = ph' ∨ ∃ j, i ≠ j ∧ s.threads[j]? = some ph₀ := by
  obtain ⟨j, hj⟩ := mem_iff_getElem?.mp h
  rcases getElem?_set_cases hj with ⟨-, rfl⟩ | ⟨hne, hold⟩
  · exact .inl rfl
  · exact .inr ⟨j, hne, hold⟩

theorem CacheInv.of_unlocked (hinv : CacheInv s) (passed : List Pass)
    (hself : ThreadOk s.memory i ph') (hnone : ph'.unpublished = [])
    (hhandle : ∀ a, ph'.handle = some a → ∃ hash, s.memory.currentDataset = some (hash, a))
    (hpassed : ∀ p ∈ passed, ∃ seed, seedOf p.seedHash = some seed ∧ p.found = some seed) :
    CacheInv ⟨{ s.memory with passed := passed }, s.threads.set i ph'⟩ := by
  have hkeep : ∀ j ph₀, ThreadOk s.memory j ph₀ →
      ThreadOk { s.memory with passed := passed } j ph₀ := by
    intro j ph₀ h
    cases ph₀ with
    | testing _ _ _ | swapping _ _ _ => exact ⟨h.1, h.2.1, ⟨h.2.2.1, h.2.2.2⟩⟩
    | comparing _ _ _ _ =>
      exact ⟨h.1, h.2.1, ⟨h.2.2.1.1, h.2.2.1.2⟩, ⟨h.2.2.2.1.1, h.2.2.2.1.2⟩, h.2.2.2.2⟩
    | start _ | done | holding _ _ | building _ _ | freeing _ _ _ _ => exact h
  refine ⟨hinv.current, fun j ph₀ hj => ?_, fun ph₁ h₁ ph₂ h₂ a ha => ?_, hpassed⟩
  · rcases getElem?_set_cases hj with ⟨rfl, rfl⟩ | ⟨-, hold⟩
    · exact hkeep _ _ hself
    · exact hkeep _ _ (hinv.threads j ph₀ hold)
  · rcases mem_set_cases h₁ with rfl | ⟨j, -, hj⟩
    · rw [hnone] at ha
      cases ha
    rcases mem_set_cases h₂ with rfl | ⟨k, -, hk⟩
    · -- the only address handed out is the cached one, which is not private to anybody
      intro hh
      obtain ⟨hash, hcur⟩ := hhandle a hh
      have hok := hinv.threads j ph₁ hj
      cases ph₁ with
      | testing _ _ _ | swapping _ _ _ =>
        obtain rfl := mem_singleton.mp ha
        exact hok.2.2.notCurrent hash hcur
      | comparing _ _ _ _ =>
        rcases mem_pair.mp ha with rfl | rfl
        · exact hok.2.2.1.notCurrent hash hcur
        · exact hok.2.2.2.1.notCurrent hash hcur
      | start _ | done | holding _ _ | building _ _ | freeing _ _ _ _ => cases ha
    · exact hinv.unshared ph₁ (mem_of_getElem? hj) ph₂ (mem_of_getElem? hk) a ha

/-- All other threads are outside the lock, so what this one does to the memory must spare the
datasets they are about to use. -/
theorem CacheInv.of_locked (hinv : CacheInv s)
    (hmem : ph ∈ s.threads) (hlock : ∀ j, s.memory.datasetsLock = some j → j = i)
    (hspare : ∀ ph₀ ∈ s.threads, ∀ a, ph₀.handle = some a → a ∉ ph.unpublished →
      m'.heap a = s.memory.heap a ∧ a ∉ ph'.unpublished)
    (hcurrent : ∀ hash a, m'.currentDataset = some (hash, a) → Live m' hash a)
    (hself : ThreadOk m' i ph') (hpassed : m'.passed = s.memory.passed) :
    CacheInv ⟨m', s.threads.set i ph'⟩ := by
  have hout : ∀ j ph₀, i ≠ j → s.threads[j]? = some ph₀ → ph₀.inside = false := by
    intro j ph₀ hne hj
    by_contra hin
    rw [Bool.not_eq_false] at hin
    exact hne (hlock j ((hinv.threads j ph₀ hj).lock_of_inside hin)).symm
  have hspare (ph₀) (h₀ : ph₀ ∈ s.threads) (a) (ha : ph₀.handle = some a) :=
    hspare ph₀ h₀ a ha fun hin => hinv.unshared ph hmem ph₀ h₀ a hin ha
  refine ⟨hcurrent, fun j ph₀ hj => ?_, fun ph₁ h₁ ph₂ h₂ a ha => ?_, ?_⟩
  · rcases getElem?_set_cases hj with ⟨rfl, rfl⟩ | ⟨hne, hold⟩
    · exact hself
    · exact (hinv.threads j ph₀ hold).of_outside (hout j ph₀ hne hold)
        fun a ha => (hspare ph₀ (mem_of_getElem? hold) a ha).1
  · rcases mem_set_cases h₁ with rfl | ⟨j, hne, hj⟩
    · rcases mem_set_cases h₂ with rfl | ⟨k, -, hk⟩
      · intro hh
        cases hin : ph₂.inside with
        | true =>
          rw [ph₂.handle_of_inside hin] at hh
          cases hh
        | false =>
          rw [ph₂.unpublished_of_outside hin] at ha
          cases ha
      · exact fun hh => (hspare ph₂ (mem_of_getElem? hk) a hh).2 ha
    · rw [ph₁.unpublished_of_outside (hout j ph₁ hne hj)] at ha
      cases ha
  · intro p hp
    exact hinv.passed p (hpassed ▸ hp)

variable {a : Nat}

variable (hinv : CacheInv s)

include hinv

theorem CacheInv.spare_alloc (seed : List UInt8)
    (hfresh : s.memory.heap a = none) {ph₀ : Phase} (h₀ : ph₀ ∈ s.threads) {b : Nat}
    (hb : ph₀.handle = some b) :
    (s.memory.alloc a seed).heap b = s.memory.heap b ∧ b ≠ a := by
  obtain ⟨j, hj⟩ := mem_iff_getElem?.mp h₀
  obtain ⟨seed', hlive⟩ := (hinv.threads j ph₀ hj).live_of_handle hb
  have hne := ne_of_live hfresh hlive
  exact ⟨heap_alloc_ne _ seed hne, hne⟩

theorem CacheInv.current_alloc (seed : List UInt8)
    (hfresh : s.memory.heap a = none) (hash : String) (b : Nat)
    (hb : s.memory.currentDataset = some (hash, b)) : Live (s.memory.alloc a seed) hash b := by
  obtain ⟨seed', hseed', hlive⟩ := hinv.current hash b hb
  exact ⟨seed', hseed', heap_alloc_of_live hfresh hlive⟩

theorem CacheInv.private_alloc (seed : List UInt8)
    (hfresh : s.memory.heap a = none) : Private (s.memory.alloc a seed) seed a := by
  refine ⟨heap_alloc_self _ a seed, fun hash hcur => ?_⟩
  obtain ⟨seed', -, hlive⟩ := hinv.current hash a hcur
  exact ne_of_live hfresh hlive rfl

theorem CacheInv.current_free
    (hnot : ∀ hash, s.memory.currentDataset ≠ some (hash, a)) (hash : String) (b : Nat)
    (hb : s.memory.currentDataset = some (hash, b)) : Live (s.memory.free a) hash b := by
  obtain ⟨seed, hseed, hlive⟩ := hinv.current hash b hb
  have hne : b ≠ a := by
    rintro rfl
    exact hnot hash hb
  exact ⟨seed, hseed, (heap_free_ne _ hne).trans hlive⟩

theorem CacheInv.enter {job : Template} (hmem : .start job ∈ s.threads)
    (h : enter v i s.memory job = some (m', ph')) : CacheInv ⟨m', s.threads.set i ph'⟩ := by
  have hdone : CacheInv ⟨s.memory, s.threads.set i .done⟩ :=
    hinv.of_unlocked s.memory.passed trivial rfl (fun a h => by cases h) hinv.passed
  unfold Dataset.enter at h
  split at h
  · cases h
    exact hdone
  split at h
  · cases h
    exact hdone
  rename_i seed hseed
  split at h
  · cases h
  rename_i hfree
  have hlock : CacheInv ⟨{ s.memory with datasetsLock := some i },
      s.threads.set i (.building job seed)⟩ := by
    refine hinv.of_locked hmem (fun j hj => absurd ?_ hfree) (fun _ _ _ _ _ => ⟨rfl, not_mem_nil⟩)
      hinv.current ⟨rfl, hseed⟩ rfl
    rw [hj]
    simp
  split at h
  · cases h
    exact hlock
  rename_i hash ptr hcurrent
  split at h
  · rename_i heq
    subst heq
    cases h
    refine hinv.of_unlocked s.memory.passed (fun _ => hinv.current _ _ hcurrent) rfl
      (fun a h => ?_) hinv.passed
    rw [Phase.handle, Option.ite_none_right_eq_some] at h
    exact ⟨job.seedHash, by rw [hcurrent, Option.some.inj h.2]⟩
  · cases h
    exact hlock

theorem CacheInv.advance {env : Env} (hph : s.threads[i]? = some ph)
    (h : advance v env i s.memory ph = some (m', ph'))
    (hunused : ∀ job seed ptr old, ph = .freeing job seed ptr old →
      ∀ ph₀ ∈ s.threads, ph₀.handle ≠ some old) :
    CacheInv ⟨m', s.threads.set i ph'⟩ := by
  have hmem : ph ∈ s.threads := mem_of_getElem? hph
  have hok := hinv.threads i ph hph
  have howner : ph.inside = true → ∀ j, s.memory.datasetsLock = some j → j = i := by
    intro hin j hj
    rw [hok.lock_of_inside hin] at hj
    exact (Option.some.inj hj).symm
  cases ph with
  | start job => exact hinv.enter hmem h
  | building job seed =>
    simp only [Dataset.advance] at h
    split at h
    · cases h
      exact hinv.of_locked hmem (howner rfl) (fun _ _ _ _ _ => ⟨rfl, not_mem_nil⟩) hinv.current
        trivial rfl
    · rename_i a _
      split at h
      · cases h
      rename_i hfresh
      rw [not_not] at hfresh
      have hspare : ∀ ph₀ ∈ s.threads, ∀ b, ph₀.handle = some b →
          (s.memory.alloc a seed).heap b = s.memory.heap b ∧ b ∉ [a] :=
        fun ph₀ h₀ b hb => (hinv.spare_alloc seed hfresh h₀ hb).imp id (by simp)
      have hself := And.intro hok.1 (And.intro hok.2 (hinv.private_alloc seed hfresh))
      cases h
      split <;>
        exact hinv.of_locked hmem (howner rfl) (fun ph₀ h₀ b hb _ => hspare ph₀ h₀ b hb)
          (hinv.current_alloc seed hfresh) hself rfl
  | testing job seed ptr =>
    simp only [Dataset.advance] at h
    split at h
    · cases h
      exact hinv.of_locked hmem (howner rfl) (fun _ _ _ _ hnot => ⟨rfl, hnot⟩) hinv.current hok rfl
    · rename_i a _
      split at h
      · cases h
      rename_i hfresh
      rw [not_not] at hfresh
      cases h
      obtain ⟨hl, hseed, hptr⟩ := hok
      refine hinv.of_locked hmem (howner rfl) (fun ph₀ h₀ b hb hbptr => ?_)
        (hinv.current_alloc seed hfresh)
        ⟨hl, hseed, ⟨heap_alloc_of_live hfresh hptr.live, hptr.notCurrent⟩,
          hinv.private_alloc seed hfresh, ne_of_live hfresh hptr.live⟩ rfl
      obtain ⟨hheap, hba⟩ := hinv.spare_alloc seed hfresh h₀ hb
      simp only [Phase.unpublished, mem_singleton] at hbptr
      exact ⟨hheap, by simp [Phase.unpublished, hba, hbptr]⟩
  | comparing job seed ptr ptr2 =>
    obtain ⟨hl, hseed, hptr, hptr2, hne⟩ := hok
    simp only [Dataset.advance] at h
    split at h
    · cases h
      refine hinv.of_locked hmem (howner rfl) (fun ph₀ h₀ b hb hbnot => ?_)
        (hinv.current_free hptr2.notCurrent)
        ⟨hl, hseed, ⟨by rw [heap_free_ne _ hne, hptr.live], hptr.notCurrent⟩⟩ rfl
      simp only [Phase.unpublished, mem_pair, not_or] at hbnot
      exact ⟨heap_free_ne _ hbnot.2, by simpa [Phase.unpublished] using hbnot.1⟩
    · cases h
      refine hinv.of_locked hmem (howner rfl) (fun ph₀ h₀ b hb hbnot => ⟨?_, not_mem_nil⟩)
        (fun hash b hb => ?_) trivial rfl
      · simp only [Phase.unpublished, mem_pair, not_or] at hbnot
        exact (heap_free_ne _ hbnot.1).trans (heap_free_ne _ hbnot.2)
      · obtain ⟨seed', hseed', hlive⟩ := hinv.current_free hptr2.notCurrent hash b hb
        have hbptr : b ≠ ptr := by
          rintro rfl
          exact hptr.notCurrent hash hb
        exact ⟨seed', hseed', (heap_free_ne _ hbptr).trans hlive⟩
  | swapping job seed ptr =>
    obtain ⟨hl, hseed, hptr⟩ := hok
    have hlive : Live s.memory job.seedHash ptr := ⟨seed, hseed, hptr.live⟩
    simp only [Dataset.advance] at h
    split at h
    · cases h
      refine hinv.of_locked hmem (howner rfl) (fun _ _ _ _ _ => ⟨rfl, not_mem_nil⟩)
        (fun hash a h => ?_) (fun _ => hlive) rfl
      cases h
      exact hlive
    · rename_i hash old hold
      cases h
      refine hinv.of_locked hmem (howner rfl) (fun _ _ _ _ _ => ⟨rfl, not_mem_nil⟩)
        (fun hash' a h => ?_) ⟨hl, hseed, hptr.live, rfl, ?_⟩ rfl
      · cases h
        exact hlive
      · rintro rfl
        exact hptr.notCurrent hash hold
  | freeing job seed ptr old =>
    cases h
    obtain ⟨hl, hseed, hlive, hcur, hne⟩ := hok
    have hlive' : Live { s.memory.free old with datasetsLock := none } job.seedHash ptr :=
      ⟨seed, hseed, (heap_free_ne _ hne).trans hlive⟩
    refine hinv.of_locked hmem (howner rfl)
      (fun ph₀ h₀ a ha _ => ⟨heap_free_ne _ ?_, not_mem_nil⟩) (fun hash a h => ?_)
      (fun _ => hlive') rfl
    · rintro rfl
      exact hunused job seed ptr a rfl ph₀ h₀ ha
    · have heq := hcur.symm.trans h
      cases heq
      exact hlive'
  | holding job ptr =>
    simp only [Dataset.advance] at h
    split at h
    · cases h
      exact hinv.of_unlocked s.memory.passed trivial rfl (fun a h => by cases h) hinv.passed
    · rename_i blob hblob
      cases h
      refine hinv.of_unlocked _ trivial rfl (fun a h => by cases h) (fun p hp => ?_)
      rcases mem_append.mp hp with hp | hp
      · exact hinv.passed p hp
      · obtain rfl := mem_singleton.mp hp
        exact hok (by rw [hblob]; rfl)
  | done => cases h

end Steps

/-- A dataset is freed only while no verification is about to use it. -/
def FreesUnused (s : State) : Label → Prop
  | .verify _ => True
  | .advance i _ => ∀ job seed ptr old, s.threads[i]? = some (.freeing job seed ptr old) →
      ∀ ph ∈ s.threads, ph.handle ≠ some old

theorem CacheInv.step {s s' : State} {l : Label} (hinv : CacheInv s) (hunused : FreesUnused s l)
    (hstep : (verifier v).step s l = some s') : CacheInv s' := by
  rcases step_cases hstep with ⟨job, rfl, rfl⟩ | ⟨i, env, ph, m', ph', rfl, hph, hadv, rfl⟩
  · refine ⟨hinv.current, fun j ph hj => ?_, fun ph₁ h₁ ph₂ h₂ a ha => ?_, hinv.passed⟩
    · rcases getElem?_concat_cases hj with rfl | hold
      · trivial
      · exact hinv.threads j ph hold
    · rcases mem_append.mp h₁ with h₁ | h₁
      · rcases mem_append.mp h₂ with h₂ | h₂
        · exact hinv.unshared ph₁ h₁ ph₂ h₂ a ha
        · obtain rfl := mem_singleton.mp h₂
          exact fun h => by cases h
      · obtain rfl := mem_singleton.mp h₁
        cases ha
  · refine hinv.advance hph hadv fun job seed ptr old heq => ?_
    subst heq
    exact hunused job seed ptr old hph

/-- In every run in which a dataset is freed only while no verification is about to use it, every
address passed to the library is that of a live dataset of the job's own seed. -/
theorem passes_own_dataset {v : Verifier} {ls : List Label} {s : State}
    (hmeets : (verifier v).Meets FreesUnused {} ls) (hexec : (verifier v).exec {} ls = some s) :
    PassesOwn s :=
  ((verifier v).invariant_of_meets (fun hinv hunused hstep => hinv.step hunused hstep)
    cacheInv_init hmeets hexec).passed

/-! ## Two runs over a change of seed -/

def freesUnusedCheck (s : State) : Label → Bool
  | .verify _ => true
  | .advance i _ =>
    match s.threads[i]? with
    | some (.freeing _ _ _ old) => s.threads.all fun ph => ph.handle ≠ some old
    | _ => true

theorem freesUnused_of_check (s : State) (l : Label) (h : freesUnusedCheck s l = true) :
    FreesUnused s l := by
  cases l with
  | verify job => trivial
  | advance i env =>
    intro job seed ptr old hph ph hmem
    simp only [freesUnusedCheck, hph, all_eq_true] at h
    exact of_decide_eq_true (h ph hmem)

/-- A job whose seed hash is the digit `c`, 64 times. -/
def seedJob (c : Char) : Template :=
  { jobId := "j", blockhashingBlob := some [], blocktemplateBlob := none
    seedHash := String.ofList (List.replicate 64 c), height := 1, networkDifficulty := 1
    shareDifficulty := 1 }

def rebuild (i a b : Nat) : List Label :=
  [.advance i {}, .advance i { built := some a }, .advance i { built := some b },
    .advance i {}, .advance i {}]

theorem passes_own_dataset_sample :
    let run : List Label := [.verify (seedJob 'a')] ++ rebuild 0 1 2 ++ [.advance 0 {}]
      ++ [.verify (seedJob 'b')] ++ rebuild 1 3 2 ++ [.advance 1 {}, .advance 1 {}]
    ∃ s, (verifier {}).exec {} run = some s ∧ s.memory.passed.length = 2 ∧ PassesOwn s := by
  intro run
  have hend : ((verifier {}).execChecked freesUnusedCheck {} run).map
      (fun s => s.memory.passed.length) = some 2 := by
    decide +kernel
  obtain ⟨s, hexec, hmeets, hlength⟩ := (verifier {}).exists_of_checked freesUnused_of_check hend
  exact ⟨s, hexec, hlength, passes_own_dataset hmeets hexec⟩

/-- A handler has the dataset of the old seed, another one changes the seed and frees it, and the
first one passes it on: nothing is live there any more. -/
theorem passes_freed_dataset :
    let run : List Label := [.verify (seedJob 'a')] ++ rebuild 0 1 2
      ++ [.verify (seedJob 'b')] ++ rebuild 1 3 2 ++ [.advance 1 {}, .advance 0 {}]
    ((verifier {}).exec {} run).map (fun s => s.memory.passed)
        = some [⟨(seedJob 'a').seedHash, 1, none⟩]
      ∧ ¬ ∃ s, (verifier {}).exec {} run = some s ∧ PassesOwn s := by
  intro run
  have hend : ((verifier {}).exec {} run).map (fun s => s.memory.passed)
      = some [⟨(seedJob 'a').seedHash, 1, none⟩] := by
    decide +kernel
  refine ⟨hend, ?_⟩
  rintro ⟨s, hexec, hown⟩
  rw [hexec, Option.map_some, Option.some.injEq] at hend
  obtain ⟨seed, -, hfound⟩ := hown ⟨(seedJob 'a').seedHash, 1, none⟩ (by rw [hend]; simp)
  cases hfound

end Glaciem.Pool.Dataset
