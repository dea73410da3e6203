import Mathlib.Data.Prod.Basic
import Mathlib.Data.Set.Finite.List
import Mathlib.Data.UInt
import Mathlib.Logic.Function.Iterate
import Mathlib.Tactic.FinCases
import Mathlib.Tactic.IntervalCases

/-!
# Glaciem — the Lattice proof of work

`lattice_hash_ds` of `pow/lattice_ref.c`, which the miners have, and of `crypto/lattice.c`, its copy
in the daemon. The functions of the two files have the same text, so that each is one definition
over the constants that a file defines. `pow/bench/x2_interleave.c` has two inputs walk in lockstep:
what it computes for each is what the input gets alone. `pow/bench/arx_simd.c` permutes the state
with vectors of four words.
-/

namespace Glaciem.Lattice

open List Function

structure Params where
  arxRounds : Nat
  rateWords : Nat
  blockWords : Nat
  stWords : Nat
  scratchWords : Nat
  datasetWords : Nat
  lWalk : Nat
  rateWords_pos : 0 < rateWords

/-- `pow/lattice_ref.c`, with the defaults of the two that a build can override. -/
def reference : Params :=
  ⟨8, 8, 16, 256, 1024 * 1024 / 8, 4 * 1024 * 1024 / 8, 32768, Nat.succ_pos 7⟩

def consensus : Params :=
  ⟨8, 8, 16, 256, 1024 * 1024 / 8, 4 * 1024 * 1024 / 8, 32768, Nat.succ_pos 7⟩

abbrev Words := List UInt64

def rotr64 (x n : UInt64) : UInt64 :=
  (x >>> n) ||| (x <<< (64 - n))

def store64le (v : UInt64) : List UInt8 :=
  (range 8).map fun i => (v >>> UInt64.ofNat (8 * i)).toUInt8

/-! ## The permutation and the sponge -/

def G (v : Words) (a b c d : Nat) : Words :=
  let half (v : Words) (r₁ r₂ : UInt64) : Words :=
    let v := v.set a (v.getD a 0 + v.getD b 0)
    let v := v.set d (rotr64 (v.getD d 0 ^^^ v.getD a 0) r₁)
    let v := v.set c (v.getD c 0 + v.getD d 0)
    v.set b (rotr64 (v.getD b 0 ^^^ v.getD c 0) r₂)
  half (half v 32 24) 16 63

def arxRound (v : Words) : Words :=
  [(0, 4, 8, 12), (1, 5, 9, 13), (2, 6, 10, 14), (3, 7, 11, 15),
    (0, 5, 10, 15), (1, 6, 11, 12), (2, 7, 8, 13), (3, 4, 9, 14)].foldl
    (fun v (a, b, c, d) => G v a b c d) v

variable (p : Params)

def arxPerm (v : Words) : Words :=
  arxRound^[p.arxRounds] v

def xorBlock (s block : Words) : Words :=
  s.mapIdx fun i w => w ^^^ block.getD i 0

def lastBlock (rest : Words) : Words :=
  let last := rest ++ replicate (p.rateWords - rest.length) 0
  (last.modify rest.length (· ^^^ 0x01)).modify (p.rateWords - 1) (· ^^^ 0x8000000000000000)

def absorb (s input : Words) : Words :=
  if p.rateWords ≤ input.length then
    absorb (arxPerm p (xorBlock s (input.take p.rateWords))) (input.drop p.rateWords)
  else arxPerm p (xorBlock s (lastBlock p input))
termination_by input.length
decreasing_by
  have := p.rateWords_pos
  rw [length_drop]
  omega

def squeeze (s : Words) (outwords : Nat) : Words :=
  if outwords ≤ p.rateWords then s.take outwords
  else s.take p.rateWords ++ squeeze (arxPerm p s) (outwords - p.rateWords)
termination_by outwords
decreasing_by
  have := p.rateWords_pos
  omega

def sponge (input : Words) (outwords : Nat) (domain : UInt64) : Words :=
  let s := (replicate 16 (0 : UInt64)).modify 15
    (· ^^^ (domain ^^^ (UInt64.ofNat input.length <<< 8)))
  squeeze p (absorb p s input) outwords

def keystream (s : Words) (n : Nat) : Words :=
  if n = 0 then []
  else
    let s := arxPerm p s
    s.take (min p.rateWords n) ++ keystream s (n - p.rateWords)
termination_by n
decreasing_by
  have := p.rateWords_pos
  omega

def expand (seed : Words) (domain : UInt64) (n : Nat) : Words :=
  keystream p ((seed.take 8 ++ replicate 8 0).modify 8 (· ^^^ domain)) n

/-! ## The walk -/

structure Walk where
  acc : Words
  state : Words
  scratch : Words

/-- Where the blocks of an iteration start: in the scratchpad, the dataset and the state. -/
structure Blocks where
  si : Nat
  di : Nat
  ti : Nat

namespace Walk

variable (ds : Words) (b : Blocks) (w : Walk)

def start (state : Words) : Walk :=
  let acc := sponge p state 16 0x58
  ⟨acc, state, expand p acc 0x58 p.scratchWords⟩

def blocks : Blocks :=
  let start (i words : Nat) := (w.acc.getD i 0).toNat % (words / p.blockWords) * p.blockWords
  ⟨start 0 p.scratchWords, start 1 p.datasetWords, start 2 p.stWords⟩

def mixWord (k : Nat) : Walk :=
  { w with acc := w.acc.modify k fun a =>
      ((a ^^^ w.scratch.getD (b.si + k) 0) + ds.getD (b.di + k) 0) ^^^ w.state.getD (b.ti + k) 0 }

def permute : Walk :=
  { w with acc :=
      if w.acc.getD 3 0 &&& 1 ≠ 0 then arxPerm p w.acc else arxPerm p (arxPerm p w.acc) }

def writeWord (k : Nat) : Walk :=
  let a (i : Nat) := w.acc.getD i 0
  { w with
    scratch := w.scratch.set (b.si + k) (a k ^^^ rotr64 (a ((k + 1) &&& 15)) 1)
    state := w.state.set (b.ti + k) (a k + rotr64 (a ((k + 9) &&& 15)) 17) }

def step : Walk :=
  let b := w.blocks p
  let mixed := (range p.blockWords).foldl (mixWord ds b) w
  (range p.blockWords).foldl (writeWord b) (mixed.permute p)

end Walk

def latticeWalk (state ds : Words) : Words :=
  ((Walk.step p ds)^[p.lWalk] (Walk.start p state)).state

/-- `seed_state`, which `lattice_hash_ds` has inline. -/
def seedState (input : List UInt8) : Words :=
  let inwords := max 1 ((input.length + 7) / 8)
  let iw := input.zipIdx.foldl (fun iw (byte, i) =>
    iw.modify (i / 8) (· ||| (byte.toUInt64 <<< UInt64.ofNat (8 * (i % 8)))))
    (replicate inwords (0 : UInt64))
  sponge p iw p.stWords ((0x01 : UInt64) ^^^ (UInt64.ofNat input.length <<< 16))

def finalHash (state : Words) : List UInt8 :=
  (sponge p state 4 0xF1).flatMap store64le

def latticeHashDs (input : List UInt8) (ds : Words) : List UInt8 :=
  finalHash p (latticeWalk p (seedState p input) ds)

namespace Crypto

def arxPerm : Words → Words := Lattice.arxPerm consensus

def sponge : Words → Nat → UInt64 → Words := Lattice.sponge consensus

def expand : Words → UInt64 → Nat → Words := Lattice.expand consensus

def latticeWalk : Words → Words → Words := Lattice.latticeWalk consensus

def latticeHashDs : List UInt8 → Words → List UInt8 := Lattice.latticeHashDs consensus

end Crypto

section Length

@[simp] theorem length_G (v : Words) (a b c d : Nat) : (G v a b c d).length = v.length := by
  simp [G]

@[simp] theorem length_arxRound (v : Words) : (arxRound v).length = v.length := by
  simp [arxRound]

@[simp] theorem length_arxPerm (v : Words) : (arxPerm p v).length = v.length := by
  have hround : Semiconj length arxRound id := length_arxRound
  rw [arxPerm, (hround.iterate_right _).eq, iterate_id, id]

theorem length_absorb (s input : Words) : (absorb p s input).length = s.length := by
  fun_induction absorb p s input <;> simp_all [xorBlock]

theorem length_squeeze {s : Words} (hs : p.rateWords ≤ s.length) (outwords : Nat) :
    (squeeze p s outwords).length = outwords := by
  fun_induction squeeze p s outwords with
  | case1 s outwords hle => rw [length_take, min_eq_left (hle.trans hs)]
  | case2 s outwords hlt ih =>
    rw [length_append, length_take, ih (by rwa [length_arxPerm]), min_eq_left hs]
    omega

theorem length_finalHash (hrate : p.rateWords ≤ 16) (state : Words) :
    (finalHash p state).length = 32 := by
  have hsponge : (sponge p state 4 0xF1).length = 4 :=
    length_squeeze p (by rw [length_absorb]; simpa using hrate) 4
  simp [finalHash, length_flatMap, store64le, hsponge]

end Length

/-! ## Two inputs at once -/

/-- An iteration of `lattice_walk_x2`: both words of a block at each turn of its inner loops. -/
def stepX2 (ds : Words) (w : Walk × Walk) : Walk × Walk :=
  let b₀ := w.1.blocks p
  let b₁ := w.2.blocks p
  let mixed := (range p.blockWords).foldl
    (fun w k => (w.1.mixWord ds b₀ k, w.2.mixWord ds b₁ k)) w
  (range p.blockWords).foldl
    (fun w k => (w.1.writeWord b₀ k, w.2.writeWord b₁ k)) (mixed.1.permute p, mixed.2.permute p)

def latticeWalkX2 (st₀ st₁ ds : Words) : Words × Words :=
  let w := (stepX2 p ds)^[p.lWalk] (Walk.start p st₀, Walk.start p st₁)
  (w.1.state, w.2.state)

def latticeHashDsX2 (in₀ in₁ : List UInt8) (ds : Words) : List UInt8 × List UInt8 :=
  let st := latticeWalkX2 p (seedState p in₀) (seedState p in₁) ds
  (finalHash p st.1, finalHash p st.2)

theorem foldl_pair {α β γ : Type} (f : α → γ → α) (g : β → γ → β) (l : List γ) (w : α × β) :
    l.foldl (fun w k => (f w.1 k, g w.2 k)) w = (l.foldl f w.1, l.foldl g w.2) := by
  induction l generalizing w with
  | nil => rfl
  | cons k l ih => exact ih _

theorem stepX2_eq (ds : Words) : stepX2 p ds = Prod.map (Walk.step p ds) (Walk.step p ds) := by
  funext w
  unfold stepX2 Walk.step
  dsimp only
  rw [foldl_pair (Walk.mixWord ds (w.1.blocks p)) (Walk.mixWord ds (w.2.blocks p)),
    foldl_pair (Walk.writeWord (w.1.blocks p)) (Walk.writeWord (w.2.blocks p))]
  rfl

theorem latticeWalkX2_eq (st₀ st₁ ds : Words) :
    latticeWalkX2 p st₀ st₁ ds = (latticeWalk p st₀ ds, latticeWalk p st₁ ds) := by
  unfold latticeWalkX2
  rw [stepX2_eq, Prod.map_iterate]
  rfl

theorem latticeHashDsX2_eq (in₀ in₁ : List UInt8) (ds : Words) :
    latticeHashDsX2 p in₀ in₁ ds = (latticeHashDs p in₀ ds, latticeHashDs p in₁ ds) := by
  unfold latticeHashDsX2
  rw [latticeWalkX2_eq]
  rfl

/-- The lockstep walk, which includes the miners' reference, gives each input the hash of the
reference, and that is the hash of the daemon, of 32 bytes. -/
theorem lattice_hashes_agree (in₀ in₁ : List UInt8) (ds : Words) :
    latticeHashDsX2 reference in₀ in₁ ds
        = (latticeHashDs reference in₀ ds, latticeHashDs reference in₁ ds)
      ∧ latticeHashDs reference in₀ ds = Crypto.latticeHashDs in₀ ds
      ∧ latticeHashDs reference in₁ ds = Crypto.latticeHashDs in₁ ds
      ∧ (Crypto.latticeHashDs in₀ ds).length = 32 := by
  have hcopies : reference = consensus := rfl
  exact ⟨latticeHashDsX2_eq reference in₀ in₁ ds, by rw [hcopies]; rfl, by rw [hcopies]; rfl,
    length_finalHash consensus (by decide) _⟩

/-! ## Four lanes at once -/

/-- The bits above the rotation go down, those below it to the top. -/
theorem testBit_rotr64 (x : UInt64) {n : UInt64} (hpos : 0 < n.toNat) (hn : n.toNat < 64) {k : Nat}
    (hk : k < 64) :
    (rotr64 x n).toNat.testBit (if n.toNat ≤ k then k - n.toNat else k + (64 - n.toNat))
      = x.toNat.testBit k := by
  have hsub : (64 - n).toNat = 64 - n.toNat :=
    UInt64.toNat_sub_of_le _ _ (UInt64.le_iff_toNat_le.mpr hn.le)
  simp only [rotr64, UInt64.toNat_or, UInt64.toNat_shiftRight, UInt64.toNat_shiftLeft, hsub,
    Nat.testBit_or, Nat.testBit_shiftRight, Nat.testBit_mod_two_pow, Nat.testBit_shiftLeft,
    Nat.mod_eq_of_lt hn, Nat.mod_eq_of_lt (show 64 - n.toNat < 64 by omega)]
  split_ifs with hle
  · have hlow : ¬ 64 - n.toNat ≤ k - n.toNat := by omega
    simp [hlow, Nat.add_sub_cancel' hle]
  · have hhigh : x.toNat.testBit (n.toNat + (k + (64 - n.toNat))) = false :=
      Nat.testBit_lt_two_pow (x.toNat_lt.trans_le (Nat.pow_le_pow_right Nat.two_pos (by omega)))
    have htop : k + (64 - n.toNat) < 64 := by omega
    simp [hhigh, htop]

theorem rotr64_injective {n : UInt64} (hpos : 0 < n.toNat) (hn : n.toNat < 64) :
    Injective (rotr64 · n) := by
  intro x y hxy
  refine UInt64.toNat_inj.mp (Nat.eq_of_testBit_eq fun k => ?_)
  by_cases hk : k < 64
  · rw [← testBit_rotr64 x hpos hn hk, ← testBit_rotr64 y hpos hn hk]
    exact congrArg (fun z : UInt64 => z.toNat.testBit _) hxy
  · have hout (z : UInt64) : z.toNat.testBit k = false := Nat.testBit_lt_two_pow
      (z.toNat_lt.trans_le (Nat.pow_le_pow_right Nat.two_pos (Nat.not_lt.mp hk)))
    rw [hout, hout]

/-- The words `G` works on, `a` to `d`. -/
abbrev Quad := UInt64 × UInt64 × UInt64 × UInt64

def mixHalf (r₁ r₂ : UInt64) : Quad → Quad
  | (a, b, c, d) =>
    let a := a + b
    let d := rotr64 (d ^^^ a) r₁
    let c := c + d
    (a, rotr64 (b ^^^ c) r₂, c, d)

def mix (q : Quad) : Quad :=
  mixHalf 16 63 (mixHalf 32 24 q)

theorem mixHalf_injective {r₁ r₂ : UInt64} (h₁ : Injective (rotr64 · r₁))
    (h₂ : Injective (rotr64 · r₂)) : Injective (mixHalf r₁ r₂) := by
  rintro ⟨a, b, c, d⟩ ⟨a', b', c', d'⟩ h
  simp only [mixHalf, Prod.mk.injEq] at h
  obtain ⟨ha, hb, hc, hd⟩ := h
  -- each word was changed by one that is known again when it is reached, from the last to the first
  rw [hc] at hb
  rw [hd] at hc
  rw [ha] at hd
  have hb' : b = b' := (UInt64.xor_left_inj _).mp (h₂ hb)
  have hc' : c = c' := add_right_cancel hc
  have hd' : d = d' := (UInt64.xor_left_inj _).mp (h₁ hd)
  rw [hb'] at ha
  rw [add_right_cancel ha, hb', hc', hd']

theorem mix_injective : Injective mix := by
  have hrotr {n : UInt64} (hn : 0 < n.toNat ∧ n.toNat < 64) := rotr64_injective hn.1 hn.2
  exact (mixHalf_injective (hrotr (by decide)) (hrotr (by decide))).comp
    (mixHalf_injective (hrotr (by decide)) (hrotr (by decide)))

/-- `G` mixes four different words of the state and leaves the others. -/
theorem G_eq {v : Words} {a b c d : Nat} (hlen : v.length = 16)
    (hidx : [a, b, c, d].Nodup ∧ ∀ k ∈ [a, b, c, d], k < 16) :
    G v a b c d =
      let q := mix (v.getD a 0, v.getD b 0, v.getD c 0, v.getD d 0)
      (((v.set a q.1).set b q.2.1).set c q.2.2.1).set d q.2.2.2 := by
  simp only [mem_cons, not_mem_nil, or_false, forall_eq_or_imp, forall_eq, nodup_cons,
    not_or] at hidx
  refine ext_getElem? fun k => ?_
  simp [G, getD_eq_getElem?_getD, getElem?_set, mix, mixHalf, hlen, hidx]
  grind

structure Rows where
  r0 : Fin 4 → UInt64
  r1 : Fin 4 → UInt64
  r2 : Fin 4 → UInt64
  r3 : Fin 4 → UInt64

def Rows.lane (r : Rows) (i : Fin 4) : Quad :=
  (r.r0 i, r.r1 i, r.r2 i, r.r3 i)

/-- The macro `GV`: each operation of it works lane by lane. -/
def GV (r : Rows) : Rows :=
  ⟨fun i => (mix (r.lane i)).1, fun i => (mix (r.lane i)).2.1, fun i => (mix (r.lane i)).2.2.1,
    fun i => (mix (r.lane i)).2.2.2⟩

/-- How far each row but the first is shuffled. -/
def shuffle (j k l : Fin 4) (r : Rows) : Rows :=
  ⟨r.r0, fun i => r.r1 (i + j), fun i => r.r2 (i + k), fun i => r.r3 (i + l)⟩

def simdRound (r : Rows) : Rows :=
  shuffle 3 2 1 (GV (shuffle 1 2 3 (GV r)))

def load (v : Words) : Rows :=
  let row (m : Nat) (i : Fin 4) := v.getD (m + i) 0
  ⟨row 0, row 4, row 8, row 12⟩

def store (r : Rows) : Words :=
  [r.r0 0, r.r0 1, r.r0 2, r.r0 3, r.r1 0, r.r1 1, r.r1 2, r.r1 3,
    r.r2 0, r.r2 1, r.r2 2, r.r2 3, r.r3 0, r.r3 1, r.r3 2, r.r3 3]

def arxPermSimd (p : Params) (v : Words) : Words :=
  store (simdRound^[p.arxRounds] (load v))

/-- The lanes are columns of the state, and its diagonals after the shuffle. -/
theorem store_simdRound : Semiconj store simdRound arxRound := by
  intro r
  simp only [store, simdRound, shuffle, GV, Rows.lane, arxRound, foldl_cons, foldl_nil]
  simp (disch := first | decide | simp) only [G_eq, set_cons_zero, set_cons_succ, getD_cons_zero,
    getD_cons_succ]
  rfl

theorem store_load {v : Words} (h : v.length = 16) : store (load v) = v := by
  refine ext_getElem h.symm fun k hk hkv => ?_
  rw [getElem_eq_getD 0, getElem_eq_getD 0]
  rw [h] at hkv
  interval_cases k <;> rfl

theorem load_store (r : Rows) : load (store r) = r := by
  obtain ⟨r0, r1, r2, r3⟩ := r
  rw [load, Rows.mk.injEq]
  refine ⟨funext fun i => ?_, funext fun i => ?_, funext fun i => ?_, funext fun i => ?_⟩ <;>
    fin_cases i <;> rfl

theorem GV_injective : Injective GV := by
  intro r s h
  have hlane (i : Fin 4) : r.lane i = s.lane i := mix_injective (congrArg (Rows.lane · i) h)
  simp only [Rows.lane, Prod.mk.injEq] at hlane
  obtain ⟨r0, r1, r2, r3⟩ := r
  rw [Rows.mk.injEq]
  exact ⟨funext fun i => (hlane i).1, funext fun i => (hlane i).2.1,
    funext fun i => (hlane i).2.2.1, funext fun i => (hlane i).2.2.2⟩

theorem shuffle_injective (j k l : Fin 4) : Injective (shuffle j k l) :=
  LeftInverse.injective (g := shuffle (-j) (-k) (-l)) fun r => by simp [shuffle]

theorem simdRound_injective : Injective simdRound :=
  (shuffle_injective 3 2 1).comp (GV_injective.comp ((shuffle_injective 1 2 3).comp GV_injective))

theorem bijOn_arxRound : Set.BijOn arxRound {v | v.length = 16} {v | v.length = 16} := by
  have hmaps : Set.MapsTo arxRound {v | v.length = 16} {v | v.length = 16} := by
    exact fun v hv => (length_arxRound v).trans hv
  have : Finite UInt64 := Finite.of_injective UInt64.toFin UInt64.toFin_injective
  refine ((List.finite_length_eq UInt64 16).injOn_iff_bijOn_of_mapsTo hmaps).mp ?_
  intro v hv w hw h
  rw [← store_load hv, ← store_load hw] at h ⊢
  rw [← store_simdRound, ← store_simdRound] at h
  exact congrArg store (simdRound_injective (LeftInverse.injective load_store h))

/-- Four lanes at once compute what the reference does, and nothing is lost. -/
theorem arx_perm_simd_eq (p : Params) :
    (∀ v : Words, v.length = 16 → arxPermSimd p v = arxPerm p v) ∧
      Set.BijOn (arxPerm p) {v | v.length = 16} {v | v.length = 16} := by
  refine ⟨fun v hv => ?_, bijOn_arxRound.iterate _⟩
  rw [arxPermSimd, (store_simdRound.iterate_right _).eq, store_load hv]
  rfl

end Glaciem.Lattice
