import Glaciem.Block.Header
import Glaciem.Lib.Wide

/-!
# Glaciem — does a hash meet a difficulty

Three programs ask whether a 256-bit hash times a 64-bit difficulty stays below `2 ^ 256`: the
daemon (`check_hash_64` of `difficulty.cpp`), the miner (`meets_target` of `miner_core.m`) and the
pool (`meets_target` of `pool_verify.c`). The daemon adds the four partial products with a carry
that is only looked at where it can arise, the miner runs a carry through all four words, the pool
looks at the top word alone. Words are numbers below `2 ^ 64`.
-/

namespace Glaciem

open List

/-! ## Words of a hash -/

def Hash.value (h : Hash) : Nat := Nat.ofDigits 256 (h.data.map UInt8.toNat)

def Hash.word (h : Hash) (i : Nat) : Nat :=
  Nat.ofDigits 256 (((h.data.drop (8 * i)).take 8).map UInt8.toNat)

theorem ofDigits_bytes_lt (bs : List UInt8) :
    Nat.ofDigits 256 (bs.map UInt8.toNat) < 256 ^ bs.length := by
  have hbytes : ∀ d ∈ bs.map UInt8.toNat, d < 256 := by
    intro d hd
    obtain ⟨b, -, rfl⟩ := mem_map.mp hd
    exact b.toNat_lt
  have hlt := Nat.ofDigits_lt_base_pow_length (by decide) hbytes
  rwa [length_map] at hlt

theorem Hash.word_lt (h : Hash) (i : Nat) : h.word i < 2 ^ 64 := by
  have hlen : ((h.data.drop (8 * i)).take 8).length ≤ 8 := length_take_le _ _
  calc h.word i < 256 ^ ((h.data.drop (8 * i)).take 8).length := ofDigits_bytes_lt _
    _ ≤ 256 ^ 8 := Nat.pow_le_pow_right (by decide) hlen

theorem ofDigits_split (bs : List UInt8) (hlen : 8 ≤ bs.length) :
    Nat.ofDigits 256 (bs.map UInt8.toNat)
      = Nat.ofDigits 256 ((bs.take 8).map UInt8.toNat)
        + 2 ^ 64 * Nat.ofDigits 256 ((bs.drop 8).map UInt8.toNat) := by
  conv_lhs => rw [← take_append_drop 8 bs, map_append, Nat.ofDigits_append,
    length_map, length_take_of_le hlen]
  rfl

theorem Hash.value_eq (h : Hash) :
    h.value = h.word 0 + 2 ^ 64 * h.word 1 + 2 ^ 128 * h.word 2 + 2 ^ 192 * h.word 3 := by
  have hsize := h.size
  have hlast : (h.data.drop 24).take 8 = h.data.drop 24 := by
    refine take_of_length_le ?_
    rw [length_drop]
    omega
  unfold Hash.value Hash.word
  rw [ofDigits_split h.data (by omega),
    ofDigits_split (h.data.drop 8) (by rw [length_drop]; omega), drop_drop,
    ofDigits_split (h.data.drop 16) (by rw [length_drop]; omega), drop_drop]
  simp only [mul_zero, drop_zero, Nat.reduceMul, Nat.reduceAdd, hlast]
  ring

namespace Chain

/-! ## The daemon -/

def mul (a b : Nat) : Nat × Nat := (a * b % 2 ^ 64, a * b / 2 ^ 64)

/-- The product by halves of 32 bits, for targets without a native 128-bit product. -/
def mulPortable (a b : Nat) : Nat × Nat :=
  let aLow := a % 2 ^ 32
  let aHigh := a / 2 ^ 32
  let bLow := b % 2 ^ 32
  let bHigh := b / 2 ^ 32
  let res := aLow * bLow % 2 ^ 64
  let lowRes1 := res % 2 ^ 32
  let carry := res / 2 ^ 32
  let res := (aHigh * bLow + carry) % 2 ^ 64
  let highResHigh1 := res / 2 ^ 32
  let highResLow1 := res % 2 ^ 32
  let res := aLow * bHigh % 2 ^ 64
  let lowRes2 := res % 2 ^ 32
  let carry := res / 2 ^ 32
  let res := (aHigh * bHigh + carry) % 2 ^ 64
  let highResHigh2 := res / 2 ^ 32
  let highResLow2 := res % 2 ^ 32
  let r := (highResLow1 + lowRes2) % 2 ^ 64
  let carry := r / 2 ^ 32
  let low := r <<< 32 % 2 ^ 64 ||| lowRes1
  let r := (highResHigh1 + highResLow2 + carry) % 2 ^ 64
  let d3 := r % 2 ^ 32
  let carry := r / 2 ^ 32
  let r := (highResHigh2 + carry) % 2 ^ 64
  (low, d3 ||| r <<< 32 % 2 ^ 64)

def cadd (a b : Nat) : Bool := (a + b) % 2 ^ 64 < a

def cadc (a b : Nat) (c : Bool) : Bool :=
  (a + b) % 2 ^ 64 < a || (c && (a + b) % 2 ^ 64 == 2 ^ 64 - 1)

def checkHash64With (mul : Nat → Nat → Nat × Nat) (hash : Hash) (difficulty : Nat) : Bool :=
  -- the highest word first, which will most likely fail for a random hash
  let (top, high) := mul (hash.word 3) difficulty
  if high ≠ 0 then false
  else
    let (_, cur) := mul (hash.word 0) difficulty
    let (low, high) := mul (hash.word 1) difficulty
    let carry := cadd cur low
    let cur := high
    let (low, high) := mul (hash.word 2) difficulty
    let carry := cadc cur low carry
    let carry := cadc high top carry
    !carry

def checkHash64 : Hash → Nat → Bool := checkHash64With mul

/-- All four words are read, the highest one too: `FORCE_FULL_128_BITS` is defined. -/
def checkHash128 (hash : Hash) (difficulty : Nat) : Bool :=
  let hashVal := (range 4).foldl
    (fun hashVal i => hashVal <<< 64 % 2 ^ 512 ||| hash.word (3 - i)) 0
  hashVal * difficulty % 2 ^ 512 ≤ 2 ^ 256 - 1

def checkHash (mul : Nat → Nat → Nat × Nat) (hash : Hash) (difficulty : Nat) : Bool :=
  if difficulty ≤ 2 ^ 64 - 1 then checkHash64With mul hash difficulty
  else checkHash128 hash difficulty

def carryLoop (difficulty : Nat) : List Nat → Nat → Nat
  | [], carry => carry
  | w :: ws, carry => carryLoop difficulty ws ((w * difficulty + carry) / 2 ^ 64)

variable (h : Hash)

def minerMeetsTarget (difficulty : Nat) : Bool :=
  if difficulty ≤ 1 then true
  else carryLoop difficulty [h.word 0, h.word 1, h.word 2, h.word 3] 0 == 0

def poolMeetsTarget (hash : Hash) (difficulty : Nat) : Bool :=
  if difficulty = 0 then false else hash.word 3 * difficulty / 2 ^ 64 == 0

/-! ## What the tests decide -/

theorem word_mul_le {h : Hash} {i d : Nat} (hd : d < 2 ^ 64) :
    h.word i * d ≤ (2 ^ 64 - 1) * (2 ^ 64 - 1) :=
  Nat.mul_le_mul (Nat.le_pred_of_lt (h.word_lt i)) (Nat.le_pred_of_lt hd)

theorem value_mul (d : Nat) :
    h.value * d = h.word 0 * d + 2 ^ 64 * (h.word 1 * d) + 2 ^ 128 * (h.word 2 * d)
      + 2 ^ 192 * (h.word 3 * d) := by
  rw [Hash.value_eq]
  ring

theorem checkHash64_iff {d : Nat} (hd : d < 2 ^ 64) :
    checkHash64 h d = true ↔ h.value * d < 2 ^ 256 := by
  have h0 := word_mul_le (h := h) (i := 0) hd
  have h1 := word_mul_le (h := h) (i := 1) hd
  have h2 := word_mul_le (h := h) (i := 2) hd
  rw [value_mul]
  unfold checkHash64 checkHash64With mul cadd cadc
  generalize h.word 0 * d = a0 at *
  generalize h.word 1 * d = a1 at *
  generalize h.word 2 * d = a2 at *
  generalize h.word 3 * d = a3 at *
  dsimp only
  split
  · simp only [Bool.false_eq_true, false_iff]
    omega
  · simp only [Bool.not_eq_true', Bool.or_eq_false_iff, Bool.and_eq_false_iff,
      decide_eq_false_iff_not, beq_eq_false_iff_ne]
    omega

theorem mulPortable_eq {a b : Nat} (ha : a < 2 ^ 64) (hb : b < 2 ^ 64) :
    mulPortable a b = mul a b := by
  -- a shifted word has its low half free
  have hor (r l : Nat) (hl : l < 2 ^ 32) : r <<< 32 % 2 ^ 64 ||| l = r % 2 ^ 32 * 2 ^ 32 + l := by
    have hshift : r <<< 32 % 2 ^ 64 = (r % 2 ^ 32) <<< 32 := by
      rw [Nat.shiftLeft_eq, Nat.shiftLeft_eq]
      omega
    rw [hshift, ← Nat.shiftLeft_add_eq_or_of_lt hl, Nat.shiftLeft_eq]
  obtain ⟨p00, p10, p01, p11, h00, h10, h01, h11, hmul, hb00, hb10, hb01, hb11⟩ :=
    Wide.mul_eq_halves ha hb
  unfold mulPortable mul
  dsimp only
  rw [Nat.or_comm (_ % 2 ^ 32), hor _ _ (Nat.mod_lt _ (by decide)),
    hor _ _ (Nat.mod_lt _ (by decide)), h00, h10, h01, h11, hmul]
  refine Prod.ext ?_ ?_
  · dsimp only
    omega
  · dsimp only
    omega

theorem checkHash64With_eq {m : Nat → Nat → Nat × Nat} {d : Nat} (hd : d < 2 ^ 64)
    (hm : ∀ a b, a < 2 ^ 64 → b < 2 ^ 64 → m a b = mul a b) :
    checkHash64With m h d = checkHash64 h d := by
  unfold checkHash64 checkHash64With
  simp only [hm _ d (h.word_lt _) hd]

theorem checkHash128_iff {d : Nat} (hd : d < 2 ^ 128) :
    checkHash128 h d = true ↔ h.value * d < 2 ^ 256 := by
  have hlt := ofDigits_bytes_lt h.data
  rw [h.size] at hlt
  have hmul : h.value * d < 2 ^ 256 * 2 ^ 128 := Nat.mul_lt_mul'' hlt hd
  have hword (v : Nat) (i : Nat) (hv : v < 2 ^ 192) :
      v <<< 64 % 2 ^ 512 ||| h.word i = 2 ^ 64 * v + h.word i := by
    rw [Nat.mod_eq_of_lt (by rw [Nat.shiftLeft_eq]; omega),
      ← Nat.shiftLeft_add_eq_or_of_lt (h.word_lt i), Nat.shiftLeft_eq, mul_comm]
  have h1 := h.word_lt 1
  have h2 := h.word_lt 2
  have h3 := h.word_lt 3
  have hval : (range 4).foldl
      (fun hashVal i => hashVal <<< 64 % 2 ^ 512 ||| h.word (3 - i)) 0 = h.value := by
    simp only [show range 4 = [0, 1, 2, 3] from rfl, foldl_cons, foldl_nil, Nat.reduceSub]
    rw [hword _ 3 (by decide), hword _ 2 (by omega), hword _ 1 (by omega), hword _ 0 (by omega),
      Hash.value_eq]
    omega
  unfold checkHash128
  dsimp only
  rw [hval, Nat.mod_eq_of_lt (by omega), decide_eq_true_iff]
  omega

/-- Either product, either path: a hash meets a difficulty exactly when their product stays below
`2 ^ 256`. -/
theorem checkHash_iff (h : Hash) (d : Nat) (hd : d < 2 ^ 128) :
    (checkHash Wide.mul128 h d = true ↔ h.value * d < 2 ^ 256)
      ∧ (checkHash mulPortable h d = true ↔ h.value * d < 2 ^ 256) := by
  unfold checkHash
  split
  · have hd : d < 2 ^ 64 := by omega
    rw [checkHash64With_eq h hd fun _ _ => Wide.mul128_eq,
      checkHash64With_eq h hd fun _ _ => mulPortable_eq]
    exact ⟨checkHash64_iff h hd, checkHash64_iff h hd⟩
  · exact ⟨checkHash128_iff h hd, checkHash128_iff h hd⟩

/-- For the bytes 255 and 15 the value is `2 ^ 156 - 1`, for 0 and 16 it is one more. -/
def filledHash (low top : UInt8) : Hash := ⟨replicate 19 low ++ top :: replicate 12 0, rfl⟩

theorem checkHash_iff_at_bound : checkHash Wide.mul128 (filledHash 255 15) (2 ^ 100) = true
    ∧ ¬ checkHash mulPortable (filledHash 0 16) (2 ^ 100) = true :=
  ⟨(checkHash_iff (filledHash 255 15) (2 ^ 100) (by decide)).1.mpr (by decide),
    fun h => absurd ((checkHash_iff (filledHash 0 16) (2 ^ 100) (by decide)).2.mp h) (by decide)⟩

theorem minerMeetsTarget_iff {d : Nat} (hpos : 0 < d) (hd : d < 2 ^ 64) :
    minerMeetsTarget h d = true ↔ h.value * d < 2 ^ 256 := by
  unfold minerMeetsTarget
  split
  · -- every hash meets the difficulty 1
    obtain rfl : d = 1 := by omega
    have hlt := ofDigits_bytes_lt h.data
    rw [h.size] at hlt
    simpa [Hash.value] using hlt
  · rw [value_mul, beq_iff_eq]
    simp only [carryLoop, add_zero]
    omega

theorem poolMeetsTarget_iff {d : Nat} (hpos : 0 < d) :
    poolMeetsTarget h d = true ↔ h.word 3 * d < 2 ^ 64 := by
  rw [poolMeetsTarget, if_neg (by omega), beq_iff_eq]
  omega

/-- The daemon and the miner decide the same. What they accept the pool accepts, and what the
pool accepts misses the bound by less than the difficulty times the low three words. -/
theorem target_checks_related (h : Hash) (d : Nat) (hpos : 1 ≤ d) (hd : d < 2 ^ 64) :
    (checkHash64 h d = true → poolMeetsTarget h d = true)
      ∧ (poolMeetsTarget h d = true → h.value * d < 2 ^ 256 + d * 2 ^ 192)
      ∧ (minerMeetsTarget h d = true ↔ checkHash64 h d = true) := by
  refine ⟨?_, ?_, ?_⟩
  · rw [checkHash64_iff h hd, poolMeetsTarget_iff h hpos, value_mul]
    intro hlt
    omega
  · rw [poolMeetsTarget_iff h hpos]
    intro htop
    -- the three words below the top one are less than `2 ^ 192`
    have hlow : h.value < 2 ^ 192 + 2 ^ 192 * h.word 3 := by
      have h0 := h.word_lt 0
      have h1 := h.word_lt 1
      have h2 := h.word_lt 2
      rw [Hash.value_eq]
      omega
    calc h.value * d < (2 ^ 192 + 2 ^ 192 * h.word 3) * d := Nat.mul_lt_mul_of_pos_right hlow hpos
      _ = 2 ^ 192 * (h.word 3 * d) + d * 2 ^ 192 := by ring
      _ ≤ 2 ^ 256 + d * 2 ^ 192 := by omega
  · rw [minerMeetsTarget_iff h hpos hd, checkHash64_iff h hd]

/-- The top word times 700 is 16 below `2 ^ 64`, and all lower bits are set. -/
def overHash : Hash := ⟨replicate 24 255 ++ [196, 166, 210, 144, 115, 159, 93, 0], rfl⟩

theorem target_checks_related_over : poolMeetsTarget overHash 700 = true
    ∧ overHash.value * 700 < 2 ^ 256 + 700 * 2 ^ 192
    ∧ ¬ checkHash64 overHash 700 = true ∧ ¬ minerMeetsTarget overHash 700 = true := by
  obtain ⟨-, hbound, hminer⟩ := target_checks_related overHash 700 (by decide) (by decide)
  have hpool : poolMeetsTarget overHash 700 = true := by decide
  have hdaemon : ¬ checkHash64 overHash 700 = true := by decide
  exact ⟨hpool, hbound hpool, hdaemon, fun h => hdaemon (hminer.mp h)⟩

end Chain

end Glaciem
