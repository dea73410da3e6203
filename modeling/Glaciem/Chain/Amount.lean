import Mathlib.Data.List.DropRight
import Mathlib.Order.Bounds.Basic
import Mathlib.Tactic.Positivity
import Mathlib.Tactic.Ring

/-!
# Glaciem — amounts by their digits

`round_money_up`, `print_money` and `parse_amount` of `cryptonote_format_utils.cpp`, all of which
work on the decimal text of an amount.
-/

namespace Glaciem.Chain

open List Nat

/-! ## Rounding by digits -/

/-- The decimal digits of a number, the last one first; `fuel` is the size of the buffer. -/
def decimalDigits : Nat → Nat → List Nat
  | 0, _ => []
  | fuel + 1, n => if n < 10 then [n] else n % 10 :: decimalDigits fuel (n / 10)

/-- `strtoull`, without its bound. -/
def valueOfDigits : List Nat → Nat
  | [] => 0
  | d :: ds => d + 10 * valueOfDigits ds

def bumpDigits : List Nat → List Nat
  | [] => [1]
  | d :: ds => if d = 9 then 0 :: bumpDigits ds else (d + 1) :: ds

/-- Digits past the significant ones become 0, and the significant ones are bumped if any of these
was not. -/
def roundedDigits (digits : List Nat) (significantDigits : Nat) : List Nat :=
  let cut := digits.length - significantDigits
  let significant := digits.drop cut
  replicate cut 0
    ++ if (digits.take cut).any (· ≠ 0) then bumpDigits significant else significant

/-- `round_money_up`; `none` if it throws. A number of 64 bits has at most 20 digits. -/
def roundMoneyUp (amount significantDigits : Nat) : Option Nat :=
  let rounded := valueOfDigits (roundedDigits (decimalDigits 20 amount) significantDigits)
  if significantDigits = 0 ∨ 2 ^ 64 ≤ rounded ∨ (rounded = 0 ∧ amount ≠ 0) then none
  else some rounded

example : roundMoneyUp 19999 2 = some 20000 ∧ roundMoneyUp 9910 2 = some 10000
    ∧ roundMoneyUp 1200 2 = some 1200 := by decide

theorem valueOfDigits_decimalDigits {fuel n : Nat} (h : n < 10 ^ fuel) :
    valueOfDigits (decimalDigits fuel n) = n := by
  induction fuel generalizing n with
  | zero =>
    rw [lt_one_iff.mp h]
    rfl
  | succ fuel ih =>
    unfold decimalDigits
    split
    · rfl
    · rw [valueOfDigits, ih (by rw [pow_succ] at h; omega)]
      exact mod_add_div n 10

theorem decimalDigits_lt {fuel n d : Nat} (h : d ∈ decimalDigits fuel n) : d < 10 := by
  induction fuel generalizing n with
  | zero => cases h
  | succ fuel ih =>
    unfold decimalDigits at h
    split at h
    · next hlt =>
      rw [mem_singleton.mp h]
      exact hlt
    · rcases mem_cons.mp h with rfl | h
      · exact mod_lt _ (by decide)
      · exact ih h

theorem valueOfDigits_append (ds es : List Nat) :
    valueOfDigits (ds ++ es) = valueOfDigits ds + 10 ^ ds.length * valueOfDigits es := by
  induction ds with
  | nil => simp [valueOfDigits]
  | cons d ds ih =>
    rw [cons_append, valueOfDigits, ih, valueOfDigits, length_cons, pow_succ]
    ring

theorem valueOfDigits_bumpDigits (ds : List Nat) :
    valueOfDigits (bumpDigits ds) = valueOfDigits ds + 1 := by
  induction ds with
  | nil => rfl
  | cons d ds ih =>
    unfold bumpDigits
    split
    · next hnine =>
      rw [valueOfDigits, ih, valueOfDigits, hnine]
      omega
    · rw [valueOfDigits, valueOfDigits]
      omega

variable {ds : List Nat}

theorem valueOfDigits_lt (h : ∀ d ∈ ds, d < 10) : valueOfDigits ds < 10 ^ ds.length := by
  induction ds with
  | nil => decide
  | cons d ds ih =>
    obtain ⟨hd, hds⟩ := forall_mem_cons.mp h
    have := ih hds
    rw [valueOfDigits, length_cons, pow_succ]
    omega

theorem valueOfDigits_of_zeros (h : ∀ d ∈ ds, d = 0) : valueOfDigits ds = 0 := by
  induction ds with
  | nil => rfl
  | cons d ds ih =>
    obtain ⟨hd, hds⟩ := forall_mem_cons.mp h
    rw [valueOfDigits, hd, ih hds]

theorem valueOfDigits_zeros (n : Nat) : valueOfDigits (replicate n 0) = 0 :=
  valueOfDigits_of_zeros fun _ hd => eq_of_mem_replicate hd

theorem valueOfDigits_pos {d : Nat} (hd : d ∈ ds) (hne : d ≠ 0) : 0 < valueOfDigits ds := by
  induction hd with
  | head ds =>
    rw [valueOfDigits]
    omega
  | tail e hd ih =>
    rw [valueOfDigits]
    omega

theorem roundedDigits_spec (h : ∀ d ∈ ds, d < 10) (significantDigits : Nat) :
    ∃ m, valueOfDigits (roundedDigits ds significantDigits)
        = 10 ^ (ds.length - significantDigits) * m
      ∧ valueOfDigits ds ≤ 10 ^ (ds.length - significantDigits) * m
      ∧ 10 ^ (ds.length - significantDigits) * m
        < valueOfDigits ds + 10 ^ (ds.length - significantDigits) := by
  unfold roundedDigits
  generalize hcut : ds.length - significantDigits = cut
  have hlength : (ds.take cut).length = cut := by
    rw [length_take]
    omega
  have hsplit : valueOfDigits ds
      = valueOfDigits (ds.take cut) + 10 ^ cut * valueOfDigits (ds.drop cut) := by
    conv_lhs => rw [← take_append_drop cut ds, valueOfDigits_append, hlength]
  rw [valueOfDigits_append, valueOfDigits_zeros, length_replicate, Nat.zero_add]
  refine ⟨_, rfl, ?_⟩
  rw [hsplit]
  split
  · -- what was cut off is less than one unit of the last significant digit, and not nothing
    next hsome =>
    have hdigits : ∀ d ∈ ds.take cut, d < 10 := fun d hd => h d (mem_of_mem_take hd)
    have hlow := valueOfDigits_lt hdigits
    have hpos : 0 < valueOfDigits (ds.take cut) := by
      obtain ⟨d, hd, hne⟩ := any_eq_true.mp hsome
      exact valueOfDigits_pos hd (of_decide_eq_true hne)
    rw [hlength] at hlow
    rw [valueOfDigits_bumpDigits, mul_add]
    omega
  · next hnone =>
    have hlow : valueOfDigits (ds.take cut) = 0 := by
      refine valueOfDigits_of_zeros fun d hd => ?_
      by_contra hne
      exact hnone (any_eq_true.mpr ⟨d, hd, by simpa using hne⟩)
    have hunit : 0 < 10 ^ cut := by positivity
    omega

theorem pow_length_decimalDigits_le (fuel : Nat) {n : Nat} (h : 0 < n) :
    10 ^ (decimalDigits fuel n).length ≤ 10 * n := by
  induction fuel generalizing n with
  | zero => simpa [decimalDigits] using by omega
  | succ fuel ih =>
    unfold decimalDigits
    split
    · rw [length_singleton]
      omega
    · have := ih (n := n / 10) (by omega)
      rw [length_cons, pow_succ]
      omega

/-- A number with at most so many significant digits: these, and zeros after them. -/
def Significant (digits n : Nat) : Prop :=
  ∃ m k, m < 10 ^ digits ∧ n = m * 10 ^ k

theorem isLeast_roundedDigits {amount digits : Nat} (h : amount < 2 ^ 64) (hd : 1 ≤ digits) :
    IsLeast {n | amount ≤ n ∧ Significant digits n}
      (valueOfDigits (roundedDigits (decimalDigits 20 amount) digits)) := by
  have hlead := pow_length_decimalDigits_le 20 (n := amount)
  have hdigits : ∀ d ∈ decimalDigits 20 amount, d < 10 := fun d hd => decimalDigits_lt hd
  have hsize := valueOfDigits_lt hdigits
  obtain ⟨m, hr, hle, hlt⟩ := roundedDigits_spec hdigits digits
  rw [valueOfDigits_decimalDigits (h.trans (by decide))] at hsize hle hlt
  rw [hr]
  generalize (decimalDigits 20 amount).length = length at *
  generalize hcut : length - digits = cut at *
  have hunit : 0 < 10 ^ cut := by positivity
  refine ⟨⟨hle, ?_⟩, ?_⟩
  · -- a carry through all digits leaves a 1 with zeros after it
    have hm : 10 ^ cut * m < 10 ^ cut * (10 ^ digits + 1) := by
      have : 10 ^ length ≤ 10 ^ (cut + digits) := pow_le_pow_right₀ (by decide) (by omega)
      rw [pow_add] at this
      rw [mul_add]
      omega
    rcases (le_of_lt_succ (Nat.lt_of_mul_lt_mul_left hm)).lt_or_eq with hm | rfl
    · exact ⟨m, cut, hm, mul_comm _ _⟩
    · exact ⟨1, cut + digits, Nat.one_lt_pow (by omega) (by decide), by rw [pow_add, one_mul]⟩
  · rintro n ⟨hn, m', k, hm', rfl⟩
    rcases Nat.eq_zero_or_pos amount with rfl | hpos
    · rw [Nat.zero_add] at hlt
      rw [lt_one_iff.mp (Nat.lt_of_mul_lt_mul_left (hlt.trans_eq (mul_one _).symm))]
      exact Nat.zero_le _
    rcases le_or_gt cut k with hk | hk
    · -- another multiple of the unit
      obtain ⟨q, hq⟩ : 10 ^ cut ∣ m' * 10 ^ k := (pow_dvd_pow 10 hk).mul_left m'
      rw [hq] at hn ⊢
      have hlt : 10 ^ cut * m < 10 ^ cut * (q + 1) := by
        rw [mul_add]
        omega
      exact Nat.mul_le_mul_left _ (le_of_lt_succ (Nat.lt_of_mul_lt_mul_left hlt))
    · -- a number with fewer zeros is below the first digit of the amount
      have hshort : m' * 10 ^ k < 10 ^ (length - 1) := by
        calc m' * 10 ^ k < 10 ^ digits * 10 ^ k := Nat.mul_lt_mul_of_pos_right hm' (by positivity)
          _ = 10 ^ (digits + k) := (pow_add 10 digits k).symm
          _ ≤ 10 ^ (length - 1) := pow_le_pow_right₀ (by decide) (by omega)
      have hlead := hlead hpos
      rw [← Nat.sub_add_cancel (show 1 ≤ length by omega), pow_succ] at hlead
      omega

theorem le_of_roundMoneyUp {amount significantDigits rounded : Nat} (h : amount < 2 ^ 64)
    (hr : roundMoneyUp amount significantDigits = some rounded) : amount ≤ rounded := by
  unfold roundMoneyUp at hr
  dsimp only at hr
  split at hr
  · cases hr
  · next hthrows =>
    cases hr
    exact (isLeast_roundedDigits h (by omega)).1.1

/-- The result is the least number from the amount on that has no more significant digits; it throws
exactly if that is not a number of 64 bits. -/
theorem round_money_up_least {amount digits : Nat} (h : amount < 2 ^ 64) (hd : 1 ≤ digits) :
    ∃ least, IsLeast {n | amount ≤ n ∧ Significant digits n} least
      ∧ roundMoneyUp amount digits = if least < 2 ^ 64 then some least else none := by
  have hleast := isLeast_roundedDigits h hd
  have hle := hleast.1.1
  refine ⟨_, hleast, ?_⟩
  unfold roundMoneyUp
  dsimp only
  split
  · rw [if_neg (by omega)]
  · rw [if_pos (by omega)]

theorem round_money_up_least_sample :
    ∃ least, IsLeast {n | 19999 ≤ n ∧ Significant 2 n} least
      ∧ roundMoneyUp 19999 2 = if least < 2 ^ 64 then some least else none :=
  round_money_up_least (by decide) (by decide)

/-! ## Amounts as texts -/

def defaultDecimalPoint : Nat := 12

/-- `std::to_string`, then `insert_money_decimal_point`. -/
def printMoney (amount : Nat) : List Char :=
  let s := ((decimalDigits 20 amount).map digitChar).reverse
  let s := replicate (defaultDecimalPoint + 1 - s.length) '0' ++ s
  let point := s.length - defaultDecimalPoint
  s.take point ++ '.' :: s.drop point

/-- `std::isspace`, by which `boost::algorithm::trim` goes. -/
def isSpace (c : Char) : Bool :=
  c ∈ [' ', '\t', '\n', '\x0b', '\x0c', '\r']

def trim (s : List Char) : List Char :=
  (s.dropWhile isSpace).rdropWhile isSpace

def valueOfText (s : List Char) : Nat :=
  valueOfDigits (s.reverse.map fun c => c.toNat - '0'.toNat)

/-- `get_xtype_from_string`: digits only, and what `boost::lexical_cast` makes of them. -/
def getXtypeFromString (s : List Char) : Option Nat :=
  if s.all Char.isDigit ∧ s ≠ [] ∧ valueOfText s < 2 ^ 64 then some (valueOfText s) else none

/-- Zeros at the end of the fraction go as long as it is too long. The last digit comes first. -/
def eraseZeros : List Char → List Char
  | [] => []
  | c :: cs =>
    if defaultDecimalPoint < (c :: cs).length ∧ c = '0' then eraseZeros cs else c :: cs

/-- `parse_amount` of what is before the first point and what is after it. -/
def parseParts (whole fraction : List Char) : Option Nat :=
  let fraction := (eraseZeros fraction.reverse).reverse
  if defaultDecimalPoint < fraction.length ∨ whole ++ fraction = [] then none
  else getXtypeFromString
    (whole ++ fraction ++ replicate (defaultDecimalPoint - fraction.length) '0')

def parseAmount (strAmount : List Char) : Option Nat :=
  let strAmount := trim strAmount
  let whole := strAmount.takeWhile (· ≠ '.')
  parseParts whole (strAmount.drop (whole.length + 1))

/-- An amount in its parts: digits, not more of them in the fraction than there are decimals, zeros
at the end aside, for a number of 64 bits. -/
structure Reads (whole fraction : List Char) (amount : Nat) : Prop where
  digits : ∀ c ∈ whole ++ fraction, c.isDigit
  ne_nil : whole ++ fraction ≠ []
  decimals : (fraction.rdropWhile (· = '0')).length ≤ defaultDecimalPoint
  value : amount * 10 ^ fraction.length = valueOfText (whole ++ fraction) * 10 ^ defaultDecimalPoint
  fits : amount < 2 ^ 64

def IsAmount (text : List Char) (amount : Nat) : Prop :=
  ∃ whole fraction, (text = whole ∧ fraction = [] ∨ text = whole ++ '.' :: fraction)
    ∧ Reads whole fraction amount

theorem valueOfText_append_zeros (s : List Char) (n : Nat) :
    valueOfText (s ++ replicate n '0') = valueOfText s * 10 ^ n := by
  simp only [valueOfText, reverse_append, reverse_replicate, map_append, map_replicate,
    Nat.sub_self, valueOfDigits_append, valueOfDigits_zeros, length_replicate]
  ring

theorem eraseZeros_spec (cs : List Char) :
    ((eraseZeros cs).length ≤ defaultDecimalPoint
      ↔ (cs.dropWhile (· = '0')).length ≤ defaultDecimalPoint)
    ∧ ∃ n, cs = replicate n '0' ++ eraseZeros cs
      ∧ (n = 0 ∨ defaultDecimalPoint ≤ (eraseZeros cs).length) := by
  induction cs with
  | nil => exact ⟨Iff.rfl, 0, rfl, .inl rfl⟩
  | cons c cs ih =>
    unfold eraseZeros
    split
    · next h =>
      obtain ⟨hlong, rfl⟩ := h
      obtain ⟨hiff, n, hn, hlength⟩ := ih
      refine ⟨hiff, n + 1, congrArg _ hn, .inr ?_⟩
      rcases hlength with rfl | hlength
      · rw [← show cs = eraseZeros cs from hn]
        exact le_of_lt_succ hlong
      · exact hlength
    · next h =>
      refine ⟨?_, 0, rfl, .inl rfl⟩
      by_cases hc : c = '0'
      · have hshort : (c :: cs).length ≤ defaultDecimalPoint := not_lt.mp fun hlong => h ⟨hlong, hc⟩
        exact iff_of_true hshort ((dropWhile_suffix _).length_le.trans hshort)
      · rw [dropWhile_cons_of_neg (by simpa using hc)]

theorem parseParts_eq_some (whole fraction : List Char) (amount : Nat) :
    parseParts whole fraction = some amount ↔ Reads whole fraction amount := by
  obtain ⟨kept, hkept⟩ : ∃ kept, kept = (eraseZeros fraction.reverse).reverse := ⟨_, rfl⟩
  obtain ⟨hiff, n, hzeros, hn⟩ := eraseZeros_spec fraction.reverse
  have hdecimals : kept.length ≤ defaultDecimalPoint
      ↔ (fraction.rdropWhile (· = '0')).length ≤ defaultDecimalPoint := by
    rw [hkept, length_reverse, rdropWhile, length_reverse]
    exact hiff
  rw [← length_reverse, ← hkept] at hn
  have hfraction : fraction = kept ++ replicate n '0' := by
    rw [← reverse_reverse fraction, hzeros, reverse_append, reverse_replicate, hkept]
  have hnil : whole ++ fraction = [] ↔ whole ++ kept = [] := by
    rw [hfraction]
    rcases hn with rfl | hn
    · rw [replicate_zero, append_nil]
    · have : kept ≠ [] := by
        rintro rfl
        exact absurd hn (by decide)
      simp [this]
  have hdigits (k : Nat) : (∀ c ∈ whole ++ fraction, c.isDigit)
      ↔ (whole ++ kept ++ replicate k '0').all Char.isDigit := by
    rw [hfraction]
    simp +contextual [or_imp, forall_and, mem_replicate]
  have hvalue (hshort : kept.length ≤ defaultDecimalPoint) :
      valueOfText (whole ++ kept ++ replicate (defaultDecimalPoint - kept.length) '0')
        = amount ↔ amount * 10 ^ fraction.length
        = valueOfText (whole ++ fraction) * 10 ^ defaultDecimalPoint := by
    obtain ⟨m, hm⟩ := Nat.exists_eq_add_of_le hshort
    rw [hfraction, ← append_assoc, valueOfText_append_zeros, valueOfText_append_zeros, hm,
      Nat.add_sub_cancel_left, length_append, length_replicate, eq_comm,
      ← Nat.mul_left_inj (show 10 ^ (kept.length + n) ≠ 0 by positivity)]
    ring_nf
  unfold parseParts getXtypeFromString
  rw [← hkept]
  dsimp only
  rw [Option.ite_none_left_eq_some, Option.ite_none_right_eq_some, Option.some.injEq, not_or,
    not_lt, ← hdigits, ← hnil]
  constructor
  · rintro ⟨⟨hshort, hne⟩, ⟨hall, -, hfits⟩, hamount⟩
    exact ⟨hall, hne, hdecimals.mp hshort, (hvalue hshort).mp hamount, hamount ▸ hfits⟩
  · rintro ⟨hall, hne, hlength, hamount, hfits⟩
    have hshort := hdecimals.mpr hlength
    have hamount := (hvalue hshort).mpr hamount
    refine ⟨⟨hshort, hne⟩, ⟨hall, ?_, hamount ▸ hfits⟩, hamount⟩
    exact fun h => hne (hnil.mpr (append_eq_nil_iff.mp h).1)

theorem parseAmount_eq_some (s : List Char) (amount : Nat) :
    parseAmount s = some amount ↔ IsAmount (trim s) amount := by
  unfold parseAmount
  dsimp only
  rw [parseParts_eq_some]
  generalize trim s = text
  constructor
  · intro h
    refine ⟨_, _, ?_, h⟩
    have hsplit := takeWhile_append_dropWhile (p := (· ≠ '.')) (l := text)
    cases hrest : text.dropWhile (· ≠ '.') with
    | nil =>
      rw [hrest, append_nil] at hsplit
      rw [hsplit]
      exact .inl ⟨rfl, drop_eq_nil_of_le (Nat.le_succ _)⟩
    | cons c rest =>
      have hc := head?_dropWhile_not (· ≠ '.') text
      rw [hrest] at hc
      obtain rfl : c = '.' := by simpa using hc
      rw [hrest] at hsplit
      generalize text.takeWhile (· ≠ '.') = whole at hsplit ⊢
      rw [← hsplit, ← drop_drop, drop_left]
      exact .inr rfl
  · rintro ⟨whole, fraction, hsplit, h⟩
    have hwhole : ∀ c ∈ whole, decide (c ≠ '.') = true := by
      intro c hc
      have hdigit := h.digits c (mem_append_left _ hc)
      refine decide_eq_true ?_
      rintro rfl
      exact absurd hdigit (by decide)
    rcases hsplit with ⟨rfl, rfl⟩ | rfl
    · rwa [takeWhile_eq_self_iff.mpr hwhole, drop_eq_nil_of_le (Nat.le_succ _)]
    · rwa [takeWhile_append_of_pos hwhole, takeWhile_cons_of_neg (by decide), append_nil,
        ← drop_drop, drop_left, drop_one, tail_cons]

theorem digitChar_spec : ∀ d < 10, (digitChar d).isDigit ∧ (digitChar d).toNat - '0'.toNat = d := by
  decide

theorem isSpace_of_isDigit {c : Char} (h : c.isDigit) : ¬ isSpace c := by
  intro hspace
  simp only [isSpace, mem_cons, not_mem_nil, or_false, decide_eq_true_eq] at hspace
  rcases hspace with rfl | rfl | rfl | rfl | rfl | rfl <;> exact absurd h (by decide)

theorem trim_eq_self {s : List Char} (h : ∀ c ∈ s, ¬ isSpace c) : trim s = s := by
  unfold trim
  rw [dropWhile_eq_self_iff.mpr fun hpos => h _ (getElem_mem hpos),
    rdropWhile_eq_self_iff.mpr fun hne => h _ (getLast_mem hne)]

theorem parseAmount_printMoney {amount : Nat} (h : amount < 2 ^ 64) :
    parseAmount (printMoney amount) = some amount := by
  have hsize : amount < 10 ^ 20 := h.trans (by decide)
  unfold printMoney
  dsimp only
  generalize hs : replicate _ '0' ++ ((decimalDigits 20 amount).map digitChar).reverse = s
  have hlength : defaultDecimalPoint < s.length := by
    rw [← hs, length_append, length_replicate]
    omega
  have hdigits : ∀ c ∈ s, c.isDigit := by
    intro c hc
    rw [← hs, mem_append, mem_reverse, mem_map] at hc
    rcases hc with hc | ⟨d, hd, rfl⟩
    · rw [eq_of_mem_replicate hc]
      rfl
    · exact (digitChar_spec d (decimalDigits_lt hd)).1
  have hvalue : valueOfText s = amount := by
    have hmap : (decimalDigits 20 amount).map (fun d => (digitChar d).toNat - '0'.toNat)
        = decimalDigits 20 amount :=
      map_congr_left (fun d hd => (digitChar_spec d (decimalDigits_lt hd)).2) |>.trans (map_id _)
    rw [← hs, valueOfText, reverse_append, reverse_reverse, reverse_replicate, map_append, map_map,
      map_replicate, Nat.sub_self, valueOfDigits_append, valueOfDigits_zeros, mul_zero,
      Nat.add_zero]
    exact (congrArg _ hmap).trans (valueOfDigits_decimalDigits hsize)
  rw [parseAmount_eq_some, trim_eq_self]
  · refine ⟨_, _, .inr rfl, ?_⟩
    have hfraction : (s.drop (s.length - defaultDecimalPoint)).length
        = defaultDecimalPoint := by
      rw [length_drop]
      omega
    refine ⟨by rwa [take_append_drop], ?_, ?_, ?_, h⟩
    · rw [take_append_drop]
      exact ne_nil_of_length_pos (by omega)
    · exact ( rdropWhile_prefix _ _).length_le.trans_eq hfraction
    · rw [take_append_drop, hvalue, hfraction]
  · intro c hc
    rcases mem_append.mp hc with hc | hc
    · exact isSpace_of_isDigit (hdigits c (mem_of_mem_take hc))
    · rcases mem_cons.mp hc with rfl | hc
      · decide
      · exact isSpace_of_isDigit (hdigits c (mem_of_mem_drop hc))

/-- An accepted text is one of an amount, blanks aside, and is read as that amount. What is printed
is read again. -/
theorem parse_amount_exact :
    (∀ s amount, parseAmount s = some amount ↔ IsAmount (trim s) amount)
      ∧ ∀ amount : UInt64, parseAmount (printMoney amount.toNat) = some amount.toNat :=
  ⟨parseAmount_eq_some, fun amount => parseAmount_printMoney amount.toNat_lt⟩

end Glaciem.Chain
