/-
  Core/FixedPoint.lean --- fixed decimals as text.

  Source: `Fixed::from_decimal` and `Fixed::to_decimal` of `include/fastmm/core/fixed_point.hpp`.

  A string is a list of its characters.  Both loops of `from_decimal` refuse before a value leaves
  64 bits, so the values here are exact; a branch that refuses is `none`.
-/
import FastMM.Core.Instrument
import FastMM.Foundation.Numerals
import Mathlib.Data.List.TakeWhile
set_option autoImplicit false

namespace FastMM.Fixed

open Foundation List

def kFixedDecimals : Nat := 8

def kMaxDecimalChars : Nat := 24

/-- `std::numeric_limits<std::int64_t>::max()`. -/
def kMax : Nat := 9223372036854775807

/-- `kMaxInt` of `from_decimal`. -/
def kMaxInt : Nat := kMax / 100000000

/-- The sign a parser reads first. -/
def takeSign : List Char → Bool × List Char
  | [] => (false, [])
  | c :: s => if c = '-' then (true, s) else if c = '+' then (false, s) else (false, c :: s)

/-- The value of a character from `'0'` to `'9'`. -/
def digitOf (c : Char) : Option Nat := if c.isDigit then some (digitVal c) else none

/-- The loop over the integer part: its value, how many digits it has, and what is left. -/
def intPart : List Char → Nat → Nat → Option (Nat × Nat × List Char)
  | [], ip, n => some (ip, n, [])
  | c :: s, ip, n =>
    if c = '.' then some (ip, n, c :: s)
    else
      match digitOf c with
      | none => none
      | some d => if (kMaxInt - d) / 10 < ip then none else intPart s (ip * 10 + d) (n + 1)

/-- The loop over the fraction: its value and how many digits count. -/
def fracPart : List Char → Nat → Nat → Option (Nat × Nat)
  | [], fp, n => some (fp, n)
  | c :: s, fp, n =>
    match digitOf c with
    | none => none
    | some d =>
      if n < kFixedDecimals then fracPart s (fp * 10 + d) (n + 1)
      else if d ≠ 0 then none
      else fracPart s fp n

def fromDecimal (s : List Char) : Option Int :=
  if s = [] then none
  else
    let (neg, s) := takeSign s
    match intPart s 0 0 with
    | none => none
    | some (ip, intDigits, rest) =>
      match fracPart (rest.drop 1) 0 0 with
      | none => none
      | some (fp, fracDigits) =>
        if intDigits = 0 ∧ fracDigits = 0 then none
        else
          let fp := fp * 10 ^ (kFixedDecimals - fracDigits)
          let mag := ip * 100000000
          if kMax - fp < mag then none else some (withSign neg (mag + fp))

/-- The digits of an integer part, the last first; `tmp` has room for twenty. -/
def tmpDigits : Nat → Nat → List Char
  | 0, _ => []
  | room + 1, v => digitChar (v % 10) :: if v / 10 = 0 then [] else tmpDigits room (v / 10)

/-- The last digits of a number, as many as asked for. -/
def fracDigits : Nat → Nat → List Char
  | 0, _ => []
  | k + 1, fp => fracDigits k (fp / 10) ++ [digitChar (fp % 10)]

/-- `to_decimal`, the characters it writes. -/
def toDecimal (raw : Int) : List Char :=
  let mag := raw.natAbs
  let ip := mag / 100000000
  let fp := mag % 100000000
  (if raw < 0 then ['-'] else []) ++ (tmpDigits 20 ip).reverse ++
    if fp ≠ 0 then
      '.' :: (((fracDigits kFixedDecimals fp).reverse.dropWhile (· = '0')).reverse)
    else []

/-! ## The loops -/

section Loops

variable {c : Char} {ints fracs u : List Char} {ip fp n : Nat}

theorem digitOf_digit (h : c.isDigit = true) : digitOf c = some (digitVal c) := if_pos h

theorem digitOf_other (h : ¬ c.isDigit = true) : digitOf c = none := if_neg h

theorem kMaxInt_eq : kMaxInt = 92233720368 := by decide

/-- The integer part is read off unless it leaves the range. -/
theorem intPart_digits (hd : Digits ints) (hip : ip ≤ kMaxInt) : intPart (ints ++ u) ip n =
      if ip * 10 ^ ints.length + numeral ints ≤ kMaxInt then
        intPart u (ip * 10 ^ ints.length + numeral ints) (n + ints.length)
      else none := by
  induction ints generalizing ip n with
  | nil =>
    have hsame : ip * 10 ^ ([] : List Char).length + numeral [] = ip := by
      show ip * 1 + 0 = ip
      omega
    rw [hsame, if_pos hip]
    rfl
  | cons c ints ih =>
    have hc := hd.head
    have hval := digitVal_lt hc
    have hdot : ¬ c = '.' := by
      rintro rfl
      exact absurd hc (by decide)
    have hK := kMaxInt_eq
    have htotal : ip * 10 ^ (c :: ints).length + numeral (c :: ints) =
        (ip * 10 + digitVal c) * 10 ^ ints.length + numeral ints := by
      rw [numeral_cons, length_cons, pow_succ]
      ring
    have hlen : n + (c :: ints).length = n + 1 + ints.length := by
      rw [length_cons]
      omega
    rw [htotal, hlen]
    show (if c = '.' then _ else _) = _
    rw [if_neg hdot, digitOf_digit hc]
    show (if (kMaxInt - digitVal c) / 10 < ip then none
      else intPart (ints ++ u) (ip * 10 + digitVal c) (n + 1)) = _
    by_cases hover : (kMaxInt - digitVal c) / 10 < ip
    · have hscaled : (ip * 10 + digitVal c) * 1 ≤ (ip * 10 + digitVal c) * 10 ^ ints.length :=
        Nat.mul_le_mul_left _ (Nat.one_le_pow _ _ (by decide))
      rw [if_pos hover, if_neg (by omega)]
    · rw [if_neg hover]
      exact ih hd.tail (by omega)

theorem intPart_other (hdot : c ≠ '.') (hc : ¬ c.isDigit = true) :
    intPart (c :: u) ip n = none := by
  show (if c = '.' then _ else _) = _
  rw [if_neg hdot, digitOf_other hc]

/-- Of a fraction the first digits count, and those behind have to be zeros. -/
theorem fracPart_digits (hd : Digits fracs) (hn : n ≤ kFixedDecimals) : fracPart fracs fp n =
      if numeral (fracs.drop (kFixedDecimals - n)) = 0 then
        some (fp * 10 ^ (fracs.take (kFixedDecimals - n)).length +
          numeral (fracs.take (kFixedDecimals - n)),
          n + (fracs.take (kFixedDecimals - n)).length)
      else none := by
  induction fracs generalizing fp n with
  | nil =>
    simp only [drop_nil, take_nil, length_nil, pow_zero, mul_one, add_zero]
    rfl
  | cons c fracs ih =>
    have hc := hd.head
    unfold fracPart
    rw [digitOf_digit hc]
    simp only
    by_cases hroom : n < kFixedDecimals
    · obtain ⟨k, hk⟩ : ∃ k, kFixedDecimals - n = k + 1 := ⟨kFixedDecimals - n - 1, by omega⟩
      have hk' : kFixedDecimals - (n + 1) = k := by omega
      rw [if_pos hroom, ih hd.tail hroom, hk, hk', drop_succ_cons, take_succ_cons,
        numeral_cons, length_cons]
      have hvalue : (fp * 10 + digitVal c) * 10 ^ (fracs.take k).length + numeral (fracs.take k) =
          fp * 10 ^ ((fracs.take k).length + 1) +
            (digitVal c * 10 ^ (fracs.take k).length + numeral (fracs.take k)) := by
        rw [pow_succ]
        ring
      have hcount : n + 1 + (fracs.take k).length = n + ((fracs.take k).length + 1) := by omega
      rw [hvalue, hcount]
    · have hfull : kFixedDecimals - n = 0 := by omega
      rw [if_neg hroom, ih hd.tail hn, hfull, drop_zero, drop_zero, take_zero,
        take_zero, numeral_cons]
      by_cases hzero : digitVal c = 0
      · rw [if_neg (not_not.mpr hzero), hzero, zero_mul, zero_add]
      have hpos : ¬ digitVal c * 10 ^ fracs.length + numeral fracs = 0 := by
        have hpow : 0 < digitVal c * 10 ^ fracs.length :=
          Nat.mul_pos (Nat.pos_of_ne_zero hzero) (by positivity)
        omega
      rw [if_pos hzero, if_neg hpos]

/-- A fraction with another character is refused. -/
theorem fracPart_other (hd : ¬ Digits u) : fracPart u fp n = none := by
  induction u generalizing fp n with
  | nil => exact absurd (fun _ hc => absurd hc not_mem_nil) hd
  | cons c u ih =>
    unfold fracPart
    by_cases hc : c.isDigit = true
    · have hrest : ¬ Digits u := fun hu => hd (forall_mem_cons.mpr ⟨hc, hu⟩)
      rw [digitOf_digit hc]
      simp only
      split
      · exact ih hrest
      · split
        · rfl
        · exact ih hrest
    · rw [digitOf_other hc]

end Loops

/-! ## What is accepted -/

section Accepted

variable {s t ints fracs : List Char} {neg : Bool} {r : Int}

theorem takeSign_cons (c : Char) (s : List Char) : takeSign (c :: s) =
      if c = '-' then (true, s) else if c = '+' then (false, s) else (false, c :: s) := rfl

theorem takeSign_signed (s : List Char) : Signed (takeSign s).1 s (takeSign s).2 := by
  cases s with
  | nil => exact .none []
  | cons c s =>
    rw [takeSign_cons]
    by_cases hminus : c = '-'
    · rw [if_pos hminus, hminus]
      exact .minus s
    by_cases hplus : c = '+'
    · rw [if_neg hminus, if_pos hplus, hplus]
      exact .plus s
    · rw [if_neg hminus, if_neg hplus]
      exact .none (c :: s)

/-- No sign stands at the front. -/
def Unsigned (t : List Char) : Prop := ∀ c, t.head? = some c → c ≠ '-' ∧ c ≠ '+'

theorem takeSign_eq (hs : Signed neg s t) (ht : Unsigned t) : takeSign s = (neg, t) := by
  cases hs with
  | none =>
    cases s with
    | nil => rfl
    | cons c s =>
      obtain ⟨hminus, hplus⟩ := ht c rfl
      rw [takeSign_cons, if_neg hminus, if_neg hplus]
  | plus => rfl
  | minus => rfl

theorem Unsigned.of_digit {c : Char} (hc : c.isDigit = true) (u : List Char) :
    Unsigned (c :: u) := by
  intro c' hc'
  have hsame : c = c' := Option.some.inj hc'
  rw [← hsame]
  constructor <;> rintro rfl <;> exact absurd hc (by decide)

theorem unsigned_pointed {rest : List Char} (hp : Foundation.Pointed ints fracs rest t)
    (hi : Digits ints) (hrest : Unsigned rest) : Unsigned t := by
  cases ints with
  | cons c ints =>
    cases hp with
    | whole => exact Unsigned.of_digit hi.head _
    | point => exact Unsigned.of_digit hi.head _
  | nil =>
    cases hp with
    | whole => exact hrest
    | point =>
      intro c hc
      have hsame : '.' = c := Option.some.inj hc
      rw [← hsame]
      exact ⟨by decide, by decide⟩

/-- The raw value of digits about a point. -/
def rawValue (ints fracs : List Char) : Nat :=
  numeral ints * 100000000 +
    numeral (fracs.take kFixedDecimals) * 10 ^ (kFixedDecimals - (fracs.take kFixedDecimals).length)

theorem fracs_lt (hf : Digits fracs) :
    numeral (fracs.take kFixedDecimals) * 10 ^ (kFixedDecimals - (fracs.take kFixedDecimals).length)
      < 100000000 := by
  have hlt := numeral_lt (fun c hc => hf c (mem_of_mem_take hc) :
    Digits (fracs.take kFixedDecimals))
  have hlen : (fracs.take kFixedDecimals).length ≤ kFixedDecimals := by
    rw [length_take]
    exact min_le_left _ _
  generalize (fracs.take kFixedDecimals).length = n at hlt hlen ⊢
  calc numeral (fracs.take kFixedDecimals) * 10 ^ (kFixedDecimals - n)
      < 10 ^ n * 10 ^ (kFixedDecimals - n) := Nat.mul_lt_mul_of_pos_right hlt (by positivity)
    _ = 10 ^ kFixedDecimals := by rw [← pow_add, Nat.add_sub_cancel' hlen]
    _ = 100000000 := by decide

/-- What `from_decimal` makes of digits with at most one point among them. -/
theorem fromDecimal_pointed (hs : Signed neg s t) (hp : Foundation.Pointed ints fracs [] t)
    (hi : Digits ints) (hf : Digits fracs) :
    fromDecimal s = some r ↔ ints ++ fracs ≠ [] ∧ numeral (fracs.drop kFixedDecimals) = 0 ∧
      rawValue ints fracs ≤ kMax ∧ r = withSign neg (rawValue ints fracs) := by
  have hsign := takeSign_eq hs (unsigned_pointed hp hi fun c hc => nomatch hc)
  obtain ⟨u, ht, hu, hstop⟩ : ∃ u, t = ints ++ u ∧ u.drop 1 = fracs ∧
      ∀ ip n, intPart u ip n = some (ip, n, u) := by
    cases hp with
    | whole => exact ⟨[], rfl, rfl, fun _ _ => rfl⟩
    | point =>
      refine ⟨'.' :: fracs, by rw [append_nil], rfl, fun ip n => ?_⟩
      exact if_pos rfl
  have hempty : s = [] → ints ++ fracs = [] := by
    rintro rfl
    have hnil : t = [] := by
      cases hs
      rfl
    rw [hnil] at ht
    obtain ⟨hi0, hu0⟩ := append_eq_nil_iff.mp ht.symm
    rw [hi0, ← hu, hu0]
    rfl
  have hread : intPart (ints ++ u) 0 0 =
      if numeral ints ≤ kMaxInt then some (numeral ints, ints.length, u) else none := by
    rw [intPart_digits hi (Nat.zero_le _), zero_mul, zero_add, zero_add, hstop]
  have hfrac := @fracPart_digits fracs 0 0 hf (Nat.zero_le kFixedDecimals)
  rw [Nat.sub_zero, zero_mul, zero_add, zero_add] at hfrac
  have hlt := fracs_lt hf
  unfold fromDecimal
  split_ifs with hnil
  · exact ⟨nofun, fun h => absurd (hempty hnil) h.1⟩
  rw [hsign]
  simp only
  rw [ht, hread]
  by_cases hfits : numeral ints ≤ kMaxInt
  swap
  · rw [if_neg hfits]
    have hbeyond : kMax < rawValue ints fracs := by
      rw [kMaxInt_eq] at hfits
      unfold rawValue kMax
      omega
    exact ⟨nofun, fun h => absurd h.2.2.1 (not_le.mpr hbeyond)⟩
  rw [if_pos hfits]
  simp only
  rw [hu, hfrac]
  by_cases hexact : numeral (fracs.drop kFixedDecimals) = 0
  swap
  · rw [if_neg hexact]
    exact ⟨nofun, fun h => absurd h.2.1 hexact⟩
  rw [if_pos hexact]
  simp only
  have hnone : (ints.length = 0 ∧ (fracs.take kFixedDecimals).length = 0) ↔ ints ++ fracs = [] := by
    rw [append_eq_nil_iff, length_eq_zero_iff, length_eq_zero_iff, take_eq_nil_iff]
    simp [kFixedDecimals]
  have hrange : kMax - numeral (fracs.take kFixedDecimals) *
      10 ^ (kFixedDecimals - (fracs.take kFixedDecimals).length) < numeral ints * 100000000 ↔
        ¬ rawValue ints fracs ≤ kMax := by
    unfold rawValue kMax
    omega
  rw [if_congr hnone rfl rfl, if_congr hrange rfl rfl]
  by_cases hdigit : ints ++ fracs = []
  · rw [if_pos hdigit]
    exact ⟨nofun, fun h => absurd hdigit h.1⟩
  rw [if_neg hdigit]
  by_cases hle : rawValue ints fracs ≤ kMax
  · rw [if_neg (not_not.mpr hle)]
    exact ⟨fun h => ⟨hdigit, hexact, hle, (Option.some.inj h).symm⟩,
      fun h => congrArg some h.2.2.2.symm⟩
  · rw [if_pos hle]
    exact ⟨nofun, fun h => absurd h.2.2.1 hle⟩

/-- A string in digits and what follows them. -/
theorem exists_digits (t : List Char) :
    ∃ ints u, t = ints ++ u ∧ Digits ints ∧ ∀ c, u.head? = some c → ¬ c.isDigit = true := by
  refine ⟨t.takeWhile Char.isDigit, t.dropWhile Char.isDigit,
    (takeWhile_append_dropWhile).symm, fun c hc => mem_takeWhile_imp hc, ?_⟩
  intro c hc hdigit
  have hno := head?_dropWhile_not Char.isDigit t
  rw [hc] at hno
  exact absurd hdigit (by simpa using hno)

/-- What `from_decimal` accepts is digits with at most one point among them. -/
theorem pointed_of_fromDecimal (h : fromDecimal s = some r) :
    ∃ ints fracs, Foundation.Pointed ints fracs [] (takeSign s).2 ∧ Digits ints ∧ Digits fracs := by
  obtain ⟨ints, u, ht, hi, hu⟩ := exists_digits (takeSign s).2
  unfold fromDecimal at h
  split at h
  · nomatch h
  simp only [ht] at h
  rw [intPart_digits hi (Nat.zero_le _)] at h
  rw [ht]
  split at h
  · nomatch h
  rename_i hread
  split at hread
  swap
  · nomatch hread
  cases u with
  | nil => exact ⟨ints, [], .whole ints [], hi, fun c hc => absurd hc not_mem_nil⟩
  | cons c u =>
    by_cases hdot : c = '.'
    · have hrest : _ = some _ := (if_pos hdot).symm.trans hread
      obtain ⟨-, -, rfl⟩ : _ = _ ∧ _ = _ ∧ (c :: u) = _ := by simpa using hrest
      by_cases hf : Digits u
      · refine ⟨ints, u, ?_, hi, hf⟩
        rw [hdot]
        have hp := Foundation.Pointed.point ints u []
        rwa [append_nil] at hp
      · rw [drop_one, tail_cons, fracPart_other hf] at h
        nomatch h
    · simp [intPart_other hdot (hu c rfl)] at hread

/-- Digits about a point are a whole number of raw units when what stands behind the last is
zeros. -/
theorem rawValue_whole (hi : Digits ints) (hf : Digits fracs) (v : Nat) :
    (v : ℚ) = numeral (ints ++ fracs) * 10 ^ ((0 : Int) - fracs.length + kFixedDecimals) ↔
      numeral (fracs.drop kFixedDecimals) = 0 ∧ v = rawValue ints fracs := by
  rw [whole_cut (digits_append.mpr ⟨hi, hf⟩), length_append, and_comm]
  unfold rawValue
  rcases le_or_gt fracs.length kFixedDecimals with hle | hgt
  · have hkeep : ((ints.length + fracs.length : Nat) +
        min ((0 : Int) - fracs.length + kFixedDecimals) 0).toNat = (ints ++ fracs).length := by
      rw [length_append]
      omega
    have hshift : ((0 : Int) - fracs.length + kFixedDecimals).toNat =
        kFixedDecimals - fracs.length := by omega
    have hvalue : numeral (ints ++ fracs) * 10 ^ (kFixedDecimals - fracs.length) =
        numeral ints * 100000000 + numeral fracs * 10 ^ (kFixedDecimals - fracs.length) := by
      have hunit : 10 ^ fracs.length * 10 ^ (kFixedDecimals - fracs.length) = 100000000 := by
        rw [← pow_add, Nat.add_sub_cancel' hle]
        decide
      rw [numeral_append, add_mul, mul_assoc, hunit]
    rw [hkeep, hshift, take_length, drop_length, take_of_length_le hle,
      drop_of_length_le hle, hvalue]
  · have hkeep : ((ints.length + fracs.length : Nat) +
        min ((0 : Int) - fracs.length + kFixedDecimals) 0).toNat =
          ints.length + kFixedDecimals := by omega
    have hshift : ((0 : Int) - fracs.length + kFixedDecimals).toNat = 0 := by omega
    have hfull : (fracs.take kFixedDecimals).length = kFixedDecimals := by
      rw [length_take]
      omega
    rw [hkeep, hshift, take_length_add_append, drop_length_add_append, numeral_append,
      hfull, Nat.sub_self, pow_zero, mul_one, mul_one]
    rfl

/-- `from_decimal` succeeds exactly on the numerals without an exponent that are a whole number of
raw units in the range, and returns that number. -/
theorem fromDecimal_iff (s : List Char) (r : Int) :
    fromDecimal s = some r ↔ ∃ x : Decimal, x.Spells s ∧ x.exponent = none ∧
      (r : ℚ) = x.value * 10 ^ kFixedDecimals ∧ |r| ≤ kMax := by
  constructor
  · intro h
    obtain ⟨ints, fracs, hp, hi, hf⟩ := pointed_of_fromDecimal h
    obtain ⟨hdigit, hexact, hle, hr⟩ := (fromDecimal_pointed (takeSign_signed s) hp hi hf).mp h
    refine ⟨⟨(takeSign s).1, ints, fracs, none⟩,
      ⟨_, [], takeSign_signed s, hp, .none, hi, hf, hdigit⟩, rfl, ?_, ?_⟩
    · exact (Decimal.units_iff _ _ _).mpr ⟨_, hr, (rawValue_whole hi hf _).mpr ⟨hexact, rfl⟩⟩
    · rw [hr, abs_withSign]
      exact_mod_cast hle
  · rintro ⟨x, ⟨t, rest, hs, hp, hexp, hi, hf, hdigit⟩, hplain, hvalue, hrange⟩
    obtain ⟨v, hr, hv⟩ := (Decimal.units_iff _ _ _).mp hvalue
    have hrest : rest = [] := by
      rw [hplain] at hexp
      cases hexp
      rfl
    have hzero : x.exp = 0 := by
      unfold Decimal.exp
      rw [hplain]
    rw [hzero] at hv
    rw [hrest] at hp
    obtain ⟨hexact, hsame⟩ := (rawValue_whole hi hf v).mp hv
    rw [hr, abs_withSign] at hrange
    rw [fromDecimal_pointed hs hp hi hf, ← hsame]
    exact ⟨hdigit, hexact, by exact_mod_cast hrange, hr⟩

end Accepted

/-! ## What is written -/

section Written

variable {v k room fp : Nat}

/-- The digits of an integer part. -/
theorem tmpDigits_spec (hv : v < 10 ^ room) :
    Digits (tmpDigits room v).reverse ∧ numeral (tmpDigits room v).reverse = v := by
  induction room generalizing v with
  | zero =>
    have hzero : v = 0 := Nat.lt_one_iff.mp hv
    rw [hzero]
    exact ⟨fun c hc => absurd hc not_mem_nil, rfl⟩
  | succ room ih =>
    obtain ⟨hdigit, hval⟩ := digitChar_spec (Nat.mod_lt v (by decide : 10 > 0))
    have hlast : numeral [digitChar (v % 10)] = v % 10 := by
      rw [numeral_cons, hval]
      show v % 10 * 1 + 0 = v % 10
      omega
    unfold tmpDigits
    rw [reverse_cons, digits_append, numeral_append, hlast, length_singleton, pow_one]
    by_cases hdone : v / 10 = 0
    · rw [if_pos hdone]
      refine ⟨⟨fun c hc => absurd hc not_mem_nil, by simpa [Digits] using hdigit⟩, ?_⟩
      show 0 * 10 + v % 10 = v
      omega
    · have hrest : v / 10 < 10 ^ room := by
        rw [pow_succ] at hv
        omega
      obtain ⟨hd, hn⟩ := ih hrest
      rw [if_neg hdone, hn]
      exact ⟨⟨hd, by simpa [Digits] using hdigit⟩, by omega⟩

theorem tmpDigits_length (hk : 1 ≤ k) (hv : v < 10 ^ k) : (tmpDigits room v).length ≤ k := by
  induction room generalizing v k with
  | zero => exact Nat.zero_le _
  | succ room ih =>
    unfold tmpDigits
    rw [length_cons]
    by_cases hdone : v / 10 = 0
    · rw [if_pos hdone]
      exact hk
    obtain ⟨k, rfl⟩ : ∃ k', k = k' + 1 := ⟨k - 1, by omega⟩
    have hrest : v / 10 < 10 ^ k := by
      rw [pow_succ] at hv
      omega
    have hk' : 1 ≤ k := by
      by_contra hno
      rw [Nat.lt_one_iff.mp (not_le.mp hno)] at hrest
      omega
    rw [if_neg hdone]
    have hlen := ih hk' hrest
    omega

theorem tmpDigits_ne_nil : tmpDigits (room + 1) v ≠ [] := cons_ne_nil _ _

/-- The digits of a fraction. -/
theorem fracDigits_spec (hfp : fp < 10 ^ k) :
    Digits (fracDigits k fp) ∧ (fracDigits k fp).length = k ∧ numeral (fracDigits k fp) = fp := by
  induction k generalizing fp with
  | zero =>
    have hzero : fp = 0 := Nat.lt_one_iff.mp hfp
    rw [hzero]
    exact ⟨fun c hc => absurd hc not_mem_nil, rfl, rfl⟩
  | succ k ih =>
    obtain ⟨hdigit, hval⟩ := digitChar_spec (Nat.mod_lt fp (by decide : 10 > 0))
    have hrest : fp / 10 < 10 ^ k := by
      rw [pow_succ] at hfp
      omega
    obtain ⟨hd, hlen, hn⟩ := ih hrest
    unfold fracDigits
    have hlast : numeral [digitChar (fp % 10)] = fp % 10 := by
      rw [numeral_cons, hval]
      show fp % 10 * 1 + 0 = fp % 10
      omega
    rw [digits_append, length_append, numeral_append, hlen, hn, hlast, length_singleton, pow_one]
    exact ⟨⟨hd, by simpa [Digits] using hdigit⟩, rfl, by omega⟩

/-- Digits without the zeros at their end. -/
theorem exists_trimmed (ds : List Char) :
    ∃ k, ds = (ds.reverse.dropWhile (· = '0')).reverse ++ List.replicate k '0' := by
  refine ⟨(ds.reverse.takeWhile (· = '0')).length, ?_⟩
  have hzeros : (ds.reverse.takeWhile (· = '0')).reverse =
      List.replicate (ds.reverse.takeWhile (· = '0')).length '0' := by
    refine eq_replicate_iff.mpr ⟨length_reverse, fun c hc => ?_⟩
    have hc' := mem_takeWhile_imp (mem_reverse.mp hc)
    exact of_decide_eq_true hc'
  rw [← hzeros, ← reverse_append, takeWhile_append_dropWhile, reverse_reverse]

/-- What is written of a fraction, with the zeros left out. -/
theorem trimmed_spec (hfp : fp < 100000000) :
    let ds := ((fracDigits kFixedDecimals fp).reverse.dropWhile (· = '0')).reverse
    Digits ds ∧ ds.length ≤ kFixedDecimals ∧
      numeral ds * 10 ^ (kFixedDecimals - ds.length) = fp := by
  intro ds
  obtain ⟨hd, hlen, hn⟩ := fracDigits_spec (k := kFixedDecimals) hfp
  obtain ⟨k, hk⟩ : ∃ k, fracDigits kFixedDecimals fp = ds ++ List.replicate k '0' :=
    exists_trimmed _
  rw [hk] at hd hlen hn
  rw [length_append, length_replicate] at hlen
  rw [numeral_append, numeral_zeros, add_zero, length_replicate] at hn
  have hcount : kFixedDecimals - ds.length = k := by omega
  rw [hcount]
  exact ⟨(digits_append.mp hd).1, by omega, hn⟩

/-- What `to_decimal` writes: a sign, digits and, unless it is nothing, a fraction. -/
theorem toDecimal_spec {raw : Int} (hraw : |raw| ≤ kMax) :
    ∃ t ints fracs, Signed (decide (raw < 0)) (toDecimal raw) t ∧
      Foundation.Pointed ints fracs [] t ∧ Digits ints ∧ Digits fracs ∧ ints ≠ [] ∧
      fracs.length ≤ kFixedDecimals ∧ rawValue ints fracs = raw.natAbs ∧ ints.length ≤ 11 ∧
      (toDecimal raw).length ≤ 1 + (ints.length + (1 + fracs.length)) := by
  have hmag : raw.natAbs ≤ kMax := by
    rw [Int.abs_eq_natAbs] at hraw
    exact_mod_cast hraw
  have hip : raw.natAbs / 100000000 < 10 ^ 11 := by
    unfold kMax at hmag
    omega
  obtain ⟨hi, hn⟩ := tmpDigits_spec (hip.trans_le (Nat.pow_le_pow_right (by decide) (by decide)) :
    raw.natAbs / 100000000 < 10 ^ 20)
  have hlen : (tmpDigits 20 (raw.natAbs / 100000000)).reverse.length ≤ 11 := by
    rw [length_reverse]
    exact tmpDigits_length (by decide) hip
  have hne : (tmpDigits 20 (raw.natAbs / 100000000)).reverse ≠ [] :=
    fun h => tmpDigits_ne_nil (reverse_eq_nil_iff.mp h)
  have hfp : raw.natAbs % 100000000 < 100000000 := Nat.mod_lt _ (by decide)
  have hsplit : raw.natAbs / 100000000 * 100000000 + raw.natAbs % 100000000 = raw.natAbs :=
    Nat.div_add_mod' _ _
  have hsigned : ∀ t : List Char,
      Signed (decide (raw < 0)) ((if raw < 0 then ['-'] else []) ++ t) t := by
    intro t
    split_ifs with hneg
    · rw [decide_eq_true hneg]
      exact .minus t
    · rw [decide_eq_false hneg]
      exact .none t
  have hsign : (if raw < 0 then ['-'] else ([] : List Char)).length ≤ 1 := by split <;> decide
  unfold toDecimal
  simp only
  generalize (tmpDigits 20 (raw.natAbs / 100000000)).reverse = ints at hi hn hlen hne ⊢
  by_cases hfrac : raw.natAbs % 100000000 ≠ 0
  · obtain ⟨hf, hflen, hfn⟩ := trimmed_spec hfp
    rw [if_pos hfrac]
    generalize ((fracDigits kFixedDecimals (raw.natAbs % 100000000)).reverse.dropWhile
      (· = '0')).reverse = fracs at hf hflen hfn ⊢
    have hpoint := Foundation.Pointed.point ints fracs []
    rw [append_nil] at hpoint
    refine ⟨ints ++ '.' :: fracs, ints, fracs, ?_, hpoint, hi, hf, hne, hflen, ?_, hlen, ?_⟩
    · rw [append_assoc]
      exact hsigned _
    · unfold rawValue
      rw [take_of_length_le hflen, hfn, hn, hsplit]
    · simp only [length_append, length_cons]
      omega
  · have hzero : raw.natAbs % 100000000 = 0 := not_not.mp hfrac
    rw [if_neg hfrac, append_nil]
    have hwhole := Foundation.Pointed.whole ints []
    rw [append_nil] at hwhole
    refine ⟨ints, ints, [], hsigned ints, hwhole, hi, fun c hc => absurd hc not_mem_nil, hne,
      Nat.zero_le _, ?_, hlen, ?_⟩
    · unfold rawValue
      rw [hn, take_nil, show numeral [] = 0 from rfl, zero_mul, add_zero]
      rw [hzero, add_zero] at hsplit
      exact hsplit
    · simp only [length_append, length_nil]
      omega

/-- What `to_decimal` writes of a value is read as it. -/
theorem fromDecimal_toDecimal {raw : Int} (hraw : |raw| ≤ kMax) :
    fromDecimal (toDecimal raw) = some raw := by
  obtain ⟨t, ints, fracs, hs, hp, hi, hf, hne, hflen, hvalue, -, -⟩ := toDecimal_spec hraw
  rw [fromDecimal_pointed hs hp hi hf, hvalue]
  refine ⟨fun hnil => hne (append_eq_nil_iff.mp hnil).1, ?_, ?_, ?_⟩
  · rw [drop_of_length_le hflen]
    rfl
  · rw [Int.abs_eq_natAbs] at hraw
    exact_mod_cast hraw
  unfold withSign
  by_cases hneg : raw < 0
  · rw [decide_eq_true hneg, if_pos rfl]
    omega
  · rw [decide_eq_false hneg, if_neg Bool.false_ne_true]
    omega

/-- Fixed decimals are exact both ways: what `to_decimal` writes of a value fits and is read as that
value, and `from_decimal` reads exactly the numerals without an exponent that are a whole number of
raw units in the range, each as that number. -/
theorem decimal_exact : (∀ raw : Int, |raw| ≤ kMax → fromDecimal (toDecimal raw) = some raw ∧
        (toDecimal raw).length ≤ kMaxDecimalChars) ∧
      ∀ (s : List Char) (r : Int), fromDecimal s = some r ↔
        ∃ x : Decimal, x.Spells s ∧ x.exponent = none ∧
          (r : ℚ) = x.value * 10 ^ kFixedDecimals ∧ |r| ≤ kMax := by
  refine ⟨fun raw hraw => ⟨fromDecimal_toDecimal hraw, ?_⟩, fromDecimal_iff⟩
  obtain ⟨t, ints, fracs, -, -, -, -, -, hflen, -, hilen, hlen⟩ := toDecimal_spec hraw
  unfold kFixedDecimals at hflen
  unfold kMaxDecimalChars
  omega

/-- Minus one and a half. -/
theorem decimal_exact_negative : fromDecimal (toDecimal (-150000000)) = some (-150000000) ∧
      (toDecimal (-150000000)).length ≤ kMaxDecimalChars :=
  decimal_exact.1 (-150000000) (by decide)

end Written

-- Zeros past the eighth decimal are read, a digit there is refused.
example : fromDecimal "-1.500000000".toList = some (-150000000) ∧
    fromDecimal "0.000000001".toList = none := by decide +kernel

end FastMM.Fixed
