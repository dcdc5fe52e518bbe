/-
  Core/ScaledDecimal.lean --- decimals with an exponent.

  Source: `parse_scaled_decimal` and `Fixed::parse` of `include/fastmm/core/fixed_point.hpp`.

  The digits of an exponent stop counting once it has reached a hundred thousand.  That is harmless
  while such an exponent is out of range whatever the mantissa; a mantissa with nearly as many
  digits behind its point brings it back.
-/
import FastMM.Core.FixedPoint
set_option autoImplicit false

namespace FastMM.Fixed

open Foundation List

/-- What the scan of a mantissa has counted. -/
structure Scan where
  digits : Nat := 0
  fracs : Nat := 0
  dot : Bool := false
  deriving DecidableEq, Repr

/-- The digit separator of a numeric literal. -/
def separator : Char := Char.ofNat 39

/-- The scan of a mantissa: what it consists of, what was counted, and what is left. -/
def scanMantissa (literal : Bool) : List Char → Scan → List Char × Scan × List Char
  | [], m => ([], m, [])
  | c :: s, m =>
    if c.isDigit then
      let r := scanMantissa literal s
        { m with digits := m.digits + 1, fracs := if m.dot then m.fracs + 1 else m.fracs }
      (c :: r.1, r.2)
    else if c = '.' ∧ m.dot = false then
      let r := scanMantissa literal s { m with dot := true }
      (c :: r.1, r.2)
    else if literal = true ∧ c = separator then
      let r := scanMantissa literal s m
      (c :: r.1, r.2)
    else ([], m, c :: s)

/-- The loop over the digits of an exponent: its value and how many there are. -/
def scanExponent (literal : Bool) : List Char → Nat → Nat → Option (Nat × Nat)
  | [], exp, n => some (exp, n)
  | c :: s, exp, n =>
    if literal = true ∧ c = separator then scanExponent literal s exp n
    else
      match digitOf c with
      | none => none
      | some d => scanExponent literal s (if exp < 100000 then exp * 10 + d else exp) (n + 1)

/-- The exponent behind a mantissa, and whether there is one. -/
def readExponent (literal : Bool) : List Char → Option (Int × Bool)
  | [] => some (0, false)
  | c :: s =>
    if c ≠ 'e' ∧ c ≠ 'E' then none
    else
      let (neg, s) := takeSign s
      match scanExponent literal s 0 0 with
      | none => none
      | some (exp, n) => if n = 0 then none else some (withSign neg exp, true)

/-- The loop over a mantissa, of which `keep` digits count and the others have to be zeros. -/
def readMantissa (keep : Int) : List Char → Nat → Nat → Option Nat
  | [], r, _ => some r
  | c :: s, r, idx =>
    match digitOf c with
    | none => readMantissa keep s r idx
    | some d =>
      if (idx : Int) < keep then
        if (kMax - d) / 10 < r then none else readMantissa keep s (r * 10 + d) (idx + 1)
      else if d ≠ 0 then none
      else readMantissa keep s r (idx + 1)

/-- The loop that shifts a value up. -/
def scaleUp : Nat → Nat → Option Nat
  | 0, r => some r
  | k + 1, r => if r = 0 then some r else if kMax / 10 < r then none else scaleUp k (r * 10)

def parseScaledDecimal (s : List Char) (decimals : Nat) (literal : Bool) : Option Int :=
  let (neg, t) := if literal then (false, s) else takeSign s
  let (mant, m, rest) := scanMantissa literal t {}
  if m.digits = 0 then none
  else
    match readExponent literal rest with
    | none => none
    | some (exp, hasExp) =>
      if literal = true ∧ m.dot = false ∧ hasExp = false ∧ 1 < m.digits ∧ mant.head? = some '0' then
        none
      else
        let shift : Int := exp - m.fracs + decimals
        let keep : Int := m.digits + (if shift < 0 then shift else 0)
        match readMantissa keep mant 0 0 with
        | none => none
        | some r =>
          match scaleUp shift.toNat r with
          | none => none
          | some r => some (withSign neg r)

def parse (s : List Char) : Option Int := parseScaledDecimal s kFixedDecimals false

/-! ## The loops of a plain numeral -/

section Loops

variable {ds u : List Char} {m : Scan} {keep : Int} {r idx k : Nat}

theorem scanMantissa_digits (hd : Digits ds) : scanMantissa false (ds ++ u) m =
      (ds ++ (scanMantissa false u
          ⟨m.digits + ds.length, if m.dot then m.fracs + ds.length else m.fracs, m.dot⟩).1,
        (scanMantissa false u
          ⟨m.digits + ds.length, if m.dot then m.fracs + ds.length else m.fracs, m.dot⟩).2) := by
  induction ds generalizing m with
  | nil =>
    have hsame : (⟨m.digits + ([] : List Char).length,
        if m.dot then m.fracs + ([] : List Char).length else m.fracs, m.dot⟩ : Scan) = m := by
      simp
    rw [hsame]
    rfl
  | cons c ds ih =>
    have hcount : (⟨m.digits + (c :: ds).length,
        if m.dot then m.fracs + (c :: ds).length else m.fracs, m.dot⟩ : Scan) =
          ⟨m.digits + 1 + ds.length,
            if m.dot then (if m.dot then m.fracs + 1 else m.fracs) + ds.length
            else if m.dot then m.fracs + 1 else m.fracs, m.dot⟩ := by
      rw [length_cons, Scan.mk.injEq]
      refine ⟨by omega, ?_, rfl⟩
      split <;> omega
    have hstep : scanMantissa false (c :: ds ++ u) m =
        (c :: (scanMantissa false (ds ++ u)
            ⟨m.digits + 1, if m.dot then m.fracs + 1 else m.fracs, m.dot⟩).1,
          (scanMantissa false (ds ++ u)
            ⟨m.digits + 1, if m.dot then m.fracs + 1 else m.fracs, m.dot⟩).2) := if_pos hd.head
    rw [hcount, hstep, ih hd.tail]
    rfl

theorem scanMantissa_stop (hstop : ∀ c, u.head? = some c →
    ¬ c.isDigit = true ∧ (c = '.' → m.dot = true)) : scanMantissa false u m = ([], m, u) := by
  cases u with
  | nil => rfl
  | cons c u =>
    obtain ⟨hdigit, hdot⟩ := hstop c rfl
    have hpoint : ¬ (c = '.' ∧ m.dot = false) := fun h => absurd (hdot h.1) (by simp [h.2])
    show (if c.isDigit = true then _ else if c = '.' ∧ m.dot = false then _ else _) = _
    rw [if_neg hdigit, if_neg hpoint, if_neg (by simp)]

theorem readMantissa_filter (s : List Char) :
    readMantissa keep s r idx = readMantissa keep (s.filter Char.isDigit) r idx := by
  induction s generalizing r idx with
  | nil => rfl
  | cons c s ih =>
    by_cases hc : c.isDigit = true
    · rw [filter_cons_of_pos hc]
      unfold readMantissa
      rw [digitOf_digit hc]
      simp only
      rw [ih, ih]
    · rw [filter_cons_of_neg hc, ← ih]
      show (match digitOf c with | none => _ | some d => _) = _
      rw [digitOf_other hc]

/-- A mantissa is read when the digits that count stay in the range and the others are zeros. -/
theorem readMantissa_digits (hd : Digits ds) (hr : r ≤ kMax) : readMantissa keep ds r idx =
      if r * 10 ^ (ds.take (keep - idx).toNat).length + numeral (ds.take (keep - idx).toNat) ≤
          kMax ∧ numeral (ds.drop (keep - idx).toNat) = 0 then
        some (r * 10 ^ (ds.take (keep - idx).toNat).length + numeral (ds.take (keep - idx).toNat))
      else none := by
  induction ds generalizing r idx with
  | nil =>
    have hsame : r * 10 ^ (([] : List Char).take (keep - idx).toNat).length +
        numeral (([] : List Char).take (keep - idx).toNat) = r := by
      rw [take_nil]
      show r * 1 + 0 = r
      omega
    have hzero : numeral (([] : List Char).drop (keep - idx).toNat) = 0 := by
      rw [drop_nil]
      rfl
    rw [hsame, hzero, if_pos ⟨hr, rfl⟩]
    rfl
  | cons c ds ih =>
    have hc := hd.head
    have hval := digitVal_lt hc
    unfold readMantissa
    rw [digitOf_digit hc]
    simp only
    by_cases hin : (idx : Int) < keep
    · obtain ⟨k, hk⟩ : ∃ k, (keep - idx).toNat = k + 1 := ⟨(keep - idx).toNat - 1, by omega⟩
      have hk' : (keep - (idx + 1 : Nat)).toNat = k := by omega
      have hvalue : r * 10 ^ ((ds.take k).length + 1) +
          (digitVal c * 10 ^ (ds.take k).length + numeral (ds.take k)) =
            (r * 10 + digitVal c) * 10 ^ (ds.take k).length + numeral (ds.take k) := by
        rw [pow_succ]
        ring
      rw [if_pos hin, hk, take_succ_cons, drop_succ_cons, numeral_cons, length_cons, hvalue]
      by_cases hover : (kMax - digitVal c) / 10 < r
      · have hscaled : (r * 10 + digitVal c) * 1 ≤
          (r * 10 + digitVal c) * 10 ^ (ds.take k).length :=
          Nat.mul_le_mul_left _ (Nat.one_le_pow _ _ (by decide))
        rw [if_pos hover, if_neg fun h => absurd h.1 (by omega)]
      · have hnext : r * 10 + digitVal c ≤ kMax := by
          unfold kMax at hover ⊢
          omega
        rw [if_neg hover, ih hd.tail hnext, hk']
    · have hnone : (keep - idx).toNat = 0 := by omega
      have hnone' : (keep - (idx + 1 : Nat)).toNat = 0 := by omega
      rw [if_neg hin, ih hd.tail hr, hnone, hnone', take_zero, take_zero, drop_zero,
        drop_zero, numeral_cons]
      by_cases hzero : digitVal c = 0
      · rw [if_neg (not_not.mpr hzero), hzero, zero_mul, zero_add]
      have hpos : ¬ digitVal c * 10 ^ ds.length + numeral ds = 0 := by
        have hpow : 0 < digitVal c * 10 ^ ds.length :=
          Nat.mul_pos (Nat.pos_of_ne_zero hzero) (by positivity)
        omega
      rw [if_pos hzero, if_neg fun h => hpos h.2]

/-- A value is shifted up unless it leaves the range. -/
theorem scaleUp_eq (hr : r ≤ kMax) :
    scaleUp k r = if r * 10 ^ k ≤ kMax then some (r * 10 ^ k) else none := by
  induction k generalizing r with
  | zero =>
    rw [pow_zero, mul_one, if_pos hr]
    rfl
  | succ k ih =>
    unfold scaleUp
    have hstep : r * 10 ^ (k + 1) = r * 10 * 10 ^ k := by
      rw [pow_succ]
      ring
    by_cases hzero : r = 0
    · rw [if_pos hzero, hzero, zero_mul, if_pos (Nat.zero_le _)]
    rw [if_neg hzero, hstep]
    by_cases hover : kMax / 10 < r
    · have hscaled : r * 10 * 1 ≤ r * 10 * 10 ^ k :=
        Nat.mul_le_mul_left _ (Nat.one_le_pow _ _ (by decide))
      rw [if_pos hover, if_neg (by omega)]
    · rw [if_neg hover, ih (by unfold kMax at hover ⊢; omega)]

end Loops

/-! ## The exponent that is kept -/

section Kept

variable {a ds u : List Char} {c : Char}

/-- The exponent the loop over its digits ends with. -/
def keptExponent (ds : List Char) : Nat :=
  ds.foldl (fun exp c => if exp < 100000 then exp * 10 + digitVal c else exp) 0

/-- The digits of an exponent without the zeros in front. -/
def significant (ds : List Char) : List Char := ds.dropWhile (· = '0')

theorem scanExponent_digits (hd : Digits ds) (exp n : Nat) : scanExponent false ds exp n =
      some (ds.foldl (fun exp c => if exp < 100000 then exp * 10 + digitVal c else exp) exp,
        n + ds.length) := by
  induction ds generalizing exp n with
  | nil => rfl
  | cons c ds ih =>
    unfold scanExponent
    rw [if_neg (by simp), digitOf_digit hd.head]
    simp only
    rw [ih hd.tail, length_cons]
    have hlen : n + 1 + ds.length = n + (ds.length + 1) := by omega
    rw [hlen]
    rfl

theorem scanExponent_other (hd : ¬ Digits u) (exp n : Nat) : scanExponent false u exp n = none := by
  induction u generalizing exp n with
  | nil => exact absurd (fun _ hc => absurd hc not_mem_nil) hd
  | cons c u ih =>
    unfold scanExponent
    rw [if_neg (by simp)]
    by_cases hc : c.isDigit = true
    · have hrest : ¬ Digits u := fun hu => hd (forall_mem_cons.mpr ⟨hc, hu⟩)
      rw [digitOf_digit hc]
      exact ih hrest _ _
    · rw [digitOf_other hc]

theorem numeral_significant (ds : List Char) : numeral (significant ds) = numeral ds := by
  unfold significant
  induction ds with
  | nil => rfl
  | cons c ds ih =>
    by_cases hc : c = '0'
    · have hdrop : (c :: ds).dropWhile (· = '0') = ds.dropWhile (· = '0') :=
        dropWhile_cons_of_pos (by simpa using hc)
      rw [hdrop, ih, numeral_cons, hc, show digitVal '0' = 0 from rfl, zero_mul, zero_add]
    · rw [dropWhile_cons_of_neg (by simpa using hc)]

theorem keptExponent_significant (ds : List Char) :
    keptExponent (significant ds) = keptExponent ds := by
  unfold significant
  induction ds with
  | nil => rfl
  | cons c ds ih =>
    by_cases hc : c = '0'
    · have hdrop : (c :: ds).dropWhile (· = '0') = ds.dropWhile (· = '0') :=
        dropWhile_cons_of_pos (by simpa using hc)
      rw [hdrop, ih, hc]
      rfl
    · rw [dropWhile_cons_of_neg (by simpa using hc)]

/-- Digits whose first is not a zero. -/
theorem le_numeral (hc : c.isDigit = true) (hne : c ≠ '0') (ds : List Char) :
    10 ^ ds.length ≤ numeral (c :: ds) := by
  have hpos : 1 ≤ digitVal c :=
    Nat.one_le_iff_ne_zero.mpr fun h => hne ((digitVal_eq_zero_iff hc).mp h)
  have hmul := Nat.mul_le_mul_right (10 ^ ds.length) hpos
  rw [one_mul] at hmul
  rw [numeral_cons]
  exact hmul.trans (Nat.le_add_right _ _)

/-- From the digits so far on, six digits count. -/
theorem foldl_kept (hd : Digits (a ++ ds)) (hne : ∀ c, (a ++ ds).head? = some c → c ≠ '0')
    (ha : a.length ≤ 6) :
    ds.foldl (fun exp c => if exp < 100000 then exp * 10 + digitVal c else exp) (numeral a) =
      numeral ((a ++ ds).take 6) := by
  induction ds generalizing a with
  | nil => rw [append_nil, take_of_length_le ha, foldl_nil]
  | cons c ds ih =>
    have hassoc : a ++ c :: ds = a ++ [c] ++ ds := by rw [append_assoc]; rfl
    have hda : Digits a := (digits_append.mp hd).1
    rw [foldl_cons]
    rcases Nat.lt_or_ge a.length 6 with hroom | hfull
    · have hsmall : numeral a < 100000 :=
        (numeral_lt hda).trans_le (Nat.pow_le_pow_right (by decide) (by omega : a.length ≤ 5))
      have hnext : numeral a * 10 + digitVal c = numeral (a ++ [c]) := by
        rw [numeral_append, numeral_cons]
        show numeral a * 10 + digitVal c = numeral a * 10 ^ 1 + (digitVal c * 10 ^ 0 + numeral [])
        rw [pow_one, pow_zero, mul_one]
        rfl
      rw [if_pos hsmall, hnext, hassoc]
      rw [hassoc] at hd hne
      refine ih hd hne ?_
      rw [length_append, length_singleton]
      omega
    · have hlen : a.length = 6 := by omega
      have hlarge : ¬ numeral a < 100000 := by
        cases a with
        | nil => exact absurd hlen (by decide)
        | cons x a =>
          have hx := le_numeral hda.head (hne x rfl) a
          have hexp : a.length = 5 := by simpa using hlen
          rw [hexp] at hx
          omega
      have hrest : Digits (a ++ ds) :=
        digits_append.mpr ⟨hda, (digits_append.mp hd).2.tail⟩
      have hhead : ∀ x, (a ++ ds).head? = some x → x ≠ '0' := by
        cases a with
        | nil => exact absurd hlen (by decide)
        | cons x a => exact hne
      have htake : (a ++ c :: ds).take 6 = (a ++ ds).take 6 := by
        rw [take_append_of_le_length (by omega), take_append_of_le_length (by omega)]
      rw [if_neg hlarge, htake]
      exact ih hrest hhead ha

theorem significant_digits (hd : Digits ds) : Digits (significant ds) := fun c hc =>
  hd c (dropWhile_sublist _ |>.mem hc)

theorem significant_head (ds : List Char) : ∀ c, (significant ds).head? = some c → c ≠ '0' := by
  intro c hc
  have hno := head?_dropWhile_not (fun c => decide (c = '0')) ds
  unfold significant at hc
  rw [hc] at hno
  simpa using hno

/-- The loop keeps the first six digits that are not zeros in front. -/
theorem keptExponent_eq (hd : Digits ds) : keptExponent ds = numeral ((significant ds).take 6) := by
  have hkept : keptExponent (significant ds) = numeral (([] ++ significant ds).take 6) :=
    foldl_kept (a := []) (significant_digits hd) (significant_head ds) (by decide)
  rw [← keptExponent_significant, hkept, nil_append]

/-- Up to six digits the exponent is exact. -/
theorem keptExponent_short (hd : Digits ds) (h : (significant ds).length ≤ 6) :
    keptExponent ds = numeral ds := by
  rw [keptExponent_eq hd, take_of_length_le h, numeral_significant]

/-- With more digits what is kept is a hundred thousand or more, and the exponent ten times that. -/
theorem keptExponent_long (hd : Digits ds) (h : 6 < (significant ds).length) :
    100000 ≤ keptExponent ds ∧ 10 * keptExponent ds ≤ numeral ds := by
  rw [keptExponent_eq hd, ← numeral_significant ds]
  have hsig := significant_digits hd
  have hhead := significant_head ds
  generalize significant ds = sig at h hsig hhead ⊢
  constructor
  · cases sig with
    | nil => exact absurd h (by decide)
    | cons c sig =>
      have hle := le_numeral hsig.head (hhead c rfl) (sig.take 5)
      have hlen : (sig.take 5).length = 5 := by
        rw [length_take]
        rw [length_cons] at h
        omega
      rw [hlen] at hle
      rw [take_succ_cons]
      exact hle
  · have hsplit : numeral sig =
        numeral (sig.take 6) * 10 ^ (sig.drop 6).length + numeral (sig.drop 6) := by
      conv_lhs => rw [← take_append_drop 6 sig]
      exact numeral_append _ _
    have hlen : 1 ≤ (sig.drop 6).length := by
      rw [length_drop]
      omega
    have hpow : 10 ^ 1 ≤ 10 ^ (sig.drop 6).length := Nat.pow_le_pow_right (by decide) hlen
    have hmul := Nat.mul_le_mul_left (numeral (sig.take 6)) hpow
    omega

end Kept

/-! ## What is accepted -/

section Accepted

variable {s t ints fracs rest : List Char} {x y : Decimal} {r : Int} {decimals : Nat}

/-- Nothing that a mantissa could go on with. -/
def Ends (rest : List Char) : Prop := ∀ c, rest.head? = some c → ¬ c.isDigit = true ∧ c ≠ '.'

theorem ends_exponent {e : Option (Bool × List Char)} (h : Exponent e rest) :
    Ends rest ∧ Unsigned rest := by
  cases h with
  | none => exact ⟨fun c hc => absurd hc (by simp), fun c hc => absurd hc (by simp)⟩
  | mark he =>
    constructor
    · intro c hc
      have hsame := Option.some.inj hc
      rcases he with rfl | rfl <;> rw [← hsame] <;> exact ⟨by decide, by decide⟩
    · intro c hc
      have hsame := Option.some.inj hc
      rcases he with rfl | rfl <;> rw [← hsame] <;> exact ⟨by decide, by decide⟩

theorem filter_digits (h : Digits ints) : ints.filter Char.isDigit = ints :=
  filter_eq_self.mpr h

theorem scanMantissa_whole (hi : Digits ints) (hends : Ends rest) :
    scanMantissa false (ints ++ rest) {} = (ints, ⟨ints.length, 0, false⟩, rest) := by
  have hstop : ∀ m, scanMantissa false rest m = ([], m, rest) := fun m =>
    scanMantissa_stop fun c hc => ⟨(hends c hc).1, fun hdot => absurd hdot (hends c hc).2⟩
  rw [scanMantissa_digits hi, hstop]
  simp

theorem scanMantissa_point (hi : Digits ints) (hf : Digits fracs)
    (hends : ∀ c, rest.head? = some c → ¬ c.isDigit = true) :
    scanMantissa false (ints ++ '.' :: (fracs ++ rest)) {} =
      (ints ++ '.' :: fracs, ⟨ints.length + fracs.length, fracs.length, true⟩, rest) := by
  have hpoint : ∀ m : Scan, m.dot = false →
      scanMantissa false ('.' :: (fracs ++ rest)) m =
        ('.' :: (scanMantissa false (fracs ++ rest) { m with dot := true }).1,
          (scanMantissa false (fracs ++ rest) { m with dot := true }).2) := by
    intro m hm
    show (if '.'.isDigit = true then _ else if '.' = '.' ∧ m.dot = false then _ else _) = _
    rw [if_neg (by decide), if_pos ⟨rfl, hm⟩]
  have hstop : ∀ m : Scan, m.dot = true → scanMantissa false rest m = ([], m, rest) := fun m hm =>
    scanMantissa_stop fun c hc => ⟨hends c hc, fun _ => hm⟩
  rw [scanMantissa_digits hi, hpoint _ rfl, scanMantissa_digits hf, hstop _ rfl]
  simp

/-- The scan of digits with at most one point among them. -/
theorem scanMantissa_pointed (hp : Foundation.Pointed ints fracs rest t) (hi : Digits ints)
    (hf : Digits fracs) (hends : Ends rest) :
    ∃ mant dot, scanMantissa false t {} =
        (mant, ⟨ints.length + fracs.length, fracs.length, dot⟩, rest) ∧
      mant.filter Char.isDigit = ints ++ fracs := by
  cases hp with
  | whole =>
    refine ⟨ints, false, scanMantissa_whole hi hends, ?_⟩
    rw [filter_digits hi, append_nil]
  | point =>
    refine ⟨ints ++ '.' :: fracs, true, scanMantissa_point hi hf fun c hc => (hends c hc).1, ?_⟩
    rw [filter_append, filter_digits hi, filter_cons_of_neg (by decide),
      filter_digits hf]

/-- Every string scans as digits with at most one point among them, and what is left. -/
theorem exists_scan (t : List Char) :
    ∃ ints fracs rest mant dot, Foundation.Pointed ints fracs rest t ∧ Digits ints ∧ Digits fracs ∧
      scanMantissa false t {} =
        (mant, ⟨ints.length + fracs.length, fracs.length, dot⟩, rest) := by
  obtain ⟨ints, u, rfl, hi, hu⟩ := exists_digits t
  by_cases hdot : u.head? = some '.'
  · obtain ⟨u', rfl⟩ : ∃ u', u = '.' :: u' := by
      cases u with
      | nil => nomatch hdot
      | cons c u => exact ⟨u, by rw [Option.some.inj hdot]⟩
    obtain ⟨fracs, rest, rfl, hf, hrest⟩ := exists_digits u'
    exact ⟨ints, fracs, rest, _, true, .point ints fracs rest, hi, hf,
      scanMantissa_point hi hf hrest⟩
  · have hends : Ends u := fun c hc => ⟨hu c hc, fun h => hdot (h ▸ hc)⟩
    exact ⟨ints, [], u, ints, false, .whole ints u, hi, fun c hc => absurd hc not_mem_nil,
      scanMantissa_whole hi hends⟩

theorem readExponent_cons (c : Char) (u : List Char) : readExponent false (c :: u) =
      if c ≠ 'e' ∧ c ≠ 'E' then none
      else
        match scanExponent false (takeSign u).2 0 0 with
        | none => none
        | some (exp, n) => if n = 0 then none else some (withSign (takeSign u).1 exp, true) := rfl

/-- What is read as an exponent is one. -/
theorem exponent_of_read {p : Int × Bool} (h : readExponent false rest = some p) :
    ∃ e, Exponent e rest := by
  cases rest with
  | nil => exact ⟨none, .none⟩
  | cons c u =>
    rw [readExponent_cons] at h
    by_cases hmark : c ≠ 'e' ∧ c ≠ 'E'
    · simp [if_pos hmark] at h
    rw [if_neg hmark] at h
    have he : c = 'e' ∨ c = 'E' := by tauto
    by_cases hds : Digits (takeSign u).2
    · rw [scanExponent_digits hds] at h
      have hne : (takeSign u).2 ≠ [] := by
        intro hnil
        simp [hnil] at h
      exact ⟨_, .mark he (takeSign_signed u) hds hne⟩
    · simp [scanExponent_other hds] at h

/-- What the parser accepts is a numeral. -/
theorem spells_of_parse (h : parseScaledDecimal s decimals false = some r) :
    ∃ x : Decimal, x.Spells s := by
  obtain ⟨ints, fracs, rest, mant, dot, hp, hi, hf, hscan⟩ := exists_scan (takeSign s).2
  unfold parseScaledDecimal at h
  simp only [Bool.false_eq_true, if_false, hscan] at h
  split at h
  · nomatch h
  rename_i hcount
  split at h
  · nomatch h
  rename_i hread
  obtain ⟨e, hexp⟩ := exponent_of_read hread
  refine ⟨⟨(takeSign s).1, ints, fracs, e⟩, _, rest, takeSign_signed s, hp, hexp, hi, hf, ?_⟩
  intro hnil
  rw [← length_append] at hcount
  exact hcount (length_eq_zero_iff.mpr hnil)

/-- The exponent of a numeral as the parser keeps it. -/
def keptExp (x : Decimal) : Int :=
  match x.exponent with
  | none => 0
  | some (neg, ds) => withSign neg (keptExponent ds)

theorem readExponent_eq (h : Exponent x.exponent rest) :
    ∃ hasExp, readExponent false rest = some (keptExp x, hasExp) := by
  unfold keptExp
  generalize x.exponent = e at h
  cases h with
  | none => exact ⟨false, rfl⟩
  | @mark neg u ds c he hsign hds hne =>
    refine ⟨true, ?_⟩
    have hmark : ¬ (c ≠ 'e' ∧ c ≠ 'E') := by
      rcases he with rfl | rfl <;> simp
    have hhead : Unsigned ds := by
      cases ds with
      | nil => exact absurd rfl hne
      | cons d ds => exact Unsigned.of_digit hds.head ds
    have hlen : ¬ 0 + ds.length = 0 := by
      rw [zero_add]
      exact fun h => hne (length_eq_zero_iff.mp h)
    rw [readExponent_cons, if_neg hmark, takeSign_eq hsign hhead]
    rw [scanExponent_digits hds]
    simp only
    rw [if_neg hlen]
    rfl

/-- What the parser makes of a numeral: its digits moved by the exponent that is kept. -/
theorem parse_spells (h : x.Spells s) :
    parseScaledDecimal s decimals false = some r ↔ ∃ v : Nat, r = withSign x.neg v ∧
      (v : ℚ) = x.mantissa * 10 ^ (keptExp x - x.fracs.length + decimals) ∧ v ≤ kMax := by
  obtain ⟨t, rest, hs, hp, hexp, hi, hf, hdigit⟩ := h
  obtain ⟨hends, hunsigned⟩ := ends_exponent hexp
  have hsign := takeSign_eq hs (unsigned_pointed hp hi hunsigned)
  obtain ⟨mant, dot, hscan, hmant⟩ := scanMantissa_pointed hp hi hf hends
  obtain ⟨hasExp, hread⟩ := readExponent_eq hexp
  have hcount : ¬ x.ints.length + x.fracs.length = 0 := by
    rw [← length_append]
    exact fun h => hdigit (length_eq_zero_iff.mp h)
  have hds : Digits (x.ints ++ x.fracs) := digits_append.mpr ⟨hi, hf⟩
  unfold parseScaledDecimal Decimal.mantissa
  simp only [Bool.false_eq_true, if_false, hsign, hscan, if_neg hcount, hread, false_and]
  generalize keptExp x - x.fracs.length + decimals = shift
  have hkeep : (((x.ints.length + x.fracs.length : Nat) : Int) +
      (if shift < 0 then shift else 0) - (0 : Nat)).toNat =
        ((x.ints ++ x.fracs).length + min shift 0).toNat := by
    rw [length_append]
    split <;> omega
  rw [readMantissa_filter, hmant, readMantissa_digits hds (Nat.zero_le _), hkeep]
  simp only [whole_cut hds shift, zero_mul, zero_add]
  generalize numeral ((x.ints ++ x.fracs).take ((x.ints ++ x.fracs).length + min shift 0).toNat) = p
  generalize numeral ((x.ints ++ x.fracs).drop ((x.ints ++ x.fracs).length + min shift 0).toNat) = q
  have hgrow : p * 1 ≤ p * 10 ^ shift.toNat :=
    Nat.mul_le_mul_left _ (Nat.one_le_pow _ _ (by decide))
  split_ifs with hread
  · simp only
    rw [scaleUp_eq hread.1]
    split_ifs with hfits
    · constructor
      · exact fun h => ⟨_, (Option.some.inj h).symm, ⟨rfl, hread.2⟩, hfits⟩
      · rintro ⟨v, rfl, ⟨rfl, -⟩, -⟩
        rfl
    · constructor
      · nofun
      · rintro ⟨v, -, ⟨rfl, -⟩, hv⟩
        exact absurd hv hfits
  · constructor
    · nofun
    · rintro ⟨v, -, ⟨rfl, hq⟩, hv⟩
      exact absurd ⟨by omega, hq⟩ hread

/-! ## One reading -/

theorem exponent_unique {e e' : Option (Bool × List Char)} (h : Exponent e rest)
    (h' : Exponent e' rest) : e = e' := by
  have hhead : ∀ {ds : List Char}, Digits ds → ds ≠ [] → Unsigned ds := by
    intro ds hds hne
    cases ds with
    | nil => exact absurd rfl hne
    | cons d ds => exact Unsigned.of_digit hds.head ds
  cases h with
  | none =>
    cases h'
    rfl
  | mark _ hsign hds hne =>
    cases h' with
    | mark _ hsign' hds' hne' =>
      have hsame := (takeSign_eq hsign (hhead hds hne)).symm.trans
        (takeSign_eq hsign' (hhead hds' hne'))
      exact congrArg some hsame

/-- A string is one numeral at most. -/
theorem spells_unique (hx : x.Spells s) (hy : y.Spells s) : x = y := by
  obtain ⟨t, rest, hs, hp, hexp, hi, hf, -⟩ := hx
  obtain ⟨t', rest', hs', hp', hexp', hi', hf', -⟩ := hy
  obtain ⟨hends, hunsigned⟩ := ends_exponent hexp
  obtain ⟨hends', hunsigned'⟩ := ends_exponent hexp'
  have hsign := (takeSign_eq hs (unsigned_pointed hp hi hunsigned)).symm.trans
    (takeSign_eq hs' (unsigned_pointed hp' hi' hunsigned'))
  obtain ⟨hneg, rfl⟩ := Prod.mk.inj hsign
  obtain ⟨mant, dot, hscan, hmant⟩ := scanMantissa_pointed hp hi hf hends
  obtain ⟨mant', dot', hscan', hmant'⟩ := scanMantissa_pointed hp' hi' hf' hends'
  obtain ⟨rfl, hrest⟩ := Prod.mk.inj (hscan.symm.trans hscan')
  obtain ⟨hcounts, rfl⟩ := Prod.mk.inj hrest
  have hlen : x.fracs.length = y.fracs.length := congrArg Scan.fracs hcounts
  obtain ⟨hints, hfracs⟩ := append_inj' (hmant.symm.trans hmant') hlen
  have hexps := exponent_unique hexp hexp'
  cases x
  cases y
  simp only at hneg hints hfracs hexps
  rw [hneg, hints, hfracs, hexps]

/-- The characters of a numeral with an exponent. -/
theorem spells_length (h : x.Spells s) {neg : Bool} {ds : List Char}
    (he : x.exponent = some (neg, ds)) :
    x.ints.length + x.fracs.length + ds.length + 1 ≤ s.length ∧ Digits ds := by
  obtain ⟨t, rest, hs, hp, hexp, -, -, -⟩ := h
  have hsigned : ∀ {neg : Bool} {s t : List Char}, Signed neg s t → t.length ≤ s.length := by
    intro neg s t h
    cases h with
    | none => exact le_rfl
    | plus => exact Nat.le_succ _
    | minus => exact Nat.le_succ _
  have hpointed : x.ints.length + x.fracs.length + rest.length ≤ t.length := by
    generalize x.ints = ints at hp ⊢
    generalize x.fracs = fracs at hp ⊢
    cases hp with
    | whole =>
      rw [length_append]
      exact le_rfl
    | point =>
      rw [length_append, length_cons, length_append]
      omega
  have hfront := hsigned hs
  rw [he] at hexp
  cases hexp with
  | mark _ hsign hds _ =>
    have hexponent := hsigned hsign
    rw [length_cons] at hpointed
    exact ⟨by omega, hds⟩

/-! ## When the exponent counts -/

/-- A string that is worth so many units. -/
def Denotes (s : List Char) (decimals : Nat) (r : Int) : Prop :=
  ∃ x : Decimal, x.Spells s ∧ (r : ℚ) = x.value * 10 ^ decimals ∧ |r| ≤ kMax

/-- A numeral other than zero, with a positive exponent of more than six digits besides zeros in
front, that the first six of them would bring into the range. -/
def Overlong (s : List Char) (decimals : Nat) : Prop :=
  ∃ (x : Decimal) (ds : List Char), x.Spells s ∧ x.exponent = some (false, ds) ∧
    6 < (significant ds).length ∧ x.mantissa ≠ 0 ∧
    x.mantissa * 10 ^ (numeral ((significant ds).take 6) + decimals - x.fracs.length) ≤ kMax

theorem whole_none {v n k : Nat} (hn : n < 10 ^ k) :
    (v : ℚ) = n * 10 ^ (-(k : ℤ)) ↔ v = 0 ∧ n = 0 := by
  have hsplit : n = 0 * 10 ^ k + n := by rw [zero_mul, zero_add]
  rw [whole_down]
  conv_lhs => rw [hsplit]
  exact whole_split hn

theorem not_whole_far {v n k : Nat} (hn : n ≠ 0) (hk : 19 ≤ k) (hv : v ≤ kMax) :
    v ≠ n * 10 ^ k := by
  have hpow : 10 ^ 19 ≤ 10 ^ k := Nat.pow_le_pow_right (by decide) hk
  have hmul := Nat.mul_le_mul_right (10 ^ k) (Nat.one_le_iff_ne_zero.mpr hn)
  rw [one_mul] at hmul
  unfold kMax at hv
  omega

/-- The units of a string, by its one reading. -/
theorem denotes_iff (h : x.Spells s) : Denotes s decimals r ↔ ∃ v : Nat, r = withSign x.neg v ∧
      (v : ℚ) = x.mantissa * 10 ^ (x.exp - x.fracs.length + decimals) ∧ v ≤ kMax := by
  constructor
  · rintro ⟨y, hy, hr, hrange⟩
    obtain rfl := spells_unique h hy
    obtain ⟨v, hv, hw⟩ := (Decimal.units_iff _ _ _).mp hr
    rw [hv, abs_withSign] at hrange
    exact ⟨v, hv, hw, by exact_mod_cast hrange⟩
  · rintro ⟨v, rfl, hw, hv⟩
    refine ⟨x, h, (Decimal.units_iff _ _ _).mpr ⟨v, rfl, hw⟩, ?_⟩
    rw [abs_withSign]
    exact_mod_cast hv

/-- The parser reads a numeral exactly when it may take the exponent it keeps for the whole one. -/
theorem reads_of_same (h : x.Spells s) (hall : ∀ v : Nat, v ≤ kMax →
    ((v : ℚ) = x.mantissa * 10 ^ (keptExp x - x.fracs.length + decimals) ↔
      (v : ℚ) = x.mantissa * 10 ^ (x.exp - x.fracs.length + decimals))) (r : Int) :
    parseScaledDecimal s decimals false = some r ↔ Denotes s decimals r := by
  rw [parse_spells h, denotes_iff h]
  exact exists_congr fun v => and_congr_right fun _ =>
    ⟨fun hv => ⟨(hall v hv.2).mp hv.1, hv.2⟩, fun hv => ⟨(hall v hv.2).mpr hv.1, hv.2⟩⟩

/-- An exponent of up to six digits besides zeros in front is kept whole, and so is none. -/
theorem keptExp_eq (h : x.Spells s)
    (hshort : ∀ neg ds, x.exponent = some (neg, ds) → (significant ds).length ≤ 6) :
    keptExp x = x.exp := by
  unfold keptExp Decimal.exp
  cases he : x.exponent with
  | none => rfl
  | some e =>
    obtain ⟨-, hds⟩ := spells_length h he
    exact congrArg (withSign e.1) (keptExponent_short hds (hshort e.1 e.2 he))

section Long

variable {neg : Bool} {ds : List Char} {e : Nat}

section

variable (h : x.Spells s) (he : x.exponent = some (neg, ds)) (hs : s.length < 100000)
include h he hs

/-- A long negative exponent cuts off every digit. -/
theorem whole_far_down
    (hdec : decimals ≤ 8) (hlong : 6 < (significant ds).length) (hlarge : 100000 ≤ e) (v : Nat) :
    (v : ℚ) = x.mantissa * 10 ^ (withSign true e - x.fracs.length + decimals) ↔
      v = 0 ∧ x.mantissa = 0 := by
  obtain ⟨hlen, -⟩ := spells_length h he
  have hsig : (significant ds).length ≤ ds.length := (dropWhile_sublist _).length_le
  have hmant : x.mantissa < 10 ^ (x.ints.length + x.fracs.length) := by
    obtain ⟨-, -, -, -, -, hi, hf, -⟩ := h
    have hlt := numeral_lt (digits_append.mpr ⟨hi, hf⟩)
    rwa [length_append] at hlt
  have hshift : withSign true e - x.fracs.length + decimals =
      -((e + x.fracs.length - decimals : Nat) : ℤ) := by
    unfold withSign
    rw [if_pos rfl]
    omega
  rw [hshift]
  exact whole_none (hmant.trans_le (Nat.pow_le_pow_right (by decide) (by omega)))

/-- A long positive exponent moves every digit up. -/
theorem whole_far_up
    (hlarge : 100000 ≤ e) (v : Nat) :
    (v : ℚ) = x.mantissa * 10 ^ (withSign false e - x.fracs.length + decimals) ↔
      v = x.mantissa * 10 ^ (e + decimals - x.fracs.length) := by
  obtain ⟨hlen, -⟩ := spells_length h he
  have hshift : withSign false e - x.fracs.length + decimals =
      ((e + decimals - x.fracs.length : Nat) : ℤ) := by
    unfold withSign
    rw [if_neg Bool.false_ne_true]
    omega
  rw [hshift, whole_up]

end

/-- The parser's reading and the numeral's worth agree unless the numeral is too long. -/
theorem reads_of_not_overlong (h : x.Spells s) (hs : s.length < 100000) (hdec : decimals ≤ 8)
    (hno : ¬ Overlong s decimals) (r : Int) :
    parseScaledDecimal s decimals false = some r ↔ Denotes s decimals r := by
  refine reads_of_same h (fun v hv => ?_) r
  by_cases hshort : ∀ neg ds, x.exponent = some (neg, ds) → (significant ds).length ≤ 6
  · rw [keptExp_eq h hshort]
  simp only [not_forall, not_le] at hshort
  obtain ⟨neg, ds, he, hlong⟩ := hshort
  obtain ⟨hlen, hds⟩ := spells_length h he
  obtain ⟨hlarge, hten⟩ := keptExponent_long hds hlong
  have hlarge' : 100000 ≤ numeral ds := by omega
  have hkept : keptExp x = withSign neg (keptExponent ds) := by
    unfold keptExp
    rw [he]
  have hexp : x.exp = withSign neg (numeral ds) := by
    unfold Decimal.exp
    rw [he]
  rw [hkept, hexp]
  cases neg with
  | true =>
    rw [whole_far_down h he hs hdec hlong hlarge, whole_far_down h he hs hdec hlong hlarge']
  | false =>
    rw [whole_far_up h he hs hlarge, whole_far_up h he hs hlarge']
    by_cases hzero : x.mantissa = 0
    · rw [hzero, zero_mul, zero_mul]
    -- The whole exponent is out of range, and so is the one that is kept.
    constructor
    · intro hkv
      refine absurd ⟨x, ds, h, he, hlong, hzero, ?_⟩ hno
      rw [← keptExponent_eq hds, ← hkv]
      exact hv
    · exact fun hev => absurd hev (not_whole_far hzero (by omega) hv)

/-- A numeral that is too long is read as another number. -/
theorem misread_of_overlong (hs : s.length < 100000) (hover : Overlong s decimals) :
    ∃ r, parseScaledDecimal s decimals false = some r ∧ ¬ Denotes s decimals r := by
  obtain ⟨x, ds, h, he, hlong, hne, hfits⟩ := hover
  obtain ⟨hlen, hds⟩ := spells_length h he
  obtain ⟨hlarge, hten⟩ := keptExponent_long hds hlong
  have hkept : keptExp x = withSign false (keptExponent ds) := by
    unfold keptExp
    rw [he]
  have hexp : x.exp = withSign false (numeral ds) := by
    unfold Decimal.exp
    rw [he]
  rw [← keptExponent_eq hds] at hfits
  refine ⟨_, (parse_spells h).mpr ⟨_, rfl, ?_, hfits⟩, ?_⟩
  · rw [hkept]
    exact (whole_far_up h he hs hlarge _).mpr rfl
  rw [denotes_iff h]
  rintro ⟨v, -, hv, hrange⟩
  rw [hexp, whole_far_up h he hs (by omega)] at hv
  exact not_whole_far hne (by omega) hrange hv

end Long

/-- A string with no numeral in it is refused, and denotes nothing. -/
theorem reads_of_not_spells (h : ∀ x : Decimal, ¬ x.Spells s) (r : Int) :
    parseScaledDecimal s decimals false = some r ↔ Denotes s decimals r :=
  ⟨fun hparse => (spells_of_parse hparse).elim fun x hx => absurd hx (h x),
    fun ⟨x, hx, _⟩ => absurd hx (h x)⟩

/-- Without an exponent both parsers read the same. -/
theorem parse_eq_fromDecimal (hplain : ∀ c ∈ s, c ≠ 'e' ∧ c ≠ 'E') : parse s = fromDecimal s := by
  have hnone : ∀ x : Decimal, x.Spells s → x.exponent = none := by
    rintro x ⟨t, rest, hs, hp, hexp, -⟩
    have ht : ∀ c ∈ t, c ∈ s := by
      intro c hc
      generalize x.neg = neg at hs
      cases hs with
      | none => exact hc
      | plus => exact mem_cons_of_mem _ hc
      | minus => exact mem_cons_of_mem _ hc
    have hrest : ∀ c ∈ rest, c ∈ t := by
      intro c hc
      generalize x.ints = ints at hp
      generalize x.fracs = fracs at hp
      cases hp with
      | whole => exact mem_append_right _ hc
      | point =>
        exact mem_append_right _ (mem_cons_of_mem _ (mem_append_right _ hc))
    generalize x.exponent = e at hexp ⊢
    cases hexp with
    | none => rfl
    | mark he =>
      have hmark := hplain _ (ht _ (hrest _ mem_cons_self))
      rcases he with rfl | rfl
      · exact absurd rfl hmark.1
      · exact absurd rfl hmark.2
  refine Option.ext fun r => ?_
  show parseScaledDecimal s kFixedDecimals false = some r ↔ fromDecimal s = some r
  rw [fromDecimal_iff]
  by_cases hspells : ∃ x : Decimal, x.Spells s
  · obtain ⟨x, hx⟩ := hspells
    have hkept : keptExp x = x.exp := keptExp_eq hx fun neg ds he =>
      absurd ((hnone x hx).symm.trans he) (by simp)
    rw [reads_of_same hx fun v _ => by rw [hkept]]
    exact ⟨fun ⟨y, hy, hr⟩ => ⟨y, hy, hnone y hy, hr⟩, fun ⟨y, hy, _, hr⟩ => ⟨y, hy, hr⟩⟩
  · have hno : ∀ x : Decimal, ¬ x.Spells s := fun x hx => hspells ⟨x, hx⟩
    rw [reads_of_not_spells hno]
    exact ⟨fun ⟨y, hy, _⟩ => absurd hy (hno y), fun ⟨y, hy, _⟩ => absurd hy (hno y)⟩

/-- The parser reads a string of fewer than a hundred thousand characters as what it is worth
exactly when it is not too long; and without an exponent it reads what `from_decimal` does. -/
theorem parse_exact (s : List Char) (decimals : Nat) (hs : s.length < 100000)
    (hdec : decimals ≤ 8) :
    ((∀ r, parseScaledDecimal s decimals false = some r ↔ Denotes s decimals r) ↔
        ¬ Overlong s decimals) ∧
      ((∀ c ∈ s, c ≠ 'e' ∧ c ≠ 'E') → parse s = fromDecimal s) := by
  refine ⟨⟨fun hall hover => ?_, fun hno r => ?_⟩, parse_eq_fromDecimal⟩
  · obtain ⟨r, hparse, hdenotes⟩ := misread_of_overlong hs hover
    exact hdenotes ((hall r).mp hparse)
  by_cases hspells : ∃ x : Decimal, x.Spells s
  · obtain ⟨x, hx⟩ := hspells
    exact reads_of_not_overlong hx hs hdec hno r
  · exact reads_of_not_spells (fun x hx => hspells ⟨x, hx⟩) r

/-- Two hundred-thousandths. -/
theorem parse_exact_small : ((∀ r, parseScaledDecimal ['2', 'e', '-', '0', '5'] 8 false = some r ↔
        Denotes ['2', 'e', '-', '0', '5'] 8 r) ↔ ¬ Overlong ['2', 'e', '-', '0', '5'] 8) ∧
      ((∀ c ∈ ['2', 'e', '-', '0', '5'], c ≠ 'e' ∧ c ≠ 'E') →
        parse ['2', 'e', '-', '0', '5'] = fromDecimal ['2', 'e', '-', '0', '5']) :=
  parse_exact ['2', 'e', '-', '0', '5'] 8 (by decide) (by decide)

/-- A one behind so many zeros. -/
theorem exists_one (n : Nat) :
    ∃ fracs, Digits fracs ∧ fracs.length = n + 1 ∧ numeral fracs = 1 := by
  refine ⟨List.replicate n '0' ++ ['1'], digits_append.mpr ⟨fun c hc => ?_, fun c hc => ?_⟩, ?_, ?_⟩
  · rw [eq_of_mem_replicate hc]
    decide
  · rw [mem_singleton.mp hc]
    decide
  · rw [length_append, length_replicate, length_singleton]
  · rw [numeral_append, numeral_zeros, zero_mul, zero_add]
    rfl

/-- One behind a point and 99989 zeros, times ten to the millionth, is read as a number in range. -/
theorem not_parse_exact : ¬ ∀ (s : List Char) (decimals : Nat), s.length < 100000 → decimals ≤ 8 →
      ∀ r, parseScaledDecimal s decimals false = some r ↔ Denotes s decimals r := by
  intro h
  obtain ⟨fracs, hdigits, hlen, hworth⟩ := exists_one 99989
  have hne : fracs ≠ [] := by
    intro hnil
    rw [hnil, length_nil] at hlen
    omega
  have hspells : (⟨false, [], fracs, some (false, ['1', '0', '0', '0', '0', '0', '0'])⟩ :
      Decimal).Spells ([] ++ '.' :: (fracs ++ ['e', '1', '0', '0', '0', '0', '0', '0'])) :=
    ⟨_, _, .none _, .point [] fracs _, .mark (Or.inl rfl) (.none _) (by decide) (by decide),
      fun c hc => absurd hc not_mem_nil, hdigits, hne⟩
  have hsix : numeral ['1', '0', '0', '0', '0', '0'] = 100000 := by decide
  have hover : Overlong ([] ++ '.' :: (fracs ++ ['e', '1', '0', '0', '0', '0', '0', '0'])) 8 := by
    refine ⟨_, _, hspells, rfl, by decide, ?_, ?_⟩
    · show numeral fracs ≠ 0
      rw [hworth]
      exact one_ne_zero
    · show numeral fracs * 10 ^ (numeral ['1', '0', '0', '0', '0', '0'] + 8 - fracs.length) ≤ kMax
      have hshift : 100000 + 8 - fracs.length = 18 := by omega
      rw [hworth, hsix, hshift]
      decide
  have hshort : ([] ++ '.' :: (fracs ++ ['e', '1', '0', '0', '0', '0', '0', '0'])).length <
      100000 := by
    simp only [nil_append, length_cons, length_append, length_nil]
    omega
  obtain ⟨r, hparse, hdenotes⟩ := misread_of_overlong hshort hover
  exact hdenotes ((h _ 8 hshort (by decide) r).mp hparse)

end Accepted

end FastMM.Fixed
