/-
  Foundation/Numerals.lean --- decimal numerals and what they are worth.

  A numeral is an optional sign, digits with at most one point among them, and an optional exponent.
  Its worth is that of its digits without the point, moved by the exponent less the digits behind
  the point.  Whether a power of ten times that is a whole number is a question about the digits
  that are cut off.
-/
import Mathlib.Data.Rat.Cast.Order
import Mathlib.Algebra.Order.Field.Rat
import Mathlib.Tactic.Ring
import Mathlib.Tactic.Linarith
import Mathlib.Tactic.FieldSimp
set_option autoImplicit false

namespace FastMM.Foundation

open List

/-! ## Digits -/

/-- Digits throughout. -/
def Digits (ds : List Char) : Prop := ∀ c ∈ ds, c.isDigit = true

instance (ds : List Char) : Decidable (Digits ds) :=
  List.decidableBAll (fun c : Char => c.isDigit = true) ds

/-- What a digit is worth. -/
def digitVal (c : Char) : Nat := c.toNat - 48

/-- What a string of digits is worth. -/
def numeral (ds : List Char) : Nat := ds.foldl (fun n c => n * 10 + digitVal c) 0

/-- The digit of a number below ten. -/
def digitChar (d : Nat) : Char := Char.ofNat (48 + d)

section Digits

variable {c : Char} {a b ds : List Char}

theorem Digits.head (h : Digits (c :: ds)) : c.isDigit = true := h c mem_cons_self

theorem Digits.tail (h : Digits (c :: ds)) : Digits ds := fun x hx => h x (mem_cons_of_mem c hx)

theorem digits_append : Digits (a ++ b) ↔ Digits a ∧ Digits b := forall_mem_append

theorem isDigit_iff : c.isDigit = true ↔ 48 ≤ c.toNat ∧ c.toNat ≤ 57 := by
  unfold Char.isDigit
  rw [Bool.and_eq_true, decide_eq_true_iff, decide_eq_true_iff]
  exact Iff.rfl

theorem digitVal_lt (h : c.isDigit = true) : digitVal c < 10 := by
  have hrange := isDigit_iff.mp h
  unfold digitVal
  omega

theorem digitVal_eq_zero_iff (h : c.isDigit = true) : digitVal c = 0 ↔ c = '0' := by
  have hrange := isDigit_iff.mp h
  unfold digitVal
  constructor
  · intro hzero
    have hcode : c.toNat = '0'.toNat := by
      show c.toNat = 48
      omega
    exact Char.toNat_inj.mp hcode
  · rintro rfl
    rfl

theorem digitChar_spec {d : Nat} (h : d < 10) :
    (digitChar d).isDigit = true ∧ digitVal (digitChar d) = d := by
  have hall : ∀ d : Fin 10, (digitChar d).isDigit = true ∧ digitVal (digitChar d) = d := by decide
  exact hall ⟨d, h⟩

theorem foldl_numeral (n : Nat) (ds : List Char) :
    ds.foldl (fun n c => n * 10 + digitVal c) n = n * 10 ^ ds.length + numeral ds := by
  unfold numeral
  induction ds generalizing n with
  | nil => simp
  | cons c ds ih =>
    rw [foldl_cons, foldl_cons, ih, ih (0 * 10 + digitVal c), length_cons, pow_succ]
    ring

theorem numeral_cons (c : Char) (ds : List Char) :
    numeral (c :: ds) = digitVal c * 10 ^ ds.length + numeral ds := by
  have h := foldl_numeral (0 * 10 + digitVal c) ds
  rw [show (0 * 10 + digitVal c) * 10 ^ ds.length = digitVal c * 10 ^ ds.length by
    rw [zero_mul, zero_add]] at h
  exact h

theorem numeral_append (a b : List Char) :
    numeral (a ++ b) = numeral a * 10 ^ b.length + numeral b := by
  rw [numeral, foldl_append, foldl_numeral]
  rfl

theorem numeral_lt (h : Digits ds) : numeral ds < 10 ^ ds.length := by
  induction ds with
  | nil => exact Nat.one_pos
  | cons c ds ih =>
    have hc := digitVal_lt h.head
    have hrest := ih h.tail
    have hmul : (digitVal c + 1) * 10 ^ ds.length ≤ 10 * 10 ^ ds.length :=
      Nat.mul_le_mul_right _ hc
    rw [numeral_cons, length_cons, pow_succ]
    linarith

theorem numeral_zeros (k : Nat) : numeral (List.replicate k '0') = 0 := by
  induction k with
  | zero => rfl
  | succ k ih =>
    rw [replicate_succ, numeral_cons, ih, show digitVal '0' = 0 from rfl, zero_mul]

end Digits

/-! ## Whole numbers of units -/

section Whole

variable {v n p q k : Nat}

theorem whole_up (v n k : Nat) : (v : ℚ) = n * 10 ^ (k : ℤ) ↔ v = n * 10 ^ k := by
  rw [zpow_natCast]
  exact_mod_cast Iff.rfl

theorem whole_down (v n k : Nat) : (v : ℚ) = n * 10 ^ (-(k : ℤ)) ↔ v * 10 ^ k = n := by
  have hpow : (10 : ℚ) ^ k ≠ 0 := by positivity
  rw [zpow_neg, zpow_natCast, ← div_eq_mul_inv, eq_div_iff hpow]
  exact_mod_cast Iff.rfl

/-- A number is a whole number of units exactly when nothing is left below the unit. -/
theorem whole_split (hq : q < 10 ^ k) : v * 10 ^ k = p * 10 ^ k + q ↔ v = p ∧ q = 0 := by
  constructor
  · intro h
    have hdiv : v = p := by
      have hpos : 0 < 10 ^ k := by positivity
      have hv : v = (p * 10 ^ k + q) / 10 ^ k := by rw [← h, Nat.mul_div_cancel v hpos]
      rw [hv, mul_comm p, Nat.mul_add_div hpos, Nat.div_eq_of_lt hq, add_zero]
    exact ⟨hdiv, by rw [hdiv] at h; omega⟩
  · rintro ⟨rfl, rfl⟩
    rfl

/-- What digits are worth in units of a power of ten: a whole number exactly when the digits below
the unit are zeros. -/
theorem whole_cut {ds : List Char} (hds : Digits ds) (shift : Int) :
    (v : ℚ) = numeral ds * 10 ^ shift ↔
      v = numeral (ds.take (ds.length + min shift 0).toNat) * 10 ^ shift.toNat ∧
        numeral (ds.drop (ds.length + min shift 0).toNat) = 0 := by
  rcases le_or_gt 0 shift with hup | hdown
  · obtain ⟨k, rfl⟩ := Int.eq_ofNat_of_zero_le hup
    have hall : (ds.length + min (k : Int) 0).toNat = ds.length := by omega
    rw [hall, take_length, drop_length, whole_up]
    exact ⟨fun h => ⟨h, rfl⟩, fun h => h.1⟩
  obtain ⟨k, hk⟩ := Int.eq_ofNat_of_zero_le (Int.neg_nonneg.mpr hdown.le)
  have hshift : shift = -(k : Int) := by
    have hneg : shift = - -shift := (Int.neg_neg shift).symm
    rw [hneg, hk]
  have hkeep : (ds.length + min (-(k : Int)) 0).toNat = ds.length - k := by omega
  have hzero : (-(k : Int)).toNat = 0 := by omega
  rw [hshift, hkeep, hzero, pow_zero, mul_one, whole_down]
  have hsplit : numeral ds = numeral (ds.take (ds.length - k)) * 10 ^ k +
      numeral (ds.drop (ds.length - k)) := by
    rcases le_or_gt k ds.length with hle | hgt
    · have hlen : (ds.drop (ds.length - k)).length = k := by
        rw [length_drop]
        omega
      conv_lhs => rw [← take_append_drop (ds.length - k) ds]
      rw [numeral_append, hlen]
    · have hnone : numeral (ds.take 0) * 10 ^ k = 0 := zero_mul _
      rw [Nat.sub_eq_zero_of_le hgt.le, hnone, drop_zero, zero_add]
  rw [hsplit]
  refine whole_split ?_
  have hlt := numeral_lt (fun c hc => hds c (mem_of_mem_drop hc) :
    Digits (ds.drop (ds.length - k)))
  refine hlt.trans_le (Nat.pow_le_pow_right (by decide) ?_)
  rw [length_drop]
  omega

/-- A number with a sign. -/
def withSign (neg : Bool) (v : Nat) : Int := if neg then -(v : Int) else v

/-- A signed number of units is whole exactly when its magnitude is. -/
theorem whole_signed {neg : Bool} {r : Int} {x : ℚ} (hx : 0 ≤ x) :
    (r : ℚ) = (if neg then -1 else 1) * x ↔ ∃ v : Nat, r = withSign neg v ∧ (v : ℚ) = x := by
  unfold withSign
  constructor
  · intro h
    cases neg with
    | false =>
      simp only [Bool.false_eq_true, if_false, one_mul] at h ⊢
      have hr : 0 ≤ r := by exact_mod_cast h ▸ hx
      obtain ⟨v, rfl⟩ := Int.eq_ofNat_of_zero_le hr
      exact ⟨v, rfl, by exact_mod_cast h⟩
    | true =>
      simp only [if_true, neg_mul, one_mul] at h ⊢
      have hneg : ((-r : Int) : ℚ) = x := by
        push_cast
        linarith
      have hr : 0 ≤ -r := by exact_mod_cast hneg ▸ hx
      obtain ⟨v, hv⟩ := Int.eq_ofNat_of_zero_le hr
      refine ⟨v, by omega, ?_⟩
      rw [hv] at hneg
      exact_mod_cast hneg
  · rintro ⟨v, rfl, hv⟩
    cases neg with
    | false => simpa using hv
    | true => simpa using hv

theorem abs_withSign (neg : Bool) (v : Nat) : |withSign neg v| = v := by
  unfold withSign
  cases neg <;> simp

end Whole

/-! ## Numerals -/

/-- `s` is `t` behind an optional sign. -/
inductive Signed : Bool → List Char → List Char → Prop
  | none (t : List Char) : Signed false t t
  | plus (t : List Char) : Signed false ('+' :: t) t
  | minus (t : List Char) : Signed true ('-' :: t) t

/-- Digits with at most one point among them, before `rest`. -/
inductive Pointed : List Char → List Char → List Char → List Char → Prop
  | whole (ints rest : List Char) : Pointed ints [] rest (ints ++ rest)
  | point (ints fracs rest : List Char) : Pointed ints fracs rest (ints ++ '.' :: (fracs ++ rest))

/-- An exponent, if any: its sign and its digits. -/
inductive Exponent : Option (Bool × List Char) → List Char → Prop
  | none : Exponent none []
  | mark {neg : Bool} {s ds : List Char} {e : Char} (he : e = 'e' ∨ e = 'E')
      (hsign : Signed neg s ds) (hds : Digits ds) (hne : ds ≠ []) :
      Exponent (some (neg, ds)) (e :: s)

/-- The parts of a numeral. -/
structure Decimal where
  neg : Bool
  ints : List Char
  fracs : List Char
  exponent : Option (Bool × List Char) := none
  deriving DecidableEq, Repr

namespace Decimal

variable (x : Decimal)

/-- The exponent, zero when there is none. -/
def exp : Int :=
  match x.exponent with
  | none => 0
  | some (neg, ds) => withSign neg (numeral ds)

/-- The digits without the point. -/
def mantissa : Nat := numeral (x.ints ++ x.fracs)

/-- What a numeral is worth. -/
def value : ℚ :=
  (if x.neg then -1 else 1) * (x.mantissa * 10 ^ (x.exp - x.fracs.length))

/-- What a numeral is worth in units of a power of ten. -/
theorem value_mul_pow (decimals : Nat) : x.value * 10 ^ decimals =
      (if x.neg then -1 else 1) * (x.mantissa * 10 ^ (x.exp - x.fracs.length + decimals)) := by
  have hten : (10 : ℚ) ≠ 0 := by norm_num
  unfold value
  rw [zpow_add₀ hten, zpow_natCast]
  ring

/-- When a numeral is so many units. -/
theorem units_iff (decimals : Nat) (r : Int) : (r : ℚ) = x.value * 10 ^ decimals ↔
      ∃ v : Nat, r = withSign x.neg v ∧
        (v : ℚ) = x.mantissa * 10 ^ (x.exp - x.fracs.length + decimals) := by
  have hnonneg : (0 : ℚ) ≤ x.mantissa * 10 ^ (x.exp - x.fracs.length + decimals) :=
    mul_nonneg (Nat.cast_nonneg _) (zpow_nonneg (by norm_num) _)
  rw [value_mul_pow]
  exact whole_signed hnonneg

/-- `s` is the numeral `x`: there is a digit before the point or behind it. -/
def Spells (s : List Char) : Prop :=
  ∃ t rest, Signed x.neg s t ∧ Pointed x.ints x.fracs rest t ∧ Exponent x.exponent rest ∧
    Digits x.ints ∧ Digits x.fracs ∧ x.ints ++ x.fracs ≠ []

end Decimal

end FastMM.Foundation
