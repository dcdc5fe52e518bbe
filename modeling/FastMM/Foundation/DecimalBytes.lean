/-
  Foundation/DecimalBytes.lean --- numbers as the bytes of their decimal digits.
-/
import Mathlib.Algebra.Order.Group.Nat
import Mathlib.Tactic.Ring
set_option autoImplicit false

namespace FastMM.Foundation

open List

/-! ## Digits -/

/-- The characters of a text, each a byte. -/
def ascii (s : String) : List UInt8 := s.toList.map fun c => .ofNat c.toNat

def isDigitByte (c : UInt8) : Bool := 48 ≤ c.toNat && c.toNat ≤ 57

/-- What a digit is worth. -/
def byteVal (c : UInt8) : Nat := c.toNat - 48

/-- The digit of a number below ten. -/
def digitByte (d : Nat) : UInt8 := .ofNat (48 + d)

/-- What digits are worth behind a number. -/
def readDigits (n : Nat) (ds : List UInt8) : Nat := ds.foldl (fun n c => n * 10 + byteVal c) n

/-- The last `width` digits of a number. -/
def writeDigits : Nat → Nat → List UInt8
  | 0, _ => []
  | width + 1, v => writeDigits width (v / 10) ++ [digitByte (v % 10)]

/-- The number of digits, counted within a bound. -/
def countFrom : Nat → Nat → Nat
  | 0, _ => 1
  | n + 1, v => if v < 10 then 1 else countFrom n (v / 10) + 1

def countDigits (v : Nat) : Nat := countFrom v v

/-- A number in as many digits as it has. -/
def decimalBytes (v : Nat) : List UInt8 := writeDigits (countDigits v) v

section Digits

variable {c : UInt8} {d v n width : Nat} {a b ds : List UInt8}

theorem isDigitByte_iff : isDigitByte c = true ↔ 48 ≤ c.toNat ∧ c.toNat ≤ 57 := by
  unfold isDigitByte
  rw [Bool.and_eq_true, decide_eq_true_iff, decide_eq_true_iff]

theorem toNat_digitByte (h : d < 10) : (digitByte d).toNat = 48 + d := by
  refine (UInt8.toNat_ofNat' ..).trans (Nat.mod_eq_of_lt ?_)
  omega

theorem digitByte_spec (h : d < 10) :
    isDigitByte (digitByte d) = true ∧ byteVal (digitByte d) = d := by
  have hd := toNat_digitByte h
  refine ⟨isDigitByte_iff.mpr ?_, ?_⟩
  · omega
  · unfold byteVal
    omega

/-- A digit is told by what it is worth. -/
theorem byteVal_inj {c' : UInt8} (h : isDigitByte c = true) (h' : isDigitByte c' = true)
    (hv : byteVal c = byteVal c') : c = c' := by
  have hc := isDigitByte_iff.mp h
  have hc' := isDigitByte_iff.mp h'
  unfold byteVal at hv
  apply UInt8.toNat_inj.mp
  omega

theorem byteVal_lt (h : isDigitByte c = true) : byteVal c < 10 := by
  have hc := isDigitByte_iff.mp h
  unfold byteVal
  omega

theorem readDigits_append (n : Nat) (a b : List UInt8) :
    readDigits n (a ++ b) = readDigits (readDigits n a) b := foldl_append ..

theorem readDigits_eq (n : Nat) (ds : List UInt8) :
    readDigits n ds = n * 10 ^ ds.length + readDigits 0 ds := by
  induction ds generalizing n with
  | nil => simp [readDigits]
  | cons c ds ih =>
    have hcons : ∀ m, readDigits m (c :: ds) = readDigits (m * 10 + byteVal c) ds := fun _ => rfl
    rw [hcons, hcons, ih, ih (0 * 10 + byteVal c), length_cons, pow_succ]
    ring

theorem readDigits_lt (h : ∀ c ∈ ds, isDigitByte c = true) : readDigits 0 ds < 10 ^ ds.length := by
  induction ds with
  | nil => exact Nat.one_pos
  | cons c ds ih =>
    have hc := byteVal_lt (h c mem_cons_self)
    have hrest := ih fun x hx => h x (mem_cons_of_mem _ hx)
    have hcons : readDigits 0 (c :: ds) = readDigits (0 * 10 + byteVal c) ds := rfl
    have hmul : (byteVal c + 1) * 10 ^ ds.length ≤ 10 * 10 ^ ds.length :=
      Nat.mul_le_mul_right _ hc
    rw [hcons, readDigits_eq, length_cons, pow_succ]
    rw [Nat.add_mul, Nat.one_mul] at hmul
    rw [Nat.zero_mul, Nat.zero_add, Nat.mul_comm _ 10]
    omega

/-- Digits are told by what they are worth. -/
theorem readDigits_inj (ha : ∀ c ∈ a, isDigitByte c = true) (hb : ∀ c ∈ b, isDigitByte c = true)
    (hlen : a.length = b.length) (h : readDigits 0 a = readDigits 0 b) : a = b := by
  induction a generalizing b with
  | nil => exact (eq_nil_of_length_eq_zero hlen.symm).symm
  | cons c a ih =>
    obtain ⟨c', b, rfl⟩ : ∃ c' b', b = c' :: b' :=
      exists_cons_of_length_pos (hlen ▸ Nat.succ_pos _)
    have hsame : a.length = b.length := Nat.succ.inj hlen
    have hcons : ∀ (x : UInt8) (l : List UInt8),
        readDigits 0 (x :: l) = byteVal x * 10 ^ l.length + readDigits 0 l := by
      intro x l
      have hx : readDigits 0 (x :: l) = readDigits (0 * 10 + byteVal x) l := rfl
      rw [hx, readDigits_eq, Nat.zero_mul, Nat.zero_add]
    have ha' : ∀ c ∈ a, isDigitByte c = true := fun x hx => ha x (mem_cons_of_mem _ hx)
    have hb' : ∀ c ∈ b, isDigitByte c = true := fun x hx => hb x (mem_cons_of_mem _ hx)
    have hlow := readDigits_lt ha'
    have hlow' := readDigits_lt hb'
    rw [hcons, hcons, ← hsame] at h
    rw [← hsame] at hlow'
    have hfirst : byteVal c = byteVal c' := by
      have hdiv := congrArg (· / 10 ^ a.length) h
      have hpos : 0 < 10 ^ a.length := Nat.pow_pos (by decide)
      rwa [Nat.add_comm, Nat.add_mul_div_right _ _ hpos, Nat.div_eq_of_lt hlow, Nat.zero_add,
        Nat.add_comm, Nat.add_mul_div_right _ _ hpos, Nat.div_eq_of_lt hlow', Nat.zero_add] at hdiv
    have hrest : readDigits 0 a = readDigits 0 b := by
      rw [hfirst] at h
      exact Nat.add_left_cancel h
    rw [byteVal_inj (ha c mem_cons_self) (hb c' mem_cons_self) hfirst, ih ha' hb' hsame hrest]

@[simp] theorem length_writeDigits (width v : Nat) : (writeDigits width v).length = width := by
  induction width generalizing v with
  | zero => rfl
  | succ width ih => rw [writeDigits, length_append, ih, length_singleton]

theorem isDigit_writeDigits (h : c ∈ writeDigits width v) : isDigitByte c = true := by
  induction width generalizing v with
  | zero => exact absurd h not_mem_nil
  | succ width ih =>
    rw [writeDigits, mem_append, mem_singleton] at h
    rcases h with h | rfl
    · exact ih h
    · exact (digitByte_spec (Nat.mod_lt _ (by decide))).1

theorem readDigits_writeDigits (n width v : Nat) :
    readDigits n (writeDigits width v) = n * 10 ^ width + v % 10 ^ width := by
  induction width generalizing v with
  | zero => simp [readDigits, writeDigits, Nat.mod_one]
  | succ width ih =>
    have hlast := (digitByte_spec (Nat.mod_lt v (show 0 < 10 by decide))).2
    have hone : ∀ m, readDigits m [digitByte (v % 10)] = m * 10 + v % 10 :=
      fun m => congrArg (m * 10 + ·) hlast
    rw [writeDigits, readDigits_append, ih, hone, Nat.add_mul, Nat.pow_succ, ← Nat.mul_assoc,
      Nat.mul_comm (10 ^ width) 10, Nat.mod_mul]
    omega

/-! ## As many digits as there are -/

theorem countFrom_spec {n v : Nat} (h : v ≤ n) :
    1 ≤ countFrom n v ∧ v < 10 ^ countFrom n v ∧ (1 ≤ v → 10 ^ (countFrom n v - 1) ≤ v) := by
  induction n generalizing v with
  | zero =>
    obtain rfl : v = 0 := by omega
    exact ⟨Nat.le_refl 1, by decide, fun h => absurd h (by decide)⟩
  | succ n ih =>
    rw [countFrom]
    split_ifs with hv
    · exact ⟨Nat.le_refl 1, hv, fun h => h⟩
    obtain ⟨hpos, hlt, hle⟩ := ih (v := v / 10) (by omega)
    obtain ⟨k, hk⟩ : ∃ k, countFrom n (v / 10) = k + 1 := ⟨countFrom n (v / 10) - 1, by omega⟩
    rw [hk, Nat.pow_succ] at hlt
    rw [hk, Nat.add_sub_cancel] at hle
    rw [hk, Nat.add_sub_cancel, Nat.pow_succ, Nat.pow_succ]
    refine ⟨by omega, ?_, fun _ => ?_⟩
    · omega
    · omega

theorem countDigits_pos (v : Nat) : 1 ≤ countDigits v := (countFrom_spec (Nat.le_refl v)).1

theorem lt_pow_countDigits (v : Nat) : v < 10 ^ countDigits v :=
    (countFrom_spec (Nat.le_refl v)).2.1

theorem pow_countDigits_le (h : 1 ≤ v) : 10 ^ (countDigits v - 1) ≤ v :=
  (countFrom_spec (Nat.le_refl v)).2.2 h

/-- Digits are few where the number is small. -/
theorem countDigits_le {k : Nat} (hk : 1 ≤ k) (h : v < 10 ^ k) : countDigits v ≤ k := by
  by_contra hgt
  have hpos : 1 ≤ v := by
    by_contra hzero
    obtain rfl : v = 0 := by omega
    exact hgt hk
  have hle := (Nat.pow_le_pow_right (show 0 < 10 by decide)
    (show k ≤ countDigits v - 1 by omega)).trans (pow_countDigits_le hpos)
  omega

@[simp] theorem length_decimalBytes (v : Nat) : (decimalBytes v).length = countDigits v :=
  length_writeDigits ..

theorem isDigit_decimalBytes (h : c ∈ decimalBytes v) : isDigitByte c = true :=
  isDigit_writeDigits h

theorem readDigits_decimalBytes (v : Nat) : readDigits 0 (decimalBytes v) = v := by
  unfold decimalBytes
  rw [readDigits_writeDigits, Nat.zero_mul, Nat.zero_add, Nat.mod_eq_of_lt (lt_pow_countDigits v)]

theorem decimalBytes_ne_nil (v : Nat) : decimalBytes v ≠ [] := by
  intro h
  have hlen := length_decimalBytes v
  rw [h, length_nil] at hlen
  have := countDigits_pos v
  omega

/-- A positive number does not begin with a zero. -/
theorem head_decimalBytes (hv : 1 ≤ v) (h : decimalBytes v = c :: ds) : c ≠ 48 := by
  rintro rfl
  have hread := readDigits_decimalBytes v
  have hlen := length_decimalBytes v
  rw [h] at hread hlen
  have hzero : readDigits 0 ((48 : UInt8) :: ds) = readDigits 0 ds := rfl
  have hlt : readDigits 0 ds < 10 ^ ds.length :=
    readDigits_lt fun x hx => isDigit_decimalBytes (h ▸ mem_cons_of_mem _ hx)
  have hle := pow_countDigits_le hv
  rw [length_cons] at hlen
  rw [hzero] at hread
  rw [← hlen, Nat.add_sub_cancel] at hle
  omega

end Digits

end FastMM.Foundation
