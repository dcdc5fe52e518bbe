/-
  Foundation/BigEndian.lean --- numbers as bytes, the most significant one first.
-/
import Mathlib.Algebra.Ring.Nat
set_option autoImplicit false

namespace FastMM.Foundation

/-- The low `width` bytes of a number. -/
def storeBe : Nat → Nat → List UInt8
  | 0, _ => []
  | width + 1, n => UInt8.ofNat (n / 256 ^ width) :: storeBe width n

/-- The number some bytes stand for. -/
def loadBe : List UInt8 → Nat
  | [] => 0
  | b :: l => b.toNat * 256 ^ l.length + loadBe l

@[simp] theorem length_storeBe (width n : Nat) : (storeBe width n).length = width := by
  induction width with
  | zero => rfl
  | succ w ih => rw [storeBe, List.length_cons, ih]

theorem loadBe_storeBe_mod (width n : Nat) : loadBe (storeBe width n) = n % 256 ^ width := by
  induction width with
  | zero => simp [storeBe, loadBe, Nat.mod_one]
  | succ w ih =>
    have htop : (UInt8.ofNat (n / 256 ^ w)).toNat = n / 256 ^ w % 256 := UInt8.toNat_ofNat'
    rw [storeBe, loadBe, ih, length_storeBe, htop, @Nat.mod_pow_succ n 256 w,
      Nat.mul_comm (256 ^ w), Nat.add_comm]

/-- A number that fits is read back. -/
theorem loadBe_storeBe {width n : Nat} (h : n < 256 ^ width) : loadBe (storeBe width n) = n := by
  rw [loadBe_storeBe_mod, Nat.mod_eq_of_lt h]

theorem loadBe_lt (l : List UInt8) : loadBe l < 256 ^ l.length := by
  induction l with
  | nil => simp [loadBe]
  | cons b l ih =>
    have hb : b.toNat ≤ 255 := Nat.le_of_lt_succ b.toNat_lt
    have hmul := Nat.mul_le_mul_right (256 ^ l.length) hb
    rw [loadBe, List.length_cons, Nat.pow_succ]
    omega

end FastMM.Foundation
