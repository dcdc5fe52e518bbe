/-
  Foundation/LittleEndian.lean --- numbers as bytes, the least significant one first, and records
  laid out field after field.
-/
import FastMM.Foundation.BigEndian
set_option autoImplicit false

namespace FastMM.Foundation

open List

/-! ## Numbers -/

def storeLe (width n : Nat) : List UInt8 := (storeBe width n).reverse

def loadLe (l : List UInt8) : Nat := loadBe l.reverse

@[simp] theorem length_storeLe (width n : Nat) : (storeLe width n).length = width := by
  unfold storeLe
  rw [length_reverse, length_storeBe]

/-- A number that fits is read back. -/
theorem loadLe_storeLe {width n : Nat} (h : n < 256 ^ width) : loadLe (storeLe width n) = n := by
  unfold loadLe storeLe
  rw [reverse_reverse, loadBe_storeBe h]

/-! ## Slices -/

section Slices

variable {α : Type} {a b l : List α} {off len : Nat}
variable {p : List α}

/-- `len` entries from `off` on. -/
def slice (off len : Nat) (l : List α) : List α := (l.drop off).take len

theorem length_slice (h : off + len ≤ l.length) : (slice off len l).length = len := by
  unfold slice
  rw [length_take, length_drop]
  omega

/-- What is sliced out of the first part. -/
theorem slice_append_left (h : off + len ≤ a.length) :
    slice off len (a ++ b) = slice off len a := by
  unfold slice
  rw [drop_append_of_le_length (by omega), take_append_of_le_length]
  rw [length_drop]
  omega

/-- What is sliced out of the second. -/
theorem slice_append_right (h : a.length ≤ off) :
    slice off len (a ++ b) = slice (off - a.length) len b := by
  unfold slice
  rw [drop_append, drop_eq_nil_of_le h, nil_append]

theorem slice_zero (a b : List α) : slice 0 a.length (a ++ b) = a := by
  unfold slice
  rw [drop_zero, take_left]

/-- A part between two others. -/
theorem slice_middle (a l b : List α) : slice a.length l.length (a ++ (l ++ b)) = l := by
  rw [slice_append_right (Nat.le_refl _), Nat.sub_self, slice_zero]

/-- A slice is of its own entries. -/
theorem slice_congr (h : ∀ i, off ≤ i → i < off + len → a[i]? = b[i]?) :
    slice off len a = slice off len b := by
  unfold slice
  refine ext_getElem? fun i => ?_
  rw [getElem?_take, getElem?_take]
  split_ifs with hi
  · rw [getElem?_drop, getElem?_drop]
    exact h _ (Nat.le_add_right _ _) (Nat.add_lt_add_left hi _)
  · rfl

/-- Entries written over those from `off` on. -/
def patch (off : Nat) (p l : List α) : List α := l.take off ++ (p ++ l.drop (off + p.length))

theorem length_patch (h : off + p.length ≤ l.length) : (patch off p l).length = l.length := by
  unfold patch
  rw [length_append, length_append, length_take, length_drop]
  omega

theorem slice_patch (off : Nat) (p : List α) {l : List α} (h : off ≤ l.length) :
    slice off p.length (patch off p l) = p := by
  have hmiddle := slice_middle (l.take off) p (l.drop (off + p.length))
  rwa [length_take, Nat.min_eq_left h] at hmiddle

theorem getElem?_patch (off i : Nat) {p l : List α} (h : off ≤ l.length) (hi : i < p.length) :
    (patch off p l)[off + i]? = p[i]? := by
  have htake : (l.take off).length = off := by
    rw [length_take]
    omega
  unfold patch
  rw [getElem?_append_right (by omega), htake, Nat.add_sub_cancel_left,
    getElem?_append_left hi]

theorem getElem?_patch_of_lt {i : Nat} (h : off ≤ l.length) (hi : i < off) :
    (patch off p l)[i]? = l[i]? := by
  unfold patch
  rw [getElem?_append_left (by rw [length_take]; omega), getElem?_take, if_pos hi]

theorem getElem?_patch_of_ge {i : Nat} (h : off ≤ l.length) (hi : off + p.length ≤ i) :
    (patch off p l)[i]? = l[i]? := by
  have htake : (l.take off).length = off := by
    rw [length_take]
    omega
  unfold patch
  rw [getElem?_append_right (by omega), htake, getElem?_append_right (by omega),
    getElem?_drop]
  congr 1
  omega

end Slices

/-! ## Records -/

section Records

variable {α : Type}

/-- A record taken apart into fields of given widths. -/
def cut : List Nat → List α → List (List α)
  | [], _ => []
  | w :: ws, l => l.take w :: cut ws (l.drop w)

/-- The fields a record was put together from. -/
theorem cut_flatten (fields : List (List α)) (rest : List α) :
    cut (fields.map List.length) (fields.flatten ++ rest) = fields := by
  induction fields with
  | nil => rfl
  | cons f fields ih =>
    rw [map_cons, flatten_cons, append_assoc, cut, take_left, drop_left, ih]

end Records

end FastMM.Foundation
