/-
  Foundation/SlotRing.lean --- numbered values kept in a ring of slots.

  A value numbered `n` is kept in slot `n % window`.  While the numbers present lie
  within one window above `lo`, a slot holds the value its number says, no two values
  meet in one slot, and the window may move up past numbers that are not there.
-/
import Mathlib.Data.List.Basic
set_option autoImplicit false

namespace FastMM.Foundation

open List

variable {α : Type} {key : α → Nat}
variable {slots : List (Option α)}

/-! ## Slots that are used or free -/

/-- The values left after a slot was freed, none of them in it. -/
theorem getElem?_free {i j : Nat} {a : α}
    (h : (slots.set i none)[j]? = some (some a)) : j ≠ i ∧ slots[j]? = some (some a) := by
  rw [getElem?_set] at h
  split at h
  · split at h <;> simp at h
  · exact ⟨fun he => absurd he.symm ‹_›, h⟩

/-- The values there after a slot was filled. -/
theorem getElem?_fill {i j : Nat} {a b : α} (h : (slots.set i (some a))[j]? = some (some b)) :
    (j = i ∧ b = a) ∨ slots[j]? = some (some b) := by
  rw [getElem?_set] at h
  split at h
  · rename_i hij
    split at h
    · exact .inl ⟨hij.symm, (Option.some.inj (Option.some.inj h)).symm⟩
    · simp at h
  · exact .inr h

/-- Freeing a used slot leaves one less. -/
theorem countP_free {i : Nat} {a : α} (h : slots[i]? = some (some a)) :
    (slots.set i none).countP Option.isSome = slots.countP Option.isSome - 1 := by
  obtain ⟨hi, hget⟩ := List.getElem?_eq_some_iff.mp h
  rw [countP_set hi, hget]
  simp

/-- Filling a free slot makes one more. -/
theorem countP_fill {i : Nat} (a : α) (h : slots[i]? = some none) :
    (slots.set i (some a)).countP Option.isSome = slots.countP Option.isSome + 1 := by
  obtain ⟨hi, hget⟩ := List.getElem?_eq_some_iff.mp h
  rw [countP_set hi, hget]
  simp

theorem countP_pos_of_used {i : Nat} {a : α}
    (h : slots[i]? = some (some a)) : 0 < slots.countP Option.isSome := by
  rw [countP_pos_iff]
  exact ⟨some a, mem_of_getElem? h, rfl⟩

/-- The values of the used slots. -/
theorem mem_filterMap_slots {a : α} :
    a ∈ slots.filterMap (fun x => x) ↔ ∃ i : Nat, slots[i]? = some (some a) := by
  rw [mem_filterMap]
  constructor
  · rintro ⟨x, hx, rfl⟩
    exact mem_iff_getElem?.mp hx
  · rintro ⟨i, hi⟩
    exact ⟨some a, mem_of_getElem? hi, rfl⟩

/-- The least of some numbers lies between any bounds all of them lie between. -/
theorem foldl_min_bounds {β : Type} (f : β → Nat) {lo hi : Nat} (l : List β) (hle : lo ≤ hi)
    (h : ∀ x ∈ l, lo ≤ f x) :
    lo ≤ l.foldl (fun m x => min m (f x)) hi ∧ l.foldl (fun m x => min m (f x)) hi ≤ hi := by
  induction l generalizing hi with
  | nil => exact ⟨hle, Nat.le_refl _⟩
  | cons x l ih =>
    have hx := h x mem_cons_self
    obtain ⟨h₁, h₂⟩ := @ih (min hi (f x)) (Nat.le_min.mpr ⟨hle, hx⟩)
      (fun y hy => h y (mem_cons_of_mem x hy))
    exact ⟨h₁, Nat.le_trans h₂ (Nat.min_le_left _ _)⟩

/-! ## The ring -/

/-- `count` slots are used, each by a value within one window above `lo`, in its own slot. -/
structure SlotRing (key : α → Nat) (window : Nat) (slots : List (Option α)) (count lo : Nat) :
    Prop where
  length : slots.length = window
  count_eq : count = slots.countP Option.isSome
  slot : ∀ (i : Nat) (a : α), slots[i]? = some (some a) →
    key a % window = i ∧ lo ≤ key a ∧ key a < lo + window

namespace SlotRing

variable {window : Nat} {slots : List (Option α)} {count lo : Nat}

theorem empty (window lo : Nat) : SlotRing key window (List.replicate window none) 0 lo where
  length := by simp
  count_eq := by
    rw [eq_comm, countP_eq_zero]
    intro x hx
    simp [eq_of_mem_replicate hx]
  slot := by
    intro i a h
    simp [getElem?_replicate] at h

/-- A used slot is counted. -/
theorem count_pos {i : Nat} {a : α} (h : SlotRing key window slots count lo)
    (ha : slots[i]? = some (some a)) : 0 < count :=
  h.count_eq ▸ countP_pos_of_used ha

/-- With nothing counted every slot is free. -/
theorem no_value (h : SlotRing key window slots 0 lo) (i : Nat) (a : α) :
    slots[i]? ≠ some (some a) :=
  fun ha => absurd (h.count_pos ha) (Nat.lt_irrefl 0)

/-- The window moves up past a number that is not there. -/
theorem up (h : SlotRing key window slots count lo)
    (hno : ∀ (i : Nat) (a : α), slots[i]? = some (some a) → key a ≠ lo) :
    SlotRing key window slots count (lo + 1) where
  length := h.length
  count_eq := h.count_eq
  slot := by
    intro i a ha
    obtain ⟨hi, hlo, hhi⟩ := h.slot i a ha
    have hne := hno i a ha
    omega

/-- An empty ring may be anywhere. -/
theorem move (h : SlotRing key window slots 0 lo) (lo' : Nat) :
    SlotRing key window slots 0 lo' where
  length := h.length
  count_eq := h.count_eq
  slot := fun i a ha => absurd ha (h.no_value i a)

section

variable (h : SlotRing key window slots count lo)
include h

/-- A value is taken out. -/
theorem remove {i : Nat} {a : α}
    (ha : slots[i]? = some (some a)) :
    SlotRing key window (slots.set i none) (count - 1) lo where
  length := by rw [length_set, h.length]
  count_eq := by rw [countP_free ha, h.count_eq]
  slot := fun j b hb => h.slot j b (getElem?_free hb).2

/-- Taking out the value numbered `lo` leaves none numbered so. -/
theorem remove_ne {i : Nat} {a : α}
    (ha : slots[i]? = some (some a)) {j : Nat} {b : α}
    (hb : (slots.set i none)[j]? = some (some b)) : key b ≠ key a := by
  obtain ⟨hne, hb'⟩ := getElem?_free hb
  intro hkey
  exact hne ((h.slot j b hb').1.symm.trans (hkey ▸ (h.slot i a ha).1))

/-- The slot of a number within the window holds the value numbered so, if any value is. -/
theorem key_eq_of_slot {n : Nat} {a : α}
    (hlo : lo ≤ n) (hhi : n < lo + window) (ha : slots[n % window]? = some (some a)) :
    key a = n := by
  obtain ⟨hmod, hlo', hhi'⟩ := h.slot _ a ha
  have hdiv := Nat.div_add_mod n window
  have hdiv' := Nat.div_add_mod (key a) window
  rw [hmod] at hdiv'
  rcases Nat.lt_trichotomy (n / window) (key a / window) with hlt | heq | hgt
  · have hmul := Nat.mul_le_mul_left window (Nat.succ_le_of_lt hlt)
    rw [Nat.succ_eq_add_one, Nat.mul_add, Nat.mul_one] at hmul
    omega
  · rw [heq] at hdiv
    omega
  · have hmul := Nat.mul_le_mul_left window (Nat.succ_le_of_lt hgt)
    rw [Nat.succ_eq_add_one, Nat.mul_add, Nat.mul_one] at hmul
    omega

/-- A value within the window is put into its free slot. -/
theorem put {a : α}
    (hlo : lo ≤ key a) (hhi : key a < lo + window)
    (hfree : ∀ b, slots[key a % window]? ≠ some (some b)) :
    SlotRing key window (slots.set (key a % window) (some a)) (count + 1) lo where
  length := by rw [length_set, h.length]
  count_eq := by
    have hi : key a % window < slots.length := by
      rw [h.length]
      exact Nat.mod_lt _ (by omega)
    have hnone : slots[key a % window] = none := by
      cases hget : slots[key a % window] with
      | none => rfl
      | some b => exact absurd (List.getElem?_eq_some_iff.mpr ⟨hi, hget⟩) (hfree b)
    rw [countP_fill a (List.getElem?_eq_some_iff.mpr ⟨hi, hnone⟩), h.count_eq]
  slot := by
    intro j b hb
    rcases getElem?_fill hb with ⟨hj, rfl⟩ | hb
    · exact ⟨hj.symm, hlo, hhi⟩
    · exact h.slot j b hb

/-- No two slots hold values of one number. -/
theorem values_ne :
    (slots.filterMap fun x => x).Pairwise fun a b => key a ≠ key b := by
  rw [pairwise_filterMap, pairwise_iff_getElem]
  intro i j hi hj hij a ha b hb hkey
  have hia := (h.slot i a (List.getElem?_eq_some_iff.mpr ⟨hi, ha⟩)).1
  have hjb := (h.slot j b (List.getElem?_eq_some_iff.mpr ⟨hj, hb⟩)).1
  rw [hkey] at hia
  omega

end

/-- Values with numbers of their own within a window fill a ring, in any order. -/
theorem refill (l : List α) (hne : l.Pairwise fun a b => key a ≠ key b)
    (hin : ∀ a ∈ l, lo ≤ key a ∧ key a < lo + window)
    (hfar : ∀ a ∈ l, ∀ (i : Nat) b, slots[i]? = some (some b) → key b ≠ key a)
    (h : SlotRing key window slots count lo) :
    SlotRing key window (l.foldl (fun m a => m.set (key a % window) (some a)) slots)
        (count + l.length) lo ∧
      ∀ a, (∃ i : Nat, (l.foldl (fun m a => m.set (key a % window) (some a)) slots)[i]? =
        some (some a)) ↔ a ∈ l ∨ ∃ i : Nat, slots[i]? = some (some a) := by
  induction l generalizing slots count with
  | nil => exact ⟨h, fun a => by simp⟩
  | cons x l ih =>
    obtain ⟨hlo, hhi⟩ := hin x mem_cons_self
    rw [pairwise_cons] at hne
    have hfree : ∀ b, slots[key x % window]? ≠ some (some b) := fun b hb =>
      hfar x mem_cons_self _ b hb (h.key_eq_of_slot hlo hhi hb)
    have hput := h.put hlo hhi hfree
    have hidx : key x % window < slots.length := by
      rw [h.length]
      exact Nat.mod_lt _ (by omega)
    obtain ⟨i₁, i₂⟩ := ih hne.2 (fun a ha => hin a (mem_cons_of_mem x ha)) (by
      intro a ha i b hb
      rcases getElem?_fill hb with ⟨-, rfl⟩ | hb
      · exact hne.1 a ha
      · exact hfar a (mem_cons_of_mem x ha) i b hb) hput
    rw [foldl_cons, length_cons, Nat.add_comm l.length 1, ← Nat.add_assoc]
    refine ⟨i₁, fun a => (i₂ a).trans ?_⟩
    rw [mem_cons]
    constructor
    · rintro (ha | ⟨i, hi⟩)
      · exact .inl (.inr ha)
      · rcases getElem?_fill hi with ⟨-, rfl⟩ | hi
        · exact .inl (.inl rfl)
        · exact .inr ⟨i, hi⟩
    · rintro ((rfl | ha) | ⟨i, hi⟩)
      · exact .inr ⟨_, getElem?_set_self hidx⟩
      · exact .inl ha
      refine .inr ⟨i, ?_⟩
      rw [getElem?_set_ne, hi]
      rintro rfl
      exact hfree a hi

end SlotRing

end FastMM.Foundation
