/-
  Foundation/LapBuffer.lean --- runs of bytes written round a buffer, none of them split.

  A buffer is filled from its front; when a run does not fit behind the last one, the writing
  restarts at offset zero.  The runs still kept are those of the lap being written, all before the
  head, and behind the head what is left of the lap before.  `Laps` says so of numbered runs, and
  that no two of them overlap; a run may be empty.
-/
import Mathlib.Data.List.Basic
set_option autoImplicit false

namespace FastMM.Foundation

/-! ## Bytes -/

section Bytes

variable {B : Type}

/-- `n` bytes from an offset. -/
def readAt (bytes : Nat → B) (off n : Nat) : List B := (List.range n).map fun i => bytes (off + i)

/-- `m` is copied to an offset. -/
def writeAt (bytes : Nat → B) (off : Nat) (m : List B) : Nat → B := fun o =>
  if off ≤ o then (m[o - off]?).getD (bytes o) else bytes o

theorem readAt_writeAt_self (bytes : Nat → B) (off : Nat) (m : List B) :
    readAt (writeAt bytes off m) off m.length = m := by
  refine List.ext_getElem? fun i => ?_
  unfold readAt writeAt
  rw [List.getElem?_map]
  by_cases hi : i < m.length
  · rw [List.getElem?_range hi]
    show some (if off ≤ off + i then (m[off + i - off]?).getD _ else _) = _
    rw [if_pos (Nat.le_add_right _ _), Nat.add_sub_cancel_left, List.getElem?_eq_getElem hi]
    rfl
  · have hle : m.length ≤ i := Nat.not_lt.mp hi
    rw [List.getElem?_eq_none (by rw [List.length_range]; exact hle), List.getElem?_eq_none hle]
    rfl

theorem readAt_writeAt_of_disjoint (bytes : Nat → B) {off off' n : Nat} {m : List B}
    (h : off + n ≤ off' ∨ off' + m.length ≤ off) :
    readAt (writeAt bytes off' m) off n = readAt bytes off n := by
  refine List.map_congr_left fun i hi => ?_
  rw [List.mem_range] at hi
  unfold writeAt
  split
  next hle =>
    rw [List.getElem?_eq_none (by omega)]
    rfl
  · rfl

end Bytes

/-! ## Laps -/

/-- The runs `first` to `last` stand in a buffer of `cap` bytes: those from `mid` on before
`head`, the others behind it, each lap in order. -/
structure Laps (start len : Nat → Nat) (first mid last head cap : Nat) : Prop where
  first_le : first ≤ mid
  mid_le : mid ≤ last + 1
  newer : ∀ s s', mid ≤ s → s < s' → s' ≤ last → start s + len s ≤ start s'
  before : ∀ s, mid ≤ s → s ≤ last → start s + len s ≤ head
  older : ∀ s s', first ≤ s → s < s' → s' < mid → start s + len s ≤ start s'
  behind : ∀ s, first ≤ s → s < mid → head ≤ start s
  fits : ∀ s, first ≤ s → s ≤ last → start s + len s ≤ cap
  head_le : head ≤ cap

namespace Laps

variable {start len start' len' : Nat → Nat} {first mid last head cap : Nat}

theorem empty (cap first : Nat) : Laps start len (first + 1) (first + 1) first 0 cap := by
  refine ⟨Nat.le_refl _, Nat.le_refl _, ?_, ?_, ?_, ?_, ?_, Nat.zero_le _⟩
  · intro s s' h₁ h₂ h₃
    omega
  · intro s h₁ h₂
    omega
  · intro s s' h₁ h₂ h₃
    omega
  · intro s h₁ h₂
    omega
  · intro s h₁ h₂
    omega

section

variable (h : Laps start len first mid last head cap)
include h

/-- Only the runs kept matter. -/
theorem congr
    (hsame : ∀ s, first ≤ s → s ≤ last → start' s = start s ∧ len' s = len s) :
    Laps start' len' first mid last head cap := by
  obtain ⟨hfirst, hmid, hnewer, hbefore, holder, hbehind, hfits, hhead⟩ := h
  refine ⟨hfirst, hmid, ?_, ?_, ?_, ?_, ?_, hhead⟩
  · intro s s' h₁ h₂ h₃
    rw [(hsame s (by omega) (by omega)).1, (hsame s (by omega) (by omega)).2,
      (hsame s' (by omega) (by omega)).1]
    exact hnewer s s' h₁ h₂ h₃
  · intro s h₁ h₂
    rw [(hsame s (by omega) h₂).1, (hsame s (by omega) h₂).2]
    exact hbefore s h₁ h₂
  · intro s s' h₁ h₂ h₃
    rw [(hsame s (by omega) (by omega)).1, (hsame s (by omega) (by omega)).2,
      (hsame s' (by omega) (by omega)).1]
    exact holder s s' h₁ h₂ h₃
  · intro s h₁ h₂
    rw [(hsame s h₁ (by omega)).1]
    exact hbehind s h₁ h₂
  · intro s h₁ h₂
    rw [(hsame s h₁ h₂).1, (hsame s h₁ h₂).2]
    exact hfits s h₁ h₂

/-- The oldest run goes. -/
theorem evict (hheld : first ≤ last) :
    Laps start len (first + 1) (max mid (first + 1)) last head cap := by
  have hmid := h.mid_le
  refine ⟨Nat.le_max_right _ _, by omega, ?_, ?_, ?_, ?_, ?_, h.head_le⟩
  · intro s s' h₁ h₂ h₃
    exact h.newer s s' (by omega) h₂ h₃
  · intro s h₁ h₂
    exact h.before s (by omega) h₂
  · intro s s' h₁ h₂ h₃
    exact h.older s s' (by omega) h₂ (by omega)
  · intro s h₁ h₂
    exact h.behind s (by omega) (by omega)
  · intro s h₁ h₂
    exact h.fits s (by omega) h₂

/-- Nothing is left of the lap before once the oldest run kept starts before the head. -/
theorem mid_le_first
    (hoff : first ≤ last → start first < head) : mid ≤ first := by
  by_contra hlt
  have hfirst : first ≤ last := by
    have hmid := h.mid_le
    omega
  exact absurd (h.behind first (Nat.le_refl _) (by omega)) (by
    omega)

/-- The writing restarts at the front, and the lap written becomes the lap before. -/
theorem wrap (hnone : mid ≤ first)
    (hle : first ≤ last + 1) : Laps start len first (last + 1) last 0 cap := by
  refine ⟨hle, Nat.le_refl _, ?_, ?_, ?_, ?_, h.fits, Nat.zero_le _⟩
  · intro s s' h₁ h₂ h₃
    omega
  · intro s h₁ h₂
    omega
  · intro s s' h₁ h₂ h₃
    exact h.newer s s' (by omega) h₂ (by omega)
  · intro s h₁ h₂
    exact Nat.zero_le _

/-- The lap before leaves `n` bytes behind the head once its oldest run does. -/
theorem room {n : Nat}
    (hoff : first ≤ last → start first < head ∨ head + n ≤ start first) :
    ∀ s, first ≤ s → s < mid → head + n ≤ start s := by
  intro s h₁ h₂
  have hmid := h.mid_le
  have hfirst : head + n ≤ start first := by
    rcases hoff (by omega) with hlt | hle
    · exact absurd (h.behind first (Nat.le_refl _) (by omega)) (by omega)
    · exact hle
  rcases Nat.eq_or_lt_of_le h₁ with rfl | hlt
  · exact hfirst
  · have horder := h.older first s (Nat.le_refl _) hlt h₂
    omega

/-- A run of `n` bytes is written at the head. -/
theorem push {n : Nat} (hfit : head + n ≤ cap)
    (hroom : ∀ s, first ≤ s → s < mid → head + n ≤ start s)
    (hsame : ∀ s, first ≤ s → s ≤ last → start' s = start s ∧ len' s = len s)
    (hstart : start' (last + 1) = head) (hlen : len' (last + 1) = n) :
    Laps start' len' first mid (last + 1) (head + n) cap := by
  have h' := h.congr hsame
  have hfirst := h.first_le
  have hmid := h.mid_le
  refine ⟨hfirst, by omega, ?_, ?_, ?_, ?_, ?_, hfit⟩
  · intro s s' h₁ h₂ h₃
    rcases Nat.eq_or_lt_of_le h₃ with rfl | hlt
    · rw [hstart]
      exact h'.before s h₁ (by omega)
    · exact h'.newer s s' h₁ h₂ (by omega)
  · intro s h₁ h₂
    rcases Nat.eq_or_lt_of_le h₂ with rfl | hlt
    · exact Nat.le_of_eq (by rw [hstart, hlen])
    · have hbefore := h'.before s h₁ (by omega)
      omega
  · exact h'.older
  · intro s h₁ h₂
    rw [(hsame s h₁ (by omega)).1]
    exact hroom s h₁ h₂
  · intro s h₁ h₂
    rcases Nat.eq_or_lt_of_le h₂ with rfl | hlt
    · rw [hstart, hlen]
      exact hfit
    · exact h'.fits s h₁ (by omega)

/-- A run kept and the run to be written do not overlap. -/
theorem apart {n s : Nat}
    (hroom : ∀ s, first ≤ s → s < mid → head + n ≤ start s) (h₁ : first ≤ s) (h₂ : s ≤ last) :
    start s + len s ≤ head ∨ head + n ≤ start s := by
  rcases Nat.lt_or_ge s mid with hlt | hge
  · exact .inr (hroom s h₁ hlt)
  · exact .inl (h.before s hge h₂)

end

end Laps

end FastMM.Foundation
