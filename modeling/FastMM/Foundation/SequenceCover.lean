/-
  Foundation/SequenceCover.lean --- a numbered stream cut into what was taken and what was lost.

  A receiver of numbered packets or messages leaves a history: numbers it took, one at a
  time, and runs of numbers it gave up.  `Tiles a l b` says that the history `l` cuts
  the numbers from `a` up to `b` into such stretches with nothing left out and nothing
  counted twice.
-/
import Mathlib.Algebra.Ring.Nat
import Mathlib.Logic.ExistsUnique
set_option autoImplicit false

namespace FastMM.Foundation

/-- One stretch of a numbered stream: a number that was taken, or a run given up. -/
inductive Stretch where
  | taken (seq : Nat)
  | lost (first count : Nat)
deriving DecidableEq, Repr

namespace Stretch

/-- The first number of the stretch. -/
def start : Stretch → Nat
  | taken seq => seq
  | lost first _ => first

/-- The number after the last one of the stretch. -/
def stop : Stretch → Nat
  | taken seq => seq + 1
  | lost first count => first + count

/-- The number lies in the stretch. -/
def Has (s : Stretch) (n : Nat) : Prop :=
  s.start ≤ n ∧ n < s.stop

/-- How many numbers of the stretch were given up. -/
def lostCount : Stretch → Nat
  | taken _ => 0
  | lost _ count => count

/-- The number a taken stretch took. -/
def takenSeq : Stretch → Option Nat
  | taken seq => some seq
  | lost _ _ => none

end Stretch

/-- The stretches follow one another from `a` up to `b`, none of them empty. -/
inductive Tiles : Nat → List Stretch → Nat → Prop
  | nil (a : Nat) : Tiles a [] a
  | cons {b : Nat} {s : Stretch} {l : List Stretch} (hs : s.start < s.stop)
      (hl : Tiles s.stop l b) : Tiles s.start (s :: l) b

/-- The numbers taken, in the order they were. -/
def takenSeqs (l : List Stretch) : List Nat :=
  l.filterMap Stretch.takenSeq

/-- How many numbers were given up. -/
def lostTotal (l : List Stretch) : Nat :=
  (l.map Stretch.lostCount).sum

@[simp] theorem lostTotal_append (l m : List Stretch) :
    lostTotal (l ++ m) = lostTotal l + lostTotal m := by
  simp [lostTotal]

namespace Tiles

variable {a b c : Nat} {l m : List Stretch}

theorem le (h : Tiles a l b) : a ≤ b := by
  induction h with
  | nil a => exact le_refl a
  | cons hs _ ih => omega

theorem append (hl : Tiles a l b) (hm : Tiles b m c) : Tiles a (l ++ m) c := by
  induction hl with
  | nil a => exact hm
  | cons hs _ ih => exact .cons hs (ih hm)

section

variable (h : Tiles a l b)
include h

/-- One more number is taken. -/
theorem take : Tiles a (l ++ [.taken b]) (b + 1) :=
  h.append (.cons (s := .taken b) (Nat.lt_succ_self b) (.nil _))

/-- One more run is given up. -/
theorem lose {n : Nat} (hn : 0 < n) :
    Tiles a (l ++ [.lost b n]) (b + n) :=
  h.append (.cons (s := .lost b n) (Nat.lt_add_of_pos_right hn) (.nil _))

/-- Every stretch lies between the ends. -/
theorem mem_bounds {s : Stretch} (hs : s ∈ l) : a ≤ s.start ∧ s.stop ≤ b := by
  induction h with
  | nil a => simp at hs
  | cons hlt hl ih =>
    rcases List.mem_cons.mp hs with rfl | hs
    · exact ⟨le_refl _, hl.le⟩
    · exact ⟨le_trans (le_of_lt hlt) (ih hs).1, (ih hs).2⟩

/-- The numbers taken increase. -/
theorem takenSeqs_pairwise : (takenSeqs l).Pairwise (· < ·) := by
  induction h with
  | nil a => exact List.Pairwise.nil
  | @cons b s l hlt hl ih =>
    cases s with
    | lost first count => exact ih
    | taken seq =>
      refine List.Pairwise.cons (fun n hn => ?_) ih
      obtain ⟨t, ht, htn⟩ := List.mem_filterMap.mp hn
      cases t with
      | lost first count => simp [Stretch.takenSeq] at htn
      | taken m =>
        have hle : seq + 1 ≤ m := (hl.mem_bounds ht).1
        simp only [Stretch.takenSeq, Option.some.injEq] at htn
        omega

/-- A number taken lies before the end. -/
theorem lt_of_taken {n : Nat} (hn : n ∈ takenSeqs l) : n < b := by
  obtain ⟨t, ht, htn⟩ := List.mem_filterMap.mp hn
  have hstop := (h.mem_bounds ht).2
  cases t with
  | lost first count => simp [Stretch.takenSeq] at htn
  | taken m =>
    simp only [Stretch.takenSeq, Option.some.injEq] at htn
    simp only [Stretch.stop] at hstop
    omega

/-- Every number between the ends lies in exactly one stretch. -/
theorem existsUnique_has {n : Nat} (ha : a ≤ n) (hb : n < b) :
    ∃! i : Nat, ∃ s, l[i]? = some s ∧ s.Has n := by
  induction h with
  | nil a => omega
  | @cons b s l hlt hl ih =>
    by_cases hn : n < s.stop
    · refine ⟨0, ⟨s, rfl, ha, hn⟩, ?_⟩
      rintro (_ | i) ⟨t, ht, hlo, -⟩
      · rfl
      · have hge := (hl.mem_bounds (List.mem_of_getElem? ht)).1
        omega
    · obtain ⟨i, ⟨t, ht, hhas⟩, huniq⟩ := ih (not_lt.mp hn) hb
      refine ⟨i + 1, ⟨t, ht, hhas⟩, ?_⟩
      rintro (_ | j) ⟨u, hu, hlo, hhi⟩
      · obtain rfl : s = u := Option.some.inj hu
        exact absurd hhi hn
      · rw [huniq j ⟨u, hu, hlo, hhi⟩]

end

end Tiles

end FastMM.Foundation
