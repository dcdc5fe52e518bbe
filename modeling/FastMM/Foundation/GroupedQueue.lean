/-
  Foundation/GroupedQueue.lean --- a queue by rank and arrival, kept in groups of one rank.

  Groups stand in ascending order of their keys, and the elements of the last group come first.
  An element that joins the end of its group is inserted into the queue behind all that rank
  with it or above.
-/
import FastMM.Foundation.SortedTables
set_option autoImplicit false

namespace FastMM.Foundation

open List

variable {K A : Type}
variable (L R : List (K × List A))

/-- The queue: the last group's elements first. -/
def flat : List (K × List A) → List A
  | [] => []
  | g :: gs => flat gs ++ g.2

theorem flat_append : flat (L ++ R) = flat R ++ flat L := by
  induction L with
  | nil => exact (append_nil _).symm
  | cons g L ih => rw [cons_append, flat, flat, ih, append_assoc]

/-- The queue about a group. -/
theorem flat_split (g : K × List A) : flat (L ++ g :: R) = flat R ++ (g.2 ++ flat L) := by
  rw [flat_append, flat, append_assoc]

theorem mem_flat {gs : List (K × List A)} {a : A} : a ∈ flat gs ↔ ∃ g ∈ gs, a ∈ g.2 := by
  induction gs with
  | nil => simp [flat]
  | cons g gs ih => simp [flat, ih, or_comm]

section Insertion

variable [LinearOrder K] {B : Type} {rank : B → K}

/-- An element goes behind all that rank with it or above. -/
def insertBehind (rank : B → K) (b : B) (q : List B) : List B :=
  q.takeWhile (fun c => rank b ≤ rank c) ++ b :: q.dropWhile (fun c => rank b ≤ rank c)

theorem insertBehind_eq {b : B} {l r : List B} (hl : ∀ c ∈ l, rank b ≤ rank c)
    (hr : ∀ c ∈ r, rank c < rank b) : insertBehind rank b (l ++ r) = l ++ b :: r := by
  have hstop : r.takeWhile (fun c => rank b ≤ rank c) = [] ∧
      r.dropWhile (fun c => rank b ≤ rank c) = r := by
    cases r with
    | nil => exact ⟨rfl, rfl⟩
    | cons c r =>
      have hc : ¬ rank b ≤ rank c := not_le.mpr (hr c mem_cons_self)
      exact ⟨by simp [hc], by simp [hc]⟩
  unfold insertBehind
  rw [takeWhile_append_of_pos fun c hc => by simpa using hl c hc,
    dropWhile_append_of_pos fun c hc => by simpa using hl c hc, hstop.1, hstop.2,
    append_nil]

end Insertion

end FastMM.Foundation
