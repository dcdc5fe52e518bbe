/-
  Foundation/SlidingWindow.lean --- at most so many events in any window of time.

  A sliding-window limiter keeps the times of its recent events in a queue, drops from the front
  what is a window old, and lets an event happen while the queue is shorter than the limit.  The
  bound it keeps is about every window of the whole history, not about the queue alone.
-/
import Mathlib.Algebra.Order.Group.Defs
import Mathlib.Order.Defs.LinearOrder
set_option autoImplicit false

namespace FastMM.Foundation

open List

variable {T : Type} [AddCommGroup T] [LinearOrder T] [IsOrderedAddMonoid T]

/-- Every window `(t - width, t]` has at most `limit` of the times. -/
def AtMostIn (limit : Nat) (width : T) (times : List T) : Prop :=
  ∀ t, (times.filter fun x => t - width < x ∧ x ≤ t).length ≤ limit

omit [IsOrderedAddMonoid T] in
theorem AtMostIn.nil (limit : Nat) (width : T) : AtMostIn limit width [] :=
  fun _ => Nat.zero_le _

/-- An event at `now` keeps the bound when all but fewer than `limit` of the times are a window
old. -/
theorem AtMostIn.snoc {limit : Nat} {width now : T} {old recent : List T}
    (h : AtMostIn limit width (old ++ recent)) (hold : ∀ x ∈ old, x ≤ now - width)
    (hroom : recent.length < limit) : AtMostIn limit width (old ++ recent ++ [now]) := by
  intro t
  rw [filter_append, length_append]
  by_cases hin : t - width < now ∧ now ≤ t
  · have hnone : (old.filter fun x => t - width < x ∧ x ≤ t) = [] := by
      rw [filter_eq_nil_iff]
      intro x hx hmem
      have hlt := (of_decide_eq_true hmem).1
      have hle := le_trans (hold x hx) (sub_le_sub_right hin.2 width)
      exact absurd hlt (not_lt.mpr hle)
    rw [filter_append, hnone, nil_append]
    have hfew := length_filter_le (fun x => decide (t - width < x ∧ x ≤ t)) recent
    have hone := length_filter_le (fun x => decide (t - width < x ∧ x ≤ t)) [now]
    rw [length_singleton] at hone
    omega
  · have hnone : ([now].filter fun x => t - width < x ∧ x ≤ t) = [] := by
      rw [filter_eq_nil_iff]
      intro x hx hmem
      rw [mem_singleton] at hx
      exact hin (hx ▸ of_decide_eq_true hmem)
    rw [hnone]
    exact h t

omit [AddCommGroup T] [IsOrderedAddMonoid T] in
/-- What a queue drops from its front was at most the cut. -/
theorem exists_dropWhile_le (cut : T) (queue : List T) :
    ∃ dropped, queue = dropped ++ queue.dropWhile (fun x => x ≤ cut) ∧
      ∀ x ∈ dropped, x ≤ cut := by
  refine ⟨queue.takeWhile fun x => x ≤ cut, takeWhile_append_dropWhile.symm, ?_⟩
  intro x hx
  exact of_decide_eq_true (all_eq_true.mp all_takeWhile x hx)

end FastMM.Foundation
