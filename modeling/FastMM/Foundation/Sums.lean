/-
  Foundation/Sums.lean --- finite sums kept incrementally.

  An aggregate kept incrementally (a total over the slots of a table, a count
  over the positions of a ring) is right after an update when the update moved
  it by exactly the change of the one term it touched.  The lemma is stated
  without subtraction, so the same one serves counts in `Nat` and totals in
  `Int`.  A running total bounds every selection of the terms it has passed.
-/
import Mathlib.Algebra.BigOperators.Intervals
import Mathlib.Algebra.Order.BigOperators.Group.Finset
set_option autoImplicit false

namespace FastMM.Foundation

variable {M : Type} [AddCommMonoid M]

/-- Two families that agree off one index have sums that differ by that index's
terms. -/
theorem sum_add_eq_of_agree_off {ι : Type} [DecidableEq ι] {s : Finset ι} {i : ι}
    (hi : i ∈ s) {f g : ι → M} (h : ∀ j ∈ s, j ≠ i → g j = f j) :
    (∑ j ∈ s, g j) + f i = (∑ j ∈ s, f j) + g i := by
  have hrest : ∑ j ∈ s.erase i, g j = ∑ j ∈ s.erase i, f j := by
    refine Finset.sum_congr rfl ?_
    intro j hj
    rw [Finset.mem_erase] at hj
    exact h j hj.2 hj.1
  rw [← Finset.add_sum_erase s g hi, ← Finset.add_sum_erase s f hi, hrest]
  rw [add_comm (g i) _, add_assoc, add_comm (g i) (f i), ← add_assoc,
    add_comm (∑ j ∈ s.erase i, f j) (f i)]

/-- Adding each element's amount into the bucket of its key leaves in each bucket
what the elements of that key bring.  `get` reads the amount off a bucket. -/
theorem foldl_bucket {ι κ A : Type} [DecidableEq κ] (key : ι → κ) (put : A → ι → A)
    (get : A → M) (amount : ι → M) (h : ∀ a i, get (put a i) = get a + amount i)
    (l : List ι) (b : κ → A) (c : κ) :
    get (l.foldl (fun b i => Function.update b (key i) (put (b (key i)) i)) b c) =
      get (b c) + (l.map (fun i => if key i = c then amount i else 0)).sum := by
  induction l generalizing b with
  | nil => simp
  | cons i l ih =>
    rw [List.foldl_cons, ih, List.map_cons, List.sum_cons, ← add_assoc]
    by_cases hc : key i = c
    · subst hc
      rw [Function.update_self, h, if_pos rfl]
    · rw [Function.update_of_ne (Ne.symm hc), if_neg hc, add_zero]

/-- Of a sequence of non-negative terms, any selection whose running totals all
stay within a bound stays within it. -/
theorem sum_le_of_running_total_le {M : Type} [AddCommMonoid M] [PartialOrder M]
    [IsOrderedAddMonoid M] {f : Nat → M} {n : Nat} (hf : ∀ i < n, 0 ≤ f i) {D : Finset Nat}
    (hD : ∀ i ∈ D, i < n) {x : M} (hx : 0 ≤ x)
    (hrun : ∀ i ∈ D, ∑ j ∈ Finset.range (i + 1), f j ≤ x) : ∑ i ∈ D, f i ≤ x := by
  rcases D.eq_empty_or_nonempty with rfl | hne
  · simpa using hx
  -- Everything selected lies in the prefix that ends at the last selected.
  have hmax := D.max'_mem hne
  refine le_trans (Finset.sum_le_sum_of_subset_of_nonneg ?_ ?_) (hrun _ hmax)
  · intro i hi
    exact Finset.mem_range.mpr (Nat.lt_succ_of_le (D.le_max' i hi))
  · intro i hi _
    have hlt := hD _ hmax
    exact hf i (by have := Finset.mem_range.mp hi; omega)

end FastMM.Foundation
