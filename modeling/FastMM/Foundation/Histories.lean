/-
  Foundation/Histories.lean --- what holds of each entry of a history, given those before it.
-/
import Mathlib.Data.List.Basic
set_option autoImplicit false

namespace FastMM.Foundation

open List

variable {α : Type}

/-- Each entry satisfies `P` with the history before it. -/
def Along (P : List α → α → Prop) (l : List α) : Prop :=
  ∀ pre c post, l = pre ++ c :: post → P pre c

namespace Along

variable {P : List α → α → Prop} {l : List α} {c : α}

theorem nil : Along P ([] : List α) := by
  intro pre c post h
  simp at h

/-- One more entry. -/
theorem snoc (h : Along P l) (hc : P l c) : Along P (l ++ [c]) := by
  intro pre d post heq
  rcases eq_nil_or_concat post with rfl | ⟨post', e, rfl⟩
  · obtain ⟨rfl, hd⟩ := append_inj' heq rfl
    exact (List.cons.inj hd).1 ▸ hc
  · rw [concat_eq_append, ← cons_append, ← append_assoc] at heq
    obtain ⟨hl, -⟩ := append_inj' heq rfl
    exact h pre d post' hl

/-- An entry of the history, with some history before it. -/
theorem of_mem (h : Along P l) (hc : c ∈ l) : ∃ pre, P pre c := by
  obtain ⟨pre, post, rfl⟩ := append_of_mem hc
  exact ⟨pre, h pre c post rfl⟩

end Along

end FastMM.Foundation
