/-
  Foundation/CachedBest.lean --- a cached best element with a sentinel.

  A cache holds the best element of a set that changes one element at a time,
  and a sentinel value when the set is empty.  `better` is any irreflexive,
  transitive relation; the sentinel is a value no element of the set takes.

  The lemmas are the moves of such a cache: an element enters, an element that
  is not the cached one leaves, and a scan builds the cache from nothing.  A scan
  may meet entries that carry the sentinel; it is exact as long as no such entry
  comes after an element it would beat.
-/
import Mathlib.Data.Set.Insert
import Mathlib.Data.List.Induction
set_option autoImplicit false

namespace FastMM.Foundation

open List

variable {α : Type} {better : α → α → Prop} {nil : α}

/-- `b` is the best element of `S`, or the sentinel when `S` is empty. -/
structure CachedBest (better : α → α → Prop) (nil : α) (S : Set α) (b : α) : Prop where
  nil_iff : b = nil ↔ S = ∅
  mem : b ≠ nil → b ∈ S
  best : ∀ p ∈ S, ¬ better p b

namespace CachedBest

variable {S S' : Set α} {b q : α}

theorem empty : CachedBest better nil ∅ nil :=
  ⟨⟨fun _ => rfl, fun _ => rfl⟩, absurd rfl, fun _ hp => nomatch hp⟩

/-- An element better than the cached one, or the first, takes its place. -/
theorem insert_better (hirr : ∀ a, ¬ better a a)
    (htrans : ∀ a b c, better a b → better b c → better a c) (h : CachedBest better nil S b)
    (hq : q ≠ nil) (hb : b = nil ∨ better q b) (hsub : ∀ p, p ∈ S' → p = q ∨ p ∈ S)
    (hmem : q ∈ S') : CachedBest better nil S' q := by
  refine ⟨⟨fun he => absurd he hq, fun he => ?_⟩, fun _ => hmem, ?_⟩
  · simp [he] at hmem
  intro p hp hbetter
  rcases hsub p hp with hpq | hpS
  · rw [hpq] at hbetter
    exact hirr q hbetter
  · rcases hb with hb | hb
    · simp [h.nil_iff.mp hb] at hpS
    · exact h.best p hpS (htrans p q b hbetter hb)

/-- An element that is not better leaves the cached one. -/
theorem insert_worse (h : CachedBest better nil S b) (hb : b ≠ nil) (hworse : ¬ better q b)
    (hsub : ∀ p, p ∈ S' → p = q ∨ p ∈ S) (hmem : b ∈ S') : CachedBest better nil S' b := by
  refine ⟨⟨fun he => absurd he hb, fun he => ?_⟩, fun _ => hmem, ?_⟩
  · simp [he] at hmem
  intro p hp
  rcases hsub p hp with hpq | hpS
  · rw [hpq]
    exact hworse
  · exact h.best p hpS

/-- Elements other than the cached one may leave. -/
theorem of_subset (h : CachedBest better nil S b) (hsub : S' ⊆ S) (hkeep : b ≠ nil → b ∈ S') :
    CachedBest better nil S' b := by
  refine ⟨⟨fun hb => ?_, fun he => ?_⟩, hkeep, fun p hp => h.best p (hsub hp)⟩
  · have hS := h.nil_iff.mp hb
    rw [hS] at hsub
    exact Set.subset_eq_empty hsub rfl
  · by_contra hb
    have hmem := hkeep hb
    simp [he] at hmem

end CachedBest

/-! ## Scans -/

section Scan

variable [DecidableEq α] [DecidableRel better]

/-- One step of a scan for the best element. -/
def scanStep (better : α → α → Prop) [DecidableRel better] (nil best p : α) : α :=
  if best = nil ∨ better p best then p else best

/-- A scan that starts from the sentinel finds the best element, when no
sentinel entry follows an element it would beat. -/
theorem CachedBest.scan (hirr : ∀ a, ¬ better a a)
    (htrans : ∀ a b c, better a b → better b c → better a c) (xs : List α)
    (hnil : xs.Pairwise fun p q => p ≠ nil → q = nil → ¬ better q p) :
    CachedBest better nil { p | p ∈ xs ∧ p ≠ nil } (xs.foldl (scanStep better nil) nil) := by
  -- From the right: the last entry meets the best of those before it.
  induction xs using List.reverseRecOn with
  | nil =>
    have hempty : { p : α | p ∈ ([] : List α) ∧ p ≠ nil } = ∅ := by
      ext p
      simp
    rw [hempty]
    exact CachedBest.empty
  | append_singleton xs q ih =>
    rw [pairwise_append] at hnil
    obtain ⟨hxs, _, hlast⟩ := hnil
    have hbest := ih hxs
    rw [foldl_append]
    generalize hb : xs.foldl (scanStep better nil) nil = b at hbest
    rw [foldl_cons, foldl_nil]
    have hsub : ∀ p, p ∈ { p | p ∈ xs ++ [q] ∧ p ≠ nil } → p = q ∨
      p ∈ { p | p ∈ xs ∧ p ≠ nil } := by
      rintro p ⟨hp, hne⟩
      rcases mem_append.mp hp with hp | hp
      · exact Or.inr ⟨hp, hne⟩
      · exact Or.inl (mem_singleton.mp hp)
    have hkeep : b ≠ nil → b ∈ { p | p ∈ xs ++ [q] ∧ p ≠ nil } := fun hne =>
      ⟨mem_append_left _ (hbest.mem hne).1, hne⟩
    unfold scanStep
    by_cases hq : q = nil
    · -- A sentinel entry changes nothing: it beats no element before it.
      have hsame : (if b = nil ∨ better q b then q else b) = b := by
        by_cases hbn : b = nil
        · rw [if_pos (Or.inl hbn), hq, hbn]
        rw [if_neg]
        rintro (hbn' | hbetter)
        · exact hbn hbn'
        · exact hlast b (hbest.mem hbn).1 q (mem_singleton.mpr rfl) hbn hq hbetter
      rw [hsame]
      refine hbest.of_subset ?_ hkeep
      intro p hp
      rcases hsub p hp with hpq | hpx
      · exact absurd (hpq.trans hq) hp.2
      · exact hpx
    · have hmem : q ∈ { p | p ∈ xs ++ [q] ∧ p ≠ nil } :=
        ⟨mem_append_right _ (mem_singleton.mpr rfl), hq⟩
      split_ifs with hbetter
      · exact hbest.insert_better hirr htrans hq hbetter hsub hmem
      · rw [not_or] at hbetter
        exact hbest.insert_worse hbetter.1 hbetter.2 hsub (hkeep hbetter.1)

end Scan

end FastMM.Foundation
