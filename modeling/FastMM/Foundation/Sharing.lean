/-
  Foundation/Sharing.lean --- a quantity shared out in an order of priority.

  Takers come one after another.  Each takes what it can of a state that says what is left, and who
  took nothing leaves no trace.  Two facts: together they take no more than there was, and who comes
  later took something only when those before it had enough.
-/
import Mathlib.Algebra.BigOperators.Group.List.Basic
import Mathlib.Algebra.Order.Group.Int
import Mathlib.Tactic.Linarith
set_option autoImplicit false

namespace FastMM.Foundation

open List

variable {A β : Type}

/-- A sort by a strict order of keys leaves nobody before one of a smaller key. -/
theorem pairwise_mergeSort_key {κ : Type} [LinearOrder κ] (key : A → κ) {sooner : A → A → Bool}
    (hsooner : ∀ a b, sooner a b = true ↔ key a < key b) (as : List A) :
    (as.mergeSort fun a b => !sooner b a).Pairwise fun a b => ¬ key b < key a := by
  have hle : ∀ a b, (!sooner b a) = true ↔ key a ≤ key b := by
    intro a b
    rw [Bool.not_eq_true', ← Bool.not_eq_true, hsooner, not_lt]
  refine (pairwise_mergeSort (fun a b c hab hbc => ?_) (fun a b => ?_) as).imp ?_
  · rw [hle] at hab hbc ⊢
    exact hab.trans hbc
  · rw [Bool.or_eq_true, hle, hle]
    exact le_total (key a) (key b)
  · intro a b hab
    exact not_lt.mpr ((hle a b).mp hab)

/-- What each taker took, in their order. -/
def share (take : A → β → Int × β) : List A → β → List (A × Int)
  | [], _ => []
  | a :: as, acc =>
    if 0 < (take a acc).1 then (a, (take a acc).1) :: share take as (take a acc).2
    else share take as (take a acc).2

section Share

variable {take : A → β → Int × β} {good : β → Prop} {as : List A} {acc : β}

theorem mem_share {p : A × Int} (h : p ∈ share take as acc) : p.1 ∈ as ∧ 0 < p.2 := by
  induction as generalizing acc with
  | nil => exact absurd h not_mem_nil
  | cons a as ih =>
    unfold share at h
    split_ifs at h with hpos
    · rcases mem_cons.mp h with rfl | h
      · exact ⟨mem_cons_self, hpos⟩
      · exact ⟨mem_cons_of_mem a (ih h).1, (ih h).2⟩
    · exact ⟨mem_cons_of_mem a (ih h).1, (ih h).2⟩

/-- Those who count take no more together than the budget they draw on. -/
theorem sum_share_le {counts : A → Bool} (budget : β → Int)
    (hgood : ∀ a ∈ as, ∀ acc, good acc → good (take a acc).2)
    (hnonneg : ∀ acc, good acc → 0 ≤ budget acc) (hdraw : ∀ a ∈ as, ∀ acc, good acc →
      budget (take a acc).2 + (if counts a = true ∧ 0 < (take a acc).1 then (take a acc).1 else 0) ≤
        budget acc) (hacc : good acc) :
    (((share take as acc).filter fun p => counts p.1).map Prod.snd).sum ≤ budget acc := by
  induction as generalizing acc with
  | nil => exact hnonneg acc hacc
  | cons a as ih =>
    have hfirst := hdraw a mem_cons_self acc hacc
    have hrest := ih (fun b hb => hgood b (mem_cons_of_mem a hb))
      (fun b hb => hdraw b (mem_cons_of_mem a hb)) (hgood a mem_cons_self acc hacc)
    unfold share
    by_cases hpos : 0 < (take a acc).1
    · rw [if_pos hpos]
      by_cases hcounts : counts a = true
      · rw [if_pos ⟨hcounts, hpos⟩] at hfirst
        rw [filter_cons_of_pos (by simpa using hcounts), map_cons, sum_cons]
        linarith
      · rw [if_neg fun h => hcounts h.1, add_zero] at hfirst
        rw [filter_cons_of_neg (by simpa using hcounts)]
        exact hrest.trans hfirst
    · rw [if_neg fun h => hpos h.2, add_zero] at hfirst
      rw [if_neg hpos]
      exact hrest.trans hfirst

/-- While a taker bars those behind it, none of them takes anything. -/
theorem barred {bars : A → β → Prop} {prior : A → A → Prop} {a : A}
    (hgood : ∀ a ∈ as, ∀ acc, good acc → good (take a acc).2)
    (hstay : ∀ b ∈ as, ∀ acc, good acc → bars a acc → bars a (take b acc).2)
    (hbar : ∀ b ∈ as, ∀ acc, good acc → prior a b → bars a acc → ¬ 0 < (take b acc).1)
    (hacc : good acc) (hbars : bars a acc) {p : A × Int} (h : p ∈ share take as acc) :
    ¬ prior a p.1 := by
  induction as generalizing acc with
  | nil => exact absurd h not_mem_nil
  | cons b as ih =>
    have hrest := ih (fun c hc => hgood c (mem_cons_of_mem b hc))
      (fun c hc => hstay c (mem_cons_of_mem b hc))
      (fun c hc => hbar c (mem_cons_of_mem b hc)) (hgood b mem_cons_self acc hacc)
      (hstay b mem_cons_self acc hacc hbars)
    unfold share at h
    split_ifs at h with hpos
    · rcases mem_cons.mp h with rfl | h
      · exact fun hprior => hbar b mem_cons_self acc hacc hprior hbars hpos
      · exact hrest h
    · exact hrest h

/-- Where a taker that has not enough bars those behind it, who takes something comes behind takers
that wanted nothing or took all they wanted before. -/
theorem share_priority {wants : A → Int} {bars : A → β → Prop} {prior : A → A → Prop}
    (hirrefl : ∀ a, ¬ prior a a) (hsorted : as.Pairwise fun a b => ¬ prior b a)
    (hgood : ∀ a ∈ as, ∀ acc, good acc → good (take a acc).2) (hturn : ∀ a ∈ as, ∀ acc, good acc →
      wants a = 0 ∨ (0 < (take a acc).1 ∧ (take a acc).1 = wants a) ∨ bars a (take a acc).2)
    (hstay : ∀ a, ∀ b ∈ as, ∀ acc, good acc → bars a acc → bars a (take b acc).2)
    (hbar : ∀ a, ∀ b ∈ as, ∀ acc, good acc → prior a b → bars a acc → ¬ 0 < (take b acc).1)
    (hacc : good acc) {before after : List (A × Int)} {b : A} {x : Int}
    (h : share take as acc = before ++ (b, x) :: after) {a : A} (ha : a ∈ as) (hprior : prior a b) :
    wants a = 0 ∨ (a, wants a) ∈ before := by
  induction as generalizing acc before with
  | nil => exact absurd h.symm (by simp [share])
  | cons c as ih =>
    obtain ⟨hfirst, hsorted'⟩ := pairwise_cons.mp hsorted
    have hgood' := hgood c mem_cons_self acc hacc
    -- The rest of the takers, with what stood before them in the trace.
    have hrest : ∀ {before' : List (A × Int)},
        share take as (take c acc).2 = before' ++ (b, x) :: after → a ∈ as →
          wants a = 0 ∨ (a, wants a) ∈ before' := fun hs hin =>
      ih hsorted' (fun d hd => hgood d (mem_cons_of_mem c hd))
        (fun d hd => hturn d (mem_cons_of_mem c hd))
        (fun d e he => hstay d e (mem_cons_of_mem c he))
        (fun d e he => hbar d e (mem_cons_of_mem c he)) hgood' hs hin
    have hlater : ∀ {before' : List (A × Int)},
        share take as (take c acc).2 = before' ++ (b, x) :: after → a = c →
          wants c = 0 ∨ (0 < (take c acc).1 ∧ (take c acc).1 = wants c) := by
      rintro before' hs rfl
      rcases hturn a mem_cons_self acc hacc with hnone | hall | hbars
      · exact Or.inl hnone
      · exact Or.inr hall
      have hin : (b, x) ∈ share take as (take a acc).2 := by
        rw [hs]
        exact mem_append_right _ mem_cons_self
      exact absurd hprior (barred (p := (b, x)) (fun d hd => hgood d (mem_cons_of_mem a hd))
        (fun d hd => hstay a d (mem_cons_of_mem a hd))
        (fun d hd => hbar a d (mem_cons_of_mem a hd)) hgood' hbars hin)
    unfold share at h
    split_ifs at h with hpos
    · cases before with
      | nil =>
        obtain ⟨hhead, -⟩ := List.cons.inj h
        have hcb : c = b := congrArg Prod.fst hhead
        rw [← hcb] at hprior
        rcases mem_cons.mp ha with rfl | hin
        · exact absurd hprior (hirrefl _)
        · exact absurd hprior (hfirst a hin)
      | cons p before' =>
        obtain ⟨hhead, htail⟩ := List.cons.inj h
        rcases mem_cons.mp ha with heq | hin
        · rcases hlater htail heq with hnone | ⟨-, hall⟩
          · exact Or.inl (heq ▸ hnone)
          · refine Or.inr ?_
            rw [← hhead, heq, ← hall]
            exact mem_cons_self
        · exact (hrest htail hin).imp id fun hmem => mem_cons_of_mem p hmem
    · rcases mem_cons.mp ha with heq | hin
      · rcases hlater h heq with hnone | ⟨hcpos, -⟩
        · exact Or.inl (heq ▸ hnone)
        · exact absurd hcpos hpos
      · exact hrest h hin

end Share

end FastMM.Foundation
