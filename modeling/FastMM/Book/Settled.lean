/-
  Book/Settled.lean --- a sorted side with one level set.

  Source: `include/fastmm/core/book/l2_book.hpp` (`apply_level`).

  Whether a level is found, goes in between or drops the worst, a side ends as the best levels of
  its own with the new one in its place.
-/
import FastMM.Book.L2Book
set_option autoImplicit false

namespace FastMM.L2Book

open Foundation List

variable {kMaxDepth : Nat} {side : Side}

theorem levels_ext {v w : Levels kMaxDepth} (h : v.data = w.data) : v = w := by
  cases v
  cases w
  cases h
  rfl

theorem levels_setLevels (b : L2Book kMaxDepth) (side : Side) (v : Levels kMaxDepth) :
    (b.setLevels side v).levels side = v := by
  exact Function.update_self side v b.levels

theorem setLevels_self (b : L2Book kMaxDepth) (side : Side) :
    b.setLevels side (b.levels side) = b := by
  unfold setLevels
  rw [Function.update_eq_self]

/-- The best `n` levels of a side. -/
def keepBest (n : Nat) (ls : List Level) : List Level := ls.drop (ls.length - n)

/-- A side with one level set, as deep as the book. -/
def settle (kMaxDepth : Nat) (side : Side) (ls : List Level) (l : Level) : List Level :=
  keepBest kMaxDepth (ls.filter (fun x => goodness side x.price < goodness side l.price) ++
      ((if l.qty = 0 then [] else [l]) ++
        ls.filter fun x => goodness side l.price < goodness side x.price))

theorem keepBest_of_le {n : Nat} {ls : List Level} (h : ls.length ≤ n) : keepBest n ls = ls := by
  unfold keepBest
  rw [Nat.sub_eq_zero_of_le h, drop_zero]

theorem filter_before {ls : List Level} {price : Price} {i : Nat}
    (h : Place (fun l => goodness side l.price) ls (goodness side price) i) :
    ls.filter (fun x => goodness side x.price < goodness side price) = ls.take i := by
  conv_lhs => rw [← take_append_drop i ls]
  rw [filter_append, filter_eq_self.mpr, filter_eq_nil_iff.mpr, append_nil]
  · exact fun l hl hlt => absurd (of_decide_eq_true hlt) (not_lt.mpr (h.above l hl))
  · exact fun l hl => decide_eq_true (h.below l hl)

theorem filter_behind {ls : List Level} {price : Price} {i j : Nat}
    (h : Place (fun l => goodness side l.price) ls (goodness side price) i)
    (hupto : ∀ l ∈ (ls.drop i).take (j - i), goodness side l.price ≤ goodness side price)
    (hfrom : ∀ l ∈ ls.drop j, goodness side price < goodness side l.price) (hij : i ≤ j) :
    ls.filter (fun x => goodness side price < goodness side x.price) = ls.drop j := by
  have hsplit : ls.drop i = (ls.drop i).take (j - i) ++ ls.drop j := by
    conv_lhs => rw [← take_append_drop (j - i) (ls.drop i)]
    rw [drop_drop, Nat.add_sub_cancel' hij]
  conv_lhs => rw [← take_append_drop i ls, hsplit]
  rw [filter_append, filter_append, filter_eq_nil_iff.mpr, filter_eq_nil_iff.mpr,
    filter_eq_self.mpr, nil_append, nil_append]
  · exact fun l hl => decide_eq_true (hfrom l hl)
  · exact fun l hl hlt => absurd (of_decide_eq_true hlt) (not_lt.mpr (hupto l hl))
  · exact fun l hl hlt => absurd (of_decide_eq_true hlt) (lt_asymm (h.below l hl))

section

variable {b : L2Book kMaxDepth} (hv : Sorted side (b.levels side).data)
variable (hdepth : (b.levels side).data.length ≤ kMaxDepth) (price : Price) (qty : Qty)
include hv hdepth price qty

/-- `apply_level` sets one level of its side, and flags a full side that a new one comes to. -/
theorem applyLevel_eq :
    ∃ w : Levels kMaxDepth, w.data = settle kMaxDepth side (b.levels side).data ⟨price, qty⟩ ∧
      (b.applyLevel side price qty).1 =
        (if qty ≠ 0 ∧ (∀ l ∈ (b.levels side).data, l.price ≠ price) ∧
            kMaxDepth ≤ (b.levels side).size then b.setTruncated side
          else b).setLevels side w := by
  have hloc := locate_spec hv price
  unfold settle applyLevel
  simp only
  generalize locate (b.levels side) side price = r at hloc
  obtain ⟨i, found⟩ := r
  have hplace := hloc.place
  have hle := hplace.le_length
  simp only at hplace hle
  rw [filter_before hplace]
  have hself := setLevels_self b side
  generalize b.levels side = v at *
  cases found with
  | true =>
    obtain ⟨l, hl, hp⟩ := hloc.found.mp rfl
    simp only at hl
    have hsplit := eq_take_append_drop hl
    have habout := Ascending.about (hsplit ▸ hv)
    obtain ⟨hi, hget⟩ := List.getElem?_eq_some_iff.mp hl
    have hafter : v.data.filter (fun x => goodness side price < goodness side x.price) =
        v.data.drop (i + 1) := by
      refine filter_behind hplace ?_ (hp ▸ habout.2) (Nat.le_succ i)
      intro y hy
      rw [Nat.add_sub_cancel_left, drop_eq_getElem_cons hi, take_succ_cons,
        take_zero, mem_singleton, hget] at hy
      rw [hy, hp]
    have hlen : (v.data.take i ++ v.data.drop (i + 1)).length < kMaxDepth := by
      rw [length_append, length_take, length_drop]
      omega
    have hknown : ¬(qty ≠ 0 ∧ (∀ l ∈ v.data, l.price ≠ price) ∧ kMaxDepth ≤ v.size) :=
      fun h => h.2.1 l (mem_of_getElem? hl) hp
    rw [hafter, if_neg hknown]
    simp only [if_true]
    split_ifs with hq
    · rw [nil_append, keepBest_of_le hlen.le]
      exact ⟨_, eraseIdx_eq_take_drop_succ _ _, rfl⟩
    rw [keepBest_of_le, get_eq hl]
    · have hnew : ({ l with qty := qty } : Level) = ⟨price, qty⟩ := by rw [← hp]
      rw [hnew]
      exact ⟨_, (set_eq_take_append_cons_drop ..).trans (if_pos hi), rfl⟩
    · rw [length_append] at hlen ⊢
      rw [length_append, length_singleton]
      omega
  | false =>
    have hno : ∀ l ∈ v.data, l.price ≠ price := by
      intro l hl hp
      refine hplace.absent hv (fun y hy heq => ?_) hl (congrArg (goodness side) hp)
      exact absurd (hloc.found.mpr ⟨y, hy, goodness_injective side heq⟩) (by simp)
    have hafter : v.data.filter (fun x => goodness side price < goodness side x.price) =
        v.data.drop i := by
      refine filter_behind hplace ?_ (fun y hy => ?_) (Nat.le_refl i)
      · rw [Nat.sub_self, take_zero]
        exact fun _ h => absurd h not_mem_nil
      · refine lt_of_le_of_ne (hplace.above y hy) fun heq => ?_
        exact hno y (mem_of_mem_drop hy) (goodness_injective side heq.symm)
    rw [hafter]
    simp only [Bool.false_eq_true, if_false]
    by_cases hq : qty = 0
    · rw [if_pos hq, if_pos hq, nil_append, take_append_drop, keepBest_of_le hdepth,
        if_neg fun h => h.1 hq]
      exact ⟨v, rfl, hself.symm⟩
    rw [if_neg hq, if_neg hq, singleton_append]
    have hlen : (v.data.take i ++ ⟨price, qty⟩ :: v.data.drop i).length = v.data.length + 1 := by
      rw [length_append, length_cons, length_take, length_drop]
      omega
    by_cases hfull : kMaxDepth ≤ v.size
    · have hone : v.data.length + 1 - kMaxDepth = 1 := by
        unfold StaticVector.size at hfull
        omega
      have hflag : qty ≠ 0 ∧ (∀ l ∈ v.data, l.price ≠ price) ∧ kMaxDepth ≤ v.size :=
        ⟨hq, hno, hfull⟩
      rw [if_pos hfull, if_pos hflag]
      unfold keepBest
      rw [hlen, hone, drop_one]
      by_cases hi : i = 0
      · subst hi
        rw [if_pos rfl]
        exact ⟨v, rfl, congrArg (fun b => L2Book.setTruncated b side) hself.symm⟩
      · rw [if_neg hi]
        exact ⟨_, data_evict (Nat.pos_of_ne_zero hi) hle _, rfl⟩
    · have hroom : v.data.length < kMaxDepth := not_le.mp hfull
      rw [if_neg hfull, if_neg fun h => hfull h.2.2, keepBest_of_le (by omega)]
      refine ⟨v.insertAt i ⟨price, qty⟩, ?_, rfl⟩
      unfold StaticVector.insertAt StaticVector.size
      rw [dif_neg (by omega)]
      exact insertIdx_eq_append hle

theorem levels_applyLevel :
    ((b.applyLevel side price qty).1.levels side).data =
      settle kMaxDepth side (b.levels side).data ⟨price, qty⟩ := by
  obtain ⟨w, hw, heq⟩ := applyLevel_eq hv hdepth price qty
  rw [heq, levels_setLevels, hw]

end

end FastMM.L2Book
