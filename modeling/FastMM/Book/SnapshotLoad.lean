/-
  Book/SnapshotLoad.lean --- a snapshot's side loaded at once and level by level.

  Source: `include/fastmm/core/book/l2_book.hpp` (`load_side`, `apply_level`).

  A side the fast path takes is sorted, so each of its levels is new.  What the fast path leaves of
  a list is what one more level makes of what it leaves of the list without it.
-/
import FastMM.Book.Settled
set_option autoImplicit false

namespace FastMM.L2Book

open List

variable {kMaxDepth : Nat} {side : Side} {order : Int}
variable (b : L2Book kMaxDepth)

/-! ## One level more -/

/-- What the fast path leaves of a sorted list. -/
def loadedSide (side : Side) (order : Int) (ls : List Level) :
    L2Book kMaxDepth :=
  let b := b.setLevels side (loaded order ls)
  if kMaxDepth < ls.length then b.setTruncated side else b

theorem levels_loadedSide (ls : List Level) :
    (b.loadedSide side order ls).levels side = loaded order ls := by
  unfold loadedSide
  split
  · exact levels_setLevels b side _
  · exact levels_setLevels b side _

theorem size_loaded (ls : List Level) :
    (loaded order ls : Levels kMaxDepth).size = min kMaxDepth ls.length := by
  unfold loaded StaticVector.size
  split
  · rw [length_reverse, length_take]
  · rw [length_drop]
    omega

/-- One level more of a sorted list. -/
theorem settle_loaded {ls : List Level} {l : Level} (hq : l.qty ≠ 0)
    (hpair : (ls ++ [l]).Pairwise (Before side order)) :
    settle kMaxDepth side (loaded order ls : Levels kMaxDepth).data l =
      (loaded order (ls ++ [l]) : Levels kMaxDepth).data := by
  obtain ⟨-, -, hcross⟩ := pairwise_append.mp hpair
  have hbefore : ∀ y ∈ (loaded order ls : Levels kMaxDepth).data, Before side order y l := by
    intro y hy
    rw [loaded_eq_drop] at hy
    exact hcross y (mem_worstFirst.mp (mem_of_mem_drop hy)) l (mem_singleton_self l)
  unfold Before at hbefore
  unfold settle keepBest
  rw [if_neg hq]
  by_cases horder : order = 1
  · -- The new level is the worst.
    simp only [if_pos horder] at hbefore
    rw [filter_eq_nil_iff.mpr fun y hy hlt => lt_asymm (hbefore y hy) (of_decide_eq_true hlt),
      filter_eq_self.mpr fun y hy => decide_eq_true (hbefore y hy)]
    unfold loaded
    simp only [if_pos horder, nil_append, singleton_append, length_cons,
      length_reverse, length_take]
    rcases Nat.lt_or_ge ls.length kMaxDepth with hroom | hfull
    · rw [Nat.min_eq_right hroom.le, Nat.sub_eq_zero_of_le hroom, drop_zero,
        take_of_length_le hroom.le, take_of_length_le, reverse_append]
      · rfl
      · rw [length_append, length_singleton]
        omega
    · rw [Nat.min_eq_left hfull, Nat.add_sub_cancel_left, drop_one, tail_cons,
        take_append_of_le_length hfull]
  · -- The new level is the best.
    simp only [if_neg horder] at hbefore
    rw [filter_eq_self.mpr fun y hy => decide_eq_true (hbefore y hy),
      filter_eq_nil_iff.mpr fun y hy hlt => lt_asymm (hbefore y hy) (of_decide_eq_true hlt)]
    unfold loaded
    simp only [if_neg horder, append_nil, length_append, length_singleton, length_drop]
    rw [← drop_append_of_le_length (Nat.sub_le ..), drop_drop]
    congr 1
    omega

/-- The next level of a sorted side. -/
theorem applyLevel_loadedSide {ls : List Level} {l : Level}
    (hq : 0 < l.qty) (hpair : (ls ++ [l]).Pairwise (Before side order)) :
    ((b.loadedSide side order ls).applyLevel side l.price l.qty).1 =
      b.loadedSide side order (ls ++ [l]) := by
  obtain ⟨hls, -, hcross⟩ := pairwise_append.mp hpair
  have hlevels : (b.loadedSide side order ls).levels side = loaded order ls :=
    levels_loadedSide b ls
  have hdepth : (loaded order ls : Levels kMaxDepth).data.length = min kMaxDepth ls.length :=
    size_loaded ls
  have hsorted : Sorted side (loaded order ls : Levels kMaxDepth).data := by
    rw [loaded_eq_drop]
    exact (sorted_worstFirst hls).sublist (drop_sublist _ _)
  have hnew : ∀ y ∈ (loaded order ls : Levels kMaxDepth).data, y.price ≠ l.price := by
    intro y hy heq
    rw [loaded_eq_drop] at hy
    have hbefore := hcross y (mem_worstFirst.mp (mem_of_mem_drop hy)) l (mem_singleton_self l)
    unfold Before at hbefore
    rw [heq] at hbefore
    split at hbefore <;> exact lt_irrefl _ hbefore
  have hq0 : l.qty ≠ 0 := ne_of_gt hq
  obtain ⟨w, hw, heq⟩ := @applyLevel_eq kMaxDepth side (b.loadedSide side order ls)
    (by rw [hlevels]; exact hsorted) (by rw [hlevels, hdepth]; exact Nat.min_le_left ..)
    l.price l.qty
  rw [hlevels, settle_loaded hq0 hpair] at hw
  rw [heq, hlevels, levels_ext hw, size_loaded]
  have hlen : (ls ++ [l]).length = ls.length + 1 := length_append
  unfold loadedSide
  by_cases hfull : kMaxDepth ≤ ls.length
  · have hmore : kMaxDepth < (ls ++ [l]).length := by omega
    rw [if_pos ⟨hq0, hnew, by omega⟩, if_pos hmore]
    split <;> simp only [setLevels, setTruncated, Function.update_idem]
  · have hroom : ¬kMaxDepth < (ls ++ [l]).length := by omega
    rw [if_neg fun h => hfull (by omega), if_neg hroom, if_neg (by omega)]
    simp only [setLevels, Function.update_idem]

/-! ## The whole side -/

/-- A sorted side applied level by level. -/
theorem applyLevels_sorted {ls : List Level}
    (hempty : b.levels side = .nil) (hpos : ∀ l ∈ ls, 0 < l.qty)
    (hpair : ls.Pairwise (Before side order)) :
    b.applyLevels side ls = b.loadedSide side order ls := by
  induction ls using List.reverseRecOn with
  | nil =>
    have hnil : (loaded order [] : Levels kMaxDepth) = b.levels side := by
      rw [hempty]
      refine levels_ext ?_
      rw [loaded_eq_drop]
      unfold worstFirst
      split <;> exact drop_nil
    unfold loadedSide
    rw [hnil, length_nil, if_neg (Nat.not_lt_zero kMaxDepth), setLevels_self]
    rfl
  | append_singleton ls l ih =>
    have hrest := ih (fun y hy => hpos y (mem_append_left _ hy))
      (hpair.sublist (sublist_append_left ls [l]))
    unfold applyLevels at hrest ⊢
    rw [foldl_append, hrest]
    exact applyLevel_loadedSide b (hpos l (mem_append_right _ (mem_singleton_self l))) hpair

/-- Loading a snapshot's side into an empty side is applying its levels one by one. -/
theorem loadSide_eq_applyLevels {b : L2Book kMaxDepth} (hempty : b.levels side = .nil)
    (ls : List Level) : b.loadSide side ls = b.applyLevels side ls := by
  by_cases horder : loadOrder side ls = 0
  · exact if_pos horder
  · obtain ⟨hpos, hpair⟩ := loadOrder_spec horder
    rw [applyLevels_sorted b hempty hpos hpair]
    exact if_neg horder

/-- Three bids best first, into a book of two levels. -/
theorem loadSide_eq_applyLevels_three : (({} : L2Book 2).loadSide .buy [⟨9, 1⟩, ⟨8, 1⟩, ⟨7, 1⟩]) =
      ({} : L2Book 2).applyLevels .buy [⟨9, 1⟩, ⟨8, 1⟩, ⟨7, 1⟩] :=
  loadSide_eq_applyLevels rfl _

end FastMM.L2Book
