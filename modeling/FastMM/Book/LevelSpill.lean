/-
  Book/LevelSpill.lean --- the levels of a large update that a message has room for.

  Source: `include/fastmm/venues/level_spill.hpp`, `include/fastmm/core/book/l2_book.hpp`
  (`apply_level`, `apply_delta`, `trim_behind`).

  What a book holds at a price or ahead of it is decided by the levels set there: the levels set
  behind it come and go in the room that is left.  So a level is still there at the end when from
  the time it was set on the book never had as many levels ahead of it as it is deep.
-/
import FastMM.Book.Settled
import Mathlib.Data.List.GetD
import Mathlib.Data.List.Sort
set_option autoImplicit false

namespace FastMM

open Function List

/-! ## The spill -/

def kMaxBookLevelsPerMsg : Nat := 1024

namespace LevelSpill

/-- `nearest_bound`: the price of the `max`-th level nearest the touch. -/
def nearestBound (ls : List Level) (side : Side) (max : Nat) : Price :=
  ((ls.map Level.price).insertionSort fun a b => goodness side b ≤ goodness side a).getD (max - 1) 0

def within (px bound : Price) : Side → Bool
  | .buy => decide (bound ≤ px)
  | .sell => decide (px ≤ bound)

def keepNearest (ls : List Level) (side : Side) (max : Nat) : List Level :=
  if ls.length ≤ max then ls
  else (ls.filter fun l => within l.price (nearestBound ls side max) side).take max

theorem within_iff (px bound : Price) (side : Side) :
    within px bound side = true ↔ goodness side bound ≤ goodness side px := by
  cases side with
  | buy => exact decide_eq_true_iff
  | sell =>
    unfold within goodness
    rw [decide_eq_true_iff]
    exact neg_le_neg_iff.symm

/-- The nearest levels of an update, in its order. -/
structure Nearest (side : Side) (max : Nat) (ls kept : List Level) : Prop where
  sublist : kept.Sublist ls
  length : kept.length = min max ls.length
  nearest : ∀ k ∈ kept, ∀ l ∈ ls, l ∉ kept → better side k.price l.price = true

variable {side : Side} {max : Nat} {ls : List Level}

section

variable (hnodup : (ls.map Level.price).Nodup) (hmax : 0 < max)
include hnodup hmax

/-- As many levels are within the bound as the message carries. -/
theorem length_within
    (hlong : max < ls.length) :
    (ls.filter fun l => within l.price (nearestBound ls side max) side).length = max := by
  have hcount : (ls.filter fun l => within l.price (nearestBound ls side max) side).length =
      ((ls.map Level.price).filter fun p => within p (nearestBound ls side max) side).length := by
    rw [filter_map, length_map]
    rfl
  let r : Price → Price → Prop := fun a b => goodness side b ≤ goodness side a
  have hperm : ((ls.map Level.price).insertionSort r).Perm (ls.map Level.price) :=
    perm_insertionSort r _
  have hsorted : ((ls.map Level.price).insertionSort r).Pairwise r :=
    pairwise_insertionSort r _
  have hdistinct := hperm.nodup_iff.mpr hnodup
  have hlen : ((ls.map Level.price).insertionSort r).length = ls.length := by
    rw [hperm.length_eq, length_map]
  have hbound : nearestBound ls side max =
      ((ls.map Level.price).insertionSort r).getD (max - 1) 0 := rfl
  rw [hcount, ← (hperm.filter _).length_eq, hbound]
  generalize (ls.map Level.price).insertionSort r = s at hsorted hdistinct hlen
  have hlast : max - 1 < s.length := by omega
  have htake : (s.filter fun p => within p (s.getD (max - 1) 0) side) = s.take max := by
    rw [getD_eq_getElem _ _ hlast]
    have hsplit : (s.filter fun p => within p s[max - 1] side) =
        (s.take max ++ s.drop max).filter fun p => within p s[max - 1] side := by
      rw [take_append_drop]
    rw [hsplit, filter_append, filter_eq_self.mpr, filter_eq_nil_iff.mpr, append_nil]
    · intro p hp hin
      obtain ⟨j, hj, rfl⟩ := mem_iff_getElem.mp hp
      rw [length_drop] at hj
      rw [getElem_drop, within_iff] at hin
      have hle : r s[max - 1] s[max + j] :=
        pairwise_iff_getElem.mp hsorted _ _ _ _ (by omega)
      have heq := goodness_injective side (le_antisymm hle hin)
      have := (hdistinct.getElem_inj_iff).mp heq
      omega
    · intro p hp
      obtain ⟨j, hj, rfl⟩ := mem_iff_getElem.mp hp
      rw [length_take] at hj
      rw [getElem_take, within_iff]
      rcases Nat.lt_or_ge j (max - 1) with hlt | hge
      · exact pairwise_iff_getElem.mp hsorted _ _ _ _ hlt
      · have hj' : j = max - 1 := by omega
        subst hj'
        exact le_refl _
  rw [htake, length_take]
  omega

theorem keepNearest_eq
    (hlong : max < ls.length) :
    keepNearest ls side max =
      ls.filter fun l => within l.price (nearestBound ls side max) side := by
  unfold keepNearest
  rw [if_neg (Nat.not_le.mpr hlong), take_of_length_le (length_within hnodup hmax hlong).le]

theorem nearest_keepNearest :
    Nearest side max ls (keepNearest ls side max) := by
  by_cases hlong : max < ls.length
  · rw [keepNearest_eq hnodup hmax hlong]
    refine ⟨filter_sublist, ?_, fun k hk l hl hout => ?_⟩
    · rw [length_within hnodup hmax hlong]
      omega
    have hin := (within_iff ..).mp (mem_filter.mp hk).2
    rw [better_iff]
    refine lt_of_lt_of_le (not_le.mp fun hle => hout ?_) hin
    exact mem_filter.mpr ⟨hl, (within_iff ..).mpr hle⟩
  · have hle := Nat.not_lt.mp hlong
    unfold keepNearest
    rw [if_pos hle]
    exact ⟨List.Sublist.refl ls, by omega, fun _ _ l hl hout => absurd hl hout⟩

end

end LevelSpill

namespace L2Book

variable {kMaxDepth : Nat} {side : Side}

/-! ## Levels set, one after another -/

theorem settle_ok {n : Nat} {ls : List Level} (hv : Sorted side ls) (l : Level) :
    Sorted side (ls.filter (fun x => goodness side x.price < goodness side l.price) ++
      ((if l.qty = 0 then [] else [l]) ++
        ls.filter fun x => goodness side l.price < goodness side x.price)) ∧
    Sorted side (settle n side ls l) ∧ (settle n side ls l).length ≤ n := by
  have hall : Sorted side (ls.filter (fun x => goodness side x.price < goodness side l.price) ++
      ((if l.qty = 0 then [] else [l]) ++
        ls.filter fun x => goodness side l.price < goodness side x.price)) := by
    refine pairwise_append.mpr ⟨hv.sublist filter_sublist, pairwise_append.mpr
      ⟨?_, hv.sublist filter_sublist, ?_⟩, ?_⟩
    · split
      · exact List.Pairwise.nil
      · exact pairwise_singleton _ _
    · intro a ha b hb
      split at ha
      · exact absurd ha not_mem_nil
      · rw [mem_singleton.mp ha]
        exact of_decide_eq_true (mem_filter.mp hb).2
    · intro a ha b hb
      have hlt := of_decide_eq_true (mem_filter.mp ha).2
      rcases mem_append.mp hb with hb | hb
      · split at hb
        · exact absurd hb not_mem_nil
        · rw [mem_singleton.mp hb]
          exact hlt
      · exact lt_trans hlt (of_decide_eq_true (mem_filter.mp hb).2)
  refine ⟨hall, hall.sublist (drop_sublist _ _), ?_⟩
  unfold settle keepBest
  rw [length_drop]
  omega

/-- The levels of a side after some are set. -/
def settled (kMaxDepth : Nat) (side : Side) (ls update : List Level) : List Level :=
  update.foldl (settle kMaxDepth side) ls

theorem levels_applyLevels {b : L2Book kMaxDepth} {ref : Side → Price → Qty} (h : BookOk b ref)
    (side : Side) (update : List Level) :
    ((b.applyLevels side update).levels side).data =
      settled kMaxDepth side (b.levels side).data update := by
  induction update generalizing b ref with
  | nil => rfl
  | cons l rest ih =>
    refine (ih (h.applyLevel side l.price l.qty)).trans ?_
    rw [levels_applyLevel (h side).sorted (h side).depth]
    rfl

theorem settled_ok {n : Nat} {ls : List Level} (hv : Sorted side ls) (hdepth : ls.length ≤ n)
    (update : List Level) :
    Sorted side (settled n side ls update) ∧ (settled n side ls update).length ≤ n := by
  induction update generalizing ls with
  | nil => exact ⟨hv, hdepth⟩
  | cons l rest ih =>
    obtain ⟨-, hsorted, hlen⟩ := settle_ok hv l (n := n)
    exact ih hsorted hlen

/-! ## What stands at a price or ahead of it -/

/-- The levels at a price or ahead of it. -/
def ahead (side : Side) (bound : Price) (ls : List Level) : List Level :=
  ls.filter fun l => LevelSpill.within l.price bound side

theorem ahead_cons (side : Side) (bound : Price) (l : Level) (rest : List Level) :
    ahead side bound (l :: rest) =
      if LevelSpill.within l.price bound side = true then l :: ahead side bound rest
      else ahead side bound rest := filter_cons

section

variable {bound : Price} {n : Nat} {ls : List Level} (hv : Sorted side ls)
include hv

theorem ahead_keepBest :
    ahead side bound (keepBest n ls) = keepBest n (ahead side bound ls) := by
  obtain ⟨front, back, rfl, hfront, hback⟩ : ∃ front back, ls = front ++ back ∧
      ahead side bound front = [] ∧ ahead side bound back = back := by
    induction ls with
    | nil => exact ⟨[], [], rfl, rfl, rfl⟩
    | cons l rest ih =>
      obtain ⟨hfirst, hrest⟩ := pairwise_cons.mp hv
      by_cases hl : LevelSpill.within l.price bound side = true
      · refine ⟨[], l :: rest, rfl, rfl, filter_eq_self.mpr fun x hx => ?_⟩
        rw [LevelSpill.within_iff] at hl ⊢
        rcases mem_cons.mp hx with rfl | hx
        · exact hl
        · exact le_trans hl (hfirst x hx).le
      · obtain ⟨front, back, rfl, hfront, hback⟩ := ih hrest
        refine ⟨l :: front, back, rfl, ?_, hback⟩
        rw [ahead_cons, if_neg hl, hfront]
  have hsome : ∀ k, ahead side bound (front.drop k) = [] := fun k =>
    filter_eq_nil_iff.mpr fun x hx => filter_eq_nil_iff.mp hfront x (mem_of_mem_drop hx)
  have hkeep : ahead side bound (front ++ back) = back := by
    unfold ahead at hfront hback ⊢
    rw [filter_append, hfront, hback, nil_append]
  rw [hkeep]
  unfold keepBest
  rw [length_append, drop_append]
  have hcount : front.length + back.length - n - front.length = back.length - n := by omega
  rw [hcount]
  have hrest : ahead side bound (back.drop (back.length - n)) = back.drop (back.length - n) :=
    filter_eq_self.mpr fun x hx => filter_eq_self.mp hback x (mem_of_mem_drop hx)
  unfold ahead at hsome hrest ⊢
  rw [filter_append, hsome, hrest, nil_append]

/-- A level behind a price leaves what stands there and ahead of it. -/
theorem ahead_settle
    (hdepth : ls.length ≤ n) (l : Level) :
    ahead side bound (settle n side ls l) =
      if LevelSpill.within l.price bound side = true then
        settle n side (ahead side bound ls) l
      else ahead side bound ls := by
  unfold settle
  rw [ahead_keepBest (settle_ok hv l (n := n)).1]
  by_cases hl : LevelSpill.within l.price bound side = true
  · rw [if_pos hl]
    congr 1
    unfold ahead
    rw [filter_append, filter_append, filter_filter, filter_filter, filter_filter, filter_filter]
    simp only [Bool.and_comm]
    congr 2
    split
    · rfl
    · exact filter_cons_of_pos hl
  · rw [if_neg hl]
    have hlt : goodness side l.price < goodness side bound :=
      not_le.mp fun hle => hl ((LevelSpill.within_iff ..).mpr hle)
    have hsame : ahead side bound
        (ls.filter (fun x => goodness side x.price < goodness side l.price) ++
          ((if l.qty = 0 then [] else [l]) ++
            ls.filter fun x => goodness side l.price < goodness side x.price)) =
        ahead side bound ls := by
      unfold ahead
      rw [filter_append, filter_append, filter_filter, filter_filter,
        filter_eq_nil_iff.mpr, filter_eq_nil_iff.mpr, nil_append, nil_append]
      · refine filter_congr fun x _ => ?_
        rw [Bool.and_eq_left_iff_imp]
        intro hx
        exact decide_eq_true (lt_of_lt_of_le hlt ((LevelSpill.within_iff ..).mp hx))
      · intro x hx
        split at hx
        · exact absurd hx not_mem_nil
        · rw [mem_singleton.mp hx]
          exact hl
      · intro x _ hx
        rw [Bool.and_eq_true, LevelSpill.within_iff, decide_eq_true_iff] at hx
        exact absurd (lt_of_le_of_lt hx.1 hx.2) (lt_asymm hlt)
    have hlen : (ahead side bound ls).length ≤ n := le_trans (length_filter_le _ _) hdepth
    rw [hsame, keepBest_of_le hlen]

/-- What a run of levels leaves at a price or ahead of it, the levels set there leave. -/
theorem ahead_settled
    (hdepth : ls.length ≤ n) (update : List Level) :
    ahead side bound (settled n side ls update) =
      settled n side (ahead side bound ls) (ahead side bound update) := by
  induction update generalizing ls with
  | nil => rfl
  | cons l rest ih =>
    obtain ⟨-, hsorted, hlen⟩ := settle_ok hv l (n := n)
    refine (ih hsorted hlen).trans ?_
    rw [ahead_settle hv hdepth, ahead_cons]
    split <;> rfl

end

/-! ## Levels pushed out -/

/-- The price a raw unit nearer the touch. -/
def nearer (side : Side) (p : Price) : Price :=
  match side with
  | .buy => p + 1
  | .sell => p - 1

/-- The levels an update sets, and those of a side that it does not name. -/
def standing (ls update : List Level) : List Level :=
  update.filter (fun l => l.qty ≠ 0) ++ ls.filter fun l => l.price ∉ update.map Level.price

/-- At some time since the level at a price was last set, as many levels as the book is deep stood
ahead of it. -/
def PushedOut (n : Nat) (side : Side) (ls update : List Level) (p : Price) : Prop :=
  ∃ k ≤ update.length, (p ∈ update.map Level.price → p ∈ (update.take k).map Level.price) ∧
    n ≤ (settled n side (ahead side (nearer side p) ls)
      (ahead side (nearer side p) (update.take k))).length

theorem mem_standing {ls update : List Level} {x : Level} :
    x ∈ standing ls update ↔
      (x ∈ update ∧ x.qty ≠ 0) ∨ (x ∈ ls ∧ x.price ∉ update.map Level.price) := by
  unfold standing
  rw [mem_append, mem_filter, mem_filter, decide_eq_true_iff, decide_eq_true_iff]

theorem within_nearer (p q : Price) :
    LevelSpill.within q (nearer side p) side = true ↔ goodness side p < goodness side q := by
  rw [LevelSpill.within_iff]
  cases side with
  | buy =>
    show p + 1 ≤ q ↔ p < q
    exact Int.add_one_le_iff
  | sell =>
    show -(p - 1) ≤ -q ↔ -p < -q
    rw [neg_le_neg_iff, neg_lt_neg_iff, Int.le_sub_one_iff]

section

variable {n : Nat} {ls : List Level} (hv : Sorted side ls)
include hv

omit hv in
theorem length_keepBest_lt : (keepBest n ls).length < n ↔ ls.length < n := by
  unfold keepBest
  rw [length_drop]
  omega

/-- The best levels are those with few enough ahead of them. -/
theorem mem_keepBest {x : Level} (hx : x ∈ ls) :
    x ∈ keepBest n ls ↔ (ahead side (nearer side x.price) ls).length < n := by
  induction ls with
  | nil => exact absurd hx not_mem_nil
  | cons l rest ih =>
    obtain ⟨hfirst, hrest⟩ := pairwise_cons.mp hv
    -- The first level is behind the others.
    have hbehind : ∀ y ∈ l :: rest,
        ahead side (nearer side y.price) (l :: rest) = ahead side (nearer side y.price) rest := by
      intro y hy
      have hle : goodness side l.price ≤ goodness side y.price :=
        (mem_cons.mp hy).elim (fun heq => heq ▸ le_rfl) fun hin => (hfirst y hin).le
      rw [ahead_cons]
      exact if_neg fun hin => not_lt.mpr hle ((within_nearer ..).mp hin)
    rw [hbehind x hx]
    rcases Nat.lt_or_ge rest.length n with hroom | hfull
    · rw [keepBest_of_le (show (l :: rest).length ≤ n from hroom)]
      exact iff_of_true hx ((length_filter_le _ _).trans_lt hroom)
    have hdrop : keepBest n (l :: rest) = keepBest n rest := by
      unfold keepBest
      rw [length_cons, Nat.succ_sub hfull, drop_succ_cons]
    rw [hdrop]
    rcases mem_cons.mp hx with rfl | hin
    · have hall : ahead side (nearer side x.price) rest = rest :=
        filter_eq_self.mpr fun y hy => (within_nearer ..).mpr (hfirst y hy)
      rw [hall]
      exact iff_of_false (fun hin => lt_irrefl _ (hfirst x (mem_of_mem_drop hin)))
        (not_lt.mpr hfull)
    · exact ih hrest hin

/-- A level set stands when there is room for it, and another when it still has room. -/
theorem mem_settle {l x : Level} :
    x ∈ settle n side ls l ↔ ((x = l ∧ l.qty ≠ 0) ∨ (x ∈ ls ∧ x.price ≠ l.price)) ∧
      (ahead side (nearer side x.price) (settle n side ls l)).length < n := by
  have hsorted := (settle_ok hv l (n := n)).1
  have hset : x ∈ ls.filter (fun x => goodness side x.price < goodness side l.price) ++
      ((if l.qty = 0 then [] else [l]) ++
        ls.filter fun x => goodness side l.price < goodness side x.price) ↔
      (x = l ∧ l.qty ≠ 0) ∨ (x ∈ ls ∧ x.price ≠ l.price) := by
    have hnew : x ∈ (if l.qty = 0 then [] else [l]) ↔ x = l ∧ l.qty ≠ 0 := by
      split_ifs with hzero
      · simp [hzero]
      · simp [hzero]
    have hother : x.price ≠ l.price ↔
        goodness side x.price < goodness side l.price ∨
          goodness side l.price < goodness side x.price := by
      rw [lt_or_lt_iff_ne]
      exact ⟨fun h heq => h (goodness_injective side heq), fun h heq => h (congrArg _ heq)⟩
    rw [mem_append, mem_append, mem_filter, mem_filter, decide_eq_true_iff, decide_eq_true_iff,
      hnew, hother, and_or_left, or_left_comm]
  unfold settle
  rw [← hset, ahead_keepBest hsorted, length_keepBest_lt]
  constructor
  · intro hin
    have hmem := mem_of_mem_drop hin
    exact ⟨hmem, (mem_keepBest hsorted hmem).mp hin⟩
  · rintro ⟨hmem, hfew⟩
    exact (mem_keepBest hsorted hmem).mpr hfew

omit hv in
theorem mem_standing_append {update : List Level} {l x : Level}
    (hfresh : l.price ∉ update.map Level.price) :
    x ∈ standing ls (update ++ [l]) ↔
      (x = l ∧ l.qty ≠ 0) ∨ (x.price ≠ l.price ∧ x ∈ standing ls update) := by
  have hapart : x ∈ update → x.price ≠ l.price := fun hx heq =>
    hfresh (heq ▸ mem_map_of_mem hx)
  rw [mem_standing, mem_standing, mem_append, mem_singleton, map_append, mem_append, map_singleton,
    mem_singleton, not_or]
  constructor
  · rintro (⟨hx | rfl, hqty⟩ | ⟨hx, hnot, hne⟩)
    · exact Or.inr ⟨hapart hx, Or.inl ⟨hx, hqty⟩⟩
    · exact Or.inl ⟨rfl, hqty⟩
    · exact Or.inr ⟨hne, Or.inr ⟨hx, hnot⟩⟩
  · rintro (⟨rfl, hqty⟩ | ⟨hne, ⟨hx, hqty⟩ | ⟨hx, hnot⟩⟩)
    · exact Or.inl ⟨Or.inr rfl, hqty⟩
    · exact Or.inl ⟨Or.inl hx, hqty⟩
    · exact Or.inr ⟨hx, hnot, hne⟩

omit hv in
/-- One more level set pushes out what was pushed out before, itself apart, and what finds the book
full ahead of it then. -/
theorem pushedOut_append {update : List Level} {l : Level} {p : Price}
    (hfresh : l.price ∉ update.map Level.price) :
    PushedOut n side ls (update ++ [l]) p ↔ (p ≠ l.price ∧ PushedOut n side ls update p) ∨
      n ≤ (settled n side (ahead side (nearer side p) ls)
        (ahead side (nearer side p) (update ++ [l]))).length := by
  have hprices : p ∈ (update ++ [l]).map Level.price ↔
      p ∈ update.map Level.price ∨ p = l.price := by
    rw [map_append, mem_append, map_singleton, mem_singleton]
  constructor
  · rintro ⟨k, hk, hset, hfull⟩
    rcases Nat.lt_or_ge update.length k with hall | hbefore
    · rw [take_of_length_le (by rw [length_append, length_singleton]; omega)] at hfull
      exact Or.inr hfull
    rw [take_append_of_le_length hbefore] at hset hfull
    refine Or.inl ⟨fun heq => hfresh ?_, k, hbefore, fun hin => hset (hprices.mpr (Or.inl hin)),
      hfull⟩
    exact heq ▸ map_subset _ (take_subset k update) (hset (hprices.mpr (Or.inr heq)))
  · rintro (⟨hne, k, hk, hset, hfull⟩ | hfull)
    · refine ⟨k, by rw [length_append]; omega, fun hin => ?_, ?_⟩
      · rw [take_append_of_le_length hk]
        exact hset ((hprices.mp hin).resolve_right hne)
      · rw [take_append_of_le_length hk]
        exact hfull
    · exact ⟨_, le_rfl, fun hin => by rwa [take_length], by rwa [take_length]⟩

/-- What stands at the end of an update of distinct prices: what it sets and what it does not name,
unless it was pushed out since. -/
theorem mem_settled (hdepth : ls.length ≤ n) {update : List Level}
    (hnodup : (update.map Level.price).Nodup) {x : Level} :
    x ∈ settled n side ls update ↔
      x ∈ standing ls update ∧ ¬ PushedOut n side ls update x.price := by
  induction update using reverseRecOn with
  | nil =>
    have hall : standing ls [] = ls := filter_eq_self.mpr fun _ _ => rfl
    rw [hall]
    refine ⟨fun hx => ⟨hx, ?_⟩, And.left⟩
    rintro ⟨k, -, -, hfull⟩
    rw [take_nil] at hfull
    have hkept : x ∈ keepBest n ls := by
      rw [keepBest_of_le hdepth]
      exact hx
    exact not_lt.mpr hfull ((mem_keepBest hv hx).mp hkept)
  | append_singleton update l ih =>
    rw [map_append, map_singleton] at hnodup
    obtain ⟨hrest, -, hapart⟩ := nodup_append.mp hnodup
    have hfresh : l.price ∉ update.map Level.price := fun hin =>
      hapart l.price hin l.price (mem_singleton_self _) rfl
    obtain ⟨hsorted, hlen⟩ := settled_ok hv hdepth update
    have hsplit : settled n side ls (update ++ [l]) =
        settle n side (settled n side ls update) l := foldl_append
    rw [mem_standing_append hfresh, pushedOut_append hfresh, ← ahead_settled hv hdepth, hsplit,
      mem_settle hsorted, ih hrest, not_or, not_le]
    by_cases heq : x.price = l.price
    · simp only [heq, ne_eq, not_true_eq_false, and_false, or_false, false_and, not_false_eq_true,
        true_and]
    · have hne : x ≠ l := fun h => heq (congrArg Level.price h)
      simp only [heq, hne, ne_eq, not_false_eq_true, and_true, false_and, false_or, true_and]
      exact and_assoc

end

/-! ## Cut updates -/

variable {b : L2Book kMaxDepth} {ref : Side → Price → Qty}

theorem worstCarried_spec (side : Side) (l : Level) (rest : List Level) :
    worstCarried side l rest ∈ (l :: rest).map Level.price ∧
      ∀ x ∈ l :: rest, goodness side (worstCarried side l rest) ≤ goodness side x.price := by
  unfold worstCarried
  generalize hp : l.price = p
  have hrun : (rest.foldl (fun bound l => if better side bound l.price then l.price else bound) p ∈
      p :: rest.map Level.price) ∧ ∀ q ∈ p :: rest.map Level.price,
      goodness side (rest.foldl
        (fun bound l => if better side bound l.price then l.price else bound) p) ≤
      goodness side q := by
    clear hp
    induction rest generalizing p with
    | nil => exact ⟨mem_cons_self, fun q hq => by rw [mem_singleton.mp hq]; rfl⟩
    | cons x rest ih =>
      rw [foldl_cons]
      split_ifs with hb
      · obtain ⟨hin, hle⟩ := ih x.price
        refine ⟨mem_cons_of_mem p hin, fun q hq => ?_⟩
        rcases mem_cons.mp hq with rfl | hq
        · exact le_trans (hle _ mem_cons_self) ((better_iff ..).mp hb).le
        · exact hle q hq
      obtain ⟨hin, hle⟩ := ih p
      have hworse : goodness side p ≤ goodness side x.price :=
        not_lt.mp fun hlt => hb ((better_iff ..).mpr hlt)
      refine ⟨?_, fun q hq => ?_⟩
      · rcases mem_cons.mp hin with heq | hin
        · exact mem_cons.mpr (.inl heq)
        · exact mem_cons_of_mem p (mem_cons_of_mem x.price hin)
      · rcases mem_cons.mp hq with rfl | hq
        · exact hle _ mem_cons_self
        rcases mem_cons.mp hq with rfl | hq
        · exact le_trans (hle p mem_cons_self) hworse
        · exact hle q (mem_cons_of_mem p hq)
  subst hp
  exact ⟨hrun.1, fun x hx => hrun.2 x.price (mem_map_of_mem hx)⟩

/-- The worst level kept of a long update is at the bound. -/
theorem worstCarried_keepNearest {ls rest : List Level} {max : Nat} {l : Level}
    (hnodup : (ls.map Level.price).Nodup) (hmax : 0 < max) (hlong : max < ls.length)
    (hkept : LevelSpill.keepNearest ls side max = l :: rest) :
    worstCarried side l rest = LevelSpill.nearestBound ls side max := by
  obtain ⟨hin, hle⟩ := worstCarried_spec side l rest
  rw [← hkept, LevelSpill.keepNearest_eq hnodup hmax hlong] at hin hle
  obtain ⟨y, hy, hprice⟩ := mem_map.mp hin
  have hge := (LevelSpill.within_iff ..).mp (mem_filter.mp hy).2
  have hbound : LevelSpill.nearestBound ls side max ∈ ls.map Level.price := by
    have hperm := perm_insertionSort (fun a b => goodness side b ≤ goodness side a)
      (ls.map Level.price)
    have hlast : max - 1 < ((ls.map Level.price).insertionSort
        fun a b => goodness side b ≤ goodness side a).length := by
      rw [hperm.length_eq, length_map]
      omega
    rw [← hperm.mem_iff, LevelSpill.nearestBound, getD_eq_getElem _ _ hlast]
    exact getElem_mem hlast
  obtain ⟨z, hz, hzprice⟩ := mem_map.mp hbound
  have hzle := hle z (mem_filter.mpr ⟨hz, by rw [hzprice, LevelSpill.within_iff]⟩)
  rw [hzprice] at hzle
  rw [hprice] at hge
  exact goodness_injective side (le_antisymm hzle hge)

theorem levels_applyLevel_other {other : Side} (hne : other ≠ side) (b : L2Book kMaxDepth)
    (price : Price) (qty : Qty) :
    (b.applyLevel side price qty).1.levels other = b.levels other := by
  unfold applyLevel
  simp only
  split
  · split <;> exact update_of_ne hne _ _
  split
  · rfl
  split
  · split
    · rfl
    · exact update_of_ne hne _ _
  · exact update_of_ne hne _ _

theorem levels_applyLevels_other {other : Side} (hne : other ≠ side) (b : L2Book kMaxDepth)
    (ls : List Level) : (b.applyLevels side ls).levels other = b.levels other := by
  induction ls generalizing b with
  | nil => rfl
  | cons l rest ih => exact (ih _).trans (levels_applyLevel_other hne b l.price l.qty)

theorem levels_trimBehind_other {other : Side} (hne : other ≠ side) (b : L2Book kMaxDepth)
    (ls : List Level) : (b.trimBehind side ls).levels other = b.levels other := by
  unfold trimBehind
  cases ls with
  | nil => rfl
  | cons l rest =>
    simp only
    split
    · rfl
    · exact update_of_ne hne _ _

theorem levels_trimBehind (hv : Sorted side (b.levels side).data) (l : Level) (rest : List Level) :
    ((b.trimBehind side (l :: rest)).levels side).data =
      ahead side (worstCarried side l rest) (b.levels side).data := by
  have hdrop : (b.levels side).data.drop ((b.levels side).data.takeWhile fun x =>
      better side (worstCarried side l rest) x.price).length =
      ahead side (worstCarried side l rest) (b.levels side).data := by
    generalize worstCarried side l rest = bound
    generalize (b.levels side).data = ls at hv
    induction ls with
    | nil => rfl
    | cons x rest ih =>
      obtain ⟨hfirst, hrest⟩ := pairwise_cons.mp hv
      rw [ahead_cons]
      by_cases hb : better side bound x.price = true
      · have hout : ¬LevelSpill.within x.price bound side = true := fun h =>
          not_le.mpr ((better_iff ..).mp hb) ((LevelSpill.within_iff ..).mp h)
        rw [takeWhile_cons, if_pos hb, length_cons, drop_succ_cons, if_neg hout]
        exact ih hrest
      · have hle : goodness side bound ≤ goodness side x.price :=
          not_lt.mp fun hlt => hb ((better_iff ..).mpr hlt)
        rw [takeWhile_cons, if_neg hb, if_pos ((LevelSpill.within_iff ..).mpr hle)]
        have hall : ahead side bound rest = rest := filter_eq_self.mpr fun y hy =>
          (LevelSpill.within_iff ..).mpr (le_trans hle (hfirst y hy).le)
        rw [hall]
        rfl
  rw [← hdrop]
  unfold trimBehind
  simp only
  split_ifs with hzero
  · rw [hzero, drop_zero]
  · show ((b.setLevels side _).levels side).data = _
    rw [levels_setLevels]
    rfl

end L2Book

/-- The levels a message carries on a side. -/
def BookDeltaMsg.carried (d : BookDeltaMsg) : Side → List Level
  | .buy => d.bids
  | .sell => d.asks

/-- `kTruncatedBids` and `kTruncatedAsks`. -/
def BookDeltaMsg.cut (d : BookDeltaMsg) : Side → Bool
  | .buy => d.truncatedBids
  | .sell => d.truncatedAsks

namespace L2Book

variable {kMaxDepth : Nat} {side : Side} {b : L2Book kMaxDepth} {ref : Side → Price → Qty}

theorem levels_updateCrossed (b : L2Book kMaxDepth) (ts : Timestamp) :
    (b.updateCrossed ts).levels = b.levels := by
  unfold updateCrossed
  split
  · split <;> rfl
  · rfl

/-- A side of a delta flagged truncated on it. -/
theorem levels_applyDelta (h : BookOk b ref) {d : BookDeltaMsg} (hdelta : d.isSnapshot = false)
    (hcut : d.cut side = true) {l : Level} {rest : List Level}
    (hcarried : d.carried side = l :: rest) :
    ((b.applyDelta d).levels side).data = ahead side (worstCarried side l rest)
      (settled kMaxDepth side (b.levels side).data (l :: rest)) := by
  have hbids := h.applyLevels .buy d.bids
  have hasks := hbids.applyLevels .sell d.asks
  unfold applyDelta
  simp only [hdelta, Bool.false_eq_true, if_false]
  rw [levels_updateCrossed]
  cases side with
  | buy =>
    have hflag : d.truncatedBids = true := hcut
    have hls : d.bids = l :: rest := hcarried
    have hothers : ∀ b' : L2Book kMaxDepth,
        (if d.truncatedAsks = true then b'.trimBehind .sell d.asks else b').levels .buy =
          b'.levels .buy := by
      intro b'
      split
      · exact levels_trimBehind_other (by decide) b' d.asks
      · rfl
    show ((if d.truncatedAsks = true then _ else _ : L2Book kMaxDepth).levels .buy).data = _
    rw [hothers, hflag, if_pos rfl, hls, levels_trimBehind (hls ▸ (hasks .buy).sorted),
      levels_applyLevels_other (by decide), levels_applyLevels h]
  | sell =>
    have hflag : d.truncatedAsks = true := hcut
    have hls : d.asks = l :: rest := hcarried
    have hothers : ∀ b' : L2Book kMaxDepth,
        (if d.truncatedBids = true then b'.trimBehind .buy d.bids else b').levels .sell =
          b'.levels .sell := by
      intro b'
      split
      · exact levels_trimBehind_other (by decide) b' d.bids
      · rfl
    show ((if d.truncatedAsks = true then _ else _ : L2Book kMaxDepth).levels .sell).data = _
    rw [hflag, if_pos rfl, hls, levels_trimBehind, hothers, levels_applyLevels hbids,
      levels_applyLevels_other (by decide)]
    rw [hothers]
    exact hls ▸ (hasks .sell).sorted

/-- A cut update leaves of what the whole one leaves the levels at the bound or ahead of it. -/
theorem levels_cut (h : BookOk b ref) {update : List Level}
    (hnodup : (update.map Level.price).Nodup) (hlong : kMaxBookLevelsPerMsg < update.length)
    {d : BookDeltaMsg} (hdelta : d.isSnapshot = false) (hcut : d.cut side = true)
    (hcarried : d.carried side = LevelSpill.keepNearest update side kMaxBookLevelsPerMsg) :
    ((b.applyDelta d).levels side).data =
      ahead side (LevelSpill.nearestBound update side kMaxBookLevelsPerMsg)
        (settled kMaxDepth side (b.levels side).data update) := by
  have hmax : 0 < kMaxBookLevelsPerMsg := by decide
  have hkept : LevelSpill.keepNearest update side kMaxBookLevelsPerMsg = ahead side
      (LevelSpill.nearestBound update side kMaxBookLevelsPerMsg) update :=
    LevelSpill.keepNearest_eq hnodup hmax hlong
  cases hlist : LevelSpill.keepNearest update side kMaxBookLevelsPerMsg with
  | nil =>
    have hlen := (@LevelSpill.nearest_keepNearest side _ _ hnodup hmax).length
    rw [hlist, length_nil] at hlen
    omega
  | cons l rest =>
    have hsorted := (h side).sorted
    have hdepth := (h side).depth
    rw [levels_applyDelta h hdelta hcut (hcarried.trans hlist),
      worstCarried_keepNearest hnodup hmax hlong hlist, ahead_settled hsorted hdepth,
      ahead_settled hsorted hdepth, ← hlist, hkept]
    unfold ahead
    rw [filter_filter]
    simp only [Bool.and_self]

/-- Behind the bound are the prices behind every level kept. -/
theorem behind_kept_iff {update : List Level} (hnodup : (update.map Level.price).Nodup)
    (hlong : kMaxBookLevelsPerMsg < update.length) (p : Price) :
    (∀ k ∈ LevelSpill.keepNearest update side kMaxBookLevelsPerMsg,
        better side k.price p = true) ↔
      ¬ LevelSpill.within p (LevelSpill.nearestBound update side kMaxBookLevelsPerMsg) side =
        true := by
  have hmax : 0 < kMaxBookLevelsPerMsg := by decide
  cases hlist : LevelSpill.keepNearest update side kMaxBookLevelsPerMsg with
  | nil =>
    have hlen := (@LevelSpill.nearest_keepNearest side _ _ hnodup hmax).length
    rw [hlist, length_nil] at hlen
    omega
  | cons l rest =>
    obtain ⟨hin, hle⟩ := worstCarried_spec side l rest
    rw [← worstCarried_keepNearest hnodup hmax hlong hlist, LevelSpill.within_iff, not_le]
    constructor
    · intro hall
      obtain ⟨k, hk, hprice⟩ := mem_map.mp hin
      exact hprice ▸ (better_iff ..).mp (hall k hk)
    · intro hlt k hk
      exact (better_iff ..).mpr (hlt.trans_le (hle k hk))

/-- A cut update leaves what the whole one leaves exactly where every level behind those kept that
the update sets, or that the book holds and the update does not name, is pushed out before the
update ends. -/
theorem cut_same_iff (h : BookOk b ref) {update : List Level}
    (hnodup : (update.map Level.price).Nodup) (hlong : kMaxBookLevelsPerMsg < update.length)
    {d : BookDeltaMsg} (hdelta : d.isSnapshot = false) (hcut : d.cut side = true)
    (hcarried : d.carried side = LevelSpill.keepNearest update side kMaxBookLevelsPerMsg) :
    LevelSpill.Nearest side kMaxBookLevelsPerMsg update
        (LevelSpill.keepNearest update side kMaxBookLevelsPerMsg) ∧
      ((b.applyDelta d).levels side = (b.applyLevels side update).levels side ↔
        ∀ l ∈ standing (b.levels side).data update,
          (∀ k ∈ LevelSpill.keepNearest update side kMaxBookLevelsPerMsg,
            better side k.price l.price = true) →
          PushedOut kMaxDepth side (b.levels side).data update l.price) := by
  refine ⟨LevelSpill.nearest_keepNearest hnodup (by decide), ?_⟩
  have hext : (b.applyDelta d).levels side = (b.applyLevels side update).levels side ↔
      ahead side (LevelSpill.nearestBound update side kMaxBookLevelsPerMsg)
          (settled kMaxDepth side (b.levels side).data update) =
        settled kMaxDepth side (b.levels side).data update := by
    rw [← levels_cut h hnodup hlong hdelta hcut hcarried, ← levels_applyLevels h]
    exact ⟨congrArg StaticVector.data, levels_ext⟩
  have hstands : ∀ l, l ∈ settled kMaxDepth side (b.levels side).data update ↔ _ := fun l =>
    mem_settled (h side).sorted (h side).depth hnodup
  rw [hext, ahead, filter_eq_self]
  simp only [behind_kept_iff hnodup hlong]
  constructor
  · intro hall l hl hbehind
    by_contra hkept
    exact hbehind (hall l ((hstands l).mpr ⟨hl, hkept⟩))
  · intro hall l hl
    obtain ⟨hstand, hkept⟩ := (hstands l).mp hl
    by_contra hbehind
    exact hkept (hall l hstand hbehind)

/-- Two bids, one at the touch and one far behind it. -/
def farApart : List L2Op := [.snapshot [⟨1023, 1⟩, ⟨0, 1⟩] [] 0 0]

/-- Bids set ahead of the touch and everywhere behind it; then the touch is `touch`, and the far
bid last. -/
def crowded (touch : Qty) : List Level :=
  ⟨1024, 1⟩ :: (List.range 1022).map (fun i => ⟨1022 - i, 1⟩) ++ [⟨1023, touch⟩, ⟨0, 7⟩]

/-- The levels kept of `crowded`. -/
def cutCrowded (touch : Qty) : BookDeltaMsg where
  bids := LevelSpill.keepNearest (crowded touch) .buy kMaxBookLevelsPerMsg
  truncatedBids := true

theorem nodup_crowded (touch : Qty) : ((crowded touch).map Level.price).Nodup := by
  have hprices : (crowded touch).map Level.price =
      1024 :: (List.range 1022).map (fun i : Nat => (1022 - i : Int)) ++ [1023, 0] := by
    simp [crowded, comp_def]
  have hmid : ∀ p ∈ (List.range 1022).map (fun i : Nat => (1022 - i : Int)), 0 < p ∧ p < 1023 := by
    intro p hp
    obtain ⟨i, hi, rfl⟩ := mem_map.mp hp
    rw [mem_range] at hi
    omega
  have hinj : Function.Injective fun i : Nat => (1022 - i : Int) := by
    intro i j (h : (1022 - i : Int) = 1022 - j)
    omega
  rw [hprices]
  refine nodup_append.mpr ⟨nodup_cons.mpr ⟨fun hin => ?_, nodup_range.map hinj⟩,
    by decide, fun p hp q hq heq => ?_⟩
  · exact absurd (hmid 1024 hin).2 (by decide)
  rcases mem_cons.mp hp with rfl | hp
  · exact absurd (heq ▸ hq) (by decide)
  have hin := hmid q (heq ▸ hp)
  rcases mem_cons.mp hq with rfl | hq
  · exact absurd hin.2 (by decide)
  · rw [mem_singleton.mp hq] at hin
    exact absurd hin.1 (by decide)

set_option maxRecDepth 100000 in
/-- Where the touch is set again the far bid is the only level behind those kept, and two stand
ahead of it. -/
theorem cut_same_iff_crowded : ((run 2 farApart).applyDelta (cutCrowded 1)).levels .buy =
      ((run 2 farApart).applyLevels .buy (crowded 1)).levels .buy := by
  have hlong : kMaxBookLevelsPerMsg < (crowded 1).length := by decide +kernel
  have hbound : LevelSpill.nearestBound (crowded 1) .buy kMaxBookLevelsPerMsg = 1 := by
    decide +kernel
  have honly : ∀ l ∈ standing ((run 2 farApart).levels .buy).data (crowded 1),
      ¬ LevelSpill.within l.price 1 .buy = true → l = ⟨0, 7⟩ := by
    decide +kernel
  refine (@cut_same_iff 2 .buy _ _ (BookOk.run farApart) _ (nodup_crowded 1) hlong
    (cutCrowded 1) rfl rfl rfl).2.mpr fun l hl hbehind => ?_
  have hfar := (behind_kept_iff (nodup_crowded 1) hlong l.price).mp hbehind
  rw [hbound] at hfar
  rw [honly l hl hfar]
  exact ⟨1025, by decide +kernel, by decide +kernel, by decide +kernel⟩

set_option maxRecDepth 100000 in
/-- The far bid falls out of the book and comes back, at the quantity last set, once the touch is
deleted: a cut update does not carry it. -/
theorem not_cut_same : 2 * 2 ≤ kMaxBookLevelsPerMsg ∧ BookOk (run 2 farApart) (lastQty farApart) ∧
      ((crowded 0).map Level.price).Nodup ∧
      (∀ l ∈ crowded 0, l.qty = 0 → lastQty farApart .buy l.price ≠ 0) ∧
      kMaxBookLevelsPerMsg < (crowded 0).length ∧
      (((run 2 farApart).applyDelta (cutCrowded 0)).levels .buy).data = [⟨1024, 1⟩] ∧
      (((run 2 farApart).applyLevels .buy (crowded 0)).levels .buy).data =
        [⟨0, 7⟩, ⟨1024, 1⟩] :=
  ⟨by decide, BookOk.run farApart, nodup_crowded 0, by decide +kernel, by decide +kernel,
    by decide +kernel, by decide +kernel⟩

end L2Book

end FastMM
