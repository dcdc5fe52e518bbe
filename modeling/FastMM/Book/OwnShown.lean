/-
  Book/OwnShown.lean --- our own quantity, shown in the market's book and hidden again.

  Source: `add_own` and `remove_own` of `include/fastmm/core/book/l2_book.hpp`, `OwnShown`,
  `show_own` and `hide_own` of `include/fastmm/core/engine.hpp`.

  What was shown is a stack of notes, undone from its top.  Showing keeps a side sorted, so the
  level a note is about is found again where it was put.
-/
import FastMM.Book.L2Book
set_option autoImplicit false

namespace FastMM

open Foundation List

namespace L2Book

variable {kMaxDepth : Nat}
variable (b : L2Book kMaxDepth)
variable (side : Side)

/-- `best_bid` and `best_ask`: a level of zeros when the side is empty. -/
def best : Level :=
  ((b.levels side).data.getLast?).getD ⟨0, 0⟩

/-- `add_own`: whether the quantity was added, and whether at a level of its own. -/
def addOwn (price : Price) (qty : Qty) :
    L2Book kMaxDepth × Bool × Bool :=
  let v := b.levels side
  let (i, found) := locate v side price
  if found then
    (b.setLevels side (v.set i { v.get i with qty := (v.get i).qty + qty }), true, false)
  else if v.size = kMaxDepth + kOwnLevels ∨ v.size < i then (b, false, true)
  else (b.setLevels side (v.insertAt i ⟨price, qty⟩), true, true)

def removeOwn (price : Price) (qty : Qty) (inserted : Bool) :
    L2Book kMaxDepth :=
  let v := b.levels side
  let (i, found) := locate v side price
  if !found then b
  else if inserted then b.setLevels side (v.eraseAt i)
  else b.setLevels side (v.set i { v.get i with qty := (v.get i).qty - qty })

/-! ## Taking back -/

section TakenBack

variable {v : Levels kMaxDepth} {side : Side} {price : Price} {i : Nat} {l : Level}
variable {b : L2Book kMaxDepth}

/-- A place is where what is below the key ends. -/
theorem place_unique {E K : Type} [LinearOrder K] {key : E → K} {w : List E} {k : K} {i j : Nat}
    (hi : Place key w k i) (hj : Place key w k j) : i = j := by
  have hhalf : ∀ {i j : Nat}, Place key w k i → Place key w k j → ¬ i < j := by
    intro i j hi hj hlt
    have hin : i < w.length := lt_of_lt_of_le hlt hj.le_length
    have habove : w[i] ∈ w.drop i := mem_drop_iff_getElem.mpr ⟨0, by omega, by simp⟩
    have hbelow : w[i] ∈ w.take j := mem_take_iff_getElem.mpr ⟨i, lt_min hlt hin, rfl⟩
    exact absurd (hj.below _ hbelow) (not_lt.mpr (hi.above _ habove))
  exact le_antisymm (not_lt.mp (hhalf hj hi)) (not_lt.mp (hhalf hi hj))

/-- In a sorted side a level is found where it stands. -/
theorem locate_present (hv : Sorted side v.data) (hl : v.data[i]? = some l)
    (hprice : l.price = price) : locate v side price = (i, true) := by
  have hthere := Located.present hv hl hprice
  have hfound := locate_spec hv price
  have hindex := place_unique hfound.place hthere.place
  refine Prod.ext hindex (hfound.found.mpr ⟨l, ?_, hprice⟩)
  rw [hindex]
  exact hl

/-- A side that is rewritten and then written back. -/
theorem setLevels_back (b : L2Book kMaxDepth) (side : Side) (v : Levels kMaxDepth) :
    (b.setLevels side v).setLevels side (b.levels side) = b := by
  unfold setLevels
  simp only [Function.update_idem, Function.update_eq_self]

theorem setLevels_levels (b : L2Book kMaxDepth) (side : Side) (v : Levels kMaxDepth) :
    (b.setLevels side v).levels side = v := Function.update_self ..

/-- Every side strictly sorted, as it is in every book that messages build. -/
def SidesSorted (b : L2Book kMaxDepth) : Prop := ∀ side, Sorted side (b.levels side).data

theorem SidesSorted.run (kMaxDepth : Nat) (ops : List L2Op) : (run kMaxDepth ops).SidesSorted :=
  fun side => (BookOk.run ops side).sorted

section

variable (h : b.SidesSorted)
include h

theorem SidesSorted.setLevels
    (hv : Sorted side v.data) : (b.setLevels side v).SidesSorted := by
  intro other
  by_cases hside : other = side
  · rw [hside, setLevels_levels]
    exact hv
  have hsame : (b.setLevels side v).levels other = b.levels other :=
    Function.update_of_ne hside _ _
  rw [hsame]
  exact h other

/-- Quantity added at a level that was there comes out again. -/
theorem removeOwn_merged (qty : Qty) (hl : (b.levels side).data[i]? = some l) :
    (b.setLevels side ((b.levels side).set i { l with qty := l.qty + qty })).SidesSorted ∧
      (b.setLevels side ((b.levels side).set i { l with qty := l.qty + qty })).removeOwn side
        l.price qty false = b := by
  have hset : Sorted side ((b.levels side).set i { l with qty := l.qty + qty }).data :=
    (h side).set hl rfl
  obtain ⟨hlt, hget⟩ := List.getElem?_eq_some_iff.mp hl
  have hat : ((b.levels side).set i { l with qty := l.qty + qty }).data[i]? =
      some { l with qty := l.qty + qty } := getElem?_set_self hlt
  have hback : ((b.levels side).set i { l with qty := l.qty + qty }).set i
      { l with qty := l.qty + qty - qty } = b.levels side := by
    have hsame : ({ l with qty := l.qty + qty - qty } : Level) = l := by
      rw [Int.add_sub_cancel]
    unfold StaticVector.set
    simp only [set_set, hsame]
    congr 1
    rw [← hget, set_getElem_self]
  have hfind : locate ((b.levels side).set i { l with qty := l.qty + qty }) side l.price =
      (i, true) := locate_present hset hat rfl
  refine ⟨h.setLevels hset, ?_⟩
  unfold removeOwn
  simp only [setLevels_levels, hfind, Bool.not_true, Bool.false_eq_true, if_false]
  rw [get_eq hat, hback]
  exact setLevels_back b side _

/-- A level of its own goes again. -/
theorem removeOwn_inserted (qty : Qty)
    (hloc : Located (b.levels side) side price (i, false))
    (hroom : ¬ ((b.levels side).size = kMaxDepth + kOwnLevels ∨ (b.levels side).size < i)) :
    (b.setLevels side ((b.levels side).insertAt i ⟨price, qty⟩)).SidesSorted ∧
      (b.setLevels side ((b.levels side).insertAt i ⟨price, qty⟩)).removeOwn side price qty true =
        b := by
  have hle : i ≤ (b.levels side).data.length := hloc.place.le_length
  have hins : ((b.levels side).insertAt i ⟨price, qty⟩).data =
      (b.levels side).data.insertIdx i ⟨price, qty⟩ := by
    unfold StaticVector.insertAt
    rw [dif_neg hroom]
  have hno : ∀ y, (b.levels side).data[i]? = some y →
      goodness side y.price ≠ goodness side price := fun y hy heq =>
    Bool.false_ne_true (hloc.found.mpr ⟨y, hy, goodness_injective side heq⟩)
  have hsorted : Sorted side ((b.levels side).insertAt i ⟨price, qty⟩).data := by
    rw [hins, insertIdx_eq_append hle]
    exact (h side).insert hloc.place hno
  have hat : ((b.levels side).insertAt i ⟨price, qty⟩).data[i]? = some ⟨price, qty⟩ := by
    rw [hins, getElem?_insertIdx_self, if_pos hle]
  have hback : ((b.levels side).insertAt i ⟨price, qty⟩).eraseAt i = b.levels side := by
    unfold StaticVector.eraseAt
    congr 1
    rw [hins]
    exact eraseIdx_insertIdx_self _
  have hfind : locate ((b.levels side).insertAt i ⟨price, qty⟩) side price = (i, true) :=
    locate_present hsorted hat rfl
  refine ⟨h.setLevels hsorted, ?_⟩
  unfold removeOwn
  simp only [setLevels_levels, hfind, Bool.not_true, Bool.false_eq_true, if_false, if_true]
  rw [hback]
  exact setLevels_back b side _

/-- Quantity that was added is taken out again by its note, at a level that was there as at one of
its own; where there was no room nothing was added. -/
theorem addOwn_spec (side : Side) (price : Price) (qty : Qty) :
    (b.addOwn side price qty).1.SidesSorted ∧
      ((b.addOwn side price qty).2.1 = true →
        (b.addOwn side price qty).1.removeOwn side price qty (b.addOwn side price qty).2.2 = b) ∧
      ((b.addOwn side price qty).2.1 = false → (b.addOwn side price qty).1 = b) := by
  have hloc := locate_spec (h side) price
  unfold addOwn
  simp only
  generalize locate (b.levels side) side price = r at hloc ⊢
  obtain ⟨i, found⟩ := r
  cases found with
  | true =>
    obtain ⟨l, hl, hprice⟩ := hloc.found.mp rfl
    obtain ⟨hsorted, hback⟩ := removeOwn_merged h qty hl
    rw [if_pos rfl, get_eq hl, ← hprice]
    exact ⟨hsorted, fun _ => hback, fun hno => absurd hno.symm Bool.false_ne_true⟩
  | false =>
    rw [if_neg Bool.false_ne_true]
    by_cases hfull : (b.levels side).size = kMaxDepth + kOwnLevels ∨ (b.levels side).size < i
    · rw [if_pos hfull]
      exact ⟨h, fun hno => absurd hno Bool.false_ne_true, fun _ => rfl⟩
    · obtain ⟨hsorted, hback⟩ := removeOwn_inserted h qty hloc hfull
      rw [if_neg hfull]
      exact ⟨hsorted, fun _ => hback, fun hno => absurd hno.symm Bool.false_ne_true⟩

end

end TakenBack

end L2Book

structure Added where
  side : Side
  inserted : Bool
  px : Price
  qty : Qty
  deriving DecidableEq, Repr

/-- `OwnShown`: our levels on an instrument, and what of them the book holds now. -/
structure OwnShown where
  levels : Side → StaticVector Level L2Book.kOwnLevels := fun _ => .nil
  added : StaticVector Added (2 * L2Book.kOwnLevels) := .nil

namespace OwnShown

open L2Book

variable {kMaxDepth : Nat}

/-- Whether a level of ours stands at or through the market's opposite touch, where it is not
shown. -/
def through (bid ask : Level) (side : Side) (l : Level) : Bool :=
  match side with
  | .buy => decide (0 < ask.qty ∧ ask.price ≤ l.price)
  | .sell => decide (0 < bid.qty ∧ l.price ≤ bid.price)

/-- One level in the loop of `show_own`. -/
def showLevel (bid ask : Level) (side : Side)
    (s : L2Book kMaxDepth × StaticVector Added (2 * kOwnLevels)) (l : Level) :
    L2Book kMaxDepth × StaticVector Added (2 * kOwnLevels) :=
  if through bid ask side l then s
  else
    match s.1.addOwn side l.price l.qty with
    | (b, true, inserted) => (b, s.2.pushBack ⟨side, inserted, l.price, l.qty⟩)
    | (b, false, _) => (b, s.2)

def showOwn (o : OwnShown) (b : L2Book kMaxDepth) : L2Book kMaxDepth × OwnShown :=
  let bid := b.best .buy
  let ask := b.best .sell
  let s := (o.levels .buy).data.foldl (showLevel bid ask .buy) (b, o.added)
  let s := (o.levels .sell).data.foldl (showLevel bid ask .sell) s
  (s.1, { o with added := s.2 })

/-- The notes taken back, the last first. -/
def undo (b : L2Book kMaxDepth) (added : List Added) : L2Book kMaxDepth :=
  added.foldr (fun a b => b.removeOwn a.side a.px a.qty a.inserted) b

def hideOwn (o : OwnShown) (b : L2Book kMaxDepth) : L2Book kMaxDepth × OwnShown :=
  (undo b o.added.data, { o with added := .nil })

/-! ## Shown and hidden -/

section Hidden

variable {b₀ : L2Book kMaxDepth} {bid ask : Level}
  {s : L2Book kMaxDepth × StaticVector Added (2 * kOwnLevels)}

/-- A book whose notes lead back to the one before, with room for so many notes more. -/
structure LeadsBack (b₀ : L2Book kMaxDepth)
    (s : L2Book kMaxDepth × StaticVector Added (2 * kOwnLevels)) (room : Nat) : Prop where
  sorted : s.1.SidesSorted
  back : undo s.1 s.2.data = b₀
  space : s.2.size + room ≤ 2 * kOwnLevels

theorem undo_snoc (b : L2Book kMaxDepth) (added : List Added) (a : Added) :
    undo b (added ++ [a]) = undo (b.removeOwn a.side a.px a.qty a.inserted) added := by
  unfold undo
  rw [foldr_append]
  rfl

theorem LeadsBack.showLevel {room : Nat} (h : LeadsBack b₀ s (room + 1)) (side : Side) (l : Level) :
    LeadsBack b₀ (showLevel bid ask side s l) room := by
  have hroom := h.space
  have hskip : LeadsBack b₀ s room := ⟨h.sorted, h.back, by omega⟩
  unfold OwnShown.showLevel
  split
  · exact hskip
  obtain ⟨hsorted, hback, hsame⟩ := addOwn_spec h.sorted side l.price l.qty
  generalize s.1.addOwn side l.price l.qty = r at hsorted hback hsame
  obtain ⟨b, kept, inserted⟩ := r
  cases kept with
  | false =>
    have hb : b = s.1 := hsame rfl
    rw [hb]
    exact hskip
  | true =>
    have hpush : (s.2.pushBack ⟨side, inserted, l.price, l.qty⟩).data =
        s.2.data ++ [⟨side, inserted, l.price, l.qty⟩] := by
      unfold StaticVector.pushBack
      rw [dif_pos (show s.2.size < 2 * kOwnLevels by omega)]
    refine ⟨hsorted, ?_, ?_⟩
    · rw [hpush, undo_snoc, hback rfl]
      exact h.back
    show (s.2.pushBack ⟨side, inserted, l.price, l.qty⟩).data.length + room ≤ _
    rw [hpush, length_append, length_singleton]
    have hsize : s.2.size = s.2.data.length := rfl
    omega

theorem LeadsBack.showSide {room : Nat} (side : Side) (ls : List Level)
    (h : LeadsBack b₀ s (ls.length + room)) :
    LeadsBack b₀ (ls.foldl (OwnShown.showLevel bid ask side) s) room := by
  induction ls generalizing s with
  | nil => exact ⟨h.sorted, h.back, by simpa using h.space⟩
  | cons l ls ih =>
    have hstart : LeadsBack b₀ s (ls.length + room + 1) := by
      refine ⟨h.sorted, h.back, ?_⟩
      have hspace := h.space
      rw [length_cons] at hspace
      omega
    exact ih (hstart.showLevel side l)

/-- Hiding what was shown leaves the market's book, whatever levels of ours there are. -/
theorem hide_show (b : L2Book kMaxDepth) (hsorted : b.SidesSorted) (o : OwnShown)
    (hnone : o.added = .nil) : (o.showOwn b).2.hideOwn (o.showOwn b).1 = (b, o) := by
  have hbuys := (o.levels .buy).length_le
  have hsells := (o.levels .sell).length_le
  have hstart : LeadsBack b (b, o.added)
      ((o.levels .buy).data.length + ((o.levels .sell).data.length + 0)) := by
    refine ⟨hsorted, ?_, ?_⟩
    · rw [hnone]
      rfl
    · rw [hnone]
      show 0 + _ ≤ 2 * kOwnLevels
      omega
  have hshown : LeadsBack b ((o.showOwn b).1, (o.showOwn b).2.added) 0 :=
    (hstart.showSide .buy _).showSide .sell _
  unfold hideOwn
  rw [hshown.back, ← hnone]
  rfl

/-- Two bids of ours at one market price, one at a price of its own and one through the ask. -/
theorem hide_show_bids : (({ levels := fun
          | .buy => ⟨[⟨12, 1⟩, ⟨9, 4⟩, ⟨12, 2⟩, ⟨15, 1⟩], by decide⟩
          | .sell => .nil } : OwnShown).showOwn
        (run 2 [.level .buy 12 5, .level .buy 10 1, .level .sell 14 2])).2.hideOwn
      (({ levels := fun
          | .buy => ⟨[⟨12, 1⟩, ⟨9, 4⟩, ⟨12, 2⟩, ⟨15, 1⟩], by decide⟩
          | .sell => .nil } : OwnShown).showOwn
        (run 2 [.level .buy 12 5, .level .buy 10 1, .level .sell 14 2])).1 =
      (run 2 [.level .buy 12 5, .level .buy 10 1, .level .sell 14 2], { levels := fun
          | .buy => ⟨[⟨12, 1⟩, ⟨9, 4⟩, ⟨12, 2⟩, ⟨15, 1⟩], by decide⟩
          | .sell => .nil }) :=
  hide_show _ (SidesSorted.run 2 _) _ rfl

-- Two bids join the market's level, one stands on its own, and one is not shown.
example : ((({ levels := fun
          | .buy => ⟨[⟨12, 1⟩, ⟨9, 4⟩, ⟨12, 2⟩, ⟨15, 1⟩], by decide⟩
          | .sell => .nil } : OwnShown).showOwn
        (run 2 [.level .buy 12 5, .level .buy 10 1, .level .sell 14 2])).1.levels .buy).data =
      [⟨9, 4⟩, ⟨10, 1⟩, ⟨12, 8⟩] := by decide

end Hidden

end OwnShown

end FastMM
