/-
  Core/QueueFills.lean --- what a print fills, and in which order.

  Source: `on_trade`, `on_l3_execute` and `on_cross` of `include/fastmm/core/queue_model.hpp`.

  The three loops are one: orders take their turns in an order of priority, and a turn says what the
  order gets of what is left.  The orders' own data moves only in their turns, so what is filled is
  a sharing out among the orders as they stood before.
-/
import FastMM.Core.QueueModel
import FastMM.Foundation.Sharing
set_option autoImplicit false

namespace FastMM.QueuePositionModel

open Foundation List

variable {σ β : Type}

/-! ## The owner of the model -/

/-- What the owner of a model does on a fill: it takes the order out or leaves it, and leaves the
other orders. -/
structure Owner (f : OnFill σ) : Prop where
  own : ∀ h o fill ahead st, (f h o fill ahead st).1.pool.slots h = st.1.pool.slots h ∨
    (f h o fill ahead st).1.pool.slots h = none
  others : ∀ h o fill ahead st k, k ≠ h → (f h o fill ahead st).1.pool.slots k = st.1.pool.slots k

/-- An owner that also writes down which slot got how much. -/
def logged (f : OnFill σ) : OnFill (σ × List (Nat × Qty)) := fun h o fill ahead st =>
  let r := f h o fill ahead (st.1, st.2.1)
  (r.1, r.2, st.2.2 ++ [(h, fill)])

/-- Resting orders, each among those of its instrument. -/
structure Resting (q : QueuePositionModel) : Prop where
  cum : ∀ h o, q.pool.slots h = some o → 0 ≤ o.cumQty ∧ o.cumQty ≤ o.qty
  ahead : ∀ h o, q.pool.slots h = some o → 0 ≤ o.ahead
  listed : ∀ h o, q.pool.slots h = some o → h ∈ q.onInst o.instrument

/-- An order after a step: of what it was, no more ahead of it, and filled further at most. -/
structure Onward (o o' : QueuedOrder) : Prop where
  qty : o'.qty = o.qty
  cum : o.cumQty ≤ o'.cumQty ∧ o'.cumQty ≤ o'.qty
  ahead : 0 ≤ o'.ahead ∧ o'.ahead ≤ o.ahead

/-! ## Turns -/

/-- Orders taking their turns: the order after it, what it got, and what is left. -/
def fillEach (f : OnFill σ) (turn : QueuedOrder → β → QueuedOrder × Qty × β) :
    List Nat → β → QueuePositionModel × σ → QueuePositionModel × σ
  | [], _, st => st
  | h :: hs, acc, st =>
    match st.1.pool.slots h with
    | none => fillEach f turn hs acc st
    | some o =>
      let r := turn o acc
      if 0 < r.2.1 then fillEach f turn hs r.2.2 (fillSlot f h r.1 r.2.1 o.ahead st)
      else fillEach f turn hs r.2.2 (st.1.put h r.1, st.2)

/-- A turn of `on_l3_execute`. -/
def l3Turn (o : QueuedOrder) (left : Qty) : QueuedOrder × Qty × Qty :=
  if 0 < left ∧ 0 < min left o.leaves then
    ({ o with ahead := 0 }, min left o.leaves, left - min left o.leaves)
  else (o, 0, left)

/-- A turn of `on_trade`. -/
def tradeTurn (px : Price) (aggressor : Side) (o : QueuedOrder) (left : Qty) :
    QueuedOrder × Qty × Qty :=
  let (ahead, fill) := queueAfterTrade o.ahead o.side o.price o.leaves px left aggressor
  ({ o with ahead := ahead }, fill, if 0 < fill then left - fill else left)

/-- A turn of `on_cross`. -/
def crossTurn (cross : Side → Price → Qty) (o : QueuedOrder) (used : Side → Qty) :
    QueuedOrder × Qty × (Side → Qty) :=
  let c := cross o.side o.price
  let fresh := c - o.crossed
  let fill := min (fresh - used o.side) o.leaves
  if fresh ≤ used o.side ∨ ¬ 0 < fill then ({ o with crossed := c }, 0, used)
  else
    ({ o with crossed := c, ahead := 0 }, fill, Function.update used o.side (used o.side + fill))

section Loops

variable (f : OnFill σ)

theorem tradeFills_eq (px : Price) (aggressor : Side) (hs : List Nat) (left : Qty)
    (st : QueuePositionModel × σ) :
    tradeFills f px aggressor hs left st = fillEach f (tradeTurn px aggressor) hs left st := by
  induction hs generalizing left st with
  | nil => rfl
  | cons h hs ih =>
    unfold tradeFills fillEach
    cases hslot : st.1.pool.slots h with
    | none => exact ih left st
    | some o =>
      simp only [tradeTurn]
      split_ifs with hpos
      · rw [ih]
      · rw [ih]

theorem crossFills_eq (cross : Side → Price → Qty) (hs : List Nat) (used : Side → Qty)
    (st : QueuePositionModel × σ) :
    crossFills f cross hs used st = fillEach f (crossTurn cross) hs used st := by
  induction hs generalizing used st with
  | nil => rfl
  | cons h hs ih =>
    unfold crossFills fillEach
    cases hslot : st.1.pool.slots h with
    | none => exact ih used st
    | some o =>
      simp only
      by_cases hnone : cross o.side o.price - o.crossed ≤ used o.side ∨
          ¬ 0 < min (cross o.side o.price - o.crossed - used o.side) o.leaves
      · have hturn : crossTurn cross o used =
            ({ o with crossed := cross o.side o.price }, 0, used) := if_pos hnone
        rw [hturn]
        refine (if_pos hnone).trans ?_
        rw [ih]
        rfl
      · have hpos : 0 < min (cross o.side o.price - o.crossed - used o.side) o.leaves :=
          not_not.mp fun hn => hnone (Or.inr hn)
        have hturn : crossTurn cross o used =
            ({ o with crossed := cross o.side o.price, ahead := 0 },
              min (cross o.side o.price - o.crossed - used o.side) o.leaves,
              Function.update used o.side (used o.side +
                min (cross o.side o.price - o.crossed - used o.side) o.leaves)) := if_neg hnone
        rw [hturn]
        refine (if_neg hnone).trans ?_
        rw [ih]
        exact (if_pos hpos).symm

theorem put_self {q : QueuePositionModel} {h : Nat} {o : QueuedOrder}
    (hs : q.pool.slots h = some o) : q.put h o = q := by
  unfold put
  rw [Pool.set_self hs]

/-- Turns in which nothing is left. -/
theorem fillEach_l3_done {left : Qty} (hleft : ¬ 0 < left) (hs : List Nat)
    (st : QueuePositionModel × σ) : fillEach f l3Turn hs left st = st := by
  induction hs with
  | nil => rfl
  | cons h hs ih =>
    unfold fillEach
    cases hslot : st.1.pool.slots h with
    | none => exact ih
    | some o =>
      have hturn : l3Turn o left = (o, 0, left) := if_neg fun hboth => hleft hboth.1
      simp only [hturn, lt_irrefl, if_false]
      rw [put_self hslot]
      exact ih

theorem l3Fills_eq (hs : List Nat) (left : Qty) (st : QueuePositionModel × σ) :
    l3Fills f hs left st = fillEach f l3Turn hs left st := by
  induction hs generalizing left st with
  | nil => rfl
  | cons h hs ih =>
    unfold l3Fills
    by_cases hleft : 0 < left
    · rw [if_neg (not_not.mpr hleft)]
      unfold fillEach
      cases hslot : st.1.pool.slots h with
      | none => exact ih left st
      | some o =>
        simp only
        by_cases hfill : 0 < min left o.leaves
        · have hturn : l3Turn o left =
              ({ o with ahead := 0 }, min left o.leaves, left - min left o.leaves) :=
            if_pos ⟨hleft, hfill⟩
          rw [if_neg (not_not.mpr hfill), hturn, ih]
          exact (if_pos hfill).symm
        · have hturn : l3Turn o left = (o, 0, left) := if_neg fun hboth => hfill hboth.2
          rw [if_pos hfill, hturn, ih]
          simp only [lt_irrefl, if_false]
          rw [put_self hslot]
    · rw [if_pos hleft, fillEach_l3_done f hleft]

end Loops

/-! ## A round of turns -/

section Round

variable {f : OnFill σ} {turn : QueuedOrder → β → QueuedOrder × Qty × β} {good : β → Prop}

/-- What a slot's order takes in its turn. -/
def takeOf (turn : QueuedOrder → β → QueuedOrder × Qty × β) (p : Nat × QueuedOrder) (acc : β) :
    Int × β := ((turn p.2 acc).2.1, (turn p.2 acc).2.2)

/-- An order after its turn. -/
def settled (r : QueuedOrder × Qty × β) : QueuedOrder :=
  if 0 < r.2.1 then { r.1 with cumQty := r.1.cumQty + r.2.1 } else r.1

theorem slots_put {q : QueuePositionModel} {h : Nat} {o o' : QueuedOrder}
    (hs : q.pool.slots h = some o) (k : Nat) :
    (q.put h o').pool.slots k = if k = h then some o' else q.pool.slots k :=
  Pool.slots_set hs k

/-- One turn: the order is settled or gone, the others stand, and the log has what it got. -/
theorem turn_spec (hf : Owner f) {h : Nat} {o : QueuedOrder} (acc : β)
    {st : QueuePositionModel × (σ × List (Nat × Qty))} (hslot : st.1.pool.slots h = some o) :
    ∃ st', (∀ hs, fillEach (logged f) turn (h :: hs) acc st =
        fillEach (logged f) turn hs (turn o acc).2.2 st') ∧
      (st'.1.pool.slots h = none ∨ st'.1.pool.slots h = some (settled (turn o acc))) ∧
      (∀ k, k ≠ h → st'.1.pool.slots k = st.1.pool.slots k) ∧
      st'.2.2 = st.2.2 ++ if 0 < (turn o acc).2.1 then [(h, (turn o acc).2.1)] else [] := by
  by_cases hpos : 0 < (turn o acc).2.1
  · refine ⟨fillSlot (logged f) h (turn o acc).1 (turn o acc).2.1 o.ahead st, fun hs => ?_, ?_, ?_,
      ?_⟩
    · conv_lhs => unfold fillEach
      rw [hslot]
      exact if_pos hpos
    · have hput : (st.1.put h (settled (turn o acc))).pool.slots h =
          some (settled (turn o acc)) := by
        rw [slots_put hslot, if_pos rfl]
      have hsettled : settled (turn o acc) =
          { (turn o acc).1 with cumQty := (turn o acc).1.cumQty + (turn o acc).2.1 } := if_pos hpos
      unfold fillSlot logged
      rw [← hsettled]
      rcases hf.own h (settled (turn o acc)) (turn o acc).2.1 o.ahead
        (st.1.put h (settled (turn o acc)), st.2.1) with hsame | hgone
      · exact Or.inr (hsame.trans hput)
      · exact Or.inl hgone
    · intro k hk
      refine (hf.others h _ _ _ _ k hk).trans ?_
      rw [slots_put hslot, if_neg hk]
    · rw [if_pos hpos]
      rfl
  · refine ⟨(st.1.put h (turn o acc).1, st.2), fun hs => ?_, ?_, ?_, ?_⟩
    · conv_lhs => unfold fillEach
      rw [hslot]
      exact if_neg hpos
    · have hsettled : settled (turn o acc) = (turn o acc).1 := if_neg hpos
      right
      rw [hsettled]
      rw [slots_put hslot, if_pos rfl]
    · intro k hk
      rw [slots_put hslot, if_neg hk]
    · rw [if_neg hpos, append_nil]

/-- A round of turns: the log is a sharing out among the orders as they stood, an order that had its
turn is settled or gone, and the others stand. -/
theorem fillEach_spec (hf : Owner f) {hs : List Nat} (hnd : hs.Nodup) {ord : Nat → QueuedOrder}
    (hgood : ∀ h ∈ hs, ∀ acc, good acc → good (turn (ord h) acc).2.2) {acc : β} (hacc : good acc)
    {st : QueuePositionModel × (σ × List (Nat × Qty))}
    (hord : ∀ h ∈ hs, st.1.pool.slots h = some (ord h)) :
    (fillEach (logged f) turn hs acc st).2.2 =
        st.2.2 ++ (share (takeOf turn) (hs.map fun h => (h, ord h)) acc).map
          (fun p => (p.1.1, p.2)) ∧
      (∀ k, k ∉ hs →
        (fillEach (logged f) turn hs acc st).1.pool.slots k = st.1.pool.slots k) ∧
      ∀ k ∈ hs, (fillEach (logged f) turn hs acc st).1.pool.slots k = none ∨
        ∃ acc', good acc' ∧ (fillEach (logged f) turn hs acc st).1.pool.slots k =
          some (settled (turn (ord k) acc')) := by
  induction hs generalizing acc st with
  | nil => exact ⟨(append_nil _).symm, fun _ _ => rfl, fun k hk => absurd hk not_mem_nil⟩
  | cons h hs ih =>
    obtain ⟨hfresh, hnd'⟩ := nodup_cons.mp hnd
    obtain ⟨st', hloop, hown, hothers, hlog⟩ :=
      @turn_spec σ β f turn hf h (ord h) acc st (hord h mem_cons_self)
    have hord' : ∀ k ∈ hs, st'.1.pool.slots k = some (ord k) := by
      intro k hk
      rw [hothers k fun heq => hfresh (heq ▸ hk)]
      exact hord k (mem_cons_of_mem h hk)
    obtain ⟨hlog', hout, hin⟩ := ih hnd'
      (fun k hk => hgood k (mem_cons_of_mem h hk)) (hgood h mem_cons_self acc hacc) hord'
    rw [hloop]
    refine ⟨?_, ?_, ?_⟩
    · rw [hlog', hlog, append_assoc]
      congr 1
      conv_rhs => rw [map_cons]; unfold share
      show _ = List.map _ (if 0 < (turn (ord h) acc).2.1 then
        ((h, ord h), (turn (ord h) acc).2.1) :: share (takeOf turn) _ (turn (ord h) acc).2.2
        else share (takeOf turn) _ (turn (ord h) acc).2.2)
      split_ifs with hpos
      · rfl
      · rfl
    · intro k hk
      obtain ⟨hne, hk'⟩ := not_or.mp (mt mem_cons.mpr hk)
      rw [hout k hk', hothers k hne]
    · intro k hk
      rcases mem_cons.mp hk with rfl | hk
      · rw [hout k hfresh]
        exact hown.imp id fun heq => ⟨acc, hacc, heq⟩
      · exact hin k hk

end Round

end FastMM.QueuePositionModel
