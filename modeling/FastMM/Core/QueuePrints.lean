/-
  Core/QueuePrints.lean --- what a print takes of the queue model's orders.

  Source: `on_trade`, `on_l3_execute` and `on_cross` of `include/fastmm/core/queue_model.hpp`.
-/
import FastMM.Core.QueueShares
import Mathlib.Data.Prod.Lex
set_option autoImplicit false

namespace FastMM.QueuePositionModel

open List Prod.Lex

variable {σ : Type} {q : QueuePositionModel}

/-! ## The orders of priority -/

/-- On one side at a better price. -/
def betterPriced (a b : QueuedOrder) : Prop :=
  a.side = b.side ∧ better b.side a.price b.price = true

/-- On one side at a better price, or at the same price in an earlier place. -/
def rankedSooner (a b : QueuedOrder) : Prop :=
  a.side = b.side ∧ (better b.side a.price b.price = true ∨ a.price = b.price ∧ a.prio < b.prio)

/-- The opposite quantity an order has not seen yet. -/
def fresh (cross : Side → Price → Qty) (o : QueuedOrder) : Qty := cross o.side o.price - o.crossed

/-- On one side at a better price, with as much new opposite quantity. -/
def reachedSooner (cross : Side → Price → Qty) (a b : QueuedOrder) : Prop :=
  betterPriced a b ∧ fresh cross b ≤ fresh cross a

theorem not_betterPriced_self (o : QueuedOrder) : ¬ betterPriced o o := fun h =>
  absurd ((better_iff _ _ _).mp h.2) (lt_irrefl _)

theorem goodness_opposite (s : Side) (p : Price) : goodness s p = -goodness s.opposite p := by
  cases s with
  | buy => exact (neg_neg p).symm
  | sell => rfl

/-- A sort by price, best first, and then by something else. -/
theorem price_then {κ : Type} [LinearOrder κ] (side : Side) {p p' : Price} {x x' : κ} {r : Bool}
    (hr : r = true ↔ x < x') :
    (if p ≠ p' then better side p p' else r) = true ↔
      toLex (-goodness side p, x) < toLex (-goodness side p', x') := by
  rw [toLex_lt_toLex]
  by_cases hp : p = p'
  · rw [if_neg (not_not.mpr hp), hp, hr]
    simp
  rw [if_pos hp, better_iff]
  have hne : -goodness side p ≠ -goodness side p' := fun h =>
    hp (goodness_injective side (neg_injective h))
  simp only [hne, false_and, or_false, neg_lt_neg_iff]

/-- A sort by a number, the smallest first, and then by something else. -/
theorem number_then {κ κ' : Type} [LinearOrder κ] [LinearOrder κ'] {n n' : κ} {x x' : κ'}
    {r : Bool} (hr : r = true ↔ x < x') :
    (if n ≠ n' then decide (n < n') else r) = true ↔ toLex (n, x) < toLex (n', x') := by
  rw [toLex_lt_toLex]
  by_cases hn : n = n'
  · rw [if_neg (not_not.mpr hn), hn, hr]
    simp
  · rw [if_pos hn, decide_eq_true_iff]
    simp only [hn, false_and, or_false]

/-- A sort by side, then by price and then by something else. -/
theorem side_then {κ : Type} [LinearOrder κ] {side side' : Side} {p p' : Price} {x x' : κ}
    {r : Bool} (hr : r = true ↔ x < x') :
    (if side ≠ side' then decide (side.code < side'.code)
      else if p ≠ p' then better side p p' else r) = true ↔
      toLex (side.code, toLex (-goodness side p, x)) <
        toLex (side'.code, toLex (-goodness side' p', x')) := by
  rw [toLex_lt_toLex]
  by_cases hside : side = side'
  · subst hside
    rw [if_neg (not_not.mpr rfl), price_then side hr]
    simp
  · have hcode : side.code ≠ side'.code := by
      revert hside
      cases side <;> cases side' <;> decide
    rw [if_pos hside, decide_eq_true_iff]
    simp only [hcode, false_and, or_false]

/-! ## A trade -/

section Trade

variable (px : Price) (qty : Qty) (aggressor : Side) (ts : Timestamp)
variable (o : QueuedOrder)
variable (left : Qty)

/-- Who takes part in `on_trade`. -/
def tradeTakes : Bool := decide (o.placed ≤ ts ∧ o.side = aggressor.opposite)

/-- What `on_trade` writes over an order that came after the print. -/
def tradeWrites : QueuedOrder :=
  if ts < o.placed ∧ o.view < ts then
    { o with ahead := levelAfterPrint o.ahead o.side o.price px qty aggressor }
  else o

/-- Nobody at this price or a worse one gets anything of what is left. -/
def tradeBars : Prop :=
  left ≤ 0 ∨ ¬ better aggressor px o.price = true

variable {px qty aggressor ts}

theorem levelAfterPrint_onward {shown : Qty} (hshown : 0 ≤ shown) (hqty : 0 ≤ qty) (side : Side)
    (p : Price) :
    0 ≤ levelAfterPrint shown side p px qty aggressor ∧
      levelAfterPrint shown side p px qty aggressor ≤ shown := by
  unfold levelAfterPrint
  split_ifs with hside hbetter hpx hle
  · exact ⟨hshown, le_refl _⟩
  · exact ⟨le_refl _, hshown⟩
  · exact ⟨hshown, le_refl _⟩
  · exact ⟨le_refl _, hshown⟩
  · have hlt := not_le.mp hle
    exact ⟨sub_nonneg.mpr hlt.le, sub_le_self _ hqty⟩

/-- What reaches an order of the printed side. -/
theorem queueAfterTrade_spec (px price : Price) {ahead leaves left : Qty} {side : Side}
    (hside : side = aggressor.opposite) (hahead : 0 ≤ ahead) (hleaves : 0 ≤ leaves)
    (hleft : 0 ≤ left) :
    (0 ≤ (queueAfterTrade ahead side price leaves px left aggressor).1 ∧
      (queueAfterTrade ahead side price leaves px left aggressor).1 ≤ ahead) ∧
    (queueAfterTrade ahead side price leaves px left aggressor).2 ≤ left ∧
    (queueAfterTrade ahead side price leaves px left aggressor).2 ≤ leaves ∧
    (better aggressor px price = true → leaves ≠ 0 →
      (queueAfterTrade ahead side price leaves px left aggressor).2 = min left leaves) ∧
    (better aggressor px price = false → px ≠ price →
      (queueAfterTrade ahead side price leaves px left aggressor).2 = 0) := by
  have hopp : ¬ side ≠ aggressor.opposite := not_not.mpr hside
  unfold queueAfterTrade
  split_ifs with hnone hbetter hpx hlt
  · have hzero : leaves = 0 := hnone.resolve_left hopp
    exact ⟨⟨hahead, le_refl _⟩, hleft, hleaves, fun _ hne => absurd hzero hne, fun _ _ => rfl⟩
  · exact ⟨⟨le_refl _, hahead⟩, min_le_left _ _, min_le_right _ _, fun _ _ => rfl,
      fun hnot => absurd (hbetter.symm.trans hnot) (by decide)⟩
  · exact ⟨⟨hahead, le_refl _⟩, hleft, hleaves, fun hb => absurd hb hbetter, fun _ _ => rfl⟩
  · exact ⟨⟨le_refl _, hahead⟩, (min_le_left _ _).trans (sub_le_self _ hahead), min_le_right _ _,
      fun hb => absurd hb hbetter, fun _ hne => absurd hne hpx⟩
  · exact ⟨⟨sub_nonneg.mpr (not_lt.mp hlt), sub_le_self _ hleft⟩, hleft, hleaves,
      fun hb => absurd hb hbetter, fun _ _ => rfl⟩

/-- An order that is filled by no more than it had left goes on. -/
theorem settled_onward {o o' : QueuedOrder} {fill : Qty} {β : Type} {acc : β}
    (hcum : 0 ≤ o.cumQty ∧ o.cumQty ≤ o.qty) (hfill : fill ≤ o.leaves)
    (hsame : o'.qty = o.qty ∧ o'.cumQty = o.cumQty) (hahead : 0 ≤ o'.ahead ∧ o'.ahead ≤ o.ahead) :
    Onward o (settled (o', fill, acc)) := by
  have hle : o.cumQty + fill ≤ o.qty := by
    have hsub : fill ≤ o.qty - o.cumQty := hfill
    exact le_sub_iff_add_le'.mp hsub
  unfold settled
  split_ifs with hpos
  · refine ⟨hsame.1, ⟨?_, ?_⟩, hahead⟩
    · rw [hsame.2]
      exact le_add_of_nonneg_right hpos.le
    · rw [hsame.1, hsame.2]
      exact hle
  · refine ⟨hsame.1, ⟨le_of_eq hsame.2.symm, ?_⟩, hahead⟩
    rw [hsame.1, hsame.2]
    exact hcum.2

theorem tradeTurn_rest : (tradeTurn px aggressor o left).2.2 =
      if 0 < (tradeTurn px aggressor o left).2.1 then left - (tradeTurn px aggressor o left).2.1
      else left := rfl

theorem tradeTurn_rest_le : (tradeTurn px aggressor o left).2.2 ≤ left := by
  rw [tradeTurn_rest]
  split_ifs with hpos
  · exact sub_le_self _ hpos.le
  · exact le_refl _

theorem tradeRules (hq : Resting q) (inst : InstrumentId) (hqty : 0 ≤ qty) :
    Rules q inst ts (tradeTakes aggressor ts) (tradeWrites px qty aggressor ts)
      (tradeTurn px aggressor) (fun left => 0 ≤ left) (tradeBars px aggressor) betterPriced where
  writes h o ho := by
    unfold tradeWrites
    split_ifs with hview
    · exact ⟨rfl, ⟨le_refl _, (hq.cum h o ho).2⟩,
        levelAfterPrint_onward (hq.ahead h o ho) hqty o.side o.price⟩
    · exact hq.onward_self ho
  leaves o htakes := by
    have hplaced : o.placed ≤ ts := (of_decide_eq_true htakes).1
    exact if_neg fun hview => absurd hview.1 (not_lt.mpr hplaced)
  keeps h o ht left hleft := by
    obtain ⟨hahead, hle, hleaves, -, -⟩ := queueAfterTrade_spec px o.price
      (of_decide_eq_true ht.takes).2 (hq.ahead h o ht.slot) (hq.leaves_nonneg ht.slot) hleft
    refine ⟨?_, settled_onward (hq.cum h o ht.slot) hleaves ⟨rfl, rfl⟩ hahead⟩
    rw [tradeTurn_rest]
    split_ifs with hpos
    · exact sub_nonneg.mpr hle
    · exact hleft
  ends h o ht left hleft := by
    obtain ⟨-, -, -, hthrough, -⟩ := queueAfterTrade_spec px o.price
      (of_decide_eq_true ht.takes).2 (hq.ahead h o ht.slot) (hq.leaves_nonneg ht.slot) hleft
    by_cases hzero : o.leaves = 0
    · exact Or.inl hzero
    have hwants : 0 < o.leaves := lt_of_le_of_ne (hq.leaves_nonneg ht.slot) (Ne.symm hzero)
    refine Or.inr ?_
    by_cases hbetter : better aggressor px o.price = true
    · have hfill : (tradeTurn px aggressor o left).2.1 = min left o.leaves := hthrough hbetter hzero
      rcases le_or_gt o.leaves left with hall | hshort
      · rw [min_eq_right hall] at hfill
        exact Or.inl ⟨hfill ▸ hwants, hfill⟩
      rw [min_eq_left hshort.le] at hfill
      refine Or.inr (Or.inl ?_)
      rcases hleft.lt_or_eq with hpos | hnone
      · rw [tradeTurn_rest, hfill, if_pos hpos, sub_self]
      · exact (tradeTurn_rest_le o left).trans (le_of_eq hnone.symm)
    · exact Or.inr (Or.inr hbetter)
  stays h o ht a left hleft hbars :=
    hbars.imp ((tradeTurn_rest_le o left).trans) id
  blocks h o ht a left hleft hprior hbars := by
    obtain ⟨-, hle, -, -, hother⟩ := queueAfterTrade_spec px o.price
      (of_decide_eq_true ht.takes).2 (hq.ahead h o ht.slot) (hq.leaves_nonneg ht.slot) hleft
    rcases hbars with hnone | hnot
    · exact not_lt.mpr (le_trans hle hnone)
    -- A print that does not go through the better price does not reach this one.
    have hside : o.side = aggressor.opposite := (of_decide_eq_true ht.takes).2
    have hworse := (better_iff _ _ _).mp hprior.2
    rw [better_iff, not_lt, goodness_opposite aggressor px, goodness_opposite aggressor a.price,
      ← hside, neg_le_neg_iff] at hnot
    have hlt : goodness o.side o.price < goodness o.side px := lt_of_lt_of_le hworse hnot
    have hnb : better aggressor px o.price = false := by
      rw [← Bool.not_eq_true, better_iff, goodness_opposite aggressor px,
        goodness_opposite aggressor o.price, ← hside, neg_lt_neg_iff]
      exact not_lt.mpr hlt.le
    have hne : px ≠ o.price := fun heq => absurd hlt (heq ▸ lt_irrefl _)
    exact not_lt.mpr (hother hnb hne).le
  covers a o htakes hplaced hprior :=
    decide_eq_true ⟨hplaced, hprior.1.trans (of_decide_eq_true htakes).2⟩
  irrefl := not_betterPriced_self

end Trade

/-! ## An execution of the recorded book -/

section Execution

variable (side : Side) (px execPx : Price) (qty : Qty) (prio : Nat) (ts : Timestamp)

/-- Who takes part in `on_l3_execute`. -/
def l3Takes (o : QueuedOrder) : Bool :=
  decide (o.side = side ∧
    l3ExecutionReaches side o.price o.prio px prio execPx = .fills ∧ o.placed ≤ ts)

/-- What `on_l3_execute` writes over an order that stands behind the executed one. -/
def l3Writes (o : QueuedOrder) : QueuedOrder :=
  if o.side = side ∧ l3ExecutionReaches side o.price o.prio px prio execPx = .ahead then
    { o with ahead := lessAhead o.ahead qty }
  else o

variable {side px execPx qty prio ts}

theorem atOrBetter_iff (s : Side) (p p' : Price) :
    atOrBetter s p p' = true ↔ goodness s p' ≤ goodness s p := by
  cases s with
  | buy => exact decide_eq_true_iff
  | sell => exact decide_eq_true_iff.trans Int.neg_le_neg_iff.symm

/-- An execution reaches the orders the aggressor meets before the executed one. -/
theorem reaches_fills_iff {price : Price} {place : Nat} :
    l3ExecutionReaches side price place px prio execPx = .fills ↔
      goodness side execPx ≤ goodness side price ∧
        (goodness side px < goodness side price ∨ price = px ∧ place < prio) := by
  unfold l3ExecutionReaches
  simp only [Bool.and_eq_true, Bool.or_eq_true, decide_eq_true_eq, atOrBetter_iff, better_iff]
  split_ifs with hreached hahead
  · exact iff_of_true rfl hreached
  · exact iff_of_false (by decide) hreached
  · exact iff_of_false (by decide) hreached

theorem lessAhead_onward {ahead : Qty} (hahead : 0 ≤ ahead) (hqty : 0 ≤ qty) :
    0 ≤ lessAhead ahead qty ∧ lessAhead ahead qty ≤ ahead := by
  unfold lessAhead
  split_ifs with hlt
  · exact ⟨sub_nonneg.mpr hlt.le, sub_le_self _ hqty⟩
  · exact ⟨le_refl _, hahead⟩

/-- A turn gives what the order wants of what is left. -/
theorem l3Turn_spec {o : QueuedOrder} {left : Qty} (hleft : 0 ≤ left) (hleaves : 0 ≤ o.leaves) :
    (l3Turn o left).2.1 = min left o.leaves ∧
      (l3Turn o left).2.2 = left - min left o.leaves := by
  unfold l3Turn
  split_ifs with hboth
  · exact ⟨rfl, rfl⟩
  have hmin : min left o.leaves = 0 := by
    refine le_antisymm (not_lt.mp fun hpos => hboth ⟨?_, hpos⟩) (le_min hleft hleaves)
    exact lt_of_lt_of_le hpos (min_le_left _ _)
  exact ⟨hmin.symm, (sub_eq_self.mpr hmin).symm⟩

theorem l3Rules (hq : Resting q) (inst : InstrumentId) (hqty : 0 ≤ qty) :
    Rules q inst ts (l3Takes side px execPx prio ts) (l3Writes side px execPx qty prio) l3Turn
      (fun left => 0 ≤ left) (fun _ left => left ≤ 0) rankedSooner where
  writes h o ho := by
    unfold l3Writes
    split_ifs with hahead
    · exact ⟨rfl, ⟨le_refl _, (hq.cum h o ho).2⟩, lessAhead_onward (hq.ahead h o ho) hqty⟩
    · exact hq.onward_self ho
  leaves o htakes := by
    have hfills := (of_decide_eq_true htakes).2.1
    exact if_neg fun hahead => absurd (hfills.symm.trans hahead.2) (by decide)
  keeps h o ht left hleft := by
    obtain ⟨-, hrest⟩ := l3Turn_spec hleft (hq.leaves_nonneg ht.slot)
    refine ⟨?_, ?_⟩
    · rw [hrest]
      exact sub_nonneg.mpr (min_le_left _ _)
    unfold l3Turn
    split_ifs with hboth
    · exact settled_onward (hq.cum h o ht.slot) (min_le_right _ _) ⟨rfl, rfl⟩
        ⟨le_refl _, hq.ahead h o ht.slot⟩
    · exact settled_onward (hq.cum h o ht.slot) (hq.leaves_nonneg ht.slot) ⟨rfl, rfl⟩
        ⟨hq.ahead h o ht.slot, le_refl _⟩
  ends h o ht left hleft := by
    obtain ⟨hfill, hrest⟩ := l3Turn_spec hleft (hq.leaves_nonneg ht.slot)
    rw [hfill, hrest]
    rcases le_or_gt o.leaves left with hall | hshort
    · rw [min_eq_right hall]
      rcases (hq.leaves_nonneg ht.slot).lt_or_eq with hwants | hnone
      · exact Or.inr (Or.inl ⟨hwants, rfl⟩)
      · exact Or.inl hnone.symm
    · rw [min_eq_left hshort.le, sub_self]
      exact Or.inr (Or.inr (le_refl _))
  stays h o ht a left hleft hbars := by
    obtain ⟨-, hrest⟩ := l3Turn_spec hleft (hq.leaves_nonneg ht.slot)
    rw [hrest]
    exact (sub_le_self _ (le_min hleft (hq.leaves_nonneg ht.slot))).trans hbars
  blocks h o ht a left hleft hprior hbars := by
    obtain ⟨hfill, -⟩ := l3Turn_spec hleft (hq.leaves_nonneg ht.slot)
    rw [hfill]
    exact not_lt.mpr ((min_le_left _ _).trans hbars)
  covers a o htakes hplaced hprior := by
    obtain ⟨hside, hfills, -⟩ := of_decide_eq_true htakes
    obtain ⟨hreached, hsooner⟩ := reaches_fills_iff.mp hfills
    refine decide_eq_true ⟨hprior.1.trans hside, reaches_fills_iff.mpr ?_, hplaced⟩
    rcases hprior.2 with hbetter | ⟨hprice, hplace⟩
    · rw [better_iff, hside] at hbetter
      refine ⟨hreached.trans hbetter.le, Or.inl ?_⟩
      rcases hsooner with hlt | ⟨heq, -⟩
      · exact hlt.trans hbetter
      · exact heq ▸ hbetter
    · rw [hprice]
      exact ⟨hreached, hsooner.imp id fun hsame => ⟨hsame.1, hplace.trans hsame.2⟩⟩
  irrefl o hprior := hprior.2.elim
    (fun hbetter => absurd ((better_iff _ _ _).mp hbetter) (lt_irrefl _))
    (fun hplace => absurd hplace.2 (lt_irrefl _))

end Execution

/-! ## A view of the book -/

section View

variable (cross : Side → Price → Qty) (ts : Timestamp)
variable (o : QueuedOrder)

/-- Who takes part in `on_cross`. -/
def crossTakes : Bool :=
  decide (o.placed ≤ ts ∧ o.crossed < cross o.side o.price)

/-- What `on_cross` writes over an order that has nothing new to see. -/
def crossWrites : QueuedOrder :=
  if ts < o.placed then { o with crossed := max o.crossed (cross o.side o.price) }
  else if o.crossed < cross o.side o.price then o
  else { o with crossed := cross o.side o.price }

/-- The largest new crossing quantity of a side's orders. -/
def mostFresh (q : QueuePositionModel) (inst : InstrumentId) (side : Side) : Qty :=
  (((q.onInst inst).filter fun h =>
    decide ((q.get h).side = side ∧ (q.get h).placed ≤ ts)).map fun h =>
      fresh cross (q.get h)).foldr max 0

variable {cross ts}

theorem le_foldr_max (xs : List Qty) : 0 ≤ xs.foldr max 0 ∧ ∀ x ∈ xs, x ≤ xs.foldr max 0 := by
  induction xs with
  | nil => exact ⟨le_refl _, fun x hx => absurd hx not_mem_nil⟩
  | cons y ys ih =>
    refine ⟨le_max_of_le_right ih.1, fun x hx => ?_⟩
    rcases mem_cons.mp hx with rfl | hx
    · exact le_max_left _ _
    · exact le_max_of_le_right (ih.2 x hx)

theorem fresh_le_mostFresh (hq : Resting q) {h : Nat} {o : QueuedOrder}
    (ho : q.pool.slots h = some o) (hplaced : o.placed ≤ ts) :
    fresh cross o ≤ mostFresh cross ts q o.instrument o.side := by
  have hget : q.get h = o := get_of_slot ho
  refine (le_foldr_max _).2 _ (mem_map.mpr ⟨h, mem_filter.mpr ⟨hq.listed h o ho, ?_⟩, ?_⟩)
  · rw [hget]
    exact decide_eq_true ⟨rfl, hplaced⟩
  · rw [hget]

/-- What an order gets of what is new to it and not used up. -/
def freshShare (cross : Side → Price → Qty) (o : QueuedOrder) (used : Qty) : Qty :=
  max 0 (min (fresh cross o - used) o.leaves)

theorem crossTurn_spec (used : Side → Qty) : (crossTurn cross o used).2 =
      (freshShare cross o (used o.side),
        Function.update used o.side (used o.side + freshShare cross o (used o.side))) := by
  by_cases hnone : fresh cross o ≤ used o.side ∨ ¬ 0 < min (fresh cross o - used o.side) o.leaves
  · have hmin : min (fresh cross o - used o.side) o.leaves ≤ 0 := by
      rcases hnone with hseen | hfill
      · exact (min_le_left _ _).trans (sub_nonpos.mpr hseen)
      · exact not_lt.mp hfill
    have hzero : freshShare cross o (used o.side) = 0 := max_eq_left hmin
    rw [hzero, add_zero, Function.update_eq_self]
    exact congrArg Prod.snd (if_pos hnone)
  · have hfill : 0 < min (fresh cross o - used o.side) o.leaves :=
      not_not.mp fun hnot => hnone (Or.inr hnot)
    have hshare : freshShare cross o (used o.side) = min (fresh cross o - used o.side) o.leaves :=
      max_eq_right hfill.le
    rw [hshare]
    exact congrArg Prod.snd (if_neg hnone)

theorem crossTurn_share (used : Side → Qty) :
    (crossTurn cross o used).2.1 = freshShare cross o (used o.side) :=
  congrArg Prod.fst (crossTurn_spec o used)

theorem crossTurn_used (used : Side → Qty) (side : Side) : (crossTurn cross o used).2.2 side =
      if side = o.side then used o.side + freshShare cross o (used o.side) else used side := by
  rw [congrArg Prod.snd (crossTurn_spec o used)]
  exact Function.update_apply _ _ _ _

theorem freshShare_within {o : QueuedOrder} {used most : Qty} (hused : used ≤ most)
    (hfresh : fresh cross o ≤ most) : used + freshShare cross o used ≤ most := by
  have hle : freshShare cross o used ≤ most - used :=
    max_le (sub_nonneg.mpr hused) ((min_le_left _ _).trans (sub_le_sub_right hfresh used))
  exact le_sub_iff_add_le'.mp hle

theorem crossTurn_onward (hq : Resting q) {h : Nat} {o : QueuedOrder}
    (ho : q.pool.slots h = some o) (used : Side → Qty) :
    Onward o (settled (crossTurn cross o used)) := by
  unfold crossTurn
  simp only
  split_ifs with hnone
  · exact settled_onward (hq.cum h o ho) (hq.leaves_nonneg ho) ⟨rfl, rfl⟩
      ⟨hq.ahead h o ho, le_refl _⟩
  · exact settled_onward (hq.cum h o ho) (min_le_right _ _) ⟨rfl, rfl⟩ ⟨le_refl _, hq.ahead h o ho⟩

/-- What the better orders used stays within the most there is. -/
def usedWithin (cross : Side → Price → Qty) (ts : Timestamp) (q : QueuePositionModel)
    (inst : InstrumentId) (used : Side → Qty) : Prop :=
  ∀ side, used side ≤ mostFresh cross ts q inst side

theorem crossRules (hq : Resting q) (inst : InstrumentId) :
    Rules q inst ts (crossTakes cross ts) (crossWrites cross ts) (crossTurn cross)
      (usedWithin cross ts q inst) (fun o used => fresh cross o ≤ used o.side)
      (reachedSooner cross) where
  writes h o ho := by
    unfold crossWrites
    split_ifs with hlater hnew
    · exact ⟨rfl, ⟨le_refl _, (hq.cum h o ho).2⟩, ⟨hq.ahead h o ho, le_refl _⟩⟩
    · exact hq.onward_self ho
    · exact ⟨rfl, ⟨le_refl _, (hq.cum h o ho).2⟩, ⟨hq.ahead h o ho, le_refl _⟩⟩
  leaves o htakes := by
    obtain ⟨hplaced, hnew⟩ := of_decide_eq_true htakes
    exact (if_neg (not_lt.mpr hplaced)).trans (if_pos hnew)
  keeps h o ht used hused := by
    refine ⟨fun side => ?_, crossTurn_onward hq ht.slot used⟩
    rw [crossTurn_used]
    split_ifs with hside
    · have hfresh : fresh cross o ≤ mostFresh cross ts q o.instrument o.side :=
        fresh_le_mostFresh hq ht.slot (of_decide_eq_true ht.takes).1
      rw [ht.instrument] at hfresh
      rw [hside]
      exact freshShare_within (hused _) hfresh
    · exact hused side
  ends h o ht used hused := by
    rw [crossTurn_share, crossTurn_used, if_pos rfl]
    rcases (hq.leaves_nonneg ht.slot).lt_or_eq with hwants | hnone
    · refine Or.inr ?_
      rcases le_or_gt o.leaves (fresh cross o - used o.side) with hall | hshort
      · have hshare : freshShare cross o (used o.side) = o.leaves := by
          unfold freshShare
          rw [min_eq_right hall, max_eq_right hwants.le]
        exact Or.inl ⟨hshare.symm ▸ hwants, hshare⟩
      · refine Or.inr (sub_le_iff_le_add'.mp ?_)
        unfold freshShare
        rw [min_eq_left hshort.le]
        exact le_max_right _ _
    · exact Or.inl hnone.symm
  stays h o ht a used hused hbars := by
    rw [crossTurn_used]
    split_ifs with hside
    · rw [← hside]
      exact hbars.trans (le_add_of_nonneg_right (le_max_left _ _))
    · exact hbars
  blocks h o ht a used hused hprior hbars := by
    obtain ⟨⟨hside, -⟩, hfresh⟩ := hprior
    rw [crossTurn_share]
    have hseen : fresh cross o ≤ used o.side := hfresh.trans (hside ▸ hbars)
    exact not_lt.mpr (max_le (le_refl _) ((min_le_left _ _).trans (sub_nonpos.mpr hseen)))
  covers a o htakes hplaced hprior := by
    have hnew : 0 < fresh cross o := sub_pos.mpr (of_decide_eq_true htakes).2
    exact decide_eq_true ⟨hplaced, sub_pos.mp (hnew.trans_le hprior.2)⟩
  irrefl o hprior := not_betterPriced_self o hprior.1

end View

/-! ## The three prints -/

section Prints

variable {f : OnFill σ}
variable (inst : InstrumentId)

theorem onTrade_eq (px : Price) (qty : Qty) (aggressor : Side) (ts : Timestamp) (s : σ) :
    ∃ hs, hs.Perm (q.takers inst (tradeTakes aggressor ts)) ∧
      (hs.Pairwise fun h k =>
        ¬ betterPriced ((q.updateEach inst (tradeWrites px qty aggressor ts)).get k)
          ((q.updateEach inst (tradeWrites px qty aggressor ts)).get h)) ∧
      onTrade f inst px qty aggressor ts (q, s) =
        fillEach f (tradeTurn px aggressor) hs qty
          (q.updateEach inst (tradeWrites px qty aggressor ts), s) := by
  refine ⟨_, mergeSort_perm _ _, ?_, tradeFills_eq f px aggressor _ qty _⟩
  refine sorted_takers (fun h => toLex (-goodness aggressor.opposite
        ((q.updateEach inst (tradeWrites px qty aggressor ts)).get h).price,
      toLex (((q.updateEach inst (tradeWrites px qty aggressor ts)).get h).ahead, h)))
    (fun h k => price_then _ ?_) (fun o htakes => ?_) (fun h k htakes hprior => ?_)
  · exact number_then decide_eq_true_iff
  · exact if_neg fun hview => absurd hview.1 (not_lt.mpr (of_decide_eq_true htakes).1)
  rw [toLex_lt_toLex]
  refine Or.inl (neg_lt_neg_iff.mpr ?_)
  rw [← (of_decide_eq_true htakes).2]
  exact (better_iff _ _ _).mp hprior.2

/-- A print's fills: no more than there is, orders that go on, and nobody out of turn. -/
theorem trade_fills (hf : Owner f) (hq : Resting q) (s : σ) (inst : InstrumentId) (px : Price)
    {qty : Qty} (hqty : 0 ≤ qty) (aggressor : Side) (ts : Timestamp) :
    filled (onTrade (logged f) inst px qty aggressor ts (q, (s, []))).2.2 ≤ qty ∧
      Kept q (onTrade (logged f) inst px qty aggressor ts (q, (s, []))).1 ∧
      InTurn q inst ts betterPriced
        (onTrade (logged f) inst px qty aggressor ts (q, (s, []))).2.2 := by
  have hrules : Rules q inst ts (tradeTakes aggressor ts) (tradeWrites px qty aggressor ts)
      (tradeTurn px aggressor) (fun left => 0 ≤ left) (tradeBars px aggressor) betterPriced :=
    tradeRules hq inst hqty
  obtain ⟨hs, hperm, hsorted, hrun⟩ := onTrade_eq (f := logged f) (q := q) inst px qty aggressor
    ts (s, [])
  rw [hrun]
  refine ⟨?_, (round_spec hf hq hrules hperm hqty s).2,
    round_inTurn hf hq hrules hperm hsorted hqty s⟩
  refine round_filled_all hf hq hrules hperm hqty s id (fun _ hleft => hleft)
    fun h o ht left hleft => ?_
  rw [tradeTurn_rest]
  split_ifs with hpos
  · exact le_of_eq (sub_add_cancel _ _)
  · exact le_of_eq (add_zero _)

theorem onL3Execute_eq (side : Side) (px execPx : Price) (qty : Qty)
    (prio : Nat) (ts : Timestamp) (s : σ) :
    ∃ hs, hs.Perm (q.takers inst (l3Takes side px execPx prio ts)) ∧
      (hs.Pairwise fun h k =>
        ¬ rankedSooner ((q.updateEach inst (l3Writes side px execPx qty prio)).get k)
          ((q.updateEach inst (l3Writes side px execPx qty prio)).get h)) ∧
      onL3Execute f inst side px execPx qty prio ts (q, s) =
        fillEach f l3Turn hs qty (q.updateEach inst (l3Writes side px execPx qty prio), s) := by
  refine ⟨_, mergeSort_perm _ _, ?_, l3Fills_eq f _ qty _⟩
  refine sorted_takers (fun h => toLex
      (-goodness side ((q.updateEach inst (l3Writes side px execPx qty prio)).get h).price,
        ((q.updateEach inst (l3Writes side px execPx qty prio)).get h).prio))
    (fun h k => price_then _ decide_eq_true_iff) (fun o htakes => ?_) (fun h k htakes hprior => ?_)
  · have hfills := (of_decide_eq_true htakes).2.1
    exact if_neg fun hahead => absurd (hfills.symm.trans hahead.2) (by decide)
  have hside := (of_decide_eq_true htakes).1
  rw [toLex_lt_toLex]
  rcases hprior.2 with hbetter | ⟨hprice, hplace⟩
  · rw [better_iff, hside] at hbetter
    exact Or.inl (neg_lt_neg_iff.mpr hbetter)
  · exact Or.inr ⟨congrArg (-goodness side) hprice, hplace⟩

theorem onCross_eq (ts : Timestamp) (cross : Side → Price → Qty) (s : σ) :
    ∃ hs, hs.Perm (q.takers inst (crossTakes cross ts)) ∧
      (hs.Pairwise fun h k =>
        ¬ reachedSooner cross ((q.updateEach inst (crossWrites cross ts)).get k)
          ((q.updateEach inst (crossWrites cross ts)).get h)) ∧
      onCross f inst ts cross (q, s) =
        fillEach f (crossTurn cross) hs (fun _ => 0)
          (q.updateEach inst (crossWrites cross ts), s) := by
  refine ⟨_, mergeSort_perm _ _, ?_, crossFills_eq f cross _ _ _⟩
  refine sorted_takers (fun h => toLex
      (((q.updateEach inst (crossWrites cross ts)).get h).side.code, toLex
        (-goodness ((q.updateEach inst (crossWrites cross ts)).get h).side
          ((q.updateEach inst (crossWrites cross ts)).get h).price, h)))
    (fun h k => ?_) (fun o htakes => ?_) (fun h k htakes hprior => ?_)
  · exact side_then decide_eq_true_iff
  · obtain ⟨hplaced, hnew⟩ := of_decide_eq_true htakes
    exact (if_neg (not_lt.mpr hplaced)).trans (if_pos hnew)
  obtain ⟨⟨hside, hbetter⟩, -⟩ := hprior
  rw [toLex_lt_toLex, toLex_lt_toLex]
  refine Or.inr ⟨congrArg Side.code hside, Or.inl ?_⟩
  rw [hside]
  exact neg_lt_neg_iff.mpr ((better_iff _ _ _).mp hbetter)

theorem l3_fills (hf : Owner f) (hq : Resting q) (s : σ) (inst : InstrumentId) (side : Side)
    (px execPx : Price) {qty : Qty} (hqty : 0 ≤ qty) (prio : Nat) (ts : Timestamp) :
    filled (onL3Execute (logged f) inst side px execPx qty prio ts (q, (s, []))).2.2 ≤ qty ∧
      Kept q (onL3Execute (logged f) inst side px execPx qty prio ts (q, (s, []))).1 ∧
      InTurn q inst ts rankedSooner
        (onL3Execute (logged f) inst side px execPx qty prio ts (q, (s, []))).2.2 := by
  have hrules : Rules q inst ts (l3Takes side px execPx prio ts)
      (l3Writes side px execPx qty prio) l3Turn (fun left => 0 ≤ left) (fun _ left => left ≤ 0)
      rankedSooner := l3Rules hq inst hqty
  obtain ⟨hs, hperm, hsorted, hrun⟩ := onL3Execute_eq (f := logged f) (q := q) inst side px execPx
    qty prio ts (s, [])
  rw [hrun]
  refine ⟨?_, (round_spec hf hq hrules hperm hqty s).2,
    round_inTurn hf hq hrules hperm hsorted hqty s⟩
  refine round_filled_all hf hq hrules hperm hqty s id (fun _ hleft => hleft)
    fun h o ht left hleft => ?_
  obtain ⟨hfill, hrest⟩ := l3Turn_spec hleft (hq.leaves_nonneg ht.slot)
  rw [hfill, hrest]
  split_ifs with hpos
  · exact le_of_eq (sub_add_cancel _ _)
  · rw [add_zero]
    exact sub_le_self _ (le_min hleft (hq.leaves_nonneg ht.slot))

theorem cross_fills (hf : Owner f) (hq : Resting q) (s : σ) (inst : InstrumentId) (ts : Timestamp)
    (cross : Side → Price → Qty) :
    (∀ side, filledOn q side (onCross (logged f) inst ts cross (q, (s, []))).2.2 ≤
        mostFresh cross ts q inst side) ∧
      Kept q (onCross (logged f) inst ts cross (q, (s, []))).1 ∧
      InTurn q inst ts (reachedSooner cross)
        (onCross (logged f) inst ts cross (q, (s, []))).2.2 := by
  have hrules : Rules q inst ts (crossTakes cross ts) (crossWrites cross ts) (crossTurn cross)
      (usedWithin cross ts q inst) (fun o used => fresh cross o ≤ used o.side)
      (reachedSooner cross) := crossRules hq inst
  obtain ⟨hs, hperm, hsorted, hrun⟩ := onCross_eq (f := logged f) (q := q) inst ts cross (s, [])
  have hnone : usedWithin cross ts q inst fun _ => 0 := fun side => (le_foldr_max _).1
  rw [hrun]
  refine ⟨fun side => ?_, (round_spec hf hq hrules hperm hnone s).2,
    round_inTurn hf hq hrules hperm hsorted hnone s⟩
  refine le_of_le_of_eq (round_filled hf hq hrules hperm hnone s
    (fun o => decide (o.side = side)) (fun used => mostFresh cross ts q inst side - used side)
    (fun used hused => sub_nonneg.mpr (hused side)) fun h o ht used hused => ?_) (sub_zero _)
  rw [crossTurn_share, crossTurn_used]
  have hshare : ∀ u, (0 : Int) ≤ freshShare cross o u := fun _ => le_max_left _ _
  by_cases hside : o.side = side
  · rw [if_pos hside.symm]
    have hgot := hshare (used o.side)
    rw [hside] at hgot ⊢
    split_ifs <;> omega
  · rw [if_neg (Ne.symm hside), if_neg fun hcounts => hside (of_decide_eq_true hcounts.1), add_zero]

/-- A print is shared out once: the fills of a trade and of an execution come to no more than its
quantity, those of a view to no more than a side's largest new crossing quantity; the orders go on
with `cum_qty` within `qty` and no more ahead of them; and nobody is filled out of turn. -/
theorem prints_conserved (hf : Owner f) (hq : Resting q) (s : σ) (inst : InstrumentId)
    (ts : Timestamp) :
    (∀ (px : Price) (qty : Qty) (aggressor : Side), 0 ≤ qty →
      filled (onTrade (logged f) inst px qty aggressor ts (q, (s, []))).2.2 ≤ qty ∧
        Kept q (onTrade (logged f) inst px qty aggressor ts (q, (s, []))).1 ∧
        InTurn q inst ts betterPriced
          (onTrade (logged f) inst px qty aggressor ts (q, (s, []))).2.2) ∧
    (∀ (side : Side) (px execPx : Price) (qty : Qty) (prio : Nat), 0 ≤ qty →
      filled (onL3Execute (logged f) inst side px execPx qty prio ts (q, (s, []))).2.2 ≤ qty ∧
        Kept q (onL3Execute (logged f) inst side px execPx qty prio ts (q, (s, []))).1 ∧
        InTurn q inst ts rankedSooner
          (onL3Execute (logged f) inst side px execPx qty prio ts (q, (s, []))).2.2) ∧
    ∀ cross : Side → Price → Qty,
      (∀ side, filledOn q side (onCross (logged f) inst ts cross (q, (s, []))).2.2 ≤
          mostFresh cross ts q inst side) ∧
        Kept q (onCross (logged f) inst ts cross (q, (s, []))).1 ∧
        InTurn q inst ts (reachedSooner cross)
          (onCross (logged f) inst ts cross (q, (s, []))).2.2 :=
  ⟨fun px _ aggressor hqty => trade_fills hf hq s inst px hqty aggressor ts,
    fun side px execPx _ prio hqty => l3_fills hf hq s inst side px execPx hqty prio ts,
    cross_fills hf hq s inst ts⟩

end Prints

/-! ## An order that took the liquidity before -/

/-- An owner that leaves the orders. -/
def leaveAll : OnFill Unit := fun _ _ _ _ st => st

theorem leaveAll_owner : Owner leaveAll := ⟨fun _ _ _ _ _ => Or.inl rfl, fun _ _ _ _ _ _ _ => rfl⟩

/-- A bid of five. -/
def bidOfFive (id : Nat) (px : Price) (crossed : Qty) : QueuedOrder :=
  { clOrdId := ⟨id⟩
    orderId := id
    price := px
    qty := 5
    placed := 5
    view := 5
    crossed := crossed
    instrument := ⟨0⟩ }

/-- Bids of five at 101 and at 100. -/
def placedBids : Option QueuePositionModel :=
  ((create 10000).place ⟨1⟩ 1 ⟨0⟩ .buy 101 5 0 5 5).bind fun r =>
    (r.2.place ⟨2⟩ 2 ⟨0⟩ .buy 100 5 0 5 5).map Prod.snd

/-- The same after a view from before them that showed ten offered at 101. -/
def seenBids : Option QueuePositionModel := placedBids.map fun q => q.put 0 (bidOfFive 1 101 10)

theorem placedBids_resting {q : QueuePositionModel} (h : placedBids = some q) : Resting q := by
  obtain ⟨⟨h₁, q₁⟩, hfirst, hrest⟩ := Option.bind_eq_some_iff.mp h
  obtain ⟨⟨h₂, q₂⟩, hsecond, rfl⟩ := Option.map_eq_some_iff.mp hrest
  exact ((resting_create 10000).place (by decide) (by decide) hfirst).place (by decide)
    (by decide) hsecond

theorem placedBids_slot : placedBids.map (fun q => q.pool.slots 0) =
    some (some (bidOfFive 1 101 0)) := by decide +kernel

theorem seenBids_resting {q : QueuePositionModel} (h : seenBids = some q) : Resting q := by
  obtain ⟨q₀, hplaced, rfl⟩ := Option.map_eq_some_iff.mp h
  have hslot := placedBids_slot
  rw [hplaced] at hslot
  exact (placedBids_resting hplaced).put (Option.some.inj hslot) rfl (by decide) (by decide)

/-- A view of ten offered at 100 fills the worse bid, and the better one is not filled up. -/
theorem seenBids_view : seenBids.map (fun q => (q.takers ⟨0⟩ (crossTakes (fun _ _ => 10) 7),
      (fillEach (logged leaveAll) (crossTurn fun _ _ => 10) [1] (fun _ => 0)
        (q.updateEach ⟨0⟩ (crossWrites (fun _ _ => 10) 7), ((), []))).2.2,
      q.pool.slots 0, q.pool.slots 1)) =
    some ([1], [(1, 5)], some (bidOfFive 1 101 10), some (bidOfFive 2 100 0)) := by
  decide +kernel

theorem prints_conserved_bids : ∃ q, seenBids = some q ∧
    filled (onTrade (logged leaveAll) ⟨0⟩ 99 7 .sell 7 (q, ((), []))).2.2 ≤ 7 ∧
    InTurn q ⟨0⟩ 7 (reachedSooner fun _ _ => 10)
      (onCross (logged leaveAll) ⟨0⟩ 7 (fun _ _ => 10) (q, ((), []))).2.2 := by
  obtain ⟨q, hq, -⟩ := Option.map_eq_some_iff.mp seenBids_view
  have hprints := prints_conserved leaveAll_owner (seenBids_resting hq) () ⟨0⟩ 7
  exact ⟨q, hq, (hprints.1 99 7 .sell (by decide)).1, (hprints.2.2 fun _ _ => 10).2.2⟩

/-- An order that took liquidity before is not filled for it again, also when a worse one is. -/
theorem not_prints_conserved :
    ¬ ∀ (f : OnFill Unit) (q : QueuePositionModel) (inst : InstrumentId) (ts : Timestamp)
        (cross : Side → Price → Qty), Owner f → Resting q →
      InTurn q inst ts betterPriced (onCross (logged f) inst ts cross (q, ((), []))).2.2 := by
  intro hclaim
  have hview := seenBids_view
  obtain ⟨q, hq, hfacts⟩ := Option.map_eq_some_iff.mp hview
  obtain ⟨htakers, hfacts⟩ := Prod.mk.inj hfacts
  obtain ⟨hlog, hfacts⟩ := Prod.mk.inj hfacts
  obtain ⟨hbetter, hworse⟩ := Prod.mk.inj hfacts
  have hturn := hclaim leaveAll q ⟨0⟩ 7 (fun _ _ => 10) leaveAll_owner (seenBids_resting hq)
  obtain ⟨hs, hperm, -, hrun⟩ := @onCross_eq _ q (logged leaveAll) ⟨0⟩ 7 (fun _ _ => 10) ((), [])
  rw [htakers, perm_singleton] at hperm
  rw [hrun, hperm, hlog] at hturn
  obtain ⟨b, hb, hpriority⟩ := hturn [] 1 5 [] rfl
  obtain rfl := Option.some.inj (hworse.symm.trans hb)
  have hprior : betterPriced (bidOfFive 1 101 10) (bidOfFive 2 100 0) := ⟨rfl, by decide⟩
  rcases hpriority 0 (bidOfFive 1 101 10) hbetter rfl (by decide) hprior with hnone | hin
  · exact absurd hnone (by decide)
  · exact absurd hin not_mem_nil

end FastMM.QueuePositionModel
