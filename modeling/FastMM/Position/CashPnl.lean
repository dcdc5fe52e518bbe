/-
  Position/CashPnl.lean --- average-cost PnL is cash PnL up to bounded rounding.

  Source: `include/fastmm/core/position.hpp` (`on_fill`, `correct_fill`, `mark`,
  `arithmetic_avg`, `revalue`).

  The tracker rounds an average price at every addition and reuses it in every
  later close.  Against the cash PnL of the same calls the difference is a
  potential: realized PnL plus the position's value at its average.  A rounded
  average moves the potential once, when it is rounded, and a later close gives
  up as much value as it realizes, so each call adds one rounding and no more.
-/
import FastMM.Position.Tracker
import Mathlib.Algebra.Order.Field.Basic
import Mathlib.Algebra.Order.Field.Rat
import Mathlib.Algebra.Order.Ring.Abs
import Mathlib.Data.Rat.Cast.Order
import Mathlib.Tactic.FieldSimp
import Mathlib.Tactic.Linarith
import Mathlib.Tactic.Ring
set_option autoImplicit false

namespace FastMM

open Function

/-! ## Truncating division -/

/-- What a truncating division loses is less than the divisor. -/
theorem abs_mul_tdiv_sub_lt (a : Int) {b : Int} (hb : b ≠ 0) : |b * a.tdiv b - a| < |b| := by
  have hdiv : b * a.tdiv b - a = -(a.tmod b) := by
    have hsum := Int.mul_tdiv_add_tmod a b
    omega
  rw [hdiv, abs_neg, Int.abs_eq_natAbs, Int.natAbs_tmod, Int.abs_eq_natAbs]
  exact_mod_cast Nat.mod_lt _ (Int.natAbs_pos.mpr hb)

theorem abs_mul_tdiv_sub_le {a b : Int} (hb : b = 0 → a = 0) : |b * a.tdiv b - a| ≤ |b| := by
  by_cases h : b = 0
  · rw [h, hb h]
    decide
  · exact (abs_mul_tdiv_sub_lt a h).le

/-- A product of two fixed-point values is within one raw unit of the exact one. -/
theorem abs_tdiv_sub_lt_one (a : Int) :
    |((a.tdiv kFixedScale : Int) : ℚ) - (a : ℚ) / kFixedScale| < 1 := by
  have hscale : (0 : ℚ) < (kFixedScale : Int) := by decide
  have hlt := abs_mul_tdiv_sub_lt a (b := kFixedScale) (by decide)
  rw [abs_of_pos (show (0 : Int) < kFixedScale by decide)] at hlt
  have hcast : |(kFixedScale : ℚ) * (a.tdiv kFixedScale : Int) - a| < kFixedScale := by
    exact_mod_cast hlt
  have hsplit : ((a.tdiv kFixedScale : Int) : ℚ) - (a : ℚ) / kFixedScale =
      ((kFixedScale : ℚ) * (a.tdiv kFixedScale : Int) - a) / kFixedScale := by
    field_simp
  rw [hsplit, abs_div, abs_of_pos hscale, div_lt_one hscale]
  exact hcast

namespace PositionTracker

/-! ## Calls -/

variable (t : PositionTracker)

/-- One call on the tracker that books a fill or corrects one. -/
inductive Booking where
  | fill (side : Side) (px : Price) (qty : Qty) (fee : Notional)
  | correct (side : Side) (estPx px : Price) (qty : Qty) (fee : Notional)
  deriving DecidableEq, Repr

/-- A quantity with the sign of its side: what `on_fill` adds to the position. -/
def signedQty (side : Side) (qty : Qty) : Int := if side = .buy then qty else -qty

/-- The call on instrument `id`. -/
def call (id : Fin kMaxInstruments) (inst : Instrument) :
    Booking → PositionTracker
  | .fill side px qty fee => t.onFill id side px qty fee inst
  | .correct side estPx px qty fee => t.correctFill id side estPx px qty fee inst

/-- The calls in order, each on the instrument it names. -/
def calls (insts : Fin kMaxInstruments → Instrument) (t : PositionTracker) :
    List (Fin kMaxInstruments × Booking) → PositionTracker
  | [] => t
  | c :: cs => calls insts (t.call c.1 (insts c.1) c.2) cs

/-- The branch of `on_fill` that opens a position or adds to it. -/
def opens (cur f : Int) : Bool := decide (cur = 0 ∨ decide (0 < cur) = decide (0 < f))

/-! ## The exact PnL -/

/-- What one call is worth at `m`, exactly and in raw units: a fill's signed quantity
times what `m` is above its price; a correction takes its quantity from the
estimated price to the true one. -/
def Booking.worth (m : Price) : Booking → ℚ
  | .fill side px qty _ => ((signedQty side qty * (m - px) : Int) : ℚ) / kFixedScale
  | .correct side estPx px qty _ =>
    ((signedQty side qty * (m - px) : Int) : ℚ) / kFixedScale -
      ((signedQty side qty * (m - estPx) : Int) : ℚ) / kFixedScale

/-- The exact PnL of the calls on one instrument. -/
def cashPnl (id : Fin kMaxInstruments) (m : Price) :
    List (Fin kMaxInstruments × Booking) → ℚ
  | [] => 0
  | c :: cs => (if c.1 = id then c.2.worth m else 0) + cashPnl id m cs

/-- How far one call may take the PnL from the exact one: an opening or adding fill
by the position after it over the scale, any other call by one raw unit. -/
def slack (id : Fin kMaxInstruments) (inst : Instrument) :
    Booking → ℚ
  | .fill side px qty fee =>
    if opens (t.pos id).qty (signedQty side qty) then
      ((|((t.onFill id side px qty fee inst).pos id).qty| : Int) : ℚ) / kFixedScale
    else 1
  | .correct .. => 1

/-- The sum of what the calls on one instrument may lose. -/
def slacks (insts : Fin kMaxInstruments → Instrument) (id : Fin kMaxInstruments) :
    PositionTracker → List (Fin kMaxInstruments × Booking) → ℚ
  | _, [] => 0
  | t, c :: cs =>
    (if c.1 = id then t.slack id (insts id) c.2 else 0) +
      slacks insts id (t.call c.1 (insts c.1) c.2) cs

/-! ## What a call leaves of a position -/

/-- The parts of a position its cash value is made of. -/
structure Cash where
  qty : Qty
  avgPx : Price
  realized : Notional

/-- The cash parts of the position of instrument `i`. -/
def cash (i : Fin kMaxInstruments) : Cash :=
  ⟨(t.pos i).qty, (t.pos i).avgPx, (t.pos i).realized⟩

section Parts

variable (t : PositionTracker) (id i : Fin kMaxInstruments)
variable (p : Position)

theorem setPos_pos : (t.setPos id p).pos = update t.pos id p := rfl

/-- Writing the other parts of a position leaves the cash parts. -/
theorem cash_setPos {p : Position} (hq : p.qty = (t.pos id).qty)
    (ha : p.avgPx = (t.pos id).avgPx) (hr : p.realized = (t.pos id).realized) :
    (t.setPos id p).cash i = t.cash i := by
  unfold cash
  rw [setPos_pos]
  by_cases hi : i = id
  · rw [hi, update_self, hq, ha, hr]
  · rw [update_of_ne hi]

theorem cash_setPos_self : (t.setPos id p).cash id = ⟨p.qty, p.avgPx, p.realized⟩ := by
  unfold cash
  rw [setPos_pos, update_self]

theorem cash_setPos_of_ne (hi : i ≠ id) : (t.setPos id p).cash i = t.cash i := by
  unfold cash
  rw [setPos_pos, update_of_ne hi]

theorem cash_congr {s : PositionTracker} (h : s.pos = t.pos) : s.cash i = t.cash i := by
  unfold cash
  rw [h]

theorem cash_setUnrealized (u : Notional) : (t.setUnrealized id u).cash i = t.cash i := by
  have hpos : (({ t with unrealizedTotal := t.unrealizedTotal + (u - (t.pos id).unrealized) } :
      PositionTracker).book id .unrealized (u - (t.pos id).unrealized)).pos = t.pos :=
    book_pos _ _ _ _
  refine (cash_setPos _ id i ?_ ?_ ?_).trans (cash_congr t i hpos)
  all_goals rw [hpos]

theorem cash_addFees (fee : Notional) : (t.addFees id fee).cash i = t.cash i := by
  refine (cash_congr _ i (book_pos _ _ _ _)).trans ?_
  exact cash_setPos t id i rfl rfl rfl

theorem cash_countFill (qty : Qty) : (t.countFill id qty).cash i = t.cash i :=
  cash_setPos t id i rfl rfl rfl

theorem cash_mark (mid : Price) (inst : Instrument) : (t.mark id mid inst).cash i = t.cash i := by
  refine (cash_congr _ i (setExposure_pos _ _ _)).trans ?_
  refine (cash_setUnrealized _ _ i _).trans ?_
  exact cash_setPos t id i rfl rfl rfl

theorem cash_valueAgain (px : Price) (inst : Instrument) :
    (t.valueAgain id px inst).cash i = t.cash i := by
  unfold valueAgain
  split
  · exact cash_mark t id i _ inst
  · exact cash_congr t i (setExposure_pos _ _ _)

theorem cash_addRealized_self (r : Notional) :
    (t.addRealized id r).cash id = ⟨(t.pos id).qty, (t.pos id).avgPx, (t.pos id).realized + r⟩ := by
  exact (cash_congr _ id (book_pos _ _ _ _)).trans (cash_setPos_self t id _)

theorem cash_addRealized_of_ne (r : Notional) (hi : i ≠ id) :
    (t.addRealized id r).cash i = t.cash i := by
  exact (cash_congr _ i (book_pos _ _ _ _)).trans (cash_setPos_of_ne t id i _ hi)

end Parts

/-- The tracker `on_fill` works on once the fill's fee and count are booked. -/
theorem cash_counted (t : PositionTracker) (id i : Fin kMaxInstruments) (fee : Notional)
    (qty : Qty) : ((t.bump.addFees id fee).countFill id qty).cash i = t.cash i := by
  rw [cash_countFill, cash_addFees]
  rfl

theorem onFill_eq (t : PositionTracker) (id : Fin kMaxInstruments) (side : Side) (px : Price)
    (qty : Qty) (fee : Notional) (inst : Instrument) :
    t.onFill id side px qty fee inst =
      (if opens (t.pos id).qty (signedQty side qty) = true then
        ((t.bump.addFees id fee).countFill id qty).addToPosition id (signedQty side qty) px inst
      else
        ((t.bump.addFees id fee).countFill id qty).takeFromPosition id (signedQty side qty) px
          inst).valueAgain id px inst := by
  unfold onFill opens
  simp only [decide_eq_true_eq]
  rfl

/-- A call on another instrument leaves the position. -/
theorem cash_call_of_ne (t : PositionTracker) {id i : Fin kMaxInstruments} (inst : Instrument)
    (b : Booking) (hi : i ≠ id) : (t.call id inst b).cash i = t.cash i := by
  cases b with
  | fill side px qty fee =>
    show (t.onFill id side px qty fee inst).cash i = t.cash i
    rw [onFill_eq, cash_valueAgain]
    split
    · exact (cash_setPos_of_ne _ id i _ hi).trans (cash_counted t id i fee qty)
    · refine (cash_setPos_of_ne _ id i _ hi).trans ?_
      rw [cash_addRealized_of_ne _ _ _ _ hi]
      exact cash_counted t id i fee qty
  | correct side estPx px qty fee =>
    unfold call correctFill
    rw [cash_addFees, cash_addRealized_of_ne _ _ _ _ hi]
    rfl

section Linear

variable {t : PositionTracker} {id : Fin kMaxInstruments} {inst : Instrument}

/-- The average and the quantity an opening or adding fill leaves. -/
theorem cash_addToPosition (hlinear : inst.inverse = false) (f : Int) (px : Price) :
    (t.addToPosition id f px inst).cash id =
      ⟨(t.pos id).qty + f, arithmeticAvg (t.pos id).qty (t.pos id).avgPx f px ((t.pos id).qty + f),
        (t.pos id).realized⟩ := by
  unfold addToPosition
  rw [cash_setPos_self]
  rw [hlinear]
  rfl

/-- The part of a position a closing fill takes, with the position's sign. -/
def closedPart (cur f : Int) : Int := if absRaw cur < absRaw f then cur else -f

theorem closed_mul_dir {cur f : Int} (h : opens cur f = false) :
    (if absRaw f < absRaw cur then absRaw f else absRaw cur) * (if 0 < cur then 1 else -1) =
      closedPart cur f := by
  have hside := of_decide_eq_false h
  unfold closedPart absRaw
  by_cases h1 : 0 < cur
  · by_cases h2 : 0 < f
    · simp [h1, h2] at hside
    · simp only [h1, if_true, mul_one]
      repeat' split
      all_goals omega
  · by_cases h2 : 0 < f
    · simp only [h1, if_false, mul_neg, mul_one]
      repeat' split
      all_goals omega
    · simp [h1, h2] at hside

/-- What a closing fill leaves: past zero the remainder opens at its price. -/
theorem cash_takeFromPosition (hlinear : inst.inverse = false)
    (hone : inst.contractMultiplier = kFixedScale) {f : Int} (px : Price)
    (h : opens (t.pos id).qty f = false) :
    (t.takeFromPosition id f px inst).cash id =
      ⟨(t.pos id).qty + f,
        if absRaw (t.pos id).qty < absRaw f then px
          else if (t.pos id).qty + f = 0 then 0 else (t.pos id).avgPx,
        (t.pos id).realized +
          ((px - (t.pos id).avgPx) * closedPart (t.pos id).qty f).tdiv kFixedScale⟩ := by
  have hqty : ((t.takeFromPosition id f px inst).pos id).qty = (t.pos id).qty + f := by
    rw [takeFromPosition_qty t id id px inst, if_pos rfl]
    exact fun hsame => of_decide_eq_false h (.inr hsame)
  have hcash : (t.takeFromPosition id f px inst).cash id =
      ⟨(t.pos id).qty + f, ((t.takeFromPosition id f px inst).pos id).avgPx,
        ((t.takeFromPosition id f px inst).pos id).realized⟩ := by
    unfold cash
    rw [hqty]
  rw [hcash]
  unfold takeFromPosition closedPnl
  dsimp only
  rw [hlinear, if_neg Bool.false_ne_true, scale, if_pos hone, mul_assoc _ _ (ite _ _ _),
    closed_mul_dir h, setPos_pos, update_self]
  have hadd := cash_addRealized_self t id
    (((px - (t.pos id).avgPx) * closedPart (t.pos id).qty f).tdiv kFixedScale)
  generalize t.addRealized id
    (((px - (t.pos id).avgPx) * closedPart (t.pos id).qty f).tdiv kFixedScale) = s at hadd ⊢
  unfold cash at hadd
  simp only [Cash.mk.injEq] at hadd
  obtain ⟨hq, ha, hr⟩ := hadd
  have hflips : (0 < absRaw f - if absRaw f < absRaw (t.pos id).qty then absRaw f
      else absRaw (t.pos id).qty) ↔ absRaw (t.pos id).qty < absRaw f := by
    split <;> omega
  unfold closedPosition
  by_cases hflip : absRaw (t.pos id).qty < absRaw f
  · rw [if_pos (hflips.mpr hflip), if_pos hflip]
    rw [hr]
  · rw [if_neg (mt hflips.mp hflip), if_neg hflip]
    rw [hr, hq, ha]

end Linear

/-! ## The potential -/

variable {cur avg f px realized : Int}
variable (m : Price)

/-- Realized PnL and the position's value at its average, exactly. -/
def Cash.value (c : Cash) : ℚ :=
  c.realized + ((c.qty * (m - c.avgPx) : Int) : ℚ) / kFixedScale

theorem scale_pos : (0 : ℚ) < (kFixedScale : Int) := by decide

/-- What truncation to the scale adds to a value, in either direction. -/
theorem abs_sub_tdiv_le_one (a : Int) :
    |(a : ℚ) / kFixedScale - ((a.tdiv kFixedScale : Int) : ℚ)| ≤ 1 := by
  rw [abs_sub_comm]
  exact (abs_tdiv_sub_lt_one a).le

/-- An added fill moves the potential from its worth by the rounding of the average. -/
theorem value_opens (h : opens cur f = true) :
    |Cash.value m ⟨cur + f, arithmeticAvg cur avg f px (cur + f), realized⟩ -
        Cash.value m ⟨cur, avg, realized⟩ - ((f * (m - px) : Int) : ℚ) / kFixedScale| ≤
      ((|cur + f| : Int) : ℚ) / kFixedScale := by
  have hzero : cur + f = 0 → cur * avg + f * px = 0 := by
    intro hsum
    have hside := of_decide_eq_true h
    have hcur : cur = 0 := by
      by_contra hne
      by_cases h1 : 0 < cur
      · have hf : ¬0 < f := by omega
        simp [hne, h1, hf] at hside
      · have hf : 0 < f := by omega
        simp [hne, h1, hf] at hside
    have hf : f = 0 := by omega
    rw [hcur, hf, zero_mul, zero_mul, add_zero]
  have hround := abs_mul_tdiv_sub_le hzero
  have hmoved : Cash.value m ⟨cur + f, arithmeticAvg cur avg f px (cur + f), realized⟩ -
      Cash.value m ⟨cur, avg, realized⟩ - ((f * (m - px) : Int) : ℚ) / kFixedScale =
        -(((cur + f) * (cur * avg + f * px).tdiv (cur + f) - (cur * avg + f * px) : Int) : ℚ) /
          kFixedScale := by
    unfold Cash.value arithmeticAvg
    push_cast
    ring
  rw [hmoved, abs_div, abs_neg, abs_of_pos scale_pos]
  apply div_le_div_of_nonneg_right _ scale_pos.le
  exact_mod_cast hround

/-- A closing fill moves it from its worth by the rounding of what it realizes. -/
theorem value_closes :
    |Cash.value m ⟨cur + f, if absRaw cur < absRaw f then px else if cur + f = 0 then 0 else avg,
          realized + ((px - avg) * closedPart cur f).tdiv kFixedScale⟩ -
        Cash.value m ⟨cur, avg, realized⟩ - ((f * (m - px) : Int) : ℚ) / kFixedScale| ≤ 1 := by
  refine le_trans (le_of_eq (congrArg abs ?_))
    (abs_tdiv_sub_lt_one ((px - avg) * closedPart cur f)).le
  unfold Cash.value closedPart
  by_cases hflip : absRaw cur < absRaw f
  · rw [if_pos hflip, if_pos hflip]
    push_cast
    ring
  rw [if_neg hflip, if_neg hflip]
  by_cases hflat : cur + f = 0
  · have hf : f = -cur := by omega
    rw [if_pos hflat, hf]
    push_cast
    ring
  · rw [if_neg hflat]
    push_cast
    ring

/-- One call keeps the potential within its slack of what the call is worth. -/
theorem value_call (t : PositionTracker) (id : Fin kMaxInstruments) {inst : Instrument}
    (hlinear : inst.inverse = false) (hone : inst.contractMultiplier = kFixedScale) (m : Price)
    (b : Booking) :
    |((t.call id inst b).cash id).value m - (t.cash id).value m - b.worth m| ≤
      t.slack id inst b := by
  cases b with
  | fill side px qty fee =>
    have hcounted := cash_counted t id id fee qty
    unfold cash at hcounted
    simp only [Cash.mk.injEq] at hcounted
    obtain ⟨hq, ha, hr⟩ := hcounted
    show |((t.onFill id side px qty fee inst).cash id).value m - _ - _| ≤ _
    unfold slack Booking.worth
    dsimp only
    rw [onFill_qty, if_pos rfl, onFill_eq, cash_valueAgain]
    by_cases h : opens (t.pos id).qty (signedQty side qty) = true
    · rw [if_pos h, if_pos h, cash_addToPosition hlinear, hq, ha, hr]
      exact value_opens m h
    have hclose := Bool.eq_false_iff.mpr h
    rw [if_neg h, if_neg h, cash_takeFromPosition hlinear hone px (by rw [hq]; exact hclose), hq,
      ha, hr]
    exact value_closes m
  | correct side estPx px qty fee =>
    show |((t.correctFill id side estPx px qty fee inst).cash id).value m - _ - _| ≤ 1
    unfold correctFill
    rw [cash_addFees, cash_addRealized_self, hlinear, if_neg Bool.false_ne_true, scale, if_pos hone]
    unfold mulRaw cash Cash.value Booking.worth signedQty bump
    dsimp only
    cases side with
    | buy =>
      rw [if_pos rfl, if_pos rfl]
      refine le_trans (le_of_eq (congrArg abs ?_)) (abs_sub_tdiv_le_one ((px - estPx) * qty))
      push_cast
      ring
    | sell =>
      rw [if_neg (by decide), if_neg (by decide)]
      refine le_trans (le_of_eq (congrArg abs ?_)) (abs_tdiv_sub_lt_one ((px - estPx) * qty)).le
      push_cast
      ring

/-- A run of calls keeps the potential within the sum of the slacks of its exact PnL. -/
theorem value_calls (insts : Fin kMaxInstruments → Instrument) {id : Fin kMaxInstruments}
    (hlinear : (insts id).inverse = false)
    (hone : (insts id).contractMultiplier = kFixedScale) (m : Price)
    (cs : List (Fin kMaxInstruments × Booking)) (t : PositionTracker) :
    |((calls insts t cs).cash id).value m - (t.cash id).value m - cashPnl id m cs| ≤
      slacks insts id t cs := by
  induction cs generalizing t with
  | nil =>
    unfold calls cashPnl slacks
    rw [sub_self, sub_zero, abs_zero]
  | cons c cs ih =>
    have hrest := ih (t.call c.1 (insts c.1) c.2)
    unfold calls cashPnl slacks
    split_ifs with hid
    · have hone := value_call t id hlinear hone m c.2
      rw [hid] at hrest ⊢
      rw [abs_le] at hrest hone ⊢
      constructor
      · linarith [hrest.1, hone.1]
      · linarith [hrest.2, hone.2]
    · rw [zero_add, zero_add]
      rw [cash_call_of_ne t (insts c.1) c.2 (Ne.symm hid)] at hrest
      exact hrest

/-- The mark values the position exactly but for one rounding. -/
theorem marked_near (t : PositionTracker) (id : Fin kMaxInstruments) {inst : Instrument}
    (hlinear : inst.inverse = false) (hone : inst.contractMultiplier = kFixedScale) {m : Price}
    (hm : 0 < m) :
    |((((t.mark id m inst).pos id).realized + ((t.mark id m inst).pos id).unrealized : Int) : ℚ) -
        (t.cash id).value m| < 1 := by
  have hrealized : ((t.mark id m inst).pos id).realized = (t.pos id).realized :=
    congrArg Cash.realized (cash_mark t id id m inst)
  have hunrealized : ((t.mark id m inst).pos id).unrealized =
      ((m - (t.pos id).avgPx) * (t.pos id).qty).tdiv kFixedScale := by
    unfold mark
    rw [setExposure_pos]
    unfold setUnrealized
    rw [setPos_pos, update_self, setPos_pos, update_self]
    unfold revalue
    by_cases hq : (t.pos id).qty = 0
    · rw [if_pos (.inl hq), hq, mul_zero, Int.zero_tdiv]
    · rw [if_neg (not_or.mpr ⟨hq, not_le.mpr hm⟩), hlinear, if_neg Bool.false_ne_true, scale,
        if_pos hone]
      rfl
  rw [hrealized, hunrealized]
  refine lt_of_le_of_lt (le_of_eq (congrArg abs ?_))
    (abs_tdiv_sub_lt_one ((m - (t.pos id).avgPx) * (t.pos id).qty))
  unfold cash Cash.value
  push_cast
  ring

/-- Average-cost PnL is the cash PnL of the same calls up to the roundings made. -/
theorem marked_cashPnl (insts : Fin kMaxInstruments → Instrument) {id : Fin kMaxInstruments}
    (hlinear : (insts id).inverse = false)
    (hone : (insts id).contractMultiplier = kFixedScale) {t : PositionTracker}
    (hfresh : t.pos id = {}) (cs : List (Fin kMaxInstruments × Booking)) {m : Price} (hm : 0 < m) :
    |((((calls insts t cs).mark id m (insts id)).pos id).realized : ℚ) +
          (((calls insts t cs).mark id m (insts id)).pos id).unrealized -
        cashPnl id m cs| <
      slacks insts id t cs + 1 := by
  have hstart : (t.cash id).value m = 0 := by
    unfold cash Cash.value
    rw [hfresh]
    simp
  have hcalls := value_calls insts hlinear hone m cs t
  have hmark := marked_near (calls insts t cs) id hlinear hone hm
  rw [hstart, sub_zero, abs_le] at hcalls
  rw [abs_lt] at hmark ⊢
  push_cast at hmark
  constructor
  · linarith [hmark.1, hcalls.1]
  · linarith [hmark.2, hcalls.2]

/-- An average that rounds, a flip through zero and a corrected price. -/
def flips : List (Fin kMaxInstruments × Booking) :=
  [(0, .fill .buy 10 3 0), (0, .fill .buy 11 2 0), (0, .fill .sell 12 9 1),
    (0, .correct .sell 12 13 4 0)]

theorem marked_cashPnl_flipped :
    |((((calls (fun _ => {}) {} flips).mark 0 9 {}).pos 0).realized : ℚ) +
          (((calls (fun _ => {}) {} flips).mark 0 9 {}).pos 0).unrealized - cashPnl 0 9 flips| <
      slacks (fun _ => {}) 0 {} flips + 1 :=
  marked_cashPnl (fun _ => {}) rfl rfl rfl flips (by decide)

end PositionTracker

end FastMM
