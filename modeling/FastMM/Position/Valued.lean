/-
  Position/Valued.lean --- what an open position is worth as its mark moves.

  Source: `revalue`, `mark` and `unrealized_at` of `include/fastmm/core/position.hpp`.

  A valuation truncates twice at most, and truncation keeps order, so a long is worth no less at a
  higher mark and a short no more.
-/
import FastMM.Position.CashPnl
import FastMM.Position.Totals
set_option autoImplicit false

namespace FastMM

open Function

/-! ## Truncated quotients -/

theorem tdiv_le_tdiv_of_le {x y d : Int} (hd : 0 < d) (h : x ≤ y) : x.tdiv d ≤ y.tdiv d := by
  rcases Int.le_total 0 x with hx | hx
  · rw [Int.tdiv_eq_ediv_of_nonneg hx, Int.tdiv_eq_ediv_of_nonneg (hx.trans h)]
    exact Int.ediv_le_ediv hd h
  have hneg : x.tdiv d = -((-x) / d) := by
    rw [← Int.tdiv_eq_ediv_of_nonneg (Int.neg_nonneg.mpr hx), Int.neg_tdiv, Int.neg_neg]
  rw [hneg]
  rcases Int.le_total 0 y with hy | hy
  · exact (Int.neg_nonpos_of_nonneg (Int.ediv_nonneg (Int.neg_nonneg.mpr hx) hd.le)).trans
      (Int.tdiv_nonneg hy hd.le)
  · rw [show y = -(-y) by rw [Int.neg_neg], Int.neg_tdiv,
      Int.tdiv_eq_ediv_of_nonneg (Int.neg_nonneg.mpr hy)]
    exact Int.neg_le_neg (Int.ediv_le_ediv hd (Int.neg_le_neg h))

/-- The same over two denominators. -/
theorem tdiv_le_tdiv_of_cross {x y d e : Int} (hd : 0 < d) (he : 0 < e) (h : x * e ≤ y * d) :
    x.tdiv d ≤ y.tdiv e := by
  have hx : (x * e).tdiv (d * e) = x.tdiv d := Int.mul_tdiv_mul_of_pos_left x d he
  have hy : (y * d).tdiv (d * e) = y.tdiv e := by
    rw [mul_comm d e]
    exact Int.mul_tdiv_mul_of_pos_left y e hd
  rw [← hx, ← hy]
  exact tdiv_le_tdiv_of_le (Int.mul_pos hd he) h

namespace PositionTracker

/-! ## Valuations -/

section Values

variable {inst : Instrument} {p : Position} {m m' : Price}

theorem mulRaw_mono {a a' b : Int} (hb : 0 ≤ b) (h : a ≤ a') : mulRaw a b ≤ mulRaw a' b :=
  tdiv_le_tdiv_of_le (by decide) (Int.mul_le_mul_of_nonneg_right h hb)

theorem mulRaw_anti {a a' b : Int} (hb : b ≤ 0) (h : a ≤ a') : mulRaw a' b ≤ mulRaw a b :=
  tdiv_le_tdiv_of_le (by decide) (Int.mul_le_mul_of_nonpos_right h hb)

theorem scale_mono {n n' : Notional} (hmult : 0 < inst.contractMultiplier) (h : n ≤ n') :
    scale n inst ≤ scale n' inst := by
  unfold scale
  split_ifs
  · exact h
  · exact mulRaw_mono hmult.le h

/-- What contracts make between two prices, the further the second price the more. -/
theorem inversePnl_mono {fromPx : Price} {qty : Qty} (hmult : 0 < inst.contractMultiplier)
    (hqty : 0 ≤ qty) (hm : 0 < m) (h : m ≤ m') :
    inst.inversePnl fromPx m qty ≤ inst.inversePnl fromPx m' qty := by
  unfold Instrument.inversePnl
  by_cases hfrom : 0 < fromPx
  · rw [if_pos ⟨hfrom, hm⟩, if_pos ⟨hfrom, hm.trans_le h⟩]
    refine tdiv_le_tdiv_of_cross (mul_pos hfrom hm) (mul_pos hfrom (hm.trans_le h)) ?_
    have hk : 0 ≤ qty * inst.contractMultiplier := mul_nonneg hqty hmult.le
    have hsq : 0 ≤ qty * inst.contractMultiplier * fromPx * fromPx :=
      mul_nonneg (mul_nonneg hk hfrom.le) hfrom.le
    nlinarith [mul_le_mul_of_nonneg_left h hsq]
  · rw [if_neg fun hboth => hfrom hboth.1, if_neg fun hboth => hfrom hboth.1]

theorem inversePnl_neg {fromPx : Price} (qty : Qty) :
    inst.inversePnl fromPx m (-qty) = -inst.inversePnl fromPx m qty := by
  unfold Instrument.inversePnl
  split_ifs
  · rw [neg_mul, neg_mul, Int.neg_tdiv]
  · rfl

theorem scale_neg (n : Notional) : scale (-n) inst = -scale n inst := by
  unfold scale mulRaw
  split_ifs
  · rfl
  · rw [neg_mul, Int.neg_tdiv]

/-- A position and its opposite are worth the opposite. -/
theorem revalue_neg (p : Position) (m : Price) (inst : Instrument) :
    revalue { p with qty := -p.qty } m inst = -revalue p m inst := by
  unfold revalue
  simp only [neg_eq_zero]
  split_ifs
  · rfl
  · exact inversePnl_neg p.qty
  · rw [← scale_neg]
    unfold mulRaw
    rw [mul_neg, Int.neg_tdiv]

/-- A long is worth no less at a higher mark. -/
theorem revalue_mono_of_long (hmult : 0 < inst.contractMultiplier) (hqty : 0 < p.qty) (hm : 0 < m)
    (h : m ≤ m') : revalue p m inst ≤ revalue p m' inst := by
  unfold revalue
  rw [if_neg (not_or.mpr ⟨hqty.ne', not_le.mpr hm⟩),
    if_neg (not_or.mpr ⟨hqty.ne', not_le.mpr (hm.trans_le h)⟩)]
  split_ifs
  · exact inversePnl_mono hmult hqty.le hm h
  · exact scale_mono hmult (mulRaw_mono hqty.le (sub_le_sub_right h _))

/-- A short is worth no more. -/
theorem revalue_anti_of_short (hmult : 0 < inst.contractMultiplier) (hqty : p.qty < 0)
    (hm : 0 < m) (h : m ≤ m') : revalue p m' inst ≤ revalue p m inst := by
  have hlong : 0 < ({ p with qty := -p.qty } : Position).qty := neg_pos.mpr hqty
  have hmono := revalue_mono_of_long hmult hlong hm h
  rw [revalue_neg, revalue_neg] at hmono
  exact neg_le_neg_iff.mp hmono

/-- `unrealized_at`: the valuation with the source's casts. -/
def unrealizedAt (p : Position) (mid : Price) (inst : Instrument) : Notional :=
  if p.qty = 0 ∨ mid ≤ 0 then 0
  else if inst.inverse then castInt64 (inst.inversePnl p.avgPx mid p.qty)
  else
    let n := castInt64 (mulRaw (mid - p.avgPx) p.qty)
    if inst.contractMultiplier = kFixedScale then n
    else castInt64 (mulRaw n inst.contractMultiplier)

/-- What `int64_t` holds. -/
def FitsInt64 (x : Int) : Prop := -2 ^ 63 ≤ x ∧ x < 2 ^ 63

instance (x : Int) : Decidable (FitsInt64 x) := inferInstanceAs (Decidable (_ ∧ _))

/-- No cast changes the value at a mid. -/
def ValueFits (p : Position) (mid : Price) (inst : Instrument) : Prop :=
  (inst.inverse = false → FitsInt64 (mulRaw (mid - p.avgPx) p.qty)) ∧
    FitsInt64 (revalue p mid inst)

instance (p : Position) (mid : Price) (inst : Instrument) : Decidable (ValueFits p mid inst) :=
  inferInstanceAs (Decidable (_ ∧ _))

theorem FitsInt64.cast_eq {x : Int} (h : FitsInt64 x) : castInt64 x = x := castInt64_eq h.1 h.2

theorem unrealizedAt_eq (h : ValueFits p m inst) : unrealizedAt p m inst = revalue p m inst := by
  obtain ⟨hinner, houter⟩ := h
  unfold unrealizedAt
  unfold revalue at houter ⊢
  by_cases hnone : p.qty = 0 ∨ m ≤ 0
  · rw [if_pos hnone, if_pos hnone]
  rw [if_neg hnone] at houter
  rw [if_neg hnone, if_neg hnone]
  by_cases hinverse : inst.inverse = true
  · rw [if_pos hinverse] at houter
    rw [if_pos hinverse, if_pos hinverse, houter.cast_eq]
  rw [if_neg hinverse] at houter
  rw [if_neg hinverse, if_neg hinverse, (hinner (Bool.eq_false_iff.mpr hinverse)).cast_eq]
  unfold scale at houter ⊢
  dsimp only
  split_ifs at houter ⊢ with hone
  · rfl
  · exact houter.cast_eq

/-- A value between two that fit fits, whichever way it moves. -/
theorem FitsInt64.between {x y z : Int} (hx : FitsInt64 x) (hz : FitsInt64 z)
    (h : (x ≤ y ∧ y ≤ z) ∨ (z ≤ y ∧ y ≤ x)) : FitsInt64 y := by
  unfold FitsInt64 at *
  omega

/-- Between two mids at which the value fits it fits. -/
theorem ValueFits.between (hmult : 0 < inst.contractMultiplier) {lo hi : Price} (hpos : 0 < lo)
    (hlo : ValueFits p lo inst) (hhi : ValueFits p hi inst) (h : lo ≤ m) (h' : m ≤ hi) :
    ValueFits p m inst := by
  rcases lt_trichotomy p.qty 0 with hshort | hnone | hlong
  · refine ⟨fun hlinear => (hlo.1 hlinear).between (hhi.1 hlinear) (Or.inr ⟨?_, ?_⟩),
      hlo.2.between hhi.2 (Or.inr ⟨revalue_anti_of_short hmult hshort (hpos.trans_le h) h',
        revalue_anti_of_short hmult hshort hpos h⟩)⟩
    · exact mulRaw_anti hshort.le (sub_le_sub_right h' _)
    · exact mulRaw_anti hshort.le (sub_le_sub_right h _)
  · refine ⟨fun _ => ?_, ?_⟩
    · rw [hnone, mulRaw, mul_zero]
      decide
    · rw [revalue, if_pos (Or.inl hnone)]
      decide
  · exact ⟨fun hlinear => (hlo.1 hlinear).between (hhi.1 hlinear)
      (Or.inl ⟨mulRaw_mono hlong.le (sub_le_sub_right h _),
        mulRaw_mono hlong.le (sub_le_sub_right h' _)⟩),
      hlo.2.between hhi.2 (Or.inl ⟨revalue_mono_of_long hmult hlong hpos h,
        revalue_mono_of_long hmult hlong (hpos.trans_le h) h'⟩)⟩

end Values

/-! ## Unrealized PnL -/

section Unrealized

variable (t : PositionTracker) (id i : Fin kMaxInstruments)

/-- Every position's unrealized PnL is its value at its last mark. -/
def Valued (insts : Fin kMaxInstruments → Instrument) (t : PositionTracker) : Prop :=
  ∀ i, (t.pos i).unrealized = revalue (t.pos i) (t.pos i).lastMark (insts i)

theorem setUnrealized_pos (u : Notional) :
    (t.setUnrealized id u).pos = update t.pos id { t.pos id with unrealized := u } := by
  unfold setUnrealized setPos
  simp

theorem mark_pos (mid : Price) (inst : Instrument) : (t.mark id mid inst).pos = update t.pos id
      { t.pos id with
        lastMark := mid
        unrealized := revalue (t.pos id) mid inst } := by
  unfold mark
  simp only [setExposure_pos, setUnrealized_pos, setPos_pos, update_self, update_idem]
  rfl

/-- The parts of a position its valuation reads and writes. -/
def stand (p : Position) : (Qty × Price) × (Notional × Price) :=
  ((p.qty, p.avgPx), (p.unrealized, p.lastMark))

theorem Valued.congr {insts : Fin kMaxInstruments → Instrument} {t t' : PositionTracker}
    (h : Valued insts t) (hsame : ∀ i, stand (t'.pos i) = stand (t.pos i)) : Valued insts t' := by
  intro i
  obtain ⟨hpos, hval⟩ := Prod.mk.inj (hsame i)
  obtain ⟨hqty, havg⟩ := Prod.mk.inj hpos
  obtain ⟨hunrealized, hmark⟩ := Prod.mk.inj hval
  have hvalue := h i
  unfold revalue at hvalue ⊢
  rw [hqty, havg, hunrealized, hmark]
  exact hvalue

theorem stand_setPos {p : Position} (h : stand p = stand (t.pos id)) :
    stand ((t.setPos id p).pos i) = stand (t.pos i) := by
  rw [setPos_pos, update_apply]
  split_ifs with hi
  · rw [h, hi]
  · rfl

theorem stand_addRealized (r : Notional) :
    stand ((t.addRealized id r).pos i) = stand (t.pos i) := by
  unfold addRealized
  rw [book_pos]
  exact stand_setPos t id i rfl

theorem stand_addFees (fee : Notional) : stand ((t.addFees id fee).pos i) = stand (t.pos i) := by
  unfold addFees
  rw [book_pos]
  exact stand_setPos t id i rfl

theorem stand_countFill (qty : Qty) : stand ((t.countFill id qty).pos i) = stand (t.pos i) :=
  stand_setPos t id i rfl

/-- One position was written over: the others stand, and this one's value is its own again. -/
theorem Valued.of_one {insts : Fin kMaxInstruments → Instrument} {t t' : PositionTracker}
    (h : Valued insts t) (id : Fin kMaxInstruments)
    (hself : (t'.pos id).unrealized = revalue (t'.pos id) (t'.pos id).lastMark (insts id))
    (hothers : ∀ i, i ≠ id → stand (t'.pos i) = stand (t.pos i)) : Valued insts t' := by
  have hone : Valued insts (t.setPos id (t'.pos id)) := by
    intro i
    rw [setPos_pos, update_apply]
    split_ifs with hi
    · rw [hi]
      exact hself
    · exact h i
  refine hone.congr fun i => ?_
  rw [setPos_pos, update_apply]
  split_ifs with hi
  · rw [hi]
  · exact hothers i hi

variable {insts : Fin kMaxInstruments → Instrument}

theorem Valued.mark {t : PositionTracker} (h : Valued insts t) (mid : Price) :
    Valued insts (t.mark id mid (insts id)) := by
  refine h.of_one id ?_ fun i hi => ?_
  · rw [mark_pos, update_self]
    rfl
  · rw [mark_pos, update_of_ne hi]

/-- A fill moves a position's quantity and average, and values it again where it has a mark. -/
theorem Valued.valueAgain {t t' : PositionTracker} (h : Valued insts t) (px : Price)
    (hself : (t'.pos id).unrealized = (t.pos id).unrealized ∧
      (t'.pos id).lastMark = (t.pos id).lastMark)
    (hothers : ∀ i, i ≠ id → stand (t'.pos i) = stand (t.pos i)) :
    Valued insts (t'.valueAgain id px (insts id)) := by
  unfold PositionTracker.valueAgain
  split_ifs with hmark
  · refine h.of_one id ?_ fun i hi => ?_
    · rw [mark_pos, update_self]
      rfl
    · rw [mark_pos, update_of_ne hi]
      exact hothers i hi
  · have hzero : ∀ p : Position, p.lastMark ≤ 0 → revalue p p.lastMark (insts id) = 0 := by
      intro p hp
      exact if_pos (Or.inr hp)
    refine h.of_one id ?_ fun i hi => ?_
    · rw [setExposure_pos, hself.1, h id, hzero _ (not_lt.mp hmark),
        hzero _ (hself.2 ▸ not_lt.mp hmark)]
    · rw [setExposure_pos]
      exact hothers i hi

/-- A call with the instrument of its position. -/
def Op.Of (insts : Fin kMaxInstruments → Instrument) : Op → Prop
  | .onFill id _ _ _ _ inst => inst = insts id
  | .correctFill id _ _ _ _ _ inst => inst = insts id
  | .mark id _ inst => inst = insts id
  | .set id _ _ inst => inst = insts id
  | .onFunding .. | .reset .. | .setAccounting .. | .setRate .. => True

theorem reconvert_pos (c : Fin kMaxCurrencies) : (t.reconvert c).pos = t.pos :=
  reconvert_proj (fun t => t.pos) (fun _ _ => rfl) t

theorem setAccounting_pos (plan : FxPlan) : (t.setAccounting plan).pos = t.pos := by
  unfold setAccounting
  dsimp only
  split_ifs
  · exact reconvert_pos _ 0
  · rfl

theorem setRate_pos (c : Nat) (r : FxRate) : (t.setRate c r).pos = t.pos := by
  unfold setRate
  split_ifs
  · exact reconvert_pos _ _
  · rfl

theorem closedPosition_value (p : Position) (f : Int) (px : Price) (closed : Int) :
    (closedPosition p f px closed).unrealized = p.unrealized ∧
      (closedPosition p f px closed).lastMark = p.lastMark := by
  unfold closedPosition
  dsimp only
  split_ifs
  · exact ⟨rfl, rfl⟩
  · exact ⟨rfl, rfl⟩
  · exact ⟨rfl, rfl⟩
  · exact ⟨rfl, rfl⟩

section

variable {t : PositionTracker} (h : Valued insts t)
include h

theorem Valued.onFill (side : Side) (px : Price)
    (qty : Qty) (fee : Notional) : Valued insts (t.onFill id side px qty fee (insts id)) := by
  have hcounted : ∀ i, stand (((t.bump.addFees id fee).countFill id qty).pos i) =
      stand (t.pos i) := fun i =>
    (stand_countFill _ id i qty).trans (stand_addFees t.bump id i fee)
  have hparts : ∀ {p p' : Position}, stand p = stand p' →
      p.unrealized = p'.unrealized ∧ p.lastMark = p'.lastMark := fun hsame =>
    Prod.mk.inj (Prod.mk.inj hsame).2
  rw [onFill_eq]
  refine h.valueAgain id px ?_ fun i hi => ?_
  · split_ifs
    · unfold addToPosition
      rw [setPos_pos, update_self]
      have hsame := hparts (hcounted id)
      exact hsame
    · unfold takeFromPosition
      rw [setPos_pos, update_self]
      have hsame : ∀ r, _ := fun r => hparts
        ((stand_addRealized ((t.bump.addFees id fee).countFill id qty) id id r).trans (hcounted id))
      exact ⟨(closedPosition_value ..).1.trans (hsame _).1,
        (closedPosition_value ..).2.trans (hsame _).2⟩
  · split_ifs
    · unfold addToPosition
      rw [setPos_pos, update_of_ne hi]
      exact hcounted i
    · unfold takeFromPosition
      rw [setPos_pos, update_of_ne hi]
      exact (stand_addRealized _ id i _).trans (hcounted i)

theorem Valued.set (qty : Qty) (avgPx : Price) :
    Valued insts (t.set id qty avgPx (insts id)) := by
  refine h.of_one id ?_ fun i hi => ?_
  · unfold PositionTracker.set
    rw [setExposure_pos, setUnrealized_pos, update_self]
    rfl
  · unfold PositionTracker.set
    rw [setExposure_pos, setUnrealized_pos, update_of_ne hi, setPos_pos, update_of_ne hi]
    rfl

theorem Valued.reset : Valued insts (t.reset id) := by
  refine h.of_one id ?_ fun i hi => ?_
  · unfold PositionTracker.reset
    rw [setPos_pos, update_self]
    rfl
  · unfold PositionTracker.reset
    rw [setPos_pos, update_of_ne hi, setExposure_pos, setUnrealized_pos, update_of_ne hi]
    exact (stand_addFees _ id i _).trans (stand_addRealized t.bump id i _)

theorem Valued.step {op : Op} (hop : op.Of insts) :
    Valued insts (t.step op) := by
  cases op with
  | onFill id side px qty fee inst =>
    obtain rfl : inst = insts id := hop
    exact h.onFill id side px qty fee
  | correctFill id side estPx px qty fee inst =>
    refine h.congr fun i => ?_
    exact (stand_addFees _ id i fee).trans (stand_addRealized t.bump id i _)
  | onFunding id amount => exact h.congr fun i => stand_addRealized t.bump id i amount
  | mark id mid inst =>
    obtain rfl : inst = insts id := hop
    exact h.mark id mid
  | set id qty avgPx inst =>
    obtain rfl : inst = insts id := hop
    exact h.set id qty avgPx
  | reset id => exact h.reset id
  | setAccounting plan =>
    exact h.congr fun i => congrArg (fun pos => stand (pos i)) (setAccounting_pos t plan)
  | setRate c r => exact h.congr fun i => congrArg (fun pos => stand (pos i)) (setRate_pos t c r)

end

/-- In every run each position's unrealized PnL is its value at its last mark. -/
theorem Valued.run {ops : List Op} (hops : ∀ op ∈ ops, op.Of insts) :
    Valued insts (PositionTracker.run ops) := by
  have hstart : Valued insts {} := fun i => rfl
  unfold PositionTracker.run
  generalize ({} : PositionTracker) = t at hstart ⊢
  induction ops generalizing t with
  | nil => exact hstart
  | cons op ops ih =>
    exact ih (fun op' hop' => hops op' (List.mem_cons_of_mem op hop')) _
      (hstart.step (hops op List.mem_cons_self))

end Unrealized

end PositionTracker

end FastMM
