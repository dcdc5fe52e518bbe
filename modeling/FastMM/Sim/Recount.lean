/-
  Sim/Recount.lean --- positions kept from fills, and the liquidity they leave.

  A sink that keeps positions says how much of a reduce-only order may fill: what takes its
  account's position towards zero.  `recount` goes through resting orders as a sweep does and
  counts each maker for what the position of its account leaves when its turn comes.
-/
import FastMM.Sim.Submission
set_option autoImplicit false

namespace FastMM.Sim

open List

/-! ## Positions -/

/-- What a fill of `q` adds to a position. -/
def signed : Side → Qty → Qty
  | .buy, q => q
  | .sell, q => -q

/-- What a fill of `q` adds to the position of one account on one instrument. -/
def SimOrder.leg (o : SimOrder) (q : Qty) (account : AccountId) (id : InstrumentId) : Qty :=
  if o.account = account ∧ o.instrument = id then signed o.side q else 0

/-- What a call adds to a position. -/
def SinkCall.moves (account : AccountId) (id : InstrumentId) : SinkCall → Qty
  | .onFill maker taker _ q _ => maker.leg q account id + taker.leg q account id
  | _ => 0

/-- What takes a position towards zero on a side. -/
def closing (s : Side) (position : Qty) : Qty :=
  match s with
  | .buy => max 0 (-position)
  | .sell => max 0 position

/-- The positions a sink keeps: of which accounts, and where they start. -/
structure Positions where
  kept : AccountId → InstrumentId → Bool
  start : AccountId → InstrumentId → Qty := fun _ _ => 0

namespace Positions

variable (P : Positions)

/-- A position after the calls. -/
def after (told : List SinkCall) (account : AccountId) (id : InstrumentId) : Qty :=
  P.start account id + (told.map (SinkCall.moves account id)).sum

/-- How much of an order may fill, by its account's position. -/
def room (position : Qty) (o : SimOrder) : Qty :=
  if P.kept o.account o.instrument then min o.leaves (closing o.side position) else o.leaves

/-- The sink's `reducible`. -/
def reducible (told : List SinkCall) (o : SimOrder) : Nat :=
  (P.room (P.after told o.account o.instrument) o).toNat

/-- What a maker may trade. -/
def tradable (pos : AccountId → Qty) (o : SimOrder) : Qty :=
  if o.reduceOnly then P.room (pos o.account) o else o.leaves

end Positions

/-- The positions on one instrument once `o` traded `q` with a taker. -/
def traded (pos : AccountId → Qty) (o : SimOrder) (account : AccountId) (side : Side) (q : Qty) :
    AccountId → Qty :=
  fun a => pos a + ((if o.account = a then signed o.side q else 0) +
    if account = a then signed side q else 0)

/-- What a taker of `account` on `side` finds in the orders. -/
def Positions.recount (P : Positions) (mode : StpMode) (account : AccountId) (side : Side) :
    (AccountId → Qty) → List SimOrder → Qty
  | _, [] => 0
  | pos, o :: os =>
    if o.account = account then
      if mode = .none then
        (if P.tradable pos o = 0 then 0 else o.leaves) + recount P mode account side pos os
      else if mode = .cancelMaker then recount P mode account side pos os
      else 0
    else
      P.tradable pos o + recount P mode account side
        (traded pos o account side (P.tradable pos o)) os

/-! ## Their arithmetic -/

theorem signed_zero (s : Side) : signed s 0 = 0 := by cases s <;> rfl

theorem signed_opposite (s : Side) (q : Qty) : signed s.opposite q + signed s q = 0 := by
  cases s with
  | buy => exact neg_add_cancel q
  | sell => exact add_neg_cancel q

theorem closing_nonneg (s : Side) (position : Qty) : 0 ≤ closing s position := by
  cases s <;> exact le_max_left 0 _

/-- What is left over zero once part of it is gone. -/
theorem over_sub (x q : Int) (hle : q ≤ max 0 x) (hpos : 0 < max 0 x) :
    max 0 (x - q) = max 0 x - q := by omega

theorem over_add (x q : Int) (hq : 0 ≤ q) : max 0 x ≤ max 0 (x + q) := by omega

/-- A fill on a side takes away from what the side closes. -/
theorem closing_signed {s : Side} {position q : Qty} (hle : q ≤ closing s position)
    (hpos : 0 < closing s position) :
    closing s (position + signed s q) = closing s position - q := by
  cases s with
  | buy =>
    show max 0 (-(position + q)) = max 0 (-position) - q
    rw [neg_add, ← sub_eq_add_neg]
    exact over_sub (-position) q hle hpos
  | sell =>
    show max 0 (position + -q) = max 0 position - q
    rw [← sub_eq_add_neg]
    exact over_sub position q hle hpos

/-- A fill on the other side adds to it. -/
theorem closing_le {s : Side} {position q : Qty} (hq : 0 ≤ q) :
    closing s.opposite position ≤ closing s.opposite (position + signed s q) := by
  cases s with
  | buy => exact over_add position q hq
  | sell =>
    show max 0 (-position) ≤ max 0 (-(position + -q))
    rw [neg_add, neg_neg]
    exact over_add (-position) q hq

theorem traded_zero (pos : AccountId → Qty) (o : SimOrder) (account : AccountId) (side : Side) :
    traded pos o account side 0 = pos := by
  funext a
  unfold traded
  rw [signed_zero, signed_zero, ite_self, ite_self, add_zero, add_zero]

/-- Two orders of one account leave its position where it is. -/
theorem traded_own (pos : AccountId → Qty) {o : SimOrder} {account : AccountId} {side : Side}
    (hside : o.side = side.opposite) (hown : o.account = account) (q : Qty) :
    traded pos o account side q = pos := by
  funext a
  unfold traded
  rw [hown, hside]
  split_ifs with ha
  · rw [signed_opposite, add_zero]
  · rw [add_zero, add_zero]

namespace Positions

variable {P : Positions} {mode : StpMode} {account : AccountId} {side : Side}
  {pos : AccountId → Qty} {o : SimOrder}

theorem room_le (position : Qty) (o : SimOrder) : P.room position o ≤ o.leaves := by
  unfold room
  split
  · exact min_le_left _ _
  · exact le_refl _

theorem room_nonneg {position : Qty} (ho : 0 ≤ o.leaves) : 0 ≤ P.room position o := by
  unfold room
  split
  · exact le_min ho (closing_nonneg _ _)
  · exact ho

theorem tradable_le (pos : AccountId → Qty) (o : SimOrder) : P.tradable pos o ≤ o.leaves := by
  unfold tradable
  split
  · exact room_le _ o
  · exact le_refl _

theorem tradable_nonneg (ho : 0 ≤ o.leaves) : 0 ≤ P.tradable pos o := by
  unfold tradable
  split
  · exact room_nonneg ho
  · exact ho

/-- What the sink answers, as a quantity. -/
theorem reducible_eq {told : List SinkCall} (ho : 0 ≤ o.leaves) :
    (P.reducible told o : Qty) = P.room (P.after told o.account o.instrument) o :=
  Int.toNat_of_nonneg (room_nonneg ho)

theorem recount_nonneg {os : List SimOrder} (hos : ∀ o ∈ os, 0 ≤ o.leaves) :
    0 ≤ P.recount mode account side pos os := by
  induction os generalizing pos with
  | nil => exact le_refl _
  | cons o os ih =>
    have ho := hos o mem_cons_self
    have hrest : ∀ {pos}, 0 ≤ P.recount mode account side pos os :=
      ih fun o ho => hos o (mem_cons_of_mem _ ho)
    unfold recount
    by_cases hown : o.account = account
    · rw [if_pos hown]
      split
      · refine add_nonneg ?_ hrest
        split
        · exact le_refl _
        · exact ho
      · split
        · exact hrest
        · exact le_refl _
    · rw [if_neg hown]
      exact add_nonneg (tradable_nonneg ho) hrest

/-- Makers of the taker's own account that may trade are found whole. -/
theorem recount_own {os rest : List SimOrder}
    (hos : ∀ o ∈ os, o.account = account ∧ 0 < P.tradable pos o) :
    P.recount .none account side pos (os ++ rest) =
      (os.map SimOrder.leaves).sum + P.recount .none account side pos rest := by
  induction os with
  | nil => exact (zero_add _).symm
  | cons o os ih =>
    obtain ⟨hown, htradable⟩ := hos o mem_cons_self
    rw [cons_append, recount, if_pos hown, if_pos rfl, if_neg (ne_of_gt htradable),
      ih fun o ho => hos o (mem_cons_of_mem _ ho), map_cons, sum_cons, add_assoc]

/-! ## Calls -/

theorem after_append (told calls : List SinkCall) (a : AccountId) (id : InstrumentId) :
    P.after (told ++ calls) a id = P.after told a id + (calls.map (SinkCall.moves a id)).sum := by
  unfold after
  rw [map_append, sum_append, add_assoc]

/-- Calls without a fill move no position. -/
theorem moves_eq_zero {calls : List SinkCall} (h : fillsOf calls = []) (a : AccountId)
    (id : InstrumentId) : (calls.map (SinkCall.moves a id)).sum = 0 := by
  induction calls with
  | nil => rfl
  | cons c calls ih =>
    cases c with
    | onFill => cases h
    | onAck | onReject | onCancel | onCancelReject | onBookChange | onTrade =>
      rw [map_cons, sum_cons]
      exact (zero_add _).trans (ih h)

/-- The positions on one instrument. -/
def standing (P : Positions) (told : List SinkCall) (id : InstrumentId) : AccountId → Qty :=
  fun a => P.after told a id

theorem standing_quiet {told calls : List SinkCall} (h : fillsOf calls = []) (id : InstrumentId) :
    P.standing (told ++ calls) id = P.standing told id := by
  funext a
  unfold standing
  rw [after_append, moves_eq_zero h, add_zero]

/-- A maker's leg and a taker's. -/
theorem standing_fill {told : List SinkCall} {maker taker : SimOrder} {px : Price} {q : Qty}
    {now : Timestamp} {id : InstrumentId} (hmaker : maker.instrument = id)
    (htaker : taker.instrument = id) :
    P.standing (told ++ [.onFill maker taker px q now]) id =
      traded (P.standing told id) maker taker.account taker.side q := by
  funext a
  unfold standing traded
  rw [after_append, map_singleton, sum_singleton]
  show _ + (maker.leg q a id + taker.leg q a id) = _
  unfold SimOrder.leg
  rw [hmaker, htaker]
  simp only [and_true]

/-- Own makers have no less room when the taker trades with another. -/
theorem tradable_traded {maker o : SimOrder} (hown : o.account = account)
    (hside : o.side = side.opposite) (hother : maker.account ≠ account) {q : Qty} (hq : 0 ≤ q)
    (ho : 0 < P.tradable pos o) : 0 < P.tradable (traded pos maker account side q) o := by
  have hpos : traded pos maker account side q o.account = pos o.account + signed side q := by
    unfold traded
    rw [hown, if_neg hother, if_pos rfl, zero_add]
  unfold tradable room at *
  rw [hpos]
  split
  · rename_i hreduce
    rw [if_pos hreduce] at ho
    split
    · rename_i hkept
      rw [if_pos hkept] at ho
      obtain ⟨hleaves, hclosing⟩ := lt_min_iff.mp ho
      rw [hside] at hclosing ⊢
      exact lt_min hleaves (lt_of_lt_of_le hclosing (closing_le hq))
    · rename_i hkept
      rwa [if_neg hkept] at ho
  · rename_i hreduce
    rwa [if_neg hreduce] at ho

end Positions

/-! ## A trade of the sweep -/

section Trade

variable {P : Positions} {w : Sweep} {mh : Nat} {maker : SimOrder} {px : Price} {q : Qty}
  {now : Timestamp}

/-- The maker once it traded. -/
def SimOrder.filled (o : SimOrder) (q : Qty) : SimOrder := { o with cumQty := o.cumQty + q }

theorem leaves_filled (o : SimOrder) (q : Qty) : (o.filled q).leaves = o.leaves - q :=
  sub_add_eq_sub_sub o.qty o.cumQty q

/-- The calls of a trade, before the maker is looked at again. -/
def Sweep.fillCalls (w : Sweep) (maker : SimOrder) (px : Price) (q : Qty) (now : Timestamp) :
    List SinkCall :=
  [.onFill (maker.filled q) (w.taker.filled q) px q now,
    .onTrade w.taker.instrument px q w.taker.side w.engine.nextTradeId now]

theorem standing_fillCalls {id : InstrumentId} (hmaker : maker.instrument = id)
    (htaker : w.taker.instrument = id) :
    P.standing (w.engine.told ++ w.fillCalls maker px q now) id =
      traded (P.standing w.engine.told id) maker w.taker.account w.taker.side q := by
  have happ : w.engine.told ++ w.fillCalls maker px q now =
      (w.engine.told ++ [.onFill (maker.filled q) (w.taker.filled q) px q now]) ++
        [.onTrade w.taker.instrument px q w.taker.side w.engine.nextTradeId now] := by
    rw [append_assoc]
    rfl
  have hmaker' : (maker.filled q).instrument = id := hmaker
  have htaker' : (w.taker.filled q).instrument = id := htaker
  rw [happ, Positions.standing_quiet rfl, Positions.standing_fill hmaker' htaker']
  rfl

/-- What becomes of the maker and of what the sink was told. -/
theorem trade_cases (w : Sweep) (mh : Nat) (maker : SimOrder) (px : Price) (q : Qty)
    (now : Timestamp) :
    (∃ quiet, fillsOf quiet = [] ∧ (w.trade mh maker px q now).engine.told =
      w.engine.told ++ w.fillCalls maker px q now ++ quiet) ∧
    (w.trade mh maker px q now).engine.pool =
      if (maker.filled q).leaves = 0 ∨ ((maker.filled q).reduceOnly = true ∧
          w.engine.reducible (w.engine.told ++ w.fillCalls maker px q now)
            (maker.filled q) = 0) then
        w.engine.pool.free mh
      else w.engine.pool.set mh (maker.filled q) := by
  obtain ⟨e₂, he₂⟩ : ∃ e₂ : MatchingEngine, e₂ =
      ({ (w.engine.recordFill (maker.filled q) (w.taker.filled q) q).tell
          (.onFill (maker.filled q) (w.taker.filled q) px q now) with
        nextTradeId := w.engine.nextTradeId + 1 } : MatchingEngine).tell
          (.onTrade w.taker.instrument px q w.taker.side w.engine.nextTradeId now) := ⟨_, rfl⟩
  have htold : e₂.told = w.engine.told ++ w.fillCalls maker px q now := by
    rw [he₂]
    exact append_assoc _ [_] [_]
  have hpool : e₂.pool = w.engine.pool := by rw [he₂]; rfl
  have hreducible : e₂.reducible = w.engine.reducible := by rw [he₂]; rfl
  have htrade : w.trade mh maker px q now =
      if (maker.filled q).leaves = 0 then
        { w with
          engine := (e₂.unlink mh { w.level with qty := w.level.qty - q }).1.freeOrder mh
            (maker.filled q)
          level := (e₂.unlink mh { w.level with qty := w.level.qty - q }).2
          taker := w.taker.filled q }
      else if (maker.filled q).reduceOnly = true ∧ e₂.reducible e₂.told (maker.filled q) = 0 then
        { w with
          engine := e₂
          level := { w.level with qty := w.level.qty - q }
          taker := w.taker.filled q : Sweep }.dropMaker mh (maker.filled q) .reduceOnly now
      else
        { w with
          engine := { e₂ with pool := e₂.pool.set mh (maker.filled q) }
          level := { w.level with qty := w.level.qty - q }
          taker := w.taker.filled q } := by
    rw [he₂]
    rfl
  rw [htrade, ← htold, ← hreducible, ← hpool]
  by_cases hgone : (maker.filled q).leaves = 0
  · rw [if_pos hgone, if_pos (.inl hgone)]
    exact ⟨⟨[], rfl, (append_nil _).symm⟩, rfl⟩
  rw [if_neg hgone]
  by_cases hreduce : (maker.filled q).reduceOnly = true ∧
      e₂.reducible e₂.told (maker.filled q) = 0
  · rw [if_pos hreduce, if_pos (.inr hreduce)]
    exact ⟨⟨[.onCancel (maker.filled q) .reduceOnly now], rfl, rfl⟩, rfl⟩
  · rw [if_neg hreduce, if_neg (not_or.mpr ⟨hgone, hreduce⟩)]
    exact ⟨⟨[], rfl, (append_nil _).symm⟩, rfl⟩

end Trade

end FastMM.Sim
