/-
  Gateway/Totals.lean --- the working totals and the orders the router tracks.

  The totals less the tracked orders' parts are an excess, and each function is described by what
  it does to it: nothing, but for the reject of a replacement, which gives the original its
  notional back without taking off what it has come to since.
-/
import FastMM.Balance.Holds
import FastMM.Gateway.VenueRouter
import Mathlib.Algebra.Group.Prod
import Mathlib.Tactic.Abel
set_option autoImplicit false

namespace FastMM.Gateway

open Foundation Balance BalanceBook GwOrder KeyedTable

/-- A notional, then for each instrument and side a quantity, a hold and an unacknowledged hold. -/
abbrev Amounts : Type :=
  Int × (Nat → Side → Int) × (Nat → Side → Int) × (Nat → Side → Int)

theorem Amounts.ext {a b : Amounts} (hnotional : a.1 = b.1) (hleaves : a.2.1 = b.2.1)
    (hheld : a.2.2.1 = b.2.2.1) (hunacked : a.2.2.2 = b.2.2.2) : a = b :=
  Prod.ext hnotional (Prod.ext hleaves (Prod.ext hheld hunacked))

namespace GwOrder

variable (o : GwOrder)
variable (C : GatewayConfig)

/-- A quantity of an order, where its instrument has an underlying. -/
def leavesPart (o : GwOrder) (d : Int) : Nat → Side → Int :=
  if C.underlying o.inst.value then amountAt o.inst.value o.side d else 0

/-- A hold of an order. -/
def holdPart (d : Int) : Nat → Side → Int :=
  if o.inst.value < kMaxInstruments then amountAt o.inst.value o.side d else 0

/-- A hold of an order the venue has not taken. -/
def unackedPart (d : Int) : Nat → Side → Int :=
  if o.inst.value < kMaxInstruments ∧ o.acked = false then amountAt o.inst.value o.side d else 0

/-- What a tracked order is of the totals. -/
def part (o : GwOrder) : Amounts :=
  (o.notional, o.leavesPart C o.leaves, o.holdPart o.hold, o.unackedPart o.hold)

theorem leavesPart_sub (o : GwOrder) (a b : Int) :
    o.leavesPart C (a - b) = o.leavesPart C a - o.leavesPart C b := by
  unfold leavesPart
  split
  · rw [amountAt_sub]
  · rw [sub_zero]

theorem holdPart_sub (a b : Int) : o.holdPart (a - b) = o.holdPart a - o.holdPart b := by
  unfold holdPart
  split
  · rw [amountAt_sub]
  · rw [sub_zero]

theorem unackedPart_sub (a b : Int) :
    o.unackedPart (a - b) = o.unackedPart a - o.unackedPart b := by
  unfold unackedPart
  split
  · rw [amountAt_sub]
  · rw [sub_zero]

@[simp] theorem leavesPart_zero (o : GwOrder) : o.leavesPart C 0 = 0 := by
  unfold leavesPart
  rw [amountAt_zero, ite_self]

@[simp] theorem holdPart_zero : o.holdPart 0 = 0 := by
  unfold holdPart
  rw [amountAt_zero, ite_self]

@[simp] theorem unackedPart_zero : o.unackedPart 0 = 0 := by
  unfold unackedPart
  rw [amountAt_zero, ite_self]

end GwOrder

namespace VenueRouter

variable {C : GatewayConfig}
variable (v : VenueRouter)
variable (id : ClientOrderId)
variable (o : GwOrder)
variable (ts : Timestamp)
variable (ops : List Op)
variable (wm : Option ClientOrderId)
variable (side : Side)

/-- An instrument and side's balance hold: what the book keeps of a derivative's orders, and what
a spot order's holds have moved in the row. -/
def holdAt : Nat → Side → Int := fun i side =>
  if (v.balances.inst i 0).derivative then v.balances.sideHoldAt i side else v.held i side

/-- The totals the gateway and its balance book keep. -/
def totals : Amounts :=
  (v.openNotional, v.openQty, v.holdAt, v.balances.unackedAt)

theorem holdAt_of_same {v v' : VenueRouter} (hheld : v'.held = v.held)
    (hside : v'.balances.sideHoldAt = v.balances.sideHoldAt)
    (hderivative : ∀ i, (v'.balances.inst i 0).derivative = (v.balances.inst i 0).derivative) :
    v'.holdAt = v.holdAt := by
  funext i side
  unfold holdAt
  rw [hderivative, hside, hheld]

/-- What the totals are above the tracked orders' parts. -/
def excess (C : GatewayConfig) (v : VenueRouter) : Amounts :=
  v.totals - v.orders.total fun _ o => o.part C

/-! ## What each function does to the excess -/

theorem excess_eq_of {v v' : VenueRouter} {d : Amounts} (htotals : v'.totals = v.totals + d)
    (horders : (v'.orders.total fun _ o => o.part C) = (v.orders.total fun _ o => o.part C) + d) :
    excess C v' = excess C v := by
  unfold excess
  rw [htotals, horders]
  abel

theorem excess_of_same {v v' : VenueRouter} (htotals : v'.totals = v.totals)
    (horders : v'.orders = v.orders) : excess C v' = excess C v := by
  unfold excess
  rw [htotals, horders]

theorem excess_modifyOrder {f : GwOrder → GwOrder}
    (hf : ∀ o, (f o).part C = o.part C) : excess C (v.modifyOrder id f) = excess C v := by
  refine excess_eq_of (add_zero _).symm ?_
  rw [add_zero]
  exact v.orders.total_modify_of_eq id f hf

/-- One order changes, and the totals by as much as its part. -/
theorem excess_eq_of_modify {v v' : VenueRouter} {id : ClientOrderId} {o : GwOrder}
    {f : GwOrder → GwOrder} (hfind : v.orders.find id = some o)
    (htotals : v'.totals = v.totals + ((f o).part C - o.part C))
    (horders : v'.orders = v.orders.modify id f) : excess C v' = excess C v := by
  refine excess_eq_of htotals ?_
  rw [horders, total_modify hfind, sub_add_eq_add_sub, add_sub_assoc]

theorem excess_setNotional (n : Int) : excess C (v.setNotional id n) = excess C v := by
  unfold setNotional
  cases h : v.orders.find id with
  | none => rfl
  | some o =>
    refine excess_eq_of_modify (f := fun o => { o with notional := n }) h ?_ rfl
    refine Amounts.ext rfl ?_ ?_ ?_
    · exact (add_eq_left.mpr (sub_self _)).symm
    · exact (add_eq_left.mpr (sub_self _)).symm
    · exact (add_eq_left.mpr (sub_self _)).symm

theorem totals_addLeaves (d : Int) :
    (v.addLeaves C o d).totals = v.totals + (0, o.leavesPart C d, 0, 0) := by
  refine Amounts.ext ?_ ?_ ?_ ?_
  · unfold addLeaves
    split <;> exact (add_zero _).symm
  · unfold addLeaves
    split
    next h =>
      show v.openQty = v.openQty + o.leavesPart C d
      rcases h with rfl | h
      · rw [leavesPart_zero, add_zero]
      · unfold leavesPart
        rw [if_neg (by rw [h]; exact Bool.false_ne_true), add_zero]
    next h =>
      show bump v.openQty o.inst.value o.side d = v.openQty + o.leavesPart C d
      unfold leavesPart bump
      rw [if_pos (Bool.not_eq_false _ ▸ (not_or.mp h).2), update_eq_add_amountAt]
  · unfold addLeaves
    split <;> exact (add_zero _).symm
  · unfold addLeaves
    split <;> exact (add_zero _).symm

@[simp] theorem orders_addLeaves (d : Int) :
    (v.addLeaves C o d).orders = v.orders := by
  unfold addLeaves
  split <;> rfl

theorem totals_moveHold (after : Int) (ts : Timestamp) : (v.moveHold o after ts).totals = v.totals +
      (0, 0, o.holdPart (after - o.hold), o.unackedPart (after - o.hold)) := by
  have hmore := heldMore_moveHold v.balances o.inst o.side o.hold after ts (!o.acked)
  refine Amounts.ext (add_zero _).symm (add_zero _).symm ?_ ?_
  · have hheld : (v.moveHold o after ts).held = v.held + o.holdPart (after - o.hold) := by
      unfold moveHold holdPart bump
      by_cases hlt : o.inst.value < kMaxInstruments
      · rw [if_neg (Nat.not_le.mpr hlt), if_pos hlt, update_eq_add_amountAt]
      · rw [if_pos (Nat.not_lt.mp hlt), if_neg hlt, add_zero]
    funext i side
    show (v.moveHold o after ts).holdAt i side = v.holdAt i side +
      o.holdPart (after - o.hold) i side
    unfold holdAt
    rw [hheld, show ((v.moveHold o after ts).balances.inst i 0).derivative = _ from
      hmore.derivative i]
    split
    next hder =>
      rw [show (v.moveHold o after ts).balances.sideHoldAt = _ from hmore.sideHold, Pi.add_apply,
        Pi.add_apply]
      congr 1
      unfold holdPart
      by_cases hi : o.inst.value = i
      · simp only [hi, hder, and_true]
      · have hzero : amountAt o.inst.value o.side (after - o.hold) i side = 0 := by
          rw [amountAt_apply, if_neg fun h => hi h.1]
        split <;> split <;> first | rfl | exact hzero | exact hzero.symm
    next => rfl
  · have hunacked := hmore.unacked
    simp only [Bool.not_eq_true'] at hunacked
    exact hunacked

@[simp] theorem orders_moveHold (after : Int) (ts : Timestamp) :
    (v.moveHold o after ts).orders = v.orders := rfl

theorem excess_syncHold : excess C (v.syncHold C id ts) = excess C v := by
  unfold syncHold
  cases hfind : v.orders.find id with
  | none => rfl
  | some o =>
    dsimp only
    cases C.insts.index o.inst with
    | none => rfl
    | some i =>
      dsimp only
      split
      · rfl
      generalize v.balances.hold _ _ _ _ _ _ _ = h
      refine excess_eq_of_modify (f := fun o => { o with hold := h }) hfind ?_ rfl
      refine (totals_moveHold v o h ts).trans ?_
      rw [holdPart_sub, unackedPart_sub]
      exact congrArg _ (Amounts.ext (sub_self _).symm (sub_self _).symm rfl rfl)

theorem excess_acknowledge : excess C (v.acknowledge id ts) = excess C v := by
  unfold acknowledge
  cases hfind : v.orders.find id with
  | none => rfl
  | some o =>
    dsimp only
    split
    · rfl
    next hacked =>
      have hless := heldLess_acknowledge v.balances o.inst o.side o.hold ts
      refine excess_eq_of_modify (f := fun o => { o with acked := true }) hfind ?_ rfl
      refine Amounts.ext ?_ ?_ ?_ ?_
      · exact (add_eq_left.mpr (sub_self _)).symm
      · exact (add_eq_left.mpr (sub_self _)).symm
      · have hhold : ({ v.modifyOrder id fun o => { o with acked := true } with
            balances := v.balances.acknowledge o.inst o.side o.hold ts .invalid } :
              VenueRouter).holdAt = v.holdAt :=
          holdAt_of_same rfl hless.2.1 hless.2.2
        exact hhold.trans (add_eq_left.mpr (sub_self _)).symm
      refine hless.1.trans ?_
      have hopen : o.unackedPart o.hold =
          if o.inst.value < kMaxInstruments then amountAt o.inst.value o.side o.hold
          else 0 := by
        unfold unackedPart
        simp only [hacked, and_true]
      have htaken : ({ o with acked := true } : GwOrder).unackedPart o.hold = 0 := by
        exact if_neg fun h => Bool.false_ne_true h.2.symm
      rw [← hopen, sub_eq_add_neg, ← zero_sub, ← htaken]
      rfl

theorem excess_setLeaves (leaves : Qty) (ts : Timestamp) :
    excess C (v.setLeaves C id leaves ts) = excess C v := by
  unfold setLeaves
  cases hfind : v.orders.find id with
  | none => rfl
  | some o =>
    rw [excess_syncHold]
    refine excess_eq_of_modify (f := fun o => { o with leaves := leaves }) hfind ?_ ?_
    · refine (totals_addLeaves v o (leaves - o.leaves)).trans ?_
      rw [leavesPart_sub]
      exact congrArg _ (Amounts.ext (sub_self _).symm rfl (sub_self _).symm (sub_self _).symm)
    · exact congrArg (fun t => t.modify id fun o => { o with leaves := leaves })
        (orders_addLeaves v o (leaves - o.leaves))

@[simp] theorem orders_dropResting :
    (v.dropResting C id o).orders = v.orders := by
  unfold dropResting
  split <;> rfl

@[simp] theorem totals_dropResting :
    (v.dropResting C id o).totals = v.totals := by
  unfold dropResting
  split <;> rfl

@[simp] theorem orders_syncResting :
    (v.syncResting C id o).orders = v.orders := by
  unfold syncResting
  split
  · split
    · rfl
    · rw [orders_dropResting]
  · rfl

@[simp] theorem totals_syncResting :
    (v.syncResting C id o).totals = v.totals := by
  unfold syncResting
  split
  · split
    · rfl
    · rw [totals_dropResting]
  · rfl

theorem excess_dropResting : excess C (v.dropResting C id o) = excess C v :=
  excess_of_same (totals_dropResting v id o) (orders_dropResting v id o)

theorem excess_syncResting : excess C (v.syncResting C id o) = excess C v :=
  excess_of_same (totals_syncResting v id o) (orders_syncResting v id o)

/-- An order that goes gives its hold back. -/
theorem totals_unhold : (if o.hold ≠ 0 then v.moveHold o 0 ts else v).totals =
      v.totals - (0, 0, o.holdPart o.hold, o.unackedPart o.hold) := by
  by_cases hhold : o.hold = 0
  · rw [if_neg (not_not.mpr hhold), hhold, holdPart_zero, unackedPart_zero]
    exact (sub_zero _).symm
  rw [if_pos hhold, totals_moveHold, holdPart_sub, unackedPart_sub,
    holdPart_zero, unackedPart_zero, zero_sub, zero_sub]
  refine Amounts.ext ?_ ?_ ?_ ?_
  · exact (add_zero _).trans (sub_zero _).symm
  · exact (add_zero _).trans (sub_zero _).symm
  · exact (sub_eq_add_neg _ _).symm
  · exact (sub_eq_add_neg _ _).symm

theorem excess_untrack : excess C (v.untrack C id ts) = excess C v := by
  unfold untrack
  cases hfind : v.orders.find id with
  | none => rfl
  | some o =>
    dsimp -zeta only
    extract_lets v₁ v₂ v₃ v₄
    have horders : v₄.orders = v.orders := by
      have h₃ : v₃.orders = v.orders :=
        (orders_addLeaves v₂ o _).trans (orders_dropResting v id o)
      show (if o.hold ≠ 0 then v₃.moveHold o 0 ts else v₃).orders = _
      split
      · rw [orders_moveHold, h₃]
      · exact h₃
    have htotals : v₄.totals = v.totals + -o.part C := by
      have h₁ : v₁.totals = v.totals := totals_dropResting v id o
      have h₂ : v₂.totals = v.totals - (o.notional, 0, 0, 0) := by
        rw [← h₁]
        exact Amounts.ext rfl (sub_zero _).symm (sub_zero _).symm (sub_zero _).symm
      have h₃ : v₃.totals = v₂.totals + (0, o.leavesPart C (0 - o.leaves), 0, 0) := by
        rw [zero_sub]
        exact totals_addLeaves v₂ o _
      rw [show v₄.totals = _ from totals_unhold v₃ o ts, h₃, h₂, leavesPart_sub, leavesPart_zero]
      refine Amounts.ext ?_ ?_ ?_ ?_
      · simp [GwOrder.part, sub_eq_add_neg]
      · simp [GwOrder.part, sub_eq_add_neg]
      · simp [GwOrder.part, sub_eq_add_neg]
      · simp [GwOrder.part, sub_eq_add_neg]
    refine excess_eq_of htotals ?_
    rw [horders, total_erase hfind, sub_eq_add_neg]

/-- An order joins with nothing held yet. -/
theorem excess_track {o : GwOrder} (hhold : o.hold = 0) :
    excess C (v.track C id o) = excess C v := by
  unfold track
  split
  next hnone =>
    split
    · rw [excess_syncHold, excess_syncResting]
      refine excess_eq_of (d := o.part C) ?_ ?_
      · rw [totals_addLeaves]
        refine Amounts.ext ?_ ?_ ?_ ?_
        · exact add_zero _
        · rfl
        · show v.holdAt + 0 = v.holdAt + o.holdPart o.hold
          rw [hhold, holdPart_zero]
        · show _ + 0 = v.balances.unackedAt + o.unackedPart o.hold
          rw [hhold, unackedPart_zero]
          rfl
      · rw [orders_addLeaves]
        exact total_add o hnone _
    · rfl
  · rfl

theorem excess_queueCancel (inst : InstrumentId)
    (voi : VenueOrderId) : excess C (v.queueCancel id inst voi) = excess C v :=
  (excess_of_same rfl rfl).trans (excess_modifyOrder v id fun _ => rfl)

theorem excess_cancelOnce (inst : InstrumentId)
    (voi : VenueOrderId) : excess C (v.cancelOnce id inst voi) = excess C v := by
  unfold cancelOnce
  split
  · rfl
  · exact excess_queueCancel v id inst voi

theorem excess_sendCancels (room : Nat → Bool) :
    excess C (v.sendCancels room) = excess C v := excess_of_same rfl rfl

/-- A fold of functions that leave the excess leaves it. -/
theorem excess_foldl {α : Type} (f : VenueRouter → α → VenueRouter)
    (hf : ∀ v a, excess C (f v a) = excess C v) (l : List α) (v : VenueRouter) :
    excess C (l.foldl f v) = excess C v := by
  induction l generalizing v with
  | nil => rfl
  | cons a rest ih => rw [List.foldl_cons, ih, hf]

theorem excess_killVenue : excess C (v.killVenue C) = excess C v := by
  unfold killVenue
  split
  · exact excess_of_same rfl rfl
  have hfold := excess_foldl (C := C) (fun v (e : ClientOrderId × GwOrder) =>
    v.cancelOnce e.1 e.2.inst e.2.venueOrderId)
    (fun v e => excess_cancelOnce v e.1 e.2.inst e.2.venueOrderId) v.orders.entries
    { v with killed := true }
  refine Eq.trans ?_ (hfold.trans (excess_of_same rfl rfl))
  exact excess_of_same rfl rfl

theorem excess_detach (epoch : Nat) (room : Nat → Bool) :
    excess C (v.detach C epoch room) = excess C v := by
  unfold detach
  split
  · exact excess_of_same rfl rfl
  have hfold := excess_foldl (C := C) (fun v (e : ClientOrderId × GwOrder) =>
    v.queueCancel e.1 e.2.inst e.2.venueOrderId)
    (fun v e => excess_queueCancel v e.1 e.2.inst e.2.venueOrderId)
    (v.orders.entries.filter fun e => e.2.epoch = epoch && !e.2.cancelSent)
    { v with routes := v.routes.eraseP fun r => r.epoch = epoch }
  refine Eq.trans ?_ (hfold.trans (excess_of_same rfl rfl))
  exact excess_of_same rfl rfl

/-! ## Events -/

theorem excess_searchWatermark : excess C (v.searchWatermark wm) = excess C v := by
  unfold searchWatermark
  cases wm with
  | none => rfl
  | some wm =>
    dsimp only
    split
    · exact excess_of_same rfl rfl
    generalize (v.kept v.forwarded).find? _ = found
    cases found with
    | none => rfl
    | some j => exact excess_of_same rfl rfl

theorem excess_reconcileBegin : excess C (v.reconcileBegin wm) = excess C v := by
  refine Eq.trans (excess_of_same rfl rfl) ((excess_searchWatermark _ wm).trans ?_)
  exact excess_of_same rfl rfl

theorem excess_rowTracked (m : OpenOrderMsg) : excess C (v.rowTracked C m) = excess C v := by
  unfold rowTracked
  cases v.orders.find m.clOrdId with
  | none => rfl
  | some o =>
    have hnoted : excess C (v.modifyOrder m.clOrdId fun o =>
        { o with
          gen := v.gen
          venueOrderId := if m.venueOrderId.empty then o.venueOrderId else m.venueOrderId }) =
        excess C v := excess_modifyOrder v m.clOrdId fun _ => rfl
    cases C.insts.index m.hdr.instrument with
    | none => exact hnoted
    | some i =>
      dsimp only
      split
      · rw [excess_setLeaves, excess_setNotional, hnoted]
      · exact hnoted

theorem excess_reconcileRow (m : OpenOrderMsg) : excess C (v.reconcileRow C m) = excess C v := by
  unfold reconcileRow
  rw [← excess_rowTracked v m]
  generalize v.rowTracked C m = v
  dsimp only
  cases v.byEpoch m.clOrdId with
  | none => exact excess_queueCancel v _ _ _
  | some r =>
    have hkill : ∀ w : VenueRouter, excess C (if w.killed then
        w.cancelOnce m.clOrdId m.hdr.instrument m.venueOrderId else w) = excess C w := by
      intro w
      split
      · exact excess_cancelOnce w _ _ _
      · rfl
    rw [hkill]
    cases C.insts.index m.hdr.instrument with
    | none => rfl
    | some i => exact excess_track v m.clOrdId rfl

theorem excess_reconcileEnd : excess C (v.reconcileEnd C) = excess C v := by
  unfold reconcileEnd
  rw [excess_foldl _ fun v id => excess_untrack v id 0]
  exact excess_of_same rfl rfl

theorem excess_routeAck (m : OrderAckMsg) : excess C (v.routeAck C m) = excess C v := by
  unfold routeAck
  extract_lets cancelSent named acked v₁
  have h₁ : excess C v₁ = excess C v := by
    have hack : excess C acked = excess C v :=
      (excess_acknowledge named m.clOrdId m.hdr.exchTs).trans
        (excess_modifyOrder v m.clOrdId fun _ => rfl)
    simp only [v₁]
    clear_value acked
    cases v.orders.find m.clOrdId with
    | none => rfl
    | some o =>
      dsimp only
      split
      · rw [← hack, ← excess_untrack acked o.replaces m.hdr.exchTs]
        exact excess_modifyOrder _ m.clOrdId fun _ => rfl
      · exact hack
  clear_value v₁
  split
  · rw [excess_queueCancel, h₁]
  · exact h₁

theorem excess_routeCancelReject (m : OrderCancelRejectMsg) :
    excess C (v.routeCancelReject C m) = excess C v := by
  unfold routeCancelReject
  split
  · exact excess_untrack v m.clOrdId 0
  · rfl

theorem excess_fillTracked (m : FillMsg) : excess C (v.fillTracked C m) = excess C v := by
  unfold fillTracked
  split
  · rfl
  cases v.orders.find m.clOrdId with
  | none => rfl
  | some o =>
    dsimp only
    split
    · rw [excess_untrack, excess_acknowledge]
    · cases C.insts.index o.inst with
      | none => exact excess_acknowledge v m.clOrdId m.hdr.exchTs
      | some i => rw [excess_setLeaves, excess_setNotional, excess_acknowledge]

theorem excess_balanceFill (m : OrderFillMsg) (before after : Int) :
    excess C (v.balanceFill C m before after) = excess C v := by
  unfold balanceFill
  cases C.insts.index m.hdr.instrument with
  | none => rfl
  | some i =>
    refine excess_of_same ?_ rfl
    have hinst := BalanceBook.SameHolds.of_inst (inst_onFill v.balances
      m.hdr.instrument (C.insts.inst i) m.side m.price m.qty m.fee
      (if m.feeAsset = .invalid then .quote else m.feeAsset) before after m.hdr.exchTs .invalid)
    exact Amounts.ext rfl rfl (holdAt_of_same rfl hinst.sideHold hinst.derivative) hinst.unacked

theorem excess_routeFill (m : FillMsg) (booked : Option (Int × Int)) :
    excess C (v.routeFill C m booked) = excess C v := by
  cases booked with
  | none => exact excess_fillTracked v m
  | some b => rw [← excess_fillTracked v m]; exact excess_balanceFill _ _ b.1 b.2

/-! ## Outbound -/

theorem excess_giveUp : excess C (v.giveUp C id) = excess C v := by
  unfold giveUp
  cases v.orders.find id with
  | none => rfl
  | some o => rw [excess_dropResting, excess_setLeaves, excess_setNotional]

theorem excess_send (m : OutMsg) : excess C (v.send m) = excess C v :=
  excess_of_same rfl rfl

theorem excess_noteForwarded : excess C (v.noteForwarded id) = excess C v := excess_of_same rfl rfl

theorem excess_forwardNew (r : Route) (m : OutNewOrderMsg) (guards : Bool) :
    excess C (v.forwardNew C r m guards) = excess C v := by
  unfold forwardNew
  split
  · rfl
  next notional _ =>
    split
    · rfl
    rw [excess_send]
    have htrack := excess_track (C := C) (v.noteForwarded m.clOrdId) m.clOrdId
      (o := (v.noteForwarded m.clOrdId).newOrder r m notional) rfl
    rw [htrack, excess_noteForwarded]

theorem excess_forwardReplace (r : Route) (m : OutReplaceMsg)
    (guards : Bool) : excess C (v.forwardReplace C r m guards) = excess C v := by
  unfold forwardReplace
  dsimp only
  split
  · rfl
  next notional _ =>
    split
    · rfl
    have htrack := excess_track (C := C) ((v.giveUp C m.origClOrdId).noteForwarded m.clOrdId)
      m.clOrdId (o := ((v.giveUp C m.origClOrdId).noteForwarded m.clOrdId).replacement r m
        (v.orders.find m.origClOrdId) notional) rfl
    rw [excess_send, htrack, excess_noteForwarded, excess_giveUp]

theorem excess_forward (epoch : Nat) (m : OutMsg) (guards : Bool) :
    excess C (v.forward C epoch m guards) = excess C v := by
  unfold forward
  split
  · rfl
  cases m with
  | newOrder m => exact excess_forwardNew v _ m guards
  | replace m => exact excess_forwardReplace v _ m guards
  | cancel m => exact excess_of_same rfl rfl
  | control reconcile => cases reconcile <;> exact excess_of_same rfl rfl

/-! ## The reject of a replacement -/

/-- The notional the original of a rejected replacement has come to since it was replaced. -/
def lostNotional (m : OrderRejectMsg) : Int :=
  match v.orders.find m.clOrdId with
  | none => 0
  | some o =>
    if o.replaces.valid then ((v.orders.find o.replaces).map notional).getD 0 else 0

theorem excess_restoreReplaced : excess C (v.restoreReplaced C o) =
      excess C v + (((v.orders.find o.replaces).map notional).getD 0, 0, 0, 0) := by
  unfold restoreReplaced
  cases hfind : v.orders.find o.replaces with
  | none => exact (add_zero _).symm
  | some orig =>
    rw [excess_syncResting, excess_setLeaves]
    have horders := total_modify hfind
      (fun orig : GwOrder => { orig with notional := o.replacedNotional })
      (fun _ (o : GwOrder) => o.part C)
    have hpart : ({ orig with notional := o.replacedNotional } : GwOrder).part C =
        orig.part C + (o.replacedNotional - orig.notional, 0, 0, 0) :=
      Amounts.ext (add_sub_cancel _ _).symm (add_zero _).symm (add_zero _).symm (add_zero _).symm
    show (v.openNotional + o.replacedNotional, v.openQty, v.holdAt, v.balances.unackedAt) -
      (v.orders.modify o.replaces fun orig =>
        { orig with notional := o.replacedNotional }).total (fun _ o => o.part C) = _
    rw [horders, hpart]
    have htotals : (v.openNotional + o.replacedNotional, v.openQty, v.holdAt,
        v.balances.unackedAt) = v.totals + (o.replacedNotional - orig.notional, 0, 0, 0) +
          (orig.notional, 0, 0, 0) := by
      refine Amounts.ext ?_ ?_ ?_ ?_
      · show v.openNotional + o.replacedNotional =
          v.openNotional + (o.replacedNotional - orig.notional) + orig.notional
        omega
      · exact ((add_zero _).trans (add_zero _)).symm
      · exact ((add_zero _).trans (add_zero _)).symm
      · exact ((add_zero _).trans (add_zero _)).symm
    rw [htotals]
    unfold excess
    show _ = _ + (orig.notional, 0, 0, 0)
    abel

/-- The reject of a replacement leaves what the original had come to in the total. -/
theorem excess_routeReject (m : OrderRejectMsg) :
    excess C (v.routeReject C m) = excess C v + (v.lostNotional m, 0, 0, 0) := by
  unfold routeReject lostNotional
  rw [excess_untrack]
  cases v.orders.find m.clOrdId with
  | none => exact (add_zero _).symm
  | some o =>
    dsimp only
    split
    · exact excess_restoreReplaced v o
    · exact (add_zero _).symm

/-- What a step leaves in the total that no order has. -/
def lost : Op → Int
  | .reject m => v.lostNotional m
  | _ => 0

theorem excess_step (op : Op) : excess C (v.step C op) = excess C v + (v.lost op, 0, 0, 0) := by
  have hkeep : ∀ {w : VenueRouter}, excess C w = excess C v →
      excess C w = excess C v + (0, 0, 0, 0) := fun h => h.trans (add_zero _).symm
  cases op with
  | attach r => exact hkeep (excess_of_same rfl rfl)
  | detach epoch room => exact hkeep (excess_detach v epoch room)
  | trip => exact hkeep (excess_of_same rfl rfl)
  | kill =>
    refine hkeep ?_
    unfold step
    dsimp only
    split
    · exact excess_killVenue v
    · rfl
  | sendCancels room => exact hkeep (excess_sendCancels v room)
  | forward epoch m guards => exact hkeep (excess_forward v epoch m guards)
  | mark inst mid => exact hkeep (excess_of_same rfl rfl)
  | ack m => exact hkeep (excess_routeAck v m)
  | reject m => exact excess_routeReject v m
  | cancelAck m => exact hkeep (excess_untrack v m.clOrdId m.hdr.exchTs)
  | cancelReject m => exact hkeep (excess_routeCancelReject v m)
  | expired m => exact hkeep (excess_untrack v m.clOrdId m.hdr.exchTs)
  | fill m booked => exact hkeep (excess_routeFill v m booked)
  | reconcileBegin wm => exact hkeep (excess_reconcileBegin v wm)
  | reconcileRow m => exact hkeep (excess_reconcileRow v m)
  | reconcileEnd => exact hkeep (excess_reconcileEnd v)
  | balance m =>
    have hsame := sameHolds_onReport v.balances m
    refine hkeep (excess_of_same ?_ rfl)
    exact Amounts.ext rfl rfl (holdAt_of_same rfl hsame.sideHold hsame.derivative) hsame.unacked

/-! ## Runs -/

/-- The gateway's start, over a book that holds nothing. -/
def start (rows : List BalanceRow) (inst : Nat → Nat → BalanceInst) (nMembers : Nat → Nat)
    (venues : VenueId → BalanceVenue) (check : Bool) : VenueRouter :=
  { balances := .built rows inst nMembers venues check }

theorem excess_start (rows : List BalanceRow) (inst : Nat → Nat → BalanceInst)
    (nMembers : Nat → Nat) (venues : VenueId → BalanceVenue) (check : Bool) :
    excess C (start rows inst nMembers venues check) = 0 := by
  have hhold : (start rows inst nMembers venues check).holdAt = 0 := by
    funext i side
    unfold holdAt
    split <;> rfl
  exact (sub_zero _).trans (Amounts.ext rfl rfl hhold rfl)

/-- Every working total is the sum of the tracked orders' amounts. -/
structure Totals (C : GatewayConfig) (v : VenueRouter) : Prop where
  openNotional : v.openNotional = v.orders.total fun _ o => o.notional
  openQty : ∀ i side, C.underlying i = true →
    v.openQty i side =
      v.orders.total fun _ o => if o.inst.value = i ∧ o.side = side then o.leaves else 0
  hold : ∀ i side, i < kMaxInstruments →
    v.holdAt i side =
      v.orders.total fun _ o => if o.inst.value = i ∧ o.side = side then o.hold else 0
  unacked : ∀ i side, i < kMaxInstruments →
    v.balances.unackedAt i side =
      v.orders.total fun _ o =>
        if o.inst.value = i ∧ o.side = side then if o.acked then 0 else o.hold else 0
  none_tracked : v.orders.entries = [] →
    v.openNotional = 0 ∧ ∀ i side, (C.underlying i = true → v.openQty i side = 0) ∧
      (i < kMaxInstruments → v.holdAt i side = 0 ∧ v.balances.unackedAt i side = 0)

/-- A total of the parts is the total of what they say of one instrument and side. -/
theorem total_part (φ : Amounts →+ Int) {x : GwOrder → Int} (hpart : ∀ o, φ (o.part C) = x o) :
    φ (v.orders.total fun _ o => o.part C) = v.orders.total fun _ o => x o :=
  (map_total φ _ _).trans (congrArg _ (funext fun _ => funext hpart))

/-- An amount that is counted for all instruments but some, at one that is. -/
theorem counted_apply {c : Prop} [Decidable c] {i j : Nat} (hc : i = j → c) (side other : Side)
    (x : Int) : (if c then amountAt i side x else 0) j other =
      if i = j ∧ side = other then x else 0 := by
  split
  · exact amountAt_apply _ _ _ _ _
  next h => rw [if_neg fun hq => h (hc hq.1), Pi.zero_apply, Pi.zero_apply]

theorem total_leavesPart {i : Nat} (hund : C.underlying i = true) :
    (v.orders.total fun _ o => o.part C).2.1 i side =
      v.orders.total fun _ o => if o.inst.value = i ∧ o.side = side then o.leaves else 0 :=
  total_part v ⟨⟨fun a => a.2.1 i side, rfl⟩, fun _ _ => rfl⟩
    fun _ => counted_apply (fun hi => hi ▸ hund) _ _ _

theorem total_holdPart {i : Nat} (hi : i < kMaxInstruments) :
    (v.orders.total fun _ o => o.part C).2.2.1 i side =
      v.orders.total fun _ o => if o.inst.value = i ∧ o.side = side then o.hold else 0 :=
  total_part v ⟨⟨fun a => a.2.2.1 i side, rfl⟩, fun _ _ => rfl⟩
    fun _ => counted_apply (fun hq => hq ▸ hi) _ _ _

theorem total_unackedPart {i : Nat} (hi : i < kMaxInstruments) :
    (v.orders.total fun _ o => o.part C).2.2.2 i side =
      v.orders.total fun _ o =>
        if o.inst.value = i ∧ o.side = side then if o.acked then 0 else o.hold else 0 := by
  refine total_part v ⟨⟨fun a => a.2.2.2 i side, rfl⟩, fun _ _ => rfl⟩ fun o => ?_
  show o.unackedPart o.hold i side = _
  unfold unackedPart
  cases hacked : o.acked with
  | true =>
    rw [if_neg fun h => Bool.false_ne_true h.2.symm]
    simp
  | false => exact counted_apply (fun hq => ⟨hq ▸ hi, rfl⟩) _ _ _

theorem total_notionalPart :
    (v.orders.total fun _ o => o.part C).1 = v.orders.total fun _ o => o.notional := by
  let φ : Amounts →+ Int := ⟨⟨Prod.fst, rfl⟩, fun _ _ => rfl⟩
  exact map_total φ _ _

theorem totals_of_excess {v : VenueRouter} (h : excess C v = 0) : Totals C v := by
  have heq : v.totals = v.orders.total fun _ o => o.part C := sub_eq_zero.mp h
  refine ⟨?_, ?_, ?_, ?_, ?_⟩
  · exact (congrArg Prod.fst heq).trans (total_notionalPart v)
  · intro i side hund
    exact (congrArg (fun a : Amounts => a.2.1 i side) heq).trans (total_leavesPart v side hund)
  · intro i side hi
    exact (congrArg (fun a : Amounts => a.2.2.1 i side) heq).trans (total_holdPart v side hi)
  · intro i side hi
    exact (congrArg (fun a : Amounts => a.2.2.2 i side) heq).trans (total_unackedPart v side hi)
  intro hnone
  have hzero : v.totals = 0 := by
    rw [heq]
    unfold KeyedTable.total
    rw [hnone]
    rfl
  refine ⟨congrArg Prod.fst hzero, fun i side => ⟨fun _ => ?_, fun _ => ⟨?_, ?_⟩⟩⟩
  · exact congrArg (fun a : Amounts => a.2.1 i side) hzero
  · exact congrArg (fun a : Amounts => a.2.2.1 i side) hzero
  · exact congrArg (fun a : Amounts => a.2.2.2 i side) hzero

theorem excess_of_totals {v : VenueRouter} (h : Totals C v) : (excess C v).1 = 0 := by
  show v.openNotional - (v.orders.total fun _ o => o.part C).1 = 0
  rw [total_notionalPart, h.openNotional, sub_self]

/-- What the steps of a run leave in the total. -/
def lostBy (C : GatewayConfig) : VenueRouter → List Op → Int
  | _, [] => 0
  | v, op :: ops => v.lost op + lostBy C (v.step C op) ops

theorem excess_run : excess C (v.run C ops) = excess C v + (lostBy C v ops, 0, 0, 0) := by
  induction ops generalizing v with
  | nil => exact (add_zero _).symm
  | cons op ops ih =>
    show excess C ((v.step C op).run C ops) = _
    rw [ih, excess_step, add_assoc]
    rfl

theorem lostBy_concat (op : Op) :
    lostBy C v (ops ++ [op]) = lostBy C v ops + (v.run C ops).lost op := by
  induction ops generalizing v with
  | nil =>
    show v.lost op + 0 = 0 + v.lost op
    omega
  | cons a ops ih =>
    show v.lost a + lostBy C (v.step C a) (ops ++ [op]) = _
    rw [ih, ← add_assoc]
    rfl

/-- The original of a rejected replacement has no notional of its own when the reject comes: no
execution, row or other reject has given it one since it was replaced. -/
def Restores (op : Op) : Prop :=
  ∀ m o orig, op = .reject m → v.orders.find m.clOrdId = some o → o.replaces.valid = true →
    v.orders.find o.replaces = some orig → orig.notional = 0

theorem lost_eq_zero_iff {v : VenueRouter} {op : Op} : v.lost op = 0 ↔ v.Restores op := by
  cases op with
  | reject m =>
    show v.lostNotional m = 0 ↔ _
    unfold lostNotional
    cases hfind : v.orders.find m.clOrdId with
    | none =>
      refine iff_of_true rfl ?_
      rintro m' o orig hop ho
      cases hop
      simp [hfind] at ho
    | some o =>
      dsimp only
      constructor
      · rintro h m' o' orig hop ho hvalid horig
        cases hop
        rw [hfind] at ho
        cases ho
        rw [if_pos hvalid, horig] at h
        exact h
      · intro h
        split
        next hvalid =>
          cases horig : v.orders.find o.replaces with
          | none => rfl
          | some orig => exact h m o orig rfl hfind hvalid horig
        · rfl
  | _ => exact iff_of_true rfl fun _ _ _ hop => by cases hop

variable {rows : List BalanceRow} {inst : Nat → Nat → BalanceInst} {nMembers : Nat → Nat}
  {venues : VenueId → BalanceVenue} {check : Bool}

theorem totals_run_iff : Totals C ((start rows inst nMembers venues check).run C ops) ↔
      lostBy C (start rows inst nMembers venues check) ops = 0 := by
  have hexcess := excess_run (C := C) (start rows inst nMembers venues check) ops
  rw [excess_start, zero_add] at hexcess
  constructor
  · intro h
    have hzero := excess_of_totals h
    rw [hexcess] at hzero
    exact hzero
  · intro h
    rw [h] at hexcess
    exact totals_of_excess hexcess

/-- The totals equal the tracked orders in every state of a run exactly when every replacement's
reject finds its original with no notional of its own. -/
theorem totals_iff_restores :
    (∀ pre, pre <+: ops → Totals C ((start rows inst nMembers venues check).run C pre)) ↔
      ∀ pre op, pre ++ [op] <+: ops →
        ((start rows inst nMembers venues check).run C pre).Restores op := by
  constructor
  · intro h pre op hpre
    have hbefore := (totals_run_iff _).mp (h pre ((List.prefix_append pre [op]).trans hpre))
    have hafter := (totals_run_iff _).mp (h (pre ++ [op]) hpre)
    rw [lostBy_concat, hbefore, zero_add] at hafter
    exact lost_eq_zero_iff.mp hafter
  · intro h pre hpre
    refine (totals_run_iff _).mpr ?_
    induction pre using List.reverseRecOn with
    | nil => rfl
    | append_singleton pre op ih =>
      rw [lostBy_concat, ih ((List.prefix_append pre [op]).trans hpre),
        lost_eq_zero_iff.mpr (h pre op hpre), add_zero]

/-- In every run the working quantities and the holds are those of the tracked orders; the notional
is theirs and what the rejects of replacements have left in it. -/
theorem quantities_always_total (C : GatewayConfig) (rows : List BalanceRow)
    (inst : Nat → Nat → BalanceInst) (nMembers : Nat → Nat) (venues : VenueId → BalanceVenue)
    (check : Bool) (ops : List Op) :
    let v := (start rows inst nMembers venues check).run C ops
    v.openNotional = (v.orders.total fun _ o => o.notional) +
        lostBy C (start rows inst nMembers venues check) ops ∧
      ∀ i side,
        (C.underlying i = true → v.openQty i side =
          v.orders.total fun _ o => if o.inst.value = i ∧ o.side = side then o.leaves else 0) ∧
        (i < kMaxInstruments → (v.holdAt i side =
            v.orders.total fun _ o => if o.inst.value = i ∧ o.side = side then o.hold else 0) ∧
          v.balances.unackedAt i side = v.orders.total fun _ o =>
            if o.inst.value = i ∧ o.side = side then if o.acked then 0 else o.hold else 0) := by
  intro v
  have hexcess : excess C v = _ := excess_run (C := C) (start rows inst nMembers venues check) ops
  rw [excess_start, zero_add] at hexcess
  have heq := eq_add_of_sub_eq hexcess
  refine ⟨?_, fun i side => ⟨fun hund => ?_, fun hi => ⟨?_, ?_⟩⟩⟩
  · rw [← total_notionalPart (C := C) v, Int.add_comm]
    exact congrArg Prod.fst heq
  · rw [← total_leavesPart v side hund]
    exact (congrArg (fun a : Amounts => a.2.1 i side) heq).trans (zero_add _)
  · rw [← total_holdPart (C := C) v side hi]
    exact (congrArg (fun a : Amounts => a.2.2.1 i side) heq).trans (zero_add _)
  · rw [← total_unackedPart (C := C) v side hi]
    exact (congrArg (fun a : Amounts => a.2.2.2 i side) heq).trans (zero_add _)

/-- One linear instrument, no limits. -/
def oneInstrument : GatewayConfig where
  insts := ⟨1, by decide, fun _ => {}⟩

/-- A perpetual whose margin rate is not known. -/
def onePerpetual : VenueRouter :=
  start [] (fun _ _ => { derivative := true }) (fun _ => 0) (fun _ => {}) true

/-- An order of two is replaced, executes one at its old price before the venue has the replace,
and the replace is rejected; then it is canceled. -/
def executedWhileReplaced : List Op :=
  let old : ClientOrderId := ⟨2 ^ 32 + 1⟩
  let new : ClientOrderId := ⟨2 ^ 32 + 2⟩
  let hdr : EventHeader := { instrument := ⟨0⟩ }
  [.attach { epoch := 1, claims := fun _ => true },
    .forward 1 (.newOrder { hdr := hdr, clOrdId := old, price := 10 ^ 8, qty := 2 * 10 ^ 8 }) true,
    .ack { hdr := hdr, clOrdId := old },
    .forward 1 (.replace
      { hdr := hdr, clOrdId := new, origClOrdId := old, price := 2 * 10 ^ 8, qty := 2 * 10 ^ 8 })
      true,
    .fill { hdr := hdr, clOrdId := old, qty := 10 ^ 8, leavesQty := 10 ^ 8 } none,
    .reject { hdr := hdr, clOrdId := new },
    .cancelAck { hdr := hdr, clOrdId := old }]

/-- The notional of the execution's rest stays in the total for good. -/
theorem not_totals_executedWhileReplaced :
    ¬Totals oneInstrument (onePerpetual.run oneInstrument executedWhileReplaced) := by
  intro h
  have hrun : (onePerpetual.run oneInstrument executedWhileReplaced).orders.entries.length = 0 ∧
      (onePerpetual.run oneInstrument executedWhileReplaced).openNotional = 10 ^ 8 := by
    decide +kernel
  have hzero := (h.none_tracked (List.eq_nil_of_length_eq_zero hrun.1)).1
  rw [hrun.2] at hzero
  exact absurd hzero (by decide)

end VenueRouter

end FastMM.Gateway
