/-
  Oms/Handlers.lean --- the operations of `Oms`.

  Source: `include/fastmm/core/oms.hpp`.

  Every member function of the source is a function from the state to the state,
  with the update it fills in where it fills one in.  A reference into the pool
  (`Order& o`) is the order read from its slot, and each assignment through it is
  written back with `setOrder` before anything else reads the pool.

  `pool_.get(h)` asserts that the slot is live.  `withOrder` returns the update
  unchanged on a dead slot; `Oms/IdMap.lean` proves that the id map never names
  one.
-/
import FastMM.Oms.State
set_option autoImplicit false

namespace FastMM

open Foundation

namespace Oms

/-! ## Field updates -/

variable (s : Oms)
variable (m : OrderFillMsg)
variable (id : ClientOrderId)
variable (h : Nat)
variable (o : Order)
variable (u : OmsUpdate)
variable (i : InstrumentId)
variable (venue : VenueId)
variable (e : Estimate)
variable (side : Side)
variable (r : TerminalRecord)
variable (qty : Qty)
variable (req : NewOrderRequest)
variable (newId : ClientOrderId)
variable (px : Price)

def get : Option Order := s.pool.slots h

/-- An assignment through a reference into the pool. -/
def setOrder : Oms :=
  { s with pool := s.pool.set h o }

/-- `open_qty_[i][side] += d`. -/
def addOpenQty (d : Qty) : Oms :=
  { s with
    openQty := fun i' side' =>
      if i' = i.value ∧ side' = side then s.openQty i' side' + d else s.openQty i' side' }

/-- `best_own_[i][side] = px`. -/
def setBestOwn : Oms :=
  { s with
    bestOwn := fun i' side' =>
      if i' = i.value ∧ side' = side then px else s.bestOwn i' side' }

/-- `estimates_[h] = e`. -/
def setEstimate : Oms :=
  { s with estimates := Function.update s.estimates h e }

/-- `times_[h] = t`. -/
def setTimes (t : TimesSlot) : Oms :=
  { s with times := Function.update s.times h t }

/-- A change of `stats_`. -/
def withStats (f : OmsStats → OmsStats) : Oms := { s with stats := f s.stats }

/-! ## Queries -/

/-- `next_cl_ord_id`: an invalid id once the session's sequence is used up. -/
def nextClOrdId : Oms × ClientOrderId :=
  if s.maxSeq ≤ s.seq then (s, .invalid)
  else ({ s with seq := s.seq + 1 }, ⟨s.epoch * 2 ^ 32 + (s.seq + 1) % 2 ^ 32⟩)

def openCount : Nat := s.stats.opened

/-- `open_count(InstrumentId)`. -/
def openCountOf : Nat := s.openPerInst i.value

/-- `open_qty(InstrumentId, Side)`. -/
def openQtyOf : Qty := s.openQty i.value side

/-- `best_own_px(InstrumentId, Side)`. -/
def bestOwnPx : Price := s.bestOwn i.value side

/-- The slots `for_each_open_order(InstrumentId)` visits, in its order. -/
def openOrdersOf : List Nat :=
  (s.byInst.forEach (BucketBits.bucket kMaxInstruments i.value)).filter fun h =>
    match s.get h with
    | some o => o.instrument == i
    | none => false

/-! ## `ids_` -/

/-- `open_handle`: the pool slot of the open order an id names. -/
def openHandle : Handle :=
  match s.ids.find id with
  | some (.opened h) => some h
  | _ => none

/-- `add_open`: `none` when the map is full. -/
def addOpen : Option Oms :=
  (s.ids.assign id (.opened h)).map fun ids => { s with ids := ids }

/-- `drop_open`: unmaps an id that names an open order. -/
def dropOpen : Oms :=
  match s.ids.find id with
  | some (.opened _) => { s with ids := s.ids.erase id }
  | _ => s

def terminalRef (pos : Nat) : IdRef := .terminal (pos % kRecentlyTerminal)

/-- `terminal_pos`: the ring position an id's terminal reference stands for, the
next position (where nothing is) when it has none. -/
def terminalPos : Nat :=
  match s.ids.find id with
  | some (.terminal v) =>
    let head := s.recentlyTerminal.head
    head + (v + (kRecentlyTerminal - head % kRecentlyTerminal)) % kRecentlyTerminal
  | _ => s.recentlyTerminal.tail

def findTerminal : Option TerminalRecord :=
  s.recentlyTerminal.atPos (s.terminalPos id)

/-- An assignment through `find_terminal`. -/
def setTerminal : Oms :=
  { s with recentlyTerminal := s.recentlyTerminal.setPos (s.terminalPos id) r }

/-- `lookup`: the slot of an open order; the update says whether the id is known
and, for a recently terminal one, what it was. -/
def lookup : Handle × OmsUpdate :=
  match s.ids.find id with
  | none => (none, u)
  | some (.opened h) => (some h, { u with known := true, handle := some h })
  | some (.terminal _) =>
    match s.findTerminal id with
    | some r =>
      (none, { u with
        known := true
        order := { u.order with
          clOrdId := r.clOrdId
          instrument := r.instrument
          venue := r.venue
          side := r.side
          state := r.state
          price := r.price
          qty := r.qty
          cumQty := r.cumQty
          flags := { u.order.flags with
            reconciled := u.order.flags.reconciled || r.byReconcile } } })
    | none => (none, u)

/-- `remember_terminal`: the oldest record leaves a full ring, and an estimate it
still held is reported. -/
def rememberTerminal (u : OmsUpdate) : Oms × OmsUpdate :=
  let (s, u) :=
    if s.recentlyTerminal.full then
      let gone := s.recentlyTerminal.front
      let (s, u) :=
        if 0 < gone.estimate.qty then
          (s.withStats fun st => { st with
              syntheticForgotten := st.syntheticForgotten + 1
              syntheticPending := st.syntheticPending - 1 },
            { u with forgottenQty := gone.estimate.qty, forgottenId := gone.clOrdId })
        else (s, u)
      -- An id names its newest record: unmap it only if that is the one leaving.
      if s.ids.find gone.clOrdId = some (terminalRef s.recentlyTerminal.head) then
        ({ s with ids := s.ids.erase gone.clOrdId }, u)
      else (s, u)
    else (s, u)
  let ids := (s.ids.assign r.clOrdId (terminalRef s.recentlyTerminal.tail)).getD s.ids
  ({ s with ids := ids, recentlyTerminal := s.recentlyTerminal.push r }, u)

/-! ## Synthetic fills waiting to be named -/

/-- `note_synthetic` on the estimate of an open order. -/
def noteSynthetic : Oms :=
  let e := s.estimates h
  let s :=
    if 0 < e.qty then s
    else s.withStats fun st => { st with syntheticPending := st.syntheticPending + 1 }
  s.setEstimate h ⟨e.qty + qty, px⟩

/-- The quantity `take_synthetic` takes out of an estimate. -/
def takenQty : Qty := if qty < e.qty then qty else e.qty

/-- The estimate `take_synthetic` leaves. -/
def takenRest : Estimate :=
  if 0 < e.qty - takenQty e qty then { e with qty := e.qty - takenQty e qty } else {}

/-- The counters `take_synthetic` moves. -/
def takenStats (st : OmsStats) : OmsStats :=
  { st with
    correctedFills := st.correctedFills + 1
    syntheticPending :=
      if 0 < e.qty - takenQty e qty then st.syntheticPending else st.syntheticPending - 1 }

/-- `take_synthetic`: takes up to `qty` of the order's outstanding estimate into
the update, from the open order `h`, else from the recently terminal `id`. -/
def takeSynthetic (h : Handle) (id : ClientOrderId) (qty : Qty) (u : OmsUpdate) :
    Oms × OmsUpdate :=
  match h with
  | some h =>
    let e := s.estimates h
    if 0 < e.qty then
      ((s.setEstimate h (takenRest e qty)).withStats (takenStats e qty),
        { u with correctedQty := takenQty e qty, syntheticPx := e.price })
    else (s, u)
  | none =>
    match s.findTerminal id with
    | some r =>
      let e := r.estimate
      if 0 < e.qty then
        ((s.setTerminal id { r with estimate := takenRest e qty }).withStats (takenStats e qty),
          { u with correctedQty := takenQty e qty, syntheticPx := e.price })
      else (s, u)
    | none => (s, u)

/-- `absorb_cum`: a venue message carries more cumulative quantity than the fills
booked; the difference is reported as missed and kept as an estimate. -/
def absorbCum (reported : Qty) (u : OmsUpdate) :
    Oms × Order × OmsUpdate :=
  let cum := if o.qty < reported then o.qty else reported
  if cum ≤ o.cumQty then (s, o, u)
  else
    let diff := cum - o.cumQty
    let o' := { o with cumQty := cum }
    let s := (s.addOpenQty o.instrument o.side (-diff)).setOrder h o'
    let s := s.withStats fun st => { st with missedFills := st.missedFills + 1 }
    (s.noteSynthetic h diff o.price, o',
      { u with missedQty := u.missedQty + diff, changed := true })

/-! ## Ends and replaces -/

def finishUpdate : OmsUpdate :=
  { u with order := o, handle := some h, times := (s.times h).t, slot := some h }

/-- One step of the scan in `recompute_best_own`. -/
def scanBest (inst : InstrumentId) (side : Side) (best : Price) (h : Nat) : Price :=
  match s.get h with
  | some o =>
    if o.side ≠ side ∨ o.instrument ≠ inst then best
    else if best = 0 ∨ better side o.price best = true then o.price else best
  | none => best

/-- `recompute_best_own`: scans the instrument's live orders. -/
def recomputeBestOwn (inst : InstrumentId) (side : Side) : Oms :=
  s.setBestOwn inst side ((s.byInst.forEach (BucketBits.bucket kMaxInstruments inst.value)).foldl
      (s.scanBest inst side) 0)

/-- The terminal record of an order. -/
def recordOf (state : OrderState) (byReconcile : Bool) (e : Estimate) :
    TerminalRecord where
  clOrdId := o.clOrdId
  price := o.price
  qty := o.qty
  cumQty := o.cumQty
  instrument := o.instrument
  venue := o.venue
  state := state
  side := o.side
  byReconcile := byReconcile
  estimate := e

def clearPending : Oms × Order :=
  let s :=
    if o.pendingClOrdId.valid ∧ o.pendingClOrdId ≠ o.clOrdId then s.dropOpen o.pendingClOrdId
    else s
  let o := { o with
    pendingClOrdId := .invalid
    pendingPrice := 0
    pendingQty := 0
    flags := { o.flags with replaceOldCanceled := false } }
  (s.setOrder h o, o)

/-- `terminate`: the order ends, its record takes its estimate, its slot is free. -/
def terminate (h : Nat) (o : Order) (finalState : OrderState)
    (byReconcile : Bool := false) : Oms × OmsUpdate :=
  let o := { o with state := finalState }
  let s := s.withStats fun st => { st with
    canceled := if finalState = .canceled then st.canceled + 1 else st.canceled
    opened := st.opened - 1 }
  let s := { s with
    openPerInst := fun i =>
      if i = o.instrument.value then s.openPerInst i - 1 else s.openPerInst i }
  let s := s.addOpenQty o.instrument o.side (-o.leavesQty)
  let s :=
    if o.pendingClOrdId.valid ∧ o.pendingClOrdId ≠ o.clOrdId then s.dropOpen o.pendingClOrdId
    else s
  let (s, u) := s.rememberTerminal (recordOf o finalState byReconcile (s.estimates h)) u
  let s := s.setEstimate h {}
  let u := { u with
    order := o
    handle := none
    times := (s.times h).t
    slot := some h
    changed := true
    terminal := true }
  let s := { s with
    byInst := s.byInst.clear (BucketBits.bucket kMaxInstruments o.instrument.value) h
    pool := s.pool.free h }
  if o.price = s.bestOwn o.instrument.value o.side then
    (s.recomputeBestOwn o.instrument o.side, u)
  else (s, u)

/-- The order `apply_replace` leaves: the replacement's terms, and its cumulative
quantity from zero when it is a new venue order. -/
def replacedOrder (rekey newVenueOrder : Bool) : Order :=
  let cum := if newVenueOrder then 0 else o.cumQty
  let cum := if o.pendingQty < cum then o.pendingQty else cum
  { o with
    clOrdId := if rekey then o.pendingClOrdId else o.clOrdId
    price := o.pendingPrice
    qty := o.pendingQty
    cumQty := cum
    pendingClOrdId := .invalid
    pendingPrice := 0
    pendingQty := 0
    flags := { o.flags with replaceOldCanceled := false }
    state := if cum = 0 then .live else .partiallyFilled }

/-- `apply_replace`.  `rekey`: the replacement carries a new client id.
`newVenueOrder`: it is a different order on the venue. -/
def applyReplace (h : Nat) (o : Order) (rekey newVenueOrder : Bool) :
    Oms × Order × OmsUpdate :=
  let s := s.addOpenQty o.instrument o.side (-o.leavesQty)
  let e := s.estimates h
  let (s, u) :=
    if rekey ∧ newVenueOrder ∧ 0 < e.qty then
      -- The old leg keeps a terminal record, so that its executions correct the
      -- estimate rather than add to it; the new leg starts with none.
      let ended := if o.qty ≤ o.cumQty then OrderState.filled else OrderState.canceled
      let (s, u) := s.rememberTerminal (recordOf o ended false e) u
      (s.setEstimate h {}, u)
    else (s, u)
  let s := if rekey then s.dropOpen o.clOrdId else s
  let oldPx := o.price
  let o := replacedOrder o rekey newVenueOrder
  let s := (s.addOpenQty o.instrument o.side o.leavesQty).setOrder h o
  let best := s.bestOwn o.instrument.value o.side
  let s :=
    if best = 0 ∨ better o.side o.price best = true then s.setBestOwn o.instrument o.side o.price
    else if oldPx = best then s.recomputeBestOwn o.instrument o.side
    else s
  (s, o, u)

/-! ## Outbound -/

/-- The order `submit` writes into its slot. -/
def submittedOrder (id : ClientOrderId) (now : Timestamp) : Order where
  clOrdId := id
  instrument := req.instrument
  venue := req.venue
  side := req.side
  type := req.type
  tif := req.tif
  flags := { postOnly := req.postOnly, reduceOnly := req.reduceOnly }
  state := .pendingNew
  price := req.price
  qty := req.qty
  created := now
  userTag := req.userTag

def submit (id : ClientOrderId) (now : Timestamp) :
    Oms × Except RejectReason Nat :=
  if kMaxInstruments ≤ req.instrument.value then (s, .error .instrumentDisabled)
  else if (s.openHandle id).isSome then (s, .error .duplicateId)
  else
    match s.pool.allocate with
    | none => (s, .error .poolExhausted)
    | some (h, pool) =>
      let s := { s with pool := pool }
      match s.addOpen id h with
      | none => ({ s with pool := s.pool.free h }, .error .poolExhausted)
      | some s =>
        let o := submittedOrder req id now
        let s := { s with
          byInst := s.byInst.set (BucketBits.bucket kMaxInstruments o.instrument.value) h }
        let s := s.setOrder h o
        let s := (s.setTimes h ⟨⟨now, 0, 0⟩, 0⟩).setEstimate h {}
        let s := s.withStats fun st => { st with
          submitted := st.submitted + 1
          opened := st.opened + 1 }
        let s := { s with
          openPerInst := fun i =>
            if i = o.instrument.value then s.openPerInst i + 1 else s.openPerInst i }
        let s := s.addOpenQty o.instrument o.side o.qty
        let best := s.bestOwn o.instrument.value o.side
        let s :=
          if best = 0 ∨ better o.side o.price best = true then
            s.setBestOwn o.instrument o.side o.price
          else s
        (s, .ok h)

def requestCancel : Oms × Except RejectReason Unit :=
  match s.get h with
  | none => (s, .error .unknownOrder)
  | some o =>
    if o.isWorking then (s.setOrder h { o with state := .pendingCancel }, .ok ())
    else (s, .error .invalidState)

/-- `request_cancel_unacked`: the ack-timeout sweep's cancel. -/
def requestCancelUnacked : Oms × Except RejectReason Unit :=
  match s.get h with
  | none => (s, .error .unknownOrder)
  | some o =>
    if o.state = .pendingNew then (s.setOrder h { o with state := .pendingCancel }, .ok ())
    else (s, .error .invalidState)

/-- The order `request_replace` leaves. -/
def pendingOrder (qty : Qty) : Order :=
  { o with
    pendingClOrdId := newId
    pendingPrice := px
    pendingQty := qty
    state := .pendingReplace }

/-- `request_replace`.  `newId` is the current id where the venue amends in
place. -/
def requestReplace (qty : Qty)
    (now : Timestamp) : Oms × Except RejectReason Unit :=
  match s.get h with
  | none => (s, .error .unknownOrder)
  | some o =>
    if o.isWorking then
      if newId ≠ o.clOrdId then
        if (s.openHandle newId).isSome then (s, .error .duplicateId)
        else
          match s.addOpen newId h with
          | none => (s, .error .poolExhausted)
          | some s =>
            let s := s.setOrder h (pendingOrder o newId px qty)
            (s.setTimes h { s.times h with replaceSent := now }, .ok ())
      else
        let s := s.setOrder h (pendingOrder o newId px qty)
        (s.setTimes h { s.times h with replaceSent := now }, .ok ())
    else (s, .error .invalidState)

/-! ## Inbound -/

/-- The lookup every inbound handler begins with: `closed` for an id that names
no open order, `opened` with the slot and its order otherwise. -/
def withOrder
    (closed : OmsUpdate → Oms × OmsUpdate)
    (opened : Nat → Order → OmsUpdate → Oms × OmsUpdate) : Oms × OmsUpdate :=
  match s.lookup id u with
  | (none, u) => closed u
  | (some h, u) =>
    match s.get h with
    | some o => opened h o { u with prev := o.state }
    | none => (s, u)

/-- The state of an order whose cancel or replace did not go through. -/
def workingState : OrderState :=
  if o.cumQty = 0 then .live else .partiallyFilled

/-- `on_ack` for an id that names no open order. -/
def onAckClosed : Oms × OmsUpdate :=
  if !u.known then
    (s.withStats fun st => { st with unknownIds := st.unknownIds + 1 },
      { u with action := .cancelUnknown })
  else if u.order.flags.reconciled then (s, { u with action := .cancelUnknown })
  else (s, { u with action := .ignored })

/-- `on_ack` for an open order. -/
def onAckOpen (m : OrderAckMsg) (h : Nat) (o : Order) (u : OmsUpdate) :
    Oms × OmsUpdate :=
  match o.state with
  | .pendingNew =>
    let o := { o with state := .live, venueOrderId := m.venueOrderId }
    let s := (s.setOrder h o).withStats fun st => { st with acked := st.acked + 1 }
    let t := s.times h
    let s := s.setTimes h
      { t with t := { t.t with venueAck := m.hdr.exchTs, localAck := m.hdr.recvTs } }
    (s, s.finishUpdate h o { u with changed := true })
  | .pendingReplace =>
    -- Only the replacement's ack completes it; a repeat of the original id's
    -- ack while a replace to a new id is in flight is a duplicate.
    if m.clOrdId = o.pendingClOrdId then
      let oldId := o.clOrdId
      let rekey : Bool := o.pendingClOrdId ≠ o.clOrdId
      let newVenueOrder := rekey && !m.amendedInPlace
      let (s, o, u) := s.applyReplace u h o rekey newVenueOrder
      let u := if o.clOrdId ≠ oldId then { u with replacedClOrdId := oldId } else u
      let o := { o with venueOrderId := m.venueOrderId }
      let s := s.setOrder h o
      let t := s.times h
      let s := s.setTimes h { t with t := ⟨t.replaceSent, m.hdr.exchTs, m.hdr.recvTs⟩ }
      (s, s.finishUpdate h o { u with changed := true })
    else (s, s.finishUpdate h o { u with action := .ignored })
  | _ =>
    -- A venue that answers twice may put its time on either ack.
    let t := s.times h
    let s :=
      if m.clOrdId = o.clOrdId ∧ t.t.venueAck = 0 then
        s.setTimes h { t with t := { t.t with venueAck := m.hdr.exchTs } }
      else s
    (s, s.finishUpdate h o { u with action := .ignored })

def onAck (m : OrderAckMsg) : Oms × OmsUpdate :=
  s.withOrder m.clOrdId {} s.onAckClosed (s.onAckOpen m)

/-- `on_reject` for an open order. -/
def onRejectOpen (m : OrderRejectMsg) (h : Nat) (o : Order) (u : OmsUpdate) :
    Oms × OmsUpdate :=
  if o.state = .pendingNew then
    let o := { o with rejectReason := m.reason }
    let s := s.withStats fun st => { st with rejected := st.rejected + 1 }
    s.terminate { u with refused := m.reason } h o .rejected
  else if o.state = .pendingReplace ∧ m.clOrdId = o.pendingClOrdId then
    let u := { u with refused := m.reason }
    if o.flags.replaceOldCanceled then
      let (s, o) := s.clearPending h o
      s.terminate u h o .canceled
    else
      let (s, o) := s.clearPending h o
      let o := { o with state := workingState o }
      let s := s.setOrder h o
      (s, s.finishUpdate h o { u with changed := true })
  else (s, s.finishUpdate h o { u with action := .ignored })

def onReject (m : OrderRejectMsg) : Oms × OmsUpdate :=
  s.withOrder m.clOrdId {} (fun u => (s, { u with action := .ignored })) (s.onRejectOpen m)

/-- `on_cancel_ack` for an open order. -/
def onCancelAckOpen (m : OrderCancelAckMsg) (h : Nat) (o : Order) (u : OmsUpdate) :
    Oms × OmsUpdate :=
  let (s, o, u) := s.absorbCum h o m.cumQty u
  if o.state = .pendingReplace ∧ m.clOrdId = o.clOrdId then
    -- Old leg of a cancel-then-new replace: wait for the new leg's ack/reject.
    let o := { o with flags := { o.flags with replaceOldCanceled := true } }
    let s := s.setOrder h o
    (s, s.finishUpdate h o u)
  else if o.qty ≤ o.cumQty then
    -- The cancel raced a fill that finished the order: it is Filled, not Canceled.
    let s := s.withStats fun st => { st with filled := st.filled + 1 }
    s.terminate u h o .filled
  else if o.state ≠ .pendingCancel then
    let o := { o with flags := { o.flags with unsolicitedCancel := true } }
    let s := s.withStats fun st => { st with unsolicitedCancels := st.unsolicitedCancels + 1 }
    s.terminate u h o .canceled
  else s.terminate u h o .canceled

def onCancelAck (m : OrderCancelAckMsg) : Oms × OmsUpdate :=
  s.withOrder m.clOrdId {} (fun u => (s, { u with action := .ignored })) (s.onCancelAckOpen m)

/-- `on_cancel_reject` for an open order. -/
def onCancelRejectOpen (m : OrderCancelRejectMsg) (h : Nat) (o : Order)
    (u : OmsUpdate) : Oms × OmsUpdate :=
  if o.state ≠ .pendingCancel then (s, s.finishUpdate h o { u with action := .ignored })
  else if m.reason = .venueUnknownOrder then
    -- The venue has no such order: it is gone (filled or cancelled elsewhere).
    s.terminate u h o .canceled
  else
    let o := { o with state := workingState o, cancelAttempts := o.cancelAttempts + 1 }
    let u := if 3 < o.cancelAttempts then { u with action := .reconcileNeeded } else u
    let s := s.setOrder h o
    (s, s.finishUpdate h o { u with changed := true })

def onCancelReject (m : OrderCancelRejectMsg) : Oms × OmsUpdate :=
  s.withOrder m.clOrdId {} (fun u => (s, { u with action := .ignored })) (s.onCancelRejectOpen m)

/-- The key `remember_exec` files an execution under: its id on that instrument
and side, not the order it names. -/
def execKey : UInt64 :=
  m.execId.hash ^^^ (UInt64.ofNat m.hdr.instrument.value <<< 1) ^^^
    (UInt64.ofNat m.side.code * 0x9E3779B97F4A7C15)

/-- The part of an execution `on_fill` takes for an estimate being named: all of
a replayed one, the part at or below the booked cumulative quantity of a live
one; without a cumulative quantity only an order that has ended can tell.
`none`: nothing is asked for. -/
def namedQty (ended : Bool) (booked : Qty) : Option Qty :=
  if m.replayed = false ∧ 0 < m.cumQty then
    let covered := booked - (m.cumQty - m.qty)
    let covered := if m.qty < covered then m.qty else covered
    if 0 < covered then some covered else none
  else if m.replayed ∨ ended then some m.qty
  else none

/-- The cumulative quantity of a terminal record after a late fill. -/
def lateCum (corrected : Qty) : Qty :=
  let fresh := m.qty - corrected
  let cum := if 0 < m.cumQty then m.cumQty else r.cumQty + fresh
  if r.qty < cum then r.qty else cum

/-- `late_fill`: the terminal record takes the quantity of a fill that arrives
after its order ended, and an order the fill completes is Filled. -/
def lateFill : Oms × OmsUpdate :=
  match s.findTerminal m.clOrdId with
  | none => (s, u)
  | some r =>
    let u := { u with prev := r.state }
    let cum := lateCum m r u.correctedQty
    if cum ≤ r.cumQty then (s, u)
    else
      let completes : Bool := r.qty ≤ cum ∧ (r.state = .canceled ∨ r.state = .expired)
      let r := { r with
        cumQty := cum
        state := if completes then .filled else r.state }
      let s := s.setTerminal m.clOrdId r
      let s := s.withStats fun st => { st with
        filled := if completes then st.filled + 1 else st.filled }
      (s, { u with
        order := { u.order with cumQty := r.cumQty, state := r.state }
        changed := true })

/-- The cumulative quantity of an open order after a fill. -/
def filledCum (corrected : Qty) : Qty :=
  let fresh := m.qty - corrected
  let cum := if 0 < m.cumQty then m.cumQty else o.cumQty + fresh
  -- out-of-order cum: never go backwards
  let cum := if cum < o.cumQty then o.cumQty else cum
  if o.qty < cum then o.qty else cum

/-- `on_fill` for an open order, after `take_synthetic`. -/
def onFillOpen :
    Oms × OmsUpdate :=
  let cum := filledCum m o u.correctedQty
  let s := s.addOpenQty o.instrument o.side (-(cum - o.cumQty))
  let o := { o with
    cumQty := cum
    venueOrderId := if o.venueOrderId.empty then m.venueOrderId else o.venueOrderId }
  let s := s.setOrder h o
  let u := { u with changed := true }
  if o.qty ≤ o.cumQty then
    let s := s.withStats fun st => { st with filled := st.filled + 1 }
    s.terminate u h o .filled
  else
    let o := { o with
      state := if o.state = .live ∨ o.state = .pendingNew then .partiallyFilled else o.state }
    let s := s.setOrder h o
    (s, s.finishUpdate h o u)

/-- The estimate an execution names, taken from the order before the execution
is applied. -/
def takeNamed (h : Handle) (u : OmsUpdate) : Oms × OmsUpdate :=
  if s.stats.syntheticPending ≠ 0 ∧ u.known = true then
    let booked :=
      match h with
      | some h => ((s.get h).map (·.cumQty)).getD 0
      | none => u.order.cumQty
    match namedQty m h.isNone booked with
    | some qty => s.takeSynthetic h m.clOrdId qty u
    | none => (s, u)
  else (s, u)

/-- `on_fill` after the execution was found to be new. -/
def onFillNew : Oms × OmsUpdate :=
  let (h, u) := s.lookup m.clOrdId u
  let (s, u) := s.takeNamed m h u
  let s := s.withStats fun st => { st with fills := st.fills + 1 }
  match h with
  | none =>
    if u.known then
      let s := s.withStats fun st => { st with lateFills := st.lateFills + 1 }
      s.lateFill m { u with action := .lateFill }
    else
      (s.withStats fun st => { st with unknownIds := st.unknownIds + 1 },
        { u with action := .unknownFill })
  | some h =>
    match s.get h with
    | some o => s.onFillOpen m h o { u with prev := o.state }
    | none => (s, u)

def onFill : Oms × OmsUpdate :=
  let u : OmsUpdate := { fillQty := m.qty, fillPx := m.price }
  if m.execId.empty then s.onFillNew m u
  else
    let (new, seen) := s.execSeen.assign (execKey m)
    let s := { s with execSeen := seen }
    if new then s.onFillNew m u
    else
      (s.withStats fun st => { st with duplicates := st.duplicates + 1 },
        { u with action := .duplicate })

/-- `on_expired` for an open order. -/
def onExpiredOpen (m : OrderExpiredMsg) (h : Nat) (o : Order) (u : OmsUpdate) :
    Oms × OmsUpdate :=
  let (s, o, u) := s.absorbCum h o m.cumQty u
  if o.qty ≤ o.cumQty then
    -- an IOC that filled completely is Filled, not Expired
    let s := s.withStats fun st => { st with filled := st.filled + 1 }
    s.terminate u h o .filled
  else
    let s := s.withStats fun st => { st with expired := st.expired + 1 }
    s.terminate u h o .expired

def onExpired (m : OrderExpiredMsg) : Oms × OmsUpdate :=
  s.withOrder m.clOrdId {} (fun u => (s, { u with action := .ignored })) (s.onExpiredOpen m)

/-! ## Reconciliation -/

def inScope : Bool := !venue.valid || o.venue == venue

/-- One order of the pass in `reconcile_begin`. -/
def clearSeen (s : Oms) (h : Nat) : Oms :=
  match s.get h with
  | some o =>
    if inScope o venue then
      s.setOrder h { o with flags := { o.flags with seenInReconcile := false } }
    else s
  | none => s

def reconcileBegin (sentWatermark : Option ClientOrderId) : Oms :=
  let scope : ReconcileScope := {
    bounded := sentWatermark.isSome
    watermark := sentWatermark.getD .invalid }
  let s := { s with reconScope := Function.update s.reconScope venue.value scope }
  s.pool.liveHandles.foldl (clearSeen venue) s

/-- `reconcile_open_order` for an open order. -/
def reconcileOpenOrderOpen (m : ReconcileMsg) (h : Nat) (o : Order) (u : OmsUpdate) :
    Oms × OmsUpdate :=
  let o := { o with
    flags := { o.flags with seenInReconcile := true, reconciled := true }
    venueOrderId :=
      if !o.venueOrderId.empty || !m.venueOrderId.empty then m.venueOrderId
      else o.venueOrderId }
  let s := s.setOrder h o
  let (s, o, u) := s.absorbCum h o m.cumQty u
  -- The venue has it, so a new order was accepted; a cancel or replace stays pending.
  if o.state = .pendingNew then
    let o := { o with state := workingState o }
    let s := s.setOrder h o
    (s, s.finishUpdate h o { u with changed := true })
  else (s, s.finishUpdate h o u)

def reconcileOpenOrder (m : ReconcileMsg) : Oms × OmsUpdate :=
  s.withOrder m.clOrdId {}
    (fun u => (s.withStats fun st => { st with unknownIds := st.unknownIds + 1 },
      { u with action := .cancelUnknown }))
    (s.reconcileOpenOrderOpen m)

/-- An order `reconcile_end` ends: the snapshot did not report it, and it was
sent when the snapshot was requested. -/
def unseen (h : Nat) : Bool :=
  match s.get h with
  | some o =>
    inScope o venue && !o.flags.seenInReconcile && !((s.reconScope venue.value).bounded &&
        decide ((s.reconScope venue.value).watermark.value < o.clOrdId.value))
  | none => false

/-- One order of the second pass in `reconcile_end`, before its callback. -/
def reconcileEndOne : Option (Oms × OmsUpdate) :=
  match s.get h with
  | none => none
  | some o =>
    let u : OmsUpdate := { prev := o.state, known := true }
    let o := { o with flags := { o.flags with reconciled := true } }
    let (s, u) :=
      if 0 < o.leavesQty then
        (s.withStats fun st => { st with reconcileUnresolved := st.reconcileUnresolved + 1 },
          { u with unresolvedQty := o.leavesQty })
      else (s, u)
    some (s.terminate u h o .canceled true)

end Oms

end FastMM
