/-
  Gateway/VenueRouter.lean --- one venue's router of the gateway: the orders it tracks.

  Source: `src/live/gateway.cpp` (`GwOrder`, `VenueRouter` and the network thread's functions on
  its order table: `queue_cancel` to `untrack`, `route_reconcile`, `route_fill`, `route_order`,
  `track`, `forward`, `send_cancels`, `kill_venue`, and `detach`).

  An event acts on the router alone here: what it pushes to the strategies' rings and what the
  account books of an execution stand elsewhere.  `guards` is what the checks after the open
  notional say of an order (rate, exposure, underlying, balance); `booked` is the account's
  position before and after an execution it books for the first time.
-/
import FastMM.Balance.BalanceBook
import FastMM.Foundation.KeyedTable
import FastMM.Gateway.RestingOrders
import FastMM.Oms.State
set_option autoImplicit false

namespace FastMM

open Function

def clOrdIdEpoch (id : ClientOrderId) : Nat := id.value / 2 ^ 32 % 2 ^ 16

namespace Gateway

open Foundation Balance

/-! ## Messages -/

structure OutNewOrderMsg where
  hdr : EventHeader := {}
  clOrdId : ClientOrderId
  price : Price := 0
  qty : Qty := 0
  side : Side := .buy
  type : OrderType := .limit
  tif : TimeInForce := .gtc
  reduceOnly : Bool := false
  deriving DecidableEq, Repr

structure OutReplaceMsg where
  hdr : EventHeader := {}
  clOrdId : ClientOrderId
  origClOrdId : ClientOrderId
  venueOrderId : VenueOrderId := .nil
  price : Price := 0
  qty : Qty := 0
  deriving DecidableEq, Repr

structure OutCancelMsg where
  hdr : EventHeader := {}
  clOrdId : ClientOrderId
  venueOrderId : VenueOrderId := .nil
  deriving DecidableEq, Repr

/-- What an attachment sends, and what the venue's ring holds. -/
inductive OutMsg where
  | newOrder (m : OutNewOrderMsg)
  | replace (m : OutReplaceMsg)
  | cancel (m : OutCancelMsg)
  | control (reconcile : Bool)
  deriving DecidableEq, Repr

/-- `OrderFillMsg`, with the working quantity the venue reports after it. -/
structure FillMsg extends OrderFillMsg where
  leavesQty : Qty := 0
  unresolved : Bool := false
  deriving DecidableEq, Repr

/-- `ReconcileMsg` of kind `OpenOrder`. -/
structure OpenOrderMsg where
  hdr : EventHeader := {}
  clOrdId : ClientOrderId
  venueOrderId : VenueOrderId := .nil
  side : Side := .buy
  price : Price := 0
  origQty : Qty := 0
  cumQty : Qty := 0
  deriving DecidableEq, Repr

/-! ## State -/

/-- `GwOrder`; its flags one field for each bit. -/
structure GwOrder where
  inst : InstrumentId := .invalid
  epoch : Nat := 0
  cancelSent : Bool := false
  rests : Bool := false
  reduceOnly : Bool := false
  acked : Bool := false
  side : Side := .buy
  price : Price := 0
  notional : Int := 0
  replacedNotional : Int := 0
  leaves : Qty := 0
  replacedLeaves : Qty := 0
  hold : Int := 0
  g : Nat := 0
  gen : UInt32 := 0
  replaces : ClientOrderId := .invalid
  venueOrderId : VenueOrderId := .nil

structure CancelReq where
  id : ClientOrderId
  inst : InstrumentId
  venueOrderId : VenueOrderId
  deriving DecidableEq, Repr

/-- `Route`, what decides where an event goes and what may be sent. -/
structure Route where
  epoch : Nat
  claims : Nat → Bool
  snapshotPending : Bool := false
  inSnapshot : Bool := false

/-- What the gateway is configured with; `underlying` says that `[gateway.underlying]` is on and
the instrument has an underlying. -/
structure GatewayConfig where
  insts : InstrumentTable
  shared : Nat → Bool := fun _ => false
  underlying : Nat → Bool := fun _ => false
  maxOpenNotional : Int := 0
  dryRun : Bool := false

def kHistory : Nat := 2 ^ 14

def kOrderTable : Nat := 2 ^ 14

/-- `VenueRouter`, and of the `Account` the open quantities (`open`) and the trip.

`held` is not in the source: the changes `move_hold` made, summed for each instrument and side. -/
structure VenueRouter where
  routes : List Route := []
  hist : Nat → ClientOrderId := fun _ => .invalid
  forwarded : Nat := 0
  orders : KeyedTable ClientOrderId GwOrder := .empty
  openNotional : Int := 0
  snapBounded : Bool := false
  snapKnown : Bool := false
  snapP : Nat := 0
  gen : UInt32 := 0
  sweepPending : Bool := false
  cancels : List CancelReq := []
  killed : Bool := false
  tripped : Bool := false
  openQty : Nat → Side → Int := fun _ _ => 0
  balances : BalanceBook := {}
  held : Nat → Side → Int := fun _ _ => 0
  resting : Nat → RestingOrders := fun _ => {}
  mid : Nat → Option Price := fun _ => none
  outbound : List OutMsg := []

/-- The value at an instrument and a side moves. -/
def bump (f : Nat → Side → Int) (i : Nat) (side : Side) (d : Int) : Nat → Side → Int :=
  update f i (update (f i) side (f i side + d))

/-- `shared(id)`. -/
def GatewayConfig.isShared (C : GatewayConfig) (id : InstrumentId) : Bool :=
  decide (id.value < kMaxInstruments) && C.shared id.value

namespace VenueRouter

variable (C : GatewayConfig)
variable (v : VenueRouter)
variable (id : ClientOrderId)
variable (o : GwOrder)
variable (r : Route)
variable (inst : InstrumentId)
variable (sentWatermark : Option ClientOrderId)
variable (ts : Timestamp)

def byEpoch : Option Route :=
  if clOrdIdEpoch id = 0 then none else v.routes.find? fun r => r.epoch = clOrdIdEpoch id

def modifyOrder (f : GwOrder → GwOrder) : VenueRouter :=
  { v with orders := v.orders.modify id f }

/-! ## One order's amounts -/

def queueCancel (voi : VenueOrderId) :
    VenueRouter :=
  let v := v.modifyOrder id fun o => { o with cancelSent := true }
  { v with cancels := v.cancels ++ [⟨id, inst, voi⟩] }

def cancelOnce (voi : VenueOrderId) :
    VenueRouter :=
  if ((v.orders.find id).map GwOrder.cancelSent).getD false then v else v.queueCancel id inst voi

def addLeaves (d : Int) : VenueRouter :=
  if d = 0 ∨ C.underlying o.inst.value = false then v
  else { v with openQty := bump v.openQty o.inst.value o.side d }

/-- `BalanceBook::move_hold`, as the gateway calls it. -/
def moveHold (after : Int) (ts : Timestamp) : VenueRouter :=
  { v with
    balances := v.balances.moveHold o.inst o.side o.hold after ts (!o.acked) .invalid
    held := if kMaxInstruments ≤ o.inst.value then v.held
      else bump v.held o.inst.value o.side (after - o.hold) }

/-- The price `sync_hold` values an order at. -/
def holdPrice : Price :=
  if 0 < o.price then o.price else (v.mid o.inst.value).getD o.price

def syncHold : VenueRouter :=
  match v.orders.find id with
  | none => v
  | some o =>
    match C.insts.index o.inst with
    | none => v
    | some i =>
      let h := v.balances.hold o.inst (C.insts.inst i) o.side (v.holdPrice o) o.leaves
        o.reduceOnly .invalid
      if h = o.hold then v
      else (v.moveHold o h ts).modifyOrder id fun o => { o with hold := h }

def acknowledge : VenueRouter :=
  match v.orders.find id with
  | none => v
  | some o =>
    if o.acked then v
    else
      let v := v.modifyOrder id fun o => { o with acked := true }
      { v with balances := v.balances.acknowledge o.inst o.side o.hold ts .invalid }

def setLeaves (leaves : Qty) (ts : Timestamp) :
    VenueRouter :=
  match v.orders.find id with
  | none => v
  | some o =>
    let v := v.addLeaves C o (leaves - o.leaves)
    let v := v.modifyOrder id fun o => { o with leaves := leaves }
    v.syncHold C id ts

/-- An order's working notional becomes `n`, and the total follows it. -/
def setNotional (n : Int) : VenueRouter :=
  match v.orders.find id with
  | none => v
  | some o =>
    { v.modifyOrder id fun o => { o with notional := n } with
      openNotional := v.openNotional + (n - o.notional) }

def dropResting : VenueRouter :=
  if C.isShared o.inst then
    { v with
      resting := update v.resting o.inst.value ((v.resting o.inst.value).remove id o.side) }
  else v

def syncResting : VenueRouter :=
  if C.isShared o.inst then
    if o.rests = true ∧ 0 < o.leaves then
      { v with
        resting := update v.resting o.inst.value
          ((v.resting o.inst.value).set id o.side o.price o.epoch) }
    else v.dropResting C id o
  else v

def untrack : VenueRouter :=
  match v.orders.find id with
  | none => v
  | some o =>
    let v := v.dropResting C id o
    let v := { v with openNotional := v.openNotional - o.notional }
    let v := v.addLeaves C o (-o.leaves)
    let v := if o.hold ≠ 0 then v.moveHold o 0 ts else v
    { v with orders := v.orders.erase id }

/-- `track`: the order joins the table, unless its id is there or the table full. -/
def track : VenueRouter :=
  if h : v.orders.find id = none then
    if v.orders.size < kOrderTable then
      let v := { v with
        orders := v.orders.add id o h, openNotional := v.openNotional + o.notional }
      let v := v.addLeaves C o o.leaves
      let v := v.syncResting C id o
      v.syncHold C id 0
    else v
  else v

/-! ## Reconciliations -/

/-- The forward indices a history still holds, newest first. -/
def kept (upto : Nat) : List Nat :=
  let lo := v.forwarded - kHistory
  (List.range' (lo + 1) (upto - lo)).reverse

/-- Where a Begin's sent watermark stands among what was forwarded. -/
def searchWatermark : VenueRouter :=
  match sentWatermark with
  | none => v
  | some wm =>
    if !wm.valid then { v with snapKnown := true }
    else
      match (v.kept v.forwarded).find? fun j => v.hist ((j - 1) % kHistory) = wm with
      | none => v
      | some j => { v with snapKnown := true, snapP := j }

/-- `route_reconcile`, a Begin; `sentWatermark` is absent without `kSentWatermark`. -/
def reconcileBegin : VenueRouter :=
  let v := { v with
    gen := v.gen + 1, snapBounded := sentWatermark.isSome, snapKnown := false, snapP := 0 }
  let v := v.searchWatermark sentWatermark
  let all := !(v.routes.any Route.snapshotPending) && !v.sweepPending
  { v with
    sweepPending := false
    routes := v.routes.map fun r =>
      if all || r.snapshotPending then { r with snapshotPending := false, inSnapshot := true }
      else r }

/-- The order a row reports of an attached strategy, which the table does not hold. -/
def rowOrder (i : Instrument) (epoch : Nat) (m : OpenOrderMsg) : GwOrder :=
  let leaves := m.origQty - m.cumQty
  { inst := m.hdr.instrument, epoch := epoch, side := m.side, price := m.price
    notional := if 0 < leaves then i.notional m.price leaves else 0
    leaves := if 0 < leaves then leaves else 0
    g := 1, gen := v.gen, venueOrderId := m.venueOrderId, rests := true, acked := true }

/-- What a row says of an order the table holds. -/
def rowTracked (m : OpenOrderMsg) : VenueRouter :=
  match v.orders.find m.clOrdId with
  | none => v
  | some _ =>
    let v := v.modifyOrder m.clOrdId fun o =>
      { o with
        gen := v.gen
        venueOrderId := if m.venueOrderId.empty then o.venueOrderId else m.venueOrderId }
    let leaves := m.origQty - m.cumQty
    match C.insts.index m.hdr.instrument with
    | none => v
    | some i =>
      if 0 < leaves then
        (v.setNotional m.clOrdId ((C.insts.inst i).notional m.price leaves)).setLeaves C
          m.clOrdId leaves 0
      else v

/-- `route_reconcile`, an OpenOrder row. -/
def reconcileRow (m : OpenOrderMsg) : VenueRouter :=
  let v := v.rowTracked C m
  match v.byEpoch m.clOrdId with
  | some r =>
    let v := match C.insts.index m.hdr.instrument with
      | none => v
      | some i => v.track C m.clOrdId (v.rowOrder (C.insts.inst i) r.epoch m)
    if v.killed then v.cancelOnce m.clOrdId m.hdr.instrument m.venueOrderId else v
  | none => v.queueCancel m.clOrdId m.hdr.instrument m.venueOrderId

/-- The tracked orders a finished snapshot no longer holds. -/
def gone : List ClientOrderId :=
  if v.snapBounded && !v.snapKnown then []
  else
    (v.orders.entries.filter fun e =>
      e.2.gen ≠ v.gen && (!v.snapBounded || decide (e.2.g ≤ v.snapP))).map Prod.fst

/-- `route_reconcile`, an End. -/
def reconcileEnd : VenueRouter :=
  let v := { v with routes := v.routes.map fun r : Route => { r with inSnapshot := false } }
  v.gone.foldl (fun v id => v.untrack C id 0) v

/-! ## Order events -/

/-- `route_order`, an OrderAck. -/
def routeAck (m : OrderAckMsg) : VenueRouter :=
  let cancelSent := ((v.orders.find m.clOrdId).map GwOrder.cancelSent).getD false
  let v := match v.orders.find m.clOrdId with
    | none => v
    | some o =>
      let v := v.modifyOrder m.clOrdId fun o => { o with venueOrderId := m.venueOrderId }
      let v := v.acknowledge m.clOrdId m.hdr.exchTs
      if o.replaces.valid then
        (v.untrack C o.replaces m.hdr.exchTs).modifyOrder m.clOrdId fun o =>
          { o with replaces := .invalid }
      else v
  if ((v.byEpoch m.clOrdId).isNone || v.killed) && !cancelSent then
    v.queueCancel m.clOrdId m.hdr.instrument m.venueOrderId
  else v

/-- What the reject of a replacement gives the original back. -/
def restoreReplaced : VenueRouter :=
  match v.orders.find o.replaces with
  | none => v
  | some orig =>
    let v := v.modifyOrder o.replaces fun orig => { orig with notional := o.replacedNotional }
    let v := { v with openNotional := v.openNotional + o.replacedNotional }
    let v := v.setLeaves C o.replaces o.replacedLeaves 0
    v.syncResting C o.replaces { orig with leaves := o.replacedLeaves }

/-- `route_order`, an OrderReject. -/
def routeReject (m : OrderRejectMsg) : VenueRouter :=
  let v := match v.orders.find m.clOrdId with
    | none => v
    | some o => if o.replaces.valid then v.restoreReplaced C o else v
  v.untrack C m.clOrdId 0

/-- `route_order`, an OrderCancelReject. -/
def routeCancelReject (m : OrderCancelRejectMsg) : VenueRouter :=
  if m.reason = .venueUnknownOrder then v.untrack C m.clOrdId 0 else v

def balanceFill (m : OrderFillMsg) (before after : Int) : VenueRouter :=
  match C.insts.index m.hdr.instrument with
  | none => v
  | some i =>
    let feeAsset := if m.feeAsset = .invalid then .quote else m.feeAsset
    { v with
      balances := v.balances.onFill m.hdr.instrument (C.insts.inst i) m.side m.price m.qty m.fee
        feeAsset before after m.hdr.exchTs .invalid }

/-- `route_fill`, an execution's part in the order table. -/
def fillTracked (m : FillMsg) : VenueRouter :=
  if m.replayed then v
  else
    match v.orders.find m.clOrdId with
    | none => v
    | some o =>
      let v := v.acknowledge m.clOrdId m.hdr.exchTs
      if m.leavesQty = 0 then v.untrack C m.clOrdId m.hdr.exchTs
      else
        match C.insts.index o.inst with
        | none => v
        | some i =>
          (v.setNotional m.clOrdId ((C.insts.inst i).notional o.price m.leavesQty)).setLeaves C
            m.clOrdId m.leavesQty m.hdr.exchTs

def routeFill (m : FillMsg) (booked : Option (Int × Int)) : VenueRouter :=
  let v := v.fillTracked C m
  match booked with
  | none => v
  | some (before, after) => v.balanceFill C m.toOrderFillMsg before after

/-! ## Outbound -/

/-- The first checks of `check_order`: the sender trades the instrument, no trip, no trade with
another attachment's resting order, the notional working at the venue. -/
def checkOrder (side : Option Side) (px : Price)
    (qty : Qty) (market : Bool) (replaced : Int) : Option Int :=
  match C.insts.index inst with
  | none => none
  | some i =>
    let crosses := C.isShared inst && [Side.buy, Side.sell].any fun s =>
      (side.isNone || side = some s) && (v.resting inst.value).crosses r.epoch s px market
    let n := (C.insts.inst i).notional px qty
    if !r.claims inst.value || v.tripped || crosses then none
    else if 0 < C.maxOpenNotional ∧ C.maxOpenNotional < v.openNotional - replaced + n then none
    else some n

def noteForwarded : VenueRouter :=
  { v with
    hist := update v.hist (v.forwarded % kHistory) id, forwarded := v.forwarded + 1 }

def send (m : OutMsg) : VenueRouter := { v with outbound := v.outbound ++ [m] }

/-- The order `forward` tracks for a New. -/
def newOrder (m : OutNewOrderMsg) (notional : Int) : GwOrder :=
  { inst := m.hdr.instrument, epoch := r.epoch, side := m.side, price := m.price
    notional := notional, leaves := m.qty
    rests := decide (m.type ≠ .market ∧ (m.tif = .gtc ∨ m.tif = .day))
    reduceOnly := m.reduceOnly, g := v.forwarded }

/-- `forward`, a New. -/
def forwardNew (m : OutNewOrderMsg) (guards : Bool) : VenueRouter :=
  match v.checkOrder C r m.hdr.instrument (some m.side) m.price m.qty (m.type = .market) 0 with
  | none => v
  | some notional =>
    if !guards then v
    else
      let v := v.noteForwarded m.clOrdId
      (v.track C m.clOrdId (v.newOrder r m notional)).send (.newOrder m)

/-- A replaced order's amounts move to its replacement. -/
def giveUp : VenueRouter :=
  match v.orders.find id with
  | none => v
  | some orig => ((v.setNotional id 0).setLeaves C id 0 0).dropResting C id orig

/-- The order `forward` tracks for a Replace of `orig`. -/
def replacement (m : OutReplaceMsg) (orig : Option GwOrder)
    (notional : Int) : GwOrder :=
  { inst := m.hdr.instrument, epoch := r.epoch, price := m.price, notional := notional
    side := (orig.map GwOrder.side).getD .buy
    rests := (orig.map GwOrder.rests).getD true
    reduceOnly := (orig.map GwOrder.reduceOnly).getD false
    replaces := m.origClOrdId
    replacedNotional := (orig.map GwOrder.notional).getD 0
    leaves := m.qty
    replacedLeaves := (orig.map GwOrder.leaves).getD 0
    venueOrderId := m.venueOrderId, g := v.forwarded }

/-- `forward`, a Replace. -/
def forwardReplace (m : OutReplaceMsg) (guards : Bool) :
    VenueRouter :=
  let orig := v.orders.find m.origClOrdId
  match v.checkOrder C r m.hdr.instrument (orig.map GwOrder.side) m.price m.qty false
      ((orig.map GwOrder.notional).getD 0) with
  | none => v
  | some notional =>
    if !guards then v
    else
      let v := v.giveUp C m.origClOrdId
      let v := v.noteForwarded m.clOrdId
      (v.track C m.clOrdId (v.replacement r m orig notional)).send (.replace m)

/-- `forward`, the next message of the attachment with session epoch `epoch`. -/
def forward (epoch : Nat) (m : OutMsg) (guards : Bool) : VenueRouter :=
  match v.routes.find? fun r => r.epoch = epoch with
  | none => v
  | some r =>
    match m with
    | .newOrder m => v.forwardNew C r m guards
    | .replace m => v.forwardReplace C r m guards
    | .cancel m => v.send (.cancel m)
    | .control reconcile =>
      let v := if reconcile then
          { v with
            routes := v.routes.map fun r =>
              if r.epoch = epoch then { r with snapshotPending := true } else r }
        else v
      v.send (.control reconcile)

/-- The message `send_cancels` pushes for a request. -/
def CancelReq.msg (c : CancelReq) : OutMsg :=
  .cancel { hdr := { instrument := c.inst }, clOrdId := c.id, venueOrderId := c.venueOrderId }

/-- `send_cancels`; `room` says of each request whether the ring takes it. -/
def sendCancels (room : Nat → Bool) : VenueRouter :=
  let todo := v.cancels.zipIdx
  { v with
    cancels := (todo.filter fun c => !room c.2).map Prod.fst
    outbound := v.outbound ++ (todo.filter fun c => room c.2).map fun c => CancelReq.msg c.1 }

def killVenue : VenueRouter :=
  let v := { v with killed := true }
  if C.dryRun then v
  else
    let v := v.orders.entries.foldl (fun v e => v.cancelOnce e.1 e.2.inst e.2.venueOrderId) v
    { v with sweepPending := true }

/-! ## Attachments -/

/-- `attach`, what it does to the router's routes. -/
def attach : VenueRouter :=
  { v with routes := v.routes ++ [{ r with snapshotPending := true, inSnapshot := false }] }

/-- `detach`, on the network thread. -/
def detach (epoch : Nat) (room : Nat → Bool) : VenueRouter :=
  let v := { v with routes := v.routes.eraseP fun r => r.epoch = epoch }
  if C.dryRun then v
  else
    let mine := v.orders.entries.filter fun e => e.2.epoch = epoch && !e.2.cancelSent
    let v := mine.foldl (fun v e => v.queueCancel e.1 e.2.inst e.2.venueOrderId) v
    { v.sendCancels room with sweepPending := true }

/-! ## Runs -/

/-- One thing that happens at the router. -/
inductive Op where
  | attach (r : Route)
  | detach (epoch : Nat) (room : Nat → Bool)
  | trip
  | kill
  | sendCancels (room : Nat → Bool)
  | forward (epoch : Nat) (m : OutMsg) (guards : Bool)
  | mark (inst : Nat) (mid : Option Price)
  | ack (m : OrderAckMsg)
  | reject (m : OrderRejectMsg)
  | cancelAck (m : OrderCancelAckMsg)
  | cancelReject (m : OrderCancelRejectMsg)
  | expired (m : OrderExpiredMsg)
  | fill (m : FillMsg) (booked : Option (Int × Int))
  | reconcileBegin (sentWatermark : Option ClientOrderId)
  | reconcileRow (m : OpenOrderMsg)
  | reconcileEnd
  | balance (m : BalanceMsg)

/-- The hook sees a trip once; every other event is its handler's. -/
def step : Op → VenueRouter
  | .attach r => v.attach r
  | .detach epoch room => v.detach C epoch room
  | .trip => { v with tripped := true }
  | .kill => if v.tripped && !v.killed then v.killVenue C else v
  | .sendCancels room => v.sendCancels room
  | .forward epoch m guards => v.forward C epoch m guards
  | .mark inst mid => { v with mid := update v.mid inst mid }
  | .ack m => v.routeAck C m
  | .reject m => v.routeReject C m
  | .cancelAck m => v.untrack C m.clOrdId m.hdr.exchTs
  | .cancelReject m => v.routeCancelReject C m
  | .expired m => v.untrack C m.clOrdId m.hdr.exchTs
  | .fill m booked => v.routeFill C m booked
  | .reconcileBegin sentWatermark => v.reconcileBegin sentWatermark
  | .reconcileRow m => v.reconcileRow C m
  | .reconcileEnd => v.reconcileEnd C
  | .balance m => { v with balances := v.balances.onReport m }

def run (ops : List Op) : VenueRouter := ops.foldl (step C) v

end VenueRouter

end Gateway

end FastMM
