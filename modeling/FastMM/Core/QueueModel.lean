/-
  Core/QueueModel.lean --- the queue of a resting order in a recorded market.

  Source: `include/fastmm/core/queue_model.hpp`.

  A function of the source that calls back for each fill takes the callback here, over the model
  and whatever state its owner has beside it.
-/
import FastMM.Book.L2Book
set_option autoImplicit false

namespace FastMM

open Function

def kMaxQueuedOrders : Nat := 4096

/-! ## Steps for one order -/

/-- `queue_after_trade`: what is still ahead, and what reaches the order. -/
def queueAfterTrade (ahead : Qty) (side : Side) (price : Price) (leaves : Qty) (px : Price)
    (qty : Qty) (aggressor : Side) : Qty × Qty :=
  if side ≠ aggressor.opposite ∨ leaves = 0 then (ahead, 0)
  else if better aggressor px price = true then (0, min qty leaves)
  else if px ≠ price then (ahead, 0)
  else if ahead < qty then (0, min (qty - ahead) leaves)
  else (ahead - qty, 0)

inductive L3Reach where
  | none
  | ahead
  | fills
  deriving DecidableEq, Repr

def l3ExecutionReaches (side : Side) (price : Price) (prio : Nat) (rPx : Price) (rPrio : Nat)
    (execPx : Price) : L3Reach :=
  let reached := atOrBetter side price execPx
  if reached && (better side price rPx || (decide (price = rPx) && decide (prio < rPrio))) then
    .fills
  else if price = rPx ∧ rPrio < prio then .ahead
  else .none

def levelAfterPrint (shown : Qty) (side : Side) (px printPx : Price) (printQty : Qty)
    (aggressor : Side) : Qty :=
  if aggressor = side then shown
  else if better aggressor printPx px = true then 0
  else if printPx ≠ px then shown
  else if shown ≤ printQty then 0 else shown - printQty

/-! ## The orders -/

structure QueuedOrder where
  clOrdId : ClientOrderId := .invalid
  orderId : Nat := 0
  price : Price := 0
  qty : Qty := 0
  cumQty : Qty := 0
  ahead : Qty := 0
  placed : Timestamp := 0
  view : Timestamp := 0
  crossed : Qty := 0
  prio : Nat := 0
  instrument : InstrumentId := .invalid
  side : Side := .buy
  deriving DecidableEq, Repr, Inhabited

def QueuedOrder.leaves (o : QueuedOrder) : Qty := o.qty - o.cumQty

structure QueuePositionModel where
  conservatismBps : Int := 10000
  byInst : BucketBits kMaxQueuedOrders 256 := .empty
  pool : Pool QueuedOrder kMaxQueuedOrders := .empty
  byId : ClientOrderId → Option Nat := fun _ => none

namespace QueuePositionModel

variable (inst : InstrumentId)
variable (h : Nat)

def create (conservatismBps : Int) : QueuePositionModel where
  conservatismBps := max 0 (min 10000 conservatismBps)

variable (q : QueuePositionModel)

/-- An order's slot is written. -/
def put (o : QueuedOrder) : QueuePositionModel := { q with pool := q.pool.set h o }

/-- `place`: `none` for the invalid handle. -/
def place (id : ClientOrderId) (orderId : Nat) (inst : InstrumentId) (side : Side) (px : Price)
    (qty levelQty : Qty) (placed view : Timestamp) : Option (Nat × QueuePositionModel) :=
  if (q.byId id).isSome = true then none
  else
    match q.pool.allocate with
    | none => none
    | some (h, pool) =>
      let o : QueuedOrder :=
        { clOrdId := id
          orderId := orderId
          price := px
          qty := qty
          ahead := levelQty
          placed := placed
          view := view
          instrument := inst
          side := side }
      some (h, { q with
          pool := pool.set h o
          byId := update q.byId id (some h)
          byInst := q.byInst.set (BucketBits.bucket 256 inst.value) h })

def get : QueuedOrder := (q.pool.slots h).getD default

/-- `for_each` of an instrument: its orders in ascending slots. -/
def onInst : List Nat :=
  (q.byInst.forEach (BucketBits.bucket 256 inst.value)).filter fun h =>
    match q.pool.slots h with
    | none => false
    | some o => decide (o.instrument = inst)

/-- `for_each_mut` with a function that writes the order it visits. -/
def updateEach (f : QueuedOrder → QueuedOrder) : QueuePositionModel :=
  (q.onInst inst).foldl (fun q h => q.put h (f (q.get h))) q

/-- What is left ahead when so much of it goes. -/
def lessAhead (ahead qty : Qty) : Qty := if qty < ahead then ahead - qty else 0

end QueuePositionModel

/-! ## Fills -/

/-- The callback of a fill: the slot, the order with the fill in its `cum_qty`, the quantity and
what was ahead. -/
abbrev OnFill (σ : Type) : Type :=
  Nat → QueuedOrder → Qty → Qty → QueuePositionModel × σ → QueuePositionModel × σ

namespace QueuePositionModel

variable {σ : Type} (f : OnFill σ)

/-- The order of the slot takes the fill, and the callback hears of it. -/
def fillSlot (h : Nat) (o : QueuedOrder) (fill ahead : Qty) (st : QueuePositionModel × σ) :
    QueuePositionModel × σ :=
  let o := { o with cumQty := o.cumQty + fill }
  f h o fill ahead (st.1.put h o, st.2)

/-- The loop of `on_l3_execute`. -/
def l3Fills : List Nat → Qty → QueuePositionModel × σ → QueuePositionModel × σ
  | [], _, st => st
  | h :: hs, left, st =>
    if ¬ 0 < left then st
    else
      match st.1.pool.slots h with
      | none => l3Fills hs left st
      | some o =>
        let fill := min left o.leaves
        if ¬ 0 < fill then l3Fills hs left st
        else l3Fills hs (left - fill) (fillSlot f h { o with ahead := 0 } fill o.ahead st)

def onL3Execute (inst : InstrumentId) (side : Side) (px execPx : Price) (qty : Qty) (prio : Nat)
    (ts : Timestamp) (st : QueuePositionModel × σ) : QueuePositionModel × σ :=
  let q := st.1
  let reach (o : QueuedOrder) : L3Reach := l3ExecutionReaches side o.price o.prio px prio execPx
  let hs := (q.onInst inst).filter fun h =>
    decide ((q.get h).side = side ∧ reach (q.get h) = .fills ∧ (q.get h).placed ≤ ts)
  let q := q.updateEach inst fun o =>
    if o.side = side ∧ reach o = .ahead then { o with ahead := lessAhead o.ahead qty } else o
  let sooner (a b : Nat) : Bool :=
    if (q.get a).price ≠ (q.get b).price then better side (q.get a).price (q.get b).price
    else decide ((q.get a).prio < (q.get b).prio)
  l3Fills f (hs.mergeSort fun a b => !sooner b a) qty (q, st.2)

/-- The loop of `on_trade`. -/
def tradeFills (px : Price) (aggressor : Side) :
    List Nat → Qty → QueuePositionModel × σ → QueuePositionModel × σ
  | [], _, st => st
  | h :: hs, left, st =>
    match st.1.pool.slots h with
    | none => tradeFills px aggressor hs left st
    | some o =>
      let (ahead, fill) := queueAfterTrade o.ahead o.side o.price o.leaves px left aggressor
      if 0 < fill then
        tradeFills px aggressor hs (left - fill)
          (fillSlot f h { o with ahead := ahead } fill o.ahead st)
      else tradeFills px aggressor hs left (st.1.put h { o with ahead := ahead }, st.2)

def onTrade (inst : InstrumentId) (px : Price) (qty : Qty) (aggressor : Side) (ts : Timestamp)
    (st : QueuePositionModel × σ) : QueuePositionModel × σ :=
  let q := st.1
  let maker := aggressor.opposite
  let hs := (q.onInst inst).filter fun h =>
    decide ((q.get h).placed ≤ ts ∧ (q.get h).side = maker)
  let q := q.updateEach inst fun o =>
    if ts < o.placed ∧ o.view < ts then
      { o with ahead := levelAfterPrint o.ahead o.side o.price px qty aggressor }
    else o
  let sooner (a b : Nat) : Bool :=
    if (q.get a).price ≠ (q.get b).price then better maker (q.get a).price (q.get b).price
    else if (q.get a).ahead ≠ (q.get b).ahead then decide ((q.get a).ahead < (q.get b).ahead)
    else decide (a < b)
  tradeFills f px aggressor (hs.mergeSort fun a b => !sooner b a) qty (q, st.2)

/-- The loop of `on_cross`; `used` is what the better orders of a side took. -/
def crossFills (cross : Side → Price → Qty) :
    List Nat → (Side → Qty) → QueuePositionModel × σ → QueuePositionModel × σ
  | [], _, st => st
  | h :: hs, used, st =>
    match st.1.pool.slots h with
    | none => crossFills cross hs used st
    | some o =>
      let c := cross o.side o.price
      let fresh := c - o.crossed
      let o := { o with crossed := c }
      let fill := min (fresh - used o.side) o.leaves
      if fresh ≤ used o.side ∨ ¬ 0 < fill then
        crossFills cross hs used (st.1.put h o, st.2)
      else
        crossFills cross hs (update used o.side (used o.side + fill))
          (fillSlot f h { o with ahead := 0 } fill o.ahead st)

def onCross (inst : InstrumentId) (ts : Timestamp) (cross : Side → Price → Qty)
    (st : QueuePositionModel × σ) : QueuePositionModel × σ :=
  let q := st.1
  let hs := (q.onInst inst).filter fun h =>
    decide ((q.get h).placed ≤ ts ∧ (q.get h).crossed < cross (q.get h).side (q.get h).price)
  let q := q.updateEach inst fun o =>
    let c := cross o.side o.price
    if ts < o.placed then { o with crossed := max o.crossed c }
    else if o.crossed < c then o
    else { o with crossed := c }
  let sooner (a b : Nat) : Bool :=
    if (q.get a).side ≠ (q.get b).side then decide ((q.get a).side.code < (q.get b).side.code)
    else if (q.get a).price ≠ (q.get b).price then
      better (q.get a).side (q.get a).price (q.get b).price
    else decide (a < b)
  crossFills f cross (hs.mergeSort fun a b => !sooner b a) (fun _ => 0) (q, st.2)

end QueuePositionModel

end FastMM
