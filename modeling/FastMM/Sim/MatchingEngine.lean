/-
  Sim/MatchingEngine.lean --- the simulated exchange: a continuous double auction.

  Source: `include/fastmm/sim/sim_book.hpp`, `include/fastmm/sim/matching_engine.hpp` and
  `src/sim/matching_engine.cpp`.

  The links of an order stand beside the pool, by the order's slot.  A reference the source
  keeps to the taker and to the level it sweeps is a value here, written back when the sweep
  leaves it.  The sink is the list of the calls made to it; what it answers to `reducible` is a
  function of them.  Notionals and statistics are left out.
-/
import FastMM.Core.Types
import FastMM.Core.Containers
import FastMM.Foundation.IntrusiveLists
import FastMM.Foundation.SortedTables
set_option autoImplicit false

namespace FastMM.Sim

open Foundation Function

/-! ## Orders and levels -/

abbrev AccountId : Type := Nat

def kMaxAccounts : Nat := 16
def kMaxSimOrders : Nat := 65536
def kMaxSimLevels : Nat := 2048

structure SimOrder where
  orderId : Nat := 0
  clOrdId : ClientOrderId := .invalid
  price : Price := 0
  qty : Qty := 0
  cumQty : Qty := 0
  created : Timestamp := 0
  instrument : InstrumentId := .invalid
  account : AccountId := 0
  side : Side := .buy
  type : OrderType := .limit
  tif : TimeInForce := .gtc
  reduceOnly : Bool := false
  deriving DecidableEq, Repr, Inhabited

def SimOrder.leaves (o : SimOrder) : Qty := o.qty - o.cumQty

structure PriceLevel where
  price : Price := 0
  qty : Qty := 0
  head : Option Nat := none
  tail : Option Nat := none
  count : Nat := 0
  deriving DecidableEq, Repr, Inhabited

abbrev Levels : Type := StaticVector PriceLevel kMaxSimLevels

structure SimBook where
  levels : Side → Levels := fun _ => .nil
  updateId : Nat := 0

namespace SimBook

variable (b : SimBook)
variable (s : Side)
variable (price : Price)

def best : Option PriceLevel := (b.levels s).data.getLast?

def lowerBound : Nat :=
  let v := b.levels s
  let hi := v.size
  if 0 < hi ∧ better s price (v.get (hi - 1)).price = true then hi
  else bisect (fun mid => better s price (v.get mid).price) 0 hi

/-- `find`, as the index of the level. -/
def find : Option Nat :=
  let v := b.levels s
  let i := b.lowerBound s price
  if i < v.size ∧ (v.get i).price = price then some i else none

def setLevels (v : Levels) : SimBook :=
  { b with levels := update b.levels s v }

/-- `find_or_insert`: `none` when the side is full. -/
def findOrInsert : Option (Nat × SimBook) :=
  let v := b.levels s
  let i := b.lowerBound s price
  if i < v.size ∧ (v.get i).price = price then some (i, b)
  else if v.size = kMaxSimLevels then none
  else some (i, b.setLevels s (v.insertAt i { price := price }))

def erase (i : Nat) : SimBook := b.setLevels s ((b.levels s).eraseAt i)

def setLevel (i : Nat) (l : PriceLevel) : SimBook :=
  b.setLevels s ((b.levels s).set i l)

/-- The sum of `qty_at_or_better`, from the best level. -/
def qtyAtOrBetter (limit : Price) (isMarket : Bool) : Qty :=
  (((b.levels s).data.reverse.takeWhile fun l => isMarket || atOrBetter s l.price limit).map
    PriceLevel.qty).sum

end SimBook

/-! ## The engine -/

structure NewOrder where
  account : AccountId := 1
  clOrdId : ClientOrderId := .invalid
  instrument : InstrumentId := .invalid
  side : Side := .buy
  type : OrderType := .limit
  tif : TimeInForce := .gtc
  price : Price := 0
  qty : Qty := 0
  reduceOnly : Bool := false
  deriving DecidableEq, Repr, Inhabited

inductive StpMode where
  | none
  | cancelTaker
  | cancelMaker
  | cancelBoth
  deriving DecidableEq, Repr, Inhabited

inductive CancelReason where
  | requested
  | replaced
  | ioc
  | fok
  | noLiquidity
  | stp
  | reduceOnly
  deriving DecidableEq, Repr, Inhabited

/-- A call of the engine to its `MatchingSink`. -/
inductive SinkCall where
  | onAck (o : SimOrder) (now : Timestamp)
  | onReject (o : NewOrder) (why : RejectReason) (now : Timestamp)
  | onCancel (o : SimOrder) (why : CancelReason) (now : Timestamp)
  | onCancelReject (account : AccountId) (id : ClientOrderId) (inst : InstrumentId)
      (now : Timestamp)
  | onFill (maker taker : SimOrder) (px : Price) (qty : Qty) (now : Timestamp)
  | onBookChange (id : InstrumentId) (side : Side) (px : Price) (qty : Qty) (updateId : Nat)
  | onTrade (id : InstrumentId) (px : Price) (qty : Qty) (aggressor : Side) (tradeId : Nat)
      (now : Timestamp)
  deriving DecidableEq, Repr

structure SubmitResult where
  orderId : Nat := 0
  reason : RejectReason := .none
  filled : Qty := 0
  resting : Qty := 0
  deriving DecidableEq, Repr

structure AccountLedger where
  bought : Qty := 0
  sold : Qty := 0
  fills : Nat := 0
  deriving DecidableEq, Repr

structure MatchingEngine where
  instrumentCount : Nat
  /-- What the sink answers after the calls it has had. -/
  reducible : List SinkCall → SimOrder → Nat := fun _ o => o.leaves.toNat
  books : Nat → SimBook := fun _ => {}
  pool : Pool SimOrder kMaxSimOrders := .empty
  links : Links := {}
  byKey : Nat → Option Nat := fun _ => none
  /-- By instrument and account. -/
  stpTable : Nat → AccountId → StpMode := fun _ _ => .none
  ledgers : AccountId → AccountLedger := fun _ => {}
  nextOrderId : Nat := 1
  nextTradeId : Nat := 1
  told : List SinkCall := []

/-- The handle map's key: the account above 48 bits of the id. -/
def orderKey (account : AccountId) (id : ClientOrderId) : Nat :=
  account * 2 ^ 48 + id.value % 2 ^ 48

def crosses (taker : Side) (px makerPx : Price) : Bool :=
  match taker with
  | .buy => decide (makerPx ≤ px)
  | .sell => decide (px ≤ makerPx)

namespace MatchingEngine

variable (id : InstrumentId)
variable (account : AccountId)
variable (h : Nat)
variable (o : SimOrder)
variable (side : Side)

def create (instrumentCount : Nat) (reducible : List SinkCall → SimOrder → Nat) :
    MatchingEngine where
  instrumentCount := if instrumentCount = 0 then 1 else instrumentCount
  reducible := reducible

variable (e : MatchingEngine)

/-- `set_stp` on every instrument. -/
def setStp (mode : StpMode) : MatchingEngine :=
  if kMaxAccounts ≤ account then e
  else
    { e with
      stpTable := fun i a => if i < e.instrumentCount ∧ a = account then mode else e.stpTable i a }

/-- `set_stp` on one. -/
def setStpOn (id : InstrumentId) (mode : StpMode) : MatchingEngine :=
  if account < kMaxAccounts ∧ id.value < e.instrumentCount then
    { e with
      stpTable := update e.stpTable id.value (update (e.stpTable id.value) account mode) }
  else e

def stp (id : InstrumentId) : StpMode :=
  if account < kMaxAccounts ∧ id.value < e.instrumentCount then e.stpTable id.value account
  else .none

def book : SimBook := e.books id.value

def setBook (b : SimBook) : MatchingEngine :=
  { e with books := update e.books id.value b }

/-- The sink is called. -/
def tell (c : SinkCall) : MatchingEngine := { e with told := e.told ++ [c] }

/-- A level has a new quantity; `book_changed`, and `book_level_gone` for zero. -/
def bookChanged (px : Price) (qty : Qty) : MatchingEngine :=
  let u := (e.book id).updateId + 1
  (e.setBook id { e.book id with updateId := u }).tell (.onBookChange id side px qty u)

def freeOrder : MatchingEngine :=
  { e with
    byKey := update e.byKey (orderKey o.account o.clOrdId) none
    pool := e.pool.free h }

/-- The account whose ledger a fill goes to. -/
def ledgerOf : AccountId :=
  if account < kMaxAccounts then account else kMaxAccounts - 1

def recordLeg (qty : Qty) : MatchingEngine :=
  let l := e.ledgers (ledgerOf o.account)
  { e with
    ledgers := update e.ledgers (ledgerOf o.account) (match o.side with
        | .buy => { l with bought := l.bought + qty, fills := l.fills + 1 }
        | .sell => { l with sold := l.sold + qty, fills := l.fills + 1 }) }

def recordFill (maker taker : SimOrder) (qty : Qty) : MatchingEngine :=
  (e.recordLeg maker qty).recordLeg taker qty

/-! ## Queues -/

/-- `unlink`: the engine's links and the level. -/
def unlink (l : PriceLevel) : MatchingEngine × PriceLevel :=
  ({ e with links := e.links.unlink h }, { l with
      head := if e.links.prev h = none then e.links.next h else l.head
      tail := if e.links.next h = none then e.links.prev h else l.tail
      count := l.count - 1 })

/-- `rest`: `false` when the side is full. -/
def rest : Bool × MatchingEngine :=
  match (e.book o.instrument).findOrInsert o.side o.price with
  | none =>
    let n : NewOrder :=
      ⟨o.account, o.clOrdId, o.instrument, o.side, o.type, o.tif, o.price, o.qty, o.reduceOnly⟩
    (false, (e.tell (.onReject n .venueReject o.created)).freeOrder h o)
  | some (i, b) =>
    let l := (b.levels o.side).get i
    let l' : PriceLevel :=
      { l with
        head := if l.tail = none then some h else l.head
        tail := some h
        count := l.count + 1
        qty := l.qty + o.leaves }
    let e := { e with links := e.links.linkBack l.tail h }
    (true, (e.setBook o.instrument (b.setLevel o.side i l')).bookChanged o.instrument o.side
      o.price l'.qty)

/-- A level is written back, or leaves the book with its last order. -/
def settleLevel (i : Nat) (l : PriceLevel) : MatchingEngine :=
  if l.count = 0 then
    let e := e.bookChanged id side l.price 0
    e.setBook id ((e.book id).erase side i)
  else
    (e.setBook id ((e.book id).setLevel side i l)).bookChanged id side l.price l.qty

def removeResting (why : CancelReason) (now : Timestamp) :
    MatchingEngine :=
  match (e.book o.instrument).find o.side o.price with
  | none => (e.tell (.onCancel o why now)).freeOrder h o
  | some i =>
    let l := ((e.book o.instrument).levels o.side).get i
    let (e, l) := e.unlink h { l with qty := l.qty - o.leaves }
    ((e.settleLevel o.instrument o.side i l).tell (.onCancel o why now)).freeOrder h o

/-- The orders of a level from `h` on, over at most `n` links. -/
def fifo : Nat → Option Nat → List SimOrder
  | 0, _ => []
  | _ + 1, none => []
  | n + 1, some h =>
    match e.pool.slots h with
    | none => []
    | some o => o :: fifo n (e.links.next h)

/-- `for_each_resting`. -/
def resting : List SimOrder :=
  ((e.book id).levels side).data.reverse.flatMap fun l => e.fifo kMaxSimOrders l.head

/-! ## The sweep -/

end MatchingEngine

/-- The inner loop of `match`: the level it sweeps and the taker. -/
structure Sweep where
  engine : MatchingEngine
  level : PriceLevel
  taker : SimOrder
  takerDone : Bool := false
  takerReduced : Bool := false

namespace Sweep

variable (w : Sweep)

/-- A maker leaves without trading. -/
def dropMaker (mh : Nat) (maker : SimOrder) (why : CancelReason) (now : Timestamp) : Sweep :=
  let (e, l) := w.engine.unlink mh { w.level with qty := w.level.qty - maker.leaves }
  { w with engine := (e.tell (.onCancel maker why now)).freeOrder mh maker, level := l }

/-- A maker trades. -/
def trade (mh : Nat) (maker : SimOrder) (px : Price) (q : Qty) (now : Timestamp) : Sweep :=
  let maker := { maker with cumQty := maker.cumQty + q }
  let taker := { w.taker with cumQty := w.taker.cumQty + q }
  let level := { w.level with qty := w.level.qty - q }
  let e := (w.engine.recordFill maker taker q).tell (.onFill maker taker px q now)
  let e := ({ e with nextTradeId := e.nextTradeId + 1 } : MatchingEngine).tell
    (.onTrade taker.instrument px q taker.side e.nextTradeId now)
  if maker.leaves = 0 then
    let (e, level) := e.unlink mh level
    { w with engine := e.freeOrder mh maker, level := level, taker := taker }
  else if maker.reduceOnly = true ∧ e.reducible e.told maker = 0 then
    { w with engine := e, level := level, taker := taker }.dropMaker mh maker .reduceOnly now
  else { w with engine := { e with pool := e.pool.set mh maker }, level := level, taker := taker }

/-- The orders of the level from `idx` on, over at most so many links. -/
def makers (mode : StpMode) (now : Timestamp) : Nat → Option Nat → Sweep → Sweep
  | 0, _, w => w
  | _ + 1, none, w => w
  | n + 1, some mh, w =>
    if ¬ 0 < w.taker.leaves then w
    else
      match w.engine.pool.slots mh with
      | none => w
      | some maker =>
        let next := w.engine.links.next mh
        let room (o : SimOrder) : Qty := w.engine.reducible w.engine.told o
        let q := if w.taker.reduceOnly then min w.taker.leaves (room w.taker) else w.taker.leaves
        if w.taker.reduceOnly = true ∧ q = 0 then { w with takerReduced := true }
        else if mode ≠ .none ∧ maker.account = w.taker.account then
          let w :=
            if mode = .cancelMaker ∨ mode = .cancelBoth then w.dropMaker mh maker .stp now
            else w
          if mode = .cancelTaker ∨ mode = .cancelBoth then { w with takerDone := true }
          else makers mode now n next w
        else
          let m := if maker.reduceOnly then min maker.leaves (room maker) else maker.leaves
          if m = 0 then makers mode now n next (w.dropMaker mh maker .reduceOnly now)
          else makers mode now n next (w.trade mh maker w.level.price (min q m) now)

end Sweep

namespace MatchingEngine

variable (e : MatchingEngine)

/-- The taker ends in the sweep. -/
def endTaker (th : Nat) (taker : SimOrder) (why : CancelReason) (now : Timestamp) :
    MatchingEngine := (e.tell (.onCancel taker why now)).freeOrder th taker

/-- The outer loop of `match`, at most so many times: `false` when the taker has ended. -/
def sweep (th : Nat) (now : Timestamp) :
    Nat → MatchingEngine → SimOrder → Bool × MatchingEngine × SimOrder
  | 0, e, taker => (true, e, taker)
  | n + 1, e, taker =>
    let makerSide := taker.side.opposite
    if ¬ 0 < taker.leaves then (true, e, taker)
    else
      match (e.book taker.instrument).best makerSide with
      | none => (true, e, taker)
      | some level =>
        if taker.type ≠ .market ∧ crosses taker.side taker.price level.price = false then
          (true, e, taker)
        else
          let w := Sweep.makers (e.stp taker.account taker.instrument) now kMaxSimOrders
            level.head { engine := e, level := level, taker := taker }
          let e := w.engine.settleLevel taker.instrument makerSide
            ((((w.engine.book taker.instrument).levels makerSide).size) - 1) w.level
          if w.takerDone then (false, e.endTaker th w.taker .stp now, w.taker)
          else if w.takerReduced = true ∨ (w.taker.reduceOnly = true ∧ 0 < w.taker.leaves ∧
              e.reducible e.told w.taker = 0) then
            (false, e.endTaker th w.taker .reduceOnly now, w.taker)
          else sweep th now n e w.taker

/-- `match`.  A time through its loop takes a level off the book, or some of the taker's
quantity. -/
def matchOrder (th : Nat) (taker : SimOrder) (now : Timestamp) :
    Bool × MatchingEngine × SimOrder :=
  sweep th now (kMaxSimLevels + taker.leaves.toNat + 1) e taker

/-- The scan of `fillable` once it is not the sum of the levels. -/
def fillableFrom (mode : StpMode) (taker : SimOrder) : Qty → List SimOrder → Qty
  | sum, [] => sum
  | sum, o :: os =>
    if o.account = taker.account then
      if mode ≠ .cancelMaker then sum
      else if taker.leaves ≤ sum then sum
      else fillableFrom mode taker sum os
    else if taker.leaves ≤ sum + o.leaves then sum + o.leaves
    else fillableFrom mode taker (sum + o.leaves) os

def fillable (taker : SimOrder) : Qty :=
  let opp := taker.side.opposite
  let market := decide (taker.type = .market)
  let mode := e.stp taker.account taker.instrument
  if mode = .none then (e.book taker.instrument).qtyAtOrBetter opp taker.price market
  else
    fillableFrom mode taker 0
      ((((e.book taker.instrument).levels opp).data.reverse.takeWhile fun l =>
        market || crosses taker.side taker.price l.price).flatMap fun l =>
          e.fifo kMaxSimOrders l.head)

/-! ## Order entry -/

def reject (o : NewOrder) (why : RejectReason) (now : Timestamp) : SubmitResult × MatchingEngine :=
  ({ reason := why }, e.tell (.onReject o why now))

def submit (o : NewOrder) (now : Timestamp) : SubmitResult × MatchingEngine :=
  let market := decide (o.type = .market)
  if e.instrumentCount ≤ o.instrument.value then e.reject o .instrumentDisabled now
  else if ¬ 0 < o.qty then e.reject o .invalidLot now
  else if market = false ∧ ¬ 0 < o.price then e.reject o .invalidTick now
  else if (e.byKey (orderKey o.account o.clOrdId)).isSome = true then e.reject o .duplicateId now
  else if o.type = .postOnly ∧
      (match (e.book o.instrument).best o.side.opposite with
        | some best => crosses o.side o.price best.price
        | none => false) = true then
    e.reject o .postOnlyWouldCross now
  else
    match e.pool.allocate with
    | none => e.reject o .poolExhausted now
    | some (h, pool) =>
      let ord : SimOrder :=
        { orderId := e.nextOrderId
          clOrdId := o.clOrdId
          price := if market then 0 else o.price
          qty := o.qty
          created := now
          instrument := o.instrument
          account := o.account
          side := o.side
          type := o.type
          tif := if market then .ioc else o.tif
          reduceOnly := o.reduceOnly }
      let e :=
        { e with
          pool := pool.set h ord
          nextOrderId := e.nextOrderId + 1
          byKey := update e.byKey (orderKey o.account o.clOrdId) (some h) }
      let e := e.tell (.onAck ord now)
      if ord.tif = .fok ∧ (e.fillable ord < ord.qty ∨
          (ord.reduceOnly = true ∧ (e.reducible e.told ord : Qty) < ord.qty)) then
        ({ orderId := ord.orderId }, (e.tell (.onCancel ord .fok now)).freeOrder h ord)
      else
        match (if o.type = .postOnly then (true, e, ord) else e.matchOrder h ord now) with
        | (false, e, ord) => ({ orderId := ord.orderId, filled := ord.cumQty }, e)
        | (true, e, ord) =>
          if ord.leaves = 0 then
            ({ orderId := ord.orderId, filled := ord.cumQty }, e.freeOrder h ord)
          else if market = true ∨ ord.tif = .ioc ∨ ord.tif = .fok then
            ({ orderId := ord.orderId, filled := ord.cumQty },
              (e.tell (.onCancel ord (if market then .noLiquidity else .ioc) now)).freeOrder h ord)
          else
            match { e with pool := e.pool.set h ord }.rest h ord with
            | (false, e) =>
              ({ orderId := ord.orderId, reason := .venueReject, filled := ord.cumQty }, e)
            | (true, e) =>
              ({ orderId := ord.orderId, filled := ord.cumQty, resting := ord.leaves }, e)

def cancel (account : AccountId) (id : ClientOrderId) (now : Timestamp) : Bool × MatchingEngine :=
  match e.byKey (orderKey account id) with
  | none => (false, e.tell (.onCancelReject account id .invalid now))
  | some h => (true, e.removeResting h ((e.pool.slots h).getD default) .requested now)

/-- `replace` in place: the order keeps its slot in the queue. -/
def amend (h : Nat) (o : SimOrder) (account : AccountId) (orig newId : ClientOrderId) (qty : Qty)
    (now : Timestamp) : SubmitResult × MatchingEngine :=
  let e := e.tell (.onCancel o .replaced now)
  let o' : SimOrder :=
    { o with
      orderId := e.nextOrderId
      clOrdId := newId
      qty := qty
      cumQty := 0
      created := now }
  let i := ((e.book o.instrument).find o.side o.price).getD 0
  let l := ((e.book o.instrument).levels o.side).get i
  let l := { l with qty := l.qty - (o.leaves - qty) }
  let e :=
    { e with
      nextOrderId := e.nextOrderId + 1
      pool := e.pool.set h o'
      byKey := update (update e.byKey (orderKey account orig) none)
        (orderKey account newId) (some h) }
  let e := e.setBook o.instrument ((e.book o.instrument).setLevel o.side i l)
  let e := if qty = o.leaves then e else e.bookChanged o.instrument o.side l.price l.qty
  ({ orderId := o'.orderId, resting := qty }, e.tell (.onAck o' now))

def replace (account : AccountId) (orig newId : ClientOrderId) (price : Price) (qty : Qty)
    (now : Timestamp) : SubmitResult × MatchingEngine :=
  match e.byKey (orderKey account orig) with
  | none =>
    let e := e.tell (.onCancelReject account orig .invalid now)
    e.reject { account := account, clOrdId := newId, price := price, qty := qty }
      .venueUnknownOrder now
  | some h =>
    let o := (e.pool.slots h).getD default
    if 0 < qty ∧ price = o.price ∧ qty ≤ o.leaves ∧
        (e.byKey (orderKey account newId)).isNone = true then
      e.amend h o account orig newId qty now
    else
      (e.removeResting h o .replaced now).submit
        ⟨account, newId, o.instrument, o.side, o.type, o.tif, price, qty, o.reduceOnly⟩ now

/-- The newest order of `account` from `idx` towards the head. -/
def newestOf (account : AccountId) : Nat → Option Nat → Option Nat
  | 0, _ => none
  | _ + 1, none => none
  | n + 1, some h =>
    if ((e.pool.slots h).getD default).account ≠ account then newestOf account n (e.links.prev h)
    else some h

/-- The loop of `reduce_account_qty`, over at most so many orders. -/
def reduceFrom (account : AccountId) (id : InstrumentId) (side : Side) (px : Price)
    (now : Timestamp) : Nat → Qty → MatchingEngine → MatchingEngine
  | 0, _, e => e
  | n + 1, qty, e =>
    if ¬ 0 < qty then e
    else
      match (e.book id).find side px with
      | none => e
      | some i =>
        let l := ((e.book id).levels side).get i
        match e.newestOf account kMaxSimOrders l.tail with
        | none => e
        | some h =>
          let o := (e.pool.slots h).getD default
          if o.leaves ≤ qty then
            reduceFrom account id side px now n (qty - o.leaves)
              (e.removeResting h o .requested now)
          else
            let e := { e with pool := e.pool.set h { o with qty := o.qty - qty } }
            let l := { l with qty := l.qty - qty }
            (e.setBook id ((e.book id).setLevel side i l)).bookChanged id side l.price l.qty

def reduceAccountQty (account : AccountId) (id : InstrumentId) (side : Side) (px : Price)
    (qty : Qty) (now : Timestamp) : MatchingEngine :=
  if e.instrumentCount ≤ id.value then e
  else reduceFrom account id side px now (kMaxSimOrders + 1) qty e

end MatchingEngine

end FastMM.Sim
