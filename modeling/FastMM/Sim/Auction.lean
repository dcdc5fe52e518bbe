/-
  Sim/Auction.lean --- a plain price-time auction.

  The abstract behaviour of the matching engine: each side of an instrument is one list of
  orders, the best price first and the earliest first among equal prices.  A new order takes the
  other side's orders one at a time from the front, as long as it crosses them.
-/
import FastMM.Foundation.GroupedQueue
import FastMM.Sim.MatchingEngine
set_option autoImplicit false

namespace FastMM.Sim

open Foundation

/-- Who trades. -/
structure Party where
  orderId : Nat
  account : AccountId
  clOrdId : ClientOrderId
  deriving DecidableEq, Repr

structure Fill where
  maker : Party
  taker : Party
  price : Price
  qty : Qty
  deriving DecidableEq, Repr

/-- An order in a queue. -/
structure RestingOrder where
  party : Party
  price : Price
  leaves : Qty
  type : OrderType
  tif : TimeInForce
  deriving DecidableEq, Repr

/-- The order of `account` with this id. -/
def RestingOrder.is (w : RestingOrder) (account : AccountId) (id : ClientOrderId) : Bool :=
  decide (w.party.account = account ∧ w.party.clOrdId = id)

/-! ## One order against a queue -/

/-- What became of a taker and the queue. -/
structure Swept where
  fills : List Fill
  left : Qty
  queue : List RestingOrder
  ended : Bool
  deriving DecidableEq, Repr

def Swept.after (fills : List Fill) (r : Swept) : Swept := { r with fills := fills ++ r.fills }

/-- A taker of `side`, with a price limit unless it is a market order. -/
structure Taker where
  party : Party
  side : Side
  limit : Option Price
  stp : StpMode
  deriving DecidableEq, Repr

def Taker.takes (t : Taker) (price : Price) : Bool :=
  match t.limit with
  | none => true
  | some px => crosses t.side px price

/-- The orders of the queue, one at a time. -/
def Taker.sweep (t : Taker) : Qty → List RestingOrder → Swept
  | left, [] => ⟨[], left, [], false⟩
  | left, w :: ws =>
    if ¬ 0 < left ∨ t.takes w.price = false then ⟨[], left, w :: ws, false⟩
    else if t.stp ≠ .none ∧ w.party.account = t.party.account then
      match t.stp with
      | .cancelTaker => ⟨[], left, w :: ws, true⟩
      | .cancelBoth => ⟨[], left, ws, true⟩
      | _ => t.sweep left ws
    else if w.leaves ≤ left then
      (t.sweep (left - w.leaves) ws).after [⟨w.party, t.party, w.price, w.leaves⟩]
    else
      ⟨[⟨w.party, t.party, w.price, left⟩], 0, { w with leaves := w.leaves - left } :: ws, false⟩

section Sweep

variable {t : Taker} {left : Qty} {w : RestingOrder} {ws : List RestingOrder}

/-- A taker that has nothing left, or is beyond its limit, takes nothing. -/
theorem Taker.sweep_idle (h : ¬ 0 < left ∨ ∀ w ∈ ws.head?, t.takes w.price = false) :
    t.sweep left ws = ⟨[], left, ws, false⟩ := by
  cases ws with
  | nil => rfl
  | cons w ws =>
    rw [Taker.sweep, if_pos (h.imp_right fun h => h w rfl)]

variable (hleft : 0 < left) (htakes : t.takes w.price = true)

include hleft htakes

/-- An order of the taker's own account. -/
theorem Taker.sweep_own (hstp : t.stp ≠ .none) (hown : w.party.account = t.party.account) :
    t.sweep left (w :: ws) = match t.stp with
      | .cancelTaker => ⟨[], left, w :: ws, true⟩
      | .cancelBoth => ⟨[], left, ws, true⟩
      | _ => t.sweep left ws := by
  rw [Taker.sweep, if_neg (not_or.mpr ⟨not_not.mpr hleft, by simp [htakes]⟩), if_pos ⟨hstp, hown⟩]

/-- An order that trades. -/
theorem Taker.sweep_fill (hother : ¬ (t.stp ≠ .none ∧ w.party.account = t.party.account)) :
    t.sweep left (w :: ws) =
      if w.leaves ≤ left then
        (t.sweep (left - w.leaves) ws).after [⟨w.party, t.party, w.price, w.leaves⟩]
      else
        ⟨[⟨w.party, t.party, w.price, left⟩], 0, { w with leaves := w.leaves - left } :: ws,
          false⟩ := by
  rw [Taker.sweep, if_neg (not_or.mpr ⟨not_not.mpr hleft, by simp [htakes]⟩), if_neg hother]

end Sweep

theorem Swept.after_after (fs fs' : List Fill) (r : Swept) :
    (r.after fs').after fs = r.after (fs ++ fs') := by
  unfold Swept.after
  rw [List.append_assoc]

theorem Swept.after_nil (r : Swept) : r.after [] = r := rfl

/-! ## The auction -/

structure Auction where
  instrumentCount : Nat
  queue : Nat → Side → List RestingOrder := fun _ _ => []
  stp : AccountId → InstrumentId → StpMode := fun _ _ => .none
  nextOrderId : Nat := 1
  fills : List Fill := []

namespace Auction

def create (instrumentCount : Nat) : Auction where
  instrumentCount := if instrumentCount = 0 then 1 else instrumentCount

variable (a : Auction)

def setQueue (i : Nat) (s : Side) (q : List RestingOrder) : Auction :=
  { a with queue := Function.update a.queue i (Function.update (a.queue i) s q) }

/-- The instrument, the side and the order of `account` with this id. -/
def lookup (account : AccountId) (id : ClientOrderId) : Option (Nat × Side × RestingOrder) :=
  ((List.range a.instrumentCount).flatMap fun i =>
    (a.queue i .buy).map (fun w => (i, Side.buy, w)) ++
      (a.queue i .sell).map (fun w => (i, Side.sell, w))).find? fun x => x.2.2.is account id

/-- Behind every order of at least its price. -/
def enqueue (i : Nat) (s : Side) (w : RestingOrder) : Auction :=
  a.setQueue i s (insertBehind (fun w : RestingOrder => goodness s w.price) w (a.queue i s))

def submit (o : NewOrder) : Auction :=
  let i := o.instrument.value
  let market := decide (o.type = .market)
  if a.instrumentCount ≤ i ∨ ¬ 0 < o.qty ∨ (market = false ∧ ¬ 0 < o.price) ∨
      (a.lookup o.account o.clOrdId).isSome = true then a
  else if o.type = .postOnly ∧
      (match (a.queue i o.side.opposite).head? with
        | some best => crosses o.side o.price best.price
        | none => false) = true then a
  else
    let party : Party := ⟨a.nextOrderId, o.account, o.clOrdId⟩
    let a := { a with nextOrderId := a.nextOrderId + 1 }
    if o.type = .postOnly then
      if o.tif = .ioc then a else a.enqueue i o.side ⟨party, o.price, o.qty, o.type, o.tif⟩
    else
      let taker : Taker :=
        ⟨party, o.side, if market then none else some o.price, a.stp o.account o.instrument⟩
      let r := taker.sweep o.qty (a.queue i o.side.opposite)
      let a := { a.setQueue i o.side.opposite r.queue with fills := a.fills ++ r.fills }
      if r.ended = true ∨ r.left = 0 ∨ market = true ∨ o.tif = .ioc then a
      else a.enqueue i o.side ⟨party, o.price, r.left, o.type, o.tif⟩

/-- The order leaves its queue. -/
def remove (i : Nat) (s : Side) (account : AccountId) (id : ClientOrderId) : Auction :=
  a.setQueue i s ((a.queue i s).filter fun w => !w.is account id)

def cancel (account : AccountId) (id : ClientOrderId) : Auction :=
  match a.lookup account id with
  | none => a
  | some (i, s, _) => a.remove i s account id

def replace (account : AccountId) (orig newId : ClientOrderId) (price : Price) (qty : Qty) :
    Auction :=
  match a.lookup account orig with
  | none => a
  | some (i, s, w) =>
    if 0 < qty ∧ price = w.price ∧ qty ≤ w.leaves ∧ (a.lookup account newId).isNone = true then
      -- The order keeps its place.
      { a.setQueue i s ((a.queue i s).map fun w' =>
          if w'.is account orig then
            { w' with party := ⟨a.nextOrderId, account, newId⟩, leaves := qty }
          else w') with
        nextOrderId := a.nextOrderId + 1 }
    else
      (a.remove i s account orig).submit ⟨account, newId, ⟨i⟩, s, w.type, w.tif, price, qty, false⟩

/-- The newest orders of `account` at `px` give up `qty`; the queue is the newest first. -/
def reduceNewest (account : AccountId) (px : Price) : Qty → List RestingOrder → List RestingOrder
  | _, [] => []
  | qty, w :: ws =>
    if w.party.account = account ∧ w.price = px then
      if ¬ 0 < qty then w :: ws
      else if w.leaves ≤ qty then reduceNewest account px (qty - w.leaves) ws
      else { w with leaves := w.leaves - qty } :: ws
    else w :: reduceNewest account px qty ws

def reduceAccountQty (account : AccountId) (id : InstrumentId) (side : Side) (px : Price)
    (qty : Qty) : Auction :=
  if a.instrumentCount ≤ id.value then a
  else
    a.setQueue id.value side (reduceNewest account px qty (a.queue id.value side).reverse).reverse

/-- `set_stp`, of accounts and instruments that exist. -/
def setStp (account : AccountId) (mode : StpMode) : Auction :=
  { a with
    stp := fun x id =>
      if x = account ∧ x < kMaxAccounts ∧ id.value < a.instrumentCount then mode else a.stp x id }

def setStpOn (account : AccountId) (id : InstrumentId) (mode : StpMode) : Auction :=
  { a with
    stp := fun x j =>
      if x = account ∧ j = id ∧ x < kMaxAccounts ∧ j.value < a.instrumentCount then mode
      else a.stp x j }

end Auction

end FastMM.Sim
