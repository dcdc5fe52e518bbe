/-
  Ouch/Decoder.lean --- the exchange's messages about orders, as events of the engine.

  Source: `include/fastmm/codecs/ouch/ouch_common.hpp`, `src/codecs/ouch/ouch_common.cpp`, and
  the decoders of `src/codecs/ouch/ouch42.cpp` and `src/codecs/ouch/ouch50.cpp`.

  Both decoders keep a table of the orders by their wire identifier and do the same with a
  message once they know which order it names: the order token of OUCH 4.2 is the client order
  id, and a UserRefNum of OUCH 5.0 is looked up.  A message is its fields, as the big-endian
  overlays read them; the counters of `DecoderStats` are left out.
-/
import FastMM.Core.Instrument
import FastMM.Oms.Runs
import FastMM.Ouch.UserRefMap
set_option autoImplicit false

namespace FastMM

open Foundation
open Oms (Msg)

namespace Ouch

/-! ## Fields -/

def hexDigit (c : Char) : Option Nat :=
  if '0' ≤ c ∧ c ≤ '9' then some (c.toNat - '0'.toNat)
  else if 'a' ≤ c ∧ c ≤ 'f' then some (c.toNat - 'a'.toNat + 10)
  else none

/-- `decode_cl_ord_id`: `fm` and twelve lowercase hex digits. -/
def decodeClOrdId (s : List Char) : Option ClientOrderId :=
  if s.length = 14 ∧ s.take 2 = ['f', 'm'] then
    match (s.drop 2).foldlM (fun v c => (hexDigit c).map fun d => v * 16 + d) 0 with
    | some v => if v = 0 then none else some ⟨v⟩
    | none => none
  else none

def sideFromCode (c : Char) : Option Side :=
  if c = 'B' then some .buy
  else if c = 'S' ∨ c = 'T' ∨ c = 'E' then some .sell
  else none

def sharesToQty (n : Nat) : Qty := (n : Int) * kFixedScale

def kPrice4Unit : Int := 10000

/-- `price4_to_price` of a price of 8 bytes, which may be too large. -/
def price4ToPrice (p : Nat) : Option Price :=
  if (p : Int) ≤ 9223372036854775807 / kPrice4Unit then some ((p : Int) * kPrice4Unit) else none

/-- `set_decimal`. -/
def decimal (v : Nat) : FixedString 40 :=
  .assign ((Nat.toDigits 10 v).map fun c => UInt8.ofNat c.toNat)

/-! ## State -/

structure OrderEntry where
  clOrdId : ClientOrderId
  referenceNumber : Nat
  leaves : Qty
  cum : Qty
  instrument : InstrumentId
  side : Side
  deriving DecidableEq, Repr

/-- The entries an `OpenHashMap` of `kOrderSlots` slots takes. -/
def kOrders : Nat := 57344

abbrev OrderTable : Type := CappedMap Nat OrderEntry kOrders

/-- `ids` is the map of an OUCH 5.0 decoder that has one. -/
structure OuchDecoder where
  venue : VenueId := .invalid
  midnightNs : Int := 0
  symbols : List (List Char × InstrumentId) := []
  orders : OrderTable := .empty
  ids : Option Ouch50.UserRefMap := none

/-- Where the events go: `room` more fit. -/
structure EventSink where
  room : Nat
  events : List Msg := []

/-- `reserve` and `commit`. -/
def EventSink.commit (k : EventSink) (m : Msg) : Option EventSink :=
  match k.room with
  | 0 => none
  | room + 1 => some ⟨room, k.events ++ [m]⟩

inductive ParseStatus where
  | ok
  | ignored
  | malformed
  | overflow
  deriving DecidableEq, Repr

/-- What `decode` answers and leaves. -/
abbrev Decoded : Type := ParseStatus × OuchDecoder × EventSink

namespace OuchDecoder

variable (d : OuchDecoder)
variable (hdr : EventHeader)
variable (e : OrderEntry)
variable (key : Nat)
variable (id : ClientOrderId)

def stamp (ts : Nat) (inst : InstrumentId) (rx : Int) : EventHeader :=
  { instrument := inst, venue := d.venue, exchTs := d.midnightNs + ts, recvTs := rx }

def findSymbol (field : List Char) : InstrumentId := (d.symbols.lookup field).getD .invalid

/-- `forget`; OUCH 4.2 has no map of ids. -/
def forget : OuchDecoder :=
  { d with
    orders := d.orders.erase key
    ids := d.ids.map fun ids => ids.erase (.ofNat key) }

/-- `orders_.assign`, and an entry of the table changed in place; a full table takes no more. -/
def setEntry (e : OrderEntry) : OuchDecoder :=
  match d.orders.assign key e with
  | none => d
  | some orders => { d with orders := orders }

/-- `done` after the event. -/
def emit (k : EventSink) (m : Msg) : Decoded :=
  match k.commit m with
  | none => (.overflow, d, k)
  | some k => (.ok, d, k)

/-! ## Events -/

/-- `emit_ack`. -/
def ackMsg : Msg :=
  .ack { hdr := hdr, clOrdId := e.clOrdId, venueOrderId := decimal e.referenceNumber }

/-- `emit_expired`. -/
def expiredMsg : Msg :=
  .expired { hdr := hdr, clOrdId := e.clOrdId, cumQty := e.cum }

/-- `emit_cancel_ack`. -/
def cancelAckMsg : Msg :=
  .cancelAck { hdr := hdr, clOrdId := e.clOrdId, cumQty := e.cum }

/-- `emit_fill`; the entry already includes this execution. -/
def fillMsg (matchNumber : Nat) (price : Price) (qty : Qty) :
    OrderFillMsg where
  hdr := hdr
  clOrdId := e.clOrdId
  venueOrderId := decimal e.referenceNumber
  execId := decimal matchNumber
  price := price
  qty := qty
  cumQty := e.cum
  side := e.side

/-! ## Handlers -/

/-- What an Accepted or a Replaced says of the order. -/
structure Terms where
  timestamp : Nat
  buySellIndicator : Char
  shares : Nat
  stock : List Char
  referenceNumber : Nat
  orderState : Char
  deriving DecidableEq, Repr

/-- The entry of an order just accepted; a replacement takes the `cum` of the order it replaces. -/
def newEntry (prev : Option Nat) (t : Terms) (side : Side) : OrderEntry where
  clOrdId := id
  referenceNumber := t.referenceNumber
  leaves := sharesToQty t.shares
  cum := ((prev.bind d.orders.find).map OrderEntry.cum).getD 0
  instrument := d.findSymbol t.stock
  side := side

/-- `on_accepted` and, with the order it replaces, `on_replaced`. -/
def accept (prev : Option Nat) (t : Terms) (rx : Int)
    (k : EventSink) : Decoded :=
  match sideFromCode t.buySellIndicator with
  | none => (.malformed, d, k)
  | some side =>
    let e := d.newEntry id prev t side
    let d := match prev with
      | some prev => d.forget prev
      | none => d
    let hdr := d.stamp t.timestamp e.instrument rx
    match k.commit (ackMsg hdr e) with
    | none => (.overflow, d, k)
    | some k =>
      -- Accepted and automatically canceled.
      if t.orderState = 'D' then (d.forget key).emit k (expiredMsg hdr e)
      else (.ok, d.setEntry key e, k)

/-- `on_canceled`: a partial reduction only changes the table. -/
def cancel (key ts decrement : Nat) (reason : Char) (rx : Int) (k : EventSink) : Decoded :=
  match d.orders.find key with
  | none => (.ignored, d, k)
  | some e =>
    let dec := sharesToQty decrement
    let e := { e with leaves := if dec ≥ e.leaves then 0 else e.leaves - dec }
    if 0 < e.leaves then (.ignored, d.setEntry key e, k)
    else
      let hdr := d.stamp ts e.instrument rx
      (d.forget key).emit k
        (if reason = 'I' ∨ reason = 'T' then expiredMsg hdr e else cancelAckMsg hdr e)

/-- The entry after an execution. -/
def executedEntry (qty : Qty) : OrderEntry :=
  { e with
    cum := e.cum + qty
    leaves := if qty ≥ e.leaves then 0 else e.leaves - qty }

/-- `on_executed`; `none` is a price OUCH 5.0 cannot convert. -/
def execute (key ts shares : Nat) (price : Option Price) (matchNumber : Nat) (rx : Int)
    (k : EventSink) : Decoded :=
  match d.orders.find key with
  | none => (.ignored, d, k)
  | some e =>
    match price with
    | none => (.malformed, d, k)
    | some price =>
      let qty := sharesToQty shares
      let e := executedEntry e qty
      let d := if 0 < e.leaves then d.setEntry key e else d.forget key
      d.emit k (.fill (fillMsg (d.stamp ts e.instrument rx) e matchNumber price qty))

/-- Cancel Reject, of an order in the table or not. -/
def cancelReject (ts : Nat) (rx : Int) (k : EventSink) : Decoded :=
  let inst := ((d.orders.find key).map OrderEntry.instrument).getD .invalid
  d.emit k (.cancelReject { hdr := d.stamp ts inst rx, clOrdId := id })

/-- Order Modified: the shares outstanding and the side, if it is one. -/
def modify (key shares : Nat) (side : Char) : OuchDecoder :=
  match d.orders.find key with
  | none => d
  | some e =>
    d.setEntry key { e with
        leaves := sharesToQty shares
        side := (sideFromCode side).getD e.side }

end OuchDecoder

end Ouch

end FastMM
