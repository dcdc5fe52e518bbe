/-
  Ouch/Versions.lean --- the messages of OUCH 4.2 and OUCH 5.0.

  Source: `src/codecs/ouch/ouch42.cpp` and `src/codecs/ouch/ouch50.cpp` (`decode`).

  OUCH 4.2 names an order by its token, the client order id itself; OUCH 5.0 by its
  UserRefNum, which the map of the encoder, the echoed ClOrdID or the table resolves.  A
  message the decoders only count is `other`.
-/
import FastMM.Ouch.Decoder
set_option autoImplicit false

namespace FastMM.Ouch

open Oms (Msg)

/-! ## OUCH 4.2 -/

namespace Ouch42

inductive Message where
  | accepted (orderToken : List Char) (t : OuchDecoder.Terms)
  | replaced (replacementOrderToken previousOrderToken : List Char) (t : OuchDecoder.Terms)
  /-- 'C' Canceled and 'D' AIQ Canceled. -/
  | canceled (timestamp : Nat) (orderToken : List Char) (decrementShares : Nat) (reason : Char)
  /-- 'E' Executed and 'G' Executed with Reference Price. -/
  | executed (timestamp : Nat) (orderToken : List Char)
      (executedShares executionPrice matchNumber : Nat)
  | rejected (timestamp : Nat) (orderToken : List Char)
  | cancelReject (timestamp : Nat) (orderToken : List Char)
  | orderModified (orderToken : List Char) (shares : Nat) (buySellIndicator : Char)
  | other

/-- What a message about an order does, when its token is one of ours. -/
def withToken (d : OuchDecoder) (token : List Char) (k : EventSink)
    (f : ClientOrderId → Decoded) : Decoded :=
  match decodeClOrdId token with
  | none => (.ignored, d, k)
  | some id => f id

def decode (d : OuchDecoder) (m : Message) (rx : Int) (k : EventSink) : Decoded :=
  match m with
  | .accepted token t => withToken d token k fun id => d.accept id.value id none t rx k
  | .replaced token prev t =>
    withToken d token k fun id =>
      d.accept id.value id ((decodeClOrdId prev).map ClientOrderId.value) t rx k
  | .canceled ts token dec reason =>
    withToken d token k fun id => d.cancel id.value ts dec reason rx k
  | .executed ts token shares price matchNumber =>
    withToken d token k fun id =>
      d.execute id.value ts shares (some ((price : Int) * kPrice4Unit)) matchNumber rx k
  | .rejected ts token =>
    withToken d token k fun id =>
      (d.forget id.value).emit k (.reject { hdr := d.stamp ts .invalid rx, clOrdId := id })
  | .cancelReject ts token =>
    withToken d token k fun id => d.cancelReject id.value id ts rx k
  | .orderModified token shares side =>
    match decodeClOrdId token with
    | none => (.ignored, d, k)
    | some id => (.ignored, d.modify id.value shares side, k)
  | .other => (.ignored, d, k)

end Ouch42

/-! ## OUCH 5.0 -/

namespace Ouch50

inductive Message where
  | orderAccepted (userRefNum : Nat) (clOrdId : List Char) (t : OuchDecoder.Terms)
  | orderReplaced (userRefNum origUserRefNum : Nat) (clOrdId : List Char) (t : OuchDecoder.Terms)
  /-- 'C' Order Canceled and 'D' AIQ Canceled. -/
  | orderCanceled (timestamp userRefNum quantity : Nat) (reason : Char)
  | orderExecuted (timestamp userRefNum quantity price matchNumber : Nat)
  | rejected (timestamp userRefNum : Nat) (clOrdId : List Char)
  | cancelReject (timestamp userRefNum : Nat)
  | orderModified (userRefNum quantity : Nat) (side : Char)
  | other

/-- `resolve`; the invalid id when nothing names the order. -/
def resolve (d : OuchDecoder) (urn : Nat) (clOrdId : Option (List Char)) : ClientOrderId :=
  let mapped := ((d.ids.map fun ids => ids.findUrn (.ofNat urn)).getD .invalid)
  if mapped.valid then mapped
  else
    match clOrdId.bind decodeClOrdId with
    | some id => id
    | none => ((d.orders.find urn).map OrderEntry.clOrdId).getD .invalid

def decode (d : OuchDecoder) (m : Message) (rx : Int) (k : EventSink) : Decoded :=
  match m with
  | .orderAccepted urn clOrdId t =>
    let id := resolve d urn (some clOrdId)
    if id.valid then d.accept urn id none t rx k else (.ignored, d, k)
  | .orderReplaced urn orig clOrdId t =>
    let id := resolve d urn (some clOrdId)
    if id.valid then d.accept urn id (some orig) t rx k else (.ignored, d, k)
  | .orderCanceled ts urn quantity reason => d.cancel urn ts quantity reason rx k
  | .orderExecuted ts urn quantity price matchNumber =>
    d.execute urn ts quantity (price4ToPrice price) matchNumber rx k
  | .rejected ts urn clOrdId =>
    let id := resolve d urn (some clOrdId)
    if id.valid then
      (d.forget urn).emit k (.reject { hdr := d.stamp ts .invalid rx, clOrdId := id })
    else (.ignored, d, k)
  | .cancelReject ts urn =>
    let id := resolve d urn none
    if id.valid then d.cancelReject urn id ts rx k else (.ignored, d, k)
  | .orderModified urn quantity side => (.ignored, d.modify urn quantity side, k)
  | .other => (.ignored, d, k)

end Ouch50

end FastMM.Ouch
