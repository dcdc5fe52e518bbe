/-
  Ouch/Chain.lean --- one order and its replacements, from the exchange to the order management.

  Source: the decoders of `src/codecs/ouch/ouch42.cpp` and `src/codecs/ouch/ouch50.cpp`, and
  `Oms::on_ack`, `on_fill`, `on_cancel_ack`, `on_expired` and `absorb_cum` of
  `include/fastmm/core/oms.hpp`.

  The decoder counts what the whole chain has executed; the order management starts a
  replacement under a new id from zero.  A fill brings the second count up to the first, and
  books its own quantity; a cancel or an expiry books what the second count lacks.  The two
  agree as long as no replacement ends before its first execution with executions behind it.
-/
import FastMM.Ouch.Versions
import FastMM.Oms.ReplaceLegs
set_option autoImplicit false

namespace FastMM

open Oms (Msg Ledger Reachable PositiveQty IdsOk Accounts)

namespace Ouch

/-! ## Messages of the chain -/

/-- A message of either version. -/
inductive OuchMsg where
  | v42 (m : Ouch42.Message)
  | v50 (m : Ouch50.Message)

namespace OuchMsg

def decode (d : OuchDecoder) : OuchMsg → Int → EventSink → Decoded
  | .v42 m => Ouch42.decode d m
  | .v50 m => Ouch50.decode d m

/-- The exchange accepts, under a wire identifier, the order of a client order id. -/
def Accepts (d : OuchDecoder) (key : Nat) (id : ClientOrderId) (t : OuchDecoder.Terms) :
    OuchMsg → Prop
  | .v42 (.accepted token t') => decodeClOrdId token = some id ∧ key = id.value ∧ t' = t
  | .v50 (.orderAccepted urn clOrdId t') =>
    Ouch50.resolve d urn (some clOrdId) = id ∧ id.valid = true ∧ key = urn ∧ t' = t
  | _ => False

/-- The exchange replaces the order of the wire identifier `prev`. -/
def Replaces (d : OuchDecoder) (prev key : Nat) (id : ClientOrderId) (t : OuchDecoder.Terms) :
    OuchMsg → Prop
  | .v42 (.replaced token prevToken t') =>
    decodeClOrdId token = some id ∧ key = id.value ∧
      (decodeClOrdId prevToken).map ClientOrderId.value = some prev ∧ t' = t
  | .v50 (.orderReplaced urn orig clOrdId t') =>
    Ouch50.resolve d urn (some clOrdId) = id ∧ id.valid = true ∧ key = urn ∧ orig = prev ∧
      t' = t
  | _ => False

/-- The exchange executes shares of the order, at a price that can be converted. -/
def Executes (key shares : Nat) : OuchMsg → Prop
  | .v42 (.executed _ token n _ _) =>
    (decodeClOrdId token).map ClientOrderId.value = some key ∧ n = shares
  | .v50 (.orderExecuted _ urn n price _) =>
    urn = key ∧ n = shares ∧ (price4ToPrice price).isSome = true
  | _ => False

/-- The exchange cancels shares of the order. -/
def Cancels (key shares : Nat) : OuchMsg → Prop
  | .v42 (.canceled _ token n _) =>
    (decodeClOrdId token).map ClientOrderId.value = some key ∧ n = shares
  | .v50 (.orderCanceled _ urn n _) => urn = key ∧ n = shares
  | _ => False

variable {d : OuchDecoder} {m : OuchMsg} {key prev shares : Nat} {id : ClientOrderId}
  {t : OuchDecoder.Terms} {rx : Int} {k : EventSink}

theorem Accepts.decode (h : m.Accepts d key id t) :
    m.decode d rx k = d.accept key id none t rx k := by
  unfold Accepts at h
  split at h
  · obtain ⟨hid, rfl, rfl⟩ := h
    simp only [OuchMsg.decode, Ouch42.decode, Ouch42.withToken, hid]
  · obtain ⟨rfl, hvalid, rfl, rfl⟩ := h
    simp only [OuchMsg.decode, Ouch50.decode, hvalid, if_true]
  · exact h.elim

theorem Replaces.decode (h : m.Replaces d prev key id t) :
    m.decode d rx k = d.accept key id (some prev) t rx k := by
  unfold Replaces at h
  split at h
  · obtain ⟨hid, rfl, hprev, rfl⟩ := h
    simp only [OuchMsg.decode, Ouch42.decode, Ouch42.withToken, hid, hprev]
  · obtain ⟨rfl, hvalid, rfl, rfl, rfl⟩ := h
    simp only [OuchMsg.decode, Ouch50.decode, hvalid, if_true]
  · exact h.elim

theorem Executes.decode (h : m.Executes key shares) :
    ∃ ts price matchNumber, m.decode d rx k =
      d.execute key ts shares (some price) matchNumber rx k := by
  unfold Executes at h
  split at h
  · rename_i ts token n price matchNumber
    obtain ⟨hid, rfl⟩ := h
    obtain ⟨id, hfound, rfl⟩ := Option.map_eq_some_iff.mp hid
    refine ⟨ts, (price : Int) * kPrice4Unit, matchNumber, ?_⟩
    simp only [OuchMsg.decode, Ouch42.decode, Ouch42.withToken, hfound]
  · rename_i ts urn n price matchNumber
    obtain ⟨rfl, rfl, hprice⟩ := h
    obtain ⟨p, hp⟩ := Option.isSome_iff_exists.mp hprice
    refine ⟨ts, p, matchNumber, ?_⟩
    simp only [OuchMsg.decode, Ouch50.decode, hp]
  · exact h.elim

theorem Cancels.decode (h : m.Cancels key shares) :
    ∃ ts reason, m.decode d rx k = d.cancel key ts shares reason rx k := by
  unfold Cancels at h
  split at h
  · rename_i ts token n reason
    obtain ⟨hid, rfl⟩ := h
    obtain ⟨id, hfound, rfl⟩ := Option.map_eq_some_iff.mp hid
    refine ⟨ts, reason, ?_⟩
    simp only [OuchMsg.decode, Ouch42.decode, Ouch42.withToken, hfound]
  · rename_i ts urn n reason
    obtain ⟨rfl, rfl⟩ := h
    exact ⟨ts, reason, rfl⟩
  · exact h.elim

end OuchMsg

/-! ## The chain -/

/-- The exchange's view of the order beside the decoder and the order management. -/
structure Chain where
  oms : Oms
  dec : OuchDecoder
  /-- The client order id and the wire identifier of the present leg. -/
  id : ClientOrderId
  key : Nat := 0
  accepted : Bool := false
  /-- Shares the exchange has open, has executed for the chain, and for the present leg. -/
  leaves : Nat := 0
  executed : Nat := 0
  legExecuted : Nat := 0
  /-- A replacement requested and not yet acknowledged. -/
  requested : Option ClientOrderId := none
  booked : Qty := 0

namespace Chain

/-- An event is handled and its update booked. -/
def hear (w : Chain) (m : Msg) : Chain :=
  { w with
    oms := (w.oms.receive m).1
    booked := w.booked + (w.oms.receive m).2.booked }

/-- A message is decoded and its events handled. -/
def deliver (w : Chain) (m : OuchMsg) (rx : Int) (room : Nat) : Chain :=
  let r := m.decode w.dec rx ⟨room, []⟩
  r.2.2.events.foldl hear { w with dec := r.2.1 }

/-- One step.  `ready` is what must hold when the exchange ends the order other than by an
execution, and `fresh` when an event of an execution is handled. -/
inductive Step (ready : Chain → Prop) (fresh : Oms → Msg → Prop) :
    Chain → Chain → Prop
  /-- The new order is accepted. -/
  | accept {w : Chain} {m : OuchMsg} {key room : Nat} {t : OuchDecoder.Terms} {rx : Int}
      (hnew : w.accepted = false) (hm : m.Accepts w.dec key w.id t)
      (hside : (sideFromCode t.buySellIndicator).isSome = true) (hshares : 0 < t.shares)
      (hroom : 2 ≤ room) :
      Step ready fresh w (deliver { w with
          accepted := true
          key := key
          leaves := if t.orderState = 'D' then 0 else t.shares } m rx room)
  /-- `request_replace` under a new id. -/
  | requestReplace {w : Chain} {h : Nat} {b : ClientOrderId} {px : Price} {q : Qty}
      {now : Timestamp} (hh : w.oms.openHandle w.id = some h) (hne : b ≠ w.id)
      (hvalid : b.valid = true) (hqty : 0 < q)
      (hok : (w.oms.requestReplace h b px q now).2 = .ok ()) :
      Step ready fresh w
        { w with oms := (w.oms.requestReplace h b px q now).1, requested := some b }
  | requestCancel {w : Chain} {h : Nat} :
      Step ready fresh w { w with oms := (w.oms.requestCancel h).1 }
  | requestCancelUnacked {w : Chain} {h : Nat} :
      Step ready fresh w { w with oms := (w.oms.requestCancelUnacked h).1 }
  /-- The exchange replaces the order as requested. -/
  | replace {w : Chain} {m : OuchMsg} {key room : Nat} {b : ClientOrderId}
      {t : OuchDecoder.Terms} {rx : Int} (hreq : w.requested = some b) (hlive : 0 < w.leaves)
      (hm : m.Replaces w.dec w.key key b t)
      (hside : (sideFromCode t.buySellIndicator).isSome = true) (hshares : 0 < t.shares)
      (hroom : 2 ≤ room) (hready : t.orderState = 'D' → ready { w with legExecuted := 0 }) :
      Step ready fresh w (deliver { w with
          id := b
          key := key
          leaves := if t.orderState = 'D' then 0 else t.shares
          legExecuted := 0
          requested := none } m rx room)
  /-- The exchange executes shares of the order. -/
  | execute {w : Chain} {m : OuchMsg} {shares room : Nat} {rx : Int} (hpos : 0 < shares)
      (hle : shares ≤ w.leaves) (hm : m.Executes w.key shares) (hroom : 2 ≤ room)
      (hfresh : ∀ f ∈ (m.decode w.dec rx ⟨room, []⟩).2.2.events, fresh w.oms f) :
      Step ready fresh w (deliver { w with
          leaves := w.leaves - shares
          executed := w.executed + shares
          legExecuted := w.legExecuted + shares } m rx room)
  /-- The exchange cancels shares of the order, all of them or some. -/
  | cancel {w : Chain} {m : OuchMsg} {shares room : Nat} {rx : Int} (hlive : 0 < w.leaves)
      (hle : shares ≤ w.leaves) (hm : m.Cancels w.key shares) (hroom : 2 ≤ room)
      (hready : shares = w.leaves → ready w) :
      Step ready fresh w (deliver { w with leaves := w.leaves - shares } m rx room)

/-- Any number of steps. -/
def Run (ready : Chain → Prop) (fresh : Oms → Msg → Prop) : Chain → Chain → Prop :=
  Relation.ReflTransGen (Step ready fresh)

/-- The present leg has executed something, or the chain nothing. -/
def Ready (w : Chain) : Prop := 0 < w.legExecuted ∨ w.executed = 0

/-- An execution is not taken for one filed before. -/
def Fresh (s : Oms) : Msg → Prop
  | .fill f => ¬ s.Duplicate f
  | _ => True

instance (s : Oms) (m : Msg) : Decidable (Fresh s m) :=
  match m with
  | .fill f => inferInstanceAs (Decidable (¬ s.Duplicate f))
  | .ack _ | .reject _ | .cancelAck _ | .cancelReject _ | .expired _ | .openOrder _ =>
    .isTrue trivial

/-- The order has just been sent, in any state a run reaches; the decoder's table has room. -/
def Sent (w : Chain) : Prop :=
  ∃ (s : Oms) (req : NewOrderRequest) (now : Timestamp) (h : Nat) (dec : OuchDecoder)
    (id : ClientOrderId), Reachable PositiveQty s ∧ (s.submit req id now).2 = .ok h ∧
      0 < req.qty ∧ dec.orders.size < kOrders ∧
      w = { oms := (s.submit req id now).1, dec := dec, id := id }

end Chain

end Ouch

end FastMM
