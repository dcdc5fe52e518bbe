/-
  Venue/Lanes.lean --- our orders between the order management and the venue.

  Source: what `Engine::submit_new`, `submit_cancel` and `submit_replace` of
  `include/fastmm/core/engine.hpp` do once an order has passed its checks: the id, the call
  on the order management, and the message to the venue.

  The venue is no code of the repository.  An order has a lane of its own: the requests that
  are on their way, how the order stands at the venue, and the messages that are on their way
  back.  The venue answers the requests of a lane in the order sent, and its messages arrive
  in the order sent, each as late as it likes; lanes do not wait for each other.  While an
  order rests, the venue says of it what is so.  Of one that does not rest, or no longer, it
  may say anything.
-/
import FastMM.Oms.SessionIds
import FastMM.Risk.Checks
set_option autoImplicit false

namespace FastMM

/-! ## One order -/

/-- What the venue is asked: `OutNewOrderMsg`, `OutCancelMsg` and `OutReplaceMsg`. -/
inductive Request where
  | new (id : ClientOrderId) (price : Price) (qty : Qty)
  | cancel (id : ClientOrderId)
  | replace (orig newId : ClientOrderId) (price : Price) (qty : Qty)
  deriving DecidableEq, Repr

/-- An order in the venue's book. -/
structure RestingOrder where
  id : ClientOrderId
  price : Price
  qty : Qty
  filled : Qty
  deriving DecidableEq, Repr

/-- How an order stands at the venue. -/
inductive Standing where
  | awaited
  | rests (leg : RestingOrder)
  | gone
  deriving DecidableEq, Repr

/-- An order, from its request to its end. -/
structure Lane where
  order : NewOrderRequest
  ids : List ClientOrderId
  requests : List Request
  standing : Standing
  mail : List Oms.Msg

/-- A limit order that is neither IOC nor FOK. -/
def NewOrderRequest.mayRest (r : NewOrderRequest) : Bool :=
  decide (r.type ≠ .market ∧ r.tif ≠ .ioc ∧ r.tif ≠ .fok)

/-- What the venue does about one order. -/
inductive VenueAct where
  /-- It takes the order into its book. -/
  | accept (m : OrderAckMsg)
  /-- It replaces the resting order, keeping its fills when it amends in place. -/
  | amend (m : OrderAckMsg)
  /-- It cancels the resting order and takes the replacement. -/
  | swap (c : OrderCancelAckMsg) (m : OrderAckMsg)
  /-- It refuses a replace. -/
  | refuseReplace (m : OrderRejectMsg)
  /-- It refuses a cancel. -/
  | refuseCancel (m : OrderCancelRejectMsg)
  /-- It executes part of the resting order. -/
  | fill (m : OrderFillMsg)
  /-- It acknowledges the resting order again. -/
  | ack (m : OrderAckMsg)
  /-- The order does not rest: filled, cancelled, expired or refused, or never to rest. -/
  | leave (answers : Bool) (ms : List Oms.Msg)

namespace Lane

/-- An order just sent. -/
def sent (req : NewOrderRequest) (id : ClientOrderId) : Lane where
  order := req
  ids := [id]
  requests := [.new id req.price req.qty]
  standing := .awaited
  mail := []

/-- A request goes out, with the id it introduces. -/
def ask (r : Request) (l : Lane) : Lane :=
  { l with
    requests := l.requests ++ [r]
    ids := match r with
      | .replace _ newId _ _ => newId :: l.ids
      | _ => l.ids }

/-- A request is answered. -/
def answer (l : Lane) (rest : List Request) (st : Standing) (ms : List Oms.Msg) : Lane :=
  { l with requests := rest, standing := st, mail := l.mail ++ ms }

/-- The fills a replaced order starts from. -/
def kept (leg : RestingOrder) (m : OrderAckMsg) : Qty := if m.amendedInPlace then leg.filled else 0

/-- The venue acts; what it cannot do changes nothing. -/
def act (l : Lane) : VenueAct → Lane
  | .accept m =>
    match l.standing, l.requests with
    | .awaited, .new id px qty :: rest =>
      if m.clOrdId = id ∧ l.order.mayRest = true then
        l.answer rest (.rests ⟨id, px, qty, 0⟩) [.ack m]
      else l
    | _, _ => l
  | .amend m =>
    match l.standing, l.requests with
    | .rests leg, .replace orig newId px qty :: rest =>
      if leg.id = orig ∧ m.clOrdId = newId ∧ kept leg m < qty then
        l.answer rest (.rests ⟨newId, px, qty, kept leg m⟩) [.ack m]
      else l
    | _, _ => l
  | .swap c m =>
    match l.standing, l.requests with
    | .rests leg, .replace orig newId px qty :: rest =>
      if leg.id = orig ∧ c.clOrdId = orig ∧ c.cumQty ≤ leg.filled ∧ m.clOrdId = newId ∧
          m.amendedInPlace = false ∧ 0 < qty then
        l.answer rest (.rests ⟨newId, px, qty, 0⟩) [.cancelAck c, .ack m]
      else l
    | _, _ => l
  | .refuseReplace m =>
    match l.standing, l.requests with
    | .rests leg, .replace _ newId _ _ :: rest =>
      if m.clOrdId = newId then l.answer rest (.rests leg) [.reject m] else l
    | _, _ => l
  | .refuseCancel m =>
    match l.standing, l.requests with
    | .rests leg, .cancel id :: rest =>
      if m.clOrdId = id ∧ m.reason ≠ .venueUnknownOrder then
        l.answer rest (.rests leg) [.cancelReject m]
      else l
    | _, _ => l
  | .fill m =>
    match l.standing with
    | .rests leg =>
      if m.clOrdId = leg.id ∧ 0 < m.qty ∧ leg.filled + m.qty < leg.qty ∧
          (m.cumQty = 0 ∨ m.cumQty = leg.filled + m.qty) then
        l.answer l.requests (.rests { leg with filled := leg.filled + m.qty }) [.fill m]
      else l
    | _ => l
  | .ack m =>
    match l.standing with
    | .rests leg =>
      if m.clOrdId = leg.id then l.answer l.requests (.rests leg) [.ack m] else l
    | _ => l
  | .leave answers ms =>
    if ∀ m ∈ ms, m.clOrdId ∈ l.ids then
      l.answer (if answers then l.requests.tail else l.requests) .gone ms
    else l

end Lane

/-! ## All of them -/

/-- The order management and the lanes; `line` has the lane of the order in a slot. -/
structure Wire where
  oms : Oms
  lanes : List Lane
  line : Nat → Nat

/-- An order, a replace or a cancel of ours, an act of the venue, an arrival. -/
inductive WireOp where
  | submit (req : NewOrderRequest) (now : Timestamp)
  | replace (h : Nat) (px : Price) (qty : Qty) (now : Timestamp)
  | cancel (h : Nat)
  /-- The cancel of the ack-timeout sweep. -/
  | cancelUnacked (h : Nat)
  | act (n : Nat) (a : VenueAct)
  | deliver (n : Nat)

namespace Wire

variable (w : Wire)

/-- Asks the venue about the order in slot `h`. -/
def ask (s : Oms) (h : Nat) (r : Request) : Wire :=
  { w with oms := s, lanes := w.lanes.modify (w.line h) (Lane.ask r) }

/-- `submit_new` from the id on. -/
def submit (req : NewOrderRequest) (now : Timestamp) : Wire :=
  let (s, id) := w.oms.nextClOrdId
  if id.valid = false then { w with oms := s }
  else
    match s.submit req id now with
    | (s, .ok h) =>
      { oms := s
        lanes := w.lanes ++ [.sent req id]
        line := Function.update w.line h w.lanes.length }
    | (s, .error _) => { w with oms := s }

/-- `submit_replace` from the id on. -/
def replace (h : Nat) (px : Price) (qty : Qty) (now : Timestamp) : Wire :=
  match w.oms.get h with
  | none => w
  | some o =>
    let (s, id) := w.oms.nextClOrdId
    if id.valid = false then { w with oms := s }
    else
      match s.requestReplace h id px qty now with
      | (s, .ok _) => w.ask s h (.replace o.clOrdId id px qty)
      | (s, .error _) => { w with oms := s }

/-- `submit_cancel`, and the same with the cancel of the ack-timeout sweep. -/
def cancel (h : Nat) (request : Oms → Nat → Oms × Except RejectReason Unit) : Wire :=
  match w.oms.get h with
  | none => w
  | some o =>
    match request w.oms h with
    | (s, .ok _) => w.ask s h (.cancel o.clOrdId)
    | (_, .error _) => w

/-- The next message of a lane arrives. -/
def deliver (n : Nat) : Wire :=
  match w.lanes[n]? with
  | none => w
  | some l =>
    match l.mail with
    | [] => w
    | m :: ms =>
      { w with
        oms := (w.oms.receive m).1
        lanes := w.lanes.set n { l with mail := ms } }

def step : WireOp → Wire
  | .submit req now => w.submit req now
  | .replace h px qty now => w.replace h px qty now
  | .cancel h => w.cancel h Oms.requestCancel
  | .cancelUnacked h => w.cancel h Oms.requestCancelUnacked
  | .act n a => { w with lanes := w.lanes.modify n fun l => l.act a }
  | .deliver n => w.deliver n

/-- Nothing sent yet. -/
def init (epoch maxSeq : Nat) : Wire := ⟨Oms.init epoch maxSeq, [], fun _ => 0⟩

/-- The states of the runs whose operations all meet `P`. -/
inductive Reachable (P : Wire → WireOp → Prop) : Wire → Prop
  | init (epoch maxSeq : Nat) (hseq : maxSeq ≤ kMaxSeq) : Reachable P (init epoch maxSeq)
  | step {w : Wire} (h : Reachable P w) (op : WireOp) (hop : P w op) : Reachable P (w.step op)

/-- The venue's book holds `leg` for the order `l`. -/
def Resting (l : Lane) (leg : RestingOrder) : Prop :=
  l ∈ w.lanes ∧ l.standing = .rests leg

/-- The order management after an operation: what each operation leaves of it. -/
theorem step_oms {Inv : Oms → Prop} {w : Wire} {op : WireOp} (h : Inv w.oms)
    (hnext : Inv w.oms.nextClOrdId.1)
    (hsubmit : ∀ req now, op = .submit req now → w.oms.nextClOrdId.2.valid = true →
      Inv (w.oms.nextClOrdId.1.submit req w.oms.nextClOrdId.2 now).1)
    (hreplace : ∀ h px qty now, op = .replace h px qty now → w.oms.nextClOrdId.2.valid = true →
      Inv (w.oms.nextClOrdId.1.requestReplace h w.oms.nextClOrdId.2 px qty now).1)
    (hcancel : ∀ h, Inv (w.oms.requestCancel h).1)
    (hcancelUnacked : ∀ h, Inv (w.oms.requestCancelUnacked h).1)
    (hreceive : ∀ m, Inv (w.oms.receive m).1) : Inv (w.step op).oms := by
  cases op with
  | submit req now =>
    have hsub := hsubmit req now rfl
    simp only [step, submit]
    split_ifs with hvalid
    · exact hnext
    have hinv := hsub (by simpa using hvalid)
    split
    · rename_i heq
      rw [heq] at hinv
      exact hinv
    · rename_i heq
      rw [heq] at hinv
      exact hinv
  | replace h px qty now =>
    have hrep := hreplace h px qty now rfl
    simp only [step, replace]
    split
    · assumption
    split_ifs with hvalid
    · exact hnext
    have hinv := hrep (by simpa using hvalid)
    split
    · rename_i heq
      rw [heq] at hinv
      exact hinv
    · rename_i heq
      rw [heq] at hinv
      exact hinv
  | cancel k =>
    have hinv := hcancel k
    simp only [step, cancel]
    split
    · exact h
    split
    · rename_i heq
      rw [heq] at hinv
      exact hinv
    · exact h
  | cancelUnacked k =>
    have hinv := hcancelUnacked k
    simp only [step, cancel]
    split
    · exact h
    split
    · rename_i heq
      rw [heq] at hinv
      exact hinv
    · exact h
  | act n a => exact h
  | deliver n =>
    simp only [step, deliver]
    split
    · exact h
    · split
      · exact h
      · exact hreceive _

end Wire

end FastMM
