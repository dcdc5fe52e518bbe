/-
  Quote/Runs.lean --- runs of the quote manager beside its order management.

  An operation is a call of the manager, a message the order management handles and
  whose update the manager is passed, an update passed on its own, or a call others make
  on the order management.  An update goes to the instrument the caller names, so a
  message whose update the manager never sees is one passed for another instrument.

  Each operation has a placer of its own, and starts with nothing placed: after it,
  `placed` holds the actions of this operation.
-/
import FastMM.Oms.Runs
import FastMM.Quote.QuoteManager
set_option autoImplicit false

namespace FastMM

/-- An operation of a run. -/
inductive QuoteOp where
  | setParams (p : QuoteParams)
  | setReplace (i : InstrumentId) (on : Bool)
  | reconcile (inst : QuotedInstrument) (desired : DesiredQuotes) (now : Timestamp)
  | pullQuotes (inst : QuotedInstrument) (keepDesired : Bool)
  | pauseQuotes (i : InstrumentId)
  | resume (inst : QuotedInstrument) (now : Timestamp)
  | holdSide (s : Side) (on : Bool)
  | pullSide (inst : QuotedInstrument) (s : Side) (now : Timestamp)
  | reapply (inst : QuotedInstrument) (now : Timestamp)
  | retry (inst : QuotedInstrument) (now : Timestamp)
  | retryBackedOff (inst : QuotedInstrument) (now : Timestamp)
  | retryPriced (inst : QuotedInstrument) (now : Timestamp)
  | popStarved
  /-- `take_backoff_due`, retrying the instruments that may quote. -/
  | takeBackoffDue (enabled : InstrumentId → Option QuotedInstrument) (now : Timestamp)
  /-- `take_priced`, retrying the instruments that may quote. -/
  | takePriced (enabled : InstrumentId → Option QuotedInstrument) (now : Timestamp)
  /-- A message, and its update passed for `inst`. -/
  | deliver (m : Oms.Msg) (inst : QuotedInstrument) (now : Timestamp)
  /-- An order `reconcile_end` ends, and its update passed for `inst`. -/
  | ended (h : Nat) (inst : QuotedInstrument) (now : Timestamp)
  /-- An update passed on its own: an old one, or one passed again. -/
  | update (u : OmsUpdate) (inst : QuotedInstrument) (now : Timestamp)
  /-- A call others make. -/
  | call (c : Oms.Call)
  | reconcileBegin (venue : VenueId) (sentWatermark : Option ClientOrderId)

namespace QuoteDesk

variable (f : Placer)
variable (d : QuoteDesk)

/-- Writes the order management. -/
def withOms (s : Oms) : QuoteDesk := { d with oms := s }

/-- The retry a queue's callback makes. -/
def retryIf (g : QuotedInstrument → QuoteDesk → QuoteDesk)
    (enabled : InstrumentId → Option QuotedInstrument) (i : InstrumentId) (d : QuoteDesk) :
    QuoteDesk :=
  match enabled i with
  | some inst => g inst d
  | none => d

/-- A message, whose update is passed on after the order management handled it. -/
def deliver (m : Oms.Msg) (inst : QuotedInstrument) (now : Timestamp)
    (d : QuoteDesk) : QuoteDesk :=
  (d.withOms (d.oms.receive m).1).onOrderUpdate f (d.oms.receive m).2 inst now

/-- An order that a reconciliation ends, and its update. -/
def endOrder (h : Nat) (inst : QuotedInstrument) (now : Timestamp) (d : QuoteDesk) :
    QuoteDesk :=
  match d.oms.reconcileEndOne h with
  | none => d
  | some (s, u) => (d.withOms s).onOrderUpdate f u inst now

/-- An operation. -/
def run : QuoteOp → QuoteDesk
  | .setParams p => d.setParams p
  | .setReplace i on => d.setReplace i on
  | .reconcile inst desired now => d.reconcile f inst desired now
  | .pullQuotes inst keepDesired => d.pullQuotes f inst keepDesired
  | .pauseQuotes i => d.pauseQuotes i
  | .resume inst now => d.resume f inst now
  | .holdSide s on => d.holdSide s on
  | .pullSide inst s now => d.pullSide f inst s now
  | .reapply inst now => d.reapply f inst now
  | .retry inst now => d.retry f inst now
  | .retryBackedOff inst now => d.retryBackedOff f inst now
  | .retryPriced inst now => d.retryPriced f inst now
  | .popStarved => d.popStarved
  | .takeBackoffDue enabled now =>
    d.takeBackoffDue (retryIf (fun inst => retryBackedOff f inst now) enabled) now
  | .takePriced enabled now => d.takePriced (retryIf (fun inst => retryPriced f inst now) enabled)
  | .deliver m inst now => d.deliver f m inst now
  | .ended h inst now => d.endOrder f h inst now
  | .update u inst now => d.onOrderUpdate f u inst now
  | .call c => d.withOms (d.oms.call c)
  | .reconcileBegin venue wm => d.withOms (d.oms.reconcileBegin venue wm)

/-- An operation, with nothing placed before it. -/
def step (op : QuoteOp) : QuoteDesk := { d with placed := [] }.run f op

/-- Only the manager uses quote tags. -/
def Own : QuoteOp → Prop
  | .call (.submit req _ _) => isQuoteTag req.userTag = false
  | _ => True

/-- An update goes to its own instrument. -/
def Passed (s : Oms) : QuoteOp → Prop
  | .deliver m inst _ => inst.id = (s.receive m).2.order.instrument
  | _ => True

/-- The orders as the manager finds them: after the message, before its own work. -/
def heard : QuoteOp → Oms
  | .deliver m _ _ => (d.oms.receive m).1
  | _ => d.oms

/-- A working quote order of an instrument. -/
def WorkingQuote (s : Oms) (i : InstrumentId) (h : Nat) (o : Order) : Prop :=
  s.get h = some o ∧ o.instrument = i ∧ isQuoteTag o.userTag = true ∧ o.isWorking = true

/-- The states of the runs in which only the manager uses quote tags. -/
inductive Reachable : QuoteDesk → Prop
  | init (p : QuoteParams) (epoch maxSeq : Nat) : Reachable ⟨.init p, Oms.init epoch maxSeq, []⟩
  | step {d : QuoteDesk} (h : Reachable d) (f : Placer) (op : QuoteOp) (hop : Own op) :
      Reachable (d.step f op)

/-! ## A run -/

/-- An instrument with a tick of one. -/
def exampleInstrument : QuotedInstrument := { id := ⟨0⟩, enabled := true, tick := 1 }

/-- One bid of ten at a hundred. -/
def exampleQuotes : DesiredQuotes := { bids := ⟨[{ price := 100, qty := 10 }], by decide⟩ }

/-- A placer that sends everything. -/
def examplePlacer : Placer := fun _ _ _ => { id := ⟨1⟩, venue := ⟨0⟩ }

/-- The manager once it has placed the bid, which is in flight. -/
def exampleDesk : QuoteDesk :=
  QuoteDesk.step examplePlacer ⟨.init {}, Oms.init 1 10, []⟩
    (.reconcile exampleInstrument exampleQuotes 5)

/-- The ack of the bid. -/
def exampleAck : Oms.Msg := .ack { clOrdId := ⟨1⟩ }

/-- The bid once it is acknowledged. -/
def exampleAcked : Order where
  clOrdId := ⟨1⟩
  instrument := ⟨0⟩
  venue := ⟨0⟩
  side := .buy
  type := .postOnly
  tif := .gtc
  flags := { postOnly := true, reduceOnly := false }
  state := .live
  price := 100
  qty := 10
  created := 0
  userTag := makeTag .buy 0

theorem exampleDesk_reachable : Reachable exampleDesk :=
  .step (.init {} 1 10) examplePlacer _ trivial

end QuoteDesk

end FastMM
