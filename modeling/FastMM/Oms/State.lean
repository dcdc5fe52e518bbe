/-
  Oms/State.lean --- the messages, the updates and the state of `Oms`.

  Source: `include/fastmm/core/oms.hpp` and the order messages of
  `include/fastmm/core/messages.hpp`.

  A message keeps the fields the order management reads.  The id map is the
  capped map its open-addressing table implements: an entry is a pool slot or a
  position of the recently-terminal ring (`kTerminalRef | slot` in the source,
  where the capacities are asserted to keep the two apart).  The execution
  memory is the set of recent keys its `RecentMap` implements.
-/
import FastMM.Core.Types
import FastMM.Core.Containers
import FastMM.Foundation.BoundedMaps
set_option autoImplicit false

namespace FastMM

open Foundation

/-! ## Messages -/

/-- `OrderAckMsg`; `amendedInPlace` is its `kAmendedInPlace` flag. -/
structure OrderAckMsg where
  hdr : EventHeader := {}
  clOrdId : ClientOrderId
  venueOrderId : VenueOrderId := .nil
  amendedInPlace : Bool := false
  deriving DecidableEq, Repr

structure OrderRejectMsg where
  hdr : EventHeader := {}
  clOrdId : ClientOrderId
  reason : RejectReason := .venueReject
  deriving DecidableEq, Repr

/-- `OrderCancelAckMsg`; `cumQty` was filled before the cancel took effect. -/
structure OrderCancelAckMsg where
  hdr : EventHeader := {}
  clOrdId : ClientOrderId
  cumQty : Qty := 0
  deriving DecidableEq, Repr

structure OrderCancelRejectMsg where
  hdr : EventHeader := {}
  clOrdId : ClientOrderId
  reason : RejectReason := .venueReject
  deriving DecidableEq, Repr

/-- `OrderFillMsg`: one execution.  `cumQty` is the venue's count after it, zero
when the venue did not say; `replayed` is the `kReplayed` flag. -/
structure OrderFillMsg where
  hdr : EventHeader := {}
  clOrdId : ClientOrderId
  venueOrderId : VenueOrderId := .nil
  execId : ExecId := .nil
  price : Price := 0
  qty : Qty := 0
  cumQty : Qty := 0
  fee : Notional := 0
  side : Side := .buy
  feeAsset : FeeAsset := .quote
  replayed : Bool := false
  deriving DecidableEq, Repr

structure OrderExpiredMsg where
  hdr : EventHeader := {}
  clOrdId : ClientOrderId
  cumQty : Qty := 0
  deriving DecidableEq, Repr

/-- `ReconcileMsg` of kind `OpenOrder`. -/
structure ReconcileMsg where
  hdr : EventHeader := {}
  clOrdId : ClientOrderId
  venueOrderId : VenueOrderId := .nil
  cumQty : Qty := 0
  deriving DecidableEq, Repr

/-! ## Updates -/

inductive OmsAction where
  | none
  | ignored
  | duplicate
  | cancelUnknown
  | lateFill
  | unknownFill
  | reconcileNeeded
  deriving DecidableEq, Repr, Inhabited

/-- `OmsUpdate`, what a handler tells the engine. -/
structure OmsUpdate where
  order : Order := {}
  handle : Handle := none
  prev : OrderState := .pendingNew
  action : OmsAction := .none
  known : Bool := false
  changed : Bool := false
  terminal : Bool := false
  refused : RejectReason := .none
  fillQty : Qty := 0
  fillPx : Price := 0
  missedQty : Qty := 0
  replacedClOrdId : ClientOrderId := .invalid
  unresolvedQty : Qty := 0
  correctedQty : Qty := 0
  syntheticPx : Price := 0
  forgottenQty : Qty := 0
  forgottenId : ClientOrderId := .invalid
  times : OrderTimes := {}
  slot : Handle := none
  deriving DecidableEq, Repr, Inhabited

structure OmsStats where
  opened : Nat := 0
  submitted : Nat := 0
  acked : Nat := 0
  rejected : Nat := 0
  canceled : Nat := 0
  filled : Nat := 0
  fills : Nat := 0
  expired : Nat := 0
  unknownIds : Nat := 0
  duplicates : Nat := 0
  lateFills : Nat := 0
  unsolicitedCancels : Nat := 0
  missedFills : Nat := 0
  correctedFills : Nat := 0
  syntheticPending : Nat := 0
  syntheticForgotten : Nat := 0
  ackTimeouts : Nat := 0
  reconcileUnresolved : Nat := 0
  deriving DecidableEq, Repr, Inhabited

/-! ## State -/

def kMaxOpenOrders : Nat := 4096

def kRecentlyTerminal : Nat := 4096

def kExecMemory : Nat := 65536

def kMaxSeq : Nat := 4294967295

/-- `OpenHashMap<ClientOrderId, uint32_t, kMaxOpenOrders * 4>::kMaxSize`, the
7/8 load cap. -/
def kIdMapMaxSize : Nat := kMaxOpenOrders * 4 - kMaxOpenOrders * 4 / 8

/-- A value of `ids_`: a pool slot, or `kTerminalRef | slot` of the ring. -/
inductive IdRef where
  | opened (slot : Nat)
  | terminal (slot : Nat)
  deriving DecidableEq, Repr

/-- `Oms::Estimate`: quantity booked before an execution named it. -/
structure Estimate where
  qty : Qty := 0
  price : Price := 0
  deriving DecidableEq, Repr, Inhabited

structure TerminalRecord where
  clOrdId : ClientOrderId := .invalid
  price : Price := 0
  qty : Qty := 0
  cumQty : Qty := 0
  instrument : InstrumentId := .invalid
  venue : VenueId := .invalid
  state : OrderState := .pendingNew
  side : Side := .buy
  byReconcile : Bool := false
  estimate : Estimate := {}
  deriving DecidableEq, Repr, Inhabited

structure ReconcileScope where
  watermark : ClientOrderId := .invalid
  bounded : Bool := false
  deriving DecidableEq, Repr, Inhabited

structure TimesSlot where
  t : OrderTimes := {}
  replaceSent : Timestamp := 0
  deriving DecidableEq, Repr, Inhabited

/-- `Oms`.  The arrays of the source are functions of their index. -/
structure Oms where
  epoch : Nat := 1
  maxSeq : Nat := kMaxSeq
  seq : Nat := 0
  stats : OmsStats := {}
  pool : Pool Order kMaxOpenOrders := .empty
  byInst : BucketBits kMaxOpenOrders kMaxInstruments := .empty
  ids : CappedMap ClientOrderId IdRef kIdMapMaxSize := .empty
  recentlyTerminal : RingBuffer TerminalRecord kRecentlyTerminal := .empty
  execSeen : RecentKeys UInt64 kExecMemory := .empty
  bestOwn : Nat → Side → Price := fun _ _ => 0
  openQty : Nat → Side → Qty := fun _ _ => 0
  openPerInst : Nat → Nat := fun _ => 0
  reconScope : Nat → ReconcileScope := fun _ => {}
  times : Nat → TimesSlot := fun _ => {}
  estimates : Nat → Estimate := fun _ => {}

instance : Inhabited Oms := ⟨{}⟩

end FastMM
