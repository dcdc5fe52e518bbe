/-
  Core/Types.lean --- identifiers, enumerations and the order record.

  Source: `include/fastmm/core/enums.hpp`, `strong_id.hpp`, `fixed_string.hpp`,
  `fixed_point.hpp`, `time.hpp`, `order.hpp`, `messages.hpp` and
  `book/book_view.hpp`.

  Prices and quantities are `Fixed<Tag>` in the source: one signed 64-bit raw
  value, with the built-in operators.  Signed overflow is undefined there, so
  the raw value is an `Int` here: the two agree on every execution the source
  defines.  Identifiers keep their invalid value, because the source tests it.
-/
import Mathlib.Algebra.GroupWithZero.Nat
import Mathlib.Algebra.Ring.Int.Defs
set_option autoImplicit false

namespace FastMM

/-! ## Scalars -/

/-- `Price`, by its raw value. -/
abbrev Price : Type := Int

/-- `Qty`, by its raw value. -/
abbrev Qty : Type := Int

/-- `Notional`, by its raw value. -/
abbrev Notional : Type := Int

/-- `Timestamp`, nanoseconds; zero is the invalid time. -/
abbrev Timestamp : Type := Int

def kMaxInstruments : Nat := 256

/-- `InstrumentId`: a dense index, with `2^32 - 1` the invalid one. -/
structure InstrumentId where
  value : Nat
  deriving DecidableEq, Repr

namespace InstrumentId

def invalid : InstrumentId := ⟨2 ^ 32 - 1⟩

def valid (i : InstrumentId) : Bool := i != invalid

theorem value_inj {a b : InstrumentId} : a.value = b.value ↔ a = b :=
  ⟨congrArg mk, congrArg value⟩

end InstrumentId

instance : Inhabited InstrumentId := ⟨.invalid⟩

/-- `VenueId`, with 255 the invalid one. -/
structure VenueId where
  value : Nat
  deriving DecidableEq, Repr

namespace VenueId

def invalid : VenueId := ⟨255⟩

def valid (v : VenueId) : Bool := v != invalid

end VenueId

instance : Inhabited VenueId := ⟨.invalid⟩

/-- `ClientOrderId`: 48 bits on the wire, and 0 is never issued. -/
structure ClientOrderId where
  value : Nat
  deriving DecidableEq, Repr

namespace ClientOrderId

/-- `ClientOrderId{}`. -/
def invalid : ClientOrderId := ⟨0⟩

def valid (id : ClientOrderId) : Bool := id != invalid

@[simp] theorem valid_eq_true_iff (id : ClientOrderId) :
    id.valid = true ↔ id ≠ invalid := by
  simp [valid]

end ClientOrderId

instance : Inhabited ClientOrderId := ⟨.invalid⟩

/-- `Handle<Order>`: a pool slot, `none` for the null handle. -/
abbrev Handle : Type := Option Nat

/-! ## Fixed strings -/

/-- `FixedString<N>`: at most `N` bytes. -/
structure FixedString (N : Nat) where
  bytes : List UInt8
  length_le : bytes.length ≤ N
  deriving DecidableEq, Repr

namespace FixedString

variable {N : Nat}

/-- `FixedString{}`. -/
def nil : FixedString N := ⟨[], Nat.zero_le N⟩

instance : Inhabited (FixedString N) := ⟨nil⟩

/-- `FixedString(std::string_view)`: a longer text is cut. -/
def assign (text : List UInt8) : FixedString N :=
  ⟨text.take N, by rw [List.length_take]; exact Nat.min_le_left N text.length⟩

def empty (s : FixedString N) : Bool := s.bytes.isEmpty

/-- `FixedString::hash`: 64-bit FNV-1a over the bytes. -/
def hash (s : FixedString N) : UInt64 :=
  s.bytes.foldl (fun h b => (h ^^^ b.toUInt64) * 1099511628211) 14695981039346656037

end FixedString

abbrev VenueOrderId : Type := FixedString 40

abbrev ExecId : Type := FixedString 40

/-! ## Enumerations -/

inductive Side where
  | buy
  | sell
  deriving DecidableEq, Repr, Inhabited

namespace Side

def opposite : Side → Side
  | buy => sell
  | sell => buy

def sign : Side → Int
  | buy => 1
  | sell => -1

/-- The underlying value of the enumerator. -/
def code : Side → Nat
  | buy => 0
  | sell => 1

end Side

/-- `at_or_better(Side, Price, Price)`: `p` is at least as good as `q`. -/
def atOrBetter (s : Side) (p q : Price) : Bool :=
  match s with
  | .buy => decide (q ≤ p)
  | .sell => decide (p ≤ q)

/-- `better(Side, Price, Price)`: `p` is strictly better than `q`. -/
def better (s : Side) (p q : Price) : Bool :=
  match s with
  | .buy => decide (q < p)
  | .sell => decide (p < q)

/-- `FeeAsset`; `invalid` is any other byte. -/
inductive FeeAsset where
  | quote
  | base
  | other
  | invalid
  deriving DecidableEq, Repr, Inhabited

inductive OrderType where
  | limit
  | market
  | postOnly
  deriving DecidableEq, Repr, Inhabited

inductive TimeInForce where
  | gtc
  | ioc
  | fok
  | day
  deriving DecidableEq, Repr, Inhabited

inductive OrderState where
  | pendingNew
  | live
  | partiallyFilled
  | pendingCancel
  | pendingReplace
  | filled
  | canceled
  | rejected
  | expired
  deriving DecidableEq, Repr, Inhabited

namespace OrderState

def isTerminal : OrderState → Bool
  | filled | canceled | rejected | expired => true
  | _ => false

def isPending : OrderState → Bool
  | pendingNew | pendingCancel | pendingReplace => true
  | _ => false

/-- `Order::is_working`, as a property of the state. -/
def isWorking : OrderState → Bool
  | live | partiallyFilled => true
  | _ => false

theorem not_isTerminal_of_isWorking {st : OrderState} (h : st.isWorking = true) :
    st.isTerminal = false := by
  cases st <;> first | rfl | exact absurd h (by decide)

end OrderState

/-- `RejectReason`, in the source's order. -/
inductive RejectReason where
  | none
  | killSwitch
  | venueKilled
  | instrumentDisabled
  | invalidTick
  | invalidLot
  | belowMinNotional
  | staleMarketData
  | priceCollar
  | fatFinger
  | maxOrderQty
  | maxOrderNotional
  | maxPosition
  | maxOpenOrders
  | selfTradePrevention
  | rateLimit
  | maxLoss
  | maxGrossNotional
  | maxNetNotional
  | fxRateUnknown
  | feedLag
  | maxUnderlyingNet
  | underlyingMarkUnknown
  | balanceShort
  | reduceOnly
  | pricedOut
  | poolExhausted
  | unknownOrder
  | invalidState
  | duplicateId
  | transportFull
  | notReconciled
  | invalidTag
  | orderTableFull
  | invalidAccount
  | homeUnavailable
  | gatewayRateLimit
  | gatewayOpenNotional
  | gatewayNotOwner
  | gatewayAccountKilled
  | gatewayGrossNotional
  | gatewayNetNotional
  | gatewayFxRateUnknown
  | gatewayUnderlyingNet
  | gatewayUnderlyingMarkUnknown
  | gatewaySelfTrade
  | gatewayBalanceShort
  | venueReject
  | postOnlyWouldCross
  | insufficientBalance
  | venueRateLimit
  | venueUnknownOrder
  deriving DecidableEq, Repr, Inhabited

/-! ## Orders -/

/-- `Order::Flags`, one field per bit. -/
structure OrderFlags where
  postOnly : Bool := false
  reduceOnly : Bool := false
  unsolicitedCancel : Bool := false
  reconciled : Bool := false
  seenInReconcile : Bool := false
  synthetic : Bool := false
  replaceOldCanceled : Bool := false
  deriving DecidableEq, Repr, Inhabited

/-- `Order`, the record the order management keeps for one order. -/
structure Order where
  clOrdId : ClientOrderId := .invalid
  venueOrderId : VenueOrderId := .nil
  arm : UInt8 := 0
  instrument : InstrumentId := .invalid
  venue : VenueId := .invalid
  side : Side := .buy
  type : OrderType := .limit
  tif : TimeInForce := .gtc
  state : OrderState := .pendingNew
  rejectReason : RejectReason := .none
  flags : OrderFlags := {}
  cancelAttempts : UInt8 := 0
  userTag : Nat := 0
  price : Price := 0
  qty : Qty := 0
  cumQty : Qty := 0
  created : Timestamp := 0
  pendingClOrdId : ClientOrderId := .invalid
  pendingPrice : Price := 0
  pendingQty : Qty := 0
  deriving DecidableEq, Repr, Inhabited

namespace Order

def leavesQty (o : Order) : Qty := o.qty - o.cumQty

def isWorking (o : Order) : Bool := o.state.isWorking

end Order

/-- `OrderTimes`: when the order's working leg was sent and accepted. -/
structure OrderTimes where
  sent : Timestamp := 0
  venueAck : Timestamp := 0
  localAck : Timestamp := 0
  deriving DecidableEq, Repr, Inhabited

/-- `NewOrderRequest`.  The account and the value are resolved by the engine
before the order management sees the request, which reads neither. -/
structure NewOrderRequest where
  instrument : InstrumentId := .invalid
  venue : VenueId := .invalid
  side : Side := .buy
  type : OrderType := .limit
  tif : TimeInForce := .gtc
  postOnly : Bool := false
  reduceOnly : Bool := false
  price : Price := 0
  qty : Qty := 0
  userTag : Nat := 0
  deriving DecidableEq, Repr, Inhabited

/-! ## Market data -/

/-- `EventHeader`, the fields the modelled handlers read.  Flags stand in the
messages they belong to. -/
structure EventHeader where
  instrument : InstrumentId := .invalid
  venue : VenueId := .invalid
  exchTs : Timestamp := 0
  recvTs : Timestamp := 0
  deriving DecidableEq, Repr, Inhabited

/-- `Level`: one price level. -/
structure Level where
  price : Price := 0
  qty : Qty := 0
  deriving DecidableEq, Repr, Inhabited

/-- How good a price is on a side: the larger, the better. -/
def goodness : Side → Price → Int
  | .buy, p => p
  | .sell, p => -p

theorem better_iff (s : Side) (p q : Price) :
    better s p q = true ↔ goodness s q < goodness s p := by
  cases s with
  | buy => exact decide_eq_true_iff
  | sell => exact decide_eq_true_iff.trans Int.neg_lt_neg_iff.symm

theorem goodness_injective (s : Side) {p q : Price} (h : goodness s p = goodness s q) : p = q := by
  cases s with
  | buy => exact h
  | sell => exact Int.neg_inj.mp h

end FastMM
