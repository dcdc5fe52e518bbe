/-
  Risk/Checks.lean --- the pre-trade checks.

  Source: `include/fastmm/core/risk.hpp` (`TokenBucket`, `RiskEngine::check_new`,
  `check_replace`, `evaluate`), `risk_limits.hpp`, and what the checks read of
  `position.hpp` and `underlying.hpp`.

  An order passes when none of a fixed sequence of checks refuses it and the
  token bucket has a token.  Each check is a function of its own that names the
  reason it gives; `checks` has them in the source's order.
-/
import FastMM.Core.Instrument
import Mathlib.Data.List.Forall2
set_option autoImplicit false

namespace FastMM

/-! ## Quantities against a position -/

/-- `opening_qty`: the part of an order that does not close the position, once
`ahead` has taken its share of the way to zero. -/
def openingQty (q : Qty) (side : Side) (ahead qty : Qty) : Qty :=
  if q = 0 ∨ (decide (0 < q) = decide (side = .buy)) then qty
  else
    let room := absRaw q - ahead
    if room ≤ 0 then qty else if room < qty then qty - room else 0

def nearerZero (q : Qty) (side : Side) (ahead qty : Qty) : Bool :=
  if q = 0 ∨ (decide (0 < q) = decide (side = .buy)) then false
  else
    let room := absRaw q - ahead
    decide (0 < room ∧ qty - room < room)

/-- `notional_share`, rounded up. -/
def notionalShare (n : Notional) (part qty : Qty) : Notional :=
  if qty ≤ part ∨ qty ≤ 0 then n else (n * part + qty - 1).tdiv qty

/-- `to_base_units`: `none` for an inverse contract without a mark. -/
def toBaseUnits (inst : Instrument) (qty : Qty) (mark : Price) : Option Qty :=
  if qty = 0 then some 0
  else if inst.inverse then
    if 0 < mark then some ((qty * inst.contractMultiplier).tdiv mark) else none
  else some (if inst.contractMultiplier = kFixedScale then qty
    else mulRaw qty inst.contractMultiplier)

def underlyingExceeds (maxNet net worst : Qty) : Bool :=
  decide (0 < maxNet ∧ maxNet < absRaw worst ∧ absRaw net < absRaw worst)

/-! ## The token bucket -/

structure TokenBucket where
  rate : Int := 0
  capacity : Int := 0
  tokens : Int := 0
  last : Timestamp := 0
  deriving DecidableEq, Repr

namespace TokenBucket

def kScale : Int := 1000000

def refill (b : TokenBucket) (now : Timestamp) : TokenBucket :=
  if now ≤ b.last then b
  else
    let tokens := b.tokens + castInt64 (((now - b.last) * b.rate * kScale).tdiv 1000000000)
    { b with tokens := if b.capacity < tokens then b.capacity else tokens, last := now }

def tryTake (b : TokenBucket) (now : Timestamp) : TokenBucket × Bool :=
  if b.rate = 0 then (b, true)
  else
    let b := b.refill now
    if b.tokens < kScale then (b, false) else ({ b with tokens := b.tokens - kScale }, true)

end TokenBucket

/-! ## What a check reads -/

structure OrderIntent where
  instrument : InstrumentId
  venue : VenueId
  side : Side
  type : OrderType := .limit
  price : Price
  qty : Qty
  tif : TimeInForce := .gtc
  deriving DecidableEq, Repr

structure UnderlyingInputs where
  net : Qty := 0
  opened : Qty := 0
  limited : Bool := false
  known : Bool := true
  deriving DecidableEq, Repr

/-- `RiskInputs`; of the position the checks read the quantity. -/
structure RiskInputs where
  now : Timestamp := 0
  position : Option Qty := none
  grossExposure : Notional := 0
  netExposure : Notional := 0
  openSameSide : Qty := 0
  openOrders : Nat := 0
  bestOwnOpposite : Price := 0
  feedLagged : Bool := false
  underlying : UnderlyingInputs := {}
  balanceShort : Bool := false
  primaryKilled : Bool := false
  accountFull : Bool := false
  flatten : Bool := false
  reduceOnly : Bool := false
  deriving DecidableEq, Repr

/-- `RiskLimits`, those `evaluate` and `headroom` read; zero turns a limit off. -/
structure RiskLimits where
  maxOrderQty : Qty := 0
  maxOrderNotional : Notional := 0
  maxPosition : Qty := 0
  maxOpenOrders : Nat := 0
  staleMd : Duration := 0
  maxGrossNotional : Notional := 0
  maxNetNotional : Notional := 0
  maxLoss : Notional := 0
  stp : Bool := true
  deriving DecidableEq, Repr

structure MdState where
  bookTs : Timestamp := 0
  mid : Price := 0
  collarLo : Price := 0
  collarHi : Price := 0
  ffLo : Price := 0
  ffHi : Price := 0
  deriving DecidableEq, Repr

structure RiskStats where
  checks : Nat := 0
  passed : Nat := 0
  rejects : RejectReason → Nat := fun _ => 0

/-- `RiskEngine`.  `kill` are the bits of `kill_`; arrays are functions of their
index. -/
structure RiskEngine where
  limits : RiskLimits := {}
  bucket : TokenBucket := {}
  stats : RiskStats := {}
  kill : Nat → Bool := fun _ => false
  md : Nat → MdState := fun _ => {}
  portfolio : Bool := false
  fxGate : Bool := false
  fxStale : Duration := 0
  fxCcy : Nat → Nat := fun _ => 0
  fxSrc : Nat → FxSource := fun _ => {}
  fxValid : Nat → Bool := fun _ => false
  undOf : Nat → Nat := fun _ => 0
  undMax : Nat → Qty := fun _ => 0

namespace RiskEngine

def kMaxCurrencies : Nat := 8

/-- The bit of `venue_bit`. -/
def venueBit (v : VenueId) : Nat := 1 + (if v.value < 31 then v.value else 30)

/-- A book time is too old for `stale`. -/
def stale (bookTs now : Timestamp) (limit : Duration) : Bool :=
  decide (0 < limit ∧ (bookTs = 0 ∨ limit < now - bookTs))

def underlyingMark (r : RiskEngine) (id : InstrumentId) (now : Timestamp) : Price :=
  if kMaxInstruments ≤ id.value then 0
  else if ¬ 0 < (r.md id.value).mid then 0
  else if stale (r.md id.value).bookTs now r.limits.staleMd then 0
  else (r.md id.value).mid

def fxRate (r : RiskEngine) (c : Nat) (now : Timestamp) : FxRate :=
  if c = 0 then ⟨1, 1⟩
  else if kMaxCurrencies ≤ c ∨ r.fxValid c = false ∨ (r.fxSrc c).instrument.valid = false then {}
  else
    let md := r.md (r.fxSrc c).instrument.value
    if stale md.bookTs now r.fxStale then {} else FxRate.fromMid md.mid (r.fxSrc c).invert

def mayRest (o : OrderIntent) : Bool :=
  decide (o.type ≠ .market ∧ o.tif ≠ .ioc ∧ o.tif ≠ .fok)

def reducesPosition (o : OrderIntent) (i : RiskInputs) (excludeOpen : Qty) : Bool :=
  match i.position with
  | some q => decide (openingQty q o.side (i.openSameSide - excludeOpen) o.qty = 0)
  | none => false

def atOrBetterCross (side : Side) (px ownOpposite : Price) : Bool :=
  match side with
  | .buy => decide (ownOpposite ≤ px)
  | .sell => decide (px ≤ ownOpposite)

/-! ## The checks -/

/-- A check: the reason it refuses with. -/
abbrev Check : Type := Option RejectReason

/-- Refuse with `reason` when `p` holds. -/
def refuse (reason : RejectReason) (p : Prop) [Decidable p] : Check :=
  if p then some reason else none

section Checks

variable (r : RiskEngine) (o : OrderIntent) (inst : Instrument) (i : RiskInputs)
  (excludeOpen : Qty)
variable (countOrder : Bool)

/-- The value of an order, at the mid for a market order. -/
def orderNotional : Notional :=
  inst.notional (if o.type = .market then (r.md o.instrument.value).mid else o.price) o.qty

/-- The position with every open order of the side and the order itself filled. -/
def predicted (position : Qty) : Qty :=
  position + o.side.sign * (i.openSameSide - excludeOpen + o.qty)

/-- `max_position`: the order takes the position past the cap and further from
zero. -/
def positionCheck : Check :=
  match i.position with
  | none => none
  | some q =>
    refuse .maxPosition (0 < r.limits.maxPosition ∧
      r.limits.maxPosition < absRaw (predicted o i excludeOpen q) ∧
      absRaw q < absRaw (predicted o i excludeOpen q))

/-- The reduce-only mode. -/
def reduceOnlyCheck : Check :=
  match i.position with
  | none => none
  | some q =>
    refuse .reduceOnly (i.reduceOnly = true ∧
      nearerZero q o.side (i.openSameSide - excludeOpen) o.qty = false)

/-- The caps on the gross exposure with what the order opens, and on the net one
with the whole order. -/
def exposureCheck (exposure : Notional) (opens : Qty) : Check :=
  if 0 < r.limits.maxGrossNotional ∧
      r.limits.maxGrossNotional < i.grossExposure + notionalShare exposure opens o.qty then
    some .maxGrossNotional
  else
    let net := i.netExposure + (if o.side = .buy then exposure else 0 - exposure)
    refuse .maxNetNotional (0 < r.limits.maxNetNotional ∧
      r.limits.maxNetNotional < absRaw net ∧ absRaw i.netExposure < absRaw net)

/-- Portfolio exposure: what the order opens on top of what is marked. -/
def portfolioCheck : Check :=
  match i.position with
  | none => none
  | some q =>
    let opens := openingQty q o.side (i.openSameSide - excludeOpen) o.qty
    if r.portfolio = true ∧ 0 < opens then
      let notional := orderNotional r o inst
      let c := r.fxCcy o.instrument.value
      let rate := r.fxRate c i.now
      let converts := r.fxGate = true ∧ c ≠ 0
      if converts ∧ rate.known = false then some .fxRateUnknown
      else
        exposureCheck r o i (if converts then FxRate.convert notional rate else notional) opens
    else none

/-- The net position of the order's underlying. -/
def underlyingCheck : Check :=
  if i.underlying.limited = true ∧ i.position.isSome = true then
    if i.underlying.known = false then some .underlyingMarkUnknown
    else
      match toBaseUnits inst (o.qty - excludeOpen) (r.underlyingMark o.instrument i.now) with
      | none => some .underlyingMarkUnknown
      | some add =>
        let worst := i.underlying.net + o.side.sign * (i.underlying.opened + add)
        refuse .maxUnderlyingNet
          (underlyingExceeds (r.undMax (r.undOf o.instrument.value - 1)) i.underlying.net worst
            = true)
  else none

/-- The checks of `evaluate` before the bucket, in its order. -/
def checks : List Check :=
  let md := r.md o.instrument.value
  let notional := orderNotional r o inst
  [refuse .killSwitch (r.kill 0 = true ∧ i.flatten = false),
    refuse .venueKilled (r.kill (venueBit o.venue) = true),
    refuse .instrumentDisabled (inst.enabled = false ∨ kMaxInstruments ≤ o.instrument.value),
    refuse .invalidTick (o.type ≠ .market ∧ inst.validPrice o.price = false),
    refuse .invalidLot (inst.validQty o.qty = false),
    refuse .belowMinNotional (0 < inst.minNotional ∧ notional < inst.minNotional),
    refuse .staleMarketData (stale md.bookTs i.now r.limits.staleMd = true),
    refuse .feedLag
      (i.feedLagged = true ∧ mayRest o = true ∧ reducesPosition o i excludeOpen = false),
    refuse .priceCollar (o.type ≠ .market ∧ 0 < md.collarHi ∧
      (o.price < md.collarLo ∨ md.collarHi < o.price)),
    refuse .fatFinger (o.type ≠ .market ∧ 0 < md.ffHi ∧ (o.price < md.ffLo ∨ md.ffHi < o.price)),
    refuse .maxOrderQty (0 < r.limits.maxOrderQty ∧ r.limits.maxOrderQty < o.qty),
    refuse .maxOrderNotional (0 < r.limits.maxOrderNotional ∧ r.limits.maxOrderNotional < notional),
    reduceOnlyCheck o i excludeOpen,
    positionCheck r o i excludeOpen,
    portfolioCheck r o inst i excludeOpen,
    underlyingCheck r o inst i excludeOpen,
    refuse .maxOpenOrders (countOrder = true ∧ 0 < r.limits.maxOpenOrders ∧
      r.limits.maxOpenOrders ≤ i.openOrders),
    refuse .selfTradePrevention (r.limits.stp = true ∧ o.type ≠ .market ∧ 0 < i.bestOwnOpposite ∧
      atOrBetterCross o.side o.price i.bestOwnOpposite = true),
    refuse .balanceShort (i.balanceShort = true),
    refuse .venueKilled (i.primaryKilled = true),
    refuse .rateLimit (i.accountFull = true)]

/-- `evaluate`: the first refusal, else what the bucket says. -/
def evaluate : TokenBucket × RejectReason :=
  match (checks r o inst i excludeOpen countOrder).findSome? id with
  | some reason => (r.bucket, reason)
  | none =>
    let (bucket, taken) := r.bucket.tryTake i.now
    (bucket, if taken then .none else .rateLimit)

def check : RiskEngine × RejectReason :=
  let (bucket, reason) := evaluate r o inst i excludeOpen countOrder
  let stats := { r.stats with checks := r.stats.checks + 1 }
  let stats :=
    if reason = .none then { stats with passed := stats.passed + 1 }
    else { stats with
      rejects := fun k => if k = reason then stats.rejects k + 1 else stats.rejects k }
  ({ r with bucket := bucket, stats := stats }, reason)

end Checks

def checkNew (r : RiskEngine) (o : OrderIntent) (inst : Instrument) (i : RiskInputs) :
    RiskEngine × RejectReason := check r o inst i 0 true

/-- `check_replace`: the leaves of the order it replaces are left out. -/
def checkReplace (r : RiskEngine) (o : OrderIntent) (existing : Order) (inst : Instrument)
    (i : RiskInputs) : RiskEngine × RejectReason := check r o inst i existing.leavesQty false

/-! ## What a pass means -/

section Pass

variable {r : RiskEngine} {o : OrderIntent} {inst : Instrument} {i : RiskInputs}
  {excludeOpen : Qty} {countOrder : Bool}
variable {reason : RejectReason}

theorem refuse_eq_none {p : Prop} [Decidable p] (h : refuse reason p = none) : ¬ p := by
  unfold refuse at h
  split at h
  · nomatch h
  · assumption

/-- A refusal of the check is for one of these reasons. -/
def Gives (c : Check) (reasons : List RejectReason) : Prop := ∀ x, c = some x → x ∈ reasons

theorem refuse_gives {p : Prop} [Decidable p] {reasons : List RejectReason} (h : reason ∈ reasons) :
    Gives (refuse reason p) reasons := by
  intro x hx
  unfold refuse at hx
  split at hx
  · exact Option.some.inj hx ▸ h
  · nomatch hx

theorem some_gives {reasons : List RejectReason} (h : reason ∈ reasons) :
    Gives (some reason) reasons := fun _ hx => Option.some.inj hx ▸ h

theorem none_gives (reasons : List RejectReason) : Gives none reasons := fun _ hx => nomatch hx

theorem reduceOnlyCheck_gives : Gives (reduceOnlyCheck o i excludeOpen) [.reduceOnly] := by
  unfold reduceOnlyCheck
  split
  · exact none_gives _
  · exact refuse_gives (by decide)

theorem positionCheck_gives : Gives (positionCheck r o i excludeOpen) [.maxPosition] := by
  unfold positionCheck
  split
  · exact none_gives _
  · exact refuse_gives (by decide)

theorem exposureCheck_gives (exposure : Notional) (opens : Qty) :
    Gives (exposureCheck r o i exposure opens)
      [.fxRateUnknown, .maxGrossNotional, .maxNetNotional] := by
  unfold exposureCheck
  split
  · exact some_gives (by decide)
  · exact refuse_gives (by decide)

theorem portfolioCheck_gives : Gives (portfolioCheck r o inst i excludeOpen)
    [.fxRateUnknown, .maxGrossNotional, .maxNetNotional] := by
  unfold portfolioCheck
  split
  · exact none_gives _
  simp only
  split
  · split
    · exact some_gives (by decide)
    · exact exposureCheck_gives _ _
  · exact none_gives _

theorem underlyingCheck_gives : Gives (underlyingCheck r o inst i excludeOpen)
    [.underlyingMarkUnknown, .maxUnderlyingNet] := by
  unfold underlyingCheck
  split
  · split
    · exact some_gives (by decide)
    · split
      · exact some_gives (by decide)
      · exact refuse_gives (by decide)
  · exact none_gives _

/-- What the checks before the bucket can refuse for, each in its place. -/
def checkReasons : List (List RejectReason) :=
  [[.killSwitch], [.venueKilled], [.instrumentDisabled], [.invalidTick], [.invalidLot],
    [.belowMinNotional], [.staleMarketData], [.feedLag], [.priceCollar], [.fatFinger],
    [.maxOrderQty], [.maxOrderNotional], [.reduceOnly], [.maxPosition],
    [.fxRateUnknown, .maxGrossNotional, .maxNetNotional],
    [.underlyingMarkUnknown, .maxUnderlyingNet], [.maxOpenOrders], [.selfTradePrevention],
    [.balanceShort], [.venueKilled], [.rateLimit]]

theorem checks_give :
    List.Forall₂ Gives (checks r o inst i excludeOpen countOrder) checkReasons := by
  unfold checks checkReasons
  repeat' apply List.Forall₂.cons
  all_goals first
    | exact reduceOnlyCheck_gives
    | exact positionCheck_gives
    | exact portfolioCheck_gives
    | exact underlyingCheck_gives
    | exact refuse_gives (List.mem_singleton_self _)
    | exact List.Forall₂.nil

theorem not_given {cs : List Check} {reasons : List (List RejectReason)}
    (h : List.Forall₂ Gives cs reasons) (hno : reason ∉ reasons.flatten) {c : Check} (hc : c ∈ cs) :
    c ≠ some reason := by
  rintro rfl
  obtain ⟨k, hk, hget⟩ := List.getElem_of_mem hc
  have hgives := (List.forall₂_iff_get.mp h).2 k hk (h.length_eq ▸ hk) reason hget
  exact hno (List.mem_flatten_of_mem (List.get_mem _ _) hgives)

section

variable (h : (check r o inst i excludeOpen countOrder).2 = .none)
include h

/-- An order that passes is refused by no check. -/
theorem check_passes {c : Check}
    (hc : c ∈ checks r o inst i excludeOpen countOrder) : c = none := by
  cases hfind : (checks r o inst i excludeOpen countOrder).findSome? id with
  | none => exact List.findSome?_eq_none_iff.mp hfind c hc
  | some reason =>
    have heq : reason = .none := by
      unfold check evaluate at h
      rw [hfind] at h
      exact h
    obtain ⟨c', hc', hid⟩ := List.exists_of_findSome?_eq_some hfind
    rw [heq] at hid
    have hno : RejectReason.none ∉ checkReasons.flatten := by decide
    exact absurd hid (not_given checks_give hno hc')

/-- An order that passes has a positive quantity. -/
theorem qty_pos_of_passes :
    0 < o.qty := by
  have hpass : refuse .invalidLot (inst.validQty o.qty = false) = none :=
    check_passes h (by simp [checks])
  have hno := refuse_eq_none hpass
  exact Instrument.pos_of_validQty (by simpa using hno)

/-- A limit order that passes has a positive price. -/
theorem price_pos_of_passes
    (hlimit : o.type ≠ .market) : 0 < o.price := by
  have hpass : refuse .invalidTick (o.type ≠ .market ∧ inst.validPrice o.price = false) = none :=
    check_passes h (by simp [checks])
  have hno := refuse_eq_none hpass
  have hvalid : inst.validPrice o.price = true := by simpa [hlimit] using hno
  exact (of_decide_eq_true hvalid).1

/-- A limit order that passes does not cross the best own price of the other side. -/
theorem not_cross_of_passes
    (hstp : r.limits.stp = true) (hlimit : o.type ≠ .market) (hown : 0 < i.bestOwnOpposite) :
    atOrBetterCross o.side o.price i.bestOwnOpposite = false := by
  have hpass : refuse .selfTradePrevention (r.limits.stp = true ∧ o.type ≠ .market ∧
      0 < i.bestOwnOpposite ∧ atOrBetterCross o.side o.price i.bestOwnOpposite = true) = none :=
    check_passes h (by simp [checks])
  have hno := refuse_eq_none hpass
  by_contra hcross
  exact hno ⟨hstp, hlimit, hown, by simpa using hcross⟩

end

end Pass

end RiskEngine

end FastMM
