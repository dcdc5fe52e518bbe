/-
  Quote/QuoteManager.lean --- the quote manager.

  Source: `include/fastmm/core/quote_manager.hpp` (`QuoteManager`), and
  `Engine::place_quote` of `include/fastmm/core/engine.hpp` for what a placed action
  does to the order management.

  The manager diffs the strategy's desired quotes against the orders its slots hold and
  places actions.  The placer's own decisions (risk, order tokens, balances, capacity)
  are a parameter: for each action it says whether the action is sent and, if not, why.
  A sent action is the order management's own `submit`, `request_cancel` or
  `request_replace`.

  The placer runs inside the manager's calls, so both live in one state, with the
  actions placed so far.  The counts the source returns are the number of these that
  were sent.  Floats are carried by their bits: the manager only passes them on.
-/
import FastMM.Core.Instrument
import FastMM.Oms.Handlers
set_option autoImplicit false

namespace FastMM

/-! ## Desired quotes -/

/-- A `float`, by its bits. -/
abbrev QuoteValue : Type := BitVec 32

/-- `kNoValue`, a quiet NaN. -/
def kNoValue : QuoteValue := 0x7FC00000#32

def kMaxQuoteLevels : Nat := 8

/-- `DesiredQuotes`.  The arrays of the source are functions of their index. -/
structure DesiredQuotes where
  bids : StaticVector Level kMaxQuoteLevels := .nil
  asks : StaticVector Level kMaxQuoteLevels := .nil
  bidAccount : Nat → VenueId := fun _ => .invalid
  askAccount : Nat → VenueId := fun _ => .invalid
  bidValue : Nat → QuoteValue := fun _ => kNoValue
  askValue : Nat → QuoteValue := fun _ => kNoValue
  bidKeep : Nat → QuoteValue := fun _ => kNoValue
  askKeep : Nat → QuoteValue := fun _ => kNoValue

namespace DesiredQuotes

variable (q : DesiredQuotes)

def side : Side → StaticVector Level kMaxQuoteLevels
  | .buy => q.bids
  | .sell => q.asks

def account (s : Side) (lvl : Nat) : VenueId :=
  if lvl < kMaxQuoteLevels then (if s = .buy then q.bidAccount else q.askAccount) lvl
  else .invalid

def value (s : Side) (lvl : Nat) : QuoteValue :=
  if lvl < kMaxQuoteLevels then (if s = .buy then q.bidValue else q.askValue) lvl else kNoValue

def keep (s : Side) (lvl : Nat) : QuoteValue :=
  if lvl < kMaxQuoteLevels then (if s = .buy then q.bidKeep else q.askKeep) lvl else kNoValue

def empty : Bool := q.bids.data.isEmpty && q.asks.data.isEmpty

end DesiredQuotes

variable (tag : Nat)

/-- `QuoteParams`, what the manager reads of it. -/
structure QuoteParams where
  minRequoteTicks : Int := 1
  minRequoteInterval : Duration := 50000000
  minQtyBps : Int := 8000
  supportsReplace : Bool := false
  postOnly : Bool := true
  rejectBackoff : Duration := 1000000000
  rejectBackoffMax : Duration := 60000000000
  deriving DecidableEq, Repr

/-! ## Actions -/

inductive QuoteActionKind where
  | new
  | cancel
  | replace
  deriving DecidableEq, Repr

structure QuoteAction where
  kind : QuoteActionKind
  instrument : InstrumentId
  side : Side
  level : Nat
  handle : Handle := none
  clOrdId : ClientOrderId := .invalid
  price : Price := 0
  qty : Qty := 0
  postOnly : Bool := false
  deferred : Bool := false
  withheld : Bool := false
  rateLimited : Bool := false
  account : VenueId := .invalid
  refused : RejectReason := .none
  held : Bool := false
  value : QuoteValue := kNoValue
  keep : QuoteValue := kNoValue
  pricedOut : Bool := false
  paid : Bool := false
  deriving DecidableEq, Repr

structure QuoteStats where
  news : Nat := 0
  cancels : Nat := 0
  replaces : Nat := 0
  keptHysteresis : Nat := 0
  keptInterval : Nat := 0
  skippedPending : Nat := 0
  rejected : Nat := 0
  rejectBackoffs : Nat := 0
  keptBackoff : Nat := 0
  keptBalance : Nat := 0
  keptRateLimit : Nat := 0
  keptRoom : Nat := 0
  retries : Nat := 0
  pricedOut : Nat := 0
  pricedOutMoves : Nat := 0
  deriving DecidableEq, Repr

/-! ## State -/

/-- `QuoteManager::Slot`. -/
structure QuoteSlot where
  handle : Handle := none
  clOrdId : ClientOrderId := .invalid
  lastRequote : Timestamp := 0
  want : Level := {}
  wantAccount : VenueId := .invalid
  wantValue : QuoteValue := kNoValue
  wantKeep : QuoteValue := kNoValue
  paid : Bool := false
  applyWant : Bool := false
  awaitingTerminal : Bool := false
  deriving DecidableEq, Repr

def QuoteSlot.empty (slot : QuoteSlot) : Bool :=
  slot.handle.isNone && !slot.applyWant && !slot.awaitingTerminal

/-- What a level is asked for with: the target, its account, value and keep value. -/
structure QuoteTarget where
  level : Level := {}
  account : VenueId := .invalid
  value : QuoteValue := kNoValue
  keep : QuoteValue := kNoValue
  deriving DecidableEq, Repr

/-- A slot that records a target. -/
def QuoteSlot.record (slot : QuoteSlot) (t : QuoteTarget) : QuoteSlot :=
  { slot with
    want := t.level
    wantAccount := t.account
    wantValue := t.value
    wantKeep := t.keep
    applyWant := true }

/-- `QuoteManager::InstState`; `retryAt` is absent where the source has `kNever`. -/
structure QuoteInstState where
  slots : Side → Nat → QuoteSlot := fun _ _ => {}
  used : Side → Nat := fun _ => 0
  desired : DesiredQuotes := {}
  pulled : Bool := false
  paused : Bool := false
  resumable : Bool := false
  venueNoReplace : Bool := false
  replace : Bool := false
  backoff : Side → Duration := fun _ => 0
  blockedUntil : Side → Timestamp := fun _ => 0
  starved : Bool := false
  priced : Bool := false
  retryAt : Option Timestamp := none

/-- `QuoteManager`.  The queues are lists, the front first. -/
structure QuoteManager where
  params : QuoteParams := {}
  stats : QuoteStats := {}
  state : Nat → QuoteInstState := fun _ => {}
  starved : List InstrumentId := []
  priced : List InstrumentId := []
  backedOff : List InstrumentId := []
  backoffDue : Option Timestamp := none
  sideHeld : Side → Bool := fun _ => false

/-- The constructor: `resolve_replace` for every instrument. -/
def QuoteManager.init (p : QuoteParams) : QuoteManager where
  params := p
  state := fun _ => { replace := p.supportsReplace }

/-- An instrument and its id. -/
structure QuotedInstrument extends Instrument where
  id : InstrumentId

/-- What the placer decided about an action: to send it, under these, or the reasons
it gives back. -/
structure Placing where
  send : Bool := true
  withheld : Bool := false
  rateLimited : Bool := false
  held : Bool := false
  pricedOut : Bool := false
  paid : Bool := false
  refused : RejectReason := .none
  venue : VenueId := .invalid
  id : ClientOrderId := .invalid
  now : Timestamp := 0
  deriving DecidableEq, Repr

/-- An action that was placed, and whether it was sent. -/
structure Placement where
  action : QuoteAction
  sent : Bool
  deriving DecidableEq, Repr

/-- A placer: what it decides, from the actions placed before and the orders. -/
abbrev Placer : Type := List Placement → Oms → QuoteAction → Placing

/-- The manager, the order management its placer works on, and the actions placed. -/
structure QuoteDesk where
  quotes : QuoteManager
  oms : Oms
  placed : List Placement := []

/-! ## Tags -/

def makeTag (s : Side) (level : Nat) : Nat := 0x51000000 ||| (s.code <<< 8) ||| level

def isQuoteTag : Bool := tag &&& 0xFFFF0000 == 0x51000000

/-- The side `on_order_update` reads from a tag. -/
def tagSide : Side := if (tag >>> 8) &&& 1 = 0 then .buy else .sell

/-- The level `on_order_update` reads from a tag. -/
def tagLevel : Nat := tag &&& 0xFF

/-! ## The placer -/

/-- The request `place_quote` makes of a New. -/
def quoteRequest (a : QuoteAction) (venue : VenueId) : NewOrderRequest where
  instrument := a.instrument
  venue := venue
  side := a.side
  type := if a.postOnly then .postOnly else .limit
  tif := .gtc
  postOnly := a.postOnly
  price := a.price
  qty := a.qty
  userTag := makeTag a.side a.level

/-- `place_quote`, after the placer's decision. -/
def placeQuote (s : Oms) (a : QuoteAction) (p : Placing) : Oms × QuoteAction × Bool :=
  if p.send = false then
    (s, { a with
      withheld := p.withheld
      rateLimited := p.rateLimited
      held := p.held
      pricedOut := p.pricedOut
      refused := p.refused }, false)
  else
    match a.kind with
    | .new =>
      match s.submit (quoteRequest a p.venue) p.id p.now with
      | (s, .ok h) => (s, { a with clOrdId := p.id, handle := some h }, true)
      | (s, .error e) => (s, { a with refused := e }, false)
    | .cancel =>
      match a.handle with
      | none => (s, a, false)
      | some h =>
        match s.requestCancel h with
        | (s, .ok _) => (s, { a with paid := p.paid }, true)
        | (s, .error _) => (s, a, false)
    | .replace =>
      match a.handle with
      | none => (s, a, false)
      | some h =>
        match s.requestReplace h p.id a.price a.qty p.now with
        | (s, .ok _) => (s, a, true)
        | (s, .error e) => (s, { a with refused := e }, false)

namespace QuoteDesk

/-! ## Reading and writing the manager -/

variable (f : Placer)
variable (d : QuoteDesk)
variable (i : InstrumentId)
variable (s : Side)
variable (lvl : Nat)
variable (t : QuoteTarget)
variable (now : Timestamp)

/-- `state_[id]`. -/
def inst : QuoteInstState := d.quotes.state i.value

/-- A slot of an instrument. -/
def slot : QuoteSlot :=
  (d.inst i).slots s lvl

/-- Writes an instrument's state. -/
def setInst (st : QuoteInstState) : QuoteDesk :=
  { d with quotes := { d.quotes with state := Function.update d.quotes.state i.value st } }

/-- Writes a slot. -/
def setSlot (x : QuoteSlot) : QuoteDesk :=
  d.setInst i { d.inst i with
    slots := fun s' l => if s' = s ∧ l = lvl then x else (d.inst i).slots s' l }

/-- Moves the counters. -/
def withStats (f : QuoteStats → QuoteStats) : QuoteDesk :=
  { d with quotes := { d.quotes with stats := f d.quotes.stats } }

def setParams (p : QuoteParams) : QuoteDesk :=
  { d with quotes := { d.quotes with
    params := p
    state := fun n => { d.quotes.state n with
      replace := p.supportsReplace && !(d.quotes.state n).venueNoReplace } } }

def setReplace (on : Bool) : QuoteDesk :=
  d.setInst i { d.inst i with
    venueNoReplace := !on
    replace := d.quotes.params.supportsReplace && on }

def place (f : Placer) (a : QuoteAction) : QuoteDesk × QuoteAction × Bool :=
  let r := placeQuote d.oms a (f d.placed d.oms a)
  ({ d with oms := r.1, placed := d.placed ++ [⟨a, r.2.2⟩] }, r.2.1, r.2.2)

/-- `try_push` of a queue of `kMaxInstruments`. -/
def tryPush (q : List InstrumentId) (i : InstrumentId) : Option (List InstrumentId) :=
  if q.length < kMaxInstruments then some (q ++ [i]) else none

/-- The earlier of a time and one that may be absent. -/
def earlier (t : Option Timestamp) (u : Timestamp) : Option Timestamp :=
  match t with
  | none => some u
  | some t => some (if u < t then u else t)

/-! ## Backoffs and queues -/

def backingOff : Bool :=
  decide (0 < (d.inst i).backoff s) && decide (now < (d.inst i).blockedUntil s)

def backOff : QuoteDesk :=
  let p := d.quotes.params
  if p.rejectBackoff ≤ 0 then d
  else
    let st := d.inst i
    let next := if st.backoff s ≤ 0 then p.rejectBackoff else st.backoff s + st.backoff s
    let next := if 0 < p.rejectBackoffMax ∧ p.rejectBackoffMax < next then p.rejectBackoffMax
      else next
    (d.setInst i { st with
      backoff := Function.update st.backoff s next
      blockedUntil := Function.update st.blockedUntil s (now + next) }).withStats fun t =>
        { t with rejectBackoffs := t.rejectBackoffs + 1 }

def onVenueReject (reason : RejectReason)
    (now : Timestamp) : QuoteDesk :=
  if reason = .postOnlyWouldCross ∨ reason = .venueUnknownOrder then d else d.backOff i s now

def keptBackoff : QuoteDesk :=
  let d := d.withStats fun t => { t with keptBackoff := t.keptBackoff + 1 }
  let st := d.inst i
  let due (d : QuoteDesk) : QuoteDesk :=
    let d := d.setInst i { d.inst i with retryAt := earlier st.retryAt (st.blockedUntil s) }
    { d with quotes := { d.quotes with
      backoffDue := earlier d.quotes.backoffDue (st.blockedUntil s) } }
  if st.retryAt = none then
    match tryPush d.quotes.backedOff i with
    | none => d
    | some q => due { d with quotes := { d.quotes with backedOff := q } }
  else due d

def heldBack (a : QuoteAction) (now : Timestamp) : QuoteDesk :=
  if a.rateLimited = false then
    let d := d.withStats fun t => { t with rejected := t.rejected + 1 }
    if a.refused = .priceCollar ∨ a.refused = .fatFinger then d.backOff i a.side now else d
  else
    let d := d.withStats fun t => { t with keptRateLimit := t.keptRateLimit + 1 }
    if (d.inst i).starved then d
    else
      let d := d.setInst i { d.inst i with starved := true }
      { d with quotes := { d.quotes with
        starved := (tryPush d.quotes.starved i).getD d.quotes.starved } }

def queuePriced : QuoteDesk :=
  if (d.inst i).priced then d
  else
    match tryPush d.quotes.priced i with
    | none => d
    | some q =>
      let d := d.setInst i { d.inst i with priced := true }
      { d with quotes := { d.quotes with priced := q } }

/-! ## One slot -/

/-- `owns`: the slot's order is live and carries the slot's tag. -/
def owns : Bool :=
  match (d.slot i s lvl).handle with
  | none => false
  | some h =>
    match d.oms.get h with
    | none => false
    | some o => o.instrument == i && o.userTag == makeTag s lvl

def cancel (d : QuoteDesk) : QuoteDesk :=
  let r := d.place f
    { kind := .cancel, instrument := i, side := s, level := lvl, handle := (d.slot i s lvl).handle }
  let d := r.1
  if r.2.2 = false then d.withStats fun t => { t with rejected := t.rejected + 1 }
  else
    let d := d.withStats fun t => { t with cancels := t.cancels + 1 }
    d.setSlot i s lvl { d.slot i s lvl with awaitingTerminal := true }

/-- `move`: cancel-then-new of a resting quote. -/
def move (d : QuoteDesk) :
    QuoteDesk :=
  let d := d.setSlot i s lvl { (d.slot i s lvl).record t with paid := false }
  let r := d.place f
    { kind := .cancel, instrument := i, side := s, level := lvl, handle := (d.slot i s lvl).handle
      price := t.level.price, qty := t.level.qty, value := t.value, keep := t.keep }
  let d := r.1
  let a := r.2.1
  if r.2.2 = false then
    if a.pricedOut then
      let d := d.setSlot i s lvl { d.slot i s lvl with applyWant := false }
      (d.withStats fun t => { t with pricedOutMoves := t.pricedOutMoves + 1 }).queuePriced i
    else if a.held then
      let d := d.setSlot i s lvl { d.slot i s lvl with applyWant := false }
      d.withStats fun t => { t with keptRoom := t.keptRoom + 1 }
    else d.withStats fun t => { t with rejected := t.rejected + 1 }
  else
    let d := d.withStats fun t => { t with cancels := t.cancels + 1 }
    d.setSlot i s lvl { d.slot i s lvl with paid := a.paid, awaitingTerminal := true }

def submitNew (level : Level)
    (account : VenueId) (value : QuoteValue) (now : Timestamp) (deferred : Bool) (d : QuoteDesk) :
    QuoteDesk :=
  let paid := deferred && (d.slot i s lvl).paid
  let d := d.setSlot i s lvl { d.slot i s lvl with paid := false }
  let r := d.place f
    { kind := .new, instrument := i, side := s, level := lvl, price := level.price
      qty := level.qty, postOnly := d.quotes.params.postOnly, deferred := deferred
      account := account, value := value, paid := paid }
  let d := r.1
  let a := r.2.1
  if r.2.2 = false ∨ a.handle = none then
    if a.pricedOut then
      (d.withStats fun t => { t with pricedOut := t.pricedOut + 1 }).queuePriced i
    else if a.withheld then d.withStats fun t => { t with keptBalance := t.keptBalance + 1 }
    else d.heldBack i a now
  else
    let d := d.withStats fun t => { t with news := t.news + 1 }
    d.setSlot i s lvl { d.slot i s lvl with
      handle := a.handle
      clOrdId := a.clOrdId
      lastRequote := now
      awaitingTerminal := false }

/-- The Replace of `reconcile_slot`. -/
def replace (o : Order)
    (now : Timestamp) (d : QuoteDesk) : QuoteDesk :=
  let r := d.place f
    { kind := .replace, instrument := i, side := s, level := lvl, handle := (d.slot i s lvl).handle
      price := t.level.price, qty := t.level.qty, postOnly := d.quotes.params.postOnly
      value := t.value, keep := t.keep }
  let d := r.1
  let a := r.2.1
  if r.2.2 = false then
    if a.pricedOut then
      if (if s = .buy then t.level.price < o.price else o.price < t.level.price) then
        d.move f i s lvl t
      else (d.withStats fun t => { t with pricedOutMoves := t.pricedOutMoves + 1 }).queuePriced i
    else if a.held then d.withStats fun t => { t with keptRoom := t.keptRoom + 1 }
    else d.heldBack i a now
  else
    let d := d.withStats fun t => { t with replaces := t.replaces + 1 }
    d.setSlot i s lvl { d.slot i s lvl with lastRequote := now }

/-- `reconcile_slot` of a working order that is asked for: keep it, or move it. -/
def requote (inst : QuotedInstrument) (s : Side) (lvl : Nat) (t : QuoteTarget)
    (o : Order) (now : Timestamp) (d : QuoteDesk) : QuoteDesk :=
  let i := inst.id
  let p := d.quotes.params
  if t.account.valid = true ∧ o.venue ≠ t.account then
    (d.setSlot i s lvl { (d.slot i s lvl).record t with paid := false }).cancel f i s lvl
  else
    let dpx := (absRaw (t.level.price - o.price)).tdiv inst.tick
    let qtyOk := decide (t.level.qty * p.minQtyBps ≤ o.leavesQty * 10000)
    if dpx < p.minRequoteTicks ∧ qtyOk = true then
      d.withStats fun t => { t with keptHysteresis := t.keptHysteresis + 1 }
    else if now - (d.slot i s lvl).lastRequote < p.minRequoteInterval then
      d.withStats fun t => { t with keptInterval := t.keptInterval + 1 }
    else if (d.inst i).replace = true ∧ d.backingOff i s now = false then
      d.replace f i s lvl t o now
    else d.move f i s lvl t

/-- `reconcile_slot` of a slot that holds no order. -/
def fillSlot (d : QuoteDesk) : QuoteDesk :=
  let d := d.setSlot i s lvl { d.slot i s lvl with
    handle := none
    awaitingTerminal := false
    applyWant := false }
  if t.level.qty ≤ 0 then d
  else if d.backingOff i s now then d.keptBackoff i s
  else d.submitNew f i s lvl t.level t.account t.value now false

/-- The order of a slot that `owns` it. -/
def slotOrder : Option Order :=
  if d.owns i s lvl then (d.slot i s lvl).handle.bind d.oms.get else none

/-- `reconcile_slot`: an order quantity that is not positive asks for no quote. -/
def reconcileSlot (inst : QuotedInstrument) (s : Side) (lvl : Nat) (t : QuoteTarget)
    (now : Timestamp) (d : QuoteDesk) : QuoteDesk :=
  let i := inst.id
  match d.slotOrder i s lvl with
  | some o =>
    if o.state.isPending then
      let d := d.withStats fun t => { t with skippedPending := t.skippedPending + 1 }
      d.setSlot i s lvl ((d.slot i s lvl).record t)
    else
      let d := d.setSlot i s lvl { d.slot i s lvl with applyWant := false }
      if t.level.qty ≤ 0 then d.cancel f i s lvl
      else d.requote f inst s lvl t o now
  | none => d.fillSlot f i s lvl t now

/-! ## Reconciling -/

/-- The levels of a side below `n`, each against its target; `used` ends as one more
than the last slot that holds something. -/
def reconcileSide (inst : QuotedInstrument) (s : Side) (n : Nat)
    (want : Nat → QuoteTarget) (now : Timestamp) (d : QuoteDesk) : QuoteDesk :=
  let r := (List.range n).foldl (fun (r : QuoteDesk × Nat) lvl =>
    let d := r.1.reconcileSlot f inst s lvl (want lvl) now
    (d, if (d.slot inst.id s lvl).empty then r.2 else lvl + 1)) (d, 0)
  r.1.setInst inst.id { r.1.inst inst.id with
    used := Function.update (r.1.inst inst.id).used s r.2 }

/-- The target of a level in `reconcile`. -/
def targetOf (desired : DesiredQuotes) (s : Side) (lvl : Nat) : QuoteTarget where
  level :=
    let want := (desired.side s).get lvl
    if d.quotes.sideHeld s = false ∧ lvl < (desired.side s).size ∧ 0 < want.qty then want else {}
  account := desired.account s lvl
  value := desired.value s lvl
  keep := desired.keep s lvl

/-- One side of `reconcile`. -/
def reconcileWanted (inst : QuotedInstrument) (desired : DesiredQuotes) (s : Side)
    (now : Timestamp) (d : QuoteDesk) : QuoteDesk :=
  d.reconcileSide f inst s (max (desired.side s).size ((d.inst inst.id).used s))
    (d.targetOf desired s) now

def reconcile (inst : QuotedInstrument) (desired : DesiredQuotes) (now : Timestamp)
    (d : QuoteDesk) : QuoteDesk :=
  let d := d.setInst inst.id { d.inst inst.id with
    pulled := false
    paused := false
    resumable := false
    desired := desired }
  (d.reconcileWanted f inst desired .buy now).reconcileWanted f inst desired .sell now

/-- One slot of `pull_quotes`. -/
def pullSlot (d : QuoteDesk) (lvl : Nat) : QuoteDesk :=
  let d := d.setSlot i s lvl { d.slot i s lvl with applyWant := false }
  match d.slotOrder i s lvl with
  | some o => if o.isWorking then d.cancel f i s lvl else d
  | none => d

def pullQuotes (inst : QuotedInstrument) (keepDesired : Bool) (d : QuoteDesk) :
    QuoteDesk :=
  let i := inst.id
  let st := d.inst i
  let d := d.setInst i { st with
    resumable := keepDesired && (st.resumable || (!st.pulled && !st.desired.empty))
    desired := if keepDesired then st.desired else {}
    pulled := true
    paused := false }
  let d := (List.range kMaxQuoteLevels).foldl (pullSlot f i .buy) d
  (List.range kMaxQuoteLevels).foldl (pullSlot f i .sell) d

def pauseQuotes (d : QuoteDesk) : QuoteDesk :=
  let st := d.inst i
  d.setInst i { st with
    resumable := st.resumable || (!st.pulled && !st.desired.empty)
    paused := true
    slots := fun s lvl =>
      if lvl < kMaxQuoteLevels then { st.slots s lvl with applyWant := false }
      else st.slots s lvl }

def resume (inst : QuotedInstrument) (now : Timestamp) (d : QuoteDesk) : QuoteDesk :=
  let d := d.setInst inst.id { d.inst inst.id with paused := false }
  if (d.inst inst.id).resumable = false then d
  else d.reconcile f inst (d.inst inst.id).desired now

def holdSide (on : Bool) (d : QuoteDesk) : QuoteDesk :=
  { d with quotes := { d.quotes with sideHeld := Function.update d.quotes.sideHeld s on } }

def pullSide (inst : QuotedInstrument) (s : Side) (now : Timestamp) (d : QuoteDesk) :
    QuoteDesk :=
  d.reconcileSide f inst s ((d.inst inst.id).used s) (fun _ => {}) now

def reapply (inst : QuotedInstrument) (now : Timestamp) (d : QuoteDesk) : QuoteDesk :=
  let st := d.inst inst.id
  if st.pulled || st.paused || st.desired.empty then d
  else d.reconcile f inst st.desired now

/-- `retry_backed_off` and `retry_priced`, which are the same, and `retry` after it has
counted. -/
def reapplyDesired (inst : QuotedInstrument) (now : Timestamp) (d : QuoteDesk) :
    QuoteDesk :=
  d.reconcile f inst (d.inst inst.id).desired now

def retry (inst : QuotedInstrument) (now : Timestamp) (d : QuoteDesk) : QuoteDesk :=
  let st := d.inst inst.id
  if st.pulled || st.paused then d
  else (d.withStats fun t => { t with retries := t.retries + 1 }).reapplyDesired f inst now

def retryBackedOff (inst : QuotedInstrument) (now : Timestamp) (d : QuoteDesk) :
    QuoteDesk :=
  let st := d.inst inst.id
  if st.pulled || st.paused then d else d.reapplyDesired f inst now

def retryPriced (inst : QuotedInstrument) (now : Timestamp) (d : QuoteDesk) :
    QuoteDesk :=
  let st := d.inst inst.id
  if st.pulled || st.paused then d else d.reapplyDesired f inst now

/-! ## Order updates -/

/-- `on_order_update` of an order that goes on. -/
def onWorkingUpdate (u : OmsUpdate) (inst : QuotedInstrument) (s : Side) (lvl : Nat)
    (now : Timestamp) (d : QuoteDesk) : QuoteDesk :=
  let i := inst.id
  let acked : Bool := u.prev = .pendingNew ∨ u.prev = .pendingReplace
  let d :=
    if acked = true ∧ u.refused = .none ∧ u.order.isWorking = true then
      d.setInst i { d.inst i with backoff := Function.update (d.inst i).backoff s 0 }
    else d
  let slot := d.slot i s lvl
  if u.handle = none ∨ slot.handle ≠ u.handle ∨ d.owns i s lvl = false ∨
      u.order.isWorking = false then d
  else if (d.inst i).pulled then d.cancel f i s lvl
  else if (d.inst i).paused then d
  else if slot.applyWant = true ∧ acked = true then
    let d := d.setSlot i s lvl { slot with applyWant := false }
    d.reconcileSlot f inst s lvl
      { level := if d.quotes.sideHeld s then {} else slot.want
        account := slot.wantAccount
        value := slot.wantValue
        keep := slot.wantKeep } now
  else d

/-- `on_order_update` of an order that ended. -/
def onTerminalUpdate (inst : QuotedInstrument) (s : Side) (lvl : Nat)
    (now : Timestamp) (d : QuoteDesk) : QuoteDesk :=
  let i := inst.id
  if d.owns i s lvl then d
  else
    let slot := d.slot i s lvl
    let slot := { slot with handle := none, clOrdId := .invalid, awaitingTerminal := false }
    let d := d.setSlot i s lvl slot
    if (d.inst i).pulled = true ∨ (d.inst i).paused = true ∨ slot.applyWant = false then d
    else
      let d := d.setSlot i s lvl { slot with applyWant := false }
      if slot.want.qty ≤ 0 ∨ d.quotes.sideHeld s = true then d
      else if d.backingOff i s now then d.keptBackoff i s
      else d.submitNew f i s lvl slot.want slot.wantAccount slot.wantValue now true

def onOrderUpdate (u : OmsUpdate) (inst : QuotedInstrument) (now : Timestamp)
    (d : QuoteDesk) : QuoteDesk :=
  let s := tagSide u.order.userTag
  let lvl := tagLevel u.order.userTag
  if isQuoteTag u.order.userTag = false ∨ kMaxQuoteLevels ≤ lvl ∨
    u.order.instrument ≠ inst.id then d
  else
    let d := if u.refused ≠ .none then d.onVenueReject inst.id s u.refused now else d
    if u.terminal = false then d.onWorkingUpdate f u inst s lvl now
    else d.onTerminalUpdate f inst s lvl now

/-! ## The queues -/

/-- `pop_starved`, when there is one. -/
def popStarved : QuoteDesk :=
  match d.quotes.starved with
  | [] => d
  | i :: rest =>
    let d := { d with quotes := { d.quotes with starved := rest } }
    d.setInst i { d.inst i with starved := false }

/-- The loop of `take_backoff_due`, over the `n` instruments queued when it began. -/
def takeDue (g : InstrumentId → QuoteDesk → QuoteDesk) (now : Timestamp) :
    Nat → QuoteDesk → QuoteDesk
  | 0, d => d
  | n + 1, d =>
    match d.quotes.backedOff with
    | [] => d
    | i :: rest =>
      let d := { d with quotes := { d.quotes with backedOff := rest } }
      let st := d.inst i
      let later := (st.retryAt.map fun t => decide (now < t)).getD true
      if later then
        let due := (st.retryAt.map fun t => earlier d.quotes.backoffDue t).getD
          d.quotes.backoffDue
        takeDue g now n { d with quotes := { d.quotes with
          backedOff := (tryPush rest i).getD rest
          backoffDue := due } }
      else takeDue g now n (g i (d.setInst i { st with retryAt := none }))

def takeBackoffDue (g : InstrumentId → QuoteDesk → QuoteDesk) (now : Timestamp) (d : QuoteDesk) :
    QuoteDesk :=
  if (d.quotes.backoffDue.map fun t => decide (t ≤ now)).getD false then
    takeDue g now d.quotes.backedOff.length
      { d with quotes := { d.quotes with backoffDue := none } }
  else d

/-- The loop of `take_priced`. -/
def takePricedLoop (g : InstrumentId → QuoteDesk → QuoteDesk) : Nat → QuoteDesk → QuoteDesk
  | 0, d => d
  | n + 1, d =>
    match d.quotes.priced with
    | [] => d
    | i :: rest =>
      let d := { d with quotes := { d.quotes with priced := rest } }
      takePricedLoop g n (g i (d.setInst i { d.inst i with priced := false }))

def takePriced (g : InstrumentId → QuoteDesk → QuoteDesk) (d : QuoteDesk) : QuoteDesk :=
  takePricedLoop g d.quotes.priced.length d

end QuoteDesk

end FastMM
