/-
  Venue/ReconcileDriver.lean --- when a connector's open-order snapshot is taken and what it says.

  Source: `include/fastmm/venues/reconcile_driver.hpp`, `src/venues/reconcile_driver.cpp`.

  `replay_executions`, `fetch_snapshot` and `fetch_balances` may call the driver back.
  `shadow_ids` and `drop_shadow` only read and erase the connector's table.  Left out: the log
  texts, the counters, the message headers, and the rows of the balance leg, of which only the
  times it asks at matter here.

  `log` is what happened so far, and `Wish.calls` the `request` calls a want stands for, by
  their places in the log.  The driver reads neither.
-/
import FastMM.Foundation.Reentrant
import FastMM.Oms.State
set_option autoImplicit false

namespace FastMM

open Foundation

/-! ## Data -/

def kRetryNs : Nat := 5000000000
def kFetchTimeoutNs : Nat := 60000000000
def kBalanceIntervalNs : Nat := 1000000000

/-- `ReconcileDriver::Want`, weakest first. -/
inductive Want where
  | none
  | sweep
  | full
  deriving DecidableEq, Repr

namespace Want

/-- The stronger of two wants. -/
def max : Want → Want → Want
  | .full, _ => .full
  | _, .full => .full
  | .sweep, _ => .sweep
  | .none, w => w

end Want

/-- A want and the `request` calls behind it. -/
structure Wish where
  want : Want := .none
  calls : List Nat := []
  deriving DecidableEq, Repr

def Wish.merge (a b : Wish) : Wish := ⟨a.want.max b.want, a.calls ++ b.calls⟩

/-- An attempt in the place of a retry; a Full one answers the retry's calls too. -/
def Wish.replacing (a retry : Wish) : Wish :=
  ⟨a.want, if a.want = .full then a.calls ++ retry.calls else a.calls⟩

structure Mark where
  id : ClientOrderId := .invalid
  seq : Nat := 0
  deriving DecidableEq, Repr

structure SentShadow where
  id : ClientOrderId
  seq : Nat := 0
  deriving DecidableEq, Repr

/-- `ReconcileMsg` of kind `Position`. -/
structure PositionRow where
  instrument : InstrumentId
  qty : Qty
  avgPx : Price
  deriving DecidableEq, Repr

/-- What reaches the sink in one piece: a Begin, its rows and the End.  `generation` and
`serves`, the requests it answers, are not part of it. -/
structure Snapshot where
  watermark : Mark
  executionsExact : Bool
  orders : List ReconcileMsg
  positions : List PositionRow
  generation : Nat
  serves : List Nat
  deriving DecidableEq, Repr

/-- What happens, in order. -/
inductive Seen where
  | opened (enabled : Bool)
  | closed
  | requested (enabled : Bool)
  | replayDone (complete : Bool)
  | started
  | fetching (generation : Nat) (taken : Option Mark)
  | order (generation : Nat) (row : ReconcileMsg)
  | position (generation : Nat) (row : PositionRow)
  | emitted (s : Snapshot)
  | dropped (ids : List ClientOrderId)
  deriving DecidableEq, Repr

/-- What a stretch of code reads outside the driver: the reactor's clock, the watermark
`SentWatermark::mark` gives then, and the connector's shadows. -/
structure World where
  now : Nat := 0
  mark : Mark := {}
  shadows : List SentShadow := []
  deriving DecidableEq, Repr

/-- `ReconcileHooks`: the calls out. -/
inductive ReconcileHook where
  | replayExecutions
  | fetchSnapshot (generation : Nat)
  | fetchBalances (generation : Nat)
  deriving DecidableEq, Repr

/-- `ReconcileDriver`; `attached` is `sink_ != nullptr`. -/
structure ReconcileDriver where
  attached : Bool := true
  isOpen : Bool := false
  waitingReplay : Bool := false
  inFlight : Bool := false
  exact : Bool := false
  pending : Wish := {}
  running : Wish := {}
  retryWant : Wish := {}
  generation : Nat := 0
  fetchStarted : Nat := 0
  retryAt : Nat := 0
  watermark : Mark := {}
  orders : List ReconcileMsg := []
  positions : List PositionRow := []
  balInFlight : Bool := false
  balPending : Bool := false
  balGeneration : Nat := 0
  balStarted : Nat := 0
  balRetryAt : Nat := 0
  log : List Seen := []
  deriving DecidableEq, Repr

namespace ReconcileDriver

variable (d : ReconcileDriver)
variable (w : World)
variable (generation : Nat)

/-- What one of the driver's functions does. -/
abbrev Does := Prog World ReconcileDriver ReconcileHook

/-! ## Reads -/

def busy : Bool := d.inFlight || d.waitingReplay

def current : Bool :=
  d.inFlight && decide (generation = d.generation)

def balancesCurrent : Bool :=
  d.balInFlight && decide (generation = d.balGeneration)

/-- Writes the log. -/
def see (e : Seen) : ReconcileDriver := { d with log := d.log ++ [e] }

/-! ## The snapshot -/

/-- `open(enabled)`. -/
def opened (enabled : Bool) : ReconcileDriver :=
  { d with isOpen := enabled && d.attached }.see (.opened (enabled && d.attached))

def close : ReconcileDriver :=
  { d with
    isOpen := false
    generation := d.generation + 1
    waitingReplay := false
    inFlight := false
    pending := {}
    running := {}
    retryWant := {}
    retryAt := 0
    orders := []
    positions := []
    balGeneration := d.balGeneration + 1
    balInFlight := false
    balPending := false
    balRetryAt := 0 }.see .closed

def fail (d : ReconcileDriver) : ReconcileDriver :=
  { d with
    generation := d.generation + 1
    inFlight := false
    waitingReplay := false
    retryWant := (d.running.merge d.pending).merge d.retryWant
    running := {}
    pending := {}
    orders := []
    positions := []
    retryAt := w.now + kRetryNs }

def fetch (d : ReconcileDriver) : Does :=
  let running := d.running.merge d.pending
  let taken := if running.want = .sweep then none else some w.mark
  .call (.fetchSnapshot (d.generation + 1)) ({ d with
      running := running
      pending := {}
      generation := d.generation + 1
      inFlight := true
      fetchStarted := w.now
      watermark := taken.getD {}
      orders := []
      positions := [] }.see (.fetching (d.generation + 1) taken))
    fun w s asked => .done (if !asked && s.current (d.generation + 1) then s.fail w else s)

def start (_w : World) (d : ReconcileDriver) : Does :=
  .call .replayExecutions ({ d with
      running := d.pending.replacing d.retryWant
      pending := {}
      retryAt := 0
      retryWant := {}
      waitingReplay := true }.see .started)
    fun w s joined =>
      if joined || !s.waitingReplay then .done s
      else fetch w { s with waitingReplay := false, exact := false }

def want (d : ReconcileDriver) (x : Wish) : Does :=
  if !d.isOpen then .done d
  else if d.busy then .done { d with pending := d.pending.merge x }
  else start w { d with pending := d.pending.merge x }

def request (d : ReconcileDriver) : Does :=
  want w (d.see (.requested d.isOpen)) ⟨.full, [d.log.length]⟩

def sweep (d : ReconcileDriver) : Does := want w d ⟨.sweep, []⟩

def replayDone (d : ReconcileDriver) (complete : Bool) : Does :=
  let s := d.see (.replayDone complete)
  if !s.waitingReplay then .done s
  else fetch w { s with waitingReplay := false, exact := complete }

def transportLost (d : ReconcileDriver) : ReconcileDriver :=
  if d.busy then d.fail w else d

/-- `add_order` and what the connector writes into the row, while `current`. -/
def addOrder (row : ReconcileMsg) : ReconcileDriver :=
  if d.current generation then
    { d with orders := d.orders ++ [row] }.see (.order generation row)
  else d

/-- `add_position`, while `current`. -/
def addPosition (row : PositionRow) :
    ReconcileDriver :=
  if d.current generation then
    { d with positions := d.positions ++ [row] }.see (.position generation row)
  else d

def emit : ReconcileDriver :=
  { d with exact := false }.see (.emitted
    { watermark := d.watermark
      executionsExact := d.exact
      orders := d.orders
      positions := d.positions
      generation := d.generation
      serves := d.running.calls })

/-- The client order ids of the snapshot. -/
def named : List ClientOrderId :=
  (d.orders.map (·.clOrdId)).filter (·.valid)

def sweepShadows (d : ReconcileDriver) : ReconcileDriver :=
  if d.watermark.seq = 0 then d
  else
    d.see (.dropped ((w.shadows.filter fun s =>
      decide (s.seq ≤ d.watermark.seq) && !d.named.contains s.id).map (·.id)))

/-! ## The balance leg -/

def startBalances (d : ReconcileDriver) : Does :=
  if !d.isOpen then .done d
  else if d.balInFlight then .done { d with balPending := true }
  else
    .call (.fetchBalances (d.balGeneration + 1)) { d with
        balPending := false
        balRetryAt := 0
        balGeneration := d.balGeneration + 1
        balInFlight := true
        balStarted := w.now }
      fun _ s asked => .done (if !asked && s.balancesCurrent (d.balGeneration + 1) then
        { s with balInFlight := false } else s)

def requestBalances (d : ReconcileDriver) : Does :=
  if !d.isOpen then .done d
  else if d.balInFlight || decide (w.now - d.balStarted < kBalanceIntervalNs) then
    .done { d with balPending := true }
  else startBalances w d

def failBalances (d : ReconcileDriver) : ReconcileDriver :=
  { d with
    balGeneration := d.balGeneration + 1
    balInFlight := false
    balRetryAt := w.now + kRetryNs }

def balancesFetched (d : ReconcileDriver) (generation : Nat) (ok : Bool) :
    ReconcileDriver :=
  if !d.balancesCurrent generation then d
  else if !ok then { d with balInFlight := false }.failBalances w
  else { d with balInFlight := false }

/-! ## Answers and the timer -/

/-- The snapshot goes out and the driver is free again. -/
def deliver (d : ReconcileDriver) : ReconcileDriver :=
  { ({ d with inFlight := false }.emit.sweepShadows w) with
    orders := []
    positions := []
    running := {} }

def fetched (d : ReconcileDriver) (generation : Nat) (ok : Bool) : Does :=
  if !d.current generation then .done d
  else if !ok then .done (d.fail w)
  else
    let s := d.deliver w
    (if s.pending.want ≠ .none then start w s else .done s).andThen w startBalances

/-- The balance leg's part of `on_timer`. -/
def timeBalances (d : ReconcileDriver) (nowNs : Nat) : Does :=
  let s := if d.balInFlight && decide (kFetchTimeoutNs ≤ nowNs - d.balStarted) then
    d.failBalances w else d
  if s.isOpen && !s.balInFlight && ((decide (s.balRetryAt ≠ 0) && decide (s.balRetryAt ≤ nowNs)) ||
        (s.balPending && decide (kBalanceIntervalNs ≤ nowNs - s.balStarted))) then
    startBalances w s
  else .done s

/-- The snapshot's part of `on_timer`. -/
def timeSnapshot (nowNs : Nat) (w : World) (d : ReconcileDriver) : Does :=
  let s := if d.inFlight && decide (kFetchTimeoutNs ≤ nowNs - d.fetchStarted) then d.fail w else d
  if s.retryAt ≠ 0 ∧ s.retryAt ≤ nowNs then
    want w { s with retryAt := 0, retryWant := {} }
      { s.retryWant with want := if s.retryWant.want = .none then .full else s.retryWant.want }
  else .done s

def onTimer (d : ReconcileDriver) (nowNs : Nat) : Does :=
  (d.timeBalances w nowNs).andThen w (timeSnapshot nowNs)

/-! ## Runs -/

/-- The driver's calls. -/
inductive Call where
  | opened (enabled : Bool)
  | close
  | request
  | sweep
  | replayDone (complete : Bool)
  | transportLost
  | addOrder (generation : Nat) (row : ReconcileMsg)
  | addPosition (generation : Nat) (row : PositionRow)
  | fetched (generation : Nat) (ok : Bool)
  | requestBalances
  | balancesFetched (generation : Nat) (ok : Bool)
  | onTimer (nowNs : Nat)
  deriving DecidableEq, Repr

def does (c : Call) (w : World) (d : ReconcileDriver) : Does :=
  match c with
  | .opened enabled => .done (d.opened enabled)
  | .close => .done d.close
  | .request => d.request w
  | .sweep => d.sweep w
  | .replayDone complete => d.replayDone w complete
  | .transportLost => .done (d.transportLost w)
  | .addOrder generation row => .done (d.addOrder generation row)
  | .addPosition generation row => .done (d.addPosition generation row)
  | .fetched generation ok => d.fetched w generation ok
  | .requestBalances => d.requestBalances w
  | .balancesFetched generation ok => .done (d.balancesFetched w generation ok)
  | .onTimer nowNs => d.onTimer w nowNs

/-- A connector's driver and the calls out it waits in. -/
abbrev Machine := Reentrant World ReconcileDriver ReconcileHook

/-- The driver after a run, calls and answers in any order and at any depth. -/
def after (attached : Bool) (inputs : List (Input Call World)) : Machine :=
  Reentrant.run does ⟨{ attached := attached }, []⟩ inputs

end ReconcileDriver

end FastMM
