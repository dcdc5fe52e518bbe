/-
  Treasury/Driver.lean --- the driver: what is in flight is resolved, then one transfer is sent.

  Source: `include/fastmm/core/treasury.hpp`, `src/core/treasury.cpp` (`Treasury`), with
  `PoolFunding` of `include/fastmm/core/pool_homes.hpp`.

  A call of `step` appends its effects to a log in the order the code makes them, so that a process
  which stops between two effects is one whose log ends there.  Saves succeed.  The answers of the
  port are a function of the request, chosen anew for each call.
-/
import FastMM.Core.Currency
import FastMM.Treasury.Ledger
set_option autoImplicit false
set_option linter.dupNamespace false

namespace FastMM.Treasury

/-! ## What a call is given -/

structure TreasuryBalance where
  venue : VenueId
  asset : List Char
  free : Notional
  known : Bool := false
  asOfNs : Int := 0
  transferable : Notional := -1
  locked : Notional := 0
  deriving DecidableEq, Repr

structure PoolFunding where
  members : List VenueId := []
  need : List Notional := []
  holdSeq : Nat := 0
  held : Notional := 0
  deriving DecidableEq, Repr

def PoolFunding.needOf (f : PoolFunding) (v : VenueId) : Notional :=
  match f.members.idxOf? v with
  | some k => f.need.getD k 0
  | none => 0

/-- The arguments of one call of `step`. -/
structure Look where
  nowNs : Int
  balances : List TreasuryBalance := []
  funding : Option PoolFunding := none
  deriving DecidableEq, Repr

/-- What the engine holds for a transfer. -/
def heldFor (look : Look) (seq : Nat) : Option Notional :=
  match look.funding with
  | none => none
  | some f => if f.holdSeq = seq then some f.held else none

structure TreasuryPort where
  submit : TransferRequest → TransferResult
  status : TransferRequest → TransferResult

/-! ## What a call does -/

structure TreasuryEvent where
  kind : TreasuryEventKind
  req : TransferRequest
  result : Option TransferResult
  seq : Nat := 0
  held : Bool := false
  deriving DecidableEq, Repr

/-- `save` is a call of `TreasuryLedger::save`, which writes nothing without a file. -/
inductive Effect where
  | save (ledger : TreasuryLedger)
  | submit (look : Look) (req : TransferRequest) (answer : TransferResult)
  | status (look : Look) (req : TransferRequest) (answer : TransferResult)
  | refresh (account : VenueId)
  | record (event : TreasuryEvent)
  deriving DecidableEq, Repr

/-- The saved ledger after an effect. -/
def TreasuryLedger.after (l : TreasuryLedger) : Effect → TreasuryLedger
  | .save saved => saved
  | _ => l

/-- The ledger saved last. -/
def disk (log : List Effect) : TreasuryLedger := log.foldl TreasuryLedger.after {}

/-! ## The driver's state -/

structure TreasuryStats where
  plans : Nat := 0
  dryRunPlans : Nat := 0
  sent : Nat := 0
  done : Nat := 0
  failed : Nat := 0
  timedOut : Nat := 0
  released : Nat := 0
  limited : Nat := 0
  errors : Nat := 0
  inFlight : Nat := 0
  moved : Notional := 0
  deriving DecidableEq, Repr

structure Treasury where
  ledger : TreasuryLedger := {}
  stats : TreasuryStats := {}
  nextLookNs : Int := 0
  lastDryPlanNs : Int := 0
  lastDryPlan : Option PlannedTransfer := none
  settleFrom : VenueId := .invalid
  settleTo : VenueId := .invalid
  settleFromNs : Int := 0
  settling : Bool := false
  rehold : Bool := false
  deriving DecidableEq, Repr

def kConfirmNs : Int := 1000000000

/-- A treasury and the effects so far. -/
structure Running where
  treasury : Treasury
  log : List Effect
  deriving DecidableEq, Repr

namespace Running

def inFlight (m : Running) : List TreasuryTransfer := m.treasury.ledger.inFlight

def emit (e : Effect) (m : Running) : Running := { m with log := m.log ++ [e] }

def update (f : Treasury → Treasury) (m : Running) : Running :=
  { m with treasury := f m.treasury }

def setTransfer (i : Nat) (t : TreasuryTransfer) (m : Running) : Running :=
  m.update fun d => { d with ledger.inFlight := d.ledger.inFlight.set i t }

def erase (i : Nat) (m : Running) : Running :=
  m.update fun d => { d with ledger.inFlight := d.ledger.inFlight.eraseIdx i }

def coolDown (cfg : TreasuryConfig) (nowNs : Int) (m : Running) : Running :=
  m.update fun d => { d with ledger.limiter := d.ledger.limiter.coolDown cfg nowNs }

def persist (m : Running) : Running :=
  (m.emit (.save m.treasury.ledger.saved)).update fun d =>
    { d with stats.inFlight := d.ledger.inFlight.length }

def record (cfg : TreasuryConfig) (kind : TreasuryEventKind) (t : TreasuryTransfer)
    (r : Option TransferResult) (m : Running) : Running :=
  m.emit (.record { kind := kind, req := t.req, result := r, seq := t.seq, held := cfg.reserve })

/-! ## Answers -/

def finish (cfg : TreasuryConfig) (i : Nat) (state : TransferState) (r : TransferResult)
    (look : Look) (m : Running) : Running :=
  match m.inFlight[i]? with
  | none => m
  | some t =>
    let m := m.erase i
    if state = .done then
      let m := m.update fun d =>
        { d with
          stats.done := d.stats.done + 1
          stats.moved := d.stats.moved + t.req.amount
          settling := true
          settleFrom := t.req.payer
          settleTo := t.req.payee
          settleFromNs := look.nowNs }
      let m := (m.emit (.refresh t.req.payer)).emit (.refresh t.req.payee)
      m.persist.record cfg .done t (some r)
    else
      let m := m.update fun d => { d with stats.failed := d.stats.failed + 1 }
      ((m.coolDown cfg look.nowNs).persist).record cfg .failed t (some r)

def submit (cfg : TreasuryConfig) (i : Nat) (look : Look) (port : TreasuryPort) (m : Running) :
    Running :=
  match m.inFlight[i]? with
  | none => m
  | some t =>
    let t := { t with phase := .created, nextPollNs := look.nowNs + cfg.intervalNs }
    let m := (m.setTransfer i t).persist
    let m := m.update fun d => { d with stats.sent := d.stats.sent + 1 }
    let r := port.submit t.req
    let m := (m.emit (.submit look t.req r)).record cfg .sent t (some r)
    match r.state with
    | .done => m.finish cfg i .done r look
    | .failed => m.finish cfg i .failed r look
    | .pending => (m.setTransfer i { t with phase := .submitted }).persist
    | .notFound | .unknown =>
      let m := m.update fun d => { d with stats.errors := d.stats.errors + 1 }
      (m.setTransfer i { t with phase := .unknown }).persist

/-! ## Holds -/

/-- A hold given back: nothing was sent. -/
def release (cfg : TreasuryConfig) (i : Nat) (t : TreasuryTransfer) (m : Running) : Running :=
  let m := m.erase i
  let m := m.update fun d => { d with stats.released := d.stats.released + 1 }
  m.persist.record cfg .released t none

def confirm (cfg : TreasuryConfig) (i : Nat) (look : Look) (port : TreasuryPort) (m : Running) :
    Running × Bool :=
  match m.inFlight[i]? with
  | none => (m, true)
  | some t =>
    match heldFor look t.seq with
    | none =>
      if look.nowNs - t.createdNs < cfg.timeoutNs then
        (m.update fun d => { d with nextLookNs := min d.nextLookNs (look.nowNs + kConfirmNs) },
         false)
      else (m.release cfg i t, true)
    | some held =>
      let amount := roundDown (min held t.req.amount) cfg.step
      if 0 < amount ∧ cfg.minAmount ≤ amount then
        ((m.setTransfer i { t with req.amount := amount }).submit cfg i look port, true)
      else (m.release cfg i t, true)

/-! ## What is in flight -/

/-- A transfer the answer leaves unresolved. -/
def timeOut (cfg : TreasuryConfig) (i : Nat) (t : TreasuryTransfer) (r : TransferResult)
    (look : Look) (m : Running) : Running :=
  if cfg.timeoutNs ≤ look.nowNs - t.createdNs ∧ !t.timedOut then
    let t := { t with timedOut := true }
    let m := m.setTransfer i t
    let m := m.update fun d => { d with stats.timedOut := d.stats.timedOut + 1 }
    ((m.coolDown cfg look.nowNs).persist).record cfg .timedOut t (some r)
  else m

def noTransfer : List Char := "the venue has no transfer under this id".toList

/-- One transfer of `resolve`, and whether the loop moves past it. -/
def resolveOne (cfg : TreasuryConfig) (i : Nat) (t : TreasuryTransfer) (look : Look)
    (port : TreasuryPort) (m : Running) : Running × Bool :=
  if t.phase = .reserving then
    let before := m.inFlight.length
    let (m, sent) := m.confirm cfg i look port
    (m, !sent || m.inFlight.length = before)
  else if look.nowNs < t.nextPollNs then (m, true)
  else
    let t := { t with nextPollNs := look.nowNs + cfg.intervalNs }
    let m := m.setTransfer i t
    let r := port.status t.req
    let m := m.emit (.status look t.req r)
    match r.state with
    | .done => (m.finish cfg i .done r look, false)
    | .failed => (m.finish cfg i .failed r look, false)
    | .notFound =>
      -- Nothing arrived under this id: after the timeout it never will.
      if cfg.timeoutNs ≤ look.nowNs - t.createdNs then
        let nf := if r.detail = [] then { r with detail := noTransfer } else r
        (m.finish cfg i .failed nf look, false)
      else (m.timeOut cfg i t r look, true)
    | .unknown =>
      let m := m.update fun d => { d with stats.errors := d.stats.errors + 1 }
      (m.timeOut cfg i t r look, true)
    | .pending =>
      if t.phase ≠ .submitted then
        let t := { t with phase := .submitted }
        (((m.setTransfer i t).persist).timeOut cfg i t r look, true)
      else (m.timeOut cfg i t r look, true)

/-- The loop of `resolve`; each turn passes a transfer or removes it. -/
def resolveFrom (cfg : TreasuryConfig) (look : Look) (port : TreasuryPort) :
    Nat → Nat → Running → Running
  | 0, _, m => m
  | fuel + 1, i, m =>
    match m.inFlight[i]? with
    | none => m
    | some t =>
      let (m, passed) := m.resolveOne cfg i t look port
      resolveFrom cfg look port fuel (if passed then i + 1 else i) m

def resolve (cfg : TreasuryConfig) (look : Look) (port : TreasuryPort) (m : Running) : Running :=
  resolveFrom cfg look port m.inFlight.length 0 m

/-! ## Planning -/

def settled (cfg : TreasuryConfig) (look : Look) (d : Treasury) : Bool :=
  if cfg.settleNs ≤ look.nowNs - d.settleFromNs then true
  else
    let fresh := look.balances.filter fun b =>
      sameCurrency b.asset cfg.asset && decide (d.settleFromNs ≤ b.asOfNs)
    fresh.any (fun b => b.venue = d.settleFrom) && fresh.any fun b => b.venue = d.settleTo

/-- The rows of the configured asset and accounts. -/
def accounts (cfg : TreasuryConfig) (look : Look) : List TreasuryAccount :=
  let rows := look.balances.filter fun b =>
    sameCurrency b.asset cfg.asset && decide (cfg.indexOf b.venue < cfg.members.length)
  (rows.take TreasuryConfig.kMax).map fun b =>
    { venue := b.venue, free := b.free, known := b.known, transferable := b.transferable,
      locked := b.locked, need := (look.funding.map fun f => f.needOf b.venue).getD 0 }

/-- A plan that is only logged. -/
def dryRun (cfg : TreasuryConfig) (p : PlannedTransfer) (req : TransferRequest) (look : Look)
    (m : Running) : Running :=
  if m.treasury.lastDryPlan = some p ∧
      look.nowNs - m.treasury.lastDryPlanNs < cfg.minIntervalNs then m
  else
    let m := m.update fun d =>
      { d with
        lastDryPlan := some p
        lastDryPlanNs := look.nowNs
        stats.plans := d.stats.plans + 1
        stats.dryRunPlans := d.stats.dryRunPlans + 1 }
    m.emit (.record
      { kind := .planned, req := { req with clientId := "dry-run".toList }, result := none })

/-- The transfer of a plan, in the ledger before the venue has it. -/
def send (cfg : TreasuryConfig) (req : TransferRequest) (look : Look) (port : TreasuryPort)
    (m : Running) : Running :=
  let seq := m.treasury.ledger.seq + 1
  let t : TreasuryTransfer :=
    { req := { req with clientId := clientId cfg look.nowNs seq }
      seq := seq
      phase := if cfg.reserve then .reserving else .created
      createdNs := look.nowNs
      nextPollNs := look.nowNs + cfg.intervalNs }
  let m := m.update fun d =>
    { d with
      ledger.seq := seq
      ledger.inFlight := d.ledger.inFlight ++ [t]
      ledger.limiter := d.ledger.limiter.onSent look.nowNs }
  if !cfg.reserve then m.submit cfg (m.inFlight.length - 1) look port
  else
    (m.persist.record cfg .reserve t none).update fun d =>
      { d with nextLookNs := min d.nextLookNs (look.nowNs + kConfirmNs) }

def planAndSend (cfg : TreasuryConfig) (look : Look) (port : TreasuryPort) (m : Running) :
    Running :=
  let plan := planTransfers cfg (accounts cfg look)
  if plan.status ≠ .transfers then m
  else
    match plan.transfers with
    | [] => m
    | p :: _ =>
      let req : TransferRequest :=
        { clientId := [], payer := p.payer, payee := p.payee, asset := cfg.asset,
          amount := p.amount, createdMs := look.nowNs.tdiv 1000000 }
      if cfg.dryRun then m.dryRun cfg p req look
      else
        let verdict := m.treasury.ledger.limiter.check cfg look.nowNs
        let m := m.update fun d =>
          { d with stats.plans := d.stats.plans + 1, ledger.limiter := verdict.2 }
        if verdict.1 ≠ .ok then
          m.update fun d => { d with stats.limited := d.stats.limited + 1 }
        else m.send cfg req look port

/-! ## The calls -/

/-- What an earlier process left in flight is held again. -/
def reholdAll (cfg : TreasuryConfig) (m : Running) : Running :=
  if m.treasury.rehold then
    let m := m.update fun d => { d with rehold := false }
    m.inFlight.foldl (fun m t => m.record cfg .reserve t none) m
  else m

def step (cfg : TreasuryConfig) (look : Look) (port : TreasuryPort) (m : Running) : Running :=
  if !cfg.enabled ∨ look.nowNs < m.treasury.nextLookNs then m
  else
    let m := m.update fun d => { d with nextLookNs := look.nowNs + cfg.intervalNs }
    let m := m.reholdAll cfg
    let m := if m.inFlight = [] then m else m.resolve cfg look port
    if m.inFlight ≠ [] then m
    else if m.treasury.settling && !settled cfg look m.treasury then m
    else (m.update fun d => { d with settling := false }).planAndSend cfg look port

/-- `Treasury::open` of a process that starts after the effects of `log`. -/
def reopen (cfg : TreasuryConfig) (log : List Effect) : Running :=
  let l := TreasuryLedger.load cfg (disk log)
  let sent := l.inFlight.filter fun t => t.phase ≠ .reserving
  let m : Running :=
    { treasury :=
        { ledger := { l with inFlight := sent }
          stats := { inFlight := sent.length }
          rehold := cfg.reserve && decide (sent ≠ []) }
      log := log }
  if sent.length ≠ l.inFlight.length then m.persist else m

end Running

/-! ## Histories -/

/-- The treasury of the running process, all effects so far, and the time of the last call. -/
structure World where
  treasury : Option Treasury
  log : List Effect
  clock : Int
  deriving DecidableEq, Repr

/-- The processes of one ledger: each call at a time not before the last, and a process may stop
after any of its effects.  A ledger without a file is lost with its process. -/
inductive Run (cfg : TreasuryConfig) : World → Prop where
  | start : Run cfg ⟨none, [], 0⟩
  | reopen {log : List Effect} {clock : Int} (h : Run cfg ⟨none, log, clock⟩)
      (hfile : cfg.stateFile ≠ [] ∨ log = []) :
      Run cfg ⟨some (Running.reopen cfg log).treasury, (Running.reopen cfg log).log, clock⟩
  | reopenStopped {log : List Effect} {clock : Int} (h : Run cfg ⟨none, log, clock⟩)
      (hfile : cfg.stateFile ≠ [] ∨ log = []) {upto : List Effect} (hfrom : log <+: upto)
      (hto : upto <+: (Running.reopen cfg log).log) : Run cfg ⟨none, upto, clock⟩
  | step {d : Treasury} {log : List Effect} {clock : Int} (h : Run cfg ⟨some d, log, clock⟩)
      (look : Look) (port : TreasuryPort) (hclock : clock ≤ look.nowNs) (hpos : 0 < look.nowNs) :
      Run cfg ⟨some (Running.step cfg look port ⟨d, log⟩).treasury,
        (Running.step cfg look port ⟨d, log⟩).log, look.nowNs⟩
  | stepStopped {d : Treasury} {log : List Effect} {clock : Int}
      (h : Run cfg ⟨some d, log, clock⟩) (look : Look) (port : TreasuryPort)
      (hclock : clock ≤ look.nowNs) (hpos : 0 < look.nowNs) {upto : List Effect}
      (hfrom : log <+: upto) (hto : upto <+: (Running.step cfg look port ⟨d, log⟩).log) :
      Run cfg ⟨none, upto, look.nowNs⟩
  | stop {d : Treasury} {log : List Effect} {clock : Int} (h : Run cfg ⟨some d, log, clock⟩) :
      Run cfg ⟨none, log, clock⟩

end FastMM.Treasury
