/-
  Balance/BalanceBook.lean --- the account's balances, as reports and our own events move them.

  Source: `include/fastmm/core/balance_book.hpp` (`BalanceBook`).

  Amounts are raw values.  The rows and rates an instrument has on its venue and on the members of
  its pool stand in `BalanceInst`, as `build` places them; slot 0 is its own venue's.
-/
import FastMM.Core.Currency
import FastMM.Core.Instrument
import Mathlib.Logic.Function.Basic
set_option autoImplicit false

namespace FastMM.Balance

open Function

/-! ## Rows and what holds from them -/

/-- `BalanceBook::Row`. -/
structure BalanceRow where
  venue : VenueId := .invalid
  asset : List Char := []
  account : Bool := false
  reported : Bool := false
  free : Int := 0
  locked : Int := 0
  total : Int := 0
  equity : Int := 0
  maintenance : Int := 0
  withdrawable : Int := -1
  asOf : Timestamp := 0
  gen : Nat := 0
  reserved : Int := 0
  deriving DecidableEq, Repr

/-- `BalanceBook::Inst`. -/
structure BalanceInst where
  venue : VenueId := .invalid
  derivative : Bool := false
  takerCbps : Int := 0
  imRaw : Int := 0
  base : Option Nat := none
  quote : Option Nat := none
  settle : Option Nat := none
  margin : Option Nat := none
  sideHold : Side → Int := fun _ => 0
  unacked : Side → Int := fun _ => 0

/-- `BalanceBook::Move`. -/
structure BalanceMove where
  venueTs : Timestamp
  free : Int := 0
  locked : Int := 0
  total : Int := 0
  row : Nat
  deriving DecidableEq, Repr

/-- `BalanceBook::VenueState`. -/
structure BalanceVenue where
  accountRow : Option Nat := none
  marginDefault : Option Nat := none
  gen : Nat := 0
  inSnapshot : Bool := false
  accountReported : Bool := false
  deriving DecidableEq, Repr

structure BalanceStats where
  reports : Nat := 0
  untracked : Nat := 0
  snapshots : Nat := 0
  movesDropped : Nat := 0
  deriving DecidableEq, Repr

def kMaxMoves : Nat := 1024

structure BalanceBook where
  rows : List BalanceRow := []
  inst : Nat → Nat → BalanceInst := fun _ _ => {}
  nMembers : Nat → Nat := fun _ => 0
  moves : List BalanceMove := []
  venues : VenueId → BalanceVenue := fun _ => {}
  stats : BalanceStats := {}
  live : Bool := false
  check : Bool := true

/-- `BalanceMsg`; its flags one field for each bit. -/
structure BalanceMsg where
  hdr : EventHeader := {}
  asset : List Char := []
  free : Notional := 0
  locked : Notional := 0
  total : Notional := 0
  equity : Notional := 0
  maintenance : Notional := 0
  withdrawable : Notional := 0
  snapshot : Bool := false
  snapshotEnd : Bool := false
  account : Bool := false
  hasWithdrawable : Bool := false

/-! ## Amounts -/

/-- `with_fee`: the notional with the taker fee, rounded up. -/
def withFee (n cbps : Int) : Int :=
  if cbps ≤ 0 ∨ n ≤ 0 then n else n + (n * cbps + 999999).tdiv 1000000

/-- `margin_of`: the initial margin, rounded up. -/
def marginOf (n rate : Int) : Int :=
  if n ≤ 0 then 0 else (n * rate + kFixedScale - 1).tdiv kFixedScale

namespace BalanceInst

/-- `row_of`: the row an order on a side holds from. -/
def rowOf (i : BalanceInst) (s : Side) : Option Nat :=
  if i.derivative then i.margin
  else match s with
    | .buy => i.quote
    | .sell => i.base

/-- The larger side of a derivative's holds. -/
def larger (f : Side → Int) : Int := max (f .buy) (f .sell)

/-- `in_flight`: what the unacknowledged orders hold of a row on top of a report. -/
def inFlight (i : BalanceInst) (s : Side) (r : Nat) : Int :=
  if i.rowOf s ≠ some r then 0
  else if !i.derivative then i.unacked s
  else larger i.sideHold - larger fun s => i.sideHold s - i.unacked s

end BalanceInst

namespace BalanceRow

/-- `counted`: an event the row's report has already. -/
def counted (row : BalanceRow) (ts : Timestamp) : Bool :=
  row.reported && ts != 0 && row.asOf != 0 && decide (ts ≤ row.asOf)

/-- An amount moves from free to locked. -/
def lock (row : BalanceRow) (d : Int) : BalanceRow :=
  { row with free := row.free - d, locked := row.locked + d }

end BalanceRow

namespace BalanceBook

variable (b : BalanceBook)
variable (id : InstrumentId)
variable (venue : VenueId)
variable (r : Nat)
variable (ts : Timestamp)

/-- `build`: rows, rates and venues as configured, and nothing held. -/
def built (rows : List BalanceRow) (inst : Nat → Nat → BalanceInst) (nMembers : Nat → Nat)
    (venues : VenueId → BalanceVenue) (check : Bool) : BalanceBook where
  rows := rows
  inst := fun i k => { inst i k with sideHold := fun _ => 0, unacked := fun _ => 0 }
  nMembers := nMembers
  venues := venues
  check := check

/-! ## Lookups -/

/-- `slot`: which of an instrument's states an account's order is about. -/
def slot (account : VenueId) : Nat :=
  if b.nMembers id.value = 0 ∨ account.valid = false ∨ account = (b.inst id.value 0).venue then 0
  else
    match (List.range (b.nMembers id.value)).find? fun k =>
        (b.inst id.value (k + 1)).venue = account with
    | some k => k + 1
    | none => 0

def find (asset : List Char) : Option Nat :=
  b.rows.findIdx? fun r => !r.account && r.venue = venue && sameCurrency r.asset asset

def setInst (id k : Nat) (f : BalanceInst → BalanceInst) : BalanceBook :=
  { b with inst := update b.inst id (update (b.inst id) k (f (b.inst id k))) }

def setRow (f : BalanceRow → BalanceRow) : BalanceBook :=
  { b with rows := b.rows.modify r f }

/-- `counted`, of the row at an index. -/
def counted : Bool :=
  (b.rows[r]?.map fun row => row.counted ts).getD false

/-- The oldest element goes when the ring is full. -/
def pushMove (m : BalanceMove) : BalanceBook :=
  { b with moves := (if b.moves.length = kMaxMoves then b.moves.tail else b.moves) ++ [m] }

/-- `note`: a move the row's report does not have. -/
def note (free locked total : Int) : BalanceBook :=
  if ts = 0 ∨ (b.rows[r]?.map BalanceRow.reported).getD false = false then b
  else
    let b := if b.moves.length = kMaxMoves then
        { b with stats.movesDropped := b.stats.movesDropped + 1 } else b
    b.pushMove { venueTs := ts, free := free, locked := locked, total := total, row := r }

/-! ## Orders -/

/-- `hold`: what an order of `leaves` at `px` holds. -/
def hold (inst : Instrument) (side : Side) (px : Price)
    (leaves : Qty) (reduceOnly : Bool) (account : VenueId) : Int :=
  if kMaxInstruments ≤ id.value ∨ leaves ≤ 0 then 0
  else
    let i := b.inst id.value (b.slot id account)
    if !i.derivative then
      match side with
      | .sell => leaves
      | .buy => withFee (inst.notional px leaves) i.takerCbps
    else if reduceOnly = true ∨ i.imRaw = 0 then 0
    else marginOf (inst.notional px leaves) i.imRaw

def moveHold (side : Side) (before after : Int)
    (ts : Timestamp) (unacked : Bool) (account : VenueId) : BalanceBook :=
  if kMaxInstruments ≤ id.value ∨ before = after then b
  else
    let k := b.slot id account
    let d := after - before
    let b := if unacked then
        b.setInst id.value k fun i =>
          { i with unacked := update i.unacked side (i.unacked side + d) }
      else b
    let i := b.inst id.value k
    let was := BalanceInst.larger i.sideHold
    let b := if i.derivative then
        b.setInst id.value k fun i =>
          { i with sideHold := update i.sideHold side (i.sideHold side + d) }
      else b
    let delta := if i.derivative then
        BalanceInst.larger (b.inst id.value k).sideHold - was else d
    match i.rowOf side with
    | none => b
    | some r =>
      if delta = 0 then b
      else if !unacked && b.counted r ts then b
      else
        let b := b.setRow r fun row => row.lock delta
        if !unacked then b.note r ts (-delta) delta 0 else b

/-- `acknowledge`: the venue has taken an order holding `amount`. -/
def acknowledge (side : Side) (amount : Int)
    (ts : Timestamp) (account : VenueId) : BalanceBook :=
  if kMaxInstruments ≤ id.value ∨ amount = 0 then b
  else
    let k := b.slot id account
    let i := b.inst id.value k
    let b := b.setInst id.value k fun i =>
      { i with unacked := update i.unacked side (i.unacked side - amount) }
    match i.rowOf side with
    | none => b
    | some r =>
      let back := i.inFlight side r - (b.inst id.value k).inFlight side r
      if !b.counted r ts then b.note r ts (-back) back 0
      else b.setRow r fun row => row.lock (-back)

def moveAsset (r : Option Nat) (d : Int) (ts : Timestamp) : BalanceBook :=
  match r with
  | none => b
  | some r =>
    if d = 0 then b
    else if b.counted r ts then b
    else
      (b.setRow r fun row =>
        { row with free := row.free + d, total := row.total + d, equity := row.equity + d }).note
          r ts d 0 d

/-! ## Fills, transfers and reservations -/

def onFill (inst : Instrument) (side : Side) (px : Price)
    (qty : Qty) (fee : Notional) (feeAsset : FeeAsset) (posBefore posAfter : Int) (ts : Timestamp)
    (account : VenueId) : BalanceBook :=
  if kMaxInstruments ≤ id.value then b
  else
    let i := b.inst id.value (b.slot id account)
    if !i.derivative then
      let base := match side with
        | .buy => qty
        | .sell => -qty
      let n := inst.notional px qty
      let quote := match side with
        | .buy => -n
        | .sell => n
      let base := if feeAsset = .base then base - fee else base
      let quote := if feeAsset = .quote then quote - fee else quote
      (b.moveAsset i.base base ts).moveAsset i.quote quote ts
    else
      match i.margin with
      | none => b
      | some r =>
        if b.counted r ts then b
        else
          let im := if i.imRaw = 0 then 0
            else marginOf (inst.notional px (absRaw posAfter)) i.imRaw -
              marginOf (inst.notional px (absRaw posBefore)) i.imRaw
          let settles := if inst.inverse then feeAsset = .base else feeAsset = .quote
          let f := if settles then fee else 0
          (b.setRow r fun row =>
            { row with
              free := row.free - (im + f), locked := row.locked + im, total := row.total - f,
              equity := row.equity - f }).note r ts (-(im + f)) im (-f)

/-! ## Reports -/

/-- The slots of the instruments. -/
def slots : List (Nat × Nat) :=
  (List.range kMaxInstruments).flatMap fun id =>
    (List.range (b.nMembers id + 1)).map fun k => (id, k)

/-- `add_in_flight`: the orders the venue has not acknowledged hold on top of a report. -/
def extraInFlight : Int :=
  (b.slots.map fun s =>
    let i := b.inst s.1 s.2
    if i.venue ≠ venue then 0
    else if i.derivative then i.inFlight .buy r
    else i.inFlight .buy r + i.inFlight .sell r).sum

/-- A move stamped after a report of its row. -/
def BalanceMove.pending (m : BalanceMove) (r : Nat) (asOf : Timestamp) : Bool :=
  m.row != r || (asOf != 0 && decide (asOf < m.venueTs))

/-- `rebase`: a report set row `r`. -/
def rebase : BalanceBook :=
  match b.rows[r]? with
  | none => b
  | some row =>
    let row := row.lock (b.extraInFlight row.venue r)
    let row := { row with free := row.free - row.reserved }
    let moves := b.moves.filter fun m => BalanceMove.pending m r row.asOf
    let row := (moves.filter fun m => m.row = r).foldl (fun row m =>
      { row with
        free := row.free + m.free, locked := row.locked + m.locked,
        total := row.total + m.total, equity := row.equity + m.total }) row
    { b with rows := b.rows.set r row, moves := moves }

/-- `use_account`: the venue's derivatives draw on its account row from now on. -/
def useAccount : BalanceBook :=
  { b with
    venues := update b.venues venue { b.venues venue with accountReported := true }
    inst := fun id k =>
      let i := b.inst id k
      if i.venue = venue ∧ i.derivative = true then { i with margin := some r } else i }

/-- One row of `end_snapshot`. -/
def endRow (b : BalanceBook) (r : Nat) : BalanceBook :=
  match b.rows[r]? with
  | none => b
  | some row =>
    if row.venue ≠ venue ∨ row.gen = (b.venues venue).gen then b
    else if row.account = true ∧ row.reported = false then b
    else
      (b.setRow r fun row =>
        { row with
          free := 0, locked := 0, total := 0, equity := 0, maintenance := 0
          withdrawable := if 0 < row.withdrawable then 0 else row.withdrawable
          asOf := ts, reported := true, gen := (b.venues venue).gen }).rebase r

/-- `end_snapshot`: rows of the venue the snapshot did not name hold nothing. -/
def endSnapshot : BalanceBook :=
  let b := { b with
    venues := update b.venues venue { b.venues venue with inSnapshot := false }
    stats.snapshots := b.stats.snapshots + 1 }
  (List.range b.rows.length).foldl (endRow venue ts) b

/-- The row a report names. -/
def reportRow (m : BalanceMsg) : Option Nat :=
  if m.account then (b.venues m.hdr.venue).accountRow
  else if m.asset = [] then none
  else b.find m.hdr.venue m.asset

def onReport (m : BalanceMsg) : BalanceBook :=
  let b := { b with live := true, stats.reports := b.stats.reports + 1 }
  let vs := b.venues m.hdr.venue
  let vs := if (m.snapshot || m.snapshotEnd) && !vs.inSnapshot then
      { vs with inSnapshot := true, gen := vs.gen + 1 } else vs
  let b := { b with venues := update b.venues m.hdr.venue vs }
  let b := match b.reportRow m with
    | some r =>
      let b := b.setRow r fun row =>
        { row with
          free := m.free, locked := m.locked, total := m.total, equity := m.equity
          maintenance := m.maintenance
          withdrawable := if m.hasWithdrawable then m.withdrawable else row.withdrawable
          asOf := m.hdr.exchTs, reported := true, gen := vs.gen
          asset := if m.account then m.asset else row.asset }
      let b := if m.account && !vs.accountReported then b.useAccount m.hdr.venue r else b
      b.rebase r
    | none =>
      if m.asset = [] then b else { b with stats.untracked := b.stats.untracked + 1 }
  if m.snapshotEnd then b.endSnapshot m.hdr.venue m.hdr.exchTs else b

end BalanceBook

end FastMM.Balance
