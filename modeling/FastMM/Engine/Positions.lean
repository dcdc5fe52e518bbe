/-
  Engine/Positions.lean --- what the engine books into its positions.

  Source: `include/fastmm/core/engine.hpp` (`on_fill`, `book_missed_fill`,
  `on_position_update`, `set_reported_position`, `note_held`, `pool_index`) and
  `account_pool.hpp`.

  A fill moves the position by what the execution brought, less what a synthetic
  fill had booked of it.  A venue's position report overwrites the position; on an
  account pool the report of one account rebuilds it from every account's last
  report.
-/
import FastMM.Position.Tracker
import FastMM.Oms.State
set_option autoImplicit false

namespace FastMM

/-! ## Account pools -/

def kVenues : Nat := 8

/-- `PoolMembers::kMax`. -/
def kMaxMembers : Nat := 8

/-- `PoolPlan`.  `add` never makes a venue a member of itself. -/
structure PoolPlan where
  primaryOf : Nat → VenueId := fun _ => .invalid
  active : Bool := false
  irrefl : ∀ v, primaryOf v ≠ ⟨v⟩ ∨ primaryOf v = .invalid := by intro v; exact .inr rfl

namespace PoolPlan

variable (p : PoolPlan)

def pooled (primary : VenueId) : Bool :=
  p.active && decide (primary.value < kVenues) && ((p.primaryOf primary.value).valid ||
      (List.range kVenues).any (fun v => p.primaryOf v == primary))

def members (primary : VenueId) : List VenueId :=
  if primary.valid then
    (primary :: ((List.range kVenues).filter (fun v => p.primaryOf v == primary)).map
      VenueId.mk).take kMaxMembers
  else []

/-- `Engine::pool_index`: the first member that is the account, else 0. -/
def poolIndex (primary account : VenueId) : Nat :=
  ((p.members primary).findIdx? (· == account)).getD 0

end PoolPlan

/-! ## State -/

structure PoolPosition where
  qty : Qty := 0
  avgPx : Price := 0
  reported : Bool := false
  deriving DecidableEq, Repr

/-- What of `Engine` the positions rest on: `positions_`, `pool_pos_` (allocated at
the first report) and `held_` (allocated with pools). -/
structure PositionDesk where
  positions : PositionTracker := {}
  poolPos : Option (Fin kMaxInstruments → Nat → PoolPosition) := none
  held : Option (Fin kMaxInstruments → Nat → Qty) := none

/-- The configuration it reads: `instruments_` and `cfg_.pools`. -/
structure DeskConfig where
  instruments : InstrumentTable
  pools : PoolPlan := {}

namespace PositionDesk

section Operations

variable (cfg : DeskConfig)
variable (f : OrderFillMsg)
variable (d : PositionDesk)
variable (u : OmsUpdate)
variable (i : Fin kMaxInstruments)

/-- A table written at one instrument and one index. -/
def putAt {α : Type} (f : Fin kMaxInstruments → Nat → α) (i : Fin kMaxInstruments) (k : Nat)
    (x : α) : Fin kMaxInstruments → Nat → α :=
  Function.update f i (Function.update (f i) k x)

/-! ## Fills -/

def noteHeld (account : VenueId) (side : Side)
    (qty : Qty) : PositionDesk :=
  let primary := (cfg.instruments.inst i).venue
  match d.held with
  | none => d
  | some held =>
    if cfg.pools.pooled primary then
      let k := cfg.pools.poolIndex primary account
      let h := held i k
      { d with held := some (putAt held i k (if side = .buy then h + qty else h - qty)) }
    else d

def bookMissedFill : PositionDesk :=
  if u.missedQty = 0 then d
  else
    match cfg.instruments.index u.order.instrument with
    | none => d
    | some i =>
      let inst := cfg.instruments.inst i
      let positions := d.positions.onFill i u.order.side u.order.price u.missedQty 0 inst
      noteHeld cfg { d with positions := positions } i u.order.venue u.order.side u.missedQty

/-- The instrument a fill trades: the order's, or the fill's own where the `Oms`
has none. -/
def fillInstrument : InstrumentId :=
  if u.order.instrument.valid then u.order.instrument else f.hdr.instrument

/-- The side a fill trades on. -/
def fillSide : Side :=
  if u.order.instrument.valid then u.order.side else f.side

/-- The account a fill is on. -/
def fillAccount : VenueId :=
  if u.order.instrument.valid then u.order.venue else f.hdr.venue

/-- What a fill leaves us holding more or less of.  Commission in the base asset
changes it: a buy receives `qty - fee`, a sell delivers `qty + fee`. -/
def heldQty (side : Side) : Qty :=
  if f.feeAsset = .base then
    let held := if side = .buy then f.qty - f.fee else f.qty + f.fee
    if 0 < held then held else f.qty
  else f.qty

/-- What a fill costs, in the settlement currency; a commission in another asset is
not valued.  A byte that is no fee asset is booked as quote. -/
def fillFee (inst : Instrument) : Notional :=
  match f.feeAsset with
  | .base => inst.notional f.price f.fee
  | .other => 0
  | .quote => f.fee
  | .invalid => f.fee

/-- The part of the execution a synthetic fill had put in the position. -/
def correctedQty (side : Side) : Qty :=
  if u.correctedQty = 0 then 0
  else if u.correctedQty < heldQty f side then u.correctedQty else heldQty f side

/-- The quantity `on_fill` books as a new fill. -/
def bookedQty : Qty :=
  heldQty f (fillSide f u) - correctedQty f u (fillSide f u)

/-- The part of `on_fill` that books the execution. -/
def bookFill (f : OrderFillMsg) (u : OmsUpdate) : PositionDesk :=
  if u.action = .duplicate then d
  else
    match cfg.instruments.index (fillInstrument f u) with
    | none => d
    | some i =>
      let inst := cfg.instruments.inst i
      let side := fillSide f u
      let fee := fillFee f inst
      let corrected := correctedQty f u side
      let positions := if u.correctedQty = 0 then d.positions
        else d.positions.correctFill i side u.syntheticPx f.price corrected fee inst
      let fee := if u.correctedQty = 0 then fee else 0
      let booked := bookedQty f u
      if 0 < booked then
        let positions := positions.onFill i side f.price booked fee inst
        noteHeld cfg { d with positions := positions } i (fillAccount f u) side booked
      else { d with positions := positions }

/-! ## Position reports -/

/-- The index of the last member that is the account. -/
def lastIndex (members : List VenueId) (account : VenueId) : Option Nat :=
  ((List.range members.length).filter (fun i => members[i]? == some account)).getLast?

/-- The sum, the weighted price and the size `set_reported_position` accumulates. -/
structure PoolSum where
  sum : Qty := 0
  weighted : Int := 0
  size : Qty := 0

/-- One iteration of its loop. -/
def PoolSum.add (a : PoolSum) (p : PoolPosition) : PoolSum :=
  if p.reported then
    { sum := a.sum + p.qty
      weighted := a.weighted + p.avgPx * absRaw p.qty
      size := a.size + absRaw p.qty }
  else a

def setReportedPosition (account : VenueId)
    (qty : Qty) (avgPx : Price) : PositionDesk :=
  let inst := cfg.instruments.inst i
  if cfg.pools.pooled inst.venue = false then
    { d with positions := d.positions.set i qty avgPx inst }
  else
    let members := cfg.pools.members inst.venue
    match lastIndex members account with
    | none => { d with positions := d.positions.set i qty avgPx inst }
    | some k =>
      let table := putAt (d.poolPos.getD (fun _ _ => {})) i k ⟨qty, avgPx, true⟩
      let a := (List.range members.length).foldl (fun a m => a.add (table i m)) ({} : PoolSum)
      let avg := if 0 < a.size then a.weighted.tdiv a.size else 0
      { positions := d.positions.set i a.sum avg inst
        poolPos := some table
        held := d.held.map (fun held => putAt held i k qty) }

def onPositionUpdate (id : InstrumentId) (account : VenueId) (qty : Qty)
    (avgPx : Price) : PositionDesk :=
  match cfg.instruments.index id with
  | none => d
  | some i => setReportedPosition cfg d i account qty avgPx

end Operations

end PositionDesk

end FastMM
