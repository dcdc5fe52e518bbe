/-
  Sim/Accounts.lean --- the account the simulated venue keeps for the strategy.

  Source: `include/fastmm/sim/sim_account.hpp`, `src/sim/sim_account.cpp`.

  Amounts are raw values.  A row is its index; the account slot and the instrument
  index the state that `at(k, id)` reads.  What only the published messages read
  (the dirty venues, the amounts last published, the counters) is left out.
-/
import FastMM.Core.Currency
import FastMM.Core.Instrument
import FastMM.Foundation.KeyedTable
import Mathlib.Logic.Function.Basic
set_option autoImplicit false

namespace FastMM.Sim

open Foundation

/-! ## Data -/

def kMaxVenues : Nat := 8

/-- The entries `OpenHashMap<_, _, kMaxOrders>` takes: seven eighths of its slots. -/
def kMaxHolds : Nat := 16384 - 16384 / 8

/-- An instrument as the account reads it: `derivative` is `is_derivative()`. -/
structure AccountInstrument where
  inst : Instrument := {}
  derivative : Bool := false
  base : List Char := []
  quote : List Char := []
  deriving DecidableEq, Repr

def AccountInstrument.settlementCcy (i : AccountInstrument) : List Char :=
  if i.inst.inverse then i.base else i.quote

structure SimBalance where
  asset : List Char
  amount : Notional
  deriving DecidableEq, Repr

structure SimAccountConfig where
  venue : VenueId
  balances : List SimBalance := []
  deriving DecidableEq, Repr

/-- `SimAccounts::Row`. -/
structure SimRow where
  venue : VenueId := .invalid
  asset : List Char := []
  total : Int := 0
  locked : Int := 0
  deriving DecidableEq, Repr

/-- `SimAccounts::Inst`. -/
structure SimInst where
  on : Bool := false
  derivative : Bool := false
  base : Option Nat := none
  quote : Option Nat := none
  settle : Option Nat := none
  imRaw : Int := 0
  position : Int := 0
  entry : Price := 0
  positionMargin : Int := 0
  sideHold : Side → Int := fun _ => 0
  mark : Price := 0
  venueMark : Bool := false

/-- `SimAccounts::Hold`. -/
structure SimHold where
  inst : Nat
  venue : VenueId
  slot : Nat
  side : Side
  price : Price
  leaves : Qty
  amount : Int
  reduces : Bool
  reduceOnly : Bool
  deriving DecidableEq, Repr

structure SimAccounts where
  instruments : List AccountInstrument
  slotOfVenue : VenueId → Option Nat := fun _ => none
  nSlots : Nat := 0
  rows : Nat → SimRow := fun _ => {}
  nRows : Nat := 0
  inst : Nat → Nat → SimInst := fun _ _ => {}
  holds : KeyedTable Nat SimHold := .empty

/-- `margin_of`: notional times rate, rounded up. -/
def marginOf (n rateRaw : Int) : Int :=
  if n ≤ 0 ∨ rateRaw ≤ 0 then 0 else (n * rateRaw + kFixedScale - 1).tdiv kFixedScale

namespace SimInst

variable (i : SimInst)

/-- The row an order on `side` of a spot instrument draws on. -/
def spotRow : Side → Option Nat
  | .buy => i.quote
  | .sell => i.base

/-- What the instrument's positions and orders lock in its settlement row. -/
def margin : Int := i.positionMargin + max (i.sideHold .buy) (i.sideHold .sell)

/-- The order only takes the position towards zero. -/
def towardsZero (side : Side) : Bool :=
  decide (i.position ≠ 0) && (decide (side = .buy) == decide (i.position < 0))

end SimInst

namespace SimAccounts

/-! ## Reads -/

variable (s : SimAccounts)
variable (id : ClientOrderId)
variable (i : SimInst)
variable (initialMargin : List Int)
variable (row : Nat)

def nInst : Nat := s.instruments.length

/-- `instruments_.get(id)`. -/
def instrument (id : Nat) : AccountInstrument := s.instruments.getD id {}

def slotFor (venue : VenueId) : Option Nat :=
  if venue.value < kMaxVenues then s.slotOfVenue venue else none

/-- The slot of the account an order goes to: its venue's, or the instrument's own. -/
def slotOf (venue : VenueId) (id : Nat) : Option Nat :=
  s.slotFor (if venue.valid then venue else (s.instrument id).inst.venue)

def enabled (v : VenueId) : Bool :=
  decide (v.value < kMaxVenues) && (s.slotOfVenue v).isSome

def find (venue : VenueId) (asset : List Char) : Option Nat :=
  (List.range s.nRows).find? fun r =>
    decide ((s.rows r).venue = venue) && sameCurrency (s.rows r).asset asset

/-- Every account slot with every instrument, the order of `inst_`. -/
def places : List (Nat × Nat) :=
  (List.range s.nSlots).flatMap fun k => (List.range s.nInst).map fun i => (k, i)

/-- The instrument settles in the row. -/
def settlesIn (p : Nat × Nat) : Bool :=
  (s.inst p.1 p.2).on && (s.inst p.1 p.2).derivative && decide ((s.inst p.1 p.2).settle = some row)

/-- The unrealised PnL of one instrument's position at its mark. -/
def upnlAt (p : Nat × Nat) : Int :=
  let i := s.inst p.1 p.2
  if i.position = 0 ∨ i.mark ≤ 0 then 0
  else
    let size := absRaw i.position
    let atMark := (s.instrument p.2).inst.notional i.mark size
    let atEntry := (s.instrument p.2).inst.notional i.entry size
    let longPnl := if (s.instrument p.2).inst.inverse then atEntry - atMark else atMark - atEntry
    if 0 < i.position then longPnl else -longPnl

def upnl : Int :=
  ((s.places.filter (s.settlesIn row)).map s.upnlAt).sum

/-- The row's free amount. -/
def freeOf : Int :=
  (s.rows row).total + s.upnl row - (s.rows row).locked

def holdOf (inst : Instrument) (side : Side) (px : Price) (qty : Qty)
    (reduces : Bool) : Int :=
  if qty ≤ 0 then 0
  else if i.derivative = false then if side = .sell then qty else inst.notional px qty
  else if reduces then 0
  else marginOf (inst.notional px qty) i.imRaw

/-! ## Writes -/

/-- Writes one row. -/
def modifyRow (r : Nat) (f : SimRow → SimRow) : SimAccounts :=
  { s with rows := Function.update s.rows r (f (s.rows r)) }

/-- `rows_[r].locked += d` on a row that is there. -/
def lock (r : Option Nat) (d : Int) : SimAccounts :=
  match r with
  | none => s
  | some r => s.modifyRow r fun row => { row with locked := row.locked + d }

/-- `rows_[r].total += d` on a row that is there. -/
def credit (r : Option Nat) (d : Int) : SimAccounts :=
  match r with
  | none => s
  | some r => s.modifyRow r fun row => { row with total := row.total + d }

/-- Writes the state of one instrument in one account. -/
def setInst (k id : Nat) (i : SimInst) : SimAccounts :=
  { s with inst := Function.update s.inst k (Function.update (s.inst k) id i) }

/-- `in.side_hold[side] += d`. -/
def addSideHold (k id : Nat) (side : Side) (d : Int) : SimAccounts :=
  s.setInst k id { s.inst k id with
    sideHold := Function.update (s.inst k id).sideHold side ((s.inst k id).sideHold side + d) }

/-- `relock`: the row's locked is taken again from its instruments. -/
def relock (row : Option Nat) : SimAccounts :=
  match row with
  | none => s
  | some r =>
    let locked :=
      ((s.places.filter (s.settlesIn r)).map fun p => (s.inst p.1 p.2).margin).sum
    s.modifyRow r fun row => { row with locked := locked }

def close : SimAccounts :=
  match s.holds.find id.value with
  | none => s
  | some o =>
    let s := { s with holds := s.holds.erase id.value }
    if o.amount = 0 then s
    else
      let i := s.inst o.slot o.inst
      if i.derivative = false then s.lock (i.spotRow o.side) (-o.amount)
      else (s.addSideHold o.slot o.inst o.side (-o.amount)).relock i.settle

/-- The balance check of `admit`: whether `amount` more, less what the replaced order
held on `oldSide`, is above what is free. -/
def short (side oldSide : Side) (amount oldAmount : Int)
    (reduces : Bool) : Bool :=
  if i.derivative = false then
    match i.spotRow side with
    | none => false
    | some r =>
      let need := amount - if oldSide = side then oldAmount else 0
      decide (0 < need ∧ (s.rows r).total - (s.rows r).locked < need)
  else if reduces then false
  else
    match i.settle with
    | none => false
    | some r =>
      let free := s.freeOf r
      if i.imRaw = 0 then decide (free < 0)
      else
        let sides := Function.update i.sideHold oldSide (i.sideHold oldSide - oldAmount)
        let sides := Function.update sides side (sides side + amount)
        let need := max (sides .buy) (sides .sell) - max (i.sideHold .buy) (i.sideHold .sell)
        decide (0 ≤ need ∧ (free < 0 ∨ free < need))

/-- The end of `admit`: the order's hold, and what it locks. -/
def hold (h : SimHold) : SimAccounts :=
  if (s.holds.find id.value).isSome ∨ kMaxHolds ≤ s.holds.size then s
  else
    let i := s.inst h.slot h.inst
    let s := { s with holds := s.holds.insert kMaxHolds id.value h }
    if h.amount = 0 then s
    else if i.derivative = false then s.lock (i.spotRow h.side) h.amount
    else (s.addSideHold h.slot h.inst h.side h.amount).relock i.settle

/-- `admit`. -/
def admitOrder (inst : Nat) (side : Side) (px : Price)
    (qty : Qty) (reduceOnly : Bool) (replaces : ClientOrderId) (venue : VenueId) :
    SimAccounts × Bool :=
  if s.nInst ≤ inst then (s, true)
  else
    match s.slotOf venue inst with
    | none => (s, true)
    | some k =>
      let i := s.inst k inst
      -- the venue refuses a duplicate id itself; the open order keeps its own hold
      if i.on = false ∨ (s.holds.find id.value).isSome then (s, true)
      else
        let old := if replaces.valid then s.holds.find replaces.value else none
        let oldAmount := (old.map SimHold.amount).getD 0
        let oldSide := (old.map SimHold.side).getD side
        let reduces := i.derivative &&
          (reduceOnly || (i.towardsZero side && decide (qty ≤ absRaw i.position)))
        let amount := holdOf i (s.instrument inst).inst side px qty reduces
        if s.short i side oldSide amount oldAmount reduces then (s, false)
        else
          let s' := if old.isSome then s.close replaces else s
          (s'.hold id
            { inst := inst
              venue := if venue.valid then venue else (s.instrument inst).inst.venue
              slot := k
              side := side
              price := px
              leaves := qty
              amount := amount
              reduces := reduces
              reduceOnly := reduceOnly }, true)

def admitReplace (orig id : ClientOrderId) (px : Price) (qty : Qty) :
    SimAccounts × Bool :=
  match s.holds.find orig.value with
  | none => (s, true)
  | some h => s.admitOrder id h.inst h.side px qty h.reduceOnly orig h.venue

/-- `reducible(inst, side, venue)`; `none` is `Qty::max()`. -/
def reducible (inst : Nat) (side : Side) (venue : VenueId) : Option Qty :=
  if s.nInst ≤ inst then none
  else
    match s.slotOf venue inst with
    | none => none
    | some k =>
      let i := s.inst k inst
      if i.on = false ∨ i.derivative = false then none
      else if i.towardsZero side then some (absRaw i.position) else some 0

/-- `reducible(id)`. -/
def reducibleOf : Option Qty :=
  match s.holds.find id.value with
  | none => none
  | some h => if h.reduceOnly then s.reducible h.inst h.side h.venue else none

/-- The PnL a fill realises, and the position and the entry price after it. -/
def filledPosition (inst : Instrument) (side : Side) (px : Price) (qty : Qty) :
    Int × Int × Price :=
  let n := inst.notional px qty
  let signedQty := if side = .buy then qty else -qty
  let pos := i.position
  if pos ≠ 0 ∧ decide (0 < pos) ≠ decide (0 < signedQty) then
    let closed := min (absRaw pos) qty
    let atPx := inst.notional px closed
    let atEntry := inst.notional i.entry closed
    let longPnl := if inst.inverse then atEntry - atPx else atPx - atEntry
    let realized := if 0 < pos then longPnl else -longPnl
    let rest := qty - closed
    let after := pos + if 0 < pos then -closed else closed
    if 0 < rest then (realized, if 0 < signedQty then rest else -rest, px)
    else (realized, after, if after = 0 then 0 else i.entry)
  else
    let was := absRaw pos
    let now := was + qty
    let entry :=
      if was = 0 then px
      else if inst.inverse then
        let sum := inst.notional i.entry was + n
        if 0 < sum then (now * inst.contractMultiplier).tdiv sum else i.entry
      else (i.entry * was + px * qty).tdiv now
    (0, pos + signedQty, entry)

/-- The spot branch of `fill`. -/
def fillSpot (o : SimHold) (release : Int) (px : Price) (qty : Qty)
    (fee : Notional) : SimAccounts :=
  let i := s.inst o.slot o.inst
  let n := (s.instrument o.inst).inst.notional px qty
  let s := s.lock (i.spotRow o.side) (-release)
  let s := s.credit i.base (if o.side = .buy then qty else -qty)
  s.credit i.quote ((if o.side = .buy then -n else n) - fee)

/-- The derivative branch of `fill`. -/
def fillDerivative (o : SimHold) (release : Int) (px : Price) (qty : Qty)
    (fee : Notional) : SimAccounts :=
  let i := s.inst o.slot o.inst
  let inst := (s.instrument o.inst).inst
  let s := s.addSideHold o.slot o.inst o.side (-release)
  let r := filledPosition i inst o.side px qty
  let s := s.setInst o.slot o.inst { s.inst o.slot o.inst with
    position := r.2.1
    entry := r.2.2
    positionMargin := marginOf (inst.notional r.2.2 (absRaw r.2.1)) i.imRaw }
  (s.credit i.settle (r.1 - fee)).relock i.settle

def fill (px : Price) (qty leaves : Qty) (fee : Notional) :
    SimAccounts :=
  match s.holds.find id.value with
  | none => s
  | some o =>
    let i := s.inst o.slot o.inst
    let after :=
      if 0 < leaves then holdOf i (s.instrument o.inst).inst o.side o.price leaves o.reduces else 0
    let t := if i.derivative = false then s.fillSpot o (o.amount - after) px qty fee
      else s.fillDerivative o (o.amount - after) px qty fee
    if 0 < leaves then
      { t with holds := t.holds.modify id.value fun h =>
          { h with amount := after, leaves := leaves } }
    else { t with holds := t.holds.erase id.value }

/-- The loop of `mark`: every account of the instrument's pool takes the price. -/
def mark (id : Nat) (px : Price) (venue : Bool) : SimAccounts :=
  if s.nInst ≤ id ∨ (s.slotFor (s.instrument id).inst.venue).isNone ∨ px ≤ 0 then s
  else
    (List.range s.nSlots).foldl (fun s k =>
      let i := s.inst k id
      if i.on = false ∨ i.derivative = false ∨ (i.venueMark && !venue) then s
      else s.setInst k id { i with mark := px, venueMark := i.venueMark || venue }) s

def transfer (source target : VenueId) (asset : List Char) (amount : Notional) :
    SimAccounts × Bool :=
  if source = target ∨ amount ≤ 0 ∨ s.enabled source = false ∨ s.enabled target = false then
    (s, false)
  else
    match s.find source asset, s.find target asset with
    | some a, some b =>
      if s.freeOf a < amount then (s, false)
      else ((s.credit (some a) (-amount)).credit (some b) amount, true)
    | _, _ => (s, false)

/-- `move`: what moved. -/
def move (venue : VenueId) (asset : List Char) (amount : Notional) :
    SimAccounts × Notional :=
  if s.enabled venue = false ∨ amount = 0 then (s, 0)
  else
    match s.find venue asset with
    | none => (s, 0)
    | some r =>
      let raw := if amount < 0 then max amount (-max 0 (s.freeOf r)) else amount
      (s.credit (some r) raw, raw)

/-! ## Construction -/

def rowFor (venue : VenueId) (asset : List Char) : SimAccounts × Option Nat :=
  if asset = [] then (s, none)
  else
    match s.find venue asset with
    | some r => (s, some r)
    | none =>
      ({ s with
          rows := Function.update s.rows s.nRows { venue := venue, asset := asset }
          nRows := s.nRows + 1 }, some s.nRows)

/-- The first loop of the constructor: an account slot for each account. -/
def addAccount (primary : VenueId → VenueId) (s : SimAccounts) (a : SimAccountConfig) :
    Except String SimAccounts :=
  if ¬a.venue.valid ∨ kMaxVenues ≤ a.venue.value then
    .error "sim account: venue id out of range"
  else if ¬s.instruments.any fun i => decide (i.inst.venue = primary a.venue) then
    .error s!"sim account: no instrument trades on venue {a.venue.value}"
  else if (s.slotOfVenue a.venue).isSome then
    .error s!"sim account: venue {a.venue.value} has two accounts"
  else
    .ok { s with
      slotOfVenue := Function.update s.slotOfVenue a.venue (some s.nSlots)
      nSlots := s.nSlots + 1 }

/-- The body of the second loop: instrument `id` in the account of `venue`. -/
def addInst (venue : VenueId) (k : Nat) (s : SimAccounts) (id : Nat)
    (i : AccountInstrument) : SimAccounts :=
  let rate := initialMargin.getD id 0
  let fresh : SimInst := { on := true, derivative := i.derivative, imRaw := max rate 0 }
  if i.derivative then
    let r := s.rowFor venue i.settlementCcy
    r.1.setInst k id { fresh with settle := r.2 }
  else
    let b := s.rowFor venue i.base
    let q := b.1.rowFor venue i.quote
    q.1.setInst k id { fresh with base := b.2, quote := q.2 }

/-- The second loop of the constructor, for one venue. -/
def addVenue (primary : VenueId → VenueId) (s : SimAccounts)
    (v : Nat) : SimAccounts :=
  match s.slotOfVenue ⟨v⟩ with
  | none => s
  | some k =>
    (List.range s.nInst).foldl (fun s id =>
      if (s.instrument id).inst.venue = primary ⟨v⟩ then
        s.addInst initialMargin ⟨v⟩ k id (s.instrument id)
      else s) s

/-- The third loop of the constructor, for one balance; `seen` are the names before. -/
def addBalance (venue : VenueId) (s : SimAccounts) (seen : List (List Char)) (b : SimBalance) :
    Except String SimAccounts :=
  if b.asset = [] then .error "sim account: an empty asset name"
  else if seen.any fun name => sameCurrency name b.asset then
    .error s!"sim account: asset {String.ofList b.asset} named twice on venue {venue.value}"
  else
    let r := s.rowFor venue b.asset
    match r.2 with
    | none => .ok r.1
    | some row => .ok (r.1.modifyRow row fun row => { row with total := b.amount })

/-- The balances of one account, with the names before. -/
def addBalances (venue : VenueId) : SimAccounts → List (List Char) → List SimBalance →
    Except String SimAccounts
  | s, _, [] => .ok s
  | s, seen, b :: rest =>
    match s.addBalance venue seen b with
    | .error e => .error e
    | .ok s => addBalances venue s (seen ++ [b.asset]) rest

/-- A loop whose body may throw. -/
def each {α : Type} (f : SimAccounts → α → Except String SimAccounts) :
    SimAccounts → List α → Except String SimAccounts
  | s, [] => .ok s
  | s, a :: rest =>
    match f s a with
    | .error e => .error e
    | .ok s => each f s rest

/-- The constructor; `primary` is the identity without pools. -/
def create (instruments : List AccountInstrument) (accounts : List SimAccountConfig)
    (initialMargin : List Int) (primary : VenueId → VenueId) : Except String SimAccounts :=
  match each (addAccount primary) { instruments := instruments } accounts with
  | .error e => .error e
  | .ok s =>
    let s := (List.range kMaxVenues).foldl (addVenue initialMargin primary) s
    each (fun s a => s.addBalances a.venue [] a.balances) s accounts

/-! ## Runs -/

/-- One call. -/
inductive AccountOp where
  | admitOrder (id : ClientOrderId) (inst : Nat) (side : Side) (px : Price) (qty : Qty)
      (reduceOnly : Bool) (replaces : ClientOrderId) (venue : VenueId)
  | admitReplace (orig id : ClientOrderId) (px : Price) (qty : Qty)
  | fill (id : ClientOrderId) (px : Price) (qty leaves : Qty) (fee : Notional)
  | close (id : ClientOrderId)
  | mark (id : Nat) (px : Price) (venue : Bool)
  | transfer (source target : VenueId) (asset : List Char) (amount : Notional)
  | move (venue : VenueId) (asset : List Char) (amount : Notional)
  deriving DecidableEq, Repr

def step : AccountOp → SimAccounts
  | .admitOrder id inst side px qty reduceOnly replaces venue =>
    (s.admitOrder id inst side px qty reduceOnly replaces venue).1
  | .admitReplace orig id px qty => (s.admitReplace orig id px qty).1
  | .fill id px qty leaves fee => s.fill id px qty leaves fee
  | .close id => s.close id
  | .mark id px venue => s.mark id px venue
  | .transfer source target asset amount => (s.transfer source target asset amount).1
  | .move venue asset amount => (s.move venue asset amount).1

def run (ops : List AccountOp) : SimAccounts := ops.foldl step s

end SimAccounts

end FastMM.Sim
