/-
  Itch/L2Bridge.lean --- ITCH messages to price levels, one L3 book an instrument.

  Source: `src/codecs/itch/itch_l2_bridge.cpp`,
  `include/fastmm/codecs/itch/itch_decoder_impl.hpp` (`decode_into`).

  A message stands decoded from its bytes; one whose bytes do not decode is
  `malformed`.  The bridge reads an instrument's L3 book through the operations of
  `L3Book` alone, so the book is a type with these operations (`L3BookOps`).  The
  sink answers each reservation by its kind and number.

  `sent` is what was committed to the sink, oldest first.
-/
import FastMM.Core.Instrument
import FastMM.Mdp3.Feed
import Mathlib.Logic.Function.Basic
set_option autoImplicit false

namespace FastMM.Itch

open Function

open Mdp3 (ConnState)

/-! ## The L3 book -/

inductive L3Error where
  | none
  | duplicateRef
  | unknownRef
  | poolExhausted
  | outOfWindow
  | offTick
  | badQty
  deriving DecidableEq, Repr

namespace L3Error

/-- The errors that say the book is too small. -/
def capacity (e : L3Error) : Bool := decide (e = .poolExhausted ∨ e = .outOfWindow)

end L3Error

structure L3BookConfig where
  priceWindowTicks : Nat := 65536
  maxOrders : Nat := 1048576
  maxOverflowLevels : Nat := 8192
  deriving DecidableEq, Repr

/-- The operations of `L3Book` the bridge uses.  `find` gives the side and the price
of the order; `execute` and `cancel` are the handle forms, called on an order that
`find` found; the quantities are the level's after the operation. -/
class L3BookOps (β : Type) where
  create : Price → L3BookConfig → β
  clear : β → β
  add : β → Nat → Side → Price → Qty → β × L3Error × Qty
  find : β → Nat → Option (Side × Price)
  execute : β → Nat → Qty → β × Qty
  cancel : β → Nat → Qty → β × Qty
  best : β → Side → Level
  nextLevel : β → Side → Price → Level
  topLevels : β → Side → Nat → List Level

/-- `L3Order`, without its links. -/
structure L3Order where
  ref : Nat
  side : Side
  price : Price
  qty : Qty
  deriving DecidableEq, Repr

/-- An `L3Book` whose overflow store has room for every order of its pool: the orders
in the order they came. -/
structure PoolBook where
  tick : Price
  maxOrders : Nat
  orders : List L3Order := []
  deriving DecidableEq, Repr

namespace PoolBook

variable (b : PoolBook)
variable (side : Side)

/-- The total quantity at one price. -/
def levelQty (price : Price) : Qty :=
  ((b.orders.filter fun o => o.side = side ∧ o.price = price).map L3Order.qty).sum

/-- The prices of one side, best first. -/
def prices : List Price :=
  ((b.orders.filter fun o => o.side = side).map L3Order.price).foldr (fun p ps => if p ∈ ps then ps
      else ps.takeWhile (fun q => better side q p) ++
        p :: ps.dropWhile (fun q => better side q p)) []

/-- The levels of one side, best first. -/
def levels : List Level :=
  (b.prices side).map fun p => ⟨p, b.levelQty side p⟩

/-- `add`: what it refuses and in which order. -/
def add (ref : Nat) (side : Side) (price : Price) (qty : Qty) :
    PoolBook × L3Error × Qty :=
  if qty ≤ 0 then (b, .badQty, 0)
  else if price.tmod b.tick ≠ 0 then (b, .offTick, 0)
  else if b.maxOrders ≤ b.orders.length then (b, .poolExhausted, 0)
  else if b.orders.any fun o => o.ref = ref then (b, .duplicateRef, 0)
  else
    let b := { b with orders := b.orders ++ [⟨ref, side, price, qty⟩] }
    (b, .none, b.levelQty side price)

/-- `reduce`: an order reduced to nothing leaves the book. -/
def reduce (o : L3Order) (qty : Qty) : PoolBook × Qty :=
  let orders := if o.qty ≤ qty then b.orders.filter fun p => p.ref ≠ o.ref
    else b.orders.map fun p => if p.ref = o.ref then { p with qty := p.qty - qty } else p
  let b := { b with orders := orders }
  (b, b.levelQty o.side o.price)

end PoolBook

instance : L3BookOps PoolBook where
  create tick cfg := { tick := tick, maxOrders := cfg.maxOrders }
  clear b := { b with orders := [] }
  add := PoolBook.add
  find b ref := (b.orders.find? fun o => o.ref = ref).map fun o => (o.side, o.price)
  execute b ref qty := match b.orders.find? fun o => o.ref = ref with
    | none => (b, 0)
    | some o => b.reduce o qty
  cancel b ref qty := match b.orders.find? fun o => o.ref = ref with
    | none => (b, 0)
    | some o => b.reduce o (if qty = 0 then o.qty else qty)
  best b side := (b.levels side).headD {}
  nextLevel b side after := ((b.levels side).find? fun l => better side after l.price).getD {}
  topLevels b side depth := (b.levels side).take depth

/-! ## Messages -/

def kPrice4Unit : Int := 10000
def kMaxShares : Nat := 92233720368
def kCapacityReason : Int := 1

def price4ToPrice (p : Nat) : Price := p * kPrice4Unit

def sharesToQty (n : Nat) : Qty := n * kFixedScale

/-- An ITCH message past its header: the side is `none` when the indicator is neither
`B` nor `S`. -/
inductive Body where
  | addOrder (ref : Nat) (side : Option Side) (shares price : Nat)
  | executed (ref shares match_ : Nat)
  | executedWithPrice (ref shares match_ : Nat) (printable : Bool) (price : Nat)
  | cancelShares (ref shares : Nat)
  | delete (ref : Nat)
  | replace (oldRef newRef shares price : Nat)
  | trade (side : Option Side) (shares price match_ : Nat)
  | cross (shares price match_ : Nat)
  | directory (stock : String)
  | systemEvent (code : Char)
  | other
  | malformed
  deriving DecidableEq, Repr

/-- One ITCH message. -/
structure ItchMsg where
  locate : Nat := 0
  ts : Timestamp := 0
  body : Body := .other
  deriving DecidableEq, Repr

/-- What the bridge commits to the sink. -/
inductive Event where
  | state (s : ConnState) (reason : Int) (inst : InstrumentId)
  | trade (inst : InstrumentId) (seq : Nat) (ts : Timestamp) (price : Price) (qty : Qty)
      (match_ : Nat) (aggressor : Side) (known : Bool)
  | snapshot (inst : InstrumentId) (seq : Nat) (ts : Timestamp) (bids asks : List Level)
  | delta (inst : InstrumentId) (firstSeq lastSeq prevU : Nat) (ts : Timestamp)
      (bids asks : List Level)
  deriving DecidableEq, Repr

/-- The kinds of a reservation. -/
inductive MsgKind where
  | state
  | trade
  | book
  deriving DecidableEq, Repr

/-! ## Slots -/

/-- `Slot::Changes`; `marked` are the set bits of `words`. -/
structure Changes where
  marked : Nat → Bool := fun _ => false
  ranksChanged : Bool := false

structure Slot (β : Type) where
  id : InstrumentId
  book : β
  published : Side → List Level := fun _ => []
  current : Side → List Level := fun _ => []
  changed : Side → Changes := fun _ => {}
  firstSeq : Nat := 0
  lastSeq : Nat := 0
  prevU : Nat := 0
  lastExchTs : Timestamp := 0
  pending : Bool := false
  complete : Bool := false
  full : Bool := false
  notice : Bool := false
  locates : Nat := 0
  dirty : Bool := false

/-- `diff_levels`: the levels of `now` that differ from `before` as absolute
quantities, the levels missing from `now` with quantity 0. -/
def diffLevels (side : Side) : List Level → List Level → List Level
  | [], now => now
  | before, [] => before.map fun l => { l with qty := 0 }
  | b :: before, n :: now =>
    if better side b.price n.price then
      { b with qty := 0 } :: diffLevels side before (n :: now)
    else if better side n.price b.price then n :: diffLevels side (b :: before) now
    else if b.qty ≠ n.qty then n :: diffLevels side before now
    else diffLevels side before now
termination_by before now => before.length + now.length

/-- The binary search of `touch`: the first index whose level is not better. -/
def lowerBound (side : Side) (now : List Level) (price : Price) : Nat → Nat → Nat → Nat
  | 0, lo, _ => lo
  | fuel + 1, lo, hi =>
    if lo < hi then
      let mid := lo + (hi - lo) / 2
      if better side (now.getD mid {}).price price then lowerBound side now price fuel (mid + 1) hi
      else lowerBound side now price fuel lo mid
    else lo

namespace Slot

variable {β : Type} [L3BookOps β]
variable (s : Slot β)

/-- `s.current(side)[..] = now` and its change marks. -/
def setCurrent (side : Side) (now : List Level) (c : Changes) : Slot β :=
  { s with
    current := update s.current side now
    changed := update s.changed side c }

/-- The current top after the level at `price` came to `levelQty`; `none` when the
top does not change. -/
def retouch (depth : Nat) (side : Side) (price : Price) (levelQty : Qty) :
    Option (Slot β) :=
  let now := s.current side
  let changed := s.changed side
  let n := now.length
  if n = depth ∧ better side (now.getD (n - 1) {}).price price then none
  else
    let lo := lowerBound side now price (n + 1) 0 n
    if lo < n ∧ (now.getD lo {}).price = price then
      if (now.getD lo {}).qty = levelQty then none
      else if 0 < levelQty then
        let marks := if changed.ranksChanged then changed
          else { changed with marked := update changed.marked lo true }
        some (s.setCurrent side (now.set lo ⟨price, levelQty⟩) marks)
      else
        let rest := now.eraseIdx lo
        let next := if n - 1 ≠ 0 then L3BookOps.nextLevel s.book side (rest.getD (n - 2) {}).price
          else L3BookOps.best s.book side
        let refilled := if n = depth ∧ 0 < next.qty then rest ++ [next] else rest
        some (s.setCurrent side refilled { changed with ranksChanged := true })
    else if levelQty = 0 ∨ lo = depth then none
    else
      some (s.setCurrent side ((now.insertIdx lo ⟨price, levelQty⟩).take (min (n + 1) depth))
        { changed with ranksChanged := true })

/-- The levels of one side `flush` emits. -/
def collect (depth : Nat) (side : Side) : List Level :=
  let now := s.current side
  let before := s.published side
  if (s.changed side).ranksChanged then diffLevels side before now
  else
    ((List.range depth).filter fun i => (s.changed side).marked i &&
      decide ((now.getD i {}).qty ≠ (before.getD i {}).qty)).map fun i => now.getD i {}

/-- `publish`: the published levels of one side after an emission. -/
def publishedNow (side : Side) : List Level :=
  let now := s.current side
  if (s.changed side).ranksChanged then now
  else (s.published side).mapIdx fun i l =>
    if (s.changed side).marked i then now.getD i {} else l

/-- What `refused` and `mark_incomplete` leave of the tops. -/
def emptied : Slot β :=
  { s with
    book := L3BookOps.clear s.book
    pending := false
    dirty := false
    changed := fun _ => {}
    published := fun _ => []
    current := fun _ => [] }

end Slot

/-! ## The bridge -/

structure ItchL2BridgeConfig where
  depth : Nat := 20
  tick : Price := 10000
  book : L3BookConfig := {}

/-- `ItchL2Bridge`, with the tables of its decoder: the registered symbols and the
locates they map to. -/
structure ItchL2Bridge (β : Type) where
  cfg : ItchL2BridgeConfig
  sink : MsgKind → Nat → Bool
  reservations : Nat := 0
  symbols : List (String × InstrumentId) := []
  locate : Nat → InstrumentId := fun _ => .invalid
  locateSlot : Nat → Option Nat := fun _ => none
  slots : List (Slot β) := []
  dirty : List Nat := []
  systemEvent : Char := ' '
  incomplete : Nat := 0
  unmapped : Nat := 0
  notices : Nat := 0
  sent : List Event := []

namespace ItchL2Bridge

variable {β : Type} [L3BookOps β]
variable (cfg : ItchL2BridgeConfig)

/-- The constructor. -/
def create (sink : MsgKind → Nat → Bool) : ItchL2Bridge β :=
  { cfg := cfg, sink := sink }

/-- `slot_of`, as the slot's index. -/
def slotOf (b : ItchL2Bridge β) (id : InstrumentId) : Option Nat :=
  b.slots.findIdx? fun s => decide (s.id = id)

/-- Writes one slot. -/
def put (b : ItchL2Bridge β) (i : Nat) (s : Slot β) : ItchL2Bridge β :=
  { b with slots := b.slots.set i s }

/-- `reserve` and `commit` of one message: false when the sink has no room. -/
def emit (b : ItchL2Bridge β) (k : MsgKind) (e : Event) : ItchL2Bridge β × Bool :=
  let room := b.sink k b.reservations
  let b := { b with reservations := b.reservations + 1 }
  if room then ({ b with sent := b.sent ++ [e] }, true) else (b, false)

def emitState (b : ItchL2Bridge β) (s : ConnState) (reason : Int) (id : InstrumentId) :
    ItchL2Bridge β × Bool :=
  b.emit .state (.state s reason id)

/-! ### Set-up -/

def addInstrument (b : ItchL2Bridge β) (symbol : String) (id : InstrumentId) :
    ItchL2Bridge β × Bool :=
  if ¬id.valid ∨ (b.slotOf id).isSome ∨ 65535 ≤ b.slots.length then (b, false)
  else if symbol ≠ "" ∧ 8 < symbol.length then (b, false)
  else
    ({ b with
        symbols := if symbol = "" then b.symbols else (symbol, id) :: b.symbols
        slots := b.slots ++ [{ id := id, book := L3BookOps.create b.cfg.tick b.cfg.book }]
        incomplete := b.incomplete + 1
        unmapped := b.unmapped + 1 }, true)

/-- `--slots_[old]->locates == 0` and what follows. -/
def unlocate (b : ItchL2Bridge β) : Option Nat → ItchL2Bridge β
  | none => b
  | some i =>
    match b.slots[i]? with
    | none => b
    | some s =>
      { b.put i { s with locates := s.locates - 1 } with
        unmapped := if s.locates - 1 = 0 then b.unmapped + 1 else b.unmapped }

/-- `slots_[idx]->locates++ == 0` and what follows. -/
def relocate (b : ItchL2Bridge β) : Option Nat → ItchL2Bridge β
  | none => b
  | some i =>
    match b.slots[i]? with
    | none => b
    | some s =>
      { b.put i { s with locates := s.locates + 1 } with
        unmapped := if s.locates = 0 then b.unmapped - 1 else b.unmapped }

def setLocate (b : ItchL2Bridge β) (locate : Nat) (idx : Option Nat) : ItchL2Bridge β :=
  if b.locateSlot locate = idx then b
  else
    let c := (b.unlocate (b.locateSlot locate)).relocate idx
    { c with locateSlot := update b.locateSlot locate idx }

def mapLocate (b : ItchL2Bridge β) (locate : Nat) (id : InstrumentId) : ItchL2Bridge β × Bool :=
  match b.slotOf id with
  | none => (b, false)
  | some i =>
    (setLocate { b with locate := update b.locate locate id } locate (some i), true)

def clearLocates (b : ItchL2Bridge β) : ItchL2Bridge β :=
  { b with
    locate := fun _ => .invalid
    locateSlot := fun _ => none
    slots := b.slots.map fun s => { s with locates := 0 }
    unmapped := b.slots.length }

/-! ### Book messages -/

/-- `touch`: `levelQty` is the quantity of the level at `price` after the message. -/
def touch (b : ItchL2Bridge β) (i : Nat) (s : Slot β) (side : Side) (price : Price)
    (levelQty : Qty) (seq : Nat) (ts : Timestamp) : ItchL2Bridge β :=
  let s := if s.pending then s else { s with pending := true, firstSeq := seq }
  let s := { s with lastSeq := seq, lastExchTs := ts }
  if s.complete = false then b.put i s
  else
    match s.retouch b.cfg.depth side price levelQty with
    | none => b.put i s
    | some s =>
      if s.dirty then b.put i s
      else { b.put i { s with dirty := true } with dirty := b.dirty ++ [i] }

def emitTrade (b : ItchL2Bridge β) (s : Slot β) (seq : Nat) (ts : Timestamp) (price : Price)
    (qty : Qty) (match_ : Nat) (aggressor : Side) (known : Bool) : ItchL2Bridge β :=
  (b.emit .trade (.trade s.id seq ts price qty match_ aggressor known)).1

/-- The loop of `send_notices` over the slots from `i` on, which stops at a refusal. -/
def sendNoticesFrom (b : ItchL2Bridge β) : List Nat → ItchL2Bridge β
  | [] => b
  | i :: rest =>
    match b.slots[i]? with
    | none => b.sendNoticesFrom rest
    | some s =>
      if s.notice then
        let r := b.emitState .Resyncing kCapacityReason s.id
        if r.2 then
          sendNoticesFrom
            { r.1.put i { s with notice := false } with notices := r.1.notices - 1 } rest
        else r.1
      else b.sendNoticesFrom rest

def sendNotices (b : ItchL2Bridge β) : ItchL2Bridge β :=
  b.sendNoticesFrom (List.range b.slots.length)

/-- `refused`: a capacity refusal takes the book out of service. -/
def refused (b : ItchL2Bridge β) (i : Nat) (s : Slot β) (e : L3Error) : ItchL2Bridge β :=
  if e.capacity = false then b.put i s
  else if s.complete then
    sendNotices { b.put i { s.emptied with full := true, complete := false, notice := true } with
        notices := b.notices + 1 }
  else { b.put i { s.emptied with full := true } with incomplete := b.incomplete - 1 }

def onAdd (b : ItchL2Bridge β) (i : Nat) (s : Slot β) (seq : Nat) (ts : Timestamp) (ref : Nat)
    (side : Side) (price : Price) (qty : Qty) : ItchL2Bridge β :=
  let r := L3BookOps.add s.book ref side price qty
  let s := { s with book := r.1 }
  if r.2.1 ≠ .none then b.refused i s r.2.1 else b.touch i s side price r.2.2 seq ts

def onExecute (b : ItchL2Bridge β) (i : Nat) (s : Slot β) (seq : Nat) (ts : Timestamp) (ref : Nat)
    (qty : Qty) (execPrice : Price) (match_ : Nat) (printable : Bool) : ItchL2Bridge β :=
  match L3BookOps.find s.book ref with
  | none => b
  | some (side, price) =>
    let r := L3BookOps.execute s.book ref qty
    let b := b.touch i { s with book := r.1 } side price r.2 seq ts
    if s.complete ∧ printable then
      b.emitTrade s seq ts (if execPrice = 0 then price else execPrice) qty match_ side.opposite
        true
    else b

def onCancel (b : ItchL2Bridge β) (i : Nat) (s : Slot β) (seq : Nat) (ts : Timestamp) (ref : Nat)
    (qty : Qty) : ItchL2Bridge β :=
  match L3BookOps.find s.book ref with
  | none => b
  | some (side, price) =>
    let r := L3BookOps.cancel s.book ref qty
    b.touch i { s with book := r.1 } side price r.2 seq ts

def onReplace (b : ItchL2Bridge β) (i : Nat) (s : Slot β) (seq : Nat) (ts : Timestamp)
    (oldRef newRef : Nat) (price : Price) (qty : Qty) : ItchL2Bridge β :=
  match L3BookOps.find s.book oldRef with
  | none => b
  | some (side, before) =>
    let r := L3BookOps.cancel s.book oldRef 0
    let b := b.touch i { s with book := r.1 } side before r.2 seq ts
    match b.slots[i]? with
    | none => b
    | some s => b.onAdd i s seq ts newRef side price qty

def onTrade (b : ItchL2Bridge β) (s : Slot β) (seq : Nat) (ts : Timestamp) (price : Price)
    (qty : Qty) (match_ : Nat) (side : Side) : ItchL2Bridge β :=
  if s.complete then b.emitTrade s seq ts price qty match_ side false else b

/-- `decode_into` with the bridge's consumer, past the locate look-up. -/
def decodeInto (b : ItchL2Bridge β) (i : Nat) (s : Slot β) (seq : Nat) (ts : Timestamp) :
    Body → ItchL2Bridge β
  | .addOrder ref (some side) shares price =>
    b.onAdd i s seq ts ref side (price4ToPrice price) (sharesToQty shares)
  | .executed ref shares m => b.onExecute i s seq ts ref (sharesToQty shares) 0 m true
  | .executedWithPrice ref shares m printable price =>
    b.onExecute i s seq ts ref (sharesToQty shares) (price4ToPrice price) m printable
  | .cancelShares ref shares =>
    -- a cancelled quantity of 0 would mean delete
    if shares = 0 then b else b.onCancel i s seq ts ref (sharesToQty shares)
  | .delete ref => b.onCancel i s seq ts ref 0
  | .replace oldRef newRef shares price =>
    b.onReplace i s seq ts oldRef newRef (price4ToPrice price) (sharesToQty shares)
  | .trade (some side) shares price m =>
    b.onTrade s seq ts (price4ToPrice price) (sharesToQty shares) m side
  | .cross shares price m =>
    if shares = 0 ∨ kMaxShares < shares then b
    else b.onTrade s seq ts (price4ToPrice price) (sharesToQty shares) m .buy
  | _ => b

def onItchMessage (b : ItchL2Bridge β) (seq : Nat) (m : ItchMsg) : ItchL2Bridge β :=
  match m.body with
  | .directory stock =>
    match b.symbols.lookup stock with
    | none => b.setLocate m.locate none
    | some id =>
      setLocate { b with locate := update b.locate m.locate id } m.locate (b.slotOf id)
  | .systemEvent code => { b with systemEvent := code }
  | body =>
    match b.locateSlot m.locate with
    | none => b
    | some i =>
      match b.slots[i]? with
      | none => b
      | some s =>
        if s.full ∨ ¬(b.locate m.locate).valid then b else b.decodeInto i s seq m.ts body

/-! ### Emissions -/

/-- `flush`: true unless the sink had no room. -/
def flush (b : ItchL2Bridge β) (i : Nat) (s : Slot β) : ItchL2Bridge β × Bool :=
  let bids := s.collect b.cfg.depth .buy
  let asks := s.collect b.cfg.depth .sell
  if bids = [] ∧ asks = [] then
    (b.put i { s with changed := fun _ => {}, dirty := false }, true)
  else
    let r := b.emit .book (.delta s.id s.firstSeq s.lastSeq s.prevU s.lastExchTs bids asks)
    if r.2 then
      (r.1.put i { s with
        published := s.publishedNow
        changed := fun _ => {}
        prevU := s.lastSeq
        pending := false
        dirty := false }, true)
    else (r.1, false)

/-- The loop of `end_datagram` over the dirty slots; `keep` are those it keeps. -/
def flushFrom (b : ItchL2Bridge β) : List Nat → List Nat → ItchL2Bridge β × List Nat
  | [], keep => (b, keep)
  | i :: rest, keep =>
    match b.slots[i]? with
    | none => b.flushFrom rest keep
    | some s =>
      if s.dirty = false then b.flushFrom rest keep
      else
        let r := b.flush i s
        if r.2 then r.1.flushFrom rest keep else r.1.flushFrom rest (keep ++ [i])

def endDatagram (b : ItchL2Bridge β) : ItchL2Bridge β :=
  let b := if b.notices ≠ 0 then b.sendNotices else b
  let r := b.flushFrom b.dirty []
  { r.1 with dirty := r.2 }

def emitSnapshot (b : ItchL2Bridge β) (i : Nat) (s : Slot β) : ItchL2Bridge β × Bool :=
  let top := fun side => L3BookOps.topLevels s.book side b.cfg.depth
  let r := b.emit .book (.snapshot s.id s.lastSeq s.lastExchTs (top .buy) (top .sell))
  if r.2 then
    (r.1.put i { s with
      published := top
      current := top
      prevU := s.lastSeq
      pending := false
      dirty := false
      changed := fun _ => {} }, true)
  else (r.1.put i { s with published := fun _ => [] }, false)

/-- `mark_complete`, on the slot it found. -/
def markSlot (b : ItchL2Bridge β) (i : Nat) (s : Slot β) : ItchL2Bridge β × Bool :=
  if s.complete ∨ s.full then (b, true)
  else
    let r := b.emitSnapshot i s
    if r.2 then
      match r.1.slots[i]? with
      | none => (r.1, true)
      | some s =>
        let b := { r.1.put i { s with complete := true } with
          incomplete := r.1.incomplete - 1 }
        (if b.incomplete = 0 then (b.emitState .Live 0 .invalid).1 else b, true)
    else (r.1, false)

def markComplete (b : ItchL2Bridge β) (id : InstrumentId) : ItchL2Bridge β × Bool :=
  match b.slotOf id with
  | none => (b, false)
  | some i =>
    match b.slots[i]? with
    | none => (b, false)
    | some s => b.markSlot i s

/-- The loop of `mark_all_complete`. -/
def markAllFrom (b : ItchL2Bridge β) : List Nat → Bool → ItchL2Bridge β × Bool
  | [], ok => (b, ok)
  | i :: rest, ok =>
    match b.slots[i]? with
    | none => b.markAllFrom rest ok
    | some s =>
      if s.complete then b.markAllFrom rest ok
      else
        let r := b.markComplete s.id
        r.1.markAllFrom rest (ok && r.2)

def markAllComplete (b : ItchL2Bridge β) : ItchL2Bridge β × Bool :=
  b.markAllFrom (List.range b.slots.length) true

def markIncomplete (b : ItchL2Bridge β) (reason : Int) : ItchL2Bridge β :=
  (emitState { b with
      slots := b.slots.map fun s =>
        { s.emptied with complete := false, prevU := 0, full := false, notice := false }
      dirty := []
      notices := 0
      incomplete := b.slots.length } .Resyncing reason .invalid).1

/-! ### Runs -/

/-- One call on a bridge that is set up. -/
inductive Op where
  | onItchMessage (seq : Nat) (m : ItchMsg)
  | endDatagram
  | markComplete (id : InstrumentId)
  | markAllComplete
  | markIncomplete (reason : Int)
  deriving DecidableEq, Repr

def step (b : ItchL2Bridge β) : Op → ItchL2Bridge β
  | .onItchMessage seq m => b.onItchMessage seq m
  | .endDatagram => b.endDatagram
  | .markComplete id => (b.markComplete id).1
  | .markAllComplete => b.markAllComplete.1
  | .markIncomplete reason => b.markIncomplete reason

def run (b : ItchL2Bridge β) (ops : List Op) : ItchL2Bridge β := ops.foldl step b

/-- One call that sets a bridge up. -/
inductive Setup where
  | addInstrument (symbol : String) (id : InstrumentId)
  | mapLocate (locate : Nat) (id : InstrumentId)
  | clearLocates
  deriving DecidableEq, Repr

def setup (b : ItchL2Bridge β) : Setup → ItchL2Bridge β
  | .addInstrument symbol id => (b.addInstrument symbol id).1
  | .mapLocate locate id => (b.mapLocate locate id).1
  | .clearLocates => b.clearLocates

/-- A bridge set up by these calls. -/
def start (sink : MsgKind → Nat → Bool) (calls : List Setup) :
    ItchL2Bridge β :=
  calls.foldl setup (create cfg sink)

end ItchL2Bridge

end FastMM.Itch
