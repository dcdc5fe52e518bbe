/-
  Gateway/AccountShares.lean --- the account's positions on a venue and the strategies' shares.

  Source: `include/fastmm/core/account_book.hpp` (`AccountBook`) and `src/live/gateway.cpp`
  (`publish_unexplained` to `account_fill_shared`, and what `VenueRouter` and `Account` hold of it).

  The totals an account publishes of its positions, and the trip these can make, stand elsewhere.
-/
import FastMM.Foundation.RecentMap
import FastMM.Gateway.VenueRouter
import FastMM.Oms.Handlers
import FastMM.Position.Tracker
set_option autoImplicit false

namespace FastMM

open Function Foundation Balance Gateway

/-- The strategies an account tells apart. -/
def kMaxSlots : Nat := 64

/-- Whom an execution counts towards: a slot + 1, zero for nobody. -/
abbrev ShareTag : Type := Fin (kMaxSlots + 1)

instance (priority := 2000) : NeZero (kMaxSlots + 1) := ⟨Nat.succ_ne_zero _⟩

namespace AccountBook

/-- Executions remembered for the dedupe, per venue. -/
def kExecWindow : Nat := 2 ^ 16

end AccountBook

structure AccountBook where
  pos : PositionTracker := {}
  seen : RecentMap UInt64 ShareTag AccountBook.kExecWindow := .empty

namespace AccountBook

variable (b : AccountBook)
variable (insts : InstrumentTable)
variable (i : Fin kMaxInstruments)
variable (m : OrderFillMsg)
variable (tag : ShareTag)
variable (qty : Qty) (avgPx : Price)

def execKey : UInt64 := Oms.execKey m

/-- `first_time`, of an execution. -/
def firstTime : Bool × AccountBook :=
  if m.execId.empty then (true, b)
  else if (b.seen.find (execKey m)).isSome then (false, b)
  else
    let (new, seen) := b.seen.assign (execKey m) tag
    (new, { b with seen := seen })

def bookedAs : Option ShareTag :=
  if m.execId.empty then none else b.seen.find (execKey m)

def retag : AccountBook :=
  if m.execId.empty then b else { b with seen := (b.seen.assign (execKey m) tag).2 }

/-- The quantity `book` adds to the position, unsigned. -/
def heldQty : Qty :=
  if m.feeAsset ≠ .base then m.qty
  else
    let held := if m.side = .buy then m.qty - m.fee else m.qty + m.fee
    if 0 < held then held else m.qty

/-- The signed change `book` makes to the position. -/
def positionChange : Int := if m.side = .buy then heldQty m else -heldQty m

/-- `book`, of an execution. -/
def book : AccountBook :=
  match insts.index m.hdr.instrument with
  | none => b
  | some i =>
    let inst := insts.inst i
    let fee := match m.feeAsset with
      | .base => inst.notional m.price m.fee
      | .other => 0
      | .quote | .invalid => m.fee
    if 0 < heldQty m then { b with pos := b.pos.onFill i m.side m.price (heldQty m) fee inst }
    else b

def setPosition : AccountBook :=
  if i.val < insts.count then { b with pos := b.pos.set i qty avgPx (insts.inst i) } else b

/-- `add_position`: the quantities add; the average is the weighted one when both lie on the same
side, else the larger one's. -/
def addPosition : AccountBook :=
  if ¬ i.val < insts.count ∨ qty = 0 then b
  else
    let p := b.pos.pos i
    let q := p.qty + qty
    let avg :=
      if q = 0 then 0
      else if p.qty ≠ 0 ∧ decide (0 < p.qty) = decide (0 < qty) then
        (p.qty * p.avgPx + qty * avgPx).tdiv q
      else if p.qty ≠ 0 ∧ absRaw qty < absRaw p.qty then p.avgPx
      else avgPx
    { b with pos := b.pos.set i q avg (insts.inst i) }

end AccountBook

/-- `ShareSeed`: a slot whose store joined the position, and the history that store holds: all
before its replay start, and the trade ids it listed. -/
structure ShareSeed where
  slot : Fin kMaxSlots
  fromMs : Int
  known : Option (List ExecId) := none

/-- `VenueRouter` and `Account`, what they hold of the account's positions; `clockOffsetMs` is the
venue's status. -/
structure AccountShares where
  book : AccountBook := {}
  balances : BalanceBook := {}
  explained : Fin kMaxInstruments → Int := fun _ => 0
  shareSeeds : Fin kMaxInstruments → List ShareSeed := fun _ => []
  startMs : Int := 0
  clockOffsetMs : Int := 0
  accountSkipped : Nat := 0
  qty : Fin kMaxInstruments → Int := fun _ => 0
  share : Fin kMaxInstruments → Fin kMaxSlots → Int := fun _ _ => 0
  unattributed : Fin kMaxInstruments → Int := fun _ => 0
  unexplained : Fin kMaxInstruments → Int := fun _ => 0

namespace AccountShares

variable (C : GatewayConfig)
variable (v : AccountShares)
variable (i : Fin kMaxInstruments)
variable (m : OrderFillMsg)
variable (tag : ShareTag)
variable (qty : Qty) (avg : Price)

/-- `book->positions().get(id).qty`. -/
def position : Int := (v.book.pos.pos i).qty

def publishUnexplained : AccountShares :=
  { v with unexplained := update v.unexplained i (v.position i - v.explained i) }

def addShare (d : Int) : AccountShares :=
  let v := if h : tag = 0 then
      { v with unattributed := update v.unattributed i (v.unattributed i + d) }
    else
      let s := tag.pred h
      { v with share := update v.share i (update (v.share i) s (v.share i s + d)) }
  { v with explained := update v.explained i (v.explained i + d) }

/-- `qty[id].store(…)`: the position, for the readers. -/
def publishQty : AccountShares := { v with qty := update v.qty i (v.position i) }

def setAccountPosition : AccountShares :=
  let v := { v with book := v.book.setPosition C.insts i qty avg }.publishQty i
  if C.shared i.val then v.publishUnexplained i else v

def balanceFill (before after : Int) : AccountShares :=
  let feeAsset := if m.feeAsset = .invalid then .quote else m.feeAsset
  { v with
    balances := v.balances.onFill m.hdr.instrument (C.insts.inst i) m.side m.price m.qty m.fee
      feeAsset before after m.hdr.exchTs .invalid }

def seedShare (slot : Fin kMaxSlots) : AccountShares :=
  let v := { v with book := v.book.addPosition C.insts i qty avg }.publishQty i
  (v.addShare i slot.succ qty).publishUnexplained i

/-- A replayed execution the seed of its slot holds, or, without such a seed, one older than the
gateway. -/
def seedHolds : Bool :=
  if m.replayed ∧ 0 < m.hdr.exchTs then
    let ms := m.hdr.exchTs.tdiv 1000000
    match ((v.shareSeeds i).filter fun s => s.slot.succ = tag).getLast? with
    | some seed => decide (ms < seed.fromMs) || seed.known.any fun ids => decide (m.execId ∈ ids)
    | none => decide (ms < v.startMs + v.clockOffsetMs)
  else false

/-- The end of `account_fill_shared`: the account books the execution for the first time. -/
def bookFill : AccountShares :=
  let before := v.position i
  match v.book.firstTime m tag with
  | (false, _) => v
  | (true, book) =>
    let v := { v with book := book.book C.insts m }
    let after := v.position i
    let v := ((v.balanceFill C i m before after).addShare i tag (after - before)).publishQty i
    v.publishUnexplained i

def accountFillShared (delivered : Bool) : AccountShares :=
  match C.insts.index m.hdr.instrument with
  | none => v
  | some i =>
    if v.seedHolds i m tag then { v with accountSkipped := v.accountSkipped + 1 }
    else
      match v.book.bookedAs m with
      | some was =>
        if was = 0 ∧ tag ≠ 0 ∧ delivered then
          let d := AccountBook.positionChange m
          ({ v with book := v.book.retag m tag }.addShare i 0 (-d)).addShare i tag d
        else v
      | none => v.bookFill C i m tag

/-! ## Runs -/

/-- A call on a shared instrument; an attach also notes the history its seed holds, and the venue's
clock is measured. -/
inductive Op where
  | seedShare (slot : Fin kMaxSlots) (qty : Qty) (avg : Price)
  | noteSeed (seed : ShareSeed)
  | clockOffset (ms : Int)
  | fill (m : OrderFillMsg) (tag : ShareTag) (delivered : Bool)
  | setPosition (qty : Qty) (avg : Price)

def act : Op → AccountShares
  | .seedShare slot qty avg => v.seedShare C i qty avg slot
  | .noteSeed seed => { v with shareSeeds := update v.shareSeeds i (v.shareSeeds i ++ [seed]) }
  | .clockOffset ms => { v with clockOffsetMs := ms }
  | .fill m tag delivered => v.accountFillShared C m tag delivered
  | .setPosition qty avg => v.setAccountPosition C i qty avg

def run (ops : List Op) : AccountShares := ops.foldl (fun v op => v.act C i op) v

end AccountShares

end FastMM
