/-
  Position/Tracker.lean --- positions, PnL and the totals over them.

  Source: `include/fastmm/core/position.hpp` (`Position`, `PositionTracker`), the
  plan and rates of `fx.hpp`.

  The tracker keeps each total beside the positions it sums, and moves it by the
  change of the one term an update touches.  With a plan of two or more currencies
  it keeps a second family of totals, one per currency, and their values at the
  currencies' rates.
-/
import FastMM.Core.Instrument
import Mathlib.Logic.Function.Basic
import Mathlib.Data.Fin.Basic
set_option autoImplicit false

namespace FastMM

open Function

/-! ## Data -/

def kMaxCurrencies : Nat := 8

instance : NeZero kMaxCurrencies := ⟨by decide⟩

instance : NeZero kMaxInstruments := ⟨by decide⟩

structure Position where
  qty : Qty := 0
  avgPx : Price := 0
  realized : Notional := 0
  unrealized : Notional := 0
  fees : Notional := 0
  lastMark : Price := 0
  grossTraded : Qty := 0
  fills : Nat := 0
  deriving DecidableEq, Repr

/-- `FxPlan`, what the tracker reads of it: the number of currencies and each
instrument's index among them.  `build_fx_plan` makes no other plans. -/
structure FxPlan where
  count : Nat := 0
  ccy : Fin kMaxInstruments → Fin kMaxCurrencies := fun _ => 0
  count_le : count ≤ kMaxCurrencies := by decide
  ccy_lt : 1 < count → ∀ i, (ccy i).val < count := by decide

structure Totals where
  realized : Notional := 0
  unrealized : Notional := 0
  fees : Notional := 0
  gross : Notional := 0
  net : Notional := 0
  deriving DecidableEq, Repr

/-- A member of `Totals`, what the source passes as `Notional Totals::*`. -/
inductive TotalsField where
  | realized
  | unrealized
  | fees
  | gross
  | net
  deriving DecidableEq, Repr

namespace Totals

/-- `t.*f`. -/
def get (t : Totals) : TotalsField → Notional
  | .realized => t.realized
  | .unrealized => t.unrealized
  | .fees => t.fees
  | .gross => t.gross
  | .net => t.net

/-- `t.*f = v`. -/
def put (t : Totals) (f : TotalsField) (v : Notional) : Totals :=
  match f with
  | .realized => { t with realized := v }
  | .unrealized => { t with unrealized := v }
  | .fees => { t with fees := v }
  | .gross => { t with gross := v }
  | .net => { t with net := v }

theorem get_put (t : Totals) (f g : TotalsField) (v : Notional) :
    (t.put f v).get g = if g = f then v else t.get g := by
  cases f <;> cases g <;> rfl

@[simp] theorem get_default (f : TotalsField) : ({} : Totals).get f = 0 := by
  cases f <;> rfl

end Totals

structure Funding where
  total : Notional := 0
  per : Fin kMaxInstruments → Notional := fun _ => 0
  native : Fin kMaxCurrencies → Notional := fun _ => 0

/-- The rates before any is set: the reporting currency's is `FxRate::identity()`,
the others are unknown. -/
def noRates : Fin kMaxCurrencies → FxRate := update (fun _ => {}) 0 ⟨1, 1⟩

theorem noRates_of_ne {c : Fin kMaxCurrencies} (h : c.val ≠ 0) : noRates c = {} := by
  apply update_of_ne
  intro hc
  exact h (congrArg Fin.val hc)

structure PositionTracker where
  pos : Fin kMaxInstruments → Position := fun _ => {}
  realizedTotal : Notional := 0
  unrealizedTotal : Notional := 0
  feesTotal : Notional := 0
  exposure : Fin kMaxInstruments → Notional := fun _ => 0
  grossExposure_ : Notional := 0
  netExposure_ : Notional := 0
  ccyCount : Nat := 0
  ccy : Fin kMaxInstruments → Fin kMaxCurrencies := fun _ => 0
  rate_ : Fin kMaxCurrencies → FxRate := noRates
  native_ : Fin kMaxCurrencies → Totals := fun _ => {}
  conv : Fin kMaxCurrencies → Totals := fun _ => {}
  convTotal : Totals := {}
  changes : Nat := 0
  fund : Funding := {}

namespace PositionTracker

/-! ## Reads -/

variable (t : PositionTracker)
variable (id : Fin kMaxInstruments)
variable (p : Position)
variable (f : TotalsField)
variable (d : Notional)
variable (c : Nat)

def converting : Bool := decide (1 < t.ccyCount)

def rate : FxRate :=
  if h : c < kMaxCurrencies then t.rate_ ⟨c, h⟩ else {}

def native : Totals :=
  if h : c < kMaxCurrencies then t.native_ ⟨c, h⟩ else {}

def nativeFunding : Notional :=
  if h : c < kMaxCurrencies then t.fund.native ⟨c, h⟩ else 0

def grossExposure : Notional :=
  if t.converting then t.convTotal.gross else t.grossExposure_

def netExposure : Notional :=
  if t.converting then t.convTotal.net else t.netExposure_

def totalRealized : Notional :=
  if t.converting then t.convTotal.realized else t.realizedTotal

def totalUnrealized : Notional :=
  if t.converting then t.convTotal.unrealized else t.unrealizedTotal

def totalFees : Notional :=
  if t.converting then t.convTotal.fees else t.feesTotal

/-- `total_funding`; the loop over the plan's currencies is a fold. -/
def totalFunding : Notional :=
  if t.converting then
    (List.range t.ccyCount).foldl (fun sum c => sum +
      FxRate.convert (t.nativeFunding c) (t.rate c)) 0
  else t.fund.total

/-! ## Values of a position -/

def scale (n : Notional) (inst : Instrument) : Notional :=
  if inst.contractMultiplier = kFixedScale then n else mulRaw n inst.contractMultiplier

def arithmeticAvg (cur : Int) (avg : Price) (f : Int) (px : Price) (denom : Int) : Price :=
  (cur * avg + f * px).tdiv denom

def harmonicAvg (cur : Int) (avg : Price) (f : Int) (px : Price) (denom : Int) : Price :=
  if px ≤ 0 then avg
  else
    let inv := (f * kFixedScale).tdiv px
    let inv := if cur ≠ 0 ∧ 0 < avg then inv + (cur * kFixedScale).tdiv avg else inv
    if inv = 0 then px else (denom * kFixedScale).tdiv inv

def signedNotional (mark : Price) (inst : Instrument) : Notional :=
  if p.qty = 0 ∨ mark ≤ 0 then 0
  else
    let n := inst.notional mark (absRaw p.qty)
    if p.qty < 0 then 0 - n else n

def revalue (mark : Price) (inst : Instrument) : Notional :=
  if p.qty = 0 ∨ mark ≤ 0 then 0
  else if inst.inverse then inst.inversePnl p.avgPx mark p.qty
  else scale (mulRaw (mark - p.avgPx) p.qty) inst

/-! ## The cached totals -/

/-- The converted value of one total of a currency, taken again: the body of
`reconvert`'s loop and the end of `book_converted`. -/
def convertAgain (c : Fin kMaxCurrencies) (f : TotalsField) :
    PositionTracker :=
  let v := FxRate.convert ((t.native_ c).get f) (t.rate_ c)
  { t with
    convTotal := t.convTotal.put f (t.convTotal.get f + (v - (t.conv c).get f))
    conv := update t.conv c ((t.conv c).put f v) }

def bookConverted : PositionTracker :=
  let c := t.ccy id
  let n := (t.native_ c).put f ((t.native_ c).get f + d)
  convertAgain { t with native_ := update t.native_ c n } c f

def book :
    PositionTracker :=
  if t.converting then t.bookConverted id f d else t

def reconvert (c : Fin kMaxCurrencies) : PositionTracker :=
  [TotalsField.realized, .unrealized, .fees, .gross, .net].foldl (fun t f => t.convertAgain c f) t

/-- Writes one position. -/
def setPos : PositionTracker :=
  { t with pos := update t.pos id p }

/-- `gross_exposure_ += dg; net_exposure_ += dn`. -/
def moveExposure (dg dn : Notional) : PositionTracker :=
  { t with grossExposure_ := t.grossExposure_ + dg, netExposure_ := t.netExposure_ + dn }

def setExposure (e : Notional) :
    PositionTracker :=
  let cur := t.exposure id
  let dg := absRaw e - absRaw cur
  let dn := e - cur
  let t := ((t.moveExposure dg dn).book id .gross dg).book id .net dn
  { t with exposure := update t.exposure id e }

def setUnrealized (u : Notional) :
    PositionTracker :=
  let d := u - (t.pos id).unrealized
  let t := { t with unrealizedTotal := t.unrealizedTotal + d }
  let t := t.book id .unrealized d
  t.setPos id { t.pos id with unrealized := u }

/-- `p.realized += r; realized_total_ += r; book(id, &Totals::realized, r)`. -/
def addRealized (r : Notional) :
    PositionTracker :=
  let t := t.setPos id { t.pos id with realized := (t.pos id).realized + r }
  let t := { t with realizedTotal := t.realizedTotal + r }
  t.book id .realized r

/-- `p.fees += fee; fees_total_ += fee; book(id, &Totals::fees, fee)`. -/
def addFees (fee : Notional) :
    PositionTracker :=
  let t := t.setPos id { t.pos id with fees := (t.pos id).fees + fee }
  let t := { t with feesTotal := t.feesTotal + fee }
  t.book id .fees fee

/-- `fund_` moved by `amount` on one instrument. -/
def addFunding (amount : Notional) :
    PositionTracker :=
  { t with fund :=
      { per := update t.fund.per id (t.fund.per id + amount)
        total := t.fund.total + amount
        native := if t.converting then
            update t.fund.native (t.ccy id) (t.fund.native (t.ccy id) + amount)
          else t.fund.native } }

/-- `++changes_`. -/
def bump : PositionTracker := { t with changes := t.changes + 1 }

/-! ## Operations -/

def mark (mid : Price) (inst : Instrument) :
    PositionTracker :=
  let t := t.setPos id { t.pos id with lastMark := mid }
  let t := t.setUnrealized id (revalue (t.pos id) mid inst)
  t.setExposure id (signedNotional (t.pos id) mid inst)

/-- The realized PnL of closing `closed` of a position of direction `dir`. -/
def closedPnl (px : Price) (closed dir : Int) (inst : Instrument) : Notional :=
  if inst.inverse then inst.inversePnl p.avgPx px (closed * dir)
  else scale (((px - p.avgPx) * closed * dir).tdiv kFixedScale) inst

/-- The branch of `on_fill` that opens or adds: a new average over the old position
and this fill. -/
def addToPosition (f : Int) (px : Price)
    (inst : Instrument) : PositionTracker :=
  let p := t.pos id
  let denom := p.qty + f
  t.setPos id { p with
    avgPx := if inst.inverse then harmonicAvg p.qty p.avgPx f px denom
      else arithmeticAvg p.qty p.avgPx f px denom
    qty := denom }

/-- The position a closing fill leaves: past zero the remainder opens at `px`. -/
def closedPosition (f : Int) (px : Price) (closed : Int) : Position :=
  let remaining := absRaw f - closed
  if 0 < remaining then { p with qty := if 0 < f then remaining else -remaining, avgPx := px }
  else { p with qty := p.qty + f, avgPx := if p.qty + f = 0 then 0 else p.avgPx }

/-- The branch of `on_fill` that reduces or flips: realise on the closed part. -/
def takeFromPosition (f : Int) (px : Price)
    (inst : Instrument) : PositionTracker :=
  let cur := (t.pos id).qty
  let closed := if absRaw f < absRaw cur then absRaw f else absRaw cur
  let dir := if 0 < cur then 1 else -1
  let t := t.addRealized id (closedPnl (t.pos id) px closed dir inst)
  t.setPos id (closedPosition (t.pos id) f px closed)

/-- The end of `on_fill`: valued at the last mark, else at the fill's price. -/
def valueAgain (px : Price)
    (inst : Instrument) : PositionTracker :=
  if 0 < (t.pos id).lastMark then t.mark id (t.pos id).lastMark inst
  else t.setExposure id (signedNotional (t.pos id) px inst)

/-- `p.gross_traded += qty; ++p.fills`. -/
def countFill (qty : Qty) : PositionTracker :=
  t.setPos id { t.pos id with
    grossTraded := (t.pos id).grossTraded + qty, fills := (t.pos id).fills + 1 }

def onFill (side : Side) (px : Price)
    (qty : Qty) (fee : Notional) (inst : Instrument) : PositionTracker :=
  let f := if side = .buy then qty else -qty
  let cur := (t.pos id).qty
  let t := (t.bump.addFees id fee).countFill id qty
  let t := if cur = 0 ∨ decide (0 < cur) = decide (0 < f) then t.addToPosition id f px inst
    else t.takeFromPosition id f px inst
  t.valueAgain id px inst

def correctFill (side : Side)
    (estPx px : Price) (qty : Qty) (fee : Notional) (inst : Instrument) : PositionTracker :=
  let diff := if inst.inverse then inst.inversePnl estPx px qty
    else scale (mulRaw (px - estPx) qty) inst
  let adj := if side = .buy then 0 - diff else diff
  (t.bump.addRealized id adj).addFees id fee

def onFunding (amount : Notional) :
    PositionTracker :=
  (t.bump.addRealized id amount).addFunding id amount

def set (qty : Qty) (avgPx : Price)
    (inst : Instrument) : PositionTracker :=
  let p := t.pos id
  let avgPx :=
    if qty ≠ 0 ∧ avgPx ≤ 0 then
      let sameSide := p.qty ≠ 0 ∧ decide (p.qty < 0) = decide (qty < 0)
      if sameSide ∧ 0 < p.avgPx then p.avgPx else p.lastMark
    else avgPx
  let t := t.bump.setPos id { p with qty := qty, avgPx := if qty = 0 then 0 else avgPx }
  let t := t.setUnrealized id (revalue (t.pos id) (t.pos id).lastMark inst)
  t.setExposure id (signedNotional (t.pos id) (t.pos id).lastMark inst)

/-- `reset`.  `p = Position{}` comes last, so that taking the position's realized
PnL and fees out of the totals may write them too. -/
def reset : PositionTracker :=
  let p := t.pos id
  let t := ((t.bump.addRealized id (0 - p.realized)).addFees id (0 - p.fees)).addFunding id
    (0 - t.fund.per id)
  let t := (t.setUnrealized id 0).setExposure id 0
  t.setPos id {}

/-- The assignments of `set_accounting`. -/
def withPlan (plan : FxPlan) : PositionTracker :=
  { t.bump with
    ccyCount := plan.count
    ccy := plan.ccy
    rate_ := noRates
    native_ := fun _ => {}
    conv := fun _ => {}
    convTotal := {}
    fund := { t.fund with native := fun _ => 0 } }

/-- The loop of `set_accounting` over the funding booked already. -/
def fundingByCurrency : Fin kMaxCurrencies → Notional :=
  (List.finRange kMaxInstruments).foldl
    (fun native i => update native (t.ccy i) (native (t.ccy i) + t.fund.per i))
    t.fund.native

/-- One position added to the totals of its currency. -/
def addPosition (s : Totals) (i : Fin kMaxInstruments) : Totals :=
  { realized := s.realized + (t.pos i).realized
    unrealized := s.unrealized + (t.pos i).unrealized
    fees := s.fees + (t.pos i).fees
    gross := s.gross + absRaw (t.exposure i)
    net := s.net + t.exposure i }

/-- The loop of `set_accounting` over the positions: what is booked already moves
into its currencies. -/
def totalsByCurrency : Fin kMaxCurrencies → Totals :=
  (List.finRange kMaxInstruments).foldl
    (fun native i => update native (t.ccy i) (t.addPosition (native (t.ccy i)) i))
    t.native_

/-- The two loops of `set_accounting`. -/
def intoCurrencies : PositionTracker :=
  { t with
    native_ := t.totalsByCurrency
    fund := { t.fund with native := t.fundingByCurrency } }

def setAccounting (plan : FxPlan) : PositionTracker :=
  let t := t.withPlan plan
  if t.converting then t.intoCurrencies.reconvert 0 else t

def setRate (r : FxRate) : PositionTracker :=
  if h : c ≠ 0 ∧ c < kMaxCurrencies then
    reconvert { t.bump with rate_ := update t.rate_ ⟨c, h.2⟩ r } ⟨c, h.2⟩
  else t

/-! ## Runs -/

/-- One call on the tracker. -/
inductive Op where
  | onFill (id : Fin kMaxInstruments) (side : Side) (px : Price) (qty : Qty) (fee : Notional)
      (inst : Instrument)
  | correctFill (id : Fin kMaxInstruments) (side : Side) (estPx px : Price) (qty : Qty)
      (fee : Notional) (inst : Instrument)
  | onFunding (id : Fin kMaxInstruments) (amount : Notional)
  | mark (id : Fin kMaxInstruments) (mid : Price) (inst : Instrument)
  | set (id : Fin kMaxInstruments) (qty : Qty) (avgPx : Price) (inst : Instrument)
  | reset (id : Fin kMaxInstruments)
  | setAccounting (plan : FxPlan)
  | setRate (c : Nat) (r : FxRate)

/-- What a call does. -/
def step : Op → PositionTracker
  | .onFill id side px qty fee inst => t.onFill id side px qty fee inst
  | .correctFill id side estPx px qty fee inst => t.correctFill id side estPx px qty fee inst
  | .onFunding id amount => t.onFunding id amount
  | .mark id mid inst => t.mark id mid inst
  | .set id qty avgPx inst => t.set id qty avgPx inst
  | .reset id => t.reset id
  | .setAccounting plan => t.setAccounting plan
  | .setRate c r => t.setRate c r

/-- The tracker after a sequence of calls. -/
def run (ops : List Op) : PositionTracker := ops.foldl step {}

/-! ## The tracked quantity -/

@[simp] theorem book_pos : (t.book id f d).pos = t.pos := by
  unfold book
  split <;> rfl

section Quantity

variable (t : PositionTracker) (id j : Fin kMaxInstruments)

theorem setPos_qty (p : Position) :
    ((t.setPos id p).pos j).qty = if j = id then p.qty else (t.pos j).qty := by
  unfold setPos
  by_cases hj : j = id
  · subst hj
    simp
  · simp [hj]

theorem setPos_qty_of_eq {p : Position} (h : p.qty = (t.pos id).qty) :
    ((t.setPos id p).pos j).qty = (t.pos j).qty := by
  rw [setPos_qty]
  split
  case isTrue hj => rw [hj, h]
  case isFalse => rfl

@[simp] theorem setUnrealized_qty (u : Notional) :
    ((t.setUnrealized id u).pos j).qty = (t.pos j).qty := by
  unfold setUnrealized
  rw [setPos_qty, book_pos]
  split
  case isTrue hj => rw [hj]
  case isFalse => rfl

@[simp] theorem setExposure_pos (e : Notional) : (t.setExposure id e).pos = t.pos := by
  unfold setExposure
  simp [moveExposure]

@[simp] theorem addRealized_qty (r : Notional) :
    ((t.addRealized id r).pos j).qty = (t.pos j).qty := by
  unfold addRealized
  rw [book_pos]
  exact setPos_qty_of_eq _ _ _ rfl

@[simp] theorem addFees_qty (fee : Notional) :
    ((t.addFees id fee).pos j).qty = (t.pos j).qty := by
  unfold addFees
  rw [book_pos]
  exact setPos_qty_of_eq _ _ _ rfl

@[simp] theorem mark_qty (mid : Price) (inst : Instrument) :
    ((t.mark id mid inst).pos j).qty = (t.pos j).qty := by
  unfold mark
  rw [setExposure_pos, setUnrealized_qty]
  exact setPos_qty_of_eq _ _ _ rfl

@[simp] theorem valueAgain_qty (px : Price) (inst : Instrument) :
    ((t.valueAgain id px inst).pos j).qty = (t.pos j).qty := by
  unfold valueAgain
  split
  · rw [mark_qty]
  · rw [setExposure_pos]

@[simp] theorem countFill_qty (qty : Qty) :
    ((t.countFill id qty).pos j).qty = (t.pos j).qty :=
  setPos_qty_of_eq _ _ _ rfl

theorem addToPosition_qty (f : Int) (px : Price) (inst : Instrument) :
    ((t.addToPosition id f px inst).pos j).qty =
      (t.pos j).qty + if j = id then f else 0 := by
  unfold addToPosition
  rw [setPos_qty]
  split
  case isTrue hj => rw [hj]
  case isFalse => rw [Int.add_zero]

/-- The quantity a closing fill leaves, through zero or not. -/
theorem closed_qty (cur f : Int) (h : (0 < cur ∧ f ≤ 0) ∨ (cur ≤ 0 ∧ 0 < f)) :
    (if 0 < absRaw f - (if absRaw f < absRaw cur then absRaw f else absRaw cur) then
      (if 0 < f then absRaw f - (if absRaw f < absRaw cur then absRaw f else absRaw cur)
        else -(absRaw f - (if absRaw f < absRaw cur then absRaw f else absRaw cur)))
      else cur + f) = cur + f := by
  unfold absRaw
  repeat' split
  all_goals omega

/-- Closing moves the position by the whole fill too. -/
theorem takeFromPosition_qty {f : Int} (px : Price) (inst : Instrument)
    (h : decide (0 < (t.pos id).qty) ≠ decide (0 < f)) :
    ((t.takeFromPosition id f px inst).pos j).qty =
      (t.pos j).qty + if j = id then f else 0 := by
  unfold takeFromPosition
  rw [setPos_qty]
  split
  case isFalse => rw [addRealized_qty, Int.add_zero]
  case isTrue hj =>
    subst hj
    have hsign : (0 < (t.pos j).qty ∧ f ≤ 0) ∨ ((t.pos j).qty ≤ 0 ∧ 0 < f) := by
      by_cases h1 : 0 < (t.pos j).qty
      · by_cases h2 : 0 < f
        · simp [h1, h2] at h
        · exact .inl ⟨h1, Int.not_lt.mp h2⟩
      · by_cases h2 : 0 < f
        · exact .inr ⟨Int.not_lt.mp h1, h2⟩
        · simp [h1, h2] at h
    have hclosed := closed_qty _ f hsign
    generalize (if absRaw f < absRaw (t.pos j).qty then absRaw f else absRaw (t.pos j).qty) =
      closed at hclosed ⊢
    rw [← hclosed]
    unfold closedPosition
    dsimp only
    split
    · rfl
    · exact congrArg (· + f) (addRealized_qty t j j _)

/-- A fill moves the position by its signed quantity. -/
theorem onFill_qty (side : Side) (px : Price) (qty : Qty) (fee : Notional) (inst : Instrument) :
    ((t.onFill id side px qty fee inst).pos j).qty =
      (t.pos j).qty + if j = id then (if side = .buy then qty else -qty) else 0 := by
  unfold onFill
  rw [valueAgain_qty]
  generalize (if side = Side.buy then qty else -qty) = f
  have hcount : ∀ k, (((t.bump.addFees id fee).countFill id qty).pos k).qty = (t.pos k).qty := by
    intro k
    rw [countFill_qty, addFees_qty]
    rfl
  split
  · rw [addToPosition_qty, hcount]
  case isFalse h =>
    rw [takeFromPosition_qty, hcount]
    rw [hcount]
    exact fun heq => h (.inr heq)

@[simp] theorem correctFill_qty (side : Side) (estPx px : Price) (qty : Qty) (fee : Notional)
    (inst : Instrument) :
    ((t.correctFill id side estPx px qty fee inst).pos j).qty = (t.pos j).qty := by
  unfold correctFill
  rw [addFees_qty, addRealized_qty]
  rfl

/-- A report overwrites the position. -/
theorem set_qty (qty : Qty) (avgPx : Price) (inst : Instrument) :
    ((t.set id qty avgPx inst).pos j).qty = if j = id then qty else (t.pos j).qty := by
  unfold set
  rw [setExposure_pos, setUnrealized_qty, setPos_qty]
  rfl

end Quantity

end PositionTracker

end FastMM
