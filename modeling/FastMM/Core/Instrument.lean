/-
  Core/Instrument.lean --- fixed-point products, instruments and FX rates.

  Source: `include/fastmm/core/fixed_point.hpp`, `instrument.hpp` and `fx.hpp`,
  what the risk checks and the position tracker read of them.

  Raw values are `Int` and divisions truncate toward zero, as in the source, which
  multiplies in 128 bits; `castInt64` is the cast back where a result may not fit.
-/
import FastMM.Core.Types
set_option autoImplicit false

namespace FastMM

/-! ## Fixed-point products -/

/-- `Duration`, nanoseconds. -/
abbrev Duration : Type := Int

def kFixedScale : Int := 100000000

/-- `static_cast<std::int64_t>` of a 128-bit value. -/
def castInt64 (x : Int) : Int := x.bmod (2 ^ 64)

theorem castInt64_range (x : Int) : -2 ^ 63 ≤ castInt64 x ∧ castInt64 x < 2 ^ 63 :=
  ⟨Int.le_bmod (by decide), Int.bmod_lt (by decide)⟩

theorem castInt64_eq {x : Int} (hlo : -2 ^ 63 ≤ x) (hhi : x < 2 ^ 63) : castInt64 x = x :=
  Int.bmod_eq_of_le hlo hhi

/-- From the least 64-bit number up, a cast only takes away. -/
theorem castInt64_le {x : Int} (h : -2 ^ 63 ≤ x) : castInt64 x ≤ x := by
  rcases Int.lt_or_le x (2 ^ 63) with hhi | hhi
  · exact Int.le_of_eq (castInt64_eq h hhi)
  · exact Int.le_trans (Int.le_of_lt (castInt64_range x).2) hhi

/-- `mul_raw`, and `mul(Price, Qty)`. -/
def mulRaw (a b : Int) : Int := (a * b).tdiv kFixedScale

/-- The absolute value of a raw quantity. -/
def absRaw (x : Int) : Int := if x < 0 then -x else x

/-! ## Instruments -/

/-- `Instrument`, the fields the checks read. -/
structure Instrument where
  venue : VenueId := .invalid
  enabled : Bool := false
  inverse : Bool := false
  tick : Price := 0
  lot : Qty := 0
  minQty : Qty := 0
  maxQty : Qty := 0
  minNotional : Notional := 0
  contractMultiplier : Qty := kFixedScale
  deriving DecidableEq, Repr

namespace Instrument

variable (inst : Instrument)

def validPrice (p : Price) : Bool :=
  decide (0 < p ∧ 0 < inst.tick ∧ p.tmod inst.tick = 0)

def validQty (q : Qty) : Bool :=
  decide (0 < q ∧ (0 < inst.lot ∧ q.tmod inst.lot = 0) ∧ inst.minQty ≤ q ∧
    (inst.maxQty = 0 ∨ q ≤ inst.maxQty))

def notional (p : Price) (q : Qty) : Notional :=
  if inst.inverse then if 0 < p then (q * inst.contractMultiplier).tdiv p else 0
  else
    let n := mulRaw p q
    if inst.contractMultiplier = kFixedScale then n else mulRaw n inst.contractMultiplier

/-- `Instrument::inverse_pnl`: what moving `qty` contracts from one price to
another makes, in the base coin. -/
def inversePnl (fromPx toPx : Price) (qty : Qty) : Notional :=
  if 0 < fromPx ∧ 0 < toPx then
    (qty * inst.contractMultiplier * (toPx - fromPx)).tdiv (fromPx * toPx)
  else 0

theorem pos_of_validQty {inst : Instrument} {q : Qty} (h : inst.validQty q = true) : 0 < q :=
  (of_decide_eq_true h).1

end Instrument

/-- `InstrumentTable`: the first `count` indices hold an instrument. -/
structure InstrumentTable where
  count : Nat
  count_le : count ≤ kMaxInstruments
  inst : Fin kMaxInstruments → Instrument

/-- `contains(id)`, with the index `get(id)` reads. -/
def InstrumentTable.index (t : InstrumentTable) (id : InstrumentId) :
    Option (Fin kMaxInstruments) :=
  if h : id.value < t.count then some ⟨id.value, Nat.lt_of_lt_of_le h t.count_le⟩ else none

/-! ## Rates -/

/-- `FxRate`; unknown when `num` is not positive. -/
structure FxRate where
  num : Int := 0
  den : Int := 1
  deriving DecidableEq, Repr

namespace FxRate

def known (r : FxRate) : Bool := decide (0 < r.num)

def fromMid (mid : Price) (invert : Bool) : FxRate :=
  if 0 < mid then if invert then ⟨kFixedScale, mid⟩ else ⟨mid, kFixedScale⟩ else {}

def convert (n : Notional) (r : FxRate) : Notional :=
  if r.num = r.den then n else (n * r.num).tdiv r.den

end FxRate

structure FxSource where
  instrument : InstrumentId := .invalid
  invert : Bool := false
  deriving DecidableEq, Repr

end FastMM
