/-
  Gateway/RestingOrders.lean --- the orders that can rest in one shared instrument.

  Source: `include/fastmm/core/self_trade.hpp` (`RestingOrders`).

  An order stands in the list of its side at most once, so a removal leaves no entry of it.
-/
import FastMM.Core.Types
import Mathlib.Data.List.Basic
import Mathlib.Logic.Function.Basic
set_option autoImplicit false

namespace FastMM.Gateway

/-- `RestingOrders::Entry`. -/
structure RestingEntry where
  id : ClientOrderId
  px : Price
  epoch : Nat
  deriving DecidableEq, Repr

/-- The last entry takes the place of the first one of an id. -/
def swapRemove (id : ClientOrderId) : List RestingEntry → List RestingEntry
  | [] => []
  | e :: rest =>
    if e.id = id then
      match rest.getLast? with
      | none => []
      | some last => last :: rest.dropLast
    else e :: swapRemove id rest

/-- The orders that can rest, one list for each side. -/
structure RestingOrders where
  sides : Side → List RestingEntry := fun _ => []

namespace RestingOrders

variable (r : RestingOrders)

def remove (id : ClientOrderId) (side : Side) : RestingOrders :=
  ⟨Function.update r.sides side (swapRemove id (r.sides side))⟩

/-- `set`: `id` rests on `side` at `px` for the strategy of session `epoch`. -/
def set (id : ClientOrderId) (side : Side) (px : Price) (epoch : Nat) :
    RestingOrders :=
  let r := r.remove id side
  ⟨Function.update r.sides side (r.sides side ++ [⟨id, px, epoch⟩])⟩

/-- `crosses`: would an order of `epoch` trade with a resting order of another epoch? -/
def crosses (epoch : Nat) (side : Side) (px : Price) (market : Bool) : Bool :=
  (r.sides side.opposite).any fun e =>
    decide (e.epoch ≠ epoch) && (market || atOrBetter side px e.px)

end RestingOrders

end FastMM.Gateway
