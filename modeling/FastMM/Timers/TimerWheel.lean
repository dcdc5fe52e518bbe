/-
  Timers/TimerWheel.lean --- the timer wheel.

  Source: `include/fastmm/core/timer_wheel.hpp` (`TimerWheel`).

  A wheel of 4096 slots of one millisecond and an overflow list for what lies
  beyond, both of intrusive lists over the pool's slots.  Times are `Int`, in
  nanoseconds, and the greatest time of the source, which stands for "none", is the
  absence of one.  The links of the timers are kept beside them by pool slot.

  A callback is a function of what `poll` has done so far and of the wheel: the
  calls it makes.  `poll` returns a trace beside the wheel.  `released` is ghost
  state, which nothing reads: how often each pool slot was released, so that a slot
  and this count name one timer for good.
-/
import FastMM.Core.Types
import FastMM.Core.Containers
import FastMM.Foundation.IntrusiveLists
set_option autoImplicit false

namespace FastMM

open Foundation

/-! ## Constants -/

def kSlots : Nat := 4096

/-- `kSlotNs`, a millisecond. -/
def kSlotNs : Int := 1000000

/-- `kIndexBits`, `std::bit_width(kMaxTimers - 1)`. -/
def kIndexBits (kMaxTimers : Nat) : Nat :=
  if kMaxTimers ≤ 1 then 0 else Nat.log2 (kMaxTimers - 1) + 1

def kGenerations (kMaxTimers : Nat) : Nat := (2 ^ 32 - 1) / 2 ^ kIndexBits kMaxTimers

/-- The millisecond a time falls in: the division truncates. -/
def msOf (t : Timestamp) : Int := t.tdiv kSlotNs

/-- The wheel slot of a millisecond. -/
def slotOf (ms : Int) : Nat := (ms % kSlots).toNat

/-! ## State -/

/-- `Timer::list`: the list a timer is on. -/
inductive TimerList where
  | slot (s : Nat)
  | overflow
  | unlinked
  deriving DecidableEq, Repr, Inhabited

structure Timer where
  expiry : Timestamp := 0
  period : Int := 0
  userData : Nat := 0
  list : TimerList := .unlinked
  repeats : Bool := false
  active : Bool := false
  deriving DecidableEq, Repr, Inhabited

structure TimerWheel (kMaxTimers : Nat) where
  pool : Pool Timer kMaxTimers := .empty
  links : Links := {}
  gen : Nat → Nat := fun _ => 0
  slots : Nat → Option Nat := fun _ => none
  overflow : Option Nat := none
  overflowMinMs : Option Int := none
  curMs : Int := 0
  firing : Option Nat := none
  next : Option Timestamp := none
  nextStale : Bool := false
  walkNext : Option Nat := none
  released : Nat → Nat := fun _ => 0

/-- Whether a time lies before one that may be absent. -/
def beforeSome (t : Int) : Option Int → Bool
  | some u => decide (t < u)
  | none => true

/-- What a callback may call. -/
inductive TimerCall where
  | add (period : Int) (repeats : Bool) (userData : Nat)
  | cancel (id : Nat)
  | nextExpiry
  deriving DecidableEq, Repr

/-- What happens in a `poll`: a call of its function for a timer, named by its pool
slot and the slot's count, and a call of `cancel` on the wheel as it was. -/
inductive TimerEvent (kMaxTimers : Nat) where
  | fired (key : Nat × Nat) (id : Nat) (userData : Nat) (expiry : Timestamp)
  | cancel (w : TimerWheel kMaxTimers) (id : Nat)

/-- The events of a poll, in order. -/
abbrev TimerTrace (kMaxTimers : Nat) : Type := List (TimerEvent kMaxTimers)

/-- A callback: the calls it makes, from what happened before and the wheel. -/
abbrev TimerCallback (kMaxTimers : Nat) : Type :=
  TimerTrace kMaxTimers → TimerWheel kMaxTimers → Nat → Nat → List TimerCall

namespace TimerWheel

variable {kMaxTimers : Nat}
variable (w : TimerWheel kMaxTimers)
variable (idx : Nat)

/-- The constructor. -/
def init (kMaxTimers : Nat) (now : Timestamp) : TimerWheel kMaxTimers :=
  { curMs := msOf now }

/-- The id of slot `idx` at generation `g`. -/
def idAt (kMaxTimers g idx : Nat) : Nat := g * 2 ^ kIndexBits kMaxTimers + idx

def idOf : Nat := idAt kMaxTimers (w.gen idx) idx

def indexOf (kMaxTimers id : Nat) : Nat := id % 2 ^ kIndexBits kMaxTimers

/-- The timer a pool slot holds, for good. -/
def keyOf : Nat × Nat := (idx, w.released idx)

/-! ## Lists -/

/-- The head of a list. -/
def head : TimerList → Option Nat
  | .slot s => w.slots s
  | .overflow => w.overflow
  | .unlinked => none

/-- Writes the head of a list. -/
def setHead (l : TimerList) (x : Option Nat) :
    TimerWheel kMaxTimers :=
  match l with
  | .slot s => { w with slots := Function.update w.slots s x }
  | .overflow => { w with overflow := x }
  | .unlinked => w

/-- The list `link` puts an expiry on. -/
def listFor (expiry : Timestamp) : TimerList :=
  let ms := msOf expiry
  if kSlots ≤ ms - w.curMs then .overflow
  else .slot (slotOf (if ms < w.curMs then w.curMs else ms))

def link (t : Timer) : TimerWheel kMaxTimers :=
  let l := w.listFor t.expiry
  let w := if l = .overflow ∧ beforeSome (msOf t.expiry) w.overflowMinMs then
      { w with overflowMinMs := some (msOf t.expiry) }
    else w
  let w := { w with
    pool := w.pool.set idx { t with list := l }
    links := w.links.linkFront (w.head l) idx }
  w.setHead l (some idx)

def unlink (t : Timer) : TimerWheel kMaxTimers :=
  if t.list = .unlinked then w
  else
    let w := if w.walkNext = some idx then { w with walkNext := w.links.next idx } else w
    let w := if (w.links.prev idx).isSome then w else w.setHead t.list (w.links.next idx)
    { w with links := w.links.unlink idx, pool := w.pool.set idx { t with list := .unlinked } }

/-! ## Adding and cancelling -/

def live (id : Nat) : Bool :=
  let idx := indexOf kMaxTimers id
  decide (id ≠ 2 ^ 32 - 1) && decide (idx < kMaxTimers) && w.pool.isLive idx &&
    decide (id / 2 ^ kIndexBits kMaxTimers = w.gen idx)

def release : TimerWheel kMaxTimers :=
  let g := w.gen idx + 1
  { w with
    gen := Function.update w.gen idx (if g = kGenerations kMaxTimers then 0 else g)
    pool := w.pool.free idx
    released := Function.update w.released idx (w.released idx + 1) }

/-- `add`: the id is `none` when the pool is full. -/
def add (now : Timestamp) (period : Int) (repeats : Bool)
    (userData : Nat) : TimerWheel kMaxTimers × Option Nat :=
  match w.pool.allocate with
  | none => (w, none)
  | some (idx, pool) =>
    let t : Timer :=
      { expiry := now + period
        period := if period < kSlotNs ∧ repeats = true then kSlotNs else period
        userData := userData
        repeats := repeats
        active := true
        list := .unlinked }
    let w := { w with pool := pool.set idx t }
    let w := w.link idx t
    let w := if beforeSome t.expiry w.next then { w with next := some t.expiry } else w
    (w, some (w.idOf idx))

def cancel (id : Nat) : TimerWheel kMaxTimers × Bool :=
  if w.live id then
    let idx := indexOf kMaxTimers id
    match w.pool.slots idx with
    | none => (w, false)
    | some t =>
      if t.active then
        let t' := { t with active := false }
        let w := { w with pool := w.pool.set idx t' }
        let w := if beforeSome t.expiry w.next = true ∨ w.next = some t.expiry then
            { w with nextStale := true }
          else w
        let w := w.unlink idx t'
        (if w.firing = some idx then w else w.release idx, true)
      else (w, false)
  else (w, false)

/-- `next_expiry`: the scan, when the cached one is stale. -/
def nextExpiry : TimerWheel kMaxTimers × Option Timestamp :=
  if w.nextStale then
    let best := w.pool.liveHandles.foldl (fun (best : Option Timestamp) idx =>
      match w.pool.slots idx with
      | some t => if t.active = true ∧ beforeSome t.expiry best = true then some t.expiry else best
      | none => best) none
    ({ w with next := best, nextStale := false }, best)
  else (w, w.next)

/-- One call of a callback, at the poll's time. -/
def callOne (now : Timestamp) (w : TimerWheel kMaxTimers) :
    TimerCall → TimerWheel kMaxTimers × TimerTrace kMaxTimers
  | .add period repeats userData => ((w.add now period repeats userData).1, [])
  | .cancel id => ((w.cancel id).1, [.cancel w id])
  | .nextExpiry => (w.nextExpiry.1, [])

/-- The calls of a callback. -/
def callAll (now : Timestamp) (w : TimerWheel kMaxTimers) :
    List TimerCall → TimerWheel kMaxTimers × TimerTrace kMaxTimers
  | [] => (w, [])
  | c :: cs =>
    let (w, es) := callOne now w c
    let (w, more) := callAll now w cs
    (w, es ++ more)

/-! ## Polling -/

/-- What `fire` does after the callback: the timer ends, or repeats in phase, caught
up when it fell behind. -/
def afterFire (now : Timestamp) :
    TimerWheel kMaxTimers :=
  let w := { w with firing := none }
  let w := match w.pool.slots idx with
    | none => w
    | some t =>
      if t.active = false then w.release idx
      else if t.repeats then
        let expiry := t.expiry + t.period
        let t := { t with expiry := if expiry ≤ now then now + t.period else expiry }
        { w with pool := w.pool.set idx t }.link idx t
      else { w with pool := w.pool.set idx { t with active := false } }.release idx
  { w with nextStale := true }

def fire (f : TimerCallback kMaxTimers) (past : TimerTrace kMaxTimers) (w : TimerWheel kMaxTimers)
    (idx : Nat) (t : Timer) (now : Timestamp) : TimerWheel kMaxTimers × TimerTrace kMaxTimers :=
  let w := { { w with nextStale := true }.unlink idx t with firing := some idx }
  let event : TimerEvent kMaxTimers := .fired (w.keyOf idx) (w.idOf idx) t.userData t.expiry
  let (w, es) := callAll now w (f (past ++ [event]) w (w.idOf idx) t.userData)
  (w.afterFire idx now, event :: es)

/-- The inner loop of `poll_due`, from the timer `idx` of a slot on.  The fuel is the
number of timers there can be. -/
def walkSlot (f : TimerCallback kMaxTimers) (now : Timestamp) :
    Nat → TimerTrace kMaxTimers → TimerWheel kMaxTimers → Option Nat →
      TimerWheel kMaxTimers × TimerTrace kMaxTimers
  | 0, _, w, _ => (w, [])
  | _ + 1, _, w, none => (w, [])
  | n + 1, past, w, some idx =>
    match w.pool.slots idx with
    | none => (w, [])
    | some t =>
      let w := { w with walkNext := w.links.next idx }
      if t.expiry ≤ now then
        let (w, es) := w.fire f past idx t now
        let (w, more) := walkSlot f now n (past ++ es) w w.walkNext
        (w, es ++ more)
      else walkSlot f now n past w w.walkNext

/-- The outer loop: `n` slots from the millisecond `ms` on. -/
def walkSlots (f : TimerCallback kMaxTimers) (now : Timestamp) :
    Nat → Int → TimerTrace kMaxTimers → TimerWheel kMaxTimers →
      TimerWheel kMaxTimers × TimerTrace kMaxTimers
  | 0, _, _, w => (w, [])
  | n + 1, ms, past, w =>
    let (w, es) := walkSlot f now (kMaxTimers + 1) past w (w.slots (slotOf ms))
    let (w, more) := walkSlots f now n (ms + 1) (past ++ es) w
    (w, es ++ more)

/-- The loop of `promote_overflow`, from the timer `idx` on. -/
def promoteFrom : Nat → TimerWheel kMaxTimers → Option Nat → Option Int →
    TimerWheel kMaxTimers × Option Int
  | 0, w, _, minMs => (w, minMs)
  | _ + 1, w, none, minMs => (w, minMs)
  | n + 1, w, some idx, minMs =>
    match w.pool.slots idx with
    | none => (w, minMs)
    | some t =>
      let next := w.links.next idx
      let ms := msOf t.expiry
      if ms - w.curMs < kSlots then
        let w := w.unlink idx t
        promoteFrom n (w.link idx { t with list := .unlinked }) next minMs
      else promoteFrom n w next (if beforeSome ms minMs then some ms else minMs)

def promoteOverflow : TimerWheel kMaxTimers :=
  let (w, minMs) := promoteFrom (kMaxTimers + 1) w w.overflow none
  { w with overflowMinMs := minMs }

/-- The wheel when `poll_due` starts to walk: the cursor has jumped after a long
stall, and the overflow timers within the horizon are in the wheel. -/
def prepared (nowMs : Int) : TimerWheel kMaxTimers :=
  let w := if kSlots < nowMs - w.curMs then { w with curMs := nowMs - kSlots } else w
  if beforeSome (nowMs + kSlots - 1) w.overflowMinMs then w else w.promoteOverflow

def pollDue (f : TimerCallback kMaxTimers) (w : TimerWheel kMaxTimers) (now : Timestamp)
    (nowMs : Int) : TimerWheel kMaxTimers × TimerTrace kMaxTimers :=
  let w := w.prepared nowMs
  if w.nextStale = false ∧ beforeSome now w.next = true then ({ w with curMs := nowMs }, [])
  else
    let (w, es) := walkSlots f now (nowMs - w.curMs + 1).toNat w.curMs [] w
    ({ w with walkNext := none, curMs := nowMs }, es)

def poll (f : TimerCallback kMaxTimers) (w : TimerWheel kMaxTimers) (now : Timestamp) :
    TimerWheel kMaxTimers × TimerTrace kMaxTimers :=
  let nowMs := msOf now
  if nowMs < w.curMs then (w, [])
  else if w.nextStale = false ∧ beforeSome now w.next = true ∧
      beforeSome (nowMs + kSlots - 1) w.overflowMinMs = true then
    ({ w with curMs := nowMs }, [])
  else w.pollDue f now nowMs

end TimerWheel

end FastMM
