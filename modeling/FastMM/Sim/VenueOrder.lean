/-
  Sim/VenueOrder.lean --- a recorded stream in the order the venue produced it.

  Source: `include/fastmm/sim/venue_order.hpp` (`VenueOrderSource`) and
  `src/sim/venue_order.cpp`.

  The events held lie in slots, and a heap of their venue times and packed keys says which
  one is next.  A slot's bytes are those last written, in the arena or, for a long event, in
  a buffer of its own.  `next` answers what its pointer shows at the time.
-/
import FastMM.Foundation.DaryHeap
set_option autoImplicit false

namespace FastMM.Sim

open Foundation Function

/-! ## Events -/

/-- `EventHeader` with the bytes after it, as far as the adapter looks. -/
structure Event (ε : Type) where
  padding : Bool := false
  len : Nat := 0
  exchTs : Int := 0
  recvTs : Int := 0
  seq : Nat := 0
  body : ε
deriving DecidableEq, Repr

namespace Event

variable {ε : Type} (e : Event ε)

/-- The venue time: `exch_ts`, or `recv_ts` without one; zero is the invalid time. -/
def venue : Int := if e.exchTs ≠ 0 then e.exchTs else e.recvTs

/-- The receive time, or the venue time without one. -/
def received : Int := if e.recvTs ≠ 0 then e.recvTs else e.venue

end Event

/-! ## State -/

def kSlotBits : Nat := 24
def kSlotWords : Nat := 32

/-- The most events held, `1 << kSlotBits`. -/
def maxEvents : Nat := 16777216

/-- `Held`: the venue time and the packed key of one event. -/
structure Held where
  venueNs : Int
  key : Nat
deriving DecidableEq, Repr

namespace Held

def seq (h : Held) : Nat := h.key >>> kSlotBits

def slot (h : Held) : Nat := h.key &&& (maxEvents - 1)

/-- Earliest venue time, then recorded order. -/
def before (a b : Held) : Bool :=
  if a.venueNs ≠ b.venueNs then a.venueNs < b.venueNs else a.key < b.key

end Held

/-- `seq_ << kSlotBits | slot`, in 64 bits. -/
def packKey (seq slot : Nat) : Nat := (seq <<< kSlotBits) % 18446744073709551616 ||| slot

structure VenueOrderSource (ε : Type) where
  /-- What the source has still to give. -/
  src : List (Event ε)
  window : Int
  arena : Nat → Event ε
  big : Nat → Event ε
  isBig : Nat → Bool := fun _ => false
  nSlots : Nat := 0
  /-- `free_`, its back first. -/
  free : List Nat := []
  heap : List Held := []
  out : Option Nat := none
  seq : Nat := 0
  maxOut : Nat := 0
  readBound : Int := 0
  lastVenue : Int := 0
  done : Bool := false
  late : Nat := 0
  reordered : Nat := 0
  maxHeld : Nat := 0

namespace VenueOrderSource

variable {ε : Type}

/-- The constructor; slots are zeroed. -/
def create [Inhabited ε] (src : List (Event ε)) (window : Int) : VenueOrderSource ε :=
  { src := src, window := window, arena := fun _ => ⟨false, 0, 0, 0, 0, default⟩,
    big := fun _ => ⟨false, 0, 0, 0, 0, default⟩ }

variable (s : VenueOrderSource ε)

def slotData (k : Nat) : Event ε := if s.isBig k then s.big k else s.arena k

def takeSlot : Nat × VenueOrderSource ε :=
  match s.free with
  | k :: free => (k, { s with free := free })
  | [] => (s.nSlots, { s with nSlots := s.nSlots + 1, isBig := update s.isBig s.nSlots false })

/-- The copy of an event into its slot. -/
def write (slot : Nat) (e : Event ε) : VenueOrderSource ε :=
  if (e.len + 7) / 8 ≤ kSlotWords then
    { s with
      isBig := update s.isBig slot false
      arena := update s.arena slot e }
  else
    { s with
      isBig := update s.isBig slot true
      big := update s.big slot e }

/-- One event read is held. -/
def hold (h : Event ε) : VenueOrderSource ε :=
  let (slot, s) := s.takeSlot
  let s := s.write slot { h with seq := s.seq + 1 }
  let heap := DaryHeap.push Held.before 4 s.heap ⟨h.venue, packKey (s.seq + 1) slot⟩
  { s with
    seq := s.seq + 1
    readBound := max s.readBound h.received
    heap := heap
    maxHeld := max s.maxHeld heap.length }

/-- The condition of the reading loop: an unread event may precede the earliest one held. -/
def wantsMore : Bool :=
  !s.done && (match s.heap with
      | [] => true
      | front :: _ => s.readBound - s.window < front.venueNs) &&
    s.heap.length < maxEvents

/-- The reading loop over what the source has left; it answers a record of the session. -/
def read : List (Event ε) → VenueOrderSource ε → Option (Event ε) × VenueOrderSource ε
  | [], s => (none, { s with src := [], done := s.done || s.wantsMore })
  | h :: src, s =>
    if s.wantsMore then
      if h.padding then (some h, { s with src := src }) else read src (s.hold h)
    else (none, { s with src := h :: src })

/-- The end of `next`: the earliest event held goes out. -/
def yieldHeld : Option (Event ε) × VenueOrderSource ε :=
  match DaryHeap.pop Held.before 4 s.heap with
  | none => (none, s)
  | some (e, heap) =>
    let s :=
      { s with
        heap := heap
        late := if e.venueNs < s.lastVenue then s.late + 1 else s.late
        lastVenue := max s.lastVenue e.venueNs
        reordered := if e.seq < s.maxOut then s.reordered + 1 else s.reordered
        maxOut := max s.maxOut e.seq
        out := some e.slot }
    (some (s.slotData e.slot), s)

/-- `next`, the slot of the event last yielded is free again. -/
def freeOut : VenueOrderSource ε :=
  match s.out with
  | some k => { s with free := k :: s.free, out := none }
  | none => s

def next : Option (Event ε) × VenueOrderSource ε :=
  let s := s.freeOut
  match read s.src s with
  | (some h, s) => (some h, s)
  | (none, s) => s.yieldHeld

/-- What `calls` calls of `next` yield, up to the end. -/
def yields : Nat → VenueOrderSource ε → List (Event ε) × VenueOrderSource ε
  | 0, s => ([], s)
  | calls + 1, s =>
    match s.next with
    | (none, s) => ([], s)
    | (some e, s) =>
      let (rest, s) := yields calls s
      (e :: rest, s)

end VenueOrderSource

end FastMM.Sim
