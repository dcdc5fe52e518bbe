/-
  Sim/RecordedOrder.lean --- events taken in venue order go on in recorded order.

  Source: `include/fastmm/sim/venue_order.hpp` (`RecordedOrder`).

  A position that cannot go yet waits in a ring, or, too far ahead, in a heap whose events
  lie in slots.  `std::push_heap` and `std::pop_heap` promise that the front is the least
  position, which is all the code asks of them: `waiting` is kept sorted here.  A free place
  of the ring is `none`, where the source has position 0.
-/
import FastMM.Foundation.SlotRing
import Mathlib.Data.List.Sort
set_option autoImplicit false

namespace FastMM.Sim

open Foundation

/-! ## State -/

/-- What is put: an event or none at a position, its recorded time and the venue's. -/
structure Put (ε : Type) where
  md : Option ε
  seq : Nat
  recorded : Int
  now : Int
deriving DecidableEq, Repr

/-- A call of `forward`. -/
structure Forwarded (ε : Type) where
  md : ε
  recorded : Int
  venue : Int
deriving DecidableEq, Repr

/-- A used `Ahead`: its event when `has_md`. -/
structure Ahead (ε : Type) where
  seq : Nat
  recorded : Int
  venue : Int
  md : Option ε

structure Waiting where
  seq : Nat
  recorded : Int
  venue : Int
  slot : Nat
deriving DecidableEq, Repr

def kNoSlot : Nat := 4294967295
def kMaxAhead : Nat := 1048576

structure RecordedOrder (ε : Type) where
  ahead : List (Option (Ahead ε)) := []
  /-- `waiting_`, its front first. -/
  waiting : List Waiting := []
  waitingBytes : List ε := []
  /-- `waiting_free_`, its back first. -/
  waitingFree : List Nat := []
  next : Nat := 1
  /-- The calls of `forward`. -/
  sent : List (Forwarded ε) := []

namespace RecordedOrder

variable {ε : Type} (r : RecordedOrder ε)
variable (p : Put ε)

/-! ## The ring -/

/-- `pos & (ahead_.size() - 1)`. -/
def aheadIndex (pos : Nat) : Nat := pos &&& (r.ahead.length - 1)

/-- The size `grow_ahead` chooses, from `cap` on; `cap` is never 0. -/
def growCap (cap need : Nat) : Nat :=
  if _h : 0 < cap ∧ cap < kMaxAhead ∧ cap ≤ need then growCap (cap * 2) need else cap
termination_by kMaxAhead - cap
decreasing_by omega

/-- The place of the position is free. -/
def aheadFree (pos : Nat) : Bool :=
  match r.ahead[r.aheadIndex pos]? with
  | some none => true
  | _ => false

/-- The entries move to the places the larger ring has for them. -/
def rehash (cap : Nat) : List (Option (Ahead ε)) :=
  (r.ahead.filterMap fun x => x).foldl (fun l a => l.set (a.seq &&& (cap - 1)) (some a))
    (List.replicate cap none)

def growAhead (seq : Nat) : RecordedOrder ε :=
  let cap := growCap (if r.ahead.isEmpty then 1024 else r.ahead.length) (seq - r.next)
  if cap = r.ahead.length then r else { r with ahead := r.rehash cap }

/-! ## The heap -/

/-- A slot of `waiting_bytes_` takes the event; the slot's number is 32 bits wide. -/
def storeWaiting (md : ε) : Nat × RecordedOrder ε :=
  match r.waitingFree with
  | [] =>
    (r.waitingBytes.length % 4294967296, { r with waitingBytes := r.waitingBytes ++ [md] })
  | slot :: free =>
    (slot, { r with waitingFree := free, waitingBytes := r.waitingBytes.set slot md })

def pushWaiting (w : Waiting) : RecordedOrder ε :=
  { r with waiting := List.orderedInsert (fun a b => a.seq ≤ b.seq) w r.waiting }

/-- A position too far ahead for the ring waits in the heap. -/
def wait : RecordedOrder ε :=
  match p.md with
  | none => r.pushWaiting ⟨p.seq, p.recorded, p.now, kNoSlot⟩
  | some md =>
    let (slot, r) := r.storeWaiting md
    r.pushWaiting ⟨p.seq, p.recorded, p.now, slot⟩

/-- A position beyond the next one waits. -/
def putAhead : RecordedOrder ε :=
  let r :=
    if p.seq - r.next ≥ r.ahead.length ∧ r.ahead.length < kMaxAhead then r.growAhead p.seq else r
  if p.seq - r.next < r.ahead.length ∧ r.aheadFree p.seq then
    { r with
      ahead := r.ahead.set (r.aheadIndex p.seq) (some ⟨p.seq, p.recorded, p.now, p.md⟩) }
  else r.wait p

/-! ## Release -/

def forward (md : Option ε) (recorded venue : Int) : RecordedOrder ε :=
  match md with
  | none => r
  | some md => { r with sent := r.sent ++ [⟨md, recorded, venue⟩] }

/-- The entry of the ring at the next position. -/
def aheadNext : Option (Ahead ε) :=
  match r.ahead[r.aheadIndex r.next]? with
  | some (some a) => if a.seq = r.next then some a else none
  | _ => none

def releaseAhead (a : Ahead ε) : RecordedOrder ε :=
  let r := { r with ahead := r.ahead.set (r.aheadIndex r.next) none }
  { r.forward a.md a.recorded a.venue with next := r.next + 1 }

/-- The front of the heap has gone out of it. -/
def releaseWaiting (w : Waiting) (rest : List Waiting) : RecordedOrder ε :=
  let r := { r with waiting := rest }
  let r :=
    if w.slot ≠ kNoSlot then
      let r := r.forward r.waitingBytes[w.slot]? w.recorded w.venue
      { r with waitingFree := w.slot :: r.waitingFree }
    else r
  if w.seq = r.next then { r with next := r.next + 1 } else r

theorem forward_ahead (md : Option ε) (recorded venue : Int) :
    (r.forward md recorded venue).ahead = r.ahead ∧
      (r.forward md recorded venue).waiting = r.waiting := by
  unfold forward
  split <;> exact ⟨rfl, rfl⟩

theorem releaseAhead_size (a : Ahead ε) :
    (r.releaseAhead a).ahead = r.ahead.set (r.aheadIndex r.next) none ∧
      (r.releaseAhead a).waiting = r.waiting :=
  forward_ahead { r with ahead := r.ahead.set (r.aheadIndex r.next) none } _ _ _

theorem releaseWaiting_size (w : Waiting) (rest : List Waiting) :
    (r.releaseWaiting w rest).ahead = r.ahead ∧ (r.releaseWaiting w rest).waiting = rest := by
  have hforward := forward_ahead { r with waiting := rest }
  unfold releaseWaiting
  dsimp only
  split
  · split
    · exact hforward _ _ _
    · exact hforward _ _ _
  · split <;> exact ⟨rfl, rfl⟩

theorem aheadNext_eq_some {a : Ahead ε} (h : r.aheadNext = some a) :
    r.ahead[r.aheadIndex r.next]? = some (some a) ∧ a.seq = r.next := by
  unfold aheadNext at h
  split at h
  · rename_i b hb
    split at h
    · rename_i hseq
      obtain rfl : b = a := Option.some.inj h
      exact ⟨hb, hseq⟩
    · simp at h
  · simp at h

/-- The loop of `put`: what waited for the next position goes. -/
def release (r : RecordedOrder ε) : RecordedOrder ε :=
  match _ha : r.aheadNext with
  | some a => release (r.releaseAhead a)
  | none =>
    match _hw : r.waiting with
    | [] => r
    | w :: rest => if w.seq > r.next then r else release (r.releaseWaiting w rest)
termination_by r.ahead.countP Option.isSome + r.waiting.length
decreasing_by
  · obtain ⟨h₁, h₂⟩ := releaseAhead_size r a
    have hget := (r.aheadNext_eq_some _ha).1
    have hpos := countP_pos_of_used hget
    rw [h₁, h₂, countP_free hget]
    omega
  · obtain ⟨h₁, h₂⟩ := releaseWaiting_size r w rest
    rw [h₁, h₂, _hw, List.length_cons]
    omega

def put : RecordedOrder ε :=
  if p.seq > r.next then r.putAhead p
  else
    let r := r.forward p.md p.recorded p.now
    let r := if p.seq = r.next then { r with next := r.next + 1 } else r
    r.release

/-- The puts in the order they come. -/
def run (ps : List (Put ε)) : RecordedOrder ε := ps.foldl put r

end RecordedOrder

end FastMM.Sim
