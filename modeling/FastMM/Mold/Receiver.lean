/-
  Mold/Receiver.lean --- the MoldUDP64 receiver: reordering, gaps and re-requests.

  Source: `include/fastmm/codecs/moldudp/moldudp64.hpp` (`ReorderBuffer`, `Receiver`) and
  `src/codecs/moldudp/moldudp64.cpp` (`ReorderBuffer`).

  What the receiver tells its handler is the list `calls`, oldest first; a handler has
  `on_gap_unrecoverable`.  A slot of the reorder buffer that is not used is `none`.

  The two loops that give up holes move only if what they give up is not empty, so they
  take fuel here and answer `none` without it; the sequence numbers of a session bound the
  fuel they need.
-/
import FastMM.Mold.Packet
set_option autoImplicit false

namespace FastMM.Mold

/-! ## Configuration, statistics and what the handler is told -/

inductive SessionState where
  | Down
  | LoggingOn
  | Up
  | Recovering
deriving DecidableEq, Repr

structure ReceiverConfig where
  session : SessionId := kBlankSession
  nextSequence : Nat := 0
  maxRequestCount : UInt16 := 1024
  requestTimeoutNs : Int := 250000000
  maxRequestAttempts : Nat := 4
  gapTimeoutNs : Int := 2000000
  reorderPackets : Nat := 256
  maxPacketBytes : Nat := 1472
  canRequest : Bool := true
  followSession : Bool := false

structure ReceiverLineStats where
  packets : Nat := 0
  duplicatePackets : Nat := 0
  skewSamples : Nat := 0
  skewLastNs : Int := 0
  skewMaxNs : Int := 0
  skewSumNs : Int := 0

structure ReceiverStats where
  packets : Nat := 0
  messages : Nat := 0
  heartbeats : Nat := 0
  endOfSession : Nat := 0
  duplicatePackets : Nat := 0
  aheadPackets : Nat := 0
  heldPackets : Nat := 0
  reorderOverflow : Nat := 0
  reorderHighWater : Nat := 0
  gaps : Nat := 0
  requests : Nat := 0
  unrecoverableGaps : Nat := 0
  lostMessages : Nat := 0
  sessions : Nat := 0
  sessionMismatch : Nat := 0
  malformed : Nat := 0
  lines : Nat → ReceiverLineStats := fun _ => {}

/-- What the handler is told. -/
inductive HandlerCall (μ : Type) where
  | onMessage (seq : Nat) (msg : List UInt8) (rxMeta : μ)
  | sendRequest (packet : List UInt8)
  | onGapUnrecoverable (fromSeq count : Nat)
  | onEndOfSession
deriving DecidableEq, Repr

/-! ## Reorder buffer -/

/-- The largest `std::uint64_t`, and the ends of `std::int64_t`. -/
def u64Max : Nat := 18446744073709551615
def i64Max : Int := 9223372036854775807
def kNoGap : Int := -9223372036854775808

def kMaxLines : Nat := 4
def kSkewSlots : Nat := 4096

/-- A used `ReorderBuffer::Entry`, with its bytes of the slab. -/
structure HeldPacket where
  seq : Nat
  stop : Nat
  rxNs : Int
  count : Nat
  blocks : List UInt8
deriving DecidableEq, Repr

structure ReorderBuffer where
  entries : List (Option HeldPacket)
  size : Nat
  stride : Nat

namespace ReorderBuffer

def create (capacity maxPacketBytes : Nat) : ReorderBuffer :=
  { entries := List.replicate capacity none
    size := 0
    stride := if maxPacketBytes > kHeaderLength then maxPacketBytes - kHeaderLength else 0 }

variable (b : ReorderBuffer)

def capacity : Nat := b.entries.length

def full : Bool := b.size = b.capacity

def fits (p : PacketView) : Bool := b.capacity ≠ 0 ∧ p.blocks.length ≤ b.stride

/-- The first free slot takes the packet; the slot, or `none` when full or too large. -/
def insert (p : PacketView) (rxNs : Int) : Option (Nat × ReorderBuffer) :=
  if b.full || !b.fits p then none
  else
    match b.entries.findIdx? Option.isNone with
    | none => none
    | some i =>
      some (i, { b with
          entries := b.entries.set i (some ⟨p.sequence, p.nextSequence, rxNs, p.count, p.blocks⟩)
          size := b.size + 1 })

/-- The packets held, in the order of their slots. -/
def packets : List HeldPacket := b.entries.filterMap fun x => x

def covers (seq stop : Nat) : Bool :=
  b.size ≠ 0 ∧ b.packets.any fun e => e.seq ≤ seq ∧ e.stop ≥ stop

def findAtOrBelow (seq : Nat) : Option Nat :=
  if b.size = 0 then none
  else
    b.entries.findIdx? fun x =>
      match x with
      | some e => e.seq ≤ seq
      | none => false

/-- `view`: the packet of a slot, as it came. -/
def view (slot : Nat) (session : SessionId) : PacketView :=
  match b.entries[slot]? with
  | some (some e) => ⟨session, e.seq, e.count, .Data, e.blocks⟩
  | _ => {}

def erase (slot : Nat) : ReorderBuffer :=
  { b with entries := b.entries.set slot none, size := b.size - 1 }

def clear : ReorderBuffer :=
  { b with entries := b.entries.map fun _ => none, size := 0 }

def lowest : Nat :=
  if b.size = 0 then u64Max else b.packets.foldl (fun lo e => min lo e.seq) u64Max

def oldestRx : Int :=
  if b.size = 0 then i64Max else b.packets.foldl (fun t e => min t e.rxNs) i64Max

end ReorderBuffer

/-! ## State -/

structure SkewSlot where
  seq : Nat := 0
  rxNs : Int := 0

structure Receiver (μ : Type) where
  cfg : ReceiverConfig
  held : ReorderBuffer
  metas : Nat → μ
  skew : Nat → SkewSlot := fun _ => {}
  session : SessionId
  haveSession : Bool := false
  eos : Bool := false
  eosNotified : Bool := false
  state : SessionState := .Down
  next : Nat
  highest : Nat := 0
  requestedNext : Nat := 0
  overflowEnd : Nat := 0
  attempts : Nat := 0
  nowNs : Int := 0
  highestNs : Int := 0
  lastRequestNs : Int := 0
  gapSince : Int := kNoGap
  stats : ReceiverStats := {}
  calls : List (HandlerCall μ) := []

namespace Receiver

variable (line : Nat)
variable (fuel : Nat)

/-- The constructor. -/
def create {μ : Type} [Inhabited μ] (cfg : ReceiverConfig) : Receiver μ :=
  { cfg := cfg
    held := .create cfg.reorderPackets cfg.maxPacketBytes
    metas := fun _ => default
    session := cfg.session
    next := cfg.nextSequence }

variable {μ : Type} (r : Receiver μ)

/-! ## Sessions -/

def startSession (s : SessionId) : Receiver μ :=
  { r with
    session := s
    next := if r.cfg.nextSequence = 0 then 0 else 1
    highest := 0
    highestNs := 0
    requestedNext := 0
    attempts := 0
    overflowEnd := 0
    eos := false
    eosNotified := false
    gapSince := kNoGap
    held := r.held.clear
    skew := fun _ => {}
    state := .Up
    stats := { r.stats with sessions := r.stats.sessions + 1 } }

def countMismatch : Receiver μ :=
  { r with stats := { r.stats with sessionMismatch := r.stats.sessionMismatch + 1 } }

def acceptSession (p : PacketView) : Receiver μ × Bool :=
  if !r.haveSession then
    if !isBlank r.session && p.session ≠ r.session then (r.countMismatch, false)
    else ({ r with session := p.session, haveSession := true }, true)
  else if p.session = r.session then (r, true)
  else if r.cfg.followSession && r.eosNotified then (r.startSession p.session, true)
  else (r.countMismatch, false)

/-! ## Copies -/

def lineIndex : Nat := if line < kMaxLines then line else kMaxLines - 1

def setLine (ls : ReceiverLineStats) : Receiver μ :=
  { r with
    stats := { r.stats with
      lines := fun l => if l = lineIndex line then ls else r.stats.lines l } }

def firstCopy (p : PacketView) (nowNs : Int) : Receiver μ :=
  { r with
    skew := fun i => if i = p.sequence % kSkewSlots then ⟨p.sequence, nowNs⟩ else r.skew i }

def duplicate (p : PacketView) (nowNs : Int) (line : Nat) : Receiver μ :=
  let r := { r with stats := { r.stats with duplicatePackets := r.stats.duplicatePackets + 1 } }
  let ls := r.stats.lines (lineIndex line)
  let ls := { ls with duplicatePackets := ls.duplicatePackets + 1 }
  let s := r.skew (p.sequence % kSkewSlots)
  if s.seq ≠ p.sequence then r.setLine line ls
  else
    let d := nowNs - s.rxNs
    r.setLine line { ls with
        skewSamples := ls.skewSamples + 1
        skewLastNs := d
        skewSumNs := ls.skewSumNs + d
        skewMaxNs := max d ls.skewMaxNs }

/-! ## Delivery -/

/-- The loop of `deliver` over the `left` messages in `rest`, the first one numbered `seq`. -/
def deliverLoop (rxMeta : μ) : Nat → List UInt8 → Nat → Receiver μ → Receiver μ
  | 0, _, _, r => r
  | left + 1, rest, seq, r =>
    match nextBlock rest with
    | none => r
    | some (msg, rest') =>
      if seq < r.next then deliverLoop rxMeta left rest' (add64 seq 1) r
      else
        deliverLoop rxMeta left rest' (add64 seq 1) { r with
            calls := r.calls ++ [.onMessage seq msg rxMeta]
            next := add64 seq 1
            stats := { r.stats with messages := r.stats.messages + 1 } }

def deliver (p : PacketView) (rxMeta : μ) : Receiver μ :=
  deliverLoop rxMeta p.count p.blocks p.sequence r

theorem deliverLoop_held (rxMeta : μ) (left : Nat) (rest : List UInt8) (seq : Nat)
    (r : Receiver μ) : (deliverLoop rxMeta left rest seq r).held = r.held := by
  induction left generalizing rest seq r with
  | zero => rfl
  | succ left ih =>
    unfold deliverLoop
    split
    · rfl
    · split
      · exact ih _ _ _
      · exact ih _ _ _

/-- One packet of `drain`: delivered if it still has something new, and freed. -/
def releaseHeld (slot : Nat) : Receiver μ :=
  let v := r.held.view slot r.session
  let r := if v.nextSequence > r.next then r.deliver v (r.metas slot) else r
  { r with held := r.held.erase slot }

theorem releaseHeld_held (slot : Nat) : (r.releaseHeld slot).held = r.held.erase slot := by
  unfold releaseHeld
  dsimp only
  split
  · exact congrArg (ReorderBuffer.erase · slot) (deliverLoop_held _ _ _ _ _)
  · rfl

def drain (r : Receiver μ) : Receiver μ :=
  match _h : r.held.findAtOrBelow r.next with
  | none => r
  | some slot => drain (r.releaseHeld slot)
termination_by r.held.size
decreasing_by
  rw [releaseHeld_held]
  have hpos : r.held.size ≠ 0 := by
    intro hz
    simp [ReorderBuffer.findAtOrBelow, hz] at _h
  show r.held.size - 1 < r.held.size
  omega

/-! ## Gaps -/

def holeKnownSince : Int :=
  if r.held.oldestRx < r.highestNs then r.held.oldestRx else r.highestNs

def onProgress : Receiver μ :=
  { r with gapSince := if r.next < r.highest then r.holeKnownSince else kNoGap }

def aged (nowNs : Int) : Bool := nowNs - r.gapSince ≥ r.cfg.gapTimeoutNs

def countGap : Receiver μ :=
  { r with stats := { r.stats with gaps := r.stats.gaps + 1 } }

/-- Requests the first hole: from `next_` up to the first held packet. -/
def request (nowNs : Int) : Receiver μ :=
  let lowest := r.held.lowest
  let holeEnd := if lowest < r.highest then lowest else r.highest
  let missing := holeEnd - r.next
  let n :=
    if missing < r.cfg.maxRequestCount.toNat then missing else r.cfg.maxRequestCount.toNat
  { r with
    attempts := if r.requestedNext = r.next then r.attempts + 1 else 1
    requestedNext := r.next
    lastRequestNs := nowNs
    stats := { r.stats with requests := r.stats.requests + 1 }
    calls := r.calls ++ [.sendRequest (writeRequest r.session r.next n)] }

/-- Gives up the sequences from `next_` to the first held packet (at most to `limit`). -/
def skipHole (limit : Nat) : Receiver μ :=
  let lowest := r.held.lowest
  let target := if lowest < limit then lowest else limit
  let fromSeq := r.next
  let r :=
    { r with
      next := target
      stats := { r.stats with
        unrecoverableGaps := r.stats.unrecoverableGaps + 1
        lostMessages := r.stats.lostMessages + (target - fromSeq) }
      calls := r.calls ++ [HandlerCall.onGapUnrecoverable fromSeq (target - fromSeq)] }
  r.drain.onProgress

/-- The end of `update`: nothing is missing. -/
def settle : Receiver μ :=
  let r := { r with
    gapSince := kNoGap
    state := if r.state ≠ .Down then .Up else r.state }
  if r.eos && !r.eosNotified then
    { r with eosNotified := true, calls := r.calls ++ [.onEndOfSession] }
  else r

/-- `update`, the gap is known from now on if it was not. -/
def noteGap : Receiver μ :=
  if r.gapSince = kNoGap then { r with gapSince := r.holeKnownSince } else r

/-- The gap is declared and requested. -/
def declareGap (nowNs : Int) : Receiver μ :=
  { r.countGap with state := .Recovering }.request nowNs

/-- One round of the loop of `update`, and whether it goes on. -/
def updateRound (nowNs : Int) : Receiver μ × Bool :=
  let r := r.noteGap
  if r.state ≠ .Recovering then
    if !r.aged nowNs then (r, false)
    else if !r.cfg.canRequest then (r.countGap.skipHole r.highest, true)
    else (r.declareGap nowNs, false)
  else if r.requestedNext ≠ r.next then
    (if r.aged nowNs || r.next < r.overflowEnd then r.request nowNs else r, false)
  else if nowNs - r.lastRequestNs < r.cfg.requestTimeoutNs then (r, false)
  else if r.cfg.maxRequestAttempts = 0 ∨ r.attempts < r.cfg.maxRequestAttempts then
    (r.request nowNs, false)
  else (r.skipHole r.highest, true)

def update (nowNs : Int) : Nat → Receiver μ → Option (Receiver μ)
  | 0, _ => none
  | fuel + 1, r =>
    if r.next < r.highest then
      let (r, again) := r.updateRound nowNs
      if again then update nowNs fuel r else some r
    else some r.settle

/-! ## Packets -/

/-- Copies an ahead packet into the buffer, if it can be held. -/
def hold (p : PacketView) (nowNs : Int) (rxMeta : μ) : Option (Receiver μ) :=
  match r.held.insert p nowNs with
  | none => none
  | some (slot, held) =>
    some { r with
        held := held
        metas := fun i => if i = slot then rxMeta else r.metas i
        stats := { r.stats with
          heldPackets := r.stats.heldPackets + 1
          reorderHighWater := max held.size r.stats.reorderHighWater } }

/-- The loop of `on_ahead` without retransmission: holes are given up until the packet is in
sequence or can be held. -/
def giveUp (p : PacketView) : Nat → Receiver μ → Option (Receiver μ)
  | 0, _ => none
  | fuel + 1, r =>
    let r := r.countGap.skipHole p.sequence
    if p.sequence > r.next ∧ (r.held.full || !r.held.fits p) then giveUp p fuel r else some r

/-- `on_ahead`, a packet that can be requested again is dropped. -/
def dropAhead (p : PacketView) (nowNs : Int) : Receiver μ :=
  let r :=
    if p.nextSequence > r.overflowEnd then { r with overflowEnd := p.nextSequence } else r
  if r.state ≠ .Recovering then r.declareGap nowNs else r

def countAhead : Receiver μ :=
  { r with stats := { r.stats with aheadPackets := r.stats.aheadPackets + 1 } }

def countOverflow : Receiver μ :=
  { r with stats := { r.stats with reorderOverflow := r.stats.reorderOverflow + 1 } }

/-- `on_ahead`, after holes were given up for the packet. -/
def takeAhead (p : PacketView) (nowNs : Int) (rxMeta : μ) : Receiver μ :=
  if p.sequence > r.next then (r.hold p nowNs rxMeta).getD r
  else if p.nextSequence > r.next then (r.deliver p rxMeta).drain
  else r

def onAhead (p : PacketView) (nowNs : Int) (rxMeta : μ) (line : Nat) :
    Option (Receiver μ) :=
  let r := r.countAhead
  if r.held.covers p.sequence p.nextSequence then some (r.duplicate p nowNs line)
  else
    let r := r.firstCopy p nowNs
    match r.hold p nowNs rxMeta with
    | some r => some r
    | none =>
      let r := r.countOverflow
      if r.cfg.canRequest then some (r.dropAhead p nowNs)
      else (giveUp p fuel r).map fun r => r.takeAhead p nowNs rxMeta

/-- `++stats_.packets` and `++ls.packets`. -/
def countPacket : Receiver μ :=
  let ls := r.stats.lines (lineIndex line)
  { r with stats := { r.stats with packets := r.stats.packets + 1 } }.setLine line
    { ls with packets := ls.packets + 1 }

/-- `on_packet`, what a packet of the session says before it is looked into: the position the
first one gives, and how far the session goes. -/
def notePacket (p : PacketView) (nowNs : Int) (line : Nat) : Receiver μ :=
  { r.countPacket line with
    next := if r.next = 0 then (if p.sequence = 0 then 1 else p.sequence) else r.next
    state := if r.state = .Down then .Up else r.state
    highest := if p.nextSequence > r.highest then p.nextSequence else r.highest
    highestNs := if p.nextSequence > r.highest then nowNs else r.highestNs }

/-- `on_packet`, by the kind of the packet. -/
def onKind (p : PacketView) (nowNs : Int) (rxMeta : μ) (line : Nat) :
    Option (Receiver μ) :=
  match p.kind with
  | .Heartbeat => some { r with stats := { r.stats with heartbeats := r.stats.heartbeats + 1 } }
  | .EndOfSession =>
    some { r with
      stats := { r.stats with endOfSession := r.stats.endOfSession + 1 }
      eos := true }
  | .Data =>
    if p.nextSequence ≤ r.next then some (r.duplicate p nowNs line)
    else if p.sequence ≤ r.next then some ((r.firstCopy p nowNs).deliver p rxMeta).drain
    else r.onAhead fuel p nowNs rxMeta line

def onPacket (fuel line : Nat) (datagram : List UInt8) (nowNs : Int) (rxMeta : μ) :
    Option (Receiver μ) :=
  let r := { r with nowNs := nowNs }
  match parsePacket datagram with
  | none => some { r with stats := { r.stats with malformed := r.stats.malformed + 1 } }
  | some p =>
    let (r, accepted) := r.acceptSession p
    if !accepted then some r
    else
      let r := r.notePacket p nowNs line
      let before := r.next
      match r.onKind fuel p nowNs rxMeta line with
      | none => none
      | some r => (if r.next ≠ before then r.onProgress else r).update nowNs fuel

def onTimer (nowNs : Int) : Option (Receiver μ) :=
  let r := { r with nowNs := nowNs }
  if r.next < r.highest then r.update nowNs fuel else some r

end Receiver

end FastMM.Mold
