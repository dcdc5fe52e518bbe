/-
  Mdp3/Feed.lean --- one MDP 3.0 channel: two lines arbitrated into one stream.

  Source: `include/fastmm/codecs/mdp3/mdp3_feed.hpp`, `src/codecs/mdp3/mdp3_feed.cpp`
  (`on_incremental` down to `emit_state`, `buffer_append`, `buffer_clear`) and
  `src/codecs/mdp3/mdp3_decoder.cpp` (`mark_recovering`, `mark_all_recovering`).

  What the decoder does with one packet and whether the sink takes a message stay open
  (`Outside`): the feed must arbitrate right whatever they do.  A datagram is its bytes,
  and its MsgSeqNum is read from them.

  `log` is a history variable: the packets handed to the decoder, the losses and the
  markings, in the order they happened.  Nothing in the source reads it.
-/
import FastMM.Foundation.SequenceCover
set_option autoImplicit false

namespace FastMM.Mdp3

/-! ## Constants, enumerations and messages -/

def kPacketHeaderSize : Nat := 12
def kMaxPacketBytes : Nat := 1500

/-- The bounds of `std::uint32_t` and `std::int64_t`. -/
def u32Max : Nat := 4294967295
def i64Max : Int := 9223372036854775807

/-- `++` on a `std::uint32_t`. -/
def next32 (n : Nat) : Nat := (n + 1) % 4294967296

/-- `sbe::load_le<std::uint32_t>`: the MsgSeqNum a datagram starts with. -/
def msgSeqNum (datagram : List UInt8) : Nat :=
  (datagram.take 4).foldr (fun b acc => b.toNat + 256 * acc) 0

inductive FeedLine where
  | A
  | B
deriving DecidableEq, Repr

inductive ConnState where
  | Disconnected
  | Connecting
  | Live
  | Stale
  | Resyncing
  | Dead
deriving DecidableEq, Repr

inductive ResyncReason where
  | None
  | LateJoin
  | PacketGap
  | RptSeqGap
  | BookError
  | SinkOverflow
deriving DecidableEq, Repr

inductive ParseStatus where
  | Ok
  | Ignored
  | Malformed
  | UnknownSymbol
  | Overflow
  | Error
deriving DecidableEq, Repr

/-- `ConnectionStateMsg` as the feed fills it; the channel is always 0. -/
structure ConnectionStateMsg where
  recvTs : Int
  state : ConnState
  reasonCode : ResyncReason
deriving DecidableEq, Repr

structure Mdp3DecodeEvents where
  rptGap : Bool := false
  bookError : Bool := false
  overflow : Bool := false
  channelReset : Bool := false
deriving DecidableEq, Repr

def Mdp3DecodeEvents.needsRecovery (ev : Mdp3DecodeEvents) : Bool :=
  ev.rptGap || ev.bookError || ev.overflow

/-! ## The decoder, as far as the feed drives it -/

/-- `Mdp3Decoder`: which of the known instruments are recovering, how many it counts as
recovering, whether new ones start so, and the rest of its state. -/
structure Mdp3Decoder (δ : Type) where
  recovering : List Bool
  recoveringCount : Nat
  newRecovering : Bool
  rest : δ

namespace Mdp3Decoder

variable {δ : Type}
variable (d : Mdp3Decoder δ)

def markRecovering (index : Nat) : Mdp3Decoder δ :=
  if d.recovering[index]? = some false then
    { d with
      recovering := d.recovering.set index true
      recoveringCount := d.recoveringCount + 1 }
  else d

def markAllRecovering : Mdp3Decoder δ :=
  (List.range d.recovering.length).foldl markRecovering d

def setNewInstrumentsRecovering (on : Bool) : Mdp3Decoder δ :=
  { d with newRecovering := on }

/-- Every instrument `known` knows is recovering in `d`. -/
def AllMarked (known d : Mdp3Decoder δ) : Prop :=
  ∀ i, i < known.recovering.length → d.recovering[i]? = some true

end Mdp3Decoder

/-- What `decode_packet`, and `take_events` after it, leave. -/
structure Decoded (δ σ : Type) where
  decoder : Mdp3Decoder δ
  sink : σ
  events : Mdp3DecodeEvents
  status : ParseStatus

/-- The code around the arbitration: `Mdp3Decoder::decode_packet` and
`EventSink::reserve` with the commit after it (`none` when the sink is full). -/
structure Outside (δ σ : Type) where
  decodePacket : Mdp3Decoder δ → List UInt8 → Int → σ → Decoded δ σ
  commit : σ → ConnectionStateMsg → Option σ

/-! ## State -/

structure Mdp3FeedConfig where
  reorderWindow : Nat := 64
  gapTimeoutNs : Int := 2000000
  recoveryPackets : Nat := 8192
deriving DecidableEq, Repr

/-- `Mdp3FeedStats`, less the counters of the snapshot feed. -/
structure Mdp3FeedStats where
  packetsA : Nat := 0
  packetsB : Nat := 0
  accepted : Nat := 0
  duplicates : Nat := 0
  held : Nat := 0
  gaps : Nat := 0
  lostPackets : Nat := 0
  malformed : Nat := 0
  oversize : Nat := 0
  resyncs : Nat := 0
  bufferOverflows : Nat := 0
  stateMsgOverflows : Nat := 0
deriving DecidableEq, Repr

/-- A used `Slot`. -/
structure Slot where
  seq : Nat
  bytes : List UInt8
  rxTs : Int
deriving DecidableEq, Repr

/-- One entry of the history. -/
inductive Entry (δ : Type) where
  /-- The packet was handed to the decoder. -/
  | decoded (seq : Nat) (bytes : List UInt8)
  /-- `count` packets from `first` on were declared lost; the decoder was `known` then. -/
  | lost (first count : Nat) (known : Mdp3Decoder δ)
  /-- `mark_all_recovering` left the decoder so. -/
  | marked (decoder : Mdp3Decoder δ)

/-- `Mdp3Feed`, with the sink its calls are given. -/
structure Mdp3Feed (δ σ : Type) where
  cfg : Mdp3FeedConfig
  decoder : Mdp3Decoder δ
  sink : σ
  window : Nat
  /-- `held_`: one entry per slot, `none` when it is not used. -/
  held : List (Option Slot)
  /-- `buffer_` with its head and count: the buffered packets, oldest first. -/
  buffer : List Slot := []
  stats : Mdp3FeedStats := {}
  state : ConnState := .Connecting
  reason : ResyncReason := .None
  started : Bool := false
  expected : Nat := 0
  lastProcessed : Nat := 0
  heldCount : Nat := 0
  oldestHeldRx : Int := 0
  bufferFloor : Nat := 0
  loopActive : Bool := false
  log : List (Entry δ) := []

namespace Mdp3Feed

variable {δ σ : Type} (o : Outside δ σ)
variable (seq : Nat)
variable (datagram : List UInt8)
variable (rxTs : Int)
variable (ev : Mdp3DecodeEvents)
variable (reason : ResyncReason)

/-- The constructor. -/
def create (cfg : Mdp3FeedConfig) (decoder : Mdp3Decoder δ) (sink : σ) : Mdp3Feed δ σ :=
  let window := (min (max cfg.reorderWindow 1) 1024).nextPowerOfTwo
  { cfg := { cfg with recoveryPackets := max cfg.recoveryPackets 1 }
    decoder := decoder
    sink := sink
    window := window
    held := List.replicate window none }

variable (f : Mdp3Feed δ σ)

/-! ## The recovery buffer -/

def bufferClear (floor : Nat) : Mdp3Feed δ σ :=
  { f with buffer := [], bufferFloor := floor }

def bufferAppend : Mdp3Feed δ σ :=
  if datagram.length > kMaxPacketBytes then f.bufferClear (next32 seq)
  else if f.cfg.recoveryPackets = 0 then f
  else if f.buffer.length = f.cfg.recoveryPackets then
    { f with
      buffer := f.buffer.tail ++ [⟨seq, datagram, rxTs⟩]
      stats := { f.stats with bufferOverflows := f.stats.bufferOverflows + 1 } }
  else { f with buffer := f.buffer ++ [⟨seq, datagram, rxTs⟩] }

/-! ## Connection state -/

def emitState (s : ConnState) (reason : ResyncReason) (rxTs : Int) : Mdp3Feed δ σ :=
  match o.commit f.sink ⟨rxTs, s, reason⟩ with
  | none =>
    { f with
      stats := { f.stats with stateMsgOverflows := f.stats.stateMsgOverflows + 1 } }
  | some sink => { f with sink := sink }

def enterResync (rxTs : Int) : Mdp3Feed δ σ :=
  if f.state = .Resyncing then f
  else
    { f with
      state := .Resyncing
      reason := reason
      loopActive := false
      stats := { f.stats with resyncs := f.stats.resyncs + 1 } }.emitState o .Resyncing reason rxTs

def maybeLive : Mdp3Feed δ σ :=
  if f.state ≠ .Resyncing ∨ f.decoder.recoveringCount ≠ 0 then f
  else
    let f := { f with state := .Live }.bufferClear f.expected
    { f with
      loopActive := false
      decoder := f.decoder.setNewInstrumentsRecovering false }.emitState o .Live .None rxTs

/-- `decoder_.mark_all_recovering()`. -/
def markAll : Mdp3Feed δ σ :=
  { f with
    decoder := f.decoder.markAllRecovering
    log := f.log ++ [Entry.marked f.decoder.markAllRecovering] }

/-- The `lost` packets before `expected_` will not come. -/
def onGap (lost : Nat) (rxTs : Int) : Mdp3Feed δ σ :=
  let f :=
    { f with
      stats := { f.stats with gaps := f.stats.gaps + 1, lostPackets := f.stats.lostPackets + lost }
      log := f.log ++ [Entry.lost (f.expected - lost) lost f.decoder] }
  let f := (f.bufferClear f.expected).markAll
  let f := { f with decoder := f.decoder.setNewInstrumentsRecovering true, loopActive := false }
  (f.enterResync o .PacketGap rxTs).maybeLive o rxTs

/-! ## Packets -/

/-- `process`, the books were emptied: older packets are useless. -/
def onChannelReset : Mdp3Feed δ σ :=
  let f := f.bufferClear (next32 seq)
  { f with decoder := f.decoder.setNewInstrumentsRecovering false }

/-- `process`, the decode found an instrument that needs a snapshot. -/
def onNeedsRecovery :
    Mdp3Feed δ σ :=
  let f := (f.bufferClear seq).bufferAppend seq datagram rxTs
  let why := if ev.rptGap then .RptSeqGap else if ev.bookError then .BookError else .SinkOverflow
  f.enterResync o why rxTs

/-- `process`, after the decode. -/
def onEvents :
    Mdp3Feed δ σ :=
  if ev.channelReset || ev.needsRecovery then
    let f := if ev.channelReset then f.onChannelReset seq else f
    let f :=
      if ev.needsRecovery ∧ f.state ≠ .Resyncing then f.onNeedsRecovery o seq datagram rxTs ev
      else f
    f.maybeLive o rxTs
  else f

def process : Mdp3Feed δ σ × ParseStatus :=
  let f :=
    { f with
      stats := { f.stats with accepted := f.stats.accepted + 1 }
      lastProcessed := seq
      log := f.log ++ [Entry.decoded seq datagram] }
  let f := if f.state = .Resyncing then f.bufferAppend seq datagram rxTs else f
  let d := o.decodePacket f.decoder datagram rxTs f.sink
  let f := { f with decoder := d.decoder, sink := d.sink }
  (f.onEvents o seq datagram rxTs d.events, d.status)

/-- `seq & (window_ - 1)`. -/
def slotIndex : Nat := seq &&& (f.window - 1)

def heldSlot : Option Slot :=
  if f.heldCount = 0 then none
  else
    match f.held[f.slotIndex seq]? with
    | some (some s) => if s.seq = seq then some s else none
    | _ => none

/-- `process_held` for the slot `held_slot` found. -/
def processHeld (s : Slot) : Mdp3Feed δ σ :=
  ({ f with
      held := f.held.set (f.slotIndex s.seq) none
      heldCount := f.heldCount - 1 }.process o s.seq s.bytes s.rxTs).1

/-- The used slots. -/
def usedSlots : List Slot := f.held.filterMap fun x => x

/-! ### What handing a packet to the decoder leaves alone -/

/-- The two states arbitrate alike: nothing but the recovery differs. -/
structure SameHolding (f g : Mdp3Feed δ σ) : Prop where
  cfg : g.cfg = f.cfg
  window : g.window = f.window
  held : g.held = f.held
  started : g.started = f.started
  expected : g.expected = f.expected
  heldCount : g.heldCount = f.heldCount
  oldestHeldRx : g.oldestHeldRx = f.oldestHeldRx
  lostPackets : g.stats.lostPackets = f.stats.lostPackets
  log : g.log = f.log

variable {f}

theorem SameHolding.refl : SameHolding f f := ⟨rfl, rfl, rfl, rfl, rfl, rfl, rfl, rfl, rfl⟩

theorem SameHolding.trans {g k : Mdp3Feed δ σ} (h₁ : SameHolding f g) (h₂ : SameHolding g k) :
    SameHolding f k :=
  ⟨h₂.cfg.trans h₁.cfg, h₂.window.trans h₁.window, h₂.held.trans h₁.held,
    h₂.started.trans h₁.started, h₂.expected.trans h₁.expected,
    h₂.heldCount.trans h₁.heldCount, h₂.oldestHeldRx.trans h₁.oldestHeldRx,
    h₂.lostPackets.trans h₁.lostPackets, h₂.log.trans h₁.log⟩

theorem bufferClear_same (floor : Nat) : SameHolding f (f.bufferClear floor) :=
  ⟨rfl, rfl, rfl, rfl, rfl, rfl, rfl, rfl, rfl⟩

theorem bufferAppend_same : SameHolding f (f.bufferAppend seq datagram rxTs) := by
  unfold bufferAppend
  split
  · exact bufferClear_same _
  · split
    · exact .refl
    · split <;> exact ⟨rfl, rfl, rfl, rfl, rfl, rfl, rfl, rfl, rfl⟩

theorem emitState_same (s : ConnState) (reason : ResyncReason) (rxTs : Int) :
    SameHolding f (f.emitState o s reason rxTs) := by
  unfold emitState
  split <;> exact ⟨rfl, rfl, rfl, rfl, rfl, rfl, rfl, rfl, rfl⟩

theorem enterResync_same (rxTs : Int) : SameHolding f (f.enterResync o reason rxTs) := by
  unfold enterResync
  split
  · exact .refl
  · refine .trans ?_ (emitState_same o _ _ _)
    exact ⟨rfl, rfl, rfl, rfl, rfl, rfl, rfl, rfl, rfl⟩

theorem maybeLive_same : SameHolding f (f.maybeLive o rxTs) := by
  unfold maybeLive
  split
  · exact .refl
  · refine .trans ?_ (emitState_same o _ _ _)
    exact ⟨rfl, rfl, rfl, rfl, rfl, rfl, rfl, rfl, rfl⟩

theorem onChannelReset_same : SameHolding f (f.onChannelReset seq) :=
  ⟨rfl, rfl, rfl, rfl, rfl, rfl, rfl, rfl, rfl⟩

theorem onNeedsRecovery_same : SameHolding f (f.onNeedsRecovery o seq datagram rxTs ev) :=
  ((bufferClear_same _).trans (bufferAppend_same _ _ _)).trans (enterResync_same o _ _)

theorem onEvents_same : SameHolding f (f.onEvents o seq datagram rxTs ev) := by
  unfold onEvents
  split
  · refine .trans ?_ (maybeLive_same o rxTs)
    have hreset : SameHolding f (if ev.channelReset = true then f.onChannelReset seq else f) := by
      split
      · exact onChannelReset_same seq
      · exact .refl
    generalize (if ev.channelReset = true then f.onChannelReset seq else f) = g at hreset ⊢
    refine hreset.trans ?_
    split
    · exact onNeedsRecovery_same o _ _ _ _
    · exact .refl
  · exact .refl

/-- `process` hands over one packet and touches the recovery only. -/
theorem process_same : SameHolding { f with log := f.log ++ [Entry.decoded seq datagram] }
      (f.process o seq datagram rxTs).1 := by
  refine .trans ?_ (onEvents_same o seq datagram rxTs _)
  split
  · have happ := bufferAppend_same (f :=
      { f with
        stats := { f.stats with accepted := f.stats.accepted + 1 }
        lastProcessed := seq
        log := f.log ++ [Entry.decoded seq datagram] }) seq datagram rxTs
    exact ⟨happ.cfg, happ.window, happ.held, happ.started, happ.expected, happ.heldCount,
      happ.oldestHeldRx, happ.lostPackets, happ.log⟩
  · exact ⟨rfl, rfl, rfl, rfl, rfl, rfl, rfl, rfl, rfl⟩

/-- `onGap` reports the loss and marks every known instrument. -/
theorem onGap_same (lost : Nat) (rxTs : Int) : SameHolding { f with
        stats := { f.stats with lostPackets := f.stats.lostPackets + lost }
        log := f.log ++ [Entry.lost (f.expected - lost) lost f.decoder,
          Entry.marked f.decoder.markAllRecovering] }
      (f.onGap o lost rxTs) := by
  refine .trans ?_ ((enterResync_same o _ _).trans (maybeLive_same o rxTs))
  exact ⟨rfl, rfl, rfl, rfl, rfl, rfl, rfl, rfl, by simp [markAll, bufferClear]⟩

/-- `processHeld` frees the slot and hands its packet over. -/
theorem processHeld_same (s : Slot) : SameHolding { f with
        held := f.held.set (f.slotIndex s.seq) none
        heldCount := f.heldCount - 1
        log := f.log ++ [Entry.decoded s.seq s.bytes] }
      (f.processHeld o s) :=
  process_same (f := { f with
    held := f.held.set (f.slotIndex s.seq) none
    heldCount := f.heldCount - 1 }) o s.seq s.bytes s.rxTs

theorem heldCount_pos_of_heldSlot {seq : Nat} {s : Slot} (h : f.heldSlot seq = some s) :
    0 < f.heldCount := by
  by_contra h0
  have hz : f.heldCount = 0 := Nat.eq_zero_of_not_pos h0
  simp [heldSlot, hz] at h

/-! ## The loops -/

variable (f)

/-- The loop of `drain`: the held packets that are next. -/
def drainLoop (f : Mdp3Feed δ σ) : Mdp3Feed δ σ :=
  match _h : f.heldSlot f.expected with
  | none => f
  | some s => drainLoop { f.processHeld o s with expected := next32 f.expected }
termination_by f.heldCount
decreasing_by
  have hpos := heldCount_pos_of_heldSlot _h
  have hcount := (processHeld_same (f := f) o s).heldCount
  simp only at hcount
  omega

def drain : Mdp3Feed δ σ :=
  let f := f.drainLoop o
  if f.heldCount ≠ 0 then
    { f with oldestHeldRx := f.usedSlots.foldl (fun m s => min m s.rxTs) i64Max }
  else f

/-- The inner loop of `advance_to`: to the next held packet, at most to `target`. -/
def skipHole (f : Mdp3Feed δ σ) (target : Nat) : Mdp3Feed δ σ :=
  if f.expected < target ∧ f.heldSlot f.expected = none then
    if f.heldCount = 0 then { f with expected := target }
    else skipHole { f with expected := f.expected + 1 } target
  else f
termination_by target - f.expected
decreasing_by
  omega

variable {f}

/-- `skipHole` moves `expected_` only, up and not past the target. -/
theorem skipHole_spec (target : Nat) (hle : f.expected ≤ target) :
    ∃ e, f.skipHole target = { f with expected := e } ∧ f.expected ≤ e ∧ e ≤ target := by
  fun_induction skipHole f target with
  | case1 f hc hz => exact ⟨target, rfl, hle, le_refl _⟩
  | case2 f hc hz ih =>
    obtain ⟨e, he, hlo, hhi⟩ := ih hc.1
    exact ⟨e, he, le_trans (Nat.le_succ _) hlo, hhi⟩
  | case3 f hc => exact ⟨f.expected, rfl, le_refl _, hle⟩

/-- A hole is at least one packet. -/
theorem lt_skipHole {target : Nat} (hlt : f.expected < target)
    (hnone : f.heldSlot f.expected = none) :
    f.expected < (f.skipHole target).expected := by
  unfold skipHole
  rw [if_pos ⟨hlt, hnone⟩]
  split
  · exact hlt
  obtain ⟨e, he, hlo, -⟩ :=
    skipHole_spec (f := { f with expected := f.expected + 1 }) target hlt
  rw [he]
  exact hlo

variable (f)

/-- Moves `expected_` up to `target`: the held packets below it are processed in order and
the holes between them are lost.  `expected_` is below a 32-bit number at its `++`. -/
def advanceTo (f : Mdp3Feed δ σ) (target : Nat) (rxTs : Int) : Mdp3Feed δ σ :=
  if _hlt : f.expected < target then
    match _hs : f.heldSlot f.expected with
    | some s => advanceTo { f.processHeld o s with expected := f.expected + 1 } target rxTs
    | none =>
      let g := f.skipHole target
      advanceTo (g.onGap o (g.expected - f.expected) rxTs) target rxTs
  else f
termination_by target - f.expected
decreasing_by
  · omega
  have hup := lt_skipHole _hlt _hs
  have hsame := (onGap_same (f := f.skipHole target) o
    ((f.skipHole target).expected - f.expected) rxTs).expected
  simp only at hsame
  omega

def expireHeld (nowNs : Int) : Mdp3Feed δ σ :=
  if f.heldCount = 0 ∨ nowNs - f.oldestHeldRx < f.cfg.gapTimeoutNs then f
  else
    let lowest := f.usedSlots.foldl (fun m s => min m s.seq) u32Max
    (f.advanceTo o lowest nowNs).drain o

def onTimer (nowNs : Int) : Mdp3Feed δ σ := f.expireHeld o nowNs

/-! ## One datagram -/

/-- `++stats_.packets[line]`. -/
def countPacket (line : FeedLine) : Mdp3Feed δ σ :=
  match line with
  | .A => { f with stats := { f.stats with packetsA := f.stats.packetsA + 1 } }
  | .B => { f with stats := { f.stats with packetsB := f.stats.packetsB + 1 } }

/-- `on_incremental`, the first packet of the channel. -/
def start : Mdp3Feed δ σ :=
  let f := { f with started := true, expected := seq, bufferFloor := seq }
  if seq = 1 then { f with state := .Live }.emitState o .Live .None rxTs
  else
    let f := { f with decoder := f.decoder.setNewInstrumentsRecovering true }
    f.markAll.enterResync o .LateJoin rxTs

/-- `on_incremental`, the packet in sequence. -/
def take : Mdp3Feed δ σ × ParseStatus :=
  let (f, st) := f.process o seq datagram rxTs
  let f := { f with expected := next32 f.expected }
  (if f.heldCount ≠ 0 then f.drain o else f, st)

/-- `on_incremental`, a copy of a packet processed or held before. -/
def duplicate : Mdp3Feed δ σ × ParseStatus :=
  ({ f with stats := { f.stats with duplicates := f.stats.duplicates + 1 } }, .Ignored)

/-- `on_incremental`, a packet ahead of sequence is copied into its slot. -/
def hold : Mdp3Feed δ σ :=
  { f with
    held := f.held.set (f.slotIndex seq) (some ⟨seq, datagram, rxTs⟩)
    oldestHeldRx := if f.heldCount = 0 then rxTs else min f.oldestHeldRx rxTs
    heldCount := f.heldCount + 1
    stats := { f.stats with held := f.stats.held + 1 } }

/-- `on_incremental`, a packet that cannot be held: everything missing below it is lost. -/
def jump : Mdp3Feed δ σ × ParseStatus :=
  let f :=
    if datagram.length > kMaxPacketBytes then
      { f with stats := { f.stats with oversize := f.stats.oversize + 1 } }
    else f
  (f.advanceTo o seq rxTs).take o seq datagram rxTs

/-- `on_incremental`, once the channel has started and old packets have expired. -/
def arbitrate : Mdp3Feed δ σ × ParseStatus :=
  if seq = f.expected then f.take o seq datagram rxTs
  else if seq < f.expected then f.duplicate
  else if seq - f.expected ≥ f.window ∨ datagram.length > kMaxPacketBytes then
    f.jump o seq datagram rxTs
  else
    match f.held[f.slotIndex seq]? with
    | some (some s) => if s.seq = seq then f.duplicate else (f.hold seq datagram rxTs, .Ok)
    | _ => (f.hold seq datagram rxTs, .Ok)

def onIncremental (line : FeedLine) (datagram : List UInt8) (rxTs : Int) :
    Mdp3Feed δ σ × ParseStatus :=
  let f := f.countPacket line
  if datagram.length < kPacketHeaderSize then
    ({ f with stats := { f.stats with malformed := f.stats.malformed + 1 } }, .Malformed)
  else
    let seq := msgSeqNum datagram
    let f := if f.started then f else f.start o seq rxTs
    let f := if f.heldCount ≠ 0 then f.expireHeld o rxTs else f
    f.arbitrate o seq datagram rxTs

end Mdp3Feed

/-! ## Runs -/

/-- What reaches the feed: a datagram of one of the lines, or a timer. -/
inductive FeedCall where
  | incremental (line : FeedLine) (datagram : List UInt8) (rxTs : Int)
  | timer (nowNs : Int)
deriving Repr

variable {δ σ : Type} (o : Outside δ σ)

/-- One call. -/
def Mdp3Feed.call (f : Mdp3Feed δ σ) : FeedCall → Mdp3Feed δ σ
  | .incremental line datagram rxTs => (f.onIncremental o line datagram rxTs).1
  | .timer nowNs => f.onTimer o nowNs

/-- The calls in the order they come. -/
def Mdp3Feed.run (f : Mdp3Feed δ σ) (calls : List FeedCall) : Mdp3Feed δ σ :=
  calls.foldl (Mdp3Feed.call o) f

/-- The datagram carries a packet. -/
def carriesPacket (datagram : List UInt8) : Bool :=
  kPacketHeaderSize ≤ datagram.length

/-- The first packet to arrive on either line. -/
def firstSeen : List FeedCall → Option Nat
  | [] => none
  | .incremental _ datagram _ :: calls =>
    if carriesPacket datagram then some (msgSeqNum datagram) else firstSeen calls
  | .timer _ :: calls => firstSeen calls

/-- Both lines carry the packets of one channel, numbered below 2^32 - 1; what is too
short to be a packet may be anything. -/
def FeedCall.Of (packet : Nat → List UInt8) : FeedCall → Prop
  | .incremental _ datagram _ =>
    carriesPacket datagram = true →
      msgSeqNum datagram < u32Max ∧ datagram = packet (msgSeqNum datagram)
  | .timer _ => True

end FastMM.Mdp3
