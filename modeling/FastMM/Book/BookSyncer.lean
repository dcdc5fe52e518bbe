/-
  Book/BookSyncer.lean --- the synchronisation of a book with its venue's stream.

  Source: `include/fastmm/core/book/book_syncer.hpp` (`BookSyncer` and its traits).

  The syncer holds the stream's deltas back until a snapshot brackets them, hands
  both on, and starts over at a gap.  The venue's rules are a parameter, as in the
  source.  Its calls to the sink come back as a list; a call of `on_delta` carries
  what `last_update_id()` returns at that moment.  Update ids are `uint64`: the
  successor wraps.
-/
import FastMM.Book.L2Book
import FastMM.Foundation.MessageArena
set_option autoImplicit false

namespace FastMM

open Foundation

/-- `BookDeltaMsg::size_for`: a multiple of 64 bytes. -/
def BookDeltaMsg.len (d : BookDeltaMsg) : Nat :=
  (96 + (d.bids.length + d.asks.length) * 16 + 63) / 64 * 64

theorem BookDeltaMsg.len_pos (d : BookDeltaMsg) : 0 < d.len := by
  unfold BookDeltaMsg.len
  omega

instance : Inhabited BookDeltaMsg := ⟨{}⟩

/-! ## Rules of a venue -/

inductive SyncState where
  | idle
  | buffering
  | synced
  | resync
  deriving DecidableEq, Repr

inductive SyncReason where
  | none
  | sequenceGap
  | bufferOverflow
  | snapshotTooOld
  | explicit
  | snapshotMarker
  | checksumMismatch
  deriving DecidableEq, Repr

/-- The successor of an update id. -/
def nextId (id : Nat) : Nat := (id + 1) % 2 ^ 64

structure SyncTraits where
  kNeedsRestSnapshot : Bool
  kBuffersDeltas : Bool
  isStale : BookDeltaMsg → Nat → Bool
  firstApplies : BookDeltaMsg → Nat → Bool
  nextApplies : BookDeltaMsg → Nat → Bool
  isSnapshotMarker : BookDeltaMsg → Bool

def binanceSpotSyncTraits : SyncTraits where
  kNeedsRestSnapshot := true
  kBuffersDeltas := true
  isStale d snap := decide (d.lastUpdateId ≤ snap)
  firstApplies d snap := decide (d.firstUpdateId ≤ nextId snap ∧ nextId snap ≤ d.lastUpdateId)
  nextApplies d prevU := decide (d.firstUpdateId = nextId prevU)
  isSnapshotMarker _ := false

def binanceFuturesSyncTraits : SyncTraits where
  kNeedsRestSnapshot := true
  kBuffersDeltas := true
  isStale d snap := decide (d.lastUpdateId < snap)
  firstApplies d snap := decide (d.firstUpdateId ≤ snap ∧ snap ≤ d.lastUpdateId)
  nextApplies d prevU := decide (d.prevUpdateId = prevU)
  isSnapshotMarker _ := false

def bybitSyncTraits : SyncTraits where
  kNeedsRestSnapshot := false
  kBuffersDeltas := false
  isStale d snap := decide (d.lastUpdateId ≤ snap)
  firstApplies d snap := decide (snap < d.lastUpdateId)
  nextApplies d prevU := decide (prevU < d.lastUpdateId)
  isSnapshotMarker d := decide (d.lastUpdateId = 1) && !d.isSnapshot

/-! ## State -/

/-- A call of the sink. -/
inductive SinkCall where
  | onSnapshot (snap : BookDeltaMsg)
  | onDelta (d : BookDeltaMsg) (lastUpdateId : Nat)
  | onResync (reason : SyncReason)
  | requestSnapshot
  deriving DecidableEq, Repr

def kMaxBuffered : Nat := 4096

def kDefaultBufferBytes : Nat := 8 * 2 ^ 20

/-- `BookSyncer`.  The arena's offsets are 32 bits wide, so it is no larger. -/
structure BookSyncer where
  state : SyncState := .idle
  awaitingFirst : Bool := false
  prevU : Nat := 0
  resyncs : Nat := 0
  buf : MessageArena BookDeltaMsg := {}
  bufBytes : Nat := kDefaultBufferBytes
  bufBytes_le : bufBytes ≤ 2 ^ 32 := by decide

namespace BookSyncer

section Operations

variable (T : SyncTraits)

/-- `buffer`: `none` when the arena has no room. -/
def buffer (s : BookSyncer) (d : BookDeltaMsg) : Option BookSyncer :=
  (s.buf.push BookDeltaMsg.len kMaxBuffered s.bufBytes d).map (fun buf => { s with buf := buf })

def dropFront (s : BookSyncer) (n : Nat) : BookSyncer :=
  { s with buf := s.buf.dropFront BookDeltaMsg.len n }

def resetBuffer (s : BookSyncer) : BookSyncer := { s with buf := s.buf.reset }

def start (s : BookSyncer) : BookSyncer × List SinkCall :=
  ({ s.resetBuffer with awaitingFirst := false, state := .buffering },
    if T.kNeedsRestSnapshot then [.requestSnapshot] else [])

/-- `resync`.  The state `Resync` stands only while the sink is told. -/
def resync (s : BookSyncer) (reason : SyncReason) : BookSyncer × List SinkCall :=
  let s := { s with resyncs := s.resyncs + 1, state := .resync }
  let (s, calls) := s.start T
  (s, .onResync reason :: calls)

/-- `buffer`, and a resync where it fails. -/
def bufferOrResync (s : BookSyncer) (d : BookDeltaMsg) : BookSyncer × List SinkCall :=
  match s.buffer d with
  | some s => (s, [])
  | none => s.resync T .bufferOverflow

def resyncKeeping (s : BookSyncer) (d : BookDeltaMsg) : BookSyncer × List SinkCall :=
  let (s, calls) := s.resync T .sequenceGap
  if T.kBuffersDeltas ∧ s.state = .buffering then
    let (s, more) := s.bufferOrResync T d
    (s, calls ++ more)
  else (s, calls)

/-- Handing a delta on. -/
def apply (s : BookSyncer) (d : BookDeltaMsg) : BookSyncer × List SinkCall :=
  ({ s with prevU := d.lastUpdateId }, [.onDelta d d.lastUpdateId])

/-- `on_delta` in state `Synced`. -/
def onDeltaSynced (s : BookSyncer) (d : BookDeltaMsg) : BookSyncer × List SinkCall :=
  if T.kBuffersDeltas ∧ s.awaitingFirst then
    -- The first delta behind the snapshot may overlap it.
    if T.isStale d s.prevU then (s, [])
    else if T.firstApplies d s.prevU then { s with awaitingFirst := false }.apply d
    else s.resyncKeeping T d
  else if T.nextApplies d s.prevU then s.apply d
  else if T.isStale d s.prevU then (s, [])
  else s.resyncKeeping T d

/-- The first buffered delta, from `i` on, that is not stale. -/
def firstFresh (s : BookSyncer) (L : Nat) : Nat → Nat → Nat
  | 0, i => i
  | n + 1, i => if T.isStale (s.buf.get i) L then firstFresh s L n (i + 1) else i

/-- The replay loop of `on_snapshot`: `n` buffered deltas, from `i` on. -/
def replay (L : Nat) : Nat → Nat → Bool → BookSyncer → BookSyncer × List SinkCall
  | 0, _, first, s => ({ s.resetBuffer with awaitingFirst := first }, [])
  | n + 1, i, first, s =>
    let d := s.buf.get i
    if (if first then T.firstApplies d L else T.nextApplies d s.prevU) then
      let (s, calls) := s.apply d
      let (s, more) := replay L n (i + 1) false s
      (s, calls ++ more)
    else
      -- The stream has a gap before `d`: it and what follows start the next attempt.
      ({ s.dropFront i with
          resyncs := s.resyncs + 1, awaitingFirst := false, state := .buffering },
        [.onResync .sequenceGap, .requestSnapshot])

def onSnapshot (s : BookSyncer) (snap : BookDeltaMsg) : BookSyncer × List SinkCall :=
  if s.state = .idle then (s, [])
  else
    let L := snap.lastUpdateId
    if T.kBuffersDeltas then
      let i := s.firstFresh T L s.buf.count 0
      if i < s.buf.count ∧ T.firstApplies (s.buf.get i) L = false then
        -- The buffered stream starts behind the snapshot: it is too old.
        ({ s.dropFront i with resyncs := s.resyncs + 1 },
          [.onResync .snapshotTooOld, .requestSnapshot])
      else
        let (s, calls) := replay T L (s.buf.count - i) i true
          { s with prevU := L, state := .synced }
        (s, .onSnapshot snap :: calls)
    else ({ s with prevU := L, state := .synced }, [.onSnapshot snap])

def onDelta (s : BookSyncer) (d : BookDeltaMsg) : BookSyncer × List SinkCall :=
  if d.isSnapshot then s.onSnapshot T d
  else if T.isSnapshotMarker d then s.resync T .snapshotMarker
  else
    match s.state with
    | .idle => (s, [])
    | .resync => (s, [])
    | .buffering => if T.kBuffersDeltas then s.bufferOrResync T d else (s, [])
    | .synced => s.onDeltaSynced T d

/-! ## Runs -/

/-- What reaches the syncer. -/
inductive Event where
  | start
  | resync (reason : SyncReason)
  | delta (d : BookDeltaMsg)
  | snapshot (snap : BookDeltaMsg)

/-- What an event does, and the calls it makes. -/
def step (s : BookSyncer) : Event → BookSyncer × List SinkCall
  | .start => s.start T
  | .resync reason => s.resync T reason
  | .delta d => s.onDelta T d
  | .snapshot snap => s.onSnapshot T snap

/-- The syncer after a sequence of events, and all calls it made. -/
def run (s : BookSyncer) : List Event → BookSyncer × List SinkCall
  | [] => (s, [])
  | e :: es =>
    let (s, calls) := s.step T e
    let (s, more) := run s es
    (s, calls ++ more)

end Operations

end BookSyncer

end FastMM
