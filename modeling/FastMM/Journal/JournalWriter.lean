/-
  Journal/JournalWriter.lean --- messages stamped and handed to the ring.

  Source: `include/fastmm/core/journal.hpp` (`JournalWriter`), `include/fastmm/core/messages.hpp`
  (`EventHeader`, `EngineTimeMsg`).

  A writer without a ring records nothing and is left out.  The reservation of a message is refused
  where the ring has no room, and where the producer does not yet see the room there is: `full` says
  of which numbers.  Times are subtracted modulo `2^64`.
-/
import FastMM.Journal.Writer
set_option autoImplicit false

namespace FastMM.Journal

open Foundation Journal.EventHeader List

/-! ## Stamps -/

namespace EventHeader

def kSynthetic : UInt8 := 1
def kOutbound : UInt8 := 8
def kDropped : UInt8 := 32

/-- The flags of a record: the journal's own are its, never those of the message copied. -/
def recordFlags (flags setFlags : UInt8) : UInt8 :=
  (flags &&& ~~~(kEngineTime ||| kDropped)) ||| setFlags

/-- A copied message with the fields that the journal sets. -/
def stamp (m : List UInt8) (seq : UInt64) (setFlags : UInt8) (reserved0 : UInt32) : List UInt8 :=
  patch 12 (le32 reserved0) (patch 7 [recordFlags (flags m) setFlags] (patch 16 (le64 seq) m))

variable {m : List UInt8} {seq : UInt64} {setFlags : UInt8} {reserved0 : UInt32}

theorem length_patches (seq : UInt64) (setFlags : UInt8) (hm : 64 ≤ m.length) :
    (patch 16 (le64 seq) m).length = m.length ∧
      (patch 7 [recordFlags (flags m) setFlags] (patch 16 (le64 seq) m)).length = m.length := by
  have hseq : (patch 16 (le64 seq) m).length = m.length := by
    rw [length_patch]
    rw [length_le64]
    omega
  refine ⟨hseq, ?_⟩
  rw [length_patch, hseq]
  rw [hseq, length_singleton]
  omega

section

variable (hm : 64 ≤ m.length)
include hm

@[simp] theorem length_stamp :
    (stamp m seq setFlags reserved0).length = m.length := by
  obtain ⟨-, hflags⟩ := length_patches seq setFlags hm
  unfold stamp
  rw [length_patch, hflags]
  rw [hflags, length_le32]
  omega

/-- The other bytes are the message's. -/
theorem getElem?_stamp {i : Nat} (hi : i < 7 ∨ 24 ≤ i) :
    (stamp m seq setFlags reserved0)[i]? = m[i]? := by
  obtain ⟨hseq, hflags⟩ := length_patches seq setFlags hm
  have h32 := length_le32 reserved0
  have h64 := length_le64 seq
  unfold stamp
  rcases hi with hi | hi
  · rw [getElem?_patch_of_lt (by omega) (by omega), getElem?_patch_of_lt (by omega) (by omega),
      getElem?_patch_of_lt (by omega) (by omega)]
  rw [getElem?_patch_of_ge (by omega) (by omega), getElem?_patch_of_ge (by omega) ?_,
    getElem?_patch_of_ge (by omega) (by omega)]
  rw [length_singleton]
  omega

@[simp] theorem type_stamp : type (stamp m seq setFlags reserved0) = type m := by
  unfold type
  rw [getD_eq_getElem?_getD, getD_eq_getElem?_getD, getElem?_stamp hm (.inl (by decide))]

@[simp] theorem engineTs_stamp :
    engineTs (stamp m seq setFlags reserved0) = engineTs m := by
  unfold engineTs
  rw [slice_congr fun i hi _ => getElem?_stamp hm (.inr (by omega))]

theorem take_stamp : (stamp m seq setFlags reserved0).take 4 = m.take 4 := by
  refine ext_getElem? fun i => ?_
  rw [getElem?_take, getElem?_take]
  split_ifs with hi
  · rw [getElem?_stamp hm (.inl (by omega))]
  · rfl

@[simp] theorem reserved0_stamp :
    EventHeader.reserved0 (stamp m seq setFlags reserved0) = reserved0 := by
  obtain ⟨-, hflags⟩ := length_patches seq setFlags hm
  have hslice := slice_patch 12 (le32 reserved0)
    (show 12 ≤ (patch 7 [recordFlags (flags m) setFlags] (patch 16 (le64 seq) m)).length by omega)
  rw [length_le32] at hslice
  unfold EventHeader.reserved0 stamp
  rw [hslice, read32_le32]

@[simp] theorem flags_stamp :
    flags (stamp m seq setFlags reserved0) = recordFlags (flags m) setFlags := by
  obtain ⟨hseq, hflags⟩ := length_patches seq setFlags hm
  have hget : (stamp m seq setFlags reserved0)[7]? = some (recordFlags (flags m) setFlags) := by
    unfold stamp
    rw [getElem?_patch_of_lt (by omega) (by omega)]
    exact getElem?_patch 7 0 (by omega) Nat.one_pos
  unfold flags
  rw [getD_eq_getElem?_getD, hget]
  rfl

end

/-- A record has the engine time's flag where it is set. -/
theorem recordFlags_engineTime (flags setFlags : UInt8) :
    recordFlags flags setFlags &&& kEngineTime = setFlags &&& kEngineTime := by
  have hcleared : flags &&& ~~~(kEngineTime ||| kDropped) &&& kEngineTime = 0 := by
    rw [UInt8.and_assoc, show ~~~(kEngineTime ||| kDropped) &&& kEngineTime = 0 by decide,
      UInt8.and_zero]
  have hbits := congrArg UInt8.toBitVec hcleared
  apply UInt8.toBitVec_inj.mp
  unfold recordFlags
  rw [UInt8.toBitVec_and] at hbits
  rw [UInt8.toBitVec_and, UInt8.toBitVec_or, BitVec.and_or_distrib_right, hbits, UInt8.toBitVec_and]
  exact BitVec.zero_or

end EventHeader

/-- A copy of a message is one. -/
def Msg.stamp (m : Msg) (seq : UInt64) (setFlags : UInt8) (reserved0 : UInt32) : Msg where
  bytes := EventHeader.stamp m.bytes seq setFlags reserved0
  isMsg := by
    have hlong := m.isMsg.long
    refine ⟨?_, ?_, ?_, ?_⟩
    · rw [length_stamp hlong]
      exact m.isMsg.granular
    · rw [length_stamp hlong]
      exact m.isMsg.long
    · rw [length_stamp hlong, take_stamp hlong]
      exact m.isMsg.len
    · rw [getElem?_stamp hlong (.inl (by decide))]
      exact m.isMsg.type
  fits := by
    rw [length_stamp m.isMsg.long]
    exact m.fits

/-! ## What is recorded -/

/-- A message of a session: the records of the engine clock are the writer's own. -/
structure SessionMsg extends Msg where
  notClock : EventHeader.type bytes ≠ kEventEngineTime

/-- `EngineTimeMsg::Kind`. -/
inductive EngineTimeKind where
  | sync
  | start
  | finish
  deriving DecidableEq, Repr

def EngineTimeKind.value : EngineTimeKind → UInt8
  | .sync => 0
  | .start => 1
  | .finish => 2

/-- `init_header` of an `EngineTimeMsg` that is synthetic, and its fields. -/
def engineTimeBytes (kind : EngineTimeKind) (engineTs : Int64) : List UInt8 :=
  le32 128 ++ ([kEventEngineTime, 1, 255, kSynthetic] ++ (le32 0xFFFFFFFF ++
    (List.replicate 52 0 ++ (leInt64 engineTs ++ (kind.value :: List.replicate 55 0)))))

theorem length_engineTimeBytes (kind : EngineTimeKind) (engineTs : Int64) :
    (engineTimeBytes kind engineTs).length = 128 := by
  unfold engineTimeBytes
  simp

def engineTimeMsg (kind : EngineTimeKind) (engineTs : Int64) : Msg where
  bytes := engineTimeBytes kind engineTs
  isMsg := by
    refine ⟨?_, ?_, ?_, ?_⟩
    · rw [length_engineTimeBytes]
      decide
    · rw [length_engineTimeBytes]
      decide
    · rw [length_engineTimeBytes]
      unfold engineTimeBytes
      rw [take_left' (length_le32 128)]
      rfl
    · unfold engineTimeBytes
      rw [getElem?_append_right (by rw [length_le32]), length_le32]
      exact fun h => absurd (Option.some.inj h) (by decide)
  fits := by
    rw [length_engineTimeBytes]
    decide

@[simp] theorem type_engineTimeMsg (kind : EngineTimeKind) (engineTs : Int64) :
    EventHeader.type (engineTimeMsg kind engineTs).bytes = kEventEngineTime := rfl

@[simp] theorem engineTs_engineTimeMsg (kind : EngineTimeKind) (engineTs : Int64) :
    EventHeader.engineTs (engineTimeMsg kind engineTs).bytes = engineTs := by
  have hslice := slice_middle
    (le32 128 ++ ([kEventEngineTime, 1, 255, kSynthetic] ++ (le32 0xFFFFFFFF ++
      List.replicate 52 (0 : UInt8)))) (leInt64 engineTs) (kind.value :: List.replicate 55 0)
  have hlen : (le32 128 ++ ([kEventEngineTime, 1, 255, kSynthetic] ++
      (le32 0xFFFFFFFF ++ List.replicate 52 (0 : UInt8)))).length = 64 := by simp
  rw [hlen, length_leInt64] at hslice
  unfold EventHeader.engineTs engineTimeMsg engineTimeBytes
  simp only [append_assoc] at hslice
  rw [hslice, readInt64_leInt64]

/-- A head of 128 bytes and the payload after it, padded with zeros to the head's length. -/
structure HeadAndPayload where
  head : List UInt8
  payload : List UInt8
  head128 : head.length = 128
  granular : kRingMsgGranule ∣ EventHeader.len head
  room : 128 + payload.length ≤ EventHeader.len head
  fits : EventHeader.len head ≤ kJournalBlockBytes
  type : head[4]? ≠ some kRingPaddingType
  notClock : EventHeader.type head ≠ kEventEngineTime

namespace HeadAndPayload

variable (h : HeadAndPayload)

def bytes : List UInt8 :=
  h.head ++ (h.payload ++ List.replicate (EventHeader.len h.head - 128 - h.payload.length) 0)

theorem length_bytes : h.bytes.length = EventHeader.len h.head := by
  have hroom := h.room
  unfold bytes
  rw [length_append, length_append, length_replicate, h.head128]
  omega

def msg : SessionMsg where
  bytes := h.bytes
  isMsg := by
    have hroom := h.room
    refine ⟨?_, ?_, ?_, ?_⟩
    · rw [h.length_bytes]
      exact h.granular
    · rw [h.length_bytes]
      unfold kRingMsgGranule
      omega
    · rw [h.length_bytes]
      unfold bytes
      rw [take_append_of_le_length (by rw [h.head128]; omega)]
      rfl
    · unfold bytes
      rw [getElem?_append_left (by rw [h.head128]; omega)]
      exact h.type
  fits := by
    rw [h.length_bytes]
    exact h.fits
  notClock := by
    have hget : h.bytes[4]? = h.head[4]? := by
      unfold bytes
      rw [getElem?_append_left (by rw [h.head128]; omega)]
    unfold EventHeader.type
    rw [getD_eq_getElem?_getD, hget, ← getD_eq_getElem?_getD]
    exact h.notClock

end HeadAndPayload

/-! ## The writer -/

structure JournalWriter where
  nextSeq : UInt64 := 1
  overflows : UInt64 := 0
  lastEngineNs : Int64 := 0
  clockSynced : Bool := false

/-- The calls of a `JournalWriter`. -/
inductive JournalCall where
  | record (m : SessionMsg) (extraFlags : UInt8)
  | recordAt (m : SessionMsg) (engineTs : Int64)
  | recordClock (kind : EngineTimeKind) (engineTs : Int64)
  | recordWith (h : HeadAndPayload)
  | recordOutbound (m : SessionMsg) (dropped : Bool)

/-- A writer, the session its ring is of, and what the ring took, with the call each is from. -/
structure Recording where
  writer : JournalWriter := {}
  session : JournalSession
  recorded : List (JournalCall × List UInt8) := []

namespace Recording

variable (full : UInt64 → Bool) (r : Recording)

/-- `put`: whether the message was taken. -/
def put (call : JournalCall) (m : Msg) (setFlags : UInt8) (reserved0 : UInt32) : Bool × Recording :=
  let seq := r.writer.nextSeq
  let writer := { r.writer with nextSeq := seq + 1 }
  let m := m.stamp seq setFlags reserved0
  if full seq = false ∧ (r.session.ring.tryPush m.bytes).1 = true then
    (true,
      { writer := writer
        session := r.session.step (.push m)
        recorded := r.recorded ++ [(call, m.bytes)] })
  else
    (false, { r with
        writer := { writer with overflows := writer.overflows + 1, clockSynced := false }
        session := if full seq then r.session else r.session.step (.push m) })

def record (m : SessionMsg) (extraFlags : UInt8) : Bool × Recording :=
  r.put full (.record m extraFlags) m.toMsg extraFlags 0

def recordClock (kind : EngineTimeKind) (engineTs : Int64) : Bool × Recording :=
  let (taken, r) := r.put full (.recordClock kind engineTs) (engineTimeMsg kind engineTs) 0 0
  if taken then
    (true, { r with writer := { r.writer with lastEngineNs := engineTs, clockSynced := true } })
  else (false, r)

/-- The end of `record_at`: a record that is `d` after the last. -/
def putAt (m : SessionMsg) (engineTs d : Int64) : Bool × Recording :=
  let (taken, r) :=
    r.put full (.recordAt m engineTs) m.toMsg kEngineTime d.toUInt64.toUInt32
  if taken then (true, { r with writer := { r.writer with lastEngineNs := engineTs } })
  else (false, r)

def recordAt (m : SessionMsg) (engineTs : Int64) : Bool × Recording :=
  let d := engineTs - r.writer.lastEngineNs
  if r.writer.clockSynced = false ∨ Int32.maxValue.toInt64 < d ∨ d < Int32.minValue.toInt64 then
    let (taken, r) := r.recordClock full .sync engineTs
    if taken then r.putAt full m engineTs 0 else (false, r)
  else r.putAt full m engineTs d

def recordWith (h : HeadAndPayload) : Bool × Recording :=
  r.put full (.recordWith h) h.msg.toMsg 0 0

def recordOutbound (m : SessionMsg) (dropped : Bool) : Bool × Recording :=
  r.put full (.recordOutbound m dropped) m.toMsg
    (if dropped then kOutbound ||| kDropped else kOutbound) 0

def call : JournalCall → Bool × Recording
  | .record m extraFlags => r.record full m extraFlags
  | .recordAt m engineTs => r.recordAt full m engineTs
  | .recordClock kind engineTs => r.recordClock full kind engineTs
  | .recordWith h => r.recordWith full h
  | .recordOutbound m dropped => r.recordOutbound full m dropped

end Recording

/-- The calls of the file's side. -/
inductive DrainCall where
  | drainOnce
  | flushBlock
  | runOnce (due : Bool)

def DrainCall.op : DrainCall → JournalOp
  | .drainOnce => .drainOnce
  | .flushBlock => .flushBlock
  | .runOnce due => .runOnce due

inductive RecordingOp where
  | call (c : JournalCall)
  | drain (c : DrainCall)

namespace Recording

variable (full : UInt64 → Bool) (r : Recording)

def step : RecordingOp → Recording
  | .call c => (r.call full c).2
  | .drain c => { r with session := r.session.step c.op }

def run (ops : List RecordingOp) : Recording := ops.foldl (step full) r

def create (k : Nat) (path : Path) (info : JournalSessionInfo) (maxBytes : Nat) : Recording where
  session := .create k path info maxBytes

end Recording

end FastMM.Journal
