/-
  Mold/Packet.lean --- MoldUDP64 packets, built and taken apart.

  Source: `include/fastmm/codecs/moldudp/moldudp64.hpp` (`PacketView`, `RequestView`,
  `MessageFramer`) and `src/codecs/moldudp/moldudp64.cpp` (`parse_packet`, `parse_request`,
  `PacketBuilder`, `write_heartbeat`, `write_end_of_session`, `write_request`).

  A datagram is a list of bytes: a session of ten, a big-endian sequence number of eight, a
  big-endian count of two, and then one block for each message, its length in two bytes.
-/
import FastMM.Foundation.BigEndian
set_option autoImplicit false

namespace FastMM.Mold

open Foundation List

/-! ## Taking apart -/

variable (msgs : List (List UInt8))
variable (datagram : List UInt8)

def kSessionLength : Nat := 10
def kHeaderLength : Nat := 20
def kRequestLength : Nat := 20
def kHeartbeatCount : Nat := 0
def kEndOfSessionCount : Nat := 65535
def kMaxMessageLength : Nat := 65535
def kMaxMessagesPerPacket : Nat := 65534

abbrev SessionId : Type := List UInt8

def kBlankSession : SessionId := List.replicate kSessionLength 32

def isBlank (s : SessionId) : Bool := s = kBlankSession

inductive PacketKind where
  | Data
  | Heartbeat
  | EndOfSession
deriving DecidableEq, Repr

/-- A packet: the sequence is the first message's, or the next expected one of a heartbeat. -/
structure PacketView where
  session : SessionId := kBlankSession
  sequence : Nat := 0
  count : Nat := 0
  kind : PacketKind := .Data
  blocks : List UInt8 := []
deriving DecidableEq, Repr

/-- Addition of `std::uint64_t`. -/
def add64 (a b : Nat) : Nat := (a + b) % 18446744073709551616

def PacketView.nextSequence (p : PacketView) : Nat := add64 p.sequence p.count

structure RequestView where
  session : SessionId := kBlankSession
  sequence : Nat := 0
  count : Nat := 0
deriving DecidableEq, Repr

/-- `MessageFramer::next`: the first block's message, and what follows the block. -/
def nextBlock (rest : List UInt8) : Option (List UInt8 × List UInt8) :=
  if rest.length < 2 then none
  else
    let n := loadBe (rest.take 2)
    if rest.length < 2 + n then none
    else some ((rest.drop 2).take n, rest.drop (2 + n))

/-- The loop of `parse_packet`: what follows `count` blocks. -/
def skipBlocks : Nat → List UInt8 → Option (List UInt8)
  | 0, rest => some rest
  | count + 1, rest =>
    match nextBlock rest with
    | none => none
    | some (_, rest') => skipBlocks count rest'

def parsePacket : Option PacketView :=
  if datagram.length < kHeaderLength then none
  else
    let session := datagram.take kSessionLength
    let sequence := loadBe ((datagram.drop 10).take 8)
    let rawCount := loadBe ((datagram.drop 18).take 2)
    let blocks := datagram.drop kHeaderLength
    if rawCount = kHeartbeatCount ∨ rawCount = kEndOfSessionCount then
      if blocks.isEmpty then
        some
          { session := session
            sequence := sequence
            kind := if rawCount = kHeartbeatCount then .Heartbeat else .EndOfSession }
      else none
    else
      match skipBlocks rawCount blocks with
      | some [] => some ⟨session, sequence, rawCount, .Data, blocks⟩
      | _ => none

def parseRequest : Option RequestView :=
  if datagram.length ≠ kRequestLength then none
  else
    some ⟨datagram.take kSessionLength, loadBe ((datagram.drop 10).take 8),
      loadBe ((datagram.drop 18).take 2)⟩

/-! ## Building -/

def writeHeader (session : SessionId) (sequence count : Nat) : List UInt8 :=
  session ++ storeBe 8 sequence ++ storeBe 2 count

/-- The blocks `PacketBuilder::add` writes for some messages. -/
def blocksOf : List UInt8 :=
  msgs.flatMap fun msg => storeBe 2 msg.length ++ msg

/-- What a `PacketBuilder` has written once it was given the messages and finished. -/
def dataPacket (session : SessionId) (sequence : Nat) (msgs : List (List UInt8)) :
    List UInt8 :=
  writeHeader session sequence msgs.length ++ blocksOf msgs

def heartbeat (session : SessionId) (nextSequence : Nat) : List UInt8 :=
  writeHeader session nextSequence kHeartbeatCount

def endOfSession (session : SessionId) (nextSequence : Nat) : List UInt8 :=
  writeHeader session nextSequence kEndOfSessionCount

def writeRequest (session : SessionId) (sequence count : Nat) : List UInt8 :=
  writeHeader session sequence count

/-! ## What was built is taken apart again -/

theorem length_writeHeader {session : SessionId} (hs : session.length = kSessionLength)
    (sequence count : Nat) : (writeHeader session sequence count).length = kHeaderLength := by
  simp [writeHeader, hs, kSessionLength, kHeaderLength]

/-- The fields of a header, whatever follows it. -/
theorem header_fields {session : SessionId} {sequence count : Nat} (tail : List UInt8)
    (hs : session.length = kSessionLength) (hseq : sequence < 256 ^ 8) (hcount : count < 256 ^ 2) :
    let d := writeHeader session sequence count ++ tail
    d.take kSessionLength = session ∧ loadBe ((d.drop 10).take 8) = sequence ∧
      loadBe ((d.drop 18).take 2) = count ∧ d.drop kHeaderLength = tail := by
  intro d
  have hs10 : session.length = 10 := hs
  have hd : d = session ++ (storeBe 8 sequence ++ (storeBe 2 count ++ tail)) := by
    simp [d, writeHeader]
  have h10 : d.drop 10 = storeBe 8 sequence ++ (storeBe 2 count ++ tail) := by
    rw [hd, drop_left' hs10]
  have h18 : d.drop 18 = storeBe 2 count ++ tail := by
    have hstep : d.drop 18 = (d.drop 10).drop 8 := by rw [drop_drop]
    rw [hstep, h10, drop_left' (length_storeBe 8 sequence)]
  have h20 : d.drop 20 = tail := by
    have hstep : d.drop 20 = (d.drop 18).drop 2 := by rw [drop_drop]
    rw [hstep, h18, drop_left' (length_storeBe 2 count)]
  refine ⟨?_, ?_, ?_, h20⟩
  · rw [hd, take_left' hs]
  · rw [h10, take_left' (length_storeBe 8 sequence), loadBe_storeBe hseq]
  · rw [h18, take_left' (length_storeBe 2 count), loadBe_storeBe hcount]

theorem parseRequest_writeRequest {session : SessionId} {sequence count : Nat}
    (hs : session.length = kSessionLength) (hseq : sequence < 256 ^ 8) (hcount : count < 256 ^ 2) :
    parseRequest (writeRequest session sequence count) = some ⟨session, sequence, count⟩ := by
  have hlen := length_writeHeader hs sequence count
  obtain ⟨h₁, h₂, h₃, -⟩ := header_fields [] hs hseq hcount
  rw [append_nil] at h₁ h₂ h₃
  unfold parseRequest writeRequest
  have hreq : (writeHeader session sequence count).length = kRequestLength := hlen
  rw [if_neg (not_not.mpr hreq), h₁, h₂, h₃]

theorem nextBlock_blocksOf {msg : List UInt8} (hlen : msg.length ≤ kMaxMessageLength) :
    nextBlock (blocksOf (msg :: msgs)) = some (msg, blocksOf msgs) := by
  have hcons : blocksOf (msg :: msgs) = storeBe 2 msg.length ++ (msg ++ blocksOf msgs) := by
    simp [blocksOf]
  have htwo := length_storeBe 2 msg.length
  have hn : loadBe (storeBe 2 msg.length) = msg.length :=
    loadBe_storeBe (Nat.lt_of_le_of_lt hlen (by decide))
  have hdrop : (storeBe 2 msg.length ++ (msg ++ blocksOf msgs)).drop (2 + msg.length) =
      blocksOf msgs := by
    rw [← drop_drop, drop_left' htwo, drop_left' rfl]
  unfold nextBlock
  dsimp only
  rw [hcons, take_left' htwo, hn, drop_left' htwo, take_left' rfl, hdrop]
  have hlong : ¬ (storeBe 2 msg.length ++ (msg ++ blocksOf msgs)).length < 2 + msg.length := by
    rw [length_append, length_append, htwo]
    omega
  rw [if_neg (fun hshort => hlong (Nat.lt_of_lt_of_le hshort (Nat.le_add_right 2 msg.length))),
    if_neg hlong]

theorem skipBlocks_blocksOf (hlen : ∀ m ∈ msgs, m.length ≤ kMaxMessageLength) :
    skipBlocks msgs.length (blocksOf msgs) = some [] := by
  induction msgs with
  | nil => rfl
  | cons msg msgs ih =>
    rw [length_cons, skipBlocks, nextBlock_blocksOf msgs (hlen msg mem_cons_self)]
    exact ih fun m hm => hlen m (mem_cons_of_mem msg hm)

theorem parsePacket_dataPacket {session : SessionId} {sequence : Nat} {msgs : List (List UInt8)}
    (hs : session.length = kSessionLength) (hseq : sequence < 256 ^ 8) (hne : 0 < msgs.length)
    (hmax : msgs.length ≤ kMaxMessagesPerPacket) (hlen : ∀ m ∈ msgs, m.length ≤ kMaxMessageLength) :
    parsePacket (dataPacket session sequence msgs) =
      some ⟨session, sequence, msgs.length, .Data, blocksOf msgs⟩ := by
  unfold kMaxMessagesPerPacket at hmax
  have hcount : msgs.length < 256 ^ 2 := by omega
  obtain ⟨h₁, h₂, h₃, h₄⟩ := header_fields (blocksOf msgs) hs hseq hcount
  have hhead := length_writeHeader hs sequence msgs.length
  unfold parsePacket dataPacket
  rw [if_neg (by rw [length_append, hhead]; omega), h₁, h₂, h₃, h₄,
    if_neg (by unfold kHeartbeatCount kEndOfSessionCount; omega), skipBlocks_blocksOf msgs hlen]

/-- A packet without messages: a heartbeat, or the end of the session. -/
theorem parsePacket_writeHeader {session : SessionId} {sequence rawCount : Nat}
    (hs : session.length = kSessionLength) (hseq : sequence < 256 ^ 8)
    (hraw : rawCount = kHeartbeatCount ∨ rawCount = kEndOfSessionCount) :
    parsePacket (writeHeader session sequence rawCount) =
      some { session := session, sequence := sequence,
             kind := if rawCount = kHeartbeatCount then .Heartbeat else .EndOfSession } := by
  have hcount : rawCount < 256 ^ 2 := by
    rcases hraw with rfl | rfl <;> decide
  have hlen := length_writeHeader hs sequence rawCount
  obtain ⟨h₁, h₂, h₃, h₄⟩ := header_fields [] hs hseq hcount
  rw [append_nil] at h₁ h₂ h₃ h₄
  unfold parsePacket
  rw [if_neg (by omega), h₁, h₂, h₃, h₄, if_pos hraw]
  rfl

end FastMM.Mold
