/-
  Journal/Writer.lean --- messages drained from a ring into the parts of a journal.

  Source: `src/core/journal_file.cpp` (`JournalFileWriter`).

  Files open, reserve, write and sync without error; time is the caller's affair.  The staged
  block is the list of its payload bytes.
-/
import FastMM.Journal.Format
import Mathlib.Logic.Function.Basic
set_option autoImplicit false

namespace FastMM.Journal

/-! ## Paths and files -/

abbrev Path : Type := List Char

/-- The last place of a character. -/
def rfind (c : Char) (s : Path) : Option Nat := (s.reverse.idxOf? c).map fun i => s.length - 1 - i

/-- The dot an extension starts with. -/
def extension (base : Path) : Option Nat :=
  match rfind '.' base, rfind '/' base with
  | none, _ => none
  | some dot, none => some dot
  | some dot, some slash => if slash < dot then some dot else none

def partPath (base : Path) (n : Nat) : Path :=
  if n = 0 then base
  else
    match extension base with
    | none => base ++ '.' :: Nat.toDigits 10 n
    | some dot => base.take dot ++ ('.' :: Nat.toDigits 10 n ++ base.drop dot)

/-- A file: what was written, and the length it has. -/
structure File where
  data : List UInt8 := []
  length : Nat := 0

namespace File

variable (f : File)

/-- The bytes of a file: zeros where nothing was written. -/
def content : List UInt8 := f.data ++ List.replicate (f.length - f.data.length) 0

/-- `posix_fallocate`. -/
def allocate (len : Nat) : File := { f with length := max f.length len }

def pwrite (off : Nat) (l : List UInt8) : File where
  data := f.data.take off ++ l ++ f.data.drop (off + l.length)
  length := max f.length (off + l.length)

def ftruncate (len : Nat) : File where
  data := f.data.take len
  length := len

end File

/-! ## The writer -/

structure JournalFileWriter where
  basePath : Path
  maxBytes : Nat
  header : JournalFileHeader
  tables : List UInt8
  path : Path
  disk : Path → File := fun _ => {}
  partPaths : List Path := []
  part : Nat := 0
  totalBytes : Nat := 0
  opened : Bool := false
  reserved : Nat := 0
  fileSize : Nat := 0
  block : List UInt8 := []
  blockCount : Nat := 0
  blockSeqFirst : UInt64 := 0
  blockSeqLast : UInt64 := 0
  blocks : Nat := 0
  messages : Nat := 0
  engineNs : Int64 := 0
  engineClock : Bool := false
  closed : Bool := false

namespace JournalFileWriter

variable (w : JournalFileWriter)

def blockUsed : Nat := w.block.length

/-- The bytes every part starts with. -/
def prologue : List UInt8 := w.header.bytes ++ w.tables

def setFile (f : File) : JournalFileWriter :=
  { w with disk := Function.update w.disk w.path f }

/-- `reserve`: the reserved end moves by whole extents. -/
def reserve (bytes : Nat) : JournalFileWriter :=
  if w.fileSize + bytes ≤ w.reserved then w
  else
    let extents := (w.fileSize + bytes - w.reserved + kJournalExtentBytes - 1) / kJournalExtentBytes
    let newLen := w.reserved + extents * kJournalExtentBytes
    { w.setFile ((w.disk w.path).allocate newLen) with reserved := newLen }

def append (data : List UInt8) : JournalFileWriter :=
  if w.opened = false then w
  else
    let w := w.reserve data.length
    { w.setFile ((w.disk w.path).pwrite w.fileSize data) with fileSize := w.fileSize + data.length }

def openPart : JournalFileWriter :=
  let w :=
    { w.setFile {} with
      opened := true
      closed := false
      reserved := 0
      fileSize := 0
      partPaths := w.partPaths ++ [w.path] }
  let w :=
    if 0 < w.part ∧ w.engineClock = true then
      { w with
        header :=
          { w.header with
            headerFlags := w.header.headerFlags ||| kHeaderEngineClock
            engineClockNs := w.engineNs } }
    else w
  w.append w.prologue

def followClock (m : List UInt8) : JournalFileWriter :=
  if EventHeader.type m = kEventEngineTime then
    { w with engineNs := EventHeader.engineTs m, engineClock := true }
  else if EventHeader.flags m &&& EventHeader.kEngineTime ≠ 0 then
    { w with engineNs := w.engineNs + (EventHeader.reserved0 m).toInt32.toInt64 }
  else w

def writeTrailer : JournalFileWriter :=
  if w.opened = false then w
  else
    w.append (JournalBlockHeader.bytes
      { flags := kBlockFlagTrailer
        seqFirst := w.blockSeqLast
        seqLast := w.blockSeqLast
        crc32c := crc32c [] })

def close : JournalFileWriter :=
  if w.closed = true then w
  else if w.opened = false then { w with closed := true }
  else
    { w.setFile ((w.disk w.path).ftruncate w.fileSize) with
      opened := false
      closed := true }

def rotate : JournalFileWriter :=
  let w := w.writeTrailer.close
  openPart
    { w with
      totalBytes := w.totalBytes + w.fileSize
      part := w.part + 1
      path := partPath w.basePath (w.part + 1) }

def flushBlock : JournalFileWriter :=
  if w.blockCount = 0 then w
  else
    let header : JournalBlockHeader :=
      { byteLen := .ofNat w.blockUsed
        seqFirst := w.blockSeqFirst
        seqLast := w.blockSeqLast
        count := .ofNat w.blockCount
        crc32c := crc32c w.block }
    { w.append (header.bytes ++ w.block) with
      blocks := w.blocks + 1
      block := []
      blockCount := 0 }

/-- The part is full: the check of `drain_once` and `run`. -/
def rollOver : JournalFileWriter :=
  if w.maxBytes ≠ 0 ∧ w.maxBytes ≤ w.fileSize then w.rotate else w

/-- One message of `drain_once`. -/
def stage (m : List UInt8) : JournalFileWriter :=
  let w := if kJournalBlockBytes < w.blockUsed + EventHeader.len m then w.flushBlock.rollOver else w
  let w := if w.blockCount = 0 then { w with blockSeqFirst := EventHeader.seq m } else w
  let w :=
    followClock { w with
        blockSeqLast := EventHeader.seq m
        block := w.block ++ m } m
  { w with
    blockCount := w.blockCount + 1
    messages := w.messages + 1 }

/-- The loop of `drain_once`. -/
def drainFrom : Nat → MsgRing → JournalFileWriter → MsgRing × JournalFileWriter
  | 0, ring, w => (ring, w)
  | n + 1, ring, w =>
    match ring.tryPeek with
    | (none, ring) => (ring, w)
    | (some off, ring) =>
      drainFrom n ring.release (w.stage (bytesAt ring.buf off (prefixLen ring.buf off)))

/-- `drain_once`.  Each message is at least a granule. -/
def drainOnce (ring : MsgRing) : MsgRing × JournalFileWriter :=
  drainFrom (ring.tail - ring.head + 1) ring w

/-- The constructor. -/
def create (path : Path) (info : JournalSessionInfo) (maxBytes : Nat) : JournalFileWriter :=
  openPart
    { basePath := path
      maxBytes := maxBytes
      header := info.header
      tables := info.tables
      path := path }

end JournalFileWriter

/-! ## A session -/

/-- Calls on the ring and the writer; `runOnce` is a turn of the loop of `run`. -/
inductive JournalOp where
  | push (m : Msg)
  | drainOnce
  | flushBlock
  | runOnce (due : Bool)

/-- A ring, its writer, and what the ring took. -/
structure JournalSession where
  ring : MsgRing
  writer : JournalFileWriter
  pushed : List (List UInt8) := []

namespace JournalSession

variable (s : JournalSession)

def drainOnce : JournalSession :=
  let (ring, writer) := s.writer.drainOnce s.ring
  { s with ring := ring, writer := writer }

def step : JournalOp → JournalSession
  | .push m =>
    let (taken, ring) := s.ring.tryPush m.bytes
    { s with ring := ring, pushed := if taken then s.pushed ++ [m.bytes] else s.pushed }
  | .drainOnce => s.drainOnce
  | .flushBlock => { s with writer := s.writer.flushBlock }
  | .runOnce due =>
    let s := s.drainOnce
    let w := if 0 < s.writer.blockCount ∧ due = true then s.writer.flushBlock else s.writer
    { s with writer := if w.blockCount = 0 then w.rollOver else w }

def run (ops : List JournalOp) : JournalSession := ops.foldl step s

def stop : JournalSession :=
  let s := s.drainOnce
  let w := s.writer.flushBlock
  { s with writer := if w.closed = true then w else w.writeTrailer.close }

def create (k : Nat) (path : Path) (info : JournalSessionInfo) (maxBytes : Nat) :
    JournalSession where
  ring := .create k
  writer := .create path info maxBytes

end JournalSession

end FastMM.Journal
