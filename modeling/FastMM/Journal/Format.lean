/-
  Journal/Format.lean --- the layout of a journal file.

  Source: `include/fastmm/core/journal.hpp` (`JournalFileHeader`, `JournalBlockHeader`,
  `JournalSessionInfo`), `src/core/journal_file.cpp` (`pad64`, `param_table`, the constructor of
  `JournalFileWriter`), `src/core/crc32c.cpp`, `include/fastmm/core/messages.hpp` (`EventHeader`).

  A file is a header of 256 bytes, tables, and blocks of a header of 64 bytes and messages.
-/
import FastMM.Journal.MsgRing
import Mathlib.Data.Fin.VecNotation
set_option autoImplicit false

namespace FastMM.Journal

open Foundation List

/-! ## The checksum -/

variable (l : List UInt8)
variable (n : UInt64)

def crcStep (c : UInt32) : UInt32 :=
  if c &&& 1 ≠ 0 then (c >>> 1) ^^^ 0x82F63B78 else c >>> 1

/-- An entry of `kTable`. -/
def crcEntry (i : UInt32) : UInt32 := (List.range 8).foldl (fun c _ => crcStep c) i

/-- `crc32c_software`. -/
def crc32c (data : List UInt8) : UInt32 :=
  ~~~(data.foldl (fun crc b => crcEntry ((crc ^^^ b.toUInt32) &&& 0xFF) ^^^ (crc >>> 8)) (~~~0))

/-! ## Fields -/

def le16 (n : UInt16) : List UInt8 := storeLe 2 n.toNat
def le32 (n : UInt32) : List UInt8 := storeLe 4 n.toNat
def le64 : List UInt8 := storeLe 8 n.toNat
def leInt64 (n : Int64) : List UInt8 := le64 n.toUInt64

def read8 : UInt8 := l.headD 0
def read16 : UInt16 := .ofNat (loadLe l)
def read32 : UInt32 := .ofNat (loadLe l)
def read64 : UInt64 := .ofNat (loadLe l)
def readInt64 : Int64 := (read64 l).toInt64

/-- A `char` array. -/
def readChars {n : Nat} : Fin n → UInt8 := fun i => l.getD i 0

@[simp] theorem read8_singleton (n : UInt8) : read8 [n] = n := rfl

@[simp] theorem read16_le16 (n : UInt16) : read16 (le16 n) = n := by
  unfold read16 le16
  rw [loadLe_storeLe n.toNat_lt, UInt16.ofNat_toNat]

@[simp] theorem read32_le32 (n : UInt32) : read32 (le32 n) = n := by
  unfold read32 le32
  rw [loadLe_storeLe n.toNat_lt, UInt32.ofNat_toNat]

@[simp] theorem read64_le64 : read64 (le64 n) = n := by
  unfold read64 le64
  rw [loadLe_storeLe n.toNat_lt, UInt64.ofNat_toNat]

@[simp] theorem readInt64_leInt64 (n : Int64) : readInt64 (leInt64 n) = n := by
  unfold readInt64 leInt64
  rw [read64_le64]
  rfl

@[simp] theorem readChars_ofFn {n : Nat} (f : Fin n → UInt8) : readChars (List.ofFn f) = f := by
  funext i
  unfold readChars
  rw [getD_eq_getElem?_getD, List.getElem?_ofFn, dif_pos i.isLt]
  rfl

@[simp] theorem length_le16 (n : UInt16) : (le16 n).length = 2 := length_storeLe ..
@[simp] theorem length_le32 (n : UInt32) : (le32 n).length = 4 := length_storeLe ..
@[simp] theorem length_le64 : (le64 n).length = 8 := length_storeLe ..
@[simp] theorem length_leInt64 (n : Int64) : (leInt64 n).length = 8 := length_storeLe ..

/-! ## Messages -/

namespace EventHeader

variable (m : List UInt8)

def len : Nat := loadLe (m.take 4)
def type : UInt8 := m.getD 4 0
def flags : UInt8 := m.getD 7 0
def reserved0 : UInt32 := read32 (slice 12 4 m)
def seq : UInt64 := read64 (slice 16 8 m)

def kEngineTime : UInt8 := 16

def engineTs : Int64 := readInt64 (slice 64 8 m)

end EventHeader

/-- `EventType::EngineTime`. -/
def kEventEngineTime : UInt8 := 25

/-- `sizeof(EventHeader)`. -/
def sizeofEventHeader : Nat := 64

def kJournalBlockBytes : Nat := 1048576

/-- A message that fits a block. -/
structure Msg where
  bytes : List UInt8
  isMsg : IsMsg bytes
  fits : bytes.length ≤ kJournalBlockBytes

/-! ## The file header -/

def kFileMagic : Fin 4 → UInt8 := ![70, 77, 74, 49]
def kBlockMagic : Fin 4 → UInt8 := ![70, 77, 74, 66]
def kJournalVersion : UInt32 := 5
def kJournalMinVersion : UInt32 := 1
def kJournalExtentBytes : Nat := 67108864
def kBlockFlagTrailer : UInt32 := 1
def kHeaderSession : UInt8 := 1
def kHeaderReplacePerVenue : UInt8 := 2
def kHeaderOwnInFeed : UInt8 := 4
def kHeaderEngineClock : UInt8 := 8
def kJournalMaxParams : Nat := 128
def kMessageVersion : UInt32 := 1

/-- `sizeof(Instrument)`. -/
def sizeofInstrument : Nat := 128

def pad64 (n : Nat) : Nat := (n + 63) / 64 * 64

/-- The fields before the checksum, which is of their bytes in every header written. -/
structure JournalFileHeader where
  magic : Fin 4 → UInt8 := kFileMagic
  version : UInt32
  headerBytes : UInt32
  instrumentCount : UInt32
  sessionId : UInt64
  startTsNs : Int64
  tsc0 : UInt64
  tscNs0 : Int64
  tscNsPerCycleQ32 : UInt64
  configHash : UInt64
  rngSeed : UInt64
  messageVersion : UInt32
  blockBytes : UInt32
  strategy : Fin 32 → UInt8
  sessionEpoch : UInt16 := 0
  quotingEnabled : UInt8 := 0
  headerFlags : UInt8 := 0
  configBytes : UInt32
  replaceVenues : UInt64 := 0
  configCrc32c : UInt32
  paramCount : UInt32
  paramTableBytes : UInt32
  paramTableCrc32c : UInt32
  metaBytes : UInt32
  metaCrc32c : UInt32
  awaitReconcile : UInt32 := 0
  reservedPad : UInt32 := 0
  engineClockNs : Int64 := 0
  reserved : Fin 84 → UInt8 := fun _ => 0

namespace JournalFileHeader

variable (rest : List UInt8)

/-- The widths of the fields. -/
def layout : List Nat :=
  [4, 4, 4, 4, 8, 8, 8, 8, 8, 8, 8, 4, 4, 32, 2, 1, 1, 4, 8, 4, 4, 4, 4, 4, 4, 4, 4, 8, 84, 4]

/-- `sizeof(JournalFileHeader)`. -/
def size : Nat := 256

/-- What the checksum is over. -/
def crcBytes : Nat := 252

variable (h : JournalFileHeader)

def body : List (List UInt8) :=
  [List.ofFn h.magic, le32 h.version, le32 h.headerBytes, le32 h.instrumentCount, le64 h.sessionId,
    leInt64 h.startTsNs, le64 h.tsc0, leInt64 h.tscNs0, le64 h.tscNsPerCycleQ32, le64 h.configHash,
    le64 h.rngSeed, le32 h.messageVersion, le32 h.blockBytes, List.ofFn h.strategy,
    le16 h.sessionEpoch, [h.quotingEnabled], [h.headerFlags], le32 h.configBytes,
    le64 h.replaceVenues, le32 h.configCrc32c, le32 h.paramCount, le32 h.paramTableBytes,
    le32 h.paramTableCrc32c, le32 h.metaBytes, le32 h.metaCrc32c, le32 h.awaitReconcile,
    le32 h.reservedPad, leInt64 h.engineClockNs, List.ofFn h.reserved]

def bytes : List UInt8 := (h.body ++ [le32 (crc32c h.body.flatten)]).flatten

def ofBytes (l : List UInt8) : JournalFileHeader :=
  let f := fun i => (cut layout l).getD i []
  { magic := readChars (f 0)
    version := read32 (f 1)
    headerBytes := read32 (f 2)
    instrumentCount := read32 (f 3)
    sessionId := read64 (f 4)
    startTsNs := readInt64 (f 5)
    tsc0 := read64 (f 6)
    tscNs0 := readInt64 (f 7)
    tscNsPerCycleQ32 := read64 (f 8)
    configHash := read64 (f 9)
    rngSeed := read64 (f 10)
    messageVersion := read32 (f 11)
    blockBytes := read32 (f 12)
    strategy := readChars (f 13)
    sessionEpoch := read16 (f 14)
    quotingEnabled := read8 (f 15)
    headerFlags := read8 (f 16)
    configBytes := read32 (f 17)
    replaceVenues := read64 (f 18)
    configCrc32c := read32 (f 19)
    paramCount := read32 (f 20)
    paramTableBytes := read32 (f 21)
    paramTableCrc32c := read32 (f 22)
    metaBytes := read32 (f 23)
    metaCrc32c := read32 (f 24)
    awaitReconcile := read32 (f 25)
    reservedPad := read32 (f 26)
    engineClockNs := readInt64 (f 27)
    reserved := readChars (f 28) }

/-- The checksum field. -/
def readCrc32c (l : List UInt8) : UInt32 := read32 ((cut layout l).getD 29 [])

theorem layout_eq (c : UInt32) : (h.body ++ [le32 c]).map List.length = layout := by
  simp [body, layout]

@[simp] theorem length_bytes : h.bytes.length = size := by
  unfold bytes
  rw [length_flatten, layout_eq]
  rfl

theorem cut_bytes : cut layout (h.bytes ++ rest) = h.body ++ [le32 (crc32c h.body.flatten)] := by
  rw [← h.layout_eq (crc32c h.body.flatten)]
  exact cut_flatten _ rest

/-- A header is read back. -/
theorem ofBytes_bytes : ofBytes (h.bytes ++ rest) = h := by
  unfold ofBytes
  rw [cut_bytes]
  simp only [body, cons_append, nil_append, getD_cons_zero, getD_cons_succ,
    readChars_ofFn, read8_singleton, read16_le16, read32_le32, read64_le64, readInt64_leInt64]

theorem readCrc32c_bytes : readCrc32c (h.bytes ++ rest) = crc32c h.body.flatten := by
  unfold readCrc32c
  rw [cut_bytes]
  simp only [body, cons_append, nil_append, getD_cons_zero, getD_cons_succ, read32_le32]

theorem take_bytes : (h.bytes ++ rest).take crcBytes = h.body.flatten := by
  have hlen : h.body.flatten.length = crcBytes := by
    rw [length_flatten]
    simp [body, crcBytes]
  unfold bytes
  rw [flatten_append, append_assoc, ← hlen, take_left]

end JournalFileHeader

/-! ## Block headers -/

structure JournalBlockHeader where
  magic : Fin 4 → UInt8 := kBlockMagic
  byteLen : UInt32 := 0
  seqFirst : UInt64 := 0
  seqLast : UInt64 := 0
  count : UInt32 := 0
  crc32c : UInt32 := 0
  flags : UInt32 := 0
  reserved : Fin 28 → UInt8 := fun _ => 0

namespace JournalBlockHeader

def layout : List Nat := [4, 4, 8, 8, 4, 4, 4, 28]

/-- `sizeof(JournalBlockHeader)`. -/
def size : Nat := 64

variable (b : JournalBlockHeader)

def fields : List (List UInt8) :=
  [List.ofFn b.magic, le32 b.byteLen, le64 b.seqFirst, le64 b.seqLast, le32 b.count, le32 b.crc32c,
    le32 b.flags, List.ofFn b.reserved]

def bytes : List UInt8 := b.fields.flatten

def ofBytes (l : List UInt8) : JournalBlockHeader :=
  let f := fun i => (cut layout l).getD i []
  { magic := readChars (f 0)
    byteLen := read32 (f 1)
    seqFirst := read64 (f 2)
    seqLast := read64 (f 3)
    count := read32 (f 4)
    crc32c := read32 (f 5)
    flags := read32 (f 6)
    reserved := readChars (f 7) }

theorem layout_eq : b.fields.map List.length = layout := by
  simp [fields, layout]

@[simp] theorem length_bytes : b.bytes.length = size := by
  unfold bytes
  rw [length_flatten, layout_eq]
  rfl

/-- A block header is read back. -/
theorem ofBytes_bytes (rest : List UInt8) : ofBytes (b.bytes ++ rest) = b := by
  have hcut : cut layout (b.bytes ++ rest) = b.fields := by
    rw [← b.layout_eq]
    exact cut_flatten _ rest
  unfold ofBytes
  rw [hcut]
  simp only [fields, getD_cons_zero, getD_cons_succ, readChars_ofFn, read32_le32, read64_le64]

end JournalBlockHeader

/-! ## What is recorded of a session -/

/-- What a parameter table has of a parameter. -/
structure ParamDesc where
  type : UInt8
  name : List UInt8
  deriving DecidableEq, Repr

/-- The length a table gives a name. -/
def ParamDesc.nameLen (d : ParamDesc) : Nat := min d.name.length 255

def paramTable (schema : List ParamDesc) : List UInt8 :=
  schema.flatMap fun d => d.type :: .ofNat d.nameLen :: d.name.take d.nameLen

/-- `JournalSessionInfo`: a table or schema that is not there is empty.  The tables' sizes fit the
header's fields. -/
structure JournalSessionInfo where
  sessionId : UInt64 := 0
  startTs : Int64 := 0
  tsc0 : UInt64 := 0
  tscNs0 : Int64 := 0
  tscNsPerCycleQ32 : UInt64 := 0
  configHash : UInt64 := 0
  rngSeed : UInt64 := 0
  strategy : List UInt8 := []
  instruments : List (List UInt8) := []
  hasSession : Bool := false
  sessionEpoch : UInt16 := 0
  quotingEnabled : Bool := true
  replaceVenues : UInt64 := 0
  awaitReconcile : UInt32 := 0
  ownInFeed : Bool := false
  configToml : List UInt8 := []
  params : List ParamDesc := []
  strategyMeta : List UInt8 := []
  records : ∀ r ∈ instruments, r.length = sizeofInstrument
  fits : JournalFileHeader.size + instruments.length * sizeofInstrument + pad64 configToml.length +
    pad64 (paramTable params).length + pad64 strategyMeta.length < 2 ^ 32

namespace JournalSessionInfo

variable (info : JournalSessionInfo)

/-- The bytes before the first block. -/
def headerBytes : Nat :=
  JournalFileHeader.size + info.instruments.length * sizeofInstrument +
    pad64 info.configToml.length + pad64 (paramTable info.params).length +
    pad64 info.strategyMeta.length

/-- The header of the first part. -/
def header : JournalFileHeader :=
  let params := paramTable info.params
  let h : JournalFileHeader :=
    { version := kJournalVersion
      headerBytes := .ofNat info.headerBytes
      instrumentCount := .ofNat info.instruments.length
      sessionId := info.sessionId
      startTsNs := info.startTs
      tsc0 := info.tsc0
      tscNs0 := info.tscNs0
      tscNsPerCycleQ32 := info.tscNsPerCycleQ32
      configHash := info.configHash
      rngSeed := info.rngSeed
      messageVersion := kMessageVersion
      blockBytes := .ofNat kJournalBlockBytes
      strategy := readChars (info.strategy.take 31)
      configBytes := .ofNat info.configToml.length
      configCrc32c := crc32c info.configToml
      paramCount := .ofNat info.params.length
      paramTableBytes := .ofNat params.length
      paramTableCrc32c := crc32c params
      metaBytes := .ofNat info.strategyMeta.length
      metaCrc32c := crc32c info.strategyMeta }
  let h :=
    if info.hasSession then
      { h with
        headerFlags := h.headerFlags ||| (kHeaderSession ||| kHeaderReplacePerVenue)
        sessionEpoch := info.sessionEpoch
        quotingEnabled := if info.quotingEnabled then 1 else 0
        replaceVenues := info.replaceVenues
        awaitReconcile := info.awaitReconcile }
    else h
  if info.ownInFeed then { h with headerFlags := h.headerFlags ||| kHeaderOwnInFeed } else h

/-- Bytes and the zeros after them. -/
def padded (l : List UInt8) : List UInt8 := l ++ List.replicate (pad64 l.length - l.length) 0

/-- What the prologue has after the header. -/
def tables : List UInt8 :=
  info.instruments.flatten ++ (padded info.configToml ++
    (padded (paramTable info.params) ++ padded info.strategyMeta))

@[simp] theorem length_padded (l : List UInt8) : (padded l).length = pad64 l.length := by
  unfold padded pad64
  rw [length_append, length_replicate]
  omega

theorem length_instruments : info.instruments.flatten.length =
    info.instruments.length * sizeofInstrument := by
  have hall : ∀ l : List (List UInt8), (∀ r ∈ l, r.length = sizeofInstrument) →
      l.flatten.length = l.length * sizeofInstrument := by
    intro l
    induction l with
    | nil => exact fun _ => (Nat.zero_mul _).symm
    | cons r l ih =>
      intro hr
      rw [flatten_cons, length_append, hr r mem_cons_self,
        ih fun r hr' => hr r (mem_cons_of_mem _ hr'), length_cons, Nat.succ_mul,
        Nat.add_comm]
  exact hall _ info.records

theorem length_tables : JournalFileHeader.size + info.tables.length = info.headerBytes := by
  unfold tables headerBytes
  rw [length_append, length_append, length_append, length_padded, length_padded,
    length_padded, length_instruments]
  omega

end JournalSessionInfo

end FastMM.Journal
