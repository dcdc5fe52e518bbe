/-
  Journal/Reader.lean --- a journal read back.

  Source: `src/core/journal_file.cpp` (`JournalReader`).

  A file is the list of its bytes.  Loops over it have the number of bytes left as a bound, which
  they never use up: every turn passes at least a header.
-/
import FastMM.Journal.Format
import Mathlib.Data.Fintype.Basic
set_option autoImplicit false

namespace FastMM.Journal

open Foundation JournalFileHeader

inductive JournalError where
  | BadMagic
  | BadVersion
  | HeaderCorrupt
  | TooShort
  deriving DecidableEq, Repr

/-- The tables of a file. -/
structure JournalTables where
  instruments : List (List UInt8)
  config : List UInt8
  params : List ParamDesc
  paramsDropped : Nat
  metadata : List UInt8
  deriving DecidableEq, Repr

structure JournalReader where
  map : List UInt8
  header : JournalFileHeader
  tables : JournalTables
  firstBlock : Nat
  validEnd : Nat := 0
  blocks : Nat := 0
  messages : Nat := 0
  lastSeq : UInt64 := 0
  truncatedTail : Bool := false
  hasTrailer : Bool := false
  curBlock : Nat := 0
  curOff : Nat := 0

/-! ## The prologue -/

/-- Records of one size, one after the other. -/
def records (size : Nat) : Nat → List UInt8 → List (List UInt8)
  | 0, _ => []
  | n + 1, l => l.take size :: records size n (l.drop size)

/-- The entries of a parameter table from entry `i` at `off` on: those kept, the number left out,
and where they end, or the entry the table ends inside of. -/
def readParams (table : List UInt8) (paramBytes : Nat) :
    Nat → Nat → Nat → Except Nat (List ParamDesc × Nat × Nat)
  | 0, _, off => .ok ([], 0, off)
  | n + 1, i, off =>
    if paramBytes < off + 2 ∨ paramBytes < off + 2 + (table.getD (off + 1) 0).toNat then .error i
    else
      let nameLen := (table.getD (off + 1) 0).toNat
      match readParams table paramBytes n (i + 1) (off + 2 + nameLen) with
      | .error j => .error j
      | .ok (kept, dropped, last) =>
        if i < kJournalMaxParams then
          .ok (⟨table.getD off 0, slice (off + 2) nameLen table⟩ :: kept, dropped, last)
        else .ok (kept, dropped + 1, last)

namespace JournalReader

/-- `parse_prologue`, with the message each refusal is described by. -/
def parsePrologue (map : List UInt8) : Except (JournalError × String) JournalReader :=
  let len := map.length
  let h := ofBytes map
  if h.magic ≠ kFileMagic then .error (.BadMagic, "")
  else if h.version < kJournalMinVersion ∨ kJournalVersion < h.version then
    .error (.BadVersion, s!"format version {h.version}, this build reads {kJournalMinVersion} to "
      ++ s!"{kJournalVersion}: read it with a build of the source that recorded it")
  else if crc32c (map.take crcBytes) ≠ readCrc32c map then
    .error (.HeaderCorrupt, "the file header's checksum does not match")
  else
    let tables := JournalFileHeader.size + h.instrumentCount.toNat * sizeofInstrument
    let configBytes := if 2 ≤ h.version then h.configBytes.toNat else 0
    let paramBytes := if 3 ≤ h.version then h.paramTableBytes.toNat else 0
    let metaBytes := if 3 ≤ h.version then h.metaBytes.toNat else 0
    let expect := tables + pad64 configBytes + pad64 paramBytes + pad64 metaBytes
    if len < h.headerBytes.toNat then
      .error (.HeaderCorrupt, s!"the header is {h.headerBytes} bytes and the file {len}")
    else if h.headerBytes.toNat ≠ expect then
      .error (.HeaderCorrupt, s!"the header is {h.headerBytes} bytes, {expect} with this build's "
        ++ s!"{sizeofInstrument}-byte instruments: it was recorded by a build with another " ++
        "Instrument layout")
    else
      let config := slice tables configBytes map
      let table := slice (tables + pad64 configBytes) paramBytes map
      let metadata := slice (tables + pad64 configBytes + pad64 paramBytes) metaBytes map
      if 0 < configBytes ∧ crc32c config ≠ h.configCrc32c then
        .error (.HeaderCorrupt, "the configuration's checksum does not match")
      else if 3 ≤ h.version ∧ crc32c table ≠ h.paramTableCrc32c then
        .error (.HeaderCorrupt, "the parameter table's checksum does not match")
      else
        match readParams table paramBytes (if 3 ≤ h.version then h.paramCount.toNat else 0) 0 0 with
        | .error i =>
          .error (.HeaderCorrupt, s!"the parameter table ends inside entry {i} of {h.paramCount}")
        | .ok (params, dropped, off) =>
          if off ≠ paramBytes then
            .error (.HeaderCorrupt, s!"the parameter table's {h.paramCount} entries take {off} " ++
              s!"of its {paramBytes} bytes")
          else if 0 < metaBytes ∧ crc32c metadata ≠ h.metaCrc32c then
            .error (.HeaderCorrupt, "the strategy metadata's checksum does not match")
          else
            .ok
              { map := map
                header := h
                tables :=
                  { instruments := records sizeofInstrument h.instrumentCount.toNat
                      (map.drop JournalFileHeader.size)
                    config := config
                    params := params
                    paramsDropped := dropped
                    metadata := metadata }
                firstBlock := h.headerBytes.toNat }

/-! ## Blocks -/

variable (r : JournalReader)

def blockAt (off : Nat) : Option JournalBlockHeader :=
  if r.map.length < off + JournalBlockHeader.size then none
  else
    let b := JournalBlockHeader.ofBytes (r.map.drop off)
    if b.magic ≠ kBlockMagic then none
    else if r.map.length < off + JournalBlockHeader.size + b.byteLen.toNat then none
    else some b

/-- The lengths of a block's messages, from `m` on, end where the block does. -/
def sane (payload : List UInt8) (byteLen : Nat) : Nat → Nat → Bool
  | 0, m => byteLen ≤ m
  | n + 1, m =>
    if byteLen ≤ m then true
    else if byteLen < m + sizeofEventHeader then false
    else
      let len := EventHeader.len (payload.drop m)
      if len < sizeofEventHeader ∨ len % 64 ≠ 0 ∨ byteLen < m + len then false
      else sane payload byteLen n (m + len)

/-- The loop of `validate`. -/
def validateFrom : Nat → Nat → JournalReader → JournalReader
  | 0, _, r => r
  | n + 1, off, r =>
    if r.map.length ≤ off then r
    else
      match r.blockAt off with
      | none => { r with truncatedTail := true }
      | some b =>
        let payload := slice (off + JournalBlockHeader.size) b.byteLen.toNat r.map
        if crc32c payload ≠ b.crc32c then { r with truncatedTail := true }
        else if b.flags &&& kBlockFlagTrailer ≠ 0 then
          { r with hasTrailer := true, validEnd := off }
        else if sane payload b.byteLen.toNat b.byteLen.toNat 0 = false then
          { r with truncatedTail := true }
        else
          let off := off + JournalBlockHeader.size + b.byteLen.toNat
          validateFrom n off { r with
              blocks := r.blocks + 1
              messages := r.messages + b.count.toNat
              lastSeq := b.seqLast
              validEnd := off }

def validate : JournalReader :=
  validateFrom (r.map.length - r.firstBlock) r.firstBlock { r with validEnd := r.firstBlock }

def reset : JournalReader := { r with curBlock := r.firstBlock, curOff := 0 }

/-- `open`, of a file of these bytes. -/
def openFile (map : List UInt8) : Except (JournalError × String) JournalReader :=
  if map.length < JournalFileHeader.size then
    .error (.TooShort, s!"{map.length} bytes, shorter than the {JournalFileHeader.size}-byte file "
      ++ "header")
  else (parsePrologue map).map fun r => r.validate.reset

def complete : Bool := r.hasTrailer && !r.truncatedTail

/-- The loop of `next`: the bytes of a message. -/
def nextFrom : Nat → JournalReader → Option (List UInt8) × JournalReader
  | 0, r => (none, r)
  | n + 1, r =>
    if r.validEnd ≤ r.curBlock then (none, r)
    else
      let b := JournalBlockHeader.ofBytes (r.map.drop r.curBlock)
      if r.curOff < b.byteLen.toNat then
        let at_ := r.curBlock + JournalBlockHeader.size + r.curOff
        let len := EventHeader.len (r.map.drop at_)
        (some (slice at_ len r.map), { r with curOff := r.curOff + len })
      else
        nextFrom n { r with
            curBlock := r.curBlock + JournalBlockHeader.size + b.byteLen.toNat
            curOff := 0 }

def next : Option (List UInt8) × JournalReader := nextFrom (r.validEnd - r.curBlock + 1) r

/-- What successive calls of `next` give, until one gives nothing. -/
inductive Reads : JournalReader → List (List UInt8) → Prop
  | done {r r' : JournalReader} (h : r.next = (none, r')) : Reads r []
  | more {r r' : JournalReader} {m : List UInt8} {ms : List (List UInt8)}
      (h : r.next = (some m, r')) (rest : Reads r' ms) : Reads r (m :: ms)

end JournalReader

end FastMM.Journal
