/-
  Journal/Tail.lean --- a journal read while it is written.

  Source: `src/backtest/journal_tail.cpp` (`JournalTail`), `src/core/journal_file.cpp`
  (`JournalReader::open_prologue`).

  The tail looks at the files and the clock again and again, and finds them changed: its looks are
  numbered, and it counts those it has had.  A read is one look.  Files open, map and read without
  error.
-/
import FastMM.Journal.Reader
import FastMM.Journal.Writer
set_option autoImplicit false

namespace FastMM.Journal

open Foundation

/-- What a look finds: the files there are, and the time of the steady clock. -/
structure View where
  disk : Path → Option (List UInt8)
  now : Int

/-- `read_at`: all of the bytes, or nothing. -/
def readAt (v : View) (p : Path) (len off : Nat) : Option (List UInt8) :=
  if len = 0 then some []
  else
    match v.disk p with
    | none => none
    | some f => if off + len ≤ f.length then some (slice off len f) else none

/-! ## Checks -/

/-- `sizeof(EngineTimeMsg)`. -/
def sizeofEngineTimeMsg : Nat := 128

/-- `EngineTimeMsg::Kind::Finish`. -/
def kFinish : UInt8 := 2

def EventHeader.kind (m : List UInt8) : UInt8 := m.getD 72 0

/-- The engine's Finish record. -/
def isFinish (m : List UInt8) : Bool :=
  EventHeader.type m = kEventEngineTime ∧ sizeofEngineTimeMsg ≤ EventHeader.len m ∧
    EventHeader.kind m = kFinish

/-- What `open_part` asks of the header it reads. -/
def headerHolds (l : List UInt8) : Bool :=
  JournalFileHeader.size ≤ (JournalFileHeader.ofBytes l).headerBytes.toNat ∧
    crc32c (l.take JournalFileHeader.crcBytes) = JournalFileHeader.readCrc32c l

/-- The loop of `read_block` over the records, with `m` a `std::uint32_t`: nothing where it goes on
for ever. -/
def recordsHold (payload : List UInt8) (byteLen : Nat) : Nat → Nat → Option Bool
  | 0, _ => none
  | n + 1, m =>
    if byteLen ≤ m then some true
    else if byteLen < m + sizeofEventHeader then some false
    else
      let len := EventHeader.len (payload.drop m)
      let past := (m + len) % 2 ^ 32
      if len < sizeofEventHeader ∨ len % 64 ≠ 0 ∨ byteLen < past then some false
      else recordsHold payload byteLen n past

/-- What `read_block` asks of a header and the payload it reads after it. -/
def blockHolds (l payload : List UInt8) : Option Bool :=
  let h := JournalBlockHeader.ofBytes l
  if crc32c payload ≠ h.crc32c then some false
  else recordsHold payload h.byteLen.toNat (h.byteLen.toNat + 1) 0

/-- What `read_block` asks of a header before it reads what follows. -/
def headerStarts (l : List UInt8) : Bool :=
  let h := JournalBlockHeader.ofBytes l
  h.magic = kBlockMagic ∧ h.flags &&& kBlockFlagTrailer = 0 ∧ h.byteLen.toNat ≤ kJournalBlockBytes

/-! ## The tail -/

inductive Step where
  | Record (m : List UInt8)
  | Wait
  | End
  deriving DecidableEq, Repr

/-- What comes of a turn of a loop: `Never` where one inside it does not end. -/
inductive Turn where
  | Returns (s : Step)
  | Throws (what : String)
  | Again
  | Never
  deriving DecidableEq, Repr

structure JournalTail where
  base : Path
  path : Path
  trailerGrace : Int
  opened : Bool := false
  fd : Path := []
  part : Nat := 0
  off : Nat := 0
  block : List UInt8 := []
  at_ : Nat := 0
  lastSeq : UInt64 := 0
  sessionId : UInt64 := 0
  seqGaps : Nat := 0
  trailerAt : Int := 0
  inTrailer : Bool := false
  finished : Bool := false
  gaveUp : Bool := false
  looked : Nat := 0

/-- `to_string`. -/
def JournalError.toText : JournalError → String
  | .BadMagic => "BadMagic"
  | .BadVersion => "BadVersion"
  | .HeaderCorrupt => "HeaderCorrupt"
  | .TooShort => "TooShort"

def describe (e : JournalError × String) : String :=
  if e.2 = "" then e.1.toText else e.1.toText ++ " (" ++ e.2 ++ ")"

namespace JournalTail

/-- The constructor. -/
def create (path : Path) (trailerGrace : Int) : JournalTail where
  base := path
  path := path
  trailerGrace := trailerGrace

variable (looks : Nat → View) (t : JournalTail)

def look : View × JournalTail := (looks t.looked, { t with looked := t.looked + 1 })

def openPrologue : Except (JournalError × String) JournalReader × JournalTail :=
  let (v, t) := t.look looks
  match readAt v t.base JournalFileHeader.size 0 with
  | none => (.error (.TooShort, ""), t)
  | some l =>
    let h := JournalFileHeader.ofBytes l
    if h.magic ≠ kFileMagic then (.error (.BadMagic, ""), t)
    else if headerHolds l = false then (.error (.HeaderCorrupt, ""), t)
    else
      let (v, t) := t.look looks
      match readAt v t.base h.headerBytes.toNat 0 with
      | none => (.error (.TooShort, ""), t)
      | some map => (JournalReader.parsePrologue map, t)

def openPart : Except String Bool × JournalTail :=
  let (v, t) := t.look looks
  match readAt v t.path JournalFileHeader.size 0 with
  | none => (.ok false, t)
  | some l =>
    let h := JournalFileHeader.ofBytes l
    if headerHolds l = false then (.ok false, t)
    else if h.sessionId ≠ t.sessionId then
      (.error ("journal: " ++ String.ofList t.path ++ " is not a part of the session of " ++
        String.ofList t.base ++ s!" (session {h.sessionId}, not {t.sessionId})"), t)
    else (.ok true, { t with fd := t.path, off := h.headerBytes.toNat, block := [], at_ := 0 })

/-- `open`. -/
def openFile : Except String Bool × JournalTail :=
  if t.opened then (.ok true, t)
  else
    let (v, t) := t.look looks
    if (v.disk t.base).isNone then (.ok false, t)
    else
      match t.openPrologue looks with
      | (.error e, t) =>
        -- the writer has made the file and not written its prologue yet
        if e.1 = .TooShort ∨ e.1 = .BadMagic ∨ e.1 = .HeaderCorrupt then (.ok false, t)
        else (.error ("journal " ++ String.ofList t.base ++ ": " ++ describe e), t)
      | (.ok r, t) =>
        match openPart looks { t with sessionId := r.header.sessionId, path := t.base } with
        | (.ok true, t) => (.ok true, { t with opened := true })
        | (r, t) => (r, t)

/-- A block is taken: the end of `read_block`. -/
def takeBlock (h : JournalBlockHeader) (payload : List UInt8) : JournalTail :=
  { t with
    seqGaps :=
      if t.lastSeq ≠ 0 ∧ h.seqFirst ≠ t.lastSeq + 1 then t.seqGaps + 1 else t.seqGaps
    lastSeq := h.seqLast
    block := payload
    at_ := 0
    off := t.off + (JournalBlockHeader.size + h.byteLen.toNat) }

def readBlock : Option Bool × JournalTail :=
  let (v, t) := t.look looks
  match readAt v t.fd JournalBlockHeader.size t.off with
  | none => (some false, t)
  | some l =>
    let h := JournalBlockHeader.ofBytes l
    if h.magic ≠ kBlockMagic then (some false, t)
    else if h.flags &&& kBlockFlagTrailer ≠ 0 then
      let (v, t) := t.look looks
      (some false, { t with inTrailer := true, trailerAt := v.now })
    else if kJournalBlockBytes < h.byteLen.toNat then (some false, t)
    else
      let (v, t) := t.look looks
      match readAt v t.fd h.byteLen.toNat (t.off + JournalBlockHeader.size) with
      | none => (some false, t)
      | some payload =>
        match blockHolds l payload with
        | none => (none, t)
        | some false => (some false, t)
        | some true => (some true, t.takeBlock h payload)

/-- A turn of the loop of `next`. -/
def turn : Turn × JournalTail :=
  if t.at_ < t.block.length then
    let len := EventHeader.len (t.block.drop t.at_)
    let m := slice t.at_ len t.block
    (.Returns (.Record m),
      { t with at_ := (t.at_ + len) % 2 ^ 32, finished := t.finished || isFinish m })
  else if t.inTrailer then
    -- a rotation opens the next part right after the trailer; the session's end opens none
    let nextPath := partPath t.base (t.part + 1)
    let (v, t) := t.look looks
    if (v.disk nextPath).isSome then
      let previous := t.path
      match openPart looks { t with path := nextPath } with
      | (.error what, t) => (.Throws what, t)
      | (.ok false, t) => (.Returns .Wait, { t with path := previous })
      | (.ok true, t) => (.Again, { t with part := t.part + 1, inTrailer := false })
    else if t.finished || t.gaveUp then (.Returns .End, t)
    else
      let (v, t) := t.look looks
      (.Returns (if t.trailerGrace ≤ v.now - t.trailerAt then .End else .Wait), t)
  else
    match t.readBlock looks with
    | (none, t) => (.Never, t)
    | (some true, t) => (.Again, t)
    | (some false, t) =>
      if t.inTrailer then (.Again, t)
      else (.Returns (if t.gaveUp then .End else .Wait), t)

/-- The first turns of the loop. -/
def loop : Nat → JournalTail → Turn × JournalTail
  | 0, t => (.Again, t)
  | n + 1, t =>
    match t.turn looks with
    | (.Again, t) => loop n t
    | r => r

/-- `next`, with a bound on the turns of its loop. -/
def next (n : Nat) : Turn × JournalTail :=
  match t.openFile looks with
  | (.ok true, t) => loop looks n t
  | (.ok false, t) => (.Returns .Wait, t)
  | (.error what, t) => (.Throws what, t)

/-- `next` comes back with this. -/
def Gives (r : Turn) (t' : JournalTail) : Prop :=
  r ≠ .Again ∧ r ≠ .Never ∧ ∃ n, t.next looks n = (r, t')

/-- Calls of `next`, one after the other, and what they come back with. -/
inductive Calls : JournalTail → List Turn → JournalTail → Prop
  | nil (t : JournalTail) : Calls t [] t
  | cons {t t' t'' : JournalTail} {r : Turn} {rs : List Turn} (h : t.Gives looks r t')
      (rest : Calls t' rs t'') : Calls t (r :: rs) t''

/-- The records among what calls come back with. -/
def records (rs : List Turn) : List (List UInt8) :=
  rs.filterMap fun
    | .Returns (.Record m) => some m
    | _ => none

/-- Where the tail stands when it starts on something: after its constructor, after an attempt to
open, after a turn. -/
inductive Stands (t₀ : JournalTail) : JournalTail → Prop
  | start : Stands t₀ t₀
  | opens {t : JournalTail} (h : Stands t₀ t) (hopened : t.opened = false) :
      Stands t₀ (t.openFile looks).2
  | turns {t : JournalTail} (h : Stands t₀ t) (hopened : t.opened = true) :
      Stands t₀ (t.turn looks).2

/-! ## Looks are counted -/

theorem looked_openPart : t.looked ≤ (t.openPart looks).2.looked := by
  unfold openPart
  dsimp only [look]
  repeat' split
  all_goals exact Nat.le_succ _

theorem looked_openPrologue : t.looked ≤ (t.openPrologue looks).2.looked := by
  unfold openPrologue
  dsimp only [look]
  repeat' split
  all_goals first
    | exact Nat.le_succ _
    | exact Nat.le_add_right _ 2

theorem looked_openFile : t.looked ≤ (t.openFile looks).2.looked := by
  unfold openFile
  dsimp only [look]
  split
  · exact Nat.le_refl _
  split
  · exact Nat.le_succ _
  have hprologue := looked_openPrologue looks { t with looked := t.looked + 1 }
  have hle : t.looked ≤ t.looked + 1 := Nat.le_succ _
  split
  · next e t' he =>
      rw [he] at hprologue
      split <;> exact hle.trans hprologue
  next r t' he =>
    rw [he] at hprologue
    have hpart := looked_openPart looks
      { t' with sessionId := r.header.sessionId, path := t'.base }
    split
    all_goals
      next he =>
        rw [he] at hpart
        exact (hle.trans hprologue).trans hpart

theorem looked_readBlock : t.looked ≤ (t.readBlock looks).2.looked := by
  unfold readBlock
  dsimp only [look]
  repeat' split
  all_goals first
    | exact Nat.le_succ _
    | exact Nat.le_add_right _ 2

theorem looked_turn : t.looked ≤ (t.turn looks).2.looked := by
  unfold turn
  split
  · exact Nat.le_refl _
  split
  · dsimp only [look]
    split
    · have hpart := looked_openPart looks
        { t with looked := t.looked + 1, path := partPath t.base (t.part + 1) }
      have hle : t.looked ≤ t.looked + 1 := Nat.le_succ _
      split
      all_goals
        next he =>
          rw [he] at hpart
          exact hle.trans hpart
    · split
      · exact Nat.le_succ _
      · exact Nat.le_add_right _ 2
  · have hread := looked_readBlock looks t
    split
    all_goals
      next he =>
        rw [he] at hread
        first
          | exact hread
          | (split <;> exact hread)

theorem looked_loop (n : Nat) : t.looked ≤ (t.loop looks n).2.looked := by
  induction n generalizing t with
  | zero => exact Nat.le_refl _
  | succ n ih =>
    have hturn := looked_turn looks t
    rw [loop]
    split
    · next t' ht' =>
        rw [ht'] at hturn
        exact hturn.trans (ih t')
    · exact hturn

theorem looked_next (n : Nat) : t.looked ≤ (t.next looks n).2.looked := by
  have hopen := looked_openFile looks t
  unfold next
  split
  · next t' he =>
      rw [he] at hopen
      exact hopen.trans (looked_loop looks t' n)
  all_goals
    next he =>
      rw [he] at hopen
      exact hopen

end JournalTail

end FastMM.Journal
