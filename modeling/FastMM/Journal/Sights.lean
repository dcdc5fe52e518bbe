/-
  Journal/Sights.lean --- a journal that is seen while it is written, and places in it.

  A part is seen up to some byte, with zeros after it.  A header is seen whole or without its
  flags, so a trailer is never taken for what it is not yet.  A block's header of which the magic is
  seen and not the rest is taken for a block without records: `Legible` says that none is seen so
  where a tail stands, and that no checksum holds by chance of bytes that are seen in part.
-/
import FastMM.Foundation.Sight
import FastMM.Journal.Tail
import FastMM.Journal.RoundTrip
import Mathlib.Data.List.Chain
set_option autoImplicit false

namespace FastMM.Journal

open Foundation JournalBlockHeader List

/-! ## Headers seen in part -/

namespace JournalBlockHeader

variable {b : JournalBlockHeader}

theorem flags_ofBytes (l : List UInt8) : (ofBytes l).flags = read32 (slice 32 4 l) := by
  simp [ofBytes, cut, layout, slice, drop_drop]

theorem drop_bytes (b : JournalBlockHeader) :
    b.bytes.drop 32 = le32 b.flags ++ List.ofFn b.reserved := by
  have hsplit : b.bytes = (List.ofFn b.magic ++ (le32 b.byteLen ++ (le64 b.seqFirst ++
      (le64 b.seqLast ++ (le32 b.count ++ le32 b.crc32c))))) ++
        (le32 b.flags ++ List.ofFn b.reserved) := by
    simp [bytes, fields]
  rw [hsplit, drop_left']
  simp

/-- A header that ends in its flags, of which only the lowest byte is used. -/
structure Plain (b : JournalBlockHeader) : Prop where
  flags : b.flags = 0 ∨ b.flags = kBlockFlagTrailer
  reserved : b.reserved = fun _ => 0

theorem Plain.drop_bytes (h : b.Plain) : b.bytes.drop 33 = List.replicate 31 0 := by
  have hdrop : b.bytes.drop 33 = (le32 b.flags ++ List.ofFn b.reserved).drop 1 := by
    rw [← JournalBlockHeader.drop_bytes, drop_drop]
  rw [hdrop, h.reserved]
  rcases h.flags with hflags | hflags <;> rw [hflags] <;> rfl

/-- A header is seen whole, or without its flags. -/
theorem Plain.seen (h : b.Plain) {v n : Nat} (hlen : (seen 0 b.bytes v n).length = size) :
    Foundation.seen 0 b.bytes v n = b.bytes ∨
      (ofBytes (Foundation.seen 0 b.bytes v n)).flags = 0 := by
  by_cases hv : v ≤ 32
  · refine .inr ?_
    have hdrop := drop_seen hv hlen
    rw [flags_ofBytes]
    unfold slice
    rw [hdrop]
    rfl
  · refine .inl (seen_eq_of_drop ?_ (hlen.trans b.length_bytes.symm))
    obtain ⟨j, hj⟩ : ∃ j, v = 33 + j := ⟨v - 33, by omega⟩
    rw [hj, ← drop_drop, h.drop_bytes, drop_replicate, b.length_bytes]
    congr 1
    unfold size
    omega

end JournalBlockHeader

variable (info : JournalSessionInfo)

theorem Block.plain (b : Block) : b.header.Plain := ⟨.inl rfl, rfl⟩

theorem trailer_plain (seq : UInt64) : JournalBlockHeader.Plain
    { flags := kBlockFlagTrailer, seqFirst := seq, seqLast := seq, crc32c := crc32c [] } :=
  ⟨.inr rfl, rfl⟩

/-! ## Records -/

/-- The records of a whole block hold. -/
theorem recordsHold_msgs (done todo : List Msg) (n : Nat) (hn : (todo.flatMap Msg.bytes).length < n)
    (hfits : (done.flatMap Msg.bytes ++ todo.flatMap Msg.bytes).length ≤ kJournalBlockBytes) :
    recordsHold (done.flatMap Msg.bytes ++ todo.flatMap Msg.bytes)
      (done.flatMap Msg.bytes ++ todo.flatMap Msg.bytes).length n (done.flatMap Msg.bytes).length =
        some true := by
  obtain ⟨n, rfl⟩ : ∃ k, n = k + 1 := ⟨n - 1, by omega⟩
  induction todo generalizing done n with
  | nil =>
    rw [recordsHold, if_pos]
    rw [flatMap_nil, append_nil]
  | cons m todo ih =>
    have hlong := m.isMsg.long
    have hgranular := m.isMsg.granular
    unfold kRingMsgGranule at hlong hgranular
    rw [flatMap_cons, length_append] at hn
    obtain ⟨k, rfl⟩ : ∃ k, n = k + 1 := ⟨n - 1, by omega⟩
    obtain ⟨hsplit, hlast, htotal, hlen⟩ := JournalReader.next_msg done m todo
    have hsmall : (done.flatMap Msg.bytes).length + m.bytes.length < 2 ^ 32 := by
      unfold kJournalBlockBytes at hfits
      omega
    have hrest := ih (done ++ [m]) (by rw [← hsplit]; exact hfits) k (by omega)
    rw [← hsplit, hlast] at hrest
    rw [recordsHold, if_neg (by omega), if_neg (by unfold sizeofEventHeader; omega)]
    dsimp only
    rw [hlen, Nat.mod_eq_of_lt hsmall, if_neg (by unfold sizeofEventHeader; omega)]
    exact hrest

theorem Block.holds (b : Block) : blockHolds b.header.bytes b.payload = some true := by
  have hread : ofBytes b.header.bytes = b.header := by
    have hread := b.header.ofBytes_bytes []
    rwa [append_nil] at hread
  have hrecords := recordsHold_msgs [] b.msgs (b.payload.length + 1) (Nat.lt_succ_self _) b.fits
  unfold blockHolds
  dsimp only
  rw [hread, b.byteLen, if_neg (fun hne => hne rfl)]
  exact hrecords

/-! ## A session as it is written -/

/-- A part that is closed. -/
structure Part where
  header : JournalFileHeader
  blocks : List Block
  seq : UInt64

/-- The blocks of a part and its trailer. -/
def Part.body (p : Part) : List UInt8 := p.blocks.flatMap Block.bytes ++ trailerBytes p.seq

def Part.bytes (p : Part) : List UInt8 :=
  p.header.bytes ++ (info.tables ++ p.body)

/-- The files of a session: its parts, each with blocks that are not empty. -/
structure Laid (info : JournalSessionInfo) (base : Path) (files : Path → List UInt8)
    (parts : List Part) : Prop where
  files : ∀ k p, parts[k]? = some p → files (partPath base k) = p.bytes info
  header : ∀ p ∈ parts, IsHeader info p.header
  sessionId : ∀ p ∈ parts, p.header.sessionId = info.sessionId
  filled : ∀ p ∈ parts, ∀ b ∈ p.blocks, b.msgs ≠ []

/-- The paths of a session's parts. -/
def partPaths (base : Path) (parts : List Part) : List Path :=
  (List.range parts.length).map (partPath base)

/-- The records of a session. -/
def sessionMsgs (parts : List Part) : List (List UInt8) := parts.flatMap fun p => partMsgs p.blocks

/-- A look shows files of the session, each up to some byte and with zeros after it, and later
looks show no less; the clock does not go back. -/
structure Shown (base : Path) (files : Path → List UInt8) (parts : List Part)
    (visible : Nat → Path → Nat) (looks : Nat → View) : Prop where
  seen : ∀ i p f, (looks i).disk p = some f → ∃ n, f = seen 0 (files p) (visible i p) n
  grows : ∀ i j p, i ≤ j → visible i p ≤ visible j p
  there : ∀ i k f, (looks i).disk (partPath base k) = some f → k < parts.length
  clock : ∀ i, (looks i).now ≤ (looks (i + 1)).now

/-- A part's trailer is to be read. -/
def TrailerShown (base : Path) (parts : List Part) (v : View)
    (k : Nat) : Prop :=
  ∃ p, parts[k]? = some p ∧ readAt v (partPath base k) JournalBlockHeader.size
    (info.headerBytes + (p.blocks.flatMap Block.bytes).length) = some (trailerBytes p.seq)

/-- A header that holds is seen whole. -/
def HeaderWhole (files : Path → List UInt8) (v : View) (p : Path) : Prop :=
  ∀ l, readAt v p JournalFileHeader.size 0 = some l → headerHolds l = true →
    l = (files p).take JournalFileHeader.size

/-- What is seen where the tail stands is told for what it is.  A block's or trailer's header of
which the magic is seen is seen whole; a payload or a part's header that is seen in part does not
have its checksum by chance; a part that follows the engine's Finish record is there when the tail,
at the trailer before it, looks for it. -/
structure Legible (paths : List Path) (files : Path → List UInt8) (looks : Nat → View)
    (t : JournalTail) : Prop where
  first : t.opened = false → HeaderWhole files (looks (t.looked + 1)) t.base
  part : t.opened = true → t.inTrailer = true →
    HeaderWhole files (looks (t.looked + 1)) (partPath t.base (t.part + 1))
  finish : t.inTrailer = true → t.finished = true → partPath t.base (t.part + 1) ∈ paths →
    (looks t.looked).disk (partPath t.base (t.part + 1)) ≠ none
  header : t.opened = true → t.block.length ≤ t.at_ → t.inTrailer = false → ∀ l,
    readAt (looks t.looked) t.fd JournalBlockHeader.size t.off = some l →
    (ofBytes l).magic = kBlockMagic → l = slice t.off JournalBlockHeader.size (files t.fd)
  payload : t.opened = true → t.block.length ≤ t.at_ → t.inTrailer = false → ∀ payload,
    let h := ofBytes (slice t.off JournalBlockHeader.size (files t.fd))
    let written := slice (t.off + JournalBlockHeader.size) h.byteLen.toNat (files t.fd)
    readAt (looks (t.looked + 1)) t.fd h.byteLen.toNat (t.off + JournalBlockHeader.size) =
      some payload → crc32c payload = crc32c written → payload = written

/-! ## Reads -/

section Reads

variable {info : JournalSessionInfo} {base : Path} {files : Path → List UInt8} {parts : List Part}
  {visible : Nat → Path → Nat} {looks : Nat → View} {v : View} {p : Path} {l : List UInt8}
  {len off i j k : Nat}

theorem readAt_eq_some (hlen : len ≠ 0) (h : readAt v p len off = some l) :
    ∃ f, v.disk p = some f ∧ off + len ≤ f.length ∧ l = slice off len f := by
  unfold readAt at h
  rw [if_neg hlen] at h
  cases hdisk : v.disk p with
  | none =>
    simp [hdisk] at h
  | some f =>
    rw [hdisk] at h
    dsimp only at h
    split at h
    · exact ⟨f, rfl, ‹_›, (Option.some.inj h).symm⟩
    · nomatch h

theorem readAt_length (hlen : len ≠ 0) (h : readAt v p len off = some l) : l.length = len := by
  obtain ⟨f, -, hle, rfl⟩ := readAt_eq_some hlen h
  exact length_slice hle

theorem readAt_of_disk {f : List UInt8} (hdisk : v.disk p = some f) (hle : off + len ≤ f.length) :
    readAt v p len off = some (slice off len f) := by
  unfold readAt
  split_ifs with hlen
  · rw [hlen]
    unfold slice
    rw [take_zero]
  · rw [hdisk]
    exact if_pos hle

/-- A read is of what is seen. -/
theorem Shown.readAt (h : Shown base files parts visible looks) (hlen : len ≠ 0)
    (hread : readAt (looks i) p len off = some l) :
    ∃ n, l = Foundation.seen 0 (slice off len (files p)) (visible i p - off) n := by
  obtain ⟨f, hdisk, -, rfl⟩ := readAt_eq_some hlen hread
  obtain ⟨n, rfl⟩ := h.seen i p f hdisk
  exact slice_seen 0 (files p) (visible i p) n off len

/-- A header that was seen whole is so later. -/
theorem Shown.readAt_le (h : Shown base files parts visible looks) (hij : i ≤ j) (hlen : len ≠ 0)
    (hread : Journal.readAt (looks i) p len off = some (slice off len (files p)))
    (hlater : Journal.readAt (looks j) p len off = some l) : l = slice off len (files p) := by
  obtain ⟨n, hn⟩ := h.readAt hlen hread
  obtain ⟨m, rfl⟩ := h.readAt hlen hlater
  have hgrows := h.grows i j p hij
  refine seen_eq_of_le (by omega) hn.symm ?_
  exact (readAt_length hlen hlater).trans (readAt_length hlen hread).symm

end Reads

/-! ## Where the tail is -/

/-- The blocks before a place in a part. -/
def passed (parts : List Part) (k : Nat) (done : List Block) : List Block :=
  (parts.take k).flatMap Part.blocks ++ done

/-- The number `last_seq_` has after these blocks. -/
def lastSeqOf (bs : List Block) : UInt64 := (bs.getLast?.map Block.seqLast).getD 0

/-- Each block's numbers follow on the block's before it. -/
def Chained (parts : List Part) : Prop :=
  (parts.flatMap Part.blocks).IsChain fun a b => b.seqFirst = a.seqLast + 1

/-- The records after a place in a block of a part. -/
def recordsFrom (parts : List Part) (k : Nat) (todo : List Block) (left : List Msg) :
    List (List UInt8) :=
  left.map Msg.bytes ++ (partMsgs todo ++ sessionMsgs (parts.drop (k + 1)))

/-- The tail has not opened the session. -/
structure Unopened (base : Path) (grace : Int) (t : JournalTail) : Prop where
  opened : t.opened = false
  basePath : t.base = base
  trailerGrace : t.trailerGrace = grace
  part : t.part = 0
  lastSeq : t.lastSeq = 0
  seqGaps : t.seqGaps = 0
  inTrailer : t.inTrailer = false
  finished : t.finished = false
  gaveUp : t.gaveUp = false

/-- The tail is in a part: past some of its blocks and some of the records of the last of these. -/
structure Placed (info : JournalSessionInfo) (base : Path) (grace : Int) (parts : List Part)
    (looks : Nat → View) (t : JournalTail) (p : Part) (done todo : List Block)
    (read left : List Msg) : Prop where
  opened : t.opened = true
  basePath : t.base = base
  trailerGrace : t.trailerGrace = grace
  gaveUp : t.gaveUp = false
  sessionId : t.sessionId = info.sessionId
  part : parts[t.part]? = some p
  fd : t.fd = partPath base t.part
  blocks : p.blocks = done ++ todo
  off : t.off = info.headerBytes + (done.flatMap Block.bytes).length
  block : t.block = read.flatMap Msg.bytes ++ left.flatMap Msg.bytes
  fits : t.block.length ≤ kJournalBlockBytes
  at_ : t.at_ = (read.flatMap Msg.bytes).length
  lastSeq : t.lastSeq = lastSeqOf (passed parts t.part done)
  seqGaps : Chained parts → t.seqGaps = 0
  trailer : t.inTrailer = true → todo = [] ∧ ∃ i, i + 1 < t.looked ∧
    TrailerShown info base parts (looks i) t.part ∧ t.trailerAt = (looks (i + 1)).now

/-- Where a tail stands that has returned the records `told`, with the records `rest` to come. -/
structure Follows (info : JournalSessionInfo) (base : Path) (grace : Int) (parts : List Part)
    (looks : Nat → View) (t₀ t : JournalTail) (told rest : List (List UInt8)) : Prop where
  stands : t₀.Stands looks t
  finished : t.finished = true ↔ ∃ m ∈ told, isFinish m = true
  place : (Unopened base grace t ∧ rest = sessionMsgs parts) ∨
    ∃ p done todo read left, Placed info base grace parts looks t p done todo read left ∧
      rest = recordsFrom parts t.part todo left

end FastMM.Journal
