/-
  Journal/Following.lean --- what a tail returns of a journal that grows under it.
-/
import FastMM.Journal.Sights
set_option autoImplicit false

namespace FastMM.Journal

open Foundation JournalBlockHeader JournalTail List

section Steps

variable {info : JournalSessionInfo} {base : Path} {grace : Int} {files : Path → List UInt8}
  {parts : List Part} {visible : Nat → Path → Nat} {looks : Nat → View} {t : JournalTail}
  {p : Part} {done todo : List Block} {read left : List Msg} {l payload : List UInt8}

/-! ## Blocks -/

namespace Placed

section

variable (h : Placed info base grace parts looks t p done todo read left)
variable (hl : Laid info base files parts)
include h hl

/-- The part's file from where the tail is. -/
theorem file : ∃ pre, pre.length = t.off ∧
      files t.fd = pre ++ (todo.flatMap Block.bytes ++ trailerBytes p.seq) := by
  refine ⟨p.header.bytes ++ (info.tables ++ done.flatMap Block.bytes), ?_, ?_⟩
  · rw [length_append, length_append, p.header.length_bytes, h.off, ← info.length_tables,
      Nat.add_assoc]
  rw [h.fd, hl.files _ _ h.part]
  unfold Part.bytes Part.body
  rw [h.blocks, flatMap_append]
  simp only [append_assoc]

/-- The header where the tail is, of a block or of the trailer. -/
theorem header_at :
    slice t.off JournalBlockHeader.size (files t.fd) =
      match todo with
      | [] => trailerBytes p.seq
      | b :: _ => b.header.bytes := by
  obtain ⟨pre, hpre, hfile⟩ := h.file hl
  rw [hfile, ← hpre]
  cases todo with
  | nil =>
    have hslice := slice_middle pre (trailerBytes p.seq) []
    rw [length_trailerBytes, append_nil] at hslice
    exact hslice
  | cons b todo =>
    have hslice := slice_middle pre b.header.bytes
      (b.payload ++ (todo.flatMap Block.bytes ++ trailerBytes p.seq))
    rw [b.header.length_bytes] at hslice
    refine Eq.trans ?_ hslice
    rw [flatMap_cons]
    unfold Block.bytes
    simp only [append_assoc]

end

/-- The block where the tail is. -/
theorem block_at {b : Block} (h : Placed info base grace parts looks t p done (b :: todo) read left)
    (hl : Laid info base files parts) :
    slice t.off (JournalBlockHeader.size + b.payload.length) (files t.fd) =
      b.header.bytes ++ b.payload := by
  obtain ⟨pre, hpre, hfile⟩ := h.file hl
  have hslice := slice_middle pre b.bytes (todo.flatMap Block.bytes ++ trailerBytes p.seq)
  rw [b.length_bytes] at hslice
  rw [hfile, ← hpre, flatMap_cons, append_assoc]
  exact hslice

end Placed

/-- The payload of the block where the tail is. -/
theorem Placed.payload_at {b : Block}
    (h : Placed info base grace parts looks t p done (b :: todo) read left)
    (hl : Laid info base files parts) :
    slice (t.off + JournalBlockHeader.size) b.payload.length (files t.fd) = b.payload := by
  have hwhole := congrArg (List.drop JournalBlockHeader.size) (h.block_at hl)
  rw [drop_left' b.header.length_bytes] at hwhole
  refine Eq.trans ?_ hwhole
  unfold slice
  rw [drop_take, drop_drop, Nat.add_sub_cancel_left]

/-- The header of a trailer. -/
theorem ofBytes_trailer (seq : UInt64) : JournalBlockHeader.ofBytes (trailerBytes seq) =
    { flags := kBlockFlagTrailer, seqFirst := seq, seqLast := seq, crc32c := crc32c [] } := by
  have hread := ofBytes_bytes
    { flags := kBlockFlagTrailer, seqFirst := seq, seqLast := seq, crc32c := crc32c [] } []
  rwa [append_nil] at hread

theorem Block.ofBytes_header (b : Block) : JournalBlockHeader.ofBytes b.header.bytes =
    b.header := by
  have hread := b.header.ofBytes_bytes []
  rwa [append_nil] at hread

section

variable (h : Placed info base grace parts looks t p done todo read left)
variable (hl : Laid info base files parts)
include h hl

/-- Flags are seen of a trailer only, and of it whole. -/
theorem Placed.trailer_read (hs : Shown base files parts visible looks) {i : Nat}
    (hread : readAt (looks i) t.fd JournalBlockHeader.size t.off = some l)
    (hflags : (JournalBlockHeader.ofBytes l).flags &&& kBlockFlagTrailer ≠ 0) :
    todo = [] ∧ l = trailerBytes p.seq := by
  have hsize : JournalBlockHeader.size ≠ 0 := by
    unfold JournalBlockHeader.size
    omega
  have hlen := readAt_length hsize hread
  obtain ⟨n, hseen⟩ := hs.readAt hsize hread
  have hat := h.header_at hl
  have hnone : (JournalBlockHeader.ofBytes l).flags ≠ 0 := by
    intro hzero
    rw [hzero] at hflags
    exact hflags (show (0 : UInt32) &&& kBlockFlagTrailer = 0 by decide)
  cases todo with
  | nil =>
    refine ⟨rfl, ?_⟩
    rw [hat] at hseen
    rw [hseen] at hlen hnone ⊢
    exact ((trailer_plain p.seq).seen hlen).resolve_right hnone
  | cons b todo =>
    rw [hat] at hseen
    rw [hseen] at hlen hnone
    have hwhole := (b.plain.seen hlen).resolve_right hnone
    rw [hwhole, b.ofBytes_header] at hnone
    exact absurd rfl hnone

/-- A block that holds is the one that stands there. -/
theorem Placed.block_read
    (hw : Legible (partPaths base parts) files looks t) (hused : t.block.length ≤ t.at_)
    (hin : t.inTrailer = false)
    (hread : readAt (looks t.looked) t.fd JournalBlockHeader.size t.off = some l)
    (hstarts : headerStarts l = true)
    (hpayload : readAt (looks (t.looked + 1)) t.fd (ofBytes l).byteLen.toNat
      (t.off + JournalBlockHeader.size) = some payload)
    (hholds : blockHolds l payload ≠ some false) :
    ∃ b rest, todo = b :: rest ∧ l = b.header.bytes ∧ payload = b.payload := by
  have hl' := hw.header h.opened hused hin l hread (of_decide_eq_true hstarts).1
  have hat := hl'.trans (h.header_at hl)
  cases todo with
  | nil =>
    unfold headerStarts at hstarts
    rw [hat, ofBytes_trailer] at hstarts
    exact absurd (of_decide_eq_true hstarts).2.1
      (show ¬ kBlockFlagTrailer &&& kBlockFlagTrailer = 0 by decide)
  | cons b todo =>
    have hat : l = b.header.bytes := hat
    refine ⟨b, todo, rfl, hat, ?_⟩
    have hwritten := hw.payload h.opened hused hin payload
    dsimp only at hwritten
    rw [← hl', hat, b.ofBytes_header, b.byteLen, h.payload_at hl] at hwritten
    rw [hat, b.ofBytes_header, b.byteLen] at hpayload
    refine hwritten hpayload ?_
    by_contra hne
    refine hholds ?_
    unfold blockHolds
    rw [hat, b.ofBytes_header]
    exact if_pos hne

/-- `read_block` takes the next block, or a trailer where there is none, or nothing. -/
theorem Placed.readBlock (hs : Shown base files parts visible looks)
    (hw : Legible (partPaths base parts) files looks t) (hused : t.block.length ≤ t.at_)
    (hin : t.inTrailer = false) :
    (∃ b rest, todo = b :: rest ∧ t.readBlock looks =
      (some true, takeBlock { t with looked := t.looked + 2 } b.header b.payload)) ∨
    (todo = [] ∧ TrailerShown info base parts (looks t.looked) t.part ∧ t.readBlock looks =
      (some false, { t with
        looked := t.looked + 2
        inTrailer := true
        trailerAt := (looks (t.looked + 1)).now })) ∨
    ∃ n, t.readBlock looks = (some false, { t with looked := n }) := by
  have hpos : JournalBlockHeader.size ≠ 0 := by
    unfold JournalBlockHeader.size
    omega
  unfold JournalTail.readBlock
  dsimp only [JournalTail.look]
  cases hread : readAt (looks t.looked) t.fd JournalBlockHeader.size t.off with
  | none => exact .inr (.inr ⟨_, rfl⟩)
  | some l =>
    dsimp only
    by_cases hmagic : (ofBytes l).magic ≠ kBlockMagic
    · rw [if_pos hmagic]
      exact .inr (.inr ⟨_, rfl⟩)
    rw [if_neg hmagic]
    by_cases hflags : (ofBytes l).flags &&& kBlockFlagTrailer ≠ 0
    · obtain ⟨hnil, rfl⟩ := h.trailer_read hl hs hread hflags
      rw [if_pos hflags]
      refine .inr (.inl ⟨hnil, ⟨p, h.part, ?_⟩, rfl⟩)
      rw [h.blocks, hnil, append_nil, ← h.off, ← h.fd]
      exact hread
    rw [if_neg hflags]
    split_ifs with hlong
    · exact .inr (.inr ⟨_, rfl⟩)
    have hstarts : headerStarts l = true :=
      decide_eq_true ⟨not_not.mp hmagic, not_not.mp hflags, Nat.le_of_not_lt hlong⟩
    cases hpayload : readAt (looks (t.looked + 1)) t.fd
        (ofBytes l).byteLen.toNat (t.off + JournalBlockHeader.size) with
    | none => exact .inr (.inr ⟨_, rfl⟩)
    | some payload =>
      dsimp only
      cases hholds : blockHolds l payload with
      | some holds =>
        cases holds with
        | false => exact .inr (.inr ⟨_, rfl⟩)
        | true =>
          obtain ⟨b, rest, htodo, rfl, rfl⟩ := h.block_read hl hw hused hin hread hstarts hpayload
            (by rw [hholds]; simp)
          refine .inl ⟨b, rest, htodo, ?_⟩
          rw [b.ofBytes_header]
      | none =>
        obtain ⟨b, rest, -, rfl, rfl⟩ := h.block_read hl hw hused hin hread hstarts hpayload
          (by rw [hholds]; simp)
        simp [b.holds] at hholds

end

/-- The tail past the block it takes. -/
theorem Placed.takeBlock {b : Block}
    (h : Placed info base grace parts looks t p done (b :: todo) read left) (n : Nat)
    (hin : t.inTrailer = false) :
    Placed info base grace parts looks
      (takeBlock { t with looked := n } b.header b.payload) p (done ++ [b]) todo []
      b.msgs := by
  have hblocks : p.blocks = (done ++ [b]) ++ todo := by
    rw [h.blocks, append_assoc]
    rfl
  refine ⟨h.opened, h.basePath, h.trailerGrace, h.gaveUp, h.sessionId, h.part, h.fd, hblocks, ?_,
    rfl, b.fits, rfl, ?_, ?_, ?_⟩
  · show t.off + (JournalBlockHeader.size + b.header.byteLen.toNat) = _
    rw [h.off, b.byteLen, flatMap_append, flatMap_singleton, length_append,
      b.length_bytes, Nat.add_assoc]
  · unfold lastSeqOf passed
    rw [← append_assoc, getLast?_concat]
    rfl
  · intro hchain
    show (if t.lastSeq ≠ 0 ∧ b.seqFirst ≠ t.lastSeq + 1 then t.seqGaps + 1 else t.seqGaps) = 0
    rw [if_neg, h.seqGaps hchain]
    rintro ⟨hne, hgap⟩
    rw [h.lastSeq] at hne hgap
    have hall : parts.flatMap Part.blocks = passed parts t.part done ++
        (b :: todo ++ (parts.drop (t.part + 1)).flatMap Part.blocks) := by
      have hdrop : parts.drop t.part = p :: parts.drop (t.part + 1) :=
        (List.getElem?_eq_some_iff.mp h.part).2 ▸ drop_eq_getElem_cons _
      calc parts.flatMap Part.blocks
          = (parts.take t.part ++ parts.drop t.part).flatMap Part.blocks := by
            rw [take_append_drop]
        _ = _ := by
            rw [hdrop, flatMap_append, flatMap_cons, h.blocks]
            unfold passed
            simp only [append_assoc]
    unfold Chained at hchain
    rw [hall] at hchain
    have hnext := (isChain_append.mp hchain).2.2
    unfold lastSeqOf at hne hgap
    cases hlast : (passed parts t.part done).getLast? with
    | none =>
      rw [hlast] at hne
      exact hne rfl
    | some a =>
      rw [hlast] at hgap
      exact hgap (hnext a hlast b rfl)
  · exact fun htrailer => absurd (hin.symm.trans htrailer) (by simp)

/-- The tail past a record it returns. -/
theorem Placed.takeRecord {m : Msg}
    (h : Placed info base grace parts looks t p done todo read (m :: left)) :
    EventHeader.len (t.block.drop t.at_) = m.bytes.length ∧
    slice t.at_ m.bytes.length t.block = m.bytes ∧ t.at_ < t.block.length ∧
    Placed info base grace parts looks { t with
        at_ := (t.at_ + m.bytes.length) % 2 ^ 32
        finished := t.finished || isFinish m.bytes } p done todo (read ++ [m]) left := by
  have hlong := m.isMsg.long
  unfold kRingMsgGranule at hlong
  have hfits := h.fits
  have hblock := h.block
  rw [flatMap_cons] at hblock
  have hlen : t.block.length = (read.flatMap Msg.bytes).length +
      (m.bytes.length + (left.flatMap Msg.bytes).length) := by
    rw [hblock, length_append, length_append]
  have hlast : ((read ++ [m]).flatMap Msg.bytes).length =
      (read.flatMap Msg.bytes).length + m.bytes.length := by
    rw [flatMap_append, flatMap_singleton, length_append]
  have hsmall : t.at_ + m.bytes.length < 2 ^ 32 := by
    unfold kJournalBlockBytes at hfits
    rw [h.at_]
    omega
  refine ⟨?_, ?_, by rw [h.at_]; omega, h.opened, h.basePath, h.trailerGrace, h.gaveUp, h.sessionId,
    h.part, h.fd, h.blocks, h.off, ?_, hfits, ?_, h.lastSeq, h.seqGaps, h.trailer⟩
  · rw [h.at_, hblock, drop_left]
    unfold EventHeader.len
    rw [take_append_of_le_length (by omega), m.isMsg.len]
  · rw [h.at_, hblock]
    exact slice_middle _ _ _
  · rw [hblock, flatMap_append, flatMap_singleton, append_assoc]
  · rw [Nat.mod_eq_of_lt hsmall, h.at_, hlast]

/-! ## Parts -/

/-- The first bytes of a part's file are its header. -/
theorem Laid.take_header (hl : Laid info base files parts) {k : Nat} (hk : parts[k]? = some p) :
    (files (partPath base k)).take JournalFileHeader.size = p.header.bytes := by
  rw [hl.files k p hk]
  exact take_left' p.header.length_bytes

theorem ofBytes_header (h : JournalFileHeader) : JournalFileHeader.ofBytes h.bytes = h := by
  have hread := h.ofBytes_bytes []
  rwa [append_nil] at hread

/-- `open_part` opens the part, or finds no header that holds. -/
theorem openPart_spec (hl : Laid info base files parts) {k : Nat} (hk : parts[k]? = some p)
    (hpath : t.path = partPath base k) (hsession : t.sessionId = info.sessionId)
    (hwhole : HeaderWhole files (looks t.looked) t.path) :
    t.openPart looks = (.ok false, { t with looked := t.looked + 1 }) ∨
    t.openPart looks = (.ok true, { t with
      looked := t.looked + 1
      fd := partPath base k
      off := info.headerBytes
      block := []
      at_ := 0 }) := by
  unfold openPart
  dsimp only [JournalTail.look]
  cases hread : readAt (looks t.looked) t.path JournalFileHeader.size 0 with
  | none => exact .inl rfl
  | some l =>
    dsimp only
    by_cases hholds : headerHolds l = false
    · rw [if_pos hholds]
      exact .inl rfl
    have hl' := hwhole l hread (Bool.not_eq_false _ ▸ hholds)
    rw [hpath, hl.take_header hk] at hl'
    have hmem := mem_of_getElem? hk
    rw [if_neg hholds, hl', ofBytes_header, if_neg, (hl.header p hmem).headerBytes, hpath]
    · exact .inr rfl
    · rw [hl.sessionId p hmem, hsession]
      exact fun hne => hne rfl

/-- The first place in a part. -/
theorem placed_part {k : Nat} (hk : parts[k]? = some p) (hopened : t.opened = true)
    (hbase : t.base = base) (hgrace : t.trailerGrace = grace) (hgaveUp : t.gaveUp = false)
    (hsession : t.sessionId = info.sessionId) (hpart : t.part = k) (hfd : t.fd = partPath base k)
    (hoff : t.off = info.headerBytes) (hblock : t.block = []) (hat : t.at_ = 0)
    (hlast : t.lastSeq = lastSeqOf (passed parts k [])) (hgaps : Chained parts → t.seqGaps = 0)
    (hin : t.inTrailer = false) :
    Placed info base grace parts looks t p [] p.blocks [] [] := by
  subst hpart
  exact ⟨hopened, hbase, hgrace, hgaveUp, hsession, hk, hfd, rfl, hoff, hblock,
    by rw [hblock]; exact Nat.zero_le _, hat, hlast, hgaps,
    fun htrailer => absurd (hin.symm.trans htrailer) (by simp)⟩

/-! ## Turns -/

/-- A look alone does not move the tail. -/
theorem Placed.look (h : Placed info base grace parts looks t p done todo read left) {n : Nat}
    (path : Path) (hn : t.inTrailer = true → t.looked ≤ n) :
    Placed info base grace parts looks { t with looked := n, path := path } p done todo
      read left := by
  refine ⟨h.opened, h.basePath, h.trailerGrace, h.gaveUp, h.sessionId, h.part, h.fd,
    h.blocks, h.off, h.block, h.fits, h.at_, h.lastSeq, h.seqGaps, fun hin => ?_⟩
  obtain ⟨hnil, i, hi, hshown, hat⟩ := h.trailer hin
  exact ⟨hnil, i, lt_of_lt_of_le hi (hn hin), hshown, hat⟩

/-- A bound on the turns before the tail comes back: a block is taken at once, and a part is left
for good. -/
def pace (parts : List Part) (t : JournalTail) : Nat :=
  4 * (parts.length - t.part) +
    if t.at_ < t.block.length then 0 else if t.inTrailer = true then 1 else 2

/-- The session's last trailer has been seen. -/
def Over (info : JournalSessionInfo) (base : Path) (parts : List Part) (looks : Nat → View)
    (t : JournalTail) : Prop :=
  ∃ i, i < t.looked ∧ TrailerShown info base parts (looks i) (parts.length - 1)

/-- Once a trailer has been there for the grace, as the tail reads the clock, the next part was
there when it looked for it before. -/
def Prompt (info : JournalSessionInfo) (base : Path) (grace : Int) (parts : List Part)
    (looks : Nat → View) : Prop :=
  ∀ k i j, k + 1 < parts.length → TrailerShown info base parts (looks i) k → i ≤ j →
    (looks i).now + grace ≤ (looks (j + 1)).now → (looks j).disk (partPath base (k + 1)) ≠ none

/-- What comes of a turn, with the records `told` returned and `rest` to come. -/
def Comes (info : JournalSessionInfo) (base : Path) (grace : Int) (parts : List Part)
    (looks : Nat → View) (t₀ : JournalTail) (told rest : List (List UInt8)) (bound : Nat) :
    Turn × JournalTail → Prop
  | (.Returns (.Record m), t) =>
    ∃ later, rest = m :: later ∧ Follows info base grace parts looks t₀ t (told ++ [m]) later
  | (.Returns .Wait, t) => Follows info base grace parts looks t₀ t told rest
  | (.Returns .End, t) =>
    Follows info base grace parts looks t₀ t told rest ∧ Over info base parts looks t
  | (.Again, t) =>
    Follows info base grace parts looks t₀ t told rest ∧ t.opened = true ∧ pace parts t < bound
  | (.Throws _, _) => False
  | (.Never, _) => False

section Turn

variable {t₀ t' : JournalTail} {told : List (List UInt8)} {r : Turn}
variable {rest : List (List UInt8)}

theorem stands_turn (hstands : t₀.Stands looks t) (hopened : t.opened = true)
    (hturn : t.turn looks = (r, t')) : t₀.Stands looks t' := by
  have hnext := hstands.turns hopened
  rw [hturn] at hnext
  exact hnext

/-- Between records the block is used up. -/
theorem Placed.used (h : Placed info base grace parts looks t p done todo read []) :
    t.at_ = t.block.length := by
  rw [h.at_, h.block, flatMap_nil, append_nil]

/-- A turn inside a block returns its next record. -/
theorem turn_record {m : Msg}
    (h : Placed info base grace parts looks t p done todo read (m :: left))
    (hstands : t₀.Stands looks t) (hfinished : t.finished = true ↔ ∃ m ∈ told, isFinish m = true) :
    Comes info base grace parts looks t₀ told (recordsFrom parts t.part todo (m :: left))
      (pace parts t) (t.turn looks) := by
  obtain ⟨hlen, hslice, hlt, hplaced⟩ := h.takeRecord
  have hturn : t.turn looks = (.Returns (.Record m.bytes), { t with
      at_ := (t.at_ + m.bytes.length) % 2 ^ 32
      finished := t.finished || isFinish m.bytes }) := by
    unfold JournalTail.turn
    rw [if_pos hlt]
    dsimp only
    rw [hlen, hslice]
  have hnext := stands_turn hstands h.opened hturn
  rw [hturn]
  refine ⟨recordsFrom parts t.part todo left, rfl, hnext, ?_,
    .inr ⟨p, done, todo, read ++ [m], left, hplaced, rfl⟩⟩
  refine Bool.or_eq_true_iff.trans ((or_congr_left hfinished).trans ?_)
  constructor
  · rintro (⟨x, hx, hfinish⟩ | hnow)
    · exact ⟨x, mem_append_left _ hx, hfinish⟩
    · exact ⟨m.bytes, mem_append_right _ mem_cons_self, hnow⟩
  · rintro ⟨x, hx, hfinish⟩
    rcases mem_append.mp hx with hbefore | hnow
    · exact .inl ⟨x, hbefore, hfinish⟩
    · exact .inr (mem_singleton.mp hnow ▸ hfinish)

section

variable (hl : Laid info base files parts) (hs : Shown base files parts visible looks)
include hl hs

section

variable (h : Placed info base grace parts looks t p done todo read [])
variable (hw : Legible (partPaths base parts) files looks t) (hstands : t₀.Stands looks t)
variable (hfinished : t.finished = true ↔ ∃ m ∈ told, isFinish m = true)
include h hw hstands hfinished

/-- A turn between blocks takes the next one, or the trailer, or waits. -/
theorem turn_read (hin : t.inTrailer = false) :
    Comes info base grace parts looks t₀ told (recordsFrom parts t.part todo []) (pace parts t)
      (t.turn looks) := by
  have hused := h.used
  have hnot : ¬ t.at_ < t.block.length := by omega
  have hpace : pace parts t = 4 * (parts.length - t.part) + 2 := by
    unfold pace
    rw [if_neg hnot, if_neg (by rw [hin]; simp)]
  have hopen : t.turn looks = t.turn looks := rfl
  conv_rhs at hopen => unfold JournalTail.turn
  rw [if_neg hnot, if_neg (by rw [hin]; simp)] at hopen
  rcases h.readBlock hl hs hw hused.ge hin with ⟨b, rest, rfl, hread⟩ |
    ⟨rfl, hshown, hread⟩ | ⟨n, hread⟩
  · rw [hread] at hopen
    dsimp only at hopen
    have hplaced := h.takeBlock (t.looked + 2) hin
    have hnext := stands_turn hstands h.opened hopen
    have hmsgs := hl.filled p (mem_of_getElem? h.part) b (by
      rw [h.blocks]
      exact mem_append_right _ mem_cons_self)
    have hpos : 0 < b.payload.length := by
      obtain ⟨m, ms, hcons⟩ := exists_cons_of_ne_nil hmsgs
      have hlong := m.isMsg.long
      unfold kRingMsgGranule at hlong
      unfold Block.payload
      rw [hcons, flatMap_cons, length_append]
      omega
    rw [hopen]
    refine ⟨⟨hnext, hfinished, .inr ⟨p, _, _, _, _, hplaced, ?_⟩⟩, h.opened, ?_⟩
    · unfold recordsFrom partMsgs
      rw [flatMap_cons, append_assoc]
      rfl
    · rw [hpace]
      show 4 * (parts.length - t.part) + (if 0 < b.payload.length then 0 else _) < _
      rw [if_pos hpos]
      omega
  · rw [hread] at hopen
    dsimp only at hopen
    rw [if_pos rfl] at hopen
    have hnext := stands_turn hstands h.opened hopen
    have hplaced : Placed info base grace parts looks { t with
        looked := t.looked + 2
        inTrailer := true
        trailerAt := (looks (t.looked + 1)).now } p done [] read [] :=
      ⟨h.opened, h.basePath, h.trailerGrace, h.gaveUp, h.sessionId, h.part, h.fd, h.blocks, h.off,
        h.block, h.fits, h.at_, h.lastSeq, h.seqGaps, fun _ => ⟨rfl, t.looked,
          Nat.lt_succ_self (t.looked + 1), hshown, rfl⟩⟩
    rw [hopen]
    refine ⟨⟨hnext, hfinished, .inr ⟨p, _, _, _, _, hplaced, rfl⟩⟩, h.opened, ?_⟩
    rw [hpace]
    show 4 * (parts.length - t.part) + (if t.at_ < t.block.length then 0 else if true = true then 1
      else 2) < _
    rw [if_neg hnot, if_pos rfl]
    omega
  · have hturn : t.turn looks = (.Returns .Wait, { t with looked := n }) := by
      rw [hopen, hread]
      dsimp only
      rw [if_neg (by rw [hin]; simp), if_neg (by rw [h.gaveUp]; simp)]
    have hnext := stands_turn hstands h.opened hturn
    have hplaced := h.look t.path (n := n) fun htrailer =>
      absurd (hin.symm.trans htrailer) (by simp)
    rw [hturn]
    exact ⟨hnext, hfinished, .inr ⟨p, _, _, _, _, hplaced, rfl⟩⟩

/-- A turn at a trailer opens the next part, or ends, or waits. -/
theorem turn_trailer (hprompt : Prompt info base grace parts looks) (hin : t.inTrailer = true) :
    Comes info base grace parts looks t₀ told (recordsFrom parts t.part todo []) (pace parts t)
      (t.turn looks) := by
  have hused := h.used
  have hnot : ¬ t.at_ < t.block.length := by omega
  have hpace : pace parts t = 4 * (parts.length - t.part) + 1 := by
    unfold pace
    rw [if_neg hnot, if_pos hin]
  obtain ⟨rfl, i, hi, hshown, hat⟩ := h.trailer hin
  have hfollows : ∀ {r : Turn} {n : Nat}, t.turn looks = (r, { t with looked := n }) →
    t.looked ≤ n →
      Follows info base grace parts looks t₀ { t with looked := n } told
        (recordsFrom parts t.part [] []) := fun hturn hn =>
    ⟨stands_turn hstands h.opened hturn, hfinished,
      .inr ⟨p, done, [], read, [], h.look t.path fun _ => hn, rfl⟩⟩
  have hlt : t.part < parts.length := (List.getElem?_eq_some_iff.mp h.part).1
  have hturn := JournalTail.turn.eq_def looks t
  rw [if_neg hnot, if_pos hin] at hturn
  dsimp only [JournalTail.look] at hturn
  cases hdisk : (looks t.looked).disk (partPath t.base (t.part + 1)) with
  | some f =>
    have hmore : t.part + 1 < parts.length := hs.there t.looked (t.part + 1) f (h.basePath ▸ hdisk)
    have hk : parts[t.part + 1]? = some parts[t.part + 1] := getElem?_eq_getElem hmore
    rw [hdisk, if_pos (show (some f).isSome = true from rfl)] at hturn
    rcases openPart_spec (t := { t with
        looked := t.looked + 1
        path := partPath t.base (t.part + 1) }) hl hk
          (congrArg (partPath · (t.part + 1)) h.basePath)
      h.sessionId (hw.part h.opened hin) with hpart | hpart
    · rw [hpart] at hturn
      rw [hturn]
      exact hfollows hturn (Nat.le_add_right _ 2)
    rw [hpart] at hturn
    have hnext := stands_turn hstands h.opened hturn
    rw [hturn]
    refine ⟨⟨hnext, hfinished, .inr ⟨parts[t.part + 1], [], _, [], [], placed_part hk h.opened
      h.basePath h.trailerGrace h.gaveUp h.sessionId rfl rfl rfl rfl rfl ?_ h.seqGaps rfl, ?_⟩⟩,
      h.opened, ?_⟩
    · have htake : (parts.take (t.part + 1)).flatMap Part.blocks =
          (parts.take t.part).flatMap Part.blocks ++ p.blocks := by
        rw [take_add_one, h.part, flatMap_append]
        exact congrArg _ (append_nil _)
      rw [h.lastSeq]
      unfold passed
      rw [htake, h.blocks, append_nil, append_nil]
    · have hdrop := drop_eq_getElem_cons hmore
      unfold recordsFrom sessionMsgs
      rw [hdrop, flatMap_cons]
      rfl
    · rw [hpace]
      show 4 * (parts.length - (t.part + 1)) + (if 0 < ([] : List UInt8).length then 0 else
        if false = true then 1 else 2) < _
      rw [if_neg (show ¬ 0 < ([] : List UInt8).length from Nat.lt_irrefl 0), if_neg (by simp)]
      omega
  | none =>
    rw [hdisk, if_neg (by simp)] at hturn
    have hover : ∀ n, t.looked ≤ n → ¬ t.part + 1 < parts.length →
        Over info base parts looks { t with looked := n } := by
      intro n hn hmore
      have hlast : t.part = parts.length - 1 := by omega
      refine ⟨i, ?_, hlast ▸ hshown⟩
      show i < n
      omega
    by_cases hfin : t.finished = true
    · rw [if_pos (by rw [hfin]; rfl)] at hturn
      rw [hturn]
      refine ⟨hfollows hturn (Nat.le_succ _), hover _ (Nat.le_succ _) fun hmore => ?_⟩
      refine hw.finish hin hfin ?_ hdisk
      rw [h.basePath]
      exact mem_map.mpr ⟨_, mem_range.mpr hmore, rfl⟩
    · rw [if_neg (by rw [h.gaveUp]; simpa using hfin)] at hturn
      split_ifs at hturn with hgrace
      · rw [hturn]
        have htwo : t.looked ≤ t.looked + 2 := Nat.le_add_right _ 2
        refine ⟨hfollows hturn htwo, hover _ htwo fun hmore => ?_⟩
        have hclock := hs.clock i
        refine hprompt t.part i t.looked hmore hshown (by omega) ?_ (h.basePath ▸ hdisk)
        rw [h.trailerGrace, hat] at hgrace
        omega
      · rw [hturn]
        exact hfollows hturn (Nat.le_add_right _ 2)

end

/-- What comes of a turn in the session. -/
theorem turn_spec (hprompt : Prompt info base grace parts looks)
    (hw : Legible (partPaths base parts) files looks t)
    (h : Follows info base grace parts looks t₀ t told rest) (hopened : t.opened = true) :
    Comes info base grace parts looks t₀ told rest (pace parts t) (t.turn looks) := by
  rcases h.place with ⟨hnot, -⟩ | ⟨p, done, todo, read, left, hplaced, rfl⟩
  · exact absurd (hopened.symm.trans hnot.opened) (by simp)
  cases left with
  | cons m left => exact turn_record hplaced h.stands h.finished
  | nil =>
    cases hin : t.inTrailer with
    | false => exact turn_read hl hs hplaced hw h.stands h.finished hin
    | true => exact turn_trailer hl hs hplaced hw h.stands h.finished hprompt hin

end

/-! ## Calls -/

theorem Comes.mono {r : Turn × JournalTail} {m n : Nat} (hmn : m ≤ n)
    (h : Comes info base grace parts looks t₀ told rest m r) :
    Comes info base grace parts looks t₀ told rest n r := by
  obtain ⟨r, t⟩ := r
  cases r with
  | Returns s => cases s <;> exact h
  | Throws what => exact h
  | Again => exact ⟨h.1, h.2.1, lt_of_lt_of_le h.2.2 hmn⟩
  | Never => exact h

/-- A session whose looks a tail from `t₀` can follow to its end. -/
structure Followable (info : JournalSessionInfo) (base : Path) (grace : Int)
    (files : Path → List UInt8) (parts : List Part) (visible : Nat → Path → Nat)
    (looks : Nat → View) (t₀ : JournalTail) : Prop where
  laid : Laid info base files parts
  shown : Shown base files parts visible looks
  prompt : Prompt info base grace parts looks
  legible : ∀ t, t₀.Stands looks t → Legible (partPaths base parts) files looks t

section

variable (hf : Followable info base grace files parts visible looks t₀)
include hf

/-- What comes of a turn of its tail. -/
theorem Followable.turn (h : Follows info base grace parts looks t₀ t told rest)
    (hopened : t.opened = true) :
    Comes info base grace parts looks t₀ told rest (pace parts t) (t.turn looks) :=
  turn_spec hf.laid hf.shown hf.prompt (hf.legible t h.stands) h hopened

/-- What comes of the loop. -/
theorem loop_spec (n : Nat)
    (h : Follows info base grace parts looks t₀ t told rest) (hopened : t.opened = true) :
    Comes info base grace parts looks t₀ told rest (pace parts t + 1) (t.loop looks n) := by
  induction n generalizing t with
  | zero => exact ⟨h, hopened, Nat.lt_succ_self _⟩
  | succ n ih =>
    have hturn := hf.turn h hopened
    rw [JournalTail.loop]
    cases he : t.turn looks with
    | mk r t' =>
      rw [he] at hturn
      cases r with
      | Again => exact (ih hturn.1 hturn.2.1).mono (Nat.succ_le_succ hturn.2.2.le)
      | Returns s => exact hturn.mono (Nat.le_succ _)
      | Throws what => exact hturn
      | Never => exact hturn

/-- The loop comes to an end. -/
theorem loop_ends
    (h : Follows info base grace parts looks t₀ t told rest) (hopened : t.opened = true) :
    ∃ n, (t.loop looks n).1 ≠ .Again := by
  obtain ⟨bound, hbound⟩ : ∃ bound, pace parts t < bound := ⟨_, Nat.lt_succ_self _⟩
  induction bound generalizing t with
  | zero => exact absurd hbound (Nat.not_lt_zero _)
  | succ bound ih =>
    have hturn := hf.turn h hopened
    cases he : t.turn looks with
    | mk r t' =>
      rw [he] at hturn
      by_cases hr : r = .Again
      · subst hr
        obtain ⟨n, hn⟩ := ih hturn.1 hturn.2.1 (by have hless := hturn.2.2; omega)
        refine ⟨n + 1, ?_⟩
        rw [JournalTail.loop, he]
        exact hn
      · refine ⟨1, ?_⟩
        rw [JournalTail.loop, he]
        cases r with
        | Again => exact absurd rfl hr
        | Returns s => exact hr
        | Throws what => exact hr
        | Never => exact hr

end

end Turn

/-! ## Opening -/

/-- A prologue with a whole header is read, or something after the header is not there yet. -/
theorem parsePrologue_header {h : JournalFileHeader} (hh : IsHeader info h) (body : List UInt8) :
    (∃ detail, JournalReader.parsePrologue (h.bytes ++ body) = .error (.HeaderCorrupt, detail)) ∨
    ∃ r, JournalReader.parsePrologue (h.bytes ++ body) = .ok r ∧ r.header = h := by
  unfold JournalReader.parsePrologue
  dsimp only
  rw [h.ofBytes_bytes, h.readCrc32c_bytes, h.take_bytes, hh.version, hh.magic,
    if_neg (fun hne => hne rfl), if_neg (by decide), if_neg (fun hne => hne rfl)]
  repeat' split
  all_goals first
    | exact .inl ⟨_, rfl⟩
    | exact .inr ⟨_, rfl, rfl⟩

/-- A header that was read whole is read whole later. -/
theorem headerWhole_of_read (hs : Shown base files parts visible looks) {i j : Nat} {q : Path}
    (hij : i ≤ j) (hread : readAt (looks i) q JournalFileHeader.size 0 = some l)
    (hl : l = (files q).take JournalFileHeader.size) : HeaderWhole files (looks j) q := by
  intro l' hlater _
  have hpos : JournalFileHeader.size ≠ 0 := by
    unfold JournalFileHeader.size
    omega
  rw [hl] at hread
  exact hs.readAt_le hij hpos hread hlater

section

variable (hl : Laid info base files parts) (hs : Shown base files parts visible looks)
include hl hs

/-- `open_prologue` finds the header, or no prologue yet. -/
theorem openPrologue_spec (hk : parts[0]? = some p) (hbase : t.base = base)
    (hwhole : HeaderWhole files (looks t.looked) base) :
    (∃ e n, t.openPrologue looks = (.error e, { t with looked := n }) ∧
      (e.1 = .TooShort ∨ e.1 = .BadMagic ∨ e.1 = .HeaderCorrupt)) ∨
    ∃ r, t.openPrologue looks = (.ok r, { t with looked := t.looked + 2 }) ∧ r.header = p.header ∧
      HeaderWhole files (looks (t.looked + 2)) base := by
  have hmem := mem_of_getElem? hk
  have hheader : (files base).take JournalFileHeader.size = p.header.bytes := hl.take_header hk
  unfold openPrologue
  dsimp only [JournalTail.look]
  rw [hbase]
  cases hread : readAt (looks t.looked) base JournalFileHeader.size 0 with
  | none => exact .inl ⟨_, _, rfl, .inl rfl⟩
  | some l =>
    dsimp only
    by_cases hmagic : (JournalFileHeader.ofBytes l).magic ≠ kFileMagic
    · rw [if_pos hmagic]
      exact .inl ⟨_, _, rfl, .inr (.inl rfl)⟩
    rw [if_neg hmagic]
    by_cases hholds : headerHolds l = false
    · rw [if_pos hholds]
      exact .inl ⟨_, _, rfl, .inr (.inr rfl)⟩
    have hl' := hwhole l hread (Bool.not_eq_false _ ▸ hholds)
    have hsize := (hl.header p hmem).headerBytes
    have hlong : JournalFileHeader.size ≤ info.headerBytes := by
      rw [← info.length_tables]
      exact Nat.le_add_right _ _
    rw [if_neg hholds]
    cases hmap : readAt (looks (t.looked + 1)) base
      (JournalFileHeader.ofBytes l).headerBytes.toNat 0 with
    | none => exact .inl ⟨_, _, rfl, .inl rfl⟩
    | some map =>
      dsimp only
      rw [hl', hheader, ofBytes_header, hsize] at hmap
      have hpos : info.headerBytes ≠ 0 := by
        unfold JournalFileHeader.size at hlong
        omega
      obtain ⟨f, hdisk, hle, hslice⟩ := readAt_eq_some hpos hmap
      have hlater : readAt (looks (t.looked + 1)) base JournalFileHeader.size 0 =
          some (slice 0 JournalFileHeader.size f) := readAt_of_disk hdisk (by omega)
      have htake : map.take JournalFileHeader.size = p.header.bytes := by
        have hpos : JournalFileHeader.size ≠ 0 := by
          unfold JournalFileHeader.size
          omega
        rw [hl'] at hread
        have hsame := hs.readAt_le (Nat.le_succ _) hpos hread hlater
        rw [hslice]
        unfold slice at hsame ⊢
        rw [take_take, Nat.min_eq_left hlong, hsame]
        exact hheader
      have hsplit := take_append_drop JournalFileHeader.size map
      rw [htake] at hsplit
      rcases parsePrologue_header (hl.header p hmem) (map.drop JournalFileHeader.size) with
        ⟨detail, hparse⟩ | ⟨r, hparse, hr⟩
      · rw [hsplit] at hparse
        rw [hparse]
        exact .inl ⟨_, _, rfl, .inr (.inr rfl)⟩
      · rw [hsplit] at hparse
        rw [hparse]
        exact .inr ⟨r, rfl, hr, headerWhole_of_read hs (Nat.le_add_right _ 2) hread hl'⟩

/-- `open` opens the session's first part, or leaves the tail as it was. -/
theorem Unopened.openFile (hw : Legible (partPaths base parts) files looks t)
    (h : Unopened base grace t) :
    (∃ t', t.openFile looks = (.ok false, t') ∧ Unopened base grace t') ∨
    ∃ t' p, t.openFile looks = (.ok true, t') ∧ t'.finished = false ∧ t'.part = 0 ∧
      Placed info base grace parts looks t' p [] p.blocks [] [] := by
  obtain rfl := h.basePath
  unfold openFile
  dsimp only [JournalTail.look]
  rw [if_neg (by rw [h.opened]; simp)]
  cases hdisk : (looks t.looked).disk t.base with
  | none => exact .inl ⟨_, rfl, h.opened, h.basePath, h.trailerGrace, h.part, h.lastSeq, h.seqGaps,
      h.inTrailer, h.finished, h.gaveUp⟩
  | some f =>
    have hlt : 0 < parts.length := hs.there t.looked 0 f hdisk
    have hk : parts[0]? = some parts[0] := getElem?_eq_getElem hlt
    have hwhole : HeaderWhole files (looks (t.looked + 1)) t.base := hw.first h.opened
    rw [if_neg (by simp)]
    rcases openPrologue_spec (t := { t with looked := t.looked + 1 }) hl hs hk rfl hwhole with
      ⟨e, n, hprologue, he⟩ | ⟨r, hprologue, hr, hlater⟩
    · rw [hprologue]
      dsimp only
      rw [if_pos he]
      exact .inl ⟨_, rfl, h.opened, h.basePath, h.trailerGrace, h.part, h.lastSeq, h.seqGaps,
        h.inTrailer, h.finished, h.gaveUp⟩
    have hsession : r.header.sessionId = info.sessionId := by
      rw [hr]
      exact hl.sessionId _ (mem_of_getElem? hk)
    rw [hprologue]
    dsimp only
    rcases openPart_spec (t := { t with
        looked := t.looked + 1 + 2
        sessionId := r.header.sessionId
        path := t.base }) hl hk rfl hsession hlater with hpart | hpart
    · rw [hpart]
      exact .inl ⟨_, rfl, h.opened, rfl, h.trailerGrace, h.part, h.lastSeq, h.seqGaps,
        h.inTrailer, h.finished, h.gaveUp⟩
    · rw [hpart]
      refine .inr ⟨_, parts[0], rfl, h.finished, h.part, placed_part hk rfl rfl h.trailerGrace
        h.gaveUp hsession h.part rfl rfl rfl rfl ?_ (fun _ => h.seqGaps) h.inTrailer⟩
      exact h.lastSeq

end

end Steps

end FastMM.Journal
