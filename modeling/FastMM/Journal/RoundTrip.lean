/-
  Journal/RoundTrip.lean --- what is pushed is read back, over all parts and from any cut.

  `Written` says which blocks stand in which part and which messages are staged.  Every call keeps
  it, and none loses or repeats a message.
-/
import FastMM.Journal.Blocks
import FastMM.Journal.Writer
set_option autoImplicit false

namespace FastMM.Journal

open Function JournalFileWriter List

/-! ## Paths -/

/-- Parts have paths of their own. -/
theorem partPath_injective (base : Path) {i j : Nat} (h : partPath base i = partPath base j) :
    i = j := by
  have hdigits : ∀ {i j : Nat}, Nat.toDigits 10 i = Nat.toDigits 10 j → i = j := by
    intro i j he
    have hi := Nat.ofDigitChars_toDigits (b := 10) (n := i) (by omega) (by omega)
    have hj := Nat.ofDigitChars_toDigits (b := 10) (n := j) (by omega) (by omega)
    rw [← hi, he, hj]
  have hlong : ∀ n, n ≠ 0 → base.length < (partPath base n).length := by
    intro n hn
    unfold partPath
    rw [if_neg hn]
    cases extension base with
    | none =>
      rw [length_append, length_cons]
      omega
    | some dot =>
      rw [length_append, length_append, length_cons, length_take, length_drop]
      omega
  by_cases hi : i = 0
  · by_cases hj : j = 0
    · rw [hi, hj]
    · have hlt := hlong j hj
      rw [← h, hi] at hlt
      exact absurd hlt (Nat.lt_irrefl _)
  by_cases hj : j = 0
  · have hlt := hlong i hi
    rw [h, hj] at hlt
    exact absurd hlt (Nat.lt_irrefl _)
  unfold partPath at h
  rw [if_neg hi, if_neg hj] at h
  cases hdot : extension base with
  | none =>
    rw [hdot] at h
    exact hdigits (List.cons.inj (append_cancel_left h)).2
  | some dot =>
    rw [hdot] at h
    exact hdigits (List.cons.inj (append_cancel_right (append_cancel_left h))).2

/-! ## Writes -/

namespace JournalFileWriter

variable {w : JournalFileWriter}

theorem reserve_eq (w : JournalFileWriter) (n : Nat) : ∃ f reserved,
    w.reserve n = { w with disk := update w.disk w.path f, reserved := reserved } ∧
      f.data = (w.disk w.path).data := by
  unfold reserve
  split
  · refine ⟨w.disk w.path, w.reserved, ?_, rfl⟩
    rw [update_eq_self]
  · exact ⟨_, _, rfl, rfl⟩

/-- Bytes are appended to the file. -/
theorem append_eq (hopen : w.opened = true) (hsize : w.fileSize = (w.disk w.path).data.length)
    (l : List UInt8) : ∃ f reserved, w.append l =
        { w with
          disk := update w.disk w.path f
          reserved := reserved
          fileSize := w.fileSize + l.length } ∧ f.data = (w.disk w.path).data ++ l := by
  obtain ⟨f, reserved, hreserve, hdata⟩ := w.reserve_eq l.length
  unfold append
  rw [if_neg (by rw [hopen]; decide), hreserve]
  refine ⟨f.pwrite w.fileSize l, reserved, ?_, ?_⟩
  · unfold setFile
    dsimp only
    rw [update_self, update_idem]
  · unfold File.pwrite
    rw [hdata, hsize, take_length, drop_eq_nil_of_le (Nat.le_add_right _ _), append_nil]

/-- What a ring holds is staged, one message after the other. -/
theorem drainFrom_eq {ring : MsgRing} {queue : List Msg} (hring : ring.Holds (queue.map Msg.bytes))
    {n : Nat} (hn : queue.length < n) (w : JournalFileWriter) : ∃ ring',
    drainFrom n ring w = (ring', queue.foldl (fun w m => w.stage m.bytes) w) ∧
      ring'.Holds [] := by
  induction queue generalizing n ring w with
  | nil =>
    obtain ⟨n, rfl⟩ : ∃ k, n = k + 1 := ⟨n - 1, by omega⟩
    obtain ⟨ring', hpeek, hempty⟩ := MsgRing.tryPeek_nil hring
    refine ⟨ring', ?_, hempty⟩
    rw [drainFrom, hpeek]
    rfl
  | cons m queue ih =>
    obtain ⟨n, rfl⟩ : ∃ k, n = k + 1 := ⟨n - 1, by omega⟩
    obtain ⟨off, ring', hpeek, hstored, hoff, hrest⟩ := MsgRing.tryPeek_cons hring
    have hbytes : bytesAt ring'.buf off (prefixLen ring'.buf off) = m.bytes := by
      rw [hoff, hstored.prefixLen]
      exact hstored.bytes
    rw [length_cons] at hn
    obtain ⟨ring₂, hdrain, hempty⟩ := ih hrest (n := n) (by omega) (w.stage m.bytes)
    refine ⟨ring₂, ?_, hempty⟩
    rw [drainFrom, hpeek]
    dsimp only
    rw [hbytes]
    exact hdrain

theorem drained {ring : MsgRing} {queue : List Msg} (hring : ring.Holds (queue.map Msg.bytes))
    (w : JournalFileWriter) : ∃ ring',
    w.drainOnce ring = (ring', queue.foldl (fun w m => w.stage m.bytes) w) ∧ ring'.Holds [] := by
  have hle := hring.whole.length_le
  rw [length_map] at hle
  exact drainFrom_eq hring (by omega) w

end JournalFileWriter

/-! ## The invariant -/

/-- The messages of some blocks, in order. -/
def blockMsgs (bs : List Block) : List Msg := bs.flatMap Block.msgs

/-- The blocks of the parts closed and of the last one, and the messages staged. -/
structure Written (info : JournalSessionInfo) (base : Path) (w : JournalFileWriter)
    (parts : List (List Block)) (last : List Block) (staged : List Msg) : Prop where
  closedParts : ∀ k bs, parts[k]? = some bs → ∃ h seq, IsHeader info h ∧
    (w.disk (partPath base k)).content =
      h.bytes ++ (info.tables ++ (bs.flatMap Block.bytes ++ trailerBytes seq))
  basePath : w.basePath = base
  part : w.part = parts.length
  path : w.path = partPath base parts.length
  partPaths : w.partPaths = (List.range (parts.length + 1)).map (partPath base)
  header : IsHeader info w.header
  tables : w.tables = info.tables
  opened : w.opened = true
  closed : w.closed = false
  data : (w.disk w.path).data = w.header.bytes ++ (info.tables ++ last.flatMap Block.bytes)
  fileSize : w.fileSize = (w.disk w.path).data.length
  block : w.block = staged.flatMap Msg.bytes
  blockCount : w.blockCount = staged.length
  fits : (staged.flatMap Msg.bytes).length ≤ kJournalBlockBytes

/-- A property that every write keeps: of a block, of a trailer and the next part's prologue, and of
a message that is staged. -/
structure Stable (info : JournalSessionInfo) (base : Path)
    (Q : JournalFileWriter → List (List Block) → List Block → List Msg → Prop) : Prop where
  flush : ∀ {w parts last staged} (h : Written info base w parts last staged), staged ≠ [] →
    Q w parts last staged →
    Q w.flushBlock parts (last ++ [⟨w.blockSeqFirst, w.blockSeqLast, staged, h.fits⟩]) []
  rotate : ∀ {w parts last}, Written info base w parts last [] → Q w parts last [] →
    Q w.rotate (parts ++ [last]) [] []
  add : ∀ {w w' parts last staged} (m : Msg), Written info base w parts last staged →
    Q w parts last staged → w'.disk = w.disk → w'.header = w.header → w'.part = w.part →
    w'.blockSeqFirst = (if staged = [] then EventHeader.seq m.bytes else w.blockSeqFirst) →
    w'.blockSeqLast = EventHeader.seq m.bytes →
    w'.engineNs = (w.followClock m.bytes).engineNs →
    w'.engineClock = (w.followClock m.bytes).engineClock → Q w' parts last (staged ++ [m])

namespace Written

variable {info : JournalSessionInfo} {base : Path} {w : JournalFileWriter}
  {parts : List (List Block)} {last : List Block} {staged : List Msg}
  {Q : JournalFileWriter → List (List Block) → List Block → List Msg → Prop}
variable {w' : JournalFileWriter}

section

variable (h : Written info base w parts last staged)
include h

/-- Writing to the last part leaves the closed ones alone. -/
theorem closedParts_update (f : File) (k : Nat)
    (bs : List Block) (hk : parts[k]? = some bs) : ∃ h seq, IsHeader info h ∧
      (update w.disk w.path f (partPath base k)).content =
        h.bytes ++ (info.tables ++ (bs.flatMap Block.bytes ++ trailerBytes seq)) := by
  have hlt := (List.getElem?_eq_some_iff.mp hk).1
  rw [h.path, update_of_ne fun he => (partPath_injective base he ▸ hlt).ne rfl]
  exact h.closedParts k bs hk

/-- The staged block is written. -/
theorem flushBlock_some (hcount : w.blockCount ≠ 0) :
    Written info base w.flushBlock parts
      (last ++ [⟨w.blockSeqFirst, w.blockSeqLast, staged, h.fits⟩]) [] := by
  unfold flushBlock
  rw [if_neg hcount]
  obtain ⟨b, hb⟩ : ∃ b : Block, b = ⟨w.blockSeqFirst, w.blockSeqLast, staged, h.fits⟩ := ⟨_, rfl⟩
  have hbytes : JournalBlockHeader.bytes
      { byteLen := .ofNat w.blockUsed
        seqFirst := w.blockSeqFirst
        seqLast := w.blockSeqLast
        count := .ofNat w.blockCount
        crc32c := crc32c w.block } ++ w.block = b.bytes := by
    unfold blockUsed
    rw [h.block, h.blockCount, hb]
    rfl
  dsimp only
  rw [hbytes, ← hb]
  obtain ⟨f, reserved, happend, hdata⟩ := append_eq h.opened h.fileSize b.bytes
  rw [happend]
  refine ⟨h.closedParts_update f, h.basePath, h.part, h.path, h.partPaths, h.header,
    h.tables, h.opened, h.closed, ?_, ?_, rfl, rfl, Nat.zero_le _⟩
  · show (update w.disk w.path f w.path).data = _
    rw [update_self, hdata, h.data, flatMap_append, flatMap_singleton]
    simp only [append_assoc]
  · show w.fileSize + b.bytes.length = (update w.disk w.path f w.path).data.length
    rw [update_self, hdata, length_append, h.fileSize]

theorem flushBlock (hQ : Stable info base Q)
    (q : Q w parts last staged) : ∃ last', Written info base w.flushBlock parts last' [] ∧
      Q w.flushBlock parts last' [] ∧ blockMsgs last' = blockMsgs last ++ staged := by
  by_cases hcount : w.blockCount = 0
  · have hnil : staged = [] := eq_nil_of_length_eq_zero (h.blockCount ▸ hcount)
    have hsame : w.flushBlock = w := if_pos hcount
    subst hnil
    rw [hsame]
    exact ⟨last, h, q, (append_nil _).symm⟩
  · have hne : staged ≠ [] := fun hnil => hcount (by rw [h.blockCount, hnil]; rfl)
    refine ⟨_, h.flushBlock_some hcount, hQ.flush h hne q, ?_⟩
    unfold blockMsgs
    rw [flatMap_append, flatMap_singleton]

/-- A part is closed with a trailer. -/
theorem writeTrailer_close : ∃ f seq,
    w.writeTrailer.close =
      { w with
        disk := update w.disk w.path f
        reserved := w.writeTrailer.close.reserved
        fileSize := w.writeTrailer.close.fileSize
        opened := false
        closed := true } ∧
      f.content = w.header.bytes ++
        (info.tables ++ (last.flatMap Block.bytes ++ trailerBytes seq)) ∧
      f.data = f.content := by
  obtain ⟨f, reserved, happend, hdata⟩ :=
    append_eq h.opened h.fileSize (trailerBytes w.blockSeqLast)
  have hwrite : w.writeTrailer = w.append (trailerBytes w.blockSeqLast) :=
    if_neg (by rw [h.opened]; decide)
  rw [hwrite, happend]
  unfold JournalFileWriter.close
  dsimp only
  rw [if_neg (by rw [h.closed]; decide), if_neg (by rw [h.opened]; decide)]
  have hlen : w.fileSize + (trailerBytes w.blockSeqLast).length = f.data.length := by
    rw [hdata, length_append, h.fileSize]
  refine ⟨f.ftruncate (w.fileSize + (trailerBytes w.blockSeqLast).length),
    w.blockSeqLast, ?_, ?_, ?_⟩
  · unfold setFile
    rw [update_self, update_idem]
  · unfold File.content File.ftruncate
    rw [hlen, take_length, Nat.sub_self, replicate_zero, append_nil, hdata, h.data]
    simp only [append_assoc]
  · unfold File.content File.ftruncate
    rw [hlen, take_length, Nat.sub_self, replicate_zero, append_nil]

end

/-- A part is opened at a path of its own. -/
theorem openPart {w : JournalFileWriter} (hclosed : ∀ k bs, parts[k]? = some bs → ∃ h seq,
      IsHeader info h ∧ (w.disk (partPath base k)).content =
        h.bytes ++ (info.tables ++ (bs.flatMap Block.bytes ++ trailerBytes seq)))
    (hbase : w.basePath = base) (hpart : w.part = parts.length)
    (hpath : w.path = partPath base parts.length)
    (hpaths : w.partPaths = (List.range parts.length).map (partPath base))
    (hheader : IsHeader info w.header) (htables : w.tables = info.tables) (hblock : w.block = [])
    (hcount : w.blockCount = 0) : Written info base w.openPart parts [] [] := by
  obtain ⟨header, hh, hopened⟩ : ∃ header, IsHeader info header ∧ w.openPart =
      JournalFileWriter.append { w.setFile {} with
          header := header
          opened := true
          closed := false
          reserved := 0
          fileSize := 0
          partPaths := w.partPaths ++ [w.path] } (header.bytes ++ info.tables) := by
    unfold JournalFileWriter.openPart JournalFileWriter.prologue
    dsimp only
    split
    · refine ⟨_, hheader.engineClock w.engineNs, ?_⟩
      rw [← htables]
      rfl
    · refine ⟨w.header, hheader, ?_⟩
      rw [← htables]
      rfl
  obtain ⟨f, reserved, happend, hdata⟩ := append_eq (w := { w.setFile {} with
      header := header
      opened := true
      closed := false
      reserved := 0
      fileSize := 0
      partPaths := w.partPaths ++ [w.path] }) rfl
    (congrArg (fun f => f.data.length) (update_self w.path ({} : File) w.disk)).symm
    (header.bytes ++ info.tables)
  have hempty : (w.setFile {}).disk w.path = {} := update_self ..
  have hdata' : f.data = header.bytes ++ info.tables := by
    rw [hdata]
    show ((w.setFile {}).disk w.path).data ++ _ = _
    rw [hempty]
    rfl
  rw [hopened, happend]
  refine ⟨fun k bs hk => ?_, hbase, hpart, hpath, ?_, hh, htables, rfl, rfl, ?_, ?_, hblock, hcount,
    Nat.zero_le _⟩
  · have hlt := (List.getElem?_eq_some_iff.mp hk).1
    have hne : partPath base k ≠ w.path := by
      rw [hpath]
      exact fun he => (partPath_injective base he ▸ hlt).ne rfl
    show ∃ h seq, IsHeader info h ∧
      (update (update w.disk w.path {}) w.path f (partPath base k)).content = _
    rw [update_of_ne hne, update_of_ne hne]
    exact hclosed k bs hk
  · rw [hpaths, hpath, range_succ, map_append, map_singleton]
  · show (update (update w.disk w.path {}) w.path f w.path).data = _
    rw [update_self, hdata', flatMap_nil, append_nil]
  · show 0 + (header.bytes ++ info.tables).length =
      (update (update w.disk w.path {}) w.path f w.path).data.length
    rw [update_self, hdata', Nat.zero_add]

/-- A file of the parts, once the last of them is closed. -/
theorem closed_snoc (h : Written info base w parts last staged) {f : File} {seq : UInt64}
    (hf : f.content = w.header.bytes ++
      (info.tables ++ (last.flatMap Block.bytes ++ trailerBytes seq))) (k : Nat) (bs : List Block)
    (hk : (parts ++ [last])[k]? = some bs) : ∃ h seq, IsHeader info h ∧
      (update w.disk w.path f (partPath base k)).content =
        h.bytes ++ (info.tables ++ (bs.flatMap Block.bytes ++ trailerBytes seq)) := by
  rw [getElem?_append] at hk
  split_ifs at hk with hlt
  · exact h.closedParts_update f k bs hk
  have hone := (List.getElem?_eq_some_iff.mp hk).1
  rw [length_singleton] at hone
  obtain rfl : k = parts.length := by omega
  rw [Nat.sub_self] at hk
  obtain rfl := Option.some.inj hk
  rw [← h.path, update_self]
  exact ⟨w.header, seq, h.header, hf⟩

/-- The next part is begun. -/
theorem rotate (h : Written info base w parts last []) :
    Written info base w.rotate (parts ++ [last]) [] [] := by
  obtain ⟨f, seq, hclose, hf, -⟩ := h.writeTrailer_close
  unfold JournalFileWriter.rotate
  rw [hclose]
  refine openPart (h.closed_snoc hf) h.basePath ?_ ?_ ?_ h.header h.tables h.block h.blockCount
  · rw [h.part, length_append, length_singleton]
  · rw [h.basePath, h.part, length_append, length_singleton]
  · rw [h.partPaths, length_append, length_singleton]

/-- A part that is full is rolled over. -/
theorem rollOver (h : Written info base w parts last []) (hQ : Stable info base Q)
    (q : Q w parts last []) : ∃ parts' last',
    Written info base w.rollOver parts' last' [] ∧ Q w.rollOver parts' last' [] ∧
      blockMsgs parts'.flatten ++ blockMsgs last' = blockMsgs parts.flatten ++ blockMsgs last := by
  unfold JournalFileWriter.rollOver
  split
  · refine ⟨_, _, h.rotate, hQ.rotate h q, ?_⟩
    unfold blockMsgs
    rw [flatten_append, flatten_singleton, flatMap_append, flatMap_nil, append_nil]
  · exact ⟨parts, last, h, q, rfl⟩

/-! ## Draining -/

/-- The messages of the parts and those staged. -/
def told (parts : List (List Block)) (last : List Block) (staged : List Msg) : List Msg :=
  blockMsgs parts.flatten ++ (blockMsgs last ++ staged)

/-- The clock is followed from the clock alone. -/
theorem followClock_congr {v w : JournalFileWriter} (hns : v.engineNs = w.engineNs)
    (hclock : v.engineClock = w.engineClock) (m : List UInt8) :
    (v.followClock m).engineNs = (w.followClock m).engineNs ∧
      (v.followClock m).engineClock = (w.followClock m).engineClock := by
  unfold followClock
  split
  · exact ⟨rfl, rfl⟩
  · split
    · exact ⟨congrArg (· + _) hns, hclock⟩
    · exact ⟨hns, hclock⟩

/-- The clock is followed beside everything else. -/
theorem followClock_eq (w : JournalFileWriter) (m : List UInt8) : w.followClock m = { w with
      engineNs := (w.followClock m).engineNs
      engineClock := (w.followClock m).engineClock } := by
  unfold followClock
  split
  · rfl
  · split <;> rfl

/-- What comes is staged where there is room. -/
theorem add (h : Written info base w parts last staged) {m : Msg}
    (hroom : (staged.flatMap Msg.bytes).length + m.bytes.length ≤ kJournalBlockBytes) (hw' : w' =
      if w.blockCount = 0 then { w with blockSeqFirst := EventHeader.seq m.bytes } else w) :
    Written info base { followClock { w' with
            blockSeqLast := EventHeader.seq m.bytes
            block := w'.block ++ m.bytes } m.bytes with
        blockCount := w'.blockCount + 1
        messages := w'.messages + 1 } parts last (staged ++ [m]) := by
  have hkept : Written info base w' parts last staged := by
    rw [hw']
    split
    · exact ⟨h.closedParts, h.basePath, h.part, h.path, h.partPaths, h.header, h.tables, h.opened,
        h.closed, h.data, h.fileSize, h.block, h.blockCount, h.fits⟩
    · exact h
  rw [followClock_eq]
  refine ⟨hkept.closedParts, hkept.basePath, hkept.part, hkept.path, hkept.partPaths, hkept.header,
    hkept.tables, hkept.opened, hkept.closed, hkept.data, hkept.fileSize, ?_, ?_, ?_⟩
  · rw [hkept.block, flatMap_append, flatMap_singleton]
  · rw [hkept.blockCount, length_append, length_singleton]
  · rw [flatMap_append, flatMap_singleton, length_append]
    exact hroom

/-- Staging keeps what every write keeps. -/
theorem add_stable (h : Written info base w parts last staged) (hQ : Stable info base Q)
    (q : Q w parts last staged) {m : Msg} (hw' : w' =
      if w.blockCount = 0 then { w with blockSeqFirst := EventHeader.seq m.bytes } else w) :
    Q { followClock { w' with
            blockSeqLast := EventHeader.seq m.bytes
            block := w'.block ++ m.bytes } m.bytes with
        blockCount := w'.blockCount + 1
        messages := w'.messages + 1 } parts last (staged ++ [m]) := by
  have hcount : w.blockCount = 0 ↔ staged = [] := by
    rw [h.blockCount, length_eq_zero_iff]
  rw [followClock_eq, hw']
  split_ifs with hnil
  · obtain ⟨hns, hclock⟩ := followClock_congr (v := { w with
      blockSeqFirst := EventHeader.seq m.bytes
      blockSeqLast := EventHeader.seq m.bytes
      block := w.block ++ m.bytes }) (w := w) rfl rfl m.bytes
    exact hQ.add m h q rfl rfl rfl (if_pos (hcount.mp hnil)).symm rfl hns hclock
  · obtain ⟨hns, hclock⟩ := followClock_congr (v := { w with
      blockSeqLast := EventHeader.seq m.bytes
      block := w.block ++ m.bytes }) (w := w) rfl rfl m.bytes
    exact hQ.add m h q rfl rfl rfl (if_neg fun he => hnil (hcount.mpr he)).symm rfl hns hclock

theorem stage_eq (w : JournalFileWriter) (m : Msg) {w₀ w' : JournalFileWriter}
    (hw₀ : w₀ = if kJournalBlockBytes < w.blockUsed + m.bytes.length then
      w.flushBlock.rollOver else w)
    (hw' : w' =
      if w₀.blockCount = 0 then { w₀ with blockSeqFirst := EventHeader.seq m.bytes } else w₀) :
    w.stage m.bytes =
      { followClock { w' with
            blockSeqLast := EventHeader.seq m.bytes
            block := w'.block ++ m.bytes } m.bytes with
        blockCount := w'.blockCount + 1
        messages := w'.messages + 1 } := by
  have hlen : EventHeader.len m.bytes = m.bytes.length := m.isMsg.len
  subst hw₀
  subst hw'
  unfold JournalFileWriter.stage
  dsimp only
  rw [hlen, followClock_eq]

section

variable (h : Written info base w parts last staged) (hQ : Stable info base Q)
variable (q : Q w parts last staged)
include h hQ q

/-- A message is staged, after the block before it is written if it does not fit. -/
theorem stage (m : Msg) : ∃ parts' last' staged',
    Written info base (w.stage m.bytes) parts' last' staged' ∧
      Q (w.stage m.bytes) parts' last' staged' ∧
      told parts' last' staged' = told parts last staged ++ [m] := by
  have hused : w.blockUsed = (staged.flatMap Msg.bytes).length := congrArg List.length h.block
  rw [stage_eq w m rfl rfl]
  by_cases hfull : kJournalBlockBytes < w.blockUsed + m.bytes.length
  · obtain ⟨last₁, h₁, q₁, hlast₁⟩ := h.flushBlock hQ q
    obtain ⟨parts₂, last₂, h₂, q₂, hlast₂⟩ := h₁.rollOver hQ q₁
    rw [if_pos hfull]
    refine ⟨parts₂, last₂, [m], h₂.add ?_ rfl, h₂.add_stable hQ q₂ rfl, ?_⟩
    · rw [flatMap_nil, length_nil, Nat.zero_add]
      exact m.fits
    · unfold told
      rw [← append_assoc, hlast₂, hlast₁]
  · rw [if_neg hfull]
    refine ⟨parts, last, staged ++ [m], h.add (by omega) rfl, h.add_stable hQ q rfl, ?_⟩
    unfold told
    simp only [append_assoc]

/-- Messages are staged one after the other. -/
theorem stageAll (queue : List Msg) : ∃ parts' last' staged',
    Written info base (queue.foldl (fun w m => w.stage m.bytes) w) parts' last' staged' ∧
      Q (queue.foldl (fun w m => w.stage m.bytes) w) parts' last' staged' ∧
      told parts' last' staged' = told parts last staged ++ queue := by
  induction queue generalizing w parts last staged with
  | nil => exact ⟨parts, last, staged, h, q, (append_nil _).symm⟩
  | cons m queue ih =>
    obtain ⟨parts₁, last₁, staged₁, h₁, q₁, htold₁⟩ := h.stage hQ q m
    obtain ⟨parts₂, last₂, staged₂, h₂, q₂, htold₂⟩ := ih h₁ q₁
    refine ⟨parts₂, last₂, staged₂, h₂, q₂, ?_⟩
    rw [htold₂, htold₁, append_assoc]
    rfl

/-- All that a ring holds is staged. -/
theorem drainOnce {ring : MsgRing} {queue : List Msg} (hring : ring.Holds (queue.map Msg.bytes)) :
    ∃ ring' w' parts' last' staged', w.drainOnce ring = (ring', w') ∧
      ring'.Holds [] ∧ Written info base w' parts' last' staged' ∧ Q w' parts' last' staged' ∧
      told parts' last' staged' = told parts last staged ++ queue := by
  obtain ⟨ring', hdrain, hempty⟩ := drained hring w
  obtain ⟨parts', last', staged', hrest⟩ := h.stageAll hQ q queue
  exact ⟨ring', _, parts', last', staged', hdrain, hempty, hrest⟩

end

end Written

/-! ## Sessions -/

/-- A session: what was pushed is in the parts, staged, or in the ring. -/
structure Kept (info : JournalSessionInfo) (base : Path) (s : JournalSession)
    (parts : List (List Block)) (last : List Block) (staged queue : List Msg) : Prop where
  ring : s.ring.Holds (queue.map Msg.bytes)
  written : Written info base s.writer parts last staged
  pushed : s.pushed = (Written.told parts last staged ++ queue).map Msg.bytes

section Sessions

variable {info : JournalSessionInfo} {base : Path} {s : JournalSession} {parts : List (List Block)}
  {last : List Block} {staged queue : List Msg}
  {Q : JournalFileWriter → List (List Block) → List Block → List Msg → Prop}

theorem kept_create (k : Nat) (base : Path) (info : JournalSessionInfo) (maxBytes : Nat) :
    Kept info base (JournalSession.create k base info maxBytes) [] [] [] [] := by
  refine ⟨MsgRing.holds_create k, ?_, rfl⟩
  have hopen : ∀ w : JournalFileWriter, w.basePath = base → w.part = 0 → w.path = base →
      w.partPaths = [] → w.header = info.header → w.tables = info.tables → w.block = [] →
      w.blockCount = 0 → Written info base w.openPart [] [] [] := by
    intro w hbase hpart hpath hpaths hheader htables hblock hcount
    refine Written.openPart (fun k bs hk => ?_) hbase hpart hpath hpaths ?_ htables hblock hcount
    · rw [getElem?_nil] at hk
      nomatch hk
    · rw [hheader]
      exact isHeader_header info
  exact hopen
    { basePath := base, maxBytes := maxBytes, header := info.header, tables := info.tables,
      path := base } rfl rfl rfl rfl rfl rfl rfl rfl

section

variable (h : Kept info base s parts last staged queue) (hQ : Stable info base Q)
variable (q : Q s.writer parts last staged)
include h hQ q

theorem Kept.drainOnce :
    ∃ parts' last' staged', Kept info base s.drainOnce parts' last' staged' [] ∧
      Q s.drainOnce.writer parts' last' staged' ∧ s.drainOnce.pushed = s.pushed := by
  obtain ⟨ring', w', parts', last', staged', hdrain, hempty, hwritten, q', htold⟩ :=
    h.written.drainOnce hQ q h.ring
  refine ⟨parts', last', staged', ?_, ?_, ?_⟩
  · unfold JournalSession.drainOnce
    rw [hdrain]
    refine ⟨hempty, hwritten, ?_⟩
    rw [htold, append_nil]
    exact h.pushed
  · unfold JournalSession.drainOnce
    rw [hdrain]
    exact q'
  · unfold JournalSession.drainOnce
    rw [hdrain]

theorem Kept.flushBlock :
    ∃ last', Kept info base { s with writer := s.writer.flushBlock } parts last' [] queue ∧
      Q s.writer.flushBlock parts last' [] := by
  obtain ⟨last', hwritten, q', hlast⟩ := h.written.flushBlock hQ q
  refine ⟨last', ⟨h.ring, hwritten, ?_⟩, q'⟩
  rw [h.pushed]
  unfold Written.told
  rw [hlast, append_nil]

end

theorem Kept.rollOver (h : Kept info base s parts last [] queue) (hQ : Stable info base Q)
    (q : Q s.writer parts last []) :
    ∃ parts' last', Kept info base { s with writer := s.writer.rollOver } parts' last' [] queue ∧
      Q s.writer.rollOver parts' last' [] := by
  obtain ⟨parts', last', hwritten, q', hlast⟩ := h.written.rollOver hQ q
  refine ⟨parts', last', ⟨h.ring, hwritten, ?_⟩, q'⟩
  rw [h.pushed]
  unfold Written.told
  rw [append_nil, append_nil, hlast]

section

variable (h : Kept info base s parts last staged queue) (hQ : Stable info base Q)
variable (q : Q s.writer parts last staged)
include h hQ q

/-- Every call keeps what was pushed. -/
theorem Kept.step (op : JournalOp) :
    ∃ parts' last' staged' queue', Kept info base (s.step op) parts' last' staged' queue' ∧
      Q (s.step op).writer parts' last' staged' := by
  cases op with
  | push m =>
    rcases MsgRing.tryPush_spec h.ring m.isMsg with ⟨htaken, hring⟩ | ⟨htaken, hring⟩
    · refine ⟨parts, last, staged, queue ++ [m], ⟨?_, h.written, ?_⟩, q⟩
      · rw [map_append, map_singleton]
        exact hring
      · show (if (s.ring.tryPush m.bytes).1 then s.pushed ++ [m.bytes] else s.pushed) = _
        rw [htaken, if_pos rfl, h.pushed, ← append_assoc]
        simp only [map_append, map_cons, map_nil]
    · refine ⟨parts, last, staged, queue, ⟨hring, h.written, ?_⟩, q⟩
      show (if (s.ring.tryPush m.bytes).1 then s.pushed ++ [m.bytes] else s.pushed) = _
      rw [htaken]
      exact h.pushed
  | drainOnce =>
    obtain ⟨parts', last', staged', h', q', -⟩ := h.drainOnce hQ q
    exact ⟨parts', last', staged', [], h', q'⟩
  | flushBlock =>
    obtain ⟨last', h', q'⟩ := h.flushBlock hQ q
    exact ⟨parts, last', [], queue, h', q'⟩
  | runOnce due =>
    obtain ⟨parts₁, last₁, staged₁, h₁, q₁, -⟩ := h.drainOnce hQ q
    obtain ⟨w₂, hw₂⟩ : ∃ w₂, w₂ = if 0 < s.drainOnce.writer.blockCount ∧ due = true then
      s.drainOnce.writer.flushBlock else s.drainOnce.writer := ⟨_, rfl⟩
    have hstep : s.step (.runOnce due) =
        { s.drainOnce with writer := if w₂.blockCount = 0 then w₂.rollOver else w₂ } := by
      rw [hw₂]
      rfl
    obtain ⟨last₂, staged₂, h₂, q₂⟩ : ∃ last₂ staged₂,
        Kept info base { s.drainOnce with writer := w₂ } parts₁ last₂ staged₂ [] ∧
          Q w₂ parts₁ last₂ staged₂ := by
      rw [hw₂]
      split
      · obtain ⟨last₂, h₂, q₂⟩ := h₁.flushBlock hQ q₁
        exact ⟨last₂, [], h₂, q₂⟩
      · exact ⟨last₁, staged₁, h₁, q₁⟩
    rw [hstep]
    by_cases hcount : w₂.blockCount = 0
    · have hnil : staged₂ = [] :=
        eq_nil_of_length_eq_zero (h₂.written.blockCount.symm.trans hcount)
      subst hnil
      obtain ⟨parts₃, last₃, h₃, q₃⟩ := h₂.rollOver hQ q₂
      rw [if_pos hcount]
      exact ⟨parts₃, last₃, [], [], h₃, q₃⟩
    · rw [if_neg hcount]
      exact ⟨parts₁, last₂, staged₂, [], h₂, q₂⟩

theorem Kept.run (ops : List JournalOp) :
    ∃ parts' last' staged' queue', Kept info base (s.run ops) parts' last' staged' queue' ∧
      Q (s.run ops).writer parts' last' staged' := by
  induction ops generalizing s parts last staged queue with
  | nil => exact ⟨parts, last, staged, queue, h, q⟩
  | cons op ops ih =>
    obtain ⟨parts₁, last₁, staged₁, queue₁, h₁, q₁⟩ := h.step hQ q op
    exact ih h₁ q₁

end

theorem stable_true : Stable info base fun _ _ _ _ => True :=
  ⟨fun _ _ _ => trivial, fun _ _ => trivial, fun _ _ _ _ _ _ _ _ _ _ => trivial⟩

/-! ## The files -/

/-- A fresh reader of a file opens it and gives these messages. -/
def ReadBack (info : JournalSessionInfo) (file : List UInt8) (complete : Bool)
    (ms : List (List UInt8)) : Prop :=
  ∃ r, JournalReader.openFile file = .ok r ∧ r.tables = info.recorded ∧ r.complete = complete ∧
    r.Reads ms

/-- The messages of a part. -/
def partMsgs (bs : List Block) : List (List UInt8) := bs.flatMap fun b => b.msgs.map Msg.bytes

theorem partMsgs_eq (bs : List Block) : partMsgs bs = (blockMsgs bs).map Msg.bytes := by
  unfold partMsgs blockMsgs
  rw [map_flatMap]

theorem flatMap_partMsgs (parts : List (List Block)) :
    parts.flatMap partMsgs = (blockMsgs parts.flatten).map Msg.bytes := by
  rw [← partMsgs_eq]
  induction parts with
  | nil => rfl
  | cons bs parts ih =>
    rw [flatMap_cons, flatten_cons, ih]
    exact flatMap_append.symm

/-- A session that has been stopped. -/
structure Stopped (info : JournalSessionInfo) (base : Path) (s : JournalSession)
    (parts : List (List Block)) (last : List Block) : Prop where
  files : ∀ k bs, (parts ++ [last])[k]? = some bs → ∃ h seq, IsHeader info h ∧
    (s.writer.disk (partPath base k)).content =
      h.bytes ++ (info.tables ++ (bs.flatMap Block.bytes ++ trailerBytes seq))
  path : s.writer.path = partPath base parts.length
  partPaths : s.writer.partPaths = (List.range (parts ++ [last]).length).map (partPath base)
  pushed : s.pushed = (parts ++ [last]).flatMap partMsgs

/-- Stopping flushes what is staged and closes the last part. -/
theorem Kept.stop_eq (h : Kept info base s parts last staged queue) (hQ : Stable info base Q)
    (q : Q s.writer parts last staged) : ∃ w parts' last',
    Kept info base { s with ring := s.drainOnce.ring, writer := w } parts' last' [] [] ∧
      Q w parts' last' [] ∧
      s.stop = { s with ring := s.drainOnce.ring, writer := w.writeTrailer.close } := by
  obtain ⟨parts₁, last₁, staged₁, h₁, q₁, hpushed⟩ := h.drainOnce hQ q
  obtain ⟨last₂, h₂, q₂⟩ := h₁.flushBlock hQ q₁
  have hopen : ¬ s.drainOnce.writer.flushBlock.closed = true := by
    rw [show s.drainOnce.writer.flushBlock.closed = false from h₂.written.closed]
    decide
  refine ⟨s.drainOnce.writer.flushBlock, parts₁, last₂, ⟨h₂.ring, h₂.written, ?_⟩, q₂, ?_⟩
  · exact hpushed.symm.trans h₂.pushed
  · unfold JournalSession.stop
    dsimp only
    rw [if_neg hopen, hpushed]

/-- The last part is closed. -/
theorem Kept.close (h : Kept info base s parts last [] []) :
    Stopped info base { s with writer := s.writer.writeTrailer.close } parts last := by
  obtain ⟨f, seq, hclose, hf, -⟩ := h.written.writeTrailer_close
  rw [hclose]
  refine ⟨h.written.closed_snoc hf, h.written.path, ?_, ?_⟩
  · rw [length_append, length_singleton]
    exact h.written.partPaths
  have htold := h.pushed
  unfold Written.told at htold
  rw [append_nil, append_nil, map_append] at htold
  rw [flatMap_append, flatMap_singleton, flatMap_partMsgs, partMsgs_eq]
  exact htold

theorem Kept.stop (h : Kept info base s parts last staged queue) :
    ∃ parts' last', Stopped info base s.stop parts' last' ∧ s.stop.pushed = s.pushed := by
  obtain ⟨w, parts', last', hkept, -, hstop⟩ := h.stop_eq stable_true trivial
  refine ⟨parts', last', ?_, by rw [hstop]⟩
  rw [hstop]
  exact hkept.close

theorem Stopped.readBack (h : Stopped info base s parts last) : List.Forall₂
    (fun p ms => ReadBack info (s.writer.disk p).content true ms) s.writer.partPaths
    ((parts ++ [last]).map partMsgs) := by
  rw [h.partPaths, forall₂_map_left_iff, forall₂_map_right_iff]
  refine forall₂_iff_get.mpr ⟨length_range, fun k hk hk' => ?_⟩
  obtain ⟨header, seq, hheader, hfile⟩ := h.files k _ (getElem?_eq_getElem hk')
  have hends := Ends.trailer seq []
  rw [append_nil] at hends
  rw [get_eq_getElem, getElem_range, hfile]
  exact JournalReader.openFile_spec hheader _ hends

end Sessions

/-! ## Round trip -/

/-- The last part's file, and what is read of it when it is cut. -/
structure LastPart (info : JournalSessionInfo) (s : JournalSession) (closed : Bool)
    (prologue : List UInt8) (blocks : List Block) (tail : List UInt8) : Prop where
  file : (s.writer.disk s.writer.path).content = prologue ++ (blocks.flatMap Block.bytes ++ tail)
  prologue : prologue.length = info.headerBytes
  ends : Tail tail closed
  cut : ∀ n, ReadBack info ((s.writer.disk s.writer.path).content.take (info.headerBytes + n))
    (closed && decide ((blocks.flatMap Block.bytes).length + tail.length ≤ n))
    (partMsgs (wholeWithin n blocks))

theorem lastPart {info : JournalSessionInfo} {s : JournalSession} {closed : Bool}
    {h : JournalFileHeader} (hh : IsHeader info h) {bs : List Block} {tail : List UInt8}
    (hfile : (s.writer.disk s.writer.path).content =
      h.bytes ++ (info.tables ++ (bs.flatMap Block.bytes ++ tail))) (htail : Tail tail closed) :
    LastPart info s closed (h.bytes ++ info.tables) bs tail := by
  refine ⟨by rw [hfile, append_assoc], ?_, htail, fun n => ?_⟩
  · rw [length_append, h.length_bytes]
    exact info.length_tables
  · rw [hfile]
    exact openFile_take hh bs htail n

theorem Stopped.lastPart {info : JournalSessionInfo} {base : Path} {s : JournalSession}
    {parts : List (List Block)} {last : List Block} (h : Stopped info base s parts last) :
    ∃ prologue blocks tail, LastPart info s true prologue blocks tail := by
  obtain ⟨header, seq, hheader, hfile⟩ := h.files parts.length last (by
    rw [getElem?_append_right (Nat.le_refl _), Nat.sub_self]
    rfl)
  rw [← h.path] at hfile
  exact ⟨_, _, _, Journal.lastPart hheader hfile (.trailer seq)⟩

theorem Kept.lastPart {info : JournalSessionInfo} {base : Path} {s : JournalSession}
    {parts : List (List Block)} {last : List Block} {staged queue : List Msg}
    (h : Kept info base s parts last staged queue) :
    ∃ prologue blocks tail, LastPart info s false prologue blocks tail := by
  have hfile : (s.writer.disk s.writer.path).content = s.writer.header.bytes ++ (info.tables ++
      (last.flatMap Block.bytes ++ List.replicate ((s.writer.disk s.writer.path).length -
        (s.writer.disk s.writer.path).data.length) 0)) := by
    unfold File.content
    rw [h.written.data]
    simp only [append_assoc]
  exact ⟨_, _, _, Journal.lastPart h.written.header hfile (.zeros _)⟩

/-- Whatever was pushed through the ring is read back from the parts, and a last part that is cut,
before or after the writer stops, gives the blocks wholly before the cut. -/
theorem JournalSession.round_trip (k : Nat) (base : Path) (info : JournalSessionInfo)
    (maxBytes : Nat) (ops : List JournalOp) :
    (∃ msgs : List (List (List UInt8)), List.Forall₂ (fun p ms => ReadBack info
          ((((create k base info maxBytes).run ops).stop.writer.disk p).content) true ms)
        ((create k base info maxBytes).run ops).stop.writer.partPaths msgs ∧
      msgs.flatten = ((create k base info maxBytes).run ops).pushed) ∧
    (∃ prologue blocks tail,
      LastPart info ((create k base info maxBytes).run ops) false prologue blocks tail) ∧
    ∃ prologue blocks tail,
      LastPart info ((create k base info maxBytes).run ops).stop true prologue blocks tail := by
  obtain ⟨parts, last, staged, queue, hkept, -⟩ :=
    (kept_create k base info maxBytes).run stable_true trivial ops
  obtain ⟨parts', last', hstopped, hpushed⟩ := hkept.stop
  refine ⟨⟨_, hstopped.readBack, ?_⟩, hkept.lastPart, hstopped.lastPart⟩
  rw [← hpushed, hstopped.pushed, flatMap_def]

end FastMM.Journal
