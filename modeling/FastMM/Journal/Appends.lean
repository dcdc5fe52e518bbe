/-
  Journal/Appends.lean --- a session's files only grow, and its blocks are numbered.
-/
import FastMM.Journal.RoundTrip
import Mathlib.Data.List.Chain
set_option autoImplicit false

namespace FastMM.Journal

open Function JournalFileWriter List

/-! ## Writes -/

namespace JournalFileWriter

variable {w : JournalFileWriter}

section

variable (hopen : w.opened = true) (hsize : w.fileSize = (w.disk w.path).data.length)
variable (l : List UInt8)
include hopen hsize l

theorem append_disk : ∃ f, (w.append l).disk = update w.disk w.path f ∧
      f.data = (w.disk w.path).data ++ l := by
  obtain ⟨f, reserved, happend, hdata⟩ := append_eq hopen hsize l
  exact ⟨f, by rw [happend], hdata⟩

theorem append_rest : (w.append l).header = w.header ∧ (w.append l).part = w.part := by
  obtain ⟨f, reserved, happend, -⟩ := append_eq hopen hsize l
  rw [happend]
  exact ⟨rfl, rfl⟩

end

theorem rotate_openPart (w : JournalFileWriter) : ∃ w₁ : JournalFileWriter,
    w₁ = { w.writeTrailer.close with
      totalBytes := w.writeTrailer.close.totalBytes + w.writeTrailer.close.fileSize
      part := w.writeTrailer.close.part + 1
      path := partPath w.writeTrailer.close.basePath (w.writeTrailer.close.part + 1) } ∧
    w.rotate = w₁.openPart := ⟨_, rfl, rfl⟩

theorem create_openPart (k : Nat) (base : Path) (info : JournalSessionInfo) (maxBytes : Nat) :
    ∃ w : JournalFileWriter, w =
      { basePath := base, maxBytes := maxBytes, header := info.header, tables := info.tables,
        path := base } ∧ (JournalSession.create k base info maxBytes).writer = w.openPart :=
  ⟨_, rfl, rfl⟩

/-- A part is opened at its path alone, with a header of the session. -/
theorem openPart_disk (w : JournalFileWriter) : (∃ f, w.openPart.disk = update w.disk w.path f) ∧
    w.openPart.header.sessionId = w.header.sessionId ∧ w.openPart.part = w.part := by
  obtain ⟨header, hid, hopened⟩ : ∃ header, header.sessionId = w.header.sessionId ∧ w.openPart =
      JournalFileWriter.append { w.setFile {} with
          header := header
          opened := true
          closed := false
          reserved := 0
          fileSize := 0
          partPaths := w.partPaths ++ [w.path] } (header.bytes ++ w.tables) := by
    unfold openPart prologue
    dsimp only
    split
    · exact ⟨{ w.header with
        headerFlags := w.header.headerFlags ||| kHeaderEngineClock
        engineClockNs := w.engineNs }, rfl, rfl⟩
    · exact ⟨w.header, rfl, rfl⟩
  have hempty : 0 = ((w.setFile {}).disk w.path).data.length :=
    (congrArg (fun f => f.data.length) (update_self w.path ({} : File) w.disk)).symm
  obtain ⟨f, hdisk, -⟩ := append_disk (w := { w.setFile {} with
    header := header
    opened := true
    closed := false
    reserved := 0
    fileSize := 0
    partPaths := w.partPaths ++ [w.path] }) rfl hempty (header.bytes ++ w.tables)
  obtain ⟨hheader, hpart⟩ := append_rest (w := { w.setFile {} with
    header := header
    opened := true
    closed := false
    reserved := 0
    fileSize := 0
    partPaths := w.partPaths ++ [w.path] }) rfl hempty (header.bytes ++ w.tables)
  rw [hopened]
  refine ⟨⟨f, ?_⟩, ?_, hpart⟩
  · rw [hdisk]
    exact update_idem ..
  · rw [hheader]
    exact hid

end JournalFileWriter

/-! ## Numbers -/

/-- A block has messages, and its header the numbers of the first and the last of them. -/
structure Block.Numbered (b : Block) : Prop where
  seqFirst : ∃ m ms, b.msgs = m :: ms ∧ b.seqFirst = EventHeader.seq m.bytes
  seqLast : ∃ ms m, b.msgs = ms ++ [m] ∧ b.seqLast = EventHeader.seq m.bytes

/-- Messages numbered one after the other. -/
def Consecutive (ms : List (List UInt8)) : Prop :=
  ms.IsChain fun a b => EventHeader.seq b = EventHeader.seq a + 1

/-- The blocks of messages numbered one after the other are so too. -/
theorem chain_of_consecutive {bs : List Block} (hb : ∀ b ∈ bs, b.Numbered)
    (h : Consecutive (partMsgs bs)) : bs.IsChain fun a b => b.seqFirst = a.seqLast + 1 := by
  have hne : [] ∉ bs.map fun b => b.msgs.map Msg.bytes := by
    intro hmem
    obtain ⟨b, hbs, hnil⟩ := mem_map.mp hmem
    obtain ⟨m, ms, hmsgs, -⟩ := (hb b hbs).seqFirst
    simp [hmsgs] at hnil
  unfold Consecutive partMsgs at h
  rw [flatMap_def] at h
  have hchain := (isChain_map _).mp ((isChain_flatten hne).mp h).2
  refine List.IsChain.imp_of_mem_imp (fun a b ha hbs hab => ?_) hchain
  obtain ⟨ms, x, hlast, hseqLast⟩ := (hb a ha).seqLast
  obtain ⟨y, ms', hfirst, hseqFirst⟩ := (hb b hbs).seqFirst
  rw [hseqFirst, hseqLast]
  refine hab x.bytes ?_ y.bytes ?_
  · rw [hlast]
    simp
  · rw [hfirst]
    simp

/-! ## What is appended -/

/-- The files of a session, besides what is in the last part: those of the closed parts, those not
there yet, the numbers of the blocks; and no file has less than `before` of what it had. -/
structure Appended (info : JournalSessionInfo) (base : Path) (before : Path → List UInt8) (n : Nat)
    (w : JournalFileWriter) (parts : List (List Block)) (last : List Block) (staged : List Msg) :
    Prop where
  closedData : ∀ k bs, parts[k]? = some bs → ∃ h seq, IsHeader info h ∧
    h.sessionId = info.sessionId ∧ (w.disk (partPath base k)).data =
      h.bytes ++ (info.tables ++ (bs.flatMap Block.bytes ++ trailerBytes seq))
  sessionId : w.header.sessionId = info.sessionId
  fresh : ∀ k, w.part < k → (w.disk (partPath base k)).data = []
  numbered : ∀ b ∈ parts.flatten ++ last, b.Numbered
  seqFirst : ∀ m ms, staged = m :: ms → w.blockSeqFirst = EventHeader.seq m.bytes
  seqLast : ∀ ms m, staged = ms ++ [m] → w.blockSeqLast = EventHeader.seq m.bytes
  grown : ∀ p, before p <+: (w.disk p).data
  count : n ≤ w.part

section Appended

variable {info : JournalSessionInfo} {base : Path} {before : Path → List UInt8} {n : Nat}
  {w w' : JournalFileWriter} {parts : List (List Block)} {last : List Block} {staged : List Msg}

section

variable (h : Appended info base before n w parts last staged)
variable (hw : Written info base w parts last staged)
include h hw

/-- Files are kept where nothing is written, and the last part's grows. -/
theorem Appended.update {f : File} {l : List UInt8}
    (hf : f.data = (w.disk w.path).data ++ l) :
    (∀ k bs, parts[k]? = some bs → ∃ h seq, IsHeader info h ∧ h.sessionId = info.sessionId ∧
      (update w.disk w.path f (partPath base k)).data =
        h.bytes ++ (info.tables ++ (bs.flatMap Block.bytes ++ trailerBytes seq))) ∧
    (∀ k, w.part < k → (update w.disk w.path f (partPath base k)).data = []) ∧
    ∀ p, before p <+: (update w.disk w.path f p).data := by
  refine ⟨fun k bs hk => ?_, fun k hk => ?_, fun p => ?_⟩
  · have hlt := (List.getElem?_eq_some_iff.mp hk).1
    rw [hw.path, update_of_ne fun he => (partPath_injective base he ▸ hlt).ne rfl]
    exact h.closedData k bs hk
  · have hne : partPath base k ≠ w.path := by
      rw [hw.path, ← hw.part]
      exact fun he => hk.ne (partPath_injective base he).symm
    rw [update_of_ne hne]
    exact h.fresh k hk
  · by_cases hp : p = w.path
    · rw [hp, update_self, hf]
      exact (h.grown w.path).trans (prefix_append _ _)
    · rw [update_of_ne hp]
      exact h.grown p

/-- A block is appended. -/
theorem Appended.flush (hne : staged ≠ []) :
    Appended info base before n w.flushBlock parts
      (last ++ [⟨w.blockSeqFirst, w.blockSeqLast, staged, hw.fits⟩]) [] := by
  have hcount : w.blockCount ≠ 0 := by
    rw [hw.blockCount]
    exact fun hzero => hne (length_eq_zero_iff.mp hzero)
  unfold flushBlock
  rw [if_neg hcount]
  dsimp only
  obtain ⟨l, hl⟩ : ∃ l, l = JournalBlockHeader.bytes
      { byteLen := .ofNat w.blockUsed
        seqFirst := w.blockSeqFirst
        seqLast := w.blockSeqLast
        count := .ofNat w.blockCount
        crc32c := crc32c w.block } ++ w.block := ⟨_, rfl⟩
  obtain ⟨f, hdisk, hdata⟩ := append_disk hw.opened hw.fileSize l
  obtain ⟨hheader, hpart⟩ := append_rest hw.opened hw.fileSize l
  obtain ⟨hclosed, hfresh, hgrown⟩ := h.update hw hdata
  rw [← hl]
  refine ⟨?_, ?_, ?_, fun b hb => ?_, fun m ms he => absurd he (by simp),
    fun ms m he => absurd he (by simp), ?_, ?_⟩
  · rw [hdisk]
    exact hclosed
  · rw [hheader]
    exact h.sessionId
  · rw [hdisk, hpart]
    exact hfresh
  · rw [← append_assoc] at hb
    rcases mem_append.mp hb with hold | hnew
    · exact h.numbered b hold
    rw [mem_singleton.mp hnew]
    obtain ⟨m, ms, hcons⟩ := exists_cons_of_ne_nil hne
    obtain ⟨ms', m', hsnoc⟩ := eq_nil_or_concat' staged |>.resolve_left hne
    exact ⟨⟨m, ms, hcons, h.seqFirst m ms hcons⟩, ⟨ms', m', hsnoc, h.seqLast ms' m' hsnoc⟩⟩
  · rw [hdisk]
    exact hgrown
  · rw [hpart]
    exact h.count

end

section

variable (h : Appended info base before n w parts last []) (hw : Written info base w parts last [])
include h hw

/-- The last part is closed: all files after it. -/
theorem Appended.close : ∃ f,
    w.writeTrailer.close.disk = Function.update w.disk w.path f ∧
      w.writeTrailer.close.header = w.header ∧ w.writeTrailer.close.part = w.part ∧
      w.writeTrailer.close.basePath = base ∧ w.writeTrailer.close.partPaths = w.partPaths ∧
    (∀ k bs, (parts ++ [last])[k]? = some bs → ∃ h seq, IsHeader info h ∧
      h.sessionId = info.sessionId ∧ (Function.update w.disk w.path f (partPath base k)).data =
        h.bytes ++ (info.tables ++ (bs.flatMap Block.bytes ++ trailerBytes seq))) ∧
    (∀ k, w.part < k → (Function.update w.disk w.path f (partPath base k)).data = []) ∧
    ∀ p, before p <+: (Function.update w.disk w.path f p).data := by
  obtain ⟨f, seq, hclose, hf, hcontent⟩ := hw.writeTrailer_close
  have hdata : f.data = w.header.bytes ++ (info.tables ++
      (last.flatMap Block.bytes ++ trailerBytes seq)) := hcontent.trans hf
  obtain ⟨hclosed, hfresh, hgrown⟩ := h.update hw (f := f) (l := trailerBytes seq) (by
    rw [hdata, hw.data]
    simp only [append_assoc])
  refine ⟨f, by rw [hclose], by rw [hclose], by rw [hclose], by rw [hclose]; exact hw.basePath,
    by rw [hclose], fun k bs hk => ?_, hfresh, hgrown⟩
  rw [getElem?_append] at hk
  split_ifs at hk with hlt
  · exact hclosed k bs hk
  have hone := (List.getElem?_eq_some_iff.mp hk).1
  rw [length_singleton] at hone
  obtain rfl : k = parts.length := by omega
  rw [Nat.sub_self] at hk
  obtain rfl := Option.some.inj hk
  rw [← hw.path, update_self]
  exact ⟨w.header, seq, hw.header, h.sessionId, hdata⟩

/-- The next part is begun. -/
theorem Appended.rotate :
    Appended info base before n w.rotate (parts ++ [last]) [] [] := by
  obtain ⟨f, hdisk, hheader, hpart, hbase, -, hclosed, hfresh, hgrown⟩ := h.close hw
  obtain ⟨w₁, hw₁, hrotate⟩ := w.rotate_openPart
  have hpath : w₁.path = partPath base (w.part + 1) := by
    rw [hw₁]
    rw [hbase, hpart]
  have hdisk₁ : w₁.disk = Function.update w.disk w.path f := by
    rw [hw₁]
    exact hdisk
  have hpart₁ : w₁.part = w.part + 1 := by
    rw [hw₁]
    exact congrArg (· + 1) hpart
  have hid₁ : w₁.header.sessionId = info.sessionId := by
    rw [hw₁]
    rw [hheader]
    exact h.sessionId
  obtain ⟨⟨g, hopen⟩, hid, hpart'⟩ := openPart_disk w₁
  rw [hrotate]
  rw [hdisk₁, hpath] at hopen
  refine ⟨fun k bs hk => ?_, hid.trans hid₁, fun k hk => ?_, ?_, fun m ms he => absurd he (by simp),
    fun ms m he => absurd he (by simp), fun p => ?_, ?_⟩
  · have hlt := (List.getElem?_eq_some_iff.mp hk).1
    rw [length_append, length_singleton, ← hw.part] at hlt
    rw [hopen, update_of_ne fun he => (partPath_injective base he ▸ hlt).ne rfl]
    exact hclosed k bs hk
  · rw [hpart', hpart₁] at hk
    rw [hopen, update_of_ne fun he => hk.ne (partPath_injective base he).symm]
    exact hfresh k (by omega)
  · rw [flatten_append, flatten_singleton, append_nil]
    exact h.numbered
  · rw [hopen]
    by_cases hp : p = partPath base (w.part + 1)
    · have hnil := hgrown p
      rw [hp, hfresh _ (Nat.lt_succ_self _), prefix_nil] at hnil
      rw [hp, hnil]
      exact nil_prefix
    · rw [update_of_ne hp]
      exact hgrown p
  · rw [hpart', hpart₁]
    exact h.count.trans (Nat.le_succ _)

end

/-- Every write keeps what was appended. -/
theorem appended_stable (info : JournalSessionInfo) (base : Path) (before : Path → List UInt8)
    (n : Nat) : Stable info base (Appended info base before n) := by
  refine ⟨fun hw hne h => h.flush hw hne, fun hw h => h.rotate hw,
    fun {w w' parts last staged} m hw h hdisk hheader hpart hfirst hlast _ _ => ?_⟩
  refine ⟨?_, ?_, ?_, h.numbered, fun x xs he => ?_, fun xs x he => ?_, ?_, ?_⟩
  · rw [hdisk]
    exact h.closedData
  · rw [hheader]
    exact h.sessionId
  · rw [hdisk, hpart]
    exact h.fresh
  · cases staged with
    | nil =>
      rw [hfirst, if_pos rfl]
      rw [(List.cons.inj he).1]
    | cons y ys =>
      rw [hfirst, if_neg (by simp), ← (List.cons.inj he).1]
      exact h.seqFirst y ys rfl
  · rw [hlast, (append_inj_right' he rfl |> singleton_inj.mp)]
  · rw [hdisk]
    exact h.grown
  · rw [hpart]
    exact h.count

/-- What there is may be taken as what there was before. -/
theorem Appended.rebase (h : Appended info base before n w parts last staged) :
    Appended info base (fun p => (w.disk p).data) w.part w parts last staged :=
  ⟨h.closedData, h.sessionId, h.fresh, h.numbered, h.seqFirst, h.seqLast,
    fun _ => prefix_refl _, Nat.le_refl _⟩

theorem appended_create (k : Nat) (base : Path) (info : JournalSessionInfo) (maxBytes : Nat) :
    Appended info base (fun _ => []) 0 (JournalSession.create k base info maxBytes).writer
      [] [] [] := by
  obtain ⟨w, hw, hwriter⟩ := create_openPart k base info maxBytes
  have hpath : w.path = partPath base 0 := by
    rw [hw]
    rfl
  have hempty : w.disk = fun _ => {} := by rw [hw]
  have hsession : w.header.sessionId = info.sessionId := by
    rw [hw]
    unfold JournalSessionInfo.header
    dsimp only
    split <;> split <;> rfl
  obtain ⟨⟨f, hdisk⟩, hid, -⟩ := openPart_disk w
  rw [hwriter]
  refine ⟨fun k bs hk => absurd hk (by simp), hid.trans hsession, fun j hj => ?_,
    fun b hb => absurd hb (by simp), fun m ms he => absurd he (by simp),
    fun ms m he => absurd he (by simp), fun p => nil_prefix, Nat.zero_le _⟩
  have hj : 0 < j := lt_of_le_of_lt (Nat.zero_le _) hj
  rw [hdisk, hpath, update_of_ne fun he => hj.ne (partPath_injective base he).symm, hempty]

end Appended

end FastMM.Journal
