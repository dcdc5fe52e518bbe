/-
  Journal/Prologue.lean --- the header and tables of a part are read back.
-/
import FastMM.Journal.Reader
set_option autoImplicit false

namespace FastMM.Journal

open Foundation JournalSessionInfo List

/-! ## Parameter tables -/

/-- An entry as a table keeps it. -/
def ParamDesc.recorded (d : ParamDesc) : ParamDesc := { d with name := d.name.take d.nameLen }

/-- What a reader has of the tables. -/
def JournalSessionInfo.recorded (info : JournalSessionInfo) : JournalTables where
  instruments := info.instruments
  config := info.configToml
  params := (info.params.map ParamDesc.recorded).take kJournalMaxParams
  paramsDropped := info.params.length - kJournalMaxParams
  metadata := info.strategyMeta

section Params

variable {schema later : List ParamDesc} {d : ParamDesc}

theorem paramTable_cons (d : ParamDesc) (schema : List ParamDesc) : paramTable (d :: schema) =
      d.type :: .ofNat d.nameLen :: (d.name.take d.nameLen ++ paramTable schema) := rfl

theorem length_name (d : ParamDesc) : (d.name.take d.nameLen).length = d.nameLen := by
  rw [length_take, ParamDesc.nameLen]
  omega

theorem toNat_nameLen (d : ParamDesc) : (UInt8.ofNat d.nameLen).toNat = d.nameLen := by
  refine (UInt8.toNat_ofNat' ..).trans (Nat.mod_eq_of_lt ?_)
  unfold ParamDesc.nameLen
  omega

theorem length_paramTable (schema : List ParamDesc) :
    schema.length ≤ (paramTable schema).length := by
  induction schema with
  | nil => exact Nat.zero_le _
  | cons d schema ih =>
    rw [paramTable_cons, length_cons, length_cons, length_cons, length_append]
    omega

/-- The rest of a table is read from where it starts. -/
theorem readParams_spec (pre : List UInt8) (schema : List ParamDesc) (i : Nat) :
    readParams (pre ++ paramTable schema) (pre ++ paramTable schema).length schema.length i
        pre.length =
      .ok ((schema.map ParamDesc.recorded).take (kJournalMaxParams - i),
        schema.length - (kJournalMaxParams - i), (pre ++ paramTable schema).length) := by
  induction schema generalizing pre i with
  | nil =>
    unfold readParams paramTable
    rw [flatMap_nil, append_nil, map_nil, take_nil]
    simp
  | cons d schema ih =>
    have hnext := ih (pre ++ (d.type :: .ofNat d.nameLen :: d.name.take d.nameLen)) (i + 1)
    have hsplit : pre ++ (d.type :: .ofNat d.nameLen :: d.name.take d.nameLen) ++
        paramTable schema = pre ++ paramTable (d :: schema) := by
      rw [paramTable_cons, append_assoc]
      rfl
    have hlast : (pre ++ (d.type :: .ofNat d.nameLen :: d.name.take d.nameLen)).length =
        pre.length + 2 + d.nameLen := by
      rw [length_append, length_cons, length_cons, length_name]
      omega
    have hlen : pre.length + 2 + d.nameLen ≤ (pre ++ paramTable (d :: schema)).length := by
      rw [← hsplit, length_append, hlast]
      exact Nat.le_add_right _ _
    have htype : (pre ++ paramTable (d :: schema)).getD pre.length 0 = d.type := by
      rw [getD_eq_getElem?_getD, getElem?_append_right (Nat.le_refl _), Nat.sub_self]
      rfl
    have hname : (pre ++ paramTable (d :: schema)).getD (pre.length + 1) 0 = .ofNat d.nameLen := by
      rw [getD_eq_getElem?_getD, getElem?_append_right (Nat.le_add_right _ _),
        Nat.add_sub_cancel_left]
      rfl
    have hslice : slice (pre.length + 2) d.nameLen (pre ++ paramTable (d :: schema)) =
        d.name.take d.nameLen := by
      have hmiddle := slice_middle (pre ++ [d.type, .ofNat d.nameLen]) (d.name.take d.nameLen)
        (paramTable schema)
      rw [length_name, length_append, append_assoc] at hmiddle
      exact hmiddle
    rw [hsplit, hlast] at hnext
    rw [length_cons, readParams, hname, toNat_nameLen, if_neg (by omega)]
    dsimp only
    rw [hnext, htype, hslice]
    dsimp only
    by_cases hi : i < kJournalMaxParams
    · obtain ⟨n, hn⟩ : ∃ n, kJournalMaxParams - i = n + 1 := ⟨kJournalMaxParams - i - 1, by omega⟩
      rw [if_pos hi, hn, show kJournalMaxParams - (i + 1) = n by omega, map_cons,
        take_succ_cons, Nat.add_sub_add_right]
      rfl
    · rw [if_neg hi, show kJournalMaxParams - i = 0 by omega,
        show kJournalMaxParams - (i + 1) = 0 by omega, take_zero, take_zero, Nat.sub_zero,
        Nat.sub_zero]

end Params

theorem records_flatten (size : Nat) (l : List (List UInt8)) (hl : ∀ r ∈ l, r.length = size)
    (rest : List UInt8) : records size l.length (l.flatten ++ rest) = l := by
  induction l with
  | nil => rfl
  | cons r l ih =>
    have hr := hl r mem_cons_self
    rw [length_cons, records, flatten_cons, append_assoc, take_left' hr,
      drop_left' hr, ih fun r hr' => hl r (mem_cons_of_mem _ hr')]

/-! ## The prologue -/

/-- A header of a part of the session. -/
structure IsHeader (info : JournalSessionInfo) (h : JournalFileHeader) : Prop where
  magic : h.magic = kFileMagic
  version : h.version = kJournalVersion
  headerBytes : h.headerBytes.toNat = info.headerBytes
  instrumentCount : h.instrumentCount.toNat = info.instruments.length
  configBytes : h.configBytes.toNat = info.configToml.length
  configCrc32c : h.configCrc32c = crc32c info.configToml
  paramCount : h.paramCount.toNat = info.params.length
  paramTableBytes : h.paramTableBytes.toNat = (paramTable info.params).length
  paramTableCrc32c : h.paramTableCrc32c = crc32c (paramTable info.params)
  metaBytes : h.metaBytes.toNat = info.strategyMeta.length
  metaCrc32c : h.metaCrc32c = crc32c info.strategyMeta

theorem le_pad64 (n : Nat) : n ≤ pad64 n := by
  unfold pad64
  omega

section Header

variable {info : JournalSessionInfo} {h : JournalFileHeader}

/-- A later part carries the engine clock. -/
theorem IsHeader.engineClock (hh : IsHeader info h) (ns : Int64) : IsHeader info { h with
      headerFlags := h.headerFlags ||| kHeaderEngineClock
      engineClockNs := ns } :=
  ⟨hh.magic, hh.version, hh.headerBytes, hh.instrumentCount, hh.configBytes, hh.configCrc32c,
    hh.paramCount, hh.paramTableBytes, hh.paramTableCrc32c, hh.metaBytes, hh.metaCrc32c⟩

theorem isHeader_header (info : JournalSessionInfo) : IsHeader info info.header := by
  have hfits := info.fits
  have hconfig := le_pad64 info.configToml.length
  have hparams := le_pad64 (paramTable info.params).length
  have hmeta := le_pad64 info.strategyMeta.length
  have hcount := length_paramTable info.params
  have hinst : info.instruments.length ≤ info.instruments.length * sizeofInstrument :=
    Nat.le_mul_of_pos_right _ (by decide)
  have hnat : ∀ n, n < 2 ^ 32 → (UInt32.ofNat n).toNat = n := fun n hn =>
    (UInt32.toNat_ofNat' ..).trans (Nat.mod_eq_of_lt hn)
  unfold JournalSessionInfo.header
  dsimp only
  split <;> split
  all_goals
    exact ⟨rfl, rfl, hnat _ hfits, hnat _ (by omega), hnat _ (by omega), rfl, hnat _ (by omega),
      hnat _ (by omega), rfl, hnat _ (by omega), rfl⟩

/-! ## Parsing -/

/-- What was padded is sliced out. -/
theorem slice_padded (a l b : List UInt8) : slice a.length l.length (a ++ (padded l ++ b)) = l := by
  unfold padded
  rw [append_assoc]
  exact slice_middle a l _

/-- A part's prologue is taken apart as it was put together. -/
theorem parsePrologue_spec (hh : IsHeader info h) (body : List UInt8) :
    JournalReader.parsePrologue (h.bytes ++ (info.tables ++ body)) =
      .ok
        { map := h.bytes ++ (info.tables ++ body)
          header := h
          tables := info.recorded
          firstBlock := info.headerBytes } := by
  have hheader : h.bytes.length = JournalFileHeader.size := h.length_bytes
  have htables := info.length_tables
  have hinst := info.length_instruments
  have hlen : (h.bytes ++ (info.tables ++ body)).length = info.headerBytes + body.length := by
    rw [length_append, length_append, hheader]
    omega
  have hconfig : slice (JournalFileHeader.size + info.instruments.length * sizeofInstrument)
      info.configToml.length (h.bytes ++ (info.tables ++ body)) = info.configToml := by
    have hslice := slice_padded (h.bytes ++ info.instruments.flatten) info.configToml
      (padded (paramTable info.params) ++ (padded info.strategyMeta ++ body))
    rw [length_append, hheader, hinst] at hslice
    refine Eq.trans ?_ hslice
    unfold JournalSessionInfo.tables
    simp only [append_assoc]
  have hparams : slice (JournalFileHeader.size + info.instruments.length * sizeofInstrument +
      pad64 info.configToml.length) (paramTable info.params).length
      (h.bytes ++ (info.tables ++ body)) = paramTable info.params := by
    have hslice := slice_padded (h.bytes ++ (info.instruments.flatten ++ padded info.configToml))
      (paramTable info.params) (padded info.strategyMeta ++ body)
    rw [length_append, length_append, hheader, hinst, length_padded, ← Nat.add_assoc] at hslice
    refine Eq.trans ?_ hslice
    unfold JournalSessionInfo.tables
    simp only [append_assoc]
  have hmeta : slice (JournalFileHeader.size + info.instruments.length * sizeofInstrument +
      pad64 info.configToml.length + pad64 (paramTable info.params).length)
      info.strategyMeta.length (h.bytes ++ (info.tables ++ body)) = info.strategyMeta := by
    have hslice := slice_padded (h.bytes ++ (info.instruments.flatten ++ (padded info.configToml ++
      padded (paramTable info.params)))) info.strategyMeta body
    rw [length_append, length_append, length_append, hheader, hinst, length_padded,
      length_padded, ← Nat.add_assoc, ← Nat.add_assoc] at hslice
    refine Eq.trans ?_ hslice
    unfold JournalSessionInfo.tables
    simp only [append_assoc]
  have hrecords : records sizeofInstrument info.instruments.length
      ((h.bytes ++ (info.tables ++ body)).drop JournalFileHeader.size) = info.instruments := by
    rw [drop_left' hheader]
    unfold JournalSessionInfo.tables
    rw [append_assoc]
    exact records_flatten _ _ info.records _
  have hread := readParams_spec [] info.params 0
  rw [nil_append, length_nil] at hread
  unfold JournalReader.parsePrologue
  dsimp only
  rw [h.ofBytes_bytes, h.readCrc32c_bytes, h.take_bytes, hh.version, hh.magic, hh.headerBytes,
    hh.instrumentCount, hh.configBytes, hh.paramTableBytes, hh.metaBytes, hh.paramCount,
    hh.configCrc32c, hh.paramTableCrc32c, hh.metaCrc32c, hlen]
  have htwo : (2 : UInt32) ≤ kJournalVersion := by decide
  have hthree : (3 : UInt32) ≤ kJournalVersion := by decide
  simp only [if_pos htwo, if_pos hthree]
  rw [if_neg (fun hne => hne rfl), if_neg (by decide), if_neg (fun hne => hne rfl),
    if_neg (by omega), if_neg (fun hne => hne rfl), hconfig, hparams, hmeta,
    if_neg (fun hne => hne.2 rfl), if_neg (fun hne => hne.2 rfl), hread]
  dsimp only
  rw [if_neg (fun hne => hne rfl), if_neg (fun hne => hne.2 rfl), hrecords]
  rfl

end Header

end FastMM.Journal
