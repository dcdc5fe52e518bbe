/-
  Journal/EngineClock.lean --- the engine clock a reader follows is the one that was recorded.

  Source: `include/fastmm/core/journal.hpp` (`journal_engine_clock`), `src/core/journal_file.cpp`
  (`follow_clock`, `open_part`), `include/fastmm/sim/journal_feed.hpp` (`advance`).

  A delta is from the last value that reached the ring.  Where one is lost the chain starts again
  from a record of the clock, and a part's header holds the value at the part's start.
-/
import FastMM.Journal.Appends
import FastMM.Journal.JournalWriter
set_option autoImplicit false

namespace FastMM.Journal

open Journal.EventHeader Function JournalFileHeader JournalFileWriter List

/-! ## The clock of a reader -/

variable (ms : List (List UInt8))

def journalEngineClock (h : JournalFileHeader) : Int64 :=
  if h.headerFlags &&& kHeaderEngineClock ≠ 0 then h.engineClockNs else 0

/-- The clock after a record. -/
def clockStep (c : Int64) (m : List UInt8) : Int64 :=
  if EventHeader.type m = kEventEngineTime then engineTs m
  else if EventHeader.flags m &&& kEngineTime ≠ 0 then
    c + (reserved0 m).toInt32.toInt64
  else c

def clockAfter (c : Int64) (ms : List (List UInt8)) : Int64 := ms.foldl clockStep c

/-- The clock at each record. -/
def clocks (c : Int64) : List (List UInt8) → List Int64
  | [] => []
  | m :: ms => clockStep c m :: clocks (clockStep c m) ms

/-- There is a record of the clock among these. -/
def Timed : Prop := ∃ m ∈ ms, EventHeader.type m = kEventEngineTime

instance (ms : List (List UInt8)) : Decidable (Timed ms) :=
  inferInstanceAs (Decidable (∃ m ∈ ms, EventHeader.type m = kEventEngineTime))

/-- The clock in the header of the part that these records are before. -/
def headerClock : Int64 := if Timed ms then clockAfter 0 ms else 0

section Chain

variable {c : Int64} {m : List UInt8} {ms ms' : List (List UInt8)}

theorem clockAfter_append (c : Int64) (ms ms' : List (List UInt8)) :
    clockAfter c (ms ++ ms') = clockAfter (clockAfter c ms) ms' := foldl_append ..

theorem clockAfter_singleton (c : Int64) (m : List UInt8) : clockAfter c [m] = clockStep c m := rfl

theorem clocks_append (c : Int64) (ms ms' : List (List UInt8)) :
    clocks c (ms ++ ms') = clocks c ms ++ clocks (clockAfter c ms) ms' := by
  induction ms generalizing c with
  | nil => rfl
  | cons m ms ih => exact congrArg (clockStep c m :: ·) (ih (clockStep c m))

theorem timed_append : Timed (ms ++ ms') ↔ Timed ms ∨ Timed ms' := by
  constructor
  · rintro ⟨m, hm, hclock⟩
    rcases mem_append.mp hm with hm | hm
    · exact .inl ⟨m, hm, hclock⟩
    · exact .inr ⟨m, hm, hclock⟩
  · rintro (⟨m, hm, hclock⟩ | ⟨m, hm, hclock⟩)
    · exact ⟨m, mem_append_left _ hm, hclock⟩
    · exact ⟨m, mem_append_right _ hm, hclock⟩

theorem timed_singleton : Timed [m] ↔ EventHeader.type m = kEventEngineTime := by
  constructor
  · rintro ⟨m', hm, hclock⟩
    exact mem_singleton.mp hm ▸ hclock
  · exact fun hclock => ⟨m, mem_singleton_self m, hclock⟩

end Chain

/-! ## The clock of the file -/

namespace JournalFileWriter

variable {w : JournalFileWriter}

/-- The file follows the clock that its readers do. -/
theorem followClock_spec (w : JournalFileWriter) (m : List UInt8) :
    (w.followClock m).engineNs = clockStep w.engineNs m ∧
      ((w.followClock m).engineClock = true ↔
        w.engineClock = true ∨ EventHeader.type m = kEventEngineTime) := by
  unfold followClock clockStep
  split
  case isTrue h => exact ⟨rfl, ⟨fun _ => .inr h, fun _ => rfl⟩⟩
  case isFalse h =>
    split
    · exact ⟨rfl, ⟨.inl, fun hor => hor.resolve_right h⟩⟩
    · exact ⟨rfl, ⟨.inl, fun hor => hor.resolve_right h⟩⟩

/-- Bytes are appended and the clock stays. -/
theorem append_clock (w : JournalFileWriter) (l : List UInt8) : (w.append l).header = w.header ∧
    (w.append l).engineNs = w.engineNs ∧ (w.append l).engineClock = w.engineClock := by
  unfold append
  split
  · exact ⟨rfl, rfl, rfl⟩
  · unfold reserve setFile
    split <;> exact ⟨rfl, rfl, rfl⟩

theorem flushBlock_clock (w : JournalFileWriter) : w.flushBlock.header = w.header ∧
    w.flushBlock.engineNs = w.engineNs ∧ w.flushBlock.engineClock = w.engineClock := by
  unfold flushBlock
  split
  · exact ⟨rfl, rfl, rfl⟩
  · exact w.append_clock _

/-- A later part's header has the clock, once there is one. -/
theorem openPart_clock (hpart : 0 < w.part) : w.openPart.header =
      (if w.engineClock = true then
        { w.header with
          headerFlags := w.header.headerFlags ||| kHeaderEngineClock
          engineClockNs := w.engineNs }
      else w.header) ∧
    w.openPart.engineNs = w.engineNs ∧ w.openPart.engineClock = w.engineClock := by
  unfold openPart
  dsimp only
  by_cases hclock : w.engineClock = true
  · rw [if_pos hclock, if_pos ⟨hpart, hclock⟩]
    exact append_clock _ _
  · rw [if_neg hclock, if_neg fun h => hclock h.2]
    exact append_clock _ _

end JournalFileWriter

/-- A flag that is set is there. -/
theorem headerFlags_engineClock (flags : UInt8) :
    (flags ||| kHeaderEngineClock) &&& kHeaderEngineClock ≠ 0 := by
  have hbits : (flags ||| kHeaderEngineClock) &&& kHeaderEngineClock = kHeaderEngineClock := by
    apply UInt8.toBitVec_inj.mp
    rw [UInt8.toBitVec_and, UInt8.toBitVec_or, BitVec.and_or_distrib_right, BitVec.and_self]
    ext i hi
    simp only [BitVec.getElem_or, BitVec.getElem_and]
    cases flags.toBitVec[i] <;> cases kHeaderEngineClock.toBitVec[i] <;> rfl
  rw [hbits]
  decide

/-! ## The clock of the parts -/

/-- The messages of these blocks, as they were told. -/
theorem map_blockMsgs (parts : List (List Block)) :
    (blockMsgs parts.flatten).map Msg.bytes = parts.flatMap partMsgs :=
  (flatMap_partMsgs parts).symm

/-- The file's clock is that of the messages it was told, and each part's header has the value at
the part's start. -/
structure ClockKept (base : Path) (w : JournalFileWriter) (parts : List (List Block))
    (last : List Block) (staged : List Msg) : Prop where
  engineNs : w.engineNs = clockAfter 0 ((Written.told parts last staged).map Msg.bytes)
  engineClock : w.engineClock = true ↔ Timed ((Written.told parts last staged).map Msg.bytes)
  header : journalEngineClock w.header = headerClock (parts.flatMap partMsgs)
  closed : ∀ k, k < parts.length →
    journalEngineClock (.ofBytes (w.disk (partPath base k)).content) =
      headerClock ((parts.take k).flatMap partMsgs)

section ClockKept

variable {info : JournalSessionInfo} {base : Path} {w w' : JournalFileWriter}
  {parts : List (List Block)} {last : List Block} {staged : List Msg}

theorem told_flush (parts : List (List Block)) (last : List Block) (b : Block) :
    Written.told parts (last ++ [b]) [] = Written.told parts last b.msgs := by
  unfold Written.told blockMsgs
  rw [flatMap_append, flatMap_singleton, append_nil]

theorem told_rotate (parts : List (List Block)) (last : List Block) :
    Written.told (parts ++ [last]) [] [] = Written.told parts last [] := by
  unfold Written.told blockMsgs
  rw [flatten_append, flatten_singleton, flatMap_append, flatMap_nil,
    append_nil, append_nil, append_nil]

theorem told_nil (parts : List (List Block)) (last : List Block) :
    (Written.told parts last []).map Msg.bytes = (parts ++ [last]).flatMap partMsgs := by
  rw [← told_rotate, ← map_blockMsgs]
  unfold Written.told blockMsgs
  rw [flatMap_nil, append_nil, append_nil]

/-- A block is written, and the clock stays. -/
theorem ClockKept.flush (h : ClockKept base w parts last staged)
    (hw : Written info base w parts last staged) (hne : staged ≠ []) :
    ClockKept base w.flushBlock parts
      (last ++ [⟨w.blockSeqFirst, w.blockSeqLast, staged, hw.fits⟩]) [] := by
  have hcount : w.blockCount ≠ 0 := by
    rw [hw.blockCount]
    exact fun hzero => hne (length_eq_zero_iff.mp hzero)
  obtain ⟨hheader, hns, hclock⟩ := w.flushBlock_clock
  refine ⟨?_, ?_, ?_, fun k hk => ?_⟩
  · rw [hns, told_flush]
    exact h.engineNs
  · rw [hclock, told_flush]
    exact h.engineClock
  · rw [hheader]
    exact h.header
  have hdisk : ∃ f, w.flushBlock.disk = update w.disk w.path f := by
    unfold flushBlock
    rw [if_neg hcount]
    obtain ⟨f, hdisk, -⟩ := append_disk hw.opened hw.fileSize (JournalBlockHeader.bytes
        { byteLen := .ofNat w.blockUsed
          seqFirst := w.blockSeqFirst
          seqLast := w.blockSeqLast
          count := .ofNat w.blockCount
          crc32c := crc32c w.block } ++ w.block)
    exact ⟨f, hdisk⟩
  obtain ⟨f, hdisk⟩ := hdisk
  rw [hdisk, hw.path, update_of_ne fun he => (partPath_injective base he ▸ hk).ne rfl]
  exact h.closed k hk

/-- The header of the part begun has the clock of all the parts before it. -/
theorem ClockKept.rotate (h : ClockKept base w parts last [])
    (hw : Written info base w parts last []) : ClockKept base w.rotate (parts ++ [last]) [] [] := by
  obtain ⟨f, seq, hclose, hf, -⟩ := hw.writeTrailer_close
  obtain ⟨w₁, hw₁, hrotate⟩ := w.rotate_openPart
  have hpart : w₁.part = parts.length + 1 := by
    rw [hw₁, hclose]
    exact congrArg (· + 1) hw.part
  have hpath : w₁.path = partPath base (parts.length + 1) := by
    rw [hw₁, hclose]
    rw [hw.basePath, hw.part]
  have hdisk₁ : w₁.disk = update w.disk w.path f := by
    rw [hw₁, hclose]
  have hns₁ : w₁.engineNs = w.engineNs := by
    rw [hw₁, hclose]
  have hclock₁ : w₁.engineClock = w.engineClock := by
    rw [hw₁, hclose]
  have hheader₁ : w₁.header = w.header := by
    rw [hw₁, hclose]
  obtain ⟨hheader, hns, hclock⟩ := openPart_clock (w := w₁) (by rw [hpart]; exact Nat.succ_pos _)
  obtain ⟨⟨g, hopen⟩, -, -⟩ := w₁.openPart_disk
  rw [hrotate]
  refine ⟨?_, ?_, ?_, fun k hk => ?_⟩
  · rw [hns, hns₁, told_rotate]
    exact h.engineNs
  · rw [hclock, hclock₁, told_rotate]
    exact h.engineClock
  · rw [hheader, hns₁, hclock₁, hheader₁, ← told_nil]
    unfold headerClock
    by_cases htimed : Timed ((Written.told parts last []).map Msg.bytes)
    · rw [if_pos htimed, if_pos (h.engineClock.mpr htimed), ← h.engineNs]
      exact if_pos (headerFlags_engineClock _)
    rw [if_neg htimed, if_neg fun he => htimed (h.engineClock.mp he), h.header]
    -- no clock in all the parts, so none in those before the last
    refine if_neg fun hbefore => htimed ?_
    rw [told_nil, flatMap_append]
    exact timed_append.mpr (.inl hbefore)
  · rw [length_append, length_singleton] at hk
    have hne : partPath base k ≠ partPath base (parts.length + 1) := by
      intro he
      have := partPath_injective base he
      omega
    rw [hopen, hpath, update_of_ne hne, hdisk₁]
    by_cases hlt : k < parts.length
    · rw [hw.path, update_of_ne fun he => (partPath_injective base he ▸ hlt).ne rfl,
        take_append_of_le_length (by omega)]
      exact h.closed k hlt
    · obtain rfl : k = parts.length := by omega
      rw [← hw.path, update_self, hf, ofBytes_bytes, take_left]
      exact h.header

/-- Every write keeps the clock. -/
theorem clockKept_stable (info : JournalSessionInfo) (base : Path) :
    Stable info base (ClockKept base) := by
  refine ⟨fun hw hne h => h.flush hw hne, fun hw h => h.rotate hw,
    fun {w w' parts last staged} m hw h hdisk hheader _ _ _ hns hclock => ?_⟩
  obtain ⟨hstep, hset⟩ := w.followClock_spec m.bytes
  have htold : (Written.told parts last (staged ++ [m])).map Msg.bytes =
      (Written.told parts last staged).map Msg.bytes ++ [m.bytes] := by
    unfold Written.told
    simp only [map_append, append_assoc, map_cons, map_nil]
  refine ⟨?_, ?_, ?_, fun k hk => ?_⟩
  · rw [hns, hstep, htold, clockAfter_append, clockAfter_singleton, h.engineNs]
  · rw [hclock, hset, htold, timed_append, timed_singleton, h.engineClock]
  · rw [hheader]
    exact h.header
  · rw [hdisk]
    exact h.closed k hk

theorem clockKept_create (k : Nat) (base : Path) (info : JournalSessionInfo) (maxBytes : Nat) :
    ClockKept base (JournalSession.create k base info maxBytes).writer [] [] [] := by
  obtain ⟨w, hw, hwriter⟩ := create_openPart k base info maxBytes
  have hopen : w.openPart.header = info.header ∧ w.openPart.engineNs = 0 ∧
      w.openPart.engineClock = false := by
    unfold openPart
    dsimp only
    rw [hw, if_neg fun h => Nat.lt_irrefl 0 h.1]
    exact append_clock _ _
  obtain ⟨hheader, hns, hclock⟩ := hopen
  rw [hwriter]
  refine ⟨hns, ?_, ?_, fun k hk => absurd hk (Nat.not_lt_zero k)⟩
  · rw [hclock]
    exact ⟨fun h => absurd h (by decide), fun ⟨m, hm, _⟩ => absurd hm
      (by simp [Written.told, blockMsgs])⟩
  have hzero : info.header.engineClockNs = 0 := by
    unfold JournalSessionInfo.header
    dsimp only
    split <;> split <;> rfl
  rw [hheader]
  unfold journalEngineClock
  rw [hzero, ite_self]
  rfl

end ClockKept

/-! ## Records -/

/-- What a record of a call has, where a reader's clock is `c`.  A caller's flag alone adds nothing
to the clock. -/
def Exact (call : JournalCall) (m : List UInt8) (c : Int64) : Prop :=
  match call with
  | .recordAt _ engineTs => EventHeader.flags m &&& kEngineTime ≠ 0 ∧ c = engineTs
  | .recordClock _ engineTs => c = engineTs
  | .record _ extraFlags =>
    EventHeader.flags m &&& kEngineTime = extraFlags &&& kEngineTime
  | .recordWith _ | .recordOutbound _ _ => EventHeader.flags m &&& kEngineTime = 0

section Stamps

variable (seq : UInt64) (setFlags : UInt8) (reserved0 : UInt32) (c : Int64)

theorem flags_stamped (m : Msg) :
    EventHeader.flags (m.stamp seq setFlags reserved0).bytes &&& kEngineTime =
      setFlags &&& kEngineTime := by
  unfold Msg.stamp
  rw [flags_stamp m.isMsg.long, recordFlags_engineTime]

theorem type_stamped (m : Msg) :
    EventHeader.type (m.stamp seq setFlags reserved0).bytes = EventHeader.type m.bytes :=
  type_stamp m.isMsg.long

/-- A record of the clock sets it. -/
theorem clockStep_clock (kind : EngineTimeKind) (engineTs : Int64) :
    clockStep c ((engineTimeMsg kind engineTs).stamp seq setFlags reserved0).bytes = engineTs := by
  unfold clockStep
  rw [type_stamped, type_engineTimeMsg, if_pos rfl]
  unfold Msg.stamp
  rw [engineTs_stamp (engineTimeMsg kind engineTs).isMsg.long, engineTs_engineTimeMsg]

/-- Any other record adds its delta, or nothing. -/
theorem clockStep_msg (m : SessionMsg) : clockStep c (m.toMsg.stamp seq setFlags reserved0).bytes =
      if setFlags &&& kEngineTime ≠ 0 then c + reserved0.toInt32.toInt64 else c := by
  have hr : EventHeader.reserved0 (m.toMsg.stamp seq setFlags reserved0).bytes = reserved0 :=
    reserved0_stamp m.isMsg.long
  unfold clockStep
  rw [type_stamped, if_neg m.notClock, flags_stamped, hr]

theorem clockStep_plain (m : SessionMsg) :
    clockStep c (m.toMsg.stamp seq setFlags 0).bytes = c := by
  rw [clockStep_msg]
  split
  · exact Int64.add_zero c
  · rfl

/-- What fits a delta comes back from it. -/
theorem delta_fits {d : Int64} (hlow : ¬ d < Int32.minValue.toInt64)
    (hhigh : ¬ Int32.maxValue.toInt64 < d) : d.toUInt64.toUInt32.toInt32.toInt64 = d := by
  have hlow' : (-2147483648 : Int) ≤ d.toInt := Int64.le_iff_toInt_le.mp (Int64.not_lt.mp hlow)
  have hhigh' : d.toInt ≤ (2147483647 : Int) := Int64.le_iff_toInt_le.mp (Int64.not_lt.mp hhigh)
  have hsame : d.toUInt64.toUInt32.toInt32 = d.toInt32 := by
    apply Int32.toBitVec.inj
    rw [UInt32.toBitVec_toInt32, UInt64.toBitVec_toUInt32, Int64.toBitVec_toInt32,
      BitVec.signExtend_eq_setWidth_of_le _ (by decide)]
    rfl
  rw [← Int64.toInt_inj, Int32.toInt_toInt64, hsame, Int64.toInt_toInt32]
  exact Int.bmod_eq_of_le (by omega) (by omega)

end Stamps

/-! ## The chain -/

/-- Readers have the times of all records, and while the chain is whole the writer's last. -/
structure ClockChained (r : Recording) : Prop where
  pushed : r.session.pushed = r.recorded.map Prod.snd
  exact : List.Forall₂ (fun rec c => Exact rec.1 rec.2 c) r.recorded (clocks 0 r.session.pushed)
  synced : r.writer.clockSynced = true →
    clockAfter 0 r.session.pushed = r.writer.lastEngineNs ∧ Timed r.session.pushed
  untimed : ∀ ms, ms <+: r.session.pushed → ¬ Timed ms → clockAfter 0 ms = 0

namespace Recording

variable (full : UInt64 → Bool) (r : Recording)

/-- A message is taken, or lost with the chain. -/
theorem put_cases (call : JournalCall) (m : Msg) (setFlags : UInt8) (reserved0 : UInt32) :
    ((r.put full call m setFlags reserved0).1 = true ∧ ∃ b : Msg,
      b = m.stamp r.writer.nextSeq setFlags reserved0 ∧
      (r.put full call m setFlags reserved0).2.session.pushed = r.session.pushed ++ [b.bytes] ∧
      (r.put full call m setFlags reserved0).2.recorded = r.recorded ++ [(call, b.bytes)] ∧
      (r.put full call m setFlags reserved0).2.writer.lastEngineNs = r.writer.lastEngineNs ∧
      (r.put full call m setFlags reserved0).2.writer.clockSynced = r.writer.clockSynced) ∨
    ((r.put full call m setFlags reserved0).1 = false ∧
      (r.put full call m setFlags reserved0).2.session.pushed = r.session.pushed ∧
      (r.put full call m setFlags reserved0).2.recorded = r.recorded ∧
      (r.put full call m setFlags reserved0).2.writer.clockSynced = false) := by
  obtain ⟨b, hb⟩ : ∃ b : Msg, b = m.stamp r.writer.nextSeq setFlags reserved0 := ⟨_, rfl⟩
  unfold put
  dsimp only
  rw [← hb]
  by_cases htaken : full r.writer.nextSeq = false ∧ (r.session.ring.tryPush b.bytes).1 = true
  · rw [if_pos htaken]
    exact .inl ⟨rfl, b, rfl, if_pos htaken.2, rfl, rfl, rfl⟩
  rw [if_neg htaken]
  refine .inr ⟨rfl, ?_, rfl, rfl⟩
  split_ifs with hfull
  · rfl
  · exact if_neg fun h => htaken ⟨Bool.not_eq_true _ ▸ hfull, h⟩

end Recording

section ClockChained

variable {full : UInt64 → Bool} {r r' : Recording}

section

variable (h : ClockChained r)
include h

/-- A record that is taken goes on with the chain or starts it. -/
theorem ClockChained.took {call : JournalCall} {b : Msg}
    (hpushed : r'.session.pushed = r.session.pushed ++ [b.bytes])
    (hrecorded : r'.recorded = r.recorded ++ [(call, b.bytes)])
    (hexact : Exact call b.bytes (clockStep (clockAfter 0 r.session.pushed) b.bytes))
    (hsynced : r'.writer.clockSynced = true →
      clockStep (clockAfter 0 r.session.pushed) b.bytes = r'.writer.lastEngineNs ∧
        (Timed r.session.pushed ∨ EventHeader.type b.bytes = kEventEngineTime))
    (huntimed : ¬ Timed r.session.pushed → EventHeader.type b.bytes ≠ kEventEngineTime →
      clockStep 0 b.bytes = 0) : ClockChained r' := by
  refine ⟨?_, ?_, fun hs => ?_, fun ms hms hnot => ?_⟩
  · rw [hpushed, hrecorded, h.pushed, map_append]
    rfl
  · rw [hpushed, hrecorded, clocks_append]
    exact rel_append h.exact (.cons hexact .nil)
  · rw [hpushed, clockAfter_append, clockAfter_singleton, timed_append, timed_singleton]
    exact hsynced hs
  rw [hpushed, prefix_concat_iff] at hms
  rcases hms with rfl | hms
  · rw [timed_append, timed_singleton, not_or] at hnot
    rw [clockAfter_append, clockAfter_singleton, h.untimed _ (prefix_refl _) hnot.1]
    exact huntimed hnot.1 hnot.2
  · exact h.untimed ms hms hnot

theorem ClockChained.lost (hpushed : r'.session.pushed = r.session.pushed)
    (hrecorded : r'.recorded = r.recorded) (hsynced : r'.writer.clockSynced = false) :
    ClockChained r' := by
  refine ⟨?_, ?_, fun hs => absurd hs (by rw [hsynced]; decide), ?_⟩
  · rw [hpushed, hrecorded]
    exact h.pushed
  · rw [hpushed, hrecorded]
    exact h.exact
  · rw [hpushed]
    exact h.untimed

/-- A record that is not of the clock leaves it alone. -/
theorem ClockChained.put {call : JournalCall} (m : SessionMsg) {setFlags : UInt8}
    (hexact : ∀ seq c, Exact call (m.toMsg.stamp seq setFlags 0).bytes c) :
    ClockChained (r.put full call m.toMsg setFlags 0).2 := by
  rcases r.put_cases full call m.toMsg setFlags 0 with
    ⟨-, b, rfl, hpushed, hrecorded, hlast, hsynced⟩ | ⟨-, hpushed, hrecorded, hsynced⟩
  · refine h.took hpushed hrecorded (hexact _ _) (fun hs => ?_) fun _ _ => clockStep_plain ..
    rw [hsynced] at hs
    rw [clockStep_plain, hlast]
    exact ⟨(h.synced hs).1, .inl (h.synced hs).2⟩
  · exact h.lost hpushed hrecorded hsynced

/-- A record of the clock makes the chain whole. -/
theorem ClockChained.recordClock (full : UInt64 → Bool) (kind : EngineTimeKind) (engineTs : Int64) :
    ClockChained (r.recordClock full kind engineTs).2 ∧
      ((r.recordClock full kind engineTs).1 = true →
        (r.recordClock full kind engineTs).2.writer.clockSynced = true ∧
          (r.recordClock full kind engineTs).2.writer.lastEngineNs = engineTs) := by
  unfold Recording.recordClock
  rcases r.put_cases full (.recordClock kind engineTs) (engineTimeMsg kind engineTs) 0 0 with
    ⟨htaken, b, rfl, hpushed, hrecorded, -, -⟩ | ⟨htaken, hpushed, hrecorded, hsynced⟩
  · dsimp only
    rw [if_pos htaken]
    refine ⟨?_, fun _ => ⟨rfl, rfl⟩⟩
    refine h.took hpushed hrecorded (clockStep_clock ..)
      (fun _ => ⟨clockStep_clock .., .inr ?_⟩) fun _ hne => ?_
    · exact type_stamped ..
    · exact absurd (type_stamped ..) hne
  · dsimp only
    rw [if_neg (by rw [htaken]; decide)]
    exact ⟨h.lost hpushed hrecorded hsynced, fun he => absurd he Bool.false_ne_true⟩

/-- A record with a delta that fits goes on with a chain that is whole. -/
theorem ClockChained.putAt (hs : r.writer.clockSynced = true) (m : SessionMsg)
    {engineTs d : Int64} (hd : d.toUInt64.toUInt32.toInt32.toInt64 = d)
    (hsum : r.writer.lastEngineNs + d = engineTs) : ClockChained (r.putAt full m engineTs d).2 := by
  unfold Recording.putAt
  rcases r.put_cases full (.recordAt m engineTs) m.toMsg kEngineTime d.toUInt64.toUInt32 with
    ⟨htaken, b, rfl, hpushed, hrecorded, -, -⟩ | ⟨htaken, hpushed, hrecorded, hsynced⟩
  · obtain ⟨hlast, htimed⟩ := h.synced hs
    have hstep : clockStep (clockAfter 0 r.session.pushed)
        (m.toMsg.stamp r.writer.nextSeq kEngineTime d.toUInt64.toUInt32).bytes =
          engineTs := by
      rw [clockStep_msg, if_pos (by decide), hd, hlast, hsum]
    dsimp only
    rw [if_pos htaken]
    refine h.took hpushed hrecorded ⟨?_, hstep⟩ (fun _ => ⟨hstep, .inl htimed⟩)
      fun hnot _ => absurd htimed hnot
    rw [flags_stamped]
    decide
  · dsimp only
    rw [if_neg (by rw [htaken]; decide)]
    exact h.lost hpushed hrecorded hsynced

theorem ClockChained.recordAt (m : SessionMsg) (engineTs : Int64) :
    ClockChained (r.recordAt full m engineTs).2 := by
  unfold Recording.recordAt
  dsimp only
  split
  · obtain ⟨hclock, htaken⟩ := h.recordClock full .sync engineTs
    split
    case isTrue ht =>
      obtain ⟨hs, hlast⟩ := htaken ht
      exact hclock.putAt hs m (by decide) (by rw [hlast, Int64.add_zero])
    case isFalse => exact hclock
  · rename_i hfits
    rw [not_or, not_or] at hfits
    obtain ⟨hs, hhigh, hlow⟩ := hfits
    refine h.putAt (Bool.not_eq_false _ ▸ hs) m (delta_fits hlow hhigh) ?_
    rw [Int64.add_comm]
    exact Int64.sub_add_cancel _ _

/-- Every call keeps the chain. -/
theorem ClockChained.call (c : JournalCall) : ClockChained (r.call full c).2 := by
  cases c with
  | record m extraFlags => exact h.put m fun seq c => flags_stamped ..
  | recordAt m engineTs => exact h.recordAt m engineTs
  | recordClock kind engineTs => exact (h.recordClock full kind engineTs).1
  | recordWith head => exact h.put head.msg fun seq c => flags_stamped ..
  | recordOutbound m dropped =>
    refine h.put m fun seq c => ?_
    refine (flags_stamped ..).trans ?_
    cases dropped <;> decide

end

theorem pushed_drain (s : JournalSession) (c : DrainCall) : (s.step c.op).pushed = s.pushed := by
  cases c <;> rfl

theorem ClockChained.step (h : ClockChained r) (op : RecordingOp) :
    ClockChained (r.step full op) := by
  cases op with
  | call c => exact h.call c
  | drain c =>
    have hpushed := pushed_drain r.session c
    refine ⟨hpushed.trans h.pushed, ?_, fun hs => ?_, ?_⟩
    · show List.Forall₂ _ r.recorded (clocks 0 (r.session.step c.op).pushed)
      rw [hpushed]
      exact h.exact
    · show clockAfter 0 (r.session.step c.op).pushed = _ ∧ Timed (r.session.step c.op).pushed
      rw [hpushed]
      exact h.synced hs
    · show ∀ ms, ms <+: (r.session.step c.op).pushed → _
      rw [hpushed]
      exact h.untimed

theorem ClockChained.run (h : ClockChained r) (ops : List RecordingOp) :
    ClockChained (r.run full ops) := by
  induction ops generalizing r with
  | nil => exact h
  | cons op ops ih => exact ih (h.step op)

theorem clockChained_create (k : Nat) (base : Path) (info : JournalSessionInfo) (maxBytes : Nat) :
    ClockChained (Recording.create k base info maxBytes) := by
  refine ⟨rfl, .nil, fun hs => absurd hs Bool.false_ne_true, fun ms hms _ => ?_⟩
  have hnil : ms = [] := prefix_nil.mp hms
  rw [hnil]
  rfl

end ClockChained

/-! ## The parts -/

namespace JournalReader

variable {r : JournalReader} {map : List UInt8}

theorem validateFrom_header (n off : Nat) (r : JournalReader) :
    (validateFrom n off r).header = r.header := by
  induction n generalizing off r with
  | zero => rfl
  | succ n ih =>
    rw [validateFrom]
    split
    · rfl
    split
    · rfl
    dsimp only
    split
    · rfl
    split
    · rfl
    · split
      · rfl
      · exact ih _ _

theorem parsePrologue_read (h : parsePrologue map = .ok r) : r.header = .ofBytes map := by
  unfold parsePrologue at h
  extract_lets at h
  repeat' split at h
  all_goals first
    | exact Except.ok.inj h ▸ rfl
    | exact absurd h nofun

/-- A reader has the header of its file. -/
theorem openFile_header (h : openFile map = .ok r) : r.header = .ofBytes map := by
  unfold openFile at h
  split at h
  · cases h
  cases hparse : parsePrologue map with
  | error e =>
    rw [hparse] at h
    cases h
  | ok r₀ =>
    rw [hparse] at h
    rw [← Except.ok.inj h, ← parsePrologue_read hparse]
    exact validateFrom_header ..

end JournalReader
section Parts

variable {info : JournalSessionInfo} {base : Path} {s : JournalSession} {parts : List (List Block)}
  {last : List Block} {staged queue : List Msg}

/-- The headers of the parts of a stopped session have the clock of what is before them. -/
theorem Kept.stop_clock (h : Kept info base s parts last staged queue)
    (hclock : ClockKept base s.writer parts last staged) : ∃ all : List (List Block),
    all ≠ [] ∧ s.pushed = all.flatMap partMsgs ∧
    s.stop.writer.partPaths = (List.range all.length).map (partPath base) ∧
    ∀ k bs, all[k]? = some bs → ∃ header seq, IsHeader info header ∧
      (s.stop.writer.disk (partPath base k)).content =
        header.bytes ++ (info.tables ++ (bs.flatMap Block.bytes ++ trailerBytes seq)) ∧
      journalEngineClock header = headerClock ((all.take k).flatMap partMsgs) := by
  obtain ⟨w, parts', last', hkept, hclock', hstop⟩ := h.stop_eq (clockKept_stable info base) hclock
  have hstopped := hkept.close
  have hwritten : Written info base w parts' last' [] := hkept.written
  obtain ⟨f, seq, hclose, hf, -⟩ := hwritten.writeTrailer_close
  refine ⟨parts' ++ [last'], by simp, hstopped.pushed, ?_, fun k bs hk => ?_⟩
  · rw [hstop]
    exact hstopped.partPaths
  have hlt := (List.getElem?_eq_some_iff.mp hk).1
  rw [length_append, length_singleton] at hlt
  obtain ⟨header, seq', hheader, hfile⟩ := hstopped.files k bs hk
  rw [hstop]
  refine ⟨header, seq', hheader, hfile, ?_⟩
  -- the file has one header, and it is the one the clock is known of
  have hread : ofBytes (w.writeTrailer.close.disk (partPath base k)).content =
      header := (congrArg ofBytes hfile).trans (header.ofBytes_bytes _)
  rw [← hread, hclose]
  show journalEngineClock (.ofBytes (update w.disk w.path f (partPath base k)).content) = _
  by_cases hk' : k < parts'.length
  · rw [hwritten.path, update_of_ne fun he => (partPath_injective base he ▸ hk').ne rfl,
      take_append_of_le_length (by omega)]
    exact hclock'.closed k hk'
  · obtain rfl : k = parts'.length := by omega
    rw [← hwritten.path, update_self, hf, ofBytes_bytes, take_left]
    exact hclock'.header

/-- Parts read each on its own give the clocks of the whole. -/
theorem clocks_parts (start : Nat → Int64) (all : List (List Block)) (before : List (List UInt8))
    (n : Nat) (h : ∀ k, k < all.length →
      start (n + k) = clockAfter 0 (before ++ (all.take k).flatMap partMsgs)) :
    ((all.zipIdx n).flatMap fun part => clocks (start part.2) (partMsgs part.1)) =
      clocks (clockAfter 0 before) (all.flatMap partMsgs) := by
  induction all generalizing before n with
  | nil => rfl
  | cons bs all ih =>
    have hfirst := h 0 (Nat.succ_pos _)
    rw [take_zero, flatMap_nil, append_nil, Nat.add_zero] at hfirst
    rw [zipIdx_cons, flatMap_cons, flatMap_cons, clocks_append, hfirst, ← clockAfter_append]
    refine congrArg (clocks (clockAfter 0 before) (partMsgs bs) ++ ·) (ih _ _ fun k hk => ?_)
    have hnext := h (k + 1) (Nat.succ_lt_succ hk)
    rw [take_succ_cons, flatMap_cons, ← append_assoc] at hnext
    rw [← hnext]
    congr 1
    omega

end Parts

namespace Recording

variable (full : UInt64 → Bool)

/-- What a recording does to its session is a run of it. -/
theorem session_call (r : Recording) (c : JournalCall) :
    ∃ ops, (r.call full c).2.session = r.session.run ops := by
  have hput : ∀ (r : Recording) (call : JournalCall) (m : Msg) (setFlags : UInt8)
      (reserved0 : UInt32),
      ∃ ops, (r.put full call m setFlags reserved0).2.session = r.session.run ops := by
    intro r call m setFlags reserved0
    unfold put
    dsimp only
    split
    · exact ⟨[.push _], rfl⟩
    · split
      · exact ⟨[], rfl⟩
      · exact ⟨[.push _], rfl⟩
  have hclock : ∀ (r : Recording) (kind : EngineTimeKind) (engineTs : Int64),
      ∃ ops, (r.recordClock full kind engineTs).2.session = r.session.run ops := by
    intro r kind engineTs
    obtain ⟨ops, hops⟩ := hput r (.recordClock kind engineTs) (engineTimeMsg kind engineTs) 0 0
    refine ⟨ops, ?_⟩
    unfold recordClock
    dsimp only
    split <;> exact hops
  have hat : ∀ (r : Recording) (m : SessionMsg) (engineTs d : Int64),
      ∃ ops, (r.putAt full m engineTs d).2.session = r.session.run ops := by
    intro r m engineTs d
    obtain ⟨ops, hops⟩ := hput r (.recordAt m engineTs) m.toMsg kEngineTime d.toUInt64.toUInt32
    refine ⟨ops, ?_⟩
    unfold putAt
    dsimp only
    split <;> exact hops
  cases c with
  | record m extraFlags => exact hput ..
  | recordClock kind engineTs => exact hclock ..
  | recordWith h => exact hput ..
  | recordOutbound m dropped => exact hput ..
  | recordAt m engineTs =>
    show ∃ ops, (r.recordAt full m engineTs).2.session = _
    unfold recordAt
    dsimp only
    split
    · obtain ⟨ops, hops⟩ := hclock r .sync engineTs
      split
      · obtain ⟨ops', hops'⟩ := hat (r.recordClock full .sync engineTs).2 m engineTs 0
        refine ⟨ops ++ ops', ?_⟩
        rw [hops', hops]
        exact (foldl_append ..).symm
      · exact ⟨ops, hops⟩
    · exact hat ..

theorem session_run (r : Recording) (ops : List RecordingOp) :
    ∃ ops', (r.run full ops).session = r.session.run ops' := by
  induction ops generalizing r with
  | nil => exact ⟨[], rfl⟩
  | cons op ops ih =>
    obtain ⟨first, hfirst⟩ : ∃ first, (r.step full op).session = r.session.run first := by
      cases op with
      | call c => exact session_call full r c
      | drain c => exact ⟨[c.op], rfl⟩
    obtain ⟨rest, hrest⟩ := ih (r.step full op)
    refine ⟨first ++ rest, ?_⟩
    show ((r.step full op).run full ops).session = _
    rw [hrest, hfirst]
    exact (foldl_append ..).symm

end Recording

/-- A reader opens a file with this header and gives these messages. -/
def PartRead (file : List UInt8) (part : JournalFileHeader × List (List UInt8)) : Prop :=
  ∃ r, JournalReader.openFile file = .ok r ∧ r.header = part.1 ∧ r.complete = true ∧ r.Reads part.2

/-- Whatever is recorded and whatever is lost, a reader of the whole session, from the clock of its
first header, and a reader of each part, from the part's own, have at each record the time it was
recorded at. -/
theorem Recording.engine_clock_exact (full : UInt64 → Bool) (k : Nat) (base : Path)
    (info : JournalSessionInfo) (maxBytes : Nat) (ops : List RecordingOp) :
    ∃ (r : Recording) (first : JournalFileHeader × List (List UInt8))
      (rest : List (JournalFileHeader × List (List UInt8))),
      r = (create k base info maxBytes).run full ops ∧
      List.Forall₂ (fun p part => PartRead (r.session.stop.writer.disk p).content part)
        r.session.stop.writer.partPaths (first :: rest) ∧
      (first :: rest).flatMap Prod.snd = r.recorded.map Prod.snd ∧
      List.Forall₂ (fun rec c => Exact rec.1 rec.2 c) r.recorded
        (clocks (journalEngineClock first.1) ((first :: rest).flatMap Prod.snd)) ∧
      List.Forall₂ (fun rec c => Exact rec.1 rec.2 c) r.recorded
        ((first :: rest).flatMap fun part => clocks (journalEngineClock part.1) part.2) := by
  obtain ⟨r, hr⟩ : ∃ r, r = (create k base info maxBytes).run full ops := ⟨_, rfl⟩
  have hchained : ClockChained r := hr ▸ (clockChained_create k base info maxBytes).run ops
  obtain ⟨ops', hops'⟩ := session_run full (create k base info maxBytes) ops
  obtain ⟨parts, last, staged, queue, hkept, hclock⟩ := (kept_create k base info maxBytes).run
    (clockKept_stable info base) (clockKept_create k base info maxBytes) ops'
  rw [show (JournalSession.create k base info maxBytes).run ops' = r.session by
    rw [hr, hops']; rfl] at hkept hclock
  obtain ⟨all, hne, hpushed, hpaths, hfiles⟩ := hkept.stop_clock hclock
  obtain ⟨header, hheader⟩ : ∃ header : Nat → JournalFileHeader, header = fun k =>
    .ofBytes (r.session.stop.writer.disk (partPath base k)).content := ⟨_, rfl⟩
  obtain ⟨read, hread⟩ : ∃ read : List (JournalFileHeader × List (List UInt8)), read =
    all.zipIdx.map fun part => (header part.2, partMsgs part.1) := ⟨_, rfl⟩
  have hheaders : ∀ k bs, all[k]? = some bs →
      PartRead (r.session.stop.writer.disk (partPath base k)).content (header k, partMsgs bs) ∧
        journalEngineClock (header k) = clockAfter 0 ((all.take k).flatMap partMsgs) := by
    intro k bs hk
    obtain ⟨h, seq, hh, hfile, hstart⟩ := hfiles k bs hk
    have hends := Ends.trailer seq []
    rw [append_nil] at hends
    obtain ⟨reader, hopen, -, hcomplete, hreads⟩ := JournalReader.openFile_spec hh bs hends
    rw [← hfile] at hopen
    have hsame : header k = h := by
      rw [hheader]
      dsimp only
      rw [hfile, ofBytes_bytes]
    refine ⟨⟨reader, hopen, ?_, hcomplete, hreads⟩, ?_⟩
    · rw [JournalReader.openFile_header hopen, hheader]
    rw [hsame, hstart]
    unfold headerClock
    split_ifs with hnot
    · rfl
    -- nothing has moved the clock before its first record
    refine (hchained.untimed _ ?_ hnot).symm
    rw [hpushed]
    conv => rhs; rw [← take_append_drop k all, flatMap_append]
    exact prefix_append _ _
  have hall : read.flatMap Prod.snd = all.flatMap partMsgs := by
    rw [hread, flatMap_map, ← flatMap_map (f := Prod.fst), zipIdx_map_fst]
  obtain ⟨first, rest, hcons⟩ : ∃ first rest, read = first :: rest := by
    refine exists_cons_of_ne_nil fun hnil => hne ?_
    rw [hread, map_eq_nil_iff, zipIdx_eq_nil_iff] at hnil
    exact hnil
  have hexact := hchained.exact
  rw [hpushed] at hexact
  refine ⟨r, first, rest, hr, ?_, ?_, ?_, ?_⟩
  · rw [← hcons, hread, hpaths, forall₂_map_left_iff, forall₂_map_right_iff]
    refine forall₂_iff_get.mpr ⟨by rw [length_range, length_zipIdx],
      fun k hk hk' => ?_⟩
    rw [length_range] at hk
    have hget : all.zipIdx.get ⟨k, hk'⟩ = (all[k], k) := by
      rw [get_eq_getElem, getElem_zipIdx, Nat.zero_add]
    rw [hget, get_eq_getElem, getElem_range]
    exact (hheaders k _ (getElem?_eq_getElem hk)).1
  · rw [← hcons, hall, ← hpushed]
    exact hchained.pushed
  · have hstart : journalEngineClock first.1 = 0 := by
      obtain ⟨bs, all', rfl⟩ := exists_cons_of_ne_nil hne
      rw [hcons, zipIdx_cons, map_cons] at hread
      rw [(List.cons.inj hread).1, (hheaders 0 bs rfl).2]
      rfl
    rw [← hcons, hall, hstart]
    exact hexact
  · have hparts := clocks_parts (fun k => journalEngineClock (header k)) all [] 0 fun k hk => by
      rw [Nat.zero_add, nil_append]
      exact (hheaders k _ (getElem?_eq_getElem hk)).2
    rw [← hcons, hread, flatMap_map, hparts]
    exact hexact

end FastMM.Journal
