/-
  Journal/Followed.lean --- a tail returns a session's records, in order and once each.
-/
import FastMM.Journal.Session
import FastMM.Journal.TailCalls
set_option autoImplicit false

namespace FastMM.Journal

open Foundation JournalBlockHeader JournalTail List Looks

/-! ## Following a session -/

variable (final : JournalSession)

/-- A closed part's trailer is to be read. -/
def SeesTrailer (v : View) (p : Path) : Prop :=
  readAt v p JournalBlockHeader.size ((final.appended p).length - JournalBlockHeader.size) =
    some ((final.appended p).drop ((final.appended p).length - JournalBlockHeader.size))

/-- The grace is longer than it takes from a trailer to the next part: when a trailer has been there
for the grace as the clock is read, the next part was there at the look before. -/
def NextInTime (grace : Int) (looks : Nat → View) : Prop :=
  ∀ k i j p q, final.writer.partPaths[k]? = some p → final.writer.partPaths[k + 1]? = some q →
    SeesTrailer final (looks i) p → i ≤ j → (looks i).now + grace ≤ (looks (j + 1)).now →
    (looks j).disk q ≠ none

/-- What holds of a tail that has returned `rs`. -/
structure Followed {session : Nat → JournalSession} (final : JournalSession) (l : Looks session)
    (rs : List Turn) (t : JournalTail) : Prop where
  comesBack : ∃ r t', t.Gives l.view r t'
  quiet : ∀ r t', t.Gives l.view r t' → ∃ s, r = .Returns s
  inOrder : JournalTail.records rs <+: final.pushed
  ends : ∀ t', t.Gives l.view (.Returns .End) t' →
    ∃ i, i < t'.looked ∧ SeesTrailer final (l.view i) final.writer.path
  noGaps : Consecutive final.pushed → t.seqGaps = 0
  completes : l.Complete final t.looked → ∀ rs' t', JournalTail.Calls l.view t rs' t' →
    (JournalTail.records rs).length + rs'.length = final.pushed.length →
    JournalTail.records rs ++ JournalTail.records rs' = final.pushed

section Followed

variable {info : JournalSessionInfo} {base : Path} {grace : Int} {parts : List Part}
  {session : Nat → JournalSession} {final : JournalSession} {l : Looks session} {v : View}

theorem seesTrailer_iff {files : JournalSession} {k : Nat} {p : Part}
    (hl : Laid info base files.appended parts) (hk : parts[k]? = some p) :
    SeesTrailer files v (partPath base k) ↔ TrailerShown info base parts v k := by
  have hfile := hl.files k p hk
  have hpre : (p.header.bytes ++ (info.tables ++ p.blocks.flatMap Block.bytes)).length =
      info.headerBytes + (p.blocks.flatMap Block.bytes).length := by
    rw [length_append, length_append, p.header.length_bytes, ← info.length_tables, Nat.add_assoc]
  have hsplit : p.bytes info = (p.header.bytes ++ (info.tables ++ p.blocks.flatMap Block.bytes)) ++
      trailerBytes p.seq := by
    unfold Part.bytes Part.body
    simp only [append_assoc]
  have hlen : (p.bytes info).length - JournalBlockHeader.size =
      info.headerBytes + (p.blocks.flatMap Block.bytes).length := by
    rw [hsplit, length_append, length_trailerBytes, hpre, Nat.add_sub_cancel]
  have hdrop : (p.bytes info).drop (info.headerBytes + (p.blocks.flatMap Block.bytes).length) =
      trailerBytes p.seq := by
    rw [hsplit]
    exact drop_left' hpre
  unfold SeesTrailer TrailerShown
  rw [hfile, hlen, hdrop]
  constructor
  · exact fun hread => ⟨p, hk, hread⟩
  · rintro ⟨q, hq, hread⟩
    obtain rfl := Option.some.inj (hk.symm.trans hq)
    exact hread

theorem Grew.prompt (h : Grew info base session final parts) {looks : Nat → View}
    (hgrace : NextInTime final grace looks) : Prompt info base grace parts looks := by
  intro k i j hmore hshown hij hclock
  have hpath : ∀ m, m < parts.length → final.writer.partPaths[m]? = some (partPath base m) := by
    intro m hm
    rw [h.paths, getElem?_map, getElem?_range hm]
    rfl
  have hk : parts[k]? = some parts[k] := getElem?_eq_getElem (by omega)
  exact hgrace k i j _ _ (hpath k (by omega)) (hpath (k + 1) hmore)
    ((seesTrailer_iff h.laid hk).mpr hshown) hij hclock

theorem Grew.allVisible (h : Grew info base session final parts) {i : Nat}
    (hi : l.Complete final i) : AllVisible info base parts l.view i := by
  intro j hij k p hk
  have hlt := (List.getElem?_eq_some_iff.mp hk).1
  obtain ⟨hthere, hvisible⟩ := complete_le h hij hi (partPath base k) (by
    rw [h.paths]
    exact mem_map.mpr ⟨k, mem_range.mpr hlt, rfl⟩)
  refine ⟨l.zeros j (partPath base k), ?_⟩
  rw [view_disk h hthere, seen_of_length_le hvisible.ge, h.laid.files k p hk]

/-- The tail at its start. -/
theorem follows_create (looks : Nat → View) : Follows info base grace parts looks
    (JournalTail.create base grace) (JournalTail.create base grace) [] (sessionMsgs parts) :=
  ⟨.start, by simp [JournalTail.create],
    .inl ⟨⟨rfl, rfl, rfl, rfl, rfl, rfl, rfl, rfl, rfl⟩, rfl⟩⟩

theorem records_map (ms : List (List UInt8)) :
    JournalTail.records (ms.map fun m => .Returns (.Record m)) = ms := by
  unfold JournalTail.records
  rw [filterMap_map]
  exact filterMap_some

theorem Grew.follows (h : Grew info base session final parts)
    (hgrace : NextInTime final grace l.view)
    (hlegible : ∀ t, (JournalTail.create base grace).Stands l.view t →
      Legible final.writer.partPaths final.appended l.view t)
    {rs : List Turn} {t : JournalTail}
    (hcalls : JournalTail.Calls l.view (JournalTail.create base grace) rs t) :
    Followed final l rs t := by
  rw [h.paths] at hlegible
  have hf : Followable info base grace final.appended parts _ l.view _ :=
    ⟨h.laid, Looks.shown (l := l) h, h.prompt hgrace, hlegible⟩
  obtain ⟨later, htold, hfollows⟩ := calls_spec hf (follows_create l.view) hcalls
  rw [← h.pushed] at htold
  rw [nil_append] at hfollows
  refine ⟨next_gives hf hfollows, fun r t' hg => ?_, ⟨later, htold.symm⟩,
    fun t' hg => ?_, fun hseq => ?_, fun hi rs' t' hcalls' hlen => ?_⟩
  · obtain ⟨hagain, -, n, hn⟩ := hg
    obtain ⟨bound, hcomes⟩ := next_spec hf hfollows n
    rw [hn] at hcomes
    cases r with
    | Returns s => exact ⟨s, rfl⟩
    | Throws what => exact hcomes.elim
    | Again => exact absurd rfl hagain
    | Never => exact hcomes.elim
  · obtain ⟨-, -, -, hover⟩ := gives_spec hf hfollows hg
    obtain ⟨i, hi, hshown⟩ := hover rfl
    refine ⟨i, hi, ?_⟩
    obtain ⟨p, hk, -⟩ := id hshown
    rw [h.path]
    exact (seesTrailer_iff h.laid hk).mpr hshown
  · rcases hfollows.place with ⟨hunopened, -⟩ | ⟨p, done, todo, read, left, hplaced, -⟩
    · exact hunopened.seqGaps
    · exact hplaced.seqGaps (h.chained hseq)
  · rw [htold, length_append] at hlen
    have hvisible := h.allVisible hi
    have hrest := calls_visible hf hfollows hvisible hcalls' (by omega)
    rw [htold, hrest, records_map]

end Followed

/-- Looks at a session after it has been stopped, which show its files up to some byte each. -/
def Looks.late (s : JournalSession) (ops : List JournalOp)
    (visible : Nat → Path → Nat) (zeros : Nat)
    (hvisible : ∀ i p, visible i p ≤ ((s.stopped ops).appended p).length)
    (hgrows : ∀ i p, visible i p ≤ visible (i + 1) p) : Looks (s.after ops) :=
  have hafter : s.after ops (ops.length + 1) = s.stopped ops := if_neg (by omega)
  { moment := fun _ => ops.length + 1
    there := fun _ p => decide (p ∈ (s.stopped ops).writer.partPaths)
    visible := visible
    zeros := fun _ _ => zeros
    now := fun _ => 0
    moment_le := fun _ => Nat.le_refl _
    there_made := fun _ p hp => by
      rw [hafter]
      exact of_decide_eq_true hp
    there_le := fun _ _ hp => hp
    visible_appended := fun i p => by
      rw [hafter]
      exact hvisible i p
    visible_le := hgrows
    now_le := fun _ => Int.le_refl _ }

/-- Looks that show all of it. -/
def Looks.afterwards (s : JournalSession) (ops : List JournalOp) : Looks (s.after ops) :=
  late s ops (fun _ p => ((s.stopped ops).appended p).length) 0 (fun _ _ => Nat.le_refl _)
    fun _ _ => Nat.le_refl _

section Afterwards

variable {s : JournalSession} {ops : List JournalOp}

section

variable {visible : Nat → Path → Nat} {zeros : Nat}
  {hvisible : ∀ i p, visible i p ≤ ((s.stopped ops).appended p).length}
  {hgrows : ∀ i p, visible i p ≤ visible (i + 1) p}

theorem Looks.complete_late {i : Nat} (h : ∀ p, visible i p = ((s.stopped ops).appended p).length) :
    (late s ops visible zeros hvisible hgrows).Complete (s.stopped ops) i :=
  fun p hp => ⟨decide_eq_true hp, h p⟩

theorem Looks.disk_late {info : JournalSessionInfo} {base p : Path} {parts : List Part}
    (h : Grew info base (s.after ops) (s.stopped ops) parts)
    (hp : p ∈ (s.stopped ops).writer.partPaths) (i : Nat) :
    ((late s ops visible zeros hvisible hgrows).view i).disk p =
      some (seen 0 ((s.stopped ops).appended p) (visible i p) zeros) :=
  view_disk h (decide_eq_true hp)

end

theorem Looks.complete_afterwards (i : Nat) : (afterwards s ops).Complete (s.stopped ops) i :=
  complete_late fun _ => rfl

theorem NextInTime.of_still {session : Nat → JournalSession} {final : JournalSession}
    {l : Looks session} (hnow : ∀ i, l.now i = 0) : NextInTime final 1 l.view := by
  intro k i j p q _ _ _ _ hclock
  have hclock : l.now i + 1 ≤ l.now (j + 1) := hclock
  rw [hnow, hnow] at hclock
  omega

/-- A tail of a session that was stopped before sees nothing in part. -/
theorem stands_afterwards (k : Nat) (base : Path) (info : JournalSessionInfo) (maxBytes : Nat)
    (ops : List JournalOp) (t : JournalTail)
    (hstands : (JournalTail.create base 1).Stands
      (afterwards (JournalSession.create k base info maxBytes) ops).view t) :
    Legible ((JournalSession.create k base info maxBytes).stopped ops).writer.partPaths
      ((JournalSession.create k base info maxBytes).stopped ops).appended
      (afterwards (JournalSession.create k base info maxBytes) ops).view t := by
  obtain ⟨parts, hgrew⟩ := grew k base info maxBytes ops
  rw [hgrew.paths]
  exact AllVisible.stands_legible hgrew.laid (Looks.shown hgrew)
    (hgrew.prompt (.of_still fun _ => rfl)) (hgrew.allVisible (complete_afterwards 0))
    (follows_create _) hstands

end Afterwards

/-- The Finish record of an engine. -/
def finishMsg : Msg where
  bytes := [128, 0, 0, 0, 25] ++ (List.replicate 67 0 ++ 2 :: List.replicate 55 0)
  isMsg := ⟨⟨2, by simp [kRingMsgGranule]⟩, by simp [kRingMsgGranule], by
    simp only [length_append, length_replicate, length_cons, length_nil]
    rfl, by decide⟩
  fits := by simp [kJournalBlockBytes]

/-- A session without tables. -/
def bareInfo : JournalSessionInfo where
  records := fun _ hr => absurd hr (by simp)
  fits := by decide

/-- A header's magic is enough: a block or a trailer of which no more than that is visible holds,
and is taken for a block without records. -/
theorem magic_holds : headerStarts ([70, 77, 74, 66] ++ List.replicate 60 0) = true ∧
    blockHolds ([70, 77, 74, 66] ++ List.replicate 60 0) [] = some true := by
  constructor <;> decide

section Lost

variable {info : JournalSessionInfo} {base : Path} {k : Nat} {m : Msg} {looks : Nat → View}
  {t : JournalTail} {l : List UInt8}

/-- What a file shows up to the magic of a block's header. -/
def upToMagic (pre : List UInt8) : List UInt8 :=
  pre ++ ([70, 77, 74, 66] ++ List.replicate 128 0)

theorem seen_upToMagic (pre rest : List UInt8) (b : Block) :
    seen 0 (pre ++ (b.header.bytes ++ rest)) (pre.length + 4) 128 = upToMagic pre := by
  have hmagic : b.header.bytes.take 4 = [70, 77, 74, 66] := rfl
  unfold seen upToMagic
  rw [take_length_add_append, take_append_of_le_length, hmagic, append_assoc]
  rw [b.header.length_bytes]
  unfold JournalBlockHeader.size
  omega

/-- The header that is read there. -/
theorem slice_upToMagic (pre : List UInt8) :
    slice pre.length JournalBlockHeader.size (upToMagic pre) =
      [70, 77, 74, 66] ++ List.replicate 60 0 := by
  have hmid := slice_middle pre ([70, 77, 74, 66] ++ List.replicate 60 0) (List.replicate 68 0)
  rwa [append_assoc, ← replicate_add] at hmid

/-- A part of one block with one record. -/
theorem Part.bytes_single {p : Part} {b : Block} (hp : p.blocks = [b]) (hb : b.msgs = [m]) :
    p.bytes info =
      (p.header.bytes ++ info.tables) ++ (b.header.bytes ++ (m.bytes ++ trailerBytes p.seq)) := by
  have hpayload : b.payload = m.bytes := by
    unfold Block.payload
    rw [hb, flatMap_singleton]
  unfold Part.bytes Part.body
  rw [hp, flatMap_singleton, ← hpayload]
  unfold Block.bytes
  simp only [append_assoc]

/-- A turn that sees no more of a header than its magic steps over the header. -/
theorem turn_magic (hused : ¬ t.at_ < t.block.length) (hin : t.inTrailer = false)
    (hseq : t.lastSeq = 0)
    (hread : readAt (looks t.looked) t.fd JournalBlockHeader.size t.off =
      some ([70, 77, 74, 66] ++ List.replicate 60 0)) :
    t.turn looks = (.Again, { t with
      looked := t.looked + 2
      lastSeq := 0
      block := []
      at_ := 0
      off := t.off + JournalBlockHeader.size }) := by
  have hnothing : (ofBytes ([70, 77, 74, 66] ++ List.replicate 60 0)).byteLen.toNat = 0 := by decide
  have hempty : readAt (looks (t.looked + 1)) t.fd 0 (t.off + JournalBlockHeader.size) = some [] :=
    if_pos rfl
  unfold JournalTail.turn readBlock
  dsimp only [JournalTail.look]
  rw [if_neg hused, if_neg (by rw [hin]; simp), hread]
  dsimp only
  rw [if_neg (by decide), if_neg (by decide), if_neg (by decide), hnothing, hempty]
  dsimp only
  rw [magic_holds.2]
  dsimp only [takeBlock]
  rw [hnothing, if_neg fun h => h.1 hseq]
  rfl

/-- A tail past where a block starts finds none there. -/
theorem turn_lost (hused : ¬ t.at_ < t.block.length) (hin : t.inTrailer = false)
    (hgaveUp : t.gaveUp = false)
    (hread : readAt (looks t.looked) t.fd JournalBlockHeader.size t.off = some l)
    (hmagic : (ofBytes l).magic ≠ kBlockMagic) :
    t.turn looks = (.Returns .Wait, { t with looked := t.looked + 1 }) := by
  have hblocks : t.readBlock looks = (some false, { t with looked := t.looked + 1 }) := by
    unfold readBlock
    dsimp only [JournalTail.look]
    rw [hread]
    exact if_pos hmagic
  unfold JournalTail.turn
  rw [if_neg hused, if_neg (by rw [hin]; simp), hblocks]
  dsimp only
  rw [if_neg (by rw [hin]; simp), if_neg (by rw [hgaveUp]; simp)]

/-- A tail that sees the first block's header of a part up to its magic, and then the part whole,
only waits. -/
theorem waits_of_magic {tables payload rest : List UInt8} {h : JournalFileHeader} {b : Block}
    (hh : IsHeader info h) (htables : tables = info.tables) (hlong : 64 ≤ payload.length)
    (hmagic : (ofBytes (payload.take 64)).magic ≠ kBlockMagic)
    (hcut : ∀ i, i < 6 → (looks i).disk base = some (upToMagic (h.bytes ++ tables)))
    (hwhole : ∀ i, 6 ≤ i →
      (looks i).disk base = some (h.bytes ++ tables ++ (b.header.bytes ++ (payload ++ rest)))) :
    ∃ t t', JournalTail.Calls looks (JournalTail.create base 1) [.Returns .Wait] t ∧ 6 ≤ t.looked ∧
      JournalTail.Calls looks t [.Returns .Wait] t' := by
  subst htables
  have hpre : (h.bytes ++ info.tables).length = info.headerBytes := by
    rw [length_append, h.length_bytes]
    exact info.length_tables
  have hheader : JournalFileHeader.size ≤ info.headerBytes := by
    rw [← info.length_tables]
    exact Nat.le_add_right _ _
  have hread : ∀ {i len off}, i < 6 → off + len ≤ info.headerBytes + 132 →
      readAt (looks i) base len off = some (slice off len (upToMagic (h.bytes ++ info.tables))) :=
        by
    intro i len off hi hle
    refine readAt_of_disk (hcut i hi) ?_
    unfold upToMagic
    rw [length_append, hpre, length_append, length_replicate]
    exact hle
  -- the first call opens the part and takes an empty block
  have hthere : ((looks (JournalTail.create base 1).looked).disk base).isNone = false := by
    show ((looks 0).disk base).isNone = false
    rw [hcut 0 (by omega)]
    rfl
  have hopen := openFile_of_reads (p := ⟨h, [], 0⟩) (t := JournalTail.create base 1) hh rfl hthere
    (fun j hj => by
      have hj : j = 0 + 1 ∨ j = 0 + 3 := hj
      show readAt (looks j) base _ _ = _
      rw [hread (by omega) (by omega), upToMagic, append_assoc, ← h.length_bytes, slice_zero])
    (by
      show readAt (looks (0 + 2)) base _ _ = _
      rw [hread (by omega) (by omega), ← hpre, upToMagic, slice_zero])
  have hmagicRead : readAt (looks 4) base JournalBlockHeader.size info.headerBytes =
      some ([70, 77, 74, 66] ++ List.replicate 60 0) := by
    rw [hread (by omega) (by unfold JournalBlockHeader.size; omega), ← hpre, slice_upToMagic]
  -- from there on it finds no block
  have hlost : ∀ i, 6 ≤ i → readAt (looks i) base JournalBlockHeader.size
      (info.headerBytes + JournalBlockHeader.size) = some (payload.take 64) := by
    intro i hi
    have htake : (payload.take 64).length = JournalBlockHeader.size := by
      rw [length_take]
      exact Nat.min_eq_left hlong
    have hsplit : h.bytes ++ info.tables ++ (b.header.bytes ++ (payload ++ rest)) =
        (h.bytes ++ info.tables ++ b.header.bytes) ++
          (payload.take 64 ++ (payload.drop 64 ++ rest)) := by
      rw [← append_assoc (payload.take 64), take_append_drop]
      simp only [append_assoc]
    have hlen : (h.bytes ++ info.tables ++ b.header.bytes).length =
        info.headerBytes + JournalBlockHeader.size := by
      rw [length_append, hpre, b.header.length_bytes]
    rw [readAt_of_disk (hwhole i hi), hsplit, ← hlen, ← htake, slice_middle]
    rw [hsplit, length_append, hlen, length_append, htake]
    omega
  let past (i : Nat) : JournalTail := { JournalTail.create base 1 with
    looked := i
    sessionId := h.sessionId
    fd := base
    off := info.headerBytes + JournalBlockHeader.size
    opened := true }
  have hturn : ∀ i, 6 ≤ i → (past i).turn looks = (.Returns .Wait, past (i + 1)) := fun i hi =>
    turn_lost (t := past i) (Nat.lt_irrefl 0) rfl rfl (hlost i hi) hmagic
  have hfirst := @turn_magic looks { past 4 with off := info.headerBytes }
    (Nat.lt_irrefl 0) rfl rfl hmagicRead
  refine ⟨past 7, past 8, .cons ⟨by simp, by simp, 2, ?_⟩ (.nil _), Nat.le_succ 6,
    .cons ⟨by simp, by simp, 1, ?_⟩ (.nil _)⟩
  · unfold JournalTail.next
    rw [hopen]
    show JournalTail.loop looks 2 { past 4 with off := info.headerBytes } = _
    rw [JournalTail.loop, hfirst]
    show JournalTail.loop looks 1 (past 6) = _
    rw [JournalTail.loop, hturn 6 (Nat.le_refl _)]
  · unfold JournalTail.next
    rw [show (past 7).openFile looks = (.ok true, past 7) from if_pos rfl]
    show JournalTail.loop looks 1 (past 7) = _
    rw [JournalTail.loop, hturn 7 (Nat.le_succ 6)]

end Lost

/-- A session of one record. -/
abbrev lostSession : JournalSession := .oneRecord 9 ['j'] bareInfo finishMsg

end FastMM.Journal
