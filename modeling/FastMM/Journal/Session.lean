/-
  Journal/Session.lean --- a session's files from one moment to another, and looks at them.
-/
import FastMM.Journal.Appends
import FastMM.Journal.Sights
set_option autoImplicit false

namespace FastMM.Journal

open Foundation JournalFileWriter List

/-! ## Moments -/

variable (s : JournalSession)

/-- A session stopped after some calls. -/
def JournalSession.stopped (ops : List JournalOp) : JournalSession :=
  (s.run ops).stop

/-- A session after some of the calls, or stopped after all of them. -/
def JournalSession.after (ops : List JournalOp) (n : Nat) : JournalSession :=
  if n ≤ ops.length then s.run (ops.take n) else s.stopped ops

/-- The bytes appended to a part. -/
def JournalSession.appended (p : Path) : List UInt8 := (s.writer.disk p).data

/-- Parts made up of one thing each. -/
theorem exists_parts (L : List (List Block)) (R : Nat → Part → Prop)
    (h : ∀ k bs, L[k]? = some bs → ∃ p : Part, p.blocks = bs ∧ R k p) :
    ∃ parts : List Part, parts.map Part.blocks = L ∧ ∀ k p, parts[k]? = some p → R k p := by
  induction L generalizing R with
  | nil => exact ⟨[], rfl, fun k p hk => nomatch hk⟩
  | cons bs L ih =>
    obtain ⟨p, hp, hR⟩ := h 0 bs rfl
    obtain ⟨parts, hmap, hparts⟩ := ih (fun k => R (k + 1)) fun k bs hk => h (k + 1) bs hk
    refine ⟨p :: parts, by rw [map_cons, hp, hmap], fun k q hk => ?_⟩
    cases k with
    | zero => exact Option.some.inj hk ▸ hR
    | succ k => exact hparts k q hk

/-- What there is of a session once it is stopped, and what there was before. -/
structure Grew (info : JournalSessionInfo) (base : Path) (session : Nat → JournalSession)
    (final : JournalSession) (parts : List Part) : Prop where
  laid : Laid info base final.appended parts
  paths : final.writer.partPaths = (List.range parts.length).map (partPath base)
  path : final.writer.path = partPath base (parts.length - 1)
  pushed : final.pushed = sessionMsgs parts
  chained : Consecutive final.pushed →
    (parts.flatMap Part.blocks).IsChain fun a b => b.seqFirst = a.seqLast + 1
  grown : ∀ n p, (session n).appended p <+: final.appended p
  made : ∀ n p, p ∈ (session n).writer.partPaths → p ∈ final.writer.partPaths

section Grew

variable {info : JournalSessionInfo} {base : Path} {s : JournalSession} {before : Path → List UInt8}
  {n : Nat} {parts : List (List Block)} {last : List Block} {staged queue : List Msg}

/-- What is closed has the parts that were written. -/
theorem Appended.laid {w : JournalFileWriter} (ha : Appended info base before n w parts last [])
    (hw : Written info base w parts last []) : ∃ ps : List Part,
    ps.map Part.blocks = parts ++ [last] ∧
    Laid info base (fun p => (w.writeTrailer.close.disk p).data) ps ∧
    w.writeTrailer.close.partPaths = (List.range ps.length).map (partPath base) ∧
    w.writeTrailer.close.path = partPath base (ps.length - 1) ∧ n + 1 ≤ ps.length ∧
    ∀ p, before p <+: (w.writeTrailer.close.disk p).data := by
  obtain ⟨f, hdisk, -, -, -, hpaths, hclosed, -, hgrown⟩ := ha.close hw
  obtain ⟨g, seq, hclose, -⟩ := hw.writeTrailer_close
  obtain ⟨ps, hmap, hps⟩ := exists_parts (parts ++ [last]) (fun k p => IsHeader info p.header ∧
      p.header.sessionId = info.sessionId ∧
      (Function.update w.disk w.path f (partPath base k)).data = p.bytes info) (by
    intro k bs hk
    obtain ⟨h, seq, hheader, hid, hdata⟩ := hclosed k bs hk
    exact ⟨⟨h, bs, seq⟩, rfl, hheader, hid, hdata⟩)
  have hlen : ps.length = parts.length + 1 := by
    have hlen := congrArg List.length hmap
    rwa [length_map, length_append, length_singleton] at hlen
  have hblocks : ps.flatMap Part.blocks = parts.flatten ++ last := by
    rw [flatMap_def, hmap, flatten_append, flatten_singleton]
  refine ⟨ps, hmap, ⟨fun k p hk => ?_, fun p hp => ?_, fun p hp => ?_, fun p hp b hb => ?_⟩, ?_, ?_,
    ?_, ?_⟩
  · rw [hdisk]
    exact (hps k p hk).2.2
  · obtain ⟨k, hk⟩ := mem_iff_getElem?.mp hp
    exact (hps k p hk).1
  · obtain ⟨k, hk⟩ := mem_iff_getElem?.mp hp
    exact (hps k p hk).2.1
  · obtain ⟨m, ms, hmsgs, -⟩ := (ha.numbered b (by
      rw [← hblocks]
      exact mem_flatMap.mpr ⟨p, hp, hb⟩)).seqFirst
    rw [hmsgs]
    exact cons_ne_nil _ _
  · rw [hlen, hpaths]
    exact hw.partPaths
  · rw [hlen, hclose]
    exact hw.path
  · rw [hlen, ← hw.part]
    exact Nat.succ_le_succ ha.count
  · rw [hdisk]
    exact hgrown

/-- What is stopped has the parts that were written. -/
theorem Kept.laid (h : Kept info base s parts last staged queue)
    (ha : Appended info base before n s.writer parts last staged) : ∃ parts : List Part,
    Laid info base s.stop.appended parts ∧
    s.stop.writer.partPaths = (List.range parts.length).map (partPath base) ∧
    s.stop.writer.path = partPath base (parts.length - 1) ∧
    s.stop.pushed = sessionMsgs parts ∧ n + 1 ≤ parts.length ∧
    (Consecutive s.stop.pushed →
      (parts.flatMap Part.blocks).IsChain fun a b => b.seqFirst = a.seqLast + 1) ∧
    ∀ p, before p <+: s.stop.appended p := by
  obtain ⟨w, parts', last', hkept, ha', hstop⟩ := h.stop_eq (appended_stable info base before n) ha
  obtain ⟨ps, hmap, hlaid, hpaths, hpath, hcount, hgrown⟩ := ha'.laid hkept.written
  have hblocks : ps.flatMap Part.blocks = parts'.flatten ++ last' := by
    rw [flatMap_def, hmap, flatten_append, flatten_singleton]
  have hmsgs : sessionMsgs ps = partMsgs (parts'.flatten ++ last') := by
    rw [← hblocks]
    unfold sessionMsgs partMsgs
    rw [flatMap_assoc]
  have hpushed : s.stop.pushed = sessionMsgs ps := by
    have htold : s.pushed = (Written.told parts' last' [] ++ []).map Msg.bytes := hkept.pushed
    unfold Written.told at htold
    rw [append_nil, append_nil] at htold
    rw [hmsgs, partMsgs_eq, hstop]
    refine htold.trans ?_
    unfold blockMsgs
    rw [flatMap_append]
  refine ⟨ps, ?_, ?_, ?_, hpushed, hcount, fun hseq => ?_, ?_⟩
  · rw [hstop]
    exact hlaid
  · rw [hstop]
    exact hpaths
  · rw [hstop]
    exact hpath
  · rw [hblocks]
    refine chain_of_consecutive ha'.numbered ?_
    rw [← hmsgs, ← hpushed]
    exact hseq
  · rw [hstop]
    exact hgrown

theorem run_append (s : JournalSession) (a b : List JournalOp) :
    s.run (a ++ b) = (s.run a).run b := foldl_append ..

/-- Every file of a session only grows until it is stopped. -/
theorem grew (k : Nat) (base : Path) (info : JournalSessionInfo) (maxBytes : Nat)
    (ops : List JournalOp) : ∃ parts, Grew info base
      ((JournalSession.create k base info maxBytes).after ops)
      ((JournalSession.create k base info maxBytes).stopped ops) parts := by
  obtain ⟨s₀, hs₀⟩ : ∃ s₀, s₀ = JournalSession.create k base info maxBytes := ⟨_, rfl⟩
  rw [← hs₀]
  have hkept := kept_create k base info maxBytes
  have happended := appended_create k base info maxBytes
  rw [← hs₀] at hkept happended
  obtain ⟨parts₁, last₁, staged₁, queue₁, hkept₁, happended₁⟩ :=
    hkept.run (appended_stable info base _ 0) happended ops
  obtain ⟨ps, hlaid, hpaths, hpath, hpushed, -, hchained, -⟩ := hkept₁.laid happended₁
  have hbefore : ∀ m, (∀ p, (s₀.after ops m).appended p <+: (s₀.run ops).stop.appended p) ∧
      ∀ p, p ∈ (s₀.after ops m).writer.partPaths → p ∈ (s₀.run ops).stop.writer.partPaths := by
    intro m
    unfold JournalSession.after
    split_ifs with hm
    · obtain ⟨parts₂, last₂, staged₂, queue₂, hkept₂, happended₂⟩ :=
        hkept.run (appended_stable info base _ 0) happended (ops.take m)
      obtain ⟨parts₃, last₃, staged₃, queue₃, hkept₃, happended₃⟩ :=
        hkept₂.run (appended_stable info base _ _) happended₂.rebase (ops.drop m)
      rw [← run_append, take_append_drop] at hkept₃ happended₃
      obtain ⟨qs, -, hpaths', -, -, hcount, -, hgrown⟩ := hkept₃.laid happended₃
      refine ⟨hgrown, fun p hp => ?_⟩
      rw [hkept₂.written.partPaths, ← hkept₂.written.part] at hp
      rw [hpaths']
      obtain ⟨j, hj, rfl⟩ := mem_map.mp hp
      exact mem_map.mpr ⟨j, mem_range.mpr (lt_of_lt_of_le (mem_range.mp hj) hcount), rfl⟩
    · exact ⟨fun p => prefix_refl _, fun p hp => hp⟩
  exact ⟨ps, hlaid, hpaths, hpath, hpushed, hchained, fun m => (hbefore m).1,
    fun m => (hbefore m).2⟩

end Grew

/-! ## One record -/

namespace JournalFileWriter

variable (w : JournalFileWriter)

theorem append_maxBytes (l : List UInt8) : (w.append l).maxBytes = w.maxBytes := by
  unfold append reserve
  split
  · rfl
  · split <;> rfl

theorem flushBlock_maxBytes : w.flushBlock.maxBytes = w.maxBytes := by
  unfold flushBlock
  split
  · rfl
  · exact append_maxBytes ..

theorem openPart_maxBytes : w.openPart.maxBytes = w.maxBytes := by
  unfold openPart
  rw [append_maxBytes]
  split <;> rfl

end JournalFileWriter

section OneRecord

variable {info : JournalSessionInfo} {base : Path}

theorem drainOnce_eq {s : JournalSession} {queue : List Msg}
    (hring : s.ring.Holds (queue.map Msg.bytes)) : ∃ ring',
    s.drainOnce = { s with
      ring := ring'
      writer := queue.foldl (fun w m => w.stage m.bytes) s.writer } ∧ ring'.Holds [] := by
  obtain ⟨ring', hdrain, hempty⟩ := JournalFileWriter.drained hring s.writer
  refine ⟨ring', ?_, hempty⟩
  unfold JournalSession.drainOnce
  rw [hdrain]

/-- A turn of the writer that fills a part. -/
theorem runOnce_full {s : JournalSession} (hcount : 0 < s.drainOnce.writer.blockCount)
    (hempty : s.drainOnce.writer.flushBlock.blockCount = 0)
    (hfull : s.drainOnce.writer.flushBlock.maxBytes ≠ 0 ∧
      s.drainOnce.writer.flushBlock.maxBytes ≤ s.drainOnce.writer.flushBlock.fileSize) :
    s.step (.runOnce true) =
      { s.drainOnce with writer := s.drainOnce.writer.flushBlock.rotate } := by
  obtain ⟨w, hw⟩ : ∃ w, w = if 0 < s.drainOnce.writer.blockCount ∧ true = true then
    s.drainOnce.writer.flushBlock else s.drainOnce.writer := ⟨_, rfl⟩
  have hstep : s.step (.runOnce true) =
      { s.drainOnce with writer := if w.blockCount = 0 then w.rollOver else w } := by
    rw [hw]
    rfl
  rw [if_pos ⟨hcount, rfl⟩] at hw
  rw [hstep, hw, if_pos hempty]
  unfold rollOver
  rw [if_pos hfull]

/-- A session of one record, flushed into a part that is full by it. -/
abbrev JournalSession.oneRecord (k : Nat) (base : Path) (info : JournalSessionInfo) (m : Msg) :
    JournalSession :=
  (JournalSession.create k base info 1).stopped [.push m, .runOnce true]

/-- It has two parts, the second without blocks. -/
theorem two_parts (k : Nat) (base : Path) (info : JournalSessionInfo) (m : Msg)
    (hpush : ((MsgRing.create k).tryPush m.bytes).1 = true) : ∃ p q b,
    Laid info base (JournalSession.oneRecord k base info m).appended [p, q] ∧
    p.blocks = [b] ∧ b.msgs = [m] ∧ q.blocks = [] ∧
    (JournalSession.oneRecord k base info m).writer.partPaths = [partPath base 0, partPath base 1] ∧
    (JournalSession.oneRecord k base info m).pushed = [m.bytes] := by
  unfold JournalSession.oneRecord
  obtain ⟨s₀, hs₀⟩ : ∃ s₀, s₀ = JournalSession.create k base info 1 := ⟨_, rfl⟩
  have h₀ := (kept_create k base info 1).written
  have a₀ := appended_create k base info 1
  have hring₀ : s₀.ring = MsgRing.create k := by rw [hs₀]; rfl
  have hpushed₀ : s₀.pushed = [] := by rw [hs₀]; rfl
  have hmax₀ : s₀.writer.maxBytes = 1 := by
    rw [hs₀]
    exact openPart_maxBytes _
  rw [← hs₀] at h₀ a₀ ⊢
  have hstable := appended_stable info base (fun _ => []) 0
  obtain ⟨-, hring⟩ | ⟨hrefused, -⟩ := MsgRing.tryPush_spec (MsgRing.holds_create k) m.isMsg
  swap
  · simp [hpush] at hrefused
  -- the message is staged
  have hroom : s₀.writer = if kJournalBlockBytes < s₀.writer.blockUsed + m.bytes.length then
      s₀.writer.flushBlock.rollOver else s₀.writer := by
    refine (if_neg ?_).symm
    have hfits := m.fits
    rw [blockUsed, h₀.block, flatMap_nil, length_nil, Nat.zero_add]
    exact Nat.not_lt.mpr hfits
  have hstaged : ∃ w, w = s₀.writer.stage m.bytes ∧ Written info base w [] [] [m] ∧
      Appended info base (fun _ => []) 0 w [] [] [m] ∧ w.maxBytes = 1 := by
    refine ⟨_, rfl, ?_, ?_, ?_⟩
    all_goals rw [Written.stage_eq s₀.writer m hroom rfl]
    · refine h₀.add ?_ rfl
      rw [flatMap_nil, length_nil, Nat.zero_add]
      exact m.fits
    · exact h₀.add_stable hstable a₀ rfl
    · rw [Written.followClock_eq]
      split <;> exact hmax₀
  obtain ⟨w₁, hw₁, h₁, a₁, hmax₁⟩ := hstaged
  have hcount₁ : w₁.blockCount = 1 := h₁.blockCount
  have h₂ := h₁.flushBlock_some (by omega)
  have a₂ := a₁.flush h₁ (by simp)
  have hmax₂ : w₁.flushBlock.maxBytes = 1 := (w₁.flushBlock_maxBytes).trans hmax₁
  have hfull : w₁.flushBlock.maxBytes ≠ 0 ∧ w₁.flushBlock.maxBytes ≤ w₁.flushBlock.fileSize := by
    rw [hmax₂, h₂.fileSize, h₂.data, length_append, JournalFileHeader.length_bytes]
    unfold JournalFileHeader.size
    omega
  have h₃ := h₂.rotate
  have a₃ := a₂.rotate h₂
  -- the calls
  have hpushed : s₀.step (.push m) =
      { s₀ with ring := ((MsgRing.create k).tryPush m.bytes).2, pushed := [m.bytes] } := by
    show JournalSession.mk (s₀.ring.tryPush m.bytes).2 s₀.writer
      (if (s₀.ring.tryPush m.bytes).1 then s₀.pushed ++ [m.bytes] else s₀.pushed) = _
    rw [hring₀, hpushed₀, hpush]
    rfl
  have hring' : (s₀.step (.push m)).ring.Holds ([m].map Msg.bytes) := by
    rw [hpushed]
    exact hring
  obtain ⟨ring₁, hdrain, hempty⟩ := drainOnce_eq hring'
  obtain ⟨s₁, hs₁⟩ : ∃ s₁, s₁ = s₀.step (.push m) := ⟨_, rfl⟩
  rw [← hs₁] at hdrain
  have hwriter : s₁.drainOnce.writer = w₁ := by
    rw [hdrain, hw₁, hs₁, hpushed]
    rfl
  have hstep := runOnce_full (s := s₁) (by rw [hwriter]; omega)
    (by rw [hwriter]; exact h₂.blockCount) (by rw [hwriter]; exact hfull)
  have hrun : s₀.run [.push m, .runOnce true] =
      { s₀ with ring := ring₁, writer := w₁.flushBlock.rotate, pushed := [m.bytes] } := by
    show JournalSession.step (s₀.step (.push m)) (.runOnce true) = _
    rw [← hs₁, hstep, hwriter, hdrain, hs₁, hpushed]
  have hring₁ : (s₀.run [.push m, .runOnce true]).ring.Holds (([] : List Msg).map Msg.bytes) := by
    rw [hrun]
    exact hempty
  obtain ⟨ring₂, hdrain₂, -⟩ := drainOnce_eq hring₁
  have hstop : s₀.stopped [.push m, .runOnce true] =
      { s₀ with
        ring := ring₂
        writer := w₁.flushBlock.rotate.writeTrailer.close
        pushed := [m.bytes] } := by
    have hflush : w₁.flushBlock.rotate.flushBlock = w₁.flushBlock.rotate := if_pos h₃.blockCount
    unfold JournalSession.stopped JournalSession.stop
    rw [hdrain₂, hrun]
    dsimp only [foldl_nil]
    rw [hflush, if_neg (by rw [h₃.closed]; simp)]
  obtain ⟨ps, hmap, hlaid, hpaths, -⟩ := a₃.laid h₃
  have hlen := congrArg List.length hmap
  rw [length_map] at hlen
  match ps, hlen with
  | [p, q], _ =>
    have hblocks : p.blocks = _ ∧ q.blocks = [] :=
      ⟨(List.cons.inj hmap).1, (List.cons.inj (List.cons.inj hmap).2).1⟩
    refine ⟨p, q, _, ?_, hblocks.1, rfl, hblocks.2, ?_, ?_⟩
    all_goals rw [hstop]
    · exact hlaid
    · exact hpaths

end OneRecord

/-! ## Looks -/

/-- Looks at a session that is being written.  At each the writer has got to some moment, and a file
it has made may be there, seen up to some byte of what has been appended and with zeros after it;
later looks show no less. -/
structure Looks (session : Nat → JournalSession) where
  moment : Nat → Nat
  there : Nat → Path → Bool
  visible : Nat → Path → Nat
  zeros : Nat → Path → Nat
  now : Nat → Int
  moment_le : ∀ i, moment i ≤ moment (i + 1)
  there_made : ∀ i p, there i p = true → p ∈ (session (moment i)).writer.partPaths
  there_le : ∀ i p, there i p = true → there (i + 1) p = true
  visible_appended : ∀ i p, visible i p ≤ ((session (moment i)).appended p).length
  visible_le : ∀ i p, visible i p ≤ visible (i + 1) p
  now_le : ∀ i, now i ≤ now (i + 1)

namespace Looks

variable {session : Nat → JournalSession} (l : Looks session)

def view (i : Nat) : View where
  disk p :=
    if l.there i p then some (seen 0 ((session (l.moment i)).appended p) (l.visible i p)
      (l.zeros i p))
    else none
  now := l.now i

/-- All of a session's files are seen. -/
def Complete (final : JournalSession) (i : Nat) : Prop :=
  ∀ p ∈ final.writer.partPaths, l.there i p = true ∧ l.visible i p = (final.appended p).length

variable {info : JournalSessionInfo} {base : Path} {final : JournalSession} {parts : List Part} {l}

section

variable (h : Grew info base session final parts)
include h

theorem view_disk {i : Nat} {p : Path}
    (hthere : l.there i p = true) : (l.view i).disk p =
      some (seen 0 (final.appended p) (l.visible i p) (l.zeros i p)) := by
  unfold view
  dsimp only
  rw [if_pos hthere]
  obtain ⟨more, hmore⟩ := h.grown (l.moment i) p
  unfold seen
  rw [← hmore, take_append_of_le_length (l.visible_appended i p)]

theorem shown :
    Shown base final.appended parts l.visible l.view := by
  have hthere : ∀ {i p f}, (l.view i).disk p = some f → l.there i p = true := by
    intro i p f hdisk
    by_contra hnot
    unfold view at hdisk
    dsimp only at hdisk
    simp [if_neg hnot] at hdisk
  refine ⟨fun i p f hdisk => ?_, fun i j p hij => ?_, fun i k f hdisk => ?_, l.now_le⟩
  · rw [view_disk h (hthere hdisk)] at hdisk
    exact ⟨_, (Option.some.inj hdisk).symm⟩
  · exact monotone_nat_of_le_succ (fun i => l.visible_le i p) hij
  have hmade := h.made _ _ (l.there_made i _ (hthere hdisk))
  rw [h.paths] at hmade
  obtain ⟨j, hj, he⟩ := mem_map.mp hmade
  rw [← partPath_injective base he]
  exact mem_range.mp hj

/-- What is seen whole is so in every later look. -/
theorem complete_le {i j : Nat} (hij : i ≤ j)
    (hi : l.Complete final i) : l.Complete final j := by
  intro p hp
  obtain ⟨hthere, hvisible⟩ := hi p hp
  refine ⟨?_, ?_⟩
  · exact Nat.le_induction hthere (fun n _ hn => l.there_le n p hn) j hij
  · have hmono := monotone_nat_of_le_succ (fun i => l.visible_le i p) hij
    have hle := (l.visible_appended j p).trans (h.grown (l.moment j) p).length_le
    omega

end

end Looks

end FastMM.Journal
