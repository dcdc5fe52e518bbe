/-
  Journal/TailCalls.lean --- what calls of a tail come back with, and that they return what is
  visible.
-/
import FastMM.Journal.Following
set_option autoImplicit false

namespace FastMM.Journal

open Foundation JournalTail List

section Calls

variable {info : JournalSessionInfo} {base : Path} {grace : Int} {files : Path → List UInt8}
  {parts : List Part} {visible : Nat → Path → Nat} {looks : Nat → View} {t₀ t t' : JournalTail}
  {told rest : List (List UInt8)} {r : Turn} {rs : List Turn}

/-- `open` opens the session, or leaves the tail as it was. -/
theorem openFile_spec (hl : Laid info base files parts)
    (hs : Shown base files parts visible looks) (hw : Legible (partPaths base parts) files looks t)
    (h : Follows info base grace parts looks t₀ t told rest) :
    ∃ opened t', t.openFile looks = (.ok opened, t') ∧ (opened = true → t'.opened = true) ∧
      Follows info base grace parts looks t₀ t' told rest := by
  rcases h.place with ⟨hunopened, hrest⟩ | ⟨p, done, todo, read, left, hplaced, hrest⟩
  · have hopens := h.stands.opens hunopened.opened
    rcases hunopened.openFile hl hs hw with ⟨t', he, hunopened'⟩ | ⟨t', p, he, hfin, hpart, hplaced⟩
    · rw [he] at hopens
      refine ⟨false, t', he, nofun, hopens, ?_, .inl ⟨hunopened', hrest⟩⟩
      rw [← h.finished, hunopened.finished, hunopened'.finished]
    rw [he] at hopens
    refine ⟨true, t', he, fun _ => hplaced.opened, hopens, ?_, .inr ⟨p, _, _, _, _, hplaced, ?_⟩⟩
    · rw [← h.finished, hunopened.finished, hfin]
    have hk := hplaced.part
    rw [hpart] at hk
    rw [hrest, hpart]
    cases parts with
    | nil => nomatch hk
    | cons q parts =>
      obtain rfl : q = p := Option.some.inj hk
      rfl
  · exact ⟨true, t, if_pos hplaced.opened, fun _ => hplaced.opened, h⟩

theorem records_cons (r : Turn) (rs : List Turn) :
    JournalTail.records (r :: rs) = JournalTail.records [r] ++ JournalTail.records rs := by
  rw [show r :: rs = [r] ++ rs from rfl]
  exact filterMap_append

section

variable (hf : Followable info base grace files parts visible looks t₀)
include hf

section

variable (h : Follows info base grace parts looks t₀ t told rest)
include h

/-- What comes of a call. -/
theorem next_spec (n : Nat) :
    ∃ bound, Comes info base grace parts looks t₀ told rest bound (t.next looks n) := by
  obtain ⟨opened, t', he, hopened, hfollows⟩ :=
    openFile_spec hf.laid hf.shown (hf.legible t h.stands) h
  unfold JournalTail.next
  rw [he]
  cases opened with
  | false => exact ⟨0, hfollows⟩
  | true => exact ⟨_, loop_spec hf n hfollows (hopened rfl)⟩

/-- A call comes back. -/
theorem next_gives : ∃ r t', t.Gives looks r t' := by
  have hends : ∃ n, (t.next looks n).1 ≠ .Again := by
    have hnext := next_spec hf h 0
    unfold JournalTail.next at hnext ⊢
    cases he : t.openFile looks with
    | mk res t' =>
      rw [he] at hnext
      cases res with
      | error what => exact ⟨0, by simp⟩
      | ok opened =>
        cases opened with
        | false => exact ⟨0, by simp⟩
        | true =>
          obtain ⟨bound, hfollows, hopened, -⟩ := hnext
          exact loop_ends hf hfollows hopened
  obtain ⟨n, hn⟩ := hends
  obtain ⟨bound, hcomes⟩ := next_spec hf h n
  cases he : t.next looks n with
  | mk r t' =>
    rw [he] at hn hcomes
    refine ⟨r, t', hn, ?_, n, he⟩
    rintro rfl
    exact hcomes

/-- What a call comes back with, and where it leaves the tail. -/
theorem gives_spec (hg : t.Gives looks r t') :
    ∃ later, rest = JournalTail.records [r] ++ later ∧
      Follows info base grace parts looks t₀ t' (told ++ JournalTail.records [r]) later ∧
      (r = .Returns .End → Over info base parts looks t') := by
  obtain ⟨hagain, hnever, n, hn⟩ := hg
  obtain ⟨bound, hcomes⟩ := next_spec hf h n
  rw [hn] at hcomes
  cases r with
  | Returns s =>
    cases s with
    | Record m =>
      obtain ⟨later, hrest, hfollows⟩ := hcomes
      exact ⟨later, hrest, hfollows, nofun⟩
    | Wait =>
      refine ⟨rest, rfl, ?_, nofun⟩
      rw [show JournalTail.records [.Returns .Wait] = [] from rfl, append_nil]
      exact hcomes
    | End =>
      refine ⟨rest, rfl, ?_, fun _ => hcomes.2⟩
      rw [show JournalTail.records [.Returns .End] = [] from rfl, append_nil]
      exact hcomes.1
  | Throws what => exact hcomes.elim
  | Again => exact absurd rfl hagain
  | Never => exact absurd rfl hnever

end

/-- What calls come back with. -/
theorem calls_spec (h : Follows info base grace parts looks t₀ t told rest)
    (hcalls : JournalTail.Calls looks t rs t') :
    ∃ later, rest = JournalTail.records rs ++ later ∧
      Follows info base grace parts looks t₀ t' (told ++ JournalTail.records rs) later := by
  induction hcalls generalizing told rest with
  | nil t =>
    refine ⟨rest, rfl, ?_⟩
    rw [show JournalTail.records [] = [] from rfl, append_nil]
    exact h
  | cons hg _ ih =>
    obtain ⟨later, hrest, hfollows, -⟩ := gives_spec hf h hg
    obtain ⟨last, hlater, hend⟩ := ih hfollows
    rw [records_cons]
    refine ⟨last, ?_, ?_⟩
    · rw [hrest, hlater, append_assoc]
    · rw [← append_assoc]
      exact hend

end

/-! ## Once everything is visible -/

/-- From a look on, every part is seen whole. -/
def AllVisible (info : JournalSessionInfo) (base : Path) (parts : List Part) (looks : Nat → View)
    (i : Nat) : Prop :=
  ∀ j, i ≤ j → ∀ k p, parts[k]? = some p → ∃ n,
    (looks j).disk (partPath base k) = some (p.bytes info ++ List.replicate n 0)

section Visible

variable {p : Part} {done todo : List Block} {read left : List Msg} {i j k : Nat}

theorem AllVisible.mono (h : AllVisible info base parts looks i) (hij : i ≤ j) :
    AllVisible info base parts looks j := fun m hm => h m (hij.trans hm)

/-- What a read of a part finds. -/
theorem AllVisible.readAt (h : AllVisible info base parts looks i) (hl : Laid info base files parts)
    (hij : i ≤ j) (hk : parts[k]? = some p) (off len : Nat)
    (hle : off + len ≤ (files (partPath base k)).length) :
    readAt (looks j) (partPath base k) len off =
      some (slice off len (files (partPath base k))) := by
  obtain ⟨n, hdisk⟩ := h j hij k p hk
  rw [← hl.files k p hk] at hdisk
  rw [readAt_of_disk hdisk (by rw [length_append]; omega), slice_append_left hle]

theorem headerHolds_bytes {h : JournalFileHeader} (hh : IsHeader info h) :
    headerHolds h.bytes = true := by
  have hread := h.readCrc32c_bytes []
  have htake := h.take_bytes []
  rw [append_nil] at hread htake
  refine decide_eq_true ⟨?_, by rw [hread, htake]⟩
  rw [ofBytes_header, hh.headerBytes, ← info.length_tables]
  exact Nat.le_add_right _ _

theorem Laid.header_le (hl : Laid info base files parts) (hk : parts[k]? = some p) :
    0 + JournalFileHeader.size ≤ (files (partPath base k)).length := by
  rw [hl.files k p hk]
  unfold Part.bytes
  rw [length_append, p.header.length_bytes]
  omega

/-- A part whose header is read is opened. -/
theorem openPart_of_read (hh : IsHeader info p.header) (hid : p.header.sessionId = t.sessionId)
    (hread : Journal.readAt (looks t.looked) t.path JournalFileHeader.size 0 =
      some p.header.bytes) :
    t.openPart looks = (.ok true, { t with
      looked := t.looked + 1
      fd := t.path
      off := info.headerBytes
      block := []
      at_ := 0 }) := by
  unfold openPart
  dsimp only [JournalTail.look]
  rw [hread]
  dsimp only
  rw [headerHolds_bytes hh, ofBytes_header, hid, if_neg (by simp), if_neg (fun hne => hne rfl),
    hh.headerBytes]

section

variable (h : AllVisible info base parts looks i) (hl : Laid info base files parts)
include h hl

/-- The header of a part is read. -/
theorem AllVisible.readHeader (hij : i ≤ j) (hk : parts[k]? = some p) :
    Journal.readAt (looks j) (partPath base k) JournalFileHeader.size 0 = some p.header.bytes := by
  rw [h.readAt hl hij hk _ _ (hl.header_le hk)]
  unfold slice
  rw [drop_zero, hl.take_header hk]

/-- `read_block` takes what is there. -/
theorem AllVisible.readBlock (hi : i ≤ t.looked)
    (hplaced : Placed info base grace parts looks t p done todo read left) :
    (t.readBlock looks).1 = some true ∨
      ((t.readBlock looks).1 = some false ∧ (t.readBlock looks).2.inTrailer = true) := by
  obtain ⟨pre, hpre, hfile⟩ := hplaced.file hl
  have hat := hplaced.header_at hl
  rw [hplaced.fd] at hfile hat
  cases todo with
  | nil =>
    have hread := h.readAt hl hi hplaced.part t.off JournalBlockHeader.size (by
      rw [hfile, length_append, hpre, flatMap_nil, nil_append, length_trailerBytes])
    have hat : slice t.off JournalBlockHeader.size (files (partPath base t.part)) =
      trailerBytes p.seq := hat
    rw [hat, ← hplaced.fd] at hread
    refine .inr ?_
    unfold readBlock
    dsimp only [JournalTail.look]
    rw [hread]
    dsimp only
    rw [ofBytes_trailer]
    dsimp only
    rw [if_neg (fun hne => hne rfl), if_pos (by decide)]
    exact ⟨rfl, rfl⟩
  | cons b todo =>
    have hlen : (files (partPath base t.part)).length = t.off +
        (JournalBlockHeader.size + b.payload.length +
          (todo.flatMap Block.bytes ++ trailerBytes p.seq).length) := by
      rw [hfile, length_append, hpre, flatMap_cons, append_assoc, length_append, b.length_bytes]
    have hread := h.readAt hl hi hplaced.part t.off JournalBlockHeader.size (by omega)
    have hpayload := h.readAt hl (hi.trans (Nat.le_succ _)) hplaced.part
      (t.off + JournalBlockHeader.size) b.payload.length (by omega)
    have hat : slice t.off JournalBlockHeader.size (files (partPath base t.part)) =
      b.header.bytes := hat
    have hblock := hplaced.payload_at hl
    rw [hplaced.fd] at hblock
    rw [hat, ← hplaced.fd] at hread
    rw [hblock, ← hplaced.fd] at hpayload
    have hflags : ¬ b.header.flags &&& kBlockFlagTrailer ≠ 0 :=
      show ¬ (0 : UInt32) &&& kBlockFlagTrailer ≠ 0 by decide
    refine .inl ?_
    unfold readBlock
    dsimp only [JournalTail.look]
    rw [hread]
    dsimp only
    rw [b.ofBytes_header, b.byteLen, if_neg (fun hne => hne rfl), if_neg hflags,
      if_neg (show ¬ kJournalBlockBytes < b.payload.length from Nat.not_lt.mpr b.fits), hpayload]
    dsimp only
    rw [b.holds]

end

section

variable (hl : Laid info base files parts) (hv : AllVisible info base parts looks t.looked)
variable (h : Placed info base grace parts looks t p done todo read left)
variable (hused : ¬ t.at_ < t.block.length)
include hl hv h hused

/-- A turn between blocks goes on. -/
theorem turn_read_visible (hin : ¬ t.inTrailer = true) :
    (t.turn looks).1 = .Again := by
  unfold JournalTail.turn
  rw [if_neg hused, if_neg hin]
  cases he : t.readBlock looks with
  | mk res t' =>
    have hread := hv.readBlock hl (Nat.le_refl _) h
    rw [he] at hread
    rcases hread with hread | ⟨hread, hin'⟩
    · obtain rfl : res = some true := hread
      rfl
    · obtain rfl : res = some false := hread
      dsimp only
      rw [if_pos (show t'.inTrailer = true from hin')]

/-- A turn at a trailer opens the next part. -/
theorem turn_trailer_visible (hin : t.inTrailer = true)
    (hmore : t.part + 1 < parts.length) : (t.turn looks).1 = .Again := by
  have hk : parts[t.part + 1]? = some parts[t.part + 1] := getElem?_eq_getElem hmore
  have hmem := mem_of_getElem? hk
  obtain ⟨n, hdisk⟩ := hv t.looked (Nat.le_refl _) (t.part + 1) _ hk
  have hread := hv.readHeader hl (Nat.le_succ _) hk
  rw [← h.basePath] at hdisk hread
  have hpart := openPart_of_read (t := { t with
    looked := t.looked + 1
    path := partPath t.base (t.part + 1) }) (hl.header _ hmem)
    ((hl.sessionId _ hmem).trans h.sessionId.symm) hread
  unfold JournalTail.turn
  rw [if_neg hused, if_pos hin]
  dsimp only [JournalTail.look]
  rw [hdisk, if_pos (show (some _).isSome = true from rfl), hpart]

end

/-- A turn returns a record or goes on. -/
theorem turn_visible (hl : Laid info base files parts)
    (h : Follows info base grace parts looks t₀ t told rest) (hopened : t.opened = true)
    (hv : AllVisible info base parts looks t.looked) (hrest : rest ≠ []) :
    (∃ m, (t.turn looks).1 = .Returns (.Record m)) ∨ (t.turn looks).1 = .Again := by
  rcases h.place with ⟨hnot, -⟩ | ⟨p, done, todo, read, left, hplaced, rfl⟩
  · exact absurd (hopened.symm.trans hnot.opened) (by simp)
  by_cases hused : t.at_ < t.block.length
  · unfold JournalTail.turn
    rw [if_pos hused]
    exact .inl ⟨_, rfl⟩
  by_cases hin : t.inTrailer = true
  · obtain ⟨rfl, -⟩ := hplaced.trailer hin
    have hleft : left = [] := by
      cases left with
      | nil => rfl
      | cons m left => exact absurd hplaced.takeRecord.2.2.1 hused
    refine .inr (turn_trailer_visible hl hv hplaced hused hin ?_)
    by_contra hlast
    refine hrest ?_
    unfold recordsFrom
    rw [hleft, drop_eq_nil_of_le (by omega)]
    rfl
  · exact .inr (turn_read_visible hl hv hplaced hused hin)

/-- The prologue of a part is read. -/
theorem AllVisible.readPrologue (h : AllVisible info base parts looks i)
    (hl : Laid info base files parts) (hij : i ≤ j) (hk : parts[k]? = some p) :
    Journal.readAt (looks j) (partPath base k) info.headerBytes 0 =
      some (p.header.bytes ++ info.tables) := by
  have hpre : (p.header.bytes ++ info.tables).length = info.headerBytes := by
    rw [length_append, p.header.length_bytes]
    exact info.length_tables
  have hsplit : files (partPath base k) = p.header.bytes ++ info.tables ++ p.body := by
    rw [hl.files k p hk]
    exact (append_assoc ..).symm
  rw [h.readAt hl hij hk _ _ (by rw [hsplit, length_append, hpre]; omega), hsplit, ← hpre,
    slice_zero]

/-- A session whose prologue is read is opened. -/
theorem openFile_of_reads (hh : IsHeader info p.header) (hopened : t.opened = false)
    (hthere : ((looks t.looked).disk t.base).isNone = false)
    (hread : ∀ j, j = t.looked + 1 ∨ j = t.looked + 3 →
      Journal.readAt (looks j) t.base JournalFileHeader.size 0 = some p.header.bytes)
    (hprologue : Journal.readAt (looks (t.looked + 2)) t.base info.headerBytes 0 =
      some (p.header.bytes ++ info.tables)) :
    t.openFile looks = (.ok true, { t with
      looked := t.looked + 4
      sessionId := p.header.sessionId
      path := t.base
      fd := t.base
      off := info.headerBytes
      block := []
      at_ := 0
      opened := true }) := by
  have hparse := parsePrologue_spec hh []
  rw [append_nil] at hparse
  have hopen := openPart_of_read (t := { t with
    looked := t.looked + 3
    sessionId := p.header.sessionId
    path := t.base }) hh rfl (hread _ (.inr rfl))
  unfold openFile openPrologue
  dsimp only [JournalTail.look]
  rw [if_neg (by rw [hopened]; simp), hthere, if_neg (by simp), hread _ (.inl rfl)]
  dsimp only
  rw [ofBytes_header, hh.magic, headerHolds_bytes hh, if_neg (fun hne => hne rfl), if_neg (by simp),
    hh.headerBytes, hprologue]
  dsimp only
  rw [hparse]
  dsimp only
  rw [hopen]

/-- `open` opens the session. -/
theorem AllVisible.openFile (h : AllVisible info base parts looks t.looked)
    (hl : Laid info base files parts) (hk : parts[0]? = some p)
    (hunopened : Unopened base grace t) : (t.openFile looks).1 = .ok true := by
  obtain rfl := hunopened.basePath
  obtain ⟨n, hdisk⟩ := h t.looked (Nat.le_refl _) 0 p hk
  have hthere : ((looks t.looked).disk t.base).isNone = false :=
    congrArg Option.isNone hdisk
  rw [openFile_of_reads (hl.header p (mem_of_getElem? hk)) hunopened.opened hthere
    (fun j hj => h.readHeader hl (by omega) hk) (h.readPrologue hl (Nat.le_add_right _ 2) hk)]

section

variable (hf : Followable info base grace files parts visible looks t₀)
include hf

/-- The loop returns a record. -/
theorem loop_visible
    (h : Follows info base grace parts looks t₀ t told rest) (hopened : t.opened = true)
    (hv : AllVisible info base parts looks t.looked) (hrest : rest ≠ []) (n : Nat) :
    (∃ m, (t.loop looks n).1 = .Returns (.Record m)) ∨ (t.loop looks n).1 = .Again := by
  induction n generalizing t with
  | zero => exact .inr rfl
  | succ n ih =>
    have hcomes := hf.turn h hopened
    have hturn := turn_visible hf.laid h hopened hv hrest
    have hlooked := looked_turn looks t
    rw [JournalTail.loop]
    cases he : t.turn looks with
    | mk r t' =>
      rw [he] at hcomes hturn hlooked
      rcases hturn with ⟨m, rfl⟩ | rfl
      · exact .inl ⟨m, rfl⟩
      · exact ih hcomes.1 hcomes.2.1 (hv.mono hlooked)

section

variable (h : Follows info base grace parts looks t₀ t told rest)
variable (hv : AllVisible info base parts looks t.looked)
include h hv

/-- A call returns a record while there are some left. -/
theorem gives_visible (hrest : rest ≠ []) (hg : t.Gives looks r t') :
    ∃ m, r = .Returns (.Record m) := by
  obtain ⟨hagain, -, n, hn⟩ := hg
  obtain ⟨bound, hnone⟩ := next_spec hf h 0
  have hopen : (t.openFile looks).1 = .ok true := by
    rcases h.place with ⟨hunopened, hall⟩ | ⟨p, done, todo, read, left, hplaced, -⟩
    · cases hparts : parts with
      | nil =>
        rw [hall, hparts] at hrest
        exact absurd rfl hrest
      | cons p later => exact hv.openFile hf.laid (by rw [hparts]; rfl) hunopened
    · unfold openFile
      rw [if_pos hplaced.opened]
  have hlooked := looked_openFile looks t
  unfold JournalTail.next at hn hnone
  cases he : t.openFile looks with
  | mk res t₁ =>
    rw [he] at hopen hn hlooked hnone
    obtain rfl : res = .ok true := hopen
    have hloop := loop_visible hf hnone.1 hnone.2.1 (hv.mono hlooked) hrest n
    dsimp only at hn
    rw [hn] at hloop
    exact hloop.resolve_right hagain

/-- As many calls as there are records left return them. -/
theorem calls_visible (hcalls : JournalTail.Calls looks t rs t')
    (hlen : rs.length = rest.length) : rs = rest.map fun m => .Returns (.Record m) := by
  induction hcalls generalizing told rest with
  | nil t =>
    obtain rfl := eq_nil_of_length_eq_zero hlen.symm
    rfl
  | @cons t t₁ t₂ r rs hg _ ih =>
    have hrest : rest ≠ [] := by
      rintro rfl
      nomatch hlen
    obtain ⟨m, rfl⟩ := gives_visible hf h hv hrest hg
    obtain ⟨later, rfl, hfollows, -⟩ := gives_spec hf h hg
    obtain ⟨-, -, n, hn⟩ := hg
    have hlooked := looked_next looks t n
    rw [hn] at hlooked
    have hlater := ih hfollows (hv.mono hlooked) (Nat.succ.inj hlen)
    rw [hlater]
    rfl

end

end

/-! ## A session that is seen whole -/

/-- What is seen whole is told for what it is. -/
theorem AllVisible.legible (h : AllVisible info base parts looks t.looked)
    (hl : Laid info base files parts) (hs : Shown base files parts visible looks)
    (hf : Follows info base grace parts looks t₀ t told rest) :
    Legible (partPaths base parts) files looks t := by
  have hheader : ∀ k j, t.looked ≤ j → HeaderWhole files (looks j) (partPath base k) := by
    intro k j hj l hread _
    have hpos : JournalFileHeader.size ≠ 0 := by
      unfold JournalFileHeader.size
      omega
    obtain ⟨f, hdisk, -⟩ := readAt_eq_some hpos hread
    have hk := getElem?_eq_getElem (hs.there j k f hdisk)
    have hwhole := h.readAt hl hj hk _ _ (hl.header_le hk)
    exact Option.some.inj (hread.symm.trans hwhole)
  rcases hf.place with ⟨hunopened, -⟩ | ⟨p, done, todo, read, left, hplaced, -⟩
  · have hnot : ∀ {P : Prop}, t.opened = true → P := fun hopened =>
      absurd (hopened.symm.trans hunopened.opened) (by simp)
    refine ⟨fun _ => ?_, hnot, fun hin => ?_, hnot, hnot⟩
    · rw [hunopened.basePath]
      exact hheader 0 _ (Nat.le_succ _)
    · exact absurd (hin.symm.trans hunopened.inTrailer) (by simp)
  obtain ⟨pre, hpre, hfile⟩ := hplaced.file hl
  have hlen : t.off + JournalBlockHeader.size ≤ (files t.fd).length := by
    rw [hfile, length_append, hpre, length_append, length_trailerBytes]
    omega
  have hsame : ∀ {j len off l}, t.looked ≤ j → off + len ≤ (files t.fd).length →
      Journal.readAt (looks j) t.fd len off = some l → l = slice off len (files t.fd) := by
    intro j len off l hj hle hread
    rw [hplaced.fd] at hle hread ⊢
    exact Option.some.inj (hread.symm.trans (h.readAt hl hj hplaced.part _ _ hle))
  refine ⟨fun hopened => absurd (hopened.symm.trans hplaced.opened) (by simp), fun _ _ => ?_,
    fun _ _ hmem => ?_, fun _ _ _ l hread _ => hsame (Nat.le_refl _) hlen hread,
    fun _ _ _ payload => ?_⟩
  · rw [hplaced.basePath]
    exact hheader _ _ (Nat.le_succ _)
  · obtain ⟨k, hk, hpath⟩ := mem_map.mp hmem
    obtain ⟨n, hdisk⟩ := h _ (Nat.le_refl _) k _ (getElem?_eq_getElem (mem_range.mp hk))
    rw [← hpath, hdisk]
    exact Option.some_ne_none _
  dsimp only
  rw [hplaced.header_at hl]
  cases todo with
  | nil =>
    dsimp only
    rw [ofBytes_trailer]
    exact fun hread _ => (Option.some.inj hread).symm.trans take_zero.symm
  | cons b todo =>
    dsimp only
    rw [b.ofBytes_header, b.byteLen]
    refine fun hread _ => hsame (Nat.le_succ _) ?_ hread
    rw [hfile, length_append, hpre, flatMap_cons, append_assoc, length_append, b.length_bytes]
    omega

/-- What follows a turn. -/
theorem Comes.follows {bound : Nat}
    (h : Comes info base grace parts looks t₀ told rest bound (r, t)) :
    ∃ told' rest', Follows info base grace parts looks t₀ t told' rest' := by
  cases r with
  | Returns s =>
    cases s with
    | Record m =>
      obtain ⟨later, -, hfollows⟩ := h
      exact ⟨_, _, hfollows⟩
    | Wait => exact ⟨_, _, h⟩
    | End => exact ⟨_, _, h.1⟩
  | Throws what => exact h.elim
  | Again => exact ⟨_, _, h.1⟩
  | Never => exact h.elim

/-- A tail that sees the session whole from its first look on meets nothing in part. -/
theorem AllVisible.stands_legible (hl : Laid info base files parts)
    (hs : Shown base files parts visible looks) (hprompt : Prompt info base grace parts looks)
    (hv : AllVisible info base parts looks 0)
    (h₀ : Follows info base grace parts looks t₀ t₀ told rest) (hstands : t₀.Stands looks t) :
    Legible (partPaths base parts) files looks t := by
  have hlegible : ∀ t told rest, Follows info base grace parts looks t₀ t told rest →
      Legible (partPaths base parts) files looks t := fun t _ _ hf =>
    (hv.mono (Nat.zero_le t.looked)).legible hl hs hf
  have hall : ∃ told rest, Follows info base grace parts looks t₀ t told rest := by
    induction hstands with
    | start => exact ⟨told, rest, h₀⟩
    | opens _ _ ih =>
      obtain ⟨told, rest, hf⟩ := ih
      obtain ⟨opened, t', he, -, hfollows⟩ := openFile_spec hl hs (hlegible _ _ _ hf) hf
      rw [he]
      exact ⟨told, rest, hfollows⟩
    | @turns t _ hopened ih =>
      obtain ⟨told, rest, hf⟩ := ih
      have hcomes := turn_spec hl hs hprompt (hlegible _ _ _ hf) hf hopened
      cases he : t.turn looks with
      | mk r t' =>
        rw [he] at hcomes
        exact hcomes.follows
  obtain ⟨told, rest, hf⟩ := hall
  exact hlegible t told rest hf

end Visible

end Calls

end FastMM.Journal
