/-
  Journal/Blocks.lean --- blocks are read back, up to where a file is cut.

  The bytes after a prologue are some whole blocks and what `Ends` them: nothing, a trailer, or
  bytes that are no block.
-/
import FastMM.Journal.Prologue
set_option autoImplicit false

namespace FastMM.Journal

open Foundation JournalBlockHeader List

/-! ## Blocks -/

/-- A block as written. -/
structure Block where
  seqFirst : UInt64
  seqLast : UInt64
  msgs : List Msg
  fits : (msgs.flatMap Msg.bytes).length ≤ kJournalBlockBytes

namespace Block

variable (b : Block)

def payload : List UInt8 := b.msgs.flatMap Msg.bytes

def header : JournalBlockHeader where
  byteLen := .ofNat b.payload.length
  seqFirst := b.seqFirst
  seqLast := b.seqLast
  count := .ofNat b.msgs.length
  crc32c := crc32c b.payload

def bytes : List UInt8 := b.header.bytes ++ b.payload

@[simp] theorem byteLen : b.header.byteLen.toNat = b.payload.length := by
  have hlt : b.payload.length < 2 ^ 32 := lt_of_le_of_lt b.fits (by decide)
  exact (UInt32.toNat_ofNat' ..).trans (Nat.mod_eq_of_lt hlt)

theorem length_bytes : b.bytes.length = JournalBlockHeader.size + b.payload.length := by
  unfold bytes
  rw [length_append, JournalBlockHeader.length_bytes]

end Block

/-- The block a part is closed with. -/
def trailerBytes (seq : UInt64) : List UInt8 :=
  JournalBlockHeader.bytes
    { flags := kBlockFlagTrailer, seqFirst := seq, seqLast := seq, crc32c := crc32c [] }

theorem length_trailerBytes (seq : UInt64) : (trailerBytes seq).length = JournalBlockHeader.size :=
  length_bytes _

/-- Bytes that no block starts with. -/
def Broken (rest : List UInt8) : Prop :=
  rest.length < JournalBlockHeader.size ∨
    (ofBytes rest).magic ≠ kBlockMagic ∨
    rest.length < JournalBlockHeader.size + (ofBytes rest).byteLen.toNat

/-- What ends the blocks of a file, whether it is a trailer, and whether it is refused. -/
inductive Ends : List UInt8 → Bool → Bool → Prop
  | nothing : Ends [] false false
  | broken {rest : List UInt8} (hne : rest ≠ []) (h : Broken rest) : Ends rest false true
  | trailer (seq : UInt64) (rest : List UInt8) : Ends (trailerBytes seq ++ rest) true false

/-! ## Validation -/

namespace JournalReader

section Validate

variable {r : JournalReader} {p rest : List UInt8} {b : Block} {bs : List Block}
  {trailer cut : Bool}

theorem blockAt_header {h : JournalBlockHeader} {payload : List UInt8}
    (hmagic : h.magic = kBlockMagic) (hlen : h.byteLen.toNat = payload.length)
    (hmap : r.map = p ++ (h.bytes ++ (payload ++ rest))) : r.blockAt p.length = some h := by
  have hsize : r.map.length = p.length + (JournalBlockHeader.size +
    (payload.length + rest.length)) := by
    rw [hmap, length_append, length_append, length_append, h.length_bytes]
  have hread : ofBytes (r.map.drop p.length) = h := by
    rw [hmap, drop_left]
    exact h.ofBytes_bytes _
  unfold blockAt
  rw [if_neg (by omega), hread]
  rw [if_neg (fun hne => hne hmagic), if_neg (by omega)]

theorem blockAt_broken (hmap : r.map = p ++ rest) (h : Broken rest) :
    r.blockAt p.length = none := by
  have hsize : r.map.length = p.length + rest.length := by rw [hmap, length_append]
  have hdrop : r.map.drop p.length = rest := by rw [hmap, drop_left]
  unfold blockAt
  rw [hdrop]
  split_ifs with hshort
  · rfl
  rcases h with h | h | h
  · omega
  · rw [if_pos h]
  · by_cases hmagic : (ofBytes rest).magic ≠ kBlockMagic
    · rw [if_pos hmagic]
    · rw [if_neg hmagic, if_pos (by omega)]

/-- The message at the end of those done. -/
theorem next_msg (done : List Msg) (m : Msg) (todo : List Msg) :
    done.flatMap Msg.bytes ++ (m :: todo).flatMap Msg.bytes =
        (done ++ [m]).flatMap Msg.bytes ++ todo.flatMap Msg.bytes ∧
      ((done ++ [m]).flatMap Msg.bytes).length =
        (done.flatMap Msg.bytes).length + m.bytes.length ∧
      (done.flatMap Msg.bytes ++ (m :: todo).flatMap Msg.bytes).length =
        (done.flatMap Msg.bytes).length + m.bytes.length + (todo.flatMap Msg.bytes).length ∧
      EventHeader.len ((done.flatMap Msg.bytes ++ (m :: todo).flatMap Msg.bytes).drop
        (done.flatMap Msg.bytes).length) = m.bytes.length := by
  have hlong := m.isMsg.long
  unfold kRingMsgGranule at hlong
  have hsplit : done.flatMap Msg.bytes ++ (m :: todo).flatMap Msg.bytes =
      (done ++ [m]).flatMap Msg.bytes ++ todo.flatMap Msg.bytes := by
    rw [flatMap_cons, flatMap_append, flatMap_singleton, append_assoc]
  have hlast : ((done ++ [m]).flatMap Msg.bytes).length =
      (done.flatMap Msg.bytes).length + m.bytes.length := by
    rw [flatMap_append, flatMap_singleton, length_append]
  refine ⟨hsplit, hlast, by rw [hsplit, length_append, hlast], ?_⟩
  rw [drop_left, flatMap_cons]
  unfold EventHeader.len
  rw [take_append_of_le_length (by omega), m.isMsg.len]

/-- Whole messages have lengths that add up. -/
theorem sane_msgs (done todo : List Msg) (n : Nat) (hn : (todo.flatMap Msg.bytes).length ≤ n) :
    sane (done.flatMap Msg.bytes ++ todo.flatMap Msg.bytes)
      (done.flatMap Msg.bytes ++ todo.flatMap Msg.bytes).length n (done.flatMap Msg.bytes).length =
        true := by
  induction todo generalizing done n with
  | nil =>
    have hle : (done.flatMap Msg.bytes ++ ([] : List Msg).flatMap Msg.bytes).length ≤
        (done.flatMap Msg.bytes).length := by
      rw [flatMap_nil, append_nil]
    cases n with
    | zero => exact decide_eq_true hle
    | succ n => exact if_pos hle
  | cons m todo ih =>
    have hlong := m.isMsg.long
    have hgranular := m.isMsg.granular
    unfold kRingMsgGranule at hlong hgranular
    rw [flatMap_cons, length_append] at hn
    obtain ⟨k, rfl⟩ : ∃ k, n = k + 1 := ⟨n - 1, by omega⟩
    obtain ⟨hsplit, hlast, htotal, hlen⟩ := next_msg done m todo
    have hrest := ih (done ++ [m]) k (by omega)
    rw [← hsplit, hlast] at hrest
    rw [sane, if_neg (by omega), if_neg (by unfold sizeofEventHeader; omega)]
    rw [hlen, if_neg (by unfold sizeofEventHeader; omega)]
    exact hrest

/-- What validation leaves and what it finds. -/
structure Validated (r : JournalReader) (validEnd : Nat) (trailer cut : Bool) (r' : JournalReader) :
    Prop where
  map : r'.map = r.map
  header : r'.header = r.header
  tables : r'.tables = r.tables
  firstBlock : r'.firstBlock = r.firstBlock
  validEnd : r'.validEnd = validEnd
  hasTrailer : r'.hasTrailer = trailer
  truncatedTail : r'.truncatedTail = cut

theorem validateFrom_ends {n : Nat} (hmap : r.map = p ++ rest) (hn : rest.length ≤ n)
    (hends : Ends rest trailer cut) (hvalid : r.validEnd = p.length)
    (htrailer : r.hasTrailer = false) (hcut : r.truncatedTail = false) :
    Validated r p.length trailer cut (validateFrom n p.length r) := by
  have hsize : r.map.length = p.length + rest.length := by rw [hmap, length_append]
  cases hends with
  | nothing =>
    have hend : r.map.length ≤ p.length := by rw [hsize]; exact Nat.le_refl _
    have hstay : validateFrom n p.length r = r := by
      cases n with
      | zero => rfl
      | succ n => exact if_pos hend
    rw [hstay]
    exact ⟨rfl, rfl, rfl, rfl, hvalid, htrailer, hcut⟩
  | broken hne h =>
    have hpos := length_pos_of_ne_nil hne
    obtain ⟨k, rfl⟩ : ∃ k, n = k + 1 := ⟨n - 1, by omega⟩
    rw [validateFrom, if_neg (by omega), blockAt_broken hmap h]
    exact ⟨rfl, rfl, rfl, rfl, hvalid, htrailer, rfl⟩
  | trailer seq after =>
    have hlong := length_trailerBytes seq
    unfold JournalBlockHeader.size at hlong
    rw [length_append] at hsize hn
    obtain ⟨k, rfl⟩ : ∃ k, n = k + 1 := ⟨n - 1, by omega⟩
    have hblock : r.blockAt p.length = some
        { flags := kBlockFlagTrailer, seqFirst := seq, seqLast := seq, crc32c := crc32c [] } :=
      blockAt_header rfl rfl (show r.map = p ++ (trailerBytes seq ++ ([] ++ after)) from hmap)
    rw [validateFrom, if_neg (by omega), hblock]
    dsimp only
    rw [if_neg, if_pos (by decide)]
    · exact ⟨rfl, rfl, rfl, rfl, rfl, rfl, hcut⟩
    · exact fun hne => hne (congrArg crc32c (take_zero))

/-- Whole blocks are passed. -/
theorem validateFrom_blocks {n : Nat} (hmap : r.map = p ++ (bs.flatMap Block.bytes ++ rest))
    (hn : (bs.flatMap Block.bytes).length + rest.length ≤ n) (hends : Ends rest trailer cut)
    (hvalid : r.validEnd = p.length) (htrailer : r.hasTrailer = false)
    (hcut : r.truncatedTail = false) :
    Validated r (p.length + (bs.flatMap Block.bytes).length) trailer cut
      (validateFrom n p.length r) := by
  induction bs generalizing p r n with
  | nil =>
    rw [flatMap_nil, nil_append] at hmap
    rw [flatMap_nil, length_nil, Nat.zero_add] at hn
    exact validateFrom_ends hmap hn hends hvalid htrailer hcut
  | cons b bs ih =>
    have hlong := b.length_bytes
    rw [flatMap_cons, append_assoc] at hmap
    rw [flatMap_cons, length_append] at hn
    unfold JournalBlockHeader.size at hlong
    obtain ⟨k, rfl⟩ : ∃ k, n = k + 1 := ⟨n - 1, by omega⟩
    have hfull : r.map = p ++ (b.header.bytes ++
      (b.payload ++ (bs.flatMap Block.bytes ++ rest))) := by
      rw [hmap]
      unfold Block.bytes
      rw [append_assoc]
    have hsize : r.map.length = p.length + b.bytes.length +
        ((bs.flatMap Block.bytes).length + rest.length) := by
      rw [hmap, length_append, length_append, length_append]
      omega
    have hpayload : slice (p.length + JournalBlockHeader.size) b.payload.length r.map =
        b.payload := by
      have hslice := slice_middle (p ++ b.header.bytes) b.payload (bs.flatMap Block.bytes ++ rest)
      rw [length_append, length_bytes, append_assoc] at hslice
      rw [hfull]
      exact hslice
    have hsane := sane_msgs [] b.msgs b.payload.length (Nat.le_refl _)
    rw [validateFrom, if_neg (by omega), blockAt_header rfl b.byteLen hfull]
    dsimp only
    have hflags : ¬ b.header.flags &&& kBlockFlagTrailer ≠ 0 :=
      show ¬ (0 : UInt32) &&& kBlockFlagTrailer ≠ 0 by decide
    have hsane' : ¬ sane b.payload b.payload.length b.payload.length 0 = false :=
      Bool.not_eq_false _ ▸ hsane
    rw [b.byteLen, hpayload, if_neg (fun hne => hne rfl), if_neg hflags, if_neg hsane']
    have hpast : p.length + JournalBlockHeader.size + b.payload.length = (p ++ b.bytes).length := by
      rw [length_append, b.length_bytes, Nat.add_assoc]
    rw [hpast]
    have hrest := ih (p := p ++ b.bytes) (n := k) (r := { r with
        blocks := r.blocks + 1
        messages := r.messages + b.header.count.toNat
        lastSeq := b.header.seqLast
        validEnd := (p ++ b.bytes).length })
      (by rw [append_assoc]; exact hmap) (by omega) rfl htrailer hcut
    refine ⟨hrest.map, hrest.header, hrest.tables, hrest.firstBlock, ?_, hrest.hasTrailer,
      hrest.truncatedTail⟩
    rw [hrest.validEnd, flatMap_cons, length_append, length_append, Nat.add_assoc]

end Validate

/-! ## The cursor -/

section Cursor

variable {r r' : JournalReader} {p rest : List UInt8} {b : Block} {bs : List Block} {m : Msg}
  {done todo : List Msg} {ms : List (List UInt8)}

/-- Any bound that is large enough gives the same. -/
theorem nextFrom_fuel {n k : Nat} (hn : r.validEnd - r.curBlock < n)
    (hk : r.validEnd - r.curBlock < k) : nextFrom n r = nextFrom k r := by
  induction n generalizing k r with
  | zero => omega
  | succ n ih =>
    obtain ⟨k, rfl⟩ : ∃ j, k = j + 1 := ⟨k - 1, by omega⟩
    rw [nextFrom, nextFrom]
    split_ifs with hend
    · rfl
    by_cases hin : r.curOff < (ofBytes (r.map.drop r.curBlock)).byteLen.toNat
    · rw [if_pos hin, if_pos hin]
    rw [if_neg hin, if_neg hin]
    refine ih ?_ ?_
    · show r.validEnd - (r.curBlock + JournalBlockHeader.size + _) < n
      unfold JournalBlockHeader.size
      omega
    · show r.validEnd - (r.curBlock + JournalBlockHeader.size + _) < k
      unfold JournalBlockHeader.size
      omega

theorem Reads.of_next_eq (h : r.next = r'.next) (hr : Reads r' ms) : Reads r ms := by
  cases hr with
  | done he => exact .done (h.trans he)
  | more he rest => exact .more (h.trans he) rest

/-- The cursor stands in a block, with some of its messages read, and these blocks follow. -/
structure Standing (r : JournalReader) (p : List UInt8) (b : Block) (done todo : List Msg)
    (bs : List Block) (rest : List UInt8) : Prop where
  map : r.map = p ++ (b.bytes ++ (bs.flatMap Block.bytes ++ rest))
  msgs : b.msgs = done ++ todo
  curBlock : r.curBlock = p.length
  curOff : r.curOff = (done.flatMap Msg.bytes).length
  validEnd : r.validEnd = p.length + b.bytes.length + (bs.flatMap Block.bytes).length

namespace Standing

section

variable (h : Standing r p b done todo bs rest)
include h

theorem header :
    ofBytes (r.map.drop r.curBlock) = b.header := by
  rw [h.map, h.curBlock, drop_left]
  unfold Block.bytes
  rw [append_assoc]
  exact b.header.ofBytes_bytes _

theorem payload_length : b.payload.length =
    (done.flatMap Msg.bytes).length + (todo.flatMap Msg.bytes).length := by
  unfold Block.payload
  rw [h.msgs, flatMap_append, length_append]

theorem curBlock_lt : ¬ r.validEnd ≤ r.curBlock := by
  have hlong := b.length_bytes
  unfold JournalBlockHeader.size at hlong
  rw [h.validEnd, h.curBlock]
  omega

end

/-- The next message of the block. -/
theorem next_cons (h : Standing r p b done (m :: todo) bs rest) :
    r.next = (some m.bytes, { r with curOff := r.curOff + m.bytes.length }) ∧
      Standing { r with curOff := r.curOff + m.bytes.length } p b (done ++ [m]) todo bs rest := by
  have hlong := m.isMsg.long
  unfold kRingMsgGranule at hlong
  have hin : r.curOff < b.payload.length := by
    rw [h.payload_length, h.curOff, flatMap_cons, length_append]
    omega
  have hat : r.curBlock + JournalBlockHeader.size + r.curOff =
      (p ++ (b.header.bytes ++ done.flatMap Msg.bytes)).length := by
    rw [h.curBlock, h.curOff, length_append, length_append, length_bytes, Nat.add_assoc]
  have hmap : r.map = (p ++ (b.header.bytes ++ done.flatMap Msg.bytes)) ++
      (m.bytes ++ (todo.flatMap Msg.bytes ++ (bs.flatMap Block.bytes ++ rest))) := by
    rw [h.map]
    unfold Block.bytes Block.payload
    rw [h.msgs, flatMap_append, flatMap_cons]
    simp only [append_assoc]
  have hlen : EventHeader.len (r.map.drop (r.curBlock + JournalBlockHeader.size + r.curOff)) =
      m.bytes.length := by
    rw [hat, hmap, drop_left]
    unfold EventHeader.len
    rw [take_append_of_le_length (by omega), m.isMsg.len]
  have hmsg : slice (r.curBlock + JournalBlockHeader.size + r.curOff) m.bytes.length r.map =
      m.bytes := by
    rw [hat, hmap]
    exact slice_middle _ _ _
  constructor
  · unfold next
    rw [nextFrom, if_neg h.curBlock_lt]
    dsimp only
    rw [h.header, b.byteLen, if_pos hin, hlen, hmsg]
  · refine ⟨h.map, ?_, h.curBlock, ?_, h.validEnd⟩
    · rw [h.msgs, append_assoc]
      rfl
    · rw [h.curOff, flatMap_append, flatMap_singleton, length_append]

/-- The block is used up. -/
theorem next_nil (h : Standing r p b done [] bs rest) :
    r.next = next { r with curBlock := (p ++ b.bytes).length, curOff := 0 } := by
  have hout : ¬ r.curOff < b.payload.length := by
    rw [h.payload_length, h.curOff]
    exact Nat.lt_irrefl _
  have hpast : r.curBlock + JournalBlockHeader.size + b.payload.length = (p ++ b.bytes).length := by
    rw [h.curBlock, length_append, b.length_bytes, Nat.add_assoc]
  have hlong := b.length_bytes
  unfold JournalBlockHeader.size at hlong
  unfold next
  rw [nextFrom, if_neg h.curBlock_lt]
  dsimp only
  rw [h.header, b.byteLen, if_neg hout, hpast]
  refine nextFrom_fuel ?_ (Nat.lt_succ_self _)
  show r.validEnd - (p ++ b.bytes).length < _
  rw [h.validEnd, h.curBlock, length_append]
  omega

/-- The rest of a block, and then what is read from the block after it. -/
theorem reads (h : Standing r p b done todo bs rest)
    (hnext : ∀ r', r'.map = r.map → r'.validEnd = r.validEnd →
      r'.curBlock = (p ++ b.bytes).length → r'.curOff = 0 → Reads r' ms) :
    Reads r (todo.map Msg.bytes ++ ms) := by
  induction todo generalizing r done with
  | nil => exact .of_next_eq h.next_nil (hnext _ rfl rfl rfl rfl)
  | cons m todo ih =>
    obtain ⟨he, hstand⟩ := h.next_cons
    exact .more he (ih hstand hnext)

end Standing

/-- The messages of the blocks from the cursor on. -/
theorem reads_blocks (hmap : r.map = p ++ (bs.flatMap Block.bytes ++ rest))
    (hcur : r.curBlock = p.length) (hoff : r.curOff = 0)
    (hvalid : r.validEnd = p.length + (bs.flatMap Block.bytes).length) :
    Reads r (bs.flatMap fun b => b.msgs.map Msg.bytes) := by
  induction bs generalizing p r with
  | nil =>
    have hnext : r.next = (none, r) := by
      unfold next
      rw [nextFrom, if_pos]
      rw [hvalid, hcur]
      exact Nat.le_refl _
    exact Reads.done hnext
  | cons b bs ih =>
    rw [flatMap_cons, length_append] at hvalid
    rw [flatMap_cons, append_assoc] at hmap
    rw [flatMap_cons]
    have hstand : Standing r p b [] b.msgs bs rest :=
      ⟨hmap, rfl, hcur, hoff, by rw [hvalid, Nat.add_assoc]⟩
    refine hstand.reads fun r' hmap' hvalid' hcur' hoff' => ?_
    refine ih (p := p ++ b.bytes) ?_ hcur' hoff' ?_
    · rw [hmap', hmap, append_assoc]
    · rw [hvalid', hvalid, length_append, Nat.add_assoc]

end Cursor

/-! ## A file -/

/-- A file of a prologue, whole blocks and an end is opened, and its blocks are read. -/
theorem openFile_spec {info : JournalSessionInfo} {h : JournalFileHeader} (hh : IsHeader info h)
    (bs : List Block) {rest : List UInt8} {trailer cut : Bool} (hends : Ends rest trailer cut) :
    ∃ r, openFile (h.bytes ++ (info.tables ++ (bs.flatMap Block.bytes ++ rest))) = .ok r ∧
      r.tables = info.recorded ∧ r.complete = (trailer && !cut) ∧
      Reads r (bs.flatMap fun b => b.msgs.map Msg.bytes) := by
  have htables := info.length_tables
  have hpre : (h.bytes ++ info.tables).length = info.headerBytes := by
    rw [length_append, h.length_bytes]
    exact htables
  have hlong : ¬ (h.bytes ++ (info.tables ++ (bs.flatMap Block.bytes ++ rest))).length <
      JournalFileHeader.size := by
    rw [length_append, h.length_bytes]
    omega
  have hparse := parsePrologue_spec hh (bs.flatMap Block.bytes ++ rest)
  unfold openFile
  rw [if_neg hlong, hparse]
  refine ⟨_, rfl, ?_⟩
  have hvalid := validateFrom_blocks (p := h.bytes ++ info.tables)
    (n := (h.bytes ++ (info.tables ++ (bs.flatMap Block.bytes ++ rest))).length - info.headerBytes)
    (r := { map := h.bytes ++ (info.tables ++ (bs.flatMap Block.bytes ++ rest))
            header := h
            tables := info.recorded
            firstBlock := info.headerBytes
            validEnd := info.headerBytes })
    (append_assoc ..).symm ?_ hends hpre.symm rfl rfl
  · rw [hpre] at hvalid
    refine ⟨hvalid.tables, ?_, ?_⟩
    · exact congrArg₂ (fun t c => t && !c) hvalid.hasTrailer hvalid.truncatedTail
    have hmap := hvalid.map.trans
      (append_assoc h.bytes info.tables (bs.flatMap Block.bytes ++ rest)).symm
    exact reads_blocks hmap (hvalid.firstBlock.trans hpre.symm) rfl
      (hvalid.validEnd.trans (by rw [hpre]))
  · rw [← append_assoc, length_append, hpre, length_append]
    omega

end JournalReader

/-! ## Cuts -/

/-- The blocks that lie wholly within the first `n` bytes. -/
def wholeWithin : Nat → List Block → List Block
  | _, [] => []
  | n, b :: bs => if b.bytes.length ≤ n then b :: wholeWithin (n - b.bytes.length) bs else []

/-- What a file is left to end with. -/
inductive Tail : List UInt8 → Bool → Prop
  | zeros (n : Nat) : Tail (List.replicate n 0) false
  | trailer (seq : UInt64) : Tail (trailerBytes seq) true

section Cuts

variable {b : Block} {bs : List Block} {tail : List UInt8} {closed : Bool} {n : Nat}

theorem broken_of_short {rest : List UInt8} (hne : rest ≠ [])
    (h : rest.length < JournalBlockHeader.size) : Ends rest false true :=
  .broken hne (.inl h)

/-- A block in part is none. -/
theorem ends_take_block (h : n < b.bytes.length) (rest : List UInt8) :
    ∃ cut, Ends ((b.bytes ++ rest).take n) false cut := by
  have htake : (b.bytes ++ rest).take n = b.bytes.take n := take_append_of_le_length h.le
  rw [htake]
  by_cases hn : n = 0
  · rw [hn, take_zero]
    exact ⟨false, .nothing⟩
  have hlen : (b.bytes.take n).length = n := by
    rw [length_take]
    omega
  have hne : b.bytes.take n ≠ [] := by
    intro he
    rw [he] at hlen
    exact hn hlen.symm
  refine ⟨true, .broken hne ?_⟩
  by_cases hshort : n < JournalBlockHeader.size
  · exact .inl (by rw [hlen]; exact hshort)
  have hlong := b.length_bytes
  have hsplit : b.bytes.take n = b.header.bytes ++
    b.payload.take (n - JournalBlockHeader.size) := by
    unfold Block.bytes
    rw [take_append, length_bytes, take_of_length_le (by rw [length_bytes]; omega)]
  refine .inr (.inr ?_)
  rw [hlen, hsplit, ofBytes_bytes, b.byteLen]
  omega

/-- What a tail is cut down to. -/
theorem ends_take_tail (h : Tail tail closed) (n : Nat) :
    ∃ trailer cut, Ends (tail.take n) trailer cut ∧
      (trailer && !cut) = (closed && decide (tail.length ≤ n)) := by
  cases h with
  | zeros k =>
    rw [take_replicate]
    by_cases hz : min n k = 0
    · rw [hz, replicate_zero]
      exact ⟨false, false, .nothing, rfl⟩
    obtain ⟨j, hj⟩ : ∃ j, min n k = j + 1 := ⟨min n k - 1, by omega⟩
    refine ⟨false, true, .broken ?_ (.inr (.inl ?_)), rfl⟩
    · rw [hj, replicate_succ]
      exact cons_ne_nil _ _
    rw [hj, replicate_succ]
    intro hmagic
    have hfirst := congrFun hmagic 0
    exact absurd hfirst (show ¬ (0 : UInt8) = 70 by decide)
  | trailer seq =>
    have hlong := length_trailerBytes seq
    by_cases hn : (trailerBytes seq).length ≤ n
    · have hends := Ends.trailer seq []
      rw [append_nil] at hends
      rw [take_of_length_le hn]
      exact ⟨true, false, hends, by simp [hn]⟩
    have hlen : ((trailerBytes seq).take n).length = n := by
      rw [length_take]
      omega
    have hfalse : decide ((trailerBytes seq).length ≤ n) = false := decide_eq_false hn
    rw [hfalse]
    by_cases hz : n = 0
    · rw [hz, take_zero]
      exact ⟨false, false, .nothing, rfl⟩
    refine ⟨false, true, broken_of_short ?_ (by rw [hlen, ← hlong]; omega), rfl⟩
    intro he
    rw [he] at hlen
    exact hz hlen.symm

/-- A cut leaves the blocks that lie wholly before it. -/
theorem take_blocks (h : Tail tail closed) (bs : List Block) (n : Nat) :
    ∃ rest trailer cut, (bs.flatMap Block.bytes ++ tail).take n =
        (wholeWithin n bs).flatMap Block.bytes ++ rest ∧ Ends rest trailer cut ∧
      (trailer && !cut) =
        (closed && decide ((bs.flatMap Block.bytes).length + tail.length ≤ n)) := by
  induction bs generalizing n with
  | nil =>
    obtain ⟨trailer, cut, hends, hcomplete⟩ := ends_take_tail h n
    refine ⟨tail.take n, trailer, cut, rfl, hends, ?_⟩
    rw [flatMap_nil, length_nil, Nat.zero_add]
    exact hcomplete
  | cons b bs ih =>
    rw [flatMap_cons, append_assoc]
    by_cases hb : b.bytes.length ≤ n
    · obtain ⟨rest, trailer, cut, htake, hends, hcomplete⟩ := ih (n - b.bytes.length)
      refine ⟨rest, trailer, cut, ?_, hends, ?_⟩
      · rw [take_append, take_of_length_le hb, htake, wholeWithin, if_pos hb,
          flatMap_cons, append_assoc]
      · rw [hcomplete, length_append]
        refine congrArg (closed && ·) (decide_eq_decide.mpr ?_)
        omega
    · obtain ⟨cut, hends⟩ := ends_take_block (Nat.lt_of_not_le hb) (bs.flatMap Block.bytes ++ tail)
      refine ⟨_, false, cut, ?_, hends, ?_⟩
      · rw [wholeWithin, if_neg hb]
        rfl
      · rw [decide_eq_false (by rw [length_append]; omega), Bool.and_false]
        rfl

end Cuts

/-- A file cut after its prologue gives the messages of the blocks that lie wholly before the cut,
and is complete if all of a trailer does. -/
theorem openFile_take {info : JournalSessionInfo} {h : JournalFileHeader} (hh : IsHeader info h)
    (bs : List Block) {tail : List UInt8} {closed : Bool} (htail : Tail tail closed) (n : Nat) :
    ∃ r, JournalReader.openFile ((h.bytes ++ (info.tables ++ (bs.flatMap Block.bytes ++ tail))).take
        (info.headerBytes + n)) = .ok r ∧ r.tables = info.recorded ∧
      r.complete = (closed && decide ((bs.flatMap Block.bytes).length + tail.length ≤ n)) ∧
      r.Reads ((wholeWithin n bs).flatMap fun b => b.msgs.map Msg.bytes) := by
  obtain ⟨rest, trailer, cut, htake, hends, hcomplete⟩ := take_blocks htail bs n
  obtain ⟨r, hopen, htables, hc, hreads⟩ :=
    JournalReader.openFile_spec hh (wholeWithin n bs) hends
  have hpre : (h.bytes ++ info.tables).length = info.headerBytes := by
    rw [length_append, h.length_bytes]
    exact info.length_tables
  have hcut : (h.bytes ++ (info.tables ++ (bs.flatMap Block.bytes ++ tail))).take
      (info.headerBytes + n) =
        h.bytes ++ (info.tables ++ ((wholeWithin n bs).flatMap Block.bytes ++ rest)) := by
    rw [← append_assoc, ← hpre, take_length_add_append, htake, append_assoc]
  rw [hcut]
  exact ⟨r, hopen, htables, hc.trans hcomplete, hreads⟩

end FastMM.Journal
