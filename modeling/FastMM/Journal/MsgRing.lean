/-
  Journal/MsgRing.lean --- the ring of bytes that records are handed over in.

  Source: `include/fastmm/core/msg_ring.hpp`.

  Producer and consumer take turns, so that a load sees the counter as it stands; the copy each
  side keeps of the other's counter is the source's.  Counters do not wrap.
-/
import FastMM.Foundation.LittleEndian
import Mathlib.Algebra.Order.Group.Nat
import Mathlib.Tactic.Ring
set_option autoImplicit false

namespace FastMM.Journal

open Foundation List

/-! ## The ring -/

def kRingPaddingType : UInt8 := 0
def kRingMsgGranule : Nat := 64

/-- Bytes of a buffer. -/
def bytesAt (buf : Nat → UInt8) (off len : Nat) : List UInt8 := (List.range' off len).map buf

/-- Bytes copied into a buffer. -/
def writeAt (buf : Nat → UInt8) (off : Nat) (l : List UInt8) : Nat → UInt8 :=
  fun i => if off ≤ i ∧ i < off + l.length then l.getD (i - off) 0 else buf i

/-- `RingMsgPrefix::len` at an offset. -/
def prefixLen (buf : Nat → UInt8) (off : Nat) : Nat := loadLe (bytesAt buf off 4)

/-- `RingMsgPrefix::type`. -/
def prefixType (buf : Nat → UInt8) (off : Nat) : UInt8 := buf (off + 4)

structure MsgRing where
  capacity : Nat
  buf : Nat → UInt8 := fun _ => 0
  tail : Nat := 0
  headCache : Nat := 0
  reservePos : Nat := 0
  reserveLen : Nat := 0
  head : Nat := 0
  tailCache : Nat := 0

namespace MsgRing

/-- A ring of a power of two of bytes, 64 at least. -/
def create (k : Nat) : MsgRing where
  capacity := 2 ^ (k + 6)

def roundUp (len : Nat) : Nat := (len + kRingMsgGranule - 1) / kRingMsgGranule * kRingMsgGranule

variable (r : MsgRing)

/-- `try_reserve`: the offset reserved. -/
def tryReserve (len : Nat) : Option Nat × MsgRing :=
  let len := roundUp len
  let t := r.tail
  let off := t % r.capacity
  let toEnd := r.capacity - off
  let pad := if toEnd < len then toEnd else 0
  let need := pad + len
  let r := if r.capacity < t + need - r.headCache then { r with headCache := r.head } else r
  if r.capacity < t + need - r.headCache then (none, r)
  else
    let buf := if pad ≠ 0 then writeAt r.buf off (storeLe 4 pad ++ [kRingPaddingType]) else r.buf
    (some ((t + pad) % r.capacity), { r with buf := buf, reservePos := t + pad, reserveLen := len })

def commit : MsgRing := { r with tail := r.reservePos + r.reserveLen }

def tryPush (msg : List UInt8) : Bool × MsgRing :=
  match r.tryReserve msg.length with
  | (none, r) => (false, r)
  | (some off, r) => (true, { r with buf := writeAt r.buf off msg }.commit)

/-- The loop of `try_peek`. -/
def peekFrom : Nat → MsgRing → Option Nat × MsgRing
  | 0, r => (none, r)
  | n + 1, r =>
    let h := r.head
    let r := if h = r.tailCache then { r with tailCache := r.tail } else r
    if h = r.tailCache then (none, r)
    else if prefixType r.buf (h % r.capacity) = kRingPaddingType then
      peekFrom n { r with head := h + prefixLen r.buf (h % r.capacity) }
    else (some (h % r.capacity), r)

/-- `try_peek`: the offset of the next message. -/
def tryPeek : Option Nat × MsgRing := peekFrom (r.tail - r.head + 1) r

def release : MsgRing := { r with head := r.head + prefixLen r.buf (r.head % r.capacity) }

end MsgRing

/-! ## Bytes of a buffer -/

section Bytes

variable {buf buf' : Nat → UInt8} {off len : Nat} {l : List UInt8}

theorem bytesAt_congr (h : ∀ i, off ≤ i → i < off + len → buf' i = buf i) :
    bytesAt buf' off len = bytesAt buf off len := by
  refine map_congr_left fun i hi => ?_
  rw [mem_range'_1] at hi
  exact h i hi.1 hi.2

theorem getElem?_bytesAt (buf : Nat → UInt8) (off len n : Nat) :
    (bytesAt buf off len)[n]? = if n < len then some (buf (off + n)) else none := by
  unfold bytesAt
  rw [getElem?_map]
  split_ifs with hn
  · rw [getElem?_range' hn, Nat.one_mul]
    rfl
  · rw [getElem?_eq_none (by rw [length_range']; omega)]
    rfl

theorem bytesAt_writeAt (buf : Nat → UInt8) (off : Nat) (l : List UInt8) :
    bytesAt (writeAt buf off l) off l.length = l := by
  refine ext_getElem? fun n => ?_
  rw [getElem?_bytesAt]
  by_cases hn : n < l.length
  · have hwritten : writeAt buf off l (off + n) = l.getD (off + n - off) 0 :=
      if_pos ⟨by omega, by omega⟩
    rw [if_pos hn, hwritten, Nat.add_sub_cancel_left, getD_eq_getElem?_getD,
      getElem?_eq_getElem hn]
    rfl
  · rw [if_neg hn, getElem?_eq_none (by omega)]

/-- The first bytes of a stretch. -/
theorem take_bytesAt {n : Nat} (h : n ≤ len) :
    (bytesAt buf off len).take n = bytesAt buf off n := by
  refine ext_getElem? fun k => ?_
  rw [getElem?_take, getElem?_bytesAt, getElem?_bytesAt]
  by_cases hk : k < n
  · rw [if_pos hk, if_pos hk, if_pos (by omega)]
  · rw [if_neg hk, if_neg hk]

end Bytes

/-! ## What a ring holds -/

/-- A message of whole granules: its length, then a type that is not padding. -/
structure IsMsg (m : List UInt8) : Prop where
  granular : kRingMsgGranule ∣ m.length
  long : kRingMsgGranule ≤ m.length
  len : loadLe (m.take 4) = m.length
  type : m[4]? ≠ some kRingPaddingType

/-- A message stands whole at a count. -/
structure Stored (buf : Nat → UInt8) (cap p : Nat) (m : List UInt8) : Prop where
  isMsg : IsMsg m
  whole : p % cap + m.length ≤ cap
  bytes : bytesAt buf (p % cap) m.length = m

/-- Nothing, or padding to the end of the buffer. -/
def Padded (buf : Nat → UInt8) (cap p pad : Nat) : Prop :=
  pad = 0 ∨ kRingMsgGranule ≤ pad ∧ p % cap + pad = cap ∧ prefixLen buf (p % cap) = pad ∧
    prefixType buf (p % cap) = kRingPaddingType

/-- Messages from one count to another, each after the padding it needs. -/
inductive Span (buf : Nat → UInt8) (cap : Nat) : Nat → Nat → List (List UInt8) → Prop
  | nil (a : Nat) : Span buf cap a a []
  | cons {a pad b : Nat} {m : List UInt8} {ms : List (List UInt8)} (padded : Padded buf cap a pad)
      (stored : Stored buf cap (a + pad) m) (rest : Span buf cap (a + pad + m.length) b ms) :
      Span buf cap a b (m :: ms)

section Spans

variable {buf buf' : Nat → UInt8} {cap a b c p pad : Nat} {m : List UInt8}
    {ms ms' : List (List UInt8)}

theorem mod_add {i : Nat} (h : p % cap + i < cap) : (p + i) % cap = p % cap + i := by
  rw [Nat.add_mod, Nat.mod_eq_of_lt (show i < cap by omega), Nat.mod_eq_of_lt h]

theorem Span.eq_of_nil (h : Span buf cap a b []) : a = b := by
  cases h
  rfl

theorem Span.le (h : Span buf cap a b ms) : a ≤ b := by
  induction h with
  | nil a => exact Nat.le_refl a
  | cons padded stored rest ih => omega

theorem Span.lt (h : Span buf cap a b (m :: ms)) : a < b := by
  cases h with
  | cons padded stored rest =>
    have hlong := stored.isMsg.long
    have hle := rest.le
    unfold kRingMsgGranule at hlong
    omega

theorem Span.length_le (h : Span buf cap a b ms) : ms.length ≤ b - a := by
  induction h with
  | nil a => exact Nat.zero_le _
  | cons padded stored rest ih =>
    have hlong := stored.isMsg.long
    have hle := rest.le
    unfold kRingMsgGranule at hlong
    rw [length_cons]
    omega

theorem Span.of_ne (h : Span buf cap a b ms) (hne : a ≠ b) : ∃ pad m ms', ms = m :: ms' ∧
    Padded buf cap a pad ∧ Stored buf cap (a + pad) m ∧
      Span buf cap (a + pad + m.length) b ms' := by
  cases h with
  | nil => exact absurd rfl hne
  | cons padded stored rest => exact ⟨_, _, _, rfl, padded, stored, rest⟩

theorem Span.trans (h : Span buf cap a b ms) (h' : Span buf cap b c ms') :
    Span buf cap a c (ms ++ ms') := by
  induction h with
  | nil a => exact h'
  | cons padded stored rest ih => exact .cons padded stored (ih h')

theorem Stored.prefixLen (h : Stored buf cap p m) : prefixLen buf (p % cap) = m.length := by
  have htake : (bytesAt buf (p % cap) m.length).take 4 = bytesAt buf (p % cap) 4 :=
    take_bytesAt (by have := h.isMsg.long; unfold kRingMsgGranule at this; omega)
  unfold Journal.prefixLen
  rw [← htake, h.bytes, h.isMsg.len]

theorem Stored.prefixType (h : Stored buf cap p m) :
    prefixType buf (p % cap) ≠ kRingPaddingType := by
  intro he
  refine h.isMsg.type ?_
  have hlt : 4 < m.length := by
    have := h.isMsg.long
    unfold kRingMsgGranule at this
    omega
  have hget := getElem?_bytesAt buf (p % cap) m.length 4
  rw [if_pos hlt, h.bytes] at hget
  rw [hget]
  exact congrArg some he

/-- A byte of a stretch, by its offset. -/
theorem byte_eq {q i : Nat} (hsame : ∀ x, a ≤ x → x < b → buf' (x % cap) = buf (x % cap))
    (hq : a ≤ q) (hi : q % cap + i < cap) (hb : q + i < b) :
    buf' (q % cap + i) = buf (q % cap + i) := by
  rw [← mod_add hi]
  exact hsame _ (by omega) hb

theorem bytesAt_eq {q n : Nat} (hsame : ∀ x, a ≤ x → x < b → buf' (x % cap) = buf (x % cap))
    (hq : a ≤ q) (hn : q % cap + n ≤ cap) (hb : q + n ≤ b) :
    bytesAt buf' (q % cap) n = bytesAt buf (q % cap) n := by
  refine bytesAt_congr fun i hlo hhi => ?_
  have hi := byte_eq hsame hq (i := i - q % cap) (by omega) (by omega)
  rw [show q % cap + (i - q % cap) = i by omega] at hi
  exact hi

theorem Padded.frame (h : Padded buf cap a pad)
    (hsame : ∀ x, a ≤ x → x < b → buf' (x % cap) = buf (x % cap)) (hb : a + pad ≤ b) :
    Padded buf' cap a pad := by
  refine h.imp id fun ⟨hlong, hend, hlen, htype⟩ => ⟨hlong, hend, ?_, ?_⟩
  · rw [← hlen]
    unfold kRingMsgGranule at hlong
    exact congrArg loadLe (bytesAt_eq hsame (Nat.le_refl a) (by omega) (by omega))
  · rw [← htype]
    unfold kRingMsgGranule at hlong
    exact byte_eq hsame (Nat.le_refl a) (by omega) (by omega)

/-- Other bytes written. -/
theorem Span.frame (h : Span buf cap a b ms)
    (hsame : ∀ x, a ≤ x → x < b → buf' (x % cap) = buf (x % cap)) : Span buf' cap a b ms := by
  induction h with
  | nil a => exact .nil a
  | @cons a pad b m ms padded stored rest ih =>
    have hle := rest.le
    refine .cons (padded.frame hsame (by omega)) ⟨stored.isMsg, stored.whole, ?_⟩
      (ih fun x hx => hsame x (by omega))
    rw [bytesAt_eq hsame (by omega) stored.whole (by omega)]
    exact stored.bytes

/-- Bytes written ahead of what is held touch none of it. -/
theorem writeAt_ahead {l : List UInt8} (hwhole : p % cap + l.length ≤ cap) (hp : b ≤ p)
    (hroom : p + l.length ≤ a + cap) :
    ∀ x, a ≤ x → x < b → writeAt buf (p % cap) l (x % cap) = buf (x % cap) := by
  intro x hx hb
  refine if_neg fun hin => ?_
  have hj : (p + (x % cap - p % cap)) % cap = x % cap := by
    rw [mod_add (by omega)]
    omega
  have hmod : (p + (x % cap - p % cap) - x) % cap = 0 := Nat.sub_mod_eq_zero_of_mod_eq hj
  rw [Nat.mod_eq_of_lt (by omega)] at hmod
  omega

end Spans

/-- The messages between the two counters.  What the consumer has seen of the producer's counter
is a boundary between two of them. -/
structure MsgRing.Holds (r : MsgRing) (ms : List (List UInt8)) : Prop where
  pos : 0 < r.capacity
  capacity : kRingMsgGranule ∣ r.capacity
  tail : kRingMsgGranule ∣ r.tail
  headCache : r.headCache ≤ r.head
  room : r.tail ≤ r.head + r.capacity
  span : ∃ ms₁ ms₂, ms = ms₁ ++ ms₂ ∧ Span r.buf r.capacity r.head r.tailCache ms₁ ∧
    Span r.buf r.capacity r.tailCache r.tail ms₂

namespace MsgRing

variable {r : MsgRing} {ms : List (List UInt8)} {m : List UInt8}

theorem holds_create (k : Nat) : (create k).Holds [] := by
  refine ⟨Nat.two_pow_pos _, ?_, dvd_zero _, Nat.le_refl _, Nat.zero_le _, [], [], rfl, .nil 0,
    .nil 0⟩
  show 64 ∣ 2 ^ (k + 6)
  rw [Nat.pow_add]
  exact Dvd.intro_left _ rfl

theorem Holds.whole (h : r.Holds ms) : Span r.buf r.capacity r.head r.tail ms := by
  obtain ⟨ms₁, ms₂, rfl, hfirst, hsecond⟩ := h.span
  exact hfirst.trans hsecond

theorem roundUp_eq {len : Nat} (h : kRingMsgGranule ∣ len) : roundUp len = len := by
  unfold roundUp
  unfold kRingMsgGranule at h ⊢
  omega

/-! ## The producer -/

/-- The consumer's counter looked up. -/
theorem Holds.lookUp (h : r.Holds ms) (p : Prop) [Decidable p] :
    (if p then { r with headCache := r.head } else r).Holds ms := by
  split
  · exact ⟨h.pos, h.capacity, h.tail, Nat.le_refl _, h.room, h.span⟩
  · exact h

/-- Bytes written ahead of what is held. -/
theorem Holds.write (h : r.Holds ms) {p : Nat} {l : List UInt8}
    (hwhole : p % r.capacity + l.length ≤ r.capacity) (hp : r.tail ≤ p)
    (hroom : p + l.length ≤ r.head + r.capacity) :
    ({ r with buf := writeAt r.buf (p % r.capacity) l }).Holds ms := by
  have hsame : ∀ x, r.head ≤ x → x < r.tail →
      writeAt r.buf (p % r.capacity) l (x % r.capacity) = r.buf (x % r.capacity) :=
    writeAt_ahead hwhole hp hroom
  obtain ⟨ms₁, ms₂, hms, hfirst, hsecond⟩ := h.span
  have hle₁ := hfirst.le
  have hle₂ := hsecond.le
  refine ⟨h.pos, h.capacity, h.tail, h.headCache, h.room, ms₁, ms₂, hms, ?_, ?_⟩
  · exact hfirst.frame fun x hx hb => hsame x hx (by omega)
  · exact hsecond.frame fun x hx hb => hsame x (by omega) hb

/-- A reservation has its place, after padding to the end if it would not fit before it. -/
theorem tryReserve_spec (h : r.Holds ms) {len : Nat} (hlen : kRingMsgGranule ∣ len)
    (hfit : len < 256 ^ 4) :
    ∃ r', r'.Holds ms ∧ r'.tail = r.tail ∧ (r.tryReserve len = (none, r') ∨ ∃ pad,
      r.tryReserve len = (some ((r.tail + pad) % r'.capacity), r') ∧
      Padded r'.buf r'.capacity r.tail pad ∧ (r.tail + pad) % r'.capacity + len ≤ r'.capacity ∧
      r.tail + pad + len ≤ r'.head + r'.capacity ∧ kRingMsgGranule ∣ pad ∧
      r'.reservePos = r.tail + pad ∧ r'.reserveLen = len) := by
  have hoff : r.tail % r.capacity < r.capacity := Nat.mod_lt _ h.pos
  have hdvd : kRingMsgGranule ∣ r.tail % r.capacity := (Nat.dvd_mod_iff h.capacity).mpr h.tail
  have hend : kRingMsgGranule ∣ r.capacity - r.tail % r.capacity := Nat.dvd_sub h.capacity hdvd
  have hlong : kRingMsgGranule ≤ r.capacity - r.tail % r.capacity :=
    Nat.le_of_dvd (by omega) hend
  have hheads := h.whole.le
  unfold tryReserve
  rw [roundUp_eq hlen]
  dsimp only
  obtain ⟨pad, hpad, hpadEq⟩ : ∃ pad, (if r.capacity - r.tail % r.capacity < len then
      r.capacity - r.tail % r.capacity else 0) = pad ∧
        (pad = 0 ∧ len ≤ r.capacity - r.tail % r.capacity ∨
          pad = r.capacity - r.tail % r.capacity ∧ r.capacity - r.tail % r.capacity < len) := by
    refine ⟨_, rfl, ?_⟩
    split
    · exact .inr ⟨rfl, by assumption⟩
    · exact .inl ⟨rfl, by omega⟩
  rw [hpad]
  have hlooked := h.lookUp (r.capacity < r.tail + (pad + len) - r.headCache)
  have hkept : ∀ r' : MsgRing, r' = (if r.capacity < r.tail + (pad + len) - r.headCache then
      { r with headCache := r.head } else r) → r'.tail = r.tail ∧ r'.capacity = r.capacity ∧
        r'.head = r.head ∧ r'.buf = r.buf := by
    rintro r' rfl
    split <;> exact ⟨rfl, rfl, rfl, rfl⟩
  generalize (if r.capacity < r.tail + (pad + len) - r.headCache then
    { r with headCache := r.head } else r) = r' at hlooked hkept
  obtain ⟨htail, hcap, hhead, hbuf⟩ := hkept r' rfl
  have hcache := hlooked.headCache
  rw [← hcap] at hpadEq hoff hdvd hend hlong ⊢
  by_cases hfull : r'.capacity < r.tail + (pad + len) - r'.headCache
  · exact ⟨r', hlooked, htail, .inl (if_pos hfull)⟩
  rw [if_neg hfull]
  have hroom : r.tail + pad + len ≤ r'.head + r'.capacity := by omega
  rcases hpadEq with ⟨rfl, hshort⟩ | ⟨hpadEq, hshort⟩
  · rw [if_neg (fun hne => hne rfl)]
    refine ⟨{ r' with reservePos := r.tail + 0, reserveLen := len },
      ⟨hlooked.pos, hlooked.capacity, hlooked.tail, hlooked.headCache, hlooked.room,
        hlooked.span⟩, htail, .inr ⟨0, rfl, .inl rfl, ?_, hroom, dvd_zero _, rfl, rfl⟩⟩
    show (r.tail + 0) % r'.capacity + len ≤ r'.capacity
    rw [Nat.add_zero]
    omega
  · have hne : pad ≠ 0 := by
      omega
    have hlength : (storeLe 4 pad ++ [kRingPaddingType]).length = 5 := by
      rw [length_append, length_storeLe, length_singleton]
    rw [if_pos hne]
    have hwrite := hlooked.write (p := r.tail) (l := storeLe 4 pad ++ [kRingPaddingType])
      (by rw [hlength]; unfold kRingMsgGranule at hlong; omega) (by rw [htail])
      (by rw [hlength]; unfold kRingMsgGranule at hlong; omega)
    have hbytes := bytesAt_writeAt r'.buf (r.tail % r'.capacity)
      (storeLe 4 pad ++ [kRingPaddingType])
    rw [hlength] at hbytes
    refine ⟨{ r' with
        buf := writeAt r'.buf (r.tail % r'.capacity) (storeLe 4 pad ++ [kRingPaddingType])
        reservePos := r.tail + pad
        reserveLen := len },
      ⟨hwrite.pos, hwrite.capacity, hwrite.tail, hwrite.headCache, hwrite.room, hwrite.span⟩,
      htail, .inr ⟨pad, rfl, .inr ⟨?_, ?_, ?_, ?_⟩, ?_, hroom, ?_, rfl, rfl⟩⟩
    · exact hpadEq ▸ hlong
    · show r.tail % r'.capacity + pad = r'.capacity
      omega
    · have htake : (bytesAt (writeAt r'.buf (r.tail % r'.capacity)
          (storeLe 4 pad ++ [kRingPaddingType])) (r.tail % r'.capacity) 5).take 4 =
            bytesAt (writeAt r'.buf (r.tail % r'.capacity) (storeLe 4 pad ++ [kRingPaddingType]))
              (r.tail % r'.capacity) 4 := take_bytesAt (by omega)
      show loadLe (bytesAt _ _ 4) = pad
      rw [← htake, hbytes, take_left' (length_storeLe 4 pad), loadLe_storeLe (by omega)]
    · have hget := getElem?_bytesAt (writeAt r'.buf (r.tail % r'.capacity)
        (storeLe 4 pad ++ [kRingPaddingType])) (r.tail % r'.capacity) 5 4
      rw [hbytes, if_pos (by omega), getElem?_append_right (by rw [length_storeLe]),
        length_storeLe] at hget
      exact (Option.some.inj hget).symm
    · show (r.tail + pad) % r'.capacity + len ≤ r'.capacity
      have hwrap : (r.tail + pad) % r'.capacity = 0 := by
        have hsplit := Nat.div_add_mod r.tail r'.capacity
        have heq : r.tail + pad = r'.capacity * (r.tail / r'.capacity + 1) := by
          rw [Nat.mul_add, Nat.mul_one]
          omega
        rw [heq, Nat.mul_mod_right]
      omega
    · exact hpadEq ▸ hend

/-- A message is pushed whole, or not at all. -/
theorem tryPush_spec (h : r.Holds ms) (hm : IsMsg m) :
    ((r.tryPush m).1 = true ∧ (r.tryPush m).2.Holds (ms ++ [m])) ∨
      ((r.tryPush m).1 = false ∧ (r.tryPush m).2.Holds ms) := by
  have hfit : m.length < 256 ^ 4 := by
    have hlt := loadBe_lt (m.take 4).reverse
    have hle : (m.take 4).reverse.length ≤ 4 := by
      rw [length_reverse, length_take]
      omega
    have hlen : loadBe (m.take 4).reverse = m.length := hm.len
    rw [hlen] at hlt
    exact lt_of_lt_of_le hlt (Nat.pow_le_pow_right (by omega) hle)
  obtain ⟨r', hheld, htail, hreserve | ⟨pad, hreserve, hpadded, hwhole, hroom, hdvd, hpos, hlen⟩⟩ :=
    tryReserve_spec h hm.granular hfit
  · unfold tryPush
    rw [hreserve]
    exact .inr ⟨rfl, hheld⟩
  unfold tryPush
  rw [hreserve]
  refine .inl ⟨rfl, ?_⟩
  rw [← htail] at hpadded hwhole hroom hpos
  have hwrite := hheld.write hwhole (by omega) hroom
  have hle := hheld.whole.le
  have hpadded' : Padded (writeAt r'.buf ((r'.tail + pad) % r'.capacity) m) r'.capacity r'.tail
      pad :=
    hpadded.frame (b := r'.tail + pad) (writeAt_ahead hwhole (Nat.le_refl _) (by omega))
      (Nat.le_refl _)
  have hstored : Stored (writeAt r'.buf ((r'.tail + pad) % r'.capacity) m) r'.capacity
      (r'.tail + pad) m := ⟨hm, hwhole, bytesAt_writeAt ..⟩
  obtain ⟨ms₁, ms₂, hms, hfirst, hsecond⟩ := hwrite.span
  have hlast : Span (writeAt r'.buf ((r'.tail + pad) % r'.capacity) m) r'.capacity r'.tail
      (r'.tail + pad + m.length) [m] := .cons hpadded' hstored (.nil _)
  have hcommit : r'.reservePos + r'.reserveLen = r'.tail + pad + m.length := by rw [hpos, hlen]
  rw [← htail]
  refine ⟨hwrite.pos, hwrite.capacity, ?_, hwrite.headCache, ?_, ms₁, ms₂ ++ [m], ?_, hfirst, ?_⟩
  · show kRingMsgGranule ∣ r'.reservePos + r'.reserveLen
    rw [hcommit]
    exact Nat.dvd_add (Nat.dvd_add hwrite.tail hdvd) hm.granular
  · show r'.reservePos + r'.reserveLen ≤ r'.head + r'.capacity
    omega
  · rw [hms, append_assoc]
  · show Span _ _ _ (r'.reservePos + r'.reserveLen) _
    rw [hcommit]
    exact hsecond.trans hlast

/-! ## The consumer -/

/-- The producer's counter looked up. -/
theorem Holds.refresh (h : r.Holds ms) :
    (if r.head = r.tailCache then { r with tailCache := r.tail } else r).Holds ms := by
  split
  · exact ⟨h.pos, h.capacity, h.tail, h.headCache, h.room, ms, [], (append_nil ms).symm, h.whole,
      .nil _⟩
  · exact h

/-- What the consumer has seen is not used up. -/
theorem Holds.seen (h : r.Holds (m :: ms)) (hne : r.head ≠ r.tailCache) :
    ∃ pad ms₁ ms₂, ms = ms₁ ++ ms₂ ∧ Padded r.buf r.capacity r.head pad ∧
      Stored r.buf r.capacity (r.head + pad) m ∧
      Span r.buf r.capacity (r.head + pad + m.length) r.tailCache ms₁ ∧
      Span r.buf r.capacity r.tailCache r.tail ms₂ := by
  obtain ⟨ms₁, ms₂, hms, hfirst, hsecond⟩ := h.span
  obtain ⟨pad, m', ms', rfl, hpadded, hstored, hrest⟩ := hfirst.of_ne hne
  obtain ⟨rfl, rfl⟩ := List.cons.inj hms
  exact ⟨pad, ms', ms₂, rfl, hpadded, hstored, hrest, hsecond⟩

/-- The message a ring stands at is freed. -/
theorem release_spec (h : r.Holds (m :: ms)) (hne : r.head ≠ r.tailCache)
    (hstored : Stored r.buf r.capacity r.head m) : r.release.Holds ms := by
  obtain ⟨pad, ms₁, ms₂, rfl, hpadded, -, hrest, hsecond⟩ := h.seen hne
  have hpad : pad = 0 := hpadded.resolve_right fun hp => hstored.prefixType hp.2.2.2
  subst hpad
  have hrelease : r.release = { r with head := r.head + m.length } := by
    unfold release
    rw [hstored.prefixLen]
  rw [hrelease]
  exact ⟨h.pos, h.capacity, h.tail, h.headCache.trans (Nat.le_add_right _ _),
    h.room.trans (Nat.add_le_add_right (Nat.le_add_right _ _) _), ms₁, ms₂, rfl, hrest, hsecond⟩

/-- An empty ring shows nothing. -/
theorem tryPeek_nil (h : r.Holds []) : ∃ r', r.tryPeek = (none, r') ∧ r'.Holds [] := by
  obtain ⟨ms₁, ms₂, hms, hfirst, hsecond⟩ := h.span
  obtain ⟨rfl, rfl⟩ := append_eq_nil_iff.mp hms.symm
  have hseen := hfirst.eq_of_nil
  have htail := hsecond.eq_of_nil
  refine ⟨_, ?_, h.refresh⟩
  unfold tryPeek peekFrom
  dsimp only
  rw [if_pos hseen, if_pos (hseen.trans htail)]

theorem peekFrom_of_ne {n : Nat} (hne : r.head ≠ r.tailCache) : peekFrom (n + 1) r =
    if prefixType r.buf (r.head % r.capacity) = kRingPaddingType then
      peekFrom n { r with head := r.head + prefixLen r.buf (r.head % r.capacity) }
    else (some (r.head % r.capacity), r) := by
  rw [peekFrom, if_neg hne, if_neg hne]

theorem peekFrom_stored {n : Nat} (hne : r.head ≠ r.tailCache)
    (hstored : Stored r.buf r.capacity r.head m) :
    peekFrom (n + 1) r = (some (r.head % r.capacity), r) := by
  rw [peekFrom_of_ne hne, if_neg hstored.prefixType]

/-- The loop, once something is there to see. -/
theorem peekFrom_cons {n : Nat} (h : r.Holds (m :: ms)) (hne : r.head ≠ r.tailCache) :
    ∃ off r', peekFrom (n + 2) r = (some off, r') ∧ Stored r'.buf r'.capacity r'.head m ∧
      off = r'.head % r'.capacity ∧ r'.release.Holds ms := by
  obtain ⟨pad, ms₁, ms₂, rfl, hpadded, hstored, hrest, hsecond⟩ := h.seen hne
  rcases hpadded with rfl | ⟨-, -, hlen, htype⟩
  · exact ⟨_, r, peekFrom_stored hne hstored, hstored, rfl, release_spec h hne hstored⟩
  have hskip : peekFrom (n + 2) r = peekFrom (n + 1) { r with head := r.head + pad } := by
    rw [peekFrom_of_ne hne, if_pos htype, hlen]
  have hpast : r.head + pad ≠ r.tailCache := by
    have hmsg := hstored.isMsg.long
    have hle := hrest.le
    unfold kRingMsgGranule at hmsg
    omega
  have hskipped : ({ r with head := r.head + pad }).Holds (m :: (ms₁ ++ ms₂)) := by
    refine ⟨h.pos, h.capacity, h.tail, h.headCache.trans (Nat.le_add_right _ _),
      h.room.trans (Nat.add_le_add_right (Nat.le_add_right _ _) _), m :: ms₁, ms₂, rfl, ?_, hsecond⟩
    exact .cons (.inl rfl) hstored hrest
  rw [hskip]
  exact ⟨_, _, peekFrom_stored hpast hstored, hstored, rfl, release_spec hskipped hpast hstored⟩

/-- The next message is shown, whole. -/
theorem tryPeek_cons (h : r.Holds (m :: ms)) :
    ∃ off r', r.tryPeek = (some off, r') ∧ Stored r'.buf r'.capacity r'.head m ∧
      off = r'.head % r'.capacity ∧ r'.release.Holds ms := by
  have hlt : r.head < r.tail := h.whole.lt
  obtain ⟨n, hn⟩ : ∃ n, r.tail - r.head + 1 = n + 2 := ⟨r.tail - r.head - 1, by omega⟩
  unfold tryPeek
  rw [hn]
  by_cases hseen : r.head = r.tailCache
  · have hnew : r.head ≠ r.tail := hlt.ne
    have hlooked : peekFrom (n + 2) r = peekFrom (n + 2) { r with tailCache := r.tail } := by
      rw [peekFrom, if_pos hseen, if_neg (c := r.head = r.tail) hnew]
      exact (peekFrom_of_ne (r := { r with tailCache := r.tail }) hnew).symm
    rw [hlooked]
    refine peekFrom_cons ?_ hnew
    have hrefresh := h.refresh
    rw [if_pos hseen] at hrefresh
    exact hrefresh
  · exact peekFrom_cons h hseen

end MsgRing

/-! ## Runs -/

inductive RingCall where
  | push (m : List UInt8)
  | pop

/-- A ring, with what it took and what was read out of it. -/
structure RingRun where
  ring : MsgRing
  pushed : List (List UInt8) := []
  popped : List (List UInt8) := []

def RingRun.step (r : RingRun) : RingCall → RingRun
  | .push m =>
    let (took, ring) := r.ring.tryPush m
    { r with ring := ring, pushed := if took then r.pushed ++ [m] else r.pushed }
  | .pop =>
    match r.ring.tryPeek with
    | (none, ring) => { r with ring := ring }
    | (some off, ring) =>
      { r with
        ring := ring.release
        popped := r.popped ++ [bytesAt ring.buf off (prefixLen ring.buf off)] }

/-- What is held is what was pushed and not yet popped. -/
def RingRun.Fifo (r : RingRun) : Prop := ∃ held, r.pushed = r.popped ++ held ∧ r.ring.Holds held

theorem RingRun.Fifo.step {r : RingRun} (h : r.Fifo) (c : RingCall)
    (hmsg : ∀ m, c = .push m → IsMsg m) : (r.step c).Fifo := by
  obtain ⟨held, heq, hholds⟩ := h
  unfold RingRun.step
  cases c with
  | push m =>
    dsimp only
    rcases MsgRing.tryPush_spec hholds (hmsg m rfl) with ⟨htook, hnew⟩ | ⟨htook, hsame⟩
    · rw [htook, if_pos rfl]
      exact ⟨held ++ [m], by rw [heq, append_assoc], hnew⟩
    · rw [htook]
      exact ⟨held, heq, hsame⟩
  | pop =>
    cases held with
    | nil =>
      obtain ⟨ring, hpeek, hempty⟩ := MsgRing.tryPeek_nil hholds
      rw [hpeek]
      exact ⟨[], heq, hempty⟩
    | cons m held =>
      obtain ⟨off, ring, hpeek, hstored, hoff, hrest⟩ := MsgRing.tryPeek_cons hholds
      rw [hpeek]
      refine ⟨held, ?_, hrest⟩
      dsimp only
      rw [hoff, hstored.prefixLen, hstored.bytes, heq, append_assoc]
      rfl

theorem RingRun.Fifo.run {r : RingRun} (h : r.Fifo) (calls : List RingCall)
    (hmsg : ∀ m, .push m ∈ calls → IsMsg m) : (calls.foldl RingRun.step r).Fifo := by
  induction calls generalizing r with
  | nil => exact h
  | cons c calls ih =>
    exact ih (h.step c fun m hm => hmsg m (hm ▸ mem_cons_self))
      fun m hm => hmsg m (mem_cons_of_mem c hm)

/-- Whatever is pushed and popped in whatever order, the messages come out as they went in and in
that order, and nothing comes out only when everything has. -/
theorem ring_is_fifo (k : Nat) (calls : List RingCall) (hmsg : ∀ m, .push m ∈ calls → IsMsg m) :
    let r := calls.foldl RingRun.step { ring := .create k }
    r.popped <+: r.pushed ∧ (r.ring.tryPeek.1 = none → r.popped = r.pushed) := by
  intro r
  obtain ⟨held, heq, hholds⟩ : r.Fifo :=
    RingRun.Fifo.run ⟨[], rfl, MsgRing.holds_create k⟩ calls hmsg
  refine ⟨heq ▸ prefix_append _ _, fun hnone => ?_⟩
  cases held with
  | nil => rw [heq, append_nil]
  | cons m held =>
    obtain ⟨off, ring, hpeek, -⟩ := MsgRing.tryPeek_cons hholds
    rw [hpeek] at hnone
    nomatch hnone

/-- A message of granules, all of them zero behind its prefix. -/
def blankMsg (granules : Nat) : List UInt8 :=
  [UInt8.ofNat (64 * granules), 0, 0, 0, 1] ++ List.replicate (64 * granules - 5) 0

/-- Two messages through a ring of four granules. -/
def overTheEnd : List RingCall := [.push (blankMsg 3), .pop, .push (blankMsg 2), .pop]

/-- The second message does not fit before the end of the ring: a skip record stands there. -/
theorem ring_is_fifo_skip :
    let r := overTheEnd.foldl RingRun.step { ring := .create 2 }
    r.popped = r.pushed ∧ r.pushed = [blankMsg 3, blankMsg 2] ∧ 256 < r.ring.tail := by
  have hmsg : ∀ m, .push m ∈ overTheEnd → IsMsg m := by
    intro m hm
    rcases (by simpa [overTheEnd] using hm : m = blankMsg 3 ∨ m = blankMsg 2) with rfl | rfl
    · exact ⟨by decide +kernel, by decide +kernel, by decide +kernel, by decide +kernel⟩
    · exact ⟨by decide +kernel, by decide +kernel, by decide +kernel, by decide +kernel⟩
  exact ⟨(ring_is_fifo 2 _ hmsg).2 (by decide +kernel), by decide +kernel, by decide +kernel⟩

end FastMM.Journal
