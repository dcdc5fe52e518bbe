/-
  Core/Containers.lean --- the fixed-capacity containers of the hot path.

  Source: `include/fastmm/core/containers/pool.hpp`, `ring_buffer.hpp`,
  `bucket_bits.hpp` and `static_vector.hpp`.

  A slot of a pool that is not live holds the free list's link, so its object
  cannot be read: it is `none` here.  Memory layout (the words of the liveness
  bitmap, the union) is not modelled; the free list and the order in which slots
  are handed out are, because handles are observable.
-/
import Mathlib.Data.List.Basic
import Mathlib.Data.List.Range
import Mathlib.Logic.Function.Basic
import Mathlib.Data.List.Nodup
import Mathlib.Data.Nat.ModEq
set_option autoImplicit false

namespace FastMM

open Function List

/-! ## Pool -/

/-- `Pool<T, N>`. -/
structure Pool (α : Type) (N : Nat) where
  /-- The objects of the live slots. -/
  slots : Nat → Option α
  /-- Freed slots, the last freed first (`free_head_` and the links). -/
  freeList : List Nat
  /-- Slots `[unused, N)` were never handed out. -/
  unused : Nat
  unused_le : unused ≤ N
  freeList_nodup : freeList.Nodup
  freeList_lt : ∀ h ∈ freeList, h < unused
  live_iff : ∀ h, (slots h).isSome = true ↔ h < unused ∧ h ∉ freeList

namespace Pool

variable {α : Type} {N : Nat}
variable {p : Pool α N}
variable {h : Nat}

/-- A pool after `reset()`. -/
def empty : Pool α N where
  slots := fun _ => none
  freeList := []
  unused := 0
  unused_le := Nat.zero_le N
  freeList_nodup := nodup_nil
  freeList_lt := by intro h hh; exact absurd hh not_mem_nil
  live_iff := by intro h; simp

def isLive (p : Pool α N) (h : Nat) : Bool := (p.slots h).isSome

theorem lt_of_live {o : α} (hs : p.slots h = some o) : h < N := by
  have hl := (p.live_iff h).mp (by simp [hs])
  exact lt_of_lt_of_le hl.1 p.unused_le

/-- `Pool::allocate`: the last freed slot, else the first one never used.  The
object is indeterminate until the caller assigns it. -/
def allocate [Inhabited α] (p : Pool α N) : Option (Nat × Pool α N) :=
  match hf : p.freeList with
  | h :: rest =>
    some (h, {
      slots := update p.slots h (some default)
      freeList := rest
      unused := p.unused
      unused_le := p.unused_le
      freeList_nodup := (nodup_cons.mp (hf ▸ p.freeList_nodup)).2
      freeList_lt := by
        intro k hk
        exact p.freeList_lt k (hf ▸ mem_cons_of_mem h hk)
      live_iff := by
        intro k
        have hnd := nodup_cons.mp (hf ▸ p.freeList_nodup)
        have hlt := p.freeList_lt h (hf ▸ mem_cons_self)
        by_cases hk : k = h
        · subst hk
          simp [hlt, hnd.1]
        · rw [update_of_ne hk, p.live_iff k, hf]
          simp [hk] })
  | [] =>
    if hu : p.unused < N then
      some (p.unused, {
        slots := update p.slots p.unused (some default)
        freeList := []
        unused := p.unused + 1
        unused_le := hu
        freeList_nodup := nodup_nil
        freeList_lt := by intro k hk; exact absurd hk not_mem_nil
        live_iff := by
          intro k
          by_cases hk : k = p.unused
          · subst hk
            simp
          · rw [update_of_ne hk, p.live_iff k, hf]
            simp only [not_mem_nil, not_false_eq_true, and_true]
            omega })
    else none

/-- Write the object of a live slot (an assignment through `get`). -/
def set (p : Pool α N) (h : Nat) (o : α) : Pool α N :=
  if hl : (p.slots h).isSome = true then
    { p with
      slots := update p.slots h (some o)
      live_iff := by
        intro k
        by_cases hk : k = h
        · subst hk
          simpa using (p.live_iff k).mp hl
        · rw [update_of_ne hk]
          exact p.live_iff k }
  else p

/-- `Pool::free` of a live slot. -/
def free (p : Pool α N) (h : Nat) : Pool α N :=
  if hl : (p.slots h).isSome = true then
    { p with
      slots := update p.slots h none
      freeList := h :: p.freeList
      freeList_nodup := nodup_cons.mpr ⟨((p.live_iff h).mp hl).2, p.freeList_nodup⟩
      freeList_lt := by
        intro k hk
        rcases mem_cons.mp hk with rfl | hk
        · exact ((p.live_iff k).mp hl).1
        · exact p.freeList_lt k hk
      live_iff := by
        intro k
        by_cases hk : k = h
        · subst hk
          simp
        · rw [update_of_ne hk, p.live_iff k]
          simp [hk] }
  else p

/-- The live slots in ascending order, the order `Pool::for_each` visits. -/
def liveHandles (p : Pool α N) : List Nat := (List.range N).filter fun h => p.isLive h

@[simp] theorem slots_empty (h : Nat) : (empty : Pool α N).slots h = none := rfl

theorem mem_liveHandles : h ∈ p.liveHandles ↔ ∃ o, p.slots h = some o := by
  simp only [liveHandles, mem_filter, mem_range, isLive, Option.isSome_iff_exists]
  constructor
  · exact fun hh => hh.2
  · rintro ⟨o, ho⟩
    exact ⟨lt_of_live ho, o, ho⟩

theorem slots_set {o o' : α} (hs : p.slots h = some o') (k : Nat) :
    (p.set h o).slots k = if k = h then some o else p.slots k := by
  have hl : (p.slots h).isSome = true := by simp [hs]
  simp only [set, hl, dif_pos, update_apply]

/-- Writing back what a slot holds changes nothing. -/
theorem set_self {o : α} (hs : p.slots h = some o) : p.set h o = p := by
  have hl : (p.slots h).isSome = true := by simp [hs]
  have hupd : update p.slots h (some o) = p.slots := by
    rw [← hs, update_eq_self]
  simp only [set, hl, dif_pos, hupd]

theorem set_set (p : Pool α N) (h : Nat) (o o' : α) : (p.set h o).set h o' = p.set h o' := by
  by_cases hl : (p.slots h).isSome = true
  · simp [set, hl, update_idem]
  · simp [set, hl]

theorem slots_free {o : α} (hs : p.slots h = some o) (k : Nat) :
    (p.free h).slots k = if k = h then none else p.slots k := by
  have hl : (p.slots h).isSome = true := by simp [hs]
  simp only [free, hl, dif_pos, update_apply]

/-- What an allocation gives: a slot that was not live, and nothing else moves. -/
theorem allocate_spec [Inhabited α] {p p' : Pool α N} (ha : p.allocate = some (h, p')) :
    p.slots h = none ∧ h < N ∧
      ∀ k, p'.slots k = if k = h then some default else p.slots k := by
  have hdead : ∀ k, ¬ (k < p.unused ∧ k ∉ p.freeList) → p.slots k = none := by
    intro k hk
    rw [← p.live_iff k] at hk
    simpa using hk
  unfold allocate at ha
  split at ha
  · rename_i h' rest hf
    obtain ⟨rfl, rfl⟩ := Prod.mk.inj (Option.some.inj ha)
    refine ⟨hdead _ (by simp [hf]), ?_, update_apply _ _ _⟩
    exact lt_of_lt_of_le (p.freeList_lt h' (by simp [hf])) p.unused_le
  · split at ha
    · rename_i hu
      obtain ⟨rfl, rfl⟩ := Prod.mk.inj (Option.some.inj ha)
      exact ⟨hdead _ (by simp), hu, update_apply _ _ _⟩
    · nomatch ha

/-- An allocation fails only when every slot is live. -/
theorem allocate_eq_none [Inhabited α] (ha : p.allocate = none) :
    ∀ h, h < N → ∃ o, p.slots h = some o := by
  intro h hh
  unfold allocate at ha
  split at ha
  · nomatch ha
  rename_i hf
  split at ha
  · nomatch ha
  · rename_i hu
    rw [← Option.isSome_iff_exists, p.live_iff h, hf]
    exact ⟨by omega, not_mem_nil⟩

end Pool

/-! ## Ring buffer -/

/-- `RingBuffer<T, N>`.  `head` and `tail` count pushes from zero. -/
structure RingBuffer (α : Type) (N : Nat) where
  head : Nat
  tail : Nat
  buf : Nat → α
  head_le : head ≤ tail
  size_le : tail - head ≤ N

namespace RingBuffer

variable {α : Type} {N : Nat}
variable (r : RingBuffer α N)
variable (pos : Nat)

/-- A ring after construction; its storage is unspecified. -/
def empty [Inhabited α] : RingBuffer α N where
  head := 0
  tail := 0
  buf := fun _ => default
  head_le := Nat.le_refl 0
  size_le := by simp

def size : Nat := r.tail - r.head

def full : Bool := r.size == N

def front : α := r.buf (r.head % N)

/-- `RingBuffer::at_pos`: the element pushed at a position, while it is there.
The source compares `pos - head` unsigned, so a position before the head is out
of range as well. -/
def atPos : Option α :=
  if r.head ≤ pos ∧ pos < r.tail then some (r.buf (pos % N)) else none

/-- `RingBuffer::push`: the oldest element leaves a full ring. -/
def push (v : α) : RingBuffer α N where
  head := if r.full then r.head + 1 else r.head
  tail := r.tail + 1
  buf := update r.buf (r.tail % N) v
  head_le := by
    have := r.head_le
    split <;> omega
  size_le := by
    have h1 := r.size_le
    have h2 := r.head_le
    simp only [full, size, beq_iff_eq]
    split <;> omega

/-- Write the element at a position (an assignment through `at_pos`). -/
def setPos (v : α) : RingBuffer α N :=
  { r with buf := update r.buf (pos % N) v }

@[simp] theorem tail_push (v : α) : (r.push v).tail = r.tail + 1 := rfl

theorem head_push (v : α) : (r.push v).head = if r.full then r.head + 1 else r.head := rfl

theorem full_iff {r : RingBuffer α N} : r.full = true ↔ r.tail = r.head + N := by
  have := r.head_le
  simp only [full, size, beq_iff_eq]
  omega

/-- Two positions less than a ring apart share a slot only when they are equal. -/
theorem eq_of_mod_eq {p q : Nat} (hlt : p < q + N) (hlt' : q < p + N)
    (h : p % N = q % N) : p = q := by
  rcases Nat.le_total p q with hpq | hpq
  · have hd : N ∣ q - p := (Nat.modEq_iff_dvd' hpq).mp h
    have hz := Nat.eq_zero_of_dvd_of_lt hd (by omega)
    omega
  · have hd : N ∣ p - q := (Nat.modEq_iff_dvd' hpq).mp h.symm
    have hz := Nat.eq_zero_of_dvd_of_lt hd (by omega)
    omega

theorem atPos_eq_some_iff {r : RingBuffer α N} {pos : Nat} {v : α} :
    r.atPos pos = some v ↔ (r.head ≤ pos ∧ pos < r.tail) ∧ r.buf (pos % N) = v := by
  unfold atPos
  split <;> simp_all

theorem atPos_setPos {r : RingBuffer α N} {pos : Nat} (hpos : r.head ≤ pos ∧ pos < r.tail)
    (v : α) (k : Nat) :
    (r.setPos pos v).atPos k = if k = pos then some v else r.atPos k := by
  have hsz := r.size_le
  unfold atPos setPos
  by_cases hk : k = pos
  · subst hk
    simp [hpos]
  simp only [hk, if_false, update_apply]
  by_cases hr : r.head ≤ k ∧ k < r.tail
  · have hne : k % N ≠ pos % N := fun he => hk (eq_of_mod_eq (by omega) (by omega) he)
    simp [hne]
  · simp [hr]

/-- A push adds its element at the old tail and keeps every element that does
not leave. -/
theorem atPos_push {r : RingBuffer α N} (hN : 0 < N) (v : α) (k : Nat) : (r.push v).atPos k =
      if k = r.tail then some v
      else if (r.push v).head ≤ k then r.atPos k else none := by
  have hsz := r.size_le
  have hle := r.head_le
  have hhead : r.head ≤ (r.push v).head := by
    rw [head_push]
    split <;> omega
  have hroom : r.tail < (r.push v).head + N := by
    rw [head_push]
    split_ifs with hf
    · have := full_iff.mp hf
      omega
    · rw [full_iff] at hf
      omega
  have hheadle : (r.push v).head ≤ r.tail := by
    rw [head_push]
    split_ifs with hf
    · have := full_iff.mp hf
      omega
    · exact hle
  unfold atPos
  rw [tail_push]
  by_cases hk : k = r.tail
  · subst hk
    rw [if_pos ⟨hheadle, Nat.lt_succ_self _⟩, if_pos rfl]
    simp [push]
  simp only [hk, if_false]
  by_cases hge : (r.push v).head ≤ k
  · by_cases hlt : k < r.tail
    · have hne : k % N ≠ r.tail % N := fun he => hk (eq_of_mod_eq (by omega) (by omega) he)
      have h1 : r.head ≤ k := by omega
      have h2 : k < r.tail + 1 := by omega
      simp only [hge, h1, h2, hlt, and_self, if_true]
      simp [push, hne]
    · have h2 : ¬ k < r.tail + 1 := by omega
      simp [hlt, h2]
  · simp [hge]

end RingBuffer

/-! ## Bucket bits -/

/-- `BucketBits<N, B>`: a bit per slot and bucket, and per bucket a summary bit
for every 64-slot word with a bit set. -/
structure BucketBits (N B : Nat) where
  bits : Nat → Nat → Bool
  words : Nat → Nat → Bool
  words_iff : ∀ b w, words b w = true ↔ ∃ i, i / 64 = w ∧ bits b i = true

namespace BucketBits

variable {N B : Nat}
variable (t : BucketBits N B)
variable (b slot : Nat)

/-- No slot in any bucket. -/
def empty : BucketBits N B where
  bits := fun _ _ => false
  words := fun _ _ => false
  words_iff := by intro b w; simp

/-- `BucketBits::bucket`: the key's low bits. -/
def bucket (B key : Nat) : Nat := key % B

def set : BucketBits N B where
  bits := fun b' i => if b' = b ∧ i = slot then true else t.bits b' i
  words := fun b' w => if b' = b ∧ w = slot / 64 then true else t.words b' w
  words_iff := by
    intro b' w
    by_cases hb : b' = b ∧ w = slot / 64
    · obtain ⟨rfl, rfl⟩ := hb
      simp only [and_self, if_true, true_iff]
      exact ⟨slot, rfl, by simp⟩
    rw [if_neg hb, t.words_iff]
    constructor
    · rintro ⟨i, hi, hbit⟩
      exact ⟨i, hi, by simp [hbit]⟩
    rintro ⟨i, hi, hbit⟩
    by_cases hi' : b' = b ∧ i = slot
    · exact absurd ⟨hi'.1, by rw [← hi, hi'.2]⟩ hb
    · rw [if_neg hi'] at hbit
      exact ⟨i, hi, hbit⟩

/-- The word of `slot` has no bit left once its own is cleared (`w == 0`). -/
def wordEmptyWithout : Bool :=
  (List.range 64).all fun k =>
    64 * (slot / 64) + k == slot || !t.bits b (64 * (slot / 64) + k)

theorem wordEmptyWithout_iff : t.wordEmptyWithout b slot = true ↔
      ∀ i, i / 64 = slot / 64 → i ≠ slot → t.bits b i = false := by
  simp only [wordEmptyWithout, all_eq_true, mem_range, Bool.or_eq_true, beq_iff_eq,
    Bool.not_eq_true']
  constructor
  · intro h i hi hne
    rcases h (i % 64) (Nat.mod_lt i (by decide)) with h | h
    · exact absurd (by omega) hne
    · rw [show 64 * (slot / 64) + i % 64 = i by omega] at h
      exact h
  · intro h k hk
    by_cases hne : 64 * (slot / 64) + k = slot
    · exact Or.inl hne
    · exact Or.inr (h _ (by omega) hne)

def clear : BucketBits N B where
  bits := fun b' i => if b' = b ∧ i = slot then false else t.bits b' i
  words := fun b' w =>
    if b' = b ∧ w = slot / 64 ∧ t.wordEmptyWithout b slot = true then false else t.words b' w
  words_iff := by
    intro b' w
    by_cases hb : b' = b ∧ w = slot / 64
    · obtain ⟨rfl, rfl⟩ := hb
      by_cases he : t.wordEmptyWithout b' slot = true
      · simp only [he, and_self, if_true, Bool.false_eq_true, false_iff, not_exists]
        rintro i ⟨hi, hbit⟩
        by_cases hs : i = slot
        · simp [hs] at hbit
        · rw [wordEmptyWithout_iff] at he
          simp [hs, he i hi hs] at hbit
      · have hex : ∃ i, i / 64 = slot / 64 ∧ i ≠ slot ∧ t.bits b' i = true := by
          rw [wordEmptyWithout_iff] at he
          push Not at he
          obtain ⟨i, hi, hne, hbit⟩ := he
          exact ⟨i, hi, hne, by simpa using hbit⟩
        obtain ⟨i, hi, hne, hbit⟩ := hex
        simp only [he, and_false, Bool.false_eq_true, if_false]
        rw [t.words_iff]
        exact ⟨fun _ => ⟨i, hi, by simp [hne, hbit]⟩, fun _ => ⟨i, hi, hbit⟩⟩
    · have hne : ¬ (b' = b ∧ w = slot / 64 ∧ t.wordEmptyWithout b slot = true) :=
        fun hh => hb ⟨hh.1, hh.2.1⟩
      rw [if_neg hne, t.words_iff]
      constructor
      · rintro ⟨i, hi, hbit⟩
        refine ⟨i, hi, ?_⟩
        have hi' : ¬ (b' = b ∧ i = slot) := fun hh => hb ⟨hh.1, by rw [← hi, hh.2]⟩
        simp [hi', hbit]
      · rintro ⟨i, hi, hbit⟩
        refine ⟨i, hi, ?_⟩
        by_cases hi' : b' = b ∧ i = slot
        · simp [hi'] at hbit
        · simpa [hi'] using hbit

/-- The slots `BucketBits::for_each` visits, in its order: the words whose
summary bit is set, ascending, and the bits of each, ascending. -/
def forEach (b : Nat) : List Nat :=
  ((List.range ((N + 63) / 64)).filter fun w => t.words b w).flatMap fun w =>
    ((List.range 64).map fun k => 64 * w + k).filter fun i => t.bits b i

theorem mem_forEach {t : BucketBits N B} {b i : Nat} :
    i ∈ t.forEach b ↔ i / 64 < (N + 63) / 64 ∧ t.bits b i = true := by
  simp only [forEach, mem_flatMap, mem_filter, mem_range, mem_map]
  constructor
  · rintro ⟨w, ⟨hw, _⟩, ⟨k, hk, rfl⟩, hbit⟩
    exact ⟨by omega, hbit⟩
  · rintro ⟨hi, hbit⟩
    exact ⟨i / 64, ⟨hi, (t.words_iff b _).mpr ⟨i, rfl, hbit⟩⟩,
      ⟨i % 64, Nat.mod_lt i (by decide), by omega⟩, hbit⟩

/-- The visit is in ascending order, so it meets no slot twice. -/
theorem forEach_sorted (b : Nat) : (t.forEach b).Pairwise (· < ·) := by
  have hword : ∀ w, (((List.range 64).map fun k => 64 * w + k).filter
      fun i => t.bits b i).Pairwise (· < ·) := by
    intro w
    refine List.Pairwise.filter _ ?_
    rw [pairwise_map]
    exact pairwise_lt_range.imp (by intro a c hac; omega)
  have hwords : ((List.range ((N + 63) / 64)).filter fun w => t.words b w).Pairwise (· < ·) :=
    pairwise_lt_range.filter _
  unfold forEach
  generalize (List.range ((N + 63) / 64)).filter (t.words b) = ws at hwords
  induction ws with
  | nil => exact List.Pairwise.nil
  | cons w ws ih =>
    rw [pairwise_cons] at hwords
    rw [flatMap_cons, pairwise_append]
    refine ⟨hword w, ih hwords.2, ?_⟩
    intro i hi j hj
    simp only [mem_flatMap, mem_filter, mem_map, mem_range] at hi hj
    obtain ⟨⟨k, hk, rfl⟩, _⟩ := hi
    obtain ⟨w', hw', ⟨k', -, rfl⟩, _⟩ := hj
    have := hwords.1 w' hw'
    omega

theorem bits_set (b slot b' i : Nat) :
    (t.set b slot).bits b' i = if b' = b ∧ i = slot then true else t.bits b' i := rfl

theorem bits_clear (b slot b' i : Nat) :
    (t.clear b slot).bits b' i = if b' = b ∧ i = slot then false else t.bits b' i := rfl

end BucketBits

/-! ## Static vectors -/

/-- `StaticVector<T, N>`: at most `N` elements. -/
structure StaticVector (α : Type) (N : Nat) where
  data : List α
  length_le : data.length ≤ N

namespace StaticVector

variable {α : Type} {N : Nat}
variable (v : StaticVector α N)
variable (i : Nat)

/-- `StaticVector::clear`, and a new vector. -/
def nil : StaticVector α N := ⟨[], Nat.zero_le N⟩

def size : Nat := v.data.length

/-- `operator[]`, for an index below the size. -/
def get [Inhabited α] : α := v.data.getD i default

/-- An assignment to `operator[]`. -/
def set (x : α) : StaticVector α N :=
  ⟨v.data.set i x, by rw [length_set]; exact v.length_le⟩

/-- `StaticVector::insert_at`: a full vector stays as it is. -/
def insertAt (x : α) : StaticVector α N :=
  if h : v.size = N ∨ v.size < i then v
  else ⟨v.data.insertIdx i x, by
    have hle := v.length_le
    unfold size at h
    rw [length_insertIdx]
    split <;> omega⟩

/-- `StaticVector::push_back`: a full vector stays as it is. -/
def pushBack (x : α) : StaticVector α N :=
  if h : v.size < N then
    ⟨v.data ++ [x], by
      rw [length_append, length_singleton]
      exact h⟩
  else v

def eraseAt : StaticVector α N :=
  ⟨v.data.eraseIdx i, le_trans (eraseIdx_sublist v.data i).length_le v.length_le⟩

def eraseFront (k : Nat) : StaticVector α N :=
  ⟨v.data.drop k, by rw [length_drop]; exact le_trans (Nat.sub_le _ _) v.length_le⟩

/-- `std::copy(begin + first, begin + last, begin)`: the elements of `[first, last)`
over the front, everything behind them as it was. -/
def copyFront (first last : Nat) : StaticVector α N :=
  ⟨((v.data.take last).drop first ++ v.data.drop (last - first)).take v.data.length, by
    rw [length_take]
    exact le_trans (Nat.min_le_left _ _) v.length_le⟩

end StaticVector

end FastMM
