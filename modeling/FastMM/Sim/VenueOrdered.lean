/-
  Sim/VenueOrdered.lean --- the adapter yields every event once, earliest venue time first.

  Source: `src/sim/venue_order.cpp` (`next`, `take_slot`, `heap_push`, `heap_pop`).

  What the adapter has still to yield is what it holds and what is unread, numbered as it
  will be (`remaining`).  Each call takes one event of it.  The call takes the earliest one
  while receive times do not go back, no event was received more than the window late and
  the heap stays below its bound: what is unread then lies behind the bound the adapter reads
  up to.
-/
import FastMM.Sim.VenueOrder
import Mathlib.Data.Prod.Lex
import Mathlib.Data.Int.Order.Basic
set_option autoImplicit false

namespace FastMM.Sim

open Foundation List Option VenueOrderSource

variable {ε : Type}

/-! ## Packed keys -/

theorem packKey_eq (seq : Nat) {slot : Nat} (hs : slot < maxEvents) :
    packKey seq slot = seq % 1099511627776 * maxEvents + slot := by
  have hshift : (seq <<< kSlotBits) % 18446744073709551616 =
      (seq % 1099511627776) <<< kSlotBits := by
    unfold kSlotBits
    rw [Nat.shiftLeft_eq, Nat.shiftLeft_eq]
    omega
  have hlt : slot < 2 ^ kSlotBits := hs
  rw [packKey, hshift, ← Nat.shiftLeft_add_eq_or_of_lt hlt, Nat.shiftLeft_eq]
  rfl

/-- The slot of a packed key. -/
theorem slot_packKey (v : Int) (seq : Nat) {slot : Nat} (hs : slot < maxEvents) :
    (Held.mk v (packKey seq slot)).slot = slot := by
  have hmask : maxEvents - 1 = 2 ^ 24 - 1 := rfl
  rw [Held.slot, hmask, Nat.and_two_pow_sub_one_eq_mod]
  show packKey seq slot % 2 ^ 24 = slot
  rw [packKey_eq seq hs]
  unfold maxEvents at hs ⊢
  omega

/-- Below 2^40 positions the keys are ordered as the positions are. -/
theorem le_of_packKey_le {p q k l : Nat} (hp : p < 1099511627776) (hq : q < 1099511627776)
    (hk : k < maxEvents) (hl : l < maxEvents) (h : packKey p k ≤ packKey q l) : p ≤ q := by
  rw [packKey_eq p hk, packKey_eq q hl] at h
  unfold maxEvents at hk hl h
  omega

/-- The rank of a held event in the heap. -/
def Held.rank (h : Held) : Int ×ₗ Nat := toLex (h.venueNs, h.key)

theorem Held.before_iff (a b : Held) : a.before b = true ↔ a.rank < b.rank := by
  unfold Held.before Held.rank
  rw [Prod.Lex.toLex_lt_toLex]
  by_cases hv : a.venueNs = b.venueNs
  · simp [hv]
  · simp [hv]

/-! ## What remains -/

/-- The events of a source that take a position, with the position: `n` came before. -/
def numbered : Nat → List (Event ε) → List (Event ε)
  | _, [] => []
  | n, e :: l => if e.padding then numbered n l else { e with seq := n + 1 } :: numbered (n + 1) l

namespace VenueOrderSource

variable {src : List (Event ε)}
variable {e : Event ε}
variable (calls : Nat)

/-- The events held. -/
def contents (s : VenueOrderSource ε) : List (Event ε) :=
  s.heap.map fun h => s.slotData h.slot

/-- The slots there are: free, shown by the last pointer, or in the heap. -/
def usedSlots (s : VenueOrderSource ε) : List Nat :=
  s.free ++ s.out.toList ++ s.heap.map Held.slot

/-- The heap and the slots fit together. -/
structure Wf (s : VenueOrderSource ε) : Prop where
  heap : DaryHeap.IsHeap 4 Held.rank s.heap
  slots : s.usedSlots.Perm (List.range s.nSlots)
  nSlots_le : s.nSlots ≤ maxEvents
  held : ∀ h ∈ s.heap, (s.slotData h.slot).padding = false ∧
    (s.slotData h.slot).venue = h.venueNs ∧ h.key = packKey (s.slotData h.slot).seq h.slot
  maxHeld : s.heap.length ≤ s.maxHeld

theorem wf_create [Inhabited ε] (src : List (Event ε)) (window : Int) : Wf (create src window) where
  heap := DaryHeap.isHeap_nil
  slots := .refl _
  nSlots_le := Nat.zero_le _
  held := fun _ hh => absurd hh not_mem_nil
  maxHeld := le_refl _

variable {s : VenueOrderSource ε}

theorem slotData_write (k : Nat) (e : Event ε) (j : Nat) :
    (s.write k e).slotData j = if j = k then e else s.slotData j := by
  unfold write slotData
  split
  · by_cases hj : j = k
    · simp [hj]
    · simp [hj]
  · by_cases hj : j = k
    · simp [hj]
    · simp [hj]

theorem Wf.slot_lt (h : Wf s) {k : Nat} (hk : k ∈ s.usedSlots) : k < s.nSlots :=
  mem_range.mp (h.slots.mem_iff.mp hk)

theorem Wf.heap_slot_lt (h : Wf s) {x : Held} (hx : x ∈ s.heap) : x.slot < maxEvents :=
  lt_of_lt_of_le (h.slot_lt (mem_append_right _ (mem_map_of_mem hx))) h.nSlots_le

/-- A slot for one more event: fresh, and below the bound while the heap is. -/
theorem Wf.takeSlot (h : Wf s) (hout : s.out = none) (hlen : s.heap.length < maxEvents) :
    ∃ (k : Nat) (free : List Nat) (nSlots : Nat) (isBig : Nat → Bool), s.takeSlot =
        (k, { s with free := free, nSlots := nSlots, isBig := isBig }) ∧
      (free ++ k :: s.heap.map Held.slot).Perm (List.range nSlots) ∧ nSlots ≤ maxEvents ∧
      k ∉ s.heap.map Held.slot ∧ ∀ j, j ≠ k → isBig j = s.isBig j := by
  have hslots := h.slots
  unfold usedSlots at hslots
  rw [hout, toList_none, append_nil] at hslots
  unfold VenueOrderSource.takeSlot
  cases hfree : s.free with
  | cons k free =>
    rw [hfree] at hslots
    refine ⟨k, free, s.nSlots, s.isBig, rfl, perm_middle.trans hslots, h.nSlots_le, ?_,
      fun _ _ => rfl⟩
    have hnodup := hslots.nodup_iff.mpr nodup_range
    rw [cons_append, nodup_cons] at hnodup
    exact fun hk => hnodup.1 (mem_append_right _ hk)
  | nil =>
    rw [hfree, nil_append] at hslots
    have hcount : s.heap.length = s.nSlots := by
      have hl := hslots.length_eq
      rwa [length_map, length_range] at hl
    refine ⟨s.nSlots, [], s.nSlots + 1, Function.update s.isBig s.nSlots false, ?_, ?_, ?_, ?_, ?_⟩
    · rfl
    · rw [nil_append, range_succ]
      exact (hslots.cons _).trans (perm_append_singleton _ _).symm
    · omega
    · intro hk
      exact absurd (mem_range.mp (hslots.mem_iff.mp hk)) (lt_irrefl _)
    · exact fun j hj => Function.update_of_ne hj _ _

theorem write_eq (k : Nat) (e : Event ε) :
    ∃ arena big isBig, s.write k e = { s with arena := arena, big := big, isBig := isBig } := by
  unfold VenueOrderSource.write
  split
  · exact ⟨_, s.big, _, rfl⟩
  · exact ⟨s.arena, _, _, rfl⟩

/-- `hold`, field by field: a fresh slot takes the event, and the heap its key. -/
theorem Wf.hold_eq (h : Wf s) (hout : s.out = none) (hlen : s.heap.length < maxEvents) :
    ∃ (k : Nat) (free : List Nat) (nSlots : Nat),
      (free ++ k :: s.heap.map Held.slot).Perm (List.range nSlots) ∧ nSlots ≤ maxEvents ∧
      k ∉ s.heap.map Held.slot ∧ (s.hold e).free = free ∧ (s.hold e).nSlots = nSlots ∧
      (s.hold e).out = none ∧
      (s.hold e).heap = DaryHeap.push Held.before 4 s.heap ⟨e.venue, packKey (s.seq + 1) k⟩ ∧
      ∀ j, (s.hold e).slotData j =
        if j = k then { e with seq := s.seq + 1 } else s.slotData j := by
  obtain ⟨k, free, nSlots, isBig, htake, hperm, hle, hfresh, hbig⟩ := h.takeSlot hout hlen
  refine ⟨k, free, nSlots, hperm, hle, hfresh, ?_⟩
  have hdata := slotData_write (s := { s with free := free, nSlots := nSlots, isBig := isBig }) k
    { e with seq := s.seq + 1 }
  obtain ⟨arena, big, isBig', hw⟩ := write_eq
    (s := { s with free := free, nSlots := nSlots, isBig := isBig }) k { e with seq := s.seq + 1 }
  unfold VenueOrderSource.hold
  rw [htake]
  dsimp only
  rw [hw] at hdata ⊢
  refine ⟨rfl, rfl, hout, rfl, fun j => ?_⟩
  refine (hdata j).trans ?_
  split_ifs with hj
  · rfl
  · show (if isBig j then s.big j else s.arena j) = s.slotData j
    rw [hbig j hj]
    rfl

/-- `hold` counts the position, raises the bound and keeps the rest. -/
theorem hold_counts (e : Event ε) :
    (s.hold e).seq = s.seq + 1 ∧ (s.hold e).readBound = max s.readBound e.received ∧
      (s.hold e).maxHeld = max s.maxHeld (s.hold e).heap.length ∧
      (s.hold e).window = s.window ∧ (s.hold e).done = s.done := by
  have htake : ∃ k free nSlots isBig, s.takeSlot =
      (k, { s with free := free, nSlots := nSlots, isBig := isBig }) := by
    unfold takeSlot
    split
    · exact ⟨_, _, s.nSlots, s.isBig, rfl⟩
    · exact ⟨_, s.free, _, _, rfl⟩
  obtain ⟨k, free, nSlots, isBig, htake⟩ := htake
  obtain ⟨arena, big, isBig', hw⟩ := write_eq
    (s := { s with free := free, nSlots := nSlots, isBig := isBig }) k { e with seq := s.seq + 1 }
  unfold VenueOrderSource.hold
  rw [htake]
  dsimp only
  rw [hw]
  exact ⟨rfl, rfl, rfl, rfl, rfl⟩

/-- One more event is held. -/
theorem Wf.hold (h : Wf s) (hout : s.out = none)
    (hlen : s.heap.length < maxEvents) (he : e.padding = false) :
    Wf (s.hold e) ∧ (s.hold e).contents.Perm ({ e with seq := s.seq + 1 } :: s.contents) ∧
      (s.hold e).heap.length = s.heap.length + 1 ∧ (s.hold e).out = none := by
  obtain ⟨k, free, nSlots, hperm, hle, hfresh, h₁, h₂, h₃, h₄, hdata⟩ :=
    h.hold_eq (e := e) hout hlen
  obtain ⟨hheap, hpush⟩ := DaryHeap.push_spec (d := 4) Held.before
    Held.before_iff h.heap ⟨e.venue, packKey (s.seq + 1) k⟩
  rw [← h₄] at hheap hpush
  have hk : k < maxEvents := by
    have hmem : k ∈ free ++ k :: s.heap.map Held.slot :=
      mem_append_right _ mem_cons_self
    exact lt_of_lt_of_le (mem_range.mp (hperm.mem_iff.mp hmem)) hle
  have hslot := slot_packKey e.venue (s.seq + 1) hk
  have hold : ∀ x ∈ s.heap, (s.hold e).slotData x.slot = s.slotData x.slot := by
    intro x hx
    rw [hdata, if_neg]
    rintro rfl
    exact hfresh (mem_map_of_mem hx)
  refine ⟨⟨hheap, ?_, h₂ ▸ hle, ?_, ?_⟩, ?_, ?_, h₃⟩
  · have hmap := hpush.map Held.slot
    rw [map_cons, hslot] at hmap
    unfold usedSlots
    rw [h₁, h₂, h₃, toList_none, append_nil]
    exact (hmap.append_left free).trans hperm
  · intro x hx
    rcases mem_cons.mp (hpush.mem_iff.mp hx) with rfl | hx
    · rw [hslot, hdata, if_pos rfl]
      exact ⟨he, rfl, rfl⟩
    · rw [hold x hx]
      exact h.held x hx
  · rw [(hold_counts e).2.2.1]
    exact le_max_right _ _
  · have hmap := hpush.map fun x => (s.hold e).slotData x.slot
    refine hmap.trans ?_
    rw [map_cons, hslot, hdata, if_pos rfl]
    refine List.Perm.cons _ (List.Perm.of_eq ?_)
    exact map_congr_left hold
  · have hlen' := hpush.length_eq
    rwa [length_cons] at hlen'

/-! ## The reading loop -/

/-- What the adapter has still to yield, when `src` is unread. -/
def remaining (s : VenueOrderSource ε) (src : List (Event ε)) : List (Event ε) :=
  s.contents ++ numbered s.seq src

/-- Why the reading loop stopped. -/
def Settled (s : VenueOrderSource ε) : Prop :=
  s.src = [] ∨ (∃ front rest, s.heap = front :: rest ∧ front.venueNs ≤ s.readBound - s.window) ∨
    maxEvents ≤ s.heap.length

/-- The reading loop moves events from the source to the heap; a record of the session comes
out at once. -/
theorem Wf.read (src : List (Event ε)) (h : Wf s) (hout : s.out = none)
    (hdone : s.done = true → src = []) :
    let r := VenueOrderSource.read src s
    Wf r.2 ∧ r.2.out = none ∧ (r.2.done = true → r.2.src = []) ∧
      (r.2.remaining r.2.src).Perm (s.remaining src) ∧
      (match r.1 with
        | none => Settled r.2 ∧ r.2.src.length + r.2.heap.length = src.length + s.heap.length
        | some e => e.padding = true ∧
            r.2.src.length + r.2.heap.length + 1 = src.length + s.heap.length) := by
  induction src generalizing s with
  | nil =>
    refine ⟨{ h with }, hout, fun _ => rfl, .refl _, .inl rfl, rfl⟩
  | cons e src ih =>
    unfold VenueOrderSource.read
    split
    · rename_i hwant
      unfold wantsMore at hwant
      rw [Bool.and_eq_true, Bool.and_eq_true, Bool.not_eq_true', decide_eq_true_eq] at hwant
      obtain ⟨⟨hnot, -⟩, hlen⟩ := hwant
      split
      · rename_i hpad
        refine ⟨{ h with }, hout, fun hd => absurd hd (by simp [hnot]), ?_, hpad, ?_⟩
        · unfold remaining
          rw [numbered, if_pos hpad]
          exact .refl _
        · simp only [length_cons]
          omega
      · rename_i hpad
        have hpad' : e.padding = false := by simpa using hpad
        obtain ⟨h₁, h₂, h₃, h₄⟩ := h.hold hout hlen hpad'
        obtain ⟨hseq, -, -, -, hdone'⟩ := hold_counts (s := s) e
        obtain ⟨i₁, i₂, i₃, i₄, i₅⟩ := ih h₁ h₄ fun hd => absurd hd (by rw [hdone']; simp [hnot])
        refine ⟨i₁, i₂, i₃, i₄.trans ?_, ?_⟩
        · unfold remaining
          rw [numbered, if_neg hpad, hseq]
          exact (h₂.append_right _).trans perm_middle.symm
        rw [h₃] at i₅
        split
        · rename_i heq
          rw [heq] at i₅
          refine ⟨i₅.1, ?_⟩
          rw [i₅.2, length_cons]
          omega
        · rename_i heq
          rw [heq] at i₅
          refine ⟨i₅.1, ?_⟩
          rw [i₅.2, length_cons]
          omega
    · rename_i hwant
      refine ⟨{ h with }, hout, fun hd => absurd (hdone hd) (by simp), .refl _, ?_, rfl⟩
      have hnot : s.done = false := Bool.eq_false_iff.mpr fun hd => absurd (hdone hd) (by simp)
      unfold wantsMore at hwant
      rw [hnot, Bool.not_false, Bool.true_and, Bool.and_eq_true, not_and_or, decide_eq_true_eq]
        at hwant
      rcases hwant with hfront | hlen
      · cases hheap : s.heap with
        | nil => simp [hheap] at hfront
        | cons front rest =>
          rw [hheap] at hfront
          refine .inr (.inl ⟨front, rest, rfl, ?_⟩)
          simpa using hfront
      · exact .inr (.inr (not_lt.mp hlen))

/-! ## The event that goes out -/

theorem freeOut_spec (h : Wf s) :
    Wf s.freeOut ∧ s.freeOut.out = none ∧ s.freeOut.contents = s.contents ∧
      s.freeOut.seq = s.seq ∧ s.freeOut.src = s.src ∧ s.freeOut.heap = s.heap ∧
      s.freeOut.done = s.done ∧ s.freeOut.readBound = s.readBound ∧
      s.freeOut.window = s.window ∧ s.freeOut.maxHeld = s.maxHeld := by
  unfold freeOut
  cases hout : s.out with
  | none => exact ⟨h, hout, rfl, rfl, rfl, rfl, rfl, rfl, rfl, rfl⟩
  | some k =>
    refine ⟨{ h with slots := ?_ }, rfl, rfl, rfl, rfl, rfl, rfl, rfl, rfl, rfl⟩
    have hslots := h.slots
    unfold usedSlots at hslots ⊢
    rw [hout, toList_some] at hslots
    refine List.Perm.trans ?_ hslots
    rw [toList_none, append_nil]
    exact (perm_append_singleton k s.free).symm.append_right _

/-- The head of the heap goes out, and its slot is shown. -/
theorem Wf.yieldHeld (h : Wf s) (hout : s.out = none) {top : Held} {rest : List Held}
    (hheap : s.heap = top :: rest) :
    ∃ s', s.yieldHeld = (some (s.slotData top.slot), s') ∧ Wf s' ∧
      s.contents.Perm (s.slotData top.slot :: s'.contents) ∧ s'.seq = s.seq ∧ s'.src = s.src ∧
      s'.heap.length = rest.length ∧ s'.done = s.done ∧ s'.readBound = s.readBound ∧
      s'.window = s.window ∧ s'.maxHeld = s.maxHeld := by
  have hh := h.heap
  rw [hheap] at hh
  obtain ⟨heap, hpop, hheap', hperm⟩ :=
    DaryHeap.pop_spec (d := 4) Held.before Held.before_iff (by decide) hh
  unfold VenueOrderSource.yieldHeld
  rw [hheap, hpop]
  have hsub : ∀ x ∈ heap, x ∈ s.heap := fun x hx => by
    rw [hheap]
    exact mem_cons_of_mem _ (hperm.mem_iff.mp hx)
  refine ⟨_, rfl, ⟨hheap', ?_, h.nSlots_le, fun x hx => h.held x (hsub x hx), ?_⟩, ?_, rfl, rfl,
    hperm.length_eq, rfl, rfl, rfl, rfl⟩
  · have hslots := h.slots
    unfold usedSlots at hslots ⊢
    rw [hout, hheap, toList_none, append_nil, map_cons] at hslots
    refine List.Perm.trans ?_ hslots
    rw [toList_some, append_assoc]
    exact ((hperm.map Held.slot).cons top.slot).append_left s.free
  · have hlen := h.maxHeld
    rw [hheap, length_cons] at hlen
    have hlen' := hperm.length_eq
    show heap.length ≤ s.maxHeld
    omega
  · unfold contents
    rw [hheap, map_cons]
    exact ((hperm.map _).symm).cons _

/-- One call takes one event of what remains, or a record of the session; nothing remains when
it answers none. -/
theorem Wf.next (h : Wf s) (hdone : s.done = true → s.src = []) :
    Wf s.next.2 ∧ (s.next.2.done = true → s.next.2.src = []) ∧
      (match s.next.1 with
        | none => s.remaining s.src = [] ∧ s.next.2.src = [] ∧ s.next.2.heap = []
        | some e => s.next.2.src.length + s.next.2.heap.length + 1 =
              s.src.length + s.heap.length ∧
            (s.remaining s.src).Perm
              ([e].filter (fun e => !e.padding) ++ s.next.2.remaining s.next.2.src)) := by
  obtain ⟨h₀, hout, hcont, hseq, hsrc, hheap, hdone', -⟩ := freeOut_spec h
  have hread := h₀.read s.src hout (by rw [hdone']; exact hdone)
  have hrem : s.freeOut.remaining s.src = s.remaining s.src := by
    unfold remaining
    rw [hcont, hseq]
  rw [hrem, hheap] at hread
  unfold VenueOrderSource.next
  dsimp only
  rw [hsrc]
  generalize hr : VenueOrderSource.read s.src s.freeOut = r at hread
  obtain ⟨out, s₁⟩ := r
  obtain ⟨h₁, hout₁, hdone₁, hperm, hcase⟩ := hread
  cases out with
  | some e =>
    obtain ⟨hpad, hlen⟩ := hcase
    refine ⟨h₁, hdone₁, hlen, ?_⟩
    rw [filter_cons_of_neg (by simp [hpad])]
    exact hperm.symm
  | none =>
    obtain ⟨hsettled, hlen⟩ := hcase
    dsimp only
    cases hheap₁ : s₁.heap with
    | nil =>
      have hy : s₁.yieldHeld = (none, s₁) := by
        unfold VenueOrderSource.yieldHeld
        rw [hheap₁]
        rfl
      have hempty : s₁.src = [] := by
        rcases hsettled with hs | ⟨front, rest, hf, -⟩ | hmax
        · exact hs
        · rw [hheap₁] at hf
          simp at hf
        · rw [hheap₁] at hmax
          exact absurd hmax (by decide)
      have hnil : s₁.remaining s₁.src = [] := by
        unfold remaining contents
        rw [hheap₁, hempty]
        rfl
      rw [hy]
      rw [hnil] at hperm
      exact ⟨h₁, hdone₁, hperm.symm.eq_nil, hempty, hheap₁⟩
    | cons top rest =>
      obtain ⟨s', hy, h', hcont', hseq', hsrc', hlen', hdone₂, -⟩ := h₁.yieldHeld hout₁ hheap₁
      have hpad := (h₁.held top (hheap₁ ▸ mem_cons_self)).1
      rw [hy]
      refine ⟨h', fun hd => ?_, ?_, ?_⟩
      · rw [hsrc']
        exact hdone₁ (hdone₂ ▸ hd)
      · rw [hheap₁, length_cons] at hlen
        rw [hsrc', hlen']
        omega
      · rw [filter_cons_of_pos (by simp [hpad]), filter_nil]
        refine hperm.symm.trans ?_
        unfold remaining
        rw [hseq', hsrc']
        exact hcont'.append_right _

/-- Enough calls yield everything that remains, each event once. -/
theorem Wf.yields (h : Wf s) (hdone : s.done = true → s.src = [])
    (hcalls : s.src.length + s.heap.length < calls) :
    ((s.yields calls).1.filter fun e => !e.padding).Perm (s.remaining s.src) ∧
      (s.yields calls).2.src = [] ∧ (s.yields calls).2.heap = [] := by
  induction calls generalizing s with
  | zero => omega
  | succ calls ih =>
    obtain ⟨h', hdone', hcase⟩ := h.next hdone
    unfold VenueOrderSource.yields
    generalize s.next = r at h' hdone' hcase
    obtain ⟨out, s'⟩ := r
    cases out with
    | none =>
      rw [hcase.1]
      exact ⟨.refl _, hcase.2⟩
    | some e =>
      obtain ⟨hlen, hperm⟩ := hcase
      obtain ⟨i₁, i₂⟩ := ih h' hdone' (show s'.src.length + s'.heap.length < calls by
        simp only at hlen
        omega)
      refine ⟨List.Perm.trans ?_ hperm.symm, i₂⟩
      show (([e] ++ (s'.yields calls).1).filter fun e => !e.padding).Perm _
      rw [filter_append]
      exact i₁.append_left _

/-! ## The order of the events -/

/-- The venue made the first event no later, and it was recorded no later at the same time. -/
def NoLater (a b : Event ε) : Prop :=
  a.venue < b.venue ∨ a.venue = b.venue ∧ a.seq ≤ b.seq

/-- What is unread comes in receive order, not before what was read, and at most the window
late; the positions fit in their bits of a key. -/
structure Timely (s : VenueOrderSource ε) (src : List (Event ε)) : Prop where
  bound : ∀ u ∈ src, u.padding = false → s.readBound ≤ u.received
  sorted : (src.filter fun e => !e.padding).Pairwise fun a b => a.received ≤ b.received
  late : ∀ u ∈ src, u.padding = false → u.received - s.window ≤ u.venue
  count : s.seq + (numbered s.seq src).length < 1099511627776
  held : ∀ e ∈ s.contents, e.seq ≤ s.seq

theorem mem_numbered {n : Nat} {x : Event ε} (h : x ∈ numbered n src) :
    n < x.seq ∧ ∃ u ∈ src, u.padding = false ∧ x.venue = u.venue := by
  induction src generalizing n with
  | nil => simp [numbered] at h
  | cons e src ih =>
    unfold numbered at h
    split_ifs at h with hpad
    · obtain ⟨h₁, u, hu, hpad, hv⟩ := ih h
      exact ⟨h₁, u, mem_cons_of_mem e hu, hpad, hv⟩
    rcases mem_cons.mp h with rfl | h
    · exact ⟨Nat.lt_succ_self n, e, mem_cons_self, by simpa using hpad, rfl⟩
    · obtain ⟨h₁, u, hu, hpad', hv⟩ := ih h
      exact ⟨Nat.lt_of_succ_lt h₁, u, mem_cons_of_mem e hu, hpad', hv⟩

/-- An event that is read moves the bound no further than what is still unread. -/
theorem Timely.hold (ht : Timely s (e :: src)) (h : Wf s)
    (hout : s.out = none) (hlen : s.heap.length < maxEvents) (he : e.padding = false) :
    Timely (s.hold e) src := by
  obtain ⟨hseq, hbound, -, hwindow, -⟩ := hold_counts (s := s) e
  have hsorted := ht.sorted
  have hcount := ht.count
  rw [filter_cons_of_pos (by simp [he]), pairwise_cons] at hsorted
  rw [numbered, if_neg (by simp [he]), length_cons] at hcount
  refine ⟨fun u hu hpad => ?_, hsorted.2, fun u hu hpad => ?_, ?_, fun x hx => ?_⟩
  · rw [hbound]
    refine max_le (ht.bound u (mem_cons_of_mem e hu) hpad) (hsorted.1 u ?_)
    exact mem_filter.mpr ⟨hu, by simp [hpad]⟩
  · rw [hwindow]
    exact ht.late u (mem_cons_of_mem e hu) hpad
  · rw [hseq]
    omega
  rw [hseq]
  rcases mem_cons.mp ((h.hold hout hlen he).2.1.mem_iff.mp hx) with rfl | hx
  · exact le_refl _
  · exact Nat.le_succ_of_le (ht.held x hx)

theorem Timely.tail (ht : Timely s (e :: src)) (he : e.padding = true) : Timely s src := by
  have hsorted := ht.sorted
  have hcount := ht.count
  rw [filter_cons_of_neg (by simp [he])] at hsorted
  rw [numbered, if_pos he] at hcount
  exact ⟨fun u hu => ht.bound u (mem_cons_of_mem e hu), hsorted,
    fun u hu => ht.late u (mem_cons_of_mem e hu), hcount, ht.held⟩

theorem Timely.read (src : List (Event ε)) (h : Wf s) (hout : s.out = none) (ht : Timely s src) :
    Timely (VenueOrderSource.read src s).2 (VenueOrderSource.read src s).2.src ∧
      s.maxHeld ≤ (VenueOrderSource.read src s).2.maxHeld := by
  induction src generalizing s with
  | nil => exact ⟨{ ht with }, le_refl _⟩
  | cons e src ih =>
    unfold VenueOrderSource.read
    split
    · rename_i hwant
      unfold wantsMore at hwant
      rw [Bool.and_eq_true, decide_eq_true_eq] at hwant
      split
      · rename_i hpad
        exact ⟨{ ht.tail hpad with }, le_refl _⟩
      rename_i hpad
      have hpad' : e.padding = false := by simpa using hpad
      obtain ⟨h₁, -, -, h₄⟩ := h.hold hout hwant.2 hpad'
      obtain ⟨i₁, i₂⟩ := ih h₁ h₄ (ht.hold h hout hwant.2 hpad')
      refine ⟨i₁, le_trans ?_ i₂⟩
      rw [(hold_counts e).2.2.1]
      exact le_max_left _ _
    · exact ⟨{ ht with }, le_refl _⟩

/-- Where the reading loop stopped below the bound, the head of the heap is no later than
anything that remains. -/
theorem Timely.head_noLater (ht : Timely s s.src) (h : Wf s) (hs : Settled s)
    (hmax : s.heap.length < maxEvents) {top : Held} {rest : List Held}
    (hheap : s.heap = top :: rest) {x : Event ε} (hx : x ∈ s.remaining s.src) :
    NoLater (s.slotData top.slot) x := by
  have htop : top ∈ s.heap := hheap ▸ mem_cons_self
  obtain ⟨-, hv, hk⟩ := h.held top htop
  have hseq : (s.slotData top.slot).seq ≤ s.seq := ht.held _ (mem_map_of_mem htop)
  have hcount := ht.count
  unfold NoLater
  rw [hv]
  rcases mem_append.mp hx with hx | hx
  · obtain ⟨y, hy, rfl⟩ := mem_map.mp hx
    obtain ⟨-, hvy, hky⟩ := h.held y hy
    have hseqy : (s.slotData y.slot).seq ≤ s.seq := ht.held _ (mem_map_of_mem hy)
    have hh := h.heap
    rw [hheap] at hh
    have hle := hh.head_le (hheap ▸ hy)
    rw [hvy]
    unfold Held.rank at hle
    rw [Prod.Lex.toLex_le_toLex] at hle
    refine hle.imp_right fun ⟨hveq, hkey⟩ => ⟨hveq, ?_⟩
    dsimp only at hkey
    rw [hk, hky] at hkey
    exact le_of_packKey_le (by omega) (by omega) (h.heap_slot_lt htop) (h.heap_slot_lt hy) hkey
  · obtain ⟨hlt, u, hu, hpad, hvu⟩ := mem_numbered hx
    rcases hs with hsrc | ⟨front, rest', hf, hle⟩ | hfull
    · rw [hsrc] at hu
      exact absurd hu not_mem_nil
    · rw [hheap, List.cons.injEq] at hf
      obtain ⟨rfl, -⟩ := hf
      have hb := ht.bound u hu hpad
      have hl := ht.late u hu hpad
      have hvle : top.venueNs ≤ x.venue := by
        rw [hvu]
        omega
      rcases lt_or_eq_of_le hvle with hlt' | heq
      · exact .inl hlt'
      · exact .inr ⟨heq, by omega⟩
    · exact absurd hmax (not_lt.mpr hfull)

/-- The event that goes out is no later than anything that remains. -/
theorem Timely.next (ht : Timely s s.src) (h : Wf s) (hdone : s.done = true → s.src = []) :
    Timely s.next.2 s.next.2.src ∧ s.maxHeld ≤ s.next.2.maxHeld ∧
      (s.next.2.maxHeld < maxEvents → ∀ e, s.next.1 = some e → e.padding = false →
        ∀ x ∈ s.next.2.remaining s.next.2.src, NoLater e x) := by
  obtain ⟨h₀, hout, hcont, hseq, hsrc, -, hdone', hbound, hwindow, hmax⟩ := freeOut_spec h
  have ht₀ : Timely s.freeOut s.src :=
    ⟨hbound ▸ ht.bound, ht.sorted, hwindow ▸ ht.late, hseq ▸ ht.count, by
      rw [hcont, hseq]; exact ht.held⟩
  have hread := h₀.read s.src hout (by rw [hdone']; exact hdone)
  have htread := ht₀.read s.src h₀ hout
  unfold VenueOrderSource.next
  dsimp only
  rw [hsrc, ← hmax]
  generalize hr : VenueOrderSource.read s.src s.freeOut = r at hread htread
  obtain ⟨out, s₁⟩ := r
  obtain ⟨h₁, hout₁, -, -, hcase⟩ := hread
  obtain ⟨ht₁, hmax₁⟩ := htread
  cases out with
  | some e =>
    refine ⟨ht₁, hmax₁, fun _ x hx hpad => ?_⟩
    obtain rfl : e = x := Option.some.inj hx
    exact absurd hcase.1 (by simp [hpad])
  | none =>
    dsimp only
    cases hheap₁ : s₁.heap with
    | nil =>
      have hy : s₁.yieldHeld = (none, s₁) := by
        unfold yieldHeld
        rw [hheap₁]
        rfl
      rw [hy]
      exact ⟨ht₁, hmax₁, fun _ x hx => nomatch hx⟩
    | cons top rest =>
      obtain ⟨s', hy, -, hcont', hseq', hsrc', -, -, hbound', hwindow', hmax'⟩ :=
        h₁.yieldHeld hout₁ hheap₁
      have hsub : ∀ x ∈ s'.contents, x ∈ s₁.contents := fun x hx =>
        hcont'.mem_iff.mpr (mem_cons_of_mem _ hx)
      rw [hy]
      refine ⟨⟨?_, ?_, ?_, ?_, ?_⟩, ?_, ?_⟩
      · rw [hsrc', hbound']
        exact ht₁.bound
      · rw [hsrc']
        exact ht₁.sorted
      · rw [hsrc', hwindow']
        exact ht₁.late
      · rw [hsrc', hseq']
        exact ht₁.count
      · intro x hx
        rw [hseq']
        exact ht₁.held x (hsub x hx)
      · rw [hmax']
        exact hmax₁
      intro hlt e he _ x hx
      obtain rfl : s₁.slotData top.slot = e := Option.some.inj he
      refine ht₁.head_noLater h₁ hcase.1 ?_ hheap₁ ?_
      · rw [hmax'] at hlt
        exact lt_of_le_of_lt h₁.maxHeld hlt
      · unfold remaining at hx ⊢
        rw [hseq', hsrc'] at hx
        exact mem_append.mpr ((mem_append.mp hx).imp_left (hsub x))

/-- What is yielded remained. -/
theorem Wf.yields_mem (h : Wf s) (hdone : s.done = true → s.src = []) :
    ∀ x ∈ (s.yields calls).1.filter fun e => !e.padding, x ∈ s.remaining s.src := by
  induction calls generalizing s with
  | zero => simp [VenueOrderSource.yields]
  | succ calls ih =>
    obtain ⟨h', hdone', hcase⟩ := h.next hdone
    unfold VenueOrderSource.yields
    generalize s.next = r at h' hdone' hcase
    obtain ⟨out, s'⟩ := r
    cases out with
    | none => simp
    | some e =>
      intro x hx
      refine hcase.2.mem_iff.mpr ?_
      have hx' : x ∈ ([e] ++ (s'.yields calls).1).filter fun e => !e.padding := hx
      rw [filter_append] at hx'
      exact mem_append.mpr ((mem_append.mp hx').imp_right (ih h' hdone' x))

/-- The events yielded are in order while the heap stays below its bound. -/
theorem Timely.yields (ht : Timely s s.src) (h : Wf s) (hdone : s.done = true → s.src = []) :
    s.maxHeld ≤ (s.yields calls).2.maxHeld ∧
      ((s.yields calls).2.maxHeld < maxEvents →
        ((s.yields calls).1.filter fun e => !e.padding).Pairwise NoLater) := by
  induction calls generalizing s with
  | zero => exact ⟨le_refl _, fun _ => List.Pairwise.nil⟩
  | succ calls ih =>
    obtain ⟨h', hdone', -⟩ := h.next hdone
    obtain ⟨ht', hmax, hnext⟩ := ht.next h hdone
    have hmem := fun h' hd => Wf.yields_mem (s := s.next.2) calls h' hd
    unfold VenueOrderSource.yields
    generalize s.next = r at h' hdone' ht' hmax hnext hmem
    obtain ⟨out, s'⟩ := r
    cases out with
    | none => exact ⟨hmax, fun _ => List.Pairwise.nil⟩
    | some e =>
      obtain ⟨i₁, i₂⟩ := ih ht' h' hdone'
      refine ⟨le_trans hmax i₁, fun hlt => ?_⟩
      have hlt' : (s'.yields calls).2.maxHeld < maxEvents := hlt
      rw [filter_cons]
      split_ifs with hpad
      · refine List.Pairwise.cons (fun x hx => ?_) (i₂ hlt')
        exact hnext (lt_of_le_of_lt i₁ hlt') e rfl (by simpa using hpad) x
          (hmem h' hdone' x hx)
      · exact i₂ hlt'

end VenueOrderSource

/-! ## The whole source -/

theorem numbered_pairwise (n : Nat) (src : List (Event ε)) :
    (numbered n src).Pairwise fun a b => a.seq < b.seq := by
  induction src generalizing n with
  | nil => exact List.Pairwise.nil
  | cons e src ih =>
    unfold numbered
    split
    · exact ih n
    · exact List.Pairwise.cons (fun x hx => (mem_numbered hx).1) (ih (n + 1))

/-- The venue made the first event earlier, or it was recorded earlier at the same time. -/
def Earlier (a b : Event ε) : Prop :=
  a.venue < b.venue ∨ a.venue = b.venue ∧ a.seq < b.seq

/-- The receive times of a source: not before the epoch, not going back, and at most `window`
after the venue times. -/
structure InReceiveOrder (window : Int) (src : List (Event ε)) : Prop where
  nonneg : ∀ e ∈ src, e.padding = false → 0 ≤ e.received
  sorted : (src.filter fun e => !e.padding).Pairwise fun a b => a.received ≤ b.received
  late : ∀ e ∈ src, e.padding = false → e.received - window ≤ e.venue

/-- Every event of a source comes out once with its position, whatever its times are. -/
theorem yields_once [Inhabited ε] (src : List (Event ε)) (window : Int) {calls : Nat}
    (hcalls : src.length < calls) :
    let out := (VenueOrderSource.create src window).yields calls
    (out.1.filter fun e => !e.padding).Perm (numbered 0 src) ∧ out.2.src = [] ∧
      out.2.heap = [] :=
  (wf_create src window).yields calls (fun h => absurd h (by simp
    [VenueOrderSource.create])) hcalls

/-- They come out earliest venue time first. -/
theorem yields_in_order [Inhabited ε] {src : List (Event ε)} {window : Int} {calls : Nat}
    (hcalls : src.length < calls) (ht : InReceiveOrder window src)
    (hcount : (numbered 0 src).length < 1099511627776)
    (hheld : ((VenueOrderSource.create src window).yields calls).2.maxHeld < maxEvents) :
    (((VenueOrderSource.create src window).yields calls).1.filter
      fun e => !e.padding).Pairwise Earlier := by
  have hwf := wf_create src window
  have hdone : (VenueOrderSource.create src window).done = true →
      (VenueOrderSource.create src window).src = [] := fun h => absurd h (by simp
    [VenueOrderSource.create])
  have htimely : VenueOrderSource.Timely (VenueOrderSource.create src window) src :=
    ⟨ht.nonneg, ht.sorted, ht.late, by simpa [VenueOrderSource.create] using hcount,
      fun x hx => absurd hx (by simp [VenueOrderSource.create, contents])⟩
  have hpair := (htimely.yields calls hwf hdone).2 hheld
  obtain ⟨hperm, -⟩ := yields_once src window hcalls
  have hnodup : (((VenueOrderSource.create src window).yields calls).1.filter
      fun e => !e.padding).Pairwise fun a b => a.seq ≠ b.seq :=
    hperm.symm.pairwise ((numbered_pairwise 0 src).imp Nat.ne_of_lt) fun h => h.symm
  refine (hpair.and hnodup).imp ?_
  rintro a b ⟨hlt | ⟨heq, hle⟩, hne⟩
  · exact .inl hlt
  · exact .inr ⟨heq, lt_of_le_of_ne hle hne⟩

end FastMM.Sim
