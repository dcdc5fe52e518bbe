/-
  Sim/InRecordedOrder.lean --- every event put goes on once, in recorded order, as soon as it can.

  Source: `include/fastmm/sim/venue_order.hpp` (`RecordedOrder::put`, `grow_ahead`).

  `items` is what was put so far, by position.  The invariant says where it is: below `next_`
  it was forwarded in order, and from `next_` on it waits, in the ring or in the heap, each
  position in one place.  Growing the ring moves its entries and loses none: they lie within
  one window of the larger size.
-/
import FastMM.Sim.RecordedOrder
import FastMM.Sim.VenueOrdered
import Mathlib.Algebra.Ring.Nat
import Mathlib.Data.List.Induction
set_option autoImplicit false

namespace FastMM.Sim

open Foundation List Option RecordedOrder VenueOrderSource

variable {ε : Type}

/-- What `forward` is to be called with at a position. -/
def forwardAt (items : Nat → Option (Put ε)) (q : Nat) : Option (Forwarded ε) :=
  (items q).bind fun p => p.md.map fun e => ⟨e, p.recorded, p.now⟩

/-- What `forward` is to be called with for the positions from 1 up to `m`. -/
def forwards (items : Nat → Option (Put ε)) (m : Nat) : List (Forwarded ε) :=
  (List.range' 1 (m - 1)).filterMap (forwardAt items)

theorem forwards_succ (items : Nat → Option (Put ε)) {m : Nat} (hm : 1 ≤ m) :
    forwards items (m + 1) = forwards items m ++ (forwardAt items m).toList := by
  have hrange : List.range' 1 (m + 1 - 1) = List.range' 1 (m - 1) ++ [m] := by
    have hlen : m + 1 - 1 = m - 1 + 1 := by omega
    rw [hlen, range'_concat]
    congr 1
    simp
    omega
  unfold forwards
  rw [hrange, filterMap_append]
  rfl

theorem forwards_congr {items items' : Nat → Option (Put ε)} {m : Nat}
    (h : ∀ q, 1 ≤ q → q < m → items' q = items q) : forwards items' m = forwards items m := by
  refine filterMap_congr fun q hq => ?_
  rw [mem_range'_1] at hq
  unfold forwardAt
  rw [h q hq.1 (by omega)]

namespace RecordedOrder

variable {ps : List (Put ε)}
variable {p : Put ε}

/-- The event of an entry of the heap. -/
def mdOf (r : RecordedOrder ε) (w : Waiting) : Option ε :=
  if w.slot = kNoSlot then none else r.waitingBytes[w.slot]?

/-- The slots the entries of the heap use. -/
def usedSlots (r : RecordedOrder ε) : List Nat :=
  (r.waiting.map Waiting.slot).filter fun k => k ≠ kNoSlot

/-- Where the positions put so far are. -/
structure Keeps (items : Nat → Option (Put ε)) (r : RecordedOrder ε) : Prop where
  next_pos : 1 ≤ r.next
  ring : SlotRing Ahead.seq r.ahead.length r.ahead (r.ahead.countP Option.isSome) r.next
  pow : r.ahead = [] ∨ ∃ k, r.ahead.length = 2 ^ k
  ringItem : ∀ (i : Nat) (a : Ahead ε), r.ahead[i]? = some (some a) →
    items a.seq = some ⟨a.md, a.seq, a.recorded, a.venue⟩
  sorted : r.waiting.Pairwise fun a b => a.seq < b.seq
  waitItem : ∀ w ∈ r.waiting, r.next ≤ w.seq ∧
    items w.seq = some ⟨r.mdOf w, w.seq, w.recorded, w.venue⟩
  apart : ∀ w ∈ r.waiting, ∀ (i : Nat) (a : Ahead ε), r.ahead[i]? = some (some a) →
    a.seq ≠ w.seq
  complete : ∀ q p, r.next ≤ q → items q = some p →
    (∃ (i : Nat) (a : Ahead ε), r.ahead[i]? = some (some a) ∧ a.seq = q) ∨
      ∃ w ∈ r.waiting, w.seq = q
  slots : (r.waitingFree ++ r.usedSlots).Perm (List.range r.waitingBytes.length)
  gone : ∀ q, 1 ≤ q → q < r.next → (items q).isSome = true
  sent : r.sent = forwards items r.next

theorem keeps_empty : Keeps (fun _ => none) ({} : RecordedOrder ε) where
  next_pos := le_refl 1
  ring := .empty 0 1
  pow := .inl rfl
  ringItem := fun i a h => by simp at h
  sorted := List.Pairwise.nil
  waitItem := fun w hw => absurd hw not_mem_nil
  apart := fun w hw => absurd hw not_mem_nil
  complete := fun q p _ h => by simp at h
  slots := .refl _
  gone := fun q h₁ h₂ => absurd h₂ (not_lt.mpr h₁)
  sent := rfl

variable {items : Nat → Option (Put ε)} {r : RecordedOrder ε}

theorem Keeps.aheadIndex_eq (h : Keeps items r) {i : Nat} {a : Option (Ahead ε)}
    (ha : r.ahead[i]? = some a) (pos : Nat) : r.aheadIndex pos = pos % r.ahead.length := by
  rcases h.pow with hnil | ⟨k, hk⟩
  · rw [hnil] at ha
    simp at ha
  · rw [aheadIndex, hk, Nat.and_two_pow_sub_one_eq_mod]

/-! ## Release -/

section

variable (h : Keeps items r)
include h

/-- The entry of the ring for the next position goes. -/
theorem Keeps.releaseAhead {a : Ahead ε} (ha : r.aheadNext = some a) :
    Keeps items (r.releaseAhead a) := by
  obtain ⟨hget, hseq⟩ := r.aheadNext_eq_some ha
  obtain ⟨hahead, hwaiting⟩ := r.releaseAhead_size a
  have hitem := h.ringItem _ a hget
  rw [hseq] at hitem
  have hring : SlotRing Ahead.seq r.ahead.length (r.ahead.set (r.aheadIndex r.next) none)
      ((r.ahead.set (r.aheadIndex r.next) none).countP Option.isSome) (r.next + 1) := by
    rw [countP_free hget]
    refine (h.ring.remove hget).up fun i b hb => ?_
    exact hseq ▸ h.ring.remove_ne hget hb
  have hfields : (r.releaseAhead a).next = r.next + 1 ∧
      (r.releaseAhead a).waitingBytes = r.waitingBytes ∧
      (r.releaseAhead a).waitingFree = r.waitingFree ∧
      (r.releaseAhead a).sent = r.sent ++ (forwardAt items r.next).toList := by
    unfold RecordedOrder.releaseAhead forward forwardAt
    rw [hitem]
    cases hmd : a.md with
    | none => exact ⟨rfl, rfl, rfl, (append_nil _).symm⟩
    | some e => exact ⟨rfl, rfl, rfl, rfl⟩
  obtain ⟨hnext, hbytes, hfree, hsent⟩ := hfields
  have hmd : ∀ w, (r.releaseAhead a).mdOf w = r.mdOf w := fun w => by
    unfold mdOf
    rw [hbytes]
  have hne : ∀ w ∈ r.waiting, w.seq ≠ r.next := fun w hw =>
    hseq ▸ (h.apart w hw _ a hget).symm
  refine
    { next_pos := by rw [hnext]; exact Nat.le_succ_of_le h.next_pos
      ring := ?_
      pow := ?_
      ringItem := ?_
      sorted := by rw [hwaiting]; exact h.sorted
      waitItem := ?_
      apart := ?_
      complete := ?_
      slots := ?_
      gone := ?_
      sent := by rw [hsent, hnext, forwards_succ items h.next_pos, h.sent] }
  · rw [hahead, hnext, length_set]
    exact hring
  · rw [hahead, length_set]
    exact h.pow.imp_left fun hnil => by rw [hnil]; rfl
  · intro i b hb
    rw [hahead] at hb
    exact h.ringItem i b (getElem?_free hb).2
  · intro w hw
    rw [hwaiting] at hw
    obtain ⟨hle, hw'⟩ := h.waitItem w hw
    have hne' := hne w hw
    rw [hmd, hnext]
    exact ⟨by omega, hw'⟩
  · intro w hw i b hb
    rw [hwaiting] at hw
    rw [hahead] at hb
    exact h.apart w hw i b (getElem?_free hb).2
  · intro q p hq hp
    rw [hnext] at hq
    rw [hahead, hwaiting]
    rcases h.complete q p (Nat.le_of_succ_le hq) hp with ⟨i, b, hb, hbq⟩ | hw
    · refine .inl ⟨i, b, ?_, hbq⟩
      rw [getElem?_set_ne, hb]
      rintro rfl
      rw [hget] at hb
      obtain rfl : a = b := Option.some.inj (Option.some.inj hb)
      omega
    · exact .inr hw
  · unfold usedSlots
    rw [hwaiting, hfree, hbytes]
    exact h.slots
  intro q h₁ h₂
  rw [hnext] at h₂
  rcases Nat.lt_succ_iff_lt_or_eq.mp h₂ with hlt | rfl
  · exact h.gone q h₁ hlt
  · rw [hitem]
    rfl

/-- The front of the heap, at the next position, goes. -/
theorem Keeps.releaseWaiting {w : Waiting} {rest : List Waiting}
    (hw : r.waiting = w :: rest) (hle : w.seq ≤ r.next) :
    Keeps items (r.releaseWaiting w rest) := by
  obtain ⟨hge, hitem⟩ := h.waitItem w (hw ▸ mem_cons_self)
  have hseq : w.seq = r.next := le_antisymm hle hge
  obtain ⟨hahead, hwaiting⟩ := r.releaseWaiting_size w rest
  have hsorted := h.sorted
  rw [hw, pairwise_cons] at hsorted
  rw [hseq] at hitem
  have hfields : (r.releaseWaiting w rest).next = r.next + 1 ∧
      (r.releaseWaiting w rest).waitingBytes = r.waitingBytes ∧
      (r.releaseWaiting w rest).waitingFree =
        [w.slot].filter (fun k => k ≠ kNoSlot) ++ r.waitingFree ∧
      (r.releaseWaiting w rest).sent = r.sent ++ (forwardAt items r.next).toList := by
    unfold RecordedOrder.releaseWaiting forward forwardAt
    rw [hitem]
    unfold mdOf
    by_cases hslot : w.slot = kNoSlot
    · simp [hslot, hseq]
    simp only [hslot, hseq, ne_eq, not_false_eq_true, if_true, if_false]
    cases hmd : r.waitingBytes[w.slot]? with
    | none => simp [hslot]
    | some e => simp [hslot]
  obtain ⟨hnext, hbytes, hfree, hsent⟩ := hfields
  have hmd : ∀ v, (r.releaseWaiting w rest).mdOf v = r.mdOf v := fun v => by
    unfold mdOf
    rw [hbytes]
  have hmem : ∀ v ∈ rest, v ∈ r.waiting := fun v hv => hw ▸ mem_cons_of_mem w hv
  have hring : ∀ (i : Nat) (a : Ahead ε), r.ahead[i]? = some (some a) → a.seq ≠ r.next :=
    fun i a ha => hseq ▸ h.apart w (hw ▸ mem_cons_self) i a ha
  refine
    { next_pos := by rw [hnext]; exact Nat.le_succ_of_le h.next_pos
      ring := ?_
      pow := by rw [hahead]; exact h.pow
      ringItem := by rw [hahead]; exact h.ringItem
      sorted := by rw [hwaiting]; exact hsorted.2
      waitItem := ?_
      apart := ?_
      complete := ?_
      slots := ?_
      gone := ?_
      sent := by rw [hsent, hnext, forwards_succ items h.next_pos, h.sent] }
  · rw [hahead, hnext]
    exact h.ring.up hring
  · intro v hv
    rw [hwaiting] at hv
    have hlt := hsorted.1 v hv
    rw [hmd, hnext]
    exact ⟨by omega, (h.waitItem v (hmem v hv)).2⟩
  · intro v hv i a ha
    rw [hwaiting] at hv
    rw [hahead] at ha
    exact h.apart v (hmem v hv) i a ha
  · intro q p hq hp
    rw [hnext] at hq
    rw [hahead, hwaiting]
    refine (h.complete q p (Nat.le_of_succ_le hq) hp).imp_right ?_
    rintro ⟨v, hv, hvq⟩
    rw [hw] at hv
    rcases mem_cons.mp hv with rfl | hv
    · omega
    · exact ⟨v, hv, hvq⟩
  · have hslots := h.slots
    unfold usedSlots at hslots ⊢
    rw [hw, map_cons, filter_cons] at hslots
    rw [hwaiting, hfree, hbytes, filter_cons, filter_nil]
    refine List.Perm.trans ?_ hslots
    split
    · exact perm_middle.symm
    · exact .refl _
  · intro q h₁ h₂
    rw [hnext] at h₂
    rcases Nat.lt_succ_iff_lt_or_eq.mp h₂ with hlt | rfl
    · exact h.gone q h₁ hlt
    · rw [hitem]
      rfl

/-- With no entry found the ring holds none for the next position. -/
theorem Keeps.ring_ne (hnone : r.aheadNext = none) (i : Nat)
    (a : Ahead ε) (ha : r.ahead[i]? = some (some a)) : a.seq ≠ r.next := by
  intro hseq
  have hidx : r.aheadIndex r.next = i := by
    rw [h.aheadIndex_eq ha, ← hseq, (h.ring.slot i a ha).1]
  unfold aheadNext at hnone
  rw [hidx, ha] at hnone
  simp [hseq] at hnone

/-- Nothing waits for the next position when neither the ring nor the front is at it. -/
theorem Keeps.next_none (hnone : r.aheadNext = none)
    (hfront : ∀ w ∈ r.waiting, w.seq ≠ r.next) : items r.next = none := by
  cases hitem : items r.next with
  | none => rfl
  | some p =>
    rcases h.complete r.next p (le_refl _) hitem with ⟨i, a, ha, hseq⟩ | ⟨w, hw, hseq⟩
    · exact absurd hseq (h.ring_ne hnone i a ha)
    · exact absurd hseq (hfront w hw)

/-- The loop ends with nothing there for the next position. -/
theorem Keeps.release :
    Keeps items r.release ∧ items r.release.next = none := by
  fun_induction RecordedOrder.release r with
  | case1 r a ha ih => exact ih (h.releaseAhead ha)
  | case2 r ha hw =>
    refine ⟨h, h.next_none ha fun w hmem => ?_⟩
    rw [hw] at hmem
    exact absurd hmem not_mem_nil
  | case3 r ha w rest hw hgt =>
    refine ⟨h, h.next_none ha fun v hv => ?_⟩
    have hsorted := h.sorted
    rw [hw, pairwise_cons] at hsorted
    rw [hw] at hv
    rcases mem_cons.mp hv with rfl | hv
    · exact Nat.ne_of_gt hgt
    · exact Nat.ne_of_gt (Nat.lt_trans hgt (hsorted.1 v hv))
  | case4 r ha w rest hw hle ih => exact ih (h.releaseWaiting hw (not_lt.mp hle))

end

/-! ## Positions that wait -/

/-- The item of one more put. -/
def withPut (items : Nat → Option (Put ε)) (p : Put ε) : Nat → Option (Put ε) :=
  fun q => if q = p.seq then some p else items q

theorem growCap_spec {cap need : Nat} (hpow : ∃ k, cap = 2 ^ k) :
    cap ≤ growCap cap need ∧ ∃ k, growCap cap need = 2 ^ k := by
  fun_induction growCap cap need with
  | case1 cap hcond ih =>
    obtain ⟨k, rfl⟩ := hpow
    obtain ⟨h₁, h₂⟩ := ih ⟨k + 1, (Nat.pow_succ 2 k).symm⟩
    exact ⟨by omega, h₂⟩
  | case2 cap hcond => exact ⟨le_refl _, hpow⟩

/-- Growing the ring moves its entries and loses none. -/
theorem Keeps.growAhead (h : Keeps items r) (seq : Nat) :
    Keeps items (r.growAhead seq) ∧ (r.growAhead seq).next = r.next := by
  obtain ⟨cap, hcap⟩ : ∃ c, c = growCap
    (if r.ahead.isEmpty then 1024 else r.ahead.length) (seq - r.next) := ⟨_, rfl⟩
  have hgrow : r.ahead.length ≤ cap ∧ ∃ k, cap = 2 ^ k := by
    rw [hcap]
    rcases h.pow with hnil | hk
    · obtain ⟨-, hpow⟩ := @growCap_spec 1024 (seq - r.next) ⟨10, rfl⟩
      simp only [hnil, isEmpty_nil, if_true, length_nil]
      exact ⟨Nat.zero_le _, hpow⟩
    have hne : r.ahead.isEmpty = false := by
      obtain ⟨k, hk⟩ := hk
      have hpos := Nat.two_pow_pos k
      cases hl : r.ahead with
      | nil => rw [hl, length_nil] at hk; omega
      | cons a l => rfl
    rw [hne]
    exact growCap_spec hk
  obtain ⟨hle, k, hk⟩ := hgrow
  unfold RecordedOrder.growAhead
  dsimp only
  rw [← hcap]
  split
  · exact ⟨h, rfl⟩
  have hfold : r.rehash cap = (r.ahead.filterMap fun x => x).foldl
      (fun l a => l.set (a.seq % cap) (some a)) (List.replicate cap none) := by
    unfold rehash
    simp only [hk, Nat.and_two_pow_sub_one_eq_mod]
  have hin : ∀ a ∈ r.ahead.filterMap fun x => x, r.next ≤ a.seq ∧ a.seq < r.next + cap := by
    intro a ha
    obtain ⟨i, hi⟩ := mem_filterMap_slots.mp ha
    obtain ⟨-, hlo, hhi⟩ := h.ring.slot i a hi
    exact ⟨hlo, by omega⟩
  have hfar : ∀ a ∈ r.ahead.filterMap fun x => x, ∀ (i : Nat) (b : Ahead ε),
      (List.replicate cap (none : Option (Ahead ε)))[i]? = some (some b) → b.seq ≠ a.seq := by
    intro a _ i b hb
    simp [getElem?_replicate] at hb
  have hnew := SlotRing.refill _ h.ring.values_ne hin hfar (.empty cap r.next)
  rw [← hfold] at hnew
  obtain ⟨hring, hvalues⟩ := hnew
  have hsame : ∀ a, (∃ i : Nat, (r.rehash cap)[i]? = some (some a)) ↔
      ∃ i : Nat, r.ahead[i]? = some (some a) := by
    intro a
    rw [hvalues, mem_filterMap_slots]
    constructor
    · rintro (ha | ⟨i, hi⟩)
      · exact ha
      · simp [getElem?_replicate] at hi
    · exact .inl
  have hcount := hring.count_eq
  have hlen := hring.length
  refine ⟨{ h with ring := ?_, pow := ?_, ringItem := ?_, apart := ?_, complete := ?_ }, rfl⟩
  · rw [hlen, ← hcount]
    exact hring
  · exact .inr ⟨k, hlen.trans hk⟩
  · intro i a ha
    obtain ⟨j, hj⟩ := (hsame a).mp ⟨i, ha⟩
    exact h.ringItem j a hj
  · intro w hw i a ha
    obtain ⟨j, hj⟩ := (hsame a).mp ⟨i, ha⟩
    exact h.apart w hw j a hj
  · intro q p hq hp
    refine (h.complete q p hq hp).imp_left ?_
    rintro ⟨i, a, ha, haq⟩
    obtain ⟨j, hj⟩ := (hsame a).mpr ⟨i, ha⟩
    exact ⟨j, a, hj, haq⟩

theorem withPut_self (p : Put ε) : withPut items p p.seq = some p := if_pos rfl

theorem withPut_of_some {p q : Put ε} {m : Nat} (hnew : items p.seq = none)
    (hq : items m = some q) : withPut items p m = some q := by
  unfold withPut
  rw [if_neg, hq]
  rintro rfl
  rw [hnew] at hq
  simp at hq

/-- A put beyond the next position changes nothing below it. -/
theorem forwards_withPut {m : Nat} (hm : m ≤ p.seq) :
    forwards (withPut items p) m = forwards items m :=
  forwards_congr fun _ _ hq => if_neg (by omega)

section

variable (h : Keeps items r)
include h

/-- A position within the ring waits in its place. -/
theorem Keeps.putRing (hnew : items p.seq = none)
    (hgt : r.next < p.seq) (hin : p.seq - r.next < r.ahead.length)
    (hfree : r.aheadFree p.seq = true) :
    Keeps (withPut items p) { r with
        ahead := r.ahead.set (r.aheadIndex p.seq) (some ⟨p.seq, p.recorded, p.now, p.md⟩) } := by
  have hslot : r.ahead[r.aheadIndex p.seq]? = some none := by
    unfold aheadFree at hfree
    split at hfree
    · assumption
    · simp at hfree
  have hidx := h.aheadIndex_eq hslot p.seq
  have hput := h.ring.put (a := ⟨p.seq, p.recorded, p.now, p.md⟩) (le_of_lt hgt)
    (show p.seq < r.next + r.ahead.length by omega) (fun b hb => by
      rw [hidx] at hslot
      rw [hslot] at hb
      simp at hb)
  rw [← hidx] at hput
  have hold : ∀ (i : Nat) (b : Ahead ε), (r.ahead.set (r.aheadIndex p.seq)
      (some ⟨p.seq, p.recorded, p.now, p.md⟩))[i]? = some (some b) →
      b = ⟨p.seq, p.recorded, p.now, p.md⟩ ∨ r.ahead[i]? = some (some b) :=
    fun i b hb => (getElem?_fill hb).imp_left And.right
  refine { h with
      ring := ?_
      pow := ?_
      ringItem := ?_
      waitItem := ?_
      apart := ?_
      complete := ?_
      gone := ?_
      sent := h.sent.trans (forwards_withPut (le_of_lt hgt)).symm }
  · rw [length_set, countP_fill _ hslot]
    exact hput
  · rw [length_set]
    refine h.pow.imp_left fun hnil => ?_
    rw [hnil] at hslot
    simp at hslot
  · intro i b hb
    rcases hold i b hb with rfl | hb
    · exact withPut_self p
    · exact withPut_of_some hnew (h.ringItem i b hb)
  · intro w hw
    obtain ⟨hle, hitem⟩ := h.waitItem w hw
    exact ⟨hle, withPut_of_some hnew hitem⟩
  · intro w hw i b hb
    rcases hold i b hb with rfl | hb
    · rintro hseq
      have hitem := (h.waitItem w hw).2
      rw [← hseq, hnew] at hitem
      simp at hitem
    · exact h.apart w hw i b hb
  · intro q x hq hx
    by_cases hqp : q = p.seq
    · refine .inl ⟨r.aheadIndex p.seq, ⟨p.seq, p.recorded, p.now, p.md⟩, ?_, hqp.symm⟩
      exact getElem?_set_self (List.getElem?_eq_some_iff.mp hslot).1
    unfold withPut at hx
    rw [if_neg hqp] at hx
    refine (h.complete q x hq hx).imp_left ?_
    rintro ⟨i, b, hb, hbq⟩
    refine ⟨i, b, ?_, hbq⟩
    rw [getElem?_set_ne, hb]
    rintro rfl
    rw [hslot] at hb
    simp at hb
  · intro q h₁ h₂
    obtain ⟨x, hx⟩ := isSome_iff_exists.mp (h.gone q h₁ h₂)
    rw [withPut_of_some hnew hx]
    rfl

/-- A slot of the heap takes an event: fresh, as the slots' numbers fit in 32 bits. -/
theorem Keeps.storeWaiting (md : ε)
    (hfit : (r.storeWaiting md).2.waitingBytes.length ≤ kNoSlot) :
    ∃ slot bytes free, r.storeWaiting md =
        (slot, { r with waitingBytes := bytes, waitingFree := free }) ∧ slot ≠ kNoSlot ∧
      bytes[slot]? = some md ∧
      (∀ k, k ∈ r.usedSlots → bytes[k]? = r.waitingBytes[k]?) ∧
      (free ++ slot :: r.usedSlots).Perm (List.range bytes.length) := by
  have hslots := h.slots
  have hmem : ∀ k, k ∈ r.waitingFree ++ r.usedSlots → k < r.waitingBytes.length := fun k hk =>
    mem_range.mp (hslots.mem_iff.mp hk)
  unfold RecordedOrder.storeWaiting at hfit ⊢
  cases hfree : r.waitingFree with
  | nil =>
    simp only [hfree, length_append, length_singleton] at hfit
    rw [hfree, nil_append] at hslots
    have hmod : r.waitingBytes.length % 4294967296 = r.waitingBytes.length := by
      unfold kNoSlot at hfit
      omega
    refine ⟨r.waitingBytes.length, r.waitingBytes ++ [md], [], ?_, ?_, ?_, ?_, ?_⟩
    · simp only [hmod]
    · omega
    · simp
    · intro k hk
      exact getElem?_append_left (hmem k (mem_append_right _ hk))
    · rw [nil_append, length_append, length_singleton, range_succ]
      exact (hslots.cons _).trans (perm_append_singleton _ _).symm
  | cons slot free =>
    simp only [hfree, length_set] at hfit
    rw [hfree] at hslots
    have hlt : slot < r.waitingBytes.length := hmem slot (by rw [hfree]; simp)
    have hfresh : slot ∉ r.usedSlots := by
      have hnodup := hslots.nodup_iff.mpr nodup_range
      rw [cons_append, nodup_cons] at hnodup
      exact fun hk => hnodup.1 (mem_append_right _ hk)
    refine ⟨slot, r.waitingBytes.set slot md, free, rfl, by omega, ?_, ?_, ?_⟩
    · exact getElem?_set_self hlt
    · intro k hk
      have hne : slot ≠ k := fun he => hfresh (he ▸ hk)
      exact getElem?_set_ne hne
    · rw [length_set]
      exact perm_middle.trans hslots

section

variable (hnew : items p.seq = none) (hgt : r.next < p.seq)
include hnew hgt

/-- An entry joins the heap. -/
theorem Keeps.pushWaiting {slot : Nat} {bytes : List ε}
    {free : List Nat}
    (hold : ∀ k, k ∈ r.usedSlots → bytes[k]? = r.waitingBytes[k]?)
    (hmd : (if slot = kNoSlot then none else bytes[slot]?) = p.md)
    (hslots : (free ++ ([slot].filter (fun k => k ≠ kNoSlot) ++ r.usedSlots)).Perm
      (List.range bytes.length)) :
    Keeps (withPut items p) (pushWaiting { r with waitingBytes := bytes, waitingFree := free }
        ⟨p.seq, p.recorded, p.now, slot⟩) := by
  obtain ⟨w, hw⟩ : ∃ w : Waiting, w = ⟨p.seq, p.recorded, p.now, slot⟩ := ⟨_, rfl⟩
  have hperm : (List.orderedInsert (fun a b => a.seq ≤ b.seq) w r.waiting).Perm
      (w :: r.waiting) := perm_orderedInsert _ _ _
  have hne : ∀ v ∈ r.waiting, v.seq ≠ p.seq := by
    intro v hv hseq
    have hitem := (h.waitItem v hv).2
    rw [hseq, hnew] at hitem
    simp at hitem
  have hmdOf : ∀ v ∈ r.waiting, mdOf { r with waitingBytes := bytes, waitingFree := free } v =
      r.mdOf v := by
    intro v hv
    unfold mdOf
    split_ifs with hslot
    · rfl
    · refine hold _ (mem_filter.mpr ⟨mem_map_of_mem hv, ?_⟩)
      simpa using hslot
  rw [← hw]
  refine { h with
      ringItem := ?_
      sorted := ?_
      waitItem := ?_
      apart := ?_
      complete := ?_
      slots := ?_
      gone := ?_
      sent := h.sent.trans (forwards_withPut (le_of_lt hgt)).symm }
  · exact fun i b hb => withPut_of_some hnew (h.ringItem i b hb)
  · have hle : (List.orderedInsert (fun a b => a.seq ≤ b.seq) w r.waiting).Pairwise
        fun a b => a.seq ≤ b.seq := by
      exact List.Pairwise.orderedInsert w r.waiting (h.sorted.imp le_of_lt)
    have hdist : (List.orderedInsert (fun a b => a.seq ≤ b.seq) w r.waiting).Pairwise
        fun a b => a.seq ≠ b.seq := by
      refine hperm.symm.pairwise ?_ fun hab => hab.symm
      refine List.Pairwise.cons (fun v hv => ?_) (h.sorted.imp Nat.ne_of_lt)
      rw [hw]
      exact (hne v hv).symm
    exact (hle.and hdist).imp fun hab => lt_of_le_of_ne hab.1 hab.2
  · intro v hv
    rcases mem_cons.mp (hperm.mem_iff.mp hv) with rfl | hv
    · subst hw
      refine ⟨le_of_lt hgt, ?_⟩
      rw [withPut_self]
      show some p = some ⟨if slot = kNoSlot then none else bytes[slot]?, p.seq, p.recorded, p.now⟩
      rw [hmd]
    · obtain ⟨hle, hitem⟩ := h.waitItem v hv
      refine ⟨hle, withPut_of_some hnew ?_⟩
      rw [hitem]
      show _ = some (Put.mk (mdOf { r with waitingBytes := bytes, waitingFree := free } v) _ _ _)
      rw [hmdOf v hv]
  · intro v hv i b hb
    rcases mem_cons.mp (hperm.mem_iff.mp hv) with rfl | hv
    · rw [hw]
      intro hseq
      have hitem := h.ringItem i b hb
      have hseq' : b.seq = p.seq := hseq
      rw [hseq', hnew] at hitem
      simp at hitem
    · exact h.apart v hv i b hb
  · intro q x hq hx
    by_cases hqp : q = p.seq
    · exact .inr ⟨w, hperm.mem_iff.mpr mem_cons_self, by rw [hw]; exact hqp.symm⟩
    unfold withPut at hx
    rw [if_neg hqp] at hx
    refine (h.complete q x hq hx).imp_right ?_
    rintro ⟨v, hv, hvq⟩
    exact ⟨v, hperm.mem_iff.mpr (mem_cons_of_mem w hv), hvq⟩
  · have hmap := (hperm.map Waiting.slot).filter fun k => decide (k ≠ kNoSlot)
    rw [map_cons, ← singleton_append, filter_append, hw] at hmap
    unfold usedSlots at hslots ⊢
    rw [hw]
    exact (hmap.append_left free).trans hslots
  · intro q h₁ h₂
    obtain ⟨x, hx⟩ := isSome_iff_exists.mp (h.gone q h₁ h₂)
    rw [withPut_of_some hnew hx]
    rfl

/-- A position beyond the ring waits in the heap. -/
theorem Keeps.wait (hfit : (r.wait p).waitingBytes.length ≤ kNoSlot) :
    Keeps (withPut items p) (r.wait p) := by
  unfold RecordedOrder.wait at hfit ⊢
  cases hmd : p.md with
  | none =>
    have hslots : (r.waitingFree ++ ([kNoSlot].filter (fun k => k ≠ kNoSlot) ++
        r.usedSlots)).Perm (List.range r.waitingBytes.length) := h.slots
    refine h.pushWaiting hnew hgt (fun _ _ => rfl) ?_ hslots
    rw [hmd, if_pos rfl]
  | some md =>
    rw [hmd] at hfit
    obtain ⟨slot, bytes, free, hstore, hne, hget, hold, hslots⟩ := h.storeWaiting md hfit
    dsimp only
    rw [hstore]
    refine h.pushWaiting hnew hgt hold ?_ ?_
    · rw [if_neg hne, hget, hmd]
    · rw [filter_cons_of_pos (by simpa using hne), filter_nil]
      exact hslots

/-- A position beyond the next one waits. -/
theorem Keeps.putAhead (hfit : (r.putAhead p).waitingBytes.length ≤ kNoSlot) :
    Keeps (withPut items p) (r.putAhead p) ∧ (r.putAhead p).next = r.next := by
  unfold RecordedOrder.putAhead at hfit ⊢
  generalize hgrown : (if p.seq - r.next ≥ r.ahead.length ∧ r.ahead.length < kMaxAhead then
    r.growAhead p.seq else r) = grown at hfit ⊢
  have hg : Keeps items grown ∧ grown.next = r.next := by
    rw [← hgrown]
    split
    · exact h.growAhead p.seq
    · exact ⟨h, rfl⟩
  obtain ⟨hkeeps, hnext⟩ := hg
  rw [← hnext] at hgt ⊢
  dsimp only at hfit ⊢
  by_cases hring : p.seq - grown.next < grown.ahead.length ∧ grown.aheadFree p.seq = true
  · rw [if_pos hring]
    exact ⟨hkeeps.putRing hnew hgt hring.1 hring.2, rfl⟩
  rw [if_neg hring] at hfit ⊢
  refine ⟨hkeeps.wait hnew hgt hfit, ?_⟩
  unfold RecordedOrder.wait
  cases p.md with
  | none => rfl
  | some md => unfold RecordedOrder.storeWaiting; cases grown.waitingFree <;> rfl

end

/-- The next position goes at once. -/
theorem Keeps.forwardNext (hnew : items p.seq = none) (hseq : p.seq = r.next) :
    Keeps (withPut items p) { r.forward p.md p.recorded p.now with next := r.next + 1 } := by
  have hring : ∀ (i : Nat) (a : Ahead ε), r.ahead[i]? = some (some a) → a.seq ≠ r.next := by
    intro i a ha he
    have hitem := h.ringItem i a ha
    rw [he, ← hseq, hnew] at hitem
    simp at hitem
  have hwait : ∀ w ∈ r.waiting, w.seq ≠ r.next := by
    intro w hw he
    have hitem := (h.waitItem w hw).2
    rw [he, ← hseq, hnew] at hitem
    simp at hitem
  have hsent : (r.forward p.md p.recorded p.now).sent =
      forwards (withPut items p) (r.next + 1) := by
    have hself : withPut items p r.next = some p := by rw [← hseq, withPut_self]
    rw [forwards_succ _ h.next_pos, forwards_withPut (le_of_eq hseq.symm), ← h.sent]
    unfold forward forwardAt
    rw [hself, bind_some]
    cases p.md with
    | none => exact (append_nil _).symm
    | some e => rfl
  have hkeep : Keeps (withPut items p)
      { r with next := r.next + 1, sent := (r.forward p.md p.recorded p.now).sent } :=
    { h with
      next_pos := Nat.le_succ_of_le h.next_pos
      ring := h.ring.up hring
      ringItem := fun i a ha => withPut_of_some hnew (h.ringItem i a ha)
      waitItem := fun w hw => by
        obtain ⟨hle, hitem⟩ := h.waitItem w hw
        exact ⟨lt_of_le_of_ne hle (hwait w hw).symm, withPut_of_some hnew hitem⟩
      complete := fun q x hq hx => by
        have hq' : r.next + 1 ≤ q := hq
        unfold withPut at hx
        rw [if_neg (by omega)] at hx
        exact h.complete q x (Nat.le_of_succ_le hq') hx
      gone := fun q h₁ h₂ => by
        rcases Nat.lt_succ_iff_lt_or_eq.mp h₂ with hlt | rfl
        · obtain ⟨x, hx⟩ := isSome_iff_exists.mp (h.gone q h₁ hlt)
          rw [withPut_of_some hnew hx]
          rfl
        · rw [← hseq, withPut_self]
          rfl
      sent := hsent }
  have hsame : { r.forward p.md p.recorded p.now with next := r.next + 1 } =
      { r with next := r.next + 1, sent := (r.forward p.md p.recorded p.now).sent } := by
    cases p.md <;> rfl
  rw [hsame]
  exact hkeep

/-- A put keeps track of every position, and leaves the next one not yet put. -/
theorem Keeps.put (hnone : items r.next = none)
    (hnew : items p.seq = none) (hpos : 1 ≤ p.seq)
    (hfit : (r.put p).waitingBytes.length ≤ kNoSlot) :
    Keeps (withPut items p) (r.put p) ∧ withPut items p (r.put p).next = none := by
  unfold RecordedOrder.put at hfit ⊢
  by_cases hgt : p.seq > r.next
  · rw [if_pos hgt] at hfit ⊢
    obtain ⟨hkeeps, hnext⟩ := h.putAhead hnew hgt hfit
    refine ⟨hkeeps, ?_⟩
    unfold withPut
    rw [hnext, if_neg (Nat.ne_of_lt hgt), hnone]
  have hseq : p.seq = r.next := by
    rcases Nat.lt_or_ge p.seq r.next with hlt | hge
    · have hgone := h.gone p.seq hpos hlt
      rw [hnew] at hgone
      simp at hgone
    · omega
  have hnext : (r.forward p.md p.recorded p.now).next = r.next := by
    cases p.md <;> rfl
  rw [if_neg hgt]
  dsimp only
  rw [hnext, if_pos hseq]
  exact (h.forwardNext hnew hseq).release

end

/-! ## Runs -/

theorem bytes_release (r : RecordedOrder ε) : r.release.waitingBytes = r.waitingBytes := by
  have hforward : ∀ (r : RecordedOrder ε) md x y,
      (r.forward md x y).waitingBytes = r.waitingBytes := by
    intro r md x y
    unfold forward
    split <;> rfl
  fun_induction release r with
  | case1 r a ha ih => exact ih.trans (hforward _ _ _ _)
  | case2 r ha hw => rfl
  | case3 r ha w rest hw hgt => rfl
  | case4 r ha w rest hw hle ih =>
    refine ih.trans ?_
    unfold releaseWaiting
    dsimp only
    split
    · split
      · exact hforward _ _ _ _
      · exact hforward _ _ _ _
    · split <;> rfl

/-- A put keeps the slots of the heap and adds one at most. -/
theorem bytes_put (r : RecordedOrder ε) (p : Put ε) :
    r.waitingBytes.length ≤ (r.put p).waitingBytes.length ∧
      (r.put p).waitingBytes.length ≤ r.waitingBytes.length + 1 := by
  have hstore : ∀ (r : RecordedOrder ε) md,
      r.waitingBytes.length ≤ (r.storeWaiting md).2.waitingBytes.length ∧
        (r.storeWaiting md).2.waitingBytes.length ≤ r.waitingBytes.length + 1 := by
    intro r md
    unfold storeWaiting
    cases r.waitingFree with
    | nil => simp
    | cons slot free => simp
  unfold RecordedOrder.put
  split
  · unfold putAhead
    generalize hgrown : (if p.seq - r.next ≥ r.ahead.length ∧ r.ahead.length < kMaxAhead then
      r.growAhead p.seq else r) = grown
    have hbytes : grown.waitingBytes = r.waitingBytes := by
      rw [← hgrown]
      split
      · unfold growAhead
        generalize growCap _ _ = cap
        dsimp only
        split <;> rfl
      · rfl
    rw [← hbytes]
    dsimp only
    split
    · exact ⟨le_refl _, Nat.le_succ _⟩
    unfold RecordedOrder.wait
    cases p.md with
    | none => exact ⟨le_refl _, Nat.le_succ _⟩
    | some md => exact hstore grown md
  · rw [bytes_release]
    have hforward : (r.forward p.md p.recorded p.now).waitingBytes = r.waitingBytes := by
      cases p.md <;> rfl
    split
    · exact hforward ▸ ⟨le_refl _, Nat.le_succ _⟩
    · exact hforward ▸ ⟨le_refl _, Nat.le_succ _⟩

theorem bytes_run (r : RecordedOrder ε) (ps : List (Put ε)) :
    r.waitingBytes.length ≤ (r.run ps).waitingBytes.length ∧
      (r.run ps).waitingBytes.length ≤ r.waitingBytes.length + ps.length := by
  induction ps generalizing r with
  | nil => exact ⟨le_refl _, le_refl _⟩
  | cons p ps ih =>
    obtain ⟨h₁, h₂⟩ := bytes_put r p
    obtain ⟨h₃, h₄⟩ := ih (r.put p)
    rw [length_cons]
    exact ⟨h₁.trans h₃, show ((r.put p).run ps).waitingBytes.length ≤ _ by omega⟩

/-- Fewer than 2^32 positions never run out of slots. -/
theorem bytes_fit (hps : ps.length ≤ kNoSlot) :
    (RecordedOrder.run {} ps).waitingBytes.length ≤ kNoSlot := by
  have hle := (bytes_run {} ps).2
  simp only [length_nil] at hle
  omega

/-- What was put at each position. -/
def itemsOf (ps : List (Put ε)) (q : Nat) : Option (Put ε) := ps.find? fun p => p.seq = q

theorem itemsOf_isSome {q : Nat} : (itemsOf ps q).isSome = true ↔ q ∈ ps.map Put.seq := by
  unfold itemsOf
  rw [find?_isSome, List.mem_map]
  simp

theorem itemsOf_append (hnew : p.seq ∉ ps.map Put.seq) :
    itemsOf (ps ++ [p]) = withPut (itemsOf ps) p := by
  funext q
  unfold withPut
  by_cases hq : q = p.seq
  · subst hq
    rw [if_pos rfl]
    have hnone : itemsOf ps p.seq = none := by
      rw [← not_isSome_iff_eq_none, itemsOf_isSome]
      exact hnew
    unfold itemsOf at hnone ⊢
    rw [find?_append, hnone]
    simp
  · rw [if_neg hq]
    unfold itemsOf
    rw [find?_append]
    have hlast : ([p].find? fun p => p.seq = q) = none := by
      simp [Ne.symm hq]
    rw [hlast, or_none]

theorem run_append (r : RecordedOrder ε) (ps qs : List (Put ε)) :
    r.run (ps ++ qs) = (r.run ps).run qs := foldl_append

/-- Distinct positions put in any order: each is tracked, and the next one is not yet put. -/
theorem keeps_run (ps : List (Put ε)) (hpos : ∀ p ∈ ps, 1 ≤ p.seq) (hnodup : (ps.map Put.seq).Nodup)
    (hfit : (RecordedOrder.run {} ps).waitingBytes.length ≤ kNoSlot) :
    Keeps (itemsOf ps) (RecordedOrder.run {} ps) ∧
      itemsOf ps (RecordedOrder.run {} ps).next = none := by
  induction ps using List.reverseRecOn with
  | nil => exact ⟨keeps_empty, rfl⟩
  | append_singleton ps p ih =>
    rw [run_append] at hfit ⊢
    rw [map_append, nodup_append] at hnodup
    obtain ⟨hps, -, hdisj⟩ := hnodup
    have hnew : p.seq ∉ ps.map Put.seq := fun hmem =>
      hdisj p.seq hmem p.seq (by simp) rfl
    obtain ⟨hkeeps, hnext⟩ := ih (fun q hq => hpos q (mem_append_left _ hq)) hps
      ((bytes_run _ [p]).1.trans hfit)
    have hnone : itemsOf ps p.seq = none := by
      rw [← not_isSome_iff_eq_none, itemsOf_isSome]
      exact hnew
    rw [itemsOf_append hnew]
    exact hkeeps.put hnext hnone (hpos p (by simp)) hfit

/-- The first position not yet put. -/
def IsFirstMissing (ps : List (Put ε)) (m : Nat) : Prop :=
  m ∉ ps.map Put.seq ∧ 1 ≤ m ∧ ∀ q, 1 ≤ q → q < m → q ∈ ps.map Put.seq

/-- What goes on so far: the events below the first position not yet put, in order. -/
theorem sent_run (ps : List (Put ε)) (hpos : ∀ p ∈ ps, 1 ≤ p.seq) (hnodup : (ps.map Put.seq).Nodup)
    (hfit : (RecordedOrder.run {} ps).waitingBytes.length ≤ kNoSlot) :
    ∃ m, IsFirstMissing ps m ∧ (RecordedOrder.run {} ps).sent = forwards (itemsOf ps) m := by
  obtain ⟨hkeeps, hnext⟩ := keeps_run ps hpos hnodup hfit
  refine ⟨(RecordedOrder.run {} ps).next, ⟨?_, hkeeps.next_pos, fun q h₁ h₂ => ?_⟩, hkeeps.sent⟩
  · rw [← itemsOf_isSome, hnext]
    simp
  · exact itemsOf_isSome.mp (hkeeps.gone q h₁ h₂)

/-- Once every position is put nothing waits. -/
theorem nothing_waits {n : Nat} (hperm : (ps.map Put.seq).Perm (List.range' 1 n))
    (hfit : (RecordedOrder.run {} ps).waitingBytes.length ≤ kNoSlot) :
    (RecordedOrder.run {} ps).waiting = [] ∧
      (∀ a, some a ∉ (RecordedOrder.run {} ps).ahead) ∧
      (RecordedOrder.run {} ps).sent = forwards (itemsOf ps) (n + 1) := by
  have hmem : ∀ q, q ∈ ps.map Put.seq ↔ 1 ≤ q ∧ q < 1 + n := fun q => by
    rw [hperm.mem_iff, mem_range'_1]
  have hpos : ∀ p ∈ ps, 1 ≤ p.seq := fun p hp =>
    ((hmem p.seq).mp (mem_map_of_mem hp)).1
  obtain ⟨hkeeps, hnext⟩ := keeps_run ps hpos (hperm.nodup_iff.mpr (nodup_range' 1)) hfit
  have hend : (RecordedOrder.run {} ps).next = n + 1 := by
    have hout : (RecordedOrder.run {} ps).next ∉ ps.map Put.seq := by
      rw [← itemsOf_isSome, hnext]
      simp
    rw [hmem] at hout
    have hle := hkeeps.next_pos
    by_contra hne
    have hin := (hmem (n + 1)).mp (itemsOf_isSome.mp (hkeeps.gone (n + 1) (by omega) (by omega)))
    omega
  have hout : ∀ q, (RecordedOrder.run {} ps).next ≤ q → itemsOf ps q = none := by
    intro q hq
    rw [← not_isSome_iff_eq_none, itemsOf_isSome, hmem]
    omega
  refine ⟨eq_nil_iff_forall_not_mem.mpr fun w hw => ?_, fun a ha => ?_, ?_⟩
  · obtain ⟨hle, hitem⟩ := hkeeps.waitItem w hw
    rw [hout _ hle] at hitem
    simp at hitem
  · obtain ⟨i, hi⟩ := mem_iff_getElem?.mp ha
    have hitem := hkeeps.ringItem i a hi
    rw [hout _ (hkeeps.ring.slot i a hi).2.1] at hitem
    simp at hitem
  · rw [hkeeps.sent, hend]

/-- What was put first is what the whole run has at its positions. -/
theorem itemsOf_take {k q : Nat} (hq : q ∈ (ps.take k).map Put.seq) :
    itemsOf ps q = itemsOf (ps.take k) q := by
  obtain ⟨x, hx⟩ := isSome_iff_exists.mp (itemsOf_isSome.mpr hq)
  have hsplit : itemsOf (ps.take k ++ ps.drop k) q =
      (itemsOf (ps.take k) q).or (itemsOf (ps.drop k) q) := find?_append
  rw [take_append_drop] at hsplit
  rw [hsplit, hx]
  rfl

/-- Whatever order the positions come in, an event goes on with the put that closes the last
gap below it. -/
theorem sent_asap {n : Nat} (hperm : (ps.map Put.seq).Perm (List.range' 1 n))
    (hfit : (RecordedOrder.run {} ps).waitingBytes.length ≤ kNoSlot) (k : Nat) :
    ∃ m, IsFirstMissing (ps.take k) m ∧
      (RecordedOrder.run {} (ps.take k)).sent = forwards (itemsOf ps) m := by
  have hpos : ∀ p ∈ ps.take k, 1 ≤ p.seq := by
    intro p hp
    have hmem := hperm.mem_iff.mp (mem_map_of_mem (mem_of_mem_take hp))
    exact (mem_range'_1.mp hmem).1
  have hnodup : ((ps.take k).map Put.seq).Nodup := by
    rw [map_take]
    exact (hperm.nodup_iff.mpr (nodup_range' 1)).sublist (take_sublist k _)
  have hfit' : (RecordedOrder.run {} (ps.take k)).waitingBytes.length ≤ kNoSlot := by
    have hrun := (bytes_run (RecordedOrder.run {} (ps.take k)) (ps.drop k)).1
    rw [← run_append, take_append_drop] at hrun
    exact hrun.trans hfit
  obtain ⟨m, hm, hsent⟩ := sent_run (ps.take k) hpos hnodup hfit'
  refine ⟨m, hm, hsent.trans (forwards_congr fun q hq₁ hq => ?_)⟩
  exact (itemsOf_take (hm.2.2 q hq₁ hq)).symm

end RecordedOrder

/-! ## The recorded order restored -/

/-- Venue order yields every event of a source once with its position, earliest venue time
first when the source is in receive order; and recorded order hands the events of any
permutation of the positions on in increasing position, each with the put that closes the last
gap below it, until none is left. -/
theorem recorded_order_restored [Inhabited ε] {src : List (Event ε)} {window : Int} {calls : Nat}
    (hcalls : src.length < calls) {ps : List (Put ε)} {n : Nat}
    (hperm : (ps.map Put.seq).Perm (List.range' 1 n))
    (hfit : (RecordedOrder.run {} ps).waitingBytes.length ≤ kNoSlot) :
    let out := (VenueOrderSource.create src window).yields calls
    let events := out.1.filter fun e => !e.padding
    (events.Perm (numbered 0 src) ∧ out.2.src = [] ∧ out.2.heap = []) ∧
      (InReceiveOrder window src → (numbered 0 src).length < 1099511627776 →
        out.2.maxHeld < maxEvents → events.Pairwise Earlier) ∧
      (∀ k, ∃ m, RecordedOrder.IsFirstMissing (ps.take k) m ∧
        (RecordedOrder.run {} (ps.take k)).sent = forwards (itemsOf ps) m) ∧
      (RecordedOrder.run {} ps).waiting = [] ∧
      (∀ a, some a ∉ (RecordedOrder.run {} ps).ahead) ∧
      (RecordedOrder.run {} ps).sent = forwards (itemsOf ps) (n + 1) :=
  ⟨yields_once src window hcalls, yields_in_order hcalls, sent_asap hperm hfit,
    nothing_waits hperm hfit⟩

def twoTrades : List (Event Nat) :=
  [{ exchTs := 7, recvTs := 8, body := 10 }, { exchTs := 5, recvTs := 9, body := 20 }]

def swappedPuts : List (Put Nat) := [⟨some 20, 2, 9, 5⟩, ⟨some 10, 1, 8, 7⟩]

/-- Two trades received in the other order than the venue's are swapped, and swapped back. -/
theorem swapped_trades_restored : (((VenueOrderSource.create twoTrades 4).yields 3).1.filter
      fun e => !e.padding).Perm [{ exchTs := 7, recvTs := 8, seq := 1, body := 10 },
          { exchTs := 5, recvTs := 9, seq := 2, body := 20 }] ∧
      (RecordedOrder.run {} swappedPuts).sent = [⟨10, 8, 7⟩, ⟨20, 9, 5⟩] := by
  have hperm : (swappedPuts.map Put.seq).Perm (List.range' 1 2) := List.Perm.swap 1 2 []
  have hfit : (RecordedOrder.run {} swappedPuts).waitingBytes.length ≤ kNoSlot :=
    bytes_fit (by decide)
  have hcalls : twoTrades.length < 3 := by decide
  obtain ⟨⟨hevents, -⟩, -, -, -, -, hsent⟩ :=
    @recorded_order_restored Nat _ twoTrades 4 3 hcalls swappedPuts 2 hperm hfit
  exact ⟨hevents, hsent.trans (by decide)⟩

/-- Receive times below the epoch, where the bound on what was read starts: the second event
is the earlier one, within the window, and still comes second. -/
theorem yields_before_epoch :
    let early : Event Nat := { exchTs := -5, recvTs := -10, body := 1 }
    let earlier : Event Nat := { exchTs := -8, recvTs := -8, body := 2 }
    let out := (VenueOrderSource.create [early, earlier] 0).yields 3
    early.received ≤ earlier.received ∧ early.received ≤ early.venue + 0 ∧
      earlier.received ≤ earlier.venue + 0 ∧ out.2.maxHeld < maxEvents ∧
      out.1 = [{ early with seq := 1 }, { earlier with seq := 2 }] ∧
      ¬ out.1.Pairwise Earlier := by
  intro early earlier out
  have hout : out.2.maxHeld < maxEvents ∧
      out.1 = [{ early with seq := 1 }, { earlier with seq := 2 }] := by
    simp [early, earlier, out, VenueOrderSource.yields, VenueOrderSource.next,
      freeOut, VenueOrderSource.read, wantsMore,
      VenueOrderSource.hold, takeSlot, VenueOrderSource.write,
      yieldHeld, VenueOrderSource.create, slotData,
      DaryHeap.push, DaryHeap.siftUp, DaryHeap.pop, Event.venue, Event.received, kSlotWords,
      maxEvents, Held.slot, Held.seq, packKey, kSlotBits]
  refine ⟨by decide, by decide, by decide, hout.1, hout.2, ?_⟩
  rw [hout.2]
  simp [early, earlier, Earlier, Event.venue]

end FastMM.Sim
