/-
  Mdp3/Arbitration.lean --- every packet of the channel is processed once or reported lost.

  Source: `src/codecs/mdp3/mdp3_feed.cpp` (`on_incremental`, `drain`, `advance_to`,
  `expire_held`, `on_gap`).

  The invariant is `Arbitrated`: the held packets lie within one window above `expected_`,
  each in its own slot, and the history cuts the numbers from the first packet up to
  `expected_` into packets processed and runs lost.  A packet processed and a run lost each
  extend the cut at its end; the loops only repeat these two.  Between calls nothing held is
  next (`Ahead`).  All loops end: each is defined by a measure that falls, `drain` by the
  packets held and the others by the distance to the target.
-/
import FastMM.Foundation.SlotRing
import FastMM.Mdp3.Feed
set_option autoImplicit false

namespace FastMM.Mdp3

open Foundation Entry List

variable {δ σ : Type}

/-! ## The history -/

/-- What the entry did to the numbers of the channel. -/
def Entry.stretch : Entry δ → Option Stretch
  | .decoded seq _ => some (.taken seq)
  | .lost first count _ => some (.lost first count)
  | .marked _ => none

/-- The numbers of the channel, as the history cuts them. -/
def stretches (log : List (Entry δ)) : List Stretch :=
  log.filterMap stretch

@[simp] theorem stretches_append (l m : List (Entry δ)) :
    stretches (l ++ m) = stretches l ++ stretches m := filterMap_append

/-- Each loss is answered at once by marking every instrument then known. -/
def Answered : List (Entry δ) → Prop
  | [] => True
  | .lost _ _ known :: .marked d :: log => known.AllMarked d ∧ Answered log
  | .lost _ _ _ :: _ => False
  | .decoded _ _ :: log => Answered log
  | .marked _ :: log => Answered log

theorem Answered.append {l m : List (Entry δ)} (hl : Answered l) (hm : Answered m) :
    Answered (l ++ m) := by
  fun_induction Answered l with
  | case1 => exact hm
  | case2 a n known d log ih => exact ⟨hl.1, ih hl.2⟩
  | case3 => exact hl.elim
  | case4 seq bytes log ih => exact ih hl
  | case5 d log ih => exact ih hl

/-- A loss of an answered history, and the marking after it. -/
theorem Answered.marked_next {l pre post : List (Entry δ)} {first count : Nat}
    {known : Mdp3Decoder δ} (hl : Answered l) (h : l = pre ++ .lost first count known :: post) :
    ∃ d rest, post = .marked d :: rest ∧ known.AllMarked d := by
  subst h
  induction pre using Answered.induct with
  | case1 =>
    cases post with
    | nil => exact hl.elim
    | cons e rest =>
      cases e with
      | marked d => exact ⟨d, rest, rfl, hl.1⟩
      | decoded seq bytes => exact hl.elim
      | lost a n k => exact hl.elim
  | case2 a n k d log ih => exact ih hl.2
  | case3 a n k log hne =>
    cases log with
    | nil => exact hl.elim
    | cons e rest =>
      cases e with
      | marked d => exact absurd rfl (hne d rest)
      | decoded seq bytes => exact hl.elim
      | lost a n k => exact hl.elim
  | case4 seq bytes log ih => exact ih hl
  | case5 d log ih => exact ih hl

namespace Mdp3Decoder

variable (d : Mdp3Decoder δ)

theorem markRecovering_length (i : Nat) :
    (d.markRecovering i).recovering.length = d.recovering.length := by
  unfold markRecovering
  split
  · exact length_set
  · rfl

/-- An instrument marked stays so, and the one that is marked now is. -/
theorem markRecovering_get {i j : Nat} (hj : j < d.recovering.length)
    (h : j = i ∨ d.recovering[j]? = some true) :
    (d.markRecovering i).recovering[j]? = some true := by
  unfold markRecovering
  split_ifs with hfalse
  · rw [getElem?_set]
    split
    · rename_i hij
      rw [if_pos (hij ▸ hj)]
    · rename_i hij
      exact h.resolve_left fun he => hij he.symm
  · rcases h with rfl | h
    · rw [getElem?_eq_getElem hj] at hfalse ⊢
      simpa using hfalse
    · exact h

/-- `mark_all_recovering` marks every known instrument. -/
theorem allMarked_markAllRecovering : d.AllMarked d.markAllRecovering := by
  have hfold : ∀ n, ((List.range n).foldl markRecovering d).recovering.length =
      d.recovering.length ∧ ∀ i, i < n → i < d.recovering.length →
        ((List.range n).foldl markRecovering d).recovering[i]? = some true := by
    intro n
    induction n with
    | zero => exact ⟨rfl, fun i hi => absurd hi (Nat.not_lt_zero i)⟩
    | succ n ih =>
      obtain ⟨hlen, hget⟩ := ih
      rw [range_succ, foldl_append]
      refine ⟨(markRecovering_length _ n).trans hlen, fun i hi hid => ?_⟩
      refine markRecovering_get _ (hlen ▸ hid) ?_
      rcases Nat.lt_succ_iff_lt_or_eq.mp hi with hlt | rfl
      · exact .inr (hget i hlt hid)
      · exact .inl rfl
  exact fun i hi => (hfold _).2 i hi hi

end Mdp3Decoder

namespace Mdp3Feed

/-! ## The invariant -/

variable (o : Outside δ σ)
variable (rxTs : Int)
variable {seq : Nat}
variable (calls : List FeedCall)

/-- What every call keeps, for a channel that started at `first` and whose packet of each
number is `packet`. -/
structure Arbitrated (packet : Nat → List UInt8) (first : Nat) (f : Mdp3Feed δ σ) : Prop where
  started : f.started = true
  window_pow : ∃ k, f.window = 2 ^ k
  ring : SlotRing Slot.seq f.window f.held f.heldCount f.expected
  slots : ∀ (i : Nat) (s : Slot), f.held[i]? = some (some s) →
    s.seq < u32Max ∧ s.bytes = packet s.seq ∧ s.bytes.length ≤ kMaxPacketBytes
  tiles : Tiles first (stretches f.log) f.expected
  lost : f.stats.lostPackets = lostTotal (stretches f.log)
  answered : Answered f.log
  bytes : ∀ seq b, decoded seq b ∈ f.log → b = packet seq
  top : f.expected ≤ u32Max

/-- No held packet is the next one. -/
def Ahead (f : Mdp3Feed δ σ) : Prop :=
  ∀ (i : Nat) (s : Slot), f.held[i]? = some (some s) → s.seq ≠ f.expected

variable {packet : Nat → List UInt8} {first : Nat} {f g : Mdp3Feed δ σ}

theorem Arbitrated.of_same (h : Arbitrated packet first f) (hs : SameHolding f g) :
    Arbitrated packet first g where
  started := hs.started.trans h.started
  window_pow := hs.window ▸ h.window_pow
  ring := by rw [hs.window, hs.held, hs.heldCount, hs.expected]; exact h.ring
  slots := hs.held ▸ h.slots
  tiles := by rw [hs.log, hs.expected]; exact h.tiles
  lost := by rw [hs.lostPackets, hs.log]; exact h.lost
  answered := hs.log ▸ h.answered
  bytes := hs.log ▸ h.bytes
  top := hs.expected ▸ h.top

theorem Ahead.of_same (h : Ahead f) (hs : SameHolding f g) : Ahead g := by
  intro i s hget
  rw [hs.held] at hget
  rw [hs.expected]
  exact h i s hget

theorem slotIndex_eq (hw : ∃ k, f.window = 2 ^ k) (seq : Nat) :
    f.slotIndex seq = seq % f.window := by
  obtain ⟨k, hk⟩ := hw
  rw [slotIndex, hk, Nat.and_two_pow_sub_one_eq_mod]

/-- What `held_slot` found. -/
theorem heldSlot_eq_some {s : Slot} (h : f.heldSlot seq = some s) :
    f.held[f.slotIndex seq]? = some (some s) ∧ s.seq = seq := by
  unfold heldSlot at h
  split at h
  · simp at h
  split at h
  · rename_i t ht
    split at h
    · rename_i hseq
      exact ⟨(Option.some.inj h) ▸ ht, (Option.some.inj h) ▸ hseq⟩
    · simp at h
  · simp at h

/-- Where `held_slot` found nothing for the next packet, it is not held. -/
theorem ahead_of_heldSlot (hw : ∃ k, f.window = 2 ^ k)
    (h : SlotRing Slot.seq f.window f.held f.heldCount f.expected)
    (hnone : f.heldSlot f.expected = none) : Ahead f := by
  intro i s hget hseq
  have hpos := h.count_pos hget
  have hi : f.held[f.slotIndex f.expected]? = some (some s) := by
    rw [slotIndex_eq hw, ← hseq, (h.slot i s hget).1]
    exact hget
  rw [heldSlot, if_neg (Nat.ne_of_gt hpos), hi] at hnone
  simp [hseq] at hnone

theorem Arbitrated.ahead_of_heldCount (h : Arbitrated packet first f) (hz : f.heldCount = 0) :
    Ahead f :=
  ahead_of_heldSlot h.window_pow h.ring (by rw [heldSlot, if_pos hz])

/-! ## The two steps: a packet processed, a run lost -/

theorem next32_eq {n : Nat} (h : n < u32Max) : next32 n = n + 1 := by
  unfold next32
  unfold u32Max at h
  omega

/-- The next packet was handed over. -/
theorem Arbitrated.taken (h : Arbitrated packet first f) (ha : Ahead f) (htop : f.expected < u32Max)
    (hs : SameHolding { f with log := f.log ++ [decoded f.expected (packet f.expected)] }
      g) : Arbitrated packet first { g with expected := f.expected + 1 } where
  started := hs.started.trans h.started
  window_pow := by
    have hw : g.window = f.window := hs.window
    exact hw ▸ h.window_pow
  ring := by
    rw [hs.window, hs.held, hs.heldCount]
    exact h.ring.up ha
  slots := by
    have hheld : g.held = f.held := hs.held
    exact hheld ▸ h.slots
  tiles := by
    rw [hs.log, stretches_append]
    exact h.tiles.take
  lost := by
    rw [hs.log, hs.lostPackets, stretches_append, lostTotal_append]
    exact h.lost
  answered := by
    rw [hs.log]
    exact h.answered.append trivial
  bytes := by
    intro seq b hb
    have hb' : decoded seq b ∈ g.log := hb
    rw [hs.log, mem_append, mem_singleton] at hb'
    rcases hb' with hb' | hb'
    · exact h.bytes seq b hb'
    · simp only [decoded.injEq] at hb'
      rw [hb'.1, hb'.2]
  top := htop

/-- The held packet that is next was handed over. -/
theorem Arbitrated.processHeld {s : Slot} (h : Arbitrated packet first f)
    (hs : f.heldSlot f.expected = some s) :
    Arbitrated packet first { f.processHeld o s with expected := f.expected + 1 } ∧
      f.expected < u32Max := by
  obtain ⟨hget, hseq⟩ := heldSlot_eq_some hs
  rw [← hseq] at hget
  obtain ⟨htop, hbytes, -⟩ := h.slots _ s hget
  refine ⟨?_, hseq ▸ htop⟩
  have hfreed : Arbitrated packet first
      { f with held := f.held.set (f.slotIndex s.seq) none, heldCount := f.heldCount - 1 } :=
    { h with
      ring := h.ring.remove hget
      slots := fun i t ht => h.slots i t (getElem?_free ht).2 }
  refine hfreed.taken ?_ (hseq ▸ htop) ?_
  · intro i t ht
    exact hseq ▸ h.ring.remove_ne hget ht
  · have hsame := processHeld_same (f := f) o s
    rw [hbytes, hseq] at hsame
    exact hseq ▸ hsame

/-- The hole moves the window up past packets that are not held. -/
theorem ring_skipHole (hw : ∃ k, f.window = 2 ^ k)
    (h : SlotRing Slot.seq f.window f.held f.heldCount f.expected) (target : Nat) :
    SlotRing Slot.seq f.window f.held f.heldCount (f.skipHole target).expected := by
  fun_induction skipHole f target with
  | case1 f hc hz =>
    rw [hz] at h ⊢
    exact h.move target
  | case2 f hc hz ih => exact ih hw (h.up (ahead_of_heldSlot hw h hc.2))
  | case3 f hc => exact h

/-- A hole was given up. -/
theorem Arbitrated.lostHole {target : Nat}
    (h : Arbitrated packet first f) (hlt : f.expected < target) (htarget : target ≤ u32Max)
    (hnone : f.heldSlot f.expected = none) :
    Arbitrated packet first
      ((f.skipHole target).onGap o ((f.skipHole target).expected - f.expected) rxTs) := by
  have hring := ring_skipHole h.window_pow h.ring target
  have hup := lt_skipHole hlt hnone
  obtain ⟨e, he, -, hhi⟩ := skipHole_spec target (le_of_lt hlt)
  rw [he] at hring hup ⊢
  refine Arbitrated.of_same ?_ (onGap_same o _ rxTs)
  have hback : e - (e - f.expected) = f.expected := Nat.sub_sub_self (le_of_lt hup)
  have hstretch : stretches (f.log ++ [Entry.lost (e - (e - f.expected)) (e - f.expected)
      f.decoder, Entry.marked f.decoder.markAllRecovering]) =
      stretches f.log ++ [.lost f.expected (e - f.expected)] := by
    rw [stretches_append, hback]
    rfl
  refine
    { started := h.started
      window_pow := h.window_pow
      ring := hring
      slots := h.slots
      tiles := ?_
      lost := ?_
      answered := h.answered.append ⟨f.decoder.allMarked_markAllRecovering, trivial⟩
      bytes := ?_
      top := le_trans hhi htarget }
  · rw [hstretch]
    have hlose := h.tiles.lose (Nat.sub_pos_of_lt hup)
    rwa [Nat.add_sub_cancel' (le_of_lt hup)] at hlose
  · rw [hstretch, lostTotal_append, h.lost]
    rfl
  intro seq b hb
  rcases mem_append.mp hb with hb | hb
  · exact h.bytes seq b hb
  · simp at hb

/-! ## The loops -/

/-- `advance_to` brings `expected_` to the target. -/
theorem Arbitrated.advanceTo (target : Nat) (rxTs : Int)
    (h : Arbitrated packet first f) (hle : f.expected ≤ target) (htarget : target ≤ u32Max) :
    Arbitrated packet first (f.advanceTo o target rxTs) ∧
      (f.advanceTo o target rxTs).expected = target := by
  fun_induction Mdp3Feed.advanceTo o f target rxTs with
  | case1 f hlt s hs ih => exact ih (h.processHeld o hs).1 hlt
  | case2 f hlt hs g ih =>
    have hlost := h.lostHole o rxTs hlt htarget hs
    refine ih hlost ?_
    obtain ⟨e, he, -, hhi⟩ := skipHole_spec (f := f) target (le_of_lt hlt)
    have hexp := (onGap_same (f := g) o (g.expected - f.expected) rxTs).expected
    rw [hexp]
    show (f.skipHole target).expected ≤ target
    rw [he]
    exact hhi
  | case3 f hlt => exact ⟨h, le_antisymm hle (not_lt.mp hlt)⟩

/-- `advance_to` only takes packets out of their slots. -/
theorem advanceTo_held (target : Nat) (rxTs : Int) {i : Nat} {s : Slot}
    (h : (f.advanceTo o target rxTs).held[i]? = some (some s)) : f.held[i]? = some (some s) := by
  fun_induction Mdp3Feed.advanceTo o f target rxTs with
  | case1 f hlt t ht ih =>
    have hheld := ih h
    have hsame := (processHeld_same (f := f) o t).held
    rw [hsame] at hheld
    exact (getElem?_free hheld).2
  | case2 f hlt hs g ih =>
    have hheld := ih h
    have hsame := (onGap_same (f := g) o (g.expected - f.expected) rxTs).held
    rw [hsame] at hheld
    obtain ⟨e, he, -⟩ := skipHole_spec (f := f) target (le_of_lt hlt)
    have hg : g.held = f.held := by
      show (f.skipHole target).held = f.held
      rw [he]
    exact hg ▸ hheld
  | case3 f hlt => exact h

/-- `drain` leaves nothing held that is next. -/
theorem Arbitrated.drainLoop (h : Arbitrated packet first f) :
    Arbitrated packet first (f.drainLoop o) ∧ Ahead (f.drainLoop o) := by
  fun_induction Mdp3Feed.drainLoop o f with
  | case1 f hs => exact ⟨h, ahead_of_heldSlot h.window_pow h.ring hs⟩
  | case2 f s hs ih =>
    obtain ⟨hnext, htop⟩ := h.processHeld o hs
    rw [next32_eq htop] at ih ⊢
    exact ih hnext

theorem Arbitrated.drain (h : Arbitrated packet first f) :
    Arbitrated packet first (f.drain o) ∧ Ahead (f.drain o) := by
  obtain ⟨hloop, hahead⟩ := h.drainLoop o
  unfold Mdp3Feed.drain
  dsimp only
  split
  · exact ⟨{ hloop with }, hahead⟩
  · exact ⟨hloop, hahead⟩

theorem Arbitrated.expireHeld (nowNs : Int) (h : Arbitrated packet first f) (ha : Ahead f) :
    Arbitrated packet first (f.expireHeld o nowNs) ∧ Ahead (f.expireHeld o nowNs) := by
  unfold Mdp3Feed.expireHeld
  split
  · exact ⟨h, ha⟩
  obtain ⟨hlo, hhi⟩ := foldl_min_bounds Slot.seq f.usedSlots h.top (fun s hs => by
    obtain ⟨i, hi⟩ := mem_filterMap_slots.mp hs
    exact (h.ring.slot i s hi).2.1)
  exact (h.advanceTo o _ nowNs hlo hhi).1.drain o

/-! ## One datagram -/

section

variable (h : Arbitrated packet first f)
include h

/-- The packet in sequence is handed over, and the held ones after it. -/
theorem Arbitrated.take
    (ha : Ahead f) (htop : f.expected < u32Max) :
    Arbitrated packet first (f.take o f.expected (packet f.expected) rxTs).1 ∧
      Ahead (f.take o f.expected (packet f.expected) rxTs).1 := by
  have hsame := process_same (f := f) o f.expected (packet f.expected) rxTs
  have htaken := h.taken ha htop hsame
  have hnext : next32 (f.process o f.expected (packet f.expected) rxTs).1.expected =
      f.expected + 1 := by
    rw [hsame.expected]
    exact next32_eq htop
  unfold Mdp3Feed.take
  dsimp only
  rw [hnext]
  split_ifs with hz
  · exact htaken.drain o
  · exact ⟨htaken, htaken.ahead_of_heldCount (not_not.mp hz)⟩

theorem Arbitrated.duplicate (ha : Ahead f) :
    Arbitrated packet first f.duplicate.1 ∧ Ahead f.duplicate.1 :=
  ⟨{ h with }, ha⟩

/-- A packet ahead of sequence is held where no copy of it is. -/
theorem Arbitrated.hold (ha : Ahead f)
    (hgt : f.expected < seq) (hwin : seq - f.expected < f.window) (htop : seq < u32Max)
    (hsize : (packet seq).length ≤ kMaxPacketBytes)
    (hfree : ∀ s : Slot, f.held[f.slotIndex seq]? = some (some s) → s.seq ≠ seq) :
    Arbitrated packet first (f.hold seq (packet seq) rxTs) ∧
      Ahead (f.hold seq (packet seq) rxTs) := by
  have hhi : seq < f.expected + f.window := by omega
  have hidx := slotIndex_eq h.window_pow seq
  rw [hidx] at hfree
  have hput := h.ring.put (a := ⟨seq, packet seq, rxTs⟩) (le_of_lt hgt) hhi
    (fun b hb => hfree b hb (h.ring.key_eq_of_slot (le_of_lt hgt) hhi hb))
  have hheld : ∀ (i : Nat) (s : Slot), (f.hold seq (packet seq) rxTs).held[i]? = some (some s) →
        s = ⟨seq, packet seq, rxTs⟩ ∨ f.held[i]? = some (some s) := by
    intro i s hget
    have hget' : (f.held.set (f.slotIndex seq) (some ⟨seq, packet seq, rxTs⟩))[i]? =
      some (some s) := hget
    exact (getElem?_fill hget').imp And.right fun hold => hold
  refine ⟨{ h with ring := ?_, slots := ?_ }, ?_⟩
  · show SlotRing Slot.seq f.window (f.held.set (f.slotIndex seq) _) _ _
    rw [hidx]
    exact hput
  · intro i s hget
    rcases hheld i s hget with rfl | hold
    · exact ⟨htop, rfl, hsize⟩
    · exact h.slots i s hold
  · intro i s hget
    rcases hheld i s hget with rfl | hold
    · exact Nat.ne_of_gt hgt
    · exact ha i s hold

/-- A packet that cannot be held: everything missing below it is given up first.  No copy of
it is held: the window ends before it, or it is too large to be copied. -/
theorem Arbitrated.jump (hgt : f.expected < seq) (htop : seq < u32Max)
    (hfar : seq - f.expected ≥ f.window ∨ (packet seq).length > kMaxPacketBytes) :
    Arbitrated packet first (f.jump o seq (packet seq) rxTs).1 ∧
      Ahead (f.jump o seq (packet seq) rxTs).1 := by
  unfold Mdp3Feed.jump
  have hsame : ∀ g : Mdp3Feed δ σ, SameHolding f g →
      Arbitrated packet first ((g.advanceTo o seq rxTs).take o seq (packet seq) rxTs).1 ∧
        Ahead ((g.advanceTo o seq rxTs).take o seq (packet seq) rxTs).1 := by
    intro g hg
    obtain ⟨hadv, hexp⟩ := (h.of_same hg).advanceTo o seq rxTs
      (by rw [hg.expected]; exact le_of_lt hgt) (le_of_lt htop)
    have hahead : Ahead (g.advanceTo o seq rxTs) := by
      intro i s hget hseq
      have hheld := advanceTo_held o seq rxTs hget
      rw [hg.held] at hheld
      rw [hexp] at hseq
      obtain ⟨-, -, hhi⟩ := h.ring.slot i s hheld
      obtain ⟨-, hbytes, hsize⟩ := h.slots i s hheld
      rw [hbytes, hseq] at hsize
      rcases hfar with hfar | hfar
      · omega
      · omega
    have htake := hadv.take o rxTs hahead (by rw [hexp]; exact htop)
    rwa [hexp] at htake
  split
  · exact hsame _ ⟨rfl, rfl, rfl, rfl, rfl, rfl, rfl, rfl, rfl⟩
  · exact hsame _ .refl

theorem Arbitrated.arbitrate (ha : Ahead f) (htop : seq < u32Max) :
    Arbitrated packet first (f.arbitrate o seq (packet seq) rxTs).1 ∧
      Ahead (f.arbitrate o seq (packet seq) rxTs).1 := by
  unfold Mdp3Feed.arbitrate
  split
  · rename_i heq
    subst heq
    exact h.take o rxTs ha htop
  rename_i hne
  split
  · exact h.duplicate ha
  rename_i hlt
  have hgt : f.expected < seq := by omega
  split
  · rename_i hfar
    exact h.jump o rxTs hgt htop hfar
  rename_i hnear
  rw [not_or] at hnear
  have hold := h.hold rxTs ha hgt (not_le.mp hnear.1) htop (not_lt.mp hnear.2)
  split
  · rename_i s hs
    split
    · exact h.duplicate ha
    rename_i hseq
    refine hold fun t ht => ?_
    rw [hs] at ht
    obtain rfl : s = t := Option.some.inj (Option.some.inj ht)
    exact hseq
  · rename_i hs
    exact hold fun t ht => absurd ht (hs t)

/-- Marking the instruments cuts nothing. -/
theorem Arbitrated.noted (d : Mdp3Decoder δ) :
    Arbitrated packet first { f with log := f.log ++ [Entry.marked d] } := by
  have hstretch : stretches (f.log ++ [Entry.marked d]) = stretches f.log := by
    rw [stretches_append]
    exact append_nil _
  refine { h with tiles := ?_, lost := ?_, answered := h.answered.append trivial, bytes := ?_ }
  · rw [hstretch]
    exact h.tiles
  · rw [hstretch]
    exact h.lost
  intro s b hb
  rcases mem_append.mp hb with hb | hb
  · exact h.bytes s b hb
  · simp at hb

end

/-! ## Before the first packet -/

/-- No packet has come yet. -/
structure Fresh (f : Mdp3Feed δ σ) : Prop where
  started : f.started = false
  window_pow : ∃ k, f.window = 2 ^ k
  ring : SlotRing Slot.seq f.window f.held 0 f.expected
  heldCount : f.heldCount = 0
  lost : f.stats.lostPackets = 0
  log : f.log = []

theorem fresh_create (cfg : Mdp3FeedConfig) (d : Mdp3Decoder δ) (sink : σ) :
    Fresh (create cfg d sink) where
  started := rfl
  window_pow := Nat.isPowerOfTwo_nextPowerOfTwo _
  ring := .empty _ _
  heldCount := rfl
  lost := rfl
  log := rfl

/-- The first packet starts the stream at its number. -/
theorem Fresh.start (packet : Nat → List UInt8) (rxTs : Int) (h : Fresh f) (htop : seq < u32Max) :
    Arbitrated packet seq (f.start o seq rxTs) ∧ Ahead (f.start o seq rxTs) := by
  have hno := h.ring.no_value
  have hbase : Arbitrated packet seq
      { f with started := true, expected := seq, bufferFloor := seq } :=
    { started := rfl
      window_pow := h.window_pow
      ring := by
        rw [h.heldCount]
        exact h.ring.move seq
      slots := fun i s hs => absurd hs (hno i s)
      tiles := by
        rw [h.log]
        exact .nil seq
      lost := by
        rw [h.log, h.lost]
        rfl
      answered := by
        rw [h.log]
        trivial
      bytes := by
        intro s b hb
        have hmem : decoded s b ∈ f.log := hb
        simp [h.log] at hmem
      top := le_of_lt htop }
  have hahead : Ahead { f with started := true, expected := seq, bufferFloor := seq } :=
    fun i s hs => absurd hs (hno i s)
  unfold Mdp3Feed.start
  split
  · refine ⟨Arbitrated.of_same ?_ (emitState_same o _ _ _),
      Ahead.of_same ?_ (emitState_same o _ _ _)⟩
    · exact { hbase with }
    · exact hahead
  · refine ⟨Arbitrated.of_same ?_ (enterResync_same o _ _),
      Ahead.of_same ?_ (enterResync_same o _ _)⟩
    · exact { hbase.noted _ with }
    · exact hahead

/-! ## Calls and runs -/

theorem countPacket_same (line : FeedLine) : SameHolding f (f.countPacket line) := by
  cases line <;> exact ⟨rfl, rfl, rfl, rfl, rfl, rfl, rfl, rfl, rfl⟩

/-- One call on a channel that has started. -/
theorem Arbitrated.call {c : FeedCall} (h : Arbitrated packet first f)
    (ha : Ahead f) (hc : c.Of packet) :
    Arbitrated packet first (f.call o c) ∧ Ahead (f.call o c) := by
  cases c with
  | timer nowNs => exact h.expireHeld o nowNs ha
  | incremental line datagram rxTs =>
    have hcount := countPacket_same (f := f) line
    have h' := h.of_same hcount
    have ha' := ha.of_same hcount
    unfold Mdp3Feed.call onIncremental
    dsimp only
    split
    · exact ⟨{ h' with }, ha'⟩
    rename_i hsize
    have hcarries : carriesPacket datagram = true := decide_eq_true (not_lt.mp hsize)
    obtain ⟨htop, hpacket⟩ := hc hcarries
    rw [if_pos h'.started]
    have harb : ∀ g : Mdp3Feed δ σ, Arbitrated packet first g ∧ Ahead g →
        Arbitrated packet first (g.arbitrate o (msgSeqNum datagram) datagram rxTs).1 ∧
          Ahead (g.arbitrate o (msgSeqNum datagram) datagram rxTs).1 := by
      intro g hg
      have hstep := hg.1.arbitrate o rxTs hg.2 htop
      rwa [← hpacket] at hstep
    split
    · exact harb _ (h'.expireHeld o rxTs ha')
    · exact harb _ ⟨h', ha'⟩

theorem Arbitrated.run
    (h : Arbitrated packet first f) (ha : Ahead f) (hcalls : ∀ c ∈ calls, c.Of packet) :
    Arbitrated packet first (f.run o calls) ∧ Ahead (f.run o calls) := by
  induction calls generalizing f with
  | nil => exact ⟨h, ha⟩
  | cons c calls ih =>
    obtain ⟨hstep, hahead⟩ := h.call o ha (hcalls c mem_cons_self)
    exact ih hstep hahead fun d hd => hcalls d (mem_cons_of_mem c hd)

/-- The first packet on a fresh channel; what is too short to be one changes nothing. -/
theorem Fresh.call {c : FeedCall} (h : Fresh f) (hc : c.Of packet) :
    (firstSeen [c] = none ∧ Fresh (f.call o c)) ∨
      ∃ seq, firstSeen [c] = some seq ∧ Arbitrated packet seq (f.call o c) ∧
        Ahead (f.call o c) := by
  cases c with
  | timer nowNs =>
    refine .inl ⟨rfl, ?_⟩
    show Fresh (f.expireHeld o nowNs)
    rw [Mdp3Feed.expireHeld, if_pos (.inl h.heldCount)]
    exact h
  | incremental line datagram rxTs =>
    have hfresh : Fresh (f.countPacket line) := by
      cases line <;> exact { h with }
    unfold Mdp3Feed.call onIncremental
    dsimp only
    split
    · rename_i hsize
      have hcarries : carriesPacket datagram = false := decide_eq_false (not_le.mpr hsize)
      refine .inl ⟨?_, { hfresh with }⟩
      simp [firstSeen, hcarries]
    rename_i hsize
    have hcarries : carriesPacket datagram = true := decide_eq_true (not_lt.mp hsize)
    obtain ⟨htop, hpacket⟩ := hc hcarries
    refine .inr ⟨msgSeqNum datagram, by simp [firstSeen, hcarries], ?_⟩
    have hnot : ¬ (f.countPacket line).started = true := by simp [hfresh.started]
    rw [if_neg hnot]
    obtain ⟨hstart, hahead⟩ := hfresh.start o packet rxTs htop
    have harb : ∀ g : Mdp3Feed δ σ, Arbitrated packet (msgSeqNum datagram) g ∧ Ahead g →
        Arbitrated packet (msgSeqNum datagram)
          (g.arbitrate o (msgSeqNum datagram) datagram rxTs).1 ∧
          Ahead (g.arbitrate o (msgSeqNum datagram) datagram rxTs).1 := by
      intro g hg
      have hstep := hg.1.arbitrate o rxTs hg.2 htop
      rwa [← hpacket] at hstep
    split
    · exact harb _ (hstart.expireHeld o rxTs hahead)
    · exact harb _ ⟨hstart, hahead⟩

theorem firstSeen_cons (c : FeedCall) (calls : List FeedCall) :
    firstSeen (c :: calls) = (firstSeen [c]).or (firstSeen calls) := by
  cases c with
  | timer nowNs => simp [firstSeen]
  | incremental line datagram rxTs =>
    cases h : carriesPacket datagram <;> simp [firstSeen, h]

/-- A run from the start: fresh until the first packet, and arbitrated from then on. -/
theorem Fresh.run (h : Fresh f) (hcalls : ∀ c ∈ calls, c.Of packet) :
    (firstSeen calls = none ∧ Fresh (f.run o calls)) ∨
      ∃ first, firstSeen calls = some first ∧ Arbitrated packet first (f.run o calls) ∧
        Ahead (f.run o calls) := by
  induction calls generalizing f with
  | nil => exact .inl ⟨rfl, h⟩
  | cons c calls ih =>
    have hrest : ∀ d ∈ calls, d.Of packet := fun d hd => hcalls d (mem_cons_of_mem c hd)
    rw [firstSeen_cons]
    rcases h.call o (hcalls c mem_cons_self) with
      ⟨hnone, hfresh⟩ | ⟨seq, hseq, hstep, hahead⟩
    · rw [hnone]
      exact ih hfresh hrest
    · rw [hseq]
      exact .inr ⟨seq, rfl, hstep.run o calls hahead hrest⟩

end Mdp3Feed

/-! ## Processed once or reported lost -/

variable {calls : List FeedCall}

/-- What the history of a feed that heard `calls` says: `packet` is the channel's packet of
each number. -/
structure OnceOrLost (packet : Nat → List UInt8) (calls : List FeedCall) (f : Mdp3Feed δ σ) :
    Prop where
  /-- The packets handed to the decoder have increasing numbers. -/
  increasing : (takenSeqs (stretches f.log)).Pairwise (· < ·)
  /-- They are the packets of the channel. -/
  bytes : ∀ seq b, decoded seq b ∈ f.log → b = packet seq
  /-- Every number from the first one seen up to `expected_` was processed once or lies in
  one run that was lost, and no other number does. -/
  once : ∀ first, firstSeen calls = some first → first ≤ f.expected ∧
    (∀ n, first ≤ n → n < f.expected →
      ∃! i : Nat, ∃ s, (stretches f.log)[i]? = some s ∧ s.Has n) ∧
    ∀ s ∈ stretches f.log, ∀ n, s.Has n → first ≤ n ∧ n < f.expected
  /-- Nothing was processed or lost before a packet came. -/
  nothing : firstSeen calls = none → f.log = []
  /-- `lost_packets` counts the numbers of the runs that were lost. -/
  lost : f.stats.lostPackets = lostTotal (stretches f.log)
  /-- Between a loss and the next packet every instrument known at the loss was marked. -/
  marked : ∀ (pre mid post : List (Entry δ)) first count known seq b,
    f.log = pre ++ .lost first count known :: mid ++ .decoded seq b :: post →
      ∃ d, Entry.marked d ∈ mid ∧ known.AllMarked d
  /-- No held packet is below `expected_`. -/
  held : ∀ (i : Nat) (s : Slot), f.held[i]? = some (some s) → f.expected ≤ s.seq
  /-- `held_count_` counts the used slots. -/
  heldCount : f.heldCount = f.held.countP Option.isSome

theorem Mdp3Feed.Arbitrated.onceOrLost {packet : Nat → List UInt8} {first : Nat}
    {f : Mdp3Feed δ σ} (h : f.Arbitrated packet first)
    (hfirst : firstSeen calls = some first) : OnceOrLost packet calls f where
  increasing := h.tiles.takenSeqs_pairwise
  bytes := h.bytes
  once := by
    intro x hx
    obtain rfl : first = x := Option.some.inj (hfirst.symm.trans hx)
    refine ⟨h.tiles.le, fun n hlo hhi => h.tiles.existsUnique_has hlo hhi, ?_⟩
    intro s hs n hn
    obtain ⟨hlo, hhi⟩ := h.tiles.mem_bounds hs
    exact ⟨le_trans hlo hn.1, lt_of_lt_of_le hn.2 hhi⟩
  nothing := fun hnone => absurd (hfirst.symm.trans hnone) (by simp)
  lost := h.lost
  marked := by
    intro pre mid post a n known seq b hlog
    rw [append_assoc, cons_append] at hlog
    obtain ⟨d, rest, hpost, hall⟩ := h.answered.marked_next hlog
    cases mid with
    | nil => simp at hpost
    | cons e mid =>
      rw [cons_append, List.cons.injEq] at hpost
      exact ⟨d, hpost.1 ▸ mem_cons_self, hall⟩
  held := fun i s hs => (h.ring.slot i s hs).2.1
  heldCount := h.ring.count_eq

theorem Mdp3Feed.Fresh.onceOrLost (packet : Nat → List UInt8) {f : Mdp3Feed δ σ} (h : f.Fresh)
    (hfirst : firstSeen calls = none) : OnceOrLost packet calls f where
  increasing := by rw [h.log]; exact List.Pairwise.nil
  bytes := fun seq b hb => by simp [h.log] at hb
  once := fun x hx => absurd (hfirst.symm.trans hx) (by simp)
  nothing := fun _ => h.log
  lost := by rw [h.lost, h.log]; rfl
  marked := fun pre mid post a n known seq b hlog => by simp [h.log] at hlog
  held := fun i s hs => absurd hs (h.ring.no_value i s)
  heldCount := h.heldCount.trans h.ring.count_eq

end FastMM.Mdp3
