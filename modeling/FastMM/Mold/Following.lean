/-
  Mold/Following.lean --- what a receiver keeps while it follows a session.

  Source: `include/fastmm/codecs/moldudp/moldudp64.hpp` (`Receiver::on_ahead`, `update`,
  `skip_hole`, `deliver`, `drain`, `request`).

  `Following` is what holds of a receiver that follows a session, also between the steps of
  one call: what its handler was told cuts the numbers from the first expected one up to
  `next_` into messages delivered and runs given up, and every packet held is one the sender
  could have sent.  Between calls every packet held begins beyond `next_` (`Clear`), so a hole
  that is given up is never empty.  That is why the loops end.

  A request is empty only where the configuration asks for none at a time
  (`max_request_count` 0).
-/
import FastMM.Foundation.Histories
import FastMM.Foundation.SequenceCover
import FastMM.Foundation.SlotRing
import FastMM.Mold.Receiver
set_option autoImplicit false

namespace FastMM.Mold

open Foundation List

variable {μ : Type}

/-! ## What a sender sends -/

/-- The messages of one session: they fit in a block, and their numbers in 64 bits. -/
structure Published where
  session : SessionId
  messages : List (List UInt8)
  session_length : session.length = kSessionLength
  length_lt : messages.length + 1 < 18446744073709551616
  message_le : ∀ m ∈ messages, m.length ≤ kMaxMessageLength

namespace Published

variable (s : Published)

/-- The number after the last message. -/
def stop : Nat := s.messages.length + 1

/-- The `count` messages from number `seq` on. -/
def slice (seq count : Nat) : List (List UInt8) := (s.messages.drop (seq - 1)).take count

/-- The `count` messages from `seq` on are messages of the session. -/
def Within (seq count : Nat) : Prop := 1 ≤ seq ∧ 0 < count ∧ seq + count ≤ s.stop

/-- The datagrams of the session: data with any packet boundaries, heartbeats, the end. -/
inductive Sent : List UInt8 → Prop
  | data (seq count : Nat) (h : s.Within seq count) (hmax : count ≤ kMaxMessagesPerPacket) :
      Sent (dataPacket s.session seq (s.slice seq count))
  | heartbeat (nextSequence : Nat) (hpos : 1 ≤ nextSequence) (hle : nextSequence ≤ s.stop) :
      Sent (heartbeat s.session nextSequence)
  | endOfSession : Sent (endOfSession s.session s.stop)

variable {s}

theorem Within.length_slice {seq count : Nat} (h : s.Within seq count) :
    (s.slice seq count).length = count := by
  obtain ⟨hpos, -, hle⟩ := h
  unfold stop at hle
  rw [slice, length_take, length_drop]
  omega

theorem slice_succ {seq count : Nat} {msg : List UInt8} (hpos : 1 ≤ seq)
    (h : s.messages[seq - 1]? = some msg) :
    s.slice seq (count + 1) = msg :: s.slice (seq + 1) count := by
  obtain ⟨hlt, hget⟩ := List.getElem?_eq_some_iff.mp h
  unfold slice
  rw [drop_eq_getElem_cons hlt, take_succ_cons, hget, Nat.sub_add_cancel hpos, Nat.add_sub_cancel]

end Published

/-- What reaches the receiver: a datagram of a line with its metadata, or a timer. -/
inductive MoldCall (μ : Type) where
  | packet (line : Nat) (datagram : List UInt8) (nowNs : Int) (rxMeta : μ)
  | timer (nowNs : Int)

/-- The datagrams are the session's. -/
def MoldCall.Of (s : Published) : MoldCall μ → Prop
  | .packet _ datagram _ _ => s.Sent datagram
  | .timer _ => True

def Receiver.call (fuel : Nat) (r : Receiver μ) : MoldCall μ → Option (Receiver μ)
  | .packet line datagram nowNs rxMeta => r.onPacket fuel line datagram nowNs rxMeta
  | .timer nowNs => r.onTimer fuel nowNs

/-- The calls in the order they come; `none` when a loop ran out of fuel. -/
def Receiver.run (fuel : Nat) : Receiver μ → List (MoldCall μ) → Option (Receiver μ)
  | r, [] => some r
  | r, c :: calls =>
    match r.call fuel c with
    | none => none
    | some r => run fuel r calls

/-! ## What the handler was told -/

def HandlerCall.stretch : HandlerCall μ → Option Stretch
  | .onMessage seq _ _ => some (.taken seq)
  | .onGapUnrecoverable fromSeq count => some (.lost fromSeq count)
  | .sendRequest _ => none
  | .onEndOfSession => none

/-- The sequence numbers, as the handler was told of them. -/
def stretches (calls : List (HandlerCall μ)) : List Stretch :=
  calls.filterMap HandlerCall.stretch

@[simp] theorem stretches_append (l m : List (HandlerCall μ)) :
    stretches (l ++ m) = stretches l ++ stretches m := filterMap_append

/-- What may be told after `pre`, when `next_sequence()` started at `first`. -/
def Allowed (s : Published) (cfg : ReceiverConfig) (first : Nat) (pre : List (HandlerCall μ)) :
    HandlerCall μ → Prop
  | .onMessage seq msg _ => 1 ≤ seq ∧ s.messages[seq - 1]? = some msg
  | .onGapUnrecoverable _ _ => True
  | .sendRequest packet =>
    ∃ seq count, parseRequest packet = some ⟨s.session, seq, count⟩ ∧
      Tiles first (stretches pre) seq ∧ seq + count ≤ s.stop ∧
      count ≤ cfg.maxRequestCount.toNat ∧ (0 < cfg.maxRequestCount.toNat → 0 < count)
  | .onEndOfSession =>
    HandlerCall.onEndOfSession ∉ pre ∧ ∃ seq, Tiles first (stretches pre) seq ∧ s.stop ≤ seq

/-! ## The invariant -/

/-- A packet held is one of the session. -/
structure OfSession (s : Published) (e : HeldPacket) : Prop where
  within : s.Within e.seq e.count
  stop : e.stop = e.seq + e.count
  blocks : e.blocks = blocksOf (s.slice e.seq e.count)

namespace Receiver

variable {p : PacketView}
variable (nowNs : Int)
variable {fuel : Nat}

/-- The receiver follows the session `s` from number `first` on. -/
structure Following (s : Published) (cfg : ReceiverConfig) (first : Nat) (r : Receiver μ) :
    Prop where
  cfg_eq : r.cfg = cfg
  haveSession : r.haveSession = true
  session : r.session = s.session
  next_pos : 1 ≤ r.next
  highest_le : r.highest ≤ s.stop
  tiles : Tiles first (stretches r.calls) r.next
  along : Along (Allowed s cfg first) r.calls
  size : r.held.size = r.held.entries.countP Option.isSome
  held : ∀ (i : Nat) (e : HeldPacket), r.held.entries[i]? = some (some e) →
    OfSession s e ∧ e.stop ≤ r.highest
  eos : r.eos = true → s.stop ≤ r.highest
  notified : r.eosNotified = false → HandlerCall.onEndOfSession ∉ r.calls

/-- Every packet held begins beyond the next message. -/
def Clear (r : Receiver μ) : Prop :=
  ∀ (i : Nat) (e : HeldPacket), r.held.entries[i]? = some (some e) → r.next < e.seq

variable {s : Published} {cfg : ReceiverConfig} {first : Nat} {r : Receiver μ}

theorem add64_eq {a b : Nat} (h : a + b ≤ s.stop) : add64 a b = a + b := by
  have hlt := s.length_lt
  unfold Published.stop at h
  unfold add64
  omega

/-! ## Delivery -/

/-- The next message is told. -/
theorem Following.message {msg : List UInt8} (rxMeta : μ) (stats : ReceiverStats)
    (h : Following s cfg first r) (hmsg : s.messages[r.next - 1]? = some msg) :
    Following s cfg first { r with
        calls := r.calls ++ [.onMessage r.next msg rxMeta]
        next := r.next + 1
        stats := stats } :=
  { h with
    next_pos := Nat.le_succ_of_le h.next_pos
    tiles := by
      rw [stretches_append]
      exact h.tiles.take
    along := h.along.snoc ⟨h.next_pos, hmsg⟩
    notified := by
      intro hn hmem
      rcases mem_append.mp hmem with hmem | hmem
      · exact h.notified hn hmem
      · simp at hmem }

/-- `deliver` tells the messages that are new; it moves nothing but the position. -/
theorem Following.deliverLoop (rxMeta : μ) {left seq : Nat} (h : Following s cfg first r)
    (hpos : 1 ≤ seq) (hle : seq ≤ r.next) (hstop : seq + left ≤ s.stop) :
    let r' := deliverLoop rxMeta left (blocksOf (s.slice seq left)) seq r
    Following s cfg first r' ∧ r'.next = max r.next (seq + left) ∧ r'.held = r.held ∧
      r'.highest = r.highest := by
  induction left generalizing seq r with
  | zero => exact ⟨h, (max_eq_left hle).symm, rfl, rfl⟩
  | succ left ih =>
    have hlt : seq - 1 < s.messages.length := by
      unfold Published.stop at hstop
      omega
    have hmsg : s.messages[seq - 1]? = some s.messages[seq - 1] := getElem?_eq_getElem hlt
    have hnext := nextBlock_blocksOf (s.slice (seq + 1) left) (s.message_le _ (getElem_mem hlt))
    have hstop' : seq + 1 + left ≤ s.stop := by omega
    have hone : seq + 1 ≤ s.stop := by omega
    intro r'
    have hr' : r' = deliverLoop rxMeta (left + 1) (blocksOf (s.slice seq (left + 1))) seq r := rfl
    rw [deliverLoop, Published.slice_succ hpos hmsg, hnext, add64_eq hone] at hr'
    dsimp only at hr'
    split at hr'
    · rename_i hlt'
      obtain ⟨h₁, h₂, h₃, h₄⟩ := ih h (Nat.le_succ_of_le hpos) hlt' hstop'
      rw [hr']
      refine ⟨h₁, h₂.trans ?_, h₃, h₄⟩
      omega
    · rename_i hge
      obtain rfl : seq = r.next := by omega
      obtain ⟨h₁, h₂, h₃, h₄⟩ := ih
        (h.message rxMeta { r.stats with messages := r.stats.messages + 1 } hmsg)
        (Nat.le_succ_of_le hpos) (le_refl _) hstop'
      rw [hr']
      refine ⟨h₁, h₂.trans ?_, h₃, h₄⟩
      show max (r.next + 1) (r.next + 1 + left) = max r.next (r.next + (left + 1))
      omega

/-- `deliver` of a packet that the receiver has reached. -/
theorem Following.deliver (rxMeta : μ) (h : Following s cfg first r)
    (hp : s.Within p.sequence p.count) (hle : p.sequence ≤ r.next)
    (hblocks : p.blocks = blocksOf (s.slice p.sequence p.count)) :
    Following s cfg first (r.deliver p rxMeta) ∧
      (r.deliver p rxMeta).next = max r.next (p.sequence + p.count) ∧
      (r.deliver p rxMeta).held = r.held ∧ (r.deliver p rxMeta).highest = r.highest := by
  unfold Receiver.deliver
  rw [hblocks]
  exact h.deliverLoop rxMeta hp.1 hle hp.2.2

section

variable {i : Nat} {e : HeldPacket} (h : Following s cfg first r)
variable (he : r.held.entries[i]? = some (some e))
include h he

/-- A slot is freed. -/
theorem Following.erase :
    Following s cfg first { r with held := r.held.erase i } :=
  { h with
    size := by
      show r.held.size - 1 = (r.held.entries.set i none).countP Option.isSome
      rw [countP_free he, h.size]
    held := fun j e' he' => h.held j e' (getElem?_free he').2 }

theorem Following.size_pos : r.held.size ≠ 0 := by
  rw [h.size]
  exact Nat.ne_of_gt (countP_pos_of_used he)

end

theorem findAtOrBelow_eq_some {b : ReorderBuffer} {seq i : Nat}
    (h : b.findAtOrBelow seq = some i) : ∃ e, b.entries[i]? = some (some e) ∧ e.seq ≤ seq := by
  unfold ReorderBuffer.findAtOrBelow at h
  split at h
  · simp at h
  rw [findIdx?_eq_some_iff_getElem] at h
  obtain ⟨hi, hp, -⟩ := h
  split at hp
  · rename_i e he
    exact ⟨e, List.getElem?_eq_some_iff.mpr ⟨hi, he⟩, of_decide_eq_true hp⟩
  · simp at hp

section

variable (h : Following s cfg first r)
include h

/-- With nothing to release every packet held begins beyond the next message. -/
theorem Following.clear
    (hnone : r.held.findAtOrBelow r.next = none) : Clear r := by
  intro i e he
  unfold ReorderBuffer.findAtOrBelow at hnone
  rw [if_neg (h.size_pos he), findIdx?_eq_none_iff] at hnone
  have hnot := hnone _ (mem_of_getElem? he)
  simpa using hnot

/-- One held packet is released: it had something new, or it is freed only. -/
theorem Following.releaseHeld {i : Nat}
    (hi : r.held.findAtOrBelow r.next = some i) :
    Following s cfg first (r.releaseHeld i) ∧ r.next ≤ (r.releaseHeld i).next ∧
      (r.releaseHeld i).highest = r.highest := by
  obtain ⟨e, he, hle⟩ := findAtOrBelow_eq_some hi
  obtain ⟨hof, -⟩ := h.held i e he
  have hview : r.held.view i r.session = ⟨r.session, e.seq, e.count, .Data, e.blocks⟩ := by
    rw [ReorderBuffer.view, he]
  unfold Receiver.releaseHeld
  rw [hview]
  dsimp only
  split
  · obtain ⟨h₁, h₂, h₃, h₄⟩ := h.deliver (p := ⟨r.session, e.seq, e.count, .Data, e.blocks⟩)
      (r.metas i) hof.within hle hof.blocks
    refine ⟨h₁.erase (h₃ ▸ he), ?_, h₄⟩
    rw [h₂]
    exact le_max_left _ _
  · exact ⟨h.erase he, le_refl _, rfl⟩

theorem Following.drain :
    Following s cfg first r.drain ∧ Clear r.drain ∧ r.next ≤ r.drain.next ∧
      r.drain.highest = r.highest := by
  fun_induction Receiver.drain r with
  | case1 r hnone => exact ⟨h, h.clear hnone, le_refl _, rfl⟩
  | case2 r i hi ih =>
    obtain ⟨h₁, h₂, h₃⟩ := h.releaseHeld hi
    obtain ⟨ih₁, ih₂, ih₃, ih₄⟩ := ih h₁
    exact ⟨ih₁, ih₂, le_trans h₂ ih₃, ih₄.trans h₃⟩

end

/-! ## Holes -/

/-- A hole ends beyond the next message. -/
theorem Clear.lt_lowest (h : Clear r) (hlt : r.next < u64Max) : r.next < r.held.lowest := by
  unfold ReorderBuffer.lowest
  split
  · exact hlt
  have hall : ∀ e ∈ r.held.packets, r.next + 1 ≤ e.seq := by
    intro e he
    obtain ⟨i, hi⟩ := mem_filterMap_slots.mp he
    exact h i e hi
  exact (foldl_min_bounds HeldPacket.seq r.held.packets hlt hall).1

/-- A run of messages that are not held is given up. -/
theorem Following.skipHole {limit : Nat} (h : Following s cfg first r) (hc : Clear r)
    (hlt : r.next < limit) (hle : limit ≤ s.stop) :
    Following s cfg first (r.skipHole limit) ∧ Clear (r.skipHole limit) ∧
      r.next < (r.skipHole limit).next ∧ (r.skipHole limit).highest = r.highest := by
  have hlen := s.length_lt
  have hmax : r.next < u64Max := by
    unfold Published.stop at hle
    unfold u64Max
    omega
  have hlow := hc.lt_lowest hmax
  obtain ⟨target, htarget⟩ :
    ∃ t, t = if r.held.lowest < limit then r.held.lowest else limit := ⟨_, rfl⟩
  have hup : r.next < target := by
    rw [htarget]
    split
    · exact hlow
    · exact hlt
  have hlost : Following s cfg first { r with
        next := target
        stats := { r.stats with
          unrecoverableGaps := r.stats.unrecoverableGaps + 1
          lostMessages := r.stats.lostMessages + (target - r.next) }
        calls := r.calls ++ [.onGapUnrecoverable r.next (target - r.next)] } :=
    { h with
      next_pos := by
        show 1 ≤ target
        omega
      tiles := by
        rw [stretches_append]
        have hlose := h.tiles.lose (Nat.sub_pos_of_lt hup)
        rwa [Nat.add_sub_cancel' (le_of_lt hup)] at hlose
      along := h.along.snoc trivial
      notified := by
        intro hn hmem
        rcases mem_append.mp hmem with hmem | hmem
        · exact h.notified hn hmem
        · simp at hmem }
  obtain ⟨h₁, h₂, h₃, h₄⟩ := hlost.drain
  unfold Receiver.skipHole
  dsimp only
  rw [← htarget]
  exact ⟨{ h₁ with }, h₂, lt_of_lt_of_le hup h₃, h₄⟩

/-- The first hole is requested. -/
theorem Following.request (h : Following s cfg first r) (hc : Clear r) (hlt : r.next < r.highest) :
    Following s cfg first (r.request nowNs) ∧ Clear (r.request nowNs) := by
  have hlen := s.length_lt
  have hstop := h.highest_le
  have hmax : r.next < u64Max := by
    unfold Published.stop at hstop
    unfold u64Max
    omega
  have hlow := hc.lt_lowest hmax
  obtain ⟨missing, hmissing⟩ : ∃ m, m = (if r.held.lowest < r.highest then r.held.lowest
    else r.highest) - r.next := ⟨_, rfl⟩
  have hpos : 0 < missing := by
    rw [hmissing]
    split <;> omega
  have hle : r.next + missing ≤ s.stop := by
    rw [hmissing]
    split <;> omega
  obtain ⟨n, hn⟩ : ∃ n, n = if missing < r.cfg.maxRequestCount.toNat then missing
    else r.cfg.maxRequestCount.toNat := ⟨_, rfl⟩
  have hnle : n ≤ missing ∧ n ≤ cfg.maxRequestCount.toNat := by
    rw [hn, h.cfg_eq]
    split <;> omega
  have hnpos : 0 < cfg.maxRequestCount.toNat → 0 < n := by
    rw [hn, h.cfg_eq]
    split <;> omega
  have hcount : n < 256 ^ 2 := lt_of_le_of_lt hnle.2 (UInt16.toNat_lt _)
  have hseq : r.next < 256 ^ 8 := by
    unfold u64Max at hmax
    omega
  have hparse := parseRequest_writeRequest s.session_length hseq hcount
  unfold Receiver.request
  dsimp only
  rw [← hmissing, ← hn]
  refine ⟨{ h with tiles := ?_, along := h.along.snoc ?_, notified := ?_ }, hc⟩
  · rw [stretches_append]
    exact (append_nil (stretches r.calls)).symm ▸ h.tiles
  · rw [h.session]
    exact ⟨r.next, n, hparse, h.tiles, by omega, hnle.2, hnpos⟩
  intro hn' hmem
  rcases mem_append.mp hmem with hmem | hmem
  · exact h.notified hn' hmem
  · simp at hmem

/-! ## Packets ahead of the next message -/

/-- A data packet of the session, no further than `highest_`. -/
structure Ahead (s : Published) (r : Receiver μ) (p : PacketView) : Prop where
  within : s.Within p.sequence p.count
  blocks : p.blocks = blocksOf (s.slice p.sequence p.count)
  highest : p.nextSequence ≤ r.highest

theorem Ahead.nextSequence_eq (h : Ahead s r p) : p.nextSequence = p.sequence + p.count :=
  add64_eq h.within.2.2

theorem Ahead.of_highest {r' : Receiver μ} (h : Ahead s r p)
    (hr : r'.highest = r.highest) : Ahead s r' p :=
  ⟨h.within, h.blocks, hr ▸ h.highest⟩

theorem Following.hold {r' : Receiver μ} (rxMeta : μ)
    (h : Following s cfg first r) (hc : Clear r) (hp : Ahead s r p) (hlt : r.next < p.sequence)
    (hr : r.hold p nowNs rxMeta = some r') : Following s cfg first r' ∧ Clear r' := by
  unfold Receiver.hold at hr
  split at hr
  · simp at hr
  rename_i slot held hins
  obtain rfl := Option.some.inj hr
  unfold ReorderBuffer.insert at hins
  split at hins
  · simp at hins
  split at hins
  · simp at hins
  rename_i i hfind
  rw [findIdx?_eq_some_iff_getElem] at hfind
  obtain ⟨hi, hnone, -⟩ := hfind
  have hfree : r.held.entries[i]? = some none :=
    List.getElem?_eq_some_iff.mpr ⟨hi, Option.isNone_iff_eq_none.mp hnone⟩
  simp only [Option.some.injEq, Prod.mk.injEq] at hins
  obtain ⟨-, rfl⟩ := hins
  have hof : OfSession s ⟨p.sequence, p.nextSequence, nowNs, p.count, p.blocks⟩ :=
    ⟨hp.within, hp.nextSequence_eq, hp.blocks⟩
  refine ⟨{ h with size := ?_, held := ?_ }, ?_⟩
  · rw [countP_fill _ hfree, h.size]
  · intro j e he
    rcases getElem?_fill he with ⟨-, rfl⟩ | he
    · exact ⟨hof, hp.highest⟩
    · exact h.held j e he
  · intro j e he
    rcases getElem?_fill he with ⟨-, rfl⟩ | he
    · exact hlt
    · exact hc j e he

/-- Without retransmission holes are given up until the packet is in sequence or fits; each
is at least one message, so the distance to the packet bounds how many there are. -/
theorem Following.giveUp (h : Following s cfg first r)
    (hc : Clear r) (hp : Ahead s r p) (hlt : r.next < p.sequence)
    (hfuel : p.sequence < r.next + fuel) :
    ∃ r', giveUp p fuel r = some r' ∧ Following s cfg first r' ∧ Clear r' ∧
      r'.highest = r.highest := by
  induction fuel generalizing r with
  | zero => omega
  | succ fuel ih =>
    have hstop : p.sequence ≤ s.stop := le_trans (Nat.le_add_right _ _) hp.within.2.2
    have hgap : Following s cfg first r.countGap := { h with }
    obtain ⟨h₁, h₂, h₃, h₄⟩ := hgap.skipHole hc hlt hstop
    have hup : r.next < (r.countGap.skipHole p.sequence).next := h₃
    have hhigh : (r.countGap.skipHole p.sequence).highest = r.highest := h₄
    unfold giveUp
    dsimp only
    split_ifs with hcond
    · obtain ⟨r', hr', h₅, h₆, h₇⟩ := ih h₁ h₂ (hp.of_highest hhigh) hcond.1 (by omega)
      exact ⟨r', hr', h₅, h₆, h₇.trans hhigh⟩
    · exact ⟨_, rfl, h₁, h₂, hhigh⟩

theorem Following.duplicate (p : PacketView) (nowNs : Int) (line : Nat)
    (h : Following s cfg first r) (hc : Clear r) :
    Following s cfg first (r.duplicate p nowNs line) ∧ Clear (r.duplicate p nowNs line) := by
  unfold Receiver.duplicate
  dsimp only
  split
  · exact ⟨{ h with }, hc⟩
  · exact ⟨{ h with }, hc⟩

theorem Following.declareGap (h : Following s cfg first r) (hc : Clear r)
    (hlt : r.next < r.highest) :
    Following s cfg first (r.declareGap nowNs) ∧ Clear (r.declareGap nowNs) := by
  have hrec : Following s cfg first { r.countGap with state := .Recovering } := { h with }
  exact hrec.request nowNs hc hlt

theorem Following.dropAhead (h : Following s cfg first r)
    (hc : Clear r) (hp : Ahead s r p) (hlt : r.next < p.sequence) :
    Following s cfg first (r.dropAhead p nowNs) ∧ Clear (r.dropAhead p nowNs) := by
  have hhigh : r.next < r.highest := by
    have hle := hp.highest
    rw [hp.nextSequence_eq] at hle
    omega
  have hraise : ∀ g : Receiver μ, Following s cfg first g → Clear g → g.next < g.highest →
      let g' := if g.state ≠ .Recovering then g.declareGap nowNs else g
      Following s cfg first g' ∧ Clear g' := by
    intro g hg hcg hltg
    split
    · exact hg.declareGap nowNs hcg hltg
    · exact ⟨hg, hcg⟩
  unfold Receiver.dropAhead
  split
  · exact hraise { r with overflowEnd := p.nextSequence } { h with } hc hhigh
  · exact hraise r h hc hhigh

theorem Following.takeAhead (rxMeta : μ)
    (h : Following s cfg first r) (hc : Clear r) (hp : Ahead s r p) :
    Following s cfg first (r.takeAhead p nowNs rxMeta) ∧ Clear (r.takeAhead p nowNs rxMeta) := by
  unfold Receiver.takeAhead
  split
  · rename_i hlt
    cases hr : r.hold p nowNs rxMeta with
    | none => exact ⟨h, hc⟩
    | some r' => exact h.hold nowNs rxMeta hc hp hlt hr
  · rename_i hge
    split
    · obtain ⟨h₁, -⟩ := h.deliver rxMeta hp.within (not_lt.mp hge) hp.blocks
      exact ⟨h₁.drain.1, h₁.drain.2.1⟩
    · exact ⟨h, hc⟩

theorem Following.onAhead (rxMeta : μ) (line : Nat)
    (h : Following s cfg first r) (hc : Clear r) (hp : Ahead s r p) (hlt : r.next < p.sequence)
    (hfuel : s.stop < fuel) :
    ∃ r', r.onAhead fuel p nowNs rxMeta line = some r' ∧ Following s cfg first r' ∧
      Clear r' := by
  have hcopy : Following s cfg first (r.countAhead.firstCopy p nowNs) := { h with }
  have hover : Following s cfg first (r.countAhead.firstCopy p nowNs).countOverflow := { h with }
  unfold Receiver.onAhead
  dsimp only
  split
  · exact ⟨_, rfl, Following.duplicate p nowNs line { h with } hc⟩
  split
  · rename_i r' hr'
    exact ⟨r', rfl, hcopy.hold nowNs rxMeta hc { hp with } hlt hr'⟩
  split
  · exact ⟨_, rfl, hover.dropAhead nowNs hc { hp with } hlt⟩
  have hnear : p.sequence < r.next + fuel := by
    have hle := hp.within.2.2
    omega
  obtain ⟨r', hr', h₁, h₂, h₃⟩ := hover.giveUp hc { hp with } hlt hnear
  rw [hr']
  exact ⟨_, rfl, h₁.takeAhead nowNs rxMeta h₂ (hp.of_highest h₃)⟩

/-! ## After every packet, and on the timer -/

section

variable (h : Following s cfg first r) (hc : Clear r)
include h hc

theorem Following.settle (hge : r.highest ≤ r.next) :
    Following s cfg first r.settle ∧ Clear r.settle := by
  have hquiet : Following s cfg first { r with
    gapSince := kNoGap
    state := if r.state ≠ .Down then .Up else r.state } := { h with }
  unfold Receiver.settle
  dsimp only
  split
  · rename_i hcond
    rw [Bool.and_eq_true, Bool.not_eq_true'] at hcond
    obtain ⟨heos, hnew⟩ := hcond
    refine ⟨{ hquiet with tiles := ?_, along := h.along.snoc ?_, notified := ?_ }, hc⟩
    · rw [stretches_append]
      exact (append_nil (stretches r.calls)).symm ▸ h.tiles
    · exact ⟨h.notified hnew, r.next, h.tiles, le_trans (h.eos heos) hge⟩
    · intro hn
      nomatch hn
  · exact ⟨hquiet, hc⟩

/-- A round of `update` that goes on has given up a hole. -/
theorem Following.updateRound
    (hlt : r.next < r.highest) :
    Following s cfg first (r.updateRound nowNs).1 ∧ Clear (r.updateRound nowNs).1 ∧
      ((r.updateRound nowNs).2 = true →
        r.next < (r.updateRound nowNs).1.next ∧ (r.updateRound nowNs).1.highest = r.highest) := by
  have hnote : Following s cfg first r.noteGap ∧ Clear r.noteGap ∧ r.noteGap.next = r.next ∧
      r.noteGap.highest = r.highest := by
    unfold noteGap
    split
    · exact ⟨{ h with }, hc, rfl, rfl⟩
    · exact ⟨h, hc, rfl, rfl⟩
  unfold Receiver.updateRound
  generalize r.noteGap = g at hnote
  obtain ⟨hg, hcg, hn, hh⟩ := hnote
  have hltg : g.next < g.highest := by omega
  have hno : ∀ g' : Receiver μ, Following s cfg first g' ∧ Clear g' →
      Following s cfg first g' ∧ Clear g' ∧
        (false = true → r.next < g'.next ∧ g'.highest = r.highest) :=
    fun g' hg' => ⟨hg'.1, hg'.2, nofun⟩
  have hskip : ∀ g' : Receiver μ, Following s cfg first g' → Clear g' → g'.next = g.next →
      g'.highest = g.highest →
      Following s cfg first (g'.skipHole g.highest) ∧ Clear (g'.skipHole g.highest) ∧
        (true = true → r.next < (g'.skipHole g.highest).next ∧
          (g'.skipHole g.highest).highest = r.highest) := by
    intro g' hg' hcg' hn' hh'
    obtain ⟨h₁, h₂, h₃, h₄⟩ := hg'.skipHole hcg' (hn' ▸ hltg) hg.highest_le
    exact ⟨h₁, h₂, fun _ => ⟨by omega, by omega⟩⟩
  dsimp only
  split
  · split
    · exact hno g ⟨hg, hcg⟩
    · split
      · exact hskip g.countGap { hg with } hcg rfl rfl
      · exact hno _ (hg.declareGap nowNs hcg hltg)
  · split
    · split
      · exact hno _ (hg.request nowNs hcg hltg)
      · exact hno g ⟨hg, hcg⟩
    · split
      · exact hno g ⟨hg, hcg⟩
      · split
        · exact hno _ (hg.request nowNs hcg hltg)
        · exact hskip g hg hcg rfl rfl

/-- `update` ends: each hole it gives up brings `next_` closer to `highest_`. -/
theorem Following.update
    (hpos : 0 < fuel) (hfuel : r.highest < r.next + fuel) :
    ∃ r', Receiver.update nowNs fuel r = some r' ∧ Following s cfg first r' ∧ Clear r' := by
  induction fuel generalizing r with
  | zero => omega
  | succ fuel ih =>
    unfold Receiver.update
    split
    · rename_i hlt
      obtain ⟨h₁, h₂, h₃⟩ := h.updateRound nowNs hc hlt
      dsimp only
      split_ifs with hagain
      · obtain ⟨hup, hhigh⟩ := h₃ hagain
        exact ih h₁ h₂ (by omega) (by omega)
      · exact ⟨_, rfl, h₁, h₂⟩
    · rename_i hge
      exact ⟨_, rfl, h.settle hc (not_lt.mp hge)⟩

end

end Receiver

end FastMM.Mold
