/-
  Mold/Delivery.lean --- the receiver delivers every message of a session once, in order.

  Source: `include/fastmm/codecs/moldudp/moldudp64.hpp` (`Receiver::on_packet`, `on_timer`,
  `accept_session`).

  Before the first packet of the session it takes, the receiver waits; from then on it
  follows the session.  The run theorem reads the order of the messages, the requests and the
  end of the session off what the handler was told.
-/
import FastMM.Mold.Following
set_option autoImplicit false

namespace FastMM.Mold

open Foundation List Receiver

variable {μ : Type}

/-! ## Datagrams of the session -/

/-- What a datagram of the session says once it is taken apart. -/
structure PacketOf (s : Published) (p : PacketView) : Prop where
  session : p.session = s.session
  sequence_pos : 1 ≤ p.sequence
  stop_le : p.sequence + p.count ≤ s.stop
  data : p.kind = .Data →
    s.Within p.sequence p.count ∧ p.blocks = blocksOf (s.slice p.sequence p.count)
  ending : p.kind = .EndOfSession → p.sequence + p.count = s.stop

theorem PacketOf.nextSequence_le {s : Published} {p : PacketView} (hp : PacketOf s p) :
    p.nextSequence ≤ s.stop := by
  rw [PacketView.nextSequence, add64_eq hp.stop_le]
  exact hp.stop_le

theorem Published.Sent.parse {s : Published} {datagram : List UInt8} (h : s.Sent datagram) :
    ∃ p, parsePacket datagram = some p ∧ PacketOf s p := by
  have hlen := s.length_lt
  have hstop : s.stop = s.messages.length + 1 := rfl
  cases h with
  | data seq count hwithin hmax =>
    have hslice := hwithin.length_slice
    have hseq : seq < 256 ^ 8 := by
      have hle := hwithin.2.2
      omega
    have hmsg : ∀ m ∈ s.slice seq count, m.length ≤ kMaxMessageLength := fun m hm =>
      s.message_le m (mem_of_mem_drop (mem_of_mem_take hm))
    have hparse := parsePacket_dataPacket s.session_length hseq
      (by rw [hslice]; exact hwithin.2.1) (by rw [hslice]; exact hmax) hmsg
    rw [hslice] at hparse
    exact ⟨_, hparse, ⟨rfl, hwithin.1, hwithin.2.2, fun _ => ⟨hwithin, rfl⟩, by simp⟩⟩
  | heartbeat k hpos hle =>
    have hseq : k < 256 ^ 8 := by omega
    exact ⟨_, parsePacket_writeHeader s.session_length hseq (.inl rfl),
      ⟨rfl, hpos, hle, by simp, by simp⟩⟩
  | endOfSession =>
    have hseq : s.stop < 256 ^ 8 := by omega
    refine ⟨_, parsePacket_writeHeader s.session_length hseq (.inr rfl),
      ⟨rfl, ?_, le_refl _, ?_, fun _ => rfl⟩⟩
    · show 1 ≤ s.stop
      omega
    · simp [kEndOfSessionCount, kHeartbeatCount]

namespace Receiver

variable {s : Published} {cfg : ReceiverConfig} {first : Nat} {r : Receiver μ}
variable {fuel : Nat}
variable (calls : List (MoldCall μ))
variable {p : PacketView}
variable (nowNs : Int)
variable {c : MoldCall μ}

/-- Before the first packet of the session. -/
structure Waiting (cfg : ReceiverConfig) (r : Receiver μ) : Prop where
  cfg_eq : r.cfg = cfg
  haveSession : r.haveSession = false
  session : r.session = cfg.session
  next : r.next = cfg.nextSequence
  highest : r.highest = 0
  calls : r.calls = []
  size : r.held.size = 0
  free : r.held.entries.countP Option.isSome = 0
  eos : r.eos = false
  notified : r.eosNotified = false

theorem waiting_create [Inhabited μ] (cfg : ReceiverConfig) :
    Waiting cfg (create (μ := μ) cfg) where
  cfg_eq := rfl
  haveSession := rfl
  session := rfl
  next := rfl
  highest := rfl
  calls := rfl
  size := rfl
  free := by
    rw [countP_eq_zero]
    intro x hx
    simp [eq_of_mem_replicate hx]
  eos := rfl
  notified := rfl

/-- The receiver takes packets of the session `s`: its configuration names it, or none. -/
def Takes (cfg : ReceiverConfig) (s : Published) : Bool :=
  isBlank cfg.session || s.session = cfg.session

/-- Where delivery starts when the first packet is `p`. -/
def startAt (cfg : ReceiverConfig) (p : PacketView) : Nat :=
  if cfg.nextSequence = 0 then (if p.sequence = 0 then 1 else p.sequence) else cfg.nextSequence

theorem highest_notePacket (p : PacketView) (nowNs : Int) (line : Nat) :
    (r.notePacket p nowNs line).highest = max r.highest p.nextSequence := by
  show (if p.nextSequence > r.highest then p.nextSequence else r.highest) = _
  split
  · rename_i hgt
    exact (max_eq_right (le_of_lt hgt)).symm
  · rename_i hle
    exact (max_eq_left (not_lt.mp hle)).symm

/-- The counters of a packet, and how far the session is known to go. -/
theorem Following.notePacket (line : Nat)
    (h : Following s cfg first r) (hc : Clear r) (hp : PacketOf s p) :
    Following s cfg first (r.notePacket p nowNs line) ∧ Clear (r.notePacket p nowNs line) ∧
      p.nextSequence ≤ (r.notePacket p nowNs line).highest := by
  have hhigh := highest_notePacket (r := r) p nowNs line
  have hpos := h.next_pos
  have hnz : ¬ r.next = 0 := by omega
  have hnext : (r.notePacket p nowNs line).next = r.next := if_neg hnz
  have hstop : p.nextSequence ≤ s.stop := hp.nextSequence_le
  refine ⟨{ h with next_pos := ?_, highest_le := ?_, tiles := ?_, held := ?_, eos := ?_ }, ?_, ?_⟩
  · rw [hnext]
    exact hpos
  · rw [hhigh]
    exact max_le h.highest_le hstop
  · rw [hnext]
    exact h.tiles
  · intro i e he
    obtain ⟨hof, hle⟩ := h.held i e he
    rw [hhigh]
    exact ⟨hof, le_trans hle (le_max_left _ _)⟩
  · intro heos
    rw [hhigh]
    exact le_trans (h.eos heos) (le_max_left _ _)
  · intro i e he
    rw [hnext]
    exact hc i e he
  · rw [hhigh]
    exact le_max_right _ _

/-- The first packet of the session sets where delivery starts. -/
theorem Waiting.notePacket (line : Nat) (h : Waiting cfg r) (hp : PacketOf s p) :
    let r' := { r with session := p.session, haveSession := true }.notePacket p nowNs line
    Following s cfg (startAt cfg p) r' ∧ Clear r' ∧ p.nextSequence ≤ r'.highest := by
  intro r'
  have hhigh : r'.highest = max r.highest p.nextSequence := highest_notePacket p nowNs line
  have hstop : p.nextSequence ≤ s.stop := hp.nextSequence_le
  have hempty : ∀ (i : Nat) (e : HeldPacket), r.held.entries[i]? ≠ some (some e) := by
    intro i e he
    have hpos := countP_pos_of_used he
    have hfree := h.free
    omega
  have hnext : r'.next = startAt cfg p := by
    show (if r.next = 0 then (if p.sequence = 0 then 1 else p.sequence) else r.next) = _
    rw [h.next]
    rfl
  have hcalls : r'.calls = [] := h.calls
  refine ⟨?_, fun i e he => absurd he (hempty i e), by rw [hhigh]; exact le_max_right _ _⟩
  refine
    { cfg_eq := h.cfg_eq
      haveSession := rfl
      session := hp.session
      next_pos := ?_
      highest_le := ?_
      tiles := ?_
      along := ?_
      size := h.size.trans h.free.symm
      held := fun i e he => absurd he (hempty i e)
      eos := ?_
      notified := ?_ }
  · rw [hnext]
    unfold startAt
    split
    · split <;> omega
    · omega
  · rw [hhigh, h.highest]
    exact max_le (Nat.zero_le _) hstop
  · rw [hnext, hcalls]
    exact .nil _
  · rw [hcalls]
    exact .nil
  · intro heos
    have hno : r.eos = true := heos
    rw [h.eos] at hno
    simp at hno
  · intro hn hmem
    rw [hcalls] at hmem
    simp at hmem

/-! ## Calls and runs -/

section

variable (rxMeta : μ) (line : Nat) (h : Following s cfg first r) (hc : Clear r) (hp : PacketOf s p)
variable (hhigh : p.nextSequence ≤ r.highest) (hfuel : s.stop < fuel)
include rxMeta line h hc hp hhigh hfuel

theorem Following.onKind :
    ∃ r', r.onKind fuel p nowNs rxMeta line = some r' ∧ Following s cfg first r' ∧ Clear r' := by
  unfold Receiver.onKind
  split
  · exact ⟨_, rfl, { h with }, hc⟩
  · rename_i hkind
    refine ⟨_, rfl, { h with eos := fun _ => ?_ }, hc⟩
    rw [PacketView.nextSequence, add64_eq hp.stop_le, hp.ending hkind] at hhigh
    exact hhigh
  rename_i hkind
  obtain ⟨hwithin, hblocks⟩ := hp.data hkind
  split
  · exact ⟨_, rfl, h.duplicate p nowNs line hc⟩
  split
  · rename_i hle
    have hcopy : Following s cfg first (r.firstCopy p nowNs) := { h with }
    obtain ⟨h₁, -⟩ := hcopy.deliver rxMeta hwithin hle hblocks
    exact ⟨_, rfl, h₁.drain.1, h₁.drain.2.1⟩
  · rename_i hgt
    exact h.onAhead nowNs rxMeta line hc ⟨hwithin, hblocks, hhigh⟩ (not_le.mp hgt) hfuel

/-- A packet of the session, once it is accepted and counted. -/
theorem Following.afterNote :
    ∃ r', (match r.onKind fuel p nowNs rxMeta line with
        | none => none
        | some r' =>
          (if r'.next ≠ r.next then r'.onProgress else r').update nowNs fuel) = some r' ∧
      Following s cfg first r' ∧ Clear r' := by
  obtain ⟨r', hr', h₁, h₂⟩ := h.onKind nowNs rxMeta line hc hp hhigh hfuel
  rw [hr']
  dsimp only
  have hle := h₁.highest_le
  split
  · exact Following.update nowNs (r := r'.onProgress) { h₁ with } h₂ (by omega)
      (show r'.highest < r'.next + fuel by omega)
  · exact h₁.update nowNs h₂ (by omega) (by omega)

end

/-- One call on a receiver that follows the session. -/
theorem Following.call (h : Following s cfg first r)
    (hc : Clear r) (hof : c.Of s) (hfuel : s.stop < fuel) :
    ∃ r', r.call fuel c = some r' ∧ Following s cfg first r' ∧ Clear r' := by
  cases c with
  | timer nowNs =>
    have hle := h.highest_le
    unfold Receiver.call onTimer
    dsimp only
    split
    · exact Following.update nowNs (r := { r with nowNs := nowNs }) { h with } hc (by omega)
        (show r.highest < r.next + fuel by omega)
    · exact ⟨_, rfl, { h with }, hc⟩
  | packet line datagram nowNs rxMeta =>
    obtain ⟨p, hparse, hp⟩ := Published.Sent.parse hof
    have hnow : Following s cfg first { r with nowNs := nowNs } := { h with }
    have haccept : acceptSession { r with nowNs := nowNs } p =
        ({ r with nowNs := nowNs }, true) := by
      unfold acceptSession
      simp [h.haveSession, h.session, hp.session]
    obtain ⟨h₁, h₂, h₃⟩ := hnow.notePacket nowNs line hc hp
    unfold Receiver.call onPacket
    simp only [hparse, haccept]
    exact h₁.afterNote nowNs rxMeta line h₂ hp h₃ hfuel

/-- The first sequence number a run of calls gives. -/
def startOf (cfg : ReceiverConfig) : List (MoldCall μ) → Option Nat
  | [] => none
  | .timer _ :: calls => startOf cfg calls
  | .packet _ datagram _ _ :: calls =>
    match parsePacket datagram with
    | some p => some (startAt cfg p)
    | none => startOf cfg calls

/-- A configured start is where delivery starts. -/
theorem startOf_eq {calls : List (MoldCall μ)} {first : Nat} (h : startOf cfg calls = some first)
    (hcfg : cfg.nextSequence ≠ 0) : first = cfg.nextSequence := by
  induction calls with
  | nil => simp [startOf] at h
  | cons c calls ih =>
    cases c with
    | timer nowNs => exact ih h
    | packet line datagram nowNs rxMeta =>
      cases hparse : parsePacket datagram with
      | none =>
        simp only [startOf, hparse] at h
        exact ih h
      | some p =>
        simp only [startOf, hparse, startAt, if_neg hcfg, Option.some.injEq] at h
        exact h.symm

/-- The number delivery is expected to start with: the configured one, or where the first
packet of the session puts it. -/
def firstExpected (cfg : ReceiverConfig) (s : Published) (calls : List (MoldCall μ)) :
    Option Nat :=
  if cfg.nextSequence ≠ 0 then some cfg.nextSequence
  else if Takes cfg s then startOf cfg calls
  else none

/-- One call before the first packet of a session that the receiver takes. -/
theorem Waiting.call (h : Waiting cfg r) (hof : c.Of s)
    (htakes : Takes cfg s = true) (hfuel : s.stop < fuel) :
    ∃ r', r.call fuel c = some r' ∧
      ((startOf cfg [c] = none ∧ Waiting cfg r') ∨
        ∃ first, startOf cfg [c] = some first ∧ Following s cfg first r' ∧ Clear r') := by
  cases c with
  | timer nowNs =>
    have hquiet : ¬ r.next < r.highest := by
      rw [h.highest]
      exact Nat.not_lt_zero _
    refine ⟨{ r with nowNs := nowNs }, ?_, .inl ⟨rfl, { h with }⟩⟩
    exact if_neg hquiet
  | packet line datagram nowNs rxMeta =>
    obtain ⟨p, hparse, hp⟩ := Published.Sent.parse hof
    have hnow : Waiting cfg { r with nowNs := nowNs } := { h with }
    have haccept : acceptSession { r with nowNs := nowNs } p =
        ({ r with nowNs := nowNs, session := p.session, haveSession := true }, true) := by
      have hok : (!isBlank cfg.session && decide (p.session ≠ cfg.session)) = false := by
        unfold Takes at htakes
        rw [hp.session]
        cases hb : isBlank cfg.session with
        | true => rfl
        | false =>
          rw [hb, Bool.false_or] at htakes
          simp [of_decide_eq_true htakes]
      unfold acceptSession
      rw [h.haveSession, h.session, hok]
      rfl
    obtain ⟨h₁, h₂, h₃⟩ := hnow.notePacket nowNs line hp
    obtain ⟨r', hr', h₄, h₅⟩ := h₁.afterNote nowNs rxMeta line h₂ hp h₃ hfuel
    refine ⟨r', ?_, .inr ⟨startAt cfg p, by simp [startOf, hparse], h₄, h₅⟩⟩
    unfold Receiver.call onPacket
    simp only [hparse, haccept]
    exact hr'

/-- A receiver that was told another session takes no packet of this one. -/
theorem Waiting.call_other (h : Waiting cfg r) (hof : c.Of s)
    (htakes : Takes cfg s = false) : ∃ r', r.call fuel c = some r' ∧ Waiting cfg r' := by
  cases c with
  | timer nowNs =>
    have hquiet : ¬ r.next < r.highest := by
      rw [h.highest]
      exact Nat.not_lt_zero _
    refine ⟨{ r with nowNs := nowNs }, ?_, { h with }⟩
    exact if_neg hquiet
  | packet line datagram nowNs rxMeta =>
    obtain ⟨p, hparse, hp⟩ := Published.Sent.parse hof
    have hbad : (!isBlank cfg.session && decide (p.session ≠ cfg.session)) = true := by
      unfold Takes at htakes
      rw [Bool.or_eq_false_iff] at htakes
      rw [hp.session, htakes.1]
      simpa using htakes.2
    have haccept : acceptSession { r with nowNs := nowNs } p =
        (countMismatch { r with nowNs := nowNs }, false) := by
      unfold acceptSession
      rw [h.haveSession, h.session, hbad]
      rfl
    refine ⟨countMismatch { r with nowNs := nowNs }, ?_, { h with }⟩
    unfold Receiver.call onPacket
    simp only [hparse, haccept]
    rfl

theorem Following.run (h : Following s cfg first r)
    (hc : Clear r) (hof : ∀ c ∈ calls, c.Of s) (hfuel : s.stop < fuel) :
    ∃ r', Receiver.run fuel r calls = some r' ∧ Following s cfg first r' ∧ Clear r' := by
  induction calls generalizing r with
  | nil => exact ⟨r, rfl, h, hc⟩
  | cons c calls ih =>
    obtain ⟨r₁, hr₁, h₁, hc₁⟩ := h.call hc (hof c mem_cons_self) hfuel
    obtain ⟨r', hr', h', hc'⟩ := ih h₁ hc₁ fun d hd => hof d (mem_cons_of_mem c hd)
    refine ⟨r', ?_, h', hc'⟩
    rw [Receiver.run, hr₁]
    exact hr'

theorem startOf_cons (c : MoldCall μ) (calls : List (MoldCall μ)) :
    startOf cfg (c :: calls) = (startOf cfg [c]).or (startOf cfg calls) := by
  cases c with
  | timer nowNs => simp [startOf]
  | packet line datagram nowNs rxMeta =>
    cases h : parsePacket datagram <;> simp [startOf, h]

/-- A run from the start of a receiver that takes the session. -/
theorem Waiting.run (h : Waiting cfg r)
    (hof : ∀ c ∈ calls, c.Of s) (htakes : Takes cfg s = true) (hfuel : s.stop < fuel) :
    ∃ r', Receiver.run fuel r calls = some r' ∧
      ((startOf cfg calls = none ∧ Waiting cfg r') ∨
        ∃ first, startOf cfg calls = some first ∧ Following s cfg first r' ∧ Clear r') := by
  induction calls generalizing r with
  | nil => exact ⟨r, rfl, .inl ⟨rfl, h⟩⟩
  | cons c calls ih =>
    have hrest : ∀ d ∈ calls, d.Of s := fun d hd => hof d (mem_cons_of_mem c hd)
    obtain ⟨r₁, hr₁, hcase⟩ := h.call (hof c mem_cons_self) htakes hfuel
    rw [startOf_cons, Receiver.run, hr₁]
    rcases hcase with ⟨hnone, hwait⟩ | ⟨first, hsome, hfollow, hclear⟩
    · rw [hnone]
      exact ih hwait hrest
    · rw [hsome]
      obtain ⟨r', hr', h', hc'⟩ := hfollow.run calls hclear hrest hfuel
      exact ⟨r', hr', .inr ⟨first, rfl, h', hc'⟩⟩

theorem Waiting.run_other (h : Waiting cfg r)
    (hof : ∀ c ∈ calls, c.Of s) (htakes : Takes cfg s = false) :
    ∃ r', Receiver.run fuel r calls = some r' ∧ Waiting cfg r' := by
  induction calls generalizing r with
  | nil => exact ⟨r, rfl, h⟩
  | cons c calls ih =>
    obtain ⟨r₁, hr₁, h₁⟩ := @Waiting.call_other _ _ _ _ fuel _ h (hof c mem_cons_self) htakes
    rw [Receiver.run, hr₁]
    exact ih h₁ fun d hd => hof d (mem_cons_of_mem c hd)

end Receiver

/-! ## Every message once, in order -/

/-- What the handler of a receiver that heard `calls` was told of the session `s`. -/
structure InOrder (s : Published) (cfg : ReceiverConfig) (calls : List (MoldCall μ))
    (r : Receiver μ) : Prop where
  /-- The messages told have increasing numbers. -/
  increasing : (takenSeqs (stretches r.calls)).Pairwise (· < ·)
  /-- They are the messages published under these numbers. -/
  bytes : ∀ seq msg rxMeta, HandlerCall.onMessage seq msg rxMeta ∈ r.calls →
    1 ≤ seq ∧ s.messages[seq - 1]? = some msg
  /-- Every number from the first one expected up to `next_sequence()` was told once or lies
  in one run reported unrecoverable, and no other number does. -/
  once : ∀ first, firstExpected cfg s calls = some first → first ≤ r.next ∧
    (∀ n, first ≤ n → n < r.next →
      ∃! i : Nat, ∃ t, (stretches r.calls)[i]? = some t ∧ t.Has n) ∧
    ∀ t ∈ stretches r.calls, ∀ n, t.Has n → first ≤ n ∧ n < r.next
  /-- Before a number was expected nothing was told. -/
  nothing : firstExpected cfg s calls = none → r.calls = []
  /-- A request names the numbers from `next_sequence()` on, none of them told before. -/
  requests : ∀ pre packet post, r.calls = pre ++ .sendRequest packet :: post →
    ∃ first seq count, firstExpected cfg s calls = some first ∧
      parseRequest packet = some ⟨s.session, seq, count⟩ ∧ Tiles first (stretches pre) seq ∧
      (∀ n ∈ takenSeqs (stretches pre), n < seq) ∧ seq + count ≤ s.stop ∧
      count ≤ cfg.maxRequestCount.toNat ∧ (0 < cfg.maxRequestCount.toNat → 0 < count)
  /-- The end of the session is told once, and with no number below it outstanding. -/
  ending : ∀ pre post, r.calls = pre ++ .onEndOfSession :: post →
    HandlerCall.onEndOfSession ∉ pre ∧ ∃ first seq, firstExpected cfg s calls = some first ∧
      Tiles first (stretches pre) seq ∧ s.stop ≤ seq

namespace Receiver

variable {s : Published} {cfg : ReceiverConfig} {first : Nat} {r : Receiver μ}
  {calls : List (MoldCall μ)}

theorem Following.inOrder (h : Following s cfg first r)
    (hfirst : firstExpected cfg s calls = some first) : InOrder s cfg calls r where
  increasing := h.tiles.takenSeqs_pairwise
  bytes := by
    intro seq msg rxMeta hmem
    obtain ⟨pre, hpre⟩ := h.along.of_mem hmem
    exact hpre
  once := by
    intro x hx
    obtain rfl : first = x := Option.some.inj (hfirst.symm.trans hx)
    refine ⟨h.tiles.le, fun n hlo hhi => h.tiles.existsUnique_has hlo hhi, ?_⟩
    intro t ht n hn
    obtain ⟨hlo, hhi⟩ := h.tiles.mem_bounds ht
    exact ⟨le_trans hlo hn.1, lt_of_lt_of_le hn.2 hhi⟩
  nothing := fun hnone => absurd (hfirst.symm.trans hnone) (by simp)
  requests := by
    intro pre packet post heq
    obtain ⟨seq, count, hparse, htiles, hstop, hmax, hpos⟩ := h.along pre _ post heq
    exact ⟨first, seq, count, hfirst, hparse, htiles, fun n hn => htiles.lt_of_taken hn, hstop,
      hmax, hpos⟩
  ending := by
    intro pre post heq
    obtain ⟨hnew, seq, htiles, hstop⟩ := h.along pre _ post heq
    exact ⟨hnew, first, seq, hfirst, htiles, hstop⟩

theorem Waiting.inOrder (h : Waiting cfg r)
    (hfirst : ∀ first, firstExpected cfg s calls = some first → first = cfg.nextSequence) :
    InOrder s cfg calls r where
  increasing := by
    rw [h.calls]
    exact List.Pairwise.nil
  bytes := fun seq msg rxMeta hmem => by simp [h.calls] at hmem
  once := by
    intro first hx
    obtain rfl := hfirst first hx
    rw [h.next, h.calls]
    refine ⟨le_refl _, fun n hlo hhi => absurd hhi (not_lt.mpr hlo), ?_⟩
    intro t ht
    simp [stretches] at ht
  nothing := fun _ => h.calls
  requests := fun pre packet post heq => by simp [h.calls] at heq
  ending := fun pre post heq => by simp [h.calls] at heq

end Receiver

/-- Whatever the lines lose, repeat, delay or cut differently, every call returns and every
message is told once, in order, or reported unrecoverable. -/
theorem messages_told_once_in_order [Inhabited μ] (s : Published) (cfg : ReceiverConfig)
    (calls : List (MoldCall μ)) (fuel : Nat) (hof : ∀ c ∈ calls, c.Of s) (hfuel : s.stop < fuel) :
    ∃ r, Receiver.run fuel (Receiver.create cfg) calls = some r ∧ InOrder s cfg calls r := by
  have hwait : Receiver.Waiting cfg (Receiver.create (μ := μ) cfg) := waiting_create cfg
  cases htakes : Receiver.Takes cfg s with
  | false =>
    obtain ⟨r, hr, h⟩ := @Receiver.Waiting.run_other _ _ _ _ fuel calls hwait hof htakes
    refine ⟨r, hr, h.inOrder fun first hfirst => ?_⟩
    unfold firstExpected at hfirst
    split at hfirst
    · exact (Option.some.inj hfirst).symm
    · simp [htakes] at hfirst
  | true =>
    obtain ⟨r, hr, ⟨hnone, h⟩ | ⟨first, hsome, h, -⟩⟩ := hwait.run calls hof htakes hfuel
    · refine ⟨r, hr, h.inOrder fun first hfirst => ?_⟩
      unfold firstExpected at hfirst
      split at hfirst
      · exact (Option.some.inj hfirst).symm
      · simp [hnone] at hfirst
    · refine ⟨r, hr, h.inOrder ?_⟩
      unfold firstExpected
      split_ifs with hcfg
      · rw [startOf_eq hsome hcfg]
      · exact hsome

/-- Three messages of one byte. -/
def threeMessages : Published where
  session := List.replicate 10 65
  messages := [[1], [2], [3]]
  session_length := by decide
  length_lt := by decide
  message_le := by decide

/-- Message 3 overtakes the packet with messages 1 and 2, and comes twice. -/
theorem overtaking_packet_told_in_order :
    let calls : List (MoldCall Unit) :=
      [.packet 0 (heartbeat threeMessages.session 1) 0 (),
        .packet 0 (dataPacket threeMessages.session 3 (threeMessages.slice 3 1)) 10 (),
        .packet 1 (dataPacket threeMessages.session 1 (threeMessages.slice 1 2)) 20 (),
        .packet 1 (dataPacket threeMessages.session 3 (threeMessages.slice 3 1)) 30 (),
        .timer 40, .packet 0 (endOfSession threeMessages.session threeMessages.stop) 50 ()]
    ∃ r, Receiver.run 5 (Receiver.create {}) calls = some r ∧
      InOrder threeMessages {} calls r := by
  intro calls
  refine messages_told_once_in_order threeMessages {} calls 5 ?_ (by decide)
  intro c hc
  simp only [calls, mem_cons, not_mem_nil, or_false] at hc
  rcases hc with rfl | rfl | rfl | rfl | rfl | rfl
  · exact .heartbeat 1 (by decide) (by decide)
  · exact .data 3 1 ⟨by decide, by decide, by decide⟩ (by decide)
  · exact .data 1 2 ⟨by decide, by decide, by decide⟩ (by decide)
  · exact .data 3 1 ⟨by decide, by decide, by decide⟩ (by decide)
  · trivial
  · exact .endOfSession

/-- With `max_request_count` 0 the request for messages 1 to 3 names none of them. -/
theorem request_of_no_message :
    let calls : List (MoldCall Unit) := [.packet 0 (heartbeat threeMessages.session 4) 0 ()]
    let cfg : ReceiverConfig := { nextSequence := 1, gapTimeoutNs := 0, maxRequestCount := 0 }
    (∀ c ∈ calls, c.Of threeMessages) ∧
      (Receiver.run 5 (Receiver.create cfg) calls).map (fun r => r.calls) =
        some [.sendRequest (writeRequest threeMessages.session 1 0)] ∧
      parseRequest (writeRequest threeMessages.session 1 0) =
        some ⟨threeMessages.session, 1, 0⟩ := by
  refine ⟨?_, rfl, rfl⟩
  intro c hc
  obtain rfl := mem_singleton.mp hc
  exact .heartbeat 4 (by decide) (by decide)

end FastMM.Mold
