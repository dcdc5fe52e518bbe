/-
  Mold/Transmitter.lean --- the transmitter and the history it answers requests from.

  Source: `include/fastmm/codecs/moldudp/moldudp64.hpp` (`TransmitterConfig`, `Transmitter`) and
  `src/codecs/moldudp/moldudp64.cpp` (`publish`, `packet_at`, `next_packet`, `answer_request`).

  A packet is the bytes a call writes, none when it writes nothing; `out` is the room it is given.
-/
import FastMM.Foundation.LapBuffer
import FastMM.Mold.Packet
set_option autoImplicit false

namespace FastMM.Mold

open Foundation Function List

def kDefaultMaxDatagram : Nat := 1472

structure TransmitterConfig where
  historyBytes : Nat := 2 ^ 22
  historyMessages : Nat := 2 ^ 18
  maxDatagram : Nat := kDefaultMaxDatagram
  overwriteOldest : Bool := false

structure Transmitter where
  session : SessionId
  cfg : TransmitterConfig
  bytes : Nat → UInt8 := fun _ => 0
  starts : Nat → Nat := fun _ => 0
  lens : Nat → Nat := fun _ => 0
  count : Nat := 0
  first : Nat := 1
  head : Nat := 0
  evicted : Nat := 0
  nextUnsent : Nat := 1

namespace Transmitter

variable (t : Transmitter)
variable (session : SessionId)
variable (cfg : TransmitterConfig)
variable {out seq maxCount : Nat}

def held : Nat := t.count + 1 - t.first

def startOf (seq : Nat) : Nat := t.starts (seq % t.cfg.historyMessages)

def lenOf (seq : Nat) : Nat := t.lens (seq % t.cfg.historyMessages)

/-- The bytes kept for a sequence number. -/
def messageOf (seq : Nat) : List UInt8 := readAt t.bytes (t.startOf seq) (t.lenOf seq)

def evictOldest : Transmitter := { t with first := t.first + 1, evicted := t.evicted + 1 }

/-- The oldest messages go while they are `p`, at most so many. -/
def evictWhile (p : Nat → Bool) : Nat → Transmitter → Transmitter
  | 0, t => t
  | n + 1, t =>
    if t.held ≠ 0 ∧ p (t.startOf t.first) = true then evictWhile p n t.evictOldest else t

/-- `publish` once there is room: the message goes to the head. -/
def store (msg : List UInt8) : Transmitter :=
  let count := t.count + 1
  let slot := count % t.cfg.historyMessages
  { t with
    bytes := writeAt t.bytes t.head msg
    starts := update t.starts slot t.head
    lens := update t.lens slot msg.length
    count := count
    head := t.head + msg.length }

/-- Room for one message more. -/
def makeSlot : Transmitter := if t.cfg.historyMessages ≤ t.held then t.evictOldest else t

/-- The writing restarts at offset zero when `n` bytes do not fit behind the head. -/
def wrapFor (n : Nat) : Transmitter :=
  if t.cfg.historyBytes - t.head < n then
    { evictWhile (fun start => decide (t.head ≤ start)) t.held t with head := 0 }
  else t

/-- Room for `n` bytes at the head. -/
def makeRoom (n : Nat) : Transmitter :=
  evictWhile (fun start => decide (t.head ≤ start ∧ start < t.head + n)) t.held t

/-- `publish`: the sequence number, or zero. -/
def publish (msg : List UInt8) : Nat × Transmitter :=
  let n := msg.length
  if kMaxMessageLength < n ∨ t.cfg.historyBytes < n ∨ t.cfg.historyMessages = 0 then (0, t)
  else if t.cfg.overwriteOldest = false then
    if t.cfg.historyMessages ≤ t.held ∨ t.cfg.historyBytes - t.head < n then (0, t)
    else (t.count + 1, t.store msg)
  else
    let t := ((t.makeSlot).wrapFor n).makeRoom n
    (t.count + 1, t.store msg)

/-- `PacketBuilder::add` succeeds after the messages `acc`. -/
def fits (limit : Nat) (acc : List (List UInt8)) (msg : List UInt8) : Bool :=
  decide (kHeaderLength ≤ limit ∧ msg.length ≤ kMaxMessageLength ∧
    acc.length < kMaxMessagesPerPacket ∧
    kHeaderLength + (blocksOf acc).length + (2 + msg.length) ≤ limit)

/-- The loop of `packet_at`, at most so many times. -/
def gather (limit maxCount : Nat) : Nat → Nat → List (List UInt8) → List (List UInt8)
  | 0, _, acc => acc
  | n + 1, s, acc =>
    if s ≤ t.count ∧ acc.length < maxCount ∧ fits limit acc (t.messageOf s) = true then
      gather limit maxCount n (s + 1) (acc ++ [t.messageOf s])
    else acc

def packetAt (out seq maxCount : Nat) : Option (List UInt8) :=
  if seq < t.first ∨ t.count < seq then none
  else
    let limit := min out t.cfg.maxDatagram
    let msgs := t.gather limit maxCount (t.count + 1 - seq) seq []
    if msgs = [] then none else some (dataPacket t.session seq msgs)

def nextPacket (out maxCount : Nat) : Option (List UInt8) × Transmitter :=
  let t := if t.nextUnsent < t.first then { t with nextUnsent := t.first } else t
  if t.count < t.nextUnsent then (none, t)
  else
    match t.packetAt out t.nextUnsent maxCount with
    | none => (none, t)
    | some p => (some p, { t with nextUnsent := t.nextUnsent + loadBe ((p.drop 18).take 2) })

def answerRequest (request : List UInt8) (out : Nat) : Option (List UInt8) :=
  match parseRequest request with
  | none => none
  | some r =>
    if r.session ≠ t.session ∨ r.count = 0 then none else t.packetAt out r.sequence r.count

/-! ## Runs -/

inductive Op where
  | publish (msg : List UInt8)
  | nextPacket (out maxCount : Nat)
  | answerRequest (request : List UInt8) (out : Nat)

/-- A transmitter, and the messages its successful `publish` calls were given. -/
structure Log where
  t : Transmitter
  published : List (List UInt8) := []

def Log.step (l : Log) : Op → Log
  | .publish msg =>
    let r := l.t.publish msg
    ⟨r.2, if r.1 = 0 then l.published else l.published ++ [msg]⟩
  | .nextPacket out maxCount => { l with t := (l.t.nextPacket out maxCount).2 }
  | .answerRequest _ _ => l

def Log.run (ops : List Op) : Log :=
  ops.foldl Log.step ⟨{ session := session, cfg := cfg }, []⟩

/-! ## What the history holds -/

/-- The transmitter keeps messages `first` to `count` of those published. -/
structure History (t : Transmitter) (msgs : List (List UInt8)) : Prop where
  count : t.count = msgs.length
  first_pos : 0 < t.first
  first_le : t.first ≤ t.count + 1
  held_le : t.held ≤ t.cfg.historyMessages
  laps : ∃ mid, Laps t.startOf t.lenOf t.first mid t.count t.head t.cfg.historyBytes
  kept : ∀ s, t.first ≤ s → s ≤ t.count → msgs[s - 1]? = some (t.messageOf s)
  lens : ∀ s, t.first ≤ s → s ≤ t.count → (t.messageOf s).length = t.lenOf s
  short : ∀ m ∈ msgs, m.length ≤ kMaxMessageLength
  plain : t.cfg.overwriteOldest = false →
    t.first = 1 ∧ t.head = (msgs.map List.length).sum ∧
      Laps t.startOf t.lenOf 1 1 t.count t.head t.cfg.historyBytes

variable {t : Transmitter} {msgs : List (List UInt8)}

theorem length_readAt {B : Type} (bytes : Nat → B) (off n : Nat) :
    (readAt bytes off n).length = n := by
  unfold readAt
  rw [length_map, length_range]

/-- Two sequence numbers kept do not share a slot. -/
theorem mod_ne {a b n : Nat} (hlt : a < b) (hclose : b - a < n) : a % n ≠ b % n := by
  intro heq
  have hzero : (b - a) % n = 0 := Nat.sub_mod_eq_zero_of_mod_eq heq.symm
  rw [Nat.mod_eq_of_lt hclose] at hzero
  omega

theorem History.evict (h : History t msgs) (hoverwrite : t.cfg.overwriteOldest = true)
    (hheld : t.held ≠ 0) : History t.evictOldest msgs := by
  obtain ⟨mid, hlaps⟩ := h.laps
  have hfirst : t.first ≤ t.count := by
    unfold held at hheld
    omega
  refine ⟨h.count, Nat.succ_pos _, Nat.succ_le_succ hfirst, ?_, ⟨_, hlaps.evict hfirst⟩, ?_, ?_,
    h.short, ?_⟩
  · have hle := h.held_le
    show t.count + 1 - (t.first + 1) ≤ t.cfg.historyMessages
    unfold held at hle
    omega
  · intro s h₁ h₂
    exact h.kept s (by exact Nat.le_of_succ_le h₁) h₂
  · intro s h₁ h₂
    exact h.lens s (by exact Nat.le_of_succ_le h₁) h₂
  · intro hplain
    exact absurd (hoverwrite.symm.trans hplain) (by decide)

/-- Evicting changes nothing but the oldest sequence number kept, and stops before one that is not
`p`. -/
structure Evicted (t t' : Transmitter) (msgs : List (List UInt8)) (p : Nat → Bool) : Prop where
  history : History t' msgs
  head : t'.head = t.head
  count : t'.count = t.count
  cfg : t'.cfg = t.cfg
  held : t'.held ≤ t.held
  stops : t'.first ≤ t'.count → p (t'.startOf t'.first) = false

theorem Evicted.while (p : Nat → Bool) (n : Nat) (t : Transmitter) (h : History t msgs)
    (hoverwrite : t.cfg.overwriteOldest = true) (hn : t.held ≤ n) :
    Evicted t (evictWhile p n t) msgs p := by
  induction n generalizing t with
  | zero =>
    refine ⟨h, rfl, rfl, rfl, Nat.le_refl _, fun hfirst => ?_⟩
    unfold Transmitter.held at hn
    change t.first ≤ t.count at hfirst
    omega
  | succ n ih =>
    unfold evictWhile
    split_ifs with hgo
    · have hlt : t.evictOldest.held + 1 = t.held := by
        have hheld := hgo.1
        show t.count + 1 - (t.first + 1) + 1 = t.count + 1 - t.first
        unfold Transmitter.held at hheld
        omega
      have hrest := ih t.evictOldest (h.evict hoverwrite hgo.1) hoverwrite (by omega)
      exact ⟨hrest.history, hrest.head, hrest.count, hrest.cfg,
        Nat.le_trans hrest.held (by omega), hrest.stops⟩
    · refine ⟨h, rfl, rfl, rfl, Nat.le_refl _, fun hfirst => ?_⟩
      rw [← Bool.not_eq_true]
      intro hp
      refine hgo ⟨?_, hp⟩
      unfold Transmitter.held
      omega

/-- A message is stored where there is a slot and room at the head. -/
theorem History.store (h : History t msgs) {msg : List UInt8}
    (hshort : msg.length ≤ kMaxMessageLength) (hslot : t.held < t.cfg.historyMessages)
    (hfit : t.head + msg.length ≤ t.cfg.historyBytes) {mid : Nat}
    (hlaps : Laps t.startOf t.lenOf t.first mid t.count t.head t.cfg.historyBytes)
    (hfree : ∀ s, t.first ≤ s → s < mid → t.head + msg.length ≤ t.startOf s) :
    History (t.store msg) (msgs ++ [msg]) := by
  have hcount := h.count
  have hfirst := h.first_pos
  have hle := h.first_le
  have hold : ∀ s, t.first ≤ s → s ≤ t.count →
      (t.store msg).startOf s = t.startOf s ∧ (t.store msg).lenOf s = t.lenOf s := by
    intro s h₁ h₂
    have hne : s % t.cfg.historyMessages ≠ (t.count + 1) % t.cfg.historyMessages := by
      unfold held at hslot
      exact mod_ne (by omega) (by omega)
    exact ⟨update_of_ne hne _ _, update_of_ne hne _ _⟩
  have hstart : (t.store msg).startOf (t.count + 1) = t.head := update_self _ _ _
  have hlen : (t.store msg).lenOf (t.count + 1) = msg.length := update_self _ _ _
  have hnew : (t.store msg).messageOf (t.count + 1) = msg := by
    unfold messageOf
    rw [hstart, hlen]
    exact readAt_writeAt_self t.bytes t.head msg
  have hkeep : ∀ s, t.first ≤ s → s ≤ t.count →
      (t.store msg).messageOf s = t.messageOf s := by
    intro s h₁ h₂
    unfold messageOf
    rw [(hold s h₁ h₂).1, (hold s h₁ h₂).2]
    exact readAt_writeAt_of_disjoint t.bytes (hlaps.apart hfree h₁ h₂)
  refine ⟨?_, hfirst, ?_, ?_, ⟨mid, ?_⟩, ?_, ?_, ?_, ?_⟩
  · rw [length_append, length_singleton, ← hcount]
    rfl
  · show t.first ≤ t.count + 1 + 1
    omega
  · show t.count + 1 + 1 - t.first ≤ t.cfg.historyMessages
    unfold held at hslot
    omega
  · exact hlaps.push hfit hfree hold hstart hlen
  · intro s h₁ h₂
    change s ≤ t.count + 1 at h₂
    change t.first ≤ s at h₁
    rcases Nat.eq_or_lt_of_le h₂ with rfl | hlt
    · rw [hnew, Nat.add_sub_cancel, hcount, getElem?_concat_length]
    · rw [hkeep s h₁ (by omega), ← h.kept s h₁ (by omega),
        getElem?_append_left (by omega)]
  · intro s h₁ h₂
    exact length_readAt _ _ _
  · exact forall_mem_append.mpr ⟨h.short, forall_mem_singleton.mpr hshort⟩
  intro hplain
  obtain ⟨hone, hhead, hlaps₁⟩ := h.plain hplain
  refine ⟨hone, ?_, hlaps₁.push hfit (fun s h₁ h₂ => absurd h₂ (by omega)) ?_ hstart hlen⟩
  · rw [map_append, sum_append, ← hhead]
    rfl
  · intro s h₁ h₂
    exact hold s (by omega) h₂

/-- Room is made for a message that fits the history. -/
theorem History.makeAll (h : History t msgs) (hoverwrite : t.cfg.overwriteOldest = true)
    (hmessages : t.cfg.historyMessages ≠ 0) {msg : List UInt8}
    (hshort : msg.length ≤ kMaxMessageLength) (hfit : msg.length ≤ t.cfg.historyBytes) :
    History (((t.makeSlot).wrapFor msg.length).makeRoom msg.length |>.store msg) (msgs ++ [msg]) ∧
      (((t.makeSlot).wrapFor msg.length).makeRoom msg.length).count = t.count := by
  obtain ⟨t₁, ht₁⟩ : ∃ t₁, t₁ = t.makeSlot := ⟨_, rfl⟩
  have h₁ : History t₁ msgs ∧ t₁.held < t₁.cfg.historyMessages ∧ t₁.cfg = t.cfg ∧
      t₁.count = t.count := by
    rw [ht₁]
    unfold makeSlot
    split_ifs with hfull
    · refine ⟨h.evict hoverwrite (by omega), ?_, rfl, rfl⟩
      have hle := h.held_le
      show t.count + 1 - (t.first + 1) < t.cfg.historyMessages
      unfold held at hle hfull
      omega
    · exact ⟨h, Nat.not_le.mp hfull, rfl, rfl⟩
  obtain ⟨hhist₁, hslot₁, hcfg₁, hcount₁⟩ := h₁
  obtain ⟨t₂, ht₂⟩ : ∃ t₂, t₂ = t₁.wrapFor msg.length := ⟨_, rfl⟩
  have h₂ : History t₂ msgs ∧ t₂.held < t₂.cfg.historyMessages ∧ t₂.cfg = t.cfg ∧
      t₂.count = t.count ∧ t₂.head + msg.length ≤ t₂.cfg.historyBytes := by
    rw [ht₂]
    unfold wrapFor
    split_ifs with hwrap
    · have hover₁ : t₁.cfg.overwriteOldest = true := by rw [hcfg₁]; exact hoverwrite
      have hev := Evicted.while (fun start => decide (t₁.head ≤ start)) t₁.held t₁ hhist₁ hover₁
        (Nat.le_refl _)
      generalize evictWhile (fun start => decide (t₁.head ≤ start)) t₁.held t₁ = t' at hev
      have hhist := hev.history
      obtain ⟨mid, hlaps⟩ := hhist.laps
      have hnone : mid ≤ t'.first := by
        refine hlaps.mid_le_first fun hle => ?_
        have hstop := hev.stops hle
        rw [hev.head]
        exact Nat.not_le.mp (of_decide_eq_false hstop)
      have hcfg' : t'.cfg = t.cfg := hev.cfg.trans hcfg₁
      refine ⟨⟨hhist.count, hhist.first_pos, hhist.first_le, hhist.held_le,
        ⟨_, hlaps.wrap hnone hhist.first_le⟩, hhist.kept, hhist.lens, hhist.short, ?_⟩, ?_, hcfg',
        hev.count.trans hcount₁, ?_⟩
      · intro hplain
        have hplain' : t'.cfg.overwriteOldest = false := hplain
        rw [hcfg', hoverwrite] at hplain'
        exact absurd hplain' (by decide)
      · rw [hev.cfg]
        exact Nat.lt_of_le_of_lt hev.held hslot₁
      · rw [hcfg', Nat.zero_add]
        exact hfit
    · refine ⟨hhist₁, hslot₁, hcfg₁, hcount₁, ?_⟩
      obtain ⟨mid, hlaps⟩ := hhist₁.laps
      have hhead := hlaps.head_le
      omega
  obtain ⟨hhist₂, hslot₂, hcfg₂, hcount₂, hfit₂⟩ := h₂
  rw [← ht₁, ← ht₂]
  have hover₂ : t₂.cfg.overwriteOldest = true := by rw [hcfg₂]; exact hoverwrite
  have hev := Evicted.while
    (fun start => decide (t₂.head ≤ start ∧ start < t₂.head + msg.length)) t₂.held t₂ hhist₂ hover₂
    (Nat.le_refl _)
  have hroom : t₂.makeRoom msg.length = evictWhile
    (fun start => decide (t₂.head ≤ start ∧ start < t₂.head + msg.length)) t₂.held t₂ := rfl
  rw [← hroom] at hev
  generalize t₂.makeRoom msg.length = t₃ at hev ⊢
  obtain ⟨mid, hlaps⟩ := hev.history.laps
  refine ⟨hev.history.store hshort ?_ ?_ hlaps (hlaps.room fun hle => ?_), hev.count.trans hcount₂⟩
  · rw [hev.cfg]
    exact Nat.lt_of_le_of_lt hev.held hslot₂
  · rw [hev.head, hev.cfg]
    exact hfit₂
  · have hstop := of_decide_eq_false (hev.stops hle)
    rw [hev.head]
    omega

theorem History.publish (h : History t msgs) (msg : List UInt8) : History (t.publish msg).2
      (if (t.publish msg).1 = 0 then msgs else msgs ++ [msg]) := by
  unfold Transmitter.publish
  dsimp only
  split
  · rw [if_pos rfl]
    exact h
  next hsize =>
    obtain ⟨hshort, hbig⟩ := not_or.mp hsize
    obtain ⟨hfits, hmessages⟩ := not_or.mp hbig
    split
    next hplain =>
      split
      · rw [if_pos rfl]
        exact h
      next hroom =>
        obtain ⟨hslot, -⟩ := not_or.mp hroom
        rw [if_neg (Nat.succ_ne_zero _)]
        obtain ⟨hone, -, hlaps⟩ := h.plain hplain
        have hle := hlaps.head_le
        rw [← hone] at hlaps
        exact h.store (Nat.not_lt.mp hshort) (Nat.not_le.mp hslot) (by omega) hlaps
          fun s h₁ h₂ => absurd h₂ (by omega)
    next hplain =>
      rw [if_neg (Nat.succ_ne_zero _)]
      exact (h.makeAll (Bool.not_eq_false _ ▸ hplain) hmessages (Nat.not_lt.mp hshort)
        (Nat.not_lt.mp hfits)).1

theorem history_start : History { session := session, cfg := cfg } [] := by
  refine ⟨rfl, Nat.one_pos, Nat.le_refl _, Nat.zero_le _, ⟨1, Laps.empty _ 0⟩, ?_, ?_, ?_, ?_⟩
  · intro s h₁ h₂
    change 1 ≤ s at h₁
    change s ≤ 0 at h₂
    omega
  · intro s h₁ h₂
    exact length_readAt _ _ _
  · intro m hm
    exact absurd hm not_mem_nil
  · intro _
    exact ⟨rfl, rfl, Laps.empty _ 0⟩

/-- Sending changes what is sent next, and nothing of the history. -/
theorem History.of_same {t' : Transmitter} (h : History t msgs) (hbytes : t'.bytes = t.bytes)
    (hstarts : t'.starts = t.starts) (hlens : t'.lens = t.lens) (hcfg : t'.cfg = t.cfg)
    (hcount : t'.count = t.count) (hfirst : t'.first = t.first) (hhead : t'.head = t.head) :
    History t' msgs := by
  have hstart : t'.startOf = t.startOf := by
    funext s
    unfold startOf
    rw [hstarts, hcfg]
  have hlen : t'.lenOf = t.lenOf := by
    funext s
    unfold lenOf
    rw [hlens, hcfg]
  have hmessage : t'.messageOf = t.messageOf := by
    funext s
    unfold messageOf
    rw [hstart, hlen, hbytes]
  have hheld : t'.held = t.held := by
    unfold held
    rw [hcount, hfirst]
  refine ⟨hcount.trans h.count, ?_, ?_, ?_, ?_, ?_, ?_, h.short, ?_⟩
  · rw [hfirst]
    exact h.first_pos
  · rw [hfirst, hcount]
    exact h.first_le
  · rw [hheld, hcfg]
    exact h.held_le
  · rw [hstart, hlen, hfirst, hcount, hhead, hcfg]
    exact h.laps
  · rw [hfirst, hcount, hmessage]
    exact h.kept
  · rw [hfirst, hcount, hmessage, hlen]
    exact h.lens
  · rw [hstart, hlen, hfirst, hcount, hhead, hcfg]
    exact h.plain

theorem History.nextPacket (h : History t msgs) (out maxCount : Nat) :
    History (t.nextPacket out maxCount).2 msgs := by
  unfold Transmitter.nextPacket
  extract_lets t'
  have h' : History t' msgs := by
    show History (if t.nextUnsent < t.first then { t with nextUnsent := t.first } else t) msgs
    split
    · exact h.of_same rfl rfl rfl rfl rfl rfl rfl
    · exact h
  clear_value t'
  split
  · exact h'
  · split
    · exact h'
    · exact h'.of_same rfl rfl rfl rfl rfl rfl rfl

/-- Every reachable transmitter keeps what its calls were given. -/
theorem history_run (ops : List Op) :
    History (Log.run session cfg ops).t (Log.run session cfg ops).published := by
  have hstep : ∀ (l : Log) (op : Op), History l.t l.published →
      History (l.step op).t (l.step op).published := by
    intro l op h
    cases op with
    | publish msg => exact h.publish msg
    | nextPacket out maxCount => exact h.nextPacket out maxCount
    | answerRequest request out => exact h
  have hrun : ∀ (ops : List Op) (l : Log), History l.t l.published →
      History (ops.foldl Log.step l).t (ops.foldl Log.step l).published := by
    intro ops
    induction ops with
    | nil => exact fun _ h => h
    | cons op ops ih => exact fun l h => ih (l.step op) (hstep l op h)
  exact hrun ops _ (history_start session cfg)

/-! ## Packets -/

/-- A packet of `k` messages from sequence number `seq` on, one at least. -/
structure Carries (t : Transmitter) (msgs : List (List UInt8)) (seq maxCount : Nat)
    (p : List UInt8) (k : Nat) : Prop where
  pos : 0 < k
  le_max : k ≤ maxCount
  le_packet : k ≤ kMaxMessagesPerPacket
  first_le : t.first ≤ seq
  within : seq + k ≤ t.count + 1
  bytes : p = dataPacket t.session seq ((msgs.drop (seq - 1)).take k)

/-- The messages the loop gathers are the ones published from `seq` on. -/
theorem History.gather (h : History t msgs) {seq : Nat} (hseq : t.first ≤ seq)
    (limit maxCount n k : Nat) (hk : seq + k ≤ t.count + 1) (hmax : k ≤ maxCount)
    (hpacket : k ≤ kMaxMessagesPerPacket) :
    ∃ k', k' ≤ maxCount ∧ k' ≤ kMaxMessagesPerPacket ∧ seq + k' ≤ t.count + 1 ∧
      t.gather limit maxCount n (seq + k) ((msgs.drop (seq - 1)).take k) =
        (msgs.drop (seq - 1)).take k' := by
  induction n generalizing k with
  | zero => exact ⟨k, hmax, hpacket, hk, rfl⟩
  | succ n ih =>
    have hpos := h.first_pos
    have hcount := h.count
    have hlen : ((msgs.drop (seq - 1)).take k).length = k := by
      rw [length_take, length_drop]
      omega
    unfold Transmitter.gather
    split_ifs with hgo
    · obtain ⟨hle, hroom, hfits⟩ := hgo
      have hnext : (msgs.drop (seq - 1)).take k ++ [t.messageOf (seq + k)] =
          (msgs.drop (seq - 1)).take (k + 1) := by
        have hget : (msgs.drop (seq - 1))[k]? = some (t.messageOf (seq + k)) := by
          rw [getElem?_drop, ← h.kept (seq + k) (by omega) hle]
          congr 1
          omega
        rw [take_add_one, hget]
        rfl
      have hadded := (of_decide_eq_true hfits).2.2.1
      rw [hnext, Nat.add_assoc]
      rw [hlen] at hroom hadded
      exact ih (k + 1) (by omega) hroom hadded
    · exact ⟨k, hmax, hpacket, hk, rfl⟩

theorem History.packetAt (h : History t msgs) {p : List UInt8}
    (hp : t.packetAt out seq maxCount = some p) : ∃ k, Carries t msgs seq maxCount p k := by
  unfold Transmitter.packetAt at hp
  dsimp only at hp
  split at hp
  · cases hp
  next hin =>
    obtain ⟨hfirst, -⟩ := not_or.mp hin
    obtain ⟨k, hmax, hpacket, hwithin, hgather⟩ := h.gather (Nat.not_lt.mp hfirst)
      (min out t.cfg.maxDatagram) maxCount (t.count + 1 - seq) 0 (by omega) (Nat.zero_le _)
      (Nat.zero_le _)
    simp only [take_zero, Nat.add_zero] at hgather
    rw [hgather] at hp
    split at hp
    · cases hp
    next hsome =>
      cases hp
      refine ⟨k, Nat.pos_of_ne_zero fun hzero => hsome ?_, hmax, hpacket, Nat.not_lt.mp hfirst,
        hwithin, rfl⟩
      rw [hzero, take_zero]

/-- A sequence number kept is answered when its message fits a datagram. -/
theorem History.answers (h : History t msgs) (hfirst : t.first ≤ seq)
    (hle : seq ≤ t.count) (hmax : 0 < maxCount) (hfit : ∀ msg, msgs[seq - 1]? = some msg →
      kHeaderLength + 2 + msg.length ≤ min out t.cfg.maxDatagram) :
    (t.packetAt out seq maxCount).isSome = true := by
  have hmsg := h.kept seq hfirst hle
  have hfits := hfit _ hmsg
  have hshort := h.short _ (mem_of_getElem? hmsg)
  have hok : fits (min out t.cfg.maxDatagram) [] (t.messageOf seq) = true := by
    refine decide_eq_true ⟨by omega, hshort, by decide, ?_⟩
    show kHeaderLength + 0 + (2 + (t.messageOf seq).length) ≤ min out t.cfg.maxDatagram
    omega
  obtain ⟨n, hn⟩ : ∃ n, t.count + 1 - seq = n + 1 := ⟨t.count - seq, by omega⟩
  obtain ⟨rest, hrest⟩ : ∃ rest, t.gather (min out t.cfg.maxDatagram) maxCount (n + 1) seq [] =
      t.messageOf seq :: rest := by
    have hgrow : ∀ n s acc, ∃ rest,
        t.gather (min out t.cfg.maxDatagram) maxCount n s acc = acc ++ rest := by
      intro n
      induction n with
      | zero => exact fun s acc => ⟨[], (append_nil acc).symm⟩
      | succ n ih =>
        intro s acc
        unfold Transmitter.gather
        split
        · obtain ⟨rest, hrest⟩ := ih (s + 1) (acc ++ [t.messageOf s])
          exact ⟨t.messageOf s :: rest, by rw [hrest, append_assoc]; rfl⟩
        · exact ⟨[], (append_nil acc).symm⟩
    unfold Transmitter.gather
    rw [if_pos ⟨hle, hmax, hok⟩]
    exact hgrow n (seq + 1) [t.messageOf seq]
  unfold Transmitter.packetAt
  dsimp only
  rw [if_neg (by omega), hn, hrest, if_neg (cons_ne_nil _ _)]
  rfl

/-! ## The whole history -/

/-- What calls may rely on, `msgs` being the messages published. -/
structure Exact (t : Transmitter) (msgs : List (List UInt8)) : Prop where
  published : t.count = msgs.length
  packet : ∀ out seq maxCount p, t.packetAt out seq maxCount = some p →
    ∃ k, Carries t msgs seq maxCount p k
  next : ∀ out maxCount p, (t.nextPacket out maxCount).1 = some p →
    ∃ k, Carries t msgs (max t.nextUnsent t.first) maxCount p k
  answer : ∀ request out p, t.answerRequest request out = some p →
    ∃ r k, parseRequest request = some r ∧ r.session = t.session ∧
      Carries t msgs r.sequence r.count p k
  answerable : ∀ request r out, parseRequest request = some r → r.session = t.session →
    0 < r.count → t.first ≤ r.sequence → r.sequence ≤ t.count →
    (∀ msg, msgs[r.sequence - 1]? = some msg →
      kHeaderLength + 2 + msg.length ≤ min out t.cfg.maxDatagram) →
    (t.answerRequest request out).isSome = true
  refuses : t.cfg.overwriteOldest = false → ∀ msg, (t.publish msg).1 = 0 →
    t.cfg.historyMessages ≤ msgs.length ∨
      t.cfg.historyBytes < (msgs.map List.length).sum + msg.length ∨
      kMaxMessageLength < msg.length
  keeps : t.cfg.overwriteOldest = false → ∀ msg, (t.publish msg).2.first = t.first ∧
    ∀ s, t.first ≤ s → s ≤ t.count → (t.publish msg).2.messageOf s = t.messageOf s

theorem History.next (h : History t msgs) {out maxCount : Nat} {p : List UInt8}
    (hp : (t.nextPacket out maxCount).1 = some p) :
    ∃ k, Carries t msgs (max t.nextUnsent t.first) maxCount p k := by
  unfold Transmitter.nextPacket at hp
  split_ifs at hp with hbehind
  · dsimp only at hp
    have h' : History { t with nextUnsent := t.first } msgs := h.of_same rfl rfl rfl rfl rfl rfl rfl
    split at hp
    · cases hp
    split at hp
    · cases hp
    next found =>
      cases hp
      obtain ⟨k, hk⟩ := h'.packetAt found
      rw [Nat.max_eq_right (le_of_lt hbehind)]
      exact ⟨k, hk.pos, hk.le_max, hk.le_packet, hk.first_le, hk.within, hk.bytes⟩
  · dsimp only at hp
    split at hp
    · cases hp
    split at hp
    · cases hp
    next found =>
      cases hp
      obtain ⟨k, hk⟩ := h.packetAt found
      rw [Nat.max_eq_left (Nat.not_lt.mp hbehind)]
      exact ⟨k, hk⟩

theorem History.exact (h : History t msgs) : Exact t msgs := by
  refine ⟨h.count, fun _ _ _ _ hp => h.packetAt hp, fun _ _ _ hp => h.next hp, ?_, ?_, ?_, ?_⟩
  · intro request out p hp
    unfold Transmitter.answerRequest at hp
    split at hp
    · cases hp
    next r hr =>
      split at hp
      · cases hp
      next hgood =>
        obtain ⟨k, hk⟩ := h.packetAt hp
        exact ⟨r, k, hr, not_not.mp (not_or.mp hgood).1, hk⟩
  · intro request r out hr hsession hpos hfirst hle hfit
    unfold Transmitter.answerRequest
    rw [hr]
    dsimp only
    rw [if_neg (not_or.mpr ⟨not_not.mpr hsession, by omega⟩)]
    exact h.answers hfirst hle hpos hfit
  · intro hplain msg hzero
    obtain ⟨hone, hhead, hlaps⟩ := h.plain hplain
    have hheld : t.held = msgs.length := by
      unfold held
      rw [hone, h.count, Nat.add_sub_cancel]
    unfold Transmitter.publish at hzero
    dsimp only at hzero
    rw [if_pos hplain] at hzero
    rw [← hheld, ← hhead]
    split at hzero
    next hsize => omega
    · split at hzero
      next hroom => omega
      · exact absurd hzero (Nat.succ_ne_zero _)
  · intro hplain msg
    have hpub := h.publish msg
    unfold Transmitter.publish
    dsimp only
    rw [if_pos hplain]
    split
    · exact ⟨rfl, fun _ _ _ => rfl⟩
    next hsize =>
      split
      · exact ⟨rfl, fun _ _ _ => rfl⟩
      next hroom =>
        refine ⟨rfl, fun s h₁ h₂ => ?_⟩
        have hcount := h.count
        have hpos := h.first_pos
        unfold Transmitter.publish at hpub
        dsimp only at hpub
        rw [if_neg hsize, if_pos hplain, if_neg hroom, if_neg (Nat.succ_ne_zero _)] at hpub
        have hnew := hpub.kept s h₁ (Nat.le_succ_of_le h₂)
        rw [getElem?_append_left (by omega), h.kept s h₁ h₂] at hnew
        exact (Option.some.inj hnew).symm

/-- In every reachable state packets carry what was published, what is kept is answered, and a
history that is not overwritten refuses a message only for want of room or for its length. -/
theorem history_exact (ops : List Op) :
    Exact (Log.run session cfg ops).t (Log.run session cfg ops).published :=
  (history_run session cfg ops).exact

/-- A message longer than a block may be is refused by an empty history with room for it. -/
theorem refused_too_long :
    let l := Log.run kBlankSession { historyBytes := 2 ^ 17 } []
    let msg : List UInt8 := List.replicate 65536 0
    (l.t.publish msg).1 = 0 ∧ l.published.length < l.t.cfg.historyMessages ∧
      (l.published.map List.length).sum + msg.length ≤ l.t.cfg.historyBytes := by
  intro l msg
  have hlen : msg.length = 65536 := length_replicate
  refine ⟨?_, by decide, ?_⟩
  · unfold Transmitter.publish
    rw [hlen, if_pos (.inl (by decide))]
  · rw [hlen]
    decide

end Transmitter

end FastMM.Mold
