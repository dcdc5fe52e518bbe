/-
  Venue/Reconciled.lean --- each snapshot is of one fetch, and no request is dropped.

  `Sound` is what the driver keeps on its own: it waits for a replay or for a fetch and never
  for both, and the rows, the watermark and the exactness of the snapshot under way are those
  of its own fetch.  `Answered` says where every request is: a snapshot served it, or one of the
  three wants carries it.  A start-up sweep that overtakes a retry drops what the retry carries,
  and nothing else does.
-/
import FastMM.Venue.ReconcileDriver
set_option autoImplicit false

namespace FastMM

open Foundation List

/-- An entry that is no row and no snapshot. -/
def Seen.Plain : Seen → Prop
  | .order _ _ => False
  | .position _ _ => False
  | .emitted _ => False
  | _ => True

namespace ReconcileDriver

/-! ## The history -/

variable (log : List Seen)
variable (generation : Nat)
variable {e : Seen}

/-- The order rows added for one generation. -/
def ordersFor (log : List Seen) : List ReconcileMsg :=
  log.filterMap fun e =>
    match e with
    | .order g row => if g = generation then some row else none
    | _ => none

/-- The position rows added for one generation. -/
def positionsFor (log : List Seen) : List PositionRow :=
  log.filterMap fun e =>
    match e with
    | .position g row => if g = generation then some row else none
    | _ => none

/-- The driver is not closed after entry `i`. -/
def OpenSince (i : Nat) : Prop :=
  ∀ j, i < j → log[j]? ≠ some .closed ∧ log[j]? ≠ some (.opened false)

theorem openSince_of_drop {log : List Seen} {i : Nat}
    (h : ∀ e ∈ log.drop (i + 1), e ≠ .closed ∧ e ≠ .opened false) : OpenSince log i := by
  intro j hj
  have hget : log[j]? = (log.drop (i + 1))[j - (i + 1)]? := by
    rw [getElem?_drop, Nat.add_sub_cancel' hj]
  rw [hget]
  exact ⟨fun heq => (h _ (mem_of_getElem? heq)).1 rfl,
    fun heq => (h _ (mem_of_getElem? heq)).2 rfl⟩

/-- A request made while open, with the driver open since. -/
def Owing (i : Nat) : Prop :=
  log[i]? = some (.requested true) ∧ OpenSince log i

/-- A replay that was complete ends the history, and nothing started since the snapshot did. -/
def ReplayedSince : Prop :=
  ∃ a mid, log = a ++ .started :: mid ++ [.replayDone true] ∧ .started ∉ mid

/-- The fetch a snapshot is of: its watermark was taken then, after the requests it serves, and
its exactness is that of the replay before it. -/
def FetchedFor (watermark : Mark) (exact : Bool)
    (serves : List Nat) : Prop :=
  ∃ a b taken, log = a ++ .fetching generation taken :: b ∧ watermark = taken.getD {} ∧
    (serves ≠ [] → taken.isSome = true) ∧
    (∀ i ∈ serves, i < a.length ∧ a[i]? = some (.requested true)) ∧
    (exact = true → ReplayedSince a)

/-- A Full snapshot is running, pending or scheduled. -/
def FullAhead (d : ReconcileDriver) : Prop :=
  d.pending.want = .full ∨ (d.busy = true ∧ d.running.want = .full) ∨
    (d.retryAt ≠ 0 ∧ d.retryWant.want = .full)

theorem FetchedFor.snoc {log : List Seen} {generation : Nat} {watermark : Mark} {exact : Bool}
    {serves : List Nat} (h : FetchedFor log generation watermark exact serves) (e : Seen) :
    FetchedFor (log ++ [e]) generation watermark exact serves := by
  obtain ⟨a, b, taken, hlog, h⟩ := h
  refine ⟨a, b ++ [e], taken, ?_, h⟩
  rw [hlog, append_assoc, cons_append]

@[simp] theorem ordersFor_append (g : Nat) (a b : List Seen) :
    ordersFor g (a ++ b) = ordersFor g a ++ ordersFor g b := filterMap_append

@[simp] theorem positionsFor_append (g : Nat) (a b : List Seen) :
    positionsFor g (a ++ b) = positionsFor g a ++ positionsFor g b := filterMap_append

theorem ordersFor_plain (he : e.Plain) (g : Nat) : ordersFor g [e] = [] := by
  cases e with
  | order | position | emitted => exact he.elim
  | _ => rfl

theorem positionsFor_plain (he : e.Plain) (g : Nat) : positionsFor g [e] = [] := by
  cases e with
  | order | position | emitted => exact he.elim
  | _ => rfl

/-! ## What the driver keeps -/

/-- The `request` calls behind a want are calls, and a want with some is Full. -/
def Meant (x : Wish) : Prop :=
  (x.calls ≠ [] → x.want = .full) ∧ ∀ i ∈ x.calls, log[i]? = some (.requested true)

/-- What the history says of the rows and the snapshots, with `generation` the last fetch
and `inFlight` whether it is under way. -/
structure Told (log : List Seen) (generation : Nat) (inFlight : Bool) : Prop where
  fresh : ∀ g, generation < g → ordersFor g log = [] ∧ positionsFor g log = []
  emitted : ∀ s, .emitted s ∈ log →
    (FetchedFor log s.generation s.watermark s.executionsExact s.serves ∧
      s.orders = ordersFor s.generation log ∧ s.positions = positionsFor s.generation log) ∧
    s.generation ≤ generation ∧ (s.generation = generation → inFlight = false)

structure Sound (d : ReconcileDriver) : Prop where
  alone : d.waitingReplay = true → d.inFlight = false
  idle : d.busy = false → d.pending = {} ∧ d.running = {}
  quiet : d.busy = true → d.retryWant = {}
  armed : d.retryWant.want ≠ .none → d.retryAt ≠ 0
  pending : Meant d.log d.pending
  running : Meant d.log d.running
  retry : Meant d.log d.retryWant
  started : d.waitingReplay = true → ∃ a mid, d.log = a ++ .started :: mid ∧ .started ∉ mid
  fetched : d.inFlight = true →
    FetchedFor d.log d.generation d.watermark d.exact d.running.calls
  rows : d.inFlight = true → d.orders = ordersFor d.generation d.log ∧
    d.positions = positionsFor d.generation d.log
  told : Told d.log d.generation d.inFlight

/-- Every request owed is among `calls` or a snapshot served it. -/
def Served (isOpen : Bool) (calls : List Nat) : Prop :=
  ∀ i, Owing log i → isOpen = true ∧ (i ∈ calls ∨ ∃ s, .emitted s ∈ log ∧ i ∈ s.serves)

/-- Where every request is. -/
def Answered (d : ReconcileDriver) : Prop :=
  Served d.log d.isOpen (d.pending.calls ++ d.running.calls ++ d.retryWant.calls)

theorem Meant.snoc {log : List Seen} {x : Wish} (h : Meant log x) (e : Seen) :
    Meant (log ++ [e]) x := by
  refine ⟨h.1, fun i hi => ?_⟩
  rw [getElem?_append_left (List.getElem?_eq_some_iff.mp (h.2 i hi)).1]
  exact h.2 i hi

theorem Meant.nothing : Meant log {} :=
  ⟨absurd rfl, fun _ hi => nomatch hi⟩

theorem max_full_left (w : Want) : Want.full.max w = .full := by cases w <;> rfl

theorem max_full_right (w : Want) : w.max .full = .full := by cases w <;> rfl

theorem Meant.merge {log : List Seen} {x y : Wish} (hx : Meant log x) (hy : Meant log y) :
    Meant log (x.merge y) := by
  refine ⟨fun h => ?_, fun i hi => ?_⟩
  · show x.want.max y.want = .full
    by_cases hcalls : x.calls = []
    · have hyne : y.calls ≠ [] := by
        intro hyc
        exact h (by show x.calls ++ y.calls = []; rw [hcalls, hyc]; rfl)
      rw [hy.1 hyne, max_full_right]
    · rw [hx.1 hcalls, max_full_left]
  · rcases mem_append.mp hi with hi | hi
    · exact hx.2 i hi
    · exact hy.2 i hi

section

variable {log : List Seen} {i : Nat} (h : Owing (log ++ [e]) i)
include h

/-- One entry later, with the request before it still owed. -/
theorem Owing.of_snoc
    (hi : i < log.length) : Owing log i ∧ e ≠ .closed ∧ e ≠ .opened false := by
  obtain ⟨hcall, hopen⟩ := h
  have hlast : (log ++ [e])[log.length]? = some e := getElem?_concat_length
  refine ⟨⟨?_, fun j hj => ?_⟩, ?_, ?_⟩
  · rwa [getElem?_append_left hi] at hcall
  · by_cases hlt : j < log.length
    · have hkeep := hopen j hj
      rwa [getElem?_append_left hlt] at hkeep
    · rw [getElem?_eq_none (Nat.le_of_not_lt hlt)]
      exact ⟨fun hnone => (nomatch hnone), fun hnone => (nomatch hnone)⟩
  · intro he
    exact (hopen log.length hi).1 (by rw [hlast, he])
  · intro he
    exact (hopen log.length hi).2 (by rw [hlast, he])

/-- A request owed after one more entry was owed before it, or is that entry. -/
theorem Owing.last :
    (Owing log i ∧ e ≠ .closed ∧ e ≠ .opened false) ∨ (i = log.length ∧ e = .requested true) := by
  have hle : i < log.length + 1 := by
    have hlen := (List.getElem?_eq_some_iff.mp h.1).1
    rwa [length_append] at hlen
  rcases Nat.lt_or_eq_of_le (Nat.le_of_lt_succ hle) with hlt | rfl
  · exact .inl (h.of_snoc hlt)
  · have hcall := h.1
    rw [getElem?_concat_length] at hcall
    exact .inr ⟨rfl, Option.some.inj hcall⟩

end

/-! ## One entry later -/

namespace Told

variable {log : List Seen} {generation : Nat} {inFlight : Bool}

theorem plain (h : Told log generation inFlight) {e : Seen} (he : e.Plain) :
    Told (log ++ [e]) generation inFlight := by
  have horders : ∀ g, ordersFor g (log ++ [e]) = ordersFor g log := by
    intro g
    rw [ordersFor_append, ordersFor_plain he, append_nil]
  have hpositions : ∀ g, positionsFor g (log ++ [e]) = positionsFor g log := by
    intro g
    rw [positionsFor_append, positionsFor_plain he, append_nil]
  refine ⟨fun g hg => ?_, fun s hs => ?_⟩
  · rw [horders, hpositions]
    exact h.fresh g hg
  have hold : .emitted s ∈ log := by
    rcases mem_append.mp hs with hs | hs
    · exact hs
    · cases mem_singleton.mp hs
      exact he.elim
  obtain ⟨⟨hfetched, hrows⟩, hgen⟩ := h.emitted s hold
  refine ⟨⟨hfetched.snoc e, ?_⟩, hgen⟩
  rw [horders, hpositions]
  exact hrows

/-- The next generation. -/
theorem next (h : Told log generation inFlight) (b : Bool) : Told log (generation + 1) b := by
  refine ⟨fun g hg => h.fresh g (Nat.lt_of_succ_lt hg), fun s hs => ?_⟩
  obtain ⟨hs', hle, -⟩ := h.emitted s hs
  exact ⟨hs', Nat.le_succ_of_le hle, fun heq => absurd heq (Nat.ne_of_lt (Nat.lt_succ_of_le hle))⟩

/-- A row of the fetch under way. -/
theorem row (h : Told log generation true) {e : Seen} (hplain : ∀ s, e ≠ .emitted s)
    (he : ∀ g, g ≠ generation → ordersFor g [e] = [] ∧ positionsFor g [e] = []) :
    Told (log ++ [e]) generation true := by
  have hkeep : ∀ g, g ≠ generation → ordersFor g (log ++ [e]) = ordersFor g log ∧
      positionsFor g (log ++ [e]) = positionsFor g log := by
    intro g hg
    rw [ordersFor_append, positionsFor_append, (he g hg).1, (he g hg).2, append_nil, append_nil]
    exact ⟨rfl, rfl⟩
  refine ⟨fun g hg => ?_, fun s hs => ?_⟩
  · rw [(hkeep g (Nat.ne_of_gt hg)).1, (hkeep g (Nat.ne_of_gt hg)).2]
    exact h.fresh g hg
  have hold : .emitted s ∈ log := by
    rcases mem_append.mp hs with hs | hs
    · exact hs
    · exact absurd (mem_singleton.mp hs).symm (hplain s)
  obtain ⟨⟨hfetched, hrows⟩, hle, hflight⟩ := h.emitted s hold
  have hne : s.generation ≠ generation := fun heq => nomatch hflight heq
  refine ⟨⟨hfetched.snoc e, ?_⟩, hle, hflight⟩
  rw [(hkeep _ hne).1, (hkeep _ hne).2]
  exact hrows

/-- The snapshot of the fetch under way. -/
theorem snapshot (h : Told log generation true) {s : Snapshot} (hgen : s.generation = generation)
    (hfetched : FetchedFor log generation s.watermark s.executionsExact s.serves)
    (horders : s.orders = ordersFor generation log)
    (hpositions : s.positions = positionsFor generation log) :
    Told (log ++ [.emitted s]) generation false := by
  have hkeep : ∀ g, ordersFor g (log ++ [.emitted s]) = ordersFor g log ∧
      positionsFor g (log ++ [.emitted s]) = positionsFor g log := by
    intro g
    rw [ordersFor_append, positionsFor_append]
    exact ⟨append_nil _, append_nil _⟩
  refine ⟨fun g hg => ?_, fun t ht => ?_⟩
  · rw [(hkeep g).1, (hkeep g).2]
    exact h.fresh g hg
  rw [(hkeep _).1, (hkeep _).2]
  rcases mem_append.mp ht with ht | ht
  · obtain ⟨⟨hfetched', hrows⟩, hle, -⟩ := h.emitted t ht
    exact ⟨⟨hfetched'.snoc _, hrows⟩, hle, fun _ => rfl⟩
  · cases mem_singleton.mp ht
    rw [hgen]
    exact ⟨⟨hfetched.snoc _, horders, hpositions⟩, Nat.le_refl _, fun _ => rfl⟩

end Told

/-! ## What one stretch keeps -/

namespace Sound

variable {d : ReconcileDriver}

/-- The balance leg. -/
theorem balances (h : Sound d) (a b : Bool) (g t r : Nat) : Sound { d with
      balInFlight := a
      balPending := b
      balGeneration := g
      balStarted := t
      balRetryAt := r } :=
  ⟨h.alone, h.idle, h.quiet, h.armed, h.pending, h.running, h.retry, h.started, h.fetched, h.rows,
    h.told⟩

/-- A plain entry. -/
theorem see (h : Sound d) {e : Seen} (he : e.Plain) (hstart : e ≠ .started) : Sound (d.see e) := by
  refine ⟨h.alone, h.idle, h.quiet, h.armed, h.pending.snoc e, h.running.snoc e, h.retry.snoc e,
    fun hw => ?_, fun hf => (h.fetched hf).snoc e, fun hf => ?_, h.told.plain he⟩
  · obtain ⟨a, mid, hlog, hmid⟩ := h.started hw
    refine ⟨a, mid ++ [e], ?_, ?_⟩
    · show d.log ++ [e] = _
      rw [hlog, append_assoc, cons_append]
    intro hmem
    rcases mem_append.mp hmem with hmem | hmem
    · exact hmid hmem
    · exact hstart (mem_singleton.mp hmem).symm
  · show d.orders = ordersFor d.generation (d.log ++ [e]) ∧
      d.positions = positionsFor d.generation (d.log ++ [e])
    rw [ordersFor_append, positionsFor_append, ordersFor_plain he, positionsFor_plain he,
      append_nil, append_nil]
    exact h.rows hf

theorem isOpen (h : Sound d) (b : Bool) : Sound { d with isOpen := b } :=
  ⟨h.alone, h.idle, h.quiet, h.armed, h.pending, h.running, h.retry, h.started, h.fetched, h.rows,
    h.told⟩

theorem opened (h : Sound d) (enabled : Bool) : Sound (d.opened enabled) :=
  (h.isOpen _).see trivial Seen.noConfusion

theorem fail (h : Sound d) (w : World) : Sound (d.fail w) where
  alone hw := nomatch hw
  idle _ := ⟨rfl, rfl⟩
  quiet hb := nomatch hb
  armed _ := Nat.ne_of_gt (Nat.add_pos_right w.now (by decide))
  pending := .nothing _
  running := .nothing _
  retry := (h.running.merge h.pending).merge h.retry
  started hw := nomatch hw
  fetched hf := nomatch hf
  rows hf := nomatch hf
  told := h.told.next false

theorem close (h : Sound d) : Sound d.close where
  alone hw := nomatch hw
  idle _ := ⟨rfl, rfl⟩
  quiet hb := nomatch hb
  armed hr := absurd rfl hr
  pending := .nothing _
  running := .nothing _
  retry := .nothing _
  started hw := nomatch hw
  fetched hf := nomatch hf
  rows hf := nomatch hf
  told := (h.told.next false).plain trivial

/-- One more want waits behind the snapshot under way. -/
theorem wait (h : Sound d) {x : Wish} (hx : Meant d.log x) (hbusy : d.busy = true) :
    Sound { d with pending := d.pending.merge x } :=
  ⟨h.alone, fun hb => absurd hbusy (by rw [show d.busy = false from hb]; exact Bool.noConfusion),
    h.quiet, h.armed, h.pending.merge hx, h.running, h.retry, h.started, h.fetched, h.rows, h.told⟩

/-- The fetch of a driver that waits for nothing any more. -/
theorem fetching {d : ReconcileDriver} (h : Sound d) {taken : Option Mark} {exact : Bool}
    {now : Nat} (hwait : d.waitingReplay = true)
    (htaken : (d.running.merge d.pending).calls ≠ [] → taken.isSome = true)
    (hexact : exact = true → ReplayedSince d.log) :
    Sound ({ d with
      waitingReplay := false
      exact := exact
      running := d.running.merge d.pending
      pending := {}
      generation := d.generation + 1
      inFlight := true
      fetchStarted := now
      watermark := taken.getD {}
      orders := []
      positions := [] }.see (.fetching (d.generation + 1) taken)) := by
  have hbusy : d.busy = true := by
    unfold busy
    rw [hwait, Bool.or_true]
  have hrunning : Meant d.log (d.running.merge d.pending) := h.running.merge h.pending
  have hnone : ∀ e : Seen, e.Plain → ordersFor (d.generation + 1) (d.log ++ [e]) = [] ∧
      positionsFor (d.generation + 1) (d.log ++ [e]) = [] := by
    intro e he
    obtain ⟨ho, hp⟩ := h.told.fresh _ (Nat.lt_succ_self d.generation)
    rw [ordersFor_append, positionsFor_append, ordersFor_plain he, positionsFor_plain he, ho, hp]
    exact ⟨rfl, rfl⟩
  refine ⟨fun hw => (nomatch hw), fun hb => (nomatch hb), fun _ => h.quiet hbusy,
    h.armed, .nothing _,
    hrunning.snoc _, h.retry.snoc _, fun hw => (nomatch hw), fun _ => ?_, fun _ => ?_,
    (h.told.next true).plain (e := .fetching _ _) trivial⟩
  · refine ⟨d.log, [], taken, rfl, rfl, htaken, fun i hi => ?_, hexact⟩
    exact ⟨(List.getElem?_eq_some_iff.mp (hrunning.2 i hi)).1, hrunning.2 i hi⟩
  · obtain ⟨ho, hp⟩ := hnone (.fetching (d.generation + 1) taken) trivial
    exact ⟨ho.symm, hp.symm⟩

/-- The start of a free driver. -/
theorem starting (h : Sound d) (hidle : d.busy = false) {x : Wish} (hx : Meant d.log x) :
    Sound ({ d with
      running := x
      pending := {}
      retryAt := 0
      retryWant := {}
      waitingReplay := true }.see .started) := by
  have hflight : d.inFlight = false := (Bool.or_eq_false_iff.mp hidle).1
  refine ⟨fun _ => hflight, fun hb => ?_, fun _ => rfl, fun hr => absurd rfl hr, .nothing _,
    hx.snoc _, .nothing _, fun _ => ⟨d.log, [], rfl, fun hmem => (nomatch hmem)⟩, fun hf => ?_,
    fun hf => ?_, h.told.plain trivial⟩
  · exact absurd (Bool.or_eq_false_iff.mp hb).2 Bool.noConfusion
  · exact absurd (show d.inFlight = true from hf) (by rw [hflight]; exact Bool.noConfusion)
  · exact absurd (show d.inFlight = true from hf) (by rw [hflight]; exact Bool.noConfusion)

end Sound

namespace Served

variable {log : List Seen} {isOpen : Bool} {calls : List Nat}

theorem mono (h : Served log isOpen calls) {calls' : List Nat} (hsub : calls ⊆ calls') :
    Served log isOpen calls' := by
  intro i hi
  obtain ⟨hopen, hwhere⟩ := h i hi
  exact ⟨hopen, hwhere.imp_left fun hmem => hsub hmem⟩

/-- An entry that is no request. -/
theorem see (h : Served log isOpen calls) {e : Seen} (he : e ≠ .requested true) :
    Served (log ++ [e]) isOpen calls := by
  intro i hi
  rcases hi.last with ⟨hold, -⟩ | ⟨-, heq⟩
  · obtain ⟨hopen, hwhere⟩ := h i hold
    refine ⟨hopen, hwhere.imp_right ?_⟩
    rintro ⟨s, hs, hmem⟩
    exact ⟨s, mem_append_left _ hs, hmem⟩
  · exact absurd heq he

/-- One more request. -/
theorem request (h : Served log true calls) :
    Served (log ++ [.requested true]) true (calls ++ [log.length]) := by
  intro i hi
  refine ⟨rfl, ?_⟩
  rcases hi.last with ⟨hold, -⟩ | ⟨rfl, -⟩
  · rcases (h i hold).2 with hmem | ⟨s, hs, hmem⟩
    · exact .inl (mem_append_left _ hmem)
    · exact .inr ⟨s, mem_append_left _ hs, hmem⟩
  · exact .inl (mem_append_right _ (mem_singleton_self _))

/-- After a close nothing is owed. -/
theorem shut (log : List Seen) (isOpen : Bool) (calls : List Nat) {e : Seen}
    (he : e = .closed ∨ e = .opened false) : Served (log ++ [e]) isOpen calls := by
  intro i hi
  rcases hi.last with ⟨-, hclosed, hopened⟩ | ⟨-, rfl⟩
  · exact (he.elim hclosed hopened).elim
  · rcases he with he | he <;> cases he

/-- A closed driver owes nothing. -/
theorem closed (h : Served log isOpen calls) (hclosed : isOpen = false) {calls' : List Nat} :
    Served log isOpen calls' := by
  intro i hi
  rw [hclosed] at h ⊢
  exact absurd (h i hi).1 Bool.false_ne_true

/-- The snapshot that serves some of them is emitted. -/
theorem emitted {s : Snapshot} (h : Served log isOpen (calls ++ s.serves)) :
    Served (log ++ [.emitted s]) isOpen calls := by
  intro i hi
  rcases hi.last with ⟨hold, -⟩ | ⟨-, heq⟩
  · obtain ⟨hopen, hwhere⟩ := h i hold
    refine ⟨hopen, ?_⟩
    rcases hwhere with hmem | ⟨t, ht, hmem⟩
    · rcases mem_append.mp hmem with hmem | hmem
      · exact .inl hmem
      · exact .inr ⟨s, mem_append_right _ (mem_singleton_self _), hmem⟩
    · exact .inr ⟨t, mem_append_left _ ht, hmem⟩
  · cases heq

end Served

/-! ## Every stretch -/

/-- What holds between stretches; `c` is what no request is dropped under. -/
def Kept (c : Prop) (d : ReconcileDriver) : Prop := Sound d ∧ (c → Answered d)

section

variable {c : Prop} {d : ReconcileDriver}

theorem Kept.fail (h : Kept c d) (w : World) : Kept c (d.fail w) := by
  refine ⟨h.1.fail w, fun hc => (h.2 hc).mono ?_⟩
  show d.pending.calls ++ d.running.calls ++ d.retryWant.calls ⊆
    ([] ++ [] ++ (d.running.calls ++ d.pending.calls ++ d.retryWant.calls))
  intro i hi
  simp only [mem_append] at hi ⊢
  tauto

theorem Kept.see (h : Kept c d) {e : Seen} (he : e.Plain) (hstart : e ≠ .started)
    (hcall : e ≠ .requested true) : Kept c (d.see e) :=
  ⟨h.1.see he hstart, fun hc => (h.2 hc).see hcall⟩

theorem Kept.balances (h : Kept c d) (a b : Bool) (g t r : Nat) : Kept c { d with
      balInFlight := a
      balPending := b
      balGeneration := g
      balStarted := t
      balRetryAt := r } :=
  ⟨h.1.balances a b g t r, h.2⟩

theorem fetch_keeps (h : Kept c d) (hwait : d.waitingReplay = true) {exact : Bool}
    (hexact : exact = true → ReplayedSince d.log) (w : World) :
    (fetch w { d with waitingReplay := false, exact := exact }).Keeps (Kept c) := by
  have htaken : (d.running.merge d.pending).calls ≠ [] →
      (if (d.running.merge d.pending).want = .sweep then none else some w.mark).isSome = true := by
    intro hcalls
    rw [(h.1.running.merge h.1.pending).1 hcalls]
    rfl
  refine ⟨⟨h.1.fetching hwait htaken hexact, fun hc => ?_⟩, fun w' s asked hs => ?_⟩
  · refine ((h.2 hc).mono ?_).see Seen.noConfusion
    show d.pending.calls ++ d.running.calls ++ d.retryWant.calls ⊆
      ([] ++ (d.running.calls ++ d.pending.calls) ++ d.retryWant.calls)
    intro i hi
    simp only [mem_append] at hi ⊢
    tauto
  · show Kept c (if _ then _ else _)
    split
    · exact hs.fail w'
    · exact hs

/-- A free driver starts on `x`, in the place of the retry. -/
theorem start_keeps (h : Sound d) (hidle : d.busy = false) {x : Wish} (hx : Meant d.log x)
    (hserved : c → Served d.log d.isOpen (x.calls ++ d.retryWant.calls))
    (hlost : c → d.retryWant.calls ≠ [] → x.want = .full) (w : World) :
    (start w { d with pending := x }).Keeps (Kept c) := by
  have hreplacing : Meant d.log (x.replacing d.retryWant) := by
    unfold Wish.replacing
    split_ifs with hfull
    · refine ⟨fun _ => hfull, fun i hi => ?_⟩
      exact (mem_append.mp hi).elim (hx.2 i) (h.retry.2 i)
    · exact hx
  refine ⟨⟨h.starting hidle hreplacing, fun hc => ?_⟩, fun w' s joined hs => ?_⟩
  · refine ((hserved hc).mono ?_).see Seen.noConfusion
    show x.calls ++ d.retryWant.calls ⊆ [] ++ (x.replacing d.retryWant).calls ++ []
    rw [nil_append, append_nil]
    unfold Wish.replacing
    split_ifs with hfull
    · exact List.Subset.refl _
    by_cases hretry : d.retryWant.calls = []
    · rw [hretry, append_nil]
      exact List.Subset.refl _
    · exact absurd (hlost hc hretry) hfull
  · show Prog.Keeps (Kept c) (if _ then _ else _)
    split_ifs with hgo
    · exact hs
    have hwait : s.waitingReplay = true := by
      cases hw : s.waitingReplay with
      | true => rfl
      | false => exact absurd (by rw [hw, Bool.not_false, Bool.or_true]) hgo
    have hnever : false = true → ReplayedSince s.log := fun h => absurd h Bool.false_ne_true
    exact fetch_keeps hs hwait hnever w'

theorem nothing_merge (x : Wish) : Wish.merge {} x = x := by
  obtain ⟨w, calls⟩ := x
  cases w <;> rfl

/-- A want that loses nothing of the retry. -/
theorem want_keeps (h : Sound d) {x : Wish} (hx : Meant d.log x)
    (hserved : c → Served d.log d.isOpen
      (d.pending.calls ++ d.running.calls ++ d.retryWant.calls ++ x.calls))
    (hshut : d.isOpen = false → c → Answered d)
    (hlost : c → d.isOpen = true → d.busy = false → d.retryWant.calls ≠ [] → x.want = .full)
    (w : World) : (want w d x).Keeps (Kept c) := by
  unfold want
  by_cases hopen : d.isOpen = true
  · rw [if_neg (by rw [hopen]; exact Bool.noConfusion)]
    by_cases hbusy : d.busy = true
    · rw [if_pos hbusy]
      refine ⟨h.wait hx hbusy, fun hc => (hserved hc).mono ?_⟩
      show d.pending.calls ++ d.running.calls ++ d.retryWant.calls ++ x.calls ⊆
        (d.pending.calls ++ x.calls) ++ d.running.calls ++ d.retryWant.calls
      intro i hi
      simp only [mem_append] at hi ⊢
      tauto
    · have hidle : d.busy = false := by simpa using hbusy
      obtain ⟨hpending, hrunning⟩ := h.idle hidle
      rw [if_neg hbusy, hpending, nothing_merge]
      refine start_keeps h hidle hx (fun hc => (hserved hc).mono ?_)
        (fun hc => hlost hc hopen hidle) w
      rw [hpending, hrunning]
      intro i hi
      simp only [mem_append] at hi ⊢
      tauto
  · have hclosed : d.isOpen = false := by simpa using hopen
    rw [if_pos (by rw [hclosed]; rfl)]
    exact ⟨h, hshut hclosed⟩

section

variable (h : Kept c d)
include h

theorem request_keeps (w : World) : (d.request w).Keeps (Kept c) := by
  have hseen : Sound (d.see (.requested d.isOpen)) := h.1.see trivial Seen.noConfusion
  by_cases hopen : d.isOpen = true
  · refine want_keeps hseen ⟨fun _ => rfl, fun i hi => ?_⟩ (fun hc => ?_) (fun hclosed => ?_)
      (fun _ _ _ _ => rfl) w
    · rw [mem_singleton.mp hi]
      show (d.log ++ [Seen.requested d.isOpen])[d.log.length]? = _
      rw [getElem?_concat_length, hopen]
    · show Served (d.log ++ [.requested d.isOpen]) d.isOpen _
      have hserved := h.2 hc
      unfold Answered at hserved
      rw [hopen] at hserved ⊢
      exact hserved.request
    · simp [show d.isOpen = false from hclosed] at hopen
  · have hclosed : d.isOpen = false := by simpa using hopen
    unfold request want
    rw [if_pos (show (!(d.see (.requested d.isOpen)).isOpen) = true by
      show (!d.isOpen) = true
      rw [hclosed]
      rfl)]
    refine ⟨hseen, fun hc => (h.2 hc).see ?_⟩
    rw [hclosed]
    exact fun heq => nomatch heq

/-- A sweep of a driver that no Full retry waits in. -/
theorem sweep_keeps
    (hlost : c → ¬(d.isOpen = true ∧ d.busy = false ∧ d.retryWant.want = .full)) (w : World) :
    (d.sweep w).Keeps (Kept c) := by
  refine want_keeps h.1 ⟨fun hne => absurd rfl hne, fun _ hi => absurd hi not_mem_nil⟩
    (fun hc => ?_) (fun _ => h.2) (fun hc hopen hidle hretry => ?_) w
  · exact (h.2 hc).mono (subset_append_left _ _)
  · exact absurd ⟨hopen, hidle, h.1.retry.1 hretry⟩ (hlost hc)

theorem replayDone_keeps (w : World) (complete : Bool) :
    (d.replayDone w complete).Keeps (Kept c) := by
  have hseen : Kept c (d.see (.replayDone complete)) :=
    h.see trivial Seen.noConfusion Seen.noConfusion
  unfold replayDone
  by_cases hwait : d.waitingReplay = true
  · rw [if_neg (show ¬(!(d.see (.replayDone complete)).waitingReplay) = true by
      show ¬(!d.waitingReplay) = true
      rw [hwait]
      exact Bool.false_ne_true)]
    refine fetch_keeps hseen hwait (fun hexact => ?_) w
    obtain ⟨a, mid, hlog, hmid⟩ := h.1.started hwait
    refine ⟨a, mid, ?_, hmid⟩
    show d.log ++ [.replayDone complete] = _
    rw [hlog, hexact]
  · rw [if_pos (show (!(d.see (.replayDone complete)).waitingReplay) = true by
      show (!d.waitingReplay) = true
      simpa using hwait)]
    exact hseen

theorem transportLost_keeps (w : World) : Kept c (d.transportLost w) := by
  unfold transportLost
  split
  · exact h.fail w
  · exact h

/-- A row of the fetch under way, order or position. -/
theorem Kept.row {e : Seen} {orders : List ReconcileMsg}
    {positions : List PositionRow} (hplain : ∀ s, e ≠ .emitted s) (hcall : e ≠ .requested true)
    (hflight : d.inFlight = true)
    (he : ∀ g, g ≠ d.generation → ordersFor g [e] = [] ∧ positionsFor g [e] = [])
    (horders : orders = d.orders ++ ordersFor d.generation [e])
    (hpositions : positions = d.positions ++ positionsFor d.generation [e]) :
    Kept c ({ d with orders := orders, positions := positions }.see e) := by
  refine ⟨⟨h.1.alone, h.1.idle, h.1.quiet, h.1.armed, h.1.pending.snoc e, h.1.running.snoc e,
    h.1.retry.snoc e, fun hw => ?_, fun hf => (h.1.fetched hf).snoc e, fun hf => ?_, ?_⟩,
    fun hc => (h.2 hc).see hcall⟩
  · exact absurd hflight (by rw [h.1.alone hw]; exact Bool.false_ne_true)
  · show orders = ordersFor d.generation (d.log ++ [e]) ∧
      positions = positionsFor d.generation (d.log ++ [e])
    rw [ordersFor_append, positionsFor_append, horders, hpositions, (h.1.rows hf).1,
      (h.1.rows hf).2]
    exact ⟨rfl, rfl⟩
  · have htold := h.1.told
    rw [hflight] at htold ⊢
    exact htold.row hplain he

theorem addOrder_keeps (generation : Nat) (row : ReconcileMsg) :
    Kept c (d.addOrder generation row) := by
  unfold addOrder
  split
  · next hcurrent =>
    obtain ⟨hflight, hgen⟩ := Bool.and_eq_true_iff.mp hcurrent
    obtain rfl := of_decide_eq_true hgen
    refine h.row (fun _ => Seen.noConfusion) Seen.noConfusion hflight (fun g hg => ⟨?_, rfl⟩) ?_ ?_
    · simp [ordersFor, hg.symm]
    · simp [ordersFor]
    · simp [positionsFor]
  · exact h

theorem addPosition_keeps (generation : Nat) (row : PositionRow) :
    Kept c (d.addPosition generation row) := by
  unfold addPosition
  split
  · next hcurrent =>
    obtain ⟨hflight, hgen⟩ := Bool.and_eq_true_iff.mp hcurrent
    obtain rfl := of_decide_eq_true hgen
    refine h.row (fun _ => Seen.noConfusion) Seen.noConfusion hflight (fun g hg => ⟨rfl, ?_⟩) ?_ ?_
    · simp [positionsFor, hg.symm]
    · simp [ordersFor]
    · simp [positionsFor]
  · exact h

end

/-- The snapshot of the fetch under way. -/
def snapshot (d : ReconcileDriver) : Snapshot where
  watermark := d.watermark
  executionsExact := d.exact
  orders := d.orders
  positions := d.positions
  generation := d.generation
  serves := d.running.calls

/-- The driver once the snapshot is out, but for what is pending. -/
def freed (d : ReconcileDriver) : ReconcileDriver :=
  { d with
    inFlight := false
    exact := false
    pending := {}
    running := {}
    orders := []
    positions := [] }.see (.emitted d.snapshot)

theorem deliver_eq (d : ReconcileDriver) (w : World) :
    d.deliver w = { d.freed with pending := d.pending } ∨
      ∃ ids, d.deliver w = { d.freed.see (.dropped ids) with pending := d.pending } := by
  unfold deliver sweepShadows
  split
  · exact .inl rfl
  · exact .inr ⟨_, rfl⟩

theorem Sound.freed (h : Sound d) (hflight : d.inFlight = true) : Sound d.freed := by
  have hwait : d.waitingReplay = false := by
    cases hw : d.waitingReplay with
    | false => rfl
    | true => exact absurd hflight (by rw [h.alone hw]; exact Bool.false_ne_true)
  have hnever : d.waitingReplay ≠ true := by
    rw [hwait]
    exact Bool.false_ne_true
  refine ⟨fun _ => rfl, fun _ => ⟨rfl, rfl⟩, fun hb => ?_, h.armed, .nothing _, .nothing _,
    h.retry.snoc _, fun hw => absurd hw hnever, fun hf => absurd hf Bool.false_ne_true,
    fun hf => absurd hf Bool.false_ne_true, ?_⟩
  · exact absurd ((Bool.false_or _).symm.trans hb) hnever
  · have htold := h.told
    rw [hflight] at htold
    exact htold.snapshot rfl (h.fetched hflight) (h.rows hflight).1 (h.rows hflight).2

theorem startBalances_keeps (h : Kept c d) (w : World) : (d.startBalances w).Keeps (Kept c) := by
  unfold startBalances
  split
  · exact h
  split
  · exact h.balances _ _ _ _ _
  refine ⟨h.balances _ _ _ _ _, fun w' s asked hs => ?_⟩
  show Kept c (if _ then _ else _)
  split
  · exact hs.balances _ _ _ _ _
  · exact hs

theorem requestBalances_keeps (h : Kept c d) (w : World) :
    (d.requestBalances w).Keeps (Kept c) := by
  unfold requestBalances
  split
  · exact h
  · split
    · exact h.balances _ _ _ _ _
    · exact startBalances_keeps h w

theorem balancesFetched_keeps (h : Kept c d) (w : World) (generation : Nat) (ok : Bool) :
    Kept c (d.balancesFetched w generation ok) := by
  unfold balancesFetched
  split
  · exact h
  · split
    · exact h.balances _ _ _ _ _
    · exact h.balances _ _ _ _ _

/-- A driver freed of its snapshot goes on with what is pending. -/
theorem next_keeps (h : Sound d) (hidle : d.busy = false) {x : Wish} (hx : Meant d.log x)
    (hserved : c → Served d.log d.isOpen x.calls) (hretry : d.retryWant = {}) (w : World) :
    (if x.want ≠ .none then start w { d with pending := x }
      else Prog.done { d with pending := x }).Keeps (Kept c) := by
  have hcalls : d.retryWant.calls = [] := by rw [hretry]
  split_ifs with hwant
  · refine start_keeps h hidle hx (fun hc => (hserved hc).mono ?_) (fun _ hne => ?_) w
    · exact subset_append_left _ _
    · exact absurd hcalls hne
  have hnone : x.want = .none := not_not.mp hwant
  have hempty : x.calls = [] := by
    by_contra hne
    simp [hx.1 hne] at hnone
  have hxnil : x = {} := by
    obtain ⟨w, calls⟩ := x
    cases hnone
    cases hempty
    rfl
  obtain ⟨hpending, -⟩ := h.idle hidle
  have hsame : { d with pending := x } = d := by
    rw [hxnil, ← hpending]
  rw [hsame]
  refine ⟨h, fun hc => (hserved hc).mono ?_⟩
  rw [hempty]
  exact nil_subset _

section

variable (h : Kept c d)
include h

theorem fetched_keeps (w : World) (generation : Nat) (ok : Bool) :
    (d.fetched w generation ok).Keeps (Kept c) := by
  unfold fetched
  by_cases hcurrent : d.current generation = true
  · rw [if_neg (by rw [hcurrent]; exact Bool.false_ne_true)]
    obtain ⟨hflight, -⟩ := Bool.and_eq_true_iff.mp hcurrent
    have hbusy : d.busy = true := by
      unfold busy
      rw [hflight, Bool.true_or]
    have hretry := h.1.quiet hbusy
    cases ok with
    | false => exact h.fail w
    | true =>
      have hsound := h.1.freed hflight
      have hidle : d.freed.busy = false := by
        cases hb : d.freed.busy with
        | false => rfl
        | true =>
          have hwait : d.waitingReplay = true := (Bool.false_or _).symm.trans hb
          simp [h.1.alone hwait] at hflight
      have hserved : c → Served d.freed.log d.freed.isOpen d.pending.calls := by
        intro hc
        refine Served.emitted ((h.2 hc).mono ?_)
        rw [hretry]
        rw [append_nil]
        exact List.Subset.refl _
      have hpending : Meant d.freed.log d.pending := h.1.pending.snoc _
      rw [if_neg (by exact Bool.false_ne_true)]
      refine Prog.Keeps.andThen (fun w' s hs => startBalances_keeps hs w') w ?_
      rcases deliver_eq d w with heq | ⟨ids, heq⟩
      · rw [heq]
        exact next_keeps hsound hidle hpending hserved hretry w
      · rw [heq]
        exact next_keeps (hsound.see (e := .dropped ids) trivial Seen.noConfusion) hidle
          (hpending.snoc _) (fun hc => (hserved hc).see Seen.noConfusion) hretry w
  · rw [if_pos (by simpa using hcurrent)]
    exact h

theorem timeBalances_keeps (w : World) (nowNs : Nat) :
    (d.timeBalances w nowNs).Keeps (Kept c) := by
  unfold timeBalances
  have hfailed : Kept c (if d.balInFlight && decide (kFetchTimeoutNs ≤ nowNs - d.balStarted) then
      d.failBalances w else d) := by
    split
    · exact h.balances _ _ _ _ _
    · exact h
  dsimp only
  generalize (if d.balInFlight && decide (kFetchTimeoutNs ≤ nowNs - d.balStarted) then
      d.failBalances w else d) = s at hfailed ⊢
  split
  · exact startBalances_keeps hfailed w
  · exact hfailed

theorem timeSnapshot_keeps (nowNs : Nat) (w : World) :
    (d.timeSnapshot nowNs w).Keeps (Kept c) := by
  unfold timeSnapshot
  have hfailed : Kept c (if d.inFlight && decide (kFetchTimeoutNs ≤ nowNs - d.fetchStarted) then
      d.fail w else d) := by
    split
    · exact h.fail w
    · exact h
  generalize (if d.inFlight && decide (kFetchTimeoutNs ≤ nowNs - d.fetchStarted) then
      d.fail w else d) = s at hfailed ⊢
  by_cases hdue : s.retryAt ≠ 0 ∧ s.retryAt ≤ nowNs
  · rw [if_pos hdue]
    have hs := hfailed.1
    have hcleared : Sound { s with retryAt := 0, retryWant := {} } :=
      ⟨hs.alone, hs.idle, fun _ => rfl, fun hr => absurd rfl hr, hs.pending, hs.running,
        .nothing _, hs.started, hs.fetched, hs.rows, hs.told⟩
    have hmeant : Meant s.log { s.retryWant with
        want := if s.retryWant.want = .none then .full else s.retryWant.want } := by
      refine ⟨fun hne => ?_, hs.retry.2⟩
      rw [hs.retry.1 hne]
      rfl
    refine want_keeps (c := c) hcleared hmeant (fun hc => ?_) (fun hclosed hc => ?_)
      (fun _ _ _ hne => absurd rfl hne) w
    · refine (hfailed.2 hc).mono ?_
      rw [append_nil]
      exact List.Subset.refl _
    · exact (hfailed.2 hc).closed hclosed
  · rw [if_neg hdue]
    exact hfailed

theorem onTimer_keeps (w : World) (nowNs : Nat) :
    (d.onTimer w nowNs).Keeps (Kept c) :=
  (timeBalances_keeps h w nowNs).andThen (fun w' _ hs => timeSnapshot_keeps hs nowNs w') w

theorem opened_keeps (enabled : Bool) : Kept c (d.opened enabled) := by
  refine ⟨h.1.opened enabled, fun hc => ?_⟩
  show Served (d.log ++ [.opened (enabled && d.attached)]) (enabled && d.attached) _
  cases enabled && d.attached with
  | false => exact Served.shut _ _ _ (.inr rfl)
  | true =>
    refine Served.see (fun i hi => ⟨rfl, ((h.2 hc) i hi).2⟩) ?_
    exact Seen.noConfusion

theorem close_keeps : Kept c d.close :=
  ⟨h.1.close, fun _ => Served.shut _ _ _ (.inl rfl)⟩

/-- Every call, but for a sweep that overtakes a retry. -/
theorem does_keeps {call : Call}
    (hlost : c → call = .sweep → ¬(d.isOpen = true ∧ d.busy = false ∧ d.retryWant.want = .full))
    (w : World) : (does call w d).Keeps (Kept c) := by
  cases call with
  | opened enabled => exact opened_keeps h enabled
  | close => exact close_keeps h
  | request => exact request_keeps h w
  | sweep => exact sweep_keeps h (fun hc => hlost hc rfl) w
  | replayDone complete => exact replayDone_keeps h w complete
  | transportLost => exact transportLost_keeps h w
  | addOrder generation row => exact addOrder_keeps h generation row
  | addPosition generation row => exact addPosition_keeps h generation row
  | fetched generation ok => exact fetched_keeps h w generation ok
  | requestBalances => exact requestBalances_keeps h w
  | balancesFetched generation ok => exact balancesFetched_keeps h w generation ok
  | onTimer nowNs => exact onTimer_keeps h w nowNs

end

end

/-! ## Whole runs -/

variable (attached : Bool)
variable (inputs : List (Input Call World))

theorem sound_fresh : Sound { attached := attached } where
  alone hw := nomatch hw
  idle _ := ⟨rfl, rfl⟩
  quiet hb := nomatch hb
  armed hr := absurd rfl hr
  pending := .nothing _
  running := .nothing _
  retry := .nothing _
  started hw := nomatch hw
  fetched hf := nomatch hf
  rows hf := nomatch hf
  told := ⟨fun _ _ => ⟨rfl, rfl⟩, fun _ hs => absurd hs not_mem_nil⟩

/-- A sweep that comes to an open, free driver whose Full retry is scheduled. -/
def Overtaken : Prop :=
  ∃ pre w rest, inputs = pre ++ .call .sweep w :: rest ∧
    (after attached pre).state.isOpen = true ∧ (after attached pre).state.busy = false ∧
    (after attached pre).state.retryWant.want = .full

theorem kept_after : Kept (¬Overtaken attached inputs) (after attached inputs).state := by
  have hfresh : Reentrant.Holds (Kept (¬Overtaken attached inputs))
      (⟨{ attached := attached }, []⟩ : Machine) := by
    refine ⟨⟨sound_fresh attached, fun _ i hi => ?_⟩, fun f hf => absurd hf not_mem_nil⟩
    exact absurd hi.1 (by simp)
  refine (hfresh.run fun pre call w rest heq hpre => ?_).1
  refine does_keeps hpre (fun hc hsweep hstate => hc ?_) w
  rw [hsweep] at heq
  exact ⟨pre, w, rest, heq, hstate⟩

/-- Where a request owed is, when no snapshot with a watermark taken after it is out. -/
theorem fullAhead_of_served {d : ReconcileDriver} (hs : Sound d) (h : Answered d) {i : Nat}
    (hi : Owing d.log i) (hnone : ∀ s a b m, .emitted s ∈ d.log →
      d.log = a ++ .fetching s.generation (some m) :: b → a.length ≤ i) : FullAhead d := by
  have hbusy : ∀ x : Wish, i ∈ x.calls → x ≠ {} := by
    rintro x hx rfl
    exact not_mem_nil hx
  obtain ⟨-, hmem | ⟨s, hemitted, hmem⟩⟩ := h i hi
  · rcases mem_append.mp hmem with hmem | hmem
    · rcases mem_append.mp hmem with hmem | hmem
      · exact .inl (hs.pending.1 (ne_nil_of_mem hmem))
      · refine .inr (.inl ⟨?_, hs.running.1 (ne_nil_of_mem hmem)⟩)
        by_contra hfree
        exact hbusy _ hmem (hs.idle (by simpa using hfree)).2
    · have hfull := hs.retry.1 (ne_nil_of_mem hmem)
      refine .inr (.inr ⟨hs.armed ?_, hfull⟩)
      rw [hfull]
      exact Want.noConfusion
  · obtain ⟨⟨⟨a, b, taken, hlog, -, hsent, hserves, -⟩, -⟩, -⟩ := hs.told.emitted s hemitted
    obtain ⟨m, rfl⟩ := Option.isSome_iff_exists.mp (hsent (ne_nil_of_mem hmem))
    exact absurd (hserves i hmem).1 (Nat.not_lt.mpr (hnone s a b m hemitted hlog))

/-- In every run, with calls and answers inside the hooks and after them: each snapshot's rows
are those added for its generation, its watermark was taken after the requests it serves, and it
is exact only if a complete replay ended between its start and its fetch; and where no sweep
overtook a scheduled retry, a request no snapshot is out for has a Full one ahead. -/
theorem reconciled :
    (let d := (after attached inputs).state
    (∀ s, .emitted s ∈ d.log →
      s.orders = ordersFor s.generation d.log ∧ s.positions = positionsFor s.generation d.log ∧
        FetchedFor d.log s.generation s.watermark s.executionsExact s.serves) ∧
    (¬Overtaken attached inputs → ∀ i, Owing d.log i →
      (∀ s a b m, .emitted s ∈ d.log →
        d.log = a ++ .fetching s.generation (some m) :: b → a.length ≤ i) → FullAhead d)) := by
  obtain ⟨hsound, hanswered⟩ := kept_after attached inputs
  refine ⟨fun s hs => ?_, fun hc i hi hnone => fullAhead_of_served hsound (hanswered hc) hi hnone⟩
  obtain ⟨⟨hfetched, horders, hpositions⟩, -⟩ := hsound.told.emitted s hs
  exact ⟨horders, hpositions, hfetched⟩

/-- A request whose snapshot could not be asked for, and the start-up sweep before the retry. -/
def overtaking : List (Input Call World) :=
  [.call (.opened true) {}, .call .request {}, .ret false {}, .ret false {}, .call .sweep {}]

/-- The run until the sweep's snapshot is out. -/
def overtaken : List (Input Call World) :=
  overtaking ++ [.ret false {}, .ret true {}, .call (.fetched 3 true) {}, .ret false {}]

/-- The request is owed, nothing is out, and no Full snapshot is ahead; nor is one when the
sweep's snapshot is out and the driver rests. -/
theorem not_reconciled_overtaken : Owing (after true overtaking).state.log 1 ∧
    (∀ s, .emitted s ∉ (after true overtaking).state.log) ∧
    ¬FullAhead (after true overtaking).state ∧
    Owing (after true overtaken).state.log 1 ∧
    (∀ s, .emitted s ∈ (after true overtaken).state.log → s.watermark = {} ∧ s.serves = []) ∧
    ¬FullAhead (after true overtaken).state := by
  have hlog : (after true overtaking).state.log = [.opened true, .requested true, .started,
      .fetching 1 (some {}), .started] := rfl
  have hlog' : (after true overtaken).state.log = [.opened true, .requested true, .started,
      .fetching 1 (some {}), .started, .fetching 3 none, .emitted ⟨{}, false, [], [], 3, []⟩] := rfl
  refine ⟨⟨by rw [hlog]; rfl, openSince_of_drop ?_⟩, ?_, ?_, ⟨?_, openSince_of_drop ?_⟩, ?_, ?_⟩
  · rw [hlog]
    decide
  · intro s hs
    rw [hlog] at hs
    simp at hs
  · unfold FullAhead
    decide
  · rfl
  · decide
  · intro s hs
    rw [hlog'] at hs
    have heq : s = ⟨{}, false, [], [], 3, []⟩ := by simpa using hs
    rw [heq]
    exact ⟨rfl, rfl⟩
  · unfold FullAhead
    decide

end ReconcileDriver

end FastMM
