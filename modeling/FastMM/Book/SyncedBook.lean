/-
  Book/SyncedBook.lean --- what the syncer hands on has no hole.

  The venue's book after update `n` is `B n`.  A delta of its stream carries the
  quantity of every level that changed in its range, as of the range's end; a
  snapshot with id `L` is `B L`.  `SinkView` is what a sink can tell from the calls
  it got: the last update covered since its snapshot, if it is inside a segment,
  and the book it built.

  Nothing is asked of the order in which deltas and snapshots arrive.
-/
import FastMM.Book.BookSyncer
set_option autoImplicit false

namespace FastMM

open Foundation L2Book List

namespace BookSyncer

variable {d : BookDeltaMsg}

/-- A book: the quantity at each price of each side. -/
abbrev Book : Type := Side → Price → Qty

/-! ## The venue -/

/-- The levels a message carries on a side. -/
def carried (d : BookDeltaMsg) : Side → List Level
  | .buy => d.bids
  | .sell => d.asks

/-- A delta of the stream: a range of update ids, with the quantity after it of every
level that changed in it. -/
structure StreamDelta (B : Nat → Book) (d : BookDeltaMsg) : Prop where
  pos : 1 ≤ d.firstUpdateId
  range : d.firstUpdateId ≤ d.lastUpdateId
  last_lt : d.lastUpdateId < 2 ^ 64
  absolute : ∀ side, ∀ l ∈ carried d side, l.qty = B d.lastUpdateId side l.price
  complete : ∀ side price, (∀ l ∈ carried d side, l.price ≠ price) →
    ∀ n, d.firstUpdateId ≤ n + 1 → n ≤ d.lastUpdateId →
      B n side price = B d.lastUpdateId side price

/-- A snapshot of the venue's book. -/
structure VenueSnapshot (B : Nat → Book) (snap : BookDeltaMsg) : Prop where
  last_lt : snap.lastUpdateId < 2 ^ 64
  exact : snapshotRef snap.bids snap.asks = B snap.lastUpdateId

/-- What the venue can send: deltas of its stream, and snapshots of its book. -/
def Genuine (B : Nat → Book) : Event → Prop
  | .start => True
  | .resync _ => True
  | .delta d => if d.isSnapshot then VenueSnapshot B d else StreamDelta B d
  | .snapshot snap => VenueSnapshot B snap

/-! ## The sink -/

/-- What the calls say: the last update covered since the snapshot, inside a
segment, and the book they build. -/
structure SinkView where
  covered : Option Nat
  book : Book

/-- The quantities after a delta's levels. -/
def applied (book : Book) (d : BookDeltaMsg) : Book :=
  setRefs (setRefs book .buy d.bids) .sell d.asks

/-- The view after one more call. -/
def see (v : SinkView) : SinkCall → SinkView
  | .onSnapshot snap => ⟨some snap.lastUpdateId, snapshotRef snap.bids snap.asks⟩
  | .onDelta d _ => ⟨some d.lastUpdateId, applied v.book d⟩
  | .onResync _ => ⟨none, v.book⟩
  | .requestSnapshot => v

/-- The view after a sequence of calls. -/
def seen (v : SinkView) (calls : List SinkCall) : SinkView := calls.foldl see v

/-- The calls split into segments: each starts with a snapshot and ends at the next
one or at a resync, and a delta inside leaves no update id uncovered. -/
def Segmented : Option Nat → List SinkCall → Prop
  | _, [] => True
  | _, .onSnapshot snap :: calls => Segmented (some snap.lastUpdateId) calls
  | none, .onDelta _ _ :: _ => False
  | some p, .onDelta d _ :: calls =>
    d.firstUpdateId ≤ p + 1 ∧ p < d.lastUpdateId ∧ Segmented (some d.lastUpdateId) calls
  | _, .onResync _ :: calls => Segmented none calls
  | p, .requestSnapshot :: calls => Segmented p calls

/-- A call that keeps the promise: a delta follows what is covered, and leaves the
venue's book. -/
def Sound (B : Nat → Book) (v : SinkView) : SinkCall → Prop
  | .onDelta d last => (∃ p, v.covered = some p ∧ d.firstUpdateId ≤ p + 1 ∧ p < d.lastUpdateId) ∧
      last = d.lastUpdateId ∧ applied v.book d = B last
  | _ => True

/-- Every call keeps it. -/
def AllSound (B : Nat → Book) : SinkView → List SinkCall → Prop
  | _, [] => True
  | v, c :: calls => Sound B v c ∧ AllSound B (see v c) calls

variable {B : Nat → Book}

theorem allSound_append {v : SinkView} {calls more : List SinkCall}
    (h : AllSound B v calls) (hmore : AllSound B (seen v calls) more) :
    AllSound B v (calls ++ more) := by
  induction calls generalizing v with
  | nil => exact hmore
  | cons c calls ih => exact ⟨h.1, ih h.2 hmore⟩

theorem seen_append (v : SinkView) (calls more : List SinkCall) :
    seen v (calls ++ more) = seen (seen v calls) more :=
  foldl_append ..

/-! ## A delta on the book it follows -/

/-- Levels that all carry `f`, over quantities that are `f` elsewhere, give `f`. -/
theorem lastSet_eq {r f : Price → Qty} {ls : List Level} {price : Price}
    (habs : ∀ l ∈ ls, l.qty = f l.price) (hrest : (∀ l ∈ ls, l.price ≠ price) → r price = f price) :
    lastSet r ls price = f price := by
  induction ls generalizing r with
  | nil => exact hrest (fun _ hl => nomatch hl)
  | cons l rest ih =>
    show lastSet (Function.update r l.price l.qty) rest price = f price
    apply ih (fun m hm => habs m (mem_cons_of_mem l hm))
    intro hnone
    by_cases hp : price = l.price
    · rw [hp, Function.update_self]
      exact habs l mem_cons_self
    rw [Function.update_of_ne hp]
    apply hrest
    exact forall_mem_cons.mpr ⟨fun heq => hp heq.symm, hnone⟩

/-- A delta takes any book of its range to the one at its end. -/
theorem StreamDelta.applied_eq (h : StreamDelta B d) {p : Nat}
    (hfirst : d.firstUpdateId ≤ p + 1) (hlast : p ≤ d.lastUpdateId) :
    applied (B p) d = B d.lastUpdateId := by
  have hside : ∀ side price, lastSet (B p side) (carried d side) price =
      B d.lastUpdateId side price := by
    intro side price
    apply lastSet_eq (h.absolute side)
    intro hnone
    exact h.complete side price hnone p hfirst hlast
  unfold applied
  rw [setRefs_eq, setRefs_eq]
  funext side price
  cases side with
  | buy => exact hside .buy price
  | sell => exact hside .sell price

/-- Off the wrap the successor is the next number; a range never starts at the
wrapped one. -/
theorem nextId_eq {p u : Nat} (hp : p < 2 ^ 64) (hu : 1 ≤ u) (hle : u ≤ nextId p) :
    nextId p = p + 1 := by
  unfold nextId at hle ⊢
  by_cases hwrap : p + 1 = 2 ^ 64
  · rw [hwrap, Nat.mod_self] at hle
    omega
  · exact Nat.mod_eq_of_lt (by omega)

theorem bounds_of_firstApplies (h : StreamDelta B d) {p : Nat}
    (hp : p < 2 ^ 64) (happ : binanceSpotSyncTraits.firstApplies d p = true) :
    d.firstUpdateId ≤ p + 1 ∧ p < d.lastUpdateId := by
  have hrule := of_decide_eq_true happ
  have hnext := nextId_eq hp h.pos hrule.1
  rw [hnext] at hrule
  exact ⟨hrule.1, hrule.2⟩

theorem bounds_of_nextApplies (h : StreamDelta B d) {p : Nat}
    (hp : p < 2 ^ 64) (happ : binanceSpotSyncTraits.nextApplies d p = true) :
    d.firstUpdateId ≤ p + 1 ∧ p < d.lastUpdateId := by
  have hrule : d.firstUpdateId = nextId p := of_decide_eq_true happ
  have hnext := nextId_eq hp h.pos (Nat.le_of_eq hrule)
  have hrange := h.range
  omega

/-! ## The invariant -/

/-- The syncer beside what the sink saw: the buffer holds deltas of the stream, and
while synced the sink stands exactly where the syncer does. -/
structure InStep (B : Nat → Book) (s : BookSyncer) (v : SinkView) (l : List BookDeltaMsg) :
    Prop where
  holds : MessageArena.Holds BookDeltaMsg.len s.buf l
  stream : ∀ d ∈ l, StreamDelta B d
  covered : s.state = .synced → v.covered = some s.prevU
  book : s.state = .synced → v.book = B s.prevU
  prevU_lt : s.state = .synced → s.prevU < 2 ^ 64
  drained : s.state = .synced → l = []

/-- What an operation owes: its calls are sound and the syncer stays in step. -/
def Keeps (B : Nat → Book) (v : SinkView) (r : BookSyncer × List SinkCall) : Prop :=
  AllSound B v r.2 ∧ ∃ l, InStep B r.1 (seen v r.2) l

section Operations

variable {s : BookSyncer} {v : SinkView} {l : List BookDeltaMsg}
variable {d : BookDeltaMsg}

/-- Off `synced` only the buffer matters. -/
theorem InStep.of_buffer (hholds : MessageArena.Holds BookDeltaMsg.len s.buf l)
    (hstream : ∀ d ∈ l, StreamDelta B d) (hstate : s.state ≠ .synced) : InStep B s v l :=
  ⟨hholds, hstream, fun h => absurd h hstate, fun h => absurd h hstate,
    fun h => absurd h hstate, fun h => absurd h hstate⟩

theorem start_keeps (s : BookSyncer) (v : SinkView) :
    Keeps B v (s.start binanceSpotSyncTraits) := by
  refine ⟨⟨trivial, trivial⟩, [], ?_⟩
  exact InStep.of_buffer (MessageArena.Holds.reset s.buf) (fun _ hd => nomatch hd)
    (by simp [start])

theorem resync_keeps (s : BookSyncer) (v : SinkView) (reason : SyncReason) :
    Keeps B v (s.resync binanceSpotSyncTraits reason) := by
  obtain ⟨hsound, hstep⟩ := start_keeps (B := B)
    { s with resyncs := s.resyncs + 1, state := .resync } (see v (.onResync reason))
  exact ⟨⟨trivial, hsound⟩, hstep⟩

theorem bufferOrResync_keeps (hholds : MessageArena.Holds BookDeltaMsg.len s.buf l)
    (hstream : ∀ d ∈ l, StreamDelta B d) (hstate : s.state ≠ .synced)
    (hd : StreamDelta B d) (v : SinkView) :
    Keeps B v (s.bufferOrResync binanceSpotSyncTraits d) := by
  unfold bufferOrResync buffer
  cases hpush : s.buf.push BookDeltaMsg.len kMaxBuffered s.bufBytes d with
  | none => exact resync_keeps s v .bufferOverflow
  | some buf =>
    refine ⟨trivial, l ++ [d], ?_⟩
    refine InStep.of_buffer (hholds.push BookDeltaMsg.len_pos s.bufBytes_le hpush) ?_ hstate
    exact forall_mem_append.mpr ⟨hstream, forall_mem_singleton.mpr hd⟩

theorem resyncKeeping_keeps (s : BookSyncer) (hd : StreamDelta B d)
    (v : SinkView) : Keeps B v (s.resyncKeeping binanceSpotSyncTraits d) := by
  have hresync := resync_keeps (B := B) s v .sequenceGap
  unfold resyncKeeping
  dsimp only
  rw [if_pos ⟨rfl, rfl⟩]
  obtain ⟨hsound, hstep⟩ := bufferOrResync_keeps (B := B)
    (s := (s.resync binanceSpotSyncTraits .sequenceGap).1)
    (MessageArena.Holds.reset s.buf) (fun _ hx => nomatch hx) (by simp [resync, start]) hd
    (seen v (s.resync binanceSpotSyncTraits .sequenceGap).2)
  refine ⟨allSound_append hresync.1 hsound, ?_⟩
  rw [seen_append]
  exact hstep

section

variable (h : InStep B s v l) (hsynced : s.state = .synced) (hd : StreamDelta B d)
include h hsynced hd

/-- A delta that follows what is covered. -/
theorem apply_keeps (hbounds : d.firstUpdateId ≤ s.prevU + 1 ∧ s.prevU < d.lastUpdateId) :
    Keeps B v (s.apply d) := by
  have hbook : applied v.book d = B d.lastUpdateId := by
    rw [h.book hsynced]
    exact hd.applied_eq hbounds.1 (Nat.le_of_lt hbounds.2)
  refine ⟨⟨⟨⟨s.prevU, h.covered hsynced, hbounds⟩, rfl, hbook⟩, trivial⟩, l, ?_⟩
  exact ⟨h.holds, h.stream, fun _ => rfl, fun _ => hbook, fun _ => hd.last_lt, h.drained⟩

theorem onDeltaSynced_keeps :
    Keeps B v (s.onDeltaSynced binanceSpotSyncTraits d) := by
  have hquiet : Keeps B v (s, []) := ⟨trivial, l, h⟩
  have hlt := h.prevU_lt hsynced
  unfold onDeltaSynced
  split
  · split
    · exact hquiet
    split
    case isTrue happ =>
      have h' : InStep B { s with awaitingFirst := false } v l :=
        ⟨h.holds, h.stream, h.covered, h.book, h.prevU_lt, h.drained⟩
      exact apply_keeps h' hsynced hd (bounds_of_firstApplies hd hlt happ)
    · exact resyncKeeping_keeps s hd v
  · split
    case isTrue happ => exact apply_keeps h hsynced hd (bounds_of_nextApplies hd hlt happ)
    · split
      · exact hquiet
      · exact resyncKeeping_keeps s hd v

end

/-- The replay hands on the deltas behind the snapshot up to the first gap. -/
theorem replay_keeps {L n i : Nat} (first : Bool) (hn : i + n = l.length)
    (hholds : MessageArena.Holds BookDeltaMsg.len s.buf l)
    (hstream : ∀ d ∈ l, StreamDelta B d) (hcovered : v.covered = some s.prevU)
    (hbook : v.book = B s.prevU) (hlt : s.prevU < 2 ^ 64) (hfirst : first = true → s.prevU = L) :
    Keeps B v (replay binanceSpotSyncTraits L n i first s) := by
  induction n generalizing i first s v with
  | zero =>
    refine ⟨trivial, [], ?_⟩
    exact ⟨MessageArena.Holds.reset s.buf, fun _ hd => absurd hd (by simp), fun _ => hcovered,
      fun _ => hbook, fun _ => hlt, fun _ => rfl⟩
  | succ n ih =>
    have hget : l[i]? = some (s.buf.get i) := by
      have hi : i < l.length := by omega
      rw [getElem?_eq_getElem hi, hholds.get (getElem?_eq_getElem hi)]
    have hd := hstream _ (mem_of_getElem? hget)
    unfold replay
    by_cases happ : (if first = true then binanceSpotSyncTraits.firstApplies (s.buf.get i) L
        else binanceSpotSyncTraits.nextApplies (s.buf.get i) s.prevU) = true
    · rw [if_pos happ]
      have hbounds : (s.buf.get i).firstUpdateId ≤ s.prevU + 1 ∧
          s.prevU < (s.buf.get i).lastUpdateId := by
        cases first with
        | true =>
          rw [if_pos rfl, ← hfirst rfl] at happ
          exact bounds_of_firstApplies hd hlt happ
        | false =>
          rw [if_neg (by decide)] at happ
          exact bounds_of_nextApplies hd hlt happ
      have hafter : applied v.book (s.buf.get i) = B (s.buf.get i).lastUpdateId := by
        rw [hbook]
        exact hd.applied_eq hbounds.1 (Nat.le_of_lt hbounds.2)
      have hrest := ih (s := (s.apply (s.buf.get i)).1) (i := i + 1) false
        (v := see v (.onDelta (s.buf.get i) (s.buf.get i).lastUpdateId)) (by omega) hholds rfl
        hafter hd.last_lt (by simp)
      exact ⟨⟨⟨⟨s.prevU, hcovered, hbounds⟩, rfl, hafter⟩, hrest.1⟩, hrest.2⟩
    · rw [if_neg happ]
      refine ⟨⟨trivial, trivial, trivial⟩, l.drop i, ?_⟩
      refine InStep.of_buffer (hholds.dropFront BookDeltaMsg.len_pos i) ?_ (by simp)
      intro x hx
      exact hstream x (mem_of_mem_drop hx)

theorem firstFresh_le (T : SyncTraits) (s : BookSyncer) (L : Nat) (n i : Nat) :
    i ≤ s.firstFresh T L n i ∧ s.firstFresh T L n i ≤ i + n := by
  induction n generalizing i with
  | zero => exact ⟨Nat.le_refl _, Nat.le_refl _⟩
  | succ n ih =>
    unfold firstFresh
    split
    · have := ih (i + 1)
      omega
    · omega

section

variable (h : InStep B s v l)
include h

theorem onSnapshot_keeps {snap : BookDeltaMsg}
    (hsnap : VenueSnapshot B snap) : Keeps B v (s.onSnapshot binanceSpotSyncTraits snap) := by
  unfold onSnapshot
  split
  · exact ⟨trivial, l, h⟩
  dsimp only
  have hcount := h.holds.count
  have hle := (firstFresh_le binanceSpotSyncTraits s snap.lastUpdateId s.buf.count 0).2
  rw [if_pos (show binanceSpotSyncTraits.kBuffersDeltas = true from rfl)]
  split
  case isTrue hold =>
    -- A delta is buffered, so the syncer is not synced and the buffer is all it has.
    have hstate : s.state ≠ .synced := by
      intro hsynced
      rw [hcount, h.drained hsynced] at hold
      exact absurd hold.1 (by simp)
    refine ⟨⟨trivial, trivial, trivial⟩,
      l.drop (s.firstFresh binanceSpotSyncTraits snap.lastUpdateId s.buf.count 0), ?_⟩
    refine InStep.of_buffer (h.holds.dropFront BookDeltaMsg.len_pos _) ?_ hstate
    intro x hx
    exact h.stream x (mem_of_mem_drop hx)
  case isFalse =>
    have hreplay := replay_keeps (B := B) (L := snap.lastUpdateId) true
      (s := { s with prevU := snap.lastUpdateId, state := .synced })
      (v := see v (.onSnapshot snap))
      (i := s.firstFresh binanceSpotSyncTraits snap.lastUpdateId s.buf.count 0)
      (n := s.buf.count - s.firstFresh binanceSpotSyncTraits snap.lastUpdateId s.buf.count 0)
      (by omega) h.holds h.stream rfl hsnap.exact hsnap.last_lt (fun _ => rfl)
    exact ⟨⟨trivial, hreplay.1⟩, hreplay.2⟩

theorem onDelta_keeps
    (hd : Genuine B (.delta d)) : Keeps B v (s.onDelta binanceSpotSyncTraits d) := by
  have hquiet : Keeps B v (s, []) := ⟨trivial, l, h⟩
  unfold onDelta
  simp only [Genuine] at hd
  cases hsnap : d.isSnapshot with
  | true =>
    rw [hsnap, if_pos rfl] at hd
    rw [if_pos rfl]
    exact onSnapshot_keeps h hd
  | false =>
    rw [hsnap, if_neg (by decide)] at hd
    rw [if_neg (by decide), if_neg (by simp [binanceSpotSyncTraits])]
    cases hstate : s.state with
    | idle => exact hquiet
    | resync => exact hquiet
    | buffering =>
      exact bufferOrResync_keeps h.holds h.stream (by rw [hstate]; decide) hd v
    | synced => exact onDeltaSynced_keeps h hstate hd

theorem step_keeps {e : Event} (he : Genuine B e) :
    Keeps B v (s.step binanceSpotSyncTraits e) := by
  cases e with
  | start => exact start_keeps s v
  | resync reason => exact resync_keeps s v reason
  | delta d => exact onDelta_keeps h he
  | snapshot snap => exact onSnapshot_keeps h he

/-- Over a whole run every call is sound. -/
theorem run_allSound {es : List Event} (hes : ∀ e ∈ es, Genuine B e) :
    AllSound B v (s.run binanceSpotSyncTraits es).2 := by
  induction es generalizing s v l with
  | nil => trivial
  | cons e es ih =>
    obtain ⟨hsound, l', h'⟩ := step_keeps h (hes e mem_cons_self)
    exact allSound_append hsound (ih h' (fun x hx => hes x (mem_cons_of_mem e hx)))

end

end Operations

/-! ## Sound calls have no hole -/

theorem segmented_of_allSound {v : SinkView} {calls : List SinkCall}
    (h : AllSound B v calls) : Segmented v.covered calls := by
  induction calls generalizing v with
  | nil => cases v.covered <;> trivial
  | cons c calls ih =>
    have hrest := ih h.2
    cases c with
    | onSnapshot snap => cases hv : v.covered <;> exact hrest
    | onDelta d last =>
      obtain ⟨⟨p, hp, hbounds⟩, -⟩ := h.1
      rw [hp]
      exact ⟨hbounds.1, hbounds.2, hrest⟩
    | onResync reason => cases hv : v.covered <;> exact hrest
    | requestSnapshot =>
      unfold see at hrest
      cases hv : v.covered <;> rw [hv] at hrest <;> exact hrest

theorem book_of_allSound {v : SinkView} {pre : List SinkCall} {d : BookDeltaMsg} {last : Nat}
    (h : AllSound B v (pre ++ [.onDelta d last])) :
    last = d.lastUpdateId ∧ (seen v (pre ++ [.onDelta d last])).book = B last := by
  induction pre generalizing v with
  | nil => exact ⟨h.1.2.1, h.1.2.2⟩
  | cons c pre ih => exact ih h.2

theorem allSound_initial {v : SinkView} {pre calls : List SinkCall} (hpre : pre <+: calls)
    (h : AllSound B v calls) : AllSound B v pre := by
  obtain ⟨rest, rfl⟩ := hpre
  induction pre generalizing v with
  | nil => trivial
  | cons c pre ih => exact ⟨h.1, ih h.2⟩

/-- Whatever order the stream's deltas, the venue's snapshots, starts and resyncs
reach the syncer in, its calls split into segments without a hole, and after each
`on_delta` the sink's book is the venue's at `last_update_id()`. -/
theorem sink_never_sees_hole (B : Nat → Book) (bufBytes : Nat) (hbytes : bufBytes ≤ 2 ^ 32)
    (es : List Event) (hes : ∀ e ∈ es, Genuine B e) (book : Book) :
    let calls :=
      (run binanceSpotSyncTraits { bufBytes := bufBytes, bufBytes_le := hbytes } es).2
    Segmented none calls ∧
      ∀ pre d last, pre ++ [.onDelta d last] <+: calls →
        last = d.lastUpdateId ∧
          (seen ⟨none, book⟩ (pre ++ [.onDelta d last])).book = B last := by
  intro calls
  have hinit : InStep B { bufBytes := bufBytes, bufBytes_le := hbytes } ⟨none, book⟩ [] := by
    apply InStep.of_buffer
    · exact MessageArena.Holds.reset {}
    · exact fun _ hd => nomatch hd
    · simp
  have hsound : AllSound B ⟨none, book⟩ calls := run_allSound hinit hes
  refine ⟨segmented_of_allSound hsound, ?_⟩
  intro pre d last hpre
  exact book_of_allSound (allSound_initial hpre hsound)

/-! ## A delta that overlaps the snapshot -/

/-- A venue whose updates 2 and 3 bring a bid of 5 at 100. -/
def oneBid (n : Nat) : Book := fun side price =>
  if 2 ≤ n ∧ side = .buy ∧ price = 100 then 5 else 0

/-- The delta of updates 1 to 3. -/
def bidDelta : BookDeltaMsg :=
  { firstUpdateId := 1, lastUpdateId := 3, bids := [⟨100, 5⟩] }

theorem bidDelta_stream : StreamDelta oneBid bidDelta where
  pos := by decide
  range := by decide
  last_lt := by decide
  absolute side l hl := by
    cases side with
    | buy =>
      rw [mem_singleton.mp hl]
      decide
    | sell => exact absurd hl (by simp [carried, bidDelta])
  complete side price hnone n _ _ := by
    -- The bid at 100 is carried; no other level ever changes.
    have hother : ¬ (side = .buy ∧ price = 100) := by
      rintro ⟨rfl, rfl⟩
      exact hnone ⟨100, 5⟩ (by simp [carried, bidDelta]) rfl
    have hzero : ∀ m, oneBid m side price = 0 := fun m => if_neg (fun h => hother h.2)
    rw [hzero, hzero]

def bareSnapshot : BookDeltaMsg := { isSnapshot := true, lastUpdateId := 1 }

/-- The delta arrives before the snapshot of update 1 and is replayed on it. -/
theorem sink_sees_bid : (run binanceSpotSyncTraits { bufBytes := kDefaultBufferBytes }
      [.start, .delta bidDelta, .snapshot bareSnapshot]).2 =
        [.requestSnapshot, .onSnapshot bareSnapshot, .onDelta bidDelta 3] ∧
    (seen ⟨none, fun _ _ => 0⟩ [.requestSnapshot, .onSnapshot bareSnapshot,
      .onDelta bidDelta 3]).book = oneBid 3 := by
  have hcalls : (run binanceSpotSyncTraits { bufBytes := kDefaultBufferBytes }
      [.start, .delta bidDelta, .snapshot bareSnapshot]).2 =
        [.requestSnapshot, .onSnapshot bareSnapshot, .onDelta bidDelta 3] := by decide
  refine ⟨hcalls, ?_⟩
  have hall := sink_never_sees_hole oneBid kDefaultBufferBytes (by decide)
    [.start, .delta bidDelta, .snapshot bareSnapshot] (by
      intro e he
      simp only [mem_cons, not_mem_nil, or_false] at he
      rcases he with rfl | rfl | rfl
      · trivial
      · exact bidDelta_stream
      · exact ⟨by decide, by funext side price; cases side <;> rfl⟩) (fun _ _ => 0)
  exact (hall.2 [.requestSnapshot, .onSnapshot bareSnapshot] bidDelta 3
    (by rw [hcalls]; exact prefix_rfl)).2

end BookSyncer

end FastMM
