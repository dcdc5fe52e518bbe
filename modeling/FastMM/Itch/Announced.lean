/-
  Itch/Announced.lean --- when the bridge announces Live.

  Source: `src/codecs/itch/itch_l2_bridge.cpp` (`refused`, `send_notices`,
  `mark_complete`, `mark_all_complete`, `mark_incomplete`).

  Two events take a book off `incomplete_`: it completes, or it leaves service for
  capacity.  Only the first announces Live.  A refusal that takes the last waiting
  book out of service after the others have completed brings the count to zero and
  nothing announces it, not then and not later; in every other run Live is announced
  as soon as nothing is waited for.

  Everything else the bridge does keeps the books' states and the venue's last
  announcement (`Keeps`).
-/
import FastMM.Itch.L2Bridge
import Mathlib.Data.List.Infix
set_option autoImplicit false

namespace FastMM.Itch

open List

open Mdp3 (ConnState)

variable {β : Type}

/-! ## Announcements -/

/-- The books of the whole venue are resyncing. -/
def Event.venueResync : Event → Bool
  | .state .Resyncing _ id => !id.valid
  | _ => false

/-- Live was announced, and the venue has not resynced since. -/
def Announced (sent : List Event) : Prop :=
  ∃ before after : List Event, ∃ reason id,
    sent = before ++ .state .Live reason id :: after ∧ ∀ e ∈ after, e.venueResync = false

theorem Announced.append {sent more : List Event} (h : Announced sent)
    (hmore : ∀ e ∈ more, e.venueResync = false) : Announced (sent ++ more) := by
  obtain ⟨before, after, reason, id, hsent, hafter⟩ := h
  refine ⟨before, after ++ more, reason, id, ?_, ?_⟩
  · rw [hsent, append_assoc, cons_append]
  · intro e he
    exact (mem_append.mp he).elim (hafter e) (hmore e)

theorem announced_live (sent : List Event) (reason : Int) (id : InstrumentId) :
    Announced (sent ++ [.state .Live reason id]) :=
  ⟨sent, [], reason, id, rfl, fun _ h => absurd h not_mem_nil⟩

/-- The event announces Live. -/
def Event.live : Event → Bool
  | .state .Live _ _ => true
  | _ => false

theorem not_announced_of_no_live {sent : List Event} (h : sent.any Event.live = false) :
    ¬Announced sent := by
  rintro ⟨before, after, reason, id, hsent, -⟩
  have hmem : Event.state .Live reason id ∈ sent := by
    rw [hsent]
    exact mem_append_right _ mem_cons_self
  exact absurd (any_eq_true.mpr ⟨_, hmem, rfl⟩) (Bool.eq_false_iff.mp h)

/-! ## The state of the books -/

/-- What the announcement depends on in a slot. -/
structure Status where
  id : InstrumentId
  complete : Bool
  full : Bool
  deriving DecidableEq, Repr

/-- The book is neither complete nor out of service. -/
def Status.waiting (s : Status) : Bool := !s.complete && !s.full

def Slot.status (s : Slot β) : Status := ⟨s.id, s.complete, s.full⟩

namespace ItchL2Bridge

def statuses (b : ItchL2Bridge β) : List Status := b.slots.map Slot.status

/-- At least one book is complete and none is waited for. -/
def Settled (b : ItchL2Bridge β) : Prop :=
  (∃ s ∈ b.slots, s.complete = true) ∧ ∀ s ∈ b.slots, s.complete = true ∨ s.full = true

instance (b : ItchL2Bridge β) : Decidable b.Settled := inferInstanceAs (Decidable (_ ∧ _))

/-- What holds between any two calls, while the sink has room for state messages. -/
structure Counted (b : ItchL2Bridge β) : Prop where
  room : ∀ n, b.sink .state n = true
  incomplete : b.incomplete = b.statuses.countP Status.waiting
  valid : ∀ s ∈ b.statuses, s.id.valid = true
  inService : ∀ s ∈ b.statuses, s.complete = true → s.full = false
  live : (∃ s ∈ b.statuses, s.complete = true) → b.incomplete = 0 → Announced b.sent

theorem Counted.announced {b : ItchL2Bridge β} (h : b.Counted) (hs : b.Settled) :
    Announced b.sent := by
  obtain ⟨⟨s, hmem, hcomplete⟩, hall⟩ := hs
  refine h.live ⟨s.status, mem_map_of_mem hmem, hcomplete⟩ ?_
  rw [h.incomplete, countP_eq_zero]
  intro t ht
  obtain ⟨u, hu, rfl⟩ := mem_map.mp ht
  rcases hall u hu with h | h
  · simp [Status.waiting, Slot.status, h]
  · simp [Status.waiting, Slot.status, h]

/-- The change leaves the books' states and does not resync the venue. -/
structure Keeps (b c : ItchL2Bridge β) : Prop where
  statuses : c.statuses = b.statuses
  incomplete : c.incomplete = b.incomplete
  sink : c.sink = b.sink
  sent : ∃ more, c.sent = b.sent ++ more ∧ ∀ e ∈ more, e.venueResync = false

namespace Keeps

theorem refl (b : ItchL2Bridge β) : Keeps b b :=
  ⟨rfl, rfl, rfl, [], (append_nil _).symm, fun _ h => absurd h not_mem_nil⟩

theorem trans {b c d : ItchL2Bridge β} (h : Keeps b c) (k : Keeps c d) : Keeps b d := by
  obtain ⟨more, hmore, hquiet⟩ := h.sent
  obtain ⟨rest, hrest, hquiet'⟩ := k.sent
  refine ⟨k.statuses.trans h.statuses, k.incomplete.trans h.incomplete, k.sink.trans h.sink,
    more ++ rest, ?_, ?_⟩
  · rw [hrest, hmore, append_assoc]
  · intro e he
    exact (mem_append.mp he).elim (hquiet e) (hquiet' e)

theorem counted {b c : ItchL2Bridge β} (h : Keeps b c) (hb : b.Counted) : c.Counted := by
  obtain ⟨more, hmore, hquiet⟩ := h.sent
  refine ⟨?_, ?_, ?_, ?_, ?_⟩
  · rw [h.sink]
    exact hb.room
  · rw [h.incomplete, h.statuses]
    exact hb.incomplete
  · rw [h.statuses]
    exact hb.valid
  · rw [h.statuses]
    exact hb.inService
  · rw [h.statuses, h.incomplete, hmore]
    exact fun hsome hzero => (hb.live hsome hzero).append hquiet

end Keeps

/-! ## What keeps the states -/

variable (b : ItchL2Bridge β)

theorem statuses_put {b : ItchL2Bridge β} {i : Nat} (s : Slot β) :
    (b.put i s).statuses = b.statuses.set i s.status := by
  exact map_set

theorem keeps_put {b : ItchL2Bridge β} {i : Nat} {s t : Slot β} (hs : b.slots[i]? = some s)
    (h : t.status = s.status) : Keeps b (b.put i t) := by
  refine ⟨?_, rfl, rfl, (Keeps.refl b).sent⟩
  rw [statuses_put, h]
  apply ext_getElem?
  intro j
  rw [getElem?_set]
  split
  case isFalse => rfl
  case isTrue hj =>
    rw [← hj]
    unfold statuses
    rw [getElem?_map, hs]
    split_ifs with hlen
    · rfl
    · rw [length_map] at hlen
      exact absurd (List.getElem?_eq_some_iff.mp hs).1 hlen

theorem keeps_emit (k : MsgKind) {e : Event} (he : e.venueResync = false) :
    Keeps b (b.emit k e).1 := by
  unfold emit
  dsimp only
  split
  · exact ⟨rfl, rfl, rfl, [e], rfl, fun d hd => by rw [mem_singleton.mp hd, he]⟩
  · exact ⟨rfl, rfl, rfl, (Keeps.refl b).sent⟩

theorem slots_emit (k : MsgKind) (e : Event) : (b.emit k e).1.slots = b.slots := by
  unfold emit
  dsimp only
  split <;> rfl

theorem keeps_dirty (dirty : List Nat) : Keeps b { b with dirty := dirty } :=
  ⟨rfl, rfl, rfl, (Keeps.refl b).sent⟩

theorem keeps_emitTrade (s : Slot β) (seq : Nat) (ts : Timestamp)
    (price : Price) (qty : Qty) (match_ : Nat) (aggressor : Side) (known : Bool) :
    Keeps b (b.emitTrade s seq ts price qty match_ aggressor known) :=
  keeps_emit b .trade rfl

section Book

variable [L3BookOps β]
variable {b : ItchL2Bridge β}
variable {i : Nat}
variable {s : Slot β}
variable (cfg : ItchL2BridgeConfig)

theorem retouch_keeps {s t : Slot β} {depth : Nat} {side : Side} {price : Price} {levelQty : Qty}
    (h : s.retouch depth side price levelQty = some t) : t.status = s.status ∧ t.book = s.book := by
  unfold Slot.retouch at h
  dsimp only at h
  split at h
  · cases h
  split at h
  · split at h
    · cases h
    split at h
    all_goals
      cases h
      exact ⟨rfl, rfl⟩
  · split at h
    · cases h
    cases h
    exact ⟨rfl, rfl⟩

/-- A touched slot keeps its state and its book. -/
theorem touch_eq (b : ItchL2Bridge β) (i : Nat) (s : Slot β) (side : Side) (price : Price)
    (levelQty : Qty) (seq : Nat) (ts : Timestamp) :
    ∃ t dirty, b.touch i s side price levelQty seq ts = { b.put i t with dirty := dirty } ∧
      t.status = s.status ∧ t.book = s.book := by
  unfold touch
  extract_lets started timed
  have hstatus : timed.status = s.status := by
    unfold timed started
    split <;> rfl
  have hbook : timed.book = s.book := by
    unfold timed started
    split <;> rfl
  split
  · exact ⟨timed, b.dirty, rfl, hstatus, hbook⟩
  split
  · exact ⟨timed, b.dirty, rfl, hstatus, hbook⟩
  rename_i t ht
  obtain ⟨hst, hbk⟩ := retouch_keeps ht
  split
  · exact ⟨t, b.dirty, rfl, hst.trans hstatus, hbk.trans hbook⟩
  · exact ⟨{ t with dirty := true }, _, rfl, hst.trans hstatus, hbk.trans hbook⟩

theorem keeps_touch {s t : Slot β} (hs : b.slots[i]? = some s)
    (h : t.status = s.status) (side : Side) (price : Price) (levelQty : Qty) (seq : Nat)
    (ts : Timestamp) : Keeps b (b.touch i t side price levelQty seq ts) := by
  obtain ⟨u, dirty, hu, hstatus, -⟩ := touch_eq b i t side price levelQty seq ts
  rw [hu]
  exact (keeps_put hs (hstatus.trans h)).trans (keeps_dirty _ dirty)

theorem keeps_touch_book (hs : b.slots[i]? = some s)
    (book : β) (side : Side) (price : Price) (levelQty : Qty) (seq : Nat) (ts : Timestamp) :
    Keeps b (b.touch i { s with book := book } side price levelQty seq ts) := by
  have hstatus : ({ s with book := book } : Slot β).status = s.status := rfl
  exact keeps_touch hs hstatus side price levelQty seq ts

theorem keeps_onExecute (hs : b.slots[i]? = some s)
    (seq : Nat) (ts : Timestamp) (ref : Nat) (qty : Qty) (execPrice : Price) (match_ : Nat)
    (printable : Bool) :
    Keeps b (b.onExecute i s seq ts ref qty execPrice match_ printable) := by
  unfold onExecute
  split
  · exact Keeps.refl b
  · split
    · exact (keeps_touch_book hs _ _ _ _ seq ts).trans (keeps_emitTrade _ _ _ _ _ _ _ _ _)
    · exact keeps_touch_book hs _ _ _ _ seq ts

theorem keeps_onCancel (hs : b.slots[i]? = some s)
    (seq : Nat) (ts : Timestamp) (ref : Nat) (qty : Qty) :
    Keeps b (b.onCancel i s seq ts ref qty) := by
  unfold onCancel
  split
  · exact Keeps.refl b
  · exact keeps_touch_book hs _ _ _ _ seq ts

omit [L3BookOps β] in
theorem keeps_onTrade (b : ItchL2Bridge β) (s : Slot β) (seq : Nat) (ts : Timestamp)
    (price : Price) (qty : Qty) (match_ : Nat) (side : Side) :
    Keeps b (b.onTrade s seq ts price qty match_ side) := by
  unfold onTrade
  split
  · exact keeps_emitTrade _ _ _ _ _ _ _ _ _
  · exact Keeps.refl b

omit [L3BookOps β] in
/-- The states of the slots at one index. -/
theorem Keeps.status_eq {b c : ItchL2Bridge β} (h : Keeps b c) {s t : Slot β}
    (hs : b.slots[i]? = some s) (ht : c.slots[i]? = some t) : t.status = s.status := by
  have hat : c.statuses[i]? = b.statuses[i]? := by rw [h.statuses]
  unfold ItchL2Bridge.statuses at hat
  rw [getElem?_map, getElem?_map, hs, ht] at hat
  exact Option.some.inj hat

omit [L3BookOps β] in
/-- Notices name instruments, so they resync none but their own. -/
theorem keeps_sendNoticesFrom (l : List Nat)
    (hvalid : ∀ s ∈ b.statuses, s.id.valid = true) : Keeps b (b.sendNoticesFrom l) := by
  induction l generalizing b with
  | nil => exact Keeps.refl b
  | cons i rest ih =>
    unfold sendNoticesFrom
    split
    · exact ih hvalid
    rename_i s hs
    have hid : s.id.valid = true :=
      hvalid s.status (mem_map_of_mem (mem_of_getElem? hs))
    split
    · have hemit : Keeps b (b.emitState .Resyncing kCapacityReason s.id).1 :=
        keeps_emit b .state (by simp [Event.venueResync, hid])
      dsimp only
      split
      · have hslots := slots_emit b .state (.state .Resyncing kCapacityReason s.id)
        have hput : Keeps b { (b.emitState .Resyncing kCapacityReason s.id).1.put i
                { s with notice := false } with
              notices := (b.emitState .Resyncing kCapacityReason s.id).1.notices - 1 } := by
          have hk := keeps_put (b := (b.emitState .Resyncing kCapacityReason s.id).1)
            (t := { s with notice := false }) ((congrArg (·[i]?) hslots).trans hs) rfl
          exact hemit.trans ⟨hk.statuses, hk.incomplete, hk.sink, hk.sent⟩
        refine hput.trans (ih ?_)
        rw [hput.statuses]
        exact hvalid
      · exact hemit
    · exact ih hvalid

omit [L3BookOps β] in
theorem keeps_sendNotices (hvalid : ∀ s ∈ b.statuses, s.id.valid = true) : Keeps b b.sendNotices :=
  keeps_sendNoticesFrom _ hvalid

omit [L3BookOps β] in
theorem keeps_flush (hs : b.slots[i]? = some s) : Keeps b (b.flush i s).1 := by
  unfold flush
  dsimp only
  split
  · exact keeps_put hs rfl
  have hslots := slots_emit b .book (.delta s.id s.firstSeq s.lastSeq s.prevU s.lastExchTs
    (s.collect b.cfg.depth .buy) (s.collect b.cfg.depth .sell))
  have hemit := keeps_emit b .book (e := .delta s.id s.firstSeq s.lastSeq s.prevU s.lastExchTs
    (s.collect b.cfg.depth .buy) (s.collect b.cfg.depth .sell)) rfl
  split
  · exact hemit.trans (keeps_put ((congrArg (·[i]?) hslots).trans hs) rfl)
  · exact hemit

omit [L3BookOps β] in
theorem keeps_flushFrom (l keep : List Nat) (b : ItchL2Bridge β) :
    Keeps b (b.flushFrom l keep).1 := by
  induction l generalizing b keep with
  | nil => exact Keeps.refl b
  | cons i rest ih =>
    unfold flushFrom
    split
    · exact ih keep b
    rename_i s hs
    split
    · exact ih keep b
    dsimp only
    split
    · exact (keeps_flush hs).trans (ih _ _)
    · exact (keeps_flush hs).trans (ih _ _)

omit [L3BookOps β] in
theorem keeps_endDatagram (hvalid : ∀ s ∈ b.statuses, s.id.valid = true) :
    Keeps b b.endDatagram := by
  unfold endDatagram
  split
  · exact ((keeps_sendNotices hvalid).trans (keeps_flushFrom _ _ _)).trans (keeps_dirty _ _)
  · exact (keeps_flushFrom _ _ _).trans (keeps_dirty _ _)

omit [L3BookOps β] in
theorem keeps_unlocate (b : ItchL2Bridge β) (old : Option Nat) : Keeps b (b.unlocate old) := by
  unfold unlocate
  split
  · exact Keeps.refl b
  split
  · exact Keeps.refl b
  · rename_i s hs
    have hput : Keeps b (b.put _ { s with locates := s.locates - 1 }) := keeps_put hs rfl
    exact ⟨hput.statuses, rfl, rfl, hput.sent⟩

omit [L3BookOps β] in
theorem keeps_relocate (b : ItchL2Bridge β) (idx : Option Nat) : Keeps b (b.relocate idx) := by
  unfold relocate
  split
  · exact Keeps.refl b
  split
  · exact Keeps.refl b
  · rename_i s hs
    have hput : Keeps b (b.put _ { s with locates := s.locates + 1 }) := keeps_put hs rfl
    exact ⟨hput.statuses, rfl, rfl, hput.sent⟩

omit [L3BookOps β] in
theorem keeps_setLocate (b : ItchL2Bridge β) (locate : Nat) (idx : Option Nat) :
    Keeps b (b.setLocate locate idx) := by
  unfold setLocate
  split
  · exact Keeps.refl b
  · have h := (keeps_unlocate b (b.locateSlot locate)).trans (keeps_relocate _ idx)
    exact ⟨h.statuses, h.incomplete, h.sink, h.sent⟩

/-! ## A book leaves service -/

omit [L3BookOps β] in
/-- A book left service: it is waited for no longer, and no complete book is gained. -/
theorem counted_of_out {b c : ItchL2Bridge β} (hb : b.Counted)
    (hs : b.slots[i]? = some s) (hstatuses : c.statuses = b.statuses.set i ⟨s.id, false, true⟩)
    (hincomplete : c.incomplete = b.incomplete - if s.status.waiting then 1 else 0)
    (hsent : c.sent = b.sent) (hsink : c.sink = b.sink)
    (hlast : s.status.waiting = true → b.statuses.countP Status.waiting = 1 →
      ∀ u ∈ b.slots, u.complete = false) :
    c.Counted := by
  have hat : b.statuses[i]? = some s.status := by
    unfold statuses
    rw [getElem?_map, hs]
    rfl
  obtain ⟨hlt, hget⟩ := List.getElem?_eq_some_iff.mp hat
  have hsub : ∀ u ∈ b.statuses.set i ⟨s.id, false, true⟩,
      u = ⟨s.id, false, true⟩ ∨ u ∈ b.statuses :=
    fun u hu => (mem_or_eq_of_mem_set hu).symm
  refine ⟨?_, ?_, ?_, ?_, ?_⟩
  · rw [hsink]
    exact hb.room
  · rw [hincomplete, hstatuses, hb.incomplete, countP_set hlt, hget]
    rfl
  · rw [hstatuses]
    intro u hu
    rcases hsub u hu with rfl | hu
    · exact hb.valid s.status (mem_of_getElem? hat)
    · exact hb.valid u hu
  · rw [hstatuses]
    intro u hu hc
    rcases hsub u hu with rfl | hu
    · cases hc
    · exact hb.inService u hu hc
  rw [hstatuses, hincomplete, hsent]
  rintro ⟨u, hu, hc⟩ hzero
  rcases hsub u hu with rfl | hu
  · cases hc
  by_cases hnone : b.incomplete = 0
  · exact hb.live ⟨u, hu, hc⟩ hnone
  -- the last book waited for: then none is complete
  have hwait : s.status.waiting = true := by
    by_contra hnot
    rw [if_neg hnot] at hzero
    exact hnone hzero
  rw [if_pos hwait] at hzero
  have hone : b.statuses.countP Status.waiting = 1 := by
    rw [← hb.incomplete]
    omega
  obtain ⟨v, hv, rfl⟩ := mem_map.mp hu
  exact absurd (hc.symm.trans (hlast hwait hone v hv)) (by decide)

/-- A refusal of an order of slot `t`, which is slot `s` with its book moved on. -/
theorem counted_refused (hb : b.Counted) {s t : Slot β}
    (hs : b.slots[i]? = some s) (ht : t.status = s.status) (hin : s.full = false) (e : L3Error)
    (hlast : e.capacity = true → s.complete = false → b.statuses.countP Status.waiting = 1 →
      ∀ u ∈ b.slots, u.complete = false) :
    (b.refused i t e).Counted := by
  have hcomplete : t.complete = s.complete := congrArg Status.complete ht
  have hid : t.id = s.id := congrArg Status.id ht
  unfold refused
  by_cases hcap : e.capacity = false
  · rw [if_pos hcap]
    exact (keeps_put hs ht).counted hb
  rw [if_neg hcap]
  by_cases hc : s.complete = true
  · rw [if_pos (hcomplete.trans hc)]
    have hwait : s.status.waiting = false := by simp [Status.waiting, Slot.status, hc]
    have hnoticed : Counted
        { b.put i { t.emptied with full := true, complete := false, notice := true } with
          notices := b.notices + 1 } := by
      refine counted_of_out hb hs ?_ ?_ rfl rfl ?_
      · refine (statuses_put (b := b) (i := i) _).trans ?_
        rw [← hid]
        rfl
      · rw [hwait]
        rfl
      · intro hyes
        simp [hwait] at hyes
    exact (keeps_sendNotices hnoticed.valid).counted hnoticed
  · have hc' : s.complete = false := Bool.eq_false_iff.mpr hc
    have hwait : s.status.waiting = true := by simp [Status.waiting, Slot.status, hc', hin]
    rw [if_neg (by rw [hcomplete]; exact hc)]
    refine counted_of_out hb hs ?_ ?_ rfl rfl ?_
    · refine (statuses_put (b := b) (i := i) _).trans ?_
      rw [← hid, ← hc', ← hcomplete]
      rfl
    · rw [hwait]
      rfl
    · exact fun _ hone => hlast (Bool.of_not_eq_false hcap) hc' hone

/-- The slot's book refuses, for capacity, the order the message adds. -/
def outgrown (s : Slot β) : Body → Bool
  | .addOrder ref (some side) shares price =>
    (L3BookOps.add s.book ref side (price4ToPrice price) (sharesToQty shares)).2.1.capacity
  | .replace oldRef newRef shares price =>
    match L3BookOps.find s.book oldRef with
    | none => false
    | some (side, _) =>
      (L3BookOps.add (L3BookOps.cancel s.book oldRef 0).1 newRef side (price4ToPrice price)
        (sharesToQty shares)).2.1.capacity
  | _ => false

/-- A message that takes the last book waited for out of service once another is
complete. -/
def strands (b : ItchL2Bridge β) : Op → Bool
  | .onItchMessage _ m =>
    match (b.locateSlot m.locate).bind fun i => b.slots[i]? with
    | none => false
    | some s =>
      s.status.waiting && decide (b.statuses.countP Status.waiting = 1) && outgrown s m.body &&
        b.slots.any Slot.complete
  | _ => false

/-- No call of the run does. -/
def neverStrands (b : ItchL2Bridge β) : List Op → Bool
  | [] => true
  | op :: rest => !b.strands op && (b.step op).neverStrands rest

theorem counted_onAdd (hb : b.Counted) {s t : Slot β}
    (hs : b.slots[i]? = some s) (ht : t.status = s.status) (hin : s.full = false) (seq : Nat)
    (ts : Timestamp) (ref : Nat) (side : Side) (price : Price) (qty : Qty)
    (hlast : (L3BookOps.add t.book ref side price qty).2.1.capacity = true →
      s.complete = false → b.statuses.countP Status.waiting = 1 →
      ∀ u ∈ b.slots, u.complete = false) :
    (b.onAdd i t seq ts ref side price qty).Counted := by
  have hstatus : ({ t with book := (L3BookOps.add t.book ref side price qty).1 } :
      Slot β).status = s.status := ht
  unfold onAdd
  dsimp only
  split
  · exact counted_refused hb hs hstatus hin _ hlast
  · exact (keeps_touch hs hstatus _ _ _ _ _).counted hb

omit [L3BookOps β] in
/-- No slot was complete before a change that keeps the states, so none is after. -/
theorem Keeps.none_complete {b c : ItchL2Bridge β} (h : Keeps b c)
    (hnone : ∀ u ∈ b.slots, u.complete = false) : ∀ u ∈ c.slots, u.complete = false := by
  intro u hu
  have hmem : u.status ∈ b.statuses := by
    rw [← h.statuses]
    exact mem_map_of_mem hu
  obtain ⟨v, hv, hstatus⟩ := mem_map.mp hmem
  have hcomplete : v.complete = u.complete := congrArg Status.complete hstatus
  rw [← hcomplete]
  exact hnone v hv

section

variable (hb : b.Counted) (hs : b.slots[i]? = some s) (hin : s.full = false) (seq : Nat)
variable (ts : Timestamp)
include hb hs hin seq ts

theorem counted_onReplace
    (oldRef newRef shares price : Nat)
    (hlast : outgrown s (.replace oldRef newRef shares price) = true → s.complete = false →
      b.statuses.countP Status.waiting = 1 → ∀ u ∈ b.slots, u.complete = false) :
    (b.onReplace i s seq ts oldRef newRef (price4ToPrice price) (sharesToQty shares)).Counted := by
  unfold onReplace
  cases hfind : L3BookOps.find s.book oldRef with
  | none => exact hb
  | some found =>
    obtain ⟨side, before⟩ := found
    dsimp only
    obtain ⟨u, dirty, hu, -, hbook⟩ := touch_eq b i
      { s with book := (L3BookOps.cancel s.book oldRef 0).1 } side before
      (L3BookOps.cancel s.book oldRef 0).2 seq ts
    have hkeep := keeps_touch_book hs (L3BookOps.cancel s.book oldRef 0).1 side before
      (L3BookOps.cancel s.book oldRef 0).2 seq ts
    rw [hu] at hkeep ⊢
    have hslot : ({ b.put i u with dirty := dirty } : ItchL2Bridge β).slots[i]? = some u :=
      getElem?_set_self (List.getElem?_eq_some_iff.mp hs).1
    rw [hslot]
    have hstatus := hkeep.status_eq hs hslot
    refine counted_onAdd (hkeep.counted hb) hslot rfl ?_ seq ts newRef side _ _ ?_
    · exact (congrArg Status.full hstatus).trans hin
    intro hcap hcomplete hone
    refine hkeep.none_complete (hlast ?_ ?_ ?_)
    · simp only [outgrown, hfind]
      rw [← hcap, hbook]
    · exact (congrArg Status.complete hstatus).symm.trans hcomplete
    · rw [← hkeep.statuses]
      exact hone

theorem counted_decodeInto (body : Body)
    (hlast : outgrown s body = true → s.complete = false →
      b.statuses.countP Status.waiting = 1 → ∀ u ∈ b.slots, u.complete = false) :
    (b.decodeInto i s seq ts body).Counted := by
  unfold decodeInto
  split
  case h_1 => exact counted_onAdd hb hs rfl hin seq ts _ _ _ _ hlast
  case h_2 => exact (keeps_onExecute hs _ _ _ _ _ _ _).counted hb
  case h_3 => exact (keeps_onExecute hs _ _ _ _ _ _ _).counted hb
  case h_4 =>
    split
    · exact hb
    · exact (keeps_onCancel hs _ _ _ _).counted hb
  case h_5 => exact (keeps_onCancel hs _ _ _ _).counted hb
  case h_6 => exact counted_onReplace hb hs hin seq ts _ _ _ _ hlast
  case h_7 => exact (keeps_onTrade b s _ _ _ _ _ _).counted hb
  case h_8 =>
    split
    · exact hb
    · exact (keeps_onTrade b s _ _ _ _ _ _).counted hb
  case h_9 => exact hb

end

theorem counted_onItchMessage (hb : b.Counted) (seq : Nat) (m : ItchMsg)
    (hno : b.strands (.onItchMessage seq m) = false) : (b.onItchMessage seq m).Counted := by
  unfold onItchMessage
  split
  · split
    · exact (keeps_setLocate b _ _).counted hb
    rename_i id _
    have hmap : Keeps b { b with locate := Function.update b.locate m.locate id } :=
      ⟨rfl, rfl, rfl, (Keeps.refl b).sent⟩
    exact (hmap.trans (keeps_setLocate _ _ _)).counted hb
  · rename_i code _
    have hset : Keeps b { b with systemEvent := code } := ⟨rfl, rfl, rfl, (Keeps.refl b).sent⟩
    exact hset.counted hb
  split
  · exact hb
  rename_i i hi
  split
  · exact hb
  rename_i s hs
  split_ifs with hout
  · exact hb
  have hin : s.full = false := Bool.eq_false_iff.mpr fun h => hout (.inl h)
  refine counted_decodeInto hb hs hin seq m.ts m.body ?_
  intro hrefused hincomplete hone u hu
  by_contra hcomplete
  have hany : b.slots.any Slot.complete = true :=
    any_eq_true.mpr ⟨u, hu, Bool.of_not_eq_false hcomplete⟩
  have hwait : s.status.waiting = true := by
    simp [Status.waiting, Slot.status, hincomplete, hin]
  unfold strands at hno
  simp only [hi, Option.bind_some, hs, hwait, hone, hrefused, hany] at hno
  cases hno

/-! ## A book completes -/

theorem keeps_emitSnapshot (hs : b.slots[i]? = some s) : Keeps b (b.emitSnapshot i s).1 := by
  unfold emitSnapshot
  extract_lets top r
  have hslots : r.1.slots[i]? = some s := by
    rw [slots_emit]
    exact hs
  have hemit : Keeps b r.1 := keeps_emit b .book rfl
  split
  · exact hemit.trans (keeps_put hslots rfl)
  · exact hemit.trans (keeps_put hslots rfl)

/-- A book that completes is waited for no longer, and the last one announces Live. -/
theorem counted_markSlot (hb : b.Counted) (hs : b.slots[i]? = some s) :
    (b.markSlot i s).1.Counted := by
  unfold markSlot
  split_ifs with hwaits
  · exact hb
  have hkeep := keeps_emitSnapshot (b := b) hs
  dsimp only
  split
  · split
    · exact hkeep.counted hb
    rename_i t ht
    generalize (b.emitSnapshot i s).1 = c at hkeep ht
    have hc := hkeep.counted hb
    have hstatus := hkeep.status_eq hs ht
    have hwait : t.status.waiting = true := by
      rw [hstatus]
      rw [not_or] at hwaits
      simp [Status.waiting, Slot.status, hwaits.1, hwaits.2]
    have hfull : t.full = false := by
      unfold Status.waiting Slot.status at hwait
      simp only [Bool.and_eq_true, Bool.not_eq_true'] at hwait
      exact hwait.2
    have hat : c.statuses[i]? = some t.status := by
      unfold statuses
      rw [getElem?_map, ht]
      rfl
    obtain ⟨hlt, hget⟩ := List.getElem?_eq_some_iff.mp hat
    have hstatuses : (c.put i { t with complete := true }).statuses =
        c.statuses.set i ⟨t.id, true, t.full⟩ := statuses_put _
    have hsub : ∀ u ∈ c.statuses.set i ⟨t.id, true, t.full⟩,
        u = ⟨t.id, true, t.full⟩ ∨ u ∈ c.statuses :=
      fun u hu => (mem_or_eq_of_mem_set hu).symm
    have hcount : c.incomplete - 1 =
        (c.statuses.set i ⟨t.id, true, t.full⟩).countP Status.waiting := by
      rw [countP_set hlt, hget, hwait, hc.incomplete]
      rfl
    have hvalid : ∀ u ∈ c.statuses.set i ⟨t.id, true, t.full⟩, u.id.valid = true := by
      intro u hu
      rcases hsub u hu with rfl | hu
      · exact hc.valid t.status (mem_of_getElem? hat)
      · exact hc.valid u hu
    have hservice : ∀ u ∈ c.statuses.set i ⟨t.id, true, t.full⟩, u.complete = true →
        u.full = false := by
      intro u hu hcomplete
      rcases hsub u hu with rfl | hu
      · exact hfull
      · exact hc.inService u hu hcomplete
    rw [← hstatuses] at hcount hvalid hservice
    split_ifs with hmore
    · -- the last one: Live is announced
      have hroom : c.sink .state c.reservations = true := hc.room _
      unfold emitState emit
      dsimp only [put]
      rw [if_pos hroom]
      exact ⟨hc.room, hcount, hvalid, hservice, fun _ _ => announced_live _ _ _⟩
    · exact ⟨hc.room, hcount, hvalid, hservice, fun _ hzero => absurd hzero hmore⟩
  · exact hkeep.counted hb

theorem counted_markComplete (hb : b.Counted) (id : InstrumentId) :
    (b.markComplete id).1.Counted := by
  unfold markComplete
  split
  · exact hb
  split
  · exact hb
  · rename_i s hs
    exact counted_markSlot hb hs

theorem counted_markAllFrom (l : List Nat) (ok : Bool) (hb : b.Counted) :
    (b.markAllFrom l ok).1.Counted := by
  induction l generalizing b ok with
  | nil => exact hb
  | cons i rest ih =>
    unfold markAllFrom
    split
    · exact ih ok hb
    · split
      · exact ih ok hb
      · exact ih _ (counted_markComplete hb _)

theorem counted_markIncomplete (hb : b.Counted) (reason : Int) :
    (b.markIncomplete reason).Counted := by
  have hstatuses : (b.slots.map fun s =>
      ({ s.emptied with complete := false, prevU := 0, full := false, notice := false } :
        Slot β)).map Slot.status = b.slots.map fun s => ⟨s.id, false, false⟩ := by
    rw [map_map]
    rfl
  have hmem : ∀ u ∈ b.slots.map fun s => (⟨s.id, false, false⟩ : Status),
      u.complete = false ∧ u.waiting = true ∧ u.id.valid = true := by
    intro u hu
    obtain ⟨s, hs, rfl⟩ := mem_map.mp hu
    exact ⟨rfl, rfl, hb.valid s.status (mem_map_of_mem hs)⟩
  unfold markIncomplete emitState emit
  rw [if_pos (hb.room _)]
  refine ⟨hb.room, ?_, ?_, ?_, ?_⟩
  · unfold statuses
    rw [hstatuses, countP_eq_length.mpr fun u hu => (hmem u hu).2.1, length_map]
  · unfold statuses
    rw [hstatuses]
    exact fun u hu => (hmem u hu).2.2
  · unfold statuses
    rw [hstatuses]
    exact fun u hu hc => absurd (hc.symm.trans (hmem u hu).1) (by decide)
  · unfold statuses
    rw [hstatuses]
    rintro ⟨u, hu, hc⟩
    exact absurd (hc.symm.trans (hmem u hu).1) (by decide)

/-! ## Runs -/

theorem counted_step (hb : b.Counted) (op : Op) (hno : b.strands op = false) :
    (b.step op).Counted := by
  cases op with
  | onItchMessage seq m => exact counted_onItchMessage hb seq m hno
  | endDatagram => exact (keeps_endDatagram hb.valid).counted hb
  | markComplete id => exact counted_markComplete hb id
  | markAllComplete => exact counted_markAllFrom _ true hb
  | markIncomplete reason => exact counted_markIncomplete hb reason

/-- Before the first call no book is complete. -/
structure Fresh (b : ItchL2Bridge β) : Prop where
  room : ∀ n, b.sink .state n = true
  incomplete : b.incomplete = b.statuses.length
  waiting : ∀ s ∈ b.statuses, s.id.valid = true ∧ s.complete = false ∧ s.full = false

omit [L3BookOps β] in
theorem Fresh.counted (h : b.Fresh) : b.Counted := by
  refine ⟨h.room, ?_, fun s hs => (h.waiting s hs).1, ?_, ?_⟩
  · rw [h.incomplete, countP_eq_length.mpr]
    intro s hs
    obtain ⟨-, hcomplete, hfull⟩ := h.waiting s hs
    simp [Status.waiting, hcomplete, hfull]
  · intro s hs hc
    exact absurd (hc.symm.trans (h.waiting s hs).2.1) (by decide)
  · rintro ⟨s, hs, hc⟩
    exact absurd (hc.symm.trans (h.waiting s hs).2.1) (by decide)

omit [L3BookOps β] in
theorem Keeps.fresh {b c : ItchL2Bridge β} (h : Keeps b c) (hb : b.Fresh) : c.Fresh := by
  refine ⟨?_, ?_, ?_⟩
  · rw [h.sink]
    exact hb.room
  · rw [h.incomplete, h.statuses]
    exact hb.incomplete
  · rw [h.statuses]
    exact hb.waiting

theorem fresh_setup (hb : b.Fresh) (call : Setup) : (b.setup call).Fresh := by
  cases call with
  | addInstrument symbol id =>
    show (b.addInstrument symbol id).1.Fresh
    unfold addInstrument
    split
    · exact hb
    split
    · exact hb
    rename_i hnew _
    have hid : id.valid = true := by
      by_contra hnot
      exact hnew (.inl hnot)
    have hstatuses : ∀ book : β,
        (b.slots ++ [({ id := id, book := book } : Slot β)]).map Slot.status =
          b.statuses ++ [⟨id, false, false⟩] := fun _ => map_append
    refine ⟨hb.room, ?_, ?_⟩
    · unfold statuses
      rw [hstatuses, length_append, hb.incomplete]
      rfl
    · unfold statuses
      rw [hstatuses]
      exact forall_mem_append.mpr ⟨hb.waiting, forall_mem_singleton.mpr ⟨hid, rfl, rfl⟩⟩
  | mapLocate locate id =>
    show (b.mapLocate locate id).1.Fresh
    unfold mapLocate
    split
    · exact hb
    · have hmap : Keeps b { b with locate := Function.update b.locate locate id } :=
        ⟨rfl, rfl, rfl, (Keeps.refl b).sent⟩
      exact (hmap.trans (keeps_setLocate _ _ _)).fresh hb
  | clearLocates =>
    have hstatuses : (b.slots.map fun s => { s with locates := 0 }).map Slot.status =
        b.statuses := map_map
    exact Keeps.fresh (c := b.clearLocates) ⟨hstatuses, rfl, rfl, (Keeps.refl b).sent⟩ hb

theorem fresh_start {sink : MsgKind → Nat → Bool}
    (hsink : ∀ n, sink .state n = true) (calls : List Setup) :
    (start cfg sink calls : ItchL2Bridge β).Fresh := by
  have hcreate : (create cfg sink : ItchL2Bridge β).Fresh :=
    ⟨hsink, rfl, fun _ h => absurd h not_mem_nil⟩
  unfold start
  generalize (create cfg sink : ItchL2Bridge β) = b at hcreate
  induction calls generalizing b with
  | nil => exact hcreate
  | cons call rest ih => exact ih _ (fresh_setup hcreate call)

theorem counted_run (ops : List Op) (hb : b.Counted)
    (hno : b.neverStrands ops = true) : (b.run ops).Counted := by
  induction ops generalizing b with
  | nil => exact hb
  | cons op rest ih =>
    unfold neverStrands at hno
    rw [Bool.and_eq_true, Bool.not_eq_true'] at hno
    exact ih (counted_step hb op hno.1) hno.2

/-- With room for state messages, and while no message strands the venue, Live has been
announced whenever a book is complete and none is waited for. -/
theorem announced_run {sink : MsgKind → Nat → Bool}
    (hsink : ∀ n, sink .state n = true) (calls : List Setup) (ops : List Op)
    (hno : (start cfg sink calls : ItchL2Bridge β).neverStrands ops = true)
    (hsettled : ((start cfg sink calls : ItchL2Bridge β).run ops).Settled) :
    Announced ((start cfg sink calls : ItchL2Bridge β).run ops).sent :=
  (counted_run ops (fresh_start cfg hsink calls).counted hno).announced hsettled

end Book

/-! ## The message that strands the venue -/

/-- Two instruments, each book with room for one order. -/
def twoBooks : List Setup :=
  [.addInstrument "" ⟨1⟩, .addInstrument "" ⟨2⟩, .mapLocate 11 ⟨1⟩, .mapLocate 12 ⟨2⟩]

def oneOrderEach : ItchL2Bridge PoolBook :=
  start { book := { maxOrders := 1 } } (fun _ _ => true) twoBooks

def addTo (locate ref : Nat) : Op :=
  .onItchMessage ref ⟨locate, 0, .addOrder ref (some .buy) 1 100⟩

/-- A refusal before the other book completes leaves the announcement to it. -/
theorem announced_run_outgrown :
    Announced (oneOrderEach.run [addTo 12 1, addTo 12 2, .endDatagram, .markAllComplete]).sent :=
  announced_run _ (fun _ => rfl) twoBooks _ (by decide) (by decide)

/-- A refusal after it finds nobody to announce Live, and `mark_all_complete` does not
either. -/
theorem not_announced_outgrown :
    let b := oneOrderEach.run
      [.markComplete ⟨1⟩, addTo 12 1, addTo 12 2, .endDatagram, .markAllComplete]
    b.Settled ∧ ¬Announced b.sent := by
  refine ⟨by decide, not_announced_of_no_live ?_⟩
  decide

end ItchL2Bridge

end FastMM.Itch
