/-
  Engine/Presence.lean --- the orders `QuotePresence` counts as resting at the venue.

  Source: `include/fastmm/core/quote_presence.hpp`; `after_oms_update`, `on_reconcile` and
  `sweep_acks` of `include/fastmm/core/engine.hpp`; `sweep_pending` of `oms.hpp`.

  An update moves the count by the difference between the order's rest after and before, so
  the count is right as long as every change of an order's rest makes an update.  The cancel
  of an order that waits for its ack makes none: it takes the order for resting, and its end
  takes one off the count that was never added.
-/
import FastMM.Oms.Accounting
import FastMM.Oms.Resting
set_option autoImplicit false

namespace FastMM

open Function List Oms Option OrderState

/-! ## The accumulator -/

structure QuotePresenceStats where
  elapsedNs : Int := 0
  twoSidedNs : Int := 0
  oneSidedNs : Int := 0
  liveBid : Nat := 0
  liveAsk : Nat := 0
  deriving DecidableEq, Repr, Inhabited

/-- `QuotePresence::Entry`. -/
structure PresenceEntry where
  s : QuotePresenceStats := {}
  lastNs : Int := 0
  started : Bool := false
  deriving DecidableEq, Repr, Inhabited

namespace PresenceEntry

variable (e : PresenceEntry)

def advance (now : Timestamp) : PresenceEntry :=
  if e.started = false then { e with started := true, lastNs := now }
  else
    let dt := now - e.lastNs
    if dt ≤ 0 then e  -- a clock that did not move adds nothing
    else
      let both : Bool := 0 < e.s.liveBid ∧ 0 < e.s.liveAsk
      let one : Bool := 0 < e.s.liveBid ∨ 0 < e.s.liveAsk
      { e with
        lastNs := now
        s := { e.s with
          elapsedNs := e.s.elapsedNs + dt
          twoSidedNs := if both then e.s.twoSidedNs + dt else e.s.twoSidedNs
          oneSidedNs := if !both && one then e.s.oneSidedNs + dt else e.s.oneSidedNs } }

/-- `live_bid` or `live_ask`. -/
def live : Side → Nat
  | .buy => e.s.liveBid
  | .sell => e.s.liveAsk

/-- An assignment to `live_bid` or `live_ask`. -/
def setLive (side : Side) (n : Nat) : PresenceEntry :=
  match side with
  | .buy => { e with s := { e.s with liveBid := n } }
  | .sell => { e with s := { e.s with liveAsk := n } }

end PresenceEntry

structure QuotePresence where
  entries : Nat → PresenceEntry := fun _ => {}

namespace QuotePresence

variable (p : QuotePresence)

def onLiveChange (inst : InstrumentId) (side : Side) (delta : Int)
    (now : Timestamp) : QuotePresence :=
  if kMaxInstruments ≤ inst.value then p
  else
    let e := (p.entries inst.value).advance now
    let e :=
      if 0 < delta then e.setLive side (e.live side + 1)
      else if 0 < e.live side then e.setLive side (e.live side - 1)
      else e
    { entries := update p.entries inst.value e }

/-- The live count of an instrument and side. -/
def live (i : Nat) (side : Side) : Nat := (p.entries i).live side

/-- The part of `after_oms_update` that keeps the presence. -/
def afterOmsUpdate (u : OmsUpdate) (now : Timestamp) : QuotePresence :=
  if u.known then
    let delta := u.order.state.resting.toInt - u.prev.resting.toInt
    if delta ≠ 0 then p.onLiveChange u.order.instrument u.order.side delta now else p
  else p

end QuotePresence

/-! ## The ack-timeout sweep -/

namespace Oms

/-- The orders `sweep_pending` finds waiting for their ack since `timeout`. -/
def stale (s : Oms) (now timeout : Int) : List Nat :=
  s.pool.liveHandles.filter fun h =>
    match s.get h with
    | some o => decide (o.state = .pendingNew ∧ o.created ≠ 0 ∧ timeout ≤ now - o.created)
    | none => false

/-- One order of the sweep, and the cancel the engine asks for. -/
def sweepOne (s : Oms) (h : Nat) : Oms :=
  if s.pool.isLive h then
    ((s.withStats fun st => { st with ackTimeouts := st.ackTimeouts + 1 }).requestCancelUnacked h).1
  else s

/-- `sweep_pending` with the callback of `sweep_acks`. -/
def sweepAcks (s : Oms) (now timeout : Int) : Oms :=
  if timeout ≤ 0 then s else (s.stale now timeout).foldl sweepOne s

end Oms

/-! ## The engine's run -/

/-- What the strategy, the quotes and the kill switch ask of the order management. -/
inductive OrderRequest where
  | submit (req : NewOrderRequest) (id : ClientOrderId) (now : Timestamp)
  | cancel (h : Nat)
  | replace (h : Nat) (newId : ClientOrderId) (px : Price) (qty : Qty) (now : Timestamp)

/-- The call of a request. -/
def OrderRequest.call : OrderRequest → Oms.Call
  | .submit req id now => .submit req id now
  | .cancel h => .requestCancel h
  | .replace h newId px qty now => .requestReplace h newId px qty now

/-- The order management, the presence kept beside it, and which slots hold an order the venue
has acknowledged, which nothing in the engine reads. -/
structure PresenceView where
  oms : Oms := {}
  presence : QuotePresence := {}
  acked : Nat → Bool := fun _ => false

namespace PresenceView

variable (v : PresenceView)

/-- The slots acknowledged after a request: a new order is not. -/
def ackedAfter : OrderRequest → Nat → Bool
  | .submit req id now =>
    match (v.oms.submit req id now).2 with
    | .ok h => update v.acked h false
    | .error _ => v.acked
  | .cancel _ => v.acked
  | .replace _ _ _ _ _ => v.acked

/-- A request. -/
def request (r : OrderRequest) : PresenceView :=
  { v with oms := v.oms.call r.call, acked := v.ackedAfter r }

/-- What the engine asks for between a handler and the end of its update. -/
abbrev React : Type := Oms → OmsUpdate → List OrderRequest

/-- The slots acknowledged after an answer: an ack, a fill and a venue's report that the order is
open acknowledge the open order they name. -/
def ackedBy (acked : Nat → Bool) (m : Oms.Msg) (u : OmsUpdate) : Nat → Bool :=
  match m.accepts, u.handle with
  | true, some h => update acked h true
  | _, _ => acked

/-- An inbound order message.  On a fill the strategy runs before `after_oms_update`. -/
def receive (m : Oms.Msg) (now : Timestamp) (react : React) : PresenceView :=
  let r := v.oms.receive m
  let heard := { v with oms := r.1, acked := ackedBy v.acked m r.2 }
  let v := (react r.1 r.2).foldl request heard
  { v with presence := v.presence.afterOmsUpdate r.2 now }

/-- The second pass of `reconcile_end`, over the handles found unseen, with its callback. -/
def endUnseen (react : React) (now : Timestamp) : PresenceView → List Nat → PresenceView
  | v, [] => v
  | v, h :: rest =>
    match v.oms.reconcileEndOne h with
    | none => endUnseen react now v rest
    | some (s', u) =>
      let v := { v with oms := s', presence := v.presence.afterOmsUpdate u now }
      endUnseen react now ((react s' u).foldl request v) rest

/-- One step of the engine. -/
inductive Op where
  | request (r : OrderRequest)
  | receive (m : Oms.Msg) (now : Timestamp) (react : React)
  | reconcileBegin (venue : VenueId) (sentWatermark : Option ClientOrderId)
  | reconcileEnd (venue : VenueId) (now : Timestamp) (react : React)
  | sweepAcks (now timeout : Int)

/-- The view after a step. -/
def step : Op → PresenceView
  | .request r => v.request r
  | .receive m now react => v.receive m now react
  | .reconcileBegin venue sentWatermark =>
    { v with oms := v.oms.reconcileBegin venue sentWatermark }
  | .reconcileEnd venue now react =>
    endUnseen react now v (v.oms.pool.liveHandles.filter fun h => v.oms.unseen venue h)
  | .sweepAcks now timeout => { v with oms := v.oms.sweepAcks now timeout }

/-- The views of the runs whose steps all meet `P`. -/
inductive Reachable (P : PresenceView → Op → Prop) : PresenceView → Prop
  | start (epoch maxSeq : Nat) : Reachable P { oms := Oms.init epoch maxSeq }
  | step {v : PresenceView} (h : Reachable P v) (op : Op) (hop : P v op) :
      Reachable P (v.step op)

/-- The orders of an instrument and side that were acknowledged and have not ended. -/
def acknowledged (i : InstrumentId) (side : Side) : Nat :=
  v.oms.total fun h o =>
    if v.acked h = true ∧ o.state.isTerminal = false ∧ o.instrument = i ∧ o.side = side then 1
    else 0

/-- An ack-timeout sweep finds no order that waits for its ack. -/
def NoneStale : Op → Prop
  | .sweepAcks now timeout => timeout ≤ 0 ∨ v.oms.stale now timeout = []
  | _ => True

end PresenceView

/-! ## The count -/

namespace QuotePresence

variable {p : QuotePresence} {u : OmsUpdate} {now : Timestamp}

theorem live_advance (e : PresenceEntry) (now : Timestamp) (side : Side) :
    (e.advance now).live side = e.live side := by
  unfold PresenceEntry.advance
  dsimp only
  split
  · cases side <;> rfl
  · split
    · rfl
    · cases side <;> rfl

theorem live_setLive (e : PresenceEntry) (side side' : Side) (n : Nat) :
    (e.setLive side n).live side' = if side' = side then n else e.live side' := by
  cases side <;> cases side' <;> rfl

/-- A change moves the count of its instrument and side by one, and no other. -/
theorem live_onLiveChange {inst : InstrumentId} (hinst : inst.value < kMaxInstruments)
    (side : Side) (delta : Int) (now : Timestamp) (i : Nat) (side' : Side) :
    (p.onLiveChange inst side delta now).live i side' =
      if i = inst.value ∧ side' = side then
        if 0 < delta then p.live i side' + 1 else p.live i side' - 1
      else p.live i side' := by
  unfold onLiveChange live
  rw [if_neg (not_le.mpr hinst)]
  dsimp only
  by_cases hi : i = inst.value
  · subst hi
    rw [update_self]
    by_cases hside : side' = side
    · subst hside
      have hat : inst.value = inst.value ∧ side' = side' := ⟨rfl, rfl⟩
      rw [if_pos hat]
      by_cases hup : 0 < delta
      · rw [if_pos hup, if_pos hup, live_setLive, if_pos rfl, live_advance]
      rw [if_neg hup, if_neg hup, live_advance]
      by_cases hsome : 0 < (p.entries inst.value).live side'
      · rw [if_pos hsome, live_setLive, if_pos rfl]
      · rw [if_neg hsome, live_advance]
        omega
    · have hnot : ¬ (inst.value = inst.value ∧ side' = side) := fun h => hside h.2
      rw [if_neg hnot]
      split
      · rw [live_setLive, if_neg hside, live_advance]
      · split
        · rw [live_setLive, if_neg hside, live_advance]
        · rw [live_advance]
  · have hnot : ¬ (i = inst.value ∧ side' = side) := fun h => hi h.1
    rw [if_neg hnot, update_of_ne hi]

/-- One for an order of an instrument and side that rests. -/
def restOf (i : Nat) (side : Side) (inst : InstrumentId) (side' : Side) (rests : Bool) : Nat :=
  if i = inst.value ∧ side = side' then rests.toNat else 0

/-- An update moves the count by what it says of the order's rest, where the count has the order
that rested. -/
theorem live_afterOmsUpdate (hknown : u.known = true)
    (hinst : u.order.instrument.value < kMaxInstruments)
    (hhad : u.prev.resting = true → 0 < p.live u.order.instrument.value u.order.side)
    (i : Nat) (side : Side) :
    (p.afterOmsUpdate u now).live i side +
        restOf i side u.order.instrument u.order.side u.prev.resting =
      p.live i side + restOf i side u.order.instrument u.order.side u.order.state.resting := by
  unfold afterOmsUpdate restOf
  rw [if_pos hknown]
  cases hafter : u.order.state.resting with
  | true =>
    cases hbefore : u.prev.resting with
    | true => rfl
    | false =>
      rw [if_pos (by decide), live_onLiveChange hinst]
      by_cases hat : i = u.order.instrument.value ∧ side = u.order.side
      · rw [if_pos hat, if_pos hat, if_pos hat, if_pos (by decide)]
        rfl
      · rw [if_neg hat, if_neg hat, if_neg hat]
  | false =>
    cases hbefore : u.prev.resting with
    | true =>
      rw [if_pos (by decide), live_onLiveChange hinst]
      by_cases hat : i = u.order.instrument.value ∧ side = u.order.side
      · have hpos := hhad hbefore
        rw [if_pos hat, if_pos hat, if_pos hat, if_neg (by decide)]
        obtain ⟨rfl, rfl⟩ := hat
        show p.live u.order.instrument.value u.order.side - 1 + 1 = _ + 0
        omega
      · rw [if_neg hat, if_neg hat, if_neg hat]
    | false => rfl

end QuotePresence

/-! ## The invariant -/

namespace PresenceView

open QuotePresence (restOf)

variable {v : PresenceView} {s' : Oms} {h : Nat} {o : Order}
variable (s : Oms)

/-- One for an order of an instrument and side that rests. -/
def restsAt (i : Nat) (side : Side) (_ : Nat) (o : Order) : Nat :=
  restOf i side o.instrument o.side o.state.resting

/-- The live orders are open, of instruments the table can hold, and acknowledged once they have
left their first state; and the counts are the numbers of those that rest. -/
structure Counted (v : PresenceView) : Prop where
  orders : ∀ h o, v.oms.get h = some o → o.state.isTerminal = false ∧
    o.instrument.value < kMaxInstruments ∧ (v.acked h = true ↔ o.state ≠ .pendingNew)
  records : Oms.RecordsEnded v.oms.recentlyTerminal
  count : ∀ i side, v.presence.live i side = v.oms.total (restsAt i side)

theorem Counted.start (epoch maxSeq : Nat) : Counted { oms := Oms.init epoch maxSeq } := by
  have hget : ∀ k, (Oms.init epoch maxSeq).get k = none := fun _ => rfl
  refine ⟨fun h o ho => ?_, fun k r hk => ?_, fun i side => ?_⟩
  · simp [hget] at ho
  · obtain ⟨⟨-, hlt⟩, -⟩ := RingBuffer.atPos_eq_some_iff.mp hk
    exact absurd hlt (Nat.not_lt_zero _)
  · have hlive : ({} : QuotePresence).live i side = 0 := by cases side <;> rfl
    refine hlive.trans (Finset.sum_eq_zero fun k _ => ?_).symm
    exact term_none (hget k) _

/-- What the count reads of an order. -/
def standing (o : Order) : Bool × Bool × InstrumentId × Side :=
  (o.state.isTerminal, decide (o.state = .pendingNew), o.instrument, o.side)

theorem restsAt_congr {o o' : Order} (hsame : standing o' = standing o) (i : Nat) (side : Side)
    (h : Nat) : restsAt i side h o' = restsAt i side h o := by
  simp only [standing, Prod.mk.injEq, decide_eq_decide] at hsame
  obtain ⟨hterm, hnew, hinst, hside⟩ := hsame
  unfold restsAt resting
  rw [hterm, hinst, hside, decide_not, decide_not, decide_eq_decide.mpr hnew]

/-- Orders that stand as they did are counted as they were. -/
theorem Counted.of_standing (hv : Counted v)
    (hget : ∀ k, (s'.get k).map standing = (v.oms.get k).map standing)
    (hrec : Oms.RecordsEnded s'.recentlyTerminal) : Counted { v with oms := s' } := by
  have hfound : ∀ k o', s'.get k = some o' →
      ∃ o, v.oms.get k = some o ∧ standing o' = standing o := by
    intro k o' ho'
    have hk := hget k
    rw [ho', map_some] at hk
    obtain ⟨o, ho, hstand⟩ := map_eq_some_iff.mp hk.symm
    exact ⟨o, ho, hstand.symm⟩
  refine ⟨fun k o' ho' => ?_, hrec, fun i side => ?_⟩
  · obtain ⟨o, ho, hsame⟩ := hfound k o' ho'
    obtain ⟨hopen, hinst, hacked⟩ := hv.orders k o ho
    simp only [standing, Prod.mk.injEq, decide_eq_decide] at hsame
    obtain ⟨hterm, hnew, hsameInst, -⟩ := hsame
    refine ⟨hterm.trans hopen, ?_, hacked.trans (not_congr hnew.symm)⟩
    rw [hsameInst]
    exact hinst
  · rw [hv.count]
    refine Finset.sum_congr rfl fun k _ => ?_
    cases ho' : s'.get k with
    | none =>
      have hnone := hget k
      rw [ho', map_none] at hnone
      rw [term_none ho', term_none (map_eq_none_iff.mp hnone.symm)]
    | some o' =>
      obtain ⟨o, ho, hsame⟩ := hfound k o' ho'
      rw [term_some ho', term_some ho, restsAt_congr hsame]

/-- An answer about an open order keeps the counts, with the acknowledgements it brings. -/
theorem Counted.about (hv : Counted v) {a : Bool} {r : Oms × OmsUpdate}
    (hab : Oms.About v.oms a r h o) {acked : Nat → Bool}
    (hothers : ∀ k, k ≠ h → acked k = v.acked k)
    (hacked : r.1.get h = some r.2.order → (acked h = true ↔ r.2.order.state ≠ .pendingNew))
    (now : Timestamp) :
    Counted {
      oms := r.1
      presence := v.presence.afterOmsUpdate r.2 now
      acked := acked } := by
  obtain ⟨hopen, hinst, -⟩ := hv.orders h o hab.found
  have hident : r.2.order.instrument = o.instrument ∧ r.2.order.side = o.side := by
    have hid := hab.identity
    simp only [Order.identity, Prod.mk.injEq] at hid
    exact ⟨hid.1, hid.2.1⟩
  refine ⟨fun k x hx => ?_, hab.records, fun i side => ?_⟩
  · by_cases hk : k = h
    · subst hk
      have hx : r.1.get k = some x := hx
      rcases hab.outcome with ⟨hnone, -, -⟩ | ⟨hget, -, hstill, -⟩
      · simp [hnone] at hx
      obtain rfl := Option.some.inj (hget.symm.trans hx)
      refine ⟨hstill hopen, ?_, hacked hget⟩
      rw [hident.1]
      exact hinst
    · have hx : r.1.get k = some x := hx
      rw [hab.others k hk] at hx
      obtain ⟨hopen', hinst', hwas'⟩ := hv.orders k x hx
      refine ⟨hopen', hinst', ?_⟩
      show acked k = true ↔ _
      rw [hothers k hk]
      exact hwas'
  · have hlt : h < kMaxOpenOrders := Pool.lt_of_live hab.found
    have hmoved := total_add (restsAt i side) (restsAt i side) hlt hab.others
      fun _ _ _ _ => rfl
    have hbefore : v.oms.term (restsAt i side) h =
        restOf i side r.2.order.instrument r.2.order.side r.2.prev.resting := by
      rw [term_some hab.found, hab.prev, hident.1, hident.2]
      rfl
    have hafter : r.1.term (restsAt i side) h =
        restOf i side r.2.order.instrument r.2.order.side r.2.order.state.resting := by
      rcases hab.outcome with ⟨hnone, -, hended⟩ | ⟨hget, -, -, -⟩
      · rw [term_none hnone, resting_of_isTerminal hended]
        unfold restOf
        split <;> rfl
      · rw [term_some hget]
        rfl
    have hwithin : r.2.order.instrument.value < kMaxInstruments := hident.1.symm ▸ hinst
    have hlive := @QuotePresence.live_afterOmsUpdate v.presence r.2 now hab.known hwithin ?_ i side
    · show (v.presence.afterOmsUpdate r.2 now).live i side = r.1.total (restsAt i side)
      rw [hbefore, hafter, ← hv.count] at hmoved
      omega
    intro hrest
    rw [hident.1, hident.2, hv.count]
    refine one_le_total hab.found ?_
    rw [hab.prev] at hrest
    unfold restsAt restOf
    rw [if_pos ⟨rfl, rfl⟩, hrest]
    rfl

/-! ## The steps -/

/-- Only the acknowledgements of live orders matter. -/
theorem Counted.of_acked (hv : Counted v) {acked : Nat → Bool}
    (hsame : ∀ h o, v.oms.get h = some o → acked h = v.acked h) :
    Counted { v with acked := acked } := by
  refine ⟨fun h o ho => ?_, hv.records, hv.count⟩
  obtain ⟨hopen, hinst, hacked⟩ := hv.orders h o ho
  refine ⟨hopen, hinst, ?_⟩
  show acked h = true ↔ _
  rw [hsame h o ho]
  exact hacked

/-- Every order stands as it did. -/
def Stand (s s' : Oms) : Prop :=
  (∀ k, (s'.get k).map standing = (s.get k).map standing) ∧ s'.recentlyTerminal = s.recentlyTerminal

theorem Stand.refl : Stand s s := ⟨fun _ => rfl, rfl⟩

theorem Stand.setOrder {s : Oms} (ho : s.get h = some o) {o' : Order}
    (hsame : standing o' = standing o) : Stand s (s.setOrder h o') := by
  refine ⟨fun k => ?_, rfl⟩
  rw [get_setOrder ho]
  split_ifs with hk
  · rw [hk, ho, map_some, map_some, hsame]
  · rfl

/-- A working order whose cancel or replace is asked for. -/
theorem standing_of_isWorking (hwork : o.isWorking = true) {st : OrderState}
    (hst : st = .pendingCancel ∨ st = .pendingReplace) :
    standing { o with state := st } = standing o := by
  unfold standing
  have hopen := not_isTerminal_of_isWorking hwork
  have hnew := (resting_eq_true_iff.mp (resting_of_isWorking hwork)).1
  rw [hopen, decide_eq_false hnew]
  rcases hst with rfl | rfl
  · rfl
  · rfl

theorem stand_requestCancel (h : Nat) : Stand s (s.requestCancel h).1 := by
  unfold requestCancel
  cases ho : s.get h with
  | none => exact Stand.refl s
  | some o =>
    dsimp only
    split_ifs with hwork
    · exact Stand.setOrder ho (standing_of_isWorking hwork (.inl rfl))
    · exact Stand.refl s

theorem stand_requestReplace (h : Nat) (newId : ClientOrderId) (px : Price) (qty : Qty)
    (now : Timestamp) : Stand s (s.requestReplace h newId px qty now).1 := by
  rcases requestReplace_cases s h newId px qty now with
    ⟨o, -, ho, hwork, ids, -, hs'⟩ | ⟨-, hs'⟩
  · have hsame : standing (pendingOrder o newId px qty) = standing o :=
      standing_of_isWorking hwork (.inr rfl)
    rw [hs']
    exact ⟨(Stand.setOrder ho hsame).1, rfl⟩
  · rw [hs']
    exact Stand.refl s

theorem stand_clearSeen (venue : VenueId) (s : Oms) (h : Nat) : Stand s (clearSeen venue s h) := by
  unfold clearSeen
  cases ho : s.get h with
  | none => exact Stand.refl s
  | some o =>
    dsimp only
    split
    · exact Stand.setOrder ho rfl
    · exact Stand.refl s

theorem stand_reconcileBegin (venue : VenueId) (wm : Option ClientOrderId) :
    Stand s (s.reconcileBegin venue wm) := by
  have hfold : ∀ (hs : List Nat) (s' : Oms), Stand s s' →
      Stand s (hs.foldl (clearSeen venue) s') := by
    intro hs
    induction hs with
    | nil => exact fun _ h => h
    | cons h rest ih =>
      intro s' hs'
      have hone := stand_clearSeen venue s' h
      exact ih _ ⟨fun k => (hone.1 k).trans (hs'.1 k), hone.2.trans hs'.2⟩
  exact hfold _ _ ⟨fun _ => rfl, rfl⟩

theorem Counted.stand (hv : Counted v) (hs : Stand v.oms s') : Counted { v with oms := s' } :=
  hv.of_standing hs.1 (hs.2 ▸ hv.records)

theorem Counted.submit (hv : Counted v) (req : NewOrderRequest) (id : ClientOrderId)
    (now : Timestamp) : Counted (v.request (.submit req id now)) := by
  show Counted { v with
    oms := (v.oms.submit req id now).1
    acked := match (v.oms.submit req id now).2 with
      | .ok h => update v.acked h false
      | .error _ => v.acked }
  rcases submit_cases v.oms req id now with ⟨h, hok, hinst, -, pool, ids, halloc, -, hs'⟩ |
    ⟨⟨e, herr⟩, hsame⟩
  · rw [hok]
    obtain ⟨hfree, hlt, -⟩ := Pool.allocate_spec halloc
    have hget : ∀ k, (v.oms.submit req id now).1.get k =
        if k = h then some (submittedOrder req id now) else v.oms.get k := by
      intro k
      rw [hs', ← get_submitted ids (submittedOrder req id now) now halloc k]
      split <;> rfl
    have hring : (v.oms.submit req id now).1.recentlyTerminal = v.oms.recentlyTerminal := by
      rw [hs']
      split <;> rfl
    refine ⟨fun k o ho => ?_, ?_, fun i side => ?_⟩
    · have ho : (v.oms.submit req id now).1.get k = some o := ho
      rw [hget] at ho
      split_ifs at ho with hk
      · obtain rfl := Option.some.inj ho
        refine ⟨rfl, hinst, ?_⟩
        show update v.acked h false k = true ↔ _
        rw [hk, update_self]
        exact iff_of_false (by simp) fun hne => hne rfl
      · obtain ⟨hopen, hinst', hacked⟩ := hv.orders k o ho
        refine ⟨hopen, hinst', ?_⟩
        show update v.acked h false k = true ↔ _
        rw [update_of_ne hk]
        exact hacked
    · exact hring ▸ hv.records
    have hothers : ∀ k, k ≠ h → (v.oms.submit req id now).1.get k = v.oms.get k :=
      fun k hk => (hget k).trans (if_neg hk)
    have hmoved := total_add (restsAt i side) (restsAt i side) hlt hothers
      fun _ _ _ _ => rfl
    have hnew : (v.oms.submit req id now).1.term (restsAt i side) h = 0 := by
      rw [term_some ((hget h).trans (if_pos rfl))]
      unfold restsAt restOf
      split <;> rfl
    rw [term_none hfree, hnew, Nat.add_zero, Nat.add_zero] at hmoved
    exact (hv.count i side).trans hmoved.symm
  · rw [herr]
    refine hv.of_standing (fun k => ?_) (hsame.recentlyTerminal ▸ hv.records)
    exact congrArg (Option.map standing) (congrFun hsame.slots k)

/-- No request changes what rests. -/
theorem Counted.request (hv : Counted v) (r : OrderRequest) : Counted (v.request r) := by
  cases r with
  | submit req id now => exact hv.submit req id now
  | cancel h => exact hv.stand (stand_requestCancel v.oms h)
  | replace h newId px qty now => exact hv.stand (stand_requestReplace v.oms h newId px qty now)

theorem Counted.requests (hv : Counted v) (rs : List OrderRequest) :
    Counted (rs.foldl PresenceView.request v) := by
  induction rs generalizing v with
  | nil => exact hv
  | cons r rs ih => exact ih (hv.request r)

/-- Requests and the count do not meet. -/
theorem requests_presence (v : PresenceView) (q : QuotePresence) (rs : List OrderRequest) :
    (rs.foldl request v).presence = v.presence ∧
      rs.foldl request { v with presence := q } = { rs.foldl request v with presence := q } := by
  induction rs generalizing v with
  | nil => exact ⟨rfl, rfl⟩
  | cons r rs ih => exact ih (v.request r)

theorem ackedBy_of_ne {acked : Nat → Bool} {m : Oms.Msg} {u : OmsUpdate} {k : Nat}
    (hne : ∀ h, u.handle = some h → k ≠ h) : ackedBy acked m u k = acked k := by
  unfold ackedBy
  cases hhandle : u.handle with
  | none => cases m.accepts <;> rfl
  | some h =>
    cases m.accepts with
    | true => exact update_of_ne (hne h hhandle) _ _
    | false => rfl

theorem ackedBy_handle {acked : Nat → Bool} {m : Oms.Msg} {u : OmsUpdate}
    (hhandle : u.handle = some h) : ackedBy acked m u h = (m.accepts || acked h) := by
  unfold ackedBy
  rw [hhandle]
  cases m.accepts with
  | true => exact update_self _ _ _
  | false => rfl

/-- A message and its update keep the counts. -/
theorem Counted.heard (hv : Counted v) (m : Oms.Msg) (now : Timestamp) : Counted {
      oms := (v.oms.receive m).1
      presence := v.presence.afterOmsUpdate (v.oms.receive m).2 now
      acked := ackedBy v.acked m (v.oms.receive m).2 } := by
  rcases receive_heard hv.records m with hquiet | ⟨h, o, hab⟩
  · have hsame : v.presence.afterOmsUpdate (v.oms.receive m).2 now = v.presence := by
      unfold QuotePresence.afterOmsUpdate
      split_ifs with hknown
      · obtain ⟨horder, hprev⟩ := hquiet.silent hknown
        rw [horder, hprev]
        rfl
      · rfl
    rw [hsame]
    refine (hv.of_standing (fun k => congrArg _ (hquiet.slots k)) hquiet.records).of_acked ?_
    intro k o ho
    have ho : (v.oms.receive m).1.get k = some o := ho
    rw [hquiet.slots] at ho
    refine ackedBy_of_ne fun h hhandle => ?_
    rintro rfl
    simp [hquiet.handle k hhandle] at ho
  · obtain ⟨-, -, hwas⟩ := hv.orders h o hab.found
    have hhandle : ∀ k, (v.oms.receive m).2.handle = some k → k = h := by
      intro k hk
      rcases hab.outcome with ⟨-, hnone, -⟩ | ⟨-, hsome, -, -⟩
      · simp [hnone] at hk
      · exact Option.some.inj (hk.symm.trans hsome)
    refine hv.about hab (fun k hk => ackedBy_of_ne fun h' hh' => ?_) (fun hget => ?_) now
    · rw [hhandle h' hh']
      exact hk
    rcases hab.outcome with ⟨hnone, -, -⟩ | ⟨-, hsome, -, hnew⟩
    · simp [hnone] at hget
    · rw [ackedBy_handle hsome, Ne, hnew, Bool.or_eq_true, hwas, Ne, not_and_or,
        Bool.not_eq_false, or_comm]

theorem Counted.receive (hv : Counted v) (m : Oms.Msg) (now : Timestamp) (react : React) :
    Counted (v.receive m now react) := by
  have hrequests := (hv.heard m now).requests (react (v.oms.receive m).1 (v.oms.receive m).2)
  obtain ⟨hpresence, hset⟩ := requests_presence
    { v with oms := (v.oms.receive m).1, acked := ackedBy v.acked m (v.oms.receive m).2 }
    (v.presence.afterOmsUpdate (v.oms.receive m).2 now)
    (react (v.oms.receive m).1 (v.oms.receive m).2)
  unfold PresenceView.receive
  dsimp only
  rw [hpresence, ← hset]
  exact hrequests

theorem Counted.endUnseen (hv : Counted v) (react : React) (now : Timestamp) (hs : List Nat) :
    Counted (endUnseen react now v hs) := by
  induction hs generalizing v with
  | nil => exact hv
  | cons h rest ih =>
    unfold PresenceView.endUnseen
    cases hone : v.oms.reconcileEndOne h with
    | none => exact ih hv
    | some p =>
      obtain ⟨s', u⟩ := p
      obtain ⟨o, hab⟩ := reconcileEndOne_about hv.records hone
      have hended : Counted { v with oms := s', presence := v.presence.afterOmsUpdate u now } := by
        refine hv.about hab (fun _ _ => rfl) (fun hget => ?_) now
        obtain ⟨-, -, hwas⟩ := hv.orders h o hab.found
        rcases hab.outcome with ⟨hnone, -, -⟩ | ⟨-, -, -, hnew⟩
        · simp [hnone] at hget
        · rw [Ne, hnew, and_iff_left rfl]
          exact hwas
      exact ih (hended.requests (react s' u))

theorem Counted.step (hv : Counted v) {op : Op} (hop : NoneStale v op) : Counted (v.step op) := by
  cases op with
  | request r => exact hv.request r
  | receive m now react => exact hv.receive m now react
  | reconcileBegin venue wm => exact hv.stand (stand_reconcileBegin v.oms venue wm)
  | reconcileEnd venue now react => exact hv.endUnseen react now _
  | sweepAcks now timeout =>
    have hsame : v.oms.sweepAcks now timeout = v.oms := by
      unfold sweepAcks
      rcases hop with hoff | hnone
      · rw [if_pos hoff]
      · rw [hnone, foldl_nil, ite_self]
    show Counted { v with oms := v.oms.sweepAcks now timeout }
    rw [hsame]
    exact hv

/-- In every run whose ack-timeout sweeps find no order that waits for its ack, the live counts
are the numbers of acknowledged orders that have not ended. -/
theorem live_counts_acknowledged {v : PresenceView} (h : Reachable NoneStale v)
    (i : InstrumentId) (side : Side) : v.presence.live i.value side = v.acknowledged i side := by
  have hv : Counted v := by
    induction h with
    | start epoch maxSeq => exact Counted.start epoch maxSeq
    | step _ op hop ih => exact ih.step hop
  rw [hv.count]
  unfold acknowledged Oms.total
  refine Finset.sum_congr rfl fun k _ => ?_
  cases ho : v.oms.get k with
  | none => rw [term_none ho, term_none ho]
  | some o =>
    obtain ⟨hopen, -, hacked⟩ := hv.orders k o ho
    have hrest : o.state.resting = v.acked k := by
      rw [Bool.eq_iff_iff, resting_eq_true_iff, hacked]
      exact and_iff_left hopen
    rw [term_some ho, term_some ho]
    unfold restsAt restOf
    rw [hrest]
    simp only [InstrumentId.value_inj, hopen, true_and]
    cases v.acked k with
    | true => simp only [Bool.toNat_true, true_and, eq_comm]
    | false => simp

/-- A buy at a price. -/
def bid (px : Price) : NewOrderRequest := { instrument := ⟨0⟩, price := px, qty := 1 }

/-- A bid acknowledged, and a lower one whose ack does not come. -/
def oneAcked : PresenceView :=
  ((({ oms := Oms.init 1 kMaxSeq } : PresenceView).step (.request (.submit (bid 10) ⟨1⟩ 1))).step
    (.receive (.ack { clOrdId := ⟨1⟩ }) 2 fun _ _ => [])).step (.request (.submit (bid 9) ⟨2⟩ 3))

/-- The lower bid's cancel by a sweep, and the venue's answer to it. -/
def swept : PresenceView :=
  (oneAcked.step (.sweepAcks 10 5)).step (.receive (.cancelAck { clOrdId := ⟨2⟩ }) 11 fun _ _ => [])

/-- A sweep finds the lower bid once it has waited for the timeout. -/
theorem mem_stale_oneAcked (timeout : Int) (k : Nat) :
    k ∈ oneAcked.oms.stale 10 timeout ↔ k = 1 ∧ timeout ≤ 7 := by
  unfold Oms.stale
  rw [mem_filter, Pool.mem_liveHandles]
  have hfirst : oneAcked.oms.get 0 = some { submittedOrder (bid 10) ⟨1⟩ 1 with state := .live } :=
    rfl
  have hsecond : oneAcked.oms.get 1 = some (submittedOrder (bid 9) ⟨2⟩ 3) := rfl
  have hnone : ∀ k, oneAcked.oms.get (k + 2) = none := fun k => rfl
  match k with
  | 0 => simp [hfirst]
  | 1 =>
    have hlive : ∃ o, oneAcked.oms.pool.slots 1 = some o := ⟨_, rfl⟩
    simp [hsecond, hlive, submittedOrder]
  | k + 2 => simp [hnone]

/-- A sweep with a timeout that the lower bid has not reached. -/
theorem live_counts_acknowledged_one :
    (oneAcked.step (.sweepAcks 10 20)).presence.live 0 .buy =
      (oneAcked.step (.sweepAcks 10 20)).acknowledged ⟨0⟩ .buy := by
  have hnone : oneAcked.oms.stale 10 20 = [] := eq_nil_iff_forall_not_mem.mpr fun k hk =>
    absurd ((mem_stale_oneAcked 20 k).mp hk).2 (by decide)
  have hreach : Reachable NoneStale oneAcked :=
    (((Reachable.start 1 kMaxSeq).step _ trivial).step _ trivial).step _ trivial
  exact live_counts_acknowledged (hreach.step (.sweepAcks 10 20) (Or.inr hnone)) ⟨0⟩ .buy

/-- The end of an order that a sweep cancelled takes another order off the count. -/
theorem not_live_counts_acknowledged : ¬ ∀ v, Reachable (fun _ _ => True) v →
    ∀ (i : InstrumentId) (side : Side), v.presence.live i.value side = v.acknowledged i side := by
  intro hall
  have hreach : Reachable (fun _ _ => True) swept :=
    (((((Reachable.start 1 kMaxSeq).step _ trivial).step _ trivial).step _ trivial).step _
      trivial).step _ trivial
  have hsweep : oneAcked.oms.sweepAcks 10 5 = oneAcked.oms.sweepOne 1 := by
    have hnd : (oneAcked.oms.stale 10 5).Nodup := (nodup_range.filter _).filter _
    have hone : oneAcked.oms.stale 10 5 = [1] :=
      perm_singleton.mp ((perm_ext_iff_of_nodup hnd (nodup_singleton 1)).mpr fun k => by
        simp [mem_stale_oneAcked])
    unfold sweepAcks
    rw [hone]
    rfl
  have hswept : swept = PresenceView.step { oneAcked with oms := oneAcked.oms.sweepOne 1 }
      (.receive (.cancelAck { clOrdId := ⟨2⟩ }) 11 fun _ _ => []) := by
    rw [← hsweep]
    rfl
  have hlive : swept.presence.live 0 .buy = 0 := by
    rw [hswept]
    rfl
  have hget : swept.oms.get 0 =
      some { submittedOrder (bid 10) ⟨1⟩ 1 with state := .live } := by
    rw [hswept]
    rfl
  have hacked : swept.acked 0 = true := by
    rw [hswept]
    rfl
  have hcount : 1 ≤ swept.acknowledged ⟨0⟩ .buy :=
    one_le_total hget (if_pos ⟨hacked, rfl, rfl, rfl⟩)
  have heq := hall swept hreach ⟨0⟩ .buy
  rw [hlive] at heq
  omega

end PresenceView

end FastMM
