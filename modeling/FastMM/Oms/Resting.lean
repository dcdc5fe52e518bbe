/-
  Oms/Resting.lean --- what an update says of the order's rest at the venue.

  Source: `resting` of `include/fastmm/core/engine.hpp`, and the handlers of
  `include/fastmm/core/oms.hpp`.

  An order rests from its ack to its terminal state.  An update carries the state before
  and the order after, and both say whether it rested.  An update about an order that
  ended before says that it rested neither time, since every remembered record is of an
  order that ended.
-/
import FastMM.Oms.Told
set_option autoImplicit false

namespace FastMM

open OrderState

/-- `Engine::resting`: a cancel or replace in flight does not take an order off the book. -/
def OrderState.resting (st : OrderState) : Bool := decide (st ≠ .pendingNew) && !st.isTerminal

namespace OrderState

variable {st : OrderState}

theorem resting_eq_true_iff : st.resting = true ↔ st ≠ .pendingNew ∧ st.isTerminal = false := by
  unfold resting
  rw [Bool.and_eq_true, decide_eq_true_iff, Bool.not_eq_true']

theorem resting_of_isTerminal (h : st.isTerminal = true) : st.resting = false := by
  unfold resting
  rw [h, Bool.not_true, Bool.and_false]

theorem resting_of_isWorking (h : st.isWorking = true) : st.resting = true :=
  resting_eq_true_iff.mpr ⟨by rintro rfl; exact absurd h (by decide), not_isTerminal_of_isWorking h⟩

end OrderState

namespace Oms

variable {s s' : Oms} {h : Nat} {o o' : Order} {u u' : OmsUpdate} {a : Bool}

/-! ## The records -/

/-- Every remembered record is of an order that ended. -/
def RecordsEnded (ring : TerminalRing) : Prop :=
  ∀ k r, ring.atPos k = some r → r.state.isTerminal = true

theorem RecordsEnded.push {ring : TerminalRing} (hrec : RecordsEnded ring) {r : TerminalRecord}
    (hr : r.state.isTerminal = true) : RecordsEnded (ring.push r) := by
  intro k r' hk
  rw [RingBuffer.atPos_push (by decide)] at hk
  by_cases htail : k = ring.tail
  · rw [if_pos htail] at hk
    exact Option.some.inj hk ▸ hr
  rw [if_neg htail] at hk
  by_cases hhead : (ring.push r).head ≤ k
  · rw [if_pos hhead] at hk
    exact hrec k r' hk
  · simp [if_neg hhead] at hk

/-- A record written back in a terminal state. -/
theorem RecordsEnded.setTerminal (hrec : RecordsEnded s.recentlyTerminal) {id : ClientOrderId}
    {r r' : TerminalRecord} (hfind : s.findTerminal id = some r)
    (hr' : r'.state.isTerminal = true) : RecordsEnded (s.setTerminal id r').recentlyTerminal := by
  obtain ⟨hpos, -⟩ := RingBuffer.atPos_eq_some_iff.mp hfind
  intro k x hk
  have hk : (s.recentlyTerminal.setPos (s.terminalPos id) r').atPos k = some x := hk
  rw [RingBuffer.atPos_setPos hpos] at hk
  split_ifs at hk with hat
  · exact Option.some.inj hk ▸ hr'
  · exact hrec k x hk

theorem terminate_ring (s : Oms) (u : OmsUpdate) (h : Nat) (o : Order) (st : OrderState)
    (br : Bool) :
    (s.terminate u h o st br).1.recentlyTerminal =
      s.recentlyTerminal.push (recordOf o st br (s.estimates h)) := by
  rw [terminate_fst]
  split <;> rfl

theorem rememberTerminal_known (s : Oms) (r : TerminalRecord) (u : OmsUpdate) :
    (s.rememberTerminal r u).2.known = u.known := by
  obtain ⟨_, _, h⟩ := s.rememberTerminal_snd u r
  rw [h]

theorem terminate_update (s : Oms) (u : OmsUpdate) (h : Nat) (o : Order) (st : OrderState)
    (br : Bool) :
    (s.terminate u h o st br).2.order = { o with state := st } ∧
      (s.terminate u h o st br).2.known = u.known ∧ (s.terminate u h o st br).2.handle = none := by
  unfold terminate
  simp only [apply_ite Prod.snd, ite_self]
  exact ⟨trivial, rememberTerminal_known _ _ _, trivial⟩

theorem RecordsEnded.terminate (hrec : RecordsEnded s.recentlyTerminal) (u : OmsUpdate) (h : Nat)
    (o : Order) {st : OrderState} (hst : st.isTerminal = true) (br : Bool) :
    RecordsEnded (s.terminate u h o st br).1.recentlyTerminal := by
  rw [terminate_ring]
  exact hrec.push hst

theorem RecordsEnded.applyReplace (hrec : RecordsEnded s.recentlyTerminal) (u : OmsUpdate)
    (h : Nat) (o : Order) (rekey newVenueOrder : Bool) :
    RecordsEnded (s.applyReplace u h o rekey newVenueOrder).1.recentlyTerminal := by
  have hended : (oldLegRecord o (s.estimates h)).state.isTerminal = true := by
    unfold oldLegRecord recordOf
    split <;> rfl
  have hreplaced : RecordsEnded (s.replaced h o rekey newVenueOrder).recentlyTerminal := by
    unfold replaced
    dsimp only
    split
    · exact hrec.push hended
    · exact hrec
  rw [applyReplace_fst]
  split
  · exact hreplaced
  · split
    · exact hreplaced
    · exact hreplaced

theorem applyReplace_known (s : Oms) (u : OmsUpdate) (h : Nat) (o : Order)
    (rekey newVenueOrder : Bool) :
    (s.applyReplace u h o rekey newVenueOrder).2.2.known = u.known := by
  unfold applyReplace
  dsimp only
  split
  · exact rememberTerminal_known (s.addOpenQty o.instrument o.side (-o.leavesQty))
      (recordOf o (if o.qty ≤ o.cumQty then .filled else .canceled) false (s.estimates h)) u
  · rfl

theorem RecordsEnded.absorbCum (hrec : RecordsEnded s.recentlyTerminal) (h : Nat) (o : Order)
    (reported : Qty) (u : OmsUpdate) :
    RecordsEnded (s.absorbCum h o reported u).1.recentlyTerminal ∧
      (s.absorbCum h o reported u).2.2.known = u.known := by
  constructor
  · rw [absorbCum_fst]
    split <;> exact hrec
  unfold Oms.absorbCum
  rw [show (if o.qty < reported then o.qty else reported) = absorbedCum o reported from rfl]
  dsimp only
  split <;> rfl

/-! ## The handlers -/

/-- What the answer `r` to a message that names the open order `o` says beside what it is told:
the order's end, and whether an order that waited for its ack still does. -/
structure Closes (o : Order) (u : OmsUpdate) (a : Bool) (r : Oms × OmsUpdate) : Prop where
  records : RecordsEnded r.1.recentlyTerminal
  known : r.2.known = u.known
  ended : r.2.terminal = true → r.2.order.state.isTerminal = true ∧
    r.2.order.identity = o.identity ∧ r.2.handle = none
  fresh : r.2.terminal = false → o.state = .pendingNew → (r.2.order.state = .pendingNew ↔ a = false)

section

variable (hrec : RecordsEnded s.recentlyTerminal) (hknown : u'.known = u.known)
include hrec hknown

theorem Closes.terminate
    (hid : o'.identity = o.identity) {st : OrderState} (hst : st.isTerminal = true) (br : Bool) :
    Closes o u a (s.terminate u' h o' st br) := by
  obtain ⟨horder, hsame, hnone⟩ := terminate_update s u' h o' st br
  refine ⟨hrec.terminate u' h o' hst br, hsame.trans hknown, fun _ => ?_, fun hterm => ?_⟩
  · rw [horder]
    exact ⟨hst, hid, hnone⟩
  · simp [(terminate_snd s u' h o' st br).2] at hterm

theorem Closes.finish
    (hterm : u'.terminal = false)
    (hfresh : o.state = .pendingNew → (o'.state = .pendingNew ↔ a = false)) :
    Closes o u a (s, s.finishUpdate h o' u') := by
  refine ⟨hrec, hknown, fun hend => ?_, fun _ => hfresh⟩
  have hend : u'.terminal = true := hend
  simp [hterm] at hend

end

section Handlers

variable (hrec : RecordsEnded s.recentlyTerminal) (hu : u.terminal = false)

include hrec hu

theorem onAckOpen_closes (m : OrderAckMsg) : Closes o u true (s.onAckOpen m h o u) := by
  unfold onAckOpen
  cases hst : o.state with
  | pendingNew =>
    exact Closes.finish hrec rfl hu fun _ => by simp
  | pendingReplace =>
    have hother : ∀ o' : Order,
        o.state = .pendingNew → (o'.state = .pendingNew ↔ true = false) := by
      intro _ hnew
      rw [hst] at hnew
      exact absurd hnew (by decide)
    dsimp only
    by_cases hid : m.clOrdId = o.pendingClOrdId
    · rw [if_pos hid]
      generalize decide (o.pendingClOrdId ≠ o.clOrdId) = rekey
      generalize (rekey && !m.amendedInPlace) = newVenueOrder
      have hring := hrec.applyReplace u h o rekey newVenueOrder
      have hknown := applyReplace_known s u h o rekey newVenueOrder
      obtain ⟨-, hterm⟩ := applyReplace_snd s u h o rekey newVenueOrder
      generalize s.applyReplace u h o rekey newVenueOrder = r at *
      refine Closes.finish ?_ ?_ ?_ (hother _)
      · exact hring
      · split <;> exact hknown
      · split <;> exact hterm.trans hu
    · rw [if_neg hid]
      exact Closes.finish hrec rfl hu (hother o)
  | _ =>
    refine Closes.finish ?_ rfl hu fun hnew => ?_
    · split <;> exact hrec
    · rw [hst] at hnew
      exact absurd hnew (by decide)

theorem onRejectOpen_closes (m : OrderRejectMsg) : Closes o u false (s.onRejectOpen m h o u) := by
  unfold onRejectOpen
  by_cases hnew : o.state = .pendingNew
  · rw [if_pos hnew]
    refine Closes.terminate ?_ ?_ ?_ rfl _
    · exact hrec
    · rfl
    · rfl
  rw [if_neg hnew]
  have hold : ∀ o' : Order, o.state = .pendingNew → (o'.state = .pendingNew ↔ false = false) :=
    fun _ h => absurd h hnew
  split
  · have hring : RecordsEnded (s.clearPending h o).1.recentlyTerminal := by
      rw [clearPending_fst]
      exact hrec
    split
    · refine Closes.terminate hring ?_ ?_ rfl _
      · rfl
      · rfl
    · exact Closes.finish hring rfl hu (hold _)
  · exact Closes.finish hrec rfl hu (hold _)

theorem onCancelAckOpen_closes (m : OrderCancelAckMsg) (ho : s.get h = some o) :
    Closes o u false (s.onCancelAckOpen m h o u) := by
  obtain ⟨-, hstate⟩ := absorbCum_get ho m.cumQty u
  obtain ⟨-, -, hid, -, hterm⟩ := absorbCum_near ho m.cumQty u
  obtain ⟨hring, hknown⟩ := hrec.absorbCum h o m.cumQty u
  unfold onCancelAckOpen
  dsimp only
  generalize s.absorbCum h o m.cumQty u = r at *
  split
  · rename_i hrep
    refine Closes.finish hring hknown (hterm.trans hu) fun hnew => ?_
    rw [hstate, hnew] at hrep
    exact absurd hrep.1 (by decide)
  split
  · refine Closes.terminate ?_ hknown hid rfl _
    exact hring
  split
  · refine Closes.terminate ?_ hknown ?_ rfl _
    · exact hring
    · exact hid
  · refine Closes.terminate ?_ hknown hid rfl _
    exact hring

theorem onCancelRejectOpen_closes (m : OrderCancelRejectMsg) :
    Closes o u false (s.onCancelRejectOpen m h o u) := by
  unfold onCancelRejectOpen
  by_cases hpend : o.state ≠ .pendingCancel
  · rw [if_pos hpend]
    exact Closes.finish hrec rfl hu fun hnew => by simp [hnew]
  rw [if_neg hpend]
  split
  · exact Closes.terminate hrec rfl rfl rfl _
  refine Closes.finish ?_ ?_ ?_ fun hnew => ?_
  · exact hrec
  · split <;> rfl
  · split <;> exact hu
  · exact absurd (by rw [hnew]; decide) hpend

omit hu in
theorem onExpiredOpen_closes (m : OrderExpiredMsg) (ho : s.get h = some o) :
    Closes o u false (s.onExpiredOpen m h o u) := by
  obtain ⟨-, -, hid, -, -⟩ := absorbCum_near ho m.cumQty u
  obtain ⟨hring, hknown⟩ := hrec.absorbCum h o m.cumQty u
  unfold onExpiredOpen
  dsimp only
  generalize s.absorbCum h o m.cumQty u = r at *
  split
  · refine Closes.terminate ?_ hknown hid rfl _
    exact hring
  · refine Closes.terminate ?_ hknown hid rfl _
    exact hring

theorem onFillOpen_closes (m : OrderFillMsg) : Closes o u true (s.onFillOpen m h o u) := by
  unfold onFillOpen
  dsimp only
  split
  · refine Closes.terminate ?_ ?_ ?_ rfl _
    · exact hrec
    · rfl
    · rfl
  · refine Closes.finish ?_ rfl hu fun hnew => ?_
    · exact hrec
    · simp [hnew]

theorem reconcileOpenOrderOpen_closes (m : ReconcileMsg) (ho : s.get h = some o) :
    Closes o u true (s.reconcileOpenOrderOpen m h o u) := by
  unfold reconcileOpenOrderOpen
  dsimp only
  generalize hx : ({ o with
    flags := { o.flags with seenInReconcile := true, reconciled := true }
    venueOrderId :=
      if !o.venueOrderId.empty || !m.venueOrderId.empty then m.venueOrderId
      else o.venueOrderId } : Order) = x
  have hxst : x.state = o.state := by rw [← hx]
  obtain ⟨-, hstate⟩ := absorbCum_get (get_setOrder_self ho x) m.cumQty u
  obtain ⟨-, -, -, -, hterm⟩ := absorbCum_near (get_setOrder_self ho x) m.cumQty u
  have hset : RecordsEnded (s.setOrder h x).recentlyTerminal := hrec
  obtain ⟨hring, hknown⟩ := hset.absorbCum h x m.cumQty u
  generalize (s.setOrder h x).absorbCum h x m.cumQty u = r at *
  split_ifs with hold
  · refine Closes.finish ?_ ?_ ?_ fun _ => ?_
    · exact hring
    · exact hknown
    · exact hterm.trans hu
    · have hworks := resting_of_isWorking (workingState_isWorking r.2.1)
      rw [resting_eq_true_iff] at hworks
      exact iff_of_false hworks.1 (by decide)
  · refine Closes.finish hring hknown (hterm.trans hu) fun hnew => ?_
    exact absurd (hstate.trans (hxst.trans hnew)) hold

end Handlers

/-! ## Messages -/

variable {r : Oms × OmsUpdate}

/-- The message says that the venue took the order it names. -/
def Msg.accepts : Msg → Bool
  | .ack _ | .fill _ | .openOrder _ => true
  | .reject _ | .cancelAck _ | .cancelReject _ | .expired _ => false

/-- An answer about no open order: none changes, and what it is about rests neither before nor
after. -/
structure Quiet (s : Oms) (r : Oms × OmsUpdate) : Prop where
  slots : ∀ k, r.1.get k = s.get k
  records : RecordsEnded r.1.recentlyTerminal
  silent : r.2.known = true → r.2.order.state.resting = false ∧ r.2.prev.resting = false
  handle : ∀ h, r.2.handle = some h → s.get h = none

/-- An answer about the open order `o` in slot `h`: it ended, or goes on as the update has it and
waits for its ack only if it did and the answer takes it for nothing else. -/
structure About (s : Oms) (a : Bool) (r : Oms × OmsUpdate) (h : Nat) (o : Order) : Prop where
  found : s.get h = some o
  others : ∀ k, k ≠ h → r.1.get k = s.get k
  records : RecordsEnded r.1.recentlyTerminal
  known : r.2.known = true
  prev : r.2.prev = o.state
  identity : r.2.order.identity = o.identity
  outcome : (r.1.get h = none ∧ r.2.handle = none ∧ r.2.order.state.isTerminal = true) ∨
    (r.1.get h = some r.2.order ∧ r.2.handle = some h ∧
      (o.state.isTerminal = false → r.2.order.state.isTerminal = false) ∧
      (r.2.order.state = .pendingNew ↔ o.state = .pendingNew ∧ a = false))

theorem Told.about {c : Prop} (ht : Told s h o u c r) (hcloses : Closes o u a r)
    (ho : s.get h = some o) (hprev : u.prev = o.state) (hknown : u.known = true) :
    About s a r h o := by
  have hcommon := And.intro (hcloses.known.trans hknown) (ht.prev.trans hprev)
  rcases ht.outcome with ⟨hterm, hnone⟩ | ⟨hterm, hhandle, hget, hid, hmoves⟩
  · obtain ⟨hended, hid, hhandle⟩ := hcloses.ended hterm
    exact ⟨ho, ht.others, hcloses.records, hcommon.1, hcommon.2, hid, .inl ⟨hnone, hhandle, hended⟩⟩
  refine ⟨ho, ht.others, hcloses.records, hcommon.1, hcommon.2, hid,
    .inr ⟨hget, hhandle, fun hopen => ?_, ?_⟩⟩
  · rcases hmoves with hsame | ⟨hworks, -⟩
    · exact (congrArg isTerminal hsame).trans hopen
    · exact not_isTerminal_of_isWorking hworks
  by_cases hnew : o.state = .pendingNew
  · rw [hcloses.fresh hterm hnew]
    exact (and_iff_right hnew).symm
  refine iff_of_false ?_ fun h => hnew h.1
  rcases hmoves with hsame | ⟨hworks, -⟩
  · rw [hsame]
    exact hnew
  · exact (resting_eq_true_iff.mp (resting_of_isWorking hworks)).1

section

variable (hrec : RecordsEnded s.recentlyTerminal)
include hrec

/-- What an id is found to name: an open order's slot, or an order that ended if any. -/
theorem lookup_cases (id : ClientOrderId) (u : OmsUpdate)
    (hknown : u.known = false) :
    (∃ h, s.lookup id u = (some h, { u with known := true, handle := some h })) ∨
      ∃ u', s.lookup id u = (none, u') ∧ u'.handle = u.handle ∧ u'.prev = u.prev ∧
        (u'.known = true → u'.order.state.isTerminal = true) := by
  have hnot : u.known = true → u.order.state.isTerminal = true := by
    intro h
    simp [hknown] at h
  unfold lookup
  cases s.ids.find id with
  | none => exact .inr ⟨u, rfl, rfl, rfl, hnot⟩
  | some ref =>
    cases ref with
    | opened h => exact .inl ⟨h, rfl⟩
    | terminal v =>
      cases hfind : s.findTerminal id with
      | none => exact .inr ⟨u, rfl, rfl, rfl, hnot⟩
      | some r =>
        have hr : r.state.isTerminal = true := hrec _ r hfind
        exact .inr ⟨_, rfl, rfl, rfl, fun _ => hr⟩

theorem withOrder_about (id : ClientOrderId)
    {closed : OmsUpdate → Oms × OmsUpdate} {opened : Nat → Order → OmsUpdate → Oms × OmsUpdate}
    {c : Prop} (hclosed : ∀ u : OmsUpdate, u.handle = none → u.prev = .pendingNew →
      (u.known = true → u.order.state.isTerminal = true) → Quiet s (closed u))
    (hopened : ∀ h o u, s.get h = some o → u.terminal = false →
      Told s h o u c (opened h o u) ∧ Closes o u a (opened h o u)) :
    Quiet s (s.withOrder id {} closed opened) ∨
      ∃ h o, About s a (s.withOrder id {} closed opened) h o := by
  unfold withOrder
  rcases lookup_cases hrec id {} rfl with ⟨h, hlook⟩ | ⟨u', hlook, hhandle, hprev, hended⟩
  · rw [hlook]
    dsimp only
    cases ho : s.get h with
    | none =>
      refine .inl ⟨fun _ => rfl, hrec, fun _ => ⟨rfl, rfl⟩, fun k hk => ?_⟩
      obtain rfl := Option.some.inj hk
      exact ho
    | some o =>
      obtain ⟨htold, hcloses⟩ := hopened h o
        { ({} : OmsUpdate) with known := true, handle := some h, prev := o.state } ho rfl
      exact .inr ⟨h, o, htold.about hcloses ho rfl rfl⟩
  · rw [hlook]
    exact .inl (hclosed u' hhandle hprev hended)

theorem takeNamed_rest (m : OrderFillMsg) (h : Handle)
    (u : OmsUpdate) :
    RecordsEnded (s.takeNamed m h u).1.recentlyTerminal ∧
      (s.takeNamed m h u).2.order = u.order ∧ (s.takeNamed m h u).2.prev = u.prev ∧
      (s.takeNamed m h u).2.handle = u.handle := by
  have htake : ∀ qty, RecordsEnded (s.takeSynthetic h m.clOrdId qty u).1.recentlyTerminal ∧
      (s.takeSynthetic h m.clOrdId qty u).2.order = u.order ∧
      (s.takeSynthetic h m.clOrdId qty u).2.prev = u.prev ∧
      (s.takeSynthetic h m.clOrdId qty u).2.handle = u.handle := by
    intro qty
    unfold takeSynthetic
    cases h with
    | some k =>
      dsimp only
      split <;> exact ⟨hrec, rfl, rfl, rfl⟩
    | none =>
      cases hfind : s.findTerminal m.clOrdId with
      | none => exact ⟨hrec, rfl, rfl, rfl⟩
      | some r =>
        dsimp only
        split
        · exact ⟨hrec.setTerminal hfind (hrec _ r hfind), rfl, rfl, rfl⟩
        · exact ⟨hrec, rfl, rfl, rfl⟩
  unfold takeNamed
  split
  · dsimp only
    split
    · exact htake _
    · exact ⟨hrec, rfl, rfl, rfl⟩
  · exact ⟨hrec, rfl, rfl, rfl⟩

/-- A late fill moves a record, and its order stays ended. -/
theorem lateFill_quiet (m : OrderFillMsg)
    (hhandle : u.handle = none) (hprev : u.prev.resting = false)
    (horder : u.order.state.isTerminal = true) : Quiet s (s.lateFill m u) := by
  have hnone : ∀ h, u.handle = some h → s.get h = none := by
    intro h hh
    simp [hhandle] at hh
  unfold lateFill
  cases hfind : s.findTerminal m.clOrdId with
  | none =>
    exact ⟨fun _ => rfl, hrec, fun _ => ⟨resting_of_isTerminal horder, hprev⟩, hnone⟩
  | some r =>
    have hr : r.state.isTerminal = true := hrec _ r hfind
    have hrest := resting_of_isTerminal hr
    dsimp only
    split
    · exact ⟨fun _ => rfl, hrec, fun _ => ⟨resting_of_isTerminal horder, hrest⟩, hnone⟩
    have hended : ∀ b : Bool,
        (if b = true then OrderState.filled else r.state).isTerminal = true := by
      intro b
      split
      · rfl
      · exact hr
    refine ⟨fun _ => rfl, ?_, fun _ => ⟨?_, hrest⟩, hnone⟩
    · exact hrec.setTerminal hfind (hended _)
    · exact resting_of_isTerminal (hended _)

end

theorem Quiet.congr {s₁ : Oms} (hget : s₁.get = s.get) (hq : Quiet s₁ r) : Quiet s r := by
  refine ⟨fun k => ?_, hq.records, hq.silent, fun k hk => ?_⟩
  · exact (hq.slots k).trans (congrFun hget k)
  · exact (congrFun hget k).symm.trans (hq.handle k hk)

theorem About.congr {s₁ : Oms} (hget : s₁.get = s.get)
    (hab : About s₁ a r h o) : About s a r h o := by
  refine ⟨?_, fun k hk => ?_, hab.records, hab.known, hab.prev, hab.identity, hab.outcome⟩
  · exact (congrFun hget h).symm.trans hab.found
  · exact (hab.others k hk).trans (congrFun hget k)

theorem onFillNew_about (hrec : RecordsEnded s.recentlyTerminal) (m : OrderFillMsg)
    (hhandle : u.handle = none) (hprev : u.prev = .pendingNew) (hknown : u.known = false)
    (hterm : u.terminal = false) (hidle : u.order.state.resting = false) :
    Quiet s (s.onFillNew m u) ∨ ∃ h o, About s true (s.onFillNew m u) h o := by
  rcases lookup_cases hrec m.clOrdId u hknown with ⟨h, hlook⟩ | ⟨u', hlook, hsame, hbefore, hended⟩
  · obtain ⟨hget, hterm', hknown'⟩ :=
      takeNamed_get s m (some h) { u with known := true, handle := some h }
    obtain ⟨hring, horder, hprev', hhandle'⟩ :=
      takeNamed_rest hrec m (some h) { u with known := true, handle := some h }
    unfold onFillNew
    rw [hlook]
    dsimp only
    generalize s.takeNamed m (some h) { u with known := true, handle := some h } = r at *
    cases ho : (r.1.withStats fun st => { st with fills := st.fills + 1 }).get h with
    | none =>
      refine .inl ⟨congrFun hget, hring, fun _ => ⟨?_, ?_⟩, fun k hk => ?_⟩
      · rw [horder]
        exact hidle
      · rw [hprev', hprev]
        rfl
      · have hk : r.2.handle = some k := hk
        obtain rfl := Option.some.inj (hhandle'.symm.trans hk)
        exact (congrFun hget h).symm.trans ho
    | some o =>
      have hcount : (r.1.withStats fun st => { st with fills := st.fills + 1 }).get = s.get := hget
      have hopen : ({ r.2 with prev := o.state } : OmsUpdate).terminal = false :=
        hterm'.trans hterm
      have htold := onFillOpen_told (c := True) ho hopen m
      refine .inr ⟨h, o, About.congr hcount (htold.about (onFillOpen_closes ?_ hopen m) ho rfl ?_)⟩
      · exact hring
      · exact hknown'
  · obtain ⟨hget, -, hknown'⟩ := takeNamed_get s m none u'
    obtain ⟨hring, horder, hprev', hhandle'⟩ := takeNamed_rest hrec m none u'
    unfold onFillNew
    rw [hlook]
    dsimp only
    generalize s.takeNamed m none u' = r at *
    refine .inl ?_
    split_ifs with hk
    · refine Quiet.congr ?_ (lateFill_quiet ?_ m ?_ ?_ ?_)
      · exact hget
      · exact hring
      · exact hhandle'.trans (hsame.trans hhandle)
      · rw [hprev', hbefore, hprev]
        rfl
      · rw [horder]
        exact hended (hknown'.symm.trans hk)
    · refine ⟨congrFun hget, hring, fun h => absurd h hk, fun k hk' => ?_⟩
      have hk' : r.2.handle = some k := hk'
      simp [hhandle', hsame, hhandle] at hk'

/-- The message is about no open order, or about one. -/
def Heard (s : Oms) (a : Bool) (r : Oms × OmsUpdate) : Prop :=
  Quiet s r ∨ ∃ h o, About s a r h o

/-- What a message does to the order it names. -/
theorem receive_heard (hrec : RecordsEnded s.recentlyTerminal) (m : Msg) :
    Heard s m.accepts (s.receive m) := by
  have hpast : ∀ (f : OmsUpdate → OmsUpdate) (s' : Oms), s'.get = s.get →
      s'.recentlyTerminal = s.recentlyTerminal → (∀ u, (f u).handle = u.handle) →
      (∀ u, (f u).prev = u.prev) → (∀ u, (f u).order = u.order) → (∀ u, (f u).known = u.known) →
      ∀ u : OmsUpdate, u.handle = none → u.prev = .pendingNew →
        (u.known = true → u.order.state.isTerminal = true) → Quiet s (s', f u) := by
    intro f s' hget hring hhandle hprev horder hknown u hnone hnew hended
    refine ⟨congrFun hget, hring ▸ hrec, fun hk => ⟨?_, ?_⟩, fun k hk => ?_⟩
    · rw [show (s', f u).2.order = u.order from horder u]
      exact resting_of_isTerminal (hended ((hknown u).symm.trans hk))
    · rw [show (s', f u).2.prev = u.prev from hprev u, hnew]
      rfl
    · have hk : (f u).handle = some k := hk
      simp [hhandle, hnone] at hk
  have hignored := hpast (fun u => { u with action := .ignored }) s rfl rfl (fun _ => rfl)
    (fun _ => rfl) (fun _ => rfl) fun _ => rfl
  have hunknown := hpast (fun u => { u with action := .cancelUnknown })
    (s.withStats fun st => { st with unknownIds := st.unknownIds + 1 }) rfl rfl (fun _ => rfl)
    (fun _ => rfl) (fun _ => rfl) fun _ => rfl
  cases m with
  | ack m =>
    refine withOrder_about (c := True) hrec m.clOrdId (fun u hnone hnew hended => ?_)
      fun h o u ho hu => ⟨onAckOpen_told ho hu m, onAckOpen_closes hrec hu m⟩
    unfold onAckClosed
    split
    · exact hunknown u hnone hnew hended
    split
    · exact hpast (fun u => { u with action := .cancelUnknown }) s rfl rfl (fun _ => rfl)
        (fun _ => rfl) (fun _ => rfl) (fun _ => rfl) u hnone hnew hended
    · exact hignored u hnone hnew hended
  | reject m =>
    exact withOrder_about (c := True) hrec m.clOrdId hignored fun h o u ho hu =>
      ⟨onRejectOpen_told ho hu m, onRejectOpen_closes hrec hu m⟩
  | cancelAck m =>
    exact withOrder_about (c := True) hrec m.clOrdId hignored fun h o u ho hu =>
      ⟨onCancelAckOpen_told ho hu m, onCancelAckOpen_closes hrec hu m ho⟩
  | cancelReject m =>
    exact withOrder_about hrec m.clOrdId hignored fun h o u ho hu =>
      ⟨onCancelRejectOpen_told ho hu m, onCancelRejectOpen_closes hrec hu m⟩
  | fill m =>
    show Heard s true (s.onFill m)
    rw [onFill_eq]
    obtain ⟨seen, hseen⟩ := s.heard_eq (.fill m)
    have hseen : s.remembered m = { s with execSeen := seen } := hseen
    have hget : ({ s with execSeen := seen } : Oms).get = s.get := rfl
    rw [hseen]
    split
    · exact .inl ⟨fun _ => rfl, hrec, nofun, fun k hk => nomatch hk⟩
    have hnew := onFillNew_about (s := { s with execSeen := seen }) (u := {
      fillQty := m.qty, fillPx := m.price }) hrec m rfl rfl rfl rfl rfl
    rcases hnew with hquiet | ⟨h, o, habout⟩
    · exact .inl (hquiet.congr hget)
    · exact .inr ⟨h, o, habout.congr hget⟩
  | expired m =>
    exact withOrder_about (c := True) hrec m.clOrdId hignored fun h o u ho _ =>
      ⟨onExpiredOpen_told ho m, onExpiredOpen_closes hrec m ho⟩
  | openOrder m =>
    exact withOrder_about (c := True) hrec m.clOrdId hunknown fun h o u ho hu =>
      ⟨reconcileOpenOrderOpen_told ho hu m, reconcileOpenOrderOpen_closes hrec hu m ho⟩

/-- An order `reconcile_end` ends is told of like any other. -/
theorem reconcileEndOne_about (hrec : RecordsEnded s.recentlyTerminal)
    (hone : s.reconcileEndOne h = some (s', u)) : ∃ o, About s false (s', u) h o := by
  unfold reconcileEndOne at hone
  cases ho : s.get h with
  | none =>
    simp [ho] at hone
  | some o =>
    rw [ho] at hone
    have hends : ∀ (s₁ : Oms) (u₁ : OmsUpdate) (o₁ : Order), s₁.get = s.get →
        s₁.recentlyTerminal = s.recentlyTerminal → u₁.known = true → u₁.prev = o.state →
        o₁.identity = o.identity → About s false (s₁.terminate u₁ h o₁ .canceled true) h o := by
      intro s₁ u₁ o₁ hget hring hknown hprev hid
      have htold : Told s h o u₁ True (s₁.terminate u₁ h o₁ .canceled true) :=
        Told.terminate ((Near.refl ho).of_slots hget) rfl o₁ .canceled true
      refine htold.about (Closes.terminate ?_ rfl hid rfl true) ho hprev hknown
      rw [hring]
      exact hrec
    simp only [Option.some.injEq] at hone
    refine ⟨o, ?_⟩
    rw [← hone]
    split
    · exact hends _ _ _ rfl rfl rfl rfl rfl
    · exact hends _ _ _ rfl rfl rfl rfl rfl

end Oms

end FastMM
