/-
  Venue/Hearing.lean --- what our order management makes of an honest venue.

  `LaneView` is a resting order as the messages so far tell it: its id, its terms, the
  quantity the venue has filled, and what we wait for.  `hear` is how one more message moves
  the view, where the venue can say it at all.  The order management follows: an order that
  matches a view matches the next one once the message is handled (`hear_matches`).  What it
  counts as filled is at most what the venue says: it drops an execution it takes for a
  repeat, and adds none.
-/
import FastMM.Oms.Onward
import Mathlib.Tactic.Linarith
set_option autoImplicit false

namespace FastMM

open Oms

open Oms (Msg)

/-- What an order waits for. -/
inductive LanePhase where
  | fresh
  | working
  | cancelling
  | replacing (newId : ClientOrderId) (price : Price) (qty : Qty) (oldGone : Bool)
  deriving DecidableEq, Repr

/-- The old order is cancelled and its replacement awaited. -/
def LanePhase.oldGone : LanePhase → Bool
  | .replacing _ _ _ b => b
  | _ => false

/-- A resting order as the messages so far tell it. -/
structure LaneView where
  id : ClientOrderId
  price : Price
  qty : Qty
  filled : Qty
  phase : LanePhase
  deriving DecidableEq, Repr

namespace LaneView

variable {v v' : LaneView} {o : Order} {s : Oms} {h : Nat} {m : Msg}

/-- The fills a replacement starts from. -/
def carried (v : LaneView) (m : OrderAckMsg) : Qty := if m.amendedInPlace then v.filled else 0

/-- The view after a message, `none` when the venue cannot say it. -/
def hear (v : LaneView) : Msg → Option LaneView
  | .ack m =>
    match v.phase with
    | .fresh => if m.clOrdId = v.id then some { v with phase := .working } else none
    | .replacing newId px qty _ =>
      if m.clOrdId = newId then
        if v.carried m < qty then some ⟨newId, px, qty, v.carried m, .working⟩ else none
      else if m.clOrdId = v.id then some v
      else none
    | _ => if m.clOrdId = v.id then some v else none
  | .fill m =>
    if v.phase ≠ .fresh ∧ m.clOrdId = v.id ∧ 0 < m.qty ∧ v.filled + m.qty < v.qty ∧
        (m.cumQty = 0 ∨ m.cumQty = v.filled + m.qty) then
      some { v with filled := v.filled + m.qty }
    else none
  | .reject m =>
    match v.phase with
    | .replacing newId _ _ false =>
      if m.clOrdId = newId then some { v with phase := .working } else none
    | _ => none
  | .cancelAck m =>
    match v.phase with
    | .replacing newId px qty false =>
      if m.clOrdId = v.id ∧ m.cumQty ≤ v.filled then
        some { v with phase := .replacing newId px qty true }
      else none
    | _ => none
  | .cancelReject m =>
    match v.phase with
    | .cancelling =>
      if m.clOrdId = v.id ∧ m.reason ≠ .venueUnknownOrder then
        some { v with phase := .working }
      else none
    | _ => none
  | _ => none

/-- The ids of a view meet `p`, and that of a replacement is not the order's. -/
def Within (v : LaneView) (p : ClientOrderId → Prop) : Prop :=
  p v.id ∧ ∀ newId px qty gone, v.phase = .replacing newId px qty gone → p newId ∧ newId ≠ v.id

/-- The order management waits for what the view waits for. -/
def PhaseMatches (v : LaneView) (o : Order) : Prop :=
  match v.phase with
  | .fresh => o.state = .pendingNew
  | .working => o.isWorking = true
  | .cancelling => o.state = .pendingCancel
  | .replacing newId px qty _ =>
    o.state = .pendingReplace ∧ o.pendingClOrdId = newId ∧ o.pendingPrice = px ∧
      o.pendingQty = qty ∧ newId ≠ v.id

/-- An order of the order management stands as the view has it. -/
structure Matches (v : LaneView) (o : Order) : Prop where
  id : o.clOrdId = v.id
  price : o.price = v.price
  qty : o.qty = v.qty
  cum : o.cumQty ≤ v.filled
  room : v.filled < v.qty
  phase : v.PhaseMatches o
  oldGone : o.flags.replaceOldCanceled = v.phase.oldGone

/-! ## One message to an open order -/

theorem clip_le (a b : Int) : (if a < b then a else b) ≤ b := by
  split <;> omega

/-- What an absorbed quantity leaves of an order. -/
structure CumMoved (o o' : Order) (reported : Qty) : Prop where
  clOrdId : o'.clOrdId = o.clOrdId
  price : o'.price = o.price
  qty : o'.qty = o.qty
  pendingClOrdId : o'.pendingClOrdId = o.pendingClOrdId
  pendingPrice : o'.pendingPrice = o.pendingPrice
  pendingQty : o'.pendingQty = o.pendingQty
  cum : o'.cumQty ≤ max o.cumQty reported

theorem cumMoved_absorbCum (s : Oms) (h : Nat) (o : Order) (reported : Qty) (u : OmsUpdate) :
    CumMoved o (s.absorbCum h o reported u).2.1 reported := by
  have hle : absorbedCum o reported ≤ reported := clip_le o.qty reported
  unfold absorbCum
  rw [show (if o.qty < reported then o.qty else reported) = absorbedCum o reported from rfl]
  dsimp only
  split
  · exact ⟨rfl, rfl, rfl, rfl, rfl, rfl, le_max_left _ _⟩
  · exact ⟨rfl, rfl, rfl, rfl, rfl, rfl, hle.trans (le_max_right _ _)⟩

/-- The handler of an open order. -/
theorem withOrder_opened {id : ClientOrderId} (hf : s.ids.find id = some (.opened h))
    (ho : s.get h = some o) (closed : OmsUpdate → Oms × OmsUpdate)
    (opened : Nat → Order → OmsUpdate → Oms × OmsUpdate) :
    s.withOrder id {} closed opened =
      opened h o { known := true, handle := some h, prev := o.state } := by
  unfold withOrder Oms.lookup
  rw [hf]
  dsimp only
  rw [ho]

variable {u : OmsUpdate}

section

variable (hm : v.Matches o) (ho : s.get h = some o)
include hm ho

theorem hear_ack {m : OrderAckMsg}
    (hv : v.hear (.ack m) = some v') :
    ∃ o', (s.onAckOpen m h o u).1.get h = some o' ∧ v'.Matches o' := by
  have hphase := hm.phase
  unfold PhaseMatches at hphase
  simp only [hear] at hv
  -- an ack that is not awaited changes no order
  have hsame : ∀ st, o.state = st → st ≠ .pendingNew → st ≠ .pendingReplace →
      (s.onAckOpen m h o u).1.get h = some o := by
    intro st hst hnew hrep
    unfold onAckOpen
    rw [hst]
    cases st <;> first
      | exact absurd rfl hnew
      | exact absurd rfl hrep
      | (dsimp only; split <;> exact ho)
  cases hp : v.phase with
  | fresh =>
    rw [hp] at hv hphase
    dsimp only at hv hphase
    split at hv
    · rename_i hid
      obtain rfl := Option.some.inj hv
      unfold onAckOpen
      rw [hphase]
      refine ⟨_, get_setOrder_self ho _, hm.id, hm.price, hm.qty, hm.cum, hm.room, rfl, ?_⟩
      exact hm.oldGone.trans (by rw [hp]; rfl)
    · nomatch hv
  | working =>
    rw [hp] at hv hphase
    dsimp only at hv hphase
    split at hv
    · obtain rfl := Option.some.inj hv
      refine ⟨o, hsame _ rfl ?_ ?_, hm⟩
      · intro hst
        rw [Order.isWorking, hst] at hphase
        exact absurd hphase (by decide)
      · intro hst
        rw [Order.isWorking, hst] at hphase
        exact absurd hphase (by decide)
    · nomatch hv
  | cancelling =>
    rw [hp] at hv hphase
    dsimp only at hv hphase
    split at hv
    · obtain rfl := Option.some.inj hv
      exact ⟨o, hsame _ hphase (by decide) (by decide), hm⟩
    · nomatch hv
  | replacing newId px qty gone =>
    rw [hp] at hv hphase
    dsimp only at hv hphase
    obtain ⟨hst, hnew, hpx, hqty, hne⟩ := hphase
    unfold onAckOpen
    rw [hst]
    split at hv
    · rename_i hid
      rw [if_pos (hid.trans hnew.symm)]
      split at hv
      · rename_i hroom
        obtain rfl := Option.some.inj hv
        have hrekey : decide (o.pendingClOrdId ≠ o.clOrdId) = true := by
          rw [decide_eq_true_eq, hnew, hm.id]
          exact hne
        rw [hrekey]
        refine ⟨_, get_setOrder_self (applyReplace_get ho u true _) _, hnew, hpx, hqty, ?_,
          hroom, replacedOrder_isWorking o true _, rfl⟩
        have hcum := hm.cum
        show (replacedOrder o true (true && !m.amendedInPlace)).cumQty ≤ v.carried m
        unfold replacedOrder carried
        cases m.amendedInPlace with
        | true =>
          simp only [Bool.not_true, Bool.and_false, Bool.false_eq_true, if_false, if_true]
          exact (clip_le _ _).trans hcum
        | false =>
          simp only [Bool.not_false, Bool.and_true, if_true, Bool.false_eq_true, if_false]
          exact clip_le _ _
      · nomatch hv
    · rename_i hid
      split at hv
      · obtain rfl := Option.some.inj hv
        rw [if_neg (fun h => hid (h.trans hnew))]
        exact ⟨o, ho, hm⟩
      · nomatch hv

theorem hear_reject {m : OrderRejectMsg}
    (hv : v.hear (.reject m) = some v') :
    ∃ o', (s.onRejectOpen m h o u).1.get h = some o' ∧ v'.Matches o' := by
  have hphase := hm.phase
  have hgone := hm.oldGone
  unfold PhaseMatches at hphase
  simp only [hear] at hv
  split at hv
  · rename_i newId px qty hp
    rw [hp] at hphase hgone
    obtain ⟨hst, hnew, _, _, _⟩ := hphase
    split at hv
    · rename_i hid
      obtain rfl := Option.some.inj hv
      have hold : o.flags.replaceOldCanceled = false := hgone
      unfold onRejectOpen
      rw [if_neg (by rw [hst]; decide), if_pos ⟨hst, hid.trans hnew.symm⟩, hold]
      have hclear := (clearPending_get ho h).trans (if_pos rfl)
      refine ⟨_, get_setOrder_self hclear _, hm.id, hm.price, hm.qty, hm.cum, hm.room, ?_, rfl⟩
      exact workingState_isWorking _
    · nomatch hv
  · nomatch hv

theorem hear_cancelReject {m : OrderCancelRejectMsg}
    (hv : v.hear (.cancelReject m) = some v') :
    ∃ o', (s.onCancelRejectOpen m h o u).1.get h = some o' ∧ v'.Matches o' := by
  have hphase := hm.phase
  have hgone := hm.oldGone
  unfold PhaseMatches at hphase
  simp only [hear] at hv
  split at hv
  · rename_i hp
    rw [hp] at hphase hgone
    split at hv
    · rename_i hid
      obtain rfl := Option.some.inj hv
      unfold onCancelRejectOpen
      rw [if_neg (not_not.mpr hphase), if_neg hid.2]
      refine ⟨_, get_setOrder_self ho _, hm.id, hm.price, hm.qty, hm.cum, hm.room, ?_, hgone⟩
      exact workingState_isWorking o
    · nomatch hv
  · nomatch hv

theorem hear_cancelAck {m : OrderCancelAckMsg}
    (hv : v.hear (.cancelAck m) = some v') :
    ∃ o', (s.onCancelAckOpen m h o u).1.get h = some o' ∧ v'.Matches o' := by
  have hphase := hm.phase
  unfold PhaseMatches at hphase
  simp only [hear] at hv
  split at hv
  · rename_i newId px qty hp
    rw [hp] at hphase
    obtain ⟨hst, hnew, hpx, hqty, hne⟩ := hphase
    split at hv
    · rename_i hid
      obtain rfl := Option.some.inj hv
      obtain ⟨hget, hstate⟩ := absorbCum_get ho m.cumQty u
      have hkept := cumMoved_absorbCum s h o m.cumQty u
      unfold onCancelAckOpen
      dsimp only
      generalize s.absorbCum h o m.cumQty u = r at *
      rw [if_pos ⟨hstate.trans hst, hid.1.trans (hkept.clOrdId.trans hm.id).symm⟩]
      refine ⟨_, get_setOrder_self hget _, hkept.clOrdId.trans hm.id,
        hkept.price.trans hm.price, hkept.qty.trans hm.qty, ?_, hm.room,
        ⟨hstate.trans hst, hkept.pendingClOrdId.trans hnew, hkept.pendingPrice.trans hpx,
          hkept.pendingQty.trans hqty, hne⟩, rfl⟩
      exact hkept.cum.trans (max_le hm.cum hid.2)
    · nomatch hv
  · nomatch hv

end

/-! ## Fills -/

/-- What an order counts as filled after an execution is at most what the venue says. -/
theorem filledCum_le {m : OrderFillMsg} {corrected c : Qty} (hcum : o.cumQty ≤ c)
    (hcorr : 0 ≤ corrected) (hqty : 0 < m.qty) (hsaid : m.cumQty = 0 ∨ m.cumQty = c + m.qty) :
    filledCum m o corrected ≤ c + m.qty := by
  have hstep : ∀ a : Int, a ≤ c + m.qty → (if a < o.cumQty then o.cumQty else a) ≤ c + m.qty := by
    intro a ha
    split
    · linarith
    · exact ha
  refine (clip_le _ _).trans (hstep _ ?_)
  split_ifs with hpos
  · rcases hsaid with hzero | hsaid
    · rw [hzero] at hpos
      exact absurd hpos (by decide)
    · exact hsaid.le
  · linarith

/-- An estimate gives up a quantity, it takes none back. -/
theorem takeNamed_corrected {m : OrderFillMsg} (hqty : 0 < m.qty) (hu : 0 ≤ u.correctedQty)
    (handle : Handle) : 0 ≤ (s.takeNamed m handle u).2.correctedQty := by
  have htaken : ∀ (e : Estimate) (q : Qty), 0 < e.qty → 0 < q → 0 ≤ takenQty e q := by
    intro e q he hq
    unfold takenQty
    split
    · exact hq.le
    · exact he.le
  have hnamed : ∀ ended booked q, namedQty m ended booked = some q → 0 < q := by
    intro ended booked q hq
    unfold namedQty at hq
    dsimp only at hq
    split at hq
    · split at hq
      · exact lt_of_lt_of_eq hqty (Option.some.inj hq)
      split at hq
      · rename_i hpos
        exact lt_of_lt_of_eq hpos (Option.some.inj hq)
      · nomatch hq
    · split at hq
      · exact lt_of_lt_of_eq hqty (Option.some.inj hq)
      · nomatch hq
  unfold takeNamed takeSynthetic
  dsimp only
  split
  · split
    · rename_i q hq
      split
      · split_ifs with he
        · exact htaken _ _ he (hnamed _ _ _ hq)
        · exact hu
      · split
        · split_ifs with he
          · exact htaken _ _ he (hnamed _ _ _ hq)
          · exact hu
        · exact hu
    · exact hu
  · exact hu

theorem hear_fillOpen {m : OrderFillMsg} (hm : v.Matches o) (ho : s.get h = some o)
    (hcorr : 0 ≤ u.correctedQty) (hv : v.hear (.fill m) = some v') :
    ∃ o', (s.onFillOpen m h o u).1.get h = some o' ∧ v'.Matches o' := by
  simp only [hear] at hv
  split at hv
  · rename_i hsays
    obtain ⟨hphase, -, hqty, hroom, hsaid⟩ := hsays
    obtain rfl := Option.some.inj hv
    have hcum := filledCum_le hm.cum hcorr hqty hsaid
    have hopen : ¬ o.qty ≤ filledCum m o u.correctedQty := by
      rw [hm.qty]
      exact not_le.mpr (hcum.trans_lt hroom)
    unfold onFillOpen
    rw [if_neg hopen]
    refine ⟨_, get_setOrder_self (get_setOrder_self ho _) _, hm.id, hm.price, hm.qty, hcum,
      hroom, ?_, hm.oldGone⟩
    have hwait := hm.phase
    unfold PhaseMatches at hwait ⊢
    cases hp : v.phase with
    | fresh => exact absurd hp hphase
    | working =>
      rw [hp] at hwait
      unfold Order.isWorking
      dsimp only
      split
      · rfl
      · exact hwait
    | cancelling =>
      rw [hp] at hwait
      dsimp only at hwait ⊢
      rw [hwait, if_neg (by decide)]
    | replacing newId px qty gone =>
      rw [hp] at hwait
      dsimp only at hwait ⊢
      rw [hwait.1, if_neg (by decide)]
      exact ⟨rfl, hwait.2⟩
  · nomatch hv

/-! ## Every message -/

theorem onFillNew_opened {m : OrderFillMsg} (hf : s.ids.find m.clOrdId = some (.opened h))
    (ho : s.get h = some o) (hqty : 0 < m.qty) (hu : u.correctedQty = 0) :
    ∃ (s₁ : Oms) (u₁ : OmsUpdate), s₁.get h = some o ∧ 0 ≤ u₁.correctedQty ∧
      s.onFillNew m u = s₁.onFillOpen m h o u₁ := by
  have hlook : s.lookup m.clOrdId u = (some h, { u with known := true, handle := some h }) := by
    unfold Oms.lookup
    rw [hf]
  have hcorr := takeNamed_corrected (s := s) (u := { u with known := true, handle := some h }) hqty
    hu.ge (some h)
  have hget := (takeNamed_get s m (some h) { u with known := true, handle := some h }).1
  unfold onFillNew
  rw [hlook]
  dsimp only
  generalize s.takeNamed m (some h) { u with known := true, handle := some h } = r at *
  have hcount : (r.1.withStats fun st => { st with fills := st.fills + 1 }).get h = some o :=
    (congrFun hget h).trans ho
  rw [hcount]
  exact ⟨_, { r.2 with prev := o.state }, hcount, hcorr, rfl⟩

/-- A message names the order or the replacement it waits for.  The view keeps its id and its price,
or is the replacement's from now on. -/
theorem hear_cases (hv : v.hear m = some v') :
    (m.clOrdId = v.id ∨ ∃ px qty gone, v.phase = .replacing m.clOrdId px qty gone) ∧
      ((v'.id = v.id ∧ v'.price = v.price ∧ (v'.phase = .working ∨ v'.phase = v.phase ∨
          ∃ newId px qty, v.phase = .replacing newId px qty false ∧
            v'.phase = .replacing newId px qty true)) ∨
        (v'.phase = .working ∧ ∃ qty gone, v.phase = .replacing v'.id v'.price qty gone)) := by
  cases m with
  | expired m => exact absurd hv (by simp [hear])
  | openOrder m => exact absurd hv (by simp [hear])
  | _ m =>
    simp only [hear] at hv
    simp only [Msg.clOrdId]
    grind

/-- What holds of the ids of a view holds of the ids of the message it hears, and of the view
after it. -/
theorem hear_within {p : ClientOrderId → Prop} (hin : v.Within p) (hv : v.hear m = some v') :
    p m.clOrdId ∧ v'.Within p := by
  obtain ⟨hnamed, hview⟩ := hear_cases hv
  refine ⟨?_, ?_, fun newId px qty gone hp => ?_⟩
  · rcases hnamed with hid | ⟨px, qty, gone, hp⟩
    · exact hid ▸ hin.1
    · exact (hin.2 _ _ _ _ hp).1
  · rcases hview with ⟨hid, _⟩ | ⟨_, qty, gone, hp⟩
    · exact hid ▸ hin.1
    · exact (hin.2 _ _ _ _ hp).1
  rcases hview with ⟨hid, _, hw | hsame | ⟨n, p, q, hold, hnew⟩⟩ | ⟨hw, _⟩
  · cases hw.symm.trans hp
  · exact hid ▸ hin.2 _ _ _ _ (hsame ▸ hp)
  · cases hnew.symm.trans hp
    exact hid ▸ hin.2 _ _ _ _ hold
  · cases hw.symm.trans hp

theorem Matches.within (hm : v.Matches o) : v.Within (Oms.Names o) := by
  have hphase := hm.phase
  unfold PhaseMatches at hphase
  refine ⟨.inl hm.id, fun newId px qty gone hp => ?_⟩
  rw [hp] at hphase
  exact ⟨.inr ⟨hphase.1, hphase.2.1⟩, hphase.2.2.2.2⟩

/-- The order management follows an honest venue. -/
theorem hear_matches (hok : Oms.IdsOk s) (hm : v.Matches o) (ho : s.get h = some o)
    (hv : v.hear m = some v') :
    ∃ o', (s.receive m).1.get h = some o' ∧ v'.Matches o' := by
  have hf := hok.names h o m.clOrdId ho (hear_within hm.within hv).1
  cases m with
  | ack m =>
    have heq : s.receive (.ack m) = _ := withOrder_opened hf ho _ _
    rw [heq]
    exact hear_ack hm ho hv
  | reject m =>
    have heq : s.receive (.reject m) = _ := withOrder_opened hf ho _ _
    rw [heq]
    exact hear_reject hm ho hv
  | cancelAck m =>
    have heq : s.receive (.cancelAck m) = _ := withOrder_opened hf ho _ _
    rw [heq]
    exact hear_cancelAck hm ho hv
  | cancelReject m =>
    have heq : s.receive (.cancelReject m) = _ := withOrder_opened hf ho _ _
    rw [heq]
    exact hear_cancelReject hm ho hv
  | fill m =>
    have hsays := hv
    simp only [hear] at hsays
    split at hsays
    · rename_i hs
      show ∃ o', (s.onFill m).1.get h = some o' ∧ _
      rw [onFill_eq]
      split
      · -- taken for a repeat: the order counts less than the venue
        obtain rfl := Option.some.inj hsays
        refine ⟨o, ?_, hm.id, hm.price, hm.qty, hm.cum.trans ?_, hs.2.2.2.1, hm.phase, hm.oldGone⟩
        · exact (heard_get s (.fill m) h).trans ho
        · linarith [hs.2.2.1]
      have hget : (s.remembered m).get h = some o := (heard_get s (.fill m) h).trans ho
      have hf' : (s.remembered m).ids.find m.clOrdId = some (.opened h) := by
        obtain ⟨seen, hseen⟩ := s.heard_eq (.fill m)
        show (s.heard (.fill m)).ids.find m.clOrdId = some (.opened h)
        rw [hseen]
        exact hf
      obtain ⟨s₁, u₁, hget₁, hcorr, heq⟩ :=
        onFillNew_opened (u := { fillQty := m.qty, fillPx := m.price }) hf' hget hs.2.2.1 rfl
      rw [heq]
      exact hear_fillOpen hm hget₁ hcorr hv
    · nomatch hsays
  | expired m => exact absurd hv (by simp [hear])
  | openOrder m => exact absurd hv (by simp [hear])

end LaneView

end FastMM
