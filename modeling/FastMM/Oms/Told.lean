/-
  Oms/Told.lean --- what a handler tells of the order it handled.

  A message names at most one open order.  Its handler leaves every other order as it
  is, and the update it returns says what became of this one: it ended, and its slot
  is free, or it goes on, and the update carries its slot and the order as it stands.
  An order keeps its instrument, its side and its tag.
-/
import FastMM.Oms.Edits
set_option autoImplicit false

namespace FastMM

/-- What an order keeps for life. -/
def Order.identity (o : Order) : InstrumentId × Side × Nat := (o.instrument, o.side, o.userTag)

namespace Oms

variable {s s' : Oms} {h : Nat} {o : Order} {u : OmsUpdate} {c : Prop}

/-- How an answer moves the state of an order that goes on: it stays, or the order works,
which one whose cancel is pending does only under `c`. -/
def Moves (c : Prop) (o o' : Order) : Prop :=
  o'.state = o.state ∨
    (o'.isWorking = true ∧ (o.isWorking = true ∨ o.state = .pendingNew ∨
      o.state = .pendingReplace ∨ (o.state = .pendingCancel ∧ c)))

/-- The answer `r` to a message that names the open order `o` in slot `h`. -/
structure Told (s : Oms) (h : Nat) (o : Order) (u : OmsUpdate) (c : Prop) (r : Oms × OmsUpdate) :
    Prop where
  others : ∀ k, k ≠ h → r.1.get k = s.get k
  prev : r.2.prev = u.prev
  outcome : (r.2.terminal = true ∧ r.1.get h = none) ∨
    (r.2.terminal = false ∧ r.2.handle = some h ∧ r.1.get h = some r.2.order ∧
      r.2.order.identity = o.identity ∧ Moves c o r.2.order)

/-- The other slots are as they were, and this one still holds an order. -/
structure Near (s : Oms) (h : Nat) (s' : Oms) : Prop where
  others : ∀ k, k ≠ h → s'.get k = s.get k
  live : ∃ x, s'.get h = some x

theorem Near.of_get {x : Order} (hget : ∀ k, s'.get k = if k = h then some x else s.get k) :
    Near s h s' := by
  constructor
  · intro k hk
    rw [hget, if_neg hk]
  · exact ⟨x, by rw [hget, if_pos rfl]⟩

theorem Near.setOrder (ho : s.get h = some o) (o' : Order) : Near s h (s.setOrder h o') :=
  .of_get (get_setOrder ho o')

theorem Near.trans {s'' : Oms} (h₁ : Near s h s') (h₂ : Near s' h s'') : Near s h s'' :=
  ⟨fun k hk => (h₂.others k hk).trans (h₁.others k hk), h₂.live⟩

theorem Near.refl (ho : s.get h = some o) : Near s h s := ⟨fun _ _ => rfl, o, ho⟩

/-- What else changes does not matter. -/
theorem Near.of_slots {s'' : Oms} (hn : Near s h s') (hslots : s''.pool.slots = s'.pool.slots) :
    Near s h s'' := by
  have hget : ∀ k, s''.get k = s'.get k := congrFun hslots
  obtain ⟨x, hx⟩ := hn.live
  exact ⟨fun k hk => (hget k).trans (hn.others k hk), x, (hget h).trans hx⟩

theorem rememberTerminal_prev (s : Oms) (r : TerminalRecord) (u : OmsUpdate) :
    (s.rememberTerminal r u).2.prev = u.prev ∧
      (s.rememberTerminal r u).2.terminal = u.terminal := by
  obtain ⟨_, _, h⟩ := s.rememberTerminal_snd u r
  rw [h]
  exact ⟨rfl, rfl⟩

theorem terminate_snd (s : Oms) (u : OmsUpdate) (h : Nat) (o : Order) (st : OrderState)
    (br : Bool) :
    (s.terminate u h o st br).2.prev = u.prev ∧ (s.terminate u h o st br).2.terminal = true := by
  unfold terminate
  simp only [apply_ite Prod.snd, ite_self]
  exact ⟨(rememberTerminal_prev _ _ _).1, trivial⟩

/-- The slots after an end. -/
theorem terminate_get (hn : Near s h s') (u : OmsUpdate) (o' : Order) (st : OrderState)
    (br : Bool) :
    (s'.terminate u h o' st br).1.get h = none ∧
      ∀ k, k ≠ h → (s'.terminate u h o' st br).1.get k = s.get k := by
  obtain ⟨x, hx⟩ := hn.live
  have hfree := Pool.slots_free (p := s'.pool) hx
  have hget : ∀ k, (s'.terminate u h o' st br).1.get k = (s'.pool.free h).slots k := by
    intro k
    rw [terminate_fst]
    split <;> rfl
  constructor
  · rw [hget, hfree, if_pos rfl]
  · intro k hk
    rw [hget, hfree, if_neg hk]
    exact hn.others k hk

theorem Told.terminate (hn : Near s h s') {u' : OmsUpdate} (hprev : u'.prev = u.prev) (o' : Order)
    (st : OrderState) (br : Bool) : Told s h o u c (s'.terminate u' h o' st br) := by
  obtain ⟨hp, ht⟩ := terminate_snd s' u' h o' st br
  obtain ⟨hnone, hothers⟩ := terminate_get hn u' o' st br
  exact ⟨hothers, hp.trans hprev, .inl ⟨ht, hnone⟩⟩

theorem Told.finish (hn : Near s h s') {u' : OmsUpdate} {o' : Order} (hprev : u'.prev = u.prev)
    (hterm : u'.terminal = false) (hget : s'.get h = some o') (hid : o'.identity = o.identity)
    (hmoves : Moves c o o') : Told s h o u c (s', s'.finishUpdate h o' u') :=
  ⟨hn.others, hprev, .inr ⟨hterm, rfl, hget, hid, hmoves⟩⟩

theorem workingState_isWorking (o : Order) :
    ({ o with state := workingState o } : Order).isWorking = true := by
  unfold workingState Order.isWorking
  split <;> rfl

/-- An order that was not working, nor waiting for a cancel, and works. -/
theorem Moves.works {o' : Order} (hw : o'.isWorking = true)
    (hst : o.state = .pendingNew ∨ o.state = .pendingReplace) : Moves c o o' :=
  .inr ⟨hw, .inr (hst.imp id .inl)⟩

/-! ## The parts -/

theorem near_applyReplace (ho : s.get h = some o) (u : OmsUpdate) (rekey newVenueOrder : Bool) :
    ∀ k, (s.applyReplace u h o rekey newVenueOrder).1.get k =
      if k = h then some (replacedOrder o rekey newVenueOrder) else s.get k := by
  intro k
  have hget := get_setOrder ho (replacedOrder o rekey newVenueOrder) k
  rw [applyReplace_fst]
  split
  · exact hget
  · split <;> exact hget

theorem applyReplace_snd (s : Oms) (u : OmsUpdate) (h : Nat) (o : Order)
    (rekey newVenueOrder : Bool) :
    (s.applyReplace u h o rekey newVenueOrder).2.2.prev = u.prev ∧
      (s.applyReplace u h o rekey newVenueOrder).2.2.terminal = u.terminal := by
  unfold applyReplace
  dsimp only
  split
  · exact rememberTerminal_prev (s.addOpenQty o.instrument o.side (-o.leavesQty))
      (recordOf o (if o.qty ≤ o.cumQty then .filled else .canceled) false (s.estimates h)) u
  · exact ⟨rfl, rfl⟩

/-- An order that absorbed a quantity, its slot and the update. -/
theorem absorbCum_near (ho : s.get h = some o) (reported : Qty) (u : OmsUpdate) :
    Near s h (s.absorbCum h o reported u).1 ∧
      (s.absorbCum h o reported u).1.get h = some (s.absorbCum h o reported u).2.1 ∧
      (s.absorbCum h o reported u).2.1.identity = o.identity ∧
      (s.absorbCum h o reported u).2.2.prev = u.prev ∧
      (s.absorbCum h o reported u).2.2.terminal = u.terminal := by
  have hget := (absorbCum_get ho reported u).1
  refine ⟨⟨?_, _, hget⟩, hget, ?_⟩
  · intro k hk
    rw [absorbCum_fst]
    split
    · rfl
    · exact (get_setOrder ho _ k).trans (if_neg hk)
  · unfold absorbCum
    rw [show (if o.qty < reported then o.qty else reported) = absorbedCum o reported from rfl]
    dsimp only
    split <;> exact ⟨rfl, rfl, rfl⟩

theorem clearPending_get (ho : s.get h = some o) (k : Nat) :
    (s.clearPending h o).1.get k = if k = h then some (clearedOrder o) else s.get k := by
  rw [clearPending_fst]
  exact get_setOrder ho (clearedOrder o) k

/-! ## The handlers -/

section Handlers

variable (ho : s.get h = some o) (hu : u.terminal = false)

include ho hu

theorem onAckOpen_told (m : OrderAckMsg) : Told s h o u c (s.onAckOpen m h o u) := by
  unfold onAckOpen
  cases hst : o.state with
  | pendingNew =>
    refine Told.finish ?_ rfl hu ?_ rfl (Moves.works rfl (.inl hst))
    · exact (Near.setOrder ho _).of_slots rfl
    · exact get_setOrder_self ho _
  | pendingReplace =>
    dsimp only
    by_cases hid : m.clOrdId = o.pendingClOrdId
    · rw [if_pos hid]
      generalize decide (o.pendingClOrdId ≠ o.clOrdId) = rekey
      generalize (rekey && !m.amendedInPlace) = newVenueOrder
      have hget := near_applyReplace ho u rekey newVenueOrder
      obtain ⟨hprev, hterm⟩ := applyReplace_snd s u h o rekey newVenueOrder
      have horder := applyReplace_order s u h o rekey newVenueOrder
      generalize s.applyReplace u h o rekey newVenueOrder = r at *
      have hr := hget h
      rw [if_pos rfl] at hr
      have hn := (Near.of_get hget).trans
        (Near.setOrder hr { r.2.1 with venueOrderId := m.venueOrderId })
      refine Told.finish ?_ ?_ ?_ ?_ ?_ (Moves.works ?_ (.inr hst))
      · exact hn.of_slots rfl
      · split <;> exact hprev
      · split <;> exact hterm.trans hu
      · exact get_setOrder_self hr _
      · rw [horder]
        rfl
      · rw [horder]
        exact replacedOrder_isWorking o rekey newVenueOrder
    · rw [if_neg hid]
      exact Told.finish (Near.refl ho) rfl hu ho rfl (.inl rfl)
  | _ =>
    refine Told.finish ?_ rfl hu ?_ rfl (.inl rfl)
    · split <;> exact (Near.refl ho).of_slots rfl
    · split <;> exact ho

theorem onRejectOpen_told (m : OrderRejectMsg) : Told s h o u c (s.onRejectOpen m h o u) := by
  unfold onRejectOpen
  split
  · refine Told.terminate ?_ ?_ _ _ _
    · exact (Near.refl ho).of_slots rfl
    · rfl
  split
  · rename_i hrep
    have hget := clearPending_get ho
    have hh : (s.clearPending h o).1.get h = some (clearedOrder o) := by rw [hget, if_pos rfl]
    split
    · refine Told.terminate (Near.of_get hget) ?_ _ _ _
      rfl
    · exact Told.finish ((Near.of_get hget).trans (Near.setOrder hh _)) rfl hu
        (get_setOrder_self hh _) rfl (Moves.works (workingState_isWorking _) (.inr hrep.1))
  · exact Told.finish (Near.refl ho) rfl hu ho rfl (.inl rfl)

theorem onCancelAckOpen_told (m : OrderCancelAckMsg) :
    Told s h o u c (s.onCancelAckOpen m h o u) := by
  obtain ⟨_, hstate⟩ := absorbCum_get ho m.cumQty u
  obtain ⟨hn, hget, hid, hprev, hterm⟩ := absorbCum_near ho m.cumQty u
  unfold onCancelAckOpen
  dsimp only
  generalize s.absorbCum h o m.cumQty u = r at *
  split
  · exact Told.finish (hn.trans (Near.setOrder hget _)) hprev (hterm.trans hu)
      (get_setOrder_self hget _) hid (.inl hstate)
  split
  · refine Told.terminate ?_ hprev _ _ _
    exact hn.of_slots rfl
  split
  · refine Told.terminate ?_ hprev _ _ _
    exact hn.of_slots rfl
  · exact Told.terminate hn hprev _ _ _

theorem onCancelRejectOpen_told (m : OrderCancelRejectMsg) :
    Told s h o u (m.reason ≠ .venueUnknownOrder) (s.onCancelRejectOpen m h o u) := by
  unfold onCancelRejectOpen
  split
  · exact Told.finish (Near.refl ho) rfl hu ho rfl (.inl rfl)
  rename_i hpend
  split_ifs with hreason
  · exact Told.terminate (Near.refl ho) rfl _ _ _
  have hmoves : Moves (m.reason ≠ .venueUnknownOrder) o
      { o with state := workingState o, cancelAttempts := o.cancelAttempts + 1 } :=
    .inr ⟨workingState_isWorking o, .inr (.inr (.inr ⟨not_not.mp hpend, hreason⟩))⟩
  refine Told.finish (Near.setOrder ho _) ?_ ?_ (get_setOrder_self ho _) rfl hmoves
  · split <;> rfl
  · split <;> exact hu

omit hu in
theorem onExpiredOpen_told (m : OrderExpiredMsg) : Told s h o u c (s.onExpiredOpen m h o u) := by
  obtain ⟨hn, -, -, hprev, -⟩ := absorbCum_near ho m.cumQty u
  unfold onExpiredOpen
  dsimp only
  generalize s.absorbCum h o m.cumQty u = r at *
  split
  · refine Told.terminate ?_ hprev _ _ _
    exact hn.of_slots rfl
  · refine Told.terminate ?_ hprev _ _ _
    exact hn.of_slots rfl

theorem onFillOpen_told (m : OrderFillMsg) : Told s h o u c (s.onFillOpen m h o u) := by
  have hb : (s.addOpenQty o.instrument o.side (-(filledCum m o u.correctedQty - o.cumQty))).get h =
      some o := ho
  have hset : ∀ x, Near s h ((s.addOpenQty o.instrument o.side
      (-(filledCum m o u.correctedQty - o.cumQty))).setOrder h x) :=
    fun x => .of_get (get_setOrder hb x)
  unfold onFillOpen
  dsimp only
  split
  · refine Told.terminate ?_ ?_ _ _ _
    · exact (hset _).of_slots rfl
    · rfl
  have hget := get_setOrder_self hb { o with
    cumQty := filledCum m o u.correctedQty
    venueOrderId := if o.venueOrderId.empty then m.venueOrderId else o.venueOrderId }
  refine Told.finish ((hset _).trans (Near.setOrder hget _)) rfl hu
    (get_setOrder_self hget _) rfl ?_
  unfold Moves Order.isWorking
  dsimp only
  split_ifs with hst
  · rcases hst with hst | hst
    · rw [hst]
      exact .inr ⟨rfl, .inl rfl⟩
    · exact .inr ⟨rfl, .inr (.inl hst)⟩
  · exact .inl rfl

theorem reconcileOpenOrderOpen_told (m : ReconcileMsg) :
    Told s h o u c (s.reconcileOpenOrderOpen m h o u) := by
  unfold reconcileOpenOrderOpen
  dsimp only
  generalize hx : ({ o with
    flags := { o.flags with seenInReconcile := true, reconciled := true }
    venueOrderId :=
      if !o.venueOrderId.empty || !m.venueOrderId.empty then m.venueOrderId
      else o.venueOrderId } : Order) = x
  have hxid : x.identity = o.identity := by rw [← hx]; rfl
  have hxst : x.state = o.state := by rw [← hx]
  obtain ⟨_, hstate⟩ := absorbCum_get (get_setOrder_self ho x) m.cumQty u
  obtain ⟨hn, hget, hid, hprev, hterm⟩ := absorbCum_near (get_setOrder_self ho x) m.cumQty u
  have hn' := (Near.setOrder ho x).trans hn
  generalize (s.setOrder h x).absorbCum h x m.cumQty u = r at *
  split_ifs with hnew
  · refine Told.finish (hn'.trans (Near.setOrder hget _)) hprev (hterm.trans hu)
      (get_setOrder_self hget _) (hid.trans hxid) (Moves.works (workingState_isWorking _) (.inl ?_))
    rw [← hxst, ← hstate, hnew]
  · exact Told.finish hn' hprev (hterm.trans hu) hget (hid.trans hxid) (.inl (hstate.trans hxst))

end Handlers

/-! ## Messages -/

/-- An answer that tells of an open order, or leaves every order as it is. -/
def Answer (s : Oms) (c : Nat → Prop) (r : Oms × OmsUpdate) : Prop :=
  (∃ h o u, s.get h = some o ∧ u.prev = o.state ∧ Told s h o u (c h) r) ∨
    ∀ k, r.1.get k = s.get k

/-- The message refuses the cancel of the order in slot `h`, which the venue still has. -/
def Refused (s : Oms) (m : Msg) (h : Nat) : Prop :=
  ∃ m', m = .cancelReject m' ∧ s.openHandle m'.clOrdId = some h ∧ m'.reason ≠ .venueUnknownOrder

theorem withOrder_told (id : ClientOrderId) (u : OmsUpdate) (hu : u.terminal = false)
    {closed : OmsUpdate → Oms × OmsUpdate} {opened : Nat → Order → OmsUpdate → Oms × OmsUpdate}
    {c : Nat → Prop} (hclosed : ∀ u k, (closed u).1.get k = s.get k)
    (hopened : ∀ h o u, s.openHandle id = some h → s.get h = some o → u.terminal = false →
      Told s h o u (c h) (opened h o u)) :
    Answer s c (s.withOrder id u closed opened) := by
  unfold openHandle at hopened
  unfold withOrder lookup
  cases hf : s.ids.find id with
  | none => exact .inr (hclosed _)
  | some ref =>
    cases ref with
    | opened h =>
      dsimp only
      cases ho : s.get h with
      | none => exact .inr fun _ => rfl
      | some o =>
        rw [hf] at hopened
        exact .inl ⟨h, o, _, ho, rfl, hopened h o _ rfl ho hu⟩
    | terminal v =>
      cases s.findTerminal id <;> exact .inr (hclosed _)

theorem takeNamed_get (s : Oms) (m : OrderFillMsg) (h : Handle) (u : OmsUpdate) :
    (s.takeNamed m h u).1.get = s.get ∧ (s.takeNamed m h u).2.terminal = u.terminal ∧
      (s.takeNamed m h u).2.known = u.known := by
  unfold takeNamed takeSynthetic
  split
  · dsimp only
    split
    · split
      · split <;> exact ⟨rfl, rfl, rfl⟩
      · split
        · split <;> exact ⟨rfl, rfl, rfl⟩
        · exact ⟨rfl, rfl, rfl⟩
    · exact ⟨rfl, rfl, rfl⟩
  · exact ⟨rfl, rfl, rfl⟩

theorem lateFill_get (s : Oms) (m : OrderFillMsg) (u : OmsUpdate) (k : Nat) :
    (s.lateFill m u).1.get k = s.get k := by
  unfold lateFill
  split
  · rfl
  · dsimp only
    split <;> rfl

theorem Answer.congr {s₁ : Oms} {c : Nat → Prop} {r : Oms × OmsUpdate} (hs : s₁.get = s.get)
    (h : Answer s₁ c r) : Answer s c r := by
  rcases h with ⟨h, o, u, ho, hu, ht⟩ | hq
  · have hothers : ∀ k, k ≠ h → r.1.get k = s.get k :=
      fun k hk => (ht.others k hk).trans (congrFun hs k)
    exact .inl ⟨h, o, u, (congrFun hs h).symm.trans ho, hu, hothers, ht.prev, ht.outcome⟩
  · exact .inr fun k => (hq k).trans (congrFun hs k)

theorem onFillNew_told (m : OrderFillMsg) (hu : u.terminal = false) (c : Nat → Prop) :
    Answer s c (s.onFillNew m u) := by
  have hterm : (s.lookup m.clOrdId u).2.terminal = u.terminal := by
    unfold lookup
    split
    · rfl
    · rfl
    · split <;> rfl
  unfold onFillNew
  dsimp only
  generalize s.lookup m.clOrdId u = l at *
  obtain ⟨hget, hterm', _⟩ := takeNamed_get s m l.1 l.2
  generalize s.takeNamed m l.1 l.2 = r at *
  cases l.1 with
  | none =>
    refine .inr fun k => ?_
    dsimp only
    split
    · exact (lateFill_get _ m _ k).trans (congrFun hget k)
    · exact congrFun hget k
  | some h =>
    dsimp only
    cases ho : (r.1.withStats fun st => { st with fills := st.fills + 1 }).get h with
    | none => exact .inr fun k => congrFun hget k
    | some o =>
      have hcount : (r.1.withStats fun st => { st with fills := st.fills + 1 }).get = s.get := hget
      refine Answer.congr hcount (.inl ⟨h, o, { r.2 with prev := o.state }, ho, rfl, ?_⟩)
      have hopen : ({ r.2 with prev := o.state } : OmsUpdate).terminal = false :=
        hterm'.trans (hterm.trans hu)
      exact onFillOpen_told ho hopen m

/-- What a message does to the orders, and what its update says of it. -/
theorem receive_told (s : Oms) (m : Msg) : Answer s (s.Refused m) (s.receive m) := by
  cases m with
  | ack m =>
    refine withOrder_told m.clOrdId {} rfl ?_ fun h o u _ ho hu => onAckOpen_told ho hu m
    intro u k
    unfold onAckClosed
    split
    · rfl
    · split <;> rfl
  | reject m =>
    exact withOrder_told m.clOrdId {} rfl (fun _ _ => rfl) fun h o u _ ho hu =>
      onRejectOpen_told ho hu m
  | cancelAck m =>
    exact withOrder_told m.clOrdId {} rfl (fun _ _ => rfl) fun h o u _ ho hu =>
      onCancelAckOpen_told ho hu m
  | cancelReject m =>
    refine withOrder_told m.clOrdId {} rfl (fun _ _ => rfl) fun h o u hid ho hu => ?_
    have ht := onCancelRejectOpen_told ho hu m
    refine ⟨ht.others, ht.prev, ht.outcome.imp id fun hout => ?_⟩
    refine ⟨hout.1, hout.2.1, hout.2.2.1, hout.2.2.2.1, hout.2.2.2.2.imp id fun hmove => ?_⟩
    exact ⟨hmove.1, hmove.2.imp id fun h => h.imp id fun h => h.imp id fun h =>
      ⟨h.1, m, rfl, hid, h.2⟩⟩
  | fill m =>
    show Answer s _ (s.onFill m)
    rw [onFill_eq]
    have hget : (s.remembered m).get = s.get := by
      unfold remembered
      split <;> rfl
    split
    · exact .inr fun k => congrFun hget k
    · exact Answer.congr hget (onFillNew_told m rfl _)
  | expired m =>
    exact withOrder_told m.clOrdId {} rfl (fun _ _ => rfl) fun h o u _ ho _ =>
      onExpiredOpen_told ho m
  | openOrder m =>
    exact withOrder_told m.clOrdId {} rfl (fun _ _ => rfl) fun h o u _ ho hu =>
      reconcileOpenOrderOpen_told ho hu m

/-- What a message brings to work is what its update says, and it was in flight. -/
theorem came_to_work {m : Msg} (hget : (s.receive m).1.get h = some o) (hwork : o.isWorking = true)
    (hnew : ∀ o₀, s.get h = some o₀ → o₀.isWorking = false) :
    (s.receive m).2.terminal = false ∧ (s.receive m).2.handle = some h ∧
      (s.receive m).2.order = o ∧ ∃ o₀, s.get h = some o₀ ∧ (s.receive m).2.prev = o₀.state ∧
        (o₀.state = .pendingNew ∨ o₀.state = .pendingReplace ∨
          (o₀.state = .pendingCancel ∧ s.Refused m h)) := by
  have hchanged : (s.receive m).1.get h ≠ s.get h := by
    intro hsame
    rw [hget] at hsame
    simp [hnew o hsame.symm] at hwork
  rcases receive_told s m with ⟨k, o₀, u, hk, hprev, ht⟩ | hsame
  · have hkh : k = h := by
      by_contra hne
      exact hchanged (ht.others h (Ne.symm hne))
    subst hkh
    rcases ht.outcome with ⟨_, hnone⟩ | ⟨hterm, hhandle, hsome, _, hmoves⟩
    · exact absurd (hnone.symm.trans hget) (by simp)
    obtain rfl := Option.some.inj (hsome.symm.trans hget)
    refine ⟨hterm, hhandle, rfl, o₀, hk, ht.prev.trans hprev, ?_⟩
    have hidle := hnew o₀ hk
    rcases hmoves with hst | ⟨_, hfrom⟩
    · unfold Order.isWorking at hwork hidle
      simp [hst, hidle] at hwork
    · rcases hfrom with hworked | hpending
      · exact absurd (hidle.symm.trans hworked) (by simp)
      · exact hpending
  · exact absurd (hsame h) hchanged

theorem opened_of_openHandle {id : ClientOrderId} (hid : s.openHandle id = some h) :
    s.ids.find id = some (.opened h) := by
  unfold openHandle at hid
  split at hid
  · rename_i hf
    rw [hf]
    exact congrArg (fun k => some (IdRef.opened k)) (Option.some.inj hid)
  · nomatch hid

/-- An order whose cancel is refused works again. -/
theorem refused_works {m : Msg} (hr : s.Refused m h) (hget : s.get h = some o)
    (hst : o.state = .pendingCancel) :
    ∃ o', (s.receive m).1.get h = some o' ∧ o'.isWorking = true ∧ o'.identity = o.identity ∧
      (s.receive m).2.terminal = false ∧ (s.receive m).2.handle = some h ∧
      (s.receive m).2.order = o' ∧ (s.receive m).2.prev = .pendingCancel := by
  obtain ⟨m', rfl, hid, hreason⟩ := hr
  have heq : s.receive (.cancelReject m') = s.onCancelRejectOpen m' h o
      { known := true, handle := some h, prev := o.state } := by
    show s.withOrder m'.clOrdId {} _ _ = _
    unfold withOrder lookup
    rw [opened_of_openHandle hid]
    dsimp only
    rw [hget]
  rw [heq]
  unfold onCancelRejectOpen
  rw [if_neg (not_not.mpr hst), if_neg hreason]
  dsimp only
  refine ⟨_, get_setOrder_self hget _, workingState_isWorking o, rfl, ?_, rfl, rfl, ?_⟩
  · unfold finishUpdate
    split <;> rfl
  · unfold finishUpdate
    split <;> exact hst

/-! ## What brings nothing -/

/-- How an order may stand after an operation that is no answer of the venue. -/
def Waits (o o' : Order) : Prop := o'.state = o.state ∨ o'.state = .pendingCancel

/-- Every order is one there was, and none has come to work. -/
def Calm (s s' : Oms) : Prop :=
  ∀ k o', s'.get k = some o' → ∃ o, s.get k = some o ∧ o'.identity = o.identity ∧ Waits o o'

theorem Calm.refl (s : Oms) : Calm s s := fun _ o' ho => ⟨o', ho, rfl, .inl rfl⟩

theorem Calm.of_get (hget : ∀ k, s'.get k = s.get k) : Calm s s' :=
  fun k o' ho => ⟨o', (hget k).symm.trans ho, rfl, .inl rfl⟩

theorem Calm.trans {s'' : Oms} (h₁ : Calm s s') (h₂ : Calm s' s'') : Calm s s'' := by
  intro k x hx
  obtain ⟨y, hy, hid, hw⟩ := h₂ k x hx
  obtain ⟨z, hz, hid', hw'⟩ := h₁ k y hy
  refine ⟨z, hz, hid.trans hid', ?_⟩
  rcases hw with hst | hst
  · unfold Waits at hw' ⊢
    rw [hst]
    exact hw'
  · exact .inr hst

theorem Calm.setOrder (ho : s.get h = some o) {o' : Order} (hid : o'.identity = o.identity)
    (hw : Waits o o') : Calm s (s.setOrder h o') := by
  intro k x hx
  rw [get_setOrder ho] at hx
  split_ifs at hx with hk
  · obtain rfl := Option.some.inj hx
    exact ⟨o, hk ▸ ho, hid, hw⟩
  · exact ⟨x, hx, rfl, .inl rfl⟩

theorem calm_requestCancel (s : Oms) (h : Nat) : Calm s (s.requestCancel h).1 := by
  unfold requestCancel
  cases ho : s.get h with
  | none => exact Calm.refl s
  | some o =>
    dsimp only
    split
    · exact Calm.setOrder ho rfl (.inr rfl)
    · exact Calm.refl s

theorem calm_requestCancelUnacked (s : Oms) (h : Nat) : Calm s (s.requestCancelUnacked h).1 := by
  unfold requestCancelUnacked
  cases ho : s.get h with
  | none => exact Calm.refl s
  | some o =>
    dsimp only
    split
    · exact Calm.setOrder ho rfl (.inr rfl)
    · exact Calm.refl s

/-- Every order is one there was. -/
def Familiar (s s' : Oms) : Prop :=
  ∀ k o', s'.get k = some o' → ∃ o, s.get k = some o ∧ o'.identity = o.identity

theorem Calm.kept (h : Calm s s') : Familiar s s' := fun k o' ho => by
  obtain ⟨o, hget, hid, _⟩ := h k o' ho
  exact ⟨o, hget, hid⟩

theorem familiar_requestReplace (s : Oms) (h : Nat) (newId : ClientOrderId) (px : Price)
    (qty : Qty) (now : Timestamp) : Familiar s (s.requestReplace h newId px qty now).1 := by
  rcases requestReplace_cases s h newId px qty now with ⟨o, _, ho, _, ids, _, hs'⟩ | ⟨_, hs'⟩
  · rw [hs']
    intro k x hx
    have hset := get_setOrder ho (pendingOrder o newId px qty) k
    have hx : (s.setOrder h (pendingOrder o newId px qty)).get k = some x := hx
    rw [hset] at hx
    split_ifs at hx with hk
    · obtain rfl := Option.some.inj hx
      exact ⟨o, hk ▸ ho, rfl⟩
    · exact ⟨x, hx, rfl⟩
  · rw [hs']
    exact (Calm.refl s).kept

/-- `request_cancel` and `request_replace` concern one order, and none where they fail. -/
theorem requestCancel_others (s : Oms) (h : Nat) :
    ∀ k, k ≠ h → (s.requestCancel h).1.get k = s.get k := by
  intro k hk
  unfold requestCancel
  cases ho : s.get h with
  | none => rfl
  | some o =>
    dsimp only
    split
    · rw [get_setOrder ho, if_neg hk]
    · rfl

theorem requestReplace_others (s : Oms) (h : Nat) (newId : ClientOrderId) (px : Price) (qty : Qty)
    (now : Timestamp) : ∀ k, k ≠ h → (s.requestReplace h newId px qty now).1.get k = s.get k := by
  intro k hk
  rcases requestReplace_cases s h newId px qty now with ⟨o, _, ho, _, ids, _, hs'⟩ | ⟨_, hs'⟩
  · rw [hs']
    have hset := get_setOrder ho (pendingOrder o newId px qty) k
    rw [if_neg hk] at hset
    exact hset
  · rw [hs']

theorem requestCancel_error {e : RejectReason} (h' : Nat)
    (he : (s.requestCancel h').2 = .error e) : (s.requestCancel h').1 = s := by
  unfold requestCancel at he ⊢
  split
  · rfl
  rename_i o ho
  rw [ho] at he
  dsimp only at he
  split_ifs with hw
  · simp [if_pos hw] at he
  · rfl

theorem calm_clearSeen (venue : VenueId) (s : Oms) (h : Nat) : Calm s (clearSeen venue s h) := by
  unfold clearSeen
  cases ho : s.get h with
  | none => exact Calm.refl s
  | some o =>
    dsimp only
    split
    · exact Calm.setOrder ho rfl (.inl rfl)
    · exact Calm.refl s

theorem calm_reconcileBegin (s : Oms) (venue : VenueId) (wm : Option ClientOrderId) :
    Calm s (s.reconcileBegin venue wm) := by
  have hfold : ∀ (hs : List Nat) (s' : Oms), Calm s s' →
    Calm s (hs.foldl (clearSeen venue) s') := by
    intro hs
    induction hs with
    | nil => exact fun _ h => h
    | cons h rest ih => exact fun s' hs' => ih _ (hs'.trans (calm_clearSeen venue s' h))
  exact hfold _ _ (Calm.of_get fun _ => rfl)

theorem calm_reconcileEndOne {u : OmsUpdate} (hone : s.reconcileEndOne h = some (s', u)) :
    Calm s s' := by
  unfold reconcileEndOne at hone
  cases ho : s.get h with
  | none =>
    simp [ho] at hone
  | some o =>
    rw [ho] at hone
    simp only [Option.some.injEq] at hone
    have hs' : s' = _ := (congrArg Prod.fst hone).symm
    intro k x hx
    have hends : ∀ (s₁ : Oms) (u₁ : OmsUpdate) (o₁ : Order), s₁.get = s.get →
        (s₁.terminate u₁ h o₁ .canceled true).1.get k = some x → s.get k = some x := by
      intro s₁ u₁ o₁ hget hx
      obtain ⟨hnone, hothers⟩ := terminate_get
        ((Near.refl ho).of_slots hget) u₁ o₁ .canceled true
      by_cases hk : k = h
      · simp [hk, hnone] at hx
      · rw [← hothers k hk]
        exact hx
    refine ⟨x, ?_, rfl, .inl rfl⟩
    rw [hs'] at hx
    split at hx
    · refine hends _ _ _ ?_ hx
      rfl
    · refine hends _ _ _ ?_ hx
      rfl

/-- A message brings no order. -/
theorem kept_receive (s : Oms) (m : Msg) : Familiar s (s.receive m).1 := by
  intro k o' ho
  rcases receive_told s m with ⟨h, o, u, hget, _, ht⟩ | hsame
  · by_cases hk : k = h
    · subst hk
      rcases ht.outcome with ⟨_, hnone⟩ | ⟨_, _, hsome, hid, _⟩
      · exact absurd (hnone.symm.trans ho) (by simp)
      · obtain rfl := Option.some.inj (hsome.symm.trans ho)
        exact ⟨o, hget, hid⟩
    · exact ⟨o', (ht.others k hk).symm.trans ho, rfl⟩
  · exact ⟨o', (hsame k).symm.trans ho, rfl⟩

/-- `submit` fills a slot that was free, or leaves every order as it is. -/
theorem submit_get (s : Oms) (req : NewOrderRequest) (id : ClientOrderId) (now : Timestamp) :
    (∃ h, (s.submit req id now).2 = .ok h ∧ s.get h = none ∧
      ∀ k, (s.submit req id now).1.get k =
        if k = h then some (submittedOrder req id now) else s.get k) ∨
      ((∃ e, (s.submit req id now).2 = .error e) ∧
        ∀ k, (s.submit req id now).1.get k = s.get k) := by
  rcases submit_cases s req id now with ⟨h, hok, _, _, pool, ids, halloc, _, hs'⟩ | ⟨herr, hq⟩
  · refine .inl ⟨h, hok, (Pool.allocate_spec halloc).1, fun k => ?_⟩
    rw [hs', ← get_submitted ids (submittedOrder req id now) now halloc k]
    split <;> rfl
  · exact .inr ⟨herr, congrFun hq.slots⟩

end Oms

end FastMM
