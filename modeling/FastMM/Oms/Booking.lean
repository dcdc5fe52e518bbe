/-
  Oms/Booking.lean --- what a message about an order does to its ledger.

  One statement per message: the ledger it leaves, as a function of the ledger it
  found, and the quantity it books.  The proofs go through the handlers once; the
  interleavings of `Oms/Executions.lean` and `Oms/ReplaceLegs.lean` are then about
  ledgers only.
-/
import FastMM.Oms.Ledger
set_option autoImplicit false

namespace FastMM

/-- The quantity an update books for its order: a fill that is no duplicate books
what it does not correct, and a missed quantity is booked as it is found. -/
def OmsUpdate.booked (u : OmsUpdate) : Qty :=
  (if u.action = .duplicate then 0 else u.fillQty - u.correctedQty) + u.missedQty

/-- An update that has no quantity yet. -/
structure OmsUpdate.Blank (u : OmsUpdate) : Prop where
  fillQty : u.fillQty = 0
  correctedQty : u.correctedQty = 0
  missedQty : u.missedQty = 0

theorem OmsUpdate.Blank.booked {u : OmsUpdate} (hu : u.Blank) : u.booked = 0 := by
  unfold OmsUpdate.booked
  rw [hu.fillQty, hu.correctedQty, hu.missedQty]
  split <;> rfl

/-- Whatever the update says of the action, it books nothing. -/
theorem OmsUpdate.Blank.with_action {u : OmsUpdate} (hu : u.Blank) (a : OmsAction) :
    ({ u with action := a } : OmsUpdate).Blank := ⟨hu.fillQty, hu.correctedQty, hu.missedQty⟩

namespace Oms

/-! ## Ledgers after a message -/

variable (L : Ledger)

/-- The part of the estimate an execution names. -/
def Ledger.named (m : OrderFillMsg) : Qty :=
  if 0 < L.est then
    match namedQty m L.ended L.cum with
    | some q => min q L.est
    | none => 0
  else 0

/-- The cumulative quantity after an execution. -/
def Ledger.filledTo (m : OrderFillMsg) : Qty :=
  max L.cum (min L.qty (if 0 < m.cumQty then m.cumQty else L.cum + (m.qty - L.named m)))

/-- The cumulative quantity after a report: an ended order takes none. -/
def Ledger.reportedTo (reported : Qty) : Qty :=
  if L.ended then L.cum else max L.cum (min L.qty reported)

/-- The ledger after a message that leaves this cumulative quantity and this
estimate. -/
structure Ledger.Moved (L : Ledger) (cum est : Qty) (L' : Ledger) : Prop where
  qty : L'.qty = L.qty
  cum : L'.cum = cum
  est : L'.est = est
  /-- Only an order whose quantity is reached ends as Filled. -/
  filled : L'.filled = true → L.filled = true ∨ L'.qty ≤ L'.cum
  own : L'.own = L.own
  pending : L'.pending = if L'.ended then none else L.pending
  ended : L.ended = true → L'.ended = true

/-- A message that counts nothing. -/
abbrev Ledger.Settled (L L' : Ledger) : Prop := L.Moved L.cum L.est L'

theorem Ledger.Settled.refl {L : Ledger} (h : L.ended = true → L.pending = none) :
    L.Settled L where
  qty := rfl
  cum := rfl
  est := rfl
  filled := Or.inl
  own := rfl
  pending := by
    split
    · exact h ‹_›
    · rfl
  ended := id

/-! ## The booked quantity -/

theorem rememberTerminal_booked (s : Oms) (r : TerminalRecord) (u : OmsUpdate) :
    (s.rememberTerminal r u).2.booked = u.booked := by
  obtain ⟨_, _, h⟩ := s.rememberTerminal_snd u r
  rw [h]
  rfl

/-- An end books nothing. -/
theorem terminate_booked (s : Oms) (u : OmsUpdate) (h : Nat) (o : Order) (st : OrderState)
    (br : Bool) : (s.terminate u h o st br).2.booked = u.booked := by
  unfold terminate
  simp only [apply_ite Prod.snd, ite_self]
  exact rememberTerminal_booked _ _ u

/-! ## Reports -/

section Reports

variable {s : Oms} {h : Nat} {o : Order} {id : ClientOrderId}
variable {u : OmsUpdate}
variable (m : OrderFillMsg)
variable {L : Ledger}
variable {p : Oms × Order × OmsUpdate}
variable {c : Qty}
variable {o' : Order}

/-- What `absorb_cum` leaves. -/
structure Absorbed (s : Oms) (h : Nat) (o : Order) (c : Qty) (u : OmsUpdate)
    (p : Oms × Order × OmsUpdate) : Prop where
  ids : p.1.ids = s.ids
  get : p.1.get h = some p.2.1
  order : p.2.1 = { o with cumQty := max o.cumQty (min o.qty c) }
  est : (p.1.estimates h).qty = (s.estimates h).qty + (max o.cumQty (min o.qty c) - o.cumQty)
  booked : p.2.2.booked = u.booked + (max o.cumQty (min o.qty c) - o.cumQty)

theorem absorbCum_spec (ho : s.get h = some o) (c : Qty) (u : OmsUpdate) :
    Absorbed s h o c u (s.absorbCum h o c u) := by
  have hcum : absorbedCum o c = min o.qty c := by
    unfold absorbedCum
    split
    · rw [min_eq_left (le_of_lt ‹_›)]
    · rw [min_eq_right (not_lt.mp ‹_›)]
  have hfst := absorbCum_fst s h o c u
  obtain ⟨hget, _⟩ := absorbCum_get ho c u
  by_cases hle : absorbedCum o c ≤ o.cumQty
  · have hmax : max o.cumQty (min o.qty c) = o.cumQty := by
      rw [← hcum]
      exact max_eq_left hle
    have hp : s.absorbCum h o c u = (s, o, u) := by
      exact if_pos hle
    rw [hp]
    refine ⟨rfl, ho, ?_, ?_, ?_⟩
    · rw [hmax]
    · rw [hmax, sub_self, add_zero]
    · rw [hmax, sub_self, add_zero]
  · have hmax : max o.cumQty (min o.qty c) = absorbedCum o c := by
      rw [← hcum]
      exact max_eq_right (le_of_not_ge hle)
    have hsnd : (s.absorbCum h o c u).2 = ({ o with cumQty := absorbedCum o c },
        { u with missedQty := u.missedQty + (absorbedCum o c - o.cumQty), changed := true }) := by
      exact congrArg Prod.snd (if_neg hle)
    rw [if_neg hle] at hfst
    refine ⟨?_, hget, ?_, ?_, ?_⟩
    · rw [hfst]
      rfl
    · rw [hsnd, hmax]
    · have hest : (s.absorbed h o c).estimates h =
          ⟨(s.estimates h).qty + (absorbedCum o c - o.cumQty), o.price⟩ :=
        Function.update_self _ _ _
      rw [hfst, hmax, hest]
    · rw [hsnd, hmax]
      simp only [OmsUpdate.booked]
      ring

/-- An order still open. -/
theorem openLedger_moved (hqty : o'.qty = o.qty) (hid : o'.clOrdId = o.clOrdId)
    (hpend : pendingLeg o' = pendingLeg o) (e e' : Estimate) (id : ClientOrderId) :
    (openLedger o e id).Moved o'.cumQty e'.qty (openLedger o' e' id) where
  qty := hqty
  cum := rfl
  est := rfl
  filled := fun hc => absurd hc (by simp [openLedger])
  own := by
    unfold openLedger
    rw [hid]
  pending := hpend
  ended := fun hc => absurd hc (by simp [openLedger])

/-- An order that ends. -/
theorem recordLedger_moved (hqty : o'.qty = o.qty) (hid : o.clOrdId = id)
    (st : OrderState) (br : Bool) (hst : st = .filled → o'.qty ≤ o'.cumQty) (e e' : Estimate) :
    (openLedger o e id).Moved o'.cumQty e'.qty (recordLedger (recordOf o' st br e')) where
  qty := hqty
  cum := rfl
  est := rfl
  filled := fun hc => Or.inr (hst (by simpa [recordLedger, recordOf] using hc))
  own := by simp [openLedger, recordLedger, hid]
  pending := rfl
  ended := fun _ => rfl

theorem Absorbed.count
    (habs : Absorbed s h o c u p) (f : OmsStats → OmsStats) :
    Absorbed s h o c u (p.1.withStats f, p.2) :=
  ⟨habs.ids, habs.get, habs.order, habs.est, habs.booked⟩

/-- An order that ends takes its replacement's id with it. -/
def DropsPending (id : ClientOrderId) (L L' : Ledger) (s' : Oms) : Prop :=
  ∀ b q, L.pending = some (b, q) → b ≠ id → L'.ended = true → s'.ids.find b = none

theorem DropsPending.of_open {L L' : Ledger} {s' : Oms} (hopen : L'.ended = false) :
    DropsPending id L L' s' := by
  intro b q _ _ hend
  simp [hopen] at hend

theorem DropsPending.of_idle {L L' : Ledger} {s' : Oms} (hidle : L.pending = none) :
    DropsPending id L L' s' := by
  intro b q hpend _ _
  simp [hidle] at hpend

/-- A report that takes effect: what it leaves, and what it books. -/
def ReportSpec (id : ClientOrderId) (c : Qty) (L : Ledger) (p : Oms × OmsUpdate) : Prop :=
  ∃ L', p.1.ledger id = some L' ∧
    L.Moved (L.reportedTo c) (L.est + (L.reportedTo c - L.cum)) L' ∧
    DropsPending id L L' p.1 ∧ p.2.booked = L.reportedTo c - L.cum

/-- The order with a report absorbed ends. -/
theorem Absorbed.finish
    (habs : Absorbed s h o c u p) (hok : IdsOk p.1) (hid : o.clOrdId = id) (u' : OmsUpdate)
    (o' : Order) (hterms : SameTerms p.2.1 o') (st : OrderState)
    (hst : st = .filled → p.2.1.qty ≤ p.2.1.cumQty) (hu : u'.booked = p.2.2.booked)
    (hzero : u.booked = 0) :
    ReportSpec id c (openLedger o (s.estimates h) id) (p.1.terminate u' h o' st) := by
  have hclOrdId : p.2.1.clOrdId = id := by
    rw [habs.order]
    exact hid
  have hqty : p.2.1.qty = o.qty := by rw [habs.order]
  have hcum : p.2.1.cumQty = max o.cumQty (min o.qty c) := by rw [habs.order]
  have hled := ledger_terminate hok habs.get hterms u' st false
  have hmoved := recordLedger_moved (hterms.qty.trans hqty) hid st false
    (fun hf => by rw [hterms.qty, hterms.cumQty]; exact hst hf) (s.estimates h) (p.1.estimates h)
  rw [hclOrdId] at hled
  rw [hterms.cumQty, hcum, habs.est] at hmoved
  refine ⟨_, hled, hmoved, ?_, ?_⟩
  · intro b q hpend hne _
    have hleg : pendingLeg p.2.1 = some (b, q) := by
      rw [habs.order]
      exact hpend
    exact find_pending_terminate hok habs.get hterms hleg (hclOrdId.symm ▸ hne) u' st false
  · rw [terminate_booked, hu, habs.booked, hzero, zero_add]
    rfl

/-- The order with a report absorbed stays open. -/
theorem Absorbed.keep
    (habs : Absorbed s h o c u p) (hf : s.ids.find id = some (.opened h)) (o' : Order)
    (hterms : SameTerms p.2.1 o')
    (hpend : o'.state = .pendingReplace ↔ p.2.1.state = .pendingReplace) :
    ∃ L', (p.1.setOrder h o').ledger id = some L' ∧
      (openLedger o (s.estimates h) id).Moved (max o.cumQty (min o.qty c))
        ((s.estimates h).qty + (max o.cumQty (min o.qty c) - o.cumQty)) L' ∧ L'.ended = false := by
  have hqty : p.2.1.qty = o.qty := by rw [habs.order]
  have hcum : p.2.1.cumQty = max o.cumQty (min o.qty c) := by rw [habs.order]
  have hclOrdId : p.2.1.clOrdId = o.clOrdId := by rw [habs.order]
  have hfind : p.1.ids.find id = some (.opened h) := by
    rw [habs.ids]
    exact hf
  have hleg : pendingLeg o' = pendingLeg o := by
    rw [pendingLeg_touch hterms hpend, habs.order]
    rfl
  have hmoved := openLedger_moved (hterms.qty.trans hqty) (hterms.clOrdId.trans hclOrdId) hleg
    (s.estimates h) (p.1.estimates h) id
  rw [hterms.cumQty, hcum, habs.est] at hmoved
  exact ⟨_, ledger_setOrder habs.get hfind, hmoved, rfl⟩

theorem onCancelAckOpen_spec (hok : IdsOk s) (ho : s.get h = some o) (m : OrderCancelAckMsg)
    (hf : s.ids.find id = some (.opened h)) (hid : o.clOrdId = id)
    (hu : u.booked = 0) :
    ReportSpec id m.cumQty (openLedger o (s.estimates h) id) (s.onCancelAckOpen m h o u) := by
  have habs := absorbCum_spec ho m.cumQty u
  have hok' := hok.edit (Edit.absorb m.cumQty u ho)
  unfold onCancelAckOpen ReportSpec
  generalize s.absorbCum h o m.cumQty u = p at habs hok'
  obtain ⟨s₁, o₁, u₁⟩ := p
  have hbooked : u₁.booked = max o.cumQty (min o.qty m.cumQty) - o.cumQty := by
    have := habs.booked
    rw [hu, zero_add] at this
    exact this
  have hstate : o₁.state = o.state := by
    have := habs.order
    simp only at this
    rw [this]
  simp only
  split
  · obtain ⟨L', hl, hm, hopen⟩ := habs.keep hf
      { o₁ with flags := { o₁.flags with replaceOldCanceled := true } }
      (by constructor <;> rfl) (by simp [hstate])
    exact ⟨L', hl, hm, DropsPending.of_open hopen, hbooked⟩
  split
  · rename_i hfull
    exact (habs.count _).finish (hok'.of_eq rfl rfl rfl) hid u₁ o₁ (SameTerms.refl o₁) .filled
      (fun _ => hfull) rfl hu
  split
  · exact (habs.count _).finish (hok'.of_eq rfl rfl rfl) hid u₁
      { o₁ with flags := { o₁.flags with unsolicitedCancel := true } }
      (by constructor <;> rfl) .canceled (nofun) rfl hu
  · exact habs.finish hok' hid u₁ o₁ (SameTerms.refl o₁) .canceled
      (nofun) rfl hu

theorem onExpiredOpen_spec (hok : IdsOk s) (ho : s.get h = some o) (m : OrderExpiredMsg)
    (hid : o.clOrdId = id) (hu : u.booked = 0) :
    ReportSpec id m.cumQty (openLedger o (s.estimates h) id) (s.onExpiredOpen m h o u) := by
  have habs := absorbCum_spec ho m.cumQty u
  have hok' := hok.edit (Edit.absorb m.cumQty u ho)
  unfold onExpiredOpen ReportSpec
  generalize s.absorbCum h o m.cumQty u = p at habs hok'
  obtain ⟨s₁, o₁, u₁⟩ := p
  simp only
  split_ifs with hfull
  · exact (habs.count _).finish (hok'.of_eq rfl rfl rfl) hid u₁ o₁ (SameTerms.refl o₁) .filled
      (fun _ => hfull) rfl hu
  · exact (habs.count _).finish (hok'.of_eq rfl rfl rfl) hid u₁ o₁ (SameTerms.refl o₁) .expired
      (nofun) rfl hu

theorem reconcileOpenOrderOpen_spec (ho : s.get h = some o) (m : ReconcileMsg)
    (hf : s.ids.find id = some (.opened h)) (hu : u.booked = 0) :
    ReportSpec id m.cumQty (openLedger o (s.estimates h) id)
      (s.reconcileOpenOrderOpen m h o u) := by
  unfold reconcileOpenOrderOpen ReportSpec
  simp only
  generalize ho' : { o with
    flags := { o.flags with seenInReconcile := true, reconciled := true }
    venueOrderId :=
      if !o.venueOrderId.empty || !m.venueOrderId.empty then m.venueOrderId
      else o.venueOrderId } = o'
  have hterms : SameTerms o o' := by
    rw [← ho']
    constructor <;> rfl
  have hstate : o'.state = o.state := by rw [← ho']
  have hled : openLedger o' (s.estimates h) id = openLedger o (s.estimates h) id :=
    openLedger_touch hterms (by rw [hstate]) _ _
  have habs := absorbCum_spec (get_setOrder_self ho o') m.cumQty u
  rw [← hled]
  generalize (s.setOrder h o').absorbCum h o' m.cumQty u = p at habs
  obtain ⟨s₁, o₁, u₁⟩ := p
  have hbooked : u₁.booked = max o'.cumQty (min o'.qty m.cumQty) - o'.cumQty := by
    have := habs.booked
    rw [hu, zero_add] at this
    exact this
  have hstate₁ : o₁.state = o'.state := by
    have := habs.order
    simp only at this
    rw [this]
  simp only
  split_ifs with hnew
  · obtain ⟨L', hl, hm, hopen⟩ := habs.keep hf { o₁ with state := workingState o₁ }
      (by constructor <;> rfl) (by simp [hnew, workingState_ne_pendingReplace])
    exact ⟨L', hl, hm, DropsPending.of_open hopen, hbooked⟩
  obtain ⟨L', hl, hm, hopen⟩ := habs.keep hf o₁ (SameTerms.refl o₁) (by rw [hstate₁])
  refine ⟨L', ?_, hm, DropsPending.of_open hopen, hbooked⟩
  rw [← hl]
  have hsame : s₁.setOrder h o₁ = s₁ := by
    unfold setOrder
    rw [Pool.set_self habs.get]
  rw [hsame]

/-- The cases of a message about a known order. -/
theorem withOrder_spec (hl : s.ledger id = some L)
    (hown : L.own = true) {closed : OmsUpdate → Oms × OmsUpdate}
    {opened : Nat → Order → OmsUpdate → Oms × OmsUpdate} (Q : Oms × OmsUpdate → Prop)
    (hclosed : ∀ u : OmsUpdate, u.Blank → L.ended = true → L.pending = none → Q (closed u))
    (hopened : ∀ h o (u : OmsUpdate), s.ids.find id = some (.opened h) → s.get h = some o →
      o.clOrdId = id → L = openLedger o (s.estimates h) id → u.Blank → Q (opened h o u)) :
    Q (s.withOrder id {} closed opened) := by
  unfold withOrder lookup
  rcases ledger_cases hl with ⟨h, o, hf, ho, hL⟩ | ⟨v, r, hf, hr, hL⟩
  · simp only [hf, ho]
    refine hopened h o _ hf ho ?_ hL ⟨rfl, rfl, rfl⟩
    rw [hL] at hown
    simpa [openLedger] using hown
  · simp only [hf, hr]
    rw [hL] at hclosed
    exact hclosed _ ⟨rfl, rfl, rfl⟩ rfl rfl

/-- A report about an ended order says nothing new. -/
theorem ReportSpec.of_ended {p : Oms × OmsUpdate}
    (hl : p.1.ledger id = some L) (hend : L.ended = true) (hrep : L.pending = none)
    (hb : p.2.booked = 0) : ReportSpec id c L p := by
  have hto : L.reportedTo c = L.cum := if_pos hend
  refine ⟨L, hl, ?_, DropsPending.of_idle hrep, ?_⟩
  · rw [hto, sub_self, add_zero]
    exact Ledger.Settled.refl fun _ => hrep
  · rw [hto, sub_self]
    exact hb

/-- The cumulative quantity a message reports. -/
def Msg.reported : Msg → Option Qty
  | .cancelAck m => some m.cumQty
  | .expired m => some m.cumQty
  | .openOrder m => some m.cumQty
  | _ => none

theorem withOrder_report {s' : Oms} {a : OmsAction} (hl : s.ledger id = some L)
    (hown : L.own = true) (hs : s'.ledger id = s.ledger id)
    {opened : Nat → Order → OmsUpdate → Oms × OmsUpdate}
    (hopened : ∀ h o (u : OmsUpdate), s.ids.find id = some (.opened h) → s.get h = some o →
      o.clOrdId = id → u.booked = 0 →
      ReportSpec id c (openLedger o (s.estimates h) id) (opened h o u)) :
    ReportSpec id c L (s.withOrder id {} (fun u => (s', { u with action := a })) opened) := by
  refine withOrder_spec hl hown (ReportSpec id c L) ?_ ?_
  · intro u hu hend hrep
    exact ReportSpec.of_ended (hs.trans hl) hend hrep (hu.with_action _).booked
  · rintro h o u hf ho hid rfl hu
    exact hopened h o u hf ho hid hu.booked

/-- A report about a known order. -/
theorem receive_report {m : Msg} (hok : IdsOk s) (hc : m.reported = some c)
    (hl : s.ledger m.clOrdId = some L) (hown : L.own = true) :
    ReportSpec m.clOrdId c L (s.receive m) := by
  cases m with
  | cancelAck m =>
    obtain rfl : m.cumQty = c := Option.some.inj hc
    exact withOrder_report hl hown rfl fun h o u hf ho hid => onCancelAckOpen_spec hok ho m hf hid
  | expired m =>
    obtain rfl : m.cumQty = c := Option.some.inj hc
    exact withOrder_report hl hown rfl fun h o u _ ho hid => onExpiredOpen_spec hok ho m hid
  | openOrder m =>
    obtain rfl : m.cumQty = c := Option.some.inj hc
    exact withOrder_report hl hown (by rfl) fun h o u hf ho _ => reconcileOpenOrderOpen_spec ho m hf
  | ack m => exact absurd hc (by simp [Msg.reported])
  | reject m => exact absurd hc (by simp [Msg.reported])
  | cancelReject m => exact absurd hc (by simp [Msg.reported])
  | fill m => exact absurd hc (by simp [Msg.reported])

/-! ## Messages that count nothing -/

/-- A message that answers a request. -/
def Msg.answers : Msg → Bool
  | .ack _ => true
  | .reject _ => true
  | .cancelReject _ => true
  | _ => false

/-- What an answer leaves: the order's quantities, open or ended, and no booking. -/
def AnswerSpec (id : ClientOrderId) (L : Ledger) (p : Oms × OmsUpdate) : Prop :=
  ∃ L', p.1.ledger id = some L' ∧ L.Settled L' ∧ p.2.booked = 0

theorem AnswerSpec.of_same {p : Oms × OmsUpdate} (hl : p.1.ledger id = some L)
    (hrep : L.pending = none) (hb : p.2.booked = 0) : AnswerSpec id L p :=
  ⟨L, hl, Ledger.Settled.refl fun _ => hrep, hb⟩

theorem AnswerSpec.of_touch (o' : Order) {p : Oms × OmsUpdate}
    (hf : s.ids.find id = some (.opened h)) (hterms : SameTerms o o')
    (hpend : o'.state = .pendingReplace ↔ o.state = .pendingReplace)
    (hp : p.1.ids = s.ids ∧ p.1.get h = some o' ∧ p.1.estimates = s.estimates)
    (hb : p.2.booked = 0) : AnswerSpec id (openLedger o (s.estimates h) id) p := by
  obtain ⟨hids, hget, hest⟩ := hp
  have hl := ledger_opened (s := p.1) (by rw [hids]; exact hf) hget
  refine ⟨_, hl, ?_, hb⟩
  have hmoved := openLedger_moved hterms.qty hterms.clOrdId (pendingLeg_touch hterms hpend)
    (s.estimates h) (p.1.estimates h) id
  rw [hterms.cumQty, hest] at hmoved
  rw [hest]
  exact hmoved

theorem AnswerSpec.of_finish (hok : IdsOk s) (ho : s.get h = some o)
    (hid : o.clOrdId = id) (hterms : SameTerms o o') (f : OmsStats → OmsStats) (u : OmsUpdate)
    (st : OrderState) (hst : st ≠ .filled) (hu : u.booked = 0) :
    AnswerSpec id (openLedger o (s.estimates h) id) ((s.withStats f).terminate u h o' st) := by
  have hok' : IdsOk (s.withStats f) := hok.of_eq rfl rfl rfl
  have hl := ledger_terminate hok' (s := s.withStats f) ho hterms u st false
  rw [hid] at hl
  refine ⟨_, hl, ?_, (terminate_booked _ u h o' st false).trans hu⟩
  have hmoved := recordLedger_moved hterms.qty hid st false (fun hc => absurd hc hst)
    (s.estimates h) (s.estimates h)
  rw [hterms.cumQty] at hmoved
  exact hmoved

theorem onAckOpen_spec (ho : s.get h = some o) (m : OrderAckMsg)
    (hf : s.ids.find id = some (.opened h)) (hst : o.state ≠ .pendingReplace)
    (hu : u.Blank) :
    AnswerSpec id (openLedger o (s.estimates h) id) (s.onAckOpen m h o u) := by
  have hdup : AnswerSpec id (openLedger o (s.estimates h) id)
      (let t := s.times h
      let s :=
        if m.clOrdId = o.clOrdId ∧ t.t.venueAck = 0 then
          s.setTimes h { t with t := { t.t with venueAck := m.hdr.exchTs } }
        else s
      (s, s.finishUpdate h o { u with action := .ignored })) := by
    refine AnswerSpec.of_touch o hf (SameTerms.refl o) Iff.rfl ?_ (hu.with_action .ignored).booked
    simp only
    split
    · exact ⟨rfl, ho, rfl⟩
    · exact ⟨rfl, ho, rfl⟩
  unfold onAckOpen
  cases hs : o.state with
  | pendingNew =>
    refine AnswerSpec.of_touch { o with state := .live, venueOrderId := m.venueOrderId } hf
      (by constructor <;> rfl) (by simp [hs]) ?_ hu.booked
    exact ⟨rfl, get_setOrder_self ho _, rfl⟩
  | pendingReplace => exact absurd hs hst
  | live => exact hdup
  | partiallyFilled => exact hdup
  | pendingCancel => exact hdup
  | filled => exact hdup
  | canceled => exact hdup
  | rejected => exact hdup
  | expired => exact hdup

theorem onRejectOpen_spec (hok : IdsOk s) (ho : s.get h = some o) (m : OrderRejectMsg)
    (hf : s.ids.find id = some (.opened h)) (hid : o.clOrdId = id)
    (hst : o.state ≠ .pendingReplace) (hu : u.Blank) :
    AnswerSpec id (openLedger o (s.estimates h) id) (s.onRejectOpen m h o u) := by
  unfold onRejectOpen
  by_cases hnew : o.state = .pendingNew
  · rw [if_pos hnew]
    exact AnswerSpec.of_finish hok ho hid (by constructor <;> rfl) _ _ _ (by simp) hu.booked
  · rw [if_neg hnew, if_neg fun hc => hst hc.1]
    exact AnswerSpec.of_touch o hf (SameTerms.refl o) Iff.rfl ⟨rfl, ho, rfl⟩
      (hu.with_action .ignored).booked

theorem onCancelRejectOpen_spec (hok : IdsOk s) (ho : s.get h = some o) (m : OrderCancelRejectMsg)
    (hf : s.ids.find id = some (.opened h)) (hid : o.clOrdId = id)
    (hu : u.Blank) :
    AnswerSpec id (openLedger o (s.estimates h) id) (s.onCancelRejectOpen m h o u) := by
  unfold onCancelRejectOpen
  by_cases hpend : o.state = .pendingCancel
  · rw [if_neg (not_not.mpr hpend)]
    split_ifs with hgone
    · exact AnswerSpec.of_finish hok ho hid (SameTerms.refl o) (fun st => st) u .canceled (by simp)
        hu.booked
    refine AnswerSpec.of_touch
      { o with state := workingState o, cancelAttempts := o.cancelAttempts + 1 } hf
      (by constructor <;> rfl) (by simp [hpend, workingState_ne_pendingReplace])
      ⟨rfl, get_setOrder_self ho _, rfl⟩ ?_
    simp only
    split
    · exact (hu.with_action .reconcileNeeded).booked
    · exact hu.booked
  · rw [if_pos hpend]
    exact AnswerSpec.of_touch o hf (SameTerms.refl o) Iff.rfl ⟨rfl, ho, rfl⟩
      (hu.with_action .ignored).booked

/-- An answer about a known order without a replace in flight. -/
theorem receive_answer {m : Msg} (hok : IdsOk s) (hm : m.answers = true)
    (hl : s.ledger m.clOrdId = some L) (hown : L.own = true) (hrep : L.pending = none) :
    AnswerSpec m.clOrdId L (s.receive m) := by
  cases m with
  | ack m =>
    refine withOrder_spec hl hown (AnswerSpec m.clOrdId L) ?_ ?_
    · intro u hu _ _
      unfold onAckClosed
      split
      · exact AnswerSpec.of_same hl hrep (hu.with_action _).booked
      · split
        · exact AnswerSpec.of_same hl hrep (hu.with_action _).booked
        · exact AnswerSpec.of_same hl hrep (hu.with_action _).booked
    · rintro h o u hf ho _ rfl hu
      exact onAckOpen_spec ho m hf (pendingLeg_eq_none.mp hrep) hu
  | reject m =>
    refine withOrder_spec hl hown (AnswerSpec m.clOrdId L) ?_ ?_
    · intro u hu _ _
      exact AnswerSpec.of_same hl hrep (hu.with_action _).booked
    · rintro h o u hf ho hid rfl hu
      exact onRejectOpen_spec hok ho m hf hid (pendingLeg_eq_none.mp hrep) hu
  | cancelReject m =>
    refine withOrder_spec hl hown (AnswerSpec m.clOrdId L) ?_ ?_
    · intro u hu _ _
      exact AnswerSpec.of_same hl hrep (hu.with_action _).booked
    · rintro h o u hf ho hid rfl hu
      exact onCancelRejectOpen_spec hok ho m hf hid hu
  | cancelAck m => exact absurd hm (by simp [Msg.answers])
  | fill m => exact absurd hm (by simp [Msg.answers])
  | expired m => exact absurd hm (by simp [Msg.answers])
  | openOrder m => exact absurd hm (by simp [Msg.answers])

/-! ## Executions -/

theorem takenQty_eq_min (e : Estimate) (q : Qty) : takenQty e q = min q e.qty := by
  unfold takenQty
  split
  · rw [min_eq_left (le_of_lt ‹_›)]
  · rw [min_eq_right (not_lt.mp ‹_›)]

/-- An estimate gives up what is taken. -/
theorem takenRest_qty (e : Estimate) (q : Qty) : (takenRest e q).qty = e.qty - min q e.qty := by
  have hle := min_le_right q e.qty
  unfold takenRest
  rw [takenQty_eq_min]
  split
  · rfl
  · linarith

/-- What the estimate step of `on_fill` leaves of the update. -/
structure Taken (u u' : OmsUpdate) (taken : Qty) : Prop where
  action : u'.action = u.action
  known : u'.known = u.known
  fillQty : u'.fillQty = u.fillQty
  missedQty : u'.missedQty = u.missedQty
  corrected : u'.correctedQty = taken

/-- The estimate step on an open order. -/
theorem takeNamed_slot_spec (hacc : Accounts s) (ho : s.get h = some o) (m : OrderFillMsg)
    (hknown : u.known = true) (hcorr : u.correctedQty = 0) (id : ClientOrderId) :
    ((s.takeNamed m (some h) u).1.estimates h).qty =
        (s.estimates h).qty - (openLedger o (s.estimates h) id).named m ∧
      Taken u (s.takeNamed m (some h) u).2 ((openLedger o (s.estimates h) id).named m) := by
  have hbooked : ((s.get h).map (·.cumQty)).getD 0 = o.cumQty := by
    rw [ho]
    rfl
  have hsame : Taken u u 0 := ⟨rfl, rfl, rfl, rfl, hcorr⟩
  unfold takeNamed Ledger.named openLedger
  simp only [hbooked, Option.isNone_some]
  by_cases hpos : 0 < (s.estimates h).qty
  · have hgate : s.stats.syntheticPending ≠ 0 ∧ u.known = true :=
      ⟨by have := hacc.pending_of_slot ho hpos; omega, hknown⟩
    rw [if_pos hgate, if_pos hpos]
    cases namedQty m false o.cumQty with
    | none => exact ⟨(sub_zero _).symm, hsame⟩
    | some q =>
      simp only [takeSynthetic, if_pos hpos]
      refine ⟨?_, rfl, rfl, rfl, rfl, takenQty_eq_min _ _⟩
      have hself : Function.update s.estimates h (takenRest (s.estimates h) q) h =
          takenRest (s.estimates h) q := Function.update_self _ _ _
      exact (congrArg Estimate.qty hself).trans (takenRest_qty _ _)
  · rw [if_neg hpos]
    split
    · cases namedQty m false o.cumQty with
      | none => exact ⟨(sub_zero _).symm, hsame⟩
      | some q =>
        simp only [takeSynthetic, if_neg hpos]
        exact ⟨(sub_zero _).symm, hsame⟩
    · exact ⟨(sub_zero _).symm, hsame⟩

/-- The estimate step on a record. -/
theorem takeNamed_record_spec {r : TerminalRecord} (hacc : Accounts s) (m : OrderFillMsg)
    (hr : s.findTerminal m.clOrdId = some r) (hknown : u.known = true)
    (hcorr : u.correctedQty = 0) (hcum : u.order.cumQty = r.cumQty) :
    ∃ e, (s.takeNamed m none u).1.findTerminal m.clOrdId = some { r with estimate := e } ∧
      e.qty = r.estimate.qty - (recordLedger r).named m ∧
      Taken u (s.takeNamed m none u).2 ((recordLedger r).named m) := by
  have hsame : Taken u u 0 := ⟨rfl, rfl, rfl, rfl, hcorr⟩
  have hstay : ∃ e, s.findTerminal m.clOrdId = some { r with estimate := e } ∧
      e.qty = r.estimate.qty - 0 ∧ Taken u u 0 := ⟨r.estimate, hr, (sub_zero _).symm, hsame⟩
  unfold takeNamed Ledger.named recordLedger
  simp only [hcum, Option.isNone_none]
  by_cases hpos : 0 < r.estimate.qty
  · have hgate : s.stats.syntheticPending ≠ 0 ∧ u.known = true :=
      ⟨by have := hacc.pending_of_record hr hpos; omega, hknown⟩
    rw [if_pos hgate, if_pos hpos]
    cases namedQty m true r.cumQty with
    | none => exact hstay
    | some q =>
      simp only [takeSynthetic, hr, if_pos hpos]
      refine ⟨takenRest r.estimate q, ?_, takenRest_qty _ _, rfl, rfl, rfl, rfl,
        takenQty_eq_min _ _⟩
      exact findTerminal_setTerminal hr _
  · rw [if_neg hpos]
    split
    · cases namedQty m true r.cumQty with
      | none => exact hstay
      | some q =>
        simp only [takeSynthetic, hr, if_neg hpos]
        exact ⟨r.estimate, rfl, (sub_zero _).symm, hsame⟩
    · exact hstay

/-- What an execution that is no duplicate leaves, and what it books. -/
def FillSpec (L : Ledger) (p : Oms × OmsUpdate) : Prop :=
  ∃ L', p.1.ledger m.clOrdId = some L' ∧ L.Moved (L.filledTo m) (L.est - L.named m) L' ∧
    DropsPending m.clOrdId L L' p.1 ∧ p.2.booked = m.qty - L.named m

/-- The cumulative quantity of an open order after a fill, in the ledger's
terms. -/
theorem filledCum_eq {o : Order} (hle : o.cumQty ≤ o.qty) (corrected : Qty) :
    filledCum m o corrected = max o.cumQty (min o.qty
      (if 0 < m.cumQty then m.cumQty else o.cumQty + (m.qty - corrected))) := by
  unfold filledCum
  simp only
  generalize (if 0 < m.cumQty then m.cumQty else o.cumQty + (m.qty - corrected)) = x
  by_cases hx : x < o.cumQty
  · rw [if_pos hx, if_neg (not_lt.mpr hle)]
    exact (max_eq_left (le_trans (min_le_right _ _) (le_of_lt hx))).symm
  rw [if_neg hx]
  by_cases hq : o.qty < x
  · rw [if_pos hq, min_eq_left (le_of_lt hq), max_eq_right hle]
  · rw [if_neg hq, min_eq_right (not_lt.mp hq), max_eq_right (not_lt.mp hx)]

/-- The cumulative quantity of a record after a late fill is the one the ledger
says. -/
theorem lateCum_eq (r : TerminalRecord) (corrected : Qty) :
    lateCum m r corrected =
      min r.qty (if 0 < m.cumQty then m.cumQty else r.cumQty + (m.qty - corrected)) := by
  unfold lateCum
  simp only
  generalize (if 0 < m.cumQty then m.cumQty else r.cumQty + (m.qty - corrected)) = x
  split_ifs with hq
  · rw [min_eq_left (le_of_lt hq)]
  · rw [min_eq_right (not_lt.mp hq)]

theorem onFillOpen_spec (hok : IdsOk s) (ho : s.get h = some o) (m : OrderFillMsg)
    (hf : s.ids.find id = some (.opened h)) (hid : o.clOrdId = id) (u : OmsUpdate) :
    ∃ L', (s.onFillOpen m h o u).1.ledger id = some L' ∧
      (∀ e, (openLedger o e id).Moved (filledCum m o u.correctedQty) (s.estimates h).qty L' ∧
        DropsPending id (openLedger o e id) L' (s.onFillOpen m h o u).1) ∧
      (s.onFillOpen m h o u).2.booked = u.booked := by
  unfold onFillOpen
  simp only
  generalize (if o.venueOrderId.empty = true then m.venueOrderId else o.venueOrderId) = vid
  have hok' := hok.edit (Edit.fill m u.correctedQty vid ho)
  -- The order after the fill, and what it shares with the one before.
  generalize ho₁ : { o with cumQty := filledCum m o u.correctedQty, venueOrderId := vid } =
    o₁ at hok' ⊢
  have hid₁ : o₁.clOrdId = o.clOrdId := by rw [← ho₁]
  have hqty₁ : o₁.qty = o.qty := by rw [← ho₁]
  have hcum₁ : o₁.cumQty = filledCum m o u.correctedQty := by rw [← ho₁]
  rw [← hcum₁] at hok' ⊢
  have hget : ((s.addOpenQty o.instrument o.side (-(o₁.cumQty - o.cumQty))).setOrder h o₁).get h =
      some o₁ := get_setOrder_self (s := s.addOpenQty o.instrument o.side _) ho _
  have hest : ((s.addOpenQty o.instrument o.side (-(o₁.cumQty - o.cumQty))).setOrder h o₁).estimates
      h = s.estimates h := rfl
  have hfind : ((s.addOpenQty o.instrument o.side (-(o₁.cumQty - o.cumQty))).setOrder h o₁).ids.find
      id = some (.opened h) := hf
  generalize (s.addOpenQty o.instrument o.side (-(o₁.cumQty - o.cumQty))).setOrder h o₁ = s₁ at *
  rw [← hest]
  split
  · rename_i hfull
    have hok₂ : IdsOk (s₁.withStats fun st => { st with filled := st.filled + 1 }) :=
      hok'.of_eq rfl rfl rfl
    have hl := ledger_terminate hok₂ (s := s₁.withStats _) hget (SameTerms.refl _)
      { u with changed := true } .filled false
    rw [hid₁, hid] at hl
    refine ⟨_, hl, ?_, terminate_booked _ _ h _ .filled false⟩
    intro e
    refine ⟨recordLedger_moved hqty₁ hid .filled false (fun _ => hqty₁.symm ▸ hfull) e _, ?_⟩
    intro b q hpend hne _
    have hleg : pendingLeg o₁ = some (b, q) := by
      rw [← ho₁]
      exact hpend
    exact find_pending_terminate hok₂ hget (SameTerms.refl _) hleg
      (fun hb => hne (hb.trans (hid₁.trans hid))) _ .filled false
  · have hpend : pendingLeg { o with
        cumQty := o₁.cumQty
        venueOrderId := vid
        state := if o.state = .live ∨ o.state = .pendingNew then .partiallyFilled else o.state } =
        pendingLeg o := by
      unfold pendingLeg
      by_cases hst : o.state = .live ∨ o.state = .pendingNew
      · rcases hst with hst | hst <;> simp [hst]
      · simp [hst]
    refine ⟨_, ledger_setOrder hget hfind, ?_, rfl⟩
    intro e
    refine ⟨?_, DropsPending.of_open rfl⟩
    exact @openLedger_moved o { o with
      cumQty := o₁.cumQty
      venueOrderId := vid
      state := if o.state = .live ∨ o.state = .pendingNew then .partiallyFilled else o.state }
      rfl rfl hpend e (s₁.estimates h) id

/-- The estimate step leaves the id map alone. -/
theorem takeNamed_ids (h : Handle) (u : OmsUpdate) :
    (s.takeNamed m h u).1.ids = s.ids := by
  have htake : ∀ qty, (s.takeSynthetic h m.clOrdId qty u).1.ids = s.ids := by
    intro qty
    unfold takeSynthetic
    cases h with
    | some h =>
      simp only
      split <;> rfl
    | none =>
      cases s.findTerminal m.clOrdId with
      | none => rfl
      | some r =>
        simp only
        split <;> rfl
  unfold takeNamed
  split
  · simp only
    split
    · exact htake _
    · rfl
  · rfl

theorem lateFill_spec {r : TerminalRecord}
    (hr : s.findTerminal m.clOrdId = some r) (u : OmsUpdate) :
    ∃ r', (s.lateFill m u).1.ledger m.clOrdId = some (recordLedger r') ∧
      r'.qty = r.qty ∧ r'.estimate = r.estimate ∧
      r'.cumQty = max r.cumQty (lateCum m r u.correctedQty) ∧
      (r'.state = .filled → r.state = .filled ∨ r'.qty ≤ r'.cumQty) ∧
      (s.lateFill m u).2.booked = u.booked := by
  obtain ⟨v, hf⟩ := find_of_findTerminal hr
  unfold lateFill
  simp only [hr]
  split
  · rename_i hle
    exact ⟨r, ledger_terminal hf hr, rfl, rfl, (max_eq_left hle).symm, Or.inl, rfl⟩
  rename_i hlt
  refine ⟨_, ledger_terminal (s := (s.setTerminal m.clOrdId _).withStats _) hf
    (findTerminal_setTerminal hr _), rfl, rfl, ?_, ?_, rfl⟩
  · exact (max_eq_right (le_of_not_ge hlt)).symm
  intro hst
  split_ifs at hst with hc
  · have hc' := of_decide_eq_true hc
    exact Or.inr hc'.1
  · exact Or.inl hst

/-- An execution of a known order. -/
theorem onFillNew_spec (hok : IdsOk s) (hacc : Accounts s) (m : OrderFillMsg)
    (hl : s.ledger m.clOrdId = some L) (hown : L.own = true) (px : Price) :
    FillSpec m L (s.onFillNew m { fillQty := m.qty, fillPx := px }) := by
  unfold onFillNew lookup FillSpec
  rcases ledger_cases hl with ⟨h, o, hf, ho, hL⟩ | ⟨v, r, hf, hr, hL⟩
  · simp only [hf]
    have hid : o.clOrdId = m.clOrdId := by
      rw [hL] at hown
      simpa [openLedger] using hown
    generalize hu : ({ fillQty := m.qty, fillPx := px, known := true, handle := some h } :
      OmsUpdate) = u
    have hcorr : u.correctedQty = 0 := by rw [← hu]
    have hknown : u.known = true := by rw [← hu]
    have hmissed : u.missedQty = 0 := by rw [← hu]
    have haction : u.action = .none := by rw [← hu]
    have hqty : u.fillQty = m.qty := by rw [← hu]
    obtain ⟨hedits, hget⟩ := takeNamed_slot_edits u m ho
    obtain ⟨hest, htaken⟩ := takeNamed_slot_spec hacc ho m hknown hcorr m.clOrdId
    have hok₁ := Edits.keeps (fun _ _ hs he => hs.edit he) hedits hok
    have hids : (s.takeNamed m (some h) u).1.ids = s.ids := takeNamed_ids m (some h) u
    rw [← hL] at hest htaken
    generalize s.takeNamed m (some h) u = p at *
    obtain ⟨s₁, u₁⟩ := p
    simp only at hget hest htaken hok₁ hids ⊢
    have hget₂ : (s₁.withStats fun st => { st with fills := st.fills + 1 }).get h = some o := hget
    simp only [hget₂]
    have hok₂ : IdsOk (s₁.withStats fun st => { st with fills := st.fills + 1 }) :=
      hok₁.of_eq rfl rfl rfl
    obtain ⟨L', hl', hmoved, hb⟩ := onFillOpen_spec hok₂ hget₂ m
      (show s₁.ids.find m.clOrdId = some (.opened h) by rw [hids]; exact hf) hid
      { u₁ with prev := o.state }
    have hcum : filledCum m o u₁.correctedQty = L.filledTo m := by
      rw [filledCum_eq m (hacc.orders h o ho).cum_le, htaken.corrected, hL]
      rfl
    obtain ⟨hm, hdrop⟩ := hmoved (s.estimates h)
    rw [← hL] at hdrop
    refine ⟨L', hl', ?_, hdrop, ?_⟩
    · rw [← hL] at hm
      simp only at hm
      rw [hcum] at hm
      have hest₂ : ((s₁.withStats fun st => { st with fills := st.fills + 1 }).estimates h).qty =
          L.est - L.named m := by
        refine hest.trans ?_
        rw [hL]
        rfl
      rw [hest₂] at hm
      exact hm
    · rw [hb]
      simp only [OmsUpdate.booked]
      rw [htaken.action, htaken.fillQty, htaken.corrected, htaken.missedQty, haction, hqty, hmissed,
        if_neg (by simp)]
      ring
  · simp only [hf, hr]
    generalize hu : ({ fillQty := m.qty, fillPx := px, known := true, order := _ } : OmsUpdate) = u
    have hcorr : u.correctedQty = 0 := by rw [← hu]
    have hknown : u.known = true := by rw [← hu]
    have hmissed : u.missedQty = 0 := by rw [← hu]
    have hqty : u.fillQty = m.qty := by rw [← hu]
    have hcum : u.order.cumQty = r.cumQty := by rw [← hu]
    obtain ⟨e, hr₁, he, htaken⟩ := takeNamed_record_spec hacc m hr hknown hcorr hcum
    generalize s.takeNamed m none u = p at *
    obtain ⟨s₁, u₁⟩ := p
    simp only at hr₁ htaken ⊢
    rw [if_pos (htaken.known.trans hknown)]
    have hr₂ : ((s₁.withStats fun st => { st with fills := st.fills + 1 }).withStats fun st =>
        { st with lateFills := st.lateFills + 1 }).findTerminal m.clOrdId =
        some { r with estimate := e } := hr₁
    obtain ⟨r', hl', hq', he', hc', hst', hb'⟩ :=
      lateFill_spec m hr₂ { u₁ with action := .lateFill }
    refine ⟨_, hl', ?_, DropsPending.of_idle (by rw [hL]; rfl), ?_⟩
    · rw [← hL] at he
      have hto : r'.cumQty = L.filledTo m := by
        rw [hc', lateCum_eq]
        rw [htaken.corrected, hL]
        rfl
      refine ⟨?_, hto, ?_, ?_, ?_, ?_, fun _ => rfl⟩
      · rw [hL]
        exact hq'
      · show r'.estimate.qty = _
        rw [he', hL]
        rw [hL] at he
        exact he
      · intro hfil
        have hfil' : r'.state = .filled := by simpa [recordLedger] using hfil
        rcases hst' hfil' with hst' | hst'
        · left
          rw [hL]
          simpa [recordLedger] using hst'
        · exact Or.inr hst'
      · rw [hL]
        rfl
      · rw [hL]
        rfl
    · rw [hb']
      simp only [OmsUpdate.booked]
      rw [htaken.fillQty, htaken.corrected, htaken.missedQty, hqty, hmissed, if_neg (by simp), ← hL]
      ring

/-- The execution was filed before. -/
def Duplicate (s : Oms) (m : OrderFillMsg) : Prop :=
  m.execId.empty = false ∧ execKey m ∈ s.execSeen.keys

instance (s : Oms) (m : OrderFillMsg) : Decidable (s.Duplicate m) :=
  inferInstanceAs (Decidable (m.execId.empty = false ∧ execKey m ∈ s.execSeen.keys))

/-- Filing an execution changes nothing but the execution memory. -/
theorem remembered_eq (s : Oms) (m : OrderFillMsg) :
    ∃ seen, s.remembered m = { s with execSeen := seen } := s.heard_eq (.fill m)

/-- A new execution of a known order. -/
theorem onFill_spec (hok : IdsOk s) (hacc : Accounts s) (m : OrderFillMsg)
    (hnew : ¬ s.Duplicate m) (hl : s.ledger m.clOrdId = some L) (hown : L.own = true) :
    FillSpec m L (s.onFill m) := by
  obtain ⟨seen, hseen⟩ := s.remembered_eq m
  unfold Duplicate at hnew
  rw [onFill_eq, if_neg hnew, hseen]
  exact onFillNew_spec (s := { s with execSeen := seen }) (hok.of_eq rfl rfl rfl)
    (hacc.of_best rfl rfl rfl rfl rfl rfl) m hl hown _

/-- A duplicate changes no ledger and books nothing. -/
theorem onFill_duplicate (hdup : s.Duplicate m) (id : ClientOrderId) :
    (s.onFill m).1.ids = s.ids ∧ (s.onFill m).1.ledger id = s.ledger id ∧
      (s.onFill m).2.booked = 0 := by
  obtain ⟨seen, hseen⟩ := s.remembered_eq m
  unfold Duplicate at hdup
  rw [onFill_eq, if_pos hdup, hseen]
  exact ⟨rfl, rfl, rfl⟩

/-- An execution of an unknown order is booked in full, unless it is a
duplicate. -/
theorem onFill_unknown (hf : s.ids.find m.clOrdId = none)
    (hnew : ¬ s.Duplicate m) : (s.onFill m).2.booked = m.qty := by
  obtain ⟨seen, hseen⟩ := s.remembered_eq m
  unfold Duplicate at hnew
  rw [onFill_eq, if_neg hnew, hseen]
  unfold onFillNew lookup
  simp only [hf, takeNamed, Bool.false_eq_true, and_false, if_false]
  simp [OmsUpdate.booked]

/-- A message without an execution about an unknown order books nothing. -/
theorem receive_unknown (m : Msg) (hf : s.ids.find m.clOrdId = none)
    (hm : ∀ f, m ≠ .fill f) : (s.receive m).2.booked = 0 := by
  have hblank : ∀ a, ({ ({} : OmsUpdate) with action := a } : OmsUpdate).booked = 0 := fun a =>
    (OmsUpdate.Blank.with_action ⟨rfl, rfl, rfl⟩ a).booked
  cases m with
  | fill m => exact absurd rfl (hm m)
  | ack m =>
    simp only [receive, onAck, withOrder, lookup, show s.ids.find m.clOrdId = none from hf]
    exact hblank .cancelUnknown
  | reject m =>
    simp only [receive, onReject, withOrder, lookup, show s.ids.find m.clOrdId = none from hf]
    exact hblank .ignored
  | cancelAck m =>
    simp only [receive, onCancelAck, withOrder, lookup, show s.ids.find m.clOrdId = none from hf]
    exact hblank .ignored
  | cancelReject m =>
    simp only [receive, onCancelReject, withOrder, lookup, show s.ids.find m.clOrdId = none from hf]
    exact hblank .ignored
  | expired m =>
    simp only [receive, onExpired, withOrder, lookup, show s.ids.find m.clOrdId = none from hf]
    exact hblank .ignored
  | openOrder m =>
    simp only [receive, reconcileOpenOrder, withOrder, lookup,
      show s.ids.find m.clOrdId = none from hf]
    exact hblank .cancelUnknown

end Reports

end Oms

end FastMM
