/-
  Oms/Edits.lean --- what the inbound handlers can do to the state.

  Every handler is a chain of a few edits: an order changes without changing its
  terms, gains filled quantity, gives up an estimate, loses its pending
  replacement, takes the replacement's terms, or ends; a terminal record gives up
  an estimate or takes a late fill.  `receive_edits` says so once, for every
  message, with the order or record all the edits of the chain are about.  The
  invariants of the order management are then proved per edit and never unfold a
  handler.

  The first part states the whole state `remember_terminal`, `terminate` and
  `apply_replace` leave behind, one equation each.
-/
import FastMM.Oms.Runs
import Mathlib.Logic.Relation
set_option autoImplicit false

namespace FastMM

open Foundation Function

namespace Oms

/-! ## The state after an end or a replace -/

variable (s : Oms)
variable (o : Order)
variable (h : Nat)
variable (rekey newVenueOrder : Bool)
variable (u : OmsUpdate)

/-- The map of client order ids. -/
abbrev IdMap : Type := CappedMap ClientOrderId IdRef kIdMapMaxSize

/-- The ring of terminal records. -/
abbrev TerminalRing : Type := RingBuffer TerminalRecord kRecentlyTerminal

/-- The id map after `drop_open`. -/
def openErased (ids : IdMap) (id : ClientOrderId) : IdMap :=
  match ids.find id with
  | some (.opened _) => ids.erase id
  | _ => ids

/-- The id map after the pending id of an order is dropped, as `terminate` and
`clear_pending` do it. -/
def pendingErased (ids : IdMap) (o : Order) : IdMap :=
  if o.pendingClOrdId.valid = true ∧ o.pendingClOrdId ≠ o.clOrdId then
    openErased ids o.pendingClOrdId
  else ids

/-- The id map once the oldest record has left a full ring. -/
def evictedIds (ids : IdMap) (ring : TerminalRing) : IdMap :=
  if ring.full = true ∧ ids.find ring.front.clOrdId = some (terminalRef ring.head) then
    ids.erase ring.front.clOrdId
  else ids

/-- The id map after `remember_terminal`. -/
def rememberedIds (ids : IdMap) (ring : TerminalRing) (id : ClientOrderId) : IdMap :=
  ((evictedIds ids ring).assign id (terminalRef ring.tail)).getD (evictedIds ids ring)

/-- The counters after `remember_terminal`. -/
def rememberedStats (st : OmsStats) (ring : TerminalRing) : OmsStats :=
  if ring.full = true ∧ 0 < ring.front.estimate.qty then
    { st with
      syntheticForgotten := st.syntheticForgotten + 1
      syntheticPending := st.syntheticPending - 1 }
  else st

theorem dropOpen_eq (id : ClientOrderId) :
    s.dropOpen id = { s with ids := openErased s.ids id } := by
  unfold dropOpen openErased
  cases s.ids.find id with
  | none => rfl
  | some ref => cases ref <;> rfl

theorem rememberTerminal_fst (r : TerminalRecord) (u : OmsUpdate) : (s.rememberTerminal r u).1 =
      { s with
        ids := rememberedIds s.ids s.recentlyTerminal r.clOrdId
        stats := rememberedStats s.stats s.recentlyTerminal
        recentlyTerminal := s.recentlyTerminal.push r } := by
  unfold rememberTerminal rememberedIds rememberedStats evictedIds
  by_cases hf : s.recentlyTerminal.full = true
  · by_cases he : 0 < s.recentlyTerminal.front.estimate.qty
    · simp only [hf, he, if_true, withStats, true_and]
      split <;> rfl
    · simp only [hf, he, if_true, if_false, true_and]
      split <;> rfl
  · simp only [hf, if_false, Bool.false_eq_true, false_and]

/-- Of an update `remember_terminal` writes what it forgot. -/
theorem rememberTerminal_snd (r : TerminalRecord) : ∃ qty id,
    (s.rememberTerminal r u).2 = { u with forgottenQty := qty, forgottenId := id } := by
  unfold rememberTerminal
  by_cases hf : s.recentlyTerminal.full = true
  · by_cases he : 0 < s.recentlyTerminal.front.estimate.qty
    · simp only [hf, he, if_true]
      split <;> exact ⟨_, _, rfl⟩
    · simp only [hf, he, if_true, if_false]
      split <;> exact ⟨_, _, rfl⟩
  · simp only [hf, if_false, Bool.false_eq_true]
    exact ⟨_, _, rfl⟩

/-- An end without the best own price: the accounts, the id map, the record and
the slot. -/
def ended (o : Order) (finalState : OrderState) (byReconcile : Bool) : Oms :=
  { s with
    pool := s.pool.free h
    byInst := s.byInst.clear (BucketBits.bucket kMaxInstruments o.instrument.value) h
    ids := rememberedIds (pendingErased s.ids o) s.recentlyTerminal o.clOrdId
    recentlyTerminal :=
      s.recentlyTerminal.push (recordOf o finalState byReconcile (s.estimates h))
    stats := rememberedStats { s.stats with
        canceled := if finalState = .canceled then s.stats.canceled + 1 else s.stats.canceled
        opened := s.stats.opened - 1 } s.recentlyTerminal
    openQty := fun i side =>
      if i = o.instrument.value ∧ side = o.side then s.openQty i side + -o.leavesQty
      else s.openQty i side
    openPerInst := fun i =>
      if i = o.instrument.value then s.openPerInst i - 1 else s.openPerInst i
    estimates := update s.estimates h {} }

/-- `terminate` is `ended`, and a scan for the best own price when the order was
at it. -/
theorem terminate_fst (h : Nat) (o : Order) (st : OrderState) (br : Bool) :
    (s.terminate u h o st br).1 =
      if o.price = s.bestOwn o.instrument.value o.side then
        (s.ended h o st br).recomputeBestOwn o.instrument o.side
      else s.ended h o st br := by
  unfold terminate ended pendingErased
  by_cases hp : o.pendingClOrdId.valid = true ∧ o.pendingClOrdId ≠ o.clOrdId
  · simp only [if_pos hp, rememberTerminal_fst, dropOpen_eq, withStats, addOpenQty, setEstimate]
    exact apply_ite Prod.fst _ _ _
  · simp only [if_neg hp, rememberTerminal_fst, withStats, addOpenQty, setEstimate]
    exact apply_ite Prod.fst _ _ _

/-- The order's old leg keeps a terminal record when its replacement is a new
venue order and it holds an estimate. -/
def keepsRecord : Bool :=
  rekey && newVenueOrder && decide (0 < (s.estimates h).qty)

/-- The record of the old leg. -/
def oldLegRecord (e : Estimate) : TerminalRecord :=
  recordOf o (if o.qty ≤ o.cumQty then .filled else .canceled) false e

@[simp] theorem replacedOrder_instrument :
    (replacedOrder o rekey newVenueOrder).instrument = o.instrument := rfl

@[simp] theorem replacedOrder_side :
    (replacedOrder o rekey newVenueOrder).side = o.side := rfl

@[simp] theorem replacedOrder_price :
    (replacedOrder o rekey newVenueOrder).price = o.pendingPrice := rfl

/-- A replace without the best own price: the accounts, the id map, the old leg's
record and the order. -/
def replaced (o : Order) (rekey newVenueOrder : Bool) : Oms :=
  let keeps := s.keepsRecord h rekey newVenueOrder
  let ids := if keeps then rememberedIds s.ids s.recentlyTerminal o.clOrdId else s.ids
  { s with
    pool := s.pool.set h (replacedOrder o rekey newVenueOrder)
    ids := if rekey then openErased ids o.clOrdId else ids
    recentlyTerminal :=
      if keeps then s.recentlyTerminal.push (oldLegRecord o (s.estimates h))
      else s.recentlyTerminal
    stats := if keeps then rememberedStats s.stats s.recentlyTerminal else s.stats
    openQty := fun i side =>
      if i = o.instrument.value ∧ side = o.side then
        s.openQty i side + -o.leavesQty + (replacedOrder o rekey newVenueOrder).leavesQty
      else s.openQty i side
    estimates := if keeps then update s.estimates h {} else s.estimates }

/-- `apply_replace` is `replaced`, and the best own price. -/
theorem applyReplace_fst (h : Nat) (o : Order) (rekey newVenueOrder : Bool) :
    (s.applyReplace u h o rekey newVenueOrder).1 =
      if s.bestOwn o.instrument.value o.side = 0 ∨
          better o.side o.pendingPrice (s.bestOwn o.instrument.value o.side) = true then
        (s.replaced h o rekey newVenueOrder).setBestOwn o.instrument o.side o.pendingPrice
      else if o.price = s.bestOwn o.instrument.value o.side then
        (s.replaced h o rekey newVenueOrder).recomputeBestOwn o.instrument o.side
      else s.replaced h o rekey newVenueOrder := by
  have hqty : ∀ (a b : Qty) (i : Nat) (side : Side), (if i = o.instrument.value ∧ side = o.side then
        (if i = o.instrument.value ∧ side = o.side then s.openQty i side + a
          else s.openQty i side) + b
        else if i = o.instrument.value ∧ side = o.side then s.openQty i side + a
          else s.openQty i side) =
      if i = o.instrument.value ∧ side = o.side then s.openQty i side + a + b
        else s.openQty i side := by
    intro a b i side
    split <;> rfl
  unfold applyReplace replaced keepsRecord oldLegRecord
  by_cases hk : rekey = true ∧ newVenueOrder = true ∧ 0 < (s.estimates h).qty
  · obtain ⟨rfl, rfl, hpos⟩ := hk
    simp only [hpos, and_self, if_true, rememberTerminal_fst, dropOpen_eq, addOpenQty, setOrder,
      setEstimate, replacedOrder_instrument, replacedOrder_side, replacedOrder_price, hqty,
        Bool.and_self, decide_true]
    rfl
  have hk' : (rekey && newVenueOrder && decide (0 < (s.estimates h).qty)) = false := by
    simpa [and_assoc] using hk
  have hk2 : ¬ (rekey = true ∧ newVenueOrder = true ∧
      0 < ((s.addOpenQty o.instrument o.side (-o.leavesQty)).estimates h).qty) := hk
  simp only [if_neg hk2, hk', Bool.false_eq_true, if_false]
  cases rekey with
  | true =>
    simp only [if_true, dropOpen_eq, addOpenQty, setOrder,
      replacedOrder_instrument, replacedOrder_side, replacedOrder_price, hqty]
  | false =>
    simp only [Bool.false_eq_true, if_false, addOpenQty, setOrder,
      replacedOrder_instrument, replacedOrder_side, replacedOrder_price, hqty]

theorem applyReplace_order (h : Nat) (o : Order) (rekey newVenueOrder : Bool) :
    (s.applyReplace u h o rekey newVenueOrder).2.1 = replacedOrder o rekey newVenueOrder := by
  rfl

/-- The cumulative quantity `absorb_cum` takes from a report. -/
def absorbedCum (reported : Qty) : Qty :=
  if o.qty < reported then o.qty else reported

/-- `absorb_cum` when the report covers more than the fills. -/
def absorbed (o : Order) (reported : Qty) : Oms :=
  let diff := absorbedCum o reported - o.cumQty
  { s with
    pool := s.pool.set h { o with cumQty := absorbedCum o reported }
    openQty := fun i side =>
      if i = o.instrument.value ∧ side = o.side then s.openQty i side + -diff
      else s.openQty i side
    stats := { s.stats with
      missedFills := s.stats.missedFills + 1
      syntheticPending :=
        if 0 < (s.estimates h).qty then s.stats.syntheticPending
        else s.stats.syntheticPending + 1 }
    estimates := update s.estimates h ⟨(s.estimates h).qty + diff, o.price⟩ }

theorem absorbCum_fst (o : Order) (reported : Qty) (u : OmsUpdate) :
    (s.absorbCum h o reported u).1 =
      if absorbedCum o reported ≤ o.cumQty then s else s.absorbed h o reported := by
  unfold absorbCum absorbed noteSynthetic
  rw [show (if o.qty < reported then o.qty else reported) = absorbedCum o reported from rfl]
  by_cases hle : absorbedCum o reported ≤ o.cumQty
  · rw [if_pos hle, if_pos hle]
  rw [if_neg hle, if_neg hle]
  simp only [addOpenQty, setOrder, withStats, setEstimate]
  by_cases hpos : 0 < (s.estimates h).qty
  · simp only [hpos, if_true]
  · simp only [hpos, if_false]

/-- The order `clear_pending` leaves. -/
def clearedOrder : Order :=
  { o with
    pendingClOrdId := .invalid
    pendingPrice := 0
    pendingQty := 0
    flags := { o.flags with replaceOldCanceled := false } }

theorem clearPending_fst (o : Order) : (s.clearPending h o).1 =
      { s with ids := pendingErased s.ids o, pool := s.pool.set h (clearedOrder o) } := by
  unfold clearPending pendingErased
  split
  · rw [dropOpen_eq]
    rfl
  · rfl

/-- A withdrawn replace: the pending id is dropped and the order works on. -/
def reverted (o : Order) : Oms :=
  { s with
    ids := pendingErased s.ids o
    pool := s.pool.set h { clearedOrder o with state := workingState o } }

/-! ## Edits -/

/-- What ids are made from. -/
def session (s : Oms) : Nat × Nat × Nat := (s.epoch, s.maxSeq, s.seq)

/-- Two states that differ in nothing the bookkeeping reads: only in the times,
the reconciliation scopes and the counters of events. -/
structure Alike (s s' : Oms) : Prop where
  session : s'.session = s.session
  slots : s'.pool.slots = s.pool.slots
  byInst : s'.byInst = s.byInst
  ids : s'.ids = s.ids
  recentlyTerminal : s'.recentlyTerminal = s.recentlyTerminal
  execSeen : s'.execSeen = s.execSeen
  bestOwn : s'.bestOwn = s.bestOwn
  openQty : s'.openQty = s.openQty
  openPerInst : s'.openPerInst = s.openPerInst
  estimates : s'.estimates = s.estimates
  opened : s'.stats.opened = s.stats.opened
  syntheticPending : s'.stats.syntheticPending = s.stats.syntheticPending

/-- Two orders with the same identity, terms, quantities and pending
replacement. -/
structure SameTerms (o o' : Order) : Prop where
  clOrdId : o'.clOrdId = o.clOrdId
  instrument : o'.instrument = o.instrument
  venue : o'.venue = o.venue
  side : o'.side = o.side
  type : o'.type = o.type
  userTag : o'.userTag = o.userTag
  price : o'.price = o.price
  qty : o'.qty = o.qty
  cumQty : o'.cumQty = o.cumQty
  pendingClOrdId : o'.pendingClOrdId = o.pendingClOrdId
  pendingPrice : o'.pendingPrice = o.pendingPrice
  pendingQty : o'.pendingQty = o.pendingQty

theorem SameTerms.refl : SameTerms o o := by
  constructor <;> rfl

theorem SameTerms.leavesQty {o o' : Order} (h : SameTerms o o') : o'.leavesQty = o.leavesQty := by
  unfold Order.leavesQty
  rw [h.qty, h.cumQty]

/-- The order or the terminal record a message is about. -/
inductive Target where
  | none
  | slot (h : Nat)
  | record (id : ClientOrderId)
  deriving DecidableEq

/-- What an id names. -/
def target (id : ClientOrderId) : Target :=
  match s.ids.find id with
  | some (.opened h) => .slot h
  | some (.terminal _) => .record id
  | none => .none

variable {s} in
theorem target_eq_slot {id : ClientOrderId} {k : Nat} :
    s.target id = .slot k ↔ s.ids.find id = some (.opened k) := by
  unfold target
  cases s.ids.find id with
  | none => simp
  | some ref => cases ref <;> simp

variable {s} in
theorem target_eq_record {id k : ClientOrderId} (h : s.target id = .record k) : id = k := by
  unfold target at h
  split at h
  · cases h
  · exact Target.record.inj h
  · cases h

/-- One edit of the state, of an order or a record. -/
inductive Edit : Target → Oms → Oms → Prop
  /-- Nothing the bookkeeping reads changes. -/
  | quiet {t : Target} {s s' : Oms} (h : Alike s s') : Edit t s s'
  /-- An order changes its state, its flags or its venue id. -/
  | touch {s : Oms} {h : Nat} {o o' : Order} (ho : s.get h = some o) (hterms : SameTerms o o')
      (hopen : o.state.isTerminal = false → o'.state.isTerminal = false)
      (hpend : o'.state = .pendingReplace ↔ o.state = .pendingReplace) :
      Edit (.slot h) s (s.setOrder h o')
  /-- A pending replacement is withdrawn. -/
  | revert {s : Oms} {h : Nat} {o : Order} (ho : s.get h = some o)
      (hpend : o.state = .pendingReplace) :
      Edit (.slot h) s (s.reverted h o)
  /-- An order ends. -/
  | finish {s : Oms} {h : Nat} {o o' : Order} (u : OmsUpdate) (st : OrderState) (br : Bool)
      (ho : s.get h = some o) (hterms : SameTerms o o') :
      Edit (.slot h) s (s.terminate u h o' st br).1
  /-- A reported cumulative quantity is absorbed. -/
  | absorb {s : Oms} {h : Nat} {o : Order} (reported : Qty) (u : OmsUpdate)
      (ho : s.get h = some o) :
      Edit (.slot h) s (s.absorbCum h o reported u).1
  /-- A fill moves the cumulative quantity. -/
  | fill {s : Oms} {h : Nat} {o : Order} (m : OrderFillMsg) (corrected : Qty) (vid : VenueOrderId)
      (ho : s.get h = some o) :
      Edit (.slot h) s
        ((s.addOpenQty o.instrument o.side (-(filledCum m o corrected - o.cumQty))).setOrder h
          { o with cumQty := filledCum m o corrected, venueOrderId := vid })
  /-- An execution takes part of an open order's estimate. -/
  | take {s : Oms} {h : Nat} {o : Order} (qty : Qty) (ho : s.get h = some o)
      (hpos : 0 < (s.estimates h).qty) :
      Edit (.slot h) s ((s.setEstimate h (takenRest (s.estimates h) qty)).withStats
          (takenStats (s.estimates h) qty))
  /-- An execution takes part of a record's estimate. -/
  | takeRecord {s : Oms} {id : ClientOrderId} {r : TerminalRecord} (qty : Qty)
      (hr : s.findTerminal id = some r) (hpos : 0 < r.estimate.qty) :
      Edit (.record id) s
        ((s.setTerminal id { r with estimate := takenRest r.estimate qty }).withStats
          (takenStats r.estimate qty))
  /-- A late fill moves a record's cumulative quantity and may complete it. -/
  | late {s : Oms} {id : ClientOrderId} {r : TerminalRecord} (cum : Qty) (st : OrderState)
      (hr : s.findTerminal id = some r) :
      Edit (.record id) s (s.setTerminal id { r with cumQty := cum, state := st })
  /-- A pending replacement takes effect. -/
  | replace {s : Oms} {h : Nat} {o : Order} (u : OmsUpdate) (newVenueOrder : Bool)
      (ho : s.get h = some o) (hpend : o.state = .pendingReplace) :
      Edit (.slot h) s (s.applyReplace u h o (o.pendingClOrdId ≠ o.clOrdId)
          (decide (o.pendingClOrdId ≠ o.clOrdId) && newVenueOrder)).1

/-- A chain of edits of one order or record. -/
def Edits (t : Target) : Oms → Oms → Prop := Relation.ReflTransGen (Edit t)

namespace Edits

variable {t : Target} {s s' s'' : Oms}

theorem refl (s : Oms) : Edits t s s := Relation.ReflTransGen.refl

theorem one (h : Edit t s s') : Edits t s s' := Relation.ReflTransGen.single h

theorem trans (h : Edits t s s') (h' : Edits t s' s'') : Edits t s s'' :=
  Relation.ReflTransGen.trans h h'

theorem quiet (h : Alike s s') : Edits t s s' := one (.quiet h)

/-- The rule for chains: what every edit keeps, a chain keeps. -/
theorem keeps {Inv : Oms → Prop} (hstep : ∀ s s', Inv s → Edit t s s' → Inv s')
    (h : Edits t s s') (hs : Inv s) : Inv s' := by
  induction h with
  | refl => exact hs
  | tail _ hlast ih => exact hstep _ _ ih hlast

end Edits

/-! ## The handlers are chains of edits -/

section

variable {s : Oms} {h : Nat} {o : Order} (ho : s.get h = some o) (o' : Order)
include ho o'

theorem get_setOrder
    (k : Nat) : (s.setOrder h o').get k = if k = h then some o' else s.get k :=
  Pool.slots_set ho k

theorem get_setOrder_self :
    (s.setOrder h o').get h = some o' := by
  rw [get_setOrder ho, if_pos rfl]

end

theorem alike_setTimes (s : Oms) (h : Nat) (t : TimesSlot) : Alike s (s.setTimes h t) := by
  constructor <;> rfl

theorem alike_withStats (s : Oms) (f : OmsStats → OmsStats)
    (hopened : (f s.stats).opened = s.stats.opened)
    (hpending : (f s.stats).syntheticPending = s.stats.syntheticPending) :
    Alike s (s.withStats f) :=
  ⟨rfl, rfl, rfl, rfl, rfl, rfl, rfl, rfl, rfl, rfl, hopened, hpending⟩

theorem workingState_isTerminal (o : Order) : (workingState o).isTerminal = false := by
  unfold workingState
  split <;> rfl

theorem workingState_ne_pendingReplace (o : Order) : workingState o ≠ .pendingReplace := by
  unfold workingState
  split <;> simp

/-- A replaced order is working. -/
theorem replacedOrder_isWorking (o : Order) (rekey newVenueOrder : Bool) :
    (replacedOrder o rekey newVenueOrder).isWorking = true := by
  unfold replacedOrder Order.isWorking
  simp only
  generalize (if o.pendingQty < (if newVenueOrder = true then 0 else o.cumQty) then o.pendingQty
    else if newVenueOrder = true then 0 else o.cumQty) = cum
  split_ifs with hc
  · rfl
  · rfl

section

variable {s : Oms} {h : Nat} {o : Order} (ho : s.get h = some o)
include ho

theorem applyReplace_get (u : OmsUpdate)
    (rekey newVenueOrder : Bool) :
    (s.applyReplace u h o rekey newVenueOrder).1.get h =
      some (replacedOrder o rekey newVenueOrder) := by
  have hget := get_setOrder_self ho (replacedOrder o rekey newVenueOrder)
  rw [applyReplace_fst]
  split
  · exact hget
  · split <;> exact hget

/-- The order an absorbed quantity leaves in its slot, in the same state. -/
theorem absorbCum_get (reported : Qty)
    (u : OmsUpdate) :
    (s.absorbCum h o reported u).1.get h = some (s.absorbCum h o reported u).2.1 ∧
      (s.absorbCum h o reported u).2.1.state = o.state := by
  rw [absorbCum_fst]
  unfold absorbCum
  rw [show (if o.qty < reported then o.qty else reported) = absorbedCum o reported from rfl]
  by_cases hle : absorbedCum o reported ≤ o.cumQty
  · rw [if_pos hle, if_pos hle]
    exact ⟨ho, rfl⟩
  · rw [if_neg hle, if_neg hle]
    exact ⟨get_setOrder_self ho _, rfl⟩

end

section Handlers

variable {s : Oms} {h : Nat} {o : Order} (u : OmsUpdate)
variable (m : OrderFillMsg)
variable (id : ClientOrderId)

theorem Edits.touch (ho : s.get h = some o) (o' : Order) (hterms : SameTerms o o')
    (hopen : o.state.isTerminal = false → o'.state.isTerminal = false)
    (hpend : o'.state = .pendingReplace ↔ o.state = .pendingReplace) :
    Edits (.slot h) s (s.setOrder h o') := .one (.touch ho hterms hopen hpend)

theorem Edits.finish (ho : s.get h = some o) (o' : Order) (hterms : SameTerms o o')
    (st : OrderState) (br : Bool) : Edits (.slot h) s (s.terminate u h o' st br).1 :=
  .one (.finish u st br ho hterms)

/-- An event is counted and the order ends. -/
theorem Edits.countFinish (ho : s.get h = some o) (f : OmsStats → OmsStats)
    (hopened : (f s.stats).opened = s.stats.opened)
    (hpending : (f s.stats).syntheticPending = s.stats.syntheticPending) (o' : Order)
    (hterms : SameTerms o o') (st : OrderState) (br : Bool) :
    Edits (.slot h) s ((s.withStats f).terminate u h o' st br).1 := by
  have hget : (s.withStats f).get h = some o := ho
  exact Edits.trans (Edits.quiet (alike_withStats s f hopened hpending))
    (Edits.finish u hget o' hterms st br)

theorem withOrder_edits {closed : OmsUpdate → Oms × OmsUpdate}
    {opened : Nat → Order → OmsUpdate → Oms × OmsUpdate} (hclosed : ∀ t u, Edits t s (closed u).1)
    (hopened : ∀ h o u, s.get h = some o → Edits (.slot h) s (opened h o u).1) :
    Edits (s.target id) s (s.withOrder id u closed opened).1 := by
  unfold withOrder lookup target
  cases s.ids.find id with
  | none => exact hclosed _ _
  | some ref =>
    cases ref with
    | opened h =>
      simp only
      cases ho : s.get h with
      | none => exact Edits.refl s
      | some o => exact hopened h o _ ho
    | terminal v =>
      cases s.findTerminal id <;> exact hclosed _ _

theorem onAckOpen_edits (m : OrderAckMsg) (ho : s.get h = some o) :
    Edits (.slot h) s (s.onAckOpen m h o u).1 := by
  have hdup : Edits (.slot h) s (if m.clOrdId = o.clOrdId ∧ (s.times h).t.venueAck = 0 then
        s.setTimes h { s.times h with t := { (s.times h).t with venueAck := m.hdr.exchTs } }
      else s) := by
    split
    · exact Edits.quiet (alike_setTimes s h _)
    · exact Edits.refl s
  unfold onAckOpen
  cases hst : o.state with
  | pendingNew =>
    refine Edits.trans ?_ (Edits.quiet (alike_setTimes _ _ _))
    refine Edits.trans ?_ (Edits.quiet (alike_withStats _ _ rfl rfl))
    exact Edits.touch ho _ (by constructor <;> rfl) (fun _ => rfl) (by simp [hst])
  | pendingReplace =>
    by_cases hid : m.clOrdId = o.pendingClOrdId
    · simp only [hid, if_true]
      have hrep := Edits.one (Edit.replace u (!m.amendedInPlace) ho hst)
      have hget := applyReplace_get ho u (o.pendingClOrdId ≠ o.clOrdId)
        (decide (o.pendingClOrdId ≠ o.clOrdId) && !m.amendedInPlace)
      refine Edits.trans ?_ (Edits.quiet (alike_setTimes _ _ _))
      refine Edits.trans hrep (Edits.touch hget _ (by constructor <;> rfl) ?_ Iff.rfl)
      exact id
    · simp only [hid, if_false]
      exact Edits.refl s
  | live => exact hdup
  | partiallyFilled => exact hdup
  | pendingCancel => exact hdup
  | filled => exact hdup
  | canceled => exact hdup
  | rejected => exact hdup
  | expired => exact hdup

/-- Withdrawing the pending replacement of an order and ending it is ending it. -/
theorem clearPending_terminate (ho : s.get h = some o) (st : OrderState) (br : Bool) :
    ((s.clearPending h o).1.terminate u h (s.clearPending h o).2 st br).1 =
      (s.terminate u h o st br).1 := by
  have hpool : (s.pool.set h (clearedOrder o)).free h = s.pool.free h := by
    have hl : (s.pool.slots h).isSome = true := by
      unfold get at ho
      simp [ho]
    simp [Pool.set, Pool.free, hl, update_idem]
  have hended : (s.clearPending h o).1.ended h (clearedOrder o) st br = s.ended h o st br := by
    rw [clearPending_fst]
    simp only [ended, hpool]
    rfl
  have hcleared : (s.clearPending h o).2 = clearedOrder o := rfl
  rw [terminate_fst, terminate_fst, hcleared, hended, clearPending_fst]
  rfl

theorem clearPending_setOrder : (s.clearPending h o).1.setOrder h
        { (s.clearPending h o).2 with state := workingState (s.clearPending h o).2 } =
      s.reverted h o := by
  rw [clearPending_fst]
  unfold setOrder reverted
  rw [Pool.set_set]
  rfl

theorem onRejectOpen_edits (m : OrderRejectMsg) (ho : s.get h = some o) :
    Edits (.slot h) s (s.onRejectOpen m h o u).1 := by
  unfold onRejectOpen
  by_cases hnew : o.state = .pendingNew
  · rw [if_pos hnew]
    exact Edits.countFinish _ ho _ rfl rfl _ (by constructor <;> rfl) _ _
  rw [if_neg hnew]
  by_cases hrep : o.state = .pendingReplace ∧ m.clOrdId = o.pendingClOrdId
  · rw [if_pos hrep]
    by_cases hold : o.flags.replaceOldCanceled = true
    · simp only [hold, if_true]
      rw [clearPending_terminate _ ho]
      exact Edits.finish _ ho o (SameTerms.refl o) _ _
    · simp only [hold, Bool.false_eq_true, if_false]
      rw [clearPending_setOrder]
      exact Edits.one (.revert ho hrep.1)
  · rw [if_neg hrep]
    exact Edits.refl s

theorem onCancelAckOpen_edits (m : OrderCancelAckMsg) (ho : s.get h = some o) :
    Edits (.slot h) s (s.onCancelAckOpen m h o u).1 := by
  have habs := Edits.one (Edit.absorb m.cumQty u ho)
  obtain ⟨hget, _⟩ := absorbCum_get ho m.cumQty u
  unfold onCancelAckOpen
  generalize s.absorbCum h o m.cumQty u = p at habs hget
  obtain ⟨s₁, o₁, u₁⟩ := p
  simp only at habs hget ⊢
  refine Edits.trans habs ?_
  split
  · rename_i hpend
    exact Edits.touch hget _ (by constructor <;> rfl) id Iff.rfl
  split
  · exact Edits.countFinish _ hget _ rfl rfl o₁ (SameTerms.refl o₁) _ _
  · split
    · exact Edits.countFinish _ hget _ rfl rfl _ (by constructor <;> rfl) _ _
    · exact Edits.finish _ hget o₁ (SameTerms.refl o₁) _ _

theorem onCancelRejectOpen_edits (m : OrderCancelRejectMsg) (ho : s.get h = some o) :
    Edits (.slot h) s (s.onCancelRejectOpen m h o u).1 := by
  unfold onCancelRejectOpen
  by_cases hpend : o.state = .pendingCancel
  · rw [if_neg (not_not.mpr hpend)]
    split_ifs with hgone
    · exact Edits.finish _ ho o (SameTerms.refl o) _ _
    · refine Edits.touch ho _ (by constructor <;> rfl) (fun _ => workingState_isTerminal o) ?_
      simp [hpend, workingState_ne_pendingReplace]
  · rw [if_pos hpend]
    exact Edits.refl s

theorem onExpiredOpen_edits (m : OrderExpiredMsg) (ho : s.get h = some o) :
    Edits (.slot h) s (s.onExpiredOpen m h o u).1 := by
  have habs := Edits.one (Edit.absorb m.cumQty u ho)
  obtain ⟨hget, _⟩ := absorbCum_get ho m.cumQty u
  unfold onExpiredOpen
  generalize s.absorbCum h o m.cumQty u = p at habs hget
  obtain ⟨s₁, o₁, u₁⟩ := p
  simp only at habs hget ⊢
  refine Edits.trans habs ?_
  split
  · exact Edits.countFinish _ hget _ rfl rfl o₁ (SameTerms.refl o₁) _ _
  · exact Edits.countFinish _ hget _ rfl rfl o₁ (SameTerms.refl o₁) _ _

theorem reconcileOpenOrderOpen_edits (m : ReconcileMsg) (ho : s.get h = some o) :
    Edits (.slot h) s (s.reconcileOpenOrderOpen m h o u).1 := by
  unfold reconcileOpenOrderOpen
  simp only
  generalize ho' : { o with
    flags := { o.flags with seenInReconcile := true, reconciled := true }
    venueOrderId :=
      if !o.venueOrderId.empty || !m.venueOrderId.empty then m.venueOrderId
      else o.venueOrderId } = o'
  have htouch : Edits (.slot h) s (s.setOrder h o') := by
    rw [← ho']
    exact Edits.touch ho _ (by constructor <;> rfl) id Iff.rfl
  have hset := get_setOrder_self ho o'
  have habs := Edits.one (Edit.absorb m.cumQty u hset)
  obtain ⟨hget, _⟩ := absorbCum_get hset m.cumQty u
  generalize (s.setOrder h o').absorbCum h o' m.cumQty u = p at habs hget
  obtain ⟨s₁, o₁, u₁⟩ := p
  simp only at habs hget ⊢
  refine Edits.trans htouch (Edits.trans habs ?_)
  split_ifs with hnew
  · refine Edits.touch hget _ (by constructor <;> rfl) (fun _ => workingState_isTerminal o₁) ?_
    simp [hnew, workingState_ne_pendingReplace]
  · exact Edits.refl s₁

theorem onFillOpen_edits (ho : s.get h = some o) : Edits (.slot h) s (s.onFillOpen m h o u).1 := by
  unfold onFillOpen
  simp only
  generalize (if o.venueOrderId.empty = true then m.venueOrderId else o.venueOrderId) = vid
  have hfill := Edits.one (Edit.fill m u.correctedQty vid ho)
  have hget : ((s.addOpenQty o.instrument o.side
    (-(filledCum m o u.correctedQty - o.cumQty))).setOrder
      h { o with cumQty := filledCum m o u.correctedQty, venueOrderId := vid }).get h =
      some { o with cumQty := filledCum m o u.correctedQty, venueOrderId := vid } :=
    get_setOrder_self (s := s.addOpenQty o.instrument o.side _) ho _
  refine Edits.trans hfill ?_
  split
  · exact Edits.countFinish _ hget _ rfl rfl _ (SameTerms.refl _) _ _
  refine Edits.touch hget _ (by constructor <;> rfl) ?_ ?_
  · intro hopen
    split
    · rfl
    · exact hopen
  · by_cases hst : o.state = .live ∨ o.state = .pendingNew
    · rcases hst with hst | hst <;> simp [hst]
    · simp [hst]

/-- A record written back is the one found. -/
theorem findTerminal_setTerminal {id : ClientOrderId} {r : TerminalRecord}
    (hr : s.findTerminal id = some r) (r' : TerminalRecord) :
    (s.setTerminal id r').findTerminal id = some r' := by
  have hpos := (RingBuffer.atPos_eq_some_iff.mp hr).1
  have hsame : (s.setTerminal id r').terminalPos id = s.terminalPos id := rfl
  unfold findTerminal
  rw [hsame]
  unfold setTerminal
  rw [RingBuffer.atPos_setPos hpos, if_pos rfl]

theorem lateFill_edits : Edits (.record m.clOrdId) s (s.lateFill m u).1 := by
  unfold lateFill
  cases hr : s.findTerminal m.clOrdId with
  | none => exact Edits.refl s
  | some r =>
    simp only
    split
    · exact Edits.refl s
    · dsimp only
      refine Edits.trans ?_ (Edits.quiet (alike_withStats _ _ rfl rfl))
      exact Edits.one (.late _ _ hr)

theorem takeSynthetic_slot_edits (qty : Qty) (ho : s.get h = some o) :
    Edits (.slot h) s (s.takeSynthetic (some h) id qty u).1 ∧
      (s.takeSynthetic (some h) id qty u).1.get h = some o := by
  unfold takeSynthetic
  simp only
  split_ifs with hpos
  · exact ⟨Edits.one (.take qty ho hpos), ho⟩
  · exact ⟨Edits.refl s, ho⟩

theorem takeSynthetic_record_edits (qty : Qty) :
    Edits (.record id) s (s.takeSynthetic none id qty u).1 := by
  unfold takeSynthetic
  cases hr : s.findTerminal id with
  | none => exact Edits.refl s
  | some r =>
    simp only
    split_ifs with hpos
    · exact Edits.one (.takeRecord qty hr hpos)
    · exact Edits.refl s

theorem takeNamed_slot_edits (ho : s.get h = some o) :
    Edits (.slot h) s (s.takeNamed m (some h) u).1 ∧
      (s.takeNamed m (some h) u).1.get h = some o := by
  unfold takeNamed
  split
  · simp only
    split
    · exact takeSynthetic_slot_edits u m.clOrdId _ ho
    · exact ⟨Edits.refl s, ho⟩
  · exact ⟨Edits.refl s, ho⟩

theorem takeNamed_record_edits : Edits (.record m.clOrdId) s (s.takeNamed m none u).1 := by
  unfold takeNamed
  split
  · simp only
    split
    · exact takeSynthetic_record_edits u m.clOrdId _
    · exact Edits.refl s
  · exact Edits.refl s

theorem onFillNew_edits (hu : u.known = false)
    (hlive : ∀ h, s.ids.find m.clOrdId = some (.opened h) → ∃ o, s.get h = some o) :
    Edits (s.target m.clOrdId) s (s.onFillNew m u).1 := by
  have hunknown : ∀ t, Edits t s ((s.withStats fun st =>
    { st with fills := st.fills + 1 }).withStats
      fun st => { st with unknownIds := st.unknownIds + 1 }) := fun t =>
    Edits.trans (Edits.quiet (alike_withStats s _ rfl rfl))
      (Edits.quiet (alike_withStats _ _ rfl rfl))
  unfold onFillNew lookup target
  cases hf : s.ids.find m.clOrdId with
  | none =>
    simp only [takeNamed, hu, Bool.false_eq_true, and_false, if_false]
    exact hunknown _
  | some ref =>
    cases ref with
    | opened h =>
      simp only
      obtain ⟨o, ho⟩ := hlive h hf
      obtain ⟨htake, hget⟩ := takeNamed_slot_edits { u with known := true, handle := some h } m ho
      generalize s.takeNamed m (some h) { u with known := true, handle := some h } = p at htake hget
      obtain ⟨s₁, u₁⟩ := p
      simp only at htake hget ⊢
      have hcount : (s₁.withStats fun st => { st with fills := st.fills + 1 }).get h =
        some o := hget
      simp only [hcount]
      refine Edits.trans htake ?_
      refine Edits.trans (Edits.quiet (alike_withStats s₁ (fun st => { st with
        fills := st.fills + 1 }) rfl rfl)) ?_
      exact onFillOpen_edits _ m hcount
    | terminal v =>
      cases hr : s.findTerminal m.clOrdId with
      | none =>
        simp only [takeNamed, hu, Bool.false_eq_true, and_false, if_false]
        exact hunknown _
      | some r =>
        simp only
        generalize ({ u with known := true, order := _ } : OmsUpdate) = u₀
        have htake := takeNamed_record_edits (s := s) u₀ m
        generalize s.takeNamed m none u₀ = p at htake
        obtain ⟨s₁, u₁⟩ := p
        refine Edits.trans htake ?_
        refine Edits.trans (Edits.quiet (alike_withStats s₁ (fun st => { st with
          fills := st.fills + 1 }) rfl rfl)) ?_
        split
        · refine Edits.trans ?_ (lateFill_edits _ m)
          exact Edits.quiet (alike_withStats _ _ rfl rfl)
        · exact Edits.quiet (by constructor <;> rfl)

/-- The state once `remember_exec` has filed an execution: one without an id is
not filed. -/
def remembered (s : Oms) (m : OrderFillMsg) : Oms :=
  if m.execId.empty then s else { s with execSeen := (s.execSeen.assign (execKey m)).2 }

/-- A duplicate is counted and nothing else; a new execution is booked. -/
theorem onFill_eq : s.onFill m =
      if m.execId.empty = false ∧ execKey m ∈ s.execSeen.keys then
        ((s.remembered m).withStats fun st => { st with duplicates := st.duplicates + 1 },
          { fillQty := m.qty, fillPx := m.price, action := .duplicate })
      else (s.remembered m).onFillNew m { fillQty := m.qty, fillPx := m.price } := by
  unfold onFill remembered
  cases hid : m.execId.empty with
  | true => rfl
  | false =>
    simp only [Bool.false_eq_true, if_false, true_and]
    by_cases hkey : execKey m ∈ s.execSeen.keys
    · have hnew : (s.execSeen.assign (execKey m)).1 = false := by
        rw [← Bool.not_eq_true, RecentKeys.assign_fst_eq_true_iff]
        exact not_not.mpr hkey
      rw [if_pos hkey, hnew]
      rfl
    · rw [if_neg hkey, (RecentKeys.assign_fst_eq_true_iff _ _).mpr hkey]
      rfl

theorem onFill_edits
    (hlive : ∀ h, s.ids.find m.clOrdId = some (.opened h) → ∃ o, s.get h = some o) :
    Edits (s.target m.clOrdId) (s.remembered m) (s.onFill m).1 := by
  have hids : (s.remembered m).ids = s.ids := by
    unfold remembered
    split <;> rfl
  have hget : (s.remembered m).get = s.get := by
    unfold remembered
    split <;> rfl
  have htarget : (s.remembered m).target m.clOrdId = s.target m.clOrdId := by
    unfold target
    rw [hids]
  rw [onFill_eq]
  split
  · exact Edits.quiet (by constructor <;> rfl)
  rw [← htarget]
  refine onFillNew_edits { fillQty := m.qty, fillPx := m.price } m rfl ?_
  rw [hids, hget]
  exact hlive

end Handlers

/-- The state once a message's execution has been filed. -/
def heard (s : Oms) : Msg → Oms
  | .fill m => s.remembered m
  | _ => s

/-- Only the execution memory has changed. -/
theorem heard_eq (s : Oms) (m : Msg) : ∃ seen, s.heard m = { s with execSeen := seen } := by
  cases m with
  | fill m =>
    by_cases hid : m.execId.empty = true
    · exact ⟨s.execSeen, if_pos hid⟩
    · exact ⟨(s.execSeen.assign (execKey m)).2, if_neg hid⟩
  | _ => exact ⟨s.execSeen, rfl⟩

/-- Every message is a chain of edits of what its id names, once its execution
has been filed. -/
theorem receive_edits {s : Oms} (m : Msg)
    (hlive : ∀ id h, s.ids.find id = some (.opened h) → ∃ o, s.get h = some o) :
    Edits (s.target m.clOrdId) (s.heard m) (s.receive m).1 := by
  have hignored : ∀ (t : Target) (u : OmsUpdate), Edits t s (s, { u with action := .ignored }).1 :=
    fun _ _ => Edits.refl s
  cases m with
  | ack m =>
    refine withOrder_edits {} m.clOrdId ?_ fun h o u ho => onAckOpen_edits u m ho
    intro t u
    unfold onAckClosed
    split
    · exact Edits.quiet (by constructor <;> rfl)
    · split <;> exact Edits.refl s
  | reject m => exact withOrder_edits {} m.clOrdId hignored fun h o u ho =>
    onRejectOpen_edits u m ho
  | cancelAck m =>
    exact withOrder_edits {} m.clOrdId hignored fun h o u ho => onCancelAckOpen_edits u m ho
  | cancelReject m =>
    exact withOrder_edits {} m.clOrdId hignored fun h o u ho => onCancelRejectOpen_edits u m ho
  | fill m => exact onFill_edits m (hlive m.clOrdId)
  | expired m =>
    exact withOrder_edits {} m.clOrdId hignored fun h o u ho => onExpiredOpen_edits u m ho
  | openOrder m =>
    refine withOrder_edits {} m.clOrdId ?_ fun h o u ho => reconcileOpenOrderOpen_edits u m ho
    intro t u
    exact Edits.quiet (by constructor <;> rfl)

/-- At most one order is touched. -/
def Touched (h : Nat) (s s' : Oms) : Prop :=
  s' = s ∨ ∃ o o', s.get h = some o ∧ SameTerms o o' ∧
    (o.state.isTerminal = false → o'.state.isTerminal = false) ∧
    (o'.state = .pendingReplace ↔ o.state = .pendingReplace) ∧ s' = s.setOrder h o'

theorem Touched.edits {h : Nat} {s s' : Oms} (ht : Touched h s s') : Edits (.slot h) s s' := by
  rcases ht with rfl | ⟨o, o', ho, hterms, hopen, hpend, rfl⟩
  · exact Edits.refl s'
  · exact Edits.touch ho o' hterms hopen hpend

/-- The first pass of a reconciliation only touches orders. -/
theorem clearSeen_touched (venue : VenueId) (s : Oms) (h : Nat) :
    Touched h s (clearSeen venue s h) := by
  unfold clearSeen
  cases ho : s.get h with
  | none => exact Or.inl rfl
  | some o =>
    simp only
    split
    · refine Or.inr ⟨o, { o with flags := { o.flags with seenInReconcile := false } }, ho, ?_, ?_,
        Iff.rfl, rfl⟩
      · constructor <;> rfl
      · exact id
    · exact Or.inl rfl

/-- What quiet changes and touches keep, the start of a reconciliation keeps. -/
theorem reconcileBegin_keeps {Inv : Oms → Prop} (hquiet : ∀ s s', Inv s → Alike s s' → Inv s')
    (htouch : ∀ h s s', Inv s → Touched h s s' → Inv s') (s : Oms) (venue : VenueId)
    (wm : Option ClientOrderId) (h : Inv s) : Inv (s.reconcileBegin venue wm) := by
  have hfold : ∀ (hs : List Nat) (s : Oms), Inv s → Inv (hs.foldl (clearSeen venue) s) := by
    intro hs
    induction hs with
    | nil => exact fun s h => h
    | cons hd rest ih =>
      intro s h
      exact ih _ (htouch hd s _ h (clearSeen_touched venue s hd))
  refine hfold _ _ (hquiet s _ h ?_)
  constructor <;> rfl

/-- An order `reconcile_end` ends is an end like any other. -/
theorem reconcileEndOne_edits {s s' : Oms} {h : Nat} {u : OmsUpdate}
    (hone : s.reconcileEndOne h = some (s', u)) : Edits (.slot h) s s' := by
  unfold reconcileEndOne at hone
  cases ho : s.get h with
  | none =>
    simp [ho] at hone
  | some o =>
    rw [ho] at hone
    simp only [Option.some.injEq] at hone
    have hs' : s' = _ := (congrArg Prod.fst hone).symm
    rw [hs']
    split
    · exact Edits.countFinish _ ho _ rfl rfl _ (by constructor <;> rfl) _ _
    · exact Edits.finish _ ho _ (by constructor <;> rfl) _ _

/-- `request_cancel` and `request_cancel_unacked` touch the order. -/
theorem requestCancel_touched (s : Oms) (h : Nat) :
    Touched h s (s.requestCancel h).1 ∧ Touched h s (s.requestCancelUnacked h).1 := by
  unfold requestCancel requestCancelUnacked
  cases ho : s.get h with
  | none => exact ⟨Or.inl rfl, Or.inl rfl⟩
  | some o =>
    simp only
    constructor
    · split_ifs with hw
      · refine Or.inr ⟨o, _, ho, by constructor <;> rfl, fun _ => rfl, ?_, rfl⟩
        unfold Order.isWorking at hw
        constructor
        · intro hst
          nomatch hst
        · intro hst
          rw [hst] at hw
          exact absurd hw (by decide)
      · exact Or.inl rfl
    · split_ifs with hn
      · refine Or.inr ⟨o, _, ho, by constructor <;> rfl, fun _ => rfl, ?_, rfl⟩
        simp [hn]
      · exact Or.inl rfl

/-! ## Outbound calls -/

/-- The state `submit` leaves, without the best own price. -/
def submitted (s : Oms) (h : Nat) (pool : Pool Order kMaxOpenOrders) (ids : IdMap) (o : Order)
    (now : Timestamp) : Oms :=
  { s with
    pool := pool.set h o
    ids := ids
    byInst := s.byInst.set (BucketBits.bucket kMaxInstruments o.instrument.value) h
    times := update s.times h ⟨⟨now, 0, 0⟩, 0⟩
    estimates := update s.estimates h {}
    stats := { s.stats with
      submitted := s.stats.submitted + 1
      opened := s.stats.opened + 1 }
    openPerInst := fun i =>
      if i = o.instrument.value then s.openPerInst i + 1 else s.openPerInst i
    openQty := fun i side =>
      if i = o.instrument.value ∧ side = o.side then s.openQty i side + o.qty
      else s.openQty i side }

theorem get_submitted {s : Oms} {h : Nat} {pool : Pool Order kMaxOpenOrders} (ids : IdMap)
    (o : Order) (now : Timestamp) (halloc : s.pool.allocate = some (h, pool)) (k : Nat) :
    (s.submitted h pool ids o now).get k = if k = h then some o else s.get k := by
  obtain ⟨_, _, hslots⟩ := Pool.allocate_spec halloc
  have hlive : pool.slots h = some default := by rw [hslots, if_pos rfl]
  refine (Pool.slots_set hlive k).trans ?_
  rw [hslots]
  split <;> rfl

/-- What `submit` does when it succeeds. -/
structure SubmitOk (s s' : Oms) (req : NewOrderRequest) (id : ClientOrderId) (now : Timestamp)
    (h : Nat) : Prop where
  instrument : req.instrument.value < kMaxInstruments
  fresh : s.openHandle id = none
  state : ∃ pool ids, s.pool.allocate = some (h, pool) ∧
    s.ids.assign id (.opened h) = some ids ∧
    s' =
      if s.bestOwn req.instrument.value req.side = 0 ∨
          better req.side req.price (s.bestOwn req.instrument.value req.side) = true then
        (s.submitted h pool ids (submittedOrder req id now) now).setBestOwn
          req.instrument req.side req.price
      else s.submitted h pool ids (submittedOrder req id now) now

/-- `submit` places the order in a slot or leaves the bookkeeping alone. -/
theorem submit_cases (s : Oms) (req : NewOrderRequest) (id : ClientOrderId) (now : Timestamp) :
    (∃ h, (s.submit req id now).2 = .ok h ∧ SubmitOk s (s.submit req id now).1 req id now h) ∨
      ((∃ e, (s.submit req id now).2 = .error e) ∧ Alike s (s.submit req id now).1) := by
  have hsame : Alike s s := by constructor <;> rfl
  unfold submit
  by_cases hi : kMaxInstruments ≤ req.instrument.value
  · rw [if_pos hi]
    exact Or.inr ⟨⟨_, rfl⟩, hsame⟩
  rw [if_neg hi]
  split_ifs with hopen
  · exact Or.inr ⟨⟨_, rfl⟩, hsame⟩
  cases ha : s.pool.allocate with
  | none => exact Or.inr ⟨⟨_, rfl⟩, hsame⟩
  | some hp =>
    obtain ⟨h, pool⟩ := hp
    obtain ⟨hdead, _, hslots⟩ := Pool.allocate_spec ha
    simp only [addOpen]
    cases hassign : s.ids.assign id (.opened h) with
    | none =>
      refine Or.inr ⟨⟨_, rfl⟩, ?_⟩
      refine ⟨rfl, ?_, rfl, rfl, rfl, rfl, rfl, rfl, rfl, rfl, rfl, rfl⟩
      funext k
      have hlive : pool.slots h = some default := by rw [hslots, if_pos rfl]
      refine (Pool.slots_free hlive k).trans ?_
      rw [hslots]
      split_ifs with hk
      · rw [hk, hdead]
      · rfl
    | some ids =>
      refine Or.inl ⟨h, rfl, by omega, by simpa using hopen, pool, ids, ha, hassign, ?_⟩
      rfl

/-- What `request_replace` does when it succeeds: the new id names the slot, and
the order waits. -/
structure ReplaceOk (s s' : Oms) (h : Nat) (newId : ClientOrderId) (px : Price) (qty : Qty)
    (now : Timestamp) (o : Order) : Prop where
  order : s.get h = some o
  working : o.isWorking = true
  state : ∃ ids, ((newId = o.clOrdId ∧ ids = s.ids) ∨
      (newId ≠ o.clOrdId ∧ s.openHandle newId = none ∧
        s.ids.assign newId (.opened h) = some ids)) ∧
    s' = { s with
      ids := ids
      pool := s.pool.set h (pendingOrder o newId px qty)
      times := update s.times h { s.times h with replaceSent := now } }

/-- `request_replace` marks the order or leaves the state alone. -/
theorem requestReplace_cases (s : Oms) (h : Nat) (newId : ClientOrderId) (px : Price) (qty : Qty)
    (now : Timestamp) :
    (∃ o, (s.requestReplace h newId px qty now).2 = .ok () ∧
        ReplaceOk s (s.requestReplace h newId px qty now).1 h newId px qty now o) ∨
      ((∃ e, (s.requestReplace h newId px qty now).2 = .error e) ∧
        (s.requestReplace h newId px qty now).1 = s) := by
  unfold requestReplace
  cases ho : s.get h with
  | none => exact Or.inr ⟨⟨_, rfl⟩, rfl⟩
  | some o =>
    simp only
    by_cases hw : o.isWorking = true
    · rw [if_pos hw]
      by_cases hid : newId = o.clOrdId
      · rw [if_neg (not_not.mpr hid)]
        exact Or.inl ⟨o, rfl, ho, hw, s.ids, Or.inl ⟨hid, rfl⟩, rfl⟩
      rw [if_pos hid]
      by_cases hopen : (s.openHandle newId).isSome = true
      · rw [if_pos hopen]
        exact Or.inr ⟨⟨_, rfl⟩, rfl⟩
      rw [if_neg hopen]
      cases ha : s.ids.assign newId (.opened h) with
      | none =>
        simp only [addOpen, ha]
        exact Or.inr ⟨⟨_, rfl⟩, rfl⟩
      | some ids =>
        simp only [addOpen, ha]
        exact Or.inl ⟨o, rfl, ho, hw, ids, Or.inr ⟨hid, by simpa using hopen, ha⟩, rfl⟩
    · rw [if_neg hw]
      exact Or.inr ⟨⟨_, rfl⟩, rfl⟩

/-! ## The rule for runs -/

/-- The invariant rule over edits: what holds of a fresh order management, is
kept by every edit, by the two calls that are not edits and by whatever the
execution memory holds, and never leaves an id naming a dead slot, holds in every
reachable state. -/
theorem Reachable.of_edits {P : Oms → Call → Prop} {Inv : Oms → Prop}
    (hinit : ∀ epoch maxSeq, Inv (Oms.init epoch maxSeq))
    (hlive : ∀ s, Inv s → ∀ id h, s.ids.find id = some (.opened h) → ∃ o, s.get h = some o)
    (hheard : ∀ s seen, Inv s → Inv { s with execSeen := seen })
    (hedit : ∀ t s s', Inv s → Edit t s s' → Inv s')
    (hsubmit : ∀ s req id now, Inv s → P s (.submit req id now) →
      Inv (s.submit req id now).1)
    (hreplace : ∀ s h newId px qty now, Inv s → P s (.requestReplace h newId px qty now) →
      Inv (s.requestReplace h newId px qty now).1)
    {s : Oms} (h : Reachable P s) : Inv s := by
  refine Reachable.induction hinit ?_ ?_ ?_ ?_ h
  · intro s c hs hc
    cases c with
    | submit req id now => exact hsubmit s req id now hs hc
    | requestCancel h => exact Edits.keeps (hedit _) (s.requestCancel_touched h).1.edits hs
    | requestCancelUnacked h =>
      exact Edits.keeps (hedit _) (s.requestCancel_touched h).2.edits hs
    | requestReplace h newId px qty now => exact hreplace s h newId px qty now hs hc
  · intro s m hs
    refine Edits.keeps (hedit _) (receive_edits m (hlive s hs)) ?_
    obtain ⟨seen, hseen⟩ := s.heard_eq m
    rw [hseen]
    exact hheard s seen hs
  · intro s venue wm hs
    refine reconcileBegin_keeps ?_ ?_ s venue wm hs
    · exact fun s s' hs hq => hedit .none s s' hs (.quiet hq)
    · exact fun h s s' hs ht => Edits.keeps (hedit _) ht.edits hs
  · exact fun s h s' u hs hone => Edits.keeps (hedit _) (reconcileEndOne_edits hone) hs

end Oms

end FastMM
