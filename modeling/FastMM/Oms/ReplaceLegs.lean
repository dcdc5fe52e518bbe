/-
  Oms/ReplaceLegs.lean --- the two legs of a cancel-replace.

  A replace to a new id is two orders at the venue: the old leg, which may still
  fill and is canceled, and the new leg, whose cumulative quantity starts from
  zero.  The order management holds both in one slot until the new leg's ack,
  which leaves the old leg a record if it holds an estimate and drops its id if
  it does not.

  `Legs` is the order management beside what the venue has executed of either
  leg, which of those executions were taken (not dropped as duplicates), and the
  quantity booked for either.
-/
import FastMM.Oms.Executions
set_option autoImplicit false

namespace FastMM

open Foundation

namespace Oms

/-! ## The ack of the new leg -/

section Ack

variable {s s' : Oms} {h : Nat} {o : Order} {a b id : ClientOrderId} {q : Qty} {L : Ledger}

/-- A change that moves no id forgets none. -/
theorem Frame.ledger_eq (hfr : Frame id s s') (hids : s'.ids = s.ids) :
    s'.ledger id = s.ledger id := by
  rcases hfr with ⟨hn, v, hv⟩ | ⟨_, hl⟩
  · simp [hids, hv] at hn
  · exact hl

/-- The terms of a replacement in flight. -/
theorem pendingLeg_some (hpend : pendingLeg o = some (b, q)) :
    o.state = .pendingReplace ∧ o.pendingClOrdId = b ∧ o.pendingQty = q := by
  unfold pendingLeg at hpend
  split at hpend
  · have hpair := Option.some.inj hpend
    exact ⟨‹_›, congrArg Prod.fst hpair, congrArg Prod.snd hpair⟩
  · nomatch hpend

/-- Both ids of an order whose replacement is in flight name its slot. -/
theorem ledger_pending (hok : IdsOk s) (hl : s.ledger a = some L) (hown : L.own = true)
    (hpend : L.pending = some (b, q)) :
    ∃ h o, s.get h = some o ∧ o.clOrdId = a ∧ pendingLeg o = some (b, q) ∧
      L = openLedger o (s.estimates h) a ∧ s.ids.find a = some (.opened h) ∧
      s.ids.find b = some (.opened h) := by
  rcases ledger_cases hl with ⟨h, o, hf, ho, rfl⟩ | ⟨v, r, _, _, rfl⟩
  · have hid : o.clOrdId = a := by simpa [openLedger] using hown
    obtain ⟨hst, hb, _⟩ := pendingLeg_some hpend
    exact ⟨h, o, ho, hid, hpend, rfl, hf, hok.names h o b ho (Or.inr ⟨hst, hb⟩)⟩
  · exact absurd hpend (by simp [recordLedger])

/-- The legs once the replacement has taken effect as a new venue order: the new
one starts from zero; the old one has a record with what it counted, or is
dropped when nothing of it is estimated. -/
theorem ledger_replaced (hok : IdsOk s) (hacc : Accounts s) (ho : s.get h = some o)
    (hid : o.clOrdId = a) (hpend : pendingLeg o = some (b, q)) (hne : b ≠ a) :
    (s.replaced h o true true).ledger b = some ⟨q, 0, 0, false, false, none, true⟩ ∧
      ((∃ L', (s.replaced h o true true).ledger a = some L' ∧
          (openLedger o (s.estimates h) a).Settled L' ∧ L'.ended = true) ∨
        ((s.replaced h o true true).ids.find a = none ∧ (s.estimates h).qty = 0)) := by
  obtain ⟨hst, hb, hq⟩ := pendingLeg_some hpend
  have hrekey : true = decide (o.pendingClOrdId ≠ o.clOrdId) := by
    rw [hb, hid]
    simp [hne]
  have hfa : s.ids.find o.clOrdId = some (.opened h) := hok.names h o _ ho (Or.inl rfl)
  have hfb : s.ids.find b = some (.opened h) := hok.names h o b ho (Or.inr ⟨hst, hb⟩)
  obtain ⟨hkept, _, _⟩ := hok.replaced_ids ho true true hrekey
  have hfb' := hkept b h hfb fun _ => hid.symm ▸ hne
  have hget : (s.replaced h o true true).get h = some (replacedOrder o true true) :=
    (Pool.slots_set ho h).trans (if_pos rfl)
  -- The new leg counts nothing and holds no estimate.
  have hpos : 0 < o.pendingQty := (hacc.orders h o ho).pending_pos hst
  have hest : ((s.replaced h o true true).estimates h).qty = 0 := by
    have hnonneg := hacc.est_nonneg h o ho
    unfold Oms.replaced keepsRecord
    simp only [Bool.true_and]
    by_cases he : 0 < (s.estimates h).qty
    · simp [he]
    · simp only [he, decide_false, Bool.false_eq_true, if_false]
      exact le_antisymm (not_lt.mp he) hnonneg
  have hnew : openLedger (replacedOrder o true true) ((s.replaced h o true true).estimates h) b =
      ⟨q, 0, 0, false, false, none, true⟩ := by
    rw [hq] at hpos
    have hcum : ¬ q < 0 := not_lt.mpr (le_of_lt hpos)
    have hleg : pendingLeg (replacedOrder o true true) = none := by
      rw [pendingLeg_eq_none]
      simp [replacedOrder, hq, hcum]
    unfold openLedger
    rw [hest, hleg]
    simp [replacedOrder, hcum, hb, hq]
  refine ⟨(ledger_opened hfb' hget).trans (congrArg some hnew), ?_⟩
  by_cases he : 0 < (s.estimates h).qty
  · -- The old leg keeps a record.
    have hkeep : s.keepsRecord h true true = true := by simp [keepsRecord, he]
    have hterm : (rememberedIds s.ids s.recentlyTerminal o.clOrdId).find o.clOrdId =
        some (terminalRef s.recentlyTerminal.tail) := by
      rw [find_rememberedIds hfa, if_pos rfl]
    have hids : (s.replaced h o true true).ids =
        rememberedIds s.ids s.recentlyTerminal o.clOrdId := by
      unfold Oms.replaced
      simp only [hkeep, if_true]
      exact find_openErased_of_terminal hterm
    have hring : (s.replaced h o true true).recentlyTerminal =
        s.recentlyTerminal.push (oldLegRecord o (s.estimates h)) := by
      unfold Oms.replaced
      simp only [hkeep, if_true]
    have hf : (s.replaced h o true true).ids.find a =
        some (terminalRef s.recentlyTerminal.tail) := by
      rw [hids, ← hid]
      exact hterm
    have hat : (s.replaced h o true true).recentlyTerminal.atPos s.recentlyTerminal.tail =
        some (oldLegRecord o (s.estimates h)) := by
      rw [hring, RingBuffer.atPos_push (by decide), if_pos rfl]
    have hfound : (s.replaced h o true true).findTerminal a =
        some (oldLegRecord o (s.estimates h)) := by
      unfold findTerminal
      rw [terminalPos_eq hf rfl hat]
      exact hat
    refine Or.inl ⟨_, ledger_terminal hf hfound, ?_, rfl⟩
    refine recordLedger_moved rfl hid _ false ?_ _ _
    intro hfull
    split at hfull
    · rename_i hle
      exact hle
    · nomatch hfull
  · -- Nothing is estimated, and the old id is dropped.
    have hkeep : s.keepsRecord h true true = false := by simp [keepsRecord, he]
    have hids : (s.replaced h o true true).ids = openErased s.ids o.clOrdId := by
      unfold Oms.replaced
      simp only [hkeep, Bool.false_eq_true, if_false, if_true]
    refine Or.inr ⟨?_, le_antisymm (not_lt.mp he) (hacc.est_nonneg h o ho)⟩
    rw [hids, ← hid, find_openErased hfa, if_pos rfl]

/-- The best own price is no part of a ledger. -/
theorem ledger_applyReplace (s : Oms) (u : OmsUpdate) (h : Nat) (o : Order)
    (rekey newVenueOrder : Bool) (id : ClientOrderId) :
    (s.applyReplace u h o rekey newVenueOrder).1.ids = (s.replaced h o rekey newVenueOrder).ids ∧
      (s.applyReplace u h o rekey newVenueOrder).1.ledger id =
        (s.replaced h o rekey newVenueOrder).ledger id := by
  rw [applyReplace_fst]
  split
  · exact ⟨rfl, rfl⟩
  · split
    · exact ⟨rfl, rfl⟩
    · exact ⟨rfl, rfl⟩

theorem applyReplace_booked (s : Oms) (u : OmsUpdate) (h : Nat) (o : Order)
    (rekey newVenueOrder : Bool) :
    (s.applyReplace u h o rekey newVenueOrder).2.2.booked = u.booked := by
  unfold applyReplace
  simp only
  split
  · exact rememberTerminal_booked (s.addOpenQty o.instrument o.side (-o.leavesQty))
      (oldLegRecord o (s.estimates h)) u
  · rfl

/-- An ack that completes a replace writes the order's venue id and times after
it, and books nothing. -/
theorem onAckOpen_replace (hst : o.state = .pendingReplace) {m : OrderAckMsg}
    (hm : m.clOrdId = o.pendingClOrdId) (hrekey : decide (o.pendingClOrdId ≠ o.clOrdId) = true)
    (hnew : m.amendedInPlace = false) (u : OmsUpdate) :
    (∃ t, (s.onAckOpen m h o u).1 =
        ((s.applyReplace u h o true true).1.setOrder h
          { replacedOrder o true true with venueOrderId := m.venueOrderId }).setTimes h t) ∧
      (s.onAckOpen m h o u).2.booked = u.booked := by
  have hbooked := applyReplace_booked s u h o true true
  unfold onAckOpen
  simp only [hst, hm, if_true, hrekey, hnew, Bool.not_false, Bool.and_self]
  refine ⟨⟨_, rfl⟩, ?_⟩
  generalize (s.applyReplace u h o true true) = p at hbooked
  obtain ⟨s₁, o₁, u₁⟩ := p
  simp only at hbooked ⊢
  split
  · exact hbooked
  · exact hbooked

/-- The ack of the new leg. -/
theorem onAck_replaced (hok : IdsOk s) (hacc : Accounts s) (hl : s.ledger a = some L)
    (hown : L.own = true) (hpend : L.pending = some (b, q)) (hne : b ≠ a) {m : OrderAckMsg}
    (hm : m.clOrdId = b) (hnew : m.amendedInPlace = false) :
    (s.onAck m).1.ledger b = some ⟨q, 0, 0, false, false, none, true⟩ ∧
      ((∃ L', (s.onAck m).1.ledger a = some L' ∧ L.Settled L' ∧ L'.ended = true) ∨
        ((s.onAck m).1.ids.find a = none ∧ L.est = 0)) ∧
      (s.onAck m).2.booked = 0 := by
  obtain ⟨h, o, ho, hid, hleg, rfl, _, hfb⟩ := ledger_pending hok hl hown hpend
  obtain ⟨hst, hb, _⟩ := pendingLeg_some hleg
  have hrekey : decide (o.pendingClOrdId ≠ o.clOrdId) = true := by
    rw [hb, hid]
    simp [hne]
  obtain ⟨hlb, hla⟩ := ledger_replaced hok hacc ho hid hleg hne
  have hack : ∃ u : OmsUpdate, u.Blank ∧ s.onAck m = s.onAckOpen m h o u := by
    unfold onAck withOrder lookup
    simp only [hm, hfb, ho]
    exact ⟨_, ⟨rfl, rfl, rfl⟩, rfl⟩
  obtain ⟨u, hu, hack⟩ := hack
  obtain ⟨⟨t, hfst⟩, hbooked⟩ := onAckOpen_replace (s := s) (h := h) hst (hm.trans hb.symm) hrekey
    hnew u
  have hget := applyReplace_get ho u true true
  have hokr : IdsOk (s.applyReplace u h o true true).1 := by
    have hedit := hok.edit (Edit.replace u true ho hst)
    simp only [hrekey, Bool.and_self] at hedit
    exact hedit
  -- Writing the venue id and the times moves no ledger.
  have hsame : ∀ id, (s.onAck m).1.ledger id = (s.replaced h o true true).ledger id := by
    intro id
    have htouch : Touched h (s.applyReplace u h o true true).1
        ((s.applyReplace u h o true true).1.setOrder h
          { replacedOrder o true true with venueOrderId := m.venueOrderId }) :=
      Or.inr ⟨_, { replacedOrder o true true with venueOrderId := m.venueOrderId }, hget,
        by constructor <;> rfl, fun hopen => hopen, Iff.rfl, rfl⟩
    have hfr : Frame id _ _ := Frame.of_touched hokr htouch
    rw [hack, hfst]
    exact (hfr.ledger_eq rfl).trans (ledger_applyReplace s u h o true true id).2
  have hids : (s.onAck m).1.ids = (s.replaced h o true true).ids := by
    rw [hack, hfst]
    exact (ledger_applyReplace s u h o true true a).1
  rw [hsame, hsame, hids, hack, hbooked]
  exact ⟨hlb, hla, hu.booked⟩

end Ack

/-! ## One leg -/

/-- What the venue has executed of a leg, which executions were taken, and the
quantity booked for it. -/
structure Leg where
  executed : Nat := 0
  taken : Finset Nat := ∅
  booked : Qty := 0

/-- A fill of the leg is handled. -/
def Leg.fill (l : Leg) (s : Oms) (i : Nat) (m : OrderFillMsg) : Leg :=
  { l with
    taken := if s.Duplicate m then l.taken else insert i l.taken
    booked := l.booked + (s.onFill m).2.booked }

/-- Any other message of the leg is handled. -/
def Leg.hear (l : Leg) (s : Oms) (m : Msg) : Leg :=
  { l with booked := l.booked + (s.receive m).2.booked }

/-- A leg on its own in the order management: its ledger, or the last one it had
before it was forgotten, agrees with its executions and bookings. -/
structure LegOk (V : VenueOrder) (s : Oms) (l : Leg) : Prop where
  executed_le : l.executed ≤ V.n
  taken_lt : ∀ i ∈ l.taken, i < l.executed
  ledger : ∃ L, Conserved V l.executed l.taken l.booked L ∧ L.Plain ∧
    (s.ids.find V.id = none ∨ s.ledger V.id = some L)

section Leg

variable {V : VenueOrder} {s s' : Oms} {l : Leg}

theorem LegOk.booked_le (h : LegOk V s l) : l.booked ≤ V.cum l.executed := by
  obtain ⟨L, hcons, _⟩ := h.ledger
  exact hcons.booked_le

theorem LegOk.execute (h : LegOk V s l) (hlt : l.executed < V.n) :
    LegOk V s { l with executed := l.executed + 1 } := by
  obtain ⟨L, hcons, hrest⟩ := h.ledger
  exact ⟨hlt, fun i hi => Nat.lt_succ_of_lt (h.taken_lt i hi), L, hcons.execute hlt, hrest⟩

/-- A leg of which nothing was taken. -/
theorem LegOk.fresh (hex : l.executed ≤ V.n) (htaken : l.taken = ∅) (hbooked : l.booked = 0)
    (hl : s.ids.find V.id = none ∨ s.ledger V.id = some V.placedLedger) : LegOk V s l := by
  refine ⟨hex, ?_, V.placedLedger, ?_, ⟨rfl, rfl⟩, hl⟩
  · rw [htaken]
    exact fun i hi => nomatch hi
  rw [htaken, hbooked]
  refine ⟨rfl, fun i hi => absurd hi (by simp), le_refl _, ?_, ?_, V.cum_nonneg hex⟩
  · simp [VenueOrder.placedLedger, VenueOrder.sum]
  · simp [VenueOrder.placedLedger, VenueOrder.sum]

section

variable (h : LegOk V s l) (hok : IdsOk s)
include h hok

/-- Traffic that is not about the leg. -/
theorem LegOk.traffic {op : Op}
    (hmsg : ∀ m, op = .msg m → m.clOrdId ≠ V.id) (hop : op.Admits (OtherCall V.id) s) :
    LegOk V (s.step op) l := by
  obtain ⟨L, hcons, hplain, hl⟩ := h.ledger
  have hkept : Kept V.id (fun _ => False) s L (s.step op) :=
    traffic_kept hok hplain hl op (fun m hm => ⟨hmsg m hm, fun _ _ _ hc => hc⟩) hop
  refine ⟨h.executed_le, h.taken_lt, ?_⟩
  rcases hkept.ledger with hf | ⟨L', hl', hset⟩
  · exact ⟨L, hcons, hplain, Or.inl hf⟩
  · exact ⟨L', hcons.settled hset, hset.plain hplain, Or.inr hl'⟩

/-- A message of another order. -/
theorem LegOk.other {m : Msg} (hne : m.clOrdId ≠ V.id) :
    LegOk V (s.receive m).1 l :=
  @LegOk.traffic V s l h hok (.msg m) (fun _ hm => Op.msg.inj hm ▸ hne) trivial

/-- A fill of the leg: taken unless it is a duplicate.  An execution taken before
is still in the execution memory, and a leg that is no longer known had nothing
estimated. -/
theorem LegOk.fill (hacc : Accounts s) {i : Nat}
    {m : OrderFillMsg} (hi : i < l.executed) (hm : V.Live i m)
    (hmem : i ∈ l.taken → V.key i ∈ s.execSeen.keys)
    (hknown : s.ids.find V.id ≠ none ∨ l.booked = V.sum l.taken) :
    LegOk V (s.onFill m).1 (l.fill s i m) := by
  obtain ⟨L, hcons, hplain, hl⟩ := h.ledger
  by_cases hdup : s.Duplicate m
  · obtain ⟨hids, hled, hbook⟩ := onFill_duplicate m hdup V.id
    refine ⟨h.executed_le, ?_, L, ?_, hplain, ?_⟩
    · simp only [Leg.fill, if_pos hdup]
      exact h.taken_lt
    · simp only [Leg.fill, if_pos hdup, hbook, add_zero]
      exact hcons
    · rw [hids, hled]
      exact hl
  · have hempty : m.execId.empty = false := by
      rw [hm.execId]
      exact V.execId_nonempty i (lt_of_lt_of_le hi h.executed_le)
    have hnew : i ∉ l.taken := fun hin => hdup ⟨hempty, hm.execKey ▸ hmem hin⟩
    have hlt : ∀ j ∈ insert i l.taken, j < l.executed := by
      intro j hj
      rcases Finset.mem_insert.mp hj with rfl | hj
      · exact hi
      · exact h.taken_lt j hj
    refine ⟨h.executed_le, ?_, ?_⟩
    · simp only [Leg.fill, if_neg hdup]
      exact hlt
    simp only [Leg.fill, if_neg hdup]
    rcases hl with hf | hl
    · -- Forgotten: the execution is booked in full.
      have hest := hknown.resolve_left (not_not.mpr hf)
      have hf' : s.ids.find m.clOrdId = none := by
        rw [hm.clOrdId]
        exact hf
      obtain ⟨_, hfr⟩ := receive_frame hok V.id (.fill m) (Or.inl hf)
      rw [onFill_unknown m hf' hdup, hm.qty]
      exact ⟨_, hcons.unknown hest h.taken_lt h.executed_le hi hnew, ⟨hplain.own, hplain.idle⟩,
        Or.inl (hfr.find_none hf)⟩
    · have hlm : s.ledger m.clOrdId = some L := by
        rw [hm.clOrdId]
        exact hl
      obtain ⟨L', hl', hmoved, _, hbook⟩ := onFill_spec hok hacc m hdup hlm hplain.own
      rw [hbook]
      refine ⟨L', hcons.live hm h.taken_lt h.executed_le hi hnew hmoved, hmoved.plain hplain,
        Or.inr ?_⟩
      rw [← hm.clOrdId]
      exact hl'

/-- A report of the leg. -/
theorem LegOk.report {m : Msg} {c : Qty}
    (hid : m.clOrdId = V.id) (hc : m.reported = some c) (hcum : ∃ j ≤ l.executed, c = V.cum j) :
    LegOk V (s.receive m).1 (l.hear s m) := by
  obtain ⟨L, hcons, hplain, hl⟩ := h.ledger
  have hle : c ≤ V.cum l.executed := by
    obtain ⟨j, hj, rfl⟩ := hcum
    exact V.cum_mono hj h.executed_le
  refine ⟨h.executed_le, h.taken_lt, ?_⟩
  rcases hl with hf | hl
  · have hm : ∀ f, m ≠ .fill f := by
      rintro f rfl
      exact absurd hc (by simp [Msg.reported])
    obtain ⟨_, hfr⟩ := receive_frame hok V.id m (Or.inl hf)
    refine ⟨L, ?_, hplain, Or.inl (hfr.find_none hf)⟩
    simp only [Leg.hear, receive_unknown m (hid ▸ hf) hm, add_zero]
    exact hcons
  · obtain ⟨L', hl', hmoved, _, hb⟩ := receive_report hok hc (hid ▸ hl) hplain.own
    refine ⟨L', ?_, hmoved.plain hplain, Or.inr (hid ▸ hl')⟩
    simp only [Leg.hear, hb]
    exact hcons.report hle hmoved

/-- An answer to a request about the leg. -/
theorem LegOk.answer {m : Msg} (hid : m.clOrdId = V.id)
    (hm : m.answers = true) : LegOk V (s.receive m).1 (l.hear s m) := by
  obtain ⟨L, hcons, hplain, hl⟩ := h.ledger
  refine ⟨h.executed_le, h.taken_lt, ?_⟩
  rcases hl with hf | hl
  · have hnf : ∀ f, m ≠ .fill f := by
      rintro f rfl
      exact absurd hm (by simp [Msg.answers])
    obtain ⟨_, hfr⟩ := receive_frame hok V.id m (Or.inl hf)
    refine ⟨L, ?_, hplain, Or.inl (hfr.find_none hf)⟩
    simp only [Leg.hear, receive_unknown m (hid ▸ hf) hnf, add_zero]
    exact hcons
  · obtain ⟨L', hl', hset, hb⟩ := receive_answer hok hm (hid ▸ hl) hplain.own hplain.idle
    refine ⟨L', ?_, hset.plain hplain, Or.inr (hid ▸ hl')⟩
    simp only [Leg.hear, hb, add_zero]
    exact hcons.settled hset

end

end Leg

/-! ## Both legs -/

/-- The order management beside the two legs of an order. -/
structure Legs where
  oms : Oms
  /-- The replace was sent. -/
  replaced : Bool := false
  old : Leg := {}
  new : Leg := {}

/-- No replacement of the id's order is in flight. -/
def Ready (id : ClientOrderId) (s : Oms) : Prop := (s.ledger id).bind Ledger.pending = none

instance (id : ClientOrderId) (s : Oms) : Decidable (Ready id s) :=
  inferInstanceAs (Decidable ((s.ledger id).bind Ledger.pending = none))

/-- One step.  `ready` is what must hold of the state when a fill or a report of
the new leg is handled. -/
inductive LegStep (A B : VenueOrder) (ready : Oms → Prop) : Legs → Legs → Prop
  /-- The venue executes the old leg. -/
  | executeOld {w : Legs} (h : w.old.executed < A.n) :
      LegStep A B ready w { w with old := { w.old with executed := w.old.executed + 1 } }
  /-- The venue executes the new leg. -/
  | executeNew {w : Legs} (hr : w.replaced = true) (h : w.new.executed < B.n) :
      LegStep A B ready w { w with new := { w.new with executed := w.new.executed + 1 } }
  /-- `request_replace` to the new leg's id. -/
  | replace {w : Legs} {h : Nat} {p : Price} {t : Timestamp} (hr : w.replaced = false)
      (hh : w.oms.openHandle A.id = some h) (hvalid : B.id.valid = true) (hqty : 0 < B.qty)
      (hok : (w.oms.requestReplace h B.id p B.qty t).2 = .ok ()) :
      LegStep A B ready w
        { w with oms := (w.oms.requestReplace h B.id p B.qty t).1, replaced := true }
  /-- A fill of the old leg.  An execution taken before is still in the execution
  memory, and no record with an estimate has been forgotten. -/
  | fillOld {w : Legs} {i : Nat} {m : OrderFillMsg} (hi : i < w.old.executed) (hm : A.Live i m)
      (hmem : i ∈ w.old.taken → A.key i ∈ w.oms.execSeen.keys)
      (hknown : w.oms.ids.find A.id ≠ none ∨ w.old.booked = A.sum w.old.taken) :
      LegStep A B ready w { w with oms := (w.oms.onFill m).1, old := w.old.fill w.oms i m }
  /-- A fill of the new leg. -/
  | fillNew {w : Legs} {i : Nat} {m : OrderFillMsg} (hr : w.replaced = true)
      (hi : i < w.new.executed) (hm : B.Live i m)
      (hmem : i ∈ w.new.taken → B.key i ∈ w.oms.execSeen.keys)
      (hknown : w.oms.ids.find B.id ≠ none ∨ w.new.booked = B.sum w.new.taken)
      (hready : ready w.oms) :
      LegStep A B ready w { w with oms := (w.oms.onFill m).1, new := w.new.fill w.oms i m }
  /-- A cancel ack, an expiry or a snapshot of the old leg. -/
  | reportOld {w : Legs} {m : Msg} {c : Qty} (hid : m.clOrdId = A.id) (hc : m.reported = some c)
      (hcum : ∃ j ≤ w.old.executed, c = A.cum j) :
      LegStep A B ready w { w with oms := (w.oms.receive m).1, old := w.old.hear w.oms m }
  /-- A cancel ack, an expiry or a snapshot of the new leg. -/
  | reportNew {w : Legs} {m : Msg} {c : Qty} (hr : w.replaced = true) (hid : m.clOrdId = B.id)
      (hc : m.reported = some c) (hcum : ∃ j ≤ w.new.executed, c = B.cum j)
      (hready : ready w.oms) :
      LegStep A B ready w { w with oms := (w.oms.receive m).1, new := w.new.hear w.oms m }
  /-- An ack, a reject or a cancel reject of the old leg. -/
  | answerOld {w : Legs} {m : Msg} (hid : m.clOrdId = A.id) (hm : m.answers = true) :
      LegStep A B ready w { w with oms := (w.oms.receive m).1, old := w.old.hear w.oms m }
  /-- The venue acks the new leg as an order of its own. -/
  | ackNew {w : Legs} {m : OrderAckMsg} (hr : w.replaced = true) (hid : m.clOrdId = B.id)
      (hnew : m.amendedInPlace = false) :
      LegStep A B ready w { w with oms := (w.oms.onAck m).1, new := w.new.hear w.oms (.ack m) }
  /-- Anything that is about neither leg. -/
  | traffic {w : Legs} {op : Op}
      (hmsg : ∀ m, op = .msg m → m.clOrdId ≠ A.id ∧ m.clOrdId ≠ B.id)
      (hop : op.Admits (fun s c => OtherCall A.id s c ∧ OtherCall B.id s c) w.oms) :
      LegStep A B ready w { w with oms := w.oms.step op }

/-- Any number of steps. -/
def LegRun (A B : VenueOrder) (ready : Oms → Prop) : Legs → Legs → Prop :=
  Relation.ReflTransGen (LegStep A B ready)

/-- Where the legs are: the order on its own, its replacement in flight, or two
orders apart. -/
inductive Phase (A B : VenueOrder) (w : Legs) : Prop
  | single (hr : w.replaced = false) (hA : LegOk A w.oms w.old) (hB : w.new = {})
  | waiting (hr : w.replaced = true) (hex : w.old.executed ≤ A.n)
      (hlt : ∀ i ∈ w.old.taken, i < w.old.executed) (L : Ledger)
      (hcons : Conserved A w.old.executed w.old.taken w.old.booked L) (hown : L.own = true)
      (hpend : L.pending = some (B.id, B.qty)) (hl : w.oms.ledger A.id = some L)
      (hexB : w.new.executed ≤ B.n) (htaken : w.new.taken = ∅) (hbooked : w.new.booked = 0)
  | split (hr : w.replaced = true) (hA : LegOk A w.oms w.old) (hB : LegOk B w.oms w.new)

theorem Phase.booked_le {A B : VenueOrder} {w : Legs} (h : Phase A B w) :
    w.old.booked + w.new.booked ≤ A.cum w.old.executed + B.cum w.new.executed := by
  cases h with
  | single hr hA hB =>
    have hle := hA.booked_le
    rw [hB]
    exact add_le_add hle (le_refl _)
  | waiting hr hex hlt L hcons hown hpend hl hexB htaken hbooked =>
    have hle := hcons.booked_le
    have hnonneg := B.cum_nonneg hexB
    rw [hbooked]
    linarith
  | split hr hA hB => exact add_le_add hA.booked_le hB.booked_le

/-! ## While the replacement is in flight -/

section Waiting

variable {a b : ClientOrderId} {q : Qty} {s s₁ s₂ : Oms} {L : Ledger}

/-- The old leg still waits with the same ledger, or it has ended and taken the
pending id with it. -/
structure WaitKept (a b : ClientOrderId) (L : Ledger) (s' : Oms) : Prop where
  ids : IdsOk s'
  legs : s'.ledger a = some L ∨
    (s'.ids.find b = none ∧
      (s'.ids.find a = none ∨ ∃ L', s'.ledger a = some L' ∧ L.Settled L' ∧ L'.ended = true))

theorem Ledger.Moved.plain_of_ended {cum est : Qty} {L' : Ledger} (h : L.Moved cum est L')
    (hown : L.own = true) (hend : L'.ended = true) : L'.Plain where
  own := h.own.trans hown
  idle := by rw [h.pending, hend, if_pos rfl]

section

variable (h : WaitKept a b L s₁) (hown : L.own = true) (hpend : L.pending = some (b, q))
include h hown hpend

/-- Neither of a waiting order's ids is named by what another id names. -/
theorem WaitKept.apart {k : ClientOrderId} (ha : k ≠ a) (hb : k ≠ b) :
    Apart a (s₁.target k) s₁ ∧ Apart b (s₁.target k) s₁ := by
  rcases h.legs with hl | ⟨hfb, hla⟩
  · obtain ⟨j, o, ho, hid, hleg, _, hfa, hfb⟩ := ledger_pending h.ids hl hown hpend
    obtain ⟨_, hpid, _⟩ := pendingLeg_some hleg
    -- Whatever names the slot is one of the order's two ids.
    have hne : s₁.target k ≠ .slot j := by
      intro heq
      obtain ⟨p, hp, hn⟩ := h.ids.named k j (target_eq_slot.mp heq)
      rw [ho] at hp
      rw [← Option.some.inj hp] at hn
      rcases hn with hn | ⟨_, hn⟩
      · exact ha (hn.symm.trans hid)
      · exact hb (hn.symm.trans hpid)
    exact ⟨Or.inr (target_eq_slot.mpr hfa ▸ Ne.symm hne),
      Or.inr (target_eq_slot.mpr hfb ▸ Ne.symm hne)⟩
  · refine ⟨apart_of_ne h.ids ha ?_, Or.inl hfb⟩
    rcases hla with hfa | ⟨L', hl', hset, hend⟩
    · exact Or.inl hfa
    · exact Or.inr ⟨L', hl', hset.plain_of_ended hown hend⟩

theorem WaitKept.frame (hok : IdsOk s₂) (hfa : Frame a s₁ s₂)
    (hfb : Frame b s₁ s₂) : WaitKept a b L s₂ := by
  refine ⟨hok, ?_⟩
  rcases h.legs with hl | ⟨hnone, hla⟩
  · obtain ⟨j, _, _, _, _, _, hopen, _⟩ := ledger_pending h.ids hl hown hpend
    rcases hfa with ⟨_, v, hv⟩ | ⟨_, hsame⟩
    · simp [hopen] at hv
    · exact Or.inl (hsame.trans hl)
  · refine Or.inr ⟨hfb.find_none hnone, ?_⟩
    rcases hfa with ⟨hn, _⟩ | ⟨hfind, hsame⟩
    · exact Or.inl hn
    · rw [hfind, hsame]
      exact hla

theorem WaitKept.end_one (hne : b ≠ a) {j : Nat} {u : OmsUpdate}
    (hone : s₁.reconcileEndOne j = some (s₂, u)) : WaitKept a b L s₂ := by
  have hedits := reconcileEndOne_edits hone
  have hok := Edits.keeps (fun _ _ hs he => hs.edit he) hedits h.ids
  rcases h.legs with hl | ⟨hfb, hla⟩
  · obtain ⟨k, o, ho, hid, -, hL, hfa, hfb⟩ := ledger_pending h.ids hl hown hpend
    by_cases hj : k = j
    · -- The pass ends the waiting order itself.
      rw [hj] at ho hL
      obtain ⟨L', hl', hset, hend, hdrop⟩ := reconcileEndOne_ledger h.ids ho hid hone
      rw [← hL] at hset hdrop
      exact ⟨hok, Or.inr ⟨hdrop b q hpend hne hend, Or.inr ⟨L', hl', hset, hend⟩⟩⟩
    · have hap : ∀ id, s₁.ids.find id = some (.opened k) → Apart id (.slot j) s₁ := by
        intro id hf
        refine Or.inr ?_
        rw [target_eq_slot.mpr hf]
        simpa using hj
      exact h.frame hown hpend hok (hedits.frame h.ids (hap a hfa)) (hedits.frame h.ids (hap b hfb))
  · have hap : Apart a (.slot j) s₁ := by
      rcases hla with hfa | ⟨L', hl', -, hend⟩
      · exact Or.inl hfa
      refine Or.inr ?_
      unfold target
      rcases ledger_cases hl' with ⟨k, o, _, _, rfl⟩ | ⟨v, r, hf, _, _⟩
      · exact absurd hend (by simp [openLedger])
      · rw [hf]
        simp
    exact h.frame hown hpend hok (hedits.frame h.ids hap) (hedits.frame h.ids (Or.inl hfb))

end

/-- Traffic while the replacement is in flight. -/
theorem traffic_waiting (hok : IdsOk s) (hl : s.ledger a = some L) (hown : L.own = true)
    (hpend : L.pending = some (b, q)) (hne : b ≠ a) {op : Op}
    (hmsg : ∀ m, op = .msg m → m.clOrdId ≠ a ∧ m.clOrdId ≠ b)
    (hop : op.Admits (fun s c => OtherCall a s c ∧ OtherCall b s c) s) :
    WaitKept a b L (s.step op) := by
  have hstart : WaitKept a b L s := ⟨hok, Or.inl hl⟩
  refine step_keeps (P := fun s c => OtherCall a s c ∧ OtherCall b s c) ?_ ?_ ?_ ?_
    hstart op hmsg ?_
  · intro s₁ c h hc
    obtain ⟨hok', hfa⟩ := hc.1.frame h.ids
    exact h.frame hown hpend hok' hfa (hc.2.frame h.ids).2
  · intro s₁ m hm h
    obtain ⟨hapa, hapb⟩ := h.apart hown hpend hm.1 hm.2
    obtain ⟨hok', hfa⟩ := receive_frame h.ids a m hapa
    exact h.frame hown hpend hok' hfa (receive_frame h.ids b m hapb).2
  · intro s₁ venue wm h
    refine reconcileBegin_keeps ?_ ?_ s₁ venue wm h
    · intro s₂ s₃ hs₂ halike
      have hfr : ∀ id, Frame id s₂ s₃ := fun id =>
        Frame.of_eq hs₂.ids halike.ids halike.slots halike.estimates halike.recentlyTerminal
      exact hs₂.frame hown hpend (hs₂.ids.edit (Edit.quiet (t := .none) halike)) (hfr a) (hfr b)
    · intro j s₂ s₃ hs₂ ht
      exact hs₂.frame hown hpend (Edits.keeps (fun _ _ hs he => hs.edit he) ht.edits hs₂.ids)
        (Frame.of_touched hs₂.ids ht) (Frame.of_touched hs₂.ids ht)
  · exact fun s₁ j s₂ u h hone => h.end_one hown hpend hne hone
  · assumption

/-- An answer about the old leg while its replacement is in flight is ignored. -/
theorem receive_answer_waiting (hl : s.ledger a = some L) (hown : L.own = true)
    (hpend : L.pending = some (b, q)) (hne : b ≠ a) {m : Msg} (hid : m.clOrdId = a)
    (hm : m.answers = true) : (s.receive m).1 = s ∧ (s.receive m).2.booked = 0 := by
  rw [← hid] at hl hne
  have hended : ∀ p : Oms × OmsUpdate, L.pending = none → p.1 = s ∧ p.2.booked = 0 := by
    intro p hidle
    simp [hpend] at hidle
  cases m with
  | ack m =>
    refine withOrder_spec hl hown (fun p => p.1 = s ∧ p.2.booked = 0) ?_ ?_
    · exact fun u _ _ hidle => hended _ hidle
    rintro h o u _ _ _ rfl hu
    obtain ⟨hst, hb, _⟩ := pendingLeg_some hpend
    have hother : m.clOrdId ≠ o.pendingClOrdId := fun heq => hne (hb.symm.trans heq.symm)
    unfold onAckOpen
    simp only [hst, if_neg hother]
    exact ⟨trivial, (hu.with_action .ignored).booked⟩
  | reject m =>
    refine withOrder_spec hl hown (fun p => p.1 = s ∧ p.2.booked = 0) ?_ ?_
    · exact fun u _ _ hidle => hended _ hidle
    rintro h o u _ _ _ rfl hu
    obtain ⟨hst, hb, _⟩ := pendingLeg_some hpend
    unfold onRejectOpen
    rw [if_neg (by rw [hst]; simp), if_neg fun hc => hne (hb.symm.trans hc.2.symm)]
    exact ⟨rfl, (hu.with_action .ignored).booked⟩
  | cancelReject m =>
    refine withOrder_spec hl hown (fun p => p.1 = s ∧ p.2.booked = 0) ?_ ?_
    · exact fun u _ _ hidle => hended _ hidle
    rintro h o u _ _ _ rfl hu
    obtain ⟨hst, _, _⟩ := pendingLeg_some hpend
    unfold onCancelRejectOpen
    rw [if_pos (by rw [hst]; simp)]
    exact ⟨rfl, (hu.with_action .ignored).booked⟩
  | cancelAck m => exact absurd hm (by simp [Msg.answers])
  | fill m => exact absurd hm (by simp [Msg.answers])
  | expired m => exact absurd hm (by simp [Msg.answers])
  | openOrder m => exact absurd hm (by simp [Msg.answers])

/-- `request_replace` puts the replacement's terms beside the order's. -/
theorem ledger_requestReplace {h : Nat} {px : Price} {now : Timestamp}
    (hh : s.openHandle a = some h) (hl : s.ledger a = some L)
    (hres : (s.requestReplace h b px q now).2 = .ok ()) :
    (s.requestReplace h b px q now).1.ledger a = some { L with pending := some (b, q) } := by
  have hf := find_of_openHandle hh
  rcases s.requestReplace_cases h b px q now with ⟨o, _, hrep⟩ | ⟨⟨e, he⟩, _⟩
  · obtain ⟨ids, hids, hs'⟩ := hrep.state
    have hL : L = openLedger o (s.estimates h) a :=
      Option.some.inj (hl.symm.trans (ledger_opened hf hrep.order))
    have hf' : ids.find a = some (.opened h) := by
      rcases hids with ⟨_, rfl⟩ | ⟨_, _, hassign⟩
      · exact hf
      rw [CappedMap.find_assign hassign]
      split
      · rfl
      · exact hf
    have hget : (s.requestReplace h b px q now).1.get h = some (pendingOrder o b px q) := by
      rw [hs']
      exact (Pool.slots_set hrep.order h).trans (if_pos rfl)
    have hfind : (s.requestReplace h b px q now).1.ids.find a = some (.opened h) := by
      rw [hs']
      exact hf'
    rw [ledger_opened hfind hget, hL, hs']
    rfl
  · simp [hres] at he

end Waiting

/-! ## Runs -/

section Runs

variable {A B : VenueOrder} {w w' : Legs} {L L' : Ledger}

/-- The waiting order has counted something: it still waits, or it has ended and
its replacement's id is free. -/
theorem Phase.of_moved {cum est : Qty} (hr : w.replaced = true) (hex : w.old.executed ≤ A.n)
    (hlt : ∀ i ∈ w.old.taken, i < w.old.executed)
    (hcons : Conserved A w.old.executed w.old.taken w.old.booked L') (hown : L.own = true)
    (hpend : L.pending = some (B.id, B.qty)) (hne : B.id ≠ A.id) (hmoved : L.Moved cum est L')
    (hl : w.oms.ledger A.id = some L') (hdrop : DropsPending A.id L L' w.oms)
    (hexB : w.new.executed ≤ B.n) (htaken : w.new.taken = ∅) (hbooked : w.new.booked = 0) :
    Phase A B w := by
  cases hend : L'.ended with
  | false =>
    have hpend' : L'.pending = some (B.id, B.qty) := by
      rw [hmoved.pending, hend]
      exact hpend
    exact .waiting hr hex hlt L' hcons (hmoved.own.trans hown) hpend' hl hexB htaken hbooked
  | true =>
    have hB : LegOk B w.oms w.new :=
      LegOk.fresh hexB htaken hbooked (Or.inl (hdrop _ _ hpend hne hend))
    exact .split hr ⟨hex, hlt, L', hcons, hmoved.plain_of_ended hown hend, Or.inr hl⟩ hB

/-- An order whose replacement is in flight is not ready for the new leg. -/
theorem not_ready {s : Oms} {a b : ClientOrderId} {q : Qty} (hl : s.ledger a = some L)
    (hpend : L.pending = some (b, q)) : ¬ Ready a s := by
  unfold Ready
  rw [hl, Option.bind_some, hpend]
  simp

section

variable (hok : IdsOk w.oms) (hacc : Accounts w.oms)
include hok hacc

/-- A step from the order on its own. -/
theorem Phase.step_single
    (hr : w.replaced = false) (hA : LegOk A w.oms w.old) (hB : w.new = {})
    (hs : LegStep A B (Ready A.id) w w') : Phase A B w' := by
  have hnot : w.replaced = true → Phase A B w' := by
    intro hr'
    simp [hr] at hr'
  cases hs with
  | executeOld hlt => exact .single hr (hA.execute hlt) hB
  | executeNew hr' _ => exact hnot hr'
  | replace _ hh hvalid hqty hres =>
    obtain ⟨L, hcons, hplain, hl⟩ := hA.ledger
    have hl := hl.resolve_left (by rw [find_of_openHandle hh]; simp)
    have hl' := ledger_requestReplace hh hl hres
    refine .waiting rfl hA.executed_le hA.taken_lt { L with pending := some (B.id, B.qty) } ?_
      hplain.own rfl hl' ?_ ?_ ?_
    · exact ⟨hcons.qty, hcons.covered, hcons.est_nonneg, hcons.est_le, hcons.booked, hcons.cum_le⟩
    · rw [hB]
      exact Nat.zero_le _
    · rw [hB]
    · rw [hB]
  | fillOld hi hm hmem hknown => exact .single hr (hA.fill hok hacc hi hm hmem hknown) hB
  | fillNew hr' _ _ _ _ _ => exact hnot hr'
  | reportOld hid hc hcum => exact .single hr (hA.report hok hid hc hcum) hB
  | reportNew hr' _ _ _ _ => exact hnot hr'
  | answerOld hid hm => exact .single hr (hA.answer hok hid hm) hB
  | ackNew hr' _ _ => exact hnot hr'
  | traffic hmsg hop => exact .single hr (hA.traffic hok (fun m hm => (hmsg m hm).1)
      (Op.Admits.mono (fun _ _ hc => hc.1) hop)) hB

/-- A step while the replacement is in flight. -/
theorem Phase.step_waiting (hne : B.id ≠ A.id)
    (hr : w.replaced = true) (hex : w.old.executed ≤ A.n)
    (hlt : ∀ i ∈ w.old.taken, i < w.old.executed)
    (hcons : Conserved A w.old.executed w.old.taken w.old.booked L) (hown : L.own = true)
    (hpend : L.pending = some (B.id, B.qty)) (hl : w.oms.ledger A.id = some L)
    (hexB : w.new.executed ≤ B.n) (htaken : w.new.taken = ∅) (hbooked : w.new.booked = 0)
    (hs : LegStep A B (Ready A.id) w w') : Phase A B w' := by
  cases hs with
  | executeOld hlt' =>
    exact .waiting hr hlt' (fun i hi => Nat.lt_succ_of_lt (hlt i hi)) L (hcons.execute hlt') hown
      hpend hl hexB htaken hbooked
  | executeNew _ hltB =>
    exact .waiting hr hex hlt L hcons hown hpend hl hltB htaken hbooked
  | replace hr' _ _ _ _ =>
    simp [hr] at hr'
  | @fillOld i m hi hm hmem hknown =>
    by_cases hdup : w.oms.Duplicate m
    · -- A duplicate changes nothing.
      obtain ⟨_, hled, hbook⟩ := onFill_duplicate m hdup A.id
      refine .waiting hr hex ?_ L ?_ hown hpend (hled.trans hl) hexB htaken hbooked
      · simp only [Leg.fill, if_pos hdup]
        exact hlt
      · simp only [Leg.fill, if_pos hdup, hbook, add_zero]
        exact hcons
    · have hempty : m.execId.empty = false := by
        rw [hm.execId]
        exact A.execId_nonempty i (lt_of_lt_of_le hi hex)
      have hnew : i ∉ w.old.taken := fun hin => hdup ⟨hempty, hm.execKey ▸ hmem hin⟩
      have hlm : w.oms.ledger m.clOrdId = some L := by
        rw [hm.clOrdId]
        exact hl
      obtain ⟨L', hl', hmoved, hdrop, hbook⟩ := onFill_spec hok hacc m hdup hlm hown
      rw [hm.clOrdId] at hl' hdrop
      refine Phase.of_moved hr hex ?_ ?_ hown hpend hne hmoved hl' hdrop hexB htaken hbooked
      · simp only [Leg.fill, if_neg hdup]
        intro j hj
        rcases Finset.mem_insert.mp hj with rfl | hj
        · exact hi
        · exact hlt j hj
      · simp only [Leg.fill, if_neg hdup, hbook]
        exact hcons.live hm hlt hex hi hnew hmoved
  | fillNew _ _ _ _ _ hready => exact absurd hready (not_ready hl hpend)
  | @reportOld m c hid hc hcum =>
    have hle : c ≤ A.cum w.old.executed := by
      obtain ⟨j, hj, rfl⟩ := hcum
      exact A.cum_mono hj hex
    obtain ⟨L', hl', hmoved, hdrop, hbook⟩ := receive_report hok hc (hid ▸ hl) hown
    rw [hid] at hl' hdrop
    refine Phase.of_moved hr hex hlt ?_ hown hpend hne hmoved hl' hdrop hexB htaken hbooked
    simp only [Leg.hear, hbook]
    exact hcons.report hle hmoved
  | reportNew _ _ _ _ hready => exact absurd hready (not_ready hl hpend)
  | @answerOld m hid hm =>
    obtain ⟨hsame, hbook⟩ := receive_answer_waiting hl hown hpend hne hid hm
    refine .waiting hr hex hlt L ?_ hown hpend ?_ hexB htaken hbooked
    · simp only [Leg.hear, hbook, add_zero]
      exact hcons
    · rw [hsame]
      exact hl
  | @ackNew m _ hid hnew =>
    obtain ⟨hlB, hlA, hbook⟩ := onAck_replaced hok hacc hl hown hpend hne hid hnew
    have hA : LegOk A (w.oms.onAck m).1 w.old := by
      refine ⟨hex, hlt, ?_⟩
      rcases hlA with ⟨L', hl', hset, hend⟩ | ⟨hf, -⟩
      · exact ⟨L', hcons.settled hset, hset.plain_of_ended hown hend, Or.inr hl'⟩
      · -- Forgotten with nothing estimated: the count stands as it was.
        exact ⟨{ L with pending := none }, ⟨hcons.qty, hcons.covered, hcons.est_nonneg,
          hcons.est_le, hcons.booked, hcons.cum_le⟩, ⟨hown, rfl⟩, Or.inl hf⟩
    refine .split hr hA (LegOk.fresh hexB htaken ?_ (Or.inr hlB))
    show w.new.booked + (w.oms.onAck m).2.booked = 0
    rw [hbook, hbooked, add_zero]
  | @traffic op hmsg hop =>
    have hkept := traffic_waiting hok hl hown hpend hne hmsg hop
    rcases hkept.legs with hl' | ⟨hfB, hlA⟩
    · exact .waiting hr hex hlt L hcons hown hpend hl' hexB htaken hbooked
    have hA : LegOk A (w.oms.step op) w.old := by
      refine ⟨hex, hlt, ?_⟩
      rcases hlA with hf | ⟨L', hl', hset, hend⟩
      · exact ⟨{ L with pending := none }, ⟨hcons.qty, hcons.covered, hcons.est_nonneg,
          hcons.est_le, hcons.booked, hcons.cum_le⟩, ⟨hown, rfl⟩, Or.inl hf⟩
      · exact ⟨L', hcons.settled hset, hset.plain_of_ended hown hend, Or.inr hl'⟩
    exact .split hr hA (LegOk.fresh hexB htaken hbooked (Or.inl hfB))

/-- A step once the legs are apart: each step is about one leg, and the other is
left alone. -/
theorem Phase.step_split (hne : B.id ≠ A.id)
    (hr : w.replaced = true) (hA : LegOk A w.oms w.old) (hB : LegOk B w.oms w.new)
    (hs : LegStep A B (Ready A.id) w w') : Phase A B w' := by
  have hotherA : ∀ m : Msg, m.clOrdId = B.id → LegOk A (w.oms.receive m).1 w.old :=
    fun m hid => hA.other hok (hid ▸ hne)
  have hotherB : ∀ m : Msg, m.clOrdId = A.id → LegOk B (w.oms.receive m).1 w.new :=
    fun m hid => hB.other hok (hid ▸ Ne.symm hne)
  cases hs with
  | executeOld hlt => exact .split hr (hA.execute hlt) hB
  | executeNew _ hlt => exact .split hr hA (hB.execute hlt)
  | replace hr' _ _ _ _ =>
    simp [hr] at hr'
  | @fillOld i m hi hm hmem hknown =>
    exact .split hr (hA.fill hok hacc hi hm hmem hknown) (hotherB (.fill m) hm.clOrdId)
  | @fillNew i m _ hi hm hmem hknown _ =>
    exact .split hr (hotherA (.fill m) hm.clOrdId) (hB.fill hok hacc hi hm hmem hknown)
  | reportOld hid hc hcum => exact .split hr (hA.report hok hid hc hcum) (hotherB _ hid)
  | reportNew _ hid hc hcum _ => exact .split hr (hotherA _ hid) (hB.report hok hid hc hcum)
  | answerOld hid hm => exact .split hr (hA.answer hok hid hm) (hotherB _ hid)
  | @ackNew m _ hid _ =>
    have hans : LegOk B (w.oms.receive (.ack m)).1 (w.new.hear w.oms (.ack m)) :=
      hB.answer hok hid rfl
    exact .split hr (hotherA (.ack m) hid) hans
  | traffic hmsg hop =>
    exact .split hr
      (hA.traffic hok (fun m hm => (hmsg m hm).1) (Op.Admits.mono (fun _ _ hc => hc.1) hop))
      (hB.traffic hok (fun m hm => (hmsg m hm).2) (Op.Admits.mono (fun _ _ hc => hc.2) hop))

end

/-- A step of the legs is a step of the order management. -/
theorem LegStep.reachable {ready : Oms → Prop} (hs : LegStep A B ready w w')
    (h : Reachable PositiveQty w.oms) : Reachable PositiveQty w'.oms := by
  cases hs with
  | executeOld _ => exact h
  | executeNew _ _ => exact h
  | @replace k px now _ _ hvalid hqty _ =>
    exact h.step (.call (.requestReplace k B.id px B.qty now)) ⟨hvalid, hqty⟩
  | @fillOld _ m _ _ _ _ => exact h.msg (.fill m)
  | @fillNew _ m _ _ _ _ _ _ => exact h.msg (.fill m)
  | @reportOld m _ _ _ _ => exact h.msg m
  | @reportNew m _ _ _ _ _ _ => exact h.msg m
  | @answerOld m _ _ => exact h.msg m
  | @ackNew m _ _ _ => exact h.msg (.ack m)
  | @traffic op _ hop => exact Reachable.step h op (Op.Admits.mono (fun _ _ hc => hc.1.1) hop)

section

variable (hne : B.id ≠ A.id) (hreach : Reachable PositiveQty w.oms) (h : Phase A B w)
include hne hreach h

theorem Phase.step
    (hs : LegStep A B (Ready A.id) w w') : Phase A B w' := by
  obtain ⟨hok, hacc⟩ := hreach.accounts fun _ _ hc => hc
  cases h with
  | single hr hA hB => exact Phase.step_single hok hacc hr hA hB hs
  | waiting hr hex hlt L hcons hown hpend hl hexB htaken hbooked =>
    exact Phase.step_waiting hok hacc hne hr hex hlt hcons hown hpend hl hexB htaken hbooked hs
  | split hr hA hB => exact Phase.step_split hok hacc hne hr hA hB hs

theorem Phase.run
    (hrun : LegRun A B (Ready A.id) w w') : Reachable PositiveQty w'.oms ∧ Phase A B w' := by
  induction hrun with
  | refl => exact ⟨hreach, h⟩
  | tail _ hs ih => exact ⟨hs.reachable ih.1, ih.2.step hne ih.1 hs⟩

end

end Runs

/-! ## Executed quantity across a replace -/

/-- Whatever the interleaving of the legs' fills, acks, cancel acks and expiries,
no more is booked for the two legs than they executed, in every run that handles
no fill and no report of the new leg while its replace is in flight. -/
theorem replace_conserves {A B : VenueOrder} {s : Oms} {w : Legs} (hne : B.id ≠ A.id)
    (h₀ : Placed A ⟨s, 0, ∅, 0⟩) (hrun : LegRun A B (Ready A.id) { oms := s } w) :
    w.old.booked + w.new.booked ≤ A.cum w.old.executed + B.cum w.new.executed := by
  obtain ⟨s₀, req, now, k, hreach, hsub, _, _, hqty, hpos, hw⟩ := h₀
  have hs : s = (s₀.submit req A.id now).1 := congrArg World.oms hw
  rw [hs] at hrun
  have hcall : Reachable PositiveQty (s₀.step (.call (.submit req A.id now))) := by
    refine hreach.call ?_
    show 0 < req.qty
    rw [hqty]
    exact hpos
  have hl : (s₀.submit req A.id now).1.ledger A.id = some A.placedLedger := by
    rw [ledger_submit hsub, hqty]
    rfl
  have hstart : Phase A B { oms := (s₀.submit req A.id now).1 } :=
    .single rfl (LegOk.fresh (Nat.zero_le _) rfl rfl (Or.inr hl)) rfl
  exact (hstart.run hne hcall hrun).2.booked_le

/-- The old leg: ten to buy, four of them executed. -/
def oldLeg : VenueOrder where
  id := ⟨1⟩
  instrument := ⟨0⟩
  side := .buy
  qty := 10
  n := 1
  execQty := fun _ => 4
  execId := fun _ => .assign [97]
  execQty_pos := by decide
  execId_nonempty := by decide
  execId_distinct := by decide
  total_le := by decide

/-- The new leg: ten to buy, three of them executed. -/
def newLeg : VenueOrder where
  id := ⟨2⟩
  instrument := ⟨0⟩
  side := .buy
  qty := 10
  n := 1
  execQty := fun _ => 3
  execId := fun _ => .assign [98]
  execQty_pos := by decide
  execId_nonempty := by decide
  execId_distinct := by decide
  total_le := by decide

/-- The old leg fills while the replace is in flight and the new leg after its
ack; then both end. -/
theorem replace_conserves_both_fill :
    ∃ w, LegRun oldLeg newLeg (Ready oldLeg.id) { oms := oldLeg.placed.oms } w ∧
      w.old.booked + w.new.booked = 7 ∧
      w.old.booked + w.new.booked ≤ oldLeg.cum w.old.executed + newLeg.cum w.new.executed := by
  have hrun : LegRun oldLeg newLeg (Ready oldLeg.id) { oms := oldLeg.placed.oms } _ :=
    ((((((((Relation.ReflTransGen.refl.tail
      (.answerOld (m := .ack { clOrdId := ⟨1⟩ }) rfl rfl)).tail
      (.replace (h := 0) (p := 0) (t := 0) rfl rfl (by decide) (by decide) rfl)).tail
      (.executeOld (by decide))).tail
      (.fillOld (m := oldLeg.liveFill 0) (by decide) (oldLeg.live_liveFill 0) (by decide)
        (by decide))).tail
      (.ackNew (m := { clOrdId := ⟨2⟩ }) rfl rfl rfl)).tail
      (.executeNew rfl (by decide))).tail
      (.fillNew (m := newLeg.liveFill 0) rfl (by decide) (newLeg.live_liveFill 0) (by decide)
        (by decide) (by decide))).tail
      (.reportNew (m := .cancelAck { clOrdId := ⟨2⟩, cumQty := 3 }) rfl rfl rfl
        ⟨1, by decide, rfl⟩ (by decide)))
  exact ⟨_, hrun, rfl, replace_conserves (by decide) ⟨init 1 kMaxSeq, _, 0, 0, Reachable.init _ _,
    rfl, rfl, rfl, rfl, by decide, rfl⟩ hrun⟩

/-- The new leg fills before its ack: the ack drops what it had counted, and its
cancel ack finds the same quantity again. -/
theorem replace_books_twice_before_ack :
    ¬ ∀ (A B : VenueOrder) (s : Oms) (w : Legs), B.id ≠ A.id → Placed A ⟨s, 0, ∅, 0⟩ →
      LegRun A B (fun _ => True) { oms := s } w →
      w.old.booked + w.new.booked ≤ A.cum w.old.executed + B.cum w.new.executed := by
  intro h
  have hrun : LegRun oldLeg newLeg (fun _ => True) { oms := oldLeg.placed.oms } _ :=
    (((((Relation.ReflTransGen.refl.tail (.answerOld (m := .ack { clOrdId := ⟨1⟩ }) rfl rfl)).tail
      (.replace (h := 0) (p := 0) (t := 0) rfl rfl (by decide) (by decide) rfl)).tail
      (.executeNew rfl (by decide))).tail
      (.fillNew (m := newLeg.liveFill 0) rfl (by decide) (newLeg.live_liveFill 0) (by decide)
        (by decide) trivial)).tail
      (.ackNew (m := { clOrdId := ⟨2⟩ }) rfl rfl rfl)).tail
      (.reportNew (m := .cancelAck { clOrdId := ⟨2⟩, cumQty := 3 }) rfl rfl rfl
        ⟨1, by decide, rfl⟩ trivial)
  have hle := h oldLeg newLeg _ _ (by decide) ⟨init 1 kMaxSeq, _, 0, 0, Reachable.init _ _,
    rfl, rfl, rfl, rfl, by decide, rfl⟩ hrun
  exact absurd hle (by decide)

end Oms

end FastMM
