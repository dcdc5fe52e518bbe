/-
  Oms/Ledger.lean --- what the order management holds of one order.

  An order is in its pool slot while it is open and in its terminal record once
  it has ended.  `ledger` is the part of either that says how much of it is
  counted: its quantity, its cumulative quantity and its outstanding estimate,
  with the few flags the handlers branch on.

  A change that is about another order leaves the ledger of an id alone, or
  forgets the id when its record leaves the full ring (`Frame`).  It is proved
  once per edit, from what the edit does to the id map, the slots and the ring.
-/
import FastMM.Oms.Accounting
set_option autoImplicit false

namespace FastMM

open Foundation Function RingBuffer

namespace Oms

/-! ## The ledger of an id -/

/-- How much of an order is counted. -/
structure Ledger where
  qty : Qty
  cum : Qty
  /-- The quantity booked before an execution named it. -/
  est : Qty
  /-- The order has ended and this is its record. -/
  ended : Bool
  /-- The record says Filled. -/
  filled : Bool
  /-- The id and the quantity of a replacement in flight. -/
  pending : Option (ClientOrderId × Qty)
  /-- The id is the order's own, not its pending one. -/
  own : Bool
  deriving DecidableEq, Repr

/-- The replacement of an order that waits for its ack. -/
def pendingLeg (o : Order) : Option (ClientOrderId × Qty) :=
  if o.state = .pendingReplace then some (o.pendingClOrdId, o.pendingQty) else none

theorem pendingLeg_eq_none {o : Order} : pendingLeg o = none ↔ o.state ≠ .pendingReplace := by
  unfold pendingLeg
  split <;> simp_all

/-- The ledger of an open order under one of its ids. -/
def openLedger (o : Order) (e : Estimate) (id : ClientOrderId) : Ledger where
  qty := o.qty
  cum := o.cumQty
  est := e.qty
  ended := false
  filled := false
  pending := pendingLeg o
  own := o.clOrdId == id

/-- The ledger of a terminal record. -/
def recordLedger (r : TerminalRecord) : Ledger where
  qty := r.qty
  cum := r.cumQty
  est := r.estimate.qty
  ended := true
  filled := r.state == .filled
  pending := none
  own := true

/-- The ledger of what an id names. -/
def ledger (s : Oms) (id : ClientOrderId) : Option Ledger :=
  match s.ids.find id with
  | some (.opened h) => (s.get h).map fun o => openLedger o (s.estimates h) id
  | some (.terminal _) => (s.findTerminal id).map recordLedger
  | none => none

section Ledger

variable {s s' : Oms} {id : ClientOrderId} {h : Nat} {o : Order}

theorem ledger_opened (hf : s.ids.find id = some (.opened h)) (ho : s.get h = some o) :
    s.ledger id = some (openLedger o (s.estimates h) id) := by
  unfold ledger
  rw [hf]
  simp only [ho, Option.map_some]

theorem ledger_terminal {v : Nat} {r : TerminalRecord} (hf : s.ids.find id = some (.terminal v))
    (hr : s.findTerminal id = some r) : s.ledger id = some (recordLedger r) := by
  unfold ledger
  rw [hf]
  simp only [hr, Option.map_some]

theorem ledger_of_find_none (hf : s.ids.find id = none) : s.ledger id = none := by
  unfold ledger
  rw [hf]

/-- The record a terminal reference stands for. -/
theorem IdsOk.record (hok : IdsOk s) {v : Nat} (hf : s.ids.find id = some (.terminal v)) :
    ∃ r, s.findTerminal id = some r ∧ r.clOrdId = id := by
  obtain ⟨pos, r, hv, hr⟩ := hok.records id v hf
  refine ⟨r, ?_, hr.clOrdId⟩
  unfold findTerminal
  rw [terminalPos_eq hf hv hr.at_pos]
  exact hr.at_pos

/-- Only an open reference gives a handle. -/
theorem find_of_openHandle {k : Nat} (hk : s.openHandle id = some k) :
    s.ids.find id = some (.opened k) := by
  unfold openHandle at hk
  cases hf : s.ids.find id with
  | none =>
    simp [hf] at hk
  | some ref =>
    rw [hf] at hk
    cases ref with
    | opened j => rw [Option.some.inj hk]
    | terminal v => nomatch hk

/-- Only a terminal reference finds a record. -/
theorem find_of_findTerminal {r : TerminalRecord} (hr : s.findTerminal id = some r) :
    ∃ v, s.ids.find id = some (.terminal v) := by
  have hnone : s.recentlyTerminal.atPos s.recentlyTerminal.tail = none := by
    unfold atPos
    rw [if_neg (by omega)]
  unfold findTerminal terminalPos at hr
  cases hf : s.ids.find id with
  | none =>
    rw [hf] at hr
    exact absurd hr (by simp [hnone])
  | some ref =>
    cases ref with
    | opened k =>
      rw [hf] at hr
      exact absurd hr (by simp [hnone])
    | terminal v => exact ⟨v, rfl⟩

/-- An id with a ledger names an order or its record. -/
theorem ledger_cases {L : Ledger} (hl : s.ledger id = some L) :
    (∃ h o, s.ids.find id = some (.opened h) ∧ s.get h = some o ∧
        L = openLedger o (s.estimates h) id) ∨
      (∃ v r, s.ids.find id = some (.terminal v) ∧ s.findTerminal id = some r ∧
        L = recordLedger r) := by
  unfold ledger at hl
  cases hf : s.ids.find id with
  | none =>
    simp [hf] at hl
  | some ref =>
    rw [hf] at hl
    cases ref with
    | opened h =>
      obtain ⟨o, ho, hL⟩ := Option.map_eq_some_iff.mp hl
      exact Or.inl ⟨h, o, rfl, ho, hL.symm⟩
    | terminal v =>
      obtain ⟨r, hr, hL⟩ := Option.map_eq_some_iff.mp hl
      exact Or.inr ⟨v, r, rfl, hr, hL.symm⟩

end Ledger

/-! ## Frames -/

/-- The id named a record that is forgotten, or it names what it named, with the
same ledger. -/
def Frame (id : ClientOrderId) (s s' : Oms) : Prop :=
  (s'.ids.find id = none ∧ ∃ v, s.ids.find id = some (.terminal v)) ∨
    (s'.ids.find id = s.ids.find id ∧ s'.ledger id = s.ledger id)

section Frame

variable {s s' s'' : Oms} {id : ClientOrderId}

theorem Frame.refl (id : ClientOrderId) (s : Oms) : Frame id s s := Or.inr ⟨rfl, rfl⟩

theorem Frame.trans (h : Frame id s s') (h' : Frame id s' s'') : Frame id s s'' := by
  rcases h with ⟨hn, hv⟩ | ⟨hf, hl⟩
  · rcases h' with ⟨hn', _⟩ | ⟨hf', _⟩
    · exact Or.inl ⟨hn', hv⟩
    · exact Or.inl ⟨hf'.trans hn, hv⟩
  · rcases h' with ⟨hn', hv'⟩ | ⟨hf', hl'⟩
    · rw [hf] at hv'
      exact Or.inl ⟨hn', hv'⟩
    · exact Or.inr ⟨hf'.trans hf, hl'.trans hl⟩

/-- A forgotten id stays forgotten. -/
theorem Frame.find_none (h : Frame id s s') (hf : s.ids.find id = none) :
    s'.ids.find id = none := by
  rcases h with ⟨hn, _⟩ | ⟨hsame, _⟩
  · exact hn
  · exact hsame.trans hf

/-- The frame from its parts: the id map forgets the id or keeps it, the slot it
names keeps its order and estimate, and a record of the id was there before. -/
theorem Frame.of_parts (hok : IdsOk s) (hok' : IdsOk s')
    (hfind : (s'.ids.find id = none ∧ ∃ v, s.ids.find id = some (.terminal v)) ∨
      s'.ids.find id = s.ids.find id)
    (hslot : ∀ k, s.ids.find id = some (.opened k) →
      s'.get k = s.get k ∧ s'.estimates k = s.estimates k)
    (hring : ∀ pos r, s'.recentlyTerminal.atPos pos = some r → r.clOrdId = id →
      s.recentlyTerminal.atPos pos = some r) : Frame id s s' := by
  rcases hfind with hfind | hfind
  · exact Or.inl hfind
  refine Or.inr ⟨hfind, ?_⟩
  cases hf : s.ids.find id with
  | none => rw [ledger_of_find_none hf, ledger_of_find_none (hfind.trans hf)]
  | some ref =>
    cases ref with
    | opened k =>
      obtain ⟨o, ho, _⟩ := hok.named id k hf
      obtain ⟨hget, hest⟩ := hslot k hf
      rw [ledger_opened hf ho, ledger_opened (hfind.trans hf) (hget.trans ho), hest]
    | terminal v =>
      obtain ⟨pos, r, hv, hr⟩ := hok.records id v hf
      obtain ⟨pos', r', hv', hr'⟩ := hok'.records id v (hfind.trans hf)
      -- Two positions of the ring with one slot are one position.
      have hat := hring pos' r' hr'.at_pos hr'.clOrdId
      have hrange := (atPos_eq_some_iff.mp hr.at_pos).1
      have hrange' := (atPos_eq_some_iff.mp hat).1
      have hsize := s.recentlyTerminal.size_le
      have hpos : pos = pos' :=
        eq_of_mod_eq (by omega) (by omega) (hv.symm.trans hv')
      have hsame : r' = r := by
        rw [← hpos, hr.at_pos] at hat
        exact (Option.some.inj hat).symm
      have hfound : s.findTerminal id = some r := by
        unfold findTerminal
        rw [terminalPos_eq hf hv hr.at_pos]
        exact hr.at_pos
      have hfound' : s'.findTerminal id = some r := by
        unfold findTerminal
        rw [terminalPos_eq (hfind.trans hf) hv' hr'.at_pos, ← hsame]
        exact hr'.at_pos
      rw [ledger_terminal hf hfound, ledger_terminal (hfind.trans hf) hfound']

/-- A change that leaves the map, the slots, the estimates and the ring alone. -/
theorem Frame.of_eq (hok : IdsOk s) (hids : s'.ids = s.ids)
    (hslots : s'.pool.slots = s.pool.slots) (hest : s'.estimates = s.estimates)
    (hring : s'.recentlyTerminal = s.recentlyTerminal) : Frame id s s' := by
  refine Frame.of_parts hok (hok.of_eq hids hslots hring) (Or.inr (by rw [hids])) ?_ ?_
  · intro k _
    unfold get
    rw [hslots, hest]
    exact ⟨rfl, rfl⟩
  · intro pos r hr _
    rw [← hring]
    exact hr

end Frame

/-! ## Edits of other orders -/

/-- The edited order or record is not the one the id names. -/
def Apart (id : ClientOrderId) (t : Target) (s : Oms) : Prop :=
  s.ids.find id = none ∨ s.target id ≠ t

section Apart

variable {s s' : Oms} {id : ClientOrderId} {h : Nat} {o : Order}
variable {t : Target}

theorem Apart.slot_ne (hap : Apart id (.slot h) s) {k : Nat}
    (hf : s.ids.find id = some (.opened k)) : k ≠ h := by
  rintro rfl
  rcases hap with hap | hap
  · simp [hf] at hap
  · exact hap (target_eq_slot.mpr hf)

theorem Apart.ne_clOrdId (hap : Apart id (.slot h) s) (hok : IdsOk s) (ho : s.get h = some o) :
    id ≠ o.clOrdId := by
  rintro rfl
  exact hap.slot_ne (hok.names h o _ ho (Or.inl rfl)) rfl

theorem Apart.ne_record {k : ClientOrderId} {r : TerminalRecord} (hap : Apart id (.record k) s)
    (hr : s.findTerminal k = some r) : id ≠ k := by
  rintro rfl
  obtain ⟨v, hf⟩ := find_of_findTerminal hr
  rcases hap with hap | hap
  · simp [hf] at hap
  · refine hap ?_
    unfold target
    rw [hf]

/-- The frame keeps the edit apart. -/
theorem Apart.of_frame (hap : Apart id t s) (hfr : Frame id s s') :
    Apart id t s' := by
  rcases hfr with ⟨hn, _⟩ | ⟨hf, _⟩
  · exact Or.inl hn
  · unfold Apart target at *
    rw [hf]
    exact hap

/-- One order is rewritten, or its estimate is. -/
theorem Frame.of_slot (hok : IdsOk s) (hok' : IdsOk s') (hap : Apart id (.slot h) s)
    (hids : s'.ids = s.ids) (hget : ∀ k, k ≠ h → s'.get k = s.get k)
    (hest : ∀ k, k ≠ h → s'.estimates k = s.estimates k)
    (hring : s'.recentlyTerminal = s.recentlyTerminal) : Frame id s s' := by
  refine Frame.of_parts hok hok' (Or.inr (by rw [hids])) ?_ ?_
  · intro k hf
    have hk := hap.slot_ne hf
    exact ⟨hget k hk, hest k hk⟩
  · intro pos r hr _
    rw [← hring]
    exact hr

/-- One record is rewritten. -/
theorem Frame.of_record {k : ClientOrderId} {r r' : TerminalRecord} (hok : IdsOk s)
    (hok' : IdsOk s') (hap : Apart id (.record k) s) (hr : s.findTerminal k = some r)
    (hids : s'.ids = s.ids) (hpool : s'.pool = s.pool) (hest : s'.estimates = s.estimates)
    (hring : s'.recentlyTerminal = s.recentlyTerminal.setPos (s.terminalPos k) r')
    (hid : r'.clOrdId = r.clOrdId) : Frame id s s' := by
  have hne := hap.ne_record hr
  have hown : r.clOrdId = k := by
    obtain ⟨v, hf⟩ := find_of_findTerminal hr
    obtain ⟨q, hq, hqid⟩ := hok.record hf
    rw [hr] at hq
    rw [Option.some.inj hq]
    exact hqid
  refine Frame.of_parts hok hok' (Or.inr (by rw [hids])) ?_ ?_
  · intro j _
    unfold get
    rw [hpool, hest]
    exact ⟨rfl, rfl⟩
  · intro pos q hq hqid
    rw [hring, atPos_setPos (atPos_eq_some_iff.mp hr).1] at hq
    split at hq
    · rw [← Option.some.inj hq, hid, hown] at hqid
      exact absurd hqid.symm hne
    · exact hq

/-- A terminal reference outlives the drop of another id. -/
theorem find_pendingErased_of_terminal {ids : IdMap} {v : Nat}
    (hf : ids.find id = some (.terminal v)) :
    (pendingErased ids o).find id = some (.terminal v) := by
  by_cases hid : id = o.pendingClOrdId
  · unfold pendingErased
    split
    · rw [← hid, find_openErased_of_terminal hf]
      exact hf
    · exact hf
  · rw [find_pendingErased_of_ne (Or.inl hid)]
    exact hf

/-- Dropping an order's pending id leaves what names other things alone. -/
theorem Apart.find_pendingErased (hap : Apart id (.slot h) s) (hok : IdsOk s)
    (ho : s.get h = some o) : (pendingErased s.ids o).find id = s.ids.find id := by
  cases hf : s.ids.find id with
  | none =>
    cases hp : (pendingErased s.ids o).find id with
    | none => rfl
    | some ref =>
      have hfound := find_of_find_pendingErased hp
      rw [hf] at hfound
      exact hfound.symm
  | some ref =>
    cases ref with
    | opened k => exact hok.pendingErased_other ho (hap.slot_ne hf) hf
    | terminal v => exact find_pendingErased_of_terminal hf

/-- Remembering a record keeps or forgets every other id. -/
theorem find_rememberedIds_other {ids : IdMap} {ring : TerminalRing} {own : ClientOrderId}
    (hid : ids.find own = some (.opened h)) (hne : id ≠ own) :
    ((rememberedIds ids ring own).find id = none ∧ ∃ v, ids.find id = some (.terminal v)) ∨
      (rememberedIds ids ring own).find id = ids.find id := by
  rw [find_rememberedIds hid, if_neg hne, find_evictedIds]
  split_ifs with hgone
  · exact Or.inl ⟨rfl, _, hgone.2.2⟩
  · exact Or.inr rfl

/-- The records of an id before a push are those after it, of another id. -/
theorem atPos_of_push {ring : TerminalRing} {r q : TerminalRecord} {pos : Nat}
    (hq : (ring.push r).atPos pos = some q) (hne : q.clOrdId ≠ r.clOrdId) :
    ring.atPos pos = some q := by
  rw [atPos_push (by decide)] at hq
  split at hq
  · exact absurd (congrArg TerminalRecord.clOrdId (Option.some.inj hq)).symm hne
  · split at hq
    · exact hq
    · nomatch hq

section

variable (hok : IdsOk s) (hap : Apart id (.slot h) s) (ho : s.get h = some o)
include hok hap ho

/-- Another order ends. -/
theorem Frame.of_ended
    {o' : Order} (hterms : SameTerms o o') (st : OrderState) (br : Bool) :
    Frame id s (s.ended h o' st br) := by
  have hne := hap.ne_clOrdId hok ho
  have hown : (pendingErased s.ids o).find o.clOrdId = some (.opened h) := by
    rw [find_pendingErased_of_ne (Or.inr rfl)]
    exact hok.names h o _ ho (Or.inl rfl)
  have hids : (s.ended h o' st br).ids =
      rememberedIds (pendingErased s.ids o) s.recentlyTerminal o.clOrdId := by
    unfold Oms.ended
    rw [pendingErased_congr hterms, hterms.clOrdId]
  refine Frame.of_parts hok (hok.ended ho hterms st br) ?_ ?_ ?_
  · rw [hids, ← hap.find_pendingErased hok ho]
    exact find_rememberedIds_other hown hne
  · intro k hf
    have hk := hap.slot_ne hf
    refine ⟨?_, update_of_ne hk _ _⟩
    exact (Pool.slots_free ho k).trans (if_neg hk)
  · intro pos q hq hqid
    refine atPos_of_push hq ?_
    rw [hqid]
    exact fun he => hne (he.trans hterms.clOrdId)

/-- Another order's replacement takes effect. -/
theorem Frame.of_replaced
    (hpend : o.state = .pendingReplace) (rekey newVenueOrder : Bool)
    (hrekey : rekey = decide (o.pendingClOrdId ≠ o.clOrdId)) :
    Frame id s (s.replaced h o rekey newVenueOrder) := by
  have hne := hap.ne_clOrdId hok ho
  have hown := hok.names h o _ ho (Or.inl rfl)
  -- Erasing the old id leaves the others alone.
  have herase : ∀ ids : IdMap, (openErased ids o.clOrdId).find id = ids.find id := by
    intro ids
    unfold openErased
    split
    · exact CappedMap.find_erase_of_ne ids hne
    · rfl
  refine Frame.of_parts hok (hok.replaced ho hpend rekey newVenueOrder hrekey) ?_ ?_ ?_
  · have hmap : ∀ ids : IdMap, (if rekey = true then openErased ids o.clOrdId else ids).find id =
        ids.find id := by
      intro ids
      split
      · exact herase ids
      · rfl
    unfold Oms.replaced
    rw [hmap]
    split
    · exact find_rememberedIds_other hown hne
    · exact Or.inr rfl
  · intro k hf
    have hk := hap.slot_ne hf
    refine ⟨(Pool.slots_set ho k).trans (if_neg hk), ?_⟩
    unfold Oms.replaced
    simp only
    split
    · exact update_of_ne hk _ _
    · rfl
  · intro pos q hq hqid
    unfold Oms.replaced at hq
    simp only at hq
    split at hq
    · refine atPos_of_push hq ?_
      rw [hqid]
      exact hne
    · exact hq

end

/-- An edit of another order or record. -/
theorem Edit.frame (hok : IdsOk s) (hap : Apart id t s) (he : Edit t s s') :
    Frame id s s' := by
  have hok' := hok.edit he
  cases he with
  | quiet hq => exact Frame.of_eq hok hq.ids hq.slots hq.estimates hq.recentlyTerminal
  | touch ho _ _ _ =>
    exact Frame.of_slot hok hok' hap rfl (fun k hk => (Pool.slots_set ho k).trans (if_neg hk))
      (fun _ _ => rfl) rfl
  | revert ho _ =>
    refine Frame.of_parts hok hok' (Or.inr (hap.find_pendingErased hok ho)) ?_ fun _ _ hq _ => hq
    intro k hf
    have hk := hap.slot_ne hf
    exact ⟨(Pool.slots_set ho k).trans (if_neg hk), rfl⟩
  | finish u st br ho hterms =>
    have hend := Frame.of_ended hok hap ho hterms st br
    rw [terminate_fst] at hok' ⊢
    split
    · exact hend.trans (Frame.of_eq (hok.ended ho hterms st br) rfl rfl rfl rfl)
    · exact hend
  | absorb reported u ho =>
    rw [absorbCum_fst] at hok' ⊢
    split
    · exact Frame.refl id s
    · rw [if_neg ‹_›] at hok'
      exact Frame.of_slot hok hok' hap rfl (fun k hk => (Pool.slots_set ho k).trans (if_neg hk))
        (fun k hk => update_of_ne hk _ _) rfl
  | fill m corrected vid ho =>
    exact Frame.of_slot hok hok' hap rfl (fun k hk => (Pool.slots_set ho k).trans (if_neg hk))
      (fun _ _ => rfl) rfl
  | take qty ho _ =>
    exact Frame.of_slot hok hok' hap rfl (fun _ _ => rfl)
      (fun k hk => update_of_ne hk _ _) rfl
  | takeRecord qty hr _ => exact Frame.of_record hok hok' hap hr rfl rfl rfl rfl rfl
  | late cum st hr => exact Frame.of_record hok hok' hap hr rfl rfl rfl rfl rfl
  | replace u newVenueOrder ho hpend =>
    have hrep := fun nv => Frame.of_replaced hok hap ho hpend _ nv rfl
    have hokrep := fun nv => hok.replaced ho hpend _ nv rfl
    rw [applyReplace_fst]
    split
    · exact (hrep _).trans (Frame.of_eq (hokrep _) rfl rfl rfl rfl)
    · split
      · exact (hrep _).trans (Frame.of_eq (hokrep _) rfl rfl rfl rfl)
      · exact hrep _

/-- A chain of edits of another order or record. -/
theorem Edits.frame (hok : IdsOk s) (hap : Apart id t s) (he : Edits t s s') :
    Frame id s s' := by
  have hinv : IdsOk s' ∧ Frame id s s' := by
    refine @Edits.keeps t s s' (fun s' => IdsOk s' ∧ Frame id s s') ?_ he ⟨hok, Frame.refl id s⟩
    intro s₁ s₂ hs₁ hone
    exact ⟨hs₁.1.edit hone, hs₁.2.trans (hone.frame hs₁.1 (hap.of_frame hs₁.2))⟩
  exact hinv.2

end Apart

/-! ## Touches, ends and calls -/

section Changes

variable {s s' : Oms} {id : ClientOrderId} {h : Nat} {o : Order}
variable {o' : Order}

section

variable (hterms : SameTerms o o') (hpend : o'.state = .pendingReplace ↔ o.state = .pendingReplace)
include hterms hpend

theorem pendingLeg_touch :
    pendingLeg o' = pendingLeg o := by
  unfold pendingLeg
  rw [hterms.pendingClOrdId, hterms.pendingQty]
  simp only [hpend]

/-- A touched order keeps its ledger. -/
theorem openLedger_touch (e : Estimate)
    (id : ClientOrderId) : openLedger o' e id = openLedger o e id := by
  unfold openLedger
  rw [hterms.qty, hterms.cumQty, hterms.clOrdId, pendingLeg_touch hterms hpend]

end

/-- Rewriting an order without changing its ids moves only its own ledger. -/
theorem ledger_setOrder (ho : s.get h = some o) (hf : s.ids.find id = some (.opened h)) :
    (s.setOrder h o').ledger id = some (openLedger o' (s.estimates h) id) :=
  ledger_opened (s := s.setOrder h o') hf (get_setOrder_self ho o')

section

variable (hok : IdsOk s)
include hok

theorem Frame.of_touched (ht : Touched h s s') : Frame id s s' := by
  by_cases hap : Apart id (.slot h) s
  · exact Edits.frame hok hap ht.edits
  rcases ht with rfl | ⟨o, o', ho, hterms, _, hpend, rfl⟩
  · exact Frame.refl id s'
  -- The id names the touched order.
  have hf : s.ids.find id = some (.opened h) := by
    unfold Apart target at hap
    cases hf : s.ids.find id with
    | none => exact absurd (Or.inl hf) hap
    | some ref =>
      rw [hf] at hap
      cases ref with
      | opened k =>
        have hk : Target.slot k = Target.slot h := by
          by_contra hne
          exact hap (Or.inr hne)
        rw [Target.slot.inj hk]
      | terminal v => exact absurd (Or.inr (by simp)) hap
  refine Or.inr ⟨rfl, ?_⟩
  rw [ledger_setOrder ho hf, ledger_opened hf ho, openLedger_touch hterms hpend]

/-- An order that ends has a record under its own id. -/
theorem ledger_terminate (ho : s.get h = some o)
    (hterms : SameTerms o o') (u : OmsUpdate) (st : OrderState) (br : Bool) :
    (s.terminate u h o' st br).1.ledger o.clOrdId =
      some (recordLedger (recordOf o' st br (s.estimates h))) := by
  have hend : (s.ended h o' st br).ledger o.clOrdId =
      some (recordLedger (recordOf o' st br (s.estimates h))) := by
    have hown : (pendingErased s.ids o).find o.clOrdId = some (.opened h) := by
      rw [find_pendingErased_of_ne (Or.inr rfl)]
      exact hok.names h o _ ho (Or.inl rfl)
    have hf : (s.ended h o' st br).ids.find o.clOrdId =
        some (terminalRef s.recentlyTerminal.tail) := by
      unfold Oms.ended
      rw [pendingErased_congr hterms, hterms.clOrdId, find_rememberedIds hown, if_pos rfl]
    have hat : (s.ended h o' st br).recentlyTerminal.atPos s.recentlyTerminal.tail =
        some (recordOf o' st br (s.estimates h)) := by
      unfold Oms.ended
      rw [atPos_push (by decide), if_pos rfl]
    refine ledger_terminal hf ?_
    unfold findTerminal
    rw [terminalPos_eq hf rfl hat]
    exact hat
  rw [terminate_fst]
  split
  · exact hend
  · exact hend

/-- An order that ends takes its pending id with it. -/
theorem find_pending_terminate (ho : s.get h = some o)
    (hterms : SameTerms o o') {b : ClientOrderId} {q : Qty} (hpend : pendingLeg o = some (b, q))
    (hne : b ≠ o.clOrdId) (u : OmsUpdate) (st : OrderState) (br : Bool) :
    (s.terminate u h o' st br).1.ids.find b = none := by
  have hst : o.state = .pendingReplace := by
    by_contra hst
    simp [pendingLeg_eq_none.mpr hst] at hpend
  have hb : o.pendingClOrdId = b := by
    unfold pendingLeg at hpend
    rw [if_pos hst] at hpend
    exact congrArg Prod.fst (Option.some.inj hpend)
  subst hb
  have hown : (pendingErased s.ids o).find o.clOrdId = some (.opened h) := by
    rw [find_pendingErased_of_ne (Or.inr rfl)]
    exact hok.names h o _ ho (Or.inl rfl)
  have hgone := find_pendingErased_self hne (hok.pendingValid h o ho hne hst)
    (hok.names h o _ ho (Or.inr ⟨hst, rfl⟩))
  have hend : (s.ended h o' st br).ids.find o.pendingClOrdId = none := by
    unfold Oms.ended
    rw [pendingErased_congr hterms, hterms.clOrdId, find_rememberedIds hown, if_neg hne,
      find_evictedIds, hgone]
    split <;> rfl
  rw [terminate_fst]
  split
  · exact hend
  · exact hend

/-- `submit` of another id. -/
theorem Frame.of_submit {req : NewOrderRequest} {k : ClientOrderId}
    {now : Timestamp} (hne : id ≠ k) : Frame id s (s.submit req k now).1 := by
  rcases s.submit_cases req k now with ⟨h, _, hsub⟩ | ⟨_, halike⟩
  · obtain ⟨pool, ids, halloc, ha, hs'⟩ := hsub.state
    have hdead : s.get h = none := (Pool.allocate_spec halloc).1
    have hget := get_submitted ids (submittedOrder req k now) now halloc
    have hsubmitted : Frame id s (s.submitted h pool ids (submittedOrder req k now) now) := by
      refine Frame.of_parts hok ?_ (Or.inr ?_) ?_ fun _ _ hq _ => hq
      · exact hok.submitted now halloc ha hsub.fresh (by simp [submittedOrder]) rfl
      · exact (CappedMap.find_assign ha id).trans (if_neg hne)
      intro j hf
      obtain ⟨p, hp, _⟩ := hok.named id j hf
      have hj : j ≠ h := by
        rintro rfl
        simp [hdead] at hp
      exact ⟨(hget j).trans (if_neg hj), update_of_ne hj _ _⟩
    have hoksub := hok.submitted (o := submittedOrder req k now) now halloc ha hsub.fresh
      (by simp [submittedOrder]) rfl
    rw [hs']
    split
    · exact hsubmitted.trans (of_eq hoksub rfl rfl rfl rfl)
    · exact hsubmitted
  · exact of_eq hok halike.ids halike.slots halike.estimates halike.recentlyTerminal

/-- `request_replace` of another order, to another id. -/
theorem Frame.of_requestReplace {newId : ClientOrderId} {px : Price} {qty : Qty}
    {now : Timestamp} (hvalid : newId ≠ .invalid) (hap : Apart id (.slot h) s) (hne : id ≠ newId) :
    Frame id s (s.requestReplace h newId px qty now).1 := by
  have hok' := hok.requestReplace h newId px qty now hvalid
  rcases s.requestReplace_cases h newId px qty now with ⟨o, _, hrep⟩ | ⟨_, hsame⟩
  · obtain ⟨ids, hids, hs'⟩ := hrep.state
    rw [hs'] at hok' ⊢
    refine Frame.of_parts hok hok' (Or.inr ?_) ?_ fun _ _ hq _ => hq
    · rcases hids with ⟨_, rfl⟩ | ⟨_, _, ha⟩
      · rfl
      · exact (CappedMap.find_assign ha id).trans (if_neg hne)
    · intro k hf
      exact ⟨(Pool.slots_set hrep.order k).trans (if_neg (hap.slot_ne hf)), rfl⟩
  · rw [hsame]
    exact Frame.refl id s

end

end Changes

/-! ## The execution memory -/

/-- No edit moves the execution memory. -/
theorem Edit.execSeen {t : Target} {s s' : Oms} (he : Edit t s s') :
    s'.execSeen = s.execSeen := by
  cases he with
  | quiet hq => exact hq.execSeen
  | finish u st br ho hterms =>
    rw [terminate_fst]
    split <;> rfl
  | absorb reported u ho =>
    rw [absorbCum_fst]
    split <;> rfl
  | replace u newVenueOrder ho hpend =>
    rw [applyReplace_fst]
    split
    · rfl
    · split <;> rfl
  | _ => rfl

theorem Edits.execSeen {t : Target} {s s' : Oms} (he : Edits t s s') :
    s'.execSeen = s.execSeen :=
  @Edits.keeps t s s' (fun s' => s'.execSeen = s.execSeen)
    (fun _ _ hs hone => hone.execSeen.trans hs) he rfl

/-- A message files its execution and nothing else. -/
theorem receive_execSeen {s : Oms} (hok : IdsOk s) (m : Msg) :
    (s.receive m).1.execSeen = (s.heard m).execSeen := (receive_edits m hok.live).execSeen

/-- A key remembered after a message was there before or is its execution's. -/
theorem mem_heard {s : Oms} {m : Msg} {k : UInt64} (hk : k ∈ (s.heard m).execSeen.keys) :
    k ∈ s.execSeen.keys ∨ ∃ f, m = .fill f ∧ f.execId.empty = false ∧ k = execKey f := by
  cases m with
  | fill f =>
    simp only [heard, remembered] at hk
    split_ifs at hk with hid
    · exact Or.inl hk
    · rcases RecentKeys.mem_assign hk with hk | hk
      · exact Or.inr ⟨f, rfl, by simpa using hid, hk⟩
      · exact Or.inl hk
  | _ => exact Or.inl hk

/-- No call moves the execution memory. -/
theorem call_execSeen (s : Oms) (c : Call) : (s.call c).execSeen = s.execSeen := by
  cases c with
  | submit req id now =>
    rcases s.submit_cases req id now with ⟨h, _, hsub⟩ | ⟨_, halike⟩
    · obtain ⟨pool, ids, _, _, hs'⟩ := hsub.state
      simp only [call]
      rw [hs']
      split <;> rfl
    · exact halike.execSeen
  | requestCancel h => exact (s.requestCancel_touched h).1.edits.execSeen
  | requestCancelUnacked h => exact (s.requestCancel_touched h).2.edits.execSeen
  | requestReplace h newId px qty now =>
    rcases s.requestReplace_cases h newId px qty now with ⟨o, _, hrep⟩ | ⟨_, hsame⟩
    · obtain ⟨ids, _, hs'⟩ := hrep.state
      simp only [call]
      rw [hs']
    · simp only [call]
      rw [hsame]

end Oms

end FastMM
