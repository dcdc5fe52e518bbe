/-
  Quote/HeldSide.lean --- a held side stays off the book, but for refused cancels.

  While a side is held its levels are asked for nothing, so nothing but Cancels is placed
  on it.  `pull_side` cancels the orders that work, and gives those in flight an empty
  target to apply at their ack; `Off` says that every pending New or Replace of the side
  has one, or the instrument is pulled.

  `on_order_update` applies a target at an ack only, where the state before was a pending
  New or Replace.  An order whose Cancel the venue refuses goes back to the book from a
  pending Cancel, and no new Cancel is placed for it unless the instrument is pulled.
-/
import FastMM.Quote.PulledInstrument
import FastMM.Quote.TidySlots
set_option autoImplicit false

namespace FastMM

open Oms (Calm Familiar)

namespace QuoteDesk

/-- Cancels only, on one side. -/
def CancelsOn (s : Side) : Side → QuoteActionKind → Prop := fun s' k => s' = s → k = .cancel

/-- A New or Replace in flight has a target to apply. -/
def CoveredAt (i : InstrumentId) (s : Side) (lvl : Nat) (d : QuoteDesk) : Prop :=
  ∀ h o, d.oms.get h = some o → o.Quotes i s lvl →
    o.state = .pendingNew ∨ o.state = .pendingReplace → (d.slot i s lvl).applyWant = true

/-- The side of the instrument is held, and what is in flight will be cancelled. -/
structure Off (i : InstrumentId) (s : Side) (d : QuoteDesk) : Prop where
  owned : d.Owned
  tidy : Tidy d
  held : d.quotes.sideHeld s = true
  unpaused : (d.inst i).paused = false
  covered : (d.inst i).pulled = true ∨ ∀ lvl, lvl < kMaxQuoteLevels → CoveredAt i s lvl d
  placed : ∀ p ∈ d.placed, p.action.instrument = i → p.action.side = s → p.action.kind = .cancel

variable {d d' : QuoteDesk} {f : Placer} {i j : InstrumentId} {s : Side} {lvl : Nat}
  {Z : Side → Nat → Prop} {K : Side → QuoteActionKind → Prop}

/-! ## What an empty target does -/

theorem calm_cancel (d : QuoteDesk) : Calm d.oms (d.cancel f i s lvl).oms := by
  have hplace : ∀ p, Calm d.oms (placeQuote d.oms
      { kind := .cancel, instrument := i, side := s, level := lvl
        handle := (d.slot i s lvl).handle } p).1 := by
    intro p
    unfold placeQuote
    split
    · exact Calm.refl d.oms
    dsimp only
    split
    · exact Calm.refl d.oms
    rename_i h _
    have hcalm := Oms.calm_requestCancel d.oms h
    split
    all_goals
      rename_i hr
      rw [hr] at hcalm
      exact hcalm
  unfold cancel
  dsimp only
  split
  · exact hplace _
  · exact hplace _

/-- A slot asked for nothing: an order in flight keeps an empty target. -/
theorem reconcileSlot_covers (ho : d.Owned) (inst : QuotedInstrument) (hlvl : lvl < kMaxQuoteLevels)
    {t : QuoteTarget} (ht : t.level.qty ≤ 0) (now : Timestamp) :
    CoveredAt inst.id s lvl (d.reconcileSlot f inst s lvl t now) := by
  unfold reconcileSlot
  dsimp only
  cases hso : d.slotOrder inst.id s lvl with
  | none =>
    unfold fillSlot
    rw [if_pos ht]
    intro h o hget hq _
    have hheld := (ho.handle hlvl hget hq).2
    have howns : d.owns inst.id s lvl = true := owns_iff.mpr ⟨h, o, hheld, hget, hq⟩
    simp [slotOrder_none hso] at howns
  | some o =>
    dsimp only
    split_ifs with hpend
    · intro _ _ _ _ _
      rw [slot_setSlot_self]
      rfl
    obtain ⟨_, k, hk, hget, _⟩ := slotOrder_some hso
    intro h o' hget' hq' hst
    -- The order of the slot was not pending, and a Cancel brings no New or Replace.
    obtain ⟨x, hx, hid, hw⟩ := calm_cancel _ h o' hget'
    have hx : d.oms.get h = some x := hx
    unfold Order.identity at hid
    simp only [Prod.mk.injEq] at hid
    have hxq : x.Quotes inst.id s lvl := ⟨hid.1.symm.trans hq'.1, hid.2.2.symm.trans hq'.2⟩
    have hheld := (ho.handle hlvl hx hxq).2
    obtain rfl := Option.some.inj (hk.symm.trans hheld)
    obtain rfl := Option.some.inj (hget.symm.trans hx)
    rcases hw with hw | hw
    · rw [← hw] at hpend
      rcases hst with hst | hst
      · rw [hst] at hpend
        exact absurd rfl hpend
      · rw [hst] at hpend
        exact absurd rfl hpend
    · rcases hst with hst | hst
      · exact absurd (hw.symm.trans hst) (by simp)
      · exact absurd (hw.symm.trans hst) (by simp)

/-- A slot asked for nothing: a working order is cancelled. -/
theorem reconcileSlot_cancels (inst : QuotedInstrument) {h : Nat} {o : Order}
    (hslot : (d.slot inst.id s lvl).handle = some h) (hget : d.oms.get h = some o)
    (hq : o.Quotes inst.id s lvl) (hwork : o.isWorking = true) {t : QuoteTarget}
    (ht : t.level.qty ≤ 0) (now : Timestamp) :
    (d.reconcileSlot f inst s lvl t now).CancelPlaced inst.id s h := by
  have howns : d.owns inst.id s lvl = true := owns_iff.mpr ⟨h, o, hslot, hget, hq⟩
  have hso : d.slotOrder inst.id s lvl = some o := by
    unfold slotOrder
    rw [if_pos howns, hslot]
    exact hget
  have hpend : o.state.isPending = false := by
    unfold Order.isWorking at hwork
    cases hst : o.state with
    | live => rfl
    | partiallyFilled => rfl
    | _ =>
      rw [hst] at hwork
      exact absurd hwork (by decide)
  unfold reconcileSlot
  dsimp only
  rw [hso]
  dsimp only
  rw [if_neg (by rw [hpend]; simp), if_pos ht]
  refine cancel_places ?_
  rw [slot_setSlot_self]
  exact hslot

section Side

variable (ho : d.Owned) (inst : QuotedInstrument) {n : Nat} (hn : n ≤ kMaxQuoteLevels)
  {want : Nat → QuoteTarget} (hwant : ∀ lvl, (want lvl).level.qty ≤ 0) (now : Timestamp)
variable {o : Order}

include ho

/-- What the other slots' work leaves of an order and its slot. -/
theorem before_slot {d₁ : QuoteDesk} (hbefore : SlotStep inst.id (Below s lvl) Anything d d₁)
    (hlvl : lvl < kMaxQuoteLevels) {h : Nat} (hget : d.oms.get h = some o)
    (hq : o.Quotes inst.id s lvl) :
    (d₁.slot inst.id s lvl).handle = some h ∧ d₁.oms.get h = some o := by
  constructor
  · rw [hbefore.slots s lvl fun hb => absurd hb.2 (lt_irrefl lvl)]
    exact (ho.handle hlvl hget hq).2
  refine (hbefore.orders h o ?_).mpr hget
  intro s' l hb hq'
  have hl : l < lvl := hb.2
  obtain ⟨_, hlevels⟩ := makeTag_inj hlvl (lt_trans hl hlvl) (hq.2.symm.trans hq'.2)
  omega

include hn hwant

theorem reconcileSlots_cancels {h : Nat} (hlvl : lvl < n)
    (hget : d.oms.get h = some o) (hq : o.Quotes inst.id s lvl) (hwork : o.isWorking = true) :
    (d.reconcileSlots f inst s n want now).CancelPlaced inst.id s h := by
  obtain ⟨d₁, hbefore, hafter⟩ := fold_at
    (fun d l hl => reconcileSlot_step (d := d) (f := f) (s := s) (K := Anything) inst (want l)
      trivial (fun _ _ => trivial) hl now) n hn hlvl d
  obtain ⟨hslot₁, hget₁⟩ := before_slot ho inst hbefore (by omega) hget hq
  exact (reconcileSlot_cancels inst hslot₁ hget₁ hq hwork (hwant lvl) now).step hafter

theorem reconcileSlots_covers (hlvl : lvl < n) :
    CoveredAt inst.id s lvl (d.reconcileSlots f inst s n want now) := by
  obtain ⟨d₁, hbefore, hafter⟩ := fold_at
    (fun d l hl => reconcileSlot_step (d := d) (f := f) (s := s) (K := Anything) inst (want l)
      trivial (fun _ _ => trivial) hl now) n hn hlvl d
  have hcovered := reconcileSlot_covers (f := f) (s := s) (hbefore.owned ho) inst
    (lt_of_lt_of_le hlvl hn) (hwant lvl) now
  intro h o hget hq hst
  have hslot : ((d.reconcileSlots f inst s n want now).slot inst.id s lvl) = _ :=
    hafter.slots s lvl fun ha => absurd ha.2.1 (lt_irrefl lvl)
  rw [hslot]
  refine hcovered h o ((hafter.orders h o ?_).mp hget) hq hst
  intro s' l ha hq'
  obtain ⟨_, hl, hmax⟩ := ha
  obtain ⟨_, hlevels⟩ := makeTag_inj (lt_of_lt_of_le hlvl hn) hmax (hq.2.symm.trans hq'.2)
  omega

/-- The slots of `reconcile_side` and the count: every slot of the side is covered. -/
theorem reconcileSide_covers (htidy : Tidy d) (hused : (d.inst inst.id).used s ≤ n) (lvl : Nat)
    (hlvl : lvl < kMaxQuoteLevels) :
    CoveredAt inst.id s lvl (d.reconcileSide f inst s n want now) := by
  have hstep : InstStep inst.id Anything d (d.reconcileSide f inst s n want now) :=
    reconcileSide_step inst n hn want trivial (fun _ _ => anything) now d
  have ho' := hstep.owned ho
  by_cases hln : lvl < n
  · have hcovered := reconcileSlots_covers (f := f) (s := s) ho inst hn hwant now hln
    obtain ⟨used, _, _, heq⟩ := reconcileSide_eq (f := f) (s := s) inst n hn want now d
    rw [heq]
    intro h o hget hq hst
    show (((QuoteDesk.setInst _ _ _).quotes.state inst.id.value).slots s lvl).applyWant = true
    rw [inst_setInst, if_pos rfl]
    exact hcovered h o hget hq hst
  · -- A slot past those in use has not been visited, and holds nothing.
    intro h o hget hq _
    obtain ⟨used, _, _, heq⟩ := reconcileSide_eq (f := f) (s := s) inst n hn want now d
    have hslots := reconcileSlots_step (f := f) (s := s) inst n hn want (K := Anything) trivial
      (fun _ _ => anything) now d
    have hheld := (ho'.handle hlvl hget hq).2
    have hsame : (d.reconcileSide f inst s n want now).slot inst.id s lvl =
        d.slot inst.id s lvl := by
      rw [heq, ← hslots.slots s lvl fun hb => hln hb.2]
      show ((QuoteDesk.setInst _ _ _).quotes.state inst.id.value).slots s lvl = _
      rw [inst_setInst, if_pos rfl]
      rfl
    rw [hsame] at hheld
    have hempty := (empty_iff.mp (htidy inst.id s lvl (by omega))).1
    exact absurd (hempty.symm.trans hheld) (by simp)

/-- A working order of the side is cancelled. -/
theorem reconcileSide_cancels (htidy : Tidy d) (hused : (d.inst inst.id).used s ≤ n) {h : Nat}
    (hw : WorkingQuote d.oms inst.id h o) (hs : o.side = s) :
    (d.reconcileSide f inst s n want now).CancelPlaced inst.id s h := by
  subst hs
  obtain ⟨hget, hinst, htag, hwork⟩ := hw
  obtain ⟨lvl, -, hmake, hslot⟩ := ho.held h o hget htag
  rw [hinst] at hslot
  have hln : lvl < n := by
    by_contra hge
    have hempty := (empty_iff.mp (htidy inst.id o.side lvl (by omega))).1
    exact absurd (hempty.symm.trans hslot) (by simp)
  obtain ⟨used, _, _, heq⟩ := reconcileSide_eq (f := f) (s := o.side) inst n hn want now d
  rw [heq]
  exact reconcileSlots_cancels ho inst hn hwant now hln hget ⟨hinst, hmake⟩ hwork

end Side

/-! ## What the other side's work leaves -/

theorem CancelPlaced.instStep {h : Nat} (hc : d.CancelPlaced i s h) (hstep : InstStep j K d d') :
    d'.CancelPlaced i s h := by
  obtain ⟨p, hp, hrest⟩ := hc
  obtain ⟨new, hnew, _⟩ := hstep.placed
  exact ⟨p, by rw [hnew]; exact List.mem_append_left _ hp, hrest⟩

/-- A side and its orders are as they were. -/
structure SideSame (i : InstrumentId) (s : Side) (d d' : QuoteDesk) : Prop where
  slots : ∀ lvl, d'.slot i s lvl = d.slot i s lvl
  orders : ∀ lvl, lvl < kMaxQuoteLevels → ∀ h o, o.Quotes i s lvl →
    (d'.oms.get h = some o ↔ d.oms.get h = some o)

theorem SideSame.covered (h : SideSame i s d d') (hlvl : lvl < kMaxQuoteLevels)
    (hc : CoveredAt i s lvl d) : CoveredAt i s lvl d' := by
  intro k o hget hq hst
  rw [h.slots]
  exact hc k o ((h.orders lvl hlvl k o hq).mp hget) hq hst

theorem SideSame.of_quiet (hq : Quiet d d') : SideSame i s d d' where
  slots lvl := by
    unfold slot inst
    rw [hq.slots]
  orders _ _ h o _ := by rw [hq.oms]

theorem SideSame.setInst (st : QuoteInstState) (hst : st.slots = (d.inst i).slots) :
    SideSame i s d (d.setInst i st) where
  slots lvl := by
    show ((d.setInst i st).quotes.state i.value).slots s lvl = _
    rw [inst_setInst, if_pos rfl, hst]
    rfl
  orders _ _ _ _ _ := Iff.rfl

theorem SideSame.trans {d'' : QuoteDesk} (h : SideSame i s d d') (h' : SideSame i s d' d'') :
    SideSame i s d d'' where
  slots lvl := (h'.slots lvl).trans (h.slots lvl)
  orders lvl hlvl k o hq := (h'.orders lvl hlvl k o hq).trans (h.orders lvl hlvl k o hq)

/-- Work on slots that are none of this side's. -/
theorem SideSame.of_slots (hstep : SlotStep i Z K d d')
    (hZ : ∀ s' l, Z s' l → s' ≠ s ∧ l < kMaxQuoteLevels) : SideSame i s d d' where
  slots lvl := hstep.slots s lvl fun hz => (hZ s lvl hz).1 rfl
  orders lvl hlvl k o hq := by
    refine hstep.orders k o ?_
    intro s' l hz hq'
    obtain ⟨hs, _⟩ := makeTag_inj hlvl (hZ s' l hz).2 (hq.2.symm.trans hq'.2)
    exact (hZ s' l hz).1 hs.symm

theorem SideSame.of_other (hstep : InstStep j K d d') (hj : j ≠ i) : SideSame i s d d' where
  slots lvl := by
    unfold slot inst
    rw [(hstep.others _ (value_ne hj)).1]
  orders _ _ k o hq := by
    refine hstep.orders k o ?_
    rw [hq.1]
    exact Ne.symm hj

section OtherSide

variable (inst : QuotedInstrument) {n : Nat} (hn : n ≤ kMaxQuoteLevels)
  (want : Nat → QuoteTarget) (now : Timestamp)

include hn

theorem reconcileSide_same {s' : Side} (hs : s' ≠ s) :
    SideSame inst.id s d (d.reconcileSide f inst s' n want now) := by
  obtain ⟨used, _, _, heq⟩ := reconcileSide_eq (f := f) (s := s') inst n hn want now d
  have hslots : SlotStep inst.id (Below s' n) Anything d (d.reconcileSlots f inst s' n want now) :=
    reconcileSlots_step inst n hn want trivial (fun _ _ => anything) now d
  rw [heq]
  refine SideSame.trans (SideSame.of_slots hslots ?_) (SideSame.setInst _ rfl)
  rintro s'' l ⟨rfl, hl⟩
  exact ⟨hs, lt_of_lt_of_le hl hn⟩

theorem reconcileSide_flags :
    ((d.reconcileSide f inst s n want now).inst inst.id).pulled = (d.inst inst.id).pulled ∧
      ((d.reconcileSide f inst s n want now).inst inst.id).paused = (d.inst inst.id).paused := by
  obtain ⟨used, _, _, heq⟩ := reconcileSide_eq (f := f) (s := s) inst n hn want now d
  have hslots : SlotStep inst.id (Below s n) Anything d (d.reconcileSlots f inst s n want now) :=
    reconcileSlots_step inst n hn want trivial (fun _ _ => anything) now d
  have hpulled := pulled_of_standing (hslots.standing inst.id.value)
  have hpaused := paused_of_standing (hslots.standing inst.id.value)
  rw [heq]
  have hinst : ∀ (d : QuoteDesk) (st : QuoteInstState),
    (d.setInst inst.id st).inst inst.id = st := by
    intro d st
    show (d.setInst inst.id st).quotes.state inst.id.value = st
    rw [inst_setInst, if_pos rfl]
  rw [hinst]
  exact ⟨hpulled, hpaused⟩

end OtherSide

/-! ## Reconciling a held side -/

theorem targetOf_empty (hheld : d.quotes.sideHeld s = true) (desired : DesiredQuotes) (lvl : Nat) :
    (d.targetOf desired s lvl).level.qty ≤ 0 := by
  by_contra hpos
  have hfree := targetOf_held (not_le.mp hpos)
  exact absurd (hheld.symm.trans hfree) (by simp)

/-- The write of the flags a reconcile begins with. -/
def freshFlags (d : QuoteDesk) (i : InstrumentId) (desired : DesiredQuotes) : QuoteDesk :=
  d.setInst i { d.inst i with
    pulled := false
    paused := false
    resumable := false
    desired := desired }

section Reconcile

variable (ho : d.Owned) (htidy : Tidy d) (hheld : d.quotes.sideHeld s = true)
  (inst : QuotedInstrument) (desired : DesiredQuotes) (now : Timestamp)

include ho htidy hheld

/-- A reconcile, seen from a held side: it works on the slots of the side, which are
asked for nothing. -/
theorem reconcile_held :
    ∃ d₁ n want, d₁.Owned ∧ Tidy d₁ ∧ n ≤ kMaxQuoteLevels ∧ (d₁.inst inst.id).used s ≤ n ∧
      (∀ lvl, (want lvl : QuoteTarget).level.qty ≤ 0) ∧ (d₁.inst inst.id).paused = false ∧
      SideSame inst.id s d d₁ ∧
      SideSame inst.id s (d₁.reconcileSide f inst s n want now) (d.reconcile f inst desired now) ∧
      InstStep inst.id Anything (d₁.reconcileSide f inst s n want now)
        (d.reconcile f inst desired now) ∧
      ((d.reconcile f inst desired now).inst inst.id).paused =
        ((d₁.reconcileSide f inst s n want now).inst inst.id).paused := by
  have hset : InstStep inst.id Anything d (d.freshFlags inst.id desired) :=
    InstStep.setInst _ (fun _ _ => rfl) fun ho s => ho.used _ s
  have hsame : SideSame inst.id s d (d.freshFlags inst.id desired) := SideSame.setInst _ rfl
  have htidy₁ : Tidy (d.freshFlags inst.id desired) :=
    htidy.setInst _ fun s lvl hu => htidy inst.id s lvl hu
  have hpaused : ((d.freshFlags inst.id desired).inst inst.id).paused = false := by
    show ((QuoteDesk.setInst _ _ _).quotes.state inst.id.value).paused = false
    rw [inst_setInst, if_pos rfl]
  have ho₁ := hset.owned ho
  have heq : d.reconcile f inst desired now =
      ((d.freshFlags inst.id desired).reconcileWanted f inst desired .buy now).reconcileWanted f
        inst desired .sell now := rfl
  rw [← hset.sideHeld] at hheld
  rw [heq]
  generalize d.freshFlags inst.id desired = d₁ at *
  have hnb := max_le (desired.side .buy).length_le (ho₁.used inst.id.value .buy)
  have hbuy : InstStep inst.id Anything d₁ (d₁.reconcileWanted f inst desired .buy now) :=
    reconcileWanted_step inst ho₁ desired trivial (fun _ => anything) now
  have htidy₂ : Tidy (d₁.reconcileWanted f inst desired .buy now) :=
    htidy₁.reconcileSide inst hnb (le_max_right _ _) _ now
  have ho₂ := hbuy.owned ho₁
  have hns := max_le (desired.side .sell).length_le (ho₂.used inst.id.value .sell)
  have hsell : InstStep inst.id Anything (d₁.reconcileWanted f inst desired .buy now)
      ((d₁.reconcileWanted f inst desired .buy now).reconcileWanted f inst desired .sell now) :=
    reconcileWanted_step inst ho₂ desired trivial (fun _ => anything) now
  cases s with
  | buy =>
    refine ⟨d₁, _, d₁.targetOf desired .buy, ho₁, htidy₁, hnb, le_max_right _ _,
      targetOf_empty hheld desired, hpaused, hsame, ?_, hsell, ?_⟩
    · exact reconcileSide_same inst hns _ now (by simp)
    · exact (reconcileSide_flags inst hns _ now).2
  | sell =>
    have hheld₂ : (d₁.reconcileWanted f inst desired .buy now).quotes.sideHeld .sell = true := by
      rw [hbuy.sideHeld]
      exact hheld
    refine ⟨d₁.reconcileWanted f inst desired .buy now, _,
      (d₁.reconcileWanted f inst desired .buy now).targetOf desired .sell, ho₂, htidy₂, hns,
      le_max_right _ _, targetOf_empty hheld₂ desired, ?_, ?_, ?_, InstStep.refl _, rfl⟩
    · exact (reconcileSide_flags inst hnb _ now).2.trans hpaused
    · exact hsame.trans (reconcileSide_same inst hnb _ now (by simp))
    · exact ⟨fun _ => rfl, fun _ _ _ _ _ => Iff.rfl⟩

theorem reconcile_covers (lvl : Nat) (hlvl : lvl < kMaxQuoteLevels) :
    CoveredAt inst.id s lvl (d.reconcile f inst desired now) := by
  obtain ⟨d₁, n, want, ho₁, htidy₁, hn, hused, hwant, _, _, hafter, _, _⟩ :=
    reconcile_held (f := f) ho htidy hheld inst desired now
  exact hafter.covered hlvl (reconcileSide_covers ho₁ inst hn hwant now htidy₁ hused lvl hlvl)

theorem reconcile_unpaused : ((d.reconcile f inst desired now).inst inst.id).paused = false := by
  obtain ⟨d₁, n, want, _, _, hn, _, _, hpaused, _, _, _, hlast⟩ :=
    reconcile_held (f := f) ho htidy hheld inst desired now
  exact hlast.trans ((reconcileSide_flags inst hn want now).2.trans hpaused)

theorem reconcile_cancels {h : Nat} {o : Order} (hw : WorkingQuote d.oms inst.id h o)
    (hs : o.side = s) : (d.reconcile f inst desired now).CancelPlaced inst.id s h := by
  obtain ⟨d₁, n, want, ho₁, htidy₁, hn, hused, hwant, _, hbefore, _, hstep, _⟩ :=
    reconcile_held (f := f) ho htidy hheld inst desired now
  have hw₁ : WorkingQuote d₁.oms inst.id h o := by
    obtain ⟨lvl, hlvl, hmake, _⟩ := ho.held h o hw.1 hw.2.2.1
    rw [hs] at hmake
    exact ⟨(hbefore.orders lvl hlvl h o ⟨hw.2.1, hmake⟩).mpr hw.1, hw.2⟩
  exact (reconcileSide_cancels ho₁ inst hn hwant now htidy₁ hused hw₁ hs).instStep hstep

end Reconcile

/-! ## Order updates of a held side -/

/-- An update that reaches a covered slot leaves it covered, where the instrument is
neither pulled nor paused. -/
theorem onOrderUpdate_covers (ho : d.Owned) {inst : QuotedInstrument} {u : OmsUpdate}
    (hheld : d.quotes.sideHeld (tagSide u.order.userTag) = true)
    (hpulled : (d.inst inst.id).pulled = false)
    (hc : CoveredAt inst.id (tagSide u.order.userTag) (tagLevel u.order.userTag) d)
    (now : Timestamp) :
    CoveredAt inst.id (tagSide u.order.userTag) (tagLevel u.order.userTag)
      (d.onOrderUpdate f u inst now) := by
  unfold onOrderUpdate
  dsimp only
  split
  · exact hc
  rename_i hcond
  have hlvl : tagLevel u.order.userTag < kMaxQuoteLevels :=
    not_le.mp fun h => hcond (.inr (.inl h))
  generalize hd₁ : (if u.refused ≠ .none then
    d.onVenueReject inst.id (tagSide u.order.userTag) u.refused now else d) = d₁
  have hq : Quiet d d₁ := hd₁ ▸ (quiet_onVenueReject d _ _ _ _).of_if
  have ho₁ := ho.of_quiet hq
  rw [← hq.sideHeld] at hheld
  have hpulled₁ : (d₁.inst inst.id).pulled = false :=
    (pulled_of_standing (hq.standing inst.id.value)).trans hpulled
  have hc₁ := (SideSame.of_quiet hq).covered hlvl hc
  generalize tagSide u.order.userTag = s at *
  generalize tagLevel u.order.userTag = lvl at *
  split
  · unfold onWorkingUpdate
    dsimp only
    generalize hd₂ : (if decide (u.prev = .pendingNew ∨ u.prev = .pendingReplace) = true ∧
        u.refused = .none ∧ u.order.isWorking = true then d₁.setInst inst.id { d₁.inst inst.id with
          backoff := Function.update (d₁.inst inst.id).backoff s 0 } else d₁) = d₂
    have hq₂ : Quiet d₁ d₂ := by
      rw [← hd₂]
      exact .of_if (quiet_setInst d₁ inst.id _ rfl rfl)
    have hc₂ := (SideSame.of_quiet hq₂).covered hlvl hc₁
    have hpulled₂ : (d₂.inst inst.id).pulled = false :=
      (pulled_of_standing (hq₂.standing inst.id.value)).trans hpulled₁
    rw [hpulled₂]
    split
    · exact hc₂
    rw [if_neg (by simp)]
    split
    · exact hc₂
    split
    · have hset : SlotStep inst.id (At s lvl) Anything d₂ (d₂.setSlot inst.id s lvl
          { d₂.slot inst.id s lvl with applyWant := false }) := SlotStep.setSlot _ rfl
      refine reconcileSlot_covers (hset.owned (ho₁.of_quiet hq₂)) inst hlvl ?_ now
      have hheld₂ : d₂.quotes.sideHeld s = true := by
        rw [hq₂.sideHeld]
        exact hheld
      show (if d₂.quotes.sideHeld s = true then ({} : Level)
        else (d₂.slot inst.id s lvl).want).qty ≤ 0
      rw [if_pos hheld₂]
    · exact hc₂
  · -- The slot's order is gone, and nothing takes its place on a held side.
    unfold onTerminalUpdate
    dsimp only
    split
    · exact hc₁
    rename_i howns
    rw [Bool.not_eq_true] at howns
    have hgone : ∀ {d' : QuoteDesk}, d'.oms = d₁.oms → CoveredAt inst.id s lvl d' := by
      intro d' homs h o hget hq' _
      rw [homs] at hget
      have hown : d₁.owns inst.id s lvl = true :=
        owns_iff.mpr ⟨h, o, (ho₁.handle hlvl hget hq').2, hget, hq'⟩
      exact absurd (howns.symm.trans hown) (by simp)
    split
    · exact hgone rfl
    split
    · exact hgone rfl
    · rename_i hask
      exact absurd (Or.inr hheld) hask

namespace Off

section

variable (h : Off i s d)
include h

theorem of_quiet (hq : Quiet d d') : Off i s d' where
  owned := h.owned.of_quiet hq
  tidy := h.tidy.of_quiet hq
  held := by
    rw [hq.sideHeld]
    exact h.held
  unpaused := (paused_of_standing (hq.standing i.value)).trans h.unpaused
  covered := by
    rw [show (d'.inst i).pulled = (d.inst i).pulled from
      pulled_of_standing (hq.standing i.value)]
    exact h.covered.imp id fun hc lvl hlvl => (SideSame.of_quiet hq).covered hlvl (hc lvl hlvl)
  placed := by
    rw [hq.placed]
    exact h.placed

/-- A step that places only Cancels on the side. -/
theorem of_step (hstep : InstStep j (CancelsOn s) d d') (htidy : Tidy d')
    (hpaused : (d'.inst i).paused = false)
    (hcovered : (d'.inst i).pulled = true ∨ ∀ lvl, lvl < kMaxQuoteLevels → CoveredAt i s lvl d') :
    Off i s d' where
  owned := hstep.owned h.owned
  tidy := htidy
  held := by
    rw [hstep.sideHeld]
    exact h.held
  unpaused := hpaused
  covered := hcovered
  placed p hp hi hs := (hstep.mem_placed hp).elim (h.placed p · hi hs) fun hnew => hnew.2 hs

/-- Work on another instrument. -/
theorem of_other (hstep : InstStep j Anything d d') (htidy : Tidy d') (hj : j ≠ i) :
    Off i s d' := by
  have hstanding := (hstep.others _ (value_ne hj)).2
  have hsame : SideSame i s d d' := SideSame.of_other hstep hj
  refine ⟨hstep.owned h.owned, htidy, by rw [hstep.sideHeld]; exact h.held,
    (paused_of_standing hstanding).trans h.unpaused, ?_, ?_⟩
  · rw [show (d'.inst i).pulled = (d.inst i).pulled from pulled_of_standing hstanding]
    exact h.covered.imp id fun hc lvl hlvl => hsame.covered hlvl (hc lvl hlvl)
  exact fun p hp hi hs => (hstep.mem_placed hp).elim (h.placed p · hi hs)
    fun hnew => absurd (hnew.1.symm.trans hi) hj

/-- On a held side only Cancels may be placed, on the other anything. -/
theorem admits {s' : Side} (hs : d.quotes.sideHeld s' = false)
    (k : QuoteActionKind) : CancelsOn s s' k := by
  rintro rfl
  exact absurd (h.held.symm.trans hs) (by simp)

section

variable (inst : QuotedInstrument)
include inst

theorem reconcile (desired : DesiredQuotes)
    (now : Timestamp) : Off i s (d.reconcile f inst desired now) := by
  have htidy : Tidy (d.reconcile f inst desired now) := h.tidy.reconcile h.owned inst desired now
  by_cases hi : inst.id = i
  · subst hi
    have hstep : InstStep inst.id (CancelsOn s) d (d.reconcile f inst desired now) :=
      reconcile_step inst h.owned desired (fun _ _ => rfl) (fun s' hs k => h.admits hs k) now
    exact h.of_step hstep htidy (reconcile_unpaused h.owned h.tidy h.held inst desired now)
      (.inr (reconcile_covers h.owned h.tidy h.held inst desired now))
  · have hstep : InstStep inst.id Anything d (d.reconcile f inst desired now) :=
      reconcile_step inst h.owned desired (fun _ => trivial) (fun _ _ => anything) now
    exact h.of_other hstep htidy hi

theorem resume (now : Timestamp) :
    Off i s (d.resume f inst now) := by
  have hset : Off i s (d.setInst inst.id { d.inst inst.id with paused := false }) := by
    have htidy : Tidy (d.setInst inst.id { d.inst inst.id with paused := false }) :=
      h.tidy.setInst _ fun s lvl hu => h.tidy inst.id s lvl hu
    have hstep : ∀ K, InstStep inst.id K d
        (d.setInst inst.id { d.inst inst.id with paused := false }) :=
      fun K => InstStep.setInst _ (fun _ _ => rfl) fun ho s => ho.used _ s
    by_cases hi : inst.id = i
    · subst hi
      have hinst : (d.setInst inst.id { d.inst inst.id with paused := false }).inst inst.id =
          { d.inst inst.id with paused := false } := by
        show (QuoteDesk.setInst _ _ _).quotes.state inst.id.value = _
        rw [inst_setInst, if_pos rfl]
      refine h.of_step (hstep _) htidy ?_ ?_
      · rw [hinst]
      · rw [hinst]
        refine h.covered.imp id fun hc lvl hlvl => ?_
        exact SideSame.covered (SideSame.setInst _ rfl) hlvl (hc lvl hlvl)
    · exact h.of_other (hstep _) htidy hi
  unfold QuoteDesk.resume
  dsimp only
  split
  · exact hset
  · exact hset.reconcile inst _ now

theorem pullSide (s' : Side) (now : Timestamp) :
    Off i s (d.pullSide f inst s' now) := by
  have hn := h.owned.used inst.id.value s'
  have htidy : Tidy (d.pullSide f inst s' now) :=
    h.tidy.reconcileSide inst hn (le_refl _) _ now
  by_cases hi : inst.id = i
  · subst hi
    have hstep : InstStep inst.id (CancelsOn s) d (d.pullSide f inst s' now) :=
      pullSide_step inst h.owned (fun _ => rfl) now
    obtain ⟨hpulled, hpaused⟩ :=
      reconcileSide_flags (d := d) (f := f) (s := s') inst hn (fun _ => {}) now
    refine h.of_step hstep htidy (hpaused.trans h.unpaused) ?_
    by_cases hs : s' = s
    · subst hs
      exact .inr (reconcileSide_covers h.owned inst hn (fun _ => le_refl 0) now h.tidy (le_refl _))
    have hsame : SideSame inst.id s d (d.pullSide f inst s' now) :=
      reconcileSide_same inst hn _ now hs
    refine h.covered.imp (hpulled.trans) fun hc lvl hlvl => ?_
    exact hsame.covered hlvl (hc lvl hlvl)
  · have hstep : InstStep inst.id Anything d (d.pullSide f inst s' now) :=
      pullSide_step inst h.owned trivial now
    exact h.of_other hstep htidy hi

theorem pullQuotes (keepDesired : Bool) :
    Off i s (d.pullQuotes f inst keepDesired) := by
  have htidy : Tidy (d.pullQuotes f inst keepDesired) :=
    ((keeps_tidy f).pull d inst keepDesired ⟨h.owned, h.tidy⟩).2
  by_cases hi : inst.id = i
  · subst hi
    have hstep : InstStep inst.id (CancelsOn s) d (d.pullQuotes f inst keepDesired) :=
      pullQuotes_step inst keepDesired fun _ _ => rfl
    obtain ⟨hpulled, hpaused, _⟩ := pullFlags_inst (d := d) (i := inst.id) keepDesired
    have hslots : ∀ s (d : QuoteDesk), SlotStep inst.id (Below s kMaxQuoteLevels) Cancels d
        ((List.range kMaxQuoteLevels).foldl (pullSlot f inst.id s) d) :=
      fun s d => pullSlots_step rfl kMaxQuoteLevels (le_refl _) d
    have hstanding : ((d.pullQuotes f inst keepDesired).inst inst.id).standing =
        ((d.pullFlags inst.id keepDesired).inst inst.id).standing := by
      rw [pullQuotes_eq]
      exact ((hslots .sell _).standing _).trans ((hslots .buy _).standing _)
    exact h.of_step hstep htidy ((paused_of_standing hstanding).trans hpaused)
      (.inl ((pulled_of_standing hstanding).trans hpulled))
  · have hstep : InstStep inst.id Anything d (d.pullQuotes f inst keepDesired) :=
      pullQuotes_step inst keepDesired fun _ => trivial
    exact h.of_other hstep htidy hi

end

theorem update (u : OmsUpdate) (inst : QuotedInstrument) (now : Timestamp) :
    Off i s (d.onOrderUpdate f u inst now) := by
  have htidy : Tidy (d.onOrderUpdate f u inst now) :=
    ((keeps_tidy f).update d u inst now ⟨h.owned, h.tidy⟩).2
  by_cases hi : inst.id = i
  · subst hi
    have hslot : SlotStep inst.id (At (tagSide u.order.userTag) (tagLevel u.order.userTag))
        (CancelsOn s) d (d.onOrderUpdate f u inst now) :=
      onOrderUpdate_step inst u (fun _ => rfl) (fun _ hs k => h.admits hs k) now
    have hpulled := pulled_of_standing (hslot.standing inst.id.value)
    refine h.of_step (InstStep.of_slotStep hslot) htidy
      ((paused_of_standing (hslot.standing inst.id.value)).trans h.unpaused) ?_
    by_cases hp : (d.inst inst.id).pulled = true
    · exact .inl (hpulled.trans hp)
    refine .inr fun lvl hlvl => ?_
    have hc := h.covered.resolve_left hp lvl hlvl
    by_cases hmax : kMaxQuoteLevels ≤ tagLevel u.order.userTag
    · have hsame : d.onOrderUpdate f u inst now = d := if_pos (.inr (.inl hmax))
      rw [hsame]
      exact hc
    by_cases hat : At (tagSide u.order.userTag) (tagLevel u.order.userTag) s lvl
    · obtain ⟨rfl, rfl⟩ := hat
      exact onOrderUpdate_covers h.owned h.held (by simpa using hp) hc now
    intro k o hget hq hst
    rw [hslot.slots s lvl hat]
    refine hc k o ((hslot.orders k o ?_).mp hget) hq hst
    rintro s' l ⟨rfl, rfl⟩ hq'
    obtain ⟨hs, hl⟩ := makeTag_inj hlvl (not_le.mp hmax) (hq.2.symm.trans hq'.2)
    exact hat ⟨hs, hl⟩
  · have hstep : SlotStep inst.id (At (tagSide u.order.userTag) (tagLevel u.order.userTag))
        Anything d (d.onOrderUpdate f u inst now) :=
      onOrderUpdate_step inst u trivial (fun _ _ => anything) now
    exact h.of_other (InstStep.of_slotStep hstep) htidy hi

/-- Orders that were there; a New or Replace in flight was in flight. -/
theorem withOms {oms : Oms} (hkept : Familiar d.oms oms)
    (hpend : ∀ k o', oms.get k = some o' → isQuoteTag o'.userTag = true →
      o'.state = .pendingNew ∨ o'.state = .pendingReplace →
      ∃ o, d.oms.get k = some o ∧ o.identity = o'.identity ∧ o.state = o'.state) :
    Off i s (d.withOms oms) where
  owned := h.owned.withOms hkept
  tidy := h.tidy
  held := h.held
  unpaused := h.unpaused
  covered := by
    refine h.covered.imp id fun hc lvl hlvl k o' hget hq hst => ?_
    have htag : isQuoteTag o'.userTag = true := by
      rw [hq.2]
      exact (makeTag_fields s lvl hlvl).1
    obtain ⟨o, ho, hid, hstate⟩ := hpend k o' hget htag hst
    unfold Order.identity at hid
    simp only [Prod.mk.injEq] at hid
    rw [← hstate] at hst
    exact hc lvl hlvl k o ho ⟨hid.1.trans hq.1, hid.2.2.trans hq.2⟩ hst
  placed := h.placed

theorem message (m : Oms.Msg) : Off i s (d.withOms (d.oms.receive m).1) := by
  refine h.withOms (Oms.kept_receive d.oms m) fun k o' hget _ hst => ?_
  rcases Oms.receive_told d.oms m with ⟨l, o, u, hl, _, ht⟩ | hsame
  · by_cases hk : k = l
    · subst hk
      rcases ht.outcome with ⟨_, hnone⟩ | ⟨_, _, hsome, hid, hmoves⟩
      · exact absurd (hnone.symm.trans hget) (by simp)
      obtain rfl := Option.some.inj (hsome.symm.trans hget)
      rcases hmoves with hstate | ⟨hwork, _⟩
      · exact ⟨o, hl, hid.symm, hstate.symm⟩
      unfold Order.isWorking at hwork
      rcases hst with hst | hst
      · rw [hst] at hwork
        exact absurd hwork (by decide)
      · rw [hst] at hwork
        exact absurd hwork (by decide)
    · exact ⟨o', (ht.others k hk).symm.trans hget, rfl, rfl⟩
  · exact ⟨o', (hsame k).symm.trans hget, rfl, rfl⟩

theorem calm {oms : Oms} (hc : Calm d.oms oms) : Off i s (d.withOms oms) := by
  refine h.withOms hc.kept fun k o' hget _ hst => ?_
  obtain ⟨o, ho, hid, hw⟩ := hc k o' hget
  rcases hw with hw | hw
  · exact ⟨o, ho, hid.symm, hw.symm⟩
  · rcases hst with hst | hst
    · exact absurd (hw.symm.trans hst) (by simp)
    · exact absurd (hw.symm.trans hst) (by simp)

end

theorem keeps (f : Placer) : Keeps f (Off i s) where
  quiet _ _ hq h := h.of_quiet hq
  pull _ inst keepDesired h := h.pullQuotes inst keepDesired
  resume _ inst now h := h.resume inst now
  side _ inst s' now h := h.pullSide inst s' now
  reapply _ inst desired now h _ _ := h.reconcile inst desired now
  message _ m h := h.message m
  calm _ _ hc h := h.calm hc
  update _ u inst now h := h.update u inst now

end Off

/-! ## The period -/

variable {op : QuoteOp}

/-- Others replace none of the manager's orders. -/
def Direct (oms : Oms) : QuoteOp → Prop
  | .call (.requestReplace h _ _ _ _) => ∀ o, oms.get h = some o → isQuoteTag o.userTag = false
  | _ => True

/-- An operation while the side is held and the instrument is not paused. -/
structure Holding (i : InstrumentId) (s : Side) (d : QuoteDesk) (op : QuoteOp) : Prop where
  own : Own op
  passed : Passed d.oms op
  direct : Direct d.oms op
  hold : op ≠ .holdSide s false
  pause : op ≠ .pauseQuotes i

theorem Off.run (h : Off i s d) (op : QuoteOp) (hop : Holding i s d op) : Off i s (d.run f op) := by
  refine (Off.keeps f).run h op ?_ ?_ ?_ ?_
  · exact fun inst desired now _ => h.reconcile inst desired now
  · rintro j rfl
    have hj : j ≠ i := fun hj => hop.pause (by rw [hj])
    have hstep : InstStep j Anything d (d.pauseQuotes j) := pauseQuotes_step j
    exact h.of_other hstep (h.tidy.pauseQuotes j) hj
  · rintro s' on rfl
    have hheld : (d.holdSide s' on).quotes.sideHeld s = true := by
      show Function.update d.quotes.sideHeld s' on s = true
      rw [Function.update_apply]
      split_ifs with hs
      · cases on with
        | true => rfl
        | false => exact absurd (by rw [hs]) hop.hold
      · exact h.held
    exact ⟨⟨h.owned.held, h.owned.used⟩, h.tidy, hheld, h.unpaused, h.covered, h.placed⟩
  · rintro c rfl
    cases c with
    | submit req newId now =>
      have howned : (d.withOms (d.oms.call (.submit req newId now))).Owned := h.owned.call hop.own
      rcases Oms.submit_get d.oms req newId now with ⟨k, _, _, hget⟩ | ⟨_, hget⟩
      · refine ⟨howned, h.tidy, h.held, h.unpaused, ?_, h.placed⟩
        refine h.covered.imp id fun hc lvl hlvl l o hl hq hst => ?_
        have hl : (d.oms.submit req newId now).1.get l = some o := hl
        rw [hget] at hl
        split at hl
        · obtain rfl := Option.some.inj hl
          have hown : isQuoteTag req.userTag = false := hop.own
          have htag : req.userTag = makeTag s lvl := hq.2
          simp [htag, (makeTag_fields s lvl hlvl).1] at hown
        · exact hc lvl hlvl l o hl hq hst
      · exact h.calm (Calm.of_get hget)
    | requestCancel k => exact h.calm (Oms.calm_requestCancel d.oms k)
    | requestCancelUnacked k => exact h.calm (Oms.calm_requestCancelUnacked d.oms k)
    | requestReplace k newId px qty now =>
      have hkept := Oms.familiar_requestReplace d.oms k newId px qty now
      refine h.withOms hkept fun l o' hget htag _ => ?_
      by_cases hl : l = k
      · exfalso
        subst hl
        obtain ⟨o, ho, hid⟩ := hkept l o' hget
        unfold Order.identity at hid
        simp only [Prod.mk.injEq] at hid
        have hdirect : isQuoteTag o.userTag = false := hop.direct o ho
        simp [hid.2.2, hdirect] at htag
      · exact ⟨o', (Oms.requestReplace_others d.oms k newId px qty now l hl).symm.trans hget,
          rfl, rfl⟩

/-- The states from a pull of the held side on. -/
inductive Held (i : InstrumentId) (s : Side) : QuoteDesk → Prop
  | pull {d : QuoteDesk} (h : Reachable d) (hheld : d.quotes.sideHeld s = true)
      (hpaused : (d.inst i).paused = false) (f : Placer) (inst : QuotedInstrument)
      (hi : inst.id = i) (now : Timestamp) : Held i s (d.step f (.pullSide inst s now))
  | step {d : QuoteDesk} (h : Held i s d) (f : Placer) (op : QuoteOp) (hop : Holding i s d op) :
      Held i s (d.step f op)

/-- A pull of the held side, with nothing placed before it. -/
theorem pullSide_off (ho : d.Owned) (htidy : Tidy d) (hheld : d.quotes.sideHeld s = true)
    (inst : QuotedInstrument) (hpaused : (d.inst inst.id).paused = false) (hplaced : d.placed = [])
    (now : Timestamp) : Off inst.id s (d.pullSide f inst s now) := by
  have hn := ho.used inst.id.value s
  have hstep : InstStep inst.id (CancelsOn s) d (d.pullSide f inst s now) :=
    pullSide_step inst ho (fun _ => rfl) now
  refine ⟨hstep.owned ho, htidy.reconcileSide inst hn (le_refl _) _ now, ?_, ?_, .inr ?_, ?_⟩
  · rw [hstep.sideHeld]
    exact hheld
  · exact (reconcileSide_flags inst hn _ now).2.trans hpaused
  · exact reconcileSide_covers ho inst hn (fun _ => le_refl 0) now htidy (le_refl _)
  obtain ⟨new, hnew, hall⟩ := hstep.placed
  intro p hp _ hs
  rw [hnew, hplaced, List.nil_append] at hp
  exact (hall p hp).2 hs

theorem Off.start (h : Off i s d) : Off i s { d with placed := [] } :=
  ⟨⟨h.owned.held, h.owned.used⟩, h.tidy, h.held, h.unpaused, h.covered, fun _ hp =>
    nomatch hp⟩

theorem Held.off (h : Held i s d) : Off i s d := by
  induction h with
  | @pull d hd hheld hpaused f inst hi now =>
    subst hi
    have hstart : Owned { d with placed := [] } := ⟨hd.owned.held, hd.owned.used⟩
    have htidy : Tidy { d with placed := [] } := hd.tidy
    exact pullSide_off hstart htidy hheld inst hpaused rfl now
  | step _ f op hop ih =>
    exact ih.start.run op ⟨hop.own, hop.passed, hop.direct, hop.hold, hop.pause⟩

/-- A step of the period: the pull of the side, or an operation after it. -/
inductive HeldStep (i : InstrumentId) (s : Side) : QuoteDesk → QuoteOp → Prop
  | pull {d : QuoteDesk} (h : Reachable d) (hheld : d.quotes.sideHeld s = true)
      (hpaused : (d.inst i).paused = false) (inst : QuotedInstrument) (hi : inst.id = i)
      (now : Timestamp) : HeldStep i s d (.pullSide inst s now)
  | later {d : QuoteDesk} (h : Held i s d) (op : QuoteOp) (hop : Holding i s d op) :
      HeldStep i s d op

/-- The operations that look at every order of the side. -/
def Sees (i : InstrumentId) (s : Side) (d : QuoteDesk) : QuoteOp → Prop
  | .reconcile inst _ _ => inst.id = i
  | .pullQuotes inst _ => inst.id = i
  | .pullSide inst s' _ => inst.id = i ∧ s' = s
  | .resume inst _ => inst.id = i ∧ (d.inst i).resumable = true
  | .reapply inst _ => inst.id = i ∧ (d.inst i).pulled = false ∧ (d.inst i).desired.empty = false
  | .retry inst _ => inst.id = i ∧ (d.inst i).pulled = false
  | .retryBackedOff inst _ => inst.id = i ∧ (d.inst i).pulled = false
  | .retryPriced inst _ => inst.id = i ∧ (d.inst i).pulled = false
  | _ => False

/-- The orders a step owes a Cancel: the working ones, where it looks at them all, and
one that comes to work. -/
def HoldOwes (i : InstrumentId) (s : Side) (d : QuoteDesk) (op : QuoteOp) (h : Nat) (o : Order) :
    Prop :=
  WorkingQuote (d.heard op) i h o ∧ o.side = s ∧
    (Sees i s d op ∨ ∀ o₀, d.oms.get h = some o₀ → o₀.isWorking = false)

/-- The step keeps the side off the book: it places only Cancels on it, and one for
every order it owes one. -/
def KeepsOff (i : InstrumentId) (s : Side) (d : QuoteDesk) (op : QuoteOp) (d' : QuoteDesk) : Prop :=
  (∀ p ∈ d'.placed, p.action.instrument = i → p.action.side = s → p.action.kind = .cancel) ∧
    ∀ h o, HoldOwes i s d op h o → d'.CancelPlaced i s h

/-- The message refuses the cancel of one of the side's orders, and the instrument is
not pulled. -/
def Returned (i : InstrumentId) (s : Side) (d : QuoteDesk) (op : QuoteOp) : Prop :=
  (d.inst i).pulled = false ∧ ∃ m inst now h o, op = .deliver m inst now ∧
    d.oms.get h = some o ∧ o.instrument = i ∧ o.side = s ∧ isQuoteTag o.userTag = true ∧
    o.state = .pendingCancel ∧ d.oms.Refused m h

/-- An operation that looks at every order of the side cancels the working ones. -/
theorem Off.sees_cancels (h : Off i s d) (hsees : Sees i s d op) {k : Nat}
    {o : Order} (hw : WorkingQuote d.oms i k o) (hs : o.side = s) :
    (d.run f op).CancelPlaced i s k := by
  have hreconcile : ∀ (inst : QuotedInstrument) desired now, inst.id = i →
      (d.reconcile f inst desired now).CancelPlaced i s k := by
    rintro inst desired now rfl
    exact reconcile_cancels h.owned h.tidy h.held inst desired now hw hs
  have hretry : ∀ (inst : QuotedInstrument) now, inst.id = i → (d.inst i).pulled = false →
      (d.retryBackedOff f inst now).CancelPlaced i s k := by
    rintro inst now rfl hp
    unfold retryBackedOff
    dsimp only
    rw [hp, h.unpaused]
    exact hreconcile inst _ now rfl
  cases op with
  | reconcile inst desired now => exact hreconcile inst desired now hsees
  | pullQuotes inst keepDesired =>
    obtain rfl : inst.id = i := hsees
    subst hs
    show (d.pullQuotes f inst keepDesired).CancelPlaced inst.id o.side k
    exact pullQuotes_cancels h.owned inst keepDesired hw
  | pullSide inst s' now =>
    obtain ⟨rfl, rfl⟩ := hsees
    exact reconcileSide_cancels h.owned inst (h.owned.used _ _) (fun _ => le_refl 0) now h.tidy
      (le_refl _) hw hs
  | resume inst now =>
    obtain ⟨rfl, hres⟩ := hsees
    show (d.resume f inst now).CancelPlaced inst.id s k
    unfold QuoteDesk.resume
    have hset : InstStep inst.id Anything d (d.setInst inst.id { d.inst inst.id with
        paused := false }) := InstStep.setInst _ (fun _ _ => rfl) fun ho s => ho.used _ s
    have htidy : Tidy (d.setInst inst.id { d.inst inst.id with paused := false }) :=
      h.tidy.setInst _ fun s lvl hu => h.tidy inst.id s lvl hu
    have hinst : (d.setInst inst.id { d.inst inst.id with paused := false }).inst inst.id =
        { d.inst inst.id with paused := false } := by
      show (QuoteDesk.setInst _ _ _).quotes.state inst.id.value = _
      rw [inst_setInst, if_pos rfl]
    have hgo : ¬ ((d.setInst inst.id { d.inst inst.id with paused := false }).inst
        inst.id).resumable = false := by
      rw [hinst]
      simp [hres]
    rw [if_neg hgo]
    have hheld : (d.setInst inst.id { d.inst inst.id with paused := false }).quotes.sideHeld s =
        true := h.held
    have hw : WorkingQuote (d.setInst inst.id { d.inst inst.id with paused := false }).oms
        inst.id k o := hw
    exact reconcile_cancels (hset.owned h.owned) htidy hheld inst _ now hw hs
  | reapply inst now =>
    obtain ⟨rfl, hp, hne⟩ := hsees
    show (d.reapply f inst now).CancelPlaced inst.id s k
    unfold reapply
    dsimp only
    rw [hp, h.unpaused, hne]
    exact hreconcile inst _ now rfl
  | retry inst now =>
    obtain ⟨rfl, hp⟩ := hsees
    show (d.retry f inst now).CancelPlaced inst.id s k
    unfold retry
    dsimp only
    rw [hp, h.unpaused]
    have hq := quiet_withStats d fun t => { t with retries := t.retries + 1 }
    have hoff := h.of_quiet hq
    exact reconcile_cancels hoff.owned hoff.tidy hoff.held inst _ now hw hs
  | retryBackedOff inst now => exact hretry inst now hsees.1 hsees.2
  | retryPriced inst now => exact hretry inst now hsees.1 hsees.2
  | _ => exact absurd hsees id

/-- A message that brings an order of the side to work is answered with a Cancel, unless
it refuses one. -/
theorem Off.deliver_cancels (h : Off i s d) {m : Oms.Msg} {inst : QuotedInstrument}
    {now : Timestamp} (hpassed : Passed d.oms (.deliver m inst now))
    (hret : ¬ Returned i s d (.deliver m inst now)) {k : Nat} {o : Order}
    (hw : WorkingQuote (d.oms.receive m).1 i k o) (hs : o.side = s)
    (hnew : ∀ o₀, d.oms.get k = some o₀ → o₀.isWorking = false) :
    (d.deliver f m inst now).CancelPlaced i s k := by
  by_cases hp : (d.inst i).pulled = true
  · subst hs
    exact deliver_pulled h.owned hp hpassed hw hnew
  rw [Bool.not_eq_true] at hp
  obtain ⟨hget, hinst, htag, hwork⟩ := hw
  obtain ⟨hterm, hhandle, hu, o₀, hold, hprev, hfrom⟩ := Oms.came_to_work hget hwork hnew
  have hpassed : inst.id = (d.oms.receive m).2.order.instrument := hpassed
  obtain ⟨x, hx, hid⟩ := Oms.kept_receive d.oms m k o hget
  obtain rfl := Option.some.inj (hold.symm.trans hx)
  unfold Order.identity at hid
  simp only [Prod.mk.injEq] at hid
  have hacked : (d.oms.receive m).2.prev = .pendingNew ∨
      (d.oms.receive m).2.prev = .pendingReplace := by
    rw [hprev]
    rcases hfrom with hst | hst | ⟨hst, hrefused⟩
    · exact .inl hst
    · exact .inr hst
    refine absurd ⟨hp, m, inst, now, k, o₀, rfl, hold, ?_, ?_, ?_, hst, hrefused⟩ hret
    · exact hid.1.symm.trans hinst
    · exact hid.2.1.symm.trans hs
    · rw [← hid.2.2]
      exact htag
  have hmid := h.message m
  rw [← hu] at hget hinst htag hwork hid hs
  have hi : inst.id = i := hpassed.trans hinst
  subst hi
  obtain ⟨lvl, d₁, hlvl, hq, hquiet, hslot, -, heq⟩ :=
    onOrderUpdate_working (f := f) hmid.owned hterm hhandle hget htag hinst hwork now
  have hoff₁ := hmid.of_quiet hquiet
  have hp₁ : (d₁.inst inst.id).pulled = false :=
    (pulled_of_standing (hquiet.standing inst.id.value)).trans hp
  -- The order was in flight in a covered slot.
  have hwant : (d₁.slot inst.id s lvl).applyWant = true := by
    have hslots : d₁.slot inst.id s lvl = d.slot inst.id s lvl := by
      unfold slot QuoteDesk.inst
      rw [hquiet.slots]
      rfl
    rw [hslots]
    refine h.covered.resolve_left (by rw [hp]; simp) lvl hlvl k o₀ hold ?_ ?_
    · rw [hs] at hq
      exact ⟨hid.1.symm.trans hq.1, hid.2.2.symm.trans hq.2⟩
    · rw [← hprev]
      exact hacked
  unfold deliver
  rw [heq, hs]
  rw [hs] at hslot hq
  rw [if_neg (by rw [hp₁]; simp), if_neg (by rw [hoff₁.unpaused]; simp), if_pos ⟨hwant, hacked⟩]
  refine reconcileSlot_cancels (o := (d.oms.receive m).2.order) inst ?_ ?_ hq hwork ?_ now
  · rw [slot_setSlot_self]
    exact hslot
  · show d₁.oms.get k = some _
    rw [hquiet.oms]
    exact hget
  · rw [if_pos hoff₁.held]

/-- An order whose cancel is refused goes back to the book and no Cancel follows. -/
theorem Off.returned_stays (h : Off i s d) (hplaced : d.placed = [])
    (hpassed : Passed d.oms op) (hret : Returned i s d op) : ¬ KeepsOff i s d op (d.run f op) := by
  obtain ⟨hp, m, inst, now, k, o, rfl, hget, hinst, hs, htag, hst, hrefused⟩ := hret
  obtain ⟨o', hget', hwork, hid, hterm, hhandle, hu, hprev⟩ := Oms.refused_works hrefused hget hst
  unfold Order.identity at hid
  simp only [Prod.mk.injEq] at hid
  have hpassed : inst.id = (d.oms.receive m).2.order.instrument := hpassed
  have hinst' : o'.instrument = i := hid.1.trans hinst
  have hs' : o'.side = s := hid.2.1.trans hs
  have htag' : isQuoteTag o'.userTag = true := by
    rw [hid.2.2]
    exact htag
  have howes : HoldOwes i s d (.deliver m inst now) k o' := by
    refine ⟨⟨hget', hinst', htag', hwork⟩, hs', .inr fun o₀ ho₀ => ?_⟩
    obtain rfl := Option.some.inj (hget.symm.trans ho₀)
    unfold Order.isWorking
    rw [hst]
    rfl
  intro hkeeps
  obtain ⟨p, hp', _⟩ := hkeeps.2 k o' howes
  have hmid := h.message m
  rw [← hu] at hget' hinst' htag' hwork
  have hi : inst.id = i := hpassed.trans hinst'
  subst hi
  obtain ⟨lvl, d₁, _, _, hquiet, _, _, heq⟩ :=
    onOrderUpdate_working (f := f) hmid.owned hterm hhandle hget' htag' hinst' hwork now
  have hp₁ : (d₁.inst inst.id).pulled = false :=
    (pulled_of_standing (hquiet.standing inst.id.value)).trans hp
  have hnot : ¬ ((d₁.slot inst.id (d.oms.receive m).2.order.side lvl).applyWant = true ∧
      ((d.oms.receive m).2.prev = .pendingNew ∨ (d.oms.receive m).2.prev = .pendingReplace)) := by
    rw [hprev]
    simp
  have hlast : d.run f (.deliver m inst now) = d₁ := by
    show d.deliver f m inst now = d₁
    unfold deliver
    rw [heq, if_neg (by rw [hp₁]; simp), if_neg (by rw [(hmid.of_quiet hquiet).unpaused]; simp),
      if_neg hnot]
  rw [hlast, hquiet.placed] at hp'
  have hp' : p ∈ d.placed := hp'
  simp [hplaced] at hp'

/-- While a side is held and was pulled, each step keeps it off the book exactly when no
message refuses the cancel of one of its orders, or the instrument is pulled. -/
theorem held_side_stays_off (h : HeldStep i s d op) (f : Placer) :
    KeepsOff i s d op (d.step f op) ↔ ¬ Returned i s d op := by
  cases h with
  | pull hd hheld hpaused inst hi now =>
    subst hi
    have hstart : Owned { d with placed := [] } := ⟨hd.owned.held, hd.owned.used⟩
    have htidy : Tidy { d with placed := [] } := hd.tidy
    have hoff : Off inst.id s (d.step f (.pullSide inst s now)) :=
      pullSide_off hstart htidy hheld inst hpaused rfl now
    refine iff_of_true ⟨hoff.placed, ?_⟩ ?_
    · rintro k o ⟨hw, hs, _⟩
      exact reconcileSide_cancels hstart inst (hstart.used _ _) (fun _ => le_refl 0) now htidy
        (le_refl _) hw hs
    · rintro ⟨_, m, inst', now', k, o, hop, _⟩
      nomatch hop
  | later hd _ hop =>
    have hoff := hd.off.start
    constructor
    · intro hkeeps hret
      exact hoff.returned_stays rfl hop.passed hret hkeeps
    intro hret
    have hop' : Holding i s { d with placed := [] } op :=
      ⟨hop.own, hop.passed, hop.direct, hop.hold, hop.pause⟩
    refine ⟨(hoff.run op hop').placed, ?_⟩
    rintro k o ⟨hw, hs, hsees | hnew⟩
    · have hquiet : d.heard op = d.oms := by
        cases op with
        | deliver m inst now => exact absurd hsees id
        | _ => rfl
      rw [hquiet] at hw
      have hsees' : Sees i s { d with placed := [] } op := hsees
      exact hoff.sees_cancels hsees' hw hs
    · have hold : ¬ WorkingQuote d.oms i k o := fun hold =>
        absurd ((hnew o hold.1).symm.trans hold.2.2.2) (by simp)
      cases op with
      | deliver m inst now => exact hoff.deliver_cancels hop.passed hret hw hs hnew
      | _ => exact absurd hw hold

/-- The example's bid in flight on a side that is held and was pulled. -/
def heldInFlight : QuoteDesk :=
  (exampleDesk.step examplePlacer (.holdSide .buy true)).step examplePlacer
    (.pullSide exampleInstrument .buy 7)

/-- The ack of a bid that was in flight at the hold is answered with a Cancel. -/
theorem held_side_stays_off_in_flight :
    KeepsOff ⟨0⟩ .buy heldInFlight (.deliver exampleAck exampleInstrument 8)
      (heldInFlight.step examplePlacer (.deliver exampleAck exampleInstrument 8)) := by
  have hreach : Reachable (exampleDesk.step examplePlacer (.holdSide .buy true)) :=
    .step exampleDesk_reachable examplePlacer _ trivial
  have hheld : Held ⟨0⟩ .buy heldInFlight :=
    .pull hreach rfl rfl examplePlacer exampleInstrument rfl 7
  have hop : Holding ⟨0⟩ .buy heldInFlight (.deliver exampleAck exampleInstrument 8) :=
    ⟨trivial, rfl, trivial, by simp, by simp⟩
  refine (held_side_stays_off (.later hheld _ hop) examplePlacer).mpr ?_
  rintro ⟨_, m, inst, now, k, o, heq, _, _, _, _, _, m', hm, _⟩
  obtain ⟨rfl, _, _⟩ := QuoteOp.deliver.inj heq
  exact absurd hm (by simp [exampleAck])

/-- The example's bid acknowledged, its side held and pulled: its Cancel is in flight. -/
def heldAcked : QuoteDesk :=
  ((exampleDesk.step examplePlacer (.deliver exampleAck exampleInstrument 6)).step examplePlacer
    (.holdSide .buy true)).step examplePlacer (.pullSide exampleInstrument .buy 7)

/-- The venue refuses the Cancel: the bid is live again, and nothing is placed. -/
theorem refused_cancel_stays_on :
    HeldStep ⟨0⟩ .buy heldAcked
        (.deliver (.cancelReject { clOrdId := ⟨1⟩ }) exampleInstrument 8) ∧
      ((heldAcked.step examplePlacer
        (.deliver (.cancelReject { clOrdId := ⟨1⟩ }) exampleInstrument 8)).oms.get 0).map
          (·.state) = some .live ∧
      ¬ KeepsOff ⟨0⟩ .buy heldAcked
        (.deliver (.cancelReject { clOrdId := ⟨1⟩ }) exampleInstrument 8)
        (heldAcked.step examplePlacer
          (.deliver (.cancelReject { clOrdId := ⟨1⟩ }) exampleInstrument 8)) := by
  have hreach : Reachable ((exampleDesk.step examplePlacer
      (.deliver exampleAck exampleInstrument 6)).step examplePlacer (.holdSide .buy true)) := by
    refine .step (.step exampleDesk_reachable examplePlacer _ ?_) examplePlacer _ ?_
    · exact trivial
    · exact trivial
  have hheld : Held ⟨0⟩ .buy heldAcked :=
    .pull hreach rfl rfl examplePlacer exampleInstrument rfl 7
  have hop : Holding ⟨0⟩ .buy heldAcked
      (.deliver (.cancelReject { clOrdId := ⟨1⟩ }) exampleInstrument 8) :=
    ⟨trivial, rfl, trivial, by simp, by simp⟩
  refine ⟨.later hheld _ hop, rfl, ?_⟩
  refine hheld.off.start.returned_stays rfl hop.passed ⟨rfl, _, _, _, 0, _, rfl, rfl, rfl, rfl,
    rfl, rfl, { clOrdId := ⟨1⟩ }, rfl, rfl, by simp⟩

end QuoteDesk

end FastMM
