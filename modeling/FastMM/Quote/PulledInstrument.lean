/-
  Quote/PulledInstrument.lean --- a pulled instrument only cancels.

  A pull without the desired quotes sets `pulled` and clears `resumable`, and only the
  strategy's next `reconcile` undoes that: `resume` has nothing to resume, and the other
  ways to re-apply the quotes stop at the flag.  Until then every action placed for the
  instrument is a Cancel.  A quote order that is working at the pull, or that an answer
  of the venue brings to work later, gets its Cancel in the same call.
-/
import FastMM.Quote.OneOrderPerLevel
set_option autoImplicit false

namespace FastMM

open Oms (Calm Familiar)

namespace QuoteDesk

/-- Cancels only. -/
def Cancels : Side → QuoteActionKind → Prop := fun _ k => k = .cancel

/-- The instrument is pulled for good, and nothing but Cancels was placed for it. -/
structure Out (i : InstrumentId) (d : QuoteDesk) : Prop where
  owned : d.Owned
  pulled : (d.inst i).pulled = true
  resumable : (d.inst i).resumable = false
  placed : ∀ p ∈ d.placed, p.action.instrument = i → p.action.kind = .cancel

variable {d d' : QuoteDesk} {f : Placer} {i j : InstrumentId} {s : Side}
  {Z : Side → Nat → Prop} {K : Side → QuoteActionKind → Prop}

theorem resumable_of_standing {st st' : QuoteInstState} (h : st'.standing = st.standing) :
    st'.resumable = st.resumable := by
  unfold QuoteInstState.standing at h
  simp only [Prod.mk.injEq] at h
  exact h.2.2.1

namespace Out

section

variable (h : Out i d)
variable (inst : QuotedInstrument)
include h

theorem of_quiet (hq : Quiet d d') : Out i d' where
  owned := h.owned.of_quiet hq
  pulled := (pulled_of_standing (hq.standing i.value)).trans h.pulled
  resumable := (resumable_of_standing (hq.standing i.value)).trans h.resumable
  placed := by
    rw [hq.placed]
    exact h.placed

/-- Work on another instrument. -/
theorem of_other (hstep : InstStep j K d d') (hj : j ≠ i) : Out i d' where
  owned := hstep.owned h.owned
  pulled := (pulled_of_standing (hstep.others i.value (value_ne hj)).2).trans h.pulled
  resumable := (resumable_of_standing (hstep.others i.value (value_ne hj)).2).trans h.resumable
  placed p hp hi := (hstep.mem_placed hp).elim (h.placed p · hi)
    fun hnew => absurd (hnew.1.symm.trans hi) hj

/-- Work that only cancels. -/
theorem of_slots (hstep : SlotStep j Z Cancels d d') : Out i d' where
  owned := hstep.owned h.owned
  pulled := (pulled_of_standing (hstep.standing i.value)).trans h.pulled
  resumable := (resumable_of_standing (hstep.standing i.value)).trans h.resumable
  placed p hp hi := ((InstStep.of_slotStep hstep).mem_placed hp).elim (h.placed p · hi)
    fun hnew => hnew.2

/-- A write of the instrument's state that leaves it pulled. -/
theorem setInst (st : QuoteInstState)
    (hslots : ∀ s lvl, (st.slots s lvl).handle = (d.slot i s lvl).handle)
    (hused : ∀ s, st.used s ≤ kMaxQuoteLevels) (hpulled : st.pulled = true)
    (hres : st.resumable = false) : Out i (d.setInst i st) := by
  have hstep : InstStep i Cancels d (d.setInst i st) := InstStep.setInst st hslots fun _ => hused
  have hst : (d.setInst i st).inst i = st := by
    show (d.setInst i st).quotes.state i.value = st
    rw [inst_setInst, if_pos rfl]
  exact ⟨hstep.owned h.owned, by rw [hst]; exact hpulled, by rw [hst]; exact hres, h.placed⟩

theorem withOms {oms : Oms} (hkept : Familiar d.oms oms) : Out i (d.withOms oms) :=
  ⟨h.owned.withOms hkept, h.pulled, h.resumable, h.placed⟩

theorem update (u : OmsUpdate) (inst : QuotedInstrument) (now : Timestamp) :
    Out i (d.onOrderUpdate f u inst now) := by
  by_cases hi : inst.id = i
  · subst hi
    have hstep : SlotStep inst.id (At (tagSide u.order.userTag) (tagLevel u.order.userTag))
        Cancels d (d.onOrderUpdate f u inst now) := by
      refine onOrderUpdate_step inst u rfl ?_ now
      intro hp
      exact absurd (h.pulled.symm.trans hp) (by simp)
    exact h.of_slots hstep
  · have hstep : SlotStep inst.id (At (tagSide u.order.userTag) (tagLevel u.order.userTag))
        Anything d (d.onOrderUpdate f u inst now) :=
      onOrderUpdate_step inst u trivial (fun _ _ => anything) now
    exact h.of_other (InstStep.of_slotStep hstep) hi

theorem pullSide (s : Side) (now : Timestamp) :
    Out i (d.pullSide f inst s now) := by
  by_cases hi : inst.id = i
  · subst hi
    unfold QuoteDesk.pullSide
    have hn := h.owned.used inst.id.value s
    obtain ⟨used, hused, _, heq⟩ := reconcileSide_eq (f := f) (s := s) inst _ hn (fun _ => {}) now d
    have hslots : SlotStep inst.id (Below s _) Cancels d
        (d.reconcileSlots f inst s ((d.inst inst.id).used s) (fun _ => {}) now) :=
      reconcileSlots_step inst _ hn _ rfl (fun _ h => absurd h (lt_irrefl 0)) now d
    have hout := h.of_slots hslots
    rw [show (d.quotes.state inst.id.value).used s = (d.inst inst.id).used s from rfl] at heq hn
    rw [heq]
    refine hout.setInst _ (fun _ _ => rfl) ?_ hout.pulled hout.resumable
    exact update_used_le (hout.owned.used _) (le_trans hused hn) s
  · exact h.of_other (pullSide_step (K := Anything) inst h.owned trivial now) hi

theorem pullQuotes (keepDesired : Bool) :
    Out i (d.pullQuotes f inst keepDesired) := by
  by_cases hi : inst.id = i
  · subst hi
    unfold QuoteDesk.pullQuotes
    refine Out.of_slots (Out.of_slots ?_ (pullSlots_step rfl kMaxQuoteLevels (le_refl _) _))
      (pullSlots_step rfl kMaxQuoteLevels (le_refl _) _)
    refine h.setInst _ (fun _ _ => rfl) (h.owned.used _) rfl ?_
    rw [h.pulled, h.resumable]
    simp
  · exact h.of_other (pullQuotes_step (K := Anything) inst keepDesired fun _ => trivial) hi

theorem reconcile_other {inst : QuotedInstrument} (hi : inst.id ≠ i)
    (desired : DesiredQuotes) (now : Timestamp) : Out i (d.reconcile f inst desired now) := by
  have hstep : InstStep inst.id Anything d (d.reconcile f inst desired now) :=
    reconcile_step inst h.owned desired (fun _ => trivial) (fun _ _ => anything) now
  exact h.of_other hstep hi

theorem resume (now : Timestamp) :
    Out i (d.resume f inst now) := by
  by_cases hi : inst.id = i
  · subst hi
    unfold QuoteDesk.resume
    have hset := h.setInst { d.inst inst.id with paused := false } (fun _ _ => rfl)
      (h.owned.used _) h.pulled h.resumable
    rw [if_pos hset.resumable]
    exact hset
  · have hstep : InstStep inst.id Anything d (d.resume f inst now) :=
      resume_step inst h.owned (fun _ => trivial) (fun _ _ _ => anything) now
    exact h.of_other hstep hi

end

/-- The flag stops what re-applies the quotes. -/
theorem keeps (f : Placer) : Keeps f (Out i) where
  quiet _ _ hq h := h.of_quiet hq
  pull _ inst keepDesired h := h.pullQuotes inst keepDesired
  resume _ inst now h := h.resume inst now
  side _ inst s now h := h.pullSide inst s now
  reapply d inst desired now h hp _ := by
    refine h.reconcile_other ?_ desired now
    rintro rfl
    exact absurd (h.pulled.symm.trans hp) (by simp)
  message d m h := h.withOms (Oms.kept_receive d.oms m)
  calm _ _ hc h := h.withOms hc.kept
  update _ u inst now h := h.update u inst now

theorem pauseQuotes (h : Out i d) (j : InstrumentId) : Out i (d.pauseQuotes j) := by
  by_cases hj : j = i
  · subst hj
    refine h.setInst _ ?_ (h.owned.used _) h.pulled ?_
    · intro s lvl
      dsimp only
      split <;> rfl
    · rw [h.pulled, h.resumable]
      rfl
  · exact h.of_other (pauseQuotes_step (K := Anything) j) hj

/-- Every operation but the strategy's next `reconcile`. -/
theorem run (h : Out i d) (op : QuoteOp) (hop : Own op)
    (hnext : ∀ inst desired now, op = .reconcile inst desired now → inst.id ≠ i) :
    Out i (d.run f op) := by
  refine (Out.keeps f).run h op ?_ ?_ ?_ ?_
  · exact fun inst desired now heq => h.reconcile_other (hnext inst desired now heq) desired now
  · exact fun j _ => h.pauseQuotes j
  · exact fun s on _ => ⟨⟨h.owned.held, h.owned.used⟩, h.pulled, h.resumable, h.placed⟩
  · rintro c rfl
    exact ⟨h.owned.call hop, h.pulled, h.resumable, h.placed⟩

end Out

/-! ## Orders that come to work -/

variable {o : Order}

/-- While the instrument is pulled, an order that comes to work is cancelled. -/
theorem deliver_pulled (ho : d.Owned) (hp : (d.inst i).pulled = true) {m : Oms.Msg}
    {inst : QuotedInstrument} {now : Timestamp} (hpassed : Passed d.oms (.deliver m inst now))
    {h : Nat} (hw : WorkingQuote (d.oms.receive m).1 i h o)
    (hnew : ∀ o₀, d.oms.get h = some o₀ → o₀.isWorking = false) :
    (d.deliver f m inst now).CancelPlaced i o.side h := by
  obtain ⟨hget, hinst, htag, hwork⟩ := hw
  obtain ⟨hterm, hhandle, hu, _⟩ := Oms.came_to_work hget hwork hnew
  have hpassed : inst.id = (d.oms.receive m).2.order.instrument := hpassed
  have ho' := ho.withOms (Oms.kept_receive d.oms m)
  rw [← hu] at hget hinst htag hwork ⊢
  have hid : inst.id = i := hpassed.trans hinst
  subst hid
  obtain ⟨lvl, d₁, _, _, hq, hslot, _, heq⟩ :=
    onOrderUpdate_working (f := f) ho' hterm hhandle hget htag hinst hwork now
  have hpulled : (d₁.inst inst.id).pulled = true :=
    (pulled_of_standing (hq.standing inst.id.value)).trans hp
  unfold deliver
  rw [heq, if_pos hpulled]
  exact cancel_places hslot

/-! ## The pull -/

/-- The pull reaches every slot of a side, and cancels a working order there. -/
theorem pullSlots_cancels (ho : d.Owned) {h : Nat} (hw : WorkingQuote d.oms i h o) :
    ((List.range kMaxQuoteLevels).foldl (pullSlot f i o.side) d).CancelPlaced i o.side h := by
  obtain ⟨hget, hinst, htag, hwork⟩ := hw
  obtain ⟨lvl, hlvl, hmake, hslot⟩ := ho.held h o hget htag
  rw [hinst] at hslot
  obtain ⟨d₁, hbefore, hafter⟩ := fold_at
    (fun d l _ => pullSlot_step (f := f) (i := i) (s := o.side) (K := Cancels) rfl d l)
    kMaxQuoteLevels (le_refl _) hlvl d
  refine CancelPlaced.step ?_ hafter
  -- The slots below it have not touched the order, nor its slot.
  have hslot₁ : (d₁.slot i o.side lvl).handle = some h := by
    rw [hbefore.slots o.side lvl fun hb => absurd hb.2 (lt_irrefl lvl)]
    exact hslot
  have hget₁ : d₁.oms.get h = some o := by
    refine (hbefore.orders h o ?_).mpr hget
    intro s' l hb hq
    have hl : l < lvl := hb.2
    obtain ⟨_, hlevels⟩ := makeTag_inj hlvl (lt_trans hl hlvl) (hmake.symm.trans hq.2)
    omega
  unfold pullSlot
  dsimp only
  generalize hx : ({ d₁.slot i o.side lvl with applyWant := false } : QuoteSlot) = x
  have hhandle : x.handle = some h := by rw [← hx]; exact hslot₁
  have hslot₂ : ((d₁.setSlot i o.side lvl x).slot i o.side lvl).handle = some h := by
    rw [slot_setSlot_self, hhandle]
  have howns : (d₁.setSlot i o.side lvl x).owns i o.side lvl = true :=
    owns_iff.mpr ⟨h, o, hslot₂, hget₁, hinst, hmake⟩
  have hslotOrder : (d₁.setSlot i o.side lvl x).slotOrder i o.side lvl = some o := by
    unfold slotOrder
    rw [if_pos howns, hslot₂]
    exact hget₁
  rw [hslotOrder]
  dsimp only
  rw [if_pos hwork]
  exact cancel_places hslot₂

/-- The write of the flags a pull begins with. -/
def pullFlags (d : QuoteDesk) (i : InstrumentId) (keepDesired : Bool) : QuoteDesk :=
  d.setInst i { d.inst i with
    resumable := keepDesired && ((d.inst i).resumable ||
      (!(d.inst i).pulled && !(d.inst i).desired.empty))
    desired := if keepDesired then (d.inst i).desired else {}
    pulled := true
    paused := false }

theorem pullQuotes_eq (inst : QuotedInstrument) (keepDesired : Bool) :
    d.pullQuotes f inst keepDesired =
      (List.range kMaxQuoteLevels).foldl (pullSlot f inst.id .sell)
        ((List.range kMaxQuoteLevels).foldl (pullSlot f inst.id .buy)
          (d.pullFlags inst.id keepDesired)) := rfl

theorem pullFlags_step (keepDesired : Bool) : InstStep i K d (d.pullFlags i keepDesired) :=
  InstStep.setInst _ (fun _ _ => rfl) fun ho s => ho.used _ s

theorem pullFlags_inst (keepDesired : Bool) : ((d.pullFlags i keepDesired).inst i).pulled = true ∧
      ((d.pullFlags i keepDesired).inst i).paused = false ∧
      (keepDesired = false → ((d.pullFlags i keepDesired).inst i).resumable = false) := by
  unfold pullFlags
  generalize hst : ({ d.inst i with
    resumable := keepDesired && ((d.inst i).resumable ||
      (!(d.inst i).pulled && !(d.inst i).desired.empty))
    desired := if keepDesired then (d.inst i).desired else {}
    pulled := true
    paused := false } : QuoteInstState) = st
  have hinst : (d.setInst i st).inst i = st := by
    show (d.setInst i st).quotes.state i.value = st
    rw [inst_setInst, if_pos rfl]
  rw [hinst, ← hst]
  refine ⟨rfl, rfl, ?_⟩
  rintro rfl
  rfl

/-- A pull cancels every working quote order of the instrument. -/
theorem pullQuotes_cancels (ho : d.Owned) (inst : QuotedInstrument) (keepDesired : Bool) {h : Nat}
    (hw : WorkingQuote d.oms inst.id h o) :
    (d.pullQuotes f inst keepDesired).CancelPlaced inst.id o.side h := by
  have hstep : InstStep inst.id Cancels d (d.pullFlags inst.id keepDesired) :=
    pullFlags_step keepDesired
  have ho₁ := hstep.owned ho
  have hw : WorkingQuote (d.pullFlags inst.id keepDesired).oms inst.id h o := hw
  rw [pullQuotes_eq]
  generalize d.pullFlags inst.id keepDesired = d₁ at *
  have hbuy : SlotStep inst.id (Below .buy kMaxQuoteLevels) Cancels d₁
      ((List.range kMaxQuoteLevels).foldl (pullSlot f inst.id .buy) d₁) :=
    pullSlots_step rfl kMaxQuoteLevels (le_refl _) d₁
  have hsell := pullSlots_step (f := f) (i := inst.id) (s := .sell) (K := Cancels) rfl
    kMaxQuoteLevels (le_refl _) ((List.range kMaxQuoteLevels).foldl (pullSlot f inst.id .buy) d₁)
  cases hside : o.side with
  | buy =>
    have hcancel := pullSlots_cancels (f := f) ho₁ hw
    rw [hside] at hcancel
    exact hcancel.step hsell
  | sell =>
    -- The bids came first, and an ask is no bid.
    have hw' : WorkingQuote ((List.range kMaxQuoteLevels).foldl (pullSlot f inst.id .buy) d₁).oms
        inst.id h o := by
      refine ⟨(hbuy.orders h o ?_).mpr hw.1, hw.2⟩
      intro s' l hb hq
      obtain ⟨lvl, hlvl, hmake, _⟩ := ho₁.held h o hw.1 hw.2.2.1
      obtain ⟨hs, _⟩ := makeTag_inj hlvl hb.2 (hmake.symm.trans hq.2)
      simp [hside, hb.1] at hs
    have hcancel := pullSlots_cancels (f := f) (hbuy.owned ho₁) hw'
    rw [hside] at hcancel
    exact hcancel

/-- A pull for good, with nothing placed before it. -/
theorem pullQuotes_out (ho : d.Owned) (hplaced : d.placed = []) (inst : QuotedInstrument) :
    Out inst.id (d.pullQuotes f inst false) := by
  have hstep : InstStep inst.id Cancels d (d.pullFlags inst.id false) := pullFlags_step false
  obtain ⟨hpulled, _, hres⟩ := pullFlags_inst (d := d) (i := inst.id) false
  have hout : Out inst.id (d.pullFlags inst.id false) := by
    refine ⟨hstep.owned ho, hpulled, hres rfl, fun p hp => ?_⟩
    have hp : p ∈ d.placed := hp
    simp [hplaced] at hp
  rw [pullQuotes_eq]
  exact (hout.of_slots (pullSlots_step rfl kMaxQuoteLevels (le_refl _) _)).of_slots
    (pullSlots_step rfl kMaxQuoteLevels (le_refl _) _)

/-! ## The period -/

/-- An operation of the period: any but the strategy's next `reconcile` of the
instrument. -/
structure Waiting (i : InstrumentId) (d : QuoteDesk) (op : QuoteOp) : Prop where
  own : Own op
  passed : Passed d.oms op
  next : ∀ inst desired now, op = .reconcile inst desired now → inst.id ≠ i

/-- The states from a pull without the desired quotes to the next `reconcile`. -/
inductive Pulled (i : InstrumentId) : QuoteDesk → Prop
  | pull {d : QuoteDesk} (h : Reachable d) (f : Placer) (inst : QuotedInstrument)
      (hi : inst.id = i) : Pulled i (d.step f (.pullQuotes inst false))
  | step {d : QuoteDesk} (h : Pulled i d) (f : Placer) (op : QuoteOp) (hop : Waiting i d op) :
      Pulled i (d.step f op)

theorem Pulled.out (h : Pulled i d) : Out i d := by
  induction h with
  | @pull d hd f inst hi =>
    subst hi
    have hstart : Owned { d with placed := [] } := ⟨hd.owned.held, hd.owned.used⟩
    show Out inst.id (QuoteDesk.pullQuotes f inst false { d with placed := [] })
    exact pullQuotes_out hstart rfl inst
  | @step d _ f op hop ih =>
    have hstart : Out i { d with placed := [] } :=
      ⟨⟨ih.owned.held, ih.owned.used⟩, ih.pulled, ih.resumable, fun p hp => nomatch hp⟩
    exact hstart.run op hop.own hop.next

/-- A step of the period: the pull, or an operation after it. -/
inductive PulledStep (i : InstrumentId) : QuoteDesk → QuoteOp → Prop
  | pull {d : QuoteDesk} (h : Reachable d) (inst : QuotedInstrument) (hi : inst.id = i) :
      PulledStep i d (.pullQuotes inst false)
  | later {d : QuoteDesk} (h : Pulled i d) (op : QuoteOp) (hop : Waiting i d op) :
      PulledStep i d op

/-- The orders a step owes a Cancel: those working at a pull, and one that comes to
work. -/
def PullOwes (i : InstrumentId) (d : QuoteDesk) (op : QuoteOp) (h : Nat) (o : Order) : Prop :=
  WorkingQuote (d.heard op) i h o ∧
    ((∃ inst, op = .pullQuotes inst false ∧ inst.id = i) ∨
      ∀ o₀, d.oms.get h = some o₀ → o₀.isWorking = false)

/-- From a pull without the desired quotes to the next `reconcile`, the manager places
only Cancels for the instrument; the pull places one for every working quote order of
it, and a message that brings one to work has one placed in the same call. -/
theorem pulled_only_cancels {op : QuoteOp} (h : PulledStep i d op) (f : Placer) :
    (∀ p ∈ (d.step f op).placed, p.action.instrument = i → p.action.kind = .cancel) ∧
      ∀ k o, PullOwes i d op k o → (d.step f op).CancelPlaced i o.side k := by
  have howned : d.Owned := by
    cases h with
    | pull hd => exact hd.owned
    | later hd => exact hd.out.owned
  have hstart : Owned { d with placed := [] } := ⟨howned.held, howned.used⟩
  have hpull : ∀ inst : QuotedInstrument, inst.id = i → Out i (d.step f (.pullQuotes inst false)) ∧
      ∀ k o, WorkingQuote d.oms i k o →
        (d.step f (.pullQuotes inst false)).CancelPlaced i o.side k := by
    intro inst hi
    subst hi
    exact ⟨pullQuotes_out (f := f) hstart rfl inst,
      fun k o hw => pullQuotes_cancels (f := f) hstart inst false hw⟩
  constructor
  · cases h with
    | pull hd inst hi => exact (hpull inst hi).1.placed
    | later hd _ hop => exact (Pulled.step hd f op hop).out.placed
  rintro k o ⟨hw, ⟨inst, rfl, hi⟩ | hnew⟩
  · exact (hpull inst hi).2 k o hw
  have hold : ¬ WorkingQuote d.oms i k o := fun hold =>
    absurd ((hnew o hold.1).symm.trans hold.2.2.2) (by simp)
  cases h with
  | pull => exact absurd hw hold
  | later hd _ hop =>
    cases op with
    | deliver m inst now => exact deliver_pulled hstart hd.out.pulled hop.passed hw hnew
    | _ => exact absurd hw hold

/-- The desk whose quotes are pulled with a bid in flight. -/
def examplePulled : QuoteDesk :=
  exampleDesk.step examplePlacer (.pullQuotes exampleInstrument false)

set_option maxRecDepth 10000 in
/-- A bid that was in flight at the pull is cancelled by the call that passes its ack. -/
theorem pulled_only_cancels_in_flight :
    (examplePulled.step examplePlacer
      (.deliver exampleAck exampleInstrument 6)).CancelPlaced ⟨0⟩ .buy 0 := by
  have hpulled : Pulled ⟨0⟩ examplePulled :=
    .pull exampleDesk_reachable examplePlacer exampleInstrument rfl
  have hop : Waiting ⟨0⟩ examplePulled
      (.deliver exampleAck exampleInstrument 6) := by
    refine ⟨trivial, rfl, ?_⟩
    intro inst desired now hop
    nomatch hop
  refine (pulled_only_cancels (.later hpulled _ hop) examplePlacer).2 0 exampleAcked ⟨?_, .inr ?_⟩
  · exact ⟨rfl, rfl, rfl, rfl⟩
  intro o₀ ho₀
  have hpending : examplePulled.oms.get 0 =
      some { exampleAcked with state := .pendingNew } := rfl
  obtain rfl := Option.some.inj (hpending.symm.trans ho₀)
  rfl

end QuoteDesk

end FastMM
