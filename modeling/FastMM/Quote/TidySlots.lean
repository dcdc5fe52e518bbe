/-
  Quote/TidySlots.lean --- past the slots in use there is nothing.

  `used` counts the slots a side has in use, and `pull_side` visits only these.  A slot
  past the count holds no order, waits for none and has no target: a slot that holds
  nothing stays so through order updates, pulls and pauses, and `reconcile_side` counts
  what it leaves behind.
-/
import FastMM.Quote.OneOrderPerLevel
set_option autoImplicit false

namespace FastMM

open Oms (Calm Familiar)

namespace QuoteDesk

/-- A slot past those in use holds nothing. -/
def Tidy (d : QuoteDesk) : Prop :=
  ∀ i s lvl, (d.inst i).used s ≤ lvl → (d.slot i s lvl).empty = true

variable {d d' : QuoteDesk} {f : Placer} {i j : InstrumentId} {s : Side} {lvl : Nat}
  {K : Side → QuoteActionKind → Prop}

theorem empty_iff {x : QuoteSlot} :
    x.empty = true ↔ x.handle = none ∧ x.applyWant = false ∧ x.awaitingTerminal = false := by
  unfold QuoteSlot.empty
  simp [and_assoc]

/-! ## Steps -/

theorem Tidy.of_quiet (h : Tidy d) (hq : Quiet d d') : Tidy d' := by
  intro i s lvl hused
  have hslot : d'.slot i s lvl = d.slot i s lvl := by
    unfold slot inst
    rw [hq.slots]
  rw [hslot]
  refine h i s lvl ?_
  show (d.quotes.state i.value).used s ≤ lvl
  rw [← used_of_standing (hq.standing i.value)]
  exact hused

/-- Work on one slot that leaves it empty if it was. -/
theorem Tidy.of_at (h : Tidy d) (hstep : SlotStep i (At s lvl) K d d')
    (hempty : (d.slot i s lvl).empty = true → (d'.slot i s lvl).empty = true) : Tidy d' := by
  intro i' s' l hused
  have hused' : (d.inst i').used s' ≤ l := by
    have hsame := used_of_standing (hstep.standing i'.value)
    show (d.quotes.state i'.value).used s' ≤ l
    rw [← hsame]
    exact hused
  have hold := h i' s' l hused'
  by_cases hi : i' = i
  · subst hi
    by_cases hz : At s lvl s' l
    · obtain ⟨rfl, rfl⟩ := hz
      exact hempty hold
    · rw [hstep.slots s' l hz]
      exact hold
  · have hslot : d'.slot i' s' l = d.slot i' s' l := by
      unfold slot inst
      rw [hstep.others _ (value_ne (Ne.symm hi))]
    rw [hslot]
    exact hold

/-- A write of an instrument's state that empties no less. -/
theorem Tidy.setInst (h : Tidy d) (st : QuoteInstState)
    (hst : ∀ s lvl, st.used s ≤ lvl → (st.slots s lvl).empty = true) : Tidy (d.setInst i st) := by
  intro i' s l hused
  show (((d.setInst i st).quotes.state i'.value).slots s l).empty = true
  have hused : ((d.setInst i st).quotes.state i'.value).used s ≤ l := hused
  rw [inst_setInst] at hused ⊢
  split_ifs at hused with hv
  · rw [if_pos hv]
    exact hst s l hused
  · rw [if_neg hv]
    exact h i' s l hused

theorem Tidy.reconcileSide (h : Tidy d) (inst : QuotedInstrument) {n : Nat}
    (hn : n ≤ kMaxQuoteLevels) (hused : (d.inst inst.id).used s ≤ n) (want : Nat → QuoteTarget)
    (now : Timestamp) : Tidy (d.reconcileSide f inst s n want now) := by
  obtain ⟨used, -, hempty, heq⟩ := reconcileSide_eq (f := f) (s := s) inst n hn want now d
  have hstep : SlotStep inst.id (Below s n) Anything d (d.reconcileSlots f inst s n want now) :=
    reconcileSlots_step inst n hn want trivial (fun _ _ _ => trivial) now d
  rw [heq]
  generalize d.reconcileSlots f inst s n want now = d₁ at *
  intro i' s' l hl
  have hkeep : ∀ i s, (d₁.quotes.state i).used s = (d.quotes.state i).used s :=
    fun i s => congrFun (used_of_standing (hstep.standing i)) s
  show (((d₁.setInst inst.id _).quotes.state i'.value).slots s' l).empty = true
  have hl : ((d₁.setInst inst.id { d₁.inst inst.id with
    used := Function.update (d₁.inst inst.id).used s used }).quotes.state i'.value).used s' ≤ l :=
    hl
  rw [inst_setInst] at hl ⊢
  by_cases hv : i'.value = inst.id.value
  · obtain rfl := InstrumentId.value_inj.mp hv
    rw [if_pos rfl] at hl ⊢
    have hl : Function.update (d₁.inst inst.id).used s used s' ≤ l := hl
    rw [Function.update_apply] at hl
    show (d₁.slot inst.id s' l).empty = true
    by_cases hs : s' = s
    · subst hs
      rw [if_pos rfl] at hl
      by_cases hln : l < n
      · exact hempty l hl hln
      · rw [hstep.slots s' l fun hz => hln hz.2]
        exact h inst.id s' l (by omega)
    · rw [if_neg hs] at hl
      rw [hstep.slots s' l fun hz => hs hz.1]
      refine h inst.id s' l ?_
      show (d.quotes.state inst.id.value).used s' ≤ l
      rw [← hkeep]
      exact hl
  · rw [if_neg hv] at hl ⊢
    rw [hstep.others _ hv]
    refine h i' s' l ?_
    show (d.quotes.state i'.value).used s' ≤ l
    rw [← hkeep]
    exact hl

theorem Tidy.reconcile (h : Tidy d) (ho : d.Owned) (inst : QuotedInstrument)
    (desired : DesiredQuotes) (now : Timestamp) : Tidy (d.reconcile f inst desired now) := by
  unfold QuoteDesk.reconcile
  have hset : InstStep inst.id Anything d (d.setInst inst.id { d.inst inst.id with
      pulled := false, paused := false, resumable := false, desired := desired }) :=
    InstStep.setInst _ (fun _ _ => rfl) fun ho s => ho.used _ s
  have htidy : Tidy (d.setInst inst.id { d.inst inst.id with
      pulled := false, paused := false, resumable := false, desired := desired }) :=
    h.setInst _ fun s lvl hu => h inst.id s lvl hu
  have ho₁ := hset.owned ho
  generalize d.setInst inst.id { d.inst inst.id with
    pulled := false, paused := false, resumable := false, desired := desired } = d₁ at *
  have hbuy : InstStep inst.id Anything d₁ (d₁.reconcileWanted f inst desired .buy now) :=
    reconcileWanted_step inst ho₁ desired trivial (fun _ => anything) now
  have htidy' : Tidy (d₁.reconcileWanted f inst desired .buy now) :=
    htidy.reconcileSide inst (max_le (desired.side .buy).length_le (ho₁.used _ _))
      (le_max_right _ _) _ now
  exact htidy'.reconcileSide inst
    (max_le (desired.side .sell).length_le ((hbuy.owned ho₁).used _ _)) (le_max_right _ _) _ now

/-! ## Slots that hold nothing -/

theorem slotOrder_empty (h : (d.slot i s lvl).handle = none) : d.slotOrder i s lvl = none := by
  unfold slotOrder
  rw [h]
  simp

theorem pullSlot_empty (h : (d.slot i s lvl).empty = true) :
    ((pullSlot f i s d lvl).slot i s lvl).empty = true := by
  obtain ⟨hh, _, ht⟩ := empty_iff.mp h
  unfold pullSlot
  dsimp only
  rw [slotOrder_empty (by rw [slot_setSlot_self]; exact hh)]
  rw [slot_setSlot_self]
  exact empty_iff.mpr ⟨hh, rfl, ht⟩

theorem onOrderUpdate_empty {inst : QuotedInstrument} {u : OmsUpdate} {now : Timestamp}
    (h : (d.slot inst.id (tagSide u.order.userTag) (tagLevel u.order.userTag)).empty = true) :
    ((d.onOrderUpdate f u inst now).slot inst.id (tagSide u.order.userTag)
      (tagLevel u.order.userTag)).empty = true := by
  have hslots : ∀ {d d' : QuoteDesk}, Quiet d d' → ∀ s l, d'.slot inst.id s l =
    d.slot inst.id s l := by
    intro d d' hq s l
    unfold slot QuoteDesk.inst
    rw [hq.slots]
  unfold onOrderUpdate
  dsimp only
  split
  · exact h
  generalize hd₁ : (if u.refused ≠ .none then
    d.onVenueReject inst.id (tagSide u.order.userTag) u.refused now else d) = d₁
  have hq : Quiet d d₁ := hd₁ ▸ (quiet_onVenueReject d _ _ _ _).of_if
  rw [← hslots hq] at h
  generalize tagSide u.order.userTag = s at *
  generalize tagLevel u.order.userTag = lvl at *
  obtain ⟨hh, hw, _⟩ := empty_iff.mp h
  split
  · unfold onWorkingUpdate
    dsimp only
    generalize hd₂ : (if decide (u.prev = .pendingNew ∨ u.prev = .pendingReplace) = true ∧
        u.refused = .none ∧ u.order.isWorking = true then d₁.setInst inst.id { d₁.inst inst.id with
          backoff := Function.update (d₁.inst inst.id).backoff s 0 } else d₁) = d₂
    have hq₂ : Quiet d₁ d₂ := by
      rw [← hd₂]
      exact .of_if (quiet_setInst d₁ inst.id _ rfl rfl)
    rw [← hslots hq₂] at h hh
    have hcond : u.handle = none ∨ (d₂.slot inst.id s lvl).handle ≠ u.handle ∨
        d₂.owns inst.id s lvl = false ∨ u.order.isWorking = false := by
      rw [hh]
      cases u.handle with
      | none => exact .inl rfl
      | some k => exact .inr (.inl (by simp))
    rw [if_pos hcond]
    exact h
  · unfold onTerminalUpdate
    dsimp only
    split
    · exact h
    · rw [if_pos (.inr (.inr hw)), slot_setSlot_self]
      exact empty_iff.mpr ⟨rfl, hw, rfl⟩

/-! ## Runs -/

/-- What is owned, and nothing past the slots in use. -/
theorem keeps_tidy (f : Placer) : Keeps f fun d => d.Owned ∧ Tidy d where
  quiet _ _ hq h := ⟨h.1.of_quiet hq, h.2.of_quiet hq⟩
  pull d inst keepDesired h := by
    refine ⟨(keeps_owned f).pull d inst keepDesired h.1, ?_⟩
    have hfold : ∀ s (d : QuoteDesk), Tidy d → ∀ n, n ≤ kMaxQuoteLevels →
        Tidy ((List.range n).foldl (pullSlot f inst.id s) d) := by
      intro s d h n
      induction n with
      | zero => exact fun _ => h
      | succ n ih =>
        intro hn
        rw [List.range_succ, List.foldl_append]
        refine (ih (by omega)).of_at (pullSlot_step (K := Anything) trivial _ n) ?_
        exact pullSlot_empty
    refine hfold .sell _ (hfold .buy _ ?_ _ (le_refl _)) _ (le_refl _)
    exact h.2.setInst _ fun s lvl hu => h.2 inst.id s lvl hu
  resume d inst now h := by
    refine ⟨(keeps_owned f).resume d inst now h.1, ?_⟩
    unfold resume
    dsimp only
    have hset : InstStep inst.id Anything d (d.setInst inst.id { d.inst inst.id with
        paused := false }) := InstStep.setInst _ (fun _ _ => rfl) fun ho s => ho.used _ s
    have htidy : Tidy (d.setInst inst.id { d.inst inst.id with paused := false }) :=
      h.2.setInst _ fun s lvl hu => h.2 inst.id s lvl hu
    split
    · exact htidy
    · exact htidy.reconcile (hset.owned h.1) inst _ now
  side d inst s now h :=
    ⟨(keeps_owned f).side d inst s now h.1, h.2.reconcileSide inst (h.1.used _ s) (le_refl _) _ now⟩
  reapply d inst desired now h _ _ := ⟨h.1.reconcile inst desired now,
    h.2.reconcile h.1 inst desired now⟩
  message d m h := ⟨h.1.withOms (Oms.kept_receive d.oms m), h.2⟩
  calm _ _ hc h := ⟨h.1.withOms hc.kept, h.2⟩
  update d u inst now h := by
    refine ⟨h.1.update u inst now, ?_⟩
    have hstep : SlotStep inst.id (At (tagSide u.order.userTag) (tagLevel u.order.userTag))
        Anything d (d.onOrderUpdate f u inst now) :=
      onOrderUpdate_step inst u trivial (fun _ _ => anything) now
    exact h.2.of_at hstep onOrderUpdate_empty

theorem Tidy.pauseQuotes (h : Tidy d) (i : InstrumentId) : Tidy (d.pauseQuotes i) := by
  refine h.setInst _ fun s lvl hu => ?_
  have hold := h i s lvl hu
  obtain ⟨hh, _, ht⟩ := empty_iff.mp hold
  dsimp only
  split
  · exact empty_iff.mpr ⟨hh, rfl, ht⟩
  · exact hold

theorem Reachable.tidy (h : Reachable d) : Tidy d := by
  have hboth : d.Owned ∧ Tidy d := by
    induction h with
    | init p epoch maxSeq => exact ⟨(Reachable.init p epoch maxSeq).owned, fun _ _ _ _ => rfl⟩
    | @step d _ f op hop ih =>
      have hstart : Owned { d with placed := [] } ∧ Tidy { d with placed := [] } :=
        ⟨⟨ih.1.held, ih.1.used⟩, ih.2⟩
      refine (keeps_tidy f).run hstart op ?_ ?_ ?_ ?_
      · exact fun inst desired now _ =>
          ⟨hstart.1.reconcile inst desired now, hstart.2.reconcile hstart.1 inst desired now⟩
      · rintro i rfl
        exact ⟨hstart.1.run (f := f) (.pauseQuotes i) trivial, hstart.2.pauseQuotes i⟩
      · exact fun s on _ => ⟨⟨hstart.1.held, hstart.1.used⟩, hstart.2⟩
      · rintro c rfl
        exact ⟨hstart.1.call hop, hstart.2⟩
  exact hboth.2

end QuoteDesk

end FastMM
