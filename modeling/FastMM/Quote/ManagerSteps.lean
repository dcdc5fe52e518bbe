/-
  Quote/ManagerSteps.lean --- the steps of the manager's functions.

  One lemma for each function says that it is a step on its slots, and which kinds of
  actions it may place.  A target without a quantity is answered with Cancels only, and
  so is an order update of a pulled instrument or of a held side.
-/
import FastMM.Quote.SlotSteps
set_option autoImplicit false

namespace FastMM

open Function List

open Oms (Calm)

namespace QuoteDesk

variable {d d' : QuoteDesk} {f : Placer} {i : InstrumentId} {s : Side} {lvl : Nat}
  {Z : Side → Nat → Prop} {K : Side → QuoteActionKind → Prop}
variable {st st' : QuoteInstState}
variable (inst : QuotedInstrument)

theorem SlotStep.ite {c : Prop} [Decidable c] {d₁ d₂ : QuoteDesk} (h₁ : SlotStep i Z K d d₁)
    (h₂ : SlotStep i Z K d d₂) : SlotStep i Z K d (if c then d₁ else d₂) := by
  split
  · exact h₁
  · exact h₂

/-- Ownership reads the slot's handle and the orders. -/
theorem owns_congr (hh : (d'.slot i s lvl).handle = (d.slot i s lvl).handle)
    (hget : ∀ k, d'.oms.get k = d.oms.get k) : d'.owns i s lvl = d.owns i s lvl := by
  unfold owns
  rw [hh]
  split
  · rfl
  · rw [hget]

theorem owns_setSlot (x : QuoteSlot) (hx : x.handle = (d.slot i s lvl).handle) :
    (d.setSlot i s lvl x).owns i s lvl = d.owns i s lvl := by
  refine owns_congr ?_ fun _ => rfl
  rw [slot_setSlot_self, hx]

theorem slotOrder_some {o : Order} (h : d.slotOrder i s lvl = some o) :
    d.owns i s lvl = true ∧ ∃ k, (d.slot i s lvl).handle = some k ∧ d.oms.get k = some o ∧
      o.Quotes i s lvl := by
  unfold slotOrder at h
  split at h
  · rename_i howns
    obtain ⟨k, x, hk, hx, hq⟩ := owns_iff.mp howns
    rw [hk] at h
    obtain rfl := Option.some.inj (hx.symm.trans h)
    exact ⟨howns, k, hk, hx, hq⟩
  · nomatch h

theorem slotOrder_none (h : d.slotOrder i s lvl = none) : d.owns i s lvl = false := by
  by_contra hne
  rw [Bool.not_eq_false] at hne
  obtain ⟨k, x, hk, hx, _⟩ := owns_iff.mp hne
  unfold slotOrder at h
  rw [if_pos hne, hk] at h
  exact absurd (hx.symm.trans h) (by simp)

/-! ## One slot -/

theorem cancel_step (hK : K s .cancel) (howns : d.owns i s lvl = true) :
    SlotStep i (At s lvl) K d (d.cancel f i s lvl) := by
  have hplace : SlotStep i (At s lvl) K d (d.place f
      { kind := .cancel, instrument := i, side := s, level := lvl
        handle := (d.slot i s lvl).handle }).1 :=
    SlotStep.place_held f ⟨rfl, rfl, rfl, hK⟩ (by simp) rfl howns
  unfold cancel
  dsimp only
  split
  · exact hplace.trans (SlotStep.of_quiet (quiet_withStats _ _))
  · refine SlotStep.trans ?_ (SlotStep.setSlot _ rfl)
    exact hplace.trans (SlotStep.of_quiet (quiet_withStats _ _))

theorem move_step (hK : K s .cancel) (howns : d.owns i s lvl = true) (t : QuoteTarget) :
    SlotStep i (At s lvl) K d (d.move f i s lvl t) := by
  unfold move
  dsimp only
  generalize hx : ({ (d.slot i s lvl).record t with paid := false } : QuoteSlot) = x
  have hhandle : x.handle = (d.slot i s lvl).handle := by rw [← hx]; rfl
  have hset : SlotStep i (At s lvl) K d (d.setSlot i s lvl x) := SlotStep.setSlot x hhandle
  have howns' := (owns_setSlot x hhandle).trans howns
  generalize d.setSlot i s lvl x = d₁ at *
  have hplace : SlotStep i (At s lvl) K d₁ (d₁.place f
      { kind := .cancel, instrument := i, side := s, level := lvl
        handle := (d₁.slot i s lvl).handle, price := t.level.price, qty := t.level.qty
        value := t.value, keep := t.keep }).1 :=
    SlotStep.place_held f ⟨rfl, rfl, rfl, hK⟩ (by simp) rfl howns'
  refine hset.trans (hplace.trans ?_)
  split
  · split
    · refine SlotStep.trans ?_ (SlotStep.of_quiet
        ((quiet_withStats _ _).trans (quiet_queuePriced _ _)))
      exact SlotStep.setSlot _ rfl
    split
    · refine SlotStep.trans ?_ (SlotStep.of_quiet (quiet_withStats _ _))
      exact SlotStep.setSlot _ rfl
    · exact SlotStep.of_quiet (quiet_withStats _ _)
  · refine SlotStep.trans ?_ (SlotStep.setSlot _ rfl)
    exact SlotStep.of_quiet (quiet_withStats _ _)

theorem submitNew_step (hK : K s .new) (hlvl : lvl < kMaxQuoteLevels)
    (hnone : (d.slot i s lvl).handle = none) (level : Level) (account : VenueId)
    (value : QuoteValue) (now : Timestamp) (deferred : Bool) :
    SlotStep i (At s lvl) K d (d.submitNew f i s lvl level account value now deferred) := by
  unfold submitNew
  dsimp only
  generalize hx : ({ d.slot i s lvl with paid := false } : QuoteSlot) = x
  have hhandle : x.handle = (d.slot i s lvl).handle := by rw [← hx]
  have hset : SlotStep i (At s lvl) K d (d.setSlot i s lvl x) := SlotStep.setSlot x hhandle
  have hnone' : ((d.setSlot i s lvl x).slot i s lvl).handle = none := by
    rw [slot_setSlot_self, hhandle, hnone]
  generalize d.setSlot i s lvl x = d₁ at *
  generalize ha : ({ kind := .new, instrument := i, side := s, level := lvl, price := level.price
                     qty := level.qty, postOnly := d₁.quotes.params.postOnly
                     deferred := deferred, account := account, value := value
                     paid := deferred && (d.slot i s lvl).paid } : QuoteAction) = a
  have hconcerns : Concerns i s lvl K a := by rw [← ha]; exact ⟨rfl, rfl, rfl, hK⟩
  have hkind : a.kind = .new := by rw [← ha]
  refine hset.trans ?_
  by_cases hsent : (d₁.place f a).2.2 = true
  · obtain ⟨k, _, hh, _⟩ := placeQuote_new d₁.oms a _ hkind hsent
    have hh : (d₁.place f a).2.1.handle = some k := hh
    rw [if_neg (by simp [hsent, hh])]
    have hnew := SlotStep.place_new f hconcerns hlvl hkind hnone' hsent
      { (d₁.place f a).1.slot i s lvl with
        handle := (d₁.place f a).2.1.handle
        clOrdId := (d₁.place f a).2.1.clOrdId
        lastRequote := now
        awaitingTerminal := false } rfl
    exact hnew.trans (SlotStep.of_quiet ⟨fun _ => rfl, fun _ => rfl, rfl, rfl, rfl⟩)
  · rw [Bool.not_eq_true] at hsent
    rw [if_pos (Or.inl hsent)]
    refine (SlotStep.place_unsent f hconcerns hsent).trans (SlotStep.of_quiet ?_)
    split
    · exact (quiet_withStats _ _).trans (quiet_queuePriced _ _)
    · split
      · exact quiet_withStats _ _
      · exact quiet_heldBack _ _ _ _

theorem replace_step (hK : ∀ k, K s k) (howns : d.owns i s lvl = true) (t : QuoteTarget) (o : Order)
    (now : Timestamp) : SlotStep i (At s lvl) K d (d.replace f i s lvl t o now) := by
  unfold replace
  dsimp only
  generalize ha : ({ kind := .replace, instrument := i, side := s, level := lvl
                     handle := (d.slot i s lvl).handle, price := t.level.price
                     qty := t.level.qty, postOnly := d.quotes.params.postOnly, value := t.value
                     keep := t.keep } : QuoteAction) = a
  have hplace : SlotStep i (At s lvl) K d (d.place f a).1 := by
    rw [← ha]
    exact SlotStep.place_held f ⟨rfl, rfl, rfl, hK _⟩ (by simp) rfl howns
  refine hplace.trans ?_
  split
  · rename_i hsent
    have hget : ∀ k, (d.place f a).1.oms.get k = d.oms.get k := placeQuote_unsent d.oms a _ hsent
    have hslot : ((d.place f a).1.slot i s lvl).handle = (d.slot i s lvl).handle := rfl
    have howns' : (d.place f a).1.owns i s lvl = true := (owns_congr hslot hget).trans howns
    split
    · refine SlotStep.ite (move_step (hK _) howns' t) ?_
      exact SlotStep.of_quiet ((quiet_withStats _ _).trans (quiet_queuePriced _ _))
    · split
      · exact SlotStep.of_quiet (quiet_withStats _ _)
      · exact SlotStep.of_quiet (quiet_heldBack _ _ _ _)
  · refine SlotStep.trans ?_ (SlotStep.setSlot _ rfl)
    exact SlotStep.of_quiet (quiet_withStats _ _)

theorem requote_step (hK : ∀ k, K s k)
    (howns : d.owns inst.id s lvl = true) (t : QuoteTarget) (o : Order) (now : Timestamp) :
    SlotStep inst.id (At s lvl) K d (d.requote f inst s lvl t o now) := by
  unfold requote
  dsimp only
  split
  · refine SlotStep.trans ?_ (cancel_step (hK _) ?_)
    · exact SlotStep.setSlot _ rfl
    · refine (owns_setSlot _ ?_).trans howns
      rfl
  · split
    · exact SlotStep.of_quiet (quiet_withStats _ _)
    split
    · exact SlotStep.of_quiet (quiet_withStats _ _)
    · split
      · exact replace_step hK howns t o now
      · exact move_step (hK _) howns t

theorem fillSlot_step (t : QuoteTarget) (hK : 0 < t.level.qty → K s .new)
    (hlvl : lvl < kMaxQuoteLevels) (howns : d.owns i s lvl = false) (now : Timestamp) :
    SlotStep i (At s lvl) K d (d.fillSlot f i s lvl t now) := by
  unfold fillSlot
  dsimp only
  generalize hx : ({ d.slot i s lvl with
    handle := none, awaitingTerminal := false, applyWant := false } : QuoteSlot) = x
  have hforget : SlotStep i (At s lvl) K d (d.setSlot i s lvl x) := SlotStep.forget x howns
  have hnone : ((d.setSlot i s lvl x).slot i s lvl).handle = none := by
    rw [slot_setSlot_self, ← hx]
  refine hforget.trans ?_
  split
  · exact SlotStep.refl _
  rename_i hqty
  split
  · exact SlotStep.of_quiet (quiet_keptBackoff _ _ _)
  · exact submitNew_step (hK (not_le.mp hqty)) hlvl hnone _ _ _ _ _

theorem reconcileSlot_step (t : QuoteTarget) (hcancel : K s .cancel)
    (hmore : 0 < t.level.qty → ∀ k, K s k) (hlvl : lvl < kMaxQuoteLevels) (now : Timestamp) :
    SlotStep inst.id (At s lvl) K d (d.reconcileSlot f inst s lvl t now) := by
  unfold reconcileSlot
  dsimp only
  cases ho : d.slotOrder inst.id s lvl with
  | none => exact fillSlot_step t (fun h => hmore h _) hlvl (slotOrder_none ho) now
  | some o =>
    obtain ⟨howns, _⟩ := slotOrder_some ho
    dsimp only
    split
    · refine SlotStep.trans ?_ (SlotStep.setSlot _ rfl)
      exact SlotStep.of_quiet (quiet_withStats _ _)
    generalize hx : ({ d.slot inst.id s lvl with applyWant := false } : QuoteSlot) = x
    have hhandle : x.handle = (d.slot inst.id s lvl).handle := by rw [← hx]
    have howns' := (owns_setSlot x hhandle).trans howns
    refine SlotStep.trans (SlotStep.setSlot x hhandle) ?_
    split_ifs with hqty
    · exact cancel_step hcancel howns'
    · exact requote_step inst (hmore (not_le.mp hqty)) howns' t o now

/-- One slot of a pull. -/
theorem pullSlot_step (hK : K s .cancel) (d : QuoteDesk) (lvl : Nat) :
    SlotStep i (At s lvl) K d (pullSlot f i s d lvl) := by
  unfold pullSlot
  dsimp only
  generalize hx : ({ d.slot i s lvl with applyWant := false } : QuoteSlot) = x
  have hhandle : x.handle = (d.slot i s lvl).handle := by rw [← hx]
  refine SlotStep.trans (SlotStep.setSlot x hhandle) ?_
  cases ho : (d.setSlot i s lvl x).slotOrder i s lvl with
  | none => exact SlotStep.refl _
  | some o => exact SlotStep.ite (cancel_step hK (slotOrder_some ho).1) (SlotStep.refl _)

/-! ## Order updates -/

/-- The flags a step leaves as they were. -/
theorem pulled_of_standing (h : st'.standing = st.standing) : st'.pulled = st.pulled := by
  unfold QuoteInstState.standing at h
  simp only [Prod.mk.injEq] at h
  exact h.1

theorem paused_of_standing (h : st'.standing = st.standing) : st'.paused = st.paused := by
  unfold QuoteInstState.standing at h
  simp only [Prod.mk.injEq] at h
  exact h.2.1

section Updates

variable (inst : QuotedInstrument) (hcancel : K s .cancel)
  (hmore : (d.inst inst.id).pulled = false → d.quotes.sideHeld s = false → ∀ k, K s k)
  (hlvl : lvl < kMaxQuoteLevels)

include hcancel hmore hlvl

theorem onWorkingUpdate_step (u : OmsUpdate) (now : Timestamp) :
    SlotStep inst.id (At s lvl) K d (d.onWorkingUpdate f u inst s lvl now) := by
  have hback : ∀ d : QuoteDesk, Quiet d (d.setInst inst.id { d.inst inst.id with
      backoff := update (d.inst inst.id).backoff s 0 }) :=
    fun d => quiet_setInst d inst.id _ rfl rfl
  unfold onWorkingUpdate
  dsimp only
  generalize hd₁ : (if decide (u.prev = .pendingNew ∨ u.prev = .pendingReplace) = true ∧
      u.refused = .none ∧ u.order.isWorking = true then d.setInst inst.id { d.inst inst.id with
        backoff := update (d.inst inst.id).backoff s 0 } else d) = d₁
  have hquiet : Quiet d d₁ := hd₁ ▸ (hback d).of_if
  have hpulled : (d₁.inst inst.id).pulled = (d.inst inst.id).pulled :=
    pulled_of_standing (hquiet.standing inst.id.value)
  refine SlotStep.trans (SlotStep.of_quiet hquiet) ?_
  split
  · exact SlotStep.refl _
  rename_i hcond
  have howns : d₁.owns inst.id s lvl = true := by
    rw [← Bool.not_eq_false]
    exact fun h => hcond (.inr (.inr (.inl h)))
  split
  · exact cancel_step hcancel howns
  rename_i hnp
  split
  · exact SlotStep.refl _
  split
  · refine SlotStep.trans ?_ (reconcileSlot_step inst _ hcancel ?_ hlvl now)
    · exact SlotStep.setSlot _ rfl
    intro hqty
    have hheld : d.quotes.sideHeld s = false := by
      by_contra hne
      rw [Bool.not_eq_false, ← hquiet.sideHeld] at hne
      have hnone : (if (d₁.setSlot inst.id s lvl
          { d₁.slot inst.id s lvl with applyWant := false }).quotes.sideHeld s = true then
          ({} : Level) else (d₁.slot inst.id s lvl).want) = {} := if_pos hne
      rw [hnone] at hqty
      exact lt_irrefl 0 hqty
    exact hmore (by rw [← hpulled]; simpa using hnp) hheld
  · exact SlotStep.refl _

omit hcancel in
theorem onTerminalUpdate_step (now : Timestamp) :
    SlotStep inst.id (At s lvl) K d (d.onTerminalUpdate f inst s lvl now) := by
  unfold onTerminalUpdate
  dsimp only
  split
  · exact SlotStep.refl _
  rename_i howns
  rw [Bool.not_eq_true] at howns
  generalize hd₁ : d.setSlot inst.id s lvl { d.slot inst.id s lvl with
    handle := none, clOrdId := .invalid, awaitingTerminal := false } = d₁
  have hforget : SlotStep inst.id (At s lvl) K d d₁ := hd₁ ▸ SlotStep.forget _ howns
  have hnone : (d₁.slot inst.id s lvl).handle = none := by rw [← hd₁, slot_setSlot_self]
  have hpulled := pulled_of_standing (hforget.standing inst.id.value)
  have hheld := hforget.sideHeld
  refine hforget.trans ?_
  split
  · exact SlotStep.refl _
  rename_i hgo
  generalize hx : ({ (d.slot inst.id s lvl) with
    handle := none, clOrdId := .invalid, awaitingTerminal := false
    applyWant := false } : QuoteSlot) = x
  have hxnone : x.handle = none := by rw [← hx]
  refine SlotStep.trans (SlotStep.setSlot x (hxnone.trans hnone.symm)) ?_
  split
  · exact SlotStep.refl _
  rename_i hask
  split
  · exact SlotStep.of_quiet (quiet_keptBackoff _ _ _)
  refine submitNew_step ?_ hlvl ?_ _ _ _ _ _
  · refine hmore ?_ ?_ _
    · rw [← Bool.not_eq_true]
      exact fun h => hgo (.inl (hpulled.trans h))
    · rw [← Bool.not_eq_true, ← hheld]
      exact fun h => hask (.inr h)
  · rw [slot_setSlot_self]
    exact hxnone

end Updates

/-- The slot of an update, which its order's tag names. -/
theorem onOrderUpdate_step (inst : QuotedInstrument) (u : OmsUpdate)
    (hcancel : K (tagSide u.order.userTag) .cancel) (hmore : (d.inst inst.id).pulled = false →
      d.quotes.sideHeld (tagSide u.order.userTag) = false → ∀ k, K (tagSide u.order.userTag) k)
    (now : Timestamp) :
    SlotStep inst.id (At (tagSide u.order.userTag) (tagLevel u.order.userTag)) K d
      (d.onOrderUpdate f u inst now) := by
  unfold onOrderUpdate
  dsimp only
  split
  · exact SlotStep.refl _
  rename_i hcond
  have hlvl : tagLevel u.order.userTag < kMaxQuoteLevels :=
    not_le.mp fun h => hcond (.inr (.inl h))
  generalize hd₁ : (if u.refused ≠ .none then
    d.onVenueReject inst.id (tagSide u.order.userTag) u.refused now else d) = d₁
  have hquiet : Quiet d d₁ := hd₁ ▸ (quiet_onVenueReject d _ _ _ _).of_if
  have hmore' : (d₁.inst inst.id).pulled = false →
      d₁.quotes.sideHeld (tagSide u.order.userTag) = false →
        ∀ k, K (tagSide u.order.userTag) k := by
    intro hp hh
    refine hmore ?_ ?_
    · rw [← hp]
      exact (pulled_of_standing (hquiet.standing inst.id.value)).symm
    · rw [← hh, hquiet.sideHeld]
  refine SlotStep.trans (SlotStep.of_quiet hquiet) ?_
  split
  · exact onWorkingUpdate_step inst hcancel hmore' hlvl u now
  · exact onTerminalUpdate_step inst hmore' hlvl now

/-! ## Placed Cancels -/

/-- A Cancel has been placed for the order in slot `h`. -/
def CancelPlaced (d : QuoteDesk) (i : InstrumentId) (s : Side) (h : Nat) : Prop :=
  ∃ p ∈ d.placed, p.action.kind = .cancel ∧ p.action.instrument = i ∧ p.action.side = s ∧
    p.action.handle = some h

theorem CancelPlaced.step {h : Nat} (hc : d.CancelPlaced i s h) {j : InstrumentId}
    (hstep : SlotStep j Z K d d') : d'.CancelPlaced i s h := by
  obtain ⟨p, hp, hrest⟩ := hc
  obtain ⟨new, hnew, _⟩ := hstep.placed
  exact ⟨p, by rw [hnew]; exact mem_append_left _ hp, hrest⟩

theorem cancel_places {h : Nat} (hh : (d.slot i s lvl).handle = some h) :
    (d.cancel f i s lvl).CancelPlaced i s h := by
  have hplace : (d.place f { kind := .cancel, instrument := i, side := s, level := lvl
                             handle := (d.slot i s lvl).handle }).1.CancelPlaced i s h := by
    refine ⟨_, mem_append_right _ (mem_singleton_self _), rfl, rfl, rfl, hh⟩
  unfold cancel
  dsimp only
  split
  · exact hplace
  · exact hplace

/-- The update of a quote order that works, passed for its instrument. -/
theorem onOrderUpdate_working (ho : d.Owned) {u : OmsUpdate} {h : Nat} {inst : QuotedInstrument}
    (hterm : u.terminal = false) (hhandle : u.handle = some h)
    (hget : d.oms.get h = some u.order) (htag : isQuoteTag u.order.userTag = true)
    (hinst : u.order.instrument = inst.id) (hwork : u.order.isWorking = true) (now : Timestamp) :
    ∃ lvl d₁, lvl < kMaxQuoteLevels ∧ u.order.Quotes inst.id u.order.side lvl ∧ Quiet d d₁ ∧
      (d₁.slot inst.id u.order.side lvl).handle = some h ∧
      d₁.owns inst.id u.order.side lvl = true ∧
      d.onOrderUpdate f u inst now =
        if (d₁.inst inst.id).pulled then d₁.cancel f inst.id u.order.side lvl
        else if (d₁.inst inst.id).paused then d₁
        else if (d₁.slot inst.id u.order.side lvl).applyWant = true ∧
            (u.prev = .pendingNew ∨ u.prev = .pendingReplace) then
          (d₁.setSlot inst.id u.order.side lvl
            { d₁.slot inst.id u.order.side lvl with applyWant := false }).reconcileSlot f inst
            u.order.side lvl
            { level := if d₁.quotes.sideHeld u.order.side then {}
                else (d₁.slot inst.id u.order.side lvl).want
              account := (d₁.slot inst.id u.order.side lvl).wantAccount
              value := (d₁.slot inst.id u.order.side lvl).wantValue
              keep := (d₁.slot inst.id u.order.side lvl).wantKeep } now
        else d₁ := by
  obtain ⟨lvl, hlvl, hmake, hslot⟩ := ho.held h u.order hget htag
  obtain ⟨_, hside, hlevel⟩ := makeTag_fields u.order.side lvl hlvl
  rw [← hmake] at hside hlevel
  rw [hinst] at hslot
  have hcond : ¬ (isQuoteTag u.order.userTag = false ∨
      kMaxQuoteLevels ≤ tagLevel u.order.userTag ∨ u.order.instrument ≠ inst.id) := by
    rw [hlevel, htag]
    rintro (h | h | h)
    · nomatch h
    · omega
    · exact h hinst
  -- The backoffs move, and nothing the rest reads.
  generalize hd₀ : (if u.refused ≠ .none then d.onVenueReject inst.id u.order.side u.refused now
    else d) = d₀
  have hq₀ : Quiet d d₀ := hd₀ ▸ (quiet_onVenueReject d _ _ _ _).of_if
  generalize hd₁ : (if decide (u.prev = .pendingNew ∨ u.prev = .pendingReplace) = true ∧
      u.refused = .none ∧ u.order.isWorking = true then d₀.setInst inst.id { d₀.inst inst.id with
        backoff := update (d₀.inst inst.id).backoff u.order.side 0 } else d₀) = d₁
  have hq₁ : Quiet d₀ d₁ := by
    rw [← hd₁]
    exact .of_if (quiet_setInst d₀ inst.id _ rfl rfl)
  have hq := hq₀.trans hq₁
  have hslot₁ : (d₁.slot inst.id u.order.side lvl).handle = some h := by
    rw [← hslot]
    unfold slot QuoteDesk.inst
    rw [hq.slots]
  have hquotes : u.order.Quotes inst.id u.order.side lvl := ⟨hinst, hmake⟩
  have howns : d₁.owns inst.id u.order.side lvl = true :=
    owns_iff.mpr ⟨h, u.order, hslot₁, by rw [hq.oms]; exact hget, hquotes⟩
  have hgo : ¬ (u.handle = none ∨ (d₁.slot inst.id u.order.side lvl).handle ≠ u.handle ∨
      d₁.owns inst.id u.order.side lvl = false ∨ u.order.isWorking = false) := by
    rw [hslot₁, hhandle, howns, hwork]
    simp
  refine ⟨lvl, d₁, hlvl, hquotes, hq, hslot₁, howns, ?_⟩
  unfold onOrderUpdate
  rw [if_neg hcond, hside, hlevel, hd₀, if_pos hterm]
  unfold onWorkingUpdate
  dsimp only
  rw [hd₁, if_neg hgo]
  simp only [decide_eq_true_eq]
  rfl

/-! ## Several slots -/

/-- The slots of a side below a level, and above it. -/
def Below (s : Side) (n : Nat) : Side → Nat → Prop := fun s' l => s' = s ∧ l < n

def Above (s : Side) (n : Nat) : Side → Nat → Prop :=
  fun s' l => s' = s ∧ n < l ∧ l < kMaxQuoteLevels

section Folds

variable {g : QuoteDesk → Nat → QuoteDesk}
  (hg : ∀ d lvl, lvl < kMaxQuoteLevels → SlotStep i (At s lvl) K d (g d lvl))

include hg

theorem fold_step (n : Nat) (hn : n ≤ kMaxQuoteLevels) (d : QuoteDesk) :
    SlotStep i (Below s n) K d ((List.range n).foldl g d) := by
  induction n with
  | zero => exact SlotStep.refl d
  | succ n ih =>
    rw [range_succ, foldl_append]
    refine SlotStep.trans ((ih (by omega)).mono ?_ fun _ _ h => h) ((hg _ n (by omega)).mono ?_
      fun _ _ h => h)
    · exact fun s' l h => ⟨h.1, by have := h.2; omega⟩
    · exact fun s' l h => ⟨h.1, by have := h.2; omega⟩

/-- The work on one slot among the others: what comes before and after does not touch
it. -/
theorem fold_at (n : Nat) (hn : n ≤ kMaxQuoteLevels) (hlvl : lvl < n) (d : QuoteDesk) :
    ∃ d₁, SlotStep i (Below s lvl) K d d₁ ∧
      SlotStep i (Above s lvl) K (g d₁ lvl) ((List.range n).foldl g d) := by
  induction n with
  | zero => omega
  | succ n ih =>
    rw [range_succ, foldl_append]
    by_cases heq : lvl = n
    · subst heq
      exact ⟨_, fold_step hg lvl (by omega) d, SlotStep.refl _⟩
    obtain ⟨d₁, hbefore, hafter⟩ := ih (by omega) (by omega)
    refine ⟨d₁, hbefore, hafter.trans ((hg _ n (by omega)).mono ?_ fun _ _ h => h)⟩
    rintro s' l ⟨hs, rfl⟩
    exact ⟨hs, by omega, by omega⟩

end Folds

theorem update_used_le {used : Side → Nat} (hused : ∀ s, used s ≤ kMaxQuoteLevels) {n : Nat}
    (hn : n ≤ kMaxQuoteLevels) (s s' : Side) : update used s n s' ≤ kMaxQuoteLevels := by
  rw [update_apply]
  split
  · exact hn
  · exact hused s'

/-- The slots of `reconcile_side`, without the count of those in use. -/
def reconcileSlots (f : Placer) (inst : QuotedInstrument) (s : Side) (n : Nat)
    (want : Nat → QuoteTarget) (now : Timestamp) (d : QuoteDesk) : QuoteDesk :=
  (List.range n).foldl (fun d lvl => d.reconcileSlot f inst s lvl (want lvl) now) d

/-- `reconcile_side` works on the slots and then says how many are in use: those past
the count hold nothing. -/
theorem reconcileSide_eq (inst : QuotedInstrument) (n : Nat) (hn : n ≤ kMaxQuoteLevels)
    (want : Nat → QuoteTarget) (now : Timestamp) (d : QuoteDesk) :
    ∃ used, used ≤ n ∧
      (∀ lvl, used ≤ lvl → lvl < n →
        ((d.reconcileSlots f inst s n want now).slot inst.id s lvl).empty = true) ∧
      d.reconcileSide f inst s n want now =
        (d.reconcileSlots f inst s n want now).setInst inst.id
          { (d.reconcileSlots f inst s n want now).inst inst.id with
            used := update ((d.reconcileSlots f inst s n want now).inst inst.id).used s used } := by
  have hfold : ∀ m ≤ n, ∃ used, used ≤ m ∧
      (∀ lvl, used ≤ lvl → lvl < m →
        ((d.reconcileSlots f inst s m want now).slot inst.id s lvl).empty = true) ∧
      (List.range m).foldl (fun (r : QuoteDesk × Nat) lvl =>
        let d := r.1.reconcileSlot f inst s lvl (want lvl) now
        (d, if (d.slot inst.id s lvl).empty then r.2 else lvl + 1)) (d, 0) =
          (d.reconcileSlots f inst s m want now, used) := by
    intro m hm
    induction m with
    | zero => exact ⟨0, le_refl 0, fun _ _ h => by omega, rfl⟩
    | succ m ih =>
      obtain ⟨used, hle, hempty, heq⟩ := ih (by omega)
      have hlast : d.reconcileSlots f inst s (m + 1) want now =
          (d.reconcileSlots f inst s m want now).reconcileSlot f inst s m (want m) now := by
        unfold reconcileSlots
        rw [range_succ, foldl_append]
        rfl
      have hstep : SlotStep inst.id (At s m) (fun _ _ => True)
          (d.reconcileSlots f inst s m want now) (d.reconcileSlots f inst s (m + 1) want now) := by
        rw [hlast]
        exact reconcileSlot_step inst (want m) trivial (fun _ _ => trivial) (by omega) now
      rw [range_succ, foldl_append, heq, foldl_cons, foldl_nil]
      rw [← hlast]
      refine ⟨_, ?_, ?_, rfl⟩
      · split <;> omega
      intro lvl hused hlvl
      by_cases hl : lvl = m
      · subst hl
        by_cases he : ((d.reconcileSlots f inst s (lvl + 1) want now).slot inst.id s lvl).empty =
          true
        · exact he
        · rw [if_neg he] at hused
          omega
      · rw [hstep.slots s lvl fun h => hl h.2]
        refine hempty lvl ?_ (by omega)
        split at hused <;> omega
  obtain ⟨used, hle, hempty, heq⟩ := hfold n (le_refl n)
  refine ⟨used, hle, hempty, ?_⟩
  unfold reconcileSide
  rw [heq]

end QuoteDesk

end FastMM
