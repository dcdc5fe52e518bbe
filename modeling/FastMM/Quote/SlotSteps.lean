/-
  Quote/SlotSteps.lean --- what working on some slots of an instrument leaves alone.

  Every function of the manager works on the slots of one instrument.  `SlotStep i Z K`
  says what is left as it was by work on the slots `Z` of `i` that places actions of the
  kinds `K`: the other instruments, the other slots, and the orders that carry none of
  these slots' tags.  The relation composes, so that a function's step is the chain of
  its parts' steps.

  Every step keeps `Owned`: a live order with a quote tag is the one its level's slot
  holds.  Only two writes are delicate.  A slot forgets its handle only when its order
  is gone, and takes a new handle only when it has none.
-/
import FastMM.Oms.Told
import FastMM.Quote.QuoteManager
set_option autoImplicit false

namespace FastMM

open Oms (Calm Familiar)

/-! ## Tags -/

/-- What the order updates read back from a level's tag. -/
theorem makeTag_fields (s : Side) : ∀ lvl, lvl < kMaxQuoteLevels →
    isQuoteTag (makeTag s lvl) = true ∧ tagSide (makeTag s lvl) = s ∧
      tagLevel (makeTag s lvl) = lvl := by
  cases s <;> decide

theorem makeTag_inj {s s' : Side} {lvl lvl' : Nat} (h : lvl < kMaxQuoteLevels)
    (h' : lvl' < kMaxQuoteLevels) (htag : makeTag s lvl = makeTag s' lvl') :
    s = s' ∧ lvl = lvl' := by
  obtain ⟨_, hside, hlevel⟩ := makeTag_fields s lvl h
  obtain ⟨_, hside', hlevel'⟩ := makeTag_fields s' lvl' h'
  exact ⟨by rw [← hside, htag, hside'], by rw [← hlevel, htag, hlevel']⟩

/-- The order quotes this level. -/
def Order.Quotes (o : Order) (i : InstrumentId) (s : Side) (lvl : Nat) : Prop :=
  o.instrument = i ∧ o.userTag = makeTag s lvl

/-! ## Steps -/

/-- The flags, the desired quotes and the number of slots in use. -/
def QuoteInstState.standing (st : QuoteInstState) :
    Bool × Bool × Bool × DesiredQuotes × (Side → Nat) :=
  (st.pulled, st.paused, st.resumable, st.desired, st.used)

namespace QuoteDesk

/-- A live order with a quote tag is the order of its level's slot. -/
structure Owned (d : QuoteDesk) : Prop where
  held : ∀ h o, d.oms.get h = some o → isQuoteTag o.userTag = true →
    ∃ lvl, lvl < kMaxQuoteLevels ∧ o.userTag = makeTag o.side lvl ∧
      (d.slot o.instrument o.side lvl).handle = some h
  used : ∀ n s, (d.quotes.state n).used s ≤ kMaxQuoteLevels

/-- Nothing of interest has changed: only counters, backoffs and queues may have. -/
structure Quiet (d d' : QuoteDesk) : Prop where
  slots : ∀ n, (d'.quotes.state n).slots = (d.quotes.state n).slots
  standing : ∀ n, (d'.quotes.state n).standing = (d.quotes.state n).standing
  sideHeld : d'.quotes.sideHeld = d.quotes.sideHeld
  oms : d'.oms = d.oms
  placed : d'.placed = d.placed

/-- What work on the slots `Z` of the instrument `i`, placing the kinds `K`, may do. -/
structure SlotStep (i : InstrumentId) (Z : Side → Nat → Prop) (K : Side → QuoteActionKind → Prop)
    (d d' : QuoteDesk) : Prop where
  others : ∀ n, n ≠ i.value → (d'.quotes.state n).slots = (d.quotes.state n).slots
  standing : ∀ n, (d'.quotes.state n).standing = (d.quotes.state n).standing
  slots : ∀ s lvl, ¬ Z s lvl → d'.slot i s lvl = d.slot i s lvl
  sideHeld : d'.quotes.sideHeld = d.quotes.sideHeld
  placed : ∃ new, d'.placed = d.placed ++ new ∧ ∀ p ∈ new,
    p.action.instrument = i ∧ Z p.action.side p.action.level ∧ K p.action.side p.action.kind
  orders : ∀ h o, (∀ s lvl, Z s lvl → ¬ o.Quotes i s lvl) →
    (d'.oms.get h = some o ↔ d.oms.get h = some o)
  owned : d.Owned → d'.Owned

/-- One slot. -/
def At (s : Side) (lvl : Nat) : Side → Nat → Prop := fun s' l => s' = s ∧ l = lvl

variable {d d' d'' : QuoteDesk} {i : InstrumentId} {s : Side} {lvl : Nat}
  {Z : Side → Nat → Prop} {K : Side → QuoteActionKind → Prop}

theorem Quiet.refl (d : QuoteDesk) : Quiet d d := ⟨fun _ => rfl, fun _ => rfl, rfl, rfl, rfl⟩

theorem Quiet.trans (h : Quiet d d') (h' : Quiet d' d'') : Quiet d d'' where
  slots n := (h'.slots n).trans (h.slots n)
  standing n := (h'.standing n).trans (h.standing n)
  sideHeld := h'.sideHeld.trans h.sideHeld
  oms := h'.oms.trans h.oms
  placed := h'.placed.trans h.placed

theorem Quiet.of_if {p : Prop} [Decidable p] (h : Quiet d d') : Quiet d (if p then d' else d) := by
  split
  · exact h
  · exact Quiet.refl d

theorem used_of_standing {st st' : QuoteInstState} (h : st'.standing = st.standing) :
    st'.used = st.used := by
  unfold QuoteInstState.standing at h
  simp only [Prod.mk.injEq] at h
  exact h.2.2.2.2

/-- Orders that were there, in slots that keep their handles. -/
theorem Owned.of_kept (ho : d.Owned) (hkept : Familiar d.oms d'.oms)
    (hslots : ∀ i s lvl, (d'.slot i s lvl).handle = (d.slot i s lvl).handle)
    (hstanding : ∀ n, (d'.quotes.state n).standing = (d.quotes.state n).standing) : d'.Owned := by
  constructor
  · intro h x' hx' htag
    obtain ⟨x, hx, hid⟩ := hkept h x' hx'
    unfold Order.identity at hid
    simp only [Prod.mk.injEq] at hid
    obtain ⟨hinst, hside, hutag⟩ := hid
    rw [hutag] at htag
    obtain ⟨lvl, hlvl, hmake, hslot⟩ := ho.held h x hx htag
    refine ⟨lvl, hlvl, ?_, ?_⟩
    · rw [hutag, hside]
      exact hmake
    · rw [hslots, hinst, hside]
      exact hslot
  · intro n s
    rw [used_of_standing (hstanding n)]
    exact ho.used n s

theorem appended_trans {α : Type} {P : α → Prop} {l l' l'' : List α}
    (h : ∃ new, l' = l ++ new ∧ ∀ p ∈ new, P p) (h' : ∃ new, l'' = l' ++ new ∧ ∀ p ∈ new, P p) :
    ∃ new, l'' = l ++ new ∧ ∀ p ∈ new, P p := by
  obtain ⟨new, rfl, hall⟩ := h
  obtain ⟨new', rfl, hall'⟩ := h'
  exact ⟨new ++ new', List.append_assoc .., fun p hp =>
    (List.mem_append.mp hp).elim (hall p) (hall' p)⟩

namespace SlotStep

theorem refl (d : QuoteDesk) : SlotStep i Z K d d where
  others _ _ := rfl
  standing _ := rfl
  slots _ _ _ := rfl
  sideHeld := rfl
  placed := ⟨[], by simp, by simp⟩
  orders _ _ _ := Iff.rfl
  owned := id

theorem trans (h : SlotStep i Z K d d') (h' : SlotStep i Z K d' d'') : SlotStep i Z K d d'' where
  others n hn := (h'.others n hn).trans (h.others n hn)
  standing n := (h'.standing n).trans (h.standing n)
  slots s lvl hz := (h'.slots s lvl hz).trans (h.slots s lvl hz)
  sideHeld := h'.sideHeld.trans h.sideHeld
  placed := appended_trans h.placed h'.placed
  orders k o ho := (h'.orders k o ho).trans (h.orders k o ho)
  owned := h'.owned ∘ h.owned

theorem mono {Z' : Side → Nat → Prop} {K' : Side → QuoteActionKind → Prop}
    (hZ : ∀ s lvl, Z s lvl → Z' s lvl) (hK : ∀ s k, K s k → K' s k) (h : SlotStep i Z K d d') :
    SlotStep i Z' K' d d' where
  others := h.others
  standing := h.standing
  slots s lvl hz := h.slots s lvl fun hs => hz (hZ s lvl hs)
  sideHeld := h.sideHeld
  placed := by
    obtain ⟨new, hnew, hall⟩ := h.placed
    refine ⟨new, hnew, fun p hp => ?_⟩
    obtain ⟨hi, hs, hk⟩ := hall p hp
    exact ⟨hi, hZ _ _ hs, hK _ _ hk⟩
  orders k o ho := h.orders k o fun s lvl hs => ho s lvl (hZ s lvl hs)
  owned := h.owned

theorem of_quiet (h : Quiet d d') : SlotStep i Z K d d' where
  others n _ := h.slots n
  standing := h.standing
  slots s lvl _ := by
    unfold slot inst
    rw [h.slots]
  sideHeld := h.sideHeld
  placed := ⟨[], by rw [h.placed, List.append_nil], by simp⟩
  orders k o _ := by rw [h.oms]
  owned ho := ho.of_kept (h.oms ▸ (Calm.refl d.oms).kept)
    (fun i s lvl => by unfold slot inst; rw [h.slots]) h.standing

end SlotStep

/-! ## Quiet writes -/

variable {a : QuoteAction}
variable (x : QuoteSlot)
variable (f : Placer)
variable (oms : Oms)

theorem inst_setInst (d : QuoteDesk) (i : InstrumentId) (st : QuoteInstState) (n : Nat) :
    (d.setInst i st).quotes.state n = if n = i.value then st else d.quotes.state n := by
  exact Function.update_apply _ _ _ _

theorem quiet_setInst (d : QuoteDesk) (i : InstrumentId) (st : QuoteInstState)
    (hslots : st.slots = (d.inst i).slots) (hstanding : st.standing = (d.inst i).standing) :
    Quiet d (d.setInst i st) := by
  refine ⟨fun n => ?_, fun n => ?_, rfl, rfl, rfl⟩
  · rw [inst_setInst]
    split_ifs with hn
    · rw [hslots, hn]
      rfl
    · rfl
  · rw [inst_setInst]
    split_ifs with hn
    · rw [hstanding, hn]
      rfl
    · rfl

theorem quiet_withStats (d : QuoteDesk) (f : QuoteStats → QuoteStats) : Quiet d (d.withStats f) :=
  ⟨fun _ => rfl, fun _ => rfl, rfl, rfl, rfl⟩

/-- A write of the queues. -/
theorem quiet_queues (d : QuoteDesk) (m : QuoteManager) (hstate : m.state = d.quotes.state)
    (hheld : m.sideHeld = d.quotes.sideHeld) : Quiet d { d with quotes := m } := by
  refine ⟨fun n => ?_, fun n => ?_, hheld, rfl, rfl⟩
  · rw [hstate]
  · rw [hstate]

theorem quiet_backOff (d : QuoteDesk) (i : InstrumentId) (s : Side) (now : Timestamp) :
    Quiet d (d.backOff i s now) := by
  unfold backOff
  dsimp only
  split
  · exact Quiet.refl d
  · refine Quiet.trans ?_ (quiet_withStats _ _)
    exact quiet_setInst d i _ rfl rfl

theorem quiet_onVenueReject (d : QuoteDesk) (i : InstrumentId) (s : Side) (reason : RejectReason)
    (now : Timestamp) : Quiet d (d.onVenueReject i s reason now) := by
  unfold onVenueReject
  split
  · exact Quiet.refl d
  · exact quiet_backOff d i s now

theorem quiet_keptBackoff (d : QuoteDesk) (i : InstrumentId) (s : Side) :
    Quiet d (d.keptBackoff i s) := by
  have hdue : ∀ (d : QuoteDesk) (t : Option Timestamp) (u : Option Timestamp),
      Quiet d { d.setInst i { d.inst i with retryAt := t } with
        quotes := { (d.setInst i { d.inst i with retryAt := t }).quotes with backoffDue := u } } :=
    fun d t u => by
      refine Quiet.trans ?_ (quiet_queues _ _ ?_ ?_)
      · exact quiet_setInst d i { d.inst i with retryAt := t } rfl rfl
      · rfl
      · rfl
  have hstat := quiet_withStats d fun t => { t with keptBackoff := t.keptBackoff + 1 }
  unfold keptBackoff
  dsimp only
  split
  · split
    · exact hstat
    · refine Quiet.trans (hstat.trans ?_) (hdue _ _ _)
      exact quiet_queues _ _ rfl rfl
  · exact hstat.trans (hdue _ _ _)

theorem quiet_heldBack (d : QuoteDesk) (i : InstrumentId) (a : QuoteAction) (now : Timestamp) :
    Quiet d (d.heldBack i a now) := by
  unfold heldBack
  split
  · split
    · exact (quiet_withStats d _).trans (quiet_backOff _ _ _ _)
    · exact quiet_withStats d _
  have hstat := quiet_withStats d fun t => { t with keptRateLimit := t.keptRateLimit + 1 }
  dsimp only
  split
  · exact hstat
  refine Quiet.trans (hstat.trans ?_) (quiet_queues _ _ ?_ ?_)
  · exact quiet_setInst _ i _ rfl rfl
  · rfl
  · rfl

theorem quiet_queuePriced (d : QuoteDesk) (i : InstrumentId) : Quiet d (d.queuePriced i) := by
  unfold queuePriced
  split
  · exact Quiet.refl d
  split
  · exact Quiet.refl d
  refine Quiet.trans ?_ (quiet_queues _ _ ?_ ?_)
  · exact quiet_setInst d i { d.inst i with priced := true } rfl rfl
  · rfl
  · rfl

/-! ## Slot writes -/

theorem slot_setSlot (d : QuoteDesk) (i : InstrumentId) (s : Side) (lvl : Nat) (x : QuoteSlot)
    (i' : InstrumentId) (s' : Side) (l : Nat) :
    (d.setSlot i s lvl x).slot i' s' l =
      if i' = i ∧ s' = s ∧ l = lvl then x else d.slot i' s' l := by
  show ((d.setSlot i s lvl x).quotes.state i'.value).slots s' l =
    if i' = i ∧ s' = s ∧ l = lvl then x else (d.quotes.state i'.value).slots s' l
  unfold setSlot
  rw [inst_setInst]
  by_cases hi : i' = i
  · subst hi
    simp only [if_true, true_and]
    rfl
  · have hv : i'.value ≠ i.value := fun h => hi (by cases i'; cases i; cases h; rfl)
    rw [if_neg hv, if_neg fun h => hi h.1]

theorem slot_setSlot_self (d : QuoteDesk) (i : InstrumentId) (s : Side) (lvl : Nat)
    (x : QuoteSlot) : (d.setSlot i s lvl x).slot i s lvl = x := by
  rw [slot_setSlot, if_pos ⟨rfl, rfl, rfl⟩]

theorem standing_setSlot (d : QuoteDesk) (i : InstrumentId) (s : Side) (lvl : Nat)
    (x : QuoteSlot) (n : Nat) :
    ((d.setSlot i s lvl x).quotes.state n).standing = (d.quotes.state n).standing := by
  unfold setSlot
  rw [inst_setInst]
  split_ifs with hn
  · rw [hn]
    rfl
  · rfl

/-- A write of a slot that keeps what is owned. -/
theorem SlotStep.write (howned : d.Owned → (d.setSlot i s lvl x).Owned) :
    SlotStep i (At s lvl) K d (d.setSlot i s lvl x) where
  others n hn := by
    unfold setSlot
    rw [inst_setInst, if_neg hn]
  standing := standing_setSlot d i s lvl x
  slots s' l hz := by
    rw [slot_setSlot, if_neg fun h => hz h.2]
  sideHeld := rfl
  placed := ⟨[], (List.append_nil _).symm, by simp⟩
  orders _ _ _ := Iff.rfl
  owned := howned

/-- A slot keeps its handle. -/
theorem SlotStep.setSlot (hx : x.handle = (d.slot i s lvl).handle) :
    SlotStep i (At s lvl) K d (d.setSlot i s lvl x) := by
  refine SlotStep.write x fun ho => ho.of_kept (Calm.refl d.oms).kept ?_
    (standing_setSlot d i s lvl x)
  intro i' s' l
  rw [slot_setSlot]
  split_ifs with h
  · rw [hx, h.1, h.2.1, h.2.2]
  · rfl

/-- An owned slot's order. -/
theorem owns_iff : d.owns i s lvl = true ↔
    ∃ h o, (d.slot i s lvl).handle = some h ∧ d.oms.get h = some o ∧ o.Quotes i s lvl := by
  unfold owns
  cases hh : (d.slot i s lvl).handle with
  | none => simp
  | some h =>
    cases ho : d.oms.get h with
    | none => simp [ho]
    | some o => simp [ho, Order.Quotes]

/-- The order that quotes a level is the one of its slot. -/
theorem Owned.handle (ho : d.Owned) (hlvl : lvl < kMaxQuoteLevels) {h : Nat} {o : Order}
    (hget : d.oms.get h = some o) (hq : o.Quotes i s lvl) :
    o.side = s ∧ (d.slot i s lvl).handle = some h := by
  obtain ⟨hinst, htag⟩ := hq
  have hquote : isQuoteTag o.userTag = true := by
    rw [htag]
    exact (makeTag_fields s lvl hlvl).1
  obtain ⟨lvl', hlvl', hmake, hslot⟩ := ho.held h o hget hquote
  obtain ⟨hside, hl⟩ := makeTag_inj hlvl' hlvl (hmake.symm.trans htag)
  rw [hinst, hside, hl] at hslot
  exact ⟨hside, hslot⟩

/-- A slot whose order is gone forgets it. -/
theorem SlotStep.forget (howns : d.owns i s lvl = false) :
    SlotStep i (At s lvl) K d (d.setSlot i s lvl x) := by
  refine SlotStep.write x fun ho => ⟨fun h o hget hquote => ?_, fun n s' => ?_⟩
  · obtain ⟨lvl', hlvl', hmake, hslot⟩ := ho.held h o hget hquote
    refine ⟨lvl', hlvl', hmake, ?_⟩
    rw [slot_setSlot]
    by_cases heq : o.instrument = i ∧ o.side = s ∧ lvl' = lvl
    · exfalso
      obtain ⟨hi, hs, hl⟩ := heq
      rw [hi, hs, hl] at hslot
      rw [hs, hl] at hmake
      have hown : d.owns i s lvl = true := owns_iff.mpr ⟨h, o, hslot, hget, hi, hmake⟩
      rw [howns] at hown
      exact Bool.false_ne_true hown
    · rw [if_neg heq]
      exact hslot
  · rw [used_of_standing (standing_setSlot d i s lvl x n)]
    exact ho.used n s'

/-! ## Placed actions -/

/-- A placed Cancel or Replace concerns the order of its handle, and brings nothing. -/
theorem placeQuote_held (a : QuoteAction) (p : Placing) (hk : a.kind ≠ .new) :
    Familiar oms (placeQuote oms a p).1 ∧
      ∀ k, a.handle ≠ some k → (placeQuote oms a p).1.get k = oms.get k := by
  unfold placeQuote
  split
  · exact ⟨(Calm.refl oms).kept, fun _ _ => rfl⟩
  split
  · rename_i hnew
    exact absurd hnew hk
  · split
    · exact ⟨(Calm.refl oms).kept, fun _ _ => rfl⟩
    rename_i h hh
    have hkept := (Oms.calm_requestCancel oms h).kept
    have hothers := Oms.requestCancel_others oms h
    split
    all_goals
      rename_i hr
      rw [hr] at hkept hothers
      exact ⟨hkept, fun k hne => hothers k fun hkh => hne (hkh ▸ hh)⟩
  · split
    · exact ⟨(Calm.refl oms).kept, fun _ _ => rfl⟩
    rename_i h hh
    have hkept := Oms.familiar_requestReplace oms h p.id a.price a.qty p.now
    have hothers := Oms.requestReplace_others oms h p.id a.price a.qty p.now
    split
    all_goals
      rename_i hr
      rw [hr] at hkept hothers
      exact ⟨hkept, fun k hne => hothers k fun hkh => hne (hkh ▸ hh)⟩

/-- An action that was not sent leaves every order as it is. -/
theorem placeQuote_unsent (a : QuoteAction) (p : Placing)
    (h : (placeQuote oms a p).2.2 = false) (k : Nat) :
    (placeQuote oms a p).1.get k = oms.get k := by
  revert h
  unfold placeQuote
  split
  · exact fun _ => rfl
  split
  · rcases Oms.submit_get oms (quoteRequest a p.venue) p.id p.now with ⟨l, hok, _⟩ | ⟨_, hget⟩
    · split
      · nofun
      · rename_i hr
        simp [hr] at hok
    · split
      all_goals
        rename_i hr
        rw [hr] at hget
        exact fun _ => hget k
  · split
    · exact fun _ => rfl
    rename_i l hh
    split
    · nofun
    rename_i hr
    have hsame := Oms.requestCancel_error (s := oms) l (congrArg Prod.snd hr)
    rw [hr] at hsame
    exact fun _ => congrArg (fun s => s.get k) hsame
  · split
    · exact fun _ => rfl
    rename_i l hh
    rcases Oms.requestReplace_cases oms l p.id a.price a.qty p.now with ⟨_, hok, _⟩ | ⟨_, hsame⟩
    · split
      · nofun
      · rename_i hr
        simp [hr] at hok
    · split
      all_goals
        rename_i hr
        rw [hr] at hsame
        exact fun _ => congrArg (fun s => s.get k) hsame

/-- A New that was sent is an order in a slot that was free. -/
theorem placeQuote_new (a : QuoteAction) (p : Placing) (hk : a.kind = .new)
    (h : (placeQuote oms a p).2.2 = true) :
    ∃ k o, (placeQuote oms a p).2.1.handle = some k ∧ oms.get k = none ∧
      o.identity = (a.instrument, a.side, makeTag a.side a.level) ∧ o.state = .pendingNew ∧
      ∀ l, (placeQuote oms a p).1.get l = if l = k then some o else oms.get l := by
  unfold placeQuote at h ⊢
  split_ifs with hsend
  · simp [if_pos hsend] at h
  rw [if_neg hsend] at h
  simp only [hk] at h ⊢
  rcases Oms.submit_get oms (quoteRequest a p.venue) p.id p.now with
    ⟨l, hok, hfree, hget⟩ | ⟨⟨e, herr⟩, _⟩
  · split
    · rename_i hr
      rw [hr] at hok hget
      obtain rfl := Except.ok.inj hok
      exact ⟨_, _, rfl, hfree, rfl, rfl, hget⟩
    · rename_i hr
      simp [hr] at hok
  · split
    · rename_i hr
      simp [hr] at herr
    · rename_i hr
      simp [hr] at h

theorem place_placed (d : QuoteDesk) (f : Placer) (a : QuoteAction) :
    (d.place f a).1.placed = d.placed ++ [⟨a, (d.place f a).2.2⟩] := rfl

/-- The action is one of this slot, of an admitted kind. -/
structure Concerns (i : InstrumentId) (s : Side) (lvl : Nat)
    (K : Side → QuoteActionKind → Prop) (a : QuoteAction) : Prop where
  instrument : a.instrument = i
  side : a.side = s
  level : a.level = lvl
  kind : K s a.kind

section

variable (ha : Concerns i s lvl K a)
include ha

theorem Concerns.placed (f : Placer) :
    ∃ new, (d.place f a).1.placed = d.placed ++ new ∧ ∀ p ∈ new, p.action.instrument = i ∧
      At s lvl p.action.side p.action.level ∧ K p.action.side p.action.kind := by
  refine ⟨_, place_placed d f a, fun p hp => ?_⟩
  rw [List.mem_singleton] at hp
  rw [hp]
  exact ⟨ha.instrument, ⟨ha.side, ha.level⟩, ha.side ▸ ha.kind⟩

/-- Placing what is not sent. -/
theorem SlotStep.place_unsent
    (hsent : (d.place f a).2.2 = false) : SlotStep i (At s lvl) K d (d.place f a).1 where
  others _ _ := rfl
  standing _ := rfl
  slots _ _ _ := rfl
  sideHeld := rfl
  placed := ha.placed f
  orders k o _ := by
    rw [show (d.place f a).1.oms.get k = d.oms.get k from placeQuote_unsent d.oms a _ hsent k]
  owned ho := by
    refine ho.of_kept (Calm.of_get ?_).kept (fun _ _ _ => rfl) fun _ => rfl
    exact placeQuote_unsent d.oms a _ hsent

/-- Placing a Cancel or a Replace of the slot's order. -/
theorem SlotStep.place_held
    (hk : a.kind ≠ .new) (hh : a.handle = (d.slot i s lvl).handle)
    (howns : d.owns i s lvl = true) : SlotStep i (At s lvl) K d (d.place f a).1 where
  others _ _ := rfl
  standing _ := rfl
  slots _ _ _ := rfl
  sideHeld := rfl
  placed := ha.placed f
  orders k o ho := by
    obtain ⟨hkept, hothers⟩ := placeQuote_held d.oms a (f d.placed d.oms a) hk
    have hnot : ¬ o.Quotes i s lvl := ho s lvl ⟨rfl, rfl⟩
    obtain ⟨h, x, hslot, hx, hq⟩ := owns_iff.mp howns
    by_cases hkh : k = h
    · subst hkh
      constructor
      · intro hget
        obtain ⟨y, hy, hid⟩ := hkept k o hget
        obtain rfl := Option.some.inj (hx.symm.trans hy)
        unfold Order.identity at hid
        simp only [Prod.mk.injEq] at hid
        exact absurd ⟨hid.1.trans hq.1, hid.2.2.trans hq.2⟩ hnot
      · intro hget
        obtain rfl := Option.some.inj (hx.symm.trans hget)
        exact absurd hq hnot
    · have hne : a.handle ≠ some k := by
        rw [hh, hslot]
        exact fun h => hkh (Option.some.inj h).symm
      rw [show (d.place f a).1.oms.get k = d.oms.get k from hothers k hne]
  owned ho := by
    refine ho.of_kept ?_ (fun _ _ _ => rfl) fun _ => rfl
    exact (placeQuote_held d.oms a (f d.placed d.oms a) hk).1

/-- Placing a New that was sent, whose handle an empty slot takes. -/
theorem SlotStep.place_new
    (hlvl : lvl < kMaxQuoteLevels) (hk : a.kind = .new) (hnone : (d.slot i s lvl).handle = none)
    (hsent : (d.place f a).2.2 = true) (x : QuoteSlot) (hx : x.handle = (d.place f a).2.1.handle) :
    SlotStep i (At s lvl) K d ((d.place f a).1.setSlot i s lvl x) := by
  obtain ⟨k, o, hh, hfree, hid, _, hget⟩ := placeQuote_new d.oms a (f d.placed d.oms a) hk hsent
  have hxk : x.handle = some k := hx.trans hh
  have hget : ∀ l, (d.place f a).1.oms.get l = if l = k then some o else d.oms.get l := hget
  unfold Order.identity at hid
  simp only [Prod.mk.injEq] at hid
  obtain ⟨hinst, hside, htag⟩ := hid
  rw [ha.instrument] at hinst
  rw [ha.side] at hside
  rw [ha.side, ha.level] at htag
  have hslot := slot_setSlot (d.place f a).1 i s lvl x
  have hstanding := standing_setSlot (d.place f a).1 i s lvl x
  constructor
  · intro n hn
    unfold QuoteDesk.setSlot
    rw [inst_setInst, if_neg hn]
    rfl
  · exact hstanding
  · intro s' l hz
    rw [hslot, if_neg fun h => hz h.2]
    rfl
  · rfl
  · exact ha.placed f
  · intro l y hy
    show (d.place f a).1.oms.get l = some y ↔ _
    rw [hget]
    split_ifs with hl
    · rw [hl, hfree]
      constructor
      · intro h
        obtain rfl := Option.some.inj h
        exact absurd ⟨hinst, htag⟩ (hy s lvl ⟨rfl, rfl⟩)
      · nofun
    · rfl
  · refine fun ho => ⟨fun l y hy hquote => ?_, fun n s' => ?_⟩
    · have hy : (d.place f a).1.oms.get l = some y := hy
      rw [hget] at hy
      split_ifs at hy with hl
      · obtain rfl := Option.some.inj hy
        refine ⟨lvl, hlvl, ?_, ?_⟩
        · rw [hside, htag]
        · rw [hslot, if_pos ⟨hinst, hside, rfl⟩, hxk, hl]
      obtain ⟨lvl', hlvl', hmake, hheld⟩ := ho.held l y hy hquote
      refine ⟨lvl', hlvl', hmake, ?_⟩
      rw [hslot]
      by_cases heq : y.instrument = i ∧ y.side = s ∧ lvl' = lvl
      · exfalso
        simp [heq.1, heq.2.1, heq.2.2, hnone] at hheld
      · rw [if_neg heq]
        exact hheld
    · rw [used_of_standing (hstanding n)]
      exact ho.used n s'

end

end QuoteDesk

end FastMM
