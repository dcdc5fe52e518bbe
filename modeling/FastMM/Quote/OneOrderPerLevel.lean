/-
  Quote/OneOrderPerLevel.lean --- the manager never quotes a level twice.

  Each operation on an instrument is a chain of slot steps and writes of its flags
  (`InstStep`).  All of them keep `Owned`, and so do the messages and the calls others
  make, which bring no order with a quote tag.  In every reachable state, then, a live
  order with a level's tag is the one order the level's slot holds.
-/
import FastMM.Quote.ManagerSteps
import FastMM.Quote.Runs
set_option autoImplicit false

namespace FastMM

open Oms (Calm Familiar)

namespace QuoteDesk

/-- What an operation on the instrument `i` that places the kinds `K` may do. -/
structure InstStep (i : InstrumentId) (K : Side → QuoteActionKind → Prop) (d d' : QuoteDesk) :
    Prop where
  others : ∀ n, n ≠ i.value → (d'.quotes.state n).slots = (d.quotes.state n).slots ∧
    (d'.quotes.state n).standing = (d.quotes.state n).standing
  sideHeld : d'.quotes.sideHeld = d.quotes.sideHeld
  placed : ∃ new, d'.placed = d.placed ++ new ∧ ∀ p ∈ new,
    p.action.instrument = i ∧ K p.action.side p.action.kind
  orders : ∀ h o, o.instrument ≠ i → (d'.oms.get h = some o ↔ d.oms.get h = some o)
  owned : d.Owned → d'.Owned

variable {d d' d'' : QuoteDesk} {f : Placer} {i j : InstrumentId} {s : Side}
  {Z : Side → Nat → Prop} {K : Side → QuoteActionKind → Prop}

theorem value_ne (h : j ≠ i) : i.value ≠ j.value := fun hv => h (InstrumentId.value_inj.mp hv.symm)

namespace InstStep

/-- What is placed after a step was placed before or by it. -/
theorem mem_placed (h : InstStep i K d d') {p : Placement} (hp : p ∈ d'.placed) :
    p ∈ d.placed ∨ p.action.instrument = i ∧ K p.action.side p.action.kind := by
  obtain ⟨new, hnew, hall⟩ := h.placed
  rw [hnew] at hp
  exact (List.mem_append.mp hp).imp id (hall p)

theorem refl (d : QuoteDesk) : InstStep i K d d where
  others _ _ := ⟨rfl, rfl⟩
  sideHeld := rfl
  placed := ⟨[], by simp, by simp⟩
  orders _ _ _ := Iff.rfl
  owned := id

theorem trans (h : InstStep i K d d') (h' : InstStep i K d' d'') : InstStep i K d d'' where
  others n hn :=
    ⟨(h'.others n hn).1.trans (h.others n hn).1, (h'.others n hn).2.trans (h.others n hn).2⟩
  sideHeld := h'.sideHeld.trans h.sideHeld
  placed := appended_trans h.placed h'.placed
  orders k o ho := (h'.orders k o ho).trans (h.orders k o ho)
  owned := h'.owned ∘ h.owned

theorem of_slotStep (h : SlotStep i Z K d d') : InstStep i K d d' where
  others n hn := ⟨h.others n hn, h.standing n⟩
  sideHeld := h.sideHeld
  placed := by
    obtain ⟨new, hnew, hall⟩ := h.placed
    exact ⟨new, hnew, fun p hp => ⟨(hall p hp).1, (hall p hp).2.2⟩⟩
  orders k o ho := h.orders k o fun _ _ _ hq => ho hq.1
  owned := h.owned

/-- A write of the instrument's flags, desired quotes and backoffs, and of what the
slots hold besides their handles. -/
theorem setInst (st : QuoteInstState)
    (hslots : ∀ s lvl, (st.slots s lvl).handle = (d.slot i s lvl).handle)
    (hused : d.Owned → ∀ s, st.used s ≤ kMaxQuoteLevels) : InstStep i K d (d.setInst i st) where
  others n hn := by
    rw [inst_setInst, if_neg hn]
    exact ⟨rfl, rfl⟩
  sideHeld := rfl
  placed := ⟨[], (List.append_nil _).symm, by simp⟩
  orders _ _ _ := Iff.rfl
  owned ho := by
    have hslot : ∀ i' s lvl, ((d.setInst i st).slot i' s lvl).handle =
        (d.slot i' s lvl).handle := by
      intro i' s lvl
      show (((d.setInst i st).quotes.state i'.value).slots s lvl).handle = _
      rw [inst_setInst]
      split_ifs with hv
      · rw [hslots]
        unfold slot inst
        rw [hv]
      · rfl
    constructor
    · intro h o hget hquote
      obtain ⟨lvl, hlvl, hmake, hheld⟩ := ho.held h o hget hquote
      exact ⟨lvl, hlvl, hmake, (hslot _ _ _).trans hheld⟩
    · intro n s
      rw [inst_setInst]
      split
      · exact hused ho s
      · exact ho.used n s

end InstStep

/-! ## The operations on an instrument -/

section Operations

variable (inst : QuotedInstrument)

theorem reconcileSlots_step (n : Nat) (hn : n ≤ kMaxQuoteLevels) (want : Nat → QuoteTarget)
    (hcancel : K s .cancel) (hmore : ∀ lvl, 0 < (want lvl).level.qty → ∀ k, K s k)
    (now : Timestamp) (d : QuoteDesk) :
    SlotStep inst.id (Below s n) K d (d.reconcileSlots f inst s n want now) :=
  fold_step (fun _ lvl hlvl => reconcileSlot_step inst (want lvl) hcancel (hmore lvl) hlvl now) n hn
    d

theorem reconcileSide_step (n : Nat) (hn : n ≤ kMaxQuoteLevels) (want : Nat → QuoteTarget)
    (hcancel : K s .cancel) (hmore : ∀ lvl, 0 < (want lvl).level.qty → ∀ k, K s k)
    (now : Timestamp) (d : QuoteDesk) :
    InstStep inst.id K d (d.reconcileSide f inst s n want now) := by
  obtain ⟨used, hused, _, heq⟩ := reconcileSide_eq (f := f) (s := s) inst n hn want now d
  have hslots := reconcileSlots_step (f := f) inst n hn want hcancel hmore now d
  rw [heq]
  generalize d.reconcileSlots f inst s n want now = d₁ at *
  refine (InstStep.of_slotStep hslots).trans (InstStep.setInst _ (fun _ _ => rfl) ?_)
  exact fun ho s' => update_used_le (ho.used _) (le_trans hused hn) s s'

/-- A held side is asked for nothing. -/
theorem targetOf_held {desired : DesiredQuotes} {lvl : Nat}
    (h : 0 < (d.targetOf desired s lvl).level.qty) : d.quotes.sideHeld s = false := by
  unfold targetOf at h
  dsimp only at h
  split_ifs at h with hcond
  · exact hcond.1
  · exact absurd h (lt_irrefl 0)

theorem reconcileWanted_step (ho : d.Owned) (desired : DesiredQuotes) (hcancel : K s .cancel)
    (hmore : d.quotes.sideHeld s = false → ∀ k, K s k) (now : Timestamp) :
    InstStep inst.id K d (d.reconcileWanted f inst desired s now) := by
  refine reconcileSide_step inst _ ?_ _ hcancel ?_ now d
  · exact max_le (desired.side s).length_le (ho.used _ s)
  · exact fun lvl h => hmore (targetOf_held h)

theorem reconcile_step (ho : d.Owned) (desired : DesiredQuotes) (hcancel : ∀ s, K s .cancel)
    (hmore : ∀ s, d.quotes.sideHeld s = false → ∀ k, K s k) (now : Timestamp) :
    InstStep inst.id K d (d.reconcile f inst desired now) := by
  unfold reconcile
  have hset : InstStep inst.id K d (d.setInst inst.id { d.inst inst.id with
      pulled := false, paused := false, resumable := false, desired := desired }) :=
    InstStep.setInst _ (fun _ _ => rfl) fun ho s => ho.used _ s
  generalize d.setInst inst.id { d.inst inst.id with
    pulled := false, paused := false, resumable := false, desired := desired } = d₁ at *
  have hbuy : InstStep inst.id K d₁ (d₁.reconcileWanted f inst desired .buy now) :=
    reconcileWanted_step inst (hset.owned ho) desired (hcancel _)
      (fun h => hmore _ (by rw [← hset.sideHeld]; exact h)) now
  refine hset.trans (hbuy.trans ?_)
  refine reconcileWanted_step inst (hbuy.owned (hset.owned ho)) desired (hcancel _) ?_ now
  intro h
  rw [hbuy.sideHeld, hset.sideHeld] at h
  exact hmore _ h

theorem pullSlots_step (hcancel : K s .cancel) (n : Nat) (hn : n ≤ kMaxQuoteLevels)
    (d : QuoteDesk) : SlotStep i (Below s n) K d ((List.range n).foldl (pullSlot f i s) d) :=
  fold_step (fun d lvl _ => pullSlot_step hcancel d lvl) n hn d

theorem pullQuotes_step (keepDesired : Bool) (hcancel : ∀ s, K s .cancel) :
    InstStep inst.id K d (d.pullQuotes f inst keepDesired) := by
  unfold pullQuotes
  refine InstStep.trans ?_ ((InstStep.of_slotStep
    (pullSlots_step (hcancel .buy) kMaxQuoteLevels (le_refl _) _)).trans (InstStep.of_slotStep
    (pullSlots_step (hcancel .sell) kMaxQuoteLevels (le_refl _) _)))
  exact InstStep.setInst _ (fun _ _ => rfl) fun ho s => ho.used _ s

theorem pauseQuotes_step (i : InstrumentId) : InstStep i K d (d.pauseQuotes i) := by
  refine InstStep.setInst _ ?_ fun ho s => ho.used _ s
  intro s lvl
  dsimp only
  split <;> rfl

theorem resume_step (ho : d.Owned) (hcancel : ∀ s, K s .cancel)
    (hmore : (d.inst inst.id).resumable = true → ∀ s, d.quotes.sideHeld s = false → ∀ k, K s k)
    (now : Timestamp) : InstStep inst.id K d (d.resume f inst now) := by
  unfold resume
  dsimp only
  have hset : InstStep inst.id K d (d.setInst inst.id { d.inst inst.id with paused := false }) :=
    InstStep.setInst _ (fun _ _ => rfl) fun ho s => ho.used _ s
  refine hset.trans ?_
  split_ifs with hres
  · exact InstStep.refl _
  refine reconcile_step inst (hset.owned ho) _ hcancel (hmore ?_) now
  have hsame : ((d.setInst inst.id { d.inst inst.id with paused := false }).inst
      inst.id).resumable = (d.inst inst.id).resumable := by
    show ((d.setInst _ _).quotes.state inst.id.value).resumable = _
    rw [inst_setInst, if_pos rfl]
  rw [hsame] at hres
  simpa using hres

theorem pullSide_step (ho : d.Owned) (hcancel : K s .cancel) (now : Timestamp) :
    InstStep inst.id K d (d.pullSide f inst s now) := by
  refine reconcileSide_step inst _ (ho.used _ s) _ hcancel ?_ now d
  exact fun _ h => absurd h (lt_irrefl 0)

end Operations

/-! ## The queues -/

theorem Quiet.write (h : Quiet d d') (st : QuoteInstState) (hslots : st.slots = (d'.inst i).slots)
    (hstanding : st.standing = (d'.inst i).standing) : Quiet d (d'.setInst i st) :=
  h.trans (quiet_setInst d' i st hslots hstanding)

section Queues

variable {Inv : QuoteDesk → Prop} {g : InstrumentId → QuoteDesk → QuoteDesk}
  (hquiet : ∀ d d', Quiet d d' → Inv d → Inv d') (hg : ∀ i d, Inv d → Inv (g i d))

include hquiet hg

/-- What quiet writes and the callback keep, the loop of `take_backoff_due` keeps. -/
theorem takeDue_keeps (now : Timestamp) (n : Nat) (d : QuoteDesk) (h : Inv d) :
    Inv (takeDue g now n d) := by
  induction n generalizing d with
  | zero => exact h
  | succ n ih =>
    unfold takeDue
    split
    · exact h
    dsimp only
    split
    · refine ih _ (hquiet d _ ?_ h)
      exact quiet_queues d _ rfl rfl
    refine ih _ (hg _ _ (hquiet d _ (Quiet.write ?_ _ ?_ ?_) h))
    · exact quiet_queues d _ rfl rfl
    · rfl
    · rfl

theorem takeBackoffDue_keeps (now : Timestamp) (d : QuoteDesk) (h : Inv d) :
    Inv (d.takeBackoffDue g now) := by
  unfold takeBackoffDue
  split
  · refine takeDue_keeps hquiet hg now _ _ (hquiet d _ ?_ h)
    exact quiet_queues d _ rfl rfl
  · exact h

theorem takePricedLoop_keeps (n : Nat) (d : QuoteDesk) (h : Inv d) :
    Inv (takePricedLoop g n d) := by
  induction n generalizing d with
  | zero => exact h
  | succ n ih =>
    unfold takePricedLoop
    split
    · exact h
    refine ih _ (hg _ _ (hquiet d _ (Quiet.write ?_ _ ?_ ?_) h))
    · exact quiet_queues d _ rfl rfl
    · rfl
    · rfl

theorem takePriced_keeps (d : QuoteDesk) (h : Inv d) : Inv (d.takePriced g) :=
  takePricedLoop_keeps hquiet hg _ d h

end Queues

theorem quiet_popStarved (d : QuoteDesk) : Quiet d d.popStarved := by
  unfold popStarved
  split
  · exact Quiet.refl d
  refine Quiet.write ?_ _ ?_ ?_
  · exact quiet_queues d _ rfl rfl
  · rfl
  · rfl

theorem quiet_setParams (d : QuoteDesk) (p : QuoteParams) : Quiet d (d.setParams p) :=
  ⟨fun _ => rfl, fun _ => rfl, rfl, rfl, rfl⟩

theorem quiet_setReplace (d : QuoteDesk) (i : InstrumentId) (on : Bool) :
    Quiet d (d.setReplace i on) := quiet_setInst d i _ rfl rfl

/-! ## Runs -/

/-- Every action. -/
def Anything : Side → QuoteActionKind → Prop := fun _ _ => True

theorem anything {s : Side} (k : QuoteActionKind) : Anything s k := trivial

theorem Owned.of_quiet (h : Quiet d d') (ho : d.Owned) : d'.Owned := by
  have hstep : SlotStep .invalid (At .buy 0) Anything d d' := SlotStep.of_quiet h
  exact hstep.owned ho

/-- What keeps an invariant through the operations that have no condition of their
own. -/
structure Keeps (f : Placer) (Inv : QuoteDesk → Prop) : Prop where
  quiet : ∀ d d', Quiet d d' → Inv d → Inv d'
  pull : ∀ d inst keepDesired, Inv d → Inv (d.pullQuotes f inst keepDesired)
  resume : ∀ d inst now, Inv d → Inv (d.resume f inst now)
  side : ∀ d inst s now, Inv d → Inv (d.pullSide f inst s now)
  reapply : ∀ d inst desired now, Inv d → (d.inst inst.id).pulled = false →
    (d.inst inst.id).paused = false → Inv (d.reconcile f inst desired now)
  message : ∀ d m, Inv d → Inv (d.withOms (d.oms.receive m).1)
  calm : ∀ d s, Calm d.oms s → Inv d → Inv (d.withOms s)
  update : ∀ d u inst now, Inv d → Inv (d.onOrderUpdate f u inst now)

namespace Keeps

variable {Inv : QuoteDesk → Prop} (hk : Keeps f Inv)

include hk

theorem retryBackedOff (h : Inv d) (inst : QuotedInstrument) (now : Timestamp) :
    Inv (d.retryBackedOff f inst now) := by
  unfold QuoteDesk.retryBackedOff
  dsimp only
  split_ifs with hgo
  · exact h
  · rw [Bool.not_eq_true, Bool.or_eq_false_iff] at hgo
    exact hk.reapply d inst _ now h hgo.1 hgo.2

theorem retryIf (enabled : InstrumentId → Option QuotedInstrument) (now : Timestamp)
    (i : InstrumentId) (d : QuoteDesk) (h : Inv d) :
    Inv (QuoteDesk.retryIf (fun inst => QuoteDesk.retryBackedOff f inst now) enabled i d) := by
  unfold QuoteDesk.retryIf
  split
  · exact hk.retryBackedOff h _ now
  · exact h

/-- The rule for one operation. -/
theorem run (h : Inv d) (op : QuoteOp)
    (hreconcile : ∀ inst desired now, op = .reconcile inst desired now →
      Inv (d.reconcile f inst desired now))
    (hpause : ∀ i, op = .pauseQuotes i → Inv (d.pauseQuotes i))
    (hhold : ∀ s on, op = .holdSide s on → Inv (d.holdSide s on))
    (hcall : ∀ c, op = .call c → Inv (d.withOms (d.oms.call c))) : Inv (d.run f op) := by
  cases op with
  | setParams p => exact hk.quiet d _ (quiet_setParams d p) h
  | setReplace i on => exact hk.quiet d _ (quiet_setReplace d i on) h
  | reconcile inst desired now => exact hreconcile inst desired now rfl
  | pullQuotes inst keepDesired => exact hk.pull d inst keepDesired h
  | pauseQuotes i => exact hpause i rfl
  | resume inst now => exact hk.resume d inst now h
  | holdSide s on => exact hhold s on rfl
  | pullSide inst s now => exact hk.side d inst s now h
  | reapply inst now =>
    show Inv (d.reapply f inst now)
    unfold QuoteDesk.reapply
    dsimp only
    split_ifs with hgo
    · exact h
    · rw [Bool.not_eq_true, Bool.or_eq_false_iff, Bool.or_eq_false_iff] at hgo
      exact hk.reapply d inst _ now h hgo.1.1 hgo.1.2
  | retry inst now =>
    show Inv (d.retry f inst now)
    unfold QuoteDesk.retry
    dsimp only
    split_ifs with hgo
    · exact h
    · rw [Bool.not_eq_true, Bool.or_eq_false_iff] at hgo
      have hq := quiet_withStats d fun t => { t with retries := t.retries + 1 }
      exact hk.reapply _ inst _ now (hk.quiet d _ hq h) hgo.1 hgo.2
  | retryBackedOff inst now => exact hk.retryBackedOff h inst now
  | retryPriced inst now => exact hk.retryBackedOff h inst now
  | popStarved => exact hk.quiet d _ (quiet_popStarved d) h
  | takeBackoffDue enabled now =>
    exact takeBackoffDue_keeps hk.quiet (hk.retryIf enabled now) now d h
  | takePriced enabled now => exact takePriced_keeps hk.quiet (hk.retryIf enabled now) d h
  | deliver m inst now => exact hk.update _ _ inst now (hk.message d m h)
  | ended k inst now =>
    show Inv (d.endOrder f k inst now)
    unfold endOrder
    split
    · exact h
    · rename_i hone
      exact hk.update _ _ inst now (hk.calm d _ (Oms.calm_reconcileEndOne hone) h)
  | update u inst now => exact hk.update d u inst now h
  | call c => exact hcall c rfl
  | reconcileBegin venue wm => exact hk.calm d _ (Oms.calm_reconcileBegin d.oms venue wm) h

end Keeps

theorem Owned.withOms {s : Oms} (ho : d.Owned) (hkept : Familiar d.oms s) : (d.withOms s).Owned :=
  ho.of_kept hkept (fun _ _ _ => rfl) fun _ => rfl

/-- A call others make. -/
theorem Owned.call (ho : d.Owned) {c : Oms.Call} (hc : Own (.call c)) :
    (d.withOms (d.oms.call c)).Owned := by
  cases c with
  | submit req id now =>
    rcases Oms.submit_get d.oms req id now with ⟨h, _, _, hget⟩ | ⟨_, hget⟩
    · constructor
      · intro k o hk hquote
        have hk : (d.oms.submit req id now).1.get k = some o := hk
        rw [hget] at hk
        split_ifs at hk with hkh
        · obtain rfl := Option.some.inj hk
          have hquote : isQuoteTag req.userTag = true := hquote
          have hc : isQuoteTag req.userTag = false := hc
          exact absurd (hc.symm.trans hquote) (by simp)
        · exact ho.held k o hk hquote
      · exact ho.used
    · exact ho.withOms (Calm.of_get hget).kept
  | requestCancel h => exact ho.withOms (Oms.calm_requestCancel d.oms h).kept
  | requestCancelUnacked h => exact ho.withOms (Oms.calm_requestCancelUnacked d.oms h).kept
  | requestReplace h newId px qty now =>
    exact ho.withOms (Oms.familiar_requestReplace d.oms h newId px qty now)

theorem Owned.update (ho : d.Owned) (u : OmsUpdate) (inst : QuotedInstrument) (now : Timestamp) :
    (d.onOrderUpdate f u inst now).Owned := by
  have hstep : SlotStep inst.id (At (tagSide u.order.userTag) (tagLevel u.order.userTag))
      Anything d (d.onOrderUpdate f u inst now) :=
    onOrderUpdate_step inst u trivial (fun _ _ => anything) now
  exact hstep.owned ho

theorem Owned.reconcile (ho : d.Owned) (inst : QuotedInstrument) (desired : DesiredQuotes)
    (now : Timestamp) : (d.reconcile f inst desired now).Owned := by
  have hstep : InstStep inst.id Anything d (d.reconcile f inst desired now) :=
    reconcile_step inst ho desired (fun _ => trivial) (fun _ _ => anything) now
  exact hstep.owned ho

/-- Every operation keeps what is owned. -/
theorem keeps_owned (f : Placer) : Keeps f Owned where
  quiet _ _ hq ho := ho.of_quiet hq
  pull d inst keepDesired ho := by
    have hstep : InstStep inst.id Anything d (d.pullQuotes f inst keepDesired) :=
      pullQuotes_step inst keepDesired fun _ => trivial
    exact hstep.owned ho
  resume d inst now ho := by
    have hstep : InstStep inst.id Anything d (d.resume f inst now) :=
      resume_step inst ho (fun _ => trivial) (fun _ _ _ => anything) now
    exact hstep.owned ho
  side d inst s now ho := by
    have hstep : InstStep inst.id Anything d (d.pullSide f inst s now) :=
      pullSide_step inst ho trivial now
    exact hstep.owned ho
  reapply _ inst desired now ho _ _ := ho.reconcile inst desired now
  message d m ho := ho.withOms (Oms.kept_receive d.oms m)
  calm _ _ hc ho := ho.withOms hc.kept
  update _ u inst now ho := ho.update u inst now

theorem Owned.run (ho : d.Owned) (op : QuoteOp) (hop : Own op) : (d.run f op).Owned := by
  refine (keeps_owned f).run ho op ?_ ?_ ?_ ?_
  · exact fun inst desired now _ => ho.reconcile inst desired now
  · intro i _
    have hstep : InstStep i Anything d (d.pauseQuotes i) := pauseQuotes_step i
    exact hstep.owned ho
  · exact fun s on _ => ⟨ho.held, ho.used⟩
  · rintro c rfl
    exact ho.call hop

theorem Owned.step (ho : d.Owned) (f : Placer) (op : QuoteOp) (hop : Own op) :
    (d.step f op).Owned := by
  have hstart : Owned { d with placed := [] } := ⟨ho.held, ho.used⟩
  exact hstart.run op hop

theorem Reachable.owned (h : Reachable d) : d.Owned := by
  induction h with
  | init p epoch maxSeq =>
    constructor
    · intro h o hget
      exact absurd hget (by simp [Oms.get, Oms.init, Pool.empty])
    · intro n s
      exact Nat.zero_le _
  | step _ f op hop ih => exact ih.step f op hop

/-- The level has at most one live order, and its slot holds it. -/
structure QuotedOnce (d : QuoteDesk) (i : InstrumentId) (s : Side) (lvl : Nat) : Prop where
  held : ∀ k o, d.oms.get k = some o → o.Quotes i s lvl → (d.slot i s lvl).handle = some k
  unique : ∀ k k' o o', d.oms.get k = some o → o.Quotes i s lvl → d.oms.get k' = some o' →
    o'.Quotes i s lvl → k = k'

/-- In every reachable state, a live order with a level's tag is the one order that the
level's slot holds. -/
theorem one_order_per_level (h : Reachable d) (i : InstrumentId) (s : Side) (lvl : Nat)
    (hlvl : lvl < kMaxQuoteLevels) : d.QuotedOnce i s lvl := by
  have hheld : ∀ k o, d.oms.get k = some o → o.Quotes i s lvl →
      (d.slot i s lvl).handle = some k :=
    fun k o hget hq => (h.owned.handle hlvl hget hq).2
  refine ⟨hheld, ?_⟩
  intro k k' o o' hget hq hget' hq'
  exact Option.some.inj ((hheld k o hget hq).symm.trans (hheld k' o' hget' hq'))

/-- The bid of the example is there, once. -/
theorem one_order_per_level_placed :
    (exampleDesk.oms.get 0).isSome = true ∧ exampleDesk.QuotedOnce ⟨0⟩ .buy 0 :=
  ⟨rfl, one_order_per_level exampleDesk_reachable ⟨0⟩ .buy 0 (by decide)⟩

end QuoteDesk

end FastMM
