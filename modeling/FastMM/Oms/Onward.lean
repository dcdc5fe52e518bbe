/-
  Oms/Onward.lean --- what a message can make of an order.

  An order keeps its instrument, its side and its type, and no message brings it a price
  or an id that it did not have: a replace brings both, and its ack makes them the order's
  own.  A message moves only the order that one of its ids names.
-/
import FastMM.Oms.IdMap
import FastMM.Oms.Told
set_option autoImplicit false

namespace FastMM

namespace Oms

variable {s s' : Oms} {h k : Nat} {o o' : Order} {t : Target}

/-- The price of an order, or of a replace of it that waits for its answer. -/
def WorksAt (o : Order) (p : Price) : Prop :=
  o.price = p ∨ (o.state = .pendingReplace ∧ o.pendingPrice = p)

/-- `o'` is what became of `o` without a call of ours. -/
structure Onward (o o' : Order) : Prop where
  instrument : o'.instrument = o.instrument
  side : o'.side = o.side
  type : o'.type = o.type
  prices : ∀ p, WorksAt o' p → WorksAt o p
  names : ∀ id, Names o' id → Names o id

theorem Onward.refl (o : Order) : Onward o o := ⟨rfl, rfl, rfl, fun _ h => h, fun _ h => h⟩

theorem Onward.trans {o'' : Order} (h₁ : Onward o o') (h₂ : Onward o' o'') : Onward o o'' where
  instrument := h₂.instrument.trans h₁.instrument
  side := h₂.side.trans h₁.side
  type := h₂.type.trans h₁.type
  prices p hp := h₁.prices p (h₂.prices p hp)
  names id hid := h₁.names id (h₂.names id hid)

/-- The same terms, with the same replace waiting or none. -/
theorem Onward.of_sameTerms (hterms : SameTerms o o')
    (hpend : o'.state = .pendingReplace → o.state = .pendingReplace) : Onward o o' where
  instrument := hterms.instrument
  side := hterms.side
  type := hterms.type
  prices p hp := by
    rcases hp with hp | ⟨hst, hp⟩
    · exact .inl (hterms.price.symm.trans hp)
    · exact .inr ⟨hpend hst, hterms.pendingPrice.symm.trans hp⟩
  names id hid := by
    rcases hid with hid | ⟨hst, hid⟩
    · exact .inl (hterms.clOrdId.symm.trans hid)
    · exact .inr ⟨hpend hst, hterms.pendingClOrdId.symm.trans hid⟩

/-- The replace went through. -/
theorem Onward.replaced (hst : o.state = .pendingReplace) (rekey newVenueOrder : Bool) :
    Onward o (replacedOrder o rekey newVenueOrder) := by
  have hidle : (replacedOrder o rekey newVenueOrder).state ≠ .pendingReplace := by
    have hwork := replacedOrder_isWorking o rekey newVenueOrder
    intro hpend
    rw [Order.isWorking, hpend] at hwork
    exact absurd hwork (by decide)
  refine ⟨rfl, rfl, rfl, ?_, ?_⟩
  · rintro p (hp | ⟨hpend, _⟩)
    · exact .inr ⟨hst, hp⟩
    · exact absurd hpend hidle
  · rintro id (hid | ⟨hpend, _⟩)
    · cases rekey with
      | true => exact .inr ⟨hst, hid⟩
      | false => exact .inl hid
    · exact absurd hpend hidle

/-- The replace was withdrawn. -/
theorem Onward.reverted (o : Order) : Onward o { clearedOrder o with state := workingState o } := by
  have hidle := workingState_ne_pendingReplace o
  refine ⟨rfl, rfl, rfl, ?_, ?_⟩
  · rintro p (hp | ⟨hpend, _⟩)
    · exact .inl hp
    · exact absurd hpend hidle
  · rintro id (hid | ⟨hpend, _⟩)
    · exact .inl hid
    · exact absurd hpend hidle

/-! ## Edits -/

/-- Every order of `s'` is an order of `s` onward. -/
def AllOnward (s s' : Oms) : Prop :=
  ∀ k o', s'.get k = some o' → ∃ o, s.get k = some o ∧ Onward o o'

theorem AllOnward.refl (s : Oms) : AllOnward s s := fun _ o' ho => ⟨o', ho, .refl o'⟩

theorem AllOnward.of_slots (hslots : s'.pool.slots = s.pool.slots) : AllOnward s s' :=
  fun k o' ho => ⟨o', (congrFun hslots k).symm.trans ho, .refl o'⟩

theorem AllOnward.trans {s'' : Oms} (h₁ : AllOnward s s') (h₂ : AllOnward s' s'') :
    AllOnward s s'' := by
  intro k o'' ho''
  obtain ⟨o', ho', hon'⟩ := h₂ k o'' ho''
  obtain ⟨o, ho, hon⟩ := h₁ k o' ho'
  exact ⟨o, ho, hon.trans hon'⟩

theorem AllOnward.of_get (ho : s.get h = some o) (hon : Onward o o')
    (hget : ∀ k, s'.get k = if k = h then some o' else s.get k) : AllOnward s s' := by
  intro k p hp
  rw [hget] at hp
  split_ifs at hp with hk
  · rw [← Option.some.inj hp, hk]
    exact ⟨o, ho, hon⟩
  · exact ⟨p, hp, .refl p⟩

theorem Edit.allOnward (he : Edit t s s') : AllOnward s s' := by
  cases he with
  | quiet hq => exact .of_slots hq.slots
  | touch ho hterms _ hpend => exact .of_get ho (.of_sameTerms hterms hpend.mp) (get_setOrder ho _)
  | revert ho hpend => exact .of_get ho (.reverted _) (Pool.slots_set ho)
  | @finish s h _ o' u st br ho hterms =>
    obtain ⟨hnone, hothers⟩ := terminate_get (Near.refl ho) u o' st br
    intro k p hp
    by_cases hk : k = h
    · simp [hk, hnone] at hp
    · exact ⟨p, (hothers k hk).symm.trans hp, .refl p⟩
  | absorb reported u ho =>
    rw [absorbCum_fst]
    split
    · exact .refl s
    · refine AllOnward.of_get ho ?_ (Pool.slots_set ho)
      exact ⟨rfl, rfl, rfl, fun _ hp => hp, fun _ hid => hid⟩
  | fill m corrected vid ho =>
    refine AllOnward.of_get ho ?_ (Pool.slots_set ho)
    exact ⟨rfl, rfl, rfl, fun _ hp => hp, fun _ hid => hid⟩
  | take qty _ _ => exact .of_slots rfl
  | takeRecord qty _ _ => exact .of_slots rfl
  | late cum st _ => exact .of_slots rfl
  | replace u newVenueOrder ho hpend =>
    exact .of_get ho (.replaced hpend _ _) (near_applyReplace ho u _ _)

/-- An edit of one order leaves the others as they are. -/
theorem Edit.others (he : Edit t s s') (hk : t ≠ .slot k) : s'.get k = s.get k := by
  have hne : ∀ {h : Nat}, Target.slot h ≠ .slot k → k ≠ h := fun hs heq => hs (by rw [heq])
  cases he with
  | quiet hq => exact congrFun hq.slots k
  | touch ho _ _ _ => exact (get_setOrder ho _ k).trans (if_neg (hne hk))
  | revert ho _ => exact (Pool.slots_set ho k).trans (if_neg (hne hk))
  | finish u st br ho _ => exact (terminate_get (Near.refl ho) u _ st br).2 k (hne hk)
  | absorb reported u ho =>
    rw [absorbCum_fst]
    split
    · rfl
    · exact (Pool.slots_set ho k).trans (if_neg (hne hk))
  | fill m corrected vid ho => exact (Pool.slots_set ho k).trans (if_neg (hne hk))
  | take qty _ _ => rfl
  | takeRecord qty _ _ => rfl
  | late cum st _ => rfl
  | replace u newVenueOrder ho _ =>
    exact (near_applyReplace ho u _ _ k).trans (if_neg (hne hk))

theorem Edits.allOnward (he : Edits t s s') : AllOnward s s' :=
  have hstep : ∀ s₁ s₂, AllOnward s s₁ → Edit t s₁ s₂ → AllOnward s s₂ :=
    fun _ _ hs he => hs.trans he.allOnward
  Edits.keeps hstep he (.refl s)

theorem Edits.others (he : Edits t s s') (hk : t ≠ .slot k) : s'.get k = s.get k :=
  have hstep : ∀ s₁ s₂, s₁.get k = s.get k → Edit t s₁ s₂ → s₂.get k = s.get k :=
    fun _ _ hs he => (he.others hk).trans hs
  Edits.keeps hstep he rfl

/-! ## Messages -/

theorem heard_get (s : Oms) (m : Msg) (k : Nat) : (s.heard m).get k = s.get k := by
  obtain ⟨seen, hseen⟩ := s.heard_eq m
  rw [hseen]
  rfl

theorem receive_allOnward (hok : IdsOk s) (m : Msg) : AllOnward s (s.receive m).1 := by
  have hheard : AllOnward s (s.heard m) := .of_slots (funext (heard_get s m))
  exact hheard.trans (receive_edits m hok.live).allOnward

/-- A message leaves an order it does not name as it is. -/
theorem receive_other (hok : IdsOk s) {m : Msg} (ho : s.get k = some o)
    (hname : ¬ Names o m.clOrdId) : (s.receive m).1.get k = some o := by
  have htarget : s.target m.clOrdId ≠ .slot k := by
    intro hslot
    obtain ⟨p, hp, hn⟩ := hok.named _ _ (target_eq_slot.mp hslot)
    rw [Option.some.inj (hp.symm.trans ho)] at hn
    exact hname hn
  rw [(receive_edits m hok.live).others htarget, heard_get, ho]

/-- Whatever messages come, every order there is afterwards was there before, with its instrument,
side and type, at a price and under an id that it had or waited for; and an order that none of
them names is as it was. -/
theorem messages_only_move_named (hs : Reachable ValidReplace s) (ms : List Msg) :
    AllOnward s (ms.foldl (fun s m => (s.receive m).1) s) ∧
      ∀ k o, s.get k = some o → (∀ m ∈ ms, ¬ Names o m.clOrdId) →
        (ms.foldl (fun s m => (s.receive m).1) s).get k = some o := by
  induction ms generalizing s with
  | nil => exact ⟨AllOnward.refl s, fun k o ho _ => ho⟩
  | cons m ms ih =>
    have hok : IdsOk s := (Reachable.with_idsOk (fun _ _ h => h) (fun _ _ => trivial)
      (fun _ _ _ => trivial) (fun _ _ _ _ _ => trivial) (fun _ _ _ _ _ _ => trivial)
      (fun _ _ _ _ _ _ _ _ => trivial) hs).1
    obtain ⟨honward, hothers⟩ := ih (hs.msg m)
    refine ⟨(receive_allOnward hok m).trans honward, fun k o ho hnames => ?_⟩
    rw [List.forall_mem_cons] at hnames
    exact hothers k o (receive_other hok ho hnames.1) hnames.2

/-- Two orders that rest, and the first to be replaced at a better price. -/
def twoWorking : Oms :=
  let s := (init 1 kMaxSeq).call (.submit { instrument := ⟨3⟩, price := 6, qty := 5 } ⟨1⟩ 0)
  let s := (s.receive (.ack { clOrdId := ⟨1⟩ })).1
  let s := s.call (.submit { instrument := ⟨3⟩, price := 7, qty := 5 } ⟨2⟩ 1)
  let s := (s.receive (.ack { clOrdId := ⟨2⟩ })).1
  s.call (.requestReplace 0 ⟨4⟩ 8 5 2)

theorem messages_only_move_named_replaced :
    let s := (twoWorking.receive (.ack { clOrdId := ⟨4⟩ })).1
    AllOnward twoWorking s ∧ s.get 1 = twoWorking.get 1 ∧ (s.get 0).map Order.price = some 8 ∧
      (twoWorking.get 0).map Order.price = some 6 := by
  have hfirst := ((Reachable.init 1 kMaxSeq).call (show ValidReplace _
    (.submit { instrument := ⟨3⟩, price := 6, qty := 5 } ⟨1⟩ 0) from trivial)).msg
      (.ack { clOrdId := ⟨1⟩ })
  have hboth := (hfirst.call (show ValidReplace _
    (.submit { instrument := ⟨3⟩, price := 7, qty := 5 } ⟨2⟩ 1) from trivial)).msg
      (.ack { clOrdId := ⟨2⟩ })
  have hreach : Reachable ValidReplace twoWorking :=
    hboth.call (show ValidReplace _ (.requestReplace 0 ⟨4⟩ 8 5 2) from rfl)
  obtain ⟨honward, hothers⟩ := messages_only_move_named hreach [.ack { clOrdId := ⟨4⟩ }]
  have hsecond : twoWorking.get 1 = some { submittedOrder
      { instrument := ⟨3⟩, price := 7, qty := 5 } ⟨2⟩ 1 with state := .live } := rfl
  exact ⟨honward, hothers 1 _ hsecond (by simp [Names, Msg.clOrdId, submittedOrder]), rfl, rfl⟩

end Oms

end FastMM
