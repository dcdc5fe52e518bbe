/-
  Oms/Executions.lean --- the executions of one order, in whatever order they
  arrive.

  A venue executes an order in steps; each execution is reported live, with the
  venue's cumulative quantity after it, or replayed from a trade history without
  one.  Messages are delayed, reordered and repeated, and reports of the
  cumulative quantity (snapshots, cancel acks, expiries) arrive in between.  A
  `World` is the order management beside what the venue has executed, which
  executions have been delivered, and the quantity booked for the order.

  Everything else the order management does is traffic: other orders come and
  go, end, and push the order's record out of the ring.
-/
import FastMM.Oms.Booking
set_option autoImplicit false

namespace FastMM

open Foundation

namespace Oms

/-! ## A venue order -/

/-- An order at a venue and its executions, in the order the venue made them. -/
structure VenueOrder where
  id : ClientOrderId
  instrument : InstrumentId
  side : Side
  qty : Qty
  /-- The number of executions. -/
  n : Nat
  execQty : Nat → Qty
  execId : Nat → ExecId
  execQty_pos : ∀ i < n, 0 < execQty i
  execId_nonempty : ∀ i < n, (execId i).empty = false
  execId_distinct : ∀ i < n, ∀ j < n, execId i = execId j → i = j
  total_le : ∑ i ∈ Finset.range n, execQty i ≤ qty

namespace VenueOrder

variable (V : VenueOrder)
variable {D : Finset Nat}

/-- The cumulative quantity after the first `i` executions. -/
def cum (i : Nat) : Qty := ∑ j ∈ Finset.range i, V.execQty j

/-- The quantity of some of the executions. -/
def sum (D : Finset Nat) : Qty := ∑ i ∈ D, V.execQty i

/-- The key an execution is filed under. -/
def key (i : Nat) : UInt64 :=
  execKey {
    hdr := { instrument := V.instrument }
    clOrdId := V.id
    execId := V.execId i
    side := V.side }

/-- A fill message that reports execution `i`. -/
structure Reports (i : Nat) (m : OrderFillMsg) : Prop where
  clOrdId : m.clOrdId = V.id
  instrument : m.hdr.instrument = V.instrument
  side : m.side = V.side
  execId : m.execId = V.execId i
  qty : m.qty = V.execQty i

/-- Execution `i` as the venue reports it live. -/
structure Live (i : Nat) (m : OrderFillMsg) : Prop extends V.Reports i m where
  live : m.replayed = false
  cumQty : m.cumQty = V.cum (i + 1)

/-- Execution `i` from a replayed trade history. -/
structure Replayed (i : Nat) (m : OrderFillMsg) : Prop extends V.Reports i m where
  replayed : m.replayed = true
  cumQty : m.cumQty = 0

/-- No two executions share a key of the execution memory. -/
def KeysDistinct : Prop := ∀ i < V.n, ∀ j < V.n, V.key i = V.key j → i = j

instance : Decidable V.KeysDistinct :=
  inferInstanceAs (Decidable (∀ i < V.n, ∀ j < V.n, V.key i = V.key j → i = j))

variable {V}

theorem Reports.execKey {i : Nat} {m : OrderFillMsg} (h : V.Reports i m) :
    Oms.execKey m = V.key i := by
  unfold key Oms.execKey
  rw [h.instrument, h.side, h.execId]

theorem cum_succ (i : Nat) : V.cum (i + 1) = V.cum i + V.execQty i :=
  Finset.sum_range_succ _ _

theorem cum_mono {i j : Nat} (hij : i ≤ j) (hj : j ≤ V.n) : V.cum i ≤ V.cum j := by
  refine Finset.sum_le_sum_of_subset_of_nonneg (Finset.range_mono hij) ?_
  intro k hk _
  exact le_of_lt (V.execQty_pos k (by have := Finset.mem_range.mp hk; omega))

theorem cum_nonneg {i : Nat} (hi : i ≤ V.n) : 0 ≤ V.cum i := cum_mono (Nat.zero_le i) hi

theorem sum_insert {i : Nat} (hi : i ∉ D) :
    V.sum (insert i D) = V.execQty i + V.sum D := Finset.sum_insert hi

/-- Executions within a cumulative quantity add up to no more. -/
theorem sum_le (hD : ∀ i ∈ D, i < V.n) {x : Qty} (hx : 0 ≤ x)
    (hrun : ∀ i ∈ D, V.cum (i + 1) ≤ x) : V.sum D ≤ x :=
  sum_le_of_running_total_le (fun i hi => le_of_lt (V.execQty_pos i hi)) hD hx hrun

theorem sum_le_cum {j : Nat} (hD : ∀ i ∈ D, i < j) (hj : j ≤ V.n) :
    V.sum D ≤ V.cum j :=
  sum_le (fun i hi => lt_of_lt_of_le (hD i hi) hj) (cum_nonneg hj)
    fun i hi => cum_mono (hD i hi) hj

end VenueOrder

/-! ## What a ledger says of the executions -/

/-- The ledger and the bookings agree with the executions: every delivered one is
within the cumulative quantity, the estimate stands for quantity no delivered one
names, and what is booked is what was delivered and the estimate. -/
structure Conserved (V : VenueOrder) (executed : Nat) (D : Finset Nat) (booked : Qty)
    (L : Ledger) : Prop where
  qty : L.qty = V.qty
  covered : ∀ i ∈ D, V.cum (i + 1) ≤ L.cum
  est_nonneg : 0 ≤ L.est
  est_le : L.est ≤ L.cum - V.sum D
  booked : booked = V.sum D + L.est
  cum_le : L.cum ≤ V.cum executed

section Conserved

variable {V : VenueOrder} {executed : Nat} {D : Finset Nat} {booked : Qty} {L L' : Ledger}
variable {m : OrderFillMsg}
variable {i : Nat}

/-- The part of the estimate a live execution names: what of it lies at or below
the cumulative quantity, as far as the estimate goes. -/
theorem Ledger.named_live (hm : V.Live i m) (hi : i < V.n) :
    L.named m = max 0 (min (min (V.execQty i) (L.cum - V.cum i)) L.est) := by
  have hpos : 0 < m.cumQty := by
    have h1 := V.execQty_pos i hi
    have h2 := V.cum_nonneg (le_of_lt hi)
    rw [hm.cumQty, V.cum_succ]
    linarith
  have hrest : L.cum - (m.cumQty - V.execQty i) = L.cum - V.cum i := by
    rw [hm.cumQty, V.cum_succ]
    ring
  unfold Ledger.named namedQty
  rw [if_pos (show m.replayed = false ∧ 0 < m.cumQty from ⟨hm.live, hpos⟩)]
  simp only [hm.qty, hrest]
  have hcov : (if V.execQty i < L.cum - V.cum i then V.execQty i else L.cum - V.cum i) =
      min (V.execQty i) (L.cum - V.cum i) := by
    rw [min_def]
    split <;> split <;> linarith
  rw [hcov]
  generalize min (V.execQty i) (L.cum - V.cum i) = cov
  by_cases he : 0 < L.est
  · rw [if_pos he]
    by_cases hc : 0 < cov
    · rw [if_pos hc]
      exact (max_eq_right (le_of_lt (lt_min hc he))).symm
    · rw [if_neg hc]
      exact (max_eq_left (le_trans (min_le_left _ _) (not_lt.mp hc))).symm
  · rw [if_neg he]
    exact (max_eq_left (le_trans (min_le_right _ _) (not_lt.mp he))).symm

/-- A live execution reaches its own cumulative quantity, never more. -/
theorem Ledger.filledTo_live (hm : V.Live i m) (hi : i < V.n)
    (hqty : L.qty = V.qty) : L.filledTo m = max L.cum (V.cum (i + 1)) := by
  have hpos : 0 < m.cumQty := by
    have h1 := V.execQty_pos i hi
    have h2 := V.cum_nonneg (le_of_lt hi)
    rw [hm.cumQty, V.cum_succ]
    linarith
  have hle : V.cum (i + 1) ≤ V.qty :=
    le_trans (V.cum_mono (Nat.succ_le_of_lt hi) (le_refl _)) V.total_le
  unfold Ledger.filledTo
  rw [if_pos hpos, hm.cumQty, hqty, min_eq_right hle]

section

variable (h : Conserved V executed D booked L)
include h

/-- A live execution conserves: what it names leaves the estimate, the rest is
new. -/
theorem Conserved.live
    (hm : V.Live i m) (hD : ∀ j ∈ D, j < executed) (hex : executed ≤ V.n) (hi : i < executed)
    (hnew : i ∉ D) (hL : L.Moved (L.filledTo m) (L.est - L.named m) L') :
    Conserved V executed (insert i D) (booked + (m.qty - L.named m)) L' := by
  have hin : i < V.n := lt_of_lt_of_le hi hex
  have hnamed := Ledger.named_live (L := L) hm hin
  have hto := Ledger.filledTo_live hm hin h.qty
  have hq := V.execQty_pos i hin
  have hsucc := V.cum_succ i
  have hcov : ∀ j ∈ insert i D, V.cum (j + 1) ≤ L'.cum := by
    intro j hj
    rw [hL.cum, hto]
    rcases Finset.mem_insert.mp hj with rfl | hj
    · exact le_max_right _ _
    · exact le_trans (h.covered j hj) (le_max_left _ _)
  -- Everything delivered, this one included, lies within the new count.
  have hsum : V.sum (insert i D) ≤ L'.cum := by
    refine V.sum_le ?_ ?_ hcov
    · intro j hj
      rcases Finset.mem_insert.mp hj with rfl | hj
      · exact hin
      · exact lt_of_lt_of_le (hD j hj) hex
    · rw [hL.cum, hto]
      exact le_trans (V.cum_nonneg (Nat.succ_le_of_lt hin)) (le_max_right _ _)
  have hins := V.sum_insert hnew
  have hestle := h.est_le
  have hest0 := h.est_nonneg
  refine ⟨hL.qty.trans h.qty, hcov, ?_, ?_, ?_, ?_⟩
  · rw [hL.est, hnamed]
    have : max 0 (min (min (V.execQty i) (L.cum - V.cum i)) L.est) ≤ L.est :=
      max_le hest0 (min_le_right _ _)
    linarith
  · rw [hL.est, hnamed]
    rw [hL.cum, hto] at hsum ⊢
    rw [hins] at hsum ⊢
    rcases le_total (min (V.execQty i) (L.cum - V.cum i)) L.est with hle | hle
    · -- The estimate outlasts what the execution names.
      rw [min_eq_left hle]
      rcases le_total (V.execQty i) (L.cum - V.cum i) with hc | hc
      · rw [min_eq_left hc, max_eq_right (le_of_lt hq), max_eq_left (by linarith)]
        linarith
      rw [min_eq_right hc, max_eq_right (a := L.cum) (by linarith)]
      rcases le_total 0 (L.cum - V.cum i) with h0 | h0
      · rw [max_eq_right h0]
        linarith
      · rw [max_eq_left h0]
        linarith
    · -- The execution names all of it.
      rw [min_eq_right hle, max_eq_right hest0]
      linarith
  · rw [h.booked, hL.est, hins, hm.qty]
    ring
  · rw [hL.cum, hto]
    exact max_le h.cum_le (V.cum_mono (Nat.succ_le_of_lt hi) hex)

/-- A report conserves: what it finds is booked and kept as an estimate. -/
theorem Conserved.report {c : Qty}
    (hc : c ≤ V.cum executed)
    (hL : L.Moved (L.reportedTo c) (L.est + (L.reportedTo c - L.cum)) L') :
    Conserved V executed D (booked + (L.reportedTo c - L.cum)) L' := by
  have hge : L.cum ≤ L.reportedTo c := by
    unfold Ledger.reportedTo
    split
    · exact le_refl _
    · exact le_max_left _ _
  have hle : L.reportedTo c ≤ V.cum executed := by
    unfold Ledger.reportedTo
    split
    · exact h.cum_le
    · exact max_le h.cum_le (le_trans (min_le_right _ _) hc)
  have hestle := h.est_le
  have hest0 := h.est_nonneg
  refine ⟨hL.qty.trans h.qty, ?_, ?_, ?_, ?_, ?_⟩
  · intro i hi
    rw [hL.cum]
    exact le_trans (h.covered i hi) hge
  · rw [hL.est]
    linarith
  · rw [hL.est, hL.cum]
    linarith
  · rw [h.booked, hL.est]
    ring
  · rw [hL.cum]
    exact hle

theorem Conserved.settled (hL : L.Settled L') :
    Conserved V executed D booked L' := by
  refine ⟨hL.qty.trans h.qty, ?_, ?_, ?_, ?_, ?_⟩
  · rw [hL.cum]
    exact h.covered
  · rw [hL.est]
    exact h.est_nonneg
  · rw [hL.est, hL.cum]
    exact h.est_le
  · rw [hL.est]
    exact h.booked
  · rw [hL.cum]
    exact h.cum_le

theorem Conserved.execute (hex : executed < V.n) :
    Conserved V (executed + 1) D booked L :=
  { h with cum_le := le_trans h.cum_le (V.cum_mono (Nat.le_succ _) hex) }

/-- An execution of an order no longer known is booked in full, and with nothing
estimated that conserves. -/
theorem Conserved.unknown (hest : booked = V.sum D) (hD : ∀ j ∈ D, j < executed)
    (hex : executed ≤ V.n) (hi : i < executed) (hnew : i ∉ D) :
    Conserved V executed (insert i D) (booked + V.execQty i)
      { L with cum := V.cum executed, est := 0 } := by
  have hlt : ∀ j ∈ insert i D, j < executed := by
    intro j hj
    rcases Finset.mem_insert.mp hj with rfl | hj
    · exact hi
    · exact hD j hj
  refine ⟨h.qty, ?_, le_refl _, ?_, ?_, le_refl _⟩
  · exact fun j hj => V.cum_mono (hlt j hj) hex
  · have := V.sum_le_cum hlt hex
    linarith
  · rw [hest, V.sum_insert hnew]
    ring

theorem Conserved.booked_le :
    booked ≤ V.cum executed := by
  have h1 := h.est_le
  have h2 := h.cum_le
  rw [h.booked]
  linarith

/-- Every execution delivered: nothing is estimated any more. -/
theorem Conserved.all_delivered
    (hD : ∀ j ∈ D, j < executed) (hex : executed ≤ V.n) (hall : ∀ i < V.n, i ∈ D) :
    booked = V.cum V.n ∧ L.est = 0 := by
  have hDeq : D = Finset.range V.n := by
    ext i
    rw [Finset.mem_range]
    exact ⟨fun hi => lt_of_lt_of_le (hD i hi) hex, hall i⟩
  have hsum : V.sum D = V.cum V.n := by
    rw [hDeq]
    rfl
  have h1 := h.est_le
  have h2 := h.cum_le
  have h3 := V.cum_mono hex (le_refl _)
  have h4 := h.est_nonneg
  have hest : L.est = 0 := by linarith
  refine ⟨?_, hest⟩
  rw [h.booked, hsum, hest, add_zero]

end

end Conserved

/-! ## Traffic -/

/-- A call that is not about the order: nothing is submitted or replaced under its
id, and the order itself is not replaced. -/
def OtherCall (id : ClientOrderId) (s : Oms) (c : Call) : Prop :=
  PositiveQty s c ∧
    match c with
    | .submit _ k _ => k ≠ id
    | .requestReplace h newId _ _ _ => newId ≠ id ∧ s.openHandle id ≠ some h
    | _ => True

/-- A message about another order, whose execution has none of the keys. -/
def OtherMsg (id : ClientOrderId) (keys : UInt64 → Prop) (m : Msg) : Prop :=
  m.clOrdId ≠ id ∧ ∀ f, m = .fill f → f.execId.empty = false → ¬ keys (execKey f)

/-- The order's ledger, since it was `L` in `s`: counted the same, or forgotten. -/
structure Kept (id : ClientOrderId) (keys : UInt64 → Prop) (s : Oms) (L : Ledger) (s' : Oms) :
    Prop where
  ids : IdsOk s'
  ledger : s'.ids.find id = none ∨ ∃ L', s'.ledger id = some L' ∧ L.Settled L'
  seen : ∀ k, keys k → k ∈ s'.execSeen.keys → k ∈ s.execSeen.keys

/-- An order under its own id, with no replace in flight. -/
structure Ledger.Plain (L : Ledger) : Prop where
  own : L.own = true
  idle : L.pending = none

section Traffic

variable {id : ClientOrderId} {keys : UInt64 → Prop} {s s₁ s₂ : Oms} {L L' L'' : Ledger}

theorem Ledger.Moved.plain {cum est : Qty} (h : L.Moved cum est L') (hL : L.Plain) : L'.Plain where
  own := h.own.trans hL.own
  idle := by rw [h.pending, hL.idle, ite_self]

theorem Ledger.Moved.settle {cum est : Qty} (h : L.Moved cum est L') (h' : L'.Settled L'') :
    L.Moved cum est L'' where
  qty := h'.qty.trans h.qty
  cum := h'.cum.trans h.cum
  est := h'.est.trans h.est
  filled := by
    intro hf
    rcases h'.filled hf with hf | hf
    · rcases h.filled hf with hf | hf
      · exact Or.inl hf
      · right
        rw [h'.qty, h'.cum]
        exact hf
    · exact Or.inr hf
  own := h'.own.trans h.own
  pending := by
    rw [h'.pending, h.pending]
    cases hend : L'.ended with
    | true => simp [h'.ended hend]
    | false => simp
  ended := fun hend => h'.ended (h.ended hend)

theorem Kept.frame (h : Kept id keys s L s₁) (hok : IdsOk s₂) (hf : Frame id s₁ s₂)
    (hseen : ∀ k, keys k → k ∈ s₂.execSeen.keys → k ∈ s₁.execSeen.keys) : Kept id keys s L s₂ where
  ids := hok
  ledger := by
    rcases hf with ⟨hn, _⟩ | ⟨hfind, hled⟩
    · exact Or.inl hn
    · rw [hfind, hled]
      exact h.ledger
  seen := fun k hk hin => h.seen k hk (hseen k hk hin)

/-- What another id names is not what the order's id names. -/
theorem apart_of_ne {k : ClientOrderId} (hok : IdsOk s) (hne : k ≠ id)
    (hplain : s.ids.find id = none ∨ ∃ L, s.ledger id = some L ∧ L.Plain) :
    Apart id (s.target k) s := by
  rcases hplain with hf | ⟨L, hl, hL⟩
  · exact Or.inl hf
  refine Or.inr ?_
  intro heq
  rcases ledger_cases hl with ⟨h, o, hf, ho, rfl⟩ | ⟨v, r, hf, _, _⟩
  · rw [target_eq_slot.mpr hf] at heq
    obtain ⟨p, hp, hn⟩ := hok.named k h (target_eq_slot.mp heq.symm)
    rw [ho] at hp
    rw [← Option.some.inj hp] at hn
    rcases hn with hn | ⟨hst, _⟩
    · have hid : o.clOrdId = id := by simpa [openLedger] using hL.own
      exact hne (hn.symm.trans hid)
    · exact absurd hst (pendingLeg_eq_none.mp hL.idle)
  · have hrecord : s.target id = .record id := by
      unfold target
      rw [hf]
    exact hne (target_eq_record (heq.symm.trans hrecord))

theorem Kept.plain (h : Kept id keys s L s₁) (hL : L.Plain) :
    s₁.ids.find id = none ∨ ∃ L', s₁.ledger id = some L' ∧ L'.Plain := by
  rcases h.ledger with hf | ⟨L', hl, hset⟩
  · exact Or.inl hf
  · exact Or.inr ⟨L', hl, hset.plain hL⟩

/-- A call that is not about the order. -/
theorem OtherCall.frame (hok : IdsOk s) {c : Call} (hc : OtherCall id s c) :
    IdsOk (s.call c) ∧ Frame id s (s.call c) := by
  obtain ⟨hpos, hc⟩ := hc
  cases c with
  | submit req k now => exact ⟨hok.submit req k now, Frame.of_submit hok (Ne.symm hc)⟩
  | requestCancel j =>
    have ht := (s.requestCancel_touched j).1
    exact ⟨Edits.keeps (fun _ _ hs he => hs.edit he) ht.edits hok, Frame.of_touched hok ht⟩
  | requestCancelUnacked j =>
    have ht := (s.requestCancel_touched j).2
    exact ⟨Edits.keeps (fun _ _ hs he => hs.edit he) ht.edits hok, Frame.of_touched hok ht⟩
  | requestReplace j newId px qty now =>
    have hvalid : newId ≠ .invalid := (ClientOrderId.valid_eq_true_iff _).mp hpos.1
    have hap : Apart id (.slot j) s := by
      unfold Apart target
      have hne := hc.2
      unfold openHandle at hne
      cases hf : s.ids.find id with
      | none => exact Or.inl rfl
      | some ref =>
        rw [hf] at hne
        cases ref with
        | opened k =>
          right
          intro heq
          exact hne (congrArg some (Target.slot.inj heq))
        | terminal v => exact Or.inr (by simp)
    exact ⟨hok.requestReplace j newId px qty now hvalid,
      Frame.of_requestReplace hok hvalid hap (Ne.symm hc.1)⟩

theorem Kept.call (h : Kept id keys s L s₁) {c : Call} (hc : OtherCall id s₁ c) :
    Kept id keys s L (s₁.call c) := by
  obtain ⟨hok, hfr⟩ := hc.frame h.ids
  refine h.frame hok hfr ?_
  intro k _ hk
  rw [call_execSeen] at hk
  exact hk

/-- A message about what the id does not name. -/
theorem receive_frame (hok : IdsOk s) (id : ClientOrderId) (m : Msg)
    (hap : Apart id (s.target m.clOrdId) s) :
    IdsOk (s.receive m).1 ∧ Frame id s (s.receive m).1 := by
  have hedits := receive_edits m hok.live
  obtain ⟨seen, hheard⟩ := s.heard_eq m
  have hok' : IdsOk (s.heard m) := by
    rw [hheard]
    exact hok.of_eq rfl rfl rfl
  have hap' : Apart id (s.target m.clOrdId) (s.heard m) := by
    rw [hheard]
    exact hap
  have hfr : Frame id s (s.heard m) := by
    rw [hheard]
    exact Frame.of_eq hok rfl rfl rfl rfl
  exact ⟨Edits.keeps (fun _ _ hs he => hs.edit he) hedits hok',
    hfr.trans (hedits.frame hok' hap')⟩

theorem Kept.msg (h : Kept id keys s L s₁) (hL : L.Plain) {m : Msg} (hm : OtherMsg id keys m) :
    Kept id keys s L (s₁.receive m).1 := by
  obtain ⟨hok, hfr⟩ := receive_frame h.ids id m (apart_of_ne h.ids hm.1 (h.plain hL))
  refine h.frame hok hfr ?_
  intro k hk hin
  rw [receive_execSeen h.ids] at hin
  rcases mem_heard hin with hin | ⟨f, hf, hid, rfl⟩
  · exact hin
  · exact absurd hk (hm.2 f hf hid)

theorem Kept.begin (h : Kept id keys s L s₁) (venue : VenueId) (wm : Option ClientOrderId) :
    Kept id keys s L (s₁.reconcileBegin venue wm) := by
  refine reconcileBegin_keeps ?_ ?_ s₁ venue wm h
  · intro s₂ s₃ hs₂ halike
    refine hs₂.frame (hs₂.ids.edit (Edit.quiet (t := .none) halike))
      (Frame.of_eq hs₂.ids halike.ids halike.slots halike.estimates halike.recentlyTerminal) ?_
    intro k _ hk
    rw [halike.execSeen] at hk
    exact hk
  · intro j s₂ s₃ hs₂ ht
    refine hs₂.frame (Edits.keeps (fun _ _ hs he => hs.edit he) ht.edits hs₂.ids)
      (Frame.of_touched hs₂.ids ht) ?_
    intro k _ hk
    rw [ht.edits.execSeen] at hk
    exact hk

/-- The order ended by `reconcile_end`: canceled, with its quantities. -/
theorem reconcileEndOne_ledger {h : Nat} {o : Order} {u : OmsUpdate} (hok : IdsOk s)
    (ho : s.get h = some o) (hid : o.clOrdId = id) (hone : s.reconcileEndOne h = some (s₁, u)) :
    ∃ L', s₁.ledger id = some L' ∧ (openLedger o (s.estimates h) id).Settled L' ∧
      L'.ended = true ∧ DropsPending id (openLedger o (s.estimates h) id) L' s₁ := by
  subst hid
  unfold reconcileEndOne at hone
  simp only [ho, Option.some.injEq] at hone
  have hs₁ : s₁ = _ := (congrArg Prod.fst hone).symm
  have hend : ∀ (f : OmsStats → OmsStats) (u : OmsUpdate), ∃ L',
      ((s.withStats f).terminate u h { o with flags := { o.flags with reconciled := true } }
        .canceled true).1.ledger o.clOrdId = some L' ∧
      (openLedger o (s.estimates h) o.clOrdId).Settled L' ∧ L'.ended = true ∧
      DropsPending o.clOrdId (openLedger o (s.estimates h) o.clOrdId) L'
        ((s.withStats f).terminate u h { o with flags := { o.flags with reconciled := true } }
          .canceled true).1 := by
    intro f u
    have hok' : IdsOk (s.withStats f) := hok.of_eq rfl rfl rfl
    have hterms : SameTerms o { o with flags := { o.flags with reconciled := true } } := by
      constructor <;> rfl
    have hl := ledger_terminate hok' (s := s.withStats f) ho hterms u .canceled true
    refine ⟨_, hl, recordLedger_moved rfl rfl .canceled true (nofun) _ _,
      rfl, ?_⟩
    intro b q hpend hne _
    exact find_pending_terminate hok' (s := s.withStats f) ho hterms hpend hne u .canceled true
  rw [hs₁]
  split
  · exact hend _ _
  · exact hend (fun st => st) _

theorem Kept.end_one (h : Kept id keys s L s₁) (hL : L.Plain) {j : Nat} {u : OmsUpdate}
    (hone : s₁.reconcileEndOne j = some (s₂, u)) : Kept id keys s L s₂ := by
  have hedits := reconcileEndOne_edits hone
  have hok := Edits.keeps (fun _ _ hs he => hs.edit he) hedits h.ids
  have hseen : ∀ k, keys k → k ∈ s₂.execSeen.keys → k ∈ s₁.execSeen.keys := by
    intro k _ hk
    rw [hedits.execSeen] at hk
    exact hk
  by_cases hap : Apart id (.slot j) s₁
  · exact h.frame hok (hedits.frame h.ids hap) hseen
  -- The pass ends the order itself.
  refine ⟨hok, ?_, fun k hk hin => h.seen k hk (hseen k hk hin)⟩
  rcases h.ledger with hf | ⟨L', hl, hset⟩
  · exact absurd (Or.inl hf) hap
  have hplain := hset.plain hL
  rcases ledger_cases hl with ⟨i, o, hf, ho, rfl⟩ | ⟨v, r, hf, _, _⟩
  · have hij : i = j := by
      by_contra hne
      refine hap (Or.inr ?_)
      rw [target_eq_slot.mpr hf]
      simpa using hne
    rw [hij] at ho hset
    have hid : o.clOrdId = id := by simpa [openLedger] using hplain.own
    obtain ⟨L'', hl'', hset'', _⟩ := reconcileEndOne_ledger h.ids ho hid hone
    exact Or.inr ⟨L'', hl'', hset.settle hset''⟩
  · refine absurd (Or.inr ?_) hap
    unfold target
    rw [hf]
    simp

/-- Traffic leaves the order's count alone. -/
theorem traffic_kept (hok : IdsOk s) (hL : L.Plain)
    (hl : s.ids.find id = none ∨ s.ledger id = some L) (op : Op)
    (hmsg : ∀ m, op = .msg m → OtherMsg id keys m) (hop : op.Admits (OtherCall id) s) :
    Kept id keys s L (s.step op) := by
  have hstart : Kept id keys s L s := by
    refine ⟨hok, ?_, fun _ _ hk => hk⟩
    rcases hl with hl | hl
    · exact Or.inl hl
    · exact Or.inr ⟨L, hl, Ledger.Settled.refl fun _ => hL.idle⟩
  refine step_keeps (P := OtherCall id) ?_ ?_ ?_ ?_ hstart op hmsg ?_
  · exact fun s₁ c h hc => h.call hc
  · exact fun s₁ m hm h => h.msg hL hm
  · exact fun s₁ venue wm h => h.begin venue wm
  · exact fun s₁ j s₂ u h hone => h.end_one hL hone
  · assumption

end Traffic

/-! ## Worlds -/

/-- The order management beside the venue's executions of one order. -/
structure World where
  oms : Oms
  /-- The executions the venue has made. -/
  executed : Nat
  /-- Those delivered at least once. -/
  delivered : Finset Nat
  /-- The quantity booked for the order. -/
  booked : Qty

/-- A message about the order is handled and its update booked. -/
def World.hear (w : World) (m : Msg) : World :=
  { w with
    oms := (w.oms.receive m).1
    booked := w.booked + (w.oms.receive m).2.booked }

/-- One step.  `K` are the keys no execution of another order is filed under, and
`R` is what must hold of the delivered executions and the ledger when an
execution is replayed. -/
inductive Step (V : VenueOrder) (K : UInt64 → Prop) (R : Finset Nat → Ledger → Prop) :
    World → World → Prop
  /-- The venue executes. -/
  | execute {w : World} (h : w.executed < V.n) : Step V K R w { w with executed := w.executed + 1 }
  /-- An execution is delivered live.  The order or its record is known, and an
  execution delivered before is still in the execution memory. -/
  | live {w : World} {i : Nat} {m : OrderFillMsg} (hi : i < w.executed) (hm : V.Live i m)
      (hknown : w.oms.ids.find V.id ≠ none)
      (hmem : i ∈ w.delivered → V.key i ∈ w.oms.execSeen.keys) :
      Step V K R w { w.hear (.fill m) with delivered := insert i w.delivered }
  /-- An execution is delivered from a replayed history. -/
  | replay {w : World} {i : Nat} {m : OrderFillMsg} (hi : i < w.executed) (hm : V.Replayed i m)
      (hknown : w.oms.ids.find V.id ≠ none)
      (hmem : i ∈ w.delivered → V.key i ∈ w.oms.execSeen.keys)
      (hR : i ∉ w.delivered → ∀ L, w.oms.ledger V.id = some L → R w.delivered L) :
      Step V K R w { w.hear (.fill m) with delivered := insert i w.delivered }
  /-- A snapshot, a cancel ack or an expiry carries a cumulative quantity the
  venue has reached, zero included. -/
  | report {w : World} {m : Msg} {c : Qty} (hid : m.clOrdId = V.id) (hc : m.reported = some c)
      (hcum : ∃ j ≤ w.executed, c = V.cum j) : Step V K R w (w.hear m)
  /-- An ack, a reject or a cancel reject. -/
  | answer {w : World} {m : Msg} (hid : m.clOrdId = V.id) (hm : m.answers = true) :
      Step V K R w (w.hear m)
  /-- Anything that is not about the order. -/
  | traffic {w : World} {op : Op} (hmsg : ∀ m, op = .msg m → OtherMsg V.id K m)
      (hop : op.Admits (OtherCall V.id) w.oms) :
      Step V K R w { w with oms := w.oms.step op }

/-- Any number of steps. -/
def Run (V : VenueOrder) (K : UInt64 → Prop) (R : Finset Nat → Ledger → Prop) :
    World → World → Prop := Relation.ReflTransGen (Step V K R)

/-- The order has just been placed, in any state a run reaches. -/
def Placed (V : VenueOrder) (w : World) : Prop :=
  ∃ (s : Oms) (req : NewOrderRequest) (now : Timestamp) (h : Nat),
    Reachable PositiveQty s ∧ (s.submit req V.id now).2 = .ok h ∧
      req.instrument = V.instrument ∧ req.side = V.side ∧ req.qty = V.qty ∧ 0 < V.qty ∧
      w = ⟨(s.submit req V.id now).1, 0, ∅, 0⟩

/-- The ledger of an order just placed. -/
def VenueOrder.placedLedger (V : VenueOrder) : Ledger where
  qty := V.qty
  cum := 0
  est := 0
  ended := false
  filled := false
  pending := none
  own := true

/-! ## The rule for runs -/

/-- What a property of the ledger has to be closed under. -/
structure Rule (V : VenueOrder) (K : UInt64 → Prop) (R : Finset Nat → Ledger → Prop)
    (I : Nat → Finset Nat → Qty → Ledger → Prop) : Prop where
  start : I 0 ∅ 0 V.placedLedger
  execute : ∀ {e D b L}, I e D b L → e < V.n → I (e + 1) D b L
  live : ∀ {e D b L L' i m}, I e D b L → V.Live i m → (∀ j ∈ D, j < e) → e ≤ V.n → i < e →
    i ∉ D → L.Moved (L.filledTo m) (L.est - L.named m) L' →
    I e (insert i D) (b + (m.qty - L.named m)) L'
  replay : ∀ {e D b L L' i m}, I e D b L → V.Replayed i m → R D L → (∀ j ∈ D, j < e) →
    e ≤ V.n → i < e → i ∉ D → L.Moved (L.filledTo m) (L.est - L.named m) L' →
    I e (insert i D) (b + (m.qty - L.named m)) L'
  report : ∀ {e D b L L' c}, I e D b L → c ≤ V.cum e →
    L.Moved (L.reportedTo c) (L.est + (L.reportedTo c - L.cum)) L' →
    I e D (b + (L.reportedTo c - L.cum)) L'
  settled : ∀ {e D b L L'}, I e D b L → L.Settled L' → I e D b L'
  /-- A new execution is not taken for a delivered one, or it does not matter. -/
  collide : (V.KeysDistinct ∧ ∀ i < V.n, K (V.key i)) ∨
    ∀ {e D b L i}, I e D b L → I e (insert i D) b L

/-- The invariant of a run. -/
structure Holds (V : VenueOrder) (K : UInt64 → Prop) (I : Nat → Finset Nat → Qty → Ledger → Prop)
    (w : World) : Prop where
  reachable : Reachable PositiveQty w.oms
  executed_le : w.executed ≤ V.n
  delivered_lt : ∀ i ∈ w.delivered, i < w.executed
  fresh : V.KeysDistinct → ∀ i < V.n, i ∉ w.delivered → K (V.key i) →
    V.key i ∉ w.oms.execSeen.keys
  ledger : ∃ L, I w.executed w.delivered w.booked L ∧ L.Plain ∧
    (w.oms.ids.find V.id = none ∨ w.oms.ledger V.id = some L)

section Rule

variable {V : VenueOrder} {K : UInt64 → Prop} {R : Finset Nat → Ledger → Prop}
  {I : Nat → Finset Nat → Qty → Ledger → Prop} {w w' : World}

/-- A message about the order files no key but its execution's. -/
theorem Holds.fresh_hear (h : Holds V K I w) (hD : V.KeysDistinct) {i : Nat} (hi : i < V.n)
    (hiD : i ∉ w.delivered) (hK : K (V.key i)) {m : Msg}
    (hm : ∀ f, m = .fill f → V.key i ≠ execKey f) :
    V.key i ∉ (w.hear m).oms.execSeen.keys := by
  have hok := (h.reachable.accounts fun _ _ hc => hc).1
  intro hin
  have hin' : V.key i ∈ (w.oms.receive m).1.execSeen.keys := hin
  rw [receive_execSeen hok] at hin'
  rcases mem_heard hin' with hin' | ⟨f, hf, _, hk⟩
  · exact h.fresh hD i hi hiD hK hin'
  · exact hm f hf hk

/-- A delivery keeps the invariant when the rule for the execution does. -/
theorem Holds.deliver (hrule : Rule V K R I) (h : Holds V K I w) {i : Nat} {m : OrderFillMsg}
    (hi : i < w.executed) (hm : V.Reports i m) (hknown : w.oms.ids.find V.id ≠ none)
    (hmem : i ∈ w.delivered → V.key i ∈ w.oms.execSeen.keys)
    (hfill : ∀ L L', i ∉ w.delivered → w.oms.ledger V.id = some L →
      I w.executed w.delivered w.booked L → L.Moved (L.filledTo m) (L.est - L.named m) L' →
      I w.executed (insert i w.delivered) (w.booked + (m.qty - L.named m)) L') :
    Holds V K I { w.hear (.fill m) with delivered := insert i w.delivered } := by
  have hin : i < V.n := lt_of_lt_of_le hi h.executed_le
  obtain ⟨hok, hacc⟩ := h.reachable.accounts fun _ _ hc => hc
  obtain ⟨L, hI, hplain, hl⟩ := h.ledger
  have hl : w.oms.ledger V.id = some L := hl.resolve_left hknown
  have hlm : w.oms.ledger m.clOrdId = some L := by
    rw [hm.clOrdId]
    exact hl
  have hempty : m.execId.empty = false := by
    rw [hm.execId]
    exact V.execId_nonempty i hin
  refine ⟨h.reachable.msg (.fill m), h.executed_le, ?_, ?_, ?_⟩
  · intro j hj
    rcases Finset.mem_insert.mp hj with rfl | hj
    · exact hi
    · exact h.delivered_lt j hj
  · intro hD j hj hjD hK
    rw [Finset.mem_insert, not_or] at hjD
    refine h.fresh_hear hD hj hjD.2 hK ?_
    intro f hf heq
    rw [← Msg.fill.inj hf, hm.execKey] at heq
    exact hjD.1 (hD j hj i hin heq)
  by_cases hdup : w.oms.Duplicate m
  · obtain ⟨_, hled, hbook⟩ := onFill_duplicate m hdup V.id
    have hsame : I w.executed (insert i w.delivered) w.booked L := by
      by_cases hiD : i ∈ w.delivered
      · rw [Finset.insert_eq_of_mem hiD]
        exact hI
      rcases hrule.collide with ⟨hD, hK⟩ | hc
      · have hin' := hdup.2
        rw [hm.execKey] at hin'
        exact absurd hin' (h.fresh hD i hin hiD (hK i hin))
      · exact hc hI
    refine ⟨L, ?_, hplain, Or.inr (hled.trans hl)⟩
    simp only [World.hear, receive, hbook, add_zero]
    exact hsame
  · have hiD : i ∉ w.delivered := fun hiD => hdup ⟨hempty, hm.execKey ▸ hmem hiD⟩
    obtain ⟨L', hl', hmoved, _, hbook⟩ := onFill_spec hok hacc m hdup hlm hplain.own
    refine ⟨L', ?_, hmoved.plain hplain, Or.inr ?_⟩
    · simp only [World.hear, receive, hbook]
      exact hfill L L' hiD hl hI hmoved
    · rw [← hm.clOrdId]
      exact hl'

/-- A message about the order that delivers no execution. -/
theorem Holds.hear (h : Holds V K I w) {m : Msg} (hm : ∀ f, m ≠ .fill f)
    (hled : ∃ L, I w.executed w.delivered (w.booked + (w.oms.receive m).2.booked) L ∧ L.Plain ∧
      ((w.oms.receive m).1.ids.find V.id = none ∨ (w.oms.receive m).1.ledger V.id = some L)) :
    Holds V K I (w.hear m) where
  reachable := h.reachable.msg m
  executed_le := h.executed_le
  delivered_lt := h.delivered_lt
  fresh := fun hD _ hi hiD hK => h.fresh_hear hD hi hiD hK fun f hf => absurd hf (hm f)
  ledger := hled

/-- What is closed under the steps holds along every run. -/
theorem Holds.step (hrule : Rule V K R I) (h : Holds V K I w) (hs : Step V K R w w') :
    Holds V K I w' := by
  obtain ⟨hok, _⟩ := h.reachable.accounts fun _ _ hc => hc
  -- Once forgotten, the order stays forgotten and its messages book nothing.
  have hgone : ∀ m : Msg, m.clOrdId = V.id → (∀ f, m ≠ .fill f) → w.oms.ids.find V.id = none →
      (w.oms.receive m).1.ids.find V.id = none ∧ (w.oms.receive m).2.booked = 0 := by
    intro m hid hm hf
    have hf' : w.oms.ids.find m.clOrdId = none := by
      rw [hid]
      exact hf
    refine ⟨?_, receive_unknown m hf' hm⟩
    obtain ⟨seen, hheard⟩ := w.oms.heard_eq m
    have hedits := receive_edits m hok.live
    rw [hheard] at hedits
    have hok' : IdsOk { w.oms with execSeen := seen } := hok.of_eq rfl rfl rfl
    exact (hedits.frame hok' (Or.inl hf)).find_none hf
  cases hs with
  | execute hlt =>
    obtain ⟨L, hI, hplain, hl⟩ := h.ledger
    refine ⟨h.reachable, hlt, ?_, h.fresh, L, hrule.execute hI hlt, hplain, hl⟩
    exact fun i hi => Nat.lt_succ_of_lt (h.delivered_lt i hi)
  | live hi hm hknown hmem =>
    refine h.deliver hrule hi hm.toReports hknown hmem ?_
    intro L L' hiD _ hI hmoved
    exact hrule.live hI hm h.delivered_lt h.executed_le hi hiD hmoved
  | replay hi hm hknown hmem hR =>
    refine h.deliver hrule hi hm.toReports hknown hmem ?_
    intro L L' hiD hl hI hmoved
    exact hrule.replay hI hm (hR hiD L hl) h.delivered_lt h.executed_le hi hiD hmoved
  | @report m c hid hc hcum =>
    have hm : ∀ f, m ≠ .fill f := by
      rintro f rfl
      exact absurd hc (by simp [Msg.reported])
    have hle : c ≤ V.cum w.executed := by
      obtain ⟨j, hj, rfl⟩ := hcum
      exact V.cum_mono hj h.executed_le
    obtain ⟨L, hI, hplain, hl⟩ := h.ledger
    refine h.hear hm ?_
    rcases hl with hf | hl
    · obtain ⟨hf', hb⟩ := hgone m hid hm hf
      rw [hb, add_zero]
      exact ⟨L, hI, hplain, Or.inl hf'⟩
    · obtain ⟨L', hl', hmoved, _, hb⟩ := receive_report hok hc (hid ▸ hl) hplain.own
      rw [hb]
      exact ⟨L', hrule.report hI hle hmoved, hmoved.plain hplain, Or.inr (hid ▸ hl')⟩
  | @answer m hid hm =>
    have hnf : ∀ f, m ≠ .fill f := by
      rintro f rfl
      exact absurd hm (by simp [Msg.answers])
    obtain ⟨L, hI, hplain, hl⟩ := h.ledger
    refine h.hear hnf ?_
    rcases hl with hf | hl
    · obtain ⟨hf', hb⟩ := hgone m hid hnf hf
      rw [hb, add_zero]
      exact ⟨L, hI, hplain, Or.inl hf'⟩
    · obtain ⟨L', hl', hset, hb⟩ := receive_answer hok hm (hid ▸ hl) hplain.own hplain.idle
      rw [hb, add_zero]
      exact ⟨L', hrule.settled hI hset, hset.plain hplain, Or.inr (hid ▸ hl')⟩
  | @traffic op hmsg hop =>
    obtain ⟨L, hI, hplain, hl⟩ := h.ledger
    have hkept := traffic_kept hok hplain hl op hmsg hop
    have hpos : op.Admits PositiveQty w.oms := Op.Admits.mono (fun _ _ hc => hc.1) hop
    refine ⟨Reachable.step h.reachable op hpos, h.executed_le, h.delivered_lt, ?_, ?_⟩
    · intro hD i hi hiD hK hin
      exact h.fresh hD i hi hiD hK (hkept.seen _ hK hin)
    · rcases hkept.ledger with hf | ⟨L', hl', hset⟩
      · exact ⟨L, hI, hplain, Or.inl hf⟩
      · exact ⟨L', hrule.settled hI hset, hset.plain hplain, Or.inr hl'⟩

/-- The ledger of an order just placed. -/
theorem ledger_submit {s : Oms} {req : NewOrderRequest} {id : ClientOrderId} {now : Timestamp}
    {h : Nat} (hok : (s.submit req id now).2 = .ok h) :
    (s.submit req id now).1.ledger id = some ⟨req.qty, 0, 0, false, false, none, true⟩ := by
  rcases s.submit_cases req id now with ⟨k, -, hsub⟩ | ⟨⟨e, he⟩, _⟩
  · obtain ⟨pool, ids, halloc, ha, hs'⟩ := hsub.state
    have hget := get_submitted ids (submittedOrder req id now) now halloc k
    rw [if_pos rfl] at hget
    have hf : ids.find id = some (.opened k) := (CappedMap.find_assign ha id).trans (if_pos rfl)
    have hest : (s.submitted k pool ids (submittedOrder req id now) now).estimates k = {} :=
      Function.update_self _ _ _
    have hl := ledger_opened (s := s.submitted k pool ids (submittedOrder req id now) now) hf hget
    rw [hest] at hl
    have hled : openLedger (submittedOrder req id now) {} id =
        ⟨req.qty, 0, 0, false, false, none, true⟩ := by
      simp [openLedger, submittedOrder, pendingLeg]
    rw [hled] at hl
    rw [hs']
    split
    · exact hl
    · exact hl
  · simp [he] at hok

theorem Holds.placed (hrule : Rule V K R I) (h : Placed V w)
    (hfresh : ∀ i < V.n, K (V.key i) → V.key i ∉ w.oms.execSeen.keys) : Holds V K I w := by
  obtain ⟨s, req, now, k, hreach, hsub, _, _, hqty, hpos, rfl⟩ := h
  have hcall : Reachable PositiveQty (s.step (.call (.submit req V.id now))) := by
    refine hreach.call ?_
    show 0 < req.qty
    rw [hqty]
    exact hpos
  refine ⟨hcall, Nat.zero_le _, fun i hi => absurd hi (by simp), fun _ i hi _ hK => hfresh i hi hK,
    V.placedLedger, hrule.start, ⟨rfl, rfl⟩, Or.inr ?_⟩
  rw [ledger_submit hsub, hqty]
  rfl

theorem Holds.run (hrule : Rule V K R I) (h : Holds V K I w) (hrun : Run V K R w w') :
    Holds V K I w' := by
  induction hrun with
  | refl => exact h
  | tail _ hs ih => exact ih.step hrule hs

end Rule

/-! ## Two orders to run -/

/-- The live message of an execution. -/
def VenueOrder.liveFill (V : VenueOrder) (i : Nat) : OrderFillMsg where
  hdr := { instrument := V.instrument }
  clOrdId := V.id
  execId := V.execId i
  qty := V.execQty i
  cumQty := V.cum (i + 1)
  side := V.side

theorem VenueOrder.live_liveFill (V : VenueOrder) (i : Nat) : V.Live i (V.liveFill i) :=
  ⟨⟨rfl, rfl, rfl, rfl, rfl⟩, rfl, rfl⟩

/-- The message of an execution in a replayed history. -/
def VenueOrder.replayedFill (V : VenueOrder) (i : Nat) : OrderFillMsg :=
  { V.liveFill i with cumQty := 0, replayed := true }

theorem VenueOrder.replayed_replayedFill (V : VenueOrder) (i : Nat) :
    V.Replayed i (V.replayedFill i) :=
  ⟨⟨rfl, rfl, rfl, rfl, rfl⟩, rfl, rfl⟩

/-- The order just placed, in a fresh order management. -/
def VenueOrder.placed (V : VenueOrder) : World :=
  ⟨((init 1 kMaxSeq).submit { instrument := V.instrument, side := V.side, qty := V.qty } V.id 0).1,
    0, ∅, 0⟩

/-- An order of three of which the venue executes two, one by one. -/
def pairOrder : VenueOrder where
  id := ⟨1⟩
  instrument := ⟨0⟩
  side := .buy
  qty := 3
  n := 2
  execQty := fun _ => 1
  execId := fun i => .assign [if i = 0 then 97 else 98]
  execQty_pos := by decide
  execId_nonempty := by decide
  execId_distinct := by decide
  total_le := by decide

theorem pairOrder_placed : Placed pairOrder pairOrder.placed :=
  ⟨init 1 kMaxSeq, _, 0, 0, Reachable.init _ _, rfl, rfl, rfl, rfl, by decide, rfl⟩

/-- An order of two, executed one by one, whose execution ids are distinct texts
of one hash. -/
def twinOrder : VenueOrder where
  id := ⟨1⟩
  instrument := ⟨0⟩
  side := .buy
  qty := 2
  n := 2
  execQty := fun _ => 1
  execId := fun i =>
    if i = 0 then
      .assign [56, 121, 110, 48, 105, 89, 67, 75, 89, 72, 108, 73, 106, 52, 45, 66,
        119, 80, 113, 107]
    else
      .assign [71, 82, 101, 76, 85, 114, 77, 52, 119, 77, 113, 102, 103, 57, 121, 122,
        86, 51, 75, 81]
  execQty_pos := by decide
  execId_nonempty := by decide
  execId_distinct := by decide
  total_le := by decide

theorem twinOrder_placed : Placed twinOrder twinOrder.placed :=
  ⟨init 1 kMaxSeq, _, 0, 0, Reachable.init _ _, rfl, rfl, rfl, rfl, by decide, rfl⟩

/-! ## No execution lost, none counted twice -/

/-- The keys of the order's executions. -/
def VenueOrder.Keys (V : VenueOrder) (k : UInt64) : Prop := ∃ i < V.n, k = V.key i

/-- Nothing is replayed. -/
def LiveOnly (_ : Finset Nat) (_ : Ledger) : Prop := False

theorem conserved_rule {V : VenueOrder} (hkeys : V.KeysDistinct) :
    Rule V V.Keys LiveOnly (Conserved V) where
  start := by
    refine ⟨rfl, fun i hi => absurd hi (by simp), le_refl _, ?_, ?_, le_refl _⟩
    · simp [VenueOrder.placedLedger, VenueOrder.sum]
    · simp [VenueOrder.placedLedger, VenueOrder.sum]
  execute := fun h hlt => h.execute hlt
  live := fun h hm hD hex hi hiD hL => h.live hm hD hex hi hiD hL
  replay := fun _ _ hR => absurd hR id
  report := fun h hc hL => h.report hc hL
  settled := fun h hL => h.settled hL
  collide := Or.inl ⟨hkeys, fun i hi => ⟨i, hi, rfl⟩⟩

/-- Executions delivered live at least once, in any order and with any repeats,
between any reports of the venue's cumulative quantity, book at every point at
most what the venue has executed; once all are delivered the booked quantity is
what was executed, and neither the order nor its record holds an estimate.  The
execution memory files an execution under a 64-bit key, so the executions' keys
are taken to be distinct and new. -/
theorem executions_conserved {V : VenueOrder} {w₀ w : World} (hkeys : V.KeysDistinct)
    (hnew : ∀ i < V.n, V.key i ∉ w₀.oms.execSeen.keys) (h₀ : Placed V w₀)
    (h : Run V V.Keys LiveOnly w₀ w) :
    w.booked ≤ V.cum w.executed ∧
      ((∀ i < V.n, i ∈ w.delivered) →
        w.booked = V.cum V.n ∧ ∀ L, w.oms.ledger V.id = some L → L.est = 0) := by
  have hrule := conserved_rule hkeys
  have hw := (Holds.placed hrule h₀ fun i hi _ => hnew i hi).run hrule h
  obtain ⟨L, hI, _, hl⟩ := hw.ledger
  refine ⟨hI.booked_le, ?_⟩
  intro hall
  obtain ⟨hbooked, hest⟩ := hI.all_delivered hw.delivered_lt hw.executed_le hall
  refine ⟨hbooked, ?_⟩
  intro L' hl'
  rcases hl with hf | hl
  · simp [ledger_of_find_none hf] at hl'
  · rw [hl] at hl'
    rw [← Option.some.inj hl']
    exact hest

/-- A snapshot runs ahead of the first execution, whose live message comes last
and names the estimate. -/
theorem executions_conserved_named_late :
    ∃ w, Run pairOrder pairOrder.Keys LiveOnly pairOrder.placed w ∧ w.executed = 2 ∧
      w.booked = 2 ∧ ∀ L, w.oms.ledger pairOrder.id = some L → L.est = 0 := by
  have hrun : Run pairOrder pairOrder.Keys LiveOnly pairOrder.placed _ :=
    ((((Relation.ReflTransGen.refl.tail (.execute (by decide))).tail
      (.report (m := .openOrder { clOrdId := ⟨1⟩, cumQty := 1 }) rfl rfl ⟨1, by decide, rfl⟩)).tail
      (.execute (by decide))).tail
      (.live (by decide) (pairOrder.live_liveFill 1) (by decide) (by decide))).tail
      (.live (by decide) (pairOrder.live_liveFill 0) (by decide) (by decide))
  obtain ⟨hbooked, hest⟩ := (executions_conserved (by decide) (by decide) pairOrder_placed hrun).2
    (by decide)
  exact ⟨_, hrun, rfl, hbooked, hest⟩

/-- Two executions filed under one key: the second is dropped as a duplicate, and
the booked quantity stays short of what was executed. -/
theorem executions_not_conserved_on_collision :
    ¬ ∀ (V : VenueOrder) (w₀ w : World), (∀ i < V.n, V.key i ∉ w₀.oms.execSeen.keys) →
      Placed V w₀ → Run V V.Keys LiveOnly w₀ w →
      w.booked ≤ V.cum w.executed ∧
        ((∀ i < V.n, i ∈ w.delivered) →
          w.booked = V.cum V.n ∧ ∀ L, w.oms.ledger V.id = some L → L.est = 0) := by
  intro h
  have hrun : Run twinOrder twinOrder.Keys LiveOnly twinOrder.placed _ :=
    (((Relation.ReflTransGen.refl.tail (.execute (by decide))).tail (.execute (by decide))).tail
      (.live (by decide) (twinOrder.live_liveFill 0) (by decide) (by decide))).tail
      (.live (by decide) (twinOrder.live_liveFill 1) (by decide) (by decide))
  have hall := (h twinOrder _ _ (by decide) twinOrder_placed hrun).2 (by decide)
  exact absurd hall.1 (by decide)

/-! ## No working order ends as Filled -/

/-- The ledger counts no more than the venue has executed, and says Filled only
when it counts the whole order. -/
structure Counted (V : VenueOrder) (executed : Nat) (L : Ledger) : Prop where
  qty : L.qty = V.qty
  cum_le : L.cum ≤ V.cum executed
  est_nonneg : 0 ≤ L.est
  filled : L.filled = true → L.qty ≤ L.cum

/-- Everything the order counts was delivered or is estimated: no live execution
has carried the count past one that is still to be delivered. -/
def VenueOrder.NothingJumped (V : VenueOrder) (D : Finset Nat) (L : Ledger) : Prop :=
  L.cum ≤ V.sum D + L.est

instance (V : VenueOrder) (D : Finset Nat) (L : Ledger) : Decidable (V.NothingJumped D L) :=
  inferInstanceAs (Decidable (L.cum ≤ V.sum D + L.est))

section Counted

variable {V : VenueOrder} {e : Nat} {L L' : Ledger}

theorem Counted.moved {cum est : Qty} (h : Counted V e L) (hL : L.Moved cum est L')
    (hge : L.cum ≤ cum) (hcum : cum ≤ V.cum e) (hest : 0 ≤ est) : Counted V e L' where
  qty := hL.qty.trans h.qty
  cum_le := by
    rw [hL.cum]
    exact hcum
  est_nonneg := by
    rw [hL.est]
    exact hest
  filled := by
    intro hf
    rcases hL.filled hf with hf | hf
    · rw [hL.qty, hL.cum]
      exact le_trans (h.filled hf) hge
    · exact hf

/-- An execution never names more than the estimate. -/
theorem Ledger.named_le (hest : 0 ≤ L.est) (m : OrderFillMsg) : 0 ≤ L.est - L.named m := by
  unfold Ledger.named
  split
  · split
    · have := min_le_right ‹Qty› L.est
      linarith
    · linarith
  · linarith

/-- A replayed execution names all of itself, as far as the estimate goes. -/
theorem Ledger.named_replayed {i : Nat} {m : OrderFillMsg} (hm : V.Replayed i m)
    (hest : 0 ≤ L.est) (hpos : 0 ≤ V.execQty i) : L.named m = min (V.execQty i) L.est := by
  have hnot : ¬ (m.replayed = false ∧ 0 < m.cumQty) := by
    rw [hm.replayed]
    simp
  have hrep : m.replayed = true ∨ L.ended = true := Or.inl hm.replayed
  unfold Ledger.named namedQty
  rw [if_neg hnot, if_pos hrep, hm.qty]
  split_ifs with hle
  · rfl
  · have hzero : L.est = 0 := le_antisymm (not_lt.mp hle) hest
    rw [hzero, min_eq_right hpos]

end Counted

theorem counted_rule (V : VenueOrder) :
    Rule V (fun _ => False) V.NothingJumped (fun e _ _ L => Counted V e L) where
  start := by
    refine ⟨rfl, le_refl _, le_refl _, ?_⟩
    intro hf
    exact absurd hf (by simp [VenueOrder.placedLedger])
  execute := fun h hlt =>
    { h with cum_le := le_trans h.cum_le (V.cum_mono (Nat.le_succ _) hlt) }
  live := by
    intro e D b L L' i m h hm _ hex hi _ hL
    have hto := Ledger.filledTo_live hm (lt_of_lt_of_le hi hex) h.qty
    refine h.moved hL ?_ ?_ (Ledger.named_le h.est_nonneg m)
    · rw [hto]
      exact le_max_left _ _
    · rw [hto]
      exact max_le h.cum_le (V.cum_mono (Nat.succ_le_of_lt hi) hex)
  replay := by
    intro e D b L L' i m h hm hR hD hex hi hiD hL
    have hq := V.execQty_pos i (lt_of_lt_of_le hi hex)
    have hnamed := Ledger.named_replayed hm h.est_nonneg (le_of_lt hq)
    refine h.moved hL (le_max_left _ _) ?_ (Ledger.named_le h.est_nonneg m)
    refine max_le h.cum_le (le_trans (min_le_right _ _) ?_)
    -- What the execution adds was not delivered before, so it fits.
    have hsum : V.sum (insert i D) ≤ V.cum e := by
      refine V.sum_le_cum ?_ hex
      intro j hj
      rcases Finset.mem_insert.mp hj with rfl | hj
      · exact hi
      · exact hD j hj
    rw [V.sum_insert hiD] at hsum
    have hcum := h.cum_le
    unfold VenueOrder.NothingJumped at hR
    rw [hm.cumQty, if_neg (lt_irrefl _), hm.qty, hnamed]
    rcases le_total (V.execQty i) L.est with hle | hle
    · rw [min_eq_left hle]
      linarith
    · rw [min_eq_right hle]
      linarith
  report := by
    intro e D b L L' c h hc hL
    have hge : L.cum ≤ L.reportedTo c := by
      unfold Ledger.reportedTo
      split
      · exact le_refl _
      · exact le_max_left _ _
    have hle : L.reportedTo c ≤ V.cum e := by
      unfold Ledger.reportedTo
      split
      · exact h.cum_le
      · exact max_le h.cum_le (le_trans (min_le_right _ _) hc)
    have hest := h.est_nonneg
    exact h.moved hL hge hle (by linarith)
  settled := fun h hL => h.moved hL (le_refl _) h.cum_le h.est_nonneg
  collide := Or.inr fun h => h

/-- An order whose executions are delivered live or replayed, between any reports
of the venue's cumulative quantity: the recorded cumulative quantity never
exceeds what the venue has executed, and the order ends as Filled only when the
venue has executed all of it, in every run in which an execution is replayed only
while everything counted was delivered or is estimated. -/
theorem filled_only_when_executed {V : VenueOrder} {w₀ w : World} (h₀ : Placed V w₀)
    (h : Run V (fun _ => False) V.NothingJumped w₀ w) :
    (∀ k o, w.oms.openHandle V.id = some k → w.oms.get k = some o →
        o.cumQty ≤ V.cum w.executed ∧ o.state ≠ .filled) ∧
      (∀ r, w.oms.findTerminal V.id = some r →
        r.cumQty ≤ V.cum w.executed ∧ (r.state = .filled → V.cum w.executed = V.qty)) := by
  have hrule := counted_rule V
  have hw := (Holds.placed hrule h₀ fun _ _ hK => absurd hK id).run hrule h
  obtain ⟨-, hacc⟩ := hw.reachable.accounts fun _ _ hc => hc
  obtain ⟨L, hI, _, hl⟩ := hw.ledger
  constructor
  · intro k o hopen ho
    have hf := find_of_openHandle hopen
    rw [ledger_opened hf ho] at hl
    rcases hl with hl | hl
    · simp [hf] at hl
    rw [← Option.some.inj hl] at hI
    refine ⟨hI.cum_le, ?_⟩
    intro hst
    have := (hacc.orders k o ho).open_state
    rw [hst] at this
    exact absurd this (by decide)
  · intro r hr
    obtain ⟨v, hf⟩ := find_of_findTerminal hr
    rw [ledger_terminal hf hr] at hl
    rcases hl with hl | hl
    · simp [hf] at hl
    rw [← Option.some.inj hl] at hI
    refine ⟨hI.cum_le, ?_⟩
    intro hst
    have hfull := hI.filled (by simp [recordLedger, hst])
    have hle := hI.cum_le
    have hq := hI.qty
    have htot : V.cum w.executed ≤ V.qty :=
      le_trans (V.cum_mono hw.executed_le (le_refl _)) V.total_le
    linarith

/-- Both executions of an order are replayed, the first of them after a snapshot
that counted it. -/
theorem filled_only_when_executed_replays :
    ∃ w, Run pairOrder (fun _ => False) pairOrder.NothingJumped pairOrder.placed w ∧
      w.executed = 2 ∧ w.delivered = {0, 1} ∧
      ∀ k o, w.oms.openHandle pairOrder.id = some k → w.oms.get k = some o →
        o.cumQty ≤ 2 ∧ o.state ≠ .filled := by
  have hrun : Run pairOrder (fun _ => False) pairOrder.NothingJumped pairOrder.placed _ :=
    ((((Relation.ReflTransGen.refl.tail (.execute (by decide))).tail
      (.report (m := .openOrder { clOrdId := ⟨1⟩, cumQty := 1 }) rfl rfl ⟨1, by decide, rfl⟩)).tail
      (.execute (by decide))).tail
      (.replay (by decide) (pairOrder.replayed_replayedFill 1) (by decide) (by decide)
        (by
          intro _ L hl
          rw [← Option.some.inj hl]
          decide))).tail
      (.replay (by decide) (pairOrder.replayed_replayedFill 0) (by decide) (by decide)
        (by
          intro _ L hl
          rw [← Option.some.inj hl]
          decide))
  exact ⟨_, hrun, rfl, by decide, (filled_only_when_executed pairOrder_placed hrun).1⟩

/-- The second execution arrives live and carries the count past the first, which
is then replayed: an order of three with two executed ends as Filled. -/
theorem filled_early_after_jump :
    ¬ ∀ (V : VenueOrder) (w₀ w : World), Placed V w₀ →
      Run V (fun _ => False) (fun _ _ => True) w₀ w →
      (∀ k o, w.oms.openHandle V.id = some k → w.oms.get k = some o →
          o.cumQty ≤ V.cum w.executed ∧ o.state ≠ .filled) ∧
        (∀ r, w.oms.findTerminal V.id = some r →
          r.cumQty ≤ V.cum w.executed ∧ (r.state = .filled → V.cum w.executed = V.qty)) := by
  intro h
  have hrun : Run pairOrder (fun _ => False) (fun _ _ => True) pairOrder.placed _ :=
    (((Relation.ReflTransGen.refl.tail (.execute (by decide))).tail (.execute (by decide))).tail
      (.live (by decide) (pairOrder.live_liveFill 1) (by decide) (by decide))).tail
      (.replay (by decide) (pairOrder.replayed_replayedFill 0) (by decide) (by decide)
        fun _ _ _ => trivial)
  have hrecord := (h pairOrder _ _ pairOrder_placed hrun).2 _ rfl
  exact absurd hrecord.1 (by decide)

end Oms

end FastMM
