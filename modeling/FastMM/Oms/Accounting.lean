/-
  Oms/Accounting.lean --- the running totals are the totals.

  `Oms` keeps five aggregates of its live orders and terminal records: the open
  quantity per instrument and side, the open counts, the slots of each
  instrument, and the number of outstanding estimates.  Each is updated where an
  order changes.  `Accounts` says that each equals what a fresh count would give.

  Every edit changes at most one slot and the ring, so there is one argument
  (`Accounts.of_slot`): an aggregate moved by the difference of that slot's old
  and new contributions is still right.  Each edit then only has to name its
  contributions.
-/
import FastMM.Oms.InstIndex
import FastMM.Foundation.Sums
import Mathlib.Tactic.Linarith
import Mathlib.Tactic.Ring
set_option autoImplicit false

namespace FastMM

open Foundation Function Pool RingBuffer

namespace Oms

/-! ## Totals over the live orders and the records -/

section Totals

variable {M : Type} [AddCommMonoid M]

/-- The contribution of a slot. -/
def term (s : Oms) (f : Nat → Order → M) (h : Nat) : M := (s.get h).elim 0 (f h)

/-- The sum of `f` over the live orders. -/
def total (s : Oms) (f : Nat → Order → M) : M := ∑ h ∈ Finset.range kMaxOpenOrders, s.term f h

theorem term_some {s : Oms} {h : Nat} {o : Order} (ho : s.get h = some o) (f : Nat → Order → M) :
    s.term f h = f h o := by
  unfold term
  rw [ho]
  rfl

theorem term_none {s : Oms} {h : Nat} (ho : s.get h = none) (f : Nat → Order → M) :
    s.term f h = 0 := by
  unfold term
  rw [ho]
  rfl

/-- A change of one slot moves a total by the slot's contributions. -/
theorem total_add {s s' : Oms} (f f' : Nat → Order → M) {h : Nat} (hh : h < kMaxOpenOrders)
    (hget : ∀ k, k ≠ h → s'.get k = s.get k)
    (hf : ∀ k o, k ≠ h → s.get k = some o → f' k o = f k o) :
    s'.total f' + s.term f h = s.total f + s'.term f' h := by
  refine sum_add_eq_of_agree_off (Finset.mem_range.mpr hh) ?_
  intro k _ hk
  unfold term
  rw [hget k hk]
  cases ho : s.get k with
  | none => rfl
  | some o => exact hf k o hk ho

end Totals

variable {s : Oms}
variable (ring : TerminalRing)
variable {o : Order}
variable {h : Nat}

/-- One for an outstanding estimate. -/
def pendingOne (e : Estimate) : Nat := if 0 < e.qty then 1 else 0

/-- The remembered records with an outstanding estimate. -/
def recordsPending : Nat :=
  ∑ pos ∈ Finset.Ico ring.head ring.tail, pendingOne (ring.buf (pos % kRecentlyTerminal)).estimate

/-- One when the record about to leave holds an outstanding estimate. -/
def leavingOne : Nat :=
  if ring.full = true then pendingOne ring.front.estimate else 0

/-- A push counts its record in and the leaving one out. -/
theorem recordsPending_push (r : TerminalRecord) : recordsPending (ring.push r) + leavingOne ring =
      recordsPending ring + pendingOne r.estimate := by
  have hN : 0 < kRecentlyTerminal := by decide
  have hsz := ring.size_le
  have hle := ring.head_le
  have hlt : ring.full = true → ring.head < ring.tail := by
    intro hf
    have := full_iff.mp hf
    omega
  -- Off the tail's slot the push changes no record that stays.
  have hstay : ∀ head, ring.tail < head + kRecentlyTerminal →
      ∑ pos ∈ Finset.Ico head ring.tail,
        pendingOne ((ring.push r).buf (pos % kRecentlyTerminal)).estimate =
      ∑ pos ∈ Finset.Ico head ring.tail,
        pendingOne (ring.buf (pos % kRecentlyTerminal)).estimate := by
    intro head hroom
    refine Finset.sum_congr rfl ?_
    intro pos hpos
    rw [Finset.mem_Ico] at hpos
    have hne : pos % kRecentlyTerminal ≠ ring.tail % kRecentlyTerminal := fun he =>
      Nat.ne_of_lt hpos.2 (eq_of_mod_eq (by omega) (by omega) he)
    simp [RingBuffer.push, update_of_ne hne]
  have htop : ((ring.push r).buf (ring.tail % kRecentlyTerminal)) = r := by
    simp [RingBuffer.push]
  unfold recordsPending leavingOne
  rw [tail_push, head_push]
  by_cases hf : ring.full = true
  · rw [if_pos hf, if_pos hf, Finset.sum_Ico_succ_top (hlt hf), htop,
      hstay (ring.head + 1) (by omega)]
    have hbot := Finset.sum_eq_sum_Ico_succ_bot (hlt hf)
      fun pos => pendingOne (ring.buf (pos % kRecentlyTerminal)).estimate
    have hfront : pendingOne (ring.buf (ring.head % kRecentlyTerminal)).estimate =
        pendingOne ring.front.estimate := rfl
    omega
  · have hroom : ring.tail < ring.head + kRecentlyTerminal := by
      rw [full_iff] at hf
      omega
    rw [if_neg hf, if_neg hf, Finset.sum_Ico_succ_top hle, htop, hstay _ hroom, Nat.add_zero]

/-- A record that leaves is one of the records. -/
theorem leavingOne_le : leavingOne ring ≤ recordsPending ring := by
  unfold leavingOne
  split_ifs with hf
  · have hfull := full_iff.mp hf
    have hmem : ring.head ∈ Finset.Ico ring.head ring.tail := by
      rw [Finset.mem_Ico]
      have : 0 < kRecentlyTerminal := by decide
      omega
    exact Finset.single_le_sum
      (f := fun pos => pendingOne (ring.buf (pos % kRecentlyTerminal)).estimate)
      (fun _ _ => Nat.zero_le _) hmem
  · exact Nat.zero_le _

/-- Rewriting a record moves the count by its contributions. -/
theorem recordsPending_setPos {pos : Nat} {r : TerminalRecord}
    (hr : ring.atPos pos = some r) (r' : TerminalRecord) :
    recordsPending (ring.setPos pos r') + pendingOne r.estimate =
      recordsPending ring + pendingOne r'.estimate := by
  obtain ⟨hpos, hbuf⟩ := atPos_eq_some_iff.mp hr
  have hsz := ring.size_le
  have hnew : (ring.setPos pos r').buf (pos % kRecentlyTerminal) = r' := by
    simp [setPos]
  have hsum := sum_add_eq_of_agree_off
    (f := fun p => pendingOne (ring.buf (p % kRecentlyTerminal)).estimate)
    (g := fun p => pendingOne ((ring.setPos pos r').buf (p % kRecentlyTerminal)).estimate)
    (Finset.mem_Ico.mpr hpos) ?_
  · rw [hbuf, hnew] at hsum
    exact hsum
  intro p hp hne
  rw [Finset.mem_Ico] at hp
  have hne' : p % kRecentlyTerminal ≠ pos % kRecentlyTerminal := fun he =>
    hne (eq_of_mod_eq (by omega) (by omega) he)
  simp [setPos, update_of_ne hne']

/-! ## The invariant -/

/-- What a live order's own fields satisfy. -/
structure OrderOk (o : Order) : Prop where
  open_state : o.state.isTerminal = false
  cum_nonneg : 0 ≤ o.cumQty
  cum_le : o.cumQty ≤ o.qty
  pending_pos : o.state = .pendingReplace → 0 < o.pendingQty

/-- One for a live order of an instrument. -/
def ofInst (i : Nat) (_ : Nat) (o : Order) : Nat := if o.instrument.value = i then 1 else 0

/-- The leaves of an order of an instrument and side. -/
def leavesOf (i : Nat) (side : Side) (_ : Nat) (o : Order) : Qty :=
  if i = o.instrument.value ∧ side = o.side then o.leavesQty else 0

/-- One for an order. -/
def one (_ : Nat) (_ : Order) : Nat := 1

/-- One for an order with an outstanding estimate. -/
def pendingAt (s : Oms) (h : Nat) (_ : Order) : Nat := pendingOne (s.estimates h)

/-- The aggregates are the totals. -/
structure Accounts (s : Oms) : Prop where
  orders : ∀ h o, s.get h = some o → OrderOk o
  opened : s.stats.opened = s.total one
  perInst : ∀ i, s.openPerInst i = s.total (ofInst i)
  qty : ∀ i side, s.openQty i side = s.total (leavesOf i side)
  pending : s.stats.syntheticPending = s.total s.pendingAt + recordsPending s.recentlyTerminal
  est_nonneg : ∀ h o, s.get h = some o → 0 ≤ (s.estimates h).qty

/-- A change of one slot and the ring keeps the accounts when every aggregate
moved by the difference of the slot's contributions. -/
theorem Accounts.of_slot {s s' : Oms} (hacc : Accounts s) (hh : h < kMaxOpenOrders)
    (hget : ∀ k, k ≠ h → s'.get k = s.get k) (horder : ∀ o, s'.get h = some o → OrderOk o)
    (hopened : s'.stats.opened + s.term one h = s.stats.opened + s'.term one h)
    (hperInst : ∀ i, s'.openPerInst i + s.term (ofInst i) h =
      s.openPerInst i + s'.term (ofInst i) h)
    (hqty : ∀ i side, s'.openQty i side + s.term (leavesOf i side) h =
      s.openQty i side + s'.term (leavesOf i side) h)
    (hest : ∀ k, k ≠ h → s'.estimates k = s.estimates k)
    (hnonneg : ∀ o, s'.get h = some o → 0 ≤ (s'.estimates h).qty)
    (hpending : s'.stats.syntheticPending +
        (s.term s.pendingAt h + recordsPending s.recentlyTerminal) =
      s.stats.syntheticPending + (s'.term s'.pendingAt h + recordsPending s'.recentlyTerminal)) :
    Accounts s' := by
  refine ⟨?_, ?_, ?_, ?_, ?_, ?_⟩
  · intro k o ho
    by_cases hk : k = h
    · exact horder o (hk ▸ ho)
    · exact hacc.orders k o (hget k hk ▸ ho)
  · have hsum := total_add one one hh hget fun _ _ _ _ => rfl
    rw [hacc.opened] at hopened
    omega
  · intro i
    have hsum := total_add (ofInst i) (ofInst i) hh hget fun _ _ _ _ => rfl
    have hmove := hperInst i
    rw [hacc.perInst i] at hmove
    omega
  · intro i side
    have hsum := total_add (leavesOf i side) (leavesOf i side) hh hget fun _ _ _ _ => rfl
    have hmove := hqty i side
    rw [hacc.qty i side] at hmove
    linarith
  · have hsum := total_add s.pendingAt s'.pendingAt hh hget fun k _ hk _ => by
      unfold pendingAt
      rw [hest k hk]
    rw [hacc.pending] at hpending
    omega
  · intro k o ho
    by_cases hk : k = h
    · rw [hk] at ho ⊢
      exact hnonneg o ho
    · rw [hest k hk]
      exact hacc.est_nonneg k o (hget k hk ▸ ho)

/-! ## Edits keep it -/

section

variable {s s' : Oms} (hacc : Accounts s)
include hacc

/-- A change of a live order on its instrument. -/
theorem Accounts.of_set {o o' : Order} (ho : s.get h = some o)
    (hget : ∀ k, s'.get k = if k = h then some o' else s.get k) (hok : OrderOk o')
    (hinst : o'.instrument = o.instrument)
    (hopened : s'.stats.opened = s.stats.opened) (hperInst : s'.openPerInst = s.openPerInst)
    (hqty : ∀ i side, s'.openQty i side + leavesOf i side h o =
      s.openQty i side + leavesOf i side h o')
    (hest : ∀ k, k ≠ h → s'.estimates k = s.estimates k) (hnonneg : 0 ≤ (s'.estimates h).qty)
    (hpending : s'.stats.syntheticPending +
        (pendingOne (s.estimates h) + recordsPending s.recentlyTerminal) =
      s.stats.syntheticPending +
        (pendingOne (s'.estimates h) + recordsPending s'.recentlyTerminal)) :
    Accounts s' := by
  have ho' : s'.get h = some o' := by rw [hget, if_pos rfl]
  refine hacc.of_slot (lt_of_live ho) ?_ ?_ ?_ ?_ ?_ hest (fun _ _ => hnonneg) ?_
  · intro k hk
    rw [hget, if_neg hk]
  · intro p hp
    rw [ho'] at hp
    rw [← Option.some.inj hp]
    exact hok
  · rw [term_some ho, term_some ho', hopened]
    rfl
  · intro i
    rw [term_some ho, term_some ho', hperInst]
    unfold ofInst
    rw [hinst]
  · intro i side
    rw [term_some ho, term_some ho']
    exact hqty i side
  · rw [term_some ho, term_some ho']
    exact hpending

/-- A change of the estimates and the records alone. -/
theorem Accounts.of_pending (hslots : s'.pool.slots = s.pool.slots)
    (hopened : s'.stats.opened = s.stats.opened)
    (hperInst : s'.openPerInst = s.openPerInst) (hqty : s'.openQty = s.openQty)
    (hnonneg : ∀ h o, s.get h = some o → 0 ≤ (s'.estimates h).qty)
    (hpending : s'.stats.syntheticPending =
      s'.total s'.pendingAt + recordsPending s'.recentlyTerminal) : Accounts s' := by
  have hget : ∀ k, s'.get k = s.get k := fun k => by
    unfold get
    rw [hslots]
  have htotal : ∀ {M : Type} [AddCommMonoid M] (f : Nat → Order → M), s'.total f = s.total f := by
    intro M _ f
    unfold total term
    simp only [hget]
  refine ⟨?_, ?_, ?_, ?_, hpending, fun k o ho => hnonneg k o (hget k ▸ ho)⟩
  · intro k o ho
    exact hacc.orders k o (hget k ▸ ho)
  · rw [hopened, htotal]
    exact hacc.opened
  · intro i
    rw [hperInst, htotal]
    exact hacc.perInst i
  · intro i side
    rw [hqty, htotal]
    exact hacc.qty i side

theorem Accounts.of_alike (h : Alike s s') : Accounts s' := by
  refine hacc.of_pending h.slots h.opened h.openPerInst h.openQty
    (fun k o ho => h.estimates ▸ hacc.est_nonneg k o ho) ?_
  rw [h.syntheticPending, h.recentlyTerminal, hacc.pending]
  unfold total term pendingAt get
  rw [h.slots, h.estimates]

/-- The best own price is no part of the accounts. -/
theorem Accounts.of_best (hslots : s'.pool.slots = s.pool.slots)
    (hstats : s'.stats = s.stats) (hring : s'.recentlyTerminal = s.recentlyTerminal)
    (hperInst : s'.openPerInst = s.openPerInst) (hqty : s'.openQty = s.openQty)
    (hest : s'.estimates = s.estimates) : Accounts s' := by
  refine hacc.of_pending hslots (by rw [hstats]) hperInst hqty
    (fun k o ho => hest ▸ hacc.est_nonneg k o ho) ?_
  rw [hstats, hring, hacc.pending]
  unfold total term pendingAt get
  rw [hslots, hest]

end

/-- The counters of `remember_terminal` give up the leaving record's estimate. -/
theorem rememberedStats_pending (st : OmsStats) (ring : TerminalRing)
    (hle : leavingOne ring ≤ st.syntheticPending) :
    (rememberedStats st ring).syntheticPending + leavingOne ring = st.syntheticPending ∧
      (rememberedStats st ring).opened = st.opened := by
  unfold rememberedStats
  unfold leavingOne pendingOne at *
  by_cases hf : ring.full = true
  · by_cases hp : 0 < ring.front.estimate.qty
    · simp only [hf, hp, and_self, if_true] at hle ⊢
      exact ⟨by omega, trivial⟩
    · simp [hf, hp]
  · simp [hf]

theorem Accounts.leaving_le (hacc : Accounts s) :
    leavingOne s.recentlyTerminal ≤ s.stats.syntheticPending := by
  have := leavingOne_le s.recentlyTerminal
  rw [hacc.pending]
  omega

/-- A live order that counts keeps a count positive. -/
theorem one_le_total {f : Nat → Order → Nat}
    (ho : s.get h = some o) (hf : f h o = 1) : 1 ≤ s.total f := by
  have hmem : h ∈ Finset.range kMaxOpenOrders := Finset.mem_range.mpr (lt_of_live ho)
  have hterm : s.term f h = 1 := (term_some ho f).trans hf
  rw [← hterm]
  exact Finset.single_le_sum (f := s.term f) (fun _ _ => Nat.zero_le _) hmem

theorem Accounts.ended {o o' : Order} (hacc : Accounts s)
    (ho : s.get h = some o) (hterms : SameTerms o o') (st : OrderState) (br : Bool) :
    Accounts (s.ended h o' st br) := by
  have hget : ∀ k, (s.ended h o' st br).get k = if k = h then none else s.get k :=
    slots_free ho
  have hdead : (s.ended h o' st br).get h = none := by rw [hget, if_pos rfl]
  have hstats := rememberedStats_pending { s.stats with
      canceled := if st = .canceled then s.stats.canceled + 1 else s.stats.canceled
      opened := s.stats.opened - 1 } s.recentlyTerminal hacc.leaving_le
  refine hacc.of_slot (lt_of_live ho) ?_ ?_ ?_ ?_ ?_ ?_ ?_ ?_
  · intro k hk
    rw [hget, if_neg hk]
  · intro p hp
    simp [hdead] at hp
  · have hone : 1 ≤ s.stats.opened := hacc.opened ▸ one_le_total ho rfl
    have hdown : (s.ended h o' st br).stats.opened = s.stats.opened - 1 := hstats.2
    rw [term_some ho, term_none hdead, hdown]
    unfold one
    omega
  · intro i
    have hdown : (s.ended h o' st br).openPerInst i =
        if i = o.instrument.value then s.openPerInst i - 1 else s.openPerInst i := by
      rw [← hterms.instrument]
      rfl
    rw [term_some ho, term_none hdead, hdown]
    by_cases hi : o.instrument.value = i
    · have hone : 1 ≤ s.openPerInst i :=
        hacc.perInst i ▸ one_le_total ho (by simp [ofInst, hi])
      simp only [ofInst, hi, if_true]
      omega
    · simp [ofInst, hi, Ne.symm hi]
  · intro i side
    have hdown : (s.ended h o' st br).openQty i side =
        if i = o.instrument.value ∧ side = o.side then s.openQty i side + -o.leavesQty
        else s.openQty i side := by
      rw [← hterms.instrument, ← hterms.side, ← hterms.leavesQty]
      rfl
    rw [term_some ho, term_none hdead, hdown]
    unfold leavesOf
    split <;> simp
  · intro k hk
    exact update_of_ne hk _ _
  · intro p hp
    simp [hdead] at hp
  have hpush := recordsPending_push s.recentlyTerminal (recordOf o' st br (s.estimates h))
  have hring : (s.ended h o' st br).recentlyTerminal =
      s.recentlyTerminal.push (recordOf o' st br (s.estimates h)) := rfl
  have hdown : (s.ended h o' st br).stats.syntheticPending + leavingOne s.recentlyTerminal =
      s.stats.syntheticPending := hstats.1
  have hrecord : pendingOne (recordOf o' st br (s.estimates h)).estimate =
      s.pendingAt h o := rfl
  rw [term_some ho, term_none hdead, hring]
  omega

/-- The leaves an order gives up and takes on are its contribution. -/
theorem leavesOf_add (q d : Qty) (o o' : Order) {h i : Nat} {side : Side}
    (hinst : o'.instrument = o.instrument) (hside : o'.side = o.side)
    (hd : o.leavesQty + d = o'.leavesQty) :
    (if i = o.instrument.value ∧ side = o.side then q + d else q) + leavesOf i side h o =
      q + leavesOf i side h o' := by
  unfold leavesOf
  rw [hinst, hside, ← hd]
  split
  · ring
  · rfl

/-- The replacement's terms are fit for a live order. -/
theorem OrderOk.replacedOrder (hok : OrderOk o) (hpend : o.state = .pendingReplace)
    (rekey newVenueOrder : Bool) : OrderOk (replacedOrder o rekey newVenueOrder) := by
  have hpos := hok.pending_pos hpend
  have hcum := hok.cum_nonneg
  have hwork := replacedOrder_isWorking o rekey newVenueOrder
  have hqty : (Oms.replacedOrder o rekey newVenueOrder).qty = o.pendingQty := rfl
  have hnew : (Oms.replacedOrder o rekey newVenueOrder).cumQty =
      if o.pendingQty < (if newVenueOrder = true then 0 else o.cumQty) then o.pendingQty
      else if newVenueOrder = true then 0 else o.cumQty := rfl
  have hbound : 0 ≤ (if newVenueOrder = true then 0 else o.cumQty) := by
    split
    · exact le_refl 0
    · exact hcum
  generalize (if newVenueOrder = true then 0 else o.cumQty) = cum at hnew hbound
  refine ⟨?_, ?_, ?_, ?_⟩
  · unfold Order.isWorking at hwork
    cases hst : (Oms.replacedOrder o rekey newVenueOrder).state <;> rw [hst] at hwork <;>
      first | rfl | exact absurd hwork (by decide)
  · rw [hnew]
    split
    · exact le_of_lt hpos
    · exact hbound
  · rw [hnew, hqty]
    split
    · exact le_refl _
    · exact not_lt.mp ‹_›
  · intro hst
    unfold Order.isWorking at hwork
    rw [hst] at hwork
    exact absurd hwork (by decide)

theorem Accounts.replaced (hacc : Accounts s)
    (ho : s.get h = some o) (hpend : o.state = .pendingReplace) (rekey newVenueOrder : Bool) :
    Accounts (s.replaced h o rekey newVenueOrder) := by
  have hok := hacc.orders h o ho
  obtain ⟨hsp, hopened⟩ := rememberedStats_pending s.stats s.recentlyTerminal hacc.leaving_le
  have hqty : ∀ i side, (s.replaced h o rekey newVenueOrder).openQty i side + leavesOf i side h o =
      s.openQty i side + leavesOf i side h (replacedOrder o rekey newVenueOrder) := by
    intro i side
    rw [← leavesOf_add (s.openQty i side)
      (-o.leavesQty + (replacedOrder o rekey newVenueOrder).leavesQty) o
      (replacedOrder o rekey newVenueOrder) rfl rfl (by ring)]
    unfold Oms.replaced
    simp only [add_assoc]
  refine hacc.of_set ho (slots_set ho) (hok.replacedOrder hpend rekey newVenueOrder) rfl
    ?_ rfl hqty ?_ ?_ ?_
  · unfold Oms.replaced
    simp only
    split
    · exact hopened
    · rfl
  · intro k hk
    unfold Oms.replaced
    simp only
    split
    · exact update_of_ne hk _ _
    · rfl
  · unfold Oms.replaced
    simp only
    split
    · rw [update_self]
    · exact hacc.est_nonneg h o ho
  have hpush := recordsPending_push s.recentlyTerminal (oldLegRecord o (s.estimates h))
  have hrecord : pendingOne (oldLegRecord o (s.estimates h)).estimate =
      pendingOne (s.estimates h) := rfl
  unfold Oms.replaced
  simp only
  split
  · rw [update_self]
    have hzero : pendingOne {} = 0 := rfl
    omega
  · rfl

theorem Accounts.absorbed (hacc : Accounts s)
    (ho : s.get h = some o) {reported : Qty} (hmore : ¬ absorbedCum o reported ≤ o.cumQty) :
    Accounts (s.absorbed h o reported) := by
  have hok := hacc.orders h o ho
  have hle : absorbedCum o reported ≤ o.qty := by
    unfold absorbedCum
    split
    · exact le_refl _
    · exact not_lt.mp ‹_›
  have hqty : ∀ i side, (s.absorbed h o reported).openQty i side + leavesOf i side h o =
      s.openQty i side + leavesOf i side h { o with cumQty := absorbedCum o reported } := by
    intro i side
    refine leavesOf_add _ _ o { o with cumQty := absorbedCum o reported } rfl rfl ?_
    unfold Order.leavesQty
    ring
  have hest : (s.absorbed h o reported).estimates h =
      ⟨(s.estimates h).qty + (absorbedCum o reported - o.cumQty), o.price⟩ :=
    update_self _ _ _
  have hnonneg := hacc.est_nonneg h o ho
  have hpos : 0 < (s.estimates h).qty + (absorbedCum o reported - o.cumQty) := by linarith
  refine hacc.of_set ho (slots_set ho)
    ⟨hok.open_state, le_trans hok.cum_nonneg (le_of_not_ge hmore), hle, hok.pending_pos⟩
    rfl rfl rfl hqty (fun k hk => update_of_ne hk _ _) ?_ ?_
  · rw [hest]
    exact le_of_lt hpos
  have hring : (s.absorbed h o reported).recentlyTerminal = s.recentlyTerminal := rfl
  have hsp : (s.absorbed h o reported).stats.syntheticPending =
      if 0 < (s.estimates h).qty then s.stats.syntheticPending
      else s.stats.syntheticPending + 1 := rfl
  rw [hest, hring, hsp]
  unfold pendingOne
  simp only [hpos, if_true]
  split <;> omega

theorem filledCum_bounds (m : OrderFillMsg) (corrected : Qty) (hok : OrderOk o) :
    o.cumQty ≤ filledCum m o corrected ∧ filledCum m o corrected ≤ o.qty := by
  have hle := hok.cum_le
  unfold filledCum
  simp only
  generalize (if 0 < m.cumQty then m.cumQty else o.cumQty + (m.qty - corrected)) = cum
  split <;> split <;> constructor <;> linarith

/-- Taking from an outstanding estimate leaves one that counts as its rest
does. -/
theorem takenRest_spec {e : Estimate} (qty : Qty) : 0 ≤ (takenRest e qty).qty ∧
      pendingOne (takenRest e qty) = if 0 < e.qty - takenQty e qty then 1 else 0 := by
  unfold takenRest pendingOne
  by_cases hp : 0 < e.qty - takenQty e qty
  · simp only [if_pos hp]
    exact ⟨le_of_lt hp, trivial⟩
  · simp only [if_neg hp]
    exact ⟨le_refl 0, rfl⟩

/-- The counters of an estimate that is taken from. -/
theorem takenStats_pending {e : Estimate} (qty : Qty) {st : OmsStats} (hpos : 0 < e.qty)
    (hone : 1 ≤ st.syntheticPending) :
    (takenStats e qty st).syntheticPending + pendingOne e =
      st.syntheticPending + pendingOne (takenRest e qty) := by
  rw [(takenRest_spec qty).2]
  unfold takenStats pendingOne
  simp only [hpos, if_true]
  split <;> omega

/-- An outstanding estimate of an open order is counted. -/
theorem Accounts.pending_of_slot (hacc : Accounts s)
    (ho : s.get h = some o) (hpos : 0 < (s.estimates h).qty) :
    1 ≤ s.stats.syntheticPending := by
  have hone := one_le_total (f := s.pendingAt) ho (by simp [pendingAt, pendingOne, hpos])
  rw [hacc.pending]
  omega

/-- An outstanding estimate of a record is counted. -/
theorem Accounts.pending_of_record {id : ClientOrderId} {r : TerminalRecord}
    (hacc : Accounts s) (hr : s.findTerminal id = some r) (hpos : 0 < r.estimate.qty) :
    1 ≤ s.stats.syntheticPending := by
  have hrec := recordsPending_setPos s.recentlyTerminal hr { r with estimate := {} }
  have hpone : pendingOne r.estimate = 1 := if_pos hpos
  have hzero : pendingOne ({} : Estimate) = 0 := rfl
  rw [hacc.pending]
  simp only at hrec
  omega

/-- Every edit keeps the accounts. -/
theorem Accounts.edit {t : Target} {s s' : Oms} (hacc : Accounts s) (he : Edit t s s') :
    Accounts s' := by
  cases he with
  | quiet hq => exact hacc.of_alike hq
  | touch ho hterms hopen hpend =>
    have hok := hacc.orders _ _ ho
    refine hacc.of_set ho (slots_set ho) ⟨hopen hok.open_state, ?_, ?_, ?_⟩
      hterms.instrument rfl rfl ?_ (fun _ _ => rfl) (hacc.est_nonneg _ _ ho) rfl
    · rw [hterms.cumQty]
      exact hok.cum_nonneg
    · rw [hterms.cumQty, hterms.qty]
      exact hok.cum_le
    · rw [hterms.pendingQty]
      exact fun hst => hok.pending_pos (hpend.mp hst)
    intro i side
    unfold leavesOf
    rw [hterms.instrument, hterms.side, hterms.leavesQty]
    rfl
  | @revert s h o ho hpend =>
    have hok := hacc.orders _ _ ho
    refine hacc.of_set ho (slots_set ho)
      ⟨workingState_isTerminal o, hok.cum_nonneg, hok.cum_le, ?_⟩ rfl rfl rfl (fun _ _ => rfl)
      (fun _ _ => rfl) (hacc.est_nonneg _ _ ho) rfl
    intro hst
    exact absurd hst (workingState_ne_pendingReplace o)
  | finish u st br ho hterms =>
    have hend := hacc.ended ho hterms st br
    rw [terminate_fst]
    split
    · exact hend.of_best rfl rfl rfl rfl rfl rfl
    · exact hend
  | absorb reported u ho =>
    rw [absorbCum_fst]
    split
    · exact hacc
    · exact hacc.absorbed ho ‹_›
  | @fill s h o m corrected vid ho =>
    have hok := hacc.orders _ _ ho
    obtain ⟨hge, hle⟩ := filledCum_bounds m corrected hok
    refine hacc.of_set ho (slots_set ho)
      ⟨hok.open_state, le_trans hok.cum_nonneg hge, hle, hok.pending_pos⟩ rfl rfl rfl ?_
      (fun _ _ => rfl) (hacc.est_nonneg _ _ ho) rfl
    intro i side
    refine leavesOf_add _ _ o { o with cumQty := filledCum m o corrected, venueOrderId := vid }
      rfl rfl ?_
    unfold Order.leavesQty
    ring
  | @take s h o qty ho hpos =>
    have hone := hacc.pending_of_slot ho hpos
    have hstats := takenStats_pending qty hpos hone
    have hself : update s.estimates h (takenRest (s.estimates h) qty) h =
        takenRest (s.estimates h) qty := update_self _ _ _
    have hget : ∀ k, s.get k = if k = h then some o else s.get k := by
      intro k
      split_ifs with hk
      · rw [hk]
        exact ho
      · rfl
    refine hacc.of_set ho hget (hacc.orders h o ho) rfl rfl rfl (fun _ _ => rfl)
      (fun k hk => update_of_ne hk _ _) ?_ ?_
    · exact le_of_le_of_eq (takenRest_spec qty).1 (congrArg Estimate.qty hself.symm)
    have hnew : pendingOne (update s.estimates h (takenRest (s.estimates h) qty) h) =
        pendingOne (takenRest (s.estimates h) qty) := congrArg pendingOne hself
    simp only [withStats, setEstimate]
    omega
  | @takeRecord s id r qty hr hpos =>
    have hset := recordsPending_setPos s.recentlyTerminal hr
      { r with estimate := takenRest r.estimate qty }
    have hone := hacc.pending_of_record hr hpos
    have hstats := takenStats_pending qty hpos hone
    refine hacc.of_pending rfl rfl rfl rfl hacc.est_nonneg ?_
    have hsum := hacc.pending
    have hnew : (takenStats r.estimate qty s.stats).syntheticPending = s.total s.pendingAt +
        recordsPending (s.recentlyTerminal.setPos (s.terminalPos id)
          { r with estimate := takenRest r.estimate qty }) := by
      simp only at hset
      omega
    exact hnew
  | @late s id r cum st hr =>
    have hset := recordsPending_setPos s.recentlyTerminal hr { r with cumQty := cum, state := st }
    refine hacc.of_pending rfl rfl rfl rfl hacc.est_nonneg ?_
    have hsum := hacc.pending
    have hnew : s.stats.syntheticPending = s.total s.pendingAt +
        recordsPending (s.recentlyTerminal.setPos (s.terminalPos id)
          { r with cumQty := cum, state := st }) := by
      simp only at hset
      omega
    exact hnew
  | replace u newVenueOrder ho hpend =>
    have hrep := hacc.replaced ho hpend
    rw [applyReplace_fst]
    split
    · exact (hrep _ _).of_best rfl rfl rfl rfl rfl rfl
    · split
      · exact (hrep _ _).of_best rfl rfl rfl rfl rfl rfl
      · exact hrep _ _

/-! ## Outbound calls keep it -/

theorem Accounts.submit (hacc : Accounts s) (req : NewOrderRequest) (id : ClientOrderId)
    (now : Timestamp) (hqty : 0 < req.qty) : Accounts (s.submit req id now).1 := by
  rcases s.submit_cases req id now with ⟨h, _, hsub⟩ | ⟨_, halike⟩
  · obtain ⟨pool, ids, halloc, -, hs'⟩ := hsub.state
    obtain ⟨hdead, hlt, _⟩ := allocate_spec halloc
    have hsubmitted : Accounts (s.submitted h pool ids (submittedOrder req id now) now) := by
      generalize ho : submittedOrder req id now = o
      have hget := get_submitted ids o now halloc
      have hlive : (s.submitted h pool ids o now).get h = some o := by rw [hget, if_pos rfl]
      have hnone : s.get h = none := hdead
      refine hacc.of_slot hlt ?_ ?_ ?_ ?_ ?_ ?_ ?_ ?_
      · intro k hk
        rw [hget, if_neg hk]
      · intro p hp
        rw [hlive] at hp
        rw [← Option.some.inj hp]
        refine ⟨?_, ?_, ?_, ?_⟩
        · rw [← ho]
          rfl
        · rw [← ho]
          exact le_refl 0
        · rw [← ho]
          exact le_of_lt hqty
        · intro hst
          rw [← ho] at hst
          exact absurd hst (by simp [submittedOrder])
      · rw [term_none hnone, term_some hlive]
        rfl
      · intro i
        rw [term_none hnone, term_some hlive]
        unfold Oms.submitted ofInst
        by_cases hi : o.instrument.value = i
        · simp [hi]
        · simp [hi, Ne.symm hi]
      · intro i side
        have hleaves : o.leavesQty = o.qty := by
          rw [← ho]
          simp [submittedOrder, Order.leavesQty]
        rw [term_none hnone, term_some hlive]
        unfold Oms.submitted leavesOf
        rw [hleaves]
        simp only
        split <;> simp
      · intro k hk
        exact update_of_ne hk _ _
      · intro p _
        exact le_of_eq (congrArg Estimate.qty (update_self h {} s.estimates)).symm
      have hzero : (s.submitted h pool ids o now).pendingAt h o = 0 := by
        unfold pendingAt
        rw [show (s.submitted h pool ids o now).estimates h = {} from update_self _ _ _]
        rfl
      rw [term_none hnone, term_some hlive, hzero]
      rfl
    rw [hs']
    split
    · exact hsubmitted.of_best rfl rfl rfl rfl rfl rfl
    · exact hsubmitted
  · exact hacc.of_alike halike

theorem Accounts.requestReplace (hacc : Accounts s) (h : Nat) (newId : ClientOrderId)
    (px : Price) (qty : Qty) (now : Timestamp) (hqty : 0 < qty) :
    Accounts (s.requestReplace h newId px qty now).1 := by
  rcases s.requestReplace_cases h newId px qty now with ⟨o, _, hrep⟩ | ⟨_, hsame⟩
  · obtain ⟨ids, _, hs'⟩ := hrep.state
    have ho := hrep.order
    have hok := hacc.orders h o ho
    rw [hs']
    exact hacc.of_set ho (slots_set ho) ⟨rfl, hok.cum_nonneg, hok.cum_le, fun _ => hqty⟩ rfl rfl rfl
      (fun _ _ => rfl) (fun _ _ => rfl) (hacc.est_nonneg h o ho) rfl
  · rw [hsame]
    exact hacc

/-! ## Whole runs -/

/-- Orders and replacements are of a positive quantity, and a replace is given a
valid id. -/
def PositiveQty (_ : Oms) : Call → Prop
  | .submit req _ _ => 0 < req.qty
  | .requestReplace _ newId _ qty _ => newId.valid = true ∧ 0 < qty
  | _ => True

theorem PositiveQty.validReplace {c : Call} (hc : PositiveQty s c) : ValidReplace s c := by
  cases c with
  | requestReplace h newId px qty now => exact hc.1
  | submit req id now => exact trivial
  | requestCancel h => exact trivial
  | requestCancelUnacked h => exact trivial

theorem Accounts.init (epoch maxSeq : Nat) : Accounts (Oms.init epoch maxSeq) := by
  have hget : ∀ k, (Oms.init epoch maxSeq).get k = none := fun _ => rfl
  have htotal : ∀ {M : Type} [AddCommMonoid M] (f : Nat → Order → M),
      (Oms.init epoch maxSeq).total f = 0 := fun f =>
    Finset.sum_eq_zero fun k _ => term_none (hget k) f
  refine ⟨?_, ?_, ?_, ?_, ?_, ?_⟩
  · intro h o ho
    exact absurd ho (by simp [hget])
  · exact (htotal one).symm
  · exact fun i => (htotal (ofInst i)).symm
  · exact fun i side => (htotal (leavesOf i side)).symm
  · rw [htotal]
    rfl
  · intro h o ho
    exact absurd ho (by simp [hget])

/-- The id map and the accounts are right in every reachable state. -/
theorem Reachable.accounts {P : Oms → Call → Prop} (hP : ∀ s c, P s c → PositiveQty s c)
    (h : Reachable P s) : IdsOk s ∧ Accounts s := by
  exact h.with_idsOk (fun s c hc => (hP s c hc).validReplace) Accounts.init
    (fun _ _ hs => hs.of_best rfl rfl rfl rfl rfl rfl) (fun _ _ _ hs he => hs.edit he)
    (fun s req id now hs hc => hs.submit req id now (hP s _ hc))
    (fun s h newId px qty now hs hc => hs.requestReplace h newId px qty now (hP s _ hc).2)

/-- The accounting invariant.  In every state a run reaches, whatever the
messages carry: a live order's cumulative quantity lies between zero and its
quantity; the open quantity of an instrument and side is the sum of the leaves
of its live orders; the open counts are the numbers of live orders; the visit of
an instrument meets exactly its live orders; and the gauge of outstanding
estimates counts the live orders and remembered records that hold one. -/
theorem accounting (h : Reachable PositiveQty s) :
    (∀ h o, s.get h = some o → 0 ≤ o.cumQty ∧ o.cumQty ≤ o.qty) ∧
      (∀ i side, s.openQtyOf i side =
        s.total fun _ o => if o.instrument = i ∧ o.side = side then o.leavesQty else 0) ∧
      s.openCount = s.total (fun _ _ => 1) ∧
      (∀ i, s.openCountOf i = s.total fun _ o => if o.instrument = i then 1 else 0) ∧
      (∀ i h, h ∈ s.openOrdersOf i ↔ ∃ o, s.get h = some o ∧ o.instrument = i) ∧
      (∀ i, (s.openOrdersOf i).Pairwise (· < ·)) ∧
      s.stats.syntheticPending =
        (s.total fun h _ => if 0 < (s.estimates h).qty then 1 else 0) +
          ∑ pos ∈ Finset.Ico s.recentlyTerminal.head s.recentlyTerminal.tail,
            if 0 < (s.recentlyTerminal.buf (pos % kRecentlyTerminal)).estimate.qty then 1
              else 0 := by
  obtain ⟨_, hacc⟩ := h.accounts fun _ _ hc => hc
  obtain ⟨_, hix⟩ := h.instIndex fun _ _ hc => PositiveQty.validReplace hc
  refine ⟨?_, ?_, hacc.opened, ?_, fun i => (hix.openOrdersOf i).1,
    fun i => (hix.openOrdersOf i).2, hacc.pending⟩
  · exact fun h o ho => ⟨(hacc.orders h o ho).cum_nonneg, (hacc.orders h o ho).cum_le⟩
  · intro i side
    refine (hacc.qty i.value side).trans ?_
    congr 1
    funext h o
    unfold leavesOf
    simp only [eq_comm, InstrumentId.value_inj]
  · intro i
    refine (hacc.perInst i.value).trans ?_
    congr 1
    funext h o
    unfold ofInst
    simp only [InstrumentId.value_inj]

theorem accounting_partial_fill :
    (((init 1 kMaxSeq).step (.call (.submit { instrument := ⟨3⟩, qty := 5 } ⟨1⟩ 0))).step
        (.msg (.openOrder { clOrdId := ⟨1⟩, cumQty := 2 }))).stats.syntheticPending = 1 ∧
      ∀ i, ((((init 1 kMaxSeq).step (.call (.submit { instrument := ⟨3⟩, qty := 5 } ⟨1⟩ 0))).step
        (.msg (.openOrder { clOrdId := ⟨1⟩, cumQty := 2 }))).openOrdersOf i).Pairwise (· < ·) := by
  have hsubmit : PositiveQty (init 1 kMaxSeq) (.submit { instrument := ⟨3⟩, qty := 5 } ⟨1⟩ 0) := by
    simp [PositiveQty]
  have hreach := ((Reachable.init 1 kMaxSeq).call hsubmit).msg
    (.openOrder { clOrdId := ⟨1⟩, cumQty := 2 })
  exact ⟨rfl, (accounting hreach).2.2.2.2.2.1⟩

end Oms

end FastMM
