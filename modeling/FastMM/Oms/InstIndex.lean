/-
  Oms/InstIndex.lean --- the index of live orders by instrument.

  `by_inst_` keeps a bit per live order under its instrument's bucket, for
  `for_each_open_order(InstrumentId)` and for `recompute_best_own`.  `submit`
  accepts only instruments below `kMaxInstruments`, so an instrument is its own
  bucket, and the bits are exactly the live orders.

  An order never changes its instrument: only an end and a submit move a bit.
-/
import FastMM.Oms.IdMap
set_option autoImplicit false

namespace FastMM

open Option Pool

namespace Oms

/-- The bits are the live orders. -/
structure InstIndex (s : Oms) : Prop where
  instrument_lt : ∀ h o, s.get h = some o → o.instrument.value < kMaxInstruments
  bits : ∀ b h, s.byInst.bits b h = true ↔ ∃ o, s.get h = some o ∧ o.instrument.value = b

namespace InstIndex

variable {s s' : Oms} {h : Nat} {o o' : Order}

/-- A change that moves no order to another instrument. -/
theorem of_instruments (hix : InstIndex s) (hbyInst : s'.byInst = s.byInst)
    (hget : ∀ k, (s'.get k).map (·.instrument) = (s.get k).map (·.instrument)) :
    InstIndex s' := by
  have hlive : ∀ k b, (∃ o, s'.get k = some o ∧ o.instrument.value = b) ↔
      ∃ o, s.get k = some o ∧ o.instrument.value = b := by
    intro k b
    have hk := hget k
    cases hs : s.get k with
    | none =>
      rw [hs, map_none, map_eq_none_iff] at hk
      simp [hk]
    | some p =>
      rw [hs, map_some, map_eq_some_iff] at hk
      obtain ⟨p', hp', hinst⟩ := hk
      simp [hp', hinst]
  constructor
  · intro k p hp
    obtain ⟨q, hq, hval⟩ := (hlive k p.instrument.value).mp ⟨p, hp, rfl⟩
    rw [← hval]
    exact hix.instrument_lt k q hq
  · intro b k
    rw [hbyInst, hix.bits, hlive]

/-- A change of one live order. -/
theorem of_set (hix : InstIndex s) (ho : s.get h = some o) (hbyInst : s'.byInst = s.byInst)
    (hget : ∀ k, s'.get k = if k = h then some o' else s.get k)
    (hinst : o'.instrument = o.instrument) : InstIndex s' := by
  refine hix.of_instruments hbyInst ?_
  intro k
  rw [hget]
  split_ifs with hk
  · rw [hk, ho, map_some, map_some, hinst]
  · rfl

theorem of_slots (hix : InstIndex s) (hbyInst : s'.byInst = s.byInst)
    (hslots : s'.pool.slots = s.pool.slots) : InstIndex s' := by
  refine hix.of_instruments hbyInst ?_
  intro k
  unfold get
  rw [hslots]

/-- An instrument below the bound is its own bucket. -/
theorem bucket_eq {i : Nat} (hi : i < kMaxInstruments) :
    BucketBits.bucket kMaxInstruments i = i := Nat.mod_eq_of_lt hi

section

variable (hix : InstIndex s)
include hix

/-- An end takes the order's bit with it. -/
theorem ended (ho : s.get h = some o) (hterms : SameTerms o o')
    (st : OrderState) (br : Bool) : InstIndex (s.ended h o' st br) := by
  have hget : ∀ k, (s.ended h o' st br).get k = if k = h then none else s.get k :=
    slots_free ho
  have hbucket : BucketBits.bucket kMaxInstruments o'.instrument.value = o.instrument.value := by
    rw [hterms.instrument]
    exact bucket_eq (hix.instrument_lt h o ho)
  constructor
  · intro k p hp
    rw [hget] at hp
    split at hp
    · nomatch hp
    · exact hix.instrument_lt k p hp
  intro b k
  have hbits := BucketBits.bits_clear s.byInst
    (BucketBits.bucket kMaxInstruments o'.instrument.value) h b k
  refine Iff.trans (iff_of_eq (congrArg (· = true) hbits)) ?_
  rw [hbucket, hget]
  by_cases hk : k = h
  · rw [if_pos hk]
    by_cases hb : b = o.instrument.value
    · simp [hb, hk]
    have hclear : s.byInst.bits b k ≠ true := by
      rw [hk, ne_eq, hix.bits]
      rintro ⟨p, hp, hb'⟩
      rw [ho] at hp
      rw [← Option.some.inj hp] at hb'
      exact hb hb'.symm
    simp [hb, hclear]
  · rw [if_neg hk]
    simp [hk, hix.bits]

/-- Every edit keeps the index. -/
theorem edit {t : Target} (he : Edit t s s') : InstIndex s' := by
  cases he with
  | quiet hq => exact hix.of_slots hq.byInst hq.slots
  | touch ho hterms _ _ => exact hix.of_set ho rfl (slots_set ho) hterms.instrument
  | revert ho _ => exact hix.of_set ho rfl (slots_set ho) rfl
  | finish u st br ho hterms =>
    have hend := hix.ended ho hterms st br
    rw [terminate_fst]
    split
    · exact hend.of_slots rfl rfl
    · exact hend
  | absorb reported u ho =>
    rw [absorbCum_fst]
    split
    · exact hix
    · exact hix.of_set ho rfl (slots_set ho) rfl
  | fill m corrected vid ho => exact hix.of_set ho rfl (slots_set ho) rfl
  | take qty _ _ => exact hix.of_slots rfl rfl
  | takeRecord qty _ _ => exact hix.of_slots rfl rfl
  | late cum st _ => exact hix.of_slots rfl rfl
  | @replace s h o u newVenueOrder ho _ =>
    have hrep : ∀ rekey nv, InstIndex (s.replaced h o rekey nv) := fun rekey nv =>
      hix.of_set ho rfl (slots_set ho) (replacedOrder_instrument o rekey nv)
    rw [applyReplace_fst]
    split
    · exact (hrep _ _).of_slots rfl rfl
    · split
      · exact (hrep _ _).of_slots rfl rfl
      · exact hrep _ _

theorem submitted {pool : Pool Order kMaxOpenOrders} {ids : IdMap}
    (now : Timestamp) (halloc : s.pool.allocate = some (h, pool))
    (hinst : o.instrument.value < kMaxInstruments) : InstIndex (s.submitted h pool ids o now) := by
  have hget := get_submitted ids o now halloc
  have hdead : s.get h = none := (allocate_spec halloc).1
  constructor
  · exact forall_written hget hix.instrument_lt hinst
  intro b k
  have hbits := BucketBits.bits_set s.byInst
    (BucketBits.bucket kMaxInstruments o.instrument.value) h b k
  refine Iff.trans (iff_of_eq (congrArg (· = true) hbits)) ?_
  rw [bucket_eq hinst, hget]
  by_cases hk : k = h
  · rw [if_pos hk]
    by_cases hb : b = o.instrument.value
    · simp [hb, hk]
    have hclear : s.byInst.bits b k ≠ true := by
      rw [hk, ne_eq, hix.bits, hdead]
      rintro ⟨p, hp, _⟩
      nomatch hp
    simp [hb, hclear, Ne.symm hb]
  · rw [if_neg hk]
    simp [hk, hix.bits]

theorem submit (req : NewOrderRequest) (id : ClientOrderId) (now : Timestamp) :
    InstIndex (s.submit req id now).1 := by
  rcases s.submit_cases req id now with ⟨h, _, hsub⟩ | ⟨_, halike⟩
  · obtain ⟨pool, ids, halloc, _, hs'⟩ := hsub.state
    have hnew : InstIndex (s.submitted h pool ids (submittedOrder req id now) now) :=
      hix.submitted now halloc hsub.instrument
    rw [hs']
    split
    · exact hnew.of_slots rfl rfl
    · exact hnew
  · exact hix.of_slots halike.byInst halike.slots

theorem requestReplace (h : Nat) (newId : ClientOrderId) (px : Price)
    (qty : Qty) (now : Timestamp) : InstIndex (s.requestReplace h newId px qty now).1 := by
  rcases s.requestReplace_cases h newId px qty now with ⟨o, _, hrep⟩ | ⟨_, hsame⟩
  · obtain ⟨ids, _, hs'⟩ := hrep.state
    rw [hs']
    exact hix.of_set hrep.order rfl (slots_set hrep.order) rfl
  · rw [hsame]
    exact hix

end

theorem init (epoch maxSeq : Nat) : InstIndex (Oms.init epoch maxSeq) := by
  have hget : ∀ k, (Oms.init epoch maxSeq).get k = none := fun _ => rfl
  have hbits : ∀ b h, (Oms.init epoch maxSeq).byInst.bits b h = false := fun _ _ => rfl
  constructor
  · intro h o ho
    exact absurd ho (by simp [hget])
  · intro b h
    simp [hbits, hget]

/-- The slots of an instrument's bucket are its live orders. -/
theorem mem_forEach (hix : InstIndex s) {i : InstrumentId} (hi : i.value < kMaxInstruments) :
    h ∈ s.byInst.forEach (BucketBits.bucket kMaxInstruments i.value) ↔
      ∃ o, s.get h = some o ∧ o.instrument = i := by
  rw [BucketBits.mem_forEach, hix.bits, bucket_eq hi]
  constructor
  · rintro ⟨_, o, ho, hv⟩
    exact ⟨o, ho, InstrumentId.value_inj.mp hv⟩
  rintro ⟨o, ho, hv⟩
  have hlt : h < kMaxOpenOrders := lt_of_live ho
  refine ⟨?_, o, ho, InstrumentId.value_inj.mpr hv⟩
  unfold kMaxOpenOrders at *
  omega

/-- `for_each_open_order(InstrumentId)` visits exactly the live orders of the
instrument, each once and in slot order. -/
theorem openOrdersOf (hix : InstIndex s) (i : InstrumentId) :
    (∀ h, h ∈ s.openOrdersOf i ↔ ∃ o, s.get h = some o ∧ o.instrument = i) ∧
      (s.openOrdersOf i).Pairwise (· < ·) := by
  refine ⟨?_, (BucketBits.forEach_sorted s.byInst _).filter _⟩
  intro h
  unfold Oms.openOrdersOf
  rw [List.mem_filter]
  constructor
  · rintro ⟨hbit, hmatch⟩
    rw [BucketBits.mem_forEach, hix.bits] at hbit
    obtain ⟨_, o, ho, _⟩ := hbit
    rw [ho] at hmatch
    exact ⟨o, ho, by simpa using hmatch⟩
  · rintro ⟨o, ho, hi⟩
    have hlt : i.value < kMaxInstruments := hi ▸ hix.instrument_lt h o ho
    refine ⟨(hix.mem_forEach hlt).mpr ⟨o, ho, hi⟩, ?_⟩
    rw [ho]
    simpa using hi

end InstIndex

/-- The id map and the index are right in every reachable state. -/
theorem Reachable.instIndex {P : Oms → Call → Prop} (hP : ∀ s c, P s c → ValidReplace s c) {s : Oms}
    (h : Reachable P s) : IdsOk s ∧ InstIndex s := by
  exact h.with_idsOk hP InstIndex.init (fun _ _ hs => hs.of_slots rfl rfl)
    (fun _ _ _ hs he => hs.edit he) (fun _ req id now hs _ => hs.submit req id now)
    (fun _ h newId px qty now hs _ => hs.requestReplace h newId px qty now)

end Oms

end FastMM
