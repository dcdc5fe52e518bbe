/-
  Oms/BestOwn.lean --- when the best own price is exact.

  `best_own_` caches, per instrument and side, the best price among our own open
  orders, with zero for none; self-trade prevention reads it.  It is exact for
  limit orders.  A market order carries the price zero, which a Buy never prefers
  but a Sell does: a market Sell submitted while a limit Sell is live sets the
  cache to "none", and a rescan that meets one after a limit Sell does the same.

  `SellsApart` is the condition that keeps a market Sell from hiding a limit one:
  it is submitted only while no limit Sell of its instrument is live, no limit
  Sell takes a slot below it (the rescan is in slot order), and it is not
  replaced.  Under it the cache is exact in every reachable state.
-/
import FastMM.Oms.InstIndex
import FastMM.Foundation.CachedBest
import Mathlib.Tactic.Linarith
set_option autoImplicit false

namespace FastMM

open Foundation Pool

namespace Oms

/-! ## Prices -/

variable (s : Oms)
variable (inst : InstrumentId)
variable (side : Side)

/-- `better` as a relation. -/
def Better (p q : Price) : Prop := better side p q = true

instance (side : Side) : DecidableRel (Better side) := fun p q =>
  inferInstanceAs (Decidable (better side p q = true))

theorem Better.irrefl (p : Price) : ¬ Better side p p := by
  cases side <;> simp [Better, better]

theorem Better.trans (p q r : Price) (hpq : Better side p q)
    (hqr : Better side q r) : Better side p r := by
  cases side with
  | buy =>
    simp only [Better, better, decide_eq_true_eq] at *
    exact lt_trans hqr hpq
  | sell =>
    simp only [Better, better, decide_eq_true_eq] at *
    exact lt_trans hpq hqr

/-- A limit order of an instrument and side. -/
structure LimitOf (i : Nat) (side : Side) (o : Order) : Prop where
  instrument : o.instrument.value = i
  side : o.side = side
  limit : o.type ≠ .market

/-- The prices of the live limit orders of an instrument and side. -/
def limitPrices (i : Nat) (side : Side) : Set Price :=
  { p | ∃ h o, s.get h = some o ∧ LimitOf i side o ∧ o.price = p }

/-- An order priced as it is typed, as is its replacement while it waits.  A
market Sell has none. -/
structure Priced (o : Order) : Prop where
  limit : o.type ≠ .market → 0 < o.price
  market : o.type = .market → o.price = 0
  pendingLimit : o.state = .pendingReplace → o.type ≠ .market → 0 < o.pendingPrice
  pendingMarket : o.state = .pendingReplace → o.type = .market →
    o.pendingPrice = 0 ∧ o.side = .buy

/-- The cache is exact, orders are priced as they are typed, and a market Sell
sits in a slot below every limit Sell of its instrument. -/
structure BestOk (s : Oms) : Prop where
  cached : ∀ i side, CachedBest (Better side) 0 (s.limitPrices i side) (s.bestOwn i side)
  priced : ∀ h o, s.get h = some o → Priced o
  apart : ∀ h k o p, s.get h = some o → s.get k = some p → o.type = .market → o.side = .sell →
    LimitOf o.instrument.value .sell p → h < k

/-! ## The rescan -/

/-- The price a rescan reads at a slot. -/
def scannedPrice (h : Nat) : Option Price :=
  match s.get h with
  | some o => if o.side ≠ side ∨ o.instrument ≠ inst then none else some o.price
  | none => none

theorem scanBest_eq (best : Price) (h : Nat) : s.scanBest inst side best h =
      ((s.scannedPrice inst side h).map (scanStep (Better side) 0 best)).getD best := by
  unfold scanBest scannedPrice
  cases s.get h with
  | none => rfl
  | some o =>
    simp only
    split
    · rfl
    · rfl

theorem foldl_scanBest (hs : List Nat) (best : Price) : hs.foldl (s.scanBest inst side) best =
      (hs.filterMap (s.scannedPrice inst side)).foldl (scanStep (Better side) 0) best := by
  induction hs generalizing best with
  | nil => rfl
  | cons h hs ih =>
    rw [List.foldl_cons, ih, scanBest_eq]
    cases hp : s.scannedPrice inst side h with
    | none => rw [List.filterMap_cons_none hp, Option.map_none, Option.getD_none]
    | some p =>
      rw [List.filterMap_cons_some hp, List.foldl_cons, Option.map_some, Option.getD_some]

theorem scannedPrice_eq_some {s : Oms} {inst : InstrumentId} {side : Side} {h : Nat} {p : Price} :
    s.scannedPrice inst side h = some p ↔
      ∃ o, s.get h = some o ∧ o.side = side ∧ o.instrument = inst ∧ o.price = p := by
  unfold scannedPrice
  cases s.get h with
  | none => simp
  | some o =>
    simp only
    split_ifs with hm
    · constructor
      · nofun
      rintro ⟨o', ho', hs, hi, _⟩
      rw [← Option.some.inj ho'] at hs hi
      rcases hm with hm | hm
      · exact absurd hs hm
      · exact absurd hi hm
    · rw [not_or, not_not, not_not] at hm
      constructor
      · exact fun hp => ⟨o, rfl, hm.1, hm.2, Option.some.inj hp⟩
      · rintro ⟨o', ho', _, _, hp⟩
        rw [Option.some.inj ho', hp]

/-- The rescan is exact when market Sells sit below the limit Sells. -/
theorem rescan_exact {s : Oms} (hix : InstIndex s) (hpriced : ∀ h o, s.get h = some o → Priced o)
    (hapart : ∀ h k o p, s.get h = some o → s.get k = some p → o.type = .market →
      o.side = .sell → LimitOf o.instrument.value .sell p → h < k)
    {inst : InstrumentId} (hinst : inst.value < kMaxInstruments) (side : Side) :
    CachedBest (Better side) 0 (s.limitPrices inst.value side)
      ((s.byInst.forEach (BucketBits.bucket kMaxInstruments inst.value)).foldl
        (s.scanBest inst side) 0) := by
  rw [foldl_scanBest]
  generalize hxs : (s.byInst.forEach (BucketBits.bucket kMaxInstruments inst.value)).filterMap
    (s.scannedPrice inst side) = xs
  have hset : s.limitPrices inst.value side = { p | p ∈ xs ∧ p ≠ 0 } := by
    ext p
    rw [← hxs]
    simp only [limitPrices, Set.mem_ofPred_eq, List.mem_filterMap, scannedPrice_eq_some]
    constructor
    · rintro ⟨h, o, ho, hlim, hp⟩
      have hi : o.instrument = inst := by
        have hv := hlim.instrument
        cases hoi : o.instrument
        cases inst
        rw [hoi] at hv
        simpa using hv
      refine ⟨⟨h, (hix.mem_forEach hinst).mpr ⟨o, ho, hi⟩, o, ho, hlim.side, hi, hp⟩, ?_⟩
      rw [← hp]
      exact ne_of_gt ((hpriced h o ho).limit hlim.limit)
    · rintro ⟨⟨h, _, o, ho, hs, hi, hp⟩, hne⟩
      refine ⟨h, o, ho, ⟨by rw [hi], hs, ?_⟩, hp⟩
      intro hmarket
      exact hne (hp.symm.trans ((hpriced h o ho).market hmarket))
  rw [hset]
  refine CachedBest.scan (Better.irrefl side) (Better.trans side) xs ?_
  rw [← hxs, List.pairwise_filterMap]
  -- A later entry without a price is a market order in a higher slot.
  refine (BucketBits.forEach_sorted s.byInst _).imp ?_
  intro h k hlt p hp q hq hpne hqz hbetter
  obtain ⟨o, ho, hos, hoi, hop⟩ := scannedPrice_eq_some.mp hp
  obtain ⟨o', ho', hos', hoi', hop'⟩ := scannedPrice_eq_some.mp hq
  have hlimit : o.type ≠ .market := fun hm => hpne (hop.symm.trans ((hpriced h o ho).market hm))
  have hmarket : o'.type = .market := by
    by_contra hm
    have hpos := (hpriced k o' ho').limit hm
    rw [hop', hqz] at hpos
    exact lt_irrefl 0 hpos
  have hpos : 0 < p := hop ▸ (hpriced h o ho).limit hlimit
  rw [hqz] at hbetter
  cases side with
  | buy =>
    simp only [Better, better, decide_eq_true_eq] at hbetter
    exact lt_asymm hpos hbetter
  | sell =>
    have hbelow := hapart k h o' o ho' ho hmarket hos' ⟨by rw [hoi, hoi'], hos, hlimit⟩
    exact absurd hlt (Nat.lt_asymm hbelow)

/-! ## Edits keep it -/

/-- Two orders with the same instrument, side, type and price. -/
structure SameKey (o o' : Order) : Prop where
  instrument : o'.instrument = o.instrument
  side : o'.side = o.side
  type : o'.type = o.type
  price : o'.price = o.price

theorem SameKey.limitOf_iff {o o' : Order} (hk : SameKey o o') (i : Nat) (side : Side) :
    LimitOf i side o' ↔ LimitOf i side o := by
  constructor
  · intro h
    exact ⟨hk.instrument ▸ h.instrument, hk.side ▸ h.side, hk.type ▸ h.limit⟩
  · intro h
    exact ⟨hk.instrument.symm ▸ h.instrument, hk.side.symm ▸ h.side, hk.type.symm ▸ h.limit⟩

section Edits

variable {s s' : Oms} {h : Nat} {o o' : Order}

/-- One live order is rewritten and keeps its price. -/
theorem BestOk.of_set (hbest : BestOk s) (ho : s.get h = some o) (hcache : s'.bestOwn = s.bestOwn)
    (hget : ∀ k, s'.get k = if k = h then some o' else s.get k) (hkey : SameKey o o')
    (hpriced : Priced o') : BestOk s' := by
  have hfrom : ∀ k p, s'.get k = some p → ∃ q, s.get k = some q ∧ SameKey q p := by
    intro k p hp
    rw [hget] at hp
    split_ifs at hp with hk
    · rw [hk, ← Option.some.inj hp]
      exact ⟨o, ho, hkey⟩
    · exact ⟨p, hp, rfl, rfl, rfl, rfl⟩
  have hback : ∀ k q, s.get k = some q → ∃ p, s'.get k = some p ∧ SameKey q p := by
    intro k q hq
    rw [hget]
    split_ifs with hk
    · rw [hk, ho] at hq
      rw [← Option.some.inj hq]
      exact ⟨o', rfl, hkey⟩
    · exact ⟨q, hq, rfl, rfl, rfl, rfl⟩
  have hprices : ∀ i side, s'.limitPrices i side = s.limitPrices i side := by
    intro i side
    ext x
    constructor
    · rintro ⟨k, p, hp, hlim, hx⟩
      obtain ⟨q, hq, hsame⟩ := hfrom k p hp
      exact ⟨k, q, hq, (hsame.limitOf_iff i side).mp hlim, hsame.price ▸ hx⟩
    · rintro ⟨k, q, hq, hlim, hx⟩
      obtain ⟨p, hp, hsame⟩ := hback k q hq
      exact ⟨k, p, hp, (hsame.limitOf_iff i side).mpr hlim, hsame.price.trans hx⟩
  refine ⟨?_, ?_, ?_⟩
  · intro i side
    rw [hprices, hcache]
    exact hbest.cached i side
  · exact forall_written hget hbest.priced hpriced
  intro j k p q hp hq hmarket hsell hlim
  obtain ⟨p', hp', hsp⟩ := hfrom j p hp
  obtain ⟨q', hq', hsq⟩ := hfrom k q hq
  refine hbest.apart j k p' q' hp' hq' (hsp.type ▸ hmarket) (hsp.side ▸ hsell) ?_
  rw [← hsp.instrument]
  exact (hsq.limitOf_iff _ _).mp hlim

theorem BestOk.of_slots (hbest : BestOk s) (hslots : s'.pool.slots = s.pool.slots)
    (hcache : s'.bestOwn = s.bestOwn) : BestOk s' := by
  have hget : ∀ k, s'.get k = s.get k := fun k => by
    unfold get
    rw [hslots]
  refine ⟨?_, ?_, ?_⟩
  · intro i side
    have hprices : s'.limitPrices i side = s.limitPrices i side := by
      unfold limitPrices
      simp only [hget]
    rw [hprices, hcache]
    exact hbest.cached i side
  · intro k p hp
    exact hbest.priced k p (hget k ▸ hp)
  · intro j k p q hp hq
    exact hbest.apart j k p q (hget j ▸ hp) (hget k ▸ hq)

/-- The cache of one instrument and side is set; every other stays. -/
theorem cached_setBestOwn {inst : InstrumentId} {side : Side} {px : Price}
    (hself : CachedBest (Better side) 0 (s.limitPrices inst.value side) px)
    (hother : ∀ i side', ¬ (i = inst.value ∧ side' = side) →
      CachedBest (Better side') 0 (s.limitPrices i side') (s.bestOwn i side')) (i : Nat)
    (side' : Side) :
    CachedBest (Better side') 0 ((s.setBestOwn inst side px).limitPrices i side')
      ((s.setBestOwn inst side px).bestOwn i side') := by
  unfold setBestOwn
  simp only
  split_ifs with hi
  · rw [hi.1, hi.2]
    exact hself
  · exact hother i side' hi

section

variable (hbest : BestOk s) (hix : InstIndex s)
include hbest hix

/-- The remaining prices after an end. -/
theorem BestOk.ended (ho : s.get h = some o)
    (hterms : SameTerms o o') (u : OmsUpdate) (st : OrderState) (br : Bool) :
    BestOk (s.terminate u h o' st br).1 := by
  have hixe := hix.ended ho hterms st br
  have hget : ∀ k, (s.ended h o' st br).get k = if k = h then none else s.get k :=
    slots_free ho
  have hcache : (s.ended h o' st br).bestOwn = s.bestOwn := rfl
  have hlive : ∀ k p, (s.ended h o' st br).get k = some p → k ≠ h ∧ s.get k = some p := by
    intro k p hp
    rw [hget] at hp
    split at hp
    · nomatch hp
    · exact ⟨‹_›, hp⟩
  have hpriced : ∀ k p, (s.ended h o' st br).get k = some p → Priced p := fun k p hp =>
    hbest.priced k p (hlive k p hp).2
  have hapart : ∀ j k p q, (s.ended h o' st br).get j = some p →
      (s.ended h o' st br).get k = some q → p.type = .market → p.side = .sell →
      LimitOf p.instrument.value .sell q → j < k := fun j k p q hp hq =>
    hbest.apart j k p q (hlive j p hp).2 (hlive k q hq).2
  have hsub : ∀ i side, (s.ended h o' st br).limitPrices i side ⊆ s.limitPrices i side := by
    rintro i side x ⟨k, p, hp, hlim, hx⟩
    exact ⟨k, p, (hlive k p hp).2, hlim, hx⟩
  -- Off the ended order's price, the cached price still has its order.
  have hkeep : ∀ i side, ¬ (i = o.instrument.value ∧ side = o.side ∧ o.price = s.bestOwn i side) →
      CachedBest (Better side) 0 ((s.ended h o' st br).limitPrices i side) (s.bestOwn i side) := by
    intro i side hne
    refine (hbest.cached i side).of_subset (hsub i side) ?_
    intro hz
    obtain ⟨k, p, hp, hlim, hx⟩ := (hbest.cached i side).mem hz
    refine ⟨k, p, ?_, hlim, hx⟩
    rw [hget, if_neg]
    · exact hp
    intro hk
    rw [hk, ho] at hp
    have hop := Option.some.inj hp
    exact hne ⟨hop ▸ hlim.instrument.symm, hop ▸ hlim.side.symm, hop ▸ hx⟩
  rw [terminate_fst, hterms.price, hterms.instrument, hterms.side]
  split_ifs with hat
  · refine ⟨?_, hpriced, hapart⟩
    refine cached_setBestOwn ?_ ?_
    · exact rescan_exact hixe hpriced hapart (hix.instrument_lt h o ho) o.side
    · intro i side hi
      rw [hcache]
      exact hkeep i side fun hc => hi ⟨hc.1, hc.2.1⟩
  · refine ⟨?_, hpriced, hapart⟩
    intro i side
    rw [hcache]
    refine hkeep i side ?_
    rintro ⟨hi, hs, hp⟩
    rw [hi, hs] at hp
    exact hat hp

/-- The prices after a replace: the order's old price may go, its new one
comes. -/
theorem BestOk.replaced (ho : s.get h = some o)
    (hpend : o.state = .pendingReplace) (u : OmsUpdate) (rekey newVenueOrder : Bool) :
    BestOk (s.applyReplace u h o rekey newVenueOrder).1 := by
  have hget : ∀ k, (s.replaced h o rekey newVenueOrder).get k =
      if k = h then some (replacedOrder o rekey newVenueOrder) else s.get k := slots_set ho
  have hixr : InstIndex (s.replaced h o rekey newVenueOrder) :=
    hix.of_set ho rfl hget (replacedOrder_instrument o rekey newVenueOrder)
  have hcache : (s.replaced h o rekey newVenueOrder).bestOwn = s.bestOwn := rfl
  have hlimit : ∀ i side, LimitOf i side (replacedOrder o rekey newVenueOrder) ↔
      LimitOf i side o := fun i side => ⟨fun hl => ⟨hl.1, hl.2, hl.3⟩, fun hl => ⟨hl.1, hl.2, hl.3⟩⟩
  have hok := hbest.priced h o ho
  have hpriced : ∀ k p, (s.replaced h o rekey newVenueOrder).get k = some p → Priced p := by
    intro k p hp
    rw [hget] at hp
    split at hp
    · have hwork := replacedOrder_isWorking o rekey newVenueOrder
      have hidle : (replacedOrder o rekey newVenueOrder).state ≠ .pendingReplace := by
        intro hst
        unfold Order.isWorking at hwork
        rw [hst] at hwork
        exact absurd hwork (by decide)
      rw [← Option.some.inj hp]
      exact ⟨hok.pendingLimit hpend, fun hm => (hok.pendingMarket hpend hm).1,
        fun hst => absurd hst hidle, fun hst => absurd hst hidle⟩
    · exact hbest.priced k p hp
  have hapart : ∀ j k p q, (s.replaced h o rekey newVenueOrder).get j = some p →
      (s.replaced h o rekey newVenueOrder).get k = some q → p.type = .market → p.side = .sell →
      LimitOf p.instrument.value .sell q → j < k := by
    intro j k p q hp hq hmarket hsell hlim
    rw [hget] at hp hq
    have hq' : ∃ q', s.get k = some q' ∧ LimitOf p.instrument.value .sell q' := by
      split_ifs at hq with hk
      · rw [hk]
        exact ⟨o, ho, (hlimit _ _).mp (Option.some.inj hq ▸ hlim)⟩
      · exact ⟨q, hq, hlim⟩
    obtain ⟨q', hgq, hlq⟩ := hq'
    split_ifs at hp with hj
    · rw [← Option.some.inj hp] at hmarket hsell hlq
      rw [hj]
      exact hbest.apart h k o q' ho hgq hmarket hsell hlq
    · exact hbest.apart j k p q' hp hgq hmarket hsell hlq
  -- A price of the new state is the replacement's or an old one.
  have hsub : ∀ i side x, x ∈ (s.replaced h o rekey newVenueOrder).limitPrices i side →
      (LimitOf i side o ∧ x = o.pendingPrice) ∨ x ∈ s.limitPrices i side := by
    rintro i side x ⟨k, p, hp, hlim, hx⟩
    rw [hget] at hp
    split at hp
    · rw [← Option.some.inj hp] at hlim hx
      exact Or.inl ⟨(hlimit i side).mp hlim, hx.symm⟩
    · exact Or.inr ⟨k, p, hp, hlim, hx⟩
  have hkept : ∀ i side x, x ∈ s.limitPrices i side → ¬ (LimitOf i side o ∧ x = o.price) →
      x ∈ (s.replaced h o rekey newVenueOrder).limitPrices i side := by
    rintro i side x ⟨k, p, hp, hlim, hx⟩ hne
    refine ⟨k, p, ?_, hlim, hx⟩
    rw [hget, if_neg]
    · exact hp
    intro hk
    rw [hk, ho] at hp
    rw [← Option.some.inj hp] at hlim hx
    exact hne ⟨hlim, hx.symm⟩
  -- Where the order counts for nothing, nothing moves.
  have hother : ∀ i side, ¬ LimitOf i side o →
      CachedBest (Better side) 0 ((s.replaced h o rekey newVenueOrder).limitPrices i side)
        (s.bestOwn i side) := by
    intro i side hno
    refine (hbest.cached i side).of_subset ?_ ?_
    · intro x hx
      rcases hsub i side x hx with hl | hx
      · exact absurd hl.1 hno
      · exact hx
    · intro hz
      exact hkept i side _ ((hbest.cached i side).mem hz) fun hl => hno hl.1
  have hoff : ∀ i side, ¬ (i = o.instrument.value ∧ side = o.side) → ¬ LimitOf i side o :=
    fun i side hi hl => hi ⟨hl.instrument.symm, hl.side.symm⟩
  have hc := hbest.cached o.instrument.value o.side
  rw [applyReplace_fst]
  by_cases hnew : s.bestOwn o.instrument.value o.side = 0 ∨
      better o.side o.pendingPrice (s.bestOwn o.instrument.value o.side) = true
  · rw [if_pos hnew]
    refine ⟨cached_setBestOwn ?_ fun i side hi => hother i side (hoff i side hi), hpriced, hapart⟩
    by_cases hm : o.type = .market
    · -- A market Buy is replaced at price zero, which no cached price yields to.
      have hno : ¬ LimitOf o.instrument.value o.side o := fun hl => hl.limit hm
      obtain ⟨hzero, hbuy⟩ := hok.pendingMarket hpend hm
      have hnone : s.bestOwn o.instrument.value o.side = 0 := by
        rcases hnew with hz | hb
        · exact hz
        by_contra hz
        obtain ⟨k, p, hp, hlim, hx⟩ := hc.mem hz
        have hpos := (hbest.priced k p hp).limit hlim.limit
        rw [hx] at hpos
        rw [hzero, hbuy] at hb
        simp only [better, decide_eq_true_eq] at hb
        rw [hbuy] at hpos
        exact lt_asymm hpos hb
      have hkeep := hother _ _ hno
      rw [hnone] at hkeep
      rw [hzero]
      exact hkeep
    · have hself : LimitOf o.instrument.value o.side o := ⟨rfl, rfl, hm⟩
      refine hc.insert_better (Better.irrefl o.side) (Better.trans o.side)
        (ne_of_gt (hok.pendingLimit hpend hm)) hnew ?_ ?_
      · intro x hx
        rcases hsub _ _ x hx with hl | hx
        · exact Or.inl hl.2
        · exact Or.inr hx
      · exact ⟨h, _, by rw [hget, if_pos rfl], (hlimit _ _).mpr hself, rfl⟩
  · rw [if_neg hnew]
    rw [not_or] at hnew
    split_ifs with hold
    · refine ⟨cached_setBestOwn ?_ fun i side hi => hother i side (hoff i side hi), hpriced, hapart⟩
      exact rescan_exact hixr hpriced hapart (hix.instrument_lt h o ho) o.side
    refine ⟨?_, hpriced, hapart⟩
    intro i side
    rw [hcache]
    by_cases hl : LimitOf i side o
    · have hi := hl.instrument
      have hs := hl.side
      rw [← hi, ← hs]
      refine hc.insert_worse hnew.1 hnew.2 ?_ ?_
      · intro x hx
        rcases hsub _ _ x hx with hl | hx
        · exact Or.inl hl.2
        · exact Or.inr hx
      · exact hkept _ _ _ (hc.mem hnew.1) fun hl => hold hl.2.symm
    · exact hother i side hl

/-- Every edit keeps the cache exact. -/
theorem BestOk.edit {t : Target} (he : Edit t s s') :
    BestOk s' := by
  cases he with
  | quiet hq => exact hbest.of_slots hq.slots hq.bestOwn
  | touch ho hterms _ hpend =>
    have hok := hbest.priced _ _ ho
    refine hbest.of_set ho rfl (slots_set ho)
      ⟨hterms.instrument, hterms.side, hterms.type, hterms.price⟩ ⟨?_, ?_, ?_, ?_⟩
    · rw [hterms.type, hterms.price]
      exact hok.limit
    · rw [hterms.type, hterms.price]
      exact hok.market
    · rw [hterms.type, hterms.pendingPrice]
      exact fun hst => hok.pendingLimit (hpend.mp hst)
    · rw [hterms.type, hterms.pendingPrice, hterms.side]
      exact fun hst => hok.pendingMarket (hpend.mp hst)
  | @revert s h o ho _ =>
    have hok := hbest.priced _ _ ho
    have hidle := workingState_ne_pendingReplace o
    exact hbest.of_set ho rfl (slots_set ho) ⟨rfl, rfl, rfl, rfl⟩
      ⟨hok.limit, hok.market, fun hst => absurd hst hidle, fun hst => absurd hst hidle⟩
  | finish u st br ho hterms => exact hbest.ended hix ho hterms u st br
  | absorb reported u ho =>
    have hok := hbest.priced _ _ ho
    rw [absorbCum_fst]
    split
    · exact hbest
    · exact hbest.of_set ho rfl (slots_set ho) ⟨rfl, rfl, rfl, rfl⟩
        ⟨hok.limit, hok.market, hok.pendingLimit, hok.pendingMarket⟩
  | fill m corrected vid ho =>
    have hok := hbest.priced _ _ ho
    exact hbest.of_set ho rfl (slots_set ho) ⟨rfl, rfl, rfl, rfl⟩
      ⟨hok.limit, hok.market, hok.pendingLimit, hok.pendingMarket⟩
  | take qty _ _ => exact hbest.of_slots rfl rfl
  | takeRecord qty _ _ => exact hbest.of_slots rfl rfl
  | late cum st _ => exact hbest.of_slots rfl rfl
  | replace u newVenueOrder ho hpend => exact hbest.replaced hix ho hpend u _ _

end

end Edits

/-! ## Outbound calls and whole runs -/

/-- Orders and replacements are priced as they are typed: a limit order above
zero, a market order at zero. -/
def PricedByType (s : Oms) : Call → Prop
  | .submit req _ _ => (req.type ≠ .market → 0 < req.price) ∧ (req.type = .market → req.price = 0)
  | .requestReplace h newId px _ _ =>
    newId.valid = true ∧
      ∀ o, s.get h = some o → (o.type ≠ .market → 0 < px) ∧ (o.type = .market → px = 0)
  | _ => True

/-- No market Sell hides a limit Sell of its instrument: it is submitted only
while none is live, none takes a slot below it, and it is not replaced. -/
def MarketSellsApart (s : Oms) : Call → Prop
  | .submit req _ _ =>
    (req.side = .sell → req.type = .market →
      ∀ h o, s.get h = some o → ¬ LimitOf req.instrument.value .sell o) ∧
    (req.side = .sell → req.type ≠ .market →
      ∀ h o, s.get h = some o → o.type = .market → o.side = .sell →
        o.instrument = req.instrument → ∀ k pool, s.pool.allocate = some (k, pool) → h < k)
  | .requestReplace h _ _ _ _ => ∀ o, s.get h = some o → o.type = .market → o.side = .buy
  | _ => True

/-- The calls of the runs whose best own price stays exact. -/
def SellsApart (s : Oms) (c : Call) : Prop := PricedByType s c ∧ MarketSellsApart s c

theorem BestOk.submit {s : Oms} (hbest : BestOk s) (req : NewOrderRequest) (id : ClientOrderId)
    (now : Timestamp) (hc : SellsApart s (.submit req id now)) :
    BestOk (s.submit req id now).1 := by
  obtain ⟨⟨hlimit, hmarket⟩, hfirst, habove⟩ := hc
  rcases s.submit_cases req id now with ⟨h, _, hsub⟩ | ⟨_, halike⟩
  · obtain ⟨pool, ids, halloc, _, hs'⟩ := hsub.state
    have hdead : s.get h = none := (allocate_spec halloc).1
    have hget := get_submitted ids (submittedOrder req id now) now halloc
    generalize hr : s.submitted h pool ids (submittedOrder req id now) now = r at hs' hget
    have hcache : r.bestOwn = s.bestOwn := by
      rw [← hr]
      rfl
    have hpriced : ∀ k p, r.get k = some p → Priced p := by
      intro k p hp
      rw [hget] at hp
      split at hp
      · rw [← Option.some.inj hp]
        exact ⟨hlimit, hmarket, fun hst => absurd hst (by simp [submittedOrder]),
          fun hst => absurd hst (by simp [submittedOrder])⟩
      · exact hbest.priced k p hp
    have hapart : ∀ j k p q, r.get j = some p → r.get k = some q → p.type = .market →
        p.side = .sell → LimitOf p.instrument.value .sell q → j < k := by
      intro j k p q hp hq hpm hps hlim
      rw [hget] at hp hq
      split_ifs at hp with hj
      · rw [← Option.some.inj hp] at hpm hps hlim
        split_ifs at hq with hk
        · rw [← Option.some.inj hq] at hlim
          exact absurd hpm hlim.limit
        · exact absurd hlim (hfirst hps hpm k q hq)
      split_ifs at hq with hk
      · rw [← Option.some.inj hq] at hlim
        have hi : p.instrument = req.instrument := by
          have hv := hlim.instrument
          cases hpi : p.instrument
          rw [hpi] at hv
          cases hri : req.instrument
          simp only [submittedOrder, hri] at hv
          rw [hv]
        rw [hk]
        exact habove hlim.side hlim.limit j p hp hpm hps hi h pool halloc
      · exact hbest.apart j k p q hp hq hpm hps hlim
    have hsub' : ∀ i side x, x ∈ r.limitPrices i side →
        (LimitOf i side (submittedOrder req id now) ∧ x = req.price) ∨
          x ∈ s.limitPrices i side := by
      rintro i side x ⟨k, p, hp, hlim, hx⟩
      rw [hget] at hp
      split at hp
      · rw [← Option.some.inj hp] at hlim hx
        exact Or.inl ⟨hlim, hx.symm⟩
      · exact Or.inr ⟨k, p, hp, hlim, hx⟩
    have hkept : ∀ i side, s.limitPrices i side ⊆ r.limitPrices i side := by
      rintro i side x ⟨k, p, hp, hlim, hx⟩
      refine ⟨k, p, ?_, hlim, hx⟩
      rw [hget, if_neg]
      · exact hp
      · intro hk
        simp [hk, hdead] at hp
    have hother : ∀ i side, ¬ LimitOf i side (submittedOrder req id now) →
        CachedBest (Better side) 0 (r.limitPrices i side) (s.bestOwn i side) := by
      intro i side hno
      refine (hbest.cached i side).of_subset ?_ fun hz =>
        hkept i side ((hbest.cached i side).mem hz)
      intro x hx
      rcases hsub' i side x hx with hl | hx
      · exact absurd hl.1 hno
      · exact hx
    have hoff : ∀ i side, ¬ (i = req.instrument.value ∧ side = req.side) →
        ¬ LimitOf i side (submittedOrder req id now) :=
      fun i side hi hl => hi ⟨hl.instrument.symm, hl.side.symm⟩
    have hcb := hbest.cached req.instrument.value req.side
    rw [hs']
    split_ifs with hnew
    · refine ⟨cached_setBestOwn ?_ ?_, hpriced, hapart⟩
      · by_cases hm : req.type = .market
        · -- A market order finds the cache empty: a Sell is apart, a Buy never
          -- prefers zero.
          have hno : ¬ LimitOf req.instrument.value req.side (submittedOrder req id now) :=
            fun hl => hl.limit hm
          have hnone : s.bestOwn req.instrument.value req.side = 0 := by
            by_contra hz
            obtain ⟨k, p, hp, hlim, hx⟩ := hcb.mem hz
            rcases hnew with hz' | hb
            · exact hz hz'
            cases hside : req.side with
            | sell =>
              rw [hside] at hlim
              exact hfirst hside hm k p hp hlim
            | buy =>
              have hpos := (hbest.priced k p hp).limit hlim.limit
              rw [hx] at hpos
              rw [hmarket hm] at hb
              rw [hside] at hb hpos
              simp only [better, decide_eq_true_eq] at hb
              exact lt_asymm hpos hb
          have hkeep := hother _ _ hno
          rw [hnone] at hkeep
          rw [hmarket hm]
          exact hkeep
        · refine hcb.insert_better (Better.irrefl _) (Better.trans _) (ne_of_gt (hlimit hm)) hnew
            ?_ ?_
          · intro x hx
            rcases hsub' _ _ x hx with hl | hx
            · exact Or.inl hl.2
            · exact Or.inr hx
          · exact ⟨h, submittedOrder req id now, by rw [hget, if_pos rfl], ⟨rfl, rfl, hm⟩, rfl⟩
      · intro i side hi
        rw [hcache]
        exact hother i side (hoff i side hi)
    · rw [not_or] at hnew
      refine ⟨?_, hpriced, hapart⟩
      intro i side
      rw [hcache]
      by_cases hl : LimitOf i side (submittedOrder req id now)
      · have hi : req.instrument.value = i := hl.instrument
        have hs : req.side = side := hl.side
        rw [← hi, ← hs]
        refine hcb.insert_worse hnew.1 hnew.2 ?_ (hkept _ _ (hcb.mem hnew.1))
        intro x hx
        rcases hsub' _ _ x hx with hl | hx
        · exact Or.inl hl.2
        · exact Or.inr hx
      · exact hother i side hl
  · exact hbest.of_slots halike.slots halike.bestOwn

theorem BestOk.requestReplace {s : Oms} (hbest : BestOk s) (h : Nat) (newId : ClientOrderId)
    (px : Price) (qty : Qty) (now : Timestamp)
    (hc : SellsApart s (.requestReplace h newId px qty now)) :
    BestOk (s.requestReplace h newId px qty now).1 := by
  rcases s.requestReplace_cases h newId px qty now with ⟨o, _, hrep⟩ | ⟨_, hsame⟩
  · obtain ⟨ids, _, hs'⟩ := hrep.state
    obtain ⟨hlim, hmar⟩ := hc.1.2 o hrep.order
    have hbuy := hc.2 o hrep.order
    have hok := hbest.priced h o hrep.order
    rw [hs']
    exact hbest.of_set hrep.order rfl (slots_set hrep.order) ⟨rfl, rfl, rfl, rfl⟩
      ⟨hok.limit, hok.market, fun _ => hlim, fun _ hm => ⟨hmar hm, hbuy hm⟩⟩
  · rw [hsame]
    exact hbest

theorem BestOk.init (epoch maxSeq : Nat) : BestOk (Oms.init epoch maxSeq) := by
  have hget : ∀ k, (Oms.init epoch maxSeq).get k = none := fun _ => rfl
  refine ⟨?_, ?_, ?_⟩
  · intro i side
    have hempty : (Oms.init epoch maxSeq).limitPrices i side = ∅ := by
      ext x
      simp [limitPrices, hget]
    rw [hempty]
    exact CachedBest.empty
  · intro k p hp
    exact absurd hp (by simp [hget])
  · intro j k p q hp
    exact absurd hp (by simp [hget])

/-- `best_own_px` is the best price among the live limit orders of the
instrument and side, and zero exactly when there is none. -/
def BestOwnExact (s : Oms) : Prop :=
  ∀ (i : InstrumentId) (side : Side), (s.bestOwnPx i side = 0 ↔
      ¬ ∃ h o, s.get h = some o ∧ o.instrument = i ∧ o.side = side ∧ o.type ≠ .market) ∧
    (∀ h o, s.get h = some o → o.instrument = i → o.side = side → o.type ≠ .market →
      atOrBetter side (s.bestOwnPx i side) o.price = true) ∧
    (s.bestOwnPx i side ≠ 0 → ∃ h o, s.get h = some o ∧ o.instrument = i ∧ o.side = side ∧
      o.type ≠ .market ∧ o.price = s.bestOwnPx i side)

theorem atOrBetter_of_not_better {side : Side} {p q : Price} (h : ¬ Better side q p) :
    atOrBetter side p q = true := by
  cases side <;> simpa [Better, better, atOrBetter] using h

theorem BestOk.exact {s : Oms} (hbest : BestOk s) : BestOwnExact s := by
  intro i side
  have hc := hbest.cached i.value side
  refine ⟨?_, ?_, ?_⟩
  · refine hc.nil_iff.trans ?_
    constructor
    · rintro he ⟨h, o, ho, hi, hs, ht⟩
      have hmem : o.price ∈ s.limitPrices i.value side :=
        ⟨h, o, ho, ⟨by rw [hi], hs, ht⟩, rfl⟩
      simp [he] at hmem
    · intro hno
      ext x
      constructor
      · rintro ⟨h, o, ho, hl, _⟩
        exact absurd ⟨h, o, ho, InstrumentId.value_inj.mp hl.instrument, hl.side, hl.limit⟩ hno
      · nofun
  · intro h o ho hi hs ht
    exact atOrBetter_of_not_better (hc.best o.price ⟨h, o, ho, ⟨by rw [hi], hs, ht⟩, rfl⟩)
  · intro hz
    obtain ⟨h, o, ho, hl, hx⟩ := hc.mem hz
    exact ⟨h, o, ho, InstrumentId.value_inj.mp hl.instrument, hl.side, hl.limit, hx⟩

/-- In every state of a run in which no market Sell hides a limit Sell of its
instrument, the best own price is exact. -/
theorem bestOwn_exact_of_sellsApart {s : Oms} (h : Reachable SellsApart s) : BestOwnExact s := by
  have hinv : IdsOk s ∧ InstIndex s ∧ BestOk s :=
    @Reachable.with_idsOk SellsApart (fun s => InstIndex s ∧ BestOk s)
      (fun _ c hc => by
        cases c with
        | requestReplace h newId px qty now => exact hc.1.1
        | _ => exact trivial)
      (fun epoch maxSeq => ⟨InstIndex.init epoch maxSeq, BestOk.init epoch maxSeq⟩)
      (fun _ _ hs => ⟨hs.1.of_slots rfl rfl, hs.2.of_slots rfl rfl⟩)
      (fun _ _ _ hs he => ⟨hs.1.edit he, hs.2.edit hs.1 he⟩)
      (fun _ req id now hs hc => ⟨hs.1.submit req id now, hs.2.submit req id now hc⟩)
      (fun _ h newId px qty now hs hc =>
        ⟨hs.1.requestReplace h newId px qty now, hs.2.requestReplace h newId px qty now hc⟩) s h
  exact hinv.2.2.exact

theorem bestOwn_exact_market_buy : BestOwnExact (((init 1 kMaxSeq).step
          (.call (.submit { instrument := ⟨0⟩, price := 7, qty := 1 } ⟨1⟩ 0))).step
          (.call (.submit { instrument := ⟨0⟩, type := .market, qty := 1 } ⟨2⟩ 0))) ∧
      (((init 1 kMaxSeq).step
          (.call (.submit { instrument := ⟨0⟩, price := 7, qty := 1 } ⟨1⟩ 0))).step
          (.call (.submit { instrument := ⟨0⟩, type := .market, qty := 1 } ⟨2⟩ 0))).bestOwnPx
        ⟨0⟩ .buy = 7 := by
  have hlimit : SellsApart (init 1 kMaxSeq)
      (.submit { instrument := ⟨0⟩, price := 7, qty := 1 } ⟨1⟩ 0) :=
    ⟨⟨fun _ => by decide, fun h => absurd h (by decide)⟩,
      fun h => absurd h (by decide), fun h => absurd h (by decide)⟩
  have hmarket : ∀ s, SellsApart s
      (.submit { instrument := ⟨0⟩, type := .market, qty := 1 } ⟨2⟩ 0) := fun _ =>
    ⟨⟨fun h => absurd rfl h, fun _ => rfl⟩,
      fun h => absurd h (by decide), fun h => absurd h (by decide)⟩
  have hreach := ((Reachable.init 1 kMaxSeq).call hlimit).call (hmarket _)
  exact ⟨bestOwn_exact_of_sellsApart hreach, rfl⟩

/-- A market Sell on top of a live limit Sell empties the cache. -/
theorem bestOwn_not_exact_market_sell_above : ¬ ∀ s, Reachable PricedByType s → BestOwnExact s := by
  intro hall
  have hlimit : PricedByType (init 1 kMaxSeq)
      (.submit { instrument := ⟨0⟩, side := .sell, price := 7, qty := 1 } ⟨1⟩ 0) :=
    ⟨fun _ => by decide, fun h => absurd h (by decide)⟩
  have hmarket : ∀ s, PricedByType s
      (.submit { instrument := ⟨0⟩, side := .sell, type := .market, qty := 1 } ⟨2⟩ 0) := fun _ =>
    ⟨absurd rfl, fun _ => rfl⟩
  have hreach := ((Reachable.init 1 kMaxSeq).call hlimit).call (hmarket _)
  have hnone := ((hall _ hreach ⟨0⟩ .sell).1.mp rfl)
  exact hnone ⟨0, _, rfl, rfl, rfl, by decide⟩

end Oms

end FastMM
