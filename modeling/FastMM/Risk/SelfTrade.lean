/-
  Risk/SelfTrade.lean --- our own orders never cross at the venue.

  Self-trade prevention compares a limit order with the best own price of the other side, as
  the order management has it.  A replace works at the venue as soon as the venue has it, and
  the order management keeps the old price until its ack arrives: an order sent in between is
  compared with a price that is no longer in the book (`replace_in_flight_crosses`).

  `Uncrossed` is the condition that no order and no replace is sent across a replace that still
  waits for its answer, and that market orders keep the best own price exact
  (`Oms/BestOwn.lean`).  Under it the venue never holds a buy of ours at or above a sell.
-/
import FastMM.Venue.Wired
import FastMM.Oms.BestOwn
set_option autoImplicit false

namespace FastMM

open RiskEngine

open Oms (IdsOk InstIndex BestOk AllOnward WorksAt)

/-! ## What passes -/

/-- The intent `submit_new` checks. -/
def NewOrderRequest.intent (r : NewOrderRequest) : OrderIntent where
  instrument := r.instrument
  venue := r.venue
  side := r.side
  type := r.type
  price := r.price
  qty := r.qty
  tif := r.tif

/-- The intent `submit_replace` checks. -/
def Order.replaceIntent (o : Order) (px : Price) (qty : Qty) : OrderIntent where
  instrument := o.instrument
  venue := o.venue
  side := o.side
  type := o.type
  price := px
  qty := qty
  tif := o.tif

/-- The check was made with self-trade prevention on, and the best own price of the other side. -/
structure OwnPriceRead (s : Oms) (r : RiskEngine) (o : OrderIntent) (i : RiskInputs) : Prop where
  stp : r.limits.stp = true
  best : i.bestOwnOpposite = s.bestOwnPx o.instrument o.side.opposite

/-- Every order and every replace passed its check, whatever else the check read. -/
def PassesStp (w : Wire) : WireOp → Prop
  | .submit req _ => ∃ (r : RiskEngine) (inst : Instrument) (i : RiskInputs),
      OwnPriceRead w.oms r req.intent i ∧ (r.checkNew req.intent inst i).2 = .none
  | .replace h px qty _ => ∀ o, w.oms.get h = some o →
      ∃ (r : RiskEngine) (inst : Instrument) (i : RiskInputs),
        OwnPriceRead w.oms r (o.replaceIntent px qty) i ∧
          (r.checkReplace (o.replaceIntent px qty) o inst i).2 = .none
  | _ => True

/-- An order of the other side waits for a replace that a price on `side` crosses. -/
def CrossesPending (s : Oms) (i : InstrumentId) (side : Side) (px : Price) : Prop :=
  ∃ k p, s.get k = some p ∧ p.instrument = i ∧ p.side = side.opposite ∧ p.type ≠ .market ∧
    p.state = .pendingReplace ∧ atOrBetterCross side px p.pendingPrice = true

/-- A limit price crosses no replace of ours that waits, and market orders carry no price and
keep the best own price exact. -/
def Uncrossed (w : Wire) : WireOp → Prop
  | .submit req now =>
    (req.type ≠ .market → ¬ CrossesPending w.oms req.instrument req.side req.price) ∧
    (req.type = .market → req.price = 0) ∧
    Oms.MarketSellsApart w.oms (.submit req .invalid now)
  | .replace h px qty now => ∀ o, w.oms.get h = some o →
      (o.type ≠ .market → ¬ CrossesPending w.oms o.instrument o.side px) ∧
      (o.type = .market → px = 0) ∧
      Oms.MarketSellsApart w.oms (.requestReplace h .invalid px qty now)
  | _ => True

/-! ## The order management alone -/

/-- No buy of ours works, or will, at or above a sell of ours. -/
def OwnApart (s : Oms) : Prop :=
  ∀ h k o p x y, s.get h = some o → s.get k = some p → o.instrument = p.instrument →
    o.side = .buy → p.side = .sell → o.type ≠ .market → p.type ≠ .market →
    WorksAt o x → WorksAt p y → x < y

theorem OwnApart.onward {s s' : Oms} (ha : OwnApart s) (hon : AllOnward s s') : OwnApart s' := by
  intro h k o' p' x y ho' hp' hi hb hs hto htp hx hy
  obtain ⟨o, ho, hoo⟩ := hon h o' ho'
  obtain ⟨p, hp, hpp⟩ := hon k p' hp'
  refine ha h k o p x y ho hp ?_ (hoo.side ▸ hb) (hpp.side ▸ hs) (hoo.type ▸ hto) (hpp.type ▸ htp)
    (hoo.prices x hx) (hpp.prices y hy)
  rw [← hoo.instrument, ← hpp.instrument, hi]

/-- A price on `side` is apart from every price of ours on the other side. -/
def ApartFrom (s : Oms) (i : InstrumentId) (side : Side) (px : Price) : Prop :=
  ∀ k p y, s.get k = some p → p.instrument = i → p.side = side.opposite → p.type ≠ .market →
    WorksAt p y → atOrBetterCross side px y = false

/-- One order takes a price more. -/
theorem OwnApart.priced {s s' : Oms} (ha : OwnApart s) {h : Nat} {o' : Order} {px : Price}
    (hget : ∀ k, s'.get k = if k = h then some o' else s.get k)
    (hpx : o'.type ≠ .market → ApartFrom s o'.instrument o'.side px)
    (hold : ∀ x, WorksAt o' x → x = px ∨ ∃ o, s.get h = some o ∧ o.instrument = o'.instrument ∧
      o.side = o'.side ∧ o.type = o'.type ∧ WorksAt o x) : OwnApart s' := by
  intro a b o p x y ho hp hi hb hs hto htp hx hy
  rw [hget] at ho hp
  split at ho
  · obtain rfl := Option.some.inj ho
    split at hp
    · obtain rfl := Option.some.inj hp
      exact absurd (hb.symm.trans hs) (by decide)
    rcases hold x hx with rfl | ⟨q, hq, hqi, hqs, hqt, hqx⟩
    · have hno := hpx hto b p y hp hi.symm (by rw [hs, hb]; rfl) htp hy
      rw [hb] at hno
      simpa [atOrBetterCross] using hno
    · exact ha h b q p x y hq hp (hqi.trans hi) (hqs.trans hb) hs (hqt ▸ hto) htp hqx hy
  · split at hp
    · obtain rfl := Option.some.inj hp
      rcases hold y hy with rfl | ⟨q, hq, hqi, hqs, hqt, hqy⟩
      · have hno := hpx htp a o x ho hi (by rw [hs, hb]; rfl) hto hx
        rw [hs] at hno
        simpa [atOrBetterCross] using hno
      · exact ha a h o q x y ho hq (hi.trans hqi.symm) hb (hqs.trans hs) hto (hqt ▸ htp) hx hqy
    · exact ha a b o p x y ho hp hi hb hs hto htp hx hy

/-- A price that passes its check, and crosses no replace that waits, is apart. -/
theorem apartFrom_of_passes {s : Oms} (hbest : BestOk s) {r : RiskEngine} {o : OrderIntent}
    {inst : Instrument} {i : RiskInputs} {excludeOpen : Qty} {countOrder : Bool}
    (hread : OwnPriceRead s r o i)
    (hpass : (RiskEngine.check r o inst i excludeOpen countOrder).2 = .none)
    (hlimit : o.type ≠ .market) (hpend : ¬ CrossesPending s o.instrument o.side o.price) :
    ApartFrom s o.instrument o.side o.price := by
  obtain ⟨hzero, hexact, hmem⟩ := hbest.exact o.instrument o.side.opposite
  intro k p y hp hpi hps hpt hy
  rcases hy with rfl | ⟨hst, rfl⟩
  · have hle := hexact k p hp hpi hps hpt
    have hne : s.bestOwnPx o.instrument o.side.opposite ≠ 0 :=
      fun hz => hzero.mp hz ⟨k, p, hp, hpi, hps, hpt⟩
    have hpos : 0 < i.bestOwnOpposite := by
      obtain ⟨j, q, hq, _, _, hqt, hqp⟩ := hmem hne
      rw [hread.best, ← hqp]
      exact (hbest.priced j q hq).limit hqt
    have hno := not_cross_of_passes hpass hread.stp hlimit hpos
    rw [hread.best] at hno
    cases hside : o.side with
    | buy =>
      simp only [hside, Side.opposite, atOrBetter, atOrBetterCross, decide_eq_true_eq,
        decide_eq_false_iff_not, not_le] at hle hno ⊢
      exact lt_of_lt_of_le hno hle
    | sell =>
      simp only [hside, Side.opposite, atOrBetter, atOrBetterCross, decide_eq_true_eq,
        decide_eq_false_iff_not, not_le] at hle hno ⊢
      exact lt_of_le_of_lt hle hno
  · by_contra hcross
    exact hpend ⟨k, p, hp, hpi, hps, hpt, hst, by simpa using hcross⟩

/-! ## The order management beside the venue -/

/-- What keeps our orders apart. -/
structure KeptApart (s : Oms) : Prop where
  ids : IdsOk s
  index : InstIndex s
  best : BestOk s
  apart : OwnApart s

namespace KeptApart

variable {s s' : Oms}

theorem init (epoch maxSeq : Nat) : KeptApart (Oms.init epoch maxSeq) where
  ids := IdsOk.init epoch maxSeq
  index := InstIndex.init epoch maxSeq
  best := BestOk.init epoch maxSeq
  apart h k o p x y ho := absurd ho (by simp [Oms.init, Oms.get, Pool.empty])

section

variable (hk : KeptApart s)
include hk

theorem edits {t : Oms.Target} (he : Oms.Edits t s s') : KeptApart s' := by
  refine Oms.Edits.keeps (fun s s' hs he => ?_) he hk
  exact ⟨hs.ids.edit he, hs.index.edit he, hs.best.edit hs.index he, hs.apart.onward he.allOnward⟩

theorem receive (m : Oms.Msg) : KeptApart (s.receive m).1 := by
  refine edits ?_ (Oms.receive_edits m hk.ids.live)
  obtain ⟨seen, hseen⟩ := s.heard_eq m
  rw [hseen]
  exact ⟨hk.ids.of_eq rfl rfl rfl, hk.index.of_slots rfl rfl, hk.best.of_slots rfl rfl,
    hk.apart.onward (.of_slots rfl)⟩

theorem next : KeptApart s.nextClOrdId.1 := by
  rcases Wired.next_cases s with hs | hs
  · rw [hs]
    exact hk
  · rw [hs]
    exact ⟨hk.ids.of_eq rfl rfl rfl, hk.index.of_slots rfl rfl, hk.best.of_slots rfl rfl,
      hk.apart.onward (.of_slots rfl)⟩

theorem submit {req : NewOrderRequest} {id : ClientOrderId} {now : Timestamp}
    (hsells : Oms.SellsApart s (.submit req id now))
    (hpx : req.type ≠ .market → ApartFrom s req.instrument req.side req.price) :
    KeptApart (s.submit req id now).1 := by
  refine ⟨hk.ids.submit req id now, hk.index.submit req id now,
    hk.best.submit req id now hsells, ?_⟩
  rcases s.submit_get req id now with ⟨h, _, _, hget⟩ | ⟨_, hget⟩
  · refine hk.apart.priced hget hpx ?_
    rintro x (hx | ⟨hx, _⟩)
    · exact .inl hx.symm
    · exact absurd hx (by simp [Oms.submittedOrder])
  · exact hk.apart.onward fun k o' ho => ⟨o', (hget k).symm.trans ho, .refl o'⟩

theorem requestReplace {h : Nat} {newId : ClientOrderId} {px : Price} {qty : Qty}
    {now : Timestamp} (hsells : Oms.SellsApart s (.requestReplace h newId px qty now))
    (hpx : ∀ o, s.get h = some o → o.type ≠ .market → ApartFrom s o.instrument o.side px) :
    KeptApart (s.requestReplace h newId px qty now).1 := by
  have hvalid := (ClientOrderId.valid_eq_true_iff _).mp hsells.1.1
  refine ⟨hk.ids.requestReplace h newId px qty now hvalid,
    hk.index.requestReplace h newId px qty now,
    hk.best.requestReplace h newId px qty now hsells, ?_⟩
  rcases s.requestReplace_cases h newId px qty now with ⟨o, _, hrep⟩ | ⟨_, hsame⟩
  · obtain ⟨ids, _, hs'⟩ := hrep.state
    rw [hs']
    refine hk.apart.priced (Pool.slots_set hrep.order) (hpx o hrep.order) ?_
    rintro x (hx | ⟨_, hx⟩)
    · exact .inr ⟨o, hrep.order, rfl, rfl, rfl, .inl hx⟩
    · exact .inl hx.symm
  · rw [hsame]
    exact hk.apart

end

end KeptApart

variable {w : Wire}

/-- A step of a run whose orders and replaces pass, and are not across. -/
def Careful (w : Wire) (op : WireOp) : Prop := PassesStp w op ∧ Uncrossed w op

theorem Careful.sized {op : WireOp} (hop : Careful w op) : op.Sized := by
  cases op with
  | submit req now =>
    obtain ⟨r, inst, i, _, hpass⟩ := hop.1
    exact qty_pos_of_passes hpass
  | _ => trivial

theorem KeptApart.step {op : WireOp} (hk : KeptApart w.oms) (hop : Careful w op) :
    KeptApart (w.step op).oms := by
  refine Wire.step_oms hk hk.next ?_ ?_ ?_ ?_ hk.receive
  · rintro req now rfl _
    obtain ⟨⟨r, inst, i, hread, hpass⟩, hpend, hmarket, hsells⟩ := hop
    have hapart : req.type ≠ .market → ApartFrom w.oms req.instrument req.side req.price :=
      fun hlimit => apartFrom_of_passes hk.best hread hpass hlimit (hpend hlimit)
    have hprice : req.type ≠ .market → 0 < req.price := price_pos_of_passes hpass
    have hnext := hk.next
    rcases Wired.next_cases w.oms with hs | hs
    · rw [hs] at hnext ⊢
      exact hnext.submit ⟨⟨hprice, hmarket⟩, hsells⟩ hapart
    · rw [hs] at hnext ⊢
      exact hnext.submit ⟨⟨hprice, hmarket⟩, hsells⟩ hapart
  · rintro h px qty now rfl hvalid
    obtain ⟨hpasses, huncrossed⟩ := hop
    have hapart : ∀ o, w.oms.get h = some o → o.type ≠ .market →
        ApartFrom w.oms o.instrument o.side px := by
      intro o ho hlimit
      obtain ⟨r, inst, i, hread, hpass⟩ := hpasses o ho
      exact apartFrom_of_passes (o := o.replaceIntent px qty) hk.best hread hpass hlimit
        ((huncrossed o ho).1 hlimit)
    have hprice : ∀ o, w.oms.get h = some o →
        (o.type ≠ .market → 0 < px) ∧ (o.type = .market → px = 0) := by
      intro o ho
      obtain ⟨r, inst, i, _, hpass⟩ := hpasses o ho
      exact ⟨price_pos_of_passes (o := o.replaceIntent px qty) hpass, (huncrossed o ho).2.1⟩
    have hsells : ∀ o, w.oms.get h = some o → o.type = .market → o.side = .buy :=
      fun o ho => (huncrossed o ho).2.2 o ho
    have hnext := hk.next
    rcases Wired.next_cases w.oms with hs | hs
    · rw [hs] at hnext ⊢
      exact hnext.requestReplace ⟨⟨hvalid, hprice⟩, hsells⟩ hapart
    · rw [hs] at hnext ⊢
      exact hnext.requestReplace ⟨⟨hvalid, hprice⟩, hsells⟩ hapart
  · exact fun h => hk.edits (w.oms.requestCancel_touched h).1.edits
  · exact fun h => hk.edits (w.oms.requestCancel_touched h).2.edits

theorem Wire.Reachable.keptApart (h : Reachable Careful w) : KeptApart w.oms := by
  induction h with
  | init epoch maxSeq hseq => exact KeptApart.init epoch maxSeq
  | step _ op hop ih => exact ih.step hop

/-- A buy and a sell of ours in the venue's book, on one instrument. -/
structure OwnPair (w : Wire) (b s : Lane) (bid ask : RestingOrder) : Prop where
  bid : w.Resting b bid
  ask : w.Resting s ask
  instrument : b.order.instrument = s.order.instrument
  buy : b.order.side = .buy
  sell : s.order.side = .sell

/-- The venue holds no buy of ours at or above a sell of ours on the instrument, in every state of
every run whose orders and replaces pass and cross no replace that waits. -/
theorem own_orders_uncrossed (h : w.Reachable Careful) {b s : Lane}
    {bid ask : RestingOrder} (hpair : OwnPair w b s bid ask) : bid.price < ask.price := by
  have hw := Wire.Reachable.wired (fun _ _ hop => hop.sized) h
  obtain ⟨j, o, ho, hoi, hos, hot, hrest, hbid⟩ := hw.resting hpair.bid
  obtain ⟨k, p, hp, hpi, hps, hpt, hrest', hask⟩ := hw.resting hpair.ask
  refine h.keptApart.apart j k o p bid.price ask.price ho hp ?_ (hos.trans hpair.buy)
    (hps.trans hpair.sell) ?_ ?_ hbid hask
  · rw [hoi, hpi, hpair.instrument]
  · rw [hot]
    exact (of_decide_eq_true hrest).1
  · rw [hpt]
    exact (of_decide_eq_true hrest').1

/-! ## Two runs -/

/-- An instrument with a tick and a lot of one. -/
def unitInstrument : Instrument := { enabled := true, tick := 1, lot := 1 }

/-- A limit order of five on the first instrument. -/
def fiveAt (side : Side) (px : Price) : NewOrderRequest where
  instrument := ⟨0⟩
  side := side
  price := px
  qty := 5

/-- The ids of the session of epoch one. -/
def idOf (n : Nat) : ClientOrderId := ⟨2 ^ 32 + n⟩

/-- A bid at 100, on its way. -/
def bidSent : Wire := (Wire.init 1 10).step (.submit (fiveAt .buy 100) 0)

/-- An offer behind it, and both taken into the book. -/
def bothRest (px : Price) : Wire :=
  ((bidSent.step (.submit (fiveAt .sell px) 0)).step (.act 0 (.accept { clOrdId := idOf 1 }))).step
    (.act 1 (.accept { clOrdId := idOf 2 }))

theorem bidSent_get {k : Nat} {p : Order} (hp : bidSent.oms.get k = some p) :
    p = Oms.submittedOrder (fiveAt .buy 100) (idOf 1) 0 := by
  have hfree : ∀ k, (Oms.init 1 10).nextClOrdId.1.get k = none := fun _ => rfl
  rcases Oms.submit_get (Oms.init 1 10).nextClOrdId.1 (fiveAt .buy 100) (idOf 1) 0 with
    ⟨h, _, _, hget⟩ | ⟨_, hget⟩
  · have hcase := (hget k).symm.trans hp
    split at hcase
    · exact (Option.some.inj hcase).symm
    · exact absurd hcase (by simp [hfree])
  · exact absurd ((hget k).symm.trans hp) (by simp [hfree])

set_option maxRecDepth 10000 in
theorem own_orders_uncrossed_bid_and_offer :
    ∃ b s, OwnPair (bothRest 101) b s ⟨idOf 1, 100, 5, 0⟩ ⟨idOf 2, 101, 5, 0⟩ ∧
      (100 : Price) < 101 := by
  have hfirst : Careful (Wire.init 1 10) (.submit (fiveAt .buy 100) 0) := by
    refine ⟨⟨{}, unitInstrument, {}, ⟨rfl, rfl⟩, by decide⟩, fun _ => ?_,
      fun h => absurd h (by decide), ?_⟩
    · rintro ⟨k, p, hp, _⟩
      exact absurd hp (by simp [Wire.init, Oms.init, Oms.get, Pool.empty])
    · exact ⟨fun h => absurd h (by decide), fun h => absurd h (by decide)⟩
  have hsecond : Careful bidSent (.submit (fiveAt .sell 101) 0) := by
    refine ⟨⟨{}, unitInstrument, { bestOwnOpposite := 100 }, ⟨rfl, rfl⟩, by decide⟩, fun _ => ?_,
      fun h => absurd h (by decide), fun _ h => absurd h (by decide), fun _ _ k p hp hmarket => ?_⟩
    · rintro ⟨k, p, hp, _, _, _, hst, _⟩
      rw [bidSent_get hp] at hst
      exact absurd hst (by decide)
    · rw [bidSent_get hp] at hmarket
      exact absurd hmarket (by decide)
  have hrun : (bothRest 101).Reachable Careful :=
    ((((Wire.Reachable.init 1 10 (by decide)).step _ hfirst).step _ hsecond).step
      (.act 0 (.accept { clOrdId := idOf 1 })) ⟨trivial, trivial⟩).step
      (.act 1 (.accept { clOrdId := idOf 2 })) ⟨trivial, trivial⟩
  have hpair : OwnPair (bothRest 101) _ _ ⟨idOf 1, 100, 5, 0⟩ ⟨idOf 2, 101, 5, 0⟩ :=
    ⟨⟨List.mem_cons_self, rfl⟩, ⟨List.mem_cons_of_mem _ List.mem_cons_self, rfl⟩, rfl, rfl, rfl⟩
  exact ⟨_, _, hpair, own_orders_uncrossed hrun hpair⟩

/-- A bid at 100, acknowledged, and its replace to 105 on the way. -/
def replaceSent : Wire :=
  ((bidSent.step (.act 0 (.accept { clOrdId := idOf 1 }))).step (.deliver 0)).step
    (.replace 0 105 5 0)

/-- An offer at 103 follows, and the venue takes the replace and the offer. -/
def crossedRest : Wire :=
  ((replaceSent.step (.submit (fiveAt .sell 103) 0)).step
    (.act 0 (.amend { clOrdId := idOf 2 }))).step (.act 1 (.accept { clOrdId := idOf 3 }))

set_option maxRecDepth 10000 in
/-- The offer is compared with the bid at 100 while the venue has it at 105. -/
theorem replace_in_flight_crosses :
    ¬ ∀ (w : Wire), w.Reachable PassesStp → ∀ b s bid ask, OwnPair w b s bid ask →
      bid.price < ask.price := by
  intro hall
  have hfirst : PassesStp (Wire.init 1 10) (.submit (fiveAt .buy 100) 0) :=
    ⟨{}, unitInstrument, {}, ⟨rfl, rfl⟩, by decide⟩
  have hreplace : PassesStp ((bidSent.step (.act 0 (.accept { clOrdId := idOf 1 }))).step
      (.deliver 0)) (.replace 0 105 5 0) := by
    intro o ho
    obtain rfl := Option.some.inj ho
    exact ⟨{}, unitInstrument, {}, ⟨rfl, rfl⟩, by decide⟩
  have hsell : PassesStp replaceSent (.submit (fiveAt .sell 103) 0) :=
    ⟨{}, unitInstrument, { bestOwnOpposite := 100 }, ⟨rfl, rfl⟩, by decide⟩
  have hrun : crossedRest.Reachable PassesStp :=
    (((((((Wire.Reachable.init 1 10 (by decide)).step _ hfirst).step
      (.act 0 (.accept { clOrdId := idOf 1 })) trivial).step (.deliver 0) trivial).step _
      hreplace).step _ hsell).step (.act 0 (.amend { clOrdId := idOf 2 })) trivial).step
      (.act 1 (.accept { clOrdId := idOf 3 })) trivial
  have hpair : OwnPair crossedRest _ _ ⟨idOf 2, 105, 5, 0⟩ ⟨idOf 3, 103, 5, 0⟩ :=
    ⟨⟨List.mem_cons_self, rfl⟩, ⟨List.mem_cons_of_mem _ List.mem_cons_self, rfl⟩, rfl, rfl, rfl⟩
  exact absurd (hall _ hrun _ _ _ _ hpair) (by decide)

end FastMM
