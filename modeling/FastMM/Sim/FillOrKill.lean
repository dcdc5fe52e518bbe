/-
  Sim/FillOrKill.lean --- when a fill-or-kill order fills whole or not at all.

  The pre-check counts a resting reduce-only order whole; the sweep takes of it what its
  account's position leaves.  The recount decides: the order fills whole or not at all when the
  pre-check refuses it, or the recount finds all of it, or nothing.
-/
import FastMM.Sim.CountedSweep
import FastMM.Sim.PriceTime
set_option autoImplicit false

namespace FastMM.Sim

open List Positions

variable {e : MatchingEngine} {L : Ladder} {h : Nat} {P : Positions} {r : NewOrder}
  {o : SimOrder} {now : Timestamp}

/-! ## Before the order -/

/-- The orders `fillable` goes through. -/
def MatchingEngine.crossed (e : MatchingEngine) (taker : SimOrder) : List SimOrder :=
  (((e.book taker.instrument).levels taker.side.opposite).data.reverse.takeWhile fun l =>
    decide (taker.type = .market) || crosses taker.side taker.price l.price).flatMap fun l =>
      e.fifo kMaxSimOrders l.head

theorem crossed_eq {out : Option Nat} (ht : Tiered e L out) (taker : SimOrder) : e.crossed taker =
      crossedIn e.pool taker (L taker.instrument.value taker.side.opposite) := by
  have hdata : ((e.book taker.instrument).levels taker.side.opposite).data =
      (L taker.instrument.value taker.side.opposite).map (OrderPool.levelOf e.pool) :=
    ht.levels _ _
  unfold MatchingEngine.crossed crossedIn
  rw [hdata, ← map_reverse, takeWhile_map, flatMap_map]
  refine flatMap_congr fun g hg => ?_
  exact ht.fifo_eq (mem_reverse.mp ((takeWhile_sublist _).subset hg))

/-- What the pre-check counts. -/
theorem fillable_eq (e : MatchingEngine) (taker : SimOrder) : e.fillable taker =
      if e.stp taker.account taker.instrument = .none then
        (e.book taker.instrument).qtyAtOrBetter taker.side.opposite taker.price
          (decide (taker.type = .market))
      else
        MatchingEngine.fillableFrom (e.stp taker.account taker.instrument) taker 0
          (e.crossed taker) := rfl

/-- The pre-check of a request. -/
def MatchingEngine.Expires (e : MatchingEngine) (o : SimOrder) : Prop :=
  e.fillable o < o.qty ∨ (o.reduceOnly = true ∧ (e.reducible e.told o : Qty) < o.qty)

instance (e : MatchingEngine) (o : SimOrder) : Decidable (e.Expires o) :=
  inferInstanceAs (Decidable (_ ∨ _))

/-- What the recount finds for a request. -/
def Positions.foundFor (P : Positions) (e : MatchingEngine) (o : SimOrder) : Qty :=
  P.finds (e.stp o.account o.instrument) e o (e.crossed o)

/-- An acknowledgement changes neither. -/
theorem enter_same (P : Positions) (hst : Stands e L) (henters : Enters e r) {pool : OrderPool}
    (halloc : e.pool.allocate = some (h, pool)) (now : Timestamp) (o : SimOrder) :
    (e.enter h pool r now).fillable o = e.fillable o ∧
      P.foundFor (e.enter h pool r now) o = P.foundFor e o := by
  obtain ⟨hen, -⟩ := hst.enter henters halloc now
  obtain ⟨hdead, -, hlive⟩ := Pool.allocate_spec halloc
  have hslots : ∀ k, k ≠ h → (e.enter h pool r now).pool.slots k = e.pool.slots k := by
    intro k hk
    have hnew : pool.slots h = some default := by rw [hlive, if_pos rfl]
    show (pool.set h (r.order e.nextOrderId now)).slots k = _
    rw [Pool.slots_set hnew, if_neg hk, hlive, if_neg hk]
  have hcrossed : (e.enter h pool r now).crossed o = e.crossed o := by
    rw [crossed_eq hen.tiered, crossed_eq hst.tiered]
    refine crossedIn_congr fun g hg k hk => hslots k fun he => ?_
    obtain ⟨-, o', ho'⟩ := hst.tiered.queues.placed _ _ g hg k hk
    have hslot := ho'.slot
    simp [he, hdead] at hslot
  refine ⟨?_, ?_⟩
  · rw [fillable_eq, fillable_eq, hcrossed]
    rfl
  unfold foundFor Positions.finds
  rw [hcrossed]
  show P.recount _ _ _ (P.standing (e.told ++ [.onAck (r.order e.nextOrderId now) now])
    o.instrument) _ = _
  rw [standing_quiet rfl]
  rfl

/-! ## The order -/

/-- What is left of a fill-or-kill order tells no fill. -/
theorem finish_told {o : SimOrder} (htif : o.tif = .fok) (market : Bool) :
    ∃ quiet, fillsOf quiet = [] ∧ (e.finish market h o now).told = e.told ++ quiet := by
  unfold MatchingEngine.finish
  split
  · exact ⟨[], rfl, (append_nil _).symm⟩
  · rw [if_pos (.inr (.inr htif))]
    exact ⟨_, rfl, rfl⟩

/-- Fills of positive quantities are none when they sum to nothing. -/
theorem fills_eq_nil {calls : List SinkCall} (h : ∀ f ∈ fillsOf calls, 0 < f.qty) :
    fillsOf calls = [] ↔ filledQty calls = 0 := by
  refine ⟨filledQty_quiet, fun hzero => ?_⟩
  rcases hfills : fillsOf calls with _ | ⟨f, fs⟩
  · rfl
  rw [hfills] at h
  have hrest : 0 ≤ (fs.map Fill.qty).sum := by
    refine sum_nonneg fun q hq => ?_
    obtain ⟨g, hg, rfl⟩ := mem_map.mp hq
    exact le_of_lt (h g (mem_cons_of_mem f hg))
  have hpos : 0 < f.qty + (fs.map Fill.qty).sum :=
    add_pos_of_pos_of_nonneg (h f mem_cons_self) hrest
  unfold filledQty at hzero
  rw [hfills, map_cons, sum_cons] at hzero
  exact absurd hpos (by rw [hzero]; exact lt_irrefl _)

/-- An order that passed its pre-check has room for all of it. -/
theorem roomy_of_passed {o : SimOrder} (hP : e.reducible = P.reducible) (hleaves : o.leaves = o.qty)
    (hpos : 0 < o.qty) (hpass : ¬ e.Expires o) : P.Roomy e o := by
  intro hreduce hkeeps
  have hroom := not_lt.mp (not_and.mp (not_or.mp hpass).2 hreduce)
  rw [hP, reducible_eq (by rw [hleaves]; exact le_of_lt hpos)] at hroom
  unfold Positions.room at hroom
  rw [if_pos hkeeps] at hroom
  rw [hleaves]
  exact le_trans hroom (min_le_right _ _)

/-- A passed order trades what the recount finds. -/
theorem matched (hen : Entered e L h o) (hP : e.reducible = P.reducible)
    (hleaves : o.leaves = o.qty) (hpos : 0 < o.qty) (hpass : ¬ e.Expires o) (htif : o.tif = .fok)
    (market : Bool) (now : Timestamp) :
    ∃ calls, (match e.matchOrder h o now with
        | (false, e, _) => e
        | (true, e, o) => e.finish market h o now).told = e.told ++ calls ∧
      filledQty calls = min o.qty (P.foundFor e o) ∧ ∀ f ∈ fillsOf calls, 0 < f.qty := by
  have hlen : (L o.instrument.value o.side.opposite).length ≤ kMaxSimLevels := by
    have hle := ((e.books o.instrument.value).levels o.side.opposite).length_le
    rwa [hen.tiered.levels, length_map] at hle
  obtain ⟨calls, hcounts⟩ := sweep_counted now (kMaxSimLevels + o.leaves.toNat + 1) e L o o
    hen.tiered hen.balanced hP hen.slot rfl (by rw [hleaves]; exact le_of_lt hpos) rfl rfl
    (roomy_of_passed hP hleaves hpos hpass) (by omega)
  have hr : e.matchOrder h o now =
      MatchingEngine.sweep h now (kMaxSimLevels + o.leaves.toNat + 1) e o := rfl
  rw [← hr] at hcounts
  have hqty : filledQty calls = min o.qty (P.foundFor e o) := by
    rw [hcounts.qty, hcounts.found, hleaves]
    unfold foundFor
    rw [crossed_eq hen.tiered]
  generalize e.matchOrder h o now = res at hcounts ⊢
  obtain ⟨ok, e₂, o₂⟩ := res
  cases ok with
  | false => exact ⟨calls, hcounts.told, hqty, hcounts.fills⟩
  | true =>
    have htif₂ : o₂.tif = .fok := by
      rw [show o₂ = { o with cumQty := o₂.cumQty } from hcounts.same]
      exact htif
    obtain ⟨quiet, hquiet, htold⟩ : ∃ quiet, fillsOf quiet = [] ∧
        (e₂.finish market h o₂ now).told = e₂.told ++ quiet := finish_told htif₂ market
    have hfills : fillsOf (calls ++ quiet) = fillsOf calls := by
      rw [fillsOf_append, hquiet, append_nil]
    refine ⟨calls ++ quiet, ?_, ?_, ?_⟩
    · rw [htold, show e₂.told = _ from hcounts.told, append_assoc]
    · rw [filledQty_append, filledQty_quiet hquiet, add_zero, hqty]
    · rw [hfills]
      exact hcounts.fills

/-- The sink stays the one the engine was made with. -/
theorem Stands.play_reducible (hst : Stands e L) (op : EngineOp) (now : Timestamp) :
    (e.play op now).reducible = e.reducible := by
  cases op with
  | submit o =>
    obtain ⟨_, _, _, hrep, _⟩ := hst.submit o now
    exact hrep.reducible
  | cancel account id =>
    obtain ⟨_, _, _, hrep, _⟩ := hst.cancel account id now
    exact hrep.reducible
  | replace account orig newId price qty =>
    obtain ⟨_, _, _, hrep, _⟩ := hst.replace account orig newId price qty now
    exact hrep.reducible
  | reduceAccountQty account id side px qty =>
    obtain ⟨_, _, _, hrep, _⟩ := hst.reduceAccountQty account id side px qty now
    exact hrep.reducible
  | setStp account mode =>
    show (e.setStp account mode).reducible = e.reducible
    unfold MatchingEngine.setStp
    split <;> rfl
  | setStpOn account id mode =>
    show (e.setStpOn account id mode).reducible = e.reducible
    unfold MatchingEngine.setStpOn
    split <;> rfl

theorem Stands.run_reducible (hst : Stands e L) (ops : List (EngineOp × Timestamp)) :
    (e.run ops).reducible = e.reducible := by
  induction ops generalizing e L with
  | nil => rfl
  | cons op ops ih =>
    obtain ⟨L₁, -, hst₁, -⟩ := hst.play op.1 op.2
    exact (ih hst₁).trans (hst.play_reducible op.1 op.2)

/-- What an order taken in answers its request with. -/
theorem fok_entered (hst : Stands e L) (hP : e.reducible = P.reducible) (htype : r.type = .limit)
    (htif : r.tif = .fok) (href : ¬ (Refused e r ∨ e.pool.allocate = none)) (now : Timestamp) :
    ∃ calls, (e.submit r now).2.told = e.told ++ calls ∧
      if e.Expires (r.order e.nextOrderId now) then fillsOf calls = []
      else filledQty calls = min r.qty (P.foundFor e (r.order e.nextOrderId now)) ∧
        ∀ f ∈ fillsOf calls, 0 < f.qty := by
  obtain ⟨hno, halloc⟩ := not_or.mp href
  obtain ⟨⟨h, pool⟩, halloc⟩ := Option.ne_none_iff_exists'.mp halloc
  obtain ⟨henters, hprice, hcross⟩ := enters_of_not_refused hno
  obtain ⟨hen, hrep, -⟩ := hst.enter henters halloc now
  obtain ⟨hfillable, hfound⟩ := enter_same P hst henters halloc now (r.order e.nextOrderId now)
  have hP₁ : (e.enter h pool r now).reducible = P.reducible := hrep.reducible.trans hP
  have hleaves : (r.order e.nextOrderId now).leaves = (r.order e.nextOrderId now).qty :=
    sub_zero r.qty
  have htif₁ : (r.order e.nextOrderId now).tif = .fok := by
    unfold NewOrder.order
    rw [htype]
    exact htif
  have hroom : ((e.enter h pool r now).reducible (e.enter h pool r now).told
      (r.order e.nextOrderId now) : Qty) =
        (e.reducible e.told (r.order e.nextOrderId now) : Qty) := by
    have hpos : 0 ≤ (r.order e.nextOrderId now).leaves := hleaves ▸ le_of_lt henters.qty
    have hack : P.standing (e.told ++ [.onAck (r.order e.nextOrderId now) now]) r.instrument =
        P.standing e.told r.instrument := standing_quiet rfl _
    rw [hP₁, hP, reducible_eq hpos, reducible_eq hpos]
    exact congrArg (fun pos => P.room (pos r.account) (r.order e.nextOrderId now)) hack
  have hexpires : (e.enter h pool r now).Expires (r.order e.nextOrderId now) ↔
      e.Expires (r.order e.nextOrderId now) := by
    unfold MatchingEngine.Expires
    rw [hfillable, hroom]
  rw [submit_enters henters hprice hcross halloc]
  by_cases hpass : e.Expires (r.order e.nextOrderId now)
  · rw [if_pos ⟨htif₁, hexpires.mpr hpass⟩]
    refine ⟨[.onAck (r.order e.nextOrderId now) now,
      .onCancel (r.order e.nextOrderId now) .fok now], append_assoc _ [_] [_], ?_⟩
    rw [if_pos hpass]
    rfl
  · rw [if_neg (fun hx => hpass (hexpires.mp hx.2)),
      if_neg (by rw [htype]; exact OrderType.noConfusion)]
    obtain ⟨calls, htold, hqty, hfills⟩ := matched hen hP₁ hleaves henters.qty
      (fun hx => hpass (hexpires.mp hx)) htif₁ (decide (r.type = .market)) now
    refine ⟨.onAck (r.order e.nextOrderId now) now :: calls, ?_, ?_⟩
    · exact htold.trans (append_assoc _ [_] _)
    · rw [if_neg hpass, ← hfound]
      exact ⟨hqty, hfills⟩

/-- A fill-or-kill limit order of any reachable engine, with a sink that follows positions, fills
whole or not at all exactly when it is refused, its pre-check expires it, or the recount with
the positions finds nothing for it or all of it. -/
theorem fok_whole (P : Positions) (n : Nat) (ops : List (EngineOp × Timestamp)) (r : NewOrder)
    (now : Timestamp) (htype : r.type = .limit) (htif : r.tif = .fok) :
    let e := (MatchingEngine.create n P.reducible).run ops
    let o := r.order e.nextOrderId now
    ∃ calls, (e.submit r now).2.told = e.told ++ calls ∧
      ((fillsOf calls = [] ∨ filledQty calls = r.qty) ↔
        Refused e r ∨ e.pool.allocate = none ∨ e.Expires o ∨ P.foundFor e o = 0 ∨
          r.qty ≤ P.foundFor e o) := by
  intro e o
  obtain ⟨L, calls₀, hst, -⟩ := (stands_create n P.reducible).run ops
  have hP : e.reducible = P.reducible := (stands_create n P.reducible).run_reducible ops
  by_cases href : Refused e r ∨ e.pool.allocate = none
  · obtain ⟨why, heq⟩ := submit_refused now href
    refine ⟨[.onReject r why now], by rw [heq]; rfl, iff_of_true (.inl rfl) ?_⟩
    exact href.elim .inl fun h => .inr (.inl h)
  obtain ⟨calls, htold, hanswer⟩ := fok_entered hst hP htype htif href now
  obtain ⟨hno, halloc⟩ := not_or.mp href
  have hqty : 0 < r.qty := not_not.mp fun h => hno (.inr (.inl h))
  refine ⟨calls, htold, ?_⟩
  split_ifs at hanswer with hpass
  · exact iff_of_true (.inl hanswer) (.inr (.inr (.inl hpass)))
  obtain ⟨hfilled, hfills⟩ := hanswer
  rw [fills_eq_nil hfills, hfilled]
  constructor
  · rintro (hzero | hall)
    · refine .inr (.inr (.inr (.inl ?_)))
      rcases min_choice r.qty (P.foundFor e o) with hmin | hmin
      · rw [hmin] at hzero
        exact absurd hqty (by rw [hzero]; exact lt_irrefl _)
      · rw [hmin] at hzero
        exact hzero
    · exact .inr (.inr (.inr (.inr (min_eq_left_iff.mp hall))))
  · rintro (h | h | h | h | h)
    · exact absurd h hno
    · exact absurd h halloc
    · exact absurd h hpass
    · exact .inl (by rw [h]; exact min_eq_right (le_of_lt hqty))
    · exact .inr (min_eq_left h)

/-- Account 1, short 2, rests a reduce-only bid of 5. -/
def shortTwo : Positions := { kept := fun a _ => decide (a = 1), start := fun _ _ => -2 }

def restingBid : List (EngineOp × Timestamp) :=
  [(.submit ⟨1, ⟨1⟩, ⟨0⟩, .buy, .limit, .gtc, 100, 5, true⟩, 1)]

/-- An offer of no more than the position leaves fills whole. -/
theorem fok_whole_two :
    ∃ calls, (((MatchingEngine.create 1 shortTwo.reducible).run restingBid).submit
        ⟨2, ⟨1⟩, ⟨0⟩, .sell, .limit, .fok, 100, 2, false⟩ 2).2.told =
          ((MatchingEngine.create 1 shortTwo.reducible).run restingBid).told ++ calls ∧
      (fillsOf calls = [] ∨ filledQty calls = 2) := by
  obtain ⟨calls, htold, hiff⟩ := fok_whole shortTwo 1 restingBid
    ⟨2, ⟨1⟩, ⟨0⟩, .sell, .limit, .fok, 100, 2, false⟩ 2 rfl rfl
  exact ⟨calls, htold, hiff.mpr (.inr (.inr (.inr (.inr (by decide +kernel)))))⟩

/-- An offer of 4 passes its pre-check and fills 2. -/
theorem not_fok_whole_four :
    fillsOf ((MatchingEngine.create 1 shortTwo.reducible).run restingBid).told = [] ∧
      fillsOf (((MatchingEngine.create 1 shortTwo.reducible).run restingBid).submit
        ⟨2, ⟨1⟩, ⟨0⟩, .sell, .limit, .fok, 100, 4, false⟩ 2).2.told =
          [⟨⟨1, 1, ⟨1⟩⟩, ⟨2, 2, ⟨1⟩⟩, 100, 2⟩] := by
  decide +kernel

end FastMM.Sim
