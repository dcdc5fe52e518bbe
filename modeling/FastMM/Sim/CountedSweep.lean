/-
  Sim/CountedSweep.lean --- a sweep takes what the recount finds, up to the taker's quantity.

  Along the walk over a level the smaller of what the taker wants and of what the recount finds is
  what was traded and what is still to trade.  Makers that stay behind the walk are reduce-only
  orders of the taker's own account: such a trade leaves the position, so they are found whole.
-/
import FastMM.Sim.Recount
set_option autoImplicit false

namespace FastMM.Sim

open List OrderPool Positions

variable {e₀ : MatchingEngine} {L : Ladder} {i : Nat} {s : Side} {A : List Group} {p : Price}
  {x₀ : List Nat} {th : Nat} {P : Positions} {mode : StpMode} {lim : Qty}

/-- The orders of some slots. -/
def OrderPool.orders (pool : OrderPool) (hs : List Nat) : List SimOrder :=
  hs.map fun k => (pool.slots k).getD default

theorem orders_congr {pool pool' : OrderPool} {hs : List Nat}
    (h : ∀ k ∈ hs, pool'.slots k = pool.slots k) :
    OrderPool.orders pool' hs = OrderPool.orders pool hs :=
  map_congr_left fun k hk => by rw [h k hk]

/-- The quantity of fills. -/
def filledQty (calls : List SinkCall) : Qty := ((fillsOf calls).map Fill.qty).sum

theorem filledQty_append (calls calls' : List SinkCall) :
    filledQty (calls ++ calls') = filledQty calls + filledQty calls' := by
  unfold filledQty
  rw [fillsOf_append, map_append, sum_append]

theorem filledQty_quiet {calls : List SinkCall} (h : fillsOf calls = []) : filledQty calls = 0 := by
  unfold filledQty
  rw [h]
  rfl

namespace Positions

/-- What the taker of a sweep finds in the orders. -/
def finds (P : Positions) (mode : StpMode) (e : MatchingEngine) (taker : SimOrder)
    (os : List SimOrder) : Qty :=
  P.recount mode taker.account taker.side (P.standing e.told taker.instrument) os

/-- A reduce-only taker's position leaves room for all it wants. -/
def Roomy (P : Positions) (e : MatchingEngine) (taker : SimOrder) : Prop :=
  taker.reduceOnly = true → P.kept taker.account taker.instrument = true →
    taker.leaves ≤ closing taker.side (P.after e.told taker.account taker.instrument)

/-- The makers behind the walk, while the taker wants more. -/
def Behind (P : Positions) (mode : StpMode) (w : Sweep) (kept : List Nat) : Prop :=
  0 < w.taker.leaves → ∀ o ∈ OrderPool.orders w.engine.pool kept,
    mode = .none ∧ o.account = w.taker.account ∧ o.side = w.taker.side.opposite ∧
      0 < P.tradable (P.standing w.engine.told w.taker.instrument) o

end Positions

/-- What is found at a point of the walk: the makers behind it and those before it. -/
def Sweep.found (w : Sweep) (P : Positions) (mode : StpMode) (kept todo : List Nat)
    (rest : List SimOrder) : Qty :=
  ((OrderPool.orders w.engine.pool kept).map SimOrder.leaves).sum +
    P.finds mode w.engine w.taker (OrderPool.orders w.engine.pool todo ++ rest)

/-- A walk from `w`, with the queue `kept ++ todo`, ends at `w'` with the queue `x'`, and what it
traded is what it found. -/
structure Counted (e₀ : MatchingEngine) (L : Ladder) (i : Nat) (s : Side) (A : List Group)
    (p : Price) (x₀ : List Nat) (th : Nat) (P : Positions) (mode : StpMode) (lim : Qty) (w : Sweep)
    (kept todo : List Nat) (w' : Sweep) (x' : List Nat) (calls : List SinkCall) : Prop where
  sweeping : Sweeping e₀ L i s A p x₀ th w'.engine w'.level x'
  reports : Reports w.engine calls w'.engine
  balanced : Balanced w'.engine
  taker : w'.taker = { w.taker with cumQty := w'.taker.cumQty }
  nonneg : 0 ≤ w'.taker.leaves
  reduced : w'.takerReduced = false
  roomy : P.Roomy w'.engine w'.taker
  headway : w'.takerDone = true ∨ x' = [] ∨ w'.taker.leaves < lim
  qty : filledQty calls = w.taker.leaves - w'.taker.leaves
  fills : ∀ f ∈ fillsOf calls, 0 < f.qty
  law : ∀ rest, (∀ o ∈ rest, 0 ≤ o.leaves) →
    min w.taker.leaves (w.found P mode kept todo rest) = (w.taker.leaves - w'.taker.leaves) +
      min w'.taker.leaves (if w'.takerDone = true then 0 else
        P.finds mode w'.engine w'.taker (OrderPool.orders w'.engine.pool x' ++ rest))

namespace Counted

variable {w w₁ w' : Sweep} {kept kept₁ todo todo₁ x' : List Nat} {calls calls₁ : List SinkCall}

theorem le (h : Counted e₀ L i s A p x₀ th P mode lim w kept todo w' x' calls) :
    w'.taker.leaves ≤ w.taker.leaves := by
  have hsum : 0 ≤ filledQty calls := by
    refine sum_nonneg fun q hq => ?_
    obtain ⟨f, hf, rfl⟩ := mem_map.mp hq
    exact le_of_lt (h.fills f hf)
  rw [h.qty] at hsum
  exact sub_nonneg.mp hsum

/-- One step of the walk, and the rest of it. -/
theorem step (hreports : Reports w.engine calls₁ w₁.engine)
    (htaker : w₁.taker = { w.taker with cumQty := w₁.taker.cumQty })
    (hqty : filledQty calls₁ = w.taker.leaves - w₁.taker.leaves)
    (hfills : ∀ f ∈ fillsOf calls₁, 0 < f.qty) (hlaw : ∀ rest, (∀ o ∈ rest, 0 ≤ o.leaves) →
      min w.taker.leaves (w.found P mode kept todo rest) =
        (w.taker.leaves - w₁.taker.leaves) + min w₁.taker.leaves (w₁.found P mode kept₁ todo₁ rest))
    (h : Counted e₀ L i s A p x₀ th P mode lim w₁ kept₁ todo₁ w' x' calls) :
    Counted e₀ L i s A p x₀ th P mode lim w kept todo w' x' (calls₁ ++ calls) := by
  refine ⟨h.sweeping, hreports.trans h.reports, h.balanced, ?_, h.nonneg, h.reduced, h.roomy,
    h.headway, ?_, fun f hf => ?_, fun rest hrest => ?_⟩
  · rw [h.taker, htaker]
  · rw [filledQty_append, hqty, h.qty]
    exact sub_add_sub_cancel _ _ _
  · rw [fillsOf_append] at hf
    exact (mem_append.mp hf).elim (hfills f) (h.fills f)
  · rw [hlaw rest hrest, h.law rest hrest, ← add_assoc, sub_add_sub_cancel]

/-- A walk that ends where it is. -/
theorem stay (hs : Sweeping e₀ L i s A p x₀ th w.engine w.level (kept ++ todo))
    (hbal : Balanced w.engine) (hpos : 0 ≤ w.taker.leaves) (hdone : w.takerDone = false)
    (hred : w.takerReduced = false) (hroomy : P.Roomy w.engine w.taker)
    (hlim : w.taker.leaves < lim ∨ kept = []) (hkept : P.Behind mode w kept)
    (hend : todo = [] ∨ ¬ 0 < w.taker.leaves ∧ 0 < lim) :
    Counted e₀ L i s A p x₀ th P mode lim w kept todo w (kept ++ todo) [] := by
  refine ⟨hs, Reports.refl _, hbal, rfl, hpos, hred, hroomy, ?_, ?_, fun f hf => ?_,
    fun rest hrest => ?_⟩
  · rcases hend with rfl | ⟨hend, hlim'⟩
    · rcases hlim with hlim | rfl
      · exact .inr (.inr hlim)
      · exact .inr (.inl rfl)
    · exact .inr (.inr (lt_of_le_of_lt (not_lt.mp hend) hlim'))
  · exact (sub_self _).symm
  · exact absurd hf not_mem_nil
  have hwaits : ∀ k ∈ kept ++ todo, 0 ≤ ((w.engine.pool.slots k).getD default).leaves := by
    intro k hk
    obtain ⟨o, ho⟩ := hs.waits hk
    rw [ho.slot]
    exact le_of_lt ho.leaves
  rw [sub_self, zero_add, if_neg (by rw [hdone]; exact Bool.false_ne_true)]
  by_cases hleft : 0 < w.taker.leaves
  · obtain rfl := hend.resolve_right fun h => h.1 hleft
    refine congrArg (min w.taker.leaves) ?_
    rw [append_nil]
    cases hkeep : kept with
    | nil =>
      show (0 : Qty) + _ = _
      rw [zero_add]
    | cons k ks =>
      rw [← hkeep]
      obtain ⟨hmode, -⟩ := hkept hleft ((w.engine.pool.slots k).getD default)
        (mem_map.mpr ⟨k, by rw [hkeep]; exact mem_cons_self, rfl⟩)
      subst hmode
      refine (recount_own fun o ho => ?_).symm
      obtain ⟨-, hown, -, htradable⟩ := hkept hleft o ho
      exact ⟨hown, htradable⟩
  · have hzero : w.taker.leaves = 0 := le_antisymm (not_lt.mp hleft) hpos
    rw [hzero]
    have hall : ∀ hs ⊆ kept ++ todo, ∀ o ∈ OrderPool.orders w.engine.pool hs, 0 ≤ o.leaves := by
      intro hs hsub o ho
      obtain ⟨k, hk, rfl⟩ := mem_map.mp ho
      exact hwaits k (hsub hk)
    have hfinds : ∀ hs ⊆ kept ++ todo,
        0 ≤ P.finds mode w.engine w.taker (OrderPool.orders w.engine.pool hs ++ rest) :=
      fun hs hsub => recount_nonneg fun o ho =>
        (mem_append.mp ho).elim (hall hs hsub o) (hrest o)
    have hsum : 0 ≤ ((OrderPool.orders w.engine.pool kept).map SimOrder.leaves).sum := by
      refine sum_nonneg fun q hq => ?_
      obtain ⟨o, ho, rfl⟩ := mem_map.mp hq
      exact hall kept (subset_append_left _ _) o ho
    rw [min_eq_left (hfinds _ (List.Subset.refl _)), min_eq_left]
    exact add_nonneg hsum (hfinds todo (subset_append_right _ _))

end Counted

/-! ## One maker -/

section Maker

variable {w : Sweep} {kept todo : List Nat} {mh : Nat} {maker : SimOrder} {rest : List SimOrder}

theorem found_cons (hm : OrderPool.Waits w.engine.pool mh i s p maker) :
    w.found P mode kept (mh :: todo) rest =
      ((OrderPool.orders w.engine.pool kept).map SimOrder.leaves).sum +
        P.finds mode w.engine w.taker (maker :: (OrderPool.orders w.engine.pool todo ++ rest)) := by
  unfold Sweep.found OrderPool.orders
  rw [map_cons, hm.slot]
  rfl

/-- Orders of a queue have something left. -/
theorem orders_nonneg {x : List Nat}
    (hs : Sweeping e₀ L i s A p x₀ th w.engine w.level x) {hs' : List Nat} (hsub : hs' ⊆ x) :
    ∀ o ∈ OrderPool.orders w.engine.pool hs', 0 ≤ o.leaves := by
  intro o ho
  obtain ⟨k, hk, rfl⟩ := mem_map.mp ho
  obtain ⟨o, ho⟩ := hs.waits (hsub hk)
  rw [ho.slot]
  exact le_of_lt ho.leaves

section

variable (hs : Sweeping e₀ L i s A p x₀ th w.engine w.level (kept ++ todo))
include hs

theorem kept_nonneg :
    0 ≤ ((OrderPool.orders w.engine.pool kept).map SimOrder.leaves).sum := by
  refine sum_nonneg fun q hq => ?_
  obtain ⟨o, ho, rfl⟩ := mem_map.mp hq
  exact orders_nonneg hs (subset_append_left _ _) o ho

theorem finds_nonneg
    (hrest : ∀ o ∈ rest, 0 ≤ o.leaves) (pos : AccountId → Qty) (account : AccountId) (side : Side) :
    0 ≤ P.recount mode account side pos (OrderPool.orders w.engine.pool todo ++ rest) :=
  recount_nonneg fun o ho =>
    (mem_append.mp ho).elim (orders_nonneg hs (subset_append_right _ _) o) (hrest o)

end

/-- A maker that leaves without trading: the others stand where they stood. -/
theorem found_drop (P : Positions) (mode : StpMode) (rest : List SimOrder)
    (hs : Sweeping e₀ L i s A p x₀ th w.engine w.level (kept ++ mh :: todo))
    (hm : OrderPool.Waits w.engine.pool mh i s p maker) (why : CancelReason) (now : Timestamp) :
    (w.dropMaker mh maker why now).found P mode kept todo rest = w.found P mode kept todo rest ∧
      (P.Behind mode w kept → P.Behind mode (w.dropMaker mh maker why now) kept) ∧
      (P.Roomy w.engine w.taker →
        P.Roomy (w.dropMaker mh maker why now).engine (w.dropMaker mh maker why now).taker) := by
  have hnodup := hs.queues.nodup i s (p, kept ++ mh :: todo) (by rw [Ladder.set_self]; simp)
  rw [nodup_middle] at hnodup
  have hsame : ∀ hs' ⊆ kept ++ todo,
      OrderPool.orders (w.dropMaker mh maker why now).engine.pool hs' =
        OrderPool.orders w.engine.pool hs' :=
    fun hs' hsub => orders_congr fun k hk => (Pool.slots_free hm.slot k).trans
      (if_neg fun (he : k = mh) =>
      (nodup_cons.mp hnodup).1 (he ▸ hsub hk))
  have hstanding : P.standing (w.dropMaker mh maker why now).engine.told w.taker.instrument =
      P.standing w.engine.told w.taker.instrument := by
    exact standing_quiet rfl _
  have hkept := hsame kept (subset_append_left _ _)
  refine ⟨?_, fun hbehind hleft o ho => ?_, fun hroomy hreduce hkeeps => ?_⟩
  · unfold Sweep.found Positions.finds
    rw [hkept, hsame todo (subset_append_right _ _)]
    show _ + P.recount mode w.taker.account w.taker.side (P.standing
      (w.dropMaker mh maker why now).engine.told w.taker.instrument) _ = _
    rw [hstanding]
  · rw [hkept] at ho
    obtain ⟨hmode, hown, hside, htradable⟩ := hbehind hleft o ho
    refine ⟨hmode, hown, hside, ?_⟩
    show 0 < P.tradable (P.standing (w.dropMaker mh maker why now).engine.told w.taker.instrument) o
    rw [hstanding]
    exact htradable
  · have hafter := congrFun hstanding w.taker.account
    show w.taker.leaves ≤ closing w.taker.side (P.standing
      (w.dropMaker mh maker why now).engine.told w.taker.instrument w.taker.account)
    rw [hafter]
    exact hroomy hreduce hkeeps

/-- A maker the sweep passes over is not found. -/
theorem Positions.recount_skip {account : AccountId} {side : Side} {pos : AccountId → Qty}
    {o : SimOrder} {os : List SimOrder} (h : (o.account = account ∧ mode = .cancelMaker) ∨
      (¬ (mode ≠ .none ∧ o.account = account) ∧ P.tradable pos o = 0)) :
    P.recount mode account side pos (o :: os) = P.recount mode account side pos os := by
  rw [recount]
  rcases h with ⟨hown, rfl⟩ | ⟨hother, hnone⟩
  · rw [if_pos hown, if_neg (by decide), if_pos rfl]
  by_cases hown : o.account = account
  · have hmode : mode = .none := by
      by_contra hmode
      exact hother ⟨hmode, hown⟩
    rw [if_pos hown, if_pos hmode, if_pos hnone, zero_add]
  · rw [if_neg hown, hnone, traded_zero, zero_add]

/-- A maker that may trade is found: one of the taker's account whole. -/
theorem Positions.recount_found {account : AccountId} {side : Side} {pos : AccountId → Qty}
    {o : SimOrder} {os : List SimOrder} (hside : o.side = side.opposite)
    (hother : ¬ (mode ≠ .none ∧ o.account = account)) (hsome : 0 < P.tradable pos o) :
    P.recount mode account side pos (o :: os) =
      (if o.account = account then o.leaves else P.tradable pos o) +
        P.recount mode account side (traded pos o account side (P.tradable pos o)) os := by
  rw [recount]
  by_cases hown : o.account = account
  · have hmode : mode = .none := by
      by_contra hmode
      exact hother ⟨hmode, hown⟩
    rw [if_pos hown, if_pos hown, if_pos hmode, if_neg (ne_of_gt hsome), traded_own pos hside hown]
  · rw [if_neg hown, if_neg hown]

/-! ### Its arithmetic -/

/-- A maker that traded `q` of what is found of it, with the rest behind the walk. -/
theorem law_stays (left K c R q : Int) :
    min left (K + (c + R)) = q + min (left - q) (K + (c - q) + R) := by omega

/-- A maker that has all the taker wants. -/
theorem law_full (left K c R X : Int) (hK : 0 ≤ K) (hR : 0 ≤ R) (hX : 0 ≤ X) (hc : left ≤ c) :
    min left (K + (c + R)) = left + min (left - left) X := by omega

/-! ### A trade -/

/-- What a walk does after a maker traded `q`. -/
structure Trades (e₀ : MatchingEngine) (L : Ladder) (i : Nat) (s : Side) (A : List Group)
    (p : Price) (x₀ : List Nat) (th : Nat) (P : Positions) (mode : StpMode) (w : Sweep)
    (kept : List Nat) (mh : Nat) (todo : List Nat) (q : Qty) (w₁ : Sweep) (kept₁ : List Nat)
    (calls : List SinkCall) : Prop where
  sweeping : Sweeping e₀ L i s A p x₀ th w₁.engine w₁.level (kept₁ ++ todo)
  reports : Reports w.engine calls w₁.engine
  balanced : Balanced w₁.engine
  taker : w₁.taker = { w.taker with cumQty := w₁.taker.cumQty }
  leaves : w₁.taker.leaves = w.taker.leaves - q
  done : w₁.takerDone = w.takerDone
  reduced : w₁.takerReduced = w.takerReduced
  roomy : P.Roomy w₁.engine w₁.taker
  behind : P.Behind mode w₁ kept₁
  qty : filledQty calls = q
  fills : ∀ f ∈ fillsOf calls, 0 < f.qty
  law : ∀ rest, (∀ o ∈ rest, 0 ≤ o.leaves) →
    min w.taker.leaves (w.found P mode kept (mh :: todo) rest) =
      q + min (w.taker.leaves - q) (w₁.found P mode kept₁ todo rest)

/-- A taker's room after a trade. -/
theorem roomy_traded {e' : MatchingEngine} {q : Qty} (hq : 0 ≤ q)
    (hqle : q ≤ w.taker.leaves) (hside : maker.side = w.taker.side.opposite)
    (hroomy : P.Roomy w.engine w.taker) (hstanding : P.standing e'.told w.taker.instrument =
      traded (P.standing w.engine.told w.taker.instrument) maker w.taker.account w.taker.side q) :
    P.Roomy e' (w.taker.filled q) := by
  intro hreduce hkeeps
  have hroom := hroomy hreduce hkeeps
  show (w.taker.filled q).leaves ≤ closing w.taker.side
    (P.standing e'.told w.taker.instrument w.taker.account)
  rw [leaves_filled, hstanding]
  by_cases hown : maker.account = w.taker.account
  · rw [traded_own _ hside hown]
    exact le_trans (sub_le_self _ hq) hroom
  have hpos : traded (P.standing w.engine.told w.taker.instrument) maker w.taker.account
      w.taker.side q w.taker.account =
        P.after w.engine.told w.taker.account w.taker.instrument + signed w.taker.side q := by
    unfold traded
    rw [if_neg hown, if_pos rfl, zero_add]
    rfl
  rw [hpos]
  rcases lt_or_eq_of_le (le_trans hq (le_trans hqle hroom)) with hlt | hzero
  · rw [closing_signed (le_trans hqle hroom) hlt]
    exact sub_le_sub_right hroom q
  · have hnone : w.taker.leaves ≤ 0 := hzero ▸ hroom
    exact le_trans (sub_nonpos_of_le (le_trans hnone hq)) (closing_nonneg _ _)

/-- Makers behind the walk after a trade. -/
theorem behind_traded {w₁ : Sweep} {q : Qty} (hq : 0 ≤ q)
    (hside : maker.side = w.taker.side.opposite) (hbehind : P.Behind mode w kept)
    (hleft : 0 < w.taker.leaves) (htaker : w₁.taker = w.taker.filled q)
    (hslots : OrderPool.orders w₁.engine.pool kept = OrderPool.orders w.engine.pool kept)
    (hstanding : P.standing w₁.engine.told w.taker.instrument =
      traded (P.standing w.engine.told w.taker.instrument) maker w.taker.account w.taker.side q) :
    P.Behind mode w₁ kept := by
  intro _ o ho
  rw [hslots] at ho
  obtain ⟨hmode, hown, hoside, htradable⟩ := hbehind hleft o ho
  rw [htaker]
  refine ⟨hmode, hown, hoside, ?_⟩
  show 0 < P.tradable (P.standing w₁.engine.told w.taker.instrument) o
  rw [hstanding]
  by_cases hmaker : maker.account = w.taker.account
  · rw [traded_own _ hside hmaker]
    exact htradable
  · exact tradable_traded hown hoside hmaker hq htradable

/-- Whether a maker that traded part of its leaves is looked at and found spent. -/
theorem spent_iff {e' : MatchingEngine} {q : Qty} (ho : 0 ≤ (maker.filled q).leaves)
    (hreducible : e'.reducible = P.reducible) (told : List SinkCall) :
    e'.reducible told (maker.filled q) = 0 ↔
      P.room (P.after told maker.account maker.instrument) (maker.filled q) = 0 := by
  have heq : (P.reducible told (maker.filled q) : Qty) =
      P.room (P.after told maker.account maker.instrument) (maker.filled q) :=
    reducible_eq ho
  rw [hreducible]
  constructor
  · intro h
    rw [h] at heq
    exact heq.symm
  · intro h
    rw [h] at heq
    exact Int.ofNat_eq_zero.mp heq

/-- A maker whose position is left where it is has room for more. -/
theorem room_filled {position q : Qty} (hroom : 0 < P.room position maker)
    (hq : q < maker.leaves) : 0 < P.room position (maker.filled q) := by
  have hleaves : 0 < (maker.filled q).leaves := by
    rw [leaves_filled]
    exact sub_pos.mpr hq
  unfold Positions.room at hroom ⊢
  split_ifs with hkept
  · rw [if_pos (show P.kept maker.account maker.instrument = true from hkept)] at hroom
    exact lt_min hleaves (lt_min_iff.mp hroom).2
  · exact hleaves

/-- A maker that traded all its position left room for is spent. -/
theorem room_spent {position m : Qty} (hm : m = P.room position maker) (hpos : 0 < m)
    (hlt : m < maker.leaves) : P.room (position + signed maker.side m) (maker.filled m) = 0 := by
  unfold Positions.room at hm ⊢
  split_ifs with hkept
  · rw [if_pos (show P.kept maker.account maker.instrument = true from hkept)] at hm
    have hclosing : m = closing maker.side position := by
      rcases min_choice maker.leaves (closing maker.side position) with h | h
      · rw [h] at hm
        exact absurd hlt (by rw [hm]; exact lt_irrefl _)
      · rw [h] at hm
        exact hm
    show min (maker.filled m).leaves (closing maker.side (position + signed maker.side m)) = 0
    rw [closing_signed (le_of_eq hclosing) (hclosing ▸ hpos), ← hclosing, sub_self, leaves_filled]
    exact min_eq_right (sub_nonneg.mpr (le_of_lt hlt))
  · rw [if_neg (show ¬ P.kept maker.account maker.instrument = true from hkept)] at hm
    exact absurd hlt (by rw [hm]; exact lt_irrefl _)

theorem trades (hs : Sweeping e₀ L i s A p x₀ th w.engine w.level (kept ++ mh :: todo))
    (hm : OrderPool.Waits w.engine.pool mh i s p maker) (hbal : Balanced w.engine)
    (hP : w.engine.reducible = P.reducible) (hinst : maker.instrument = w.taker.instrument)
    (hside : s = w.taker.side.opposite) (hroomy : P.Roomy w.engine w.taker)
    (hbehind : P.Behind mode w kept) (hleft : 0 < w.taker.leaves)
    (hother : ¬ (mode ≠ .none ∧ maker.account = w.taker.account)) {q m : Qty}
    (htradable : m = P.tradable (P.standing w.engine.told w.taker.instrument) maker)
    (hmpos : 0 < m) (hq : q = min w.taker.leaves m) (now : Timestamp) :
    ∃ kept₁ calls, Trades e₀ L i s A p x₀ th P mode w kept mh todo q
      (w.trade mh maker w.level.price q now) kept₁ calls := by
  have hqpos : 0 < q := by rw [hq]; exact lt_min hleft hmpos
  have hqle : q ≤ w.taker.leaves := by rw [hq]; exact min_le_left _ _
  have hmle : m ≤ maker.leaves := htradable ▸ tradable_le _ maker
  have hqm : q ≤ m := by rw [hq]; exact min_le_right _ _
  have hqmaker : q ≤ maker.leaves := le_trans hqm hmle
  have hmside : maker.side = w.taker.side.opposite := hm.side.trans hside
  obtain ⟨calls, hrep, hfills, hbal₁, htaker, hdone, hred, hcase⟩ :=
    hs.trade hm.slot hqmaker hmside hbal w.level.price now
  obtain ⟨⟨quiet, hquiet, htold⟩, hpool⟩ := trade_cases w mh maker w.level.price q now
  generalize hw₁ : w.trade mh maker w.level.price q now = w₁ at *
  obtain ⟨pos, hposdef⟩ : ∃ pos, pos = P.standing w.engine.told w.taker.instrument := ⟨_, rfl⟩
  have hfilled : P.standing (w.engine.told ++ w.fillCalls maker w.level.price q now)
      w.taker.instrument = traded pos maker w.taker.account w.taker.side q := by
    rw [hposdef]
    exact standing_fillCalls hinst rfl
  have hstanding : P.standing w₁.engine.told w.taker.instrument =
      traded pos maker w.taker.account w.taker.side q := by
    rw [htold, standing_quiet hquiet, hfilled]
  have hleaves : w₁.taker.leaves = w.taker.leaves - q := by
    rw [htaker]
    exact leaves_filled w.taker q
  have hnodup := hs.queues.nodup i s (p, kept ++ mh :: todo) (by rw [Ladder.set_self]; simp)
  rw [nodup_middle] at hnodup
  have hothers : ∀ hs' ⊆ kept ++ todo,
      OrderPool.orders w₁.engine.pool hs' = OrderPool.orders w.engine.pool hs' := by
    intro hs' hsub
    refine orders_congr fun k hk => ?_
    have hne : k ≠ mh := fun he => (nodup_cons.mp hnodup).1 (he ▸ hsub hk)
    rw [hpool]
    split
    · exact (Pool.slots_free hm.slot k).trans (if_neg hne)
    · exact (Pool.slots_set hm.slot k).trans (if_neg hne)
  have hkept := hothers kept (subset_append_left _ _)
  have htodo := hothers todo (subset_append_right _ _)
  have hfilledNonneg : 0 ≤ (maker.filled q).leaves := by
    rw [leaves_filled]
    exact sub_nonneg.mpr hqmaker
  -- the maker is looked at again with the positions after the fill
  have hlook : w.engine.reducible (w.engine.told ++ w.fillCalls maker w.level.price q now)
      (maker.filled q) = 0 ↔
        P.room (traded pos maker w.taker.account w.taker.side q maker.account)
          (maker.filled q) = 0 := by
    rw [spent_iff hfilledNonneg hP, ← hfilled, hinst]
    rfl
  have hown_spent : maker.account = w.taker.account → q = m → maker.leaves ≠ q →
      ¬ w.engine.reducible (w.engine.told ++ w.fillCalls maker w.level.price q now)
        (maker.filled q) = 0 := by
    intro hown hqm' hne
    rw [hlook, traded_own pos hmside hown]
    refine ne_of_gt (room_filled ?_ (lt_of_le_of_ne hqmaker (Ne.symm hne)))
    have hroom : m ≤ P.room (pos maker.account) maker := by
      rw [htradable, hposdef]
      unfold tradable
      split_ifs with hreduce
      · exact le_refl _
      exfalso
      refine hne ?_
      rw [hqm', htradable]
      unfold tradable
      rw [if_neg hreduce]
    exact lt_of_lt_of_le hmpos hroom
  have hother_spent : maker.account ≠ w.taker.account → q = m → maker.leaves ≠ q →
      maker.reduceOnly = true ∧
        w.engine.reducible (w.engine.told ++ w.fillCalls maker w.level.price q now)
          (maker.filled q) = 0 := by
    intro hown hqm' hne
    have hreduce : maker.reduceOnly = true := by
      by_contra hreduce
      refine hne ?_
      rw [hqm', htradable]
      unfold tradable
      rw [if_neg hreduce]
    refine ⟨hreduce, hlook.mpr ?_⟩
    have hpos : traded pos maker w.taker.account w.taker.side q maker.account =
        pos maker.account + signed maker.side q := by
      unfold traded
      rw [if_pos rfl, if_neg (Ne.symm hown), add_zero]
    rw [hpos, hqm']
    refine room_spent ?_ hmpos (lt_of_le_of_ne hmle fun he => hne (by rw [hqm', he]))
    rw [htradable, hposdef]
    unfold tradable
    rw [if_pos hreduce]
  have hlaw : ∀ kept₁, Sweeping e₀ L i s A p x₀ th w₁.engine w₁.level (kept₁ ++ todo) →
      (q = m → ((OrderPool.orders w₁.engine.pool kept₁).map SimOrder.leaves).sum =
        ((OrderPool.orders w.engine.pool kept).map SimOrder.leaves).sum +
          ((if maker.account = w.taker.account then maker.leaves else m) - q)) →
      ∀ rest, (∀ o ∈ rest, 0 ≤ o.leaves) →
        min w.taker.leaves (w.found P mode kept (mh :: todo) rest) =
          q + min (w.taker.leaves - q) (w₁.found P mode kept₁ todo rest) := by
    intro kept₁ hs₁ hsum rest hrest
    have hsome : 0 < P.tradable pos maker := by rw [hposdef, ← htradable]; exact hmpos
    rw [found_cons hm]
    unfold Positions.finds
    rw [← hposdef, recount_found hmside hother hsome,
      show P.tradable pos maker = m by rw [hposdef, ← htradable]]
    have hK : 0 ≤ ((OrderPool.orders w.engine.pool kept).map SimOrder.leaves).sum := kept_nonneg hs
    have hR : 0 ≤ P.recount mode w.taker.account w.taker.side
        (traded pos maker w.taker.account w.taker.side m)
        (OrderPool.orders w₁.engine.pool todo ++ rest) := finds_nonneg hs₁ hrest _ _ _
    rw [htodo] at hR
    have hX : 0 ≤ w₁.found P mode kept₁ todo rest :=
      add_nonneg (kept_nonneg hs₁) (finds_nonneg hs₁ hrest _ _ _)
    by_cases hfull : w.taker.leaves ≤ m
    · have hqleft : q = w.taker.leaves := by rw [hq, min_eq_left hfull]
      rw [hqleft]
      refine law_full _ _ _ _ _ hK hR hX ?_
      split
      · exact le_trans hfull hmle
      · exact hfull
    have hqm' : q = m := by rw [hq, min_eq_right (le_of_lt (not_le.mp hfull))]
    have hfound : w₁.found P mode kept₁ todo rest =
        ((OrderPool.orders w.engine.pool kept).map SimOrder.leaves).sum +
          ((if maker.account = w.taker.account then maker.leaves else m) - q) +
          P.recount mode w.taker.account w.taker.side
            (traded pos maker w.taker.account w.taker.side m)
            (OrderPool.orders w.engine.pool todo ++ rest) := by
      unfold Sweep.found Positions.finds
      rw [hsum hqm', htodo, htaker]
      rw [hstanding, hqm']
    rw [hfound]
    exact law_stays _ _ _ _ q
  have hapart : w.engine.pool.free mh ≠ w.engine.pool.set mh (maker.filled q) := by
    intro heq
    have hslot := congrArg (fun pool => pool.slots mh) heq
    rw [Pool.slots_free hm.slot, Pool.slots_set hm.slot, if_pos rfl, if_pos rfl] at hslot
    cases hslot
  have hgoneEq : maker.leaves = q ↔ (maker.filled q).leaves = 0 := by
    rw [leaves_filled]
    exact sub_eq_zero.symm
  have hroomy₁ : P.Roomy w₁.engine w₁.taker := by
    rw [htaker]
    exact roomy_traded (le_of_lt hqpos) hqle hmside hroomy (by rw [hstanding, hposdef])
  have hbehind₁ : P.Behind mode w₁ kept :=
    behind_traded (le_of_lt hqpos) hmside hbehind hleft htaker hkept (by rw [hstanding, hposdef])
  have hqty : filledQty calls = q := by
    unfold filledQty
    rw [hfills]
    exact add_zero q
  have hpositive : ∀ f ∈ fillsOf calls, 0 < f.qty := by
    intro f hf
    rw [hfills] at hf
    rw [mem_singleton.mp hf]
    exact hqpos
  have htaker' : w₁.taker = { w.taker with cumQty := w₁.taker.cumQty } := by rw [htaker]
  rcases hcase with ⟨-, hs₁, hfree⟩ | ⟨hstays, hs₁, hset⟩
  · refine ⟨kept, calls, hs₁, hrep, hbal₁, htaker', hleaves, hdone, hred, hroomy₁, hbehind₁, hqty,
      hpositive, hlaw kept hs₁ fun hqm' => ?_⟩
    rw [hkept]
    have hall : (if maker.account = w.taker.account then maker.leaves else m) = q := by
      split_ifs with hown
      · by_contra hne
        refine hapart (hfree.symm.trans (hpool.trans (if_neg ?_)))
        rintro (hzero | ⟨-, hspent⟩)
        · exact hne (hgoneEq.mpr hzero)
        · exact hown_spent hown hqm' hne hspent
      · exact hqm'.symm
    rw [hall, sub_self, add_zero]
  · have happ : kept ++ mh :: todo = (kept ++ [mh]) ++ todo := by
      rw [append_assoc]
      rfl
    rw [happ] at hs₁
    have hown : q = m → maker.account = w.taker.account := by
      intro hqm'
      by_contra hown
      exact hapart ((hpool.trans (if_pos (.inr (hother_spent hown hqm' hstays)))).symm.trans hset)
    have horders : OrderPool.orders w₁.engine.pool (kept ++ [mh]) =
        OrderPool.orders w.engine.pool kept ++ [maker.filled q] := by
      unfold OrderPool.orders at hkept ⊢
      rw [map_append, hkept, map_singleton, hset, Pool.slots_set hm.slot, if_pos rfl]
      rfl
    refine ⟨kept ++ [mh], calls, hs₁, hrep, hbal₁, htaker', hleaves, hdone, hred, hroomy₁,
      fun hleft₁ o ho => ?_, hqty, hpositive, hlaw (kept ++ [mh]) hs₁ fun hqm' => ?_⟩
    · have hqm' : q = m := by
        rcases min_choice w.taker.leaves m with h | h
        · rw [hleaves, hq, h, sub_self] at hleft₁
          exact absurd hleft₁ (lt_irrefl _)
        · rw [hq, h]
      rw [horders] at ho
      rcases mem_append.mp ho with ho | ho
      · exact hbehind₁ hleft₁ o (by rw [hkept]; exact ho)
      obtain rfl := mem_singleton.mp ho
      have hmode : mode = .none := by
        by_contra hmode
        exact hother ⟨hmode, hown hqm'⟩
      rw [htaker]
      refine ⟨hmode, hown hqm', hmside, ?_⟩
      rw [hstanding, traded_own pos hmside (hown hqm')]
      rw [hqm', htradable] at hstays hqmaker ⊢
      rw [← hposdef] at hstays hqmaker ⊢
      have hsome : 0 < P.tradable pos maker := by rw [hposdef, ← htradable]; exact hmpos
      generalize hx : P.tradable pos maker = x at *
      unfold tradable at hx ⊢
      split_ifs with hreduce
      · rw [if_pos (show maker.reduceOnly = true from hreduce)] at hx
        refine room_filled ?_ (lt_of_le_of_ne hqmaker (Ne.symm hstays))
        show 0 < P.room (pos maker.account) maker
        rw [hx]
        exact hsome
      · rw [if_neg (show ¬ maker.reduceOnly = true from hreduce)] at hx
        exact absurd hx hstays
    · rw [horders, map_append, sum_append, if_pos (hown hqm'), map_singleton,
        sum_singleton, leaves_filled]

end Maker

/-! ## The walk -/

variable {e : MatchingEngine}

/-- A taker with room for all it wants may trade it. -/
theorem room_roomy {taker : SimOrder} (hroomy : P.Roomy e taker)
    (hreduce : taker.reduceOnly = true) :
    P.room (P.after e.told taker.account taker.instrument) taker = taker.leaves := by
  unfold Positions.room
  split_ifs with hkept
  · exact min_eq_left (hroomy hreduce hkept)
  · rfl

theorem taker_wants {taker : SimOrder} (hP : e.reducible = P.reducible)
    (hroomy : P.Roomy e taker) (hpos : 0 ≤ taker.leaves) :
    (if taker.reduceOnly = true then min taker.leaves (e.reducible e.told taker)
      else taker.leaves) = taker.leaves := by
  split_ifs with hreduce
  · rw [hP, reducible_eq hpos, room_roomy hroomy hreduce, min_self]
  · rfl

theorem maker_gives {maker : SimOrder} {id : InstrumentId}
    (hP : e.reducible = P.reducible) (hinst : maker.instrument = id) (hpos : 0 ≤ maker.leaves) :
    (if maker.reduceOnly = true then min maker.leaves (e.reducible e.told maker)
      else maker.leaves) = P.tradable (P.standing e.told id) maker := by
  unfold tradable
  split
  · rw [hP, reducible_eq hpos, min_eq_right (room_le _ _), hinst]
    rfl
  · rfl

/-- A sweep that ends on the taker's own order finds nothing more. -/
theorem Positions.recount_stop {account : AccountId} {side : Side} {pos : AccountId → Qty}
    {o : SimOrder} {os : List SimOrder} (hown : o.account = account) (hnone : mode ≠ .none)
    (hmaker : mode ≠ .cancelMaker) : P.recount mode account side pos (o :: os) = 0 := by
  rw [recount, if_pos hown, if_neg hnone, if_neg hmaker]

/-- The sweep ends on the taker's own order, which stays or goes. -/
theorem Counted.ended {w w' : Sweep} {kept todo x' : List Nat} {calls : List SinkCall} {mh : Nat}
    {maker : SimOrder} (hm : OrderPool.Waits w.engine.pool mh i s p maker)
    (hs : Sweeping e₀ L i s A p x₀ th w'.engine w'.level x')
    (hrep : Reports w.engine calls w'.engine)
    (hquiet : fillsOf calls = []) (hbal : Balanced w'.engine) (htaker : w'.taker = w.taker)
    (hpos : 0 ≤ w.taker.leaves) (hdone : w'.takerDone = true) (hred : w'.takerReduced = false)
    (hroomy : P.Roomy w'.engine w'.taker) (hbehind : P.Behind mode w kept)
    (hleft : 0 < w.taker.leaves) (hown : maker.account = w.taker.account) (hnone : mode ≠ .none)
    (hmaker : mode ≠ .cancelMaker) :
    Counted e₀ L i s A p x₀ th P mode lim w kept (mh :: todo) w' x' calls := by
  have hkept : kept = [] := by
    rcases kept with _ | ⟨k, ks⟩
    · rfl
    · exact absurd (hbehind hleft _ mem_cons_self).1 hnone
  refine ⟨hs, hrep, hbal, by rw [htaker], by rw [htaker]; exact hpos, hred, hroomy, .inl hdone, ?_,
    fun f hf => ?_, fun rest _ => ?_⟩
  · rw [filledQty_quiet hquiet, htaker, sub_self]
  · rw [hquiet] at hf
    exact absurd hf not_mem_nil
  rw [found_cons hm, hkept, if_pos hdone, htaker, sub_self]
  unfold Positions.finds
  rw [recount_stop hown hnone hmaker, zero_add, add_zero]
  rfl

/-- The walk over the makers of a level. -/
theorem makers_counted {now : Timestamp} (hlim : 0 < lim) (n : Nat) (w : Sweep)
    (kept todo : List Nat) (hs : Sweeping e₀ L i s A p x₀ th w.engine w.level (kept ++ todo))
    (hn : todo.length ≤ n) (hbal : Balanced w.engine) (hP : w.engine.reducible = P.reducible)
    (hpos : 0 ≤ w.taker.leaves) (hle : w.taker.leaves ≤ lim)
    (hlimit : w.taker.leaves < lim ∨ kept = []) (hi : w.taker.instrument.value = i)
    (hside : s = w.taker.side.opposite) (hdone : w.takerDone = false)
    (hred : w.takerReduced = false) (hroomy : P.Roomy w.engine w.taker)
    (hbehind : P.Behind mode w kept) :
    ∃ x' calls, Counted e₀ L i s A p x₀ th P mode lim w kept todo
      (Sweep.makers mode now n todo.head? w) x' calls := by
  induction n generalizing w kept todo with
  | zero =>
    obtain rfl := length_eq_zero_iff.mp (Nat.le_zero.mp hn)
    exact ⟨_, _, Counted.stay hs hbal hpos hdone hred hroomy hlimit hbehind (.inl rfl)⟩
  | succ n ih =>
    cases todo with
    | nil =>
      exact ⟨_, _, Counted.stay hs hbal hpos hdone hred hroomy hlimit hbehind (.inl rfl)⟩
    | cons mh todo =>
      rw [head?_cons, Sweep.makers]
      by_cases hleft : 0 < w.taker.leaves
      · rw [if_neg (not_not.mpr hleft)]
        obtain ⟨maker, hm⟩ := hs.waits (mem_append_right kept mem_cons_self)
        have hchain := hs.queues.chain i s (p, kept ++ mh :: todo) (by rw [Ladder.set_self]; simp)
        rw [hm.slot]
        dsimp only
        rw [hchain.next_eq]
        have hinst : maker.instrument = w.taker.instrument :=
          InstrumentId.value_inj.mp (hm.instrument.trans hi.symm)
        rw [taker_wants hP hroomy hpos, maker_gives hP hinst (le_of_lt hm.leaves),
          if_neg fun h => absurd hleft (by rw [h.2]; exact lt_irrefl _)]
        have hdropped : ∀ why, (∀ rest, P.finds mode w.engine w.taker
            (maker :: (OrderPool.orders w.engine.pool todo ++ rest)) =
              P.finds mode w.engine w.taker (OrderPool.orders w.engine.pool todo ++ rest)) →
            ∃ x' calls, Counted e₀ L i s A p x₀ th P mode lim w kept (mh :: todo)
              (Sweep.makers mode now n todo.head? (w.dropMaker mh maker why now)) x' calls := by
          intro why hskip
          obtain ⟨hs₁, hrep, -⟩ := hs.drop hm.slot why now
          have hkeeps := fun rest => found_drop P mode rest hs hm why now
          obtain ⟨x', calls, hwalk⟩ := ih (w.dropMaker mh maker why now) kept todo hs₁
            (Nat.le_of_succ_le_succ hn) (hbal.of_ledgers rfl) hP hpos hle hlimit hi hside hdone
            hred ((hkeeps []).2.2 hroomy) ((hkeeps []).2.1 hbehind)
          refine ⟨x', _, Counted.step hrep rfl (sub_self _).symm
            (fun f hf => absurd hf not_mem_nil) (fun rest _ => ?_) hwalk⟩
          rw [(hkeeps rest).1, found_cons hm, hskip]
          exact (zero_add _).symm.trans (congrArg (· + _) (sub_self w.taker.leaves).symm)
        by_cases hown : mode ≠ .none ∧ maker.account = w.taker.account
        · rw [if_pos hown]
          obtain ⟨hmode, haccount⟩ := hown
          obtain ⟨hs₁, hrep, -⟩ := hs.drop hm.slot .stp now
          cases mode with
          | none => exact absurd rfl hmode
          | cancelTaker =>
            exact ⟨kept ++ mh :: todo, [], Counted.ended hm hs (Reports.refl _) rfl hbal rfl
              hpos rfl hred hroomy hbehind hleft haccount hmode (by decide)⟩
          | cancelMaker =>
            exact hdropped .stp fun rest => recount_skip (.inl ⟨haccount, rfl⟩)
          | cancelBoth =>
            have hkeeps := found_drop P .cancelBoth [] hs hm .stp now
            exact ⟨kept ++ todo, _, Counted.ended hm hs₁ hrep rfl (hbal.of_ledgers rfl) rfl
              hpos rfl hred (hkeeps.2.2 hroomy) hbehind hleft haccount hmode (by decide)⟩
        · rw [if_neg hown]
          by_cases hnone : P.tradable (P.standing w.engine.told w.taker.instrument) maker = 0
          · rw [if_pos hnone]
            exact hdropped .reduceOnly fun rest =>
              recount_skip (.inr ⟨hown, hnone⟩)
          rw [if_neg hnone]
          have hsome : 0 < P.tradable (P.standing w.engine.told w.taker.instrument) maker :=
            lt_of_le_of_ne (tradable_nonneg (le_of_lt hm.leaves)) (Ne.symm hnone)
          obtain ⟨kept₁, calls₁, htrade⟩ := trades hs hm hbal hP hinst hside hroomy hbehind
            hleft hown rfl hsome rfl now
          have hqpos : 0 < min w.taker.leaves
              (P.tradable (P.standing w.engine.told w.taker.instrument) maker) :=
            lt_min hleft hsome
          have hqle : min w.taker.leaves
              (P.tradable (P.standing w.engine.told w.taker.instrument) maker) ≤
                w.taker.leaves := min_le_left _ _
          generalize min w.taker.leaves
            (P.tradable (P.standing w.engine.told w.taker.instrument) maker) = q
            at htrade hqpos hqle ⊢
          have hless : (w.trade mh maker w.level.price q now).taker.leaves <
              w.taker.leaves := by
            rw [htrade.leaves]
            exact sub_lt_self _ hqpos
          have hq : w.taker.leaves - (w.trade mh maker w.level.price q now).taker.leaves = q := by
            rw [htrade.leaves, sub_sub_cancel]
          obtain ⟨x', calls, hwalk⟩ := ih _ kept₁ todo htrade.sweeping
            (Nat.le_of_succ_le_succ hn) htrade.balanced (htrade.reports.reducible.trans hP)
            (by rw [htrade.leaves]; exact sub_nonneg.mpr hqle)
            (le_trans (le_of_lt hless) hle) (.inl (lt_of_lt_of_le hless hle))
            (by rw [htrade.taker]; exact hi) (by rw [htrade.taker]; exact hside)
            (htrade.done.trans hdone) (htrade.reduced.trans hred) htrade.roomy htrade.behind
          refine ⟨x', _, Counted.step htrade.reports htrade.taker (htrade.qty.trans hq.symm)
            htrade.fills (fun rest hrest => ?_) hwalk⟩
          rw [hq, htrade.leaves]
          exact htrade.law rest hrest
      · rw [if_pos hleft]
        exact ⟨_, _, Counted.stay hs hbal hpos hdone hred hroomy hlimit hbehind
          (.inr ⟨hleft, hlim⟩)⟩

/-! ## The levels -/

/-- The orders a taker crosses, the best first. -/
def crossedIn (pool : OrderPool) (taker : SimOrder) (gs : List Group) : List SimOrder :=
  (gs.reverse.takeWhile fun g =>
    decide (taker.type = .market) || crosses taker.side taker.price g.1).flatMap fun g =>
      OrderPool.orders pool g.2

section Levels

variable {pool : OrderPool} {taker : SimOrder} {x x' : List Nat}

theorem crossedIn_last (hcross :
    (decide (taker.type = .market) || crosses taker.side taker.price p) = true) :
    crossedIn pool taker (A ++ [(p, x)]) = OrderPool.orders pool x ++ crossedIn pool taker A := by
  unfold crossedIn
  rw [reverse_concat, takeWhile_cons, if_pos hcross, flatMap_cons]

theorem crossedIn_beyond (hcross :
    (decide (taker.type = .market) || crosses taker.side taker.price p) = false) :
    crossedIn pool taker (A ++ [(p, x)]) = [] := by
  unfold crossedIn
  rw [reverse_concat, takeWhile_cons, if_neg (by rw [hcross]; exact Bool.false_ne_true)]
  rfl

theorem crossedIn_regrouped (hcross :
    (decide (taker.type = .market) || crosses taker.side taker.price p) = true) :
    crossedIn pool taker (regrouped A p x []) =
      OrderPool.orders pool x ++ crossedIn pool taker A := by
  unfold regrouped
  split_ifs with hx
  · rw [hx, append_nil]
    rfl
  · exact crossedIn_last hcross

theorem crossedIn_stopped {gs : List Group} (hstop : ∀ g ∈ gs.getLast?,
    taker.type ≠ .market ∧ crosses taker.side taker.price g.1 = false) :
    crossedIn pool taker gs = [] := by
  rcases eq_nil_or_concat' gs with rfl | ⟨A, ⟨p, x⟩, rfl⟩
  · rfl
  obtain ⟨htype, hcross⟩ := hstop (p, x) (by simp)
  refine crossedIn_beyond ?_
  rw [decide_eq_false htype]
  exact hcross

theorem crossedIn_congr {pool' : OrderPool} {gs : List Group}
    (h : ∀ g ∈ gs, ∀ k ∈ g.2, pool'.slots k = pool.slots k) :
    crossedIn pool' taker gs = crossedIn pool taker gs := by
  refine flatMap_congr fun g hg => orders_congr (h g ?_)
  exact mem_reverse.mp ((takeWhile_sublist _).subset hg)

/-- What a sweep traded is what was found, up to what the taker wanted. -/
structure Counts (P : Positions) (e : MatchingEngine) (taker : SimOrder) (os : List SimOrder)
    (r : Bool × MatchingEngine × SimOrder) (calls : List SinkCall) : Prop where
  told : r.2.1.told = e.told ++ calls
  same : r.2.2 = { taker with cumQty := r.2.2.cumQty }
  qty : filledQty calls = taker.leaves - r.2.2.leaves
  fills : ∀ f ∈ fillsOf calls, 0 < f.qty
  found : taker.leaves - r.2.2.leaves =
    min taker.leaves (P.finds (e.stp taker.account taker.instrument) e taker os)

namespace Counts

variable {e e₁ : MatchingEngine} {os : List SimOrder} {r : Bool × MatchingEngine × SimOrder}
  {w : Sweep} {o : SimOrder} {l : PriceLevel} {calls calls' : List SinkCall}

/-- A sweep that takes nothing. -/
theorem stay (h : min taker.leaves (P.finds (e.stp taker.account taker.instrument) e taker os) =
    0) : Counts P e taker os (true, e, taker) [] := by
  refine ⟨(append_nil _).symm, rfl, (sub_self _).symm, fun f hf => absurd hf not_mem_nil, ?_⟩
  rw [h]
  exact sub_self taker.leaves

/-- A level, and what comes after it. -/
theorem level (hwalk : Counted e L i s A p x₀ th P (e.stp taker.account taker.instrument)
      taker.leaves ⟨e, l, taker, false, false⟩ [] x₀ w x' calls)
    (hos : ∀ o ∈ os, 0 ≤ o.leaves) (hrep : Reports w.engine calls' e₁)
    (hquiet : fillsOf calls' = []) {calls₂ : List SinkCall} (htold : r.2.1.told = e₁.told ++ calls₂)
    (hsame : r.2.2 = { w.taker with cumQty := r.2.2.cumQty })
    (hqty : filledQty calls₂ = w.taker.leaves - r.2.2.leaves)
    (hfills : ∀ f ∈ fillsOf calls₂, 0 < f.qty)
    (hfound : w.taker.leaves - r.2.2.leaves = min w.taker.leaves (if w.takerDone = true then 0 else
      P.finds (e.stp taker.account taker.instrument) w.engine w.taker
        (OrderPool.orders w.engine.pool x' ++ os))) :
    Counts P e taker (OrderPool.orders e.pool x₀ ++ os) r (calls ++ calls' ++ calls₂) := by
  refine ⟨?_, ?_, ?_, fun f hf => ?_, ?_⟩
  · rw [htold, (hwalk.reports.trans hrep).told]
    exact append_assoc _ _ _
  · rw [hsame, hwalk.taker]
  · rw [filledQty_append, filledQty_append, filledQty_quiet hquiet, add_zero, hqty, hwalk.qty]
    exact sub_add_sub_cancel _ _ _
  · rw [fillsOf_append, fillsOf_append, hquiet, append_nil] at hf
    exact (mem_append.mp hf).elim (hwalk.fills f) (hfills f)
  have hlaw := hwalk.law os hos
  rw [← hfound, sub_add_sub_cancel] at hlaw
  refine hlaw.symm.trans (congrArg (min taker.leaves) ?_)
  exact zero_add _

end Counts

end Levels

/-- The outer loop of a sweep, with enough fuel for its levels and its taker. -/
theorem sweep_counted (now : Timestamp) (n : Nat) (e : MatchingEngine) (L : Ladder)
    (taker o : SimOrder) (ht : Tiered e L (some th)) (hbal : Balanced e)
    (hP : e.reducible = P.reducible) (ho : e.pool.slots th = some o)
    (hsame : taker = { o with cumQty := taker.cumQty }) (hpos : 0 ≤ taker.leaves)
    (hi : taker.instrument.value = i) (hside : s = taker.side.opposite)
    (hroomy : P.Roomy e taker) (hn : (L i s).length + taker.leaves.toNat < n) :
    ∃ calls, Counts P e taker (crossedIn e.pool taker (L i s))
      (MatchingEngine.sweep th now n e taker) calls := by
  induction n generalizing e L taker with
  | zero => exact absurd hn (Nat.not_lt_zero _)
  | succ n ih =>
    have hnonneg : ∀ gs : List Group, (∀ g ∈ gs, g ∈ L i s) →
        ∀ o ∈ crossedIn e.pool taker gs, 0 ≤ o.leaves := by
      intro gs hgs o ho
      obtain ⟨g, hg, ho⟩ := mem_flatMap.mp ho
      obtain ⟨k, hk, rfl⟩ := mem_map.mp ho
      have hmem := hgs g (mem_reverse.mp ((takeWhile_sublist _).subset hg))
      obtain ⟨-, o, hw⟩ := ht.queues.placed i s g hmem k hk
      rw [hw.slot]
      exact le_of_lt hw.leaves
    rcases sweep_turn now n ht hi hside with
      ⟨heq, hstop⟩ | ⟨A, p, x₀, w, e₁, hL, hleft, hcross, hw, he₁, heq⟩
    · rw [heq]
      refine ⟨_, Counts.stay ?_⟩
      by_cases hleft : 0 < taker.leaves
      · rw [crossedIn_stopped (hstop hleft)]
        exact min_eq_right (le_of_lt hleft)
      · rw [le_antisymm (not_lt.mp hleft) hpos]
        exact min_eq_left (recount_nonneg (hnonneg _ fun g hg => hg))
    rw [heq, hL]
    obtain ⟨x', calls, hwalk⟩ : ∃ x' calls, Counted e L i s A p x₀ th P
        (e.stp taker.account taker.instrument) taker.leaves
        ⟨e, levelOf e.pool (p, x₀), taker, false, false⟩ [] x₀ w x' calls :=
      hw ▸ makers_counted hleft kMaxSimOrders _ [] x₀ (Sweeping.start ht hL)
        (ht.queues.length_le (g := (p, x₀)) (i := i) (s := s) (by rw [hL]; simp)) hbal hP
        hpos (le_refl _) (.inr rfl) hi hside rfl rfl hroomy
        (fun _ o ho => absurd ho not_mem_nil)
    obtain ⟨ht₁, hso, calls₁, hrep₁, hfills₁⟩ := hwalk.sweeping.settle ht hi hL
    rw [he₁] at ht₁ hso hrep₁
    have hstanding : ∀ id, P.standing e₁.told id = P.standing w.engine.told id := by
      intro id
      rw [hrep₁.told, standing_quiet hfills₁]
    have hP₁ : e₁.reducible = P.reducible :=
      hrep₁.reducible.trans (hwalk.reports.reducible.trans hP)
    have hroomy₁ : P.Roomy e₁ w.taker := by
      intro hreduce hkeeps
      have hafter := congrFun (hstanding w.taker.instrument) w.taker.account
      show w.taker.leaves ≤ closing w.taker.side
        (P.standing e₁.told w.taker.instrument w.taker.account)
      rw [hafter]
      exact hwalk.roomy hreduce hkeeps
    have hA : ∀ g ∈ A, g ∈ L i s := fun g hg => by
      rw [hL]
      exact mem_append_left _ hg
    rw [crossedIn_last hcross]
    by_cases hdone : w.takerDone = true
    · rw [if_pos hdone]
      refine ⟨_, Counts.level hwalk (hnonneg A hA) hrep₁ hfills₁
        (show _ = e₁.told ++ [.onCancel w.taker .stp now] from rfl) rfl
        (sub_self _).symm (fun f hf => absurd hf not_mem_nil) ?_⟩
      rw [if_pos hdone, min_eq_right hwalk.nonneg]
      exact sub_self _
    rw [if_neg hdone, if_neg]
    · have hslot : e₁.pool.slots th = some o := by
        rw [hso.pool, hwalk.sweeping.slots th ?_]
        · exact ho
        · intro hmem
          exact (ht.queues.placed i s (p, x₀) (by rw [hL]; simp) th hmem).1 rfl
      have hhead : x' = [] ∨ w.taker.leaves < taker.leaves :=
        hwalk.headway.resolve_left hdone
      obtain ⟨calls₂, hrest⟩ := ih e₁ _ w.taker ht₁ (hwalk.balanced.of_ledgers hso.ledgers)
        hP₁ hslot
        (by
          rw [hwalk.taker]
          rw [hsame])
        hwalk.nonneg (by rw [hwalk.taker]; exact hi) (by rw [hwalk.taker]; exact hside)
        hroomy₁
        (by
          rw [Ladder.set_self]
          exact headway_lt (hL ▸ hn) hwalk.le hleft hhead)
      refine ⟨_, Counts.level hwalk (hnonneg A hA) hrep₁ hfills₁ hrest.told hrest.same
        hrest.qty hrest.fills ?_⟩
      have hstp : e₁.stp w.taker.account w.taker.instrument =
          e.stp taker.account taker.instrument := by
        have hrep := hwalk.reports.trans hrep₁
        rw [hwalk.taker]
        unfold MatchingEngine.stp
        rw [hrep.stpTable, hrep.instrumentCount]
      have hslots : crossedIn w.engine.pool taker A = crossedIn e.pool taker A := by
        refine crossedIn_congr fun g hg k hk => hwalk.sweeping.slots k fun hmem => ?_
        refine (ht.queues.not_mem_others hL hmem).1 g ?_ hk
        rw [append_nil]
        exact hg
      have hkeeps : crossedIn e₁.pool w.taker (regrouped A p x' []) =
          OrderPool.orders w.engine.pool x' ++ crossedIn e.pool taker A := by
        rw [crossedIn_regrouped (by rw [hwalk.taker]; exact hcross), hso.pool, ← hslots,
          hwalk.taker]
        rfl
      rw [hrest.found, if_neg hdone, Ladder.set_self, hstp, hkeeps]
      unfold Positions.finds
      rw [hstanding]
    · rintro (hreduced | ⟨hreduce, hmore, hspent⟩)
      · simp [hwalk.reduced] at hreduced
      have hroom : (P.reducible e₁.told w.taker : Qty) =
          P.room (P.after e₁.told w.taker.account w.taker.instrument) w.taker :=
        reducible_eq hwalk.nonneg
      rw [room_roomy hroomy₁ hreduce, ← hP₁, hspent] at hroom
      exact absurd hmore (by rw [← hroom]; exact lt_irrefl _)

end FastMM.Sim
