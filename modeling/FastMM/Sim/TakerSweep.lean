/-
  Sim/TakerSweep.lean --- the sweep of a taker over the levels it crosses.

  The best level is the last of its side.  Each time through the loop the level is written back
  or leaves the book, and either the book has a level less or the taker less to trade.
-/
import FastMM.Sim.MakerWalk
set_option autoImplicit false

namespace FastMM.Sim

open Foundation Ladder List OrderPool

variable {e : MatchingEngine} {L : Ladder} {i : Nat} {s : Side} {p : Price}
  {th : Nat} {A : List Group} {x₀ x' : List Nat}

/-! ## One level -/

/-- The walk of a level begins. -/
theorem Sweeping.start (ht : Tiered e L (some th)) (hL : L i s = A ++ [(p, x₀)]) :
    Sweeping e L i s A p x₀ th e (levelOf e.pool (p, x₀)) x₀ := by
  refine ⟨?_, rfl, rfl, fun _ _ => rfl, fun _ hk => hk, rfl⟩
  rw [← hL, set_eq]
  exact ht.queues

/-- The level is written back, or leaves the book. -/
theorem Sweeping.settle {w : Sweep} (ht : Tiered e L (some th)) {id : InstrumentId}
    (hi : id.value = i) (hL : L i s = A ++ [(p, x₀)])
    (hs : Sweeping e L i s A p x₀ th w.engine w.level x') :
    Tiered (w.engine.settleLevel id s (((w.engine.book id).levels s).size - 1) w.level)
        (L.set i s (regrouped A p x' [])) (some th) ∧
      MatchingEngine.SameOrders w.engine
        (w.engine.settleLevel id s (((w.engine.book id).levels s).size - 1) w.level) ∧
      ∃ calls, Reports w.engine calls
        (w.engine.settleLevel id s (((w.engine.book id).levels s).size - 1) w.level) ∧
        fillsOf calls = [] := by
  have hlevels : ∀ i s, w.engine.levelsOf i s = (L i s).map (levelOf e.pool) := by
    intro i s
    unfold MatchingEngine.levelsOf
    rw [hs.books]
    exact ht.levels i s
  have hsize : ((w.engine.book id).levels s).size - 1 = A.length := by
    have hlen := congrArg List.length (hlevels i s)
    rw [hL, length_map, length_append] at hlen
    subst hi
    exact Nat.sub_eq_of_eq_add hlen
  have hothers := fun k hk => ht.queues.not_mem_others (z := k) hL hk
  obtain ⟨hlev, hsame, q, u, hrep⟩ := settle_levels (e := w.engine) (l := w.level) hlevels hi hL
    (ht.queues.prices_ne hL)
    (fun g hg => levelOf_congr fun k hk => hs.slots k fun hx => (hothers k hx).1 g hg hk)
    (fun i' s' hne g hg => levelOf_congr fun k hk =>
      hs.slots k fun hx => (hothers k hx).2 i' s' hne g hg hk) hs.level
  rw [hsize]
  refine ⟨⟨?_, fun i' s' => ?_, full_regrouped ht.full hL x'⟩, hsame, _, hrep, rfl⟩
  · rw [hsame.pool, hsame.links, hsame.byKey]
    exact hs.queues.regroup
  · rw [hsame.pool]
    exact hlev i' s'

/-- The queue of a side about its best level. -/
theorem flat_last (A : List Group) (p : Price) (x : List Nat) :
    flat (A ++ [(p, x)]) = x ++ flat A := by
  rw [flat_split]
  rfl

theorem flat_regrouped_last (A : List Group) (p : Price) (x : List Nat) :
    flat (regrouped A p x []) = x ++ flat A := by
  unfold regrouped
  split_ifs with hx
  · rw [hx, append_nil, nil_append]
  · exact flat_last A p x

theorem mem_regrouped_last {g : Group} (hg : g ∈ regrouped A p x' []) : g ∈ A ∨ g = (p, x') := by
  unfold regrouped at hg
  split at hg
  · exact .inl (by simpa using hg)
  · rcases mem_append.mp hg with hA | hp
    · exact .inl hA
    · exact .inr (mem_singleton.mp hp)

/-! ## What a sweep does -/

/-- A sweep of side `s` takes `e` and `taker` to `e'` and `taker'`, leaving the groups `gs'`.  When
it is not `ok` the taker has ended. -/
structure Taken (e : MatchingEngine) (L : Ladder) (i : Nat) (s : Side) (th : Nat) (taker : SimOrder)
    (r : Bool × MatchingEngine × SimOrder) (gs' : List Group) (calls : List SinkCall) : Prop where
  tiered : Tiered r.2.1 (L.set i s gs') (if r.1 = true then some th else none)
  slot : r.1 = true → r.2.1.pool.slots th = e.pool.slots th
  reports : Reports e calls r.2.1
  balanced : Balanced r.2.1
  same : r.2.2 = { taker with cumQty := r.2.2.cumQty }
  nonneg : 0 ≤ r.2.2.leaves
  le : r.2.2.leaves ≤ taker.leaves
  slots : ∀ k, k ≠ th → (∀ g ∈ L i s, k ∉ g.2) → r.2.1.pool.slots k = e.pool.slots k
  filled : OrderPool.FilledTo e.pool r.2.1.pool
  prices : ∀ g ∈ gs', ∃ g' ∈ L i s, g'.1 = g.1
  nextOrderId : r.2.1.nextOrderId = e.nextOrderId
  stops : r.1 = true → 0 < r.2.2.leaves →
    ∀ g ∈ gs'.getLast?, taker.type ≠ .market ∧ crosses taker.side taker.price g.1 = false
  plain : OrderPool.Plain e.pool → taker.reduceOnly = false → ∀ t : Taker, t.party = taker.party →
    t.stp = e.stp taker.account taker.instrument →
    (∀ px, t.takes px = (decide (taker.type = .market) || crosses taker.side taker.price px)) →
    t.sweep taker.leaves ((flat (L i s)).map (OrderPool.view e.pool)) =
      ⟨fillsOf calls, r.2.2.leaves, (flat gs').map (OrderPool.view r.2.1.pool), !r.1⟩

variable {taker : SimOrder}

/-- A sweep that takes nothing. -/
theorem Taken.stay (ht : Tiered e L (some th)) (hbal : Balanced e) (hpos : 0 ≤ taker.leaves)
    (hstop : 0 < taker.leaves → ∀ g ∈ (L i s).getLast?,
      taker.type ≠ .market ∧ crosses taker.side taker.price g.1 = false) :
    Taken e L i s th taker (true, e, taker) (L i s) [] := by
  refine ⟨?_, fun _ => rfl, Reports.refl e, hbal, rfl, hpos, le_refl _, fun _ _ _ => rfl,
    filledTo_refl _, fun g hg => ⟨g, hg, rfl⟩, rfl, fun _ => hstop, fun _ _ t _ _ htakes => ?_⟩
  · rw [set_eq]
    exact ht
  refine Taker.sweep_idle ?_
  by_cases hleft : 0 < taker.leaves
  · refine .inr fun w hw => ?_
    rcases eq_nil_or_concat' (L i s) with hnil | ⟨A, ⟨p, x⟩, hL⟩
    · rw [hnil] at hw
      exact absurd hw (by simp [flat])
    obtain ⟨htype, hcross⟩ := hstop hleft (p, x) (by rw [hL]; simp)
    have hx : x ≠ [] := ht.full i s (p, x) (by rw [hL]; simp)
    obtain ⟨h, y, rfl⟩ := exists_cons_of_ne_nil hx
    obtain ⟨-, o, ho⟩ := ht.queues.placed i s (p, h :: y) (by rw [hL]; simp) h
      mem_cons_self
    rw [hL, flat_last] at hw
    obtain rfl := Option.some.inj (hw : some (OrderPool.view e.pool h) = some w)
    rw [htakes, view_eq ho.slot]
    rw [ho.price, hcross, decide_eq_false htype]
    rfl
  · exact .inl hleft

/-! ## The levels -/

section Level

variable {w : Sweep} {calls calls' : List SinkCall} {e₁ : MatchingEngine}

section

variable (ht : Tiered e L (some th)) (hL : L i s = A ++ [(p, x₀)])
include ht hL

/-- Slots off the level are as they were when the walk began. -/
theorem Sweeping.view_rest
    (hs : Sweeping e L i s A p x₀ th w.engine w.level x') :
    (flat A).map (OrderPool.view w.engine.pool) = (flat A).map (OrderPool.view e.pool) := by
  refine map_view_congr fun k hk => hs.slots k fun hx => ?_
  obtain ⟨g, hg, hkg⟩ := mem_flat.mp hk
  exact (ht.queues.not_mem_others (z := k) hL hx).1 g (mem_append_left [] hg) hkg

/-- The auction's sweep of the side, after the walk of its best level. -/
theorem Walked.sweep_eq {mode : StpMode} {lim : Qty} {w₀ : Sweep} (hw₀ : w₀.engine = e)
    (h : Walked e L i s A p x₀ th mode lim w₀ [] x₀ w x' calls)
    (hpool : e₁.pool = w.engine.pool) (hp : OrderPool.Plain e.pool)
    (hr : w₀.taker.reduceOnly = false) (t : Taker) (hparty : t.party = w₀.taker.party)
    (hstp : t.stp = mode) (htakes : t.takes p = true) :
    t.sweep w₀.taker.leaves ((flat (L i s)).map (OrderPool.view e.pool)) =
      Swept.after (fillsOf calls) (if w.takerDone = true then
          ⟨[], w.taker.leaves, (flat (regrouped A p x' [])).map (OrderPool.view e₁.pool), true⟩
        else
          t.sweep w.taker.leaves ((flat (regrouped A p x' [])).map (OrderPool.view e₁.pool))) := by
  subst hw₀
  obtain ⟨-, -, hmatch⟩ := h.plain hp hr (.inl rfl)
  have hview := Sweeping.view_rest ht hL h.sweeping
  rw [hL, flat_last, flat_regrouped_last, map_append, map_append, hpool, hview]
  exact hmatch t _ hparty hstp htakes

end

/-- The taker ends in the walk of a level. -/
theorem Taken.ended (ht : Tiered e₁ L (some th)) {o : SimOrder} (ho : e₁.pool.slots th = some o)
    (hkey : taker = { o with cumQty := taker.cumQty }) (why : CancelReason) (now : Timestamp) :
    Tiered (e₁.endTaker th taker why now) L none ∧
      Reports e₁ [.onCancel taker why now] (e₁.endTaker th taker why now) ∧
      OrderPool.FilledTo e₁.pool (e₁.endTaker th taker why now).pool ∧
      (∀ k, k ≠ th → (e₁.endTaker th taker why now).pool.slots k = e₁.pool.slots k) := by
  have hfree := ht.freeOrder ho taker (by rw [hkey])
  refine ⟨⟨hfree.queues, hfree.levels, hfree.full⟩, Reports.quiet rfl rfl (fun _ => rfl) rfl rfl
    rfl, filledTo_free ho, fun k hk => ?_⟩
  exact (Pool.slots_free ho k).trans (if_neg hk)

variable {o : SimOrder} {mode : StpMode} {lim : Qty} {r : Bool × MatchingEngine × SimOrder}
  {gs' : List Group}

section

variable (ht : Tiered e L (some th)) (hL : L i s = A ++ [(p, x₀)]) (ho : e.pool.slots th = some o)
include ht hL ho

/-- Where the taker stands during the walk. -/
theorem Walked.taker_slot
    (hs : Sweeping e L i s A p x₀ th w.engine w.level x') : w.engine.pool.slots th = some o := by
  rw [hs.slots th fun hx => ?_]
  · exact ho
  · exact (ht.queues.placed i s (p, x₀) (by rw [hL]; simp) th hx).1 rfl

section

variable (hwalk : Walked e L i s A p x₀ th (e.stp taker.account taker.instrument) taker.leaves
  ⟨e, levelOf e.pool (p, x₀), taker, false, false⟩ [] x₀ w x' calls)
variable (hso : MatchingEngine.SameOrders w.engine e₁) (hrep : Reports w.engine calls' e₁)
variable (hfills : fillsOf calls' = []) (hcross : ∀ t : Taker, (∀ px, t.takes px =
  (decide (taker.type = .market) || crosses taker.side taker.price px)) → t.takes p = true)
include hwalk hso hrep hfills hcross

/-- The walk of a level, and the end of the taker. -/
theorem Taken.of_end (hsame : taker = { o with cumQty := taker.cumQty })
    (ht₁ : Tiered e₁ (L.set i s (regrouped A p x' [])) (some th))
    (hdone : OrderPool.Plain e.pool → taker.reduceOnly = false → w.takerDone = true)
    (why : CancelReason) (now : Timestamp) :
    Taken e L i s th taker (false, e₁.endTaker th w.taker why now, w.taker) (regrouped A p x' [])
      ((calls ++ calls') ++ [.onCancel w.taker why now]) := by
  have hslot : e₁.pool.slots th = some o := by
    rw [hso.pool]
    exact Walked.taker_slot ht hL ho hwalk.sweeping
  have hkey : w.taker = { o with cumQty := w.taker.cumQty } := by
    rw [hwalk.taker]
    rw [hsame]
  obtain ⟨hend, hrep', hfilled, hslots⟩ := Taken.ended ht₁ hslot hkey why now
  refine ⟨hend, nofun, (hwalk.reports.trans hrep).trans hrep',
    (hwalk.balanced.of_ledgers hso.ledgers).of_ledgers rfl, hwalk.taker, hwalk.nonneg, hwalk.le,
    fun k hk hkg => ?_, ?_, fun g hg => ?_, ?_, nofun,
    fun hp hr t hparty hstp htakes => ?_⟩
  · refine (hslots k hk).trans ?_
    rw [hso.pool]
    exact hwalk.sweeping.slots k (hkg (p, x₀) (by rw [hL]; simp))
  · refine OrderPool.FilledTo.trans ?_ hfilled
    rw [hso.pool]
    exact hwalk.filled
  · rcases mem_regrouped_last hg with hA | rfl
    · exact ⟨g, by rw [hL]; exact mem_append_left _ hA, rfl⟩
    · exact ⟨(p, x₀), by rw [hL]; simp, rfl⟩
  · exact hso.nextOrderId.trans hwalk.sweeping.nextOrderId
  have hview : (flat (regrouped A p x' [])).map
      (OrderPool.view (e₁.endTaker th w.taker why now).pool) =
        (flat (regrouped A p x' [])).map (OrderPool.view e₁.pool) := by
    refine map_view_congr fun k hk => hslots k fun he => ?_
    obtain ⟨g, hg, hkg⟩ := mem_flat.mp hk
    exact (ht₁.queues.placed i s g (by rw [set_self]; exact hg) k hkg).1
      (congrArg some he.symm)
  have hsweep := hwalk.sweep_eq ht hL rfl hso.pool hp hr t hparty hstp (hcross t htakes)
  rw [if_pos (hdone hp hr)] at hsweep
  rw [fillsOf_append, fillsOf_append, hfills, hview]
  refine hsweep.trans ?_
  show (⟨_, _, _, _⟩ : Swept) = ⟨_, _, _, _⟩
  simp [fillsOf, fillOf]

/-- The walk of a level, and the sweep of the rest. -/
theorem Taken.after {calls₂ : List SinkCall} (hdone : w.takerDone = false)
    (h : Taken e₁ (L.set i s (regrouped A p x' [])) i s th w.taker r gs' calls₂) :
    Taken e L i s th taker r gs' ((calls ++ calls') ++ calls₂) := by
  have hslot : e₁.pool.slots th = some o := by
    rw [hso.pool]
    exact Walked.taker_slot ht hL ho hwalk.sweeping
  have hfilled : OrderPool.FilledTo e.pool e₁.pool := by
    rw [hso.pool]
    exact hwalk.filled
  have hmem : ∀ g ∈ regrouped A p x' [], (∃ g' ∈ L i s, g'.1 = g.1) ∧
      ∀ k ∈ g.2, ∃ g' ∈ L i s, k ∈ g'.2 := by
    intro g hg
    rcases mem_regrouped_last hg with hA | rfl
    · have hgL : g ∈ L i s := by
        rw [hL]
        exact mem_append_left _ hA
      exact ⟨⟨g, hgL, rfl⟩, fun k hk => ⟨g, hgL, hk⟩⟩
    · have hgL : (p, x₀) ∈ L i s := by
        rw [hL]
        simp
      exact ⟨⟨(p, x₀), hgL, rfl⟩, fun k hk => ⟨(p, x₀), hgL, hwalk.sweeping.sub k hk⟩⟩
  have hstp₁ : e₁.stp w.taker.account w.taker.instrument =
      e.stp taker.account taker.instrument := by
    unfold MatchingEngine.stp
    rw [hwalk.taker, hrep.stpTable, hrep.instrumentCount, hwalk.reports.stpTable,
      hwalk.reports.instrumentCount]
  have htiered := h.tiered
  rw [Ladder.set_set] at htiered
  refine ⟨htiered, fun hok => (h.slot hok).trans (hslot.trans ho.symm),
    (hwalk.reports.trans hrep).trans h.reports, h.balanced, ?_, h.nonneg, le_trans h.le hwalk.le,
    fun k hk hkg => ?_, hfilled.trans h.filled, fun g hg => ?_, ?_, fun hok hleft g hg => ?_,
    fun hp hr t hparty hstp htakes => ?_⟩
  · rw [h.same, hwalk.taker]
  · rw [h.slots k hk, hso.pool]
    · exact hwalk.sweeping.slots k (hkg (p, x₀) (by rw [hL]; simp))
    intro g hg hkg'
    rw [set_self] at hg
    obtain ⟨g', hg', hk'⟩ := (hmem g hg).2 k hkg'
    exact hkg g' hg' hk'
  · obtain ⟨g₁, hg₁, he₁⟩ := h.prices g hg
    rw [set_self] at hg₁
    obtain ⟨g', hg', he'⟩ := (hmem g₁ hg₁).1
    exact ⟨g', hg', he'.trans he₁⟩
  · exact h.nextOrderId.trans (hso.nextOrderId.trans hwalk.sweeping.nextOrderId)
  · have hstops := h.stops hok hleft g hg
    rw [hwalk.taker] at hstops
    exact hstops
  have hsweep := hwalk.sweep_eq ht hL rfl hso.pool hp hr t hparty hstp (hcross t htakes)
  rw [hdone, if_neg (by simp)] at hsweep
  have hrest := h.plain (hp.filledTo hfilled) (by rw [hwalk.taker]; exact hr) t
    (by rw [hwalk.taker]; exact hparty) (hstp.trans hstp₁.symm)
    (fun px => by rw [htakes, hwalk.taker])
  rw [set_self] at hrest
  rw [fillsOf_append, fillsOf_append, hfills, append_nil]
  refine hsweep.trans ?_
  rw [hrest]
  rfl

/-- A level is swept, and then the rest. -/
theorem taken_level {now : Timestamp} (hsame : taker = { o with cumQty := taker.cumQty })
    (ht₁ : Tiered e₁ (L.set i s (regrouped A p x' [])) (some th))
    (hrest : x' = [] ∨ w.taker.leaves < taker.leaves → ∃ gs' calls₂,
      Taken e₁ (L.set i s (regrouped A p x' [])) i s th w.taker r gs' calls₂) :
    ∃ gs' calls₂, Taken e L i s th taker
      (if w.takerDone = true then (false, e₁.endTaker th w.taker .stp now, w.taker)
      else if w.takerReduced = true ∨ (w.taker.reduceOnly = true ∧ 0 < w.taker.leaves ∧
          e₁.reducible e₁.told w.taker = 0) then
        (false, e₁.endTaker th w.taker .reduceOnly now, w.taker)
      else r) gs' calls₂ := by
  split
  · rename_i hdone
    exact ⟨_, _, Taken.of_end ht hL ho hwalk hso hrep hfills hcross hsame ht₁ (fun _ _ => hdone)
      .stp now⟩
  rename_i hgoes
  split
  · rename_i hreduced
    refine ⟨_, _, Taken.of_end ht hL ho hwalk hso hrep hfills hcross hsame ht₁ (fun hp hr => ?_)
      .reduceOnly now⟩
    obtain ⟨hno, -⟩ := hwalk.plain hp hr (.inl rfl)
    rcases hreduced with hyes | ⟨hro, -⟩
    · simp [hno] at hyes
    · rw [hwalk.taker] at hro
      exact absurd hro (by rw [show taker.reduceOnly = false from hr]; simp)
  · rename_i hfull
    have hdone : w.takerDone = false := by simpa using hgoes
    have hhead : x' = [] ∨ w.taker.leaves < taker.leaves := by
      rcases hwalk.headway with hd | hd | hd
      · exact absurd hd hgoes
      · exact absurd (.inl hd) hfull
      · exact hd
    obtain ⟨gs', calls₂, h⟩ := hrest hhead
    exact ⟨gs', _, Taken.after ht hL ho hwalk hso hrep hfills hcross hdone h⟩

end

end

end Level

/-- What the walk of a level leaves to sweep, measured. -/
theorem headway_lt {w : Sweep} {n : Nat} (hn : (A ++ [(p, x₀)]).length + taker.leaves.toNat < n + 1)
    (hle : w.taker.leaves ≤ taker.leaves) (hleft : 0 < taker.leaves)
    (h : x' = [] ∨ w.taker.leaves < taker.leaves) :
    (regrouped A p x' []).length + w.taker.leaves.toNat < n := by
  have hmono : w.taker.leaves.toNat ≤ taker.leaves.toNat := Int.toNat_le_toNat hle
  rw [length_append, length_singleton] at hn
  unfold regrouped
  split_ifs with hx
  · rw [append_nil]
    omega
  have hlt : w.taker.leaves.toNat < taker.leaves.toNat := by
    have hlt : w.taker.leaves < taker.leaves := h.resolve_left hx
    exact (Int.toNat_lt_toNat hleft).mpr hlt
  rw [length_append, length_singleton]
  omega

/-- One turn of the outer loop: the sweep is over, or the best level is one the taker takes. -/
theorem sweep_turn (now : Timestamp) (n : Nat) (ht : Tiered e L (some th))
    (hi : taker.instrument.value = i) (hside : s = taker.side.opposite) :
    (MatchingEngine.sweep th now (n + 1) e taker = (true, e, taker) ∧
      (0 < taker.leaves → ∀ g ∈ (L i s).getLast?,
        taker.type ≠ .market ∧ crosses taker.side taker.price g.1 = false)) ∨
      ∃ A p x₀ w e₁, L i s = A ++ [(p, x₀)] ∧ 0 < taker.leaves ∧
        (decide (taker.type = .market) || crosses taker.side taker.price p) = true ∧
        Sweep.makers (e.stp taker.account taker.instrument) now kMaxSimOrders x₀.head?
          ⟨e, levelOf e.pool (p, x₀), taker, false, false⟩ = w ∧
        w.engine.settleLevel taker.instrument s
          (((w.engine.book taker.instrument).levels s).size - 1) w.level = e₁ ∧
        MatchingEngine.sweep th now (n + 1) e taker =
          if w.takerDone then (false, e₁.endTaker th w.taker .stp now, w.taker)
          else if w.takerReduced = true ∨ (w.taker.reduceOnly = true ∧ 0 < w.taker.leaves ∧
              e₁.reducible e₁.told w.taker = 0) then
            (false, e₁.endTaker th w.taker .reduceOnly now, w.taker)
          else MatchingEngine.sweep th now n e₁ w.taker := by
  rw [MatchingEngine.sweep, ← hside]
  by_cases hleft : 0 < taker.leaves
  swap
  · rw [if_pos hleft]
    exact .inl ⟨rfl, fun h => absurd h hleft⟩
  rw [if_neg (not_not.mpr hleft)]
  have hbest := ht.best_eq taker.instrument s
  rw [hi] at hbest
  rcases eq_nil_or_concat' (L i s) with hnil | ⟨A, ⟨p, x₀⟩, hL⟩
  · rw [hnil] at hbest ⊢
    rw [hbest]
    exact .inl ⟨rfl, fun _ g hg => nomatch hg⟩
  rw [hbest, hL, getLast?_concat, Option.map_some]
  dsimp only
  by_cases hbeyond : taker.type ≠ .market ∧
      crosses taker.side taker.price (levelOf e.pool (p, x₀)).price = false
  · rw [if_pos hbeyond]
    refine .inl ⟨rfl, fun _ g hg => ?_⟩
    obtain rfl := Option.some.inj hg
    exact hbeyond
  · rw [if_neg hbeyond]
    refine .inr ⟨A, p, x₀, _, _, rfl, hleft, ?_, rfl, rfl, rfl⟩
    rw [Bool.or_eq_true, decide_eq_true_iff]
    by_contra hno
    obtain ⟨htype, hcross⟩ := not_or.mp hno
    exact hbeyond ⟨htype, Bool.eq_false_iff.mpr hcross⟩

/-- The outer loop of a sweep, with enough fuel for its levels and its taker. -/
theorem sweep_taken (now : Timestamp) (n : Nat) (e : MatchingEngine) (L : Ladder)
    (taker o : SimOrder) (ht : Tiered e L (some th)) (hbal : Balanced e)
    (ho : e.pool.slots th = some o) (hsame : taker = { o with cumQty := taker.cumQty })
    (hpos : 0 ≤ taker.leaves) (hi : taker.instrument.value = i)
    (hside : s = taker.side.opposite) (hn : (L i s).length + taker.leaves.toNat < n) :
    ∃ gs' calls, Taken e L i s th taker (MatchingEngine.sweep th now n e taker) gs' calls := by
  induction n generalizing e L taker with
  | zero => exact absurd hn (Nat.not_lt_zero _)
  | succ n ih =>
    rcases sweep_turn now n ht hi hside with
      ⟨heq, hstop⟩ | ⟨A, p, x₀, w, e₁, hL, hleft, hcross, hw, he₁, heq⟩
    · rw [heq]
      exact ⟨_, _, Taken.stay ht hbal hpos hstop⟩
    rw [heq]
    obtain ⟨x', calls, hwalk⟩ : ∃ x' calls, Walked e L i s A p x₀ th
        (e.stp taker.account taker.instrument) taker.leaves
        ⟨e, levelOf e.pool (p, x₀), taker, false, false⟩ [] x₀ w x' calls :=
      hw ▸ makers_walk hleft kMaxSimOrders _ [] x₀ (Sweeping.start ht hL)
        (ht.queues.length_le (g := (p, x₀)) (i := i) (s := s) (by rw [hL]; simp)) hbal
          hpos (le_refl _)
        (.inr rfl) hside rfl rfl
    obtain ⟨ht₁, hso, calls₁, hrep₁, hfills₁⟩ := hwalk.sweeping.settle ht hi hL
    rw [he₁] at ht₁ hso hrep₁
    refine taken_level ht hL ho hwalk hso hrep₁ hfills₁
      (fun t htakes => (htakes p).trans hcross) hsame ht₁ fun hhead => ?_
    have hslot : e₁.pool.slots th = some o := by
      rw [hso.pool]
      exact Walked.taker_slot ht hL ho hwalk.sweeping
    refine ih e₁ _ w.taker ht₁ (hwalk.balanced.of_ledgers hso.ledgers) hslot ?_
      hwalk.nonneg ?_ ?_ ?_
    · rw [hwalk.taker]
      rw [hsame]
    · rw [hwalk.taker]
      exact hi
    · rw [hwalk.taker]
      exact hside
    · rw [set_self]
      exact headway_lt (hL ▸ hn) hwalk.le hleft hhead

end FastMM.Sim
