/-
  Sim/MakerWalk.lean --- the walk over the makers of one level.

  Each maker is taken out, or trades, or ends the walk.  A walk that goes on has left no maker
  behind it, unless the maker is reduce-only.
-/
import FastMM.Sim.Sweeping
set_option autoImplicit false

namespace FastMM.Sim

open List

/-! ## What a walk does -/

/-- The orders of `pool'` are those of `pool`, some of them gone and some filled further. -/
def OrderPool.FilledTo (pool pool' : OrderPool) : Prop :=
  ∀ k o', pool'.slots k = some o' →
    ∃ o, pool.slots k = some o ∧ o' = { o with cumQty := o'.cumQty }

/-- No order is reduce-only. -/
def OrderPool.Plain (pool : OrderPool) : Prop := ∀ k o, pool.slots k = some o → o.reduceOnly = false

section Pools

variable {pool pool' pool'' : OrderPool} {h : Nat} {o : SimOrder}

theorem filledTo_refl (pool : OrderPool) : OrderPool.FilledTo pool pool :=
  fun _ o ho => ⟨o, ho, rfl⟩

theorem OrderPool.FilledTo.trans (hf : OrderPool.FilledTo pool pool')
    (hf' : OrderPool.FilledTo pool' pool'') : OrderPool.FilledTo pool pool'' := by
  intro k o'' ho''
  obtain ⟨o', ho', he'⟩ := hf' k o'' ho''
  obtain ⟨o, ho, he⟩ := hf k o' ho'
  refine ⟨o, ho, ?_⟩
  rw [he', he]

theorem filledTo_free (ho : pool.slots h = some o) : OrderPool.FilledTo pool (pool.free h) := by
  intro k o' ho'
  rw [Pool.slots_free ho] at ho'
  split at ho'
  · nomatch ho'
  · exact ⟨o', ho', rfl⟩

theorem filledTo_set (ho : pool.slots h = some o) (q : Qty) :
    OrderPool.FilledTo pool (pool.set h { o with cumQty := q }) := by
  intro k o' ho'
  rw [Pool.slots_set ho] at ho'
  split_ifs at ho' with hk
  · obtain rfl := Option.some.inj ho'
    exact ⟨o, by rw [hk]; exact ho, rfl⟩
  · exact ⟨o', ho', rfl⟩

theorem OrderPool.Plain.filledTo (hp : OrderPool.Plain pool) (hf : OrderPool.FilledTo pool pool') :
    OrderPool.Plain pool' := by
  intro k o' ho'
  obtain ⟨o, ho, he⟩ := hf k o' ho'
  rw [he]
  exact hp k o ho

end Pools

variable {e₀ : MatchingEngine} {L : Ladder} {i : Nat} {s : Side} {A : List Group} {p : Price}
  {x₀ : List Nat} {th : Nat}

/-- The auction's sweep over the level, and what is left of it. -/
def Matches (mode : StpMode) (p : Price) (w w' : Sweep) (x x' : List Nat)
    (calls : List SinkCall) : Prop :=
  ∀ (t : Taker) (others : List RestingOrder), t.party = w.taker.party → t.stp = mode →
    t.takes p = true →
    t.sweep w.taker.leaves (x.map (OrderPool.view w.engine.pool) ++ others) =
      Swept.after (fillsOf calls) (if w'.takerDone = true then
          ⟨[], w'.taker.leaves, x'.map (OrderPool.view w'.engine.pool) ++ others, true⟩
        else
          t.sweep w'.taker.leaves (x'.map (OrderPool.view w'.engine.pool) ++ others))

/-- A walk from `w`, with the queue `kept ++ todo`, ends at `w'` with the queue `x'`.  It makes
headway when the level is empty, or less than `lim` is left. -/
structure Walked (e₀ : MatchingEngine) (L : Ladder) (i : Nat) (s : Side) (A : List Group)
    (p : Price) (x₀ : List Nat) (th : Nat) (mode : StpMode) (lim : Qty) (w : Sweep)
    (kept todo : List Nat) (w' : Sweep) (x' : List Nat) (calls : List SinkCall) : Prop where
  sweeping : Sweeping e₀ L i s A p x₀ th w'.engine w'.level x'
  reports : Reports w.engine calls w'.engine
  balanced : Balanced w'.engine
  taker : w'.taker = { w.taker with cumQty := w'.taker.cumQty }
  nonneg : 0 ≤ w'.taker.leaves
  le : w'.taker.leaves ≤ w.taker.leaves
  filled : OrderPool.FilledTo w.engine.pool w'.engine.pool
  headway : w'.takerDone = true ∨ w'.takerReduced = true ∨ x' = [] ∨ w'.taker.leaves < lim
  plain : OrderPool.Plain w.engine.pool → w.taker.reduceOnly = false →
    (kept = [] ∨ ¬ 0 < w.taker.leaves) →
    w'.takerReduced = false ∧ (w'.takerDone = false → x' ≠ [] → ¬ 0 < w'.taker.leaves) ∧
      Matches mode p w w' (kept ++ todo) x' calls

namespace Walked

variable {mode : StpMode} {lim : Qty} {w w₁ w' : Sweep} {kept kept₁ todo todo₁ x' : List Nat}
  {calls calls₁ : List SinkCall}

/-- A walk that ends where it starts. -/
theorem stay (hs : Sweeping e₀ L i s A p x₀ th w.engine w.level (kept ++ todo))
    (hbal : Balanced w.engine) (hpos : 0 ≤ w.taker.leaves) (hdone : w.takerDone = false)
    (hred : w.takerReduced = false) (hlim : w.taker.leaves < lim ∨ kept = [])
    (hend : todo = [] ∨ ¬ 0 < w.taker.leaves ∧ 0 < lim) :
    Walked e₀ L i s A p x₀ th mode lim w kept todo w (kept ++ todo) [] := by
  refine ⟨hs, Reports.refl _, hbal, rfl, hpos, le_refl _, filledTo_refl _, ?_, ?_⟩
  · rcases hend with rfl | ⟨hend, hlim'⟩
    · rcases hlim with hlim | rfl
      · exact .inr (.inr (.inr hlim))
      · exact .inr (.inr (.inl rfl))
    · exact .inr (.inr (.inr (lt_of_le_of_lt (not_lt.mp hend) hlim')))
  · intro _ _ hkept
    refine ⟨hred, fun _ hne => ?_, fun t others _ _ _ => ?_⟩
    · rcases hend with rfl | hend
      · rcases hkept with rfl | hkept
        · exact absurd rfl hne
        · exact hkept
      · exact hend.1
    · rw [hdone]
      exact (Swept.after_nil _).symm

/-- A walk goes on after a step. -/
theorem after (hreports : Reports w.engine calls₁ w₁.engine)
    (htaker : w₁.taker = { w.taker with cumQty := w₁.taker.cumQty })
    (hle : w₁.taker.leaves ≤ w.taker.leaves)
    (hfilled : OrderPool.FilledTo w.engine.pool w₁.engine.pool)
    (hplain : OrderPool.Plain w.engine.pool → w.taker.reduceOnly = false →
      (kept = [] ∨ ¬ 0 < w.taker.leaves) → (kept₁ = [] ∨ ¬ 0 < w₁.taker.leaves) ∧
      ∀ (t : Taker) (others : List RestingOrder), t.party = w.taker.party → t.stp = mode →
        t.takes p = true →
        t.sweep w.taker.leaves ((kept ++ todo).map (OrderPool.view w.engine.pool) ++ others) =
          (t.sweep w₁.taker.leaves
            ((kept₁ ++ todo₁).map (OrderPool.view w₁.engine.pool) ++ others)).after
              (fillsOf calls₁))
    (h : Walked e₀ L i s A p x₀ th mode lim w₁ kept₁ todo₁ w' x' calls) :
    Walked e₀ L i s A p x₀ th mode lim w kept todo w' x' (calls₁ ++ calls) := by
  refine ⟨h.sweeping, hreports.trans h.reports, h.balanced, ?_, h.nonneg, le_trans h.le hle,
    hfilled.trans h.filled, h.headway, fun hp hr hkept => ?_⟩
  · rw [h.taker, htaker]
  obtain ⟨hkept₁, hmatch₁⟩ := hplain hp hr hkept
  obtain ⟨hred, hend, hmatch⟩ := h.plain (hp.filledTo hfilled) (by rw [htaker]; exact hr) hkept₁
  refine ⟨hred, hend, fun t others ht hstp htakes => ?_⟩
  rw [hmatch₁ t others ht hstp htakes, fillsOf_append, ← Swept.after_after,
    hmatch t others (by rw [ht, htaker]; rfl) hstp htakes]

end Walked

/-! ## One maker -/

section Maker

variable {mode : StpMode} {lim : Qty} {w : Sweep} {kept todo : List Nat} {mh : Nat}
  {maker : SimOrder}

/-- The maker as the auction has it. -/
theorem view_maker (hm : OrderPool.Waits w.engine.pool mh i s p maker) :
    OrderPool.view w.engine.pool mh = ⟨maker.party, p, maker.leaves, maker.type, maker.tif⟩ := by
  rw [view_eq hm.slot, hm.price]

/-- The orders about a maker that leaves. -/
theorem view_others {pool' : OrderPool} (hnodup : (kept ++ mh :: todo).Nodup)
    (hslots : ∀ k, k ≠ mh → pool'.slots k = w.engine.pool.slots k) :
    (kept ++ todo).map (OrderPool.view pool') =
      (kept ++ todo).map (OrderPool.view w.engine.pool) := by
  rw [nodup_middle] at hnodup
  exact map_view_congr fun k hk => hslots k fun he => (nodup_cons.mp hnodup).1 (he ▸ hk)

/-- A maker is dropped, and its walk is that of the others. -/
theorem Sweeping.drop (hs : Sweeping e₀ L i s A p x₀ th w.engine w.level (kept ++ mh :: todo))
    (hm : w.engine.pool.slots mh = some maker) (why : CancelReason) (now : Timestamp) :
    Sweeping e₀ L i s A p x₀ th (w.dropMaker mh maker why now).engine
        (w.dropMaker mh maker why now).level (kept ++ todo) ∧
      Reports w.engine [.onCancel maker why now] (w.dropMaker mh maker why now).engine ∧
      OrderPool.FilledTo w.engine.pool (w.dropMaker mh maker why now).engine.pool ∧
      (kept ++ todo).map (OrderPool.view (w.dropMaker mh maker why now).engine.pool) =
        (kept ++ todo).map (OrderPool.view w.engine.pool) := by
  obtain ⟨hdrop, hrep⟩ := hs.dropMaker hm rfl rfl why now
  have hnodup := hs.queues.nodup i s (p, kept ++ mh :: todo) (by rw [Ladder.set_self]; simp)
  refine ⟨hdrop, hrep, filledTo_free hm, view_others hnodup fun k hk => ?_⟩
  exact (Pool.slots_free hm k).trans (if_neg hk)

/-- The queue of the auction when nothing is kept. -/
theorem map_view_cons (hm : OrderPool.Waits w.engine.pool mh i s p maker)
    (others : List RestingOrder) :
    ([] ++ mh :: todo).map (OrderPool.view w.engine.pool) ++ others =
      ⟨maker.party, p, maker.leaves, maker.type, maker.tif⟩ ::
        (([] ++ todo).map (OrderPool.view w.engine.pool) ++ others) := by
  rw [nil_append, nil_append, map_cons, cons_append, view_maker hm]

section

variable (hs : Sweeping e₀ L i s A p x₀ th w.engine w.level (kept ++ mh :: todo))
variable (hm : OrderPool.Waits w.engine.pool mh i s p maker) (hbal : Balanced w.engine)
variable (hleft : 0 < w.taker.leaves)
include hs hm hbal hleft

/-- A maker of the taker's account. -/
theorem Walked.own (hred : w.takerReduced = false)
    (hmode : mode ≠ .none) (hown : maker.account = w.taker.account) (now : Timestamp) {w₁ : Sweep}
    (hw₁ : w₁ = if mode = .cancelMaker ∨ mode = .cancelBoth then w.dropMaker mh maker .stp now
      else w)
    {w₂ : Sweep} {x₂ : List Nat} {calls₂ : List SinkCall} (hrest : mode = .cancelMaker →
      Walked e₀ L i s A p x₀ th mode lim (w.dropMaker mh maker .stp now) kept todo w₂ x₂ calls₂) :
    ∃ x' calls, Walked e₀ L i s A p x₀ th mode lim w kept (mh :: todo)
      (if mode = .cancelTaker ∨ mode = .cancelBoth then { w₁ with takerDone := true } else w₂)
      x' calls := by
  obtain ⟨hdrop, hrep, hfilled, hview⟩ := hs.drop hm.slot .stp now
  have hown' : ∀ t : Taker, t.party = w.taker.party → maker.party.account = t.party.account :=
    fun t ht => by rw [ht]; exact hown
  cases mode with
  | none => exact absurd rfl hmode
  | cancelTaker =>
    rw [if_pos (.inl rfl)]
    rw [if_neg (by decide)] at hw₁
    subst hw₁
    refine ⟨kept ++ mh :: todo, [], hs, Reports.quiet rfl (append_nil _).symm (fun _ => rfl)
      rfl rfl rfl, hbal, rfl, le_of_lt hleft, le_refl _, filledTo_refl _, .inl rfl,
      fun _ _ hkept => ⟨hred, nofun, ?_⟩⟩
    intro t others ht hstp htakes
    obtain rfl := hkept.resolve_right (not_not.mpr hleft)
    rw [if_pos rfl, map_view_cons hm, Taker.sweep_own hleft htakes (by rw [hstp]; simp)
      (hown' t ht), hstp]
    rfl
  | cancelMaker =>
    rw [if_neg (by decide)]
    refine ⟨x₂, _, (hrest rfl).after hrep rfl (le_refl _) hfilled fun _ _ hkept => ⟨hkept, ?_⟩⟩
    intro t others ht hstp htakes
    obtain rfl := hkept.resolve_right (not_not.mpr hleft)
    rw [hview, map_view_cons hm, Taker.sweep_own hleft htakes (by rw [hstp]; simp)
      (hown' t ht), hstp]
    rfl
  | cancelBoth =>
    rw [if_pos (.inr rfl)]
    rw [if_pos (.inr rfl)] at hw₁
    subst hw₁
    refine ⟨kept ++ todo, _, hdrop, hrep, hbal.of_ledgers rfl, rfl, le_of_lt hleft, le_refl _,
      hfilled, .inl rfl, fun _ _ hkept => ⟨hred, nofun, ?_⟩⟩
    intro t others ht hstp htakes
    obtain rfl := hkept.resolve_right (not_not.mpr hleft)
    rw [if_pos rfl, map_view_cons hm, Taker.sweep_own hleft htakes (by rw [hstp]; simp)
      (hown' t ht), hstp]
    show (⟨_, _, _, _⟩ : Swept) = Swept.after [] ⟨_, _, _, _⟩
    rw [Swept.after_nil]
    rw [hview]
    rfl

/-- A maker that trades `q`, the smaller of what the two may trade. -/
theorem Walked.traded (hside : s = w.taker.side.opposite)
    (hother : ¬ (mode ≠ .none ∧ maker.account = w.taker.account)) {q q₀ m : Qty}
    (hq : q = min q₀ m) (hq₀ : q₀ ≤ w.taker.leaves) (hpos : 0 < q₀) (hm₀ : 0 < m)
    (hmle : m ≤ maker.leaves) (hlim : w.taker.leaves ≤ lim)
    (hplain : w.taker.reduceOnly = false → q₀ = w.taker.leaves)
    (hplain' : maker.reduceOnly = false → m = maker.leaves) (now : Timestamp) {w' : Sweep}
    (hrest : ∀ kept', (w.trade mh maker w.level.price q now).taker.leaves < lim →
      0 ≤ (w.trade mh maker w.level.price q now).taker.leaves →
      s = (w.trade mh maker w.level.price q now).taker.side.opposite →
      (w.trade mh maker w.level.price q now).takerDone = w.takerDone →
      (w.trade mh maker w.level.price q now).takerReduced = w.takerReduced →
      Balanced (w.trade mh maker w.level.price q now).engine →
      Sweeping e₀ L i s A p x₀ th (w.trade mh maker w.level.price q now).engine
        (w.trade mh maker w.level.price q now).level (kept' ++ todo) →
      ∃ x' calls, Walked e₀ L i s A p x₀ th mode lim (w.trade mh maker w.level.price q now) kept'
        todo w' x' calls) :
    ∃ x' calls, Walked e₀ L i s A p x₀ th mode lim w kept (mh :: todo) w' x' calls := by
  have hqpos : 0 < q := by rw [hq]; exact lt_min hpos hm₀
  have hqle : q ≤ w.taker.leaves := by rw [hq]; exact le_trans (min_le_left _ _) hq₀
  have hqm : q ≤ maker.leaves := by rw [hq]; exact le_trans (min_le_right _ _) hmle
  have hprice : w.level.price = p := by rw [hs.level]; rfl
  obtain ⟨calls₁, hrep, hfills, hbal₁, htaker, hdone, hred, hcase⟩ :=
    hs.trade hm.slot hqm (hm.side.trans hside) hbal w.level.price now
  generalize hw₁ : w.trade mh maker w.level.price q now = w₁ at *
  have hleaves : w₁.taker.leaves = w.taker.leaves - q := by
    rw [htaker]
    exact sub_add_eq_sub_sub w.taker.qty w.taker.cumQty q
  have hlt : w₁.taker.leaves < w.taker.leaves := by
    rw [hleaves]
    exact sub_lt_self _ hqpos
  have hnonneg : 0 ≤ w₁.taker.leaves := by
    rw [hleaves]
    exact sub_nonneg_of_le hqle
  have hside₁ : s = w₁.taker.side.opposite := by rw [htaker]; exact hside
  have htaker' : w₁.taker = { w.taker with cumQty := w₁.taker.cumQty } := by rw [htaker]
  have hnodup := hs.queues.nodup i s (p, kept ++ mh :: todo) (by rw [Ladder.set_self]; simp)
  have hfill : ∀ (t : Taker) (others : List RestingOrder), t.party = w.taker.party →
      t.stp = mode → t.takes p = true →
      t.sweep w.taker.leaves (([] ++ mh :: todo).map (OrderPool.view w.engine.pool) ++ others) =
        if maker.leaves ≤ w.taker.leaves then
          (t.sweep (w.taker.leaves - maker.leaves)
            (([] ++ todo).map (OrderPool.view w.engine.pool) ++ others)).after
              [⟨maker.party, t.party, p, maker.leaves⟩]
        else
          ⟨[⟨maker.party, t.party, p, w.taker.leaves⟩], 0,
            ⟨maker.party, p, maker.leaves - w.taker.leaves, maker.type, maker.tif⟩ ::
              (([] ++ todo).map (OrderPool.view w.engine.pool) ++ others), false⟩ := by
    intro t others ht hstp htakes
    rw [map_view_cons hm, Taker.sweep_fill hleft htakes]
    rw [hstp, ht]
    exact hother
  rcases hcase with ⟨hgone, hs₁, hpool⟩ | ⟨hstays, hs₁, hpool⟩
  · obtain ⟨x', calls, hwalk⟩ := hrest kept (lt_of_lt_of_le hlt hlim) hnonneg hside₁ hdone hred
      hbal₁ hs₁
    refine ⟨x', _, hwalk.after hrep htaker' (le_of_lt hlt) ?_ fun hp hr hkept => ?_⟩
    · rw [hpool]
      exact filledTo_free hm.slot
    obtain rfl := hkept.resolve_right (not_not.mpr hleft)
    refine ⟨.inl rfl, fun t others ht hstp htakes => ?_⟩
    have hall : maker.leaves = q := hgone.resolve_right fun h => by
      simp [hp mh maker hm.slot] at h
    have hslots : ∀ k, k ≠ mh → w₁.engine.pool.slots k = w.engine.pool.slots k := fun k hk => by
      rw [hpool]
      exact (Pool.slots_free hm.slot k).trans (if_neg hk)
    have hview := view_others hnodup hslots
    rw [hfill t others ht hstp htakes, if_pos (by rw [hall]; exact hqle), hfills, hview, hleaves,
      hall, ht, hprice]
  · have happ : kept ++ mh :: todo = (kept ++ [mh]) ++ todo := by simp
    rw [happ] at hs₁
    obtain ⟨x', calls, hwalk⟩ := hrest (kept ++ [mh]) (lt_of_lt_of_le hlt hlim) hnonneg hside₁
      hdone hred hbal₁ hs₁
    refine ⟨x', _, hwalk.after hrep htaker' (le_of_lt hlt) ?_ fun hp hr hkept => ?_⟩
    · rw [hpool]
      exact filledTo_set hm.slot _
    obtain rfl := hkept.resolve_right (not_not.mpr hleft)
    have hm' : m = maker.leaves := hplain' (hp mh maker hm.slot)
    have hq' : q = w.taker.leaves ∧ w.taker.leaves < maker.leaves := by
      rw [hplain hr, hm'] at hq
      rcases le_total w.taker.leaves maker.leaves with hle | hle
      · rw [min_eq_left hle] at hq
        exact ⟨hq, lt_of_le_of_ne hle fun he => hstays (by rw [hq, he])⟩
      · rw [min_eq_right hle] at hq
        exact absurd hq.symm hstays
    have hzero : w₁.taker.leaves = 0 := by rw [hleaves, hq'.1]; exact sub_self _
    have hidle : ¬ 0 < w₁.taker.leaves := by rw [hzero]; exact lt_irrefl _
    refine ⟨.inr hidle, fun t others ht hstp htakes => ?_⟩
    have hslots : ∀ k, k ≠ mh → w₁.engine.pool.slots k = w.engine.pool.slots k := fun k hk => by
      rw [hpool]
      exact (Pool.slots_set hm.slot k).trans (if_neg hk)
    have hview := view_others hnodup hslots
    have hown : OrderPool.view w₁.engine.pool mh =
        ⟨maker.party, p, maker.leaves - q, maker.type, maker.tif⟩ := by
      rw [view_eq (o := { maker with cumQty := maker.cumQty + q }) (by
        rw [hpool]
        exact (Pool.slots_set hm.slot mh).trans (if_pos rfl))]
      show (⟨maker.party, maker.price, maker.qty - (maker.cumQty + q), maker.type, maker.tif⟩ :
        RestingOrder) = _
      rw [hm.price, sub_add_eq_sub_sub]
      rfl
    rw [hfill t others ht hstp htakes, if_neg (not_le.mpr hq'.2), hfills,
      Taker.sweep_idle (.inl hidle), hzero]
    show _ = (⟨_, _, OrderPool.view w₁.engine.pool mh :: ([] ++ todo).map
      (OrderPool.view w₁.engine.pool) ++ others, _⟩ : Swept)
    rw [hview, hown, ht, hprice, hq'.1]
    rfl

end

end Maker

/-- What a party may trade is of its leaves, and all of them unless it is reduce-only. -/
theorem capped {o : SimOrder} {q : Qty} {room : Nat}
    (hq : q = if o.reduceOnly = true then min o.leaves room else o.leaves) (hpos : 0 ≤ o.leaves) :
    q ≤ o.leaves ∧ 0 ≤ q ∧ (o.reduceOnly = false → q = o.leaves) := by
  cases hr : o.reduceOnly with
  | true =>
    rw [hr, if_pos rfl] at hq
    rw [hq]
    exact ⟨min_le_left _ _, le_min hpos (Int.natCast_nonneg room), nofun⟩
  | false =>
    rw [hr, if_neg (by simp)] at hq
    rw [hq]
    exact ⟨le_refl _, hpos, fun _ => rfl⟩

/-- The walk over the makers of a level. -/
theorem makers_walk {mode : StpMode} {lim : Qty} {now : Timestamp} (hlim : 0 < lim) (n : Nat)
    (w : Sweep) (kept todo : List Nat)
    (hs : Sweeping e₀ L i s A p x₀ th w.engine w.level (kept ++ todo)) (hn : todo.length ≤ n)
    (hbal : Balanced w.engine) (hpos : 0 ≤ w.taker.leaves) (hle : w.taker.leaves ≤ lim)
    (hkept : w.taker.leaves < lim ∨ kept = []) (hside : s = w.taker.side.opposite)
    (hdone : w.takerDone = false) (hred : w.takerReduced = false) :
    ∃ x' calls, Walked e₀ L i s A p x₀ th mode lim w kept todo
      (Sweep.makers mode now n todo.head? w) x' calls := by
  induction n generalizing w kept todo with
  | zero =>
    obtain rfl := length_eq_zero_iff.mp (Nat.le_zero.mp hn)
    exact ⟨_, _, Walked.stay hs hbal hpos hdone hred hkept (.inl rfl)⟩
  | succ n ih =>
    cases todo with
    | nil => exact ⟨_, _, Walked.stay hs hbal hpos hdone hred hkept (.inl rfl)⟩
    | cons mh todo =>
      rw [head?_cons, Sweep.makers]
      by_cases hleft : 0 < w.taker.leaves
      · rw [if_neg (not_not.mpr hleft)]
        obtain ⟨maker, hm⟩ := hs.waits (mem_append_right kept mem_cons_self)
        have hchain := hs.queues.chain i s (p, kept ++ mh :: todo) (by rw [Ladder.set_self]; simp)
        rw [hm.slot]
        dsimp only
        rw [hchain.next_eq]
        obtain ⟨q₀, hq₀⟩ : ∃ q₀ : Qty, q₀ = if w.taker.reduceOnly = true then
          min w.taker.leaves (w.engine.reducible w.engine.told w.taker) else w.taker.leaves :=
            ⟨_, rfl⟩
        obtain ⟨m, hm₀⟩ : ∃ m : Qty, m = if maker.reduceOnly = true then
          min maker.leaves (w.engine.reducible w.engine.told maker) else maker.leaves :=
            ⟨_, rfl⟩
        rw [← hq₀, ← hm₀]
        obtain ⟨hqle, hqnonneg, hqplain⟩ := capped hq₀ hpos
        obtain ⟨hmle, hmnonneg, hmplain⟩ := capped hm₀ (le_of_lt hm.leaves)
        split
        · rename_i hend
          refine ⟨_, [], hs, Reports.quiet rfl (append_nil _).symm (fun _ => rfl) rfl rfl
            rfl, hbal, rfl, hpos, le_refl _, filledTo_refl _, .inr (.inl rfl),
            fun _ hr _ => absurd hend.1 (by rw [hr]; simp)⟩
        rename_i hgoes
        have hqpos : 0 < q₀ := by
          refine lt_of_le_of_ne hqnonneg fun he => ?_
          cases hr : w.taker.reduceOnly with
          | true => exact hgoes ⟨hr, he.symm⟩
          | false => exact absurd hleft (by rw [← hqplain hr, ← he]; exact lt_irrefl _)
        have hnext : ∀ (w₁ : Sweep) (kept₁ : List Nat), w₁.taker.leaves ≤ lim →
            (w₁.taker.leaves < lim ∨ kept₁ = []) → 0 ≤ w₁.taker.leaves →
            s = w₁.taker.side.opposite → w₁.takerDone = w.takerDone →
            w₁.takerReduced = w.takerReduced → Balanced w₁.engine →
            Sweeping e₀ L i s A p x₀ th w₁.engine w₁.level (kept₁ ++ todo) →
            ∃ x' calls, Walked e₀ L i s A p x₀ th mode lim w₁ kept₁ todo
              (Sweep.makers mode now n todo.head? w₁) x' calls :=
          fun w₁ kept₁ hle₁ hkept₁ hpos₁ hside₁ hdone₁ hred₁ hbal₁ hs₁ =>
            ih w₁ kept₁ todo hs₁ (Nat.le_of_succ_le_succ hn) hbal₁ hpos₁ hle₁ hkept₁ hside₁
              (hdone₁.trans hdone) (hred₁.trans hred)
        have hdropped : ∀ why, ∃ x' calls, Walked e₀ L i s A p x₀ th mode lim
            (w.dropMaker mh maker why now) kept todo
            (Sweep.makers mode now n todo.head? (w.dropMaker mh maker why now)) x' calls :=
          fun why => hnext _ kept hle hkept hpos hside rfl rfl (hbal.of_ledgers rfl)
            (hs.drop hm.slot why now).1
        split
        · rename_i hown
          obtain ⟨x₂, calls₂, hrest⟩ := hdropped .stp
          exact Walked.own hs hm hbal hleft hred hown.1 hown.2 now rfl fun hmode => by
            rw [if_pos (.inl hmode)]
            exact hrest
        rename_i hother
        split
        · rename_i hnone
          obtain ⟨x', calls, hrest⟩ := hdropped .reduceOnly
          obtain ⟨-, hrep, hfilled, -⟩ := hs.drop hm.slot .reduceOnly now
          refine ⟨x', _, hrest.after hrep rfl (le_refl _) hfilled fun hp _ _ => ?_⟩
          refine absurd hm.leaves ?_
          rw [← hmplain (hp mh maker hm.slot), hnone]
          exact lt_irrefl _
        · rename_i hsome
          exact Walked.traded hs hm hbal hleft hside hother rfl hqle hqpos
            (lt_of_le_of_ne hmnonneg (Ne.symm hsome)) hmle hle hqplain hmplain now
            fun kept₁ hlt₁ hpos₁ hside₁ hdone₁ hred₁ hbal₁ hs₁ =>
              hnext _ kept₁ (le_of_lt hlt₁) (.inl hlt₁) hpos₁ hside₁ hdone₁ hred₁ hbal₁ hs₁
      · rw [if_pos hleft]
        exact ⟨_, _, Walked.stay hs hbal hpos hdone hred hkept (.inr ⟨hleft, hlim⟩)⟩

end FastMM.Sim
