/-
  Sim/Submission.lean --- a new order, and a replacement.

  A new order is refused, or enters; it sweeps the other side, and what is left of it rests or is
  cancelled.
-/
import FastMM.Sim.OrderEntry
set_option autoImplicit false

namespace FastMM.Sim

open Foundation List

variable {e e' : MatchingEngine} {L : Ladder} {i : Nat} {s : Side} {p : Price} {h : Nat}
  {o : SimOrder} {a : Auction}
variable {r : NewOrder}

/-! ## Entry -/

/-- The order of a request. -/
def NewOrder.order (o : NewOrder) (orderId : Nat) (now : Timestamp) : SimOrder :=
  { orderId := orderId
    clOrdId := o.clOrdId
    price := if decide (o.type = .market) = true then 0 else o.price
    qty := o.qty
    created := now
    instrument := o.instrument
    account := o.account
    side := o.side
    type := o.type
    tif := if decide (o.type = .market) = true then .ioc else o.tif
    reduceOnly := o.reduceOnly }

/-- A request the engine takes in. -/
structure Enters (e : MatchingEngine) (o : NewOrder) : Prop where
  instrument : o.instrument.value < e.instrumentCount
  qty : 0 < o.qty
  free : e.byKey (orderKey o.account o.clOrdId) = none

/-- The order is live and acknowledged. -/
def MatchingEngine.enter (e : MatchingEngine) (h : Nat) (pool : OrderPool) (o : NewOrder)
    (now : Timestamp) : MatchingEngine :=
  ({ e with
    pool := pool.set h (o.order e.nextOrderId now)
    nextOrderId := e.nextOrderId + 1
    byKey := Function.update e.byKey (orderKey o.account o.clOrdId) (some h) } :
      MatchingEngine).tell (.onAck (o.order e.nextOrderId now) now)

/-- The engine once an order has entered. -/
theorem Stands.enter (hst : Stands e L) (henters : Enters e r) {pool : OrderPool}
    (halloc : e.pool.allocate = some (h, pool)) (now : Timestamp) :
    Entered (e.enter h pool r now) L h (r.order e.nextOrderId now) ∧
      Reports e [.onAck (r.order e.nextOrderId now) now] (e.enter h pool r now) ∧
      (∀ i, (e.enter h pool r now).books i = e.books i) ∧
      (Allowed (r.order e.nextOrderId now) → ∀ a, Shows e L a →
        Shows (e.enter h pool r now) L { a with nextOrderId := a.nextOrderId + 1 }) := by
  obtain ⟨hdead, -, hlive⟩ := Pool.allocate_spec halloc
  have hnew : pool.slots h = some default := by rw [hlive, if_pos rfl]
  have hslots : ∀ k, (e.enter h pool r now).pool.slots k =
      if k = h then some (r.order e.nextOrderId now) else e.pool.slots k := by
    intro k
    show (pool.set h (r.order e.nextOrderId now)).slots k = _
    rw [Pool.slots_set hnew]
    split_ifs with hk
    · rfl
    · rw [hlive, if_neg hk]
  have hrep : Reports e [.onAck (r.order e.nextOrderId now) now] (e.enter h pool r now) :=
    Reports.quiet rfl rfl (fun _ => rfl) rfl rfl rfl
  have hplaced : ∀ i s, ∀ g ∈ L i s, ∀ k ∈ g.2, k ≠ h := by
    intro i s g hg k hk he
    obtain ⟨-, o, ho⟩ := hst.tiered.queues.placed i s g hg k hk
    rw [he] at ho
    exact absurd ho.slot (by rw [hdead]; simp)
  have hframe : ∀ i s, ∀ g ∈ L i s, ∀ k ∈ g.2,
      (e.enter h pool r now).pool.slots k = e.pool.slots k := by
    intro i s g hg k hk
    rw [hslots, if_neg (hplaced i s g hg k hk)]
  have hcases : ∀ k o, (e.enter h pool r now).pool.slots k = some o →
      o = r.order e.nextOrderId now ∨ e.pool.slots k = some o := by
    intro k o ho
    rw [hslots] at ho
    split at ho
    · exact .inl (Option.some.inj ho).symm
    · exact .inr ho
  refine ⟨⟨⟨?_, ?_, hst.tiered.full⟩, ?_, hst.balanced.of_ledgers rfl, hst.uncrossed, ?_⟩, hrep,
    fun _ => rfl, fun hallowed a ha => ?_⟩
  · exact hst.tiered.queues.allocate (o := r.order e.nextOrderId now) halloc henters.free
  · intro i s
    refine (hst.tiered.levels i s).trans (map_congr_left fun g hg => ?_)
    exact (levelOf_congr fun k hk => hframe i s g hg k hk).symm
  · rw [hslots, if_pos rfl]
  · intro k o ho
    rw [hrep.instrumentCount]
    rcases hcases k o ho with rfl | ho
    · exact henters.instrument
    · exact hst.within k o ho
  refine ⟨fun i s => ?_, fun account id => ?_, ?_, ?_, ?_, fun k o ho => ?_⟩
  · refine (ha.queue i s).trans (map_view_congr fun k hk => ?_).symm
    obtain ⟨g, hg, hkg⟩ := mem_flat.mp hk
    exact hframe i s g hg k hkg
  · rw [MatchingEngine.stp, hrep.stpTable, hrep.instrumentCount]
    exact ha.stp account id
  · exact congrArg (· + 1) ha.nextOrderId
  · rw [hrep.instrumentCount]
    exact ha.instrumentCount
  · rw [hrep.told, fillsOf_append]
    exact ha.fills.trans (append_nil _).symm
  · rcases hcases k o ho with rfl | ho
    · exact hallowed
    · exact ha.allowed k o ho

/-! ## The sweep -/

/-- The auction's sweep of the side opposite to an order's. -/
def Auction.taken (a : Auction) (o : SimOrder) (t : Taker) : Auction :=
  { a.setQueue o.instrument.value o.side.opposite
      (t.sweep o.leaves (a.queue o.instrument.value o.side.opposite)).queue with
    fills := a.fills ++ (t.sweep o.leaves (a.queue o.instrument.value o.side.opposite)).fills }

/-- The auction's taker for an order. -/
def SimOrder.taker (o : SimOrder) (stp : StpMode) : Taker :=
  ⟨o.party, o.side, if o.type = .market then none else some o.price, stp⟩

theorem taker_takes (o : SimOrder) (stp : StpMode) (px : Price) :
    (o.taker stp).takes px = (decide (o.type = .market) || crosses o.side o.price px) := by
  unfold SimOrder.taker Taker.takes
  by_cases hm : o.type = .market
  · simp [hm]
  · simp [hm]

/-- A side whose best price an order does not cross has none it crosses. -/
theorem not_crosses {gs : List Group}
    (hsorted : Ascending (fun g : Group => goodness s.opposite g.1) gs)
    (hlast : ∀ g ∈ gs.getLast?, crosses s p g.1 = false) : ∀ g ∈ gs, crosses s p g.1 = false := by
  intro g hg
  rcases eq_nil_or_concat' gs with rfl | ⟨A, b, rfl⟩
  · exact absurd hg not_mem_nil
  have hbest := hlast b (by simp)
  rcases mem_append.mp hg with hA | hb
  · have hlt : goodness s.opposite g.1 < goodness s.opposite b.1 := hsorted.about.1 g hA
    cases s with
    | buy =>
      have hpb : p < b.1 := not_le.mp (of_decide_eq_false hbest)
      exact decide_eq_false (not_le.mpr (lt_trans hpb (neg_lt_neg_iff.mp hlt)))
    | sell =>
      have hbp : b.1 < p := not_le.mp (of_decide_eq_false hbest)
      exact decide_eq_false (not_le.mpr (lt_trans hlt hbp))
  · obtain rfl := mem_singleton.mp hb
    exact hbest

/-- An order that has entered sweeps the other side. -/
theorem Entered.sweep (hen : Entered e L h o) (hpos : 0 ≤ o.leaves) (now : Timestamp) :
    ∃ L' calls, Reports e calls (e.matchOrder h o now).2.1 ∧
      (e.matchOrder h o now).2.2 = { o with cumQty := (e.matchOrder h o now).2.2.cumQty } ∧
      0 ≤ (e.matchOrder h o now).2.2.leaves ∧
      (∀ i s, ¬ (i = o.instrument.value ∧ s = o.side.opposite) → L' i s = L i s) ∧
      (match (e.matchOrder h o now).1 with
        | false => Stands (e.matchOrder h o now).2.1 L'
        | true => Entered (e.matchOrder h o now).2.1 L' h o ∧
            (0 < (e.matchOrder h o now).2.2.leaves → o.type ≠ .market →
              ∀ g ∈ L' o.instrument.value o.side.opposite, crosses o.side o.price g.1 = false)) ∧
      ∀ a, Shows e L a →
        (o.taker (e.stp o.account o.instrument)).sweep o.leaves
            (a.queue o.instrument.value o.side.opposite) =
          ⟨fillsOf calls, (e.matchOrder h o now).2.2.leaves,
            ((o.taker (e.stp o.account o.instrument)).sweep o.leaves
              (a.queue o.instrument.value o.side.opposite)).queue,
            !(e.matchOrder h o now).1⟩ ∧
        Shows (e.matchOrder h o now).2.1 L' (a.taken o (o.taker (e.stp o.account o.instrument))) :=
          by
  have hlen : (L o.instrument.value o.side.opposite).length ≤ kMaxSimLevels := by
    have hle := ((e.books o.instrument.value).levels o.side.opposite).length_le
    rwa [hen.tiered.levels, length_map] at hle
  obtain ⟨gs', calls, ht⟩ := sweep_taken now (kMaxSimLevels + o.leaves.toNat + 1) e L o o
    hen.tiered hen.balanced hen.slot rfl hpos rfl rfl (by omega)
  have hr : e.matchOrder h o now =
      MatchingEngine.sweep h now (kMaxSimLevels + o.leaves.toNat + 1) e o := rfl
  rw [← hr] at ht
  generalize e.matchOrder h o now = r at ht ⊢
  have huncrossed : Uncrossed (L.set o.instrument.value o.side.opposite gs') :=
    hen.uncrossed.set ht.prices
  have hwithin : ∀ k o, r.2.1.pool.slots k = some o → o.instrument.value <
    r.2.1.instrumentCount := by
    intro k o₁ ho₁
    obtain ⟨o₂, ho₂, he⟩ := ht.filled k o₁ ho₁
    rw [he, ht.reports.instrumentCount]
    exact hen.within k o₂ ho₂
  refine ⟨L.set o.instrument.value o.side.opposite gs', calls, ht.reports, ht.same, ht.nonneg,
    fun i s hne => Ladder.set_of_ne L _ _ _ hne, ?_, fun a ha => ?_⟩
  · have htiered := ht.tiered
    split
    · rename_i hok
      rw [hok] at htiered
      exact ⟨htiered, ht.balanced, huncrossed, hwithin⟩
    rename_i hok
    rw [hok] at htiered
    refine ⟨⟨htiered, (ht.slot hok).trans hen.slot, ht.balanced, huncrossed, hwithin⟩,
      fun hleft _ g hg => ?_⟩
    have hsorted := htiered.queues.sorted o.instrument.value o.side.opposite
    rw [Ladder.set_self] at hg hsorted
    exact not_crosses hsorted (fun g hg => (ht.stops hok hleft g hg).2) g hg
  · have hsweep := ht.plain ha.plain (ha.plain h o hen.slot)
      (o.taker (e.stp o.account o.instrument)) rfl rfl (taker_takes o _)
    rw [← ha.queue] at hsweep
    refine ⟨by rw [hsweep], ?_⟩
    unfold Auction.taken
    rw [hsweep]
    have hset := ha.queue_set o.instrument.value o.side.opposite gs' r.2.1.pool
      (fun i s hne g hg k hk => ht.slots k ?_ fun g' hg' hk' => ?_)
    · exact ha.step ht.reports rfl rfl rfl (ha.nextOrderId.trans ht.nextOrderId.symm) hset
        (ha.allowed_filled ht.filled)
    · exact fun he => (hen.tiered.queues.placed i s g hg k hk).1 (congrArg some he.symm)
    · obtain ⟨hi, hs, -⟩ := hen.tiered.queues.eq_of_mem hg hg' hk hk'
      exact hne ⟨hi, hs⟩

/-! ## What is left -/

/-- What the engine does with what is left of an order. -/
def MatchingEngine.finish (e : MatchingEngine) (market : Bool) (h : Nat) (o : SimOrder)
    (now : Timestamp) : MatchingEngine :=
  if o.leaves = 0 then e.freeOrder h o
  else if market = true ∨ o.tif = .ioc ∨ o.tif = .fok then
    (e.tell (.onCancel o (if market = true then .noLiquidity else .ioc) now)).freeOrder h o
  else ({ e with pool := e.pool.set h o }.rest h o).2

/-- What the auction does with it. -/
def Auction.finish (a : Auction) (o : SimOrder) (left : Qty) : Auction :=
  if left = 0 ∨ o.type = .market ∨ o.tif = .ioc then a
  else a.enqueue o.instrument.value o.side ⟨o.party, o.price, left, o.type, o.tif⟩

/-- What is left rests or is gone. -/
theorem Entered.finish (hen : Entered e L h o) {o' : SimOrder}
    (hsame : o' = { o with cumQty := o'.cumQty }) (hpos : 0 ≤ o'.leaves)
    (hcross : 0 < o'.leaves → o'.type ≠ .market →
      ∀ g ∈ L o'.instrument.value o'.side.opposite, crosses o'.side o'.price g.1 = false)
    {market : Bool} (hm : market = true ↔ o'.type = .market) (now : Timestamp) :
    ∃ L' calls, Stands (e.finish market h o' now) L' ∧
      Reports e calls (e.finish market h o' now) ∧
      (o'.tif ≠ .fok → ((e.book o'.instrument).levels o'.side).size < kMaxSimLevels →
        ∀ a, Shows e L a → Shows (e.finish market h o' now) L' (a.finish o' o'.leaves)) := by
  have hkey : orderKey o'.account o'.clOrdId = orderKey o.account o.clOrdId := by rw [hsame]
  unfold MatchingEngine.finish Auction.finish
  split
  · rename_i hzero
    have hrep : Reports e [] (e.freeOrder h o') :=
      Reports.quiet rfl (append_nil _).symm (fun _ => rfl) rfl rfl rfl
    obtain ⟨hst, hshows⟩ := hen.freeOrder hkey hrep rfl ⟨rfl, rfl, rfl, rfl, rfl⟩ rfl
    refine ⟨L, [], hst, hrep, fun _ _ a ha => ?_⟩
    rw [if_pos (.inl hzero)]
    exact hshows a ha
  · rename_i hleft
    have hleaves : 0 < o'.leaves := lt_of_le_of_ne hpos (Ne.symm hleft)
    split
    · rename_i hends
      have hrep : ∀ why, Reports e [.onCancel o' why now]
          ((e.tell (.onCancel o' why now)).freeOrder h o') :=
        fun why => Reports.quiet rfl rfl (fun _ => rfl) rfl rfl rfl
      obtain ⟨hst, hshows⟩ := hen.freeOrder hkey
        (hrep (if market = true then .noLiquidity else .ioc)) rfl ⟨rfl, rfl, rfl, rfl, rfl⟩ rfl
      refine ⟨L, _, hst, hrep _, fun hfok _ a ha => ?_⟩
      have hgone : o'.leaves = 0 ∨ o'.type = .market ∨ o'.tif = .ioc :=
        .inr (hends.imp hm.mp fun h => h.resolve_right hfok)
      rw [if_pos hgone]
      exact hshows a ha
    · rename_i hrests
      obtain ⟨hmarket, hioc⟩ := not_or.mp hrests
      rw [hm] at hmarket
      obtain ⟨L', calls, hst, hrep, hshows⟩ := hen.rest hsame hleaves (hcross hleaves hmarket)
      refine ⟨L', calls, hst, hrep, fun _ hroom a ha => ?_⟩
      rw [if_neg (not_or.mpr ⟨hleft, not_or.mpr ⟨hmarket, (not_or.mp hioc).1⟩⟩)]
      exact hshows hroom a ha

/-! ## Submission -/

/-- The engine of an answer. -/
theorem answer_eq (o : SimOrder) (e : MatchingEngine) (post : Prop) [Decidable post]
    (market : Bool) (h : Nat) (now : Timestamp) :
    (if o.tif = .fok ∧ (e.fillable o < o.qty ∨
        (o.reduceOnly = true ∧ (e.reducible e.told o : Qty) < o.qty)) then
      (({ orderId := o.orderId } : SubmitResult), (e.tell (.onCancel o .fok now)).freeOrder h o)
    else
      match (if post then (true, e, o) else e.matchOrder h o now) with
      | (false, e, ord) => ({ orderId := ord.orderId, filled := ord.cumQty }, e)
      | (true, e, ord) =>
        if ord.leaves = 0 then
          ({ orderId := ord.orderId, filled := ord.cumQty }, e.freeOrder h ord)
        else if market = true ∨ ord.tif = .ioc ∨ ord.tif = .fok then
          ({ orderId := ord.orderId, filled := ord.cumQty },
            (e.tell (.onCancel ord (if market = true then .noLiquidity else .ioc) now)).freeOrder h
              ord)
        else
          match { e with pool := e.pool.set h ord }.rest h ord with
          | (false, e) =>
            ({ orderId := ord.orderId, reason := .venueReject, filled := ord.cumQty }, e)
          | (true, e) =>
            ({ orderId := ord.orderId, filled := ord.cumQty, resting := ord.leaves }, e)).2 =
      if o.tif = .fok ∧ (e.fillable o < o.qty ∨
          (o.reduceOnly = true ∧ (e.reducible e.told o : Qty) < o.qty)) then
        (e.tell (.onCancel o .fok now)).freeOrder h o
      else if post then e.finish market h o now
      else
        match e.matchOrder h o now with
        | (false, e, _) => e
        | (true, e, o) => e.finish market h o now := by
  have hfinish : ∀ (e : MatchingEngine) (o : SimOrder), (if o.leaves = 0 then
        (({ orderId := o.orderId, filled := o.cumQty } : SubmitResult), e.freeOrder h o)
      else if market = true ∨ o.tif = .ioc ∨ o.tif = .fok then
        ({ orderId := o.orderId, filled := o.cumQty },
          (e.tell (.onCancel o (if market = true then .noLiquidity else .ioc) now)).freeOrder h o)
      else
        match { e with pool := e.pool.set h o }.rest h o with
        | (false, e) => ({ orderId := o.orderId, reason := .venueReject, filled := o.cumQty }, e)
        | (true, e) => ({ orderId := o.orderId, filled := o.cumQty, resting := o.leaves }, e)).2 =
      e.finish market h o now := by
    intro e o
    unfold MatchingEngine.finish
    split
    · rfl
    split
    · rfl
    · generalize ({ e with pool := e.pool.set h o } : MatchingEngine).rest h o = rested
      obtain ⟨placed, e'⟩ := rested
      cases placed <;> rfl
  split
  · rfl
  by_cases hpost : post
  · rw [if_pos hpost, if_pos hpost]
    exact hfinish e o
  rw [if_neg hpost, if_neg hpost]
  generalize e.matchOrder h o now = swept
  obtain ⟨ok, e', o'⟩ := swept
  cases ok with
  | false => rfl
  | true => exact hfinish e' o'

/-- The engine's answer to an order it takes in. -/
theorem submit_enters (henters : Enters e r) {now : Timestamp}
    (hprice : r.type = .market ∨ 0 < r.price) (hcross : ¬ (r.type = .postOnly ∧
      (match (e.book r.instrument).best r.side.opposite with
        | some best => crosses r.side r.price best.price
        | none => false) = true)) {pool : OrderPool} (halloc : e.pool.allocate = some (h, pool)) :
    (e.submit r now).2 =
      let o := r.order e.nextOrderId now
      let e := e.enter h pool r now
      if o.tif = .fok ∧ (e.fillable o < o.qty ∨
          (o.reduceOnly = true ∧ (e.reducible e.told o : Qty) < o.qty)) then
        (e.tell (.onCancel o .fok now)).freeOrder h o
      else if r.type = .postOnly then e.finish (decide (r.type = .market)) h o now
      else
        match e.matchOrder h o now with
        | (false, e, _) => e
        | (true, e, o) => e.finish (decide (r.type = .market)) h o now := by
  have hprice' : ¬ (decide (r.type = .market) = false ∧ ¬ 0 < r.price) := by
    rintro ⟨hm, hno⟩
    exact hprice.elim (of_decide_eq_false hm) hno
  unfold MatchingEngine.submit
  rw [if_neg (not_le.mpr henters.instrument), if_neg (not_not.mpr henters.qty), if_neg hprice',
    if_neg (by rw [henters.free]; simp), if_neg (by exact hcross), halloc]
  exact answer_eq (r.order e.nextOrderId now) (e.enter h pool r now) (r.type = .postOnly)
    (decide (r.type = .market)) h now

/-- The best order of a side would trade with a request. -/
def MatchingEngine.wouldCross (e : MatchingEngine) (r : NewOrder) : Bool :=
  match (e.book r.instrument).best r.side.opposite with
  | some best => crosses r.side r.price best.price
  | none => false

/-- A request the engine does not take in, whatever room it has. -/
def Refused (e : MatchingEngine) (r : NewOrder) : Prop :=
  e.instrumentCount ≤ r.instrument.value ∨ ¬ 0 < r.qty ∨ (r.type ≠ .market ∧ ¬ 0 < r.price) ∨
    (e.byKey (orderKey r.account r.clOrdId)).isSome = true ∨
    (r.type = .postOnly ∧ e.wouldCross r = true)

theorem submit_refused (now : Timestamp) (h : Refused e r ∨ e.pool.allocate = none) :
    ∃ why, (e.submit r now).2 = e.tell (.onReject r why now) := by
  unfold MatchingEngine.submit
  dsimp only
  split
  · exact ⟨_, rfl⟩
  rename_i hinst
  split
  · exact ⟨_, rfl⟩
  rename_i hqty
  split
  · exact ⟨_, rfl⟩
  rename_i hprice
  split
  · exact ⟨_, rfl⟩
  rename_i hdup
  by_cases hpost : r.type = .postOnly ∧ e.wouldCross r = true
  · rw [if_pos (by exact hpost)]
    exact ⟨_, rfl⟩
  rw [if_neg (by exact hpost)]
  have hnone : e.pool.allocate = none := by
    refine h.resolve_left ?_
    rintro (h | h | h | h | h)
    · exact hinst h
    · exact hqty h
    · exact hprice ⟨decide_eq_false h.1, h.2⟩
    · exact hdup h
    · exact hpost h
  rw [hnone]
  exact ⟨_, rfl⟩

/-- The best order of a side. -/
theorem Shows.best (ht : Tiered e L none) (ha : Shows e L a) (i : Nat) (s : Side) :
    (a.queue i s).head?.map RestingOrder.price = ((e.books i).best s).map PriceLevel.price := by
  unfold SimBook.best
  rw [ha.queue, ht.levels]
  rcases eq_nil_or_concat' (L i s) with hnil | ⟨A, ⟨p, x⟩, hL⟩
  · rw [hnil]
    rfl
  have hx : x ≠ [] := ht.full i s (p, x) (by rw [hL]; simp)
  obtain ⟨h, y, rfl⟩ := exists_cons_of_ne_nil hx
  obtain ⟨-, o, ho⟩ := ht.queues.placed i s (p, h :: y) (by rw [hL]; simp) h mem_cons_self
  have hlast : ((A ++ [(p, h :: y)]).map (OrderPool.levelOf e.pool)).getLast? =
      some (OrderPool.levelOf e.pool (p, h :: y)) := by simp
  rw [hL, flat_last, hlast]
  show some (OrderPool.view e.pool h).price = some p
  rw [view_eq ho.slot]
  exact congrArg some ho.price

theorem Shows.wouldCross (ht : Tiered e L none) (ha : Shows e L a) (r : NewOrder) :
    (match (a.queue r.instrument.value r.side.opposite).head? with
      | some best => crosses r.side r.price best.price
      | none => false) = e.wouldCross r := by
  have hbest := ha.best ht r.instrument.value r.side.opposite
  show _ = match (e.books r.instrument.value).best r.side.opposite with
    | some best => crosses r.side r.price best.price
    | none => false
  cases hq : (a.queue r.instrument.value r.side.opposite).head? with
  | none =>
    rw [hq] at hbest
    rw [Option.map_eq_none_iff.mp hbest.symm]
  | some w =>
    rw [hq] at hbest
    obtain ⟨l, hl, hprice⟩ := Option.map_eq_some_iff.mp hbest.symm
    rw [hl]
    show crosses r.side r.price w.price = crosses r.side r.price l.price
    rw [hprice]

/-- What an order needs for the auction to treat it alike. -/
structure Plain (e : MatchingEngine) (r : NewOrder) : Prop where
  reduceOnly : r.reduceOnly = false
  tif : r.tif ≠ .fok
  id : r.clOrdId.value < 2 ^ 48
  slot : e.pool.allocate ≠ none
  levels : r.instrument.value < e.instrumentCount →
    ((e.book r.instrument).levels r.side).size < kMaxSimLevels

/-- A request that is refused, in the auction. -/
theorem Shows.submit_refused (hst : Stands e L) (ha : Shows e L a)
    (hid : r.clOrdId.value < 2 ^ 48) (hr : Refused e r) : a.submit r = a := by
  have hlookup := ha.lookup hst r.account hid
  have hdup : (e.byKey (orderKey r.account r.clOrdId)).isSome = true →
      (a.lookup r.account r.clOrdId).isSome = true := by
    intro hsome
    obtain ⟨h, hh⟩ := Option.isSome_iff_exists.mp hsome
    rw [hh] at hlookup
    obtain ⟨o, -, hfind⟩ := hlookup
    rw [hfind]
    rfl
  unfold Auction.submit
  by_cases hfirst : a.instrumentCount ≤ r.instrument.value ∨ ¬ 0 < r.qty ∨
      (decide (r.type = .market) = false ∧ ¬ 0 < r.price) ∨
      (a.lookup r.account r.clOrdId).isSome = true
  · rw [if_pos hfirst]
  rw [if_neg hfirst]
  rcases hr with h | h | h | h | h
  · exact absurd (.inl (ha.instrumentCount ▸ h)) hfirst
  · exact absurd (.inr (.inl h)) hfirst
  · exact absurd (.inr (.inr (.inl ⟨decide_eq_false h.1, h.2⟩))) hfirst
  · exact absurd (.inr (.inr (.inr (hdup h)))) hfirst
  · rw [if_pos (by exact ⟨h.1, (ha.wouldCross hst.tiered r).trans h.2⟩)]

/-- A request that is taken in, in the auction. -/
theorem Shows.submit_enters (hst : Stands e L) (ha : Shows e L a)
    (henters : Enters e r) (hprice : r.type = .market ∨ 0 < r.price)
    (hcross : ¬ (r.type = .postOnly ∧ e.wouldCross r = true)) (hid : r.clOrdId.value < 2 ^ 48)
    {o : SimOrder} (now : Timestamp) (ho : o = r.order e.nextOrderId now) {a₁ : Auction}
    (ha₁ : a₁ = { a with nextOrderId := a.nextOrderId + 1 }) {t : Taker}
    (ht : t = o.taker (e.stp o.account o.instrument)) {sw : Swept}
    (hsw : sw = t.sweep o.leaves (a₁.queue o.instrument.value o.side.opposite)) :
    a.submit r =
      if r.type = .postOnly then a₁.finish o o.leaves
      else if sw.ended = true then a₁.taken o t
      else (a₁.taken o t).finish o sw.left := by
  have hlookup := ha.lookup hst r.account hid
  rw [henters.free] at hlookup
  have hfirst : ¬ (a.instrumentCount ≤ r.instrument.value ∨ ¬ 0 < r.qty ∨
      (decide (r.type = .market) = false ∧ ¬ 0 < r.price) ∨
      (a.lookup r.account r.clOrdId).isSome = true) := by
    rintro (h | h | h | h)
    · rw [ha.instrumentCount] at h
      exact absurd henters.instrument (not_lt.mpr h)
    · exact h henters.qty
    · exact hprice.elim (of_decide_eq_false h.1) h.2
    · simp [show a.lookup r.account r.clOrdId = none from hlookup] at h
  have hleaves : o.leaves = r.qty := by
    rw [ho]
    exact sub_zero r.qty
  have hparty : (⟨a.nextOrderId, r.account, r.clOrdId⟩ : Party) = o.party := by
    rw [ha.nextOrderId, ho]
    rfl
  unfold Auction.submit
  dsimp only
  rw [if_neg hfirst, if_neg (by exact fun h => hcross ⟨h.1, (ha.wouldCross hst.tiered r) ▸ h.2⟩),
    hparty]
  have htype : o.type = r.type := by rw [ho]; rfl
  have hplain : r.type ≠ .market → o.price = r.price ∧ o.tif = r.tif := by
    intro hm
    rw [ho]
    unfold NewOrder.order
    rw [decide_eq_false hm]
    exact ⟨rfl, rfl⟩
  have hplace : r.instrument = o.instrument ∧ r.side = o.side ∧ r.account = o.account := by
    rw [ho]
    exact ⟨rfl, rfl, rfl⟩
  rw [hplace.1, hplace.2.1, hplace.2.2, ← htype]
  by_cases hpost : o.type = .postOnly
  · have hm : r.type ≠ .market := by rw [← htype, hpost]; decide
    obtain ⟨hpx, htif⟩ := hplain hm
    rw [if_pos hpost, if_pos hpost, ← htif, ← hpx, ← hleaves, ha₁]
    unfold Auction.finish
    by_cases hioc : o.tif = .ioc
    · rw [if_pos hioc, if_pos (.inr (.inr hioc))]
    rw [if_neg hioc, if_neg ?_]
    rintro (h | h | h)
    · rw [hleaves] at h
      exact absurd henters.qty (by rw [h]; exact lt_irrefl _)
    · exact hm (htype ▸ h)
    · exact hioc h
  · rw [if_neg hpost, if_neg hpost]
    have htaker : (⟨o.party, o.side, if decide (o.type = .market) = true then none
        else some r.price, a.stp o.account o.instrument⟩ : Taker) = t := by
      rw [ht, ha.stp]
      unfold SimOrder.taker
      by_cases hm : o.type = .market
      · rw [if_pos hm, if_pos (decide_eq_true hm)]
      · rw [if_neg hm, if_neg (by simpa using hm), (hplain (htype ▸ hm)).1]
    rw [htaker, ← hleaves]
    have hqueue : a.queue o.instrument.value o.side.opposite =
        a₁.queue o.instrument.value o.side.opposite := by rw [ha₁]
    rw [hqueue, ← hsw]
    have htaken : ({ ({ a with nextOrderId := a.nextOrderId + 1 } : Auction).setQueue
        o.instrument.value o.side.opposite sw.queue with fills := a.fills ++ sw.fills } : Auction) =
          a₁.taken o t := by
      unfold Auction.taken
      rw [← hsw, ha₁]
    rw [htaken]
    unfold Auction.finish
    by_cases hended : sw.ended = true
    · rw [if_pos (.inl hended), if_pos hended]
    rw [if_neg hended]
    by_cases hm : o.type = .market
    · rw [if_pos (.inr (.inr (.inl (decide_eq_true hm)))), if_pos (.inr (.inl hm))]
    obtain ⟨hpx, htif⟩ := hplain (htype ▸ hm)
    rw [← hpx, ← htif]
    by_cases hgone : sw.left = 0 ∨ o.type = .market ∨ o.tif = .ioc
    · rw [if_pos hgone, if_pos ?_]
      exact .inr (hgone.imp_right (Or.imp_left decide_eq_true))
    rw [if_neg hgone, if_neg ?_]
    rintro (h | h | h | h)
    · exact hended h
    · exact hgone (.inl h)
    · exact hm (of_decide_eq_true h)
    · exact hgone (.inr (.inr h))

/-- An order that has entered, to its end. -/
theorem Entered.submitted (hen : Entered e L h o) (hpos : 0 < o.leaves) (post : Prop)
    [Decidable post] (hpost : post → ∀ g ∈ L o.instrument.value o.side.opposite,
      crosses o.side o.price g.1 = false) {market : Bool} (hm : market = true ↔ o.type = .market)
    (now : Timestamp) :
    ∃ L' calls e', e' = (if o.tif = .fok ∧ (e.fillable o < o.qty ∨
          (o.reduceOnly = true ∧ (e.reducible e.told o : Qty) < o.qty)) then
        (e.tell (.onCancel o .fok now)).freeOrder h o
      else if post then e.finish market h o now
      else
        match e.matchOrder h o now with
        | (false, e, _) => e
        | (true, e, o) => e.finish market h o now) ∧
      Stands e' L' ∧ Reports e calls e' ∧
      (o.tif ≠ .fok → ((e.book o.instrument).levels o.side).size < kMaxSimLevels →
        ∀ a, Shows e L a → ∀ t sw, t = o.taker (e.stp o.account o.instrument) →
          sw = t.sweep o.leaves (a.queue o.instrument.value o.side.opposite) →
          Shows e' L' (if post then a.finish o o.leaves
            else if sw.ended = true then a.taken o t
            else (a.taken o t).finish o sw.left)) := by
  by_cases hfok : o.tif = .fok ∧ (e.fillable o < o.qty ∨
      (o.reduceOnly = true ∧ (e.reducible e.told o : Qty) < o.qty))
  · have hrep : Reports e [.onCancel o .fok now] ((e.tell (.onCancel o .fok now)).freeOrder h o) :=
      Reports.quiet rfl rfl (fun _ => rfl) rfl rfl rfl
    obtain ⟨hst, -⟩ := hen.freeOrder rfl hrep rfl ⟨rfl, rfl, rfl, rfl, rfl⟩ rfl
    exact ⟨L, _, _, (if_pos hfok).symm, hst, hrep, absurd hfok.1⟩
  by_cases hp : post
  · obtain ⟨L', calls, hst, hrep, hshows⟩ := hen.finish rfl (le_of_lt hpos)
      (fun _ _ => hpost hp) hm now
    refine ⟨L', calls, _, by rw [if_neg hfok, if_pos hp], hst, hrep,
      fun hno hroom a ha t sw _ _ => ?_⟩
    rw [if_pos hp]
    exact hshows hno hroom a ha
  obtain ⟨L', calls, hrep, hsame, hnonneg, hother, hcase, hsweep⟩ := hen.sweep (le_of_lt hpos) now
  rw [if_neg hfok, if_neg hp]
  generalize e.matchOrder h o now = r at hrep hsame hnonneg hcase hsweep ⊢
  obtain ⟨ok, e₂, o'⟩ := r
  cases ok with
  | false =>
    refine ⟨L', calls, e₂, rfl, hcase, hrep, fun _ _ a ha t sw ht hsw => ?_⟩
    obtain ⟨hsw', hshows⟩ := hsweep a ha
    subst ht
    rw [if_neg hp, hsw, hsw']
    exact hshows
  | true =>
    obtain ⟨hen₂, hcross⟩ := hcase
    dsimp only at hsame
    have hinst : o'.instrument = o.instrument := by rw [hsame]
    have hside : o'.side = o.side := by rw [hsame]
    have hprice : o'.price = o.price := by rw [hsame]
    have htype : o'.type = o.type := by rw [hsame]
    have htif : o'.tif = o.tif := by rw [hsame]
    have hparty : o'.party = o.party := by rw [hsame]; rfl
    obtain ⟨L'', calls₂, hst, hrep₂, hshows₂⟩ := hen₂.finish hsame hnonneg (fun hleft hno => by
        rw [hinst, hside, hprice]
        exact hcross hleft (htype ▸ hno)) (by rw [htype]; exact hm) now
    refine ⟨L'', _, _, rfl, hst, hrep.trans hrep₂, fun hno hroom a ha t sw ht hsw => ?_⟩
    obtain ⟨hsw', hshows⟩ := hsweep a ha
    subst ht
    have hleft : sw.left = o'.leaves := by rw [hsw, hsw']
    have hended : sw.ended = false := by rw [hsw, hsw']; rfl
    rw [if_neg hp, if_neg (by rw [hended]; simp), hleft]
    have hown : ¬ (o.instrument.value = o.instrument.value ∧ o.side = o.side.opposite) := by
      rintro ⟨-, hs⟩
      exact absurd hs (by cases o.side <;> decide)
    have hsize : ((e₂.book o.instrument).levels o.side).size =
        ((e.book o.instrument).levels o.side).size := by
      show ((e₂.books o.instrument.value).levels o.side).data.length =
        ((e.books o.instrument.value).levels o.side).data.length
      rw [hen₂.tiered.levels, hen.tiered.levels, length_map, length_map, hother _ _ hown]
    have hfinish := hshows₂ (by rw [htif]; exact hno)
      (by rw [hinst, hside]; exact hsize ▸ hroom) _ hshows
    unfold Auction.finish at hfinish ⊢
    rw [hinst, hside, hprice, htype, htif, hparty] at hfinish
    exact hfinish

/-- No order of the other side would trade with a request that the best would not. -/
theorem not_wouldCross (ht : Tiered e L none) (h : e.wouldCross r = false) :
    ∀ g ∈ L r.instrument.value r.side.opposite, crosses r.side r.price g.1 = false := by
  refine not_crosses (ht.queues.sorted _ _) fun g hg => ?_
  have hbest : (e.book r.instrument).best r.side.opposite =
      some (OrderPool.levelOf e.pool g) := by
    rw [ht.best_eq, hg]
    rfl
  unfold MatchingEngine.wouldCross at h
  rw [hbest] at h
  exact h

/-- What a request that is not refused is. -/
theorem enters_of_not_refused (hno : ¬ Refused e r) :
    Enters e r ∧ (r.type = .market ∨ 0 < r.price) ∧
      ¬ (r.type = .postOnly ∧ e.wouldCross r = true) := by
  refine ⟨⟨not_le.mp fun h => hno (.inl h), not_not.mp fun h => hno (.inr (.inl h)), ?_⟩, ?_,
    fun h => hno (.inr (.inr (.inr (.inr h))))⟩
  · cases hk : e.byKey (orderKey r.account r.clOrdId) with
    | none => rfl
    | some k => exact absurd (.inr (.inr (.inr (.inl (by rw [hk]; rfl))))) hno
  · by_contra hbad
    obtain ⟨hm, hpx⟩ := not_or.mp hbad
    exact hno (.inr (.inr (.inl ⟨hm, hpx⟩)))

/-- A new order. -/
theorem Stands.submit (hst : Stands e L) (r : NewOrder) (now : Timestamp) :
    Steps e L (e.submit r now).2 (fun a => a.submit r) (Plain e r) := by
  by_cases href : Refused e r ∨ e.pool.allocate = none
  · obtain ⟨why, heq⟩ := submit_refused now href
    obtain ⟨L', calls, hst', hrep, hshows⟩ := Steps.tell hst (.onReject r why now) rfl
      (fun _ => rfl) True
    rw [heq]
    refine ⟨L', calls, hst', hrep, fun hp a ha => ?_⟩
    show Shows _ L' (a.submit r)
    rw [ha.submit_refused hst hp.id (href.resolve_right hp.slot)]
    exact hshows trivial a ha
  · obtain ⟨hno, halloc⟩ := not_or.mp href
    obtain ⟨⟨h, pool⟩, halloc⟩ := Option.ne_none_iff_exists'.mp halloc
    obtain ⟨henters, hprice, hcross⟩ := enters_of_not_refused hno
    obtain ⟨hen, hrep, -, hshows⟩ := hst.enter henters halloc now
    have hm : decide (r.type = .market) = true ↔ (r.order e.nextOrderId now).type = .market :=
      decide_eq_true_iff
    have hpos : 0 < (r.order e.nextOrderId now).leaves := by
      show 0 < r.qty - 0
      rw [sub_zero]
      exact henters.qty
    have hpost : r.type = .postOnly →
        ∀ g ∈ L (r.order e.nextOrderId now).instrument.value
            (r.order e.nextOrderId now).side.opposite,
          crosses (r.order e.nextOrderId now).side (r.order e.nextOrderId now).price
            g.1 = false := by
      intro hp g hg
      have hpx : (r.order e.nextOrderId now).price = r.price := by
        unfold NewOrder.order
        rw [hp]
        rfl
      rw [hpx]
      exact not_wouldCross hst.tiered (Bool.eq_false_iff.mpr fun h => hcross ⟨hp, h⟩) g hg
    obtain ⟨L', calls, e', he', hst', hrep', hshows'⟩ := hen.submitted hpos (r.type = .postOnly)
      hpost hm now
    have heq : (e.submit r now).2 = e' := by
      rw [submit_enters henters hprice hcross halloc, he']
    rw [heq]
    refine ⟨L', _, hst', hrep.trans hrep', fun hp a ha => ?_⟩
    have hauction := ha.submit_enters hst henters hprice hcross hp.id now rfl rfl rfl rfl
    show Shows e' L' (a.submit r)
    have hstp : (e.enter h pool r now).stp r.account r.instrument =
      e.stp r.account r.instrument := by
      unfold MatchingEngine.stp
      rw [hrep.stpTable, hrep.instrumentCount]
    have htif : (r.order e.nextOrderId now).tif ≠ .fok := by
      unfold NewOrder.order
      dsimp only
      split
      · decide
      · exact hp.tif
    rw [hauction]
    refine hshows' htif (hp.levels henters.instrument) _
      (hshows ⟨hp.reduceOnly, htif, hp.id⟩ a ha) _ _ ?_ rfl
    exact congrArg (SimOrder.taker _) hstp.symm

end FastMM.Sim
