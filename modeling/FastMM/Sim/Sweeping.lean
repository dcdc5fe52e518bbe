/-
  Sim/Sweeping.lean --- the sweep of one level, and of the levels a taker crosses.

  While a level is swept its record in the book is out of date: the sweep's own is that of the
  queue as it stands.  The orders before the walk have traded in part and stay, which happens only
  to makers and takers that are reduce-only, or when the taker is done.
-/
import FastMM.Sim.EngineSteps
import FastMM.Foundation.Sums
import Mathlib.Tactic.Linarith
set_option autoImplicit false

namespace FastMM.Sim

open Foundation Function Ladder List MatchingEngine OrderPool

/-! ## Totals -/

variable (e : MatchingEngine)

def totalBought : Qty := ∑ a ∈ Finset.range kMaxAccounts, (e.ledgers a).bought

def totalSold : Qty := ∑ a ∈ Finset.range kMaxAccounts, (e.ledgers a).sold

theorem ledgerOf_lt (account : AccountId) : ledgerOf account ∈ Finset.range kMaxAccounts := by
  rw [Finset.mem_range]
  unfold ledgerOf
  split
  · assumption
  · decide

/-- A sum over the accounts, one of them changed. -/
theorem sum_update (f : AccountId → AccountLedger) (g : AccountLedger → Qty) {k : AccountId}
    (hk : k ∈ Finset.range kMaxAccounts) (l : AccountLedger) :
    (∑ a ∈ Finset.range kMaxAccounts, g (update f k l a)) + g (f k) =
      (∑ a ∈ Finset.range kMaxAccounts, g (f a)) + g l := by
  have hsum := sum_add_eq_of_agree_off (f := fun a => g (f a))
    (g := fun a => g (update f k l a)) hk fun a _ ha => by
      rw [update_of_ne ha]
  rwa [update_self] at hsum

theorem total_recordLeg (o : SimOrder) (q : Qty) :
    totalBought (e.recordLeg o q) = totalBought e + (if o.side = .buy then q else 0) ∧
      totalSold (e.recordLeg o q) = totalSold e + (if o.side = .sell then q else 0) := by
  have hk := ledgerOf_lt o.account
  obtain ⟨l, hl, hbought, hsold⟩ : ∃ l,
      (e.recordLeg o q).ledgers = update e.ledgers (ledgerOf o.account) l ∧
      l.bought = (e.ledgers (ledgerOf o.account)).bought + (if o.side = .buy then q else 0) ∧
      l.sold = (e.ledgers (ledgerOf o.account)).sold + (if o.side = .sell then q else 0) := by
    refine ⟨_, rfl, ?_, ?_⟩
    · cases o.side <;> simp
    · cases o.side <;> simp
  have hb := sum_update e.ledgers AccountLedger.bought hk l
  have hs := sum_update e.ledgers AccountLedger.sold hk l
  unfold totalBought totalSold
  rw [hl]
  constructor
  · linarith
  · linarith

/-- What is bought is sold. -/
def Balanced : Prop := totalBought e = totalSold e

theorem Balanced.recordFill {e : MatchingEngine} (h : Balanced e) {maker taker : SimOrder}
    (hside : maker.side = taker.side.opposite) (q : Qty) :
    Balanced (e.recordFill maker taker q) := by
  unfold Balanced MatchingEngine.recordFill at *
  obtain ⟨hb, hs⟩ := total_recordLeg (e.recordLeg maker q) taker q
  obtain ⟨hb', hs'⟩ := total_recordLeg e maker q
  rw [hb, hs, hb', hs', h, hside]
  cases taker.side with
  | buy => simp [Side.opposite]
  | sell => simp [Side.opposite]

theorem Balanced.of_ledgers {e e' : MatchingEngine} (h : Balanced e)
    (hl : e'.ledgers = e.ledgers) : Balanced e' := by
  unfold Balanced totalBought totalSold at *
  rw [hl]
  exact h

/-! ## The level in a sweep -/

/-- The order in slot `h`, as the auction has it. -/
def OrderPool.view (pool : OrderPool) (h : Nat) : RestingOrder :=
  let o := (pool.slots h).getD default
  ⟨o.party, o.price, o.leaves, o.type, o.tif⟩

theorem view_eq {pool : OrderPool} {h : Nat} {o : SimOrder} (ho : pool.slots h = some o) :
    OrderPool.view pool h = ⟨o.party, o.price, o.leaves, o.type, o.tif⟩ := by
  unfold OrderPool.view
  rw [ho]
  rfl

theorem map_view_congr {pool pool' : OrderPool} {x : List Nat}
    (h : ∀ k ∈ x, pool'.slots k = pool.slots k) :
    x.map (OrderPool.view pool') = x.map (OrderPool.view pool) :=
  map_congr_left fun k hk => by
    unfold OrderPool.view
    rw [h k hk]

/-- The last level of side `s`, with the queue `x₀` in `e₀`, has the queue `x` in `e`, and `l` is
its record. -/
structure Sweeping (e₀ : MatchingEngine) (L : Ladder) (i : Nat) (s : Side) (A : List Group)
    (p : Price) (x₀ : List Nat) (th : Nat) (e : MatchingEngine) (l : PriceLevel) (x : List Nat) :
    Prop where
  queues : Queues e.pool e.links e.byKey (L.set i s (A ++ [(p, x)])) (some th)
  level : l = levelOf e.pool (p, x)
  books : e.books = e₀.books
  slots : ∀ k, k ∉ x₀ → e.pool.slots k = e₀.pool.slots k
  sub : ∀ k ∈ x, k ∈ x₀
  nextOrderId : e.nextOrderId = e₀.nextOrderId

namespace Sweeping

variable {e₀ e e' : MatchingEngine} {L : Ladder} {i : Nat} {s : Side} {A : List Group} {p : Price}
  {x₀ x y : List Nat} {th mh : Nat} {l l' : PriceLevel} {maker : SimOrder}

theorem waits (hs : Sweeping e₀ L i s A p x₀ th e l x) (hm : mh ∈ x) :
    ∃ o, OrderPool.Waits e.pool mh i s p o :=
  (hs.queues.placed i s (p, x) (by rw [set_self]; simp) mh hm).2

/-- A maker is taken out of the queue and freed. -/
theorem takeOut (hs : Sweeping e₀ L i s A p x₀ th e l (x ++ mh :: y))
    (hm : e.pool.slots mh = some maker) (hpool : e'.pool = e.pool.free mh)
    (hlinks : e'.links = e.links.unlink mh)
    (hkeys : e'.byKey = update e.byKey (orderKey maker.account maker.clOrdId) none)
    (hbooks : e'.books = e.books) (hnext : e'.nextOrderId = e.nextOrderId)
    (hl : l' = levelOf e.pool (p, x ++ y)) :
    Sweeping e₀ L i s A p x₀ th e' l' (x ++ y) := by
  have hset := set_self L i s (A ++ [(p, x ++ mh :: y)])
  have hremove := hs.queues.remove hset hm
  rw [Ladder.set_set] at hremove
  have hslots : ∀ k, k ≠ mh → (e.pool.free mh).slots k = e.pool.slots k := fun k hk => by
    rw [Pool.slots_free hm, if_neg hk]
  have hnodup := hs.queues.nodup i s (p, x ++ mh :: y) (by rw [hset]; simp)
  rw [nodup_middle] at hnodup
  constructor
  · rw [hpool, hlinks, hkeys]
    exact hremove
  · rw [hl, hpool]
    exact (levelOf_congr fun k hk => hslots k fun he =>
      (nodup_cons.mp hnodup).1 (he ▸ hk)).symm
  · exact hbooks.trans hs.books
  · intro k hk
    have hne : k ≠ mh := fun he => hk (he ▸ hs.sub mh (mem_append_right x mem_cons_self))
    rw [hpool, hslots k hne]
    exact hs.slots k hk
  · intro k hk
    refine hs.sub k ?_
    rcases mem_append.mp hk with hx | hy
    · exact mem_append_left _ hx
    · exact mem_append_right x (mem_cons_of_mem mh hy)
  · exact hnext.trans hs.nextOrderId

/-- A step that leaves orders and books alone. -/
theorem of_same (hs : Sweeping e₀ L i s A p x₀ th e l x) (hpool : e'.pool = e.pool)
    (hlinks : e'.links = e.links) (hkeys : e'.byKey = e.byKey) (hbooks : e'.books = e.books)
    (hnext : e'.nextOrderId = e.nextOrderId) : Sweeping e₀ L i s A p x₀ th e' l x := by
  constructor
  · rw [hpool, hlinks, hkeys]
    exact hs.queues
  · rw [hpool]
    exact hs.level
  · exact hbooks.trans hs.books
  · intro k hk
    rw [hpool]
    exact hs.slots k hk
  · exact hs.sub
  · exact hnext.trans hs.nextOrderId

/-- A maker leaves without trading, `old` being its record in the pool. -/
theorem dropMaker {w : Sweep} {old : SimOrder}
    (hs : Sweeping e₀ L i s A p x₀ th w.engine l (x ++ mh :: y))
    (hm : w.engine.pool.slots mh = some old)
    (hkey : orderKey maker.account maker.clOrdId = orderKey old.account old.clOrdId)
    (hlevel : { w.level with qty := w.level.qty - maker.leaves } =
      { l with qty := l.qty - old.leaves }) (why : CancelReason) (now : Timestamp) :
    Sweeping e₀ L i s A p x₀ th (w.dropMaker mh maker why now).engine
        (w.dropMaker mh maker why now).level (x ++ y) ∧
      Reports w.engine [.onCancel maker why now] (w.dropMaker mh maker why now).engine := by
  have hchain := hs.queues.chain i s (p, x ++ mh :: y) (by rw [set_self]; simp)
  have hl : (w.dropMaker mh maker why now).level = levelOf w.engine.pool (p, x ++ y) := by
    show (w.engine.unlink mh { w.level with qty := w.level.qty - maker.leaves }).2 = _
    rw [hlevel]
    refine unlink_level hchain hm ?_
    rw [hs.level]
  refine ⟨hs.takeOut hm rfl rfl ?_ rfl rfl hl, Reports.quiet rfl rfl (fun _ => rfl) rfl rfl rfl⟩
  rw [← hkey]
  rfl

/-- A maker trades `q` of its leaves: it is gone with the last of them, or when it is reduce-only
and has nothing more to reduce. -/
theorem trade {w : Sweep} (hs : Sweeping e₀ L i s A p x₀ th w.engine w.level (x ++ mh :: y))
    (hm : w.engine.pool.slots mh = some maker) {q : Qty} (hq : q ≤ maker.leaves)
    (hside : maker.side = w.taker.side.opposite) (hbal : Balanced w.engine) (px : Price)
    (now : Timestamp) :
    ∃ calls, Reports w.engine calls (w.trade mh maker px q now).engine ∧
      fillsOf calls = [⟨maker.party, w.taker.party, px, q⟩] ∧
      Balanced (w.trade mh maker px q now).engine ∧
      (w.trade mh maker px q now).taker = { w.taker with cumQty := w.taker.cumQty + q } ∧
      (w.trade mh maker px q now).takerDone = w.takerDone ∧
      (w.trade mh maker px q now).takerReduced = w.takerReduced ∧
      ((maker.leaves = q ∨ maker.reduceOnly = true) ∧
          Sweeping e₀ L i s A p x₀ th (w.trade mh maker px q now).engine
            (w.trade mh maker px q now).level (x ++ y) ∧
          (w.trade mh maker px q now).engine.pool = w.engine.pool.free mh ∨
        maker.leaves ≠ q ∧
          Sweeping e₀ L i s A p x₀ th (w.trade mh maker px q now).engine
            (w.trade mh maker px q now).level (x ++ mh :: y) ∧
          (w.trade mh maker px q now).engine.pool =
            w.engine.pool.set mh { maker with cumQty := maker.cumQty + q }) := by
  obtain ⟨maker', hmaker⟩ : ∃ m : SimOrder, m = { maker with cumQty := maker.cumQty + q } :=
    ⟨_, rfl⟩
  obtain ⟨taker', htaker⟩ : ∃ t : SimOrder, t = { w.taker with cumQty := w.taker.cumQty + q } :=
    ⟨_, rfl⟩
  obtain ⟨e₂, he₂⟩ : ∃ e₂ : MatchingEngine, e₂ =
      ({ (w.engine.recordFill maker' taker' q).tell (.onFill maker' taker' px q now) with
        nextTradeId := w.engine.nextTradeId + 1 } : MatchingEngine).tell
          (.onTrade taker'.instrument px q taker'.side w.engine.nextTradeId now) := ⟨_, rfl⟩
  have hleaves : maker'.leaves = maker.leaves - q := by
    rw [hmaker]
    exact sub_add_eq_sub_sub maker.qty maker.cumQty q
  have hsame : Sweeping e₀ L i s A p x₀ th e₂ w.level (x ++ mh :: y) := by
    rw [he₂]
    exact hs.of_same rfl rfl rfl rfl rfl
  have hm₂ : e₂.pool.slots mh = some maker := by
    rw [he₂]
    exact hm
  have hbal₂ : Balanced e₂ := by
    rw [he₂]
    have hsides : maker'.side = taker'.side.opposite := by
      rw [hmaker, htaker]
      exact hside
    exact (hbal.recordFill hsides q).of_ledgers rfl
  have hrep : Reports w.engine [.onFill maker' taker' px q now,
      .onTrade taker'.instrument px q taker'.side w.engine.nextTradeId now] e₂ := by
    rw [he₂]
    refine Reports.quiet rfl ?_ (fun _ => rfl) rfl rfl rfl
    exact append_assoc _ [_] [_]
  have hfill : fillsOf [.onFill maker' taker' px q now,
      .onTrade taker'.instrument px q taker'.side w.engine.nextTradeId now] =
        [⟨maker.party, w.taker.party, px, q⟩] := by
    rw [hmaker, htaker]
    rfl
  have hkey : orderKey maker'.account maker'.clOrdId = orderKey maker.account maker.clOrdId := by
    rw [hmaker]
  have hchain := hs.queues.chain i s (p, x ++ mh :: y) (by rw [set_self]; simp)
  have hchain₂ : Links.Chain e₂.links none (x ++ mh :: y) := by
    rw [he₂]
    exact hchain
  have htrade : w.trade mh maker px q now =
      if maker'.leaves = 0 then
        { w with
          engine := (e₂.unlink mh { w.level with qty := w.level.qty - q }).1.freeOrder mh maker'
          level := (e₂.unlink mh { w.level with qty := w.level.qty - q }).2
          taker := taker' }
      else if maker'.reduceOnly = true ∧ e₂.reducible e₂.told maker' = 0 then
        { w with
          engine := e₂
          level := { w.level with qty := w.level.qty - q }
          taker := taker' : Sweep }.dropMaker mh maker' .reduceOnly now
      else
        { w with
          engine := { e₂ with pool := e₂.pool.set mh maker' }
          level := { w.level with qty := w.level.qty - q }
          taker := taker' } := by
    rw [he₂, htaker, hmaker]
    rfl
  rw [htrade]
  by_cases hgone : maker'.leaves = 0
  · rw [if_pos hgone]
    have hall : maker.leaves = q := by
      rw [hleaves] at hgone
      exact Int.sub_eq_zero.mp hgone
    have hl : (e₂.unlink mh { w.level with qty := w.level.qty - q }).2 =
        levelOf e₂.pool (p, x ++ y) := by
      refine unlink_level hchain₂ hm₂ ?_
      rw [hsame.level, hall]
    have hend : Reports e₂ [] ((e₂.unlink mh { w.level with qty := w.level.qty - q }).1.freeOrder
        mh maker') := Reports.quiet rfl (append_nil _).symm (fun _ => rfl) rfl rfl rfl
    refine ⟨_, hrep.trans hend, hfill, hbal₂.of_ledgers rfl, htaker, rfl, rfl,
      .inl ⟨.inl hall, ?_, ?_⟩⟩
    · refine hsame.takeOut hm₂ rfl rfl ?_ rfl rfl hl
      rw [← hkey]
      rfl
    · rw [he₂]
      rfl
  · rw [if_neg hgone]
    have hne : maker.leaves ≠ q := fun he => hgone (by rw [hleaves, he]; exact Int.sub_self q)
    split_ifs with hreduce
    · have hlevel : { w.level with qty := w.level.qty - q - maker'.leaves } =
          { w.level with qty := w.level.qty - maker.leaves } := by
        have hsub : w.level.qty - q - (maker.leaves - q) = w.level.qty - maker.leaves :=
          sub_sub_sub_cancel_right w.level.qty maker.leaves q
        rw [hleaves, hsub]
      obtain ⟨hdrop, hrep'⟩ := Sweeping.dropMaker (w := { w with
          engine := e₂, level := { w.level with qty := w.level.qty - q }, taker := taker' })
        hsame hm₂ hkey hlevel .reduceOnly now
      refine ⟨_, hrep.trans hrep', ?_, hbal₂.of_ledgers rfl, htaker, rfl, rfl,
        .inl ⟨.inr ?_, hdrop, ?_⟩⟩
      · rw [fillsOf_append, hfill]
        rfl
      · rw [hmaker] at hreduce
        exact hreduce.1
      · rw [he₂]
        rfl
    · have hend : Reports e₂ [] { e₂ with pool := e₂.pool.set mh maker' } :=
        Reports.quiet rfl (append_nil _).symm (fun _ => rfl) rfl rfl rfl
      refine ⟨_, hrep.trans hend, hfill, hbal₂.of_ledgers rfl, htaker, rfl, rfl, .inr ⟨hne, ?_, ?_⟩⟩
      · have hslots := Pool.slots_set (o := maker') hm₂
        obtain ⟨-, o₁, ho₁⟩ := hsame.queues.placed i s (p, x ++ mh :: y)
          (by rw [set_self]; simp) mh (mem_append_right x mem_cons_self)
        obtain rfl := Option.some.inj (hm₂.symm.trans ho₁.slot)
        have hpos : 0 < maker'.leaves := by
          rw [hleaves]
          exact Int.sub_pos_of_lt (lt_of_le_of_ne hq hne.symm)
        constructor
        · refine hsame.queues.rewrite hm₂ (by rw [hmaker]) (by rw [hmaker]) (by rw [hmaker])
            (fun _ => hpos) ?_
          exact hsame.queues.keys_set hm₂ maker' hkey
        · have hnodup := hsame.queues.nodup i s (p, x ++ mh :: y) (by rw [set_self]; simp)
          rw [levelOf_set hnodup hm₂ hleaves, ← hsame.level]
        · exact hsame.books
        · intro k hk
          have hne : k ≠ mh := fun he =>
            hk (he ▸ hsame.sub mh (mem_append_right x mem_cons_self))
          exact (hslots k).trans ((if_neg hne).trans (hsame.slots k hk))
        · exact hsame.sub
        · exact hsame.nextOrderId
      · rw [he₂, hmaker]
        rfl

end Sweeping

end FastMM.Sim
