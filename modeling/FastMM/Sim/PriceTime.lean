/-
  Sim/PriceTime.lean --- the matching engine is a price-time auction.

  Over any run of operations without reduce-only and fill-or-kill orders, in which nothing is
  full, the engine's fills and queues are those of the auction.
-/
import FastMM.Sim.Reduction
set_option autoImplicit false

namespace FastMM.Sim

open Foundation Function List

/-! ## Operations -/

inductive EngineOp where
  | submit (o : NewOrder)
  | cancel (account : AccountId) (id : ClientOrderId)
  | replace (account : AccountId) (orig newId : ClientOrderId) (price : Price) (qty : Qty)
  | reduceAccountQty (account : AccountId) (id : InstrumentId) (side : Side) (px : Price)
      (qty : Qty)
  | setStp (account : AccountId) (mode : StpMode)
  | setStpOn (account : AccountId) (id : InstrumentId) (mode : StpMode)
  deriving DecidableEq, Repr

namespace EngineOp

/-- An operation without reduce-only and fill-or-kill orders, of ids the key has room for. -/
def Plain : EngineOp → Prop
  | .submit o => o.reduceOnly = false ∧ o.tif ≠ .fok ∧ o.clOrdId.value < 2 ^ 48
  | .cancel _ id => id.value < 2 ^ 48
  | .replace _ orig newId _ _ => orig.value < 2 ^ 48 ∧ newId.value < 2 ^ 48
  | _ => True

instance (op : EngineOp) : Decidable op.Plain := by
  cases op <;> unfold Plain <;> infer_instance

end EngineOp

def MatchingEngine.play (e : MatchingEngine) (op : EngineOp) (now : Timestamp) : MatchingEngine :=
  match op with
  | .submit o => (e.submit o now).2
  | .cancel account id => (e.cancel account id now).2
  | .replace account orig newId price qty => (e.replace account orig newId price qty now).2
  | .reduceAccountQty account id side px qty => e.reduceAccountQty account id side px qty now
  | .setStp account mode => e.setStp account mode
  | .setStpOn account id mode => e.setStpOn account id mode

def Auction.play (a : Auction) (op : EngineOp) : Auction :=
  match op with
  | .submit o => a.submit o
  | .cancel account id => a.cancel account id
  | .replace account orig newId price qty => a.replace account orig newId price qty
  | .reduceAccountQty account id side px qty => a.reduceAccountQty account id side px qty
  | .setStp account mode => a.setStp account mode
  | .setStpOn account id mode => a.setStpOn account id mode

/-- Operations and their times. -/
def MatchingEngine.run (e : MatchingEngine) (ops : List (EngineOp × Timestamp)) : MatchingEngine :=
  ops.foldl (fun e op => e.play op.1 op.2) e

def Auction.run (a : Auction) (ops : List (EngineOp × Timestamp)) : Auction :=
  ops.foldl (fun a op => a.play op.1) a

/-- Neither the order pool nor a side's table is full. -/
def MatchingEngine.Room (e : MatchingEngine) : Prop :=
  e.pool.allocate.isSome = true ∧ e.LevelsRoom

instance (e : MatchingEngine) : Decidable e.Room :=
  inferInstanceAs (Decidable (_ ∧ _))

/-- A run in which nothing is full when an operation comes. -/
def MatchingEngine.RoomyRun : MatchingEngine → List (EngineOp × Timestamp) → Prop
  | _, [] => True
  | e, op :: ops => e.Room ∧ RoomyRun (e.play op.1 op.2) ops

instance decidableRoomyRun :
    ∀ (e : MatchingEngine) (ops : List (EngineOp × Timestamp)), Decidable (e.RoomyRun ops)
  | _, [] => isTrue trivial
  | e, op :: ops =>
    haveI := decidableRoomyRun (e.play op.1 op.2) ops
    inferInstanceAs (Decidable (e.Room ∧ (e.play op.1 op.2).RoomyRun ops))

/-! ## One operation -/

variable {e : MatchingEngine} {L : Ladder} {a : Auction} {i : Nat} {s : Side}

/-- A table of modes replaced. -/
theorem Stands.modes (hst : Stands e L) {e' : MatchingEngine} {a' : Auction → Auction}
    (htable : e' = { e with stpTable := e'.stpTable })
    (hauction : ∀ a, Shows e L a → a' a = { a with stp := (a' a).stp } ∧
      ∀ account id, (a' a).stp account id = e'.stp account id) :
    Stands e' L ∧ ∀ a, Shows e L a → Shows e' L (a' a) := by
  refine ⟨?_, fun a ha => ?_⟩
  · rw [htable]
    exact ⟨⟨hst.tiered.queues, hst.tiered.levels, hst.tiered.full⟩, hst.balanced, hst.uncrossed,
      hst.within⟩
  obtain ⟨hsame, hstp⟩ := hauction a ha
  have hshows : Shows e' L { a with stp := (a' a).stp } := by
    refine ⟨fun i s => ?_, hstp, ?_, ?_, ?_, ?_⟩
    · rw [htable]
      exact ha.queue i s
    · rw [htable]
      exact ha.nextOrderId
    · rw [htable]
      exact ha.instrumentCount
    · rw [htable]
      exact ha.fills
    · rw [htable]
      exact ha.allowed
  rw [hsame]
  exact hshows

theorem setStp_table (e : MatchingEngine) (account : AccountId) (mode : StpMode) :
    e.setStp account mode = { e with stpTable := (e.setStp account mode).stpTable } := by
  unfold MatchingEngine.setStp
  split <;> rfl

theorem setStpOn_table (e : MatchingEngine) (account : AccountId) (id : InstrumentId)
    (mode : StpMode) :
    e.setStpOn account id mode = { e with stpTable := (e.setStpOn account id mode).stpTable } := by
  unfold MatchingEngine.setStpOn
  split <;> rfl

theorem Tells.modes {e' : MatchingEngine} (htable : e' = { e with stpTable := e'.stpTable }) :
    Tells e [] e' := by
  rw [htable]
  exact ⟨(append_nil _).symm, fun _ _ _ => rfl, fun _ => rfl, fun _ => rfl, rfl⟩

theorem Stands.setStp (hst : Stands e L) (account : AccountId) (mode : StpMode) :
    Stands (e.setStp account mode) L ∧
      ∀ a, Shows e L a → Shows (e.setStp account mode) L (a.setStp account mode) := by
  refine hst.modes (setStp_table e account mode) fun a ha => ⟨rfl, fun account' id => ?_⟩
  · show (if account' = account ∧ account' < kMaxAccounts ∧ id.value < a.instrumentCount then mode
      else a.stp account' id) = _
    rw [ha.stp, ha.instrumentCount]
    by_cases hfull : kMaxAccounts ≤ account
    · rw [show e.setStp account mode = e from if_pos hfull, if_neg]
      rintro ⟨rfl, hin, -⟩
      exact absurd hin (not_lt.mpr hfull)
    have htable : e.setStp account mode = { e with
        stpTable := fun i a =>
          if i < e.instrumentCount ∧ a = account then mode else e.stpTable i a } := if_neg hfull
    rw [htable]
    unfold MatchingEngine.stp
    dsimp only
    by_cases hin : account' < kMaxAccounts ∧ id.value < e.instrumentCount
    · rw [if_pos hin, if_pos hin]
      by_cases haccount : account' = account
      · rw [if_pos ⟨haccount, hin⟩, if_pos ⟨hin.2, haccount⟩]
      · rw [if_neg fun h => haccount h.1, if_neg fun h => haccount h.2]
    · rw [if_neg hin, if_neg hin, if_neg fun h => hin h.2]

theorem Stands.setStpOn (hst : Stands e L) (account : AccountId) (id : InstrumentId)
    (mode : StpMode) :
    Stands (e.setStpOn account id mode) L ∧
      ∀ a, Shows e L a → Shows (e.setStpOn account id mode) L (a.setStpOn account id mode) := by
  refine hst.modes (setStpOn_table e account id mode) fun a ha => ⟨rfl, fun account' id' => ?_⟩
  · show (if account' = account ∧ id' = id ∧ account' < kMaxAccounts ∧
      id'.value < a.instrumentCount then mode else a.stp account' id') = _
    rw [ha.stp, ha.instrumentCount]
    by_cases hset : account < kMaxAccounts ∧ id.value < e.instrumentCount
    · have htable : e.setStpOn account id mode = { e with
          stpTable := update e.stpTable id.value
            (update (e.stpTable id.value) account mode) } := if_pos hset
      rw [htable]
      unfold MatchingEngine.stp
      dsimp only
      by_cases hin : account' < kMaxAccounts ∧ id'.value < e.instrumentCount
      · rw [if_pos hin, if_pos hin]
        by_cases hid : id' = id
        · subst hid
          rw [update_self]
          by_cases haccount : account' = account
          · subst haccount
            rw [update_self, if_pos ⟨rfl, rfl, hin⟩]
          · rw [update_of_ne haccount, if_neg fun h => haccount h.1]
        · have hvalue : id'.value ≠ id.value := fun h => hid (congrArg InstrumentId.mk h)
          rw [update_of_ne hvalue, if_neg fun h => hid h.2.1]
      · rw [if_neg hin, if_neg hin, if_neg fun h => hin h.2.2]
    · rw [show e.setStpOn account id mode = e from if_neg hset, if_neg]
      rintro ⟨rfl, rfl, hin⟩
      exact hset hin

/-- One operation. -/
theorem Stands.play (hst : Stands e L) (op : EngineOp) (now : Timestamp) :
    ∃ L' calls, Stands (e.play op now) L' ∧ Tells e calls (e.play op now) ∧
      (op.Plain → e.Room → ∀ a, Shows e L a → Shows (e.play op now) L' (a.play op)) := by
  cases op with
  | submit o =>
    obtain ⟨L', calls, hst', hrep, hshows⟩ := hst.submit o now
    refine ⟨L', calls, hst', hrep.toTells, fun hp hroom a ha => hshows ?_ a ha⟩
    obtain ⟨hreduce, htif, hid⟩ := hp
    obtain ⟨hslot, hlevels⟩ := hroom
    exact ⟨hreduce, htif, hid, Option.isSome_iff_ne_none.mp hslot, fun hi => hlevels.size hi _⟩
  | cancel account id =>
    obtain ⟨L', calls, hst', hrep, hshows⟩ := hst.cancel account id now
    exact ⟨L', calls, hst', hrep.toTells, fun hp _ a ha => hshows hp a ha⟩
  | replace account orig newId price qty =>
    obtain ⟨L', calls, hst', hrep, hshows⟩ := hst.replace account orig newId price qty now
    exact ⟨L', calls, hst', hrep.toTells,
      fun hp hroom a ha => hshows ⟨hp.1, hp.2, hroom.2⟩ a ha⟩
  | reduceAccountQty account id side px qty =>
    obtain ⟨L', calls, hst', hrep, hshows⟩ := hst.reduceAccountQty account id side px qty now
    exact ⟨L', calls, hst', hrep.toTells, fun _ _ a ha => hshows trivial a ha⟩
  | setStp account mode =>
    obtain ⟨hst', hshows⟩ := hst.setStp account mode
    exact ⟨L, [], hst', Tells.modes (setStp_table e account mode), fun _ _ a ha => hshows a ha⟩
  | setStpOn account id mode =>
    obtain ⟨hst', hshows⟩ := hst.setStpOn account id mode
    exact ⟨L, [], hst', Tells.modes (setStpOn_table e account id mode), fun _ _ a ha => hshows a ha⟩

/-! ## Runs -/

/-- An engine before its first operation. -/
theorem stands_create (n : Nat) (reducible : List SinkCall → SimOrder → Nat) :
    Stands (MatchingEngine.create n reducible) fun _ _ => [] := by
  refine ⟨⟨⟨fun i s => List.Pairwise.nil, ?_, ?_, ?_, ?_, ?_⟩, fun i s => rfl, ?_⟩, rfl, ?_, ?_⟩
  · exact fun i s g hg => absurd hg not_mem_nil
  · exact fun i s g hg => absurd hg not_mem_nil
  · exact fun i s g hg => absurd hg not_mem_nil
  · exact fun h o ho => absurd ho (by simp [MatchingEngine.create])
  · intro k h
    exact ⟨fun hk => absurd hk (by simp [MatchingEngine.create]),
      fun ⟨o, ho, _⟩ => absurd ho (by simp [MatchingEngine.create])⟩
  · exact fun i s g hg => absurd hg not_mem_nil
  · exact fun i b hb => absurd hb not_mem_nil
  · exact fun k o ho => absurd ho (by simp [MatchingEngine.create])

theorem shows_create (n : Nat) (reducible : List SinkCall → SimOrder → Nat) :
    Shows (MatchingEngine.create n reducible) (fun _ _ => []) (Auction.create n) := by
  refine ⟨fun i s => rfl, fun account id => ?_, rfl, rfl, rfl, fun k o ho => ?_⟩
  · unfold MatchingEngine.stp
    split <;> rfl
  · exact absurd ho (by simp [MatchingEngine.create])

/-- Every run, whatever its operations. -/
theorem Stands.run (hst : Stands e L) (ops : List (EngineOp × Timestamp)) :
    ∃ L' calls, Stands (e.run ops) L' ∧ Tells e calls (e.run ops) ∧
      ((∀ op ∈ ops, op.1.Plain) → e.RoomyRun ops →
        ∀ a, Shows e L a → Shows (e.run ops) L' (a.run ops)) := by
  induction ops generalizing e L with
  | nil => exact ⟨L, [], hst, Tells.refl e, fun _ _ a ha => ha⟩
  | cons op ops ih =>
    obtain ⟨L₁, calls₁, hst₁, htells₁, hshows₁⟩ := hst.play op.1 op.2
    obtain ⟨L₂, calls₂, hst₂, htells₂, hshows₂⟩ := ih hst₁
    refine ⟨L₂, _, hst₂, htells₁.trans htells₂, fun hplain hroom a ha => ?_⟩
    refine hshows₂ (fun op hop => hplain op (mem_cons_of_mem _ hop)) hroom.2 _ ?_
    exact hshows₁ (hplain op mem_cons_self) hroom.1 a ha

/-! ## What a level shows -/

/-- An order as it rests. -/
def SimOrder.resting (o : SimOrder) : RestingOrder := ⟨o.party, o.price, o.leaves, o.type, o.tif⟩

theorem flat_eq (gs : List Group) : flat gs = gs.reverse.flatMap Prod.snd := by
  induction gs with
  | nil => rfl
  | cons g gs ih =>
    rw [flat, ih, reverse_cons, flatMap_append, flatMap_singleton]

/-- The orders of a chain. -/
theorem fifo_eq {p : Option Nat} {x : List Nat} (hchain : Links.Chain e.links p x)
    (hlive : ∀ k ∈ x, ∃ o, e.pool.slots k = some o) {n : Nat} (hn : x.length ≤ n) :
    e.fifo n x.head? = x.map fun k => (e.pool.slots k).getD default := by
  induction x generalizing p n with
  | nil => cases n <;> rfl
  | cons k x ih =>
    obtain ⟨m, rfl⟩ : ∃ m, n = m + 1 := ⟨n - 1, by rw [length_cons] at hn; omega⟩
    obtain ⟨o, ho⟩ := hlive k mem_cons_self
    obtain ⟨-, hnext, hrest⟩ := hchain
    rw [head?_cons, MatchingEngine.fifo, ho, hnext, map_cons, ho]
    rw [ih hrest (fun k hk => hlive k (mem_cons_of_mem _ hk)) (Nat.le_of_succ_le_succ hn)]
    rfl

theorem Tiered.fifo_eq {out : Option Nat} (ht : Tiered e L out) {g : Group} (hg : g ∈ L i s) :
    e.fifo kMaxSimOrders (OrderPool.levelOf e.pool g).head =
      g.2.map fun k => (e.pool.slots k).getD default :=
  FastMM.Sim.fifo_eq (ht.queues.chain i s g hg)
    (fun k hk => ((ht.queues.placed i s g hg k hk).2).imp fun _ ho => ho.slot)
    (ht.queues.length_le hg)

theorem Tiered.resting_eq {out : Option Nat} (ht : Tiered e L out) (id : InstrumentId) (s : Side) :
    e.resting id s = (flat (L id.value s)).map fun k => (e.pool.slots k).getD default := by
  show (((e.books id.value).levels s).data.reverse.flatMap _) = _
  rw [ht.levels, flat_eq, map_flatMap, ← map_reverse, flatMap_map]
  refine flatMap_congr fun g hg => ?_
  exact ht.fifo_eq (mem_reverse.mp hg)

/-- Levels are sums of their orders, the handle map has the resting orders, the book is not crossed,
and what is bought is sold. -/
structure WellKept (e : MatchingEngine) : Prop where
  levels : ∀ id s, ∀ l ∈ ((e.book id).levels s).data,
    l.qty = ((e.fifo kMaxSimOrders l.head).map SimOrder.leaves).sum ∧
      l.count = (e.fifo kMaxSimOrders l.head).length ∧ 0 < l.count ∧
      ∀ o ∈ e.fifo kMaxSimOrders l.head, o.price = l.price
  live : ∀ k h, e.byKey k = some h → ∃ o, e.pool.slots h = some o
  ids : ∀ k o, (∃ h, e.byKey k = some h ∧ e.pool.slots h = some o) ↔
    orderKey o.account o.clOrdId = k ∧ ∃ id s, o ∈ e.resting id s
  uncrossed : ∀ id b a, (e.book id).best .buy = some b → (e.book id).best .sell = some a →
    b.price < a.price
  balanced : totalBought e = totalSold e

theorem Stands.wellKept (hst : Stands e L) : WellKept e := by
  have ht := hst.tiered
  have hq := ht.queues
  refine ⟨fun id s l hl => ?_, fun k h hk => ?_, fun k o => ⟨?_, ?_⟩, fun id b a hb ha => ?_,
    hst.balanced⟩
  · have hdata : ((e.book id).levels s).data = (L id.value s).map (OrderPool.levelOf e.pool) :=
      ht.levels id.value s
    rw [hdata] at hl
    obtain ⟨g, hg, rfl⟩ := mem_map.mp hl
    rw [ht.fifo_eq hg]
    refine ⟨?_, (length_map _).symm, length_pos_iff.mpr (ht.full _ _ g hg),
      fun o ho => ?_⟩
    · rw [map_map]
      refine congrArg List.sum (map_congr_left fun k hk => ?_)
      obtain ⟨-, o, ho⟩ := hq.placed _ _ g hg k hk
      rw [leavesAt_eq ho.slot]
      show _ = ((e.pool.slots k).getD default).leaves
      rw [ho.slot]
      rfl
    · obtain ⟨k, hk, rfl⟩ := mem_map.mp ho
      obtain ⟨-, o, ho⟩ := hq.placed _ _ g hg k hk
      rw [ho.slot]
      exact ho.price
  · obtain ⟨o, ho, -⟩ := (hq.keys k h).mp hk
    exact ⟨o, ho⟩
  · rintro ⟨h, hk, ho⟩
    obtain ⟨o', ho', hkey⟩ := (hq.keys k h).mp hk
    obtain rfl := Option.some.inj (ho.symm.trans ho')
    obtain ⟨g, hg, hh⟩ := hq.queued h o ho (by simp)
    refine ⟨hkey, o.instrument, o.side, ?_⟩
    rw [ht.resting_eq]
    exact mem_map.mpr ⟨h, mem_flat.mpr ⟨g, hg, hh⟩, by rw [ho]; rfl⟩
  · rintro ⟨hkey, id, s, ho⟩
    rw [ht.resting_eq] at ho
    obtain ⟨h, hh, rfl⟩ := mem_map.mp ho
    obtain ⟨g, hg, hhg⟩ := mem_flat.mp hh
    obtain ⟨-, o, hw⟩ := hq.placed _ _ g hg h hhg
    rw [hw.slot] at hkey ⊢
    exact ⟨h, (hq.keys k h).mpr ⟨o, hw.slot, hkey⟩, hw.slot⟩
  · have hbest : ∀ s l, (e.book id).best s = some l → ∃ g ∈ L id.value s, g.1 = l.price := by
      intro s l hl
      have hmem : l ∈ ((e.book id).levels s).data := mem_of_getLast? hl
      rw [show ((e.book id).levels s).data = _ from ht.levels id.value s] at hmem
      obtain ⟨g, hg, rfl⟩ := mem_map.mp hmem
      exact ⟨g, hg, rfl⟩
    obtain ⟨gb, hgb, hpb⟩ := hbest .buy b hb
    obtain ⟨ga, hga, hpa⟩ := hbest .sell a ha
    rw [← hpb, ← hpa]
    exact hst.uncrossed id.value gb hgb ga hga

/-- The matching engine refines the auction. -/
theorem plays_auction (n : Nat) (reducible : List SinkCall → SimOrder → Nat)
    (ops : List (EngineOp × Timestamp)) (hplain : ∀ op ∈ ops, op.1.Plain)
    (hroom : (MatchingEngine.create n reducible).RoomyRun ops) :
    fillsOf ((MatchingEngine.create n reducible).run ops).told =
        ((Auction.create n).run ops).fills ∧
      (∀ id s, (((MatchingEngine.create n reducible).run ops).resting id s).map SimOrder.resting =
        ((Auction.create n).run ops).queue id.value s) ∧
      WellKept ((MatchingEngine.create n reducible).run ops) := by
  obtain ⟨L, calls, hst, -, hshows⟩ := (stands_create n reducible).run ops
  have ha := hshows hplain hroom _ (shows_create n reducible)
  refine ⟨ha.fills.symm, fun id s => ?_, hst.wellKept⟩
  rw [hst.tiered.resting_eq, map_map, ha.queue]
  rfl

/-- Whatever operations come, reduce-only and fill-or-kill orders among them: every level carries
what its orders have left, handles and orders agree, no book is crossed, and as much was bought as
sold. -/
theorem run_wellKept (n : Nat) (reducible : List SinkCall → SimOrder → Nat)
    (ops : List (EngineOp × Timestamp)) :
    WellKept ((MatchingEngine.create n reducible).run ops) := by
  obtain ⟨L, calls, hst, -⟩ := (stands_create n reducible).run ops
  exact hst.wellKept

/-- Two makers of a price, self-trade prevention, an amendment and a replacement. -/
def auctionDay : List (EngineOp × Timestamp) :=
  [(.setStp 2 .cancelMaker, 1), (.submit ⟨1, ⟨1⟩, ⟨0⟩, .sell, .limit, .gtc, 100, 5, false⟩, 2),
    (.submit ⟨2, ⟨1⟩, ⟨0⟩, .sell, .postOnly, .gtc, 100, 4, false⟩, 3),
    (.submit ⟨3, ⟨1⟩, ⟨0⟩, .sell, .limit, .gtc, 101, 7, false⟩, 4),
    (.replace 1 ⟨1⟩ ⟨2⟩ 100 3, 5),
    (.submit ⟨2, ⟨2⟩, ⟨0⟩, .buy, .limit, .gtc, 101, 6, false⟩, 6),
    (.reduceAccountQty 3 ⟨0⟩ .sell 101 2, 7),
    (.cancel 3 ⟨1⟩, 8)]

theorem plays_auction_auctionDay :
    fillsOf ((MatchingEngine.create 1 fun _ _ => 0).run auctionDay).told =
      [⟨⟨4, 1, ⟨2⟩⟩, ⟨5, 2, ⟨2⟩⟩, 100, 3⟩, ⟨⟨3, 3, ⟨1⟩⟩, ⟨5, 2, ⟨2⟩⟩, 101, 3⟩] := by
  obtain ⟨hfills, -⟩ := plays_auction 1 (fun _ _ => 0) auctionDay (by decide) (by decide +kernel)
  rw [hfills]
  decide +kernel

end FastMM.Sim
