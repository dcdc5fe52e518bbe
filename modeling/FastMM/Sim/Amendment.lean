/-
  Sim/Amendment.lean --- an order changed where it stands, a replacement, and the cancel of an
  account's newest quantity.
-/
import FastMM.Sim.Submission
set_option autoImplicit false

namespace FastMM.Sim

open Foundation Function List MatchingEngine OrderPool

variable {e e₁ : MatchingEngine} {L : Ladder} {i : Nat} {s : Side} {p : Price} {h : Nat}
  {o o' : SimOrder} {A B : List Group} {x y : List Nat} {a : Auction} {account : AccountId}
variable {orig newId : ClientOrderId}

/-! ## In place -/

theorem regrouped_self (A B : List Group) (p : Price) (x y : List Nat) (h : Nat) :
    regrouped A p (x ++ h :: y) B = A ++ (p, x ++ h :: y) :: B := if_neg (by simp)

/-- The order in slot `h` is written anew, with `q` less, and its level with it. -/
theorem Tiered.rewriteLevel (ht : Tiered e L none) (e₁ : MatchingEngine) (o' : SimOrder)
    (hL : L i s = A ++ (p, x ++ h :: y) :: B)
    (ho : e.pool.slots h = some o) (hinst : o'.instrument = o.instrument)
    (hside : o'.side = o.side) (hprice : o'.price = o.price) (hpos : 0 < o'.leaves) {q : Qty}
    (hleaves : o'.leaves = o.leaves - q) (hpool : e₁.pool = e.pool.set h o')
    (hlinks : e₁.links = e.links) (hbooks : e₁.books = e.books)
    (hkeys : ∀ k h', e₁.byKey k = some h' ↔
      ∃ o₁, (e.pool.set h o').slots h' = some o₁ ∧ orderKey o₁.account o₁.clOrdId = k)
    {id : InstrumentId} (hi : id.value = i) {l : PriceLevel}
    (hl : l = { levelOf e.pool (p, x ++ h :: y) with
      qty := (levelOf e.pool (p, x ++ h :: y)).qty - q }) :
    Tiered (e₁.settleLevel id s A.length l) L none ∧
      MatchingEngine.SameOrders e₁ (e₁.settleLevel id s A.length l) ∧
      ∃ calls, Reports e₁ calls (e₁.settleLevel id s A.length l) ∧ fillsOf calls = [] := by
  have hg : (p, x ++ h :: y) ∈ L i s := by
    rw [hL]
    simp
  have hslots : ∀ k, k ≠ h → (e.pool.set h o').slots k = e.pool.slots k := fun k hk =>
    (Pool.slots_set ho k).trans (if_neg hk)
  obtain ⟨hthis, hother⟩ := ht.queues.same_levels hL (by simp : h ∈ x ++ h :: y) hslots
  have hl' : l = levelOf (e.pool.set h o') (p, x ++ h :: y) := by
    rw [hl, levelOf_set (ht.queues.nodup i s _ hg) ho hleaves]
  obtain ⟨hlev, hsame, q', u, hrep⟩ := settle_levels (e := e₁) (l := l) (fun i s => by
    unfold levelsOf
    rw [hbooks]
    exact ht.levels i s) hi hL (ht.queues.prices_ne hL) hthis hother hl'
  rw [regrouped_self, ← hL, Ladder.set_eq] at hlev
  refine ⟨⟨?_, fun i' s' => ?_, ht.full⟩, hsame, _, hrep, rfl⟩
  · rw [hsame.pool, hsame.links, hsame.byKey, hpool, hlinks]
    exact ht.queues.rewrite ho hinst hside hprice (fun _ => hpos) hkeys
  · rw [hsame.pool, hpool]
    exact hlev i' s'

/-- A level written back as it is. -/
theorem setBook_setLevel_self {id : InstrumentId} {C D : List PriceLevel} {l : PriceLevel}
    (hdata : ((e.book id).levels s).data = C ++ l :: D) :
    e.setBook id ((e.book id).setLevel s C.length l) = e := by
  have hset : ((e.book id).levels s).data.set C.length l = ((e.book id).levels s).data := by
    rw [hdata, set_append_right _ _ (Nat.le_refl _), Nat.sub_self]
    rfl
  have hvec : ((e.book id).levels s).set C.length l = (e.book id).levels s := by
    show (⟨((e.book id).levels s).data.set C.length l, _⟩ : Levels) =
      ⟨((e.book id).levels s).data, _⟩
    congr 1
  unfold SimBook.setLevel SimBook.setLevels
  rw [hvec, update_eq_self]
  unfold setBook MatchingEngine.book
  rw [update_eq_self]

/-- The order of an amendment. -/
def SimOrder.amended (o : SimOrder) (orderId : Nat) (id : ClientOrderId) (qty : Qty)
    (now : Timestamp) : SimOrder :=
  { o with orderId := orderId, clOrdId := id, qty := qty, cumQty := 0, created := now }

/-- An order amended in place, and its level with it. -/
theorem Stands.amend_levels (hst : Stands e L) {qty : Qty}
    (now : Timestamp) (hkey : e.byKey (orderKey account orig) = some h)
    (ho : e.pool.slots h = some o) (hqty : 0 < qty)
    (hfree : e.byKey (orderKey account newId) = none)
    (he₁ : e₁ = { e.tell (.onCancel o .replaced now) with
      nextOrderId := e.nextOrderId + 1
      pool := e.pool.set h (o.amended e.nextOrderId newId qty now)
      byKey := update (update e.byKey (orderKey account orig) none)
        (orderKey account newId) (some h) }) :
    ∃ e₂ calls, (e.amend h o account orig newId qty now).2 =
        e₂.tell (.onAck (o.amended e.nextOrderId newId qty now) now) ∧
      Tiered e₂ L none ∧ MatchingEngine.SameOrders e₁ e₂ ∧ Reports e₁ calls e₂ ∧
      fillsOf calls = [] := by
  obtain ⟨o₁, ho₁, hown⟩ := (hst.tiered.queues.keys _ h).mp hkey
  obtain rfl := Option.some.inj (ho.symm.trans ho₁)
  have haccount : o.account = account := orderKey_account hown
  obtain ⟨A, x, y, B, hL⟩ := hst.tiered.queues.place ho
  obtain ⟨hfind, hget⟩ := hst.tiered.find_eq rfl hL
  have hkeys := hst.tiered.queues.keys_rename ho
    (o.amended e.nextOrderId newId qty now) newId rfl rfl (by rw [haccount]; exact hfree)
  rw [hown, haccount] at hkeys
  obtain ⟨l, hl⟩ : ∃ l : PriceLevel, l =
      { levelOf e.pool (o.price, x ++ h :: y) with
        qty := (levelOf e.pool (o.price, x ++ h :: y)).qty - (o.leaves - qty) } :=
    ⟨_, rfl⟩
  have hleaves : (o.amended e.nextOrderId newId qty now).leaves = qty := sub_zero qty
  obtain ⟨ht, hsame, calls, hrep, hfills⟩ := hst.tiered.rewriteLevel e₁
    (o.amended e.nextOrderId newId qty now) hL ho rfl rfl rfl (by rw [hleaves]; exact hqty)
    (q := o.leaves - qty) (by rw [hleaves, sub_sub_cancel]) (by rw [he₁]) (by rw [he₁]; rfl)
    (by rw [he₁]; rfl) (fun k h' => by rw [he₁]; exact hkeys k h') rfl hl
  have hcount : l.count ≠ 0 := by
    rw [hl]
    show (x ++ h :: y).length ≠ 0
    simp
  have hbook : e₁.book o.instrument = e.book o.instrument := by rw [he₁]; rfl
  have hamend : (e.amend h o account orig newId qty now).2 =
      (if qty = o.leaves then
        e₁.setBook o.instrument ((e₁.book o.instrument).setLevel o.side A.length l)
      else
        (e₁.setBook o.instrument ((e₁.book o.instrument).setLevel o.side A.length l)).bookChanged
          o.instrument o.side l.price l.qty).tell
        (.onAck (o.amended e.nextOrderId newId qty now) now) := by
    have hfind' : ((e.tell (.onCancel o .replaced now)).book o.instrument).find o.side o.price =
        some A.length := hfind
    have hget' : (((e.tell (.onCancel o .replaced now)).book o.instrument).levels o.side).get
        A.length = levelOf e.pool (o.price, x ++ h :: y) := hget
    unfold MatchingEngine.amend
    dsimp only
    rw [hfind']
    dsimp only [Option.getD_some]
    rw [hget', hl, he₁]
    rfl
  by_cases hsameQty : qty = o.leaves
  · have hl' : l = levelOf e.pool (o.price, x ++ h :: y) := by
      rw [hl, hsameQty, sub_self, sub_zero]
    have hdata : ((e₁.book o.instrument).levels o.side).data =
        A.map (levelOf e.pool) ++ l :: B.map (levelOf e.pool) := by
      rw [hbook, hl']
      exact hst.tiered.levelsOf_eq hL
    have hself := setBook_setLevel_self hdata
    rw [length_map] at hself
    rw [if_pos hsameQty, hself] at hamend
    refine ⟨e₁, [], hamend, ⟨?_, fun i s => ?_, ht.full⟩, ⟨rfl, rfl, rfl, rfl, rfl⟩,
      Reports.refl e₁, rfl⟩
    · have hq := ht.queues
      rw [hsame.pool, hsame.links, hsame.byKey] at hq
      exact hq
    · have hlev := ht.levels i s
      unfold settleLevel at hlev
      rw [if_neg hcount, hself] at hlev
      exact (e₁.levelsOf_bookChanged o.instrument o.side l.price l.qty i s).symm.trans hlev
  · rw [if_neg hsameQty] at hamend
    have hsettle : e₁.settleLevel o.instrument o.side A.length l =
        (e₁.setBook o.instrument ((e₁.book o.instrument).setLevel o.side A.length l)).bookChanged
          o.instrument o.side l.price l.qty := if_neg hcount
    rw [← hsettle] at hamend
    exact ⟨_, calls, hamend, ht, hsame, hrep, hfills⟩

/-- A queue whose one order of an id is rewritten. -/
theorem map_own {f : RestingOrder → RestingOrder} {id : ClientOrderId} {u v : List RestingOrder}
    {w : RestingOrder} (hw : w.is account id = true) (hu : ∀ w ∈ u, w.is account id = false)
    (hv : ∀ w ∈ v, w.is account id = false) :
    (u ++ w :: v).map (fun w => if w.is account id = true then f w else w) = u ++ f w :: v := by
  have hsame : ∀ q : List RestingOrder, (∀ w ∈ q, w.is account id = false) →
      q.map (fun w => if w.is account id = true then f w else w) = q := by
    intro q hq
    refine (map_congr_left fun w hw => ?_).trans (map_id q)
    rw [hq w hw]
    rfl
  rw [map_about, hsame u hu, hsame v hv, if_pos hw]

/-- An amendment in place. -/
theorem Stands.amend (hst : Stands e L) {qty : Qty} (now : Timestamp)
    (hkey : e.byKey (orderKey account orig) = some h) (ho : e.pool.slots h = some o)
    (hqty : 0 < qty) (hfree : e.byKey (orderKey account newId) = none) :
    Steps e L (e.amend h o account orig newId qty now).2
      (fun a => { a.setQueue o.instrument.value o.side ((a.queue o.instrument.value o.side).map
          fun w' => if w'.is account orig = true then
            { w' with party := ⟨a.nextOrderId, account, newId⟩, leaves := qty }
          else w') with
        nextOrderId := a.nextOrderId + 1 })
      (orig.value < 2 ^ 48 ∧ newId.value < 2 ^ 48) := by
  obtain ⟨e₁, he₁⟩ : ∃ e₁ : MatchingEngine, e₁ = { e.tell (.onCancel o .replaced now) with
      nextOrderId := e.nextOrderId + 1
      pool := e.pool.set h (o.amended e.nextOrderId newId qty now)
      byKey := update (update e.byKey (orderKey account orig) none)
        (orderKey account newId) (some h) } := ⟨_, rfl⟩
  obtain ⟨e₂, calls, heq, ht, hsame, hrep, hfills⟩ := hst.amend_levels now hkey ho hqty hfree he₁
  rw [heq]
  obtain ⟨o₀, ho₀, hown⟩ := (hst.tiered.queues.keys _ h).mp hkey
  obtain rfl := Option.some.inj (ho.symm.trans ho₀)
  have haccount : o.account = account := orderKey_account hown
  have hslots := Pool.slots_set (o := o.amended e.nextOrderId newId qty now) ho
  have hpool : e₂.pool = e.pool.set h (o.amended e.nextOrderId newId qty now) := by
    rw [hsame.pool, he₁]
  have hfirst : Reports e [.onCancel o .replaced now] e₁ := by
    rw [he₁]
    exact Reports.quiet rfl rfl (fun _ => rfl) rfl rfl rfl
  have hlast : Reports e₂ [.onAck (o.amended e.nextOrderId newId qty now) now]
      (e₂.tell (.onAck (o.amended e.nextOrderId newId qty now) now)) :=
    Reports.quiet rfl rfl (fun _ => rfl) rfl rfl rfl
  have hreports := (hfirst.trans hrep).trans hlast
  have hcases : ∀ k o₁, e₂.pool.slots k = some o₁ →
      (k = h ∧ o₁ = o.amended e.nextOrderId newId qty now) ∨ e.pool.slots k = some o₁ := by
    intro k o₁ ho₁
    rw [hpool, hslots] at ho₁
    split at ho₁
    · exact .inl ⟨‹_›, (Option.some.inj ho₁).symm⟩
    · exact .inr ho₁
  refine ⟨L, _, ⟨⟨ht.queues, ht.levels, ht.full⟩, ?_, hst.uncrossed, fun k o₁ ho₁ => ?_⟩, hreports,
    fun hids a ha => ?_⟩
  · refine Balanced.of_ledgers (e := e) hst.balanced ?_
    show e₂.ledgers = e.ledgers
    rw [hsame.ledgers, he₁]
    rfl
  · rw [hreports.instrumentCount]
    rcases hcases k o₁ ho₁ with ⟨-, rfl⟩ | ho₁
    · exact hst.within h o ho
    · exact hst.within k o₁ ho₁
  have hq := hst.tiered.queues
  obtain ⟨A, x, y, B, hL⟩ := hq.place ho
  have hothers := hq.not_mem_flat hL
  obtain ⟨-, hsides⟩ := hq.not_mem_others (z := h) hL (by simp)
  have hset := ha.queue_set o.instrument.value o.side (L o.instrument.value o.side) e₂.pool
    fun i s hne g hg k hk => by
      have hkh : k ≠ h := fun he => hsides i s hne g hg (he ▸ hk)
      rw [hpool, hslots, if_neg hkh]
  rw [Ladder.set_eq] at hset
  have hqueue : (a.queue o.instrument.value o.side).map (fun w' =>
      if w'.is account orig = true then
        { w' with party := ⟨a.nextOrderId, account, newId⟩, leaves := qty }
      else w') = (flat (L o.instrument.value o.side)).map (OrderPool.view e₂.pool) := by
    obtain ⟨hown, hu, hv⟩ := ha.about hst hids.1 hkey hL
    have hview : ∀ q : List Nat, (∀ k ∈ q, k ∈ (flat B ++ x) ++ (y ++ flat A)) →
        q.map (OrderPool.view e₂.pool) = q.map (OrderPool.view e.pool) := by
      intro q hq
      refine map_view_congr fun k hk => ?_
      have hkh : k ≠ h := fun he => hothers (he ▸ hq k hk)
      rw [hpool, hslots, if_neg hkh]
    rw [ha.queue, hL, flat_about, map_about, map_own hown hu hv, map_about,
      hview _ fun k hk => mem_append_left _ hk,
      hview _ fun k hk => mem_append_right _ hk]
    have hnew : OrderPool.view e₂.pool h = { OrderPool.view e.pool h with
        party := ⟨a.nextOrderId, account, newId⟩, leaves := qty } := by
      have hslot : e₂.pool.slots h = some (o.amended e.nextOrderId newId qty now) := by
        rw [hpool, hslots, if_pos rfl]
      rw [view_eq hslot, view_eq ho, ha.nextOrderId, ← haccount]
      show (⟨_, _, qty - 0, _, _⟩ : RestingOrder) = _
      rw [sub_zero]
      rfl
    rw [hnew]
  show Shows _ L { a.setQueue o.instrument.value o.side ((a.queue o.instrument.value o.side).map
    fun w' => if w'.is account orig = true then
      { w' with party := ⟨a.nextOrderId, account, newId⟩, leaves := qty } else w') with
    nextOrderId := a.nextOrderId + 1 }
  rw [hqueue]
  refine ha.step hreports rfl rfl ?_ ?_ hset fun k o₁ ho₁ => ?_
  · rw [fillsOf_append, fillsOf_append, hfills]
    exact (append_nil _).symm
  · show a.nextOrderId + 1 = e₂.nextOrderId
    rw [hsame.nextOrderId, he₁, ha.nextOrderId]
  rcases hcases k o₁ ho₁ with ⟨-, rfl⟩ | ho₁
  · obtain ⟨hreduce, htif, -⟩ := ha.allowed h o ho
    exact ⟨hreduce, htif, hids.2⟩
  · exact ha.allowed k o₁ ho₁

/-! ## Replacement -/

/-- A slot that is free lets a pool give one. -/
theorem allocate_of_free {pool : OrderPool} (ho : pool.slots h = some o) :
    (pool.free h).allocate ≠ none := by
  intro hnone
  obtain ⟨o', ho'⟩ := Pool.allocate_eq_none hnone h (Pool.lt_of_live ho)
  rw [Pool.slots_free ho, if_pos rfl] at ho'
  nomatch ho'

/-- No side's table is full. -/
def MatchingEngine.LevelsRoom (e : MatchingEngine) : Prop :=
  ∀ i, i < e.instrumentCount → ∀ s ∈ [Side.buy, .sell], ((e.books i).levels s).size < kMaxSimLevels

instance (e : MatchingEngine) : Decidable e.LevelsRoom :=
  inferInstanceAs (Decidable (∀ i, i < e.instrumentCount → ∀ s ∈ [Side.buy, .sell],
    ((e.books i).levels s).size < kMaxSimLevels))

theorem MatchingEngine.LevelsRoom.size {e : MatchingEngine} (hr : e.LevelsRoom) {i : Nat}
    (hi : i < e.instrumentCount) (s : Side) : ((e.books i).levels s).size < kMaxSimLevels :=
  hr i hi s (by cases s <;> simp)

theorem Stands.replace (hst : Stands e L) (account : AccountId) (orig newId : ClientOrderId)
    (price : Price) (qty : Qty) (now : Timestamp) :
    Steps e L (e.replace account orig newId price qty now).2
      (fun a => a.replace account orig newId price qty)
      (orig.value < 2 ^ 48 ∧ newId.value < 2 ^ 48 ∧ e.LevelsRoom) := by
  have hlookup := fun a (ha : Shows e L a) (hid : orig.value < 2 ^ 48) => ha.lookup hst account hid
  have hfree := fun a (ha : Shows e L a) (hid : newId.value < 2 ^ 48) => ha.lookup hst account hid
  unfold MatchingEngine.replace
  cases hkey : e.byKey (orderKey account orig) with
  | none =>
    obtain ⟨L₁, calls₁, hst₁, hrep₁, hshows₁⟩ := Steps.tell hst
      (.onCancelReject account orig .invalid now) rfl (fun _ => rfl) True
    obtain ⟨L₂, calls₂, hst₂, hrep₂, hshows₂⟩ := Steps.tell hst₁
      (.onReject { account := account, clOrdId := newId, price := price, qty := qty }
        .venueUnknownOrder now) rfl (fun _ => rfl) True
    refine ⟨L₂, _, hst₂, hrep₁.trans hrep₂, fun hids a ha => ?_⟩
    have hnone := hlookup a ha hids.1
    rw [hkey] at hnone
    show Shows _ L₂ (a.replace account orig newId price qty)
    unfold Auction.replace
    rw [show a.lookup account orig = none from hnone]
    exact hshows₂ trivial a (hshows₁ trivial a ha)
  | some h =>
    obtain ⟨o, ho, -⟩ := (hst.tiered.queues.keys _ h).mp hkey
    have hauction : ∀ a, Shows e L a → orig.value < 2 ^ 48 → newId.value < 2 ^ 48 →
        a.lookup account orig = some (o.instrument.value, o.side, OrderPool.view e.pool h) ∧
          ((a.lookup account newId).isNone = true ↔
            (e.byKey (orderKey account newId)).isNone = true) := by
      intro a ha hid hid'
      have hfound := hlookup a ha hid
      rw [hkey] at hfound
      obtain ⟨o', ho', hfind⟩ := hfound
      obtain rfl := Option.some.inj (ho.symm.trans ho')
      refine ⟨hfind, ?_⟩
      have hnew := hfree a ha hid'
      cases hk : e.byKey (orderKey account newId) with
      | none =>
        rw [hk] at hnew
        rw [show a.lookup account newId = none from hnew]
        exact Iff.rfl
      | some k =>
        rw [hk] at hnew
        obtain ⟨o', -, hfind'⟩ := hnew
        rw [hfind']
        simp
    dsimp only
    rw [ho, Option.getD_some]
    split_ifs with hkeeps
    · obtain ⟨L', calls, hst', hrep, hshows⟩ := hst.amend now hkey ho hkeeps.1
        (Option.isNone_iff_eq_none.mp hkeeps.2.2.2)
      refine ⟨L', calls, hst', hrep, fun hids a ha => ?_⟩
      obtain ⟨hfind, hnew⟩ := hauction a ha hids.1 hids.2.1
      show Shows _ L' (a.replace account orig newId price qty)
      unfold Auction.replace
      rw [hfind]
      dsimp only
      rw [if_pos ⟨hkeeps.1, by rw [view_eq ho]; exact hkeeps.2.1,
        by rw [view_eq ho]; exact hkeeps.2.2.1, hnew.mpr hkeeps.2.2.2⟩]
      exact hshows ⟨hids.1, hids.2.1⟩ a ha
    · obtain ⟨L₁, calls₁, hst₁, hrep₁, hpool, hlen, hshows₁⟩ := hst.removeResting ho .replaced now
      obtain ⟨L₂, calls₂, hst₂, hrep₂, hshows₂⟩ := hst₁.submit
        ⟨account, newId, o.instrument, o.side, o.type, o.tif, price, qty, o.reduceOnly⟩ now
      refine ⟨L₂, _, hst₂, hrep₁.trans hrep₂, fun hids a ha => ?_⟩
      obtain ⟨hfind, hnew⟩ := hauction a ha hids.1 hids.2.1
      obtain ⟨hreduce, htif, -⟩ := ha.allowed h o ho
      show Shows _ L₂ (a.replace account orig newId price qty)
      unfold Auction.replace
      rw [hfind]
      dsimp only
      rw [if_neg (by
        rintro ⟨hq, hp, hle, hnone⟩
        rw [view_eq ho] at hp hle
        exact hkeeps ⟨hq, hp, hle, hnew.mp hnone⟩)]
      have hplain : Plain (e.removeResting h o .replaced now)
          ⟨account, newId, o.instrument, o.side, o.type, o.tif, price, qty, o.reduceOnly⟩ := by
        refine ⟨hreduce, htif, hids.2.1, ?_, ?_⟩
        · rw [hpool]
          exact allocate_of_free ho
        intro _
        have hroom := hids.2.2.size (hst.within h o ho) o.side
        show (((e.removeResting h o .replaced now).books o.instrument.value).levels
          o.side).data.length < _
        rw [hst₁.tiered.levels, length_map]
        refine lt_of_le_of_lt (hlen _ _) ?_
        rwa [StaticVector.size, hst.tiered.levels, length_map] at hroom
      have hstep := hshows₂ hplain _ (hshows₁ a account orig ha hids.1 hkey)
      rw [view_eq ho]
      rw [hreduce] at hstep ⊢
      exact hstep

end FastMM.Sim
