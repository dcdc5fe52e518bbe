/-
  Sim/OrderEntry.lean --- each operation of the matching engine, and of the auction.

  `Stands` is what holds between operations of any kind.  `Shows` relates the engine to an
  auction, and is kept by the operations of both while no order is reduce-only or fill-or-kill
  and nothing is full.
-/
import FastMM.Sim.TakerSweep
set_option autoImplicit false

namespace FastMM.Sim

open Foundation Function List Pool

variable {e e' : MatchingEngine} {L : Ladder} {i : Nat} {s : Side} {p : Price} {h : Nat}
  {o : SimOrder} {A B : List Group} {x y : List Nat} {a : Auction} {account : AccountId}
  {id : ClientOrderId}
variable {calls : List SinkCall}
variable {w : RestingOrder}
variable {gs : List Group}
variable {o' : SimOrder}

/-! ## Keys -/

theorem orderKey_account {account account' : AccountId} {id id' : ClientOrderId}
    (h : orderKey account id = orderKey account' id') : account = account' := by
  have hdiv : ∀ (account : AccountId) (id : ClientOrderId),
      orderKey account id / 2 ^ 48 = account := by
    intro account id
    unfold orderKey
    rw [Nat.mul_comm, Nat.mul_add_div (Nat.two_pow_pos 48),
      Nat.div_eq_of_lt (Nat.mod_lt _ (Nat.two_pow_pos 48)), Nat.add_zero]
  rw [← hdiv account id, ← hdiv account' id', h]

/-- An id below `2 ^ 48` is told from the others by its key. -/
theorem orderKey_inj {account account' : AccountId} {id id' : ClientOrderId}
    (hid : id.value < 2 ^ 48) (hid' : id'.value < 2 ^ 48)
    (h : orderKey account id = orderKey account' id') : account = account' ∧ id = id' := by
  have haccount := orderKey_account h
  unfold orderKey at h
  rw [Nat.mod_eq_of_lt hid, Nat.mod_eq_of_lt hid', haccount] at h
  refine ⟨haccount, ?_⟩
  have hvalue : id.value = id'.value := Nat.add_left_cancel h
  cases id
  cases id'
  simpa using hvalue

/-! ## Between operations -/

/-- Bids are below asks. -/
def Uncrossed (L : Ladder) : Prop := ∀ i, ∀ b ∈ L i .buy, ∀ a ∈ L i .sell, b.1 < a.1

/-- A side whose prices were there before. -/
theorem Uncrossed.set (hu : Uncrossed L)
    (hgs : ∀ g ∈ gs, ∃ g' ∈ L i s, g'.1 = g.1) : Uncrossed (L.set i s gs) := by
  have hold : ∀ i' s', ∀ g ∈ L.set i s gs i' s', ∃ g' ∈ L i' s', g'.1 = g.1 :=
    Ladder.forall_set (P := fun i' s' gs => ∀ g ∈ gs, ∃ g' ∈ L i' s', g'.1 = g.1) L i s gs
      (fun i' s' g hg => ⟨g, hg, rfl⟩) hgs
  intro j b hb c hc
  obtain ⟨b', hb', heb⟩ := hold j .buy b hb
  obtain ⟨c', hc', hec⟩ := hold j .sell c hc
  rw [← heb, ← hec]
  exact hu j b' hb' c' hc'

structure Stands (e : MatchingEngine) (L : Ladder) : Prop where
  tiered : Tiered e L none
  balanced : Balanced e
  uncrossed : Uncrossed L
  within : ∀ k o, e.pool.slots k = some o → o.instrument.value < e.instrumentCount

/-- An order is on its price's queue. -/
theorem Queues.place {pool : OrderPool} {links : Links} {byKey : Nat → Option Nat}
    (hq : Queues pool links byKey L none) (ho : pool.slots h = some o) :
    ∃ A x y B, L o.instrument.value o.side = A ++ (o.price, x ++ h :: y) :: B := by
  obtain ⟨⟨p, z⟩, hg, hh⟩ := hq.queued h o ho (by simp)
  obtain ⟨-, o', hw⟩ := hq.placed _ _ _ hg h hh
  obtain rfl := Option.some.inj (ho.symm.trans hw.slot)
  obtain ⟨A, B, hL⟩ := append_of_mem hg
  obtain ⟨x, y, rfl⟩ := append_of_mem hh
  exact ⟨A, x, y, B, by rw [hL, show o.price = p from hw.price]⟩

/-- An order as the auction has them. -/
structure Allowed (o : SimOrder) : Prop where
  reduceOnly : o.reduceOnly = false
  tif : o.tif ≠ .fok
  id : o.clOrdId.value < 2 ^ 48

/-- The auction that the engine plays. -/
structure Shows (e : MatchingEngine) (L : Ladder) (a : Auction) : Prop where
  queue : ∀ i s, a.queue i s = (flat (L i s)).map (OrderPool.view e.pool)
  stp : ∀ account id, a.stp account id = e.stp account id
  nextOrderId : a.nextOrderId = e.nextOrderId
  instrumentCount : a.instrumentCount = e.instrumentCount
  fills : a.fills = fillsOf e.told
  allowed : ∀ k o, e.pool.slots k = some o → Allowed o

theorem Shows.plain (ha : Shows e L a) : OrderPool.Plain e.pool :=
  fun k o ho => (ha.allowed k o ho).reduceOnly

theorem Shows.ids (ha : Shows e L a) (k : Nat) (o : SimOrder) (ho : e.pool.slots k = some o) :
    o.clOrdId.value < 2 ^ 48 := (ha.allowed k o ho).id

/-- Orders that were there, some filled further. -/
theorem Shows.allowed_filled (ha : Shows e L a) {pool' : OrderPool}
    (hfilled : OrderPool.FilledTo e.pool pool') (k : Nat) (o : SimOrder)
    (ho : pool'.slots k = some o) : Allowed o := by
  obtain ⟨o₁, ho₁, he⟩ := hfilled k o ho
  obtain ⟨hreduce, htif, hid⟩ := ha.allowed k o₁ ho₁
  rw [he]
  exact ⟨hreduce, htif, hid⟩

/-! ## Lookup -/

/-- The order of a key among those that wait. -/
theorem view_is (hq : Queues e.pool e.links e.byKey L none)
    (hids : ∀ k o, e.pool.slots k = some o → o.clOrdId.value < 2 ^ 48) (hid : id.value < 2 ^ 48)
    {g : Group} (hg : g ∈ L i s) {k : Nat} (hk : k ∈ g.2) :
    (OrderPool.view e.pool k).is account id = true ↔ e.byKey (orderKey account id) = some k := by
  obtain ⟨-, o, ho⟩ := hq.placed i s g hg k hk
  rw [view_eq ho.slot, hq.keys]
  unfold RestingOrder.is SimOrder.party
  rw [decide_eq_true_iff]
  constructor
  · rintro ⟨haccount, hoid⟩
    exact ⟨o, ho.slot, by rw [← haccount, ← hoid]⟩
  · rintro ⟨o', ho', hkey⟩
    obtain rfl := Option.some.inj (ho.slot.symm.trans ho')
    exact orderKey_inj (hids k o ho.slot) hid hkey

/-- Who is found is on the queue it is found on. -/
theorem mem_of_lookup {i : Nat} {s : Side}
    (hfind : a.lookup account id = some (i, s, w)) : w ∈ a.queue i s ∧ w.is account id = true := by
  have hmem := mem_of_find?_eq_some hfind
  refine ⟨?_, by simpa using find?_some hfind⟩
  obtain ⟨j, -, hj⟩ := mem_flatMap.mp hmem
  rcases mem_append.mp hj with hb | hs
  · obtain ⟨w', hw', heq⟩ := mem_map.mp hb
    simp only [Prod.mk.injEq] at heq
    obtain ⟨rfl, rfl, rfl⟩ := heq
    exact hw'
  · obtain ⟨w', hw', heq⟩ := mem_map.mp hs
    simp only [Prod.mk.injEq] at heq
    obtain ⟨rfl, rfl, rfl⟩ := heq
    exact hw'

/-- Who is on a queue is found. -/
theorem lookup_isSome (hi : i < a.instrumentCount) (hw : w ∈ a.queue i s)
    (his : w.is account id = true) : (a.lookup account id).isSome = true := by
  unfold Auction.lookup
  rw [find?_isSome]
  refine ⟨(i, s, w), mem_flatMap.mpr ⟨i, mem_range.mpr hi, ?_⟩, his⟩
  cases s with
  | buy => exact mem_append_left _ (mem_map.mpr ⟨w, hw, rfl⟩)
  | sell => exact mem_append_right _ (mem_map.mpr ⟨w, hw, rfl⟩)

/-- The auction finds the order that the handle map has. -/
theorem Shows.lookup (hst : Stands e L) (ha : Shows e L a) (account : AccountId)
    (hid : id.value < 2 ^ 48) :
    match e.byKey (orderKey account id) with
    | none => a.lookup account id = none
    | some h => ∃ o, e.pool.slots h = some o ∧
        a.lookup account id = some (o.instrument.value, o.side, OrderPool.view e.pool h) := by
  have hq := hst.tiered.queues
  have hfound : ∀ i s w, a.lookup account id = some (i, s, w) → ∃ k o,
      e.byKey (orderKey account id) = some k ∧ e.pool.slots k = some o ∧
        i = o.instrument.value ∧ s = o.side ∧ w = OrderPool.view e.pool k := by
    intro i s w hfind
    obtain ⟨hw, his⟩ := mem_of_lookup hfind
    rw [ha.queue] at hw
    obtain ⟨k, hk, rfl⟩ := mem_map.mp hw
    obtain ⟨g, hg, hkg⟩ := mem_flat.mp hk
    obtain ⟨-, o, ho⟩ := hq.placed i s g hg k hkg
    exact ⟨k, o, (view_is hq ha.ids hid hg hkg).mp his, ho.slot, ho.instrument.symm, ho.side.symm,
      rfl⟩
  split
  · rename_i hnone
    cases hfind : a.lookup account id with
    | none => rfl
    | some found =>
      obtain ⟨i, s, w⟩ := found
      obtain ⟨k, -, hk, -⟩ := hfound i s w hfind
      simp [hnone] at hk
  · rename_i h hkey
    obtain ⟨o, ho, -⟩ := (hq.keys _ h).mp hkey
    obtain ⟨A, x, y, B, hL⟩ := hq.place ho
    have hg : (o.price, x ++ h :: y) ∈ L o.instrument.value o.side := by
      rw [hL]
      simp
    have hh : h ∈ x ++ h :: y := by simp
    have hsome := lookup_isSome (a := a) (i := o.instrument.value) (s := o.side)
      (w := OrderPool.view e.pool h) (by rw [ha.instrumentCount]; exact hst.within h o ho)
      (by
        rw [ha.queue]
        exact mem_map_of_mem (mem_flat.mpr ⟨_, hg, hh⟩))
      ((view_is hq ha.ids hid hg hh).mpr hkey)
    obtain ⟨⟨i, s, w⟩, hfind⟩ := Option.isSome_iff_exists.mp hsome
    obtain ⟨k, o', hk, ho', rfl, rfl, rfl⟩ := hfound i s w hfind
    obtain rfl := Option.some.inj (hkey.symm.trans hk)
    exact ⟨o', ho', hfind⟩

/-! ## Steps -/

/-- What is set up stays, and fills are told. -/
theorem Shows.step {L L' : Ladder} {a' : Auction} (ha : Shows e L a)
    (hrep : Reports e calls e') (hstp : a'.stp = a.stp)
    (hcount : a'.instrumentCount = a.instrumentCount) (hfills : a'.fills = a.fills ++ fillsOf calls)
    (hnext : a'.nextOrderId = e'.nextOrderId)
    (hqueue : ∀ i s, a'.queue i s = (flat (L' i s)).map (OrderPool.view e'.pool))
    (hallowed : ∀ k o, e'.pool.slots k = some o → Allowed o) : Shows e' L' a' := by
  refine ⟨hqueue, fun account id => ?_, hnext, ?_, ?_, hallowed⟩
  · rw [hstp, MatchingEngine.stp, hrep.stpTable, hrep.instrumentCount]
    exact ha.stp account id
  · rw [hcount, hrep.instrumentCount]
    exact ha.instrumentCount
  · rw [hfills, hrep.told, fillsOf_append, ha.fills]

/-- A step of the engine leaves what an auction shows. -/
theorem Shows.of_same {L : Ladder} (ha : Shows e L a)
    (hrep : Reports e calls e') (hfills : fillsOf calls = [])
    (hnext : e'.nextOrderId = e.nextOrderId)
    (hview : ∀ i s, (flat (L i s)).map (OrderPool.view e'.pool) =
      (flat (L i s)).map (OrderPool.view e.pool))
    (hfilled : OrderPool.FilledTo e.pool e'.pool) : Shows e' L a :=
  ha.step hrep rfl rfl (by rw [hfills, append_nil]) (ha.nextOrderId.trans hnext.symm)
    (fun i s => (ha.queue i s).trans (hview i s).symm) (ha.allowed_filled hfilled)

/-! ## One side changes -/

/-- The auction's queues after one is rewritten and the slots of the others stay. -/
theorem Shows.queue_set (ha : Shows e L a) (i : Nat) (s : Side) (gs : List Group)
    (pool' : OrderPool) (hother : ∀ i' s', ¬ (i' = i ∧ s' = s) → ∀ g ∈ L i' s', ∀ k ∈ g.2,
      pool'.slots k = e.pool.slots k) (i' : Nat) (s' : Side) :
    (a.setQueue i s ((flat gs).map (OrderPool.view pool'))).queue i' s' =
      (flat (L.set i s gs i' s')).map (OrderPool.view pool') := by
  unfold Auction.setQueue
  dsimp only
  by_cases he : i' = i ∧ s' = s
  · obtain ⟨rfl, rfl⟩ := he
    rw [Ladder.set_self, Function.update_self, Function.update_self]
  have hsame : update a.queue i (update (a.queue i) s
      ((flat gs).map (OrderPool.view pool'))) i' s' = a.queue i' s' := by
    by_cases hi : i' = i
    · subst hi
      rw [update_self, update_of_ne fun hs => he ⟨rfl, hs⟩]
    · rw [update_of_ne hi]
  rw [hsame, Ladder.set_of_ne L i s gs he, ha.queue]
  refine (map_view_congr fun k hk => ?_).symm
  obtain ⟨g, hg, hkg⟩ := mem_flat.mp hk
  exact hother i' s' he g hg k hkg

/-- A queue about one of its orders. -/
theorem flat_about (A B : List Group) (p : Price) (x y : List Nat) (h : Nat) :
    flat (A ++ (p, x ++ h :: y) :: B) = (flat B ++ x) ++ h :: (y ++ flat A) := by
  rw [flat_split]
  simp only [append_assoc, cons_append]

theorem flat_regrouped (A B : List Group) (p : Price) (x y : List Nat) :
    flat (regrouped A p (x ++ y) B) = (flat B ++ x) ++ (y ++ flat A) := by
  unfold regrouped
  split_ifs with hx
  · obtain ⟨rfl, rfl⟩ := append_eq_nil_iff.mp hx
    rw [flat_append, append_nil, nil_append]
  · rw [flat_split]
    simp only [append_assoc]

/-- A group rewritten has prices that were there, and no more groups. -/
theorem prices_regrouped (A B : List Group) (p : Price) (x x' : List Nat) :
    (∀ g ∈ regrouped A p x' B, ∃ g' ∈ A ++ (p, x) :: B, g'.1 = g.1) ∧
      (regrouped A p x' B).length ≤ (A ++ (p, x) :: B).length := by
  unfold regrouped
  split
  · refine ⟨fun g hg => ⟨g, ?_, rfl⟩, by simp⟩
    rcases mem_append.mp hg with hA | hB
    · exact mem_append_left _ hA
    · exact mem_append_right A (mem_cons_of_mem _ hB)
  · refine ⟨fun g hg => ?_, by simp⟩
    rcases mem_append.mp hg with hA | hB
    · exact ⟨g, mem_append_left _ hA, rfl⟩
    · rcases mem_cons.mp hB with rfl | hB
      · exact ⟨(p, x), by simp, rfl⟩
      · exact ⟨g, mem_append_right A (mem_cons_of_mem _ hB), rfl⟩

/-- A side with no more groups than before. -/
theorem length_set_le (hgs : gs.length ≤ (L i s).length) (i' : Nat) (s' : Side) :
    (L.set i s gs i' s').length ≤ (L i' s').length :=
  Ladder.forall_set (P := fun i' s' gs => gs.length ≤ (L i' s').length) L i s gs
    (fun _ _ => le_refl _) hgs i' s'

theorem map_about {α β : Type} (f : α → β) (u v : List α) (k : α) :
    (u ++ k :: v).map f = u.map f ++ f k :: v.map f := by
  rw [map_append, map_cons]

/-- The others of a queue. -/
theorem Queues.not_mem_flat {pool : OrderPool} {links : Links} {byKey : Nat → Option Nat}
    {out : Option Nat} (hq : Queues pool links byKey L out)
    (hL : L i s = A ++ (p, x ++ h :: y) :: B) : h ∉ (flat B ++ x) ++ (y ++ flat A) := by
  have hnodup := hq.nodup i s (p, x ++ h :: y) (by rw [hL]; simp)
  rw [nodup_middle] at hnodup
  obtain ⟨hAB, -⟩ := hq.not_mem_others (z := h) hL (by simp)
  intro hh
  rcases mem_append.mp hh with hh | hh
  · rcases mem_append.mp hh with hB | hx
    · obtain ⟨g, hg, hhg⟩ := mem_flat.mp hB
      exact hAB g (mem_append_right A hg) hhg
    · exact (nodup_cons.mp hnodup).1 (mem_append_left y hx)
  · rcases mem_append.mp hh with hy | hA
    · exact (nodup_cons.mp hnodup).1 (mem_append_right x hy)
    · obtain ⟨g, hg, hhg⟩ := mem_flat.mp hA
      exact hAB g (mem_append_left B hg) hhg

section

variable (hst : Stands e L) (ha : Shows e L a) (hid : id.value < 2 ^ 48)
variable (hkey : e.byKey (orderKey account id) = some h)
include hst ha hid hkey

/-- The orders of a queue other than the one of a key. -/
theorem Shows.is_false {k : Nat} (hk : k ∈ flat (L i s))
    (hne : k ≠ h) : (OrderPool.view e.pool k).is account id = false := by
  obtain ⟨g, hg, hkg⟩ := mem_flat.mp hk
  rw [Bool.eq_false_iff]
  intro his
  have hk := (view_is hst.tiered.queues ha.ids hid hg hkg).mp his
  exact hne (Option.some.inj (hk.symm.trans hkey))

/-- The order of an id, and the others of its queue. -/
theorem Shows.about (hL : L i s = A ++ (p, x ++ h :: y) :: B) :
    (OrderPool.view e.pool h).is account id = true ∧
      (∀ w ∈ (flat B ++ x).map (OrderPool.view e.pool), w.is account id = false) ∧
      ∀ w ∈ (y ++ flat A).map (OrderPool.view e.pool), w.is account id = false := by
  have hq := hst.tiered.queues
  have hfree := hq.not_mem_flat hL
  have hothers : ∀ k ∈ (flat B ++ x) ++ (y ++ flat A),
      (OrderPool.view e.pool k).is account id = false := by
    intro k hk
    refine ha.is_false hst hid hkey (i := i) (s := s) ?_ fun he => hfree (he ▸ hk)
    rw [hL, flat_about]
    rcases mem_append.mp hk with hu | hv
    · exact mem_append_left _ hu
    · exact mem_append_right _ (mem_cons_of_mem h hv)
  refine ⟨(view_is hq ha.ids hid (g := (p, x ++ h :: y)) (by rw [hL]; simp) (by simp)).mpr hkey,
    fun w hw => ?_, fun w hw => ?_⟩
  · obtain ⟨k, hk, rfl⟩ := mem_map.mp hw
    exact hothers k (mem_append_left _ hk)
  · obtain ⟨k, hk, rfl⟩ := mem_map.mp hw
    exact hothers k (mem_append_right _ hk)

end

/-- A queue without the one order of an id. -/
theorem filter_others {u v : List RestingOrder} (hw : w.is account id = true)
    (hu : ∀ w ∈ u, w.is account id = false) (hv : ∀ w ∈ v, w.is account id = false) :
    (u ++ w :: v).filter (fun w => !w.is account id) = u ++ v := by
  have hu' : ∀ w ∈ u, (!w.is account id) = true := fun w hw => by rw [hu w hw]; rfl
  have hv' : ∀ w ∈ v, (!w.is account id) = true := fun w hw => by rw [hv w hw]; rfl
  rw [filter_append, filter_cons_of_neg (by simp [hw]), filter_eq_self.mpr hu',
    filter_eq_self.mpr hv']

/-! ## Cancels -/

/-- An order leaves its queue. -/
theorem Stands.removeFrom (hst : Stands e L) (ho : e.pool.slots h = some o)
    (hL : L o.instrument.value o.side = A ++ (o.price, x ++ h :: y) :: B) (why : CancelReason)
    (now : Timestamp) {L' : Ladder}
    (hL' : L' = L.set o.instrument.value o.side (regrouped A o.price (x ++ y) B)) :
    ∃ calls, Stands (e.removeResting h o why now) L' ∧
      Reports e calls (e.removeResting h o why now) ∧
      (e.removeResting h o why now).pool = e.pool.free h ∧
      ∀ a account id, Shows e L a → id.value < 2 ^ 48 →
        e.byKey (orderKey account id) = some h →
        Shows (e.removeResting h o why now) L' (a.remove o.instrument.value o.side account id) := by
  have hq := hst.tiered.queues
  subst hL'
  obtain ⟨ht, hpool, hledgers, hnext, calls, hrep, hfills⟩ := hst.tiered.removeResting hL ho why now
  have hslots : ∀ k, k ≠ h → (e.pool.free h).slots k = e.pool.slots k := fun k hk =>
    (slots_free ho k).trans (if_neg hk)
  have hlive : ∀ k o', (e.pool.free h).slots k = some o' → e.pool.slots k = some o' := by
    intro k o' hk
    rw [slots_free ho] at hk
    split at hk
    · nomatch hk
    · exact hk
  have hmem : ∀ g ∈ regrouped A o.price (x ++ y) B,
      ∃ g' ∈ L o.instrument.value o.side, g'.1 = g.1 := by
    rw [hL]
    exact (prices_regrouped A B o.price _ _).1
  refine ⟨calls, ⟨ht, hst.balanced.of_ledgers hledgers, hst.uncrossed.set hmem, ?_⟩, hrep, hpool,
    ?_⟩
  · intro k o' hk
    rw [hpool] at hk
    rw [hrep.instrumentCount]
    exact hst.within k o' (hlive k o' hk)
  intro a account id ha hid hkey
  obtain ⟨-, hothers⟩ := hq.not_mem_others (z := h) hL (by simp)
  have hfree := hq.not_mem_flat hL
  refine ha.step hrep rfl rfl (by rw [hfills, append_nil]; rfl)
    (ha.nextOrderId.trans hnext.symm) (fun i' s' => ?_)
      (ha.allowed_filled (by rw [hpool]; exact filledTo_free ho))
  · have hset := ha.queue_set o.instrument.value o.side (regrouped A o.price (x ++ y) B)
      (e.pool.free h)
      (fun i' s' hne g hg k hk => hslots k fun he => hothers i' s' hne g hg (he ▸ hk)) i' s'
    rw [hpool, ← hset]
    unfold Auction.remove
    congr 2
    obtain ⟨hown, hu, hv⟩ := ha.about hst hid hkey hL
    have hview : ((flat B ++ x) ++ (y ++ flat A)).map (OrderPool.view (e.pool.free h)) =
        ((flat B ++ x) ++ (y ++ flat A)).map (OrderPool.view e.pool) :=
      map_view_congr fun k hk => hslots k fun he => hfree (he ▸ hk)
    rw [ha.queue, hL, flat_regrouped, flat_about, map_about]
    refine Eq.trans ?_ (hview.trans map_append).symm
    exact filter_others hown hu hv

/-- An order leaves its queue, wherever it stands. -/
theorem Stands.removeResting (hst : Stands e L) (ho : e.pool.slots h = some o) (why : CancelReason)
    (now : Timestamp) :
    ∃ L' calls, Stands (e.removeResting h o why now) L' ∧
      Reports e calls (e.removeResting h o why now) ∧
      (e.removeResting h o why now).pool = e.pool.free h ∧
      (∀ i s, (L' i s).length ≤ (L i s).length) ∧
      ∀ a account id, Shows e L a → id.value < 2 ^ 48 →
        e.byKey (orderKey account id) = some h →
        Shows (e.removeResting h o why now) L' (a.remove o.instrument.value o.side account id) := by
  obtain ⟨A, x, y, B, hL⟩ := hst.tiered.queues.place ho
  obtain ⟨calls, hst', hrep, hpool, hshows⟩ := hst.removeFrom ho hL why now rfl
  refine ⟨_, calls, hst', hrep, hpool, length_set_le ?_, hshows⟩
  rw [hL]
  exact (prices_regrouped A B o.price _ _).2

/-- What an operation of the engine does, and what the auction's does. -/
def Steps (e : MatchingEngine) (L : Ladder) (e' : MatchingEngine) (op : Auction → Auction)
    (plain : Prop) : Prop :=
  ∃ L' calls, Stands e' L' ∧ Reports e calls e' ∧
    (plain → ∀ a, Shows e L a → Shows e' L' (op a))

/-- A step that only tells the sink something. -/
theorem Steps.quiet (hst : Stands e L) {e' : MatchingEngine}
    (hrep : Reports e calls e') (hso : MatchingEngine.SameOrders e e') (hbooks : e'.books = e.books)
    (hfills : fillsOf calls = []) (plain : Prop) :
    Steps e L e' (fun a => a) plain := by
  refine ⟨L, calls, ⟨⟨?_, ?_, hst.tiered.full⟩, hst.balanced.of_ledgers hso.ledgers,
    hst.uncrossed, ?_⟩, hrep, fun _ a ha => ha.of_same hrep hfills hso.nextOrderId
      (fun i s => ?_) ?_⟩
  · rw [hso.pool, hso.links, hso.byKey]
    exact hst.tiered.queues
  · rw [hbooks, hso.pool]
    exact hst.tiered.levels
  · rw [hso.pool, hrep.instrumentCount]
    exact hst.within
  · rw [hso.pool]
  · rw [hso.pool]
    exact filledTo_refl _

/-- The sink is told something that is no fill and no change of a book. -/
theorem Steps.tell (hst : Stands e L) (c : SinkCall) (hfill : fillOf c = none)
    (hchange : ∀ i, changeOf i c = none) (plain : Prop) :
    Steps e L (e.tell c) (fun a => a) plain := by
  have hchanges : ∀ i, changes i [c] = [] := fun i => by simp [changes, hchange i]
  have hfills : fillsOf [c] = [] := by simp [fillsOf, hfill]
  have hrep : Reports e [c] (e.tell c) := Reports.quiet rfl rfl hchanges rfl rfl rfl
  exact Steps.quiet hst hrep ⟨rfl, rfl, rfl, rfl, rfl⟩ rfl hfills plain

/-- A cancel. -/
theorem Stands.cancel (hst : Stands e L) (account : AccountId) (id : ClientOrderId)
    (now : Timestamp) :
    Steps e L (e.cancel account id now).2 (fun a => a.cancel account id) (id.value < 2 ^ 48) := by
  unfold MatchingEngine.cancel
  cases hkey : e.byKey (orderKey account id) with
  | none =>
    obtain ⟨L', calls, hst', hrep, hshows⟩ := Steps.tell hst
      (.onCancelReject account id .invalid now) rfl (fun _ => rfl) True
    refine ⟨L', calls, hst', hrep, fun hid a ha => ?_⟩
    have hlookup := ha.lookup hst account hid
    rw [hkey] at hlookup
    dsimp only at hlookup
    show Shows _ L' (a.cancel account id)
    unfold Auction.cancel
    rw [hlookup]
    exact hshows trivial a ha
  | some h =>
    obtain ⟨o, ho, -⟩ := (hst.tiered.queues.keys _ h).mp hkey
    dsimp only
    rw [ho]
    obtain ⟨L', calls, hst', hrep, -, -, hshows⟩ := hst.removeResting ho .requested now
    refine ⟨L', calls, hst', hrep, fun hid a ha => ?_⟩
    have hlookup := ha.lookup hst account hid
    rw [hkey] at hlookup
    dsimp only at hlookup
    obtain ⟨o', ho', hfind⟩ := hlookup
    obtain rfl := Option.some.inj (ho.symm.trans ho')
    show Shows _ L' (a.cancel account id)
    unfold Auction.cancel
    rw [hfind]
    exact hshows a account id ha hid hkey

/-! ## The end of a new order -/

/-- An order is live and on no queue. -/
structure Entered (e : MatchingEngine) (L : Ladder) (h : Nat) (o : SimOrder) : Prop where
  tiered : Tiered e L (some h)
  slot : e.pool.slots h = some o
  balanced : Balanced e
  uncrossed : Uncrossed L
  within : ∀ k o, e.pool.slots k = some o → o.instrument.value < e.instrumentCount

/-- Queues do not have the order that is on none. -/
theorem Entered.queue_view (hen : Entered e L h o) {pool' : OrderPool}
    (hslots : ∀ k, k ≠ h → pool'.slots k = e.pool.slots k) (i : Nat) (s : Side) :
    (flat (L i s)).map (OrderPool.view pool') = (flat (L i s)).map (OrderPool.view e.pool) := by
  refine map_view_congr fun k hk => hslots k fun he => ?_
  obtain ⟨g, hg, hkg⟩ := mem_flat.mp hk
  exact (hen.tiered.queues.placed i s g hg k hkg).1 (congrArg some he.symm)

/-- The order is gone. -/
theorem Entered.freeOrder (hen : Entered e L h o)
    (hkey : orderKey o'.account o'.clOrdId = orderKey o.account o.clOrdId) {e' : MatchingEngine}
    (hrep : Reports e calls e') (hfills : fillsOf calls = [])
    (hso : MatchingEngine.SameOrders (e.freeOrder h o') e') (hbooks : e'.books = e.books) :
    Stands e' L ∧ ∀ a, Shows e L a → Shows e' L a := by
  have hfree := hen.tiered.freeOrder hen.slot o' hkey
  have hfilled : OrderPool.FilledTo e.pool e'.pool := by
    rw [hso.pool]
    exact filledTo_free hen.slot
  refine ⟨⟨⟨?_, ?_, hfree.full⟩, hen.balanced.of_ledgers hso.ledgers, hen.uncrossed, ?_⟩,
    fun a ha => ha.of_same hrep hfills hso.nextOrderId (hen.queue_view fun k hk => ?_) hfilled⟩
  · rw [hso.pool, hso.links, hso.byKey]
    exact hfree.queues
  · rw [hbooks, hso.pool]
    exact hfree.levels
  · intro k o₁ ho₁
    obtain ⟨o₂, ho₂, he⟩ := hfilled k o₁ ho₁
    rw [he, hrep.instrumentCount]
    exact hen.within k o₂ ho₂
  · rw [hso.pool]
    exact (slots_free hen.slot k).trans (if_neg hk)

/-- A queue about a price. -/
theorem flat_price (ha : About (L i s) s p A x B) : flat (L i s) = (flat B ++ x) ++ flat A := by
  rcases ha.split with hL | ⟨rfl, hL⟩
  · rw [hL, flat_split, append_assoc]
  · rw [hL, flat_append, append_nil]

/-- The groups about a price are of the side. -/
theorem About.mem (ha : About gs s p A x B) :
    (∀ g ∈ A, g ∈ gs) ∧ (∀ k ∈ x, (p, x) ∈ gs) ∧ ∀ g ∈ B, g ∈ gs := by
  rcases ha.split with rfl | ⟨rfl, rfl⟩
  · exact ⟨fun g hg => mem_append_left _ hg, fun k _ => by simp,
      fun g hg => mem_append_right A (mem_cons_of_mem _ hg)⟩
  · exact ⟨fun g hg => mem_append_left _ hg, fun k hk => absurd hk not_mem_nil,
      fun g hg => mem_append_right A hg⟩

/-- The order is written to its slot. -/
theorem Entered.write (hen : Entered e L h o) (hinst : o'.instrument = o.instrument)
    (hside : o'.side = o.side) (hprice : o'.price = o.price)
    (hkey : orderKey o'.account o'.clOrdId = orderKey o.account o.clOrdId) :
    Tiered { e with pool := e.pool.set h o' } L (some h) := by
  have hslots := slots_set (o := o') hen.slot
  refine ⟨hen.tiered.queues.rewrite hen.slot hinst hside hprice (fun hne => absurd rfl hne)
    (hen.tiered.queues.keys_set hen.slot o' hkey), fun i s => ?_, hen.tiered.full⟩
  refine (hen.tiered.levels i s).trans (map_levelOf_congr (h := h) (fun k hk => ?_)
    fun g hg hh => ?_).symm
  · exact (hslots k).trans (if_neg hk)
  · exact (hen.tiered.queues.placed i s g hg h hh).1 rfl

/-- A price joins its side below what the other side asks, or above what it bids. -/
theorem Uncrossed.join (hu : Uncrossed L) (ha : About (L i s) s p A x B)
    (hcross : ∀ g ∈ L i s.opposite, crosses s p g.1 = false) (x' : List Nat) :
    Uncrossed (L.set i s (A ++ (p, x') :: B)) := by
  have hold : ∀ g ∈ A ++ (p, x') :: B, g ∈ L i s ∨ g.1 = p := by
    intro g hg
    have hAB : ∀ g ∈ A ++ B, g ∈ L i s := by
      intro g hg
      rcases ha.split with hL | ⟨-, hL⟩
      · rw [hL]
        rcases mem_append.mp hg with hA | hB
        · exact mem_append_left _ hA
        · exact mem_append_right A (mem_cons_of_mem _ hB)
      · rw [hL]
        exact hg
    rcases mem_append.mp hg with hA | hB
    · exact .inl (hAB g (mem_append_left B hA))
    · rcases mem_cons.mp hB with rfl | hB
      · exact .inr rfl
      · exact .inl (hAB g (mem_append_right A hB))
  have hmem : ∀ i' s', ∀ g ∈ L.set i s (A ++ (p, x') :: B) i' s',
      g ∈ L i' s' ∨ (i' = i ∧ s' = s ∧ g.1 = p) := by
    intro i' s' g hg
    by_cases he : i' = i ∧ s' = s
    · obtain ⟨rfl, rfl⟩ := he
      rw [Ladder.set_self] at hg
      exact (hold g hg).imp_right fun hp => ⟨rfl, rfl, hp⟩
    · rw [Ladder.set_of_ne L i s _ he] at hg
      exact .inl hg
  intro j b hb c hc
  rcases hmem j .buy b hb with hb' | ⟨hjb, hsb, hpb⟩
  · rcases hmem j .sell c hc with hc' | ⟨rfl, rfl, hpc⟩
    · exact hu j b hb' c hc'
    · have hno := hcross b hb'
      rw [hpc]
      exact not_le.mp (of_decide_eq_false hno)
  · rcases hmem j .sell c hc with hc' | ⟨-, hsc, -⟩
    · subst hjb
      subst hsb
      have hno := hcross c hc'
      rw [hpb]
      exact not_le.mp (of_decide_eq_false hno)
    · exact absurd (hsb.trans hsc.symm) (by decide)

/-- The order joins the queue of its price. -/
theorem Entered.rest (hen : Entered e L h o)
    (hsame : o' = { o with cumQty := o'.cumQty }) (hleaves : 0 < o'.leaves)
    (hcross : ∀ g ∈ L o'.instrument.value o'.side.opposite, crosses o'.side o'.price g.1 = false) :
    ∃ L' calls, Stands ({ e with pool := e.pool.set h o' }.rest h o').2 L' ∧
      Reports e calls ({ e with pool := e.pool.set h o' }.rest h o').2 ∧
      (((e.book o'.instrument).levels o'.side).size < kMaxSimLevels → ∀ a, Shows e L a →
        Shows ({ e with pool := e.pool.set h o' }.rest h o').2 L'
          (a.enqueue o'.instrument.value o'.side
            ⟨o'.party, o'.price, o'.leaves, o'.type, o'.tif⟩)) := by
  obtain ⟨e₁, he₁⟩ : ∃ e₁ : MatchingEngine, e₁ = { e with pool := e.pool.set h o' } := ⟨_, rfl⟩
  have hwrite : Tiered e₁ L (some h) := by
    rw [he₁]
    exact hen.write (by rw [hsame]) (by rw [hsame]) (by rw [hsame]) (by rw [hsame])
  have hslot : e₁.pool.slots h = some o' := by
    rw [he₁]
    exact (slots_set hen.slot h).trans (if_pos rfl)
  have hfilled : OrderPool.FilledTo e.pool e₁.pool := by
    rw [he₁, hsame]
    exact filledTo_set hen.slot _
  have hslots : ∀ k, k ≠ h → e₁.pool.slots k = e.pool.slots k := fun k hk => by
    rw [he₁]
    exact (slots_set hen.slot k).trans (if_neg hk)
  have hquiet : Reports e [] e₁ := by
    rw [he₁]
    exact Reports.quiet rfl (append_nil _).symm (fun _ => rfl) rfl rfl rfl
  have hbook : e₁.book o'.instrument = e.book o'.instrument := by rw [he₁]; rfl
  have hwithin : ∀ k o₁, e₁.pool.slots k = some o₁ → o₁.instrument.value < e.instrumentCount := by
    intro k o₁ ho₁
    obtain ⟨o₂, ho₂, he⟩ := hfilled k o₁ ho₁
    rw [he]
    exact hen.within k o₂ ho₂
  obtain ⟨A, x, B, habout⟩ := exists_about (hwrite.queues.sorted o'.instrument.value o'.side)
    o'.price
  obtain ⟨hcase, hledgers, hnext, calls, hrep, hfills⟩ := hwrite.rest hslot hleaves habout
  have hbal : Balanced (e₁.rest h o').2 :=
    hen.balanced.of_ledgers (by rw [hledgers, he₁])
  have hreports := hquiet.trans hrep
  rw [← he₁]
  rcases hcase with ⟨hfull, -, ht, hpool⟩ | ⟨-, hpool, ht⟩
  · refine ⟨L, _, ⟨ht, hbal, hen.uncrossed, fun k o₁ ho₁ => ?_⟩, hreports, fun hroom => ?_⟩
    · rw [hpool, slots_free hslot] at ho₁
      rw [hreports.instrumentCount]
      split at ho₁
      · nomatch ho₁
      · exact hwithin k o₁ ho₁
    · rw [hbook] at hfull
      exact absurd hfull (Nat.ne_of_lt hroom)
  · refine ⟨_, _, ⟨ht, hbal, hen.uncrossed.join habout hcross _, fun k o₁ ho₁ => ?_⟩, hreports,
      fun _ a ha => ?_⟩
    · rw [hpool] at ho₁
      rw [hreports.instrumentCount]
      exact hwithin k o₁ ho₁
    have hset := ha.queue_set o'.instrument.value o'.side (A ++ (o'.price, x ++ [h]) :: B) e₁.pool
      (fun i' s' _ g hg k hk => hslots k fun he =>
        (hen.tiered.queues.placed i' s' g hg k hk).1 (congrArg some he.symm))
    have hview := hen.queue_view hslots o'.instrument.value o'.side
    have hjoin : insertBehind (fun w : RestingOrder => goodness o'.side w.price)
        ⟨o'.party, o'.price, o'.leaves, o'.type, o'.tif⟩ (a.queue o'.instrument.value o'.side) =
          (flat (A ++ (o'.price, x ++ [h]) :: B)).map (OrderPool.view e₁.pool) := by
      rw [ha.queue, ← hview, flat_price habout, map_append]
      have hprice : ∀ g ∈ L o'.instrument.value o'.side, ∀ k ∈ g.2,
          (OrderPool.view e₁.pool k).price = g.1 := by
        intro g hg k hk
        obtain ⟨-, o₁, ho₁⟩ := hwrite.queues.placed _ _ g hg k hk
        rw [view_eq ho₁.slot]
        exact ho₁.price
      obtain ⟨hA, hx, hB⟩ := habout.mem
      rw [insertBehind_eq]
      · rw [flat_split, ← view_eq hslot]
        simp only [map_append, map_cons, append_assoc, cons_append, nil_append]
      · intro w hw
        obtain ⟨k, hk, rfl⟩ := mem_map.mp hw
        rcases mem_append.mp hk with hk | hk
        · obtain ⟨g, hg, hkg⟩ := mem_flat.mp hk
          rw [hprice g (hB g hg) k hkg]
          exact le_of_lt (habout.above g hg)
        · rw [hprice _ (hx k hk) k hk]
      · intro w hw
        obtain ⟨k, hk, rfl⟩ := mem_map.mp hw
        obtain ⟨g, hg, hkg⟩ := mem_flat.mp hk
        rw [hprice g (hA g hg) k hkg]
        exact habout.below g hg
    unfold Auction.enqueue
    rw [hjoin]
    refine ha.step hreports rfl rfl (by rw [nil_append, hfills, append_nil]; rfl) ?_
      (fun i' s' => ?_) (ha.allowed_filled (by rw [hpool]; exact hfilled))
    · rw [hnext, he₁]
      exact ha.nextOrderId
    · rw [hpool]
      exact hset i' s'

end FastMM.Sim
