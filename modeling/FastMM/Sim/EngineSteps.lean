/-
  Sim/EngineSteps.lean --- what each step of the matching engine does to its queues.

  Source: as `Sim/MatchingEngine.lean`.
-/
import FastMM.Sim.Auction
import FastMM.Sim.BookLevels
set_option autoImplicit false

namespace FastMM.Sim

open Foundation Ladder List MatchingEngine OrderPool

variable {e : MatchingEngine} {L : Ladder} {out : Option Nat} {i : Nat} {s : Side} {p : Price}
  {h : Nat} {o : SimOrder} {A B : List Group} {x y : List Nat}
variable {pool : OrderPool}
variable {links : Links}
variable {id : InstrumentId}
variable {gs : List Group}

/-! ## Levels -/

theorem leavesAt_eq (ho : pool.slots h = some o) : leavesAt pool h = o.leaves := by
  unfold leavesAt
  rw [ho]
  rfl

/-- A level from which an order is taken out, with its quantity. -/
theorem unlink_level (hchain : Links.Chain e.links none (x ++ h :: y))
    (ho : e.pool.slots h = some o) {l : PriceLevel} (hl : l = { levelOf e.pool (p, x ++ h :: y) with
      qty := (levelOf e.pool (p, x ++ h :: y)).qty - o.leaves }) :
    (e.unlink h l).2 = levelOf e.pool (p, x ++ y) := by
  have hnext := hchain.next_eq
  have hprev := hchain.prev_eq
  rw [Option.or_none] at hprev
  subst hl
  unfold MatchingEngine.unlink levelOf
  dsimp only
  rw [hnext, hprev]
  congr 1
  · simp only [map_append, map_cons, sum_append, sum_cons, leavesAt_eq ho]
    show _ - _ = (_ : Int)
    omega
  · cases x with
    | nil => rfl
    | cons z x => simp
  · cases y with
    | nil => simp
    | cons z y => simp [getLast?_append, getLast?_cons]
  · simp only [length_append, length_cons]
    omega

/-- A level of which an order gives up `q` where it stands. -/
theorem levelOf_set {o' : SimOrder} {q : Qty} (hnodup : (x ++ h :: y).Nodup)
    (ho : pool.slots h = some o) (hleaves : o'.leaves = o.leaves - q) :
    levelOf (pool.set h o') (p, x ++ h :: y) =
      { levelOf pool (p, x ++ h :: y) with
        qty := (levelOf pool (p, x ++ h :: y)).qty - q } := by
  have hslots := Pool.slots_set (o := o') ho
  rw [nodup_middle] at hnodup
  have hother : ∀ k ∈ x ++ y, leavesAt (pool.set h o') k = leavesAt pool k := by
    intro k hk
    have hne : k ≠ h := fun he => (nodup_cons.mp hnodup).1 (he ▸ hk)
    unfold leavesAt
    rw [hslots, if_neg hne]
  have hx : x.map (leavesAt (pool.set h o')) = x.map (leavesAt pool) :=
    map_congr_left fun k hk => hother k (mem_append_left y hk)
  have hy : y.map (leavesAt (pool.set h o')) = y.map (leavesAt pool) :=
    map_congr_left fun k hk => hother k (mem_append_right x hk)
  have hh : leavesAt (pool.set h o') h = o.leaves - q :=
    (leavesAt_eq (by rw [hslots, if_pos rfl])).trans hleaves
  unfold levelOf
  congr 1
  simp only [map_append, map_cons, sum_append, sum_cons, hx, hy, hh, leavesAt_eq ho]
  show (_ : Int) = _ - _
  omega

/-- Levels of queues whose orders did not change. -/
theorem map_levelOf_congr {pool pool' : OrderPool}
    (hslots : ∀ k, k ≠ h → pool'.slots k = pool.slots k) (hgs : ∀ g ∈ gs, h ∉ g.2) :
    gs.map (levelOf pool') = gs.map (levelOf pool) :=
  map_congr_left fun g hg => levelOf_congr fun k hk =>
    hslots k fun he => hgs g hg (he ▸ hk)

section

variable {byKey : Nat → Option Nat} (hq : Queues pool links byKey L out)
variable (hL : L i s = A ++ (p, x) :: B)
include hq hL

/-- The prices about a group. -/
theorem Queues.prices_ne :
    (∀ g ∈ A, g.1 ≠ p) ∧ ∀ g ∈ B, g.1 ≠ p := by
  have hsorted := hq.sorted i s
  rw [hL] at hsorted
  obtain ⟨hA, hB⟩ := hsorted.about
  exact ⟨fun g hg he => absurd (hA g hg) (by rw [he]; exact lt_irrefl _),
    fun g hg he => absurd (hB g hg) (by rw [he]; exact lt_irrefl _)⟩

/-- Where the levels of a side part at a group's price. -/
theorem Queues.parted :
    Parted s p (A.map (levelOf pool)) (levelOf pool (p, x) :: B.map (levelOf pool)) := by
  have hsorted := hq.sorted i s
  rw [hL] at hsorted
  obtain ⟨hA, hB⟩ := hsorted.about
  constructor
  · intro l hl
    obtain ⟨g, hg, rfl⟩ := mem_map.mp hl
    exact hA g hg
  · intro l hl
    rcases mem_cons.mp hl with rfl | hl
    · exact le_refl _
    · obtain ⟨g, hg, rfl⟩ := mem_map.mp hl
      exact le_of_lt (hB g hg)

end

theorem Tiered.levelsOf_eq (ht : Tiered e L out) (hL : L i s = A ++ (p, x) :: B) :
    e.levelsOf i s = A.map (levelOf e.pool) ++ levelOf e.pool (p, x) :: B.map (levelOf e.pool) := by
  have h := ht.levels i s
  rw [hL, map_append, map_cons] at h
  exact h

/-- A group is found by its price. -/
theorem Tiered.find_eq (ht : Tiered e L out) (hi : id.value = i) (hL : L i s = A ++ (p, x) :: B) :
    (e.book id).find s p = some A.length ∧
      ((e.book id).levels s).get A.length = levelOf e.pool (p, x) := by
  subst hi
  have hdata := ht.levelsOf_eq hL
  have hlen : (A.map (levelOf e.pool)).length = A.length := length_map _
  have hfind := find_level hdata (ht.queues.parted hL)
  have hget := get_append (v := (e.book id).levels s) hdata
  rw [hlen] at hfind hget
  exact ⟨hfind, hget⟩

/-! ## Fills -/

def SimOrder.party (o : SimOrder) : Party := ⟨o.orderId, o.account, o.clOrdId⟩

def fillOf : SinkCall → Option Fill
  | .onFill maker taker px qty _ => some ⟨maker.party, taker.party, px, qty⟩
  | _ => none

/-- The fills the sink is told of. -/
def fillsOf (calls : List SinkCall) : List Fill := calls.filterMap fillOf

theorem fillsOf_append (calls calls' : List SinkCall) :
    fillsOf (calls ++ calls') = fillsOf calls ++ fillsOf calls' := filterMap_append

/-! ## A queue rewritten -/

/-- The groups of a side after one is rewritten: an empty one goes. -/
def regrouped (A : List Group) (p : Price) (x : List Nat) (B : List Group) : List Group :=
  if x = [] then A ++ B else A ++ (p, x) :: B

theorem Queues.regroup {byKey : Nat → Option Nat}
    (hq : Queues pool links byKey (L.set i s (A ++ (p, x) :: B)) out) :
    Queues pool links byKey (L.set i s (regrouped A p x B)) out := by
  unfold regrouped
  split_ifs with hx
  · rw [hx] at hq
    have hdrop := hq.dropGroup (set_self L i s _)
    rwa [Ladder.set_set] at hdrop
  · exact hq

theorem full_regrouped (hfull : ∀ i s, ∀ g ∈ L i s, g.2 ≠ []) (hL : L i s = A ++ (p, x) :: B)
    (x' : List Nat) : ∀ i' s', ∀ g ∈ L.set i s (regrouped A p x' B) i' s', g.2 ≠ [] := by
  refine forall_set (P := fun _ _ gs => ∀ g ∈ gs, g.2 ≠ []) L i s _ hfull fun g hg => ?_
  have hold : ∀ g ∈ A ++ B, g.2 ≠ [] := by
    intro g hg
    refine hfull i s g ?_
    rw [hL]
    rcases mem_append.mp hg with hA | hB
    · exact mem_append_left _ hA
    · exact mem_append_right A (mem_cons_of_mem _ hB)
  unfold regrouped at hg
  split_ifs at hg with hx
  · exact hold g hg
  rcases mem_append.mp hg with hA | hB
  · exact hold g (mem_append_left B hA)
  · rcases mem_cons.mp hB with rfl | hB
    · exact hx
    · exact hold g (mem_append_right A hB)

/-- The levels after one is written back, its queue and pool having changed since. -/
theorem settle_levels {pool pool' : OrderPool} {x' : List Nat}
    {l : PriceLevel} (hlevels : ∀ i s, e.levelsOf i s = (L i s).map (levelOf pool))
    (hi : id.value = i) (hL : L i s = A ++ (p, x) :: B)
    (hne : (∀ g ∈ A, g.1 ≠ p) ∧ ∀ g ∈ B, g.1 ≠ p)
    (hthis : ∀ g ∈ A ++ B, levelOf pool' g = levelOf pool g)
    (hother : ∀ i' s', ¬ (i' = i ∧ s' = s) → ∀ g ∈ L i' s', levelOf pool' g = levelOf pool g)
    (hl : l = levelOf pool' (p, x')) :
    (∀ i' s', (e.settleLevel id s A.length l).levelsOf i' s' =
      (L.set i s (regrouped A p x' B) i' s').map (levelOf pool')) ∧
    MatchingEngine.SameOrders e (e.settleLevel id s A.length l) ∧
    ∃ q u, Reports e [.onBookChange id s l.price q u] (e.settleLevel id s A.length l) := by
  subst hi
  have hdata := hlevels id.value s
  rw [hL, map_append, map_cons] at hdata
  have hprices : ∀ gs : List Group, (∀ g ∈ gs, g.1 ≠ p) →
      ∀ a ∈ gs.map (levelOf pool), a.price ≠ p := by
    intro gs hgs a ha
    obtain ⟨g, hg, rfl⟩ := mem_map.mp ha
    exact hgs g hg
  have hmap : ∀ gs : List Group, (∀ g ∈ gs, g ∈ A ++ B) →
      gs.map (levelOf pool') = gs.map (levelOf pool) :=
    fun gs hgs => map_congr_left fun g hg => hthis g (hgs g hg)
  obtain ⟨hlev, hsame, hrep⟩ := e.settleLevel_spec (l := l) hdata (by rw [hl]; rfl)
    (hprices A hne.1) (hprices B hne.2)
  rw [length_map] at hlev hsame hrep
  refine ⟨fun i' s' => ?_, hsame, hrep⟩
  rw [hlev]
  by_cases he : i' = id.value ∧ s' = s
  · obtain ⟨rfl, rfl⟩ := he
    rw [if_pos ⟨rfl, rfl⟩, set_self]
    unfold regrouped
    have hcount : l.count = 0 ↔ x' = [] := by
      rw [hl]
      exact length_eq_zero_iff
    by_cases hx : x' = []
    · rw [if_pos (hcount.mpr hx), if_pos hx, map_append, hmap A fun g hg => mem_append_left B hg,
        hmap B fun g hg => mem_append_right A hg]
    · rw [if_neg (mt hcount.mp hx), if_neg hx, map_append, map_cons,
        hmap A fun g hg => mem_append_left B hg,
        hmap B fun g hg => mem_append_right A hg, hl]
  · rw [if_neg he, set_of_ne L id.value s _ he, hlevels]
    exact (map_congr_left fun g hg => hother i' s' he g hg).symm

/-- Levels of queues an order is not on. -/
theorem Queues.same_levels {pool pool' : OrderPool} {byKey : Nat → Option Nat}
    (hq : Queues pool links byKey L out) (hL : L i s = A ++ (p, x) :: B) (hh : h ∈ x)
    (hslots : ∀ k, k ≠ h → pool'.slots k = pool.slots k) :
    (∀ g ∈ A ++ B, levelOf pool' g = levelOf pool g) ∧
      ∀ i' s', ¬ (i' = i ∧ s' = s) → ∀ g ∈ L i' s', levelOf pool' g = levelOf pool g := by
  obtain ⟨hAB, hothers⟩ := hq.not_mem_others hL hh
  exact ⟨fun g hg => levelOf_congr fun k hk => hslots k fun he => hAB g hg (he ▸ hk),
    fun i' s' hne g hg => levelOf_congr fun k hk =>
      hslots k fun he => hothers i' s' hne g hg (he ▸ hk)⟩

/-! ## Removal -/

/-- An order leaves its queue, and its level the book with its last order. -/
theorem Tiered.removeResting (ht : Tiered e L out) (hL : L i s = A ++ (p, x ++ h :: y) :: B)
    (ho : e.pool.slots h = some o) (why : CancelReason) (now : Timestamp) :
    Tiered (e.removeResting h o why now) (L.set i s (regrouped A p (x ++ y) B)) out ∧
      (e.removeResting h o why now).pool = e.pool.free h ∧
      (e.removeResting h o why now).ledgers = e.ledgers ∧
      (e.removeResting h o why now).nextOrderId = e.nextOrderId ∧
      ∃ calls, Reports e calls (e.removeResting h o why now) ∧ fillsOf calls = [] := by
  have hq := ht.queues
  have hin : h ∈ x ++ h :: y := mem_append_right x mem_cons_self
  have hg : (p, x ++ h :: y) ∈ L i s := by
    rw [hL]
    exact mem_append_right A mem_cons_self
  obtain ⟨-, o', hw⟩ := hq.placed i s _ hg h hin
  obtain rfl := Option.some.inj (ho.symm.trans hw.slot)
  obtain ⟨hfind, hget⟩ := ht.find_eq hw.instrument hL
  have hslots : ∀ k, k ≠ h → (e.pool.free h).slots k = e.pool.slots k := fun k hk => by
    rw [Pool.slots_free ho, if_neg hk]
  obtain ⟨hthis, hother⟩ := hq.same_levels hL hin hslots
  have hnodup : h ∉ x ++ y := by
    have hnd := hq.nodup i s _ hg
    rw [nodup_middle] at hnd
    exact (nodup_cons.mp hnd).1
  obtain ⟨e₁, l, hunlink⟩ : ∃ e₁ l, e.unlink h { levelOf e.pool (p, x ++ h :: y) with
      qty := (levelOf e.pool (p, x ++ h :: y)).qty - o.leaves } = (e₁, l) := ⟨_, _, rfl⟩
  have hl : l = levelOf (e.pool.free h) (p, x ++ y) := by
    have heq : l = levelOf e.pool (p, x ++ y) :=
      (congrArg Prod.snd hunlink).symm.trans (unlink_level (hq.chain i s _ hg) ho rfl)
    refine heq.trans (levelOf_congr fun k hk => ?_).symm
    exact hslots k fun he => hnodup (he ▸ hk)
  have he₁ : e₁ = { e with links := e.links.unlink h } := congrArg Prod.fst hunlink.symm
  obtain ⟨hlev, hsame, q, u, hrep⟩ := settle_levels (e := e₁) (l := l) (fun i s => by
    rw [he₁]; exact ht.levels i s) hw.instrument hL (hq.prices_ne hL) hthis hother hl
  have hstep : e.removeResting h o why now =
      ((e₁.settleLevel o.instrument s A.length l).tell (.onCancel o why now)).freeOrder h o := by
    unfold MatchingEngine.removeResting
    rw [hw.side, hw.price, hfind]
    dsimp only
    rw [hget, hunlink]
  have hpool : (e.removeResting h o why now).pool = e.pool.free h := by
    rw [hstep]
    show (e₁.settleLevel o.instrument s A.length l).pool.free h = _
    rw [hsame.pool, he₁]
  refine ⟨⟨?_, ?_, ?_⟩, hpool, ?_, ?_, ?_⟩
  · have hremove := (hq.remove hL ho).regroup
    rw [hpool]
    have hlinks : (e.removeResting h o why now).links = e.links.unlink h := by
      rw [hstep]
      show (e₁.settleLevel o.instrument s A.length l).links = _
      rw [hsame.links, he₁]
    have hkeys : (e.removeResting h o why now).byKey =
        Function.update e.byKey (orderKey o.account o.clOrdId) none := by
      rw [hstep]
      show Function.update (e₁.settleLevel o.instrument s A.length l).byKey _ none = _
      rw [hsame.byKey, he₁]
    rw [hlinks, hkeys]
    exact hremove
  · intro i' s'
    rw [hpool, hstep]
    exact hlev i' s'
  · exact full_regrouped ht.full hL (x ++ y)
  · rw [hstep]
    show (e₁.settleLevel o.instrument s A.length l).ledgers = _
    rw [hsame.ledgers, he₁]
  · rw [hstep]
    show (e₁.settleLevel o.instrument s A.length l).nextOrderId = _
    rw [hsame.nextOrderId, he₁]
  have hunl : Reports e [] e₁ := by
    rw [he₁]
    exact Reports.quiet rfl (append_nil _).symm (fun _ => rfl) rfl rfl rfl
  have hend : Reports (e₁.settleLevel o.instrument s A.length l) [.onCancel o why now]
      (e.removeResting h o why now) := by
    rw [hstep]
    exact Reports.quiet rfl rfl (fun _ => rfl) rfl rfl rfl
  exact ⟨_, (hunl.trans hrep).trans hend, rfl⟩

/-- The order that is on no queue is freed. -/
theorem Tiered.freeOrder (ht : Tiered e L (some h)) (ho : e.pool.slots h = some o) (o' : SimOrder)
    (hkey : orderKey o'.account o'.clOrdId = orderKey o.account o.clOrdId) :
    Tiered (e.freeOrder h o') L none := by
  refine ⟨?_, fun i s => ?_, ht.full⟩
  · have hfree := ht.queues.free ho
    rw [← hkey] at hfree
    exact hfree
  · refine (ht.levels i s).trans (map_levelOf_congr (h := h) (fun k hk => ?_) fun g hg
      hh => ?_).symm
    · exact (Pool.slots_free ho k).trans (if_neg hk)
    · exact (ht.queues.placed i s g hg h hh).1 rfl

/-! ## Resting -/

/-- A side of the ladder about a price: `x` has its orders, none when it has no group. -/
structure About (gs : List Group) (s : Side) (p : Price) (A : List Group) (x : List Nat)
    (B : List Group) : Prop where
  split : gs = A ++ (p, x) :: B ∨ (x = [] ∧ gs = A ++ B)
  below : ∀ g ∈ A, goodness s g.1 < goodness s p
  above : ∀ g ∈ B, goodness s p < goodness s g.1

theorem exists_about (h : Ascending (fun g : Group => goodness s g.1) gs)
    (p : Price) : ∃ A x B, About gs s p A x B := by
  rcases h.split (goodness s p) with ⟨A, ⟨q, x⟩, B, rfl, hq⟩ | ⟨A, B, rfl, hA, hB⟩
  · obtain rfl : q = p := goodness_injective s hq
    obtain ⟨hA, hB⟩ := h.about
    exact ⟨A, x, B, .inl rfl, hA, hB⟩
  · exact ⟨A, [], B, .inr ⟨rfl, rfl⟩, hA, hB⟩

/-- Where the levels of a side part at a price it has no group of. -/
theorem About.parted (ha : About gs s p A x B) (pool : OrderPool) :
    Parted s p (A.map (levelOf pool)) (B.map (levelOf pool)) ∧
      ∀ l ∈ B.map (levelOf pool), l.price ≠ p := by
  refine ⟨⟨fun l hl => ?_, fun l hl => ?_⟩, fun l hl he => ?_⟩
  · obtain ⟨g, hg, rfl⟩ := mem_map.mp hl
    exact ha.below g hg
  · obtain ⟨g, hg, rfl⟩ := mem_map.mp hl
    exact le_of_lt (ha.above g hg)
  obtain ⟨g, hg, rfl⟩ := mem_map.mp hl
  have hlt := ha.above g hg
  rw [show g.1 = p from he] at hlt
  exact absurd hlt (lt_irrefl _)

/-- A price gets a group when it has none. -/
theorem Queues.withGroup {byKey : Nat → Option Nat}
    (hq : Queues pool links byKey L out) (ha : About (L i s) s p A x B) :
    Queues pool links byKey (L.set i s (A ++ (p, x) :: B)) out := by
  rcases ha.split with hL | ⟨rfl, hL⟩
  · rw [← hL, set_eq]
    exact hq
  refine hq.addGroup hL ?_
  have hsorted := hq.sorted i s
  rw [hL] at hsorted
  obtain ⟨hA, hB, hcross⟩ := pairwise_append.mp hsorted
  refine pairwise_append.mpr ⟨hA, pairwise_cons.mpr ⟨ha.above, hB⟩, ?_⟩
  intro a haA b hb
  rcases mem_cons.mp hb with rfl | hb
  · exact ha.below a haA
  · exact hcross a haA b hb

/-- A level that an order joins. -/
theorem levelOf_push (ho : pool.slots h = some o) : levelOf pool (p, x ++ [h]) =
      { levelOf pool (p, x) with
        head := if (levelOf pool (p, x)).tail = none then some h
          else (levelOf pool (p, x)).head
        tail := some h
        count := (levelOf pool (p, x)).count + 1
        qty := (levelOf pool (p, x)).qty + o.leaves } := by
  unfold levelOf
  congr 1
  · simp [leavesAt_eq ho]
  · cases x with
    | nil => rfl
    | cons z x => simp
  · simp
  · simp

/-- The book about a price: `rest` finds the level at `A.length`, or puts one there. -/
theorem Tiered.findOrInsert (ht : Tiered e L out) (hi : id.value = i)
    (ha : About (L i s) s p A x B) :
    (((e.book id).levels s).size = kMaxSimLevels ∧ (e.book id).findOrInsert s p = none) ∨
      ∃ b, (e.book id).findOrInsert s p = some (A.length, b) ∧
        (b.levels s).get A.length = levelOf e.pool (p, x) ∧
        ∀ l, ∃ v : Levels, b.setLevel s A.length l = (e.book id).setLevels s v ∧
          v.data = A.map (levelOf e.pool) ++ l :: B.map (levelOf e.pool) := by
  subst hi
  have hlen : (A.map (levelOf e.pool)).length = A.length := length_map _
  have hset : ∀ {C D : List PriceLevel} {v : Levels} {l₀ : PriceLevel}, v.data = C ++ l₀ :: D →
      C.length = A.length → ∀ l, (v.set A.length l).data = C ++ l :: D := by
    intro C D v l₀ hv hC l
    show v.data.set A.length l = _
    rw [hv, ← hC, set_append_right _ _ (Nat.le_refl _), Nat.sub_self]
    rfl
  rcases ha.split with hL | ⟨rfl, hL⟩
  · have hdata : ((e.book id).levels s).data = _ := ht.levelsOf_eq hL
    have hfind := findOrInsert_level hdata (ht.queues.parted hL)
    have hget := get_append (v := (e.book id).levels s) hdata
    rw [hlen] at hfind hget
    exact .inr ⟨_, hfind, hget, fun l => ⟨_, rfl, hset hdata hlen l⟩⟩
  have hdata : ((e.book id).levels s).data =
      A.map (levelOf e.pool) ++ B.map (levelOf e.pool) := by
    have h := ht.levels id.value s
    rw [hL, map_append] at h
    exact h
  obtain ⟨hparted, hno⟩ := ha.parted e.pool
  rcases findOrInsert_new hdata hparted hno with hfull | ⟨-, v, hv, hfind⟩
  · exact .inl hfull
  have hlevels : ((e.book id).setLevels s v).levels s = v := by
    exact Function.update_self ..
  rw [hlen] at hfind
  refine .inr ⟨_, hfind, ?_, fun l => ⟨v.set A.length l, ?_, hset hv hlen l⟩⟩
  · rw [hlevels, ← hlen, get_append hv]
    rfl
  unfold SimBook.setLevel
  rw [hlevels]
  unfold SimBook.setLevels
  rw [Function.update_idem]

/-- The order that is on no queue joins its price's, unless the side has no room for a level. -/
theorem Tiered.rest (ht : Tiered e L (some h)) (ho : e.pool.slots h = some o)
    (hleaves : 0 < o.leaves) (ha : About (L o.instrument.value o.side) o.side o.price A x B) :
    (((e.book o.instrument).levels o.side).size = kMaxSimLevels ∧ (e.rest h o).1 = false ∧
        Tiered (e.rest h o).2 L none ∧ (e.rest h o).2.pool = e.pool.free h ∨
      (e.rest h o).1 = true ∧ (e.rest h o).2.pool = e.pool ∧
        Tiered (e.rest h o).2
          (L.set o.instrument.value o.side (A ++ (o.price, x ++ [h]) :: B)) none) ∧
    (e.rest h o).2.ledgers = e.ledgers ∧ (e.rest h o).2.nextOrderId = e.nextOrderId ∧
    ∃ calls, Reports e calls (e.rest h o).2 ∧ fillsOf calls = [] := by
  have hq := ht.queues
  unfold MatchingEngine.rest
  rcases ht.findOrInsert rfl ha with ⟨hfull, hnone⟩ | ⟨b, hfind, hget, hset⟩
  · rw [hnone]
    have hfree := ht.freeOrder ho o rfl
    exact ⟨.inl ⟨hfull, rfl, ⟨hfree.queues, hfree.levels, hfree.full⟩, rfl⟩, rfl, rfl, _,
      Reports.quiet rfl rfl (fun _ => rfl) rfl rfl rfl, rfl⟩
  rw [hfind]
  dsimp only
  rw [hget]
  have hlevel := levelOf_push (p := o.price) (x := x) ho
  generalize ({ levelOf e.pool (o.price, x) with
      head := if (levelOf e.pool (o.price, x)).tail = none then some h
        else (levelOf e.pool (o.price, x)).head
      tail := some h
      count := (levelOf e.pool (o.price, x)).count + 1
      qty := (levelOf e.pool (o.price, x)).qty + o.leaves } : PriceLevel) = l at hlevel ⊢
  obtain ⟨v, hv, hdata⟩ := hset l
  have hsum : (levelOf e.pool (o.price, x)).qty + o.leaves = l.qty := by
    rw [← hlevel, levelOf_push ho]
  rw [hv, hsum]
  have hpush := (hq.withGroup ha).push (set_self L _ _ _) ⟨ho, rfl, rfl, rfl, hleaves⟩
  rw [Ladder.set_set] at hpush
  have hprice : l.price = o.price := by rw [← hlevel]; rfl
  have hqty : ∀ q, qtyAt v.data q =
      if q = o.price then l.qty else qtyAt (e.levelsOf o.instrument.value o.side) q := by
    intro q
    have hA : ∀ a ∈ A.map (levelOf e.pool), a.price ≠ o.price := by
      intro a haA he
      obtain ⟨g, hg, rfl⟩ := mem_map.mp haA
      have hlt := ha.below g hg
      rw [show g.1 = o.price from he] at hlt
      exact absurd hlt (lt_irrefl _)
    rw [hdata, qtyAt_split (by rw [hprice]; exact hA), hprice]
    split_ifs with hp
    · rfl
    rcases ha.split with hL | ⟨-, hL⟩
    · rw [ht.levelsOf_eq hL, qtyAt_split hA]
      exact (if_neg hp).symm
    · have hlev : e.levelsOf o.instrument.value o.side = _ := ht.levels _ _
      rw [hlev, hL, map_append]
  have hlink : Reports e []
      { e with links := e.links.linkBack (levelOf e.pool (o.price, x)).tail h } :=
    Reports.quiet rfl (append_nil _).symm (fun _ => rfl) rfl rfl rfl
  have hreport := hlink.trans (reports_levels
    { e with links := e.links.linkBack (levelOf e.pool (o.price, x)).tail h } hqty)
  refine ⟨.inr ⟨rfl, rfl, hpush, fun i' s' => ?_, ?_⟩, rfl, rfl, _, hreport, rfl⟩
  · refine (levelsOf_bookChanged _ _ _ _ _ i' s').trans ?_
    refine (levelsOf_setLevels
      { e with links := e.links.linkBack (levelOf e.pool (o.price, x)).tail h }
      o.instrument o.side v i' s').trans ?_
    by_cases he : i' = o.instrument.value ∧ s' = o.side
    · obtain ⟨rfl, rfl⟩ := he
      rw [if_pos ⟨rfl, rfl⟩, set_self, hdata, ← hlevel]
      show _ = (A ++ (o.price, x ++ [h]) :: B).map (levelOf e.pool)
      rw [map_append, map_cons]
    · rw [if_neg he, set_of_ne L _ _ _ he]
      exact ht.levels i' s'
  · refine forall_set (P := fun _ _ gs => ∀ g ∈ gs, g.2 ≠ []) L _ _ _ ht.full
      fun g hg => ?_
    have hold : ∀ g ∈ A ++ B, g.2 ≠ [] := by
      intro g hg
      refine ht.full o.instrument.value o.side g ?_
      rcases ha.split with hL | ⟨-, hL⟩
      · rw [hL]
        rcases mem_append.mp hg with hA | hB
        · exact mem_append_left _ hA
        · exact mem_append_right A (mem_cons_of_mem _ hB)
      · rw [hL]
        exact hg
    rcases mem_append.mp hg with hA | hB
    · exact hold g (mem_append_left B hA)
    · rcases mem_cons.mp hB with rfl | hB
      · simp
      · exact hold g (mem_append_right A hB)

end FastMM.Sim
