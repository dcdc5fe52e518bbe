/-
  Sim/BookLevels.lean --- the levels of the matching engine's books, and what it reports of them.

  A level is a function of its queue and the pool: its price, the sum of its orders' leaves, the
  first and last slot and their number.  `Tiered` says so of every level.  `Reports` says that the
  calls made to the sink tell the books: the changes, in order, give every price its quantity, and
  their update ids follow one another.
-/
import FastMM.Sim.OrderQueues
set_option autoImplicit false

namespace FastMM.Sim

open Foundation List OrderPool SimBook

/-! ## Levels of queues -/

def OrderPool.leavesAt (pool : OrderPool) (h : Nat) : Qty :=
  ((pool.slots h).map SimOrder.leaves).getD 0

/-- The level of a group. -/
def OrderPool.levelOf (pool : OrderPool) (g : Group) : PriceLevel where
  price := g.1
  qty := (g.2.map (leavesAt pool)).sum
  head := g.2.head?
  tail := g.2.getLast?
  count := g.2.length

theorem levelOf_congr {pool pool' : OrderPool} {g : Group}
    (h : ∀ k ∈ g.2, pool'.slots k = pool.slots k) :
    levelOf pool' g = levelOf pool g := by
  have hmap : g.2.map (leavesAt pool') = g.2.map (leavesAt pool) :=
    map_congr_left fun k hk => by
      unfold leavesAt
      rw [h k hk]
  unfold levelOf
  rw [hmap]

/-- The levels of an engine are those of a ladder's groups, and none is empty. -/
structure Tiered (e : MatchingEngine) (L : Ladder) (out : Option Nat) : Prop where
  queues : Queues e.pool e.links e.byKey L out
  levels : ∀ i s, ((e.books i).levels s).data = (L i s).map (levelOf e.pool)
  full : ∀ i s, ∀ g ∈ L i s, g.2 ≠ []

/-- The best level of a side, read off the ladder. -/
theorem Tiered.best_eq {e : MatchingEngine} {L : Ladder} {out : Option Nat} (ht : Tiered e L out)
    (id : InstrumentId) (s : Side) :
    (e.book id).best s = (L id.value s).getLast?.map (levelOf e.pool) := by
  unfold SimBook.best
  rw [← getLast?_map, ← ht.levels]
  rfl

/-! ## Searches -/

section Search

variable {b : SimBook} {s : Side} {p : Price} {A B : List PriceLevel} {l : PriceLevel}
variable {v : Levels}

theorem get_append (h : v.data = A ++ l :: B) : v.get A.length = l := by
  unfold StaticVector.get
  rw [h, getD_eq_getElem?_getD, getElem?_append_right (Nat.le_refl _), Nat.sub_self]
  rfl

/-- The prices before an index are worse than `p`, and those from it on are not. -/
structure Parted (s : Side) (p : Price) (A B : List PriceLevel) : Prop where
  below : ∀ l ∈ A, goodness s l.price < goodness s p
  above : ∀ l ∈ B, goodness s p ≤ goodness s l.price

theorem get_of_lt {i : Nat} (h : v.data = A ++ B) (hi : i < A.length) :
    ∃ l ∈ A, v.get i = l := by
  refine ⟨A[i], getElem_mem hi, ?_⟩
  unfold StaticVector.get
  rw [h, getD_eq_getElem?_getD, getElem?_append_left hi, getElem?_eq_getElem hi]
  rfl

theorem get_of_ge {i : Nat} (h : v.data = A ++ B) (hi : A.length ≤ i)
    (hlt : i < v.size) : ∃ l ∈ B, v.get i = l := by
  have hlen : i - A.length < B.length := by
    unfold StaticVector.size at hlt
    rw [h, length_append] at hlt
    omega
  refine ⟨B[i - A.length], getElem_mem hlen, ?_⟩
  unfold StaticVector.get
  rw [h, getD_eq_getElem?_getD, getElem?_append_right hi, getElem?_eq_getElem hlen]
  rfl

theorem lowerBound_eq (h : (b.levels s).data = A ++ B) (hp : Parted s p A B) :
    b.lowerBound s p = A.length := by
  have hsize : (b.levels s).size = A.length + B.length := by
    unfold StaticVector.size
    rw [h, length_append]
  have hworse : ∀ i, i < A.length → better s p ((b.levels s).get i).price = true := by
    intro i hi
    obtain ⟨l, hl, hget⟩ := get_of_lt h hi
    rw [hget]
    exact (better_iff s p l.price).mpr (hp.below l hl)
  have hgood : ∀ i, A.length ≤ i → i < (b.levels s).size →
      better s p ((b.levels s).get i).price = false := by
    intro i hi hlt
    obtain ⟨l, hl, hget⟩ := get_of_ge h hi hlt
    rw [hget]
    refine Bool.eq_false_iff.mpr fun hb => ?_
    exact absurd ((better_iff s p l.price).mp hb) (not_lt.mpr (hp.above l hl))
  unfold lowerBound
  dsimp only
  split_ifs with hhint
  · by_cases hB : B = []
    · rw [hsize, hB, length_nil, Nat.add_zero]
    have hpos := length_pos_of_ne_nil hB
    have hlast := hgood ((b.levels s).size - 1) (by omega) (by omega)
    rw [hlast] at hhint
    exact absurd hhint.2 (by simp)
  have hparts : Parts (fun mid => better s p ((b.levels s).get mid).price) 0
      (b.levels s).size (bisect (fun mid => better s p ((b.levels s).get mid).price) 0
        (b.levels s).size) := by
    refine bisect_parts (Nat.zero_le _) fun i j hij hj hbj => ?_
    by_cases hjA : j < A.length
    · exact hworse i (by omega)
    · simp [hgood j (by omega) hj] at hbj
  generalize bisect (fun mid => better s p ((b.levels s).get mid).price) 0
    (b.levels s).size = r at hparts
  have hle := hparts.le_right
  rcases Nat.lt_trichotomy r A.length with hr | hr | hr
  · have hfail := hparts.fails r (Nat.le_refl r) (by omega)
    simp [hworse r hr] at hfail
  · exact hr
  · have hhold := hparts.holds A.length (Nat.zero_le _) hr
    simp [hgood A.length (Nat.le_refl _) (by omega)] at hhold

/-- A level is found at its place. -/
theorem find_level (h : (b.levels s).data = A ++ l :: B) (hp : Parted s l.price A (l :: B)) :
    b.find s l.price = some A.length := by
  have hlt : A.length < (b.levels s).size := by
    unfold StaticVector.size
    rw [h, length_append, length_cons]
    omega
  unfold SimBook.find
  dsimp only
  rw [lowerBound_eq h hp, get_append h, if_pos ⟨hlt, rfl⟩]

/-- What is found is a level at the price. -/
theorem find_none (h : (b.levels s).data = A ++ B) (hp : Parted s p A B)
    (hno : ∀ l ∈ B, l.price ≠ p) : b.find s p = none := by
  unfold SimBook.find
  rw [lowerBound_eq h hp, if_neg]
  rintro ⟨hlt, hprice⟩
  obtain ⟨l, hl, hget⟩ := get_of_ge h (Nat.le_refl _) hlt
  rw [hget] at hprice
  exact hno l hl hprice

theorem findOrInsert_level (h : (b.levels s).data = A ++ l :: B)
    (hp : Parted s l.price A (l :: B)) : b.findOrInsert s l.price = some (A.length, b) := by
  have hlt : A.length < (b.levels s).size := by
    unfold StaticVector.size
    rw [h, length_append, length_cons]
    omega
  unfold findOrInsert
  dsimp only
  rw [lowerBound_eq h hp, get_append h, if_pos ⟨hlt, rfl⟩]

/-- A price the side does not have gets a level, unless the side is full. -/
theorem findOrInsert_new (h : (b.levels s).data = A ++ B) (hp : Parted s p A B)
    (hno : ∀ l ∈ B, l.price ≠ p) :
    ((b.levels s).size = kMaxSimLevels ∧ b.findOrInsert s p = none) ∨
      (b.levels s).size < kMaxSimLevels ∧ ∃ v : Levels, v.data = A ++ { price := p } :: B ∧
        b.findOrInsert s p = some (A.length, b.setLevels s v) := by
  have habsent : ¬ (A.length < (b.levels s).size ∧ ((b.levels s).get A.length).price = p) := by
    rintro ⟨hlt, hprice⟩
    obtain ⟨l, hl, hget⟩ := get_of_ge h (Nat.le_refl _) hlt
    rw [hget] at hprice
    exact hno l hl hprice
  unfold findOrInsert
  rw [lowerBound_eq h hp, if_neg habsent]
  have hle : A.length ≤ (b.levels s).size := by
    unfold StaticVector.size
    rw [h, length_append]
    omega
  by_cases hfull : (b.levels s).size = kMaxSimLevels
  · exact .inl ⟨hfull, if_pos hfull⟩
  have hsize : (b.levels s).size ≤ kMaxSimLevels := (b.levels s).length_le
  refine .inr ⟨by omega, (b.levels s).insertAt A.length { price := p }, ?_, if_neg hfull⟩
  unfold StaticVector.insertAt
  rw [dif_neg (by omega)]
  show (b.levels s).data.insertIdx A.length _ = _
  rw [insertIdx_eq_append hle, h, take_left, drop_left]

end Search

/-! ## Reports -/

/-- A change the sink is told of. -/
structure BookChange where
  side : Side
  price : Price
  qty : Qty
  updateId : Nat
  deriving DecidableEq, Repr

def changeOf (i : Nat) : SinkCall → Option BookChange
  | .onBookChange id side px qty u => if id.value = i then some ⟨side, px, qty, u⟩ else none
  | _ => none

/-- The changes of instrument `i`. -/
def changes (i : Nat) (calls : List SinkCall) : List BookChange := calls.filterMap (changeOf i)

/-- The quantity at a price. -/
def qtyAt (ls : List PriceLevel) (p : Price) : Qty :=
  ((ls.find? fun l => l.price = p).map PriceLevel.qty).getD 0

theorem qtyAt_absent {ls : List PriceLevel} {p : Price} (h : ∀ l ∈ ls, l.price ≠ p) :
    qtyAt ls p = 0 := by
  unfold qtyAt
  rw [List.find?_eq_none.mpr fun l hl => by simpa using h l hl]
  rfl

theorem qtyAt_split {A B : List PriceLevel} {l : PriceLevel} (hA : ∀ a ∈ A, a.price ≠ l.price)
    (p : Price) : qtyAt (A ++ l :: B) p = if p = l.price then l.qty else qtyAt (A ++ B) p := by
  unfold qtyAt
  rw [find?_append, find?_append]
  by_cases hp : p = l.price
  · subst hp
    rw [if_pos rfl, List.find?_eq_none.mpr fun a ha => by simpa using hA a ha,
      find?_cons_of_pos (by simp)]
    rfl
  · rw [if_neg hp, find?_cons_of_neg (by simpa using fun he => hp he.symm)]

/-- The levels of a side of instrument `i`, the worst first. -/
def MatchingEngine.levelsOf (e : MatchingEngine) (i : Nat) (s : Side) : List PriceLevel :=
  ((e.books i).levels s).data

/-- Quantities by side and price, after some changes. -/
def replay (q : Side → Price → Qty) (cs : List BookChange) : Side → Price → Qty :=
  cs.foldl (fun q c s p => if s = c.side ∧ p = c.price then c.qty else q s p) q

theorem replay_append (q : Side → Price → Qty) (cs cs' : List BookChange) :
    replay q (cs ++ cs') = replay (replay q cs) cs' := foldl_append

/-- The calls of a step tell what it did to the books. -/
structure Tells (e : MatchingEngine) (calls : List SinkCall) (e' : MatchingEngine) : Prop where
  told : e'.told = e.told ++ calls
  qty : ∀ i s p, qtyAt (e'.levelsOf i s) p =
    replay (fun s p => qtyAt (e.levelsOf i s) p) (changes i calls) s p
  ids : ∀ i, (changes i calls).map BookChange.updateId =
    List.range' ((e.books i).updateId + 1) (changes i calls).length
  updateId : ∀ i, (e'.books i).updateId = (e.books i).updateId + (changes i calls).length
  instrumentCount : e'.instrumentCount = e.instrumentCount

namespace Tells

variable {e e' e'' : MatchingEngine} {calls calls' : List SinkCall}

theorem refl (e : MatchingEngine) : Tells e [] e :=
  ⟨(append_nil _).symm, fun _ _ _ => rfl, fun _ => rfl, fun _ => rfl, rfl⟩

theorem trans (h : Tells e calls e') (h' : Tells e' calls' e'') :
    Tells e (calls ++ calls') e'' := by
  have happ : ∀ i, changes i (calls ++ calls') = changes i calls ++ changes i calls' :=
    fun i => filterMap_append
  constructor
  · rw [h'.told, h.told, append_assoc]
  · intro i s p
    have hfirst : (fun s p => qtyAt (e'.levelsOf i s) p) =
        replay (fun s p => qtyAt (e.levelsOf i s) p) (changes i calls) :=
      funext fun s => funext fun p => h.qty i s p
    rw [happ, replay_append, h'.qty, hfirst]
  · intro i
    rw [happ, map_append, h.ids, h'.ids, h.updateId, length_append]
    rw [← range'_append_1, Nat.add_right_comm]
  · intro i
    rw [h'.updateId, h.updateId, happ, length_append, Nat.add_assoc]
  · exact h'.instrumentCount.trans h.instrumentCount

end Tells

/-- A step tells what it did, and what is set up stays. -/
structure Reports (e : MatchingEngine) (calls : List SinkCall) (e' : MatchingEngine) : Prop
    extends Tells e calls e' where
  reducible : e'.reducible = e.reducible
  stpTable : e'.stpTable = e.stpTable

namespace Reports

variable {e e' e'' : MatchingEngine} {calls calls' : List SinkCall}

theorem refl (e : MatchingEngine) : Reports e [] e := ⟨Tells.refl e, rfl, rfl⟩

theorem trans (h : Reports e calls e') (h' : Reports e' calls' e'') :
    Reports e (calls ++ calls') e'' :=
  ⟨h.toTells.trans h'.toTells, h'.reducible.trans h.reducible, h'.stpTable.trans h.stpTable⟩

/-- A step that leaves the books alone and tells no change. -/
theorem quiet (hbooks : e'.books = e.books) (htold : e'.told = e.told ++ calls)
    (hcalls : ∀ i, changes i calls = []) (hcount : e'.instrumentCount = e.instrumentCount)
    (hreducible : e'.reducible = e.reducible) (hstp : e'.stpTable = e.stpTable) :
    Reports e calls e' := by
  refine ⟨⟨htold, fun i s p => ?_, fun i => ?_, fun i => ?_, hcount⟩, hreducible, hstp⟩
  · rw [hcalls]
    unfold MatchingEngine.levelsOf
    rw [hbooks]
    rfl
  · rw [hcalls]
    rfl
  · rw [hcalls, hbooks]
    rfl

/-- A step that gives one price its quantity and tells so. -/
theorem change {id : InstrumentId} {side : Side} {px : Price} {q : Qty}
    (htold : e'.told = e.told ++ [.onBookChange id side px q ((e.books id.value).updateId + 1)])
    (hother : ∀ i s, ¬ (i = id.value ∧ s = side) → e'.levelsOf i s = e.levelsOf i s)
    (hthis : ∀ p, qtyAt (e'.levelsOf id.value side) p =
      if p = px then q else qtyAt (e.levelsOf id.value side) p)
    (hid : ∀ i, (e'.books i).updateId =
      if i = id.value then (e.books i).updateId + 1 else (e.books i).updateId)
    (hcount : e'.instrumentCount = e.instrumentCount) (hreducible : e'.reducible = e.reducible)
    (hstp : e'.stpTable = e.stpTable) :
    Reports e [.onBookChange id side px q ((e.books id.value).updateId + 1)] e' := by
  have hchanges : ∀ i, changes i [.onBookChange id side px q ((e.books id.value).updateId + 1)] =
        if id.value = i then [⟨side, px, q, (e.books id.value).updateId + 1⟩] else [] := by
    intro i
    unfold changes changeOf
    by_cases hi : id.value = i
    · simp [hi]
    · simp [hi]
  refine ⟨⟨htold, fun i s p => ?_, fun i => ?_, fun i => ?_, hcount⟩, hreducible, hstp⟩
  · rw [hchanges]
    by_cases hi : id.value = i
    · subst hi
      rw [if_pos rfl]
      show _ = if s = side ∧ p = px then q else qtyAt (e.levelsOf id.value s) p
      by_cases hs : s = side
      · subst hs
        rw [hthis]
        by_cases hp : p = px
        · rw [if_pos hp, if_pos ⟨rfl, hp⟩]
        · rw [if_neg hp, if_neg fun h => hp h.2]
      · rw [if_neg fun h => hs h.1, hother _ _ fun h => hs h.2]
    · rw [if_neg hi, hother _ _ fun h => hi h.1.symm]
      rfl
  · rw [hchanges]
    by_cases hi : id.value = i
    · subst hi
      rw [if_pos rfl]
      rfl
    · rw [if_neg hi]
      rfl
  · rw [hchanges, hid]
    by_cases hi : id.value = i
    · rw [if_pos hi, if_pos hi.symm]
      rfl
    · rw [if_neg hi, if_neg fun h => hi h.symm]
      rfl

end Reports

/-! ## Steps of the books -/

namespace MatchingEngine

variable (e : MatchingEngine)
variable (id : InstrumentId)
variable (side : Side)

theorem levelsOf_setBook (b : SimBook) (i : Nat) (s : Side) :
    (e.setBook id b).levelsOf i s = if i = id.value then (b.levels s).data else e.levelsOf i s := by
  unfold levelsOf setBook
  dsimp only
  rw [Function.update_apply]
  split <;> rfl

/-- One side's levels rewritten. -/
theorem levelsOf_setLevels (v : Levels) (i : Nat) (s : Side) :
    (e.setBook id ((e.book id).setLevels side v)).levelsOf i s =
      if i = id.value ∧ s = side then v.data else e.levelsOf i s := by
  rw [levelsOf_setBook]
  unfold setLevels
  by_cases hi : i = id.value
  · subst hi
    by_cases hs : s = side
    · subst hs
      simp
    rw [if_pos rfl, if_neg fun h => hs h.2]
    dsimp only
    rw [Function.update_of_ne hs]
    rfl
  · rw [if_neg hi, if_neg fun h => hi h.1]

theorem updateId_setBook (b : SimBook) (i : Nat) : ((e.setBook id b).books i).updateId =
      if i = id.value then b.updateId else (e.books i).updateId := by
  unfold setBook
  dsimp only
  rw [Function.update_apply]
  split <;> rfl

theorem levelsOf_bookChanged (px : Price) (q : Qty) (i : Nat)
    (s : Side) : (e.bookChanged id side px q).levelsOf i s = e.levelsOf i s := by
  show (e.setBook id _).levelsOf i s = _
  rw [levelsOf_setBook]
  split_ifs with hi
  · rw [hi]
    rfl
  · rfl

theorem updateId_bookChanged (px : Price) (q : Qty) (i : Nat) :
    ((e.bookChanged id side px q).books i).updateId =
      if i = id.value then (e.books i).updateId + 1 else (e.books i).updateId := by
  show ((e.setBook id _).books i).updateId = _
  rw [updateId_setBook]
  split_ifs with hi
  · rw [hi]
    rfl
  · rfl

/-- A side gets levels that differ at one price, and the sink is told. -/
theorem reports_levels {id : InstrumentId} {side : Side} {px : Price} {q : Qty} {v : Levels}
    (h : ∀ p, qtyAt v.data p = if p = px then q else qtyAt (e.levelsOf id.value side) p) :
    Reports e [.onBookChange id side px q ((e.books id.value).updateId + 1)]
      ((e.setBook id ((e.book id).setLevels side v)).bookChanged id side px q) := by
  have hid : (e.setBook id ((e.book id).setLevels side v)).book id =
      (e.book id).setLevels side v := by
    unfold book setBook
    dsimp only
    rw [Function.update_self]
  refine Reports.change ?_ (fun i s hne => ?_) (fun p => ?_) (fun i => ?_) rfl rfl rfl
  · show e.told ++ [_] = _
    rw [hid]
    rfl
  · rw [levelsOf_bookChanged, levelsOf_setLevels, if_neg hne]
  · rw [levelsOf_bookChanged, levelsOf_setLevels, if_pos ⟨rfl, rfl⟩, h]
  rw [updateId_bookChanged, updateId_setBook]
  split_ifs with hi
  · rw [hi]
    rfl
  · rfl

/-- A step of the books leaves the orders as they are. -/
structure SameOrders (e e' : MatchingEngine) : Prop where
  pool : e'.pool = e.pool
  links : e'.links = e.links
  byKey : e'.byKey = e.byKey
  ledgers : e'.ledgers = e.ledgers
  nextOrderId : e'.nextOrderId = e.nextOrderId

/-- A level is written back, or leaves the book. -/
theorem settleLevel_spec {id : InstrumentId} {side : Side} {A B : List PriceLevel}
    {l₀ l : PriceLevel} (h : e.levelsOf id.value side = A ++ l₀ :: B) (hprice : l.price = l₀.price)
    (hA : ∀ a ∈ A, a.price ≠ l₀.price) (hB : ∀ b ∈ B, b.price ≠ l₀.price) :
    (∀ i s, (e.settleLevel id side A.length l).levelsOf i s =
      if i = id.value ∧ s = side then (if l.count = 0 then A ++ B else A ++ l :: B)
      else e.levelsOf i s) ∧
    SameOrders e (e.settleLevel id side A.length l) ∧
    ∃ q u, Reports e [.onBookChange id side l.price q u] (e.settleLevel id side A.length l) := by
  have hqty : ∀ p, qtyAt (e.levelsOf id.value side) p =
      if p = l₀.price then l₀.qty else qtyAt (A ++ B) p := fun p => by rw [h, qtyAt_split hA]
  have habsent : qtyAt (A ++ B) l₀.price = 0 := qtyAt_absent fun x hx =>
    (mem_append.mp hx).elim (hA x) (hB x)
  unfold settleLevel
  split
  · have hdata : ((((e.bookChanged id side l.price 0).book id).levels side).eraseAt
        A.length).data = A ++ B := by
      show (((e.bookChanged id side l.price 0).levelsOf id.value side)).eraseIdx A.length = _
      rw [levelsOf_bookChanged, h, eraseIdx_append_of_length_le (Nat.le_refl _), Nat.sub_self]
      rfl
    have hlevels : ∀ i s, ((e.bookChanged id side l.price 0).setBook id
        (((e.bookChanged id side l.price 0).book id).erase side A.length)).levelsOf i s =
          if i = id.value ∧ s = side then A ++ B else e.levelsOf i s := by
      intro i s
      unfold SimBook.erase
      rw [levelsOf_setLevels, hdata, levelsOf_bookChanged]
    refine ⟨hlevels, ⟨rfl, rfl, rfl, rfl, rfl⟩, 0, (e.books id.value).updateId + 1, ?_⟩
    refine Reports.change rfl (fun i s hne => ?_) (fun p => ?_) (fun i => ?_) rfl rfl rfl
    · rw [hlevels, if_neg hne]
    · rw [hlevels, if_pos ⟨rfl, rfl⟩, hqty, hprice]
      split_ifs with hp
      · rw [hp, habsent]
      · rfl
    · rw [updateId_setBook]
      split_ifs with hi
      · rw [hi]
        show ((e.bookChanged id side l.price 0).books id.value).updateId = _
        rw [updateId_bookChanged, if_pos rfl]
      · rw [updateId_bookChanged, if_neg hi]
  · have hdata : ((((e.book id).levels side)).set A.length l).data = A ++ l :: B := by
      show (e.levelsOf id.value side).set A.length l = _
      rw [h, set_append_right _ _ (Nat.le_refl _), Nat.sub_self]
      rfl
    refine ⟨fun i s => ?_, ⟨rfl, rfl, rfl, rfl, rfl⟩, l.qty, (e.books id.value).updateId + 1, ?_⟩
    · rw [levelsOf_bookChanged]
      unfold setLevel
      rw [levelsOf_setLevels, hdata]
    · refine e.reports_levels fun p => ?_
      rw [hdata, qtyAt_split (fun a ha => hprice ▸ hA a ha), hqty, hprice]
      split_ifs with hp
      · rfl
      · rfl

end MatchingEngine

end FastMM.Sim
