/-
  Book/L2Book.lean --- the price-aggregated book.

  Source: `include/fastmm/core/book/l2_book.hpp` and `BookDeltaMsg` of
  `messages.hpp`.

  Either side is a vector of levels, the worst first, so that one code path
  serves both.  A side keeps at most `kMaxDepth` levels of the market; what it
  drops sets its `truncated` flag until the next snapshot.

  The reference beside a book is the quantity last set at each price since the
  last snapshot, zero where a price was deleted or never set.
-/
import FastMM.Core.Types
import FastMM.Core.Containers
import FastMM.Foundation.SortedTables
set_option autoImplicit false

namespace FastMM

open Foundation Function List

/-- `BookDeltaMsg`; `isSnapshot`, `truncatedBids` and `truncatedAsks` are flags of
its header. -/
structure BookDeltaMsg where
  hdr : EventHeader := {}
  isSnapshot : Bool := false
  truncatedBids : Bool := false
  truncatedAsks : Bool := false
  firstUpdateId : Nat := 0
  lastUpdateId : Nat := 0
  prevUpdateId : Nat := 0
  bids : List Level := []
  asks : List Level := []
  deriving DecidableEq, Repr

namespace L2Book

/-- `kOwnLevels`: the room for levels of our own. -/
def kOwnLevels : Nat := 32

def kLinearScan : Nat := 16

abbrev Levels (kMaxDepth : Nat) : Type := StaticVector Level (kMaxDepth + kOwnLevels)

end L2Book

/-- `L2Book<kMaxDepth>`. -/
structure L2Book (kMaxDepth : Nat) where
  levels : Side → L2Book.Levels kMaxDepth := fun _ => .nil
  seq : Nat := 0
  lastUpdate : Timestamp := 0
  crossedSince : Timestamp := 0
  truncated : Side → Bool := fun _ => false
  haveSnapshot : Bool := false

namespace L2Book

variable {kMaxDepth : Nat}
variable (b : L2Book kMaxDepth)

/-! ## Lookups -/

/-- The scan of `locate` from the best level, `i` levels being left: `none` when
it reaches `stop`. -/
def scanTop (v : Levels kMaxDepth) (side : Side) (price : Price) (stop : Nat) :
    Nat → Option (Nat × Bool)
  | 0 => none
  | i + 1 =>
    if i + 1 ≤ stop then none
    else if (v.get i).price = price then some (i, true)
    else if better side price (v.get i).price then some (i + 1, false)
    else scanTop v side price stop i

/-- `locate`: the first level at or better than `price`, counted from the worst,
and whether it is at `price`. -/
def locate (v : Levels kMaxDepth) (side : Side) (price : Price) : Nat × Bool :=
  let stop := if kLinearScan < v.size then v.size - kLinearScan else 0
  match scanTop v side price stop v.size with
  | some r => r
  | none =>
    if stop = 0 then (0, false)
    else
      let lo := bisect (fun mid => better side price (v.get mid).price) 0 stop
      (lo, decide (lo < v.size ∧ (v.get lo).price = price))

def crossed : Bool :=
  match (b.levels .buy).data.getLast?, (b.levels .sell).data.getLast? with
  | some bid, some ask => decide (ask.price ≤ bid.price)
  | _, _ => false

/-! ## Mutation -/

/-- The book with one side rewritten. -/
def setLevels (side : Side) (v : Levels kMaxDepth) : L2Book kMaxDepth :=
  { b with levels := update b.levels side v }

/-- The book with one side's `truncated` flag up. -/
def setTruncated (side : Side) : L2Book kMaxDepth :=
  { b with truncated := update b.truncated side true }

def clear : L2Book kMaxDepth :=
  { b with
    levels := fun _ => .nil
    truncated := fun _ => false
    haveSnapshot := false
    crossedSince := 0
    seq := 0 }

/-- `apply_level`: whether the level was kept, and the quantity it had. -/
def applyLevel (side : Side) (price : Price) (qty : Qty) :
    L2Book kMaxDepth × Bool × Qty :=
  let v := b.levels side
  let (i, found) := locate v side price
  if found then
    let old := (v.get i).qty
    if qty = 0 then (b.setLevels side (v.eraseAt i), true, old)
    else (b.setLevels side (v.set i { v.get i with qty := qty }), true, old)
  else if qty = 0 then (b, true, 0)
  else if kMaxDepth ≤ v.size then
    let b := b.setTruncated side
    if i = 0 then (b, false, 0)
    else (b.setLevels side ((v.copyFront 1 i).set (i - 1) ⟨price, qty⟩), true, 0)
  else (b.setLevels side (v.insertAt i ⟨price, qty⟩), true, 0)

/-- One `apply_level` after another. -/
def applyLevels (side : Side) (ls : List Level) : L2Book kMaxDepth :=
  ls.foldl (fun b l => (b.applyLevel side l.price l.qty).1) b

/-- The direction of a snapshot's side, as far as `prev`: zero once a level breaks
it. -/
def checkOrder (side : Side) (order : Int) (prev : Level) : List Level → Int
  | [] => order
  | l :: rest =>
    if 0 < l.qty ∧ (if order = 1 then better side prev.price l.price
        else better side l.price prev.price) = true then
      checkOrder side order l rest
    else 0

/-- The direction `load_side` finds: 1 best first, -1 worst first, 0 neither. -/
def loadOrder (side : Side) : List Level → Int
  | [] => 0
  | l :: rest =>
    if 0 < l.qty then
      let order := match rest with
        | [] => 1
        | l' :: _ => if better side l.price l'.price then 1 else -1
      checkOrder side order l rest
    else 0

/-- The best levels of a sorted snapshot, worst first. -/
def loaded (order : Int) (ls : List Level) : Levels kMaxDepth :=
  ⟨if order = 1 then (ls.take kMaxDepth).reverse else ls.drop (ls.length - kMaxDepth), by
    split
    · rw [length_reverse, length_take]
      omega
    · rw [length_drop]
      omega⟩

def loadSide (side : Side) (ls : List Level) : L2Book kMaxDepth :=
  let order := loadOrder side ls
  if order = 0 then b.applyLevels side ls
  else
    let b := b.setLevels side (loaded order ls)
    if kMaxDepth < ls.length then b.setTruncated side else b

def updateCrossed (ts : Timestamp) : L2Book kMaxDepth :=
  if b.crossed then if b.crossedSince = 0 then { b with crossedSince := ts } else b
  else { b with crossedSince := 0 }

def applySnapshot (bids asks : List Level) (seq : Nat) (ts : Timestamp) :
    L2Book kMaxDepth :=
  let b := (b.clear.loadSide .buy bids).loadSide .sell asks
  { b with haveSnapshot := true, seq := seq, lastUpdate := ts }.updateCrossed ts

/-- The worst price a message carries. -/
def worstCarried (side : Side) (l : Level) (rest : List Level) : Price :=
  rest.foldl (fun bound l => if better side bound l.price then l.price else bound) l.price

def trimBehind (side : Side) (carried : List Level) : L2Book kMaxDepth :=
  match carried with
  | [] => b
  | l :: rest =>
    let bound := worstCarried side l rest
    let v := b.levels side
    let k := (v.data.takeWhile fun l => better side bound l.price).length
    if k = 0 then b else (b.setLevels side (v.eraseFront k)).setTruncated side

def applyDelta (d : BookDeltaMsg) : L2Book kMaxDepth :=
  let ts := if d.hdr.exchTs ≠ 0 then d.hdr.exchTs else d.hdr.recvTs
  if d.isSnapshot then b.applySnapshot d.bids d.asks d.lastUpdateId ts
  else
    let b := (b.applyLevels .buy d.bids).applyLevels .sell d.asks
    let b := if d.truncatedBids then b.trimBehind .buy d.bids else b
    let b := if d.truncatedAsks then b.trimBehind .sell d.asks else b
    { b with seq := d.lastUpdateId, lastUpdate := ts }.updateCrossed ts

/-! ## Where a lookup lands -/

/-- A side's levels, worst first. -/
abbrev Sorted (side : Side) (ls : List Level) : Prop :=
  Ascending (fun l => goodness side l.price) ls

section Locate

variable {v : Levels kMaxDepth} {side : Side} {price : Price}
variable {i : Nat}

/-- Where a price belongs in a side, and whether it is there. -/
structure Located (v : Levels kMaxDepth) (side : Side) (price : Price) (r : Nat × Bool) : Prop where
  place : Place (fun l => goodness side l.price) v.data (goodness side price) r.1
  found : r.2 = true ↔ ∃ l, v.data[r.1]? = some l ∧ l.price = price

/-- The levels of a side from an index on are better than a price. -/
def BetterFrom (v : Levels kMaxDepth) (side : Side) (price : Price) (i : Nat) : Prop :=
  ∀ j l, v.data[j]? = some l → i ≤ j → goodness side price < goodness side l.price

/-- A price between two neighbours. -/
theorem Located.absent (hv : Sorted side v.data) (hi : i ≤ v.size)
    (habove : BetterFrom v side price i)
    (hbelow : ∀ l, v.data[i - 1]? = some l → 0 < i → goodness side l.price < goodness side price) :
    Located v side price (i, false) := by
  refine ⟨Place.of_index hi ?_ fun j l hj hle => le_of_lt (habove j l hj hle), ?_⟩
  · intro j l hj hlt
    have hlast : i - 1 < v.data.length := lt_of_lt_of_le (by omega) hi
    obtain ⟨y, hy⟩ : ∃ y, v.data[i - 1]? = some y := ⟨_, getElem?_eq_getElem hlast⟩
    have hy' := hbelow y hy (by omega)
    rcases Nat.lt_or_ge j (i - 1) with hj' | hj'
    · exact lt_trans (hv.lt_of_lt hj hy hj') hy'
    have heq : j = i - 1 := by omega
    rw [heq, hy] at hj
    rw [← Option.some.inj hj]
    exact hy'
  · refine ⟨nofun, ?_⟩
    rintro ⟨l, hl, rfl⟩
    exact absurd (habove i l hl (Nat.le_refl i)) (lt_irrefl _)

/-- A price at one of the levels. -/
theorem Located.present (hv : Sorted side v.data) {l : Level}
    (hl : v.data[i]? = some l) (hprice : l.price = price) : Located v side price (i, true) := by
  obtain ⟨hlt, _⟩ := List.getElem?_eq_some_iff.mp hl
  refine ⟨Place.of_index (Nat.le_of_lt hlt) ?_ ?_, ⟨fun _ => ⟨l, hl, hprice⟩, fun _ => rfl⟩⟩
  · intro j y hj hji
    rw [← hprice]
    exact hv.lt_of_lt hj hl hji
  intro j y hj hij
  rw [← hprice]
  rcases Nat.lt_or_ge i j with hij' | hij'
  · exact le_of_lt (hv.lt_of_lt hl hj hij')
  · have heq : j = i := by omega
    rw [heq, hl] at hj
    rw [Option.some.inj hj]

theorem get_eq {l : Level} (hl : v.data[i]? = some l) : v.get i = l := by
  unfold StaticVector.get
  rw [getD_eq_getElem?_getD, hl]
  rfl

theorem exists_get (hi : i < v.size) : ∃ l, v.data[i]? = some l ∧ v.get i = l := by
  have hl : v.data[i]? = some _ := getElem?_eq_getElem hi
  exact ⟨_, hl, get_eq hl⟩

/-- The scan from the best level: it lands, or every level down to `stop` is
better than the price. -/
theorem scanTop_spec (hv : Sorted side v.data) {stop i : Nat} (hi : i ≤ v.size)
    (habove : BetterFrom v side price i) :
    (∃ r, scanTop v side price stop i = some r ∧ Located v side price r) ∨
      (scanTop v side price stop i = none ∧ BetterFrom v side price (min i stop)) := by
  induction i with
  | zero =>
    right
    rw [Nat.zero_min]
    exact ⟨rfl, habove⟩
  | succ i ih =>
    unfold scanTop
    by_cases hstop : i + 1 ≤ stop
    · right
      rw [if_pos hstop, Nat.min_eq_left hstop]
      exact ⟨rfl, habove⟩
    rw [if_neg hstop]
    obtain ⟨l, hl, hget⟩ := exists_get (v := v) hi
    rw [hget]
    by_cases hp : l.price = price
    · rw [if_pos hp]
      exact Or.inl ⟨_, rfl, Located.present hv hl hp⟩
    rw [if_neg hp]
    by_cases hb : better side price l.price = true
    · rw [if_pos hb]
      refine Or.inl ⟨_, rfl, Located.absent hv hi habove ?_⟩
      intro y hy _
      rw [Nat.add_sub_cancel, hl] at hy
      rw [← Option.some.inj hy]
      exact (better_iff side price l.price).mp hb
    -- Neither at the price nor worse: the level is better, and the scan goes on.
    rw [if_neg hb]
    have hgood : goodness side price < goodness side l.price := by
      refine lt_of_le_of_ne (not_lt.mp fun hlt => hb ((better_iff _ _ _).mpr hlt)) ?_
      exact fun heq => hp (goodness_injective side heq.symm)
    have hfrom : BetterFrom v side price i := by
      intro j y hy hij
      rcases Nat.lt_or_ge i j with hij' | hij'
      · exact habove j y hy hij'
      have heq : j = i := by omega
      rw [heq, hl] at hy
      rw [← Option.some.inj hy]
      exact hgood
    have hmin : min (i + 1) stop = min i stop := by omega
    rw [hmin]
    exact ih (by omega) hfrom

/-- `locate` finds the place of a price in a sorted side. -/
theorem locate_spec (hv : Sorted side v.data) (price : Price) :
    Located v side price (locate v side price) := by
  have hnone : BetterFrom v side price v.size := by
    intro j l hj hle
    obtain ⟨hlt, _⟩ := List.getElem?_eq_some_iff.mp hj
    exact absurd hlt (not_lt.mpr hle)
  unfold locate
  simp only
  generalize hstop : (if kLinearScan < v.size then v.size - kLinearScan else 0) = stop
  have hle : stop ≤ v.size := by
    rw [← hstop]
    split <;> omega
  have hscan : _ ∨ (scanTop v side price stop v.size = none ∧ _) :=
    scanTop_spec hv (Nat.le_refl _) hnone
  rcases hscan with ⟨r, hr, hloc⟩ | ⟨hr, hfrom⟩
  · rw [hr]
    exact hloc
  rw [Nat.min_eq_right hle] at hfrom
  rw [hr]
  simp only
  split_ifs with hzero
  · rw [hzero] at hfrom
    exact Located.absent hv (Nat.zero_le _) hfrom fun _ _ h => nomatch h
  -- The levels worse than the price are a prefix, which the bisection ends.
  have hmono : ∀ i j, i ≤ j → j < stop → better side price (v.get j).price = true →
      better side price (v.get i).price = true := by
    intro i j hij hj hb
    obtain ⟨x, hx, hgx⟩ := exists_get (v := v) (show i < v.size by omega)
    obtain ⟨y, hy, hgy⟩ := exists_get (v := v) (show j < v.size by omega)
    rw [hgy, better_iff] at hb
    rw [hgx, better_iff]
    rcases Nat.lt_or_ge i j with hlt | hge
    · exact lt_trans (hv.lt_of_lt hx hy hlt) hb
    have heq : i = j := by omega
    rw [heq, hy] at hx
    rw [← Option.some.inj hx]
    exact hb
  have hparts := bisect_parts (Nat.zero_le stop) hmono
  generalize bisect (fun mid => better side price (v.get mid).price) 0 stop = lo at hparts
  have hlo := hparts.le_right
  refine ⟨Place.of_index (le_trans hlo hle) ?_ ?_, ?_⟩
  · intro j l hj hlt
    have hb := hparts.holds j (Nat.zero_le j) hlt
    rw [get_eq hj] at hb
    exact (better_iff side price l.price).mp hb
  · intro j l hj hge
    rcases Nat.lt_or_ge j stop with hlt | hge'
    · have hb := hparts.fails j hge hlt
      rw [get_eq hj] at hb
      exact not_lt.mp fun hlt' => by simp [(better_iff side price l.price).mpr hlt'] at hb
    · exact le_of_lt (hfrom j l hj hge')
  · rw [decide_eq_true_iff]
    constructor
    · rintro ⟨hlt, hp⟩
      obtain ⟨l, hl, hget⟩ := exists_get hlt
      exact ⟨l, hl, hget ▸ hp⟩
    · rintro ⟨l, hl, hp⟩
      obtain ⟨hlt, _⟩ := List.getElem?_eq_some_iff.mp hl
      exact ⟨hlt, by rw [get_eq hl]; exact hp⟩

end Locate

/-! ## One side beside its reference -/

/-- A side and its flag agree with the quantity last set at each price: the side
is sorted and no deeper than `kMaxDepth`, what it holds is what was last set, and
it holds everything unless it is flagged. -/
structure SideOk (side : Side) (v : Levels kMaxDepth) (cut : Bool) (ref : Price → Qty) : Prop where
  sorted : Sorted side v.data
  depth : v.data.length ≤ kMaxDepth
  carries : ∀ l ∈ v.data, l.qty ≠ 0 ∧ ref l.price = l.qty
  complete : cut = false → ∀ p, ref p ≠ 0 → ⟨p, ref p⟩ ∈ v.data

section SideOk

variable {side : Side} {v w : Levels kMaxDepth} {cut : Bool} {ref : Price → Qty} {price : Price}
  {qty : Qty} {i : Nat}
variable {l : Level}

section

variable (h : SideOk side v cut ref)
include h

/-- Some levels of a side, the others dropped and the side flagged. -/
theorem SideOk.trimmed (hw : w.data.Sublist v.data) :
    SideOk side w true ref where
  sorted := h.sorted.sublist hw
  depth := le_trans hw.length_le h.depth
  carries := fun l hl => h.carries l (hw.mem hl)
  complete := nofun

/-- What a side holds of the other prices once one price is set. -/
theorem SideOk.other (hl : l ∈ v.data) (hne : l.price ≠ price) :
    l.qty ≠ 0 ∧ update ref price qty l.price = l.qty := by
  rw [update_of_ne hne]
  exact h.carries l hl

theorem SideOk.erase (hl : v.data[i]? = some l)
    (hp : l.price = price) : SideOk side (v.eraseAt i) cut (update ref price 0) where
  sorted := h.sorted.eraseIdx i
  depth := le_trans (eraseIdx_sublist v.data i).length_le h.depth
  carries := by
    intro y hy
    obtain ⟨hy, hne⟩ := (h.sorted.mem_eraseIdx hl).mp hy
    exact h.other hy fun heq => hne (by rw [heq, hp])
  complete := by
    intro hc p hq
    by_cases hpp : p = price
    · rw [hpp, update_self] at hq
      exact absurd rfl hq
    · rw [update_of_ne hpp] at hq ⊢
      refine (h.sorted.mem_eraseIdx hl).mpr ⟨h.complete hc p hq, ?_⟩
      exact fun heq => hpp ((goodness_injective side heq).trans hp)

theorem SideOk.update (hl : v.data[i]? = some l)
    (hp : l.price = price) (hq : qty ≠ 0) :
    SideOk side (v.set i { l with qty := qty }) cut (update ref price qty) where
  sorted := h.sorted.set hl rfl
  depth := by
    rw [StaticVector.set, length_set]
    exact h.depth
  carries := by
    intro y hy
    rcases (h.sorted.mem_set hl).mp hy with rfl | ⟨hy, hne⟩
    · exact ⟨hq, by rw [hp, update_self]⟩
    · exact h.other hy fun heq => hne (by rw [heq, hp])
  complete := by
    intro hc p hq'
    refine (h.sorted.mem_set hl).mpr ?_
    by_cases hpp : p = price
    · left
      rw [hpp, update_self, ← hp]
    · right
      rw [update_of_ne hpp] at hq' ⊢
      exact ⟨h.complete hc p hq', fun heq => hpp ((goodness_injective side heq).trans hp)⟩

section

variable (hno : ∀ l ∈ v.data, l.price ≠ price)
include hno

/-- Deleting a price the side does not hold. -/
theorem SideOk.delete_absent :
    SideOk side v cut (Function.update ref price 0) where
  sorted := h.sorted
  depth := h.depth
  carries := fun l hl => h.other hl (hno l hl)
  complete := by
    intro hc p hq
    by_cases hpp : p = price
    · rw [hpp, update_self] at hq
      exact absurd rfl hq
    · rw [update_of_ne hpp] at hq ⊢
      exact h.complete hc p hq

/-- A price is set that the side does not hold, and it is left out. -/
theorem SideOk.drop_absent :
    SideOk side v true (Function.update ref price qty) where
  sorted := h.sorted
  depth := h.depth
  carries := fun l hl => h.other hl (hno l hl)
  complete := nofun

section

variable (hplace : Place (fun l => goodness side l.price) v.data (goodness side price) i)
variable (hq : qty ≠ 0)
include hplace hq

/-- The levels with a new one in its place: sorted, and each with the quantity last
set. -/
theorem SideOk.inserted :
    Sorted side (v.data.take i ++ ⟨price, qty⟩ :: v.data.drop i) ∧
      ∀ l ∈ v.data.take i ++ ⟨price, qty⟩ :: v.data.drop i,
        l.qty ≠ 0 ∧ Function.update ref price qty l.price = l.qty := by
  constructor
  · refine h.sorted.insert (x := (⟨price, qty⟩ : Level)) hplace ?_
    intro y hy heq
    exact hno y (mem_of_getElem? hy) (goodness_injective side heq)
  intro y hy
  rw [mem_append, mem_cons] at hy
  rcases hy with hy | rfl | hy
  · exact h.other (mem_of_mem_take hy) (hno y (mem_of_mem_take hy))
  · exact ⟨hq, update_self _ _ _⟩
  · exact h.other (mem_of_mem_drop hy) (hno y (mem_of_mem_drop hy))

/-- A side with room takes the level. -/
theorem SideOk.insert (hroom : v.data.length < kMaxDepth) :
    SideOk side (v.insertAt i ⟨price, qty⟩) cut (Function.update ref price qty) := by
  have hle := hplace.le_length
  have hdata : (v.insertAt i ⟨price, qty⟩).data =
      v.data.take i ++ ⟨price, qty⟩ :: v.data.drop i := by
    unfold StaticVector.insertAt StaticVector.size
    rw [dif_neg (by omega)]
    exact insertIdx_eq_append hle
  obtain ⟨hsorted, hcarries⟩ := h.inserted hno hplace hq
  rw [← hdata] at hsorted hcarries
  refine ⟨hsorted, ?_, hcarries, ?_⟩
  · rw [hdata, length_append, length_cons, length_take, length_drop]
    omega
  intro hc p hq'
  rw [hdata]
  by_cases hpp : p = price
  · rw [hpp, update_self]
    simp
  rw [update_of_ne hpp] at hq' ⊢
  have hin := h.complete hc p hq'
  rw [← take_append_drop i v.data, mem_append] at hin
  rw [mem_append, mem_cons]
  tauto

end

end

end

/-- The worst level makes room for a better one. -/
theorem data_evict (hi : 0 < i) (hle : i ≤ v.size) (l : Level) :
    ((v.copyFront 1 i).set (i - 1) l).data = (v.data.take i ++ l :: v.data.drop i).tail := by
  unfold StaticVector.size at hle
  obtain ⟨j, rfl⟩ : ∃ j, i = j + 1 := ⟨i - 1, by omega⟩
  cases hd : v.data with
  | nil =>
    simp [hd] at hle
  | cons x rest =>
    rw [hd] at hle
    have hj : j ≤ rest.length := by simpa using hle
    have htake : (rest.take j).length = j := by
      rw [length_take]
      omega
    have hall : (rest.take j ++ (x :: rest).drop j).length = rest.length + 1 := by
      rw [length_append, htake, length_drop, length_cons]
      omega
    simp only [StaticVector.set, StaticVector.copyFront, hd, Nat.add_sub_cancel, take_succ_cons,
      drop_succ_cons, drop_zero, cons_append, tail_cons, length_cons]
    rw [← hall, take_length, set_append_right _ _ (by omega), htake, Nat.sub_self]
    congr 1
    cases hdj : (x :: rest).drop j with
    | nil =>
      have hlen : ((x :: rest).drop j).length = 0 := by rw [hdj]; rfl
      rw [length_drop, length_cons] at hlen
      omega
    | cons y tl =>
      have htl : (x :: rest).drop (j + 1) = tl := by
        rw [← drop_drop, hdj]
        rfl
      rw [set_cons_zero, ← htl]
      rfl

/-- A full side drops its worst level for the new one, and is flagged. -/
theorem SideOk.evict (h : SideOk side v cut ref) (hno : ∀ l ∈ v.data, l.price ≠ price)
    (hplace : Place (fun l => goodness side l.price) v.data (goodness side price) i)
    (hq : qty ≠ 0) (hi : 0 < i) :
    SideOk side ((v.copyFront 1 i).set (i - 1) ⟨price, qty⟩) true
      (Function.update ref price qty) := by
  obtain ⟨hsorted, hcarries⟩ := h.inserted hno hplace hq
  have hle := hplace.le_length
  have hdepth := h.depth
  have hdata := data_evict hi hle ⟨price, qty⟩
  refine ⟨?_, ?_, ?_, nofun⟩
  · rw [hdata]
    exact hsorted.sublist (tail_sublist _)
  · rw [hdata, length_tail, length_append, length_cons, length_take, length_drop]
    omega
  · intro l hl
    rw [hdata] at hl
    exact hcarries l (mem_of_mem_tail hl)

end SideOk

/-! ## Messages beside the reference -/

/-- The quantities last set, after one more. -/
def setRef (ref : Side → Price → Qty) (side : Side) (l : Level) : Side → Price → Qty :=
  update ref side (update (ref side) l.price l.qty)

/-- The quantities last set, after a side of a message. -/
def setRefs (ref : Side → Price → Qty) (side : Side) (ls : List Level) : Side → Price → Qty :=
  ls.foldl (fun ref l => setRef ref side l) ref

/-- Both sides agree with their reference. -/
def BookOk (b : L2Book kMaxDepth) (ref : Side → Price → Qty) : Prop :=
  ∀ side, SideOk side (b.levels side) (b.truncated side) (ref side)

section BookOk

variable {b b' : L2Book kMaxDepth} {ref : Side → Price → Qty} {side : Side}

section

variable (h : BookOk b ref)
include h

/-- A message that rewrites one side. -/
theorem BookOk.of_side {v : Levels kMaxDepth} {cut : Bool} {r : Price → Qty}
    (hside : SideOk side v cut r) (hlevels : b'.levels = update b.levels side v)
    (hcut : b'.truncated = update b.truncated side cut) :
    BookOk b' (update ref side r) := by
  intro s
  rw [hlevels, hcut]
  by_cases hs : s = side
  · rw [hs, update_self, update_self, update_self]
    exact hside
  · rw [update_of_ne hs, update_of_ne hs, update_of_ne hs]
    exact h s

/-- The other fields are not compared. -/
theorem BookOk.of_eq (hlevels : b'.levels = b.levels)
    (hcut : b'.truncated = b.truncated) : BookOk b' ref := by
  intro s
  rw [hlevels, hcut]
  exact h s

theorem BookOk.applyLevel (side : Side) (price : Price) (qty : Qty) :
    BookOk (b.applyLevel side price qty).1 (setRef ref side ⟨price, qty⟩) := by
  have hside := h side
  have hloc := locate_spec hside.sorted price
  unfold L2Book.applyLevel setRef
  simp only
  generalize locate (b.levels side) side price = r at hloc
  obtain ⟨i, found⟩ := r
  have hkeep : b.truncated = update b.truncated side (b.truncated side) :=
    (update_eq_self side b.truncated).symm
  cases found with
  | true =>
    obtain ⟨l, hl, hp⟩ := hloc.found.mp rfl
    rw [if_pos rfl]
    split_ifs with hq
    · rw [hq]
      exact h.of_side (hside.erase hl hp) rfl hkeep
    · rw [get_eq hl]
      exact h.of_side (hside.update hl hp hq) rfl hkeep
  | false =>
    -- The price is on no level of the side.
    have hno : ∀ l ∈ (b.levels side).data, l.price ≠ price := by
      intro l hl hp
      refine hloc.place.absent hside.sorted ?_ hl (congrArg (goodness side) hp)
      intro y hy heq
      exact absurd (hloc.found.mpr ⟨y, hy, goodness_injective side heq⟩) (by simp)
    rw [if_neg (by simp)]
    by_cases hq : qty = 0
    · rw [if_pos hq, hq]
      exact h.of_side (hside.delete_absent hno) (update_eq_self side b.levels).symm hkeep
    rw [if_neg hq]
    by_cases hfull : kMaxDepth ≤ (b.levels side).size
    · rw [if_pos hfull]
      by_cases hi : i = 0
      · rw [if_pos hi]
        exact h.of_side (hside.drop_absent hno) (update_eq_self side b.levels).symm rfl
      · rw [if_neg hi]
        exact h.of_side (hside.evict hno hloc.place hq (Nat.pos_of_ne_zero hi)) rfl rfl
    · rw [if_neg hfull]
      exact h.of_side (hside.insert hno hloc.place hq (not_le.mp hfull)) rfl hkeep

theorem BookOk.applyLevels (side : Side) (ls : List Level) :
    BookOk (b.applyLevels side ls) (setRefs ref side ls) := by
  induction ls generalizing b ref with
  | nil => exact h
  | cons l rest ih => exact ih (h.applyLevel side l.price l.qty)

/-- Trimming drops levels and flags the side. -/
theorem BookOk.trimBehind (side : Side) (carried : List Level) :
    BookOk (b.trimBehind side carried) ref := by
  unfold L2Book.trimBehind
  cases carried with
  | nil => exact h
  | cons l rest =>
    simp only
    split
    · exact h
    · rw [← update_eq_self side ref]
      exact h.of_side ((h side).trimmed (drop_sublist _ _)) rfl rfl

theorem BookOk.updateCrossed (ts : Timestamp) :
    BookOk (b.updateCrossed ts) ref := by
  unfold L2Book.updateCrossed
  split
  · split
    · exact h.of_eq rfl rfl
    · exact h
  · exact h.of_eq rfl rfl

end

/-- A book after `clear`. -/
theorem BookOk.clear (b : L2Book kMaxDepth) : BookOk b.clear fun _ _ => 0 := by
  intro side
  refine ⟨List.Pairwise.nil, Nat.zero_le _, ?_, fun _ _ hq => absurd rfl hq⟩
  intro l hl
  exact absurd hl (by simp [L2Book.clear, StaticVector.nil])

end BookOk

/-! ## Snapshots -/

section Snapshot

variable {side : Side} {r : Price → Qty} {ls : List Level} {l : Level}
variable {order : Int}

/-- The quantities last set on one side. -/
def lastSet (r : Price → Qty) (ls : List Level) : Price → Qty :=
  ls.foldl (fun r l => update r l.price l.qty) r

theorem setRefs_eq (ref : Side → Price → Qty) (side : Side) (ls : List Level) :
    setRefs ref side ls = update ref side (lastSet (ref side) ls) := by
  induction ls generalizing ref with
  | nil => exact (update_eq_self side ref).symm
  | cons l rest ih =>
    show setRefs (setRef ref side l) side rest = _
    rw [ih]
    unfold setRef
    rw [update_self, update_idem]
    rfl

/-- A quantity comes from one of the levels, or from before them. -/
theorem lastSet_cases (r : Price → Qty) (ls : List Level) (p : Price) :
    lastSet r ls p = r p ∨ ⟨p, lastSet r ls p⟩ ∈ ls := by
  induction ls generalizing r with
  | nil => exact Or.inl rfl
  | cons l rest ih =>
    show lastSet (update r l.price l.qty) rest p = r p ∨
      ⟨p, lastSet (update r l.price l.qty) rest p⟩ ∈ l :: rest
    rcases ih (update r l.price l.qty) with heq | hmem
    · by_cases hp : p = l.price
      · right
        rw [heq, hp, update_self]
        exact mem_cons_self
      · left
        rw [heq, update_of_ne hp]
    · exact Or.inr (mem_cons_of_mem l hmem)

/-- Among distinct prices every level is the last of its price. -/
theorem lastSet_of_mem (hdist : ls.Pairwise fun a b => a.price ≠ b.price) (hl : l ∈ ls) :
    lastSet r ls l.price = l.qty := by
  induction ls generalizing r with
  | nil => nomatch hl
  | cons x rest ih =>
    obtain ⟨hx, hrest⟩ := pairwise_cons.mp hdist
    show lastSet (update r x.price x.qty) rest l.price = l.qty
    rcases mem_cons.mp hl with rfl | hl
    · rcases lastSet_cases (update r l.price l.qty) rest l.price with heq | hmem
      · rw [heq, update_self]
      · have hne := hx _ hmem
        exact absurd rfl hne
    · exact ih hrest hl

/-- Before and after in the direction of a snapshot. -/
def Before (side : Side) (order : Int) (a b : Level) : Prop :=
  if order = 1 then goodness side b.price < goodness side a.price
  else goodness side a.price < goodness side b.price

theorem Before.trans {a b c : Level} (hab : Before side order a b)
    (hbc : Before side order b c) : Before side order a c := by
  unfold Before at *
  split
  · rw [if_pos ‹_›] at hab hbc
    exact lt_trans hbc hab
  · rw [if_neg ‹_›] at hab hbc
    exact lt_trans hab hbc

theorem checkOrder_spec {prev : Level} (h : checkOrder side order prev ls ≠ 0) :
    checkOrder side order prev ls = order ∧ (∀ l ∈ ls, 0 < l.qty) ∧
      (prev :: ls).Pairwise (Before side order) := by
  induction ls generalizing prev with
  | nil => exact ⟨rfl, fun l hl => absurd hl (by simp), pairwise_singleton _ _⟩
  | cons l rest ih =>
    unfold checkOrder at h ⊢
    by_cases hok : 0 < l.qty ∧ (if order = 1 then better side prev.price l.price
        else better side l.price prev.price) = true
    · rw [if_pos hok] at h ⊢
      obtain ⟨heq, hpos, hpair⟩ := ih h
      have hfirst : Before side order prev l := by
        have hb := hok.2
        unfold Before
        split
        · rw [if_pos ‹_›] at hb
          exact (better_iff side prev.price l.price).mp hb
        · rw [if_neg ‹_›] at hb
          exact (better_iff side l.price prev.price).mp hb
      refine ⟨heq, ?_, pairwise_cons.mpr ⟨?_, hpair⟩⟩
      · exact forall_mem_cons.mpr ⟨hok.1, hpos⟩
      intro y hy
      rcases mem_cons.mp hy with rfl | hy
      · exact hfirst
      · exact hfirst.trans ((pairwise_cons.mp hpair).1 y hy)
    · rw [if_neg hok] at h
      exact absurd rfl h

theorem loadOrder_spec (h : loadOrder side ls ≠ 0) :
    (∀ l ∈ ls, 0 < l.qty) ∧ ls.Pairwise (Before side (loadOrder side ls)) := by
  cases ls with
  | nil => exact absurd rfl h
  | cons l rest =>
    simp only [loadOrder] at h ⊢
    by_cases hq : 0 < l.qty
    · rw [if_pos hq] at h ⊢
      obtain ⟨heq, hpos, hpair⟩ := checkOrder_spec h
      refine ⟨?_, ?_⟩
      · exact forall_mem_cons.mpr ⟨hq, hpos⟩
      · rw [heq]
        exact hpair
    · rw [if_neg hq] at h
      exact absurd rfl h

/-- The levels of a sorted snapshot, worst first. -/
def worstFirst (order : Int) (ls : List Level) : List Level :=
  if order = 1 then ls.reverse else ls

theorem loaded_eq_drop (order : Int) (ls : List Level) : (loaded order ls : Levels kMaxDepth).data =
      (worstFirst order ls).drop (ls.length - kMaxDepth) := by
  unfold loaded worstFirst
  split
  · exact reverse_take
  · rfl

theorem mem_worstFirst : l ∈ worstFirst order ls ↔ l ∈ ls := by
  unfold worstFirst
  split
  · exact mem_reverse
  · exact Iff.rfl

theorem sorted_worstFirst (h : ls.Pairwise (Before side order)) :
    Sorted side (worstFirst order ls) := by
  unfold worstFirst
  unfold Before at h
  by_cases horder : order = 1
  · simp only [if_pos horder] at h ⊢
    exact pairwise_reverse.mpr h
  · simp only [if_neg horder] at h ⊢
    exact h

/-- The best levels of a sorted snapshot, as many as the book keeps. -/
theorem SideOk.loaded (h : loadOrder side ls ≠ 0) :
    SideOk side (loaded (loadOrder side ls) ls : Levels kMaxDepth) (decide (kMaxDepth < ls.length))
      (lastSet (fun _ => 0) ls) := by
  obtain ⟨hpos, hpair⟩ := loadOrder_spec h
  have hsorted := sorted_worstFirst hpair
  have hdist : ls.Pairwise fun a b => a.price ≠ b.price := by
    refine hpair.imp ?_
    intro a b hab heq
    unfold Before at hab
    rw [heq] at hab
    split at hab
    · exact absurd hab (lt_irrefl _)
    · exact absurd hab (lt_irrefl _)
  have hdata : (L2Book.loaded (loadOrder side ls) ls : Levels kMaxDepth).data = _ :=
    loaded_eq_drop (loadOrder side ls) ls
  have hlen : (worstFirst (loadOrder side ls) ls).length = ls.length := by
    unfold worstFirst
    split
    · exact length_reverse
    · rfl
  refine ⟨?_, ?_, ?_, ?_⟩
  · rw [hdata]
    exact hsorted.sublist (drop_sublist _ _)
  · rw [hdata, length_drop, hlen]
    omega
  · intro l hl
    rw [hdata] at hl
    have hin := mem_worstFirst.mp (mem_of_mem_drop hl)
    exact ⟨ne_of_gt (hpos l hin), lastSet_of_mem hdist hin⟩
  · intro hc p hq
    have hle : ls.length ≤ kMaxDepth := not_lt.mp (decide_eq_false_iff_not.mp hc)
    rw [hdata, Nat.sub_eq_zero_of_le hle, drop_zero, mem_worstFirst]
    exact (lastSet_cases (fun _ => 0) ls p).resolve_left hq

variable {b : L2Book kMaxDepth} {ref : Side → Price → Qty}

/-- A snapshot side goes into an empty side. -/
theorem BookOk.loadSide (h : BookOk b ref) (hcut : b.truncated side = false)
    (href : ref side = fun _ => 0) (ls : List Level) :
    BookOk (b.loadSide side ls) (setRefs ref side ls) := by
  unfold L2Book.loadSide
  simp only
  split
  · exact h.applyLevels side ls
  rename_i horder
  have hside : SideOk side (loaded (loadOrder side ls) ls : Levels kMaxDepth) _ _ :=
    SideOk.loaded horder
  rw [setRefs_eq, href]
  split_ifs with hdeep
  · rw [decide_eq_true hdeep] at hside
    exact h.of_side hside rfl rfl
  rw [decide_eq_false hdeep] at hside
  refine h.of_side hside rfl ?_
  rw [← hcut]
  exact (update_eq_self side b.truncated).symm

/-- A side's levels leave the other side's flag alone. -/
theorem applyLevels_truncated {other : Side} (hne : other ≠ side) (b : L2Book kMaxDepth)
    (ls : List Level) : (b.applyLevels side ls).truncated other = b.truncated other := by
  induction ls generalizing b with
  | nil => rfl
  | cons l rest ih =>
    have hone : (b.applyLevel side l.price l.qty).1.truncated other = b.truncated other := by
      unfold L2Book.applyLevel
      simp only
      split
      · split <;> rfl
      split
      · rfl
      · split
        · split <;> exact update_of_ne hne _ _
        · rfl
    exact (ih _).trans hone

theorem loadSide_truncated {other : Side} (hne : other ≠ side) (b : L2Book kMaxDepth)
    (ls : List Level) : (b.loadSide side ls).truncated other = b.truncated other := by
  unfold L2Book.loadSide
  simp only
  split
  · exact applyLevels_truncated hne b ls
  · split
    · exact update_of_ne hne _ _
    · rfl

/-- The quantities a snapshot sets. -/
def snapshotRef (bids asks : List Level) : Side → Price → Qty :=
  setRefs (setRefs (fun _ _ => 0) .buy bids) .sell asks

theorem BookOk.applySnapshot (b : L2Book kMaxDepth) (bids asks : List Level) (seq : Nat)
    (ts : Timestamp) : BookOk (b.applySnapshot bids asks seq ts) (snapshotRef bids asks) := by
  have hbuy : BookOk (b.clear.loadSide .buy bids) (setRefs (fun _ _ => 0) .buy bids) :=
    (BookOk.clear b).loadSide rfl rfl bids
  have hcut : (b.clear.loadSide .buy bids).truncated .sell = false :=
    loadSide_truncated (by simp) b.clear bids
  have href : setRefs (fun _ _ => (0 : Qty)) .buy bids .sell = fun _ => 0 := by
    rw [setRefs_eq, update_of_ne (by simp)]
  have hsell := hbuy.loadSide hcut href asks
  refine BookOk.updateCrossed ?_ ts
  exact hsell.of_eq rfl rfl

end Snapshot

/-! ## Runs -/

/-- A message to the book. -/
inductive L2Op where
  | level (side : Side) (price : Price) (qty : Qty)
  | snapshot (bids asks : List Level) (seq : Nat) (ts : Timestamp)
  | delta (d : BookDeltaMsg)
  deriving DecidableEq, Repr

/-- The book after a message. -/
def step (b : L2Book kMaxDepth) : L2Op → L2Book kMaxDepth
  | .level side price qty => (b.applyLevel side price qty).1
  | .snapshot bids asks seq ts => b.applySnapshot bids asks seq ts
  | .delta d => b.applyDelta d

/-- The quantities last set since the last snapshot, after a message. -/
def refStep (ref : Side → Price → Qty) : L2Op → Side → Price → Qty
  | .level side price qty => setRef ref side ⟨price, qty⟩
  | .snapshot bids asks _ _ => snapshotRef bids asks
  | .delta d =>
    if d.isSnapshot then snapshotRef d.bids d.asks
    else setRefs (setRefs ref .buy d.bids) .sell d.asks

/-- The book after a sequence of messages. -/
def run (kMaxDepth : Nat) (ops : List L2Op) : L2Book kMaxDepth := ops.foldl step {}

/-- The quantities last set since the last snapshot, after a sequence of messages:
zero where the last was a delete, or there was none. -/
def lastQty (ops : List L2Op) : Side → Price → Qty := ops.foldl refStep fun _ _ => 0

section

variable {b : L2Book kMaxDepth} {ref : Side → Price → Qty} (h : BookOk b ref)
include h

theorem BookOk.applyDelta
    (d : BookDeltaMsg) : BookOk (b.applyDelta d) (refStep ref (.delta d)) := by
  unfold L2Book.applyDelta refStep
  simp only
  split
  · exact BookOk.applySnapshot b d.bids d.asks d.lastUpdateId _
  refine BookOk.updateCrossed ?_ _
  have hset := (h.applyLevels .buy d.bids).applyLevels .sell d.asks
  -- Trimming a side is for the flags; it sets no price.
  have htrim : ∀ (flag : Bool) (side : Side) (ls : List Level) (b : L2Book kMaxDepth) (ref),
      BookOk b ref → BookOk (if flag then b.trimBehind side ls else b) ref := by
    intro flag side ls b ref hb
    split
    · exact hb.trimBehind side ls
    · exact hb
  exact (htrim _ _ _ _ _ (htrim _ _ _ _ _ hset)).of_eq rfl rfl

theorem BookOk.step
    (op : L2Op) : BookOk (b.step op) (refStep ref op) := by
  cases op with
  | level side price qty => exact h.applyLevel side price qty
  | snapshot bids asks seq ts => exact BookOk.applySnapshot b bids asks seq ts
  | delta d => exact h.applyDelta d

end

theorem BookOk.run (ops : List L2Op) : BookOk (run kMaxDepth ops) (lastQty ops) := by
  have hrun : ∀ (b : L2Book kMaxDepth) (ref : Side → Price → Qty), BookOk b ref →
      BookOk (ops.foldl L2Book.step b) (ops.foldl refStep ref) := by
    induction ops with
    | nil => exact fun _ _ h => h
    | cons op rest ih => exact fun b ref h => ih _ _ (h.step op)
  exact hrun {} _ (BookOk.clear {})

/-- After any messages a side is strictly sorted and no deeper than `kMaxDepth`;
while it is not flagged it holds exactly the prices last set to a non-zero
quantity since the last snapshot; and when it is flagged, every level it holds
still has the quantity last set for its price. -/
theorem exact_until_truncated (kMaxDepth : Nat) (ops : List L2Op) (side : Side) :
    ((run kMaxDepth ops).levels side).data.Pairwise
        (fun worse good => better side good.price worse.price = true) ∧
      ((run kMaxDepth ops).levels side).data.length ≤ kMaxDepth ∧
      ((run kMaxDepth ops).truncated side = false → ∀ price qty,
        (⟨price, qty⟩ : Level) ∈ ((run kMaxDepth ops).levels side).data ↔
          qty ≠ 0 ∧ lastQty ops side price = qty) ∧
      ((run kMaxDepth ops).truncated side = true →
        ∀ l ∈ ((run kMaxDepth ops).levels side).data, lastQty ops side l.price = l.qty) := by
  have hrun : BookOk (run kMaxDepth ops) (lastQty ops) := BookOk.run ops
  have h := hrun side
  refine ⟨?_, h.depth, ?_, fun _ l hl => (h.carries l hl).2⟩
  · exact h.sorted.imp (better_iff side _ _).mpr
  intro hc price qty
  constructor
  · exact h.carries _
  · rintro ⟨hq, href⟩
    rw [← href] at hq ⊢
    exact h.complete hc price hq

-- A third bid into a book of two drops the worst and flags the side.
example : ((run 2 [.level .buy 10 1, .level .buy 12 1, .level .buy 11 1]).levels .buy).data =
        [⟨11, 1⟩, ⟨12, 1⟩] ∧
      (run 2 [.level .buy 10 1, .level .buy 12 1, .level .buy 11 1]).truncated .buy = true := by
  decide

end L2Book

end FastMM
