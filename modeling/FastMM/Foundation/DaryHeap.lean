/-
  Foundation/DaryHeap.lean --- a min-heap in an array, each node with up to `d` children.

  A value on its way up or down leaves a hole: the values it passes move into the hole, and
  it is written once, where it comes to rest.  The proofs look at the array as if the value
  stood in the hole already (`filled`): a move is then a swap, and the order is broken at
  most between the hole and its neighbours.
-/
import Mathlib.Data.List.Perm.Basic
import Mathlib.Order.Lattice
set_option autoImplicit false

namespace FastMM.Foundation.DaryHeap

open List

variable {α : Type} (before : α → α → Bool) (d : Nat)
variable {h : List α}

/-! ## Operations -/

def parent (i : Nat) : Nat := (i - 1) / d

theorem parent_lt {i : Nat} (hi : 0 < i) : parent d i < i :=
  Nat.lt_of_le_of_lt (Nat.div_le_self _ _) (Nat.sub_lt hi Nat.one_pos)

/-- The value goes up from the hole `i` past the parents it is before. -/
def siftUp (h : List α) (i : Nat) (e : α) : List α :=
  if _hi : i = 0 then h.set i e
  else if before e (h.getD (parent d i) e) then
    siftUp (h.set i (h.getD (parent d i) e)) (parent d i) e
  else h.set i e
termination_by i
decreasing_by exact parent_lt d (Nat.pos_of_ne_zero _hi)

def push (h : List α) (e : α) : List α := siftUp before d (h ++ [e]) h.length e

/-- The first of the values from `c` up to `stop` that none of them is before. -/
def least (h : List α) (e : α) (c stop : Nat) : Nat :=
  (List.range' (c + 1) (stop - (c + 1))).foldl
    (fun m k => if before (h.getD k e) (h.getD m e) then k else m) c

theorem least_bounds (h : List α) (e : α) {c stop : Nat} (hc : c < stop) :
    c ≤ least before h e c stop ∧ least before h e c stop < stop := by
  have hfold : ∀ (l : List Nat) (m : Nat), c ≤ m → m < stop →
      (∀ k ∈ l, c ≤ k ∧ k < stop) →
      c ≤ l.foldl (fun m k => if before (h.getD k e) (h.getD m e) then k else m) m ∧
        l.foldl (fun m k => if before (h.getD k e) (h.getD m e) then k else m) m < stop := by
    intro l
    induction l with
    | nil => exact fun m hlo hhi _ => ⟨hlo, hhi⟩
    | cons k l ih =>
      intro m hlo hhi hl
      have hk := hl k mem_cons_self
      have hl' : ∀ j ∈ l, c ≤ j ∧ j < stop := fun j hj => hl j (mem_cons_of_mem k hj)
      rw [foldl_cons]
      split
      · exact ih k hk.1 hk.2 hl'
      · exact ih m hlo hhi hl'
  refine hfold _ c (Nat.le_refl c) hc fun k hk => ?_
  rw [mem_range'_1] at hk
  omega

/-- The value goes down from the hole `i` past the children that are before it. -/
def siftDown (h : List α) (i : Nat) (e : α) : List α :=
  if _hc : d * i + 1 < h.length ∧ 0 < d then
    let m := least before h e (d * i + 1) (min (d * i + 1 + d) h.length)
    if before (h.getD m e) e then siftDown (h.set i (h.getD m e)) m e else h.set i e
  else h.set i e
termination_by h.length - i
decreasing_by
  rw [length_set]
  have hlt : d * i + 1 < min (d * i + 1 + d) h.length := by omega
  have hb := least_bounds before h e hlt
  have hi : i ≤ d * i := Nat.le_mul_of_pos_left i _hc.2
  omega

/-- The first value and the others; nothing of an empty heap. -/
def pop : List α → Option (α × List α)
  | [] => none
  | top :: rest =>
    match rest.getLast? with
    | none => some (top, [])
    | some last => some (top, siftDown before d (top :: rest.dropLast) 0 last)

/-! ## The array with the hole filled -/

/-- The array as if the value stood in the hole. -/
def filled (h : List α) (i : Nat) (e : α) (j : Nat) : α :=
  if j = i then e else h.getD j e

theorem getD_set {i : Nat} (hi : i < h.length) (x y : α) (j : Nat) :
    (h.set i x).getD j y = if j = i then x else h.getD j y := by
  rw [getD_eq_getElem?_getD, getD_eq_getElem?_getD, getElem?_set]
  by_cases hj : j = i
  · rw [if_pos hj.symm, if_pos hj, if_pos (hj ▸ hi)]
    rfl
  · rw [if_neg (fun he => hj he.symm), if_neg hj]

/-- A move swaps the value in the hole and the value it passes. -/
theorem filled_move {i p : Nat} (hi : i < h.length) (hp : p ≠ i) (e : α) (j : Nat) :
    filled (h.set i (h.getD p e)) p e j =
      if j = p then filled h i e i else if j = i then filled h i e p else filled h i e j := by
  unfold filled
  rw [if_pos rfl, if_neg hp, getD_set hi]
  by_cases hj : j = p
  · rw [if_pos hj, if_pos hj]
  rw [if_neg hj, if_neg hj]
  by_cases hji : j = i
  · rw [if_pos hji, if_pos hji]
  · rw [if_neg hji, if_neg hji, if_neg hji]

/-- A move keeps the values. -/
theorem move_perm {i p : Nat} (hi : i < h.length) (hp : p < h.length) (hne : p ≠ i)
    (e : α) : ((h.set i (h.getD p e)).set p e).Perm (h.set i e) := by
  have hi' : i < (h.set i e).length := by rwa [length_set]
  have hp' : p < (h.set i e).length := by rwa [length_set]
  have hswap := set_set_perm hi' hp'
  rw [getElem_set_self, getElem_set_ne (fun he => hne he.symm), set_set] at hswap
  have hget : h.getD p e = h[p] := by
    rw [getD_eq_getElem?_getD, getElem?_eq_getElem hp]
    rfl
  rwa [hget]

/-! ## Order -/

section Order

variable {β : Type} [LinearOrder β] (key : α → β)
variable {h : List α}

/-- No value of the first `n` is below its parent. -/
def Ordered (n : Nat) (a : Nat → α) : Prop :=
  ∀ j, 0 < j → j < n → key (a (parent d j)) ≤ key (a j)

/-- The order may be broken at `i` only, and not past it. -/
structure OrderedBut (n i : Nat) (a : Nat → α) : Prop where
  other : ∀ j, 0 < j → j < n → j ≠ i → parent d j ≠ i → key (a (parent d j)) ≤ key (a j)
  past : 0 < i → ∀ j, 0 < j → j < n → parent d j = i → key (a (parent d i)) ≤ key (a j)

/-- The value at `i` is at most its children. -/
def FitsBelow (n i : Nat) (a : Nat → α) : Prop :=
  ∀ j, 0 < j → j < n → parent d j = i → key (a i) ≤ key (a j)

/-- The value at `i` is at least its parent. -/
def FitsAbove (i : Nat) (a : Nat → α) : Prop :=
  0 < i → key (a (parent d i)) ≤ key (a i)

variable {key d} {n i : Nat} {a b : Nat → α}

theorem OrderedBut.ordered (h : OrderedBut d key n i a) (hb : FitsBelow d key n i a)
    (ha : FitsAbove d key i a) : Ordered d key n a := by
  intro j hj hn
  by_cases hji : j = i
  · subst hji
    exact ha hj
  by_cases hp : parent d j = i
  · rw [hp]
    exact hb j hj hn hp
  · exact h.other j hj hn hji hp

/-- The value goes up: it was below its parent. -/
theorem OrderedBut.up (h : OrderedBut d key n i a) (hb : FitsBelow d key n i a) (hi : 0 < i)
    (hn : i < n) (hlt : key (a i) < key (a (parent d i)))
    (hab : ∀ j, b j = if j = parent d i then a i else if j = i then a (parent d i) else a j) :
    OrderedBut d key n (parent d i) b ∧ FitsBelow d key n (parent d i) b := by
  obtain ⟨p, hp⟩ : ∃ p, p = parent d i := ⟨_, rfl⟩
  rw [← hp] at hlt hab ⊢
  have hpi : p < i := hp ▸ parent_lt d hi
  have hbp : b p = a i := by rw [hab, if_pos rfl]
  have hbi : b i = a p := by rw [hab, if_neg (Nat.ne_of_gt hpi), if_pos rfl]
  have hother : ∀ j, j ≠ p → j ≠ i → b j = a j := by
    intro j hjp hji
    rw [hab, if_neg hjp, if_neg hji]
  have hsib : ∀ j, 0 < j → j < n → parent d j = p → j ≠ i → key (a p) ≤ key (a j) := by
    intro j hj hjn hjp hji
    have hle := h.other j hj hjn hji (by rw [hjp]; exact Nat.ne_of_lt hpi)
    rwa [hjp] at hle
  refine ⟨⟨?_, ?_⟩, ?_⟩
  · intro j hj hjn hjp hpp
    have hji : j ≠ i := by
      rintro rfl
      exact hpp hp.symm
    rw [hother j hjp hji]
    by_cases hpi' : parent d j = i
    · rw [hpi', hbi, hp]
      exact h.past hi j hj hjn hpi'
    · rw [hother _ hpp hpi']
      exact h.other j hj hjn hji hpi'
  · intro hp0 j hj hjn hjp
    have hpp : parent d p < p := parent_lt d hp0
    have hup : key (a (parent d p)) ≤ key (a p) :=
      h.other p hp0 (Nat.lt_trans hpi hn) (Nat.ne_of_lt hpi) (Nat.ne_of_lt (Nat.lt_trans hpp hpi))
    rw [hother _ (Nat.ne_of_lt hpp) (Nat.ne_of_lt (Nat.lt_trans hpp hpi))]
    by_cases hji : j = i
    · rw [hji, hbi]
      exact hup
    have hjne : j ≠ p := by
      rintro rfl
      exact absurd hjp (Nat.ne_of_lt hpp)
    rw [hother j hjne hji]
    exact le_trans hup (hsib j hj hjn hjp hji)
  · intro j hj hjn hjp
    rw [hbp]
    by_cases hji : j = i
    · rw [hji, hbi]
      exact le_of_lt hlt
    have hjne : j ≠ p := by
      rintro rfl
      exact absurd hjp (Nat.ne_of_lt (parent_lt d hj))
    rw [hother j hjne hji]
    exact le_trans (le_of_lt hlt) (hsib j hj hjn hjp hji)

/-- The value goes down: the least of its children was below it. -/
theorem OrderedBut.down {m : Nat} (h : OrderedBut d key n i a) (him : parent d m = i)
    (hm : 0 < m) (hn : m < n) (hlt : key (a m) < key (a i))
    (hleast : ∀ j, 0 < j → j < n → parent d j = i → key (a m) ≤ key (a j))
    (hab : ∀ j, b j = if j = m then a i else if j = i then a m else a j) :
    OrderedBut d key n m b ∧ FitsAbove d key m b := by
  have hmi : i < m := him ▸ parent_lt d hm
  have hbm : b m = a i := by rw [hab, if_pos rfl]
  have hbi : b i = a m := by rw [hab, if_neg (Nat.ne_of_lt hmi), if_pos rfl]
  have hother : ∀ j, j ≠ m → j ≠ i → b j = a j := by
    intro j hjm hji
    rw [hab, if_neg hjm, if_neg hji]
  refine ⟨⟨?_, ?_⟩, ?_⟩
  · intro j hj hjn hjm hpm
    by_cases hji : j = i
    · subst hji
      have hpj := parent_lt d hj
      rw [hbi, hother _ (Nat.ne_of_lt (Nat.lt_trans hpj hmi)) (Nat.ne_of_lt hpj)]
      exact h.past hj m hm hn him
    · rw [hother j hjm hji]
      by_cases hpi : parent d j = i
      · rw [hpi, hbi]
        exact hleast j hj hjn hpi
      · rw [hother _ hpm hpi]
        exact h.other j hj hjn hji hpi
  · intro _ j hj hjn hjm
    have hmj : m < j := hjm ▸ parent_lt d hj
    rw [him, hbi, hother j (Nat.ne_of_gt hmj) (Nat.ne_of_gt (Nat.lt_trans hmi hmj))]
    have hle := h.other j hj hjn (Nat.ne_of_gt (Nat.lt_trans hmi hmj))
      (by rw [hjm]; exact Nat.ne_of_gt hmi)
    rwa [hjm] at hle
  · intro _
    rw [him, hbi, hbm]
    exact le_of_lt hlt

/-- The first value is the least. -/
theorem Ordered.root_le (h : Ordered d key n a) {j : Nat} (hj : j < n) : key (a 0) ≤ key (a j) := by
  induction j using Nat.strongRecOn with
  | ind j ih =>
    rcases Nat.eq_zero_or_pos j with rfl | hpos
    · exact le_refl _
    · have hp := parent_lt d hpos
      exact le_trans (ih _ hp (Nat.lt_trans hp hj)) (h j hpos hj)

/-! ## The operations keep the order and the values -/

variable (d key)

/-- No value of the array is below its parent. -/
def IsHeap (h : List α) : Prop :=
  ∀ e, Ordered d key h.length fun j => h.getD j e

variable {d key}

theorem isHeap_nil : IsHeap d key ([] : List α) := fun _ j _ hj => absurd hj (Nat.not_lt_zero j)

/-- The array with the value written into the hole. -/
theorem isHeap_set {e : α} (hi : i < h.length)
    (ho : Ordered d key h.length (filled h i e)) : IsHeap d key (h.set i e) := by
  intro x j hj hjn
  rw [length_set] at hjn
  have hval : ∀ k, k < h.length → (h.set i e).getD k x = filled h i e k := by
    intro k hk
    rw [getD_set hi]
    unfold filled
    split
    · rfl
    · rw [getD_eq_getElem?_getD, getD_eq_getElem?_getD, getElem?_eq_getElem hk]
      rfl
  show key ((h.set i e).getD (parent d j) x) ≤ key ((h.set i e).getD j x)
  rw [hval j hjn, hval _ (Nat.lt_trans (parent_lt d hj) hjn)]
  exact ho j hj hjn

/-- The least value of a heap is its first. -/
theorem IsHeap.head_le {x y : α} (hh : IsHeap d key (x :: h)) (hy : y ∈ x :: h) :
    key x ≤ key y := by
  obtain ⟨j, hj, hget⟩ := getElem_of_mem hy
  have hle := (hh x).root_le hj
  rw [getD_eq_getElem?_getD, getD_eq_getElem?_getD, getElem?_eq_getElem hj, hget] at hle
  exact hle

/-- A node's children are the `d` places from `d * i + 1` on. -/
theorem parent_eq_iff {j : Nat} (hd : 0 < d) (hj : 0 < j) :
    parent d j = i ↔ d * i + 1 ≤ j ∧ j < d * i + 1 + d := by
  unfold parent
  rw [Nat.div_eq_iff hd]
  constructor
  · rintro ⟨h₁, h₂⟩
    have hc : i * d = d * i := Nat.mul_comm i d
    omega
  · rintro ⟨h₁, h₂⟩
    have hc : i * d = d * i := Nat.mul_comm i d
    omega

variable (hbefore : ∀ x y, before x y = true ↔ key x < key y)

include hbefore

theorem siftUp_spec {e : α} (hi : i < h.length) (ho : OrderedBut d key h.length i (filled h i e))
    (hb : FitsBelow d key h.length i (filled h i e)) :
    IsHeap d key (siftUp before d h i e) ∧ (siftUp before d h i e).Perm (h.set i e) := by
  have hmem : filled h i e i = e := if_pos rfl
  fun_induction siftUp before d h i e with
  | case1 h =>
    exact ⟨isHeap_set hi (ho.ordered hb fun h0 => absurd h0 (Nat.lt_irrefl 0)), .refl _⟩
  | case2 h i hne hcond ih =>
    have hpos : 0 < i := Nat.pos_of_ne_zero hne
    have hp := parent_lt d hpos
    have hpar : filled h i e (parent d i) = h.getD (parent d i) e := if_neg (Nat.ne_of_lt hp)
    have hlt : key (filled h i e i) < key (filled h i e (parent d i)) := by
      rw [hmem, hpar]
      exact (hbefore _ _).mp hcond
    obtain ⟨ho', hb'⟩ := ho.up hb hpos hi hlt (filled_move hi (Nat.ne_of_lt hp) e)
    have hp' : parent d i < (h.set i (h.getD (parent d i) e)).length := by
      rw [length_set]
      exact Nat.lt_trans hp hi
    obtain ⟨hheap, hperm⟩ := ih hp' (by rw [length_set]; exact ho')
      (by rw [length_set]; exact hb') (if_pos rfl)
    exact ⟨hheap, hperm.trans (move_perm hi (Nat.lt_trans hp hi) (Nat.ne_of_lt hp) e)⟩
  | case3 h i hne hcond =>
    have hp := parent_lt d (Nat.pos_of_ne_zero hne)
    have hpar : filled h i e (parent d i) = h.getD (parent d i) e := if_neg (Nat.ne_of_lt hp)
    refine ⟨isHeap_set hi (ho.ordered hb fun _ => ?_), .refl _⟩
    rw [hmem, hpar]
    exact not_lt.mp fun hlt => hcond ((hbefore _ _).mpr hlt)

/-- `push` adds the value. -/
theorem push_spec (hh : IsHeap d key h) (e : α) :
    IsHeap d key (push before d h e) ∧ (push before d h e).Perm (e :: h) := by
  have hlen : (h ++ [e]).length = h.length + 1 := by simp
  have hset : (h ++ [e]).set h.length e = h ++ [e] := by simp
  have hval : ∀ j, j < h.length → filled (h ++ [e]) h.length e j = h.getD j e := by
    intro j hj
    unfold filled
    rw [if_neg (Nat.ne_of_lt hj), getD_eq_getElem?_getD, getD_eq_getElem?_getD,
      getElem?_append_left hj]
  have ho : OrderedBut d key (h ++ [e]).length h.length (filled (h ++ [e]) h.length e) := by
    rw [hlen]
    refine ⟨fun j hj hjn hne _ => ?_, fun h0 j hj hjn hpar => ?_⟩
    · have hj' : j < h.length := Nat.lt_of_le_of_ne (Nat.le_of_lt_succ hjn) hne
      rw [hval j hj', hval _ (Nat.lt_trans (parent_lt d hj) hj')]
      exact hh e j hj hj'
    · have hlt := parent_lt d hj
      omega
  have hb : FitsBelow d key (h ++ [e]).length h.length (filled (h ++ [e]) h.length e) := by
    intro j hj hjn hpar
    have hlt := parent_lt d hj
    rw [hlen] at hjn
    omega
  obtain ⟨hheap, hperm⟩ := siftUp_spec before hbefore (by rw [hlen]; exact Nat.lt_succ_self _) ho hb
  refine ⟨hheap, hperm.trans ?_⟩
  rw [hset]
  exact perm_append_singleton e h

/-- `least` is a value no other one of the range is before. -/
theorem least_le (h : List α) (e : α) {c stop j : Nat} (hlo : c ≤ j) (hhi : j < stop) :
    key (h.getD (least before h e c stop) e) ≤ key (h.getD j e) := by
  have hfold : ∀ (l : List Nat) (m : Nat), ∀ k, k = m ∨ k ∈ l →
      key (h.getD (l.foldl (fun m k => if before (h.getD k e) (h.getD m e) then k else m) m) e) ≤
        key (h.getD k e) := by
    intro l
    induction l with
    | nil =>
      rintro m k (rfl | hk)
      · exact le_refl _
      · simp at hk
    | cons x l ih =>
      intro m k hk
      rw [foldl_cons]
      split_ifs with hx
      · have hxm := (hbefore _ _).mp hx
        rcases hk with rfl | hk
        · exact le_trans (ih x x (.inl rfl)) (le_of_lt hxm)
        · exact ih x k (mem_cons.mp hk)
      · have hmx : key (h.getD m e) ≤ key (h.getD x e) :=
          not_lt.mp fun hlt => hx ((hbefore _ _).mpr hlt)
        rcases hk with rfl | hk
        · exact ih k k (.inl rfl)
        · rcases mem_cons.mp hk with rfl | hk
          · exact le_trans (ih m m (.inl rfl)) hmx
          · exact ih m k (.inr hk)
  refine hfold _ c j ?_
  rw [mem_range'_1]
  omega

theorem siftDown_spec {e : α} (hd : 0 < d) (hi : i < h.length)
    (ho : OrderedBut d key h.length i (filled h i e)) (ha : FitsAbove d key i (filled h i e)) :
    IsHeap d key (siftDown before d h i e) ∧ (siftDown before d h i e).Perm (h.set i e) := by
  have hmem : filled h i e i = e := if_pos rfl
  -- what the child that is picked is
  have hchild : ∀ (h : List α) (i : Nat), d * i + 1 < h.length →
      let m := least before h e (d * i + 1) (min (d * i + 1 + d) h.length)
      parent d m = i ∧ m < h.length ∧ i < m ∧ ∀ j, 0 < j → j < h.length → parent d j = i →
        key (h.getD m e) ≤ key (h.getD j e) := by
    intro h i hlt m
    have hstop : d * i + 1 < min (d * i + 1 + d) h.length := by omega
    obtain ⟨hlo, hhi⟩ := least_bounds before h e hstop
    have hle : i ≤ d * i := Nat.le_mul_of_pos_left i hd
    have hm0 : 0 < m := by omega
    refine ⟨(parent_eq_iff hd hm0).mpr ⟨hlo, by omega⟩, by omega, by omega, ?_⟩
    intro j hj hjn hji
    have hrange := (parent_eq_iff hd hj).mp hji
    exact least_le before hbefore h e hrange.1 (by omega)
  fun_induction siftDown before d h i e with
  | case1 h i hc m hcond ih =>
    obtain ⟨hpar, hm, him, hleast⟩ := hchild h i hc.1
    have hne : m ≠ i := Nat.ne_of_gt him
    have hval : ∀ j, j ≠ i → filled h i e j = h.getD j e := fun j hj => if_neg hj
    have hlt : key (filled h i e m) < key (filled h i e i) := by
      rw [hmem, hval m hne]
      exact (hbefore _ _).mp hcond
    have hleast' : ∀ j, 0 < j → j < h.length → parent d j = i →
        key (filled h i e m) ≤ key (filled h i e j) := by
      intro j hj hjn hji
      have hne' : j ≠ i := Nat.ne_of_gt (hji ▸ parent_lt d hj)
      rw [hval m hne, hval j hne']
      exact hleast j hj hjn hji
    obtain ⟨ho', ha'⟩ := ho.down hpar (Nat.lt_of_le_of_lt (Nat.zero_le i) him) hm hlt hleast'
      (filled_move hi hne e)
    obtain ⟨hheap, hperm⟩ := ih (by rwa [length_set]) (by rw [length_set]; exact ho')
      ha' (if_pos rfl)
    exact ⟨hheap, hperm.trans (move_perm hi hm hne e)⟩
  | case2 h i hc m hcond =>
    obtain ⟨-, -, -, hleast⟩ := hchild h i hc.1
    have hval : ∀ j, j ≠ i → filled h i e j = h.getD j e := fun j hj => if_neg hj
    refine ⟨isHeap_set hi (ho.ordered (fun j hj hjn hji => ?_) ha), .refl _⟩
    have hne' : j ≠ i := Nat.ne_of_gt (hji ▸ parent_lt d hj)
    rw [hmem, hval j hne']
    exact le_trans (not_lt.mp fun hlt => hcond ((hbefore _ _).mpr hlt)) (hleast j hj hjn hji)
  | case3 h i hc =>
    refine ⟨isHeap_set hi (ho.ordered (fun j hj hjn hji => ?_) ha), .refl _⟩
    have hrange := (parent_eq_iff hd hj).mp hji
    omega

/-- `pop` takes the least value. -/
theorem pop_spec (hd : 0 < d) {x : α} {rest : List α} (hh : IsHeap d key (x :: rest)) :
    ∃ h, pop before d (x :: rest) = some (x, h) ∧ IsHeap d key h ∧ h.Perm rest := by
  unfold pop
  cases hlast : rest.getLast? with
  | none =>
    obtain rfl : rest = [] := List.getLast?_eq_none_iff.mp hlast
    exact ⟨[], rfl, isHeap_nil, .refl _⟩
  | some last =>
    have hsplit : rest.dropLast ++ [last] = rest := by
      obtain ⟨ys, rfl⟩ := List.getLast?_eq_some_iff.mp hlast
      rw [dropLast_concat]
    have hlen : (x :: rest.dropLast).length < (x :: rest).length := by
      rw [← hsplit]
      simp
    have hval : ∀ j, 0 < j → j < (x :: rest.dropLast).length →
        filled (x :: rest.dropLast) 0 last j = (x :: rest).getD j last := by
      intro j hj hjn
      unfold filled
      rw [if_neg (Nat.ne_of_gt hj), getD_eq_getElem?_getD, getD_eq_getElem?_getD]
      conv_rhs => rw [← hsplit, ← cons_append, getElem?_append_left hjn]
    have ho : OrderedBut d key (x :: rest.dropLast).length 0
        (filled (x :: rest.dropLast) 0 last) := by
      refine ⟨fun j hj hjn _ hp => ?_, fun h0 => absurd h0 (Nat.lt_irrefl 0)⟩
      rw [hval j hj hjn, hval _ (Nat.pos_of_ne_zero hp) (Nat.lt_trans (parent_lt d hj) hjn)]
      exact hh last j hj (Nat.lt_trans hjn hlen)
    obtain ⟨hheap, hperm⟩ := siftDown_spec before hbefore hd (Nat.zero_lt_succ _) ho
      fun h0 => absurd h0 (Nat.lt_irrefl 0)
    refine ⟨_, by simp only [hlast], hheap, hperm.trans ?_⟩
    conv_rhs => rw [← hsplit]
    exact (perm_append_singleton last _).symm

end Order

end FastMM.Foundation.DaryHeap
