/-
  Foundation/IntrusiveLists.lean --- doubly linked lists threaded through nodes.

  Nodes are numbers; each has a link to the next and the previous node of the list
  it is on.  `Chain K p l` says that the links of the nodes of `l`, in that order,
  are those of a doubly linked list whose first node has `p` before it.  Nodes are
  put at the front or at the back and taken out where they stand; each is stated on
  the list of nodes, with a frame rule for the lists it does not touch.
-/
import Mathlib.Logic.Function.Basic
import Mathlib.Data.List.Nodup
set_option autoImplicit false

namespace FastMM.Foundation

open Function List

/-- The links of all nodes. -/
structure Links where
  next : Nat → Option Nat := fun _ => none
  prev : Nat → Option Nat := fun _ => none

namespace Links

variable {a b : List Nat}

/-- Links as they stand along a list. -/
def Chain (K : Links) : Option Nat → List Nat → Prop
  | _, [] => True
  | p, x :: l => K.prev x = p ∧ K.next x = l.head? ∧ Chain K (some x) l

/-! ## Operations -/

/-- Node `x` put before `head`. -/
def linkFront (K : Links) (head : Option Nat) (x : Nat) : Links where
  next := update K.next x head
  prev :=
    match head with
    | some y => update (update K.prev x none) y (some x)
    | none => update K.prev x none

/-- Node `x` put behind `tail`. -/
def linkBack (K : Links) (tail : Option Nat) (x : Nat) : Links where
  next :=
    match tail with
    | some y => update (update K.next x none) y (some x)
    | none => update K.next x none
  prev := update K.prev x tail

/-- Node `x` taken out: its neighbours are linked to each other. -/
def unlink (K : Links) (x : Nat) : Links where
  next :=
    match K.prev x with
    | some p => update K.next p (K.next x)
    | none => K.next
  prev :=
    match K.next x with
    | some n => update K.prev n (K.prev x)
    | none => K.prev

/-! ## Chains -/

variable {K K' : Links} {p : Option Nat} {l m : List Nat} {x : Nat}

/-- A chain depends on the links of its own nodes. -/
theorem Chain.congr (h : Chain K p l) (hnext : ∀ y ∈ l, K'.next y = K.next y)
    (hprev : ∀ y ∈ l, K'.prev y = K.prev y) : Chain K' p l := by
  induction l generalizing p with
  | nil => trivial
  | cons y l ih =>
    refine ⟨?_, ?_, ?_⟩
    · rw [hprev y mem_cons_self]
      exact h.1
    · rw [hnext y mem_cons_self]
      exact h.2.1
    · apply ih h.2.2
      · exact fun z hz => hnext z (mem_cons_of_mem y hz)
      · exact fun z hz => hprev z (mem_cons_of_mem y hz)

theorem Chain.next_eq (h : Chain K p (a ++ x :: b)) : K.next x = b.head? := by
  induction a generalizing p with
  | nil => exact h.2.1
  | cons y a ih => exact ih h.2.2

theorem Chain.prev_eq (h : Chain K p (a ++ x :: b)) : K.prev x = a.getLast?.or p := by
  induction a generalizing p with
  | nil => exact h.1
  | cons y a ih =>
    rw [ih h.2.2]
    cases a with
    | nil => rfl
    | cons z a => simp [getLast?_cons]

/-- A chain, node by node. -/
theorem Chain.of_splits (h : ∀ a y b, l = a ++ y :: b →
    K.next y = b.head? ∧ K.prev y = a.getLast?.or p) : Chain K p l := by
  induction l generalizing p with
  | nil => trivial
  | cons x l ih =>
    have hx := h [] x l rfl
    refine ⟨by simpa using hx.2, hx.1, ?_⟩
    apply ih
    intro a y b hab
    have hy := h (x :: a) y b (by rw [hab, cons_append])
    refine ⟨hy.1, ?_⟩
    rw [hy.2]
    cases a with
    | nil => rfl
    | cons z a => simp [getLast?_cons]

/-- The two ways to split a list of two parts. -/
theorem append_split {a b a' b' : List Nat} {y : Nat} (h : a ++ b = a' ++ y :: b') :
    (∃ c, a = a' ++ y :: c ∧ b' = c ++ b) ∨ (∃ c, a' = a ++ c ∧ b = c ++ y :: b') := by
  rcases append_eq_append_iff.mp h with ⟨c, ha', hb⟩ | ⟨c, ha, hc⟩
  · exact .inr ⟨c, ha', hb⟩
  cases c with
  | nil =>
    refine .inr ⟨[], ?_, ?_⟩
    · rw [ha, append_nil, append_nil]
    · exact hc.symm
  | cons z c =>
    rw [cons_append, List.cons.injEq] at hc
    exact .inl ⟨c, by rw [ha, hc.1], hc.2⟩

/-! ## Putting a node in front -/

theorem Chain.linkFront (h : Chain K none l) (hl : l.Nodup) (hx : x ∉ l) :
    Chain (K.linkFront l.head? x) none (x :: l) := by
  cases l with
  | nil =>
    refine ⟨?_, ?_, trivial⟩
    · simp [Links.linkFront]
    · simp [Links.linkFront]
  | cons y l =>
    have hxy : x ≠ y := fun heq => hx (heq ▸ mem_cons_self)
    have hyl := (nodup_cons.mp hl).1
    refine ⟨?_, ?_, ?_, ?_, ?_⟩
    · simp [Links.linkFront, update_of_ne hxy]
    · simp [Links.linkFront]
    · simp [Links.linkFront]
    · have hyx : y ≠ x := fun heq => hxy heq.symm
      show update K.next x _ y = _
      rw [update_of_ne hyx]
      exact h.2.1
    apply h.2.2.congr
    · intro z hz
      have hzx : z ≠ x := fun heq => hx (heq ▸ mem_cons_of_mem y hz)
      exact update_of_ne hzx _ _
    · intro z hz
      have hzx : z ≠ x := fun heq => hx (heq ▸ mem_cons_of_mem y hz)
      have hzy : z ≠ y := fun heq => hyl (heq ▸ hz)
      simp [Links.linkFront, update_of_ne hzy, update_of_ne hzx]

theorem Chain.linkFront_frame (h : Chain K p m) (hx : x ∉ m) (hl : ∀ y ∈ l, y ∉ m) :
    Chain (K.linkFront l.head? x) p m := by
  apply h.congr
  · intro z hz
    have hzx : z ≠ x := fun heq => hx (heq ▸ hz)
    exact update_of_ne hzx _ _
  intro z hz
  have hzx : z ≠ x := fun heq => hx (heq ▸ hz)
  cases l with
  | nil => simp [Links.linkFront, update_of_ne hzx]
  | cons y l =>
    have hzy : z ≠ y := fun heq => hl y mem_cons_self (heq ▸ hz)
    simp [Links.linkFront, update_of_ne hzx, update_of_ne hzy]

/-! ## Putting a node behind -/

theorem Chain.linkBack (h : Chain K none l) (hl : l.Nodup) (hx : x ∉ l) :
    Chain (K.linkBack l.getLast? x) none (l ++ [x]) := by
  apply Chain.of_splits
  intro a y b hab
  rcases append_split hab with ⟨c, hlac, hbc⟩ | ⟨c, hac, hxc⟩
  · -- A node of the list: only the last one's link moves.
    have hyl : y ∈ l := by
      rw [hlac]
      simp
    have hyx : y ≠ x := fun heq => hx (heq ▸ hyl)
    have hnext := (hlac ▸ h : Chain K none (a ++ y :: c)).next_eq
    have hprev := (hlac ▸ h : Chain K none (a ++ y :: c)).prev_eq
    constructor
    · rw [hbc]
      cases c with
      | nil =>
        have hlast : l.getLast? = some y := by rw [hlac]; simp
        simp [Links.linkBack, hlast]
      | cons z c =>
        have hne : l.getLast? ≠ some y := by
          intro hlast
          have hlast' : (z :: c).getLast? = some y := by
            rw [hlac] at hlast
            simpa using hlast
          have hmem := mem_of_getLast? hlast'
          rw [hlac] at hl
          exact (nodup_cons.mp (nodup_append.mp hl).2.1).1 hmem
        cases hl' : l.getLast? with
        | none => simp [Links.linkBack, update_of_ne hyx, hnext]
        | some w =>
          have hyw : y ≠ w := fun heq => hne (by rw [hl', heq])
          simp [Links.linkBack, update_of_ne hyx, update_of_ne hyw, hnext]
    · show update K.prev x _ y = _
      rw [update_of_ne hyx]
      exact hprev
  · -- The new node itself.
    cases c with
    | nil =>
      have hyb : x = y ∧ b = [] := by simpa using hxc
      obtain ⟨rfl, rfl⟩ := hyb
      rw [hac, append_nil]
      constructor
      · cases hl' : l.getLast? with
        | none => simp [Links.linkBack]
        | some w =>
          have hw : w ∈ l := mem_of_getLast? hl'
          have hxw : x ≠ w := fun heq => hx (heq ▸ hw)
          simp [Links.linkBack, update_of_ne hxw]
      · simp [Links.linkBack]
    | cons z c => simp at hxc

theorem Chain.linkBack_frame (h : Chain K p m) (hx : x ∉ m) (hl : ∀ y ∈ l, y ∉ m) :
    Chain (K.linkBack l.getLast? x) p m := by
  apply h.congr
  · intro z hz
    have hzx : z ≠ x := fun heq => hx (heq ▸ hz)
    cases hlast : l.getLast? with
    | none => simp [Links.linkBack, update_of_ne hzx]
    | some y =>
      have hzy : z ≠ y := fun heq => hl y (mem_of_getLast? hlast) (heq ▸ hz)
      simp [Links.linkBack, update_of_ne hzx, update_of_ne hzy]
  · intro z hz
    have hzx : z ≠ x := fun heq => hx (heq ▸ hz)
    exact update_of_ne hzx _ _

/-! ## Taking a node out -/

theorem Chain.unlink (h : Chain K none (a ++ x :: b))
    (hl : (a ++ x :: b).Nodup) : Chain (K.unlink x) none (a ++ b) := by
  have hxnext := h.next_eq
  have hxprev : K.prev x = a.getLast? := by rw [h.prev_eq, Option.or_none]
  obtain ⟨ha, hxb, hdisj⟩ := nodup_append.mp hl
  have hb := (nodup_cons.mp hxb).2
  apply Chain.of_splits
  intro a' y b' hab
  rcases append_split hab with ⟨c, hac, hbc⟩ | ⟨c, hac, hbc⟩
  · -- A node before: its successor changes when it is the last before.
    have hchain : Chain K none (a' ++ y :: (c ++ x :: b)) := by
      have hsplit : a ++ x :: b = a' ++ y :: (c ++ x :: b) := by rw [hac]; simp
      rw [← hsplit]
      exact h
    have hya : y ∈ a := by rw [hac]; simp
    constructor
    · rw [hbc]
      cases c with
      | nil =>
        have hlast : a.getLast? = some y := by rw [hac]; simp
        simp [Links.unlink, hxprev, hlast, hxnext]
      | cons z c =>
        have hne : a.getLast? ≠ some y := by
          intro hlast
          have hlast' : (z :: c).getLast? = some y := by
            rw [hac] at hlast
            simpa using hlast
          have hmem := mem_of_getLast? hlast'
          rw [hac] at ha
          exact (nodup_cons.mp (nodup_append.mp ha).2.1).1 hmem
        have hnext := hchain.next_eq
        cases hp : a.getLast? with
        | none => simp [Links.unlink, hxprev, hp, hnext]
        | some w =>
          have hyw : y ≠ w := fun heq => hne (by rw [hp, heq])
          simp [Links.unlink, hxprev, hp, update_of_ne hyw, hnext]
    · have hprev := hchain.prev_eq
      cases hn : b.head? with
      | none => simp [Links.unlink, hxnext, hn, hprev]
      | some w =>
        have hw : w ∈ b := mem_of_head? hn
        have hyw : y ≠ w := hdisj y hya w (mem_cons_of_mem x hw)
        simp [Links.unlink, hxnext, hn, update_of_ne hyw, hprev]
  · -- A node behind: its predecessor changes when it is the first behind.
    have hchain : Chain K none ((a ++ x :: c) ++ y :: b') := by
      have hsplit : a ++ x :: b = (a ++ x :: c) ++ y :: b' := by rw [hbc]; simp
      rw [← hsplit]
      exact h
    have hyb : y ∈ b := by rw [hbc]; simp
    constructor
    · have hnext := hchain.next_eq
      cases hp : a.getLast? with
      | none => simp [Links.unlink, hxprev, hp, hnext]
      | some w =>
        have hw : w ∈ a := mem_of_getLast? hp
        have hyw : y ≠ w := (hdisj w hw y (mem_cons_of_mem x hyb)).symm
        simp [Links.unlink, hxprev, hp, update_of_ne hyw, hnext]
    · rw [hac]
      cases c with
      | nil =>
        have hhead : b.head? = some y := by rw [hbc]; rfl
        simp [Links.unlink, hxnext, hhead, hxprev]
      | cons z c =>
        have hzy : z ≠ y := by
          intro heq
          rw [hbc, heq] at hb
          exact (nodup_cons.mp hb).1 (by simp)
        have hhead : b.head? = some z := by rw [hbc]; rfl
        have hprev := hchain.prev_eq
        simp [Links.unlink, hxnext, hhead, update_of_ne hzy.symm, hprev]

theorem Chain.unlink_frame (h : Chain K p m) (hx : Chain K none (a ++ x :: b))
    (hm : ∀ y ∈ a ++ x :: b, y ∉ m) : Chain (K.unlink x) p m := by
  have hxnext := hx.next_eq
  have hxprev : K.prev x = a.getLast? := by rw [hx.prev_eq, Option.or_none]
  apply h.congr
  · intro z hz
    cases hp : a.getLast? with
    | none => simp [Links.unlink, hxprev, hp]
    | some w =>
      have hw : w ∈ a ++ x :: b := mem_append_left _ (mem_of_getLast? hp)
      have hzw : z ≠ w := fun heq => hm w hw (heq ▸ hz)
      simp [Links.unlink, hxprev, hp, update_of_ne hzw]
  · intro z hz
    cases hn : b.head? with
    | none => simp [Links.unlink, hxnext, hn]
    | some w =>
      have hw : w ∈ a ++ x :: b :=
        mem_append_right _ (mem_cons_of_mem x (mem_of_head? hn))
      have hzw : z ≠ w := fun heq => hm w hw (heq ▸ hz)
      simp [Links.unlink, hxnext, hn, update_of_ne hzw]

/-! ## Several lists over the same nodes -/

section Lists

variable {ι : Type} [DecidableEq ι]

/-- The nodes are on the lists `c`, each on the one `owner` says; `head` has their
first nodes. -/
structure Lists (K : Links) (head : ι → Option Nat) (owner : Nat → Option ι)
    (c : ι → List Nat) : Prop where
  chain : ∀ i, Chain K none (c i)
  nodup : ∀ i, (c i).Nodup
  head : ∀ i, head i = (c i).head?
  mem : ∀ i x, x ∈ c i ↔ owner x = some i

variable {head : ι → Option Nat} {owner : Nat → Option ι} {c : ι → List Nat}

omit [DecidableEq ι] in
theorem Lists.disjoint (h : Lists K head owner c) {i j : ι} (hij : i ≠ j) {y : Nat}
    (hy : y ∈ c i) : y ∉ c j := by
  intro hyj
  have hi := (h.mem i y).mp hy
  have hj := (h.mem j y).mp hyj
  exact hij (Option.some.inj (hi.symm.trans hj))

theorem Lists.linkFront (h : Lists K head owner c) (hx : owner x = none) (i : ι) :
    Lists (K.linkFront (head i) x) (update head i (some x))
      (update owner x (some i)) (update c i (x :: c i)) := by
  have hxc : ∀ j, x ∉ c j := by
    intro j hj
    simp [(h.mem j x).mp hj] at hx
  constructor
  · intro j
    rw [h.head i]
    by_cases hj : j = i
    · subst hj
      rw [update_self]
      exact (h.chain j).linkFront (h.nodup j) (hxc j)
    · rw [update_of_ne hj]
      exact (h.chain j).linkFront_frame (hxc j) (fun y hy => h.disjoint (Ne.symm hj) hy)
  · intro j
    by_cases hj : j = i
    · subst hj
      rw [update_self]
      exact nodup_cons.mpr ⟨hxc j, h.nodup j⟩
    · rw [update_of_ne hj]
      exact h.nodup j
  · intro j
    by_cases hj : j = i
    · subst hj
      simp
    · rw [update_of_ne hj, update_of_ne hj]
      exact h.head j
  intro j y
  by_cases hy : y = x
  · subst hy
    by_cases hj : j = i
    · subst hj
      simp
    rw [update_of_ne hj, update_self]
    constructor
    · exact fun hmem => absurd hmem (hxc j)
    · intro heq
      exact absurd (Option.some.inj heq).symm hj
  · rw [update_of_ne hy, ← h.mem j y]
    by_cases hj : j = i
    · subst hj
      rw [update_self, mem_cons]
      exact ⟨fun hmem => hmem.resolve_left hy, .inr⟩
    · rw [update_of_ne hj]

/-- The first nodes after `x` is taken off list `i`. -/
def headAfter (K : Links) (head : ι → Option Nat) (i : ι) (x : Nat) : ι → Option Nat :=
  if (K.prev x).isSome then head else update head i (K.next x)

theorem Lists.unlink (h : Lists K head owner c) {i : ι} {a b : List Nat} (hi : c i = a ++ x :: b) :
    Lists (K.unlink x) (headAfter K head i x) (update owner x none) (update c i (a ++ b)) := by
  have hchain : Chain K none (a ++ x :: b) := hi ▸ h.chain i
  have hnodup : (a ++ x :: b).Nodup := hi ▸ h.nodup i
  have hsub : (a ++ b).Sublist (a ++ x :: b) :=
    List.Sublist.append (List.Sublist.refl a) (sublist_cons_self x b)
  have hxab : x ∉ a ++ b := by
    rw [mem_append, not_or]
    obtain ⟨-, hxb, hdisj⟩ := nodup_append.mp hnodup
    exact ⟨fun hxa => hdisj x hxa x mem_cons_self rfl, (nodup_cons.mp hxb).1⟩
  constructor
  · intro j
    by_cases hj : j = i
    · subst hj
      rw [update_self]
      exact hchain.unlink hnodup
    · rw [update_of_ne hj]
      exact (h.chain j).unlink_frame hchain (fun y hy => h.disjoint (Ne.symm hj) (hi ▸ hy))
  · intro j
    by_cases hj : j = i
    · subst hj
      rw [update_self]
      exact hnodup.sublist hsub
    · rw [update_of_ne hj]
      exact h.nodup j
  · intro j
    have hprev : K.prev x = a.getLast? := by rw [hchain.prev_eq, Option.or_none]
    unfold headAfter
    by_cases hj : j = i
    · subst hj
      rw [update_self, hprev, hchain.next_eq]
      cases a with
      | nil => simp
      | cons y a =>
        rw [if_pos (by simp [getLast?_cons]), h.head j, hi]
        rfl
    · rw [update_of_ne hj, ← h.head j]
      split
      · rfl
      · rw [update_of_ne hj]
  · intro j y
    by_cases hy : y = x
    · subst hy
      rw [update_self]
      constructor
      · intro hmem
        by_cases hj : j = i
        · subst hj
          rw [update_self] at hmem
          exact absurd hmem hxab
        · rw [update_of_ne hj] at hmem
          have hyi : y ∈ c i := by rw [hi]; simp
          exact absurd hmem (h.disjoint (Ne.symm hj) hyi)
      · nofun
    · rw [update_of_ne hy, ← h.mem j y]
      by_cases hj : j = i
      · subst hj
        rw [update_self, hi]
        simp [hy]
      · rw [update_of_ne hj]

omit [DecidableEq ι] in
/-- Where a node of a list stands. -/
theorem Lists.split (h : Lists K head owner c) {i : ι} (hx : owner x = some i) :
    ∃ a b, c i = a ++ x :: b :=
  append_of_mem ((h.mem i x).mpr hx)

omit [DecidableEq ι] in
/-- A node on no list may come or go. -/
theorem Lists.of_owner (h : Lists K head owner c) {owner' : Nat → Option ι}
    (heq : ∀ y, owner' y = owner y) : Lists K head owner' c :=
  ⟨h.chain, h.nodup, h.head, fun i y => by rw [heq]; exact h.mem i y⟩

end Lists

end Links

end FastMM.Foundation
