/-
  Foundation/SortedTables.lean --- lists in strictly ascending order of a key.

  Finding the place of a key by bisection, and what such a list holds after an
  entry is inserted, rewritten or erased at its place, or the lowest entries are
  dropped.
-/
import Mathlib.Data.List.Pairwise
import Mathlib.Order.Lattice
import Mathlib.Tactic.Tauto
set_option autoImplicit false

namespace FastMM.Foundation

open List

/-! ## Bisection -/

/-- At most `n` halvings of `[lo, hi)`. -/
def bisectFrom (p : Nat → Bool) : Nat → Nat → Nat → Nat
  | 0, lo, _ => lo
  | n + 1, lo, hi =>
    if lo < hi then
      let mid := lo + (hi - lo) / 2
      if p mid then bisectFrom p n (mid + 1) hi else bisectFrom p n lo mid
    else lo

/-- The first index of `[lo, hi)` at which `p` fails, when `p` holds up to it and
fails from there on. -/
def bisect (p : Nat → Bool) (lo hi : Nat) : Nat := bisectFrom p (hi - lo) lo hi

/-- `r` parts `[lo, hi)` into indices where `p` holds and indices where it fails. -/
structure Parts (p : Nat → Bool) (lo hi r : Nat) : Prop where
  le_left : lo ≤ r
  le_right : r ≤ hi
  holds : ∀ i, lo ≤ i → i < r → p i = true
  fails : ∀ i, r ≤ i → i < hi → p i = false

theorem bisectFrom_parts {p : Nat → Bool} {n lo hi : Nat} (hle : lo ≤ hi) (hn : hi - lo ≤ n)
    (hmono : ∀ i j, i ≤ j → j < hi → p j = true → p i = true) :
    Parts p lo hi (bisectFrom p n lo hi) := by
  induction n generalizing lo hi with
  | zero =>
    have heq : lo = hi := by omega
    rw [heq]
    exact ⟨Nat.le_refl _, Nat.le_refl _, fun i h₁ h₂ => absurd h₂ (Nat.not_lt.mpr h₁),
      fun i h₁ h₂ => absurd h₂ (Nat.not_lt.mpr h₁)⟩
  | succ n ih =>
    unfold bisectFrom
    split_ifs with hlt
    · have hmid : lo + (hi - lo) / 2 < hi := by omega
      have hlow : lo ≤ lo + (hi - lo) / 2 := Nat.le_add_right _ _
      simp only
      generalize lo + (hi - lo) / 2 = mid at hmid hlow ⊢
      cases hp : p mid with
      | true =>
        have hr : Parts p (mid + 1) hi _ := ih hmid (by omega) hmono
        rw [if_pos rfl]
        refine ⟨by have := hr.le_left; omega, hr.le_right, ?_, hr.fails⟩
        intro i h₁ h₂
        by_cases hle' : i ≤ mid
        · exact hmono i _ hle' hmid hp
        · exact hr.holds i (by omega) h₂
      | false =>
        have hr : Parts p lo mid _ := ih hlow (by omega) fun i j hij hj => hmono i j hij (by omega)
        rw [if_neg (by simp)]
        refine ⟨hr.le_left, by have := hr.le_right; omega, hr.holds, ?_⟩
        intro i h₁ h₂
        by_cases hle' : mid ≤ i
        · -- Were it to hold here, it would hold at the middle.
          cases hpi : p i with
          | false => rfl
          | true => exact absurd (hmono _ i hle' h₂ hpi) (by simp [hp])
        · exact hr.fails i h₁ (by omega)
    · exact ⟨Nat.le_refl _, hle, fun i h₁ h₂ => absurd h₂ (Nat.not_lt.mpr h₁),
        fun i h₁ h₂ => absurd (Nat.lt_of_le_of_lt h₁ h₂) hlt⟩

theorem bisect_parts {p : Nat → Bool} {lo hi : Nat} (hle : lo ≤ hi)
    (hmono : ∀ i j, i ≤ j → j < hi → p j = true → p i = true) :
    Parts p lo hi (bisect p lo hi) := bisectFrom_parts hle (Nat.le_refl _) hmono

/-! ## Ascending lists -/

/-- The keys ascend strictly. -/
def Ascending {E K : Type} [LT K] (key : E → K) (v : List E) : Prop :=
  v.Pairwise fun a b => key a < key b

/-- Index `i` is the place of key `k`: what stands before it is below `k`, and
what stands from it on is not. -/
structure Place {E K : Type} [LT K] [LE K] (key : E → K) (v : List E) (k : K) (i : Nat) : Prop where
  le_length : i ≤ v.length
  below : ∀ e ∈ v.take i, key e < k
  above : ∀ e ∈ v.drop i, k ≤ key e

section Ascending

variable {E K : Type} [LinearOrder K] {key : E → K} {v : List E} {k : K} {i : Nat} {e x : E}

theorem Ascending.sublist {w : List E} (h : Ascending key v) (hs : w.Sublist v) :
    Ascending key w := List.Pairwise.sublist hs h

/-- Later entries have larger keys. -/
theorem Ascending.lt_of_lt (h : Ascending key v) {a b : Nat} {x y : E} (ha : v[a]? = some x)
    (hb : v[b]? = some y) (hlt : a < b) : key x < key y := by
  obtain ⟨ha', rfl⟩ := List.getElem?_eq_some_iff.mp ha
  obtain ⟨hb', rfl⟩ := List.getElem?_eq_some_iff.mp hb
  exact pairwise_iff_getElem.mp h a b ha' hb' hlt

/-- A place, by what stands at each index. -/
theorem Place.of_index (hle : i ≤ v.length) (hbelow : ∀ j e, v[j]? = some e → j < i → key e < k)
    (habove : ∀ j e, v[j]? = some e → i ≤ j → k ≤ key e) : Place key v k i := by
  refine ⟨hle, ?_, ?_⟩
  · intro e he
    obtain ⟨j, hj⟩ := mem_iff_getElem?.mp he
    rw [getElem?_take] at hj
    split at hj
    · exact hbelow j e hj ‹_›
    · nomatch hj
  · intro e he
    obtain ⟨j, hj⟩ := mem_iff_getElem?.mp he
    rw [getElem?_drop] at hj
    exact habove (i + j) e hj (Nat.le_add_right i j)

section

variable (hp : Place key v k i)
include hp

/-- What stands at a place has its key or more. -/
theorem Place.le_at (he : v[i]? = some e) : k ≤ key e := by
  obtain ⟨hlt, hget⟩ := List.getElem?_eq_some_iff.mp he
  refine hp.above e ?_
  rw [drop_eq_getElem_cons hlt, hget]
  exact mem_cons_self

theorem Place.lt_of_before {j : Nat} (hj : v[j]? = some x) (hlt : j < i) :
    key x < k := by
  refine hp.below x (mem_of_getElem? (i := j) ?_)
  rw [getElem?_take, if_pos hlt]
  exact hj

/-- A place is that of every key up to what stands there. -/
theorem Place.of_le (h : Ascending key v) (he : v[i]? = some e) {l : K}
    (hfrom : k ≤ l) (hto : l ≤ key e) : Place key v l i := by
  refine Place.of_index hp.le_length (fun j x hj hlt => ?_) (fun j x hj hge => ?_)
  · exact lt_of_lt_of_le (hp.lt_of_before hj hlt) hfrom
  rcases Nat.lt_or_eq_of_le hge with hafter | rfl
  · exact le_trans hto (le_of_lt (h.lt_of_lt he hj hafter))
  · rw [Option.some.inj (hj.symm.trans he)]
    exact hto

/-- Nothing stands between a key and what stands at its place. -/
theorem Place.not_between (h : Ascending key v) (he : v[i]? = some e)
    (hx : x ∈ v) : ¬ (k ≤ key x ∧ key x < key e) := by
  rintro ⟨hle, hlt⟩
  obtain ⟨j, hj⟩ := mem_iff_getElem?.mp hx
  rcases Nat.lt_trichotomy j i with hbefore | rfl | hafter
  · exact absurd (hp.lt_of_before hj hbefore) (not_lt.mpr hle)
  · rw [Option.some.inj (hj.symm.trans he)] at hlt
    exact lt_irrefl _ hlt
  · exact absurd (h.lt_of_lt he hj hafter) (not_lt.mpr (le_of_lt hlt))

end

/-- A key stands once. -/
theorem Ascending.eq_of_key (h : Ascending key v) {a b : E} (ha : a ∈ v) (hb : b ∈ v)
    (hkey : key a = key b) : a = b := by
  have hall := List.Pairwise.forall_of_forall_of_flip (R := fun a b => key a = key b → a = b)
    (fun _ _ _ => rfl) (List.Pairwise.imp (fun hlt heq => absurd heq (ne_of_lt hlt)) h)
    (List.Pairwise.imp (fun hlt heq => absurd heq (ne_of_gt hlt)) h)
  exact hall ha hb hkey

/-- A list about a key: one of its entries has it, or it falls between two of them. -/
theorem Ascending.split (h : Ascending key v) (k : K) : (∃ A e B, v = A ++ e :: B ∧ key e = k) ∨
      ∃ A B, v = A ++ B ∧ (∀ a ∈ A, key a < k) ∧ ∀ b ∈ B, k < key b := by
  induction v with
  | nil => exact Or.inr ⟨[], [], rfl, by simp, by simp⟩
  | cons e v ih =>
    obtain ⟨hfirst, hrest⟩ := pairwise_cons.mp h
    rcases lt_trichotomy (key e) k with hlt | heq | hgt
    · rcases ih hrest with ⟨A, x, B, rfl, hx⟩ | ⟨A, B, rfl, hA, hB⟩
      · exact Or.inl ⟨e :: A, x, B, rfl, hx⟩
      · refine Or.inr ⟨e :: A, B, rfl, ?_, hB⟩
        exact forall_mem_cons.mpr ⟨hlt, hA⟩
    · exact Or.inl ⟨[], e, v, rfl, heq⟩
    refine Or.inr ⟨[], e :: v, rfl, by simp, ?_⟩
    intro b hb
    rcases mem_cons.mp hb with rfl | hb
    · exact hgt
    · exact lt_trans hgt (hfirst b hb)

/-- What stands before an entry is below it, and what stands behind it above. -/
theorem Ascending.about {A B : List E} (h : Ascending key (A ++ e :: B)) :
    (∀ a ∈ A, key a < key e) ∧ ∀ b ∈ B, key e < key b := by
  obtain ⟨-, htail, hcross⟩ := pairwise_append.mp h
  exact ⟨fun a ha => hcross a ha e mem_cons_self, (pairwise_cons.mp htail).1⟩

/-- The part before a key's place, the key, the part behind it. -/
theorem Place.mem_cases (h : Place key v k i) (he : e ∈ v) :
    (e ∈ v.take i ∧ key e < k) ∨ (e ∈ v.drop i ∧ k ≤ key e) := by
  rw [← take_append_drop i v, mem_append] at he
  rcases he with he | he
  · exact Or.inl ⟨he, h.below e he⟩
  · exact Or.inr ⟨he, h.above e he⟩

/-- A key with no entry at its place has none. -/
theorem Place.absent (hv : Ascending key v) (h : Place key v k i)
    (hno : ∀ y, v[i]? = some y → key y ≠ k) (he : e ∈ v) : key e ≠ k := by
  rcases h.mem_cases he with ⟨_, hlt⟩ | ⟨hin, -⟩
  · exact ne_of_lt hlt
  cases hd : v.drop i with
  | nil =>
    simp [hd] at hin
  | cons y rest =>
    have hy : v[i]? = some y := by
      rw [← head?_drop, hd]
      rfl
    have hky : k < key y := by
      refine lt_of_le_of_ne (h.above y ?_) (Ne.symm (hno y hy))
      rw [hd]
      exact mem_cons_self
    have hasc : Ascending key (y :: rest) := hd ▸ hv.sublist (drop_sublist i v)
    rw [hd] at hin
    rcases mem_cons.mp hin with rfl | hin
    · exact ne_of_gt hky
    · exact ne_of_gt (lt_trans hky ((pairwise_cons.mp hasc).1 e hin))

/-- An entry of a new key goes to its place. -/
theorem Ascending.insert (hv : Ascending key v) (h : Place key v (key x) i)
    (hno : ∀ y, v[i]? = some y → key y ≠ key x) :
    Ascending key (v.take i ++ x :: v.drop i) := by
  refine pairwise_append.mpr ⟨hv.sublist (take_sublist i v), ?_, ?_⟩
  · refine pairwise_cons.mpr ⟨?_, hv.sublist (drop_sublist i v)⟩
    intro e he
    exact lt_of_le_of_ne (h.above e he) (Ne.symm (h.absent hv hno (mem_of_mem_drop he)))
  · intro a ha b hb
    rcases mem_cons.mp hb with rfl | hb
    · exact h.below a ha
    · exact lt_of_lt_of_le (h.below a ha) (h.above b hb)

theorem insertIdx_eq_append (hle : i ≤ v.length) : v.insertIdx i x = v.take i ++ x :: v.drop i := by
  induction i generalizing v with
  | zero => simp
  | succ i ih =>
    cases v with
    | nil => nomatch hle
    | cons y rest =>
      rw [insertIdx_succ_cons, ih (by simpa using hle)]
      rfl

/-- The list about one of its entries. -/
theorem eq_take_append_drop (hi : v[i]? = some e) : v = v.take i ++ e :: v.drop (i + 1) := by
  obtain ⟨hlt, hget⟩ := List.getElem?_eq_some_iff.mp hi
  rw [← hget]
  simp

section

variable (hv : Ascending key v)
include hv

/-- An entry is rewritten under its own key. -/
theorem Ascending.set (hi : v[i]? = some e) (hkey : key x = key e) :
    Ascending key (v.set i x) := by
  obtain ⟨hlt, _⟩ := List.getElem?_eq_some_iff.mp hi
  rw [eq_take_append_drop hi] at hv
  obtain ⟨hleft, htail, hcross⟩ := pairwise_append.mp hv
  obtain ⟨habove, hright⟩ := pairwise_cons.mp htail
  rw [set_eq_take_append_cons_drop, if_pos hlt]
  refine pairwise_append.mpr ⟨hleft, pairwise_cons.mpr ⟨?_, hright⟩, ?_⟩
  · intro b hb
    rw [hkey]
    exact habove b hb
  · intro a ha b hb
    rcases mem_cons.mp hb with rfl | hb
    · rw [hkey]
      exact hcross a ha e mem_cons_self
    · exact hcross a ha b (mem_cons_of_mem e hb)

theorem Ascending.eraseIdx (i : Nat) : Ascending key (v.eraseIdx i) :=
  hv.sublist (eraseIdx_sublist v i)

/-- What is left when an entry is erased. -/
theorem Ascending.mem_eraseIdx (hi : v[i]? = some e) {a : E} :
    a ∈ v.eraseIdx i ↔ a ∈ v ∧ key a ≠ key e := by
  have hsplit := eq_take_append_drop hi
  have hasc := hv
  rw [hsplit] at hasc
  obtain ⟨_, htail, hcross⟩ := pairwise_append.mp hasc
  rw [eraseIdx_eq_take_drop_succ, mem_append]
  constructor
  · rintro (ha | ha)
    · exact ⟨mem_of_mem_take ha, ne_of_lt (hcross a ha e mem_cons_self)⟩
    · exact ⟨mem_of_mem_drop ha, ne_of_gt ((pairwise_cons.mp htail).1 a ha)⟩
  rintro ⟨ha, hne⟩
  rw [hsplit, mem_append, mem_cons] at ha
  rcases ha with ha | rfl | ha
  · exact Or.inl ha
  · exact absurd rfl hne
  · exact Or.inr ha

/-- What stands in the list when an entry is rewritten. -/
theorem Ascending.mem_set (hi : v[i]? = some e) {a : E} :
    a ∈ v.set i x ↔ a = x ∨ (a ∈ v ∧ key a ≠ key e) := by
  obtain ⟨hlt, _⟩ := List.getElem?_eq_some_iff.mp hi
  rw [← hv.mem_eraseIdx hi, eraseIdx_eq_take_drop_succ, set_eq_take_append_cons_drop, if_pos hlt]
  simp only [mem_append, mem_cons]
  tauto

end

end Ascending

end FastMM.Foundation
