/-
  Core/CounterKeyMap.lean --- a map for keys handed out by a counter.

  Source: `include/fastmm/core/containers/counter_key_map.hpp`.

  A slot is empty where the source has the key zero.  The table that takes a key whose slot is held
  is an `OpenHashMap`, a finite map of bounded size.
-/
import FastMM.Foundation.BoundedMaps
import Mathlib.Logic.Function.Basic
set_option autoImplicit false

namespace FastMM

open Foundation CappedMap Function

/-- `CounterKeyMap<V, N, OverflowN>`; `M` is the load the overflow table takes. -/
structure CounterKeyMap (V : Type) (N M : Nat) where
  slots : Nat → Option (Nat × V) := fun _ => none
  overflow : CappedMap Nat V M := .empty
  size : Nat := 0

namespace CounterKeyMap

variable {V : Type} {N M : Nat}
variable (m : CounterKeyMap V N M)

def find (k : Nat) : Option V :=
  match m.slots (k % N) with
  | some (k', v) => if k' = k then some v else m.overflow.find k
  | none => m.overflow.find k

/-- `none` when the key is zero, or its slot and the overflow table are taken. -/
def insert (k : Nat) (v : V) : Option (CounterKeyMap V N M) :=
  if k = 0 then none
  else
    match m.slots (k % N) with
    | none =>
      some { m with slots := update m.slots (k % N) (some (k, v)), size := m.size + 1 }
    | some _ =>
      match m.overflow.find k with
      | some _ => none
      | none =>
        (m.overflow.assign k v).map fun o => { m with overflow := o, size := m.size + 1 }

def erase (k : Nat) : CounterKeyMap V N M :=
  let inOverflow :=
    match m.overflow.find k with
    | some _ => { m with overflow := m.overflow.erase k, size := m.size - 1 }
    | none => m
  match m.slots (k % N) with
  | some (k', _) =>
    if k' = k then
      { m with slots := update m.slots (k % N) none, size := m.size - 1 }
    else inOverflow
  | none => inOverflow

/-- A key is in its own slot or in the overflow table, not in both. -/
structure Apart (m : CounterKeyMap V N M) : Prop where
  home : ∀ i k v, m.slots i = some (k, v) → i = k % N
  once : ∀ k v, m.slots (k % N) = some (k, v) → m.overflow.find k = none

theorem apart_empty : ({} : CounterKeyMap V N M).Apart :=
  ⟨fun _ _ _ h => absurd h (by simp), fun _ _ h => absurd h (by simp)⟩

section Changes

variable {m m' : CounterKeyMap V N M} {k : Nat} {v : V}

/-- A key that is absent is in no slot and not in the overflow table. -/
theorem absent (hk : m.find k = none) :
    (∀ w, m.slots (k % N) ≠ some (k, w)) ∧ m.overflow.find k = none := by
  unfold find at hk
  cases hs : m.slots (k % N) with
  | none =>
    rw [hs] at hk
    exact ⟨fun w h => absurd h (by simp), hk⟩
  | some e =>
    obtain ⟨k', w⟩ := e
    rw [hs] at hk
    by_cases he : k' = k
    · exact absurd hk (by simp [he])
    · refine ⟨fun w' h => he (Prod.mk.inj (Option.some.inj h)).1, ?_⟩
      simpa [he] using hk

/-- An absent key is inserted: it is found, and every other key as before. -/
theorem Apart.insert (h : m.Apart) (hk : m.find k = none) (hi : m.insert k v = some m') :
    m'.Apart ∧ ∀ k', m'.find k' = if k' = k then some v else m.find k' := by
  obtain ⟨hne, hover⟩ := absent hk
  unfold CounterKeyMap.insert at hi
  split at hi
  · nomatch hi
  cases hs : m.slots (k % N) with
  | none =>
    rw [hs] at hi
    obtain rfl := Option.some.inj hi
    refine ⟨⟨fun i k' w hw => ?_, fun k' w hw => ?_⟩, fun k' => ?_⟩
    · by_cases he : i = k % N
      · subst he
        dsimp only at hw
        rw [update_self] at hw
        rw [(Prod.mk.inj (Option.some.inj hw)).1]
      · dsimp only at hw
        rw [update_of_ne he] at hw
        exact h.home i k' w hw
    · dsimp only at hw
      by_cases he : k' % N = k % N
      · rw [he, update_self] at hw
        rw [← (Prod.mk.inj (Option.some.inj hw)).1]
        exact hover
      · rw [update_of_ne he] at hw
        exact h.once k' w hw
    · unfold find
      dsimp only
      by_cases he : k' % N = k % N
      · rw [he, update_self, hs]
        split_ifs with hkk
        · rw [hkk]
          exact if_pos rfl
        · exact if_neg (Ne.symm hkk)
      · rw [update_of_ne he, if_neg fun hkk : k' = k => he (hkk ▸ rfl)]
  | some e =>
    rw [hs, hover] at hi
    dsimp only at hi
    obtain ⟨o, ho, rfl⟩ := Option.map_eq_some_iff.mp hi
    have hfind := find_assign ho
    refine ⟨⟨h.home, fun k' w hw => ?_⟩, fun k' => ?_⟩
    · have hkk : k' ≠ k := fun he => hne w (he ▸ hw)
      rw [hfind, if_neg hkk]
      exact h.once k' w hw
    unfold find
    split_ifs with hkk
    · rw [hkk, hs]
      have hslot : e.1 ≠ k := fun he => hne e.2 (by rw [hs, ← he])
      show (if e.1 = k then some e.2 else o.find k) = some v
      rw [if_neg hslot, hfind, if_pos rfl]
    · rw [hfind, if_neg hkk]

/-- A key is erased: it is not found, and every other key as before. -/
theorem Apart.erase (h : m.Apart) (k : Nat) :
    (m.erase k).Apart ∧ ∀ k', (m.erase k).find k' = if k' = k then none else m.find k' := by
  by_cases hin : ∃ w, m.slots (k % N) = some (k, w)
  · obtain ⟨w, hs⟩ := hin
    have herase : m.erase k =
        { m with slots := update m.slots (k % N) none, size := m.size - 1 } := by
      unfold CounterKeyMap.erase
      rw [hs]
      exact if_pos rfl
    rw [herase]
    refine ⟨⟨fun i k' w' hw => ?_, fun k' w' hw => ?_⟩, fun k' => ?_⟩
    · dsimp only at hw
      by_cases he : i = k % N
      · simp [he, update_self] at hw
      · rw [update_of_ne he] at hw
        exact h.home i k' w' hw
    · dsimp only at hw
      by_cases he : k' % N = k % N
      · simp [he, update_self] at hw
      · rw [update_of_ne he] at hw
        exact h.once k' w' hw
    · unfold find
      dsimp only
      by_cases he : k' % N = k % N
      · rw [he, update_self, hs]
        split_ifs with hkk
        · rw [hkk]
          exact h.once k w hs
        · exact (if_neg (Ne.symm hkk)).symm
      · rw [update_of_ne he, if_neg fun hkk : k' = k => he (hkk ▸ rfl)]
  · have hne : ∀ w, m.slots (k % N) ≠ some (k, w) := fun w hw => hin ⟨w, hw⟩
    -- Its slot is empty or another key's.
    have hslot : ∀ e, m.slots (k % N) = some e → e.1 ≠ k := fun e hs he =>
      hne e.2 (by rw [hs, ← he])
    have herase : m.erase k = match m.overflow.find k with
        | some _ => { m with overflow := m.overflow.erase k, size := m.size - 1 }
        | none => m := by
      unfold CounterKeyMap.erase
      cases hs : m.slots (k % N) with
      | none => rfl
      | some e => exact if_neg (hslot e hs)
    rw [herase]
    cases hover : m.overflow.find k with
    | none =>
      refine ⟨h, fun k' => ?_⟩
      split_ifs with hkk
      · rw [hkk]
        unfold find
        cases hs : m.slots (k % N) with
        | none => exact hover
        | some e => exact (if_neg (hslot e hs)).trans hover
      · rfl
    | some x =>
      refine ⟨⟨h.home, fun k' w hw => ?_⟩, fun k' => ?_⟩
      · rw [find_erase, h.once k' w hw]
        exact ite_self _
      unfold find
      split_ifs with hkk
      · rw [hkk, find_erase_self]
        cases hs : m.slots (k % N) with
        | none => rfl
        | some e => exact if_neg (hslot e hs)
      · rw [find_erase_of_ne _ hkk]

/-- An insertion taken back leaves the map as it was. -/
theorem erase_insert (hk : m.find k = none) (hi : m.insert k v = some m') : m'.erase k = m := by
  obtain ⟨hne, hover⟩ := absent hk
  unfold CounterKeyMap.insert at hi
  split at hi
  · nomatch hi
  cases hs : m.slots (k % N) with
  | none =>
    rw [hs] at hi
    obtain rfl := Option.some.inj hi
    unfold CounterKeyMap.erase
    dsimp only
    rw [update_self]
    dsimp only
    rw [if_pos rfl, update_idem, ← hs, update_eq_self]
    rfl
  | some e =>
    rw [hs, hover] at hi
    dsimp only at hi
    obtain ⟨o, ho, rfl⟩ := Option.map_eq_some_iff.mp hi
    have hslot : e.1 ≠ k := fun he => hne e.2 (by rw [hs, ← he])
    have hfound : o.find k = some v := by rw [find_assign ho, if_pos rfl]
    unfold CounterKeyMap.erase
    rw [hs, hfound]
    dsimp only
    rw [if_neg hslot, erase_assign hover ho]
    rfl

end Changes

end CounterKeyMap

end FastMM
