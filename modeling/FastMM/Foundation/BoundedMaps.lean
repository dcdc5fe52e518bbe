/-
  Foundation/BoundedMaps.lean --- two abstract containers of bounded size.

  `CappedMap` is a finite map that refuses an absent key once it holds `cap`
  entries.  `RecentKeys` is the set of the last `cap` distinct keys it was
  given.  Both carry their bound as a field, so a value past it cannot be built.

  Nothing here names a program: the two are what a fixed-size hash table and a
  bounded memory of identifiers are for, whatever layout implements them.
-/
import Mathlib.Data.Finset.Card
set_option autoImplicit false

namespace FastMM.Foundation

open List

/-! ## Capped maps -/

/-- A finite map of at most `cap` entries. -/
structure CappedMap (K V : Type) (cap : Nat) where
  /-- The keys present. -/
  keys : Finset K
  /-- The value of a key. -/
  find : K → Option V
  /-- The two agree on which keys are present. -/
  mem_keys : ∀ k, k ∈ keys ↔ (find k).isSome = true
  /-- The bound on the number of entries. -/
  card_le : keys.card ≤ cap

namespace CappedMap

variable {K V : Type} {cap : Nat}
variable (m : CappedMap K V cap)
variable (k : K)

/-- The map with no entry. -/
def empty : CappedMap K V cap where
  keys := ∅
  find := fun _ => none
  mem_keys := by intro k; simp
  card_le := by simp

/-- The number of entries. -/
def size : Nat := m.keys.card

@[simp] theorem find_empty : (empty : CappedMap K V cap).find k = none := rfl

/-- The keys present embed into any finite set that contains them. -/
theorem size_le_of_subset (s : Finset K) (h : ∀ k, m.find k ≠ none → k ∈ s) : m.size ≤ s.card := by
  refine Finset.card_le_card ?_
  intro k hk
  refine h k ?_
  rw [m.mem_keys] at hk
  intro hn
  simp [hn] at hk

variable [DecidableEq K]

/-- Set the value of a key; `none` when the key is absent and the map full. -/
def assign (v : V) : Option (CappedMap K V cap) :=
  if h : k ∈ m.keys ∨ m.keys.card < cap then
    some {
      keys := insert k m.keys
      find := fun k' => if k' = k then some v else m.find k'
      mem_keys := by
        intro k'
        by_cases hk : k' = k
        · simp [hk]
        · simp [hk, m.mem_keys]
      card_le := by
        rcases h with h | h
        · rw [Finset.insert_eq_of_mem h]
          exact m.card_le
        · exact le_trans (Finset.card_insert_le k m.keys) h }
  else none

/-- Drop a key. -/
def erase : CappedMap K V cap where
  keys := m.keys.erase k
  find := fun k' => if k' = k then none else m.find k'
  mem_keys := by
    intro k'
    by_cases hk : k' = k
    · simp [hk]
    · simp [hk, m.mem_keys]
  card_le := le_trans (Finset.card_le_card (Finset.erase_subset k m.keys)) m.card_le

theorem find_erase (k k' : K) : (m.erase k).find k' = if k' = k then none else m.find k' := rfl

@[simp] theorem find_erase_self :
    (m.erase k).find k = none := by
  simp [find_erase]

theorem find_erase_of_ne {k k' : K} (h : k' ≠ k) : (m.erase k).find k' = m.find k' := by
  simp [find_erase, h]

theorem assign_eq_none_iff (v : V) : m.assign k v = none ↔ m.find k = none ∧ m.size = cap := by
  have hle := m.card_le
  have hmem := m.mem_keys k
  unfold assign size
  split_ifs with h
  · constructor
    · intro hf
      nomatch hf
    rintro ⟨hf, hc⟩
    rcases h with h | h
    · rw [hf] at hmem
      simp [h] at hmem
    · omega
  · rw [not_or] at h
    refine ⟨fun _ => ⟨?_, by omega⟩, fun _ => rfl⟩
    cases hf : m.find k with
    | none => rfl
    | some v' => exact absurd (hmem.mpr (by simp [hf])) h.1

theorem find_assign {m m' : CappedMap K V cap} {k : K} {v : V}
    (h : m.assign k v = some m') (k' : K) :
    m'.find k' = if k' = k then some v else m.find k' := by
  unfold assign at h
  split at h
  · rw [← Option.some.inj h]
  · nomatch h

omit [DecidableEq K] in
/-- A map is what it finds. -/
theorem eq_of_find {m m' : CappedMap K V cap} (h : ∀ k, m.find k = m'.find k) : m = m' := by
  have hfind : m.find = m'.find := funext h
  have hkeys : m.keys = m'.keys := by
    ext k
    rw [m.mem_keys, m'.mem_keys, hfind]
  obtain ⟨keys, find, hmem, hle⟩ := m
  obtain ⟨keys', find', hmem', hle'⟩ := m'
  obtain rfl : keys = keys' := hkeys
  obtain rfl : find = find' := hfind
  rfl

/-- An absent key's value taken back leaves the map as it was. -/
theorem erase_assign {m m' : CappedMap K V cap} {k : K} {v : V} (hk : m.find k = none)
    (h : m.assign k v = some m') : m'.erase k = m := by
  refine eq_of_find fun k' => ?_
  rw [find_erase, find_assign h]
  split_ifs with he
  · rw [he, hk]
  · rfl

end CappedMap

/-! ## Recent keys -/

/-- The last `cap` distinct keys, oldest first. -/
structure RecentKeys (K : Type) (cap : Nat) where
  /-- The keys, oldest first. -/
  keys : List K
  /-- No key twice. -/
  nodup : keys.Nodup
  /-- The bound on the number of keys. -/
  length_le : keys.length ≤ cap

namespace RecentKeys

variable {K : Type} {cap : Nat}

/-- No key remembered. -/
def empty : RecentKeys K cap := ⟨[], nodup_nil, Nat.zero_le cap⟩

variable [DecidableEq K]

/-- Remember a key.  A key already there stays where it is; a new one enters,
and the oldest leaves when there are more than `cap`.  The flag says whether the
key was new. -/
def assign (r : RecentKeys K cap) (k : K) : Bool × RecentKeys K cap :=
  if h : k ∈ r.keys then (false, r)
  else
    (true, {
      keys := (r.keys ++ [k]).drop (r.keys.length + 1 - cap)
      nodup := by
        refine List.Nodup.sublist (drop_sublist _ _) ?_
        rw [nodup_append]
        refine ⟨r.nodup, nodup_singleton k, ?_⟩
        intro a ha b hb hab
        rw [mem_singleton] at hb
        exact h (hb ▸ hab ▸ ha)
      length_le := by
        rw [length_drop, length_append, length_singleton]
        omega })

theorem assign_fst_eq_true_iff (r : RecentKeys K cap) (k : K) :
    (r.assign k).1 = true ↔ k ∉ r.keys := by
  unfold assign
  split <;> simp_all

/-- A remembered key was there before or is the one just given. -/
theorem mem_assign {r : RecentKeys K cap} {k k' : K}
    (h : k' ∈ (r.assign k).2.keys) : k' = k ∨ k' ∈ r.keys := by
  unfold assign at h
  split at h
  · exact Or.inr h
  · have hmem := mem_of_mem_drop h
    rw [mem_append, mem_singleton] at hmem
    exact hmem.symm

end RecentKeys

end FastMM.Foundation
