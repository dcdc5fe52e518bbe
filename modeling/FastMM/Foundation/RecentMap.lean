/-
  Foundation/RecentMap.lean --- the values of the last distinct keys a table was given.

  A key already there keeps its place and takes the new value; a new one enters last, and the
  oldest leaves when the table is full.
-/
import FastMM.Foundation.KeyedTable
set_option autoImplicit false

namespace FastMM.Foundation

open List

/-- The last `cap` distinct keys with their values, oldest first. -/
structure RecentMap (K V : Type) (cap : Nat) where
  table : KeyedTable K V
  size_le : table.size ≤ cap

namespace RecentMap

variable {K V : Type} {cap : Nat}

def empty : RecentMap K V cap := ⟨.empty, Nat.zero_le cap⟩

variable [DecidableEq K]
variable (r : RecentMap K V cap)
variable {k : K}

def find (k : K) : Option V := r.table.find k

/-- The flag says whether the key was new. -/
def assign (k : K) (v : V) : Bool × RecentMap K V cap :=
  if h : r.table.find k = none then
    (true, {
      table := {
        entries := (r.table.add k v h).entries.drop (r.table.size + 1 - cap)
        nodup := (r.table.add k v h).nodup.sublist ((drop_sublist _ _).map Prod.fst) }
      size_le := by
        show (((r.table.entries ++ [(k, v)]).drop _).length) ≤ cap
        rw [length_drop, length_append, length_singleton, KeyedTable.size]
        omega })
  else
    (false, {
      table := r.table.modify k fun _ => v
      size_le := by
        show (r.table.entries.map _).length ≤ cap
        rw [length_map]
        exact r.size_le })

/-- A new key, with room for it. -/
theorem assign_new (v : V) (h : r.table.find k = none) (hroom : r.table.size < cap) :
    (r.assign k v).1 = true ∧ (r.assign k v).2.table = r.table.add k v h := by
  unfold assign
  rw [dif_pos h]
  refine ⟨rfl, ?_⟩
  have hall : (r.table.add k v h).entries.drop (r.table.size + 1 - cap) =
      (r.table.add k v h).entries := by
    rw [Nat.sub_eq_zero_of_le hroom]
    rfl
  simp only [hall]

theorem assign_known (v : V) (h : r.table.find k ≠ none) :
    (r.assign k v).2.table = r.table.modify k fun _ => v := by
  unfold assign
  rw [dif_neg h]

end RecentMap

end FastMM.Foundation
