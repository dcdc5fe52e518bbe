/-
  Foundation/KeyedTable.lean --- a table of distinct keys, and sums over it.

  A table lists its entries, one for each key.  A total kept beside such a table is right after a
  change of one entry when it moved by what that entry's term moved by; the lemmas say so for the
  three changes a table knows.
-/
import Mathlib.Algebra.BigOperators.Group.List.Basic
import Mathlib.Algebra.Group.Hom.Defs
import Mathlib.Algebra.Group.Int.Defs
import Mathlib.Data.List.Induction
import Mathlib.Data.List.Nodup
set_option autoImplicit false

namespace FastMM.Foundation

open List

/-- The entries of a table, one for each key. -/
structure KeyedTable (K V : Type) where
  entries : List (K × V)
  nodup : (entries.map Prod.fst).Nodup

namespace KeyedTable

variable {K V : Type}
variable (t : KeyedTable K V)
variable (k : K)
variable {v : V}

def empty : KeyedTable K V := ⟨[], nodup_nil⟩

def keys : List K := t.entries.map Prod.fst

def size : Nat := t.entries.length

variable [DecidableEq K]

def find : Option V :=
  (t.entries.find? fun e => e.1 = k).map Prod.snd

/-- The entry of a key is dropped. -/
def erase : KeyedTable K V where
  entries := t.entries.filter fun e => e.1 ≠ k
  nodup := t.nodup.sublist ((filter_sublist).map Prod.fst)

/-- The entry of a key changes. -/
def modify (f : V → V) : KeyedTable K V where
  entries := t.entries.map fun e => if e.1 = k then (e.1, f e.2) else e
  nodup := by
    have hkeys : (t.entries.map fun e => if e.1 = k then (e.1, f e.2) else e).map Prod.fst =
        t.entries.map Prod.fst := by
      rw [map_map]
      refine map_congr_left fun e _ => ?_
      show (if e.1 = k then (e.1, f e.2) else e).1 = e.1
      split <;> rfl
    rw [hkeys]
    exact t.nodup

theorem find_eq_some_iff {t : KeyedTable K V} {k : K} : t.find k = some v ↔ (k, v) ∈ t.entries := by
  unfold find
  constructor
  · intro h
    obtain ⟨e, he, rfl⟩ := Option.map_eq_some_iff.mp h
    have hkey := find?_some he
    rw [← of_decide_eq_true hkey]
    exact mem_of_find?_eq_some he
  intro h
  cases hfind : t.entries.find? fun e => e.1 = k with
  | none =>
    rw [find?_eq_none] at hfind
    exact absurd (decide_eq_true rfl) (hfind _ h)
  | some e =>
    have htest := find?_some hfind
    have hkey : e.1 = k := of_decide_eq_true htest
    have hmem := mem_of_find?_eq_some hfind
    rw [inj_on_of_nodup_map t.nodup hmem h hkey]
    rfl

theorem find_eq_none_iff {t : KeyedTable K V} {k : K} : t.find k = none ↔ k ∉ t.keys := by
  unfold find keys
  rw [Option.map_eq_none_iff, find?_eq_none, mem_map]
  constructor
  · rintro h ⟨e, he, rfl⟩
    exact h e he (decide_eq_true rfl)
  · intro h e he hkey
    exact h ⟨e, he, of_decide_eq_true hkey⟩

/-- A new entry; the key must be absent. -/
def add (v : V) (h : t.find k = none) : KeyedTable K V where
  entries := t.entries ++ [(k, v)]
  nodup := by
    rw [map_append, nodup_append]
    refine ⟨t.nodup, nodup_singleton _, ?_⟩
    intro a ha b hb heq
    rw [map_singleton, mem_singleton] at hb
    rw [heq, hb] at ha
    exact find_eq_none_iff.mp h ha

/-- A new entry; nothing changes where the key is present, or the table full. -/
def insert (cap : Nat) (k : K) (v : V) : KeyedTable K V :=
  if h : t.find k = none then if t.size < cap then t.add k v h else t else t

@[simp] theorem find_empty : (empty : KeyedTable K V).find k = none := rfl

theorem find_add {t : KeyedTable K V} {k : K} (h : t.find k = none) (k' : K) :
    (t.add k v h).find k' = if k' = k then some v else t.find k' := by
  split_ifs with hk
  · rw [find_eq_some_iff, hk]
    exact mem_append_right _ (mem_singleton_self _)
  show Option.map _ ((t.entries ++ [(k, v)]).find? _) = _
  have hlast : ([(k, v)] : List (K × V)).find? (fun e => e.1 = k') = none := by
    rw [find?_eq_none]
    intro e he hkey
    rw [mem_singleton.mp he] at hkey
    exact hk (of_decide_eq_true hkey).symm
  rw [find?_append, hlast, Option.or_none]
  rfl

theorem find_erase (k k' : K) : (t.erase k).find k' = if k' = k then none else t.find k' := by
  split_ifs with hk
  · rw [find_eq_none_iff, hk]
    intro hmem
    obtain ⟨e, he, hkey⟩ := mem_map.mp hmem
    exact of_decide_eq_true (mem_filter.mp he).2 hkey
  · refine Option.ext fun v => ?_
    rw [find_eq_some_iff, find_eq_some_iff]
    show _ ∈ t.entries.filter _ ↔ _
    rw [mem_filter]
    exact and_iff_left (decide_eq_true hk)

theorem find_modify (f : V → V) (k' : K) :
    (t.modify k f).find k' = if k' = k then (t.find k).map f else t.find k' := by
  unfold find modify
  have hfind : (t.entries.map fun e => if e.1 = k then (e.1, f e.2) else e).find?
      (fun e => e.1 = k') = (t.entries.find? fun e => e.1 = k').map
        fun e => if e.1 = k then (e.1, f e.2) else e := by
    rw [find?_map]
    congr 2
    funext e
    show decide ((if e.1 = k then (e.1, f e.2) else e).1 = k') = _
    split <;> rfl
  rw [hfind]
  cases hval : t.entries.find? fun e => e.1 = k' with
  | none =>
    split_ifs with hk
    · rw [← hk, hval]
      rfl
    · rfl
  | some e =>
    have htest := find?_some hval
    have hkey : e.1 = k' := of_decide_eq_true htest
    split_ifs with hk
    · rw [← hk, hval]
      show some (if e.1 = k' then (e.1, f e.2) else e).2 = _
      rw [if_pos hkey]
      rfl
    · show some (if e.1 = k then (e.1, f e.2) else e).2 = _
      rw [if_neg (by rw [hkey]; exact hk)]
      rfl

/-! ## Sums -/

variable {M : Type} [AddCommGroup M]

/-- The sum of a term of each entry. -/
def total (f : K → V → M) : M := (t.entries.map fun e => f e.1 e.2).sum

omit [DecidableEq K] in
@[simp] theorem total_empty (f : K → V → M) : (empty : KeyedTable K V).total f = 0 := rfl

theorem total_add {t : KeyedTable K V} {k : K} (v : V) (h : t.find k = none) (f : K → V → M) :
    (t.add k v h).total f = t.total f + f k v := by
  show ((t.entries ++ [(k, v)]).map _).sum = _
  rw [map_append, sum_append]
  simp [total]

section

variable {t : KeyedTable K V} {k : K} (h : t.find k = some v) (f : K → V → M)
include h f

/-- The one term a change touches. -/
theorem total_eq_of_find : t.total f = (t.erase k).total f + f k v := by
  have hmem := find_eq_some_iff.mp h
  obtain ⟨before, after, hsplit⟩ := append_of_mem hmem
  have hnodup := t.nodup
  rw [hsplit, map_append, map_cons, nodup_append] at hnodup
  obtain ⟨-, hafter, hapart⟩ := hnodup
  have hrest : t.entries.filter (fun e => e.1 ≠ k) = before ++ after := by
    rw [hsplit, filter_append, filter_cons_of_neg (by simp)]
    congr 1
    · rw [filter_eq_self]
      intro e he
      refine decide_eq_true fun heq => ?_
      exact hapart e.1 (mem_map_of_mem he) k mem_cons_self heq
    · rw [filter_eq_self]
      intro e he
      refine decide_eq_true fun heq => ?_
      rw [nodup_cons] at hafter
      have hin : e.1 ∈ after.map Prod.fst := mem_map_of_mem he
      rw [heq] at hin
      exact hafter.1 hin
  unfold total erase
  dsimp only
  rw [hrest, hsplit, map_append, map_append, sum_append, sum_append, map_cons, sum_cons]
  rw [add_comm (f k v) _, add_assoc]

theorem total_erase : (t.erase k).total f = t.total f - f k v := by
  rw [total_eq_of_find h f, add_sub_cancel_right]

end

theorem erase_modify (g : V → V) : (t.modify k g).erase k = t.erase k := by
  unfold modify erase
  congr 1
  rw [filter_map, map_congr_left (g := id)]
  · rw [map_id]
    refine filter_congr fun e _ => ?_
    show decide ((if e.1 = k then (e.1, g e.2) else e).1 ≠ k) = _
    split <;> rfl
  intro e he
  have hne := of_decide_eq_true (mem_filter.mp he).2
  dsimp only at hne
  rw [if_neg]
  · rfl
  · intro heq
    rw [if_pos heq] at hne
    exact hne heq

theorem total_modify {t : KeyedTable K V} {k : K} (h : t.find k = some v) (g : V → V)
    (f : K → V → M) : (t.modify k g).total f = t.total f - f k v + f k (g v) := by
  have hnew : (t.modify k g).find k = some (g v) := by
    rw [find_modify, if_pos rfl, h]
    rfl
  rw [total_eq_of_find hnew f, erase_modify, total_erase h]

omit [DecidableEq K] in
/-- A total, read through a homomorphism. -/
theorem map_total {N : Type} [AddCommGroup N] (φ : M →+ N) (t : KeyedTable K V) (f : K → V → M) :
    φ (t.total f) = t.total fun k v => φ (f k v) := by
  unfold total
  rw [map_list_sum, map_map]
  rfl

/-- A change that a term does not see. -/
theorem total_modify_of_eq (g : V → V)
    {f : K → V → M} (h : ∀ v, f k (g v) = f k v) : (t.modify k g).total f = t.total f := by
  unfold total modify
  rw [map_map]
  congr 1
  refine map_congr_left fun e _ => ?_
  show f (if e.1 = k then (e.1, g e.2) else e).1 (if e.1 = k then (e.1, g e.2) else e).2 = _
  split_ifs with hk
  · rw [hk]
    exact h e.2
  · rfl

end KeyedTable

end FastMM.Foundation
