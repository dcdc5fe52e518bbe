/-
  Foundation/MessageArena.lean --- a byte arena of messages with a table of offsets.

  Messages of varying length are copied one behind the other into a byte array; a
  table holds where each starts, in 32 bits.  Dropping the oldest moves the rest to
  the front.  The arena's bytes are seen through the messages that lie in them
  whole: a write destroys every message it overlaps.

  `Holds a l` says that the arena holds the messages `l`, oldest first; each
  operation is then the one on lists.
-/
import Mathlib.Algebra.GroupWithZero.Nat
import Mathlib.Logic.Function.Basic
import Mathlib.Algebra.BigOperators.Group.List.Basic
set_option autoImplicit false

namespace FastMM.Foundation

open Function List

/-- A byte arena: the message that starts at each offset, the table of offsets, the
bytes and the entries in use. -/
structure MessageArena (α : Type) where
  bytes : Nat → Option α := fun _ => none
  offsets : Nat → Nat := fun _ => 0
  used : Nat := 0
  count : Nat := 0

namespace MessageArena

variable {α : Type} (len : α → Nat)
variable (a : MessageArena α)
variable (l : List α)

/-- Copying `m` to offset `off`: what it overlaps is gone. -/
def write (bytes : Nat → Option α) (off : Nat) (m : α) : Nat → Option α :=
  update
    (fun o => (bytes o).filter (fun x => decide (o + len x ≤ off ∨ off + len m ≤ o))) off (some m)

/-- Moving `n` bytes from `base` to the front; behind them the old bytes stand. -/
def moveDown (bytes : Nat → Option α) (base n : Nat) : Nat → Option α := fun o =>
  if o < n then (bytes (o + base)).filter (fun x => decide (o + len x ≤ n)) else bytes o

/-- Appends a message, unless the table or the bytes are full. -/
def push (maxCount maxBytes : Nat) (m : α) : Option (MessageArena α) :=
  if maxCount ≤ a.count ∨ maxBytes < a.used + len m then none
  else some
    { bytes := write len a.bytes a.used m
      offsets := update a.offsets a.count (a.used % 2 ^ 32)
      used := a.used + len m
      count := a.count + 1 }

/-- Empties the arena. -/
def reset : MessageArena α := { a with used := 0, count := 0 }

/-- Drops the `n` oldest messages. -/
def dropFront (n : Nat) : MessageArena α :=
  if n = 0 then a
  else if a.count ≤ n then a.reset
  else
    let base := a.offsets n
    { bytes := moveDown len a.bytes base (a.used - base)
      offsets := fun i => if i < a.count - n then a.offsets (i + n) - base else a.offsets i
      used := a.used - base
      count := a.count - n }

/-- The message an entry of the table names. -/
def get [Inhabited α] (i : Nat) : α := (a.bytes (a.offsets i)).getD default

/-! ## The messages held -/

/-- Where the `i`-th of the messages starts. -/
def startOf (i : Nat) : Nat := ((l.take i).map len).sum

theorem startOf_length : startOf len l l.length = (l.map len).sum := by
  unfold startOf
  rw [take_length]

theorem startOf_succ {l : List α} {i : Nat} {m : α} (h : l[i]? = some m) :
    startOf len l (i + 1) = startOf len l i + len m := by
  unfold startOf
  rw [take_add_one, h, map_append, sum_append]
  simp

theorem startOf_mono {i j : Nat} (h : i ≤ j) : startOf len l i ≤ startOf len l j := by
  unfold startOf
  have htake : l.take i = (l.take j).take i := by
    rw [take_take, Nat.min_eq_left h]
  have hsplit : ((l.take j).map len).sum =
      (((l.take j).take i).map len).sum + (((l.take j).drop i).map len).sum := by
    rw [← sum_append, ← map_append, take_append_drop]
  rw [htake]
  omega

theorem startOf_append {l : List α} (m : α) {i : Nat} (h : i ≤ l.length) :
    startOf len (l ++ [m]) i = startOf len l i := by
  unfold startOf
  rw [take_append_of_le_length h]

theorem startOf_drop (n i : Nat) :
    startOf len (l.drop n) i + startOf len l n = startOf len l (i + n) := by
  unfold startOf
  rw [← sum_append, ← map_append, Nat.add_comm i n, take_add]
  rw [map_append, map_append, sum_append, sum_append, Nat.add_comm]

/-- The arena holds exactly the messages `l`, oldest first. -/
structure Holds (a : MessageArena α) (l : List α) : Prop where
  count : a.count = l.length
  used : a.used = (l.map len).sum
  entry : ∀ i m, l[i]? = some m →
    a.offsets i = startOf len l i ∧ a.bytes (startOf len l i) = some m

section Holds

variable {len} {a : MessageArena α} {l : List α}

theorem Holds.get [Inhabited α] (h : Holds len a l) {i : Nat} {m : α} (hi : l[i]? = some m) :
    a.get i = m := by
  unfold MessageArena.get
  obtain ⟨hoff, hbytes⟩ := h.entry i m hi
  rw [hoff, hbytes]
  rfl

theorem Holds.reset (a : MessageArena α) : Holds len a.reset [] where
  count := rfl
  used := rfl
  entry i m hi := absurd hi (by simp)

/-- An entry ends where the arena's bytes in use do, or before. -/
theorem Holds.end_le (h : Holds len a l) {i : Nat} {m : α} (hi : l[i]? = some m) :
    startOf len l i + len m ≤ a.used := by
  rw [h.used, ← startOf_length, ← startOf_succ len hi]
  apply startOf_mono
  exact (List.getElem?_eq_some_iff.mp hi).1

theorem Holds.push (h : Holds len a l) (hlen : ∀ m, 0 < len m) {maxCount maxBytes : Nat}
    (hmax : maxBytes ≤ 2 ^ 32) {m : α} {a' : MessageArena α}
    (hpush : a.push len maxCount maxBytes m = some a') : Holds len a' (l ++ [m]) := by
  unfold MessageArena.push at hpush
  split at hpush
  case isTrue => nomatch hpush
  case isFalse hfull =>
    cases hpush
    have hlt : a.used < 2 ^ 32 := by
      have := hlen m
      omega
    refine ⟨?_, ?_, ?_⟩
    · simp [h.count]
    · simp [h.used]
    intro i x hi
    dsimp only
    by_cases hil : i < l.length
    · -- An older message: it ends where the new one starts, or before.
      rw [getElem?_append_left hil] at hi
      obtain ⟨hoff, hbytes⟩ := h.entry i x hi
      have hend := h.end_le hi
      have hx := hlen x
      rw [startOf_append len m (Nat.le_of_lt hil)]
      constructor
      · rw [update_of_ne (by rw [h.count]; omega), hoff]
      unfold write
      rw [update_of_ne (by omega), hbytes]
      simp only [Option.filter_some, decide_eq_true_eq]
      rw [if_pos (Or.inl hend)]
    · have hieq : i = l.length := by
        have := (List.getElem?_eq_some_iff.mp hi).1
        rw [length_append, length_singleton] at this
        omega
      subst hieq
      rw [getElem?_append_right (Nat.le_refl _), Nat.sub_self] at hi
      cases hi
      rw [startOf_append len m (Nat.le_refl _), startOf_length, ← h.used]
      constructor
      · rw [← h.count, update_self, Nat.mod_eq_of_lt hlt]
      · unfold write
        rw [update_self]

theorem Holds.dropFront (h : Holds len a l) (hlen : ∀ m, 0 < len m) (n : Nat) :
    Holds len (a.dropFront len n) (l.drop n) := by
  unfold MessageArena.dropFront
  split
  case isTrue hn =>
    rw [hn, drop_zero]
    exact h
  case isFalse hn =>
    split
    case isTrue hall =>
      rw [h.count] at hall
      rw [drop_of_length_le hall]
      exact Holds.reset a
    case isFalse hsome =>
      have hlt : n < l.length := by
        rw [h.count] at hsome
        omega
      obtain ⟨hbase, -⟩ := h.entry n _ (getElem?_eq_getElem hlt)
      refine ⟨?_, ?_, ?_⟩
      · simp [h.count]
      · dsimp only
        rw [hbase, h.used, ← startOf_length, ← startOf_length, length_drop]
        have := startOf_drop len l n (l.length - n)
        rw [Nat.sub_add_cancel (Nat.le_of_lt hlt)] at this
        omega
      intro i x hi
      rw [getElem?_drop, Nat.add_comm] at hi
      dsimp only
      obtain ⟨hoff, hbytes⟩ := h.entry (i + n) x hi
      have hend := h.end_le hi
      have hstart := startOf_drop len l n i
      have hin : i < a.count - n := by
        have := (List.getElem?_eq_some_iff.mp hi).1
        rw [h.count]
        omega
      constructor
      · rw [if_pos hin, hoff, hbase]
        omega
      unfold moveDown
      have hx := hlen x
      rw [hbase, if_pos (by omega), hstart, hbytes]
      simp only [Option.filter_some, decide_eq_true_eq]
      rw [if_pos (by omega)]

end Holds

end MessageArena

end FastMM.Foundation
