/-
  Foundation/Sight.lean --- what is seen of a list that is being written over a filler.
-/
import FastMM.Foundation.LittleEndian
set_option autoImplicit false

namespace FastMM.Foundation

open List

section Sight

variable {α : Type} {z : α} {l : List α} {v w n k off len : Nat}

/-- The first `v` entries, and the filler after them. -/
def seen (z : α) (l : List α) (v n : Nat) : List α := l.take v ++ List.replicate n z

/-- All that is written is seen. -/
theorem seen_of_length_le (h : l.length ≤ v) : seen z l v n = l ++ List.replicate n z := by
  unfold seen
  rw [take_of_length_le h]

/-- What is seen of a part of it. -/
theorem slice_seen (z : α) (l : List α) (v n off len : Nat) :
    ∃ k, slice off len (seen z l v n) = seen z (slice off len l) (v - off) k := by
  unfold slice seen
  rw [drop_append, drop_replicate, take_append, take_replicate, drop_take,
    take_take, take_take, Nat.min_comm]
  exact ⟨_, rfl⟩

/-- Seen with the filler where the list has it too. -/
theorem seen_eq_of_drop (hdrop : l.drop v = List.replicate (l.length - v) z)
    (hlen : (seen z l v n).length = l.length) : seen z l v n = l := by
  unfold seen at hlen ⊢
  rw [length_append, length_take, length_replicate] at hlen
  have hn : n = l.length - v := by omega
  have hsplit := take_append_drop v l
  rw [hdrop] at hsplit
  rw [hn]
  exact hsplit

/-- Past what is seen there is the filler. -/
theorem drop_seen (h : v ≤ off) (hlen : (seen z l v n).length = k) :
    (seen z l v n).drop off = List.replicate (k - off) z := by
  unfold seen at hlen ⊢
  rw [length_append, length_take, length_replicate] at hlen
  have hle : (l.take v).length ≤ off := by
    rw [length_take]
    omega
  rw [drop_append, drop_eq_nil_of_le hle, nil_append, drop_replicate, length_take]
  congr 1
  omega

/-- What is seen as it is written is seen so later too. -/
theorem seen_eq_of_le (hvw : v ≤ w) (h : seen z l v n = l)
    (hlen : (seen z l w k).length = l.length) : seen z l w k = l := by
  refine seen_eq_of_drop ?_ hlen
  have hdrop : l.drop w = (seen z l v n).drop w := by rw [h]
  rw [hdrop]
  exact drop_seen hvw (by rw [h])

end Sight

end FastMM.Foundation
