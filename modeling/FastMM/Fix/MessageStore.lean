/-
  Fix/MessageStore.lean --- what a session keeps of its application messages, for resends.

  Source: `include/fastmm/codecs/fix/message_store.hpp`, `src/codecs/fix/message_store.cpp`.

  A body stands with its entry; the arena is the number of bytes they take.
-/
import FastMM.Fix.Values
import FastMM.Foundation.SortedTables
set_option autoImplicit false

namespace FastMM.Fix

open Foundation List

structure Stored where
  seq : UInt64
  sendingNs : Int
  msgType : Bytes
  body : Bytes
  deriving DecidableEq, Repr

/-- Entries stand by their sequence numbers. -/
structure MessageStore where
  maxMessages : Nat
  maxBytes : Nat
  entries : List Stored := []
  used : Nat := 0
  dropped : Nat := 0
  sorted : Ascending (fun e : Stored => e.seq.toNat) entries := by exact .nil

/-- The bytes an entry has for its type. -/
def kMaxStoredType : Nat := 3

theorem ascending_snoc {entries : List Stored} {e : Stored}
    (h : Ascending (fun e : Stored => e.seq.toNat) entries)
    (hlast : ∀ last ∈ entries.getLast?, last.seq < e.seq) :
    Ascending (fun e : Stored => e.seq.toNat) (entries ++ [e]) := by
  refine pairwise_append.mpr ⟨h, pairwise_singleton _ _, fun a ha b hb => ?_⟩
  rw [mem_singleton.mp hb]
  have hne := ne_nil_of_mem ha
  have hlt : (entries.getLast hne).seq.toNat < e.seq.toNat :=
    UInt64.lt_iff_toNat_lt.mp (hlast _ (getLast_mem_getLast? hne))
  have hcut := (dropLast_concat_getLast hne).symm
  rw [hcut] at h ha
  rcases mem_append.mp ha with hin | hin
  · exact ((pairwise_append.mp h).2.2 a hin _ (mem_singleton_self _)).trans hlt
  · rw [mem_singleton.mp hin]
    exact hlt

namespace MessageStore

variable (s : MessageStore)
variable (seq : UInt64)

def reset : MessageStore :=
  { s with entries := [], used := 0, sorted := s.sorted.sublist (nil_sublist _) }

def append (msgType : Bytes) (sendingNs : Int) (body : Bytes) : Bool × MessageStore :=
  if h : s.maxMessages ≤ s.entries.length ∨ s.maxBytes < s.used + body.length ∨ msgType = [] ∨
      kMaxStoredType < msgType.length ∨ ∃ last ∈ s.entries.getLast?, seq ≤ last.seq then
    (false, { s with dropped := s.dropped + 1 })
  else
    (true, { s with
      entries := s.entries ++ [⟨seq, sendingNs, msgType, body⟩]
      used := s.used + body.length
      sorted := ascending_snoc s.sorted fun last hlast =>
        UInt64.not_le.mp fun hle => h (.inr (.inr (.inr (.inr ⟨last, hlast, hle⟩)))) })

/-- `lower_bound`: the index of the first entry from `seq` on. -/
def lowerBound : Nat :=
  bisect (fun i => decide (∃ e ∈ s.entries[i]?, e.seq < seq)) 0 s.entries.length

theorem lowerBound_place :
    Place (fun e : Stored => e.seq.toNat) s.entries seq.toNat (s.lowerBound seq) := by
  have hparts := bisect_parts (p := fun i => decide (∃ e ∈ s.entries[i]?, e.seq < seq))
    (Nat.zero_le s.entries.length) (by
      intro i j hij hj hp
      obtain ⟨e, he, hlt⟩ := of_decide_eq_true hp
      have hi : i < s.entries.length := Nat.lt_of_le_of_lt hij hj
      refine decide_eq_true ⟨s.entries[i], getElem?_eq_getElem hi, ?_⟩
      rcases Nat.lt_or_eq_of_le hij with hlt' | rfl
      · exact UInt64.lt_iff_toNat_lt.mpr ((s.sorted.lt_of_lt (getElem?_eq_getElem hi)
          he hlt').trans (UInt64.lt_iff_toNat_lt.mp hlt))
      · rw [Option.mem_def, getElem?_eq_getElem hi] at he
        rw [Option.some.inj he]
        exact hlt)
  refine Place.of_index hparts.le_right (fun j e hj hlt => ?_) (fun j e hj hle => ?_)
  · obtain ⟨e', he', hbelow⟩ := of_decide_eq_true (hparts.holds j (Nat.zero_le j) hlt)
    rw [Option.mem_def, hj] at he'
    rw [Option.some.inj he']
    exact UInt64.lt_iff_toNat_lt.mp hbelow
  · have hfail := of_decide_eq_false (hparts.fails j hle (List.getElem?_eq_some_iff.mp hj).1)
    refine Nat.le_of_not_lt fun hlt => hfail ⟨e, hj, UInt64.lt_iff_toNat_lt.mpr hlt⟩

end MessageStore

end FastMM.Fix
