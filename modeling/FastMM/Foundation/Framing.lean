/-
  Foundation/Framing.lean --- frames over a stream of bytes that may be cut anywhere.

  A frame is written whole or, when the stream breaks, in part; a reader takes the first frame
  off its buffer once all of it is there.  `Carries` says which frames are on their way: all of
  what was written, and, once the stream is broken, what is left of it.
-/
import Mathlib.Data.List.Infix
set_option autoImplicit false

namespace FastMM.Foundation

open List

variable {α β : Type} {enc : α → List β} {next : List β → Option (α × List β)} {ok : α → Prop}

/-- A reader of the frames that are `ok`: it needs a whole one and no more. -/
structure Framing (enc : α → List β) (next : List β → Option (α × List β)) (ok : α → Prop) :
    Prop where
  whole : ∀ a rest, ok a → next (enc a ++ rest) = some (a, rest)
  short : ∀ a l, ok a → l <+: enc a → l ≠ enc a → next l = none
  empty : next [] = none

/-- Bytes read into a buffer and bytes in flight are what is left of some frames, and all of
them while the stream is not broken. -/
structure Carries (enc : α → List β) (ok : α → Prop) (frames : List α) (buffer flight : List β)
    (broken : Bool) : Prop where
  ok : ∀ a ∈ frames, ok a
  cut : buffer ++ flight <+: frames.flatMap enc
  all : broken = false → buffer ++ flight = frames.flatMap enc

namespace Carries

variable {frames : List α} {buffer flight : List β} {broken : Bool} {a : α}

theorem empty (broken : Bool) : Carries enc ok [] [] [] broken :=
  ⟨fun _ ha => absurd ha not_mem_nil, prefix_rfl, fun _ => rfl⟩

/-- The reader takes the first frame, or waits for more bytes. -/
theorem next_eq (h : Carries enc ok frames buffer flight broken) (hf : Framing enc next ok) :
    next buffer = none ∨ ∃ a l rest, frames = a :: l ∧ next buffer = some (a, rest) ∧
      Carries enc ok l rest flight broken := by
  cases frames with
  | nil =>
    have hnil : buffer = [] := by
      have hp := h.cut
      rw [flatMap_nil, prefix_nil, append_eq_nil_iff] at hp
      exact hp.1
    rw [hnil]
    exact .inl hf.empty
  | cons a l =>
    have hok : ok a := h.ok a mem_cons_self
    have hcut := h.cut
    have hall := h.all
    rw [flatMap_cons] at hcut hall
    have hbuf : buffer <+: enc a ++ l.flatMap enc := (prefix_append _ _).trans hcut
    by_cases hle : enc a <+: buffer
    · obtain ⟨rest, rfl⟩ := hle
      rw [append_assoc] at hcut hall
      refine .inr ⟨a, l, rest, rfl, hf.whole a rest hok, ?_, ?_, fun hb => ?_⟩
      · exact fun x hx => h.ok x (mem_cons_of_mem a hx)
      · exact (prefix_append_right_inj _).mp hcut
      · exact append_cancel_left (hall hb)
    · have hshort : buffer <+: enc a :=
        ( prefix_or_prefix_of_prefix hbuf (prefix_append _ _)).resolve_right hle
      exact .inl (hf.short a buffer hok hshort fun he => hle (he ▸ prefix_rfl))

/-- Bytes arrive. -/
theorem arrive (h : Carries enc ok frames buffer flight broken) (n : Nat) :
    Carries enc ok frames (buffer ++ flight.take n) (flight.drop n) broken := by
  refine ⟨h.ok, ?_, fun hb => ?_⟩
  · rw [append_assoc, take_append_drop]
    exact h.cut
  · rw [append_assoc, take_append_drop]
    exact h.all hb

/-- A frame is written, or the first part of it before the stream breaks. -/
theorem write (h : Carries enc ok frames buffer flight false) (hok : ok a) {written : List β}
    {broken' : Bool} (hcut : written <+: enc a) (hall : broken' = false → written = enc a) :
    Carries enc ok (frames ++ [a]) buffer (flight ++ written) broken' := by
  have hflat : (frames ++ [a]).flatMap enc = frames.flatMap enc ++ enc a := by simp
  refine ⟨?_, ?_, fun hb => ?_⟩
  · exact forall_mem_append.mpr ⟨h.ok, forall_mem_singleton.mpr hok⟩
  · rw [hflat, ← append_assoc, h.all rfl]
    exact (prefix_append_right_inj _).mpr hcut
  · rw [hflat, ← append_assoc, h.all rfl, hall hb]

end Carries

end FastMM.Foundation
