/-
  Foundation/StreamScan.lean --- frames found in a stream whose start is judged from a prefix.

  What begins at a place is passed over, taken, or not known yet.  A judge that never takes back
  what it knew finds the same frames however the stream arrives.
-/
import Mathlib.Algebra.Order.Group.Nat
import Mathlib.Data.List.Basic
set_option autoImplicit false

namespace FastMM.Foundation

open List

/-- What is known of the bytes from a place on. -/
inductive Verdict where
  | skip
  | wait
  | take (n : Nat)
  deriving DecidableEq, Repr

variable {β : Type}

/-- A judge that keeps to what it said when more arrives. -/
structure Steady (judge : List β → Verdict) : Prop where
  skip : ∀ a b, a ≠ [] → judge a = .skip → judge (a ++ b) = .skip
  take : ∀ a b n, judge a = .take n → judge (a ++ b) = .take n
  bounds : ∀ a n, judge a = .take n → 0 < n ∧ n ≤ a.length

/-- The first place that is not passed over, and how much is taken there. -/
def scan (judge : List β → Verdict) : List β → Nat × Option Nat
  | [] => (0, none)
  | c :: l =>
    match judge (c :: l) with
    | .skip => ((scan judge l).1 + 1, (scan judge l).2)
    | .wait => (0, none)
    | .take n => (0, some n)

/-- The frames of a whole stream from `off` on, each with its place; `left` more are inside one. -/
def walk (judge : List β → Verdict) : Nat → Nat → List β → List (Nat × List β)
  | _, _, [] => []
  | left + 1, off, _ :: l => walk judge left (off + 1) l
  | 0, off, c :: l =>
    match judge (c :: l) with
    | .skip => walk judge 0 (off + 1) l
    | .wait => []
    | .take n => (off, (c :: l).take n) :: walk judge (n - 1) (off + 1) l

section Scan

variable {judge : List β → Verdict} {l q : List β} {off k n : Nat}

/-- What is inside a frame is not looked at. -/
theorem walk_left (judge : List β → Verdict) (left off : Nat) (l : List β) :
    walk judge left off l = walk judge 0 (off + left) (l.drop left) := by
  induction left generalizing off l with
  | zero => rfl
  | succ left ih =>
    cases l with
    | nil => rw [drop_nil, walk, walk]
    | cons c l =>
      rw [walk, ih, drop_succ_cons, Nat.add_assoc, Nat.add_comm 1 left]

theorem scan_le (judge : List β → Verdict) (l : List β) : (scan judge l).1 ≤ l.length := by
  induction l with
  | nil => exact Nat.le_refl 0
  | cons c l ih =>
    rw [scan]
    split
    · exact Nat.succ_le_succ ih
    · exact Nat.zero_le _
    · exact Nat.zero_le _

/-- What is taken is there, and the judge takes it. -/
theorem scan_taken (hj : Steady judge) (h : scan judge l = (k, some n)) :
    judge (l.drop k) = .take n ∧ 0 < n ∧ k + n ≤ l.length := by
  induction l generalizing k with
  | nil => exact absurd (congrArg Prod.snd h) nofun
  | cons c l ih =>
    rw [scan] at h
    split at h
    · obtain ⟨rfl, hn⟩ := Prod.mk.inj h
      obtain ⟨htake, hpos, hle⟩ := ih (Prod.ext rfl hn)
      refine ⟨htake, hpos, ?_⟩
      rw [length_cons, Nat.add_right_comm]
      exact Nat.succ_le_succ hle
    · exact absurd (congrArg Prod.snd h) nofun
    rename_i m hm
    obtain ⟨rfl, hn⟩ := Prod.mk.inj h
    obtain rfl := Option.some.inj hn
    have hbounds := hj.bounds _ _ hm
    exact ⟨hm, hbounds.1, by omega⟩

/-- A frame that is found stays the first one. -/
theorem walk_taken (hj : Steady judge) (h : scan judge l = (k, some n)) (off : Nat) (q : List β) :
    walk judge 0 off (l ++ q) =
      (off + k, (l.drop k).take n) :: walk judge 0 (off + k + n) (l.drop (k + n) ++ q) := by
  induction l generalizing k off with
  | nil => exact absurd (congrArg Prod.snd h) nofun
  | cons c l ih =>
    rw [scan] at h
    split at h
    · rename_i hskip
      obtain ⟨rfl, hn⟩ := Prod.mk.inj h
      have hstill := hj.skip (c :: l) q (cons_ne_nil c l) hskip
      rw [cons_append] at hstill ⊢
      rw [walk, hstill]
      rw [ih (Prod.ext rfl hn), drop_succ_cons,
        show (scan judge l).1 + 1 + n = ((scan judge l).1 + n) + 1 by omega, drop_succ_cons,
        show off + 1 + (scan judge l).1 = off + ((scan judge l).1 + 1) by omega]
    · exact absurd (congrArg Prod.snd h) nofun
    rename_i m hm
    obtain ⟨rfl, hn⟩ := Prod.mk.inj h
    obtain rfl := Option.some.inj hn
    obtain ⟨hpos, hle⟩ := hj.bounds _ _ hm
    have hstill := hj.take (c :: l) q _ hm
    have hfront : (c :: l ++ q).take m = (c :: l).take m := take_append_of_le_length hle
    have hback : (c :: l ++ q).drop m = (c :: l).drop m ++ q := drop_append_of_le_length hle
    rw [cons_append] at hstill hfront hback ⊢
    rw [walk, hstill]
    dsimp only
    obtain ⟨m, rfl⟩ : ∃ i, m = i + 1 := ⟨m - 1, by omega⟩
    rw [drop_succ_cons] at hback
    rw [hfront, Nat.add_sub_cancel, walk_left, hback, Nat.zero_add, drop_zero,
      Nat.add_assoc off 1 m, Nat.add_comm 1 m]
    rfl

/-- What is passed over stays passed over. -/
theorem walk_passed (hj : Steady judge) (h : scan judge l = (k, none)) (off : Nat) (q : List β) :
    walk judge 0 off (l ++ q) = walk judge 0 (off + k) (l.drop k ++ q) := by
  induction l generalizing k off with
  | nil =>
    obtain ⟨rfl, -⟩ := Prod.mk.inj h
    rfl
  | cons c l ih =>
    rw [scan] at h
    split at h
    · rename_i hskip
      obtain ⟨rfl, hn⟩ := Prod.mk.inj h
      have hstill := hj.skip (c :: l) q (cons_ne_nil c l) hskip
      rw [cons_append] at hstill ⊢
      rw [walk, hstill]
      rw [ih (Prod.ext rfl hn), drop_succ_cons, Nat.add_assoc, Nat.add_comm 1]
    · obtain ⟨rfl, -⟩ := Prod.mk.inj h
      rfl
    · exact absurd (congrArg Prod.snd h) nofun

/-- Where nothing is known at the first place, there is no frame. -/
theorem walk_waiting (h : scan judge l = (0, none)) (off : Nat) : walk judge 0 off l = [] := by
  cases l with
  | nil => rfl
  | cons c l =>
    rw [scan] at h
    split at h
    · exact absurd (congrArg Prod.fst h) (Nat.succ_ne_zero _)
    · rename_i hwait
      rw [walk, hwait]
    · exact absurd (congrArg Prod.snd h) nofun

/-- Frames that stand one behind the other are found as they stand. -/
theorem walk_flatten (hj : Steady judge) {frames : List (List β)}
    (hframes : ∀ f ∈ frames, judge f = .take f.length) (off : Nat) :
    (walk judge 0 off frames.flatten).map Prod.snd = frames := by
  induction frames generalizing off with
  | nil => rfl
  | cons f frames ih =>
    have hf := hframes f mem_cons_self
    have hscan : scan judge f = (0, some f.length) := by
      cases f with
      | nil => exact absurd (hj.bounds _ _ hf).1 (Nat.lt_irrefl 0)
      | cons c l => rw [scan, hf]
    rw [flatten_cons, walk_taken hj hscan, Nat.zero_add, drop_zero, take_length,
      drop_length, nil_append, map_cons,
      ih fun f hf => hframes f (mem_cons_of_mem _ hf)]

end Scan

end FastMM.Foundation
