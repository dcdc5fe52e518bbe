/-
  Fix/Framer.lean --- messages carved out of a stream of bytes.

  Source: `include/fastmm/codecs/fix/fix_framer.hpp`, `src/codecs/fix/fix_framer.cpp` (`FixFramer`).

  The counters of frames and garbage are left out; nothing reads them.
-/
import FastMM.Fix.View
import FastMM.Foundation.StreamScan
set_option autoImplicit false

namespace FastMM.Fix

open Foundation List

/-! ## The framer -/

variable (p : Bytes)

/-- `"8=FIX"`. -/
def kPrefix : Bytes := ascii "8=FIX"

def kPrefixLen : Nat := 5
def kMaxBeginString : Nat := 32

/-- `Probe`; a frame has its length. -/
inductive Probe where
  | frame (total : Nat)
  | needMore
  | bad
  deriving DecidableEq, Repr

/-- The end of `probe`: the trailer of a message of `total` bytes whose body ends at `t`. -/
def probeTrailer (t total : Nat) : Probe :=
  if p.getD (t - 1) 0 ≠ kSoh ∨ slice t 3 p ≠ ascii "10=" ∨ p.getD (total - 1) 0 ≠ kSoh then .bad
  else if (slice (t + 3) 3 p).all isDigitByte then .frame total
  else .bad

/-- `probe` behind the first field, which ends at `soh`. -/
def probeLength (maxMessage soh : Nat) : Probe :=
  let n := p.length
  let i := soh + 1
  if n < i + 2 then .needMore
  else if p.getD i 0 ≠ 57 ∨ p.getD (i + 1) 0 ≠ kEquals then .bad
  else
    let ds := (p.drop (i + 2)).takeWhile isDigitByte
    let j := i + 2 + ds.length
    if kMaxBodyLengthDigits < ds.length then .bad
    else if j = n then .needMore
    else if ds = [] ∨ p.getD j 0 ≠ kSoh ∨ readDigits 0 ds = 0 then .bad
    else
      let bodyStart := j + 1
      let total := bodyStart + readDigits 0 ds + 7
      if maxMessage < total then .bad
      else if n < total then .needMore
      else probeTrailer p (bodyStart + readDigits 0 ds) total

def probe (maxMessage : Nat) : Probe :=
  match memchr p 0 (min p.length kMaxBeginString) kSoh with
  | none => if p.length < kMaxBeginString then .needMore else .bad
  | some soh => probeLength p maxMessage soh

/-- The prefix, or what there is of it, stands here. -/
def startsHere : Bool := (p.take kPrefixLen).isPrefixOf kPrefix

/-- How many bytes stand before the first place where a message may start. -/
def beforeStart : Bytes → Nat
  | [] => 0
  | c :: p => if startsHere (c :: p) then 0 else beforeStart p + 1

def findStart (start : Nat) : Nat := start + beforeStart (p.drop start)

/-- A `FrameView`. -/
structure FrameView where
  payload : Bytes := []
  consumed : Nat := 0
  kind : UInt8 := 0
  deriving DecidableEq, Repr

def kMessage : UInt8 := 0
def kGarbage : UInt8 := 1

structure FixFramer where
  maxMessage : Nat := 2 ^ 16
  deriving DecidableEq, Repr

namespace FixFramer

variable (f : FixFramer)

/-- The loop of `next`: where it ends, and the length of the frame it returns. -/
def resync (p : Bytes) : Nat → Nat → Nat × Option Nat
  | 0, start => (start, none)
  | n + 1, start =>
    if p.length ≤ start then (start, none)
    else if p.length - start < kPrefixLen then (start, none)
    else
      match probe (p.drop start) f.maxMessage with
      | .frame total => (start, some total)
      | .needMore => (start, none)
      | .bad => resync p n (findStart p (start + 1))

def next (p : Bytes) : FrameView :=
  match f.resync p p.length (findStart p 0) with
  | (start, some total) =>
    { payload := slice start total p, consumed := start + total, kind := kMessage }
  | (start, none) => if 0 < start then { consumed := start, kind := kGarbage } else {}

/-- What a message that may start here is judged to be. -/
def judge (p : Bytes) : Verdict :=
  if startsHere p = false then .skip
  else if p.length < kPrefixLen then .wait
  else
    match probe p f.maxMessage with
    | .frame total => .take total
    | .needMore => .wait
    | .bad => .skip

/-- The loop finds the first place that is not passed over. -/
theorem resync_eq_scan (p l pre : Bytes) (n : Nat) (hp : p = pre ++ l) (hn : l.length ≤ n) :
    f.resync p n (pre.length + beforeStart l) =
      (pre.length + (scan f.judge l).1, (scan f.judge l).2) := by
  induction l generalizing pre n with
  | nil =>
    cases n with
    | zero => rfl
    | succ n =>
      rw [resync, if_pos]
      · rfl
      · rw [hp, append_nil]
        exact Nat.le_refl _
  | cons c l ih =>
    have hp' : p = (pre ++ [c]) ++ l := by rw [hp, append_assoc, singleton_append]
    have hlen : (pre ++ [c]).length = pre.length + 1 := length_append
    have hnext : pre.length + 1 + (scan f.judge l).1 = pre.length + ((scan f.judge l).1 + 1) := by
      omega
    obtain ⟨n, rfl⟩ : ∃ k, n = k + 1 := ⟨n - 1, by rw [length_cons] at hn; omega⟩
    rw [length_cons] at hn
    have hdrop : p.drop pre.length = c :: l := by rw [hp, drop_left]
    have hsize : p.length - pre.length = (c :: l).length := by
      rw [hp, length_append, Nat.add_sub_cancel_left]
    have hmore : ¬ p.length ≤ pre.length := by
      rw [hp, length_append, length_cons]
      omega
    rw [beforeStart, scan]
    by_cases hstarts : startsHere (c :: l) = true
    · have hnot : ¬ startsHere (c :: l) = false := by
        rw [hstarts]
        decide
      rw [if_pos hstarts]
      show f.resync p (n + 1) pre.length = _
      rw [resync, if_neg hmore, hsize, hdrop]
      by_cases hshort : (c :: l).length < kPrefixLen
      · have hjudge : f.judge (c :: l) = .wait := by
          unfold judge
          rw [if_neg hnot, if_pos hshort]
        rw [if_pos hshort, hjudge]
        rfl
      have hjudge : f.judge (c :: l) = match probe (c :: l) f.maxMessage with
          | .frame total => .take total
          | .needMore => .wait
          | .bad => .skip := by
        unfold judge
        rw [if_neg hnot, if_neg hshort]
      rw [if_neg hshort, hjudge]
      cases hprobe : probe (c :: l) f.maxMessage with
      | frame total => rfl
      | needMore => rfl
      | bad =>
        have hrest : p.drop (pre.length + 1) = l := by
          rw [hp', drop_left' hlen]
        unfold findStart
        rw [hrest, ← hlen, ih _ _ hp' (by omega), hlen, hnext]
    · have hjudge : f.judge (c :: l) = .skip := by
        unfold judge
        rw [if_pos (Bool.eq_false_of_not_eq_true hstarts)]
      have hih := ih _ (n + 1) hp' (by omega)
      rw [hlen, hnext] at hih
      rw [if_neg hstarts, hjudge]
      rw [← hih, Nat.add_comm (beforeStart l) 1, Nat.add_assoc]

theorem next_eq (p : Bytes) : f.next p =
    match scan f.judge p with
    | (start, some total) =>
      { payload := slice start total p, consumed := start + total, kind := kMessage }
    | (start, none) => if 0 < start then { consumed := start, kind := kGarbage } else {} := by
  have hscan := f.resync_eq_scan p p [] p.length rfl (Nat.le_refl _)
  unfold next findStart
  rw [drop_zero]
  rw [length_nil, Nat.zero_add, Nat.zero_add] at hscan
  rw [Nat.zero_add, hscan]

end FixFramer

end FastMM.Fix
