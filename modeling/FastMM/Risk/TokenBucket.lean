/-
  Risk/TokenBucket.lean --- how often the token bucket grants, and to whom.

  Source: `TokenBucket` of `include/fastmm/core/risk.hpp`.

  A thousandth of a micro-token is what a rate of one gives in a nanosecond, so the arithmetic is
  in thousandths: elapsed time times rate, of which a refill keeps the whole thousands, cast to 64
  bits.  What it cuts off is lost, because the reference time moves on all the same.
-/
import FastMM.Risk.Checks
import Mathlib.Tactic.Linarith
import Mathlib.Tactic.Ring
set_option autoImplicit false

namespace FastMM.TokenBucket

/-! ## The rest of the bucket -/

variable {ratePerSec : Nat}
variable {elapsed : Int}

def configure (ratePerSec burst : Nat) (now : Timestamp) : TokenBucket where
  rate := ratePerSec
  capacity := (if burst = 0 then ratePerSec else burst) * kScale
  tokens := (if burst = 0 then ratePerSec else burst) * kScale
  last := now

/-- What a refill adds for so many nanoseconds. -/
def gain (b : TokenBucket) (elapsed : Int) : Int :=
  castInt64 ((elapsed * b.rate * kScale).tdiv 1000000000)

def available (b : TokenBucket) (now : Timestamp) : Int :=
  if b.rate = 0 then 9223372036854775807
  else
    let t :=
      if b.last < now then
        if b.capacity < b.tokens + b.gain (now - b.last) then b.capacity
        else b.tokens + b.gain (now - b.last)
      else b.tokens
    t.tdiv kScale

def waitNs (b : TokenBucket) (now : Timestamp) : Int :=
  if b.rate = 0 then 0
  else
    let t := if b.last < now then b.tokens + b.gain (now - b.last) else b.tokens
    if kScale ≤ t then 0
    else
      let need := (kScale - t) * 1000000000
      let per := b.rate * kScale
      castInt64 ((need + per - 1).tdiv per)

/-- Calls of `try_take`, one after another. -/
def takeAll (b : TokenBucket) (calls : List Timestamp) : TokenBucket :=
  calls.foldl (fun b now => (b.tryTake now).1) b

/-- The calls that are granted. -/
def grants (b : TokenBucket) : List Timestamp → Nat
  | [] => 0
  | now :: calls => (if (b.tryTake now).2 = true then 1 else 0) + grants (b.tryTake now).1 calls

/-! ## States -/

/-- A bucket as `configure` and calls leave it. -/
structure Sound (b : TokenBucket) : Prop where
  rate : 0 < b.rate
  room : kScale ≤ b.capacity
  capped : b.tokens ≤ b.capacity

variable {b : TokenBucket} {now : Timestamp} {calls : List Timestamp}

theorem sound_configure (hrate : 0 < ratePerSec) (burst : Nat) (now : Timestamp) :
    (configure ratePerSec burst now).Sound := by
  have hone : 1 ≤ (if burst = 0 then ratePerSec else burst) := by split <;> omega
  have hscale : (0 : Int) < kScale := by decide
  have hroom : kScale ≤ ((if burst = 0 then ratePerSec else burst : Nat) : Int) * kScale :=
    le_mul_of_one_le_left hscale.le (by exact_mod_cast hone)
  have hcapacity : (configure ratePerSec burst now).capacity =
      ((if burst = 0 then ratePerSec else burst : Nat) : Int) * kScale := by
    unfold configure
    split <;> rfl
  rw [← hcapacity] at hroom
  exact ⟨Int.natCast_pos.mpr hrate, hroom, le_rfl⟩

section

variable (hrate : 0 ≤ b.rate) (h : 0 ≤ elapsed)
include hrate h

theorem gain_eq : b.gain elapsed = castInt64 (b.rate * elapsed / 1000) := by
  have hnonneg : 0 ≤ elapsed * b.rate * kScale :=
    mul_nonneg (mul_nonneg h hrate) (by decide)
  unfold gain
  rw [Int.tdiv_eq_ediv_of_nonneg hnonneg]
  show castInt64 (elapsed * b.rate * 1000000 / (1000 * 1000000)) = _
  rw [Int.mul_ediv_mul_of_pos_left _ _ (by decide), mul_comm]

theorem worth_nonneg : 0 ≤ b.rate * elapsed / 1000 :=
  Int.ediv_nonneg (mul_nonneg hrate h) (by decide)

theorem gain_of_fits (hfits : b.rate * elapsed / 1000 < 2 ^ 63) :
    b.gain elapsed = b.rate * elapsed / 1000 := by
  rw [gain_eq hrate h]
  exact castInt64_eq ((by decide : (-2 ^ 63 : Int) ≤ 0).trans (worth_nonneg hrate h)) hfits

/-- A refill adds at most what the time is worth. -/
theorem gain_le : 1000 * b.gain elapsed ≤ b.rate * elapsed := by
  have hcast := castInt64_le ((by decide : (-2 ^ 63 : Int) ≤ 0).trans (worth_nonneg hrate h))
  rw [gain_eq hrate h]
  omega

end

theorem refill_late (h : b.last < now) : b.refill now =
      { b with
        tokens := min b.capacity (b.tokens + b.gain (now - b.last))
        last := now } := by
  have hnot : ¬ now ≤ b.last := not_le.mpr h
  unfold refill
  rw [if_neg hnot]
  dsimp only
  congr 1
  rcases lt_or_ge b.capacity (b.tokens + b.gain (now - b.last)) with hover | hfits
  · exact (if_pos hover).trans (min_eq_left hover.le).symm
  · exact (if_neg (not_lt.mpr hfits)).trans (min_eq_right hfits).symm

theorem refill_early (h : now ≤ b.last) : b.refill now = b := if_pos h

theorem Sound.refill (h : b.Sound) (now : Timestamp) : (b.refill now).Sound := by
  rcases lt_or_ge b.last now with hlate | hearly
  · rw [refill_late hlate]
    exact ⟨h.rate, h.room, min_le_left _ _⟩
  · rw [refill_early hearly]
    exact h

@[simp] theorem refill_rate (b : TokenBucket) (now : Timestamp) : (b.refill now).rate = b.rate := by
  unfold TokenBucket.refill
  split <;> rfl

@[simp] theorem refill_capacity (b : TokenBucket) (now : Timestamp) :
    (b.refill now).capacity = b.capacity := by
  unfold TokenBucket.refill
  split <;> rfl

@[simp] theorem refill_last (b : TokenBucket) (now : Timestamp) :
    (b.refill now).last = max b.last now := by
  rcases lt_or_ge b.last now with hlate | hearly
  · rw [refill_late hlate, max_eq_right hlate.le]
  · rw [refill_early hearly, max_eq_left hearly]

/-- A call refills and takes a whole token if there is one. -/
theorem tryTake_eq (hrate : b.rate ≠ 0) (now : Timestamp) : b.tryTake now =
      if (b.refill now).tokens < kScale then (b.refill now, false)
      else ({ b.refill now with tokens := (b.refill now).tokens - kScale }, true) := if_neg hrate

theorem granted_iff (hrate : b.rate ≠ 0) (now : Timestamp) :
    (b.tryTake now).2 = true ↔ kScale ≤ (b.refill now).tokens := by
  rw [tryTake_eq hrate, ← not_lt]
  split
  · rename_i h
    exact ⟨fun he => absurd he Bool.false_ne_true, absurd h⟩
  · rename_i h
    exact ⟨fun _ => h, fun _ => rfl⟩

/-- What a call takes. -/
def taken (b : TokenBucket) (now : Timestamp) : Int :=
  if (b.tryTake now).2 = true then kScale else 0

theorem tryTake_fst (hrate : b.rate ≠ 0) (now : Timestamp) : (b.tryTake now).1 =
      { b.refill now with tokens := (b.refill now).tokens - b.taken now } := by
  unfold taken
  rw [tryTake_eq hrate]
  split
  · show b.refill now = { b.refill now with tokens := (b.refill now).tokens - 0 }
    rw [sub_zero]
  · rfl

theorem Sound.tryTake (h : b.Sound) (now : Timestamp) : (b.tryTake now).1.Sound := by
  have hrefill := h.refill now
  have hscale : (0 : Int) ≤ kScale := by decide
  rw [tryTake_fst h.rate.ne']
  have htaken : 0 ≤ b.taken now := by
    unfold taken
    split
    · exact hscale
    · exact le_rfl
  exact ⟨hrefill.rate, hrefill.room, (sub_le_self _ htaken).trans hrefill.capped⟩

theorem Sound.takeAll (h : b.Sound) (calls : List Timestamp) : (b.takeAll calls).Sound := by
  induction calls generalizing b with
  | nil => exact h
  | cons now calls ih => exact ih (h.tryTake now)

@[simp] theorem tryTake_rate (b : TokenBucket) (now : Timestamp) :
    (b.tryTake now).1.rate = b.rate := by
  by_cases hrate : b.rate = 0
  · unfold TokenBucket.tryTake
    rw [if_pos hrate]
  · rw [tryTake_fst hrate]
    exact refill_rate b now

@[simp] theorem tryTake_capacity (b : TokenBucket) (now : Timestamp) :
    (b.tryTake now).1.capacity = b.capacity := by
  by_cases hrate : b.rate = 0
  · unfold TokenBucket.tryTake
    rw [if_pos hrate]
  · rw [tryTake_fst hrate]
    exact refill_capacity b now

/-- Calls leave what `configure` set. -/
theorem takeAll_setup (b : TokenBucket) (calls : List Timestamp) :
    (b.takeAll calls).rate = b.rate ∧ (b.takeAll calls).capacity = b.capacity := by
  induction calls generalizing b with
  | nil => exact ⟨rfl, rfl⟩
  | cons now calls ih =>
    obtain ⟨hrate, hcapacity⟩ := ih (b.tryTake now).1
    exact ⟨hrate.trans (tryTake_rate b now), hcapacity.trans (tryTake_capacity b now)⟩

/-! ## The rate -/

/-- A refill adds at most what the time is worth; tokens below zero, which a cast can leave, count
as none. -/
theorem Sound.refill_le (h : b.Sound) (now : Timestamp) : 1000 * max (b.refill now).tokens 0 ≤
      1000 * max b.tokens 0 + b.rate * ((b.refill now).last - b.last) := by
  rcases lt_or_ge b.last now with hlate | hearly
  · rw [refill_late hlate]
    have helapsed : 0 ≤ now - b.last := sub_nonneg.mpr hlate.le
    have hgain := gain_le h.rate.le helapsed
    have hworth : 0 ≤ b.rate * (now - b.last) := mul_nonneg h.rate.le helapsed
    have hmin : min b.capacity (b.tokens + b.gain (now - b.last)) ≤
        b.tokens + b.gain (now - b.last) := min_le_right _ _
    rcases max_choice (min b.capacity (b.tokens + b.gain (now - b.last))) 0 with hmax | hmax <;>
      rw [hmax] <;> linarith [le_max_left b.tokens 0, le_max_right b.tokens 0]
  · rw [refill_early hearly, sub_self, mul_zero, add_zero]

/-- A token is only taken out of tokens that are there. -/
theorem Sound.taken_le (h : b.Sound) (now : Timestamp) :
    b.taken now + max ((b.refill now).tokens - b.taken now) 0 ≤ max (b.refill now).tokens 0 := by
  unfold taken
  split_ifs with hgranted
  · have hwhole := (granted_iff h.rate.ne' now).mp hgranted
    rw [max_eq_left (sub_nonneg.mpr hwhole), add_sub_cancel]
    exact le_max_left _ _
  · rw [sub_zero, zero_add]

/-- What calls take comes from the tokens there were and from the time that passed. -/
theorem Sound.grants_le (h : b.Sound) (calls : List Timestamp) :
    1000000000 * (b.grants calls : Int) + 1000 * max (b.takeAll calls).tokens 0 ≤
      1000 * max b.tokens 0 + b.rate * ((b.takeAll calls).last - b.last) := by
  induction calls generalizing b with
  | nil => simp [grants, TokenBucket.takeAll]
  | cons now calls ih =>
    have hrest := ih (h.tryTake now)
    have hrefill := h.refill_le now
    have hless := h.taken_le now
    rw [show (b.tryTake now).1.last = (b.refill now).last by rw [tryTake_fst h.rate.ne'],
      tryTake_rate,
      show (b.tryTake now).1.tokens = (b.refill now).tokens - b.taken now by
        rw [tryTake_fst h.rate.ne']] at hrest
    have htaken : 1000 * b.taken now =
        1000000000 * (((if (b.tryTake now).2 = true then 1 else 0 : Nat)) : Int) := by
      unfold taken kScale
      split <;> rfl
    have hcount : (b.grants (now :: calls) : Int) =
        ((if (b.tryTake now).2 = true then 1 else 0 : Nat) : Int) +
          ((b.tryTake now).1.grants calls : Int) := by
      exact Nat.cast_add _ _
    show 1000000000 * (b.grants (now :: calls) : Int) +
      1000 * max ((b.tryTake now).1.takeAll calls).tokens 0 ≤
        1000 * max b.tokens 0 + b.rate * (((b.tryTake now).1.takeAll calls).last - b.last)
    rw [hcount]
    linarith

theorem Sound.takeAll_last (h : b.Sound) {hi : Timestamp} (hcalls : ∀ t ∈ calls, t ≤ hi) :
    (b.takeAll calls).last ≤ max b.last hi := by
  induction calls generalizing b with
  | nil => exact le_max_left _ _
  | cons now calls ih =>
    have hrest := ih (h.tryTake now) fun t ht => hcalls t (List.mem_cons_of_mem now ht)
    have hlast : (b.tryTake now).1.last = max b.last now := by
      rw [tryTake_fst h.rate.ne']
      exact refill_last b now
    refine hrest.trans (max_le ?_ (le_max_right _ _))
    rw [hlast]
    exact max_le_max le_rfl (hcalls now List.mem_cons_self)

/-- A call made twice at one time refills once. -/
theorem refill_refill (b : TokenBucket) (now : Timestamp) :
    (b.refill now).refill now = b.refill now := by
  refine refill_early ?_
  rw [refill_last]
  exact le_max_right _ _

theorem tryTake_refill (hrate : b.rate ≠ 0) (now : Timestamp) :
    (b.refill now).tryTake now = b.tryTake now := by
  rw [tryTake_eq hrate, tryTake_eq (by rw [refill_rate]; exact hrate), refill_refill]

/-- Calls whose times lie in an interval are granted at most the capacity and what the interval is
worth. -/
theorem Sound.grants_within (h : b.Sound) {lo hi : Timestamp} (hle : lo ≤ hi)
    (hcalls : ∀ t ∈ calls, lo ≤ t ∧ t ≤ hi) :
    1000000000 * (b.grants calls : Int) ≤ 1000 * b.capacity + b.rate * (hi - lo) := by
  have hscale : (0 : Int) ≤ kScale := by decide
  have hspan : 0 ≤ b.rate * (hi - lo) := mul_nonneg h.rate.le (sub_nonneg.mpr hle)
  cases calls with
  | nil =>
    have hcap := hscale.trans h.room
    show 1000000000 * ((0 : Nat) : Int) ≤ _
    simp only [Nat.cast_zero, mul_zero]
    linarith
  | cons now calls =>
    -- The first call is as if the bucket had been refilled for it: from there on the capacity
    -- bounds the tokens and the interval the time.
    have hfirst := hcalls now List.mem_cons_self
    have hgrants : b.grants (now :: calls) = (b.refill now).grants (now :: calls) := by
      unfold grants
      rw [tryTake_refill h.rate.ne']
    have hsound := h.refill now
    have hbound := hsound.grants_le (now :: calls)
    have hlast := hsound.takeAll_last fun t ht => (hcalls t ht).2
    have hstart : lo ≤ (b.refill now).last := by
      rw [refill_last]
      exact hfirst.1.trans (le_max_right _ _)
    have helapsed : ((b.refill now).takeAll (now :: calls)).last - (b.refill now).last ≤
        hi - lo := by
      rcases max_choice (b.refill now).last hi with hmax | hmax <;> rw [hmax] at hlast <;> linarith
    have hworth := mul_le_mul_of_nonneg_left helapsed h.rate.le
    have hend := le_max_right ((b.refill now).takeAll (now :: calls)).tokens 0
    have hcapped := max_le hsound.capped (hscale.trans hsound.room)
    rw [refill_rate] at hbound
    rw [refill_capacity] at hcapped
    rw [hgrants]
    linarith

/-! ## Asking before -/

/-- A token is whole when it has a million parts. -/
theorem one_le_tdiv (t : Int) : 1 ≤ t.tdiv kScale ↔ kScale ≤ t := by
  rcases lt_or_ge t 0 with hneg | hnonneg
  · have hnone : 0 ≤ (-t).tdiv kScale := Int.tdiv_nonneg (neg_nonneg.mpr hneg.le) (by decide)
    rw [Int.neg_tdiv] at hnone
    have hscale : (0 : Int) < kScale := by decide
    constructor <;> intro h <;> omega
  · rw [Int.tdiv_eq_ediv_of_nonneg hnonneg, Int.le_ediv_iff_mul_le (by decide), one_mul]

theorem Sound.available_eq (h : b.Sound) (now : Timestamp) :
    b.available now = (b.refill now).tokens.tdiv kScale := by
  have hon : ¬ b.rate = 0 := h.rate.ne'
  unfold available
  rw [if_neg hon]
  rcases lt_or_ge b.last now with hlate | hearly
  · rw [if_pos hlate, refill_late hlate]
    rcases lt_or_ge b.capacity (b.tokens + b.gain (now - b.last)) with hover | hfits
    · rw [if_pos hover, min_eq_left hover.le]
    · rw [if_neg (not_lt.mpr hfits), min_eq_right hfits]
  · rw [if_neg (not_lt.mpr hearly), refill_early hearly]

theorem Sound.available_iff (h : b.Sound) (now : Timestamp) :
    1 ≤ b.available now ↔ (b.tryTake now).2 = true := by
  rw [h.available_eq, one_le_tdiv, granted_iff h.rate.ne']

/-- Whether a refill at a time after the last leaves a whole token. -/
theorem Sound.granted_late (h : b.Sound) (hlate : b.last < now) :
    (b.tryTake now).2 = true ↔ kScale ≤ b.tokens + b.gain (now - b.last) := by
  rw [granted_iff h.rate.ne', refill_late hlate, le_min_iff]
  exact and_iff_right h.room

theorem Sound.granted_early (h : b.Sound) (hearly : now ≤ b.last) :
    (b.tryTake now).2 = true ↔ kScale ≤ b.tokens := by
  rw [granted_iff h.rate.ne', refill_early hearly]

/-- What `wait_ns` finds in the bucket. -/
def found (b : TokenBucket) (now : Timestamp) : Int :=
  if b.last < now then b.tokens + b.gain (now - b.last) else b.tokens

theorem Sound.waitNs_whole (h : b.Sound) (hfound : kScale ≤ b.found now) : b.waitNs now = 0 := by
  have hon : ¬ b.rate = 0 := h.rate.ne'
  exact (if_neg hon).trans (if_pos hfound)

theorem found_of_fits (hrate : 0 ≤ b.rate) (hle : b.last ≤ now)
    (hfits : b.rate * (now - b.last) / 1000 < 2 ^ 63) :
    b.found now = b.tokens + b.rate * (now - b.last) / 1000 := by
  unfold found
  split_ifs with hlate
  · rw [gain_of_fits hrate (sub_nonneg.mpr hle) hfits]
  · rw [le_antisymm (not_lt.mp hlate) hle, sub_self, mul_zero, Int.zero_ediv, add_zero]

/-- The wait is the least time that is worth what a token lacks. -/
theorem Sound.waitNs_spec (h : b.Sound) (hfound : b.found now < kScale)
    (hnonneg : 0 ≤ b.found now) :
    0 < b.waitNs now ∧ 1000 * (kScale - b.found now) ≤ b.rate * b.waitNs now ∧
      b.rate * (b.waitNs now - 1) < 1000 * (kScale - b.found now) := by
  have hon : ¬ b.rate = 0 := h.rate.ne'
  have hrate := h.rate
  have hscale : kScale = 1000000 := rfl
  have hlack : 0 < kScale - b.found now := sub_pos.mpr hfound
  have hper : 0 < b.rate * kScale := mul_pos hrate (by decide)
  have hneed : 0 ≤ (kScale - b.found now) * 1000000000 + b.rate * kScale - 1 := by linarith
  have hwait : b.waitNs now =
      ((kScale - b.found now) * 1000000000 + b.rate * kScale - 1) / (b.rate * kScale) := by
    refine ((if_neg hon).trans (if_neg (not_le.mpr hfound))).trans ?_
    show castInt64 (Int.tdiv ((kScale - b.found now) * 1000000000 + b.rate * kScale - 1) _) = _
    rw [Int.tdiv_eq_ediv_of_nonneg hneed]
    refine castInt64_eq ((by decide : (-2 ^ 63 : Int) ≤ 0).trans (Int.ediv_nonneg hneed hper.le)) ?_
    rw [Int.ediv_lt_iff_lt_mul hper, hscale]
    linarith
  have hdiv := Int.mul_ediv_add_emod
    ((kScale - b.found now) * 1000000000 + b.rate * kScale - 1) (b.rate * kScale)
  have hlow := Int.emod_nonneg ((kScale - b.found now) * 1000000000 + b.rate * kScale - 1) hper.ne'
  have hhigh := Int.emod_lt_of_pos ((kScale - b.found now) * 1000000000 + b.rate * kScale - 1) hper
  rw [← hwait] at hdiv
  have hbelow : 1000 * (kScale - b.found now) ≤ b.rate * b.waitNs now := by
    rw [hscale] at hdiv hlow hhigh ⊢
    nlinarith
  have habove : b.rate * (b.waitNs now - 1) < 1000 * (kScale - b.found now) := by
    rw [hscale] at hdiv hlow hhigh ⊢
    nlinarith
  refine ⟨?_, hbelow, habove⟩
  by_contra hneg
  have hnonpos : b.rate * b.waitNs now ≤ 0 :=
    mul_nonpos_of_nonneg_of_nonpos hrate.le (not_lt.mp hneg)
  linarith

/-- After the wait a token is whole exactly when time has not run back: a time before the last
refill counts what it lies back towards the wait. -/
theorem Sound.granted_after_wait (h : b.Sound) (hword : b.rate < 2 ^ 32) (hnonneg : 0 ≤ b.tokens)
    (hfits : b.rate * (now - b.last) / 1000 < 2 ^ 63) :
    (b.tryTake (now + b.waitNs now)).2 = true ↔ kScale ≤ b.tokens ∨ b.last ≤ now := by
  have hrate := h.rate
  have hscale : kScale = 1000000 := rfl
  rcases le_or_gt kScale (b.found now) with hwhole | hlack
  · rw [h.waitNs_whole hwhole, add_zero]
    rcases lt_or_ge b.last now with hlate | hearly
    · have hfound : b.found now = b.tokens + b.gain (now - b.last) := if_pos hlate
      rw [h.granted_late hlate, ← hfound]
      exact ⟨fun _ => .inr hlate.le, fun _ => hwhole⟩
    · have hfound : b.found now = b.tokens := if_neg (not_lt.mpr hearly)
      rw [h.granted_early hearly]
      exact ⟨Or.inl, fun _ => hfound ▸ hwhole⟩
  · rcases le_or_gt b.last now with hon | hback
    · have hfound := found_of_fits hrate.le hon hfits
      have hworth := worth_nonneg hrate.le (sub_nonneg.mpr hon)
      obtain ⟨hpos, henough, hleast⟩ := h.waitNs_spec hlack (by linarith)
      have hgoal : kScale ≤ b.tokens ∨ b.last ≤ now := .inr hon
      have hlate : b.last < now + b.waitNs now := by linarith
      refine ⟨fun _ => hgoal, fun _ => ?_⟩
      rw [h.granted_late hlate]
      -- What the refill at `now` would cut off is kept, so the wait does not need it.
      have hparts : b.rate * (now + b.waitNs now - b.last) =
          b.rate * (now - b.last) + b.rate * b.waitNs now := by ring
      have hend : b.rate * (b.waitNs now - 1) = b.rate * b.waitNs now - b.rate := by ring
      rw [gain_of_fits hrate.le (sub_nonneg.mpr hlate.le) (by omega)]
      omega
    · have hfound : b.found now = b.tokens := if_neg (not_lt.mpr hback.le)
      obtain ⟨-, -, hleast⟩ := h.waitNs_spec hlack (hfound ▸ hnonneg)
      rw [hfound] at hleast hlack
      have hno : ¬ (kScale ≤ b.tokens ∨ b.last ≤ now) := by
        rw [not_or]
        exact ⟨not_le.mpr hlack, not_le.mpr hback⟩
      refine ⟨fun hgranted => absurd hgranted ?_, fun hyes => absurd hyes hno⟩
      rcases lt_or_ge b.last (now + b.waitNs now) with hlate | hearly
      · have hgain := gain_le hrate.le (sub_nonneg.mpr hlate.le)
        have hless : b.rate * (now + b.waitNs now - b.last) ≤ b.rate * (b.waitNs now - 1) :=
          mul_le_mul_of_nonneg_left (by linarith [Int.add_one_le_of_lt hback]) hrate.le
        rw [h.granted_late hlate, not_le]
        linarith
      · rw [h.granted_early hearly]
        exact not_le.mpr hlack

/-- Of any consecutive calls on a configured bucket, no more are granted than the burst and what
the rate gives in the time they span; `available` has a token exactly when a call would be granted;
and where what the time since the last refill is worth fits in 64 bits, a call after `wait_ns` is
granted exactly when a token was whole already or the bucket was not last refilled at a later
time. -/
theorem rate_bound (hrate : 0 < ratePerSec) (hword : ratePerSec < 2 ^ 32) (burst : Nat)
    (start : Timestamp) (before : List Timestamp) :
    let b := (configure ratePerSec burst start).takeAll before
    (∀ (calls : List Timestamp) (lo hi : Timestamp), lo ≤ hi → (∀ t ∈ calls, lo ≤ t ∧ t ≤ hi) →
      (b.grants calls : Int) ≤
        (if burst = 0 then ratePerSec else burst) + ratePerSec * (hi - lo) / 1000000000) ∧
      (∀ now, 1 ≤ b.available now ↔ (b.tryTake now).2 = true) ∧
      ∀ now, 0 ≤ b.tokens → ratePerSec * (now - b.last) / 1000 < 2 ^ 63 →
        ((b.tryTake (now + b.waitNs now)).2 = true ↔ kScale ≤ b.tokens ∨ b.last ≤ now) := by
  intro b
  have hsound : b.Sound := (sound_configure hrate burst start).takeAll before
  obtain ⟨hr, hc⟩ : b.rate = ratePerSec ∧ b.capacity = _ :=
    takeAll_setup (configure ratePerSec burst start) before
  refine ⟨fun calls lo hi hle hcalls => ?_, hsound.available_iff, fun now hnonneg hfits => ?_⟩
  · have hbound := hsound.grants_within hle hcalls
    rw [hr, hc] at hbound
    have hcapacity : 1000 * (configure ratePerSec burst start).capacity =
        ((if burst = 0 then ratePerSec else burst : Nat) : Int) * 1000000000 := by
      show 1000 * (((if burst = 0 then ratePerSec else burst : Nat) : Int) * 1000000) = _
      ring
    have hdiv : (b.grants calls : Int) - ((if burst = 0 then ratePerSec else burst : Nat) : Int) ≤
        ratePerSec * (hi - lo) / 1000000000 := by
      rw [Int.le_ediv_iff_mul_le (by decide)]
      rw [hcapacity] at hbound
      linarith
    linarith
  · rw [← hr] at hfits
    exact hsound.granted_after_wait (by omega) hnonneg hfits

/-- A bucket of three tokens at ten a second, after a call, asked a second later. -/
theorem rate_bound_ten :
    let b := (configure 10 3 0).takeAll [5]
    (∀ (calls : List Timestamp) (lo hi : Timestamp), lo ≤ hi → (∀ t ∈ calls, lo ≤ t ∧ t ≤ hi) →
      (b.grants calls : Int) ≤
        (if (3 : Nat) = 0 then (10 : Nat) else (3 : Nat)) + (10 : Nat) * (hi - lo) / 1000000000) ∧
      (∀ now, 1 ≤ b.available now ↔ (b.tryTake now).2 = true) ∧
      ((b.tryTake (1000000005 + b.waitNs 1000000005)).2 = true ↔
        kScale ≤ b.tokens ∨ b.last ≤ 1000000005) := by
  obtain ⟨hgrants, hthere, hwait⟩ := rate_bound (by decide : 0 < 10) (by decide) 3 0 [5]
  exact ⟨hgrants, hthere, hwait 1000000005 (by decide) (by decide)⟩

/-- Asked for a time before the last call, `wait_ns` does not wait long enough. -/
theorem not_rate_bound :
    ¬ ∀ (ratePerSec burst : Nat), 0 < ratePerSec → ∀ (start : Timestamp) (before : List Timestamp)
      (now : Timestamp),
      (((configure ratePerSec burst start).takeAll before).tryTake
        (now + ((configure ratePerSec burst start).takeAll before).waitNs now)).2 = true :=
  fun h => absurd (h 1 1 (by decide) 1000000000 [1000000000] 0) (by decide)

/-! ## Polling -/

/-- Calls that all fail. -/
def Fails (b : TokenBucket) : List Timestamp → Prop
  | [] => True
  | now :: calls => (b.tryTake now).2 = false ∧ Fails (b.tryTake now).1 calls

/-- What the refills of calls cut off, in thousandths of a micro-token: the part of a thousand, and
what the cast takes away.  A call no later than the one before does not refill. -/
def lost (rate : Int) (last : Timestamp) : List Timestamp → Int
  | [] => 0
  | now :: calls =>
    if now ≤ last then lost rate last calls
    else rate * (now - last) - 1000 * castInt64 (rate * (now - last) / 1000) + lost rate now calls

theorem lost_nonneg {rate : Int} (hrate : 0 ≤ rate) (last : Timestamp) (calls : List Timestamp) :
    0 ≤ lost rate last calls := by
  induction calls generalizing last with
  | nil => exact le_rfl
  | cons now calls ih =>
    unfold lost
    split
    · exact ih last
    rename_i hlate
    have hworth : 0 ≤ rate * (now - last) / 1000 :=
      Int.ediv_nonneg (mul_nonneg hrate (sub_nonneg.mpr (not_le.mp hlate).le)) (by decide)
    have hcast := castInt64_le ((by decide : (-2 ^ 63 : Int) ≤ 0).trans hworth)
    refine add_nonneg ?_ (ih now)
    omega

/-- A call that fails leaves the bucket refilled, short of the capacity. -/
theorem Sound.failed (h : b.Sound) (hfail : (b.tryTake now).2 = false) :
    (b.tryTake now).1 = b.refill now ∧
      (b.last < now → (b.refill now).tokens = b.tokens + b.gain (now - b.last)) := by
  have hshort : (b.refill now).tokens < kScale := by
    by_contra hwhole
    have hgranted := (granted_iff h.rate.ne' now).mpr (not_lt.mp hwhole)
    rw [hfail] at hgranted
    exact Bool.false_ne_true hgranted
  refine ⟨?_, fun hlate => ?_⟩
  · rw [tryTake_eq h.rate.ne', if_pos hshort]
  rw [refill_late hlate] at hshort ⊢
  rcases min_choice b.capacity (b.tokens + b.gain (now - b.last)) with hmin | hmin
  · have hfull : b.capacity < kScale := hmin ▸ hshort
    exact absurd h.room (not_le.mpr hfull)
  · exact hmin

/-- After failing polls, a call is granted exactly when all the refills together, the call's own
included, cut off no more than the time is worth beyond what the token lacked. -/
theorem Sound.granted_polled (h : b.Sound) {calls : List Timestamp} (hfail : b.Fails calls)
    (hbefore : ∀ t ∈ calls, t ≤ now) :
    ((b.takeAll calls).tryTake now).2 = true ↔
      1000 * (kScale - b.tokens) + lost b.rate b.last (calls ++ [now]) ≤
        b.rate * (max b.last now - b.last) := by
  induction calls generalizing b with
  | nil =>
    show (b.tryTake now).2 = true ↔ 1000 * (kScale - b.tokens) + (if now ≤ b.last then (0 : Int)
      else b.rate * (now - b.last) - 1000 * castInt64 (b.rate * (now - b.last) / 1000) + 0) ≤ _
    rcases lt_or_ge b.last now with hlate | hearly
    · rw [h.granted_late hlate, max_eq_right hlate.le, if_neg (not_le.mpr hlate), add_zero,
        gain_eq h.rate.le (sub_nonneg.mpr hlate.le)]
      constructor <;> intro hle <;> linarith
    · rw [h.granted_early hearly, max_eq_left hearly, sub_self, mul_zero, if_pos hearly, add_zero]
      constructor <;> intro hle <;> linarith
  | cons t calls ih =>
    obtain ⟨hfirst, hrest⟩ := hfail
    obtain ⟨hnext, hgain⟩ := h.failed hfirst
    have hlater : ∀ t' ∈ calls, t' ≤ now := fun t' ht' => hbefore t' (List.mem_cons_of_mem t ht')
    rw [hnext] at hrest
    have hstep := ih (h.refill t) hrest hlater
    show (((b.tryTake t).1.takeAll calls).tryTake now).2 = true ↔
      1000 * (kScale - b.tokens) + (if t ≤ b.last then lost b.rate b.last (calls ++ [now])
        else b.rate * (t - b.last) - 1000 * castInt64 (b.rate * (t - b.last) / 1000) +
          lost b.rate t (calls ++ [now])) ≤ _
    rw [hnext, hstep, refill_rate, refill_last]
    rcases lt_or_ge b.last t with hlate | hearly
    · have hnow : t ≤ now := hbefore t List.mem_cons_self
      rw [hgain hlate, gain_eq h.rate.le (sub_nonneg.mpr hlate.le), if_neg (not_le.mpr hlate),
        max_eq_right hlate.le, max_eq_right hnow, max_eq_right (hlate.le.trans hnow)]
      have hwhole : b.rate * (now - b.last) = b.rate * (now - t) + b.rate * (t - b.last) := by ring
      rw [hwhole]
      constructor <;> intro hle <;> linarith
    · rw [refill_early hearly, if_pos hearly, max_eq_left hearly]

/-- Polled while it waits, a bucket that said how long to wait grants the call at the end of the
wait exactly when the refills together cut off no more than the time since the last refill is worth
beyond what the token lacked. -/
theorem polled_wait (hrate : 0 < ratePerSec) (burst : Nat) (start : Timestamp)
    (before : List Timestamp) (now : Timestamp) {polls : List Timestamp} :
    let b := (configure ratePerSec burst start).takeAll before
    0 < b.waitNs now → (∀ t ∈ polls, now ≤ t ∧ t < now + b.waitNs now) → b.Fails polls →
    (((b.takeAll polls).tryTake (now + b.waitNs now)).2 = true ↔
      lost ratePerSec b.last (polls ++ [now + b.waitNs now]) ≤
        ratePerSec * (now + b.waitNs now - b.last) - 1000 * (kScale - b.tokens)) := by
  intro b hwait hpolls hfail
  have hsound : b.Sound := (sound_configure hrate burst start).takeAll before
  have hr : b.rate = ratePerSec := (takeAll_setup _ before).1
  rw [hsound.granted_polled hfail fun t ht => (hpolls t ht).2.le, ← hr]
  rcases lt_or_ge b.last (now + b.waitNs now) with hlate | hearly
  · rw [max_eq_right hlate.le]
    constructor <;> intro hle <;> linarith
  rw [max_eq_left hearly, sub_self, mul_zero]
  have hlack : b.tokens < kScale := by
    have hfound : b.found now = b.tokens := if_neg (not_lt.mpr (by linarith))
    rw [← hfound]
    by_contra hwhole
    exact absurd (hsound.waitNs_whole (not_lt.mp hwhole)) hwait.ne'
  have hnonneg := lost_nonneg hsound.rate.le b.last (polls ++ [now + b.waitNs now])
  have hworth : b.rate * (now + b.waitNs now - b.last) ≤ 0 :=
    mul_nonpos_of_nonneg_of_nonpos hsound.rate.le (sub_nonpos.mpr hearly)
  constructor <;> intro hle <;> linarith

/-- A bucket of one token at one a second, emptied and polled after a microsecond. -/
theorem polled_wait_whole :
    let b := (configure 1 1 0).takeAll [0]
    ((b.takeAll [1000]).tryTake (0 + b.waitNs 0)).2 = true ↔
      lost (1 : Nat) b.last ([1000] ++ [0 + b.waitNs 0]) ≤
        (1 : Nat) * (0 + b.waitNs 0 - b.last) - 1000 * (kScale - b.tokens) :=
  polled_wait (by decide) 1 0 [0] 0 (by decide) (by decide) ⟨by decide, trivial⟩

/-- Polled once, it does not grant the call at the end of the wait. -/
theorem not_polled_wait :
    ¬ ∀ (ratePerSec burst : Nat), 0 < ratePerSec → ∀ (start : Timestamp) (before : List Timestamp)
      (now : Timestamp) (polls : List Timestamp),
      let b := (configure ratePerSec burst start).takeAll before
      0 < b.waitNs now → (∀ t ∈ polls, now ≤ t ∧ t < now + b.waitNs now) → b.Fails polls →
      ((b.takeAll polls).tryTake (now + b.waitNs now)).2 = true :=
  fun h => absurd (h 1 1 (by decide) 0 [0] 0 [999] (by decide) (by decide) ⟨by decide, trivial⟩)
    (by decide)

end FastMM.TokenBucket
