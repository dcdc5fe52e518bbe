/-
  Core/Rounding.lean --- prices on the tick grid, quantities on the lot grid.

  Source: `floor_div`, `round_to_tick`, `round_to_tick_nearest` and `round_to_lot` of
  `include/fastmm/core/fixed_point.hpp`.

  Values are raw integers, exact where the source does not overflow.
-/
import FastMM.Core.Types
import Mathlib.Algebra.Order.Ring.Int
import Mathlib.Algebra.Order.Group.Unbundled.Abs
import Mathlib.Order.Bounds.Basic
import Mathlib.Tactic.SplitIfs
set_option autoImplicit false

namespace FastMM

def floorDiv (a b : Int) : Int :=
  let q := a.tdiv b
  if a.tmod b ≠ 0 ∧ ¬ (a < 0 ↔ b < 0) then q - 1 else q

def roundToTick (p tick : Price) (side : Side) : Price :=
  let floored := floorDiv p tick * tick
  if side = .buy ∨ floored = p then floored else floored + tick

def roundToTickNearest (p tick : Price) : Price :=
  let half := tick.tdiv 2
  let shifted := if 0 ≤ p then p + half else p - half
  floorDiv shifted tick * tick

def roundToLot (q lot : Qty) : Qty := floorDiv q lot * lot

/-- For a positive divisor the corrected truncation is the floor. -/
theorem floorDiv_eq_ediv (a : Int) {b : Int} (hb : 0 < b) : floorDiv a b = a / b := by
  have hparts := Int.mul_tdiv_add_tmod a b
  have hlt := Int.tmod_lt_of_pos a hb
  have hgt := Int.lt_tmod_of_pos a hb
  have hnonneg := @Int.tmod_nonneg a b
  have hnonpos : a ≤ 0 → a.tmod b ≤ 0 := fun ha => by
    have := Int.tmod_nonneg b (show 0 ≤ -a by omega)
    rw [Int.neg_tmod] at this
    omega
  refine ((Int.ediv_eq_iff_of_pos hb).mpr ?_).symm
  unfold floorDiv
  rw [Int.mul_comm] at hparts
  dsimp only
  split_ifs with hrest
  · rw [Int.sub_mul, Int.one_mul]
    omega
  · omega

/-- The multiple a value is rounded down to. -/
theorem floorDiv_spec (a : Int) {b : Int} (hb : 0 < b) :
    b ∣ floorDiv a b * b ∧ floorDiv a b * b ≤ a ∧ a < floorDiv a b * b + b := by
  rw [floorDiv_eq_ediv a hb]
  have hle := Int.ediv_mul_le a hb.ne'
  have hlt := Int.lt_ediv_add_one_mul_self a hb
  rw [Int.add_mul, Int.one_mul] at hlt
  exact ⟨Int.dvd_mul_left _ _, hle, hlt⟩

/-- The multiples after one are at least a step on. -/
theorem add_le_of_dvd {b f m : Int} (hf : b ∣ f) (hm : b ∣ m) (hlt : f < m) : f + b ≤ m := by
  have := Int.le_of_dvd (by omega) (Int.dvd_sub hm hf)
  omega

theorem floorDiv_isGreatest (a : Int) {b : Int} (hb : 0 < b) :
    IsGreatest {m | b ∣ m ∧ m ≤ a} (floorDiv a b * b) := by
  obtain ⟨hdvd, hle, hlt⟩ := floorDiv_spec a hb
  refine ⟨⟨hdvd, hle⟩, fun m hm => not_lt.mp fun hover => ?_⟩
  have := add_le_of_dvd hdvd hm.1 hover
  have := hm.2
  omega

variable {p tick : Int}

theorem roundToTick_sell (htick : 0 < tick) :
    IsLeast {m | tick ∣ m ∧ p ≤ m} (roundToTick p tick .sell) := by
  obtain ⟨hdvd, hle, hlt⟩ := floorDiv_spec p htick
  unfold roundToTick
  dsimp only
  generalize floorDiv p tick * tick = floored at *
  by_cases hon : floored = p
  · rw [if_pos (.inr hon)]
    exact ⟨⟨hdvd, hon.ge⟩, fun m hm => hon.le.trans hm.2⟩
  · rw [if_neg (not_or.mpr ⟨nofun, hon⟩)]
    refine ⟨⟨Int.dvd_add hdvd (Int.dvd_refl _), hlt.le⟩, fun m hm => ?_⟩
    exact add_le_of_dvd hdvd hm.1 (lt_of_lt_of_le (lt_of_le_of_ne hle hon) hm.2)

/-- A price that is not negative is rounded to the nearest tick; a negative one only when it is
half a tick above a multiple, since the shift goes away from zero and the division down. -/
theorem roundToTickNearest_within (p : Int) (htick : 0 < tick) : tick ∣ roundToTickNearest p tick ∧
    (2 * |roundToTickNearest p tick - p| ≤ tick ↔ 0 ≤ p ∨ p % tick = tick / 2) := by
  unfold roundToTickNearest Price
  dsimp only
  rw [Int.tdiv_eq_ediv_of_nonneg htick.le]
  split_ifs with hp
  · obtain ⟨hdvd, hle, hlt⟩ := floorDiv_spec (p + tick / 2) htick
    refine ⟨hdvd, iff_of_true ?_ (.inl hp)⟩
    rw [Int.abs_eq_natAbs]
    omega
  obtain ⟨hdvd, hle, hlt⟩ := floorDiv_spec (p - tick / 2) htick
  generalize floorDiv (p - tick / 2) tick * tick = f at *
  have hwithin : 2 * |f - p| ≤ tick ↔ p - f = tick / 2 := by
    rw [Int.abs_eq_natAbs]
    omega
  have hshift : tick ∣ p - tick / 2 ↔ p % tick = tick / 2 := by
    rw [Int.dvd_iff_emod_eq_zero, ← Int.emod_eq_emod_iff_emod_sub_eq_zero,
      Int.emod_eq_of_lt (show 0 ≤ tick / 2 by omega) (by omega)]
  rw [hwithin, or_iff_right hp, ← hshift]
  refine ⟨hdvd, fun h => ?_, fun h => ?_⟩
  · rwa [show p - tick / 2 = f by omega]
  · by_contra hne
    have := add_le_of_dvd hdvd h (by omega)
    omega

/-- Rounding stays next to its input: down for a bid and a quantity, up for an offer, and within
half a tick for the nearest one. -/
structure RoundsNear (p tick : Price) (q lot : Qty) : Prop where
  bid : IsGreatest {m | tick ∣ m ∧ m ≤ p} (roundToTick p tick .buy)
  offer : IsLeast {m | tick ∣ m ∧ p ≤ m} (roundToTick p tick .sell)
  nearest : tick ∣ roundToTickNearest p tick ∧ 2 * |roundToTickNearest p tick - p| ≤ tick
  lots : IsGreatest {m | lot ∣ m ∧ m ≤ q} (roundToLot q lot)

theorem roundsNear_iff (p tick : Price) (q lot : Qty) (htick : 0 < tick) (hlot : 0 < lot) :
    RoundsNear p tick q lot ↔ 0 ≤ p ∨ p % tick = tick / 2 := by
  obtain ⟨hdvd, hwithin⟩ := roundToTickNearest_within p htick
  rw [← hwithin]
  refine ⟨fun h => h.nearest.2, fun h => ⟨?_, roundToTick_sell htick, ⟨hdvd, h⟩, ?_⟩⟩
  · unfold roundToTick
    rw [if_pos (.inl rfl)]
    exact floorDiv_isGreatest p htick
  · exact floorDiv_isGreatest q hlot

theorem roundsNear_iff_five : RoundsNear 25 10 7 2 :=
  (roundsNear_iff 25 10 7 2 (by decide) (by decide)).mpr (.inl (by decide))

/-- A negative price on the grid is moved a whole tick. -/
theorem not_roundsNear_twenty : ¬ RoundsNear (-20) 10 7 2 :=
  fun h => absurd h.nearest.2 (by decide)

end FastMM
