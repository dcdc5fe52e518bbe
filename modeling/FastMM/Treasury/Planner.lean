/-
  Treasury/Planner.lean --- the transfers a plan makes.

  Source: `include/fastmm/core/treasury.hpp`, `src/core/treasury.cpp` (`plan_transfers`).

  Amounts are raw values.  What the plan computes in `double` (the shares of the targets and the
  threshold below them) is a parameter of the configuration, `Shares`.
-/
import FastMM.Core.Types
import Mathlib.Data.List.Sort
set_option autoImplicit false

namespace FastMM.Treasury

open List

/-! ## Configuration -/

inductive TreasuryTargets where
  | weights
  | demand
  deriving DecidableEq, Repr

/-- The values computed in `double`, from `headroom`, `threshold` and `weight`. -/
structure Shares where
  /-- `floor(want[i] * grow)`, with what the pool has above its kept balances. -/
  demand : List Int → Int → Nat → Int
  /-- `floor(total * share)` of the account. -/
  weight : Int → Nat → Int
  /-- `wsum > 0`. -/
  weighed : Bool
  /-- `floor(target * keep_frac)`. -/
  keep : Int → Int

structure TreasuryConfig where
  enabled : Bool := false
  dryRun : Bool := false
  asset : List Char := []
  targets : TreasuryTargets := .weights
  reserve : Bool := false
  members : List VenueId
  names : List (List Char) := []
  minFree : List Notional := []
  shares : Shares
  minAmount : Notional := 0
  maxAmount : Notional := 0
  step : Notional := 1000000
  intervalNs : Int := 10000000000
  minIntervalNs : Int := 60000000000
  maxPerHour : Nat := 12
  cooldownNs : Int := 300000000000
  timeoutNs : Int := 60000000000
  settleNs : Int := 30000000000
  stateFile : List Char := []

namespace TreasuryConfig

def kMax : Nat := 8

def indexOf (cfg : TreasuryConfig) (v : VenueId) : Nat :=
  match cfg.members.idxOf? v with
  | some i => i
  | none => kMax

theorem getD_indexOf {cfg : TreasuryConfig} {v : VenueId} (hv : v ∈ cfg.members) :
    cfg.indexOf v < cfg.members.length ∧ cfg.members.getD (cfg.indexOf v) .invalid = v := by
  unfold indexOf
  cases hidx : cfg.members.idxOf? v with
  | none => exact absurd hv (List.idxOf?_eq_none_iff.mp hidx)
  | some i =>
    obtain ⟨hi, hat, -⟩ := List.idxOf?_eq_some_iff.mp hidx
    exact ⟨hi, by rw [getD_eq_getElem?_getD, getElem?_eq_getElem hi, hat]; rfl⟩

end TreasuryConfig

variable {cfg : TreasuryConfig}
variable {raw step : Int}

structure TreasuryAccount where
  venue : VenueId
  free : Notional
  known : Bool := false
  transferable : Notional := -1
  locked : Notional := 0
  need : Notional := 0

structure PlannedTransfer where
  payer : VenueId
  payee : VenueId
  amount : Notional
  deriving DecidableEq, Repr

inductive TreasuryPlan.Status where
  | balanced
  | transfers
  | unknown
  | empty
  deriving DecidableEq, Repr

structure TreasuryPlan where
  status : TreasuryPlan.Status := .balanced
  transfers : List PlannedTransfer := []

def roundDown (raw step : Int) : Int := if step ≤ 1 then raw else raw - raw.tmod step

theorem dvd_roundDown (h : 0 < step) : step ∣ roundDown raw step := by
  unfold roundDown
  split_ifs with hone
  · have : step = 1 := by omega
    rw [this]
    exact Int.one_dvd raw
  · exact Int.dvd_self_sub_tmod

theorem roundDown_le (h : 0 ≤ raw) : roundDown raw step ≤ raw := by
  unfold roundDown
  split_ifs with hone
  · rfl
  · have := Int.tmod_nonneg step h
    omega

/-- A rounded amount above zero was rounded down. -/
theorem roundDown_le_of_pos (h : 0 < roundDown raw step) : roundDown raw step ≤ raw := by
  by_cases hraw : 0 ≤ raw
  · exact roundDown_le hraw
  exfalso
  unfold roundDown at h
  split_ifs at h with hone
  · omega
  have hflip := Int.neg_tmod (-raw) step
  rw [Int.neg_neg] at hflip
  have hsplit := Int.mul_tdiv_add_tmod (-raw) step
  have hquot : 0 ≤ step * (-raw).tdiv step :=
    Int.mul_nonneg (by omega) (Int.tdiv_nonneg (by omega) (by omega))
  omega

/-! ## What each account has -/

/-- One account's columns of the plan. -/
structure Row where
  free : Int := 0
  out : Int := 0
  locked : Int := 0
  want : Int := 0
  seen : Bool := false

/-- The accounts the plan is given, by member; no result where a balance is not known. -/
def scan (cfg : TreasuryConfig) :
    List TreasuryAccount → List Row × Bool → Option (List Row × Bool)
  | [], s => some s
  | a :: rest, s =>
    if cfg.members.length ≤ cfg.indexOf a.venue then scan cfg rest s
    else if !a.known then none
    else
      let row : Row :=
        { free := a.free, out := a.transferable, locked := a.locked,
          want := max a.need 0, seen := true }
      scan cfg rest (s.1.set (cfg.indexOf a.venue) row, s.2 || decide (0 < row.want))

/-- `free` above `kept`, as far as it can leave the account. -/
def giveOf (give out : Int) : Int :=
  let give := if 0 ≤ out then min give out else give
  if 0 < give then -give else 0

/-- What each account needs under `demand` targets; negative: what it can give. -/
def demandNeeds (cfg : TreasuryConfig) (rows : List Row) : List Int :=
  let cash := fun r : Row => r.free + max r.locked 0
  let total := (rows.map cash).sum
  let kept := (rows.zipIdx.map fun r => cfg.minFree.getD r.2 0).sum
  rows.zipIdx.map fun r =>
    let target :=
      cfg.shares.demand (rows.map Row.want) (total - kept) r.2 + cfg.minFree.getD r.2 0
    if cash r.1 < cfg.shares.keep target then target - cash r.1
    else if target < cash r.1 then giveOf (min (cash r.1 - target) r.1.free) r.1.out
    else 0

/-- What each account needs under `weights` targets. -/
def weightNeeds (cfg : TreasuryConfig) (rows : List Row) : List Int :=
  let total := (rows.map Row.free).sum
  rows.zipIdx.map fun r =>
    let target := cfg.shares.weight total r.2
    let minFree := cfg.minFree.getD r.2 0
    let keep := max target minFree
    if r.1.free < max (cfg.shares.keep target) minFree then keep - r.1.free
    else if keep < r.1.free then giveOf (r.1.free - keep) r.1.out
    else 0

/-! ## Matching -/

/-- The largest need with the largest giver: the givers of one account. -/
def payers (cfg : TreasuryConfig) (payee : Nat) :
    List Nat → List Int × List PlannedTransfer → List Int × List PlannedTransfer
  | [], s => s
  | payer :: rest, s =>
    if s.1.getD payee 0 ≤ 0 then s
    else if payer = payee ∨ 0 ≤ s.1.getD payer 0 then payers cfg payee rest s
    else
      let amount := min (s.1.getD payee 0) (-(s.1.getD payer 0))
      let amount := if 0 < cfg.maxAmount then min amount cfg.maxAmount else amount
      let amount := roundDown amount cfg.step
      if amount ≤ 0 ∨ amount < cfg.minAmount then payers cfg payee rest s
      else if s.2.length = TreasuryConfig.kMax then s
      else
        payers cfg payee rest
          ((s.1.set payee (s.1.getD payee 0 - amount)).set payer (s.1.getD payer 0 + amount),
           s.2 ++ [⟨cfg.members.getD payer .invalid, cfg.members.getD payee .invalid, amount⟩])

/-- The payees in the order of their needs. -/
def payees (cfg : TreasuryConfig) (givers : List Nat) :
    List Nat → List Int × List PlannedTransfer → List Int × List PlannedTransfer
  | [], s => s
  | payee :: rest, s =>
    if s.1.getD payee 0 ≤ 0 then s
    else payees cfg givers rest (payers cfg payee givers s)

/-- The transfers of given needs. -/
def matchNeeds (cfg : TreasuryConfig) (need : List Int) : List PlannedTransfer :=
  let n := cfg.members.length
  let order := (List.range n).insertionSort fun a b => need.getD b 0 ≤ need.getD a 0
  let givers := (List.range n).insertionSort fun a b => need.getD a 0 ≤ need.getD b 0
  (payees cfg givers order (need, [])).2

def planTransfers (cfg : TreasuryConfig) (accounts : List TreasuryAccount) : TreasuryPlan :=
  if cfg.members.length < 2 then { status := .empty }
  else
    match scan cfg accounts (List.replicate cfg.members.length {}, false) with
    | none => { status := .unknown }
    | some (rows, declared) =>
      if cfg.targets = .demand ∧ declared = false then {}
      else if rows.any fun r => !r.seen then { status := .unknown }
      else if cfg.targets ≠ .demand ∧ cfg.shares.weighed = false then { status := .empty }
      else
        let need := if cfg.targets = .demand then demandNeeds cfg rows else weightNeeds cfg rows
        let transfers := matchNeeds cfg need
        { status := if transfers = [] then .balanced else .transfers, transfers := transfers }

/-! ## What the matching keeps -/

/-- The amount one payer and one payee agree on: a transfer the matching makes of it. -/
structure Agreed (cfg : TreasuryConfig) (payee payer : Nat) (s : List Int × List PlannedTransfer)
    (amount : Int) : Prop where
  differ : payer ≠ payee
  pos : 0 < amount
  need : amount ≤ s.1.getD payee 0
  spare : amount ≤ -s.1.getD payer 0
  min : cfg.minAmount ≤ amount
  max : 0 < cfg.maxAmount → amount ≤ cfg.maxAmount
  step : 0 < cfg.step → cfg.step ∣ amount
  room : s.2.length ≠ TreasuryConfig.kMax

/-- The state after a transfer. -/
def agree (cfg : TreasuryConfig) (payee payer : Nat) (s : List Int × List PlannedTransfer)
    (amount : Int) : List Int × List PlannedTransfer :=
  ((s.1.set payee (s.1.getD payee 0 - amount)).set payer (s.1.getD payer 0 + amount),
   s.2 ++ [⟨cfg.members.getD payer .invalid, cfg.members.getD payee .invalid, amount⟩])

/-- What skipping a payer keeps, and what a transfer keeps, the payers of one payee keep. -/
theorem payers_rule {payee : Nat} {P : List Nat → List Int × List PlannedTransfer → Prop}
    (skip : ∀ {payer rest s}, P (payer :: rest) s → P rest s)
    (make : ∀ {payer rest s amount}, P (payer :: rest) s → Agreed cfg payee payer s amount →
      P rest (agree cfg payee payer s amount))
    (givers : List Nat) {s : List Int × List PlannedTransfer} (h : P givers s) :
    P [] (payers cfg payee givers s) := by
  have stop : ∀ {l s}, P l s → P [] s := by
    intro l s h
    induction l with
    | nil => exact h
    | cons payer rest ih => exact ih (skip h)
  induction givers generalizing s with
  | nil => exact h
  | cons payer rest ih =>
    rw [payers]
    by_cases hfull : s.1.getD payee 0 ≤ 0
    · rw [if_pos hfull]
      exact stop h
    rw [if_neg hfull]
    by_cases hgives : payer = payee ∨ 0 ≤ s.1.getD payer 0
    · rw [if_pos hgives]
      exact ih (skip h)
    rw [if_neg hgives]
    extract_lets whole capped amount
    by_cases hsmall : amount ≤ 0 ∨ amount < cfg.minAmount
    · rw [if_pos hsmall]
      exact ih (skip h)
    rw [if_neg hsmall]
    split_ifs with hroom
    · exact stop h
    have hpos : 0 < amount := Int.not_le.mp fun hle => hsmall (.inl hle)
    have hcapped : amount ≤ capped := roundDown_le_of_pos hpos
    have hwhole : capped ≤ whole ∧ (0 < cfg.maxAmount → capped ≤ cfg.maxAmount) := by
      by_cases hcap : 0 < cfg.maxAmount
      · simp only [capped, if_pos hcap]
        exact ⟨Int.min_le_left .., fun _ => Int.min_le_right ..⟩
      · simp only [capped, if_neg hcap]
        exact ⟨Int.le_refl _, fun h => absurd h hcap⟩
    have hbest : amount ≤ whole := Int.le_trans hcapped hwhole.1
    exact ih (make h
      { differ := fun h => hgives (.inl h)
        pos := hpos
        need := Int.le_trans hbest (Int.min_le_left ..)
        spare := Int.le_trans hbest (Int.min_le_right ..)
        min := Int.not_lt.mp fun hlt => hsmall (.inr hlt)
        max := fun h => Int.le_trans hcapped (hwhole.2 h)
        step := dvd_roundDown
        room := hroom })

/-- What the payers of every payee keep, the matching keeps. -/
theorem payees_rule {givers : List Nat} {P : List Nat → List Int × List PlannedTransfer → Prop}
    (skip : ∀ {payee rest s}, P (payee :: rest) s → P rest s)
    (pay : ∀ {payee rest s}, P (payee :: rest) s → P rest (payers cfg payee givers s))
    (order : List Nat) {s : List Int × List PlannedTransfer} (h : P order s) :
    P [] (payees cfg givers order s) := by
  have stop : ∀ {l s}, P l s → P [] s := by
    intro l s h
    induction l with
    | nil => exact h
    | cons payee rest ih => exact ih (skip h)
  induction order generalizing s with
  | nil => exact h
  | cons payee rest ih =>
    rw [payees]
    split_ifs with hfull
    · exact stop h
    · exact ih (pay h)

/-! ## Every planned amount is one that may be sent -/

/-- An amount that may be sent: positive, and whole steps of it. -/
def Sendable (cfg : TreasuryConfig) (amount : Notional) : Prop :=
  0 < amount ∧ (0 < cfg.step → cfg.step ∣ amount)

theorem sendable_payers {payee : Nat} (givers : List Nat)
    {s : List Int × List PlannedTransfer} (h : ∀ p ∈ s.2, Sendable cfg p.amount) :
    ∀ p ∈ (payers cfg payee givers s).2, Sendable cfg p.amount := by
  refine payers_rule (P := fun _ s => ∀ p ∈ s.2, Sendable cfg p.amount) (fun h => h) ?_ givers h
  intro payer rest s amount h hagreed p hp
  rcases mem_append.mp hp with hp | hp
  · exact h p hp
  · rw [mem_singleton.mp hp]
    exact ⟨hagreed.pos, hagreed.step⟩

theorem sendable_matchNeeds (cfg : TreasuryConfig) (need : List Int) :
    ∀ p ∈ matchNeeds cfg need, Sendable cfg p.amount :=
  payees_rule (P := fun _ s => ∀ p ∈ s.2, Sendable cfg p.amount) (fun h => h)
    (sendable_payers _) _ fun _ hp => absurd hp not_mem_nil

theorem sendable_planTransfers (cfg : TreasuryConfig) (accounts : List TreasuryAccount) :
    ∀ p ∈ (planTransfers cfg accounts).transfers, Sendable cfg p.amount := by
  intro p hp
  unfold planTransfers at hp
  split at hp
  · exact absurd hp not_mem_nil
  split at hp
  · exact absurd hp not_mem_nil
  split at hp
  · exact absurd hp not_mem_nil
  split at hp
  · exact absurd hp not_mem_nil
  split at hp
  · exact absurd hp not_mem_nil
  · exact sendable_matchNeeds cfg _ p hp

end FastMM.Treasury
