/-
  Engine/PooledPositions.lean --- the position of an instrument on an account pool.

  Each account of the pool reports its own position and fills on its own.  `View`
  is what each account's messages said: its last report and what was filled on it
  since.  The instrument's position should be the sum over the accounts; a report
  rebuilds it from the reports alone, so it drops what the other accounts filled
  since theirs.  `pooled_position_iff` says exactly when the sum holds over a run.
-/
import FastMM.Engine.Positions
import Mathlib.Algebra.BigOperators.Group.List.Basic
import Mathlib.Tactic.Linarith
set_option autoImplicit false

namespace FastMM

open Function List PositionTracker

namespace PositionDesk

/-! ## Runs -/

/-- A message of a pool's run: an execution with the update the `Oms` gave for it,
an update that reported missed quantity, or a position report. -/
inductive Op where
  | fill (f : OrderFillMsg) (u : OmsUpdate)
  | missed (u : OmsUpdate)
  | report (id : InstrumentId) (account : VenueId) (qty : Qty) (avgPx : Price)

/-- The engine before any message. -/
def start (cfg : DeskConfig) : PositionDesk :=
  { held := if cfg.pools.active then some (fun _ _ => 0) else none }

section Runs

variable (cfg : DeskConfig)
variable (i : Fin kMaxInstruments)

/-- What a message does. -/
def step (d : PositionDesk) : Op → PositionDesk
  | .fill f u => bookFill cfg d f u
  | .missed u => bookMissedFill cfg d u
  | .report id account qty avgPx => onPositionUpdate cfg d id account qty avgPx

/-- The engine after a sequence of messages. -/
def run (ops : List Op) : PositionDesk := ops.foldl (step cfg) (start cfg)

/-- What a message books on instrument `i`: the account and the signed quantity. -/
def moved : Op → Option (VenueId × Int)
  | .fill f u =>
    if u.action ≠ .duplicate ∧ cfg.instruments.index (fillInstrument f u) = some i ∧
        0 < bookedQty f u then
      some (fillAccount f u, if fillSide f u = .buy then bookedQty f u else -bookedQty f u)
    else none
  | .missed u =>
    if u.missedQty ≠ 0 ∧ cfg.instruments.index u.order.instrument = some i then
      some (u.order.venue, if u.order.side = .buy then u.missedQty else -u.missedQty)
    else none
  | .report _ _ _ _ => none

/-- The report of instrument `i` a message is: the account and the quantity. -/
def reports : Op → Option (VenueId × Qty)
  | .report id account qty _ =>
    if cfg.instruments.index id = some i then some (account, qty) else none
  | _ => none

end Runs

/-! ## What the accounts said -/

/-- An account's last report and the signed quantity filled on it since. -/
structure View where
  reported : Option Qty := none
  since : Qty := 0

section Views

variable (cfg : DeskConfig) (i : Fin kMaxInstruments)

/-- The accounts' views after one more message. -/
def viewStep (v : VenueId → View) (op : Op) : VenueId → View :=
  match reports cfg i op with
  | some (account, qty) => update v account ⟨some qty, 0⟩
  | none =>
    match moved cfg i op with
    | some (account, x) =>
      update v account { v account with since := (v account).since + x }
    | none => v

/-- The accounts' views after a sequence of messages. -/
def views (ops : List Op) : VenueId → View := ops.foldl (viewStep cfg i) (fun _ => {})

/-- The accounts of the instrument's pool. -/
def accounts : List VenueId := cfg.pools.members (cfg.instruments.inst i).venue

/-- Every account has reported. -/
def AllReported (v : VenueId → View) : Prop :=
  ∀ a ∈ accounts cfg i, (v a).reported.isSome = true

/-- The sum over the accounts of the last report and what was filled since. -/
def accountSum (v : VenueId → View) : Qty :=
  ((accounts cfg i).map (fun a => (v a).reported.getD 0 + (v a).since)).sum

/-- What was filled on the other accounts since their reports. -/
def othersSince (v : VenueId → View) (account : VenueId) : Qty :=
  ((accounts cfg i).map (fun a => if a = account then 0 else (v a).since)).sum

/-- A message about the instrument is one of an account of its pool. -/
def OnPool (op : Op) : Prop :=
  (∀ a x, moved cfg i op = some (a, x) → a ∈ accounts cfg i) ∧
    (∀ a q, reports cfg i op = some (a, q) → a ∈ accounts cfg i)

end Views

/-! ## The accounts of a pool -/

theorem valid_of_pooled {p : PoolPlan} {v : VenueId} (h : p.pooled v = true) : v.valid = true := by
  unfold PoolPlan.pooled at h
  rw [Bool.and_eq_true, Bool.and_eq_true] at h
  have hlt : v.value < 8 := of_decide_eq_true h.1.2
  unfold VenueId.valid
  rw [bne_iff_ne]
  intro heq
  rw [heq] at hlt
  exact absurd hlt (by decide)

theorem members_nodup (p : PoolPlan) (v : VenueId) : (p.members v).Nodup := by
  unfold PoolPlan.members
  split
  case isFalse => exact nodup_nil
  case isTrue hv =>
    refine List.Nodup.sublist (take_sublist _ _) ?_
    rw [nodup_cons]
    constructor
    · intro hmem
      rw [mem_map] at hmem
      obtain ⟨w, hw, hwv⟩ := hmem
      rw [mem_filter] at hw
      have hprimary : p.primaryOf w = v := eq_of_beq hw.2
      rcases p.irrefl w with hne | hinv
      · exact hne (hprimary.trans hwv.symm)
      · rw [← hprimary, hinv] at hv
        exact absurd hv (by decide)
    · refine List.Nodup.map ?_ (List.Nodup.filter _ nodup_range)
      intro a b hab
      exact congrArg VenueId.value hab

theorem members_ne_nil {p : PoolPlan} {v : VenueId} (h : v.valid = true) : p.members v ≠ [] := by
  unfold PoolPlan.members
  rw [if_pos h]
  simp [kMaxMembers]

/-- The index a report writes to is the account's own. -/
theorem lastIndex_of_mem {members : List VenueId} {a : VenueId} (h : a ∈ members) :
    ∃ k, lastIndex members a = some k ∧ members[k]? = some a := by
  obtain ⟨j, hj, hja⟩ := mem_iff_getElem.mp h
  have hmem : j ∈ (List.range members.length).filter (fun i => members[i]? == some a) := by
    rw [mem_filter, mem_range]
    refine ⟨hj, ?_⟩
    rw [getElem?_eq_getElem hj, hja]
    exact beq_self_eq_true _
  unfold lastIndex
  cases hlast : ((List.range members.length).filter (fun i => members[i]? == some a)).getLast? with
  | none =>
    rw [getLast?_eq_none_iff] at hlast
    simp [hlast] at hmem
  | some k =>
    have hk := mem_of_getLast? hlast
    rw [mem_filter] at hk
    exact ⟨k, rfl, eq_of_beq hk.2⟩

/-- A sum over the indices of a list is one over its elements. -/
theorem sum_range_map {α : Type} (l : List α) {g : Nat → Int} {h : α → Int}
    (hg : ∀ k a, l[k]? = some a → g k = h a) :
    ((List.range l.length).map g).sum = (l.map h).sum := by
  congr 1
  apply ext_getElem
  · simp
  intro k hk _
  have hlt : k < l.length := by simpa using hk
  simp only [getElem_map, getElem_range]
  exact hg k _ (getElem?_eq_getElem hlt)

/-! ## What a message does -/

section Steps

variable {cfg : DeskConfig} {i : Fin kMaxInstruments}
variable (d : PositionDesk)

/-- Row `i` of the accounts' reports. -/
def row (i : Fin kMaxInstruments) : Nat → PoolPosition :=
  (d.poolPos.getD (fun _ _ => {})) i

@[simp] theorem noteHeld_positions (cfg : DeskConfig) (d : PositionDesk)
    (j : Fin kMaxInstruments) (account : VenueId) (side : Side) (qty : Qty) :
    (noteHeld cfg d j account side qty).positions = d.positions := by
  unfold noteHeld
  dsimp only
  split
  · rfl
  · split <;> rfl

@[simp] theorem noteHeld_poolPos (cfg : DeskConfig) (d : PositionDesk)
    (j : Fin kMaxInstruments) (account : VenueId) (side : Side) (qty : Qty) :
    (noteHeld cfg d j account side qty).poolPos = d.poolPos := by
  unfold noteHeld
  dsimp only
  split
  · rfl
  · split <;> rfl

/-- The signed quantity a message books on the instrument. -/
def movedQty (cfg : DeskConfig) (i : Fin kMaxInstruments) (op : Op) : Int :=
  ((moved cfg i op).map Prod.snd).getD 0

theorem bookFill_poolPos (f : OrderFillMsg) (u : OmsUpdate) :
    (bookFill cfg d f u).poolPos = d.poolPos := by
  unfold bookFill
  split
  · rfl
  split
  · rfl
  dsimp only
  split
  · exact noteHeld_poolPos ..
  · rfl

theorem bookFill_qty (f : OrderFillMsg) (u : OmsUpdate) :
    ((bookFill cfg d f u).positions.pos i).qty =
      (d.positions.pos i).qty + movedQty cfg i (.fill f u) := by
  unfold bookFill movedQty moved
  by_cases hdup : u.action = .duplicate
  · simp [hdup]
  rw [if_neg hdup]
  cases hidx : cfg.instruments.index (fillInstrument f u) with
  | none => simp [hidx]
  | some j =>
    dsimp only
    -- Naming a synthetic fill moves no quantity.
    have hnamed : ∀ k, ((if u.correctedQty = 0 then d.positions
        else d.positions.correctFill j (fillSide f u) u.syntheticPx f.price
          (correctedQty f u (fillSide f u)) (fillFee f (cfg.instruments.inst j))
          (cfg.instruments.inst j)).pos k).qty = (d.positions.pos k).qty := by
      intro k
      split
      · rfl
      · rw [correctFill_qty]
    by_cases hpos : 0 < bookedQty f u
    · rw [if_pos hpos, noteHeld_positions]
      rw [onFill_qty, hnamed]
      by_cases hij : i = j
      · subst hij
        simp [hdup, hpos, hidx]
      · have hji : ¬ j = i := fun h => hij h.symm
        simp [hij, hji, hidx]
    · rw [if_neg hpos]
      rw [hnamed]
      simp [hpos]

theorem bookMissedFill_poolPos (u : OmsUpdate) : (bookMissedFill cfg d u).poolPos = d.poolPos := by
  unfold bookMissedFill
  split
  · rfl
  · split
    · rfl
    · exact noteHeld_poolPos ..

theorem bookMissedFill_qty (u : OmsUpdate) : ((bookMissedFill cfg d u).positions.pos i).qty =
      (d.positions.pos i).qty + movedQty cfg i (.missed u) := by
  unfold bookMissedFill movedQty moved
  by_cases hzero : u.missedQty = 0
  · simp [hzero]
  rw [if_neg hzero]
  cases hidx : cfg.instruments.index u.order.instrument with
  | none => simp [hidx]
  | some j =>
    rw [noteHeld_positions]
    rw [onFill_qty]
    by_cases hij : i = j
    · subst hij
      simp [hzero, hidx]
    · have hji : ¬ j = i := fun h => hij h.symm
      simp [hij, hji, hidx]

/-- A message that is no report of the instrument moves its position by what it
books there, and no report of its accounts. -/
theorem step_moved {op : Op} (h : reports cfg i op = none) :
    ((step cfg d op).positions.pos i).qty = (d.positions.pos i).qty + movedQty cfg i op ∧
      row (step cfg d op) i = row d i := by
  cases op with
  | fill f u =>
    refine ⟨bookFill_qty d f u, ?_⟩
    unfold row step
    rw [bookFill_poolPos]
  | missed u =>
    refine ⟨bookMissedFill_qty d u, ?_⟩
    unfold row step
    rw [bookMissedFill_poolPos]
  | report id account qty avgPx =>
    have hzero : movedQty cfg i (.report id account qty avgPx) = 0 := rfl
    rw [hzero, Int.add_zero]
    simp only [step, onPositionUpdate]
    cases hidx : cfg.instruments.index id with
    | none => exact ⟨rfl, rfl⟩
    | some j =>
      -- Another instrument's report.
      have hij : i ≠ j := by
        intro hij
        simp [reports, hidx, hij] at h
      unfold setReportedPosition
      dsimp only
      split
      · exact ⟨by rw [set_qty, if_neg hij], rfl⟩
      split
      · exact ⟨by rw [set_qty, if_neg hij], rfl⟩
      · refine ⟨by rw [set_qty, if_neg hij], ?_⟩
        unfold row putAt
        simp [update_of_ne hij]

/-- The accounts' rows hold their last reports. -/
def Tracks (cfg : DeskConfig) (i : Fin kMaxInstruments) (d : PositionDesk)
    (v : VenueId → View) : Prop :=
  ∀ k a, (accounts cfg i)[k]? = some a →
    (row d i k).reported = (v a).reported.isSome ∧ (row d i k).qty = (v a).reported.getD 0

/-- The loop of `set_reported_position` adds up the reports. -/
theorem foldl_add_sum (p : Nat → PoolPosition) (l : List Nat) (a : PoolSum) :
    (l.foldl (fun a m => a.add (p m)) a).sum =
      a.sum + (l.map (fun m => if (p m).reported then (p m).qty else 0)).sum := by
  induction l generalizing a with
  | nil => simp
  | cons m l ih =>
    rw [foldl_cons, ih, map_cons, sum_cons]
    unfold PoolSum.add
    cases hrep : (p m).reported with
    | false => simp
    | true =>
      simp only [if_true]
      linarith

/-- A report of one of the accounts makes the position the sum of the reports. -/
theorem step_report {d : PositionDesk} {v : VenueId → View} {op : Op} {a : VenueId} {q : Qty}
    (hpool : cfg.pools.pooled (cfg.instruments.inst i).venue = true)
    (hop : reports cfg i op = some (a, q)) (ha : a ∈ accounts cfg i) (ht : Tracks cfg i d v) :
    Tracks cfg i (step cfg d op) (viewStep cfg i v op) ∧
      ((step cfg d op).positions.pos i).qty =
        ((accounts cfg i).map (fun b => ((viewStep cfg i v op) b).reported.getD 0)).sum := by
  have hview : viewStep cfg i v op = update v a ⟨some q, 0⟩ := by
    unfold viewStep
    rw [hop]
  rw [hview]
  cases op with
  | fill f u => exact absurd hop (by simp [reports])
  | missed u => exact absurd hop (by simp [reports])
  | report id account qty avgPx =>
    simp only [reports] at hop
    split at hop
    case isFalse => nomatch hop
    case isTrue hidx =>
      cases hop
      obtain ⟨k, hk, hka⟩ := lastIndex_of_mem ha
      have hnodup : (accounts cfg i).Nodup := members_nodup _ _
      simp only [step, onPositionUpdate, hidx, setReportedPosition]
      rw [if_neg (by rw [hpool]; decide)]
      rw [show lastIndex (cfg.pools.members (cfg.instruments.inst i).venue) a = some k from hk]
      -- The row after the write, index by index.
      have hrow : ∀ m b, (accounts cfg i)[m]? = some b →
          (putAt (d.poolPos.getD (fun _ _ => {})) i k ⟨q, avgPx, true⟩ i m).reported =
            ((update v a ⟨some q, 0⟩ : VenueId → View) b).reported.isSome ∧
          (putAt (d.poolPos.getD (fun _ _ => {})) i k ⟨q, avgPx, true⟩ i m).qty =
            ((update v a ⟨some q, 0⟩ : VenueId → View) b).reported.getD 0 := by
        intro m b hmb
        unfold putAt
        rw [update_self]
        by_cases hmk : m = k
        · subst hmk
          have hab : b = a := Option.some.inj (hmb.symm.trans hka)
          subst hab
          simp
        have hba : b ≠ a := by
          intro hba
          subst hba
          have hm := (List.getElem?_eq_some_iff.mp hmb)
          have hk' := (List.getElem?_eq_some_iff.mp hka)
          exact hmk ((List.Nodup.getElem_inj_iff hnodup).mp (hm.2.trans hk'.2.symm))
        rw [update_of_ne hmk, update_of_ne hba]
        exact ht m b hmb
      refine ⟨hrow, ?_⟩
      rw [set_qty, if_pos rfl, foldl_add_sum]
      rw [show (({} : PoolSum).sum) = 0 from rfl, Int.zero_add]
      apply sum_range_map
      intro m b hmb
      obtain ⟨hrep, hqty⟩ := hrow m b hmb
      rw [hrep, hqty]
      cases (update v a ⟨some q, 0⟩ : VenueId → View) b |>.reported <;> simp

end Steps

/-! ## Runs of a pool -/

/-- A term moved by `x` moves the sum over distinct elements by `x`. -/
theorem sum_map_add_single {α : Type} [DecidableEq α] {l : List α} (hl : l.Nodup) {a : α}
    (ha : a ∈ l) (g : α → Int) (x : Int) :
    (l.map (fun b => g b + if b = a then x else 0)).sum = (l.map g).sum + x := by
  induction l with
  | nil => nomatch ha
  | cons b l ih =>
    rw [nodup_cons] at hl
    rw [map_cons, sum_cons, map_cons, sum_cons]
    by_cases hba : b = a
    · subst hba
      -- Nothing else in the list is `b`.
      have hrest : l.map (fun c => g c + if c = b then x else 0) = l.map g := by
        apply map_congr_left
        intro c hc
        have hcb : c ≠ b := fun h => hl.1 (h ▸ hc)
        rw [if_neg hcb, Int.add_zero]
      rw [hrest, if_pos rfl]
      omega
    · have hmem : a ∈ l := by
        rcases mem_cons.mp ha with h | h
        · exact absurd h.symm hba
        · exact h
      rw [ih hl.2 hmem, if_neg hba]
      omega

section PoolRuns

variable {cfg : DeskConfig} {i : Fin kMaxInstruments}
variable {op : Op}

theorem run_append (ops : List Op) (op : Op) :
    run cfg (ops ++ [op]) = step cfg (run cfg ops) op := by
  simp [run]

theorem views_append (ops : List Op) (op : Op) :
    views cfg i (ops ++ [op]) = viewStep cfg i (views cfg i ops) op := by
  simp [views]

theorem viewStep_moved_reported {v : VenueId → View} (h : reports cfg i op = none)
    (b : VenueId) : (viewStep cfg i v op b).reported = (v b).reported := by
  unfold viewStep
  rw [h]
  cases moved cfg i op with
  | none => rfl
  | some ax =>
    dsimp only
    by_cases hb : b = ax.1
    · rw [hb, update_self]
    · rw [update_of_ne hb]

/-- The rows hold the reports throughout. -/
theorem run_tracks (hpool : cfg.pools.pooled (cfg.instruments.inst i).venue = true)
    (ops : List Op) (hops : ∀ op ∈ ops, OnPool cfg i op) :
    Tracks cfg i (run cfg ops) (views cfg i ops) := by
  induction ops using List.reverseRecOn with
  | nil =>
    intro k a _
    exact ⟨rfl, rfl⟩
  | append_singleton ops op ih =>
    have hpre : ∀ op ∈ ops, OnPool cfg i op :=
      fun o ho => hops o (mem_append_left _ ho)
    have hop := hops op (by simp)
    rw [run_append, views_append]
    cases hrep : reports cfg i op with
    | none =>
      intro k a hka
      rw [(step_moved _ hrep).2, viewStep_moved_reported hrep]
      exact ih hpre k a hka
    | some aq =>
      obtain ⟨a, q⟩ := aq
      exact (step_report hpool hrep (hop.2 a q hrep) (ih hpre)).1

/-- Off reports, the position and the accounts' sum move together. -/
theorem accountSum_moved {v : VenueId → View} (h : reports cfg i op = none)
    (hop : OnPool cfg i op) :
    accountSum cfg i (viewStep cfg i v op) = accountSum cfg i v + movedQty cfg i op := by
  have hview : ∀ b, (viewStep cfg i v op b).since =
      (v b).since + match moved cfg i op with
        | some (a, x) => if b = a then x else 0
        | none => 0 := by
    intro b
    unfold viewStep
    rw [h]
    cases moved cfg i op with
    | none => simp
    | some ax =>
      obtain ⟨a, x⟩ := ax
      by_cases hb : b = a
      · subst hb
        simp
      · simp [hb]
  unfold accountSum movedQty
  have hterms : (accounts cfg i).map (fun b => (viewStep cfg i v op b).reported.getD 0 +
      (viewStep cfg i v op b).since) = (accounts cfg i).map (fun b =>
        ((v b).reported.getD 0 + (v b).since) + match moved cfg i op with
          | some (a, x) => if b = a then x else 0
          | none => 0) := by
    apply map_congr_left
    intro b _
    rw [viewStep_moved_reported h, hview, Int.add_assoc]
  rw [hterms]
  cases hmoved : moved cfg i op with
  | none => simp
  | some ax =>
    obtain ⟨a, x⟩ := ax
    exact sum_map_add_single (members_nodup _ _) (hop.1 a x hmoved) _ x

/-- After a report the accounts' sum is the reports and the others' fills. -/
theorem accountSum_report {v : VenueId → View} {a : VenueId} {q : Qty}
    (h : reports cfg i op = some (a, q)) :
    accountSum cfg i (viewStep cfg i v op) =
      ((accounts cfg i).map (fun b => (viewStep cfg i v op b).reported.getD 0)).sum +
        othersSince cfg i v a := by
  have hview : viewStep cfg i v op = update v a ⟨some q, 0⟩ := by
    unfold viewStep
    rw [h]
  unfold accountSum othersSince
  rw [hview, sum_map_add]
  congr 2
  apply map_congr_left
  intro b _
  by_cases hb : b = a
  · subst hb
    simp
  · simp [hb]

theorem position_eq_iff_of_report (hpool : cfg.pools.pooled (cfg.instruments.inst i).venue = true)
    {ops : List Op} {a : VenueId} {q : Qty}
    (hops : ∀ o ∈ ops ++ [op], OnPool cfg i o) (h : reports cfg i op = some (a, q)) :
    ((run cfg (ops ++ [op])).positions.pos i).qty = accountSum cfg i (views cfg i (ops ++ [op])) ↔
      othersSince cfg i (views cfg i ops) a = 0 := by
  have htracks := run_tracks hpool ops (fun o ho => hops o (mem_append_left _ ho))
  have hstep := (step_report hpool h ((hops op (by simp)).2 a q h) htracks).2
  rw [run_append, views_append, hstep, accountSum_report h]
  constructor
  · intro heq
    linarith
  · intro hzero
    rw [hzero, Int.add_zero]

/-- On an account pool the tracked position is the sum over the accounts of the last
report and what was filled since, at every point of a run where all have reported,
exactly when no report comes in while the other accounts have fills, in sum, that
their own last reports do not count. -/
theorem pooled_position_iff (cfg : DeskConfig) (i : Fin kMaxInstruments)
    (hpool : cfg.pools.pooled (cfg.instruments.inst i).venue = true)
    (ops : List Op) (hops : ∀ op ∈ ops, OnPool cfg i op) :
    (∀ pre, pre <+: ops → AllReported cfg i (views cfg i pre) →
      ((run cfg pre).positions.pos i).qty = accountSum cfg i (views cfg i pre)) ↔
    (∀ pre op a q, pre ++ [op] <+: ops → reports cfg i op = some (a, q) →
      AllReported cfg i (views cfg i (pre ++ [op])) →
        othersSince cfg i (views cfg i pre) a = 0) := by
  constructor
  · intro hall pre op a q hpre hrep hreported
    have hsub : ∀ o ∈ pre ++ [op], OnPool cfg i o := fun o ho => hops o (hpre.subset ho)
    exact (position_eq_iff_of_report hpool hsub hrep).mp (hall _ hpre hreported)
  intro hcond pre
  induction pre using List.reverseRecOn with
  | nil =>
    -- Before the first message no account has reported.
    intro _ hreported
    have hne := members_ne_nil (p := cfg.pools) (valid_of_pooled hpool)
    obtain ⟨a, ha⟩ := exists_mem_of_ne_nil _ hne
    exact absurd (hreported a ha) (by simp [views])
  | append_singleton pre op ih =>
    intro hpre hreported
    have hsub : ∀ o ∈ pre ++ [op], OnPool cfg i o := fun o ho => hops o (hpre.subset ho)
    cases hrep : reports cfg i op with
    | some aq =>
      obtain ⟨a, q⟩ := aq
      exact (position_eq_iff_of_report hpool hsub hrep).mpr (hcond pre op a q hpre hrep hreported)
    | none =>
      have hreported' : AllReported cfg i (views cfg i pre) := by
        intro a ha
        have h := hreported a ha
        rw [views_append, viewStep_moved_reported hrep] at h
        exact h
      have hpos := ih ((prefix_append pre [op]).trans hpre) hreported'
      rw [run_append, views_append, (step_moved _ hrep).1, hpos,
        accountSum_moved hrep (hsub op (by simp))]

end PoolRuns

/-! ## Two accounts -/

/-- A pool of the primary 0 and the member 1, with one instrument. -/
def twoAccounts : DeskConfig where
  instruments := ⟨1, Nat.pos_of_neZero _, fun _ => { venue := ⟨0⟩ }⟩
  pools :=
    { primaryOf := fun v => if v = 1 then ⟨0⟩ else .invalid
      active := true
      irrefl := by
        intro v
        by_cases hv : v = 1
        · subst hv
          exact .inl (by decide)
        · exact .inr (if_neg hv) }

/-- Both accounts report flat, the member buys 5, and the primary reports again. -/
def reportAfterFill : List Op :=
  [.report ⟨0⟩ ⟨0⟩ 0 0, .report ⟨0⟩ ⟨1⟩ 0 0, .fill { clOrdId := ⟨7⟩, qty := 5, price := 100 }
      { order := { instrument := ⟨0⟩, venue := ⟨1⟩, side := .buy } },
    .report ⟨0⟩ ⟨0⟩ 0 0]

instance (cfg : DeskConfig) (i : Fin kMaxInstruments) (v : VenueId → View) :
    Decidable (AllReported cfg i v) := by
  unfold AllReported
  infer_instance

theorem onPool_of_members {cfg : DeskConfig} {i : Fin kMaxInstruments} {op : Op}
    (hm : ((moved cfg i op).map Prod.fst).all (fun a => decide (a ∈ accounts cfg i)) = true)
    (hr : ((reports cfg i op).map Prod.fst).all (fun a => decide (a ∈ accounts cfg i)) = true) :
    OnPool cfg i op := by
  constructor
  · intro a x h
    rw [h] at hm
    exact of_decide_eq_true hm
  · intro a q h
    rw [h] at hr
    exact of_decide_eq_true hr

theorem reportAfterFill_onPool : ∀ op ∈ reportAfterFill, OnPool twoAccounts 0 op := by
  intro op hop
  simp only [reportAfterFill, mem_cons, not_mem_nil, or_false] at hop
  rcases hop with rfl | rfl | rfl | rfl <;> exact onPool_of_members (by decide) (by decide)

/-- The member's fill is gone after the primary's report. -/
theorem pooled_position_drops_fill :
    twoAccounts.pools.pooled (twoAccounts.instruments.inst 0).venue = true ∧
    (∀ op ∈ reportAfterFill, OnPool twoAccounts 0 op) ∧
    AllReported twoAccounts 0 (views twoAccounts 0 reportAfterFill) ∧
    ((run twoAccounts reportAfterFill).positions.pos 0).qty = 0 ∧
    accountSum twoAccounts 0 (views twoAccounts 0 reportAfterFill) = 5 :=
  ⟨by decide, reportAfterFill_onPool, by decide, by decide, by decide⟩

theorem pooled_position_iff_two_accounts :
    (∀ pre, pre <+: reportAfterFill → AllReported twoAccounts 0 (views twoAccounts 0 pre) →
      ((run twoAccounts pre).positions.pos 0).qty =
        accountSum twoAccounts 0 (views twoAccounts 0 pre)) ↔
    (∀ pre op a q, pre ++ [op] <+: reportAfterFill → reports twoAccounts 0 op = some (a, q) →
      AllReported twoAccounts 0 (views twoAccounts 0 (pre ++ [op])) →
        othersSince twoAccounts 0 (views twoAccounts 0 pre) a = 0) :=
  pooled_position_iff twoAccounts 0 (by decide) reportAfterFill reportAfterFill_onPool

end PositionDesk

end FastMM
