/-
  Sim/AccountHolds.lean --- the account holds what its open orders need.

  Source: `src/sim/sim_account.cpp` (`admit`, `admit_replace`, `fill`, `close`,
  `relock`).

  A spot row moves by what each hold gains or gives back, a settlement row is taken
  again from its instruments.  Each is right as long as a row is only the one or the
  other: `relock` on a row that spot orders draw on as well drops what they hold.
-/
import FastMM.Sim.Accounts
import Mathlib.Tactic.Abel
set_option autoImplicit false

namespace FastMM.Sim.SimAccounts

open Foundation KeyedTable List Option

/-! ## Rows and holds -/

variable (s : SimAccounts)
variable (row : Nat)

/-- Orders of the spot instrument draw on the row. -/
def drawsOn (p : Nat × Nat) : Bool :=
  (s.inst p.1 p.2).on && !(s.inst p.1 p.2).derivative &&
    (decide ((s.inst p.1 p.2).quote = some row) || decide ((s.inst p.1 p.2).base = some row))

/-- The row is a spot instrument's. -/
def SpotRow : Prop := ∃ p ∈ s.places, s.drawsOn row p = true

/-- The row is the settlement row of a derivative. -/
def SettleRow : Prop := ∃ p ∈ s.places, s.settlesIn row p = true

/-- No row is both. -/
def Unmixed : Prop := ∀ row, s.SpotRow row → ¬s.SettleRow row

/-- The row a hold draws on. -/
def drawn (h : SimHold) : Option Nat :=
  if (s.inst h.slot h.inst).derivative then none else (s.inst h.slot h.inst).spotRow h.side

/-- The sum of the open holds that draw on the row. -/
def spotHeld : Int :=
  s.holds.total fun _ h => if s.drawn h = some row then h.amount else 0

/-- The sum of an instrument's open holds on one side. -/
def sideHeld (k id : Nat) (side : Side) : Int :=
  s.holds.total fun _ h => if h.slot = k ∧ h.inst = id ∧ h.side = side then h.amount else 0

/-- The sum of what the row's instruments lock. -/
def marginOfRow : Int :=
  ((s.places.filter (s.settlesIn row)).map fun p => (s.inst p.1 p.2).margin).sum

/-- What the account holds is what its open orders and positions need. -/
structure Sound (s : SimAccounts) : Prop where
  slots : ∀ v k, s.slotOfVenue v = some k → k < s.nSlots
  placed : ∀ id h, s.holds.find id = some h →
    (h.slot, h.inst) ∈ s.places ∧ (s.inst h.slot h.inst).on = true
  spot : ∀ r, ¬s.SettleRow r → (s.rows r).locked = s.spotHeld r
  side : ∀ k id, (s.inst k id).derivative = true →
    ∀ side, (s.inst k id).sideHold side = s.sideHeld k id side
  settle : ∀ r, s.SettleRow r → (s.rows r).locked = s.marginOfRow r

theorem mem_places {s : SimAccounts} {p : Nat × Nat} :
    p ∈ s.places ↔ p.1 < s.nSlots ∧ p.2 < s.nInst := by
  unfold places
  rw [mem_flatMap]
  constructor
  · rintro ⟨k, hk, hp⟩
    obtain ⟨i, hi, rfl⟩ := mem_map.mp hp
    exact ⟨mem_range.mp hk, mem_range.mp hi⟩
  · rintro ⟨hk, hi⟩
    exact ⟨p.1, mem_range.mpr hk, mem_map.mpr ⟨p.2, mem_range.mpr hi, rfl⟩⟩

/-! ## What no call changes -/

/-- The parts of the tables the constructor set. -/
structure SameConfig (s t : SimAccounts) : Prop where
  instruments : t.instruments = s.instruments
  slotOfVenue : t.slotOfVenue = s.slotOfVenue
  nSlots : t.nSlots = s.nSlots
  on : ∀ k id, (t.inst k id).on = (s.inst k id).on
  derivative : ∀ k id, (t.inst k id).derivative = (s.inst k id).derivative
  base : ∀ k id, (t.inst k id).base = (s.inst k id).base
  quote : ∀ k id, (t.inst k id).quote = (s.inst k id).quote
  settle : ∀ k id, (t.inst k id).settle = (s.inst k id).settle

namespace SameConfig

variable {s t u : SimAccounts}

theorem refl (s : SimAccounts) : SameConfig s s :=
  ⟨rfl, rfl, rfl, fun _ _ => rfl, fun _ _ => rfl, fun _ _ => rfl, fun _ _ => rfl, fun _ _ => rfl⟩

theorem trans (h : SameConfig s t) (k : SameConfig t u) : SameConfig s u where
  instruments := k.instruments.trans h.instruments
  slotOfVenue := k.slotOfVenue.trans h.slotOfVenue
  nSlots := k.nSlots.trans h.nSlots
  on a b := (k.on a b).trans (h.on a b)
  derivative a b := (k.derivative a b).trans (h.derivative a b)
  base a b := (k.base a b).trans (h.base a b)
  quote a b := (k.quote a b).trans (h.quote a b)
  settle a b := (k.settle a b).trans (h.settle a b)

/-- A change that leaves the instruments' states. -/
theorem of_inst (hi : t.instruments = s.instruments) (hv : t.slotOfVenue = s.slotOfVenue)
    (hn : t.nSlots = s.nSlots) (h : t.inst = s.inst) : SameConfig s t := by
  refine ⟨hi, hv, hn, ?_, ?_, ?_, ?_, ?_⟩
  all_goals
    intro k id
    rw [h]

section

variable (h : SameConfig s t)
include h

theorem places : t.places = s.places := by
  unfold SimAccounts.places nInst
  rw [h.nSlots, h.instruments]

theorem settlesIn (r : Nat) : t.settlesIn r = s.settlesIn r := by
  funext p
  unfold SimAccounts.settlesIn
  rw [h.on, h.derivative, h.settle]

theorem drawsOn (r : Nat) : t.drawsOn r = s.drawsOn r := by
  funext p
  unfold SimAccounts.drawsOn
  rw [h.on, h.derivative, h.quote, h.base]

theorem settleRow (r : Nat) : t.SettleRow r ↔ s.SettleRow r := by
  unfold SettleRow
  rw [h.places, h.settlesIn]

theorem spotRow (r : Nat) : t.SpotRow r ↔ s.SpotRow r := by
  unfold SpotRow
  rw [h.places, h.drawsOn]

theorem unmixed (hs : s.Unmixed) : t.Unmixed := by
  intro r hspot hsettle
  exact hs r ((h.spotRow r).mp hspot) ((h.settleRow r).mp hsettle)

theorem drawn (o : SimHold) : t.drawn o = s.drawn o := by
  unfold SimAccounts.drawn SimInst.spotRow
  rw [h.derivative, h.quote, h.base]

end

end SameConfig

/-! ## What a change of the holds brings -/

variable {o : SimHold}
variable {d : Int}

/-- A condition on a hold that its amount and leaves do not enter. -/
def Fixed (P : SimHold → Prop) : Prop :=
  ∀ h a l, P { h with amount := a, leaves := l } ↔ P h

/-- The holds of `t` are those of `s` with `d` more for the order of hold `o`. -/
structure Reheld (s t : SimAccounts) (o : SimHold) (d : Int) : Prop where
  config : SameConfig s t
  total : ∀ (P : SimHold → Prop) [DecidablePred P], Fixed P →
    (t.holds.total fun _ h => if P h then h.amount else 0) =
      (s.holds.total fun _ h => if P h then h.amount else 0) + if P o then d else 0
  placed : ∀ id h, t.holds.find id = some h →
    (h.slot, h.inst) ∈ t.places ∧ (t.inst h.slot h.inst).on = true

theorem fixed_drawn (s : SimAccounts) (r : Nat) : Fixed fun h => s.drawn h = some r :=
  fun _ _ _ => Iff.rfl

theorem fixed_side (k id : Nat) (side : Side) :
    Fixed fun h => h.slot = k ∧ h.inst = id ∧ h.side = side :=
  fun _ _ _ => Iff.rfl

theorem Reheld.spotHeld {s t : SimAccounts} (h : Reheld s t o d)
    (r : Nat) : t.spotHeld r = s.spotHeld r + if s.drawn o = some r then d else 0 := by
  have htotal := h.total (fun h => s.drawn h = some r) (fixed_drawn s r)
  rw [← SimAccounts.spotHeld] at htotal
  rw [← htotal]
  unfold SimAccounts.spotHeld
  simp only [h.config.drawn]

theorem Reheld.sideHeld {s t : SimAccounts} (h : Reheld s t o d)
    (k id : Nat) (side : Side) : t.sideHeld k id side =
      s.sideHeld k id side + if o.slot = k ∧ o.inst = id ∧ o.side = side then d else 0 :=
  h.total _ (fixed_side k id side)

section

variable {s t : SimAccounts} (hs : s.Sound)
include hs

/-- The account after a spot order's hold changed: its row moved with it. -/
theorem Sound.spotMove
    (hmix : s.Unmixed) (h : Reheld s t o d) (hplace : (o.slot, o.inst) ∈ s.places)
    (hon : (s.inst o.slot o.inst).on = true)
    (hspot : (s.inst o.slot o.inst).derivative = false) (hinst : t.inst = s.inst)
    (hrows : ∀ r, (t.rows r).locked =
      (s.rows r).locked + if (s.inst o.slot o.inst).spotRow o.side = some r then d else 0) :
    t.Sound := by
  have hdrawn : s.drawn o = (s.inst o.slot o.inst).spotRow o.side := by
    unfold drawn
    rw [hspot]
    rfl
  refine ⟨?_, h.placed, ?_, ?_, ?_⟩
  · rw [h.config.slotOfVenue, h.config.nSlots]
    exact hs.slots
  · intro r hr
    rw [hrows, h.spotHeld, hdrawn, hs.spot r (mt (h.config.settleRow r).mpr hr)]
  · intro k id hderivative side
    rw [hinst] at hderivative ⊢
    have hother : ¬(o.slot = k ∧ o.inst = id ∧ o.side = side) := by
      rintro ⟨rfl, rfl, -⟩
      simp [hspot] at hderivative
    rw [h.sideHeld, if_neg hother, add_zero, hs.side k id hderivative side]
  intro r hr
  have hsettle := (h.config.settleRow r).mp hr
  have hother : ¬(s.inst o.slot o.inst).spotRow o.side = some r := by
    intro hrow
    refine hmix r ⟨(o.slot, o.inst), hplace, ?_⟩ hsettle
    unfold drawsOn
    cases hside : o.side with
    | buy =>
      rw [hside] at hrow
      have hquote : (s.inst o.slot o.inst).quote = some r := hrow
      simp [hon, hspot, hquote]
    | sell =>
      rw [hside] at hrow
      have hbase : (s.inst o.slot o.inst).base = some r := hrow
      simp [hon, hspot, hbase]
  rw [hrows, if_neg hother, add_zero, hs.settle r hsettle]
  unfold marginOfRow
  rw [h.config.places, h.config.settlesIn, hinst]

/-- The account after a derivative order's hold changed: its settlement row was taken
again. -/
theorem Sound.sideMove
    (h : Reheld s t o d) (hplace : (o.slot, o.inst) ∈ s.places)
    (hon : (s.inst o.slot o.inst).on = true)
    (hderivative : (s.inst o.slot o.inst).derivative = true)
    (hinst : ∀ k id, (k, id) ≠ (o.slot, o.inst) → t.inst k id = s.inst k id)
    (hside : ∀ side, (t.inst o.slot o.inst).sideHold side =
      (s.inst o.slot o.inst).sideHold side + if o.side = side then d else 0)
    (hrows : ∀ r, (t.rows r).locked =
      if (s.inst o.slot o.inst).settle = some r then t.marginOfRow r else (s.rows r).locked) :
    t.Sound := by
  have hdrawn : s.drawn o = none := by
    unfold drawn
    rw [hderivative]
    rfl
  refine ⟨?_, h.placed, ?_, ?_, ?_⟩
  · rw [h.config.slotOfVenue, h.config.nSlots]
    exact hs.slots
  · intro r hr
    have hnot := mt (h.config.settleRow r).mpr hr
    have hother : ¬(s.inst o.slot o.inst).settle = some r := by
      intro hrow
      refine hnot ⟨(o.slot, o.inst), hplace, ?_⟩
      unfold settlesIn
      simp [hon, hderivative, hrow]
    rw [hrows, if_neg hother, h.spotHeld, hdrawn, if_neg (by simp), add_zero]
    exact hs.spot r hnot
  · intro k id hder side
    by_cases hk : (k, id) = (o.slot, o.inst)
    · obtain ⟨rfl, rfl⟩ := Prod.mk.inj hk
      rw [hside, h.sideHeld, hs.side _ _ hderivative]
      simp
    · rw [hinst k id hk] at hder ⊢
      have hother : ¬(o.slot = k ∧ o.inst = id ∧ o.side = side) := by
        rintro ⟨rfl, rfl, -⟩
        exact hk rfl
      rw [h.sideHeld, if_neg hother, add_zero, hs.side k id hder]
  · intro r hr
    rw [hrows]
    split_ifs with hother
    · rfl
    rw [hs.settle r ((h.config.settleRow r).mp hr)]
    unfold marginOfRow
    rw [h.config.places, h.config.settlesIn]
    congr 1
    refine map_congr_left fun p hp => ?_
    have hsettles := (mem_filter.mp hp).2
    rw [hinst p.1 p.2]
    intro hsame
    refine hother ?_
    obtain ⟨h1, h2⟩ := Prod.mk.inj hsame
    unfold settlesIn at hsettles
    rw [h1, h2] at hsettles
    simp only [Bool.and_eq_true, decide_eq_true_eq] at hsettles
    exact hsettles.2

/-- A change of no amount, with the rows and instruments as they were. -/
theorem Sound.still (h : Reheld s t o 0)
    (hinst : t.inst = s.inst) (hrows : t.rows = s.rows) : t.Sound := by
  refine ⟨?_, h.placed, ?_, ?_, ?_⟩
  · rw [h.config.slotOfVenue, h.config.nSlots]
    exact hs.slots
  · intro r hr
    rw [hrows, h.spotHeld, ite_self, add_zero, hs.spot r (mt (h.config.settleRow r).mpr hr)]
  · intro k id hderivative side
    rw [hinst] at hderivative ⊢
    rw [h.sideHeld, ite_self, add_zero, hs.side k id hderivative side]
  · intro r hr
    rw [hrows, hs.settle r ((h.config.settleRow r).mp hr)]
    unfold marginOfRow
    rw [h.config.places, h.config.settlesIn, hinst]

end

section Reholds

variable {s t : SimAccounts} {id : Nat} {o : SimHold}

theorem reheld_erase (hs : s.Sound) (ho : s.holds.find id = some o) (hc : SameConfig s t)
    (h : t.holds = s.holds.erase id) : Reheld s t o (-o.amount) := by
  refine ⟨hc, ?_, ?_⟩
  · intro P _ _
    rw [h, total_erase ho, sub_eq_add_neg]
    congr 1
    split
    · rfl
    · exact neg_zero
  · intro id' h' hfind
    rw [h, find_erase] at hfind
    split at hfind
    · cases hfind
    · rw [hc.places, hc.on]
      exact hs.placed id' h' hfind

theorem reheld_insert (hs : s.Sound) (hnone : s.holds.find id = none)
    (hroom : s.holds.size < kMaxHolds) (hc : SameConfig s t)
    (hplace : (o.slot, o.inst) ∈ s.places) (hon : (s.inst o.slot o.inst).on = true)
    (h : t.holds = s.holds.insert kMaxHolds id o) : Reheld s t o o.amount := by
  have hadd : t.holds = s.holds.add id o hnone := by
    rw [h]
    unfold KeyedTable.insert
    rw [dif_pos hnone, if_pos hroom]
  refine ⟨hc, ?_, ?_⟩
  · intro P _ _
    rw [hadd, total_add]
  intro id' h' hfind
  rw [hc.places, hc.on]
  rw [hadd, find_add] at hfind
  split at hfind
  · rw [← Option.some.inj hfind]
    exact ⟨hplace, hon⟩
  · exact hs.placed id' h' hfind

theorem reheld_modify (hs : s.Sound) (ho : s.holds.find id = some o) (hc : SameConfig s t)
    (a : Int) (l : Qty)
    (h : t.holds = s.holds.modify id fun h => { h with amount := a, leaves := l }) :
    Reheld s t o (a - o.amount) := by
  refine ⟨hc, ?_, ?_⟩
  · intro P _ hP
    rw [h, total_modify ho]
    by_cases ho' : P o
    · rw [if_pos ho', if_pos ((hP o a l).mpr ho'), if_pos ho']
      abel
    · rw [if_neg ho', if_neg (mt (hP o a l).mp ho'), if_neg ho']
      abel
  · intro id' h' hfind
    rw [hc.places, hc.on]
    rw [h, find_modify] at hfind
    split at hfind
    · rw [ho] at hfind
      rw [← Option.some.inj hfind]
      exact hs.placed id o ho
    · exact hs.placed id' h' hfind

end Reholds

/-! ## What each write does -/

section Writes

variable (s : SimAccounts) (r : Option Nat) (d : Int)
variable (x : Nat)

theorem config_lock : SameConfig s (s.lock r d) := by
  cases r with
  | none => exact SameConfig.refl s
  | some r => exact SameConfig.of_inst rfl rfl rfl rfl

theorem inst_lock : (s.lock r d).inst = s.inst := by
  cases r <;> rfl

theorem holds_lock : (s.lock r d).holds = s.holds := by
  cases r <;> rfl

theorem locked_lock :
    ((s.lock r d).rows x).locked = (s.rows x).locked + if r = some x then d else 0 := by
  cases r with
  | none => exact (add_zero _).symm
  | some r =>
    unfold lock modifyRow
    dsimp only
    by_cases hx : x = r
    · rw [hx, Function.update_self, if_pos rfl]
    · rw [Function.update_of_ne hx, if_neg (fun h => hx (Option.some.inj h).symm), add_zero]

theorem config_credit : SameConfig s (s.credit r d) := by
  cases r with
  | none => exact SameConfig.refl s
  | some r => exact SameConfig.of_inst rfl rfl rfl rfl

theorem inst_credit : (s.credit r d).inst = s.inst := by
  cases r <;> rfl

theorem holds_credit : (s.credit r d).holds = s.holds := by
  cases r <;> rfl

theorem locked_credit : ((s.credit r d).rows x).locked = (s.rows x).locked := by
  cases r with
  | none => rfl
  | some r =>
    unfold credit modifyRow
    dsimp only
    by_cases hx : x = r
    · rw [hx, Function.update_self]
    · rw [Function.update_of_ne hx]

theorem config_relock : SameConfig s (s.relock r) := by
  cases r with
  | none => exact SameConfig.refl s
  | some r => exact SameConfig.of_inst rfl rfl rfl rfl

theorem inst_relock : (s.relock r).inst = s.inst := by
  cases r <;> rfl

theorem holds_relock : (s.relock r).holds = s.holds := by
  cases r <;> rfl

theorem marginOfRow_relock : (s.relock r).marginOfRow x = s.marginOfRow x := by
  cases r <;> rfl

theorem locked_relock :
    ((s.relock r).rows x).locked = if r = some x then s.marginOfRow x else (s.rows x).locked := by
  cases r with
  | none => rfl
  | some r =>
    unfold relock modifyRow
    dsimp only
    by_cases hx : x = r
    · rw [hx, Function.update_self, if_pos rfl]
      rfl
    · rw [Function.update_of_ne hx, if_neg fun h => hx (Option.some.inj h).symm]

variable (k id : Nat)

theorem inst_setInst_self (i : SimInst) : (s.setInst k id i).inst k id = i := by
  unfold setInst
  dsimp only
  rw [Function.update_self, Function.update_self]

theorem inst_setInst_of_ne (i : SimInst) {a b : Nat} (h : (a, b) ≠ (k, id)) :
    (s.setInst k id i).inst a b = s.inst a b := by
  unfold setInst
  dsimp only
  by_cases ha : a = k
  · have hb : b ≠ id := fun hb => h (by rw [ha, hb])
    rw [ha, Function.update_self, Function.update_of_ne hb]
  · rw [Function.update_of_ne ha]

/-- Writing the parts of an instrument's state no configuration is in. -/
theorem config_setInst {i : SimInst} (hon : i.on = (s.inst k id).on)
    (hderivative : i.derivative = (s.inst k id).derivative) (hbase : i.base = (s.inst k id).base)
    (hquote : i.quote = (s.inst k id).quote) (hsettle : i.settle = (s.inst k id).settle) :
    SameConfig s (s.setInst k id i) := by
  refine ⟨rfl, rfl, rfl, ?_, ?_, ?_, ?_, ?_⟩
  all_goals
    intro a b
    by_cases h : (a, b) = (k, id)
    · obtain ⟨rfl, rfl⟩ := Prod.mk.inj h
      rw [inst_setInst_self]
      assumption
    · rw [inst_setInst_of_ne s k id i h]

theorem config_addSideHold (side : Side) : SameConfig s (s.addSideHold k id side d) :=
  config_setInst s k id rfl rfl rfl rfl rfl

end Writes

variable {x : SimHold}
variable {venue : VenueId}
variable {px : Price}
variable {instruments : List AccountInstrument}
variable {qty : Qty}
variable {accounts : List SimAccountConfig}
variable {replaces : ClientOrderId}
variable {initialMargin : List Int}

theorem Reheld.of_holds {s t u : SimAccounts} {o : SimHold} {d : Int} (h : Reheld s t o d)
    (hc : SameConfig t u) (hh : u.holds = t.holds) : Reheld s u o d := by
  refine ⟨h.config.trans hc, ?_, ?_⟩
  · intro P _ hP
    rw [hh]
    exact h.total P hP
  · rw [hh, hc.places]
    intro id o' ho'
    rw [hc.on]
    exact h.placed id o' ho'

/-- The rows follow a change of the holds: a spot row by the change itself, a
settlement row by being taken again. -/
theorem Sound.moved {s t : SimAccounts} {o : SimHold} {d : Int} (hs : s.Sound) (hmix : s.Unmixed)
    (h : Reheld s t o d) (hinst : t.inst = s.inst) (hrows : t.rows = s.rows)
    (hplace : (o.slot, o.inst) ∈ s.places) (hon : (s.inst o.slot o.inst).on = true) :
    let u := if (s.inst o.slot o.inst).derivative = false then
        t.lock ((s.inst o.slot o.inst).spotRow o.side) d
      else (t.addSideHold o.slot o.inst o.side d).relock (s.inst o.slot o.inst).settle
    u.Sound ∧ SameConfig s u := by
  intro u
  by_cases hspot : (s.inst o.slot o.inst).derivative = false
  · have hu : u = t.lock ((s.inst o.slot o.inst).spotRow o.side) d := if_pos hspot
    rw [hu]
    have hu' := h.of_holds (config_lock t ((s.inst o.slot o.inst).spotRow o.side) d)
      (holds_lock _ _ _)
    refine ⟨hs.spotMove hmix hu' hplace hon hspot ((inst_lock _ _ _).trans hinst) ?_, hu'.config⟩
    intro r
    rw [locked_lock, hrows]
  · have hder : (s.inst o.slot o.inst).derivative = true := Bool.of_not_eq_false hspot
    have hu : u = (t.addSideHold o.slot o.inst o.side d).relock (s.inst o.slot o.inst).settle :=
      if_neg hspot
    rw [hu]
    have hu' := h.of_holds ((config_addSideHold t d o.slot o.inst o.side).trans
      (config_relock _ (s.inst o.slot o.inst).settle)) (holds_relock _ _)
    refine ⟨hs.sideMove hu' hplace hon hder ?_ ?_ ?_, hu'.config⟩
    · intro k i hne
      rw [inst_relock, ← hinst]
      exact inst_setInst_of_ne _ _ _ _ hne
    · intro side
      rw [inst_relock, ← hinst]
      unfold addSideHold
      rw [inst_setInst_self]
      dsimp only
      by_cases hside : o.side = side
      · rw [hside, Function.update_self, if_pos rfl]
      · rw [Function.update_of_ne (Ne.symm hside), if_neg hside, add_zero]
    · intro r
      rw [locked_relock, marginOfRow_relock, ← hrows]
      rfl

/-! ## Closing, holding and filling -/

/-- The account stays sound, and its configuration the same. -/
def Keeps (s t : SimAccounts) : Prop := t.Sound ∧ SameConfig s t

/-- `admit` changes nothing, or holds the order once the one it replaces is closed. -/
theorem admitOrder_cases (s : SimAccounts) (id : ClientOrderId) (inst : Nat) (side : Side)
    (px : Price) (qty : Qty) (reduceOnly : Bool) (replaces : ClientOrderId) (venue : VenueId) :
    (s.admitOrder id inst side px qty reduceOnly replaces venue).1 = s ∨
      ∃ k s' o, s.slotOf venue inst = some k ∧ inst < s.nInst ∧ (s.inst k inst).on = true ∧
        (s' = s ∨ s' = s.close replaces) ∧ o.slot = k ∧ o.inst = inst ∧
        s.admitOrder id inst side px qty reduceOnly replaces venue = (s'.hold id o, true) := by
  unfold SimAccounts.admitOrder
  by_cases hinst : s.nInst ≤ inst
  · rw [if_pos hinst]
    exact .inl rfl
  rw [if_neg hinst]
  cases hslot : s.slotOf venue inst with
  | none => exact .inl rfl
  | some k =>
    dsimp -zeta only
    extract_lets i old oldAmount oldSide reduces amount s'
    by_cases hopen : i.on = false ∨ (s.holds.find id.value).isSome = true
    · rw [if_pos hopen]
      exact .inl rfl
    rw [if_neg hopen]
    rw [not_or] at hopen
    by_cases hshort : s.short i side oldSide amount oldAmount reduces = true
    · rw [if_pos hshort]
      exact .inl rfl
    rw [if_neg hshort]
    refine .inr ⟨k, s', _, rfl, Nat.lt_of_not_le hinst, Bool.of_not_eq_false hopen.1, ?_,
      rfl, rfl, rfl⟩
    unfold s'
    split
    · exact .inr rfl
    · exact .inl rfl

section

variable {s : SimAccounts} (hs : s.Sound)
include hs

theorem Sound.close (hmix : s.Unmixed) (id : ClientOrderId) :
    Keeps s (s.close id) := by
  unfold SimAccounts.close
  cases ho : s.holds.find id.value with
  | none => exact ⟨hs, SameConfig.refl s⟩
  | some o =>
    obtain ⟨hplace, hon⟩ := hs.placed id.value o ho
    have hc : SameConfig s { s with holds := s.holds.erase id.value } :=
      SameConfig.of_inst rfl rfl rfl rfl
    have h := reheld_erase hs ho hc rfl
    dsimp only
    by_cases hzero : o.amount = 0
    · rw [if_pos hzero]
      rw [hzero, neg_zero] at h
      exact ⟨hs.still h rfl rfl, hc⟩
    · rw [if_neg hzero]
      exact hs.moved hmix h rfl rfl hplace hon

theorem Sound.hold (hmix : s.Unmixed) (id : ClientOrderId)
    {o : SimHold} (hplace : (o.slot, o.inst) ∈ s.places)
    (hon : (s.inst o.slot o.inst).on = true) :
    Keeps s (s.hold id o) := by
  unfold SimAccounts.hold
  by_cases hfull : (s.holds.find id.value).isSome ∨ kMaxHolds ≤ s.holds.size
  · rw [if_pos hfull]
    exact ⟨hs, SameConfig.refl s⟩
  rw [if_neg hfull]
  rw [not_or] at hfull
  have hc : SameConfig s { s with holds := s.holds.insert kMaxHolds id.value o } :=
    SameConfig.of_inst rfl rfl rfl rfl
  have h := reheld_insert hs (not_isSome_iff_eq_none.mp hfull.1)
    (Nat.lt_of_not_le hfull.2) hc hplace hon rfl
  split_ifs with hzero
  · rw [hzero] at h
    exact ⟨hs.still h rfl rfl, hc⟩
  · exact hs.moved hmix h rfl rfl hplace hon

theorem Sound.lt_of_slotOf {inst k : Nat}
    (h : s.slotOf venue inst = some k) : k < s.nSlots := by
  unfold slotOf at h
  generalize (if venue.valid = true then venue else (s.instrument inst).inst.venue) = v at h
  unfold slotFor at h
  split at h
  · exact hs.slots v k h
  · cases h

theorem Sound.admitOrder (hmix : s.Unmixed) (id : ClientOrderId)
    (inst : Nat) (side : Side) (px : Price) (qty : Qty) (reduceOnly : Bool)
    (replaces : ClientOrderId) (venue : VenueId) :
    Keeps s (s.admitOrder id inst side px qty reduceOnly replaces venue).1 := by
  rcases s.admitOrder_cases id inst side px qty reduceOnly replaces venue with
    hsame | ⟨k, s', o, hslot, hinst, hon, hs', rfl, rfl, heq⟩
  · rw [hsame]
    exact ⟨hs, SameConfig.refl s⟩
  have hplace : (o.slot, o.inst) ∈ s.places := mem_places.mpr ⟨hs.lt_of_slotOf hslot, hinst⟩
  obtain ⟨hsound, hc⟩ : Keeps s s' := by
    rcases hs' with rfl | rfl
    · exact ⟨hs, SameConfig.refl s'⟩
    · exact hs.close hmix replaces
  have hheld := hsound.hold (hc.unmixed hmix) id (o := o) (by rw [hc.places]; exact hplace)
    (by rw [hc.on]; exact hon)
  rw [heq]
  exact ⟨hheld.1, hc.trans hheld.2⟩

theorem Sound.admitReplace (hmix : s.Unmixed)
    (orig id : ClientOrderId) (px : Price) (qty : Qty) :
    Keeps s (s.admitReplace orig id px qty).1 := by
  unfold SimAccounts.admitReplace
  split
  · exact ⟨hs, SameConfig.refl s⟩
  · exact hs.admitOrder hmix _ _ _ _ _ _ _ _

end

/-- A fill's hold, once the fill is booked. -/
theorem reheld_filled {s t : SimAccounts} (hs : s.Sound) {id : Nat} {o : SimHold}
    (ho : s.holds.find id = some o) (hc : SameConfig s t) (hh : t.holds = s.holds)
    {after : Int} {leaves : Qty} (hafter : ¬0 < leaves → after = 0) :
    Reheld s
      (if 0 < leaves then
        { t with holds := t.holds.modify id fun h => { h with amount := after, leaves := leaves } }
      else { t with holds := t.holds.erase id }) o (after - o.amount) := by
  split_ifs with hdone
  · refine reheld_modify hs ho ?_ after leaves ?_
    · exact hc.trans (SameConfig.of_inst rfl rfl rfl rfl)
    · rw [← hh]
  · rw [hafter hdone, zero_sub]
    refine reheld_erase hs ho ?_ ?_
    · exact hc.trans (SameConfig.of_inst rfl rfl rfl rfl)
    · rw [← hh]

/-- What the two branches of a fill do to the rows and the instruments. -/
theorem Sound.filled {s t u : SimAccounts} (hs : s.Sound) (hmix : s.Unmixed) {o : SimHold}
    {release : Int} {fee : Notional}
    (h : Reheld s t o (-release)) (hplace : (o.slot, o.inst) ∈ s.places)
    (hon : (s.inst o.slot o.inst).on = true)
    (hu : u = if (s.inst o.slot o.inst).derivative = false then s.fillSpot o release px qty fee
      else s.fillDerivative o release px qty fee)
    (hinst : t.inst = u.inst) (hrows : t.rows = u.rows)
    (hmargin : ∀ r, t.marginOfRow r = u.marginOfRow r) : t.Sound := by
  by_cases hspot : (s.inst o.slot o.inst).derivative = false
  · rw [if_pos hspot] at hu
    refine hs.spotMove hmix h hplace hon hspot ?_ ?_
    · rw [hinst, hu]
      unfold fillSpot
      rw [inst_credit, inst_credit, inst_lock]
    · intro r
      rw [hrows, hu]
      unfold fillSpot
      rw [locked_credit, locked_credit, locked_lock]
  · have hder : (s.inst o.slot o.inst).derivative = true := Bool.of_not_eq_false hspot
    rw [if_neg hspot] at hu
    refine hs.sideMove h hplace hon hder ?_ ?_ ?_
    · intro k id hne
      rw [hinst, hu]
      unfold fillDerivative
      rw [inst_relock, inst_credit, inst_setInst_of_ne _ _ _ _ hne]
      exact inst_setInst_of_ne _ _ _ _ hne
    · intro side
      rw [hinst, hu]
      unfold fillDerivative addSideHold
      rw [inst_relock, inst_credit, inst_setInst_self, inst_setInst_self]
      dsimp only
      by_cases hside : o.side = side
      · rw [hside, Function.update_self, if_pos rfl]
      · rw [Function.update_of_ne (Ne.symm hside), if_neg hside, add_zero]
    · intro r
      rw [hrows, hmargin, hu]
      unfold fillDerivative
      rw [locked_relock, marginOfRow_relock, locked_credit]
      rfl

theorem config_fillSpot (s : SimAccounts) (o : SimHold) (release : Int) (px : Price) (qty : Qty)
    (fee : Notional) : SameConfig s (s.fillSpot o release px qty fee) :=
  ((config_lock _ _ _).trans (config_credit _ _ _)).trans (config_credit _ _ _)

theorem config_fillDerivative (s : SimAccounts) (o : SimHold) (release : Int) (px : Price)
    (qty : Qty) (fee : Notional) : SameConfig s (s.fillDerivative o release px qty fee) := by
  refine SameConfig.trans ?_ (config_relock _ _)
  refine SameConfig.trans ?_ (config_credit _ _ _)
  exact (config_addSideHold _ _ _ _ _).trans (config_setInst _ _ _ rfl rfl rfl rfl rfl)

theorem Sound.fill {s : SimAccounts} (hs : s.Sound) (hmix : s.Unmixed) (id : ClientOrderId)
    (px : Price) (qty leaves : Qty) (fee : Notional) : Keeps s (s.fill id px qty leaves fee) := by
  unfold SimAccounts.fill
  cases ho : s.holds.find id.value with
  | none => exact ⟨hs, SameConfig.refl s⟩
  | some o =>
    obtain ⟨hplace, hon⟩ := hs.placed id.value o ho
    dsimp -zeta only
    extract_lets i after t
    have hc : SameConfig s t := by
      unfold t
      split
      · exact config_fillSpot s o _ px qty fee
      · exact config_fillDerivative s o _ px qty fee
    have hholds : t.holds = s.holds := by
      unfold t
      split
      · unfold fillSpot
        rw [holds_credit, holds_credit, holds_lock]
      · unfold fillDerivative
        rw [holds_relock, holds_credit]
        rfl
    have hzero : ¬0 < leaves → after = 0 := fun h => if_neg h
    have h := reheld_filled hs ho hc hholds hzero
    have hrelease : after - o.amount = -(o.amount - after) := (neg_sub _ _).symm
    rw [hrelease] at h
    refine ⟨hs.filled hmix h hplace hon (u := t) rfl ?_ ?_ ?_, h.config⟩
    · split <;> rfl
    · split <;> rfl
    · intro r
      split <;> rfl

/-! ## Calls that move no hold -/

/-- A change that leaves holds, locked amounts and what enters the margins. -/
theorem Sound.quiet {s t : SimAccounts} (hs : s.Sound) (hc : SameConfig s t)
    (hholds : t.holds = s.holds) (hrows : ∀ r, (t.rows r).locked = (s.rows r).locked)
    (hside : ∀ k id, (t.inst k id).sideHold = (s.inst k id).sideHold)
    (hmargin : ∀ k id, (t.inst k id).positionMargin = (s.inst k id).positionMargin) :
    Keeps s t := by
  refine ⟨⟨?_, ?_, ?_, ?_, ?_⟩, hc⟩
  · rw [hc.slotOfVenue, hc.nSlots]
    exact hs.slots
  · intro id h hfind
    rw [hholds] at hfind
    rw [hc.places, hc.on]
    exact hs.placed id h hfind
  · intro r hr
    rw [hrows, hs.spot r (mt (hc.settleRow r).mpr hr)]
    unfold spotHeld
    rw [hholds]
    simp only [hc.drawn]
  · intro k id hder side
    rw [hc.derivative] at hder
    rw [hside, hs.side k id hder]
    unfold sideHeld
    rw [hholds]
  · intro r hr
    rw [hrows, hs.settle r ((hc.settleRow r).mp hr)]
    unfold marginOfRow SimInst.margin
    rw [hc.places, hc.settlesIn]
    simp only [hside, hmargin]

theorem Keeps.trans {s t u : SimAccounts} (h : Keeps s t) (k : Keeps t u) : Keeps s u :=
  ⟨k.1, h.2.trans k.2⟩

section

variable {s : SimAccounts} (hs : s.Sound)
include hs

theorem Sound.setMark (k id : Nat) (px : Price) (venue : Bool) :
    Keeps s (s.setInst k id { s.inst k id with mark := px, venueMark := venue }) := by
  refine hs.quiet (config_setInst s k id rfl rfl rfl rfl rfl) rfl (fun _ => rfl) ?_ ?_
  all_goals
    intro a b
    by_cases h : (a, b) = (k, id)
    · obtain ⟨rfl, rfl⟩ := Prod.mk.inj h
      rw [inst_setInst_self]
    · rw [inst_setInst_of_ne s k id _ h]

theorem Sound.mark (id : Nat) (px : Price) (venue : Bool) :
    Keeps s (s.mark id px venue) := by
  unfold SimAccounts.mark
  split
  · exact ⟨hs, SameConfig.refl s⟩
  case isFalse htaken =>
    clear htaken
    generalize List.range s.nSlots = slots
    induction slots generalizing s with
    | nil => exact ⟨hs, SameConfig.refl s⟩
    | cons k rest ih =>
      rw [foldl_cons]
      by_cases hskip : (s.inst k id).on = false ∨ (s.inst k id).derivative = false ∨
          ((s.inst k id).venueMark && !venue) = true
      · rw [if_pos hskip]
        exact ih hs
      · rw [if_neg hskip]
        have hset := hs.setMark k id px ((s.inst k id).venueMark || venue)
        exact hset.trans (ih hset.1)

theorem Sound.credit (r : Option Nat) (d : Int) :
    Keeps s (s.credit r d) := by
  refine hs.quiet (config_credit s r d) (holds_credit s r d) (locked_credit s r d) ?_ ?_
  all_goals
    intro k id
    rw [inst_credit]

theorem Sound.transfer (source target : VenueId)
    (asset : List Char) (amount : Notional) :
    Keeps s (s.transfer source target asset amount).1 := by
  unfold SimAccounts.transfer
  split
  · exact ⟨hs, SameConfig.refl s⟩
  split
  · split
    · exact ⟨hs, SameConfig.refl s⟩
    · rename_i a b _ _ _
      have hdebit := hs.credit (some a) (-amount)
      exact hdebit.trans (hdebit.1.credit (some b) amount)
  · exact ⟨hs, SameConfig.refl s⟩

theorem Sound.move (venue : VenueId) (asset : List Char)
    (amount : Notional) : Keeps s (s.move venue asset amount).1 := by
  unfold SimAccounts.move
  split
  · exact ⟨hs, SameConfig.refl s⟩
  · split
    · exact ⟨hs, SameConfig.refl s⟩
    · exact hs.credit (some _) _

theorem Sound.step (hmix : s.Unmixed) (op : AccountOp) :
    Keeps s (s.step op) := by
  cases op with
  | admitOrder => exact hs.admitOrder hmix _ _ _ _ _ _ _ _
  | admitReplace => exact hs.admitReplace hmix _ _ _ _
  | fill => exact hs.fill hmix _ _ _ _ _
  | close => exact hs.close hmix _
  | mark => exact hs.mark _ _ _
  | transfer => exact hs.transfer _ _ _ _
  | move => exact hs.move _ _ _

theorem Sound.run (hmix : s.Unmixed) (ops : List AccountOp) :
    Keeps s (s.run ops) := by
  induction ops generalizing s with
  | nil => exact ⟨hs, SameConfig.refl s⟩
  | cons op rest ih =>
    have hstep := hs.step hmix op
    exact hstep.trans (ih hstep.1 (hstep.2.unmixed hmix))

end

/-! ## The account at its start -/

/-- Nothing is held and no position is open. -/
structure Blank (s : SimAccounts) : Prop where
  slots : ∀ v k, s.slotOfVenue v = some k → k < s.nSlots
  holds : s.holds = .empty
  locked : ∀ r, (s.rows r).locked = 0
  side : ∀ k id side, (s.inst k id).sideHold side = 0
  margin : ∀ k id, (s.inst k id).positionMargin = 0

section

variable {s : SimAccounts} (h : s.Blank)
include h

theorem Blank.sound : s.Sound := by
  refine ⟨h.slots, ?_, ?_, ?_, ?_⟩
  · intro id o ho
    simp [h.holds, find_empty] at ho
  · intro r _
    unfold spotHeld
    rw [h.locked, h.holds, total_empty]
  · intro k id _ side
    unfold sideHeld
    rw [h.side, h.holds, total_empty]
  intro r _
  have hzero : ∀ p : Nat × Nat, (s.inst p.1 p.2).margin = 0 := by
    intro p
    unfold SimInst.margin
    rw [h.margin, h.side, h.side]
    rfl
  rw [h.locked, eq_comm]
  apply sum_eq_zero
  intro x hx
  obtain ⟨p, -, rfl⟩ := mem_map.mp hx
  exact hzero p

theorem Blank.rowFor (venue : VenueId) (asset : List Char) :
    (s.rowFor venue asset).1.Blank := by
  unfold SimAccounts.rowFor
  split
  · exact h
  split
  · exact h
  refine ⟨h.slots, h.holds, ?_, h.side, h.margin⟩
  intro r
  dsimp only
  by_cases hr : r = s.nRows
  · rw [hr, Function.update_self]
  · rw [Function.update_of_ne hr]
    exact h.locked r

theorem Blank.setInst (k id : Nat) {i : SimInst}
    (hside : ∀ side, i.sideHold side = 0) (hmargin : i.positionMargin = 0) :
    (s.setInst k id i).Blank := by
  refine ⟨h.slots, h.holds, h.locked, ?_, ?_⟩
  all_goals
    intro a b
    by_cases hab : (a, b) = (k, id)
    · obtain ⟨rfl, rfl⟩ := Prod.mk.inj hab
      rw [inst_setInst_self]
      assumption
    · rw [inst_setInst_of_ne s k id i hab]
      first
        | exact h.side a b
        | exact h.margin a b

theorem Blank.addInst (initialMargin : List Int) (venue : VenueId)
    (k id : Nat) (i : AccountInstrument) : (s.addInst initialMargin venue k id i).Blank := by
  unfold SimAccounts.addInst
  split
  · exact (h.rowFor _ _).setInst k id (fun _ => rfl) rfl
  · exact ((h.rowFor _ _).rowFor _ _).setInst k id (fun _ => rfl) rfl

theorem Blank.addVenue (initialMargin : List Int)
    (primary : VenueId → VenueId) (v : Nat) : (s.addVenue initialMargin primary v).Blank := by
  unfold SimAccounts.addVenue
  split
  · exact h
  rename_i k hk
  clear hk
  generalize List.range s.nInst = ids
  induction ids generalizing s with
  | nil => exact h
  | cons id rest ih =>
    rw [foldl_cons]
    refine ih ?_
    split
    · exact h.addInst _ _ _ _ _
    · exact h

end

theorem Blank.addAccount {s t : SimAccounts} (h : s.Blank) {primary : VenueId → VenueId}
    {a : SimAccountConfig} (ht : s.addAccount primary a = .ok t) : t.Blank := by
  unfold SimAccounts.addAccount at ht
  split at ht
  · cases ht
  split at ht
  · cases ht
  split at ht
  · cases ht
  cases ht
  refine ⟨?_, h.holds, h.locked, h.side, h.margin⟩
  intro v k hv
  dsimp only at hv ⊢
  by_cases hva : v = a.venue
  · rw [hva, Function.update_self] at hv
    rw [← Option.some.inj hv]
    exact Nat.lt_succ_self _
  · rw [Function.update_of_ne hva] at hv
    exact Nat.lt_succ_of_lt (h.slots v k hv)

theorem Blank.addBalances {s t : SimAccounts} (h : s.Blank)
    {seen : List (List Char)} {bs : List SimBalance}
    (ht : s.addBalances venue seen bs = .ok t) : t.Blank := by
  induction bs generalizing s seen with
  | nil =>
    cases ht
    exact h
  | cons b rest ih =>
    unfold SimAccounts.addBalances at ht
    split at ht
    · cases ht
    rename_i u hu
    refine ih ?_ ht
    unfold addBalance at hu
    split at hu
    · cases hu
    split at hu
    · cases hu
    dsimp only at hu
    split at hu
    · cases hu
      exact h.rowFor _ _
    rename_i row _
    cases hu
    have hrow := h.rowFor venue b.asset
    refine ⟨hrow.slots, hrow.holds, ?_, hrow.side, hrow.margin⟩
    intro r
    unfold modifyRow
    dsimp only
    by_cases hr : r = row
    · rw [hr, Function.update_self]
      exact hrow.locked row
    · rw [Function.update_of_ne hr]
      exact hrow.locked r

theorem Blank.each {α : Type} {f : SimAccounts → α → Except String SimAccounts}
    (hf : ∀ s a t, s.Blank → f s a = .ok t → t.Blank) {s t : SimAccounts} (h : s.Blank)
    {l : List α} (ht : SimAccounts.each f s l = .ok t) : t.Blank := by
  induction l generalizing s with
  | nil =>
    cases ht
    exact h
  | cons a rest ih =>
    unfold SimAccounts.each at ht
    split at ht
    · cases ht
    · rename_i u hu
      exact ih (hf s a u h hu) ht

theorem blank_create {primary : VenueId → VenueId} {s : SimAccounts}
    (hs : create instruments accounts initialMargin primary = .ok s) : s.Blank := by
  unfold create at hs
  split at hs
  · cases hs
  rename_i t ht
  have hstart : ({ instruments := instruments } : SimAccounts).Blank :=
    ⟨(by intro _ _ h; cases h), rfl, fun _ => rfl, fun _ _ _ => rfl, fun _ _ => rfl⟩
  have hslots : t.Blank := hstart.each (fun _ _ _ h h' => h.addAccount h') ht
  refine Blank.each (fun _ _ _ h h' => h.addBalances h') ?_ hs
  generalize List.range kMaxVenues = venues
  clear ht hs
  induction venues generalizing t with
  | nil => exact hslots
  | cons v rest ih => exact ih _ (hslots.addVenue _ _ v)

/-! ## Refused orders -/

/-- An order that is refused changes nothing. -/
theorem admit_refused {s : SimAccounts} {id : ClientOrderId} {inst : Nat} {side : Side}
    {reduceOnly : Bool}
    (h : (s.admitOrder id inst side px qty reduceOnly replaces venue).2 = false) :
    (s.admitOrder id inst side px qty reduceOnly replaces venue).1 = s := by
  rcases s.admitOrder_cases id inst side px qty reduceOnly replaces venue with
    hsame | ⟨_, _, _, _, _, _, _, _, _, heq⟩
  · exact hsame
  · simp [heq] at h

theorem admitReplace_refused {s : SimAccounts} {orig id : ClientOrderId}
    (h : (s.admitReplace orig id px qty).2 = false) : (s.admitReplace orig id px qty).1 = s := by
  revert h
  unfold admitReplace
  split
  · exact fun _ => rfl
  · exact admit_refused

/-! ## Orders that ended -/

/-- The call admits an order under `id`. -/
def Opened (s : SimAccounts) : AccountOp → ClientOrderId → Prop
  | .admitOrder id' inst side px qty reduceOnly replaces venue, id =>
    id' = id ∧ (s.admitOrder id' inst side px qty reduceOnly replaces venue).2 = true
  | .admitReplace orig id' px qty, id => id' = id ∧ (s.admitReplace orig id' px qty).2 = true
  | _, _ => False

/-- The call ends the order under `id`: it fills what is left or closes it; any other
call ends it when a replacement takes its place. -/
def Ended (s : SimAccounts) : AccountOp → ClientOrderId → Prop
  | .close id', id => id' = id
  | .fill id' _ _ leaves _, id => id' = id ∧ leaves ≤ 0
  | op, id => (s.step op).holds.find id.value = none

theorem find_close (s : SimAccounts) (id : ClientOrderId) (k : Nat) :
    (s.close id).holds.find k = if k = id.value then none else s.holds.find k := by
  unfold SimAccounts.close
  cases ho : s.holds.find id.value with
  | none =>
    dsimp only
    split_ifs with hk
    · rw [hk]
      exact ho
    · rfl
  | some o =>
    dsimp only
    split
    · exact find_erase _ _ _
    split
    · rw [holds_lock]
      exact find_erase _ _ _
    · rw [holds_relock]
      exact find_erase _ _ _

theorem find_hold {s : SimAccounts} {id : ClientOrderId} {o x : SimHold} {k : Nat}
    (h : (s.hold id o).holds.find k = some x) : k = id.value ∨ s.holds.find k = some x := by
  unfold SimAccounts.hold at h
  by_cases hfull : (s.holds.find id.value).isSome = true ∨ kMaxHolds ≤ s.holds.size
  · rw [if_pos hfull] at h
    exact .inr h
  rw [if_neg hfull] at h
  rw [not_or] at hfull
  have hnone := not_isSome_iff_eq_none.mp hfull.1
  have hinsert : (s.holds.insert kMaxHolds id.value o).find k = some x →
      k = id.value ∨ s.holds.find k = some x := by
    unfold KeyedTable.insert
    rw [dif_pos hnone, if_pos (Nat.lt_of_not_le hfull.2), find_add]
    split_ifs with hk
    · exact fun _ => .inl hk
    · exact .inr
  refine hinsert ?_
  dsimp only at h
  split at h
  · exact h
  split at h
  · rw [holds_lock] at h
    exact h
  · rw [holds_relock] at h
    exact h

theorem find_fill {s : SimAccounts} {id : ClientOrderId} {qty leaves : Qty}
    {fee : Notional} {k : Nat}
    (h : (s.fill id px qty leaves fee).holds.find k = some x) :
    (s.holds.find k).isSome = true ∧ (k = id.value → 0 < leaves) := by
  unfold SimAccounts.fill at h
  cases ho : s.holds.find id.value with
  | none =>
    rw [ho] at h
    refine ⟨isSome_iff_exists.mpr ⟨x, h⟩, ?_⟩
    rintro rfl
    simp [ho] at h
  | some o =>
    rw [ho] at h
    dsimp -zeta only at h
    extract_lets i after t at h
    have hholds : t.holds = s.holds := by
      unfold t
      split
      · unfold fillSpot
        rw [holds_credit, holds_credit, holds_lock]
      · unfold fillDerivative
        rw [holds_relock, holds_credit]
        rfl
    split_ifs at h with hmore
    · refine ⟨?_, fun _ => hmore⟩
      dsimp only at h
      rw [hholds, find_modify] at h
      split_ifs at h with hk
      · rw [hk, ho]
        rfl
      · rw [h]
        rfl
    · dsimp only at h
      rw [hholds, find_erase] at h
      split at h
      · cases h
      rename_i hk
      refine ⟨?_, fun hsame => absurd hsame hk⟩
      rw [h]
      rfl

/-- An order held after `admit` was held before it or is the one admitted. -/
theorem find_admitOrder {s : SimAccounts} {id : ClientOrderId} {inst : Nat} {side : Side}
    {reduceOnly : Bool} {k : Nat}
    (h : (s.admitOrder id inst side px qty reduceOnly replaces venue).1.holds.find k = some x) :
    s.holds.find k = some x ∨
      (k = id.value ∧ (s.admitOrder id inst side px qty reduceOnly replaces venue).2 = true) := by
  rcases s.admitOrder_cases id inst side px qty reduceOnly replaces venue with
    hsame | ⟨_, s', _, _, _, _, hs', _, _, heq⟩
  · rw [hsame] at h
    exact .inl h
  rw [heq] at h ⊢
  rcases find_hold h with hk | hbefore
  · exact .inr ⟨hk, rfl⟩
  rcases hs' with rfl | rfl
  · exact .inl hbefore
  rw [find_close] at hbefore
  split at hbefore
  · cases hbefore
  · exact .inl hbefore

theorem holds_mark (s : SimAccounts) (id : Nat) (px : Price) (venue : Bool) :
    (s.mark id px venue).holds = s.holds := by
  unfold SimAccounts.mark
  split
  · rfl
  case isFalse htaken =>
    clear htaken
    generalize List.range s.nSlots = slots
    induction slots generalizing s with
    | nil => rfl
    | cons k rest ih =>
      rw [foldl_cons, ih]
      dsimp only
      split <;> rfl

theorem holds_transfer (s : SimAccounts) (source target : VenueId) (asset : List Char)
    (amount : Notional) : (s.transfer source target asset amount).1.holds = s.holds := by
  unfold transfer
  split
  · rfl
  split
  · split
    · rfl
    · exact (holds_credit _ _ _).trans (holds_credit _ _ _)
  · rfl

theorem holds_move (s : SimAccounts) (venue : VenueId) (asset : List Char) (amount : Notional) :
    (s.move venue asset amount).1.holds = s.holds := by
  unfold SimAccounts.move
  split
  · rfl
  · split
    · rfl
    · exact holds_credit _ _ _

section

variable {s : SimAccounts} {op : AccountOp} {id : ClientOrderId}
variable (h : (s.step op).holds.find id.value = some x)
include h

/-- An order held after a call was held before it or is the one the call admits. -/
theorem held_step :
    (s.holds.find id.value).isSome = true ∨ Opened s op id := by
  cases op with
  | admitOrder id' inst side px qty reduceOnly replaces venue =>
    rcases find_admitOrder h with hbefore | ⟨hk, hadmitted⟩
    · exact .inl (isSome_iff_exists.mpr ⟨x, hbefore⟩)
    · exact .inr ⟨congrArg ClientOrderId.mk hk.symm, hadmitted⟩
  | admitReplace orig id' px qty =>
    change (s.admitReplace orig id' px qty).1.holds.find id.value = some x at h
    unfold Opened
    unfold admitReplace at h ⊢
    cases horig : s.holds.find orig.value with
    | none =>
      rw [horig] at h
      exact .inl (isSome_iff_exists.mpr ⟨x, h⟩)
    | some o =>
      rw [horig] at h
      rcases find_admitOrder h with hbefore | ⟨hk, hadmitted⟩
      · exact .inl (isSome_iff_exists.mpr ⟨x, hbefore⟩)
      · refine .inr ⟨congrArg ClientOrderId.mk hk.symm, ?_⟩
        rw [horig]
        exact hadmitted
  | fill id' px qty leaves fee => exact .inl (find_fill h).1
  | close id' =>
    change (s.close id').holds.find id.value = some x at h
    rw [find_close] at h
    split at h
    · cases h
    · exact .inl (isSome_iff_exists.mpr ⟨x, h⟩)
  | mark id' px venue =>
    refine .inl (isSome_iff_exists.mpr ⟨x, ?_⟩)
    rw [← holds_mark s id' px venue]
    exact h
  | transfer source target asset amount =>
    refine .inl (isSome_iff_exists.mpr ⟨x, ?_⟩)
    rw [← holds_transfer s source target asset amount]
    exact h
  | move venue asset amount =>
    refine .inl (isSome_iff_exists.mpr ⟨x, ?_⟩)
    rw [← holds_move s venue asset amount]
    exact h

/-- A call that leaves an order open did not end it. -/
theorem not_ended_of_held : ¬Ended s op id := by
  have hopen : ¬(s.step op).holds.find id.value = none := by
    rw [h]
    exact fun hnone => by cases hnone
  cases op with
  | fill id' px qty leaves fee =>
    rintro ⟨rfl, hdone⟩
    exact absurd ((find_fill h).2 rfl) (Int.not_lt.mpr hdone)
  | close id' =>
    rintro rfl
    refine hopen ?_
    show (s.close id').holds.find id'.value = none
    rw [find_close, if_pos rfl]
  | admitOrder | admitReplace | mark | transfer | move => exact hopen

end

/-- Every order the calls admitted ended in a later one. -/
def AllEnded (s : SimAccounts) (ops : List AccountOp) : Prop :=
  ∀ before op after id, ops = before ++ op :: after → Opened (s.run before) op id →
    ∃ between last rest, after = between ++ last :: rest ∧
      Ended (s.run (before ++ op :: between)) last id

/-- An open order was open at the start or admitted since, and no call ended it. -/
theorem held_run {ops : List AccountOp} {s : SimAccounts} {id : ClientOrderId}
    (h : (s.run ops).holds.find id.value = some x) :
    ((s.holds.find id.value).isSome = true ∧
      ∀ between last rest, ops = between ++ last :: rest → ¬Ended (s.run between) last id) ∨
    ∃ before op after, ops = before ++ op :: after ∧ Opened (s.run before) op id ∧
      ∀ between last rest, after = between ++ last :: rest →
        ¬Ended (s.run (before ++ op :: between)) last id := by
  induction ops generalizing s with
  | nil =>
    refine .inl ⟨isSome_iff_exists.mpr ⟨x, h⟩, ?_⟩
    intro between last rest hsplit
    exact absurd hsplit.symm (append_ne_nil_of_right_ne_nil _ (cons_ne_nil _ _))
  | cons op rest ih =>
    rcases ih (s := s.step op) h with ⟨hheld, hnone⟩ | ⟨before, op', after, hsplit, hopened, hnone⟩
    · obtain ⟨y, hy⟩ := isSome_iff_exists.mp hheld
      rcases held_step hy with hbefore | hopened
      · refine .inl ⟨hbefore, ?_⟩
        intro between last rest' hsplit
        cases between with
        | nil =>
          obtain ⟨rfl, rfl⟩ := List.cons.inj hsplit
          exact not_ended_of_held hy
        | cons c cs =>
          obtain ⟨rfl, hrest⟩ := List.cons.inj hsplit
          exact hnone cs last rest' hrest
      · exact .inr ⟨[], op, rest, rfl, hopened, hnone⟩
    · exact .inr ⟨op :: before, op', after, by rw [hsplit, cons_append], hopened, hnone⟩

theorem holds_of_allEnded {s : SimAccounts} {ops : List AccountOp} (hs : s.holds = .empty)
    (h : s.AllEnded ops) (k : Nat) : (s.run ops).holds.find k = none := by
  cases hk : (s.run ops).holds.find k with
  | none => rfl
  | some x =>
    have hopen : (s.run ops).holds.find (⟨k⟩ : ClientOrderId).value = some x := hk
    rcases held_run hopen with ⟨hheld, -⟩ | ⟨before, op, after, hsplit, hopened, hnone⟩
    · simp [hs, find_empty] at hheld
    · obtain ⟨between, last, rest, hafter, hended⟩ := h before op after ⟨k⟩ hsplit hopened
      exact absurd hended (hnone between last rest hafter)

/-- A table in which nothing is found sums to nothing. -/
theorem total_eq_zero {t : KeyedTable Nat SimHold} (h : ∀ k, t.find k = none)
    (f : Nat → SimHold → Int) : t.total f = 0 := by
  have hempty : t.entries = [] := by
    rw [eq_nil_iff_forall_not_mem]
    rintro ⟨k, v⟩ hmem
    have hfind := find_eq_some_iff.mpr hmem
    simp [h k] at hfind
  unfold KeyedTable.total
  rw [hempty]
  rfl

/-! ## The account holds exactly what its open orders need -/

/-- After every sequence of calls, on tables in which no row is both a spot row and a
settlement row: the spot rows, the derivatives' sides and the settlement rows hold what
the open orders and positions need, a refused order changes nothing, and once every
admitted order ended no spot row holds anything. -/
theorem holds_exact {primary : VenueId → VenueId} {s : SimAccounts}
    (hs : create instruments accounts initialMargin primary = .ok s) (hmix : s.Unmixed)
    (ops : List AccountOp) :
    (∀ r, (s.run ops).SpotRow r → ((s.run ops).rows r).locked = (s.run ops).spotHeld r) ∧
    (∀ k id, ((s.run ops).inst k id).derivative = true →
      ∀ side, ((s.run ops).inst k id).sideHold side = (s.run ops).sideHeld k id side) ∧
    (∀ r, (s.run ops).SettleRow r → ((s.run ops).rows r).locked = (s.run ops).marginOfRow r) ∧
    (∀ id inst side px qty reduceOnly replaces venue,
      ((s.run ops).admitOrder id inst side px qty reduceOnly replaces venue).2 = false →
        ((s.run ops).admitOrder id inst side px qty reduceOnly replaces venue).1 = s.run ops) ∧
    (∀ orig id px qty, ((s.run ops).admitReplace orig id px qty).2 = false →
      ((s.run ops).admitReplace orig id px qty).1 = s.run ops) ∧
    (s.AllEnded ops → ∀ r, (s.run ops).SpotRow r → ((s.run ops).rows r).locked = 0) := by
  have hblank := blank_create hs
  obtain ⟨hsound, hconfig⟩ := hblank.sound.run hmix ops
  have hmix' := hconfig.unmixed hmix
  have hspot : ∀ r, (s.run ops).SpotRow r →
      ((s.run ops).rows r).locked = (s.run ops).spotHeld r :=
    fun r hr => hsound.spot r (hmix' r hr)
  refine ⟨hspot, hsound.side, hsound.settle, fun _ _ _ _ _ _ _ _ => admit_refused,
    fun _ _ _ _ => admitReplace_refused, ?_⟩
  intro hended r hr
  rw [hspot r hr]
  exact total_eq_zero (holds_of_allEnded hblank.holds hended) _

/-- No settlement row of a derivative is a base or quote row of a spot instrument. -/
theorem unmixed_of_places {s : SimAccounts}
    (h : ∀ p ∈ s.places, ∀ q ∈ s.places, (s.inst p.1 p.2).derivative = false →
      (s.inst q.1 q.2).derivative = true → (s.inst q.1 q.2).settle ≠ none →
      (s.inst p.1 p.2).base ≠ (s.inst q.1 q.2).settle ∧
        (s.inst p.1 p.2).quote ≠ (s.inst q.1 q.2).settle) : s.Unmixed := by
  rintro row ⟨p, hp, hdraws⟩ ⟨q, hq, hsettles⟩
  simp only [drawsOn, settlesIn, Bool.and_eq_true, Bool.not_eq_true', Bool.or_eq_true,
    decide_eq_true_eq] at hdraws hsettles
  obtain ⟨⟨-, hspot⟩, hrow⟩ := hdraws
  obtain ⟨⟨-, hderivative⟩, hsettle⟩ := hsettles
  have hne : (s.inst q.1 q.2).settle ≠ none := by
    rw [hsettle]
    exact some_ne_none row
  obtain ⟨hbase, hquote⟩ := h p hp q hq hspot hderivative hne
  rw [hsettle] at hbase hquote
  rcases hrow with hrow | hrow
  · exact hquote hrow
  · exact hbase hrow

/-- A spot pair and a swap in the same quote asset. -/
def spotAndSwap (swapVenue : VenueId) : List AccountInstrument :=
  [{ inst := { venue := ⟨0⟩ }, base := ['B'], quote := ['U'] },
    { inst := { venue := swapVenue }, derivative := true, base := ['B'], quote := ['U'] }]

/-- The accounts of the venues the two instruments trade on. -/
def accountOf (swapVenue : VenueId) : SimAccounts :=
  match create (spotAndSwap swapVenue)
    ([⟨0⟩, swapVenue].dedup.map fun v => ⟨v, [⟨['U'], 1000⟩]⟩) [0, kFixedScale] (fun v => v) with
  | .ok s => s
  | .error _ => { instruments := [] }

theorem create_accountOf_one :
    create (spotAndSwap ⟨1⟩) ([⟨0⟩, ⟨1⟩].dedup.map fun v => ⟨v, [⟨['U'], 1000⟩]⟩)
      [0, kFixedScale] (fun v => v) = .ok (accountOf ⟨1⟩) := rfl

theorem create_accountOf_zero :
    create (spotAndSwap ⟨0⟩) ([⟨0⟩, ⟨0⟩].dedup.map fun v => ⟨v, [⟨['U'], 1000⟩]⟩)
      [0, kFixedScale] (fun v => v) = .ok (accountOf ⟨0⟩) := rfl

theorem unmixed_accountOf_one : (accountOf ⟨1⟩).Unmixed := by
  refine unmixed_of_places ?_
  decide +kernel

/-- A bid on the pair and one on the swap. -/
def twoBids : List AccountOp :=
  [.admitOrder ⟨1⟩ 0 .buy kFixedScale 100 false .invalid .invalid,
    .admitOrder ⟨2⟩ 1 .buy kFixedScale 30 false .invalid .invalid]

/-- Each bid is held on its own venue's account. -/
theorem holds_exact_apart :
    let s := (accountOf ⟨1⟩).run twoBids
    (∀ r, s.SpotRow r → (s.rows r).locked = s.spotHeld r) ∧
      ∀ r, s.SettleRow r → (s.rows r).locked = s.marginOfRow r :=
  have h := holds_exact create_accountOf_one unmixed_accountOf_one twoBids
  ⟨h.1, h.2.2.1⟩

/-- On one account the swap's bid writes over what the pair's bid holds, and the close of
the pair's bid takes the row below nothing. -/
theorem not_holds_mixed :
    create (spotAndSwap ⟨0⟩) ([⟨0⟩, ⟨0⟩].dedup.map fun v => ⟨v, [⟨['U'], 1000⟩]⟩)
      [0, kFixedScale] (fun v => v) = .ok (accountOf ⟨0⟩) ∧
    ((accountOf ⟨0⟩).run twoBids).SpotRow 1 ∧
    (((accountOf ⟨0⟩).run twoBids).rows 1).locked ≠ ((accountOf ⟨0⟩).run twoBids).spotHeld 1 ∧
    (((accountOf ⟨0⟩).run (twoBids ++ [.close ⟨1⟩])).rows 1).locked = -70 := by
  refine ⟨create_accountOf_zero, ⟨(0, 0), ?_, ?_⟩, ?_, ?_⟩
  all_goals decide +kernel

end FastMM.Sim.SimAccounts
