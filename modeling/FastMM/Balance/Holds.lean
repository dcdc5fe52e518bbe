/-
  Balance/Holds.lean --- what the orders hold, and that only holds move it.

  The gateway gives no account, so an order's state is its instrument's own venue's, slot 0.
-/
import FastMM.Balance.BalanceBook
import Mathlib.Algebra.Group.Int.Defs
import Mathlib.Algebra.Group.Pi.Lemmas
set_option autoImplicit false

namespace FastMM.Balance

open Function Pi

variable (i : Nat)
variable (side : Side)

/-- An amount of one instrument and side. -/
def amountAt (d : Int) : Nat → Side → Int :=
  Pi.single i (Pi.single side d)

theorem update_eq_add_amountAt (f : Nat → Side → Int) (i : Nat) (side : Side) (d : Int) :
    update f i (update (f i) side (f i side + d)) = f + amountAt i side d := by
  funext j s
  show _ = f j s + (Pi.single i (Pi.single side d) : Nat → Side → Int) j s
  by_cases hj : j = i
  · rw [hj, update_self, single_eq_same]
    by_cases hs : s = side
    · rw [hs, update_self, single_eq_same]
    · rw [update_of_ne hs, single_eq_of_ne hs, add_zero]
  · rw [Function.update_of_ne hj, Pi.single_eq_of_ne hj, Pi.zero_apply, add_zero]

theorem amountAt_apply (i j : Nat) (side s : Side) (d : Int) :
    amountAt i side d j s = if i = j ∧ side = s then d else 0 := by
  unfold amountAt
  by_cases hj : j = i
  · rw [hj, single_eq_same]
    by_cases hs : s = side
    · rw [hs, single_eq_same, if_pos ⟨rfl, rfl⟩]
    · rw [single_eq_of_ne hs, if_neg fun h => hs h.2.symm]
  · rw [Pi.single_eq_of_ne hj, Pi.zero_apply, if_neg fun h => hj h.1.symm]

theorem amountAt_sub (a b : Int) :
    amountAt i side (a - b) = amountAt i side a - amountAt i side b := by
  unfold amountAt
  rw [single_sub, single_sub]

theorem amountAt_neg (a : Int) : amountAt i side (-a) = -amountAt i side a := by
  unfold amountAt
  rw [single_neg, single_neg]

@[simp] theorem amountAt_zero : amountAt i side 0 = 0 := by
  unfold amountAt
  rw [single_zero, single_zero]

namespace BalanceBook

variable (b : BalanceBook)
variable (i : Nat)
variable (side : Side)
variable (d : Int)
variable (id : InstrumentId)
variable (unacked : Bool)
variable (venue : VenueId)
variable (r : Nat)

/-- What unacknowledged orders hold. -/
def unackedAt : Nat → Side → Int := fun i side => (b.inst i 0).unacked side

/-- What the orders of a derivative hold. -/
def sideHoldAt : Nat → Side → Int := fun i side => (b.inst i 0).sideHold side

/-- The holds of two books agree. -/
structure SameHolds (b b' : BalanceBook) : Prop where
  unacked : b'.unackedAt = b.unackedAt
  sideHold : b'.sideHoldAt = b.sideHoldAt
  derivative : ∀ i, (b'.inst i 0).derivative = (b.inst i 0).derivative

theorem SameHolds.trans {b b' b'' : BalanceBook} (h : SameHolds b b') (h' : SameHolds b' b'') :
    SameHolds b b'' :=
  ⟨h'.unacked.trans h.unacked, h'.sideHold.trans h.sideHold,
    fun i => (h'.derivative i).trans (h.derivative i)⟩

theorem SameHolds.of_inst {b b' : BalanceBook} (h : b'.inst = b.inst) : SameHolds b b' := by
  refine ⟨?_, ?_, fun i => by rw [h]⟩
  · unfold unackedAt
    rw [h]
  · unfold sideHoldAt
    rw [h]

@[simp] theorem slot_invalid : b.slot id .invalid = 0 := by
  exact if_pos (Or.inr (Or.inl rfl))

theorem inst_note (ts : Timestamp) (free locked total : Int) :
    (b.note r ts free locked total).inst = b.inst := by
  unfold note pushMove
  split
  · rfl
  · split <;> rfl

theorem inst_setRow (f : BalanceRow → BalanceRow) : (b.setRow r f).inst = b.inst := rfl

theorem inst_moveAsset (r : Option Nat) (d : Int) (ts : Timestamp) :
    (b.moveAsset r d ts).inst = b.inst := by
  unfold moveAsset
  cases r with
  | none => rfl
  | some r =>
    dsimp only
    split
    · rfl
    · split
      · rfl
      · rw [inst_note, inst_setRow]

/-- An execution moves no hold. -/
theorem inst_onFill (inst : Instrument) (side : Side)
    (px : Price) (qty : Qty) (fee : Notional) (feeAsset : FeeAsset) (posBefore posAfter : Int)
    (ts : Timestamp) (account : VenueId) :
    (b.onFill id inst side px qty fee feeAsset posBefore posAfter ts account).inst = b.inst := by
  unfold onFill
  split
  · rfl
  dsimp only
  split
  · rw [inst_moveAsset, inst_moveAsset]
  cases (b.inst id.value (b.slot id account)).margin with
  | none => rfl
  | some r =>
    dsimp only
    split
    · rfl
    · rw [inst_note, inst_setRow]

theorem inst_rebase : (b.rebase r).inst = b.inst := by
  unfold rebase
  cases b.rows[r]? <;> rfl

theorem inst_endRow (ts : Timestamp) (b : BalanceBook) (r : Nat) :
    (endRow venue ts b r).inst = b.inst := by
  unfold endRow
  cases b.rows[r]? with
  | none => rfl
  | some row =>
    dsimp only
    split
    · rfl
    · split
      · rfl
      · rw [inst_rebase, inst_setRow]

theorem inst_endSnapshot (ts : Timestamp) : (b.endSnapshot venue ts).inst = b.inst := by
  have hrows : ∀ (l : List Nat) (b : BalanceBook), (l.foldl (endRow venue ts) b).inst = b.inst := by
    intro l
    induction l with
    | nil => exact fun _ => rfl
    | cons r rest ih =>
      intro b
      rw [List.foldl_cons, ih, inst_endRow]
  exact hrows _ _

theorem sameHolds_useAccount : SameHolds b (b.useAccount venue r) := by
  refine ⟨?_, ?_, ?_⟩
  · funext i side
    unfold useAccount unackedAt
    dsimp only
    split <;> rfl
  · funext i side
    unfold useAccount sideHoldAt
    dsimp only
    split <;> rfl
  · intro i
    unfold useAccount
    dsimp only
    split <;> rfl

/-- A report moves no hold. -/
theorem sameHolds_onReport (m : BalanceMsg) : SameHolds b (b.onReport m) := by
  unfold onReport
  extract_lets stats b₁ vs vs' b₂ missed b₃
  have h₃ : SameHolds b b₃ := by
    simp only [b₃]
    cases b₂.reportRow m with
    | none =>
      dsimp only
      split
      · exact SameHolds.of_inst rfl
      · exact SameHolds.of_inst rfl
    | some r =>
      refine SameHolds.trans ?_ (SameHolds.of_inst (inst_rebase _ r))
      split
      · refine SameHolds.trans ?_ (sameHolds_useAccount _ m.hdr.venue r)
        exact SameHolds.of_inst rfl
      · exact SameHolds.of_inst rfl
  split
  · exact h₃.trans (SameHolds.of_inst (inst_endSnapshot _ _ _))
  · exact h₃

section

variable (f : BalanceInst → BalanceInst)
include f

theorem unackedAt_setInst (side : Side)
    (d : Int) (hf : ∀ x, (f x).unacked = update x.unacked side (x.unacked side + d)) :
    (b.setInst i 0 f).unackedAt = b.unackedAt + amountAt i side d := by
  rw [← update_eq_add_amountAt]
  funext j s
  unfold setInst unackedAt
  dsimp only
  by_cases hj : j = i
  · rw [hj, update_self, update_self, update_self, hf]
  · rw [update_of_ne hj, update_of_ne hj]

theorem unackedAt_setInst_of_eq
    (hf : ∀ x, (f x).unacked = x.unacked) : (b.setInst i 0 f).unackedAt = b.unackedAt := by
  funext j s
  unfold setInst unackedAt
  dsimp only
  by_cases hj : j = i
  · rw [hj, update_self, update_self, hf]
  · rw [update_of_ne hj]

theorem sideHoldAt_setInst (side : Side) (d : Int)
    (hf : ∀ x, (f x).sideHold = update x.sideHold side (x.sideHold side + d)) :
    (b.setInst i 0 f).sideHoldAt = b.sideHoldAt + amountAt i side d := by
  rw [← update_eq_add_amountAt]
  funext j s
  unfold setInst sideHoldAt
  dsimp only
  by_cases hj : j = i
  · rw [hj, update_self, update_self, update_self, hf]
  · rw [update_of_ne hj, update_of_ne hj]

theorem sideHoldAt_setInst_of_eq
    (hf : ∀ x, (f x).sideHold = x.sideHold) : (b.setInst i 0 f).sideHoldAt = b.sideHoldAt := by
  funext j s
  unfold setInst sideHoldAt
  dsimp only
  by_cases hj : j = i
  · rw [hj, update_self, update_self, hf]
  · rw [update_of_ne hj]

theorem derivative_setInst
    (hf : ∀ x, (f x).derivative = x.derivative) (j : Nat) :
    ((b.setInst i 0 f).inst j 0).derivative = (b.inst j 0).derivative := by
  unfold setInst
  dsimp only
  by_cases hj : j = i
  · rw [hj, update_self, update_self, hf]
  · rw [update_of_ne hj]

end

/-! ## Moving a hold -/

/-- An instrument's unacknowledged orders hold more. -/
def moreUnacked : BalanceBook :=
  b.setInst i 0 fun x =>
    { x with unacked := update x.unacked side (x.unacked side + d) }

/-- A derivative's orders hold more. -/
def moreSideHold : BalanceBook :=
  b.setInst i 0 fun x =>
    { x with sideHold := update x.sideHold side (x.sideHold side + d) }

/-- What moving a hold does to the instrument's state. -/
def heldMore : BalanceBook :=
  let b' := if unacked then b.moreUnacked i side d else b
  if (b'.inst i 0).derivative then b'.moreSideHold i side d else b'

/-- The row takes what the instrument's state does not. -/
theorem inst_moveHold {id : InstrumentId} {side : Side} {before after : Int}
    (ts : Timestamp) (unacked : Bool) (h : ¬(kMaxInstruments ≤ id.value ∨ before = after)) :
    (b.moveHold id side before after ts unacked .invalid).inst =
      (b.heldMore id.value side (after - before) unacked).inst := by
  unfold moveHold heldMore moreUnacked moreSideHold
  rw [if_neg h]
  simp only [slot_invalid]
  generalize (if unacked = true then b.setInst id.value 0 _ else b) = b₁
  generalize (if (b₁.inst id.value 0).derivative = true then b₁.setInst id.value 0 _ else b₁) = b₂
  generalize (if (b₁.inst id.value 0).derivative = true then
    BalanceInst.larger (b₂.inst id.value 0).sideHold - _ else after - before) = delta
  cases (b₁.inst id.value 0).rowOf side with
  | none => rfl
  | some r =>
    dsimp only
    split
    · rfl
    split
    · rfl
    · split
      · rw [inst_note, inst_setRow]
      · rw [inst_setRow]

theorem unackedAt_moreUnacked :
    (b.moreUnacked i side d).unackedAt = b.unackedAt + amountAt i side d :=
  unackedAt_setInst b i _ side d fun _ => rfl

theorem unackedAt_moreSideHold : (b.moreSideHold i side d).unackedAt = b.unackedAt :=
  unackedAt_setInst_of_eq b i _ fun _ => rfl

theorem sideHoldAt_moreUnacked : (b.moreUnacked i side d).sideHoldAt = b.sideHoldAt :=
  sideHoldAt_setInst_of_eq b i _ fun _ => rfl

theorem sideHoldAt_moreSideHold :
    (b.moreSideHold i side d).sideHoldAt = b.sideHoldAt + amountAt i side d :=
  sideHoldAt_setInst b i _ side d fun _ => rfl

theorem derivative_moreUnacked (j : Nat) :
    ((b.moreUnacked i side d).inst j 0).derivative = (b.inst j 0).derivative := by
  refine derivative_setInst b i _ ?_ j
  exact fun _ => rfl

theorem derivative_moreSideHold (j : Nat) :
    ((b.moreSideHold i side d).inst j 0).derivative = (b.inst j 0).derivative := by
  refine derivative_setInst b i _ ?_ j
  exact fun _ => rfl

theorem unackedAt_heldMore : (b.heldMore i side d unacked).unackedAt =
      b.unackedAt + if unacked then amountAt i side d else 0 := by
  have hfirst : (if unacked then b.moreUnacked i side d else b).unackedAt =
      b.unackedAt + if unacked then amountAt i side d else 0 := by
    cases unacked with
    | true => exact unackedAt_moreUnacked b i side d
    | false => exact (add_zero _).symm
  rw [← hfirst]
  unfold heldMore
  dsimp only
  generalize (if unacked = true then b.moreUnacked i side d else b) = b'
  split
  · rw [unackedAt_moreSideHold]
  · rfl

theorem derivative_heldMore
    (j : Nat) : ((b.heldMore i side d unacked).inst j 0).derivative = (b.inst j 0).derivative := by
  have hfirst : ((if unacked then b.moreUnacked i side d else b).inst j 0).derivative =
      (b.inst j 0).derivative := by
    cases unacked with
    | true => exact derivative_moreUnacked b i side d j
    | false => rfl
  rw [← hfirst]
  unfold heldMore
  dsimp only
  generalize (if unacked = true then b.moreUnacked i side d else b) = b'
  split
  · rw [derivative_moreSideHold]
  · rfl

theorem sideHoldAt_heldMore : (b.heldMore i side d unacked).sideHoldAt =
      b.sideHoldAt + if (b.inst i 0).derivative then amountAt i side d else 0 := by
  have hfirst : (if unacked then b.moreUnacked i side d else b).sideHoldAt = b.sideHoldAt ∧
      ((if unacked then b.moreUnacked i side d else b).inst i 0).derivative =
        (b.inst i 0).derivative := by
    cases unacked with
    | true => exact ⟨sideHoldAt_moreUnacked b i side d, derivative_moreUnacked b i side d i⟩
    | false => exact ⟨rfl, rfl⟩
  rw [← hfirst.1, ← hfirst.2]
  unfold heldMore
  dsimp only
  generalize (if unacked = true then b.moreUnacked i side d else b) = b'
  split
  · rw [sideHoldAt_moreSideHold]
  · rw [add_zero]

/-- The holds of a book after a hold moved by `after - before`. -/
structure HeldMore (b b' : BalanceBook) (id : InstrumentId) (side : Side) (before after : Int)
    (unacked : Bool) : Prop where
  unacked : b'.unackedAt = b.unackedAt +
    if id.value < kMaxInstruments ∧ unacked = true then amountAt id.value side (after - before)
    else 0
  sideHold : b'.sideHoldAt = b.sideHoldAt +
    if id.value < kMaxInstruments ∧ (b.inst id.value 0).derivative = true then
      amountAt id.value side (after - before)
    else 0
  derivative : ∀ i, (b'.inst i 0).derivative = (b.inst i 0).derivative

theorem heldMore_moveHold (side : Side) (before after : Int) (ts : Timestamp) (unacked : Bool) :
    HeldMore b (b.moveHold id side before after ts unacked .invalid) id side before after
      unacked := by
  by_cases h : kMaxInstruments ≤ id.value ∨ before = after
  · have hsame : b.moveHold id side before after ts unacked .invalid = b := by
      exact if_pos h
    have hnone : ∀ p : Prop, [Decidable p] →
        (if id.value < kMaxInstruments ∧ p then amountAt id.value side (after - before)
          else 0) = 0 := by
      intro p _
      rcases h with h | h
      · exact if_neg fun hp => absurd hp.1 (by omega)
      · rw [h, sub_self, amountAt_zero, ite_self]
    rw [hsame]
    exact ⟨by rw [hnone, add_zero], by rw [hnone, add_zero], fun _ => rfl⟩
  · have hinst := @inst_moveHold b id side before after ts unacked h
    have hlt : id.value < kMaxInstruments := by omega
    refine ⟨?_, ?_, ?_⟩
    · have hu := unackedAt_heldMore b id.value side (after - before) unacked
      rw [(SameHolds.of_inst hinst).unacked, hu]
      simp only [hlt, true_and]
    · have hs := sideHoldAt_heldMore b id.value side (after - before) unacked
      rw [(SameHolds.of_inst hinst).sideHold, hs]
      simp only [hlt, true_and]
    · intro i
      rw [(SameHolds.of_inst hinst).derivative i]
      exact derivative_heldMore b id.value side (after - before) unacked i

/-- An acknowledged order's hold leaves the unacknowledged ones, and nothing else. -/
theorem heldLess_acknowledge (side : Side) (amount : Int) (ts : Timestamp) :
    (b.acknowledge id side amount ts .invalid).unackedAt =
        b.unackedAt - (if id.value < kMaxInstruments then amountAt id.value side amount else 0) ∧
      (b.acknowledge id side amount ts .invalid).sideHoldAt = b.sideHoldAt ∧
      ∀ i, ((b.acknowledge id side amount ts .invalid).inst i 0).derivative =
        (b.inst i 0).derivative := by
  by_cases h : kMaxInstruments ≤ id.value ∨ amount = 0
  · have hsame : b.acknowledge id side amount ts .invalid = b := by
      exact if_pos h
    rw [hsame]
    refine ⟨?_, rfl, fun _ => rfl⟩
    rcases h with h | h
    · rw [if_neg (by omega), sub_zero]
    · rw [h, amountAt_zero, ite_self, sub_zero]
  · have hinst : (b.acknowledge id side amount ts .invalid).inst = (b.setInst id.value 0 fun i =>
        { i with unacked := update i.unacked side (i.unacked side - amount) }).inst := by
      unfold acknowledge
      rw [if_neg h]
      simp only [slot_invalid]
      cases (b.inst id.value 0).rowOf side with
      | none => rfl
      | some r =>
        dsimp only
        split
        · rw [inst_note]
        · rw [inst_setRow]
    rw [(SameHolds.of_inst hinst).unacked, (SameHolds.of_inst hinst).sideHold,
      if_pos (by omega : id.value < kMaxInstruments)]
    refine ⟨?_, ?_, ?_⟩
    · rw [unackedAt_setInst b id.value _ side (-amount) fun _ => rfl, amountAt_neg, sub_eq_add_neg]
    · exact sideHoldAt_setInst_of_eq b id.value _ fun _ => rfl
    intro i
    rw [(SameHolds.of_inst hinst).derivative i]
    refine derivative_setInst b id.value _ ?_ i
    exact fun _ => rfl

end BalanceBook

end FastMM.Balance
