/-
  Oms/SessionIds.lean --- the client ids of a session.

  An id is the session's epoch over a running number.  Only `next_cl_ord_id` moves the
  number: no call and no message does, so an id it gives is above every id it gave.
-/
import FastMM.Oms.Edits
set_option autoImplicit false

namespace FastMM

namespace Oms

variable {s s' : Oms}

/-! ## What keeps the session -/

theorem Edit.session {t : Target} (he : Edit t s s') : s'.session = s.session := by
  cases he with
  | quiet hq => exact hq.session
  | finish u st br _ _ =>
    rw [terminate_fst]
    split <;> rfl
  | absorb reported u _ =>
    rw [absorbCum_fst]
    split <;> rfl
  | replace u newVenueOrder _ _ =>
    rw [applyReplace_fst]
    split
    · rfl
    · split <;> rfl
  | _ => rfl

theorem Edits.session {t : Target} (he : Edits t s s') : s'.session = s.session := by
  induction he with
  | refl => rfl
  | tail _ hlast ih => exact hlast.session.trans ih

/-- No message moves the session's number. -/
theorem session_receive (m : Msg)
    (hlive : ∀ id h, s.ids.find id = some (.opened h) → ∃ o, s.get h = some o) :
    (s.receive m).1.session = s.session := by
  refine (receive_edits m hlive).session.trans ?_
  obtain ⟨seen, hseen⟩ := s.heard_eq m
  rw [hseen]
  rfl

theorem session_submit (s : Oms) (req : NewOrderRequest) (id : ClientOrderId) (now : Timestamp) :
    (s.submit req id now).1.session = s.session := by
  rcases s.submit_cases req id now with ⟨h, _, hsub⟩ | ⟨_, halike⟩
  · obtain ⟨pool, ids, _, _, hs'⟩ := hsub.state
    rw [hs']
    split <;> rfl
  · exact halike.session

theorem session_requestReplace (s : Oms) (h : Nat) (newId : ClientOrderId) (px : Price)
    (qty : Qty) (now : Timestamp) :
    (s.requestReplace h newId px qty now).1.session = s.session := by
  rcases s.requestReplace_cases h newId px qty now with ⟨o, _, hrep⟩ | ⟨_, hsame⟩
  · obtain ⟨ids, _, hs'⟩ := hrep.state
    rw [hs']
    rfl
  · rw [hsame]

/-! ## New ids -/

/-- The largest id the session has given. -/
def lastId (s : Oms) : Nat := s.epoch * 2 ^ 32 + s.seq

/-- The numbers fit their 32 bits. -/
def SessionOk (s : Oms) : Prop := s.maxSeq ≤ kMaxSeq

theorem lastId_congr (hs : s'.session = s.session) : s'.lastId = s.lastId := by
  simp only [session, Prod.mk.injEq] at hs
  unfold lastId
  rw [hs.1, hs.2.2]

theorem SessionOk.congr (hok : SessionOk s) (hs : s'.session = s.session) : SessionOk s' := by
  simp only [session, Prod.mk.injEq] at hs
  unfold SessionOk
  rw [hs.2.1]
  exact hok

/-- An id of the session is the next number; only the number changes. -/
theorem nextClOrdId_valid (hok : SessionOk s) (hv : s.nextClOrdId.2.valid = true) :
    s.nextClOrdId.2.value = s.lastId + 1 ∧ s.nextClOrdId.1.lastId = s.lastId + 1 ∧
      s.nextClOrdId.1 = { s with seq := s.seq + 1 } := by
  unfold SessionOk kMaxSeq at hok
  by_cases hend : s.maxSeq ≤ s.seq
  · simp [nextClOrdId, if_pos hend] at hv
  have hmod : (s.seq + 1) % 2 ^ 32 = s.seq + 1 := Nat.mod_eq_of_lt (by omega)
  rw [nextClOrdId, if_neg hend]
  refine ⟨?_, ?_, rfl⟩
  · simp only [hmod, lastId, Nat.add_assoc]
  · simp only [lastId, Nat.add_assoc]

end Oms

end FastMM
