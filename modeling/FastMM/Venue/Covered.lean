/-
  Venue/Covered.lean --- every order in the venue's book is one of ours.

  While an order waits at the venue or rests there, the order management has it open.  It may
  be behind: the messages on their way take its view of the order to the venue's, one by one
  (`Covered`).  So what the venue holds is at the order's price, or at that of the replace the
  order waits for (`resting_worksAt`).
-/
import FastMM.Venue.Lanes
import FastMM.Venue.Hearing
set_option autoImplicit false

namespace FastMM

open LaneView

open Oms (Msg)

namespace LaneView

variable {v v' e : LaneView} {m : Msg} {ms : List Msg} {p : LanePhase}

/-- What an order may wait for while it works at the venue. -/
def Asks (v : LaneView) (p : LanePhase) : Prop :=
  p = .cancelling ∨ ∃ newId px qty, p = .replacing newId px qty false ∧ newId ≠ v.id

/-- A working order hears of fills and of its ack again, whatever else it waits for. -/
theorem hear_working (hw : v.phase = .working) (hp : v.Asks p) (hv : v.hear m = some v') :
    v'.phase = .working ∧ v'.id = v.id ∧
      ({ v with phase := p }).hear m = some { v' with phase := p } := by
  cases m with
  | ack m =>
    simp only [hear, hw] at hv
    split at hv
    · rename_i hid
      obtain rfl := Option.some.inj hv
      refine ⟨hw, rfl, ?_⟩
      rcases hp with rfl | ⟨newId, px, qty, rfl, hne⟩
      · simp only [hear, hid, if_true]
      · simp only [hear, hid, if_neg hne.symm, if_true]
    · cases hv
  | fill m =>
    simp only [hear, hw] at hv
    split at hv
    · rename_i hsays
      obtain rfl := Option.some.inj hv
      refine ⟨rfl, rfl, ?_⟩
      have hfresh : p ≠ .fresh := by
        rcases hp with rfl | ⟨newId, px, qty, rfl, _⟩ <;> simp
      exact if_pos ⟨hfresh, hsays.2⟩
    · cases hv
  | reject m => simp [hear, hw] at hv
  | cancelAck m => simp [hear, hw] at hv
  | cancelReject m => simp [hear, hw] at hv
  | expired m => simp [hear] at hv
  | openOrder m => simp [hear] at hv

/-- The view after the messages on their way. -/
def follow (v : LaneView) (ms : List Msg) : Option LaneView := ms.foldlM hear v

theorem follow_cons (v : LaneView) (m : Msg) (ms : List Msg) :
    v.follow (m :: ms) = (v.hear m).bind fun v' => v'.follow ms := rfl

theorem follow_append (v : LaneView) (ms ms' : List Msg) :
    v.follow (ms ++ ms') = (v.follow ms).bind fun v' => v'.follow ms' :=
  List.foldlM_append

/-- A request of ours goes past the messages on their way to us. -/
theorem follow_working (ms : List Msg) (v : LaneView) (hw : v.phase = .working) (hp : v.Asks p)
    (hf : v.follow ms = some e) :
    e.phase = .working ∧ e.id = v.id ∧
      ({ v with phase := p }).follow ms = some { e with phase := p } := by
  induction ms generalizing v with
  | nil =>
    obtain rfl := Option.some.inj hf
    exact ⟨hw, rfl, rfl⟩
  | cons m ms ih =>
    rw [follow_cons] at hf
    obtain ⟨v', hv, hf⟩ := Option.bind_eq_some_iff.mp hf
    obtain ⟨hw', hid, hv'⟩ := hear_working hw hp hv
    have hp' : v'.Asks p := by
      unfold Asks at hp ⊢
      rw [hid]
      exact hp
    obtain ⟨he, heid, hf'⟩ := ih v' hw' hp' hf
    refine ⟨he, heid.trans hid, ?_⟩
    rw [follow_cons, hv']
    exact hf'

/-- The cancel of an order that is not acknowledged yet goes past its ack. -/
theorem follow_fresh (ms : List Msg) (v : LaneView) (hfresh : v.phase = .fresh)
    (hf : v.follow ms = some e) :
    ((e.phase = .fresh ∧ e.id = v.id) ∨ (e.phase = .working ∧ e.id = v.id)) ∧
      ({ v with phase := .cancelling }).follow ms = some { e with phase := .cancelling } := by
  cases ms with
  | nil =>
    obtain rfl := Option.some.inj hf
    exact ⟨.inl ⟨hfresh, rfl⟩, rfl⟩
  | cons m ms =>
    rw [follow_cons] at hf
    obtain ⟨v', hv, hf⟩ := Option.bind_eq_some_iff.mp hf
    have hack : ∃ a, m = .ack a ∧ a.clOrdId = v.id ∧ v' = { v with phase := .working } := by
      cases m with
      | ack a =>
        simp only [hear, hfresh] at hv
        split at hv
        · exact ⟨a, rfl, ‹_›, (Option.some.inj hv).symm⟩
        · cases hv
      | fill m => simp [hear, hfresh] at hv
      | reject m => simp [hear, hfresh] at hv
      | cancelAck m => simp [hear, hfresh] at hv
      | cancelReject m => simp [hear, hfresh] at hv
      | expired m => simp [hear] at hv
      | openOrder m => simp [hear] at hv
    obtain ⟨a, rfl, hid, rfl⟩ := hack
    obtain ⟨he, heid, hf'⟩ := follow_working ms _ rfl (p := .cancelling) (.inl rfl) hf
    refine ⟨.inr ⟨he, heid⟩, ?_⟩
    rw [follow_cons]
    have hv' : ({ v with phase := .cancelling } : LaneView).hear (.ack a) =
        some { v with phase := .cancelling } := if_pos hid
    rw [hv']
    exact hf'

theorem follow_within {ids : ClientOrderId → Prop} (ms : List Msg) (v : LaneView)
    (hin : v.Within ids) (hf : v.follow ms = some e) : e.Within ids := by
  induction ms generalizing v with
  | nil =>
    obtain rfl := Option.some.inj hf
    exact hin
  | cons m ms ih =>
    rw [follow_cons] at hf
    obtain ⟨v', hv, hf⟩ := Option.bind_eq_some_iff.mp hf
    exact ih v' (hear_within hin hv).2 hf

/-- The price of a view, or of the replacement it waits for. -/
def Priced (v : LaneView) (px : Price) : Prop :=
  px = v.price ∨ ∃ newId qty gone, v.phase = .replacing newId px qty gone

/-- No message brings a price. -/
theorem hear_priced (hv : v.hear m = some v') {px : Price} (hpx : v'.Priced px) : v.Priced px := by
  rcases (hear_cases hv).2 with ⟨_, hprice, hphase⟩ | ⟨hw, qty, gone, hp⟩
  · rcases hpx with hpx | ⟨n, q, g, heq⟩
    · exact .inl (hpx.trans hprice)
    rcases hphase with hw | hsame | ⟨n', p, q', hold, hnew⟩
    · cases hw.symm.trans heq
    · exact .inr ⟨n, q, g, hsame ▸ heq⟩
    · cases hnew.symm.trans heq
      exact .inr ⟨_, _, _, hold⟩
  · rcases hpx with hpx | ⟨n, q, g, heq⟩
    · exact .inr ⟨_, _, _, hpx ▸ hp⟩
    · cases hw.symm.trans heq

/-- The price of an order that works at the venue is its own, or that of the replace it waits
for. -/
theorem follow_price (ms : List Msg) (v : LaneView) {o : Order} (hm : v.Matches o)
    (hf : v.follow ms = some e) : Oms.WorksAt o e.price := by
  have hpriced : ∀ (ms : List Msg) (v : LaneView), v.follow ms = some e → v.Priced e.price := by
    intro ms
    induction ms with
    | nil =>
      intro v hf
      obtain rfl := Option.some.inj hf
      exact .inl rfl
    | cons m ms ih =>
      intro v hf
      rw [follow_cons] at hf
      obtain ⟨v', hv, hf⟩ := Option.bind_eq_some_iff.mp hf
      exact hear_priced hv (ih v' hf)
  have hphase := hm.phase
  unfold PhaseMatches at hphase
  rcases hpriced ms v hf with hpx | ⟨n, q, g, hp⟩
  · exact .inl (hm.price.trans hpx.symm)
  · rw [hp] at hphase
    exact .inr ⟨hphase.1, hphase.2.2.1⟩

/-! ## The venue's side -/

/-- The requests of ours on their way, once the venue is at what the view says. -/
def asked (v : LaneView) : List Request :=
  match v.phase with
  | .fresh => [.new v.id v.price v.qty]
  | .working => []
  | .cancelling => [.cancel v.id]
  | .replacing newId px qty _ => [.replace v.id newId px qty]

/-- The venue stands as the view has it. -/
def Stands (v : LaneView) : Standing → List Request → Prop
  | .awaited, rs =>
    v.filled = 0 ∧ (v.phase = .fresh ∨ v.phase = .cancelling) ∧
      rs = .new v.id v.price v.qty :: if v.phase = .fresh then [] else v.asked
  | .rests leg, rs =>
    leg = ⟨v.id, v.price, v.qty, v.filled⟩ ∧ v.phase ≠ .fresh ∧ v.phase.oldGone = false ∧
      rs = v.asked
  | .gone, _ => False

end LaneView

/-! ## One order -/

/-- The order management has the order of a lane open in slot `h`, and the messages on their way
take it to how the order stands at the venue. -/
structure Covered (s : Oms) (l : Lane) (h : Nat) (o : Order) (v e : LaneView) : Prop where
  get : s.get h = some o
  instrument : o.instrument = l.order.instrument
  side : o.side = l.order.side
  type : o.type = l.order.type
  names : ∀ id, Oms.Names o id → id ∈ l.ids
  hears : v.Matches o
  follows : v.follow l.mail = some e
  stands : e.Stands l.standing l.requests
  mayRest : ∀ leg, l.standing = .rests leg → l.order.mayRest = true

namespace Covered

variable {s s' : Oms} {l : Lane} {h : Nat} {o o' : Order} {v e : LaneView}
variable {rest : List Request}

section

variable (hc : Covered s l h o v e)
include hc

theorem within : v.Within (· ∈ l.ids) :=
  ⟨hc.names _ hc.hears.within.1, fun newId px qty gone hp =>
    (hc.hears.within.2 newId px qty gone hp).imp (hc.names _) id⟩

theorem within_end : e.Within (· ∈ l.ids) :=
  follow_within l.mail v hc.within hc.follows

/-- The venue says one more thing, or more, and stands accordingly. -/
theorem answer {e' : LaneView} {st : Standing}
    {ms : List Msg} (hms : e.follow ms = some e') (hst : e'.Stands st rest)
    (hrest : l.order.mayRest = true) : Covered s (l.answer rest st ms) h o v e' where
  get := hc.get
  instrument := hc.instrument
  side := hc.side
  type := hc.type
  names := hc.names
  hears := hc.hears
  follows := by
    show v.follow (l.mail ++ ms) = some e'
    rw [follow_append, hc.follows]
    exact hms
  stands := hst
  mayRest _ _ := hrest

/-- The order as it was, wherever else the order management moved. -/
theorem of_get (hget : s'.get h = some o) : Covered s' l h o v e :=
  { hc with get := hget }

end

/-! ### What the venue does -/

/-- What an act leaves of a lane: its ids, and messages that name them. -/
structure Acted (l l' : Lane) : Prop where
  order : l'.order = l.order
  ids : l'.ids = l.ids
  mail : ∀ m ∈ l'.mail, m ∈ l.mail ∨ m.clOrdId ∈ l.ids

theorem Acted.refl (l : Lane) : Acted l l := ⟨rfl, rfl, fun _ hm => .inl hm⟩

theorem Acted.answer {ms : List Msg} (rest : List Request) (st : Standing)
    (hms : ∀ m ∈ ms, m.clOrdId ∈ l.ids) : Acted l (l.answer rest st ms) := by
  refine ⟨rfl, rfl, fun m hm => ?_⟩
  rcases List.mem_append.mp hm with hm | hm
  · exact .inl hm
  · exact .inr (hms m hm)

/-- The lane after an act: the order is gone, or still covered. -/
def Kept (s : Oms) (l : Lane) (h : Nat) (o : Order) (v : LaneView) (l' : Lane) : Prop :=
  Acted l l' ∧ (l'.standing = .gone ∨ ∃ e', Covered s l' h o v e')

theorem Kept.same (hc : Covered s l h o v e) : Kept s l h o v l := ⟨.refl l, .inr ⟨e, hc⟩⟩

/-- One more message, which takes the view to how the venue now stands. -/
theorem say (hc : Covered s l h o v e) (e' : LaneView) {m : Msg}
    {st : Standing} (hm : e.hear m = some e') (hst : e'.Stands st rest)
    (hrest : l.order.mayRest = true) : Kept s l h o v (l.answer rest st [m]) := by
  refine ⟨Acted.answer rest st fun m' hm' => ?_, .inr ⟨e', hc.answer ?_ hst hrest⟩⟩
  · rw [List.mem_singleton.mp hm']
    exact (hear_within hc.within_end hm).1
  · rw [follow_cons, hm]
    rfl

theorem accept (hc : Covered s l h o v e) (m : OrderAckMsg) :
    Kept s l h o v (l.act (.accept m)) := by
  have hstands := hc.stands
  simp only [Lane.act]
  split
  · rename_i id px qty rest hst hrs
    rw [hst, hrs] at hstands
    obtain ⟨hfilled, hphase, hnew⟩ := hstands
    simp only [List.cons.injEq, Request.new.injEq] at hnew
    obtain ⟨⟨rfl, rfl, rfl⟩, hrest⟩ := hnew
    split_ifs with hdo
    · rcases hphase with hphase | hphase
      · refine hc.say { e with phase := .working } ?_ ⟨?_, by simp, rfl, ?_⟩ hdo.2
        · simp only [LaneView.hear, hphase, hdo.1, if_true]
        · rw [← hfilled]
        · rw [if_pos hphase] at hrest
          exact hrest
      · refine hc.say e ?_ ⟨?_, ?_, ?_, ?_⟩ hdo.2
        · simp only [LaneView.hear, hphase, hdo.1, if_true]
        · rw [← hfilled]
        · rw [hphase]
          simp
        · rw [hphase]
          rfl
        · rw [if_neg (by rw [hphase]; simp)] at hrest
          exact hrest
    · exact .same hc
  · exact .same hc

/-- What a lane has asked, when it asked for a replace. -/
theorem replacing_of_asked {orig newId : ClientOrderId} {px : Price} {qty : Qty}
    (hasked : .replace orig newId px qty :: rest = e.asked) (hgone : e.phase.oldGone = false) :
    e.phase = .replacing newId px qty false ∧ rest = [] := by
  unfold LaneView.asked at hasked
  cases hphase : e.phase with
  | replacing n p q g =>
    rw [hphase] at hasked hgone
    obtain rfl : g = false := hgone
    simp only [List.cons.injEq, Request.replace.injEq] at hasked
    obtain ⟨⟨_, rfl, rfl, rfl⟩, rfl⟩ := hasked
    exact ⟨rfl, rfl⟩
  | _ => simp [hphase] at hasked

theorem cancelling_of_asked {id : ClientOrderId}
    (hasked : .cancel id :: rest = e.asked) : e.phase = .cancelling ∧ id = e.id ∧ rest = [] := by
  unfold LaneView.asked at hasked
  cases hphase : e.phase with
  | cancelling =>
    simp only [hphase, List.cons.injEq, Request.cancel.injEq] at hasked
    exact ⟨rfl, hasked⟩
  | _ => simp [hphase] at hasked

section

variable (hc : Covered s l h o v e)
include hc

theorem amend (m : OrderAckMsg) : Kept s l h o v (l.act (.amend m)) := by
  have hstands := hc.stands
  simp only [Lane.act]
  split
  · rename_i leg orig newId px qty rest hst hrs
    rw [hst, hrs] at hstands
    obtain ⟨rfl, _, hgone, hasked⟩ := hstands
    obtain ⟨hphase, rfl⟩ := replacing_of_asked hasked hgone
    split_ifs with hdo
    · refine hc.say ⟨newId, px, qty, e.carried m, .working⟩ ?_ ⟨rfl, by simp, rfl, rfl⟩
        (hc.mayRest _ hst)
      simp only [LaneView.hear, hphase, hdo.2.1, if_true]
      exact if_pos hdo.2.2
    · exact .same hc
  · exact .same hc

theorem swap (c : OrderCancelAckMsg) (m : OrderAckMsg) :
    Kept s l h o v (l.act (.swap c m)) := by
  have hstands := hc.stands
  simp only [Lane.act]
  split
  · rename_i leg orig newId px qty rest hst hrs
    rw [hst, hrs] at hstands
    obtain ⟨rfl, _, hgone, hasked⟩ := hstands
    obtain ⟨hphase, rfl⟩ := replacing_of_asked hasked hgone
    split_ifs with hdo
    · obtain ⟨rfl, hcid, hccum, hmid, hplace, hqty⟩ := hdo
      have hfirst : e.hear (.cancelAck c) =
          some { e with phase := .replacing newId px qty true } := by
        simp only [LaneView.hear, hphase]
        exact if_pos ⟨hcid, hccum⟩
      have hsecond : ({ e with phase := .replacing newId px qty true } : LaneView).hear
          (.ack m) = some ⟨newId, px, qty, 0, .working⟩ := by
        have hcarry : ({ e with phase := .replacing newId px qty true } : LaneView).carried m
            = 0 := by
          simp [carried, hplace]
        simp only [LaneView.hear, hmid, if_true, hcarry]
        exact if_pos hqty
      have hin := hear_within hc.within_end hfirst
      refine ⟨Acted.answer _ _ fun m' hm' => ?_,
        .inr ⟨⟨newId, px, qty, 0, .working⟩, hc.answer ?_ ⟨rfl, by simp, rfl, rfl⟩
          (hc.mayRest _ hst)⟩⟩
      · simp only [List.mem_cons, List.not_mem_nil, or_false] at hm'
        rcases hm' with rfl | rfl
        · exact hin.1
        · exact (hear_within hin.2 hsecond).1
      · rw [follow_cons, hfirst]
        show LaneView.follow _ [.ack m] = _
        rw [follow_cons, hsecond]
        rfl
    · exact .same hc
  · exact .same hc

theorem refuseReplace (m : OrderRejectMsg) :
    Kept s l h o v (l.act (.refuseReplace m)) := by
  have hstands := hc.stands
  simp only [Lane.act]
  split
  · rename_i leg orig newId px qty rest hst hrs
    rw [hst, hrs] at hstands
    obtain ⟨rfl, _, hgone, hasked⟩ := hstands
    obtain ⟨hphase, rfl⟩ := replacing_of_asked hasked hgone
    split_ifs with hid
    · refine hc.say { e with phase := .working } ?_ ⟨rfl, by simp, rfl, rfl⟩
        (hc.mayRest _ hst)
      simp only [LaneView.hear, hphase, hid, if_true]
    · exact .same hc
  · exact .same hc

theorem refuseCancel (m : OrderCancelRejectMsg) :
    Kept s l h o v (l.act (.refuseCancel m)) := by
  have hstands := hc.stands
  simp only [Lane.act]
  split
  · rename_i leg id rest hst hrs
    rw [hst, hrs] at hstands
    obtain ⟨rfl, _, _, hasked⟩ := hstands
    obtain ⟨hphase, rfl, rfl⟩ := cancelling_of_asked hasked
    split_ifs with hdo
    · refine hc.say { e with phase := .working } ?_ ⟨rfl, by simp, rfl, rfl⟩
        (hc.mayRest _ hst)
      simp only [LaneView.hear, hphase]
      exact if_pos hdo
    · exact .same hc
  · exact .same hc

theorem fill (m : OrderFillMsg) : Kept s l h o v (l.act (.fill m)) := by
  have hstands := hc.stands
  simp only [Lane.act]
  split
  · rename_i leg hst
    rw [hst] at hstands
    obtain ⟨rfl, hfresh, hgone, hasked⟩ := hstands
    split_ifs with hdo
    · refine hc.say { e with filled := e.filled + m.qty } ?_ ⟨rfl, hfresh, hgone, hasked⟩
        (hc.mayRest _ hst)
      exact if_pos ⟨hfresh, hdo⟩
    · exact .same hc
  · exact .same hc

theorem ack (m : OrderAckMsg) : Kept s l h o v (l.act (.ack m)) := by
  have hstands := hc.stands
  simp only [Lane.act]
  split
  · rename_i leg hst
    rw [hst] at hstands
    obtain ⟨rfl, hfresh, hgone, hasked⟩ := hstands
    split_ifs with hid
    · refine hc.say e ?_ ⟨rfl, hfresh, hgone, hasked⟩ (hc.mayRest _ hst)
      simp only [LaneView.hear]
      split
      · exact absurd ‹_› hfresh
      · rename_i hphase
        have hne := (hc.within_end.2 _ _ _ _ hphase).2
        rw [if_neg (fun h => hne (h.symm.trans hid)), if_pos hid]
      · exact if_pos hid
    · exact .same hc
  · exact .same hc

theorem leave (answers : Bool) (ms : List Msg) :
    Kept s l h o v (l.act (.leave answers ms)) := by
  simp only [Lane.act]
  split
  · rename_i hin
    exact ⟨Acted.answer _ _ hin, .inl rfl⟩
  · exact .same hc

/-- Whatever the venue does, the order is gone or still covered. -/
theorem act (a : VenueAct) : Kept s l h o v (l.act a) := by
  cases a with
  | accept m => exact hc.accept m
  | amend m => exact hc.amend m
  | swap c m => exact hc.swap c m
  | refuseReplace m => exact hc.refuseReplace m
  | refuseCancel m => exact hc.refuseCancel m
  | fill m => exact hc.fill m
  | ack m => exact hc.ack m
  | leave answers ms => exact hc.leave answers ms

end

theorem act_gone (hgone : l.standing = .gone) (a : VenueAct) :
    Acted l (l.act a) ∧ (l.act a).standing = .gone := by
  cases a with
  | leave answers ms =>
    simp only [Lane.act]
    split
    · rename_i hin
      exact ⟨Acted.answer _ _ hin, rfl⟩
    · exact ⟨.refl l, hgone⟩
  | _ =>
    simp only [Lane.act, hgone, and_true]
    exact .refl l

/-! ### What arrives -/

/-- The next message of its lane reaches the order. -/
theorem hear (hc : Covered s l h o v e) (hok : Oms.IdsOk s) {m : Msg} {ms : List Msg}
    (hmail : l.mail = m :: ms) :
    ∃ o' v', Covered (s.receive m).1 { l with mail := ms } h o' v' e := by
  have hfollows := hc.follows
  rw [hmail, follow_cons] at hfollows
  obtain ⟨v', hv, hfollows⟩ := Option.bind_eq_some_iff.mp hfollows
  obtain ⟨o', ho', hm'⟩ := hear_matches hok hc.hears hc.get hv
  obtain ⟨p, hp, hon⟩ := Oms.receive_allOnward hok m h o' ho'
  obtain rfl := Option.some.inj (hc.get.symm.trans hp)
  exact ⟨o', v', ho', hon.instrument.trans hc.instrument, hon.side.trans hc.side,
    hon.type.trans hc.type, fun id hid => hc.names id (hon.names id hid), hm', hfollows, hc.stands,
    hc.mayRest⟩

end Covered

end FastMM
