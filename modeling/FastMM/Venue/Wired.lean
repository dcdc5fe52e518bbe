/-
  Venue/Wired.lean --- what holds between the order management and the venue.

  Every order that waits at the venue or rests there is covered by an open order of ours, in
  every state of every run whose orders have a positive quantity.  The ids keep the lanes
  apart: a request introduces an id above every id so far, and a message names ids of its own
  lane, so it moves the order of that lane and no other.
-/
import FastMM.Venue.Covered
set_option autoImplicit false

namespace FastMM

open Function List Oms

open Oms (Msg IdsOk SessionOk)

namespace Oms

variable {s : Oms}

theorem IdsOk.receive (hok : IdsOk s) (m : Msg) : IdsOk (s.receive m).1 := by
  refine Edits.keeps (fun _ _ hs he => hs.edit he) (receive_edits m hok.live) ?_
  obtain ⟨seen, hseen⟩ := s.heard_eq m
  rw [hseen]
  exact hok.of_eq rfl rfl rfl

theorem IdsOk.touched {s' : Oms} {h : Nat} (hok : IdsOk s) (ht : Touched h s s') : IdsOk s' :=
  Edits.keeps (fun _ _ hs he => hs.edit he) ht.edits hok

end Oms

/-- What holds between the order management and the lanes. -/
structure Wired (w : Wire) : Prop where
  ids : IdsOk w.oms
  session : SessionOk w.oms
  /-- A message names an id of its lane. -/
  mail : ∀ (n : Nat) (l : Lane), w.lanes[n]? = some l → ∀ m ∈ l.mail, m.clOrdId ∈ l.ids
  apart : ∀ (i j : Nat) (l l' : Lane), w.lanes[i]? = some l → w.lanes[j]? = some l' → i ≠ j →
    ∀ id ∈ l.ids, id ∉ l'.ids
  issued : ∀ (n : Nat) (l : Lane), w.lanes[n]? = some l → ∀ id ∈ l.ids, id.value ≤ w.oms.lastId
  /-- Every open order has a lane, of its own. -/
  line : ∀ h o, w.oms.get h = some o → w.line h < w.lanes.length
  alone : ∀ h k o p, w.oms.get h = some o → w.oms.get k = some p → w.line h = w.line k → h = k
  covered : ∀ (n : Nat) (l : Lane), w.lanes[n]? = some l →
    l.standing = .gone ∨ ∃ h o v e, w.line h = n ∧ Covered w.oms l h o v e

namespace Wired

variable {w w' : Wire} {s' : Oms} {n : Nat} {l : Lane}
variable {o : Order}
variable {h : Nat}

theorem init (epoch : Nat) {maxSeq : Nat} (hseq : maxSeq ≤ kMaxSeq) :
    Wired (Wire.init epoch maxSeq) where
  ids := IdsOk.init epoch maxSeq
  session := hseq
  mail n l hl := absurd hl (by simp [Wire.init])
  apart i j l l' hl := absurd hl (by simp [Wire.init])
  issued n l hl := absurd hl (by simp [Wire.init])
  line h o ho := absurd ho (by simp [Wire.init, Oms.init, Oms.get, Pool.empty])
  alone h k o p ho := absurd ho (by simp [Wire.init, Oms.init, Oms.get, Pool.empty])
  covered n l hl := absurd hl (by simp [Wire.init])

/-- The order management moved, and no order. -/
theorem of_get (hw : Wired w) (hids : IdsOk s') (hsession : SessionOk s')
    (hlast : w.oms.lastId ≤ s'.lastId) (hget : ∀ k, s'.get k = w.oms.get k) :
    Wired { w with oms := s' } where
  ids := hids
  session := hsession
  mail := hw.mail
  apart := hw.apart
  issued n l hl id hid := (hw.issued n l hl id hid).trans hlast
  line h o ho := hw.line h o ((hget h).symm.trans ho)
  alone h k o p ho hp := hw.alone h k o p ((hget h).symm.trans ho) ((hget k).symm.trans hp)
  covered n l hl := (hw.covered n l hl).imp id fun ⟨h, o, v, e, hline, hc⟩ =>
    ⟨h, o, v, e, hline, hc.of_get ((hget h).trans hc.get)⟩

/-- One lane moved, and the orders of no other. -/
theorem of_lane (hw : Wired w) (l' : Lane) (hl : w.lanes[n]? = some l) (hline : w'.line = w.line)
    (hlen : w'.lanes.length = w.lanes.length)
    (hlanes : ∀ i, w'.lanes[i]? = if i = n then some l' else w.lanes[i]?)
    (hids : IdsOk w'.oms) (hsession : SessionOk w'.oms) (hlast : w.oms.lastId ≤ w'.oms.lastId)
    (hold : ∀ h o', w'.oms.get h = some o' → ∃ o, w.oms.get h = some o)
    (hnew : ∀ id ∈ l'.ids, id ∈ l.ids ∨ w.oms.lastId < id.value ∧ id.value ≤ w'.oms.lastId)
    (hmail : ∀ m ∈ l'.mail, m.clOrdId ∈ l'.ids)
    (hothers : ∀ (i : Nat) (li : Lane) h o v e, i ≠ n → w.lanes[i]? = some li → w.line h = i →
      Covered w.oms li h o v e → w'.oms.get h = some o)
    (hcov : l'.standing = .gone ∨ ∃ h o v e, w.line h = n ∧ Covered w'.oms l' h o v e) :
    Wired w' := by
  have hcase : ∀ (i : Nat) (li : Lane), w'.lanes[i]? = some li → (i = n ∧ li = l') ∨
      (i ≠ n ∧ w.lanes[i]? = some li) := by
    intro i li hli
    rw [hlanes] at hli
    split at hli
    · exact .inl ⟨‹_›, (Option.some.inj hli).symm⟩
    · exact .inr ⟨‹_›, hli⟩
  have hfresh : ∀ (i : Nat) (li : Lane), i ≠ n → w.lanes[i]? = some li → ∀ id ∈ l'.ids,
    id ∉ li.ids := by
    intro i li hi hli id hid hmem
    rcases hnew id hid with hid | ⟨hid, _⟩
    · exact hw.apart n i l li hl hli (Ne.symm hi) id hid hmem
    · exact absurd (hw.issued i li hli id hmem) (Nat.not_le.mpr hid)
  refine ⟨hids, hsession, ?_, ?_, ?_, ?_, ?_, ?_⟩
  · intro i li hli
    rcases hcase i li hli with ⟨rfl, rfl⟩ | ⟨_, hli⟩
    · exact hmail
    · exact hw.mail i li hli
  · intro i j li lj hli hlj hij id hid
    rcases hcase i li hli with ⟨rfl, rfl⟩ | ⟨hi, hli⟩
    · rcases hcase j lj hlj with ⟨rfl, rfl⟩ | ⟨hj, hlj⟩
      · exact absurd rfl hij
      · exact hfresh j lj hj hlj id hid
    · rcases hcase j lj hlj with ⟨rfl, rfl⟩ | ⟨-, hlj⟩
      · exact fun hmem => hfresh i li hi hli id hmem hid
      · exact hw.apart i j li lj hli hlj hij id hid
  · intro i li hli id hid
    rcases hcase i li hli with ⟨rfl, rfl⟩ | ⟨_, hli⟩
    · rcases hnew id hid with hid | ⟨_, hid⟩
      · exact (hw.issued i l hl id hid).trans hlast
      · exact hid
    · exact (hw.issued i li hli id hid).trans hlast
  · intro h o' ho'
    obtain ⟨o, ho⟩ := hold h o' ho'
    rw [hline, hlen]
    exact hw.line h o ho
  · intro h k o' p' ho' hp' hlk
    obtain ⟨o, ho⟩ := hold h o' ho'
    obtain ⟨p, hp⟩ := hold k p' hp'
    rw [hline] at hlk
    exact hw.alone h k o p ho hp hlk
  · intro i li hli
    rw [hline]
    rcases hcase i li hli with ⟨rfl, rfl⟩ | ⟨hi, hli⟩
    · exact hcov
    · refine (hw.covered i li hli).imp id ?_
      rintro ⟨h, o, v, e, hh, hc⟩
      exact ⟨h, o, v, e, hh, hc.of_get (hothers i li h o v e hi hli hh hc)⟩

/-! ## The venue's steps -/

theorem modify_lanes (f : Lane → Lane) (hl : w.lanes[n]? = some l) (i : Nat) :
    (w.lanes.modify n f)[i]? = if i = n then some (f l) else w.lanes[i]? := by
  rw [getElem?_modify]
  by_cases hi : i = n
  · simp [hi, hl]
  · simp [hi, Ne.symm hi]

/-- The venue acts on a lane. -/
theorem act (hw : Wired w) (n : Nat) (a : VenueAct) : Wired (w.step (.act n a)) := by
  cases hl : w.lanes[n]? with
  | none =>
    have hsame : w.step (.act n a) = w := by
      simp only [Wire.step, modify_eq_self (List.getElem?_eq_none_iff.mp hl)]
    rw [hsame]
    exact hw
  | some l =>
    have hacted : Covered.Acted l (l.act a) ∧ ((l.act a).standing = .gone ∨
        ∃ h o v e, w.line h = n ∧ Covered w.oms (l.act a) h o v e) := by
      rcases hw.covered n l hl with hgone | ⟨h, o, v, e, hh, hc⟩
      · have hquiet := Covered.act_gone hgone a
        exact ⟨hquiet.1, .inl hquiet.2⟩
      · obtain ⟨hacted, hgone | ⟨e', hc'⟩⟩ := hc.act a
        · exact ⟨hacted, .inl hgone⟩
        · exact ⟨hacted, .inr ⟨h, o, v, e', hh, hc'⟩⟩
    refine hw.of_lane (l.act a) hl rfl (length_modify ..) (modify_lanes _ hl) hw.ids
      hw.session le_rfl (fun h o ho => ⟨o, ho⟩) ?_ ?_ (fun i li h o v e _ _ _ hc => hc.get) hacted.2
    · intro id hid
      rw [hacted.1.ids] at hid
      exact .inl hid
    · intro m hm
      rw [hacted.1.ids]
      exact (hacted.1.mail m hm).elim (hw.mail n l hl m) id

/-- A message arrives. -/
theorem deliver (hw : Wired w) (n : Nat) : Wired (w.step (.deliver n)) := by
  simp only [Wire.step, Wire.deliver]
  split
  · exact hw
  rename_i l hl
  split
  · exact hw
  rename_i m ms hmail
  have honward := receive_allOnward hw.ids m
  have hsession := session_receive m hw.ids.live
  have hin : m.clOrdId ∈ l.ids := hw.mail n l hl m (by rw [hmail]; exact mem_cons_self)
  refine hw.of_lane { l with mail := ms } hl rfl (length_set ..) ?_ (hw.ids.receive m)
    (hw.session.congr hsession) (lastId_congr hsession).ge ?_ ?_ ?_ ?_ ?_
  · intro i
    rw [getElem?_set]
    by_cases hi : i = n
    · rw [if_pos hi, if_pos hi.symm, if_pos (List.getElem?_eq_some_iff.mp hl).1]
    · rw [if_neg hi, if_neg (Ne.symm hi)]
  · intro h o' ho'
    obtain ⟨o, ho, _⟩ := honward h o' ho'
    exact ⟨o, ho⟩
  · exact fun id hid => .inl hid
  · intro m' hm'
    exact hw.mail n l hl m' (by rw [hmail]; exact mem_cons_of_mem m hm')
  · intro i li h o v e hi hli _ hc
    refine receive_other hw.ids hc.get fun hname => ?_
    exact hw.apart n i l li hl hli (Ne.symm hi) _ hin (hc.names _ hname)
  · refine (hw.covered n l hl).imp id ?_
    rintro ⟨h, o, v, e, hh, hc⟩
    obtain ⟨o', v', hc'⟩ := hc.hear hw.ids hmail
    exact ⟨h, o', v', e, hh, hc'⟩

/-! ## Our steps -/

/-- Drawing an id moves nothing else. -/
theorem next_cases (s : Oms) : s.nextClOrdId.1 = s ∨ s.nextClOrdId.1 =
    { s with seq := s.seq + 1 } := by
  unfold nextClOrdId
  split
  · exact .inl rfl
  · exact .inr rfl

/-- The state once an id is drawn. -/
structure Drawn (s s' : Oms) : Prop where
  get : ∀ k, s'.get k = s.get k
  ids : IdsOk s'
  session : SessionOk s'
  last : s.lastId ≤ s'.lastId

section

variable (hw : Wired w)
include hw

theorem drawn : Drawn w.oms w.oms.nextClOrdId.1 := by
  rcases next_cases w.oms with hs | hs
  · rw [hs]
    exact ⟨fun _ => rfl, hw.ids, hw.session, le_rfl⟩
  · rw [hs]
    exact ⟨fun _ => rfl, hw.ids.of_eq rfl rfl rfl, hw.session, Nat.le_succ _⟩

/-- A lane of a new order. -/
theorem of_new (l : Lane) (hids : IdsOk s')
    (hsession : SessionOk s') (hlast : w.oms.lastId ≤ s'.lastId) (hfree : w.oms.get h = none)
    (hget : ∀ k, s'.get k = if k = h then some o else w.oms.get k)
    (hmail : l.mail = []) (hnew : ∀ id ∈ l.ids, w.oms.lastId < id.value ∧ id.value ≤ s'.lastId)
    (hcov : ∃ v e, Covered s' l h o v e) :
    Wired { oms := s', lanes := w.lanes ++ [l], line := update w.line h w.lanes.length } := by
  have hlt : ∀ k p, w.oms.get k = some p →
      update w.line h w.lanes.length k = w.line k ∧ k ≠ h := by
    intro k p hp
    have hk : k ≠ h := fun hk => by
      simp [hk, hfree] at hp
    exact ⟨update_of_ne hk _ _, hk⟩
  have hcase : ∀ k p, s'.get k = some p → (k = h ∧ p = o) ∨ w.oms.get k = some p := by
    intro k p hp
    rw [hget k] at hp
    split at hp
    · exact .inl ⟨‹_›, (Option.some.inj hp).symm⟩
    · exact .inr hp
  have hlanes : ∀ (i : Nat) (li : Lane), (w.lanes ++ [l])[i]? = some li →
      (i = w.lanes.length ∧ li = l) ∨ w.lanes[i]? = some li := by
    intro i li hli
    rw [getElem?_append] at hli
    split at hli
    · exact .inr hli
    refine .inl ?_
    rw [getElem?_singleton] at hli
    split at hli
    · exact ⟨by omega, (Option.some.inj hli).symm⟩
    · nomatch hli
  have hfresh : ∀ (i : Nat) (li : Lane), w.lanes[i]? = some li → ∀ id ∈ l.ids, id ∉ li.ids :=
    fun i li hli id hid hmem =>
      absurd (hw.issued i li hli id hmem) (Nat.not_le.mpr (hnew id hid).1)
  refine ⟨hids, hsession, ?_, ?_, ?_, ?_, ?_, ?_⟩
  · intro i li hli m hm
    rcases hlanes i li hli with ⟨_, rfl⟩ | hli
    · simp [hmail] at hm
    · exact hw.mail i li hli m hm
  · intro i j li lj hli hlj hij id hid
    rcases hlanes i li hli with ⟨hi, hsame⟩ | hli'
    · rw [hsame] at hid
      rcases hlanes j lj hlj with ⟨hj, _⟩ | hlj'
      · exact absurd (hi.trans hj.symm) hij
      · exact hfresh j lj hlj' id hid
    · rcases hlanes j lj hlj with ⟨_, hsame⟩ | hlj'
      · rw [hsame]
        exact fun hmem => hfresh i li hli' id hmem hid
      · exact hw.apart i j li lj hli' hlj' hij id hid
  · intro i li hli id hid
    rcases hlanes i li hli with ⟨_, rfl⟩ | hli
    · exact (hnew id hid).2
    · exact (hw.issued i li hli id hid).trans hlast
  · intro k p hp
    rw [length_append]
    rcases hcase k p hp with ⟨rfl, _⟩ | hp
    · simp
    · show update w.line h w.lanes.length k < _
      rw [(hlt k p hp).1]
      exact Nat.lt_of_lt_of_le (hw.line k p hp) (Nat.le_add_right _ _)
  · intro j k p q hp hq hjk
    have hne : ∀ k p, w.oms.get k = some p → w.line k ≠ w.lanes.length := fun k p hp =>
      (hw.line k p hp).ne
    dsimp only at hjk
    rcases hcase j p hp with ⟨hj, _⟩ | hp'
    · rcases hcase k q hq with ⟨hk, _⟩ | hq'
      · exact hj.trans hk.symm
      · rw [hj, update_self, (hlt k q hq').1] at hjk
        exact absurd hjk.symm (hne k q hq')
    · rcases hcase k q hq with ⟨hk, _⟩ | hq'
      · rw [hk, update_self, (hlt j p hp').1] at hjk
        exact absurd hjk (hne j p hp')
      · rw [(hlt j p hp').1, (hlt k q hq').1] at hjk
        exact hw.alone j k p q hp' hq' hjk
  · intro i li hli
    rcases hlanes i li hli with ⟨hi, rfl⟩ | hli
    · obtain ⟨v, e, hc⟩ := hcov
      refine .inr ⟨h, o, v, e, ?_, hc⟩
      rw [hi]
      exact update_self ..
    · refine (hw.covered i li hli).imp id ?_
      rintro ⟨k, p, v, e, hk, hc⟩
      obtain ⟨hline, hkh⟩ := hlt k p hc.get
      exact ⟨k, p, v, e, hline.trans hk, hc.of_get ((hget k).trans ((if_neg hkh).trans hc.get))⟩

/-- An order goes out. -/
theorem submit (req : NewOrderRequest) (now : Timestamp) (hqty : 0 < req.qty) :
    Wired (w.submit req now) := by
  have hd := drawn hw
  unfold Wire.submit
  dsimp only
  split_ifs with hvalid
  · exact hw.of_get hd.ids hd.session hd.last hd.get
  obtain ⟨hid, hlast, _⟩ := nextClOrdId_valid hw.session (by simpa using hvalid)
  generalize w.oms.nextClOrdId = p at *
  obtain ⟨s, id⟩ := p
  have hsub := submit_get s req id now
  have hids := hd.ids.submit req id now
  have hsession := session_submit s req id now
  have hlast' := lastId_congr hsession
  generalize s.submit req id now = r at *
  obtain ⟨s', res⟩ := r
  dsimp only at hid hlast hsub hids hsession hlast' ⊢
  rcases hsub with ⟨h, rfl, hfree, hget⟩ | ⟨⟨err, rfl⟩, hget⟩
  · have hget' : ∀ k, s'.get k =
        if k = h then some (submittedOrder req id now) else w.oms.get k := by
      intro k
      rw [hget k, ← hd.get k]
    refine hw.of_new (.sent req id) hids (hd.session.congr hsession) (by omega)
      ((hd.get h).symm.trans hfree) hget' rfl ?_
      ⟨⟨id, req.price, req.qty, 0, .fresh⟩, ⟨id, req.price, req.qty, 0, .fresh⟩,
        (hget' h).trans (if_pos rfl), rfl, rfl, rfl, ?_,
        ⟨rfl, rfl, rfl, le_rfl, hqty, rfl, rfl⟩, rfl, ⟨rfl, .inl rfl, rfl⟩,
        fun _ hst => absurd hst (by simp [Lane.sent])⟩
    · intro x hx
      rw [mem_singleton.mp hx]
      constructor <;> omega
    · rintro x (hx | ⟨hx, _⟩)
      · rw [← hx]
        exact mem_singleton_self _
      · exact absurd hx (by simp [submittedOrder])
  · exact hw.of_get hids (hd.session.congr hsession) (by omega)
      fun k => (hget k).trans (hd.get k)

/-- The lane of an open order. -/
theorem lane (ho : w.oms.get h = some o) :
    ∃ l, w.lanes[w.line h]? = some l :=
  ⟨_, getElem?_eq_getElem (hw.line h o ho)⟩

/-- A request about the order in slot `h`, which is all that moves. -/
theorem asks {o o' : Order} {l : Lane} (ho : w.oms.get h = some o)
    (hl : w.lanes[w.line h]? = some l) (r : Request) (hids : IdsOk s') (hsession : SessionOk s')
    (hlast : w.oms.lastId ≤ s'.lastId)
    (hget : ∀ k, s'.get k = if k = h then some o' else w.oms.get k)
    (hnew : ∀ id ∈ (l.ask r).ids, id ∈ l.ids ∨ w.oms.lastId < id.value ∧ id.value ≤ s'.lastId)
    (hcov : ∀ v e, Covered w.oms l h o v e → ∃ v' e', Covered s' (l.ask r) h o' v' e') :
    Wired (w.ask s' h r) := by
  have hsub : ∀ id ∈ l.ids, id ∈ (l.ask r).ids := by
    intro id hid
    cases r with
    | replace orig newId px qty => exact mem_cons_of_mem newId hid
    | _ => exact hid
  refine hw.of_lane (l.ask r) hl rfl (length_modify ..) (modify_lanes _ hl) hids hsession
    hlast ?_ hnew ?_ ?_ ?_
  · intro k p hp
    rw [show (w.ask s' h r).oms = s' from rfl, hget k] at hp
    split_ifs at hp with hk
    · exact ⟨o, hk ▸ ho⟩
    · exact ⟨p, hp⟩
  · exact fun m hm => hsub _ (hw.mail _ l hl m hm)
  · intro i li k p v e hi hli hk hc
    refine (hget k).trans ((if_neg ?_).trans hc.get)
    intro hkh
    rw [hkh] at hk
    exact hi hk.symm
  · refine (hw.covered _ l hl).imp id ?_
    rintro ⟨k, p, v, e, hk, hc⟩
    obtain rfl := hw.alone k h p o hc.get ho hk
    obtain rfl := Option.some.inj (hc.get.symm.trans ho)
    obtain ⟨v', e', hc'⟩ := hcov v e hc
    exact ⟨k, o', v', e', rfl, hc'⟩

end

theorem working_of_matches {v : LaneView} (hm : v.Matches o)
    (hw : o.isWorking = true) : v.phase = .working := by
  have hphase := hm.phase
  unfold LaneView.PhaseMatches at hphase
  unfold Order.isWorking at hw
  cases hp : v.phase with
  | working => rfl
  | fresh =>
    simp only [hp] at hphase
    rw [hphase] at hw
    exact absurd hw (by decide)
  | cancelling =>
    simp only [hp] at hphase
    rw [hphase] at hw
    exact absurd hw (by decide)
  | replacing newId px qty gone =>
    simp only [hp] at hphase
    rw [hphase.1] at hw
    exact absurd hw (by decide)

/-- An order the venue stands ready to work has nothing on its way. -/
theorem stands_working {e : LaneView} {st : Standing} {rs : List Request}
    (hphase : e.phase = .working)
    (hst : e.Stands st rs) : st = .rests ⟨e.id, e.price, e.qty, e.filled⟩ ∧ rs = [] := by
  cases st with
  | awaited =>
    obtain ⟨_, hwait, _⟩ := hst
    simp [hphase] at hwait
  | rests leg =>
    obtain ⟨rfl, _, _, hasked⟩ := hst
    exact ⟨rfl, hasked.trans (by rw [LaneView.asked, hphase])⟩
  | gone => exact absurd hst (by simp [LaneView.Stands])

/-- A replace goes out. -/
theorem replace (hw : Wired w) (h : Nat) (px : Price) (qty : Qty) (now : Timestamp) :
    Wired (w.replace h px qty now) := by
  have hd := drawn hw
  unfold Wire.replace
  split
  · exact hw
  rename_i o ho
  dsimp only
  split_ifs with hvalid
  · exact hw.of_get hd.ids hd.session hd.last hd.get
  have hval : w.oms.nextClOrdId.2.valid = true := by simpa using hvalid
  obtain ⟨hid, hlast, _⟩ := nextClOrdId_valid hw.session hval
  generalize w.oms.nextClOrdId = p at *
  obtain ⟨s, id⟩ := p
  have hrep := requestReplace_cases s h id px qty now
  have hids := hd.ids.requestReplace h id px qty now ((ClientOrderId.valid_eq_true_iff _).mp hval)
  have hsession := session_requestReplace s h id px qty now
  have hlast' := lastId_congr hsession
  generalize s.requestReplace h id px qty now = r at *
  obtain ⟨s', res⟩ := r
  dsimp only at hid hlast hrep hids hsession hlast' ⊢
  rcases hrep with ⟨o', rfl, hrep⟩ | ⟨⟨err, rfl⟩, hsame⟩
  · obtain rfl := Option.some.inj (((hd.get h).symm.trans hrep.order).symm.trans ho)
    obtain ⟨ids, _, hs'⟩ := hrep.state
    obtain ⟨l, hl⟩ := hw.lane ho
    have hget : ∀ k, s'.get k =
        if k = h then some (pendingOrder o' id px qty) else w.oms.get k := by
      intro k
      rw [← hd.get k, hs']
      exact Pool.slots_set hrep.order k
    refine hw.asks ho hl _ hids (hd.session.congr hsession) (by omega) hget ?_ ?_
    · intro x hx
      rcases mem_cons.mp hx with rfl | hx
      · exact .inr (by constructor <;> omega)
      · exact .inl hx
    intro v e hc
    have hne : id ≠ v.id := fun heq => by
      have hlt := hw.issued _ l hl _ hc.within.1
      rw [← heq] at hlt
      omega
    have hphase := working_of_matches hc.hears hrep.working
    obtain ⟨hend, heid, hfollows⟩ := LaneView.follow_working l.mail v hphase
      (p := .replacing id px qty false) (.inr ⟨id, px, qty, rfl, hne⟩) hc.follows
    obtain ⟨hst, hrs⟩ := stands_working hend hc.stands
    refine ⟨{ v with phase := .replacing id px qty false },
      { e with phase := .replacing id px qty false },
      (hget h).trans (if_pos rfl), hc.instrument, hc.side, hc.type, ?_,
      ⟨hc.hears.id, hc.hears.price, hc.hears.qty, hc.hears.cum, hc.hears.room,
        ⟨rfl, rfl, rfl, rfl, hne⟩, ?_⟩, hfollows, ?_, hc.mayRest⟩
    · rintro x (hx | ⟨_, hx⟩)
      · exact mem_cons_of_mem _ (hc.names x (.inl hx))
      · exact mem_cons.mpr (.inl hx.symm)
    · exact hc.hears.oldGone.trans (by rw [hphase]; rfl)
    show LaneView.Stands _ l.standing (l.requests ++ [_])
    rw [hst, hrs]
    refine ⟨rfl, by simp, rfl, ?_⟩
    rw [hc.hears.id, ← heid]
    rfl
  · exact hw.of_get hids (hd.session.congr hsession) (by omega) fun k => by
      rw [hsame]
      exact hd.get k

/-- What the two cancels do to an order that is working, or not yet acknowledged. -/
structure Cancels (s : Oms) (h : Nat) (o : Order) (r : Oms × Except RejectReason Unit) : Prop where
  from_state : o.isWorking = true ∨ o.state = .pendingNew
  get : ∀ k, r.1.get k = if k = h then some { o with state := .pendingCancel } else s.get k
  ids : IdsOk r.1
  session : r.1.session = s.session

section

variable {s : Oms} {u : Unit} (hok : IdsOk s) (ho : s.get h = some o)
include hok ho

theorem requestCancel_cancels (hres : (s.requestCancel h).2 = .ok u) :
    Cancels s h o (s.requestCancel h) := by
  have hids := hok.touched (s.requestCancel_touched h).1
  have hsession := (s.requestCancel_touched h).1.edits.session
  unfold requestCancel at *
  rw [ho] at hres hids hsession ⊢
  dsimp only at *
  split at hres
  · rename_i hwork
    rw [if_pos hwork] at hids hsession ⊢
    exact ⟨.inl hwork, get_setOrder ho _, hids, hsession⟩
  · nomatch hres

theorem requestCancelUnacked_cancels (hres : (s.requestCancelUnacked h).2 = .ok u) :
    Cancels s h o (s.requestCancelUnacked h) := by
  have hids := hok.touched (s.requestCancel_touched h).2
  have hsession := (s.requestCancel_touched h).2.edits.session
  unfold requestCancelUnacked at *
  rw [ho] at hres hids hsession ⊢
  dsimp only at *
  split at hres
  · rename_i hnew
    rw [if_pos hnew] at hids hsession ⊢
    exact ⟨.inr hnew, get_setOrder ho _, hids, hsession⟩
  · nomatch hres

end

theorem fresh_of_matches {v : LaneView} (hm : v.Matches o)
    (hnew : o.state = .pendingNew) : v.phase = .fresh := by
  have hphase := hm.phase
  unfold LaneView.PhaseMatches at hphase
  cases hp : v.phase with
  | fresh => rfl
  | working =>
    simp only [hp, Order.isWorking, hnew] at hphase
    exact absurd hphase (by decide)
  | cancelling =>
    simp only [hp, hnew] at hphase
    exact absurd hphase (by decide)
  | replacing newId px qty gone =>
    simp only [hp, hnew] at hphase
    exact absurd hphase.1 (by decide)

/-- A cancel goes past the messages on their way. -/
theorem follow_cancel {s : Oms} {l : Lane} {v e : LaneView}
    (hc : Covered s l h o v e) (hstate : o.isWorking = true ∨ o.state = .pendingNew) :
    ({ v with phase := .cancelling } : LaneView).follow l.mail =
        some { e with phase := .cancelling } ∧ e.id = v.id ∧
      ({ e with phase := .cancelling } : LaneView).Stands l.standing
        (l.requests ++ [.cancel e.id]) ∧ v.phase.oldGone = false := by
  have hworks : e.phase = .working → ({ e with phase := .cancelling } : LaneView).Stands l.standing
      (l.requests ++ [.cancel e.id]) := by
    intro hend
    obtain ⟨hst, hrs⟩ := stands_working hend hc.stands
    rw [hst, hrs]
    exact ⟨rfl, by simp, rfl, rfl⟩
  rcases hstate with hwork | hnew
  · have hphase := working_of_matches hc.hears hwork
    obtain ⟨hend, heid, hf⟩ := LaneView.follow_working l.mail v hphase (p := .cancelling) (.inl rfl)
      hc.follows
    exact ⟨hf, heid, hworks hend, by rw [hphase]; rfl⟩
  have hphase := fresh_of_matches hc.hears hnew
  obtain ⟨hend, hf⟩ := LaneView.follow_fresh l.mail v hphase hc.follows
  refine ⟨hf, hend.elim (·.2) (·.2), ?_, by rw [hphase]; rfl⟩
  rcases hend with ⟨hend, _⟩ | ⟨hend, _⟩
  · have hst := hc.stands
    cases hs : l.standing with
    | awaited =>
      rw [hs] at hst
      obtain ⟨hfilled, _, hrs⟩ := hst
      rw [hrs, if_pos hend]
      exact ⟨hfilled, .inr rfl, rfl⟩
    | rests leg =>
      rw [hs] at hst
      exact absurd hend hst.2.1
    | gone =>
      rw [hs] at hst
      exact absurd hst (by simp [LaneView.Stands])
  · exact hworks hend

/-- A cancel goes out. -/
theorem cancel (hw : Wired w) (h : Nat) (request : Oms → Nat → Oms × Except RejectReason Unit)
    (hspec : ∀ s o u, IdsOk s → s.get h = some o → (request s h).2 = .ok u →
      Cancels s h o (request s h)) : Wired (w.cancel h request) := by
  unfold Wire.cancel
  split
  · exact hw
  rename_i o ho
  have hcancels := fun u => hspec w.oms o u hw.ids ho
  generalize request w.oms h = r at *
  obtain ⟨s', res⟩ := r
  cases res with
  | error err => exact hw
  | ok u =>
    obtain ⟨hstate, hget, hids, hsession⟩ := hcancels u rfl
    dsimp only at hget hids hsession ⊢
    obtain ⟨l, hl⟩ := hw.lane ho
    refine hw.asks ho hl _ hids (hw.session.congr hsession) (lastId_congr hsession).ge hget
      (fun _ hid => .inl hid) ?_
    intro v e hc
    obtain ⟨hf, heid, hst, hgone⟩ := follow_cancel hc hstate
    refine ⟨{ v with phase := .cancelling }, { e with phase := .cancelling },
      (hget h).trans (if_pos rfl), hc.instrument, hc.side, hc.type, ?_,
      ⟨hc.hears.id, hc.hears.price, hc.hears.qty, hc.hears.cum, hc.hears.room, rfl, ?_⟩, hf, ?_,
      hc.mayRest⟩
    · rintro x (hx | ⟨hx, _⟩)
      · exact hc.names x (.inl hx)
      · nomatch hx
    · exact hc.hears.oldGone.trans hgone
    · rw [hc.hears.id, ← heid]
      exact hst

end Wired

/-- Orders go out with a quantity. -/
def WireOp.Sized : WireOp → Prop
  | .submit req _ => 0 < req.qty
  | _ => True

theorem Wired.step {w : Wire} (hw : Wired w) {op : WireOp} (hop : op.Sized) :
    Wired (w.step op) := by
  cases op with
  | submit req now => exact hw.submit req now hop
  | replace h px qty now => exact hw.replace h px qty now
  | cancel h => exact hw.cancel h _ fun s o u hok ho => Wired.requestCancel_cancels hok ho
  | cancelUnacked h =>
    exact hw.cancel h _ fun s o u hok ho => Wired.requestCancelUnacked_cancels hok ho
  | act n a => exact hw.act n a
  | deliver n => exact hw.deliver n

theorem Wire.Reachable.wired {P : Wire → WireOp → Prop} (hP : ∀ w op, P w op → op.Sized) {w : Wire}
    (h : Reachable P w) : Wired w := by
  induction h with
  | init epoch maxSeq hseq => exact Wired.init epoch hseq
  | step _ op hop ih => exact ih.step (hP _ _ hop)

/-- What rests at the venue is an open order of ours, and rests at its price or at the price of
the replace it waits for. -/
theorem Wired.resting {w : Wire} (hw : Wired w) {l : Lane} {leg : RestingOrder}
    (hrests : w.Resting l leg) :
    ∃ h o, w.oms.get h = some o ∧ o.instrument = l.order.instrument ∧ o.side = l.order.side ∧
      o.type = l.order.type ∧ l.order.mayRest = true ∧ Oms.WorksAt o leg.price := by
  obtain ⟨hmem, hst⟩ := hrests
  obtain ⟨n, hl⟩ := mem_iff_getElem?.mp hmem
  rcases hw.covered n l hl with hgone | ⟨h, o, v, e, _, hc⟩
  · exact absurd (hst.symm.trans hgone) (by simp)
  have hstands := hc.stands
  rw [hst] at hstands
  obtain ⟨rfl, _⟩ := hstands
  refine ⟨h, o, hc.get, hc.instrument, hc.side, hc.type, hc.mayRest _ hst, ?_⟩
  exact LaneView.follow_price l.mail v hc.hears hc.follows

end FastMM
