/-
  Oms/IdMap.lean --- the id map names live slots and newest records.

  One map holds the pool slots of the open orders and the ring positions of the
  terminal records.  `IdsOk` says what its entries mean: every live order's id,
  and its pending id while a replace waits, name the order's own slot; every
  entry that names a slot names a live one, by one of that order's ids; every
  other entry names the newest remembered record of its id.

  Each edit of `Oms/Edits.lean` keeps `IdsOk`, and so do `submit` and
  `request_replace`.  Most edits move no id at all (`IdsOk.of_sameIds`); an end
  and a replace go through the map lemmas of the first section.

  `request_replace` needs a valid new id: `terminate` and `clear_pending` drop a
  pending id only when it is valid.  `Engine::submit_replace` refuses to send a
  replace once `next_cl_ord_id` has returned the invalid id.
-/
import FastMM.Oms.Edits
set_option autoImplicit false

namespace FastMM

open Foundation CappedMap Option Pool RingBuffer

namespace Oms

/-! ## The map after erasures and records -/

section Maps

variable {ids : IdMap} {ring : TerminalRing} {id k : ClientOrderId} {h : Nat}
variable {ref : IdRef}
variable {o : Order}

/-- `drop_open` of an id that names an open order. -/
theorem find_openErased (hid : ids.find id = some (.opened h)) :
    (openErased ids id).find k = if k = id then none else ids.find k := by
  unfold openErased
  rw [hid]
  exact find_erase ids id k

/-- `drop_open` leaves the terminal references alone. -/
theorem find_openErased_of_terminal {v : Nat} (hid : ids.find id = some (.terminal v)) :
    openErased ids id = ids := by
  unfold openErased
  rw [hid]

/-- What the map holds after an erasure it held before. -/
theorem find_of_find_openErased (hk : (openErased ids id).find k = some ref) :
    ids.find k = some ref := by
  unfold openErased at hk
  split at hk
  · rw [find_erase] at hk
    split at hk
    · nomatch hk
    · exact hk
  · exact hk

theorem find_of_find_pendingErased
    (hk : (pendingErased ids o).find k = some ref) : ids.find k = some ref := by
  unfold pendingErased at hk
  split at hk
  · exact find_of_find_openErased hk
  · exact hk

/-- Dropping a pending id leaves every other id alone. -/
theorem find_pendingErased_of_ne (hk : k ≠ o.pendingClOrdId ∨ k = o.clOrdId) :
    (pendingErased ids o).find k = ids.find k := by
  unfold pendingErased
  split_ifs with hp
  · have hne : k ≠ o.pendingClOrdId := by
      rcases hk with hk | hk
      · exact hk
      · exact fun he => hp.2 (he.symm.trans hk)
    unfold openErased
    split
    · exact find_erase_of_ne ids hne
    · rfl
  · rfl

/-- A pending id of its own is gone once dropped. -/
theorem find_pendingErased_self (hne : o.pendingClOrdId ≠ o.clOrdId)
    (hv : o.pendingClOrdId ≠ .invalid) (hp : ids.find o.pendingClOrdId = some (.opened h)) :
    (pendingErased ids o).find o.pendingClOrdId = none := by
  unfold pendingErased
  rw [if_pos ⟨(ClientOrderId.valid_eq_true_iff _).mpr hv, hne⟩, find_openErased hp, if_pos rfl]

theorem find_evictedIds (ids : IdMap) (ring : TerminalRing) (k : ClientOrderId) :
    (evictedIds ids ring).find k =
      if ring.full = true ∧ k = ring.front.clOrdId ∧
          ids.find k = some (terminalRef ring.head) then none
      else ids.find k := by
  unfold evictedIds
  by_cases hc : ring.full = true ∧
      ids.find ring.front.clOrdId = some (terminalRef ring.head)
  · rw [if_pos hc, find_erase]
    by_cases hk : k = ring.front.clOrdId
    · rw [if_pos hk, if_pos ⟨hc.1, hk, hk ▸ hc.2⟩]
    · rw [if_neg hk, if_neg fun hh => hk hh.2.1]
  · rw [if_neg hc, if_neg ?_]
    rintro ⟨hf, hk, href⟩
    exact hc ⟨hf, hk ▸ href⟩

section

variable (hid : ids.find id = some (.opened h))
include hid

/-- Remembering the record of an open order never meets a full map: the order's
id is in it already. -/
theorem find_rememberedIds (k : ClientOrderId) :
    (rememberedIds ids ring id).find k =
      if k = id then some (terminalRef ring.tail) else (evictedIds ids ring).find k := by
  have hin : (evictedIds ids ring).find id = some (.opened h) := by
    rw [find_evictedIds, if_neg ?_]
    · exact hid
    · rintro ⟨_, _, href⟩
      rw [hid] at href
      exact absurd href (by simp [terminalRef])
  unfold rememberedIds
  cases ha : (evictedIds ids ring).assign id (terminalRef ring.tail) with
  | none =>
    rw [assign_eq_none_iff, hin] at ha
    exact absurd ha.1 (by simp)
  | some ids' =>
    rw [getD_some]
    exact find_assign ha k

/-- An id that names an open order still names it after another id's record is
remembered. -/
theorem find_rememberedIds_of_opened {j : Nat}
    (hk : ids.find k = some (.opened j)) (hne : k ≠ id) :
    (rememberedIds ids ring id).find k = some (.opened j) := by
  rw [find_rememberedIds hid, if_neg hne, find_evictedIds, if_neg ?_]
  · exact hk
  · rintro ⟨_, _, href⟩
    rw [hk] at href
    exact absurd href (by simp [terminalRef])

/-- What the map holds of another id after a record is remembered it held
before. -/
theorem find_of_find_rememberedIds
    (hk : (rememberedIds ids ring id).find k = some ref) (hne : k ≠ id) :
    ids.find k = some ref := by
  rw [find_rememberedIds hid, if_neg hne, find_evictedIds] at hk
  split at hk
  · nomatch hk
  · exact hk

end

end Maps

/-! ## Terminal records -/

variable {s s' : Oms}

/-- The newest remembered record of an id. -/
structure NewestRecord (ring : TerminalRing) (id : ClientOrderId) (pos : Nat)
    (r : TerminalRecord) : Prop where
  at_pos : ring.atPos pos = some r
  clOrdId : r.clOrdId = id
  newest : ∀ pos' r', ring.atPos pos' = some r' → r'.clOrdId = id → pos' ≤ pos

/-- Every terminal reference stands for the newest record of its id. -/
def RecordsOk (ids : IdMap) (ring : TerminalRing) : Prop :=
  ∀ id v, ids.find id = some (.terminal v) →
    ∃ pos r, v = pos % kRecentlyTerminal ∧ NewestRecord ring id pos r

/-- Fewer entries, same ring. -/
theorem RecordsOk.of_find {ids ids' : IdMap} {ring : TerminalRing} (hok : RecordsOk ids ring)
    (hsub : ∀ id v, ids'.find id = some (.terminal v) → ids.find id = some (.terminal v)) :
    RecordsOk ids' ring :=
  fun id v hf => hok id v (hsub id v hf)

/-- Remembering the record of an open order keeps every reference right: the id's
own becomes the new record, the oldest record takes its reference with it. -/
theorem RecordsOk.remember {ids : IdMap} {ring : TerminalRing} {id : ClientOrderId} {h : Nat}
    {r : TerminalRecord} (hok : RecordsOk ids ring) (hid : ids.find id = some (.opened h))
    (hr : r.clOrdId = id) : RecordsOk (rememberedIds ids ring id) (ring.push r) := by
  have hN : 0 < kRecentlyTerminal := by decide
  intro k v hf
  by_cases hk : k = id
  · subst hk
    rw [find_rememberedIds hid, if_pos rfl] at hf
    refine ⟨ring.tail, r, ?_, ?_⟩
    · simpa [terminalRef] using hf.symm
    refine ⟨?_, hr, ?_⟩
    · rw [atPos_push hN, if_pos rfl]
    intro pos' r' hat _
    have hlt := (atPos_eq_some_iff.mp hat).1.2
    rw [tail_push] at hlt
    omega
  · have hf' := find_of_find_rememberedIds hid hf hk
    obtain ⟨pos, q, hv, hq⟩ := hok k v hf'
    have hrange := (atPos_eq_some_iff.mp hq.at_pos).1
    -- The record is not the one leaving: that one took its reference along.
    have hstays : (ring.push r).head ≤ pos := by
      rw [head_push]
      split_ifs with hfull
      · rcases Nat.lt_or_ge ring.head pos with hlt | hge
        · exact hlt
        have hpos : pos = ring.head := Nat.le_antisymm hge hrange.1
        have hfront : ring.front = q := by
          have hbuf := (atPos_eq_some_iff.mp hq.at_pos).2
          rw [hpos] at hbuf
          exact hbuf
        rw [find_rememberedIds hid, if_neg hk, find_evictedIds, if_pos ?_] at hf
        · nomatch hf
        refine ⟨hfull, ?_, ?_⟩
        · rw [hfront, hq.clOrdId]
        · rw [hf', hv, hpos]
          rfl
      · exact hrange.1
    refine ⟨pos, q, hv, ?_, hq.clOrdId, ?_⟩
    · rw [atPos_push hN, if_neg (Nat.ne_of_lt hrange.2), if_pos hstays]
      exact hq.at_pos
    intro pos' r' hat hr'
    rw [atPos_push hN] at hat
    by_cases htail : pos' = ring.tail
    · rw [if_pos htail] at hat
      have hsame : r = r' := Option.some.inj hat
      rw [← hsame, hr] at hr'
      exact absurd hr'.symm hk
    · rw [if_neg htail] at hat
      split at hat
      · exact hq.newest pos' r' hat hr'
      · nomatch hat

/-- `terminal_pos` of a terminal reference is the position it stands for. -/
theorem terminalPos_eq {s : Oms} {id : ClientOrderId} {v pos : Nat} {r : TerminalRecord}
    (hf : s.ids.find id = some (.terminal v)) (hv : v = pos % kRecentlyTerminal)
    (hat : s.recentlyTerminal.atPos pos = some r) : s.terminalPos id = pos := by
  have hrange := (atPos_eq_some_iff.mp hat).1
  have hsz := s.recentlyTerminal.size_le
  unfold terminalPos
  rw [hf, hv]
  simp only [kRecentlyTerminal] at *
  omega

/-! ## The invariant -/

/-- An id of a live order: its own, or its pending one while a replace waits. -/
def Names (o : Order) (id : ClientOrderId) : Prop :=
  o.clOrdId = id ∨ (o.state = .pendingReplace ∧ o.pendingClOrdId = id)

/-- What the entries of the id map mean. -/
structure IdsOk (s : Oms) : Prop where
  /-- A live order's ids name its slot. -/
  names : ∀ h o id, s.get h = some o → Names o id → s.ids.find id = some (.opened h)
  /-- An entry that names a slot names a live one, by one of its order's ids. -/
  named : ∀ id h, s.ids.find id = some (.opened h) → ∃ o, s.get h = some o ∧ Names o id
  /-- Every other entry names the newest record of its id. -/
  records : RecordsOk s.ids s.recentlyTerminal
  /-- No pending id without a pending replace. -/
  idle : ∀ h o, s.get h = some o → o.state ≠ .pendingReplace → o.pendingClOrdId = .invalid
  /-- A pending id of its own is valid, so that it is dropped. -/
  pendingValid : ∀ h o, s.get h = some o → o.pendingClOrdId ≠ o.clOrdId →
    o.state = .pendingReplace → o.pendingClOrdId ≠ .invalid

/-- Once one slot is written, what holds of the order written and of every order before holds of
every order. -/
theorem forall_written {P : Order → Prop} {s s' : Oms} {h : Nat} {o : Order}
    (hget : ∀ k, s'.get k = if k = h then some o else s.get k) (hs : ∀ k p, s.get k = some p → P p)
    (ho : P o) (k : Nat) (p : Order) (hp : s'.get k = some p) : P p := by
  rw [hget] at hp
  split at hp
  · exact Option.some.inj hp ▸ ho
  · exact hs k p hp

/-- Two orders with the same ids. -/
structure SameIds (o o' : Order) : Prop where
  clOrdId : o'.clOrdId = o.clOrdId
  pendingClOrdId : o'.pendingClOrdId = o.pendingClOrdId
  pending : o'.state = .pendingReplace ↔ o.state = .pendingReplace

theorem SameIds.names_iff {o o' : Order} (hs : SameIds o o') (id : ClientOrderId) :
    Names o' id ↔ Names o id := by
  unfold Names
  rw [hs.clOrdId, hs.pendingClOrdId, hs.pending]

/-- A change that moves no id: the map stays, orders keep their ids, records
keep theirs. -/
theorem IdsOk.of_sameIds (hok : IdsOk s) (hids : s'.ids = s.ids)
    (hget : ∀ h o', s'.get h = some o' → ∃ o, s.get h = some o ∧ SameIds o o')
    (hback : ∀ h o, s.get h = some o → ∃ o', s'.get h = some o' ∧ SameIds o o')
    (hring : ∀ pos, (s'.recentlyTerminal.atPos pos).map (·.clOrdId) =
      (s.recentlyTerminal.atPos pos).map (·.clOrdId)) : IdsOk s' := by
  refine ⟨?_, ?_, ?_, ?_, ?_⟩
  · intro h o' id ho' hn
    obtain ⟨o, ho, hs⟩ := hget h o' ho'
    rw [hids]
    exact hok.names h o id ho ((hs.names_iff id).mp hn)
  · intro id h hf
    rw [hids] at hf
    obtain ⟨o, ho, hn⟩ := hok.named id h hf
    obtain ⟨o', ho', hs⟩ := hback h o ho
    exact ⟨o', ho', (hs.names_iff id).mpr hn⟩
  · intro id v hf
    rw [hids] at hf
    obtain ⟨pos, r, hv, hr⟩ := hok.records id v hf
    have hat := hring pos
    rw [hr.at_pos, map_some, map_eq_some_iff] at hat
    obtain ⟨r', hr', hid'⟩ := hat
    refine ⟨pos, r', hv, hr', hid'.trans hr.clOrdId, ?_⟩
    intro pos' q' hq' hqid
    have hat' := hring pos'
    rw [hq', map_some, eq_comm, map_eq_some_iff] at hat'
    obtain ⟨q, hq, hqid'⟩ := hat'
    exact hr.newest pos' q hq (hqid'.trans hqid)
  · intro h o' ho' hst
    obtain ⟨o, ho, hs⟩ := hget h o' ho'
    rw [hs.pendingClOrdId]
    exact hok.idle h o ho fun hp => hst (hs.pending.mpr hp)
  · intro h o' ho' hne hst
    obtain ⟨o, ho, hs⟩ := hget h o' ho'
    rw [hs.pendingClOrdId, hs.clOrdId] at hne
    rw [hs.pendingClOrdId]
    exact hok.pendingValid h o ho hne (hs.pending.mp hst)

/-- One order is rewritten and keeps its ids. -/
theorem IdsOk.of_setOrder {h : Nat} {o o' : Order} (hok : IdsOk s)
    (ho : s.get h = some o) (hids : s'.ids = s.ids)
    (hring : s'.recentlyTerminal = s.recentlyTerminal)
    (hget : ∀ k, s'.get k = if k = h then some o' else s.get k) (hsame : SameIds o o') :
    IdsOk s' := by
  refine hok.of_sameIds hids ?_ ?_ fun pos => by rw [hring]
  · intro k p hp
    rw [hget] at hp
    split_ifs at hp with hk
    · rw [hk, ← Option.some.inj hp]
      exact ⟨o, ho, hsame⟩
    · exact ⟨p, hp, rfl, rfl, Iff.rfl⟩
  · intro k p hp
    rw [hget]
    split_ifs with hk
    · rw [hk, ho] at hp
      rw [← Option.some.inj hp]
      exact ⟨o', rfl, hsame⟩
    · exact ⟨p, hp, rfl, rfl, Iff.rfl⟩

/-- One record is rewritten and keeps its id. -/
theorem IdsOk.of_setTerminal {id : ClientOrderId} {r r' : TerminalRecord}
    (hok : IdsOk s) (hr : s.findTerminal id = some r) (hids : s'.ids = s.ids)
    (hpool : s'.pool = s.pool)
    (hring : s'.recentlyTerminal = s.recentlyTerminal.setPos (s.terminalPos id) r')
    (hsame : r'.clOrdId = r.clOrdId) : IdsOk s' := by
  have hget : ∀ k, s'.get k = s.get k := fun k => by unfold get; rw [hpool]
  refine hok.of_sameIds hids ?_ ?_ ?_
  · intro k p hp
    exact ⟨p, hget k ▸ hp, rfl, rfl, Iff.rfl⟩
  · intro k p hp
    exact ⟨p, (hget k).trans hp, rfl, rfl, Iff.rfl⟩
  intro pos
  unfold findTerminal at hr
  have hpos := (atPos_eq_some_iff.mp hr).1
  rw [hring, atPos_setPos hpos]
  split_ifs with heq
  · rw [heq, hr, map_some, map_some, hsame]
  · rfl

/-- Two live orders share no id. -/
theorem IdsOk.slot_eq {s : Oms} (hok : IdsOk s) {h k : Nat} {o p : Order} {id : ClientOrderId}
    (ho : s.get h = some o) (hp : s.get k = some p) (hn : Names o id) (hn' : Names p id) :
    h = k := by
  have h1 := hok.names h o id ho hn
  have h2 := hok.names k p id hp hn'
  rw [h1] at h2
  exact IdRef.opened.inj (Option.some.inj h2)

/-! ## Edits keep it -/

section Erasure

variable {s : Oms} {h : Nat} {o : Order}

section

variable (hok : IdsOk s) (ho : s.get h = some o)
include hok ho

/-- A pending id that is dropped belongs to a pending replace. -/
theorem IdsOk.pending_of_valid
    (hv : o.pendingClOrdId.valid = true) : o.state = .pendingReplace := by
  by_contra hst
  rw [hok.idle h o ho hst] at hv
  exact absurd hv (by decide)

/-- Dropping an order's pending id leaves the other orders' ids alone. -/
theorem IdsOk.pendingErased_other {k : Nat}
    {id : ClientOrderId} (hk : k ≠ h) (hf : s.ids.find id = some (.opened k)) :
    (pendingErased s.ids o).find id = some (.opened k) := by
  by_cases hid : id = o.pendingClOrdId
  · unfold pendingErased
    split_ifs with hp
    · have hst := hok.pending_of_valid ho hp.1
      have hown := hok.names h o id ho (Or.inr ⟨hst, hid.symm⟩)
      rw [hf] at hown
      exact absurd (IdRef.opened.inj (Option.some.inj hown)) hk
    · exact hf
  · rw [find_pendingErased_of_ne (Or.inl hid)]
    exact hf

/-- With its pending id dropped, only an order's own id names its slot. -/
theorem IdsOk.pendingErased_own {id : ClientOrderId}
    (hf : (pendingErased s.ids o).find id = some (.opened h)) : o.clOrdId = id := by
  obtain ⟨p, hp, hn⟩ := hok.named id h (find_of_find_pendingErased hf)
  rw [ho] at hp
  rw [← Option.some.inj hp] at hn
  rcases hn with hn | ⟨hst, hn⟩
  · exact hn
  by_contra hne
  have hne' : o.pendingClOrdId ≠ o.clOrdId := fun he => hne (he.symm.trans hn)
  have hgone := find_pendingErased_self hne' (hok.pendingValid h o ho hne' hst)
    (hok.names h o _ ho (Or.inr ⟨hst, rfl⟩))
  simp [hn, hf] at hgone

end

theorem pendingErased_congr {o' : Order} (hterms : SameTerms o o') (ids : IdMap) :
    pendingErased ids o' = pendingErased ids o := by
  unfold pendingErased
  rw [hterms.pendingClOrdId, hterms.clOrdId]

end Erasure

/-- An end: the order's id names its record, its pending id is gone, its slot is
free. -/
theorem IdsOk.ended {s : Oms} {h : Nat} {o o' : Order} (hok : IdsOk s) (ho : s.get h = some o)
    (hterms : SameTerms o o') (st : OrderState) (br : Bool) : IdsOk (s.ended h o' st br) := by
  have hids : (s.ended h o' st br).ids =
      rememberedIds (pendingErased s.ids o) s.recentlyTerminal o.clOrdId := by
    unfold Oms.ended
    rw [pendingErased_congr hterms, hterms.clOrdId]
  have hown : (pendingErased s.ids o).find o.clOrdId = some (.opened h) := by
    rw [find_pendingErased_of_ne (Or.inr rfl)]
    exact hok.names h o _ ho (Or.inl rfl)
  have hget : ∀ k, (s.ended h o' st br).get k = if k = h then none else s.get k :=
    slots_free ho
  have hlive : ∀ k p, (s.ended h o' st br).get k = some p → k ≠ h ∧ s.get k = some p := by
    intro k p hp
    rw [hget] at hp
    split at hp
    · nomatch hp
    · exact ⟨‹_›, hp⟩
  refine ⟨?_, ?_, ?_, ?_, ?_⟩
  · intro k p id hp hn
    obtain ⟨hk, hp⟩ := hlive k p hp
    have hf := hok.names k p id hp hn
    rw [hids]
    refine find_rememberedIds_of_opened hown (hok.pendingErased_other ho hk hf) ?_
    rintro rfl
    exact hk (hok.slot_eq ho hp (Or.inl rfl) hn).symm
  · intro id k hf
    rw [hids] at hf
    have hne : id ≠ o.clOrdId := by
      rintro rfl
      rw [find_rememberedIds hown, if_pos rfl] at hf
      exact absurd hf (by simp [terminalRef])
    have hf' := find_of_find_rememberedIds hown hf hne
    have hk : k ≠ h := by
      rintro rfl
      exact hne (hok.pendingErased_own ho hf').symm
    rw [hget, if_neg hk]
    exact hok.named id k (find_of_find_pendingErased hf')
  · rw [hids]
    refine RecordsOk.remember ?_ hown hterms.clOrdId
    exact hok.records.of_find fun id v hf => find_of_find_pendingErased hf
  · intro k p hp
    exact hok.idle k p (hlive k p hp).2
  · intro k p hp
    exact hok.pendingValid k p (hlive k p hp).2

/-- A withdrawn replace: its pending id is gone and the order keeps its own. -/
theorem IdsOk.reverted {s : Oms} {h : Nat} {o : Order} (hok : IdsOk s) (ho : s.get h = some o) :
    IdsOk (s.reverted h o) := by
  have hidle := workingState_ne_pendingReplace o
  have hget : ∀ k, (s.reverted h o).get k = if k = h then
      some { clearedOrder o with state := workingState o } else s.get k := slots_set ho
  refine ⟨?_, ?_, ?_, ?_, ?_⟩
  · intro k p id hp hn
    rw [hget] at hp
    split_ifs at hp with hk
    · rw [← Option.some.inj hp] at hn
      rcases hn with hn | hn
      · have hid : id = o.clOrdId := hn.symm
        rw [hk, hid]
        refine (find_pendingErased_of_ne (Or.inr rfl)).trans ?_
        exact hok.names h o _ ho (Or.inl rfl)
      · exact absurd hn.1 hidle
    · exact hok.pendingErased_other ho hk (hok.names k p id hp hn)
  · intro id k hf
    rw [hget]
    split_ifs with hk
    · rw [hk] at hf
      exact ⟨_, rfl, Or.inl (hok.pendingErased_own ho hf)⟩
    · exact hok.named id k (find_of_find_pendingErased hf)
  · exact hok.records.of_find fun id v hf => find_of_find_pendingErased hf
  · exact forall_written hget hok.idle fun _ => rfl
  · exact forall_written hget hok.pendingValid fun _ hst => absurd hst hidle

/-- The id map after a replace: the order's new id stays, its old one is gone or
names the old leg's record, and nothing else moves. -/
theorem IdsOk.replaced_ids {s : Oms} {h : Nat} {o : Order} (hok : IdsOk s) (ho : s.get h = some o)
    (rekey newVenueOrder : Bool) (hrekey : rekey = decide (o.pendingClOrdId ≠ o.clOrdId)) :
    (∀ id k, s.ids.find id = some (.opened k) → (rekey = true → id ≠ o.clOrdId) →
        (s.replaced h o rekey newVenueOrder).ids.find id = some (.opened k)) ∧
      (∀ id k, (s.replaced h o rekey newVenueOrder).ids.find id = some (.opened k) →
        s.ids.find id = some (.opened k) ∧ (rekey = true → id ≠ o.clOrdId)) ∧
      RecordsOk (s.replaced h o rekey newVenueOrder).ids
        (s.replaced h o rekey newVenueOrder).recentlyTerminal := by
  have hown := hok.names h o _ ho (Or.inl rfl)
  cases rekey with
  | false =>
    have hsame : (s.replaced h o false newVenueOrder).ids = s.ids := rfl
    have hring : (s.replaced h o false newVenueOrder).recentlyTerminal = s.recentlyTerminal := rfl
    rw [hsame, hring]
    refine ⟨fun id k hf _ => hf, fun id k hf => ⟨hf, ?_⟩, hok.records⟩
    exact fun hc => absurd hc (by decide)
  | true =>
    cases hkeep : s.keepsRecord h true newVenueOrder with
    | false =>
      have hids : (s.replaced h o true newVenueOrder).ids = openErased s.ids o.clOrdId := by
        unfold Oms.replaced
        simp only [hkeep, Bool.false_eq_true, if_false, if_true]
      have hring : (s.replaced h o true newVenueOrder).recentlyTerminal =
          s.recentlyTerminal := by
        unfold Oms.replaced
        simp only [hkeep, Bool.false_eq_true, if_false]
      rw [hids, hring]
      refine ⟨?_, ?_, hok.records.of_find fun id v hf => find_of_find_openErased hf⟩
      · intro id k hf hne
        rw [find_openErased hown, if_neg (hne rfl)]
        exact hf
      · intro id k hf
        refine ⟨find_of_find_openErased hf, ?_⟩
        rintro - rfl
        rw [find_openErased hown, if_pos rfl] at hf
        nomatch hf
    | true =>
      have hterm : (rememberedIds s.ids s.recentlyTerminal o.clOrdId).find o.clOrdId =
          some (terminalRef s.recentlyTerminal.tail) := by
        rw [find_rememberedIds hown, if_pos rfl]
      have hids : (s.replaced h o true newVenueOrder).ids =
          rememberedIds s.ids s.recentlyTerminal o.clOrdId := by
        unfold Oms.replaced
        simp only [hkeep, if_true]
        exact find_openErased_of_terminal hterm
      have hring : (s.replaced h o true newVenueOrder).recentlyTerminal =
          s.recentlyTerminal.push (oldLegRecord o (s.estimates h)) := by
        unfold Oms.replaced
        simp only [hkeep, if_true]
      rw [hids, hring]
      refine ⟨?_, ?_, hok.records.remember hown rfl⟩
      · intro id k hf hne
        exact find_rememberedIds_of_opened hown hf (hne rfl)
      intro id k hf
      have hne : id ≠ o.clOrdId := by
        rintro rfl
        rw [hterm] at hf
        exact absurd hf (by simp [terminalRef])
      exact ⟨find_of_find_rememberedIds hown hf hne, fun _ => hne⟩

/-- A replace that takes effect: the order goes on under its new id. -/
theorem IdsOk.replaced {s : Oms} {h : Nat} {o : Order} (hok : IdsOk s) (ho : s.get h = some o)
    (hpend : o.state = .pendingReplace) (rekey newVenueOrder : Bool)
    (hrekey : rekey = decide (o.pendingClOrdId ≠ o.clOrdId)) :
    IdsOk (s.replaced h o rekey newVenueOrder) := by
  obtain ⟨hkept, hfrom, hrec⟩ := hok.replaced_ids ho rekey newVenueOrder hrekey
  have hget : ∀ k, (s.replaced h o rekey newVenueOrder).get k =
      if k = h then some (replacedOrder o rekey newVenueOrder) else s.get k := slots_set ho
  -- An amended order keeps its id, which is then its pending id too.
  have hnew : (replacedOrder o rekey newVenueOrder).clOrdId = o.pendingClOrdId := by
    cases rekey with
    | true => rfl
    | false =>
      have hsame : o.pendingClOrdId = o.clOrdId := by simpa using hrekey
      exact hsame.symm
  have hidle : (replacedOrder o rekey newVenueOrder).state ≠ .pendingReplace := by
    intro hst
    have hwork := replacedOrder_isWorking o rekey newVenueOrder
    unfold Order.isWorking at hwork
    rw [hst] at hwork
    exact absurd hwork (by decide)
  have hpending : rekey = true → o.pendingClOrdId ≠ o.clOrdId := fun hr => by
    simpa [hr] using hrekey
  refine ⟨?_, ?_, hrec, ?_, ?_⟩
  · intro k p id hp hn
    rw [hget] at hp
    split_ifs at hp with hk
    · rw [← Option.some.inj hp] at hn
      rcases hn with hn | hn
      · rw [hnew] at hn
        rw [hk, ← hn]
        exact hkept _ h (hok.names h o _ ho (Or.inr ⟨hpend, rfl⟩)) hpending
      · exact absurd hn.1 hidle
    · refine hkept id k (hok.names k p id hp hn) ?_
      rintro - rfl
      exact hk (hok.slot_eq ho hp (Or.inl rfl) hn).symm
  · intro id k hf
    obtain ⟨hf, hne⟩ := hfrom id k hf
    rw [hget]
    split_ifs with hk
    · rw [hk] at hf
      obtain ⟨p, hp, hn⟩ := hok.named id h hf
      rw [ho] at hp
      rw [← Option.some.inj hp] at hn
      refine ⟨_, rfl, Or.inl ?_⟩
      rw [hnew]
      rcases hn with hn | hn
      · cases rekey with
        | true => exact absurd hn.symm (hne rfl)
        | false =>
          have hsame : o.pendingClOrdId = o.clOrdId := by simpa using hrekey
          exact hsame.trans hn
      · exact hn.2
    · exact hok.named id k hf
  · exact forall_written hget hok.idle fun _ => rfl
  · exact forall_written hget hok.pendingValid fun _ hst => absurd hst hidle

/-- A change that leaves the map, the orders and the ring alone. -/
theorem IdsOk.of_eq {s s' : Oms} (hok : IdsOk s) (hids : s'.ids = s.ids)
    (hslots : s'.pool.slots = s.pool.slots)
    (hring : s'.recentlyTerminal = s.recentlyTerminal) : IdsOk s' := by
  have hget : ∀ k, s'.get k = s.get k := fun k => by
    unfold get
    rw [hslots]
  refine hok.of_sameIds hids ?_ ?_ fun pos => by rw [hring]
  · intro k p hp
    exact ⟨p, hget k ▸ hp, rfl, rfl, Iff.rfl⟩
  · intro k p hp
    exact ⟨p, (hget k).trans hp, rfl, rfl, Iff.rfl⟩

/-- Every edit keeps the id map right. -/
theorem IdsOk.edit {t : Target} {s s' : Oms} (hok : IdsOk s) (he : Edit t s s') : IdsOk s' := by
  cases he with
  | quiet hq => exact hok.of_eq hq.ids hq.slots hq.recentlyTerminal
  | touch ho hterms _ hpend =>
    exact hok.of_setOrder ho rfl rfl (slots_set ho) ⟨hterms.clOrdId, hterms.pendingClOrdId, hpend⟩
  | revert ho _ => exact hok.reverted ho
  | finish u st br ho hterms =>
    have hend := hok.ended ho hterms st br
    rw [terminate_fst]
    split
    · exact hend.of_eq rfl rfl rfl
    · exact hend
  | absorb reported u ho =>
    rw [absorbCum_fst]
    split
    · exact hok
    · exact hok.of_setOrder ho rfl rfl (slots_set ho) ⟨rfl, rfl, Iff.rfl⟩
  | fill m corrected vid ho =>
    exact hok.of_setOrder ho rfl rfl (slots_set ho) ⟨rfl, rfl, Iff.rfl⟩
  | take qty _ _ => exact hok.of_eq rfl rfl rfl
  | takeRecord qty hr _ => exact hok.of_setTerminal hr rfl rfl rfl rfl
  | late cum st hr => exact hok.of_setTerminal hr rfl rfl rfl rfl
  | replace u newVenueOrder ho hpend =>
    have hrep := fun nv => hok.replaced ho hpend _ nv rfl
    rw [applyReplace_fst]
    split
    · exact (hrep _).of_eq rfl rfl rfl
    · split
      · exact (hrep _).of_eq rfl rfl rfl
      · exact hrep _

/-! ## Outbound calls keep it -/

section

variable {s : Oms} (hok : IdsOk s)
include hok

/-- An id that names no open order is no live order's id. -/
theorem IdsOk.not_names {id : ClientOrderId}
    (hfree : s.openHandle id = none) {h : Nat} {o : Order} (ho : s.get h = some o) :
    ¬ Names o id := by
  intro hn
  unfold openHandle at hfree
  simp [hok.names h o id ho hn] at hfree

/-- The map after `add_open` of an id that names no open order. -/
theorem IdsOk.assign_records {id : ClientOrderId} {h : Nat} {ids : IdMap}
    (ha : s.ids.assign id (.opened h) = some ids) : RecordsOk ids s.recentlyTerminal := by
  refine hok.records.of_find ?_
  intro k v hf
  rw [find_assign ha] at hf
  split at hf
  · nomatch hf
  · exact hf

theorem IdsOk.submitted {h : Nat} {pool : Pool Order kMaxOpenOrders}
    {ids : IdMap} {o : Order} (now : Timestamp) (halloc : s.pool.allocate = some (h, pool))
    (ha : s.ids.assign o.clOrdId (.opened h) = some ids) (hfree : s.openHandle o.clOrdId = none)
    (hst : o.state ≠ .pendingReplace) (hidle : o.pendingClOrdId = .invalid) :
    IdsOk (s.submitted h pool ids o now) := by
  have hdead := (allocate_spec halloc).1
  have hget := get_submitted ids o now halloc
  have hfind : ∀ k, (s.submitted h pool ids o now).ids.find k =
      if k = o.clOrdId then some (.opened h) else s.ids.find k := find_assign ha
  refine ⟨?_, ?_, hok.assign_records ha, ?_, ?_⟩
  · intro k p id hp hn
    rw [hget] at hp
    rw [hfind]
    split_ifs at hp with hk
    · rw [← Option.some.inj hp] at hn
      rcases hn with hn | hn
      · rw [if_pos hn.symm, hk]
      · exact absurd hn.1 hst
    · rw [if_neg ?_]
      · exact hok.names k p id hp hn
      · rintro rfl
        exact hok.not_names hfree hp hn
  · intro id k hf
    rw [hfind] at hf
    rw [hget]
    split_ifs at hf with hid
    · have hk : k = h := (IdRef.opened.inj (Option.some.inj hf)).symm
      rw [if_pos hk]
      exact ⟨o, rfl, Or.inl hid.symm⟩
    obtain ⟨p, hp, hn⟩ := hok.named id k hf
    have hk : k ≠ h := by
      rintro rfl
      unfold get at hp
      simp [hdead] at hp
    rw [if_neg hk]
    exact ⟨p, hp, hn⟩
  · exact forall_written hget hok.idle fun _ => hidle
  · exact forall_written hget hok.pendingValid fun _ hst' => absurd hst' hst

theorem IdsOk.submit (req : NewOrderRequest) (id : ClientOrderId)
    (now : Timestamp) : IdsOk (s.submit req id now).1 := by
  rcases s.submit_cases req id now with ⟨h, _, hsub⟩ | ⟨_, halike⟩
  · obtain ⟨pool, ids, halloc, ha, hs'⟩ := hsub.state
    have hsubmitted := hok.submitted (o := submittedOrder req id now) now halloc ha hsub.fresh
      (by simp [submittedOrder]) rfl
    rw [hs']
    split
    · exact hsubmitted.of_eq rfl rfl rfl
    · exact hsubmitted
  · exact hok.edit (.quiet (t := .none) halike)

theorem IdsOk.requestReplace (h : Nat) (newId : ClientOrderId)
    (px : Price) (qty : Qty) (now : Timestamp) (hvalid : newId ≠ .invalid) :
    IdsOk (s.requestReplace h newId px qty now).1 := by
  rcases s.requestReplace_cases h newId px qty now with ⟨o, _, hrep⟩ | ⟨_, hsame⟩
  · obtain ⟨ids, hids, hs'⟩ := hrep.state
    have ho := hrep.order
    generalize (s.requestReplace h newId px qty now).1 = s' at hs'
    have hget : ∀ k, s'.get k = if k = h then some (pendingOrder o newId px qty) else s.get k := by
      rw [hs']
      exact slots_set ho
    -- The new id names the slot, whether it was there before or not.
    have hfind : ∀ k, s'.ids.find k = if k = newId then some (.opened h) else s.ids.find k := by
      intro k
      rw [hs']
      rcases hids with ⟨hid, hsame⟩ | ⟨_, _, ha⟩
      · rw [hsame]
        split_ifs with hk
        · rw [hk, hid]
          exact hok.names h o _ ho (Or.inl rfl)
        · rfl
      · exact find_assign ha k
    have hother : ∀ k p, k ≠ h → s.get k = some p → ¬ Names p newId := by
      intro k p hk hp hn
      rcases hids with ⟨hid, _⟩ | ⟨_, hfree, _⟩
      · exact hk (hok.slot_eq ho hp (Or.inl rfl) (hid ▸ hn)).symm
      · exact hok.not_names hfree hp hn
    refine ⟨?_, ?_, ?_, ?_, ?_⟩
    · intro k p id hp hn
      rw [hget] at hp
      rw [hfind]
      split_ifs at hp with hk
      · rw [← Option.some.inj hp] at hn
        rw [hk]
        rcases hn with hn | hn
        · split
          · rfl
          · exact hok.names h o id ho (Or.inl hn)
        · have hid : id = newId := hn.2.symm
          rw [if_pos hid]
      · rw [if_neg ?_]
        · exact hok.names k p id hp hn
        · rintro rfl
          exact hother k p hk hp hn
    · intro id k hf
      rw [hfind] at hf
      rw [hget]
      split_ifs at hf with hid
      · have hk : k = h := (IdRef.opened.inj (Option.some.inj hf)).symm
        rw [if_pos hk]
        exact ⟨_, rfl, Or.inr ⟨rfl, hid.symm⟩⟩
      obtain ⟨p, hp, hn⟩ := hok.named id k hf
      split_ifs with hk
      · rw [hk, ho] at hp
        rw [← Option.some.inj hp] at hn
        refine ⟨_, rfl, Or.inl ?_⟩
        rcases hn with hn | hn
        · exact hn
        have hwork := hrep.working
        unfold Order.isWorking at hwork
        rw [hn.1] at hwork
        exact absurd hwork (by decide)
      · exact ⟨p, hp, hn⟩
    · intro k v hf
      have hring : s'.recentlyTerminal = s.recentlyTerminal := by rw [hs']
      rw [hring]
      rw [hfind] at hf
      split at hf
      · nomatch hf
      · exact hok.records k v hf
    · exact forall_written hget hok.idle fun hst => absurd rfl hst
    · exact forall_written hget hok.pendingValid fun _ _ => hvalid
  · rw [hsame]
    exact hok

end

/-! ## Whole runs -/

/-- A replace is given a valid id. -/
def ValidReplace (_ : Oms) : Call → Prop
  | .requestReplace _ newId _ _ _ => newId.valid = true
  | _ => True

theorem IdsOk.live {s : Oms} (hok : IdsOk s) (id : ClientOrderId) (h : Nat)
    (hf : s.ids.find id = some (.opened h)) : ∃ o, s.get h = some o := by
  obtain ⟨o, ho, _⟩ := hok.named id h hf
  exact ⟨o, ho⟩

theorem IdsOk.init (epoch maxSeq : Nat) : IdsOk (Oms.init epoch maxSeq) := by
  have hids : ∀ id, (Oms.init epoch maxSeq).ids.find id = none := fun _ => rfl
  have hget : ∀ k, (Oms.init epoch maxSeq).get k = none := fun _ => rfl
  refine ⟨?_, ?_, ?_, ?_, ?_⟩
  · intro k p id hp
    exact absurd hp (by simp [hget])
  · intro id k hf
    exact absurd hf (by simp [hids])
  · intro id v hf
    exact absurd hf (by simp [hids])
  · intro k p hp
    exact absurd hp (by simp [hget])
  · intro k p hp
    exact absurd hp (by simp [hget])

/-- The id map is right in every reachable state, and beside it what every operation keeps. -/
theorem Reachable.with_idsOk {P : Oms → Call → Prop} {Inv : Oms → Prop}
    (hP : ∀ s c, P s c → ValidReplace s c)
    (hinit : ∀ epoch maxSeq, Inv (Oms.init epoch maxSeq))
    (hheard : ∀ s seen, Inv s → Inv { s with execSeen := seen })
    (hedit : ∀ t s s', Inv s → Edit t s s' → Inv s')
    (hsubmit : ∀ s req id now, Inv s → P s (.submit req id now) → Inv (s.submit req id now).1)
    (hreplace : ∀ s h newId px qty now, Inv s → P s (.requestReplace h newId px qty now) →
      Inv (s.requestReplace h newId px qty now).1)
    {s : Oms} (h : Reachable P s) : IdsOk s ∧ Inv s := by
  refine @Reachable.of_edits P (fun s => IdsOk s ∧ Inv s)
    (fun epoch maxSeq => ⟨IdsOk.init epoch maxSeq, hinit epoch maxSeq⟩) (fun s hs => hs.1.live)
    (fun s seen hs => ⟨hs.1.of_eq rfl rfl rfl, hheard s seen hs.2⟩)
    (fun t s s' hs he => ⟨hs.1.edit he, hedit t s s' hs.2 he⟩)
    (fun s req id now hs hc => ⟨hs.1.submit req id now, hsubmit s req id now hs.2 hc⟩) ?_ s h
  intro s h newId px qty now hs hc
  have hvalid := (ClientOrderId.valid_eq_true_iff _).mp (hP s _ hc)
  exact ⟨hs.1.requestReplace h newId px qty now hvalid, hreplace s h newId px qty now hs.2 hc⟩

/-! ## The load cap -/

/-- The ids the map can hold: two for each slot and one for each record. -/
def idPool (s : Oms) : Finset ClientOrderId :=
  (Finset.range kMaxOpenOrders).image (fun h => ((s.get h).map (·.clOrdId)).getD .invalid) ∪
    (Finset.range kMaxOpenOrders).image (fun h => ((s.get h).map (·.pendingClOrdId)).getD .invalid)
      ∪ (Finset.range kRecentlyTerminal).image (fun v => (s.recentlyTerminal.buf v).clOrdId)

theorem card_idPool_lt (s : Oms) : s.idPool.card < kIdMapMaxSize := by
  have h1 : ∀ f : Nat → ClientOrderId, ((Finset.range kMaxOpenOrders).image f).card ≤ 4096 :=
    fun f => Finset.card_image_le.trans (by rw [Finset.card_range]; decide)
  have h2 : ∀ f : Nat → ClientOrderId, ((Finset.range kRecentlyTerminal).image f).card ≤ 4096 :=
    fun f => Finset.card_image_le.trans (by rw [Finset.card_range]; decide)
  have hcap : kIdMapMaxSize = 14336 := by decide
  refine lt_of_le_of_lt (Finset.card_union_le _ _) ?_
  refine lt_of_le_of_lt (Nat.add_le_add (Finset.card_union_le _ _) (h2 _)) ?_
  have := h1 fun h => ((s.get h).map (·.clOrdId)).getD .invalid
  have := h1 fun h => ((s.get h).map (·.pendingClOrdId)).getD .invalid
  omega

/-- The map stays below its load cap. -/
theorem IdsOk.size_lt {s : Oms} (hok : IdsOk s) : s.ids.size < kIdMapMaxSize := by
  refine lt_of_le_of_lt (s.ids.size_le_of_subset s.idPool ?_) s.card_idPool_lt
  intro id hne
  obtain ⟨ref, hf⟩ := ne_none_iff_exists'.mp hne
  simp only [idPool, Finset.mem_union, Finset.mem_image, Finset.mem_range]
  cases ref with
  | opened h =>
    obtain ⟨o, ho, hn⟩ := hok.named id h hf
    have hlt : h < kMaxOpenOrders := lt_of_live ho
    rcases hn with hn | hn
    · exact Or.inl (Or.inl ⟨h, hlt, by rw [ho, ← hn]; rfl⟩)
    · exact Or.inl (Or.inr ⟨h, hlt, by rw [ho, ← hn.2]; rfl⟩)
  | terminal v =>
    obtain ⟨pos, r, hv, hr⟩ := hok.records id v hf
    have hbuf := (atPos_eq_some_iff.mp hr.at_pos).2
    refine Or.inr ⟨v, ?_, ?_⟩
    · rw [hv]
      exact Nat.mod_lt pos (by decide)
    · rw [hv, hbuf, hr.clOrdId]

theorem IdsOk.addOpen_ne_none {s : Oms} (hok : IdsOk s) (id : ClientOrderId) (h : Nat) :
    s.addOpen id h ≠ none := by
  unfold addOpen
  intro hnone
  rw [map_eq_none_iff, assign_eq_none_iff] at hnone
  exact absurd hnone.2 (Nat.ne_of_lt hok.size_lt)

/-- The id map is sound.  In every reachable state a live order's id, and its
pending id while a replace waits, name its live slot; every other entry is a
terminal reference that `terminal_pos` resolves to the newest record of exactly
that id; `lookup` never returns a dead slot; and the map is below its load cap,
so `add_open` never fails. -/
theorem idMap_sound {s : Oms} (h : Reachable ValidReplace s) :
    (∀ h o, s.get h = some o → s.ids.find o.clOrdId = some (.opened h) ∧
        (o.state = .pendingReplace → s.ids.find o.pendingClOrdId = some (.opened h))) ∧
      (∀ id ref, s.ids.find id = some ref →
        (∃ h o, ref = .opened h ∧ s.get h = some o ∧
          (o.clOrdId = id ∨ (o.state = .pendingReplace ∧ o.pendingClOrdId = id))) ∨
        (∃ v r, ref = .terminal v ∧ s.findTerminal id = some r ∧ r.clOrdId = id ∧
          ∀ pos r', s.recentlyTerminal.atPos pos = some r' → r'.clOrdId = id →
            pos ≤ s.terminalPos id)) ∧
      (∀ id u h, (s.lookup id u).1 = some h → ∃ o, s.get h = some o) ∧
      s.ids.size < kIdMapMaxSize ∧ ∀ id h, s.addOpen id h ≠ none := by
  obtain ⟨hok, -⟩ := @Reachable.with_idsOk ValidReplace (fun _ => True) (fun _ _ hc => hc)
    (fun _ _ => trivial) (fun _ _ _ => trivial) (fun _ _ _ _ _ => trivial)
    (fun _ _ _ _ _ _ => trivial) (fun _ _ _ _ _ _ _ _ => trivial) s h
  refine ⟨?_, ?_, ?_, hok.size_lt, hok.addOpen_ne_none⟩
  · intro h o ho
    exact ⟨hok.names h o _ ho (Or.inl rfl), fun hst => hok.names h o _ ho (Or.inr ⟨hst, rfl⟩)⟩
  · intro id ref hf
    cases ref with
    | opened h =>
      obtain ⟨o, ho, hn⟩ := hok.named id h hf
      exact Or.inl ⟨h, o, rfl, ho, hn⟩
    | terminal v =>
      obtain ⟨pos, r, hv, hr⟩ := hok.records id v hf
      have hpos := terminalPos_eq hf hv hr.at_pos
      refine Or.inr ⟨v, r, rfl, ?_, hr.clOrdId, ?_⟩
      · unfold findTerminal
        rw [hpos]
        exact hr.at_pos
      · rw [hpos]
        exact hr.newest
  · intro id u h hl
    unfold lookup at hl
    cases hf : s.ids.find id with
    | none =>
      simp [hf] at hl
    | some ref =>
      rw [hf] at hl
      cases ref with
      | opened k =>
        have hk : k = h := Option.some.inj hl
        exact hok.live id h (hk ▸ hf)
      | terminal v =>
        simp only at hl
        split at hl <;> nomatch hl

theorem idMap_sound_pending_replace :
    (((((init 1 kMaxSeq).step (.call (.submit { instrument := ⟨3⟩, qty := 5 } ⟨1⟩ 0))).step
        (.msg (.ack { clOrdId := ⟨1⟩ }))).step
          (.call (.requestReplace 0 ⟨2⟩ 7 9 0))).ids.find ⟨2⟩ = some (.opened 0)) ∧
      ((((init 1 kMaxSeq).step (.call (.submit { instrument := ⟨3⟩, qty := 5 } ⟨1⟩ 0))).step
        (.msg (.ack { clOrdId := ⟨1⟩ }))).step
          (.call (.requestReplace 0 ⟨2⟩ 7 9 0))).ids.size < kIdMapMaxSize := by
  have hsubmit : ValidReplace (init 1 kMaxSeq) (.submit { instrument := ⟨3⟩, qty := 5 } ⟨1⟩ 0) :=
    trivial
  have hreplace : ∀ s, ValidReplace s (.requestReplace 0 ⟨2⟩ 7 9 0) := fun _ => rfl
  have hreach := (((Reachable.init 1 kMaxSeq).call hsubmit).msg (.ack { clOrdId := ⟨1⟩ })).call
    (hreplace _)
  have hsound := idMap_sound hreach
  refine ⟨?_, hsound.2.2.2.1⟩
  exact (hsound.1 0 _ rfl).2 rfl

end Oms

end FastMM
