/-
  Ouch/Booked.lean --- what is booked for a chain is what the exchange has executed.

  Source: as `Ouch/Chain.lean`.

  `Held` is what the order management has of the present leg: no estimate, and, once the leg
  has executed, a count that no report of the chain's count exceeds.
-/
import FastMM.Ouch.Chain
set_option autoImplicit false

namespace FastMM

open Foundation List Oms
open Oms (Msg Ledger Reachable PositiveQty IdsOk Accounts Frame DropsPending)

namespace Ouch

/-! ## The present leg in the order management -/

/-- The ledger of the leg, and where the id of a requested replacement is: with the order, or
nowhere once the order has ended. -/
structure Leg (s : Oms) (c : ClientOrderId) (req : Option ClientOrderId) (x : Qty)
    (counted : Prop) (L : Ledger) : Prop where
  ledger : s.ledger c = some L
  own : L.own = true
  est : L.est = 0
  counted : counted → L.ended = true ∨ min L.qty x ≤ L.cum
  idle : req = none → L.pending = none
  waits : ∀ b, req = some b → b ≠ c ∧
    ((∃ q, L.pending = some (b, q)) ∨ (L.pending = none ∧ s.ids.find b = none))

/-- The leg is known, or neither it nor its replacement is. -/
def Held (s : Oms) (c : ClientOrderId) (req : Option ClientOrderId) (x : Qty)
    (counted : Prop) : Prop :=
  (s.ids.find c = none ∧ ∀ b, req = some b → s.ids.find b = none) ∨
    ∃ L, Leg s c req x counted L

section Held

variable {s s' : Oms} {c : ClientOrderId} {req : Option ClientOrderId} {x y : Qty}
  {counted counted' : Prop} {L L' : Ledger}
variable {b : ClientOrderId}

theorem Held.mono (h : Held s c req x counted) (hc : counted' → counted) :
    Held s c req x counted' :=
  h.imp_right fun ⟨L, hleg⟩ => ⟨L, { hleg with counted := fun h' => hleg.counted (hc h') }⟩

/-- A message that names the leg keeps an id unknown that is. -/
theorem unknown_stays (hok : IdsOk s) (hb : s.ids.find b = none) (m : Msg) :
    (s.receive m).1.ids.find b = none :=
  (receive_frame hok b m (Or.inl hb)).2.find_none hb

/-- The leg after a message that leaves no estimate. -/
theorem Leg.moved (h : Leg s c req x counted L) (hok : IdsOk s) (m : Msg) {cum : Qty}
    (hl : (s.receive m).1.ledger c = some L') (hmoved : L.Moved cum 0 L')
    (hdrop : DropsPending c L L' (s.receive m).1)
    (hcounted : counted' → L.ended = true ∨ min L.qty y ≤ cum) :
    Leg (s.receive m).1 c req y counted' L' where
  ledger := hl
  own := hmoved.own.trans h.own
  est := hmoved.est
  counted := fun hc => by
    rw [hmoved.qty, hmoved.cum]
    exact (hcounted hc).imp_left hmoved.ended
  idle := fun hreq => by
    rw [hmoved.pending, h.idle hreq]
    exact ite_self _
  waits := fun b hreq => by
    obtain ⟨hne, hb⟩ := h.waits b hreq
    refine ⟨hne, ?_⟩
    rcases hb with ⟨q, hpend⟩ | ⟨hpend, hfind⟩
    · rw [hmoved.pending]
      cases hend : L'.ended with
      | false => exact Or.inl ⟨q, hpend⟩
      | true => exact Or.inr ⟨rfl, hdrop b q hpend hne hend⟩
    · refine Or.inr ⟨?_, unknown_stays hok hfind m⟩
      rw [hmoved.pending, hpend]
      exact ite_self _

section

variable (h : Held s c req x counted) (hok : IdsOk s)
include h hok

/-- A fill of the leg is booked in full and brings its count up to the chain's. -/
theorem Held.fill (hacc : Accounts s)
    {f : OrderFillMsg} (hid : f.clOrdId = c) (hcum : f.cumQty = y) (hpos : 0 < y)
    (hnew : ¬ s.Duplicate f) :
    Held (s.receive (.fill f)).1 c req y counted' ∧ (s.receive (.fill f)).2.booked = f.qty := by
  rcases h with ⟨hc, hreq⟩ | ⟨L, hleg⟩
  · refine ⟨Or.inl ⟨unknown_stays hok hc _, fun b hb => unknown_stays hok (hreq b hb) _⟩, ?_⟩
    exact onFill_unknown f (hid ▸ hc) hnew
  obtain ⟨L', hl, hmoved, hdrop, hbooked⟩ :=
    onFill_spec hok hacc f hnew (hid ▸ hleg.ledger) hleg.own
  have hnamed : L.named f = 0 := by
    unfold Oms.Ledger.named
    rw [hleg.est, if_neg (lt_irrefl 0)]
  rw [hnamed, hleg.est, sub_zero] at hmoved
  rw [hnamed, sub_zero] at hbooked
  refine ⟨Or.inr ⟨L', hleg.moved hok (.fill f) (hid ▸ hl) hmoved (hid ▸ hdrop) ?_⟩, hbooked⟩
  intro _
  right
  unfold Oms.Ledger.filledTo
  rw [hcum, if_pos hpos]
  exact le_max_right _ _

/-- A report of the chain's count books nothing once the leg's count is up to it. -/
theorem Held.report {m : Msg} (hid : m.clOrdId = c)
    (hm : m.reported = some x) (hcounted : counted) :
    Held (s.receive m).1 c req x counted ∧ (s.receive m).2.booked = 0 := by
  rcases h with ⟨hc, hreq⟩ | ⟨L, hleg⟩
  · refine ⟨Or.inl ⟨unknown_stays hok hc _, fun b hb => unknown_stays hok (hreq b hb) _⟩, ?_⟩
    refine receive_unknown m (hid ▸ hc) ?_
    rintro f rfl
    exact absurd hm (by simp [Oms.Msg.reported])
  obtain ⟨L', hl, hmoved, hdrop, hbooked⟩ :=
    receive_report hok hm (hid ▸ hleg.ledger) hleg.own
  have hsame : L.reportedTo x = L.cum := by
    unfold Oms.Ledger.reportedTo
    rcases hleg.counted hcounted with hend | hle
    · rw [if_pos hend]
    · rw [max_eq_left hle, ite_self]
  rw [hsame, hleg.est, sub_self, add_zero] at hmoved
  rw [hsame, sub_self] at hbooked
  exact ⟨Or.inr ⟨L', hleg.moved hok m (hid ▸ hl) hmoved (hid ▸ hdrop) hleg.counted⟩, hbooked⟩

/-- The ack of the new order books nothing. -/
theorem Held.ack {m : OrderAckMsg}
    (hid : m.clOrdId = c) :
    Held (s.receive (.ack m)).1 c req x counted ∧ (s.receive (.ack m)).2.booked = 0 := by
  subst hid
  rcases h with ⟨hc, hreq⟩ | ⟨L, hleg⟩
  · refine ⟨Or.inl ⟨unknown_stays hok hc _, fun b hb => unknown_stays hok (hreq b hb) _⟩, ?_⟩
    exact receive_unknown (.ack m) hc (by simp)
  cases hpend : L.pending with
  | none =>
    obtain ⟨L', hl, hset, hbooked⟩ :=
      @receive_answer s L (.ack m) hok rfl hleg.ledger hleg.own hpend
    have hset' : L.Moved L.cum 0 L' := hleg.est ▸ hset
    exact ⟨Or.inr ⟨L', hleg.moved hok (.ack m) hl hset' (.of_idle hpend) hleg.counted⟩, hbooked⟩
  | some p =>
    obtain ⟨b, q⟩ := p
    have hreq : ∃ b', req = some b' := by
      cases hreq : req with
      | none =>
        simp [hleg.idle hreq] at hpend
      | some b' => exact ⟨b', rfl⟩
    obtain ⟨b', hreq⟩ := hreq
    obtain ⟨hne, hb⟩ := hleg.waits b' hreq
    have hbb : b' = b := by
      rcases hb with ⟨q', hq'⟩ | ⟨hnone, _⟩
      · rw [hpend] at hq'
        exact (congrArg Prod.fst (Option.some.inj hq')).symm
      · simp [hpend] at hnone
    obtain ⟨hsame, hbooked⟩ :=
      @receive_answer_waiting _ b q s L hleg.ledger hleg.own hpend (hbb ▸ hne) (.ack m) rfl rfl
    rw [hsame]
    exact ⟨Or.inr ⟨L, hleg⟩, hbooked⟩

end

/-- The ack of the requested replacement books nothing, and the replacement starts from zero. -/
theorem Held.replaced (h : Held s c (some b) x counted) (hok : IdsOk s)
    (hacc : Accounts s) {m : OrderAckMsg} (hid : m.clOrdId = b) (hnew : m.amendedInPlace = false) :
    Held (s.receive (.ack m)).1 b none x (x = 0) ∧ (s.receive (.ack m)).2.booked = 0 := by
  have hunknown : s.ids.find b = none →
      Held (s.receive (.ack m)).1 b none x (x = 0) ∧ (s.receive (.ack m)).2.booked = 0 := by
    intro hb
    refine ⟨Or.inl ⟨unknown_stays hok hb _, fun b' hb' => nomatch hb'⟩, ?_⟩
    subst hid
    exact receive_unknown (.ack m) hb (by simp)
  rcases h with ⟨_, hreq⟩ | ⟨L, hleg⟩
  · exact hunknown (hreq b rfl)
  obtain ⟨hne, hb⟩ := hleg.waits b rfl
  rcases hb with ⟨q, hpend⟩ | ⟨_, hb⟩
  · obtain ⟨hl, _, hbooked⟩ :=
      onAck_replaced hok hacc hleg.ledger hleg.own hpend hne hid hnew
    refine ⟨Or.inr ⟨_, hl, rfl, rfl, fun hx => Or.inr ?_, fun _ => rfl, fun b' hb' => ?_⟩, hbooked⟩
    · rw [hx]
      exact min_le_right _ _
    · nomatch hb'
  · exact hunknown hb

/-- A replacement is requested. -/
theorem Held.request (h : Held s c req x counted) {k : Nat}
    {px : Price} {q : Qty} {now : Timestamp} (hk : s.openHandle c = some k) (hne : b ≠ c)
    (hres : (s.requestReplace k b px q now).2 = .ok ()) :
    Held (s.requestReplace k b px q now).1 c (some b) x counted := by
  have hf := find_of_openHandle hk
  rcases h with ⟨hc, _⟩ | ⟨L, hleg⟩
  · simp [hc] at hf
  have hl := ledger_requestReplace hk hleg.ledger hres
  refine Or.inr ⟨_, hl, hleg.own, hleg.est, hleg.counted, nofun, ?_⟩
  intro b' hb'
  obtain rfl : b = b' := Option.some.inj hb'
  exact ⟨hne, Or.inl ⟨q, rfl⟩⟩

/-- A change of an order's state or flags leaves the leg. -/
theorem Held.touched (h : Held s c req x counted) (hok : IdsOk s) {k : Nat}
    (ht : Oms.Touched k s s') : Held s' c req x counted := by
  have hids : s'.ids = s.ids := by
    rcases ht with rfl | ⟨o, o', -, -, -, -, rfl⟩
    · rfl
    · rfl
  have hfr : ∀ id, Frame id s s' := fun id => Frame.of_touched hok ht
  have hfind : ∀ id, s'.ids.find id = s.ids.find id := fun id => by rw [hids]
  rcases h with ⟨hc, hreq⟩ | ⟨L, hleg⟩
  · exact Or.inl ⟨(hfind c).trans hc, fun b hb => (hfind b).trans (hreq b hb)⟩
  refine Or.inr ⟨L, { hleg with ledger := ?_, waits := fun b hb => ?_ }⟩
  · exact ((hfr c).ledger_eq hids).trans hleg.ledger
  · rw [hfind]
    exact hleg.waits b hb

/-- The leg of an order just sent. -/
theorem Held.sent {req : NewOrderRequest} {now : Timestamp} {k : Nat}
    (hsub : (s.submit req c now).2 = .ok k) :
    Held (s.submit req c now).1 c none 0 counted := by
  refine Or.inr ⟨_, ledger_submit hsub, rfl, rfl, fun _ => Or.inr ?_, fun _ => rfl, ?_⟩
  · exact min_le_right _ _
  · exact fun b hb => nomatch hb

end Held

/-! ## The decoder's entry -/

section Decoder

variable {d : OuchDecoder} {key : Nat} {e : OrderEntry}

theorem find_setEntry (hroom : d.orders.find key ≠ none ∨ d.orders.size < kOrders) :
    (d.setEntry key e).orders.find key = some e := by
  unfold OuchDecoder.setEntry
  cases ha : d.orders.assign key e with
  | none =>
    obtain ⟨hnone, hfull⟩ := (d.orders.assign_eq_none_iff key e).mp ha
    rcases hroom with hsome | hlt
    · exact absurd hnone hsome
    · omega
  | some orders =>
    rw [CappedMap.find_assign ha, if_pos rfl]

theorem stamp_setEntry (ts : Nat) (inst : InstrumentId) (rx : Int) :
    (d.setEntry key e).stamp ts inst rx = d.stamp ts inst rx := by
  unfold OuchDecoder.setEntry
  cases d.orders.assign key e <;> rfl

/-- Dropping an entry leaves room for one. -/
theorem size_forget (h : d.orders.find key ≠ none) : (d.forget key).orders.size < kOrders := by
  have hmem : key ∈ d.orders.keys := by
    rw [d.orders.mem_keys]
    exact Option.isSome_iff_ne_none.mpr h
  have hcard := Finset.card_erase_lt_of_mem hmem
  exact lt_of_lt_of_le hcard d.orders.card_le

/-- What an Accepted or a Replaced becomes: an ack, and an expiry when the order was canceled at
once. -/
theorem accept_spec {d : OuchDecoder} {key room : Nat} {id : ClientOrderId} {prev : Option Nat}
    {t : OuchDecoder.Terms} {rx : Int}
    (hside : (sideFromCode t.buySellIndicator).isSome = true) (hroom : 2 ≤ room)
    (hsize : d.orders.size < kOrders ∨ ∃ p, prev = some p ∧ d.orders.find p ≠ none) :
    ∃ side hdr, let e := d.newEntry id prev t side
      let r := d.accept key id prev t rx ⟨room, []⟩
      (t.orderState ≠ 'D' → r.2.1.orders.find key = some e ∧
          r.2.2.events = [OuchDecoder.ackMsg hdr e]) ∧
        (t.orderState = 'D' →
          r.2.2.events = [OuchDecoder.ackMsg hdr e, OuchDecoder.expiredMsg hdr e]) := by
  obtain ⟨side, hside⟩ := Option.isSome_iff_exists.mp hside
  obtain ⟨n, rfl⟩ : ∃ n, room = n + 2 := ⟨room - 2, by omega⟩
  obtain ⟨d', hd', hroom'⟩ : ∃ d', d' = prev.elim d d.forget ∧ d'.orders.size < kOrders := by
    refine ⟨_, rfl, ?_⟩
    cases prev with
    | none =>
      rcases hsize with hlt | ⟨p, hp, _⟩
      · exact hlt
      · cases hp
    | some p =>
      rcases hsize with hlt | ⟨q, hq, hfind⟩
      · exact lt_of_le_of_lt (Finset.card_le_card (Finset.erase_subset _ _)) hlt
      · obtain rfl : p = q := Option.some.inj hq
        exact size_forget hfind
  refine ⟨side, d'.stamp t.timestamp (d.newEntry id prev t side).instrument rx, ?_, ?_⟩ <;>
    subst hd'
  · intro hstate
    unfold OuchDecoder.accept
    simp only [hside, EventSink.commit, if_neg hstate]
    cases prev <;> exact ⟨find_setEntry (Or.inr hroom'), rfl⟩
  · intro hstate
    unfold OuchDecoder.accept
    simp only [hside, EventSink.commit, if_pos hstate, OuchDecoder.emit]
    cases prev <;> rfl

/-- An execution of an order of the table: its fill carries the count after it. -/
theorem execute_spec {ts shares room matchNumber : Nat} {price : Price} {rx : Int}
    (he : d.orders.find key = some e) (hroom : 1 ≤ room) :
    ∃ f : OrderFillMsg, f.clOrdId = e.clOrdId ∧ f.qty = sharesToQty shares ∧
      f.cumQty = e.cum + sharesToQty shares ∧
      let r := d.execute key ts shares (some price) matchNumber rx ⟨room, []⟩
      r.2.2.events = [.fill f] ∧
        (sharesToQty shares < e.leaves →
          r.2.1.orders.find key = some (OuchDecoder.executedEntry e (sharesToQty shares))) := by
  obtain ⟨n, rfl⟩ : ∃ n, room = n + 1 := ⟨room - 1, by omega⟩
  refine ⟨OuchDecoder.fillMsg (d.stamp ts e.instrument rx)
    (OuchDecoder.executedEntry e (sharesToQty shares)) matchNumber price (sharesToQty shares),
    rfl, rfl, rfl, ?_, ?_⟩
  · unfold OuchDecoder.execute
    simp only [he]
    split
    · rw [stamp_setEntry]
      rfl
    · rfl
  · intro hlt
    have hpos : 0 < (OuchDecoder.executedEntry e (sharesToQty shares)).leaves := by
      unfold OuchDecoder.executedEntry
      rw [if_neg (not_le.mpr hlt)]
      exact sub_pos.mpr hlt
    unfold OuchDecoder.execute
    simp only [he, if_pos hpos]
    refine find_setEntry (Or.inl ?_)
    rw [he]
    simp

/-- A cancel of an order of the table: nothing while shares are left, and then one report of
its count. -/
theorem cancel_spec {ts shares room : Nat} {reason : Char} {rx : Int}
    (he : d.orders.find key = some e) (hroom : 1 ≤ room) :
    let r := d.cancel key ts shares reason rx ⟨room, []⟩
    (sharesToQty shares < e.leaves → r.2.2.events = [] ∧
        r.2.1.orders.find key = some { e with leaves := e.leaves - sharesToQty shares }) ∧
      (e.leaves ≤ sharesToQty shares → ∃ m : Msg, m.clOrdId = e.clOrdId ∧
        m.reported = some e.cum ∧ r.2.2.events = [m]) := by
  obtain ⟨n, rfl⟩ : ∃ n, room = n + 1 := ⟨room - 1, by omega⟩
  constructor
  · intro hlt
    unfold OuchDecoder.cancel
    simp only [he, ge_iff_le, if_neg (not_le.mpr hlt), if_pos (sub_pos.mpr hlt)]
    refine ⟨trivial, find_setEntry (Or.inl ?_)⟩
    rw [he]
    simp
  · intro hle
    unfold OuchDecoder.cancel
    simp only [he, ge_iff_le, if_pos hle, lt_irrefl, if_false]
    split_ifs with hreason
    · exact ⟨_, rfl, rfl, rfl⟩
    · exact ⟨_, rfl, rfl, rfl⟩

end Decoder

/-! ## Steps -/

namespace Chain

variable {m : OuchMsg}
variable {rx : Int}
variable {t : OuchDecoder.Terms}

/-- Shares are handed on in the engine's scale. -/
theorem sharesToQty_add (m n : Nat) : sharesToQty (m + n) = sharesToQty m + sharesToQty n := by
  unfold sharesToQty
  push_cast
  ring

theorem sharesToQty_lt {m n : Nat} : sharesToQty m < sharesToQty n ↔ m < n := by
  show (m : Int) * 100000000 < (n : Int) * 100000000 ↔ m < n
  omega

theorem sharesToQty_sub {m n : Nat} (h : n ≤ m) :
    sharesToQty (m - n) = sharesToQty m - sharesToQty n := by
  unfold sharesToQty
  rw [Nat.cast_sub h]
  ring

/-- The bookings and the decoder's entry follow the exchange. -/
structure Follows (w : Chain) : Prop where
  reach : Reachable PositiveQty w.oms
  booked : w.booked = sharesToQty w.executed
  held : Held w.oms w.id w.requested (sharesToQty w.executed) (Ready w)
  entry : 0 < w.leaves → ∃ e, w.dec.orders.find w.key = some e ∧ e.clOrdId = w.id ∧
    e.leaves = sharesToQty w.leaves ∧ e.cum = sharesToQty w.executed
  unsent : w.accepted = false → w.leaves = 0 ∧ w.executed = 0 ∧ w.dec.orders.size < kOrders

variable {w : Chain}

/-- An ack that books nothing. -/
theorem follows_acked (hreach : Reachable PositiveQty w.oms)
    (hbooked : w.booked = sharesToQty w.executed) {m : OrderAckMsg}
    (hheld : Held (w.oms.receive (.ack m)).1 w.id w.requested (sharesToQty w.executed) (Ready w))
    (hzero : (w.oms.receive (.ack m)).2.booked = 0)
    (hentry : 0 < w.leaves → ∃ e, w.dec.orders.find w.key = some e ∧ e.clOrdId = w.id ∧
      e.leaves = sharesToQty w.leaves ∧ e.cum = sharesToQty w.executed)
    (haccepted : w.accepted = true) : Follows (w.hear (.ack m)) where
  reach := hreach.msg (.ack m)
  booked := by
    show w.booked + (w.oms.receive (.ack m)).2.booked = sharesToQty w.executed
    rw [hzero, add_zero, hbooked]
  held := hheld
  entry := hentry
  unsent := fun hnew => by
    have hnew' : w.accepted = false := hnew
    simp [haccepted] at hnew'

section

variable (h : Follows w)
include h

/-- A report of the chain's count, once the leg counts as much. -/
theorem Follows.report {m : Msg} (hid : m.clOrdId = w.id)
    (hm : m.reported = some (sharesToQty w.executed)) (hready : Ready w) :
    Follows (w.hear m) := by
  obtain ⟨hok, -⟩ := h.reach.accounts fun _ _ hc => hc
  obtain ⟨hheld, hzero⟩ := h.held.report hok hid hm hready
  refine { h with reach := h.reach.msg m, booked := ?_, held := hheld }
  show w.booked + (w.oms.receive m).2.booked = sharesToQty w.executed
  rw [hzero, add_zero, h.booked]

theorem Follows.accept {key room : Nat} (hnew : w.accepted = false)
    (hm : m.Accepts w.dec key w.id t)
    (hside : (sideFromCode t.buySellIndicator).isSome = true) (hroom : 2 ≤ room) :
    Follows (deliver { w with
      accepted := true
      key := key
      leaves := if t.orderState = 'D' then 0 else t.shares } m rx room) := by
  obtain ⟨-, hx, hsize⟩ := h.unsent hnew
  obtain ⟨hok, -⟩ := h.reach.accounts fun _ _ hc => hc
  obtain ⟨side, hdr, hopen, hdead⟩ :=
    @accept_spec w.dec key room w.id none t rx hside hroom (Or.inl hsize)
  have hacked := h.held.ack hok
    (m := { hdr := hdr, clOrdId := w.id, venueOrderId := decimal t.referenceNumber }) rfl
  unfold deliver
  dsimp only
  rw [hm.decode]
  by_cases hstate : t.orderState = 'D'
  · rw [hdead hstate, if_pos hstate]
    simp only [foldl_cons, foldl_nil]
    refine Follows.report ?_ rfl ?_ (Or.inr hx)
    · exact follows_acked (w := { w with
        accepted := true
        key := key
        leaves := 0
        dec := (w.dec.accept key w.id none t rx ⟨room, []⟩).2.1 }) h.reach h.booked hacked.1
        hacked.2 (fun hpos => absurd hpos (lt_irrefl 0)) rfl
    · show some (0 : Qty) = some (sharesToQty w.executed)
      rw [hx]
      rfl
  · obtain ⟨hfind, hevents⟩ := hopen hstate
    rw [hevents, if_neg hstate]
    simp only [foldl_cons, foldl_nil]
    refine follows_acked (w := { w with
      accepted := true
      key := key
      leaves := t.shares
      dec := (w.dec.accept key w.id none t rx ⟨room, []⟩).2.1 }) h.reach h.booked hacked.1
      hacked.2 (fun _ => ?_) rfl
    refine ⟨_, hfind, rfl, rfl, ?_⟩
    rw [hx]
    rfl

theorem Follows.replace {key room : Nat} {b : ClientOrderId} (hreq : w.requested = some b)
    (hlive : 0 < w.leaves) (hm : m.Replaces w.dec w.key key b t)
    (hside : (sideFromCode t.buySellIndicator).isSome = true) (hroom : 2 ≤ room)
    (hready : t.orderState = 'D' → Ready { w with legExecuted := 0 }) :
    Follows (deliver { w with
      id := b
      key := key
      leaves := if t.orderState = 'D' then 0 else t.shares
      legExecuted := 0
      requested := none } m rx room) := by
  have haccepted : w.accepted = true := by
    cases hacc : w.accepted with
    | true => rfl
    | false =>
      have hl := (h.unsent hacc).1
      omega
  obtain ⟨hok, hacc⟩ := h.reach.accounts fun _ _ hc => hc
  obtain ⟨old, hfind, -, -, hcum⟩ := h.entry hlive
  obtain ⟨side, hdr, hopen, hdead⟩ :=
    @accept_spec w.dec key room b (some w.key) t rx hside hroom
      (Or.inr ⟨w.key, rfl, by rw [hfind]; simp⟩)
  have hnewcum : (w.dec.newEntry b (some w.key) t side).cum = sharesToQty w.executed := by
    unfold OuchDecoder.newEntry
    simp only [Option.bind_some, hfind, Option.map_some, Option.getD_some, hcum]
  obtain ⟨hheld, hzero⟩ := Held.replaced (hreq ▸ h.held) hok hacc
    (m := { hdr := hdr, clOrdId := b, venueOrderId := decimal t.referenceNumber }) rfl rfl
  have hcounted : (0 < 0 ∨ w.executed = 0) → sharesToQty w.executed = 0 := by
    rintro (hlt | hx)
    · exact absurd hlt (lt_irrefl 0)
    · rw [hx]
      rfl
  unfold deliver
  dsimp only
  rw [hm.decode]
  by_cases hstate : t.orderState = 'D'
  · rw [hdead hstate, if_pos hstate]
    simp only [foldl_cons, foldl_nil]
    refine Follows.report ?_ rfl ?_ (hready hstate)
    · exact follows_acked (w := { w with
        id := b
        key := key
        leaves := 0
        legExecuted := 0
        requested := none
        dec := (w.dec.accept key b (some w.key) t rx ⟨room, []⟩).2.1 }) h.reach h.booked
        (hheld.mono hcounted) hzero (fun hpos => absurd hpos (lt_irrefl 0)) haccepted
    · exact congrArg some hnewcum
  · obtain ⟨hnew, hevents⟩ := hopen hstate
    rw [hevents, if_neg hstate]
    simp only [foldl_cons, foldl_nil]
    exact follows_acked (w := { w with
      id := b
      key := key
      leaves := t.shares
      legExecuted := 0
      requested := none
      dec := (w.dec.accept key b (some w.key) t rx ⟨room, []⟩).2.1 }) h.reach h.booked
      (hheld.mono hcounted) hzero (fun _ => ⟨_, hnew, rfl, rfl, hnewcum⟩) haccepted

theorem Follows.execute {shares room : Nat}
    (hpos : 0 < shares) (hle : shares ≤ w.leaves) (hm : m.Executes w.key shares) (hroom : 2 ≤ room)
    (hfresh : ∀ f ∈ (m.decode w.dec rx ⟨room, []⟩).2.2.events, Fresh w.oms f) :
    Follows (deliver { w with
      leaves := w.leaves - shares
      executed := w.executed + shares
      legExecuted := w.legExecuted + shares } m rx room) := by
  obtain ⟨hok, hacc⟩ := h.reach.accounts fun _ _ hc => hc
  obtain ⟨e, he, hid, hleaves, hcum⟩ := h.entry (by omega)
  obtain ⟨ts, price, matchNumber, hdecode⟩ := @OuchMsg.Executes.decode w.dec m w.key shares rx
    ⟨room, []⟩ hm
  obtain ⟨f, hfid, hfqty, hfcum, hevents, hkept⟩ := @execute_spec w.dec w.key e ts shares room
    matchNumber price rx he (by omega)
  rw [hdecode] at hfresh
  have hnew : ¬ w.oms.Duplicate f := by
    refine hfresh (.fill f) ?_
    rw [hevents]
    exact mem_singleton_self _
  rw [hcum, ← sharesToQty_add] at hfcum
  have hcpos : 0 < sharesToQty (w.executed + shares) := by
    have hlt : sharesToQty 0 < sharesToQty (w.executed + shares) := sharesToQty_lt.mpr (by omega)
    exact hlt
  have hfill : Held (w.oms.receive (.fill f)).1 w.id w.requested (sharesToQty (w.executed + shares))
        (0 < w.legExecuted + shares ∨ w.executed + shares = 0) ∧
      (w.oms.receive (.fill f)).2.booked = f.qty :=
    h.held.fill hok hacc (hfid.trans hid) hfcum hcpos hnew
  obtain ⟨hheld, hbooked⟩ := hfill
  unfold deliver
  dsimp only
  rw [hdecode, hevents]
  simp only [foldl_cons, foldl_nil]
  refine ⟨h.reach.msg (.fill f), ?_, hheld, fun hleft => ?_, fun hnot => ?_⟩
  · show w.booked + (w.oms.receive (.fill f)).2.booked = sharesToQty (w.executed + shares)
    rw [hbooked, h.booked, hfqty, sharesToQty_add]
  · have hleft' : 0 < w.leaves - shares := hleft
    have hlt : sharesToQty shares < e.leaves := by
      rw [hleaves, sharesToQty_lt]
      omega
    refine ⟨_, hkept hlt, hid, ?_, ?_⟩
    · show (OuchDecoder.executedEntry e (sharesToQty shares)).leaves =
        sharesToQty (w.leaves - shares)
      unfold OuchDecoder.executedEntry
      rw [if_neg (not_le.mpr hlt), hleaves, sharesToQty_sub hle]
    · show e.cum + sharesToQty shares = sharesToQty (w.executed + shares)
      rw [hcum, sharesToQty_add]
  · have hl := (h.unsent hnot).1
    omega

theorem Follows.cancel {shares room : Nat}
    (hlive : 0 < w.leaves) (hle : shares ≤ w.leaves) (hm : m.Cancels w.key shares)
    (hroom : 2 ≤ room) (hready : shares = w.leaves → Ready w) :
    Follows (deliver { w with leaves := w.leaves - shares } m rx room) := by
  obtain ⟨e, he, hid, hleaves, hcum⟩ := h.entry hlive
  obtain ⟨ts, reason, hdecode⟩ := @OuchMsg.Cancels.decode w.dec m w.key shares rx ⟨room, []⟩ hm
  obtain ⟨hleft, hfull⟩ := @cancel_spec w.dec w.key e ts shares room reason rx he (by omega)
  have haccepted : w.accepted ≠ false := fun hacc => by
    have hl := (h.unsent hacc).1
    omega
  unfold deliver
  dsimp only
  rw [hdecode]
  by_cases hall : shares = w.leaves
  · obtain ⟨m', hmid, hrep, hevents⟩ := hfull (by rw [hleaves, hall])
    rw [hevents]
    simp only [foldl_cons, foldl_nil]
    have hgone : Follows { w with
        leaves := w.leaves - shares
        dec := (w.dec.cancel w.key ts shares reason rx ⟨room, []⟩).2.1 } :=
      { h with
        entry := fun hleft => by
          have hleft' : 0 < w.leaves - shares := hleft
          omega
        unsent := fun hacc => absurd hacc haccepted }
    exact hgone.report (hmid.trans hid) (by rw [hrep, hcum]) (hready hall)
  · have hlt : sharesToQty shares < e.leaves := by
      rw [hleaves, sharesToQty_lt]
      omega
    obtain ⟨hevents, hkept⟩ := hleft hlt
    rw [hevents, foldl_nil]
    refine { h with entry := fun _ => ?_, unsent := fun hacc => absurd hacc haccepted }
    refine ⟨_, hkept, hid, ?_, hcum⟩
    rw [hleaves, sharesToQty_sub hle]

theorem Follows.step {w' : Chain} (hs : Step Ready Fresh w w') : Follows w' := by
  cases hs with
  | accept hnew hm hside _ hroom => exact h.accept hnew hm hside hroom
  | @requestReplace k b px q now hk hne hvalid hqty hok =>
    exact { h with
      reach := Reachable.step h.reach (.call (.requestReplace k b px q now)) ⟨hvalid, hqty⟩
      held := h.held.request hk hne hok }
  | @requestCancel k =>
    obtain ⟨hok, -⟩ := h.reach.accounts fun _ _ hc => hc
    have ht := (w.oms.requestCancel_touched k).1
    exact { h with
      reach := Reachable.step h.reach (.call (.requestCancel k)) trivial
      held := h.held.touched hok ht }
  | @requestCancelUnacked k =>
    obtain ⟨hok, -⟩ := h.reach.accounts fun _ _ hc => hc
    have ht := (w.oms.requestCancel_touched k).2
    exact { h with
      reach := Reachable.step h.reach (.call (.requestCancelUnacked k)) trivial
      held := h.held.touched hok ht }
  | replace hreq hlive hm hside _ hroom hready =>
    exact h.replace hreq hlive hm hside hroom hready
  | execute hpos hle hm hroom hfresh => exact h.execute hpos hle hm hroom hfresh
  | cancel hlive hle hm hroom hready => exact h.cancel hlive hle hm hroom hready

end

theorem Follows.sent (h : Sent w) : Follows w := by
  obtain ⟨s, req, now, k, dec, id, hreach, hsub, hqty, hroom, rfl⟩ := h
  have hzero : sharesToQty 0 = 0 := rfl
  exact
    { reach := Reachable.step hreach (.call (.submit req id now)) hqty
      booked := hzero.symm
      held := by
        rw [hzero]
        exact Held.sent hsub
      entry := fun hpos => absurd hpos (lt_irrefl 0)
      unsent := fun _ => ⟨rfl, rfl, hroom⟩ }

/-- At every point of a chain what is booked is what the exchange has executed, in every run in
which no replacement ends before it has executed anything of a chain that has, and no execution
is filed under the key of an earlier one. -/
theorem booked_eq_executed {w₀ w : Chain} (h₀ : Sent w₀) (hrun : Run Ready Fresh w₀ w) :
    w.booked = sharesToQty w.executed := by
  have hfollows : Follows w := by
    induction hrun with
    | refl => exact .sent h₀
    | tail _ hs ih => exact ih.step hs
  exact hfollows.booked

/-! ## Two chains -/

/-- The token of a client order id below ten. -/
def tokenOf (n : Char) : List Char := ['f', 'm'] ++ List.replicate 11 '0' ++ [n]

def termsOf (shares : Nat) : OuchDecoder.Terms := ⟨0, 'B', shares, [], 7, 'L'⟩

/-- Hundred shares to buy, just sent. -/
def sentOrder : Chain where
  oms := ((Oms.init 1 kMaxSeq).submit
    { instrument := ⟨0⟩, side := .buy, qty := sharesToQty 100 } ⟨1⟩ 0).1
  dec := {}
  id := ⟨1⟩

theorem sentOrder_sent : Sent sentOrder :=
  ⟨Oms.init 1 kMaxSeq, _, 0, 0, {}, ⟨1⟩, Oms.Reachable.init _ _, rfl, by decide, by decide, rfl⟩

/-- Thirty shares execute, the rest is replaced, twenty more execute and the others are
canceled. -/
theorem booked_fifty :
    ∃ w, Run Ready Fresh sentOrder w ∧ w.executed = 50 ∧ w.booked = sharesToQty 50 := by
  have hrun : Run Ready Fresh sentOrder _ :=
    ((((((Relation.ReflTransGen.refl.tail
      (@Step.accept _ _ _ (.v50 (.orderAccepted 1 (tokenOf '1') (termsOf 100))) 1 2 (termsOf 100) 0
        rfl ⟨by decide, by decide, rfl, rfl⟩ rfl (by decide) (by decide))).tail
      (@Step.execute _ _ _ (.v50 (.orderExecuted 0 1 30 1000000 501)) 30 2 0 (by decide)
        (by decide) ⟨by decide, rfl, by decide⟩ (by decide)
        (by decide))).tail
      (@Step.requestReplace _ _ _ 0 ⟨2⟩ 0 (sharesToQty 100) 0 rfl (by decide) (by decide)
        (by decide) rfl)).tail
      (@Step.replace _ _ _ (.v50 (.orderReplaced 2 1 (tokenOf '2') (termsOf 70))) 2 2 ⟨2⟩
        (termsOf 70) 0 rfl (by decide) ⟨by decide, by decide, rfl, by decide, rfl⟩ rfl (by decide)
        (by decide) (fun hstate => absurd hstate (by decide)))).tail
      (@Step.execute _ _ _ (.v50 (.orderExecuted 0 2 20 1000000 502)) 20 2 0 (by decide)
        (by decide) ⟨by decide, rfl, by decide⟩ (by decide) (by decide))).tail
      (@Step.cancel _ _ _ (.v50 (.orderCanceled 0 2 50 'U')) 50 2 0 (by decide) (by decide)
        ⟨by decide, rfl⟩ (by decide) (fun _ => Or.inl (by decide))))
  exact ⟨_, hrun, rfl, booked_eq_executed sentOrder_sent hrun⟩

/-- Thirty shares execute, the rest is replaced and then canceled: the cancel reports the
chain's count, which the replacement's own lacks, and it is booked again. -/
theorem booked_twice_after_replace : ¬ ∀ w₀ w : Chain, Sent w₀ → Run (fun _ => True) Fresh w₀ w →
      w.booked = sharesToQty w.executed := by
  intro h
  have hrun : Run (fun _ => True) Fresh sentOrder _ :=
    (((((Relation.ReflTransGen.refl.tail
      (@Step.accept _ _ _ (.v42 (.accepted (tokenOf '1') (termsOf 100))) 1 2 (termsOf 100) 0 rfl
        ⟨by decide, rfl, rfl⟩ rfl (by decide) (by decide))).tail
      (@Step.execute _ _ _ (.v42 (.executed 0 (tokenOf '1') 30 1000000 501)) 30 2 0 (by decide)
        (by decide) ⟨by decide, rfl⟩ (by decide) (by decide))).tail
      (@Step.requestReplace _ _ _ 0 ⟨2⟩ 0 (sharesToQty 100) 0 rfl (by decide) (by decide)
        (by decide) rfl)).tail
      (@Step.replace _ _ _ (.v42 (.replaced (tokenOf '2') (tokenOf '1') (termsOf 70))) 2 2 ⟨2⟩
        (termsOf 70) 0 rfl (by decide) ⟨by decide, rfl, by decide, rfl⟩ rfl (by decide) (by decide)
        (fun _ => trivial))).tail
      (@Step.cancel _ _ _ (.v42 (.canceled 0 (tokenOf '2') 70 'U')) 70 2 0 (by decide) (by decide)
        ⟨by decide, rfl⟩ (by decide) (fun _ => trivial)))
  exact absurd (h _ _ sentOrder_sent hrun) (by decide)

end Chain

end Ouch

end FastMM
