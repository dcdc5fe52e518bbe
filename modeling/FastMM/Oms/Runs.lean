/-
  Oms/Runs.lean --- runs of the order management.

  A run is any sequence of operations: the four outbound calls, the six inbound
  messages, and the three steps of a reconciliation.  `reconcile_end` runs its
  callback after each order it ends, outside the pool iteration, and the callback
  may place or cancel orders; it is a function from what the callback sees to the
  calls it makes.

  `Reachable P` collects the states of the runs whose calls all meet `P`, a
  condition on the state before the call and the call.  Message contents are
  never restricted.
-/
import FastMM.Oms.Handlers
set_option autoImplicit false

namespace FastMM

namespace Oms

variable (s : Oms)

/-- An outbound call. -/
inductive Call where
  | submit (req : NewOrderRequest) (id : ClientOrderId) (now : Timestamp)
  | requestCancel (h : Nat)
  | requestCancelUnacked (h : Nat)
  | requestReplace (h : Nat) (newId : ClientOrderId) (px : Price) (qty : Qty) (now : Timestamp)

/-- The state after an outbound call. -/
def call : Call → Oms
  | .submit req id now => (s.submit req id now).1
  | .requestCancel h => (s.requestCancel h).1
  | .requestCancelUnacked h => (s.requestCancelUnacked h).1
  | .requestReplace h newId px qty now => (s.requestReplace h newId px qty now).1

/-- An inbound message that concerns one order. -/
inductive Msg where
  | ack (m : OrderAckMsg)
  | reject (m : OrderRejectMsg)
  | cancelAck (m : OrderCancelAckMsg)
  | cancelReject (m : OrderCancelRejectMsg)
  | fill (m : OrderFillMsg)
  | expired (m : OrderExpiredMsg)
  | openOrder (m : ReconcileMsg)

/-- The order a message names. -/
def Msg.clOrdId : Msg → ClientOrderId
  | .ack m => m.clOrdId
  | .reject m => m.clOrdId
  | .cancelAck m => m.clOrdId
  | .cancelReject m => m.clOrdId
  | .fill m => m.clOrdId
  | .expired m => m.clOrdId
  | .openOrder m => m.clOrdId

/-- The handler of a message. -/
def receive : Msg → Oms × OmsUpdate
  | .ack m => s.onAck m
  | .reject m => s.onReject m
  | .cancelAck m => s.onCancelAck m
  | .cancelReject m => s.onCancelReject m
  | .fill m => s.onFill m
  | .expired m => s.onExpired m
  | .openOrder m => s.reconcileOpenOrder m

/-- What the callback of `reconcile_end` does with the state and the update it is
given: the calls it makes. -/
abbrev React : Type := Oms → OmsUpdate → List Call

/-- The second pass of `reconcile_end`, over the handles found unseen. -/
def endUnseen (react : React) : Oms → List Nat → Oms
  | s, [] => s
  | s, h :: rest =>
    match s.reconcileEndOne h with
    | none => endUnseen react s rest
    | some (s', u) => endUnseen react ((react s' u).foldl call s') rest

def reconcileEnd (venue : VenueId) (react : React) : Oms :=
  endUnseen react s (s.pool.liveHandles.filter fun h => s.unseen venue h)

/-- One operation of a run. -/
inductive Op where
  | call (c : Call)
  | msg (m : Msg)
  | reconcileBegin (venue : VenueId) (sentWatermark : Option ClientOrderId)
  | reconcileEnd (venue : VenueId) (react : React)

/-- The state after an operation. -/
def step : Op → Oms
  | .call c => s.call c
  | .msg m => (s.receive m).1
  | .reconcileBegin venue sentWatermark => s.reconcileBegin venue sentWatermark
  | .reconcileEnd venue react => s.reconcileEnd venue react

/-- Every call of a list meets `P` in the state it is made in. -/
def CallsAdmit (P : Oms → Call → Prop) : Oms → List Call → Prop
  | _, [] => True
  | s, c :: cs => P s c ∧ CallsAdmit P (s.call c) cs

/-- Every call the callback of `reconcile_end` makes meets `P`. -/
def EndAdmits (P : Oms → Call → Prop) (react : React) : Oms → List Nat → Prop
  | _, [] => True
  | s, h :: rest =>
    match s.reconcileEndOne h with
    | none => EndAdmits P react s rest
    | some (s', u) =>
      CallsAdmit P s' (react s' u) ∧ EndAdmits P react ((react s' u).foldl call s') rest

/-- Every call an operation makes meets `P` in the state it is made in. -/
def Op.Admits (P : Oms → Call → Prop) (s : Oms) : Op → Prop
  | .call c => P s c
  | .msg _ => True
  | .reconcileBegin _ _ => True
  | .reconcileEnd venue react =>
    EndAdmits P react s (s.pool.liveHandles.filter fun h => s.unseen venue h)

section Mono

variable {P P' : Oms → Call → Prop} (hPP' : ∀ s c, P s c → P' s c)

include hPP'

theorem CallsAdmit.mono (cs : List Call) (s : Oms) (h : CallsAdmit P s cs) :
    CallsAdmit P' s cs := by
  induction cs generalizing s with
  | nil => trivial
  | cons c cs ih => exact ⟨hPP' s c h.1, ih (s.call c) h.2⟩

theorem EndAdmits.mono {react : React} (hs : List Nat) (s : Oms) (h : EndAdmits P react s hs) :
    EndAdmits P' react s hs := by
  induction hs generalizing s with
  | nil => trivial
  | cons hd rest ih =>
    unfold EndAdmits at h ⊢
    cases hone : s.reconcileEndOne hd with
    | none =>
      rw [hone] at h
      exact ih s h
    | some p =>
      rw [hone] at h
      exact ⟨CallsAdmit.mono hPP' _ _ h.1, ih _ h.2⟩

/-- A weaker condition admits more operations. -/
theorem Op.Admits.mono {s : Oms} {op : Op} (h : op.Admits P s) : op.Admits P' s := by
  cases op with
  | call c => exact hPP' s c h
  | msg m => trivial
  | reconcileBegin venue wm => trivial
  | reconcileEnd venue react =>
    simp only [Op.Admits] at h ⊢
    generalize (s.pool.liveHandles.filter fun h => s.unseen venue h) = hs at h ⊢
    exact EndAdmits.mono hPP' hs s h

end Mono

/-- `Oms(session_epoch, max_seq)`. -/
def init (epoch maxSeq : Nat) : Oms := { epoch := epoch, maxSeq := maxSeq }

/-- The states of the runs, from an order management just constructed, whose
calls all meet `P`. -/
inductive Reachable (P : Oms → Call → Prop) : Oms → Prop
  | init (epoch maxSeq : Nat) : Reachable P (init epoch maxSeq)
  | step {s : Oms} (h : Reachable P s) (op : Op) (hop : op.Admits P s) :
      Reachable P (s.step op)

section

variable {P : Oms → Call → Prop} {s : Oms} (h : Reachable P s)
include h

theorem Reachable.call {c : Call}
    (hc : P s c) : Reachable P (s.step (.call c)) := Reachable.step h (.call c) hc

theorem Reachable.msg (m : Msg) :
    Reachable P (s.step (.msg m)) := Reachable.step h (.msg m) trivial

end

section Rule

variable {P : Oms → Call → Prop} {Inv : Oms → Prop}

section

variable (hcall : ∀ s c, Inv s → P s c → Inv (s.call c))
include hcall

/-- An invariant kept by every call survives a list of calls. -/
theorem calls_induction
    (cs : List Call) (s : Oms) (h : Inv s) (hcs : CallsAdmit P s cs) : Inv (cs.foldl call s) := by
  induction cs generalizing s with
  | nil => exact h
  | cons c cs ih =>
    obtain ⟨hc, hcs⟩ := hcs
    rw [List.foldl_cons]
    exact ih (s.call c) (hcall s c h hc) hcs

/-- An invariant kept by every call and every end survives the second pass of
`reconcile_end`, callbacks included. -/
theorem endUnseen_induction
    (hend : ∀ s h s' u, Inv s → s.reconcileEndOne h = some (s', u) → Inv s')
    {react : React} (hs : List Nat) (s : Oms) (h : Inv s) (hadm : EndAdmits P react s hs) :
    Inv (endUnseen react s hs) := by
  induction hs generalizing s with
  | nil => exact h
  | cons hd rest ih =>
    unfold endUnseen
    unfold EndAdmits at hadm
    cases hone : s.reconcileEndOne hd with
    | none =>
      rw [hone] at hadm
      exact ih s h hadm
    | some p =>
      obtain ⟨s', u⟩ := p
      rw [hone] at hadm
      obtain ⟨hcalls, hrest⟩ := hadm
      have hs' : Inv s' := hend s hd s' u h hone
      exact ih _ (calls_induction hcall (react s' u) s' hs' hcalls) hrest

/-- What is kept by every call that meets `P`, every message that meets `Q` and
both passes of a reconciliation is kept by an operation made of them. -/
theorem step_keeps {Q : Msg → Prop}
    (hmsg : ∀ s m, Q m → Inv s → Inv (s.receive m).1)
    (hbegin : ∀ s venue wm, Inv s → Inv (s.reconcileBegin venue wm))
    (hend : ∀ s h s' u, Inv s → s.reconcileEndOne h = some (s', u) → Inv s')
    {s : Oms} (h : Inv s) (op : Op) (hQ : ∀ m, op = .msg m → Q m) (hop : op.Admits P s) :
    Inv (s.step op) := by
  cases op with
  | call c => exact hcall s c h hop
  | msg m => exact hmsg s m (hQ m rfl) h
  | reconcileBegin venue wm => exact hbegin s venue wm h
  | reconcileEnd venue react =>
    simp only [Op.Admits] at hop
    simp only [Oms.step, Oms.reconcileEnd]
    refine endUnseen_induction hcall hend _ s h ?_
    assumption

end

/-- The invariant rule: what holds of a fresh order management and is kept by
every call that meets `P`, every message and both passes of a reconciliation
holds in every reachable state. -/
theorem Reachable.induction (hinit : ∀ epoch maxSeq, Inv (Oms.init epoch maxSeq))
    (hcall : ∀ s c, Inv s → P s c → Inv (s.call c)) (hmsg : ∀ s m, Inv s → Inv (s.receive m).1)
    (hbegin : ∀ s venue wm, Inv s → Inv (s.reconcileBegin venue wm))
    (hend : ∀ s h s' u, Inv s → s.reconcileEndOne h = some (s', u) → Inv s')
    {s : Oms} (h : Reachable P s) : Inv s := by
  induction h with
  | init epoch maxSeq => exact hinit epoch maxSeq
  | @step s _ op hop ih =>
    refine step_keeps (Q := fun _ => True) hcall ?_ hbegin hend ih op ?_ ?_
    · exact fun s m _ => hmsg s m
    · exact fun _ _ => trivial
    · assumption

end Rule

end Oms

end FastMM
