/-
  Fix/ExpectedNumber.lean --- the expected sequence number over whole runs.

  A session has heard the largest positive numbers of the frames since its logon; its expected
  number is at most one above the largest MsgSeqNum, or the largest NewSeqNo.
-/
import FastMM.Fix.Advances
set_option autoImplicit false

namespace FastMM.Fix

open Foundation

/-- What may happen to a session. -/
inductive SessionOp where
  | frame (fuel : Nat) (kind : UInt8) (payload : Bytes)
  | timer (nowNs : Int)
  | logon (nowNs : Int)
  | logout (text : Bytes)
  | sendApp (m : Bytes)
  deriving DecidableEq, Repr

/-- The largest positive MsgSeqNum and the largest positive NewSeqNo. -/
structure Named where
  seq : Nat := 0
  newSeq : Nat := 0
  deriving DecidableEq, Repr

/-- A number where it is positive. -/
def positive (v : Option Int) : Nat := (v.getD 0).toNat

def Named.hear (nm : Named) (view : FixView) : Named where
  seq := max nm.seq (positive (view.getInt Tag.kMsgSeqNum))
  newSeq := max nm.newSeq (positive (view.getInt Tag.kNewSeqNo))

namespace FixSession

variable (s : FixSession)
variable {op : SessionOp}

def step : SessionOp → Option FixSession
  | .frame fuel kind payload => (s.onFrame fuel kind payload).map Prod.snd
  | .timer nowNs => some (s.onTimer nowNs)
  | .logon nowNs => some (s.logon nowNs).2
  | .logout text => some (s.logout text)
  | .sendApp m => some (s.sendApp m).2

/-- The session that goes on with a frame, if the frame is whole. -/
def read : SessionOp → Option FixSession
  | .frame _ kind payload =>
    if kind ≠ kMessage ∨ payload = [] then none
    else
      let (err, view) := s.view.parse payload s.cfg.beginString.bytes true
      let s := { s with view := view }
      if err ≠ .none then none
      else some { s.ticked with lastRxNs := s.now, testReqPending := false }
  | _ => none

/-- What a session has heard since its logon, once it has taken a step. -/
def named (nm : Named) (op : SessionOp) : Named :=
  match s.read op with
  | none => nm
  | some w => (if s.loggedOn then nm else {}).hear w.view

def run : List SessionOp → FixSession × Named → Option (FixSession × Named)
  | [], p => some p
  | op :: ops, (s, nm) =>
    match s.step op with
    | none => none
    | some s' => run ops (s', s.named nm op)

/-- No frame is an expected GapFill whose NewSeqNo is below zero. -/
def Fair : List SessionOp → FixSession → Prop
  | [], _ => True
  | op :: ops, s =>
    (∀ w, s.read op = some w → s.loggedOn = true → ¬ w.NegativeGapFill) ∧
      ∀ s', s.step op = some s' → Fair ops s'

/-- The expected number is within what the peer has named. -/
def Within (nm : Named) : Prop :=
  s.loggedOn = true → s.nextTargetSeq.toNat ≤ max (nm.seq + 1) nm.newSeq

/-! ## Steps -/

/-- A frame is read, or does not move a session that stays logged on. -/
theorem onFrame_cases {s s' : FixSession} {fuel : Nat} {kind : UInt8} {payload : Bytes}
    (h : s.step (.frame fuel kind payload) = some s') :
    (∃ w r, s.read (.frame fuel kind payload) = some w ∧ w.onParsed fuel = some (r, s') ∧
      w.loggedOn = s.loggedOn ∧ w.nextTargetSeq = s.nextTargetSeq ∧ w.sent = s.sent) ∨
    (s.read (.frame fuel kind payload) = none ∧
      (s'.loggedOn = true → s.loggedOn = true ∧ s'.nextTargetSeq = s.nextTargetSeq)) := by
  unfold step at h
  rw [Option.map_eq_some_iff] at h
  obtain ⟨⟨r, v⟩, hv, rfl⟩ := h
  revert hv
  unfold onFrame read
  dsimp only
  split
  · intro hv
    cases hv
    exact .inr ⟨rfl, fun hon => ⟨hon, rfl⟩⟩
  split
  · intro hv
    split at hv
    · cases hv
      exact .inr ⟨rfl, fun hon => absurd hon Bool.false_ne_true⟩
    · cases hv
      exact .inr ⟨rfl, fun hon => ⟨hon, rfl⟩⟩
  · exact fun hv => .inl ⟨_, r, rfl, hv, rfl, rfl, rfl⟩

theorem due_quiet (v : FixSession) (nowNs : Int) (hon : (v.due nowNs).loggedOn = true) :
    Quiet v (v.due nowNs) := by
  have hheartbeat : ∀ (w : FixSession) (hb : Int), Quiet v w →
      Quiet v (if hb ≤ nowNs - w.lastTxNs then w.sendHeartbeat [] else w) := by
    intro w hb hw
    split
    · exact hw.trans (.sendHeartbeat w [])
    · exact hw
  have htest : Quiet v (if v.testReqPending = true then v
      else if v.heartbeatS * 1000000000 +
          (v.heartbeatS * 1000000000 * v.cfg.transmissionGracePct).tdiv 100 ≤
        nowNs - v.lastRxNs then v.sendTestRequest else v) := by
    split
    · exact .refl v
    · split
      · exact .sendTestRequest v
      · exact .refl v
  revert hon
  unfold due
  dsimp only
  split
  · exact fun _ => .refl v
  split
  · split
    · exact fun hon => absurd hon Bool.false_ne_true
    · exact fun _ => .refl v
  split
  · split
    · exact fun hon => absurd hon Bool.false_ne_true
    · exact fun _ => .refl v
  split
  · exact fun _ => .refl v
  split
  · exact fun hon => absurd hon Bool.false_ne_true
  · exact fun _ => hheartbeat _ _ htest

/-- A step of the session's own does not move it. -/
theorem own_step {s s' : FixSession} (h : s.step op = some s')
    (hop : ∀ fuel kind payload, op ≠ .frame fuel kind payload) (hon : s'.loggedOn = true) :
    s.loggedOn = true ∧ s'.nextTargetSeq = s.nextTargetSeq := by
  have hquiet : ∀ {v : FixSession}, Quiet s v → v.loggedOn = true →
      s.loggedOn = true ∧ v.nextTargetSeq = s.nextTargetSeq :=
    fun hv hon => ⟨hv.loggedOn ▸ hon, hv.nextTargetSeq⟩
  cases op with
  | frame fuel kind payload => exact absurd rfl (hop fuel kind payload)
  | timer nowNs =>
    cases h
    have hset : Quiet s { s with nowNs := nowNs } := ⟨rfl, rfl, rfl, rfl⟩
    exact hquiet (hset.trans (due_quiet _ nowNs hon)) hon
  | logon nowNs =>
    cases h
    revert hon
    unfold logon
    split
    · exact fun hon => ⟨hon, rfl⟩
    · exact fun hon => absurd hon Bool.false_ne_true
  | logout text =>
    cases h
    revert hon
    unfold logout
    split
    · exact fun hon => ⟨hon, rfl⟩
    · exact hquiet (.sendLogout s text)
  | sendApp m =>
    cases h
    refine hquiet ?_ hon
    unfold sendApp
    split
    · exact .refl s
    · split
      · exact .refl s
      · exact ⟨rfl, rfl, rfl, rfl⟩

theorem positive_of {v : Option Int} {n : Int} (h : v = some n) : (positive v : Int) = max n 0 := by
  rw [h]
  show ((n.toNat : Nat) : Int) = _
  omega

/-- A step keeps a session within what was named, and does not move it back. -/
theorem step_within {s s' : FixSession} {nm : Named} (hwithin : Within s nm)
    (h : s.step op = some s')
    (hfair : ∀ w, s.read op = some w → s.loggedOn = true → ¬ w.NegativeGapFill) :
    Within s' (s.named nm op) ∧
      (s.loggedOn = true → s'.loggedOn = true →
        s.nextTargetSeq.toNat ≤ s'.nextTargetSeq.toNat) := by
  have hnot : s.read op = none → (s'.loggedOn = true → s.loggedOn = true ∧
      s'.nextTargetSeq = s.nextTargetSeq) → Within s' (s.named nm op) ∧
        (s.loggedOn = true → s'.loggedOn = true →
          s.nextTargetSeq.toNat ≤ s'.nextTargetSeq.toNat) := by
    intro hread hkept
    have hnamed : s.named nm op = nm := by
      unfold named
      rw [hread]
    rw [hnamed]
    refine ⟨fun hon => ?_, fun _ hon => (hkept hon).2 ▸ Nat.le_refl _⟩
    obtain ⟨hfrom, hsame⟩ := hkept hon
    rw [hsame]
    exact hwithin hfrom
  by_cases hframe : ∃ fuel kind payload, op = .frame fuel kind payload
  · obtain ⟨fuel, kind, payload, rfl⟩ := hframe
    rcases onFrame_cases h with ⟨w, r, hread, hparsed, hlogged, hnext, -⟩ | ⟨hread, hkept⟩
    · have hnamed : s.named nm (.frame fuel kind payload) =
        (if s.loggedOn then nm else {}).hear w.view := by
        unfold named
        rw [hread]
      rw [hnamed]
      by_cases hfrom : s.loggedOn = true
      · rw [if_pos hfrom]
        have hto : ∀ hon : s'.loggedOn = true,
          Advanced w.view s.nextTargetSeq s'.nextTargetSeq := by
          intro hon
          rw [← hnext]
          exact onParsed_advanced hparsed (hlogged.trans hfrom) hon (hfair w hread hfrom)
        refine ⟨fun hon => ?_, fun _ hon => ?_⟩
        · have hbefore := hwithin hfrom
          unfold Named.hear
          dsimp only
          rcases hto hon with hsame | ⟨n, hn, hat, hone⟩ | ⟨n, hn, -, hat⟩
          · rw [hsame]
            omega
          · have hpos := positive_of hn
            omega
          · have hpos := positive_of hn
            omega
        · rcases hto hon with hsame | ⟨n, hn, hat, hone⟩ | ⟨n, hn, hless, hat⟩
          · rw [hsame]
          · omega
          · omega
      · have hoff := Bool.eq_false_of_not_eq_true hfrom
        rw [if_neg hfrom]
        refine ⟨fun hon => ?_, fun hon => absurd hon hfrom⟩
        obtain ⟨n, hn, hpos, hle⟩ := onParsed_logon hparsed (hlogged.trans hoff) hon
        have hpositive := positive_of hn
        unfold Named.hear
        dsimp only
        omega
    · exact hnot hread hkept
  · have hown : ∀ fuel kind payload, op ≠ .frame fuel kind payload :=
      fun fuel kind payload he => hframe ⟨fuel, kind, payload, he⟩
    refine hnot ?_ (own_step h hown)
    cases op with
    | frame fuel kind payload => exact absurd rfl (hown fuel kind payload)
    | timer nowNs => rfl
    | logon nowNs => rfl
    | logout text => rfl
    | sendApp m => rfl

/-! ## Runs -/

theorem run_within {ops : List SessionOp} {s s' : FixSession} {nm nm' : Named}
    (hwithin : Within s nm)
    (hfair : Fair ops s) (h : run ops (s, nm) = some (s', nm')) : Within s' nm' := by
  induction ops generalizing s nm with
  | nil =>
    cases h
    exact hwithin
  | cons op ops ih =>
    rw [run] at h
    split at h
    · exact absurd h nofun
    · rename_i v hv
      exact ih (step_within hwithin hv hfair.1).1 (hfair.2 v hv) h

theorem fair_append {a b : List SessionOp} {s s' : FixSession} {nm nm' : Named}
    (hfair : Fair (a ++ b) s) (h : run a (s, nm) = some (s', nm')) : Fair a s ∧ Fair b s' := by
  induction a generalizing s nm with
  | nil =>
    cases h
    exact ⟨trivial, hfair⟩
  | cons op a ih =>
    rw [run] at h
    split at h
    · exact absurd h nofun
    rename_i v hv
    obtain ⟨hleft, hright⟩ := ih (hfair.2 v hv) h
    refine ⟨⟨hfair.1, fun v' hv' => ?_⟩, hright⟩
    rw [Option.some.inj (hv'.symm.trans hv)]
    exact hleft

/-- An expected GapFill that names nothing above its own number. -/
structure LowGapFill (s : FixSession) (w : FixSession) : Prop where
  type : w.view.msgType = MsgType.kSequenceReset
  mode : (w.view.getBool Tag.kGapFillFlag).getD false = true
  expected : w.view.getInt Tag.kMsgSeqNum = some (s.nextTargetSeq.toNat : Int)
  low : ∀ n, w.view.getInt Tag.kNewSeqNo = some n → n ≤ s.nextTargetSeq.toNat

/-- In every run without an expected GapFill whose NewSeqNo is below zero, the peer cannot push the
expected number past what it named. -/
theorem expected_number_is_named {s : FixSession} {nm : Named} (hwithin : Within s nm)
    {ops : List SessionOp} (hfair : Fair (ops ++ [op]) s) {s₁ s₂ : FixSession}
    {nm₁ : Named} (hrun : run ops (s, nm) = some (s₁, nm₁)) (hstep : s₁.step op = some s₂) :
    Within s₁ nm₁ ∧ Within s₂ (s₁.named nm₁ op) ∧
      (s₁.loggedOn = true → s₂.loggedOn = true →
        s₁.nextTargetSeq.toNat ≤ s₂.nextTargetSeq.toNat ∧
          ∀ w, s₁.read op = some w → LowGapFill s₁ w →
            s₂.nextTargetSeq.toNat = s₁.nextTargetSeq.toNat + 1 ∧
              ∃ refTag reason text, s₂.sent = s₁.sent ++
                [w.rejectBytes s₁.nextTargetSeq refTag MsgType.kSequenceReset reason text]) := by
  obtain ⟨hbefore, hlast⟩ := fair_append hfair hrun
  have hwithin₁ := run_within hwithin hbefore hrun
  obtain ⟨hwithin₂, hmono⟩ := step_within hwithin₁ hstep hlast.1
  refine ⟨hwithin₁, hwithin₂, fun hfrom hon => ⟨hmono hfrom hon, fun w hread hlow => ?_⟩⟩
  cases op with
  | frame fuel kind payload =>
    rcases onFrame_cases hstep with ⟨v, r, hread', hparsed, hlogged, hnext, hsent⟩ | ⟨hread', -⟩
    · obtain rfl : v = w := Option.some.inj (hread'.symm.trans hread)
      obtain ⟨hone, refTag, reason, text, hreject⟩ :=
        onParsed_refused hparsed (hlogged.trans hfrom) hon
        (hlast.1 v hread' hfrom) hlow.type hlow.mode (by rw [hnext]; exact hlow.expected)
        (by rw [hnext]; exact hlow.low)
      rw [hnext] at hone hreject
      rw [hsent] at hreject
      exact ⟨by rw [hone, toNat_succ (parseFixInt_lt hlow.expected).2], refTag, reason,
        text, hreject⟩
    · exact absurd (hread'.symm.trans hread) nofun
  | timer nowNs => exact absurd hread nofun
  | logon nowNs => exact absurd hread nofun
  | logout text => exact absurd hread nofun
  | sendApp m => exact absurd hread nofun

/-! ## A peer -/

/-- A market maker that an exchange logs on to. -/
def acceptor : FixSession :=
  create { role := .acceptor, senderCompId := .assign (ascii "MM"),
           targetCompId := .assign (ascii "EX") } none

/-- A message from the exchange. -/
def fromPeer (msgType : Bytes) (seq : Nat) (fs : List (Nat × Bytes)) : SessionOp :=
  .frame 0 kMessage (wire kBeginString44 (fieldsBytes ([(Tag.kMsgType, msgType),
    (Tag.kMsgSeqNum, decimalBytes seq), (Tag.kSenderCompID, ascii "EX"),
    (Tag.kTargetCompID, ascii "MM"), (Tag.kSendingTime, ascii "20260105-09:30:00")] ++ fs)))

def peerLogon : SessionOp := fromPeer MsgType.kLogon 1 [(Tag.kHeartBtInt, ascii "30")]

/-- A SequenceReset-GapFill to a NewSeqNo. -/
def peerGapFill (newSeqNo : Bytes) : SessionOp :=
  fromPeer MsgType.kSequenceReset 2 [(Tag.kGapFillFlag, ascii "Y"), (Tag.kNewSeqNo, newSeqNo)]

/-- A NewSeqNo that is the GapFill's own number is answered with a Reject and advances by one. -/
theorem peerGapFill_refused : ∃ s₁ nm₁ s₂ w, run [peerLogon] (acceptor, {}) = some (s₁, nm₁) ∧
    s₁.step (peerGapFill (ascii "2")) = some s₂ ∧ s₁.read (peerGapFill (ascii "2")) = some w ∧
    Within s₁ nm₁ ∧ Within s₂ (s₁.named nm₁ (peerGapFill (ascii "2"))) ∧
    s₂.nextTargetSeq.toNat = 3 ∧ ∃ refTag reason text, s₂.sent = s₁.sent ++
      [w.rejectBytes s₁.nextTargetSeq refTag MsgType.kSequenceReset reason text] := by
  have hmap : (run [peerLogon] (acceptor, {})).map (fun p =>
      (p.1.loggedOn, p.1.nextTargetSeq.toNat,
        (p.1.step (peerGapFill (ascii "2"))).map FixSession.loggedOn)) =
      some (true, 2, some true) := by decide +kernel
  have hfound : (run [peerLogon] (acceptor, {})).map (fun p =>
      (p.1.read (peerGapFill (ascii "2"))).map fun w => (w.view.msgType,
        w.view.getBool Tag.kGapFillFlag, w.view.getInt Tag.kMsgSeqNum,
        w.view.getInt Tag.kNewSeqNo)) =
      some (some (MsgType.kSequenceReset, some true, some 2, some 2)) := by decide +kernel
  obtain ⟨⟨s₁, nm₁⟩, hrun, hfacts⟩ := Option.map_eq_some_iff.mp hmap
  obtain ⟨hon, hfacts⟩ := Prod.mk.inj hfacts
  obtain ⟨hnext, hafter⟩ := Prod.mk.inj hfacts
  obtain ⟨s₂, hstep, hon'⟩ := Option.map_eq_some_iff.mp hafter
  rw [hrun] at hfound
  obtain ⟨w, hread, hfacts⟩ := Option.map_eq_some_iff.mp (Option.some.inj hfound)
  obtain ⟨htype, hfacts⟩ := Prod.mk.inj hfacts
  obtain ⟨hmode, hfacts⟩ := Prod.mk.inj hfacts
  obtain ⟨hseq, hvalue⟩ := Prod.mk.inj hfacts
  dsimp only at hon hnext
  have hlogon : ∀ s', acceptor.step peerLogon = some s' → s' = s₁ := by
    intro s' hs'
    rw [run, hs'] at hrun
    exact congrArg Prod.fst (Option.some.inj hrun)
  have hfair : Fair ([peerLogon] ++ [peerGapFill (ascii "2")]) acceptor := by
    refine ⟨fun _ _ hon => absurd hon Bool.false_ne_true, fun s' hs' => ⟨fun w' hw _ hneg => ?_,
      fun _ _ => trivial⟩⟩
    obtain ⟨-, -, -, -, -, -, n, hn, hlt⟩ := hneg
    rw [hlogon s' hs', hread] at hw
    rw [← Option.some.inj hw, hvalue] at hn
    have hpos := Option.some.inj hn
    omega
  have hlow : LowGapFill s₁ w := by
    refine ⟨htype, by rw [hmode]; rfl, by rw [hseq, hnext]; rfl, fun n hn => ?_⟩
    rw [← Option.some.inj (hvalue.symm.trans hn), hnext]
    decide
  obtain ⟨hbefore, hwithin, hboth⟩ := expected_number_is_named
    (show Within acceptor {} from fun hon => absurd hon Bool.false_ne_true) hfair hrun hstep
  obtain ⟨hone, hreject⟩ := (hboth hon hon').2 w hread hlow
  exact ⟨s₁, nm₁, s₂, w, hrun, hstep, hread, hbefore, hwithin, by rw [hone, hnext], hreject⟩

/-- A NewSeqNo below zero pushes the expected number to the end of 64 bits. -/
theorem peerGapFill_pushed : ∃ s nm,
    run [peerLogon, peerGapFill (ascii "-1")] (acceptor, {}) = some (s, nm) ∧ s.loggedOn = true ∧
      s.nextTargetSeq.toNat = 18446744073709551615 ∧ nm = { seq := 2, newSeq := 0 } ∧
      ¬ Within s nm := by
  have hmap : (run [peerLogon, peerGapFill (ascii "-1")] (acceptor, {})).map (fun p =>
      (p.1.loggedOn, p.1.nextTargetSeq.toNat, p.2)) =
      some (true, 18446744073709551615, { seq := 2, newSeq := 0 }) := by decide +kernel
  obtain ⟨⟨s, nm⟩, hrun, hpair⟩ := Option.map_eq_some_iff.mp hmap
  obtain ⟨hon, hrest⟩ := Prod.mk.inj hpair
  obtain ⟨hnext, hnm⟩ := Prod.mk.inj hrest
  refine ⟨s, nm, hrun, hon, hnext, hnm, fun hwithin => ?_⟩
  have hle := hwithin hon
  dsimp only at hnext hnm
  rw [hnext, hnm] at hle
  exact absurd hle (by decide)

end FixSession

end FastMM.Fix
