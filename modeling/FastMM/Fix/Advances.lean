/-
  Fix/Advances.lean --- how far a frame moves the expected sequence number.

  Sending moves nothing.  A frame leaves the expected number, counts itself, or moves it to the
  NewSeqNo it has; a logon sets it from its own number.
-/
import FastMM.Fix.Sends
set_option autoImplicit false

namespace FastMM.Fix

open Foundation SessionReject

namespace FixSession

/-! ## What sending leaves -/

/-- What is the same after a send. -/
structure Quiet (s s' : FixSession) : Prop where
  state : s'.state = s.state
  nextTargetSeq : s'.nextTargetSeq = s.nextTargetSeq
  view : s'.view = s.view
  cfg : s'.cfg = s.cfg

namespace Quiet

variable {s s' s'' : FixSession}

theorem refl (s : FixSession) : Quiet s s := ⟨rfl, rfl, rfl, rfl⟩

theorem trans (h : Quiet s s') (h' : Quiet s' s'') : Quiet s s'' :=
  ⟨h'.state.trans h.state, h'.nextTargetSeq.trans h.nextTargetSeq, h'.view.trans h.view,
    h'.cfg.trans h.cfg⟩

theorem loggedOn (h : Quiet s s') : s'.loggedOn = s.loggedOn := by
  unfold FixSession.loggedOn
  rw [h.state]

theorem ticked (s : FixSession) : Quiet s s.ticked := ⟨rfl, rfl, rfl, rfl⟩

theorem transmit (s : FixSession) (bytes : Bytes) : Quiet s (s.transmit bytes) :=
  ⟨rfl, rfl, rfl, rfl⟩

theorem finishAdmin (s : FixSession) (b : FixBuilder) : Quiet s (s.finishAdmin b) := by
  unfold FixSession.finishAdmin
  dsimp only
  split
  · exact refl s
  · exact ⟨rfl, rfl, rfl, rfl⟩

theorem sendHeartbeat (s : FixSession) (id : Bytes) : Quiet s (s.sendHeartbeat id) :=
  (ticked s).trans (finishAdmin _ _)

theorem sendTestRequest (s : FixSession) : Quiet s s.sendTestRequest := by
  unfold FixSession.sendTestRequest
  dsimp only
  refine .trans ?_ (.trans (finishAdmin _ _) ⟨rfl, rfl, rfl, rfl⟩)
  exact ⟨rfl, rfl, rfl, rfl⟩

theorem sendResendRequest (s : FixSession) (beginSeq endSeq : UInt64) :
    Quiet s (s.sendResendRequest beginSeq endSeq) := by
  unfold FixSession.sendResendRequest
  exact (ticked s).trans (finishAdmin _ _)

theorem sendReject (s : FixSession) (refSeq : UInt64) (refTag : Nat) (refMsgType : Bytes)
    (reason : Int) (text : Bytes) : Quiet s (s.sendReject refSeq refTag refMsgType reason text) :=
  (ticked s).trans (finishAdmin _ _)

theorem sendLogout (s : FixSession) (text : Bytes) : Quiet s (s.sendLogout text) :=
  ((ticked s).trans (finishAdmin _ _)).trans ⟨rfl, rfl, rfl, rfl⟩

theorem serveLoop (stop : UInt64) (now : Int) {fuel idx : Nat} {cur : UInt64}
    (h : serveLoop stop now fuel idx cur s = some s') : Quiet s s' := by
  have hbuilt : ∀ (s : FixSession) (b : FixBuilder), Quiet s (s.transmitBuilt b) := by
    intro s b
    unfold transmitBuilt
    dsimp only
    split
    · exact refl s
    · exact transmit s _
  induction fuel generalizing idx cur s with
  | zero => exact absurd h nofun
  | succ fuel ih =>
    rw [FixSession.serveLoop] at h
    split at h
    · split at h
      · split at h
        · exact (hbuilt _ _).trans (ih h)
        · exact (hbuilt _ _).trans (ih h)
      · exact (hbuilt _ _).trans (ih h)
    · exact Option.some.inj h ▸ refl s

theorem handleResendRequest {fuel : Nat} {seq : UInt64}
    (h : s.handleResendRequest fuel seq = some s') : Quiet s s' := by
  unfold FixSession.handleResendRequest at h
  split at h
  · split at h
    · exact Option.some.inj h ▸ sendReject s ..
    unfold serveResend at h
    dsimp only at h
    split at h
    · exact Option.some.inj h ▸ refl s
    · exact (ticked s).trans (serveLoop _ _ h)
  · exact Option.some.inj h ▸ sendReject s ..

end Quiet

/-! ## Frames of a session that is logged on -/

variable {fuel : Nat}
variable {r : Bool}
variable {seq : UInt64}
variable (view : FixView)
variable {type : Bytes}

/-- A session that is not logged on after a disconnect. -/
theorem loggedOn_disconnect (s : FixSession) (why : FixDisconnectReason) :
    (s.disconnect why).loggedOn = false := rfl

theorem checkRecovered_spec (s : FixSession) :
    s.checkRecovered.nextTargetSeq = s.nextTargetSeq ∧ s.checkRecovered.loggedOn = s.loggedOn ∧
      s.checkRecovered.sent = s.sent := by
  unfold checkRecovered
  split_ifs with h
  · refine ⟨rfl, ?_, rfl⟩
    have hon : s.loggedOn = true := by
      unfold loggedOn
      rw [h.1]
      rfl
    rw [hon]
    rfl
  · exact ⟨rfl, rfl, rfl⟩

theorem beginRecovery_nextTargetSeq (s : FixSession) (seq : UInt64) :
    (s.beginRecovery seq).nextTargetSeq = s.nextTargetSeq := by
  have hsend : ∀ s : FixSession, ∀ n, (s.sendResendRequest n 0).nextTargetSeq = s.nextTargetSeq :=
    fun s n => (Quiet.sendResendRequest s n 0).nextTargetSeq
  have hemit : ∀ (s : FixSession) (ev why), (s.emit ev why).nextTargetSeq = s.nextTargetSeq :=
    fun _ _ _ => rfl
  unfold beginRecovery
  split
  · dsimp only
    rw [hemit, hsend]
  dsimp only
  split
  · split
    · rw [hsend]
    · rfl
  · split
    · rw [hsend]
    · rfl

theorem loggedOn_handleLogout (s : FixSession) : s.handleLogout.loggedOn = false := by
  unfold handleLogout
  split <;> rfl

/-- The possible duplicate of a message that was never seen names an earlier sending. -/
def possDupOk : Bool :=
  !(view.getBool Tag.kPossDupFlag).getD false ||
    decide (∃ orig ∈ view.getTimestampNs Tag.kOrigSendingTime,
      ¬ ∃ sending ∈ view.getTimestampNs Tag.kSendingTime, sending < orig)

/-- The expected number after a message that has it: one more, or its NewSeqNo. -/
def Moved (seq t t' : UInt64) : Prop :=
  t' = t ∨ ∃ n, view.getInt Tag.kNewSeqNo = some n ∧ (seq.toNat : Int) < n ∧ (t'.toNat : Int) = n

theorem onGapFill_moved (s : FixSession) (type : Bytes) (seq : UInt64)
    (hfair : ∀ n, s.view.getInt Tag.kNewSeqNo = some n → 0 ≤ n) :
    Moved s.view seq s.nextTargetSeq (s.onGapFill type seq).nextTargetSeq := by
  unfold onGapFill
  split
  · exact .inl (Quiet.sendReject s ..).nextTargetSeq
  rename_i n hn
  have hvalue := toNat_ofInt (hfair n hn) (parseFixInt_lt hn).2
  split_ifs with hgt
  · exact .inl (Quiet.sendReject s ..).nextTargetSeq
  · refine .inr ⟨n, hn, ?_, hvalue⟩
    have hlt := UInt64.lt_iff_toNat_lt.mp (UInt64.not_le.mp hgt)
    omega

theorem process_moved {s s' : FixSession}
    (h : s.process fuel type seq = some (r, s')) (hon : s'.loggedOn = true)
    (hfair : type = MsgType.kSequenceReset → ∀ n, s.view.getInt Tag.kNewSeqNo = some n → 0 ≤ n) :
    Moved s.view seq s.nextTargetSeq s'.nextTargetSeq := by
  have hrecovered : ∀ {w : FixSession}, w.nextTargetSeq = s.nextTargetSeq →
      w.checkRecovered.nextTargetSeq = s.nextTargetSeq :=
    (checkRecovered_spec _).1.trans
  unfold process at h
  split at h
  · cases h
    exact .inl (hrecovered rfl)
  split at h
  · cases h
    refine .inl (hrecovered ?_)
    split
    · exact (Quiet.sendReject s ..).nextTargetSeq
    · exact (Quiet.sendHeartbeat s _).nextTargetSeq
  split at h
  · rw [Option.map_eq_some_iff] at h
    obtain ⟨w, hw, hpair⟩ := h
    cases hpair
    exact .inl (hrecovered (Quiet.handleResendRequest hw).nextTargetSeq)
  split at h
  · rename_i htype
    cases h
    rw [(checkRecovered_spec _).1]
    exact onGapFill_moved s type seq (hfair htype)
  split at h
  · cases h
    rw [loggedOn_handleLogout] at hon
    exact absurd hon Bool.false_ne_true
  split at h
  · cases h
    rw [loggedOn_disconnect] at hon
    exact absurd hon Bool.false_ne_true
  · cases h
    exact .inl (hrecovered rfl)

theorem onExpected_moved {s s' : FixSession}
    (h : s.onExpected fuel type seq = some (r, s')) (hon : s'.loggedOn = true)
    (hfair : type = MsgType.kSequenceReset → possDupOk s.view = true →
      ∀ n, s.view.getInt Tag.kNewSeqNo = some n → 0 ≤ n) :
    Moved s.view seq (s.nextTargetSeq + 1) s'.nextTargetSeq := by
  unfold onExpected at h
  dsimp only at h
  split_ifs at h with hdup
  · split at h
    · cases h
      rw [(checkRecovered_spec _).1]
      exact .inl (Quiet.sendReject _ ..).nextTargetSeq
    rename_i orig horig
    split at h
    · cases h
      rw [loggedOn_disconnect] at hon
      exact absurd hon Bool.false_ne_true
    · rename_i hlate
      refine process_moved h hon fun htype => hfair htype ?_
      unfold possDupOk
      rw [Bool.or_eq_true, decide_eq_true_iff]
      exact .inr ⟨orig, horig, hlate⟩
  · refine process_moved h hon fun htype => hfair htype ?_
    unfold possDupOk
    rw [Bool.eq_false_of_not_eq_true hdup]
    rfl

/-- A GapFill that does not move the expected number forward is answered with a Reject. -/
theorem onGapFill_refused (s : FixSession) (seq : UInt64)
    (hlow : ∀ n, s.view.getInt Tag.kNewSeqNo = some n → 0 ≤ n ∧ n ≤ seq.toNat) :
    (s.onGapFill MsgType.kSequenceReset seq).nextTargetSeq = s.nextTargetSeq ∧
      (s.onGapFill MsgType.kSequenceReset seq).sent = s.sent ++
        [s.rejectBytes seq Tag.kNewSeqNo MsgType.kSequenceReset kValueIncorrect
          (ascii "NewSeqNo(36) must exceed MsgSeqNum(34)")] := by
  have hsend := s.sendReject_sent seq Tag.kNewSeqNo MsgType.kSequenceReset
    kValueIncorrect (ascii "NewSeqNo(36) must exceed MsgSeqNum(34)")
    (by decide) (by decide) (by decide) (by decide) (by decide) (by decide) (by decide)
  unfold onGapFill
  split
  · exact ⟨(Quiet.sendReject s ..).nextTargetSeq, hsend⟩
  rename_i n hn
  obtain ⟨hpos, hle⟩ := hlow n hn
  have hvalue := toNat_ofInt hpos (parseFixInt_lt hn).2
  rw [if_pos (UInt64.le_iff_toNat_le.mpr (by omega))]
  exact ⟨(Quiet.sendReject s ..).nextTargetSeq, hsend⟩

theorem onExpected_refused {s s' : FixSession}
    (h : s.onExpected fuel MsgType.kSequenceReset seq = some (r, s')) (hon : s'.loggedOn = true)
    (hlow : ∀ n, s.view.getInt Tag.kNewSeqNo = some n → n ≤ seq.toNat)
    (hfair : possDupOk s.view = true → ∀ n, s.view.getInt Tag.kNewSeqNo = some n → 0 ≤ n) :
    s'.nextTargetSeq = s.nextTargetSeq + 1 ∧ ∃ refTag reason text, s'.sent = s.sent ++
      [s.rejectBytes seq refTag MsgType.kSequenceReset reason text] := by
  have hgap : ∀ {v : FixSession}, v = { s with nextTargetSeq := s.nextTargetSeq + 1 } →
      possDupOk s.view = true → v.process fuel MsgType.kSequenceReset seq = some (r, s') →
      s'.nextTargetSeq = s.nextTargetSeq + 1 ∧ ∃ refTag reason text, s'.sent = s.sent ++
        [s.rejectBytes seq refTag MsgType.kSequenceReset reason text] := by
    intro v hv hdup h
    obtain ⟨hnext, hsent⟩ := v.onGapFill_refused seq fun n hn => by
      have hn' : s.view.getInt Tag.kNewSeqNo = some n := by rw [hv] at hn; exact hn
      exact ⟨hfair hdup n hn', hlow n hn'⟩
    unfold process at h
    rw [if_neg (by decide), if_neg (by decide), if_neg (by decide), if_pos rfl] at h
    cases h
    obtain ⟨hsame, -, hkept⟩ := (v.onGapFill MsgType.kSequenceReset seq).checkRecovered_spec
    rw [hsame, hkept, hnext, hsent, hv]
    exact ⟨rfl, _, _, _, rfl⟩
  unfold onExpected at h
  dsimp only at h
  split_ifs at h with hdup
  · split at h
    · cases h
      obtain ⟨hsame, -, hkept⟩ := checkRecovered_spec
        (({ s with nextTargetSeq := s.nextTargetSeq + 1 } : FixSession).sendReject seq
          Tag.kOrigSendingTime MsgType.kSequenceReset kRequiredTagMissing
          (ascii "OrigSendingTime(122) required with PossDupFlag(43)=Y"))
      have hsend := ({ s with nextTargetSeq := s.nextTargetSeq + 1 } :
        FixSession).sendReject_sent seq
        Tag.kOrigSendingTime MsgType.kSequenceReset kRequiredTagMissing
        (ascii "OrigSendingTime(122) required with PossDupFlag(43)=Y")
        (by decide) (by decide) (by decide) (by decide) (by decide) (by decide) (by decide)
      rw [hsame, hkept, hsend, (Quiet.sendReject _ ..).nextTargetSeq]
      exact ⟨rfl, _, _, _, rfl⟩
    · rename_i orig horig
      split at h
      · cases h
        exact absurd hon Bool.false_ne_true
      rename_i hlate
      refine hgap rfl ?_ h
      unfold possDupOk
      rw [Bool.or_eq_true, decide_eq_true_iff]
      exact .inr ⟨orig, horig, hlate⟩
  · refine hgap rfl ?_ h
    unfold possDupOk
    rw [Bool.eq_false_of_not_eq_true hdup]
    rfl

/-- An expected GapFill whose NewSeqNo is below zero. -/
def NegativeGapFill (s : FixSession) : Prop :=
  s.view.msgType = MsgType.kSequenceReset ∧ (s.view.getBool Tag.kGapFillFlag).getD false = true ∧
    s.compIdsOk = true ∧ 0 < s.nextTargetSeq.toNat ∧
    s.view.getInt Tag.kMsgSeqNum = some (s.nextTargetSeq.toNat : Int) ∧ possDupOk s.view = true ∧
    ∃ n, s.view.getInt Tag.kNewSeqNo = some n ∧ n < 0

/-- How far a frame moves the expected number from `t`. -/
def Advanced (t t' : UInt64) : Prop :=
  t' = t ∨
    (∃ seq : Int, view.getInt Tag.kMsgSeqNum = some seq ∧ (t.toNat : Int) = seq ∧
      (t'.toNat : Int) = seq + 1) ∨
    ∃ n : Int, view.getInt Tag.kNewSeqNo = some n ∧ (t.toNat : Int) < n ∧ (t'.toNat : Int) = n

theorem handleSequenceReset_advanced (s : FixSession) (seq : UInt64) :
    Advanced s.view s.nextTargetSeq (s.handleSequenceReset seq).nextTargetSeq := by
  unfold handleSequenceReset
  split
  · exact .inl (Quiet.sendReject s ..).nextTargetSeq
  rename_i n hn
  split_ifs with hpos
  · exact .inl (Quiet.sendReject s ..).nextTargetSeq
  have hvalue := toNat_ofInt (by omega) (parseFixInt_lt hn).2
  dsimp only
  split
  · rename_i hlt
    have hless := UInt64.lt_iff_toNat_lt.mp hlt
    rw [(checkRecovered_spec _).1]
    exact .inr (.inr ⟨n, hn, by omega, hvalue⟩)
  · split
    · exact .inl (Quiet.sendReject s ..).nextTargetSeq
    · exact .inl rfl

theorem onNumbered_advanced {s s' : FixSession} {n : Int}
    (h : s.onNumbered fuel s.view.msgType (.ofInt n) = some (r, s'))
    (hn : s.view.getInt Tag.kMsgSeqNum = some n) (hpos : 0 < n) (hon : s'.loggedOn = true)
    (hfair : s.view.msgType = MsgType.kSequenceReset → (s.nextTargetSeq.toNat : Int) = n →
      possDupOk s.view = true → ∀ m, s.view.getInt Tag.kNewSeqNo = some m → 0 ≤ m) :
    Advanced s.view s.nextTargetSeq s'.nextTargetSeq := by
  have hvalue := toNat_ofInt hpos.le (parseFixInt_lt hn).2
  unfold onNumbered at h
  dsimp only at h
  split at h
  · rw [Option.map_eq_some_iff] at h
    obtain ⟨w, hw, hpair⟩ := h
    have hquiet : w.nextTargetSeq = s.nextTargetSeq := by
      split at hw
      · exact (Quiet.handleResendRequest hw).nextTargetSeq
      · exact congrArg nextTargetSeq (Option.some.inj hw).symm
    split at hpair
    · cases hpair
      rw [loggedOn_handleLogout] at hon
      exact absurd hon Bool.false_ne_true
    · cases hpair
      exact .inl ((beginRecovery_nextTargetSeq w _).trans hquiet)
  · rename_i hnotAbove
    split at h
    · split at h
      · cases h
        exact .inl rfl
      · cases h
        exact absurd hon Bool.false_ne_true
    rename_i hnotBelow
    have heq : s.nextTargetSeq = UInt64.ofInt n :=
      UInt64.le_antisymm (UInt64.not_lt.mp hnotBelow) (UInt64.not_lt.mp hnotAbove)
    have hexp : (s.nextTargetSeq.toNat : Int) = n := by rw [heq, hvalue]
    have hsmall : (s.nextTargetSeq.toNat : Int) < 10 ^ 18 := by
      rw [hexp]
      exact (parseFixInt_lt hn).2
    rcases onExpected_moved h hon (fun htype hdup => hfair htype hexp hdup) with hone |
      ⟨m, hm, hlt, hto⟩
    · refine .inr (.inl ⟨n, hn, hexp, ?_⟩)
      rw [hone, toNat_succ hsmall]
      omega
    · exact .inr (.inr ⟨m, hm, by omega, hto⟩)

section

variable {s s' : FixSession} (h : s.onParsed fuel = some (r, s')) (hfrom : s.loggedOn = true)
variable (hon : s'.loggedOn = true) (hfair : ¬ s.NegativeGapFill)
include h hfrom hon hfair

/-- A frame of a session that is logged on. -/
theorem onParsed_advanced : Advanced s.view s.nextTargetSeq s'.nextTargetSeq := by
  unfold onParsed at h
  dsimp only at h
  rw [if_pos hfrom] at h
  split at h
  · cases h
    exact absurd hon Bool.false_ne_true
  rename_i n hn
  split at h
  · cases h
    exact absurd hon Bool.false_ne_true
  rename_i hpos
  split at h
  · cases h
    exact absurd hon Bool.false_ne_true
  rename_i hids
  rw [if_neg (by rw [hfrom]; decide)] at h
  split_ifs at h with hmode
  · cases h
    exact handleSequenceReset_advanced s _
  refine onNumbered_advanced h hn (by omega) hon fun htype hexp hdup m hm => ?_
  by_contra hneg
  refine hfair ⟨htype, Bool.eq_true_of_not_eq_false fun hflag => hmode ⟨htype, hflag⟩,
    Bool.eq_true_of_not_eq_false hids, by omega, ?_, hdup, m, hm, by omega⟩
  rw [hexp]
  exact hn

/-- An expected GapFill that names nothing above its own number counts as one message, and is
answered with a Reject. -/
theorem onParsed_refused (htype : s.view.msgType = MsgType.kSequenceReset)
    (hmode : (s.view.getBool Tag.kGapFillFlag).getD false = true)
    (hexp : s.view.getInt Tag.kMsgSeqNum = some (s.nextTargetSeq.toNat : Int))
    (hlow : ∀ n, s.view.getInt Tag.kNewSeqNo = some n → n ≤ s.nextTargetSeq.toNat) :
    s'.nextTargetSeq = s.nextTargetSeq + 1 ∧ ∃ refTag reason text, s'.sent = s.sent ++
      [s.rejectBytes s.nextTargetSeq refTag MsgType.kSequenceReset reason text] := by
  have hsmall := (parseFixInt_lt hexp).2
  have hseq : UInt64.ofInt (s.nextTargetSeq.toNat : Int) = s.nextTargetSeq := by
    have hvalue := toNat_ofInt (Int.natCast_nonneg _) hsmall
    exact UInt64.toNat_inj.mp (by omega)
  unfold onParsed at h
  dsimp only at h
  rw [if_pos hfrom, hexp] at h
  dsimp only at h
  split at h
  · cases h
    exact absurd hon Bool.false_ne_true
  rename_i hpos
  split at h
  · cases h
    exact absurd hon Bool.false_ne_true
  rename_i hids
  rw [if_neg (by rw [hfrom]; decide), if_neg (by
    rw [hmode]; exact fun he => absurd he.2 (by decide)), hseq] at h
  unfold onNumbered at h
  rw [if_neg (UInt64.lt_irrefl _), if_neg (UInt64.lt_irrefl _), htype] at h
  refine onExpected_refused h hon hlow fun hdup n hn => ?_
  by_contra hneg
  exact hfair ⟨htype, hmode, Bool.eq_true_of_not_eq_false hids, by omega, hexp, hdup,
    n, hn, by omega⟩

end

/-! ## Logons -/

theorem afterLogon_nextTargetSeq (s : FixSession) (seq : UInt64) :
    (s.nextTargetSeq < seq ∧ (s.afterLogon seq).nextTargetSeq = s.nextTargetSeq) ∨
      (s.afterLogon seq).nextTargetSeq = seq + 1 := by
  unfold afterLogon
  dsimp only
  split_ifs with hlt
  · exact .inl ⟨hlt, beginRecovery_nextTargetSeq _ seq⟩
  · exact .inr rfl

/-- A session is logged on at one place. -/
theorem onFrameNotLoggedOn_logon {s : FixSession}
    (hfrom : s.loggedOn = false) (hon : (s.onFrameNotLoggedOn type seq).loggedOn = true) :
    ∃ w : FixSession, s.onFrameNotLoggedOn type seq = w.afterLogon seq := by
  have hoff : ¬ s.loggedOn = true := by
    rw [hfrom]
    exact Bool.false_ne_true
  have hanswer : ∀ (v : FixSession) (reset : Bool),
      let answer := if seq < v.nextTargetSeq then v.tooLow seq
        else (v.sendLogon reset).afterLogon seq
      answer.loggedOn = true → ∃ w : FixSession, answer = w.afterLogon seq := by
    intro v reset
    split
    · exact fun hon => absurd hon Bool.false_ne_true
    · exact fun _ => ⟨_, rfl⟩
  have haccept : (s.acceptLogon seq).loggedOn = true →
      ∃ w : FixSession, s.acceptLogon seq = w.afterLogon seq := by
    unfold acceptLogon
    split
    · exact fun hon => absurd hon Bool.false_ne_true
    · split
      · exact fun hon => absurd hon Bool.false_ne_true
      · exact hanswer _ _
  have hconfirm : (s.confirmLogon seq).loggedOn = true →
      ∃ w : FixSession, s.confirmLogon seq = w.afterLogon seq := by
    unfold confirmLogon
    split
    · exact fun hon => absurd hon Bool.false_ne_true
    · exact fun _ => ⟨_, rfl⟩
  revert hon
  unfold onFrameNotLoggedOn
  split
  · split
    · exact haccept
    · split
      · exact hconfirm
      · exact fun hon => absurd hon hoff
  · split
    · exact fun hon => absurd hon Bool.false_ne_true
    · exact fun hon => absurd hon hoff

/-- A frame that logs a session on. -/
theorem onParsed_logon {s s' : FixSession}
    (h : s.onParsed fuel = some (r, s')) (hfrom : s.loggedOn = false) (hon : s'.loggedOn = true) :
    ∃ seq : Int, s.view.getInt Tag.kMsgSeqNum = some seq ∧ 0 < seq ∧
      (s'.nextTargetSeq.toNat : Int) ≤ seq + 1 := by
  have hoff : ¬ s.loggedOn = true := by
    rw [hfrom]
    exact Bool.false_ne_true
  unfold onParsed at h
  dsimp only at h
  rw [if_neg hoff] at h
  split at h
  · cases h
    exact absurd hon hoff
  rename_i n hn
  split at h
  · cases h
    exact absurd hon hoff
  rename_i hpos
  have hsmall := (parseFixInt_lt hn).2
  have hvalue := toNat_ofInt (show 0 ≤ n by omega) hsmall
  split at h
  · cases h
    exact absurd hon Bool.false_ne_true
  cases h
  refine ⟨n, hn, by omega, ?_⟩
  obtain ⟨w, hw⟩ := onFrameNotLoggedOn_logon hfrom hon
  rw [hw]
  rcases w.afterLogon_nextTargetSeq (.ofInt n) with ⟨hlt, hsame⟩ | hone
  · have hless := UInt64.lt_iff_toNat_lt.mp hlt
    rw [hsame]
    omega
  · rw [hone, toNat_succ (by omega)]
    omega

end FixSession

end FastMM.Fix
