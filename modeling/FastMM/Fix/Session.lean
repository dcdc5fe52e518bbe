/-
  Fix/Session.lean --- the session layer, as its callbacks and its peer drive it.

  Source: `include/fastmm/codecs/fix/fix_session.hpp`, `src/codecs/fix/fix_session.cpp`
  (`FixSession`).

  `sent` is what `send_` was called with and `events` what `event_fn_` was; nothing reads the
  statistics.  The loop of `serve_resend` has so many turns, and is none where they run out.
-/
import FastMM.Core.Types
import FastMM.Fix.Framer
import FastMM.Fix.MessageStore
set_option autoImplicit false

namespace FastMM.Fix

open Foundation

/-! ## Outbound messages -/

def isHeaderTag (t : Int) : Bool :=
  [34, 35, 43, 49, 50, 52, 56, 57, 90, 91, 97, 115, 116, 122, 128, 129, 142, 143, 144,
    145, 212, 213, 347, 369, 627].contains t

structure OutboundHeader where
  msgType : Bytes := []
  seq : UInt64 := 0
  sendingNs : Int := 0
  bodyBegin : Nat := 0
  bodyEnd : Nat := 0
  deriving DecidableEq, Repr

/-- `std::string_view::find` of a byte, from `k` on. -/
def findByte (m : Bytes) (c : UInt8) (k : Nat) : Option Nat := memchr m k (m.length - k) c

/-- The loop over the fields of a header, from `k` on; none where it returns. -/
def scanFields (m : Bytes) (trailer : Nat) :
    Nat → Nat → OutboundHeader → Option (Nat × OutboundHeader)
  | 0, k, h => some (k, h)
  | n + 1, k, h =>
    if trailer ≤ k then some (k, h)
    else
      match findByte m kEquals k with
      | none => none
      | some eq =>
        if trailer ≤ eq then none
        else
          match findByte m kSoh eq with
          | none => none
          | some soh =>
            if trailer < soh then none
            else
              match parseFixInt (slice k (eq - k) m) with
              | none => none
              | some t =>
                if isHeaderTag t then
                  let v := slice (eq + 1) (soh - eq - 1) m
                  let h :=
                    if t = Tag.kMsgType then { h with msgType := v }
                    else if t = Tag.kMsgSeqNum then
                      { h with seq := .ofInt ((parseFixInt v).getD 0) }
                    else if t = Tag.kSendingTime then
                      { h with sendingNs := (parseUtcTimestamp v).getD 0 }
                    else h
                  scanFields m trailer n (soh + 1) h
                else some (k, h)

/-- `scan_outbound`; none where it is not `ok`. -/
def scanOutbound (m : Bytes) : Option OutboundHeader :=
  if m.length < 20 then none
  else
    let trailer := m.length - 7
    if slice trailer 3 m ≠ ascii "10=" then none
    else
      match findByte m kSoh 0 with
      | none => none
      | some first =>
        match findByte m kSoh (first + 1) with
        | none => none
        | some second =>
          if trailer ≤ second then none
          else
            match scanFields m trailer m.length (second + 1) {} with
            | none => none
            | some (k, h) =>
              if h.msgType = [] ∨ h.seq = 0 then none
              else some { h with bodyBegin := k, bodyEnd := trailer }

def isAdminMsgType (t : Bytes) : Bool :=
  [MsgType.kHeartbeat, MsgType.kTestRequest, MsgType.kResendRequest, MsgType.kReject,
    MsgType.kSequenceReset, MsgType.kLogout, MsgType.kLogon].contains t

/-! ## The session -/

inductive FixRole where
  | initiator
  | acceptor
  deriving DecidableEq, Repr

inductive SessionState where
  | down
  | loggingOn
  | up
  | recovering
  deriving DecidableEq, Repr

inductive FixSessionEvent where
  | loggedOn
  | disconnected
  | gapDetected
  | gapFilled
  deriving DecidableEq, Repr

inductive FixDisconnectReason where
  | none
  | logoutComplete
  | logoutReceived
  | logonTimeout
  | logoutTimeout
  | testRequestTimeout
  | seqNumTooLow
  | badBeginString
  | compIdProblem
  | sendingTimeAccuracy
  | notLoggedOn
  | badLogon
  | missingSeqNum
  deriving DecidableEq, Repr

structure FixSessionConfig where
  role : FixRole := .initiator
  senderCompId : FixedString 32
  targetCompId : FixedString 32
  beginString : FixedString 16 := .assign kBeginString44
  heartbeatIntervalS : Int := 30
  resetSeqNumOnLogon : Bool := true
  transmissionGracePct : Nat := 20
  logonTimeoutNs : Int := 10000000000
  logoutTimeoutNs : Int := 5000000000
  validateCompIds : Bool := true
  storeMaxMessages : Nat := 2 ^ 16
  storeMaxBytes : Nat := 16 * 2 ^ 20

structure FixSession where
  cfg : FixSessionConfig
  /-- `clock_fn_`, by how often it was called. -/
  clockFn : Option (Nat → Int) := none
  ticks : Nat := 0
  state : SessionState := .down
  lastDisconnect : FixDisconnectReason := .none
  nextSenderSeq : UInt64 := 1
  nextTargetSeq : UInt64 := 1
  recoveryTarget : UInt64 := 0
  resendBegin : UInt64 := 0
  heartbeatS : Int
  nowNs : Int := 0
  lastRxNs : Int := 0
  lastTxNs : Int := 0
  logonSentNs : Int := 0
  logoutSentNs : Int := 0
  testReqSentNs : Int := 0
  testReqCounter : UInt64 := 0
  testReqPending : Bool := false
  logoutSent : Bool := false
  testReqId : FixedString 24 := .nil
  store : MessageStore
  view : FixView := {}
  sent : List Bytes := []
  events : List (FixSessionEvent × FixDisconnectReason) := []

def kMaxMessageBytes : Nat := 2 ^ 16

namespace SessionReject

def kRequiredTagMissing : Int := 1
def kValueIncorrect : Int := 5
def kCompIdProblem : Int := 9
def kSendingTimeAccuracyProblem : Int := 10

end SessionReject

namespace FixSession

variable (seq : UInt64)
variable (fuel : Nat)
variable (type : Bytes)
variable (nowNs : Int)
variable (beginSeq endSeq : UInt64)

/-- `FixSession(cfg, send, send_ctx)` and its clock. -/
def create (cfg : FixSessionConfig) (clockFn : Option (Nat → Int)) : FixSession where
  cfg := cfg
  clockFn := clockFn
  heartbeatS := cfg.heartbeatIntervalS
  store := { maxMessages := cfg.storeMaxMessages, maxBytes := cfg.storeMaxBytes }

variable (s : FixSession)

def loggedOn : Bool := s.state = .up || s.state = .recovering

/-- `now_ns()`: what the clock says if it is called next. -/
def now : Int :=
  match s.clockFn with
  | some clock => clock s.ticks
  | none => s.nowNs

/-- The clock was called. -/
def ticked : FixSession := { s with ticks := s.ticks + 1 }

def emit (ev : FixSessionEvent) (why : FixDisconnectReason) : FixSession :=
  { s with events := s.events ++ [(ev, why)] }

def setNextSenderSeq : FixSession := { s with nextSenderSeq := seq }

/-! ### Sending -/

def admin (msgType : Bytes) : FixBuilder × FixSession :=
  (FixBuilder.beginHeader { cap := kMaxMessageBytes } msgType s.cfg.senderCompId.bytes
    s.cfg.targetCompId.bytes s.nextSenderSeq.toNat s.now false 0 s.cfg.beginString.bytes, s.ticked)

def transmit (bytes : Bytes) : FixSession :=
  { s.ticked with sent := s.sent ++ [bytes], lastTxNs := s.now }

def finishAdmin (b : FixBuilder) : FixSession :=
  let (n, b) := b.finish
  if n = 0 then s else { s with nextSenderSeq := s.nextSenderSeq + 1 }.transmit (b.buf.take n)

def sendApp (m : Bytes) : Bool × FixSession :=
  match scanOutbound m with
  | none => (false, s)
  | some h =>
    if s.loggedOn = false ∨ h.seq ≠ s.nextSenderSeq ∨ isAdminMsgType h.msgType =
      true then (false, s)
    else
      let s :=
        { s with store := (s.store.append h.seq h.msgType h.sendingNs
            (slice h.bodyBegin (h.bodyEnd - h.bodyBegin) m)).2 }
      (true, { s with nextSenderSeq := s.nextSenderSeq + 1 }.transmit m)

def sendLogon (reset : Bool) : FixSession :=
  let (b, s) := s.admin MsgType.kLogon
  let b := (b.fieldInt Tag.kEncryptMethod 0).fieldInt Tag.kHeartBtInt s.heartbeatS
  let b := if reset then b.fieldChar Tag.kResetSeqNumFlag 89 else b
  s.finishAdmin b

def sendHeartbeat (testReqId : Bytes) : FixSession :=
  let (b, s) := s.admin MsgType.kHeartbeat
  let b := if testReqId ≠ [] then b.field Tag.kTestReqID testReqId else b
  s.finishAdmin b

/-- A text that grows in a `FixedString<96>`. -/
def text (parts : List Bytes) : Bytes := parts.flatten.take 96

def sendTestRequest : FixSession :=
  let s := { s with testReqCounter := s.testReqCounter + 1 }
  let s :=
    { s with testReqId := .assign (text [ascii "TEST", decimalBytes s.testReqCounter.toNat]) }
  let (b, s) := s.admin MsgType.kTestRequest
  let s := s.finishAdmin (b.field Tag.kTestReqID s.testReqId.bytes)
  { s.ticked with testReqPending := true, testReqSentNs := s.now }

def sendResendRequest : FixSession :=
  let (b, s) := s.admin MsgType.kResendRequest
  s.finishAdmin ((b.fieldUint Tag.kBeginSeqNo beginSeq.toNat).fieldUint Tag.kEndSeqNo endSeq.toNat)

def sendReject (refSeq : UInt64) (refTag : Nat) (refMsgType : Bytes) (reason : Int) (text : Bytes) :
    FixSession :=
  let (b, s) := s.admin MsgType.kReject
  let b := b.fieldUint Tag.kRefSeqNum refSeq.toNat
  let b := if refTag ≠ 0 then b.fieldUint Tag.kRefTagID refTag else b
  let b := if refMsgType ≠ [] then b.field Tag.kRefMsgType refMsgType else b
  let b := b.fieldInt Tag.kSessionRejectReason reason
  let b := if text ≠ [] then b.field Tag.kText text else b
  s.finishAdmin b

def sendLogout (text : Bytes) : FixSession :=
  let (b, s) := s.admin MsgType.kLogout
  let b := if text ≠ [] then b.field Tag.kText text else b
  let s := s.finishAdmin b
  { s.ticked with logoutSent := true, logoutSentNs := s.now }

/-! ### Lifecycle -/

def disconnect (why : FixDisconnectReason) : FixSession :=
  { s with
    state := .down, logoutSent := false, testReqPending := false,
    lastDisconnect := why }.emit .disconnected why

def logon : Bool × FixSession :=
  if s.cfg.role ≠ .initiator ∨ s.state ≠ .down then (false, s)
  else
    let s := { s with nowNs := nowNs }
    let s :=
      if s.cfg.resetSeqNumOnLogon then
        { s with nextSenderSeq := 1, nextTargetSeq := 1, store := s.store.reset }
      else s
    let s :=
      { s with
        heartbeatS := s.cfg.heartbeatIntervalS, testReqPending := false, logoutSent := false }
    let s := s.sendLogon s.cfg.resetSeqNumOnLogon
    (true, { s.ticked with state := .loggingOn, logonSentNs := s.now, lastRxNs := s.now })

def logout (text : Bytes) : FixSession :=
  if s.loggedOn = false ∨ s.logoutSent = true then s else s.sendLogout text

/-- What is due at a time. -/
def due : FixSession :=
  if s.state = .down then s
  else if s.state = .loggingOn then
    if s.cfg.logonTimeoutNs ≤ nowNs - s.logonSentNs then s.disconnect .logonTimeout else s
  else if s.logoutSent then
    if s.cfg.logoutTimeoutNs ≤ nowNs - s.logoutSentNs then s.disconnect .logoutTimeout else s
  else if s.heartbeatS ≤ 0 then s
  else
    let hb := s.heartbeatS * 1000000000
    let limit := hb + (hb * s.cfg.transmissionGracePct).tdiv 100
    if s.testReqPending ∧ limit ≤ nowNs - s.testReqSentNs then s.disconnect .testRequestTimeout
    else
      let s :=
        if s.testReqPending then s
        else if limit ≤ nowNs - s.lastRxNs then s.sendTestRequest else s
      if hb ≤ nowNs - s.lastTxNs then s.sendHeartbeat [] else s

def onTimer : FixSession := { s with nowNs := nowNs }.due nowNs

/-! ### Resends -/

/-- A stored message that is sent again. -/
def resendBuilder (now : Int) (e : Stored) : FixBuilder :=
  (FixBuilder.beginHeader { cap := kMaxMessageBytes } e.msgType s.cfg.senderCompId.bytes
    s.cfg.targetCompId.bytes e.seq.toNat now true e.sendingNs s.cfg.beginString.bytes).raw e.body

/-- A SequenceReset-GapFill from `cur` to `next`. -/
def gapFillBuilder (now : Int) (cur next : UInt64) : FixBuilder :=
  ((FixBuilder.beginHeader { cap := kMaxMessageBytes } MsgType.kSequenceReset
    s.cfg.senderCompId.bytes
    s.cfg.targetCompId.bytes cur.toNat now true now s.cfg.beginString.bytes).fieldChar
      Tag.kGapFillFlag 89).fieldUint Tag.kNewSeqNo next.toNat

/-- A message is transmitted where it fits the buffer. -/
def transmitBuilt (b : FixBuilder) : FixSession :=
  let (n, b) := b.finish
  if n = 0 then s else s.transmit (b.buf.take n)

/-- The loop of `serve_resend`. -/
def serveLoop (stop : UInt64) (now : Int) : Nat → Nat → UInt64 → FixSession → Option FixSession
  | 0, _, _, _ => none
  | fuel + 1, idx, cur, s =>
    if cur ≤ stop then
      match s.store.entries[idx]? with
      | some e =>
        if e.seq = cur then
          serveLoop stop now fuel (idx + 1) (cur + 1) (s.transmitBuilt (s.resendBuilder now e))
        else
          let next := if e.seq ≤ stop then e.seq else stop + 1
          serveLoop stop now fuel idx next (s.transmitBuilt (s.gapFillBuilder now cur next))
      | none =>
        let next := stop + 1
        serveLoop stop now fuel idx next (s.transmitBuilt (s.gapFillBuilder now cur next))
    else some s

def serveResend : Option FixSession :=
  let last := s.nextSenderSeq - 1
  if last < beginSeq then some s
  else
    let stop := if endSeq = 0 ∨ last < endSeq then last else endSeq
    serveLoop stop s.now fuel (s.store.lowerBound beginSeq) beginSeq s.ticked

def handleResendRequest (seq : UInt64) : Option FixSession :=
  match s.view.getInt Tag.kBeginSeqNo, s.view.getInt Tag.kEndSeqNo with
  | some beginSeq, some endSeq =>
    if beginSeq ≤ 0 ∨ endSeq < 0 then
      some (s.sendReject seq Tag.kEndSeqNo MsgType.kResendRequest SessionReject.kValueIncorrect
        (ascii "BeginSeqNo(7)/EndSeqNo(16) invalid"))
    else s.serveResend fuel (.ofInt beginSeq) (.ofInt endSeq)
  | beginSeq, _ =>
    some (s.sendReject seq (if beginSeq = none then Tag.kBeginSeqNo else Tag.kEndSeqNo)
      MsgType.kResendRequest SessionReject.kValueIncorrect
      (ascii "BeginSeqNo(7)/EndSeqNo(16) invalid"))

/-! ### Inbound -/

def checkRecovered : FixSession :=
  if s.state = .recovering ∧ s.recoveryTarget < s.nextTargetSeq then
    { s with state := .up }.emit .gapFilled .none
  else s

def beginRecovery : FixSession :=
  if s.state ≠ .recovering then
    let s :=
      { s with state := .recovering, recoveryTarget := seq, resendBegin := s.nextTargetSeq }
    (s.sendResendRequest s.nextTargetSeq 0).emit .gapDetected .none
  else
    let s := if s.recoveryTarget < seq then { s with recoveryTarget := seq } else s
    if s.nextTargetSeq ≠ s.resendBegin then
      { s with resendBegin := s.nextTargetSeq }.sendResendRequest s.nextTargetSeq 0
    else s

def handleLogout : FixSession :=
  if s.logoutSent then s.disconnect .logoutComplete
  else (s.sendLogout []).disconnect .logoutReceived

def handleSequenceReset : FixSession :=
  match s.view.getInt Tag.kNewSeqNo with
  | none =>
    s.sendReject seq Tag.kNewSeqNo MsgType.kSequenceReset SessionReject.kRequiredTagMissing
      (ascii "NewSeqNo(36) missing")
  | some nsn =>
    if nsn ≤ 0 then
      s.sendReject seq Tag.kNewSeqNo MsgType.kSequenceReset SessionReject.kRequiredTagMissing
        (ascii "NewSeqNo(36) missing")
    else
      let n := UInt64.ofInt nsn
      if s.nextTargetSeq < n then { s with nextTargetSeq := n }.checkRecovered
      else if n < s.nextTargetSeq then
        s.sendReject seq Tag.kNewSeqNo MsgType.kSequenceReset SessionReject.kValueIncorrect
          (ascii "NewSeqNo(36) lower than expected MsgSeqNum")
      else s

/-- The text of a Logout that names a sequence number too low. -/
def tooLowText (expected received : UInt64) : Bytes :=
  text [ascii "MsgSeqNum too low, expecting ", decimalBytes expected.toNat, ascii " but received ",
    decimalBytes received.toNat]

def tooLow : FixSession :=
  (s.sendLogout (tooLowText s.nextTargetSeq seq)).disconnect .seqNumTooLow

def afterLogon : FixSession :=
  let s := { s.ticked with state := .up, lastTxNs := s.now }.emit .loggedOn .none
  if s.nextTargetSeq < seq then s.beginRecovery seq else { s with nextTargetSeq := seq + 1 }

def acceptLogon : FixSession :=
  match s.view.getInt Tag.kHeartBtInt with
  | none => s.disconnect .badLogon
  | some hb =>
    if hb < 0 ∨ 86400 < hb then s.disconnect .badLogon
    else
      let reset := (s.view.getBool Tag.kResetSeqNumFlag).getD false
      let s := { s with heartbeatS := hb }
      let s :=
        if reset then
          { s with nextTargetSeq := 1, nextSenderSeq := 1, store := s.store.reset }
        else s
      let s := { s with testReqPending := false, logoutSent := false }
      if seq < s.nextTargetSeq then s.tooLow seq else (s.sendLogon reset).afterLogon seq

def confirmLogon : FixSession :=
  if seq < s.nextTargetSeq then s.tooLow seq else s.afterLogon seq

def onFrameNotLoggedOn (seq : UInt64) : FixSession :=
  if type = MsgType.kLogon then
    if s.cfg.role = .acceptor ∧ s.state = .down then s.acceptLogon seq
    else if s.cfg.role = .initiator ∧ s.state = .loggingOn then s.confirmLogon seq
    else s
  else if s.state = .loggingOn then
    s.disconnect (if type = MsgType.kLogout then .logoutReceived else .notLoggedOn)
  else s

/-- SequenceReset-GapFill, once its own number is counted. -/
def onGapFill (seq : UInt64) : FixSession :=
  match s.view.getInt Tag.kNewSeqNo with
  | none =>
    s.sendReject seq Tag.kNewSeqNo type SessionReject.kValueIncorrect
      (ascii "NewSeqNo(36) must exceed MsgSeqNum(34)")
  | some nsn =>
    if UInt64.ofInt nsn ≤ seq then
      s.sendReject seq Tag.kNewSeqNo type SessionReject.kValueIncorrect
        (ascii "NewSeqNo(36) must exceed MsgSeqNum(34)")
    else { s with nextTargetSeq := .ofInt nsn }

/-- A message with the expected number, once it is counted. -/
def process (seq : UInt64) : Option (Bool × FixSession) :=
  if type = MsgType.kHeartbeat ∨ type = MsgType.kReject then some (true, s.checkRecovered)
  else if type = MsgType.kTestRequest then
    let id := s.view.get Tag.kTestReqID
    let s :=
      if id = [] then
        s.sendReject seq Tag.kTestReqID type SessionReject.kRequiredTagMissing
          (ascii "TestReqID(112) missing")
      else s.sendHeartbeat id
    some (true, s.checkRecovered)
  else if type = MsgType.kResendRequest then
    (s.handleResendRequest fuel seq).map fun s => (true, s.checkRecovered)
  else if type = MsgType.kSequenceReset then some (true, (s.onGapFill type seq).checkRecovered)
  else if type = MsgType.kLogout then some (true, s.handleLogout)
  else if type = MsgType.kLogon then
    some (true, (s.sendLogout (ascii "Unexpected Logon")).disconnect .badLogon)
  else some (false, s.checkRecovered)

/-- A message with the expected number. -/
def onExpected (seq : UInt64) : Option (Bool × FixSession) :=
  let counted := { s with nextTargetSeq := s.nextTargetSeq + 1 }
  if (s.view.getBool Tag.kPossDupFlag).getD false then
    match s.view.getTimestampNs Tag.kOrigSendingTime with
    | none =>
      some (true, (counted.sendReject seq Tag.kOrigSendingTime type
        SessionReject.kRequiredTagMissing
        (ascii "OrigSendingTime(122) required with PossDupFlag(43)=Y")).checkRecovered)
    | some orig =>
      if ∃ sending ∈ s.view.getTimestampNs Tag.kSendingTime, sending < orig then
        some (true, ((counted.sendReject seq Tag.kOrigSendingTime type
          SessionReject.kSendingTimeAccuracyProblem
          (ascii "OrigSendingTime(122) later than SendingTime(52)")).sendLogout
            (ascii "SendingTime accuracy problem")).disconnect .sendingTimeAccuracy)
      else counted.process fuel type seq
  else counted.process fuel type seq

/-- A message whose number is to be checked. -/
def onNumbered (seq : UInt64) : Option (Bool × FixSession) :=
  if s.nextTargetSeq < seq then
    let served := if type = MsgType.kResendRequest then s.handleResendRequest fuel seq else some s
    served.map fun s =>
      if type = MsgType.kLogout then (true, s.handleLogout) else (true, s.beginRecovery seq)
  else if seq < s.nextTargetSeq then
    if (s.view.getBool Tag.kPossDupFlag).getD false then some (true, s)
    else some (true, s.tooLow seq)
  else s.onExpected fuel type seq

/-- Whether a frame names the two ends of the session. -/
def compIdsOk : Bool :=
  !s.cfg.validateCompIds ||
    (s.view.get Tag.kSenderCompID = s.cfg.targetCompId.bytes &&
      s.view.get Tag.kTargetCompID = s.cfg.senderCompId.bytes)

/-- A frame that was parsed. -/
def onParsed : Option (Bool × FixSession) :=
  let type := s.view.msgType
  let missing :=
    if s.loggedOn then
      (s.sendLogout (ascii "MsgSeqNum(34) missing")).disconnect .missingSeqNum
    else s
  match s.view.getInt Tag.kMsgSeqNum with
  | none => some (true, missing)
  | some seq =>
    if seq ≤ 0 then some (true, missing)
    else
      let seq := UInt64.ofInt seq
      if s.compIdsOk = false then
        let s :=
          if s.loggedOn then
            (s.sendReject seq Tag.kSenderCompID type SessionReject.kCompIdProblem
              (ascii "CompID problem")).sendLogout (ascii "CompID problem")
          else s
        some (true, s.disconnect .compIdProblem)
      else if s.loggedOn = false then some (true, s.onFrameNotLoggedOn type seq)
      else if type = MsgType.kSequenceReset ∧
          (s.view.getBool Tag.kGapFillFlag).getD false = false then
        some (true, s.handleSequenceReset seq)
      else s.onNumbered fuel type seq

/-- `on_frame`; whether the session took the frame. -/
def onFrame (kind : UInt8) (payload : Bytes) : Option (Bool × FixSession) :=
  if kind ≠ kMessage ∨ payload = [] then some (true, s)
  else
    let (err, view) := s.view.parse payload s.cfg.beginString.bytes true
    let s : FixSession := { s with view := view }
    if err ≠ .none then
      if err = .badBeginString ∧ s.loggedOn = true then
        some (true, (s.sendLogout (ascii "Incorrect BeginString")).disconnect .badBeginString)
      else some (true, s)
    else { s.ticked with lastRxNs := s.now, testReqPending := false }.onParsed fuel

end FixSession

end FastMM.Fix
