/-
  Soup/Sessions.lean --- the two ends of a SoupBinTCP session.

  Source: `include/fastmm/codecs/soupbin/soupbin_session.hpp` (`ClientSession`,
  `ServerSession`).

  A session writes to a `Wire`, which takes some more sends and then breaks: a send that fails,
  having written some of its bytes, is the end of the connection.  The server's history is the
  list of its sequenced messages, where the source has their bytes and offsets.  Statistics are
  left out.
-/
import FastMM.Soup.Packets
set_option autoImplicit false

namespace FastMM.Soup

/-! ## The wire -/

/-- The bytes in flight of one direction of a connection; `room` more sends succeed, and of the
next one `left` bytes are written. -/
structure Wire where
  bytes : Bytes := []
  room : Nat := 0
  left : Nat := 0
  broken : Bool := true
deriving DecidableEq, Repr

def Wire.send (w : Wire) (bytes : Bytes) : Bool × Wire :=
  match w.broken, w.room with
  | true, _ => (false, w)
  | false, 0 => (false, { w with bytes := w.bytes ++ bytes.take w.left, broken := true })
  | false, room + 1 => (true, { w with bytes := w.bytes ++ bytes, room := room })

inductive SessionState where
  | Down
  | LoggingOn
  | Up
deriving DecidableEq, Repr

inductive CloseReason where
  | None
  | LoginRejected
  | EndOfSession
  | PeerTimeout
  | LoginTimeout
  | ProtocolError
  | Logout
  | Disconnected
  | WriteFailed
deriving DecidableEq, Repr

/-! ## Client -/

structure ClientConfig where
  username : Bytes := []
  password : Bytes := []
  session : Bytes := []
  sequence : Nat := 1
  version : Version := .V400
  heartbeatTimeoutMs : Nat := 15000
  heartbeatIntervalNs : Int := 1000000000
  serverTimeoutNs : Int := 15000000000
  loginTimeoutNs : Int := 10000000000
deriving DecidableEq, Repr

structure ClientSession where
  cfg : ClientConfig
  session : Bytes
  nextSequence : Nat
  lastSequence : Nat := 0
  state : SessionState := .Down
  reason : CloseReason := .None
  rejectCode : UInt8 := kSpace
  endOfSession : Bool := false
  rxActivity : Bool := false
  nowNs : Int := 0
  lastRxNs : Int := 0
  lastTxNs : Int := 0
  loginSentNs : Int := 0
deriving DecidableEq, Repr

namespace ClientSession

def create (cfg : ClientConfig) : ClientSession :=
  { cfg := cfg, session := cfg.session, nextSequence := cfg.sequence }

variable (c : ClientSession)

def close (r : CloseReason) : ClientSession := { c with state := .Down, reason := r }

def protocolError : ClientSession := c.close .ProtocolError

def write (w : Wire) (bytes : Bytes) : Bool × ClientSession × Wire :=
  match w.send bytes with
  | (true, w) => (true, { c with lastTxNs := c.nowNs }, w)
  | (false, w) => (false, c.close .WriteFailed, w)

def login (nowNs : Int) (w : Wire) : Bool × ClientSession × Wire :=
  let c := { c with nowNs := nowNs }
  match writeLoginRequest c.cfg.username c.cfg.password c.session c.nextSequence c.cfg.version
      c.cfg.heartbeatTimeoutMs with
  | none => (false, c, w)
  | some bytes =>
    match c.write w bytes with
    | (true, c, w) =>
      (true, { c with
        state := .LoggingOn
        reason := .None
        endOfSession := false
        loginSentNs := nowNs
        lastRxNs := nowNs }, w)
    | (false, c, w) => (false, c, w)

/-- `on_frame`; `false` hands the frame on. -/
def onFrame (f : Frame) : Bool × ClientSession :=
  let c := { c with rxActivity := true }
  if f.kind = kSequencedData then
    if c.state ≠ .Up then (true, c.protocolError)
    else (false, { c with lastSequence := c.nextSequence, nextSequence := c.nextSequence + 1 })
  else if f.kind = kUnsequencedData then
    if c.state ≠ .Up then (true, c.protocolError) else (false, c)
  else if f.kind = kServerHeartbeat ∨ f.kind = kDebug then (true, c)
  else if f.kind = kLoginAccepted then
    match parseLoginAccepted f.payload with
    | some v =>
      if c.state ≠ .LoggingOn then (true, c.protocolError)
      else
        (true, { c with
          session := v.session
          nextSequence := v.sequence
          state := .Up
          lastRxNs := c.nowNs })
    | none => (true, c.protocolError)
  else if f.kind = kLoginRejected then
    let code := match f.payload with
      | [b] => b
      | _ => '?'.toUInt8
    (true, { c with rejectCode := code }.close .LoginRejected)
  else if f.kind = kEndOfSession then (true, { c with endOfSession := true }.close .EndOfSession)
  else (true, c.protocolError)

def onTimer (nowNs : Int) (w : Wire) : ClientSession × Wire :=
  let c := { c with nowNs := nowNs }
  let c := if c.rxActivity then { c with lastRxNs := nowNs, rxActivity := false } else c
  if c.state = .LoggingOn then
    (if nowNs - c.loginSentNs ≥ c.cfg.loginTimeoutNs then c.close .LoginTimeout else c, w)
  else if c.state ≠ .Up then (c, w)
  else if nowNs - c.lastRxNs ≥ c.cfg.serverTimeoutNs then (c.close .PeerTimeout, w)
  else if nowNs - c.lastTxNs ≥ c.cfg.heartbeatIntervalNs then
    (c.write w (writeControl kClientHeartbeat)).2
  else (c, w)

/-- `send`, Unsequenced Data to the server. -/
def send (msg : Bytes) (w : Wire) : Bool × ClientSession × Wire :=
  if c.state ≠ .Up then (false, c, w)
  else
    match writeHeader kUnsequencedData msg.length with
    | none => (false, c, w)
    | some hdr =>
      match c.write w hdr with
      | (true, c, w) => if msg.isEmpty then (true, c, w) else c.write w msg
      | (false, c, w) => (false, c, w)

def logout (w : Wire) : Bool × ClientSession × Wire :=
  if c.state = .Down then (false, c, w)
  else
    match c.write w (writeControl kLogoutRequest) with
    | (ok, c, w) => (ok, c.close .Logout, w)

def onDisconnect : ClientSession := if c.state ≠ .Down then c.close .Disconnected else c

end ClientSession

/-! ## Server -/

structure ServerConfig where
  username : Bytes := []
  password : Bytes := []
  session : Bytes := []
  heartbeatIntervalNs : Int := 1000000000
  clientTimeoutNs : Int := 15000000000
  loginTimeoutNs : Int := 30000000000
  historyBytes : Nat := 4194304
  historyMessages : Nat := 65536
deriving DecidableEq, Repr

structure ServerSession where
  cfg : ServerConfig
  clientTimeoutNs : Int
  history : List Bytes := []
  state : SessionState := .Down
  reason : CloseReason := .None
  rxActivity : Bool := false
  ended : Bool := false
  nowNs : Int := 0
  connectedNs : Int := 0
  lastRxNs : Int := 0
  lastTxNs : Int := 0
deriving DecidableEq, Repr

namespace ServerSession

def create (cfg : ServerConfig) : ServerSession :=
  { cfg := cfg, clientTimeoutNs := cfg.clientTimeoutNs }

variable (s : ServerSession)

def close (r : CloseReason) : ServerSession := { s with state := .Down, reason := r }

def protocolError : ServerSession := s.close .ProtocolError

def write (w : Wire) (bytes : Bytes) : Bool × ServerSession × Wire :=
  match w.send bytes with
  | (true, w) => (true, { s with lastTxNs := s.nowNs }, w)
  | (false, w) => (false, s.close .WriteFailed, w)

/-- `write(hdr) && (msg.empty() || write(msg))`. -/
def writeData (type : UInt8) (msg : Bytes) (w : Wire) : Bool × ServerSession × Wire :=
  match writeHeader type msg.length with
  | none => (false, s, w)
  | some hdr =>
    match s.write w hdr with
    | (true, s, w) => if msg.isEmpty then (true, s, w) else s.write w msg
    | (false, s, w) => (false, s, w)

def onConnect (nowNs : Int) : ServerSession :=
  { s with
    nowNs := nowNs
    connectedNs := nowNs
    lastRxNs := nowNs
    lastTxNs := nowNs
    state := .LoggingOn
    reason := .None
    clientTimeoutNs := s.cfg.clientTimeoutNs }

def reject (code : UInt8) (w : Wire) : ServerSession × Wire :=
  match s.write w (writeLoginRejected code) with
  | (_, s, w) => (s.close .LoginRejected, w)

/-- The replay of `on_login`. -/
def replay : List Bytes → ServerSession → Wire → ServerSession × Wire
  | [], s, w => (s, w)
  | msg :: msgs, s, w =>
    match s.writeData kSequencedData msg w with
    | (true, s, w) => replay msgs s w
    | (false, s, w) => (s, w)

/-- The first message a login gets. -/
def firstFor (sequence : Nat) : Nat :=
  if sequence = 0 ∨ sequence > s.history.length + 1 then s.history.length + 1 else sequence

/-- `on_login` once the credentials and the session are right. -/
def accept (v : LoginRequestView) (w : Wire) : ServerSession × Wire :=
  let next := s.firstFor v.sequence
  let s :=
    if v.heartbeatTimeoutMs ≠ 0 then
      { s with clientTimeoutNs := (v.heartbeatTimeoutMs : Int) * 1000000 }
    else s
  match writeLoginAccepted s.cfg.session next with
  | none => (s, w)
  | some bytes =>
    match s.write w bytes with
    | (true, s, w) => replay (s.history.drop (next - 1)) { s with state := .Up } w
    | (false, s, w) => (s, w)

def onLogin (payload : Bytes) (w : Wire) : ServerSession × Wire :=
  match parseLoginRequest payload with
  | none => (s.protocolError, w)
  | some v =>
    if s.state ≠ .LoggingOn then (s.protocolError, w)
    else if !equalIgnoreCase v.username s.cfg.username ||
        !equalIgnoreCase v.password s.cfg.password || s.ended then
      s.reject (if s.ended then 'S'.toUInt8 else 'A'.toUInt8) w
    else if v.session ≠ [] ∧ v.session ≠ s.cfg.session then s.reject 'S'.toUInt8 w
    else s.accept v w

/-- `on_frame`; the handler of Unsequenced Data is the higher level's. -/
def onFrame (f : Frame) (w : Wire) : ServerSession × Wire :=
  let s := { s with rxActivity := true }
  if f.kind = kLoginRequest then s.onLogin f.payload w
  else if f.kind = kClientHeartbeat ∨ f.kind = kDebug then (s, w)
  else if f.kind = kUnsequencedData then
    (if s.state ≠ .Up then s.protocolError else s, w)
  else if f.kind = kLogoutRequest then (s.close .Logout, w)
  else (s.protocolError, w)

def onTimer (nowNs : Int) (w : Wire) : ServerSession × Wire :=
  let s := { s with nowNs := nowNs }
  let s := if s.rxActivity then { s with lastRxNs := nowNs, rxActivity := false } else s
  if s.state = .LoggingOn then
    (if nowNs - s.connectedNs ≥ s.cfg.loginTimeoutNs then s.close .LoginTimeout else s, w)
  else if s.state ≠ .Up then (s, w)
  else if nowNs - s.lastRxNs ≥ s.clientTimeoutNs then (s.close .PeerTimeout, w)
  else if nowNs - s.lastTxNs ≥ s.cfg.heartbeatIntervalNs then
    (s.write w (writeControl kServerHeartbeat)).2
  else (s, w)

def sendSequenced (msg : Bytes) (w : Wire) : Bool × ServerSession × Wire :=
  if msg.length > kMaxPayload ∨ s.history.length ≥ s.cfg.historyMessages ∨
      s.cfg.historyBytes - s.history.flatten.length < msg.length then (false, s, w)
  else
    let s := { s with history := s.history ++ [msg] }
    if s.state = .Up then s.writeData kSequencedData msg w else (true, s, w)

def sendUnsequenced (msg : Bytes) (w : Wire) : Bool × ServerSession × Wire :=
  if s.state ≠ .Up then (false, s, w) else s.writeData kUnsequencedData msg w

def sendDebug (text : Bytes) (w : Wire) : Bool × ServerSession × Wire :=
  s.writeData kDebug text w

def endSession (w : Wire) : Bool × ServerSession × Wire :=
  match s.write w (writeControl kEndOfSession) with
  | (ok, s, w) => (ok, { s with ended := true }.close .EndOfSession, w)

def onDisconnect : ServerSession := if s.state ≠ .Down then s.close .Disconnected else s

end ServerSession

end FastMM.Soup
