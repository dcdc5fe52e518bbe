/-
  Soup/Link.lean --- a client and a server of one SoupBinTCP session, over connections that drop.

  Source: `include/fastmm/codecs/soupbin/soupbin_session.hpp` and `SoupBinFramer` of
  `include/fastmm/codecs/soupbin/soupbin.hpp`.

  Bytes in flight arrive in any portions; a new connection loses those that have not.  Either
  end may notice a disconnect at any time, or never.
-/
import FastMM.Soup.Sessions
set_option autoImplicit false

namespace FastMM.Soup

structure Link where
  client : ClientSession
  server : ServerSession
  toClient : Wire := {}
  toServer : Wire := {}
  /-- What has arrived and no frame has taken. -/
  clientBuffer : Bytes := []
  serverBuffer : Bytes := []
  /-- The payloads of the Sequenced Data the client's `on_frame` has handed on. -/
  told : List Bytes := []
deriving DecidableEq, Repr

/-- What can happen next. -/
inductive Op where
  /-- A new connection; so many sends of either side succeed, and so much of the next is sent. -/
  | connect (nowNs : Int) (clientRoom clientLeft serverRoom serverLeft : Nat)
  | arriveClient (n : Nat)
  | arriveServer (n : Nat)
  | clientFrame
  | serverFrame
  | login (nowNs : Int)
  | clientTimer (nowNs : Int)
  | clientSend (msg : Bytes)
  | logout
  | clientDisconnect
  | serverTimer (nowNs : Int)
  | sendSequenced (msg : Bytes)
  | sendUnsequenced (msg : Bytes)
  | sendDebug (text : Bytes)
  | endSession
  | serverDisconnect
deriving DecidableEq, Repr

namespace Link

def start (client : ClientConfig) (server : ServerConfig) : Link where
  client := .create client
  server := .create server

variable (l : Link)

def withClient (r : ClientSession × Wire) : Link := { l with client := r.1, toServer := r.2 }

def withServer (r : ServerSession × Wire) : Link := { l with server := r.1, toClient := r.2 }

/-- The client's framer gives the next frame, when all of it is there. -/
def clientFrame : Link :=
  match nextFrame l.clientBuffer with
  | none => l
  | some (f, rest) =>
    match l.client.onFrame f with
    | (true, c) => { l with client := c, clientBuffer := rest }
    | (false, c) =>
      { l with
        client := c
        clientBuffer := rest
        told := if f.kind = kSequencedData then l.told ++ [f.payload] else l.told }

def serverFrame : Link :=
  match nextFrame l.serverBuffer with
  | none => l
  | some (f, rest) =>
    { l with serverBuffer := rest }.withServer (l.server.onFrame f l.toClient)

def step : Op → Link
  | .connect nowNs clientRoom clientLeft serverRoom serverLeft =>
    { l with
      server := l.server.onConnect nowNs
      toClient := { room := serverRoom, left := serverLeft, broken := false }
      toServer := { room := clientRoom, left := clientLeft, broken := false }
      clientBuffer := []
      serverBuffer := [] }
  | .arriveClient n =>
    { l with
      clientBuffer := l.clientBuffer ++ l.toClient.bytes.take n
      toClient := { l.toClient with bytes := l.toClient.bytes.drop n } }
  | .arriveServer n =>
    { l with
      serverBuffer := l.serverBuffer ++ l.toServer.bytes.take n
      toServer := { l.toServer with bytes := l.toServer.bytes.drop n } }
  | .clientFrame => l.clientFrame
  | .serverFrame => l.serverFrame
  | .login nowNs => l.withClient (l.client.login nowNs l.toServer).2
  | .clientTimer nowNs => l.withClient (l.client.onTimer nowNs l.toServer)
  | .clientSend msg => l.withClient (l.client.send msg l.toServer).2
  | .logout => l.withClient (l.client.logout l.toServer).2
  | .clientDisconnect => { l with client := l.client.onDisconnect }
  | .serverTimer nowNs => l.withServer (l.server.onTimer nowNs l.toClient)
  | .sendSequenced msg => l.withServer (l.server.sendSequenced msg l.toClient).2
  | .sendUnsequenced msg => l.withServer (l.server.sendUnsequenced msg l.toClient).2
  | .sendDebug text => l.withServer (l.server.sendDebug text l.toClient).2
  | .endSession => l.withServer (l.server.endSession l.toClient).2
  | .serverDisconnect => { l with server := l.server.onDisconnect }

def run (ops : List Op) : Link := ops.foldl step l

end Link

/-- The messages of the `send_sequenced` calls, less those too large for a packet. -/
def sequencedMsgs (ops : List Op) : List Bytes :=
  ops.filterMap fun
    | .sendSequenced msg => if msg.length ≤ kMaxPayload then some msg else none
    | _ => none

/-- The history takes all of them. -/
def EnoughHistory (cfg : ServerConfig) (ops : List Op) : Prop :=
  (sequencedMsgs ops).length ≤ cfg.historyMessages ∧
    (sequencedMsgs ops).flatten.length ≤ cfg.historyBytes

end FastMM.Soup
