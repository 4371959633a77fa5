/-
  The TCP transport (`TcpTransport` of `peerq/transport.py`): what comes in.

  Incoming connections share the inbox, the replay cache and the limit on their
  number.  A step is what the handler of one connection does with the next whole
  frame in its buffer, or something the environment does: octets arrive, a write
  returns, a connection breaks, the node takes a message from the inbox, an
  outgoing connection gets its answer.
-/
import PeerQ.Message
import PeerQ.Lib.Sessions

namespace PeerQ

open Py

/-! ## Configuration and state -/

/-- The arguments of a `TcpTransport` that matter for incoming connections, with what the
    constructor checks. -/
structure TcpTransport (R : Runtime) where
  nodeId : Str
  identity : Bytes
  keyring : PeerKeyRing
  security : SecurityConfig := .default
  own_key : keyring.getPeerKey nodeId = some (R.ed25519.publicKey identity)

/-- Where `_handle_client` is suspended for a connection. -/
inductive Handler where
  | idle
  | greeting
  | acking (sender : Str)
  | reading (authorizedSender : Option Str)
  | ended
  deriving DecidableEq

/-- An incoming connection with the octets that are not read yet. -/
structure Connection where
  handler : Handler := .idle
  buffer : Bytes := []

structure TransportState where
  replayCache : ReplayCache
  inbox : List (Str × Message)
  incomingWriters : Finset ℕ
  connections : ℕ → Connection
  closed : Bool

/-- What can happen at a transport; a connection is named by a number. -/
inductive TransportEvent where
  | connect (c : ℕ)
  | data (c : ℕ) (octets : Bytes)
  | frame (c : ℕ) (now : ℚ) (nonce : Str)
  | acked (c : ℕ)
  | broken (c : ℕ)
  | answered (peer : Str) (ack : Message) (now : ℚ)
  | recv
  | close
  | closeWriters

namespace TransportState

/-- The handler of a connection is suspended. -/
def suspend (s : TransportState) (c : ℕ) (handler : Handler) (buffer : Bytes) : TransportState :=
  { s with connections := Function.update s.connections c ⟨handler, buffer⟩ }

/-- The handler of a connection ends. -/
def hangUp (s : TransportState) (c : ℕ) : TransportState :=
  { s.suspend c .ended [] with incomingWriters := s.incomingWriters.erase c }

/-- The head of the loop over the frames, `while not self._closed`. -/
def resume (s : TransportState) (c : ℕ) (sender : Option Str) (buffer : Bytes) : TransportState :=
  if s.closed then s.hangUp c else s.suspend c (.reading sender) buffer

end TransportState

namespace TcpTransport

variable {R : Runtime} (T : TcpTransport R)

/-- A step with what it does to the connections. -/
abbrev Reaction := TransportState × List (ℕ × Act Str Message)

/-! ## Messages -/

/-- `_signed_message`. -/
def signedMessage (msgType : Str) (payload : Fields) (wallNow : ℚ) (nonce : Str) :
    Except Exn Message :=
  Message.signed R ⟨msgType, T.nodeId, payload, none, none, none, T.security.protocolVersion⟩
    T.identity wallNow nonce

/-- `_verify_message`. -/
def verifyMessage (cache : ReplayCache) (msg : Message) (expectedSender : Option Str) (now : ℚ) :
    ReplayCache × Except Exn Bool :=
  if !T.security.enabled then (cache, .ok true)
  else if msg.protocolVersion ≠ T.security.protocolVersion then (cache, .ok false)
  else if expectedSender.any (· ≠ msg.senderId) then (cache, .ok false)
  else if !T.keyring.hasPeer msg.senderId then (cache, .ok false)
  else match msg.verifySignature R T.keyring with
    | .error e => (cache, .error e)
    | .ok false => (cache, .ok false)
    | .ok true =>
      match msg.timestamp, msg.nonce with
      | some timestamp, some nonce =>
        if T.security.replayWindowSeconds < |now - timestamp| then (cache, .ok false)
        else
          let r := cache.checkAndRemember msg.senderId nonce now T.security.replayWindowSeconds
          (r.2, .ok r.1)
      | _, _ => (cache, .ok false)

/-- `v == n` in Python for a JSON value and an integer. -/
def equalsInt (v : Option Json) (n : ℤ) : Bool :=
  match v with
  | some (.int k) => k = n
  | some (.bool b) => (if b then 1 else 0) = n
  | some (.float (.finite q)) => q = n
  | _ => false

/-- `payload.get("protocol_version") == security.protocol_version`. -/
def sameVersion (msg : Message) : Bool :=
  equalsInt (lookup (str "protocol_version") msg.payload) T.security.protocolVersion

/-- `_read_frame` on the octets that are there: nothing if it has to wait for more, else the message
    or the exception, with what is left. -/
def readFrame (buffer : Bytes) : Option (Except Exn Message × Bytes) :=
  if buffer.length < 4 then none
  else
    let msgLen := beVal (buffer.take 4)
    if msgLen = 0 ∨ T.security.maxFrameSize < msgLen then
      some (.error (.messageDecodeError (str "TCP frame exceeds the configured limit")),
        buffer.drop 4)
    else if buffer.length < 4 + msgLen then none
    else some (Message.fromBytes R ((buffer.drop 4).take msgLen) T.security,
      buffer.drop (4 + msgLen))

/-! ## The handler of a connection -/

/-- The octets of the answer to a hello. -/
def helloAck (now : ℚ) (nonce : Str) : Except Exn Bytes := do
  let ack ← T.signedMessage (str "hello_ack")
    [(str "protocol_version", .int T.security.protocolVersion)] now nonce
  ack.toBytes R T.security.maxFrameSize

/-- `_handle_client` after the first frame of a secure connection, up to the write of the answer. -/
def greet (s : TransportState) (c : ℕ) (buffer : Bytes) (hello : Message) (now : ℚ) (nonce : Str) :
    Reaction :=
  if hello.msgType ≠ str "hello" ∨ T.sameVersion hello = false then (s.hangUp c, [(c, .failed)])
  else match T.verifyMessage s.replayCache hello none now with
    | (cache, .ok true) =>
      let s := { s with replayCache := cache }
      match T.helloAck now nonce with
      | .error _ => (s.hangUp c, [(c, .opened hello.senderId hello), (c, .failed)])
      | .ok _ => (s.suspend c (.acking hello.senderId) buffer, [(c, .opened hello.senderId hello)])
    | (cache, _) => ({ s with replayCache := cache }.hangUp c, [(c, .failed)])

/-- The check of a frame after the handshake. -/
def checkFrame (cache : ReplayCache) (msg : Message) (sender : Option Str) (now : ℚ) :
    ReplayCache × Except Exn Bool :=
  if !T.security.enabled then (cache, .ok true)
  else if msg.msgType ∈ [str "hello", str "hello_ack"] then (cache, .ok false)
  else T.verifyMessage cache msg sender now

/-- One round of the loop of `_handle_client`; a message that finds the inbox full is dropped. -/
def take (s : TransportState) (c : ℕ) (sender : Option Str) (buffer : Bytes) (msg : Message)
    (now : ℚ) : Reaction :=
  match T.checkFrame s.replayCache msg sender now with
  | (cache, .ok true) =>
    let s := { s with replayCache := cache }
    if T.security.maxInboxSize ≤ s.inbox.length then (s.resume c sender buffer, [])
    else
      ({ s with inbox := s.inbox ++ [(msg.senderId, msg)] }.resume c sender buffer,
        [(c, .delivered msg.senderId msg)])
  | (cache, _) => ({ s with replayCache := cache }.hangUp c, [(c, .failed)])

/-- The handler of a connection reads its next frame; an exception, caught or not, ends it. -/
def handleFrame (s : TransportState) (c : ℕ) (now : ℚ) (nonce : Str) : Reaction :=
  match (s.connections c).handler with
  | .greeting =>
    match T.readFrame (s.connections c).buffer with
    | none => (s, [])
    | some (.error _, _) => (s.hangUp c, [(c, .failed)])
    | some (.ok hello, buffer) => T.greet s c buffer hello now nonce
  | .reading sender =>
    match T.readFrame (s.connections c).buffer with
    | none => (s, [])
    | some (.error _, _) => (s.hangUp c, [(c, .failed)])
    | some (.ok msg, buffer) => T.take s c sender buffer msg now
  | _ => (s, [])

/-- `_handle_client` up to its first read. -/
def accept (s : TransportState) (c : ℕ) : TransportState :=
  if T.security.maxConnections ≤ s.incomingWriters.card then s.suspend c .ended []
  else
    let s := { s with incomingWriters := insert c s.incomingWriters }
    if T.security.enabled then s.suspend c .greeting [] else s.resume c none []

/-! ## Steps -/

/-- One step with what it does to the connections; an event that is not enabled changes nothing. -/
def react (s : TransportState) : TransportEvent → Reaction
  | .connect c =>
    match (s.connections c).handler with
    | .idle => (T.accept s c, [])
    | _ => (s, [])
  | .data c octets =>
    match (s.connections c).handler with
    | .idle | .ended => (s, [])
    | handler => (s.suspend c handler ((s.connections c).buffer ++ octets), [])
  | .frame c now nonce => T.handleFrame s c now nonce
  -- the answer is written
  | .acked c =>
    match (s.connections c).handler with
    | .acking sender => (s.resume c (some sender) (s.connections c).buffer, [])
    | _ => (s, [])
  -- a read or a write times out, or the connection is reset or ends within a frame
  | .broken c =>
    match (s.connections c).handler with
    | .idle | .ended => (s, [])
    | _ => (s.hangUp c, [(c, .failed)])
  -- the check of an answer in `_get_or_connect`
  | .answered peer ack now =>
    if ack.msgType ≠ str "hello_ack" ∨ T.sameVersion ack = false then (s, [])
    else ({ s with replayCache := (T.verifyMessage s.replayCache ack (some peer) now).1 }, [])
  | .recv => ({ s with inbox := s.inbox.tail }, [])
  | .close => ({ s with closed := true }, [])
  | .closeWriters => ({ s with incomingWriters := ∅ }, [])

def step (s : TransportState) (e : TransportEvent) : TransportState := (T.react s e).1

def initial : TransportState where
  replayCache := ⟨T.security.replayCacheSize, .empty⟩
  inbox := []
  incomingWriters := ∅
  connections := fun _ => {}
  closed := false

/-- What happens to the connections in a run. -/
def history (es : List TransportEvent) : List (ℕ × Act Str Message) :=
  trace (fun s e => (T.react s e).2) T.step T.initial es

end TcpTransport

end PeerQ
