/-
  Peer discovery (`peerq/discovery.py`), bound to a node.

  A step is the processing of one datagram by `_listen_loop` or one sweep of
  `_ttl_loop`.  Clock readings are part of the event.  Besides the directory the
  state holds what the callback of `bind_node` changes: the node's list of peers,
  its credit windows, and the addresses of its transport.
-/
import PeerQ.Node

namespace PeerQ

open Py

/-! ## Configuration and state -/

/-- The arguments of a `PeerDiscovery`, with what its constructor checks, and the node it is bound
    to with the addresses of its transport, if that is a `TcpTransport`. -/
structure PeerDiscovery (R : Runtime) where
  nodeId : Str
  clusterId : Str := str "peerq-default"
  peerTtl : ℚ := 7 / 2
  identity : Bytes
  keyring : PeerKeyRing
  security : SecurityConfig := .default
  node : PeerNode R
  transport : Option (Dict Str (Str × ℤ))
  nodeId_ok : nodeId ≠ [] ∧ nodeId.length ≤ maxPeerIdLength
  own_key : keyring.getPeerKey nodeId = some (R.ed25519.publicKey identity)

/-- `DiscoveredPeer`. -/
structure DiscoveredPeer where
  nodeId : Str
  host : Str
  port : ℤ
  clusterId : Str
  lastSeen : ℚ
  deriving DecidableEq

/-- What a beacon says, with the host to be used for it. -/
structure Beacon where
  nodeId : Str
  host : Str
  port : ℤ
  clusterId : Str
  deriving DecidableEq

structure DiscoveryState where
  directory : Dict Str DiscoveredPeer
  replayCache : ReplayCache
  nodePeers : List Str
  credits : Dict Str ℤ
  peerAddresses : Option (Dict Str (Str × ℤ))

inductive DiscoveryEvent where
  | datagram (senderAddr : Str) (rawData : Bytes) (wallNow now : ℚ)
  | sweep (now : ℚ)

/-- `ch.isspace()`. -/
def isSpaceChar (c : CodePoint) : Bool :=
  isSpace c || (0x1c ≤ c.val && c.val ≤ 0x1f) || c.val == 0x85 || c.val == 0xa0 || c.val == 0x1680 ||
    (0x2000 ≤ c.val && c.val ≤ 0x200a) || c.val == 0x2028 || c.val == 0x2029 || c.val == 0x202f ||
    c.val == 0x205f || c.val == 0x3000

namespace PeerDiscovery

variable {R : Runtime} (D : PeerDiscovery R)

/-! ## Beacons -/

/-- `data.get("node_id") == remote_id`. -/
def namesSender (message : Message) : Bool :=
  match lookup (str "node_id") message.payload with
  | some (.str nodeId) => nodeId = message.senderId
  | _ => false

/-- The envelope of a beacon on a secure node: its payload and its sender, if it is accepted. -/
def openEnvelope (cache : ReplayCache) (rawData : Bytes) (wallNow : ℚ) :
    ReplayCache × Option (Fields × Json) :=
  match Message.fromBytes R rawData D.security with
  | .error _ => (cache, none)
  | .ok message =>
    if message.msgType ≠ str "discovery" ∨ message.protocolVersion ≠ D.security.protocolVersion then
      (cache, none)
    else match message.verifySignature R D.keyring, message.timestamp, message.nonce with
      | .ok true, some timestamp, some nonce =>
        if D.security.replayWindowSeconds < |wallNow - timestamp| then (cache, none)
        else
          let r := cache.checkAndRemember message.senderId nonce wallNow
            D.security.replayWindowSeconds
          if !r.1 then (r.2, none)
          else if !namesSender message then (r.2, none)
          else (r.2, some (message.payload, .str message.senderId))
      | _, _, _ => (cache, none)

/-- A beacon on a node without security. -/
def openPlain (rawData : Bytes) : Option (Fields × Json) :=
  match R.json.loads true rawData with
  | some (.obj data) => (lookup (str "node_id") data).map fun remoteId => (data, remoteId)
  | _ => none

/-- The host of a beacon: for a wildcard the address the datagram came from. -/
def beaconHost (senderAddr : Str) : Option Json → Option Str
  | some (.str host) =>
    if host = [] ∨ 253 < host.length then none
    else
      let host := if host ∈ [str "0.0.0.0", [], str "::"] ∧ senderAddr ≠ [] then senderAddr else host
      if host = [] ∨ host.any (fun c => isSpaceChar c || c.val ∈ [0x00, 0x2f, 0x5c]) then none
      else some host
  | _ => none

def beaconPort : Option Json → Option ℤ
  | some (.int port) => if 1 ≤ port ∧ port ≤ 65535 then some port else none
  | _ => none

def beaconCluster : Option Json → Option Str
  | none => some []
  | some (.str clusterId) => if 128 < clusterId.length then none else some clusterId
  | _ => none

/-- The fields of a beacon; whatever raises on the way is skipped. -/
def decodeBeacon (senderAddr : Str) (data : Fields) (remoteId : Json) : Option Beacon :=
  match remoteId with
  | .str nodeId =>
    if nodeId = [] ∨ maxPeerIdLength < nodeId.length then none
    else do
      let host ← beaconHost senderAddr (lookup (str "host") data)
      let port ← beaconPort (lookup (str "port") data)
      let clusterId ← beaconCluster (lookup (str "cluster_id") data)
      some { nodeId, host, port, clusterId }
  | _ => none

/-- The `try` block of `_listen_loop`. -/
def readBeacon (cache : ReplayCache) (senderAddr : Str) (rawData : Bytes) (wallNow : ℚ) :
    ReplayCache × Option Beacon :=
  if D.security.maxUdpPayload < rawData.length then (cache, none)
  else
    let x := if D.security.enabled then D.openEnvelope cache rawData wallNow
      else (cache, openPlain (R := R) rawData)
    (x.1, x.2.bind fun y => decodeBeacon senderAddr y.1 y.2)

/-- The checks of `_listen_loop` behind the `try` block. -/
def admits (directory : Dict Str DiscoveredPeer) (b : Beacon) : Bool :=
  b.nodeId ≠ D.nodeId && b.clusterId = D.clusterId &&
    (!D.security.enabled || D.keyring.hasPeer b.nodeId) &&
    (directory.has b.nodeId || directory.size < D.security.maxPeers)

/-- The beacon of a datagram that gets into the directory, with the replay cache after it. -/
def accepts (s : DiscoveryState) (senderAddr : Str) (rawData : Bytes) (wallNow : ℚ) :
    ReplayCache × Option Beacon :=
  let x := D.readBeacon s.replayCache senderAddr rawData wallNow
  (x.1, x.2.filter fun b => D.admits s.directory b)

/-! ## The node -/

/-- The callback of `bind_node`. -/
def onDiscovered (s : DiscoveryState) (peer : DiscoveredPeer) : DiscoveryState :=
  if peer.nodeId = D.nodeId then s
  else if D.security.enabled && !D.node.keyring.hasPeer peer.nodeId then s
  else if peer.nodeId ∉ s.nodePeers ∧ D.security.maxPeers ≤ s.nodePeers.length then s
  else
    let s := if peer.nodeId ∈ s.nodePeers then s else
      { s with
        nodePeers := s.nodePeers ++ [peer.nodeId]
        credits := s.credits.set peer.nodeId 20 }
    { s with peerAddresses := s.peerAddresses.map fun a => a.set peer.nodeId (peer.host, peer.port) }

variable {D} in
theorem onDiscovered_directory {s : DiscoveryState} {peer : DiscoveredPeer} :
    (D.onDiscovered s peer).directory = s.directory := by
  unfold onDiscovered
  split_ifs <;> rfl

/-! ## Steps -/

/-- A beacon gets into the directory; only a peer that is not there is announced. -/
def store (s : DiscoveryState) (b : Beacon) (now : ℚ) : DiscoveryState :=
  let peer : DiscoveredPeer := ⟨b.nodeId, b.host, b.port, b.clusterId, now⟩
  let isNew := !s.directory.has b.nodeId
  let s := { s with directory := s.directory.set b.nodeId peer }
  if isNew then D.onDiscovered s peer else s

/-- One datagram in `_listen_loop`. -/
def listen (s : DiscoveryState) (senderAddr : Str) (rawData : Bytes) (wallNow now : ℚ) :
    DiscoveryState :=
  match D.accepts s senderAddr rawData wallNow with
  | (cache, none) => { s with replayCache := cache }
  | (cache, some b) => D.store { s with replayCache := cache } b now

/-- One sweep of `_ttl_loop`. -/
def sweep (s : DiscoveryState) (now : ℚ) : DiscoveryState :=
  { s with directory := s.directory.filter fun e => now - e.2.lastSeen ≤ D.peerTtl }

def step (s : DiscoveryState) : DiscoveryEvent → DiscoveryState
  | .datagram senderAddr rawData wallNow now => D.listen s senderAddr rawData wallNow now
  | .sweep now => D.sweep s now

/-- Discovery is bound to the node and started. -/
def initial : DiscoveryState where
  directory := .empty
  replayCache := ⟨D.security.replayCacheSize, .empty⟩
  nodePeers := D.node.peers
  credits := D.node.fresh.credits
  peerAddresses := D.transport

/-- `get_active_peers`. -/
def getActivePeers (s : DiscoveryState) (now : ℚ) : List (Str × (Str × ℤ)) :=
  (s.directory.entries.filter fun e => now - e.2.lastSeen ≤ D.peerTtl).map fun e =>
    (e.1, (e.2.host, e.2.port))

end PeerDiscovery

end PeerQ
