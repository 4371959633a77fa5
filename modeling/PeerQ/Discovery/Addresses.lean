/-
  The directory of discovered peers and the addresses of the transport.

  The transport learns an address only from the callback for a peer that is not
  in the directory, so the two stay in step exactly as long as no peer changes
  its address while it is there (`addresses_synced_iff`).
-/
import PeerQ.Message.Wire
import PeerQ.Discovery

namespace PeerQ

open Py

namespace PeerDiscovery

variable {R : Runtime} (D : PeerDiscovery R)

/-- At any time the transport has the address of every active peer. -/
def Synced (s : DiscoveryState) : Prop :=
  ∀ now p addr, (p, addr) ∈ D.getActivePeers s now →
    ∃ addresses, s.peerAddresses = some addresses ∧ addresses.get p = some addr

/-- The beacon that a step takes into the directory. -/
def beaconOf (s : DiscoveryState) : DiscoveryEvent → Option Beacon
  | .datagram senderAddr rawData wallNow _ => (D.accepts s senderAddr rawData wallNow).2
  | .sweep _ => none

/-- The node has room for the peer of the beacon: its keyring holds the peer, and the peer is in its
    list already or the list is not full. -/
def Roomy (s : DiscoveryState) (e : DiscoveryEvent) : Prop :=
  ∀ b, D.beaconOf s e = some b →
    (D.security.enabled = true → D.node.keyring.hasPeer b.nodeId = true) ∧
      (b.nodeId ∈ s.nodePeers ∨ s.nodePeers.length < D.security.maxPeers)

/-- A beacon of a peer in the directory has the address that is there. -/
def Steady (s : DiscoveryState) (e : DiscoveryEvent) : Prop :=
  ∀ b peer, D.beaconOf s e = some b → s.directory.get b.nodeId = some peer →
    b.host = peer.host ∧ b.port = peer.port

section
variable {D} {s : DiscoveryState} {e : DiscoveryEvent} {b : Beacon} {peer : DiscoveredPeer} {p : Str}
  {addr : Str × ℤ} {now : ℚ}

theorem mem_getActivePeers : (p, addr) ∈ D.getActivePeers s now ↔
    ∃ peer, s.directory.get p = some peer ∧ now - peer.lastSeen ≤ D.peerTtl ∧
      addr = (peer.host, peer.port) := by
  simp only [getActivePeers, List.mem_map, List.mem_filter, decide_eq_true_eq, Prod.mk.injEq,
    ← Dict.mem_entries]
  constructor
  · rintro ⟨⟨q, peer⟩, ⟨hm, ht⟩, rfl, rfl⟩
    exact ⟨peer, hm, ht, rfl⟩
  · rintro ⟨peer, hm, ht, rfl⟩
    exact ⟨(p, peer), ⟨hm, ht⟩, rfl, rfl⟩

/-- Every peer in the directory is active at some time. -/
theorem synced_iff : D.Synced s ↔ ∀ p peer, s.directory.get p = some peer →
    ∃ addresses, s.peerAddresses = some addresses ∧
      addresses.get p = some (peer.host, peer.port) := by
  constructor
  · intro h p peer hp
    exact h (peer.lastSeen + D.peerTtl) p _ (mem_getActivePeers.2 ⟨peer, hp, by simp, rfl⟩)
  · intro h now p addr hm
    obtain ⟨peer, hp, -, rfl⟩ := mem_getActivePeers.1 hm
    exact h p peer hp

/-- A node with room takes the address of a discovered peer. -/
theorem onDiscovered_addresses (hown : peer.nodeId ≠ D.nodeId)
    (hkey : D.security.enabled = true → D.node.keyring.hasPeer peer.nodeId = true)
    (hroom : peer.nodeId ∈ s.nodePeers ∨ s.nodePeers.length < D.security.maxPeers) :
    (D.onDiscovered s peer).peerAddresses =
      s.peerAddresses.map fun a => a.set peer.nodeId (peer.host, peer.port) := by
  have hk : ¬ (D.security.enabled && !D.node.keyring.hasPeer peer.nodeId) = true := by
    simpa using hkey
  have hr : ¬ (peer.nodeId ∉ s.nodePeers ∧ D.security.maxPeers ≤ s.nodePeers.length) := by
    rintro ⟨h1, h2⟩
    exact hroom.elim h1 (not_lt.2 h2)
  unfold onDiscovered
  rw [if_neg hown, if_neg hk, if_neg hr]
  split_ifs <;> rfl

/-- **What a step does to directory and addresses**: a sweep or a datagram that is not accepted only
    takes entries away, a beacon of a known peer changes the directory alone, and one of a new peer
    changes both. -/
theorem step_cases (hroom : D.Roomy s e) :
    (D.beaconOf s e = none ∧ (D.step s e).peerAddresses = s.peerAddresses ∧
      ∀ p peer, (D.step s e).directory.get p = some peer → s.directory.get p = some peer) ∨
    ∃ b now, D.beaconOf s e = some b ∧
      (D.step s e).directory = s.directory.set b.nodeId ⟨b.nodeId, b.host, b.port, b.clusterId, now⟩ ∧
      (s.directory.has b.nodeId = true ∧ (D.step s e).peerAddresses = s.peerAddresses ∨
        s.directory.has b.nodeId = false ∧ (D.step s e).peerAddresses =
          s.peerAddresses.map fun a => a.set b.nodeId (b.host, b.port)) := by
  cases e with
  | sweep now => exact Or.inl ⟨rfl, rfl, fun p peer h => (Dict.get_filter.1 h).1⟩
  | datagram senderAddr rawData wallNow now =>
    simp only [step, listen, beaconOf]
    rcases hacc : D.accepts s senderAddr rawData wallNow with ⟨cache, _ | b⟩
    · exact Or.inl ⟨rfl, rfl, fun _ _ h => h⟩
    · obtain ⟨hkey, hfree⟩ := hroom b (by rw [beaconOf, hacc])
      have hown : b.nodeId ≠ D.nodeId := by
        have hadm := (Option.filter_eq_some_iff.1 (congrArg Prod.snd hacc)).2
        simp only [admits, Bool.and_eq_true, decide_eq_true_eq] at hadm
        exact hadm.1.1.1
      refine Or.inr ⟨b, now, rfl, ?_⟩
      simp only [store]
      cases hnew : s.directory.has b.nodeId
      · refine ⟨?_, Or.inr ⟨rfl, ?_⟩⟩
        · simp [onDiscovered_directory]
        · exact onDiscovered_addresses hown hkey hfree
      · exact ⟨by simp, Or.inl ⟨rfl, by simp⟩⟩

theorem step_isSome (hroom : D.Roomy s e) :
    (D.step s e).peerAddresses.isSome = s.peerAddresses.isSome := by
  obtain ⟨-, h, -⟩ | ⟨b, now, -, -, ⟨-, h⟩ | ⟨-, h⟩⟩ := step_cases hroom <;> rw [h]
  exact Option.isSome_map

/-- A step keeps directory and addresses in step exactly if it is steady. -/
theorem synced_step_iff (htcp : s.peerAddresses.isSome = true) (hs : D.Synced s)
    (hroom : D.Roomy s e) : D.Synced (D.step s e) ↔ D.Steady s e := by
  rw [synced_iff] at hs ⊢
  obtain ⟨hb, haddr, hdir⟩ | ⟨b, now, hb, hdir, hcase⟩ := step_cases hroom
  · refine iff_of_true (fun p peer hp => ?_) fun b peer hb' => ?_
    · rw [haddr]
      exact hs p peer (hdir p peer hp)
    · rw [hb] at hb'
      cases hb'
  have hother : ∀ p, p ≠ b.nodeId → (D.step s e).directory.get p = s.directory.get p := by
    intro p hp
    rw [hdir, Dict.get_set_ne _ _ (Ne.symm hp)]
  have hself : (D.step s e).directory.get b.nodeId =
      some ⟨b.nodeId, b.host, b.port, b.clusterId, now⟩ := by
    rw [hdir, Dict.get_set_self]
  rcases hcase with ⟨hhas, haddr⟩ | ⟨hnew, haddr⟩
  · -- a peer that is there: its address is not taken over
    obtain ⟨old, hold⟩ := Option.isSome_iff_exists.1 hhas
    obtain ⟨addresses, ha, hget⟩ := hs _ _ hold
    rw [haddr]
    constructor
    · intro h b' peer hb' hpeer
      obtain rfl := Option.some.inj (hb.symm.trans hb')
      obtain rfl := Option.some.inj (hold.symm.trans hpeer)
      obtain ⟨addresses', ha', hget'⟩ := h _ _ hself
      obtain rfl := Option.some.inj (ha.symm.trans ha')
      exact Prod.mk.inj (Option.some.inj (hget'.symm.trans hget))
    · intro h p peer hp
      by_cases hpb : p = b.nodeId
      · subst hpb
        obtain rfl := Option.some.inj (hself.symm.trans hp)
        obtain ⟨hhost, hport⟩ := h b old hb hold
        exact ⟨addresses, ha, by rw [hget, hhost, hport]⟩
      · exact hs p peer ((hother p hpb).symm.trans hp)
  · -- a new peer: its address is set
    obtain ⟨addresses, ha⟩ := Option.isSome_iff_exists.1 htcp
    refine iff_of_true (fun p peer hp => ⟨addresses.set b.nodeId (b.host, b.port), ?_, ?_⟩) ?_
    · rw [haddr, ha, Option.map_some]
    · by_cases hpb : p = b.nodeId
      · subst hpb
        obtain rfl := Option.some.inj (hself.symm.trans hp)
        exact Dict.get_set_self _ _ _
      · obtain ⟨addresses', ha', hget⟩ := hs p peer ((hother p hpb).symm.trans hp)
        obtain rfl := Option.some.inj (ha.symm.trans ha')
        rw [Dict.get_set_ne _ _ (Ne.symm hpb), hget]
    · intro b' peer hb' hpeer
      obtain rfl := Option.some.inj (hb.symm.trans hb')
      rw [Dict.has, hpeer] at hnew
      cases hnew

end

/-- **Directory and addresses.**  In a run in which the node has room for every peer, the transport
    has the address of every active peer after each step exactly if no peer changes its address while
    it is in the directory. -/
theorem addresses_synced_iff (htcp : D.transport.isSome = true) {es : List DiscoveryEvent}
    (hroom : Along D.Roomy D.step D.initial es) :
    Along (fun s e => D.Synced (D.step s e)) D.step D.initial es ↔
      Along D.Steady D.step D.initial es := by
  refine Along.iff_of_invariant (I := fun s => s.peerAddresses.isSome = true ∧ D.Synced s)
    (fun s e hs hr => synced_step_iff hs.1 hs.2 hr)
    (fun s e hs hr hp => ⟨by rw [step_isSome hr, hs.1], hp⟩) ⟨htcp, ?_⟩ hroom
  exact synced_iff.2 fun p peer hp => by cases hp

/-- A fresh, signed beacon is read. -/
theorem openEnvelope_ok (cache : ReplayCache) {rawData : Bytes} {message : Message}
    {wallNow timestamp : ℚ} {nonce : Str}
    (hread : Message.fromBytes R rawData D.security = .ok message)
    (htype : message.msgType = str "discovery")
    (hversion : message.protocolVersion = D.security.protocolVersion)
    (hsig : message.verifySignature R D.keyring = .ok true)
    (ht : message.timestamp = some timestamp) (hn : message.nonce = some nonce)
    (hwindow : |wallNow - timestamp| ≤ D.security.replayWindowSeconds)
    (hfresh : (cache.checkAndRemember message.senderId nonce wallNow
      D.security.replayWindowSeconds).1 = true)
    (hname : namesSender message = true) :
    D.openEnvelope cache rawData wallNow = ((cache.checkAndRemember message.senderId nonce wallNow
      D.security.replayWindowSeconds).2, some (message.payload, .str message.senderId)) := by
  simp [openEnvelope, hread, htype, hversion, hsig, ht, hn, not_lt.2 hwindow, hfresh, hname]

theorem readBeacon_ok {cache cache' : ReplayCache} {senderAddr : Str} {rawData : Bytes} {wallNow : ℚ}
    {data : Fields} {remoteId : Json} {b : Beacon} (hsec : D.security.enabled = true)
    (hlen : rawData.length ≤ D.security.maxUdpPayload)
    (henv : D.openEnvelope cache rawData wallNow = (cache', some (data, remoteId)))
    (hdec : decodeBeacon senderAddr data remoteId = some b) :
    D.readBeacon cache senderAddr rawData wallNow = (cache', some b) := by
  simp [readBeacon, not_lt.2 hlen, hsec, henv, hdec]

namespace Sample

noncomputable def runtime : Runtime := .ofScheme .suffix

theorem keys_nodup : ([(str "a", [1]), (str "c", [3])].map Prod.fst : List Str).Nodup := by
  decide +kernel

def keys : PeerKeyRing := ⟨⟨[(str "a", [1]), (str "c", [3])], keys_nodup⟩⟩

theorem idOk : TaskRecord.PeerIdOk (str "c") := by decide +kernel

theorem ownKey : keys.getPeerKey (str "c") = some (runtime.ed25519.publicKey [3]) := by
  decide +kernel

/-- The node `c` without peers. -/
noncomputable def nodeC : PeerNode runtime where
  nodeId := str "c"
  peers := []
  hasHandler := false
  identity := [3]
  keyring := keys
  nodeId_ok := idOk
  peers_ok := by decide +kernel
  own_key := ownKey
  maxTasks_pos := PeerNode.defaultTasks_pos

/-- Discovery at `c`, whose transport knows no address yet. -/
noncomputable def discoveryC : PeerDiscovery runtime where
  nodeId := str "c"
  identity := [3]
  keyring := keys
  node := nodeC
  transport := some .empty
  nodeId_ok := idOk
  own_key := ownKey

/-- The beacon of `a` with the given port, signed at time 0. -/
noncomputable def beacon (port : ℤ) (nonce : String) : Message :=
  let unsigned : Message := ⟨str "discovery", str "a",
    [(str "cluster_id", .str (str "peerq-default")), (str "host", .str (str "h")),
     (str "node_id", .str (str "a")), (str "port", .int port), (str "public_key", .str (hex [1]))],
    some 0, some (str nonce), none, 2⟩
  { unsigned with signature := some (runtime.ed25519.sign [1]
    ((unsigned.canonicalBytes runtime).toOption.getD [])) }

/-- The datagram of a beacon: what `to_bytes` writes without the length. -/
noncomputable def datagram (m : Message) : Bytes := ((Message.toBytes runtime m).toOption.getD []).drop 4

noncomputable def arrival (port : ℤ) (nonce : String) (now : ℚ) : DiscoveryEvent :=
  .datagram (str "h") (datagram (beacon port nonce)) 0 now

/-- A beacon that gets through the checks, for any state of the replay cache that lets it through and
    any directory with room. -/
theorem arrival_accepted {port : ℤ} {nonce : String} {s : DiscoveryState} {b : Beacon}
    (hwf : (Json.obj (beacon port nonce).payload).wf = true)
    (hn : 1 ≤ (str nonce).length ∧ (str nonce).length ≤ 128)
    (hbytes : (Message.toBytes runtime (beacon port nonce)).toOption.isSome = true)
    (hlimits : Json.bounded 15 (256 * 1024) 0 (.obj (beacon port nonce).payload) = true ∧
      (Json.obj (beacon port nonce).payload).items + 7 ≤ 10000)
    (hlen : (datagram (beacon port nonce)).length ≤ discoveryC.security.maxUdpPayload)
    (hsig : ((beacon port nonce).canon.verifySignature runtime keys).toOption = some true)
    (hname : namesSender (beacon port nonce).canon = true)
    (hdec : decodeBeacon (str "h") (beacon port nonce).canon.payload (.str (str "a")) = some b)
    (hfresh : (s.replayCache.checkAndRemember (str "a") (str nonce) 0
      discoveryC.security.replayWindowSeconds).1 = true)
    (hadm : discoveryC.admits s.directory b = true) :
    discoveryC.accepts s (str "h") (datagram (beacon port nonce)) 0 =
      ((s.replayCache.checkAndRemember (str "a") (str nonce) 0
        discoveryC.security.replayWindowSeconds).2, some b) := by
  have hm : (beacon port nonce).WellFormed :=
    .of_signed hwf rfl hn rfl (Ed25519.suffix_lawful.length_sign _ _)
  have hread : Message.fromBytes runtime (datagram (beacon port nonce)) discoveryC.security =
      .ok (beacon port nonce).canon := by
    obtain ⟨data, hdata⟩ := exists_ok hbytes
    rw [datagram, hdata]
    exact (Message.fromBytes_toBytes hm hdata).2 ⟨hlimits, rfl⟩
  obtain ⟨v, hv⟩ := exists_ok (x := (beacon port nonce).canon.verifySignature runtime keys)
    (by rw [hsig]; rfl)
  rw [hv] at hsig
  obtain rfl : v = true := Option.some.inj hsig
  have henv := discoveryC.openEnvelope_ok s.replayCache hread rfl rfl hv rfl rfl
    (by decide +kernel) hfresh hname
  have hbeacon := discoveryC.readBeacon_ok rfl hlen henv hdec
  simp only [accepts, hbeacon, Option.filter_some, hadm, if_true]
  rfl

/-- The beacon of `a` with the given port as it is read. -/
def readA (port : ℤ) : Beacon := ⟨str "a", str "h", port, str "peerq-default"⟩

/-- The state after the first beacon of `a`. -/
noncomputable def found : DiscoveryState :=
  discoveryC.store { discoveryC.initial with
    replayCache := (discoveryC.initial.replayCache.checkAndRemember (str "a") (str "m") 0
      discoveryC.security.replayWindowSeconds).2 } (readA 1) 0

theorem first_accepted : discoveryC.accepts discoveryC.initial (str "h") (datagram (beacon 1 "m")) 0 =
    ((discoveryC.initial.replayCache.checkAndRemember (str "a") (str "m") 0
      discoveryC.security.replayWindowSeconds).2, some (readA 1)) :=
  arrival_accepted (by decide +kernel) (by decide) (by decide +kernel) (by decide +kernel)
    (by decide +kernel) (by decide +kernel) (by decide +kernel) (by decide +kernel)
    (by decide) (by decide)

theorem first_step : discoveryC.step discoveryC.initial (arrival 1 "m" 0) = found := by
  simp only [step, arrival, listen, first_accepted]
  rfl

theorem again_accepted :
    discoveryC.beaconOf found (arrival 1 "n" 1) = some (readA 1) :=
  congrArg Prod.snd (arrival_accepted (by decide +kernel) (by decide) (by decide +kernel)
    (by decide +kernel) (by decide +kernel) (by decide +kernel) (by decide +kernel)
    (by decide +kernel) (by decide +kernel) (by decide +kernel))

theorem moved_accepted :
    discoveryC.beaconOf found (arrival 2 "n" 1) = some (readA 2) :=
  congrArg Prod.snd (arrival_accepted (by decide +kernel) (by decide) (by decide +kernel)
    (by decide +kernel) (by decide +kernel) (by decide +kernel) (by decide +kernel)
    (by decide +kernel) (by decide +kernel) (by decide +kernel))

theorem found_entry : found.directory.get (str "a") =
    some ⟨str "a", str "h", 1, str "peerq-default", 0⟩ := by
  decide

/-- The node has room for `a`. -/
theorem arrivals_roomy {port : ℤ}
    (h : discoveryC.beaconOf found (arrival port "n" 1) = some (readA port)) :
    Along discoveryC.Roomy discoveryC.step discoveryC.initial [arrival 1 "m" 0, arrival port "n" 1] := by
  refine ⟨fun b hb => ?_, ?_, trivial⟩
  · obtain rfl := Option.some.inj ((congrArg Prod.snd first_accepted).symm.trans hb)
    exact ⟨fun _ => by decide, Or.inr (by decide)⟩
  · rw [first_step]
    intro b hb
    obtain rfl := Option.some.inj (h.symm.trans hb)
    have hkey : keys.hasPeer (str "a") = true := by decide
    have hlisted : str "a" ∈ found.nodePeers := by decide
    exact ⟨fun _ => hkey, Or.inl hlisted⟩

end Sample

/-- The node `a` is seen twice at the same address. -/
theorem addresses_synced_again :
    Along (fun s e => Sample.discoveryC.Synced (Sample.discoveryC.step s e)) Sample.discoveryC.step
      Sample.discoveryC.initial [Sample.arrival 1 "m" 0, Sample.arrival 1 "n" 1] := by
  refine (Sample.discoveryC.addresses_synced_iff rfl
    (Sample.arrivals_roomy Sample.again_accepted)).2 ⟨?_, ?_, trivial⟩
  · intro b peer _ hpeer
    cases hpeer
  · rw [Sample.first_step]
    intro b peer hb hpeer
    obtain rfl := Option.some.inj (Sample.again_accepted.symm.trans hb)
    obtain rfl := Option.some.inj (Sample.found_entry.symm.trans hpeer)
    exact ⟨rfl, rfl⟩

/-- The node `a` moves to another port before its entry expires: the directory has the new port, the
    transport keeps the old one. -/
theorem addresses_outdated :
    ¬ ∀ (R : Runtime) (D : PeerDiscovery R) (es : List DiscoveryEvent), R.ed25519.Lawful →
      D.transport.isSome = true → Along D.Roomy D.step D.initial es →
      Along (fun s e => D.Synced (D.step s e)) D.step D.initial es := by
  intro h
  obtain ⟨hfirst, hsecond, -⟩ := h Sample.runtime Sample.discoveryC
    [Sample.arrival 1 "m" 0, Sample.arrival 2 "n" 1] Ed25519.suffix_lawful rfl
    (Sample.arrivals_roomy Sample.moved_accepted)
  obtain ⟨-, hroom, -⟩ := Sample.arrivals_roomy Sample.moved_accepted
  rw [Sample.first_step] at hfirst hsecond hroom
  have hsteady := (synced_step_iff (by decide) hfirst hroom).1 hsecond
  have hport := (hsteady _ _ Sample.moved_accepted Sample.found_entry).2
  exact absurd hport (by decide)

end PeerDiscovery

end PeerQ
