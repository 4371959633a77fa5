/-
  What a secure discovery takes into its directory and into the node's peers.

  Whatever comes in, the directory stays within its bound and holds only authorised
  peers with what a beacon signed by them says, and the node's list grows by such
  peers only (`directory_invariant`).
-/
import PeerQ.Discovery.Addresses

namespace PeerQ

open Py

namespace PeerDiscovery

variable {R : Runtime} (D : PeerDiscovery R)

/-- The host that a beacon names, or, for a wildcard, where the datagram came from. -/
def HostOf (senderAddr : Str) (data : Fields) (host : Str) : Prop :=
  ∃ named, lookup (str "host") data = some (.str named) ∧
    (host = named ∨ named ∈ [str "0.0.0.0", [], str "::"] ∧ host = senderAddr)

/-- The cluster that a beacon names, or the empty default. -/
def ClusterOf (data : Fields) (clusterId : Str) : Prop :=
  lookup (str "cluster_id") data = some (.str clusterId) ∨
    lookup (str "cluster_id") data = none ∧ clusterId = []

/-- A datagram that carries this beacon, signed by the peer that it is about. -/
def SignedBeacon (b : Beacon) : DiscoveryEvent → Prop
  | .sweep _ => False
  | .datagram senderAddr rawData _ _ => ∃ message : Message,
      Message.fromBytes R rawData D.security = .ok message ∧ message.msgType = str "discovery" ∧
      message.verifySignature R D.keyring = .ok true ∧ message.senderId = b.nodeId ∧
      HostOf senderAddr message.payload b.host ∧
      lookup (str "port") message.payload = some (.int b.port) ∧ 1 ≤ b.port ∧ b.port ≤ 65535 ∧
      ClusterOf message.payload b.clusterId

variable {D} {s : DiscoveryState} {e : DiscoveryEvent} {b : Beacon} {senderAddr : Str}
  {rawData : Bytes} {wallNow : ℚ}

/-! ## Beacons -/

theorem beaconHost_some {data : Fields} {host : Str}
    (h : beaconHost senderAddr (lookup (str "host") data) = some host) :
    HostOf senderAddr data host := by
  unfold beaconHost at h
  split at h
  · rename_i named hnamed
    simp only [Option.ite_none_left_eq_some, Option.some.injEq] at h
    obtain ⟨-, -, rfl⟩ := h
    refine ⟨named, hnamed, ?_⟩
    split_ifs with hwild
    exacts [.inr ⟨hwild.1, rfl⟩, .inl rfl]
  · cases h

theorem beaconPort_some {j : Option Json} {port : ℤ} (h : beaconPort j = some port) :
    j = some (.int port) ∧ 1 ≤ port ∧ port ≤ 65535 := by
  unfold beaconPort at h
  split at h
  · simp only [Option.ite_none_right_eq_some, Option.some.injEq] at h
    obtain ⟨hrange, rfl⟩ := h
    exact ⟨rfl, hrange⟩
  · cases h

theorem beaconCluster_some {data : Fields} {clusterId : Str}
    (h : beaconCluster (lookup (str "cluster_id") data) = some clusterId) :
    ClusterOf data clusterId := by
  unfold beaconCluster at h
  split at h
  · rename_i hnone
    exact .inr ⟨hnone, (Option.some.inj h).symm⟩
  · rename_i named hnamed
    simp only [Option.ite_none_left_eq_some, Option.some.injEq] at h
    exact .inl (h.2 ▸ hnamed)
  · cases h

/-- What `_listen_loop` reads from the fields of a beacon. -/
theorem decodeBeacon_some {data : Fields} {remoteId : Str}
    (h : decodeBeacon senderAddr data (.str remoteId) = some b) :
    remoteId = b.nodeId ∧ HostOf senderAddr data b.host ∧
      lookup (str "port") data = some (.int b.port) ∧ 1 ≤ b.port ∧ b.port ≤ 65535 ∧
      ClusterOf data b.clusterId := by
  simp only [decodeBeacon, Option.ite_none_left_eq_some, Option.bind_eq_bind,
    Option.bind_eq_some_iff, Option.some.injEq] at h
  obtain ⟨-, host, hhost, port, hport, clusterId, hcluster, rfl⟩ := h
  obtain ⟨hport, hrange⟩ := beaconPort_some hport
  exact ⟨rfl, beaconHost_some hhost, hport, hrange.1, hrange.2, beaconCluster_some hcluster⟩

/-- An envelope that is accepted is signed by the peer that it names. -/
theorem openEnvelope_some {cache cache' : ReplayCache} {data : Fields} {remoteId : Json}
    (h : D.openEnvelope cache rawData wallNow = (cache', some (data, remoteId))) :
    ∃ message : Message, Message.fromBytes R rawData D.security = .ok message ∧
      message.msgType = str "discovery" ∧ message.verifySignature R D.keyring = .ok true ∧
      data = message.payload ∧ remoteId = .str message.senderId := by
  unfold openEnvelope at h
  split at h
  · cases h
  · rename_i message hread
    by_cases htype : message.msgType ≠ str "discovery" ∨
        message.protocolVersion ≠ D.security.protocolVersion
    · rw [if_pos htype] at h
      cases h
    rw [if_neg htype] at h
    rw [not_or, not_not, not_not] at htype
    split at h
    · rename_i hsig _ _
      simp only at h
      split_ifs at h <;>
        simp only [Prod.mk.injEq, Option.some.injEq, reduceCtorEq, and_false] at h
      exact ⟨message, hread, htype.1, hsig, h.2.1.symm, h.2.2.symm⟩
    · cases h

/-- **What is accepted**: a beacon of another, authorised peer, signed by it, for which the
    directory has an entry or room. -/
theorem accepts_some (hsec : D.security.enabled = true) (now : ℚ)
    (h : (D.accepts s senderAddr rawData wallNow).2 = some b) :
    D.SignedBeacon b (.datagram senderAddr rawData wallNow now) ∧ b.nodeId ≠ D.nodeId ∧
      D.keyring.hasPeer b.nodeId = true ∧
      (s.directory.has b.nodeId = true ∨ s.directory.size < D.security.maxPeers) := by
  obtain ⟨hread, hadmits⟩ := Option.filter_eq_some_iff.1 h
  simp only [admits, hsec, Bool.and_eq_true, Bool.or_eq_true, decide_eq_true_eq, Bool.not_true,
    Bool.false_eq_true, false_or] at hadmits
  obtain ⟨⟨⟨hown, -⟩, hkey⟩, hroom⟩ := hadmits
  refine ⟨?_, hown, hkey, hroom⟩
  simp only [readBeacon, hsec, if_true] at hread
  split_ifs at hread
  obtain ⟨⟨data, remoteId⟩, henvelope, hdecode⟩ := Option.bind_eq_some_iff.1 hread
  obtain ⟨message, hbytes, htype, hsig, rfl, rfl⟩ := openEnvelope_some (Prod.ext rfl henvelope)
  obtain ⟨hsender, hfields⟩ := decodeBeacon_some hdecode
  exact ⟨message, hbytes, htype, hsig, hsender, hfields⟩

/-! ## The node's peers -/

/-- The callback adds a peer only where there is room. -/
theorem onDiscovered_nodePeers {peer : DiscoveredPeer} :
    (D.onDiscovered s peer).nodePeers = s.nodePeers ∨
      (D.onDiscovered s peer).nodePeers = s.nodePeers ++ [peer.nodeId] ∧
        peer.nodeId ∉ s.nodePeers ∧ s.nodePeers.length < D.security.maxPeers := by
  unfold onDiscovered
  split_ifs with hown hkey hfull hmem
  · exact .inl rfl
  · exact .inl rfl
  · exact .inl rfl
  · exact .inl rfl
  · refine .inr ⟨rfl, hmem, not_le.1 fun hle => hfull ⟨hmem, hle⟩⟩

/-! ## Steps -/

/-- What is known of a peer from a beacon that it signed. -/
structure Vouched (D : PeerDiscovery R) (es : List DiscoveryEvent) (b : Beacon) : Prop where
  other : b.nodeId ≠ D.nodeId
  authorised : D.keyring.hasPeer b.nodeId = true
  signed : ∃ e ∈ es, D.SignedBeacon b e

/-- **What a step does**: entries leave the directory; or a vouched peer gets in, where there is
    room for it, and into the node's peers at most. -/
theorem step_spec (hsec : D.security.enabled = true) (s : DiscoveryState) (e : DiscoveryEvent) :
    ((D.step s e).directory.size ≤ s.directory.size ∧ (D.step s e).nodePeers = s.nodePeers ∧
      ∀ p peer, (D.step s e).directory.get p = some peer → s.directory.get p = some peer) ∨
    ∃ b now, D.Vouched [e] b ∧
      (D.step s e).directory =
        s.directory.set b.nodeId ⟨b.nodeId, b.host, b.port, b.clusterId, now⟩ ∧
      (s.directory.has b.nodeId = true ∨ s.directory.size < D.security.maxPeers) ∧
      ((D.step s e).nodePeers = s.nodePeers ∨
        (D.step s e).nodePeers = s.nodePeers ++ [b.nodeId] ∧ b.nodeId ∉ s.nodePeers ∧
          s.nodePeers.length < D.security.maxPeers) := by
  cases e with
  | sweep now =>
    refine .inl ⟨?_, rfl, fun p peer h => (Dict.get_filter.1 h).1⟩
    exact List.length_filter_le _ _
  | datagram senderAddr rawData wallNow now =>
    simp only [step, listen]
    rcases hacc : D.accepts s senderAddr rawData wallNow with ⟨cache, _ | b⟩
    · exact .inl ⟨le_rfl, rfl, fun _ _ h => h⟩
    · obtain ⟨hsigned, hown, hkey, hroom⟩ := accepts_some hsec now (congrArg Prod.snd hacc)
      refine .inr ⟨b, now, ⟨hown, hkey, _, List.mem_singleton_self _, hsigned⟩, ?_, hroom, ?_⟩
      · simp only [store]
        split_ifs
        · rw [onDiscovered_directory]
        · rfl
      · simp only [store]
        split_ifs
        · exact onDiscovered_nodePeers
        · exact .inl rfl

/-- What a run has brought: a directory within its bound, with vouched peers, and vouched peers at
    the end of the node's list. -/
structure Filled (D : PeerDiscovery R) (es : List DiscoveryEvent) (s : DiscoveryState) : Prop where
  bounded : s.directory.size ≤ D.security.maxPeers
  entries : ∀ p peer, s.directory.get p = some peer →
    peer.nodeId = p ∧ D.Vouched es ⟨p, peer.host, peer.port, peer.clusterId⟩
  peers : ∃ added, s.nodePeers = D.node.peers ++ added ∧ s.nodePeers.Nodup ∧
    (∀ p ∈ added, ∃ b : Beacon, b.nodeId = p ∧ D.Vouched es b) ∧
    (added ≠ [] → s.nodePeers.length ≤ D.security.maxPeers)

theorem Vouched.mono {es es' : List DiscoveryEvent} (h : D.Vouched es b)
    (hsub : ∀ e ∈ es, e ∈ es') : D.Vouched es' b := by
  obtain ⟨e, he, hsigned⟩ := h.signed
  exact ⟨h.other, h.authorised, e, hsub e he, hsigned⟩

theorem Filled.step {es : List DiscoveryEvent} (h : D.Filled es s)
    (hsec : D.security.enabled = true) (e : DiscoveryEvent) :
    D.Filled (es ++ [e]) (D.step s e) := by
  have hold : ∀ {b}, D.Vouched es b → D.Vouched (es ++ [e]) b :=
    fun hb => hb.mono fun _ he => List.mem_append_left _ he
  obtain ⟨added, hpeers, hnodup, hadded, hlen⟩ := h.peers
  have hadded' : ∀ p ∈ added, ∃ b : Beacon, b.nodeId = p ∧ D.Vouched (es ++ [e]) b := by
    intro p hp
    obtain ⟨b, hb, hvouched⟩ := hadded p hp
    exact ⟨b, hb, hold hvouched⟩
  obtain ⟨hsize, hnode, hget⟩ | ⟨b, now, hvouched, hdir, hroom, hnode⟩ := step_spec hsec s e
  · refine ⟨hsize.trans h.bounded, fun p peer hp => ?_, added, ?_⟩
    · obtain ⟨hid, hv⟩ := h.entries p peer (hget p peer hp)
      exact ⟨hid, hold hv⟩
    · rw [hnode]
      exact ⟨hpeers, hnodup, hadded', hlen⟩
  have hnew : D.Vouched (es ++ [e]) b := hvouched.mono fun _ he => List.mem_append_right _ he
  refine ⟨?_, fun p peer hp => ?_, ?_⟩
  · rw [hdir, Dict.size_set]
    have := h.bounded
    split_ifs with hhas
    · exact this
    · obtain hhas' | hlt := hroom
      exacts [absurd hhas' hhas, hlt]
  · by_cases hpb : b.nodeId = p
    · subst hpb
      rw [hdir, Dict.get_set_self] at hp
      obtain rfl := Option.some.inj hp
      exact ⟨rfl, hnew⟩
    · rw [hdir, Dict.get_set_ne _ _ hpb] at hp
      obtain ⟨hid, hv⟩ := h.entries p peer hp
      exact ⟨hid, hold hv⟩
  · obtain hnode | ⟨hnode, hmem, hlt⟩ := hnode
    · rw [hnode]
      exact ⟨added, hpeers, hnodup, hadded', hlen⟩
    · rw [hnode]
      refine ⟨added ++ [b.nodeId], by rw [hpeers, List.append_assoc], ?_, fun p hp => ?_,
        fun _ => ?_⟩
      · rw [← List.concat_eq_append]
        exact hnodup.concat hmem
      · obtain hp | hp := List.mem_append.1 hp
        · exact hadded' p hp
        · exact ⟨b, (List.mem_singleton.1 hp).symm, hnew⟩
      · simpa using hlt

/-- **What discovery lets in.**  After any datagrams and sweeps of a secure discovery, the directory
    has at most `max_peers` entries; each is for another peer, in the keyring, with host, port and
    cluster of a beacon signed by it; and the ids added to the node's peers are of such peers, once
    each, and do not take the list beyond `max_peers`. -/
theorem directory_invariant (hsec : D.security.enabled = true) (es : List DiscoveryEvent) :
    let s := run D.step D.initial es
    s.directory.size ≤ D.security.maxPeers ∧
    (∀ p peer, s.directory.get p = some peer → peer.nodeId = p ∧ p ≠ D.nodeId ∧
      D.keyring.hasPeer p = true ∧
      ∃ e ∈ es, D.SignedBeacon ⟨p, peer.host, peer.port, peer.clusterId⟩ e) ∧
    ∃ added, s.nodePeers = D.node.peers ++ added ∧ s.nodePeers.Nodup ∧
      (∀ p ∈ added, p ≠ D.nodeId ∧ D.keyring.hasPeer p = true ∧
        ∃ b : Beacon, b.nodeId = p ∧ ∃ e ∈ es, D.SignedBeacon b e) ∧
      (added ≠ [] → s.nodePeers.length ≤ D.security.maxPeers) := by
  have hfilled : D.Filled es (run D.step D.initial es) := by
    induction es using List.reverseRecOn with
    | nil =>
      refine ⟨Nat.zero_le _, fun p peer hp => ?_, [], ?_⟩
      · cases hp
      exact ⟨(List.append_nil _).symm, D.node.peers_ok.2.1, by simp, by simp⟩
    | append_singleton es e ih =>
      rw [run_concat]
      exact ih.step hsec e
  obtain ⟨added, hpeers, hnodup, hadded, hlen⟩ := hfilled.peers
  refine ⟨hfilled.bounded, fun p peer hp => ?_, added, hpeers, hnodup, fun p hp => ?_, hlen⟩
  · obtain ⟨hid, hv⟩ := hfilled.entries p peer hp
    exact ⟨hid, hv.other, hv.authorised, hv.signed⟩
  · obtain ⟨b, rfl, hv⟩ := hadded p hp
    exact ⟨hv.other, hv.authorised, b, rfl, hv.signed⟩

/-- The entry for `a` comes from the beacon that arrived. -/
theorem directory_invariant_found :
    ∃ e ∈ [Sample.arrival 1 "m" 0], Sample.discoveryC.SignedBeacon (Sample.readA 1) e := by
  have hrun : run Sample.discoveryC.step Sample.discoveryC.initial [Sample.arrival 1 "m" 0] =
      Sample.found := by
    rw [run_cons, Sample.first_step, run_nil]
  obtain ⟨-, hentries, -⟩ := directory_invariant (D := Sample.discoveryC) rfl
    [Sample.arrival 1 "m" 0]
  rw [hrun] at hentries
  exact (hentries _ _ Sample.found_entry).2.2.2

end PeerDiscovery

end PeerQ
