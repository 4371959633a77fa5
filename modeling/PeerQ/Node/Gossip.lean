/-
  Gossip: what received records do to the store.

  A round of the receive loop keeps the key of the stored record unless a secure
  node holds a record that is no longer authorised (`gossipItem_keys_iff`): then
  any authorised record replaces it.  Such records come from merging concurrent
  updates, since the merged clock is not covered by the signature.

  Terminal records win over others whatever their token, so tokens only grow
  among terminal records (`gossip_tokens`), and a record passes from one secure
  node to another only if the node that gossips it has signed it
  (`gossip_accepted`).
-/
import PeerQ.Node.Effects

namespace PeerQ

open Py

namespace PeerNode

variable {R : Runtime} (N : PeerNode R)

/-! ## Keys -/

/-- No stored record has lost its key, and no terminal one has given way to another. -/
def KeysKept (s s' : NodeState) : Prop :=
  ∀ t old, s.tasks.get t = some old → ∃ new, s'.tasks.get t = some new ∧
    latticeKey old ≤ latticeKey new ∧ (old.state.isTerminal = true → new.state.isTerminal = true)

/-- The stored record of an accepted one's task is authorised, or its key is not above. -/
def Upheld (sender : Str) (s : NodeState) (item : Str × Json) : Prop :=
  ∀ remote old, N.acceptedRecord sender item = .ok (some remote) →
    s.tasks.get item.1 = some old → old.taskId = item.1 →
    verifyTaskAuthorization R old N.keyring = true ∨ latticeKey old ≤ latticeKey remote

theorem KeysKept.refl (s : NodeState) : KeysKept s s :=
  fun _ old h => ⟨old, h, le_rfl, id⟩

theorem KeysKept.trans {s₁ s₂ s₃ : NodeState} (h : KeysKept s₁ s₂) (h' : KeysKept s₂ s₃) :
    KeysKept s₁ s₃ := by
  intro t old ho
  obtain ⟨m, hm, hk, ht⟩ := h t old ho
  obtain ⟨new, hn, hk', ht'⟩ := h' t m hm
  exact ⟨new, hn, hk.trans hk', ht' ∘ ht⟩

theorem KeysKept.of_tasks {s s' : NodeState} (h : s'.tasks = s.tasks) : KeysKept s s' :=
  fun _ old ho => ⟨old, by rw [h, ho], le_rfl, id⟩

/-- A record that replaces one of at most its key keeps the keys. -/
theorem KeysKept.of_set {s s' : NodeState} {t : Str} {m : TaskRecord}
    (h : s'.tasks = s.tasks.set t m)
    (hm : ∀ old, s.tasks.get t = some old → latticeKey old ≤ latticeKey m) : KeysKept s s' := by
  intro u old ho
  by_cases hu : t = u
  · subst hu
    exact ⟨m, by rw [h, Dict.get_set_self], hm old ho, (latticeKey_le (hm old ho)).1⟩
  · exact ⟨old, by rw [h, Dict.get_set_ne _ _ hu, ho], le_rfl, id⟩

section
variable {N}

/-- The key after a merge on a secure node, of which the received record is authorised. -/
theorem merge_key_iff (hsec : N.security.enabled = true) {old remote m : TaskRecord}
    (hv : verifyTaskAuthorization R remote N.keyring = true)
    (h : mergeRecords R old remote N.mergeKeyring = .ok m) :
    latticeKey old ≤ latticeKey m ↔
      verifyTaskAuthorization R old N.keyring = true ∨ latticeKey old ≤ latticeKey remote := by
  rw [mergeKeyring, if_pos hsec] at h
  have hg := (mergeRecords_ok_iff (mergeRecords_taskId h).1).1 h
  refine Lww.guarded_key_iff ?_ hg
  exact hv

/-- A merge on a secure node with an authorised record of the same task returns. -/
theorem merge_exists (hsec : N.security.enabled = true) {old remote : TaskRecord}
    (ht : old.taskId = remote.taskId) (hv : verifyTaskAuthorization R remote N.keyring = true) :
    ∃ m, mergeRecords R old remote N.mergeKeyring = .ok m := by
  rw [mergeKeyring, if_pos hsec]
  by_cases ho : verifyTaskAuthorization R old N.keyring = true
  · exact ⟨_, mergeRecords_valid ht ho hv⟩
  · refine ⟨remote, (mergeRecords_ok_iff ht).2 ?_⟩
    simp [Lww.guarded, ho, hv]

end

/-- A round keeps the keys, on a secure node if the stored record is authorised or has no larger
    key than the accepted one. -/
theorem gossipItem_keys {sender : Str} {s : NodeState} {item : Str × Json}
    (hc : N.security.enabled = true → N.Upheld sender s item) :
    KeysKept s (N.gossipItem sender s item).1 := by
  rcases N.gossipItem_cases sender s item with (h | h) | ⟨remote, m, ha, hm, h⟩
  · exact .of_tasks (by rw [h])
  · exact .of_tasks (by rw [h]; rfl)
  rw [h]
  refine .of_set (N.takeRecord_tasks _ _ _ _) fun old ho => ?_
  obtain ⟨-, hrid, hauth⟩ := N.acceptedRecord_iff.1 ha
  rcases hm with ⟨hn, -⟩ | ⟨old', ho', hm⟩
  · rw [hn] at ho; exact absurd ho (by simp)
  obtain rfl : old' = old := Option.some.inj (ho'.symm.trans ho)
  have hid := (mergeRecords_taskId hm).1
  by_cases hsec : N.security.enabled = true
  · exact (merge_key_iff hsec (hauth hsec).2 hm).2 (hc hsec remote old' ha ho (hid.trans hrid))
  · -- without a keyring the merge is the join
    rw [mergeKeyring, if_neg hsec, mergeRecords_none hid, Except.ok.injEq] at hm
    rw [← hm]
    exact (Lww.le_merge_left (M := recordLww) old' remote).1

/-- **When a round keeps the keys**: on a secure node exactly if the stored record is authorised or
    has no larger key than the accepted one. -/
theorem gossipItem_keys_iff (hsec : N.security.enabled = true) (sender : Str) (s : NodeState)
    (item : Str × Json) :
    KeysKept s (N.gossipItem sender s item).1 ↔ N.Upheld sender s item := by
  refine ⟨fun hk remote old ha ho hid => ?_, fun hc => N.gossipItem_keys fun _ => hc⟩
  obtain ⟨-, hrid, hauth⟩ := N.acceptedRecord_iff.1 ha
  obtain ⟨-, hv⟩ := hauth hsec
  obtain ⟨m, hm⟩ := merge_exists hsec (hid.trans hrid.symm) hv
  have hg : N.gossipItem sender s item = N.takeRecord s item.1 remote.vectorClock m := by
    simp only [gossipItem, ha, ho, hm]
  obtain ⟨new, hn, hkey, -⟩ := hk _ old ho
  rw [hg, takeRecord_tasks, Dict.get_set_self, Option.some.injEq] at hn
  exact (merge_key_iff hsec hv hm).1 (hn ▸ hkey)

/-! ## Sequences of messages -/

/-- A message that reaches the node. -/
structure Delivery where
  sender : Str
  msg : Message
  wallNow : ℚ

/-- Process a message. -/
def deliver (s : NodeState) (d : Delivery) : NodeState :=
  N.step s (.recv d.sender d.msg d.wallNow)

/-- Every round of processing the messages one after the other meets `P`. -/
def EachRound (P : Str → NodeState → Str × Json → Prop) : NodeState → List Delivery → Prop :=
  Along (fun s d => N.MessageRounds P s d.sender d.msg d.wallNow) N.deliver

/-- **Gossip and keys on a secure node.**  Over a sequence of messages no round loses the key of a
    stored record or replaces a terminal record by another exactly if in every round the stored
    record is authorised or has no larger key than the accepted one. -/
theorem gossip_keys_kept_iff (hsec : N.security.enabled = true) (s : NodeState)
    (ds : List Delivery) :
    N.EachRound (fun sender s item => KeysKept s (N.gossipItem sender s item).1) s ds ↔
      N.EachRound N.Upheld s ds := by
  refine Along.congr fun s d => ?_
  refine imp_congr_right fun _ => forall_congr' fun s₁ => forall_congr' fun items =>
    imp_congr_right fun _ => ?_
  exact Rounds.congr (P := fun sender s item => KeysKept s (N.gossipItem sender s item).1)
    (Q := N.Upheld) fun s i => N.gossipItem_keys_iff hsec d.sender s i

/-- Rounds that keep the keys make a message that does. -/
theorem KeysKept.of_rounds {s : NodeState} {d : Delivery}
    (h : N.MessageRounds (fun sender s item => KeysKept s (N.gossipItem sender s item).1) s d.sender
      d.msg d.wallNow) : KeysKept s (N.deliver s d) :=
  step_recv_invariant (I := KeysKept s)
    (fun _ _ hq hs => hs.trans (.of_tasks (congrArg Replica.tasks hq.replica)))
    (fun _ _ _ hs hr => hs.trans hr) (.refl s) h

/-- A message with one record causes at most one round. -/
theorem messageRounds_single {P : Str → NodeState → Str × Json → Prop} {s : NodeState} {d : Delivery}
    {item : Str × Json} (hp : lookup (str "tasks") d.msg.payload = some (.obj [item]))
    (h : ∀ s₁, s₁.tasks = s.tasks → P d.sender s₁ item) :
    N.MessageRounds P s d.sender d.msg d.wallNow := by
  intro _ s₁ items hb
  rcases N.recvMessage_cases s d.sender d.msg d.wallNow with ⟨hn, -⟩ | ⟨s₂, items₂, hb₂, hq, -⟩
  · rw [hn] at hb; exact absurd hb (by simp)
  obtain ⟨rfl, rfl⟩ := Prod.mk.inj (Option.some.inj (hb₂.symm.trans hb))
  have hitems : items₂ = [item] := by
    unfold gossipBatch at hb
    simp only [hp, Option.getD_some] at hb
    split at hb
    · split_ifs at hb
      exact (Prod.mk.inj (Option.some.inj hb)).2.symm
    · exact absurd hb (by simp)
  rw [hitems]
  exact ⟨h _ (congrArg Replica.tasks hq.replica), fun _ => trivial⟩

/-! ## Messages of two peers

The node `c` receives the submission of a task by `a` and its completion by `b`. -/

namespace Sample

noncomputable def runtime : Runtime := .ofScheme .suffix

def keys : PeerKeyRing :=
  ⟨⟨[(str "a", [1]), (str "b", [2]), (str "c", [3])], by decide +kernel⟩⟩

theorem idOk : TaskRecord.PeerIdOk (str "c") := by decide +kernel

theorem ownKey : keys.getPeerKey (str "c") = some (runtime.ed25519.publicKey [3]) := by
  decide +kernel

noncomputable def nodeC : PeerNode runtime where
  nodeId := str "c"
  peers := [str "a", str "b"]
  hasHandler := false
  identity := [3]
  keyring := keys
  nodeId_ok := idOk
  peers_ok := by decide +kernel
  own_key := ownKey
  maxTasks_pos := defaultTasks_pos

/-- A gossip message with one record, signed by its sender. -/
noncomputable def gossip (seed : Byte) (sender nonce : String) (r : TaskRecord) : Delivery :=
  let unsigned : Message :=
    ⟨str "gossip", str sender, gossipPayload [(r.taskId, r)], some 0, some (str nonce), none, 2⟩
  ⟨str sender, { unsigned with signature := some (runtime.ed25519.sign [seed]
    ((unsigned.canonicalBytes runtime).toOption.getD [])) }, 0⟩

noncomputable def pendingA : TaskRecord := signTask runtime [1] PeerQ.Sample.pendingA (str "a")
noncomputable def doneB : TaskRecord := signTask runtime [2] PeerQ.Sample.doneB (str "b")
noncomputable def doneAfterA : TaskRecord :=
  signTask runtime [2] PeerQ.Sample.doneAfterA (str "b")

/-- A claim of `a` with a later token than that of `doneB`. -/
noncomputable def claimA : TaskRecord :=
  signTask runtime [1] { PeerQ.Sample.pendingA with
    state := .claimed, claimedBy := some (str "a"), fenceToken := ⟨2, str "a"⟩ } (str "a")

end Sample

theorem gossip_keys_kept_ordered :
    Sample.nodeC.EachRound (fun sender s item => KeysKept s (Sample.nodeC.gossipItem sender s item).1)
      Sample.nodeC.initial [Sample.gossip 1 "a" "x" Sample.pendingA,
        Sample.gossip 2 "b" "x" Sample.doneAfterA] := by
  refine (gossip_keys_kept_iff _ rfl _ _).2 ⟨?_, ?_, trivial⟩
  · refine messageRounds_single _ rfl fun s₁ hs remote old _ ho _ => ?_
    rw [hs, show Sample.nodeC.initial.tasks.get _ = none by decide] at ho
    exact absurd ho (by simp)
  · refine messageRounds_single _ rfl fun s₁ hs remote old _ ho _ => Or.inl ?_
    have hst : (Sample.nodeC.deliver Sample.nodeC.initial
        (Sample.gossip 1 "a" "x" Sample.pendingA)).tasks.get (str "t") = some Sample.pendingA := by
      decide +kernel
    obtain rfl : Sample.pendingA = old := Option.some.inj (hst.symm.trans (hs ▸ ho))
    decide +kernel

/-- The tasks of a message decode to authorised records. -/
def authorisedTasks (msg : Message) : Bool :=
  match lookup (str "tasks") msg.payload with
  | some (.obj items) => items.all fun item => match TaskRecord.fromDict item.2 with
    | .ok r => verifyTaskAuthorization R r N.keyring
    | .error _ => false
  | _ => false

/-- A secure node that merged two concurrent updates to `DONE` goes back to `PENDING` when the
    submission reaches it once more. -/
theorem gossip_keys_lost :
    ¬ ∀ (R : Runtime) (N : PeerNode R) (ds : List Delivery), R.ed25519.Lawful →
      N.security.enabled = true →
      Along (fun s d => (N.authenticateMessage s d.sender d.msg d.wallNow).2 = .ok true ∧
        N.authorisedTasks d.msg = true) N.deliver N.initial ds →
      N.EachRound (fun sender s item => KeysKept s (N.gossipItem sender s item).1) N.initial ds := by
  intro h
  have hall := h Sample.runtime Sample.nodeC [Sample.gossip 1 "a" "x" Sample.pendingA,
    Sample.gossip 2 "b" "x" Sample.doneB, Sample.gossip 1 "a" "y" Sample.pendingA]
    Ed25519.suffix_lawful rfl (by
      -- one evaluation, so that the states are computed once
      show (_ ∧ _) ∧ (_ ∧ _) ∧ (_ ∧ _) ∧ True
      decide +kernel)
  obtain ⟨-, -, hlast, -⟩ := hall
  have hkept := KeysKept.of_rounds _ hlast
  have hstates : (((Sample.nodeC.deliver (Sample.nodeC.deliver Sample.nodeC.initial
      (Sample.gossip 1 "a" "x" Sample.pendingA)) (Sample.gossip 2 "b" "x" Sample.doneB)).tasks.get
      (str "t")).map TaskRecord.state = some .done) ∧
      ((Sample.nodeC.deliver (Sample.nodeC.deliver (Sample.nodeC.deliver
      Sample.nodeC.initial (Sample.gossip 1 "a" "x" Sample.pendingA))
      (Sample.gossip 2 "b" "x" Sample.doneB)) (Sample.gossip 1 "a" "y" Sample.pendingA)).tasks.get
      (str "t")).map TaskRecord.state = some .pending := by decide +kernel
  obtain ⟨hdone, hpending⟩ := hstates
  obtain ⟨old, ho, hst⟩ := Option.map_eq_some_iff.1 hdone
  obtain ⟨new, hn, -, ht⟩ := hkept _ old ho
  rw [hn, Option.map_some, Option.some.injEq] at hpending
  rw [hst, hpending] at ht
  exact absurd (ht rfl) (by decide)

/-- **Gossip and tokens.**  If on a secure node the stored record is authorised whenever one for its
    task comes in, the store holds a smaller token than before only in a terminal record that took
    the place of a non-terminal one, and terminal records stay terminal. -/
theorem gossip_tokens {s : NodeState} {ds : List Delivery} {t : Str} {r : TaskRecord}
    (h : N.EachRound (fun _ s item => N.security.enabled = true →
      ∀ old, s.tasks.get item.1 = some old → verifyTaskAuthorization R old N.keyring = true) s ds)
    (hr : s.tasks.get t = some r) :
    ∃ r', (run N.deliver s ds).tasks.get t = some r' ∧
      (r.state.isTerminal = true → r'.state.isTerminal = true) ∧
      (r'.fenceToken < r.fenceToken →
        r.state.isTerminal = false ∧ r'.state.isTerminal = true) := by
  have hkept : KeysKept s (run N.deliver s ds) := by
    refine Along.invariant (I := KeysKept s) (fun s' d hs hd => hs.trans ?_) (.refl s) h
    exact step_recv_invariant (I := KeysKept s')
      (fun _ _ hq hs => hs.trans (.of_tasks (congrArg Replica.tasks hq.replica)))
      (fun _ _ _ hs hr => hs.trans (N.gossipItem_keys fun hsec _ old _ ho _ =>
        Or.inl (hr hsec old ho))) (.refl s') hd
  obtain ⟨r', hr', hk, ht⟩ := hkept t r hr
  refine ⟨r', hr', ht, fun hlt => ?_⟩
  have htok := (latticeKey_le hk).2
  cases h1 : r.state.isTerminal with
  | true => exact absurd (htok fun _ => h1) (not_le.2 hlt)
  | false =>
    refine ⟨rfl, ?_⟩
    by_contra h2
    exact absurd (htok fun h3 => absurd h3 h2) (not_le.2 hlt)

theorem gossip_tokens_done : ∃ r', (run Sample.nodeC.deliver
      (Sample.nodeC.deliver Sample.nodeC.initial (Sample.gossip 2 "b" "x" Sample.doneB))
      [Sample.gossip 1 "a" "x" Sample.claimA]).tasks.get (str "t") = some r' ∧
    (Sample.doneB.state.isTerminal = true → r'.state.isTerminal = true) ∧
    (r'.fenceToken < Sample.doneB.fenceToken →
      Sample.doneB.state.isTerminal = false ∧ r'.state.isTerminal = true) := by
  have hst : (Sample.nodeC.deliver Sample.nodeC.initial
      (Sample.gossip 2 "b" "x" Sample.doneB)).tasks.get (str "t") = some Sample.doneB := by
    decide +kernel
  refine gossip_tokens _ ⟨?_, trivial⟩ hst
  refine messageRounds_single _ rfl fun s₁ hs _ old ho => ?_
  obtain rfl : Sample.doneB = old := Option.some.inj (hst.symm.trans (hs ▸ ho))
  decide +kernel

/-- A completion with token 1 takes the place of a claim with token 2. -/
theorem gossip_tokens_lost :
    ¬ ∀ (R : Runtime) (N : PeerNode R) (ds ds' : List Delivery) (t : Str) (r r' : TaskRecord),
      R.ed25519.Lawful → (run N.deliver N.initial ds).tasks.get t = some r →
      (run N.deliver N.initial (ds ++ ds')).tasks.get t = some r' →
      r'.state.isTerminal = true → ¬ r'.fenceToken < r.fenceToken := by
  intro h
  have hdone : ((run Sample.nodeC.deliver Sample.nodeC.initial [Sample.gossip 1 "a" "x" Sample.claimA,
      Sample.gossip 2 "b" "x" Sample.doneB]).tasks.get (str "t")).map
      (fun r => (r.state, r.fenceToken)) = some (.done, ⟨1, str "b"⟩) := by decide +kernel
  obtain ⟨r', hr', hst⟩ := Option.map_eq_some_iff.1 hdone
  obtain ⟨h1, h2⟩ := Prod.mk.inj hst
  refine h Sample.runtime Sample.nodeC [Sample.gossip 1 "a" "x" Sample.claimA]
    [Sample.gossip 2 "b" "x" Sample.doneB] (str "t") Sample.claimA r' Ed25519.suffix_lawful
    (by decide +kernel) hr' (by rw [h1]; rfl) ?_
  rw [h2]
  decide

/-! ## Relaying -/

section
variable {N}

/-- A fresh message of an authorised peer is authenticated. -/
theorem authenticateMessage_fresh {s : NodeState} {msg : Message} {wallNow wall : ℚ} {nonce : Str}
    (hver : msg.protocolVersion = N.security.protocolVersion) (htype : msg.msgType = str "gossip")
    (hpeer : N.keyring.hasPeer msg.senderId = true)
    (hsig : msg.verifySignature R N.keyring = .ok true) (htime : msg.timestamp = some wall)
    (hnonce : msg.nonce = some nonce)
    (hfresh : |wallNow - wall| ≤ N.security.replayWindowSeconds)
    (hnew : (s.messageReplay.checkAndRemember msg.senderId nonce wallNow
      N.security.replayWindowSeconds).1 = true) :
    (N.authenticateMessage s msg.senderId msg wallNow).2 = .ok true := by
  unfold authenticateMessage
  by_cases hsec : N.security.enabled = true
  · rw [if_neg (by simp [hsec]), if_neg (not_not.2 rfl), if_neg (not_not.2 hver),
      if_neg (by simp [htype]), if_neg (by simp [hpeer])]
    simp only [hsig, htime, hnonce, if_neg (not_lt.2 hfresh), hnew]
  · rw [if_pos (by simpa using hsec)]

/-- The batch of an authenticated gossip message. -/
theorem gossipBatch_eq {s : NodeState} {sender : Str} {msg : Message} {wallNow : ℚ} {items : Fields}
    (ha : (N.authenticateMessage s sender msg wallNow).2 = .ok true)
    (htype : msg.msgType = str "gossip") (hp : lookup (str "tasks") msg.payload = some (.obj items))
    (hlen : items.length ≤ N.security.maxGossipTasks) :
    N.gossipBatch s sender msg wallNow =
      some ((N.authenticateMessage s sender msg wallNow).1, items) := by
  unfold gossipBatch
  cases h : N.authenticateMessage s sender msg wallNow with
  | mk s₁ o =>
    rw [h] at ha
    simp only at ha
    simp only [ha, htype, if_true, hp, Option.getD_some, if_neg (not_lt.2 hlen)]

/-- A round leaves a task alone unless it accepts a record for it. -/
theorem gossipItem_get {sender : Str} {s : NodeState} {item : Str × Json} {t : Str}
    (h : item.1 = t → ∀ remote, N.acceptedRecord sender item ≠ .ok (some remote)) :
    (N.gossipItem sender s item).1.tasks.get t = s.tasks.get t := by
  rcases N.gossipItem_cases sender s item with (hg | hg) | ⟨remote, m, ha, -, hg⟩
  · rw [hg]
  · rw [hg]; rfl
  · rw [hg, takeRecord_tasks, Dict.get_set_ne _ _ fun hi => h hi remote ha]

/-- The loop leaves a task alone if no round accepts a record for it. -/
theorem gossipItems_get {sender : Str} {s : NodeState} {items : Fields} {t : Str}
    (h : ∀ i ∈ items, i.1 = t → ∀ remote, N.acceptedRecord sender i ≠ .ok (some remote)) :
    (N.gossipItems sender s items).1.tasks.get t = s.tasks.get t :=
  Rounds.invariant (I := fun s' => s'.tasks.get t = s.tasks.get t)
    (P := fun sender _ i => i.1 = t → ∀ remote, N.acceptedRecord sender i ≠ .ok (some remote))
    (fun _ _ hs hi => (gossipItem_get hi).trans hs) rfl (Rounds.of_forall h)

/-- A round adds at most one task. -/
theorem gossipItem_size (sender : Str) (s : NodeState) (item : Str × Json) :
    (N.gossipItem sender s item).1.tasks.size ≤ s.tasks.size + 1 := by
  rcases N.gossipItem_cases sender s item with (hg | hg) | ⟨remote, m, -, -, hg⟩
  · rw [hg]; exact Nat.le_succ _
  · rw [hg]; exact Nat.le_succ _
  · rw [hg, takeRecord_tasks, Dict.size_set]
    split_ifs <;> omega

theorem gossipItems_size (sender : Str) : ∀ (items : Fields) (s : NodeState),
    (N.gossipItems sender s items).1.tasks.size ≤ s.tasks.size + items.length
  | [], _ => le_rfl
  | i :: items, s => by
    have h1 := gossipItem_size (N := N) sender s i
    unfold gossipItems
    cases hg : N.gossipItem sender s i with
    | mk s₁ o =>
      simp only [hg] at h1
      cases o with
      | some e => simp only [List.length_cons]; omega
      | none =>
        have h2 := gossipItems_size sender items s₁
        simp only [List.length_cons]; omega

/-- The loop over two parts, of which the first raises nothing. -/
theorem gossipItems_append (sender : Str) : ∀ (pre post : Fields) (s : NodeState),
    (N.gossipItems sender s pre).2 = none → N.gossipItems sender s (pre ++ post) =
      N.gossipItems sender (N.gossipItems sender s pre).1 post
  | [], _, _, _ => rfl
  | i :: pre, post, s, h => by
    simp only [List.cons_append, gossipItems] at h ⊢
    cases hg : N.gossipItem sender s i with
    | mk s₁ o =>
      rw [hg] at h
      cases o with
      | some e => exact absurd h (by simp)
      | none => exact gossipItems_append sender pre post s₁ h

/-- If the loop raises nothing, no first part of it does. -/
theorem gossipItems_part (sender : Str) : ∀ (pre post : Fields) (s : NodeState),
    (N.gossipItems sender s (pre ++ post)).2 = none → (N.gossipItems sender s pre).2 = none
  | [], _, _, _ => rfl
  | i :: pre, post, s, h => by
    simp only [List.cons_append, gossipItems] at h ⊢
    cases hg : N.gossipItem sender s i with
    | mk s₁ o =>
      rw [hg] at h
      cases o with
      | some e => exact absurd h (by simp)
      | none => exact gossipItems_part sender pre post s₁ h

/-- Without a log nothing is raised over records that were written by `to_dict`. -/
theorem gossipItems_raises_nothing (hwal : N.wal = none) (sender : Str) :
    ∀ (rs : List (Str × TaskRecord)) (s : NodeState),
      (N.gossipItems sender s (rs.map fun e => (e.1, e.2.toDict))).2 = none
  | [], _ => rfl
  | e :: rs, s => by
    have hlog : ∀ p r, (N.logUpdate p r).2 = none := by
      intro p r; simp [logUpdate, appendEntry, hwal]
    have hitem : (N.gossipItem sender s (e.1, e.2.toDict)).2 = none := by
      unfold gossipItem
      cases ha : N.acceptedRecord sender (e.1, e.2.toDict) with
      | error x =>
        unfold acceptedRecord at ha
        cases hd : TaskRecord.fromDict e.2.toDict with
        | error y => simp [hd, TaskRecord.fromDict_toDict_error hd] at ha
        | ok r => simp only [hd] at ha; split_ifs at ha
      | ok o =>
        cases o with
        | none => rfl
        | some remote =>
          simp only
          cases s.tasks.get e.1 with
          | none =>
            simp only
            split_ifs
            exacts [rfl, hlog _ _]
          | some old =>
            simp only
            cases mergeRecords R old remote N.mergeKeyring with
            | error x => rfl
            | ok m => exact hlog _ _
    rw [List.map_cons, gossipItems]
    cases hg : N.gossipItem sender s (e.1, e.2.toDict) with
    | mk s₁ o =>
      rw [hg] at hitem
      simp only at hitem
      rw [hitem]
      exact gossipItems_raises_nothing hwal sender rs s₁

/-- A record that a secure node accepts is stored with at least its key, if the task is stored
    already or the store has room. -/
theorem gossipItem_accepted (hsec : N.security.enabled = true) {sender : Str} {s : NodeState}
    {item : Str × Json} {remote : TaskRecord}
    (ha : N.acceptedRecord sender item = .ok (some remote))
    (hroom : s.tasks.has item.1 = true ∨ s.tasks.size < N.maxTasks)
    (hid : ∀ old, s.tasks.get item.1 = some old → old.taskId = item.1) :
    ∃ m, (N.gossipItem sender s item).1.tasks.get item.1 = some m ∧
      latticeKey remote ≤ latticeKey m := by
  obtain ⟨-, hrid, hauth⟩ := N.acceptedRecord_iff.1 ha
  cases ho : s.tasks.get item.1 with
  | none =>
    have hr : ¬ N.maxTasks ≤ s.tasks.size := by
      rcases hroom with h | h
      · simp [Dict.has, ho] at h
      · exact not_le.2 h
    refine ⟨remote, ?_, le_rfl⟩
    simp [gossipItem, ha, ho, hr]
  | some old =>
    obtain ⟨m, hm⟩ := merge_exists hsec ((hid old ho).trans hrid.symm) (hauth hsec).2
    refine ⟨m, by simp [gossipItem, ha, ho, hm], ?_⟩
    rw [mergeKeyring, if_pos hsec] at hm
    have hg := (mergeRecords_ok_iff (mergeRecords_taskId hm).1).1 hm
    unfold Lww.guarded at hg
    simp only [(hauth hsec).2, if_true] at hg
    split_ifs at hg
    · rw [← Option.some.inj hg]
      exact (Lww.le_merge_right (M := recordLww) old remote).1
    · rw [← Option.some.inj hg]

/-- The tasks of a message, as they come over the wire. -/
def wireItems (rs : List (Str × TaskRecord)) : Fields := rs.map fun e => (e.1, e.2.toDict)

theorem taskItems_nodup (s : NodeState) : ((N.taskItems s).map Prod.fst).Nodup :=
  (((Json.sortKeys_perm s.tasks.entries).map Prod.fst).nodup_iff.2 s.tasks.nodup).sublist
    ((List.take_sublist _ _).map Prod.fst)

theorem taskItems_length (s : NodeState) : (N.taskItems s).length ≤ N.security.maxGossipTasks ∧
    (N.taskItems s).length ≤ s.tasks.size := by
  rw [taskItems, List.length_take, (Json.sortKeys_perm _).length_eq]
  exact ⟨min_le_left _ _, min_le_right _ _⟩

/-- A fresh gossip message of `C` is received by `B`, which goes through its tasks. -/
theorem gossipMessage_received (hE : R.ed25519.Lawful) {B C : PeerNode R}
    (hK : B.keyring = C.keyring)
    (hver : B.security.protocolVersion = C.security.protocolVersion)
    (hmax : C.security.maxGossipTasks ≤ B.security.maxGossipTasks)
    {sB sC : NodeState} {wall wallNow : ℚ} {nonce : Str} {msg : Message}
    (hmsg : C.gossipMessage sC wall nonce = .ok msg)
    (hfresh : |wallNow - wall| ≤ B.security.replayWindowSeconds)
    (hnew : (sB.messageReplay.checkAndRemember C.nodeId nonce wallNow
      B.security.replayWindowSeconds).1 = true) :
    ∃ s₁, s₁.tasks = sB.tasks ∧ B.recvMessage sB C.nodeId msg wallNow =
      B.gossipItems C.nodeId s₁ (wireItems (C.taskItems sC)) := by
  have hkey : B.keyring.getPeerKey C.nodeId = some (R.ed25519.publicKey C.identity) :=
    hK ▸ C.own_key
  have hsig := Message.verifySignature_signed hE hmsg hkey
  obtain ⟨sig, rfl⟩ := Message.signed_ok hmsg
  have hpeer : B.keyring.hasPeer C.nodeId = true := by
    rw [PeerKeyRing.getPeerKey] at hkey
    rw [PeerKeyRing.hasPeer, Dict.has, hkey]; rfl
  have ha : (B.authenticateMessage sB C.nodeId _ wallNow).2 = .ok true :=
    authenticateMessage_fresh (by simp [hver]) rfl hpeer hsig rfl rfl hfresh hnew
  have hlen : (wireItems (C.taskItems sC)).length ≤ B.security.maxGossipTasks := by
    rw [wireItems, List.length_map]
    exact (taskItems_length sC).1.trans hmax
  have hb := gossipBatch_eq ha rfl
    (show lookup (str "tasks") _ = some (Json.obj (wireItems (C.taskItems sC))) from rfl) hlen
  rcases B.recvMessage_cases sB C.nodeId _ wallNow with ⟨hn, -⟩ | ⟨s₁, items, hb', hq, hrm⟩
  · exact absurd (hn.symm.trans hb) (by simp)
  obtain ⟨-, rfl⟩ := Prod.mk.inj (Option.some.inj (hb'.symm.trans hb))
  exact ⟨s₁, congrArg Replica.tasks hq.replica, hrm⟩

section
variable {sender : Str} {s : NodeState} {rs pre post : List (Str × TaskRecord)} {r : TaskRecord}

/-- Tasks other than that of `r` leave its record alone. -/
theorem wireItems_other {l : List (Str × TaskRecord)} (hl : r.taskId ∉ l.map Prod.fst) :
    ∀ i ∈ wireItems l, i.1 = r.taskId →
      ∀ remote, N.acceptedRecord sender i ≠ .ok (some remote) := by
  intro i hi hit
  obtain ⟨e, he, rfl⟩ := List.mem_map.1 hi
  exact absurd (List.mem_map.2 ⟨e, he, hit⟩) hl

/-- What a secure node accepts of a record that can be decoded and is authorised. -/
theorem acceptedRecord_wire (hsec : N.security.enabled = true) (hdec : r.Decodable)
    (hauth : verifyTaskAuthorization R r N.keyring = true) (remote : TaskRecord) :
    N.acceptedRecord sender (r.taskId, r.toDict) = .ok (some remote) ↔
      remote = r ∧ r.signerId = some sender := by
  rw [acceptedRecord_iff, TaskRecord.fromDict_toDict_iff]
  constructor
  · rintro ⟨⟨-, rfl⟩, -, h⟩; exact ⟨rfl, (h hsec).1⟩
  · rintro ⟨rfl, h⟩; exact ⟨⟨hdec, rfl⟩, rfl, fun _ => ⟨h, hauth⟩⟩

/-- The loop stores a record that the sender has signed with at least its key. -/
theorem gossipItems_signed (hsec : N.security.enabled = true) (hdec : r.Decodable)
    (hauth : verifyTaskAuthorization R r N.keyring = true) (hsigner : r.signerId = some sender)
    (hpre : r.taskId ∉ pre.map Prod.fst) (hpost : r.taskId ∉ post.map Prod.fst)
    (hid : ∀ old, s.tasks.get r.taskId = some old → old.taskId = r.taskId)
    (hroom : s.tasks.has r.taskId = true ∨ s.tasks.size + pre.length < N.maxTasks)
    (hnone : (N.gossipItems sender s (wireItems pre)).2 = none) :
    ∃ m, (N.gossipItems sender s (wireItems (pre ++ (r.taskId, r) :: post))).1.tasks.get r.taskId =
      some m ∧ latticeKey r ≤ latticeKey m := by
  have hother : ∀ i ∈ wireItems pre, i.1 = r.taskId →
      ∀ remote, N.acceptedRecord sender i ≠ .ok (some remote) := wireItems_other hpre
  have hget := gossipItems_get (s := s) hother
  have hsize := gossipItems_size (N := N) sender (wireItems pre) s
  rw [wireItems, List.length_map] at hsize
  obtain ⟨m, hm, hkm⟩ := gossipItem_accepted hsec
    ((acceptedRecord_wire hsec hdec hauth r).2 ⟨rfl, hsigner⟩)
    (s := (N.gossipItems sender s (wireItems pre)).1)
    (hroom.imp (fun h => by simpa [Dict.has, hget] using h) fun h => lt_of_le_of_lt hsize h)
    (by rw [hget]; exact hid)
  refine ⟨m, ?_, hkm⟩
  rw [wireItems, List.map_append, List.map_cons, ← wireItems, ← wireItems,
    gossipItems_append _ _ _ _ hnone, gossipItems]
  cases hg : N.gossipItem sender (N.gossipItems sender s (wireItems pre)).1
      (r.taskId, r.toDict) with
  | mk s₂ o =>
    rw [hg] at hm
    cases o with
    | some e => exact hm
    | none => exact (gossipItems_get (wireItems_other hpost)).trans hm

end

/-- **Gossip from one secure node to another.**  The node `C` gossips a record of its store, which
    is authorised and can be decoded, to `B` in a fresh message.  If `C` has signed the record, `B`
    holds at least its key afterwards; a record signed by another node changes nothing at `B`. -/
theorem gossip_accepted (hE : R.ed25519.Lawful) {B C : PeerNode R}
    (hB : B.security.enabled = true) (hK : B.keyring = C.keyring)
    (hver : B.security.protocolVersion = C.security.protocolVersion)
    (hmax : C.security.maxGossipTasks ≤ B.security.maxGossipTasks)
    {sB sC : NodeState} {r : TaskRecord} {wall wallNow : ℚ} {nonce : Str} {msg : Message}
    (hmsg : C.gossipMessage sC wall nonce = .ok msg) (hin : (r.taskId, r) ∈ C.taskItems sC)
    (hauth : verifyTaskAuthorization R r B.keyring = true) (hdec : r.Decodable)
    (hrecv : sB.receiving = true) (hfresh : |wallNow - wall| ≤ B.security.replayWindowSeconds)
    (hnew : (sB.messageReplay.checkAndRemember C.nodeId nonce wallNow
      B.security.replayWindowSeconds).1 = true)
    (hid : ∀ old, sB.tasks.get r.taskId = some old → old.taskId = r.taskId)
    (hroom : sB.tasks.has r.taskId = true ∨ sB.tasks.size + sC.tasks.size ≤ B.maxTasks)
    (hlog : B.wal = none ∨ (B.recvMessage sB C.nodeId msg wallNow).2 = none) :
    (r.signerId = some C.nodeId →
      ∃ r', (B.step sB (.recv C.nodeId msg wallNow)).tasks.get r.taskId = some r' ∧
        latticeKey r ≤ latticeKey r') ∧
    (r.signerId ≠ some C.nodeId →
      (B.step sB (.recv C.nodeId msg wallNow)).tasks.get r.taskId = sB.tasks.get r.taskId) := by
  obtain ⟨s₁, htasks, hrm⟩ := gossipMessage_received hE hK hver hmax hmsg hfresh hnew
  have hstep : (B.step sB (.recv C.nodeId msg wallNow)).tasks =
      (B.gossipItems C.nodeId s₁ (wireItems (C.taskItems sC))).1.tasks := by
    simp only [step, hrecv, if_true, hrm, afterRecv]
    split <;> rfl
  -- no other task of the message is that of `r`
  have hkeys := taskItems_nodup (N := C) sC
  have hlen := (taskItems_length (N := C) sC).2
  obtain ⟨pre, post, hsplit⟩ := List.append_of_mem hin
  rw [hsplit, List.map_append, List.map_cons] at hkeys
  rw [hsplit, List.length_append, List.length_cons] at hlen
  have hpre : r.taskId ∉ pre.map Prod.fst := fun hm =>
    (List.nodup_append.1 hkeys).2.2 _ hm _ (by simp) rfl
  have hpost : r.taskId ∉ post.map Prod.fst :=
    (List.nodup_cons.1 (List.nodup_append.1 hkeys).2.1).1
  rw [hstep]
  rw [hsplit] at hrm ⊢
  constructor
  · intro hsigner
    refine gossipItems_signed hB hdec hauth hsigner hpre hpost (htasks ▸ hid)
      (htasks ▸ hroom.imp id fun h => by omega) ?_
    rcases hlog with hw | hr
    · exact gossipItems_raises_nothing hw _ _ _
    · rw [hrm, wireItems, List.map_append] at hr
      exact gossipItems_part _ _ _ _ hr
  · intro hsigner
    rw [gossipItems_get, htasks]
    intro i hi hit remote
    rw [wireItems, List.map_append, List.map_cons] at hi
    rcases List.mem_append.1 hi with hi | hi
    · exact wireItems_other hpre i hi hit remote
    rcases List.mem_cons.1 hi with rfl | hi
    · exact fun h => hsigner ((acceptedRecord_wire hB hdec hauth remote).1 h).2
    · exact wireItems_other hpost i hi hit remote

end

namespace Sample

noncomputable def nodeA : PeerNode runtime where
  nodeId := str "a"
  peers := [str "b", str "c"]
  hasHandler := false
  identity := [1]
  keyring := keys
  nodeId_ok := by decide +kernel
  peers_ok := by decide +kernel
  own_key := by decide +kernel
  maxTasks_pos := defaultTasks_pos

noncomputable def nodeB : PeerNode runtime where
  nodeId := str "b"
  peers := [str "a", str "c"]
  hasHandler := false
  identity := [2]
  keyring := keys
  nodeId_ok := by decide +kernel
  peers_ok := by decide +kernel
  own_key := by decide +kernel
  maxTasks_pos := defaultTasks_pos

/-- The node `b` with one task in its store. -/
noncomputable def stateB (r : TaskRecord) : NodeState :=
  { nodeB.initial with toReplica := nodeB.initial.toReplica.store (str "t") r }

/-- The gossip message of `b` in that state. -/
noncomputable def messageB (r : TaskRecord) : Message :=
  (nodeB.gossipMessage (stateB r) 0 (str "n")).toOption.getD ⟨[], [], [], none, none, none, 0⟩

theorem ok_of_isSome {α : Type} {x : Except Exn α} (a : α) (h : x.toOption.isSome = true) :
    x = .ok (x.toOption.getD a) := by
  cases x with
  | error e => simp [Except.toOption] at h
  | ok b => rfl

end Sample

theorem gossip_accepted_own :
    ∃ r', (Sample.nodeC.step Sample.nodeC.initial
      (.recv (str "b") (Sample.messageB Sample.doneB) 0)).tasks.get (str "t") = some r' ∧
      latticeKey Sample.doneB ≤ latticeKey r' :=
  (gossip_accepted (B := Sample.nodeC) (C := Sample.nodeB) (r := Sample.doneB)
    Ed25519.suffix_lawful rfl rfl rfl le_rfl
    (show Sample.nodeB.gossipMessage _ 0 (str "n") = .ok (Sample.messageB Sample.doneB) from
      Sample.ok_of_isSome _ (by decide +kernel)) (by decide +kernel) (by decide +kernel)
    (by decide +kernel)
    (by decide +kernel) (by decide +kernel) (by decide +kernel)
    (fun _ h => absurd h (by rw [show Sample.nodeC.initial.tasks.get _ = none by decide]; simp))
    (Or.inr (by decide)) (Or.inl rfl)).1 (by decide)

/-- A submission of `a` that `b` gossips does not reach `c`. -/
theorem gossip_relay_refused :
    ¬ ∀ (R : Runtime) (A B C : PeerNode R) (sB sC : NodeState) (r : TaskRecord) (wall wallNow : ℚ)
      (nonce : Str) (msg : Message), R.ed25519.Lawful →
      A.security.enabled = true ∧ B.security.enabled = true ∧ C.security.enabled = true →
      A.keyring = B.keyring ∧ B.keyring = C.keyring →
      B.security.protocolVersion = C.security.protocolVersion →
      C.security.maxGossipTasks ≤ B.security.maxGossipTasks →
      C.gossipMessage sC wall nonce = .ok msg → (r.taskId, r) ∈ C.taskItems sC →
      r.updatedBy = A.nodeId → r.signerId = some A.nodeId →
      verifyTaskAuthorization R r B.keyring = true → r.Decodable → sB.receiving = true →
      |wallNow - wall| ≤ B.security.replayWindowSeconds →
      (sB.messageReplay.checkAndRemember C.nodeId nonce wallNow
        B.security.replayWindowSeconds).1 = true →
      sB.tasks.size < B.maxTasks →
      ∃ r', (B.step sB (.recv C.nodeId msg wallNow)).tasks.get r.taskId = some r' ∧
        latticeKey r ≤ latticeKey r' := by
  intro h
  obtain ⟨r', hr', -⟩ := h Sample.runtime Sample.nodeA Sample.nodeC Sample.nodeB
    Sample.nodeC.initial (Sample.stateB Sample.pendingA) Sample.pendingA 0 0 (str "n")
    (Sample.messageB Sample.pendingA) Ed25519.suffix_lawful ⟨rfl, rfl, rfl⟩ ⟨rfl, rfl⟩ rfl le_rfl
    (Sample.ok_of_isSome _ (by decide +kernel)) (by decide +kernel) (by decide +kernel)
    (by decide +kernel) (by decide +kernel)
    (by decide +kernel)
    (by decide +kernel) (by decide +kernel) (by decide +kernel) (by decide +kernel)
  have hnone : (Sample.nodeC.step Sample.nodeC.initial
      (.recv (str "b") (Sample.messageB Sample.pendingA) 0)).tasks.get (str "t") = none := by
    decide +kernel
  exact absurd (hnone.symm.trans hr') (by simp)

end PeerNode

end PeerQ
