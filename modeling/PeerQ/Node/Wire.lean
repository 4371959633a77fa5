/-
  Messages over the wire.

  A message that is encoded and decoded comes back with the fields of its payload
  in the order of their keys.  The messages that a node makes (`Authored`) carry their
  tasks in that order, and a record is read by its keys, so a node does with such
  a message what it does with its copy (`recvMessage_canon`).
-/
import PeerQ.Node.Outbox
import PeerQ.Message.Wire

namespace PeerQ

open Py

namespace PeerNode

variable {R : Runtime} (N : PeerNode R)

/-! ## Reading a copy -/

section
variable {N} {s : NodeState} {sender : Str}

theorem gossipItem_canon {t : Str} {v : Json} (hv : v.wf = true) :
    N.gossipItem sender s (t, v.canon) = N.gossipItem sender s (t, v) := by
  have ha : N.acceptedRecord sender (t, v.canon) = N.acceptedRecord sender (t, v) := by
    unfold acceptedRecord
    rw [TaskRecord.fromDict_canon hv]
  unfold gossipItem
  rw [ha]

theorem gossipItems_canon : ∀ {items : Fields} {s : NodeState}, (∀ i ∈ items, i.2.wf = true) →
    N.gossipItems sender s (Json.canonFields items) = N.gossipItems sender s items
  | [], _, _ => rfl
  | (t, v) :: items, s, h => by
    rw [Json.canonFields, gossipItems, gossipItems, gossipItem_canon (h (t, v) (by simp))]
    rcases N.gossipItem sender s (t, v) with ⟨s₁, _ | e⟩
    · exact gossipItems_canon fun i hi => h i (List.mem_cons_of_mem _ hi)
    · rfl

/-- **A copy is as good as the message** whose tasks are in the order of their ids. -/
theorem recvMessage_canon {m : Message} (hwf : (Json.obj m.payload).wf = true)
    (hsorted : (m.tasks.map Prod.fst).Pairwise (· ≤ ·)) (wallNow : ℚ) :
    N.recvMessage s sender m.canon wallNow = N.recvMessage s sender m wallNow := by
  have hauth : N.authenticateMessage s sender m.canon wallNow =
      N.authenticateMessage s sender m wallNow := by
    unfold authenticateMessage
    rw [m.verifySignature_canon]
    rfl
  simp only [Json.wf, Bool.and_eq_true, decide_eq_true_eq] at hwf
  have hlook : ∀ k, lookup k m.canon.payload = (lookup k m.payload).map Json.canon :=
    Json.lookup_canon hwf.1
  have hvalue : ∀ k d, d.canon = d →
      (lookup k m.canon.payload).getD d = ((lookup k m.payload).getD d).canon := by
    intro k d hd
    rw [hlook]
    cases lookup k m.payload with
    | none => exact hd.symm
    | some v => rfl
  unfold recvMessage
  rw [hauth, hvalue _ (.obj []) rfl, hvalue _ (.int 1) rfl]
  rcases N.authenticateMessage s sender m wallNow with ⟨s₁, e | _ | _⟩
  · rfl
  · rfl
  have hitems : ∀ items, (lookup (str "tasks") m.payload).getD (.obj []) = .obj items →
      ∀ i ∈ items, i.2.wf = true := by
    intro items hi i hmem
    cases hl : lookup (str "tasks") m.payload with
    | none =>
      rw [hl, Option.getD_none, Json.obj.injEq] at hi
      rw [← hi] at hmem
      cases hmem
    | some v =>
      rw [hl, Option.getD_some] at hi
      have hv := Json.wfFields_iff.1 hwf.2 _ (mem_of_lookup hl)
      simp only [hi, Json.wf, Bool.and_eq_true] at hv
      exact Json.wfFields_iff.1 hv.2 i hmem
  simp only [Message.canon]
  congr 1
  · cases hl : (lookup (str "tasks") m.payload).getD (.obj []) with
    | obj items =>
      rw [Message.tasks, hl] at hsorted
      have hkeys : ((Json.canonFields items).map Prod.fst).Pairwise (· ≤ ·) := by
        rw [Json.canonFields_eq, List.map_map]
        exact hsorted
      simp only [Json.canon, Json.sortKeys_eq_self hkeys]
      rw [gossipItems_canon (hitems items hl), Json.canonFields_eq, List.length_map]
    | _ => rfl
  · congr 1
    cases (lookup (str "amount") m.payload).getD (.int 1) <;> rfl

/-! ## The messages of a node -/

/-- A message as the node makes them. -/
inductive Authored (N : PeerNode R) (m : Message) : Prop where
  | gossip {items : List (Str × TaskRecord)} {wallNow : ℚ} {nonce : Str}
      (ordered : (items.map Prod.fst).Pairwise (· < ·))
      (signed : N.signedMessage (str "gossip") (gossipPayload items) wallNow nonce = .ok m)
  | heartbeat {now wallNow : ℚ} {nonce : Str}
      (signed : N.signedMessage (str "heartbeat") [(str "ts", .float (.finite now))] wallNow nonce =
        .ok m)
  | credit {wallNow : ℚ} {nonce : Str}
      (signed : N.signedMessage (str "credit") [(str "amount", .int 1)] wallNow nonce = .ok m)

theorem Authored.signed {m : Message} (h : N.Authored m) : ∃ msgType payload wallNow nonce,
    N.signedMessage msgType payload wallNow nonce = .ok m ∧ (Json.obj payload).wf = true := by
  cases h with
  | gossip ordered signed =>
    rename_i items wallNow nonce
    refine ⟨_, _, _, _, signed, ?_⟩
    have hn : (items.map Prod.fst).Nodup := ordered.imp ne_of_lt
    simp only [gossipPayload, Json.wf, Json.wfFields, Json.wfFields_iff, List.map_cons, List.map_nil,
      List.map_map, Bool.and_eq_true, decide_eq_true_eq, List.nodup_singleton, true_and, and_true]
    refine ⟨hn, fun kv hkv => ?_⟩
    obtain ⟨e, -, rfl⟩ := List.mem_map.1 hkv
    exact e.2.wf_toDict
  | heartbeat signed => exact ⟨_, _, _, _, signed, rfl⟩
  | credit signed => exact ⟨_, _, _, _, signed, rfl⟩

theorem Authored.wellFormed (hE : R.ed25519.Lawful) {m : Message} (h : N.Authored m) :
    m.WellFormed := by
  obtain ⟨msgType, payload, wallNow, nonce, hm, hwf⟩ := h.signed
  have hn : 1 ≤ nonce.length ∧ nonce.length ≤ 128 := by
    by_contra hn
    rw [signedMessage, Message.signed, if_pos (by omega)] at hm
    cases hm
  unfold signedMessage Message.signed at hm
  rw [if_neg (by omega)] at hm
  obtain ⟨data, -, hm⟩ := bind_eq_ok.1 hm
  obtain rfl := Except.ok.inj hm
  exact .of_signed hwf rfl hn rfl (hE.length_sign _ _)

theorem Authored.payload_wf {m : Message} (h : N.Authored m) : (Json.obj m.payload).wf = true := by
  obtain ⟨msgType, payload, wallNow, nonce, hm, hwf⟩ := h.signed
  obtain ⟨sig, rfl⟩ := Message.signed_ok hm
  exact hwf

theorem Authored.tasks_sorted {m : Message} (h : N.Authored m) :
    (m.tasks.map Prod.fst).Pairwise (· ≤ ·) := by
  cases h with
  | gossip ordered signed =>
    rw [signedMessage_tasks signed, List.map_map]
    exact ordered.imp le_of_lt
  | heartbeat signed =>
    obtain ⟨sig, rfl⟩ := Message.signed_ok signed
    exact List.Pairwise.nil
  | credit signed =>
    obtain ⟨sig, rfl⟩ := Message.signed_ok signed
    exact List.Pairwise.nil

theorem authored_broadcast {taskId : Str} {r : TaskRecord} {s' : NodeState} {m : Message}
    {wallNow : ℚ} {nonce : Str}
    (h : N.broadcastTaskUpdate s taskId r wallNow nonce = (s', .ok m)) : N.Authored m := by
  unfold broadcastTaskUpdate at h
  simp only at h
  split at h
  · simp at h
  · exact .gossip (List.pairwise_singleton _ _) (Prod.mk.inj h).2

theorem authored_gossip {m : Message} {wallNow : ℚ} {nonce : Str}
    (h : N.gossipMessage s wallNow nonce = .ok m) : N.Authored m := by
  refine .gossip ?_ h
  have hsorted : (Json.sortKeys s.tasks.entries).Pairwise fun a b => a.1 ≤ b.1 :=
    List.pairwise_insertionSort _ _
  have hnodup := ((Json.sortKeys_perm s.tasks.entries).map Prod.fst).nodup_iff.2 s.tasks.nodup
  refine List.Pairwise.sublist ((List.take_sublist _ _).map _) ?_
  exact ((List.pairwise_map.2 hsorted).and hnodup).imp fun h => lt_of_le_of_ne h.1 h.2

/-! ## Every message is authored -/

/-- More messages are sent, and those of the later state are of the earlier one or such that the
    node makes. -/
structure Composes (N : PeerNode R) (s s' : NodeState) : Prop where
  sent : s.sent <+: s'.sent
  made : ∀ m ∈ s'.messages, m ∈ s.messages ∨ N.Authored m

variable {s₀ s' : NodeState}

theorem Composes.of_eq (hs : s'.sent = s.sent)
    (hw : s'.worker.message = s.worker.message ∨ s'.worker.message = none)
    (hr : s'.reclaim.message = s.reclaim.message ∨ s'.reclaim.message = none) : N.Composes s s' := by
  refine ⟨hs ▸ List.prefix_rfl, fun m hm => Or.inl (mem_messages.2 ?_)⟩
  rcases mem_messages.1 hm with hm | hm | hm
  · exact Or.inl (hs ▸ hm)
  · rcases hw with hw | hw <;> rw [hw] at hm
    exacts [Or.inr (Or.inl hm), nomatch hm]
  · rcases hr with hr | hr <;> rw [hr] at hm
    exacts [Or.inr (Or.inr hm), nomatch hm]

theorem Composes.refl (s : NodeState) : N.Composes s s := ⟨List.prefix_rfl, fun _ => Or.inl⟩

/-- One message is sent or to be sent. -/
theorem Composes.of_new (msg : Message) (hmsg : msg ∈ s.messages ∨ N.Authored msg)
    {l : List (Str × Message)} (hs : s'.sent = s.sent ++ l) (hl : ∀ x ∈ l, x.2 = msg)
    (hw : ∀ m, s'.worker.message = some m → s.worker.message = some m ∨ m = msg)
    (hr : ∀ m, s'.reclaim.message = some m → s.reclaim.message = some m ∨ m = msg) :
    N.Composes s s' := by
  refine ⟨hs ▸ List.prefix_append _ _, fun m hm => ?_⟩
  rcases mem_messages.1 hm with h | h | h
  · obtain ⟨x, hx, rfl⟩ := List.mem_map.1 h
    rcases List.mem_append.1 (hs ▸ hx) with hx | hx
    · exact Or.inl (mem_messages.2 (Or.inl (List.mem_map_of_mem hx)))
    · exact hl x hx ▸ hmsg
  · rcases hw m h with h | rfl
    exacts [Or.inl (mem_messages.2 (Or.inr (Or.inl h))), hmsg]
  · rcases hr m h with h | rfl
    exacts [Or.inl (mem_messages.2 (Or.inr (Or.inr h))), hmsg]

/-- One message is sent to one peer. -/
theorem Composes.of_send (p : Str) (msg : Message) (hmsg : msg ∈ s.messages ∨ N.Authored msg)
    (hs : s'.sent = s.sent ++ [(p, msg)])
    (hw : ∀ m, s'.worker.message = some m → s.worker.message = some m ∨ m = msg)
    (hr : ∀ m, s'.reclaim.message = some m → s.reclaim.message = some m ∨ m = msg) :
    N.Composes s s' :=
  .of_new msg hmsg hs (fun _ hx => congrArg Prod.snd (List.mem_singleton.1 hx)) hw hr

variable {job : Job} {wallNow : ℚ} {nonce : Str}

theorem claimTask_composes (hs : s.sent = s₀.sent) (hr : s.reclaim = s₀.reclaim) :
    N.Composes s₀ (N.claimTask s job wallNow nonce) := by
  unfold claimTask
  simp only
  split
  · next s₁ e hb =>
    obtain ⟨h1, -, h3⟩ := broadcast_error hb
    exact .of_eq (h1.trans hs) (Or.inr rfl) (Or.inl (congrArg Reclaim.message (h3.trans hr)))
  · next s₁ msg hb =>
    obtain ⟨-, h1, -, h3⟩ := utters_broadcast hb
    split
    · exact .of_eq (h1.trans hs) (Or.inr rfl) (Or.inl (congrArg Reclaim.message (h3.trans hr)))
    · exact .of_send _ msg (Or.inr (authored_broadcast hb)) (congrArg (· ++ _) (h1.trans hs))
        (fun m hm => Or.inr (Option.some.inj hm).symm)
        (fun m hm => Or.inl (congrArg Reclaim.message (h3.trans hr) ▸ hm))

theorem finishCommit_composes {st : TaskState} (hs : s.sent = s₀.sent) (hr : s.reclaim = s₀.reclaim) :
    N.Composes s₀ (N.finishCommit s job st wallNow nonce) := by
  unfold finishCommit
  generalize (if st = .done then Metric.completed else .failed) = metric
  simp only
  split_ifs
  · split
    · exact .of_eq hs (Or.inr rfl) (Or.inl (congrArg Reclaim.message hr))
    · next msg hm =>
      exact .of_send _ msg (Or.inr (.credit hm)) (congrArg (· ++ _) hs) (fun m hm => nomatch hm)
        (fun m hm => Or.inl (congrArg Reclaim.message hr ▸ hm))
  · exact .of_eq hs (Or.inr rfl) (Or.inl (congrArg Reclaim.message hr))

theorem commitTask_composes {outcome : Except Str Bytes} :
    N.Composes s (N.commitTask s job outcome wallNow nonce) := by
  unfold commitTask
  simp only
  split
  · next s₁ e hb =>
    obtain ⟨h1, -, h3⟩ := broadcast_error hb
    exact .of_eq h1 (Or.inr rfl) (Or.inl (congrArg Reclaim.message h3))
  · next s₁ msg hb =>
    obtain ⟨-, h1, -, h3⟩ := utters_broadcast hb
    split
    · exact finishCommit_composes h1 h3
    · exact .of_send _ msg (Or.inr (authored_broadcast hb)) (congrArg (· ++ _) h1)
        (fun m hm => Or.inr (Option.some.inj hm).symm)
        (fun m hm => Or.inl (congrArg Reclaim.message h3 ▸ hm))

theorem sweep_composes {now : ℚ} {livePeers : List Str} {suspected : Str → Bool} :
    ∀ (l : List (Str × TaskRecord)) (s : NodeState), s.sent = s₀.sent → s.worker = s₀.worker →
      N.Composes s₀ (N.sweep now livePeers suspected wallNow nonce s l)
  | [], s, hs, hw => .of_eq hs (Or.inl (congrArg Worker.message hw)) (Or.inr rfl)
  | (t, r) :: l, s, hs, hw => by
    have ih : ∀ s : NodeState, s.sent = s₀.sent → s.worker = s₀.worker →
        N.Composes s₀ (N.sweep now livePeers suspected wallNow nonce s l) := sweep_composes l
    unfold sweep
    by_cases hr : N.reclaimable r now suspected = true
    swap
    · rw [if_pos (by simpa using hr)]; exact ih s hs hw
    rw [if_neg (by simpa using hr)]
    cases rendezvousReclaimer R t livePeers with
    | error e => exact .of_eq hs (Or.inl (congrArg Worker.message hw)) (Or.inr rfl)
    | ok elected =>
    by_cases he : elected = some N.nodeId
    swap
    · simp only [ne_eq, he, not_false_eq_true, if_true]; exact ih s hs hw
    simp only [he, ne_eq, not_true_eq_false, if_false]
    cases N.hasHandler with
    | true =>
      simp only [if_true]
      split_ifs
      · exact ih _ hs hw
      · unfold NodeState.tryEnqueue
        split <;> exact ih _ hs hw
    | false =>
      simp only [Bool.false_eq_true, if_false]
      split
      · next s₁ e hb =>
        obtain ⟨h1, h2, -⟩ := broadcast_error hb
        exact .of_eq (h1.trans hs) (Or.inl (congrArg Worker.message (h2.trans hw))) (Or.inr rfl)
      · next s₁ msg hb =>
        obtain ⟨-, h1, h2, -⟩ := utters_broadcast hb
        split
        · exact ih _ (h1.trans hs) (h2.trans hw)
        · exact .of_send _ msg (Or.inr (authored_broadcast hb)) (congrArg (· ++ _) (h1.trans hs))
            (fun m hm => Or.inl (congrArg Worker.message (h2.trans hw) ▸ hm))
            (fun m hm => Or.inr (Option.some.inj hm).symm)

/-- A suspended broadcast goes on with the message it has. -/
theorem Composes.of_resend {p : Str} {msg : Message} (hm : msg ∈ s.messages) {w : Worker} {r : Reclaim}
    (hw : w = s.worker ∨ w.message = some msg) (hr : r = s.reclaim ∨ r.message = some msg) :
    N.Composes s { s.send p msg with worker := w, reclaim := r } := by
  refine .of_send p msg (Or.inl hm) rfl (fun m h => ?_) (fun m h => ?_)
  · exact hw.imp (fun hw => by rw [← hw]; exact h) fun hw => (Option.some.inj (hw.symm.trans h)).symm
  · exact hr.imp (fun hr => by rw [← hr]; exact h) fun hr => (Option.some.inj (hr.symm.trans h)).symm

/-- **The messages of a node** are of three kinds: a step adds no other. -/
theorem step_composes (e : Event) : N.Composes s (N.step s e) := by
  cases e with
  | submit taskId payload priority =>
    have h := N.step_submit_frame s taskId payload priority
    exact .of_eq h.sent (Or.inl (congrArg Worker.message h.worker))
      (Or.inl (congrArg Reclaim.message h.reclaim))
  | recv sender msg now =>
    exact .of_eq (step_recv_sent sender msg now)
      (Or.inl (congrArg Worker.message (N.step_recv_worker s sender msg now)))
      (Or.inl (congrArg Reclaim.message (step_recv_reclaim sender msg now)))
  | workerGet now leaseNow wallNow suspected nonce =>
    simp only [step]
    cases s.worker
    case waiting =>
      obtain ⟨-, h⟩ | ⟨taskId, q, s₁, -, rfl, ⟨-, h⟩ | ⟨job, rfl, -, -, -, -, -, h⟩⟩ :=
        N.workerGet_cases s wallNow nonce now leaseNow suspected <;> simp only [h]
      · exact .refl s
      · exact .of_eq rfl (Or.inl rfl) (Or.inl rfl)
      · exact claimTask_composes rfl rfl
    all_goals exact .refl s
  | workerSent wallNow nonce =>
    simp only [step, workerSent]
    cases hw : s.worker
    case claiming job msg rest =>
      have hm : msg ∈ s.messages := mem_messages.2 (Or.inr (Or.inl (by rw [hw]; rfl)))
      cases rest with
      | nil => exact .of_eq rfl (Or.inr rfl) (Or.inl rfl)
      | cons p rest => exact .of_resend hm (Or.inr rfl) (Or.inl rfl)
    case committing job st msg rest =>
      have hm : msg ∈ s.messages := mem_messages.2 (Or.inr (Or.inl (by rw [hw]; rfl)))
      cases rest with
      | nil => exact finishCommit_composes rfl rfl
      | cons p rest => exact .of_resend hm (Or.inr rfl) (Or.inl rfl)
    case crediting => exact .of_eq rfl (Or.inr rfl) (Or.inl rfl)
    all_goals exact .refl s
  | handlerDone outcome now wallNow nonce =>
    simp only [step, handlerDone]
    cases s.worker
    case handling job =>
      simp only
      split_ifs
      · exact .of_eq rfl (Or.inr rfl) (Or.inl rfl)
      · exact .of_eq rfl (Or.inr rfl) (Or.inl rfl)
      · exact commitTask_composes
    all_goals exact .refl s
  | reclaimSweep now wallNow suspected nonce =>
    simp only [step, reclaimSweep]
    cases s.reclaim
    case sleeping => exact sweep_composes _ s rfl rfl
    all_goals exact .refl s
  | reclaimSent wallNow suspected nonce =>
    simp only [step, reclaimSent]
    cases hr : s.reclaim
    case resetting msg rest now livePeers snapshot =>
      have hm : msg ∈ s.messages := mem_messages.2 (Or.inr (Or.inr (by rw [hr]; rfl)))
      cases rest with
      | nil => exact sweep_composes _ s rfl rfl
      | cons p rest => exact .of_resend hm (Or.inl rfl) (Or.inr rfl)
    all_goals exact .refl s
  | gossipRound partner wallNow nonce =>
    simp only [step, gossipRound]
    split_ifs
    · exact .refl s
    · split
      · exact .of_eq rfl (Or.inl rfl) (Or.inl rfl)
      · next msg hmsg =>
        exact .of_send _ msg (Or.inr (authored_gossip hmsg)) rfl (fun m => Or.inl) (fun m => Or.inl)
    · exact .refl s
  | heartbeatRound now wallNow nonce =>
    simp only [step, heartbeatRound]
    split_ifs
    · split
      · exact .of_eq rfl (Or.inl rfl) (Or.inl rfl)
      · next msg hmsg =>
        refine .of_new msg (Or.inr (.heartbeat hmsg)) rfl (fun x hx => ?_) (fun m => Or.inl)
          (fun m => Or.inl)
        obtain ⟨p, -, rfl⟩ := List.mem_map.1 hx
        rfl
    · exact .refl s
  | restart cut =>
    have hb := N.boot_messages (s.walFile.map (·.take cut)) s.journal
    simp only [NodeState.messages, List.append_eq_nil_iff, Option.toList_eq_nil_iff] at hb
    exact .of_eq rfl (Or.inr hb.1.2) (Or.inr hb.2)

end

end PeerNode

end PeerQ
