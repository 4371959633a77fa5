/-
  The messages of a node: those it has handed to the transport, and those that
  its loops still have to hand over.

  A message that a step makes carries records as they are stored after the step
  (`step_messages`); the others are old ones.
-/
import PeerQ.Node.Writes
import PeerQ.Node.Rounds

namespace PeerQ

open Py

/-- The message of a broadcast that the worker is suspended in. -/
def Worker.message : Worker → Option Message
  | .claiming _ msg _ | .committing _ _ msg _ => some msg
  | _ => none

/-- The message of a broadcast that the reclaim loop is suspended in. -/
def Reclaim.message : Reclaim → Option Message
  | .resetting msg _ _ _ _ => some msg
  | _ => none

/-- The messages sent and those to be sent to further peers. -/
def NodeState.messages (s : NodeState) : List Message :=
  s.sent.map Prod.snd ++ s.worker.message.toList ++ s.reclaim.message.toList

/-- The tasks of the message are stored as they are in it. -/
def Replica.Tells (p : Replica) (m : Message) : Prop :=
  ∀ e ∈ m.tasks, ∃ r, e.2 = TaskRecord.toDict r ∧ p.tasks.get e.1 = some r

namespace PeerNode

variable {R : Runtime} (N : PeerNode R)

section
variable {N} {s s' : NodeState} {m : Message}

theorem mem_messages : m ∈ s.messages ↔
    m ∈ s.sent.map Prod.snd ∨ s.worker.message = some m ∨ s.reclaim.message = some m := by
  simp [NodeState.messages]

/-- Every message is an old one or tells what is stored. -/
def Speaks (s s' : NodeState) : Prop := ∀ m ∈ s'.messages, m ∈ s.messages ∨ s'.Tells m

/-- A message that the node makes: it has the node's name in it, tells what is stored, and a credit
    is one of 1. -/
structure Utters (N : PeerNode R) (p : Replica) (m : Message) : Prop where
  sender : m.senderId = N.nodeId
  tells : p.Tells m
  credit : m.msgType = str "credit" → m.payload = [(str "amount", .int 1)]

/-- No message that was sent is forgotten, and every message is an old one or one that the node
    makes. -/
structure Voices (N : PeerNode R) (s s' : NodeState) : Prop where
  kept : ∀ x ∈ s.sent, x ∈ s'.sent
  made : ∀ m ∈ s'.messages, m ∈ s.messages ∨ N.Utters s'.toReplica m

/-! ## The messages that are made -/

theorem gossip_ne_credit : str "gossip" ≠ str "credit" := by decide

theorem utters_gossip {p : Replica} {l : List (Str × TaskRecord)} {wallNow : ℚ} {nonce : Str}
    (hm : N.signedMessage (str "gossip") (gossipPayload l) wallNow nonce = .ok m)
    (hl : ∀ e ∈ l, p.tasks.get e.1 = some e.2) : N.Utters p m := by
  have htasks := signedMessage_tasks hm
  obtain ⟨sig, rfl⟩ := Message.signed_ok hm
  refine ⟨rfl, fun e he => ?_, fun h => absurd h gossip_ne_credit⟩
  rw [htasks] at he
  obtain ⟨x, hx, rfl⟩ := List.mem_map.1 he
  exact ⟨x.2, rfl, hl x hx⟩

/-- Other messages carry no tasks. -/
theorem utters_other {p : Replica} {msgType : Str} {payload : Fields} {wallNow : ℚ} {nonce : Str}
    (hm : N.signedMessage msgType payload wallNow nonce = .ok m)
    (hp : lookup (str "tasks") payload = none)
    (hc : msgType = str "credit" → payload = [(str "amount", .int 1)]) : N.Utters p m := by
  obtain ⟨sig, rfl⟩ := Message.signed_ok hm
  refine ⟨rfl, fun e he => ?_, hc⟩
  simp [Message.tasks, hp] at he

/-- A broadcast tells what it has just stored. -/
theorem utters_broadcast {taskId : Str} {r : TaskRecord} {wallNow : ℚ} {nonce : Str}
    (h : N.broadcastTaskUpdate s taskId r wallNow nonce = (s', .ok m)) :
    N.Utters s'.toReplica m ∧ s'.sent = s.sent ∧ s'.worker = s.worker ∧ s'.reclaim = s.reclaim := by
  unfold broadcastTaskUpdate at h
  have hstored := N.logUpdate_tasks (s.toReplica.store taskId (N.sealRecord r)) (N.sealRecord r)
  simp only at h
  split at h
  · simp at h
  · next p hp =>
    rw [hp] at hstored
    obtain ⟨rfl, hmsg⟩ := Prod.mk.inj h
    refine ⟨utters_gossip hmsg ?_, rfl, rfl, rfl⟩
    simp only [List.mem_singleton, forall_eq]
    rw [hstored]
    simp [Replica.store]

theorem broadcast_error {taskId : Str} {r : TaskRecord} {wallNow : ℚ} {nonce : Str} {e : Exn}
    (h : N.broadcastTaskUpdate s taskId r wallNow nonce = (s', .error e)) :
    s'.sent = s.sent ∧ s'.worker = s.worker ∧ s'.reclaim = s.reclaim := by
  unfold broadcastTaskUpdate at h
  simp only at h
  split at h <;> obtain ⟨rfl, -⟩ := Prod.mk.inj h <;> exact ⟨rfl, rfl, rfl⟩

/-! ## Where the messages of a state come from -/

/-- A state with the messages there were, where a loop may have ended a broadcast. -/
theorem Voices.of_eq (hs : s'.sent = s.sent) (hw : s'.worker.message = s.worker.message ∨
    s'.worker.message = none) (hr : s'.reclaim.message = s.reclaim.message ∨
      s'.reclaim.message = none) : N.Voices s s' := by
  refine ⟨fun x hx => hs ▸ hx, fun m hm => Or.inl (mem_messages.2 ?_)⟩
  rcases mem_messages.1 hm with hm | hm | hm
  · exact Or.inl (hs ▸ hm)
  · rcases hw with hw | hw <;> rw [hw] at hm
    · exact Or.inr (Or.inl hm)
    · cases hm
  · rcases hr with hr | hr <;> rw [hr] at hm
    · exact Or.inr (Or.inr hm)
    · cases hm

theorem Voices.refl (s : NodeState) : N.Voices s s := .of_eq rfl (Or.inl rfl) (Or.inl rfl)

/-- A state that has one more message, sent or to be sent. -/
theorem Voices.of_new (msg : Message) (hm : msg ∈ s.messages ∨ N.Utters s'.toReplica msg)
    {l : List (Str × Message)} (hs : s'.sent = s.sent ++ l) (hl : ∀ x ∈ l, x.2 = msg)
    (hw : ∀ m, s'.worker.message = some m → s.worker.message = some m ∨ m = msg)
    (hr : ∀ m, s'.reclaim.message = some m → s.reclaim.message = some m ∨ m = msg) :
    N.Voices s s' := by
  refine ⟨fun x hx => hs ▸ List.mem_append_left _ hx, fun m hmem => ?_⟩
  rcases mem_messages.1 hmem with h | h | h
  · obtain ⟨x, hx, rfl⟩ := List.mem_map.1 h
    rcases List.mem_append.1 (hs ▸ hx) with hx | hx
    · exact Or.inl (mem_messages.2 (Or.inl (List.mem_map_of_mem hx)))
    · exact hl x hx ▸ hm
  · rcases hw m h with h | rfl
    · exact Or.inl (mem_messages.2 (Or.inr (Or.inl h)))
    · exact hm
  · rcases hr m h with h | rfl
    · exact Or.inl (mem_messages.2 (Or.inr (Or.inr h)))
    · exact hm

/-- A state that has handed one more message to the transport. -/
theorem Voices.of_send (p : Str) (msg : Message)
    (hm : msg ∈ s.messages ∨ N.Utters s'.toReplica msg) (hs : s'.sent = s.sent ++ [(p, msg)])
    (hw : ∀ m, s'.worker.message = some m → s.worker.message = some m ∨ m = msg)
    (hr : ∀ m, s'.reclaim.message = some m → s.reclaim.message = some m ∨ m = msg) :
    N.Voices s s' :=
  .of_new msg hm hs (fun _ hx => congrArg Prod.snd (List.mem_singleton.1 hx)) hw hr

/-! ## Steps -/

variable {job : Job} {wallNow : ℚ} {nonce : Str}

theorem claimTask_voices {s₀ : NodeState} (hs : s.sent = s₀.sent) (hr : s.reclaim = s₀.reclaim) :
    N.Voices s₀ (N.claimTask s job wallNow nonce) := by
  unfold claimTask
  simp only
  split
  · next s₁ e hb =>
    obtain ⟨h1, h2, h3⟩ := broadcast_error hb
    exact .of_eq (h1.trans hs) (Or.inr rfl) (Or.inl (congrArg Reclaim.message (h3.trans hr)))
  · next s₁ msg hb =>
    obtain ⟨ht, h1, h2, h3⟩ := utters_broadcast hb
    split
    · exact .of_eq (h1.trans hs) (Or.inr rfl) (Or.inl (congrArg Reclaim.message (h3.trans hr)))
    · exact .of_send _ msg (Or.inr ht) (congrArg (· ++ _) (h1.trans hs))
        (fun m hm => Or.inr (Option.some.inj hm).symm)
        (fun m hm => Or.inl ((congrArg Reclaim.message (h3.trans hr)) ▸ hm))

theorem finishCommit_voices {s₀ : NodeState} {st : TaskState} (hs : s.sent = s₀.sent)
    (hr : s.reclaim = s₀.reclaim) : N.Voices s₀ (N.finishCommit s job st wallNow nonce) := by
  unfold finishCommit
  generalize (if st = .done then Metric.completed else .failed) = metric
  simp only
  split_ifs
  · split
    · exact .of_eq hs (Or.inr rfl) (Or.inl (congrArg Reclaim.message hr))
    · next msg hm =>
      exact .of_send _ msg (Or.inr (utters_other hm rfl fun _ => rfl))
        (congrArg (· ++ _) hs) (fun m hm => by cases hm)
        (fun m hm => Or.inl (congrArg Reclaim.message hr ▸ hm))
  · exact .of_eq hs (Or.inr rfl) (Or.inl (congrArg Reclaim.message hr))

theorem commitTask_voices {outcome : Except Str Bytes} :
    N.Voices s (N.commitTask s job outcome wallNow nonce) := by
  unfold commitTask
  simp only
  split
  · next s₁ e hb =>
    obtain ⟨h1, h2, h3⟩ := broadcast_error hb
    exact .of_eq h1 (Or.inr rfl) (Or.inl (congrArg Reclaim.message h3))
  · next s₁ msg hb =>
    obtain ⟨ht, h1, h2, h3⟩ := utters_broadcast hb
    split
    · exact finishCommit_voices h1 h3
    · exact .of_send _ msg (Or.inr ht) (congrArg (· ++ _) h1)
        (fun m hm => Or.inr (Option.some.inj hm).symm)
        (fun m hm => Or.inl ((congrArg Reclaim.message h3) ▸ hm))

/-- A sweep makes a message when it is suspended, and none before. -/
theorem sweep_voices {now : ℚ} {livePeers : List Str} {suspected : Str → Bool} {s₀ : NodeState} :
    ∀ (l : List (Str × TaskRecord)) (s : NodeState), s.sent = s₀.sent → s.worker = s₀.worker →
      N.Voices s₀ (N.sweep now livePeers suspected wallNow nonce s l)
  | [], s, hs, hw => .of_eq hs (Or.inl (congrArg Worker.message hw)) (Or.inr rfl)
  | (t, r) :: l, s, hs, hw => by
    have ih : ∀ s : NodeState, s.sent = s₀.sent → s.worker = s₀.worker →
        N.Voices s₀ (N.sweep now livePeers suspected wallNow nonce s l) := sweep_voices l
    unfold sweep
    by_cases hr : N.reclaimable r now suspected = true
    swap
    · rw [if_pos (by simpa using hr)]; exact ih s hs hw
    rw [if_neg (by simpa using hr)]
    cases rendezvousReclaimer R t livePeers with
    | error e => exact .of_eq hs (Or.inl (congrArg Worker.message hw)) (Or.inr rfl)
    | ok elected =>
    by_cases he : elected = some N.nodeId
    swap
    · simp only [ne_eq, he, not_false_eq_true, if_true]; exact ih s hs hw
    simp only [he, ne_eq, not_true_eq_false, if_false]
    cases N.hasHandler with
    | true =>
      simp only [if_true]
      split_ifs
      · exact ih _ hs hw
      · unfold NodeState.tryEnqueue
        split <;> exact ih _ hs hw
    | false =>
      simp only [Bool.false_eq_true, if_false]
      split
      · next s₁ e hb =>
        obtain ⟨h1, h2, -⟩ := broadcast_error hb
        exact .of_eq (h1.trans hs) (Or.inl (congrArg Worker.message (h2.trans hw))) (Or.inr rfl)
      · next s₁ msg hb =>
        obtain ⟨ht, h1, h2, -⟩ := utters_broadcast hb
        split
        · exact ih _ (h1.trans hs) (h2.trans hw)
        · exact .of_send _ msg (Or.inr ht) (congrArg (· ++ _) (h1.trans hs))
            (fun m hm => Or.inl (congrArg Worker.message (h2.trans hw) ▸ hm))
            (fun m hm => Or.inr (Option.some.inj hm).symm)

theorem step_recv_sent (sender : Str) (msg : Message) (wallNow : ℚ) :
    (N.step s (.recv sender msg wallNow)).sent = s.sent := by
  have hafter : ∀ x : NodeState × Option Exn, (afterRecv x).sent = x.1.sent := by
    rintro ⟨s₁, _ | e⟩ <;> rfl
  simp only [step]
  split_ifs
  · rw [hafter, (N.recvMessage_aside s sender msg wallNow).2.1]
  · rfl

/-- **Where messages come from**: a step other than a restart forgets no message that was sent, and
    the messages after it are old ones or made by it. -/
theorem step_voices {e : Event} (he : ∀ cut, e ≠ .restart cut) : N.Voices s (N.step s e) := by
  cases e with
  | submit taskId payload priority =>
    have h := N.step_submit_frame s taskId payload priority
    exact .of_eq h.sent (Or.inl (congrArg Worker.message h.worker))
      (Or.inl (congrArg Reclaim.message h.reclaim))
  | recv sender msg now =>
    exact .of_eq (step_recv_sent sender msg now)
      (Or.inl (congrArg Worker.message (N.step_recv_worker s sender msg now)))
      (Or.inl (congrArg Reclaim.message (step_recv_reclaim sender msg now)))
  | workerGet now leaseNow wallNow suspected nonce =>
    simp only [step]
    cases s.worker
    case waiting =>
      obtain ⟨-, h⟩ | ⟨taskId, q, s₁, -, rfl, ⟨-, h⟩ | ⟨job, rfl, -, -, -, -, -, h⟩⟩ :=
        N.workerGet_cases s wallNow nonce now leaseNow suspected <;> simp only [h]
      · exact .refl s
      · exact .of_eq rfl (Or.inl rfl) (Or.inl rfl)
      · exact claimTask_voices rfl rfl
    all_goals exact .refl s
  | workerSent wallNow nonce =>
    simp only [step, workerSent]
    cases hw : s.worker
    case claiming job msg rest =>
      have hm : msg ∈ s.messages := mem_messages.2 (Or.inr (Or.inl (by rw [hw]; rfl)))
      cases rest with
      | nil => exact .of_eq rfl (Or.inr rfl) (Or.inl rfl)
      | cons p rest =>
        exact .of_send p msg (Or.inl hm) rfl
          (fun m hm => Or.inr (Option.some.inj hm).symm) (fun m hm => Or.inl hm)
    case committing job st msg rest =>
      have hm : msg ∈ s.messages := mem_messages.2 (Or.inr (Or.inl (by rw [hw]; rfl)))
      cases rest with
      | nil => exact finishCommit_voices rfl rfl
      | cons p rest =>
        exact .of_send p msg (Or.inl hm) rfl
          (fun m hm => Or.inr (Option.some.inj hm).symm) (fun m hm => Or.inl hm)
    case crediting => exact .of_eq rfl (Or.inr rfl) (Or.inl rfl)
    all_goals exact .refl s
  | handlerDone outcome now wallNow nonce =>
    simp only [step, handlerDone]
    cases s.worker
    case handling job =>
      simp only
      split_ifs
      · exact .of_eq rfl (Or.inr rfl) (Or.inl rfl)
      · exact .of_eq rfl (Or.inr rfl) (Or.inl rfl)
      · exact commitTask_voices
    all_goals exact .refl s
  | reclaimSweep now wallNow suspected nonce =>
    simp only [step, reclaimSweep]
    cases s.reclaim
    case sleeping => exact sweep_voices _ s rfl rfl
    all_goals exact .refl s
  | reclaimSent wallNow suspected nonce =>
    simp only [step, reclaimSent]
    cases hr : s.reclaim
    case resetting msg rest now livePeers snapshot =>
      have hm : msg ∈ s.messages := mem_messages.2 (Or.inr (Or.inr (by rw [hr]; rfl)))
      cases rest with
      | nil => exact sweep_voices _ s rfl rfl
      | cons p rest =>
        exact .of_send p msg (Or.inl hm) rfl (fun m hm => Or.inl hm)
          (fun m hm => Or.inr (Option.some.inj hm).symm)
    all_goals exact .refl s
  | gossipRound partner wallNow nonce =>
    simp only [step, gossipRound]
    split_ifs
    · exact .refl s
    · split
      · exact .of_eq rfl (Or.inl rfl) (Or.inl rfl)
      · next msg hmsg =>
        refine .of_send _ msg (Or.inr (utters_gossip hmsg fun e he => ?_))
          rfl (fun m hm => Or.inl hm) (fun m hm => Or.inl hm)
        exact mem_sortKeys_entries.1 (List.mem_of_mem_take he)
    · exact .refl s
  | heartbeatRound now wallNow nonce =>
    simp only [step, heartbeatRound]
    split_ifs
    · split
      · exact .of_eq rfl (Or.inl rfl) (Or.inl rfl)
      · next msg hmsg =>
        have hts : str "ts" ≠ str "tasks" := by decide
        refine .of_new msg (Or.inr (utters_other hmsg (if_neg hts) fun h => absurd h (by decide)))
          rfl (fun x hx => ?_) (fun m hm => Or.inl hm) (fun m hm => Or.inl hm)
        obtain ⟨p, -, rfl⟩ := List.mem_map.1 hx
        rfl
    · exact .refl s
  | restart cut => exact absurd rfl (he cut)

/-- After a step other than a restart, every message is an old one or carries records as they are
    stored. -/
theorem step_messages {e : Event} (he : ∀ cut, e ≠ .restart cut) : Speaks s (N.step s e) :=
  fun m hm => ((step_voices he).made m hm).imp_right Utters.tells

/-- A node that starts has no messages. -/
theorem boot_messages (file : Option Bytes) (journal : List LogEntry) :
    (N.boot file journal).messages = [] := by
  have hstart : ∀ s, (N.startLoops s).messages = s.sent.map Prod.snd := by
    intro s
    unfold startLoops NodeState.messages
    cases N.hasHandler <;> simp [Worker.message, Reclaim.message]
  obtain ⟨p, q, ids, up, s, rfl, hb | hb⟩ := N.boot_fresh file journal <;> rw [hb]
  · rfl
  · rw [hstart]; rfl

end

end PeerNode

end PeerQ
