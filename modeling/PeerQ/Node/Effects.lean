/-
  What the functions of a node do to its state, one statement for each.

  Submitting, claiming, committing and resetting a task all come down to one
  local update of the replica (`localUpdate`): the clock is advanced, a record
  with the new clock is stored and logged.  A received record comes down to
  `takeRecord`.  The rest of a step only touches the queue, the position of the
  loops, counters and sent messages.
-/
import PeerQ.Node

namespace PeerQ

open Py

/-- The job that the worker has claimed and not committed: its claim is being broadcast, or its
    handler runs. -/
def Worker.job : Worker → Option Job
  | .claiming job _ _ | .handling job => some job
  | _ => none

namespace PeerNode

variable {R : Runtime} (N : PeerNode R)

/-! ## Sealing -/

section
variable (r : TaskRecord)

@[simp] theorem sealRecord_taskId : (N.sealRecord r).taskId = r.taskId := by
  unfold sealRecord; split_ifs <;> rfl

@[simp] theorem sealRecord_state : (N.sealRecord r).state = r.state := by
  unfold sealRecord; split_ifs <;> rfl

@[simp] theorem sealRecord_payload : (N.sealRecord r).payload = r.payload := by
  unfold sealRecord; split_ifs <;> rfl

@[simp] theorem sealRecord_fenceToken : (N.sealRecord r).fenceToken = r.fenceToken := by
  unfold sealRecord; split_ifs <;> rfl

@[simp] theorem sealRecord_claimedBy : (N.sealRecord r).claimedBy = r.claimedBy := by
  unfold sealRecord; split_ifs <;> rfl

@[simp] theorem sealRecord_vectorClock : (N.sealRecord r).vectorClock = r.vectorClock := by
  unfold sealRecord; split_ifs <;> rfl

/-- A record is sealed a second time without effect. -/
@[simp] theorem sealRecord_sealRecord : N.sealRecord (N.sealRecord r) = N.sealRecord r := by
  unfold sealRecord; split_ifs <;> rfl

theorem sealRecord_resetRecord (t : Str) (c : VectorClock) :
    N.sealRecord (N.resetRecord t r c) = N.resetRecord t r c := N.sealRecord_sealRecord _

end

/-! ## The replica -/

section
variable (p : Replica)

@[simp] theorem appendEntry_tasks (e : LogEntry) : (N.appendEntry p e).1.tasks = p.tasks := by
  unfold appendEntry; split
  · split <;> rfl
  · rfl

@[simp] theorem appendEntry_vectorClock (e : LogEntry) :
    (N.appendEntry p e).1.vectorClock = p.vectorClock := by
  unfold appendEntry; split
  · split <;> rfl
  · rfl

/-- Logging is two appends, the second one after a successful first. -/
theorem logUpdate_eq (r : TaskRecord) : N.logUpdate p r =
    if (N.appendEntry p (.task r)).2 = none then
      N.appendEntry (N.appendEntry p (.task r)).1 (.clock p.vectorClock)
    else N.appendEntry p (.task r) := by
  have hc := N.appendEntry_vectorClock p (.task r)
  unfold logUpdate
  split
  · next q e h => rw [h]; simp
  · next q h => rw [h] at hc ⊢; simp only [if_true] at hc ⊢; rw [hc]

@[simp] theorem logUpdate_tasks (r : TaskRecord) : (N.logUpdate p r).1.tasks = p.tasks := by
  rw [logUpdate_eq]; split_ifs <;> simp

@[simp] theorem logUpdate_vectorClock (r : TaskRecord) :
    (N.logUpdate p r).1.vectorClock = p.vectorClock := by
  rw [logUpdate_eq]; split_ifs <;> simp

/-- A local update of a task: advance the clock, store the record made with it, and log both. -/
def localUpdate (taskId : Str) (mk : VectorClock → TaskRecord) : Replica × Option Exn :=
  N.logUpdate ((N.tick p).store taskId (mk (N.tick p).vectorClock)) (mk (N.tick p).vectorClock)

@[simp] theorem localUpdate_tasks (taskId : Str) (mk : VectorClock → TaskRecord) :
    (N.localUpdate p taskId mk).1.tasks = p.tasks.set taskId (mk (p.vectorClock.increment N.nodeId)) :=
  N.logUpdate_tasks _ _

@[simp] theorem localUpdate_vectorClock (taskId : Str) (mk : VectorClock → TaskRecord) :
    (N.localUpdate p taskId mk).1.vectorClock = p.vectorClock.increment N.nodeId :=
  N.logUpdate_vectorClock _ _

end

section
variable (s : NodeState) (wallNow : ℚ) (nonce : Str)

/-- A broadcast of a sealed record that was just stored only logs it. -/
theorem broadcastTaskUpdate_eq (p : Replica) (taskId : Str) {r : TaskRecord}
    (hr : N.sealRecord r = r) : ∃ m,
    N.broadcastTaskUpdate { s with toReplica := p.store taskId r } taskId r wallNow nonce =
      ({ s with toReplica := (N.logUpdate (p.store taskId r) r).1 }, m) := by
  have hst : (p.store taskId r).store taskId r = p.store taskId r := by simp [Replica.store]
  simp only [broadcastTaskUpdate, hr, hst]
  split <;> next h => exact ⟨_, by rw [h]⟩

/-! ## Submitting -/

/-- The arguments pass the checks of `submit_task`. -/
def Submittable (taskId : Str) (payload : Bytes) : Prop :=
  (taskId ≠ [] ∧ taskId.length ≤ maxTaskIdLength) ∧ payload.length ≤ maxTaskPayload ∧
    (s.tasks.has taskId = true ∨ s.tasks.size < N.maxTasks)

/-- **What a submission does**: nothing if it is refused, else a local update and, if that could be
    logged, an attempt to queue the task. -/
theorem submitTask_cases (taskId : Str) (payload : Bytes) (priority : ℤ) :
    (¬ N.Submittable s taskId payload ∧ ∃ e, N.submitTask s taskId payload priority = (s, some e) ∨
      N.submitTask s taskId payload priority = (s.bump .rejected, some e)) ∨
    N.Submittable s taskId payload ∧
    ∃ x s₁, x = N.localUpdate s.toReplica taskId (N.submitRecord taskId payload) ∧
      s₁ = ({ s with toReplica := x.1 } : NodeState).bump .enqueued ∧
      ((∃ e, x.2 = some e ∧ N.submitTask s taskId payload priority = (s₁, some e)) ∨
        (∃ e, x.2 = none ∧ s.queue.full = true ∧
          N.submitTask s taskId payload priority = (s₁.bump .rejected, some e)) ∨
        ∃ q, x.2 = none ∧ s.queue.put taskId priority = .ok q ∧
          N.submitTask s taskId payload priority =
            ({ s₁ with queue := q, queuedTaskIds := insert taskId s.queuedTaskIds }, none)) := by
  unfold submitTask
  split_ifs with h1 h2 h3
  · refine Or.inl ⟨fun h => ?_, _, Or.inl rfl⟩
    exact h1.elim h.1.1 (not_lt.2 h.1.2)
  · exact Or.inl ⟨fun h => not_lt.2 h.2.1 h2, _, Or.inl rfl⟩
  · simp only [Bool.and_eq_true, Bool.not_eq_true', decide_eq_true_eq] at h3
    refine Or.inl ⟨fun h => ?_, _, Or.inr rfl⟩
    exact h.2.2.elim (fun hh => absurd (hh.symm.trans h3.1) (by simp)) (not_lt.2 h3.2)
  push Not at h1
  have h3' : s.tasks.has taskId = true ∨ s.tasks.size < N.maxTasks := by
    simp only [Bool.and_eq_true, Bool.not_eq_true', decide_eq_true_eq, not_and, not_le] at h3
    cases hh : s.tasks.has taskId
    exacts [Or.inr (h3 hh), Or.inl rfl]
  refine Or.inr ⟨⟨h1, not_lt.1 h2, h3'⟩, _, _, rfl, rfl, ?_⟩
  cases hx : N.localUpdate s.toReplica taskId (N.submitRecord taskId payload) with
  | mk p e =>
    have hx' : N.logUpdate ((N.tick s.toReplica).store taskId (N.submitRecord taskId payload
      (N.tick s.toReplica).vectorClock)) (N.submitRecord taskId payload
      (N.tick s.toReplica).vectorClock) = (p, e) := hx
    cases e with
    | some e => exact Or.inl ⟨e, rfl, by simp [NodeState.bump, hx']⟩
    | none =>
      right
      simp only [NodeState.bump, hx', true_and]
      by_cases hq : s.queue.full = true
      · left
        simp [BackpressureQueue.put, hq]
      · right
        rw [Bool.not_eq_true] at hq
        obtain ⟨q, hq'⟩ : ∃ q, s.queue.put taskId priority = .ok q :=
          ⟨_, BackpressureQueue.put_ok_iff.2 ⟨hq, rfl⟩⟩
        exact ⟨q, hq', by simp [hq']⟩

/-- What a submission leaves alone: the loops, the cache of nonces, the credits and the messages
    that were sent. -/
structure SubmitFrame (s s' : NodeState) : Prop where
  worker : s'.worker = s.worker
  reclaim : s'.reclaim = s.reclaim
  receiving : s'.receiving = s.receiving
  messageReplay : s'.messageReplay = s.messageReplay
  credits : s'.credits = s.credits
  sent : s'.sent = s.sent

theorem step_submit_frame (taskId : Str) (payload : Bytes) (priority : ℤ) :
    SubmitFrame s (N.step s (.submit taskId payload priority)) := by
  simp only [step]
  split_ifs
  · obtain ⟨-, _, h | h⟩ | ⟨-, x, s₁, rfl, rfl, ⟨_, -, h⟩ | ⟨_, -, -, h⟩ | ⟨q, -, -, h⟩⟩ :=
      N.submitTask_cases s taskId payload priority <;> rw [h] <;>
        exact ⟨rfl, rfl, rfl, rfl, rfl, rfl⟩
  · exact ⟨rfl, rfl, rfl, rfl, rfl, rfl⟩

/-! ## The worker -/

/-- **What a claim does**: a local update, and then the worker is stopped, runs the handler, or
    waits for the first send. -/
theorem claimTask_cases (job : Job) : ∃ x s₁,
    x = N.localUpdate s.toReplica job.taskId (N.claimRecord job .claimed) ∧
    s₁ = ({ s with toReplica := x.1 } : NodeState).bump .claimed ∧
    (N.claimTask s job wallNow nonce = { s₁ with worker := .stopped } ∨
      N.claimTask s job wallNow nonce = N.startHandler s₁ job ∨
      ∃ p msg rest, N.claimTask s job wallNow nonce =
        { s₁.send p msg with worker := .claiming job msg rest }) := by
  refine ⟨_, _, rfl, rfl, ?_⟩
  have hr : N.sealRecord (N.claimRecord job .claimed (N.tick s.toReplica).vectorClock) =
    N.claimRecord job .claimed (N.tick s.toReplica).vectorClock := N.sealRecord_sealRecord _
  obtain ⟨m, hb⟩ := N.broadcastTaskUpdate_eq (s.bump .claimed) wallNow nonce
    (N.tick s.toReplica) job.taskId hr
  unfold claimTask
  simp only [NodeState.bump] at hb ⊢
  rw [hb]
  cases m with
  | error e => exact Or.inl rfl
  | ok msg =>
    cases N.peers with
    | nil => exact Or.inr (Or.inl rfl)
    | cons p rest => exact Or.inr (Or.inr ⟨p, _, rest, rfl⟩)

/-- The end of a round changes counters and the worker's position only. -/
theorem finishCommit_cases (job : Job) (st : TaskState) : ∃ s₁ : NodeState,
    s₁.toReplica = s.toReplica ∧ s₁.queue = s.queue ∧ s₁.queuedTaskIds = s.queuedTaskIds ∧
    s₁.reclaim = s.reclaim ∧ (N.finishCommit s job st wallNow nonce = { s₁ with worker := .stopped } ∨
      N.finishCommit s job st wallNow nonce = { s₁ with worker := .crediting } ∨
      N.finishCommit s job st wallNow nonce = { s₁ with worker := .waiting }) := by
  unfold finishCommit
  generalize (if st = .done then Metric.completed else .failed) = metric
  split_ifs
  · simp only
    split
    · exact ⟨s.bump _, rfl, rfl, rfl, rfl, Or.inl rfl⟩
    · next msg _ => exact ⟨(s.bump _).send _ msg, rfl, rfl, rfl, rfl, Or.inr (Or.inl rfl)⟩
  · exact ⟨s.bump _, rfl, rfl, rfl, rfl, Or.inr (Or.inr rfl)⟩

/-- **What a commit does**: a local update, and then the worker is stopped, ends the round, or waits
    for the first send. -/
theorem commitTask_cases (job : Job) (outcome : Except Str Bytes) : ∃ x s₁ st,
    x = N.localUpdate s.toReplica job.taskId (N.commitRecord job outcome) ∧
    s₁ = { s with toReplica := x.1 } ∧
    (N.commitTask s job outcome wallNow nonce = { s₁ with worker := .stopped } ∨
      N.commitTask s job outcome wallNow nonce = N.finishCommit s₁ job st wallNow nonce ∨
      ∃ p msg rest, N.commitTask s job outcome wallNow nonce =
        { s₁.send p msg with worker := .committing job st msg rest }) := by
  refine ⟨_, _, (N.commitRecord job outcome (N.tick s.toReplica).vectorClock).state, rfl, rfl, ?_⟩
  have hr : N.sealRecord (N.commitRecord job outcome (N.tick s.toReplica).vectorClock) =
    N.commitRecord job outcome (N.tick s.toReplica).vectorClock := N.sealRecord_sealRecord _
  obtain ⟨m, hb⟩ := N.broadcastTaskUpdate_eq s wallNow nonce (N.tick s.toReplica) job.taskId hr
  unfold commitTask
  simp only
  rw [hb]
  cases m with
  | error e => exact Or.inl rfl
  | ok msg =>
    cases N.peers with
    | nil => exact Or.inr (Or.inl rfl)
    | cons p rest => exact Or.inr (Or.inr ⟨p, _, rest, rfl⟩)

/-- **What taking a queued task does**: nothing, drop it from the queue, or claim it. -/
theorem workerGet_cases (now leaseNow : ℚ) (suspected : Str → Bool) :
    (s.queue.items = [] ∧ N.workerGet s now leaseNow wallNow suspected nonce = s) ∨
    ∃ taskId q s₁, s.queue.get = some (taskId, q) ∧
      s₁ = { s with queue := q, queuedTaskIds := s.queuedTaskIds.erase taskId } ∧
      (((∀ r, s.tasks.get taskId = some r → r.state.isTerminal = true ∨
          r.state.isClaim = true ∧ r.claimedBy ≠ some N.nodeId) ∧
        N.workerGet s now leaseNow wallNow suspected nonce = s₁) ∨
      ∃ job, job.taskId = taskId ∧ s.tasks.get taskId = some job.record ∧
        job.record.state.isTerminal = false ∧ N.isActiveClaim job.record now suspected = false ∧
        job.newToken = job.record.fenceToken.nextFor N.nodeId ∧
        job.leaseExp = leaseNow + N.taskLeaseDuration job.record.payload ∧
        N.workerGet s now leaseNow wallNow suspected nonce = N.claimTask s₁ job wallNow nonce) := by
  unfold workerGet
  cases hg : s.queue.get with
  | none => exact Or.inl ⟨BackpressureQueue.get_eq_none.1 hg, rfl⟩
  | some x =>
    obtain ⟨taskId, q⟩ := x
    refine Or.inr ⟨taskId, q, _, rfl, rfl, ?_⟩
    simp only
    cases hr : s.tasks.get taskId with
    | none => exact Or.inl ⟨by simp, rfl⟩
    | some r =>
      simp only
      split_ifs with h1 h2
      · exact Or.inl ⟨fun r' hr' => Or.inl (Option.some.inj hr' ▸ h1), rfl⟩
      · refine Or.inl ⟨fun r' hr' => Or.inr ?_, rfl⟩
        obtain rfl := Option.some.inj hr'
        simp only [isActiveClaim, Bool.and_eq_true, decide_eq_true_eq] at h2
        exact ⟨h2.1.1.1, h2.1.1.2⟩
      · exact Or.inr ⟨_, rfl, rfl, by simpa using h1, by simpa using h2, rfl, rfl, rfl⟩

end

/-! ## Receiving -/

/-- A message is authenticated without touching more than the replay cache. -/
theorem authenticateMessage_state (s : NodeState) (sender : Str) (msg : Message) (wallNow : ℚ) :
    ∃ c, (N.authenticateMessage s sender msg wallNow).1 = { s with messageReplay := c } := by
  unfold authenticateMessage
  split_ifs
  any_goals exact ⟨s.messageReplay, rfl⟩
  split
  any_goals exact ⟨s.messageReplay, rfl⟩
  split
  · split_ifs
    · exact ⟨s.messageReplay, rfl⟩
    · exact ⟨_, rfl⟩
  · exact ⟨s.messageReplay, rfl⟩

/-- The records that come out of the loop's checks. -/
theorem acceptedRecord_iff {sender : Str} {item : Str × Json} {r : TaskRecord} :
    N.acceptedRecord sender item = .ok (some r) ↔ TaskRecord.fromDict item.2 = .ok r ∧
      r.taskId = item.1 ∧ (N.security.enabled = true →
        r.signerId = some sender ∧ verifyTaskAuthorization R r N.keyring = true) := by
  unfold acceptedRecord
  cases hd : TaskRecord.fromDict item.2 with
  | error e => by_cases he : e.isTypeOrValueError = true <;> simp [he]
  | ok x =>
    simp only
    by_cases hid : x.taskId = item.1
    · cases hs : N.security.enabled
      · simp only [hid, ne_eq, not_true_eq_false, if_false, Bool.false_and, Bool.false_eq_true,
          Except.ok.injEq, Option.some.injEq, false_implies, and_true]
        exact ⟨fun h => ⟨h, h ▸ hid⟩, fun h => h.1⟩
      · cases hv : verifyTaskAuthorization R x N.keyring
        · simp only [hid, ne_eq, not_true_eq_false, if_false, Bool.not_false, Bool.or_true,
            Bool.and_true, if_true, Except.ok.injEq, reduceCtorEq, false_iff]
          rintro ⟨rfl, -, h⟩
          rw [hv] at h; exact absurd (h trivial).2 (by simp)
        · by_cases hsg : x.signerId = some sender
          · simp only [hid, hsg, ne_eq, not_true_eq_false, if_false, Bool.not_true, Bool.or_false,
              decide_false, Bool.and_false, Bool.false_eq_true, Except.ok.injEq, Option.some.injEq,
              true_implies]
            refine ⟨?_, fun h => h.1⟩
            rintro rfl; exact ⟨rfl, hid, hsg, hv⟩
          · simp only [hid, hsg, ne_eq, not_true_eq_false, if_false, not_false_eq_true, decide_true,
              Bool.true_or, Bool.and_true, if_true, Except.ok.injEq, reduceCtorEq, false_iff]
            rintro ⟨rfl, -, h⟩
            exact hsg (h trivial).1
    · simp only [ne_eq, hid, not_false_eq_true, if_true, Except.ok.injEq, reduceCtorEq, false_iff]
      rintro ⟨rfl, h, -⟩
      exact hid h

/-- **What a round of the gossip loop does**: nothing but counting, or it takes the received record
    or its merge with the stored one. -/
theorem gossipItem_cases (sender : Str) (s : NodeState) (item : Str × Json) :
    ((N.gossipItem sender s item).1 = s ∨ (N.gossipItem sender s item).1 = s.bump .rejected) ∨
    ∃ remote m, N.acceptedRecord sender item = .ok (some remote) ∧
      (s.tasks.get item.1 = none ∧ s.tasks.size < N.maxTasks ∧ m = remote ∨
        ∃ old, s.tasks.get item.1 = some old ∧
          mergeRecords R old remote N.mergeKeyring = .ok m) ∧
      N.gossipItem sender s item = N.takeRecord s item.1 remote.vectorClock m := by
  unfold gossipItem
  cases ha : N.acceptedRecord sender item with
  | error e => exact Or.inl (Or.inl rfl)
  | ok o =>
    cases o with
    | none => exact Or.inl (Or.inr rfl)
    | some remote =>
      simp only
      cases hg : s.tasks.get item.1 with
      | none =>
        simp only
        split_ifs with hm
        · exact Or.inl (Or.inr rfl)
        · exact Or.inr ⟨remote, remote, rfl, Or.inl ⟨trivial, not_le.1 hm, rfl⟩, rfl⟩
      | some old =>
        simp only
        cases hmr : mergeRecords R old remote N.mergeKeyring with
        | error e => exact Or.inl (Or.inr rfl)
        | ok m => exact Or.inr ⟨remote, m, rfl, Or.inr ⟨old, rfl, hmr⟩, rfl⟩

/-- Queueing a pending task: it is taken into the queue, or nothing happens because it is not
    pending, already queued, or the queue is full. -/
theorem enqueuePending_cases {C : Type} (s : NodeState C) (taskId : Str) (r : TaskRecord) :
    s.enqueuePending taskId r = s ∧
      (r.state = .pending → taskId ∈ s.queuedTaskIds ∨ s.queue.full = true) ∨
    ∃ q, s.queue.put taskId 0 = .ok q ∧ s.enqueuePending taskId r =
      { s with queue := q, queuedTaskIds := insert taskId s.queuedTaskIds } := by
  unfold NodeState.enqueuePending NodeState.tryEnqueue
  split_ifs with h
  · cases hq : s.queue.put taskId 0 with
    | ok q => exact Or.inr ⟨q, rfl, rfl⟩
    | error e =>
      refine Or.inl ⟨rfl, fun _ => Or.inr ?_⟩
      by_contra hf
      rw [Bool.not_eq_true] at hf
      rw [BackpressureQueue.put_ok_iff.2 ⟨hf, rfl⟩] at hq
      exact absurd hq (by simp)
  · exact Or.inl ⟨rfl, fun hp => Or.inl (by simpa [hp] using h)⟩

section
variable (s : NodeState) (taskId : Str) (c : VectorClock) (r : TaskRecord)

/-- The state in which a taken record is logged. -/
theorem takeRecord_eq : ∃ s₁ : NodeState,
    s₁ = { s with toReplica := s.toReplica.store taskId r }.enqueuePending taskId r ∧
    s₁.toReplica = s.toReplica.store taskId r ∧ s₁.worker = s.worker ∧ s₁.reclaim = s.reclaim ∧
    (N.takeRecord s taskId c r).1 = { s₁ with
      toReplica := (N.logUpdate { s₁.toReplica with vectorClock := s₁.vectorClock ⊔ c } r).1 } := by
  refine ⟨_, rfl, ?_⟩
  have hc := enqueuePending_cases { s with toReplica := s.toReplica.store taskId r } taskId r
  rcases hc with ⟨h, -⟩ | ⟨q, -, h⟩ <;> exact ⟨by rw [h], by rw [h], by rw [h], rfl⟩

@[simp] theorem takeRecord_tasks : (N.takeRecord s taskId c r).1.tasks = s.tasks.set taskId r := by
  obtain ⟨s₁, -, h, -, -, h'⟩ := N.takeRecord_eq s taskId c r
  rw [h']
  simp [h, Replica.store]

@[simp] theorem takeRecord_worker : (N.takeRecord s taskId c r).1.worker = s.worker := by
  obtain ⟨s₁, -, -, h, -, h'⟩ := N.takeRecord_eq s taskId c r
  rw [h', ← h]

/-- The replica after a record was taken. -/
theorem takeRecord_replica : (N.takeRecord s taskId c r).1.toReplica =
    (N.logUpdate { s.toReplica.store taskId r with vectorClock := s.vectorClock ⊔ c } r).1 := by
  obtain ⟨s₁, -, h, -, -, h'⟩ := N.takeRecord_eq s taskId c r
  rw [h']
  simp only [h]
  rfl

end

/-- The receive loop, the sent messages, the cache of nonces and the credits are as they were. -/
structure Aside (s s' : NodeState) : Prop where
  receiving : s'.receiving = s.receiving
  sent : s'.sent = s.sent
  messageReplay : s'.messageReplay = s.messageReplay
  credits : s'.credits = s.credits

theorem Aside.refl (s : NodeState) : Aside s s := ⟨rfl, rfl, rfl, rfl⟩

theorem Aside.trans {s₁ s₂ s₃ : NodeState} (h : Aside s₁ s₂) (h' : Aside s₂ s₃) : Aside s₁ s₃ :=
  ⟨h'.receiving.trans h.receiving, h'.sent.trans h.sent, h'.messageReplay.trans h.messageReplay,
    h'.credits.trans h.credits⟩

theorem takeRecord_aside (s : NodeState) (taskId : Str) (c : VectorClock) (r : TaskRecord) :
    Aside s (N.takeRecord s taskId c r).1 := by
  unfold takeRecord NodeState.enqueuePending NodeState.tryEnqueue
  split_ifs
  · split <;> exact ⟨rfl, rfl, rfl, rfl⟩
  · exact ⟨rfl, rfl, rfl, rfl⟩

theorem gossipItem_aside (sender : Str) (s : NodeState) (item : Str × Json) :
    Aside s (N.gossipItem sender s item).1 := by
  rcases N.gossipItem_cases sender s item with (hg | hg) | ⟨remote, m, -, -, hg⟩ <;> rw [hg]
  · exact .refl s
  · exact ⟨rfl, rfl, rfl, rfl⟩
  · exact N.takeRecord_aside _ _ _ _

theorem gossipItems_aside (sender : Str) : ∀ (s : NodeState) (items : Fields),
    Aside s (N.gossipItems sender s items).1
  | s, [] => .refl s
  | s, item :: items => by
    have hi := N.gossipItem_aside sender s item
    unfold gossipItems
    rcases hg : N.gossipItem sender s item with ⟨s₁, _ | e⟩ <;> rw [hg] at hi
    · exact hi.trans (gossipItems_aside sender s₁ items)
    · exact hi

/-- Processing a message leaves the receive loop going until it returns, sends nothing, and changes
    the cache only by authenticating the message. -/
theorem recvMessage_aside (s : NodeState) (sender : Str) (msg : Message) (wallNow : ℚ) :
    (N.recvMessage s sender msg wallNow).1.receiving = s.receiving ∧
      (N.recvMessage s sender msg wallNow).1.sent = s.sent ∧
      (N.recvMessage s sender msg wallNow).1.messageReplay =
        (N.authenticateMessage s sender msg wallNow).1.messageReplay := by
  obtain ⟨c, hc⟩ := N.authenticateMessage_state s sender msg wallNow
  unfold recvMessage
  rcases ha : N.authenticateMessage s sender msg wallNow with ⟨s₁, e | _ | _⟩ <;> rw [ha] at hc <;>
    obtain rfl : s₁ = _ := hc
  · exact ⟨rfl, rfl, rfl⟩
  · exact ⟨rfl, rfl, rfl⟩
  · simp only
    split_ifs
    · split
      · split_ifs
        · exact ⟨rfl, rfl, rfl⟩
        · obtain ⟨h1, h2, h3, -⟩ := N.gossipItems_aside sender _ _
          exact ⟨h1, h2, h3⟩
      · exact ⟨rfl, rfl, rfl⟩
    · split
      · split_ifs <;> exact ⟨rfl, rfl, rfl⟩
      · exact ⟨rfl, rfl, rfl⟩
    · exact ⟨rfl, rfl, rfl⟩

/-! ## Messages and rounds -/

/-- Nothing but caches, credits, counters, flags and sent messages differs. -/
structure Quiet (s s' : NodeState) : Prop where
  replica : s'.toReplica = s.toReplica
  queue : s'.queue = s.queue
  queued : s'.queuedTaskIds = s.queuedTaskIds
  worker : s'.worker = s.worker
  reclaim : s'.reclaim = s.reclaim

theorem Quiet.refl (s : NodeState) : Quiet s s := ⟨rfl, rfl, rfl, rfl, rfl⟩

theorem Quiet.bump (s : NodeState) (m : Metric) : Quiet s (s.bump m) := ⟨rfl, rfl, rfl, rfl, rfl⟩

/-- The tasks of a message that the receive loop goes through, with the state it starts in. -/
def gossipBatch (s : NodeState) (sender : Str) (msg : Message) (wallNow : ℚ) :
    Option (NodeState × Fields) :=
  match N.authenticateMessage s sender msg wallNow with
  | (s, .ok true) =>
    if msg.msgType = str "gossip" then
      match (lookup (str "tasks") msg.payload).getD (.obj []) with
      | .obj rawTasks =>
        if N.security.maxGossipTasks < rawTasks.length then none else some (s, rawTasks)
      | _ => none
    else none
  | _ => none

/-- **What a message does**: the loop goes through its tasks, or nothing of note happens. -/
theorem recvMessage_cases (s : NodeState) (sender : Str) (msg : Message) (wallNow : ℚ) :
    (N.gossipBatch s sender msg wallNow = none ∧
      Quiet s (N.recvMessage s sender msg wallNow).1) ∨
    ∃ s₁ items, N.gossipBatch s sender msg wallNow = some (s₁, items) ∧ Quiet s s₁ ∧
      N.recvMessage s sender msg wallNow = N.gossipItems sender s₁ items := by
  obtain ⟨c, hc⟩ := N.authenticateMessage_state s sender msg wallNow
  unfold gossipBatch recvMessage
  cases ha : N.authenticateMessage s sender msg wallNow with
  | mk s₁ o =>
    rw [ha] at hc
    simp only at hc
    have hq : Quiet s s₁ := hc ▸ ⟨rfl, rfl, rfl, rfl, rfl⟩
    have hqb : Quiet s (s₁.bump .rejected) := hc ▸ ⟨rfl, rfl, rfl, rfl, rfl⟩
    match o with
    | .error e => exact Or.inl ⟨rfl, hq⟩
    | .ok false => exact Or.inl ⟨rfl, hqb⟩
    | .ok true =>
      simp only
      by_cases hg : msg.msgType = str "gossip"
      · rw [if_pos hg, if_pos hg]
        cases (lookup (str "tasks") msg.payload).getD (.obj []) with
        | obj rawTasks =>
          simp only
          split_ifs with hl
          · exact Or.inl ⟨rfl, hqb⟩
          · exact Or.inr ⟨s₁, rawTasks, rfl, hq, rfl⟩
        | _ => exact Or.inl ⟨rfl, hqb⟩
      · rw [if_neg hg, if_neg hg]
        refine Or.inl ⟨rfl, ?_⟩
        split_ifs
        · split
          · split_ifs
            · exact hqb
            · exact hc ▸ ⟨rfl, rfl, rfl, rfl, rfl⟩
          · exact hqb
        · exact hq

/-- Every round of the loop over a message's tasks meets `P`; an exception ends the loop. -/
def Rounds (P : NodeState → Str × Json → Prop) (sender : Str) : NodeState → Fields → Prop
  | _, [] => True
  | s, item :: items => P s item ∧ ((N.gossipItem sender s item).2 = none →
      Rounds P sender (N.gossipItem sender s item).1 items)

/-- Every round that the message causes meets `P`. -/
def MessageRounds (P : Str → NodeState → Str × Json → Prop) (s : NodeState) (sender : Str)
    (msg : Message) (wallNow : ℚ) : Prop :=
  s.receiving = true → ∀ s₁ items, N.gossipBatch s sender msg wallNow = some (s₁, items) →
    N.Rounds (P sender) sender s₁ items

section
variable {N} {P Q : Str → NodeState → Str × Json → Prop} {I : NodeState → Prop}

theorem Rounds.congr {sender : Str} (h : ∀ s i, P sender s i ↔ Q sender s i) :
    ∀ {items : Fields} {s : NodeState}, N.Rounds (P sender) sender s items ↔
      N.Rounds (Q sender) sender s items
  | [], _ => Iff.rfl
  | _ :: _, _ => and_congr (h _ _) (imp_congr_right fun _ => Rounds.congr h)

theorem Rounds.of_forall {P : Str × Json → Prop} {sender : Str} : ∀ {items : Fields} {s : NodeState},
    (∀ i ∈ items, P i) → N.Rounds (fun _ => P) sender s items
  | [], _, _ => trivial
  | _ :: _, _, h => ⟨h _ (by simp), fun _ => Rounds.of_forall fun i hi => h i (by simp [hi])⟩

/-- An invariant of the rounds is one of the loop. -/
theorem Rounds.invariant {sender : Str}
    (h : ∀ s i, I s → P sender s i → I (N.gossipItem sender s i).1) :
    ∀ {items : Fields} {s : NodeState}, I s → N.Rounds (P sender) sender s items →
      I (N.gossipItems sender s items).1
  | [], _, hs, _ => hs
  | i :: items, s, hs, ⟨hp, hr⟩ => by
    have hi := h s i hs hp
    unfold gossipItems
    cases hg : N.gossipItem sender s i with
    | mk s₁ o =>
      rw [hg] at hi hr
      cases o with
      | some e => exact hi
      | none => exact Rounds.invariant h hi (hr rfl)

/-- An invariant of the rounds that does not depend on counters is one of receiving. -/
theorem step_recv_invariant (hq : ∀ s s', Quiet s s' → I s → I s')
    (h : ∀ sender s i, I s → P sender s i → I (N.gossipItem sender s i).1)
    {s : NodeState} {sender : Str} {msg : Message} {wallNow : ℚ} (hs : I s)
    (hr : N.MessageRounds P s sender msg wallNow) : I (N.step s (.recv sender msg wallNow)) := by
  have hafter : ∀ x : NodeState × Option Exn, I x.1 → I (afterRecv x) := by
    rintro ⟨s₁, o⟩ hx
    cases o with
    | none => exact hx
    | some e => exact hq s₁ _ ⟨rfl, rfl, rfl, rfl, rfl⟩ hx
  simp only [step]
  split_ifs with hrecv
  · apply hafter
    rcases N.recvMessage_cases s sender msg wallNow with ⟨-, hc⟩ | ⟨s₁, items, hb, hc, he⟩
    · exact hq _ _ hc hs
    · rw [he]
      exact Rounds.invariant (h sender) (hq _ _ hc hs) (hr hrecv _ _ hb)
  · exact hs

end

theorem step_recv_worker (s : NodeState) (sender : Str) (msg : Message) (wallNow : ℚ) :
    (N.step s (.recv sender msg wallNow)).worker = s.worker := by
  refine step_recv_invariant (I := fun s' => s'.worker = s.worker) (P := fun _ _ _ => True)
    (fun _ _ hq h => hq.worker.trans h) (fun sender s' i h _ => ?_) rfl fun _ _ items _ => ?_
  · rcases N.gossipItem_cases sender s' i with (hg | hg) | ⟨remote, m, -, -, hg⟩
    · rw [hg, h]
    · rw [hg]; exact h
    · rw [hg, takeRecord_worker, h]
  · exact Rounds.of_forall fun _ _ => trivial

/-! ## Sweeps -/

variable {N} in
theorem reclaimable_unfinished {r : TaskRecord} {now : ℚ} {suspected : Str → Bool}
    (hr : N.reclaimable r now suspected = true) : r.state.isTerminal = false := by
  simp only [reclaimable, Bool.and_eq_true] at hr
  have hc := hr.1.1.1
  cases hs : r.state <;> rw [hs] at hc <;> first | rfl | cases hc

/-- What a sweep keeps: `J` of the state and the rest of the snapshot while it goes on, and `I`
    where it ends or is suspended. -/
theorem sweep_invariant {I : NodeState → Prop} {J : NodeState → List (Str × TaskRecord) → Prop}
    {now wallNow : ℚ} {livePeers : List Str} {suspected : Str → Bool} {nonce : Str}
    (hskip : ∀ s e l, J s (e :: l) → J s l)
    (hbump : ∀ s m l, J s l → J (s.bump m) l)
    (hqueue : N.hasHandler = true → ∀ s t l, t ∉ s.queuedTaskIds → J s l → J (s.tryEnqueue t 10) l)
    (hreset : N.hasHandler = false → ∀ s t r l, r.state.isClaim = true → J s ((t, r) :: l) →
      J { s with toReplica := (N.localUpdate s.toReplica t (N.resetRecord t r)).1 } l)
    (hsleep : ∀ s, J s [] → I { s with reclaim := .sleeping })
    (hstop : ∀ s l, J s l → I { s with reclaim := .stopped })
    (hsend : N.hasHandler = false → ∀ s l p msg rest, J s l →
      I { s.send p msg with reclaim := .resetting msg rest now livePeers l }) :
    ∀ (l : List (Str × TaskRecord)) (s : NodeState), J s l →
      I (N.sweep now livePeers suspected wallNow nonce s l)
  | [], s, h => hsleep s h
  | (t, r) :: l, s, h => by
    have ih : ∀ s, J s l → I (N.sweep now livePeers suspected wallNow nonce s l) :=
      sweep_invariant hskip hbump hqueue hreset hsleep hstop hsend l
    unfold sweep
    by_cases hr : N.reclaimable r now suspected = true
    swap
    · rw [if_pos (by simpa using hr)]; exact ih s (hskip _ _ _ h)
    rw [if_neg (by simpa using hr)]
    cases rendezvousReclaimer R t livePeers with
    | error e => exact hstop _ _ h
    | ok elected =>
    by_cases he : elected = some N.nodeId
    swap
    · simp only [ne_eq, he, not_false_eq_true, if_true]; exact ih s (hskip _ _ _ h)
    simp only [he, ne_eq, not_true_eq_false, if_false]
    cases hh : N.hasHandler with
    | true =>
      simp only [if_true]
      split_ifs with hqueued
      · exact ih _ (hbump _ _ _ (hskip _ _ _ h))
      · exact ih _ (hqueue hh _ _ _ hqueued (hbump _ _ _ (hskip _ _ _ h)))
    | false =>
      -- a reset: one local update, then the first send
      have hclaim : r.state.isClaim = true := by
        simp only [reclaimable, Bool.and_eq_true] at hr
        exact hr.1.1.1
      have hres := hreset hh _ t r l hclaim (hbump s .reclaimed _ h)
      obtain ⟨m, hb⟩ := N.broadcastTaskUpdate_eq (s.bump .reclaimed) wallNow nonce
        (N.tick s.toReplica) t (N.sealRecord_resetRecord r t _)
      simp only [NodeState.bump, Bool.false_eq_true, if_false] at hb hres ⊢
      rw [hb]
      cases m with
      | error e => exact hstop _ _ hres
      | ok msg =>
        cases N.peers with
        | nil => exact ih _ hres
        | cons p rest => exact hsend hh _ _ _ _ _ hres

/-- On a node with a handler a sweep leaves the replica and the worker alone. -/
theorem sweep_replica (hh : N.hasHandler = true) {now wallNow : ℚ} {livePeers : List Str}
    {suspected : Str → Bool} {nonce : Str} (s : NodeState) (l : List (Str × TaskRecord)) :
    (N.sweep now livePeers suspected wallNow nonce s l).toReplica = s.toReplica ∧
      (N.sweep now livePeers suspected wallNow nonce s l).worker = s.worker := by
  have henq : ∀ (s' : NodeState) (t : Str), (s'.tryEnqueue t 10).toReplica = s'.toReplica ∧
      (s'.tryEnqueue t 10).worker = s'.worker := by
    intro s' t
    unfold NodeState.tryEnqueue
    split <;> exact ⟨rfl, rfl⟩
  refine N.sweep_invariant (I := fun s' => s'.toReplica = s.toReplica ∧ s'.worker = s.worker)
    (J := fun s' _ => s'.toReplica = s.toReplica ∧ s'.worker = s.worker)
    (fun _ _ _ h => h) (fun _ _ _ h => h)
    (fun _ s' t _ _ h => ⟨(henq s' t).1.trans h.1, (henq s' t).2.trans h.2⟩)
    (fun hf => absurd (hh.symm.trans hf) (by simp)) (fun _ h => h) (fun _ _ h => h)
    (fun hf => absurd (hh.symm.trans hf) (by simp)) l s ⟨rfl, rfl⟩

/-- The same for the steps of the reclaim loop. -/
theorem step_reclaim_replica (hh : N.hasHandler = true) (s : NodeState) (now wallNow : ℚ)
    (suspected : Str → Bool) (nonce : Str) :
    ((N.step s (.reclaimSweep now wallNow suspected nonce)).toReplica = s.toReplica ∧
      (N.step s (.reclaimSweep now wallNow suspected nonce)).worker = s.worker) ∧
    (N.step s (.reclaimSent wallNow suspected nonce)).toReplica = s.toReplica ∧
      (N.step s (.reclaimSent wallNow suspected nonce)).worker = s.worker := by
  simp only [step, reclaimSweep, reclaimSent]
  constructor
  · split
    · exact N.sweep_replica hh _ _
    · exact ⟨rfl, rfl⟩
  · split
    · exact N.sweep_replica hh _ _
    · exact ⟨rfl, rfl⟩
    · exact ⟨rfl, rfl⟩

/-! ## Starting -/

/-- What recovery makes of a log: the replica after its last record. -/
def recovered (W : WriteAheadLog) (file : Bytes) (journal : List LogEntry) : Replica :=
  (N.recoverRecords (N.opened file (journal.take (W.replay R false file).1.length)).toReplica
    (W.replay R false file).1).1

/-- **What starting a node leads to**: without a log an empty node, else the recovered replica, with
    the pending tasks queued if nothing was raised. -/
theorem boot_cases (file : Option Bytes) (journal : List LogEntry) :
    (N.wal = none ∧ N.boot file journal = N.startLoops { N.fresh with up := true }) ∨
    ∃ W, N.wal = some W ∧ ((∃ e, W.openFile file = .error e) ∧
        N.boot file journal = { N.fresh with walFile := file } ∨
      ∃ f s, W.openFile file = .ok f ∧
        s = { N.opened f (journal.take (W.replay R false f).1.length) with
          toReplica := N.recovered W f journal } ∧
        (N.boot file journal = s ∨ N.boot file journal = N.startLoops (requeuePending s))) := by
  unfold boot
  cases hw : N.wal with
  | none => exact Or.inl ⟨rfl, rfl⟩
  | some W =>
    refine Or.inr ⟨W, rfl, ?_⟩
    simp only
    cases ho : W.openFile file with
    | error e => exact Or.inl ⟨⟨e, rfl⟩, rfl⟩
    | ok f =>
      refine Or.inr ⟨f, _, rfl, rfl, ?_⟩
      simp only [recover]
      cases (N.recoverRecords (N.opened f (journal.take (W.replay R false f).1.length)).toReplica
        (W.replay R false f).1).2 with
      | some e => exact Or.inl rfl
      | none =>
        cases (W.replay R false f).2 with
        | some e => exact Or.inl rfl
        | none => exact Or.inr rfl

/-- Queueing the recovered tasks changes the queue only. -/
theorem requeuePending_eq {C : Type} (s : NodeState C) : ∃ q ids,
    requeuePending s = { s with queue := q, queuedTaskIds := ids } := by
  have hfold : ∀ (l : List (Str × TaskRecord)) (s : NodeState C), ∃ q ids,
      l.foldl (fun s e => s.enqueuePending e.1 e.2) s =
        { s with queue := q, queuedTaskIds := ids } := by
    intro l
    induction l with
    | nil => intro s; exact ⟨s.queue, s.queuedTaskIds, rfl⟩
    | cons e l ih =>
      intro s
      rw [List.foldl_cons]
      rcases enqueuePending_cases s e.1 e.2 with ⟨h, -⟩ | ⟨q, -, h⟩ <;> rw [h]
      · exact ih s
      · obtain ⟨q', ids, h'⟩ := ih { s with queue := q, queuedTaskIds := insert e.1 s.queuedTaskIds }
        exact ⟨q', ids, h'⟩
  exact hfold _ _

theorem requeuePending_replica {C : Type} (s : NodeState C) :
    (requeuePending s).toReplica = s.toReplica := by
  obtain ⟨q, ids, h⟩ := requeuePending_eq s
  rw [h]

/-- A started node is a fresh one but for its replica and its queue, without its loops or with
    them. -/
theorem boot_fresh (file : Option Bytes) (journal : List LogEntry) : ∃ p q ids up s,
    s = { N.fresh with toReplica := p, queue := q, queuedTaskIds := ids, up := up } ∧
      (N.boot file journal = s ∨ N.boot file journal = N.startLoops s) := by
  obtain ⟨-, hb⟩ | ⟨W, -, ⟨-, hb⟩ | ⟨f, s, -, rfl, hb | hb⟩⟩ := N.boot_cases file journal
  · exact ⟨_, _, _, _, _, rfl, Or.inr hb⟩
  · exact ⟨_, _, _, _, _, rfl, Or.inl hb⟩
  · exact ⟨_, _, _, _, _, rfl, Or.inl hb⟩
  · obtain ⟨q, ids, h⟩ := requeuePending_eq { N.opened f (journal.take (W.replay R false f).1.length)
      with toReplica := N.recovered W f journal }
    rw [h] at hb
    exact ⟨_, _, _, _, _, rfl, Or.inr hb⟩

/-- The replica of a started node. -/
theorem boot_replica (file : Option Bytes) (journal : List LogEntry) :
    (N.wal = none ∧ (N.boot file journal).toReplica = N.fresh.toReplica) ∨
    ∃ W, N.wal = some W ∧ ((∃ e, W.openFile file = .error e) ∧
        (N.boot file journal).toReplica = { N.fresh.toReplica with walFile := file } ∨
      ∃ f, W.openFile file = .ok f ∧ (N.boot file journal).toReplica = N.recovered W f journal) := by
  rcases N.boot_cases file journal with ⟨hw, hb⟩ | ⟨W, hw, ⟨he, hb⟩ | ⟨f, s, ho, rfl, hb | hb⟩⟩
  · exact Or.inl ⟨hw, by rw [hb]; rfl⟩
  · exact Or.inr ⟨W, hw, Or.inl ⟨he, by rw [hb]⟩⟩
  · exact Or.inr ⟨W, hw, Or.inr ⟨f, ho, by rw [hb]⟩⟩
  · exact Or.inr ⟨W, hw, Or.inr ⟨f, ho, by rw [hb]; exact requeuePending_replica _⟩⟩

/-! ## Gossip and heartbeats -/

theorem step_gossipRound_quiet (s : NodeState) (partner : Str) (wallNow : ℚ) (nonce : Str) :
    Quiet s (N.step s (.gossipRound partner wallNow nonce)) := by
  simp only [step, gossipRound]
  split_ifs
  · exact .refl s
  · split <;> exact ⟨rfl, rfl, rfl, rfl, rfl⟩
  · exact .refl s

theorem step_heartbeatRound_quiet (s : NodeState) (now wallNow : ℚ) (nonce : Str) :
    Quiet s (N.step s (.heartbeatRound now wallNow nonce)) := by
  simp only [step, heartbeatRound]
  split_ifs
  · split <;> exact ⟨rfl, rfl, rfl, rfl, rfl⟩
  · exact .refl s

/-! ## Local steps -/

/-- A job for a stored task that is not finished, with the next token. -/
structure JobFor (p : Replica) (job : Job) : Prop where
  stored : p.tasks.get job.taskId = some job.record
  unfinished : job.record.state.isTerminal = false
  token : job.newToken = job.record.fenceToken.nextFor N.nodeId

/-- The steps that are not about received records, reclaiming or restarts. -/
def Event.isLocal : Event → Bool
  | .recv .. | .reclaimSweep .. | .reclaimSent .. | .restart _ => false
  | _ => true

theorem Event.restart_or (e : Event) : (∃ cut, e = .restart cut) ∨ ∀ cut, e ≠ .restart cut := by
  by_cases h : ∃ cut, e = .restart cut
  · exact .inl h
  · exact .inr fun cut hcut => h ⟨cut, hcut⟩

/-- What a local step can do to the replica. -/
inductive LocalStep (s : NodeState) : Event → Replica → Prop
  | idle (e : Event) : LocalStep s e s.toReplica
  | submit (taskId : Str) (payload : Bytes) (priority : ℤ)
      (id_ok : taskId ≠ [] ∧ taskId.length ≤ maxTaskIdLength)
      (payload_ok : payload.length ≤ maxTaskPayload)
      (room : s.tasks.has taskId = true ∨ s.tasks.size < N.maxTasks) :
      LocalStep s (.submit taskId payload priority)
        (N.localUpdate s.toReplica taskId (N.submitRecord taskId payload)).1
  | claim (now leaseNow wallNow : ℚ) (suspected : Str → Bool) (nonce : Str) (job : Job)
      (hjob : N.JobFor s.toReplica job) :
      LocalStep s (.workerGet now leaseNow wallNow suspected nonce)
        (N.localUpdate s.toReplica job.taskId (N.claimRecord job .claimed)).1
  | claimRun (now leaseNow wallNow : ℚ) (suspected : Str → Bool) (nonce : Str) (job : Job)
      (p : Replica) (hjob : N.JobFor s.toReplica job)
      (hp : p = (N.localUpdate s.toReplica job.taskId (N.claimRecord job .claimed)).1) :
      LocalStep s (.workerGet now leaseNow wallNow suspected nonce)
        (p.store job.taskId (N.claimRecord job .running p.vectorClock))
  | run (wallNow : ℚ) (nonce : Str) (job : Job) (msg : Message)
      (hw : s.worker = .claiming job msg []) :
      LocalStep s (.workerSent wallNow nonce)
        (s.toReplica.store job.taskId (N.claimRecord job .running s.vectorClock))
  | commit (outcome : Except Str Bytes) (now wallNow : ℚ) (nonce : Str) (job : Job)
      (hw : s.worker = .handling job) (fresh : superseded s job = false) :
      LocalStep s (.handlerDone outcome now wallNow nonce)
        (N.localUpdate s.toReplica job.taskId (N.commitRecord job outcome)).1

theorem finishCommit_replica (s : NodeState) (job : Job) (st : TaskState) (wallNow : ℚ)
    (nonce : Str) : (N.finishCommit s job st wallNow nonce).toReplica = s.toReplica := by
  obtain ⟨s₁, h, -, -, -, hf | hf | hf⟩ := N.finishCommit_cases s wallNow nonce job st <;>
    rw [hf] <;> exact h

/-- **What a local step does to the replica.** -/
theorem step_local (s : NodeState) {e : Event} (he : e.isLocal = true) :
    N.LocalStep s e (N.step s e).toReplica := by
  cases e with
  | submit taskId payload priority =>
    simp only [step]
    split_ifs
    · obtain ⟨-, _, h | h⟩ | ⟨⟨h1, h2, h3⟩, x, s₁, rfl, rfl, ⟨_, -, h⟩ | ⟨_, -, -, h⟩ | ⟨q, -, -, h⟩⟩ :=
        N.submitTask_cases s taskId payload priority <;> rw [h]
      · exact .idle _
      · exact .idle _
      all_goals exact .submit taskId payload priority h1 h2 h3
    · exact .idle _
  | workerGet now leaseNow wallNow suspected nonce =>
    simp only [step]
    split
    swap; · exact .idle _
    obtain ⟨-, h⟩ | ⟨taskId, q, s₁, -, rfl, ⟨-, h⟩ | ⟨job, rfl, hst, hterm, -, htok, -, h⟩⟩ :=
      N.workerGet_cases s wallNow nonce now leaseNow suspected <;> rw [h]
    · exact .idle _
    · exact .idle _
    · obtain ⟨x, s₂, rfl, rfl, hc | hc | ⟨p, msg, rest, hc⟩⟩ := N.claimTask_cases
        { s with queue := q, queuedTaskIds := s.queuedTaskIds.erase job.taskId } wallNow nonce job <;>
        rw [hc]
      · exact .claim now leaseNow wallNow suspected nonce job ⟨hst, hterm, htok⟩
      · exact .claimRun now leaseNow wallNow suspected nonce job _ ⟨hst, hterm, htok⟩ rfl
      · exact .claim now leaseNow wallNow suspected nonce job ⟨hst, hterm, htok⟩
  | workerSent wallNow nonce =>
    simp only [step, workerSent]
    split
    · next job msg hw => exact .run wallNow nonce job msg hw
    · exact .idle _
    · rw [finishCommit_replica]; exact .idle _
    all_goals exact .idle _
  | handlerDone outcome now wallNow nonce =>
    simp only [step, handlerDone]
    split
    swap; · exact .idle _
    next job hw =>
    split_ifs with h1 h2
    · exact .idle _
    · exact .idle _
    · have hc : (N.commitTask s job outcome wallNow nonce).toReplica =
          (N.localUpdate s.toReplica job.taskId (N.commitRecord job outcome)).1 := by
        obtain ⟨x, s₁, st, rfl, rfl, h | h | ⟨p, msg, rest, h⟩⟩ :=
          N.commitTask_cases s wallNow nonce job outcome <;> rw [h]
        · rw [finishCommit_replica]
        · rfl
      rw [hc]
      exact .commit outcome now wallNow nonce job hw (by simpa using h2)
  | gossipRound partner wallNow nonce =>
    rw [(N.step_gossipRound_quiet s partner wallNow nonce).replica]; exact .idle _
  | heartbeatRound now wallNow nonce =>
    rw [(N.step_heartbeatRound_quiet s now wallNow nonce).replica]; exact .idle _
  | _ => simp [Event.isLocal] at he

end PeerNode

end PeerQ
