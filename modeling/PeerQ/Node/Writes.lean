/-
  The writes of a step: what a node assigns to its store, one after the other.

  Every assignment to the store is made by a submission, a claim, the start of a
  handler, a commit, a reset or the acceptance of a received record (`Write`).
  A step other than a restart is a sequence of writes, each made under the checks
  of the code at the replica it finds (`Made`, `step_makes`).  Invariants of the
  store and of the log are proved of one write.
-/
import PeerQ.Node.Effects

namespace PeerQ

open Py

/-- An assignment to the store, by the code that makes it. -/
inductive Write where
  | submit (taskId : Str) (payload : Bytes)
  | claim (job : Job)
  | run (job : Job)
  | commit (job : Job) (outcome : Except Str Bytes)
  | reset (taskId : Str) (record : TaskRecord)
  | take (taskId : Str) (remote merged : TaskRecord)

/-- The task that is written. -/
def Write.taskId : Write → Str
  | .submit t _ | .reset t _ | .take t _ _ => t
  | .claim job | .run job | .commit job _ => job.taskId

/-- The node makes the record itself. -/
def Write.own : Write → Bool
  | .take .. => false
  | _ => true

/-- The rest of the snapshot that a suspended sweep works through. -/
def Reclaim.snapshot : Reclaim → List (Str × TaskRecord)
  | .resetting _ _ _ _ snapshot => snapshot
  | _ => []

/-- The snapshot names no task twice. -/
def Reclaim.Distinct (l : Reclaim) : Prop := (l.snapshot.map Prod.fst).Nodup

namespace PeerNode

variable {R : Runtime} (N : PeerNode R)

/-! ## One write -/

/-- The clock of the node after a write. -/
def writeClock (c : VectorClock) : Write → VectorClock
  | .run _ => c
  | .take _ remote _ => c ⊔ remote.vectorClock
  | _ => c.increment N.nodeId

/-- The record that is written, made with the clock `c`. -/
def written (c : VectorClock) : Write → TaskRecord
  | .submit t payload => N.submitRecord t payload c
  | .claim job => N.claimRecord job .claimed c
  | .run job => N.claimRecord job .running c
  | .commit job outcome => N.commitRecord job outcome c
  | .reset t record => N.resetRecord t record c
  | .take _ _ merged => merged

/-- The store and the clock after a write, before it is logged. -/
def assigned (p : Replica) (w : Write) : Replica :=
  { p with tasks := p.tasks.set w.taskId (N.written (N.writeClock p.vectorClock w) w)
           vectorClock := N.writeClock p.vectorClock w }

/-- The replica after a write; the start of a handler is not logged. -/
def write (p : Replica) (w : Write) : Replica :=
  match w with
  | .run _ => N.assigned p w
  | _ => (N.logUpdate (N.assigned p w) (N.written (N.writeClock p.vectorClock w) w)).1

section
variable (p : Replica) (w : Write)

@[simp] theorem write_tasks : (N.write p w).tasks =
    p.tasks.set w.taskId (N.written (N.writeClock p.vectorClock w) w) := by
  cases w <;> simp [write, assigned]

@[simp] theorem write_vectorClock : (N.write p w).vectorClock = N.writeClock p.vectorClock w := by
  cases w <;> simp [write, assigned]

theorem write_get (t : Str) : (N.write p w).tasks.get t = if w.taskId = t then
    some (N.written (N.writeClock p.vectorClock w) w) else p.tasks.get t := by
  rw [write_tasks, Dict.get_set]

/-- A write is the assignment, logged or not. -/
theorem write_cases : N.write p w = N.assigned p w ∨
    N.write p w = (N.logUpdate (N.assigned p w) (N.written (N.writeClock p.vectorClock w) w)).1 := by
  cases w
  case run => exact Or.inl rfl
  all_goals exact Or.inr rfl

theorem write_has (t : Str) :
    (N.write p w).tasks.has t = (p.tasks.has t || decide (w.taskId = t)) := by
  unfold Dict.has
  rw [write_get]
  split_ifs with h <;> simp [h]

theorem le_writeClock (c : VectorClock) : c ≤ N.writeClock c w := by
  cases w
  case run => exact le_rfl
  case take => exact le_sup_left
  all_goals exact Counters.le_increment _ _

/-- A record a node makes carries the clock it is made with. -/
theorem written_clock (c : VectorClock) (hw : w.own = true) :
    (N.written c w).vectorClock = c := by
  cases w
  case take => cases hw
  all_goals exact N.sealRecord_vectorClock _

end

/-! ## The writes of each step -/

/-- The write of a submission. -/
def submitWrites (s : NodeState) (taskId : Str) (payload : Bytes) : List Write :=
  if taskId = [] ∨ maxTaskIdLength < taskId.length then []
  else if maxTaskPayload < payload.length then []
  else if !s.tasks.has taskId && N.maxTasks ≤ s.tasks.size then []
  else [.submit taskId payload]

/-- The write of a round of the gossip loop. -/
def itemWrites (sender : Str) (s : NodeState) (item : Str × Json) : List Write :=
  match N.acceptedRecord sender item with
  | .ok (some remote) =>
    match s.tasks.get item.1 with
    | none => if N.maxTasks ≤ s.tasks.size then [] else [.take item.1 remote remote]
    | some old =>
      match mergeRecords R old remote N.mergeKeyring with
      | .error _ => []
      | .ok merged => [.take item.1 remote merged]
  | _ => []

/-- The writes of the gossip loop. -/
def itemsWrites (sender : Str) : NodeState → Fields → List Write
  | _, [] => []
  | s, item :: items => N.itemWrites sender s item ++
    match N.gossipItem sender s item with
    | (s, none) => itemsWrites sender s items
    | (_, some _) => []

/-- The writes of a received message. -/
def messageWrites (s : NodeState) (sender : Str) (msg : Message) (wallNow : ℚ) : List Write :=
  match N.gossipBatch s sender msg wallNow with
  | some (s, items) => N.itemsWrites sender s items
  | none => []

/-- The writes of a claim; without peers the handler starts at once. -/
def claimWrites (s : NodeState) (job : Job) (wallNow : ℚ) (nonce : Str) : List Write :=
  match (N.claimTask s job wallNow nonce).worker with
  | .handling _ => [.claim job, .run job]
  | _ => [.claim job]

/-- The writes when the worker takes a task. -/
def getWrites (s : NodeState) (now leaseNow wallNow : ℚ) (suspected : Str → Bool) (nonce : Str) :
    List Write :=
  match s.queue.get with
  | none => []
  | some (taskId, queue) =>
    match s.tasks.get taskId with
    | none => []
    | some record =>
      if record.state.isTerminal then []
      else if N.isActiveClaim record now suspected then []
      else N.claimWrites { s with queue, queuedTaskIds := s.queuedTaskIds.erase taskId }
        ⟨taskId, record, record.fenceToken.nextFor N.nodeId,
          leaseNow + N.taskLeaseDuration record.payload⟩ wallNow nonce

/-- The write of the end of a handler. -/
def doneWrites (s : NodeState) (outcome : Except Str Bytes) (now : ℚ) : List Write :=
  match s.worker with
  | .handling job =>
    if job.leaseExp < now then [] else if superseded s job then [] else [.commit job outcome]
  | _ => []

/-- The writes of a sweep. -/
def sweepWrites (now : ℚ) (livePeers : List Str) (suspected : Str → Bool) (wallNow : ℚ)
    (nonce : Str) : NodeState → List (Str × TaskRecord) → List Write
  | _, [] => []
  | s, (taskId, record) :: snapshot =>
    if !N.reclaimable record now suspected then
      sweepWrites now livePeers suspected wallNow nonce s snapshot
    else match rendezvousReclaimer R taskId livePeers with
      | .error _ => []
      | .ok elected =>
        if elected ≠ some N.nodeId ∨ N.hasHandler then
          sweepWrites now livePeers suspected wallNow nonce s snapshot
        else
          let s := s.bump .reclaimed
          let p := N.tick s.toReplica
          let reset := N.resetRecord taskId record p.vectorClock
          let x := N.broadcastTaskUpdate { s with toReplica := p.store taskId reset } taskId reset
            wallNow nonce
          .reset taskId record :: match x.2, N.peers with
            | .ok _, [] => sweepWrites now livePeers suspected wallNow nonce x.1 snapshot
            | _, _ => []

/-- The writes of a step, in the order in which it makes them. -/
def writes (s : NodeState) : Event → List Write
  | .submit taskId payload _ => if s.up then N.submitWrites s taskId payload else []
  | .recv sender msg wallNow => if s.receiving then N.messageWrites s sender msg wallNow else []
  | .workerGet now leaseNow wallNow suspected nonce =>
    match s.worker with
    | .waiting => N.getWrites s now leaseNow wallNow suspected nonce
    | _ => []
  | .workerSent _ _ =>
    match s.worker with
    | .claiming job _ [] => [.run job]
    | _ => []
  | .handlerDone outcome now _ _ => doneWrites s outcome now
  | .reclaimSweep now wallNow suspected nonce =>
    match s.reclaim with
    | .sleeping => N.sweepWrites now (N.nodeId :: N.peers.filter fun p => !suspected p) suspected
        wallNow nonce s s.tasks.entries
    | _ => []
  | .reclaimSent wallNow suspected nonce =>
    match s.reclaim with
    | .resetting _ [] now livePeers snapshot =>
      N.sweepWrites now livePeers suspected wallNow nonce s snapshot
    | _ => []
  | .gossipRound .. | .heartbeatRound .. | .restart _ => []

/-! ## A step is its writes -/

/-- The writes are made one after the other, each under the condition `P`, and lead to `q`. -/
structure Makes (P : Replica → Write → Prop) (p : Replica) (ws : List Write) (q : Replica) :
    Prop where
  made : Along P N.write p ws
  result : q = run N.write p ws

section
variable {N} {P : Replica → Write → Prop} {p q q' : Replica} {ws vs : List Write}

theorem Makes.nil (p : Replica) : N.Makes P p [] p := ⟨trivial, rfl⟩

theorem Makes.one {w : Write} (hw : P p w) : N.Makes P p [w] (N.write p w) := ⟨⟨hw, trivial⟩, rfl⟩

theorem Makes.append (h : N.Makes P p ws q) (h' : N.Makes P q vs q') :
    N.Makes P p (ws ++ vs) q' :=
  ⟨Along.append.2 ⟨h.made, h.result ▸ h'.made⟩, by rw [run_append, ← h.result]; exact h'.result⟩

/-- An invariant of the writes under `P` is kept. -/
theorem Makes.invariant {I : Replica → Prop} (h : N.Makes P p ws q)
    (hI : ∀ p w, I p → P p w → I (N.write p w)) (hp : I p) : I q := by
  rw [h.result]
  exact Along.invariant hI hp h.made

theorem Makes.and {Q : Replica → Write → Prop} (h : N.Makes P p ws q) (hq : Along Q N.write p ws) :
    N.Makes (fun p w => P p w ∧ Q p w) p ws q := ⟨h.made.and hq, h.result⟩

/-- No task is lost. -/
theorem Makes.has (h : N.Makes P p ws q) {t : Str} (ht : p.tasks.has t = true) :
    q.tasks.has t = true :=
  h.invariant (I := fun p => p.tasks.has t = true) (fun p w hp _ => by rw [write_has, hp]; rfl) ht

end

/-- A task that is there after the writes was there or was written. -/
theorem run_write_has {t : Str} : ∀ (ws : List Write) {p : Replica},
    (run N.write p ws).tasks.has t = true → p.tasks.has t = true ∨ ∃ w ∈ ws, w.taskId = t
  | [], _, h => Or.inl h
  | w :: ws, p, h => by
    rcases run_write_has ws h with h | ⟨v, hv, hid⟩
    · rw [write_has, Bool.or_eq_true, decide_eq_true_eq] at h
      exact h.imp_right fun hid => ⟨w, by simp, hid⟩
    · exact Or.inr ⟨v, List.mem_cons_of_mem _ hv, hid⟩

/-- The condition under which a write is made in the step `e` from the state `s`, where `p` is the
    replica that the write finds. -/
inductive Made (s : NodeState) : Event → Replica → Write → Prop
  | submit {taskId : Str} {payload : Bytes} {priority : ℤ}
      (id_ok : taskId ≠ [] ∧ taskId.length ≤ maxTaskIdLength)
      (payload_ok : payload.length ≤ maxTaskPayload)
      (room : s.tasks.has taskId = true ∨ s.tasks.size < N.maxTasks) :
      Made s (.submit taskId payload priority) s.toReplica (.submit taskId payload)
  | take {sender : Str} {msg : Message} {wallNow : ℚ} {p : Replica} {items : Fields}
      {item : Str × Json} {remote merged : TaskRecord}
      (items_of : lookup (str "tasks") msg.payload = some (.obj items)) (mem : item ∈ items)
      (accepted : N.acceptedRecord sender item = .ok (some remote))
      (merge : p.tasks.get item.1 = none ∧ p.tasks.size < N.maxTasks ∧ merged = remote ∨
        ∃ old, p.tasks.get item.1 = some old ∧
          mergeRecords R old remote N.mergeKeyring = .ok merged) :
      Made s (.recv sender msg wallNow) p (.take item.1 remote merged)
  | claim {now leaseNow wallNow : ℚ} {suspected : Str → Bool} {nonce : Str} {job : Job}
      (for_job : N.JobFor s.toReplica job) (waiting : s.worker = .waiting) :
      Made s (.workerGet now leaseNow wallNow suspected nonce) s.toReplica (.claim job)
  | claimRun {now leaseNow wallNow : ℚ} {suspected : Str → Bool} {nonce : Str} {job : Job}
      (for_job : N.JobFor s.toReplica job) (waiting : s.worker = .waiting) :
      Made s (.workerGet now leaseNow wallNow suspected nonce)
        (N.write s.toReplica (.claim job)) (.run job)
  | run {wallNow : ℚ} {nonce : Str} {job : Job} {msg : Message}
      (claiming : s.worker = .claiming job msg []) :
      Made s (.workerSent wallNow nonce) s.toReplica (.run job)
  | commit {outcome : Except Str Bytes} {now wallNow : ℚ} {nonce : Str} {job : Job}
      (handling : s.worker = .handling job) (in_time : now ≤ job.leaseExp)
      (fresh : superseded s job = false) :
      Made s (.handlerDone outcome now wallNow nonce) s.toReplica (.commit job outcome)
  | sweep {now wallNow : ℚ} {suspected : Str → Bool} {nonce : Str} {p : Replica} {taskId : Str}
      {record : TaskRecord} (no_handler : N.hasHandler = false)
      (reclaimable : N.reclaimable record now suspected = true)
      (mem : (taskId, record) ∈ s.tasks.entries)
      (same : p.tasks.get taskId = s.tasks.get taskId) :
      Made s (.reclaimSweep now wallNow suspected nonce) p (.reset taskId record)
  | resume {wallNow : ℚ} {suspected : Str → Bool} {nonce : Str} {p : Replica} {taskId : Str}
      {record : TaskRecord} {msg : Message} {now : ℚ} {livePeers : List Str}
      {snapshot : List (Str × TaskRecord)} (no_handler : N.hasHandler = false)
      (resetting : s.reclaim = .resetting msg [] now livePeers snapshot)
      (reclaimable : N.reclaimable record now suspected = true) (mem : (taskId, record) ∈ snapshot)
      (same : p.tasks.get taskId = s.tasks.get taskId) :
      Made s (.reclaimSent wallNow suspected nonce) p (.reset taskId record)

section
variable {N} {P : Replica → Write → Prop} {s : NodeState}

theorem submitTask_makes {taskId : Str} {payload : Bytes} {priority : ℤ}
    (hP : (taskId ≠ [] ∧ taskId.length ≤ maxTaskIdLength) → payload.length ≤ maxTaskPayload →
      (s.tasks.has taskId = true ∨ s.tasks.size < N.maxTasks) →
      P s.toReplica (.submit taskId payload)) :
    N.Makes P s.toReplica (N.submitWrites s taskId payload)
      (N.submitTask s taskId payload priority).1.toReplica := by
  unfold submitWrites submitTask
  split_ifs with h1 h2 h3
  any_goals exact .nil _
  push Not at h1 h2
  have hroom : s.tasks.has taskId = true ∨ s.tasks.size < N.maxTasks := by
    simp only [Bool.and_eq_true, Bool.not_eq_true', decide_eq_true_eq, not_and, not_le] at h3
    cases hh : s.tasks.has taskId
    exacts [Or.inr (h3 hh), Or.inl rfl]
  refine ⟨⟨hP h1 h2 hroom, trivial⟩, ?_⟩
  simp only [run_cons, run_nil]
  split
  · next hx => exact (congrArg Prod.fst hx).symm
  · next hx =>
    split <;> exact (congrArg Prod.fst hx).symm

theorem gossipBatch_tasks {sender : Str} {msg : Message} {wallNow : ℚ} {s₁ : NodeState}
    {items : Fields} (h : N.gossipBatch s sender msg wallNow = some (s₁, items)) (hi : items ≠ []) :
    lookup (str "tasks") msg.payload = some (.obj items) := by
  unfold gossipBatch at h
  split at h
  swap
  · simp at h
  split_ifs at h
  rcases hl : lookup (str "tasks") msg.payload with _ | v <;> rw [hl] at h
  · simp only [Option.getD_none] at h
    split_ifs at h
    simp only [Option.some.injEq, Prod.mk.injEq] at h
    exact absurd h.2.symm hi
  · cases v <;> simp only [Option.getD_some, reduceCtorEq] at h
    split_ifs at h
    simp only [Option.some.injEq, Prod.mk.injEq] at h
    rw [h.2]

/-- A round of the gossip loop. -/
theorem gossipItem_makes {sender : Str} {item : Str × Json}
    (hP : ∀ remote merged, N.acceptedRecord sender item = .ok (some remote) →
      (s.tasks.get item.1 = none ∧ s.tasks.size < N.maxTasks ∧ merged = remote ∨
        ∃ old, s.tasks.get item.1 = some old ∧
          mergeRecords R old remote N.mergeKeyring = .ok merged) →
      P s.toReplica (.take item.1 remote merged)) :
    N.Makes P s.toReplica (N.itemWrites sender s item)
      (N.gossipItem sender s item).1.toReplica := by
  have htake : ∀ remote merged, P s.toReplica (.take item.1 remote merged) →
      N.Makes P s.toReplica [.take item.1 remote merged]
        (N.takeRecord s item.1 remote.vectorClock merged).1.toReplica := by
    intro remote merged h
    rw [takeRecord_replica]
    exact .one h
  unfold itemWrites gossipItem
  rcases ha : N.acceptedRecord sender item with e | _ | remote
  · exact .nil _
  · exact .nil _
  rcases ho : s.tasks.get item.1 with _ | old
  · simp only
    split_ifs with hf
    · exact .nil _
    · exact htake _ _ (hP _ _ ha (Or.inl ⟨ho, not_le.1 hf, rfl⟩))
  · simp only
    rcases hm : mergeRecords R old remote N.mergeKeyring with e | merged
    · exact .nil _
    · exact htake _ _ (hP _ _ ha (Or.inr ⟨old, ho, hm⟩))

/-- The loop over a gossip message's tasks. -/
theorem gossipItems_makes {sender : Str} : ∀ {items : Fields} {s : NodeState},
    (∀ p item remote merged, item ∈ items → N.acceptedRecord sender item = .ok (some remote) →
      (p.tasks.get item.1 = none ∧ p.tasks.size < N.maxTasks ∧ merged = remote ∨
        ∃ old, p.tasks.get item.1 = some old ∧
          mergeRecords R old remote N.mergeKeyring = .ok merged) →
      P p (.take item.1 remote merged)) →
    N.Makes P s.toReplica (N.itemsWrites sender s items)
      (N.gossipItems sender s items).1.toReplica
  | [], s, _ => .nil _
  | item :: items, s, hP => by
    have hitem : N.Makes P s.toReplica (N.itemWrites sender s item)
        (N.gossipItem sender s item).1.toReplica :=
      gossipItem_makes fun remote merged => hP _ item remote merged (by simp)
    unfold itemsWrites gossipItems
    rcases hg : N.gossipItem sender s item with ⟨s₁, _ | e⟩ <;> rw [hg] at hitem
    · exact hitem.append (gossipItems_makes fun p i remote merged hi =>
        hP p i remote merged (List.mem_cons_of_mem _ hi))
    · exact hitem.append (.nil _)

theorem claimTask_makes {job : Job} {wallNow : ℚ} {nonce : Str} (hc : P s.toReplica (.claim job))
    (hr : P (N.write s.toReplica (.claim job)) (.run job)) :
    N.Makes P s.toReplica (N.claimWrites s job wallNow nonce)
      (N.claimTask s job wallNow nonce).toReplica := by
  unfold claimWrites
  obtain ⟨x, s₁, rfl, rfl, h | h | ⟨p, msg, rest, h⟩⟩ := N.claimTask_cases s wallNow nonce job <;>
    rw [h]
  · exact .one hc
  · exact ⟨⟨hc, hr, trivial⟩, rfl⟩
  · exact .one hc

theorem workerGet_makes {now leaseNow wallNow : ℚ} {suspected : Str → Bool} {nonce : Str}
    (hP : ∀ job, N.JobFor s.toReplica job → P s.toReplica (.claim job) ∧
      P (N.write s.toReplica (.claim job)) (.run job)) :
    N.Makes P s.toReplica (N.getWrites s now leaseNow wallNow suspected nonce)
      (N.workerGet s now leaseNow wallNow suspected nonce).toReplica := by
  unfold getWrites workerGet
  rcases hq : s.queue.get with _ | ⟨taskId, q⟩
  · exact .nil _
  rcases ht : s.tasks.get taskId with _ | record <;> simp only [ht]
  · exact .nil _
  split_ifs with h1 h2
  · exact .nil _
  · exact .nil _
  · obtain ⟨hc, hr⟩ := hP ⟨taskId, record, record.fenceToken.nextFor N.nodeId,
      leaseNow + N.taskLeaseDuration record.payload⟩ ⟨ht, by simpa using h1, rfl⟩
    exact claimTask_makes
      (s := { s with queue := q, queuedTaskIds := s.queuedTaskIds.erase taskId }) hc hr

theorem sweepWrites_handler (hh : N.hasHandler = true) {now wallNow : ℚ} {livePeers : List Str}
    {suspected : Str → Bool} {nonce : Str} : ∀ {l : List (Str × TaskRecord)} {s : NodeState},
    N.sweepWrites now livePeers suspected wallNow nonce s l = []
  | [], _ => rfl
  | (t, r) :: l, s => by
    unfold sweepWrites
    split_ifs
    · exact sweepWrites_handler hh
    · split
      · rfl
      · simp only [hh, or_true, if_true]; exact sweepWrites_handler hh

/-- A sweep over a snapshot that names no task twice finds the other tasks as they were. -/
theorem sweep_makes {now wallNow : ℚ} {livePeers : List Str} {suspected : Str → Bool}
    {nonce : Str} : ∀ {l : List (Str × TaskRecord)} {s : NodeState}, (l.map Prod.fst).Nodup →
    (N.hasHandler = false → ∀ p t r, (t, r) ∈ l → N.reclaimable r now suspected = true →
      p.tasks.get t = s.tasks.get t → P p (.reset t r)) →
    N.Makes P s.toReplica (N.sweepWrites now livePeers suspected wallNow nonce s l)
      (N.sweep now livePeers suspected wallNow nonce s l).toReplica
  | [], s, _, _ => .nil _
  | (t, r) :: l, s, hl, hP => by
    obtain ⟨ht, hl⟩ := List.nodup_cons.1 hl
    have ih : N.Makes P s.toReplica (N.sweepWrites now livePeers suspected wallNow nonce s l)
        (N.sweep now livePeers suspected wallNow nonce s l).toReplica :=
      sweep_makes hl fun hh p t' r' hm => hP hh p t' r' (List.mem_cons_of_mem _ hm)
    cases hh : N.hasHandler with
    | true =>
      rw [sweepWrites_handler hh, (N.sweep_replica hh s _).1]
      exact .nil _
    | false =>
    unfold sweepWrites sweep
    by_cases hr : N.reclaimable r now suspected = true
    swap
    · rw [if_pos (by simpa using hr), if_pos (by simpa using hr)]; exact ih
    rw [if_neg (by simpa using hr), if_neg (by simpa using hr)]
    cases rendezvousReclaimer R t livePeers with
    | error e => exact .nil _
    | ok elected =>
    by_cases he : elected = some N.nodeId
    swap
    · simp only [ne_eq, he, not_false_eq_true, if_true, true_or]; exact ih
    simp only [he, hh, ne_eq, not_true_eq_false, Bool.false_eq_true, or_self, if_false]
    obtain ⟨m, hb⟩ := N.broadcastTaskUpdate_eq (s.bump .reclaimed) wallNow nonce
      (N.tick s.toReplica) t (N.sealRecord_resetRecord r t _)
    have hfirst : N.Makes P s.toReplica [.reset t r] (N.write s.toReplica (.reset t r)) :=
      .one (hP hh _ t r (by simp) hr rfl)
    have hrest : ∀ s₁ : NodeState, s₁.toReplica = N.write s.toReplica (.reset t r) →
        N.Makes P (N.write s.toReplica (.reset t r))
          (N.sweepWrites now livePeers suspected wallNow nonce s₁ l)
          (N.sweep now livePeers suspected wallNow nonce s₁ l).toReplica := by
      intro s₁ h₁
      rw [← h₁]
      refine sweep_makes hl fun _ p t' r' hm hr' hp =>
        hP hh p t' r' (List.mem_cons_of_mem _ hm) hr' (hp.trans ?_)
      have hne : t ≠ t' := by
        rintro rfl
        exact ht (List.mem_map.2 ⟨_, hm, rfl⟩)
      rw [h₁, write_get]
      exact if_neg hne
    simp only [NodeState.bump] at hb ⊢
    rw [hb]
    cases m with
    | error e => exact hfirst
    | ok msg =>
      cases N.peers with
      | nil => exact hfirst.append (hrest _ rfl)
      | cons p rest => exact hfirst

end

/-- **A step is its writes**, each made under the checks of the code. -/
theorem step_makes {s : NodeState} (hs : s.reclaim.Distinct) {e : Event}
    (he : ∀ cut, e ≠ .restart cut) :
    N.Makes (N.Made s e) s.toReplica (N.writes s e) (N.step s e).toReplica := by
  cases e with
  | submit taskId payload priority =>
    simp only [writes, step]
    split_ifs
    · exact submitTask_makes .submit
    · exact .nil _
  | recv sender msg wallNow =>
    simp only [writes, step]
    split_ifs
    swap
    · exact .nil _
    have hafter : ∀ x : NodeState × Option Exn, (afterRecv x).toReplica = x.1.toReplica := by
      rintro ⟨s₁, _ | e⟩ <;> rfl
    rw [hafter]
    unfold messageWrites
    rcases N.recvMessage_cases s sender msg wallNow with ⟨hb, hq⟩ | ⟨s₁, items, hb, hq, hr⟩
    · rw [hb, hq.replica]
      exact .nil _
    · rw [hb, hr, ← hq.replica]
      exact gossipItems_makes fun p item remote merged hi ha hm =>
        .take (gossipBatch_tasks hb (List.ne_nil_of_mem hi)) hi ha hm
  | workerGet now leaseNow wallNow suspected nonce =>
    simp only [writes, step]
    cases hw : s.worker
    case waiting => exact workerGet_makes fun job hj => ⟨.claim hj hw, .claimRun hj hw⟩
    all_goals exact .nil _
  | workerSent wallNow nonce =>
    simp only [writes, step, workerSent]
    cases hw : s.worker
    case claiming job msg rest =>
      cases rest with
      | nil => exact .one (.run hw)
      | cons p rest => exact .nil _
    case committing job st msg rest =>
      cases rest with
      | nil => simp only [finishCommit_replica]; exact .nil _
      | cons p rest => exact .nil _
    all_goals exact .nil _
  | handlerDone outcome now wallNow nonce =>
    simp only [writes, step, handlerDone, doneWrites]
    cases hw : s.worker
    case handling job =>
      simp only
      split_ifs with h1 h2
      · exact .nil _
      · exact .nil _
      · have hc : (N.commitTask s job outcome wallNow nonce).toReplica =
            N.write s.toReplica (.commit job outcome) := by
          obtain ⟨x, s₁, st, rfl, rfl, h | h | ⟨p, msg, rest, h⟩⟩ :=
            N.commitTask_cases s wallNow nonce job outcome <;> rw [h]
          · rfl
          · rw [finishCommit_replica]; rfl
          · rfl
        rw [hc]
        exact .one (.commit hw (not_lt.1 h1) (by simpa using h2))
    all_goals exact .nil _
  | reclaimSweep now wallNow suspected nonce =>
    simp only [writes, step, reclaimSweep]
    cases s.reclaim
    case sleeping => exact sweep_makes s.tasks.nodup fun hh p t r hm hr hp => .sweep hh hr hm hp
    all_goals exact .nil _
  | reclaimSent wallNow suspected nonce =>
    simp only [writes, step, reclaimSent]
    cases hr : s.reclaim
    case resetting msg rest now livePeers snapshot =>
      rw [hr] at hs
      cases rest with
      | nil => exact sweep_makes hs fun hh p t r hm hre hp => .resume hh hr hre hm hp
      | cons p rest => exact .nil _
    all_goals exact .nil _
  | gossipRound partner wallNow nonce =>
    rw [(N.step_gossipRound_quiet s partner wallNow nonce).replica]; exact .nil _
  | heartbeatRound now wallNow nonce =>
    rw [(N.step_heartbeatRound_quiet s now wallNow nonce).replica]; exact .nil _
  | restart cut => exact absurd rfl (he cut)

/-! ## The locals of the loops -/

section
variable {N} {s : NodeState} {e : Event}

/-- A sweep resets tasks of its snapshot and keeps the rest of it, each task at most once. -/
theorem sweep_sublist {now wallNow : ℚ} {livePeers : List Str} {suspected : Str → Bool}
    {nonce : Str} : ∀ {l : List (Str × TaskRecord)} {s : NodeState},
    List.Sublist ((N.sweepWrites now livePeers suspected wallNow nonce s l).map Write.taskId ++
      (N.sweep now livePeers suspected wallNow nonce s l).reclaim.snapshot.map Prod.fst)
      (l.map Prod.fst)
  | [], s => .slnil
  | (t, r) :: l, s => by
    have ih : ∀ s, List.Sublist
        ((N.sweepWrites now livePeers suspected wallNow nonce s l).map Write.taskId ++
          (N.sweep now livePeers suspected wallNow nonce s l).reclaim.snapshot.map Prod.fst)
        (l.map Prod.fst) := fun s => sweep_sublist
    unfold sweepWrites sweep
    by_cases hr : N.reclaimable r now suspected = true
    swap
    · rw [if_pos (by simpa using hr), if_pos (by simpa using hr)]; exact (ih s).cons _
    rw [if_neg (by simpa using hr), if_neg (by simpa using hr)]
    cases rendezvousReclaimer R t livePeers with
    | error e => exact List.nil_sublist _
    | ok elected =>
    by_cases he : elected = some N.nodeId
    swap
    · simp only [ne_eq, he, not_false_eq_true, if_true, true_or]; exact (ih s).cons _
    cases hh : N.hasHandler with
    | true =>
      simp only [he, ne_eq, not_true_eq_false, or_true, if_true, if_false]
      have hw := ih (if t ∉ (s.bump .reclaimed).queuedTaskIds then
        (s.bump .reclaimed).tryEnqueue t 10 else s.bump .reclaimed)
      rw [sweepWrites_handler hh] at hw ⊢
      exact hw.cons _
    | false =>
      simp only [he, ne_eq, not_true_eq_false, Bool.false_eq_true, or_self, if_false]
      rcases N.broadcastTaskUpdate _ t _ wallNow nonce with ⟨s₁, _ | msg⟩
      · exact (List.nil_sublist _).cons_cons _
      · cases N.peers with
        | nil => exact (ih s₁).cons_cons _
        | cons p rest => exact (List.Sublist.refl _)

/-- A sweep is suspended in what its snapshot ends with. -/
theorem sweep_suffix {now wallNow : ℚ} {livePeers : List Str} {suspected : Str → Bool}
    {nonce : Str} (s : NodeState) (l : List (Str × TaskRecord)) :
    (N.sweep now livePeers suspected wallNow nonce s l).reclaim.snapshot <:+ l := by
  refine N.sweep_invariant (I := fun s' => s'.reclaim.snapshot <:+ l) (J := fun _ l' => l' <:+ l)
    (fun _ e l' h => (List.suffix_cons e l').trans h) (fun _ _ _ h => h) (fun _ _ _ _ _ h => h)
    (fun _ _ t r l' _ h => (List.suffix_cons (t, r) l').trans h) (fun _ _ => List.nil_suffix)
    (fun _ _ _ => List.nil_suffix) (fun _ _ _ _ _ _ h => h) l s List.suffix_rfl

/-- The steps of the reclaim loop. -/
def Event.reclaims : Event → Bool
  | .reclaimSweep .. | .reclaimSent .. => true
  | _ => false

/-- The receive loop, the cache of nonces, the reclaim loop and the credits are as they were. -/
structure Frame (s s' : NodeState) : Prop where
  receiving : s'.receiving = s.receiving
  messageReplay : s'.messageReplay = s.messageReplay
  reclaim : s'.reclaim = s.reclaim
  credits : s'.credits = s.credits

theorem finishCommit_frame {s₁ : NodeState} {job : Job} {st : TaskState} {wallNow : ℚ} {nonce : Str}
    (h : Frame s s₁) : Frame s (N.finishCommit s₁ job st wallNow nonce) := by
  obtain ⟨h1, h2, h3, h4⟩ := h
  unfold finishCommit
  generalize (if st = .done then Metric.completed else .failed) = metric
  simp only
  split_ifs
  · split <;> exact ⟨h1, h2, h3, h4⟩
  · exact ⟨h1, h2, h3, h4⟩

/-- The steps of the worker and of the gossip and heartbeat loops, and submissions. -/
theorem step_frame (he : e.isLocal = true) : Frame s (N.step s e) := by
  cases e with
  | submit taskId payload priority =>
    have h := N.step_submit_frame s taskId payload priority
    exact ⟨h.receiving, h.messageReplay, h.reclaim, h.credits⟩
  | workerGet now leaseNow wallNow suspected nonce =>
    simp only [step]
    cases s.worker
    case waiting =>
      obtain ⟨-, h⟩ | ⟨taskId, q, s₁, -, rfl, ⟨-, h⟩ | ⟨job, rfl, -, -, -, -, -, h⟩⟩ :=
        N.workerGet_cases s wallNow nonce now leaseNow suspected <;> simp only [h]
      · exact ⟨rfl, rfl, rfl, rfl⟩
      · exact ⟨rfl, rfl, rfl, rfl⟩
      · obtain ⟨x, s₂, rfl, rfl, hc | hc | ⟨p, msg, rest, hc⟩⟩ := N.claimTask_cases
          { s with queue := q, queuedTaskIds := s.queuedTaskIds.erase job.taskId } wallNow nonce
          job <;> rw [hc] <;> exact ⟨rfl, rfl, rfl, rfl⟩
    all_goals exact ⟨rfl, rfl, rfl, rfl⟩
  | workerSent wallNow nonce =>
    simp only [step, workerSent]
    cases s.worker
    case claiming job msg rest => cases rest <;> exact ⟨rfl, rfl, rfl, rfl⟩
    case committing job st msg rest =>
      cases rest with
      | nil => exact finishCommit_frame ⟨rfl, rfl, rfl, rfl⟩
      | cons p rest => exact ⟨rfl, rfl, rfl, rfl⟩
    all_goals exact ⟨rfl, rfl, rfl, rfl⟩
  | handlerDone outcome now wallNow nonce =>
    simp only [step, handlerDone]
    cases s.worker
    case handling job =>
      simp only
      split_ifs
      · exact ⟨rfl, rfl, rfl, rfl⟩
      · exact ⟨rfl, rfl, rfl, rfl⟩
      · obtain ⟨x, s₁, st, rfl, rfl, h | h | ⟨p, msg, rest, h⟩⟩ :=
          N.commitTask_cases s wallNow nonce job outcome <;> rw [h]
        · exact ⟨rfl, rfl, rfl, rfl⟩
        · exact finishCommit_frame ⟨rfl, rfl, rfl, rfl⟩
        · exact ⟨rfl, rfl, rfl, rfl⟩
    all_goals exact ⟨rfl, rfl, rfl, rfl⟩
  | gossipRound partner wallNow nonce =>
    simp only [step, gossipRound]
    split_ifs
    · exact ⟨rfl, rfl, rfl, rfl⟩
    · split <;> exact ⟨rfl, rfl, rfl, rfl⟩
    · exact ⟨rfl, rfl, rfl, rfl⟩
  | heartbeatRound now wallNow nonce =>
    simp only [step, heartbeatRound]
    split_ifs
    · split <;> exact ⟨rfl, rfl, rfl, rfl⟩
    · exact ⟨rfl, rfl, rfl, rfl⟩
  | _ => cases he

/-- The receive loop, the cache of nonces, the worker and the credits are as they were. -/
structure SweepFrame (s s' : NodeState) : Prop where
  receiving : s'.receiving = s.receiving
  messageReplay : s'.messageReplay = s.messageReplay
  worker : s'.worker = s.worker
  credits : s'.credits = s.credits

theorem sweep_frame {now wallNow : ℚ} {livePeers : List Str} {suspected : Str → Bool} {nonce : Str}
    (s : NodeState) (l : List (Str × TaskRecord)) :
    SweepFrame s (N.sweep now livePeers suspected wallNow nonce s l) := by
  refine N.sweep_invariant (I := SweepFrame s) (J := fun x _ => SweepFrame s x)
    (fun _ _ _ h => h) (fun _ _ _ h => ⟨h.1, h.2, h.3, h.4⟩) (fun _ x t _ _ h => ?_)
    (fun _ _ _ _ _ _ h => ⟨h.1, h.2, h.3, h.4⟩) (fun _ h => ⟨h.1, h.2, h.3, h.4⟩)
    (fun _ _ h => ⟨h.1, h.2, h.3, h.4⟩) (fun _ _ _ _ _ _ h => ⟨h.1, h.2, h.3, h.4⟩) l s
    ⟨rfl, rfl, rfl, rfl⟩
  unfold NodeState.tryEnqueue
  split
  · exact ⟨h.1, h.2, h.3, h.4⟩
  · exact h

/-- The steps of the reclaim loop. -/
theorem step_reclaims_frame (he : e.reclaims = true) : SweepFrame s (N.step s e) := by
  cases e with
  | reclaimSweep now wallNow suspected nonce =>
    simp only [step, reclaimSweep]
    cases s.reclaim
    case sleeping => exact sweep_frame s _
    all_goals exact ⟨rfl, rfl, rfl, rfl⟩
  | reclaimSent wallNow suspected nonce =>
    simp only [step, reclaimSent]
    cases s.reclaim
    case resetting msg rest now livePeers snapshot =>
      cases rest with
      | nil => exact sweep_frame s _
      | cons p rest => exact ⟨rfl, rfl, rfl, rfl⟩
    all_goals exact ⟨rfl, rfl, rfl, rfl⟩
  | _ => cases he

/-- Receiving leaves the reclaim loop alone. -/
theorem step_recv_reclaim (sender : Str) (msg : Message) (wallNow : ℚ) :
    (N.step s (.recv sender msg wallNow)).reclaim = s.reclaim := by
  refine step_recv_invariant (I := fun s' => s'.reclaim = s.reclaim) (P := fun _ _ _ => True)
    (fun _ _ hq h => hq.reclaim.trans h) (fun sender s' i h _ => ?_) rfl
    fun _ _ items _ => Rounds.of_forall fun _ _ => trivial
  rcases N.gossipItem_cases sender s' i with (hg | hg) | ⟨remote, m, -, -, hg⟩
  · rw [hg, h]
  · rw [hg]; exact h
  · obtain ⟨s₁, -, -, -, h₁, h'⟩ := N.takeRecord_eq s' i.1 remote.vectorClock m
    rw [hg, h', ← h, ← h₁]

/-- **Where the snapshot of the reclaim loop comes from**: it is what is left of the old one, or of
    the store if a sweep starts, without the tasks that the sweep resets. -/
theorem step_snapshot (he : ∀ cut, e ≠ .restart cut) :
    ∃ l, (l = s.reclaim.snapshot ∨ l = s.tasks.entries) ∧
      (N.step s e).reclaim.snapshot <:+ l ∧ (e.reclaims = true →
        List.Sublist ((N.writes s e).map Write.taskId ++
          (N.step s e).reclaim.snapshot.map Prod.fst) (l.map Prod.fst)) := by
  cases e with
  | reclaimSweep now wallNow suspected nonce =>
    simp only [step, writes, reclaimSweep]
    cases hr : s.reclaim
    case sleeping => exact ⟨_, Or.inr rfl, sweep_suffix _ _, fun _ => sweep_sublist⟩
    all_goals exact ⟨_, Or.inl rfl, by simp [hr, Reclaim.snapshot], by simp [hr, Reclaim.snapshot]⟩
  | reclaimSent wallNow suspected nonce =>
    simp only [step, writes, reclaimSent]
    cases hr : s.reclaim
    case resetting msg rest now livePeers snapshot =>
      cases rest with
      | nil => exact ⟨_, Or.inl rfl, sweep_suffix _ _, fun _ => sweep_sublist⟩
      | cons p rest => exact ⟨_, Or.inl rfl, List.suffix_rfl, fun _ => .refl _⟩
    all_goals exact ⟨_, Or.inl rfl, by simp [hr, Reclaim.snapshot], by simp [hr, Reclaim.snapshot]⟩
  | restart cut => exact absurd rfl (he cut)
  | recv sender msg wallNow =>
    refine ⟨_, Or.inl rfl, ?_, fun h => Bool.noConfusion h⟩
    rw [step_recv_reclaim]
  | _ =>
    refine ⟨_, Or.inl rfl, ?_, fun h => Bool.noConfusion h⟩
    rw [(step_frame rfl).reclaim]

theorem boot_snapshot (file : Option Bytes) (journal : List LogEntry) :
    (N.boot file journal).reclaim.snapshot = [] := by
  obtain ⟨p, q, ids, up, s, rfl, hb | hb⟩ := N.boot_fresh file journal
  all_goals rw [hb]; rfl

theorem boot_job (file : Option Bytes) (journal : List LogEntry) :
    (N.boot file journal).worker.job = none := by
  have hstart : ∀ s, (N.startLoops s).worker.job = none := by
    intro s
    unfold startLoops
    cases N.hasHandler <;> rfl
  obtain ⟨p, q, ids, up, s, rfl, hb | hb⟩ := N.boot_fresh file journal <;> rw [hb]
  · rfl
  · exact hstart _

/-- A node starts with nothing. -/
theorem initial_replica : N.initial.tasks = .empty ∧ N.initial.vectorClock = .zero ∧
    N.initial.journal = [] := by
  unfold PeerNode.initial
  obtain ⟨-, hb⟩ | ⟨W, -, ⟨⟨e, he⟩, -⟩ | ⟨f, ho, hb⟩⟩ := N.boot_replica none []
  · rw [hb]; exact ⟨rfl, rfl, rfl⟩
  · cases he
  · obtain rfl : walMagic = f := Except.ok.inj ho
    have hread : (W.replay R false walMagic).1 = [] := rfl
    rw [hb, recovered, hread]
    exact ⟨rfl, rfl, rfl⟩

/-- The snapshot stays one without repetitions. -/
theorem step_distinct (hs : s.reclaim.Distinct) : (N.step s e).reclaim.Distinct := by
  obtain ⟨cut, rfl⟩ | he := e.restart_or
  · have hb : (N.step s (.restart cut)).reclaim.snapshot = [] := boot_snapshot _ _
    unfold Reclaim.Distinct
    rw [hb]
    exact List.nodup_nil
  · obtain ⟨l, hl, hsuf, -⟩ := N.step_snapshot (s := s) he
    have hnd : (l.map Prod.fst).Nodup := by
      rcases hl with rfl | rfl
      exacts [hs, s.tasks.nodup]
    exact hnd.sublist (hsuf.sublist.map _)

theorem initial_distinct : N.initial.reclaim.Distinct := by
  unfold Reclaim.Distinct PeerNode.initial
  rw [boot_snapshot]
  exact List.nodup_nil

theorem run_distinct (es : List Event) : (run N.step N.initial es).reclaim.Distinct :=
  Along.invariant (P := fun _ _ => True) (I := fun s : NodeState => s.reclaim.Distinct)
    (fun _ _ h _ => step_distinct h) initial_distinct (Along.of_forall fun _ _ => trivial)

theorem finishCommit_job {job : Job} {st : TaskState} {wallNow : ℚ} {nonce : Str} :
    (N.finishCommit s job st wallNow nonce).worker.job = none := by
  obtain ⟨s₁, -, -, -, -, hf | hf | hf⟩ := N.finishCommit_cases s wallNow nonce job st <;>
    rw [hf] <;> rfl

theorem claimTask_job {job job' : Job} {wallNow : ℚ} {nonce : Str}
    (h : (N.claimTask s job wallNow nonce).worker.job = some job') : job = job' := by
  obtain ⟨x, s₂, rfl, rfl, hc | hc | ⟨p, msg, rest, hc⟩⟩ := N.claimTask_cases s wallNow nonce job <;>
    rw [hc] at h
  · exact absurd h (by simp [Worker.job])
  · exact Option.some.inj h
  · exact Option.some.inj h

theorem workerGet_job {now leaseNow wallNow : ℚ} {suspected : Str → Bool} {nonce : Str} {job : Job}
    (hw : s.worker = .waiting)
    (hj : (N.workerGet s now leaseNow wallNow suspected nonce).worker.job = some job) :
    N.JobFor s.toReplica job ∧
      Write.claim job ∈ N.getWrites s now leaseNow wallNow suspected nonce := by
  unfold workerGet at hj
  unfold getWrites
  rcases hq : s.queue.get with _ | ⟨taskId, q⟩ <;> rw [hq] at hj
  · simp [hw, Worker.job] at hj
  rcases ht : s.tasks.get taskId with _ | record <;> simp only [ht] at hj ⊢
  · simp [hw, Worker.job] at hj
  split_ifs at hj ⊢ with h1 h2
  · simp [hw, Worker.job] at hj
  · simp [hw, Worker.job] at hj
  · cases claimTask_job hj
    refine ⟨⟨ht, by simpa using h1, rfl⟩, ?_⟩
    unfold claimWrites
    split <;> simp

/-- **Where the job of the worker comes from**: it is the old one, or was claimed just now. -/
theorem step_job (he : ∀ cut, e ≠ .restart cut) {job : Job}
    (hj : (N.step s e).worker.job = some job) : s.worker.job = some job ∨
      s.worker = .waiting ∧ N.JobFor s.toReplica job ∧ Write.claim job ∈ N.writes s e := by
  have hsame : (N.step s e).worker = s.worker → s.worker.job = some job ∨
      s.worker = .waiting ∧ N.JobFor s.toReplica job ∧ Write.claim job ∈ N.writes s e :=
    fun h => Or.inl (h ▸ hj)
  cases e with
  | submit taskId payload priority =>
    exact hsame (N.step_submit_frame s taskId payload priority).worker
  | recv sender msg wallNow => exact hsame (N.step_recv_worker s sender msg wallNow)
  | workerGet now leaseNow wallNow suspected nonce =>
    simp only [step] at hj
    cases hw : s.worker <;> rw [hw] at hj
    case waiting =>
      obtain ⟨h, h'⟩ := workerGet_job hw hj
      exact Or.inr ⟨rfl, h, by simpa only [writes, hw] using h'⟩
    all_goals exact Or.inl (hw ▸ hj)
  | workerSent wallNow nonce =>
    simp only [step, workerSent] at hj
    cases hw : s.worker <;> rw [hw] at hj
    case claiming job' msg rest => cases rest <;> exact Or.inl hj
    case committing job' st msg rest =>
      cases rest with
      | nil => simp [finishCommit_job] at hj
      | cons p rest => simp [Worker.job] at hj
    case crediting => simp [Worker.job] at hj
    all_goals exact Or.inl (hw ▸ hj)
  | handlerDone outcome now wallNow nonce =>
    simp only [step, handlerDone] at hj
    cases hw : s.worker <;> rw [hw] at hj
    case handling job' =>
      simp only at hj
      split_ifs at hj
      · simp [Worker.job] at hj
      · simp [Worker.job] at hj
      · obtain ⟨x, s₁, st, rfl, rfl, h | h | ⟨p, msg, rest, h⟩⟩ :=
          N.commitTask_cases s wallNow nonce job' outcome <;> rw [h] at hj
        · simp [Worker.job] at hj
        · simp [finishCommit_job] at hj
        · simp [Worker.job] at hj
    all_goals exact Or.inl (hw ▸ hj)
  | reclaimSweep now wallNow suspected nonce => exact hsame (step_reclaims_frame rfl).worker
  | reclaimSent wallNow suspected nonce => exact hsame (step_reclaims_frame rfl).worker
  | gossipRound partner wallNow nonce =>
    exact hsame (N.step_gossipRound_quiet s partner wallNow nonce).worker
  | heartbeatRound now wallNow nonce =>
    exact hsame (N.step_heartbeatRound_quiet s now wallNow nonce).worker
  | restart cut => exact absurd rfl (he cut)

end

end PeerNode

end PeerQ
