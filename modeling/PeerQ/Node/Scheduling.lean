/-
  Scheduling: which tasks a node with a handler still has to do, and where it
  keeps them.

  While the worker runs, every pending task of the store is in the queue, and a
  task this node has claimed is in the queue or is the one the worker is at
  (`Scheduled`).  Every step keeps this unless it takes one of the branches that
  drop a task: a handler that overruns its lease, a full queue, a submission
  that cannot be logged, a received claim in this node's own name, a recovered
  claim of this node (`SchedulingOk`).
-/
import PeerQ.Node.Fencing

namespace PeerQ

open Py

/-- The job whose handler runs. -/
def Worker.handled : Worker → Option Job
  | .handling job => some job
  | _ => none

namespace PeerNode

variable {R : Runtime} (N : PeerNode R)

/-- A claim of this node. -/
def Own (r : TaskRecord) : Prop := r.state.isClaim = true ∧ r.claimedBy = some N.nodeId

/-- The log takes a record and a clock. -/
def Loggable (r : TaskRecord) (c : VectorClock) : Prop :=
  ∀ W ∈ N.wal, (LogEntry.task r).entry.Fits R W ∧ (LogEntry.clock c).entry.Fits R W

/-- Pending tasks are queued, and own claims are queued or the worker's. -/
structure Scheduled (s : NodeState) : Prop where
  queued : ∀ t ∈ s.queuedTaskIds, t ∈ s.queue.items
  pending : ∀ t r, s.tasks.get t = some r → r.state = .pending → t ∈ s.queue.items
  own : ∀ t r, s.tasks.get t = some r → N.Own r → t ∈ s.queue.items ∨
    ∃ job, s.worker.job = some job ∧ job.taskId = t ∧ job.newToken = r.fenceToken

/-- No task is left behind when the worker waits at an empty queue. -/
def NoneStranded (s : NodeState) : Prop :=
  s.worker = .waiting → s.queue.items = [] → ∀ t r, s.tasks.get t = some r →
    r.state ≠ .pending ∧ ¬ N.Own r

/-- The conditions on a step. -/
def SchedulingOk (s : NodeState) : Event → Prop
  | .submit taskId payload _ => taskId ∈ s.queue.items ∨ s.queue.full = false ∧
    N.Loggable (N.submitRecord taskId payload (s.vectorClock.increment N.nodeId))
      (s.vectorClock.increment N.nodeId)
  | .recv sender msg wallNow =>
    N.MessageRounds (fun sender s item => ∀ remote,
      N.acceptedRecord sender item = .ok (some remote) → item.1 ∈ s.queue.items ∨
        (remote.state = .pending → s.queue.full = false) ∧
        (N.Own remote → ∃ old, s.tasks.get item.1 = some old ∧
          latticeKey remote ≤ latticeKey old ∧ (N.security.enabled = true →
            verifyTaskAuthorization R old N.keyring = true))) s sender msg wallNow
  | .handlerDone _ now _ _ => ∀ job r, s.worker = .handling job → job.leaseExp < now →
    s.tasks.get job.taskId = some r → N.Own r → job.taskId ∈ s.queue.items
  | .restart cut => ∀ W f, N.wal = some W → W.openFile (s.walFile.map (·.take cut)) = .ok f →
    (∀ t r, (N.recovered W f s.journal).tasks.get t = some r → ¬ N.Own r) ∧
    (N.maxQueueSize ≤ 0 ∨ (((N.recovered W f s.journal).tasks.entries.filter fun e =>
      e.2.state = .pending).length : ℤ) ≤ N.maxQueueSize)
  | _ => True

/-! ## Keeping the schedule -/

section
variable {N} {s s' : NodeState}

/-- A step that only concerns the task `t` keeps the schedule if it leaves `t` in order. -/
theorem Scheduled.of_task (h : N.Scheduled s) (t : Str)
    (hq : ∀ u ∈ s'.queuedTaskIds, u ∈ s'.queue.items)
    (htasks : ∀ u, u ≠ t → s'.tasks.get u = s.tasks.get u)
    (hitems : ∀ u, u ≠ t → u ∈ s.queue.items → u ∈ s'.queue.items)
    (hwork : ∀ job, s.worker.job = some job → job.taskId ≠ t → s'.worker.job = some job)
    (hp : ∀ r, s'.tasks.get t = some r → r.state = .pending → t ∈ s'.queue.items)
    (ho : ∀ r, s'.tasks.get t = some r → N.Own r → t ∈ s'.queue.items ∨
      ∃ job, s'.worker.job = some job ∧ job.taskId = t ∧ job.newToken = r.fenceToken) :
    N.Scheduled s' := by
  refine ⟨hq, fun u r hr hst => ?_, fun u r hr hown => ?_⟩
  · by_cases hu : u = t
    · subst hu; exact hp r hr hst
    · exact hitems u hu (h.pending u r (htasks u hu ▸ hr) hst)
  · by_cases hu : u = t
    · subst hu; exact ho r hr hown
    · rcases h.own u r (htasks u hu ▸ hr) hown with hi | ⟨job, hw, hid, htok⟩
      · exact Or.inl (hitems u hu hi)
      · exact Or.inr ⟨job, hwork job hw (hid ▸ hu), hid, htok⟩

/-- The schedule depends on the store, the queue and the worker's job only. -/
theorem Scheduled.congr (h : N.Scheduled s) (htasks : s'.tasks = s.tasks)
    (hqueue : s'.queue = s.queue) (hids : s'.queuedTaskIds = s.queuedTaskIds)
    (hwork : s'.worker.job = s.worker.job) : N.Scheduled s' := by
  refine ⟨?_, ?_, ?_⟩
  · rw [hids, hqueue]; exact h.queued
  · rw [htasks, hqueue]; exact h.pending
  · rw [htasks, hqueue, hwork]; exact h.own

theorem Scheduled.quiet (h : N.Scheduled s) (hq : Quiet s s') : N.Scheduled s' :=
  h.congr (congrArg Replica.tasks hq.replica) hq.queue hq.queued (by rw [hq.worker])

/-- A task may be queued. -/
theorem Scheduled.tryEnqueue (h : N.Scheduled s) (t : Str) (priority : ℤ) :
    N.Scheduled (s.tryEnqueue t priority) := by
  unfold NodeState.tryEnqueue
  cases hput : s.queue.put t priority with
  | error e => exact h
  | ok q =>
    have hmem := fun u => BackpressureQueue.mem_put (t := u) hput
    refine ⟨fun u hu => ?_, fun u r hr hst => ?_, fun u r hr hown => ?_⟩
    · rcases Finset.mem_insert.1 hu with rfl | hu
      exacts [(hmem _).2 (Or.inl rfl), (hmem u).2 (Or.inr (h.queued u hu))]
    · exact (hmem u).2 (Or.inr (h.pending u r hr hst))
    · exact (h.own u r hr hown).imp_left fun hi => (hmem u).2 (Or.inr hi)

end

/-! ## Submitting and receiving -/

section
variable {N} {s : NodeState}

theorem appendEntry_fits {p : Replica} {e : LogEntry} (h : ∀ W ∈ N.wal, e.entry.Fits R W) :
    (N.appendEntry p e).2 = none := by
  unfold appendEntry
  cases hw : N.wal with
  | none => rfl
  | some W =>
    cases p.walFile with
    | none => rfl
    | some f =>
      simp only
      rw [WriteAheadLog.append_ok_iff.2 ⟨h W hw, rfl, rfl⟩]

theorem logUpdate_fits {p : Replica} {r : TaskRecord} (h : N.Loggable r p.vectorClock) :
    (N.logUpdate p r).2 = none := by
  have h1 := appendEntry_fits (N := N) (p := p) (e := .task r) fun W hW => (h W hW).1
  rw [logUpdate_eq, if_pos h1]
  exact appendEntry_fits fun W hW => (h W hW).2

theorem scheduled_submit {taskId : Str} {payload : Bytes} {priority : ℤ} (h : N.Scheduled s)
    (hok : N.SchedulingOk s (.submit taskId payload priority)) :
    N.Scheduled (N.submitTask s taskId payload priority).1 := by
  obtain ⟨-, _, hs | hs⟩ | ⟨-, x, s₁, rfl, rfl, hs⟩ := N.submitTask_cases s taskId payload priority
  · rw [hs]; exact h
  · rw [hs]; exact h.quiet (.bump s _)
  -- the task is stored as pending, so it has to be in the queue afterwards
  have hmain : ∀ s' : NodeState,
      s'.tasks = s.tasks.set taskId (N.submitRecord taskId payload
        (s.vectorClock.increment N.nodeId)) →
      s'.worker = s.worker → (∀ u ∈ s'.queuedTaskIds, u ∈ s'.queue.items) →
      (∀ u ∈ s.queue.items, u ∈ s'.queue.items) → taskId ∈ s'.queue.items →
      N.Scheduled s' := by
    intro s' htasks hwork hq hitems hmem
    refine h.of_task taskId hq (fun u hu => ?_) (fun u _ => hitems u) (fun job hj _ => hwork ▸ hj)
      (fun _ _ _ => hmem) fun _ _ _ => Or.inl hmem
    rw [htasks, Dict.get_set_ne _ _ (Ne.symm hu)]
  have hlt := N.localUpdate_tasks s.toReplica taskId (N.submitRecord taskId payload)
  rcases hs with ⟨e, hx, hs⟩ | ⟨_, -, hfull, hs⟩ | ⟨q, -, hput, hs⟩
  · have hmem : taskId ∈ s.queue.items := by
      refine hok.resolve_right fun hl => absurd (hx.symm.trans ?_) (Option.some_ne_none e)
      exact logUpdate_fits (p := (N.tick s.toReplica).store _ _) hl.2
    rw [hs]; exact hmain _ hlt rfl h.queued (fun _ hu => hu) hmem
  · have hmem : taskId ∈ s.queue.items :=
      hok.resolve_right fun hl => absurd (hfull.symm.trans hl.1) (by simp)
    rw [hs]; exact hmain _ hlt rfl h.queued (fun _ hu => hu) hmem
  · have hmem := fun u => BackpressureQueue.mem_put (t := u) hput
    rw [hs]
    refine hmain _ hlt rfl (fun u hu => ?_) (fun u hu => (hmem u).2 (Or.inr hu))
      ((hmem _).2 (Or.inl rfl))
    rcases Finset.mem_insert.1 hu with rfl | hu
    exacts [(hmem _).2 (Or.inl rfl), (hmem u).2 (Or.inr (h.queued u hu))]

/-- A taken record keeps the schedule if its task is queued already, or it is pending and there is
    room, or it is no claim of this node beyond the stored one. -/
theorem scheduled_take {t : Str} {c : VectorClock} {m : TaskRecord} (h : N.Scheduled s)
    (hp : m.state = .pending → t ∈ s.queue.items ∨ s.queue.full = false)
    (ho : N.Own m → t ∈ s.queue.items ∨
      ∃ job, s.worker.job = some job ∧ job.taskId = t ∧ job.newToken = m.fenceToken) :
    N.Scheduled (N.takeRecord s t c m).1 := by
  obtain ⟨s₁, hs₁, hrep, hwork, -, hs'⟩ := N.takeRecord_eq s t c m
  have htasks : (N.takeRecord s t c m).1.tasks = s.tasks.set t m := N.takeRecord_tasks s t c m
  have hqueue : (N.takeRecord s t c m).1.queue = s₁.queue := by rw [hs']
  have hids : (N.takeRecord s t c m).1.queuedTaskIds = s₁.queuedTaskIds := by rw [hs']
  have hw' : (N.takeRecord s t c m).1.worker = s.worker := N.takeRecord_worker s t c m
  -- what the attempt to queue the task leads to
  have henq : (∀ u ∈ s₁.queuedTaskIds, u ∈ s₁.queue.items) ∧
      (∀ u ∈ s.queue.items, u ∈ s₁.queue.items) ∧ (m.state = .pending → t ∈ s₁.queue.items) := by
    rcases enqueuePending_cases { s with toReplica := s.toReplica.store t m } t m with
      ⟨he, hn⟩ | ⟨q, hput, he⟩ <;> rw [he] at hs₁ <;> subst hs₁
    · refine ⟨h.queued, fun _ hu => hu, fun hst => ?_⟩
      rcases hn hst with hid | hfull
      · exact h.queued t hid
      · exact (hp hst).resolve_right fun hf => absurd (hfull.symm.trans hf) (by simp)
    · have hmem := fun u => BackpressureQueue.mem_put (t := u) hput
      refine ⟨fun u hu => ?_, fun u hu => (hmem u).2 (Or.inr hu), fun _ => (hmem t).2 (Or.inl rfl)⟩
      rcases Finset.mem_insert.1 hu with rfl | hu
      exacts [(hmem _).2 (Or.inl rfl), (hmem u).2 (Or.inr (h.queued u hu))]
  obtain ⟨he1, he2, he3⟩ := henq
  have hget : (N.takeRecord s t c m).1.tasks.get t = some m := by rw [htasks, Dict.get_set_self]
  refine h.of_task t (by rw [hqueue, hids]; exact he1) (fun u hu => ?_)
    (fun u _ hu => by rw [hqueue]; exact he2 u hu) (fun job hj _ => hw' ▸ hj)
    (fun r hr hst => ?_) fun r hr hown => ?_
  · rw [htasks, Dict.get_set_ne _ _ (Ne.symm hu)]
  · obtain rfl : m = r := Option.some.inj (hget.symm.trans hr)
    rw [hqueue]; exact he3 hst
  · obtain rfl : m = r := Option.some.inj (hget.symm.trans hr)
    rw [hqueue, hw']
    exact (ho hown).imp_left (he2 t)

theorem scheduled_gossipItem {sender : Str} {item : Str × Json} (h : N.Scheduled s)
    (hok : ∀ remote, N.acceptedRecord sender item = .ok (some remote) →
      item.1 ∈ s.queue.items ∨ (remote.state = .pending → s.queue.full = false) ∧
        (N.Own remote → ∃ old, s.tasks.get item.1 = some old ∧
          latticeKey remote ≤ latticeKey old ∧ (N.security.enabled = true →
            verifyTaskAuthorization R old N.keyring = true))) :
    N.Scheduled (N.gossipItem sender s item).1 := by
  rcases N.gossipItem_cases sender s item with (hg | hg) | ⟨remote, m, ha, hm, hg⟩
  · rw [hg]; exact h
  · rw [hg]; exact h.quiet (.bump s _)
  rw [hg]
  by_cases hi : item.1 ∈ s.queue.items
  · exact scheduled_take h (fun _ => Or.inl hi) fun _ => Or.inl hi
  obtain ⟨hroom, hclaim⟩ := (hok remote ha).resolve_left hi
  rcases hm with ⟨hnone, -, rfl⟩ | ⟨old, ho, hm⟩
  · refine scheduled_take h (fun hst => Or.inr (hroom hst)) fun hown => ?_
    obtain ⟨old, ho, -⟩ := hclaim hown
    exact absurd (hnone.symm.trans ho) (by simp)
  obtain ⟨c, rfl | ⟨rfl, hlt⟩⟩ := mergeRecords_winner hm
  · -- the stored record stays, with a new clock
    exact scheduled_take h (fun hst => Or.inl (h.pending _ old ho hst)) fun hown =>
      h.own _ old ho hown
  · refine scheduled_take h (fun hst => Or.inr (hroom hst)) fun hown => ?_
    obtain ⟨old', ho', hk, hv⟩ := hclaim hown
    obtain rfl : old' = old := Option.some.inj (ho'.symm.trans ho)
    rcases hlt with hlt | ⟨K, hK, hbad⟩
    · exact absurd hk (not_le.2 hlt)
    · rw [mergeKeyring] at hK
      split_ifs at hK with hsec
      rw [← Option.some.inj hK, hv hsec] at hbad
      exact absurd hbad (by simp)

end

/-! ## The worker -/

section
variable {N} {s : NodeState}

/-- The worker has stopped, or the schedule is kept. -/
def Kept (N : PeerNode R) (s : NodeState) : Prop := s.worker = .stopped ∨ N.Scheduled s

/-- The job's task is stored as a claim of this node with the job's token. -/
theorem scheduled_startHandler {job : Job} (h : N.Scheduled s)
    (hw : ∀ job', s.worker.job = some job' → job'.taskId = job.taskId) :
    N.Scheduled (N.startHandler s job) := by
  refine h.of_task job.taskId h.queued (fun u hu => Dict.get_set_ne _ _ (Ne.symm hu))
    (fun _ _ hu => hu) (fun job' hj hne => absurd (hw job' hj) hne) (fun r hr hst => ?_)
    fun r hr _ => Or.inr ⟨job, rfl, rfl, ?_⟩
  all_goals
    have hr' : N.claimRecord job .running s.vectorClock = r :=
      Option.some.inj ((Dict.get_set_self _ _ _).symm.trans hr)
  · rw [← hr'] at hst; simp [claimRecord] at hst
  · rw [← hr']; simp [claimRecord]

/-- Taking a task out of the queue keeps the schedule if the task is in order then. -/
theorem scheduled_pop {taskId : Str} {q : BackpressureQueue} {s' : NodeState} (h : N.Scheduled s)
    (hget : s.queue.get = some (taskId, q)) (hq : s'.queue = q)
    (hids : s'.queuedTaskIds = s.queuedTaskIds.erase taskId)
    (htasks : ∀ u, u ≠ taskId → s'.tasks.get u = s.tasks.get u)
    (hwork : s.worker.job = none)
    (hp : ∀ r, s'.tasks.get taskId = some r → r.state ≠ .pending)
    (ho : ∀ r, s'.tasks.get taskId = some r → N.Own r →
      ∃ job, s'.worker.job = some job ∧ job.taskId = taskId ∧ job.newToken = r.fenceToken) :
    N.Scheduled s' := by
  have hitems := BackpressureQueue.get_eq_some hget
  have hmem : ∀ u, u ≠ taskId → u ∈ s.queue.items → u ∈ s'.queue.items := by
    intro u hu hm
    rw [hitems, List.mem_cons] at hm
    rw [hq]; exact hm.resolve_left hu
  refine h.of_task taskId (fun u hu => ?_) htasks hmem (fun job hj => ?_)
    (fun r hr hst => absurd hst (hp r hr)) fun r hr hown => Or.inr (ho r hr hown)
  · rw [hids, Finset.mem_erase] at hu
    exact hmem u hu.1 (h.queued u hu.2)
  · rw [hwork] at hj; exact absurd hj (by simp)

theorem kept_workerGet {now leaseNow wallNow : ℚ} {suspected : Str → Bool} {nonce : Str}
    (h : N.Scheduled s) (hw : s.worker = .waiting) :
    N.Kept (N.workerGet s now leaseNow wallNow suspected nonce) := by
  have hwin : s.worker.job = none := by rw [hw]; rfl
  rcases N.workerGet_cases s wallNow nonce now leaseNow suspected with
    ⟨-, hs⟩ | ⟨taskId, q, s₁, hget, rfl, ⟨hr, hs⟩ | ⟨job, hid, -, -, -, -, -, hs⟩⟩
  · rw [hs]; exact Or.inr h
  · -- dropped: terminal, or a live claim of another peer
    rw [hs]
    refine Or.inr (scheduled_pop h hget rfl rfl (fun _ _ => rfl) hwin (fun r hg hst => ?_)
      fun r hg hown => ?_)
    · rcases hr r hg with h1 | ⟨h1, -⟩ <;> rw [hst] at h1 <;> exact absurd h1 (by decide)
    · rcases hr r hg with h1 | ⟨-, h1⟩
      · have h2 := hown.1
        cases hst : r.state <;> rw [hst] at h1 h2 <;> simp_all [TaskState.isTerminal,
          TaskState.isClaim]
      · exact absurd hown.2 h1
  · -- claimed: the worker is at it
    subst hid
    rw [hs]
    obtain ⟨x, s₂, rfl, rfl, hc⟩ := N.claimTask_cases
      { s with queue := q, queuedTaskIds := s.queuedTaskIds.erase job.taskId } wallNow nonce job
    have hlt := N.localUpdate_tasks s.toReplica job.taskId (N.claimRecord job .claimed)
    have hother : ∀ u, u ≠ job.taskId → (N.localUpdate s.toReplica job.taskId
        (N.claimRecord job .claimed)).1.tasks.get u = s.tasks.get u := fun u hu => by
      rw [hlt, Dict.get_set_ne _ _ (Ne.symm hu)]
    have hself : ∀ r, (N.localUpdate s.toReplica job.taskId
        (N.claimRecord job .claimed)).1.tasks.get job.taskId = some r →
        r.state ≠ .pending ∧ job.newToken = r.fenceToken := by
      intro r hr
      rw [hlt, Dict.get_set_self, Option.some.injEq] at hr
      rw [← hr]; simp [claimRecord]
    rcases hc with hc | hc | ⟨p, msg, rest, hc⟩
    · rw [hc]; exact Or.inl rfl
    · -- no peers: the handler starts at once
      rw [hc]
      refine Or.inr (scheduled_pop h hget rfl rfl
        (fun u hu => (Dict.get_set_ne _ _ (Ne.symm hu)).trans (hother u hu)) hwin (fun r hr => ?_)
        fun r hr _ => ⟨job, rfl, rfl, ?_⟩)
      all_goals
        have hr' : N.claimRecord job .running _ = r :=
          Option.some.inj ((Dict.get_set_self _ _ _).symm.trans hr)
        rw [← hr']; simp [claimRecord]
    · rw [hc]
      exact Or.inr (scheduled_pop h hget rfl rfl hother hwin (fun r hr => (hself r hr).1)
        fun r hr _ => ⟨job, rfl, rfl, (hself r hr).2⟩)

/-- The lease of a job begins when the task is claimed. -/
theorem workerGet_lease {now leaseNow wallNow : ℚ} {suspected : Str → Bool} {nonce : Str} {job : Job}
    (hw : s.worker.job = none)
    (hj : (N.step s (.workerGet now leaseNow wallNow suspected nonce)).worker.job = some job) :
    job.leaseExp = leaseNow + N.taskLeaseDuration job.record.payload := by
  simp only [step] at hj
  split at hj
  swap; · exact absurd (hw.symm.trans hj) (by simp)
  rcases N.workerGet_cases s wallNow nonce now leaseNow suspected with
    ⟨-, hs⟩ | ⟨taskId, q, s₁, -, rfl, ⟨-, hs⟩ | ⟨job', -, -, -, -, -, hlease, hs⟩⟩ <;> rw [hs] at hj
  · exact absurd (hw.symm.trans hj) (by simp)
  · exact absurd (hw.symm.trans hj) (by simp)
  · obtain ⟨x, s₂, -, -, hc | hc | ⟨p, msg, rest, hc⟩⟩ := N.claimTask_cases
      { s with queue := q, queuedTaskIds := s.queuedTaskIds.erase taskId } wallNow nonce job' <;>
      rw [hc] at hj
    · exact absurd hj (by simp [Worker.job])
    all_goals exact Option.some.inj hj ▸ hlease

theorem taskLeaseDuration_pos (h : 0 < N.leaseDuration) (payload : Bytes) :
    0 < N.taskLeaseDuration payload := by
  simp only [taskLeaseDuration]
  split
  · split_ifs with hq
    · exact h
    · exact not_le.1 fun h0 => hq (Or.inl h0)
  · exact h

theorem kept_finishCommit {job : Job} {st : TaskState} {wallNow : ℚ} {nonce : Str}
    (h : N.Scheduled { s with worker := .waiting }) :
    N.Kept (N.finishCommit s job st wallNow nonce) := by
  obtain ⟨s₁, hrep, hq, hids, -, hf | hf | hf⟩ := N.finishCommit_cases s wallNow nonce job st <;>
    rw [hf]
  · exact Or.inl rfl
  · exact Or.inr (h.congr (congrArg Replica.tasks hrep) hq hids rfl)
  · exact Or.inr (h.congr (congrArg Replica.tasks hrep) hq hids rfl)

theorem kept_handlerDone {outcome : Except Str Bytes} {now wallNow : ℚ} {nonce : Str}
    (h : N.Scheduled s) (hok : N.SchedulingOk s (.handlerDone outcome now wallNow nonce)) :
    N.Kept (N.handlerDone s outcome now wallNow nonce) := by
  unfold handlerDone
  cases hw : s.worker with
  | handling job =>
    have hwin : s.worker.job = some job := by rw [hw]; rfl
    have hgive : (∀ r, s.tasks.get job.taskId = some r → N.Own r → job.taskId ∈ s.queue.items) →
        N.Scheduled { s.bump .rejected with worker := .waiting } := by
      intro hown
      refine h.of_task job.taskId h.queued (fun _ _ => rfl) (fun _ _ hu => hu)
        (fun job' hj hne => ?_) (h.pending job.taskId) fun r hr ho => Or.inl (hown r hr ho)
      rw [hwin, Option.some.injEq] at hj
      exact absurd (congrArg Job.taskId hj.symm) hne
    simp only
    split_ifs with h1 h2
    · exact Or.inr (hgive fun r hr ho => hok job r hw h1 hr ho)
    · -- a larger token is stored, so an own claim is not the worker's
      refine Or.inr (hgive fun r hr ho => (h.own _ r hr ho).resolve_right ?_)
      rintro ⟨job', hj, -, htok⟩
      rw [hwin, Option.some.injEq] at hj
      subst hj
      simp [superseded, hr, htok] at h2
    · -- committed: the task is terminal
      obtain ⟨x, s₁, st, rfl, rfl, hc⟩ := N.commitTask_cases s wallNow nonce job outcome
      have hdone : ∀ s' : NodeState, s'.toReplica = (N.localUpdate s.toReplica job.taskId
          (N.commitRecord job outcome)).1 → s'.queue = s.queue →
          s'.queuedTaskIds = s.queuedTaskIds → N.Scheduled s' := by
        intro s' hrep hq hids
        have htasks : s'.tasks = _ := (congrArg Replica.tasks hrep).trans
          (N.localUpdate_tasks s.toReplica job.taskId (N.commitRecord job outcome))
        have hself : ∀ r, s'.tasks.get job.taskId = some r → r.state.isTerminal = true := by
          intro r hr
          rw [htasks, Dict.get_set_self, Option.some.injEq] at hr
          rw [← hr]
          cases outcome <;> simp [commitRecord, TaskState.isTerminal]
        refine h.of_task job.taskId (by rw [hq, hids]; exact h.queued)
          (fun u hu => by rw [htasks, Dict.get_set_ne _ _ (Ne.symm hu)])
          (fun u _ hu => by rw [hq]; exact hu) (fun job' hj hne => ?_) (fun r hr hst => ?_)
          fun r hr hown => ?_
        · rw [hwin, Option.some.injEq] at hj
          exact absurd (congrArg Job.taskId hj.symm) hne
        · have ht := hself r hr
          rw [hst] at ht; exact absurd ht (by decide)
        · have ht := hself r hr
          have hc := hown.1
          cases hst : r.state <;> rw [hst] at ht hc <;> simp_all [TaskState.isTerminal,
            TaskState.isClaim]
      rcases hc with hc | hc | ⟨p, msg, rest, hc⟩
      · rw [hc]; exact Or.inl rfl
      · rw [hc]; exact kept_finishCommit (hdone _ rfl rfl rfl)
      · rw [hc]; exact Or.inr (hdone _ rfl rfl rfl)
  | _ => exact Or.inr h

theorem kept_workerSent {wallNow : ℚ} {nonce : Str} (h : N.Scheduled s) :
    N.Kept (N.workerSent s wallNow nonce) := by
  unfold workerSent
  cases hw : s.worker with
  | claiming job msg rest =>
    cases rest with
    | nil =>
      refine Or.inr (scheduled_startHandler h fun job' hj => ?_)
      rw [hw] at hj; exact congrArg Job.taskId (Option.some.inj hj.symm)
    | cons p rest => exact Or.inr (h.congr rfl rfl rfl (by rw [hw]; rfl))
  | committing job st msg rest =>
    cases rest with
    | nil => exact kept_finishCommit (h.congr rfl rfl rfl (by rw [hw]; rfl))
    | cons p rest => exact Or.inr (h.congr rfl rfl rfl (by rw [hw]; rfl))
  | crediting => exact Or.inr (h.congr rfl rfl rfl (by rw [hw]; rfl))
  | _ => exact Or.inr h

end

/-! ## Recovery -/

section
variable {N}

/-- Queueing the recovered tasks: all pending ones get in if they fit. -/
theorem requeue_fold : ∀ (l : List (Str × TaskRecord)) (s : NodeState),
    (∀ u ∈ s.queuedTaskIds, u ∈ s.queue.items) →
    (s.queue.maxsize ≤ 0 ∨ (s.queue.heap.length + (l.filter fun e => e.2.state = .pending).length :
      ℤ) ≤ s.queue.maxsize) →
    (l.foldl (fun s e => s.enqueuePending e.1 e.2) s).toReplica = s.toReplica ∧
    (∀ u ∈ (l.foldl (fun s e => s.enqueuePending e.1 e.2) s).queuedTaskIds,
      u ∈ (l.foldl (fun s e => s.enqueuePending e.1 e.2) s).queue.items) ∧
    (∀ u ∈ s.queue.items, u ∈ (l.foldl (fun s e => s.enqueuePending e.1 e.2) s).queue.items) ∧
    ∀ e ∈ l, e.2.state = .pending →
      e.1 ∈ (l.foldl (fun s e => s.enqueuePending e.1 e.2) s).queue.items
  | [], s, hq, _ => ⟨rfl, hq, fun _ hu => hu, by simp⟩
  | e :: l, s, hq, hfit => by
    have hcount : ((e :: l).filter fun e => e.2.state = .pending).length =
        (if e.2.state = .pending then 1 else 0) +
          (l.filter fun e => e.2.state = .pending).length := by
      by_cases he : e.2.state = .pending <;> simp [he, Nat.add_comm]
    rw [hcount] at hfit
    rw [List.foldl_cons]
    rcases enqueuePending_cases s e.1 e.2 with ⟨he, hn⟩ | ⟨q, hput, he⟩
    · -- not pending, or queued already: the queue cannot be full
      have hin : e.2.state = .pending → e.1 ∈ s.queue.items := by
        intro hst
        rcases hn hst with hid | hfull
        · exact hq _ hid
        · rw [if_pos hst] at hfit
          unfold BackpressureQueue.full at hfull
          split_ifs at hfull with h0
          simp only [decide_eq_true_eq] at hfull
          rcases hfit with hfit | hfit
          · exact absurd hfit h0
          · push_cast at hfit; omega
      rw [he]
      obtain ⟨h1, h2, h3, h4⟩ := requeue_fold l s hq (hfit.imp_right fun h => by
        refine le_trans ?_ h; push_cast; split_ifs <;> omega)
      refine ⟨h1, h2, h3, fun e' he' hst => ?_⟩
      rcases List.mem_cons.1 he' with rfl | he'
      exacts [h3 _ (hin hst), h4 e' he' hst]
    · have hmem := fun u => BackpressureQueue.mem_put (t := u) hput
      have hpend : e.2.state = .pending := by
        by_contra hst
        have hsame : s.enqueuePending e.1 e.2 = s := by
          unfold NodeState.enqueuePending; rw [if_neg fun h => hst h.1]
        have hlen := congrArg (fun s => s.queue.heap.length) (hsame.symm.trans he)
        obtain ⟨-, rfl⟩ := BackpressureQueue.put_ok_iff.1 hput
        simp [List.orderedInsert_length] at hlen
      obtain ⟨-, hq'⟩ := BackpressureQueue.put_ok_iff.1 hput
      have hlen : q.heap.length = s.queue.heap.length + 1 := by
        rw [hq']; simp [List.orderedInsert_length]
      have hmax : q.maxsize = s.queue.maxsize := by rw [hq']
      rw [he]
      obtain ⟨h1, h2, h3, h4⟩ := requeue_fold l
        { s with queue := q, queuedTaskIds := insert e.1 s.queuedTaskIds }
        (fun u hu => by
          rcases Finset.mem_insert.1 hu with rfl | hu
          exacts [(hmem _).2 (Or.inl rfl), (hmem u).2 (Or.inr (hq u hu))])
        (by
          simp only [hmax, hlen]
          rw [if_pos hpend] at hfit
          exact hfit.imp_right fun h => by push_cast at h ⊢; omega)
      refine ⟨h1, h2, fun u hu => h3 u ((hmem u).2 (Or.inr hu)), fun e' he' hst => ?_⟩
      rcases List.mem_cons.1 he' with rfl | he'
      exacts [h3 _ ((hmem _).2 (Or.inl rfl)), h4 e' he' hst]

theorem kept_boot {file : Option Bytes} {journal : List LogEntry}
    (h : ∀ W f, N.wal = some W → W.openFile file = .ok f →
      (∀ t r, (N.recovered W f journal).tasks.get t = some r → ¬ N.Own r) ∧
      (N.maxQueueSize ≤ 0 ∨ (((N.recovered W f journal).tasks.entries.filter fun e =>
        e.2.state = .pending).length : ℤ) ≤ N.maxQueueSize)) : N.Kept (N.boot file journal) := by
  rcases N.boot_cases file journal with ⟨-, hb⟩ | ⟨W, hW, ⟨-, hb⟩ | ⟨f, s, ho, rfl, hb | hb⟩⟩ <;>
    rw [hb]
  · exact Or.inr ⟨by simp [startLoops, fresh], by simp [startLoops, fresh],
      by simp [startLoops, fresh]⟩
  · exact Or.inl rfl
  · exact Or.inl rfl
  · obtain ⟨hown, hfit⟩ := h W f hW ho
    obtain ⟨h1, h2, h3, h4⟩ := requeue_fold (N.recovered W f journal).tasks.entries
      { N.opened f (journal.take (W.replay R false f).1.length) with
        toReplica := N.recovered W f journal } (by simp [opened, fresh])
      (by simpa [opened, fresh] using hfit)
    have htasks := congrArg Replica.tasks h1
    refine Or.inr ⟨h2, fun t r hr hst => ?_, fun t r hr ho' => ?_⟩
    · exact h4 (t, r) (Dict.mem_entries.2 (htasks ▸ hr)) hst
    · exact absurd ho' (hown t r (htasks ▸ hr))

end

/-! ## Runs -/

/-- A sweep of a node with a handler only queues tasks. -/
theorem kept_sweep (hh : N.hasHandler = true) {now wallNow : ℚ} {livePeers : List Str}
    {suspected : Str → Bool} {nonce : Str} {s : NodeState} {l : List (Str × TaskRecord)}
    (h : N.Kept s) : N.Kept (N.sweep now livePeers suspected wallNow nonce s l) := by
  have hfalse : ¬ N.hasHandler = false := by simp [hh]
  refine N.sweep_invariant (I := N.Kept) (J := fun s _ => N.Kept s) (fun _ _ _ h => h)
    (fun s m _ h => h.imp id fun h => h.quiet (.bump s m)) (fun _ s t _ _ h => ?_)
    (fun hf => absurd hf hfalse) (fun _ h => h.imp id fun h => h.congr rfl rfl rfl rfl)
    (fun _ _ h => h.imp id fun h => h.congr rfl rfl rfl rfl) (fun hf => absurd hf hfalse) l s h
  refine h.imp (fun h => ?_) fun h => h.tryEnqueue t 10
  unfold NodeState.tryEnqueue
  split <;> exact h

/-- Every step that meets its condition keeps the schedule. -/
theorem kept_step (hh : N.hasHandler = true) {s : NodeState} {e : Event} (h : N.Kept s)
    (hok : N.SchedulingOk s e) : N.Kept (N.step s e) := by
  have hquiet : ∀ s', Quiet s s' → N.Kept s' := fun s' hq =>
    h.imp (fun hs => hq.worker.trans hs) fun hs => hs.quiet hq
  cases e with
  | submit taskId payload priority =>
    have hframe := N.step_submit_frame s taskId payload priority
    refine h.imp (fun hs => hframe.worker.trans hs) fun hs => ?_
    simp only [step]
    split_ifs
    · exact scheduled_submit hs hok
    · exact hs
  | recv sender msg wallNow =>
    simp only [SchedulingOk] at hok
    rcases h with h | h
    · exact Or.inl ((N.step_recv_worker s sender msg wallNow).trans h)
    · exact Or.inr (step_recv_invariant (I := N.Scheduled) (fun _ _ hq h => h.quiet hq)
        (fun _ _ _ h hr => scheduled_gossipItem h hr) h hok)
  | workerGet now leaseNow wallNow suspected nonce =>
    simp only [step]
    cases hw : s.worker with
    | waiting => exact kept_workerGet (h.resolve_left (by rw [hw]; simp)) hw
    | _ => exact h
  | workerSent wallNow nonce =>
    rcases h with h | h
    · simp only [step, workerSent, h]; exact Or.inl h
    · exact kept_workerSent h
  | handlerDone outcome now wallNow nonce =>
    rcases h with h | h
    · simp only [step, handlerDone, h]; exact Or.inl h
    · exact kept_handlerDone h hok
  | reclaimSweep now wallNow suspected nonce =>
    simp only [step, reclaimSweep]
    split
    · exact N.kept_sweep hh h
    · exact h
  | reclaimSent wallNow suspected nonce =>
    simp only [step, reclaimSent]
    split
    · exact N.kept_sweep hh h
    · exact h.imp id fun h => h.congr rfl rfl rfl rfl
    · exact h
  | gossipRound partner wallNow nonce =>
    exact hquiet _ (N.step_gossipRound_quiet s partner wallNow nonce)
  | heartbeatRound now wallNow nonce =>
    exact hquiet _ (N.step_heartbeatRound_quiet s now wallNow nonce)
  | restart cut =>
    exact (kept_boot hok).imp id fun hs => hs.congr rfl rfl rfl rfl

theorem kept_initial : N.Kept N.initial := by
  refine kept_boot fun W f _ ho => ?_
  obtain rfl : walMagic = f := Except.ok.inj ho
  have hread : (W.replay R false walMagic).1 = [] := rfl
  have htasks : (N.recovered W walMagic []).tasks = .empty := by
    unfold recovered; rw [hread]; rfl
  rw [htasks]
  refine ⟨by simp, ?_⟩
  change N.maxQueueSize ≤ 0 ∨ ((0 : ℕ) : ℤ) ≤ N.maxQueueSize
  rw [Nat.cast_zero]
  exact le_total _ _

/-- **No task is stranded** in a run whose steps take none of the branches that drop a task. -/
theorem none_stranded (hh : N.hasHandler = true) {es : List Event}
    (hok : Along N.SchedulingOk N.step N.initial es) : N.NoneStranded (run N.step N.initial es) := by
  intro hw hq t r hr
  have h := (hok.invariant (I := N.Kept) (fun s e h hc => N.kept_step hh h hc) N.kept_initial)
  have hs := h.resolve_left (by rw [hw]; simp)
  refine ⟨fun hst => ?_, fun hown => ?_⟩
  · have := hs.pending t r hr hst
    rw [hq] at this; simp at this
  · rcases hs.own t r hr hown with hi | ⟨job, hj, -⟩
    · rw [hq] at hi; simp at hi
    · rw [hw] at hj; exact absurd hj (by simp [Worker.job])

namespace Sample

/-- The node `c` alone: without security, peers and log, with a handler. -/
noncomputable def soloC : PeerNode runtime := { workerC with
  peers := []
  peers_ok := by decide +kernel }

end Sample

theorem none_stranded_done : Sample.soloC.NoneStranded (run Sample.soloC.step Sample.soloC.initial
    (Sample.claimSteps ++ [.handlerDone (.ok []) 0 0 (str "n")])) := by
  refine Sample.soloC.none_stranded rfl ⟨Or.inr ⟨rfl, nofun⟩, trivial, ?_, trivial⟩
  intro job r hw hlate
  have hidle : (Sample.soloC.step Sample.soloC.initial
      (.submit (str "t") [] 0)).worker.job = none := rfl
  have hlease := workerGet_lease hidle (congrArg Worker.job hw)
  have := taskLeaseDuration_pos (N := Sample.soloC) (by decide) job.record.payload
  linarith

/-- A handler that runs past its lease leaves the task `RUNNING` in the name of the node, which
    waits at an empty queue. -/
theorem stranded_overrun :
    ¬ ∀ (R : Runtime) (N : PeerNode R) (es : List Event), R.ed25519.Lawful → N.hasHandler = true →
      N.NoneStranded (run N.step N.initial es) := by
  intro h
  have hjob : (run Sample.soloC.step Sample.soloC.initial
      Sample.claimSteps).worker.handled.isSome = true := by decide
  have hitems : (run Sample.soloC.step Sample.soloC.initial Sample.claimSteps).queue.items = [] := by
    decide
  have hstore : ((run Sample.soloC.step Sample.soloC.initial Sample.claimSteps).tasks.get
      (str "t")).map (fun r => (r.state, r.claimedBy)) = some (.running, some (str "c")) := by
    decide
  cases hw : (run Sample.soloC.step Sample.soloC.initial Sample.claimSteps).worker with
  | handling job =>
    have hlate := h Sample.runtime Sample.soloC
      (Sample.claimSteps ++ [.handlerDone (.ok []) (job.leaseExp + 1) 0 (str "n")])
      Ed25519.suffix_lawful rfl
    obtain ⟨r, hr, hrs⟩ := Option.map_eq_some_iff.1 hstore
    obtain ⟨hst, hby⟩ := Prod.mk.inj hrs
    rw [run_concat] at hlate
    simp only [step, handlerDone, hw, if_pos (lt_add_one job.leaseExp)] at hlate
    exact (hlate rfl hitems (str "t") r hr).2 ⟨by rw [hst]; rfl, hby⟩
  | _ => rw [hw] at hjob; exact absurd hjob (by simp [Worker.handled])

end PeerNode

end PeerQ
