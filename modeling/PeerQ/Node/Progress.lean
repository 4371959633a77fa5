/-
  Progress of the worker: how many turns it needs until the queue is empty.

  A queued task takes at most `2 * peers + 3` turns of the worker: one to take it
  out of the queue, one for each send of the claim, one for the handler, one for
  each send of the outcome and one for the credit.  So the tasks that are queued
  and the rest of the round at hand bound the work that is left (`workload`), and a
  run in which the worker has more turns than that and what is queued meanwhile
  finds it waiting at an empty queue (`worker_drains`).
-/
import PeerQ.Lib.Potential
import PeerQ.Node.Writes
import PeerQ.Node.Scheduling

namespace PeerQ

open Py

/-- The turns that a round of the worker takes from here on, at most. -/
def Worker.remaining (peers : ℕ) : Worker → ℕ
  | .stopped | .waiting => 0
  | .crediting => 1
  | .committing _ _ _ rest => rest.length + 2
  | .handling _ => peers + 2
  | .claiming _ _ rest => rest.length + peers + 3

section
variable (peers : ℕ) (job : Job) (st : TaskState) (msg : Message) (rest : List Str)

@[simp] theorem Worker.remaining_stopped : Worker.stopped.remaining peers = 0 := rfl

@[simp] theorem Worker.remaining_waiting : Worker.waiting.remaining peers = 0 := rfl

@[simp] theorem Worker.remaining_crediting : Worker.crediting.remaining peers = 1 := rfl

@[simp] theorem Worker.remaining_committing :
    (Worker.committing job st msg rest).remaining peers = rest.length + 2 := rfl

@[simp] theorem Worker.remaining_handling : (Worker.handling job).remaining peers = peers + 2 := rfl

@[simp] theorem Worker.remaining_claiming :
    (Worker.claiming job msg rest).remaining peers = rest.length + peers + 3 := rfl

end

namespace PeerNode

variable {R : Runtime} (N : PeerNode R)

/-- The turns for a queued task, at most. -/
def taskCost : ℕ := 2 * N.peers.length + 3

/-- The turns that the worker needs for what is queued and at hand, at most. -/
def workload (s : NodeState) : ℕ :=
  s.worker.remaining N.peers.length + N.taskCost * s.queue.items.length

/-- The worker waits at an empty queue. -/
def Drained (s : NodeState) : Prop := s.worker = .waiting ∧ s.queue.items = []

/-- The event that the worker waits for. -/
def isTurn (s : NodeState) : Event → Bool
  | .workerGet .. => match s.worker with
    | .waiting => true
    | _ => false
  | .workerSent .. => match s.worker with
    | .claiming .. | .committing .. | .crediting => true
    | _ => false
  | .handlerDone .. => match s.worker with
    | .handling _ => true
    | _ => false
  | _ => false

/-- The turns of the worker in a run. -/
def turns (s : NodeState) (es : List Event) : ℕ :=
  runSum (fun s e => if isTurn s e then 1 else 0) N.step s es

/-- The queue entries that the steps of a run add. -/
def admitted (s : NodeState) (es : List Event) : ℕ :=
  runSum (fun s e => (N.step s e).queue.items.length - s.queue.items.length) N.step s es

section
variable {N} {s : NodeState}

/-- A step that leaves the worker where it is or ends its round. -/
theorem workload_of_remaining {s' : NodeState} {work : ℕ}
    (h : work + s'.worker.remaining N.peers.length ≤ s.worker.remaining N.peers.length) :
    work + N.workload s' ≤
      N.workload s + N.taskCost * (s'.queue.items.length - s.queue.items.length) := by
  have hitems : N.taskCost * s'.queue.items.length ≤ N.taskCost * s.queue.items.length +
      N.taskCost * (s'.queue.items.length - s.queue.items.length) := by
    rw [← Nat.mul_add]
    exact Nat.mul_le_mul_left _ (by omega)
  unfold workload
  omega

theorem finishCommit_remaining (job : Job) (st : TaskState) (wallNow : ℚ) (nonce : Str) :
    (N.finishCommit s job st wallNow nonce).worker.remaining N.peers.length ≤ 1 := by
  obtain ⟨s₁, -, -, -, -, h | h | h⟩ := N.finishCommit_cases s wallNow nonce job st <;> rw [h] <;> simp

theorem commitTask_remaining (job : Job) (outcome : Except Str Bytes) (wallNow : ℚ) (nonce : Str) :
    (N.commitTask s job outcome wallNow nonce).worker.remaining N.peers.length ≤
      N.peers.length + 1 := by
  unfold commitTask
  simp only
  split
  · simp
  · split
    · exact (finishCommit_remaining _ _ _ _).trans (Nat.le_add_left _ _)
    · next hpeers => simp [hpeers]

theorem claimTask_remaining (job : Job) (wallNow : ℚ) (nonce : Str) :
    (N.claimTask s job wallNow nonce).worker.remaining N.peers.length ≤ 2 * N.peers.length + 2 := by
  unfold claimTask
  simp only
  split
  · simp
  · split
    · simp only [startHandler, Worker.remaining_handling]
      omega
    · next hpeers =>
      simp only [Worker.remaining_claiming, hpeers, List.length_cons]
      omega

theorem claimTask_queue (job : Job) (wallNow : ℚ) (nonce : Str) :
    (N.claimTask s job wallNow nonce).queue = s.queue := by
  obtain ⟨x, s₁, rfl, rfl, h | h | ⟨p, msg, rest, h⟩⟩ := N.claimTask_cases s wallNow nonce job <;>
    rw [h] <;> rfl

/-- Taking a task out of the queue uses up its turns. -/
theorem workerGet_workload (hw : s.worker = .waiting) (hq : s.queue.items ≠ [])
    (now leaseNow wallNow : ℚ) (suspected : Str → Bool) (nonce : Str) :
    1 + N.workload (N.workerGet s now leaseNow wallNow suspected nonce) ≤ N.workload s := by
  obtain ⟨hnil, -⟩ | ⟨taskId, q, s₁, hg, hs₁, h⟩ :=
    N.workerGet_cases s wallNow nonce now leaseNow suspected
  · exact absurd hnil hq
  have hqueue : s₁.queue = q := by rw [hs₁]
  have hload : N.workload s = N.taskCost * s₁.queue.items.length + (2 * N.peers.length + 3) := by
    rw [workload, hw, Worker.remaining_waiting, BackpressureQueue.get_eq_some hg, List.length_cons,
      hqueue, Nat.mul_add, Nat.zero_add, Nat.mul_one, ← taskCost]
  rcases h with ⟨-, h⟩ | ⟨job, -, -, -, -, -, -, h⟩
  · have hw₁ : s₁.worker = .waiting := by rw [hs₁, ← hw]
    rw [h, hload, workload, hw₁, Worker.remaining_waiting]
    omega
  · have hclaim := claimTask_remaining (N := N) (s := s₁) job wallNow nonce
    rw [h, hload, workload, claimTask_queue]
    omega

/-- **A turn of the worker uses up a part of its workload**, and no other step adds to it but by
    queueing. -/
theorem step_workload (hs : ¬ Drained s) (e : Event) :
    (if isTurn s e then 1 else 0) + N.workload (N.step s e) ≤ N.workload s +
      N.taskCost * ((N.step s e).queue.items.length - s.queue.items.length) := by
  have hsame : ∀ {e' : Event}, isTurn s e' = false → (N.step s e').worker = s.worker →
      (if isTurn s e' then 1 else 0) + N.workload (N.step s e') ≤ N.workload s +
        N.taskCost * ((N.step s e').queue.items.length - s.queue.items.length) := by
    intro e' he hw
    refine workload_of_remaining ?_
    rw [hw, he]
    simp
  cases e with
  | submit taskId payload priority =>
    exact hsame rfl (N.step_submit_frame s taskId payload priority).worker
  | recv sender msg wallNow => exact hsame rfl (N.step_recv_worker s sender msg wallNow)
  | workerGet now leaseNow wallNow suspected nonce =>
    cases hw : s.worker with
    | waiting =>
      have hq : s.queue.items ≠ [] := fun hnil => hs ⟨hw, hnil⟩
      have := workerGet_workload (N := N) hw hq now leaseNow wallNow suspected nonce
      simp only [isTurn, step, hw, if_true]
      omega
    | _ => exact hsame (by simp [isTurn, hw]) (by simp [step, hw])
  | workerSent wallNow nonce =>
    cases hw : s.worker with
    | claiming job msg rest =>
      refine workload_of_remaining ?_
      cases rest with
      | nil =>
        simp only [isTurn, step, workerSent, startHandler, hw, Worker.remaining_claiming,
          Worker.remaining_handling, if_true, List.length_nil]
        omega
      | cons p rest =>
        simp only [isTurn, step, workerSent, hw, Worker.remaining_claiming, if_true, List.length_cons]
        omega
    | committing job st msg rest =>
      refine workload_of_remaining ?_
      cases rest with
      | nil =>
        have := finishCommit_remaining (N := N) (s := s) job st wallNow nonce
        simp only [isTurn, step, workerSent, hw, Worker.remaining_committing, if_true, List.length_nil]
        omega
      | cons p rest =>
        simp only [isTurn, step, workerSent, hw, Worker.remaining_committing, if_true, List.length_cons]
        omega
    | crediting =>
      refine workload_of_remaining ?_
      simp [isTurn, step, workerSent, hw]
    | _ => exact hsame (by simp [isTurn, hw]) (by simp [step, workerSent, hw])
  | handlerDone outcome now wallNow nonce =>
    cases hw : s.worker with
    | handling job =>
      refine workload_of_remaining ?_
      have := commitTask_remaining (N := N) (s := s) job outcome wallNow nonce
      simp only [isTurn, step, handlerDone, hw, Worker.remaining_handling, if_true]
      split_ifs
      · simp
      · simp
      · omega
    | _ => exact hsame (by simp [isTurn, hw]) (by simp [step, handlerDone, hw])
  | reclaimSweep now wallNow suspected nonce => exact hsame rfl (step_reclaims_frame rfl).worker
  | reclaimSent wallNow suspected nonce => exact hsame rfl (step_reclaims_frame rfl).worker
  | gossipRound partner wallNow nonce =>
    exact hsame rfl (N.step_gossipRound_quiet s partner wallNow nonce).worker
  | heartbeatRound now wallNow nonce =>
    exact hsame rfl (N.step_heartbeatRound_quiet s now wallNow nonce).worker
  | restart cut =>
    -- a started worker waits
    refine workload_of_remaining ?_
    obtain ⟨p, q, ids, up, s₁, rfl, h | h⟩ := N.boot_fresh (s.walFile.map (·.take cut)) s.journal
    · simp [isTurn, step, h, fresh]
    · cases hh : N.hasHandler <;> simp [isTurn, step, h, startLoops, hh]

/-- Nothing is left for a worker that waits at an empty queue. -/
theorem Kept.drained (h : N.Kept s) (hd : Drained s) (t : Str) (r : TaskRecord)
    (hr : s.tasks.get t = some r) : r.state ≠ .pending ∧ ¬ N.Own r := by
  have hs := h.resolve_left (by rw [hd.1]; simp)
  refine ⟨fun hst => ?_, fun hown => ?_⟩
  · exact absurd (hs.pending t r hr hst) (by rw [hd.2]; simp)
  · obtain hi | ⟨job, hj, -⟩ := hs.own t r hr hown
    · exact absurd hi (by rw [hd.2]; simp)
    · exact absurd hj (by rw [hd.1]; simp [Worker.job])

end

/-- **The worker drains its queue.**  Whatever a node with a handler has been through and whatever goes
    on beside the worker, submissions, messages, sweeps and restarts: if from then on the worker has
    more turns than its workload and what is queued meanwhile can cost, it waits at an empty queue on
    the way, and then no task of the store is pending or claimed by the node. -/
theorem worker_drains (hh : N.hasHandler = true) {es fs : List Event}
    (hok : Along N.SchedulingOk N.step N.initial (es ++ fs))
    (hturns : N.workload (run N.step N.initial es) +
      N.taskCost * N.admitted (run N.step N.initial es) fs < N.turns (run N.step N.initial es) fs) :
    ∃ pre, pre <+: fs ∧ Drained (run N.step N.initial (es ++ pre)) ∧
      ∀ t r, (run N.step N.initial (es ++ pre)).tasks.get t = some r →
        r.state ≠ .pending ∧ ¬ N.Own r := by
  by_contra hnone
  push Not at hnone
  -- a drained state on the way has no task left, so there is none
  have hbusy : ∀ pre, pre <+: fs → ¬ Drained (run N.step (run N.step N.initial es) pre) := by
    intro pre hpre hd
    obtain ⟨post, rfl⟩ := hpre
    rw [← List.append_assoc] at hok
    rw [← run_append] at hd
    obtain ⟨t, r, hr, hleft⟩ := hnone pre (List.prefix_append _ _) hd
    have hkept := (Along.append.1 hok).1.invariant (fun s e h hc => N.kept_step hh h hc) N.kept_initial
    obtain ⟨hpending, hown⟩ := hkept.drained hd t r hr
    exact hown (hleft hpending)
  have hsteps : Along (fun s e => (if isTurn s e then 1 else 0) + N.workload (N.step s e) ≤ N.workload s +
      N.taskCost * ((N.step s e).queue.items.length - s.queue.items.length)) N.step
        (run N.step N.initial es) fs := Along.of_inits (fun _ e hs => step_workload hs e) hbusy
  have hwork := runSum_potential hsteps
  have hcredit : runSum (fun s e => N.taskCost * ((N.step s e).queue.items.length -
      s.queue.items.length)) N.step (run N.step N.initial es) fs =
        N.taskCost * N.admitted (run N.step N.initial es) fs := runSum_mul _ _ _ _ _
  rw [hcredit] at hwork
  unfold turns at hturns
  omega

namespace Sample

/-- The worker looks at its queue. -/
def turn : Event := .workerGet 0 0 0 (fun _ => false) (str "n")

/-- The handler ends, and the worker looks at its queue again. -/
def rounds : List Event := [.handlerDone (.ok []) 0 0 (str "n"), turn, turn]

theorem waiting_of_turn {s : NodeState} (h : isTurn s turn = true) : s.worker = .waiting := by
  cases hw : s.worker <;> simp_all [isTurn, turn]

theorem step_turn {s : NodeState} (h : Drained s) : soloC.step s turn = s := by
  rw [turn, step, h.1, workerGet, BackpressureQueue.get_eq_none.2 h.2]

noncomputable def claimed : NodeState := run soloC.step soloC.initial claimSteps

theorem claimed_lease {job : Job} (hw : claimed.worker = .handling job) : ¬ job.leaseExp < 0 := by
  have hidle : (soloC.step soloC.initial (.submit (str "t") [] 0)).worker.job = none := rfl
  have hclaimed : claimed = soloC.step (soloC.step soloC.initial (.submit (str "t") [] 0))
      (.workerGet 0 0 0 (fun _ => false) (str "n")) := rfl
  have hwindow := congrArg Worker.job hw
  rw [hclaimed] at hwindow
  have hlease := workerGet_lease hidle hwindow
  have := taskLeaseDuration_pos (N := soloC) (by decide) job.record.payload
  linarith

/-- The worker waits at an empty queue after the commit. -/
theorem claimed_done : Drained (soloC.step claimed (.handlerDone (.ok []) 0 0 (str "n"))) := by
  have hqueue : claimed.queue.items = [] := by decide +kernel
  have hcommit : claimed.worker.handled.any (fun job =>
      isTurn (soloC.commitTask claimed job (.ok []) 0 (str "n")) turn &&
        (soloC.commitTask claimed job (.ok []) 0 (str "n")).queue.items = []) = true := by
    decide +kernel
  cases hw : claimed.worker with
  | handling job =>
    simp only [hw, Worker.handled, Option.any_some, Bool.and_eq_true, decide_eq_true_eq] at hcommit
    simp only [step, handlerDone, hw, if_neg (claimed_lease hw)]
    split_ifs
    · exact ⟨rfl, hqueue⟩
    · exact ⟨waiting_of_turn hcommit.1, hcommit.2⟩
  | _ => simp [hw, Worker.handled] at hcommit

end Sample

theorem worker_drains_rounds :
    ∃ pre, pre <+: Sample.rounds ∧
      Drained (run Sample.soloC.step Sample.soloC.initial (Sample.claimSteps ++ pre)) ∧
      ∀ t r, (run Sample.soloC.step Sample.soloC.initial (Sample.claimSteps ++ pre)).tasks.get t = some r →
        r.state ≠ .pending ∧ ¬ Sample.soloC.Own r := by
  have hok : Along Sample.soloC.SchedulingOk Sample.soloC.step Sample.soloC.initial
      (Sample.claimSteps ++ Sample.rounds) := by
    refine ⟨Or.inr ⟨rfl, ?_⟩, trivial, ?_, trivial, trivial, trivial⟩
    · intro W hW
      cases hW
    · intro job r hw hlate
      exact absurd hlate (Sample.claimed_lease hw)
  have hload : Sample.soloC.workload Sample.claimed = 2 := by decide +kernel
  have hturn : isTurn Sample.claimed (.handlerDone (.ok []) 0 0 (str "n")) = true := by decide +kernel
  refine Sample.soloC.worker_drains rfl hok ?_
  change Sample.soloC.workload Sample.claimed + _ * Sample.soloC.admitted Sample.claimed Sample.rounds <
    Sample.soloC.turns Sample.claimed Sample.rounds
  have hd := Sample.claimed_done
  have hd' : isTurn (Sample.soloC.step Sample.claimed (.handlerDone (.ok []) 0 0 (str "n")))
      Sample.turn = true := by
    simp [isTurn, Sample.turn, hd.1]
  simp [admitted, turns, Sample.rounds, runSum, Sample.step_turn hd, hload, hturn, hd', hd.2]

end PeerNode

end PeerQ
