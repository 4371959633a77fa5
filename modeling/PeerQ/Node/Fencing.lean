/-
  Fencing: a worker between the claim of a task and its commit.

  While the claim is broadcast and while the handler runs, other steps of the
  node may store a record that supersedes the worker's: a terminal one, or one
  with a larger token.  The check after the handler protects such a record, if
  no terminal record with a smaller or the same token hides it; the transition
  to `RUNNING` does not look at the store at all.  `fencing` says under which
  conditions on the steps a superseding record is kept.
-/
import PeerQ.Node.Gossip

namespace PeerQ

open Py

/-- A record beyond the job's reach: terminal, or with a larger token. -/
def TaskRecord.Supersedes (m : TaskRecord) (job : Job) : Prop :=
  m.state.isTerminal = true ∨ job.newToken < m.fenceToken

namespace PeerNode

variable {R : Runtime} (N : PeerNode R)

/-- A step in the window of `job`, after `m` came into the store: the store keeps a record of at
    least the key of `m`, and a worker that has seen a larger token neither stores nor sends what
    its handler returned. -/
def Fenced (job : Job) (m : TaskRecord) (s : NodeState) (e : Event) : Prop :=
  (∃ r, (N.step s e).tasks.get job.taskId = some r ∧ latticeKey m ≤ latticeKey r) ∧
  (job.newToken < m.fenceToken → ∀ outcome now wallNow nonce,
    e = .handlerDone outcome now wallNow nonce →
      (N.step s e).tasks = s.tasks ∧ (N.step s e).sent = s.sent)

/-- The conditions on a step in the window. -/
def FenceOk (job : Job) (m : TaskRecord) (s : NodeState) : Event → Prop
  | .submit taskId _ _ => taskId ≠ job.taskId
  | .recv sender msg wallNow =>
    N.MessageRounds (fun sender s item => N.security.enabled = true → item.1 = job.taskId →
      N.Upheld sender s item) s sender msg wallNow
  | .workerSent _ _ => ∀ msg cur, s.worker = .claiming job msg [] →
    s.tasks.get job.taskId = some cur → ¬ cur.Supersedes job
  | .handlerDone _ now _ _ => ∀ cur, s.worker = .handling job → now ≤ job.leaseExp →
    s.tasks.get job.taskId = some cur → cur.state.isTerminal = true →
      job.newToken < cur.fenceToken ∨ cur.fenceToken < job.newToken ∧ m.fenceToken ≤ job.newToken
  | .restart _ => False
  | _ => True

section
variable {N} {job : Job} {m : TaskRecord} {s : NodeState}

/-- A record of at least the key of a superseding one supersedes. -/
theorem supersedes_of_key {r : TaskRecord} (hm : m.Supersedes job)
    (hk : latticeKey m ≤ latticeKey r) : r.Supersedes job := by
  obtain ⟨h1, h2⟩ := latticeKey_le hk
  rcases hm with hm | hm
  · exact Or.inl (h1 hm)
  · by_cases hr : r.state.isTerminal = true
    · exact Or.inl hr
    · exact Or.inr (lt_of_lt_of_le hm (h2 fun h => absurd h hr))

/-- The tasks after a commit. -/
theorem commitTask_tasks (s : NodeState) (job : Job) (outcome : Except Str Bytes) (wallNow : ℚ)
    (nonce : Str) : (N.commitTask s job outcome wallNow nonce).tasks =
      s.tasks.set job.taskId (N.commitRecord job outcome (s.vectorClock.increment N.nodeId)) := by
  obtain ⟨x, s₁, st, rfl, rfl, h | h | ⟨p, msg, rest, h⟩⟩ :=
    N.commitTask_cases s wallNow nonce job outcome
  · rw [h]; exact N.localUpdate_tasks _ _ _
  · obtain ⟨s₂, hs₂, -, -, -, h' | h' | h'⟩ := N.finishCommit_cases
      { s with toReplica := (N.localUpdate s.toReplica job.taskId (N.commitRecord job outcome)).1 }
      wallNow nonce job st <;> rw [h, h'] <;>
      exact (congrArg Replica.tasks hs₂).trans (N.localUpdate_tasks _ _ _)
  · rw [h]; exact N.localUpdate_tasks _ _ _

/-- The end of the handler: given up, or committed over a terminal record with a smaller token. -/
theorem fenced_handlerDone {outcome : Except Str Bytes} {now wallNow : ℚ} {nonce : Str}
    (hw : s.worker.job = some job) (hsup : m.Supersedes job)
    (hs : ∃ r, s.tasks.get job.taskId = some r ∧ latticeKey m ≤ latticeKey r)
    (hok : N.FenceOk job m s (.handlerDone outcome now wallNow nonce)) :
    N.Fenced job m s (.handlerDone outcome now wallNow nonce) := by
  have hsame : (N.step s (.handlerDone outcome now wallNow nonce)).tasks = s.tasks →
      (N.step s (.handlerDone outcome now wallNow nonce)).sent = s.sent →
      N.Fenced job m s (.handlerDone outcome now wallNow nonce) :=
    fun h1 h2 => ⟨h1 ▸ hs, fun _ _ _ _ _ _ => ⟨h1, h2⟩⟩
  cases hwk : s.worker with
  | handling job' =>
    obtain rfl : job' = job := by rw [hwk] at hw; exact Option.some.inj hw
    have hstep : N.step s (.handlerDone outcome now wallNow nonce) =
        if job'.leaseExp < now then { s.bump .rejected with worker := .waiting }
        else if superseded s job' then { s.bump .rejected with worker := .waiting }
        else N.commitTask s job' outcome wallNow nonce := by
      simp only [step, handlerDone, hwk]
    by_cases h1 : job'.leaseExp < now
    · rw [if_pos h1] at hstep
      exact hsame (by rw [hstep]; rfl) (by rw [hstep]; rfl)
    by_cases h2 : superseded s job' = true
    · rw [if_neg h1, if_pos h2] at hstep
      exact hsame (by rw [hstep]; rfl) (by rw [hstep]; rfl)
    rw [if_neg h1, if_neg h2] at hstep
    obtain ⟨cur, hcur, hkey⟩ := hs
    have htok : cur.fenceToken ≤ job'.newToken := by simpa [superseded, hcur] using h2
    -- what supersedes and was not noticed is terminal
    have hterm : cur.state.isTerminal = true :=
      (supersedes_of_key hsup hkey).resolve_right (not_lt.2 htok)
    obtain ⟨hlt, hmt⟩ := (hok cur hwk (not_lt.1 h1) hcur hterm).resolve_left (not_lt.2 htok)
    refine ⟨⟨N.commitRecord job' outcome (s.vectorClock.increment N.nodeId), ?_, ?_⟩,
      fun h => absurd h (not_lt.2 hmt)⟩
    · rw [hstep, commitTask_tasks, Dict.get_set_self]
    · refine hkey.trans (latticeKey_lt_token ?_ ?_).le
      · rw [hterm]; cases outcome <;> simp [commitRecord, TaskState.isTerminal]
      · simpa [commitRecord] using hlt
  | _ => exact hsame (by simp only [step, handlerDone, hwk]) (by simp only [step, handlerDone, hwk])

/-- Every step that meets its condition is fenced. -/
theorem fenced_step (hh : N.hasHandler = true) (hw : s.worker.job = some job)
    (hsup : m.Supersedes job)
    (hs : ∃ r, s.tasks.get job.taskId = some r ∧ latticeKey m ≤ latticeKey r) {e : Event}
    (hok : N.FenceOk job m s e) : N.Fenced job m s e := by
  have hsame : (∀ outcome now wallNow nonce, e ≠ .handlerDone outcome now wallNow nonce) →
      (N.step s e).tasks.get job.taskId = s.tasks.get job.taskId → N.Fenced job m s e :=
    fun hne h => ⟨h ▸ hs, fun _ o n w c he => absurd he (hne o n w c)⟩
  cases e with
  | handlerDone outcome now wallNow nonce => exact fenced_handlerDone hw hsup hs hok
  | restart cut => exact hok.elim
  | submit taskId payload priority =>
    refine hsame (by simp) ?_
    simp only [step]
    split_ifs
    · have hset : ∀ r, (s.tasks.set taskId r).get job.taskId = s.tasks.get job.taskId :=
        fun r => Dict.get_set_ne _ _ hok
      obtain ⟨-, _, h | h⟩ | ⟨-, x, s₁, rfl, rfl, ⟨_, -, h⟩ | ⟨_, -, -, h⟩ | ⟨q, -, -, h⟩⟩ :=
        N.submitTask_cases s taskId payload priority <;> rw [h]
      · rfl
      all_goals
        exact (congrArg (Dict.get · job.taskId) (N.localUpdate_tasks _ _ _)).trans (hset _)
    · rfl
  | recv sender msg wallNow =>
    refine ⟨?_, fun _ _ _ _ _ h => absurd h (by simp)⟩
    simp only [FenceOk] at hok
    refine step_recv_invariant
      (I := fun s => ∃ r, s.tasks.get job.taskId = some r ∧ latticeKey m ≤ latticeKey r)
      (fun s s' hq h => by rw [congrArg Replica.tasks hq.replica]; exact h) ?_ hs hok
    rintro sender s item ⟨r, hr, hkr⟩ hup
    by_cases hi : item.1 = job.taskId
    · obtain ⟨r', hr', hk, -⟩ := N.gossipItem_keys (fun hsec => hup hsec hi) _ r hr
      exact ⟨r', hr', hkr.trans hk⟩
    · exact ⟨r, (gossipItem_get fun h => absurd h hi).trans hr, hkr⟩
  | workerGet now leaseNow wallNow suspected nonce =>
    refine hsame (by simp) ?_
    cases hwk : s.worker <;> first | (simp only [step, hwk]; done) | simp [hwk, Worker.job] at hw
  | workerSent wallNow nonce =>
    refine hsame (by simp) ?_
    cases hwk : s.worker with
    | claiming job' msg rest =>
      obtain rfl : job' = job := by rw [hwk] at hw; exact Option.some.inj hw
      cases rest with
      | nil =>
        -- the transition to `RUNNING` would overwrite the superseding record
        obtain ⟨r, hr, hk⟩ := hs
        exact absurd (supersedes_of_key hsup hk) (hok msg r hwk hr)
      | cons p rest => simp only [step, workerSent, hwk]; rfl
    | handling job' => simp only [step, workerSent, hwk]
    | _ => simp [hwk, Worker.job] at hw
  | reclaimSweep now wallNow suspected nonce =>
    exact hsame (by simp) (by rw [(N.step_reclaim_replica hh s now wallNow suspected nonce).1.1])
  | reclaimSent wallNow suspected nonce =>
    exact hsame (by simp) (by rw [(N.step_reclaim_replica hh s 0 wallNow suspected nonce).2.1])
  | gossipRound partner wallNow nonce =>
    exact hsame (by simp) (by rw [(N.step_gossipRound_quiet s partner wallNow nonce).replica])
  | heartbeatRound now wallNow nonce =>
    exact hsame (by simp) (by rw [(N.step_heartbeatRound_quiet s now wallNow nonce).replica])

end

/-- **Fencing.**  Over every run in the window of a job whose steps meet their conditions, a record
    that supersedes the job's is not replaced by one with a smaller key, and if its token is the
    larger one, the worker neither stores nor sends the outcome of its handler. -/
theorem fencing (hh : N.hasHandler = true) {job : Job} {m : TaskRecord} {s : NodeState}
    {es : List Event} (hm : s.tasks.get job.taskId = some m) (hsup : m.Supersedes job)
    (hes : Along (fun s e => s.worker.job = some job ∧ N.FenceOk job m s e) N.step s es) :
    Along (N.Fenced job m) N.step s es :=
  Along.mono (I := fun s => ∃ r, s.tasks.get job.taskId = some r ∧ latticeKey m ≤ latticeKey r)
    (fun _ _ hs he => (fenced_step hh he.1 hsup hs he.2).1)
    (fun _ _ hs he => fenced_step hh he.1 hsup hs he.2) ⟨m, hm, le_rfl⟩ hes

namespace Sample

/-- The node `c` without security, with a handler and the peer `b`. -/
noncomputable def workerC : PeerNode runtime where
  nodeId := str "c"
  peers := [str "b"]
  hasHandler := true
  identity := [3]
  keyring := keys
  security := { SecurityConfig.default with enabled := false }
  nodeId_ok := idOk
  peers_ok := by decide +kernel
  own_key := ownKey
  maxTasks_pos := defaultTasks_pos

/-- A claim of `b` with token 5. -/
def claimB : TaskRecord where
  taskId := str "t"
  state := .claimed
  payload := []
  claimedBy := some (str "b")
  fenceToken := ⟨5, str "b"⟩
  leaseExpiry := 10
  vectorClock := Counters.zero.increment (str "b")
  updatedBy := str "b"

/-- The steps up to the first send of a claim of `c`. -/
def claimSteps : List Event :=
  [.submit (str "t") [] 0, .workerGet 0 0 0 (fun _ => false) (str "n")]

/-- The claim of `b` comes in. -/
noncomputable def arrival : Delivery := gossip 2 "b" "x" claimB

noncomputable def arrivalStep : Event := .recv arrival.sender arrival.msg arrival.wallNow

/-- A job of `c` on the same task with token 1. -/
def jobC : Job := ⟨str "t", PeerQ.Sample.pendingA, ⟨1, str "c"⟩, 5⟩

end Sample

theorem fencing_handler : Along (Sample.workerC.Fenced Sample.jobC Sample.claimB) Sample.workerC.step
    { Sample.workerC.initial with
      toReplica := Sample.workerC.initial.toReplica.store (str "t") Sample.claimB
      worker := .handling Sample.jobC } [.handlerDone (.ok []) 1 1 (str "n")] := by
  have hm : (Sample.workerC.initial.tasks.set (str "t") Sample.claimB).get (str "t") =
    some Sample.claimB := Dict.get_set_self _ _ _
  refine Sample.workerC.fencing rfl hm (Or.inr (by decide)) ⟨⟨rfl, ?_⟩, trivial⟩
  intro cur _ _ hcur hterm
  obtain rfl : Sample.claimB = cur := Option.some.inj (hm.symm.trans hcur)
  exact absurd hterm (by decide)

/-- While `c` broadcasts its claim, a claim of `b` with a larger token comes in; when the last send
    returns, the worker stores its own record over it. -/
theorem fencing_lost :
    ¬ ∀ (R : Runtime) (N : PeerNode R) (es₁ es : List Event) (sender : Str) (msg : Message)
      (wallNow : ℚ) (job : Job) (m : TaskRecord), R.ed25519.Lawful → N.hasHandler = true →
      (run N.step N.initial es₁).worker.job = some job →
      (run N.step N.initial (es₁ ++ [.recv sender msg wallNow])).tasks.get job.taskId = some m →
      m.Supersedes job →
      Along (fun s e => s.worker.job = some job ∧
        ((∃ sender msg now, e = .recv sender msg now) ∨ (∃ now nonce, e = .workerSent now nonce) ∨
          ∃ outcome now wall nonce, e = .handlerDone outcome now wall nonce)) N.step
        (run N.step N.initial (es₁ ++ [.recv sender msg wallNow])) es →
      Along (N.Fenced job m) N.step (run N.step N.initial (es₁ ++ [.recv sender msg wallNow])) es := by
  intro h
  have hjob : (run Sample.workerC.step Sample.workerC.initial Sample.claimSteps).worker.job.map
      (fun job => (job.taskId, job.newToken)) = some (str "t", ⟨1, str "c"⟩) := by decide
  have hstore : ((run Sample.workerC.step Sample.workerC.initial
      (Sample.claimSteps ++ [Sample.arrivalStep])).tasks.get (str "t")).map
      (fun r => (r.state, r.fenceToken)) = some (.claimed, ⟨5, str "b"⟩) := by decide
  have hlater : ((Sample.workerC.step (run Sample.workerC.step Sample.workerC.initial
      (Sample.claimSteps ++ [Sample.arrivalStep])) (.workerSent 0 (str "n"))).tasks.get
      (str "t")).map (fun r => (r.state, r.fenceToken)) = some (.running, ⟨1, str "c"⟩) := by
    decide
  obtain ⟨job, hw, hj⟩ := Option.map_eq_some_iff.1 hjob
  obtain ⟨m, hm, hmt⟩ := Option.map_eq_some_iff.1 hstore
  obtain ⟨hid, htok⟩ := Prod.mk.inj hj
  obtain ⟨hst, hft⟩ := Prod.mk.inj hmt
  have hw' : (run Sample.workerC.step Sample.workerC.initial
      (Sample.claimSteps ++ [Sample.arrivalStep])).worker.job = some job := by
    rw [run_concat, Sample.arrivalStep, step_recv_worker, hw]
  have hf := h Sample.runtime Sample.workerC Sample.claimSteps [.workerSent 0 (str "n")]
    Sample.arrival.sender Sample.arrival.msg Sample.arrival.wallNow job m Ed25519.suffix_lawful rfl hw
    (by rw [hid, ← Sample.arrivalStep]; exact hm) (Or.inr (by rw [htok, hft]; decide))
  rw [← Sample.arrivalStep] at hf
  replace hf := hf ⟨⟨hw', Or.inr (Or.inl ⟨_, _, rfl⟩)⟩, trivial⟩
  obtain ⟨⟨⟨r, hr, hk⟩, -⟩, -⟩ := hf
  rw [hid] at hr
  rw [hr, Option.map_some, Option.some.injEq, Prod.mk.injEq] at hlater
  refine absurd hk (not_le.2 (latticeKey_lt_token ?_ ?_))
  · rw [hlater.1, hst]; rfl
  · rw [hlater.2, hft]; decide

end PeerNode

end PeerQ
