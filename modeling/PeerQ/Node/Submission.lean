/-
  Submitting: what a call of `submit_task` leaves behind.

  The checks come first and touch nothing.  After them the clock is advanced,
  the record is stored and logged, and the task is queued last, so a call that
  fails after the checks leaves its record in the store
  (`submission_untouched_iff`).  The record replaces whatever is stored for the
  task, while recovery merges the two (`resubmission_iff`).
-/
import PeerQ.Node.Compaction

namespace PeerQ

open Py

/-! ## The key of a submission -/

namespace TaskRecord

/-- The part of the key behind the token and the rank: `updated_by`, `claimed_by`, `result`, `error`,
    `payload`, `lease_expiry`, `signature` and `signer_id`. -/
def tieBreak (r : TaskRecord) : Str ×ₗ (ℕ ×ₗ Str) ×ₗ (ℕ ×ₗ Bytes) ×ₗ (ℕ ×ₗ Str) ×ₗ Bytes ×ₗ ℚ ×ₗ
    (ℕ ×ₗ Bytes) ×ₗ (ℕ ×ₗ Str) :=
  (ofLex (ofLex (ofLex (latticeKey r)).2).2).2

/-- The record of a submission is not below `old`: that one is unfinished and unclaimed, and does not
    win by the rest of the key. -/
def Outranks (r old : TaskRecord) : Prop :=
  old.state.isTerminal = false ∧ (old.fenceToken < ⟨0, []⟩ ∨
    old.fenceToken = ⟨0, []⟩ ∧ old.state = .pending ∧ old.tieBreak ≤ r.tieBreak)

theorem latticeKey_le_pending {r old : TaskRecord} (hst : r.state = .pending)
    (htok : r.fenceToken = ⟨0, []⟩) : latticeKey old ≤ latticeKey r ↔ r.Outranks old := by
  have hkey : ∀ x : TaskRecord, latticeKey x = toLex (if x.state.isTerminal then 1 else 0,
    toLex (x.fenceToken, toLex (x.state.latticeRank, x.tieBreak))) := fun _ => rfl
  rw [hkey, hkey, Prod.Lex.toLex_le_toLex, Prod.Lex.toLex_le_toLex, Prod.Lex.toLex_le_toLex, hst, htok]
  unfold Outranks
  cases old.state <;> simp [TaskState.isTerminal, TaskState.latticeRank]

end TaskRecord

/-- A record above another one, authorised if there is a keyring, replaces it in a merge. -/
theorem mergeRecords_above {R : Runtime} {r s : TaskRecord} {keyring : Option PeerKeyRing}
    (ht : r.taskId = s.taskId) (hle : recordLww.Le r s)
    (hs : ∀ K, keyring = some K → verifyTaskAuthorization R s K = true) :
    mergeRecords R r s keyring = .ok s := by
  have hmerge : recordLww.merge r s = s := by
    rw [Lww.merge_comm (M := recordLww) ht]
    exact (Lww.merge_eq_left_iff (M := recordLww) ht.symm).2 hle
  cases keyring with
  | none => rw [mergeRecords_none ht, hmerge]
  | some K =>
    rw [mergeRecords_ok_iff ht]
    unfold Lww.guarded
    simp only [hs K rfl, if_true, hmerge, ite_self]

namespace PeerNode

variable {R : Runtime} (N : PeerNode R)

/-! ## A submission that raises -/

/-- The records that can be replayed from the log of a node, with the exception the replay ends
    with. -/
def replayable (p : Replica) (strict : Bool) : Option (List WalRecord × Option Exn) :=
  match N.wal, p.walFile with
  | some W, some f => some (W.replay R strict f)
  | _, _ => none

/-- Store, clock, queue with its ids, and what the log holds are the same; counters may differ. -/
structure Untouched (s s' : NodeState) : Prop where
  tasks : s'.tasks = s.tasks
  clock : s'.vectorClock = s.vectorClock
  queue : s'.queue = s.queue
  ids : s'.queuedTaskIds = s.queuedTaskIds
  log : ∀ strict, N.replayable s'.toReplica strict = N.replayable s.toReplica strict

section
variable {N} {s s' : NodeState} {taskId : Str} {payload : Bytes} {priority : ℤ}

theorem increment_ne (c : VectorClock) (p : Str) : c.increment p ≠ c := by
  intro h
  have hget := congrArg (fun c => Counters.get c p) h
  simp at hget

/-- **When a submission that raises leaves no trace**: exactly if the checks refused it.  In any case
    the queue and the other tasks are as before. -/
theorem submission_untouched_iff {e : Exn}
    (h : N.submitTask s taskId payload priority = (s', some e)) :
    (N.Untouched s s' ↔ ¬ N.Submittable s taskId payload) ∧
      s'.queue = s.queue ∧ s'.queuedTaskIds = s.queuedTaskIds ∧
      ∀ t, t ≠ taskId → s'.tasks.get t = s.tasks.get t := by
  obtain ⟨hno, _, hs | hs⟩ | ⟨hok, x, s₁, rfl, rfl, hs⟩ := N.submitTask_cases s taskId payload priority
  · obtain ⟨rfl, -⟩ := Prod.mk.inj (hs.symm.trans h)
    exact ⟨iff_of_true ⟨rfl, rfl, rfl, rfl, fun _ => rfl⟩ hno, rfl, rfl, fun _ _ => rfl⟩
  · obtain ⟨rfl, -⟩ := Prod.mk.inj (hs.symm.trans h)
    exact ⟨iff_of_true ⟨rfl, rfl, rfl, rfl, fun _ => rfl⟩ hno, rfl, rfl, fun _ _ => rfl⟩
  have hleft : s'.toReplica = (N.localUpdate s.toReplica taskId (N.submitRecord taskId payload)).1 ∧
      s'.queue = s.queue ∧ s'.queuedTaskIds = s.queuedTaskIds := by
    rcases hs with ⟨_, -, hs⟩ | ⟨_, -, -, hs⟩ | ⟨q, -, -, hs⟩
    · obtain ⟨rfl, -⟩ := Prod.mk.inj (hs.symm.trans h)
      exact ⟨rfl, rfl, rfl⟩
    · obtain ⟨rfl, -⟩ := Prod.mk.inj (hs.symm.trans h)
      exact ⟨rfl, rfl, rfl⟩
    · exact absurd (Prod.mk.inj (hs.symm.trans h)).2 (by simp)
  obtain ⟨hrep, hqueue, hids⟩ := hleft
  refine ⟨iff_of_false (fun hu => ?_) (not_not.2 hok), hqueue, hids, fun t ht => ?_⟩
  · -- past the checks the clock has moved on
    have hclock := hu.clock
    rw [hrep, localUpdate_vectorClock] at hclock
    exact increment_ne _ _ hclock
  · rw [hrep, localUpdate_tasks, Dict.get_set_ne _ _ (Ne.symm ht)]

end

namespace Sample

/-- The node `c` with a queue for one task. -/
noncomputable def briefC : PeerNode runtime := { nodeC with maxQueueSize := 1 }

end Sample

theorem submission_untouched_empty : ∃ s' e,
    Sample.briefC.submitTask Sample.briefC.initial [] [1] 0 = (s', some e) ∧
      Sample.briefC.Untouched Sample.briefC.initial s' := by
  obtain ⟨s', e, h⟩ : ∃ s' e, Sample.briefC.submitTask Sample.briefC.initial [] [1] 0 =
    (s', some e) := ⟨_, _, rfl⟩
  exact ⟨s', e, h, (submission_untouched_iff h).1.2 fun hok => hok.1.1 rfl⟩

/-- A submission that finds the queue full raises and leaves the task in the store. -/
theorem submission_leaves_task :
    ¬ ∀ (R : Runtime) (N : PeerNode R) (s s' : NodeState) (taskId : Str) (payload : Bytes)
      (priority : ℤ) (e : Exn), R.ed25519.Lawful →
      N.submitTask s taskId payload priority = (s', some e) → N.Untouched s s' := by
  intro h
  set s := Sample.briefC.step Sample.briefC.initial (.submit (str "t") [] 0) with hs
  have hraise : (Sample.briefC.submitTask s (str "u") [] 0).2.isSome = true := by
    rw [hs]; decide
  have hstored : (Sample.briefC.submitTask s (str "u") [] 0).1.tasks.has (str "u") = true ∧
      s.tasks.has (str "u") = false := by
    rw [hs]; decide
  obtain ⟨e, he⟩ := Option.isSome_iff_exists.1 hraise
  have hsame := (h Sample.runtime Sample.briefC s _ (str "u") [] 0 e Ed25519.suffix_lawful
    (Prod.ext rfl he)).tasks
  rw [hsame] at hstored
  exact absurd (hstored.1.symm.trans hstored.2) (by simp)

/-! ## Submitting again -/

/-- Recovery from the log of a node raises nothing and rebuilds its store. -/
def Rebuilds (W : WriteAheadLog) (s : NodeState) : Prop :=
  ∃ f, s.walFile = some f ∧ (N.recoverFile W f).2 = none ∧
    ∀ t, (N.recoverFile W f).1.tasks.get t = s.tasks.get t

section
variable {N} {p : Replica} {s s' : NodeState} {taskId : Str} {payload : Bytes} {priority : ℤ}
  {old r : TaskRecord} {W : WriteAheadLog} {f : Bytes} {c : VectorClock}

theorem appendEntry_ok {e : LogEntry} (hW : N.wal = some W) (hf : p.walFile = some f)
    (h : (N.appendEntry p e).2 = none) : e.entry.Fits R W ∧
      (N.appendEntry p e).1.walFile = some (f ++ e.entry.bytes R) := by
  unfold appendEntry at h ⊢
  rw [hW, hf] at h ⊢
  simp only at h ⊢
  cases ha : W.append R f e.entry.recordType e.entry.payload with
  | error err => rw [ha] at h; exact absurd h (by simp)
  | ok x =>
    obtain ⟨he, -, hx⟩ := WriteAheadLog.append_ok_iff.1 ha
    exact ⟨he, by simp [hx]⟩

/-- A local update that is logged puts the record and the clock behind the log. -/
theorem localUpdate_ok {mk : VectorClock → TaskRecord} (hW : N.wal = some W) (hf : p.walFile = some f)
    (h : (N.localUpdate p taskId mk).2 = none) : ∃ g, (N.localUpdate p taskId mk).1.walFile = some g ∧
      W.appendAll R f ([.task (mk (p.vectorClock.increment N.nodeId)),
        .clock (p.vectorClock.increment N.nodeId)].map LogEntry.entry) = .ok g := by
  unfold localUpdate at h ⊢
  rw [logUpdate_eq] at h ⊢
  split_ifs at h ⊢ with htask
  · obtain ⟨hfit, hfile⟩ := appendEntry_ok (p := (N.tick p).store taskId _) hW hf htask
    obtain ⟨hfit', hfile'⟩ := appendEntry_ok hW hfile h
    refine ⟨_, hfile', WriteAheadLog.appendAll_ok_iff.2 ⟨?_, by simp [tick, Replica.store]⟩⟩
    intro e he
    simp only [List.map_cons, List.map_nil, List.mem_cons, List.not_mem_nil, or_false] at he
    rcases he with rfl | rfl
    exacts [hfit, hfit']
  · exact absurd h htask

/-- A submission that returns has passed the checks and was logged. -/
theorem submitTask_ok (h : N.submitTask s taskId payload priority = (s', none)) :
    N.Submittable s taskId payload ∧
      (N.localUpdate s.toReplica taskId (N.submitRecord taskId payload)).2 = none ∧
      s'.toReplica = (N.localUpdate s.toReplica taskId (N.submitRecord taskId payload)).1 := by
  obtain ⟨-, _, hs | hs⟩ | ⟨hok, x, s₁, rfl, rfl, ⟨_, -, hs⟩ | ⟨_, -, -, hs⟩ | ⟨q, hx, -, hs⟩⟩ :=
    N.submitTask_cases s taskId payload priority <;>
    obtain ⟨rfl, he⟩ := Prod.mk.inj (hs.symm.trans h)
  case inr.inr.inr => exact ⟨hok, hx, rfl⟩
  all_goals cases he

/-- The record of a submission is one that recovery takes exactly if its clock can be decoded. -/
theorem readable_submitRecord (hE : R.ed25519.Lawful) (h : N.Submittable s taskId payload) :
    N.Readable (N.submitRecord taskId payload c) ↔ VectorClock.Fits c := by
  constructor
  · intro hr
    have hc := hr.decodable.clock
    rwa [submitRecord, sealRecord_vectorClock] at hc
  · intro hc
    refine readable_seal hE ⟨h.1, h.2.1, ?_, ?_, ?_, N.nodeId_ok, ?_, ?_, hc, ?_⟩ ?_ <;> simp

/-- A logged record with a later clock and no smaller key than the stored one is recovered exactly if
    recovery takes it and the stored one is of the same task. -/
theorem recoverEntry_above (hold : p.tasks.get r.taskId = some old) (hle : recordLww.Le old r)
    (hne : old.vectorClock ≠ r.vectorClock) :
    ((N.recoverEntry p (.task r)).tasks.get r.taskId = some r ↔ N.Readable r ∧ old.taskId = r.taskId) ∧
      ∀ t, t ≠ r.taskId → (N.recoverEntry p (.task r)).tasks.get t = p.tasks.get t := by
  -- a record that is not taken leaves the old one
  have hstays : N.recoverEntry p (.task r) = p → ¬ (N.Readable r ∧ old.taskId = r.taskId) →
      ((N.recoverEntry p (.task r)).tasks.get r.taskId = some r ↔
        N.Readable r ∧ old.taskId = r.taskId) ∧
      ∀ t, t ≠ r.taskId → (N.recoverEntry p (.task r)).tasks.get t = p.tasks.get t := by
    intro heq hnot
    rw [heq]
    refine ⟨iff_of_false (fun h => hne ?_) hnot, fun _ _ => rfl⟩
    rw [Option.some.inj (hold.symm.trans h)]
  rcases N.decodedTask_toDict r with hd | ⟨hd, hdec, hauth⟩
  · refine hstays (by simp only [recoverEntry, hd]) fun h => ?_
    exact absurd (h.1.decodedTask.symm.trans hd) (by simp)
  by_cases ht : old.taskId = r.taskId
  · have hmerge : mergeRecords R old r N.mergeKeyring = .ok r := by
      refine mergeRecords_above ht hle fun K hK => ?_
      unfold mergeKeyring at hK
      split_ifs at hK with hs
      exact Option.some.inj hK ▸ hauth hs
    rw [N.recoverEntry_merge hd hold hmerge]
    refine ⟨iff_of_true (Dict.get_set_self _ _ _) ⟨⟨hdec, hauth⟩, ht⟩, fun t hne' => ?_⟩
    exact Dict.get_set_ne _ _ (Ne.symm hne')
  · refine hstays ?_ fun h => ht h.2
    have herr : ∃ e, mergeRecords R old r N.mergeKeyring = .error e := by
      simp [mergeRecords, ht]
    obtain ⟨e, he⟩ := herr
    have hhas : p.tasks.has r.taskId = true := by simp [Dict.has, hold]
    simp [recoverEntry, hd, recoverTask, hold, he, hhas]

/-- **When submitting a task again undoes nothing.**  A submission that returns leaves a record with
    no smaller key than the one it replaces exactly if it outranks that one.  Then recovery, if it
    rebuilt the store before, rebuilds it afterwards exactly if the node's clock can be decoded and the
    replaced record was one of the task. -/
theorem resubmission_iff (hE : R.ed25519.Lawful) (hold : s.tasks.get taskId = some old)
    (h : N.submitTask s taskId payload priority = (s', none)) :
    ((∃ r, s'.tasks.get taskId = some r ∧ latticeKey old ≤ latticeKey r) ↔
      (N.submitRecord taskId payload s'.vectorClock).Outranks old) ∧
    ∀ W f, N.wal = some W → s.walFile = some f → (W.replay R true f).2 = none → N.Rebuilds W s →
      old.vectorClock ≤ s.vectorClock →
      ((∃ r, s'.tasks.get taskId = some r ∧ latticeKey old ≤ latticeKey r) ∧ N.Rebuilds W s' ↔
        (N.submitRecord taskId payload s'.vectorClock).Outranks old ∧
          VectorClock.Fits s'.vectorClock ∧ old.taskId = taskId) := by
  obtain ⟨hok, hlog, hrep⟩ := submitTask_ok h
  have hclock : s'.vectorClock = s.vectorClock.increment N.nodeId := by
    rw [hrep, localUpdate_vectorClock]
  have htasks : s'.tasks = s.tasks.set taskId (N.submitRecord taskId payload s'.vectorClock) := by
    rw [hclock, hrep, localUpdate_tasks]
  set r := N.submitRecord taskId payload s'.vectorClock with hr
  have hrid : r.taskId = taskId := N.sealRecord_taskId _
  have hrclock : r.vectorClock = s'.vectorClock := N.sealRecord_vectorClock _
  have hget : s'.tasks.get taskId = some r := by rw [htasks, Dict.get_set_self]
  have hkey : (∃ r', s'.tasks.get taskId = some r' ∧ latticeKey old ≤ latticeKey r') ↔
      r.Outranks old := by
    rw [← TaskRecord.latticeKey_le_pending (N.sealRecord_state _) (N.sealRecord_fenceToken _)]
    constructor
    · rintro ⟨r', hr', hle⟩
      rwa [Option.some.inj (hget.symm.trans hr')]
    · exact fun hle => ⟨r, hget, hle⟩
  refine ⟨hkey, ?_⟩
  rintro W f hW hf hstrict ⟨f', hf', hnone, hsame⟩ hdom
  obtain rfl : f = f' := Option.some.inj (hf.symm.trans hf')
  rw [hkey]
  refine and_congr_right fun hout => ?_
  rw [← TaskRecord.latticeKey_le_pending (N.sealRecord_state _) (N.sealRecord_fenceToken _)] at hout
  -- recovery puts the two new entries behind what it rebuilt
  obtain ⟨g, hg, hall⟩ := localUpdate_ok (p := s.toReplica) hW hf hlog
  rw [← hrep] at hg
  rw [← hclock, ← hr] at hall
  obtain ⟨hafter, hnone'⟩ := recoverFile_append (N := N) (Prod.ext rfl hnone) (Or.inr hstrict) hall
  have hrec := hafter.tasks
  simp only [List.foldl_cons, List.foldl_nil, recoverEntry.eq_2] at hrec
  have hlt : s.vectorClock.get N.nodeId < s'.vectorClock.get N.nodeId := by
    rw [hclock, Counters.get_increment, if_pos rfl]
    exact Nat.lt_succ_self _
  have hstored : (N.recoverFile W f).1.tasks.get r.taskId = some old := by rw [hrid, hsame, hold]
  have hle : recordLww.Le old r := by
    refine ⟨hout, ?_⟩
    show old.vectorClock ≤ r.vectorClock
    rw [hrclock, hclock]
    exact hdom.trans (Counters.le_increment _ _)
  have hne : old.vectorClock ≠ r.vectorClock := by
    intro heq
    exact absurd (hdom N.nodeId) (not_le.2 (by rw [heq, hrclock]; exact hlt))
  obtain ⟨habove, hother⟩ := recoverEntry_above (N := N) hstored hle hne
  rw [← readable_submitRecord hE hok, ← hr, ← hrid, ← habove, hrid]
  constructor
  · rintro ⟨g', hg', -, hrebuilt⟩
    obtain rfl : g = g' := Option.some.inj (hg.symm.trans hg')
    rw [← hrec, hrebuilt, hget]
  · intro hnew
    refine ⟨g, hg, hnone', fun t => ?_⟩
    rw [hrec]
    by_cases ht : t = taskId
    · rw [ht, hnew, hget]
    · rw [hother t (by rwa [hrid]), hsame, htasks, Dict.get_set_ne _ _ (Ne.symm ht)]

end

namespace Sample

theorem submitted_tasks (t : Str) :
    submitted.tasks.get t = (Dict.empty.set (str "t") submission : Dict Str TaskRecord).get t := by
  have hentries : submitted.tasks.entries = [(str "t", submission)] := by decide +kernel
  rw [show submitted.tasks = Dict.empty.set (str "t") submission from Dict.ext hentries]

theorem submitted_rebuilt : loggingC.Rebuilds WriteAheadLog.Sample.log submitted ∧
    ∃ f, submitted.walFile = some f ∧ (WriteAheadLog.Sample.log.replay runtime true f).2 = none := by
  obtain ⟨hfile, hfit⟩ := submitted_intact _ rfl
  have hdec : loggingC.decodedTask submission.toDict = .ok (some submission) :=
    loggingC.decodedTask_ok submission_decodable nofun
  have hstrict : (WriteAheadLog.Sample.log.replay runtime true
      (logFile runtime submitted.journal)).2 = none :=
    congrArg Prod.snd (WriteAheadLog.replay_whole (by simpa using hfit))
  refine ⟨⟨_, hfile, (recoverFile_logFile hfit).2, fun t => ?_⟩, _, hfile, hstrict⟩
  rw [(recoverFile_logFile hfit).1, submitted_tasks]
  generalize logFile runtime submitted.journal = f
  have hnew := loggingC.recoverEntry_new (p := (loggingC.opened f []).toReplica) hdec rfl
    loggingC.maxTasks_pos
  rw [submitted_journal, List.foldl_cons, hnew]
  rfl

end Sample

/-- The task is submitted again with a larger payload before anyone has claimed it. -/
theorem resubmission_pending : ∃ s',
    Sample.loggingC.submitTask Sample.submitted (str "t") [1] 0 = (s', none) ∧
    (∃ r, s'.tasks.get (str "t") = some r ∧ latticeKey Sample.submission ≤ latticeKey r) ∧
    Sample.loggingC.Rebuilds WriteAheadLog.Sample.log s' := by
  obtain ⟨s', hs'⟩ : ∃ s', s' = (Sample.loggingC.submitTask Sample.submitted (str "t") [1] 0).1 :=
    ⟨_, rfl⟩
  have hnone : (Sample.loggingC.submitTask Sample.submitted (str "t") [1] 0).2 = none := by
    decide +kernel
  have hsub : Sample.loggingC.submitTask Sample.submitted (str "t") [1] 0 = (s', none) := by
    rw [hs', ← hnone]
  have hold : Sample.submitted.tasks.get (str "t") = some Sample.submission := by
    rw [Sample.submitted_tasks, Dict.get_set_self]
  obtain ⟨hreb, f, hf, hstrict⟩ := Sample.submitted_rebuilt
  have hiff := (resubmission_iff Ed25519.suffix_lawful hold hsub).2 _ f rfl hf hstrict hreb
    (by decide +kernel)
  refine ⟨s', hsub, hiff.2 ⟨⟨by decide, Or.inr ⟨by decide, by decide, ?_⟩⟩,
    ⟨?_, ?_⟩, by decide⟩⟩
  all_goals rw [hs']; decide +kernel

/-- A task that `b` has completed is submitted again and is pending. -/
theorem resubmission_restarts :
    ¬ ∀ (R : Runtime) (N : PeerNode R) (es : List Event) (s' : NodeState) (taskId : Str)
      (payload : Bytes) (priority : ℤ) (old : TaskRecord), R.ed25519.Lawful →
      (run N.step N.initial es).tasks.get taskId = some old →
      N.submitTask (run N.step N.initial es) taskId payload priority = (s', none) →
      ∃ r, s'.tasks.get taskId = some r ∧ latticeKey old ≤ latticeKey r := by
  intro h
  set s := run Sample.nodeC.step Sample.nodeC.initial
    [.recv (str "b") (Sample.gossip 2 "b" "x" Sample.doneB).msg 0] with hs
  -- one evaluation: the state before is computed once
  have heval : s.tasks.get (str "t") = some Sample.doneB ∧
      (Sample.nodeC.submitTask s (str "t") [] 0).2 = none ∧
      ((Sample.nodeC.submitTask s (str "t") [] 0).1.tasks.get (str "t")).map
        TaskRecord.state = some .pending := by
    rw [hs]
    decide +kernel
  obtain ⟨hold, hnone, hpending⟩ := heval
  obtain ⟨r, hr, hle⟩ := h Sample.runtime Sample.nodeC _ _ (str "t") [] 0 Sample.doneB
    Ed25519.suffix_lawful hold (Prod.ext rfl hnone)
  rw [hr, Option.map_some, Option.some.injEq] at hpending
  have hdone := (latticeKey_le hle).1 (by decide)
  rw [hpending] at hdone
  exact absurd hdone (by decide)

end PeerNode

end PeerQ
