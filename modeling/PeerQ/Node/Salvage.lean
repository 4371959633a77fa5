/-
  What recovery makes of any log that can be read.

  Every frame of a readable log holds a JSON object, but what is in it is up to
  the writer.  `salvaged` is what an entry is good for: the tasks that decode and
  are authorised, and the clocks whose counters are numbers.  Recovery applies
  exactly that and raises nothing, unless it comes to a lease that is an integer
  beyond the floats, or to a checkpoint whose clock is a value that is no `dict`
  and yet true (`recovery_total_iff`).
-/
import PeerQ.Node.LooseClocks

namespace PeerQ

open Py

namespace PeerNode

variable {R : Runtime} (N : PeerNode R)

/-! ## What the entries of a log are good for -/

/-- Something to apply: a task under a key, or a clock. -/
inductive LogItem where
  | task (key : Str) (r : TaskRecord)
  | clock (c : LooseClock)

/-- The task in a value, if it is well formed and, on a secure node, authorised. -/
def goodTask (v : Json) : Option TaskRecord :=
  match TaskRecord.fromDict v with
  | .ok r => if N.security.enabled && !verifyTaskAuthorization R r N.keyring then none else some r
  | .error _ => none

/-- The clock of an object, if its values are numbers. -/
def goodClock (d : Fields) : List LogItem := (LooseClock.ofDict d).toOption.toList.map .clock

/-- The task in an entry of a checkpoint. -/
def goodEntry (e : Str × Json) : List LogItem := (N.goodTask e.2).toList.map (.task e.1)

/-- The well-formed and authorised part of a record of the log. -/
def salvaged (rec : WalRecord) : List LogItem :=
  if rec.recordType = recordTask then
    (N.goodTask (.obj rec.payload)).toList.map fun r => .task r.taskId r
  else if rec.recordType = recordClock then goodClock rec.payload
  else if rec.recordType = recordCheckpoint then
    match rec.tasksValue with
    | some rawTasks => rawTasks.flatMap N.goodEntry ++ goodClock (clockFields rec.clockValue)
    | none => []
  else []

/-- The store takes a task under the key. -/
def TakesKey (p : Replica LooseClock) (key : Str) : Prop :=
  p.tasks.has key = true ∨ p.tasks.size < N.maxTasks

instance (p : Replica LooseClock) (key : Str) : Decidable (N.TakesKey p key) :=
  inferInstanceAs (Decidable (_ ∨ _))

/-- Apply an item: a task is admitted as long as the store has room for it, and merged with what is
    there; a clock is merged. -/
def applyItem (p : Replica LooseClock) : LogItem → Replica LooseClock
  | .task key r => if N.TakesKey p key then N.recoverTask p key r else p
  | .clock c => p.withClock (p.vectorClock.merge c)

/-! ## What recovery comes to -/

/-- An entry of a checkpoint on which the decoder raises nothing but `ValueError`, or that is not
    decoded because the store is full. -/
def EntryHarmless (p : Replica LooseClock) (e : Str × Json) : Prop :=
  N.TakesKey p e.1 → TaskRecord.overflows e.2 = false

/-- A record of the log on which recovery raises nothing from a state on: no lease that is come to
    overflows, and the clock of a checkpoint is a `dict` or counts as an empty one. -/
structure Harmless (p : Replica LooseClock) (rec : WalRecord) : Prop where
  task : rec.recordType = recordTask → TaskRecord.overflows (.obj rec.payload) = false
  tasks : rec.recordType = recordCheckpoint → ∀ rawTasks ∈ rec.tasksValue,
    Along N.EntryHarmless (fun p e => run N.applyItem p (N.goodEntry e)) p rawTasks
  clock : rec.recordType = recordCheckpoint → rec.tasksValue.isSome = true →
    clockLike rec.clockValue = true

section
variable {N} {p : Replica LooseClock}

theorem decodedTask_eq {v : Json} (h : TaskRecord.overflows v = false) :
    N.decodedTask v = .ok (N.goodTask v) := by
  unfold decodedTask goodTask
  cases hd : TaskRecord.fromDict v with
  | error e =>
    have he := TaskRecord.fromDict_benign_iff.2 h e hd
    simp only [he, if_true]
  | ok r =>
    simp only
    split_ifs <;> rfl

theorem decodedTask_overflow {v : Json} (h : TaskRecord.overflows v = true) :
    N.decodedTask v = .error .overflowError := by
  rw [decodedTask, TaskRecord.fromDict_overflow h]
  rfl

/-- One round of the loop over the tasks of a checkpoint. -/
theorem recoverSnapshot_cons (e : Str × Json) (l : Fields) :
    (N.EntryHarmless p e → N.recoverSnapshot p (e :: l) =
      N.recoverSnapshot (run N.applyItem p (N.goodEntry e)) l) ∧
    (¬ N.EntryHarmless p e → (N.recoverSnapshot p (e :: l)).2 ≠ none) := by
  obtain ⟨k, v⟩ := e
  have hfull : (N.maxTasks ≤ p.tasks.size && !p.tasks.has k) = true ↔ ¬ N.TakesKey p k := by
    simp only [TakesKey, Bool.and_eq_true, decide_eq_true_eq, Bool.not_eq_true', not_or,
      Bool.not_eq_true, not_lt]
    exact and_comm
  unfold EntryHarmless
  rw [recoverSnapshot]
  by_cases hadm : N.TakesKey p k
  · rw [if_neg fun h => hfull.1 h hadm]
    refine ⟨fun h => ?_, fun h => ?_⟩
    · rw [decodedTask_eq (h hadm), goodEntry]
      cases N.goodTask v with
      | none => rfl
      | some r => simp [applyItem, hadm]
    · have hov : TaskRecord.overflows v = true := by
        by_contra hv
        exact h fun _ => Bool.not_eq_true _ ▸ hv
      simp [decodedTask_overflow (N := N) hov]
  · rw [if_pos (hfull.2 hadm)]
    refine ⟨fun _ => ?_, fun h => absurd (fun hadm' => absurd hadm' hadm) h⟩
    rw [goodEntry]
    cases N.goodTask v with
    | none => rfl
    | some r => simp [applyItem, hadm]

/-- **The loop over the tasks of a checkpoint** raises nothing exactly if its entries are harmless,
    and then applies what they are good for. -/
theorem recoverSnapshot_iff : ∀ {l : Fields} {p : Replica LooseClock},
    ((N.recoverSnapshot p l).2 = none ↔
      Along N.EntryHarmless (fun p e => run N.applyItem p (N.goodEntry e)) p l) ∧
    ((N.recoverSnapshot p l).2 = none →
      (N.recoverSnapshot p l).1 = run N.applyItem p (l.flatMap N.goodEntry))
  | [], _ => ⟨iff_of_true rfl trivial, fun _ => rfl⟩
  | e :: l, p => by
    obtain ⟨hgo, hstop⟩ := recoverSnapshot_cons (N := N) (p := p) e l
    by_cases he : N.EntryHarmless p e
    · rw [hgo he, List.flatMap_cons, run_append]
      obtain ⟨hiff, hstate⟩ := recoverSnapshot_iff (l := l) (p := run N.applyItem p (N.goodEntry e))
      exact ⟨hiff.trans (and_iff_right he).symm, hstate⟩
    · have hraised := hstop he
      exact ⟨iff_of_false hraised fun h => he h.1, fun h => absurd h hraised⟩

theorem run_goodClock (p : Replica LooseClock) (d : Fields) :
    run N.applyItem p (goodClock d) = p.withClock (readClock p.vectorClock d) := by
  unfold goodClock readClock
  rw [LooseClock.logClock_ofDict]
  cases LooseClock.ofDict d <;> rfl

section
variable {rec : WalRecord} {l : Fields}

theorem harmless_task_iff (h : rec.recordType = recordTask) :
    N.Harmless p rec ↔ TaskRecord.overflows (.obj rec.payload) = false := by
  have h3 : rec.recordType ≠ recordCheckpoint := by rw [h]; decide
  exact ⟨fun hr => hr.task h, fun ht => ⟨fun _ => ht, fun h' => absurd h' h3, fun h' => absurd h' h3⟩⟩

theorem harmless_snapshot_iff (h : rec.recordType = recordCheckpoint) (hl : rec.tasksValue = some l) :
    N.Harmless p rec ↔ Along N.EntryHarmless (fun p e => run N.applyItem p (N.goodEntry e)) p l ∧
      clockLike rec.clockValue = true := by
  have h1 : rec.recordType ≠ recordTask := by rw [h]; decide
  constructor
  · intro hr
    exact ⟨hr.tasks h l hl, hr.clock h (by rw [hl]; rfl)⟩
  · rintro ⟨htasks, hclock⟩
    refine ⟨fun h' => absurd h' h1, fun _ l' hl' => ?_, fun _ _ => hclock⟩
    obtain rfl := Option.some.inj (hl.symm.trans hl')
    exact htasks

theorem harmless_other (h1 : rec.recordType ≠ recordTask)
    (h3 : rec.recordType = recordCheckpoint → rec.tasksValue = none) : N.Harmless p rec := by
  refine ⟨fun h => absurd h h1, fun h l hl => ?_, fun h hsome => ?_⟩
  · cases (h3 h).symm.trans hl
  · rw [h3 h] at hsome
    cases hsome

/-- A record of a task is applied unless its lease overflows. -/
theorem recoverRecord_task_iff (h : rec.recordType = recordTask) :
    ((N.recoverRecord p rec).2 = none ↔ TaskRecord.overflows (.obj rec.payload) = false) ∧
    ((N.recoverRecord p rec).2 = none →
      (N.recoverRecord p rec).1 = run N.applyItem p (N.salvaged rec)) := by
  simp only [recoverRecord, salvaged, if_pos h]
  cases hov : TaskRecord.overflows (.obj rec.payload) with
  | true =>
    simp [decodedTask_overflow (N := N) hov]
  | false =>
    rw [decodedTask_eq hov]
    cases N.goodTask (.obj rec.payload) with
    | none => exact ⟨iff_of_true rfl rfl, fun _ => rfl⟩
    | some r =>
      have hfull : (!p.tasks.has r.taskId && N.maxTasks ≤ p.tasks.size) = true ↔
          ¬ N.TakesKey p r.taskId := by simp [TakesKey]
      by_cases hadm : N.TakesKey p r.taskId <;> simp [applyItem, hadm, hfull]

/-- A checkpoint with tasks is applied, entry by entry and then its clock, unless one of these
    raises. -/
theorem recoverRecord_snapshot_iff (h : rec.recordType = recordCheckpoint)
    (hl : rec.tasksValue = some l) :
    ((N.recoverRecord p rec).2 = none ↔
      (N.recoverSnapshot p l).2 = none ∧ clockLike rec.clockValue = true) ∧
    ((N.recoverRecord p rec).2 = none →
      (N.recoverRecord p rec).1 = run N.applyItem p (N.salvaged rec)) := by
  have hsalvaged : N.salvaged rec =
      l.flatMap N.goodEntry ++ goodClock (clockFields rec.clockValue) := by
    rw [salvaged, if_neg (by rw [h]; decide), if_neg (by rw [h]; decide), if_pos h, hl]
  have hstate := (recoverSnapshot_iff (N := N) (l := l) (p := p)).2
  rcases hq : N.recoverSnapshot p l with ⟨q, _ | e⟩ <;> rw [hq] at hstate
  · rw [(recoverRecord_snapshot h hl).2 hq, hsalvaged, run_append, ← hstate rfl, run_goodClock]
    cases clockLike rec.clockValue with
    | true => exact ⟨iff_of_true rfl ⟨rfl, rfl⟩, fun _ => rfl⟩
    | false => simp
  · rw [(recoverRecord_snapshot h hl).1 e hq]
    simp

end

/-- **One record of the log**: recovery raises nothing exactly if it is harmless, and then applies
    what the record is good for. -/
theorem recoverRecord_iff (rec : WalRecord) :
    ((N.recoverRecord p rec).2 = none ↔ N.Harmless p rec) ∧
    ((N.recoverRecord p rec).2 = none →
      (N.recoverRecord p rec).1 = run N.applyItem p (N.salvaged rec)) := by
  obtain h1 | h2 | ⟨l, h3, hl⟩ | ⟨h1, h2, h3⟩ := rec.kinds
  · rw [harmless_task_iff h1]
    exact recoverRecord_task_iff h1
  · have h1 : rec.recordType ≠ recordTask := by rw [h2]; decide
    have h3 : rec.recordType ≠ recordCheckpoint := by rw [h2]; decide
    rw [recoverRecord_clock h2, salvaged, if_neg h1, if_pos h2, run_goodClock]
    exact ⟨iff_of_true rfl (harmless_other h1 fun h => absurd h h3), fun _ => rfl⟩
  · rw [harmless_snapshot_iff h3 hl, ← recoverSnapshot_iff.1]
    exact recoverRecord_snapshot_iff h3 hl
  · rw [recoverRecord_other h1 h2 h3, salvaged, if_neg h1, if_neg h2]
    refine ⟨iff_of_true rfl (harmless_other h1 h3), fun _ => ?_⟩
    split_ifs with h
    · rw [h3 h]; rfl
    · rfl

/-- **The loop over the records.** -/
theorem recoverRecords_iff : ∀ (recs : List WalRecord) (p : Replica LooseClock),
    ((N.recoverRecords p recs).2 = none ↔
      Along N.Harmless (fun p rec => run N.applyItem p (N.salvaged rec)) p recs) ∧
    ((N.recoverRecords p recs).2 = none →
      (N.recoverRecords p recs).1 = run N.applyItem p (recs.flatMap N.salvaged))
  | [], _ => ⟨iff_of_true rfl trivial, fun _ => rfl⟩
  | rec :: recs, p => by
    obtain ⟨hiff, hstate⟩ := recoverRecord_iff (N := N) (p := p) rec
    unfold recoverRecords Along
    rcases hq : N.recoverRecord p rec with ⟨q, _ | e⟩ <;> rw [hq] at hiff hstate
    · obtain ⟨ihiff, ihstate⟩ := recoverRecords_iff recs q
      rw [List.flatMap_cons, run_append, ← hstate rfl]
      exact ⟨ihiff.trans (and_iff_right (hiff.1 rfl)).symm, ihstate⟩
    · simp only [reduceCtorEq, false_iff] at hiff
      exact ⟨iff_of_false (by simp) fun h => hiff h.1, fun h => by cases h⟩

end

/-- `_recover_from_wal` on the file of a log, with the clocks of the interpreter. -/
def recoverLoose (W : WriteAheadLog) (file : Bytes) : NodeState LooseClock × Option Exn :=
  N.recover ((N.opened file []).withClock .zero) (W.replay R false file)

/-- **When recovery is total.**  On a log that can be read, recovery raises nothing and applies
    everything that is well formed and authorised, in order, exactly if each record is harmless in
    the state in which it is come to.  The node that comes of it is that of `recoverFile`, the clock
    apart, and with the same clock where the counters of the log are integers. -/
theorem recovery_total_iff {W : WriteAheadLog} {file : Bytes} {recs : List WalRecord}
    (hreplay : W.replay R false file = (recs, none)) :
    ((N.recoverLoose W file).2 = none ∧ (N.recoverLoose W file).1.toReplica =
        run N.applyItem ((N.opened file []).toReplica.withClock .zero) (recs.flatMap N.salvaged) ↔
      Along N.Harmless (fun p rec => run N.applyItem p (N.salvaged rec))
        ((N.opened file []).toReplica.withClock .zero) recs) ∧
    ∃ c, N.recoverLoose W file = ((N.recoverFile W file).1.withClock c, (N.recoverFile W file).2) ∧
      ((∀ rec ∈ recs, rec.Integral) → c.Holds (N.recoverFile W file).1.vectorClock) := by
  obtain ⟨hstate, hraised⟩ :=
    recover_eq (N := N) ((N.opened file []).withClock LooseClock.zero) (W.replay R false file)
  obtain ⟨hiff, happlied⟩ := recoverRecords_iff (N := N) recs
    ((N.opened file []).toReplica.withClock .zero)
  refine ⟨?_, ?_⟩
  · unfold recoverLoose
    rw [hstate, hraised, hreplay, Option.or_none]
    exact ⟨fun h => hiff.1 h.1, fun h => ⟨hiff.2 h, happlied (hiff.2 h)⟩⟩
  · obtain ⟨c, hrun, hholds⟩ := recover_withClock (N := N) (N.opened file []) .zero
      (W.replay R false file)
    exact ⟨c, hrun, fun hint => hholds (by rw [hreplay]; exact hint) LooseClock.holds_zero⟩

namespace Sample

/-- A checkpoint without tasks and with any clock. -/
def oddCheckpoint (clock : Json) (h : clock.wf = true) : WalEntry where
  recordType := recordCheckpoint
  payload := ⟨[(str "tasks", .obj []), (str "vector_clock", clock)], by
    have hnames : [str "tasks", str "vector_clock"].Nodup := by decide
    simp only [Json.wf, Json.wfFields, h, List.map_cons, List.map_nil, hnames, decide_true,
      Bool.and_self]
    rfl⟩

theorem canon_oddCheckpoint {clock : Json} (h : clock.wf = true) :
    (oddCheckpoint clock h).payload.canon =
      [(str "tasks", .obj []), (str "vector_clock", clock.canon)] := by
  have hkeys : ([str "tasks", str "vector_clock"] : List Str).Pairwise (· ≤ ·) := by decide
  exact Json.sortKeys_eq_self hkeys

/-- A log with such a checkpoint. -/
noncomputable def oddLog (clock : Json) (h : clock.wf = true) : Bytes :=
  walMagic ++ [oddCheckpoint clock h].flatMap (WalEntry.bytes runtime)

/-- It is read without an error. -/
theorem replay_oddLog {clock : Json} (h : clock.wf = true)
    (hfit : (oddCheckpoint clock h).Fits runtime WriteAheadLog.Sample.log) :
    WriteAheadLog.Sample.log.replay runtime false (oddLog clock h) =
      ([⟨8, recordCheckpoint, [(str "tasks", .obj []), (str "vector_clock", clock.canon)]⟩],
        none) := by
  have hread : WriteAheadLog.Sample.log.replay runtime false (walMagic ++
      [oddCheckpoint clock h].flatMap (WalEntry.bytes runtime)) = _ :=
    WriteAheadLog.replay_whole (by simpa using hfit)
  rw [← canon_oddCheckpoint h]
  exact hread

/-- A clock with a counter that is no number, and a value that is no clock. -/
def wordClock : Json := .obj [(str "a", .str (str "x"))]
def listClock : Json := .arr [.int 1]

end Sample

theorem recovery_total_malformed :
    (Sample.loggingC.recoverLoose WriteAheadLog.Sample.log (Sample.oddLog Sample.wordClock rfl)).2 =
      none := by
  have hfit : (Sample.oddCheckpoint Sample.wordClock rfl).Fits Sample.runtime
      WriteAheadLog.Sample.log :=
    ⟨rfl, by decide, by decide, by decide, by decide⟩
  refine ((Sample.loggingC.recovery_total_iff (Sample.replay_oddLog rfl hfit)).1.2
    ⟨⟨fun h => absurd h (by decide), fun _ rawTasks h => ?_, fun _ _ => rfl⟩, trivial⟩).1
  obtain rfl := Option.some.inj h
  trivial

/-- The clock `[1]` of a checkpoint has no `items`: `AttributeError`. -/
theorem recovery_raises :
    ¬ ∀ (R : Runtime) (N : PeerNode R) (W : WriteAheadLog) (file : Bytes) (recs : List WalRecord),
      N.wal = some W → W.replay R false file = (recs, none) →
      (N.recoverLoose W file).2 = none ∧ (N.recoverLoose W file).1.toReplica =
        run N.applyItem ((N.opened file []).toReplica.withClock .zero)
          (recs.flatMap N.salvaged) := by
  intro h
  have hfit : (Sample.oddCheckpoint Sample.listClock rfl).Fits Sample.runtime
      WriteAheadLog.Sample.log :=
    ⟨rfl, by decide, by decide, by decide, by decide⟩
  have hreplay := Sample.replay_oddLog rfl hfit
  obtain ⟨hnone, -⟩ := h _ Sample.loggingC WriteAheadLog.Sample.log _ _ rfl hreplay
  rw [recoverLoose, (recover_eq _ _).2, hreplay] at hnone
  have hraised : (Sample.loggingC.recoverRecords
      ((Sample.loggingC.opened (Sample.oddLog Sample.listClock rfl) []).withClock
        LooseClock.zero).toReplica [⟨8, recordCheckpoint,
          [(str "tasks", .obj []), (str "vector_clock", Sample.listClock.canon)]⟩]).2 =
      some .attributeError := rfl
  rw [hraised] at hnone
  cases hnone

end PeerNode

end PeerQ
