/-
  Recovery: what a restarted node makes of its log.

  The entries a node has appended are read back as they were written
  (`recoverRecord_entry`), so recovery is a fold over them (`recoverRecords_entries`),
  and a cut of an intact log leaves an initial part of them (`replay_cut`).

  The clock of a node is above the clock of every stored record in every run
  whose restarts read back an initial part of what was logged that does not end
  in a task (`clock_dominates`): a task and the clock it was stored with are two
  frames, and a cut between them loses the clock.
-/
import PeerQ.Node.Scheduling
import PeerQ.Node.Writes
import PeerQ.Wal.Reopen

namespace PeerQ

open Py

/-- The values in a record of the log that recovery decodes to tasks. -/
def WalRecord.taskValues (rec : WalRecord) : List Json :=
  if rec.recordType = recordTask then [.obj rec.payload]
  else if rec.recordType = recordCheckpoint then
    match (lookup (str "tasks") rec.payload).getD (.obj []) with
    | .obj rawTasks => rawTasks.map Prod.snd
    | _ => []
  else []

/-- The tasks of a checkpoint, by key. -/
def WalRecord.snapshot (rec : WalRecord) : Fields :=
  match (lookup (str "tasks") rec.payload).getD (.obj []) with
  | .obj rawTasks => rawTasks
  | _ => []

/-- Recovery stores the task `r` out of the value `v` under the key `t`: its own id, or the key in a
    checkpoint. -/
def WalRecord.Offers (rec : WalRecord) (t : Str) (v : Json) (r : TaskRecord) : Prop :=
  rec.recordType = recordTask ∧ v = .obj rec.payload ∧ t = r.taskId ∨
    rec.recordType = recordCheckpoint ∧ (t, v) ∈ rec.snapshot

theorem WalRecord.Offers.mem_taskValues {rec : WalRecord} {t : Str} {v : Json} {r : TaskRecord}
    (h : rec.Offers t v r) : v ∈ rec.taskValues := by
  unfold taskValues
  rcases h with ⟨hty, rfl, -⟩ | ⟨hty, h⟩
  · rw [if_pos hty]; simp
  · rw [if_neg (by rw [hty]; decide), if_pos hty]
    unfold snapshot at h
    split at h
    · exact List.mem_map_of_mem h
    · cases h

namespace PeerNode

variable {R : Runtime} (N : PeerNode R)

/-! ## Invariants of recovery

What holds of a replica, whatever its clock, and is kept when a task of the log is put into it
holds after recovery. -/

section
variable {N} {I : Replica → Prop} (hclock : ∀ p c, I p → I { p with vectorClock := c })
include hclock

theorem recoverClock_invariant {p : Replica} (h : I p) (c : Except Exn VectorClock) :
    I (recoverClock p c).1 := by
  unfold recoverClock
  split
  · exact hclock _ _ h
  · split_ifs <;> exact h

omit hclock in
theorem recoverSnapshot_invariant : ∀ {l : Fields} {p : Replica},
    (∀ p t v r, (t, v) ∈ l → N.decodedTask v = .ok (some r) →
      (p.tasks.has t = true ∨ p.tasks.size < N.maxTasks) → I p → I (N.recoverTask p t r)) →
    I p → I (N.recoverSnapshot p l).1
  | [], _, _, h => h
  | (t, v) :: l, p, htask, h => by
    have ih : ∀ q, I q → I (N.recoverSnapshot q l).1 := fun q =>
      recoverSnapshot_invariant fun p t' v' r hv => htask p t' v' r (List.mem_cons_of_mem _ hv)
    unfold recoverSnapshot
    split_ifs with hroom
    · exact ih p h
    cases hd : N.decodedTask v with
    | error e => exact h
    | ok o =>
      cases o with
      | none => exact ih p h
      | some r =>
        refine ih _ (htask p t v r (by simp) hd ?_ h)
        cases hh : p.tasks.has t with
        | true => exact Or.inl rfl
        | false => simpa [hh] using hroom

theorem recoverRecord_invariant {p : Replica} {rec : WalRecord}
    (htask : ∀ p t v r, rec.Offers t v r → N.decodedTask v = .ok (some r) →
      (p.tasks.has t = true ∨ p.tasks.size < N.maxTasks) → I p → I (N.recoverTask p t r))
    (h : I p) : I (N.recoverRecord p rec).1 := by
  unfold recoverRecord
  split_ifs with h1 h2 h3
  · cases hd : N.decodedTask (.obj rec.payload) with
    | error e => exact h
    | ok o =>
      cases o with
      | none => exact h
      | some r =>
        simp only
        split_ifs with hroom
        · exact h
        · refine htask p _ _ r (Or.inl ⟨h1, rfl, rfl⟩) hd ?_ h
          cases hh : p.tasks.has r.taskId with
          | true => exact Or.inl rfl
          | false => simpa [hh] using hroom
  · exact recoverClock_invariant hclock h _
  · cases hl : (lookup (str "tasks") rec.payload).getD (.obj []) with
    | obj rawTasks =>
      have hsnap : rec.snapshot = rawTasks := by rw [WalRecord.snapshot, hl]
      have hs : I (N.recoverSnapshot p rawTasks).1 :=
        recoverSnapshot_invariant (fun p t v r hv => htask p t v r (Or.inr ⟨h3, hsnap ▸ hv⟩)) h
      simp only
      rcases hp : N.recoverSnapshot p rawTasks with ⟨p', _ | e⟩ <;> rw [hp] at hs
      · exact recoverClock_invariant hclock hs _
      · exact hs
    | _ => exact h
  · exact h

/-- **An invariant of recovery** holds after the loop over the records of the log. -/
theorem recoverRecords_invariant : ∀ {recs : List WalRecord} {p : Replica},
    (∀ p t v r, (∃ rec ∈ recs, rec.Offers t v r) → N.decodedTask v = .ok (some r) →
      (p.tasks.has t = true ∨ p.tasks.size < N.maxTasks) → I p → I (N.recoverTask p t r)) →
    I p → I (N.recoverRecords p recs).1
  | [], _, _, h => h
  | rec :: recs, p, htask, h => by
    have hfirst : I (N.recoverRecord p rec).1 :=
      recoverRecord_invariant hclock (fun p t v r hv => htask p t v r ⟨rec, by simp, hv⟩) h
    unfold recoverRecords
    rcases hp : N.recoverRecord p rec with ⟨p', _ | e⟩ <;> rw [hp] at hfirst
    · refine recoverRecords_invariant (fun p t v r hv => htask p t v r ?_) hfirst
      obtain ⟨rec', hm, hv⟩ := hv
      exact ⟨rec', List.mem_cons_of_mem _ hm, hv⟩
    · exact hfirst

end

/-! ## Reading entries back -/

/-- Recovery on an entry as it was appended. -/
def recoverEntry (p : Replica) : LogEntry → Replica
  | .task r =>
    match N.decodedTask r.toDict with
    | .ok (some task) =>
      if !p.tasks.has task.taskId && N.maxTasks ≤ p.tasks.size then p
      else N.recoverTask p task.taskId task
    | _ => p
  | .clock c => { p with vectorClock := p.vectorClock ⊔ c }

/-- A record out of the log is the one that was logged, or none. -/
theorem decodedTask_toDict (r : TaskRecord) :
    N.decodedTask r.toDict = .ok none ∨
    N.decodedTask r.toDict = .ok (some r) ∧ r.Decodable ∧
      (N.security.enabled = true → verifyTaskAuthorization R r N.keyring = true) := by
  unfold decodedTask
  cases hd : TaskRecord.fromDict r.toDict with
  | error e => simp [TaskRecord.fromDict_toDict_error hd]
  | ok x =>
    obtain ⟨hr, rfl⟩ := r.fromDict_toDict_iff.1 hd
    cases hs : N.security.enabled <;> cases hv : verifyTaskAuthorization R x N.keyring <;>
      simp [hr, hv]

theorem decodedTask_ok {r : TaskRecord} (hr : r.Decodable)
    (hv : N.security.enabled = true → verifyTaskAuthorization R r N.keyring = true) :
    N.decodedTask r.toDict = .ok (some r) := by
  unfold decodedTask
  rw [r.fromDict_toDict_iff.2 ⟨hr, rfl⟩]
  cases hs : N.security.enabled
  · simp
  · simp [hv hs]

/-- A task that is read back for the first time is stored as it is. -/
theorem recoverEntry_new {p : Replica} {r : TaskRecord} (hd : N.decodedTask r.toDict = .ok (some r))
    (hg : p.tasks.get r.taskId = none) (hsize : p.tasks.size < N.maxTasks) :
    N.recoverEntry p (.task r) = p.store r.taskId r := by
  simp only [recoverEntry, hd, recoverTask, hg]
  rw [if_neg (by simp [not_le.2 hsize])]

/-- A task that is there already is merged. -/
theorem recoverEntry_merge {p : Replica} {r old m : TaskRecord}
    (hd : N.decodedTask r.toDict = .ok (some r)) (hg : p.tasks.get r.taskId = some old)
    (hm : mergeRecords R old r N.mergeKeyring = .ok m) :
    N.recoverEntry p (.task r) = p.store r.taskId m := by
  simp only [recoverEntry, hd, recoverTask, hg, hm]
  rw [if_neg (by simp [Dict.has, hg])]

/-- A clock is read back whatever the order of its entries. -/
theorem clockOfDict_canon (c : VectorClock) : clockOfDict c.pyDict.canon = .ok c := by
  have hmem : ∀ e ∈ c.pyDict.canon, (counterValue e.2).map (fun n => (e.1, Json.int n)) = some e := by
    intro e he
    rw [PyDict.canon, (Json.sortKeys_perm _).mem_iff, Json.canonFields_eq] at he
    obtain ⟨e', he', rfl⟩ := List.mem_map.1 he
    obtain ⟨x, -, rfl⟩ := List.mem_map.1 he'
    rfl
  have hmap : c.pyDict.canon.mapM (fun e => (counterValue e.2).map fun n => (e.1, Json.int n)) =
      some c.pyDict.canon := by
    revert hmem
    generalize c.pyDict.canon = d
    intro hmem
    induction d with
    | nil => rfl
    | cons e d ih =>
      rw [List.mapM_cons, hmem e (by simp), ih fun e' he' => hmem e' (by simp [he'])]
      rfl
  have hnodup : (c.toDict.map Prod.fst).Nodup := by
    simpa [VectorClock.toDict, Counters.keys, Function.comp_def] using c.nodup_keys
  unfold clockOfDict
  rw [hmap]
  show Except.ok (VectorClock.ofFields (Json.sortKeys (Json.canonFields c.toDict))) = _
  rw [TaskRecord.ofFields_canon hnodup, TaskRecord.ofFields_toDict]

/-- An entry of the log acts on recovery as what was appended. -/
theorem recoverRecord_entry {p : Replica} {rec : WalRecord} {e : LogEntry}
    (h : rec.content = e.entry.content) : N.recoverRecord p rec = (N.recoverEntry p e, none) := by
  obtain ⟨hty, hpay⟩ := Prod.mk.inj h
  unfold recoverRecord
  rw [hty, hpay]
  cases e with
  | task r =>
    have hobj : N.decodedTask (.obj r.pyDict.canon) = N.decodedTask r.toDict := by
      have hcanon : Json.obj r.pyDict.canon = r.toDict.canon := (PyDict.canon_obj _).symm
      unfold decodedTask
      rw [hcanon, TaskRecord.fromDict_canon r.wf_toDict]
    simp only [LogEntry.entry, if_true, hobj, recoverEntry]
    rcases N.decodedTask_toDict r with hd | ⟨hd, -⟩
    · simp only [hd]
    · simp only [hd]
      split_ifs <;> rfl
  | clock c =>
    have hne : recordClock ≠ recordTask := by decide
    simp only [LogEntry.entry, hne, if_false, if_true, LogClock.ofDict_vectorClock,
      LogClock.merge_vectorClock, clockOfDict_canon, recoverClock,
      recoverEntry, Counters.merge_eq_sup]

/-- **Recovery is a fold over the entries** that are read back. -/
theorem recoverRecords_entries : ∀ {recs : List WalRecord} {es : List LogEntry} {p : Replica},
    recs.map WalRecord.content = es.map (fun e => e.entry.content) →
      N.recoverRecords p recs = (es.foldl N.recoverEntry p, none)
  | [], [], _, _ => rfl
  | rec :: recs, e :: es, p, h => by
    simp only [List.map_cons, List.cons.injEq] at h
    unfold recoverRecords
    rw [N.recoverRecord_entry h.1]
    exact recoverRecords_entries h.2
  | [], _ :: _, _, h => by simp at h
  | _ :: _, [], _, h => by simp at h

/-! ## Intact logs -/

/-- The file of a log with the given entries. -/
def logFile (R : Runtime) (es : List LogEntry) : Bytes :=
  walMagic ++ (es.map LogEntry.entry).flatMap (WalEntry.bytes R)

/-- The file of a node that has a log holds what was appended, one frame after the other. -/
def Intact (p : Replica) : Prop :=
  ∀ W, N.wal = some W →
    p.walFile = some (logFile R p.journal) ∧ ∀ e ∈ p.journal, e.entry.Fits R W

section
variable {N} {p : Replica}

theorem Intact.append (h : N.Intact p) (e : LogEntry) : N.Intact (N.appendEntry p e).1 := by
  intro W hW
  obtain ⟨hf, hfit⟩ := h W hW
  unfold appendEntry
  rw [hW, hf]
  simp only
  cases ha : W.append R (logFile R p.journal) e.entry.recordType e.entry.payload with
  | error err => exact ⟨hf, hfit⟩
  | ok x =>
    obtain ⟨he, -, hx⟩ := WriteAheadLog.append_ok_iff.1 ha
    refine ⟨?_, fun e' he' => ?_⟩
    · simp [hx, logFile]
    · rcases List.mem_append.1 he' with he' | he'
      · exact hfit e' he'
      · rw [List.mem_singleton.1 he']; exact he

theorem Intact.logUpdate (h : N.Intact p) (r : TaskRecord) : N.Intact (N.logUpdate p r).1 := by
  rw [logUpdate_eq]
  split_ifs
  · exact (h.append _).append _
  · exact h.append _

theorem Intact.store (h : N.Intact p) (t : Str) (r : TaskRecord) : N.Intact (p.store t r) := h

theorem Intact.localUpdate (h : N.Intact p) (t : Str) (mk : VectorClock → TaskRecord) :
    N.Intact (N.localUpdate p t mk).1 := by
  have htick : N.Intact (N.tick p) := h
  exact (htick.store t _).logUpdate _

theorem Intact.step_local {s : NodeState} (h : N.Intact s.toReplica) {e : Event}
    (he : e.isLocal = true) : N.Intact (N.step s e).toReplica := by
  have hstep := N.step_local s he
  generalize (N.step s e).toReplica = p at hstep ⊢
  cases hstep with
  | idle => exact h
  | claimRun now leaseNow wallNow suspected nonce job p hjob hp =>
    have hp' : N.Intact p := hp ▸ h.localUpdate _ _
    exact hp'.store _ _
  | run => exact h.store _ _
  | _ => exact h.localUpdate _ _

theorem Intact.write {w : Write} (h : N.Intact p) : N.Intact (N.write p w) := by
  have ha : N.Intact (N.assigned p w) := h
  rcases N.write_cases p w with hw | hw <;> rw [hw]
  exacts [ha, ha.logUpdate _]

theorem Intact.initial : N.Intact N.initial.toReplica := by
  intro W hW
  rcases N.boot_replica none [] with ⟨hw, -⟩ | ⟨W', -, ⟨⟨e, he⟩, -⟩ | ⟨f, ho, hb⟩⟩
  · rw [hw] at hW; exact absurd hW (by simp)
  · cases he
  · obtain rfl : walMagic = f := Except.ok.inj ho
    have hread : (W'.replay R false walMagic).1 = [] := rfl
    unfold PeerNode.initial
    rw [hb, recovered, hread]
    exact ⟨rfl, by simp [recoverRecords, opened]⟩

end

theorem wholeBefore_take : ∀ (k : ℕ) (es : List WalEntry),
    WalEntry.wholeBefore R k es = es.take (WalEntry.wholeBefore R k es).length
  | _, [] => rfl
  | k, e :: es => by
    unfold WalEntry.wholeBefore
    split_ifs
    · rw [List.length_cons, List.take_succ_cons, ← wholeBefore_take]
    · rfl

/-- **A cut of an intact log** leaves an initial part of its entries. -/
theorem replay_cut {W : WriteAheadLog} {es : List LogEntry} (hfit : ∀ e ∈ es, e.entry.Fits R W)
    {cut : ℕ} {f : Bytes} (ho : W.openFile (some ((logFile R es).take cut)) = .ok f) :
    (W.replay R false f).2 = none ∧
    (W.replay R false f).1.length =
      (WalEntry.wholeBefore R (cut - 8) (es.map LogEntry.entry)).length ∧
    (W.replay R false f).1.map WalRecord.content =
      (es.take (W.replay R false f).1.length).map (fun e => e.entry.content) := by
  have hfit' : ∀ e ∈ es.map LogEntry.entry, e.Fits R W := by simpa using hfit
  obtain rfl := WriteAheadLog.openFile_cut ho
  have hread : W.replay R false (walMagic ++ ((WalEntry.wholeBefore R (cut - 8)
      (es.map LogEntry.entry)).flatMap (WalEntry.bytes R) ++
        WalEntry.tornTail R (cut - 8) (es.map LogEntry.entry))) =
      (WriteAheadLog.recordsAt R 8 (WalEntry.wholeBefore R (cut - 8) (es.map LogEntry.entry)),
        none) := by
    rw [WriteAheadLog.replay_magic, WriteAheadLog.read_entries fun e he =>
      hfit' e (WalEntry.wholeBefore_sub e he)]
    rcases WalEntry.tornTail_cases (R := R) (cut - 8) (es.map LogEntry.entry) with
      ht | ⟨F, hF, j, -, hj, ht⟩ <;> rw [ht]
    · rw [read_stop (WriteAheadLog.readFrame_short (b := []) (by decide)), List.append_nil]
    · rw [read_stop (WriteAheadLog.readFrame_torn (hfit' F hF) hj), List.append_nil]
  have hcontent := WriteAheadLog.content_recordsAt (R := R) 8
    (WalEntry.wholeBefore R (cut - 8) (es.map LogEntry.entry))
  have hlen := congrArg List.length hcontent
  rw [List.length_map, List.length_map] at hlen
  rw [hread]
  refine ⟨rfl, hlen, ?_⟩
  have hmap : (fun e : LogEntry => e.entry.content) = WalEntry.content ∘ LogEntry.entry := rfl
  rw [hcontent, hlen, hmap, ← List.map_map, List.map_take, ← wholeBefore_take]

/-- The entries of a log that lie wholly before the cut. -/
def survivors (R : Runtime) (cut : ℕ) (es : List LogEntry) : List LogEntry :=
  es.take (WalEntry.wholeBefore R (cut - 8) (es.map LogEntry.entry)).length

/-- **A restart on an intact log** recovers from the entries before the cut. -/
theorem step_restart_replica {s : NodeState} {W : WriteAheadLog} (hW : N.wal = some W)
    (h : N.Intact s.toReplica) {cut : ℕ} (h8 : 8 ≤ cut) :
    ∃ f, (N.step s (.restart cut)).toReplica = (survivors R cut s.journal).foldl N.recoverEntry
      (N.opened f (survivors R cut s.journal)).toReplica := by
  obtain ⟨hfile, hfit⟩ := h W hW
  have htake : (logFile R s.journal).take cut = walMagic ++
      ((s.journal.map LogEntry.entry).flatMap (WalEntry.bytes R)).take (cut - 8) := by
    rw [logFile, List.take_append, List.take_of_length_le (show walMagic.length ≤ cut from h8)]; rfl
  have ho : W.openFile (s.walFile.map (·.take cut)) = .ok ((logFile R s.journal).take cut) := by
    rw [hfile, Option.map_some, htake]; rfl
  rcases N.boot_replica (s.walFile.map (·.take cut)) s.journal with
    ⟨hw, -⟩ | ⟨W', hw, ⟨⟨e, he⟩, -⟩ | ⟨f, ho', hb⟩⟩
  · rw [hw] at hW; exact absurd hW (by simp)
  · obtain rfl : W = W' := Option.some.inj (hW.symm.trans hw)
    exact absurd (ho.symm.trans he) (by simp)
  · obtain rfl : W = W' := Option.some.inj (hW.symm.trans hw)
    obtain rfl := Except.ok.inj (ho.symm.trans ho')
    rw [hfile] at ho'
    obtain ⟨-, hlen, hread⟩ := replay_cut hfit ho'
    refine ⟨(logFile R s.journal).take cut, hb.trans ?_⟩
    rw [recovered, N.recoverRecords_entries hread, hlen]
    rfl

/-! ## Clocks -/

/-- The clock is above those of the stored and of the logged records, and a clock that was logged
    is above those of the records logged before it. -/
structure ClockInv (p : Replica) : Prop where
  stored : ∀ t r, p.tasks.get t = some r → r.vectorClock ≤ p.vectorClock
  logged : ∀ r, .task r ∈ p.journal → r.vectorClock ≤ p.vectorClock
  followed : p.journal.Pairwise fun a b => ∀ r c, a = .task r → b = .clock c → r.vectorClock ≤ c

section
variable {N} {p : Replica}

theorem ClockInv.store (h : ClockInv p) {t : Str} {r : TaskRecord}
    (hr : r.vectorClock ≤ p.vectorClock) : ClockInv (p.store t r) := by
  refine ⟨fun u x hx => ?_, h.logged, h.followed⟩
  by_cases hu : u = t
  · subst hu
    rw [← Option.some.inj ((Dict.get_set_self _ _ _).symm.trans hx)]
    exact hr
  · exact h.stored u x ((Dict.get_set_ne _ _ (Ne.symm hu)).symm.trans hx)

theorem ClockInv.grow (h : ClockInv p) {c : VectorClock} (hc : p.vectorClock ≤ c) :
    ClockInv { p with vectorClock := c } :=
  ⟨fun t r hr => (h.stored t r hr).trans hc, fun r hr => (h.logged r hr).trans hc, h.followed⟩

/-- An append adds at most its entry to the journal. -/
theorem appendEntry_journal (p : Replica) (e : LogEntry) :
    (N.appendEntry p e).1.journal = p.journal ∨
      (N.appendEntry p e).1.journal = p.journal ++ [e] := by
  unfold appendEntry
  split
  · split
    exacts [Or.inr rfl, Or.inl rfl]
  · exact Or.inl rfl

/-- A task may be logged if its clock is below, a clock if it is the node's. -/
theorem ClockInv.append (h : ClockInv p) {e : LogEntry}
    (ht : ∀ r, e = .task r → r.vectorClock ≤ p.vectorClock)
    (hc : ∀ c, e = .clock c → c = p.vectorClock) : ClockInv (N.appendEntry p e).1 := by
  refine ⟨?_, ?_, ?_⟩
  · rw [appendEntry_tasks, appendEntry_vectorClock]; exact h.stored
  all_goals
    rcases appendEntry_journal (N := N) p e with hj | hj <;> rw [hj]
  · rw [appendEntry_vectorClock]; exact h.logged
  · rw [appendEntry_vectorClock]
    intro r hr
    rcases List.mem_append.1 hr with hr | hr
    · exact h.logged r hr
    · exact ht r (List.mem_singleton.1 hr).symm
  · exact h.followed
  · refine List.pairwise_append.2 ⟨h.followed, List.pairwise_singleton _ _, ?_⟩
    rintro _ ha b hb r c rfl rfl
    rw [hc c (List.mem_singleton.1 hb).symm]
    exact h.logged r ha

theorem ClockInv.logUpdate (h : ClockInv p) {r : TaskRecord} (hr : r.vectorClock ≤ p.vectorClock) :
    ClockInv (N.logUpdate p r).1 := by
  have htask : ClockInv (N.appendEntry p (.task r)).1 :=
    h.append (fun r' he => by cases he; exact hr) (fun c he => by cases he)
  rw [logUpdate_eq]
  split_ifs
  · refine htask.append (fun r' he => by cases he) fun c he => ?_
    rw [appendEntry_vectorClock]
    exact (LogEntry.clock.inj he).symm
  · exact htask

variable (N) in
/-- A received record is written as it came, or merged into the stored one. -/
def Merged (p : Replica) : Write → Prop
  | .take t remote merged => merged = remote ∨
      ∃ old, p.tasks.get t = some old ∧ mergeRecords R old remote N.mergeKeyring = .ok merged
  | _ => True

theorem Made.merged {s : NodeState} {e : Event} {w : Write} (h : N.Made s e p w) :
    N.Merged p w := by
  cases h with
  | take _ _ _ merge => exact merge.imp (fun h => h.2.2) id
  | _ => trivial

/-- The clock of a written record is at most the node's. -/
theorem ClockInv.written {w : Write} (h : ClockInv p) (hw : N.Merged p w) :
    (N.written (N.writeClock p.vectorClock w) w).vectorClock ≤ N.writeClock p.vectorClock w := by
  cases w with
  | take t remote merged =>
    obtain rfl | ⟨old, hold, hm⟩ := hw
    · exact le_sup_right
    · exact (mergeRecords_clock hm).trans (sup_le_sup_right (h.stored _ _ hold) _)
  | _ => exact (N.written_clock _ _ rfl).le

theorem ClockInv.write {w : Write} (h : ClockInv p) (hw : N.Merged p w) :
    ClockInv (N.write p w) := by
  have hle := h.written hw
  have ha : ClockInv (N.assigned p w) := (h.grow (N.le_writeClock w _)).store hle
  rcases N.write_cases p w with hw' | hw' <;> rw [hw']
  exacts [ha, ha.logUpdate hle]

end

/-! ## Recovered clocks -/

section
variable {N}

/-- Merging a recovered task keeps a bound on the clocks. -/
theorem recoverEntry_bound {p : Replica} {e : LogEntry} {C : VectorClock}
    (hp : ∀ t r, p.tasks.get t = some r → r.vectorClock ≤ C)
    (he : ∀ r, e = .task r → r.vectorClock ≤ C) {t : Str} {r : TaskRecord}
    (hr : (N.recoverEntry p e).tasks.get t = some r) : r.vectorClock ≤ C := by
  cases e with
  | clock c => exact hp t r hr
  | task x =>
    have hset : ∀ m : TaskRecord, m.vectorClock ≤ C →
        ((p.store x.taskId m).tasks.get t = some r → r.vectorClock ≤ C) := by
      intro m hm hr
      by_cases ht : t = x.taskId
      · subst ht
        rw [← Option.some.inj ((Dict.get_set_self _ _ _).symm.trans hr)]; exact hm
      · exact hp t r ((Dict.get_set_ne _ _ (Ne.symm ht)).symm.trans hr)
    simp only [recoverEntry] at hr
    rcases N.decodedTask_toDict x with hd | ⟨hd, -⟩ <;> simp only [hd] at hr
    · exact hp t r hr
    split_ifs at hr
    · exact hp t r hr
    unfold recoverTask at hr
    split at hr
    · exact hset x (he x rfl) hr
    · next old hold =>
      split at hr
      · exact hp t r hr
      · next m hm =>
        exact hset m ((mergeRecords_clock hm).trans (sup_le (hp _ _ hold) (he x rfl))) hr

theorem recoverEntry_vectorClock (p : Replica) (e : LogEntry) :
    p.vectorClock ≤ (N.recoverEntry p e).vectorClock ∧
      ∀ c, e = .clock c → c ≤ (N.recoverEntry p e).vectorClock := by
  cases e with
  | clock c => exact ⟨le_sup_left, fun c' h => by cases h; exact le_sup_right⟩
  | task x =>
    refine ⟨le_of_eq ?_, fun _ h => by cases h⟩
    simp only [recoverEntry, recoverTask]
    split
    · split_ifs
      · rfl
      · split
        · rfl
        · split <;> rfl
    · rfl

/-- The fold of recovery keeps a bound on the clocks of the tasks. -/
theorem recoverEntries_bound {C : VectorClock} : ∀ {es : List LogEntry} {p : Replica},
    (∀ t r, p.tasks.get t = some r → r.vectorClock ≤ C) →
    (∀ r, .task r ∈ es → r.vectorClock ≤ C) →
    ∀ t r, (es.foldl N.recoverEntry p).tasks.get t = some r → r.vectorClock ≤ C
  | [], _, hp, _ => hp
  | e :: _, p, hp, he => recoverEntries_bound (p := N.recoverEntry p e)
      (fun _ _ hr => recoverEntry_bound hp (fun r h => he r (by simp [h])) hr)
      fun r hr => he r (List.mem_cons_of_mem _ hr)

/-- It goes above every clock it meets. -/
theorem recoverEntries_reach : ∀ (es : List LogEntry) (p : Replica),
    p.vectorClock ≤ (es.foldl N.recoverEntry p).vectorClock ∧
      ∀ c, .clock c ∈ es → c ≤ (es.foldl N.recoverEntry p).vectorClock
  | [], _ => ⟨le_rfl, by simp⟩
  | e :: es, p => by
    obtain ⟨h1, h2⟩ := recoverEntry_vectorClock (N := N) p e
    obtain ⟨ih1, ih2⟩ := recoverEntries_reach es (N.recoverEntry p e)
    refine ⟨h1.trans ih1, fun c hc => ?_⟩
    rcases List.mem_cons.1 hc with rfl | hc
    · exact (h2 c rfl).trans ih1
    · exact ih2 c hc

theorem recoverEntries_journal : ∀ (es : List LogEntry) (p : Replica),
    (es.foldl N.recoverEntry p).journal = p.journal
  | [], _ => rfl
  | e :: es, p => by
    have hstep : (N.recoverEntry p e).journal = p.journal := by
      cases e with
      | clock c => rfl
      | task x =>
        simp only [recoverEntry, recoverTask]
        split
        · split_ifs
          · rfl
          · split
            · rfl
            · split <;> rfl
        · rfl
    exact (recoverEntries_journal es _).trans hstep

/-- What is read back of the log is an initial part of what was logged, and that does not end in a
    task. -/
def CleanCut (N : PeerNode R) (s : NodeState) (cut : ℕ) : Prop :=
  ∀ W f, N.wal = some W → W.openFile (s.walFile.map (·.take cut)) = .ok f →
    (W.replay R false f).1.map WalRecord.content =
      (s.journal.take (W.replay R false f).1.length).map (fun e => e.entry.content) ∧
    ∀ r, (s.journal.take (W.replay R false f).1.length).getLast? ≠ some (.task r)

/-- The invariant of the clocks is there again after recovery. -/
theorem ClockInv.recovered {W : WriteAheadLog} {f : Bytes} {journal : List LogEntry}
    (hf : journal.Pairwise fun a b => ∀ r c, a = .task r → b = .clock c → r.vectorClock ≤ c)
    (hread : (W.replay R false f).1.map WalRecord.content =
      (journal.take (W.replay R false f).1.length).map (fun e => e.entry.content))
    (hlast : ∀ r, (journal.take (W.replay R false f).1.length).getLast? ≠ some (.task r)) :
    ClockInv (N.recovered W f journal) := by
  unfold PeerNode.recovered
  rw [N.recoverRecords_entries hread]
  replace hf := hf.sublist (List.take_sublist (W.replay R false f).1.length journal)
  generalize journal.take (W.replay R false f).1.length = es at hf hlast ⊢
  -- the last entry is a clock, above every task before it
  have hbound : ∀ r, .task r ∈ es →
      r.vectorClock ≤ (es.foldl N.recoverEntry (N.opened f es).toReplica).vectorClock := by
    intro r hr
    rcases List.eq_nil_or_concat es with rfl | ⟨init, e, rfl⟩
    · simp at hr
    rw [List.concat_eq_append] at hf hlast hr ⊢
    cases e with
    | task x => exact absurd (by simp) (hlast x)
    | clock c =>
      have hmem : LogEntry.task r ∈ init := by simpa using hr
      have hrc : r.vectorClock ≤ c :=
        (List.pairwise_append.1 hf).2.2 _ hmem (.clock c) (by simp) r c rfl rfl
      exact hrc.trans ((recoverEntries_reach _ _).2 c (by simp))
  exact ⟨recoverEntries_bound (by simp [opened, fresh]) hbound,
    (recoverEntries_journal es _).symm ▸ hbound, (recoverEntries_journal es _).symm ▸ hf⟩

theorem ClockInv.fresh (N : PeerNode R) : ClockInv N.fresh.toReplica :=
  ⟨by simp [PeerNode.fresh], by simp [PeerNode.fresh], by simp [PeerNode.fresh]⟩

theorem ClockInv.boot {file : Option Bytes} {journal : List LogEntry}
    (hf : journal.Pairwise fun a b => ∀ r c, a = .task r → b = .clock c → r.vectorClock ≤ c)
    (h : ∀ W f, N.wal = some W → W.openFile file = .ok f →
      (W.replay R false f).1.map WalRecord.content =
        (journal.take (W.replay R false f).1.length).map (fun e => e.entry.content) ∧
      ∀ r, (journal.take (W.replay R false f).1.length).getLast? ≠ some (.task r)) :
    ClockInv (N.boot file journal).toReplica := by
  rcases N.boot_replica file journal with ⟨-, hb⟩ | ⟨W, hw, ⟨-, hb⟩ | ⟨f, ho, hb⟩⟩ <;> rw [hb]
  · exact .fresh N
  · exact ⟨(ClockInv.fresh N).stored, (ClockInv.fresh N).logged, (ClockInv.fresh N).followed⟩
  · exact .recovered hf (h W f hw ho).1 (h W f hw ho).2

end

/-- The restarts of a run leave clean cuts. -/
def ClockOk (s : NodeState) : Event → Prop
  | .restart cut => N.CleanCut s cut
  | _ => True

theorem ClockInv.step {s : NodeState} {e : Event} (h : ClockInv s.toReplica)
    (hs : s.reclaim.Distinct) (he : N.ClockOk s e) : ClockInv (N.step s e).toReplica := by
  obtain ⟨cut, rfl⟩ | hr := e.restart_or
  · exact ClockInv.boot h.followed he
  · exact (N.step_makes hs hr).invariant (fun _ _ hp hw => hp.write hw.merged) h

theorem ClockInv.initial : ClockInv N.initial.toReplica := by
  refine ClockInv.boot List.Pairwise.nil fun W f _ ho => ?_
  obtain rfl : walMagic = f := Except.ok.inj ho
  exact ⟨rfl, by simp⟩

/-- **The clock of a node is above the clocks of its records** in every run whose restarts leave
    clean cuts, so a local event makes a value of the node's own counter that no stored record
    has. -/
theorem clock_dominates {es : List Event} (hok : Along N.ClockOk N.step N.initial es) {t : Str}
    {r : TaskRecord} (hr : (run N.step N.initial es).tasks.get t = some r) :
    r.vectorClock ≤ (run N.step N.initial es).vectorClock ∧
      r.vectorClock.get N.nodeId <
        (N.tick (run N.step N.initial es).toReplica).vectorClock.get N.nodeId := by
  obtain ⟨h, -⟩ := Along.invariant (I := fun s => ClockInv s.toReplica ∧ s.reclaim.Distinct)
    (fun _ _ h he => ⟨h.1.step N h.2 he, step_distinct h.2⟩) ⟨ClockInv.initial N, initial_distinct⟩
    hok
  have hle := h.stored t r hr
  refine ⟨hle, ?_⟩
  rw [tick, Counters.get_increment, if_pos rfl]
  exact Nat.lt_succ_of_le (hle N.nodeId)

/-- On an intact log a cut is clean if what is before it does not end in a task. -/
theorem CleanCut.of_intact {s : NodeState} {cut : ℕ} (h : N.Intact s.toReplica)
    (hlast : ∀ r, (survivors R cut s.journal).getLast? ≠ some (.task r)) : N.CleanCut s cut := by
  intro W f hW ho
  obtain ⟨hfile, hfit⟩ := h W hW
  rw [hfile] at ho
  obtain ⟨-, hlen, hread⟩ := replay_cut hfit ho
  refine ⟨hread, ?_⟩
  rw [hlen]
  exact hlast

namespace Sample

/-- The node `c` alone, with a log. -/
noncomputable def loggingC : PeerNode runtime := { soloC with wal := some WriteAheadLog.Sample.log }

/-- The state after a submission. -/
noncomputable def submitted : NodeState :=
  loggingC.step loggingC.initial (.submit (str "t") [] 0)

/-- The record of the submission. -/
noncomputable def submission : TaskRecord :=
  loggingC.submitRecord (str "t") [] (Counters.zero.increment (str "c"))

theorem submitted_journal :
    submitted.journal = [.task submission, .clock (Counters.zero.increment (str "c"))] := by
  decide +kernel

theorem submitted_intact : loggingC.Intact submitted.toReplica :=
  (Intact.initial (N := loggingC)).step_local rfl

theorem submission_decodable : submission.Decodable := by
  decide

/-- Recovery takes the submission from the log. -/
theorem recovered_submission (f : Bytes) (journal : List LogEntry) :
    loggingC.recoverEntry (loggingC.opened f journal).toReplica (.task submission) =
      (loggingC.opened f journal).toReplica.store (str "t") submission :=
  loggingC.recoverEntry_new (p := (loggingC.opened f journal).toReplica)
    (loggingC.decodedTask_ok submission_decodable fun h => by cases h) rfl loggingC.maxTasks_pos

/-- A submission and a restart on the whole log. -/
def restartSteps : List Event := [.submit (str "t") [] 0, .restart 10000]

/-- Where the frame of the submission ends. -/
noncomputable def taskEnd : ℕ := 8 + ((LogEntry.task submission).entry.bytes runtime).length

end Sample

theorem clock_dominates_restart :
    ∃ r, (run Sample.loggingC.step Sample.loggingC.initial Sample.restartSteps).tasks.get (str "t") =
        some r ∧
      r.vectorClock ≤ (run Sample.loggingC.step Sample.loggingC.initial
        Sample.restartSteps).vectorClock := by
  have hjournal : survivors Sample.runtime 10000 Sample.submitted.journal =
      [.task Sample.submission, .clock (Counters.zero.increment (str "c"))] := by
    rw [Sample.submitted_journal]; decide +kernel
  have hclean : Sample.loggingC.CleanCut Sample.submitted 10000 := by
    refine CleanCut.of_intact _ Sample.submitted_intact fun x => ?_
    rw [hjournal]; simp
  have hok : Along Sample.loggingC.ClockOk Sample.loggingC.step Sample.loggingC.initial
      Sample.restartSteps := ⟨trivial, hclean, trivial⟩
  have hget : (run Sample.loggingC.step Sample.loggingC.initial Sample.restartSteps).tasks.get
      (str "t") = some Sample.submission := by
    obtain ⟨f, hf⟩ := Sample.loggingC.step_restart_replica rfl Sample.submitted_intact
      (show 8 ≤ 10000 by decide)
    rw [hjournal, List.foldl_cons, Sample.recovered_submission] at hf
    rw [Sample.restartSteps, run_cons, run_cons, run_nil, ← Sample.submitted, hf]
    exact Dict.get_set_self _ _ _
  exact ⟨_, hget, (Sample.loggingC.clock_dominates hok hget).1⟩

/-- A crash between the frame of a task and the frame of its clock: the recovered node holds the
    task and has forgotten the clock. -/
theorem clock_lost_restart :
    ¬ ∀ (R : Runtime) (N : PeerNode R) (es : List Event) (t : Str) (r : TaskRecord),
      R.ed25519.Lawful → N.wal.isSome = true → (run N.step N.initial es).tasks.get t = some r →
      r.vectorClock ≤ (run N.step N.initial es).vectorClock ∧
        r.vectorClock.get N.nodeId <
          (N.tick (run N.step N.initial es).toReplica).vectorClock.get N.nodeId := by
  intro h
  obtain ⟨f, hf⟩ := Sample.loggingC.step_restart_replica rfl Sample.submitted_intact
    (show 8 ≤ Sample.taskEnd from Nat.le_add_right 8 _)
  have hcut : survivors Sample.runtime Sample.taskEnd Sample.submitted.journal =
      [.task Sample.submission] := by
    rw [Sample.submitted_journal]; decide +kernel
  rw [hcut, List.foldl_cons, List.foldl_nil, Sample.recovered_submission] at hf
  have hbad := h Sample.runtime Sample.loggingC [.submit (str "t") [] 0, .restart Sample.taskEnd]
    (str "t") Sample.submission Ed25519.suffix_lawful rfl
  rw [run_cons, run_cons, run_nil, ← Sample.submitted, hf] at hbad
  have hle : Sample.submission.vectorClock ≤ Counters.zero :=
    (hbad (Dict.get_set_self _ _ _)).1
  exact absurd hle (by decide)

end PeerNode

end PeerQ
