/-
  The store: its size and its keys.

  A write is to a task that the store has, or it finds room (`Made.room`), and the
  record that is written has the id it is written under (`Made.keyed`).  Recovery
  keeps the limit too.  But it stores a task of a checkpoint under the key that the
  checkpoint has for it, whatever id the task has, so keys and ids agree in the runs
  whose checkpoints have every task under its own id (`store_invariant`).
-/
import PeerQ.Node.Compaction
import PeerQ.Node.Queueing

namespace PeerQ

open Py

namespace PeerNode

variable {R : Runtime} (N : PeerNode R)

/-- Every record is stored under its id. -/
def Keyed (p : Replica) : Prop := ∀ t r, p.tasks.get t = some r → r.taskId = t

/-- The worker and the reclaim loop are at tasks of the store. -/
structure Held (s : NodeState) : Prop where
  job : ∀ job, s.worker.job = some job → s.tasks.has job.taskId = true
  snapshot : ∀ e ∈ s.reclaim.snapshot, s.tasks.has e.1 = true
  distinct : s.reclaim.Distinct

section
variable {N} {s : NodeState} {e : Event} {p : Replica} {w : Write}

theorem Held.boot (file : Option Bytes) (journal : List LogEntry) : Held (N.boot file journal) where
  job job h := by rw [boot_job] at h; cases h
  snapshot e he := by rw [boot_snapshot] at he; cases he
  distinct := by
    unfold Reclaim.Distinct
    rw [boot_snapshot]
    exact List.nodup_nil

/-- Tasks are never removed, so they stay tasks of the store. -/
theorem Held.step (h : Held s) : Held (N.step s e) := by
  obtain ⟨cut, rfl⟩ | he := e.restart_or
  · have hb := Held.boot (N := N) (s.walFile.map (List.take cut)) s.journal
    exact ⟨hb.job, hb.snapshot, hb.distinct⟩
  have hkeep : ∀ t, s.tasks.has t = true → (N.step s e).tasks.has t = true :=
    fun t ht => (N.step_makes h.distinct he).has ht
  refine ⟨fun job hj => hkeep _ ?_, fun x hx => hkeep _ ?_, step_distinct h.distinct⟩
  · rcases step_job he hj with hj | ⟨-, hj, -⟩
    · exact h.job job hj
    · exact Dict.has_of_get hj.stored
  · obtain ⟨l, hl, hsuf, -⟩ := N.step_snapshot (s := s) he
    have hx := hsuf.subset hx
    rcases hl with rfl | rfl
    · exact h.snapshot x hx
    · exact Dict.has_of_get (Dict.mem_entries.1 hx)

/-! ## One write -/

/-- The steps that may bring a new task into the store. -/
def Event.brings : Event → Bool
  | .submit .. | .recv .. => true
  | _ => false

/-- Every other step writes to tasks of the store. -/
theorem Made.known (h : N.Made s e p w) (he : e.brings = false) (hs : Held s)
    (hp : ∀ t, s.tasks.has t = true → p.tasks.has t = true) : p.tasks.has w.taskId = true := by
  cases h with
  | submit _ _ _ => cases he
  | take _ _ _ _ => cases he
  | claim for_job _ => exact Dict.has_of_get for_job.stored
  | claimRun for_job _ => exact hp _ (Dict.has_of_get for_job.stored)
  | run claiming => exact hs.job _ (by rw [claiming]; rfl)
  | commit handling _ _ => exact hs.job _ (by rw [handling]; rfl)
  | sweep _ _ mem _ => exact hp _ (Dict.has_of_get (Dict.mem_entries.1 mem))
  | resume _ resetting _ mem _ => exact hp _ (hs.snapshot _ (by rw [resetting]; exact mem))

/-- A write finds its task in the store, or room for it. -/
theorem Made.room (h : N.Made s e p w) (hs : Held s)
    (hp : ∀ t, s.tasks.has t = true → p.tasks.has t = true) :
    p.tasks.has w.taskId = true ∨ p.tasks.size < N.maxTasks := by
  by_cases he : e.brings = true
  swap
  · exact Or.inl (h.known (by simpa using he) hs hp)
  cases h with
  | submit _ _ room => exact room
  | take _ _ _ merge =>
    rcases merge with ⟨-, hroom, -⟩ | ⟨old, hold, -⟩
    · exact Or.inr hroom
    · exact Or.inl (Dict.has_of_get hold)
  | _ => cases he

/-- A record is written under its id. -/
theorem Made.keyed (h : N.Made s e p w) (c : VectorClock) : (N.written c w).taskId = w.taskId := by
  cases h with
  | take _ _ accepted merge =>
    obtain ⟨-, hid, -⟩ := N.acceptedRecord_iff.1 accepted
    rcases merge with ⟨-, -, rfl⟩ | ⟨old, -, hm⟩
    · exact hid
    · obtain ⟨hsame, hm⟩ := mergeRecords_taskId hm
      exact hm.trans (hsame.trans hid)
  | _ => exact N.sealRecord_taskId _

/-! ## Steps -/

theorem step_size (hs : Held s) (he : ∀ cut, e ≠ .restart cut) (h : s.tasks.size ≤ N.maxTasks) :
    (N.step s e).tasks.size ≤ N.maxTasks := by
  refine ((N.step_makes hs.distinct he).invariant (I := fun p => p.tasks.size ≤ N.maxTasks ∧
    ∀ t, s.tasks.has t = true → p.tasks.has t = true) ?_ ⟨h, fun _ ht => ht⟩).1
  rintro p w ⟨hsize, hp⟩ hw
  refine ⟨?_, fun t ht => by rw [write_has, hp t ht]; rfl⟩
  rw [write_tasks, Dict.size_set]
  split_ifs with hh
  · exact hsize
  · exact (hw.room hs hp).resolve_left hh

/-- A step that brings no new task leaves the size of the store as it is. -/
theorem step_size_eq (hs : Held s) (hr : ∀ cut, e ≠ .restart cut) (he : e.brings = false) :
    (N.step s e).tasks.size = s.tasks.size := by
  refine ((N.step_makes hs.distinct hr).invariant (I := fun p => p.tasks.size = s.tasks.size ∧
    ∀ t, s.tasks.has t = true → p.tasks.has t = true) ?_ ⟨rfl, fun _ ht => ht⟩).1
  rintro p w ⟨hsize, hp⟩ hw
  refine ⟨?_, fun t ht => by rw [write_has, hp t ht]; rfl⟩
  rw [write_tasks, Dict.size_set, if_pos (hw.known he hs hp), hsize]

theorem step_keyed (hs : Held s) (he : ∀ cut, e ≠ .restart cut) (h : Keyed s.toReplica) :
    Keyed (N.step s e).toReplica := by
  refine (N.step_makes hs.distinct he).invariant (fun p w hp hw t r hr => ?_) h
  rw [write_get] at hr
  split_ifs at hr with ht
  · rw [← Option.some.inj hr, hw.keyed]
    exact ht
  · exact hp t r hr

/-! ## Recovery -/

theorem boot_size (file : Option Bytes) (journal : List LogEntry) :
    (N.boot file journal).tasks.size ≤ N.maxTasks := by
  obtain ⟨-, hb⟩ | ⟨W, -, ⟨-, hb⟩ | ⟨f, -, hb⟩⟩ := N.boot_replica file journal <;> rw [hb]
  · exact Nat.zero_le _
  · exact Nat.zero_le _
  · exact recoverRecords_size (Nat.zero_le _)

theorem recoverTask_keyed {t : Str} {r : TaskRecord} (h : Keyed p) (hr : r.taskId = t) :
    Keyed (N.recoverTask p t r) := by
  have hstore : ∀ m : TaskRecord, m.taskId = t → Keyed (p.store t m) := by
    intro m hm k x hx
    simp only [Replica.store, Dict.get_set] at hx
    split_ifs at hx with hk
    · rw [← Option.some.inj hx, hm, hk]
    · exact h k x hx
  unfold recoverTask
  split
  · exact hstore r hr
  · split
    · exact h
    · next hm =>
      obtain ⟨hsame, hm⟩ := mergeRecords_taskId hm
      exact hstore _ (hm.trans (hsame.trans hr))

end

/-- The checkpoints of a log have every task that recovery takes under its id. -/
def KeyedLog (file : Option Bytes) : Prop :=
  ∀ W f, N.wal = some W → W.openFile file = .ok f → ∀ rec ∈ (W.replay R false f).1,
    rec.recordType = recordCheckpoint → ∀ t v r, (t, v) ∈ rec.snapshot →
      N.decodedTask v = .ok (some r) → r.taskId = t

theorem boot_keyed {file : Option Bytes} (h : N.KeyedLog file) (journal : List LogEntry) :
    Keyed (N.boot file journal).toReplica := by
  have hfresh : ∀ p : Replica, p.tasks = .empty → Keyed p := by
    intro p hp t r hr
    rw [hp, Dict.get_empty] at hr
    cases hr
  obtain ⟨-, hb⟩ | ⟨W, hW, ⟨-, hb⟩ | ⟨f, ho, hb⟩⟩ := N.boot_replica file journal <;> rw [hb]
  · exact hfresh _ rfl
  · exact hfresh _ rfl
  · refine recoverRecords_invariant (I := Keyed) (fun _ _ hp => hp) ?_ (hfresh _ rfl)
    rintro p t v r ⟨rec, hrec, ⟨-, -, rfl⟩ | ⟨hty, hv⟩⟩ hd - hp
    · exact recoverTask_keyed hp rfl
    · exact recoverTask_keyed hp (h W f hW ho rec hrec hty t v r hv hd)

/-- A restart finds a log whose checkpoints have every task under its id. -/
def RestartsKeyed (s : NodeState) (e : Event) : Prop :=
  ∀ cut, e = .restart cut → N.KeyedLog (s.walFile.map (List.take cut))

/-! ## Runs -/

theorem size_run (file : Option Bytes) (es : List Event) :
    (run N.step (N.boot file []) es).tasks.size ≤ N.maxTasks := by
  refine (Along.invariant (P := fun _ _ => True)
    (I := fun s => Held s ∧ s.tasks.size ≤ N.maxTasks) ?_ ⟨.boot file [], boot_size file []⟩
    (Along.of_forall fun _ _ => trivial)).2
  rintro s e ⟨hs, h⟩ -
  refine ⟨hs.step, ?_⟩
  obtain ⟨cut, rfl⟩ | he := e.restart_or
  · exact boot_size _ _
  · exact step_size hs he h

/-- **The store and the queue**: in every run, on any log, the store and a bounded queue keep their
    limits; where the checkpoints that are recovered have every task under its id, every key of the
    store maps to a record with that id. -/
theorem store_invariant (file : Option Bytes) (es : List Event) :
    (run N.step (N.boot file []) es).tasks.size ≤ N.maxTasks ∧
    (0 < N.maxQueueSize →
      ((run N.step (N.boot file []) es).queue.items.length : ℤ) ≤ N.maxQueueSize) ∧
    (N.KeyedLog file → Along N.RestartsKeyed N.step (N.boot file []) es →
      ∀ t r, (run N.step (N.boot file []) es).tasks.get t = some r → r.taskId = t) := by
  refine ⟨N.size_run file es, fun hpos => ?_, fun hfile hes => ?_⟩
  · obtain ⟨hb, hm⟩ := queue_bounded (N := N) file [] es
    rw [← hm] at hpos ⊢
    exact hb hpos
  · refine (hes.invariant (I := fun s => Held s ∧ Keyed s.toReplica) ?_
      ⟨.boot file [], N.boot_keyed hfile []⟩).2
    rintro s e ⟨hs, h⟩ hok
    refine ⟨hs.step, ?_⟩
    obtain ⟨cut, rfl⟩ | he := e.restart_or
    · exact N.boot_keyed (hok cut rfl) _
    · exact step_keyed hs he h

section
variable {N} {W : WriteAheadLog} {T : Dict Str TaskRecord} {c : VectorClock} {f : Bytes}

theorem recovered_walFile (W : WriteAheadLog) (f : Bytes) (journal : List LogEntry) :
    (N.recovered W f journal).walFile = some f := by
  refine recoverRecords_invariant (I := fun p => p.walFile = some f) (fun _ _ hp => hp) ?_ rfl
  intro p t v r _ _ _ hp
  unfold recoverTask
  repeat' split
  all_goals exact hp

/-- A node on a log that can be opened is up, whatever recovery comes to. -/
theorem boot_recovered {file : Option Bytes} (hW : N.wal = some W) (hf : W.openFile file = .ok f)
    (journal : List LogEntry) : (N.boot file journal).up = true ∧
      (N.boot file journal).toReplica = N.recovered W f journal := by
  obtain ⟨hw, -⟩ | ⟨W', hW', hboot⟩ := N.boot_cases file journal
  · cases hW.symm.trans hw
  obtain rfl : W = W' := Option.some.inj (hW.symm.trans hW')
  obtain ⟨⟨e, he⟩, -⟩ | ⟨g, s, ho, rfl, hb | hb⟩ := hboot
  · cases hf.symm.trans he
  · obtain rfl : f = g := Except.ok.inj (hf.symm.trans ho)
    rw [hb]
    exact ⟨rfl, rfl⟩
  · obtain rfl : f = g := Except.ok.inj (hf.symm.trans ho)
    obtain ⟨q, ids, h⟩ := requeuePending_eq { N.opened f
      (journal.take (W.replay R false f).1.length) with toReplica := N.recovered W f journal }
    rw [hb, h]
    exact ⟨rfl, rfl⟩

/-- A node that starts on a checkpoint goes on behind it, with its clock and the records of it that
    recovery takes. -/
theorem boot_checkpoint (hW : N.wal = some W) (hf : W.checkpoint R T c = .ok f)
    (hsize : T.size ≤ N.maxTasks) (journal : List LogEntry) :
    (N.boot (some f) journal).up = true ∧ (N.boot (some f) journal).walFile = some f ∧
      (N.boot (some f) journal).vectorClock = c ∧
      ∀ t r, T.get t = some r → N.ReadBack r ((N.boot (some f) journal).tasks.get t) := by
  obtain ⟨hup, hboot⟩ := boot_recovered hW (WriteAheadLog.openFile_checkpoint hf) journal
  have hreplay := WriteAheadLog.replay_checkpoint_only hf false
  obtain ⟨q, hq, hc, -, hback⟩ := recoverRecord_checkpoint (N := N) (T := T) (c := c)
    (p := (N.opened f (journal.take (W.replay R false f).1.length)).toReplica) 8 hsize rfl rfl
  have hrecovered : N.recovered W f journal = q := by
    rw [hreplay] at hq
    rw [recovered, hreplay, recoverRecords, hq]
    rfl
  rw [hboot, recovered_walFile, hrecovered]
  exact ⟨hup, rfl, hc, hback⟩

end

namespace Sample

/-- The node `c` with a log. -/
noncomputable def durableC : PeerNode runtime := { nodeC with wal := some WriteAheadLog.Sample.log }

/-- A store with the task of `a` under the key `key`. -/
noncomputable def keyedBy (key : Str) : Dict Str TaskRecord := Dict.empty.set key pendingA

theorem keyedBy_boot {key : Str} {c : VectorClock} {f : Bytes}
    (hf : WriteAheadLog.Sample.log.checkpoint runtime (keyedBy key) c = .ok f)
    (journal : List LogEntry) : (durableC.boot (some f) journal).up = true ∧
      (durableC.boot (some f) journal).walFile = some f ∧
      (durableC.boot (some f) journal).vectorClock = c ∧
      (durableC.boot (some f) journal).tasks.get key = some pendingA := by
  have hsize : (keyedBy key).size ≤ durableC.maxTasks := by
    rw [keyedBy, Dict.size_set]
    exact (show (1 : ℕ) ≤ durableC.maxTasks by decide)
  obtain ⟨hup, hfile, hclock, hback⟩ := boot_checkpoint (N := durableC) rfl hf hsize journal
  refine ⟨hup, hfile, hclock, ?_⟩
  rcases hback key pendingA (Dict.get_set_self _ _ _) with ⟨-, hx⟩ | ⟨hnot, -⟩
  · exact hx
  · exact absurd (readable_iff.2 (by decide +kernel)) hnot

theorem keyedBy_restart {key : Str} {c : VectorClock} {f : Bytes}
    (hf : WriteAheadLog.Sample.log.checkpoint runtime (keyedBy key) c = .ok f) :
    (durableC.boot (some f) []).walFile.map (List.take f.length) = some f ∧ ∃ journal sent,
      durableC.step (durableC.boot (some f) []) (.restart f.length) =
        { durableC.boot (some f) journal with sent := sent } := by
  have hfile : (durableC.boot (some f) []).walFile.map (List.take f.length) = some f := by
    rw [(keyedBy_boot hf []).2.1, Option.map_some, List.take_length]
  refine ⟨hfile, (durableC.boot (some f) []).journal, (durableC.boot (some f) []).sent, ?_⟩
  rw [step, hfile]

/-- A log with the task of `a`, under its id. -/
theorem pendingA_checkpoint : ∃ f, WriteAheadLog.Sample.log.checkpoint runtime
    (keyedBy (str "t")) pendingA.vectorClock = .ok f := exists_ok (by decide +kernel)

theorem pendingA_keyedLog {f : Bytes} (hf : WriteAheadLog.Sample.log.checkpoint runtime
    (keyedBy (str "t")) pendingA.vectorClock = .ok f) : durableC.KeyedLog (some f) := by
  have hopen := WriteAheadLog.openFile_checkpoint hf
  have hreplay := WriteAheadLog.replay_checkpoint_only hf false
  intro W g hW ho rec hrec _ t v r hv hr
  obtain rfl : WriteAheadLog.Sample.log = W := Option.some.inj hW
  obtain rfl : f = g := Except.ok.inj (hopen.symm.trans ho)
  rw [hreplay] at hrec
  obtain rfl := List.mem_singleton.1 hrec
  have hids : ∀ e ∈ (WalRecord.mk 8 recordCheckpoint (WriteAheadLog.checkpointPayload
      (keyedBy (str "t")) pendingA.vectorClock).canon).snapshot,
      ((durableC.decodedTask e.2).toOption.join.map TaskRecord.taskId).all (· = e.1) = true := by
    decide +kernel
  have hid := hids (t, v) hv
  rw [hr] at hid
  simpa [Except.toOption] using hid

end Sample

/-- A node that recovers a task, is restarted and takes another one. -/
theorem store_invariant_restarted : ∃ f,
    WriteAheadLog.Sample.log.checkpoint Sample.runtime (Sample.keyedBy (str "t"))
      Sample.pendingA.vectorClock = .ok f ∧
    (run Sample.durableC.step (Sample.durableC.boot (some f) [])
      [.restart f.length, .submit (str "u") [] 0]).tasks.get (str "t") = some Sample.pendingA ∧
    ∀ t r, (run Sample.durableC.step (Sample.durableC.boot (some f) [])
      [.restart f.length, .submit (str "u") [] 0]).tasks.get t = some r → r.taskId = t := by
  obtain ⟨f, hf⟩ := Sample.pendingA_checkpoint
  obtain ⟨hfile, journal, sent, hrestart⟩ := Sample.keyedBy_restart hf
  have hlog := Sample.pendingA_keyedLog hf
  have hes : Along Sample.durableC.RestartsKeyed Sample.durableC.step
      (Sample.durableC.boot (some f) []) [.restart f.length, .submit (str "u") [] 0] := by
    refine ⟨?_, nofun, trivial⟩
    rintro _ ⟨rfl⟩
    rw [hfile]
    exact hlog
  refine ⟨f, hf, ?_, (Sample.durableC.store_invariant (some f) _).2.2 hlog hes⟩
  have hheld : Held (Sample.durableC.step (Sample.durableC.boot (some f) []) (.restart f.length)) :=
    (Held.boot (some f) []).step
  refine (Sample.durableC.step_makes (e := .submit (str "u") [] 0) hheld.distinct nofun).invariant
    (I := fun p => p.tasks.get (str "t") = some Sample.pendingA) ?_ ?_
  · intro p w hp hw
    cases hw
    rw [write_get, if_neg (by decide)]
    exact hp
  · rw [hrestart]
    exact (Sample.keyedBy_boot hf journal).2.2.2

/-- Recovery of a checkpoint that has a task under another key stores it there. -/
theorem store_invariant_misplaced :
    ¬ ∀ (R : Runtime) (N : PeerNode R) (file : Option Bytes) (es : List Event),
      (∀ W f, N.wal = some W → W.openFile file = .ok f → (W.replay R false f).2 = none) →
      (run N.step (N.boot file []) es).tasks.size ≤ N.maxTasks ∧
      (0 < N.maxQueueSize →
        ((run N.step (N.boot file []) es).queue.items.length : ℤ) ≤ N.maxQueueSize) ∧
      ∀ t r, (run N.step (N.boot file []) es).tasks.get t = some r → r.taskId = t := by
  intro h
  obtain ⟨f, hf⟩ := exists_ok (x := WriteAheadLog.Sample.log.checkpoint Sample.runtime
    (Sample.keyedBy (str "x")) .zero) (by decide +kernel)
  have hopen := WriteAheadLog.openFile_checkpoint hf
  have hreplay := WriteAheadLog.replay_checkpoint_only hf false
  refine absurd ((h Sample.runtime Sample.durableC (some f) [] ?_).2.2 _ _
    (Sample.keyedBy_boot hf []).2.2.2) (by decide)
  intro W g hW ho
  obtain rfl : WriteAheadLog.Sample.log = W := Option.some.inj hW
  obtain rfl : f = g := Except.ok.inj (hopen.symm.trans ho)
  rw [hreplay]

end PeerNode

end PeerQ
