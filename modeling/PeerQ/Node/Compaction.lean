/-
  Compaction and recovery.

  Recovery reads only what is stored under each id, so from states with equal
  stores and clocks (`SameState`) it leads to such states.  A checkpoint is read
  back record by record: what recovery would not take from the log is lost with
  it, and nothing else (`recoverRecord_checkpoint`).
-/
import PeerQ.Node.Durability
import PeerQ.Wal.Checkpoint

namespace PeerQ

open Py

namespace PeerNode

variable {R : Runtime} (N : PeerNode R)

/-- Equal stores, as maps, and equal clocks. -/
structure SameState (p q : Replica) : Prop where
  tasks : ∀ t, p.tasks.get t = q.tasks.get t
  clock : p.vectorClock = q.vectorClock

/-- Recovery of a node on the file of its log. -/
def recoverFile (W : WriteAheadLog) (file : Bytes) : NodeState × Option Exn :=
  N.recover (N.opened file []) (W.replay R false file)

/-- Two recoveries end alike. -/
def SameRecovery (x y : NodeState × Option Exn) : Prop :=
  SameState x.1.toReplica y.1.toReplica ∧ x.2 = y.2

section
variable {N} {p q : Replica}

theorem SameState.has (h : SameState p q) (t : Str) : p.tasks.has t = q.tasks.has t := by
  rw [Dict.has, Dict.has, h.tasks]

theorem SameState.store (h : SameState p q) (t : Str) (r : TaskRecord) :
    SameState (p.store t r) (q.store t r) := by
  refine ⟨fun u => ?_, h.clock⟩
  simp only [Replica.store, Dict.get_set, h.tasks u]

theorem SameState.recoverTask (h : SameState p q) (t : Str) (r : TaskRecord) :
    SameState (N.recoverTask p t r) (N.recoverTask q t r) := by
  unfold PeerNode.recoverTask
  rw [h.tasks t]
  cases q.tasks.get t with
  | none => exact h.store t r
  | some old =>
    simp only
    cases mergeRecords R old r N.mergeKeyring with
    | error e => exact h
    | ok m => exact h.store t m

theorem SameState.recoverSnapshot : ∀ {l : Fields} {p q : Replica}, SameState p q →
    SameState (N.recoverSnapshot p l).1 (N.recoverSnapshot q l).1 ∧
      (N.recoverSnapshot p l).2 = (N.recoverSnapshot q l).2
  | [], _, _, h => ⟨h, rfl⟩
  | (t, v) :: l, p, q, h => by
    unfold PeerNode.recoverSnapshot
    rw [h.has t, Dict.size_congr h.tasks]
    split_ifs
    · exact SameState.recoverSnapshot h
    · cases N.decodedTask v with
      | error e => exact ⟨h, rfl⟩
      | ok o =>
        cases o with
        | none => exact SameState.recoverSnapshot h
        | some r => exact SameState.recoverSnapshot (h.recoverTask t r)

theorem SameState.recoverClock (h : SameState p q) (c : Except Exn VectorClock) :
    SameState (recoverClock p c).1 (recoverClock q c).1 ∧
      (PeerNode.recoverClock p c).2 = (PeerNode.recoverClock q c).2 := by
  unfold PeerNode.recoverClock
  cases c with
  | ok c => exact ⟨⟨h.tasks, by simp only [h.clock]⟩, rfl⟩
  | error e =>
    simp only
    split_ifs <;> exact ⟨h, rfl⟩

/-- A record of the log leads from equal states to equal states. -/
theorem SameState.recoverRecord (h : SameState p q) (rec : WalRecord) :
    SameState (N.recoverRecord p rec).1 (N.recoverRecord q rec).1 ∧
      (N.recoverRecord p rec).2 = (N.recoverRecord q rec).2 := by
  unfold PeerNode.recoverRecord
  split_ifs
  · cases N.decodedTask (.obj rec.payload) with
    | error e => exact ⟨h, rfl⟩
    | ok o =>
      cases o with
      | none => exact ⟨h, rfl⟩
      | some r =>
        simp only
        rw [h.has, Dict.size_congr h.tasks]
        split_ifs
        · exact ⟨h, rfl⟩
        · exact ⟨h.recoverTask _ r, rfl⟩
  · exact h.recoverClock _
  · cases (lookup (str "tasks") rec.payload).getD (.obj []) with
    | obj rawTasks =>
      obtain ⟨hs, he⟩ := SameState.recoverSnapshot (N := N) (l := rawTasks) h
      simp only
      rcases hp : N.recoverSnapshot p rawTasks with ⟨p', e⟩
      rcases hq : N.recoverSnapshot q rawTasks with ⟨q', e'⟩
      rw [hp, hq] at hs he
      obtain rfl : e = e' := he
      cases e with
      | some e => exact ⟨hs, rfl⟩
      | none => exact SameState.recoverClock hs _
    | _ => exact ⟨h, rfl⟩
  · exact ⟨h, rfl⟩

theorem SameState.recoverRecords : ∀ (recs : List WalRecord) {p q : Replica}, SameState p q →
    SameState (N.recoverRecords p recs).1 (N.recoverRecords q recs).1 ∧
      (N.recoverRecords p recs).2 = (N.recoverRecords q recs).2
  | [], _, _, h => ⟨h, rfl⟩
  | rec :: recs, p, q, h => by
    obtain ⟨hs, he⟩ := h.recoverRecord (N := N) rec
    unfold PeerNode.recoverRecords
    rcases hp : N.recoverRecord p rec with ⟨p', e⟩
    rcases hq : N.recoverRecord q rec with ⟨q', e'⟩
    rw [hp, hq] at hs he
    obtain rfl : e = e' := he
    cases e with
    | some e => exact ⟨hs, rfl⟩
    | none => exact SameState.recoverRecords recs hs

/-- Recovery reads the records one after the other. -/
theorem recoverRecords_append : ∀ {recs recs' : List WalRecord} {p : Replica},
    (N.recoverRecords p recs).2 = none →
    N.recoverRecords p (recs ++ recs') = N.recoverRecords (N.recoverRecords p recs).1 recs'
  | [], _, _, _ => rfl
  | rec :: recs, recs', p, h => by
    rcases hp : N.recoverRecord p rec with ⟨p', _ | e⟩ <;>
      simp only [List.cons_append, PeerNode.recoverRecords, hp] at h ⊢
    · exact recoverRecords_append h
    · exact absurd h (by simp)

/-! ## Room -/

theorem recoverTask_size {t : Str} {r : TaskRecord}
    (h : p.tasks.size ≤ N.maxTasks) (hroom : p.tasks.has t = true ∨ p.tasks.size < N.maxTasks) :
    (N.recoverTask p t r).tasks.size ≤ N.maxTasks := by
  have hstore : ∀ m, (p.store t m).tasks.size ≤ N.maxTasks := by
    intro m
    simp only [Replica.store, Dict.size_set]
    split_ifs with hh
    · exact h
    · exact hroom.resolve_left hh
  unfold PeerNode.recoverTask
  split
  · exact hstore _
  · split
    · exact h
    · exact hstore _

/-- The store that recovery builds is never too large. -/
theorem recoverRecords_size {recs : List WalRecord} (h : p.tasks.size ≤ N.maxTasks) :
    (N.recoverRecords p recs).1.tasks.size ≤ N.maxTasks :=
  recoverRecords_invariant (I := fun p => p.tasks.size ≤ N.maxTasks) (fun _ _ h => h)
    (fun _ _ _ _ _ _ hroom h => recoverTask_size h hroom) h

/-! ## Reading a checkpoint back -/

theorem readable_iff {r : TaskRecord} : N.Readable r ↔ N.decodedTask r.toDict = .ok (some r) := by
  refine ⟨Readable.decodedTask, fun h => ?_⟩
  rcases N.decodedTask_toDict r with hn | ⟨-, hd, ha⟩
  · rw [hn] at h
    exact absurd h (by simp)
  · exact ⟨hd, ha⟩

theorem decodedTask_canon (r : TaskRecord) : N.decodedTask r.toDict.canon = N.decodedTask r.toDict := by
  unfold PeerNode.decodedTask
  rw [TaskRecord.fromDict_canon r.wf_toDict]

/-- What recovery makes of a stored record that a checkpoint holds. -/
def ReadBack (N : PeerNode R) (r : TaskRecord) (o : Option TaskRecord) : Prop :=
  N.Readable r ∧ o = some r ∨ ¬ N.Readable r ∧ o = none

/-- The loop over the tasks of a checkpoint takes those that recovery would take from the log. -/
theorem recoverSnapshot_readBack {T : Dict Str TaskRecord} : ∀ {l : Fields} {p : Replica},
    (l.map Prod.fst).Nodup → (∀ e ∈ l, ∃ r, T.get e.1 = some r ∧ e.2 = r.toDict.canon) →
    (∀ e ∈ l, p.tasks.get e.1 = none) → p.tasks.size + l.length ≤ N.maxTasks →
    ∃ q, N.recoverSnapshot p l = (q, none) ∧ q.vectorClock = p.vectorClock ∧
      (∀ t, t ∉ l.map Prod.fst → q.tasks.get t = p.tasks.get t) ∧
      ∀ t ∈ l.map Prod.fst, ∀ r, T.get t = some r → N.ReadBack r (q.tasks.get t)
  | [], p, _, _, _, _ => ⟨p, rfl, rfl, fun _ _ => rfl, by simp⟩
  | (k, v) :: l, p, hnd, hT, hp, hsize => by
    obtain ⟨r, hr, rfl⟩ := hT _ List.mem_cons_self
    obtain ⟨hk, hnd⟩ := List.nodup_cons.1 hnd
    have hpk : p.tasks.get k = none := hp _ List.mem_cons_self
    simp only [List.length_cons] at hsize
    have hT' : ∀ e ∈ l, ∃ r, T.get e.1 = some r ∧ e.2 = r.toDict.canon :=
      fun e he => hT e (List.mem_cons_of_mem _ he)
    have hguard : ¬ (decide (N.maxTasks ≤ p.tasks.size) && !p.tasks.has k) = true := by
      simp only [Bool.and_eq_true, decide_eq_true_eq, not_and]
      omega
    unfold PeerNode.recoverSnapshot
    rw [if_neg hguard, decodedTask_canon]
    rcases N.decodedTask_toDict r with hd | ⟨hd, hdec, ha⟩
    · -- the record is skipped
      have hnot : ¬ N.Readable r := fun h => by
        rw [h.decodedTask] at hd
        exact absurd hd (by simp)
      obtain ⟨q, hq, hc, hout, hin⟩ := recoverSnapshot_readBack hnd hT'
        (fun e he => hp e (List.mem_cons_of_mem _ he)) (by omega)
      refine ⟨q, by rw [hd]; exact hq, hc, fun t ht => hout t fun h => ht (List.mem_cons_of_mem _ h),
        fun t ht r' hr' => ?_⟩
      rcases List.mem_cons.1 ht with rfl | ht
      · obtain rfl : r = r' := Option.some.inj (hr.symm.trans hr')
        exact Or.inr ⟨hnot, (hout _ hk).trans hpk⟩
      · exact hin t ht r' hr'
    · -- the record is stored
      have hstore : N.recoverTask p k r = p.store k r := by simp only [PeerNode.recoverTask, hpk]
      have hps : ∀ e ∈ l, (p.store k r).tasks.get e.1 = none := by
        intro e he
        have hne : k ≠ e.1 := fun h => hk (h ▸ List.mem_map.2 ⟨e, he, rfl⟩)
        simp only [Replica.store, Dict.get_set_ne _ _ hne]
        exact hp e (List.mem_cons_of_mem _ he)
      have hsz : (p.store k r).tasks.size = p.tasks.size + 1 := by
        simp [Replica.store, Dict.size_set, Dict.has, hpk]
      obtain ⟨q, hq, hc, hout, hin⟩ := recoverSnapshot_readBack hnd hT' hps (by omega)
      refine ⟨q, by simp only [hd, hstore, hq], hc, fun t ht => ?_, fun t ht r' hr' => ?_⟩
      · rw [hout t fun h => ht (List.mem_cons_of_mem _ h)]
        exact Dict.get_set_ne _ _ fun h => ht (h ▸ List.mem_cons_self)
      · rcases List.mem_cons.1 ht with rfl | ht
        · obtain rfl : r = r' := Option.some.inj (hr.symm.trans hr')
          refine Or.inl ⟨⟨hdec, ha⟩, (hout _ hk).trans ?_⟩
          exact Dict.get_set_self _ _ _
        · exact hin t ht r' hr'

/-- **A checkpoint is read back** up to the records that recovery does not take. -/
theorem recoverRecord_checkpoint {T : Dict Str TaskRecord} {c : VectorClock} (off : ℕ)
    (hsize : T.size ≤ N.maxTasks) (hp : p.tasks = .empty) (hc : p.vectorClock = .zero) :
    ∃ q, N.recoverRecord p ⟨off, recordCheckpoint,
        (WriteAheadLog.checkpointPayload T c).canon⟩ = (q, none) ∧ q.vectorClock = c ∧
      (∀ t, T.get t = none → q.tasks.get t = none) ∧
      ∀ t r, T.get t = some r → N.ReadBack r (q.tasks.get t) := by
  have hnames : ((WriteAheadLog.checkpointPayload T c).fields.map Prod.fst).Nodup := by
    show [str "tasks", str "vector_clock"].Nodup
    decide
  have htasks : lookup (str "tasks") (WriteAheadLog.checkpointPayload T c).canon =
      some (.obj (Json.sortKeys (Json.canonFields (T.entries.map fun e => (e.1, e.2.toDict))))) := by
    rw [PyDict.canon, Json.lookup_canon hnames]
    rfl
  have hclock : lookup (str "vector_clock") (WriteAheadLog.checkpointPayload T c).canon =
      some (.obj c.pyDict.canon) := by
    rw [PyDict.canon, Json.lookup_canon hnames]
    rfl
  set l := Json.sortKeys (Json.canonFields (T.entries.map fun e => (e.1, e.2.toDict))) with hl
  have hperm : l.Perm (T.entries.map fun e => (e.1, e.2.toDict.canon)) := by
    rw [hl, Json.canonFields_eq, List.map_map]
    exact Json.sortKeys_perm _
  have hkeys : (l.map Prod.fst).Perm T.keys := by
    refine (hperm.map Prod.fst).trans ?_
    rw [List.map_map]
    exact .refl _
  obtain ⟨q, hq, hqc, hout, hin⟩ := recoverSnapshot_readBack (N := N) (T := T) (l := l) (p := p)
    (hkeys.nodup_iff.2 T.nodup) (fun e he => by
      obtain ⟨x, hx, rfl⟩ := List.mem_map.1 (hperm.mem_iff.1 he)
      exact ⟨x.2, Dict.mem_entries.1 hx, rfl⟩) (fun e _ => by rw [hp]; rfl)
    (by rw [hp, hperm.length_eq, List.length_map]; simpa [Dict.size, Dict.empty] using hsize)
  refine ⟨{ q with vectorClock := c }, ?_, rfl, fun t ht => ?_, fun t r hr => ?_⟩
  · unfold PeerNode.recoverRecord
    have hne : recordCheckpoint ≠ recordTask ∧ recordCheckpoint ≠ recordClock := by decide
    have hzero : Counters.merge .zero c = c := sup_eq_right.2 (bot_le : (⊥ : VectorClock) ≤ c)
    rw [if_neg hne.1, if_neg hne.2, if_pos rfl]
    simp only [htasks, hclock, Option.getD_some, hq, clockOfJson, LogClock.ofDict_vectorClock,
      LogClock.merge_vectorClock, clockOfDict_canon, PeerNode.recoverClock, hqc, hc, hzero]
  · rw [hout t fun h => ?_, hp]
    · rfl
    · exact Dict.get_eq_none.1 ht (hkeys.mem_iff.1 h)
  · refine hin t (hkeys.mem_iff.2 ?_) r hr
    exact List.mem_map.2 ⟨_, Dict.mem_entries.2 hr, rfl⟩

/-! ## Recovery from a file -/

/-- Recovery is that of the records; an error in reading the log comes last. -/
theorem recover_eq {C : Type} [LogClock C] (s : NodeState C)
    (replayed : List WalRecord × Option Exn) :
    (N.recover s replayed).1.toReplica = (N.recoverRecords s.toReplica replayed.1).1 ∧
    (N.recover s replayed).2 = (N.recoverRecords s.toReplica replayed.1).2.or replayed.2 := by
  unfold recover
  rcases N.recoverRecords s.toReplica replayed.1 with ⟨p, _ | e⟩ <;> rcases replayed.2 with _ | e'
  · exact ⟨requeuePending_replica _, rfl⟩
  all_goals exact ⟨rfl, rfl⟩

/-- Recovery from a file is recovery of the records it holds. -/
theorem recoverFile_eq (W : WriteAheadLog) (file : Bytes) :
    (N.recoverFile W file).1.toReplica =
      (N.recoverRecords (N.opened file []).toReplica (W.replay R false file).1).1 ∧
    (N.recoverFile W file).2 = (N.recoverRecords (N.opened file []).toReplica
      (W.replay R false file).1).2.or (W.replay R false file).2 :=
  recover_eq _ _

theorem recoverFile_of_replay {W : WriteAheadLog} {file : Bytes} {recs : List WalRecord}
    (h : W.replay R false file = (recs, none)) : (N.recoverFile W file).1.toReplica =
      (N.recoverRecords (N.opened file []).toReplica recs).1 ∧
    (N.recoverFile W file).2 = (N.recoverRecords (N.opened file []).toReplica recs).2 := by
  obtain ⟨h1, h2⟩ := recoverFile_eq (N := N) W file
  rw [h] at h1 h2
  exact ⟨h1, h2.trans Option.or_none⟩

/-- Appended entries are recovered as they were appended. -/
theorem recoverRecords_recordsAt (off : ℕ) (es : List LogEntry) (p : Replica) :
    N.recoverRecords p (WriteAheadLog.recordsAt R off (es.map LogEntry.entry)) =
      (es.foldl N.recoverEntry p, none) := by
  refine N.recoverRecords_entries ?_
  rw [WriteAheadLog.content_recordsAt, List.map_map]
  rfl

theorem SameState.recoverEntries (h : SameState p q) (es : List LogEntry) :
    SameState (es.foldl N.recoverEntry p) (es.foldl N.recoverEntry q) := by
  have hs := (SameState.recoverRecords (N := N)
    (WriteAheadLog.recordsAt R 0 (es.map LogEntry.entry)) h).1
  rwa [recoverRecords_recordsAt, recoverRecords_recordsAt] at hs

end

section
variable {N} {W : WriteAheadLog} {file f g : Bytes} {s : NodeState} {es : List LogEntry}

/-- What recovery makes of entries behind a log. -/
theorem recoverFile_append (hrec : N.recoverFile W file = (s, none))
    (htail : es = [] ∨ (W.replay R true file).2 = none)
    (hg : W.appendAll R file (es.map LogEntry.entry) = .ok g) :
    SameState (N.recoverFile W g).1.toReplica (es.foldl N.recoverEntry s.toReplica) ∧
      (N.recoverFile W g).2 = none := by
  obtain ⟨hfit, rfl⟩ := WriteAheadLog.appendAll_ok_iff.1 hg
  obtain ⟨h1, h2⟩ := recoverFile_eq (N := N) W file
  rw [hrec] at h1 h2
  obtain ⟨hnone, herr⟩ := Option.or_eq_none_iff.1 h2.symm
  have hreplay : W.replay R false (file ++ (es.map LogEntry.entry).flatMap (WalEntry.bytes R)) =
      ((W.replay R false file).1 ++
        WriteAheadLog.recordsAt R file.length (es.map LogEntry.entry), none) := by
    rcases htail with rfl | hstrict
    · simp only [List.map_nil, List.flatMap_nil, List.append_nil]
      exact Prod.ext (List.append_nil _).symm herr
    · have hfits : ∀ e ∈ ([] : List WalEntry), e.Fits R W := by simp
      have hwhole : W.replay R false (file ++ []) = ((W.replay R true file).1 ++ [], none) :=
        WriteAheadLog.replay_append hstrict hfits
      rw [List.append_nil, List.append_nil] at hwhole
      rw [WriteAheadLog.replay_append hstrict hfit, hwhole]
  obtain ⟨h3, h4⟩ := recoverFile_of_replay (N := N) hreplay
  -- the name of the open file does not matter
  have hopen : SameState (N.opened (file ++ (es.map LogEntry.entry).flatMap
      (WalEntry.bytes R)) []).toReplica (N.opened file []).toReplica := ⟨fun _ => rfl, rfl⟩
  obtain ⟨h5, h6⟩ := SameState.recoverRecords (N := N) (W.replay R false file).1 hopen
  rw [recoverRecords_append (h6.trans hnone), recoverRecords_recordsAt] at h3 h4
  rw [← h1] at h5
  rw [h3]
  exact ⟨h5.recoverEntries es, h4⟩

/-- What recovery makes of a log without checkpoints. -/
theorem recoverFile_logFile (hfit : ∀ e ∈ es, e.entry.Fits R W) :
    (N.recoverFile W (logFile R es)).1.toReplica =
      es.foldl N.recoverEntry (N.opened (logFile R es) []).toReplica ∧
    (N.recoverFile W (logFile R es)).2 = none := by
  have hreplay : W.replay R false (logFile R es) = _ :=
    WriteAheadLog.replay_whole (by simpa using hfit)
  obtain ⟨h1, h2⟩ := recoverFile_of_replay (N := N) hreplay
  rw [recoverRecords_recordsAt] at h1 h2
  exact ⟨h1, h2⟩

/-- What recovery makes of entries behind a checkpoint. -/
theorem recoverFile_checkpoint (hsize : s.tasks.size ≤ N.maxTasks)
    (hf : W.checkpoint R s.tasks s.vectorClock = .ok f)
    (hg : W.appendAll R f (es.map LogEntry.entry) = .ok g) :
    ∃ q : Replica, q.vectorClock = s.vectorClock ∧
      (∀ t, s.tasks.get t = none → q.tasks.get t = none) ∧
      (∀ t r, s.tasks.get t = some r → N.ReadBack r (q.tasks.get t)) ∧
      (N.recoverFile W g).1.toReplica = es.foldl N.recoverEntry q ∧ (N.recoverFile W g).2 = none := by
  obtain ⟨hfits, rfl⟩ := WriteAheadLog.appendAll_ok_iff.1 hg
  obtain ⟨h1, h2⟩ := recoverFile_of_replay (N := N) (WriteAheadLog.replay_checkpoint hf hfits)
  obtain ⟨q, hq, hc, hnone, hsome⟩ := recoverRecord_checkpoint (N := N) (T := s.tasks)
    (c := s.vectorClock) (p := (N.opened _ []).toReplica) 8 hsize rfl rfl
  rw [PeerNode.recoverRecords, hq] at h1 h2
  simp only [recoverRecords_recordsAt] at h1 h2
  exact ⟨q, hc, hnone, hsome, h1, h2⟩

end

/-- **When compaction preserves recovery.**  If a checkpoint of what was recovered from a log
    succeeds, recovery from the new file ends as from the old one, with whatever entries behind them,
    exactly if recovery takes every record of the checkpoint: it is decodable and, on a secure node,
    authorised.  (Entries are only put behind an old log that ends with a whole frame.) -/
theorem compaction_iff {W : WriteAheadLog} {file f : Bytes} {s : NodeState}
    (hrec : N.recoverFile W file = (s, none))
    (hf : W.checkpoint R s.tasks s.vectorClock = .ok f) :
    (∀ (es : List LogEntry) (g g' : Bytes), es = [] ∨ (W.replay R true file).2 = none →
      W.appendAll R file (es.map LogEntry.entry) = .ok g →
      W.appendAll R f (es.map LogEntry.entry) = .ok g' →
      SameRecovery (N.recoverFile W g') (N.recoverFile W g)) ↔
    ∀ t r, s.tasks.get t = some r → N.Readable r := by
  have hsize : s.tasks.size ≤ N.maxTasks := by
    have h := (recoverFile_eq (N := N) W file).1
    rw [hrec] at h
    rw [h]
    exact recoverRecords_size (Nat.zero_le _)
  constructor
  · intro h t r hr
    by_contra hnot
    obtain ⟨hsame, -⟩ := h [] file f (Or.inl rfl) rfl rfl
    have hnil : W.appendAll R f (([] : List LogEntry).map LogEntry.entry) = .ok f := rfl
    obtain ⟨q, -, -, hback, hq, -⟩ := recoverFile_checkpoint hsize hf hnil
    have ht := hsame.tasks t
    rw [hrec, hq, hr] at ht
    rcases hback t r hr with ⟨hread, -⟩ | ⟨-, hnone⟩
    · exact hnot hread
    · rw [List.foldl_nil, hnone] at ht
      exact absurd ht (by simp)
  · intro hread es g g' htail hg hg'
    obtain ⟨hold, hnone⟩ := recoverFile_append hrec htail hg
    obtain ⟨q, hc, hout, hback, hq, hnone'⟩ := recoverFile_checkpoint hsize hf hg'
    have hsq : SameState q s.toReplica := by
      refine ⟨fun t => ?_, hc⟩
      cases hr : s.tasks.get t with
      | none => exact hout t hr
      | some r => exact (hback t r hr).elim (fun h => h.2) fun h => absurd (hread t r hr) h.1
    refine ⟨?_, hnone'.trans hnone.symm⟩
    rw [hq]
    have hsuf := hsq.recoverEntries (N := N) es
    exact ⟨fun t => (hsuf.tasks t).trans (hold.tasks t).symm, hsuf.clock.trans hold.clock.symm⟩

namespace Sample

/-- The log of a task that `a` submitted. -/
noncomputable def submittedLog : List LogEntry := [.task pendingA]

/-- What is appended when `b` has completed it. -/
noncomputable def completion : List LogEntry := [.task doneB, .clock doneB.vectorClock]

/-- The log of a task that `a` submitted and `b` completed without having seen the submission. -/
noncomputable def mergedLog : List LogEntry := [.task pendingA, .task doneB]

/-- What recovery makes of the file of a log. -/
noncomputable def regained (es : List LogEntry) : Replica :=
  es.foldl nodeC.recoverEntry (nodeC.opened (logFile runtime es) []).toReplica

theorem log_fits (es : List LogEntry) (h : (WriteAheadLog.Sample.log.appendAll runtime walMagic
    (es.map LogEntry.entry)).toOption.isSome = true) :
    ∀ e ∈ es, e.entry.Fits runtime WriteAheadLog.Sample.log := by
  obtain ⟨f, hf⟩ := exists_ok h
  simpa using (WriteAheadLog.appendAll_ok_iff.1 hf).1

theorem recoverFile_regained (es : List LogEntry)
    (hfit : ∀ e ∈ es, e.entry.Fits runtime WriteAheadLog.Sample.log) : ∃ s : NodeState,
    nodeC.recoverFile WriteAheadLog.Sample.log (logFile runtime es) = (s, none) ∧
      s.toReplica = regained es := by
  obtain ⟨h1, h2⟩ := recoverFile_logFile (N := nodeC) hfit
  exact ⟨_, Prod.ext rfl h2, h1⟩

end Sample

theorem compaction_extended : ∃ s f g g',
    Sample.nodeC.recoverFile WriteAheadLog.Sample.log
      (logFile Sample.runtime Sample.submittedLog) = (s, none) ∧
    WriteAheadLog.Sample.log.checkpoint Sample.runtime s.tasks s.vectorClock = .ok f ∧
    WriteAheadLog.Sample.log.appendAll Sample.runtime (logFile Sample.runtime Sample.submittedLog)
      (Sample.completion.map LogEntry.entry) = .ok g ∧
    WriteAheadLog.Sample.log.appendAll Sample.runtime f (Sample.completion.map LogEntry.entry) =
      .ok g' ∧
    SameRecovery (Sample.nodeC.recoverFile WriteAheadLog.Sample.log g')
      (Sample.nodeC.recoverFile WriteAheadLog.Sample.log g) := by
  have hfit := Sample.log_fits Sample.submittedLog (by decide +kernel)
  obtain ⟨s, hs, hrep⟩ := Sample.recoverFile_regained Sample.submittedLog hfit
  have hcp : (WriteAheadLog.Sample.log.checkpoint Sample.runtime
      (Sample.regained Sample.submittedLog).tasks
      (Sample.regained Sample.submittedLog).vectorClock).toOption.isSome = true := by decide +kernel
  have htasks : (Sample.regained Sample.submittedLog).tasks.entries = [(str "t", Sample.pendingA)] := by
    decide +kernel
  rw [← hrep] at hcp htasks
  obtain ⟨f, hf⟩ := exists_ok hcp
  -- the old log ends with a whole frame, so both files can be extended
  have hwhole : (WriteAheadLog.Sample.log.replay Sample.runtime true
      (logFile Sample.runtime Sample.submittedLog)).2 = none :=
    congrArg Prod.snd (WriteAheadLog.replay_whole (by simpa using hfit))
  have happend : ∀ file, WriteAheadLog.Sample.log.appendAll Sample.runtime file
      (Sample.completion.map LogEntry.entry) = .ok _ := fun file =>
    WriteAheadLog.appendAll_ok_iff.2
      ⟨by simpa using Sample.log_fits Sample.completion (by decide +kernel), rfl⟩
  refine ⟨s, f, _, _, hs, hf, happend _, happend _, (Sample.nodeC.compaction_iff hs hf).2
    (fun t r hr => ?_) Sample.completion _ _ (Or.inr hwhole) (happend _) (happend _)⟩
  rw [← Dict.mem_entries, htasks, List.mem_singleton] at hr
  rw [(Prod.mk.inj hr).2]
  exact readable_iff.2 (by decide +kernel)

/-- A checkpoint of two merged concurrent updates is not read back: the merged record is not
    authorised any more. -/
theorem compaction_loses :
    ¬ ∀ (R : Runtime) (N : PeerNode R) (W : WriteAheadLog) (file f : Bytes) (s : NodeState),
      R.ed25519.Lawful → N.recoverFile W file = (s, none) →
      W.checkpoint R s.tasks s.vectorClock = .ok f →
      ∀ (es : List LogEntry) (g g' : Bytes), W.appendAll R file (es.map LogEntry.entry) = .ok g →
        W.appendAll R f (es.map LogEntry.entry) = .ok g' →
        SameRecovery (N.recoverFile W g') (N.recoverFile W g) := by
  intro h
  obtain ⟨s, hs, hrep⟩ := Sample.recoverFile_regained Sample.mergedLog
    (Sample.log_fits _ (by decide +kernel))
  have hcp : (WriteAheadLog.Sample.log.checkpoint Sample.runtime
      (Sample.regained Sample.mergedLog).tasks
      (Sample.regained Sample.mergedLog).vectorClock).toOption.isSome = true := by decide +kernel
  have hsize : (Sample.regained Sample.mergedLog).tasks.size ≤ Sample.nodeC.maxTasks := by
    decide +kernel
  have hbad : ((Sample.regained Sample.mergedLog).tasks.get (str "t")).map (fun r =>
      verifyTaskAuthorization Sample.runtime r Sample.nodeC.keyring) = some false := by decide +kernel
  rw [← hrep] at hcp hsize hbad
  obtain ⟨f, hf⟩ := exists_ok hcp
  obtain ⟨r, hr, hv⟩ := Option.map_eq_some_iff.1 hbad
  have hsame := (h _ _ _ _ _ _ Ed25519.suffix_lawful hs hf [] _ _ rfl rfl).1.tasks (str "t")
  have hnil : WriteAheadLog.Sample.log.appendAll Sample.runtime f
    (([] : List LogEntry).map LogEntry.entry) = .ok f := rfl
  obtain ⟨q, -, -, hback, hq, -⟩ := recoverFile_checkpoint hsize hf hnil
  rw [hs, hq, hr] at hsame
  rcases hback _ r hr with ⟨hread, -⟩ | ⟨-, hnone⟩
  · have hauth := hread.authorised rfl
    rw [hv] at hauth
    exact absurd hauth (by simp)
  · rw [List.foldl_nil, hnone] at hsame
    exact absurd hsame (by simp)

end PeerNode

end PeerQ
