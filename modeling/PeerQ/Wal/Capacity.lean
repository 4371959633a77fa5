/-
  What fits a frame of the log: a record, and a checkpoint of a whole store.

  The store is bounded by a number of tasks, the frame by entries and octets.  A
  record with an empty clock has fifteen entries in a checkpoint, its own key
  included, so 667 of the smallest ones are too many (`checkpoint_too_large`);
  `compacts_iff` says which stores fit.
-/
import PeerQ.Consensus.Sizes
import PeerQ.Wal.Atomic

namespace PeerQ

open Py

/-- The size of a record in the log, in ASCII. -/
def TaskRecord.logSize (R : Runtime) (r : TaskRecord) : ℕ :=
  r.size (fun q => (R.json.floatRepr q).length) fun s => (Json.escape s).length

namespace WriteAheadLog

variable {R : Runtime} {W : WriteAheadLog} {r : TaskRecord}

/-! ## Records -/

theorem length_dumps_toDict (r : TaskRecord) : (R.json.dumps r.toDict).length = r.logSize R :=
  TaskRecord.textLength_toDict fun _ => Json.length_escape_simple

/-- **What the log takes** of the records within their limits. -/
theorem append_task_iff (ha : r.Accepted) (hW : W.maxRecordBytes = maxFrameSize) (file : Bytes) :
    (∃ x, W.append R file recordTask r.pyDict = .ok x) ↔
      (∀ s ∈ r.strings, s.valid = true) ∧ (∀ n ∈ r.integers, Json.shortInt n = true) ∧
        r.logSize R ≤ maxFrameSize := by
  have happend : (∃ x, W.append R file recordTask r.pyDict = .ok x) ↔
      (⟨recordTask, r.pyDict⟩ : WalEntry).Fits R W := by
    constructor
    · rintro ⟨⟨o, f⟩, h⟩
      exact (append_ok_iff (e := ⟨recordTask, r.pyDict⟩).1 h).1
    · exact fun h => ⟨_, append_ok_iff.2 ⟨h, rfl, rfl⟩⟩
  have htext : ((⟨recordTask, r.pyDict⟩ : WalEntry).text R).length = r.logSize R :=
    length_dumps_toDict r
  have hvalid : W.validate (.obj r.fields) = .ok () ↔ ∀ s ∈ r.strings, s.valid = true := by
    have hitems := TaskRecord.items_toDict r
    have hclock := ha.clock.1
    rw [validate, validateJsonTree_ok_iff, hW, ← TaskRecord.plain_toDict, ← TaskRecord.toDict,
      TaskRecord.bounded_toDict ha (by decide)]
    exact and_iff_left (by omega)
  rw [happend, ← hvalid, ← TaskRecord.short_toDict]
  constructor
  · exact fun h => ⟨h.valid, h.short, by rw [← htext, ← hW]; exact h.limit⟩
  · rintro ⟨hv, hs, hl⟩
    exact ⟨rfl, hv, hs, by rw [htext, hW]; exact hl,
      by rw [htext]; exact lt_of_le_of_lt hl (by decide)⟩

/-! ## Checkpoints -/

variable {tasks : Dict Str TaskRecord} {clock : VectorClock}

/-- The entries of a checkpoint: its two fields, the tasks, fourteen fields and the clock of each,
    and the node's clock. -/
def checkpointItems (tasks : Dict Str TaskRecord) (clock : VectorClock) : ℕ :=
  2 + tasks.size + (tasks.entries.map fun e => 14 + e.2.vectorClock.entries.length).sum +
    clock.entries.length

/-- The octets of a checkpoint; 28 are names, quotes, colons, commas and braces. -/
def checkpointSize (R : Runtime) (tasks : Dict Str TaskRecord) (clock : VectorClock) : ℕ :=
  28 + (tasks.entries.map fun e => (Json.escape e.1).length + 3 + e.2.logSize R).sum +
    (tasks.size - 1) + TaskRecord.clockSize (fun s => (Json.escape s).length) clock

/-- The strings of a checkpoint that are free text. -/
def checkpointStrings (tasks : Dict Str TaskRecord) (clock : VectorClock) : List Str :=
  (tasks.entries.flatMap fun e => e.1 :: e.2.strings) ++ clock.keys

/-- The integers of a checkpoint. -/
def checkpointIntegers (tasks : Dict Str TaskRecord) (clock : VectorClock) : List ℤ :=
  (tasks.entries.flatMap fun e => e.2.integers) ++ TaskRecord.counters clock

theorem items_checkpoint : (Json.obj (checkpointPayload tasks clock).fields).items =
    checkpointItems tasks clock := by
  have htasks : ((tasks.entries.map fun e => (e.1, e.2.toDict)).map fun kv => kv.2.items) =
      tasks.entries.map fun e => 14 + e.2.vectorClock.entries.length := by
    rw [List.map_map]
    exact List.map_congr_left fun e _ => TaskRecord.items_toDict e.2
  simp only [checkpointPayload, Json.items, Json.itemsFields_eq, List.map_cons, List.map_nil,
    List.sum_cons, List.sum_nil, List.length_cons, List.length_nil, htasks, List.length_map]
  have hclock := TaskRecord.items_clock clock
  rw [Json.items, Json.itemsFields_eq] at hclock
  simp only [checkpointItems, Dict.size]
  omega

theorem length_dumps_checkpoint :
    (R.json.dumps (.obj (checkpointPayload tasks clock).fields)).length =
      checkpointSize R tasks clock := by
  show Json.textLength (Json.floatText R.json.floatRepr) Json.escape _ = _
  have hfields : (tasks.entries.map fun e => (e.1, e.2.toDict)).map
      (Json.fieldLength (Json.floatText R.json.floatRepr) Json.escape) =
      tasks.entries.map fun e => (Json.escape e.1).length + 3 + e.2.logSize R := by
    rw [List.map_map]
    refine List.map_congr_left fun e _ => ?_
    rw [Function.comp_apply, Json.fieldLength, ← length_dumps_toDict]
    rfl
  have h1 : (Json.escape (str "tasks")).length = 5 := by decide
  have h2 : (Json.escape (str "vector_clock")).length = 12 := by decide
  have hclock : Json.textLength (Json.floatText R.json.floatRepr) Json.escape (.obj clock.toDict) =
      TaskRecord.clockSize (fun s => (Json.escape s).length) clock :=
    TaskRecord.textLength_clock clock
  rw [Json.textLength_obj]
  simp only [checkpointPayload, List.map_cons, List.map_nil, List.sum_cons, List.sum_nil,
    List.length_cons, List.length_nil, Json.fieldLength, h1, h2, hclock]
  rw [Json.textLength_obj, hfields, List.length_map]
  simp only [checkpointSize, Dict.size]
  omega

/-- A checkpoint can be written if its strings have no surrogates. -/
theorem plain_checkpoint : (Json.obj (checkpointPayload tasks clock).fields).plain = true ↔
    ∀ s ∈ checkpointStrings tasks clock, s.valid = true := by
  have h1 : (str "tasks").valid = true := by decide
  have h2 : (str "vector_clock").valid = true := by decide
  have htasks : (Json.obj (tasks.entries.map fun e => (e.1, e.2.toDict))).plain = true ↔
      ∀ s ∈ tasks.entries.flatMap fun e => e.1 :: e.2.strings, s.valid = true := by
    rw [Json.plain, Json.plainFields_iff, List.forall_mem_map, List.forall_mem_flatMap]
    refine forall₂_congr fun e _ => ?_
    rw [TaskRecord.plain_toDict, List.forall_mem_cons]
  rw [checkpointStrings, List.forall_mem_append, ← htasks, ← TaskRecord.plain_clock]
  simp only [checkpointPayload, Json.plain, Json.plainFields, h1, h2, Bool.true_and, Bool.and_true,
    Bool.and_eq_true]

/-- The integers of a checkpoint are those of its records and of the clock. -/
theorem short_checkpoint : (Json.obj (checkpointPayload tasks clock).fields).short = true ↔
    ∀ n ∈ checkpointIntegers tasks clock, Json.shortInt n = true := by
  have htasks : (Json.obj (tasks.entries.map fun e => (e.1, e.2.toDict))).short = true ↔
      ∀ n ∈ tasks.entries.flatMap fun e => e.2.integers, Json.shortInt n = true := by
    rw [Json.short, Json.shortFields_iff, List.forall_mem_map, List.forall_mem_flatMap]
    exact forall₂_congr fun e _ => TaskRecord.short_toDict
  rw [checkpointIntegers, List.forall_mem_append, ← htasks, ← TaskRecord.short_clock]
  simp only [checkpointPayload, Json.short, Json.shortFields, Bool.and_true, Bool.and_eq_true]

/-- A checkpoint of records within their limits is within those of a frame, if it is short
    enough. -/
theorem bounded_checkpoint (ha : ∀ e ∈ tasks.entries, e.2.Accepted)
    (hsize : checkpointSize R tasks clock ≤ maxFrameSize) :
    Json.bounded 16 maxFrameSize 0 (.obj (checkpointPayload tasks clock).fields) =
      (Json.obj (checkpointPayload tasks clock).fields).plain := by
  have hstr : ∀ {s : Str} {d : ℕ}, d ≤ 16 → (Json.escape s).length ≤ maxFrameSize →
      Json.bounded 16 maxFrameSize d (.str s) = s.valid :=
    fun hd hs => Json.bounded_str_eq hd ((Json.length_utf8_le_escape _).trans hs)
  have h1 : (Json.escape (str "tasks")).length ≤ maxFrameSize := by decide
  have h2 : (Json.escape (str "vector_clock")).length ≤ maxFrameSize := by decide
  have hkey : ∀ e ∈ tasks.entries, (Json.escape e.1).length ≤ maxFrameSize := by
    intro e he
    have hle := List.single_le_sum (fun _ _ => Nat.zero_le _) _ (List.mem_map_of_mem
      (f := fun e : Str × TaskRecord => (Json.escape e.1).length + 3 + e.2.logSize R) he)
    rw [checkpointSize] at hsize
    omega
  have hpeer : ∀ e ∈ clock.entries, (Json.escape e.1).length ≤ maxFrameSize := by
    intro e he
    have hle := List.single_le_sum (fun _ _ => Nat.zero_le _) _ (List.mem_map_of_mem
      (f := fun e : Str × ℕ => (Json.escape e.1).length + 3 + (Json.intText e.2).length) he)
    rw [checkpointSize, TaskRecord.clockSize] at hsize
    omega
  refine Json.bounded_obj_eq (Nat.zero_le _) fun kv hkv => ?_
  simp only [checkpointPayload, List.mem_cons, List.not_mem_nil, or_false] at hkv
  rcases hkv with rfl | rfl
  · refine ⟨hstr (by decide) h1, Json.bounded_obj_eq (by decide) fun kv hkv => ?_⟩
    obtain ⟨e, he, rfl⟩ := List.mem_map.1 hkv
    exact ⟨hstr (by decide) (hkey e he), TaskRecord.bounded_toDict (ha e he) (by decide)⟩
  · refine ⟨hstr (by decide) h2, Json.bounded_obj_eq (by decide) fun kv hkv => ?_⟩
    obtain ⟨e, he, rfl⟩ := List.mem_map.1 hkv
    exact ⟨hstr (by decide) (hpeer e he), by simp [Json.bounded, Json.plain]⟩

/-- `checkpoint` on an open log returns, and leaves it open with the checkpoint in it. -/
def Compacts (R : Runtime) (W : WriteAheadLog) (s : OpenLog) (tasks : Dict Str TaskRecord)
    (clock : VectorClock) : Prop :=
  (W.checkpointOps R tasks clock).2 = none ∧
    (run W.perform s (W.checkpointOps R tasks clock).1).opened = true ∧
    ∃ f, (run W.perform s (W.checkpointOps R tasks clock).1).disk W.path = some f ∧
      W.replay R true f =
        ([⟨8, recordCheckpoint, (checkpointPayload tasks clock).canon⟩], none)

theorem compacts_iff_fits {s : OpenLog} :
    W.Compacts R s tasks clock ↔ (checkpointEntry tasks clock).Fits R W := by
  constructor
  · rintro ⟨hnone, -⟩
    rcases checkpointOps_cases R W tasks clock with ⟨msg, -, hops⟩ | ⟨-, hops⟩ | ⟨f, hc, -⟩
    · rw [hops] at hnone; cases hnone
    · rw [hops] at hnone; cases hnone
    · exact (checkpoint_ok_iff.1 hc).1
  · intro hfit
    have hc : W.checkpoint R tasks clock = .ok _ := checkpoint_ok_iff.2 ⟨hfit, rfl⟩
    obtain ⟨hdisk, hopen⟩ := checkpoint_performed hc s
    exact ⟨by rw [checkpointOps_ok hc], hopen, _, hdisk, replay_checkpoint_only hc true⟩

/-- **Which stores can be compacted**: those whose strings have no surrogates and whose integers have
    at most 4300 digits, with at most ten thousand entries and a frame of octets altogether. -/
theorem compacts_iff (hW : W.maxRecordBytes = maxFrameSize)
    (hread : ∀ e ∈ tasks.entries, ∃ v, TaskRecord.fromDict v = .ok e.2) (s : OpenLog) :
    W.Compacts R s tasks clock ↔ (∀ t ∈ checkpointStrings tasks clock, t.valid = true) ∧
      (∀ n ∈ checkpointIntegers tasks clock, Json.shortInt n = true) ∧
      checkpointItems tasks clock ≤ 10000 ∧ checkpointSize R tasks clock ≤ maxFrameSize := by
  have ha : ∀ e ∈ tasks.entries, e.2.Accepted := by
    intro e he
    obtain ⟨v, hv⟩ := hread e he
    exact TaskRecord.fromDict_accepted hv
  have htext : ((checkpointEntry tasks clock).text R).length = checkpointSize R tasks clock :=
    length_dumps_checkpoint
  have hvalid : checkpointSize R tasks clock ≤ maxFrameSize →
      (W.validate (.obj (checkpointPayload tasks clock).fields) = .ok () ↔
        (∀ t ∈ checkpointStrings tasks clock, t.valid = true) ∧
          checkpointItems tasks clock ≤ 10000) := by
    intro hsize
    rw [validate, validateJsonTree_ok_iff, hW, bounded_checkpoint ha hsize, plain_checkpoint,
      items_checkpoint]
  rw [compacts_iff_fits]
  constructor
  · intro h
    have hsize : checkpointSize R tasks clock ≤ maxFrameSize := by
      rw [← htext, ← hW]
      exact h.limit
    obtain ⟨hstrings, hitems⟩ := (hvalid hsize).1 h.valid
    exact ⟨hstrings, short_checkpoint.1 h.short, hitems, hsize⟩
  · rintro ⟨hstrings, hshort, hitems, hsize⟩
    exact ⟨rfl, (hvalid hsize).2 ⟨hstrings, hitems⟩, short_checkpoint.2 hshort, by rw [htext, hW]; exact hsize,
      by rw [htext]; exact lt_of_le_of_lt hsize (by decide)⟩

namespace Sample

theorem smallest_read (c : CodePoint) :
    TaskRecord.fromDict (smallest [c]).toDict = .ok (smallest [c]) := by
  have h : (smallest (str "t")).Decodable := by decide
  have hid : [c] ≠ [] ∧ [c].length ≤ maxTaskIdLength :=
    ⟨List.cons_ne_nil _ _, Nat.succ_le_succ (Nat.zero_le 127)⟩
  exact (TaskRecord.fromDict_toDict_iff _).2 ⟨{ h with taskId := hid }, rfl⟩

theorem crowd_read {n : ℕ} (h : n ≤ 0x110000) :
    ∀ e ∈ (crowd n h).entries, ∃ v, TaskRecord.fromDict v = .ok e.2 := by
  intro e he
  obtain ⟨i, -, rfl⟩ := List.mem_map.1 he
  exact ⟨_, smallest_read _⟩

theorem items_crowd {n : ℕ} (h : n ≤ 0x110000) :
    checkpointItems (crowd n h) .zero = 2 + 15 * n := by
  have hsum : ((crowd n h).entries.map fun e => 14 + e.2.vectorClock.entries.length).sum =
      14 * n := by
    rw [crowd, List.map_map]
    have hconst : ((fun e : Str × TaskRecord => 14 + e.2.vectorClock.entries.length) ∘
        fun i => ([Fin.ofNat 0x110000 i], smallest [Fin.ofNat 0x110000 i])) = fun _ => 14 := rfl
    rw [hconst, List.map_const', List.sum_replicate, List.length_range, smul_eq_mul, mul_comm]
  have hlen : (crowd n h).size = n := by
    rw [Dict.size, crowd, List.length_map, List.length_range]
  have hzero : (Counters.zero : VectorClock).entries.length = 0 := rfl
  rw [checkpointItems, hsum, hlen]
  omega

end Sample

theorem compacts_crowd : Sample.log.Compacts Sample.runtime (Sample.openLog Sample.log.path)
    (Sample.crowd 3 (by decide)) .zero := by
  refine (compacts_iff rfl (Sample.crowd_read _) _).2 ⟨?_, ?_, ?_, ?_⟩
  · decide
  · decide
  · decide
  · decide

/-- A store of 667 of the smallest tasks has too many entries for a checkpoint. -/
theorem checkpoint_too_large :
    ¬ ∀ (R : Runtime) (W : WriteAheadLog) (s : OpenLog) (tasks : Dict Str TaskRecord)
      (clock : VectorClock), W.maxRecordBytes = maxFrameSize → s.opened = true →
      tasks.size ≤ 10000 → (∀ e ∈ tasks.entries, ∃ v, TaskRecord.fromDict v = .ok e.2) →
      clock.entries.length ≤ 128 → W.Compacts R s tasks clock := by
  intro h
  have hsize : (Sample.crowd 667 (by decide)).size = 667 := by
    rw [Dict.size, Sample.crowd, List.length_map, List.length_range]
  have hfit := compacts_iff_fits.1 (h Sample.runtime Sample.log (Sample.openLog Sample.log.path)
    (Sample.crowd 667 (by decide)) .zero rfl rfl (by omega) (Sample.crowd_read _) (Nat.zero_le _))
  have hvalid : validateJsonTree 16 10000 Sample.log.maxRecordBytes
      (.obj (checkpointPayload (Sample.crowd 667 (by decide)) .zero).fields) = .ok () := hfit.valid
  have hitems := ((validateJsonTree_ok_iff _).1 hvalid).2
  rw [items_checkpoint, Sample.items_crowd] at hitems
  omega

end WriteAheadLog

end PeerQ
