/-
  Compaction of the log: `checkpoint` replaces the file by one with a single
  frame that holds all tasks and the clock.

  `replay_append`: a log that ends with a whole frame is read to its end, and so
  is what is appended to it.
-/
import PeerQ.Wal

namespace PeerQ

open Py

namespace WriteAheadLog

variable (R : Runtime) (W : WriteAheadLog)

/-- The payload of a checkpoint. -/
def checkpointPayload (tasks : Dict Str TaskRecord) (clock : VectorClock) : PyDict where
  fields := [(str "tasks", .obj (tasks.entries.map fun e => (e.1, e.2.toDict))),
    (str "vector_clock", .obj clock.toDict)]
  wf := by
    have hkeys : ((tasks.entries.map fun e => (e.1, e.2.toDict)).map Prod.fst).Nodup := by
      simpa [Function.comp_def] using tasks.nodup
    have htasks : (Json.obj (tasks.entries.map fun e => (e.1, e.2.toDict))).wf = true := by
      simp only [Json.wf, Bool.and_eq_true, decide_eq_true_eq, Json.wfFields_iff]
      refine ⟨hkeys, fun kv hkv => ?_⟩
      obtain ⟨e, -, rfl⟩ := List.mem_map.1 hkv
      exact e.2.wf_toDict
    have hnames : [str "tasks", str "vector_clock"].Nodup := by decide
    rw [Json.wf, Json.wfFields, Json.wfFields, Json.wfFields, htasks, TaskRecord.wf_clock]
    simpa using hnames

/-- The entry that a checkpoint writes. -/
def checkpointEntry (tasks : Dict Str TaskRecord) (clock : VectorClock) : WalEntry :=
  ⟨recordCheckpoint, checkpointPayload tasks clock⟩

/-- `checkpoint`: the file that takes the place of the log. -/
def checkpoint (tasks : Dict Str TaskRecord) (clock : VectorClock) : Except Exn Bytes :=
  let payload := checkpointPayload tasks clock
  match W.validate (.obj payload.fields) with
  | .error e =>
    .error (.walError (str "WAL checkpoint is not safely serializable: " ++ e.text))
  | .ok _ =>
    let payloadBytes := R.json.dumps (.obj payload.fields)
    -- an integer is too long: `ValueError` of `json.dumps`
    if !(Json.obj payload.fields).short then
      .error (.walError (str "WAL checkpoint is not safely serializable: "))
    else if W.maxRecordBytes < payloadBytes.length then
      .error (.walError (str "WAL checkpoint exceeds the configured size limit"))
    -- the length does not fit the header: `struct.error`
    else if 2 ^ 32 ≤ payloadBytes.length then .error .structError
    else .ok (walMagic ++ frame recordCheckpoint payloadBytes)

variable {R W}

theorem checkpoint_ok_iff {tasks : Dict Str TaskRecord} {clock : VectorClock} {f : Bytes} :
    W.checkpoint R tasks clock = .ok f ↔ (checkpointEntry tasks clock).Fits R W ∧
      f = walMagic ++ (checkpointEntry tasks clock).bytes R := by
  unfold checkpoint
  simp only
  cases hv : W.validate (.obj (checkpointPayload tasks clock).fields) with
  | error e =>
    simp only [reduceCtorEq, false_iff]
    rintro ⟨h, -⟩
    have hvalid : W.validate (.obj (checkpointPayload tasks clock).fields) = .ok () := h.valid
    rw [hvalid] at hv
    exact absurd hv (by simp)
  | ok u =>
    simp only
    split_ifs with h0 h1 h2
    · simp only [false_iff]
      exact fun h => absurd h.1.short (by simpa [checkpointEntry] using h0)
    · simp only [false_iff]
      exact fun h => absurd h.1.limit (not_le.2 h1)
    · simp only [false_iff]
      exact fun h => absurd h.1.word (not_lt.2 h2)
    · rw [Except.ok.injEq, eq_comm]
      exact ⟨fun h => ⟨⟨rfl, hv, by simpa [checkpointEntry] using h0, not_lt.1 h1, not_le.1 h2⟩, h⟩, fun h => h.2⟩

/-! ## Reading behind a log -/

section
variable {off : ℕ} {b tail : Bytes}

/-- A strict reading stops at the end only. -/
theorem readFrame_strict_stop (h : W.readFrame R true off b = .stop) : b = [] := by
  by_contra hb
  have h0 : ¬ (b.take frameHeaderLen).isEmpty = true := by
    cases b with
    | nil => exact absurd rfl hb
    | cons x b => simp
  unfold readFrame at h
  simp only [h0, if_true, if_false, Bool.false_eq_true] at h
  split_ifs at h
  split at h
  · cases h
  split at h
  · cases h
  split at h <;> cases h

/-- A frame is read whatever follows it. -/
theorem readFrame_append {strict strict' : Bool} {a : WalRecord} {n : ℕ}
    (h : W.readFrame R strict off b = .item a n) :
    W.readFrame R strict' off (b ++ tail) = .item a n := by
  obtain ⟨h9, -, hn, hle, -⟩ := readFrame_item h
  have hhdr : (b ++ tail).take frameHeaderLen = b.take frameHeaderLen :=
    List.take_append_of_le_length h9
  have hlen : ¬ (b.take frameHeaderLen).length < frameHeaderLen := by
    rw [List.length_take]; simp only [frameHeaderLen]; omega
  have htake : (b.take frameHeaderLen).take 4 = b.take 4 := (take_header b).1
  have hpay : ((b ++ tail).drop frameHeaderLen).take (beVal (b.take 4)) =
      (b.drop frameHeaderLen).take (beVal (b.take 4)) := by
    rw [List.drop_append_of_le_length h9, List.take_append_of_le_length]
    rw [List.length_drop]; omega
  have hfull : ¬ ((b.drop frameHeaderLen).take (beVal (b.take 4))).length < beVal (b.take 4) := by
    rw [List.length_take, List.length_drop]; simp only [frameHeaderLen]; omega
  rw [← h]
  unfold readFrame
  simp only [hhdr, hlen, htake, hpay, hfull, if_false]

end

/-- **Reading behind a log** that ends with a whole frame. -/
theorem replay_append {file : Bytes} {es : List WalEntry} (h : (W.replay R true file).2 = none)
    (hes : ∀ e ∈ es, e.Fits R W) :
    W.replay R false (file ++ es.flatMap (WalEntry.bytes R)) =
      ((W.replay R true file).1 ++ recordsAt R file.length es, none) := by
  unfold replay at h
  simp only at h
  split_ifs at h with h1 h2
  have h8 : walHeaderLen ≤ file.length := by
    rw [List.length_take] at h1; simp only [walHeaderLen] at h1 ⊢; omega
  have hread : read (W.readFrame R false) walHeaderLen
      (file.drop walHeaderLen ++ es.flatMap (WalEntry.bytes R)) = _ :=
    read_append readFrame_progress readFrame_progress (fun off b tail a n => readFrame_append)
      (fun off b => readFrame_strict_stop) _ _ _ h
  have hlen : walHeaderLen + (file.drop walHeaderLen).length = file.length := by
    rw [List.length_drop]; omega
  unfold replay
  simp only [List.take_append_of_le_length h8, List.drop_append_of_le_length h8]
  rw [if_neg h1, if_neg h2, if_neg h1, if_neg h2, hread, hlen, read_whole hes]

section
variable {tasks : Dict Str TaskRecord} {clock : VectorClock} {f : Bytes}

/-- A checkpoint and what is appended to it are read back. -/
theorem replay_checkpoint {es : List WalEntry} (hf : W.checkpoint R tasks clock = .ok f)
    (hes : ∀ e ∈ es, e.Fits R W) :
    W.replay R false (f ++ es.flatMap (WalEntry.bytes R)) =
      (⟨8, recordCheckpoint, (checkpointPayload tasks clock).canon⟩ :: recordsAt R f.length es,
        none) := by
  obtain ⟨hfit, rfl⟩ := checkpoint_ok_iff.1 hf
  have hread : W.replay R false
      (walMagic ++ (checkpointEntry tasks clock :: es).flatMap (WalEntry.bytes R)) = _ :=
    replay_whole (List.forall_mem_cons.2 ⟨hfit, hes⟩)
  have hlen : (walMagic ++ (checkpointEntry tasks clock).bytes R).length =
      8 + ((checkpointEntry tasks clock).bytes R).length := List.length_append
  rw [hlen, List.append_assoc]
  exact hread

theorem replay_checkpoint_only (hf : W.checkpoint R tasks clock = .ok f) (strict : Bool) :
    W.replay R strict f =
      ([⟨8, recordCheckpoint, (checkpointPayload tasks clock).canon⟩], none) := by
  obtain ⟨hfit, rfl⟩ := checkpoint_ok_iff.1 hf
  have hread : W.replay R strict
      (walMagic ++ [checkpointEntry tasks clock].flatMap (WalEntry.bytes R)) = _ :=
    replay_whole (by simpa using hfit)
  rw [List.flatMap_singleton] at hread
  exact hread

theorem openFile_checkpoint (hf : W.checkpoint R tasks clock = .ok f) :
    W.openFile (some f) = .ok f := by
  obtain ⟨-, rfl⟩ := checkpoint_ok_iff.1 hf
  rfl

end

end WriteAheadLog

end PeerQ
