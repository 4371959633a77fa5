/-
  `checkpoint` as a sequence of file operations that a crash may cut short.

  The new log is written to a file with the suffix `.tmp` and then renamed.  All
  operations before the renaming are on that file, so a crash leaves the old log or
  the checkpoint, unless the log has the suffix `.tmp` itself: then the first
  operation empties the log (`checkpoint_overwrites`), which goes unnoticed only if
  there was no record in it (`checkpoint_atomic_iff`).
-/
import PeerQ.Wal.Checkpoint
import PeerQ.Wal.Integrity
import PeerQ.Lib.Files

namespace PeerQ

open Py

/-- The files, and whether the log object has its own open. -/
structure OpenLog where
  disk : Disk
  opened : Bool

/-- An operation of `checkpoint`: `close`, one on a file, or `_open`. -/
inductive LogOp where
  | close
  | file (op : FileOp)
  | reopen

namespace WriteAheadLog

variable (R : Runtime) (W : WriteAheadLog)

/-- Perform one operation. -/
def perform (s : OpenLog) : LogOp → OpenLog
  | .close => { s with opened := false }
  | .file op => { s with disk := op.apply s.disk }
  | .reopen =>
    match W.openFile (s.disk W.path) with
    | .ok f => ⟨Function.update s.disk W.path (some f), true⟩
    | .error _ => { s with opened := true }

/-- `append` on an open log. -/
def appendTo (s : OpenLog) (e : WalEntry) : Except Exn (ℕ × OpenLog) :=
  if !s.opened then .error (.walError (str "WAL file is closed"))
  else match W.append R ((s.disk W.path).getD []) e.recordType e.payload with
    | .error err => .error err
    | .ok (off, f) => .ok (off, { s with disk := Function.update s.disk W.path (some f) })

/-- The header of a frame. -/
def frameHeader (recordType : ℕ) (payload : Bytes) : Bytes :=
  be32 payload.length ++ be32 (crc32 (Fin.ofNat _ recordType :: payload)) ++ [Fin.ofNat _ recordType]

/-- The temporary file of a checkpoint. -/
def tmpPath : Str := withSuffix W.path (str ".tmp")

/-- The operations of `checkpoint`, and the exception it raises after them, if any. -/
def checkpointOps (tasks : Dict Str TaskRecord) (clock : VectorClock) : List LogOp × Option Exn :=
  let payload := checkpointPayload tasks clock
  match W.validate (.obj payload.fields) with
  | .error e =>
    ([], some (.walError (str "WAL checkpoint is not safely serializable: " ++ e.text)))
  | .ok _ =>
    let payloadBytes := R.json.dumps (.obj payload.fields)
    -- an integer is too long: `ValueError` of `json.dumps`
    if !(Json.obj payload.fields).short then
      ([], some (.walError (str "WAL checkpoint is not safely serializable: ")))
    else if W.maxRecordBytes < payloadBytes.length then
      ([], some (.walError (str "WAL checkpoint exceeds the configured size limit")))
    -- the header cannot be packed: `struct.error`, with the log closed
    else if 2 ^ 32 ≤ payloadBytes.length then
      ([.close, .file (.create W.tmpPath), .file (.write W.tmpPath walMagic)], some .structError)
    else
      ([.close, .file (.create W.tmpPath), .file (.write W.tmpPath walMagic),
        .file (.write W.tmpPath (frameHeader recordCheckpoint payloadBytes)),
        .file (.write W.tmpPath payloadBytes), .file (.replace W.tmpPath W.path), .reopen], none)

variable {R W} {s : OpenLog} {tasks : Dict Str TaskRecord} {clock : VectorClock} {f : Bytes}

/-! ## The operations -/

theorem tmpPath_ne (h : pathSuffix W.path ≠ str ".tmp") : W.path ≠ W.tmpPath :=
  fun heq => h (withSuffix_eq_self.1 heq.symm)

/-- Before the renaming the operations are on the temporary file. -/
theorem run_tmp (h : W.path ≠ W.tmpPath) : ∀ {ops : List LogOp} {s : OpenLog},
    (∀ op ∈ ops, op = .close ∨ ∃ fop : FileOp, op = .file fop ∧ fop.touches = [W.tmpPath]) →
    (run W.perform s ops).disk W.path = s.disk W.path
  | [], _, _ => rfl
  | op :: ops, s, hops => by
    rw [run_cons, run_tmp h fun op hop => hops op (by simp [hop])]
    rcases hops op (by simp) with rfl | ⟨fop, rfl, htouch⟩
    · rfl
    · exact FileOp.apply_other (by rw [htouch]; simpa using h)

variable (R W tasks clock) in
/-- The operations on the temporary file. -/
def tmpWrites : List LogOp :=
  [.close, .file (.create W.tmpPath), .file (.write W.tmpPath walMagic),
    .file (.write W.tmpPath (frameHeader recordCheckpoint ((checkpointEntry tasks clock).text R))),
    .file (.write W.tmpPath ((checkpointEntry tasks clock).text R))]

theorem length_tmpWrites : (W.tmpWrites R tasks clock).length = 5 := rfl

theorem tmpWrites_touch : ∀ op ∈ W.tmpWrites R tasks clock,
    op = .close ∨ ∃ fop : FileOp, op = .file fop ∧ fop.touches = [W.tmpPath] := by
  simp [tmpWrites, FileOp.touches]

variable (R W tasks clock) in
/-- **How far `checkpoint` comes**: `WalError` is raised before its first operation, `struct.error`
    when the header is packed, and otherwise the temporary file is written and renamed. -/
theorem checkpointOps_cases :
    (∃ msg, W.checkpoint R tasks clock = .error (.walError msg) ∧
      W.checkpointOps R tasks clock = ([], some (.walError msg))) ∨
    (W.checkpoint R tasks clock = .error .structError ∧
      W.checkpointOps R tasks clock =
        ((W.tmpWrites R tasks clock).take 3, some .structError)) ∨
    ∃ f, W.checkpoint R tasks clock = .ok f ∧ W.checkpointOps R tasks clock =
      (W.tmpWrites R tasks clock ++ [.file (.replace W.tmpPath W.path), .reopen], none) := by
  unfold checkpoint checkpointOps
  simp only
  cases hv : W.validate (.obj (checkpointPayload tasks clock).fields) with
  | error e => exact Or.inl ⟨_, rfl, rfl⟩
  | ok u =>
    simp only
    split_ifs
    · exact Or.inl ⟨_, rfl, rfl⟩
    · exact Or.inl ⟨_, rfl, rfl⟩
    · exact Or.inr (Or.inl ⟨rfl, rfl⟩)
    · exact Or.inr (Or.inr ⟨_, rfl, rfl⟩)

theorem checkpointOps_ok (h : W.checkpoint R tasks clock = .ok f) : W.checkpointOps R tasks clock =
    (W.tmpWrites R tasks clock ++ [.file (.replace W.tmpPath W.path), .reopen], none) := by
  rcases checkpointOps_cases R W tasks clock with ⟨msg, hc, -⟩ | ⟨hc, -⟩ | ⟨f', -, hops⟩
  · rw [hc] at h; cases h
  · rw [hc] at h; cases h
  · exact hops

theorem disk_tmpWrites (h : W.checkpoint R tasks clock = .ok f) (s : OpenLog) :
    (run W.perform s (W.tmpWrites R tasks clock)).disk W.tmpPath = some f := by
  obtain ⟨-, rfl⟩ := checkpoint_ok_iff.1 h
  simp only [tmpWrites, run_cons, run_nil, perform, FileOp.apply_write, FileOp.apply_create,
    Option.map_some, List.nil_append, List.append_assoc]
  rfl

/-- From the renaming on, the new file is at the path of the log. -/
theorem disk_renamed (h : W.checkpoint R tasks clock = .ok f) (s : OpenLog) (n : ℕ) :
    (run W.perform (run W.perform s (W.tmpWrites R tasks clock))
      ([.file (.replace W.tmpPath W.path), .reopen].take (n + 1))).disk W.path = some f := by
  have hreplace : (W.perform (run W.perform s (W.tmpWrites R tasks clock))
      (.file (.replace W.tmpPath W.path))).disk W.path = some f := by
    rw [← disk_tmpWrites h s]
    exact FileOp.apply_replace _ _ _
  rw [List.take_succ_cons, run_cons]
  cases n with
  | zero => exact hreplace
  | succ n =>
    -- the header of the new file is in order
    obtain ⟨-, rfl⟩ := checkpoint_ok_iff.1 h
    have hopen : W.openFile (some (walMagic ++ (checkpointEntry tasks clock).bytes R)) =
        .ok (walMagic ++ (checkpointEntry tasks clock).bytes R) := rfl
    rw [List.take_succ_cons, List.take_nil, run_cons, run_nil]
    generalize hs' : W.perform _ (.file (.replace W.tmpPath W.path)) = s' at hreplace ⊢
    simp only [perform, hreplace, hopen, Function.update_self]

/-- **What `checkpoint` leads to**: the file that takes the place of the log, opened again. -/
theorem checkpoint_performed (h : W.checkpoint R tasks clock = .ok f) (s : OpenLog) :
    (run W.perform s (W.checkpointOps R tasks clock).1).disk W.path = some f ∧
      (run W.perform s (W.checkpointOps R tasks clock).1).opened = true := by
  rw [checkpointOps_ok h]
  simp only [run_append]
  refine ⟨disk_renamed h s 1, ?_⟩
  simp only [run_cons, run_nil]
  generalize W.perform _ (.file (.replace W.tmpPath W.path)) = s'
  simp only [perform]
  split <;> rfl

/-! ## Crashes -/

/-- A checkpoint without its payload is no record for a reading that is not strict. -/
theorem replay_unfinished (h : (checkpointEntry tasks clock).Fits R W) :
    W.replay R false (walMagic ++
      frameHeader recordCheckpoint ((checkpointEntry tasks clock).text R)) = ([], none) := by
  have hheader : ((checkpointEntry tasks clock).bytes R).take 9 =
      frameHeader recordCheckpoint ((checkpointEntry tasks clock).text R) := rfl
  have hlen : ((checkpointEntry tasks clock).bytes R).length =
      9 + ((checkpointEntry tasks clock).text R).length := length_frame _ _
  have htext : 0 < ((checkpointEntry tasks clock).text R).length := by
    simp [WalEntry.text, Codec.dumps, Json.dumps, Json.canon, Json.print]
  rw [replay_magic, ← hheader]
  exact read_stop (readFrame_torn h (by omega))

variable (R tasks clock) in
/-- With another suffix, a crash leaves the old file or the new one at the path of the log. -/
theorem disk_crash (hpath : pathSuffix W.path ≠ str ".tmp") (s : OpenLog) (k : ℕ) :
    (run W.perform s ((W.checkpointOps R tasks clock).1.take k)).disk W.path = s.disk W.path ∨
      ∃ f, W.checkpoint R tasks clock = .ok f ∧
        (run W.perform s ((W.checkpointOps R tasks clock).1.take k)).disk W.path = some f := by
  have hold : ∀ k s, (run W.perform s ((W.tmpWrites R tasks clock).take k)).disk W.path =
      s.disk W.path := fun k s =>
    run_tmp (tmpPath_ne hpath) fun op hop => tmpWrites_touch op (List.mem_of_mem_take hop)
  rcases checkpointOps_cases R W tasks clock with ⟨msg, -, hops⟩ | ⟨-, hops⟩ | ⟨f, hc, hops⟩
  · rw [hops, List.take_nil]
    exact Or.inl rfl
  · rw [hops, List.take_take]
    exact Or.inl (hold _ s)
  · rw [hops, List.take_append, run_append]
    rcases Nat.lt_or_ge (W.tmpWrites R tasks clock).length k with hk | hk
    · obtain ⟨n, rfl⟩ := Nat.exists_eq_add_of_lt hk
      rw [List.take_of_length_le hk.le, show ∀ l n : ℕ, l + n + 1 - l = n + 1 by omega]
      exact Or.inr ⟨f, hc, disk_renamed hc s n⟩
    · rw [Nat.sub_eq_zero_of_le hk, List.take_zero]
      exact Or.inl (hold k s)

/-- With the suffix `.tmp`, a crash after the opening of the temporary file leaves an empty log, and
    one after the writing of the magic number a log without records. -/
theorem disk_overwritten (hpath : pathSuffix W.path = str ".tmp")
    (hops : ∀ msg, (W.checkpointOps R tasks clock).2 ≠ some (.walError msg)) (s : OpenLog) :
    (run W.perform s ((W.checkpointOps R tasks clock).1.take 2)).disk W.path = some [] ∧
      (run W.perform s ((W.checkpointOps R tasks clock).1.take 3)).disk W.path = some walMagic := by
  have htmp : W.tmpPath = W.path := withSuffix_eq_self.2 hpath
  have htake : ∀ k ≤ 3, (W.checkpointOps R tasks clock).1.take k =
      (W.tmpWrites R tasks clock).take k := by
    intro k hk
    rcases checkpointOps_cases R W tasks clock with ⟨msg, -, h⟩ | ⟨-, h⟩ | ⟨f, -, h⟩
    · exact absurd (congrArg Prod.snd h) (hops msg)
    · rw [h, List.take_take, Nat.min_eq_left hk]
    · rw [h, List.take_append_of_le_length (by rw [length_tmpWrites]; omega)]
  rw [htake 2 (by decide), htake 3 le_rfl]
  simp [tmpWrites, htmp, run_cons, perform]

/-- **With the suffix `.tmp` a log without records** is read back as such, or as the one checkpoint,
    after a crash. -/
theorem disk_crash_empty (hpath : pathSuffix W.path = str ".tmp") {file : Bytes}
    (hfile : s.disk W.path = some file) (hempty : W.replay R false file = ([], none)) (k : ℕ) :
    ∃ f, (run W.perform s ((W.checkpointOps R tasks clock).1.take k)).disk W.path = some f ∧
      (W.replay R false f = ([], none) ∨ W.replay R false f =
        ([⟨8, recordCheckpoint, (checkpointPayload tasks clock).canon⟩], none)) := by
  have htmp : W.tmpPath = W.path := withSuffix_eq_self.2 hpath
  have hearly : ∀ k ≤ 3, ∃ f,
      (run W.perform s ((W.tmpWrites R tasks clock).take k)).disk W.path = some f ∧
        W.replay R false f = ([], none) := by
    intro k hk
    interval_cases k
    · exact ⟨file, hfile, hempty⟩
    · exact ⟨file, hfile, hempty⟩
    · exact ⟨[], by simp [tmpWrites, htmp, run_cons, perform], rfl⟩
    · exact ⟨walMagic, by simp [tmpWrites, htmp, run_cons, perform], rfl⟩
  rcases checkpointOps_cases R W tasks clock with ⟨msg, -, hops⟩ | ⟨-, hops⟩ | ⟨f, hc, hops⟩
  · rw [hops, List.take_nil]
    exact ⟨file, hfile, Or.inl hempty⟩
  · rw [hops, List.take_take]
    obtain ⟨f, hf, hread⟩ := hearly (min k 3) (Nat.min_le_right _ _)
    exact ⟨f, hf, Or.inl hread⟩
  · rw [hops]
    simp only
    rcases Nat.lt_or_ge k 5 with hk | hk
    · rw [List.take_append_of_le_length (by rw [length_tmpWrites]; omega)]
      rcases Nat.lt_or_ge 3 k with hk3 | hk3
      · obtain rfl : k = 4 := by omega
        refine ⟨_, ?_, Or.inl (replay_unfinished (checkpoint_ok_iff.1 hc).1)⟩
        simp [tmpWrites, htmp, run_cons, perform]
      · obtain ⟨f, hf, hread⟩ := hearly k hk3
        exact ⟨f, hf, Or.inl hread⟩
    · refine ⟨f, ?_, Or.inr (replay_checkpoint_only hc false)⟩
      obtain ⟨n, rfl⟩ := Nat.exists_eq_add_of_le hk
      rw [List.take_append, List.take_of_length_le (by rw [length_tmpWrites]; omega), run_append,
        length_tmpWrites, Nat.add_sub_cancel_left]
      cases n with
      | zero => rw [List.take_zero, run_nil, ← htmp]; exact disk_tmpWrites hc s
      | succ n => exact disk_renamed hc s n

variable (R tasks clock) in
/-- With another suffix, the file is read back as the old log or as the one checkpoint. -/
theorem crash_read_back (hpath : pathSuffix W.path ≠ str ".tmp") {file : Bytes}
    (hfile : s.disk W.path = some file) (strict : Bool) (k : ℕ) :
    ∃ f, (run W.perform s ((W.checkpointOps R tasks clock).1.take k)).disk W.path = some f ∧
      (W.replay R strict f = W.replay R strict file ∨ W.replay R strict f =
        ([⟨8, recordCheckpoint, (checkpointPayload tasks clock).canon⟩], none)) := by
  rcases disk_crash R tasks clock hpath s k with hold | ⟨f, hc, hnew⟩
  · exact ⟨file, hold.trans hfile, Or.inl rfl⟩
  · exact ⟨f, hnew, Or.inr (replay_checkpoint_only hc strict)⟩

/-- A file that is empty, or has the magic number only, is read back as the old log or as a checkpoint
    exactly if the old log had no record; and a strict reading tells the two files apart. -/
theorem emptied_read_back {file : Bytes} {strict : Bool} {rec : WalRecord}
    (h₂ : W.replay R strict [] = W.replay R strict file ∨ W.replay R strict [] = ([rec], none))
    (h₃ : W.replay R strict walMagic = W.replay R strict file ∨
      W.replay R strict walMagic = ([rec], none)) :
    strict = false ∧ W.replay R false file = ([], none) := by
  cases strict with
  | false =>
    rcases h₂ with h₂ | h₂
    · exact ⟨rfl, h₂.symm⟩
    · cases h₂
  | true =>
    have he₂ : W.replay R true [] =
        ([], some (.walCorruptError (str "Truncated WAL header"))) := rfl
    have he₃ : W.replay R true walMagic = ([], none) := rfl
    rw [he₂] at h₂
    rw [he₃] at h₃
    rcases h₂ with h₂ | h₂
    · rw [← h₂] at h₃
      rcases h₃ with h₃ | h₃ <;> cases h₃
    · cases h₂

theorem checkpointOps_walError {msg : Str}
    (h : (W.checkpointOps R tasks clock).2 = some (.walError msg)) :
    (W.checkpointOps R tasks clock).1 = [] := by
  rcases checkpointOps_cases R W tasks clock with ⟨_, -, hops⟩ | ⟨-, hops⟩ | ⟨_, -, hops⟩ <;>
    rw [hops] at h ⊢ <;> cases h

/-- **When a checkpoint is atomic under crashes.**  A crash after any number of operations leaves a
    file at the path that is read back as the old log or as the one checkpoint exactly if the path
    of the log has another suffix than `.tmp`, or `checkpoint` raises `WalError` at once, or the old
    log has no record and the reading is not strict.  When `checkpoint` raises `WalError`, nothing
    has changed and what can be appended still is. -/
theorem checkpoint_atomic_iff {file : Bytes} (hfile : s.disk W.path = some file)
    (tasks : Dict Str TaskRecord) (clock : VectorClock) :
    (∀ strict,
      (∀ k, ∃ f, (run W.perform s ((W.checkpointOps R tasks clock).1.take k)).disk W.path = some f ∧
        (W.replay R strict f = W.replay R strict file ∨ W.replay R strict f =
          ([⟨8, recordCheckpoint, (checkpointPayload tasks clock).canon⟩], none))) ↔
      pathSuffix W.path ≠ str ".tmp" ∨
        (∃ msg, (W.checkpointOps R tasks clock).2 = some (.walError msg)) ∨
        (strict = false ∧ W.replay R false file = ([], none))) ∧
    (∀ msg, (W.checkpointOps R tasks clock).2 = some (.walError msg) →
      run W.perform s (W.checkpointOps R tasks clock).1 = s ∧
      (s.opened = true → ∀ e : WalEntry, e.Fits R W →
        W.appendTo R (run W.perform s (W.checkpointOps R tasks clock).1) e = .ok (file.length,
          { s with disk := Function.update s.disk W.path (some (file ++ e.bytes R)) }))) := by
  refine ⟨fun strict => ⟨fun h => ?_, ?_⟩, fun msg h => ?_⟩
  · by_contra hc
    push Not at hc
    obtain ⟨hpath, hops, hrecords⟩ := hc
    -- the log has been emptied
    obtain ⟨hcut, hmagic⟩ := disk_overwritten hpath hops s
    obtain ⟨f₂, hf₂, h₂⟩ := h 2
    obtain ⟨f₃, hf₃, h₃⟩ := h 3
    obtain rfl := Option.some.inj (hcut.symm.trans hf₂)
    obtain rfl := Option.some.inj (hmagic.symm.trans hf₃)
    obtain ⟨hstrict, hempty⟩ := emptied_read_back h₂ h₃
    exact hrecords hstrict hempty
  · rintro (hpath | ⟨msg, hmsg⟩ | ⟨rfl, hempty⟩) k
    · exact crash_read_back R tasks clock hpath hfile strict k
    · rw [checkpointOps_walError hmsg, List.take_nil]
      exact ⟨file, hfile, Or.inl rfl⟩
    · by_cases hpath : pathSuffix W.path = str ".tmp"
      · rw [hempty]
        exact disk_crash_empty hpath hfile hempty k
      · exact crash_read_back R tasks clock hpath hfile false k
  · rw [checkpointOps_walError h, run_nil]
    refine ⟨rfl, fun hopen e he => ?_⟩
    have happ : W.append R file e.recordType e.payload = .ok (file.length, file ++ e.bytes R) :=
      append_ok_iff.2 ⟨he, rfl, rfl⟩
    rw [appendTo, hopen, hfile, Option.getD_some, happ]
    rfl

namespace Sample

/-- A log of two records, open, at a path. -/
noncomputable def openLog (path : Str) : OpenLog :=
  ⟨Function.update (fun _ => none) path (some twoFrames), true⟩

theorem disk_openLog (path : Str) : (openLog path).disk path = some twoFrames := by
  simp only [openLog, Function.update_self]

/-- A log with the suffix of the temporary file. -/
def tmpLog : WriteAheadLog := { path := str "peer.tmp", maxRecordBytes_pos := maxFrameSize_pos }

/-- A pending task without payload. -/
def smallest (taskId : Str) : TaskRecord where
  taskId := taskId
  state := .pending
  payload := []
  updatedBy := str "a"

/-- A store of `n` such tasks, each named by one code point. -/
def crowd (n : ℕ) (h : n ≤ 0x110000) : Dict Str TaskRecord where
  entries := (List.range n).map fun i => ([Fin.ofNat _ i], smallest [Fin.ofNat _ i])
  nodup := by
    rw [List.map_map]
    refine List.Nodup.map_on (fun i hi j hj hij => ?_) List.nodup_range
    have heq : (Fin.ofNat 0x110000 i : CodePoint) = Fin.ofNat _ j := (List.cons.inj hij).1
    have hval := congrArg Fin.val heq
    simp only [Fin.val_ofNat] at hval
    rwa [Nat.mod_eq_of_lt (lt_of_lt_of_le (List.mem_range.1 hi) h),
      Nat.mod_eq_of_lt (lt_of_lt_of_le (List.mem_range.1 hj) h)] at hval

end Sample

theorem checkpoint_atomic_crash :
    (Sample.log.checkpointOps Sample.runtime (Sample.crowd 3 (by decide)) .zero).2 = none ∧
    ∀ k, ∃ f, (run Sample.log.perform (Sample.openLog Sample.log.path)
      ((Sample.log.checkpointOps Sample.runtime (Sample.crowd 3 (by decide)) .zero).1.take k)).disk
        Sample.log.path = some f ∧
      (Sample.log.replay Sample.runtime false f =
          Sample.log.replay Sample.runtime false Sample.twoFrames ∨
        Sample.log.replay Sample.runtime false f = ([⟨8, recordCheckpoint,
          (checkpointPayload (Sample.crowd 3 (by decide)) .zero).canon⟩], none)) :=
  ⟨by decide +kernel,
    ((checkpoint_atomic_iff (Sample.disk_openLog _) (Sample.crowd 3 (by decide)) .zero).1 false).2
      (Or.inl (by decide))⟩

/-- With the suffix `.tmp` a crash after the first file operation leaves an empty log. -/
theorem checkpoint_overwrites :
    ¬ ∀ (R : Runtime) (W : WriteAheadLog) (s : OpenLog) (es : List WalEntry) (file : Bytes)
      (tasks : Dict Str TaskRecord) (clock : VectorClock) (k : ℕ),
      W.appendAll R walMagic es = .ok file → s.disk W.path = some file → s.opened = true →
      ∃ f, (run W.perform s ((W.checkpointOps R tasks clock).1.take k)).disk W.path = some f ∧
        (W.replay R false f = W.replay R false file ∨ W.replay R false f =
          ([⟨8, recordCheckpoint, (checkpointPayload tasks clock).canon⟩], none)) := by
  intro h
  have happ : Sample.tmpLog.appendEach Sample.runtime walMagic [Sample.entry 1, Sample.entry 2] =
      .ok ([8, 19], Sample.twoFrames) := rfl
  have hold : Sample.tmpLog.replay Sample.runtime false Sample.twoFrames = _ :=
    replay_whole (appendEach_ok happ).1
  obtain ⟨f, hf, hreplay⟩ := h Sample.runtime Sample.tmpLog (Sample.openLog Sample.tmpLog.path)
    [Sample.entry 1, Sample.entry 2] Sample.twoFrames .empty .zero 2
    (appendAll_ok_iff.2 ⟨(appendEach_ok happ).1, rfl⟩) (Sample.disk_openLog _) rfl
  have hops : ((Sample.tmpLog.checkpointOps Sample.runtime .empty .zero).1.take 2) =
      [.close, .file (.create Sample.tmpLog.path)] := rfl
  simp only [hops, run_cons, run_nil, perform, FileOp.apply_create] at hf
  obtain rfl : [] = f := Option.some.inj hf
  have hempty : Sample.tmpLog.replay Sample.runtime false [] = ([], none) := rfl
  rw [hempty, hold] at hreplay
  rcases hreplay with hreplay | hreplay
  · cases hreplay
  · cases hreplay

end WriteAheadLog

end PeerQ
