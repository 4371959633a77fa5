/-
  The write-ahead log (`peerq/wal.py`) on the octets of its file.

  The file starts with an eight-octet header; `append` adds a frame of length,
  CRC-32, type and JSON payload, `replay` reads frames up to the end and, unless
  strict, stops silently at an incomplete one.  `Takes` of `readFrame`
  (`readFrame_takes`) is the round trip of one frame.

  Opening a file does not remove an incomplete frame at its end, and frames
  appended behind one are read at the wrong place: `reopen_replay_iff` says that
  a log survives a crash and further appends exactly if no incomplete frame was
  left or nothing was appended.
-/
import PeerQ.Crypto
import PeerQ.Lib.Frames

namespace PeerQ

open Py

/-! ## Frames -/

/-- `WAL_MAGIC`: `PQWL`, version 1, three reserved octets. -/
def walMagic : Bytes := ascii "PQWL" ++ [1, 0, 0, 0]

abbrev walHeaderLen : ℕ := 8
abbrev frameHeaderLen : ℕ := 9

abbrev recordTask : ℕ := 1
abbrev recordClock : ℕ := 2
abbrev recordCheckpoint : ℕ := 3

/-- The configuration of a `WriteAheadLog`. -/
structure WriteAheadLog where
  path : Str
  maxRecordBytes : ℕ := maxFrameSize
  maxRecordBytes_pos : 0 < maxRecordBytes := by decide

/-- `WalRecord`. -/
structure WalRecord where
  offset : ℕ
  recordType : ℕ
  payload : Fields

/-- A frame: length, CRC-32 of type and payload, type, payload. -/
def frame (recordType : ℕ) (payload : Bytes) : Bytes :=
  be32 payload.length ++ be32 (crc32 (Fin.ofNat _ recordType :: payload)) ++
    [Fin.ofNat _ recordType] ++ payload

theorem length_frame (ty : ℕ) (p : Bytes) : (frame ty p).length = 9 + p.length := by
  simp [frame, length_be32]; omega

/-- A known record type. -/
def knownType (ty : ℕ) : Bool := ty = recordTask || ty = recordClock || ty = recordCheckpoint

namespace WriteAheadLog

variable (R : Runtime) (W : WriteAheadLog)

/-- `validate_json_tree` with the limits of the log. -/
def validate (v : Json) : Except Exn Unit := validateJsonTree 16 10000 W.maxRecordBytes v

/-- `_open` on the file's contents, if it exists: a missing or empty file gets a header, any other
    must have one.  What stands behind the header is left as it is. -/
def openFile : Option Bytes → Except Exn Bytes
  | none => .ok walMagic
  | some [] => .ok walMagic
  | some file =>
    let hdr := file.take walHeaderLen
    if hdr.length < walHeaderLen ∨ hdr.take 4 ≠ ascii "PQWL" then
      .error (.walCorruptError (str "Invalid WAL magic header in " ++ W.path))
    else if hdr.getD 4 0 ≠ 1 then
      .error (.walCorruptError (str "Unsupported WAL version " ++ natText (hdr.getD 4 0).val ++
        str " in " ++ W.path))
    else .ok file

/-- `append`: the offset of the new frame and the file with it. -/
def append (file : Bytes) (recordType : ℕ) (payload : PyDict) : Except Exn (ℕ × Bytes) :=
  if !knownType recordType then
    .error (.walError (str "Unknown WAL record type: " ++ natText recordType))
  else match W.validate (.obj payload.fields) with
    | .error e => .error (.walError (str "WAL payload is not safely serializable: " ++ e.text))
    | .ok _ =>
      let payloadBytes := R.json.dumps (.obj payload.fields)
      -- an integer is too long: `ValueError` of `json.dumps`
      if !(Json.obj payload.fields).short then
        .error (.walError (str "WAL payload is not safely serializable: "))
      else if W.maxRecordBytes < payloadBytes.length then
        .error (.walError (str "WAL record exceeds the configured size limit"))
      -- the length does not fit the header: `struct.error`
      else if 2 ^ 32 ≤ payloadBytes.length then .error .structError
      else .ok (file.length, file ++ frame recordType payloadBytes)

/-- One round of the loop of `replay`, at offset `off` with the rest `b` of the file. -/
def readFrame (strict : Bool) (off : ℕ) (b : Bytes) : Next Exn WalRecord :=
  let hdr := b.take frameHeaderLen
  if hdr.isEmpty then .stop
  else if hdr.length < frameHeaderLen then
    if strict then .fail (.walCorruptError (str "Torn frame header at offset " ++ natText off ++
      str ": got " ++ natText hdr.length ++ str " bytes"))
    else .stop
  else
    let payloadLen := beVal (hdr.take 4)
    let expectedCrc := beVal ((hdr.drop 4).take 4)
    let recordType := hdr.getD 8 0
    if !knownType recordType.val then
      .fail (.walCorruptError (str "Unknown WAL record type " ++ natText recordType.val ++
        str " at offset " ++ natText off))
    else if W.maxRecordBytes < payloadLen then
      .fail (.walCorruptError (str "WAL payload exceeds the configured limit at offset " ++
        natText off))
    else
      let payloadBytes := (b.drop frameHeaderLen).take payloadLen
      if payloadBytes.length < payloadLen then
        if strict then .fail (.walCorruptError (str "Torn payload at offset " ++ natText off ++
          str ": expected " ++ natText payloadLen ++ str " bytes"))
        else .stop
      else
        let actualCrc := crc32 (recordType :: payloadBytes)
        if actualCrc ≠ expectedCrc then
          .fail (.walCorruptError (str "Checksum mismatch at offset " ++ natText off ++
            str ": expected 0x" ++ hex (be32 expectedCrc) ++ str ", got 0x" ++
            hex (be32 actualCrc)))
        else match R.json.loads false payloadBytes with
          | none => .fail (.walCorruptError (str "Corrupt JSON payload at offset " ++ natText off ++
              str ": "))
          | some v => match W.validate v with
            | .error e => .fail (.walCorruptError (str "Corrupt JSON payload at offset " ++
                natText off ++ str ": " ++ e.text))
            | .ok _ => match v with
              | .obj payload => .item ⟨off, recordType.val, payload⟩ (frameHeaderLen + payloadLen)
              | _ => .fail (.walCorruptError (str "WAL payload is not an object at offset " ++
                  natText off))

/-- `replay`: the records it yields, and the error it ends with if any. -/
def replay (strict : Bool) (file : Bytes) : List WalRecord × Option Exn :=
  let hdr := file.take walHeaderLen
  if hdr.length < walHeaderLen then
    ([], if strict then some (.walCorruptError (str "Truncated WAL header")) else none)
  else if hdr.take 4 ≠ ascii "PQWL" ∨ hdr.getD 4 0 ≠ 1 then
    ([], some (.walCorruptError (str "Invalid WAL header during replay")))
  else read (W.readFrame R strict) walHeaderLen (file.drop walHeaderLen)

/-! ## What a reading step needs -/

variable {R W} {strict : Bool} {off : ℕ} {b : Bytes}

theorem take_header (b : Bytes) : (b.take 9).take 4 = b.take 4 ∧
    ((b.take 9).drop 4).take 4 = (b.drop 4).take 4 ∧ (b.take 9).getD 8 0 = b.getD 8 0 := by
  refine ⟨by rw [List.take_take]; rfl, by rw [List.drop_take, List.take_take]; rfl, ?_⟩
  simp [List.getD_eq_getElem?_getD]

/-- What was read, if a frame was read. -/
theorem readFrame_item {a : WalRecord} {n : ℕ} (h : W.readFrame R strict off b = .item a n) :
    9 ≤ b.length ∧ knownType (b.getD 8 0).val = true ∧ n = 9 + beVal (b.take 4) ∧
      n ≤ b.length ∧
      crc32 (b.getD 8 0 :: (b.drop 9).take (beVal (b.take 4))) = beVal ((b.drop 4).take 4) ∧
      R.json.loads false ((b.drop 9).take (beVal (b.take 4))) = some (.obj a.payload) := by
  obtain ⟨ht, hd, hg⟩ := take_header b
  simp only [readFrame, frameHeaderLen, ht, hd, hg] at h
  by_cases h1 : (b.take 9).isEmpty = true
  · rw [if_pos h1] at h; exact absurd h (by simp)
  rw [if_neg h1] at h
  by_cases h2 : (b.take 9).length < 9
  · rw [if_pos h2] at h; split_ifs at h
  rw [if_neg h2] at h
  by_cases h3 : (!knownType (b.getD 8 0).val) = true
  · rw [if_pos h3] at h; exact absurd h (by simp)
  rw [if_neg h3] at h
  by_cases h4 : W.maxRecordBytes < beVal (b.take 4)
  · rw [if_pos h4] at h; exact absurd h (by simp)
  rw [if_neg h4] at h
  by_cases h5 : ((b.drop 9).take (beVal (b.take 4))).length < beVal (b.take 4)
  · rw [if_pos h5] at h; split_ifs at h
  rw [if_neg h5] at h
  by_cases h6 : crc32 (b.getD 8 0 :: (b.drop 9).take (beVal (b.take 4))) ≠ beVal ((b.drop 4).take 4)
  · rw [if_pos h6] at h; exact absurd h (by simp)
  rw [if_neg h6] at h
  simp only [List.length_take, List.length_drop, not_lt] at h2 h5
  cases hl : R.json.loads false ((b.drop 9).take (beVal (b.take 4))) with
  | none => rw [hl] at h; exact absurd h (by simp)
  | some v =>
    rw [hl] at h
    simp only at h
    cases hv : W.validate v with
    | error e => rw [hv] at h; exact absurd h (by simp)
    | ok u =>
      rw [hv] at h
      cases v with
      | obj kvs =>
        simp only [Next.item.injEq] at h
        obtain ⟨rfl, rfl⟩ := h
        exact ⟨by omega, by simpa using h3, rfl, by omega, not_not.1 h6, rfl⟩
      | _ => exact absurd h (by simp)

theorem readFrame_progress : Progress (W.readFrame R strict) := by
  intro off b a n h
  obtain ⟨-, -, hn, hle, -⟩ := readFrame_item h
  exact ⟨by omega, hle⟩

theorem take_header_ne (h9 : 9 ≤ b.length) :
    ¬ (b.take 9).isEmpty = true ∧ ¬ (b.take 9).length < 9 := by
  have hl : (b.take 9).length = 9 := by rw [List.length_take]; omega
  exact ⟨fun h => by rw [List.isEmpty_iff.1 h] at hl; simp at hl, by omega⟩

/-- An unknown record type ends the reading with an error. -/
theorem readFrame_type (h9 : 9 ≤ b.length) (ht : knownType (b.getD 8 0).val = false) :
    ∃ e, W.readFrame R strict off b = .fail e := by
  obtain ⟨hne, hl⟩ := take_header_ne h9
  rw [readFrame]
  simp only [frameHeaderLen, (take_header b).2.2, ht, Bool.not_false, if_true]
  rw [if_neg hne, if_neg hl]
  exact ⟨_, rfl⟩

/-- An incomplete header stops a reading that is not strict. -/
theorem readFrame_short (h9 : b.length < 9) : W.readFrame R false off b = .stop := by
  have hl : (b.take 9).length < 9 := by rw [List.length_take]; omega
  rw [readFrame]
  simp only [frameHeaderLen]
  by_cases h1 : (b.take 9).isEmpty = true
  · rw [if_pos h1]
  · rw [if_neg h1, if_pos hl]; rfl

/-- The head of a frame with a known type, of which the payload is missing or complete. -/
theorem readFrame_head (h9 : 9 ≤ b.length) (ht : knownType (b.getD 8 0).val = true)
    (hm : beVal (b.take 4) ≤ W.maxRecordBytes) (hlt : b.length < 9 + beVal (b.take 4)) :
    W.readFrame R false off b = .stop := by
  obtain ⟨hne, hl⟩ := take_header_ne h9
  have hp : ((b.drop 9).take (beVal (b.take 4))).length < beVal (b.take 4) := by
    rw [List.length_take, List.length_drop]; omega
  rw [readFrame]
  simp only [frameHeaderLen, take_header b, ht, Bool.not_true]
  rw [if_neg hne, if_neg hl, if_neg (by simp), if_neg (by omega), if_pos hp]; rfl

/-- A complete frame is read. -/
theorem readFrame_whole {kvs : Fields} (h9 : 9 ≤ b.length)
    (ht : knownType (b.getD 8 0).val = true) (hm : beVal (b.take 4) ≤ W.maxRecordBytes)
    (hle : 9 + beVal (b.take 4) ≤ b.length)
    (hc : crc32 (b.getD 8 0 :: (b.drop 9).take (beVal (b.take 4))) = beVal ((b.drop 4).take 4))
    (hj : R.json.loads false ((b.drop 9).take (beVal (b.take 4))) = some (.obj kvs))
    (hv : W.validate (.obj kvs) = .ok ()) :
    W.readFrame R strict off b =
      .item ⟨off, (b.getD 8 0).val, kvs⟩ (9 + beVal (b.take 4)) := by
  obtain ⟨hne, hl⟩ := take_header_ne h9
  have hp : ¬ ((b.drop 9).take (beVal (b.take 4))).length < beVal (b.take 4) := by
    rw [List.length_take, List.length_drop]; omega
  rw [readFrame]
  simp only [frameHeaderLen, take_header b, ht, Bool.not_true]
  rw [if_neg hne, if_neg hl, if_neg (by simp), if_neg (by omega), if_neg hp,
    if_neg (not_not.2 hc), hj]
  simp only [hv]

end WriteAheadLog

/-! ## Entries and their frames -/

/-- What is appended: a record type and an object. -/
structure WalEntry where
  recordType : ℕ
  payload : PyDict

namespace WalEntry

/-- The payload text of an entry. -/
def text (R : Runtime) (e : WalEntry) : Bytes := R.json.dumps (.obj e.payload.fields)

/-- The frame of an entry. -/
def bytes (R : Runtime) (e : WalEntry) : Bytes := frame e.recordType (e.text R)

/-- Type and payload, fields in the order of their keys. -/
def content (e : WalEntry) : ℕ × Fields := (e.recordType, e.payload.canon)

/-- The entries that `append` takes. -/
structure Fits (R : Runtime) (W : WriteAheadLog) (e : WalEntry) : Prop where
  known : knownType e.recordType = true
  valid : W.validate (.obj e.payload.fields) = .ok ()
  short : (Json.obj e.payload.fields).short = true
  limit : (e.text R).length ≤ W.maxRecordBytes
  word : (e.text R).length < 2 ^ 32

end WalEntry

/-- Type and payload of a record. -/
def WalRecord.content (r : WalRecord) : ℕ × Fields := (r.recordType, r.payload)

section
variable (ty : ℕ) (p rest : Bytes)

theorem frame_eq : frame ty p = be32 p.length ++
    (be32 (crc32 (Fin.ofNat _ ty :: p)) ++ (Fin.ofNat _ ty :: p)) := by simp [frame]

theorem frame_length : (frame ty p ++ rest).take 4 = be32 p.length := rfl

theorem frame_crc :
    ((frame ty p ++ rest).drop 4).take 4 = be32 (crc32 (Fin.ofNat _ ty :: p)) := rfl

theorem frame_type : (frame ty p ++ rest).getD 8 0 = Fin.ofNat _ ty := rfl

theorem frame_payload : (frame ty p ++ rest).drop 9 = p ++ rest := rfl

end

theorem knownType_lt {ty : ℕ} (h : knownType ty = true) : ty = 1 ∨ ty = 2 ∨ ty = 3 := by
  simp only [knownType, Bool.or_eq_true, decide_eq_true_eq, or_assoc] at h; exact h

namespace WriteAheadLog

variable {R : Runtime} {W : WriteAheadLog} {strict : Bool} {off : ℕ}

theorem append_ok_iff {file f : Bytes} {o : ℕ} {e : WalEntry} :
    W.append R file e.recordType e.payload = .ok (o, f) ↔
      e.Fits R W ∧ o = file.length ∧ f = file ++ e.bytes R := by
  unfold append
  by_cases hk : knownType e.recordType = true
  · cases hv : W.validate (.obj e.payload.fields) with
    | error err =>
      simp only [hk, Bool.not_true, Bool.false_eq_true, if_false, reduceCtorEq, false_iff]
      rintro ⟨h, -⟩
      rw [h.valid] at hv; exact absurd hv (by simp)
    | ok u =>
      simp only [hk, Bool.not_true, Bool.false_eq_true, if_false]
      by_cases h0 : (Json.obj e.payload.fields).short = true
      swap
      · simp only [h0, Bool.not_false, if_true, reduceCtorEq, false_iff]
        rintro ⟨h, -⟩
        exact h0 h.short
      simp only [h0, Bool.not_true, Bool.false_eq_true, if_false]
      by_cases h1 : W.maxRecordBytes < (R.json.dumps (.obj e.payload.fields)).length
      · simp only [h1, if_true, reduceCtorEq, false_iff]
        rintro ⟨h, -⟩
        exact absurd h.limit (not_le.2 h1)
      by_cases h2 : 2 ^ 32 ≤ (R.json.dumps (.obj e.payload.fields)).length
      · simp only [h1, h2, if_true, if_false, reduceCtorEq, false_iff]
        rintro ⟨h, -⟩
        exact absurd h.word (not_lt.2 h2)
      · simp only [h1, h2, if_false, Except.ok.injEq, Prod.mk.injEq]
        constructor
        · rintro ⟨rfl, rfl⟩
          exact ⟨⟨hk, hv, h0, not_lt.1 h1, not_le.1 h2⟩, rfl, rfl⟩
        · rintro ⟨-, rfl, rfl⟩; exact ⟨rfl, rfl⟩
  · simp only [hk, Bool.not_false, if_true, reduceCtorEq, false_iff]
    rintro ⟨h, -⟩
    exact hk h.known

/-- **A frame is read back**, wherever it stands and whatever follows it. -/
theorem readFrame_takes {e : WalEntry} (h : e.Fits R W) :
    Takes (W.readFrame R strict) (e.bytes R)
      fun off => ⟨off, e.recordType, e.payload.canon⟩ := by
  intro off rest
  have hty : (Fin.ofNat 256 e.recordType).val = e.recordType := by
    rcases knownType_lt h.known with h | h | h <;> rw [h] <;> rfl
  have hlen : beVal ((e.bytes R ++ rest).take 4) = (e.text R).length := by
    rw [WalEntry.bytes, frame_length, beVal_be32 h.word]
  have hpay : ((e.bytes R ++ rest).drop 9).take (e.text R).length = e.text R := by
    rw [WalEntry.bytes, frame_payload, List.take_left]
  have hfl : (e.bytes R).length = 9 + (e.text R).length := length_frame _ _
  have hval := h.valid
  rw [validate, ← validateJsonTree_canon, PyDict.canon_obj] at hval
  have hb := (validateJsonTree_ok_iff _).1 h.valid
  have hr : W.readFrame R strict off (e.bytes R ++ rest) =
      .item ⟨off, ((e.bytes R ++ rest).getD 8 0).val, e.payload.canon⟩
        (9 + beVal ((e.bytes R ++ rest).take 4)) := readFrame_whole
    (by rw [List.length_append]; omega)
    (by rw [WalEntry.bytes, frame_type, hty]; exact h.known) (by rw [hlen]; exact h.limit)
    (by rw [hlen, List.length_append]; omega)
    (by rw [hlen, hpay, WalEntry.bytes, frame_type, frame_crc, beVal_be32 (crc32_lt _)])
    (by rw [hlen, hpay, WalEntry.text, Codec.dumps,
          R.json.loads_dumps false (by decide) e.payload.wf hb.1 h.short, PyDict.canon_obj]) hval
  rw [hr, hlen, hfl, WalEntry.bytes, frame_type, hty]

/-- Append entries one after the other. -/
def appendAll (R : Runtime) (W : WriteAheadLog) (file : Bytes) : List WalEntry → Except Exn Bytes
  | [] => .ok file
  | e :: es => do
    let r ← W.append R file e.recordType e.payload
    appendAll R W r.2 es

theorem appendAll_ok_iff : ∀ {file f : Bytes} {es : List WalEntry},
    W.appendAll R file es = .ok f ↔
      (∀ e ∈ es, e.Fits R W) ∧ f = file ++ es.flatMap (WalEntry.bytes R)
  | file, f, [] => by simp [appendAll, eq_comm]
  | file, f, e :: es => by
    rw [appendAll, bind_eq_ok]
    constructor
    · rintro ⟨⟨o, g⟩, h1, h2⟩
      obtain ⟨hf, -, rfl⟩ := append_ok_iff.1 h1
      obtain ⟨hfs, rfl⟩ := appendAll_ok_iff.1 h2
      exact ⟨List.forall_mem_cons.2 ⟨hf, hfs⟩, by simp⟩
    · rintro ⟨h, rfl⟩
      obtain ⟨hf, hfs⟩ := List.forall_mem_cons.1 h
      exact ⟨_, append_ok_iff.2 ⟨hf, rfl, rfl⟩, appendAll_ok_iff.2 ⟨hfs, by simp⟩⟩

/-- The records of entries from offset `off` on. -/
def recordsAt (R : Runtime) (off : ℕ) (es : List WalEntry) : List WalRecord :=
  itemsAt off (es.map fun e => (e.bytes R, fun o => ⟨o, e.recordType, e.payload.canon⟩))

theorem content_recordsAt : ∀ (off : ℕ) (es : List WalEntry),
    (recordsAt R off es).map WalRecord.content = es.map WalEntry.content
  | _, [] => rfl
  | off, e :: es => by
    have ih := content_recordsAt (off + (e.bytes R).length) es
    simp only [recordsAt, List.map_cons, itemsAt, List.cons.injEq] at ih ⊢
    exact ⟨rfl, ih⟩

/-- Reading frames of entries and what stands behind them. -/
theorem read_entries {es : List WalEntry} (h : ∀ e ∈ es, e.Fits R W) (off : ℕ) (tail : Bytes) :
    read (W.readFrame R strict) off (es.flatMap (WalEntry.bytes R) ++ tail) =
      (recordsAt R off es ++
        (read (W.readFrame R strict) (off + (es.flatMap (WalEntry.bytes R)).length) tail).1,
        (read (W.readFrame R strict) (off + (es.flatMap (WalEntry.bytes R)).length) tail).2) := by
  have hflat : es.flatMap (WalEntry.bytes R) = (es.map fun e => (e.bytes R,
      fun o : ℕ => (⟨o, e.recordType, e.payload.canon⟩ : WalRecord))).flatMap Prod.fst := by
    rw [List.flatMap_map]
  rw [hflat, read_frames readFrame_progress]
  · rfl
  · intro f hf
    obtain ⟨e, he, rfl⟩ := List.mem_map.1 hf
    exact readFrame_takes (h e he)

/-- Reading frames of entries to the end of the file. -/
theorem read_whole {es : List WalEntry} (h : ∀ e ∈ es, e.Fits R W) (off : ℕ) :
    read (W.readFrame R strict) off (es.flatMap (WalEntry.bytes R)) = (recordsAt R off es, none) := by
  have hstop : ∀ o, read (W.readFrame R strict) o [] = ([], none) := fun o => read_stop rfl
  have hread : read (W.readFrame R strict) off (es.flatMap (WalEntry.bytes R) ++ []) = _ :=
    read_entries h off []
  rwa [hstop, List.append_nil, List.append_nil] at hread

theorem replay_magic (b : Bytes) :
    W.replay R strict (walMagic ++ b) = read (W.readFrame R strict) 8 b := rfl

/-- A log of entries is read back whole. -/
theorem replay_whole {es : List WalEntry} (h : ∀ e ∈ es, e.Fits R W) :
    W.replay R strict (walMagic ++ es.flatMap (WalEntry.bytes R)) = (recordsAt R 8 es, none) := by
  rw [replay_magic, read_whole h]

end WriteAheadLog

end PeerQ
