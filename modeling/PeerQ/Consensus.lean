/-
  Replicated task records (`peerq/consensus.py`): vector clocks, fencing tokens,
  records, their JSON form and its decoder.

  `fromDict_toDict_iff` says which records the decoder takes back
  (`Decodable`), and `fromDict_canon` that the order of the fields does not
  matter to it.  What it raises is a `ValueError`, unless the lease is an integer
  beyond the floats (`fromDict_benign_iff`).
-/
import PeerQ.Lib.Counters
import PeerQ.Lib.Join
import PeerQ.Security

namespace PeerQ

open Py

/-! ## Vector clocks -/

/-- `VectorClock`: counters by peer, zero-valued ones pruned. -/
abbrev VectorClock := Counters Str

inductive ClockComparison where
  | before | after | equal | concurrent
  deriving DecidableEq

/-- `VectorClock.compare`. -/
def VectorClock.compare (a b : VectorClock) : ClockComparison :=
  let allKeys := a.keys ++ b.keys
  let selfLeq := allKeys.all fun k => a.get k ≤ b.get k
  let otherLeq := allKeys.all fun k => b.get k ≤ a.get k
  if selfLeq && otherLeq then .equal
  else if selfLeq && !otherLeq then .before
  else if otherLeq && !selfLeq then .after
  else .concurrent

/-- Comparing goes by the order of the clocks. -/
theorem VectorClock.compare_eq (a b : VectorClock) : a.compare b =
    if a ≤ b then if b ≤ a then .equal else .before
    else if b ≤ a then .after else .concurrent := by
  have hall : ∀ c d : VectorClock, c.keys ⊆ a.keys ++ b.keys →
      ((a.keys ++ b.keys).all (fun k => decide (c.get k ≤ d.get k)) = true ↔ c ≤ d) := by
    intro c d hc
    rw [List.all_eq_true, Counters.le_def]
    refine ⟨fun h k => ?_, fun h k _ => decide_eq_true (h k)⟩
    by_cases hk : k ∈ c.keys
    · exact of_decide_eq_true (h k (hc hk))
    · rw [Counters.get_eq_zero.2 hk]; exact Nat.zero_le _
  have hab := hall a b (List.subset_append_left _ _)
  have hba := hall b a (List.subset_append_right _ _)
  unfold VectorClock.compare
  simp only
  rw [Bool.eq_iff_iff.2 (hab.trans (decide_eq_true_iff (p := a ≤ b)).symm),
    Bool.eq_iff_iff.2 (hba.trans (decide_eq_true_iff (p := b ≤ a)).symm)]
  by_cases h1 : a ≤ b <;> by_cases h2 : b ≤ a <;> simp [h1, h2]

/-- The counter of a JSON entry that is a positive integer. -/
def counter : Json → ℕ
  | .int n => n.toNat
  | _ => 0

/-- `VectorClock(d)` for a `dict` of integers. -/
def VectorClock.ofFields (d : Fields) : VectorClock :=
  .ofFun (d.map Prod.fst) fun k => counter ((lookup k d).getD .null)

/-- `to_dict` of a clock. -/
def VectorClock.toDict (c : VectorClock) : Fields := c.entries.map fun e => (e.1, .int e.2)

/-! ## States and tokens -/

inductive TaskState where
  | pending | claimed | running | done | failed
  deriving DecidableEq

namespace TaskState

def value : TaskState → String
  | pending => "pending" | claimed => "claimed" | running => "running" | done => "done"
  | failed => "failed"

/-- `TaskState(raw)`; `none` is its `ValueError`. -/
def ofValue (raw : Str) : Option TaskState :=
  [pending, claimed, running, done, failed].find? fun s => str s.value = raw

def isTerminal : TaskState → Bool
  | done | failed => true
  | _ => false

def latticeRank : TaskState → ℕ
  | pending => 0 | claimed => 1 | running => 2 | failed => 3 | done => 4

theorem ofValue_value : ∀ s : TaskState, ofValue (str s.value) = some s
  | pending => by decide +kernel
  | claimed => by decide +kernel
  | running => by decide +kernel
  | done => by decide +kernel
  | failed => by decide +kernel

theorem latticeRank_injective : Function.Injective latticeRank := fun s t => by
  cases s <;> cases t <;> decide

/-- `state in (CLAIMED, RUNNING)`. -/
def isClaim : TaskState → Bool
  | claimed | running => true
  | _ => false

end TaskState

/-- `FenceToken`, ordered by epoch, then peer. -/
@[ext] structure FenceToken where
  epoch : ℤ
  peerId : Str
  deriving DecidableEq

namespace FenceToken

def toPair (t : FenceToken) : ℤ ×ₗ Str := toLex (t.epoch, t.peerId)

theorem toPair_injective : Function.Injective toPair := fun a b h => by
  have h' : (a.epoch, a.peerId) = (b.epoch, b.peerId) := toLex.injective h
  exact FenceToken.ext (congrArg Prod.fst h') (congrArg Prod.snd h')

instance : LinearOrder FenceToken := LinearOrder.lift' toPair toPair_injective

/-- `next_for`: the successor token of a claiming peer. -/
def nextFor (t : FenceToken) (peerId : Str) : FenceToken := ⟨t.epoch + 1, peerId⟩

theorem lt_nextFor (t : FenceToken) (p : Str) : t < t.nextFor p :=
  Prod.Lex.toLex_lt_toLex.2 (Or.inl (by simp [nextFor]))

end FenceToken

/-! ## Records -/

/-- `TaskRecord`. -/
@[ext] structure TaskRecord where
  taskId : Str
  state : TaskState
  payload : Bytes
  result : Option Bytes := none
  error : Option Str := none
  claimedBy : Option Str := none
  fenceToken : FenceToken := ⟨0, []⟩
  leaseExpiry : ℚ := 0
  vectorClock : VectorClock := .zero
  updatedBy : Str := []
  signature : Option Bytes := none
  signerId : Option Str := none
  deriving DecidableEq

/-- `None` or a string. -/
def Json.ofOptStr : Option Str → Json
  | none => .null
  | some s => .str s

namespace TaskRecord

/-- The fields of `to_dict`. -/
def fields (r : TaskRecord) : Fields :=
  [(str "task_id", .str r.taskId),
   (str "state", .str (str r.state.value)),
   (str "payload", .str (hex r.payload)),
   (str "result", Json.ofOptStr (r.result.map hex)),
   (str "error", Json.ofOptStr r.error),
   (str "claimed_by", Json.ofOptStr r.claimedBy),
   (str "fence_token", .obj [(str "epoch", .int r.fenceToken.epoch),
      (str "peer_id", .str r.fenceToken.peerId)]),
   (str "lease_expiry", .float (.finite r.leaseExpiry)),
   (str "vector_clock", .obj r.vectorClock.toDict),
   (str "updated_by", .str r.updatedBy),
   (str "signature", Json.ofOptStr (r.signature.map hex)),
   (str "signer_id", Json.ofOptStr r.signerId)]

/-- `to_dict`. -/
def toDict (r : TaskRecord) : Json := .obj r.fields

/-! ## Decoding -/

/-- `data.get(name)`, with `None` for a missing key. -/
def get (d : Fields) (name : String) : Json := (lookup (str name) d).getD .null

def fail {α : Type} (msg : String) : Except Exn α := .error (.valueError (str msg))

def taskIdField (v : Json) : Except Exn Str :=
  match v with
  | .str s =>
    if s = [] ∨ maxTaskIdLength < s.length then
      fail "task_id is empty or exceeds the configured limit"
    else .ok s
  | _ => fail "task_id is empty or exceeds the configured limit"

def stateField (v : Json) : Except Exn TaskState :=
  match v with
  | .str s => match TaskState.ofValue s with
    | some st => .ok st
    | none => fail "unknown task state"
  | _ => fail "task state must be a string"

/-- `bytes.fromhex` with the error text of the caller. -/
def unhex (bad : String) (s : Str) : Except Exn Bytes :=
  match fromhex s with
  | some b => .ok b
  | none => fail bad

/-- A hexadecimal text of bounded length. -/
def hexText (limit : ℕ) (long bad : String) (s : Str) : Except Exn Bytes :=
  if limit < s.length then fail long else unhex bad s

def payloadField (v : Json) : Except Exn Bytes :=
  match v with
  | .str s => hexText (maxTaskPayload * 2) "task payload exceeds the configured limit"
      "task payload is not valid hexadecimal" s
  | _ => fail "task payload exceeds the configured limit"

def resultField (v : Json) : Except Exn (Option Bytes) :=
  match v with
  | .null => .ok none
  | .str s => (hexText (maxTaskResult * 2) "task result exceeds the configured limit"
      "task result is not valid hexadecimal" s).map some
  | _ => fail "task result exceeds the configured limit"

def errorField (v : Json) : Except Exn (Option Str) :=
  match v with
  | .null => .ok none
  | .str s =>
    if maxErrorLength < s.length then fail "task error exceeds the configured limit"
    else .ok (some s)
  | _ => fail "task error exceeds the configured limit"

/-- The check shared by `claimed_by`, `updated_by` and `signer_id`. -/
def peerField (label : String) (v : Json) : Except Exn (Option Str) :=
  match v with
  | .null => .ok none
  | .str s =>
    if s = [] ∨ maxPeerIdLength < s.length then fail (label ++ " is invalid") else .ok (some s)
  | _ => fail (label ++ " is invalid")

def fenceField (v : Json) : Except Exn FenceToken :=
  match v with
  | .obj ft => match get ft "epoch", get ft "peer_id" with
    | .int e, .str p =>
      if e < 0 ∨ maxPeerIdLength < p.length then fail "fence_token is invalid" else .ok ⟨e, p⟩
    | _, _ => fail "fence_token is invalid"
  | _ => fail "fence_token must be an object"

/-- An entry of a clock that the decoder refuses. -/
def badEntry (e : Str × Json) : Bool :=
  match e.2 with
  | .int n => e.1 = [] || maxPeerIdLength < e.1.length || n < 0
  | _ => true

def clockField (v : Json) : Except Exn VectorClock :=
  match v with
  | .obj kvs =>
    if 128 < kvs.length then fail "vector_clock is invalid or too large"
    else if kvs.any badEntry then fail "vector_clock contains an invalid entry"
    else .ok (VectorClock.ofFields kvs)
  | _ => fail "vector_clock is invalid or too large"

def leaseField (v : Json) : Except Exn ℚ :=
  match v with
  | .int n => match floatOfInt n with
    | some q => .ok q
    | none => .error .overflowError
  | .float (.finite q) => .ok q
  | _ => fail "lease_expiry is invalid"

def signatureField (v : Json) : Except Exn (Option Bytes) :=
  match v with
  | .null => .ok none
  | .str s =>
    if s.length ≠ 128 then fail "signature is invalid"
    else (unhex "signature is not valid hexadecimal" s).map some
  | _ => fail "signature is invalid"

/-- `from_dict` on the fields of an object. -/
def ofFields (d : Fields) : Except Exn TaskRecord := do
  let taskId ← taskIdField (get d "task_id")
  let state ← stateField (get d "state")
  let payload ← payloadField (get d "payload")
  let result ← resultField (get d "result")
  let error ← errorField (get d "error")
  let claimedBy ← peerField "claimed_by" (get d "claimed_by")
  let updatedBy ← peerField "updated_by" (get d "updated_by")
  let signerId ← peerField "signer_id" (get d "signer_id")
  let fenceToken ← fenceField (get d "fence_token")
  let vectorClock ← clockField (get d "vector_clock")
  let leaseExpiry ← leaseField (get d "lease_expiry")
  let signature ← signatureField (get d "signature")
  pure { taskId, state, payload, result, error, claimedBy, fenceToken, leaseExpiry, vectorClock,
         updatedBy := updatedBy.getD [], signature, signerId }

/-- `from_dict`. -/
def fromDict : Json → Except Exn TaskRecord
  | .obj d => ofFields d
  | _ => fail "task record must be a JSON object"

/-! ## Which records are taken back -/

/-- A peer identifier the decoder accepts. -/
def PeerIdOk (p : Str) : Prop := p ≠ [] ∧ p.length ≤ maxPeerIdLength

instance (p : Str) : Decidable (PeerIdOk p) := inferInstanceAs (Decidable (_ ∧ _))

/-- The records that `from_dict` takes back from `to_dict`. -/
structure Decodable (r : TaskRecord) : Prop where
  taskId : r.taskId ≠ [] ∧ r.taskId.length ≤ maxTaskIdLength
  payload : r.payload.length ≤ maxTaskPayload
  result : ∀ b ∈ r.result, b.length ≤ maxTaskResult
  error : ∀ e ∈ r.error, e.length ≤ maxErrorLength
  claimedBy : ∀ p ∈ r.claimedBy, PeerIdOk p
  updatedBy : PeerIdOk r.updatedBy
  signerId : ∀ p ∈ r.signerId, PeerIdOk p
  fence : 0 ≤ r.fenceToken.epoch ∧ r.fenceToken.peerId.length ≤ maxPeerIdLength
  clock : r.vectorClock.entries.length ≤ 128 ∧ ∀ e ∈ r.vectorClock.entries, PeerIdOk e.1
  signature : ∀ s ∈ r.signature, s.length = 64

instance (r : TaskRecord) : Decidable r.Decodable :=
  decidable_of_iff
    ((r.taskId ≠ [] ∧ r.taskId.length ≤ maxTaskIdLength) ∧ r.payload.length ≤ maxTaskPayload ∧
      (∀ b ∈ r.result, b.length ≤ maxTaskResult) ∧ (∀ e ∈ r.error, e.length ≤ maxErrorLength) ∧
      (∀ p ∈ r.claimedBy, PeerIdOk p) ∧ PeerIdOk r.updatedBy ∧ (∀ p ∈ r.signerId, PeerIdOk p) ∧
      (0 ≤ r.fenceToken.epoch ∧ r.fenceToken.peerId.length ≤ maxPeerIdLength) ∧
      (r.vectorClock.entries.length ≤ 128 ∧ ∀ e ∈ r.vectorClock.entries, PeerIdOk e.1) ∧
      ∀ s ∈ r.signature, s.length = 64)
    ⟨fun ⟨h1, h2, h3, h4, h5, h6, h7, h8, h9, h10⟩ => ⟨h1, h2, h3, h4, h5, h6, h7, h8, h9, h10⟩,
      fun h => ⟨h.taskId, h.payload, h.result, h.error, h.claimedBy, h.updatedBy, h.signerId,
        h.fence, h.clock, h.signature⟩⟩

section
variable (r : TaskRecord)

/-- What is asked of an identifier. -/
theorem ite_ident_eq_ok {α : Type} {s : Str} {limit : ℕ} {msg : String} {a b : α} :
    (if s = [] ∨ limit < s.length then fail msg else .ok a) = .ok b ↔
      (s ≠ [] ∧ s.length ≤ limit) ∧ b = a := by
  split_ifs with h
  · simp only [fail, reduceCtorEq, false_iff]
    rintro ⟨⟨h1, h2⟩, -⟩
    rcases h with h | h
    exacts [h1 h, not_lt.2 h2 h]
  · push Not at h
    simp [h, eq_comm]

theorem taskIdField_fields {s : Str} : taskIdField (get r.fields "task_id") = .ok s ↔
    (r.taskId ≠ [] ∧ r.taskId.length ≤ maxTaskIdLength) ∧ s = r.taskId := by
  have hg : get r.fields "task_id" = .str r.taskId := rfl
  rw [hg]
  exact ite_ident_eq_ok

theorem stateField_fields : stateField (get r.fields "state") = .ok r.state := by
  have hg : get r.fields "state" = .str (str r.state.value) := rfl
  simp only [stateField, hg, TaskState.ofValue_value]

theorem unhex_hex (bad : String) (b : Bytes) : unhex bad (hex b) = .ok b := by
  simp only [unhex, fromhex_hex]

theorem hexText_hex {limit : ℕ} {long bad : String} {b c : Bytes} :
    hexText (limit * 2) long bad (hex b) = .ok c ↔ b.length ≤ limit ∧ c = b := by
  simp only [hexText, length_hex, unhex_hex]
  split_ifs with h
  · simp only [fail, reduceCtorEq, false_iff]; omega
  · simp only [Except.ok.injEq, eq_comm (a := b)]; exact ⟨fun h' => ⟨by omega, h'⟩, fun h' => h'.2⟩

theorem payloadField_fields {b : Bytes} : payloadField (get r.fields "payload") = .ok b ↔
    r.payload.length ≤ maxTaskPayload ∧ b = r.payload := by
  have hg : get r.fields "payload" = .str (hex r.payload) := rfl
  simp only [payloadField, hg, hexText_hex]

theorem resultField_fields {b : Option Bytes} : resultField (get r.fields "result") = .ok b ↔
    (∀ x ∈ r.result, x.length ≤ maxTaskResult) ∧ b = r.result := by
  have hg : get r.fields "result" = Json.ofOptStr (r.result.map hex) := rfl
  rw [hg]
  cases r.result with
  | none => simp [Json.ofOptStr, resultField, eq_comm]
  | some c =>
    simp only [Option.map_some, Json.ofOptStr, resultField, map_eq_ok, hexText_hex, Option.mem_def,
      Option.some.injEq, forall_eq']
    exact ⟨fun ⟨a, ⟨h1, h2⟩, h3⟩ => ⟨h1, by rw [← h3, h2]⟩, fun ⟨h1, h2⟩ => ⟨c, ⟨h1, rfl⟩, h2.symm⟩⟩

theorem errorField_fields {e : Option Str} : errorField (get r.fields "error") = .ok e ↔
    (∀ x ∈ r.error, x.length ≤ maxErrorLength) ∧ e = r.error := by
  have hg : get r.fields "error" = Json.ofOptStr r.error := rfl
  rw [hg]
  cases r.error with
  | none => simp [Json.ofOptStr, errorField, eq_comm]
  | some c =>
    simp only [Json.ofOptStr, errorField, Option.mem_def, Option.some.injEq, forall_eq']
    split_ifs with h
    · simp only [fail, reduceCtorEq, false_iff]; omega
    · simp only [Except.ok.injEq, eq_comm (a := some c)]
      exact ⟨fun h' => ⟨by omega, h'⟩, fun h' => h'.2⟩

theorem peerField_eq {label : String} {p q : Option Str} :
    peerField label (Json.ofOptStr p) = .ok q ↔ (∀ x ∈ p, PeerIdOk x) ∧ q = p := by
  cases p with
  | none => simp [Json.ofOptStr, peerField, eq_comm]
  | some c =>
    simp only [Json.ofOptStr, peerField, Option.mem_def, Option.some.injEq, forall_eq', PeerIdOk]
    exact ite_ident_eq_ok

theorem fenceField_fields {t : FenceToken} : fenceField (get r.fields "fence_token") = .ok t ↔
    (0 ≤ r.fenceToken.epoch ∧ r.fenceToken.peerId.length ≤ maxPeerIdLength) ∧
      t = r.fenceToken := by
  have hg : get r.fields "fence_token" = .obj [(str "epoch", .int r.fenceToken.epoch),
      (str "peer_id", .str r.fenceToken.peerId)] := rfl
  have he : get [(str "epoch", .int r.fenceToken.epoch),
      (str "peer_id", .str r.fenceToken.peerId)] "epoch" = .int r.fenceToken.epoch := rfl
  have hp : get [(str "epoch", .int r.fenceToken.epoch),
      (str "peer_id", .str r.fenceToken.peerId)] "peer_id" = .str r.fenceToken.peerId := rfl
  simp only [fenceField, hg, he, hp]
  split_ifs with h
  · simp only [fail, reduceCtorEq, false_iff]; omega
  · push Not at h; simp [h, eq_comm]

theorem ofFields_toDict (c : VectorClock) : VectorClock.ofFields c.toDict = c := by
  have hkeys : c.toDict.map Prod.fst = c.keys := by
    simp [VectorClock.toDict, Counters.keys, Function.comp_def]
  have hl : ∀ k n, 0 < n → c.get k = n → lookup k c.toDict = some (.int n) := by
    intro k n hn h
    refine lookup_of_mem (by rw [hkeys]; exact c.nodup_keys) (List.mem_map.2 ⟨(k, n), ?_, rfl⟩)
    exact (Counters.get_eq_iff hn).1 h
  refine Counters.ext_get fun k => ?_
  rw [VectorClock.ofFields, Counters.get_ofFun, hkeys]
  split_ifs with hk
  · have hn : 0 < c.get k := Nat.pos_of_ne_zero fun h => (Counters.get_eq_zero.1 h) hk
    rw [hl k _ hn rfl]; simp [counter]
  · exact (Counters.get_eq_zero.2 hk).symm

theorem clockField_fields {c : VectorClock} : clockField (get r.fields "vector_clock") = .ok c ↔
    (r.vectorClock.entries.length ≤ 128 ∧ ∀ e ∈ r.vectorClock.entries, PeerIdOk e.1) ∧
      c = r.vectorClock := by
  have hg : get r.fields "vector_clock" = .obj r.vectorClock.toDict := rfl
  have hany : r.vectorClock.toDict.any badEntry = false ↔
      ∀ e ∈ r.vectorClock.entries, PeerIdOk e.1 := by
    simp [VectorClock.toDict, badEntry, PeerIdOk]
  have hlen : r.vectorClock.toDict.length = r.vectorClock.entries.length := by
    simp [VectorClock.toDict]
  simp only [clockField, hg, hlen, ofFields_toDict, ← hany]
  split_ifs with h1 h2
  · simp only [fail, reduceCtorEq, false_iff]; omega
  · simp [fail, h2]
  · simp only [Except.ok.injEq, eq_comm (a := r.vectorClock)]
    exact ⟨fun h => ⟨⟨by omega, by simpa using h2⟩, h⟩, fun h => h.2⟩

theorem leaseField_fields : leaseField (get r.fields "lease_expiry") = .ok r.leaseExpiry := by
  have hg : get r.fields "lease_expiry" = .float (.finite r.leaseExpiry) := rfl
  rw [hg]; rfl

theorem signatureField_fields {b : Option Bytes} : signatureField (get r.fields "signature") = .ok b ↔
    (∀ x ∈ r.signature, x.length = 64) ∧ b = r.signature := by
  have hg : get r.fields "signature" = Json.ofOptStr (r.signature.map hex) := rfl
  rw [hg]
  cases r.signature with
  | none => simp [Json.ofOptStr, signatureField, eq_comm]
  | some c =>
    simp only [Option.map_some, Json.ofOptStr, signatureField, length_hex, unhex_hex, Option.mem_def,
      Option.some.injEq, forall_eq']
    split_ifs with h
    · simp only [fail, reduceCtorEq, false_iff]; omega
    · simp only [Except.map, Except.ok.injEq, eq_comm (a := some c)]
      exact ⟨fun h' => ⟨by omega, h'⟩, fun h' => h'.2⟩

/-- What `from_dict` makes of `to_dict`: the record itself, if it is decodable. -/
theorem fromDict_toDict_iff {r' : TaskRecord} :
    fromDict r.toDict = .ok r' ↔ r.Decodable ∧ r' = r := by
  have hc : get r.fields "claimed_by" = Json.ofOptStr r.claimedBy := rfl
  have hu : get r.fields "updated_by" = Json.ofOptStr (some r.updatedBy) := rfl
  have hs : get r.fields "signer_id" = Json.ofOptStr r.signerId := rfl
  simp only [fromDict, toDict, ofFields, bind_eq_ok, taskIdField_fields, stateField_fields,
    payloadField_fields, resultField_fields, errorField_fields, hc, hu, hs, peerField_eq,
    fenceField_fields, clockField_fields, leaseField_fields, signatureField_fields]
  constructor
  · rintro ⟨_, ⟨h1, rfl⟩, _, h2, _, ⟨h3, rfl⟩, _, ⟨h4, rfl⟩, _, ⟨h5, rfl⟩, _, ⟨h6, rfl⟩, _, ⟨h7, rfl⟩,
      _, ⟨h8, rfl⟩, _, ⟨h9, rfl⟩, _, ⟨h10, rfl⟩, _, h11, _, ⟨h12, rfl⟩, h⟩
    injection h2 with h2; injection h11 with h11
    refine ⟨⟨h1, h3, h4, h5, h6, h7 _ rfl, h8, h9, h10, h12⟩, ?_⟩
    rw [← Except.ok.inj h, ← h2, ← h11]; rfl
  · rintro ⟨h, rfl⟩
    exact ⟨_, ⟨h.taskId, rfl⟩, _, rfl, _, ⟨h.payload, rfl⟩, _, ⟨h.result, rfl⟩, _, ⟨h.error, rfl⟩, _,
      ⟨h.claimedBy, rfl⟩, _, ⟨by simpa using h.updatedBy, rfl⟩, _, ⟨h.signerId, rfl⟩, _,
      ⟨h.fence, rfl⟩, _, ⟨h.clock, rfl⟩, _, rfl, _, ⟨h.signature, rfl⟩, rfl⟩

end

/-! ## What the decoder makes sure of -/

/-- The limits that a decoded record keeps. -/
structure Accepted (r : TaskRecord) : Prop where
  taskId : r.taskId ≠ [] ∧ r.taskId.length ≤ maxTaskIdLength
  payload : r.payload.length ≤ maxTaskPayload
  result : ∀ b ∈ r.result, b.length ≤ maxTaskResult
  error : ∀ e ∈ r.error, e.length ≤ maxErrorLength
  claimedBy : ∀ p ∈ r.claimedBy, PeerIdOk p
  updatedBy : r.updatedBy.length ≤ maxPeerIdLength
  signerId : ∀ p ∈ r.signerId, PeerIdOk p
  fence : 0 ≤ r.fenceToken.epoch ∧ r.fenceToken.peerId.length ≤ maxPeerIdLength
  clock : r.vectorClock.entries.length ≤ 128 ∧ ∀ e ∈ r.vectorClock.entries, PeerIdOk e.1
  signature : ∀ s ∈ r.signature, s.length ≤ 64

theorem unhex_ok {bad : String} {s : Str} {b : Bytes} (h : unhex bad s = .ok b) :
    2 * b.length ≤ s.length := by
  unfold unhex at h
  split at h
  · next hs => exact Except.ok.inj h ▸ length_fromhex s hs
  · cases h

theorem hexText_ok {limit : ℕ} {long bad : String} {s : Str} {b : Bytes}
    (h : hexText (limit * 2) long bad s = .ok b) : b.length ≤ limit := by
  unfold hexText at h
  split_ifs at h with hl
  · cases h
  · have := unhex_ok h
    omega

theorem taskIdField_ok {v : Json} {s : Str} (h : taskIdField v = .ok s) :
    s ≠ [] ∧ s.length ≤ maxTaskIdLength := by
  unfold taskIdField at h
  split at h
  · split_ifs at h with hs
    · cases h
    · rw [← Except.ok.inj h]
      push Not at hs
      exact hs
  · cases h

theorem payloadField_ok {v : Json} {b : Bytes} (h : payloadField v = .ok b) :
    b.length ≤ maxTaskPayload := by
  unfold payloadField at h
  split at h
  exacts [hexText_ok h, by cases h]

theorem map_some_ok {α : Type} {x : Except Exn α} {o : Option α} (h : x.map some = .ok o) {a : α}
    (ha : a ∈ o) : x = .ok a := by
  cases x with
  | error e => cases h
  | ok b =>
    rw [← Except.ok.inj h] at ha
    rw [Option.some.inj ha]

theorem resultField_ok {v : Json} {o : Option Bytes} (h : resultField v = .ok o) :
    ∀ b ∈ o, b.length ≤ maxTaskResult := by
  intro b hb
  unfold resultField at h
  split at h
  · rw [← Except.ok.inj h] at hb; cases hb
  · exact hexText_ok (map_some_ok h hb)
  · cases h

theorem errorField_ok {v : Json} {o : Option Str} (h : errorField v = .ok o) :
    ∀ e ∈ o, e.length ≤ maxErrorLength := by
  intro e he
  unfold errorField at h
  split at h
  · rw [← Except.ok.inj h] at he; cases he
  · split_ifs at h with hl
    · cases h
    · rw [← Except.ok.inj h] at he
      rw [← Option.some.inj he]
      exact not_lt.1 hl
  · cases h

theorem peerField_ok {label : String} {v : Json} {o : Option Str} (h : peerField label v = .ok o) :
    ∀ p ∈ o, PeerIdOk p := by
  intro p hp
  unfold peerField at h
  split at h
  · rw [← Except.ok.inj h] at hp; cases hp
  · split_ifs at h with hs
    · cases h
    · rw [← Except.ok.inj h] at hp
      rw [← Option.some.inj hp]
      push Not at hs
      exact hs
  · cases h

theorem fenceField_ok {v : Json} {t : FenceToken} (h : fenceField v = .ok t) :
    0 ≤ t.epoch ∧ t.peerId.length ≤ maxPeerIdLength := by
  unfold fenceField at h
  split at h
  · split at h
    · split_ifs at h with hs
      · cases h
      · rw [← Except.ok.inj h]
        push Not at hs
        exact hs
    · cases h
  · cases h

theorem clockField_ok {v : Json} {c : VectorClock} (h : clockField v = .ok c) :
    c.entries.length ≤ 128 ∧ ∀ e ∈ c.entries, PeerIdOk e.1 := by
  unfold clockField at h
  split at h
  · next kvs =>
    split_ifs at h with hlen hbad
    · cases h
    · cases h
    -- the entries of the clock are the positive ones of the object
    have hsub : c.keys ⊆ kvs.map Prod.fst := by
      intro k hk
      rw [← Except.ok.inj h, Counters.mem_keys, VectorClock.ofFields, Counters.get_ofFun] at hk
      by_contra hnot
      rw [if_neg hnot] at hk
      exact lt_irrefl 0 hk
    refine ⟨?_, fun e he => ?_⟩
    · have hle := (c.nodup_keys.subperm hsub).length_le
      simp only [Counters.keys, List.length_map] at hle
      omega
    · obtain ⟨x, hx, hxe⟩ := List.mem_map.1 (hsub (List.mem_map_of_mem (f := Prod.fst) he))
      have hok : badEntry x = false := by
        simp only [List.any_eq_true, not_exists, not_and, Bool.not_eq_true] at hbad
        exact hbad x hx
      unfold badEntry at hok
      split at hok
      · simp only [Bool.or_eq_false_iff, decide_eq_false_iff_not, not_lt] at hok
        exact hxe ▸ hok.1
      · cases hok
  · cases h

theorem signatureField_ok {v : Json} {o : Option Bytes} (h : signatureField v = .ok o) :
    ∀ s ∈ o, s.length ≤ 64 := by
  intro s hs
  unfold signatureField at h
  split at h
  · rw [← Except.ok.inj h] at hs; cases hs
  · split_ifs at h with hl
    · cases h
    · have := unhex_ok (map_some_ok h hs)
      omega
  · cases h

/-- A decoded record keeps the limits. -/
theorem fromDict_accepted {v : Json} {r : TaskRecord} (h : fromDict v = .ok r) : r.Accepted := by
  cases v with
  | obj d =>
    simp only [fromDict, ofFields, bind_eq_ok] at h
    obtain ⟨_, h1, _, -, _, h3, _, h4, _, h5, _, h6, up, h7, _, h8, _, h9, _, h10, _, -, _, h12, h⟩ := h
    rw [← Except.ok.inj h]
    refine ⟨taskIdField_ok h1, payloadField_ok h3, resultField_ok h4, errorField_ok h5,
      peerField_ok h6, ?_, peerField_ok h8, fenceField_ok h9, clockField_ok h10,
      signatureField_ok h12⟩
    cases up with
    | none => exact Nat.zero_le _
    | some p => exact (peerField_ok h7 p rfl).2
  | _ => cases h

/-- Nothing but a `TypeError` or `ValueError` is raised. -/
def Benign {α : Type} (x : Except Exn α) : Prop := ∀ e, x = .error e → e.isTypeOrValueError = true

theorem Benign.ok {α : Type} (a : α) : Benign (.ok a) := OnlyRaises.ok a

theorem Benign.fail {α : Type} (msg : String) : Benign (fail msg : Except Exn α) :=
  OnlyRaises.error rfl

theorem Benign.map {α β : Type} {x : Except Exn α} {f : α → β} (hx : Benign x) :
    Benign (x.map f) :=
  OnlyRaises.map hx

theorem Benign.ite {α : Type} {c : Prop} [Decidable c] {x y : Except Exn α} (hx : Benign x)
    (hy : Benign y) : Benign (if c then x else y) :=
  OnlyRaises.ite hx hy

theorem unhex_benign (bad : String) (s : Str) : Benign (unhex bad s) := by
  unfold unhex
  split
  exacts [.ok _, .fail _]

theorem stateField_benign (v : Json) : Benign (stateField v) := by
  cases v with
  | str s =>
    simp only [stateField]
    split
    exacts [.ok _, .fail _]
  | _ => exact .fail _

theorem peerField_benign (label : String) (v : Json) : Benign (peerField label v) := by
  cases v <;> first | exact .ok _ | exact .fail _ | exact .ite (.fail _) (.ok _)

theorem fenceField_benign (v : Json) : Benign (fenceField v) := by
  cases v with
  | obj ft =>
    simp only [fenceField]
    split
    exacts [.ite (.fail _) (.ok _), .fail _]
  | _ => exact .fail _

theorem clockField_benign (v : Json) : Benign (clockField v) := by
  cases v <;> first | exact .fail _ | exact .ite (.fail _) (.ite (.fail _) (.ok _))

theorem taskIdField_benign (v : Json) : Benign (taskIdField v) := by
  cases v <;> first | exact .fail _ | exact .ite (.fail _) (.ok _)

theorem payloadField_benign (v : Json) : Benign (payloadField v) := by
  cases v <;> first | exact .fail _ | exact .ite (.fail _) (unhex_benign _ _)

theorem resultField_benign (v : Json) : Benign (resultField v) := by
  cases v <;> first | exact .ok _ | exact .fail _ | exact .map (.ite (.fail _) (unhex_benign _ _))

theorem errorField_benign (v : Json) : Benign (errorField v) := by
  cases v <;> first | exact .ok _ | exact .fail _ | exact .ite (.fail _) (.ok _)

theorem signatureField_benign (v : Json) : Benign (signatureField v) := by
  cases v <;> first | exact .ok _ | exact .fail _ | exact .ite (.fail _) (.map (unhex_benign _ _))

theorem leaseField_benign {v : Json} (h : ∀ n, v = .int n → floatOfInt n ≠ none) :
    Benign (leaseField v) := by
  unfold leaseField
  split
  · next n =>
    split
    · exact .ok _
    · next hn => exact absurd hn (h n rfl)
  · exact .ok _
  · exact .fail _

/-- The lease of an encoded record is no integer beyond the floats. -/
def leaseInRange : Json → Bool
  | .obj d => match get d "lease_expiry" with
    | .int n => (floatOfInt n).isSome
    | _ => true
  | _ => true

/-- The fields of a record, with nothing to refuse in the two that are decoded last. -/
def unleased (d : Fields) : Fields :=
  (str "lease_expiry", .float (.finite 0)) :: (str "signature", .null) :: d

/-- The decoder comes to the lease, and that is an integer beyond the floats. -/
def overflows : Json → Bool
  | .obj d => (ofFields (unleased d)).toOption.isSome && !leaseInRange (.obj d)
  | _ => false

theorem leaseField_overflow {d : Fields} (h : leaseInRange (.obj d) = false) :
    leaseField (get d "lease_expiry") = .error .overflowError := by
  simp only [leaseInRange] at h
  split at h
  · next n hn =>
    unfold leaseField
    simp only [hn]
    cases hf : floatOfInt n with
    | none => rfl
    | some q => simp [hf] at h
  · cases h

/-- The other fields are those of the record. -/
theorem get_unleased (d : Fields) : get (unleased d) "task_id" = get d "task_id" ∧
    get (unleased d) "state" = get d "state" ∧ get (unleased d) "payload" = get d "payload" ∧
    get (unleased d) "result" = get d "result" ∧ get (unleased d) "error" = get d "error" ∧
    get (unleased d) "claimed_by" = get d "claimed_by" ∧
    get (unleased d) "updated_by" = get d "updated_by" ∧
    get (unleased d) "signer_id" = get d "signer_id" ∧
    get (unleased d) "fence_token" = get d "fence_token" ∧
    get (unleased d) "vector_clock" = get d "vector_clock" :=
  ⟨rfl, rfl, rfl, rfl, rfl, rfl, rfl, rfl, rfl, rfl⟩

theorem fromDict_overflow {v : Json} (h : overflows v = true) :
    fromDict v = .error .overflowError := by
  cases v with
  | obj d =>
    rw [overflows, Bool.and_eq_true, Bool.not_eq_true'] at h
    obtain ⟨r, hr⟩ := exists_ok h.1
    simp only [ofFields, bind_eq_ok, get_unleased] at hr
    obtain ⟨_, h1, _, h2, _, h3, _, h4, _, h5, _, h6, _, h7, _, h8, _, h9, _, h10, -⟩ := hr
    simp only [fromDict, ofFields, h1, h2, h3, h4, h5, h6, h7, h8, h9, h10,
      leaseField_overflow h.2]
    rfl
  | _ => cases h

/-- **What the decoder raises** is a `ValueError`, unless the lease overflows. -/
theorem fromDict_benign_iff {v : Json} : Benign (fromDict v) ↔ overflows v = false := by
  constructor
  · intro h
    by_contra hov
    exact absurd (h _ (fromDict_overflow (Bool.not_eq_false _ ▸ hov))) (by decide)
  intro h
  cases v with
  | obj d =>
    refine OnlyRaises.bind (taskIdField_benign _) fun _ h1 =>
      .bind (stateField_benign _) fun _ h2 => .bind (payloadField_benign _) fun _ h3 =>
      .bind (resultField_benign _) fun _ h4 => .bind (errorField_benign _) fun _ h5 =>
      .bind (peerField_benign _ _) fun _ h6 => .bind (peerField_benign _ _) fun _ h7 =>
      .bind (peerField_benign _ _) fun _ h8 => .bind (fenceField_benign _) fun _ h9 =>
      .bind (clockField_benign _) fun _ h10 => .bind (leaseField_benign fun n hn hnone => ?_)
      fun _ _ => .bind (signatureField_benign _) fun _ _ => .ok _
    -- everything before the lease has been decoded
    have hok : (ofFields (unleased d)).toOption.isSome = true := by
      simp only [ofFields, get_unleased, h1, h2, h3, h4, h5, h6, h7, h8, h9, h10]
      rfl
    rw [overflows, hok, Bool.true_and, Bool.not_eq_false', leaseInRange, hn] at h
    simp only [hnone] at h
    cases h
  | _ => exact .fail _

/-- The decoder raises nothing worse than a `ValueError`, unless the lease is out of range. -/
theorem fromDict_benign {v : Json} (h : leaseInRange v = true) : Benign (fromDict v) := by
  refine fromDict_benign_iff.2 ?_
  cases v with
  | obj d => rw [overflows, h, Bool.not_true, Bool.and_false]
  | _ => rfl

/-- On a record written by `to_dict` the decoder raises nothing worse than a `ValueError`. -/
theorem fromDict_toDict_error {r : TaskRecord} {e : Exn} (h : fromDict r.toDict = .error e) :
    e.isTypeOrValueError = true := by
  have hg : get r.fields "lease_expiry" = .float (.finite r.leaseExpiry) := rfl
  exact fromDict_benign (by simp only [toDict, leaseInRange, hg]) e h

/-! ## The order of the fields does not matter -/

theorem get_canon {d : Fields} (h : (d.map Prod.fst).Nodup) (name : String) :
    get (Json.sortKeys (Json.canonFields d)) name = (get d name).canon := by
  rw [get, get, Json.lookup_canon h]
  cases lookup (str name) d <;> rfl

theorem badEntry_canon (e : Str × Json) : badEntry (e.1, e.2.canon) = badEntry e := by
  obtain ⟨k, v⟩ := e; cases v <;> rfl

theorem counter_canon (v : Json) : counter v.canon = counter v := by cases v <;> rfl

theorem ofFields_canon {d : Fields} (h : (d.map Prod.fst).Nodup) :
    VectorClock.ofFields (Json.sortKeys (Json.canonFields d)) = VectorClock.ofFields d := by
  have hp := Json.sortKeys_perm (Json.canonFields d)
  have hk : (Json.canonFields d).map Prod.fst = d.map Prod.fst := by
    simp [Json.canonFields_eq, Function.comp_def]
  refine Counters.ext_get fun k => ?_
  rw [VectorClock.ofFields, VectorClock.ofFields, Counters.get_ofFun, Counters.get_ofFun,
    Json.lookup_canon h]
  simp only [(hp.map Prod.fst).mem_iff, hk]
  cases lookup k d <;> simp [counter_canon]

theorem clockField_canon {v : Json} (hv : v.wf = true) : clockField v.canon = clockField v := by
  cases v with
  | obj kvs =>
    simp only [Json.wf, Bool.and_eq_true, decide_eq_true_eq] at hv
    have hp := Json.sortKeys_perm (Json.canonFields kvs)
    have hany : (Json.sortKeys (Json.canonFields kvs)).any badEntry = kvs.any badEntry := by
      rw [hp.any_eq, Json.canonFields_eq, List.any_map]
      exact congrArg (List.any kvs) (funext badEntry_canon)
    have hlen : (Json.sortKeys (Json.canonFields kvs)).length = kvs.length := by
      rw [hp.length_eq, Json.canonFields_eq, List.length_map]
    simp only [Json.canon, clockField, hany, hlen, ofFields_canon hv.1]
  | _ => rfl

theorem fenceField_canon {v : Json} (hv : v.wf = true) : fenceField v.canon = fenceField v := by
  cases v with
  | obj kvs =>
    simp only [Json.wf, Bool.and_eq_true, decide_eq_true_eq] at hv
    simp only [Json.canon, fenceField, get_canon hv.1]
    cases get kvs "epoch" <;> cases get kvs "peer_id" <;> rfl
  | _ => rfl

theorem wf_get {d : Fields} (h : Json.wfFields d = true) (name : String) :
    (get d name).wf = true := by
  rw [get]
  cases hl : lookup (str name) d with
  | none => rfl
  | some v => exact Json.wfFields_iff.1 h _ (mem_of_lookup hl)

/-- `from_dict` reads an object by its keys. -/
theorem fromDict_canon {v : Json} (h : v.wf = true) : fromDict v.canon = fromDict v := by
  cases v with
  | obj d =>
    simp only [Json.wf, Bool.and_eq_true, decide_eq_true_eq] at h
    obtain ⟨hn, hw⟩ := h
    have hget := get_canon hn
    have hscalar : ∀ {α : Type} {f : Json → Except Exn α} (v : Json),
        (∀ xs, f (.arr xs) = f (.arr [])) → (∀ kvs, f (.obj kvs) = f (.obj [])) →
          f v.canon = f v := by
      intro α f v ha ho
      cases v with
      | arr xs => rw [Json.canon, ha, ← ha xs]
      | obj kvs => rw [Json.canon, ho, ← ho kvs]
      | _ => rfl
    have h1 := fun v => hscalar (f := taskIdField) v (fun _ => rfl) fun _ => rfl
    have h2 := fun v => hscalar (f := stateField) v (fun _ => rfl) fun _ => rfl
    have h3 := fun v => hscalar (f := payloadField) v (fun _ => rfl) fun _ => rfl
    have h4 := fun v => hscalar (f := resultField) v (fun _ => rfl) fun _ => rfl
    have h5 := fun v => hscalar (f := errorField) v (fun _ => rfl) fun _ => rfl
    have h6 := fun l v => hscalar (f := peerField l) v (fun _ => rfl) fun _ => rfl
    have h7 := fun v => hscalar (f := leaseField) v (fun _ => rfl) fun _ => rfl
    have h8 := fun v => hscalar (f := signatureField) v (fun _ => rfl) fun _ => rfl
    simp only [Json.canon, fromDict, ofFields, hget, h1, h2, h3, h4, h5, h6, h7, h8,
      fenceField_canon (wf_get hw _), clockField_canon (wf_get hw _)]
  | _ => rfl

theorem wf_clock (c : VectorClock) : (Json.obj c.toDict).wf = true := by
  simp only [Json.wf, Bool.and_eq_true, decide_eq_true_eq, Json.wfFields_iff]
  refine ⟨?_, fun kv hkv => ?_⟩
  · simpa [VectorClock.toDict, Counters.keys, Function.comp_def] using c.nodup_keys
  · obtain ⟨e, -, rfl⟩ := List.mem_map.1 hkv; rfl

theorem wf_toDict (r : TaskRecord) : r.toDict.wf = true := by
  have hkeys : (r.fields.map Prod.fst).Nodup := by
    show ([str "task_id", str "state", str "payload", str "result", str "error",
      str "claimed_by", str "fence_token", str "lease_expiry", str "vector_clock",
      str "updated_by", str "signature", str "signer_id"] : List Str).Nodup
    decide +kernel
  have hft : (Json.obj [(str "epoch", .int r.fenceToken.epoch),
      (str "peer_id", .str r.fenceToken.peerId)]).wf = true := by
    simp only [Json.wf, Json.wfFields, List.map_cons, List.map_nil, Bool.and_true, decide_eq_true_eq]
    decide +kernel
  have hopt : ∀ o, (Json.ofOptStr o).wf = true := fun o => by cases o <;> rfl
  rw [toDict, Json.wf, Bool.and_eq_true, decide_eq_true_eq, Json.wfFields_iff]
  refine ⟨hkeys, ?_⟩
  simp only [fields, List.forall_mem_cons, hopt, hft, wf_clock, true_and]
  simp [Json.wf]

end TaskRecord

def TaskRecord.pyDict (r : TaskRecord) : PyDict := ⟨r.fields, r.wf_toDict⟩

def VectorClock.pyDict (c : VectorClock) : PyDict := ⟨c.toDict, TaskRecord.wf_clock c⟩

end PeerQ
