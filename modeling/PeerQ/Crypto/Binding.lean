/-
  What a signature of a record covers.

  The signed text is a JSON object with the fields of a record in it, the lease
  rounded to six decimals.  For strings without surrogates a JSON text determines
  its value, and the forms of the single fields (hexadecimal, `null` or a string,
  sorted pairs of a clock) determine the fields, so the text determines all of
  them (`canonicalTaskBytes_eq_iff`).
-/
import PeerQ.Crypto
import PeerQ.Consensus.Sizes

namespace PeerQ

open Py

/-! ## The forms of the fields -/

theorem Json.ofOptStr_inj {s t : Option Str} (h : Json.ofOptStr s = Json.ofOptStr t) : s = t := by
  cases s with
  | none =>
    cases t with
    | none => rfl
    | some t => cases h
  | some s =>
    cases t with
    | none => cases h
    | some t => rw [Json.str.inj h]

theorem hex_injective : Function.Injective hex := by
  intro a b h
  have hread := fromhex_hex a
  rw [h, fromhex_hex b] at hread
  exact (Option.some.inj hread).symm

theorem TaskState.value_injective : Function.Injective fun s : TaskState => str s.value := by
  intro s t h
  have hread := TaskState.ofValue_value s
  rw [show str s.value = str t.value from h, TaskState.ofValue_value t] at hread
  exact (Option.some.inj hread).symm

theorem natText_valid (n : ℕ) : (natText n).valid = true := by
  have hdigit : ∀ d < 10, CodePoint.surrogate (Fin.ofNat _ (0x30 + d)) = false := by
    decide
  simp only [natText, Str.valid, List.all_map, List.all_eq_true, Function.comp_apply,
    Bool.not_eq_true']
  intro d hd
  exact hdigit d (decimal_lt hd)

theorem fixed6_valid (q : ℚ) : (fixed6 q).valid = true := by
  have happend : ∀ s t : Str, s.valid = true → t.valid = true → (s ++ t).valid = true := by
    intro s t hs ht
    rw [Str.valid] at hs ht ⊢
    rw [List.all_append, hs, ht, Bool.and_self]
  have hsign : (if q < 0 then str "-" else [] : Str).valid = true := by
    split_ifs
    · decide
    · rfl
  have hzeros : ∀ n, Str.valid (List.replicate n 0x30) = true := by
    intro n
    rw [Str.valid, List.all_replicate]
    split_ifs
    · rfl
    · decide
  unfold fixed6
  exact happend _ _ (happend _ _ (happend _ _ (happend _ _ hsign (natText_valid _))
    (by decide)) (hzeros _)) (natText_valid _)

namespace TaskRecord

theorem clockItems_injective : Function.Injective clockItems := by
  intro c c' h
  have hentry : Function.Injective fun e : Str × ℕ => Json.arr [.str e.1, .int e.2] := by
    intro e e' he
    simp only [Json.arr.injEq, List.cons.injEq, Json.str.injEq, Json.int.injEq, Nat.cast_inj,
      and_true] at he
    exact Prod.ext he.1 he.2
  exact Counters.ext (hentry.list_map h)

/-! ## The signed text -/

/-- The document that is signed is plain for records whose strings have no surrogates. -/
theorem plain_signedDocument {r : TaskRecord} (h : ∀ s ∈ r.strings, s.valid = true) :
    r.signedDocument.plain = true := by
  have hnames : ∀ k ∈ [str "claimed_by", str "error", str "fence_epoch", str "fence_peer",
      str "lease_expiry", str "payload", str "result", str "signer_id", str "state", str "task_id",
      str "updated_by", str "vector_clock"], k.valid = true := by decide
  have hopt : ∀ s : Option Str, (∀ t ∈ s, t ∈ r.strings) → (Json.ofOptStr s).plain = true := by
    rintro (_ | s) hs
    · rfl
    · exact h s (hs s rfl)
  have hhex : ∀ b : Option Bytes, (Json.ofOptStr (b.map hex)).plain = true := by
    rintro (_ | b)
    · rfl
    · exact hex_valid b
  have hclock : (Json.arr (clockItems r.vectorClock)).plain = true := by
    rw [Json.plain, Json.plainElems_iff, clockItems, List.forall_mem_map]
    intro e he
    have hk : e.1 ∈ r.vectorClock.keys := List.mem_map_of_mem he
    simp [Json.plain, Json.plainElems, h e.1 (by simp [strings, hk])]
  rw [signedDocument, Json.plain, Json.plainFields_iff]
  intro kv hkv
  refine ⟨hnames kv.1 (List.mem_map_of_mem (f := Prod.fst) hkv), ?_⟩
  simp only [signedFields, List.cons_append, List.nil_append, List.mem_cons, List.not_mem_nil,
    or_false] at hkv
  rcases hkv with rfl | rfl | rfl | rfl | rfl | rfl | rfl | rfl | rfl | rfl | rfl | rfl
  · exact hopt _ fun t ht => by simp [strings, Option.mem_def.1 ht]
  · exact hopt _ fun t ht => by simp [strings, Option.mem_def.1 ht]
  · rfl
  · exact h _ (by simp [strings])
  · exact fixed6_valid _
  · exact hex_valid _
  · exact hhex _
  · exact hopt _ fun t ht => by simp [strings, Option.mem_def.1 ht]
  · exact (state_ok _).1
  · exact h _ (by simp [strings])
  · exact h _ (by simp [strings])
  · exact hclock

/-- Two records agree on what is signed: every field but the signature, the lease as its text. -/
structure SignedAlike (r r' : TaskRecord) : Prop where
  taskId : r.taskId = r'.taskId
  state : r.state = r'.state
  payload : r.payload = r'.payload
  result : r.result = r'.result
  error : r.error = r'.error
  claimedBy : r.claimedBy = r'.claimedBy
  epoch : r.fenceToken.epoch = r'.fenceToken.epoch
  fencePeer : r.fenceToken.peerId = r'.fenceToken.peerId
  vectorClock : r.vectorClock = r'.vectorClock
  updatedBy : r.updatedBy = r'.updatedBy
  signerId : r.signerId = r'.signerId
  lease : fixed6 r.leaseExpiry = fixed6 r'.leaseExpiry

theorem signedDocument_eq_iff {r r' : TaskRecord} :
    r.signedDocument = r'.signedDocument ↔ r.SignedAlike r' := by
  constructor
  · intro h
    have hf := Json.obj.inj h
    simp only [signedFields, List.cons_append, List.nil_append, List.cons.injEq, Prod.mk.injEq,
      true_and, and_true, Json.int.injEq, Json.str.injEq, Json.arr.injEq] at hf
    obtain ⟨hclaimed, herror, hepoch, hpeer, hlease, hpayload, hresult, hsigner, hstate, hid,
      hupdated, hclock⟩ := hf
    exact ⟨hid, TaskState.value_injective hstate, hex_injective hpayload,
      Option.map_injective hex_injective (Json.ofOptStr_inj hresult), Json.ofOptStr_inj herror,
      Json.ofOptStr_inj hclaimed, hepoch, hpeer, clockItems_injective hclock, hupdated,
      Json.ofOptStr_inj hsigner, hlease⟩
  · intro h
    rw [signedDocument, signedDocument, signedFields, signedFields, h.taskId, h.state, h.payload,
      h.result, h.error, h.claimedBy, h.epoch, h.fencePeer, h.vectorClock, h.updatedBy, h.signerId,
      h.lease]

end TaskRecord

/-- **A signature binds the record**: two records whose strings have no surrogates have one signed
    text exactly if they agree on every signed field, the lease to six decimals. -/
theorem canonicalTaskBytes_eq_iff {R : Runtime} {r r' : TaskRecord}
    (h : ∀ s ∈ r.strings, s.valid = true) (h' : ∀ s ∈ r'.strings, s.valid = true) :
    canonicalTaskBytes R r = canonicalTaskBytes R r' ↔ r.SignedAlike r' := by
  rw [← TaskRecord.signedDocument_eq_iff]
  constructor
  · intro heq
    simp only [canonicalTaskBytes, Codec.dumps, Json.dumps, canon_signedDocument] at heq
    exact Json.print_inj R.json.floatRepr_text _ (TaskRecord.plain_signedDocument h)
      (TaskRecord.plain_signedDocument h') heq
  · intro heq
    rw [canonicalTaskBytes, canonicalTaskBytes, heq]

namespace TaskRecord.Sample

/-- A claimed record with a payload. -/
def signable (payload : Bytes) : TaskRecord where
  taskId := str "t"
  state := .claimed
  payload := payload
  claimedBy := some (str "a")
  fenceToken := ⟨1, str "a"⟩
  updatedBy := str "a"

end TaskRecord.Sample

theorem canonicalTaskBytes_changed :
    canonicalTaskBytes (.ofScheme .suffix) (TaskRecord.Sample.signable [1]) ≠
      canonicalTaskBytes (.ofScheme .suffix) (TaskRecord.Sample.signable [2]) := by
  intro h
  have halike := (canonicalTaskBytes_eq_iff (by decide) (by decide)).1 h
  exact absurd halike.payload (by decide)

end PeerQ
