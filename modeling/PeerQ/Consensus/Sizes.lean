/-
  How large a record is when it is written: its octets in either escaping
  (`textLength_toDict`), its entries (`items_toDict`), and which of its strings and
  integers keep it from being written at all (`plain_toDict`, `short_toDict`).
-/
import PeerQ.Lib.JsonSize
import PeerQ.Consensus

namespace PeerQ

open Py

namespace TaskRecord

/-! ## Sizes -/

/-- `null` or a string. -/
def optSize (len : Str → ℕ) : Option Str → ℕ
  | none => 4
  | some s => len s + 2

/-- `null` or octets in hexadecimal. -/
def hexSize : Option Bytes → ℕ
  | none => 4
  | some b => 2 * b.length + 2

/-- The counters of a clock, with the commas between them and the braces. -/
def clockSize (len : Str → ℕ) (c : VectorClock) : ℕ :=
  (c.entries.map fun e => len e.1 + 3 + (Json.intText e.2).length).sum + (c.entries.length - 1) + 2

/-- The octets of a record in a text where `num` gives the lengths of floats and `len` those of the
    inside of strings; 183 of them are names, quotes, colons, commas and braces. -/
def size (num : ℚ → ℕ) (len : Str → ℕ) (r : TaskRecord) : ℕ :=
  183 + len r.taskId + r.state.value.length + 2 * r.payload.length + hexSize r.result +
    optSize len r.error + optSize len r.claimedBy + (Json.intText r.fenceToken.epoch).length +
    len r.fenceToken.peerId + num r.leaseExpiry + clockSize len r.vectorClock + len r.updatedBy +
    hexSize r.signature + optSize len r.signerId

/-- The strings of a record that are free text. -/
def strings (r : TaskRecord) : List Str :=
  [r.taskId, r.fenceToken.peerId, r.updatedBy] ++ r.error.toList ++ r.claimedBy.toList ++
    r.signerId.toList ++ r.vectorClock.keys

/-- The counters of a clock, as integers of a text. -/
def counters (c : VectorClock) : List ℤ := c.entries.map fun e => (e.2 : ℤ)

/-- The integers of a record. -/
def integers (r : TaskRecord) : List ℤ := r.fenceToken.epoch :: counters r.vectorClock

section
variable {r : TaskRecord} {fl : PyFloat → Bytes} {txt : Str → Bytes}

theorem textLength_ofOptStr (s : Option Str) :
    Json.textLength fl txt (Json.ofOptStr s) = optSize (fun s => (txt s).length) s := by
  cases s with
  | none => rfl
  | some s => exact Json.textLength_str fl txt s

theorem textLength_clock (c : VectorClock) :
    Json.textLength fl txt (.obj c.toDict) = clockSize (fun s => (txt s).length) c := by
  rw [Json.textLength_obj, VectorClock.toDict, List.map_map, List.length_map]
  rfl

/-- **The text of a record** is as long as its size. -/
theorem textLength_toDict (htxt : ∀ s, Json.simple s = true → (txt s).length = s.length) :
    Json.textLength fl txt r.toDict =
      r.size (fun q => (fl (.finite q)).length) fun s => (txt s).length := by
  have hnames : ∀ kv ∈ r.fields, (txt kv.1).length = kv.1.length := by
    have hsimple : ∀ k ∈ r.fields.map Prod.fst, Json.simple k = true := by
      show ∀ k ∈ [str "task_id", str "state", str "payload", str "result", str "error",
        str "claimed_by", str "fence_token", str "lease_expiry", str "vector_clock",
        str "updated_by", str "signature", str "signer_id"], Json.simple k = true
      decide
    exact fun kv hkv => htxt _ (hsimple _ (List.mem_map_of_mem hkv))
  have htoken : Json.textLength fl txt (.obj [(str "epoch", .int r.fenceToken.epoch),
      (str "peer_id", .str r.fenceToken.peerId)]) =
        (Json.intText r.fenceToken.epoch).length + (txt r.fenceToken.peerId).length + 23 := by
    have h1 : (txt (str "epoch")).length = 5 := htxt _ (by decide)
    have h2 : (txt (str "peer_id")).length = 7 := htxt _ (by decide)
    simp only [Json.textLength_obj, Json.fieldLength, List.map_cons, List.map_nil, List.sum_cons,
      List.sum_nil, List.length_cons, List.length_nil, Json.textLength_int, Json.textLength_str, h1, h2]
    omega
  have hhex : ∀ b : Bytes, (txt (hex b)).length = 2 * b.length :=
    fun b => (htxt _ (Json.simple_hex b)).trans (length_hex b)
  have hopt : ∀ b : Option Bytes, optSize (fun s => (txt s).length) (b.map hex) = hexSize b := by
    rintro (_ | b)
    · rfl
    · simp only [Option.map_some, optSize, hexSize, hhex]
  have hstate : (txt (str r.state.value)).length = r.state.value.length := by
    have hsimple : ∀ s : TaskState, Json.simple (str s.value) = true ∧
        (str s.value).length = s.value.length := by
      rintro (_ | _ | _ | _ | _) <;> decide
    exact (htxt _ (hsimple _).1).trans (hsimple _).2
  have hlengths : (str "task_id").length = 7 ∧ (str "state").length = 5 ∧
      (str "payload").length = 7 ∧ (str "result").length = 6 ∧ (str "error").length = 5 ∧
      (str "claimed_by").length = 10 ∧ (str "fence_token").length = 11 ∧
      (str "lease_expiry").length = 12 ∧ (str "vector_clock").length = 12 ∧
      (str "updated_by").length = 10 ∧ (str "signature").length = 9 ∧
      (str "signer_id").length = 9 := by decide
  rw [toDict, Json.textLength_obj_of fl txt hnames]
  simp only [fields, List.map_cons, List.map_nil, List.sum_cons, List.sum_nil, List.length_cons,
    List.length_nil, Json.textLength_str, Json.textLength_float, textLength_ofOptStr, htoken,
    textLength_clock, hhex, hopt, hstate, hlengths, size]
  omega

/-! ## Strings -/

theorem taskId_mem_strings : r.taskId ∈ r.strings := by simp [strings]

theorem names_ok : ∀ k ∈ r.fields.map Prod.fst ++ [str "epoch", str "peer_id"],
    k.valid = true ∧ k.length ≤ 128 := by
  show ∀ k ∈ [str "task_id", str "state", str "payload", str "result", str "error",
    str "claimed_by", str "fence_token", str "lease_expiry", str "vector_clock", str "updated_by",
    str "signature", str "signer_id", str "epoch", str "peer_id"], k.valid = true ∧ k.length ≤ 128
  decide

theorem state_ok : ∀ s : TaskState, (str s.value).valid = true ∧ (str s.value).length ≤ 128 := by
  rintro (_ | _ | _ | _ | _) <;> decide

theorem plain_clock (c : VectorClock) :
    (Json.obj c.toDict).plain = true ↔ ∀ k ∈ c.keys, k.valid = true := by
  rw [Json.plain, Json.plainFields_iff, VectorClock.toDict, Counters.keys, List.forall_mem_map,
    List.forall_mem_map]
  exact forall₂_congr fun e _ => and_iff_left rfl

/-- **A record can be written** if its strings have no surrogates. -/
theorem plain_toDict : r.toDict.plain = true ↔ ∀ s ∈ r.strings, s.valid = true := by
  have hnames : ∀ kv ∈ r.fields, kv.1.valid = true := fun kv hkv =>
    (names_ok (r := r) kv.1 (List.mem_append_left _ (List.mem_map_of_mem hkv))).1
  have hopt : ∀ s : Option Str, (Json.ofOptStr s).plain = true ↔ ∀ t ∈ s, t.valid = true := by
    rintro (_ | s) <;> simp [Json.ofOptStr, Json.plain]
  have hhex : ∀ b : Option Bytes, (Json.ofOptStr (b.map hex)).plain = true := by
    rintro (_ | b)
    exacts [rfl, hex_valid b]
  have htoken : (Json.obj [(str "epoch", .int r.fenceToken.epoch),
      (str "peer_id", .str r.fenceToken.peerId)]).plain = r.fenceToken.peerId.valid := by
    have h1 : (str "epoch").valid = true := (names_ok (r := r) _ (by simp)).1
    have h2 : (str "peer_id").valid = true := (names_ok (r := r) _ (by simp)).1
    simp [Json.plain, Json.plainFields, h1, h2]
  have hvalues : r.toDict.plain = true ↔ ∀ kv ∈ r.fields, kv.2.plain = true := by
    rw [toDict, Json.plain, Json.plainFields_iff]
    exact forall₂_congr fun kv hkv => and_iff_right (hnames kv hkv)
  have hstr : ∀ s : Str, (Json.str s).plain = s.valid := fun _ => rfl
  have hfloat : ∀ q, (Json.float (.finite q)).plain = true := fun _ => rfl
  rw [hvalues]
  simp only [fields, strings, List.forall_mem_cons, List.forall_mem_append, hstr, hopt, hhex, htoken,
    plain_clock, hfloat, hex_valid, (state_ok _).1, Option.mem_toList, true_and]
  constructor
  · rintro ⟨h1, h2, h3, h4, h5, h6, h7, -⟩
    exact ⟨⟨⟨⟨⟨h1, h4, h6, by simp⟩, h2⟩, h3⟩, h7⟩, h5⟩
  · rintro ⟨⟨⟨⟨⟨h1, h4, h6, -⟩, h2⟩, h3⟩, h7⟩, h5⟩
    exact ⟨h1, h2, h3, h4, h5, h6, h7, by simp⟩

theorem short_clock (c : VectorClock) :
    (Json.obj c.toDict).short = true ↔ ∀ n ∈ counters c, Json.shortInt n = true := by
  rw [Json.short, Json.shortFields_iff, VectorClock.toDict, counters, List.forall_mem_map,
    List.forall_mem_map]
  exact Iff.rfl

/-- No integer of a record but its epoch and the counters of its clock can be too long. -/
theorem short_toDict : r.toDict.short = true ↔ ∀ n ∈ r.integers, Json.shortInt n = true := by
  have hopt : ∀ s : Option Str, (Json.ofOptStr s).short = true := by rintro (_ | s) <;> rfl
  rw [toDict, Json.short, Json.shortFields_iff, integers, List.forall_mem_cons, ← short_clock]
  simp [fields, Json.short, Json.shortFields, hopt]

/-- A record within the limits of its fields is within the limits of a frame wherever it stands. -/
theorem bounded_toDict {D d : ℕ} (ha : r.Accepted) (hd : d + 2 ≤ D) :
    Json.bounded D maxFrameSize d r.toDict = r.toDict.plain := by
  have hstr : ∀ {s : Str} {k : ℕ}, k ≤ D → s.length ≤ 4096 →
      Json.bounded D maxFrameSize k (.str s) = s.valid := by
    intro s k hk hs
    have hlen := Str.length_utf8_le s
    exact Json.bounded_str_eq hk (hlen.trans (by show 4 * s.length ≤ 256 * 1024; omega))
  have hopt : ∀ s : Option Str, (∀ t ∈ s, t.length ≤ 4096) →
      Json.bounded D maxFrameSize (d + 1) (Json.ofOptStr s) = (Json.ofOptStr s).plain := by
    rintro (_ | s) hs
    · simp [Json.ofOptStr, Json.bounded, Json.plain]; omega
    · exact hstr (by omega) (hs s rfl)
  have hhex : ∀ b : Bytes, b.length ≤ 64 * 1024 →
      Json.bounded D maxFrameSize (d + 1) (.str (hex b)) = (hex b).valid := by
    intro b hb
    refine Json.bounded_str_eq (by omega) ?_
    rw [Json.length_utf8_simple (Json.simple_hex b), length_hex]
    show 2 * b.length ≤ 256 * 1024
    omega
  have hopthex : ∀ b : Option Bytes, (∀ t ∈ b, t.length ≤ 64 * 1024) →
      Json.bounded D maxFrameSize (d + 1) (Json.ofOptStr (b.map hex)) =
        (Json.ofOptStr (b.map hex)).plain := by
    rintro (_ | b) hb
    · exact hopt none (by simp)
    · exact hhex b (hb b rfl)
  have hnum : ∀ {k : ℕ}, k ≤ D → (∀ n, Json.bounded D maxFrameSize k (.int n) = true) ∧
      ∀ q, Json.bounded D maxFrameSize k (.float (.finite q)) = true := by
    intro k hk
    simp [Json.bounded, hk]
  have hepoch : (str "epoch").length ≤ 4096 := by decide
  have hpeerId : (str "peer_id").length ≤ 4096 := by decide
  have hpeer : ∀ p : Option Str, (∀ s ∈ p, PeerIdOk s) → ∀ s ∈ p, s.length ≤ 4096 :=
    fun p hp s hs => (hp s hs).2.trans (by decide)
  refine Json.bounded_obj_eq (by omega) fun kv hkv => ⟨?_, ?_⟩
  · exact hstr (by omega) ((names_ok (r := r) kv.1
      (List.mem_append_left _ (List.mem_map_of_mem hkv))).2.trans (by decide))
  simp only [fields, List.mem_cons, List.not_mem_nil, or_false] at hkv
  rcases hkv with rfl | rfl | rfl | rfl | rfl | rfl | rfl | rfl | rfl | rfl | rfl | rfl
  · exact hstr (by omega) (ha.taskId.2.trans (by decide))
  · exact hstr (by omega) ((state_ok _).2.trans (by decide))
  · exact hhex _ ha.payload
  · exact hopthex _ ha.result
  · exact hopt _ ha.error
  · exact hopt _ (hpeer _ ha.claimedBy)
  · refine Json.bounded_obj_eq (by omega) fun kv hkv => ?_
    simp only [List.mem_cons, List.not_mem_nil, or_false] at hkv
    rcases hkv with rfl | rfl
    · exact ⟨hstr (by omega) hepoch, (hnum (by omega)).1 _⟩
    · exact ⟨hstr (by omega) hpeerId, hstr (by omega) (ha.fence.2.trans (by decide))⟩
  · exact (hnum (by omega)).2 _
  · refine Json.bounded_obj_eq (by omega) fun kv hkv => ?_
    obtain ⟨e, he, rfl⟩ := List.mem_map.1 hkv
    exact ⟨hstr (by omega) ((ha.clock.2 e he).2.trans (by decide)), (hnum (by omega)).1 _⟩
  · exact hstr (by omega) (ha.updatedBy.trans (by decide))
  · exact hopthex _ fun s hs => (ha.signature s hs).trans (by decide)
  · exact hopt _ (hpeer _ ha.signerId)

theorem items_clock (c : VectorClock) : (Json.obj c.toDict).items = c.entries.length := by
  rw [Json.items, Json.itemsFields_eq, VectorClock.toDict, List.length_map, List.map_map]
  have hzero : (c.entries.map ((fun kv : Str × Json => kv.2.items) ∘
      fun e => (e.1, Json.int e.2))).sum = 0 := by
    rw [List.sum_eq_zero]
    intro n hn
    obtain ⟨e, -, rfl⟩ := List.mem_map.1 hn
    rfl
  rw [hzero, Nat.add_zero]

/-- The entries of a record: twelve fields, two of the token and those of the clock. -/
theorem items_toDict (r : TaskRecord) : r.toDict.items = 14 + r.vectorClock.entries.length := by
  have hopt : ∀ s, (Json.ofOptStr s).items = 0 := by rintro (_ | s) <;> rfl
  rw [toDict, Json.items, Json.itemsFields_eq]
  simp only [fields, List.map_cons, List.map_nil, List.sum_cons, List.sum_nil, List.length_cons,
    List.length_nil, hopt, items_clock]
  simp only [Json.items, Json.itemsFields, List.length_cons, List.length_nil]
  omega

end

end TaskRecord

end PeerQ
