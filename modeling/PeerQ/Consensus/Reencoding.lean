/-
  Records that were read, written again.

  `from_dict` normalises: a missing updater becomes the empty string, and white
  space between the octets of a hexadecimal text is dropped after the length of
  the text was checked.  `to_dict` writes what is left, and of that `from_dict`
  takes an empty updater and a signature of less than 64 octets no more.  All
  other fields come back (`Accepted.decodable_iff`), so `reencoded_iff` is exact.
-/
import PeerQ.Consensus

namespace PeerQ

open Py

/-! ## White space in hexadecimal text -/

theorem isSpace_of_hexVal {c : CodePoint} {n : ℕ} (h : hexVal c = some n) : isSpace c = false := by
  unfold hexVal at h
  simp only [isSpace, Bool.or_eq_false_iff, beq_eq_false_iff_ne, Bool.and_eq_false_iff,
    decide_eq_false_iff_not]
  split_ifs at h <;> omega

/-- A hexadecimal text is twice as long as what it says exactly if it has no white space. -/
theorem fromhex_full_iff : ∀ (s : Str) {bs : Bytes}, fromhex s = some bs →
    (2 * bs.length = s.length ↔ s.any isSpace = false)
  | [], bs, h => by
    obtain rfl := Option.some.inj h
    simp
  | [c], bs, h => by
    rw [fromhex] at h
    split_ifs at h with hc
    obtain rfl := Option.some.inj h
    simp [hc]
  | c :: d :: s, bs, h => by
    rw [fromhex] at h
    split_ifs at h with hc
    · have hle := length_fromhex (d :: s) h
      simp only [List.any_cons, hc, Bool.true_or, Bool.true_eq_false, iff_false]
      rw [List.length_cons]
      omega
    · split at h
      · next hi lo hhi hlo =>
        obtain ⟨bs', hs, rfl⟩ := Option.map_eq_some_iff.1 h
        have ih := fromhex_full_iff s hs
        rw [List.any_cons, List.any_cons, isSpace_of_hexVal hhi, isSpace_of_hexVal hlo,
          Bool.false_or, Bool.false_or, ← ih]
        simp only [List.length_cons]
        omega
      · cases h

namespace TaskRecord

/-! ## The fields that do not come back -/

/-- What the decoder makes sure of is all that re-encoding needs, but for updater and signature. -/
theorem Accepted.decodable_iff {r : TaskRecord} (h : r.Accepted) :
    r.Decodable ↔ r.updatedBy ≠ [] ∧ ∀ s ∈ r.signature, s.length = 64 := by
  constructor
  · intro hd
    exact ⟨hd.updatedBy.1, hd.signature⟩
  · rintro ⟨hup, hsig⟩
    exact ⟨h.taskId, h.payload, h.result, h.error, h.claimedBy, ⟨hup, h.updatedBy⟩, h.signerId,
      h.fence, h.clock, hsig⟩

/-- The encoded record names its updater. -/
def namesUpdater (d : Fields) : Bool :=
  match get d "updated_by" with
  | .null => false
  | _ => true

/-- The signature of the encoded record, if there is one, is written without white space. -/
def compactSignature (d : Fields) : Bool :=
  match get d "signature" with
  | .str s => !s.any isSpace
  | _ => true

/-- An encoded record of which nothing is lost in reading it. -/
def reencodes : Json → Bool
  | .obj d => namesUpdater d && compactSignature d
  | _ => true

theorem updatedBy_ne_iff {d : Fields} {up : Option Str}
    (h : peerField "updated_by" (get d "updated_by") = .ok up) :
    up.getD [] ≠ [] ↔ namesUpdater d = true := by
  unfold namesUpdater
  cases hv : get d "updated_by" with
  | null =>
    rw [hv] at h
    obtain rfl := Except.ok.inj h
    simp
  | str s =>
    rw [hv, peerField] at h
    split_ifs at h with hs
    · cases h
    · obtain rfl := Except.ok.inj h
      push Not at hs
      simpa using hs.1
  | _ =>
    rw [hv] at h
    cases h

theorem signature_full_iff {d : Fields} {sig : Option Bytes}
    (h : signatureField (get d "signature") = .ok sig) :
    (∀ s ∈ sig, s.length = 64) ↔ compactSignature d = true := by
  unfold compactSignature
  cases hv : get d "signature" with
  | null =>
    rw [hv] at h
    obtain rfl := Except.ok.inj h
    simp
  | str s =>
    rw [hv, signatureField] at h
    split_ifs at h with hlen
    · cases h
    · unfold unhex at h
      split at h
      · next bs hbs =>
        obtain rfl := Except.ok.inj h
        have hfull := fromhex_full_iff s hbs
        simp only [Option.mem_def, Option.some.injEq, forall_eq', Bool.not_eq_true', ← hfull]
        omega
      · cases h
  | _ =>
    rw [hv] at h
    cases h

/-- **Which accepted records survive re-encoding**: those whose encoding named an updater and had no
    white space in the signature. -/
theorem reencoded_iff {v : Json} {r : TaskRecord} (h : fromDict v = .ok r) :
    fromDict r.toDict = .ok r ↔ reencodes v = true := by
  rw [fromDict_toDict_iff, and_iff_left rfl, (fromDict_accepted h).decodable_iff]
  cases v with
  | obj d =>
    simp only [fromDict, ofFields, bind_eq_ok] at h
    obtain ⟨_, -, _, -, _, -, _, -, _, -, _, -, up, hup, _, -, _, -, _, -, _, -, sig, hsig, h⟩ := h
    obtain rfl := Except.ok.inj h
    rw [reencodes, Bool.and_eq_true]
    exact and_congr (updatedBy_ne_iff hup) (signature_full_iff hsig)
  | _ => cases h

namespace Sample

/-- An encoded record, with an updater or without. -/
def encoded (updatedBy : Json) : Json :=
  .obj [(str "task_id", .str (str "t")), (str "state", .str (str "pending")),
    (str "payload", .str []), (str "fence_token", .obj [(str "epoch", .int 0),
      (str "peer_id", .str [])]), (str "lease_expiry", .int 0), (str "vector_clock", .obj []),
    (str "updated_by", updatedBy)]

/-- What the decoder reads. -/
def decoded (updatedBy : Str) : TaskRecord :=
  { taskId := str "t", state := .pending, payload := [], updatedBy }

theorem fromDict_encoded : fromDict (encoded (.str (str "a"))) = .ok (decoded (str "a")) := by
  decide +kernel

end Sample

theorem reencoded_named :
    fromDict (Sample.decoded (str "a")).toDict = .ok (Sample.decoded (str "a")) :=
  (reencoded_iff Sample.fromDict_encoded).2 (by decide)

/-- A record without an updater is accepted, but not in the form it is relayed in. -/
theorem reencoded_refused :
    ¬ ∀ (v : Json) (r : TaskRecord), fromDict v = .ok r → fromDict r.toDict = .ok r := by
  intro h
  have hread : fromDict (Sample.encoded .null) = .ok (Sample.decoded []) := by decide +kernel
  obtain ⟨hd, -⟩ := (fromDict_toDict_iff _).1 (h _ _ hread)
  exact hd.updatedBy.1 rfl

end TaskRecord

end PeerQ
