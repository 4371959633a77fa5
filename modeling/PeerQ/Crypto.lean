/-
  Signatures of task records (`peerq/crypto.py`).

  Ed25519 and the interpreter's `json` are parameters (`Runtime`).  What is
  signed is the canonical text of a record without its signature
  (`canonicalTaskBytes`); it covers the vector clock (`canonicalTaskBytes_clock`),
  so a record that verifies does not verify with a larger clock
  (`authorization_clock`).
-/
import PeerQ.Consensus

namespace PeerQ

open Py

/-! ## Keys -/

/-- Ed25519, keys and signatures as octets: the public key of a seed, signing, verifying. -/
structure Ed25519 where
  publicKey : Bytes → Bytes
  sign : Bytes → Bytes → Bytes
  verify : Bytes → Bytes → Bytes → Bool

/-- Signing then verifying succeeds, and signatures have 64 octets. -/
structure Ed25519.Lawful (E : Ed25519) : Prop where
  verify_sign : ∀ seed data, E.verify (E.publicKey seed) (E.sign seed data) data = true
  length_sign : ∀ seed data, (E.sign seed data).length = 64

/-- One signature verifies under one key for at most one octet string. -/
def Ed25519.Binding (E : Ed25519) : Prop :=
  ∀ key sig data data', E.verify key sig data = true → E.verify key sig data' = true → data = data'

/-- What the program takes from outside: `json`, Ed25519, and SHA-256. -/
structure Runtime where
  json : Codec
  ed25519 : Ed25519
  sha256 : Bytes → Bytes

/-- `PeerKeyRing`: the public keys of the authorised peers. -/
structure PeerKeyRing where
  keys : Dict Str Bytes

namespace PeerKeyRing

def hasPeer (K : PeerKeyRing) (peerId : Str) : Bool := K.keys.has peerId

def getPeerKey (K : PeerKeyRing) (peerId : Str) : Option Bytes := K.keys.get peerId

/-- `verify`: the peer's key, a signature of 64 octets, and Ed25519's answer. -/
def verify (R : Runtime) (K : PeerKeyRing) (peerId : Str) (signature data : Bytes) : Bool :=
  match K.getPeerKey peerId with
  | none => false
  | some key => if signature.length ≠ 64 then false else R.ed25519.verify key signature data

end PeerKeyRing

/-! ## Signing records -/

namespace TaskRecord

/-- The items of a clock, sorted, as JSON arrays. -/
def clockItems (c : VectorClock) : List Json := c.entries.map fun e => .arr [.str e.1, .int e.2]

/-- The document of `canonical_task_bytes`, all fields but the clock. -/
def signedFields (r : TaskRecord) : Fields :=
  [(str "claimed_by", Json.ofOptStr r.claimedBy),
   (str "error", Json.ofOptStr r.error),
   (str "fence_epoch", .int r.fenceToken.epoch),
   (str "fence_peer", .str r.fenceToken.peerId),
   (str "lease_expiry", .str (fixed6 r.leaseExpiry)),
   (str "payload", .str (hex r.payload)),
   (str "result", Json.ofOptStr (r.result.map hex)),
   (str "signer_id", Json.ofOptStr r.signerId),
   (str "state", .str (str r.state.value)),
   (str "task_id", .str r.taskId),
   (str "updated_by", .str r.updatedBy)]

/-- The document that is signed. -/
def signedDocument (r : TaskRecord) : Json :=
  .obj (r.signedFields ++ [(str "vector_clock", .arr (clockItems r.vectorClock))])

end TaskRecord

variable (R : Runtime)

/-- `canonical_task_bytes`. -/
def canonicalTaskBytes (r : TaskRecord) : Bytes := R.json.dumps r.signedDocument

/-- `sign_task`. -/
def signTask (keyPair : Bytes) (task : TaskRecord) (signerId : Str) : TaskRecord :=
  let staged := { task with signerId := some signerId, signature := none }
  { staged with signature := some (R.ed25519.sign keyPair (canonicalTaskBytes R staged)) }

/-- `verify_task_signature`. -/
def verifyTaskSignature (task : TaskRecord) (K : PeerKeyRing) : Bool :=
  match task.signature, task.signerId with
  | some sig, some signer =>
    K.verify R signer sig (canonicalTaskBytes R { task with signature := none })
  | _, _ => false

/-- `verify_task_authorization`: a valid signature, by the holder if there is one, whose token it
    must carry. -/
def verifyTaskAuthorization (task : TaskRecord) (K : PeerKeyRing) : Bool :=
  if !verifyTaskSignature R task K then false
  else match task.claimedBy with
    | none => true
    | some holder =>
      if task.signerId ≠ some holder then false
      else if task.fenceToken.peerId ≠ holder then false
      else true

/-! ## What a signed record passes -/

theorem canonicalTaskBytes_signature (r : TaskRecord) (s : Option Bytes) :
    canonicalTaskBytes R { r with signature := s } = canonicalTaskBytes R r := rfl

variable {R}

theorem verify_iff {K : PeerKeyRing} {p : Str} {sig data : Bytes} :
    K.verify R p sig data = true ↔
      ∃ key, K.getPeerKey p = some key ∧ sig.length = 64 ∧ R.ed25519.verify key sig data = true := by
  unfold PeerKeyRing.verify
  cases K.getPeerKey p with
  | none => simp
  | some key => by_cases h : sig.length = 64 <;> simp [h]

theorem verifyTaskSignature_iff {r : TaskRecord} {K : PeerKeyRing} :
    verifyTaskSignature R r K = true ↔ ∃ sig signer key, r.signature = some sig ∧
      r.signerId = some signer ∧ K.getPeerKey signer = some key ∧ sig.length = 64 ∧
      R.ed25519.verify key sig (canonicalTaskBytes R r) = true := by
  unfold verifyTaskSignature
  rw [canonicalTaskBytes_signature]
  cases r.signature <;> cases r.signerId <;> simp [verify_iff]

theorem verifyTaskAuthorization_iff {r : TaskRecord} {K : PeerKeyRing} :
    verifyTaskAuthorization R r K = true ↔ verifyTaskSignature R r K = true ∧
      ∀ holder ∈ r.claimedBy, r.signerId = some holder ∧ r.fenceToken.peerId = holder := by
  unfold verifyTaskAuthorization
  cases verifyTaskSignature R r K
  · simp
  · cases r.claimedBy with
    | none => simp
    | some h =>
      by_cases h1 : r.signerId = some h <;> by_cases h2 : r.fenceToken.peerId = h <;> simp [h1, h2]

/-- A record sealed with a peer's key passes under a keyring that holds it, if it is unclaimed or
    claimed by that peer with that peer's token. -/
theorem authorization_signTask (hE : R.ed25519.Lawful) {K : PeerKeyRing} {seed : Bytes} {p : Str}
    (hK : K.getPeerKey p = some (R.ed25519.publicKey seed)) {r : TaskRecord}
    (hr : ∀ holder ∈ r.claimedBy, p = holder ∧ r.fenceToken.peerId = holder) :
    verifyTaskAuthorization R (signTask R seed r p) K = true := by
  rw [verifyTaskAuthorization_iff, verifyTaskSignature_iff]
  refine ⟨⟨_, p, _, rfl, rfl, hK, hE.length_sign _ _, ?_⟩, fun h hh => ?_⟩
  · rw [signTask, canonicalTaskBytes_signature]; exact hE.verify_sign _ _
  · obtain ⟨h1, h2⟩ := hr h hh
    exact ⟨congrArg some h1, h2⟩

/-! ## The signature covers the clock -/

theorem canon_signedDocument (r : TaskRecord) : r.signedDocument.canon = r.signedDocument := by
  have hopt : ∀ o, (Json.ofOptStr o).canon = Json.ofOptStr o := fun o => by cases o <;> rfl
  have hclk : (TaskRecord.clockItems r.vectorClock).map Json.canon =
      TaskRecord.clockItems r.vectorClock := by
    simp [TaskRecord.clockItems, Json.canon, Json.canonElems]
  have hf : Json.canonFields (r.signedFields ++
      [(str "vector_clock", .arr (TaskRecord.clockItems r.vectorClock))]) = r.signedFields ++
      [(str "vector_clock", .arr (TaskRecord.clockItems r.vectorClock))] := by
    simp only [TaskRecord.signedFields, List.cons_append, List.nil_append, Json.canonFields, hopt,
      Json.canon, Json.canonElems_eq, hclk]
  have hkeys : ([str "claimed_by", str "error", str "fence_epoch", str "fence_peer",
      str "lease_expiry", str "payload", str "result", str "signer_id", str "state",
      str "task_id", str "updated_by", str "vector_clock"] : List Str).Pairwise (· ≤ ·) := by
    decide
  have hsort : Json.sortKeys (r.signedFields ++
      [(str "vector_clock", .arr (TaskRecord.clockItems r.vectorClock))]) = r.signedFields ++
      [(str "vector_clock", .arr (TaskRecord.clockItems r.vectorClock))] :=
    Json.sortKeys_eq_self hkeys
  rw [TaskRecord.signedDocument, Json.canon, hf, hsort]

/-- Records that differ in the clock only and have one text have clocks of the same texts. -/
theorem canonicalTaskBytes_items {r : TaskRecord} {c c' : VectorClock}
    (h : canonicalTaskBytes R { r with vectorClock := c } =
      canonicalTaskBytes R { r with vectorClock := c' }) :
    (TaskRecord.clockItems c).map (Json.print (Json.floatText R.json.floatRepr) Json.escape) =
      (TaskRecord.clockItems c').map (Json.print (Json.floatText R.json.floatRepr) Json.escape) := by
  have hw := Json.writers R.json.floatRepr_text
  simp only [canonicalTaskBytes, Codec.dumps, Json.dumps, canon_signedDocument] at h
  have hmap := Json.print_obj_inj hw h
  simp only [List.map_append, List.map_cons, List.map_nil] at hmap
  have hlast := (List.append_right_inj (r.signedFields.map _)).1 hmap
  exact Json.print_arr_inj hw (Json.fieldText_inj hw (List.cons.inj hlast).1).2

/-- The text of a record tells a clock from a larger one. -/
theorem canonicalTaskBytes_clock {r : TaskRecord} {c c' : VectorClock} (hle : c ≤ c')
    (h : canonicalTaskBytes R { r with vectorClock := c } =
      canonicalTaskBytes R { r with vectorClock := c' }) : c = c' := by
  have hw := Json.writers R.json.floatRepr_text
  have hmap := canonicalTaskBytes_items h
  -- the clocks have equally many entries and the smaller one's peers are among the larger one's
  have hlen : c.keys.length = c'.keys.length := by
    have := congrArg List.length hmap
    simpa [TaskRecord.clockItems, Counters.keys] using this
  have hsub : c.keys ⊆ c'.keys := by
    intro k hk
    by_contra hk'
    have h0 := hle k
    rw [Counters.get_eq_zero.2 hk'] at h0
    exact Counters.get_eq_zero.1 (Nat.le_zero.1 h0) hk
  have hperm : c.keys.Perm c'.keys :=
    (c.nodup_keys.subperm hsub).perm_of_length_le hlen.ge
  have hkeys : c.keys = c'.keys := hperm.eq_of_pairwise
    (fun a b _ _ hab hba => absurd (lt_trans hab hba) (lt_irrefl a)) c.sorted c'.sorted
  -- so the texts of the counters agree one by one
  have hvals : c.entries.map Prod.snd = c'.entries.map Prod.snd := by
    simp only [TaskRecord.clockItems, List.map_map] at hmap
    have hj : ∀ l l' : List (Str × ℕ),
        l.map (Json.print (Json.floatText R.json.floatRepr) Json.escape ∘
          fun e => .arr [.str e.1, .int e.2]) =
        l'.map (Json.print (Json.floatText R.json.floatRepr) Json.escape ∘
          fun e => .arr [.str e.1, .int e.2]) → l.map Prod.snd = l'.map Prod.snd := by
      intro l
      induction l with
      | nil => intro l' h'; cases l' <;> simp_all
      | cons e l ih =>
        intro l' h'
        cases l' with
        | nil => simp at h'
        | cons e' l' =>
          simp only [List.map_cons, List.cons.injEq, Function.comp] at h' ⊢
          have hp := Json.print_arr_inj hw h'.1
          simp only [List.map_cons, List.map_nil, List.cons.injEq, and_true] at hp
          exact ⟨by exact_mod_cast Json.intText_inj hp.2, ih l' h'.2⟩
    exact hj _ _ hmap
  refine Counters.ext ?_
  have hz : ∀ d : VectorClock, d.entries = List.zip d.keys (d.entries.map Prod.snd) := by
    intro d
    rw [Counters.keys, List.zip_map']
    simp
  rw [hz c, hz c', hkeys, hvals]

/-- **A valid record is not valid with a larger clock**, if a signature fits one text only. -/
theorem authorization_clock (hE : R.ed25519.Binding) {K : PeerKeyRing} {r : TaskRecord}
    {c : VectorClock} (hc : r.vectorClock ≤ c) (hr : verifyTaskAuthorization R r K = true)
    (hr' : verifyTaskAuthorization R { r with vectorClock := c } K = true) : c = r.vectorClock := by
  obtain ⟨sig, signer, key, h1, h2, h3, -, h5⟩ :=
    verifyTaskSignature_iff.1 (verifyTaskAuthorization_iff.1 hr).1
  obtain ⟨sig', signer', key', h1', h2', h3', -, h5'⟩ :=
    verifyTaskSignature_iff.1 (verifyTaskAuthorization_iff.1 hr').1
  simp only at h1' h2'
  rw [h1, Option.some.injEq] at h1'
  rw [h2, Option.some.injEq] at h2'
  subst h1' h2'
  rw [h3, Option.some.injEq] at h3'
  subst h3'
  exact (canonicalTaskBytes_clock (r := r) hc (hE _ _ _ _ h5 h5')).symm

/-! ## Concrete schemes

Two stand-ins for Ed25519 that can be run: one meets `Lawful`, the other `Binding`.  No scheme with
signatures of 64 octets meets both for all octet strings. -/

/-- The signature of a text is its last 64 octets. -/
def Ed25519.suffix : Ed25519 where
  publicKey seed := seed
  sign _ data := (data.reverse ++ List.replicate 64 0).take 64
  verify _ sig data := sig = (data.reverse ++ List.replicate 64 0).take 64

theorem Ed25519.suffix_lawful : Ed25519.suffix.Lawful where
  verify_sign _ _ := by simp [suffix]
  length_sign _ _ := by simp [suffix]

/-- The signatures of the listed texts are numbered and have 64 octets, those of other texts are
    longer. -/
def Ed25519.numbered (texts : List Bytes) : Ed25519 where
  publicKey seed := seed
  sign _ data :=
    if data ∈ texts then List.replicate 64 (Fin.ofNat 256 (texts.idxOf data))
    else List.replicate 65 0 ++ data
  verify _ sig data :=
    sig = if data ∈ texts then List.replicate 64 (Fin.ofNat 256 (texts.idxOf data))
      else List.replicate 65 0 ++ data

theorem Ed25519.numbered_binding {texts : List Bytes} (h : texts.length ≤ 256) :
    (Ed25519.numbered texts).Binding := by
  intro key sig d d' h1 h2
  simp only [numbered, decide_eq_true_eq] at h1 h2
  rw [h1] at h2
  split_ifs at h2 with hd hd' hd'
  · have hi := List.idxOf_lt_length_iff.2 hd
    have hi' := List.idxOf_lt_length_iff.2 hd'
    have hb : Fin.ofNat 256 (texts.idxOf d) = Fin.ofNat 256 (texts.idxOf d') :=
      (List.replicate_inj.1 h2).2.resolve_left (by decide)
    have hv := congrArg Fin.val hb
    simp only [Fin.val_ofNat] at hv
    rw [Nat.mod_eq_of_lt (by omega), Nat.mod_eq_of_lt (by omega)] at hv
    exact (List.idxOf_inj hd).1 hv
  · have hl := congrArg List.length h2
    simp only [List.length_replicate, List.length_append] at hl; omega
  · have hl := congrArg List.length h2
    simp only [List.length_replicate, List.length_append] at hl; omega
  · exact List.append_cancel_left h2

/-- A runtime with the stand-in codec and a given scheme. -/
noncomputable def Runtime.ofScheme (E : Ed25519) : Runtime where
  json := Codec.std
  ed25519 := E
  sha256 data := data

end PeerQ
