/-
  Messages on the wire.

  A decoded message has no value that `json` could not write again
  (`fromBytes_plain`, `fromBytes_short`), so checking its signature raises
  nothing.  `to_bytes`
  bounds the payload, `from_bytes` the document around it, which nests one level
  deeper and has seven entries more: `fromBytes_toBytes_iff` says that exactly
  the messages whose payload leaves that room come back.
-/
import PeerQ.Message

namespace PeerQ

open Py

namespace Message

variable {R : Runtime} {m m' : Message} {d : Fields}

/-! ## What is decoded -/

/-- The required fields of a decoded document. -/
theorem decodeHead_ok (h : decodeHead d = .ok m) :
    lookup (str "msg_type") d = some (.str m.msgType) ∧
      lookup (str "sender_id") d = some (.str m.senderId) ∧
        lookup (str "payload") d = some (.obj m.payload) ∧
          lookup (str "protocol_version") d = some (.int m.protocolVersion) := by
  unfold decodeHead at h
  split at h
  · next hty hid hpay hver =>
    split at h
    · split_ifs at h
      obtain rfl := Except.ok.inj h
      exact ⟨hty, hid, hpay, hver⟩
    · cases h
  · cases h

theorem decodeNonce_ok {s : Str} (h : decodeNonce d = .ok (some s)) :
    lookup (str "nonce") d = some (.str s) := by
  unfold decodeNonce at h
  cases hl : lookup (str "nonce") d with
  | none => simp [hl] at h
  | some v =>
    rw [hl, Option.getD_some] at h
    cases v with
    | str t =>
      simp only at h
      split_ifs at h
      rw [Option.some.inj (Except.ok.inj h)]
    | _ => cases h

/-- A decoded message stands in a document within the limits. -/
theorem fromBytes_ok {data : Bytes} {config : SecurityConfig}
    (h : fromBytes R data config = .ok m) : ∃ d m₀, R.json.loads false data = some (.obj d) ∧
      validateJsonTree config.maxJsonDepth config.maxJsonItems config.maxStringLength (.obj d) =
        .ok () ∧ decodeHead d = .ok m₀ ∧ decodeNonce d = .ok m.nonce ∧
      m = { m₀ with timestamp := m.timestamp, nonce := m.nonce, signature := m.signature } := by
  unfold fromBytes at h
  split at h
  · cases h
  split at h
  · split_ifs at h
  next parsed hparsed =>
  obtain ⟨_, hv, h⟩ := bind_eq_ok.1 h
  cases parsed with
  | obj d =>
    obtain ⟨m₀, hm₀, h⟩ := bind_eq_ok.1 h
    obtain ⟨timestamp, -, h⟩ := bind_eq_ok.1 h
    obtain ⟨nonce, hnonce, h⟩ := bind_eq_ok.1 h
    obtain ⟨signature, -, h⟩ := bind_eq_ok.1 h
    obtain rfl := Except.ok.inj h
    exact ⟨d, m₀, hparsed, hv, hm₀, hnonce, rfl⟩
  | _ => cases h

/-- **A decoded message can be written again**: no surrogate stands in it. -/
theorem fromBytes_plain {data : Bytes} {config : SecurityConfig}
    (h : fromBytes R data config = .ok m) : m.unsignedDocument.plain = true := by
  obtain ⟨d, m₀, -, hv, hhead, hnonce, hm⟩ := fromBytes_ok h
  obtain ⟨hty, hid, hpay, -⟩ := decodeHead_ok hhead
  have hplain := Json.plain_of_bounded _ ((validateJsonTree_ok_iff _).1 hv).1
  have hfield : ∀ {k v}, lookup k d = some v → v.plain = true :=
    fun hk => (Json.plainFields_iff.1 hplain _ (mem_of_lookup hk)).2
  have hkeys : ∀ k ∈ [str "msg_type", str "nonce", str "payload", str "protocol_version",
      str "sender_id", str "timestamp"], k.valid = true := by decide
  have hnonce' : (Json.ofOptStr m.nonce).plain = true := by
    cases hn : m.nonce with
    | none => rfl
    | some s => exact hfield (decodeNonce_ok (hn ▸ hnonce))
  rw [unsignedDocument, Json.plain, Json.plainFields_iff]
  intro kv hkv
  refine ⟨hkeys kv.1 (List.mem_map_of_mem (f := Prod.fst) hkv), ?_⟩
  simp only [unsignedFields, List.mem_cons, List.not_mem_nil, or_false] at hkv
  rcases hkv with rfl | rfl | rfl | rfl | rfl | rfl
  · rw [hm]; exact hfield hty
  · exact hnonce'
  · rw [hm]; exact hfield hpay
  · rfl
  · rw [hm]; exact hfield hid
  · cases m.timestamp <;> rfl

/-- A document has no integers but the protocol version and those of the payload. -/
theorem short_unsignedDocument (m : Message) : m.unsignedDocument.short = true ↔
    (Json.obj m.payload).short = true ∧ Json.shortInt m.protocolVersion = true := by
  have hnonce : (Json.ofOptStr m.nonce).short = true := by cases m.nonce <;> rfl
  cases ht : m.timestamp <;>
    simp [unsignedDocument, unsignedFields, Json.short, Json.shortFields, hnonce, ht]

/-- No integer of a decoded message is too long to be written. -/
theorem fromBytes_short {data : Bytes} {config : SecurityConfig}
    (h : fromBytes R data config = .ok m) : m.unsignedDocument.short = true := by
  obtain ⟨d, m₀, hloads, -, hhead, -, hm⟩ := fromBytes_ok h
  obtain ⟨-, -, hpay, hver⟩ := decodeHead_ok hhead
  have hshort : ∀ {k v}, lookup k d = some v → v.short = true :=
    fun hk => Json.shortFields_iff.1 (R.json.loads_short false hloads) _ (mem_of_lookup hk)
  rw [short_unsignedDocument, hm]
  exact ⟨hshort hpay, hshort hver⟩

theorem canonicalBytes_eq (hplain : m.unsignedDocument.plain = true)
    (hshort : m.unsignedDocument.short = true) : m.canonicalBytes R =
      .ok (Json.print (Json.floatText R.json.floatRepr) Json.escapeRaw m.unsignedDocument.canon) := by
  rw [canonicalBytes, canonicalJsonBytes, hplain, hshort]
  rfl

/-- Checking the signature of a decoded message raises nothing. -/
theorem verifySignature_fromBytes {data : Bytes} {config : SecurityConfig}
    (h : fromBytes R data config = .ok m) (K : PeerKeyRing) :
    ∃ b, m.verifySignature R K = .ok b := by
  unfold verifySignature
  rw [canonicalBytes_eq (fromBytes_plain h) (fromBytes_short h)]
  split
  exacts [⟨_, rfl⟩, ⟨_, rfl⟩]

/-! ## What is sent -/

/-- The messages that the annotations of the fields allow. -/
structure WellFormed (m : Message) : Prop where
  payload : (Json.obj m.payload).wf = true
  nonce : ∀ s ∈ m.nonce, 1 ≤ s.length ∧ s.length ≤ 128
  signature : ∀ s ∈ m.signature, s.length = 64

/-- A message with a nonce and a signature of the right lengths. -/
theorem WellFormed.of_signed {m : Message} {nonce : Str} {sig : Bytes}
    (hp : (Json.obj m.payload).wf = true) (hnonce : m.nonce = some nonce)
    (hn : 1 ≤ nonce.length ∧ nonce.length ≤ 128) (hsig : m.signature = some sig)
    (hs : sig.length = 64) : m.WellFormed where
  payload := hp
  nonce s h := by
    obtain rfl := Option.some.inj (hnonce.symm.trans h)
    exact hn
  signature s h := by
    obtain rfl := Option.some.inj (hsig.symm.trans h)
    exact hs

/-- Type and sender within their limits. -/
structure Headed (m : Message) : Prop where
  msgType : m.msgType ≠ [] ∧ m.msgType.length ≤ maxMessageTypeLength
  senderId : m.senderId ≠ [] ∧ m.senderId.length ≤ maxPeerIdLength

/-- The message with the keys of its payload in order; two messages are equal if they have the same
    one. -/
def canon (m : Message) : Message := { m with payload := Json.sortKeys (Json.canonFields m.payload) }

theorem canon_canon (m : Message) : m.canon.canon = m.canon := by
  have h := Json.canon_canon (.obj m.payload)
  simp only [Json.canon, Json.obj.injEq] at h
  simp only [canon, h]

/-- The text of a message on the wire. -/
def text (R : Runtime) (m : Message) : Bytes :=
  Json.print (Json.floatText R.json.floatRepr) Json.escapeRaw m.document.canon

theorem toBytes_ok {data : Bytes} {maxSize : ℕ} (h : toBytes R m maxSize = .ok data) :
    m.Headed ∧ validateJsonTree 16 10000 (256 * 1024) (.obj m.payload) = .ok () ∧
      (m.document.plain = true ∧ m.document.short = true) ∧ (m.text R).length ≤ maxSize ∧
        data.drop 4 = m.text R := by
  unfold toBytes at h
  split_ifs at h with hty hid
  push Not at hty hid
  obtain ⟨_, hv, h⟩ := bind_eq_ok.1 h
  obtain ⟨t, ht, h⟩ := bind_eq_ok.1 h
  unfold canonicalJsonBytes at ht
  split_ifs at ht with hwrites
  obtain rfl := Except.ok.inj ht
  split_ifs at h with hlen
  obtain rfl := Except.ok.inj h
  exact ⟨⟨hty, hid⟩, hv, Bool.and_eq_true_iff.1 hwrites, not_lt.1 hlen, rfl⟩

/-- The octets of a message on the wire. -/
def frame (R : Runtime) (m : Message) : Bytes := be32 (m.text R).length ++ m.text R

theorem toBytes_frame {data : Bytes} {maxSize : ℕ} (h : toBytes R m maxSize = .ok data) :
    data = m.frame R := by
  unfold toBytes at h
  split_ifs at h
  obtain ⟨_, -, h⟩ := bind_eq_ok.1 h
  obtain ⟨t, ht, h⟩ := bind_eq_ok.1 h
  unfold canonicalJsonBytes at ht
  split_ifs at ht
  obtain rfl := Except.ok.inj ht
  split_ifs at h
  exact (Except.ok.inj h).symm

/-- What is sent of a message within the limits. -/
theorem toBytes_eq {maxSize : ℕ} (hh : m.Headed)
    (hv : validateJsonTree 16 10000 (256 * 1024) (.obj m.payload) = .ok ())
    (hwrites : m.document.plain = true ∧ m.document.short = true)
    (hlen : (m.text R).length ≤ maxSize)
    (hword : maxSize < 2 ^ 32) : toBytes R m maxSize = .ok (be32 (m.text R).length ++ m.text R) := by
  have hty := hh.msgType
  have hid := hh.senderId
  have hc : canonicalJsonBytes R.json m.document = .ok (m.text R) :=
    if_pos (Bool.and_eq_true_iff.2 hwrites)
  unfold toBytes
  rw [if_neg (by rintro (h | h); exacts [hty.1 h, absurd hty.2 (not_le.2 h)]),
    if_neg (by rintro (h | h); exacts [hid.1 h, absurd hid.2 (not_le.2 h)]), hv, hc]
  show (if maxSize < (m.text R).length then _ else _) = _
  rw [if_neg (not_lt.2 hlen), if_neg (not_le.2 (lt_of_le_of_lt hlen hword))]

/-! ## The document around the payload -/

/-- The fields of the document that is sent. -/
def documentFields (m : Message) : Fields :=
  m.unsignedFields ++ [(str "signature", Json.ofOptStr (m.signature.map hex))]

theorem documentFields_nodup (m : Message) : (m.documentFields.map Prod.fst).Nodup := by
  show ([str "msg_type", str "nonce", str "payload", str "protocol_version", str "sender_id",
    str "timestamp", str "signature"] : List Str).Nodup
  decide

/-- The timestamp in the document. -/
theorem timestamp_cases (m : Message) : ∃ t, (m.timestamp = none ∧ t = Json.null ∨
    ∃ q, m.timestamp = some q ∧ t = Json.float (.finite q)) ∧
      lookup (str "timestamp") m.documentFields = some t := by
  cases h : m.timestamp with
  | none => exact ⟨.null, Or.inl ⟨rfl, rfl⟩, by simp only [documentFields, unsignedFields, h]; rfl⟩
  | some q =>
    exact ⟨_, Or.inr ⟨q, rfl, rfl⟩, by simp only [documentFields, unsignedFields, h]; rfl⟩

/-- The signature can always be written. -/
theorem plain_document (m : Message) : m.document.plain = m.unsignedDocument.plain := by
  have hname : (str "signature").valid = true := by decide
  have hsig : (Json.ofOptStr (m.signature.map hex)).plain = true := by
    cases m.signature with
    | none => rfl
    | some b => exact hex_valid b
  rw [Bool.eq_iff_iff, document, unsignedDocument, Json.plain, Json.plain, Json.plainFields_iff,
    Json.plainFields_iff, List.forall_mem_append, List.forall_mem_singleton]
  exact and_iff_left ⟨hname, hsig⟩

/-- The signature holds no integer. -/
theorem short_document (m : Message) : m.document.short = m.unsignedDocument.short := by
  have hsig : (Json.ofOptStr (m.signature.map hex)).short = true := by cases m.signature <;> rfl
  rw [Bool.eq_iff_iff, document, unsignedDocument, Json.short, Json.short, Json.shortFields_iff,
    Json.shortFields_iff, List.forall_mem_append, List.forall_mem_singleton]
  exact and_iff_left hsig

theorem document_wf (hm : m.WellFormed) : m.document.wf = true := by
  have hopt : ∀ s, (Json.ofOptStr s).wf = true := by rintro (_ | s) <;> rfl
  rw [document, Json.wf, Bool.and_eq_true, decide_eq_true_eq, Json.wfFields_iff]
  refine ⟨m.documentFields_nodup, fun kv hkv => ?_⟩
  simp only [unsignedFields, List.cons_append, List.nil_append, List.mem_cons, List.not_mem_nil,
    or_false] at hkv
  rcases hkv with rfl | rfl | rfl | rfl | rfl | rfl | rfl
  exacts [rfl, hopt _, hm.payload, rfl, rfl, by cases m.timestamp <;> rfl, hopt _]

theorem document_items (m : Message) : m.document.items = (Json.obj m.payload).items + 7 := by
  have hopt : ∀ s, (Json.ofOptStr s).items = 0 := by rintro (_ | s) <;> rfl
  rw [document, Json.items, Json.itemsFields_eq]
  cases h : m.timestamp <;> simp only [unsignedFields, List.cons_append, List.nil_append,
    List.map_cons, List.map_nil, List.length_cons, List.length_nil, List.sum_cons, List.sum_nil,
    hopt, h] <;> simp only [Json.items] <;> omega

/-- The document nests one level deeper than the payload. -/
theorem document_bounded (hm : m.WellFormed) (hh : m.Headed) (hplain : m.document.plain = true)
    (D : ℕ) : Json.bounded (D + 1) (256 * 1024) 0 m.document = true ↔
      Json.bounded D (256 * 1024) 0 (.obj m.payload) = true := by
  rw [document, Json.plain, Json.plainFields_iff] at hplain
  have hstr : ∀ s : Str, s.valid = true → s.length ≤ 128 →
      Json.bounded (D + 1) (256 * 1024) 1 (.str s) = true := by
    intro s hv hs
    have := Str.length_utf8_le s
    simp only [Json.bounded, hv, Bool.and_eq_true, decide_eq_true_eq]
    exact ⟨⟨by omega, trivial⟩, by omega⟩
  have hopt : ∀ s : Option Str, (Json.ofOptStr s).plain = true → (∀ t ∈ s, t.length ≤ 128) →
      Json.bounded (D + 1) (256 * 1024) 1 (Json.ofOptStr s) = true := by
    rintro (_ | s) hv hs
    · simp [Json.ofOptStr, Json.bounded]
    · exact hstr s hv (hs s rfl)
  have hkeys : ∀ k ∈ [str "msg_type", str "nonce", str "payload", str "protocol_version",
      str "sender_id", str "timestamp", str "signature"], k.valid = true ∧ k.length ≤ 128 := by
    decide
  rw [document, Json.bounded, Bool.and_eq_true, decide_eq_true_eq, Json.boundedFields_iff]
  constructor
  · rintro ⟨-, h⟩
    rw [← Json.bounded_succ]
    exact (h (str "payload", .obj m.payload) (by simp [unsignedFields])).2
  · intro h
    refine ⟨Nat.zero_le _, fun kv hkv => ⟨?_, ?_⟩⟩
    · obtain ⟨hv, hl⟩ := hkeys kv.1 (List.mem_map_of_mem (f := Prod.fst) hkv)
      exact hstr _ hv hl
    have hv := (hplain kv hkv).2
    simp only [unsignedFields, List.cons_append, List.nil_append, List.mem_cons, List.not_mem_nil,
      or_false] at hkv
    rcases hkv with rfl | rfl | rfl | rfl | rfl | rfl | rfl
    · exact hstr _ hv (hh.msgType.2.trans (by decide))
    · exact hopt _ hv fun s hs => (hm.nonce s hs).2
    · rwa [← Json.bounded_succ] at h
    · simp [Json.bounded]
    · exact hstr _ hv hh.senderId.2
    · cases m.timestamp <;> simp [Json.bounded]
    · refine hopt _ hv fun s hs => ?_
      obtain ⟨sig, hsig, rfl⟩ := Option.mem_map.1 hs
      rw [length_hex, hm.signature sig hsig]

/-! ## Round trip -/

section
variable {c : Fields} (hc : ∀ k, lookup k c = (lookup k m.documentFields).map Json.canon)
include hc

theorem decodeHead_document (hh : m.Headed) : decodeHead c = .ok ⟨m.msgType, m.senderId,
    Json.sortKeys (Json.canonFields m.payload), none, none, none, m.protocolVersion⟩ := by
  have h1 : lookup (str "msg_type") c = some (.str m.msgType) := hc _
  have h2 : lookup (str "sender_id") c = some (.str m.senderId) := hc _
  have h3 : lookup (str "payload") c = some (.obj (Json.sortKeys (Json.canonFields m.payload))) :=
    hc _
  have h4 : lookup (str "protocol_version") c = some (.int m.protocolVersion) := hc _
  have hty := hh.msgType
  have hid := hh.senderId
  simp only [decodeHead, h1, h2, h3, h4]
  rw [if_neg]
  rintro (h | h | h | h)
  exacts [hty.1 h, absurd hty.2 (not_le.2 h), hid.1 h, absurd hid.2 (not_le.2 h)]

theorem decodeTimestamp_document : decodeTimestamp c = .ok m.timestamp := by
  obtain ⟨t, ht, hl⟩ := m.timestamp_cases
  rw [decodeTimestamp, hc, hl]
  rcases ht with ⟨h, rfl⟩ | ⟨q, h, rfl⟩ <;> rw [h] <;> rfl

theorem decodeNonce_document (hm : m.WellFormed) : decodeNonce c = .ok m.nonce := by
  have hl : lookup (str "nonce") c = some (Json.ofOptStr m.nonce).canon := hc _
  rw [decodeNonce, hl]
  cases hn : m.nonce with
  | none => rfl
  | some s =>
    obtain ⟨h1, h2⟩ := hm.nonce s hn
    simp only [Json.ofOptStr, Json.canon, Option.getD_some]
    rw [if_neg (by omega)]

theorem decodeSignature_document (hm : m.WellFormed) : decodeSignature c = .ok m.signature := by
  have hl : lookup (str "signature") c = some (Json.ofOptStr (m.signature.map hex)).canon := hc _
  rw [decodeSignature, hl]
  cases hs : m.signature with
  | none => rfl
  | some sig =>
    have hlen := hm.signature sig hs
    simp only [Option.map_some, Json.ofOptStr, Json.canon, Option.getD_some, length_hex, hlen,
      fromhex_hex]
    rfl

end

/-- What is read from the text of a message: the message, if the document is within the limits. -/
theorem fromBytes_text (hm : m.WellFormed) (hh : m.Headed)
    (hwrites : m.document.plain = true ∧ m.document.short = true) {config : SecurityConfig}
    (hlen : (m.text R).length ≤ config.maxFrameSize)
    (hpay : Json.bounded 16 (256 * 1024) 0 (.obj m.payload) = true) :
    fromBytes R (m.text R) config = .ok m' ↔ validateJsonTree config.maxJsonDepth
      config.maxJsonItems config.maxStringLength m.document = .ok () ∧ m' = m.canon := by
  have hloads : R.json.loads false (m.text R) = some m.document.canon :=
    R.json.loads_raw false (by decide) (document_wf hm)
      ((document_bounded hm hh hwrites.1 16).2 hpay) hwrites.2
  have hc : m.document.canon = .obj (Json.sortKeys (Json.canonFields m.documentFields)) := by
    rw [document, Json.canon]; rfl
  have hlook := Json.lookup_canon m.documentFields_nodup
  unfold fromBytes
  rw [if_neg (not_lt.2 hlen), hloads, ← validateJsonTree_canon, hc]
  simp only [bind_eq_ok, decodeHead_document hlook hh, decodeTimestamp_document hlook,
    decodeNonce_document hlook hm, decodeSignature_document hlook hm]
  constructor
  · rintro ⟨_, hv, _, h1, _, h2, _, h3, _, h4, h⟩
    obtain rfl := Except.ok.inj h1
    obtain rfl := Except.ok.inj h2
    obtain rfl := Except.ok.inj h3
    obtain rfl := Except.ok.inj h4
    exact ⟨hv, (Except.ok.inj h).symm⟩
  · rintro ⟨hv, rfl⟩
    exact ⟨(), hv, _, rfl, _, rfl, _, rfl, _, rfl, rfl⟩

theorem canonicalBytes_canon (m : Message) : m.canon.canonicalBytes R = m.canonicalBytes R := by
  have hcanon : m.canon.unsignedDocument.canon = m.unsignedDocument.canon := by
    have h := Json.canon_canon (.obj m.payload)
    simp only [Json.canon, Json.obj.injEq] at h
    simp only [unsignedDocument, unsignedFields, canon, Json.canon, Json.canonFields_eq,
      List.map_cons, List.map_nil] at h ⊢
    rw [h]
  unfold canonicalBytes canonicalJsonBytes
  rw [← Json.plain_canon, ← Json.short_canon, hcanon, Json.plain_canon, Json.short_canon]

theorem verifySignature_canon (m : Message) (K : PeerKeyRing) :
    m.canon.verifySignature R K = m.verifySignature R K := by
  unfold verifySignature
  rw [canonicalBytes_canon]
  rfl

/-- What comes back of a sent message. -/
theorem fromBytes_toBytes (hm : m.WellFormed) {data : Bytes} (h : toBytes R m = .ok data) :
    fromBytes R (data.drop 4) {} = .ok m' ↔
      (Json.bounded 15 (256 * 1024) 0 (.obj m.payload) = true ∧
        (Json.obj m.payload).items + 7 ≤ 10000) ∧ m' = m.canon := by
  obtain ⟨hh, hv, hwrites, hlen, hdrop⟩ := toBytes_ok h
  rw [hdrop, fromBytes_text hm hh hwrites hlen ((validateJsonTree_ok_iff _).1 hv).1,
    validateJsonTree_ok_iff, document_items]
  rw [show (({} : SecurityConfig).maxJsonDepth) = 15 + 1 from rfl,
    show (({} : SecurityConfig).maxStringLength) = 256 * 1024 from rfl,
    document_bounded hm hh hwrites.1]

/-- **Wire round trip**: a sent message comes back equal, with the same signed bytes, exactly if its
    payload is nested at most 15 deep and has at most 9993 entries. -/
theorem fromBytes_toBytes_iff (hm : m.WellFormed) {data : Bytes} (h : toBytes R m = .ok data) :
    (∃ m', fromBytes R (data.drop 4) {} = .ok m' ∧ m'.canon = m.canon ∧
      m'.canonicalBytes R = m.canonicalBytes R ∧
      ∀ K, m'.verifySignature R K = m.verifySignature R K) ↔
    Json.bounded 15 (256 * 1024) 0 (.obj m.payload) = true ∧
      (Json.obj m.payload).items + 7 ≤ 10000 := by
  constructor
  · rintro ⟨m', hm', -⟩
    exact ((fromBytes_toBytes hm h).1 hm').1
  · intro hlimits
    exact ⟨m.canon, (fromBytes_toBytes hm h).2 ⟨hlimits, rfl⟩, m.canon_canon,
      m.canonicalBytes_canon, m.verifySignature_canon⟩

namespace Sample

/-- A list in a list, `n` deep. -/
def nested : ℕ → Json
  | 0 => .arr []
  | n + 1 => .arr [nested n]

/-- An unsigned heartbeat whose payload is nested `n + 1` deep. -/
def heartbeat (n : ℕ) : Message where
  msgType := str "heartbeat"
  senderId := str "a"
  payload := [(str "ts", nested n)]

theorem heartbeat_wellFormed (n : ℕ) : (heartbeat n).WellFormed where
  payload := by
    have hnested : ∀ n, (nested n).wf = true := by
      intro n
      induction n with
      | zero => rfl
      | succ n ih => simp [nested, Json.wf, Json.wfElems, ih]
    simp [heartbeat, Json.wf, Json.wfFields, hnested]
  nonce _ h := by cases h
  signature _ h := by cases h

end Sample

theorem fromBytes_toBytes_heartbeat : ∃ data, toBytes (.ofScheme .suffix) (Sample.heartbeat 14) =
    .ok data ∧ ∃ m', fromBytes (.ofScheme .suffix) (data.drop 4) {} = .ok m' ∧
      m'.canon = (Sample.heartbeat 14).canon := by
  obtain ⟨data, hdata⟩ := exists_ok (x := toBytes (.ofScheme .suffix) (Sample.heartbeat 14))
    (by decide +kernel)
  obtain ⟨m', hm', hcanon, -⟩ := (fromBytes_toBytes_iff (Sample.heartbeat_wellFormed 14) hdata).2
    (by decide +kernel)
  exact ⟨data, hdata, m', hm', hcanon⟩

/-- A payload at the limit of `to_bytes` is sent and not read: nested 16 deep, it stands in a
    document that is nested 17 deep. -/
theorem fromBytes_toBytes_lost : ¬ ∀ (R : Runtime) (m : Message) (data : Bytes), m.WellFormed →
    toBytes R m = .ok data → ∃ m', fromBytes R (data.drop 4) {} = .ok m' ∧ m'.canon = m.canon := by
  intro h
  obtain ⟨data, hdata⟩ := exists_ok (x := toBytes (.ofScheme .suffix) (Sample.heartbeat 15))
    (by decide +kernel)
  obtain ⟨m', hm', -⟩ := h _ _ data (Sample.heartbeat_wellFormed 15) hdata
  have hlimits := ((fromBytes_toBytes (Sample.heartbeat_wellFormed 15) hdata).1 hm').1
  exact absurd hlimits (by decide +kernel)

end Message

end PeerQ
