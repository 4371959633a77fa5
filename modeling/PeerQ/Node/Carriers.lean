/-
  What carries a record: a frame of the log, and a gossip message of its own.

  Every limit on the fields of a record is below that of a frame, but their sum
  is not: payload and result alone, in hexadecimal, fill one.  Which records the
  log takes and which a message carries is a matter of the strings without
  surrogates, of the digits of the integers and of the sizes of the fields
  (`record_carried_iff`).
-/
import PeerQ.Message.Wire
import PeerQ.Wal.Capacity
import PeerQ.Node.Gossip

namespace PeerQ

open Py

/-- The size of a record in a message, in UTF-8. -/
def TaskRecord.wireSize (R : Runtime) (r : TaskRecord) : ℕ :=
  r.size (fun q => (R.json.floatRepr q).length) fun s => (Json.escapeRaw s).length

/-! ## Messages -/

namespace PeerNode

variable {R : Runtime} (N : PeerNode R)

/-- The size of a signed gossip message with one record; 249 octets are names, quotes, colons, commas
    and braces, the type and the signature. -/
def gossipSize (r : TaskRecord) (wallNow : ℚ) (nonce : Str) : ℕ :=
  249 + (Json.escapeRaw nonce).length + (Json.escapeRaw r.taskId).length + r.wireSize R +
    (Json.intText N.security.protocolVersion).length + (Json.escapeRaw N.nodeId).length +
    (R.json.floatRepr wallNow).length

/-- A gossip message with one record and a signature. -/
def gossipOf (r : TaskRecord) (wallNow : ℚ) (nonce : Str) (sig : Option Bytes) : Message :=
  ⟨str "gossip", N.nodeId, gossipPayload [(r.taskId, r)], some wallNow, some nonce, sig,
    N.security.protocolVersion⟩

section
variable {N} {r : TaskRecord} {wallNow : ℚ} {nonce : Str}

theorem length_text_gossipOf {sig : Bytes} (hsig : sig.length = 64) :
    ((N.gossipOf r wallNow nonce (some sig)).text R).length = N.gossipSize r wallNow nonce := by
  have htxt : ∀ s, Json.simple s = true → (Json.escapeRaw s).length = s.length :=
    fun _ => Json.length_escapeRaw_simple
  have hrecord : Json.textLength (Json.floatText R.json.floatRepr) Json.escapeRaw r.toDict =
      r.wireSize R := TaskRecord.textLength_toDict htxt
  have hnames : ∀ kv ∈ (N.gossipOf r wallNow nonce (some sig)).documentFields,
      (Json.escapeRaw kv.1).length = kv.1.length := by
    have hsimple : ∀ k ∈ (N.gossipOf r wallNow nonce (some sig)).documentFields.map Prod.fst,
        Json.simple k = true := by
      show ∀ k ∈ [str "msg_type", str "nonce", str "payload", str "protocol_version",
        str "sender_id", str "timestamp", str "signature"], Json.simple k = true
      decide
    exact fun kv hkv => htxt _ (hsimple _ (List.mem_map_of_mem hkv))
  have htype : (Json.escapeRaw (str "gossip")).length = 6 := by decide
  have htasks : (Json.escapeRaw (str "tasks")).length = 5 := by decide
  have hhex : (Json.escapeRaw (hex sig)).length = 128 := by
    rw [htxt _ (Json.simple_hex sig), length_hex, hsig]
  have hlengths : (str "msg_type").length = 8 ∧ (str "nonce").length = 5 ∧
      (str "payload").length = 7 ∧ (str "protocol_version").length = 16 ∧
      (str "sender_id").length = 9 ∧ (str "timestamp").length = 9 ∧
      (str "signature").length = 9 := by decide
  show Json.textLength _ _ (Json.obj (N.gossipOf r wallNow nonce (some sig)).documentFields) = _
  rw [Json.textLength_obj_of _ _ hnames]
  simp only [Message.documentFields, Message.unsignedFields, gossipOf, gossipPayload, Json.ofOptStr,
    Option.map_some, List.cons_append, List.nil_append, List.map_cons, List.map_nil, List.sum_cons,
    List.sum_nil, List.length_cons, List.length_nil, Json.textLength_obj, Json.fieldLength,
    Json.textLength_str, Json.textLength_int, Json.textLength_float, Json.floatText, hrecord, htype,
    htasks, hhex, hlengths, gossipSize]
  omega

theorem plain_gossipPayload : (Json.obj (gossipPayload [(r.taskId, r)])).plain = true ↔
    ∀ s ∈ r.strings, s.valid = true := by
  have htasks : (str "tasks").valid = true := by decide
  have hid : r.taskId ∈ r.strings := TaskRecord.taskId_mem_strings
  simp only [gossipPayload, Json.plain, Json.plainFields, List.map_cons, List.map_nil, htasks,
    Bool.true_and, Bool.and_true, Bool.and_eq_true, TaskRecord.plain_toDict]
  exact and_iff_right_of_imp fun h => h _ hid

/-- A message can be signed if its sender, its nonce and the strings of its record have no
    surrogates. -/
theorem plain_gossipOf (wallNow : ℚ) (sig : Option Bytes) :
    (N.gossipOf r wallNow nonce sig).unsignedDocument.plain = true ↔
      ∀ s ∈ N.nodeId :: nonce :: r.strings, s.valid = true := by
  have hnames : ∀ k ∈ [str "msg_type", str "nonce", str "payload", str "protocol_version",
      str "sender_id", str "timestamp"], k.valid = true := by decide
  have htype : (Json.str (str "gossip")).plain = true := by decide
  have hvalues : (N.gossipOf r wallNow nonce sig).unsignedDocument.plain = true ↔
      ∀ kv ∈ (N.gossipOf r wallNow nonce sig).unsignedFields, kv.2.plain = true := by
    rw [Message.unsignedDocument, Json.plain, Json.plainFields_iff]
    exact forall₂_congr fun kv hkv =>
      and_iff_right (hnames kv.1 (List.mem_map_of_mem (f := Prod.fst) hkv))
  have hstr : ∀ s : Str, (Json.str s).plain = s.valid := fun _ => rfl
  have hint : ∀ n, (Json.int n).plain = true := fun _ => rfl
  have hfloat : ∀ q, (Json.float (.finite q)).plain = true := fun _ => rfl
  rw [hvalues]
  simp only [Message.unsignedFields, gossipOf, List.forall_mem_cons, htype, hint, hfloat,
    plain_gossipPayload]
  simp only [Json.ofOptStr, hstr, true_and]
  constructor
  · rintro ⟨h1, h2, h3, -⟩
    exact ⟨h3, h1, h2⟩
  · rintro ⟨h3, h1, h2⟩
    exact ⟨h1, h2, h3, by simp⟩

theorem short_gossipOf (wallNow : ℚ) (sig : Option Bytes) :
    (N.gossipOf r wallNow nonce sig).unsignedDocument.short = true ↔
      ∀ n ∈ (N.security.protocolVersion : ℤ) :: r.integers, Json.shortInt n = true := by
  have hpayload : (Json.obj (gossipPayload [(r.taskId, r)])).short = r.toDict.short := by
    simp [gossipPayload, Json.short, Json.shortFields]
  rw [Message.short_unsignedDocument, List.forall_mem_cons, ← TaskRecord.short_toDict, ← hpayload]
  exact and_comm

theorem bounded_gossipPayload (ha : r.Accepted) {D : ℕ} (hD : 4 ≤ D) :
    Json.bounded D (256 * 1024) 0 (.obj (gossipPayload [(r.taskId, r)])) =
      (Json.obj (gossipPayload [(r.taskId, r)])).plain := by
  have hstr : ∀ {s : Str} {k : ℕ}, k ≤ 4 → s.length ≤ 128 →
      Json.bounded D (256 * 1024) k (.str s) = s.valid := by
    intro s k hk hs
    have hlen := Str.length_utf8_le s
    exact Json.bounded_str_eq (by omega) (by omega)
  have htasks : (str "tasks").length ≤ 128 := by decide
  refine Json.bounded_obj_eq (Nat.zero_le _) fun kv hkv => ?_
  obtain rfl := List.mem_singleton.1 hkv
  refine ⟨hstr (by omega) htasks, Json.bounded_obj_eq (by omega) fun kv hkv => ?_⟩
  obtain rfl := List.mem_singleton.1 hkv
  exact ⟨hstr (by omega) ha.taskId.2, TaskRecord.bounded_toDict ha (by omega)⟩

theorem items_gossipPayload (ha : r.Accepted) :
    (Json.obj (gossipPayload [(r.taskId, r)])).items ≤ 144 := by
  have hitems := TaskRecord.items_toDict r
  have hclock := ha.clock.1
  simp only [gossipPayload, Json.items, Json.itemsFields, List.map_cons, List.map_nil,
    List.length_cons, List.length_nil]
  omega

theorem gossipOf_headed (N : PeerNode R) (r : TaskRecord) (wallNow : ℚ) (nonce : Str)
    (sig : Option Bytes) : (N.gossipOf r wallNow nonce sig).Headed where
  msgType := by
    show str "gossip" ≠ [] ∧ (str "gossip").length ≤ maxMessageTypeLength
    decide
  senderId := N.nodeId_ok

theorem gossipOf_wellFormed (hn : 1 ≤ nonce.length ∧ nonce.length ≤ 128) {sig : Bytes}
    (hsig : sig.length = 64) : (N.gossipOf r wallNow nonce (some sig)).WellFormed := by
  have hp : (Json.obj (N.gossipOf r wallNow nonce (some sig)).payload).wf = true := by
    simp [gossipOf, gossipPayload, Json.wf, Json.wfFields, r.wf_toDict]
  exact .of_signed hp rfl hn rfl hsig

/-- **What is signed**: every message whose strings have no surrogates and whose integers are not too
    long. -/
theorem signedMessage_gossip_iff (hn : 1 ≤ nonce.length ∧ nonce.length ≤ 128) {m : Message} :
    N.signedMessage (str "gossip") (gossipPayload [(r.taskId, r)]) wallNow nonce = .ok m ↔
      (∀ s ∈ N.nodeId :: nonce :: r.strings, s.valid = true) ∧
        (∀ n ∈ (N.security.protocolVersion : ℤ) :: r.integers, Json.shortInt n = true) ∧ ∃ data,
        (N.gossipOf r wallNow nonce none).canonicalBytes R = .ok data ∧
          m = N.gossipOf r wallNow nonce (some (R.ed25519.sign N.identity data)) := by
  have hsigned : N.signedMessage (str "gossip") (gossipPayload [(r.taskId, r)]) wallNow nonce =
      ((N.gossipOf r wallNow nonce none).canonicalBytes R >>= fun data =>
        pure (N.gossipOf r wallNow nonce (some (R.ed25519.sign N.identity data)))) :=
    if_neg (by omega)
  rw [hsigned, bind_eq_ok]
  constructor
  · rintro ⟨data, hd, h⟩
    have hwrites : (N.gossipOf r wallNow nonce none).unsignedDocument.plain = true ∧
        (N.gossipOf r wallNow nonce none).unsignedDocument.short = true := by
      by_contra hw
      rw [Message.canonicalBytes, canonicalJsonBytes, if_neg (by simpa using hw)] at hd
      cases hd
    exact ⟨(plain_gossipOf wallNow none).1 hwrites.1, (short_gossipOf wallNow none).1 hwrites.2, data,
      hd, (Except.ok.inj h).symm⟩
  · rintro ⟨-, -, data, hd, rfl⟩
    exact ⟨data, hd, rfl⟩

/-- **What a message carries** of the records within their limits. -/
theorem gossip_carried_iff (hE : R.ed25519.Lawful) (ha : r.Accepted)
    (hn : 1 ≤ nonce.length ∧ nonce.length ≤ 128) :
    (∃ m data m', N.signedMessage (str "gossip") (gossipPayload [(r.taskId, r)]) wallNow nonce =
        .ok m ∧ m.toBytes R = .ok data ∧ (data.drop 4).length ≤ maxFrameSize ∧
      Message.fromBytes R (data.drop 4) .default = .ok m' ∧ m'.canon = m.canon) ↔
    (∀ s ∈ N.nodeId :: nonce :: r.strings, s.valid = true) ∧
      (∀ n ∈ (N.security.protocolVersion : ℤ) :: r.integers, Json.shortInt n = true) ∧
      N.gossipSize r wallNow nonce ≤ maxFrameSize := by
  have htext : ∀ data, ((N.gossipOf r wallNow nonce
      (some (R.ed25519.sign N.identity data))).text R).length = N.gossipSize r wallNow nonce :=
    fun data => length_text_gossipOf (hE.length_sign _ _)
  constructor
  · rintro ⟨m, data, m', hm, hdata, -, -, -⟩
    obtain ⟨hvalid, hshort, d, -, rfl⟩ := (signedMessage_gossip_iff hn).1 hm
    obtain ⟨-, -, -, hlen, -⟩ := Message.toBytes_ok hdata
    exact ⟨hvalid, hshort, (htext d).symm.trans_le hlen⟩
  · rintro ⟨hvalid, hshort, hlen⟩
    obtain ⟨d, hd⟩ : ∃ d, (N.gossipOf r wallNow nonce none).canonicalBytes R = .ok d :=
      ⟨_, Message.canonicalBytes_eq ((plain_gossipOf wallNow none).2 hvalid)
        ((short_gossipOf wallNow none).2 hshort)⟩
    have hm := (signedMessage_gossip_iff (N := N) hn).2 ⟨hvalid, hshort, d, hd, rfl⟩
    obtain ⟨sig, hsig⟩ : ∃ sig, sig = R.ed25519.sign N.identity d := ⟨_, rfl⟩
    have hlength : sig.length = 64 := hsig ▸ hE.length_sign _ _
    rw [← hsig] at hm
    have hdoc : (N.gossipOf r wallNow nonce (some sig)).document.plain = true ∧
        (N.gossipOf r wallNow nonce (some sig)).document.short = true := by
      rw [Message.plain_document, Message.short_document]
      exact ⟨(plain_gossipOf wallNow _).2 hvalid, (short_gossipOf wallNow _).2 hshort⟩
    have hpay := plain_gossipPayload.2 fun s hs =>
      hvalid s (List.mem_cons_of_mem _ (List.mem_cons_of_mem _ hs))
    have hitems := items_gossipPayload ha
    have hv : validateJsonTree 16 10000 (256 * 1024)
        (.obj (N.gossipOf r wallNow nonce (some sig)).payload) = .ok () :=
      (validateJsonTree_ok_iff _).2 ⟨(bounded_gossipPayload ha (by decide)).trans hpay,
        hitems.trans (by decide)⟩
    have hdata := Message.toBytes_eq (R := R) (gossipOf_headed N r wallNow nonce (some sig)) hv hdoc
      ((length_text_gossipOf hlength).trans_le hlen) (by decide)
    obtain ⟨-, -, -, hle, hdrop⟩ := Message.toBytes_ok hdata
    refine ⟨_, _, _, hm, hdata, hdrop ▸ hle, (Message.fromBytes_toBytes
      (gossipOf_wellFormed hn hlength) hdata).2 ⟨⟨?_, ?_⟩, rfl⟩, Message.canon_canon _⟩
    · exact (bounded_gossipPayload ha (by decide)).trans hpay
    · exact (Nat.add_le_add_right hitems 7).trans (by decide)

end

/-- An open log takes the record, and a signed gossip message with nothing else in it is sent within
    the limit of a frame and read back. -/
def Carries (W : WriteAheadLog) (file : Bytes) (r : TaskRecord) (wallNow : ℚ) (nonce : Str) : Prop :=
  (∃ x, W.append R file recordTask r.pyDict = .ok x) ∧
    ∃ m data m', N.signedMessage (str "gossip") (gossipPayload [(r.taskId, r)]) wallNow nonce =
        .ok m ∧ m.toBytes R = .ok data ∧ (data.drop 4).length ≤ maxFrameSize ∧
      Message.fromBytes R (data.drop 4) .default = .ok m' ∧ m'.canon = m.canon

/-- **Record limits and carriers**: a record that the decoder accepts is carried by the log and by a
    message exactly if no string has a surrogate in it, no integer has more than 4300 digits and the
    sizes of the fields add up to at most a frame, in both escapings. -/
theorem record_carried_iff (hE : R.ed25519.Lawful) {v : Json} {r : TaskRecord}
    (h : TaskRecord.fromDict v = .ok r) {W : WriteAheadLog}
    (hW : W.maxRecordBytes = maxFrameSize) (file : Bytes) (wallNow : ℚ) {nonce : Str}
    (hn : 1 ≤ nonce.length ∧ nonce.length ≤ 128) :
    N.Carries W file r wallNow nonce ↔
      (∀ s ∈ N.nodeId :: nonce :: r.strings, s.valid = true) ∧
        (∀ n ∈ (N.security.protocolVersion : ℤ) :: r.integers, Json.shortInt n = true) ∧
        r.logSize R ≤ maxFrameSize ∧ N.gossipSize r wallNow nonce ≤ maxFrameSize := by
  have ha := TaskRecord.fromDict_accepted h
  rw [Carries, WriteAheadLog.append_task_iff ha hW, gossip_carried_iff hE ha hn]
  constructor
  · rintro ⟨⟨-, -, hlog⟩, hv, hs, hwire⟩
    exact ⟨hv, hs, hlog, hwire⟩
  · rintro ⟨hv, hs, hlog, hwire⟩
    exact ⟨⟨fun s hs => hv s (List.mem_cons_of_mem _ (List.mem_cons_of_mem _ hs)),
      fun n hn => hs n (List.mem_cons_of_mem _ hn), hlog⟩, hv, hs, hwire⟩

namespace Sample

/-- A completed task with payload and result of `n` octets. -/
def bulky (n : ℕ) : TaskRecord where
  taskId := str "t"
  state := .done
  payload := List.replicate n 0
  result := some (List.replicate n 0)
  updatedBy := str "a"

theorem bulky_decoded {n : ℕ} (hn : n ≤ 64 * 1024) :
    TaskRecord.fromDict (bulky n).toDict = .ok (bulky n) := by
  have h : (bulky 0).Decodable := by decide
  have hlen : (List.replicate n (0 : Byte)).length ≤ 64 * 1024 := List.length_replicate.trans_le hn
  refine (TaskRecord.fromDict_toDict_iff _).2 ⟨{ h with payload := hlen, result := ?_ }, rfl⟩
  intro b hb
  obtain rfl := Option.some.inj hb
  exact hlen

theorem logSize_bulky {R : Runtime} (n : ℕ) : 4 * n < (bulky n).logSize R := by
  have hresult : TaskRecord.hexSize (bulky n).result = 2 * n + 2 := by
    simp [bulky, TaskRecord.hexSize]
  have hpayload : (bulky n).payload.length = n := by simp [bulky]
  rw [TaskRecord.logSize, TaskRecord.size, hresult, hpayload]
  omega

end Sample

theorem record_carried_small : Sample.nodeC.Carries { path := str "peer.wal" } walMagic
    (Sample.bulky 3) 0 (str "n") := by
  refine (Sample.nodeC.record_carried_iff Ed25519.suffix_lawful (Sample.bulky_decoded (by decide)) rfl
    walMagic 0 (by decide)).2 ⟨?_, ?_, ?_, ?_⟩
  · decide
  · decide
  · decide
  · decide

/-- A record with the largest payload and the largest result is accepted, but four times 64 KiB and
    the names around them do not fit a frame of the log. -/
theorem record_not_carried : ¬ ∀ (R : Runtime) (N : PeerNode R) (W : WriteAheadLog) (file : Bytes)
    (v : Json) (r : TaskRecord) (wallNow : ℚ) (nonce : Str), R.ed25519.Lawful →
    TaskRecord.fromDict v = .ok r → W.maxRecordBytes = maxFrameSize →
    1 ≤ nonce.length ∧ nonce.length ≤ 128 → N.Carries W file r wallNow nonce := by
  intro h
  have hdecoded := Sample.bulky_decoded (le_refl (64 * 1024))
  have hlog := (h _ Sample.nodeC { path := str "peer.wal" } walMagic _ _ 0 (str "n")
    Ed25519.suffix_lawful hdecoded rfl (by decide)).1
  have hsize := ((WriteAheadLog.append_task_iff (TaskRecord.fromDict_accepted hdecoded) rfl walMagic).1 hlog).2.2
  have hframe : maxFrameSize = 256 * 1024 := rfl
  have hbulk := Sample.logSize_bulky (R := Sample.runtime) (64 * 1024)
  omega

end PeerNode

end PeerQ
