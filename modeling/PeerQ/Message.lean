/-
  The message envelope (`Message` of `peerq/transport.py`): its signed form, the
  check of a signature, and its encoding on the wire.
-/
import PeerQ.Crypto
import PeerQ.Lib.Frames

namespace PeerQ

open Py

/-- `Message`. -/
structure Message where
  msgType : Str
  senderId : Str
  payload : Fields
  timestamp : Option ℚ := none
  nonce : Option Str := none
  signature : Option Bytes := none
  protocolVersion : ℤ := 2

namespace Message

/-- The tasks that a gossip message carries. -/
def tasks (m : Message) : Fields :=
  match (lookup (str "tasks") m.payload).getD (.obj []) with
  | .obj items => items
  | _ => []

/-- The fields of `_unsigned_document`. -/
def unsignedFields (m : Message) : Fields :=
  [(str "msg_type", .str m.msgType),
   (str "nonce", Json.ofOptStr m.nonce),
   (str "payload", .obj m.payload),
   (str "protocol_version", .int m.protocolVersion),
   (str "sender_id", .str m.senderId),
   (str "timestamp", match m.timestamp with | none => .null | some t => .float (.finite t))]

/-- `_unsigned_document`. -/
def unsignedDocument (m : Message) : Json := .obj m.unsignedFields

/-- The document that is sent: the signature stands beside the signed fields. -/
def document (m : Message) : Json :=
  .obj (m.unsignedFields ++ [(str "signature", Json.ofOptStr (m.signature.map hex))])

variable (R : Runtime)

/-- `canonical_bytes`. -/
def canonicalBytes (m : Message) : Except Exn Bytes := canonicalJsonBytes R.json m.unsignedDocument

/-- `signed`, with the nonce that was drawn. -/
def signed (m : Message) (keyPair : Bytes) (timestamp : ℚ) (nonce : Str) : Except Exn Message :=
  if nonce.length < 1 ∨ 128 < nonce.length then
    .error (.valueError (str "message nonce must contain 1-128 characters"))
  else do
    let unsigned : Message := { m with timestamp := some timestamp, nonce := some nonce,
                                       signature := none }
    let data ← unsigned.canonicalBytes R
    pure { unsigned with signature := some (R.ed25519.sign keyPair data) }

/-- `verify_signature`. -/
def verifySignature (m : Message) (K : PeerKeyRing) : Except Exn Bool :=
  match m.signature, m.nonce, m.timestamp with
  | some sig, some _, some _ => do
    let data ← m.canonicalBytes R
    pure (K.verify R m.senderId sig data)
  | _, _, _ => .ok false

/-! ## The wire -/

/-- `to_bytes`: the text of the message behind its length. -/
def toBytes (m : Message) (maxSize : ℕ := maxFrameSize) : Except Exn Bytes :=
  if m.msgType = [] ∨ maxMessageTypeLength < m.msgType.length then
    .error (.messageDecodeError (str "message type is empty or too long"))
  else if m.senderId = [] ∨ maxPeerIdLength < m.senderId.length then
    .error (.messageDecodeError (str "sender ID is empty or too long"))
  else do
    validateJsonTree 16 10000 (256 * 1024) (.obj m.payload)
    let data ← canonicalJsonBytes R.json m.document
    if maxSize < data.length then
      .error (.messageDecodeError (str "message exceeds the configured frame limit"))
    -- the length does not fit the header: `struct.error`
    else if 2 ^ 32 ≤ data.length then .error .structError
    else .ok (be32 data.length ++ data)

/-- The fields that every message has. -/
def decodeHead (d : Fields) : Except Exn Message :=
  match lookup (str "msg_type") d, lookup (str "sender_id") d, lookup (str "payload") d,
      lookup (str "protocol_version") d with
  | some msgType, some senderId, some payload, some protocolVersion =>
    match msgType, senderId, payload, protocolVersion with
    | .str msgType, .str senderId, .obj payload, .int protocolVersion =>
      if msgType = [] ∨ maxMessageTypeLength < msgType.length ∨ senderId = [] ∨
          maxPeerIdLength < senderId.length then
        .error (.messageDecodeError (str "message fields have invalid types or lengths"))
      else .ok { msgType, senderId, payload, protocolVersion }
    | _, _, _, _ =>
      .error (.messageDecodeError (str "message fields have invalid types or lengths"))
  | _, _, _, _ => .error (.messageDecodeError (str "message is missing required fields"))

/-- `parsed.get("timestamp")`, as a float; a large integer has none. -/
def decodeTimestamp (d : Fields) : Except Exn (Option ℚ) :=
  match (lookup (str "timestamp") d).getD .null with
  | .null => .ok none
  | .int n => match floatOfInt n with
    | some q => .ok (some q)
    | none => .error .overflowError
  | .float (.finite q) => .ok (some q)
  | _ => .error (.messageDecodeError (str "message timestamp is invalid"))

def decodeNonce (d : Fields) : Except Exn (Option Str) :=
  match (lookup (str "nonce") d).getD .null with
  | .null => .ok none
  | .str s =>
    if s.length < 1 ∨ 128 < s.length then
      .error (.messageDecodeError (str "message nonce is invalid"))
    else .ok (some s)
  | _ => .error (.messageDecodeError (str "message nonce is invalid"))

def decodeSignature (d : Fields) : Except Exn (Option Bytes) :=
  match (lookup (str "signature") d).getD .null with
  | .null => .ok none
  | .str s =>
    if s.length ≠ 128 then .error (.messageDecodeError (str "message signature is invalid"))
    else match fromhex s with
      | some sig => .ok (some sig)
      | none => .error (.messageDecodeError (str "message signature is not hexadecimal"))
  | _ => .error (.messageDecodeError (str "message signature is invalid"))

/-- `from_bytes`, without the length in front. -/
def fromBytes (data : Bytes) (config : SecurityConfig) : Except Exn Message :=
  if config.maxFrameSize < data.length then
    .error (.messageDecodeError (str "message exceeds the configured frame limit"))
  else match R.json.loads false data with
    -- `RecursionError` is none of the exceptions that are caught
    | none =>
      if R.json.deep data then .error .recursionError
      else .error (.messageDecodeError (str "invalid message JSON: "))
    | some parsed => do
      validateJsonTree config.maxJsonDepth config.maxJsonItems config.maxStringLength parsed
      match parsed with
      | .obj d => do
        let m ← decodeHead d
        let timestamp ← decodeTimestamp d
        let nonce ← decodeNonce d
        let signature ← decodeSignature d
        pure { m with timestamp, nonce, signature }
      | _ => .error (.messageDecodeError (str "message root must be a JSON object"))

variable {R}

/-- Signing adds time, nonce and signature. -/
theorem signed_ok {m m' : Message} {seed : Bytes} {t : ℚ} {nonce : Str}
    (h : m.signed R seed t nonce = .ok m') : ∃ sig,
    m' = { m with timestamp := some t, nonce := some nonce, signature := some sig } := by
  unfold signed at h
  split_ifs at h
  obtain ⟨data, -, h⟩ := bind_eq_ok.1 h
  exact ⟨_, (Except.ok.inj h).symm⟩

/-- A message signed by a peer verifies under a keyring that holds the peer's key. -/
theorem verifySignature_signed (hE : R.ed25519.Lawful) {m m' : Message} {seed : Bytes} {t : ℚ}
    {nonce : Str} {K : PeerKeyRing} (h : m.signed R seed t nonce = .ok m')
    (hK : K.getPeerKey m.senderId = some (R.ed25519.publicKey seed)) :
    m'.verifySignature R K = .ok true := by
  unfold signed at h
  split_ifs at h
  obtain ⟨data, hd, h⟩ := bind_eq_ok.1 h
  obtain rfl := Except.ok.inj h
  have hc : ∀ s, canonicalBytes R
      { m with timestamp := some t, nonce := some nonce, signature := s } = .ok data := fun _ => hd
  simp only [verifySignature, hc]
  exact congrArg Except.ok (verify_iff.2 ⟨_, hK, hE.length_sign _ _, hE.verify_sign _ _⟩)

end Message

end PeerQ
