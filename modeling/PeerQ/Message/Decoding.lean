/-
  What `Message.from_bytes` raises.

  Only `json.loads` stands in a `try`, and only for `ValueError`: text nested too
  deeply for the interpreter, a lone surrogate in a string and a timestamp beyond
  the floats leave the decoder with exceptions of their own, if the decoder comes
  to them.  There are no others (`fromBytes_raises_iff`).
-/
import PeerQ.Message

namespace PeerQ

open Py

/-! ## Validation -/

/-- The limits that a decoded message is validated with. -/
def SecurityConfig.jsonLimits (config : SecurityConfig) : JsonLimits :=
  ⟨config.maxJsonDepth, config.maxJsonItems, config.maxStringLength⟩

/-- The nodes that a validation visits first are in order. -/
def SecurityConfig.Passes (config : SecurityConfig) (ns : List (Json × ℕ)) : Prop :=
  (∀ n ∈ ns, config.jsonLimits.NodeOk n) ∧
    (ns.map fun n => n.1.length).sum ≤ config.maxJsonItems

/-- Validation raises `MessageDecodeError` only, unless it comes to a string with a surrogate. -/
theorem validateJsonTree_raises_iff {config : SecurityConfig} {v : Json} :
    OnlyRaises Exn.IsDecodeError
      (validateJsonTree config.maxJsonDepth config.maxJsonItems config.maxStringLength v) ↔
    ∀ pre n post, Json.nodes 0 v = pre ++ n :: post → config.Passes pre →
      n.2 ≤ config.maxJsonDepth → ∀ s, n.1 = .str s → s.valid = true := by
  rw [validateJsonTree_eq, OnlyRaises.map_iff, OnlyRaises.foldlM_iff]
  simp only [JsonLimits.validateNode_raises_iff, Nat.cast_le]
  constructor
  · intro h pre n post hv hpre
    obtain ⟨c, hc⟩ := validateNodes_ok_iff.2 hpre
    exact h pre n post c hv hc
  · intro h pre n post c hv hc
    exact h pre n post hv (validateNodes_ok_iff.1 ⟨c, hc⟩)

namespace Message

/-! ## The fields -/

theorem decodeHead_raises (d : Fields) : OnlyRaises Exn.IsDecodeError (decodeHead d) := by
  unfold decodeHead
  split
  · split
    · exact .ite (.decodeError _) (.ok _)
    · exact .decodeError _
  · exact .decodeError _

theorem decodeTimestamp_raises_iff {d : Fields} :
    OnlyRaises Exn.IsDecodeError (decodeTimestamp d) ↔
      ∀ n, lookup (str "timestamp") d = some (.int n) → (floatOfInt n).isSome = true := by
  unfold decodeTimestamp
  cases hl : lookup (str "timestamp") d with
  | none => exact iff_of_true (.ok _) (by simp)
  | some v =>
    rw [Option.getD_some]
    cases v with
    | null => exact iff_of_true (.ok _) (by simp)
    | int n =>
      simp only [Option.some.injEq, Json.int.injEq, forall_eq']
      cases hq : floatOfInt n with
      | some q => exact iff_of_true (.ok _) rfl
      | none =>
        refine iff_of_false (fun h => ?_) Bool.false_ne_true
        obtain ⟨msg, hmsg⟩ := h _ rfl
        cases hmsg
    | float x =>
      cases x with
      | finite q => exact iff_of_true (.ok _) (by simp)
      | inf | nan => exact iff_of_true (.decodeError _) (by simp)
    | _ => exact iff_of_true (.decodeError _) (by simp)

theorem decodeNonce_raises (d : Fields) : OnlyRaises Exn.IsDecodeError (decodeNonce d) := by
  unfold decodeNonce
  split
  exacts [.ok _, .ite (.decodeError _) (.ok _), .decodeError _]

theorem decodeSignature_raises (d : Fields) : OnlyRaises Exn.IsDecodeError (decodeSignature d) := by
  unfold decodeSignature
  split
  · exact .ok _
  · refine .ite (.decodeError _) ?_
    split
    exacts [.ok _, .decodeError _]
  · exact .decodeError _

/-- The fields are decoded one after the other. -/
theorem decodeFields_raises_iff (d : Fields) : OnlyRaises Exn.IsDecodeError (do
      let m ← decodeHead d
      let timestamp ← decodeTimestamp d
      let nonce ← decodeNonce d
      let signature ← decodeSignature d
      pure { m with timestamp, nonce, signature }) ↔
    ∀ m n, decodeHead d = .ok m → lookup (str "timestamp") d = some (.int n) →
      (floatOfInt n).isSome = true := by
  rw [OnlyRaises.bind_iff, and_iff_right (decodeHead_raises d)]
  constructor
  · intro h m n hm
    exact decodeTimestamp_raises_iff.1 (OnlyRaises.bind_iff.1 (h m hm)).1 n
  · intro h m hm
    refine .bind (decodeTimestamp_raises_iff.2 fun n => h m n hm) fun _ _ => ?_
    exact .bind (decodeNonce_raises d) fun _ _ => .bind (decodeSignature_raises d) fun _ _ => .ok _

/-! ## The decoder -/

/-- Wire data on which the interpreter raises nothing of its own: its text is not nested too deeply;
    no string that the validation comes to has a surrogate; and once everything before it is in order,
    the timestamp is no integer beyond the floats. -/
structure Tame (R : Runtime) (config : SecurityConfig) (data : Bytes) : Prop where
  shallow : R.json.loads false data = none → R.json.deep data = false
  unicode : ∀ v, R.json.loads false data = some v → ∀ pre n post,
    Json.nodes 0 v = pre ++ n :: post → config.Passes pre → n.2 ≤ config.maxJsonDepth →
      ∀ s, n.1 = .str s → s.valid = true
  timestamp : ∀ d m n, R.json.loads false data = some (.obj d) →
    validateJsonTree config.maxJsonDepth config.maxJsonItems config.maxStringLength (.obj d) =
      .ok () → decodeHead d = .ok m → lookup (str "timestamp") d = some (.int n) →
        (floatOfInt n).isSome = true

/-- **What the decoder raises** is `MessageDecodeError` and nothing else, exactly on tame data and on
    data beyond the limit. -/
theorem fromBytes_raises_iff (R : Runtime) (config : SecurityConfig) (data : Bytes) :
    (∀ e, fromBytes R data config = .error e → ∃ msg, e = .messageDecodeError msg) ↔
      (data.length ≤ config.maxFrameSize → Tame R config data) := by
  change OnlyRaises Exn.IsDecodeError (fromBytes R data config) ↔ _
  unfold fromBytes
  by_cases hlen : config.maxFrameSize < data.length
  · rw [if_pos hlen]
    exact iff_of_true (.decodeError _) fun hle => absurd hle (not_le.2 hlen)
  simp only [if_neg hlen, not_lt.1 hlen, forall_const]
  cases hl : R.json.loads false data with
  | none =>
    cases hdeep : R.json.deep data with
    | false =>
      refine iff_of_true (.decodeError _) ⟨fun _ => hdeep, fun v hv => ?_, fun d m n hd => ?_⟩
      · rw [hl] at hv
        cases hv
      · rw [hl] at hd
        cases hd
    | true =>
      refine iff_of_false (fun h => ?_) fun h => ?_
      · obtain ⟨msg, hmsg⟩ := h _ rfl
        cases hmsg
      · exact absurd (h.shallow hl) (by rw [hdeep]; decide)
  | some v =>
    rw [OnlyRaises.bind_iff, validateJsonTree_raises_iff]
    constructor
    · rintro ⟨hunicode, hrest⟩
      refine ⟨fun hnone => ?_, fun v' hv' => ?_, fun d m n hd hvalid hm => ?_⟩
      · rw [hl] at hnone
        cases hnone
      · obtain rfl := Option.some.inj (hl.symm.trans hv')
        exact hunicode
      · obtain rfl := Option.some.inj (hl.symm.trans hd)
        exact (decodeFields_raises_iff d).1 (hrest () hvalid) m n hm
    · intro h
      refine ⟨h.unicode v hl, fun _ hvalid => ?_⟩
      cases v with
      | obj d => exact (decodeFields_raises_iff d).2 fun m n hm => h.timestamp d m n hl hvalid hm
      | _ => exact .decodeError _

namespace Sample

/-- The fields of a heartbeat at a whole time, without a signature. -/
def heartbeatAt (n : ℤ) : Fields :=
  [(str "msg_type", .str (str "heartbeat")), (str "payload", .obj []),
    (str "protocol_version", .int 2), (str "sender_id", .str (str "a")), (str "timestamp", .int n)]

theorem canon_heartbeatAt (n : ℤ) : (Json.obj (heartbeatAt n)).canon = .obj (heartbeatAt n) := by
  have hkeys : ([str "msg_type", str "payload", str "protocol_version", str "sender_id",
      str "timestamp"] : List Str).Pairwise (· ≤ ·) := by decide
  rw [heartbeatAt, Json.canon]
  exact congrArg Json.obj (Json.sortKeys_eq_self hkeys)

theorem bounded_heartbeatAt (n : ℤ) :
    Json.bounded 16 (256 * 1024) 0 (.obj (heartbeatAt n)) = true := by
  simp only [heartbeatAt, Json.bounded, Json.boundedFields]
  decide

theorem loads_heartbeatAt (R : Runtime) {n : ℤ} (hshort : Json.shortInt n = true) :
    R.json.loads false (R.json.dumps (.obj (heartbeatAt n))) = some (.obj (heartbeatAt n)) := by
  have hwf : (Json.obj (heartbeatAt n)).wf = true := by
    simp only [heartbeatAt, Json.wf, Json.wfFields, List.map_cons, List.map_nil, Bool.and_true]
    decide
  have hshort' : (Json.obj (heartbeatAt n)).short = true := by
    have htwo : Json.shortInt 2 = true := by decide
    simp [heartbeatAt, Json.short, Json.shortFields, hshort, htwo]
  have hread := R.json.loads_dumps false (by decide) hwf (bounded_heartbeatAt n) hshort'
  rwa [canon_heartbeatAt] at hread

/-- A time beyond the floats. -/
theorem fromBytes_heartbeatAt {R : Runtime} {n : ℤ} (hn : floatOfInt n = none)
    (hshort : Json.shortInt n = true)
    (hlen : ¬ maxFrameSize < (R.json.dumps (.obj (heartbeatAt n))).length) :
    fromBytes R (R.json.dumps (.obj (heartbeatAt n))) {} = .error .overflowError := by
  have hvalid : validateJsonTree 16 10000 (256 * 1024) (.obj (heartbeatAt n)) = .ok () :=
    (validateJsonTree_ok_iff _).2 ⟨bounded_heartbeatAt n, by
      simp [heartbeatAt, Json.items, Json.itemsFields]⟩
  have htime : decodeTimestamp (heartbeatAt n) = .error .overflowError := by
    have hl : lookup (str "timestamp") (heartbeatAt n) = some (.int n) := rfl
    rw [decodeTimestamp, hl, Option.getD_some]
    simp only [hn]
  have hhead : decodeHead (heartbeatAt n) =
      .ok { msgType := str "heartbeat", senderId := str "a", payload := [] } := rfl
  rw [fromBytes, if_neg hlen, loads_heartbeatAt R hshort]
  simp only [hvalid, hhead, htime]
  rfl

end Sample

/-- A timestamp of 2 ^ 1024 is no float: `OverflowError`. -/
theorem fromBytes_overflows :
    ¬ ∀ (R : Runtime) (data : Bytes) (config : SecurityConfig) (e : Exn),
      fromBytes R data config = .error e → ∃ msg, e = .messageDecodeError msg := by
  intro h
  obtain ⟨msg, hmsg⟩ := h (.ofScheme .suffix) _ {} _
    (Sample.fromBytes_heartbeatAt (n := 2 ^ 1024) (by decide +kernel) (by decide +kernel)
      (by decide +kernel))
  cases hmsg

end Message

end PeerQ
