/-
  Limits, errors and bounded state shared by the wire protocols
  (`peerq/security.py`).

  `validate_json_tree` walks through a value with a stack.  It always ends, and
  it accepts a value if every node is at bounded depth, every string within its
  limit, every number finite, and there are boundedly many entries altogether
  (`validation_spec`).  The limits are any integers; the callers have natural
  ones (`validateJsonTree`, `validateJsonTree_ok_iff`).  The order of an object's
  fields does not matter (`validateJsonTree_canon`).
-/
import PeerQ.Lib.JsonTree
import PeerQ.Lib.Dict

namespace PeerQ

open Py

/-! ## Errors -/

/-- The exceptions the modelled code raises, with their texts; those of the interpreter itself
    carry none. -/
inductive Exn where
  | valueError (msg : Str)
  | unicodeEncodeError
  | typeError
  | attributeError
  | overflowError
  | recursionError
  | structError
  | messageDecodeError (msg : Str)
  | walError (msg : Str)
  | walCorruptError (msg : Str)
  | queueFull (msg : Str)
  deriving DecidableEq

namespace Exn

/-- `except (TypeError, ValueError)`; `UnicodeEncodeError` is a `ValueError`. -/
def isTypeOrValueError : Exn → Bool
  | valueError _ | unicodeEncodeError | typeError => true
  | _ => false

/-- `str(exc)`. -/
def text : Exn → Str
  | valueError m | messageDecodeError m | walError m | walCorruptError m | queueFull m => m
  | _ => []

end Exn

/-- A sequence of fallible steps succeeds if each of them does. -/
theorem bind_eq_ok {α β : Type} {x : Except Exn α} {f : α → Except Exn β} {b : β} :
    x >>= f = .ok b ↔ ∃ a, x = .ok a ∧ f a = .ok b := by
  cases x with
  | error e => simp [bind, Except.bind]
  | ok a => simp [bind, Except.bind]

theorem map_eq_ok {α β : Type} {x : Except Exn α} {f : α → β} {b : β} :
    x.map f = .ok b ↔ ∃ a, x = .ok a ∧ f a = b := by
  cases x <;> simp [Except.map]

theorem exists_ok {α : Type} {x : Except Exn α} (h : x.toOption.isSome = true) : ∃ a, x = .ok a := by
  cases x with
  | error e => exact absurd h (by simp [Except.toOption])
  | ok a => exact ⟨a, rfl⟩

/-- Nothing but exceptions of a kind is raised. -/
def OnlyRaises {α : Type} (p : Exn → Prop) (x : Except Exn α) : Prop := ∀ e, x = .error e → p e

namespace OnlyRaises

variable {α β : Type} {p : Exn → Prop} {x y : Except Exn α}

theorem ok (a : α) : OnlyRaises p (.ok a) := fun _ h => by cases h

theorem error {e : Exn} (h : p e) : OnlyRaises p (.error e : Except Exn α) := fun e' h' => by
  cases h'; exact h

theorem bind {f : α → Except Exn β} (hx : OnlyRaises p x) (hf : ∀ a, x = .ok a → OnlyRaises p (f a)) :
    OnlyRaises p (x >>= f) := by
  cases x with
  | error e => intro e' h; cases h; exact hx e rfl
  | ok a => exact hf a rfl

theorem map {f : α → β} (hx : OnlyRaises p x) : OnlyRaises p (x.map f) := by
  cases x with
  | error e => intro e' h; cases h; exact hx e rfl
  | ok a => exact .ok _

theorem ite {c : Prop} [Decidable c] (hx : OnlyRaises p x) (hy : OnlyRaises p y) :
    OnlyRaises p (if c then x else y) := by
  split_ifs
  exacts [hx, hy]

theorem bind_iff {f : α → Except Exn β} :
    OnlyRaises p (x >>= f) ↔ OnlyRaises p x ∧ ∀ a, x = .ok a → OnlyRaises p (f a) := by
  refine ⟨fun h => ?_, fun h => .bind h.1 h.2⟩
  cases x with
  | error e => exact ⟨.error (h e rfl), fun a ha => by cases ha⟩
  | ok a =>
    refine ⟨.ok a, fun a' ha => ?_⟩
    cases ha
    exact h

theorem map_iff {f : α → β} : OnlyRaises p (x.map f) ↔ OnlyRaises p x := by
  refine ⟨fun h e he => h e ?_, .map⟩
  rw [he]
  rfl

/-- What a loop raises, one of its rounds raises. -/
theorem foldlM_iff {f : β → α → Except Exn β} {l : List α} {b : β} :
    OnlyRaises p (l.foldlM f b) ↔ ∀ pre a post b', l = pre ++ a :: post →
      pre.foldlM f b = .ok b' → OnlyRaises p (f b' a) := by
  induction l generalizing b with
  | nil => exact iff_of_true (.ok b) fun pre a post b' h => by simp at h
  | cons a l ih =>
    rw [List.foldlM_cons, bind_iff]
    constructor
    · rintro ⟨hfirst, hrest⟩ pre a' post b' hl hpre
      cases pre with
      | nil =>
        obtain ⟨rfl, -⟩ := List.cons.inj hl
        cases hpre
        exact hfirst
      | cons c pre =>
        obtain ⟨rfl, rfl⟩ := List.cons.inj hl
        rw [List.foldlM_cons, bind_eq_ok] at hpre
        obtain ⟨b₁, hb₁, hpre⟩ := hpre
        exact ih.1 (hrest b₁ hb₁) pre a' post b' rfl hpre
    · intro h
      refine ⟨h [] a l b rfl rfl, fun b₁ hb₁ => ih.2 fun pre a' post b' hl hpre => ?_⟩
      refine h (a :: pre) a' post b' (by rw [hl, List.cons_append]) ?_
      rw [List.foldlM_cons, bind_eq_ok]
      exact ⟨b₁, hb₁, hpre⟩

theorem foldlM {f : β → α → Except Exn β} {l : List α} (hf : ∀ b, ∀ a ∈ l, OnlyRaises p (f b a))
    (b : β) : OnlyRaises p (l.foldlM f b) :=
  foldlM_iff.2 fun pre a post b' hl _ => hf b' a (by simp [hl])

end OnlyRaises

/-- `MessageDecodeError`. -/
def Exn.IsDecodeError (e : Exn) : Prop := ∃ msg, e = .messageDecodeError msg

theorem OnlyRaises.decodeError {α : Type} (msg : Str) :
    OnlyRaises Exn.IsDecodeError (.error (.messageDecodeError msg) : Except Exn α) :=
  .error ⟨msg, rfl⟩

/-! ## Limits -/

def maxFrameSize : ℕ := 256 * 1024
def maxTaskPayload : ℕ := 64 * 1024
def maxTaskResult : ℕ := 64 * 1024
def maxTaskIdLength : ℕ := 128
def maxPeerIdLength : ℕ := 128
def maxMessageTypeLength : ℕ := 32
def maxErrorLength : ℕ := 4 * 1024

theorem maxFrameSize_pos : 0 < maxFrameSize := by decide

/-- The policy fields that node, transport and discovery read (`SecurityConfig`), with what
    `__post_init__` checks. -/
structure SecurityConfig where
  enabled : Bool := true
  protocolVersion : ℕ := 2
  maxFrameSize : ℕ := PeerQ.maxFrameSize
  maxUdpPayload : ℕ := 4 * 1024
  maxPeers : ℕ := 128
  maxGossipTasks : ℕ := 128
  maxCreditAmount : ℕ := 100000
  maxLeaseDurationSeconds : ℚ := 3600
  replayCacheSize : ℕ := 4096
  replayWindowSeconds : ℚ := 30
  maxConnections : ℕ := 64
  maxInboxSize : ℕ := 1024
  maxJsonDepth : ℕ := 16
  maxJsonItems : ℕ := 10000
  maxStringLength : ℕ := 256 * 1024
  protocolVersion_pos : 0 < protocolVersion := by decide
  maxFrameSize_pos : 0 < maxFrameSize := by decide
  maxUdpPayload_pos : 0 < maxUdpPayload := by decide
  maxPeers_pos : 0 < maxPeers := by decide
  maxGossipTasks_pos : 0 < maxGossipTasks := by decide
  maxCreditAmount_pos : 0 < maxCreditAmount := by decide
  maxLeaseDurationSeconds_pos : 0 < maxLeaseDurationSeconds := by norm_num
  replayCacheSize_pos : 0 < replayCacheSize := by decide
  replayWindowSeconds_pos : 0 < replayWindowSeconds := by norm_num
  maxConnections_pos : 0 < maxConnections := by decide
  maxInboxSize_pos : 0 < maxInboxSize := by decide
  maxJsonDepth_pos : 0 < maxJsonDepth := by decide
  maxJsonItems_pos : 0 < maxJsonItems := by decide
  maxStringLength_pos : 0 < maxStringLength := by decide

/-- `SecurityConfig()`. -/
def SecurityConfig.default : SecurityConfig := {}

/-! ## JSON -/

/-- `canonical_json_bytes`: UTF-8 without ASCII escapes; lone surrogates, non-finite floats and
    integers that are too long are refused. -/
def canonicalJsonBytes (J : Codec) (v : Json) : Except Exn Bytes :=
  if v.plain && v.short then .ok (Json.print (Json.floatText J.floatRepr) Json.escapeRaw v.canon)
  else .error (.messageDecodeError (str "value is not safely JSON serializable: "))

/-- The limits of `validate_json_tree`. -/
structure JsonLimits where
  maxDepth : ℤ
  maxItems : ℤ
  maxStringLength : ℤ

/-- What a round of the loop does with the node it has popped, before the children are pushed; the
    state of the loop is `item_count`. -/
def validateNode (L : JsonLimits) (itemCount : ℕ) (node : Json × ℕ) : Except Exn ℕ :=
  if L.maxDepth < node.2 then
    .error (.messageDecodeError (str "JSON nesting exceeds the configured limit"))
  else match node.1 with
    | .str s => match s.utf8 with
      | none => .error .unicodeEncodeError
      | some b =>
        if L.maxStringLength < b.length then
          .error (.messageDecodeError (str "JSON string exceeds the configured limit"))
        else .ok itemCount
    | .float x => match x with
      | .finite _ => .ok itemCount
      | _ => .error (.messageDecodeError (str "non-finite JSON number is not permitted"))
    | .null | .bool _ | .int _ => .ok itemCount
    | .obj kvs =>
      if L.maxItems < (itemCount + kvs.length : ℕ) then
        .error (.messageDecodeError (str "JSON object contains too many items"))
      else .ok (itemCount + kvs.length)
    | .arr xs =>
      if L.maxItems < (itemCount + xs.length : ℕ) then
        .error (.messageDecodeError (str "JSON array contains too many items"))
      else .ok (itemCount + xs.length)

namespace JsonLimits

variable {L : JsonLimits} {n : Json × ℕ} {c : ℕ}

variable (L) in
/-- What is asked of every node. -/
def NodeOk (n : Json × ℕ) : Prop :=
  n.2 ≤ L.maxDepth ∧
    (∀ s, n.1 = .str s →
      s.valid = true ∧ (s.flatMap CodePoint.utf8).length ≤ L.maxStringLength) ∧
    ∀ x, n.1 = .float x → ∃ q, x = .finite q

/-- One node is accepted if it is in order and its entries can be added. -/
theorem validateNode_ok_iff {c' : ℕ} : validateNode L c n = .ok c' ↔ L.NodeOk n ∧
    (n.1.isCollection = true → (c + n.1.length : ℕ) ≤ L.maxItems) ∧ c + n.1.length = c' := by
  obtain ⟨v, d⟩ := n
  unfold validateNode
  by_cases hd : L.maxDepth < d
  · simp [hd, NodeOk]
  have hd' : d ≤ L.maxDepth := not_lt.1 hd
  have hok : L.NodeOk (v, d) → (v.isCollection = true → (c + v.length : ℕ) ≤ L.maxItems) →
      ((.ok (c + v.length) : Except Exn ℕ) = .ok c' ↔ L.NodeOk (v, d) ∧
        (v.isCollection = true → (c + v.length : ℕ) ≤ L.maxItems) ∧ c + v.length = c') := by
    intro hn hlen
    rw [Except.ok.injEq]
    exact ⟨fun h => ⟨hn, hlen, h⟩, fun h => h.2.2⟩
  -- a list or an object
  have hitems : ∀ e : Exn, v.isCollection = true → L.NodeOk (v, d) →
      ((if L.maxItems < (c + v.length : ℕ) then .error e else .ok (c + v.length)) =
          (.ok c' : Except Exn ℕ) ↔ L.NodeOk (v, d) ∧
        (v.isCollection = true → (c + v.length : ℕ) ≤ L.maxItems) ∧ c + v.length = c') := by
    intro e hcol hn
    split_ifs with hi
    · simp only [false_iff]
      rintro ⟨-, hle, -⟩
      exact absurd (hle hcol) (not_le.2 hi)
    · exact hok hn fun _ => not_lt.1 hi
  simp only [hd, if_false]
  cases v with
  | null | bool | int => exact hok ⟨hd', by simp, by simp⟩ (by simp [Json.isCollection])
  | float x =>
    cases x with
    | finite q => exact hok ⟨hd', by simp, by simp⟩ (by simp [Json.isCollection])
    | inf | nan => simp [NodeOk]
  | str s =>
    by_cases hv : s.valid = true
    · simp only [Str.utf8, hv, if_true]
      by_cases hl : L.maxStringLength < (s.flatMap CodePoint.utf8).length
      · simp only [hl, if_true, reduceCtorEq, false_iff]
        rintro ⟨⟨-, hs, -⟩, -⟩
        exact absurd (hs s rfl).2 (not_le.2 hl)
      · simp only [hl, if_false]
        refine hok ⟨hd', fun s' hs => ?_, by simp⟩ (by simp [Json.isCollection])
        cases hs
        exact ⟨hv, not_lt.1 hl⟩
    · simp [Str.utf8, hv, NodeOk]
  | obj | arr => exact hitems _ rfl ⟨hd', by simp, by simp⟩

/-- Nothing but `MessageDecodeError` is raised, unless a string cannot be encoded that is not too
    deep. -/
theorem validateNode_raises_iff : OnlyRaises Exn.IsDecodeError (validateNode L c n) ↔
    (n.2 ≤ L.maxDepth → ∀ s, n.1 = .str s → s.valid = true) := by
  obtain ⟨v, d⟩ := n
  unfold validateNode
  by_cases hd : L.maxDepth < d
  · simp only [hd, if_true]
    exact iff_of_true (.decodeError _) fun hle => absurd hle (not_le.2 hd)
  simp only [hd, if_false, not_lt.1 hd, forall_const]
  cases v with
  | null | bool | int => exact iff_of_true (.ok _) (by simp)
  | float x =>
    cases x with
    | finite q => exact iff_of_true (.ok _) (by simp)
    | inf | nan => exact iff_of_true (.decodeError _) (by simp)
  | str s =>
    by_cases hs : s.valid = true
    · simp only [Str.utf8, hs, if_true]
      exact iff_of_true (.ite (.decodeError _) (.ok _)) fun s' hs' => by cases hs'; exact hs
    · simp only [Str.utf8, hs, if_false, Bool.false_eq_true]
      refine iff_of_false (fun h => ?_) fun h => hs (h s rfl)
      obtain ⟨msg, hmsg⟩ := h _ rfl
      cases hmsg
  | obj | arr => exact iff_of_true (.ite (.decodeError _) (.ok _)) (by simp)

/-- The nodes are accepted one after the other if all are in order and all entries can be added. -/
theorem foldlM_ok_iff {ns : List (Json × ℕ)} : (∃ c', ns.foldlM (validateNode L) c = .ok c') ↔
    (∀ n ∈ ns, L.NodeOk n) ∧ ((∃ n ∈ ns, n.1.isCollection = true) →
      (c + (ns.map fun n => n.1.length).sum : ℕ) ≤ L.maxItems) := by
  induction ns generalizing c with
  | nil => simp [pure, Except.pure]
  | cons n ns ih =>
    rw [List.foldlM_cons, List.map_cons, List.sum_cons, ← Nat.add_assoc]
    constructor
    · rintro ⟨c', h⟩
      obtain ⟨b, hb, hrest⟩ := bind_eq_ok.1 h
      obtain ⟨hn, hlen, rfl⟩ := validateNode_ok_iff.1 hb
      obtain ⟨hns, hsum⟩ := ih.1 ⟨c', hrest⟩
      refine ⟨List.forall_mem_cons.2 ⟨hn, hns⟩, ?_⟩
      by_cases hcol : ∃ m ∈ ns, m.1.isCollection = true
      · exact fun _ => hsum hcol
      · -- The last collection has been counted.
        rintro ⟨m, hm, hmc⟩
        obtain rfl | hm := List.mem_cons.1 hm
        · rw [Json.sum_length_eq_zero hcol]
          exact hlen hmc
        · exact absurd ⟨m, hm, hmc⟩ hcol
    · rintro ⟨hall, hsum⟩
      obtain ⟨hn, hns⟩ := List.forall_mem_cons.1 hall
      have hb : validateNode L c n = .ok (c + n.1.length) := by
        refine validateNode_ok_iff.2 ⟨hn, fun hc => le_trans ?_ (hsum ⟨n, by simp, hc⟩), rfl⟩
        exact Nat.cast_le.2 (Nat.le_add_right _ _)
      obtain ⟨c', hc'⟩ := ih.2 ⟨hns, by
        rintro ⟨m, hm, hmc⟩
        exact hsum ⟨m, List.mem_cons_of_mem _ hm, hmc⟩⟩
      exact ⟨c', bind_eq_ok.2 ⟨_, hb, hc'⟩⟩

variable (L) in
/-- Every node is in order. -/
def Within (v : Json) : Prop :=
  ∀ n ∈ Json.nodes 0 v, n.2 ≤ L.maxDepth ∧
    (∀ s, n.1 = .str s → (s.flatMap CodePoint.utf8).length ≤ L.maxStringLength) ∧
    ∀ x, n.1 = .float x → ∃ q, x = .finite q

theorem within_iff {v : Json} (hv : ∀ n ∈ Json.nodes 0 v, ∀ s, n.1 = .str s → s.valid = true) :
    L.Within v ↔ ∀ n ∈ Json.nodes 0 v, L.NodeOk n := by
  refine forall₂_congr fun n hn => and_congr_right fun _ => and_congr_left fun _ => ?_
  exact forall₂_congr fun s hs => (and_iff_right (hv n hn s hs)).symm

/-- **What the loop comes to.**  It ends in one way; it accepts the values all of whose nodes are in
    order and whose lists and objects have no more than `max_items` entries together, and raises
    `MessageDecodeError` for the others.  A value that is no list or object is not counted, which
    matters for negative limits only. -/
theorem validation_spec (L : JsonLimits) {v : Json}
    (hv : ∀ n ∈ Json.nodes 0 v, ∀ s, n.1 = .str s → s.valid = true) :
    ∃ r, (∀ r', Traversal.Ends Json.tree (validateNode L) [(v, 0)] 0 r' ↔ r' = r) ∧
      ((∃ c, r = .ok c) ↔ L.Within v ∧ (v.isCollection = true →
        ((Json.nodes 0 v).map fun n => n.1.length).sum ≤ L.maxItems)) ∧
      (0 ≤ L.maxItems → ((∃ c, r = .ok c) ↔ L.Within v ∧
        ((Json.nodes 0 v).map fun n => n.1.length).sum ≤ L.maxItems)) ∧
      ∀ e, r = .error e → ∃ msg, e = .messageDecodeError msg := by
  have hok : (∃ c, (Json.nodes 0 v).foldlM (validateNode L) 0 = .ok c) ↔ L.Within v ∧
      (v.isCollection = true → ((Json.nodes 0 v).map fun n => n.1.length).sum ≤ L.maxItems) := by
    rw [foldlM_ok_iff, ← within_iff hv, Json.exists_collection_iff, Nat.zero_add]
  refine ⟨(Json.nodes 0 v).foldlM (validateNode L) 0, fun r' => ?_, hok, fun hpos => ?_, ?_⟩
  · rw [Traversal.ends_iff, Json.pending_singleton]
    exact eq_comm
  · rw [hok]
    refine and_congr_right fun _ => ⟨fun h => ?_, fun h _ => h⟩
    by_cases hcol : v.isCollection = true
    · exact h hcol
    · rw [Json.sum_length_eq_zero (mt Json.exists_collection_iff.1 hcol)]
      exact hpos
  · exact OnlyRaises.foldlM (fun c n hn => validateNode_raises_iff.2 fun _ => hv n hn) 0

namespace Sample

/-- Three entries, two levels deep. -/
def nested : Json := .arr [.obj [(str "k", .int 1)], .str (str "s")]

theorem mem_nested {n : Json × ℕ} (h : n ∈ Json.nodes 0 nested) :
    n = (nested, 0) ∨ n = (.str (str "s"), 1) ∨ n = (.obj [(str "k", .int 1)], 1) ∨
      n = (.int 1, 2) ∨ n = (.str (str "k"), 2) := by
  simpa [nested, Json.nodes, Json.nodesElems, Json.nodesFields] using h

end Sample

theorem validation_spec_nested :
    ∃ c, Traversal.Ends Json.tree (validateNode ⟨2, 3, 1⟩) [(Sample.nested, 0)] 0 (.ok c) := by
  obtain ⟨r, hr, hok, -⟩ := validation_spec ⟨2, 3, 1⟩ (v := Sample.nested) (by
    intro n hn s hs
    rcases Sample.mem_nested hn with rfl | rfl | rfl | rfl | rfl <;> cases hs <;> decide)
  have hwithin : JsonLimits.Within ⟨2, 3, 1⟩ Sample.nested := by
    intro n hn
    rcases Sample.mem_nested hn with rfl | rfl | rfl | rfl | rfl <;>
      refine ⟨by decide, fun s hs => ?_, fun x hx => by cases hx⟩ <;> cases hs <;> decide
  obtain ⟨c, rfl⟩ := hok.2 ⟨hwithin, fun _ => by decide⟩
  exact ⟨c, (hr _).2 rfl⟩

/-- A value without entries is accepted under a negative limit. -/
theorem validation_negative_items :
    ¬ ∀ (L : JsonLimits) (v : Json) (r : Except Exn ℕ),
      (∀ n ∈ Json.nodes 0 v, ∀ s, n.1 = .str s → s.valid = true) →
      Traversal.Ends Json.tree (validateNode L) [(v, 0)] 0 r →
        ((∃ c, r = .ok c) ↔ L.Within v ∧
          ((Json.nodes 0 v).map fun n => n.1.length).sum ≤ L.maxItems) := by
  intro h
  have hnull := h ⟨0, -1, 0⟩ .null (.ok 0) (by simp [Json.nodes]) (.visited rfl .done)
  obtain ⟨-, hle⟩ := hnull.1 ⟨0, rfl⟩
  exact absurd hle (by decide)

end JsonLimits

section
variable (maxDepth maxItems maxStringLength : ℕ)

/-- `validate_json_tree` with natural limits.  Every round of its loop pops one node, so the number of
    nodes bounds the rounds. -/
def validateJsonTree (value : Json) : Except Exn Unit :=
  (Traversal.walk Json.tree (validateNode ⟨maxDepth, maxItems, maxStringLength⟩) value.size
    [(value, 0)] 0).map fun _ => ()

variable {maxDepth maxItems maxStringLength}

theorem validateJsonTree_eq (v : Json) : validateJsonTree maxDepth maxItems maxStringLength v =
    ((Json.nodes 0 v).foldlM (validateNode ⟨maxDepth, maxItems, maxStringLength⟩) 0).map
      fun _ => () := by
  have hfuel : (Traversal.pending Json.tree [(v, 0)]).length ≤ v.size := by
    rw [Json.pending_singleton, Json.length_nodes]
  rw [validateJsonTree, Traversal.walk_eq hfuel, Json.pending_singleton]

/-- Nodes are accepted one after the other, under natural limits. -/
theorem validateNodes_ok_iff {ns : List (Json × ℕ)} :
    (∃ c, ns.foldlM (validateNode ⟨maxDepth, maxItems, maxStringLength⟩) 0 = .ok c) ↔
      (∀ n ∈ ns, JsonLimits.NodeOk ⟨maxDepth, maxItems, maxStringLength⟩ n) ∧
        (ns.map fun n => n.1.length).sum ≤ maxItems := by
  rw [JsonLimits.foldlM_ok_iff, Nat.zero_add, Nat.cast_le]
  refine and_congr_right fun _ => ⟨fun h => ?_, fun h _ => h⟩
  by_cases hcol : ∃ n ∈ ns, n.1.isCollection = true
  · exact h hcol
  · rw [Json.sum_length_eq_zero hcol]
    exact Nat.zero_le _

/-- **What `validate_json_tree` accepts**, whatever the order in which it visits the nodes. -/
theorem validateJsonTree_ok_iff (v : Json) :
    validateJsonTree maxDepth maxItems maxStringLength v = .ok () ↔
      Json.bounded maxDepth maxStringLength 0 v = true ∧ v.items ≤ maxItems := by
  rw [validateJsonTree_eq, map_eq_ok]
  simp only [and_true]
  rw [validateNodes_ok_iff, Json.sum_length_nodes]
  simp only [Json.bounded_iff_nodes, JsonLimits.NodeOk, Nat.cast_le]

theorem validateJsonTree_canon (v : Json) :
    validateJsonTree maxDepth maxItems maxStringLength v.canon = .ok () ↔
      validateJsonTree maxDepth maxItems maxStringLength v = .ok () := by
  rw [validateJsonTree_ok_iff, validateJsonTree_ok_iff, Json.bounded_canon, Json.items_canon]

end

/-! ## Nonce cache -/

/-- `ReplayCache`: remembered `(sender_id, nonce)` pairs with their times, oldest first. -/
structure ReplayCache where
  maxEntries : ℕ
  entries : Dict (Str × Str) ℚ

namespace ReplayCache

/-- `check_and_remember`: forget what left the window, refuse a pair that is still there, else
    remember it and keep the newest `max_entries` pairs. -/
def checkAndRemember (c : ReplayCache) (senderId nonce : Str) (now window : ℚ) :
    Bool × ReplayCache :=
  let cutoff := now - window
  let live := c.entries.dropWhile fun e => e.2 < cutoff
  let key := (senderId, nonce)
  if live.has key then (false, { c with entries := live })
  else
    let all := live.set key now
    (true, { c with entries := all.drop (all.size - c.maxEntries) })

end ReplayCache

end PeerQ
