/-
  The periodic gossip: which tasks its messages carry.

  Every round sends the first `max_gossip_tasks` tasks in the order of their ids,
  so as long as the store does not change all rounds send the same tasks.  They
  are all the tasks exactly if there are no more of them, and they arrive only if
  one message with all of them fits into a frame (`all_gossiped_iff`).
-/
import PeerQ.Node.Gossip

namespace PeerQ

open Py

namespace PeerNode

variable {R : Runtime} (N : PeerNode R)

def Event.isGossipRound : Event → Bool
  | .gossipRound .. => true
  | _ => false

/-- The messages that the gossip rounds of a run hand to the transport. -/
def gossiped : NodeState → List Event → List Message
  | _, [] => []
  | s, e :: es =>
    (if e.isGossipRound then ((N.step s e).sent.drop s.sent.length).map Prod.snd else []) ++
      gossiped (N.step s e) es

/-- The event comes while the store is `tasks`; if it is a gossip round, then one of a running loop,
    with a partner chosen among the peers. -/
def SteadyRound (tasks : Dict Str TaskRecord) (s : NodeState) (e : Event) : Prop :=
  s.tasks = tasks ∧ match e with
    | .gossipRound partner _ _ => s.gossiping = true ∧ (N.peers = [] ∨ partner ∈ N.peers)
    | _ => True

/-! ## What a round sends -/

section
variable {N} {s : NodeState} {es : List Event}

theorem gossipMessage_congr {s s' : NodeState} (h : s'.tasks = s.tasks) (wallNow : ℚ)
    (nonce : Str) : N.gossipMessage s' wallNow nonce = N.gossipMessage s wallNow nonce := by
  unfold gossipMessage taskItems
  rw [h]

/-- A gossip message carries the records it was made from. -/
theorem signedMessage_tasks {l : List (Str × TaskRecord)} {wallNow : ℚ} {nonce : Str} {m : Message}
    (h : N.signedMessage (str "gossip") (gossipPayload l) wallNow nonce = .ok m) :
    m.tasks = l.map fun e => (e.1, e.2.toDict) := by
  obtain ⟨sig, rfl⟩ := Message.signed_ok h
  rfl

/-- A round sends the gossip message, if there is a task and someone to send it to. -/
theorem step_gossipRound_sent {partner : Str} {wallNow : ℚ} {nonce : Str} {m : Message}
    (hg : s.gossiping = true) (hp : N.peers = [] ∨ partner ∈ N.peers) :
    m ∈ ((N.step s (.gossipRound partner wallNow nonce)).sent.drop s.sent.length).map Prod.snd ↔
      N.peers ≠ [] ∧ s.tasks.size ≠ 0 ∧ N.gossipMessage s wallNow nonce = .ok m := by
  have hpeer : partner ∈ N.peers ↔ N.peers ≠ [] := by
    refine ⟨fun h he => ?_, fun h => hp.resolve_left h⟩
    rw [he] at h
    exact absurd h (by simp)
  simp only [step, hg, if_true, gossipRound]
  split_ifs with h
  · rw [hpeer] at h
    simp only [List.drop_length, List.map_nil, List.not_mem_nil, false_iff]
    tauto
  · rw [hpeer] at h
    push Not at h
    cases N.gossipMessage s wallNow nonce with
    | error e => simp
    | ok msg => simp [NodeState.send, h, eq_comm]

/-- **What the rounds of a run send** while the store does not change. -/
theorem mem_gossiped {s₀ : NodeState} {m : Message} : ∀ {es : List Event} {s : NodeState},
    Along (N.SteadyRound s₀.tasks) N.step s es →
    (m ∈ N.gossiped s es ↔ ∃ partner wallNow nonce, .gossipRound partner wallNow nonce ∈ es ∧
      N.peers ≠ [] ∧ s₀.tasks.size ≠ 0 ∧ N.gossipMessage s₀ wallNow nonce = .ok m)
  | [], _, _ => by simp [gossiped]
  | e :: es, s, ⟨⟨hs, he⟩, hes⟩ => by
    have ih := mem_gossiped (m := m) hes
    rw [gossiped, List.mem_append, ih]
    cases e with
    | gossipRound partner wallNow nonce =>
      obtain ⟨hg, hp⟩ := he
      simp only [Event.isGossipRound, if_true]
      rw [step_gossipRound_sent hg hp, hs, gossipMessage_congr hs]
      constructor
      · rintro (⟨h1, h2, h3⟩ | ⟨p, w, n, hmem, h⟩)
        · exact ⟨partner, wallNow, nonce, by simp, h1, h2, h3⟩
        · exact ⟨p, w, n, List.mem_cons_of_mem _ hmem, h⟩
      · rintro ⟨p, w, n, hmem, h⟩
        rcases List.mem_cons.1 hmem with heq | hmem
        · obtain ⟨rfl, rfl, rfl⟩ := Event.gossipRound.inj heq
          exact Or.inl h
        · exact Or.inr ⟨p, w, n, hmem, h⟩
    | _ => simp [Event.isGossipRound]

/-! ## Which tasks are left out -/

/-- The tasks of a round are the first ones in the order of their ids. -/
theorem mem_sortKeys_entries {t : Str} {r : TaskRecord} :
    (t, r) ∈ Json.sortKeys s.tasks.entries ↔ s.tasks.get t = some r := by
  rw [(Json.sortKeys_perm _).mem_iff, Dict.mem_entries]

/-- A store with more tasks than a message may carry has one that no round sends. -/
theorem exists_left_out (h : N.security.maxGossipTasks < s.tasks.size) : ∃ t r,
    s.tasks.get t = some r ∧ t ∉ (N.taskItems s).map Prod.fst := by
  set l := Json.sortKeys s.tasks.entries with hl
  have hperm := Json.sortKeys_perm s.tasks.entries
  have hnodup : (l.map Prod.fst).Nodup :=
    ((hperm.map Prod.fst).nodup_iff).2 s.tasks.nodup
  have hlen : N.security.maxGossipTasks < l.length := hperm.length_eq ▸ h
  -- the first task behind the cut
  obtain ⟨⟨t, r⟩, rest, hd⟩ := List.exists_cons_of_ne_nil
    (List.ne_nil_of_length_pos (l := l.drop N.security.maxGossipTasks)
      (by rw [List.length_drop]; omega))
  have hmem : (t, r) ∈ l.drop N.security.maxGossipTasks := by rw [hd]; simp
  refine ⟨t, r, mem_sortKeys_entries.1 (List.mem_of_mem_drop hmem), fun ht => ?_⟩
  rw [← List.take_append_drop N.security.maxGossipTasks l, List.map_append] at hnodup
  exact (List.disjoint_of_nodup_append hnodup) ht (List.mem_map.2 ⟨_, hmem, rfl⟩)

theorem taskItems_all (h : s.tasks.size ≤ N.security.maxGossipTasks) :
    N.taskItems s = Json.sortKeys s.tasks.entries :=
  List.take_of_length_le ((Json.sortKeys_perm s.tasks.entries).length_eq.trans_le h)

/-- The number of rounds that would do. -/
theorem rounds_eq_one {n k : ℕ} (h0 : n ≠ 0) (h : n ≤ k) : ⌈(n : ℚ) / k⌉₊ = 1 := by
  have hn : (0 : ℚ) < n := by exact_mod_cast Nat.pos_of_ne_zero h0
  have hk : (0 : ℚ) < k := by exact_mod_cast (Nat.pos_of_ne_zero h0).trans_le h
  rw [Nat.ceil_eq_iff one_ne_zero]
  refine ⟨by simpa using div_pos hn hk, ?_⟩
  rw [div_le_iff₀ hk]
  simpa using h

theorem eq_of_countP_eq_one {α : Type} {p : α → Bool} {l : List α} (h : l.countP p = 1) {a b : α}
    (ha : a ∈ l) (hpa : p a = true) (hb : b ∈ l) (hpb : p b = true) : a = b := by
  rw [List.countP_eq_length_filter, List.length_eq_one_iff] at h
  obtain ⟨x, hx⟩ := h
  have ha' : a ∈ l.filter p := List.mem_filter.2 ⟨ha, hpa⟩
  have hb' : b ∈ l.filter p := List.mem_filter.2 ⟨hb, hpb⟩
  rw [hx, List.mem_singleton] at ha' hb'
  rw [ha', hb']

end

/-- **Which stores are gossiped.**  In as many rounds as there are batches, and while the store does
    not change, every task is in a message that fits into a frame exactly if there is a peer, one
    batch takes all tasks, and the message with all tasks fits into a frame. -/
theorem all_gossiped_iff {s : NodeState} {es : List Event} (limit : ℕ)
    (hes : Along (N.SteadyRound s.tasks) N.step s es)
    (hcount : es.countP Event.isGossipRound =
      ⌈(s.tasks.size : ℚ) / N.security.maxGossipTasks⌉₊) :
    (∀ t r, s.tasks.get t = some r → ∃ m ∈ N.gossiped s es, (t, r.toDict) ∈ m.tasks ∧
      ∃ b, m.toBytes R limit = .ok b) ↔
    (s.tasks.size ≠ 0 → N.peers ≠ []) ∧ s.tasks.size ≤ N.security.maxGossipTasks ∧
      ∀ partner wallNow nonce, .gossipRound partner wallNow nonce ∈ es → ∃ m b,
        N.signedMessage (str "gossip") (gossipPayload (Json.sortKeys s.tasks.entries)) wallNow nonce =
          .ok m ∧ m.toBytes R limit = .ok b := by
  by_cases h0 : s.tasks.size = 0
  · -- an empty store: nothing to send, and no rounds
    have hempty : s.tasks.entries = [] := List.eq_nil_of_length_eq_zero h0
    have hnone : ∀ t, s.tasks.get t = none := fun t => by
      rw [Dict.get_eq_none, Dict.keys, hempty]; simp
    rw [h0, Nat.cast_zero, zero_div, Nat.ceil_zero, List.countP_eq_zero] at hcount
    simp only [hnone, reduceCtorEq, false_implies, implies_true, h0, ne_eq, not_true_eq_false,
      Nat.zero_le, true_and, true_iff]
    exact fun p w n hmem => absurd rfl (hcount _ hmem)
  obtain ⟨⟨t₀, r₀⟩, h₀⟩ : ∃ e, e ∈ s.tasks.entries :=
    List.exists_mem_of_ne_nil _ fun h => h0 (by rw [Dict.size, h]; rfl)
  rw [Dict.mem_entries] at h₀
  constructor
  · intro hall
    obtain ⟨m, hm, -, b, hb⟩ := hall t₀ r₀ h₀
    obtain ⟨p, w, n, hmem, hpeers, -, hmsg⟩ := (mem_gossiped hes).1 hm
    have hle : s.tasks.size ≤ N.security.maxGossipTasks := by
      by_contra hlt
      obtain ⟨t, r, hr, hout⟩ := exists_left_out (not_le.1 hlt)
      obtain ⟨m, hm, ht, -⟩ := hall t r hr
      obtain ⟨p, w, n, -, -, -, hmsg⟩ := (mem_gossiped hes).1 hm
      rw [signedMessage_tasks hmsg] at ht
      obtain ⟨e, he, heq⟩ := List.mem_map.1 ht
      exact hout (List.mem_map.2 ⟨e, he, (Prod.mk.inj heq).1⟩)
    refine ⟨fun _ => hpeers, hle, fun p' w' n' hmem' => ?_⟩
    -- there is only one round
    rw [rounds_eq_one h0 hle] at hcount
    obtain ⟨-, rfl, rfl⟩ := Event.gossipRound.inj (eq_of_countP_eq_one hcount hmem' rfl hmem rfl)
    rw [gossipMessage, taskItems_all hle] at hmsg
    exact ⟨m, b, hmsg, hb⟩
  · rintro ⟨hpeers, hle, hfit⟩ t r hr
    rw [rounds_eq_one h0 hle] at hcount
    obtain ⟨e, he, hround⟩ := List.countP_pos_iff.1 (by rw [hcount]; exact Nat.one_pos)
    cases e with
    | gossipRound p w n =>
      obtain ⟨m, b, hmsg, hb⟩ := hfit p w n he
      refine ⟨m, (mem_gossiped hes).2 ⟨p, w, n, he, hpeers h0, h0, ?_⟩, ?_, b, hb⟩
      · rw [gossipMessage, taskItems_all hle]; exact hmsg
      · rw [signedMessage_tasks hmsg]
        exact List.mem_map.2 ⟨(t, r), mem_sortKeys_entries.2 hr, rfl⟩
    | _ => exact absurd hround (by simp [Event.isGossipRound])

namespace Sample

/-- The node with room for one task in a gossip message. -/
noncomputable def narrowC : PeerNode runtime :=
  { nodeC with
    security := { SecurityConfig.default with
      maxGossipTasks := 1
      maxGossipTasks_pos := Nat.one_pos } }

noncomputable def oneTask : NodeState :=
  run nodeC.step nodeC.initial [.submit (str "t") [] 0]

noncomputable def twoTasks : NodeState :=
  run narrowC.step narrowC.initial [.submit (str "t") [] 0, .submit (str "u") [] 0]

end Sample

theorem all_gossiped_single :
    ∃ r, Sample.oneTask.tasks.get (str "t") = some r ∧
      ∃ m ∈ Sample.nodeC.gossiped Sample.oneTask [.gossipRound (str "a") 0 (str "n")],
        (str "t", r.toDict) ∈ m.tasks ∧
        ∃ b, m.toBytes Sample.runtime Sample.nodeC.security.maxFrameSize = .ok b := by
  have hget : (Sample.oneTask.tasks.get (str "t")).isSome = true := by decide
  obtain ⟨r, hr⟩ := Option.isSome_iff_exists.1 hget
  have hsize : Sample.oneTask.tasks.size = 1 := by decide
  have hes : Along (Sample.nodeC.SteadyRound Sample.oneTask.tasks) Sample.nodeC.step Sample.oneTask
      [.gossipRound (str "a") 0 (str "n")] :=
    ⟨⟨rfl, by decide, Or.inr (by decide)⟩, trivial⟩
  have hfit : ((Sample.nodeC.signedMessage (str "gossip") (gossipPayload
      (Json.sortKeys Sample.oneTask.tasks.entries)) 0 (str "n")).bind fun m =>
      m.toBytes Sample.runtime Sample.nodeC.security.maxFrameSize).toOption.isSome = true := by
    decide +kernel
  refine ⟨r, hr, (Sample.nodeC.all_gossiped_iff _ hes ?_).2
    ⟨fun _ => by decide, by rw [hsize]; decide, fun p w n hmem => ?_⟩ (str "t") r hr⟩
  · rw [hsize, rounds_eq_one one_ne_zero (by decide)]; rfl
  · obtain ⟨-, rfl, rfl⟩ := Event.gossipRound.inj (List.mem_singleton.1 hmem)
    obtain ⟨b, hb⟩ := exists_ok hfit
    obtain ⟨m, hm, hb⟩ := bind_eq_ok.1 hb
    exact ⟨m, b, hm, hb⟩

/-- With room for one task in a message, the second of two tasks is in none of the two rounds'
    messages. -/
theorem gossip_leaves_out :
    ¬ ∀ (R : Runtime) (N : PeerNode R) (before es : List Event) (s : NodeState),
      R.ed25519.Lawful → N.peers ≠ [] → s = run N.step N.initial before →
      Along (N.SteadyRound s.tasks) N.step s es →
      es.countP Event.isGossipRound = ⌈(s.tasks.size : ℚ) / N.security.maxGossipTasks⌉₊ →
      ∀ t r, s.tasks.get t = some r → ∃ m ∈ N.gossiped s es, (t, r.toDict) ∈ m.tasks ∧
        ∃ b, m.toBytes R N.security.maxFrameSize = .ok b := by
  intro h
  have hsize : Sample.twoTasks.tasks.size = 2 := by decide
  have hes : Along (Sample.narrowC.SteadyRound Sample.twoTasks.tasks) Sample.narrowC.step
      Sample.twoTasks [.gossipRound (str "a") 0 (str "n"), .gossipRound (str "a") 0 (str "n")] := by
    refine ⟨⟨rfl, by decide, Or.inr (by decide)⟩,
      ⟨?_, by decide +kernel, Or.inr (by decide +kernel)⟩, trivial⟩
    exact congrArg Replica.tasks (Sample.narrowC.step_gossipRound_quiet _ _ _ _).replica
  obtain ⟨r, hr⟩ : ∃ r, Sample.twoTasks.tasks.get (str "u") = some r :=
    Option.isSome_iff_exists.1 (by decide)
  have hcount : 2 = ⌈(Sample.twoTasks.tasks.size : ℚ) / Sample.narrowC.security.maxGossipTasks⌉₊ := by
    rw [hsize]
    norm_num [Sample.narrowC]
  obtain ⟨m, hm, ht, -⟩ := h Sample.runtime Sample.narrowC _ _ Sample.twoTasks Ed25519.suffix_lawful
    (by decide) rfl hes hcount _ r hr
  obtain ⟨p, w, n, -, -, -, hmsg⟩ := (mem_gossiped hes).1 hm
  rw [signedMessage_tasks hmsg] at ht
  obtain ⟨e, he, heq⟩ := List.mem_map.1 ht
  have hitems : (Sample.narrowC.taskItems Sample.twoTasks).map Prod.fst = [str "t"] := by
    decide
  have hfst : e.1 ∈ [str "t"] := hitems ▸ List.mem_map.2 ⟨e, he, rfl⟩
  rw [(Prod.mk.inj heq).1] at hfst
  exact absurd hfst (by decide)

end PeerNode

end PeerQ
