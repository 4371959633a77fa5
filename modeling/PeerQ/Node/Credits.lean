/-
  Credits: what a node passes to its flow controller, and the balance it has.

  No loop of the node acquires a credit before it sends, so a balance changes by
  the credits that peers return only (`run_balance`), and what bounds the tasks
  that are sent to a peer is the size of the store (`pendingTo_card_le`).
-/
import PeerQ.Node.Outbox
import PeerQ.Node.Replay
import PeerQ.Node.Store

namespace PeerQ

open Py

namespace Message

/-- The amount of a credit message. -/
def creditAmount (m : Message) : ℤ :=
  match (lookup (str "amount") m.payload).getD (.int 1) with
  | .int amount => amount
  | _ => 0

/-- The tasks that a message carries in the state `PENDING`. -/
def pendingTasks (m : Message) : List Str :=
  (m.tasks.filter fun e => match e.2 with
    | .obj d => match TaskRecord.get d "state" with
      | .str state => state = str TaskState.pending.value
      | _ => false
    | _ => false).map Prod.fst

theorem mem_tasks_of_pending {m : Message} {t : Str} (h : t ∈ m.pendingTasks) :
    ∃ e ∈ m.tasks, e.1 = t := by
  obtain ⟨e, he, rfl⟩ := List.mem_map.1 h
  exact ⟨e, (List.mem_filter.1 he).1, rfl⟩

end Message

/-- The tasks that were sent to a peer in the state `PENDING`. -/
def NodeState.pendingTo (s : NodeState) (peer : Str) : Finset Str :=
  ((s.sent.filter fun x => x.1 = peer).flatMap fun x => x.2.pendingTasks).toFinset

/-- The total of the amounts in the credit messages that were sent to a peer. -/
def NodeState.granted (s : NodeState) (peer : Str) : ℤ :=
  ((s.sent.filter fun x => x.1 = peer ∧ x.2.msgType = str "credit").map
    fun x => x.2.creditAmount).sum

namespace PeerNode

variable {R : Runtime} (N : PeerNode R)

/-! ## Replenishing -/

/-- `flow_controller.get_credits`. -/
def balance (s : NodeState) (peer : Str) : ℤ := (s.credits.get peer).getD N.initialCredits

/-- What `_recv_loop` passes to `replenish` for an authentic message, if anything. -/
def creditOf (msg : Message) : Option ℤ :=
  if msg.msgType = str "credit" then
    match (lookup (str "amount") msg.payload).getD (.int 1) with
    | .int amount =>
      if amount < 0 ∨ (N.security.maxCreditAmount : ℤ) < amount then none else some amount
    | _ => none
  else none

/-- What a step passes to `replenish` for a peer. -/
def replenished (peer : Str) (s : NodeState) : Event → ℤ
  | .recv sender msg wallNow =>
    if sender = peer then
      ((N.acceptedMessage s (.recv sender msg wallNow)).bind N.creditOf).getD 0
    else 0
  | _ => 0

/-- What is passed to `replenish` for a peer in a run. -/
def totalReplenished (peer : Str) : NodeState → List Event → ℤ
  | _, [] => 0
  | s, e :: es => N.replenished peer s e + totalReplenished peer (N.step s e) es

section
variable {N} {s : NodeState} {msg : Message} {peer sender : Str} {wallNow : ℚ} {amount : ℤ}

theorem creditOf_some (h : N.creditOf msg = some amount) :
    msg.msgType = str "credit" ∧ amount = msg.creditAmount ∧ 0 ≤ amount := by
  unfold creditOf at h
  split_ifs at h with ht
  refine ⟨ht, ?_⟩
  unfold Message.creditAmount
  split at h
  · split_ifs at h with ha
    obtain rfl := Option.some.inj h
    exact ⟨rfl, by omega⟩
  · cases h

theorem creditOf_other (h : msg.msgType ≠ str "credit") : N.creditOf msg = none := if_neg h

theorem replenish_get {credits : Dict Str ℤ} {initial : ℤ} (h : 0 ≤ amount) :
    ((replenish credits initial sender amount).get peer).getD initial =
      (credits.get peer).getD initial + if sender = peer then amount else 0 := by
  unfold replenish
  split_ifs with h0 hp hp
  · omega
  · omega
  · rw [hp, Dict.get_set_self]
    rfl
  · rw [Dict.get_set, if_neg hp, Int.add_zero]

/-- **The credit branch of `_recv_loop`**: an authentic credit within the limits is passed on. -/
theorem step_recv_credits (hr : s.receiving = true) :
    (N.step s (.recv sender msg wallNow)).credits =
      match (N.acceptedMessage s (.recv sender msg wallNow)).bind N.creditOf with
      | some amount => replenish s.credits N.initialCredits sender amount
      | none => s.credits := by
  have hafter : ∀ x : NodeState × Option Exn, (afterRecv x).credits = x.1.credits := by
    rintro ⟨s₁, _ | e⟩ <;> rfl
  simp only [step, acceptedMessage, hr, if_true, hafter]
  obtain ⟨c, hc⟩ := N.authenticateMessage_state s sender msg wallNow
  unfold recvMessage
  rcases ha : N.authenticateMessage s sender msg wallNow with ⟨s₁, e | _ | _⟩ <;> rw [ha] at hc <;>
    obtain rfl : s₁ = _ := hc
  · rfl
  · rfl
  simp only [Option.bind_some]
  by_cases hg : msg.msgType = str "gossip"
  · rw [if_pos hg, creditOf_other (by rw [hg]; exact gossip_ne_credit)]
    split
    · split_ifs
      · rfl
      · exact (N.gossipItems_aside sender _ _).credits
    · rfl
  rw [if_neg hg]
  by_cases hcr : msg.msgType = str "credit"
  · rw [if_pos hcr, creditOf, if_pos hcr]
    cases (lookup (str "amount") msg.payload).getD (.int 1) with
    | int amount =>
      simp only
      split_ifs <;> rfl
    | _ => rfl
  · rw [if_neg hcr, creditOf_other hcr]

/-! ## The balance -/

/-- **A step changes a balance by what it passes to `replenish`.** -/
theorem step_balance {e : Event} (he : ∀ cut, e ≠ .restart cut) :
    N.balance (N.step s e) peer = N.balance s peer + N.replenished peer s e := by
  unfold balance
  cases e with
  | recv sender msg now =>
    by_cases hr : s.receiving = true
    swap
    · have hacc : N.acceptedMessage s (.recv sender msg now) = none := if_neg hr
      simp only [step, replenished, hr, hacc]
      simp
    rw [step_recv_credits hr, replenished]
    cases hc : (N.acceptedMessage s (.recv sender msg now)).bind N.creditOf with
    | none => simp
    | some amount =>
      obtain ⟨m, -, hm⟩ := Option.bind_eq_some_iff.1 hc
      exact replenish_get (creditOf_some hm).2.2
  | reclaimSweep => rw [(step_reclaims_frame rfl).credits]; exact (Int.add_zero _).symm
  | reclaimSent => rw [(step_reclaims_frame rfl).credits]; exact (Int.add_zero _).symm
  | restart cut => exact absurd rfl (he cut)
  | _ => rw [(step_frame rfl).credits]; exact (Int.add_zero _).symm

theorem run_balance : ∀ {es : List Event} {s : NodeState}, (∀ e ∈ es, ∀ cut, e ≠ .restart cut) →
    N.balance (run N.step s es) peer = N.balance s peer + N.totalReplenished peer s es
  | [], _, _ => (Int.add_zero _).symm
  | e :: es, s, hes => by
    rw [run_cons, run_balance fun e' he' => hes e' (List.mem_cons_of_mem _ he'),
      step_balance (hes e (by simp)), totalReplenished, Int.add_assoc]

/-- A node starts with the initial credits for every peer. -/
theorem boot_balance (file : Option Bytes) (journal : List LogEntry) (peer : Str) :
    N.balance (N.boot file journal) peer = N.initialCredits := by
  have hfold : ∀ (l : List Str) (d : Dict Str ℤ), (d.get peer).getD N.initialCredits = N.initialCredits →
      ((l.foldl (fun d p => d.set p N.initialCredits) d).get peer).getD N.initialCredits =
        N.initialCredits := by
    intro l
    induction l with
    | nil => exact fun d h => h
    | cons p l ih =>
      intro d h
      refine ih _ ?_
      rw [Dict.get_set]
      split_ifs
      · rfl
      · exact h
  have hfresh := hfold N.peers .empty (by rw [Dict.get_empty]; rfl)
  obtain ⟨p, q, ids, up, s, rfl, hb | hb⟩ := N.boot_fresh file journal
  all_goals rw [hb]; exact hfresh

/-- Where no credit arrives, nothing is replenished. -/
theorem totalReplenished_eq_zero : ∀ {es : List Event} {s : NodeState},
    (∀ sender msg now, .recv sender msg now ∈ es → msg.msgType ≠ str "credit") →
    N.totalReplenished peer s es = 0
  | [], _, _ => rfl
  | e :: es, s, h => by
    rw [totalReplenished, totalReplenished_eq_zero fun sender msg now hm =>
      h sender msg now (List.mem_cons_of_mem _ hm), Int.add_zero]
    cases e with
    | recv sender msg now =>
      have hnone : (N.acceptedMessage s (.recv sender msg now)).bind N.creditOf = none := by
        rw [Option.bind_eq_none_iff]
        intro m hm
        obtain ⟨_, _, heq, -, -⟩ := acceptedMessage_some hm
        obtain ⟨-, rfl, -⟩ := Event.recv.inj heq
        exact creditOf_other (h sender msg now (by simp))
      simp only [replenished, hnone]
      simp
    | _ => rfl

/-! ## Credits that were sent -/

/-- The node's messages have its name in them, and its credits are of 1. -/
def Signs (N : PeerNode R) (s : NodeState) : Prop :=
  ∀ m ∈ s.messages, m.senderId = N.nodeId ∧ (m.msgType = str "credit" → m.creditAmount = 1)

theorem Signs.boot (file : Option Bytes) (journal : List LogEntry) :
    N.Signs (N.boot file journal) := by
  intro m hm
  rw [boot_messages] at hm
  cases hm

theorem Signs.step (h : N.Signs s) (e : Event) : N.Signs (N.step s e) := by
  intro m hm
  obtain ⟨cut, rfl⟩ | he := e.restart_or
  · have hb := boot_messages (N := N) (s.walFile.map (·.take cut)) s.journal
    simp only [NodeState.messages, List.append_eq_nil_iff] at hb
    have hm' : m ∈ s.sent.map Prod.snd := by
      simpa only [PeerNode.step, NodeState.messages, hb.1.2, hb.2, List.append_nil] using hm
    exact h m (mem_messages.2 (Or.inl hm'))
  · rcases (step_voices he).made m hm with hm | hm
    · exact h m hm
    · refine ⟨hm.sender, fun hc => ?_⟩
      rw [Message.creditAmount, hm.credit hc]
      rfl

/-- The tasks of the node's messages are tasks of its store. -/
def Told (s : NodeState) : Prop := ∀ m ∈ s.messages, ∀ e ∈ m.tasks, s.tasks.has e.1 = true

theorem Told.boot (file : Option Bytes) (journal : List LogEntry) : Told (N.boot file journal) := by
  intro m hm
  rw [boot_messages] at hm
  cases hm

theorem Told.step {e : Event} (h : Told s) (hs : Held s) (he : ∀ cut, e ≠ .restart cut) :
    Told (N.step s e) := by
  intro m hm x hx
  rcases step_messages he m hm with hm | hm
  · exact (N.step_makes hs.distinct he).has (h m hm x hx)
  · obtain ⟨r, -, hr⟩ := hm x hx
    exact Dict.has_of_get hr

theorem pendingTo_card_le (h : Told s) (peer : Str) : (s.pendingTo peer).card ≤ s.tasks.size := by
  have hsub : s.pendingTo peer ⊆ s.tasks.keys.toFinset := by
    intro t ht
    rw [NodeState.pendingTo, List.mem_toFinset, List.mem_flatMap] at ht
    obtain ⟨x, hx, ht⟩ := ht
    obtain ⟨e, he, rfl⟩ := Message.mem_tasks_of_pending ht
    have hm : x.2 ∈ s.messages :=
      mem_messages.2 (Or.inl (List.mem_map_of_mem (List.mem_filter.1 hx).1))
    rw [List.mem_toFinset]
    exact Dict.has_iff.1 (h x.2 hm e he)
  calc (s.pendingTo peer).card
      ≤ s.tasks.keys.toFinset.card := Finset.card_le_card hsub
    _ ≤ s.tasks.keys.length := List.toFinset_card_le _
    _ = s.tasks.size := by simp [Dict.keys, Dict.size]

/-- Submissions and deliveries send nothing. -/
theorem step_brings_sent {e : Event} (he : e.brings = true) : (N.step s e).sent = s.sent := by
  cases e with
  | submit taskId payload priority => exact (N.step_submit_frame s taskId payload priority).sent
  | recv sender msg now => exact step_recv_sent sender msg now
  | _ => cases he

end

/-- A step that keeps the send windows: no restart, no credit arrives, and what may send finds no
    more tasks in the store than there are credits. -/
structure InWindow (s : NodeState) (e : Event) : Prop where
  alive : ∀ cut, e ≠ .restart cut
  credit : ∀ sender msg wallNow, e = .recv sender msg wallNow → msg.msgType ≠ str "credit"
  few : e.brings = false → (s.tasks.size : ℤ) ≤ N.initialCredits

/-- The tasks that were sent in the state `PENDING` are within the windows. -/
structure Windowed (s : NodeState) : Prop where
  held : Held s
  told : Told s
  few : ∀ peer, ((s.pendingTo peer).card : ℤ) ≤ N.initialCredits

section
variable {N} {s : NodeState} {e : Event}

theorem Windowed.initial (h : 0 ≤ N.initialCredits) : N.Windowed N.initial where
  held := .boot none []
  told := .boot none []
  few peer := by
    have hcard := pendingTo_card_le (.boot (N := N) none []) peer
    have hsize : (N.boot none []).tasks.size = 0 := by
      rw [show (N.boot none []).tasks = .empty from N.initial_replica.1]
      rfl
    have hzero : (N.initial.pendingTo peer).card = 0 := Nat.le_zero.1 (hsize ▸ hcard)
    rw [hzero]
    exact h

theorem Windowed.step (h : N.Windowed s) (hw : N.InWindow s e) : N.Windowed (N.step s e) where
  held := h.held.step
  told := h.told.step h.held hw.alive
  few peer := by
    by_cases he : e.brings = true
    · unfold NodeState.pendingTo
      rw [step_brings_sent he]
      exact h.few peer
    · have he' : e.brings = false := by simpa using he
      have htold : Told (N.step s e) := h.told.step h.held hw.alive
      have hcard := pendingTo_card_le htold peer
      rw [step_size_eq h.held hw.alive he'] at hcard
      exact (Int.ofNat_le.2 hcard).trans (hw.few he')

end

end PeerNode

end PeerQ
