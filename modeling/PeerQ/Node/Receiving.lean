/-
  Receiving: what the receive loop survives.

  A received record is decoded under `except (TypeError, ValueError)` and logged
  under no `except` at all, so an integer lease beyond the floats
  (`OverflowError`) and an update that the log refuses (`WalError`) leave the
  loop and end it.  Nothing else does: a loop that is spared the two goes on
  (`receiving_survives`).
-/
import PeerQ.Node.Recovery
import PeerQ.Message.Wire

namespace PeerQ

open Py

/-- What `transport.recv` returns: a message that was decoded. -/
def Message.Decoded (R : Runtime) (msg : Message) : Prop :=
  ∃ data config, Message.fromBytes R data config = .ok msg

namespace PeerNode

variable {R : Runtime} (N : PeerNode R)

/-- A record that the message carries, or that the node has for one of its tasks. -/
def Handled (s : NodeState) (msg : Message) (r : TaskRecord) : Prop :=
  ∃ item ∈ msg.tasks, s.tasks.get item.1 = some r ∨ TaskRecord.fromDict item.2 = .ok r

/-- A clock up to the join of the node's clock and those of the handled records. -/
def WithinClocks (s : NodeState) (msg : Message) (c : VectorClock) : Prop :=
  ∀ d, s.vectorClock ≤ d → (∀ r, Handled s msg r → r.vectorClock ≤ d) → c ≤ d

/-- A message that the loop survives: its leases are floats or integers in range, and the log takes
    the records that may come of it. -/
structure Bearable (s : NodeState) (msg : Message) : Prop where
  lease : ∀ item ∈ msg.tasks, TaskRecord.leaseInRange item.2 = true
  log : ∀ r c d, Handled s msg r → WithinClocks s msg c → WithinClocks s msg d →
    N.Loggable { r with vectorClock := c } d

/-- What the loop over a message's tasks has made of the node: records that were handled, under
    clocks up to the join. -/
structure Handles (s : NodeState) (msg : Message) (p : Replica) : Prop where
  clock : WithinClocks s msg p.vectorClock
  stored : ∀ item ∈ msg.tasks, ∀ r, p.tasks.get item.1 = some r →
    ∃ r₀ c, Handled s msg r₀ ∧ WithinClocks s msg c ∧ r = { r₀ with vectorClock := c }

section
variable {N} {s s' : NodeState} {msg : Message} {c d : VectorClock} {r : TaskRecord}

theorem WithinClocks.sup (hc : WithinClocks s msg c) (hd : WithinClocks s msg d) :
    WithinClocks s msg (c ⊔ d) := fun e he hr => sup_le (hc e he hr) (hd e he hr)

theorem WithinClocks.le (hd : WithinClocks s msg d) (h : c ≤ d) : WithinClocks s msg c :=
  fun e he hr => h.trans (hd e he hr)

theorem Handled.within (h : Handled s msg r) : WithinClocks s msg r.vectorClock :=
  fun _ _ hr => hr r h

theorem Handles.refl (s : NodeState) (msg : Message) : Handles s msg s.toReplica where
  clock _ h _ := h
  stored item hi r hr := by
    have hh : Handled s msg r := ⟨item, hi, Or.inl hr⟩
    exact ⟨r, r.vectorClock, hh, hh.within, rfl⟩

theorem acceptedRecord_ok (sender : Str) {item : Str × Json}
    (h : TaskRecord.leaseInRange item.2 = true) : ∃ o, N.acceptedRecord sender item = .ok o := by
  unfold acceptedRecord
  split
  · next e he => rw [if_pos (TaskRecord.fromDict_benign h e he)]; exact ⟨_, rfl⟩
  · split_ifs
    exacts [⟨_, rfl⟩, ⟨_, rfl⟩, ⟨_, rfl⟩]

/-- A merge of handled records is one of them under another clock. -/
theorem Handles.merge {p : Replica} (h : Handles s msg p) {item : Str × Json} (hi : item ∈ msg.tasks)
    {old remote m : TaskRecord} (hold : p.tasks.get item.1 = some old)
    (hremote : Handled s msg remote) (hm : mergeRecords R old remote N.mergeKeyring = .ok m) :
    ∃ r₀ c, Handled s msg r₀ ∧ WithinClocks s msg c ∧ m = { r₀ with vectorClock := c } := by
  obtain ⟨r₀, c₀, h₀, hc₀, rfl⟩ := h.stored item hi old hold
  have hclock : WithinClocks s msg m.vectorClock :=
    (hc₀.sup hremote.within).le (mergeRecords_clock hm)
  obtain ⟨c, rfl | ⟨rfl, -⟩⟩ := mergeRecords_winner hm
  exacts [⟨r₀, c, h₀, hclock, rfl⟩, ⟨remote, c, hremote, hclock, rfl⟩]

theorem takeRecord_error (s : NodeState) (taskId : Str) (c : VectorClock) (r : TaskRecord) :
    (N.takeRecord s taskId c r).2 =
      (N.logUpdate { s.toReplica.store taskId r with vectorClock := s.vectorClock ⊔ c } r).2 := by
  unfold takeRecord NodeState.enqueuePending NodeState.tryEnqueue
  split_ifs
  · split <;> rfl
  · rfl

/-- A bearable round ends normally. -/
theorem gossipItem_survives (hb : N.Bearable s msg) (sender : Str) {item : Str × Json}
    (hi : item ∈ msg.tasks) (h : Handles s msg s'.toReplica) :
    (N.gossipItem sender s' item).2 = none ∧
      Handles s msg (N.gossipItem sender s' item).1.toReplica := by
  obtain ⟨o, ho⟩ := acceptedRecord_ok (N := N) sender (hb.lease item hi)
  unfold gossipItem
  rw [ho]
  cases o with
  | none => exact ⟨rfl, h⟩
  | some remote =>
    have hremote : Handled s msg remote := ⟨item, hi, Or.inr (N.acceptedRecord_iff.1 ho).1⟩
    have htake : ∀ m, (∃ r₀ c, Handled s msg r₀ ∧ WithinClocks s msg c ∧
        m = { r₀ with vectorClock := c }) →
        (N.takeRecord s' item.1 remote.vectorClock m).2 = none ∧
          Handles s msg (N.takeRecord s' item.1 remote.vectorClock m).1.toReplica := by
      rintro m ⟨r₀, c, h₀, hc, rfl⟩
      have hclock := h.clock.sup hremote.within
      refine ⟨?_, ?_, fun i hi' r hr => ?_⟩
      · rw [takeRecord_error]
        exact logUpdate_fits (hb.log r₀ c _ h₀ hc hclock)
      · rw [takeRecord_replica, logUpdate_vectorClock]
        exact hclock
      · rw [takeRecord_replica, logUpdate_tasks] at hr
        simp only [Replica.store, Dict.get_set] at hr
        split_ifs at hr with ht
        · exact ⟨r₀, c, h₀, hc, (Option.some.inj hr).symm⟩
        · exact h.stored i hi' r hr
    simp only
    cases hg : s'.tasks.get item.1 with
    | none =>
      simp only
      split_ifs
      · exact ⟨rfl, h⟩
      · exact htake remote ⟨remote, _, hremote, hremote.within, rfl⟩
    | some old =>
      simp only
      split
      · exact ⟨rfl, h⟩
      · next m hm => exact htake m (h.merge hi hg hremote hm)

theorem gossipItems_survives (hb : N.Bearable s msg) (sender : Str) :
    ∀ (items : Fields) (s' : NodeState), (∀ i ∈ items, i ∈ msg.tasks) →
      Handles s msg s'.toReplica → (N.gossipItems sender s' items).2 = none
  | [], _, _, _ => rfl
  | item :: items, s', hsub, h => by
    obtain ⟨hnone, hnext⟩ := gossipItem_survives hb sender (hsub item (by simp)) h
    unfold gossipItems
    rcases hg : N.gossipItem sender s' item with ⟨s₁, o⟩
    rw [hg] at hnone hnext
    obtain rfl : o = none := hnone
    exact gossipItems_survives hb sender items s₁ (fun i hi => hsub i (by simp [hi])) hnext

theorem authenticateMessage_ok (hd : msg.Decoded R) (s : NodeState) (sender : Str) (wallNow : ℚ) :
    ∃ b, (N.authenticateMessage s sender msg wallNow).2 = .ok b := by
  obtain ⟨data, config, hdata⟩ := hd
  obtain ⟨b, hv⟩ := Message.verifySignature_fromBytes hdata N.keyring
  unfold authenticateMessage
  rw [hv]
  split_ifs
  any_goals exact ⟨_, rfl⟩
  cases b with
  | false => exact ⟨_, rfl⟩
  | true =>
    simp only
    split
    · split_ifs
      exacts [⟨_, rfl⟩, ⟨_, rfl⟩]
    · exact ⟨_, rfl⟩

/-- **A bearable message is processed to its end**, whoever sent it. -/
theorem recvMessage_survives (hd : msg.Decoded R) (hb : N.Bearable s msg) (sender : Str)
    (wallNow : ℚ) : (N.recvMessage s sender msg wallNow).2 = none := by
  obtain ⟨b, hauth⟩ := authenticateMessage_ok (N := N) hd s sender wallNow
  obtain ⟨cache, hstate⟩ := N.authenticateMessage_state s sender msg wallNow
  unfold recvMessage
  rcases ha : N.authenticateMessage s sender msg wallNow with ⟨s₁, o⟩
  rw [ha] at hauth hstate
  obtain rfl : o = .ok b := hauth
  have hhandles : Handles s msg s₁.toReplica := by
    obtain rfl : s₁ = { s with messageReplay := cache } := hstate
    exact .refl s msg
  cases b with
  | false => rfl
  | true =>
    simp only
    split_ifs
    · -- the tasks of a gossip message
      have htasks : ∀ items, (lookup (str "tasks") msg.payload).getD (.obj []) = .obj items →
          ∀ i ∈ items, i ∈ msg.tasks := by
        intro items h i hi
        unfold Message.tasks
        rw [h]
        exact hi
      split
      · next items h =>
        split_ifs
        · rfl
        · exact gossipItems_survives hb sender items s₁ (htasks items h) hhandles
      · rfl
    · split
      · split_ifs <;> rfl
      · rfl
    · rfl

end

/-! ## Runs -/

/-- Only receiving and restarts touch the receive loop. -/
theorem step_receiving {s : NodeState} {e : Event} (hrecv : ∀ sender msg now, e ≠ .recv sender msg now)
    (hrestart : ∀ cut, e ≠ .restart cut) : (N.step s e).receiving = s.receiving := by
  cases e with
  | recv sender msg now => exact absurd rfl (hrecv sender msg now)
  | restart cut => exact absurd rfl (hrestart cut)
  | reclaimSweep now wallNow suspected nonce => exact (step_reclaims_frame rfl).receiving
  | reclaimSent wallNow suspected nonce => exact (step_reclaims_frame rfl).receiving
  | _ => exact (step_frame rfl).receiving

/-- An event that the receive loop survives. -/
def Survivable (s : NodeState) (e : Event) : Prop :=
  (∀ cut, e ≠ .restart cut) ∧
    ∀ sender msg now, e = .recv sender msg now → msg.Decoded R ∧ N.Bearable s msg

theorem step_survives {s : NodeState} {e : Event} (hs : s.receiving = true)
    (he : N.Survivable s e) : (N.step s e).receiving = true := by
  cases e with
  | recv sender msg now =>
    obtain ⟨hd, hb⟩ := he.2 sender msg now rfl
    have hnone := recvMessage_survives hd hb sender now
    have haside := (N.recvMessage_aside s sender msg now).1
    simp only [step, hs, if_true]
    rw [afterRecv, hnone]
    exact haside.trans hs
  | _ => rw [N.step_receiving (by simp) he.1, hs]

/-- **Traffic does not stop the receive loop** as long as no received lease is an integer beyond the
    floats and the log takes what is received: every message is processed to its end, and the loop is
    there for the next one. -/
theorem receiving_survives {s : NodeState} (hs : s.receiving = true) {es : List Event}
    (h : Along N.Survivable N.step s es) :
    Along (fun s e => s.receiving = true ∧ ∀ sender msg now, e = .recv sender msg now →
      (N.recvMessage s sender msg now).2 = none) N.step s es ∧
      (run N.step s es).receiving = true := by
  have hstep : ∀ s e, s.receiving = true → N.Survivable s e → (N.step s e).receiving = true :=
    fun s e hs he => N.step_survives hs he
  refine ⟨h.mono (I := fun s => s.receiving = true) hstep (fun s e hs he => ⟨hs, ?_⟩) hs,
    h.invariant hstep hs⟩
  rintro sender msg now rfl
  obtain ⟨hd, hb⟩ := he.2 sender msg now rfl
  exact recvMessage_survives hd hb sender now

namespace Sample

/-- Gossip of `b` about its claim of the task `t`, with the given lease. -/
def leaseGossip (lease : Json) : Message where
  msgType := str "gossip"
  senderId := str "b"
  payload := [(str "tasks", .obj [(str "t", .obj (claimB.fields.map fun kv =>
    if kv.1 = str "lease_expiry" then (kv.1, lease) else kv))])]

end Sample

/-- A message that fits the wire is decoded. -/
theorem decoded_canon {m : Message} (hm : m.WellFormed)
    (hbytes : (Message.toBytes R m).toOption.isSome = true)
    (hlimits : Json.bounded 15 (256 * 1024) 0 (.obj m.payload) = true ∧
      (Json.obj m.payload).items + 7 ≤ 10000) : m.canon.Decoded R := by
  obtain ⟨data, hdata⟩ := exists_ok hbytes
  exact ⟨data.drop 4, {}, (Message.fromBytes_toBytes hm hdata).2 ⟨hlimits, rfl⟩⟩

theorem Sample.leaseGossip_decoded {lease : Json}
    (hwf : (Json.obj (leaseGossip lease).payload).wf = true)
    (hbytes : (Message.toBytes runtime (leaseGossip lease)).toOption.isSome = true)
    (hlimits : Json.bounded 15 (256 * 1024) 0 (.obj (leaseGossip lease).payload) = true ∧
      (Json.obj (leaseGossip lease).payload).items + 7 ≤ 10000) :
    (leaseGossip lease).canon.Decoded runtime := by
  refine decoded_canon ⟨hwf, fun s hs => ?_, fun s hs => ?_⟩ hbytes hlimits
  · cases hs
  · cases hs

theorem Sample.below_tick {c : VectorClock} {k : Str} (h : c ≤ Counters.zero.increment k) :
    c = .zero ∨ c = Counters.zero.increment k := by
  have hget : ∀ j, c.get j ≤ if j = k then 1 else 0 := fun j => by
    simpa [Counters.get_increment] using Counters.le_def.1 h j
  have hk : c.get k ≤ 1 := by simpa using hget k
  have hne : ∀ j, j ≠ k → c.get j = 0 := fun j hj => by simpa [hj] using hget j
  rcases Nat.le_one_iff_eq_zero_or_eq_one.1 hk with h0 | h1
  · refine Or.inl (Counters.ext_get fun j => ?_)
    by_cases hj : j = k
    · rw [hj, h0, Counters.get_zero]
    · rw [hne j hj, Counters.get_zero]
  · refine Or.inr (Counters.ext_get fun j => ?_)
    by_cases hj : j = k
    · simp [hj, h1, Counters.get_increment]
    · simp [hj, hne j hj, Counters.get_increment]

/-- The log takes the claim of `b` under every clock that can come of the message. -/
theorem Sample.claim_loggable {lease : ℚ} (h : ∀ c ∈ [.zero, claimB.vectorClock],
      ∀ d ∈ [.zero, claimB.vectorClock], (WriteAheadLog.Sample.log.appendAll runtime walMagic
        [(LogEntry.task { claimB with leaseExpiry := lease, vectorClock := c }).entry,
          (LogEntry.clock d).entry]).toOption.isSome = true) {c d : VectorClock}
    (hc : c ≤ claimB.vectorClock) (hd : d ≤ claimB.vectorClock) :
    loggingC.Loggable { claimB with leaseExpiry := lease, vectorClock := c } d := by
  rintro W ⟨⟩
  obtain ⟨f, hf⟩ := exists_ok
    (h c (by simpa [claimB] using below_tick hc) d (by simpa [claimB] using below_tick hd))
  have hfit := (WriteAheadLog.appendAll_ok_iff.1 hf).1
  exact ⟨hfit _ (by simp), hfit _ (by simp)⟩

theorem receiving_survives_claim :
    (run Sample.loggingC.step Sample.loggingC.initial [.recv (str "b")
      (Sample.leaseGossip (.float (.finite 5))).canon 0]).receiving = true ∧
    (run Sample.loggingC.step Sample.loggingC.initial [.recv (str "b")
      (Sample.leaseGossip (.float (.finite 5))).canon 0]).journal.length = 2 := by
  have hd : (Sample.leaseGossip (.float (.finite 5))).canon.Decoded Sample.runtime :=
    Sample.leaseGossip_decoded (by decide +kernel) (by decide +kernel) (by decide +kernel)
  have hhandled : ∀ r, Handled Sample.loggingC.initial
      (Sample.leaseGossip (.float (.finite 5))).canon r → r = { Sample.claimB with leaseExpiry := 5 } := by
    have hall : (Sample.leaseGossip (.float (.finite 5))).canon.tasks.all (fun item =>
        (TaskRecord.fromDict item.2).toOption = some { Sample.claimB with leaseExpiry := 5 }) = true := by
      decide +kernel
    rintro r ⟨item, hi, hr | hr⟩
    · cases hr
    · have hitem := of_decide_eq_true (List.all_eq_true.1 hall item hi)
      rw [hr] at hitem
      exact Option.some.inj hitem
  have hwithin : ∀ c, WithinClocks Sample.loggingC.initial
      (Sample.leaseGossip (.float (.finite 5))).canon c → c ≤ Sample.claimB.vectorClock := by
    refine fun c hc => hc _ (fun k => ?_) fun r hr => ?_
    · exact Nat.zero_le _
    · rw [hhandled r hr]
  have halong : Along Sample.loggingC.Survivable Sample.loggingC.step Sample.loggingC.initial
      [.recv (str "b") (Sample.leaseGossip (.float (.finite 5))).canon 0] := by
    refine ⟨⟨by simp, fun sender msg now h => ?_⟩, trivial⟩
    obtain ⟨-, rfl, -⟩ := Event.recv.inj h
    refine ⟨hd, by decide, fun r c d hr hc hd => ?_⟩
    rw [hhandled r hr]
    exact Sample.claim_loggable (by decide +kernel) (hwithin c hc) (hwithin d hd)
  exact ⟨(Sample.loggingC.receiving_survives rfl halong).2, by decide +kernel⟩

/-- A lease of `2 ** 1024` passes the wire and ends the receive loop with an `OverflowError`. -/
theorem receiving_stopped :
    ¬ ∀ (R : Runtime) (N : PeerNode R) (es : List Event) (sender : Str) (msg : Message) (now : ℚ),
      (run N.step N.initial es).receiving = true → msg.Decoded R →
      (N.recvMessage (run N.step N.initial es) sender msg now).2 = none := by
  intro h
  have hd : (Sample.leaseGossip (.int (2 ^ 1024))).canon.Decoded Sample.runtime :=
    Sample.leaseGossip_decoded (by decide +kernel) (by decide +kernel) (by decide +kernel)
  have hnone := h Sample.runtime Sample.workerC [] (str "b") _ 0 rfl hd
  exact absurd hnone (by decide +kernel)

end PeerNode

end PeerQ
