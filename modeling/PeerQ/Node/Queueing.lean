/-
  The queue and its index.

  What a step does to the queue is a sequence of single operations (`QueueOp`):
  an entry comes out and its id leaves the index, or an id goes into both.  Only
  a submission puts an id in without a look at the index.  So the queue never
  grows past its limit, and queue and index agree in every run in which no task
  is submitted while it is queued (`queue_indexed`).
-/
import PeerQ.Node.Writes
import PeerQ.Node.Fencing

namespace PeerQ

open Py

/-- The queue with its index. -/
def NodeState.indexed (s : NodeState) : BackpressureQueue × Finset Str := (s.queue, s.queuedTaskIds)

/-- One operation on the queue and its index.  An id goes in if it is not in the index, or where `P`
    allows it. -/
inductive QueueOp (P : BackpressureQueue → Str → Prop) :
    BackpressureQueue × Finset Str → BackpressureQueue × Finset Str → Prop
  | put {q q' : BackpressureQueue} {ids : Finset Str} {t : Str} {priority : ℤ}
      (room : q.put t priority = .ok q') (new : t ∉ ids ∨ P q t) :
      QueueOp P (q, ids) (q', insert t ids)
  | get {q q' : BackpressureQueue} {ids : Finset Str} {t : Str} (first : q.get = some (t, q')) :
      QueueOp P (q, ids) (q', ids.erase t)

/-- A sequence of operations. -/
abbrev QueueOps (P : BackpressureQueue → Str → Prop) := Relation.ReflTransGen (QueueOp P)

/-- Every queued id is there once, and the index has the queued ids. -/
def Indexed (x : BackpressureQueue × Finset Str) : Prop :=
  x.1.items.Nodup ∧ ∀ t, t ∈ x.2 ↔ t ∈ x.1.items

/-- A bounded queue holds at most `maxsize` entries. -/
def Bounded (q : BackpressureQueue) : Prop := 0 < q.maxsize → (q.items.length : ℤ) ≤ q.maxsize

/-! ## Operations -/

section
variable {P : BackpressureQueue → Str → Prop} {x y : BackpressureQueue × Finset Str}

theorem items_put {q q' : BackpressureQueue} {t : Str} {priority : ℤ}
    (h : q.put t priority = .ok q') : q'.items.Perm (t :: q.items) := by
  obtain ⟨-, rfl⟩ := BackpressureQueue.put_ok_iff.1 h
  exact (List.perm_orderedInsert _ _ _).map QueueEntry.item

theorem QueueOp.bounded (h : QueueOp P x y) (hx : Bounded x.1) :
    Bounded y.1 ∧ y.1.maxsize = x.1.maxsize := by
  cases h with
  | put room new =>
    have hlen := (items_put room).length_eq
    obtain ⟨hfull, rfl⟩ := BackpressureQueue.put_ok_iff.1 room
    refine ⟨fun hpos => ?_, rfl⟩
    simp only at hpos
    rw [BackpressureQueue.full, if_neg (not_le.2 hpos), decide_eq_false_iff_not, not_le] at hfull
    rw [hlen, List.length_cons, BackpressureQueue.items, List.length_map]
    push_cast
    exact hfull
  | get first =>
    have hitems := BackpressureQueue.get_eq_some first
    have hsize : ∀ {q q' : BackpressureQueue} {t}, q.get = some (t, q') → q'.maxsize = q.maxsize := by
      intro q q' t hq
      unfold BackpressureQueue.get at hq
      split at hq
      · cases hq
      · obtain ⟨-, rfl⟩ := Prod.mk.inj (Option.some.inj hq); rfl
    refine ⟨fun hpos => ?_, hsize first⟩
    simp only [hsize first] at hpos ⊢
    have := hx hpos
    simp only [hitems, List.length_cons] at this
    push_cast at this
    omega

theorem QueueOps.bounded (h : QueueOps P x y) (hx : Bounded x.1) :
    Bounded y.1 ∧ y.1.maxsize = x.1.maxsize := by
  induction h with
  | refl => exact ⟨hx, rfl⟩
  | tail _ hop ih =>
    obtain ⟨hb, hm⟩ := hop.bounded ih.1
    exact ⟨hb, hm.trans ih.2⟩

theorem QueueOp.indexed (hP : ∀ q t, P q t → t ∉ q.items) (h : QueueOp P x y) (hx : Indexed x) :
    Indexed y := by
  obtain ⟨hnodup, hagree⟩ := hx
  cases h with
  | @put q q' ids t priority room new =>
    have hnew : t ∉ q.items := new.elim (fun hn hi => hn ((hagree t).2 hi)) (hP q t)
    refine ⟨(items_put room).nodup_iff.2 (List.nodup_cons.2 ⟨hnew, hnodup⟩), fun u => ?_⟩
    rw [BackpressureQueue.mem_put room, Finset.mem_insert, hagree]
  | @get q q' ids t first =>
    have hitems := BackpressureQueue.get_eq_some first
    simp only [hitems] at hnodup hagree
    obtain ⟨hout, hrest⟩ := List.nodup_cons.1 hnodup
    refine ⟨hrest, fun u => ?_⟩
    rw [Finset.mem_erase, hagree, List.mem_cons]
    constructor
    · rintro ⟨hne, rfl | hu⟩
      exacts [absurd rfl hne, hu]
    · exact fun hu => ⟨fun h => hout (h ▸ hu), Or.inr hu⟩

theorem QueueOps.indexed (hP : ∀ q t, P q t → t ∉ q.items) (h : QueueOps P x y)
    (hx : Indexed x) : Indexed y := by
  induction h with
  | refl => exact hx
  | tail _ hop ih => exact hop.indexed hP ih

end

namespace PeerNode

variable {R : Runtime} (N : PeerNode R)

/-! ## Steps -/

section
variable {N} {P : BackpressureQueue → Str → Prop} {s s' : NodeState}

theorem tryEnqueue_ops {t : Str} (ht : t ∉ s.queuedTaskIds) (priority : ℤ) :
    QueueOps P s.indexed (s.tryEnqueue t priority).indexed := by
  unfold NodeState.tryEnqueue
  split
  · next q hq => exact .single (.put hq (Or.inl ht))
  · exact .refl

theorem enqueuePending_ops (t : Str) (r : TaskRecord) :
    QueueOps P s.indexed (s.enqueuePending t r).indexed := by
  unfold NodeState.enqueuePending
  split_ifs with h
  · exact tryEnqueue_ops h.2 0
  · exact .refl

theorem Quiet.indexed (h : Quiet s s') : s'.indexed = s.indexed :=
  Prod.ext h.queue h.queued

theorem gossipItem_ops (sender : Str) (s : NodeState) (item : Str × Json) :
    QueueOps P s.indexed (N.gossipItem sender s item).1.indexed := by
  rcases N.gossipItem_cases sender s item with (h | h) | ⟨remote, m, -, -, h⟩
  · rw [h]
  · rw [h]; exact .refl
  · obtain ⟨s₁, hs₁, -, -, -, htake⟩ := N.takeRecord_eq s item.1 remote.vectorClock m
    rw [h, htake, hs₁]
    exact enqueuePending_ops (s := { s with toReplica := s.toReplica.store item.1 m }) item.1 m

theorem recv_ops (sender : Str) (msg : Message) (wallNow : ℚ) :
    QueueOps P s.indexed (N.step s (.recv sender msg wallNow)).indexed := by
  refine step_recv_invariant (I := fun s' => QueueOps P s.indexed s'.indexed)
    (P := fun _ _ _ => True) (fun s₁ s₂ hq h => ?_) (fun sender s₁ item h _ => ?_) .refl
    fun _ _ _ _ => Rounds.of_forall fun _ _ => trivial
  · rw [hq.indexed]; exact h
  · exact h.trans (gossipItem_ops sender s₁ item)

theorem sweep_ops {now wallNow : ℚ} {livePeers : List Str} {suspected : Str → Bool} {nonce : Str}
    (l : List (Str × TaskRecord)) :
    QueueOps P s.indexed (N.sweep now livePeers suspected wallNow nonce s l).indexed := by
  refine N.sweep_invariant (I := fun s' => QueueOps P s.indexed s'.indexed)
    (J := fun s' _ => QueueOps P s.indexed s'.indexed) (fun _ _ _ h => h) (fun _ _ _ h => h)
    (fun _ s₁ t _ ht h => h.trans (tryEnqueue_ops ht 10)) (fun _ _ _ _ _ _ h => h) (fun _ h => h)
    (fun _ _ h => h) (fun _ _ _ _ _ _ h => h) l s .refl

theorem finishCommit_indexed {job : Job} {st : TaskState} {wallNow : ℚ} {nonce : Str} :
    (N.finishCommit s job st wallNow nonce).indexed = s.indexed := by
  obtain ⟨s₁, -, hq, hids, -, h | h | h⟩ := N.finishCommit_cases s wallNow nonce job st <;> rw [h] <;>
    exact Prod.ext hq hids

/-- **What a step does to the queue**: operations that keep the index, but for a submission. -/
theorem step_ops {e : Event} (he : ∀ cut, e ≠ .restart cut) :
    QueueOps (fun q t => q = s.queue ∧ ∃ payload priority, e = .submit t payload priority)
      s.indexed (N.step s e).indexed := by
  cases e with
  | submit taskId payload priority =>
    simp only [step]
    split_ifs
    · obtain ⟨-, _, h | h⟩ | ⟨-, x, s₁, rfl, rfl, ⟨_, -, h⟩ | ⟨_, -, -, h⟩ | ⟨q, -, hq, h⟩⟩ :=
        N.submitTask_cases s taskId payload priority <;> rw [h]
      any_goals exact .refl
      exact .single (.put hq (Or.inr ⟨rfl, payload, priority, rfl⟩))
    · exact .refl
  | recv sender msg now => exact recv_ops sender msg now
  | workerGet now leaseNow wallNow suspected nonce =>
    simp only [step]
    cases s.worker
    case waiting =>
      obtain ⟨-, h⟩ | ⟨taskId, q, s₁, hq, rfl, ⟨-, h⟩ | ⟨job, rfl, -, -, -, -, -, h⟩⟩ :=
        N.workerGet_cases s wallNow nonce now leaseNow suspected <;> simp only [h]
      · exact .refl
      · exact .single (.get hq)
      · obtain ⟨x, s₂, rfl, rfl, hc | hc | ⟨p, msg, rest, hc⟩⟩ := N.claimTask_cases
          { s with queue := q, queuedTaskIds := s.queuedTaskIds.erase job.taskId } wallNow nonce
          job <;> rw [hc] <;> exact .single (.get hq)
    all_goals exact .refl
  | workerSent wallNow nonce =>
    simp only [step, workerSent]
    cases s.worker
    case claiming job msg rest => cases rest <;> exact .refl
    case committing job st msg rest =>
      cases rest with
      | nil => rw [finishCommit_indexed]
      | cons p rest => exact .refl
    all_goals exact .refl
  | handlerDone outcome now wallNow nonce =>
    simp only [step, handlerDone]
    cases s.worker
    case handling job =>
      simp only
      split_ifs
      · exact .refl
      · exact .refl
      · obtain ⟨x, s₁, st, rfl, rfl, h | h | ⟨p, msg, rest, h⟩⟩ :=
          N.commitTask_cases s wallNow nonce job outcome <;> rw [h]
        · exact .refl
        · rw [finishCommit_indexed]; exact .refl
        · exact .refl
    all_goals exact .refl
  | reclaimSweep now wallNow suspected nonce =>
    simp only [step, reclaimSweep]
    cases s.reclaim
    case sleeping => exact sweep_ops _
    all_goals exact .refl
  | reclaimSent wallNow suspected nonce =>
    simp only [step, reclaimSent]
    cases s.reclaim
    case resetting msg rest now livePeers snapshot =>
      cases rest with
      | nil => exact sweep_ops _
      | cons p rest => exact .refl
    all_goals exact .refl
  | gossipRound partner wallNow nonce =>
    rw [(N.step_gossipRound_quiet s partner wallNow nonce).indexed]
  | heartbeatRound now wallNow nonce =>
    rw [(N.step_heartbeatRound_quiet s now wallNow nonce).indexed]
  | restart cut => exact absurd rfl (he cut)

/-- A started node has queued recovered tasks one after the other. -/
theorem boot_ops (file : Option Bytes) (journal : List LogEntry) :
    QueueOps P N.fresh.indexed (N.boot file journal).indexed := by
  have hfold : ∀ (l : List (Str × TaskRecord)) (s : NodeState),
      QueueOps P s.indexed (l.foldl (fun s e => s.enqueuePending e.1 e.2) s).indexed := by
    intro l
    induction l with
    | nil => exact fun s => .refl
    | cons e l ih => exact fun s => (enqueuePending_ops e.1 e.2).trans (ih _)
  obtain ⟨-, hb⟩ | ⟨W, -, ⟨-, hb⟩ | ⟨f, s, -, rfl, hb | hb⟩⟩ := N.boot_cases file journal <;> rw [hb]
  any_goals exact .refl
  exact hfold (N.recovered W f journal).tasks.entries
    { N.opened f (journal.take (W.replay R false f).1.length) with
      toReplica := N.recovered W f journal }

end

/-! ## Runs -/

theorem bounded_fresh : Bounded N.fresh.queue := fun h => le_of_lt h

theorem indexed_fresh : Indexed N.fresh.indexed := by
  refine ⟨List.nodup_nil, fun t => ?_⟩
  simp [NodeState.indexed, fresh, BackpressureQueue.items]

/-- The queue of a node keeps its limit. -/
theorem queue_bounded (file : Option Bytes) (journal : List LogEntry) (es : List Event) :
    Bounded (run N.step (N.boot file journal) es).queue ∧
      (run N.step (N.boot file journal) es).queue.maxsize = N.maxQueueSize := by
  have hboot : ∀ f j, Bounded (N.boot f j).queue ∧ (N.boot f j).queue.maxsize = N.maxQueueSize :=
    fun f j => (boot_ops (P := fun _ _ => False) f j).bounded N.bounded_fresh
  induction es using List.reverseRecOn with
  | nil => exact hboot file journal
  | append_singleton es e ih =>
    rw [run_concat]
    obtain ⟨cut, rfl⟩ | he := e.restart_or
    · exact hboot _ _
    · obtain ⟨hb, hm⟩ := (step_ops he).bounded ih.1
      exact ⟨hb, hm.trans ih.2⟩

/-- A task that is submitted is not in the queue. -/
def SubmitsUnqueued (s : NodeState) (e : Event) : Prop :=
  ∀ t payload priority, e = .submit t payload priority → t ∉ s.queue.items

/-- **Queue and index agree**: in every run, on any log, in which no task is submitted while it is
    queued, each queued task is there once and the index has the queued tasks. -/
theorem queue_indexed (file : Option Bytes) (es : List Event)
    (h : Along SubmitsUnqueued N.step (N.boot file []) es) :
    (run N.step (N.boot file []) es).queue.items.Nodup ∧
      ∀ t, t ∈ (run N.step (N.boot file []) es).queuedTaskIds ↔
        t ∈ (run N.step (N.boot file []) es).queue.items := by
  have hboot : ∀ f j, Indexed (N.boot f j).indexed := fun f j =>
    (boot_ops (P := fun _ _ => False) f j).indexed (fun _ _ hf => hf.elim) N.indexed_fresh
  refine h.invariant (I := fun s => Indexed s.indexed) (fun s e hs he => ?_) (hboot file [])
  obtain ⟨cut, rfl⟩ | hr := e.restart_or
  · exact hboot _ _
  · refine (step_ops hr).indexed ?_ hs
    rintro q t ⟨rfl, payload, priority, rfl⟩
    exact he t payload priority rfl

namespace Sample

/-- Two tasks are submitted, the worker takes one of them, another one is submitted. -/
def queuedSteps : List Event :=
  [.submit (str "t") [] 0, .submit (str "u") [] 0, .workerGet 0 0 0 (fun _ => false) (str "n"),
   .submit (str "v") [] 0]

end Sample

theorem queue_indexed_worker :
    (run Sample.workerC.step Sample.workerC.initial Sample.queuedSteps).queue.items =
      [str "u", str "v"] ∧
    (run Sample.workerC.step Sample.workerC.initial Sample.queuedSteps).queue.items.Nodup ∧
    ∀ t, t ∈ (run Sample.workerC.step Sample.workerC.initial Sample.queuedSteps).queuedTaskIds ↔
      t ∈ (run Sample.workerC.step Sample.workerC.initial Sample.queuedSteps).queue.items := by
  refine ⟨by decide, Sample.workerC.queue_indexed none Sample.queuedSteps ⟨?_, ?_, nofun, ?_, trivial⟩⟩
  all_goals
    rintro _ _ _ ⟨⟩
    decide

/-- A task that is submitted twice is queued twice. -/
theorem queue_indexed_resubmitted : ¬ ∀ (R : Runtime) (N : PeerNode R) (es : List Event),
    (run N.step N.initial es).queue.items.Nodup ∧
      ∀ t, t ∈ (run N.step N.initial es).queuedTaskIds ↔ t ∈ (run N.step N.initial es).queue.items := by
  intro h
  have hnodup := (h Sample.runtime Sample.nodeC
    [.submit (str "t") [] 0, .submit (str "t") [] 0]).1
  exact absurd hnodup (by decide)

end PeerNode

end PeerQ
