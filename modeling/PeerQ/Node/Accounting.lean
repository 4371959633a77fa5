/-
  Accounting: what the counters of a node count.

  Every counter but `rejected` is bumped beside a write (`Write.metric`), a commit
  after its broadcast.  So the counters tell the writes of a run exactly, but for
  the commit whose broadcast is not over, and what was claimed is what was
  completed, failed or rejected, but for the task at hand (`counters_exact`).
-/
import PeerQ.Node.Writes
import PeerQ.Node.Fencing

namespace PeerQ

open Py

/-- The counter of a finished task. -/
def outcomeMetric (st : TaskState) : Metric := if st = .done then .completed else .failed

/-- The counter that is bumped for a write. -/
def Write.metric : Write → Option Metric
  | .submit .. => some .enqueued
  | .claim _ => some .claimed
  | .commit _ (.ok _) => some .completed
  | .commit _ (.error _) => some .failed
  | .reset .. => some .reclaimed
  | .run _ | .take .. => none

/-- The number of writes that a counter counts. -/
def tally (h : List Write) (m : Metric) : ℕ := h.countP fun w => w.metric = some m

namespace Worker

/-- Commits that are made and not counted yet. -/
def due (m : Metric) : Worker → ℕ
  | .committing _ st _ _ => if outcomeMetric st = m then 1 else 0
  | _ => 0

/-- The worker has a task at hand. -/
def busy : Worker → ℕ
  | .claiming .. | .handling _ | .committing .. => 1
  | _ => 0

/-- The worker is between two tasks. -/
def idle : Worker → Bool
  | .waiting | .crediting => true
  | _ => false

def isStopped : Worker → Bool
  | .stopped => true
  | _ => false

end Worker

@[simp] theorem tally_append (h h' : List Write) (m : Metric) :
    tally (h ++ h') m = tally h m + tally h' m := List.countP_append

@[simp] theorem tally_nil (m : Metric) : tally [] m = 0 := rfl

namespace PeerNode

variable {R : Runtime} (N : PeerNode R)

/-- The counters agree with the writes made so far. -/
structure Counted (h : List Write) (s : NodeState) : Prop where
  enqueued : s.metrics .enqueued = tally h .enqueued
  claimed : s.metrics .claimed = tally h .claimed
  reclaimed : N.hasHandler = false → s.metrics .reclaimed = tally h .reclaimed
  completed : s.metrics .completed + s.worker.due .completed ≤ tally h .completed
  failed : s.metrics .failed + s.worker.due .failed ≤ tally h .failed
  finished : s.worker.isStopped = false →
    s.metrics .completed + s.worker.due .completed = tally h .completed ∧
      s.metrics .failed + s.worker.due .failed = tally h .failed
  missed : tally h .completed + tally h .failed ≤ s.metrics .completed + s.metrics .failed + 1
  atHand : s.metrics .completed + s.metrics .failed + s.worker.busy ≤ s.metrics .claimed
  spent : s.metrics .claimed ≤ s.metrics .completed + s.metrics .failed + s.metrics .rejected +
    if s.worker.idle then 0 else 1

/-- What a step that the worker has no part in does to the counters. -/
structure Booked (s s' : NodeState) (ws : List Write) : Prop where
  worker : s'.worker = s.worker
  enqueued : s'.metrics .enqueued = s.metrics .enqueued + tally ws .enqueued
  claimed : s'.metrics .claimed = s.metrics .claimed ∧ tally ws .claimed = 0
  completed : s'.metrics .completed = s.metrics .completed ∧ tally ws .completed = 0
  failed : s'.metrics .failed = s.metrics .failed ∧ tally ws .failed = 0
  reclaimed : N.hasHandler = false →
    s'.metrics .reclaimed = s.metrics .reclaimed + tally ws .reclaimed
  rejected : s.metrics .rejected ≤ s'.metrics .rejected

section
variable {N} {h ws : List Write} {s s' : NodeState}

/-! ## Steps that the worker has no part in -/

theorem Booked.refl (s : NodeState) : N.Booked s s [] :=
  ⟨rfl, rfl, ⟨rfl, rfl⟩, ⟨rfl, rfl⟩, ⟨rfl, rfl⟩, fun _ => rfl, le_rfl⟩

theorem Booked.trans {s₁ s₂ : NodeState} {ws ws' : List Write} (h : N.Booked s s₁ ws)
    (h' : N.Booked s₁ s₂ ws') : N.Booked s s₂ (ws ++ ws') := by
  refine ⟨h'.worker.trans h.worker, ?_, ?_, ?_, ?_, fun hh => ?_, h.rejected.trans h'.rejected⟩
  · rw [h'.enqueued, h.enqueued, tally_append, add_assoc]
  · exact ⟨h'.claimed.1.trans h.claimed.1, by rw [tally_append, h.claimed.2, h'.claimed.2]⟩
  · exact ⟨h'.completed.1.trans h.completed.1, by rw [tally_append, h.completed.2, h'.completed.2]⟩
  · exact ⟨h'.failed.1.trans h.failed.1, by rw [tally_append, h.failed.2, h'.failed.2]⟩
  · rw [h'.reclaimed hh, h.reclaimed hh, tally_append, add_assoc]

/-- Steps that leave the worker and its counters keep the accounts. -/
theorem Counted.book (hc : N.Counted h s) (hb : N.Booked s s' ws) :
    N.Counted (h ++ ws) s' := by
  obtain ⟨hw, h1, ⟨h2, h2'⟩, ⟨h3, h3'⟩, ⟨h4, h4'⟩, h5, h6⟩ := hb
  have hrej := hc.spent
  constructor
  case reclaimed =>
    intro hh
    rw [h5 hh, hc.reclaimed hh, tally_append]
  case spent =>
    rw [hw, h2, h3, h4]
    omega
  all_goals simp only [hw, h1, h2, h3, h4, tally_append, h2', h3', h4', add_zero]
  · rw [hc.enqueued]
  · exact hc.claimed
  · exact hc.completed
  · exact hc.failed
  · exact hc.finished
  · exact hc.missed
  · exact hc.atHand

/-- Rejections are counted by no write. -/
theorem Booked.reject (s : NodeState) : N.Booked s (s.bump .rejected) [] :=
  ⟨rfl, rfl, ⟨rfl, rfl⟩, ⟨rfl, rfl⟩, ⟨rfl, rfl⟩, fun _ => rfl, Nat.le_succ _⟩

theorem Booked.of_metrics (hw : s'.worker = s.worker) (hm : s'.metrics = s.metrics) :
    N.Booked s s' [] := by
  refine ⟨hw, ?_, ⟨?_, rfl⟩, ⟨?_, rfl⟩, ⟨?_, rfl⟩, fun _ => ?_, ?_⟩ <;> rw [hm] <;> rfl

theorem submit_booked (taskId : Str) (payload : Bytes) (priority : ℤ) :
    N.Booked s (N.submitTask s taskId payload priority).1 (N.submitWrites s taskId payload) := by
  have hone : ∀ (p : Replica) (q : BackpressureQueue) (ids : Finset Str), N.Booked s
      { s.bump .enqueued with toReplica := p, queue := q, queuedTaskIds := ids }
      [.submit taskId payload] := fun _ _ _ =>
    ⟨rfl, rfl, ⟨rfl, rfl⟩, ⟨rfl, rfl⟩, ⟨rfl, rfl⟩, fun _ => rfl, le_rfl⟩
  unfold submitTask submitWrites
  split_ifs
  · exact .refl s
  · exact .refl s
  · exact .reject s
  simp only
  split
  · exact hone _ s.queue s.queuedTaskIds
  · split
    · exact hone _ _ _
    · exact (hone _ s.queue s.queuedTaskIds).trans (.reject _)

theorem takeRecord_booked (t : Str) (c : VectorClock) (r remote merged : TaskRecord) :
    N.Booked s (N.takeRecord s t c r).1 [.take t remote merged] := by
  unfold takeRecord NodeState.enqueuePending NodeState.tryEnqueue
  split_ifs
  · split <;> exact ⟨rfl, rfl, ⟨rfl, rfl⟩, ⟨rfl, rfl⟩, ⟨rfl, rfl⟩, fun _ => rfl, le_rfl⟩
  · exact ⟨rfl, rfl, ⟨rfl, rfl⟩, ⟨rfl, rfl⟩, ⟨rfl, rfl⟩, fun _ => rfl, le_rfl⟩

theorem gossipItem_booked (sender : Str) (item : Str × Json) :
    N.Booked s (N.gossipItem sender s item).1 (N.itemWrites sender s item) := by
  unfold gossipItem itemWrites
  rcases N.acceptedRecord sender item with e | _ | remote
  · exact .refl s
  · exact .reject s
  rcases s.tasks.get item.1 with _ | old <;> simp only
  · split_ifs
    · exact .reject s
    · exact takeRecord_booked _ _ _ _ _
  · rcases mergeRecords R old remote N.mergeKeyring with e | merged
    · exact .reject s
    · exact takeRecord_booked _ _ _ _ _

theorem gossipItems_booked (sender : Str) : ∀ (items : Fields) (s : NodeState),
    N.Booked s (N.gossipItems sender s items).1 (N.itemsWrites sender s items)
  | [], s => .refl s
  | item :: items, s => by
    have hitem := gossipItem_booked (N := N) (s := s) sender item
    unfold gossipItems itemsWrites
    rcases hg : N.gossipItem sender s item with ⟨s₁, _ | e⟩ <;> rw [hg] at hitem
    · exact hitem.trans (gossipItems_booked sender items s₁)
    · exact hitem.trans (.refl s₁)

theorem recv_booked (sender : Str) (msg : Message) (wallNow : ℚ) :
    N.Booked s (N.recvMessage s sender msg wallNow).1 (N.messageWrites s sender msg wallNow) := by
  obtain ⟨c, hc⟩ := N.authenticateMessage_state s sender msg wallNow
  unfold messageWrites gossipBatch recvMessage
  rcases ha : N.authenticateMessage s sender msg wallNow with ⟨s₁, e | _ | _⟩ <;> rw [ha] at hc <;>
    obtain rfl : s₁ = _ := hc
  all_goals have hs : N.Booked s { s with messageReplay := c } [] := .of_metrics rfl rfl
  · exact hs
  · exact hs.trans (.reject _)
  simp only
  by_cases hg : msg.msgType = str "gossip"
  · rw [if_pos hg, if_pos hg]
    cases (lookup (str "tasks") msg.payload).getD (.obj []) with
    | obj rawTasks =>
      simp only
      split_ifs
      · exact hs.trans (.reject _)
      · exact hs.trans (gossipItems_booked sender rawTasks _)
    | _ => exact hs.trans (.reject _)
  · rw [if_neg hg, if_neg hg]
    split_ifs
    · split
      · split_ifs
        · exact hs.trans (.reject _)
        · exact .of_metrics rfl rfl
      · exact hs.trans (.reject _)
    · exact hs

theorem tryEnqueue_metrics (s : NodeState) (t : Str) (priority : ℤ) :
    (s.tryEnqueue t priority).worker = s.worker ∧ (s.tryEnqueue t priority).metrics = s.metrics := by
  unfold NodeState.tryEnqueue
  split <;> exact ⟨rfl, rfl⟩

/-- On a node with a handler a sweep counts, and makes no write. -/
theorem sweep_booked_handler (hh : N.hasHandler = true) {now wallNow : ℚ} {livePeers : List Str}
    {suspected : Str → Bool} {nonce : Str} : ∀ (l : List (Str × TaskRecord)) (s : NodeState),
    N.Booked s (N.sweep now livePeers suspected wallNow nonce s l) []
  | [], s => .of_metrics rfl rfl
  | (t, r) :: l, s => by
    have hbump : N.Booked s (s.bump .reclaimed) [] :=
      ⟨rfl, rfl, ⟨rfl, rfl⟩, ⟨rfl, rfl⟩, ⟨rfl, rfl⟩, fun hf => absurd (hh.symm.trans hf) (by simp), le_rfl⟩
    unfold sweep
    split_ifs
    · exact sweep_booked_handler hh l s
    split
    · exact .of_metrics rfl rfl
    split_ifs
    · exact sweep_booked_handler hh l s
    simp only
    split_ifs
    · exact hbump.trans (sweep_booked_handler hh l _)
    · obtain ⟨hw, hm⟩ := tryEnqueue_metrics (s.bump .reclaimed) t 10
      exact (hbump.trans (.of_metrics hw hm)).trans (sweep_booked_handler hh l _)

/-- Every reset is counted. -/
theorem sweep_booked {now wallNow : ℚ} {livePeers : List Str} {suspected : Str → Bool}
    {nonce : Str} : ∀ (l : List (Str × TaskRecord)) (s : NodeState),
    N.Booked s (N.sweep now livePeers suspected wallNow nonce s l)
      (N.sweepWrites now livePeers suspected wallNow nonce s l)
  | [], s => .of_metrics rfl rfl
  | (t, r) :: l, s => by
    cases hh : N.hasHandler with
    | true =>
      rw [sweepWrites_handler hh]
      exact sweep_booked_handler hh _ s
    | false =>
    unfold sweep sweepWrites
    by_cases hr : N.reclaimable r now suspected = true
    swap
    · simp only [hr, Bool.not_false, if_true]
      exact sweep_booked l s
    simp only [hr, Bool.not_true, Bool.false_eq_true, if_false]
    cases rendezvousReclaimer R t livePeers with
    | error e => exact .of_metrics rfl rfl
    | ok elected =>
    by_cases he : elected = some N.nodeId
    swap
    · simp only [ne_eq, he, not_false_eq_true, if_true, true_or]
      exact sweep_booked l s
    simp only [he, hh, ne_eq, not_true_eq_false, Bool.false_eq_true, or_self, if_false]
    obtain ⟨m, hb⟩ := N.broadcastTaskUpdate_eq (s.bump .reclaimed) wallNow nonce
      (N.tick s.toReplica) t (N.sealRecord_resetRecord r t _)
    have hreset : ∀ (p : Replica) (l : Reclaim) (sent : List (Str × Message)), N.Booked s
        { s.bump .reclaimed with toReplica := p, reclaim := l, sent := sent } [.reset t r] :=
      fun _ _ _ => ⟨rfl, rfl, ⟨rfl, rfl⟩, ⟨rfl, rfl⟩, ⟨rfl, rfl⟩, fun _ => rfl, le_rfl⟩
    simp only [NodeState.bump] at hb ⊢
    rw [hb]
    cases m with
    | error e => exact hreset _ _ s.sent
    | ok msg =>
      cases N.peers with
      | nil => exact (hreset _ s.reclaim s.sent).trans (sweep_booked l _)
      | cons p rest => exact hreset _ _ _

/-! ## Steps of the worker -/

/-- The end of a round counts the outcome. -/
theorem finishCommit_counts (job : Job) (st : TaskState) (wallNow : ℚ) (nonce : Str) :
    (N.finishCommit s job st wallNow nonce).metrics = (s.bump (outcomeMetric st)).metrics ∧
      ((N.finishCommit s job st wallNow nonce).worker = .stopped ∨
        (N.finishCommit s job st wallNow nonce).worker.idle = true) := by
  unfold finishCommit outcomeMetric
  simp only
  split_ifs
  any_goals exact ⟨rfl, Or.inr rfl⟩
  all_goals
    split
    exacts [⟨rfl, Or.inl rfl⟩, ⟨rfl, Or.inr rfl⟩]

theorem bump_metrics (s : NodeState) (m k : Metric) :
    (s.bump m).metrics k = s.metrics k + if k = m then 1 else 0 := by
  unfold NodeState.bump
  split_ifs with hk <;> simp [hk]

theorem due_eq_zero {w : Worker} (hw : w.idle = true ∨ w = .stopped) (m : Metric) : w.due m = 0 := by
  cases w <;> simp_all [Worker.due, Worker.idle]

theorem due_add_le (w : Worker) : w.due .completed + w.due .failed ≤ 1 := by
  cases w with
  | committing job st msg rest =>
    simp only [Worker.due, outcomeMetric]
    split_ifs <;> simp_all
  | _ => exact Nat.zero_le _

theorem busy_le (w : Worker) : w.busy ≤ 1 := by
  cases w <;> simp [Worker.busy]

/-- Steps of a running worker: claims are counted at once, commits at the end of the round. -/
theorem Counted.work (hc : N.Counted h s) (hrun : s.worker.isStopped = false)
    (hother : ∀ m, m = .enqueued ∨ m = .reclaimed → s'.metrics m = s.metrics m ∧ tally ws m = 0)
    (hclaimed : s'.metrics .claimed = s.metrics .claimed + tally ws .claimed)
    (hle : ∀ m, m = .completed ∨ m = .failed →
      s'.metrics m + s'.worker.due m ≤ s.metrics m + s.worker.due m + tally ws m)
    (heq : s'.worker.isStopped = false → ∀ m, m = .completed ∨ m = .failed →
      s'.metrics m + s'.worker.due m = s.metrics m + s.worker.due m + tally ws m)
    (hmiss : s.metrics .completed + s.worker.due .completed + tally ws .completed +
        (s.metrics .failed + s.worker.due .failed + tally ws .failed) ≤
      s'.metrics .completed + s'.metrics .failed + 1)
    (hbusy : s'.metrics .completed + s'.metrics .failed + s'.worker.busy ≤
      s.metrics .completed + s.metrics .failed + s.worker.busy + tally ws .claimed)
    (hspent : s.metrics .completed + s.metrics .failed + s.metrics .rejected + tally ws .claimed +
        (if s.worker.idle then 0 else 1) ≤
      s'.metrics .completed + s'.metrics .failed + s'.metrics .rejected +
        if s'.worker.idle then 0 else 1) : N.Counted (h ++ ws) s' := by
  obtain ⟨hfin, hfin'⟩ := hc.finished hrun
  obtain ⟨he, he'⟩ := hother .enqueued (Or.inl rfl)
  obtain ⟨hr, hr'⟩ := hother .reclaimed (Or.inr rfl)
  have hle1 := hle .completed (Or.inl rfl)
  have hle2 := hle .failed (Or.inr rfl)
  constructor
  case enqueued => rw [he, hc.enqueued, tally_append, he', add_zero]
  case claimed => rw [hclaimed, hc.claimed, tally_append]
  case reclaimed => exact fun hh => by rw [hr, hc.reclaimed hh, tally_append, hr', add_zero]
  case completed => rwa [tally_append, ← hfin]
  case failed => rwa [tally_append, ← hfin']
  case finished =>
    intro hs
    rw [tally_append, tally_append, ← hfin, ← hfin']
    exact ⟨heq hs .completed (Or.inl rfl), heq hs .failed (Or.inr rfl)⟩
  case missed => rwa [tally_append, tally_append, ← hfin, ← hfin']
  case atHand =>
    have hat := hc.atHand
    omega
  case spent =>
    have hsp := hc.spent
    omega

/-- A claim is counted at once. -/
theorem Counted.claim (hc : N.Counted h s) (hw : s.worker = .waiting) {job : Job}
    (hm : s'.metrics = (s.bump .claimed).metrics) (hidle : s'.worker.idle = false)
    (hdue : ∀ m, s'.worker.due m = 0) (hws : ws = [.claim job] ∨ ws = [.claim job, .run job]) :
    N.Counted (h ++ ws) s' := by
  have htally : ∀ m, tally ws m = if m = .claimed then 1 else 0 := by
    rcases hws with rfl | rfl <;> intro m <;> cases m <;> rfl
  have hbusy := busy_le s'.worker
  have hdone : ∀ m, m = .completed ∨ m = .failed →
      s'.metrics m + s'.worker.due m = s.metrics m + s.worker.due m + tally ws m := by
    rintro m (rfl | rfl) <;> rw [hm, bump_metrics, htally, hdue, hw] <;> rfl
  refine hc.work (by rw [hw]; rfl) ?_ ?_ (fun m hm' => (hdone m hm').le) (fun _ => hdone) ?_ ?_ ?_
  · rintro m (rfl | rfl) <;> rw [hm, bump_metrics, htally] <;> exact ⟨rfl, rfl⟩
  · rw [hm, bump_metrics, htally]
  · rw [← hdone _ (Or.inl rfl), ← hdone _ (Or.inr rfl), hdue, hdue]
    omega
  · rw [hm, bump_metrics, bump_metrics, htally]
    simpa [hw, Worker.busy] using hbusy
  · rw [hm, bump_metrics, bump_metrics, bump_metrics, htally, hw, hidle]
    simp [Worker.idle]

/-- A commit is made; it is counted later, or never if the worker stops. -/
theorem Counted.commit (hc : N.Counted h s) {job : Job} (hw : s.worker = .handling job)
    {outcome : Except Str Bytes} {st : TaskState} (hm : s'.metrics = s.metrics)
    (hst : (Write.commit job outcome).metric = some (outcomeMetric st))
    (hw' : s'.worker = .stopped ∨ ∃ job msg rest, s'.worker = .committing job st msg rest) :
    N.Counted (h ++ [.commit job outcome]) s' := by
  have htally : ∀ m, tally [Write.commit job outcome] m = if outcomeMetric st = m then 1 else 0 := by
    intro m
    simp [tally, hst]
  have hne : outcomeMetric st ≠ .enqueued ∧ outcomeMetric st ≠ .reclaimed ∧
      outcomeMetric st ≠ .claimed := by
    unfold outcomeMetric
    split_ifs <;> simp
  have hidle : s'.worker.idle = false ∧ s'.worker.busy ≤ 1 := by
    rcases hw' with h | ⟨j, msg, rest, h⟩ <;> rw [h] <;> exact ⟨rfl, by simp [Worker.busy]⟩
  refine hc.work (by rw [hw]; rfl) ?_ ?_ (fun m _ => ?_) (fun hs m _ => ?_) ?_ ?_ ?_
  · rintro m (rfl | rfl) <;> rw [hm, htally]
    exacts [⟨rfl, if_neg hne.1⟩, ⟨rfl, if_neg hne.2.1⟩]
  · rw [hm, htally, if_neg hne.2.2, add_zero]
  · rw [hm, htally, hw]
    rcases hw' with h | ⟨j, msg, rest, h⟩ <;> rw [h] <;> simp [Worker.due]
  · rcases hw' with h | ⟨j, msg, rest, h⟩
    · rw [h] at hs
      cases hs
    · rw [hm, htally, hw, h]
      simp [Worker.due]
  · rw [hm, htally, htally, hw]
    simp only [Worker.due]
    unfold outcomeMetric
    split_ifs <;> simp_all <;> omega
  · have hbusy : s.worker.busy = 1 := by rw [hw]; rfl
    rw [hm]
    omega
  · rw [hm, hw, htally, if_neg hne.2.2, hidle.1]
    simp [Worker.idle]

/-- The end of a round counts the commit. -/
theorem Counted.finish (hc : N.Counted h s) {job : Job} {st : TaskState} {msg : Message}
    {rest : List Str} (hw : s.worker = .committing job st msg rest)
    (hm : s'.metrics = (s.bump (outcomeMetric st)).metrics)
    (hw' : s'.worker = .stopped ∨ s'.worker.idle = true) : N.Counted (h ++ []) s' := by
  have hdue : ∀ m, s'.worker.due m = 0 := due_eq_zero hw'.symm
  have hbusy : s'.worker.busy = 0 := by
    rcases hw' with h | h
    · rw [h]; rfl
    · revert h
      cases s'.worker <;> simp [Worker.idle, Worker.busy]
  have hsum : (s.bump (outcomeMetric st)).metrics .completed +
      (s.bump (outcomeMetric st)).metrics .failed = s.metrics .completed + s.metrics .failed + 1 := by
    rw [bump_metrics, bump_metrics]
    unfold outcomeMetric
    split_ifs <;> simp_all <;> omega
  have hdone : ∀ m, m = .completed ∨ m = .failed →
      s'.metrics m + s'.worker.due m = s.metrics m + s.worker.due m + tally [] m := by
    intro m _
    rw [hm, bump_metrics, hdue, hw]
    simp [Worker.due, eq_comm]
  have hkeep : ∀ m, m ≠ .completed → m ≠ .failed → s'.metrics m = s.metrics m := by
    intro m h1 h2
    rw [hm, bump_metrics, if_neg, add_zero]
    unfold outcomeMetric
    split_ifs
    exacts [h1, h2]
  refine hc.work (by rw [hw]; rfl) ?_ ?_ (fun m hm' => (hdone m hm').le) (fun _ => hdone) ?_ ?_ ?_
  · rintro m (rfl | rfl) <;> exact ⟨hkeep _ (by simp) (by simp), rfl⟩
  · rw [hkeep _ (by simp) (by simp)]; rfl
  · rw [← hdone _ (Or.inl rfl), ← hdone _ (Or.inr rfl), hdue, hdue]
    omega
  · rw [hm, hsum, hbusy, hw]
    simp [Worker.busy]
  · rw [hm, hsum, hw, bump_metrics]
    simp only [Worker.idle, tally_nil, Bool.false_eq_true, if_false]
    omega

/-- A step in which the worker moves on with its task, or after it, counts nothing but a
    rejection. -/
theorem Counted.move (hc : N.Counted h s) (hrun : s.worker.isStopped = false)
    (hdue : ∀ m, s'.worker.due m = s.worker.due m) (hws : ∀ m, tally ws m = 0)
    (hm : (∀ m, s'.metrics m = s.metrics m) ∧ s'.worker.busy = s.worker.busy ∧
        s'.worker.idle = s.worker.idle ∨
      (∀ m, s'.metrics m = (s.bump .rejected).metrics m) ∧ s'.worker.busy = 0) :
    N.Counted (h ++ ws) s' := by
  have hkeep : ∀ m, m ≠ .rejected → s'.metrics m = s.metrics m := by
    intro m hne
    rcases hm with ⟨h1, -⟩ | ⟨h1, -⟩
    · exact h1 m
    · rw [h1, bump_metrics, if_neg hne, add_zero]
  have hdone : ∀ m, m = .completed ∨ m = .failed →
      s'.metrics m + s'.worker.due m = s.metrics m + s.worker.due m + tally ws m := by
    rintro m (rfl | rfl) <;> rw [hkeep _ (by simp), hdue, hws] <;> rfl
  refine hc.work hrun ?_ ?_ (fun m hm' => (hdone m hm').le) (fun _ => hdone) ?_ ?_ ?_
  · rintro m (rfl | rfl) <;> exact ⟨hkeep _ (by simp), hws _⟩
  · rw [hkeep _ (by simp), hws]; rfl
  · have hle := due_add_le s'.worker
    rw [← hdone _ (Or.inl rfl), ← hdone _ (Or.inr rfl)]
    omega
  · rw [hkeep _ (by simp), hkeep _ (by simp), hws]
    rcases hm with ⟨-, h2, -⟩ | ⟨-, h2⟩ <;> omega
  · rw [hkeep .completed (by simp), hkeep .failed (by simp), hws]
    rcases hm with ⟨h1, -, h3⟩ | ⟨h1, -⟩
    · rw [h1, h3]; rfl
    · rw [h1, bump_metrics]
      simp only [if_true]
      split_ifs <;> omega

theorem Counted.claimTask (hc : N.Counted h s) (hw : s.worker = .waiting) (job : Job) (wallNow : ℚ)
    (nonce : Str) : N.Counted (h ++ N.claimWrites s job wallNow nonce)
      (N.claimTask s job wallNow nonce) := by
  unfold claimWrites
  obtain ⟨x, s₁, -, rfl, hx | hx | ⟨p, msg, rest, hx⟩⟩ := N.claimTask_cases s wallNow nonce job <;>
    rw [hx]
  · exact hc.claim hw rfl rfl (fun _ => rfl) (Or.inl rfl)
  · exact hc.claim hw rfl rfl (fun _ => rfl) (Or.inr rfl)
  · exact hc.claim hw rfl rfl (fun _ => rfl) (Or.inl rfl)

theorem Counted.workerGet (hc : N.Counted h s) (hw : s.worker = .waiting) (now leaseNow wallNow : ℚ)
    (suspected : Str → Bool) (nonce : Str) :
    N.Counted (h ++ N.getWrites s now leaseNow wallNow suspected nonce)
      (N.workerGet s now leaseNow wallNow suspected nonce) := by
  unfold PeerNode.workerGet getWrites
  cases s.queue.get with
  | none => exact hc.book (.refl s)
  | some x =>
    obtain ⟨taskId, q⟩ := x
    simp only
    cases s.tasks.get taskId with
    | none => exact hc.book (.of_metrics rfl rfl)
    | some record =>
      simp only
      split_ifs
      · exact hc.book (.of_metrics rfl rfl)
      · exact hc.book (.of_metrics rfl rfl)
      · refine Counted.claimTask (s := { s with queue := q, queuedTaskIds := _ }) ?_ hw _ _ _
        exact ⟨hc.1, hc.2, hc.3, hc.4, hc.5, hc.6, hc.7, hc.8, hc.9⟩

/-- The state of a committed record tells its counter. -/
theorem commit_metric (job : Job) (outcome : Except Str Bytes) (c : VectorClock) :
    (Write.commit job outcome).metric =
      some (outcomeMetric (N.commitRecord job outcome c).state) := by
  unfold commitRecord sealRecord
  cases outcome <;> split_ifs <;> rfl

theorem Counted.commitTask (hc : N.Counted h s) {job : Job} (hw : s.worker = .handling job)
    (outcome : Except Str Bytes) (wallNow : ℚ) (nonce : Str) :
    N.Counted (h ++ [.commit job outcome]) (N.commitTask s job outcome wallNow nonce) := by
  have hr : N.sealRecord (N.commitRecord job outcome (N.tick s.toReplica).vectorClock) =
    N.commitRecord job outcome (N.tick s.toReplica).vectorClock := N.sealRecord_sealRecord _
  obtain ⟨m, hb⟩ := N.broadcastTaskUpdate_eq s wallNow nonce (N.tick s.toReplica) job.taskId hr
  have hst := commit_metric (N := N) job outcome (N.tick s.toReplica).vectorClock
  unfold PeerNode.commitTask
  simp only
  rw [hb]
  cases m with
  | error e => exact hc.commit hw rfl hst (Or.inl rfl)
  | ok msg =>
    cases N.peers with
    | nil =>
      -- as if the broadcast to no one were over at once
      let st := (N.commitRecord job outcome (N.tick s.toReplica).vectorClock).state
      have hmid : N.Counted (h ++ [.commit job outcome]) { s with worker := .committing job st msg [] } :=
        hc.commit hw rfl hst (Or.inr ⟨_, _, _, rfl⟩)
      obtain ⟨hm, hw'⟩ := finishCommit_counts (N := N) (s := { s with toReplica := (N.logUpdate
        ((N.tick s.toReplica).store job.taskId (N.commitRecord job outcome
          (N.tick s.toReplica).vectorClock)) (N.commitRecord job outcome
          (N.tick s.toReplica).vectorClock)).1 }) job
        (N.commitRecord job outcome (N.tick s.toReplica).vectorClock).state wallNow nonce
      have hend := hmid.finish rfl (hm.trans rfl) hw'
      rwa [List.append_nil] at hend
    | cons p rest => exact hc.commit hw rfl hst (Or.inr ⟨_, _, _, rfl⟩)

theorem Counted.handlerDone (hc : N.Counted h s) (outcome : Except Str Bytes) (now wallNow : ℚ)
    (nonce : Str) : N.Counted (h ++ doneWrites s outcome now)
      (N.handlerDone s outcome now wallNow nonce) := by
  unfold PeerNode.handlerDone doneWrites
  cases hw : s.worker
  case handling job =>
    have hrun : s.worker.isStopped = false := by rw [hw]; rfl
    have hmove : N.Counted (h ++ []) { s.bump .rejected with worker := .waiting } :=
      hc.move hrun (fun m => by rw [hw]; rfl) (fun _ => rfl) (Or.inr ⟨fun _ => rfl, rfl⟩)
    simp only
    split_ifs
    · exact hmove
    · exact hmove
    · exact hc.commitTask hw _ _ _
  all_goals exact hc.book (.refl s)

/-- The writes of a pending send that returns. -/
theorem Counted.workerSent (hc : N.Counted h s) (wallNow : ℚ) (nonce : Str) :
    N.Counted (h ++ N.writes s (.workerSent wallNow nonce)) (N.workerSent s wallNow nonce) := by
  unfold PeerNode.workerSent
  simp only [writes]
  cases hw : s.worker
  case claiming job msg rest =>
    have hrun : s.worker.isStopped = false := by rw [hw]; rfl
    cases rest with
    | nil =>
      refine hc.move hrun (fun m => by rw [hw]; rfl) (fun m => by cases m <;> rfl)
        (Or.inl ⟨fun _ => rfl, ?_, ?_⟩) <;> rw [hw] <;> rfl
    | cons p rest =>
      refine hc.move hrun (fun m => by rw [hw]; rfl) (fun _ => rfl)
        (Or.inl ⟨fun _ => rfl, ?_, ?_⟩) <;> rw [hw] <;> rfl
  case committing job st msg rest =>
    have hrun : s.worker.isStopped = false := by rw [hw]; rfl
    cases rest with
    | nil =>
      obtain ⟨hm, hw'⟩ := finishCommit_counts (N := N) (s := s) job st wallNow nonce
      exact hc.finish hw hm hw'
    | cons p rest =>
      refine hc.move hrun (fun m => by rw [hw]; rfl) (fun _ => rfl)
        (Or.inl ⟨fun _ => rfl, ?_, ?_⟩) <;> rw [hw] <;> rfl
  case crediting =>
    refine hc.move (by rw [hw]; rfl) (fun m => by rw [hw]; rfl) (fun _ => rfl)
      (Or.inl ⟨fun _ => rfl, ?_, ?_⟩) <;> rw [hw] <;> rfl
  all_goals exact hc.book (.refl s)

/-! ## Runs -/

/-- **A step keeps the accounts.** -/
theorem Counted.step (hc : N.Counted h s) {e : Event} (he : ∀ cut, e ≠ .restart cut) :
    N.Counted (h ++ N.writes s e) (N.step s e) := by
  cases e with
  | submit taskId payload priority =>
    simp only [PeerNode.step, writes]
    split_ifs
    · exact hc.book (submit_booked taskId payload priority)
    · exact hc.book (.refl s)
  | recv sender msg wallNow =>
    simp only [PeerNode.step, writes]
    split_ifs
    · have hb := recv_booked (N := N) (s := s) sender msg wallNow
      unfold afterRecv
      cases (N.recvMessage s sender msg wallNow).2 with
      | none => exact hc.book hb
      | some err =>
        refine hc.book ?_
        rw [← List.append_nil (N.messageWrites s sender msg wallNow)]
        exact hb.trans (.of_metrics rfl rfl)
    · exact hc.book (.refl s)
  | workerGet now leaseNow wallNow suspected nonce =>
    simp only [PeerNode.step, writes]
    cases hw : s.worker
    case waiting => exact hc.workerGet hw _ _ _ _ _
    all_goals exact hc.book (.refl s)
  | workerSent wallNow nonce => exact hc.workerSent wallNow nonce
  | handlerDone outcome now wallNow nonce => exact hc.handlerDone outcome now wallNow nonce
  | reclaimSweep now wallNow suspected nonce =>
    simp only [PeerNode.step, writes, reclaimSweep]
    cases s.reclaim
    case sleeping => exact hc.book (sweep_booked _ s)
    all_goals exact hc.book (.refl s)
  | reclaimSent wallNow suspected nonce =>
    simp only [PeerNode.step, writes, reclaimSent]
    cases s.reclaim
    case resetting msg rest now livePeers snapshot =>
      cases rest with
      | nil => exact hc.book (sweep_booked _ s)
      | cons p rest => exact hc.book (.of_metrics rfl rfl)
    all_goals exact hc.book (.refl s)
  | gossipRound partner wallNow nonce =>
    refine hc.book (.of_metrics (N.step_gossipRound_quiet s partner wallNow nonce).worker ?_)
    simp only [PeerNode.step, gossipRound]
    split_ifs
    · rfl
    · split <;> rfl
    · rfl
  | heartbeatRound now wallNow nonce =>
    refine hc.book (.of_metrics (N.step_heartbeatRound_quiet s now wallNow nonce).worker ?_)
    simp only [PeerNode.step, heartbeatRound]
    split_ifs
    · split <;> rfl
    · rfl
  | restart cut => exact absurd rfl (he cut)

theorem boot_counted (file : Option Bytes) (journal : List LogEntry) :
    N.Counted [] (N.boot file journal) := by
  obtain ⟨p, q, ids, up, s, rfl, hb | hb⟩ := N.boot_fresh file journal <;> rw [hb]
  · exact ⟨rfl, rfl, fun _ => rfl, le_rfl, le_rfl, fun _ => ⟨rfl, rfl⟩, Nat.zero_le _, le_rfl,
      Nat.zero_le _⟩
  · cases hh : N.hasHandler <;> simp only [startLoops, hh] <;>
      exact ⟨rfl, rfl, fun _ => rfl, le_rfl, le_rfl, fun _ => ⟨rfl, rfl⟩, Nat.zero_le _, le_rfl,
      Nat.zero_le _⟩

theorem Counted.run : ∀ {es : List Event} {h : List Write} {s : NodeState}, N.Counted h s →
    (∀ e ∈ es, ∀ cut, e ≠ .restart cut) →
    N.Counted (h ++ trace N.writes N.step s es) (Py.run N.step s es)
  | [], h, s, hc, _ => by simpa [trace] using hc
  | e :: es, h, s, hc, hes => by
    rw [trace, ← List.append_assoc, run_cons]
    exact (hc.step (hes e (by simp))).run fun e' he' => hes e' (List.mem_cons_of_mem _ he')

end

/-- **The counters are exact.**  From the start of a node, on whatever log, to any later state
    without a restart: `enqueued` and `claimed` count the submissions and the claims, `reclaimed`
    on a node without a handler the resets, and between two tasks `completed` and `failed` the
    commits with a result and with an error, which otherwise they miss by one at most together.  What
    was claimed is completed, failed, rejected or at hand. -/
theorem counters_exact (file : Option Bytes) (journal : List LogEntry) {es : List Event}
    (hes : ∀ e ∈ es, ∀ cut, e ≠ .restart cut) :
    let s := run N.step (N.boot file journal) es
    let h := trace N.writes N.step (N.boot file journal) es
    s.metrics .enqueued = tally h .enqueued ∧ s.metrics .claimed = tally h .claimed ∧
      (N.hasHandler = false → s.metrics .reclaimed = tally h .reclaimed) ∧
      s.metrics .completed ≤ tally h .completed ∧ s.metrics .failed ≤ tally h .failed ∧
      (s.worker.idle = true → s.metrics .completed = tally h .completed ∧
        s.metrics .failed = tally h .failed) ∧
      tally h .completed + tally h .failed ≤ s.metrics .completed + s.metrics .failed + 1 ∧
      s.metrics .completed + s.metrics .failed + s.worker.busy ≤ s.metrics .claimed ∧
      s.metrics .claimed ≤ s.metrics .completed + s.metrics .failed + s.metrics .rejected +
        if s.worker.idle then 0 else 1 := by
  have hc := (boot_counted (N := N) file journal).run hes
  rw [List.nil_append] at hc
  refine ⟨hc.enqueued, hc.claimed, hc.reclaimed, (Nat.le_add_right _ _).trans hc.completed,
    (Nat.le_add_right _ _).trans hc.failed, fun hidle => ?_, hc.missed, hc.atHand, hc.spent⟩
  have hrun : (run N.step (N.boot file journal) es).worker.isStopped = false := by
    revert hidle
    cases (run N.step (N.boot file journal) es).worker <;> simp [Worker.idle, Worker.isStopped]
  have hfin := hc.finished hrun
  rwa [due_eq_zero (Or.inl hidle), due_eq_zero (Or.inl hidle)] at hfin

/-- A worker that has claimed a task. -/
theorem counters_exact_claim :
    let s := run Sample.workerC.step (Sample.workerC.boot none []) Sample.claimSteps
    s.worker.busy = 1 ∧ s.metrics .claimed = 1 ∧ s.metrics .claimed =
      tally (trace Sample.workerC.writes Sample.workerC.step (Sample.workerC.boot none [])
        Sample.claimSteps) .claimed := by
  have hes : ∀ e ∈ Sample.claimSteps, ∀ cut, e ≠ Event.restart cut := by
    intro e he cut
    simp only [Sample.claimSteps, List.mem_cons, List.not_mem_nil, or_false] at he
    rcases he with rfl | rfl <;> simp
  exact ⟨by decide +kernel, by decide +kernel, (Sample.workerC.counters_exact none [] hes).2.1⟩

end PeerNode

end PeerQ
