/-
  Wakeups of the blocking queue.

  Producers and consumers wait on one condition, and every operation notifies the
  waiter that came first, whichever it is.  One that is notified and finds nothing
  to do waits again and passes nothing on: this is how a wakeup is lost, and the
  only way.
-/
import PeerQ.Queue.Tasks

namespace PeerQ

open Py

def QueueCall.isPut {α : Type} : QueueCall α → Bool
  | .put _ _ => true
  | _ => false

def QueueCall.isGet {α : Type} : QueueCall α → Bool
  | .get => true
  | _ => false

/-- The callers of `put` and `get`. -/
def QueueEvent.ofCoroutine {α : Type} : QueueEvent α → Bool
  | .put _ _ | .get | .run _ => true
  | _ => false

/-- Everything but a call outside of the loop, which notifies nobody. -/
def QueueEvent.inLoop {α : Type} : QueueEvent α → Bool
  | .putNowait _ _ running | .getNowait running => running
  | _ => true

namespace BackpressurePriorityQueue

variable {α : Type} (Q : BackpressurePriorityQueue α)

/-- Nothing can run, and a producer waits though the queue is not full, or a consumer though it is
    not empty. -/
def Stuck (s : QueueState α) : Prop :=
  s.runnable.isEmpty = true ∧
    ((∃ c ∈ s.waiting, c.isPut = true) ∧ Q.full s = false ∨
      (∃ c ∈ s.waiting, c.isGet = true) ∧ s.heap.isEmpty = false)

/-- A coroutine goes to wait, the last one that could run, and one of the other kind is waiting. -/
def Strands (s : QueueState α) (e : QueueEvent α) : Prop :=
  ∃ call, s.runnable = [call] ∧ e = .run 0 ∧
    (call.isPut = true ∧ Q.full s = true ∧ (∃ c ∈ s.waiting, c.isGet = true) ∨
      call.isGet = true ∧ s.heap.isEmpty = true ∧ ∃ c ∈ s.waiting, c.isPut = true)

/-- Callers of both kinds wait. -/
def Mixed (s : QueueState α) : Prop :=
  (∃ c ∈ s.waiting, c.isPut = true) ∧ ∃ c ∈ s.waiting, c.isGet = true

variable {Q} {s : QueueState α}

theorem not_stuck_of_runnable (h : s.runnable ≠ []) : ¬ Q.Stuck s := by
  rintro ⟨hempty, -⟩
  exact h (List.isEmpty_iff.1 hempty)

theorem not_stuck_of_waiting (h : s.waiting = []) : ¬ Q.Stuck s := by
  rintro ⟨-, ⟨⟨c, hc, -⟩, -⟩ | ⟨⟨c, hc, -⟩, -⟩⟩ <;> simp [h] at hc

/-- After a notification someone can run, or nobody waits. -/
theorem not_stuck_notify (s : QueueState α) : ¬ Q.Stuck s.notify := by
  unfold QueueState.notify
  cases hw : s.waiting with
  | nil => exact not_stuck_of_waiting hw
  | cons call waiting => exact not_stuck_of_runnable (by simp)

theorem not_stuck_signal (s : QueueState α) : ¬ Q.Stuck (s.notifyCondition true) :=
  not_stuck_of_runnable (by simp [QueueState.notifyCondition])

theorem not_strands_of_waiting {e : QueueEvent α} (h : s.waiting = []) : ¬ Q.Strands s e := by
  rintro ⟨_, _, _, ⟨_, _, c, hc, _⟩ | ⟨_, _, c, hc, _⟩⟩ <;> simp [h] at hc

/-- A bounded queue is not full and empty at once. -/
theorem not_full_of_isEmpty (hpos : 0 < Q.maxsize) (h : s.heap.isEmpty = true) :
    Q.full s = false := by
  rw [List.isEmpty_iff] at h
  simp [full, h, not_le.2 hpos]

theorem not_isEmpty_of_full (hpos : 0 < Q.maxsize) (h : Q.full s = true) :
    s.heap.isEmpty = false := by
  cases hs : s.heap.isEmpty with
  | false => rfl
  | true => rw [not_full_of_isEmpty hpos hs] at h; cases h

/-- A coroutine that waits on a full queue. -/
theorem stuck_wait_put (hpos : 0 < Q.maxsize) (hfull : Q.full s = true) {call : QueueCall α}
    (hcall : call.isPut = true) :
    Q.Stuck (s.wait call) ↔ s.runnable = [] ∧ ∃ c ∈ s.waiting, c.isGet = true := by
  have hget : call.isGet = false := by cases call <;> first | rfl | cases hcall
  have hfull' : Q.full (s.wait call) = true := hfull
  have hheap : (s.wait call).heap.isEmpty = false := not_isEmpty_of_full hpos hfull
  rw [Stuck, hfull', hheap]
  simp [QueueState.wait, or_and_right, exists_or, hget]

/-- A coroutine that waits on an empty queue. -/
theorem stuck_wait_get (hpos : 0 < Q.maxsize) (hempty : s.heap.isEmpty = true) {call : QueueCall α}
    (hcall : call.isGet = true) :
    Q.Stuck (s.wait call) ↔ s.runnable = [] ∧ ∃ c ∈ s.waiting, c.isPut = true := by
  have hput : call.isPut = false := by cases call <;> first | rfl | cases hcall
  have hfull : Q.full (s.wait call) = false := not_full_of_isEmpty hpos hempty
  have hheap : (s.wait call).heap.isEmpty = true := hempty
  rw [Stuck, hfull, hheap]
  simp [QueueState.wait, or_and_right, exists_or, hput]

/-- The last coroutine that can run. -/
theorem eraseIdx_eq_nil {l : List (QueueCall α)} {i : ℕ} {call : QueueCall α}
    (h : l[i]? = some call) : l.eraseIdx i = [] ↔ l = [call] ∧ i = 0 := by
  obtain ⟨hi, hc⟩ := List.getElem?_eq_some_iff.1 h
  constructor
  · intro hnil
    have hlen := List.length_eraseIdx_of_lt hi
    rw [hnil, List.length_nil] at hlen
    obtain rfl : i = 0 := by omega
    obtain ⟨c, rfl⟩ := List.length_eq_one_iff.1 (show l.length = 1 by omega)
    exact ⟨by simpa using hc, rfl⟩
  · rintro ⟨rfl, rfl⟩
    rfl

/-- **How a wakeup is lost**: a step from a state that is not stuck leads to one that is exactly if
    a coroutine goes to wait, the last one that could run, with one of the other kind waiting. -/
theorem stuck_step_iff (hpos : 0 < Q.maxsize) (hpolicy : Q.policy = .blockOnFull)
    (hs : ¬ Q.Stuck s) {e : QueueEvent α} (he : e.inLoop = true) :
    Q.Stuck (Q.step s e) ↔ Q.Strands s e := by
  have hno : ¬ Q.Stuck (Q.step s e) → (∀ i, e ≠ .run i) → (Q.Stuck (Q.step s e) ↔ Q.Strands s e) :=
    fun hstuck hne => iff_of_false hstuck fun ⟨_, _, h, _⟩ => hne 0 h
  cases e with
  | put item priority => exact hno (not_stuck_of_runnable (by simp [step, react])) (by simp)
  | get => exact hno (not_stuck_of_runnable (by simp [step, react])) (by simp)
  | putNowait item priority running =>
    obtain rfl : running = true := he
    refine hno ?_ (by simp)
    simp only [step, react, putNowait]
    split_ifs
    · exact hs
    · exact not_stuck_signal _
  | getNowait running =>
    obtain rfl : running = true := he
    refine hno ?_ (by simp)
    simp only [step, react, getNowait]
    split
    · exact hs
    · exact not_stuck_signal _
  | peek => exact hno hs (by simp)
  | run i =>
    simp only [step, react]
    cases hi : s.runnable[i]? with
    | none =>
      refine iff_of_false hs ?_
      rintro ⟨call, hcall, h, -⟩
      obtain rfl : i = 0 := by simpa using h
      simp [hcall] at hi
    | some call =>
      have hlast := eraseIdx_eq_nil hi
      have hstrands : Q.Strands s (.run i) ↔ s.runnable.eraseIdx i = [] ∧
          (call.isPut = true ∧ Q.full s = true ∧ (∃ c ∈ s.waiting, c.isGet = true) ∨
            call.isGet = true ∧ s.heap.isEmpty = true ∧ ∃ c ∈ s.waiting, c.isPut = true) := by
        rw [hlast]
        constructor
        · rintro ⟨c, hc, h, hcase⟩
          obtain rfl : i = 0 := by simpa using h
          obtain rfl : c = call := by simpa [hc] using hi
          exact ⟨⟨hc, rfl⟩, hcase⟩
        · rintro ⟨⟨hc, rfl⟩, hcase⟩
          exact ⟨call, hc, rfl, hcase⟩
      rw [hstrands]
      set s₁ : QueueState α := { s with runnable := s.runnable.eraseIdx i }
      cases call with
      | put item priority =>
        simp only [attempt, hpolicy]
        split_ifs with hfull
        · have hfull' : Q.full s = true := hfull
          rw [stuck_wait_put hpos hfull (by rfl)]
          simp [hfull', QueueCall.isPut, QueueCall.isGet, s₁]
        · have hfull' : ¬ Q.full s = true := hfull
          refine iff_of_false (not_stuck_notify _) ?_
          simp [hfull', QueueCall.isGet]
      | get =>
        simp only [attempt]
        cases hheap : s.heap with
        | nil =>
          have hs₁ : s₁.heap.isEmpty = true := by simp [s₁, hheap]
          rw [stuck_wait_get hpos hs₁ (by rfl)]
          simp [QueueCall.isPut, QueueCall.isGet, s₁]
        | cons entry rest =>
          refine iff_of_false (not_stuck_notify _) ?_
          simp [QueueCall.isPut]
      | asyncNotify =>
        refine iff_of_false (not_stuck_notify _) ?_
        simp [QueueCall.isPut, QueueCall.isGet]

theorem not_stuck_initial : ¬ Q.Stuck {} := not_stuck_of_waiting rfl

/-- **No lost wakeup**, as far as it goes: a run of a bounded blocking queue comes to no stuck state
    exactly if in it no coroutine goes to wait, as the last one that could run, while one of the
    other kind is waiting. -/
theorem no_lost_wakeup_iff (hpos : 0 < Q.maxsize) (hpolicy : Q.policy = .blockOnFull)
    {es : List (QueueEvent α)} (hes : ∀ e ∈ es, e.inLoop = true) :
    Along (fun s e => ¬ Q.Stuck (Q.step s e)) Q.step {} es ↔
      Along (fun s e => ¬ Q.Strands s e) Q.step {} es :=
  Along.iff_of_invariant (I := fun s => ¬ Q.Stuck s)
    (fun _ _ hs he => not_congr (stuck_step_iff hpos hpolicy hs he)) (fun _ _ _ _ h => h)
    not_stuck_initial (Along.of_mem hes)

/-- No wakeup is lost while the waiters are all producers or all consumers. -/
theorem no_lost_wakeup_apart (hpos : 0 < Q.maxsize) (hpolicy : Q.policy = .blockOnFull)
    {es : List (QueueEvent α)} (hes : ∀ e ∈ es, e.inLoop = true)
    (h : Along (fun s e => ¬ Mixed (Q.step s e)) Q.step {} es) : ¬ Q.Stuck (run Q.step {} es) := by
  refine (h.and (Along.of_mem hes)).invariant (I := fun s => ¬ Q.Stuck s) (fun s e hs hse => ?_)
    not_stuck_initial
  obtain ⟨hmixed, he⟩ := hse
  rw [stuck_step_iff hpos hpolicy hs he]
  rintro ⟨call, hcall, rfl, ⟨hput, hfull, c, hc, hget⟩ | ⟨hget, hempty, c, hc, hput⟩⟩
  · refine hmixed ?_
    cases call with
    | put item priority =>
      have hfull' : Q.full { s with runnable := [] } = true := hfull
      simp only [step, react, hcall, List.getElem?_cons_zero, List.eraseIdx_cons_zero, attempt,
        hfull', if_true, hpolicy, QueueState.wait]
      exact ⟨⟨.put item priority, by simp, rfl⟩, c, by simp [hc], hget⟩
    | get | asyncNotify => cases hput
  · refine hmixed ?_
    cases call with
    | get =>
      have hheap : s.heap = [] := List.isEmpty_iff.1 hempty
      simp only [step, react, hcall, List.getElem?_cons_zero, List.eraseIdx_cons_zero, attempt,
        hheap, QueueState.wait]
      exact ⟨⟨c, by simp [hc], hput⟩, .get, by simp, rfl⟩
    | put item priority | asyncNotify => cases hget

namespace Sample

/-- A queue for one item. -/
def single : BackpressurePriorityQueue ℕ where
  maxsize := 1
  policy := .blockOnFull
  heapq := Heapq.sorted _

/-- Two consumers wait; a producer puts an item for the first one and another producer waits; the
    first consumer takes the item and notifies the second one. -/
def crossed : List (QueueEvent ℕ) :=
  [.get, .run 0, .get, .run 0, .put 1 0, .put 2 0, .run 0, .run 0, .run 0, .run 0]

end Sample

instance (Q : BackpressurePriorityQueue α) (s : QueueState α) : Decidable (Q.Stuck s) :=
  inferInstanceAs (Decidable (_ ∧ _))

/-- One consumer waits for one producer. -/
theorem no_lost_wakeup_pair :
    Along (fun s e => ¬ Sample.single.Stuck (Sample.single.step s e)) Sample.single.step {}
      [.get, .run 0, .put 1 0, .run 0, .run 0] := by
  refine (no_lost_wakeup_iff (by decide) rfl (by decide)).2 ⟨not_strands_of_waiting rfl,
    not_strands_of_waiting rfl, ?_, ?_, not_strands_of_waiting rfl, trivial⟩
  · rintro ⟨call, -, he, -⟩
    cases he
  · rintro ⟨call, hcall, -, hcase⟩
    obtain rfl := List.singleton_inj.1 hcall
    revert hcase
    decide

/-- In the end the second producer and the second consumer wait, and the queue is empty. -/
theorem wakeup_lost :
    ¬ ∀ (Q : BackpressurePriorityQueue ℕ) (es : List (QueueEvent ℕ)), 0 < Q.maxsize →
      Q.policy = .blockOnFull → (∀ e ∈ es, e.ofCoroutine = true) →
      ¬ Q.Stuck (run Q.step {} es) := by
  intro h
  have hstuck := h Sample.single Sample.crossed (by decide) rfl (by decide)
  revert hstuck
  decide

end BackpressurePriorityQueue

end PeerQ
