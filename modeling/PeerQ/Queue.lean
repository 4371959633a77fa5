/-
  The local scheduling queue and the credit windows (`peerq/queue.py`), as the
  node uses them.

  The heap is kept as its entries in the order in which they come out: by
  descending priority, then by sequence number.
-/
import PeerQ.Security

namespace PeerQ

open Py

/-- `_PrioritizedItem`. -/
structure QueueEntry where
  priorityNeg : ℤ
  seq : ℕ
  item : Str
  deriving DecidableEq

/-- `BackpressurePriorityQueue[str]` under `REJECT_ON_FULL`; a `maxsize` of zero or less means
    unbounded. -/
structure BackpressureQueue where
  maxsize : ℤ
  heap : List QueueEntry := []
  seq : ℕ := 0

namespace BackpressureQueue

variable (q : BackpressureQueue)

def full : Bool := if q.maxsize ≤ 0 then false else q.maxsize ≤ q.heap.length

/-- The order of the heap. -/
def before (a b : QueueEntry) : Bool :=
  a.priorityNeg < b.priorityNeg || (a.priorityNeg = b.priorityNeg && a.seq ≤ b.seq)

/-- `put` and `put_nowait`. -/
def put (item : Str) (priority : ℤ) : Except Exn BackpressureQueue :=
  if q.full then
    .error (.queueFull (str "Queue reached maximum capacity of " ++ natText q.maxsize.toNat))
  else .ok { q with
    heap := q.heap.orderedInsert (fun a b => before a b) ⟨-priority, q.seq, item⟩
    seq := q.seq + 1 }

/-- `get` when an entry is there: the item and the queue without it. -/
def get : Option (Str × BackpressureQueue) :=
  match q.heap with
  | [] => none
  | e :: heap => some (e.item, { q with heap })

/-- The queued items. -/
def items : List Str := q.heap.map QueueEntry.item

variable {q}

theorem put_ok_iff {item : Str} {priority : ℤ} {q' : BackpressureQueue} :
    q.put item priority = .ok q' ↔ q.full = false ∧ q' = { q with
      heap := q.heap.orderedInsert (fun a b => before a b) ⟨-priority, q.seq, item⟩
      seq := q.seq + 1 } := by
  unfold put
  by_cases h : q.full = true
  · simp [h]
  · rw [Bool.not_eq_true] at h
    simp only [h, Bool.false_eq_true, if_false, Except.ok.injEq, true_and]
    exact eq_comm

/-- A queue that took an item holds it besides what it held. -/
theorem mem_put {item t : Str} {priority : ℤ} {q' : BackpressureQueue}
    (h : q.put item priority = .ok q') : t ∈ q'.items ↔ t = item ∨ t ∈ q.items := by
  obtain ⟨-, rfl⟩ := put_ok_iff.1 h
  simp only [items, List.mem_map, List.mem_orderedInsert]
  constructor
  · rintro ⟨e, rfl | he, rfl⟩
    exacts [Or.inl rfl, Or.inr ⟨e, he, rfl⟩]
  · rintro (rfl | ⟨e, he, rfl⟩)
    exacts [⟨_, Or.inl rfl, rfl⟩, ⟨e, Or.inr he, rfl⟩]

theorem get_eq_some {t : Str} {q' : BackpressureQueue} (h : q.get = some (t, q')) :
    q.items = t :: q'.items := by
  unfold get at h
  cases hq : q.heap with
  | nil => rw [hq] at h; simp at h
  | cons e heap =>
    rw [hq] at h
    simp only [Option.some.injEq, Prod.mk.injEq] at h
    obtain ⟨rfl, rfl⟩ := h
    simp [items, hq]

theorem get_eq_none : q.get = none ↔ q.items = [] := by
  unfold get items
  cases q.heap <;> simp

end BackpressureQueue

/-- `CreditFlowController.replenish`: more send credits for a peer. -/
def replenish (credits : Dict Str ℤ) (initial : ℤ) (peerId : Str) (amount : ℤ) : Dict Str ℤ :=
  if amount ≤ 0 then credits
  else credits.set peerId ((credits.get peerId).getD initial + amount)

end PeerQ
