/-
  `BackpressurePriorityQueue` with the coroutines that use it (`peerq/queue.py`).

  A coroutine holds the lock of the condition from where it starts or resumes to
  where it waits or ends, and in between it is not suspended.  So the lock is free
  whenever one of them runs, and a step is a whole such stretch.  Which of those
  that can run is next is left open.
-/
import PeerQ.Lib.Heap
import PeerQ.Lib.Runs
import PeerQ.Queue

namespace PeerQ

open Py

inductive QueuePolicy where
  | rejectOnFull
  | blockOnFull
  deriving DecidableEq

/-- `_PrioritizedItem`. -/
structure PrioritizedItem (α : Type) where
  priorityNeg : ℤ
  seq : ℕ
  item : α
  deriving DecidableEq

/-- What two entries are compared by; the items would be next. -/
def PrioritizedItem.key {α : Type} (e : PrioritizedItem α) : ℤ ×ₗ ℕ := toLex (e.priorityNeg, e.seq)

/-- The priority and the item, as the callers see them. -/
def PrioritizedItem.pair {α : Type} (e : PrioritizedItem α) : ℤ × α := (-e.priorityNeg, e.item)

/-- The arguments of a `BackpressurePriorityQueue`, with the `heapq` that it uses. -/
structure BackpressurePriorityQueue (α : Type) where
  maxsize : ℤ := 0
  policy : QueuePolicy := .rejectOnFull
  heapq : Heapq (PrioritizedItem.key (α := α))

/-- The coroutines of a queue. -/
inductive QueueCall (α : Type) where
  | put (item : α) (priority : ℤ)
  | get
  | asyncNotify
  deriving DecidableEq

inductive QueueError where
  | queueFull (text : Str)
  | queueEmpty (text : Str)
  deriving DecidableEq

/-- What a call comes to. -/
inductive QueueReply (α : Type) where
  | inserted (entry : ℤ × α)
  | returned (entry : ℤ × α)
  | raised (error : QueueError)
  | peeked (entry : Option (ℤ × α))
  | waits (call : QueueCall α)

/-- The heap with the waiters of the condition, first come first, and the coroutines that can run:
    those that have not started and those that have been notified. -/
structure QueueState (α : Type) where
  heap : List (PrioritizedItem α) := []
  seq : ℕ := 0
  waiting : List (QueueCall α) := []
  runnable : List (QueueCall α) := []
  deriving DecidableEq

/-- What can happen at a queue.  A call that is no coroutine tells whether a loop is running. -/
inductive QueueEvent (α : Type) where
  | put (item : α) (priority : ℤ)
  | get
  | run (i : ℕ)
  | putNowait (item : α) (priority : ℤ) (running : Bool)
  | getNowait (running : Bool)
  | peek

namespace QueueState

variable {α : Type} (s : QueueState α)

/-- `notify` of the condition: the first waiter can run. -/
def notify : QueueState α :=
  match s.waiting with
  | [] => s
  | call :: waiting => { s with waiting, runnable := s.runnable ++ [call] }

/-- `_notify_condition`, where the lock is free: a task for `_async_notify`, if there is a loop. -/
def notifyCondition (running : Bool) : QueueState α :=
  if running then { s with runnable := s.runnable ++ [.asyncNotify] } else s

/-- A coroutine goes into `wait`. -/
def wait (call : QueueCall α) : QueueState α := { s with waiting := s.waiting ++ [call] }

end QueueState

namespace BackpressurePriorityQueue

variable {α : Type} (Q : BackpressurePriorityQueue α)

/-- A step with what it comes to. -/
abbrev Reaction (α : Type) := QueueState α × List (QueueReply α)

def full (s : QueueState α) : Bool := if Q.maxsize ≤ 0 then false else Q.maxsize ≤ s.heap.length

def fullError : QueueError :=
  .queueFull (str "Queue reached maximum capacity of " ++ natText Q.maxsize.toNat)

def emptyError : QueueError := .queueEmpty (str "Queue is empty")

/-- A new entry is pushed. -/
def insert (s : QueueState α) (item : α) (priority : ℤ) : QueueState α :=
  { s with heap := Q.heapq.push s.heap ⟨-priority, s.seq, item⟩, seq := s.seq + 1 }

/-- The first entry is popped. -/
def remove (s : QueueState α) : QueueState α := { s with heap := Q.heapq.pop s.heap }

/-- A coroutine runs until it waits or ends; `put` and `get` start and resume with the check of
    their loops. -/
def attempt (s : QueueState α) : QueueCall α → Reaction α
  | .put item priority =>
    if Q.full s then
      match Q.policy with
      | .rejectOnFull => (s, [.raised Q.fullError])
      | .blockOnFull => (s.wait (.put item priority), [.waits (.put item priority)])
    else ((Q.insert s item priority).notify, [.inserted (priority, item)])
  | .get =>
    match s.heap with
    | [] => (s.wait .get, [.waits .get])
    | entry :: _ => ((Q.remove s).notify, [.returned entry.pair])
  | .asyncNotify => (s.notify, [])

def putNowait (s : QueueState α) (item : α) (priority : ℤ) (running : Bool) : Reaction α :=
  if Q.full s then (s, [.raised Q.fullError])
  else ((Q.insert s item priority).notifyCondition running, [.inserted (priority, item)])

def getNowait (s : QueueState α) (running : Bool) : Reaction α :=
  match s.heap with
  | [] => (s, [.raised emptyError])
  | entry :: _ => ((Q.remove s).notifyCondition running, [.returned entry.pair])

def peek (s : QueueState α) : Option (ℤ × α) :=
  match s.heap with
  | [] => none
  | entry :: _ => some entry.pair

/-- One step with what it comes to; there may be no coroutine at a place. -/
def react (s : QueueState α) : QueueEvent α → Reaction α
  | .put item priority => ({ s with runnable := s.runnable ++ [.put item priority] }, [])
  | .get => ({ s with runnable := s.runnable ++ [.get] }, [])
  | .run i =>
    match s.runnable[i]? with
    | none => (s, [])
    | some call => Q.attempt { s with runnable := s.runnable.eraseIdx i } call
  | .putNowait item priority running => Q.putNowait s item priority running
  | .getNowait running => Q.getNowait s running
  | .peek => (s, [.peeked (peek s)])

def step (s : QueueState α) (e : QueueEvent α) : QueueState α := (Q.react s e).1

/-- What the calls of a run come to, in order. -/
def replies (es : List (QueueEvent α)) : List (QueueReply α) :=
  trace (fun s e => (Q.react s e).2) Q.step {} es

/-! ## The queue of a node -/

/-- The entries of a node's queue. -/
def ofEntry (e : QueueEntry) : PrioritizedItem Str := ⟨e.priorityNeg, e.seq, e.item⟩

/-- The queue of a node, with its heap as a sorted list. -/
def ofQueue (q : BackpressureQueue) : BackpressurePriorityQueue Str where
  maxsize := q.maxsize
  heapq := Heapq.sorted _

def ofState (q : BackpressureQueue) : QueueState Str where
  heap := q.heap.map ofEntry
  seq := q.seq

theorem full_ofQueue (q : BackpressureQueue) : (ofQueue q).full (ofState q) = q.full := by
  simp [full, BackpressureQueue.full, ofQueue, ofState]

theorem before_iff (a b : QueueEntry) :
    BackpressureQueue.before a b = true ↔ (ofEntry a).key ≤ (ofEntry b).key := by
  simp only [BackpressureQueue.before, ofEntry, PrioritizedItem.key, Prod.Lex.toLex_le_toLex,
    Bool.or_eq_true, Bool.and_eq_true, decide_eq_true_eq]

/-- What the node takes for `put_nowait` is `put_nowait`. -/
theorem put_ofQueue (q : BackpressureQueue) (item : Str) (priority : ℤ) :
    match q.put item priority with
    | .ok q' => (ofQueue q).putNowait (ofState q) item priority false =
        (ofState q', [.inserted (priority, item)])
    | .error _ => (ofQueue q).putNowait (ofState q) item priority false =
        (ofState q, [.raised (ofQueue q).fullError]) := by
  have hinsert : ∀ (l : List QueueEntry) (e : QueueEntry),
      (l.orderedInsert (fun a b => BackpressureQueue.before a b) e).map ofEntry =
        (l.map ofEntry).orderedInsert (fun a b => a.key ≤ b.key) (ofEntry e) := by
    intro l e
    induction l with
    | nil => rfl
    | cons x l ih =>
      by_cases hx : (ofEntry e).key ≤ (ofEntry x).key
      · have hx' := (before_iff e x).2 hx
        simp only [List.orderedInsert, List.map_cons, hx, hx', if_true]
      · have hx' : BackpressureQueue.before e x ≠ true := fun h => hx ((before_iff e x).1 h)
        simp only [List.orderedInsert, List.map_cons, hx, hx', if_false, ih, Bool.false_eq_true]
  unfold BackpressureQueue.put putNowait
  rw [full_ofQueue]
  split_ifs with hfull
  · rfl
  · simp only [insert, ofQueue, ofState, Heapq.sorted, hinsert, QueueState.notifyCondition]
    rfl

/-- What the node takes for `get` is `get_nowait`, where an entry is there. -/
theorem get_ofQueue (q : BackpressureQueue) :
    match q.get with
    | some (item, q') => ∃ priority, (ofQueue q).getNowait (ofState q) false =
        (ofState q', [.returned (priority, item)])
    | none => (ofQueue q).getNowait (ofState q) false = (ofState q, [.raised emptyError]) := by
  unfold BackpressureQueue.get getNowait
  cases hq : q.heap with
  | nil => simp [ofState, hq]
  | cons e heap =>
    refine ⟨-e.priorityNeg, ?_⟩
    simp [ofState, hq, remove, ofQueue, Heapq.sorted, QueueState.notifyCondition, ofEntry,
      PrioritizedItem.pair]

end BackpressurePriorityQueue

end PeerQ
