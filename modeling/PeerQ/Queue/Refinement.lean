/-
  The priority queue against the queue that it is meant to be: a list in the order
  of insertion, from which the first entry of the highest priority is taken.

  The heap holds the entries of that list in some order.  Their sequence numbers
  grow along the list, so the first one by priority and number is the first of the
  highest priority.

  `Abstract` says what each call comes to on that list; a coroutine counts each time
  it runs, and it is lost at no time (`calls_step`).
-/
import PeerQ.Lib.Refine
import PeerQ.Queue.Tasks

namespace PeerQ

open Py

/-- The first entry of the highest priority is taken. -/
def TakesFirst {α : Type} (l : List (ℤ × α)) (x : ℤ × α) (l' : List (ℤ × α)) : Prop :=
  ∃ pre post, l = pre ++ x :: post ∧ l' = pre ++ post ∧ (∀ y ∈ pre, y.1 < x.1) ∧
    ∀ y ∈ post, y.1 ≤ x.1

/-- The entry that a call has inserted. -/
def QueueReply.insertion {α : Type} : QueueReply α → Option (ℤ × α)
  | .inserted x => some x
  | _ => none

/-- The entry that a call has returned for good. -/
def QueueReply.removal {α : Type} : QueueReply α → Option (ℤ × α)
  | .returned x => some x
  | _ => none

/-- A method that runs: a call of its own, or a coroutine that starts or resumes. -/
inductive QueueAccess (α : Type) where
  | put (item : α) (priority : ℤ)
  | get
  | putNowait (item : α) (priority : ℤ)
  | getNowait
  | peek

/-- A step: the method that runs, if one does, and what it comes to. -/
abbrev QueueTurn (α : Type) := Option (QueueAccess α) × List (QueueReply α)

def QueueCall.access {α : Type} : QueueCall α → Option (QueueAccess α)
  | .put item priority => some (.put item priority)
  | .get => some .get
  | .asyncNotify => none

/-- The method that runs at an event. -/
def QueueState.access {α : Type} (s : QueueState α) : QueueEvent α → Option (QueueAccess α)
  | .put _ _ | .get => none
  | .run i => s.runnable[i]?.bind QueueCall.access
  | .putNowait item priority _ => some (.putNowait item priority)
  | .getNowait _ => some .getNowait
  | .peek => some .peek

/-- The coroutine that an event creates. -/
def QueueEvent.created {α : Type} : QueueEvent α → List (QueueCall α)
  | .put item priority => [.put item priority]
  | .get => [.get]
  | _ => []

/-- The coroutine that ends with a step. -/
def QueueTurn.ended {α : Type} : QueueTurn α → List (QueueCall α)
  | (_, [.waits _]) => []
  | (some (.put item priority), _) => [.put item priority]
  | (some .get, _) => [.get]
  | _ => []

/-- The coroutines of `put` and `get` that have not ended. -/
def QueueState.calls {α : Type} (s : QueueState α) : List (QueueCall α) :=
  (s.waiting ++ s.runnable).filter fun call => call.access.isSome

namespace BackpressurePriorityQueue

variable {α : Type} (Q : BackpressurePriorityQueue α)

/-- The steps of a run, with what they come to. -/
def turns (es : List (QueueEvent α)) : List (QueueTurn α) :=
  trace (fun s e => [(s.access e, (Q.react s e).2)]) Q.step {} es

/-- The queue is at its capacity. -/
def Full (l : List (ℤ × α)) : Prop := 0 < Q.maxsize ∧ Q.maxsize ≤ l.length

/-- **The stable priority queue**: what the methods do to it and come to. -/
inductive Abstract : List (ℤ × α) → QueueTurn α → List (ℤ × α) → Prop where
  | idle {l : List (ℤ × α)} : Abstract l (none, []) l
  | put {l : List (ℤ × α)} (item : α) (priority : ℤ) : ¬ Q.Full l →
      Abstract l (some (.put item priority), [.inserted (priority, item)]) (l ++ [(priority, item)])
  | putRejected {l : List (ℤ × α)} (item : α) (priority : ℤ) : Q.policy = .rejectOnFull → Q.Full l →
      Abstract l (some (.put item priority), [.raised Q.fullError]) l
  | putWaits {l : List (ℤ × α)} (item : α) (priority : ℤ) : Q.policy = .blockOnFull → Q.Full l →
      Abstract l (some (.put item priority), [.waits (.put item priority)]) l
  | get {l l' : List (ℤ × α)} {x : ℤ × α} : TakesFirst l x l' →
      Abstract l (some .get, [.returned x]) l'
  | getWaits : Abstract [] (some .get, [.waits .get]) []
  | putNowait {l : List (ℤ × α)} (item : α) (priority : ℤ) : ¬ Q.Full l →
      Abstract l (some (.putNowait item priority), [.inserted (priority, item)])
        (l ++ [(priority, item)])
  | putNowaitRejected {l : List (ℤ × α)} (item : α) (priority : ℤ) : Q.Full l →
      Abstract l (some (.putNowait item priority), [.raised Q.fullError]) l
  | getNowait {l l' : List (ℤ × α)} {x : ℤ × α} : TakesFirst l x l' →
      Abstract l (some .getNowait, [.returned x]) l'
  | getNowaitRejected : Abstract [] (some .getNowait, [.raised emptyError]) []
  | peek {l l' : List (ℤ × α)} {x : ℤ × α} : TakesFirst l x l' →
      Abstract l (some .peek, [.peeked (some x)]) l
  | peekNothing : Abstract [] (some .peek, [.peeked none]) []

theorem conserved_insert {l l' : List (ℤ × α)} (x : ℤ × α) {ins rem : List (ℤ × α)}
    (h : ((l ++ [x]) ++ ins).Perm (rem ++ l')) : (l ++ x :: ins).Perm (rem ++ l') := by
  rwa [List.append_assoc] at h

theorem conserved_take {l l' l'' : List (ℤ × α)} {x : ℤ × α} {ins rem : List (ℤ × α)}
    (htake : TakesFirst l x l') (h : (l' ++ ins).Perm (rem ++ l'')) :
    (l ++ ins).Perm (x :: rem ++ l'') := by
  obtain ⟨pre, post, rfl, rfl, -, -⟩ := htake
  refine List.Perm.trans ?_ (h.cons x)
  rw [List.append_assoc, List.cons_append, List.append_assoc]
  exact List.perm_middle

/-- What was there or came in has gone out or is there. -/
theorem conserved {l l' : List (ℤ × α)} {ws : List (QueueTurn α)} (h : Path Q.Abstract l ws l') :
    (l ++ (ws.flatMap Prod.snd).filterMap QueueReply.insertion).Perm
      ((ws.flatMap Prod.snd).filterMap QueueReply.removal ++ l') := by
  induction h with
  | nil l => simp
  | cons hstep _ ih =>
    cases hstep with
    | put item priority _ | putNowait item priority _ => exact conserved_insert _ ih
    | get htake | getNowait htake => exact conserved_take htake ih
    | idle | putRejected _ _ _ _ | putWaits _ _ _ _ | getWaits | putNowaitRejected _ _ _
    | getNowaitRejected | peek _ | peekNothing => exact ih

/-! ## The entries of the heap -/

/-- The heap holds the entries of the list, which is in the order of insertion. -/
structure Holds (s : QueueState α) (l : List (PrioritizedItem α)) : Prop where
  heap : Q.heapq.IsHeap s.heap
  perm : s.heap.Perm l
  ordered : l.Pairwise fun a b => a.seq < b.seq
  fresh : ∀ e ∈ l, e.seq < s.seq
  bounded : 0 < Q.maxsize → (s.heap.length : ℤ) ≤ Q.maxsize

variable {Q} {s s' : QueueState α} {l : List (PrioritizedItem α)}

theorem Holds.congr (h : Q.Holds s l) (hheap : s'.heap = s.heap) (hseq : s'.seq = s.seq) :
    Q.Holds s' l where
  heap := hheap ▸ h.heap
  perm := hheap ▸ h.perm
  ordered := h.ordered
  fresh := hseq ▸ h.fresh
  bounded := hheap ▸ h.bounded

theorem Holds.full_iff (h : Q.Holds s l) :
    Q.full s = true ↔ Q.Full (l.map PrioritizedItem.pair) := by
  rw [full, Full, List.length_map, ← h.perm.length_eq]
  split_ifs with hm
  · simp [not_lt.2 hm]
  · simp [not_le.1 hm]

theorem Holds.insert (h : Q.Holds s l) (item : α) (priority : ℤ) (hfull : Q.full s = false) :
    Q.Holds (Q.insert s item priority) (l ++ [⟨-priority, s.seq, item⟩]) := by
  have hnew : ∀ x ∈ s.heap, x.key ≠ PrioritizedItem.key ⟨-priority, s.seq, item⟩ := by
    intro x hx heq
    have hlt := h.fresh x (h.perm.mem_iff.1 hx)
    have hseq : x.seq = s.seq := congrArg (fun k => (ofLex k).2) heq
    exact absurd hseq hlt.ne
  have hperm := Q.heapq.push_perm h.heap hnew
  constructor
  · exact Q.heapq.push_heap h.heap hnew
  · exact hperm.trans ((h.perm.cons _).trans (List.perm_append_singleton _ _).symm)
  · rw [List.pairwise_append]
    refine ⟨h.ordered, List.pairwise_singleton _ _, fun a ha b hb => ?_⟩
    rw [List.mem_singleton.1 hb]
    exact h.fresh a ha
  · intro e he
    rcases List.mem_append.1 he with he | he
    · exact (h.fresh e he).trans (Nat.lt_succ_self _)
    · rw [List.mem_singleton.1 he]
      exact Nat.lt_succ_self _
  · intro hpos
    have hlt : ¬ Q.maxsize ≤ s.heap.length := by simpa [full, not_le.2 hpos] using hfull
    have hlen : (Q.insert s item priority).heap.length = s.heap.length + 1 := hperm.length_eq
    rw [hlen]
    push_cast
    omega

/-- The first entry of the heap is the one that comes out. -/
theorem Holds.first (h : Q.Holds s l) {e : PrioritizedItem α} {rest : List (PrioritizedItem α)}
    (hs : s.heap = e :: rest) : ∃ pre post, l = pre ++ e :: post ∧ rest.Perm (pre ++ post) ∧
      (∀ y ∈ pre, y.pair.1 < e.pair.1) ∧ ∀ y ∈ post, y.pair.1 ≤ e.pair.1 := by
  have hperm : (e :: rest).Perm l := hs ▸ h.perm
  obtain ⟨pre, post, rfl⟩ := List.append_of_mem (hperm.mem_iff.1 List.mem_cons_self)
  have hrest : rest.Perm (pre ++ post) := (hperm.trans List.perm_middle).cons_inv
  have hfirst : ∀ y ∈ pre ++ post, e.key ≤ y.key := fun y hy =>
    Q.heapq.first_le (hs ▸ h.heap) y (hrest.mem_iff.2 hy)
  refine ⟨pre, post, rfl, hrest, fun y hy => ?_, fun y hy => ?_⟩
  · -- an entry of the same priority that is before it would be the first one
    have hlt : y.seq < e.seq :=
      (List.pairwise_append.1 h.ordered).2.2 y hy e List.mem_cons_self
    have hle := hfirst y (List.mem_append_left _ hy)
    rw [PrioritizedItem.key, PrioritizedItem.key, Prod.Lex.toLex_le_toLex] at hle
    rcases hle with hle | ⟨-, hle⟩
    · exact neg_lt_neg hle
    · exact absurd hle (not_le.2 hlt)
  · have hle := hfirst y (List.mem_append_right _ hy)
    rw [PrioritizedItem.key, PrioritizedItem.key, Prod.Lex.toLex_le_toLex] at hle
    rcases hle with hle | ⟨hle, -⟩
    · exact neg_le_neg hle.le
    · exact neg_le_neg hle.le

theorem Holds.takes (h : Q.Holds s l) {e : PrioritizedItem α} {rest : List (PrioritizedItem α)}
    (hs : s.heap = e :: rest) : ∃ l', Q.Holds (Q.remove s) l' ∧
      TakesFirst (l.map PrioritizedItem.pair) e.pair (l'.map PrioritizedItem.pair) := by
  obtain ⟨pre, post, rfl, hrest, hpre, hpost⟩ := h.first hs
  have hpop : (Q.remove s).heap.Perm rest := by
    rw [remove, hs]
    exact Q.heapq.pop_perm (hs ▸ h.heap)
  have hsub : (pre ++ post).Sublist (pre ++ e :: post) :=
    (List.sublist_cons_self e post).append_left pre
  refine ⟨pre ++ post, ⟨?_, hpop.trans hrest, h.ordered.sublist hsub,
    fun x hx => h.fresh x (hsub.subset hx), fun hpos => ?_⟩, pre.map PrioritizedItem.pair,
    post.map PrioritizedItem.pair, by simp, by simp, ?_, ?_⟩
  · rw [remove, hs]
    exact Q.heapq.pop_heap (hs ▸ h.heap)
  · have hle := h.bounded hpos
    rw [hs, List.length_cons] at hle
    rw [hpop.length_eq]
    push_cast at hle
    omega
  · exact List.forall_mem_map.2 hpre
  · exact List.forall_mem_map.2 hpost

/-! ## Steps -/

@[simp] theorem notify_heap (s : QueueState α) : s.notify.heap = s.heap := by
  unfold QueueState.notify
  split <;> rfl

@[simp] theorem notify_seq (s : QueueState α) : s.notify.seq = s.seq := by
  unfold QueueState.notify
  split <;> rfl

@[simp] theorem notifyCondition_heap (s : QueueState α) (running : Bool) :
    (s.notifyCondition running).heap = s.heap := by
  unfold QueueState.notifyCondition
  split_ifs <;> rfl

@[simp] theorem notifyCondition_seq (s : QueueState α) (running : Bool) :
    (s.notifyCondition running).seq = s.seq := by
  unfold QueueState.notifyCondition
  split_ifs <;> rfl

variable (Q) in
/-- The state of the heap stands for a list of the stable queue. -/
def Stands (s : QueueState α) (a : List (ℤ × α)) : Prop :=
  ∃ l, Q.Holds s l ∧ a = l.map PrioritizedItem.pair

theorem Stands.congr {a : List (ℤ × α)} (h : Q.Stands s a) (hheap : s'.heap = s.heap)
    (hseq : s'.seq = s.seq) : Q.Stands s' a :=
  let ⟨l, hl, ha⟩ := h
  ⟨l, hl.congr hheap hseq, ha⟩

/-- What two calls have in common that insert an entry. -/
theorem Stands.inserts {a : List (ℤ × α)} (h : Q.Stands s a) (item : α) (priority : ℤ)
    (hfull : Q.full s = false) (hheap : s'.heap = (Q.insert s item priority).heap)
    (hseq : s'.seq = (Q.insert s item priority).seq) :
    ¬ Q.Full a ∧ Q.Stands s' (a ++ [(priority, item)]) := by
  obtain ⟨l, hl, rfl⟩ := h
  refine ⟨?_, _, (hl.insert item priority hfull).congr hheap hseq, by simp [PrioritizedItem.pair]⟩
  rw [← hl.full_iff, hfull]
  exact Bool.false_ne_true

/-- What two calls have in common that remove one. -/
theorem Stands.removes {a : List (ℤ × α)} (h : Q.Stands s a) {e : PrioritizedItem α}
    {rest : List (PrioritizedItem α)} (hs : s.heap = e :: rest)
    (hheap : s'.heap = (Q.remove s).heap) (hseq : s'.seq = (Q.remove s).seq) :
    ∃ b, TakesFirst a e.pair b ∧ Q.Stands s' b := by
  obtain ⟨l, hl, rfl⟩ := h
  obtain ⟨l', hl', htake⟩ := hl.takes hs
  exact ⟨_, htake, l', hl'.congr hheap hseq, rfl⟩

theorem Stands.full {a : List (ℤ × α)} (h : Q.Stands s a) (hfull : Q.full s = true) : Q.Full a := by
  obtain ⟨l, hl, rfl⟩ := h
  exact hl.full_iff.1 hfull

theorem Stands.empty {a : List (ℤ × α)} (h : Q.Stands s a) (hs : s.heap = []) : a = [] := by
  obtain ⟨l, hl, rfl⟩ := h
  have hperm := hl.perm
  rw [hs] at hperm
  rw [← hperm.nil_eq]
  rfl

theorem attempt_abstract {a : List (ℤ × α)} (h : Q.Stands s a) (call : QueueCall α) :
    ∃ b, Q.Abstract a (call.access, (Q.attempt s call).2) b ∧ Q.Stands (Q.attempt s call).1 b := by
  cases call with
  | put item priority =>
    simp only [attempt]
    split_ifs with hfull
    · cases hp : Q.policy with
      | rejectOnFull => exact ⟨a, .putRejected item priority hp (h.full hfull), h⟩
      | blockOnFull => exact ⟨a, .putWaits item priority hp (h.full hfull), h.congr rfl rfl⟩
    · obtain ⟨hroom, hb⟩ :=
        h.inserts item priority (by simpa using hfull) (notify_heap _) (notify_seq _)
      exact ⟨_, .put item priority hroom, hb⟩
  | get =>
    simp only [attempt]
    cases hs : s.heap with
    | nil =>
      obtain rfl := h.empty hs
      exact ⟨[], .getWaits, h.congr rfl rfl⟩
    | cons e rest =>
      obtain ⟨b, htake, hb⟩ := h.removes hs (notify_heap _) (notify_seq _)
      exact ⟨b, .get htake, hb⟩
  | asyncNotify => exact ⟨a, .idle, h.congr (notify_heap _) (notify_seq _)⟩

theorem react_abstract {a : List (ℤ × α)} (h : Q.Stands s a) (e : QueueEvent α) :
    ∃ b, Q.Abstract a (s.access e, (Q.react s e).2) b ∧ Q.Stands (Q.step s e) b := by
  unfold step
  cases e with
  | put item priority => exact ⟨a, .idle, h.congr rfl rfl⟩
  | get => exact ⟨a, .idle, h.congr rfl rfl⟩
  | run i =>
    simp only [react, QueueState.access]
    cases s.runnable[i]? with
    | none => exact ⟨a, .idle, h⟩
    | some call =>
      exact attempt_abstract (s := { s with runnable := s.runnable.eraseIdx i }) (h.congr rfl rfl)
        call
  | putNowait item priority running =>
    simp only [react, putNowait]
    split_ifs with hfull
    · exact ⟨a, .putNowaitRejected item priority (h.full hfull), h⟩
    · obtain ⟨hroom, hb⟩ := h.inserts item priority (by simpa using hfull)
        (notifyCondition_heap _ running) (notifyCondition_seq _ running)
      exact ⟨_, .putNowait item priority hroom, hb⟩
  | getNowait running =>
    simp only [react, getNowait]
    cases hs : s.heap with
    | nil =>
      obtain rfl := h.empty hs
      exact ⟨[], .getNowaitRejected, h⟩
    | cons e rest =>
      obtain ⟨b, htake, hb⟩ :=
        h.removes hs (notifyCondition_heap _ running) (notifyCondition_seq _ running)
      exact ⟨b, .getNowait htake, hb⟩
  | peek =>
    simp only [react, peek]
    cases hs : s.heap with
    | nil =>
      obtain rfl := h.empty hs
      exact ⟨[], .peekNothing, h⟩
    | cons e rest =>
      obtain ⟨l, hl, rfl⟩ := h
      obtain ⟨l', -, htake⟩ := hl.takes hs
      exact ⟨_, .peek htake, l, hl, rfl⟩

/-! ## The coroutines -/

theorem calls_notify (s : QueueState α) : s.notify.calls.Perm s.calls := by
  unfold QueueState.notify QueueState.calls
  cases hw : s.waiting with
  | nil => rw [hw]
  | cons call waiting =>
    refine List.Perm.filter _ ?_
    simp only [List.cons_append, ← List.append_assoc]
    exact List.perm_append_singleton _ _

theorem calls_notifyCondition (s : QueueState α) (running : Bool) :
    (s.notifyCondition running).calls = s.calls := by
  unfold QueueState.notifyCondition QueueState.calls
  split_ifs
  · simp [List.filter_append, QueueCall.access]
  · rfl

theorem calls_attempt (call : QueueCall α) :
    (QueueTurn.ended (call.access, (Q.attempt s call).2) ++ (Q.attempt s call).1.calls).Perm
      ([call].filter (fun call => call.access.isSome) ++ s.calls) := by
  have hwait : ∀ call : QueueCall α,
      (s.wait call).calls.Perm ([call].filter (fun call => call.access.isSome) ++ s.calls) := by
    intro call
    rw [QueueState.calls, QueueState.calls, ← List.filter_append, ← List.append_assoc]
    exact (List.perm_append_comm.append_right _).filter _
  cases call with
  | put item priority =>
    simp only [attempt]
    split_ifs
    · cases Q.policy with
      | rejectOnFull => exact .refl _
      | blockOnFull => exact hwait (.put item priority)
    · exact (calls_notify _).append_left _
  | get =>
    simp only [attempt]
    cases s.heap with
    | nil => exact hwait .get
    | cons e rest => exact (calls_notify _).append_left _
  | asyncNotify => exact calls_notify _

/-- A coroutine that is created runs or waits until it ends. -/
theorem calls_step (s : QueueState α) (e : QueueEvent α) :
    (QueueTurn.ended (s.access e, (Q.react s e).2) ++ (Q.step s e).calls).Perm
      (s.calls ++ e.created) := by
  unfold step
  cases e with
  | put item priority | get =>
    simp [react, QueueState.access, QueueTurn.ended, QueueState.calls, QueueEvent.created,
      List.filter_append, QueueCall.access]
  | run i =>
    simp only [react, QueueState.access, QueueEvent.created, List.append_nil]
    cases hi : s.runnable[i]? with
    | none => exact .refl _
    | some call =>
      obtain ⟨hlt, rfl⟩ := List.getElem?_eq_some_iff.1 hi
      refine (calls_attempt _).trans ?_
      rw [QueueState.calls, ← List.filter_append, List.singleton_append]
      have hperm := (List.getElem_cons_eraseIdx_perm hlt).append_left s.waiting
      exact (List.perm_middle.symm.trans hperm).filter _
  | putNowait item priority running =>
    simp only [react, putNowait, QueueEvent.created, List.append_nil]
    split_ifs
    · exact .refl _
    · rw [calls_notifyCondition]
      exact .refl _
  | getNowait running =>
    simp only [react, getNowait, QueueEvent.created, List.append_nil]
    cases s.heap with
    | nil => exact .refl _
    | cons e rest =>
      rw [calls_notifyCondition]
      exact .refl _
  | peek =>
    simp only [QueueEvent.created, List.append_nil]
    exact .refl _

theorem calls_run (es : List (QueueEvent α)) (s : QueueState α) :
    ((trace (fun s e => [(s.access e, (Q.react s e).2)]) Q.step s es).flatMap QueueTurn.ended ++
      (run Q.step s es).calls).Perm (s.calls ++ es.flatMap QueueEvent.created) := by
  induction es generalizing s with
  | nil => simp [trace]
  | cons e es ih =>
    simp only [trace, run_cons, List.singleton_append, List.flatMap_cons, List.append_assoc]
    refine ((ih (Q.step s e)).append_left _).trans ?_
    rw [← List.append_assoc, ← List.append_assoc]
    exact (calls_step s e).append_right _

/-- A call that raises leaves the queue as it was; if it was a coroutine, it has ended. -/
theorem react_raised {e : QueueEvent α} {error : QueueError}
    (h : (Q.react s e).2 = [.raised error]) :
    Q.step s e = s ∨
      ∃ i, e = .run i ∧ Q.step s e = { s with runnable := s.runnable.eraseIdx i } := by
  unfold step
  cases e with
  | put item priority => simp [react] at h
  | get => simp [react] at h
  | run i =>
    refine Or.inr ⟨i, rfl, ?_⟩
    simp only [react] at h ⊢
    cases hi : s.runnable[i]? with
    | none => simp [hi] at h
    | some call =>
      simp only [hi] at h ⊢
      cases call with
      | put item priority =>
        simp only [attempt] at h ⊢
        split_ifs at h ⊢
        · cases hp : Q.policy with
          | rejectOnFull => rfl
          | blockOnFull => simp [hp] at h
        · simp at h
      | get =>
        simp only [attempt] at h ⊢
        cases hs : s.heap <;> simp [hs] at h
      | asyncNotify => simp [attempt] at h
  | putNowait item priority running =>
    refine Or.inl ?_
    simp only [react, putNowait] at h ⊢
    split_ifs at h ⊢
    · rfl
    · simp at h
  | getNowait running =>
    refine Or.inl ?_
    simp only [react, getNowait] at h ⊢
    cases hs : s.heap with
    | nil => rfl
    | cons e rest => simp [hs] at h
  | peek => exact Or.inl rfl

theorem stands_nil : Q.Stands {} [] :=
  ⟨[], ⟨Q.heapq.nil, .refl _, .nil, by simp, fun h => h.le⟩, rfl⟩

theorem replies_eq (es : List (QueueEvent α)) : Q.replies es = (Q.turns es).flatMap Prod.snd := by
  have hall : ∀ s, trace (fun s e => (Q.react s e).2) Q.step s es =
      (trace (fun s e => [(s.access e, (Q.react s e).2)]) Q.step s es).flatMap Prod.snd := by
    induction es with
    | nil => intro s; rfl
    | cons e es ih =>
      intro s
      rw [trace, trace, ih, List.singleton_append, List.flatMap_cons]
  exact hall {}

variable (Q) in
/-- **The queue is a stable priority queue.**  Each method that runs in a run comes to what it comes
    to on the list of insertions: a `put` with room inserts its item, a `get` takes the first entry of
    the highest priority if there is one, and `peek` shows it.  Each coroutine created has ended, once,
    or it waits or can run.  Every entry that was inserted is queued or was returned, once; a bounded
    queue is within its bound; and a call that raises changes nothing. -/
theorem refines_stable_queue (es : List (QueueEvent α)) :
    (∃ l, Path Q.Abstract [] (Q.turns es) l ∧
      ((run Q.step {} es).heap.map PrioritizedItem.pair).Perm l ∧
      ((Q.replies es).filterMap QueueReply.insertion).Perm
        ((Q.replies es).filterMap QueueReply.removal ++ l)) ∧
    ((Q.turns es).flatMap QueueTurn.ended ++ (run Q.step {} es).calls).Perm
      (es.flatMap QueueEvent.created) ∧
    (0 < Q.maxsize → ((run Q.step {} es).heap.length : ℤ) ≤ Q.maxsize) ∧
    ∀ e error, (Q.react (run Q.step {} es) e).2 = [.raised error] →
      Q.step (run Q.step {} es) e = run Q.step {} es ∨ ∃ i, e = .run i ∧
        Q.step (run Q.step {} es) e =
          { run Q.step {} es with runnable := (run Q.step {} es).runnable.eraseIdx i } := by
  have hstep : ∀ (s : QueueState α) (a : List (ℤ × α)) (e : QueueEvent α), Q.Stands s a →
      ∃ b, Path Q.Abstract a [(s.access e, (Q.react s e).2)] b ∧ Q.Stands (Q.step s e) b := by
    intro s a e h
    obtain ⟨b, hab, hb⟩ := react_abstract h e
    exact ⟨b, .single hab, hb⟩
  obtain ⟨a, hpath, l, hl, rfl⟩ := trace_path hstep es stands_nil
  have hall := Q.conserved hpath
  rw [List.nil_append] at hall
  refine ⟨⟨_, hpath, hl.perm.map _, ?_⟩, calls_run es {}, hl.bounded, fun e error h => react_raised h⟩
  rw [replies_eq]
  exact hall

end BackpressurePriorityQueue

end PeerQ
