/-
  `SimClock` (`peerq/clock.py`), in exact arithmetic.

  Sleepers are kept in a heap by deadline and order of registration; a sleeper that
  is cancelled stays there until it comes first.  A sleep that is not positive does
  not come to the heap.

  `simulated_time`: time does not go back, a sleeper that waits has its deadline
  ahead, and each one is woken once, in the operation that brings its deadline, in
  the order of the heap.
-/
import PeerQ.Lib.Heap
import PeerQ.Lib.Runs
import PeerQ.Security

namespace PeerQ

open Py

/-- An entry of `_sleepers`; the number stands for the future too. -/
structure Sleeper where
  deadline : ℚ
  counter : ℕ
  deriving DecidableEq

def Sleeper.key (x : Sleeper) : ℚ ×ₗ ℕ := toLex (x.deadline, x.counter)

/-- What a `SimClock` uses of Python: the heap, and the text of a float. -/
structure SimClock where
  heapq : Heapq Sleeper.key
  repr : ℚ → Str

/-- Its fields, with the futures that have been cancelled. -/
structure ClockState where
  now : ℚ
  sleepers : List Sleeper := []
  counter : ℕ := 0
  cancelled : List ℕ := []

/-- The operations, and the cancellation of a sleeper's future. -/
inductive ClockEvent where
  | sleep (delay : ℚ)
  | cancel (future : ℕ)
  | advance (duration : ℚ)
  | advanceTo (targetTime : ℚ)
  | step
  | nextDeadline
  | hasPendingSleepers

namespace ClockState

variable (s : ClockState)

def setNow (t : ℚ) : ClockState := { s with now := t }

/-- The sleepers that have not been cancelled. -/
def pending : List Sleeper := s.sleepers.filter (·.counter ∉ s.cancelled)

/-- The future of a sleeper is cancelled; one that is done stays as it is. -/
def cancel (future : ℕ) : ClockState :=
  if ∃ x ∈ s.sleepers, x.counter = future then { s with cancelled := future :: s.cancelled } else s

end ClockState

namespace SimClock

variable (C : SimClock)

def sleep (s : ClockState) (delay : ℚ) : ClockState :=
  if delay ≤ 0 then s
  else { s with
    sleepers := C.heapq.push s.sleepers ⟨s.now + delay, s.counter⟩
    counter := s.counter + 1 }

/-- The loop that pops cancelled sleepers, for at most so many turns. -/
def purge : ℕ → ClockState → ClockState
  | 0, s => s
  | n + 1, s =>
    match s.sleepers with
    | [] => s
    | x :: _ =>
      if x.counter ∈ s.cancelled then purge n { s with sleepers := C.heapq.pop s.sleepers } else s

def hasPendingSleepers (s : ClockState) : ClockState × Bool :=
  let s := C.purge s.sleepers.length s
  (s, 0 < s.sleepers.length)

def nextDeadline (s : ClockState) : ClockState × Option ℚ :=
  let s := C.purge s.sleepers.length s
  (s, s.sleepers.head?.map Sleeper.deadline)

/-- The loop of `advance_to`, for at most so many turns, with the sleepers that it wakes. -/
def wake (targetTime : ℚ) : ℕ → ClockState → ClockState × List Sleeper
  | 0, s => (s, [])
  | n + 1, s =>
    match s.sleepers with
    | [] => (s, [])
    | x :: _ =>
      if targetTime < x.deadline then (s, [])
      else
        let s' := { s with sleepers := C.heapq.pop s.sleepers }
        if x.counter ∈ s.cancelled then wake targetTime n s'
        else
          let (s'', woken) := wake targetTime n (s'.setNow x.deadline)
          (s'', x :: woken)

/-- `advance_to`, with the sleepers that are woken; their number is returned. -/
def advanceTo (s : ClockState) (targetTime : ℚ) : Except Exn (ClockState × List Sleeper) :=
  if targetTime < s.now then
    .error (.valueError (str "Cannot advance backwards: " ++ C.repr targetTime ++ str " < " ++
      C.repr s.now))
  else
    let (s', woken) := C.wake targetTime s.sleepers.length s
    .ok (s'.setNow targetTime, woken)

def advance (s : ClockState) (duration : ℚ) : Except Exn (ClockState × List Sleeper) :=
  if duration < 0 then
    .error (.valueError (str "Cannot advance backwards in time: " ++ C.repr duration))
  else C.advanceTo s (s.now + duration)

/-- `step`; the new time is returned, if there is a sleeper. -/
def step (s : ClockState) : Except Exn (ClockState × List Sleeper) :=
  let s := C.purge s.sleepers.length s
  match s.sleepers with
  | [] => .ok (s, [])
  | x :: _ => C.advanceTo s x.deadline

/-- An operation that raises changes nothing. -/
def orElse (s : ClockState) (r : Except Exn (ClockState × List Sleeper)) :
    ClockState × List Sleeper :=
  r.toOption.getD (s, [])

/-- An operation, with the sleepers that it wakes. -/
def react (s : ClockState) : ClockEvent → ClockState × List Sleeper
  | .sleep delay => (C.sleep s delay, [])
  | .cancel future => (s.cancel future, [])
  | .advance duration => orElse s (C.advance s duration)
  | .advanceTo targetTime => orElse s (C.advanceTo s targetTime)
  | .step => orElse s (C.step s)
  | .nextDeadline => ((C.nextDeadline s).1, [])
  | .hasPendingSleepers => ((C.hasPendingSleepers s).1, [])

/-- The state after an operation. -/
def next (s : ClockState) (e : ClockEvent) : ClockState := (C.react s e).1

/-- The sleepers that an operation wakes, in order. -/
def woken (s : ClockState) (e : ClockEvent) : List Sleeper := (C.react s e).2

/-- The sleeper that an operation registers, if any. -/
def registered (s : ClockState) : ClockEvent → List Sleeper
  | .sleep delay => if delay ≤ 0 then [] else [⟨s.now + delay, s.counter⟩]
  | _ => []

/-- The sleeper whose future an operation cancels, if any. -/
def cancelled (s : ClockState) : ClockEvent → List Sleeper
  | .cancel future => s.pending.filter (·.counter = future)
  | _ => []

/-! ## The loops -/

variable {C} {s : ClockState}

theorem purge_eq (h : C.heapq.IsHeap s.sleepers) {n : ℕ} (hn : s.sleepers.length ≤ n) :
    C.purge n s =
      { s with sleepers := (C.heapq.popWhile (·.counter ∈ s.cancelled) s.sleepers).2 } := by
  rw [← Heapq.popUpTo_eq h hn]
  clear h hn
  induction n generalizing s with
  | zero => rfl
  | succ n ih =>
    rw [purge]
    cases hs : s.sleepers with
    | nil => simp [Heapq.popUpTo, ← hs]
    | cons x l =>
      simp only [Heapq.popUpTo, decide_eq_true_eq]
      split_ifs with hx
      · rw [ih]
      · rw [← hs]

/-- What the loop of `advance_to` leaves, up to the time, and whom it wakes. -/
theorem wake_eq (targetTime : ℚ) (h : C.heapq.IsHeap s.sleepers) {n : ℕ}
    (hn : s.sleepers.length ≤ n) :
    (C.wake targetTime n s).1.setNow targetTime = { s with
      now := targetTime
      sleepers := (C.heapq.popWhile (·.deadline ≤ targetTime) s.sleepers).2 } ∧
    (C.wake targetTime n s).2 = (C.heapq.popWhile (·.deadline ≤ targetTime) s.sleepers).1.filter
      (·.counter ∉ s.cancelled) := by
  rw [← Heapq.popUpTo_eq h hn]
  clear h hn
  induction n generalizing s with
  | zero => exact ⟨rfl, rfl⟩
  | succ n ih =>
    rw [wake]
    cases hs : s.sleepers with
    | nil => exact ⟨by simp [Heapq.popUpTo, hs, ClockState.setNow], rfl⟩
    | cons x l =>
      by_cases hlt : targetTime < x.deadline
      · simp only [Heapq.popUpTo, decide_eq_true_eq, hlt, not_le.2 hlt, if_true, if_false]
        exact ⟨by rw [← hs, ClockState.setNow], rfl⟩
      · simp only [Heapq.popUpTo, decide_eq_true_eq, hlt, not_lt.1 hlt, if_true, if_false]
        split_ifs with hx
        · obtain ⟨hleft, hwoken⟩ := ih (s := { s with sleepers := C.heapq.pop (x :: l) })
          exact ⟨hleft, by rw [hwoken, List.filter_cons_of_neg (by simpa using hx)]⟩
        · obtain ⟨hleft, hwoken⟩ := ih
            (s := ClockState.setNow { s with sleepers := C.heapq.pop (x :: l) } x.deadline)
          refine ⟨hleft, ?_⟩
          rw [List.filter_cons_of_pos (by simpa using hx), hwoken]
          rfl

/-! ## The operations -/

variable (C) in
/-- What holds of a clock between two operations. -/
structure Ready (s : ClockState) : Prop where
  heap : C.heapq.IsHeap s.sleepers
  fresh : ∀ x ∈ s.sleepers, x.counter < s.counter
  cancelled : ∀ i ∈ s.cancelled, i < s.counter
  nodup : (s.sleepers.map Sleeper.counter).Nodup
  ahead : ∀ x ∈ s.pending, s.now < x.deadline

/-- An operation that wakes, registers and cancels these sleepers. -/
structure Moves (s s' : ClockState) (woken registered cancelled : List Sleeper) : Prop where
  now_le : s.now ≤ s'.now
  counter_le : s.counter ≤ s'.counter
  due : ∀ x, x ∈ woken ↔ x ∈ s.pending ∧ x.deadline ≤ s'.now
  sorted : woken.Pairwise fun x y => x.key < y.key
  new : ∀ x ∈ registered, s.counter ≤ x.counter ∧ x.counter < s'.counter ∧ s.now < x.deadline
  ordered : registered.Pairwise fun x y => x.counter < y.counter
  conserved : (s.pending ++ registered).Perm (woken ++ cancelled ++ s'.pending)

theorem mem_pending {x : Sleeper} :
    x ∈ s.pending ↔ x ∈ s.sleepers ∧ x.counter ∉ s.cancelled := by
  simp [ClockState.pending]

/-- Nothing is due before time moves on. -/
theorem Ready.not_due (h : C.Ready s) (x : Sleeper) :
    x ∈ ([] : List Sleeper) ↔ x ∈ s.pending ∧ x.deadline ≤ s.now := by
  refine iff_of_false List.not_mem_nil ?_
  rintro ⟨hx, hle⟩
  exact absurd (h.ahead x hx) (not_lt.2 hle)

theorem Ready.sleep (h : C.Ready s) (delay : ℚ) : C.Ready (C.sleep s delay) ∧
    Moves s (C.sleep s delay) [] (registered s (.sleep delay)) [] := by
  simp only [SimClock.sleep, registered]
  split_ifs with hpos
  · exact ⟨h, le_rfl, le_rfl, h.not_due, .nil, by simp, .nil, by simp⟩
  have hlt : s.now < s.now + delay := by linarith
  have hnew : ∀ x ∈ s.sleepers, x.key ≠ (⟨s.now + delay, s.counter⟩ : Sleeper).key := by
    intro x hx heq
    have := (Prod.mk.inj (toLex.injective heq)).2
    exact absurd (h.fresh x hx) (by simp [this])
  have hperm := C.heapq.push_perm h.heap hnew
  have hcancelled : s.counter ∉ s.cancelled := fun hc => lt_irrefl _ (h.cancelled _ hc)
  have hpending : (ClockState.pending { s with
      sleepers := C.heapq.push s.sleepers ⟨s.now + delay, s.counter⟩
      counter := s.counter + 1 }).Perm (⟨s.now + delay, s.counter⟩ :: s.pending) := by
    refine (hperm.filter _).trans ?_
    rw [List.filter_cons_of_pos (by simpa using hcancelled)]
    rfl
  refine ⟨⟨C.heapq.push_heap h.heap hnew, fun x hx => ?_, fun i hi => ?_, ?_, fun x hx => ?_⟩,
    le_rfl, Nat.le_succ _, h.not_due, .nil, ?_, List.pairwise_singleton _ _, ?_⟩
  · obtain rfl | hx := List.mem_cons.1 (hperm.mem_iff.1 hx)
    exacts [Nat.lt_succ_self _, (h.fresh x hx).trans (Nat.lt_succ_self _)]
  · exact (h.cancelled i hi).trans (Nat.lt_succ_self _)
  · rw [(hperm.map Sleeper.counter).nodup_iff, List.map_cons, List.nodup_cons]
    refine ⟨fun hmem => ?_, h.nodup⟩
    obtain ⟨x, hx, heq⟩ := List.mem_map.1 hmem
    exact absurd (h.fresh x hx) (by simp [heq])
  · obtain rfl | hx := List.mem_cons.1 (hpending.mem_iff.1 hx)
    exacts [hlt, h.ahead x hx]
  · intro x hx
    obtain rfl := List.mem_singleton.1 hx
    exact ⟨le_rfl, Nat.lt_succ_self _, hlt⟩
  · exact (List.perm_append_singleton _ _).trans hpending.symm

theorem Ready.cancel (h : C.Ready s) (future : ℕ) : C.Ready (s.cancel future) ∧
    Moves s (s.cancel future) [] [] (SimClock.cancelled s (.cancel future)) := by
  simp only [ClockState.cancel, SimClock.cancelled]
  split_ifs with hex
  · have hpending : ClockState.pending { s with cancelled := future :: s.cancelled } =
        s.pending.filter (·.counter ≠ future) := by
      simp only [ClockState.pending, List.filter_filter]
      refine List.filter_congr fun x _ => ?_
      simp [not_or]
    refine ⟨⟨h.heap, h.fresh, fun i hi => ?_, h.nodup, fun x hx => ?_⟩, le_rfl, le_rfl, h.not_due,
      .nil, by simp, .nil, ?_⟩
    · obtain rfl | hi := List.mem_cons.1 hi
      · obtain ⟨x, hx, rfl⟩ := hex
        exact h.fresh x hx
      · exact h.cancelled i hi
    · rw [hpending] at hx
      exact h.ahead x (List.mem_of_mem_filter hx)
    · rw [hpending, List.append_nil, List.nil_append]
      simpa using (List.filter_append_perm (·.counter = future) s.pending).symm
  · have hnone : s.pending.filter (·.counter = future) = [] := by
      rw [List.filter_eq_nil_iff]
      intro x hx heq
      exact hex ⟨x, (mem_pending.1 hx).1, by simpa using heq⟩
    exact ⟨h, le_rfl, le_rfl, h.not_due, .nil, by simp, .nil, by simp [hnone]⟩

/-- The sleepers that are popped and those that are left have numbers of their own. -/
theorem Ready.split (h : C.Ready s) {popped left : List Sleeper}
    (hperm : s.sleepers.Perm (popped ++ left)) : (popped.map Sleeper.counter).Nodup ∧
      (left.map Sleeper.counter).Nodup ∧ ∀ x ∈ left, x.counter < s.counter := by
  have hnodup := (hperm.map Sleeper.counter).nodup_iff.1 h.nodup
  rw [List.map_append, List.nodup_append] at hnodup
  exact ⟨hnodup.1, hnodup.2.1, fun x hx => h.fresh x (hperm.mem_iff.2 (List.mem_append_right _ hx))⟩

theorem Ready.purge (h : C.Ready s) : C.Ready (C.purge s.sleepers.length s) ∧
    Moves s (C.purge s.sleepers.length s) [] [] [] := by
  rw [purge_eq h.heap le_rfl]
  obtain ⟨hperm, hheap, hpass, -, -⟩ :=
    Heapq.popWhile_spec (p := fun x => x.counter ∈ s.cancelled) h.heap
  have hpending : s.pending.Perm (ClockState.pending { s with
      sleepers := (C.heapq.popWhile (·.counter ∈ s.cancelled) s.sleepers).2 }) := by
    refine (hperm.filter _).trans ?_
    rw [List.filter_append, List.filter_eq_nil_iff.2, List.nil_append]
    · rfl
    · intro x hx
      simpa using hpass x hx
  obtain ⟨-, hnodup, hfresh⟩ := h.split hperm
  refine ⟨⟨hheap, hfresh, h.cancelled, hnodup, fun x hx => ?_⟩, le_rfl, le_rfl, h.not_due, .nil,
    by simp, .nil, by simpa using hpending⟩
  exact h.ahead x (hpending.mem_iff.2 hx)

theorem Ready.purge_first (h : C.Ready s) {x : Sleeper} {l : List Sleeper}
    (hs : (C.purge s.sleepers.length s).sleepers = x :: l) :
    x ∈ (C.purge s.sleepers.length s).pending := by
  refine mem_pending.2 ⟨hs ▸ List.mem_cons_self, ?_⟩
  rw [purge_eq h.heap le_rfl] at hs ⊢
  simpa using (Heapq.popWhile_spec h.heap).2.2.2.2 x l hs

variable (C) in
/-- Time moves on. -/
def moved (s : ClockState) (t : ℚ) : ClockState × List Sleeper :=
  ({ s with now := t, sleepers := (C.heapq.popWhile (·.deadline ≤ t) s.sleepers).2 },
    (C.heapq.popWhile (·.deadline ≤ t) s.sleepers).1.filter (·.counter ∉ s.cancelled))

theorem advanceTo_eq (h : C.Ready s) {t : ℚ} (ht : s.now ≤ t) :
    C.advanceTo s t = .ok (C.moved s t) := by
  obtain ⟨hleft, hwoken⟩ := wake_eq (C := C) (s := s) t h.heap le_rfl
  rw [advanceTo, if_neg (not_lt.2 ht), moved, ← hleft, ← hwoken]

theorem Ready.moved (h : C.Ready s) {t : ℚ} (ht : s.now ≤ t) : C.Ready (C.moved s t).1 ∧
    Moves s (C.moved s t).1 (C.moved s t).2 [] [] := by
  obtain ⟨hperm, hheap, hpass, hsorted, -⟩ :=
    Heapq.popWhile_spec (p := fun x => x.deadline ≤ t) h.heap
  have hdown : ∀ x y : Sleeper, x.key ≤ y.key → decide (y.deadline ≤ t) = true →
      decide (x.deadline ≤ t) = true := by
    intro x y hxy hy
    have hle : x.deadline ≤ y.deadline := by
      obtain hlt | heq := Prod.Lex.toLex_le_toLex.1 hxy
      exacts [hlt.le, heq.1.le]
    simpa using hle.trans (by simpa using hy)
  have hleft := Heapq.popWhile_left h.heap hdown
  have hpending : s.pending.Perm ((C.moved s t).2 ++ (C.moved s t).1.pending) := by
    refine (hperm.filter _).trans ?_
    rw [List.filter_append]
    rfl
  obtain ⟨hdistinct, hnodup, hfresh⟩ := h.split hperm
  have hahead : ∀ x ∈ (C.moved s t).1.pending, t < x.deadline := by
    intro x hx
    simpa using hleft x (mem_pending.1 hx).1
  refine ⟨⟨hheap, hfresh, h.cancelled, hnodup, hahead⟩, ht, le_rfl, fun x => ?_, ?_, by simp, .nil,
    by simpa using hpending⟩
  · rw [hpending.mem_iff, List.mem_append]
    constructor
    · intro hx
      have hle : x.deadline ≤ t := by simpa using hpass x (List.mem_of_mem_filter hx)
      exact ⟨.inl hx, hle⟩
    · rintro ⟨hx | hx, hle⟩
      · exact hx
      · exact absurd (hahead x hx) (not_lt.2 hle)
  · -- Keys of different sleepers differ in their numbers.
    have hne := List.pairwise_map.1 hdistinct
    refine List.Pairwise.filter _ ((hsorted.and hne).imp fun {x y} hxy => lt_of_le_of_ne hxy.1 ?_)
    intro heq
    exact hxy.2 (Prod.mk.inj (toLex.injective heq)).2

theorem Moves.trans {s' s'' : ClockState} {w : List Sleeper} (h : Moves s s' [] [] [])
    (h' : Moves s' s'' w [] []) : Moves s s'' w [] [] := by
  have hpending : s.pending.Perm s'.pending := by simpa using h.conserved
  refine ⟨h.now_le.trans h'.now_le, h.counter_le.trans h'.counter_le, fun x => ?_, h'.sorted,
    by simp, .nil, ?_⟩
  · rw [hpending.mem_iff]
    exact h'.due x
  · exact (hpending.append_right _).trans h'.conserved

/-- **What an operation does**: time does not go back, those that are due are woken in order, and
    every other sleeper stays. -/
theorem Ready.next (h : C.Ready s) (e : ClockEvent) : C.Ready (C.next s e) ∧
    Moves s (C.next s e) (C.woken s e) (registered s e) (SimClock.cancelled s e) := by
  have hstay : C.Ready s ∧ Moves s s [] [] [] :=
    ⟨h, le_rfl, le_rfl, h.not_due, .nil, by simp, .nil, by simp⟩
  have hadvance : ∀ t, C.Ready (orElse s (C.advanceTo s t)).1 ∧
      Moves s (orElse s (C.advanceTo s t)).1 (orElse s (C.advanceTo s t)).2 [] [] := by
    intro t
    obtain ht | ht := lt_or_ge t s.now
    · rw [advanceTo, if_pos ht]
      exact hstay
    · rw [advanceTo_eq h ht]
      exact h.moved ht
  cases e with
  | sleep delay => exact h.sleep delay
  | cancel future => exact h.cancel future
  | advance duration =>
    simp only [SimClock.next, woken, react, advance]
    split_ifs
    · exact hstay
    · exact hadvance _
  | advanceTo targetTime => exact hadvance targetTime
  | step =>
    obtain ⟨hpurge, hmoves⟩ := h.purge
    simp only [SimClock.next, woken, react, SimClock.step]
    cases hs : (C.purge s.sleepers.length s).sleepers with
    | nil => exact ⟨hpurge, hmoves⟩
    | cons x l =>
      have hx := hpurge.ahead x (h.purge_first hs)
      simp only [advanceTo_eq hpurge hx.le, orElse, Except.toOption, Option.getD_some]
      obtain ⟨hready, hmoved⟩ := hpurge.moved hx.le
      exact ⟨hready, hmoves.trans hmoved⟩
  | nextDeadline => exact h.purge
  | hasPendingSleepers => exact h.purge

/-! ## Runs -/

/-- What the operations of a run wake, register and cancel. -/
theorem Ready.run (h : C.Ready s) (es : List ClockEvent) :
    C.Ready (Py.run C.next s es) ∧
    (s.pending ++ trace registered C.next s es).Perm (trace C.woken C.next s es ++
      trace SimClock.cancelled C.next s es ++ (Py.run C.next s es).pending) ∧
    ((trace registered C.next s es).Pairwise fun x y => x.counter < y.counter) ∧
    (∀ x ∈ trace registered C.next s es, s.counter ≤ x.counter) ∧
    ((trace C.woken C.next s es).Pairwise fun x y => x.key < y.key) ∧
    ∀ x ∈ trace C.woken C.next s es, s.now < x.deadline := by
  induction es generalizing s with
  | nil => exact ⟨h, by simp [trace], .nil, by simp [trace], .nil, by simp [trace]⟩
  | cons e es ih =>
    obtain ⟨hnext, hmoves⟩ := h.next e
    obtain ⟨hrun, hconserved, hordered, hcounter, hsorted, hahead⟩ := ih hnext
    simp only [trace, run_cons]
    refine ⟨hrun, ?_, ?_, ?_, ?_, ?_⟩
    · have hstep := hmoves.conserved
      rw [List.perm_iff_count] at hstep hconserved ⊢
      intro x
      have hx := hstep x
      have hx' := hconserved x
      simp only [List.count_append] at hx hx' ⊢
      omega
    · refine List.pairwise_append.2 ⟨hmoves.ordered, hordered, fun x hx y hy => ?_⟩
      exact (hmoves.new x hx).2.1.trans_le (hcounter y hy)
    · intro x hx
      obtain hx | hx := List.mem_append.1 hx
      exacts [(hmoves.new x hx).1, hmoves.counter_le.trans (hcounter x hx)]
    · refine List.pairwise_append.2 ⟨hmoves.sorted, hsorted, fun x hx y hy => ?_⟩
      exact Prod.Lex.toLex_lt_toLex.2 (.inl (((hmoves.due x).1 hx).2.trans_lt (hahead y hy)))
    · intro x hx
      obtain hx | hx := List.mem_append.1 hx
      · exact h.ahead x ((hmoves.due x).1 hx).1
      · exact hmoves.now_le.trans_lt (hahead x hx)

theorem ready_initial (t : ℚ) : C.Ready { now := t } where
  heap := C.heapq.nil
  fresh := by simp
  cancelled := by simp
  nodup := .nil
  ahead _ h := absurd h List.not_mem_nil

/-- Time that moves on in two turns. -/
theorem moved_moved (h : C.Ready s) {t u : ℚ} (hu : t ≤ u) :
    C.moved s u = ((C.moved (C.moved s t).1 u).1,
      (C.moved s t).2 ++ (C.moved (C.moved s t).1 u).2) := by
  have hpop := Heapq.popWhile_append (q := fun x => x.deadline ≤ u) h.heap
    fun x (hx : decide (x.deadline ≤ t) = true) => by simpa using (of_decide_eq_true hx).trans hu
  simp only [moved, hpop, List.filter_append]
  rfl

theorem react_advance (h : C.Ready s) {duration : ℚ} (hd : 0 ≤ duration) :
    C.react s (.advance duration) = C.moved s (s.now + duration) := by
  rw [react, advance, if_neg (not_lt.2 hd), advanceTo_eq h (by linarith)]
  rfl

theorem Ready.advance_advance (h : C.Ready s) {a b : ℚ} (ha : 0 ≤ a) (hb : 0 ≤ b) :
    C.woken s (.advance a) ++ C.woken (C.next s (.advance a)) (.advance b) =
        C.woken s (.advance (a + b)) ∧
      C.next (C.next s (.advance a)) (.advance b) = C.next s (.advance (a + b)) := by
  have hfirst := react_advance h ha
  have hsecond := react_advance (h.moved (t := s.now + a) (by linarith)).1 hb
  have hboth := react_advance h (add_nonneg ha hb)
  have hnow : (C.moved s (s.now + a)).1.now = s.now + a := rfl
  rw [hnow, add_assoc] at hsecond
  rw [moved_moved h (t := s.now + a) (by linarith)] at hboth
  simp only [SimClock.next, woken, hfirst, hsecond, hboth, and_self]

theorem Ready.now_step (h : C.Ready s) : (∀ x ∈ s.pending, (C.next s .step).now ≤ x.deadline) ∧
    (s.pending ≠ [] → ∃ x ∈ s.pending, (C.next s .step).now = x.deadline) := by
  obtain ⟨hpurge, hmoves⟩ := h.purge
  have hpending : s.pending.Perm (C.purge s.sleepers.length s).pending := by
    simpa using hmoves.conserved
  simp only [SimClock.next, react, SimClock.step]
  cases hs : (C.purge s.sleepers.length s).sleepers with
  | nil =>
    have hnone : s.pending = [] := by
      rw [← List.perm_nil]
      simpa [ClockState.pending, hs] using hpending
    simp [hnone]
  | cons x l =>
    have hx := h.purge_first hs
    simp only [advanceTo_eq hpurge (hpurge.ahead x hx).le, orElse, Except.toOption, Option.getD_some]
    refine ⟨fun y hy => ?_, fun _ => ⟨x, hpending.mem_iff.2 hx, rfl⟩⟩
    have hy := (mem_pending.1 (hpending.mem_iff.1 hy)).1
    rw [hs] at hy
    obtain rfl | hy := List.mem_cons.1 hy
    · exact le_rfl
    · -- The first of the heap has the least key.
      obtain hlt | heq := Prod.Lex.toLex_le_toLex.1 (C.heapq.first_le (hs ▸ hpurge.heap) y hy)
      exacts [hlt.le, heq.1.le]

/-- **Simulated time**, after any operations: time does not go back; an operation brings the time it is
    asked for, a step the earliest deadline; the deadlines of the sleepers that wait are ahead; each
    sleeper registered is woken once, or cancelled, or waits; an operation wakes those whose deadlines
    it brings; they are woken by deadline and order of registration; and time may move on in two
    turns. -/
theorem simulated_time (t₀ : ℚ) (es : List ClockEvent) :
    let s := run C.next { now := t₀ } es
    let all := fun out => trace out C.next { now := t₀ } es
    (∀ e, s.now ≤ (C.next s e).now) ∧
    (∀ d, 0 ≤ d → (C.next s (.advance d)).now = s.now + d) ∧
    (∀ t, s.now ≤ t → (C.next s (.advanceTo t)).now = t) ∧
    ((∀ x ∈ s.pending, (C.next s .step).now ≤ x.deadline) ∧
      (s.pending ≠ [] → ∃ x ∈ s.pending, (C.next s .step).now = x.deadline)) ∧
    (∀ x ∈ s.pending, s.now < x.deadline) ∧
    (all registered).Perm (all C.woken ++ all SimClock.cancelled ++ s.pending) ∧
    ((all registered).Pairwise fun x y => x.counter < y.counter) ∧
    (∀ e x, x ∈ C.woken s e ↔ x ∈ s.pending ∧ x.deadline ≤ (C.next s e).now) ∧
    ((all C.woken).Pairwise fun x y => x.key < y.key) ∧
    ∀ a b, 0 ≤ a → 0 ≤ b →
      C.woken s (.advance a) ++ C.woken (C.next s (.advance a)) (.advance b) =
        C.woken s (.advance (a + b)) ∧
      C.next (C.next s (.advance a)) (.advance b) = C.next s (.advance (a + b)) := by
  intro s all
  obtain ⟨hready, hconserved, hordered, -, hsorted, -⟩ := (ready_initial (C := C) t₀).run es
  have hadvance : ∀ d, 0 ≤ d → (C.next s (.advance d)).now = s.now + d := fun d hd =>
    congrArg (fun r => r.1.now) (react_advance hready hd)
  have hto : ∀ t, s.now ≤ t → (C.next s (.advanceTo t)).now = t := fun t ht =>
    congrArg (fun r => (orElse s r).1.now) (advanceTo_eq hready ht)
  exact ⟨fun e => (hready.next e).2.now_le, hadvance, hto, hready.now_step, hready.ahead, hconserved,
    hordered, fun e x => (hready.next e).2.due x, hsorted, fun a b ha hb =>
      hready.advance_advance ha hb⟩

end SimClock

end PeerQ
