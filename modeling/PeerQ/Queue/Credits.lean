/-
  `CreditFlowController` with the tasks that acquire credits (`peerq/queue.py`).

  A task that finds too few credits waits for a future of its own, in the list of
  the peer.  `replenish` takes the futures out of that list and resolves those that
  are not cancelled; whoever is resumed looks at the balance again.  Cancelling a
  task that waits cancels its future at once; the future leaves the list when the
  task runs next, or when `replenish` comes first.  Which of the tasks that can run
  is next is left open.

  `credit_accounting`: the balance is what was granted, less what was acquired,
  plus what was replenished.  `no_stuck_waiter`: nobody waits for credits that are
  there, unless a balance was set or raised without waking those who wait.
-/
import PeerQ.Lib.Runs
import PeerQ.Queue

namespace PeerQ

open Py

/-- A future in a list of waiters, with the amount its task waits for. -/
structure Waiter where
  future : ℕ
  amount : ℤ
  cancelled : Bool := false
  deriving DecidableEq

/-- A task in `acquire` that can run: one that has not started, one whose future is resolved, and
    one that gets a `CancelledError` where it waits for its future. -/
inductive AcquireTask where
  | start (peerId : Str) (amount : ℤ)
  | resume (peerId : Str) (amount : ℤ) (future : ℕ)
  | cancelled (peerId : Str) (future : ℕ)
  deriving DecidableEq

/-- The fields of a controller that change, with the number of futures so far and the tasks that can
    run. -/
structure CreditState where
  credits : Dict Str ℤ := .empty
  waiters : Dict Str (List Waiter) := .empty
  futures : ℕ := 0
  runnable : List AcquireTask := []

inductive CreditReply where
  | acquired (peerId : Str) (amount : ℤ)
  | refused (peerId : Str) (amount : ℤ)
  | cancelledError

/-- What can happen at a controller: calls, a new task for `acquire`, a task that runs, and a task
    that is cancelled, where it waits for a future or where it could run. -/
inductive CreditEvent where
  | initPeer (peerId : Str) (credits : Option ℤ)
  | tryAcquire (peerId : Str) (amount : ℤ)
  | acquire (peerId : Str) (amount : ℤ)
  | run (i : ℕ)
  | cancel (peerId : Str) (future : ℕ)
  | cancelTask (i : ℕ)
  | replenish (peerId : Str) (amount : ℤ)

namespace CreditState

variable (s : CreditState)

def waitersOf (peerId : Str) : List Waiter := (s.waiters.get peerId).getD []

/-- A task waits for a new future. -/
def suspend (peerId : Str) (amount : ℤ) : CreditState :=
  { s with
    waiters := s.waiters.set peerId (s.waitersOf peerId ++ [⟨s.futures, amount, false⟩])
    futures := s.futures + 1 }

/-- The future of a waiting task is cancelled, and the task can run. -/
def cancel (peerId : Str) (future : ℕ) : CreditState :=
  if ∃ w ∈ s.waitersOf peerId, w.future = future ∧ w.cancelled = false then
    { s with
      waiters := s.waiters.set peerId ((s.waitersOf peerId).map fun w =>
        if w.future = future then { w with cancelled := true } else w)
      runnable := s.runnable ++ [.cancelled peerId future] }
  else s

/-- A task that could run is cancelled: one that has not started ends. -/
def cancelTask (i : ℕ) : CreditState :=
  match s.runnable[i]? with
  | some (.start _ _) => { s with runnable := s.runnable.eraseIdx i }
  | some (.resume peerId _ future) =>
    { s with runnable := s.runnable.set i (.cancelled peerId future) }
  | _ => s

/-- The handler of the `CancelledError`. -/
def forget (peerId : Str) (future : ℕ) : CreditState :=
  if ∃ w ∈ s.waitersOf peerId, w.future = future then
    { s with waiters := s.waiters.set peerId ((s.waitersOf peerId).eraseP (·.future = future)) }
  else s

end CreditState

/-- Amounts to acquire are positive. -/
def AcquireTask.Positive : AcquireTask → Prop
  | .start _ amount | .resume _ amount _ => 0 < amount
  | .cancelled _ _ => True

def CreditEvent.Positive : CreditEvent → Prop
  | .tryAcquire _ amount | .acquire _ amount => 0 < amount
  | _ => True

/-- The argument of a `CreditFlowController`. -/
structure CreditFlowController where
  defaultInitialCredits : ℤ := 10

namespace CreditFlowController

variable (C : CreditFlowController)

/-- A step with what it comes to. -/
abbrev Reaction := CreditState × List CreditReply

def initPeer (s : CreditState) (peerId : Str) (credits : Option ℤ) : CreditState :=
  { s with
    credits := s.credits.set peerId (credits.getD C.defaultInitialCredits)
    waiters := if s.waiters.has peerId then s.waiters else s.waiters.set peerId [] }

def getCredits (s : CreditState) (peerId : Str) : ℤ :=
  (s.credits.get peerId).getD C.defaultInitialCredits

/-- Credits are taken off. -/
def charge (s : CreditState) (peerId : Str) (amount : ℤ) : CreditState :=
  { s with credits := s.credits.set peerId (C.getCredits s peerId - amount) }

def tryAcquire (s : CreditState) (peerId : Str) (amount : ℤ) : Reaction :=
  if amount ≤ C.getCredits s peerId then (C.charge s peerId amount, [.acquired peerId amount])
  else (s, [.refused peerId amount])

/-- `acquire` from the test of its loop on; there is a balance by then. -/
def acquire (s : CreditState) (peerId : Str) (amount : ℤ) : Reaction :=
  if C.getCredits s peerId < amount then (s.suspend peerId amount, [])
  else (C.charge s peerId amount, [.acquired peerId amount])

/-- The first lines of `acquire`. -/
def start (s : CreditState) (peerId : Str) : CreditState :=
  if s.credits.has peerId then s
  else { s with credits := s.credits.set peerId C.defaultInitialCredits }

/-- The loop of `replenish`: the waiters that stay, and the tasks that can run. -/
def wake (peerId : Str) (balance : ℤ) : List Waiter → List Waiter × List AcquireTask
  | [] => ([], [])
  | w :: waiters =>
    if 0 < balance then
      let (left, woken) := wake peerId balance waiters
      (left, if w.cancelled then woken else .resume peerId w.amount w.future :: woken)
    else (w :: waiters, [])

/-- `replenish`; the balance is the one the node keeps. -/
def replenish (s : CreditState) (peerId : Str) (amount : ℤ) : CreditState :=
  if amount ≤ 0 then s
  else
    let s' := { s with
      credits := PeerQ.replenish s.credits C.defaultInitialCredits peerId amount }
    match s.waiters.get peerId with
    | none => s'
    | some waiters =>
      let (left, woken) := wake peerId (C.getCredits s' peerId) waiters
      { s' with waiters := s.waiters.set peerId left, runnable := s.runnable ++ woken }

/-- A task runs until it waits or ends. -/
def attempt (s : CreditState) : AcquireTask → Reaction
  | .start peerId amount => C.acquire (C.start s peerId) peerId amount
  | .resume peerId amount _ => C.acquire s peerId amount
  | .cancelled peerId future => (s.forget peerId future, [.cancelledError])

/-- One step with what it comes to. -/
def react (s : CreditState) : CreditEvent → Reaction
  | .initPeer peerId credits => (C.initPeer s peerId credits, [])
  | .tryAcquire peerId amount => C.tryAcquire s peerId amount
  | .acquire peerId amount => ({ s with runnable := s.runnable ++ [.start peerId amount] }, [])
  | .run i =>
    match s.runnable[i]? with
    | none => (s, [])
    | some task => C.attempt { s with runnable := s.runnable.eraseIdx i } task
  | .cancel peerId future => (s.cancel peerId future, [])
  | .cancelTask i => (s.cancelTask i, [])
  | .replenish peerId amount => (C.replenish s peerId amount, [])

def step (s : CreditState) (e : CreditEvent) : CreditState := (C.react s e).1

/-! ## The balances -/

/-- What a call acquired of a peer. -/
def acquiredOf (peer : Str) : CreditReply → ℤ
  | .acquired peerId amount => if peerId = peer then amount else 0
  | _ => 0

/-- What the calls of a run acquire of a peer. -/
def acquired (peer : Str) (s : CreditState) (es : List CreditEvent) : ℤ :=
  ((trace (fun s e => (C.react s e).2) C.step s es).map (acquiredOf peer)).sum

/-- The positive amounts replenished. -/
def replenishedOf (peer : Str) : CreditEvent → ℤ
  | .replenish peerId amount => if peerId = peer then max amount 0 else 0
  | _ => 0

def replenished (peer : Str) (es : List CreditEvent) : ℤ := (es.map (replenishedOf peer)).sum

variable {C} {s : CreditState} {peer peerId : Str} {amount : ℤ}

theorem getCredits_charge : C.getCredits (C.charge s peerId amount) peer =
    C.getCredits s peer - if peerId = peer then amount else 0 := by
  by_cases h : peerId = peer
  · subst h
    simp [getCredits, charge]
  · simp [getCredits, charge, h, Dict.get_set_ne]

@[simp] theorem getCredits_suspend :
    C.getCredits (s.suspend peerId amount) peer = C.getCredits s peer := rfl

@[simp] theorem getCredits_start : C.getCredits (C.start s peerId) peer = C.getCredits s peer := by
  unfold start
  split_ifs with h
  · rfl
  · by_cases hp : peerId = peer
    · subst hp
      have hnone : s.credits.get peerId = none := by simpa [Dict.has] using h
      simp [getCredits, hnone]
    · simp [getCredits, Dict.get_set_ne _ _ hp]

theorem getCredits_initPeer {credits : Option ℤ} : C.getCredits (C.initPeer s peerId credits) peer =
    if peerId = peer then credits.getD C.defaultInitialCredits else C.getCredits s peer := by
  simp only [getCredits, initPeer, Dict.get_set]
  split_ifs <;> rfl

@[simp] theorem getCredits_cancel {future : ℕ} :
    C.getCredits (s.cancel peerId future) peer = C.getCredits s peer := by
  unfold CreditState.cancel
  split_ifs <;> rfl

@[simp] theorem getCredits_cancelTask {i : ℕ} :
    C.getCredits (s.cancelTask i) peer = C.getCredits s peer := by
  unfold CreditState.cancelTask
  split <;> rfl

@[simp] theorem getCredits_forget {future : ℕ} :
    C.getCredits (s.forget peerId future) peer = C.getCredits s peer := by
  unfold CreditState.forget
  split_ifs <;> rfl

theorem credits_replenish : (C.replenish s peerId amount).credits =
    PeerQ.replenish s.credits C.defaultInitialCredits peerId amount := by
  unfold replenish PeerQ.replenish
  split_ifs
  · rfl
  · split <;> rfl

theorem getCredits_replenish : C.getCredits (C.replenish s peerId amount) peer =
    C.getCredits s peer + if peerId = peer then max amount 0 else 0 := by
  rw [getCredits, credits_replenish, PeerQ.replenish]
  by_cases hp : peerId = peer
  · subst hp
    rw [if_pos rfl]
    split_ifs with hpos
    · simp [getCredits, hpos]
    · simp [getCredits, (not_le.1 hpos).le]
  · rw [if_neg hp, add_zero]
    split_ifs with hpos
    · rfl
    · simp [getCredits, Dict.get_set_ne _ _ hp]

/-- What is taken off a balance was there. -/
theorem charge_balance (peer : Str) (h : amount ≤ C.getCredits s peerId) :
    C.getCredits (C.charge s peerId amount) peer = C.getCredits s peer -
      ([CreditReply.acquired peerId amount].map (acquiredOf peer)).sum ∧
    (0 ≤ C.getCredits s peer → 0 ≤ C.getCredits (C.charge s peerId amount) peer) := by
  rw [getCredits_charge]
  refine ⟨by simp [acquiredOf], fun hs => ?_⟩
  split_ifs with hp
  · subst hp; omega
  · simpa using hs

theorem acquire_balance (C : CreditFlowController) (s : CreditState) (peer peerId : Str)
    (amount : ℤ) : C.getCredits (C.acquire s peerId amount).1 peer = C.getCredits s peer -
      ((C.acquire s peerId amount).2.map (acquiredOf peer)).sum ∧
    (0 ≤ C.getCredits s peer → 0 ≤ C.getCredits (C.acquire s peerId amount).1 peer) := by
  unfold acquire
  split_ifs with h
  · simp
  · exact charge_balance peer (not_lt.1 h)

/-- **A step changes a balance by what it acquires and replenishes**, and leaves none negative. -/
theorem step_balance {e : CreditEvent} (he : ∀ credits, e ≠ .initPeer peer credits) :
    C.getCredits (C.step s e) peer = C.getCredits s peer -
        ((C.react s e).2.map (acquiredOf peer)).sum + replenishedOf peer e ∧
      (0 ≤ C.getCredits s peer → 0 ≤ C.getCredits (C.step s e) peer) := by
  cases e with
  | initPeer peerId credits =>
    have hp : peerId ≠ peer := fun hp => he credits (by rw [hp])
    simp [step, react, getCredits_initPeer, hp, replenishedOf]
  | tryAcquire peerId amount =>
    simp only [step, react, tryAcquire, replenishedOf, add_zero]
    split_ifs with h
    · exact charge_balance peer h
    · simp [acquiredOf]
  | acquire peerId amount => simp [step, react, replenishedOf, getCredits]
  | run i =>
    simp only [step, react, replenishedOf, add_zero]
    cases hi : s.runnable[i]? with
    | none => simp
    | some task =>
      cases task with
      | start peerId amount =>
        have h := acquire_balance C (C.start { s with runnable := s.runnable.eraseIdx i } peerId)
          peer peerId amount
        rw [getCredits_start] at h
        exact h
      | resume peerId amount future => exact acquire_balance C _ peer peerId amount
      | cancelled peerId future =>
        simp only [attempt, getCredits_forget]
        exact ⟨by simp [acquiredOf, getCredits], id⟩
  | cancel peerId future => simp [step, react, replenishedOf]
  | cancelTask i => simp [step, react, replenishedOf]
  | replenish peerId amount =>
    simp only [step, react, replenishedOf, List.map_nil, List.sum_nil, sub_zero,
      getCredits_replenish, true_and]
    intro hs
    split_ifs <;> omega

/-- The balances along a run without a new grant. -/
theorem run_balance : ∀ {es : List CreditEvent} {s : CreditState},
    (∀ e ∈ es, ∀ credits, e ≠ .initPeer peer credits) →
    C.getCredits (run C.step s es) peer =
        C.getCredits s peer - C.acquired peer s es + replenished peer es ∧
      (0 ≤ C.getCredits s peer → 0 ≤ C.getCredits (run C.step s es) peer)
  | [], s, _ => by simp [acquired, replenished, trace]
  | e :: es, s, h => by
    obtain ⟨hstep, hnonneg⟩ := step_balance (C := C) (s := s) (h e (by simp))
    have hes : ∀ e' ∈ es, ∀ credits, e' ≠ .initPeer peer credits :=
      fun e' he' => h e' (by simp [he'])
    obtain ⟨hrun, hnonneg'⟩ := run_balance (s := C.step s e) hes
    refine ⟨?_, fun hs => hnonneg' (hnonneg hs)⟩
    rw [run_cons, hrun, hstep]
    simp only [acquired, replenished, trace, List.map_append, List.sum_append, List.map_cons,
      List.sum_cons]
    ring

variable (C) in
/-- The events that open the window of a peer: the last one grants it, or none has touched it and it
    is the default. -/
def Opens (peer : Str) (w : ℤ) (es : List CreditEvent) : Prop :=
  (∃ es' credits, es = es' ++ [.initPeer peer credits] ∧
    w = credits.getD C.defaultInitialCredits) ∨ es = [] ∧ w = C.defaultInitialCredits

theorem Opens.getCredits {w : ℤ} {es : List CreditEvent} (h : C.Opens peer w es) :
    C.getCredits (run C.step {} es) peer = w := by
  obtain ⟨es', credits, rfl, rfl⟩ | ⟨rfl, rfl⟩ := h
  · rw [run_concat]
    simp [step, react, getCredits_initPeer]
  · rfl

/-- **Credit accounting**: from a grant on, the balance of a peer is the grant less the amounts
    acquired plus the positive amounts replenished, and never negative; so what is acquired and not
    replenished stays within the grant. -/
theorem credit_accounting {w : ℤ} {es₀ es : List CreditEvent} (hw : 0 ≤ w)
    (hgrant : C.Opens peer w es₀) (hes : ∀ e ∈ es, ∀ credits, e ≠ .initPeer peer credits) :
    C.getCredits (run C.step {} (es₀ ++ es)) peer =
        w - C.acquired peer (run C.step {} es₀) es + replenished peer es ∧
      0 ≤ C.getCredits (run C.step {} (es₀ ++ es)) peer ∧
      C.acquired peer (run C.step {} es₀) es - replenished peer es ≤ w := by
  obtain ⟨heq, hnonneg⟩ := run_balance (C := C) (s := run C.step {} es₀) hes
  rw [← run_append, hgrant.getCredits] at heq
  rw [← run_append, hgrant.getCredits] at hnonneg
  have := hnonneg hw
  exact ⟨heq, this, by omega⟩

namespace Sample

/-- A window of two credits, one caller that gets a credit and one that waits for two and gets
    them. -/
def window : List CreditEvent :=
  [.acquire (str "b") 1, .acquire (str "b") 2, .run 0, .run 0, .replenish (str "b") 1, .run 0]

end Sample

theorem credit_accounting_window :
    let C : CreditFlowController := {}
    let es₀ : List CreditEvent := [.initPeer (str "b") (some 2)]
    C.getCredits (run C.step {} (es₀ ++ Sample.window)) (str "b") =
        2 - C.acquired (str "b") (run C.step {} es₀) Sample.window +
          replenished (str "b") Sample.window ∧
      0 ≤ C.getCredits (run C.step {} (es₀ ++ Sample.window)) (str "b") ∧
      C.acquired (str "b") (run C.step {} es₀) Sample.window -
        replenished (str "b") Sample.window ≤ 2 :=
  credit_accounting (by decide) (.inl ⟨[], some 2, rfl, rfl⟩) (by simp [Sample.window])

/-! ## Waiters -/

variable (C) in
/-- Nothing can run, and somebody waits for no more than there is. -/
def Stuck (s : CreditState) : Prop :=
  s.runnable = [] ∧ ∃ peer, ∃ w ∈ s.waitersOf peer, w.cancelled = false ∧
    w.amount ≤ C.getCredits s peer

variable (C) in
/-- A balance is set, or raised by a negative amount, to what somebody waits for. -/
def Skips (s : CreditState) : CreditEvent → Prop
  | .initPeer peerId credits => ∃ w ∈ s.waitersOf peerId, w.cancelled = false ∧
      w.amount ≤ credits.getD C.defaultInitialCredits
  | .tryAcquire peerId amount => amount < 0 ∧ ∃ w ∈ s.waitersOf peerId, w.cancelled = false ∧
      w.amount ≤ C.getCredits s peerId - amount
  | _ => False

variable (C) in
/-- Whoever waits does so for more than there is. -/
structure Patient (s : CreditState) : Prop where
  tasks : ∀ t ∈ s.runnable, t.Positive
  positive : ∀ peer, ∀ w ∈ s.waitersOf peer, 0 < w.amount
  waits : ∀ peer, ∀ w ∈ s.waitersOf peer, w.cancelled = false → C.getCredits s peer < w.amount

theorem Patient.not_stuck (h : C.Patient s) : ¬ C.Stuck s := by
  rintro ⟨-, peer, w, hw, hc, hle⟩
  exact absurd (h.waits peer w hw hc) (not_lt.2 hle)

theorem waitersOf_set {s' : CreditState} {ws : List Waiter}
    (h : s'.waiters = s.waiters.set peerId ws) :
    s'.waitersOf peer = if peerId = peer then ws else s.waitersOf peer := by
  simp only [CreditState.waitersOf, h, Dict.get_set]
  split_ifs <;> rfl

theorem waitersOf_initPeer {credits : Option ℤ} :
    (C.initPeer s peerId credits).waitersOf peer = s.waitersOf peer := by
  simp only [initPeer]
  split_ifs with h
  · rfl
  · rw [waitersOf_set (s := s) rfl]
    split_ifs with hp
    · subst hp
      have hnone : s.waiters.get peerId = none := by simpa [Dict.has] using h
      simp [CreditState.waitersOf, hnone]
    · rfl

theorem wake_pos {balance : ℤ} (h : 0 < balance) (ws : List Waiter) :
    wake peerId balance ws =
      ([], (ws.filter (!·.cancelled)).map fun w => .resume peerId w.amount w.future) := by
  induction ws with
  | nil => rfl
  | cons w ws ih =>
    rw [wake, if_pos h, ih]
    cases hw : w.cancelled <;> simp [hw]

theorem wake_nonpos {balance : ℤ} (h : ¬ 0 < balance) (ws : List Waiter) :
    wake peerId balance ws = (ws, []) := by
  cases ws with
  | nil => rfl
  | cons w ws => rw [wake, if_neg h]

/-- Where no waiter is new, and no balance rises to what one waits for, patience stays. -/
theorem Patient.mono {s' : CreditState} (h : C.Patient s) (htasks : ∀ t ∈ s'.runnable, t.Positive)
    (hwaiters : ∀ peer, ∀ w' ∈ s'.waitersOf peer, ∃ w ∈ s.waitersOf peer, w.amount = w'.amount ∧
      (w'.cancelled = false → w.cancelled = false))
    (hcredits : ∀ peer, C.getCredits s' peer ≤ C.getCredits s peer ∨ ∀ w ∈ s'.waitersOf peer,
      w.cancelled = false → C.getCredits s' peer < w.amount) : C.Patient s' where
  tasks := htasks
  positive peer w' hw' := by
    obtain ⟨w, hw, hamount, -⟩ := hwaiters peer w' hw'
    exact hamount ▸ h.positive peer w hw
  waits peer w' hw' hc := by
    obtain hle | hlt := hcredits peer
    · obtain ⟨w, hw, hamount, hcancelled⟩ := hwaiters peer w' hw'
      exact hle.trans_lt (hamount ▸ h.waits peer w hw (hcancelled hc))
    · exact hlt w' hw' hc

theorem Patient.charge (h : C.Patient s) (hcharge : 0 ≤ amount ∨ ∀ w ∈ s.waitersOf peerId,
    w.cancelled = false → C.getCredits s peerId - amount < w.amount) :
    C.Patient (C.charge s peerId amount) := by
  refine h.mono h.tasks (fun peer w hw => ⟨w, hw, rfl, id⟩) fun peer => ?_
  rw [getCredits_charge]
  split_ifs with hp
  · subst hp
    exact hcharge.imp (fun hle => by omega) id
  · exact .inl (by omega)

theorem Patient.suspend (h : C.Patient s) (hpos : 0 < amount)
    (hlt : C.getCredits s peerId < amount) : C.Patient (s.suspend peerId amount) := by
  have hwaiters : ∀ peer, ∀ w ∈ (s.suspend peerId amount).waitersOf peer, w ∈ s.waitersOf peer ∨
      peerId = peer ∧ w.amount = amount := by
    intro peer w hw
    rw [waitersOf_set (s := s) rfl] at hw
    split_ifs at hw with hp
    · subst hp
      simp only [List.mem_append, List.mem_singleton] at hw
      obtain hw | rfl := hw
      exacts [.inl hw, .inr ⟨rfl, rfl⟩]
    · exact .inl hw
  refine ⟨h.tasks, fun peer w hw => ?_, fun peer w hw hc => ?_⟩
  · obtain hw | ⟨-, hamount⟩ := hwaiters peer w hw
    exacts [h.positive peer w hw, hamount ▸ hpos]
  · obtain hw | ⟨rfl, hamount⟩ := hwaiters peer w hw
    exacts [h.waits peer w hw hc, hamount ▸ hlt]

theorem Patient.acquire (h : C.Patient s) (hpos : 0 < amount) :
    C.Patient (C.acquire s peerId amount).1 := by
  unfold CreditFlowController.acquire
  split_ifs with hlt
  exacts [h.suspend hpos hlt, h.charge (.inl hpos.le)]

theorem Patient.start (h : C.Patient s) : C.Patient (C.start s peerId) := by
  have hs : (C.start s peerId).runnable = s.runnable ∧ (C.start s peerId).waiters = s.waiters := by
    unfold CreditFlowController.start
    split_ifs <;> exact ⟨rfl, rfl⟩
  refine h.mono (hs.1 ▸ h.tasks) (fun peer w hw => ⟨w, ?_, rfl, id⟩) fun peer =>
    .inl getCredits_start.le
  simpa [CreditState.waitersOf, hs.2] using hw

theorem Patient.forget (h : C.Patient s) {future : ℕ} : C.Patient (s.forget peerId future) := by
  unfold CreditState.forget
  split_ifs with hw
  · refine h.mono h.tasks (fun peer w hw => ⟨w, ?_, rfl, id⟩) fun _ => .inl le_rfl
    rw [waitersOf_set (s := s) rfl] at hw
    split_ifs at hw with hp
    · subst hp
      exact List.mem_of_mem_eraseP hw
    · exact hw
  · exact h

theorem Patient.cancel (h : C.Patient s) {future : ℕ} : C.Patient (s.cancel peerId future) := by
  unfold CreditState.cancel
  split_ifs with hw
  · refine h.mono (fun t ht => ?_) (fun peer w' hw' => ?_) fun _ => .inl le_rfl
    · simp only [List.mem_append, List.mem_singleton] at ht
      obtain ht | rfl := ht
      exacts [h.tasks t ht, trivial]
    · rw [waitersOf_set (s := s) rfl] at hw'
      split_ifs at hw' with hp
      · subst hp
        obtain ⟨w, hw, rfl⟩ := List.mem_map.1 hw'
        refine ⟨w, hw, ?_, ?_⟩ <;> split_ifs <;> simp
      · exact ⟨w', hw', rfl, id⟩
  · exact h

theorem Patient.cancelTask (h : C.Patient s) {i : ℕ} : C.Patient (s.cancelTask i) := by
  unfold CreditState.cancelTask
  split
  · refine h.mono (fun t ht => ?_) (fun peer w hw => ⟨w, hw, rfl, id⟩) fun _ => .inl le_rfl
    exact h.tasks t (List.mem_of_mem_eraseIdx ht)
  · refine h.mono (fun t ht => ?_) (fun peer w hw => ⟨w, hw, rfl, id⟩) fun _ => .inl le_rfl
    obtain ht | rfl := List.mem_or_eq_of_mem_set ht
    exacts [h.tasks t ht, trivial]
  · exact h

/-- `replenish` wakes everybody who waits, unless there are no credits even then. -/
theorem replenish_wakes (peerId : Str) (hpos : 0 < amount) {balance : ℤ}
    (hb : C.getCredits (C.replenish s peerId amount) peerId = balance) :
    (∀ peer, (C.replenish s peerId amount).waitersOf peer =
      if peerId = peer ∧ 0 < balance then [] else s.waitersOf peer) ∧
    (C.replenish s peerId amount).runnable = s.runnable ++
      if 0 < balance then ((s.waitersOf peerId).filter (!·.cancelled)).map fun w =>
        .resume peerId w.amount w.future else [] := by
  have hbalance : C.getCredits { s with
      credits := PeerQ.replenish s.credits C.defaultInitialCredits peerId amount } peerId =
        balance := by
    rw [← hb, getCredits, getCredits, credits_replenish]
  unfold CreditFlowController.replenish
  rw [if_neg (not_le.2 hpos)]
  cases hw : s.waiters.get peerId with
  | none =>
    have hnil : s.waitersOf peerId = [] := by simp [CreditState.waitersOf, hw]
    refine ⟨fun peer => ?_, by simp [hnil]⟩
    split_ifs with hp
    · exact hp.1 ▸ hnil
    · rfl
  | some waiters =>
    have hof : s.waitersOf peerId = waiters := by simp [CreditState.waitersOf, hw]
    simp only [hbalance, hof]
    by_cases h : 0 < balance
    · rw [wake_pos h, if_pos h]
      refine ⟨fun peer => ?_, rfl⟩
      rw [waitersOf_set (s := s) rfl]
      simp [h]
    · rw [wake_nonpos h, if_neg h]
      refine ⟨fun peer => ?_, rfl⟩
      rw [waitersOf_set (s := s) rfl, if_neg fun hp : peerId = peer ∧ 0 < balance => h hp.2]
      split_ifs with hp
      · exact hp ▸ hof.symm
      · rfl

theorem Patient.replenish (h : C.Patient s) : C.Patient (C.replenish s peerId amount) := by
  obtain hle | hpos := le_or_gt amount 0
  · rw [CreditFlowController.replenish, if_pos hle]
    exact h
  obtain ⟨hwaiters, hrunnable⟩ := replenish_wakes (C := C) (s := s) peerId hpos rfl
  refine h.mono (fun t ht => ?_) (fun peer w hw => ⟨w, ?_, rfl, id⟩) fun peer => ?_
  · rw [hrunnable, List.mem_append] at ht
    obtain ht | ht := ht
    · exact h.tasks t ht
    · split_ifs at ht
      · obtain ⟨w, hw, rfl⟩ := List.mem_map.1 ht
        exact h.positive peerId w (List.mem_of_mem_filter hw)
      · exact absurd ht List.not_mem_nil
  · rw [hwaiters] at hw
    split_ifs at hw
    · exact absurd hw List.not_mem_nil
    · exact hw
  · by_cases hp : peerId = peer
    · subst hp
      refine .inr fun w hw _ => ?_
      rw [hwaiters] at hw
      split_ifs at hw with hbalance
      · exact absurd hw List.not_mem_nil
      · have hbalance' := not_lt.1 fun hlt => hbalance ⟨rfl, hlt⟩
        exact hbalance'.trans_lt (h.positive peerId w hw)
    · rw [getCredits_replenish, if_neg hp, add_zero]
      exact .inl le_rfl

/-- **A step keeps patience**, unless it sets or raises a balance to what somebody waits for. -/
theorem Patient.step (h : C.Patient s) {e : CreditEvent}
    (hpos : ∀ peerId amount, e = .acquire peerId amount → 0 < amount) (hskips : ¬ C.Skips s e) :
    C.Patient (C.step s e) := by
  cases e with
  | initPeer peerId credits =>
    refine h.mono h.tasks (fun peer w hw => ⟨w, waitersOf_initPeer ▸ hw, rfl, id⟩) fun peer => ?_
    simp only [CreditFlowController.step, react, getCredits_initPeer, waitersOf_initPeer]
    split_ifs with hp
    · subst hp
      exact .inr fun w hw hc => not_le.1 fun hle => hskips ⟨w, hw, hc, hle⟩
    · exact .inl le_rfl
  | tryAcquire peerId amount =>
    simp only [CreditFlowController.step, react, tryAcquire]
    split_ifs with hle
    · refine h.charge ((le_or_gt 0 amount).imp id fun hneg w hw hc => ?_)
      exact not_le.1 fun hle => hskips ⟨hneg, w, hw, hc, hle⟩
    · exact h
  | acquire peerId amount =>
    refine h.mono (fun t ht => ?_) (fun peer w hw => ⟨w, hw, rfl, id⟩) fun _ => .inl le_rfl
    simp only [CreditFlowController.step, react, List.mem_append, List.mem_singleton] at ht
    obtain ht | rfl := ht
    exacts [h.tasks t ht, hpos peerId amount rfl]
  | run i =>
    simp only [CreditFlowController.step, react]
    cases hi : s.runnable[i]? with
    | none => exact h
    | some task =>
      have htask := h.tasks task (List.mem_of_getElem? hi)
      have hrest : C.Patient { s with runnable := s.runnable.eraseIdx i } :=
        h.mono (fun t ht => h.tasks t (List.mem_of_mem_eraseIdx ht))
          (fun peer w hw => ⟨w, hw, rfl, id⟩) fun _ => .inl le_rfl
      cases task with
      | start peerId amount => exact hrest.start.acquire htask
      | resume peerId amount future => exact hrest.acquire htask
      | cancelled peerId future => exact hrest.forget
  | cancel peerId future => exact h.cancel
  | cancelTask i => exact h.cancelTask
  | replenish peerId amount => exact h.replenish

theorem patient_initial : C.Patient {} where
  tasks := by simp
  positive _ w hw := absurd hw List.not_mem_nil
  waits _ w hw := absurd hw List.not_mem_nil

/-- **No stuck waiter**, as long as no balance is set, or raised by a negative amount, to what
    somebody waits for. -/
theorem no_stuck_waiter {es : List CreditEvent}
    (hpos : ∀ e ∈ es, ∀ peerId amount, e = .acquire peerId amount → 0 < amount)
    (hskips : Along (fun s e => ¬ C.Skips s e) C.step {} es) : ¬ C.Stuck (run C.step {} es) := by
  refine Patient.not_stuck ?_
  exact (hskips.and (Along.of_mem hpos)).invariant (fun s e hs hse => hs.step hse.2 hse.1)
    patient_initial

instance (s : CreditState) : (e : CreditEvent) → Decidable (C.Skips s e)
  | .initPeer _ _ => inferInstanceAs (Decidable (∃ w ∈ _, _))
  | .tryAcquire _ _ => inferInstanceAs (Decidable (_ ∧ ∃ w ∈ _, _))
  | .acquire _ _ | .run _ | .cancel _ _ | .cancelTask _ | .replenish _ _ =>
    inferInstanceAs (Decidable False)

theorem no_stuck_waiter_window :
    let C : CreditFlowController := {}
    ¬ C.Stuck (run C.step {} (.initPeer (str "b") (some 2) :: Sample.window)) :=
  no_stuck_waiter (by simp +decide [Sample.window]) (by
    refine ⟨?_, ?_, ?_, ?_, ?_, ?_, ?_, trivial⟩
    all_goals decide)

/-- A caller waits for one credit; `init_peer` grants ten, and the caller waits on. -/
theorem waiter_stuck :
    ¬ ∀ (C : CreditFlowController) (es : List CreditEvent), (∀ e ∈ es, e.Positive) →
      ¬ C.Stuck (run C.step {} es) := by
  intro h
  refine h {} [.initPeer (str "b") (some 0), .acquire (str "b") 1, .run 0,
    .initPeer (str "b") none] ?_ ⟨by decide, str "b", ⟨0, 1, false⟩, by decide, rfl, by decide⟩
  simp [CreditEvent.Positive]

end CreditFlowController

end PeerQ
