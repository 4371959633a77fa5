/-
  Reclaiming: which records a sweep resets.

  A sweep decides on the records of the snapshot it started with, and other
  coroutines run while it broadcasts a reset.  It resets what it means to reset
  if the records it still has to decide on are the stored ones whenever it goes
  on (`reclaim_current`).

  A worker that finds a task claimed by another peer has a weaker condition for
  taking it over than a sweep has for releasing it (`takeover_guard`).
-/
import PeerQ.Node.Writes
import PeerQ.Node.Convergence
import PeerQ.Node.Fencing

namespace PeerQ

open Py

namespace PeerNode

variable {R : Runtime} (N : PeerNode R)

/-- When the sweep that the event starts or goes on with was started. -/
def sweepTime (s : NodeState) : Event → ℚ
  | .reclaimSweep now _ _ _ => now
  | .reclaimSent _ _ _ => match s.reclaim with
    | .resetting _ _ now _ _ => now
    | _ => 0
  | _ => 0

/-- A reset replaces a claim of another peer whose lease is over at `now`, and has a larger token. -/
def CurrentReset (now : ℚ) (p : Replica) (w : Write) : Prop :=
  ∀ t r, w = .reset t r → ∃ old, p.tasks.get t = some old ∧ old.state.isClaim = true ∧
    (∃ holder, old.claimedBy = some holder ∧ holder ≠ N.nodeId) ∧ old.leaseExpiry ≤ now ∧
    old.fenceToken < (N.written (N.writeClock p.vectorClock w) w).fenceToken

/-- The resets of a step are such. -/
def ResetsCurrent (s : NodeState) (e : Event) : Prop :=
  Along (N.CurrentReset (sweepTime s e)) N.write s.toReplica (N.writes s e)

/-- The claims that a sweep may reset name their holder, and those that a suspended sweep has still
    to decide on are the stored ones when it goes on. -/
def SnapshotCurrent (s : NodeState) : Event → Prop
  | .reclaimSweep now _ suspected _ => ∀ t r, s.tasks.get t = some r →
      N.reclaimable r now suspected = true → r.claimedBy ≠ none
  | .reclaimSent _ suspected _ => match s.reclaim with
    | .resetting _ [] now _ snapshot => ∀ t r, (t, r) ∈ snapshot →
        N.reclaimable r now suspected = true → r.claimedBy ≠ none ∧ s.tasks.get t = some r
    | _ => True
  | _ => True

section
variable {N} {s : NodeState} {e : Event} {p : Replica} {w : Write}

/-- A reset of a claim that is stored and names its holder. -/
theorem currentReset_of_stored {now : ℚ} {suspected : Str → Bool} {t : Str} {r : TaskRecord}
    (hr : N.reclaimable r now suspected = true) (hholder : r.claimedBy ≠ none)
    (hp : p.tasks.get t = some r) : N.CurrentReset now p (.reset t r) := by
  rintro _ _ ⟨⟩
  simp only [reclaimable, Bool.and_eq_true, decide_eq_true_eq] at hr
  obtain ⟨⟨⟨hclaim, hother⟩, hlease⟩, -⟩ := hr
  obtain ⟨holder, hh⟩ := Option.ne_none_iff_exists'.1 hholder
  refine ⟨r, hp, hclaim, ⟨holder, hh, ?_⟩, hlease, ?_⟩
  · rintro rfl
    exact hother hh
  · simp only [written, resetRecord, sealRecord_fenceToken]
    exact r.fenceToken.lt_nextFor _

theorem Made.current (h : N.Made s e p w) (hs : N.SnapshotCurrent s e) :
    N.CurrentReset (sweepTime s e) p w := by
  cases h with
  | sweep _ hr hm hp =>
    rw [Dict.mem_entries] at hm
    exact currentReset_of_stored hr (hs _ _ hm hr) (hp.trans hm)
  | resume _ hres hr hm hp =>
    simp only [SnapshotCurrent, hres] at hs
    obtain ⟨hholder, hstored⟩ := hs _ _ hm hr
    simp only [sweepTime, hres]
    exact currentReset_of_stored hr hholder (hp.trans hstored)
  | _ => rintro _ _ ⟨⟩

/-- The step of a sweep whose claims are current. -/
theorem step_resetsCurrent (hd : s.reclaim.Distinct) (hs : N.SnapshotCurrent s e) :
    N.ResetsCurrent s e := by
  obtain ⟨cut, rfl⟩ | he := e.restart_or
  · exact trivial
  · exact (N.step_makes hd he).made.mono (I := fun _ => True) (fun _ _ _ _ => trivial)
      (fun _ _ _ hm => hm.current hs) trivial

end

/-- **Sweeps and current state.**  In every run in which the claims of a sweep name their holder and
    are still stored when the sweep goes on after a broadcast, each reset replaces a claim of another
    peer whose lease is over and has a larger token. -/
theorem reclaim_current {es : List Event} (h : Along N.SnapshotCurrent N.step N.initial es) :
    Along N.ResetsCurrent N.step N.initial es :=
  h.mono (I := fun s => s.reclaim.Distinct) (fun _ _ hd _ => step_distinct hd)
    (fun _ _ hd hs => step_resetsCurrent hd hs) initial_distinct

namespace Sample

/-- A claim of `b` whose lease ends at time 5. -/
def leaseB (t : String) : TaskRecord :=
  { taskId := str t, state := .claimed, payload := [], claimedBy := some (str "b"),
    fenceToken := ⟨1, str "b"⟩, leaseExpiry := 5, vectorClock := .zero, updatedBy := str "b" }

/-- The same task, done. -/
def finishedB (t : String) : TaskRecord := { leaseB t with state := .done, leaseExpiry := 0 }

/-- A record of `b` arrives. -/
noncomputable def fromB (r : TaskRecord) : Event :=
  .recv (str "b") (gossip 2 "b" "n" r).msg 0

/-- A sweep at time 10, with everyone else suspected. -/
def sweepAt10 : Event := .reclaimSweep 10 0 (fun _ => true) (str "n")

/-- A send returns. -/
def sendReturns : Event := .reclaimSent 0 (fun _ => true) (str "n")

/-- Two claims of `b` are there; the first one is reset, and after the broadcast of the reset the
    second one. -/
noncomputable def resumedSweep : List Event :=
  [fromB (leaseB "t"), fromB (leaseB "u"), sweepAt10, sendReturns, sendReturns]

/-- Two claims of `b` are there; the first one is reset, and while the reset is broadcast the second
    task turns out to be done. -/
noncomputable def staleSweep : List Event :=
  [fromB (leaseB "t"), fromB (leaseB "u"), sweepAt10, fromB (finishedB "u"), sendReturns]

end Sample

/-- A suspended sweep goes on with the records that are stored. -/
theorem Sample.snapshotCurrent_sent {s : NodeState} (h : s.reclaim.snapshot.all (fun e =>
      e.2.claimedBy.isSome && decide (s.tasks.get e.1 = some e.2)) = true) :
    Sample.plainC.SnapshotCurrent s sendReturns := by
  simp only [sendReturns, SnapshotCurrent]
  split
  · next hres =>
    intro t r hr _
    have hcur := List.all_eq_true.1 h (t, r) (by rw [hres]; exact hr)
    simp only [Bool.and_eq_true, decide_eq_true_eq] at hcur
    exact ⟨Option.isSome_iff_ne_none.1 hcur.1, hcur.2⟩
  · trivial

theorem reclaim_current_resumed :
    Along Sample.plainC.ResetsCurrent Sample.plainC.step Sample.plainC.initial Sample.resumedSweep ∧
    ((run Sample.plainC.step Sample.plainC.initial Sample.resumedSweep).tasks.entries.map fun e =>
      (e.1, e.2.state)) = [(str "t", .pending), (str "u", .pending)] := by
  refine ⟨Sample.plainC.reclaim_current ⟨trivial, trivial, fun t r hr _ => ?_,
    Sample.snapshotCurrent_sent (by decide), Sample.snapshotCurrent_sent (by decide), trivial⟩,
    by decide⟩
  have hstored : (run Sample.plainC.step Sample.plainC.initial [Sample.fromB (Sample.leaseB "t"),
      Sample.fromB (Sample.leaseB "u")]).tasks.entries.all (fun e => e.2.claimedBy.isSome) = true := by
    decide
  have hr' := List.all_eq_true.1 hstored _ (Dict.mem_entries.2 hr)
  exact Option.isSome_iff_ne_none.1 hr'

/-- When the broadcast of the first reset is over, the sweep resets the second task although it is
    done. -/
theorem reclaim_stale :
    ¬ ∀ (R : Runtime) (N : PeerNode R) (es : List Event), R.ed25519.Lawful → N.hasHandler = false →
      Along N.ResetsCurrent N.step N.initial es := by
  intro h
  have hall := h Sample.runtime Sample.plainC (Sample.staleSweep ++ [Sample.sendReturns])
    Ed25519.suffix_lawful rfl
  obtain ⟨-, hlast, -⟩ := Along.append.1 hall
  set s := run Sample.plainC.step Sample.plainC.initial Sample.staleSweep
  have hdone : (s.tasks.get (str "u")).map TaskRecord.state = some .done := by decide
  have hids : (Sample.plainC.writes s Sample.sendReturns).map Write.taskId = [str "u"] := by
    decide
  have hd : s.reclaim.Distinct := run_distinct Sample.staleSweep
  have hmade := (Sample.plainC.step_makes hd (e := Sample.sendReturns)
    (by simp [Sample.sendReturns])).made
  unfold ResetsCurrent at hlast
  rcases hw : Sample.plainC.writes s Sample.sendReturns with _ | ⟨w, ws⟩ <;>
    rw [hw] at hids hlast hmade
  · exact absurd hids (by simp)
  obtain ⟨hreset, -⟩ := hlast
  obtain ⟨hm, -⟩ := hmade
  have hid : w.taskId = str "u" := (List.cons.inj hids).1
  cases hm with
  | resume _ _ _ _ _ =>
    obtain ⟨old, hold, hclaim, -⟩ := hreset _ _ rfl
    obtain rfl : _ = str "u" := hid
    rw [hold, Option.map_some, Option.some.injEq] at hdone
    rw [hdone] at hclaim
    exact absurd hclaim (by decide)

/-! ## Taking a claim over -/

section
variable {N} {s : NodeState} {t holder : Str} {r r' : TaskRecord} {now leaseNow wallNow : ℚ}
  {suspected : Str → Bool} {nonce : Str}

/-- What a worker claims is stored and not actively claimed. -/
theorem workerGet_claims (hr : s.tasks.get t = some r) (hother : r.claimedBy ≠ some N.nodeId)
    (hr' : (N.step s (.workerGet now leaseNow wallNow suspected nonce)).tasks.get t = some r')
    (hown : r'.claimedBy = some N.nodeId) : N.isActiveClaim r now suspected = false := by
  -- as long as the record is there, this node has not claimed the task
  have hkept : s.tasks.get t ≠ some r' := by
    intro h
    obtain rfl : r = r' := Option.some.inj (hr.symm.trans h)
    exact hother hown
  simp only [step] at hr'
  split at hr'
  swap; · exact absurd hr' hkept
  obtain ⟨-, h⟩ | ⟨taskId, q, s₁, -, rfl, ⟨-, h⟩ | ⟨job, rfl, hst, -, hactive, -, -, h⟩⟩ :=
    N.workerGet_cases s wallNow nonce now leaseNow suspected <;> rw [h] at hr'
  · exact absurd hr' hkept
  · exact absurd hr' hkept
  by_cases ht : job.taskId = t
  · rw [ht] at hst
    rwa [Option.some.inj (hst.symm.trans hr)] at hactive
  · refine absurd ?_ hkept
    rw [← hr']
    obtain ⟨x, s₂, rfl, rfl, hc | hc | ⟨p, msg, rest, hc⟩⟩ := N.claimTask_cases
      { s with queue := q, queuedTaskIds := s.queuedTaskIds.erase job.taskId } wallNow nonce job <;>
      rw [hc]
    all_goals simp [startHandler, Replica.store, NodeState.bump, NodeState.send, Dict.get_set_ne _ _ ht]

/-- **When a worker takes a claim over.**  If a worker claims a task that another peer holds, the
    lease is over or the holder is suspected; and the reclaim loop would have released the task exactly
    if one is the case with the other. -/
theorem takeover_guard (hr : s.tasks.get t = some r) (hclaim : r.state.isClaim = true)
    (hholder : r.claimedBy = some holder) (hother : holder ≠ N.nodeId)
    (hr' : (N.step s (.workerGet now leaseNow wallNow suspected nonce)).tasks.get t = some r')
    (hown : r'.claimedBy = some N.nodeId) :
    (r.leaseExpiry ≤ now ∨ suspected holder = true) ∧
      (N.reclaimable r now suspected = true ↔ r.leaseExpiry ≤ now ∧ suspected holder = true) ∧
      (N.reclaimable r now suspected = true ↔ (r.leaseExpiry ≤ now ↔ suspected holder = true)) := by
  have hne : r.claimedBy ≠ some N.nodeId := by
    rw [hholder]
    exact fun h => hother (Option.some.inj h)
  have hboth : N.reclaimable r now suspected = true ↔
      r.leaseExpiry ≤ now ∧ suspected holder = true := by
    simp [reclaimable, hclaim, hholder, hother]
  have heither : r.leaseExpiry ≤ now ∨ suspected holder = true := by
    have hactive := workerGet_claims hr hne hr' hown
    by_contra hnot
    push Not at hnot
    simp [isActiveClaim, hclaim, hholder, hother, hnot] at hactive
  refine ⟨heither, hboth, hboth.trans ⟨fun h => iff_of_true h.1 h.2, fun h => ?_⟩⟩
  rcases heither with hl | hs
  exacts [⟨hl, h.1 hl⟩, ⟨h.2 hs, hs⟩]

end

namespace Sample

/-- A task is submitted at `c`, and before a worker comes to it a claim of `b` with a lease up to 10
    arrives. -/
noncomputable def claimedElsewhere : List Event := [.submit (str "t") [] 0, arrivalStep]

theorem claimed_elsewhere : ∃ r, (run workerC.step workerC.initial claimedElsewhere).tasks.get
    (str "t") = some r ∧ r.state.isClaim = true ∧ r.claimedBy = some (str "b") ∧ r.leaseExpiry = 10 := by
  have hstored : ((run workerC.step workerC.initial claimedElsewhere).tasks.get (str "t")).map
      (fun r => (r.state.isClaim, r.claimedBy, r.leaseExpiry)) = some (true, some (str "b"), 10) := by
    decide
  obtain ⟨r, hr, hval⟩ := Option.map_eq_some_iff.1 hstored
  simp only [Prod.mk.injEq] at hval
  exact ⟨r, hr, hval⟩

end Sample

/-- At time 11 and with `b` suspected, `c` takes the task over as a sweep would. -/
theorem takeover_guard_expired :
    ∃ r, (run Sample.workerC.step Sample.workerC.initial Sample.claimedElsewhere).tasks.get
      (str "t") = some r ∧ Sample.workerC.reclaimable r 11 (fun _ => true) = true := by
  obtain ⟨r, hr, hclaim, hholder, hlease⟩ := Sample.claimed_elsewhere
  have hafter : ((Sample.workerC.step (run Sample.workerC.step Sample.workerC.initial
      Sample.claimedElsewhere) (.workerGet 11 11 0 (fun _ => true) (str "n"))).tasks.get
      (str "t")).map TaskRecord.claimedBy = some (some (str "c")) := by decide
  obtain ⟨r', hr', hown⟩ := Option.map_eq_some_iff.1 hafter
  obtain ⟨-, -, hiff⟩ := takeover_guard hr hclaim hholder (by decide) hr' hown
  refine ⟨r, hr, hiff.2 (iff_of_true ?_ rfl)⟩
  rw [hlease]
  decide

/-- A holder that was never heard of is suspected, so its claim is taken over at time 1 although the
    lease runs up to 10. -/
theorem takeover_early :
    ¬ ∀ (R : Runtime) (N : PeerNode R) (es : List Event) (t holder : Str) (r r' : TaskRecord)
      (now leaseNow wallNow : ℚ) (suspected : Str → Bool) (nonce : Str), R.ed25519.Lawful →
      (run N.step N.initial es).tasks.get t = some r → r.state.isClaim = true →
      r.claimedBy = some holder → holder ≠ N.nodeId →
      (N.step (run N.step N.initial es) (.workerGet now leaseNow wallNow suspected nonce)).tasks.get
        t = some r' → r'.claimedBy = some N.nodeId →
      r.leaseExpiry ≤ now ∧ suspected holder = true := by
  intro h
  obtain ⟨r, hr, hclaim, hholder, hlease⟩ := Sample.claimed_elsewhere
  have hafter : ((Sample.workerC.step (run Sample.workerC.step Sample.workerC.initial
      Sample.claimedElsewhere) (.workerGet 1 1 0 (fun _ => true) (str "n"))).tasks.get
      (str "t")).map TaskRecord.claimedBy = some (some (str "c")) := by decide
  obtain ⟨r', hr', hown⟩ := Option.map_eq_some_iff.1 hafter
  have hover := (h Sample.runtime Sample.workerC Sample.claimedElsewhere (str "t") (str "b") r r' 1 1 0
    (fun _ => true) (str "n") Ed25519.suffix_lawful hr hclaim hholder (by decide) hr' hown).1
  rw [hlease] at hover
  exact absurd hover (by decide)

end PeerNode

end PeerQ
