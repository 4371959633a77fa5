/-
  Clocks as the interpreter holds them.

  `VectorClock(d)` keeps every counter with `v > 0`.  Out of a log that may be a
  float, an infinity or `True`, which no node writes and the decoder of records
  refuses; the clocks of the nodes hold integers.  A `LooseClock` keeps what the
  interpreter keeps: recovery with it stores the same tasks and raises the same
  exceptions as recovery with integers, and where the counters of the log are
  integers it has the same clock (`recover_withClock`).
-/
import PeerQ.Node.Compaction

namespace PeerQ

open Py

/-! ## Counters -/

/-- `v > 0` for a value out of a log; `none` if that raises `TypeError`. -/
def positive : Json → Option Bool
  | .int n => some (0 < n)
  | .bool b => some b
  | .float .nan => some false
  | .float (.inf neg) => some !neg
  | .float (.finite q) => some (0 < q)
  | _ => none

/-- What positive numbers are compared by. -/
def magnitude : Json → WithTop ℚ
  | .int n => ((n : ℚ) : WithTop ℚ)
  | .bool b => if b then 1 else 0
  | .float (.finite q) => (q : WithTop ℚ)
  | .float (.inf false) => ⊤
  | _ => 0

/-- `max(a, b)`: the first of two equal ones. -/
def pyMax (a b : Json) : Json := if magnitude a < magnitude b then b else a

/-- A counter that is an integer, or that `VectorClock` drops or raises on. -/
def integral : Json → Bool
  | .int _ => true
  | v => positive v ≠ some true

/-- On such counters, clocks of integers see what the interpreter sees. -/
theorem counterValue_integral {v : Json} (h : integral v = true) :
    (PeerNode.counterValue v).isSome = (positive v).isSome ∧
      (if positive v = some true then v else .int 0) =
        .int (((PeerNode.counterValue v).getD 0).toNat : ℕ) := by
  cases v with
  | int n =>
    refine ⟨rfl, ?_⟩
    simp only [positive, PeerNode.counterValue, Option.getD_some, Option.some.injEq,
      decide_eq_true_eq]
    split_ifs with hn
    · rw [Int.toNat_of_nonneg hn.le]
    · rw [Int.toNat_of_nonpos (not_lt.1 hn)]
      rfl
  | bool b =>
    cases b with
    | false => exact ⟨rfl, rfl⟩
    | true => cases h
  | float x =>
    cases x with
    | nan => exact ⟨rfl, rfl⟩
    | inf neg =>
      cases neg with
      | true => exact ⟨rfl, rfl⟩
      | false => cases h
    | finite q =>
      have hq : ¬ 0 < q := by simpa [integral, positive] using h
      simp [PeerNode.counterValue, positive, hq, not_lt.1 hq]
  | _ => exact ⟨rfl, rfl⟩

theorem pyMax_int (m n : ℕ) : pyMax (.int m) (.int n) = .int ((max m n : ℕ) : ℤ) := by
  have hlt : magnitude (.int m) < magnitude (.int n) ↔ m < n := by
    simp only [magnitude, WithTop.coe_lt_coe]
    exact_mod_cast Iff.rfl
  unfold pyMax
  split_ifs with h
  · rw [max_eq_right (hlt.1 h).le]
  · rw [max_eq_left (not_lt.1 (mt hlt.2 h))]

/-! ## Clocks -/

/-- A `VectorClock` with any positive numbers as its counters. -/
structure LooseClock where
  counters : Dict Str Json
  pos : ∀ e ∈ counters.entries, positive e.2 = some true

namespace LooseClock

/-- `get`. -/
def get (c : LooseClock) (peerId : Str) : Json := (c.counters.get peerId).getD (.int 0)

/-- `VectorClock({k: f(k) for k in ks})` where the values are numbers. -/
def ofFun (ks : List Str) (f : Str → Json) : LooseClock where
  counters := .ofKeys (ks.dedup.filter fun k => positive (f k) = some true)
    ((List.nodup_dedup ks).filter _) f
  pos e he := by
    obtain ⟨k, hk, rfl⟩ := List.mem_map.1 he
    exact of_decide_eq_true (List.mem_filter.1 hk).2

theorem get_ofFun (ks : List Str) (f : Str → Json) (k : Str) :
    (ofFun ks f).get k = if k ∈ ks ∧ positive (f k) = some true then f k else .int 0 := by
  rw [get, ofFun, Dict.get_ofKeys]
  simp only [List.mem_filter, List.mem_dedup, decide_eq_true_eq]
  split_ifs <;> rfl

/-- `VectorClock()`. -/
def zero : LooseClock := ⟨.empty, by simp [Dict.empty]⟩

/-- `VectorClock(d)` for a `dict` out of the log. -/
def ofDict (d : Fields) : Except Exn LooseClock :=
  if d.all fun e => (positive e.2).isSome then
    .ok (.ofFun (d.map Prod.fst) fun k => (lookup k d).getD (.int 0))
  else .error .typeError

/-- `merge`. -/
def merge (a b : LooseClock) : LooseClock :=
  .ofFun (a.counters.keys ++ b.counters.keys) fun k => pyMax (a.get k) (b.get k)

instance : PeerNode.LogClock LooseClock where
  ofDict := ofDict
  merge := merge
  ofDict_error h := by
    unfold ofDict at h
    split_ifs at h
    exact (Except.error.inj h).symm

@[simp] theorem logClock_ofDict (d : Fields) :
    (PeerNode.LogClock.ofDict d : Except Exn LooseClock) = ofDict d := rfl

/-- The clock holds the integers of another. -/
def Holds (c : LooseClock) (v : VectorClock) : Prop := ∀ k, c.get k = .int (v.get k)

theorem get_of_notMem {c : LooseClock} {k : Str} (h : k ∉ c.counters.keys) : c.get k = .int 0 := by
  rw [get, Dict.get_eq_none.2 h]
  rfl

theorem holds_zero : zero.Holds .zero := fun _ => rfl

theorem Holds.merge {a b : LooseClock} {v w : VectorClock} (ha : a.Holds v) (hb : b.Holds w) :
    (a.merge b).Holds (v.merge w) := by
  intro k
  have hmax : pyMax (a.get k) (b.get k) = .int ((max (v.get k) (w.get k) : ℕ) : ℤ) := by
    rw [ha k, hb k, pyMax_int]
  rw [LooseClock.merge, get_ofFun, hmax, Counters.get_merge]
  by_cases hpos : 0 < max (v.get k) (w.get k)
  · have hmem : k ∈ a.counters.keys ++ b.counters.keys := by
      by_contra hk
      rw [List.mem_append, not_or] at hk
      have hv := (ha k).symm.trans (get_of_notMem hk.1)
      have hw := (hb k).symm.trans (get_of_notMem hk.2)
      simp only [Json.int.injEq, Nat.cast_eq_zero] at hv hw
      omega
    rw [if_pos ⟨hmem, by simpa [positive] using hpos⟩]
  · have hzero : max (v.get k) (w.get k) = 0 := by omega
    rw [hzero]
    split_ifs <;> rfl

/-- Reading the counters of a clock of integers. -/
theorem lookup_mapM {d d' : Fields}
    (h : d.mapM (fun e => (PeerNode.counterValue e.2).map fun n => (e.1, Json.int n)) = some d')
    (k : Str) : d'.map Prod.fst = d.map Prod.fst ∧
      lookup k d' = (lookup k d).map fun v => .int ((PeerNode.counterValue v).getD 0) := by
  induction d generalizing d' with
  | nil =>
    obtain rfl := Option.some.inj h
    exact ⟨rfl, rfl⟩
  | cons e d ih =>
    rw [List.mapM_cons] at h
    cases hn : PeerNode.counterValue e.2 with
    | none => simp [hn] at h
    | some n =>
      cases hd : d.mapM (fun e => (PeerNode.counterValue e.2).map fun n => (e.1, Json.int n)) with
      | none => simp [hn, hd] at h
      | some ds =>
        simp only [hn, hd, Option.map_some] at h
        obtain rfl := Option.some.inj h
        obtain ⟨hkeys, hlook⟩ := ih hd
        refine ⟨by simp [hkeys], ?_⟩
        simp only [lookup]
        split_ifs
        · simp [hn]
        · exact hlook

theorem mapM_isSome (d : Fields) :
    (d.mapM fun e => (PeerNode.counterValue e.2).map fun n => (e.1, Json.int n)).isSome =
      d.all fun e => (PeerNode.counterValue e.2).isSome := by
  induction d with
  | nil => rfl
  | cons e d ih =>
    rw [List.mapM_cons, List.all_cons, ← ih]
    cases PeerNode.counterValue e.2 with
    | none => rfl
    | some n =>
      cases d.mapM fun e => (PeerNode.counterValue e.2).map fun n => (e.1, Json.int n) <;> rfl

/-- **Reading a clock of integers**: both representations raise `TypeError`, or hold the same. -/
theorem ofDict_integral {d : Fields} (h : ∀ e ∈ d, integral e.2 = true) :
    (ofDict d = .error .typeError ∧ PeerNode.clockOfDict d = .error .typeError) ∨
      ∃ c v, ofDict d = .ok c ∧ PeerNode.clockOfDict d = .ok v ∧ c.Holds v := by
  have hall : (d.all fun e => (PeerNode.counterValue e.2).isSome) =
      d.all fun e => (positive e.2).isSome := by
    rw [Bool.eq_iff_iff, List.all_eq_true, List.all_eq_true]
    exact forall₂_congr fun e he => by rw [(counterValue_integral (h e he)).1]
  have hsome := mapM_isSome d
  rw [hall] at hsome
  unfold ofDict PeerNode.clockOfDict
  cases hm : d.mapM fun e => (PeerNode.counterValue e.2).map fun n => (e.1, Json.int n) with
  | none =>
    rw [hm] at hsome
    rw [← hsome]
    exact Or.inl ⟨rfl, rfl⟩
  | some d' =>
    rw [hm] at hsome
    rw [← hsome]
    refine Or.inr ⟨_, _, rfl, rfl, fun k => ?_⟩
    obtain ⟨hkeys, hlook⟩ := lookup_mapM hm k
    rw [get_ofFun, VectorClock.ofFields, Counters.get_ofFun, hkeys, hlook]
    by_cases hk : k ∈ d.map Prod.fst
    · cases hl : lookup k d with
      | none => exact absurd hk (lookup_eq_none.1 hl)
      | some v =>
        have hv := (counterValue_integral (h _ (mem_of_lookup hl))).2
        simpa [hk, counter] using hv
    · simp [hk]

end LooseClock

/-! ## What recovery reads -/

/-- A `dict`, or a value that counts as an empty one. -/
def clockLike : Json → Bool
  | .obj _ | .null | .bool false | .int 0 | .float (.finite 0) | .str [] | .arr [] => true
  | _ => false

/-- The fields of such a value. -/
def clockFields : Json → Fields
  | .obj d => d
  | _ => []

namespace WalRecord

/-- The clock of a checkpoint. -/
def clockValue (rec : WalRecord) : Json := (lookup (str "vector_clock") rec.payload).getD (.obj [])

/-- The tasks of a checkpoint, if they are an object. -/
def tasksValue (rec : WalRecord) : Option Fields :=
  match (lookup (str "tasks") rec.payload).getD (.obj []) with
  | .obj rawTasks => some rawTasks
  | _ => none

theorem tasksValue_eq_some {rec : WalRecord} {l : Fields} : rec.tasksValue = some l ↔
    (lookup (str "tasks") rec.payload).getD (.obj []) = .obj l := by
  unfold tasksValue
  split
  · next l' h => rw [h, Option.some.injEq, Json.obj.injEq]
  · next h => exact iff_of_false (by simp) (h l)

/-- What recovery takes a record for. -/
theorem kinds (rec : WalRecord) : rec.recordType = recordTask ∨ rec.recordType = recordClock ∨
    (∃ l, rec.recordType = recordCheckpoint ∧ rec.tasksValue = some l) ∨
    rec.recordType ≠ recordTask ∧ rec.recordType ≠ recordClock ∧
      (rec.recordType = recordCheckpoint → rec.tasksValue = none) := by
  by_cases h1 : rec.recordType = recordTask
  · exact Or.inl h1
  by_cases h2 : rec.recordType = recordClock
  · exact Or.inr (Or.inl h2)
  by_cases h3 : rec.recordType = recordCheckpoint
  swap
  · exact Or.inr (Or.inr (Or.inr ⟨h1, h2, fun h => absurd h h3⟩))
  cases htasks : rec.tasksValue with
  | none => exact Or.inr (Or.inr (Or.inr ⟨h1, h2, fun _ => rfl⟩))
  | some l => exact Or.inr (Or.inr (Or.inl ⟨l, h3, rfl⟩))

/-- The counters that recovery reads in a record. -/
def counters (rec : WalRecord) : Fields :=
  if rec.recordType = recordClock then rec.payload
  else if rec.recordType = recordCheckpoint ∧ rec.tasksValue.isSome then clockFields rec.clockValue
  else []

/-- The counters are integers, or `VectorClock` does not keep them. -/
def Integral (rec : WalRecord) : Prop := ∀ e ∈ rec.counters, integral e.2 = true

end WalRecord

/-- The same state with another clock. -/
def Replica.withClock {C D : Type} (p : Replica C) (c : D) : Replica D :=
  ⟨p.tasks, c, p.walFile, p.journal⟩

/-- The same state with another clock. -/
def NodeState.withClock {C D : Type} (s : NodeState C) (c : D) : NodeState D :=
  { s with toReplica := s.toReplica.withClock c }

namespace PeerNode

variable {R : Runtime} {N : PeerNode R}

section
variable {C D : Type} (p : Replica C) (c : D)

theorem recoverTask_withClock (t : Str) (r : TaskRecord) :
    N.recoverTask (p.withClock c) t r = (N.recoverTask p t r).withClock c := by
  unfold recoverTask
  cases hg : p.tasks.get t with
  | none => simp only [Replica.withClock, hg]; rfl
  | some old =>
    simp only [Replica.withClock, hg]
    cases mergeRecords R old r N.mergeKeyring <;> rfl

theorem recoverTask_vectorClock (t : Str) (r : TaskRecord) :
    (N.recoverTask p t r).vectorClock = p.vectorClock :=
  congrArg (fun q => q.vectorClock) (recoverTask_withClock (N := N) p p.vectorClock t r)

/-- The tasks of a checkpoint are recovered whatever the clock is. -/
theorem recoverSnapshot_withClock (l : Fields) (p : Replica C) :
    N.recoverSnapshot (p.withClock c) l =
      ((N.recoverSnapshot p l).1.withClock c, (N.recoverSnapshot p l).2) := by
  induction l generalizing p with
  | nil => rfl
  | cons e l ih =>
    obtain ⟨k, v⟩ := e
    unfold recoverSnapshot
    rw [show (p.withClock c).tasks = p.tasks from rfl]
    by_cases hfull : (N.maxTasks ≤ p.tasks.size && !p.tasks.has k) = true
    · simp only [hfull, if_true]
      exact ih p
    · simp only [hfull]
      cases N.decodedTask v with
      | error e => rfl
      | ok o =>
        cases o with
        | none => exact ih p
        | some r =>
          simp only
          rw [recoverTask_withClock]
          exact ih _

/-- They leave the clock alone. -/
theorem recoverSnapshot_vectorClock (l : Fields) :
    (N.recoverSnapshot p l).1.vectorClock = p.vectorClock :=
  congrArg (fun x => x.1.vectorClock) (recoverSnapshot_withClock (N := N) p.vectorClock l p)

variable [LogClock C]

/-- The clock after one out of the log has been merged, if it could be read. -/
def readClock (c : C) (d : Fields) : C :=
  match LogClock.ofDict d with
  | .ok c' => LogClock.merge c c'
  | .error _ => c

theorem recoverClock_ofDict (d : Fields) :
    recoverClock p (LogClock.ofDict d) = (p.withClock (readClock p.vectorClock d), none) := by
  unfold recoverClock readClock
  cases hd : (LogClock.ofDict d : Except Exn C) with
  | ok c => rfl
  | error e =>
    obtain rfl := LogClock.ofDict_error hd
    rfl

omit p in
theorem clockOfJson_eq (v : Json) : (clockOfJson v : Except Exn C) =
    if clockLike v then LogClock.ofDict (clockFields v) else .error .attributeError := by
  cases v with
  | obj d => rfl
  | null => rfl
  | bool b => cases b <;> rfl
  | int n =>
    by_cases h : n = 0
    · subst h; rfl
    · simp [clockOfJson, clockLike, h]
  | float x =>
    cases x with
    | finite q =>
      by_cases h : q = 0
      · subst h; rfl
      · simp [clockOfJson, clockLike, h]
    | _ => rfl
  | str s => cases s <;> rfl
  | arr l => cases l <;> rfl

theorem recoverClock_ofJson (v : Json) : recoverClock p (clockOfJson v) =
    if clockLike v then (p.withClock (readClock p.vectorClock (clockFields v)), none)
    else (p, some .attributeError) := by
  rw [clockOfJson_eq]
  split_ifs
  · exact recoverClock_ofDict p _
  · rfl

variable {p} {rec : WalRecord} {l : Fields} {q : Replica C}

theorem recoverRecord_clock (h : rec.recordType = recordClock) :
    N.recoverRecord p rec = (p.withClock (readClock p.vectorClock rec.payload), none) := by
  have h1 : rec.recordType ≠ recordTask := by rw [h]; decide
  rw [recoverRecord, if_neg h1, if_pos h, recoverClock_ofDict]

/-- A checkpoint with tasks: first these, then its clock. -/
theorem recoverRecord_snapshot (h : rec.recordType = recordCheckpoint)
    (hl : rec.tasksValue = some l) :
    (∀ e, N.recoverSnapshot p l = (q, some e) → N.recoverRecord p rec = (q, some e)) ∧
    (N.recoverSnapshot p l = (q, none) → N.recoverRecord p rec =
      if clockLike rec.clockValue then
        (q.withClock (readClock q.vectorClock (clockFields rec.clockValue)), none)
      else (q, some .attributeError)) := by
  have h1 : rec.recordType ≠ recordTask := by rw [h]; decide
  have h2 : rec.recordType ≠ recordClock := by rw [h]; decide
  rw [recoverRecord, if_neg h1, if_neg h2, if_pos h, WalRecord.tasksValue_eq_some.1 hl]
  refine ⟨fun e hq => by simp only [hq], fun hq => ?_⟩
  simp only [hq]
  exact recoverClock_ofJson q _

theorem recoverRecord_other (h1 : rec.recordType ≠ recordTask) (h2 : rec.recordType ≠ recordClock)
    (h3 : rec.recordType = recordCheckpoint → rec.tasksValue = none) :
    N.recoverRecord p rec = (p, none) := by
  rw [recoverRecord, if_neg h1, if_neg h2]
  split_ifs with h
  · cases hv : (lookup (str "tasks") rec.payload).getD (.obj []) with
    | obj l => cases (WalRecord.tasksValue_eq_some.2 hv).symm.trans (h3 h)
    | _ => rfl
  · rfl

end

/-! ## Recovery with either clock -/

section
variable {p : Replica} {c : LooseClock}

theorem readClock_holds {d : Fields} {v : VectorClock} (hd : ∀ e ∈ d, integral e.2 = true)
    (h : c.Holds v) : (readClock c d).Holds (readClock v d) := by
  unfold readClock
  rcases LooseClock.ofDict_integral hd with ⟨hc, hv⟩ | ⟨c', v', hc, hv, hh⟩
  · rw [LooseClock.logClock_ofDict, hc, LogClock.ofDict_vectorClock, hv]
    exact h
  · rw [LooseClock.logClock_ofDict, hc, LogClock.ofDict_vectorClock, hv]
    exact h.merge hh

/-- The record of a task leaves the clock alone. -/
theorem recoverRecord_task_withClock {rec : WalRecord} (h : rec.recordType = recordTask) :
    N.recoverRecord (p.withClock c) rec =
        ((N.recoverRecord p rec).1.withClock c, (N.recoverRecord p rec).2) ∧
      (N.recoverRecord p rec).1.vectorClock = p.vectorClock := by
  simp only [recoverRecord, if_pos h]
  cases N.decodedTask (.obj rec.payload) with
  | error e => exact ⟨rfl, rfl⟩
  | ok o =>
    cases o with
    | none => exact ⟨rfl, rfl⟩
    | some r =>
      simp only [show (p.withClock c).tasks = p.tasks from rfl, recoverTask_withClock]
      split_ifs
      · exact ⟨rfl, rfl⟩
      · exact ⟨rfl, recoverTask_vectorClock p _ _⟩

/-- **One record of the log** has the same effect on the tasks, raises the same, and reads integers
    alike. -/
theorem recoverRecord_withClock (p : Replica) (c : LooseClock) (rec : WalRecord) :
    ∃ c', N.recoverRecord (p.withClock c) rec =
        ((N.recoverRecord p rec).1.withClock c', (N.recoverRecord p rec).2) ∧
      (rec.Integral → c.Holds p.vectorClock → c'.Holds (N.recoverRecord p rec).1.vectorClock) := by
  obtain h1 | h2 | ⟨l, h3, hl⟩ | ⟨h1, h2, h3⟩ := rec.kinds
  · obtain ⟨hrec, hclock⟩ := recoverRecord_task_withClock (N := N) (p := p) (c := c) h1
    exact ⟨c, hrec, fun _ h => hclock ▸ h⟩
  · rw [recoverRecord_clock h2, recoverRecord_clock h2]
    refine ⟨readClock c rec.payload, rfl, fun hint h => readClock_holds ?_ h⟩
    rwa [WalRecord.Integral, WalRecord.counters, if_pos h2] at hint
  · have hcounters : rec.counters = clockFields rec.clockValue := by
      rw [WalRecord.counters, if_neg (by rw [h3]; decide), if_pos ⟨h3, by rw [hl]; rfl⟩]
    have hclock := recoverSnapshot_vectorClock (N := N) p l
    have hloose := recoverSnapshot_withClock (N := N) c l p
    rcases hq : N.recoverSnapshot p l with ⟨q, _ | e⟩ <;> rw [hq] at hclock hloose
    · rw [(recoverRecord_snapshot h3 hl).2 hq, (recoverRecord_snapshot h3 hl).2 hloose]
      split_ifs
      · refine ⟨readClock c (clockFields rec.clockValue), rfl, fun hint h => ?_⟩
        rw [← hclock] at h
        exact readClock_holds (hcounters ▸ hint) h
      · exact ⟨c, rfl, fun _ h => by rw [← hclock] at h; exact h⟩
    · rw [(recoverRecord_snapshot h3 hl).1 e hq, (recoverRecord_snapshot h3 hl).1 e hloose]
      exact ⟨c, rfl, fun _ h => by rw [← hclock] at h; exact h⟩
  · rw [recoverRecord_other h1 h2 h3, recoverRecord_other h1 h2 h3]
    exact ⟨c, rfl, fun _ h => h⟩

theorem recoverRecords_withClock (recs : List WalRecord) (p : Replica) (c : LooseClock) :
    ∃ c', N.recoverRecords (p.withClock c) recs =
        ((N.recoverRecords p recs).1.withClock c', (N.recoverRecords p recs).2) ∧
      ((∀ rec ∈ recs, rec.Integral) → c.Holds p.vectorClock →
        c'.Holds (N.recoverRecords p recs).1.vectorClock) := by
  induction recs generalizing p c with
  | nil => exact ⟨c, rfl, fun _ h => h⟩
  | cons rec recs ih =>
    obtain ⟨c₁, hstep, hholds⟩ := recoverRecord_withClock (N := N) p c rec
    unfold recoverRecords
    rw [hstep]
    rcases hq : N.recoverRecord p rec with ⟨q, _ | e⟩ <;> rw [hq] at hholds
    · obtain ⟨c₂, hrun, hholds₂⟩ := ih q c₁
      refine ⟨c₂, hrun, fun hint h => ?_⟩
      exact hholds₂ (fun x hx => hint x (by simp [hx])) (hholds (hint rec (by simp)) h)
    · exact ⟨c₁, rfl, fun hint h => hholds (hint rec (by simp)) h⟩

/-- Queueing what is pending does not look at the clock. -/
theorem requeuePending_withClock (s : NodeState) (c : LooseClock) :
    requeuePending (s.withClock c) = (requeuePending s).withClock c := by
  have henqueue : ∀ (s : NodeState) t r,
      (s.withClock c).enqueuePending t r = (s.enqueuePending t r).withClock c := by
    intro s t r
    unfold NodeState.enqueuePending NodeState.tryEnqueue
    rw [show (s.withClock c).queuedTaskIds = s.queuedTaskIds from rfl,
      show (s.withClock c).queue = s.queue from rfl]
    split_ifs
    · cases s.queue.put t 0 <;> rfl
    · rfl
  unfold requeuePending
  rw [show (s.withClock c).tasks = s.tasks from rfl]
  induction s.tasks.entries generalizing s with
  | nil => rfl
  | cons e l ih => rw [List.foldl_cons, List.foldl_cons, henqueue, ih]

/-- **`_recover_from_wal` with the clocks of the interpreter**: the node that comes of it differs in
    the clock at most, and not even there if the counters of the log are integers. -/
theorem recover_withClock (s : NodeState) (c : LooseClock) (replayed : List WalRecord × Option Exn) :
    ∃ c', N.recover (s.withClock c) replayed =
        ((N.recover s replayed).1.withClock c', (N.recover s replayed).2) ∧
      ((∀ rec ∈ replayed.1, rec.Integral) → c.Holds s.vectorClock →
        c'.Holds (N.recover s replayed).1.vectorClock) := by
  obtain ⟨c', hrun, hholds⟩ := recoverRecords_withClock (N := N) replayed.1 s.toReplica c
  refine ⟨c', ?_, fun hint h => ?_⟩
  · unfold recover
    rw [show (s.withClock c).toReplica = s.toReplica.withClock c from rfl, hrun]
    rcases N.recoverRecords s.toReplica replayed.1 with ⟨q, _ | e⟩ <;>
      rcases replayed.2 with _ | e'
    · exact congrArg (·, none) (requeuePending_withClock { s with toReplica := q } c')
    all_goals rfl
  · rw [(recover_eq s replayed).1]
    exact hholds hint h

end

end PeerNode

end PeerQ
