/-
  What vector clocks say.

  Beside a run of a mesh, `observe` keeps for every node, stored record and
  message the set of increments it stems from: a new record gets what its node
  knows, a merge that joins the clocks the union, and a node that accepts a
  record learns what the record stems from.  No clock is looked at for this.
  The clocks count exactly these increments (`clocks_encode`).
-/
import PeerQ.Mesh

namespace PeerQ

open Py

/-- Increments, by the node that makes them and their number there. -/
abbrev Increments := Set (Str × ℕ)

/-- What a node, the records in its store and those in its messages stem from; `ticks` is the number
    of increments of the node. -/
structure Knowledge where
  ticks : ℕ
  node : Increments
  store : Str → Increments
  mail : Message → Str → Increments

/-- What the result of `merge_records` stems from: both records, or the one that is kept as it is. -/
def mergeKnowledge (R : Runtime) (r1 r2 : TaskRecord) (keyring : Option PeerKeyRing)
    (κ1 κ2 : Increments) : Increments :=
  match keyring with
  | none => κ1 ∪ κ2
  | some K =>
    match verifyTaskAuthorization R r1 K, verifyTaskAuthorization R r2 K with
    | true, false => κ1
    | false, true => κ2
    | _, _ => κ1 ∪ κ2

namespace PeerNode

variable {R : Runtime} (N : PeerNode R)

/-- A write and what is learned by it; `heard` is what received records stem from. -/
def learnWrite (heard : Str → Increments) (x : Replica × Knowledge) (w : Write) :
    Replica × Knowledge :=
  (N.write x.1 w, match w with
    | .run job => { x.2 with store := Function.update x.2.store job.taskId x.2.node }
    | .take t remote _ =>
      { x.2 with
        node := x.2.node ∪ heard t
        store := Function.update x.2.store t (match x.1.tasks.get t with
          | none => heard t
          | some old => mergeKnowledge R old remote N.mergeKeyring (x.2.store t) (heard t)) }
    | w =>
      { x.2 with
        ticks := x.2.ticks + 1
        node := insert (N.nodeId, x.2.ticks + 1) x.2.node
        store := Function.update x.2.store w.taskId
          (insert (N.nodeId, x.2.ticks + 1) x.2.node) })

open Classical in
/-- What is known after a step: a message that it makes stems from the stored records. -/
noncomputable def learn (heard : Str → Increments) (s : NodeState) (g : Knowledge) (e : Event) :
    Knowledge :=
  let g' := (run (N.learnWrite heard) (s.toReplica, g) (N.writes s e)).2
  { g' with mail := fun m => if m ∈ s.messages then g.mail m else g'.store }

end PeerNode

namespace Mesh

open PeerNode

variable {R : Runtime} {ι : Type} [DecidableEq ι] (M : Mesh R ι)

/-- What the records of a delivered message stem from. -/
def heard (s : ι → NodeState) (g : ι → Knowledge) : MeshEvent ι → Str → Increments
  | .deliver j _ k _ => match (s j).sent[k]? with
    | some (_, msg) => (g j).mail msg
    | none => fun _ => ∅
  | .act _ _ => fun _ => ∅

/-- A step and what is learned by it. -/
noncomputable def observe (x : (ι → NodeState) × (ι → Knowledge)) (e : MeshEvent ι) :
    (ι → NodeState) × (ι → Knowledge) :=
  (M.step x.1 e, match M.occurs x.1 e with
    | some (i, e') =>
      Function.update x.2 i ((M.node i).learn (heard x.1 x.2 e) (x.1 i) (x.2 i) e')
    | none => x.2)

/-- Nothing is known at the start. -/
def unknowing : ι → Knowledge := fun _ => ⟨0, ∅, fun _ => ∅, fun _ _ => ∅⟩

/-- A node, a stored record or a record in a message has the clock `c` and stems from `κ`. -/
inductive Observed (x : (ι → NodeState) × (ι → Knowledge)) : Increments → VectorClock → Prop
  | node (i : ι) : Observed x (x.2 i).node (x.1 i).vectorClock
  | stored {i : ι} {t : Str} {r : TaskRecord} (h : (x.1 i).tasks.get t = some r) :
      Observed x ((x.2 i).store t) r.vectorClock
  | inFlight {i : ι} {m : Message} {t : Str} {v : Json} {r : TaskRecord}
      (hm : m ∈ (x.1 i).messages) (hv : (t, v) ∈ m.tasks) (hr : TaskRecord.fromDict v = .ok r) :
      Observed x ((x.2 i).mail m t) r.vectorClock

end Mesh

/-! ## Merging -/

theorem mergeKnowledge_past {R : Runtime} {r1 r2 m : TaskRecord} {keyring : Option PeerKeyRing}
    (h : mergeRecords R r1 r2 keyring = .ok m) :
    mergeKnowledge R r1 r2 keyring r1.vectorClock.past r2.vectorClock.past = m.vectorClock.past := by
  have hjoin : (joinRecords r1 r2).vectorClock.past = r1.vectorClock.past ∪ r2.vectorClock.past :=
    Counters.past_sup _ _
  unfold mergeRecords at h
  split_ifs at h
  cases keyring with
  | none => rw [← Except.ok.inj h, hjoin]; rfl
  | some K =>
    cases h1 : verifyTaskAuthorization R r1 K <;> cases h2 : verifyTaskAuthorization R r2 K <;>
      simp [h1, h2] at h <;> subst h <;> simp only [mergeKnowledge, h1, h2]
    exact hjoin.symm

namespace Mesh

open PeerNode

variable {R : Runtime} {ι : Type} (M : Mesh R ι)

/-! ## One write -/

/-- The clocks of a node count what is known, while it makes the writes of a step: `b` are the
    counters that the nodes have for themselves when it starts. -/
structure Learns (i : ι) (b : ι → ℕ) (x : Replica × Knowledge) : Prop where
  node : x.2.node = x.1.vectorClock.past
  store : ∀ t r, x.1.tasks.get t = some r →
    x.2.store t = r.vectorClock.past ∧ r.vectorClock ≤ x.1.vectorClock
  ticks : x.1.vectorClock.get (M.node i).nodeId = x.2.ticks
  base : b i ≤ x.1.vectorClock.get (M.node i).nodeId
  others : ∀ k, k ≠ i → x.1.vectorClock.get (M.node k).nodeId ≤ b k

section
variable {M} {i : ι} {b : ι → ℕ} {x : Replica × Knowledge} {heard : Str → Increments}

/-- A write that leaves all but one record as they were. -/
theorem Learns.assign {p : Replica} {g : Knowledge} {t : Str} {r : TaskRecord} {κ : Increments}
    (hx : M.Learns i b x) (hp : p.tasks = x.1.tasks.set t r)
    (hg : g.store = Function.update x.2.store t κ) (hκ : κ = r.vectorClock.past)
    (hr : r.vectorClock ≤ p.vectorClock) (hle : x.1.vectorClock ≤ p.vectorClock)
    (hnode : g.node = p.vectorClock.past)
    (hticks : p.vectorClock.get (M.node i).nodeId = g.ticks)
    (hothers : ∀ k, k ≠ i → p.vectorClock.get (M.node k).nodeId ≤ b k) : M.Learns i b (p, g) := by
  refine ⟨hnode, fun t' r' hr' => ?_, hticks, hx.base.trans (hle _), hothers⟩
  simp only [hp, Dict.get_set] at hr'
  simp only [hg]
  split_ifs at hr' with ht
  · subst ht
    obtain rfl := Option.some.inj hr'
    rw [Function.update_self]
    exact ⟨hκ, hr⟩
  · rw [Function.update_of_ne (Ne.symm ht)]
    obtain ⟨h1, h2⟩ := hx.store t' r' hr'
    exact ⟨h1, h2.trans hle⟩

theorem writeClock_le (w : Write) (p : Replica) :
    p.vectorClock ≤ ((M.node i).write p w).vectorClock := by
  rw [write_vectorClock]
  exact (M.node i).le_writeClock w _

/-- A write for which the node advances its clock. -/
theorem Learns.tick (hx : M.Learns i b x) {w : Write} (hown : w.own = true)
    (hclock : (M.node i).writeClock x.1.vectorClock w =
      x.1.vectorClock.increment (M.node i).nodeId) :
    M.Learns i b ((M.node i).write x.1 w,
      { x.2 with
        ticks := x.2.ticks + 1
        node := insert ((M.node i).nodeId, x.2.ticks + 1) x.2.node
        store := Function.update x.2.store w.taskId
          (insert ((M.node i).nodeId, x.2.ticks + 1) x.2.node) }) := by
  have hvc : ((M.node i).write x.1 w).vectorClock = x.1.vectorClock.increment (M.node i).nodeId := by
    rw [write_vectorClock, hclock]
  have hw : ((M.node i).written ((M.node i).writeClock x.1.vectorClock w) w).vectorClock =
      x.1.vectorClock.increment (M.node i).nodeId := by
    rw [(M.node i).written_clock w _ hown, hclock]
  have hpast : insert ((M.node i).nodeId, x.2.ticks + 1) x.2.node =
      (x.1.vectorClock.increment (M.node i).nodeId).past := by
    rw [Counters.past_increment, hx.node, hx.ticks]
  refine hx.assign ((M.node i).write_tasks _ _) rfl (hpast.trans (by rw [hw])) (by rw [hw, hvc])
    (writeClock_le w _) (by rw [hvc]; exact hpast) ?_ fun k hk => ?_
  · rw [hvc, Counters.get_increment, if_pos rfl, hx.ticks]
  · rw [hvc, Counters.get_increment, if_neg fun h => hk (M.distinct h)]
    exact hx.others k hk

/-- The start of a handler. -/
theorem Learns.run (hx : M.Learns i b x) (job : Job) :
    M.Learns i b ((M.node i).write x.1 (.run job),
      { x.2 with store := Function.update x.2.store job.taskId x.2.node }) := by
  have hvc : ((M.node i).write x.1 (.run job)).vectorClock = x.1.vectorClock :=
    (M.node i).write_vectorClock _ _
  have hw : ((M.node i).written x.1.vectorClock (.run job)).vectorClock = x.1.vectorClock :=
    (M.node i).written_clock _ _ rfl
  exact hx.assign ((M.node i).write_tasks x.1 (.run job)) rfl (hx.node.trans (congrArg Counters.past hw.symm))
    (by rw [hvc]; exact hw.le) (writeClock_le _ _) (by rw [hvc]; exact hx.node)
    (by rw [hvc]; exact hx.ticks) fun k hk => by rw [hvc]; exact hx.others k hk

/-- The acceptance of a record. -/
theorem Learns.take (hx : M.Learns i b x) {t : Str} {remote merged : TaskRecord}
    (hheard : heard t = remote.vectorClock.past)
    (hb : ∀ k, remote.vectorClock.get (M.node k).nodeId ≤ b k)
    (hm : x.1.tasks.get t = none ∧ x.1.tasks.size < (M.node i).maxTasks ∧ merged = remote ∨
      ∃ old, x.1.tasks.get t = some old ∧
        mergeRecords R old remote (M.node i).mergeKeyring = .ok merged) :
    M.Learns i b ((M.node i).learnWrite heard x (.take t remote merged)) := by
  have hvc : ((M.node i).write x.1 (.take t remote merged)).vectorClock =
      x.1.vectorClock ⊔ remote.vectorClock := (M.node i).write_vectorClock _ _
  have hmerged : merged.vectorClock ≤ x.1.vectorClock ⊔ remote.vectorClock := by
    rcases hm with ⟨-, -, rfl⟩ | ⟨old, hold, hm⟩
    · exact le_sup_right
    · exact (mergeRecords_clock hm).trans (sup_le_sup_right (hx.store t old hold).2 _)
  refine hx.assign (r := merged) ((M.node i).write_tasks _ _) rfl ?_ (by rw [hvc]; exact hmerged)
    (writeClock_le _ _) ?_ ?_ fun k hk => ?_
  · rcases hm with ⟨hn, -, rfl⟩ | ⟨old, hold, hm⟩
    · rw [hn]; exact hheard
    · rw [hold]
      simp only [hheard, (hx.store t old hold).1]
      exact mergeKnowledge_past hm
  · rw [hvc, Counters.past_sup, ← hx.node, ← hheard]
  · rw [hvc, Counters.get_sup, max_eq_left ((hb i).trans hx.base)]
    exact hx.ticks
  · rw [hvc, Counters.get_sup]
    exact max_le (hx.others k hk) (hb k)

/-- What is heard in a step is what the received records stem from. -/
def Hears (M : Mesh R ι) (b : ι → ℕ) (heard : Str → Increments) (e : Event) : Prop :=
  ∀ sender msg wallNow, e = .recv sender msg wallNow → ∀ y ∈ msg.tasks, ∀ r,
    TaskRecord.fromDict y.2 = .ok r → heard y.1 = r.vectorClock.past ∧
      ∀ k, r.vectorClock.get (M.node k).nodeId ≤ b k

/-- **A write keeps the clocks and what is known in step.** -/
theorem Learns.write {s : NodeState} {e : Event} (hh : M.Hears b heard e) (hx : M.Learns i b x)
    {w : Write} (hw : (M.node i).Made s e x.1 w) :
    M.Learns i b ((M.node i).learnWrite heard x w) := by
  obtain ⟨p, g⟩ := x
  cases hw with
  | submit => exact hx.tick rfl rfl
  | claim => exact hx.tick rfl rfl
  | claimRun => exact hx.run _
  | run => exact hx.run _
  | commit => exact hx.tick rfl rfl
  | sweep => exact hx.tick rfl rfl
  | resume => exact hx.tick rfl rfl
  | @take sender msg wallNow _ items item remote merged hi hm ha hmerge =>
    have hmem : item ∈ msg.tasks := by
      rw [Message.tasks, hi]
      exact hm
    obtain ⟨h1, h2⟩ := hh sender msg wallNow rfl item hmem remote
      (((M.node i).acceptedRecord_iff).1 ha).1
    exact hx.take h1 h2 hmerge

/-- The counters that the nodes have for themselves may have grown. -/
theorem Learns.rebase {b' : ι → ℕ} (hx : M.Learns i b x)
    (hi : b' i ≤ x.1.vectorClock.get (M.node i).nodeId) (hb : ∀ k, k ≠ i → b k ≤ b' k) :
    M.Learns i b' x :=
  ⟨hx.node, hx.store, hx.ticks, hi, fun k hk => (hx.others k hk).trans (hb k hk)⟩

/-! ## Steps of a node -/

variable {s : NodeState} {g : Knowledge} {e : Event}

theorem Learns.step (hh : M.Hears b heard e) (hx : M.Learns i b (s.toReplica, g))
    (hd : s.reclaim.Distinct) (he : ∀ cut, e ≠ .restart cut) :
    M.Learns i b (((M.node i).step s e).toReplica, (M.node i).learn heard s g e) := by
  have hmakes := (M.node i).step_makes hd he
  have hfst : ∀ x w, ((M.node i).learnWrite heard x w).1 = (M.node i).write x.1 w := fun _ _ => rfl
  have hrun := Along.invariant (I := M.Learns i b)
    (P := fun x w => (M.node i).Made s e x.1 w) (fun x w hx hw => Learns.write hh hx hw) hx
    (Along.of_map (x := (s.toReplica, g)) hfst hmakes.made)
  have hreplica : (Py.run ((M.node i).learnWrite heard) (s.toReplica, g)
      ((M.node i).writes s e)).1 = ((M.node i).step s e).toReplica :=
    (run_map hfst _ _).trans hmakes.result.symm
  obtain ⟨h1, h2, h3, h4, h5⟩ := hrun
  rw [hreplica] at h1 h2 h3 h4 h5
  exact ⟨h1, h2, h3, h4, h5⟩

theorem step_clock (hd : s.reclaim.Distinct) (he : ∀ cut, e ≠ .restart cut) :
    s.vectorClock ≤ ((M.node i).step s e).vectorClock :=
  ((M.node i).step_makes hd he).invariant (I := fun p => s.vectorClock ≤ p.vectorClock)
    (fun _ w h _ => h.trans (writeClock_le w _)) le_rfl

/-- The records in the messages of a node. -/
def Mailed (s : NodeState) (g : Knowledge) : Prop :=
  ∀ m ∈ s.messages, ∀ y ∈ m.tasks, ∀ r, TaskRecord.fromDict y.2 = .ok r →
    g.mail m y.1 = r.vectorClock.past ∧ r.vectorClock ≤ s.vectorClock

theorem Mailed.step (hm : Mailed s g) (hd : s.reclaim.Distinct) (he : ∀ cut, e ≠ .restart cut)
    (hx : M.Learns i b (((M.node i).step s e).toReplica, (M.node i).learn heard s g e)) :
    Mailed ((M.node i).step s e) ((M.node i).learn heard s g e) := by
  intro m hmem y hy r hr
  by_cases hold : m ∈ s.messages
  · have hmail : ((M.node i).learn heard s g e).mail m = g.mail m := if_pos hold
    obtain ⟨h1, h2⟩ := hm m hold y hy r hr
    rw [hmail]
    exact ⟨h1, h2.trans (step_clock hd he)⟩
  · have hmail : ((M.node i).learn heard s g e).mail m = ((M.node i).learn heard s g e).store :=
      if_neg hold
    obtain ⟨r', hdict, hget⟩ := (step_messages he m hmem).resolve_left hold y hy
    rw [hdict] at hr
    obtain ⟨-, rfl⟩ := r'.fromDict_toDict_iff.1 hr
    rw [hmail]
    exact hx.store _ _ hget

end

/-! ## The mesh -/

/-- The clocks of a mesh count what is known. -/
structure Encoded (x : (ι → NodeState) × (ι → Knowledge)) : Prop where
  learns : ∀ i, M.Learns i (fun k => (x.1 k).vectorClock.get (M.node k).nodeId)
    ((x.1 i).toReplica, x.2 i)
  mailed : ∀ i, Mailed (x.1 i) (x.2 i)
  distinct : ∀ i, (x.1 i).reclaim.Distinct

section
variable {M} {x : (ι → NodeState) × (ι → Knowledge)} {e : MeshEvent ι}

/-- No node has a larger counter for a node than the node itself. -/
theorem Encoded.counter_le (hx : M.Encoded x) (i k : ι) : (x.1 i).vectorClock.get (M.node k).nodeId ≤
    (x.1 k).vectorClock.get (M.node k).nodeId := by
  by_cases hk : k = i
  · rw [hk]
  · exact (hx.learns i).others k hk

/-- What is heard is what the sender knew when it made the message. -/
theorem heard_recv {s : ι → NodeState} (g : ι → Knowledge) {i : ι} {sender : Str} {msg : Message}
    {wallNow : ℚ} (h : M.occurs s e = some (i, .recv sender msg wallNow)) :
    ∃ j, msg ∈ (s j).messages ∧ heard s g e = (g j).mail msg := by
  cases e with
  | act i' e' => cases e' <;> simp [occurs] at h
  | deliver j i' k now =>
    simp only [occurs] at h
    cases hk : (s j).sent[k]? with
    | none => simp [hk] at h
    | some y =>
      simp only [hk] at h
      split_ifs at h
      simp only [Option.some.injEq, Prod.mk.injEq, Event.recv.injEq] at h
      obtain ⟨-, -, rfl, -⟩ := h
      refine ⟨j, mem_messages.2 (Or.inl (List.mem_map_of_mem (List.mem_of_getElem? hk))), ?_⟩
      simp only [heard, hk]

theorem Encoded.hears (hx : M.Encoded x) {i : ι} {e' : Event} (ho : M.occurs x.1 e = some (i, e')) :
    M.Hears (fun k => (x.1 k).vectorClock.get (M.node k).nodeId) (heard x.1 x.2 e) e' := by
  rintro sender msg wallNow rfl y hy r hr
  obtain ⟨j, hmem, hheard⟩ := heard_recv x.2 ho
  obtain ⟨h1, h2⟩ := hx.mailed j msg hmem y hy r hr
  exact ⟨hheard ▸ h1, fun k => (h2 _).trans (hx.counter_le j k)⟩

theorem Encoded.initial : M.Encoded (M.initial, unknowing) where
  learns i := by
    have hclock : ∀ k, (M.initial k).vectorClock = .zero := fun k => initial_replica.2.1
    have htasks : (M.initial i).tasks = .empty := initial_replica.1
    refine ⟨?_, fun t r hr => ?_, ?_, ?_, fun k _ => ?_⟩
    · simp only [hclock]
      exact Counters.past_zero.symm
    · simp [htasks] at hr
    · simp only [hclock, Counters.get_zero]
      rfl
    · simp only [hclock]
      exact le_rfl
    · simp only [hclock, Counters.get_zero]
      exact le_rfl
  mailed i m hm := by
    rw [show (M.initial i).messages = [] from boot_messages _ _] at hm
    cases hm
  distinct _ := initial_distinct

/-- Whatever has a clock stems from the increments that the clock counts. -/
theorem Encoded.observed (hx : M.Encoded x) {κ : Increments} {c : VectorClock}
    (h : Observed x κ c) : κ = c.past := by
  cases h with
  | node i => exact (hx.learns i).node
  | stored h => exact ((hx.learns _).store _ _ h).1
  | inFlight hm hv hr => exact (hx.mailed _ _ hm _ hv _ hr).1

variable [DecidableEq ι]

theorem Encoded.step (hx : M.Encoded x) (he : e.isRestart = false) : M.Encoded (M.observe x e) := by
  unfold observe Mesh.step
  cases ho : M.occurs x.1 e with
  | none => exact hx
  | some y =>
    obtain ⟨i, e'⟩ := y
    have hr : ∀ cut, e' ≠ .restart cut := by
      rintro cut rfl
      simp [occurs_restart ho] at he
    have hlearns := (hx.learns i).step (hx.hears ho) (hx.distinct i) hr
    have hclock : (x.1 i).vectorClock ≤ ((M.node i).step (x.1 i) e').vectorClock :=
      step_clock (hx.distinct i) hr
    refine ⟨fun j => ?_, fun j => ?_, fun j => ?_⟩
    · by_cases hj : j = i
      · subst hj
        simp only [Function.update_self]
        refine hlearns.rebase (by rw [Function.update_self]) fun k hk => ?_
        rw [Function.update_of_ne hk]
      · simp only [Function.update_of_ne hj]
        refine (hx.learns j).rebase (by rw [Function.update_of_ne hj]) fun k hk => ?_
        by_cases hki : k = i
        · subst hki
          rw [Function.update_self]
          exact hclock _
        · rw [Function.update_of_ne hki]
    · by_cases hj : j = i
      · subst hj
        simp only [Function.update_self]
        exact (hx.mailed j).step (hx.distinct j) hr hlearns
      · simp only [Function.update_of_ne hj]
        exact hx.mailed j
    · by_cases hj : j = i
      · subst hj
        simp only [Function.update_self]
        exact step_distinct (hx.distinct j)
      · simp only [Function.update_of_ne hj]
        exact hx.distinct j

theorem Encoded.run (hx : M.Encoded x) {es : List (MeshEvent ι)}
    (hes : ∀ e ∈ es, e.isRestart = false) : M.Encoded (Py.run M.observe x es) := by
  induction es generalizing x with
  | nil => exact hx
  | cons e es ih =>
    exact ih (hx.step (hes e (by simp))) fun e' he' => hes e' (List.mem_cons_of_mem _ he')

theorem Encoded.clock_le (hx : M.Encoded x) (he : e.isRestart = false) (i : ι) :
    (x.1 i).vectorClock ≤ ((M.observe x e).1 i).vectorClock := by
  unfold observe Mesh.step
  cases ho : M.occurs x.1 e with
  | none => exact le_rfl
  | some y =>
    obtain ⟨j, e'⟩ := y
    have hr : ∀ cut, e' ≠ .restart cut := by
      rintro cut rfl
      simp [occurs_restart ho] at he
    by_cases hj : i = j
    · subst hj
      simp only [Function.update_self]
      exact step_clock (hx.distinct i) hr
    · simp only [Function.update_of_ne hj]
      exact le_rfl

/-- The clock of a node does not regress in a run. -/
theorem Encoded.clock_le_run (hx : M.Encoded x) {es : List (MeshEvent ι)}
    (hes : ∀ e ∈ es, e.isRestart = false) (i : ι) :
    (x.1 i).vectorClock ≤ ((Py.run M.observe x es).1 i).vectorClock := by
  induction es generalizing x with
  | nil => exact le_rfl
  | cons e es ih =>
    have he := hes e (by simp)
    exact (hx.clock_le he i).trans
      (ih (hx.step he) fun e' he' => hes e' (List.mem_cons_of_mem _ he'))

end

/-- Comparing clocks is comparing what they count. -/
theorem compare_past (c d : VectorClock) :
    (c.compare d = .equal ↔ c.past = d.past) ∧ (c.compare d = .before ↔ c.past ⊂ d.past) ∧
      (c.compare d = .after ↔ d.past ⊂ c.past) ∧
      (c.compare d = .concurrent ↔ ¬ c.past ⊆ d.past ∧ ¬ d.past ⊆ c.past) := by
  rw [VectorClock.compare_eq, Counters.past_inj, ssubset_iff_subset_not_subset,
    ssubset_iff_subset_not_subset, Counters.past_subset, Counters.past_subset,
    le_antisymm_iff (a := c) (b := d)]
  by_cases h1 : c ≤ d <;> by_cases h2 : d ≤ c <;> simp [h1, h2]

/-- **Vector clocks encode what was observed.**  In every run of a mesh without restarts, of a node, a
    stored record or a record in a message: it stems from the `n`-th increment of `p` exactly if its
    clock has at least `n` for `p`.  So comparing two clocks is comparing what they stem from; and the
    clock of a node never regresses. -/
theorem clocks_encode [DecidableEq ι] {es fs : List (MeshEvent ι)} (hes : ∀ e ∈ es ++ fs, e.isRestart = false) :
    (∀ κ c, Observed (run M.observe (M.initial, unknowing) es) κ c →
      ∀ p n, 1 ≤ n → ((p, n) ∈ κ ↔ n ≤ c.get p)) ∧
    (∀ κ c κ' c', Observed (run M.observe (M.initial, unknowing) es) κ c →
      Observed (run M.observe (M.initial, unknowing) es) κ' c' →
      (c.compare c' = .equal ↔ κ = κ') ∧ (c.compare c' = .before ↔ κ ⊂ κ') ∧
        (c.compare c' = .after ↔ κ' ⊂ κ) ∧
        (c.compare c' = .concurrent ↔ ¬ κ ⊆ κ' ∧ ¬ κ' ⊆ κ)) ∧
    ∀ i, (run M.step M.initial es i).vectorClock ≤
      (run M.step M.initial (es ++ fs) i).vectorClock := by
  have hleft : ∀ e ∈ es, e.isRestart = false := fun e he => hes e (List.mem_append_left _ he)
  have hright : ∀ e ∈ fs, e.isRestart = false := fun e he => hes e (List.mem_append_right _ he)
  have henc := (Encoded.initial (M := M)).run hleft
  refine ⟨fun κ c h p n hn => ?_, fun κ c κ' c' h h' => ?_, fun i => ?_⟩
  · rw [henc.observed h, Counters.mem_past]
    exact and_iff_right hn
  · rw [henc.observed h, henc.observed h']
    exact compare_past c c'
  · have hmap : ∀ es, (run M.observe (M.initial, unknowing) es).1 = run M.step M.initial es :=
      fun es => run_map (f := Prod.fst) (fun _ _ => rfl) es _
    have hle := henc.clock_le_run hright i
    rwa [← run_append, hmap, hmap] at hle

theorem clocks_encode_claims :
    (∀ κ c, Observed (run Sample.pair.observe (Sample.pair.initial, unknowing) Sample.bothClaim) κ c →
      ∀ p n, 1 ≤ n → ((p, n) ∈ κ ↔ n ≤ c.get p)) ∧
    (run Sample.pair.step Sample.pair.initial Sample.bothClaim true).vectorClock.get (str "a") = 1 := by
  have hes : ∀ e ∈ Sample.bothClaim ++ [], e.isRestart = false := by
    rw [List.append_nil]
    exact Sample.bothClaim_alive
  exact ⟨(Sample.pair.clocks_encode hes).1, by decide⟩

end Mesh

end PeerQ
