/-
  A mesh: nodes with distinct ids over a network that may lose, delay, reorder
  and repeat messages.

  A step of the mesh is a step of one node (`occurs`).  What a node receives is
  a message that some node has handed to the transport for it, at any later time
  and any number of times; every other step is one of the node itself.
-/
import PeerQ.Node.Outbox

namespace PeerQ

open Py PeerNode

structure Mesh (R : Runtime) (ι : Type) where
  node : ι → PeerNode R
  distinct : Function.Injective fun i => (node i).nodeId

/-- What can happen in a mesh: a node takes a step of its own, or the `k`-th message that `sender`
    has sent reaches `receiver`. -/
inductive MeshEvent (ι : Type) where
  | act (i : ι) (e : Event)
  | deliver (sender receiver : ι) (k : ℕ) (wallNow : ℚ)

/-- A node crashes and restarts. -/
def MeshEvent.isRestart {ι : Type} : MeshEvent ι → Bool
  | .act _ (.restart _) => true
  | _ => false

namespace Mesh

variable {R : Runtime} {ι : Type} (M : Mesh R ι)

/-- The step of a node that an event is; messages come from the network only, to the peer they are
    addressed to. -/
def occurs (s : ι → NodeState) : MeshEvent ι → Option (ι × Event)
  | .act _ (.recv ..) => none
  | .act i e => some (i, e)
  | .deliver j i k wallNow =>
    match (s j).sent[k]? with
    | some (peer, msg) =>
      if peer = (M.node i).nodeId then some (i, .recv (M.node j).nodeId msg wallNow) else none
    | none => none

section
variable {M} {s : ι → NodeState} {e : MeshEvent ι} {i : ι}

/-- A received message was sent by a node. -/
theorem occurs_recv {sender : Str} {msg : Message} {wallNow : ℚ}
    (h : M.occurs s e = some (i, .recv sender msg wallNow)) :
    ∃ j, sender = (M.node j).nodeId ∧ ((M.node i).nodeId, msg) ∈ (s j).sent := by
  cases e with
  | act i' e' => cases e' <;> simp [occurs] at h
  | deliver j i' k now =>
    simp only [occurs] at h
    cases hk : (s j).sent[k]? with
    | none => simp [hk] at h
    | some x =>
      simp only [hk] at h
      split_ifs at h with hp
      simp only [Option.some.injEq, Prod.mk.injEq, Event.recv.injEq] at h
      obtain ⟨rfl, rfl, rfl, -⟩ := h
      exact ⟨j, rfl, hp ▸ List.mem_of_getElem? hk⟩

theorem occurs_restart {cut : ℕ} (h : M.occurs s e = some (i, .restart cut)) :
    e.isRestart = true := by
  cases e with
  | act i' e' =>
    cases e' <;> simp only [occurs, Option.some.injEq, Prod.mk.injEq, reduceCtorEq, and_false] at h
    rfl
  | deliver j i' k now =>
    simp only [occurs] at h
    cases hk : (s j).sent[k]? with
    | none => simp [hk] at h
    | some x =>
      simp only [hk] at h
      split_ifs at h
      simp at h

end

variable [DecidableEq ι]

def step (s : ι → NodeState) (e : MeshEvent ι) : ι → NodeState :=
  match M.occurs s e with
  | some (i, e) => Function.update s i ((M.node i).step (s i) e)
  | none => s

def initial : ι → NodeState := fun i => (M.node i).initial

/-- The writes of a step, each with the node that makes it. -/
def writes (s : ι → NodeState) (e : MeshEvent ι) : List (ι × Write) :=
  match M.occurs s e with
  | some (i, e) => ((M.node i).writes (s i) e).map fun w => (i, w)
  | none => []

/-- The writes of a run, in the order in which they are made. -/
def history : (ι → NodeState) → List (MeshEvent ι) → List (ι × Write)
  | _, [] => []
  | s, e :: es => M.writes s e ++ history (M.step s e) es

/-- **A step of the mesh** without restarts is a step of one node, which receives what some node has
    sent, or nothing happens. -/
theorem step_cases {s : ι → NodeState} {e : MeshEvent ι} (he : e.isRestart = false) :
    (M.step s e = s ∧ M.writes s e = []) ∨ ∃ i e', M.occurs s e = some (i, e') ∧
      M.step s e = Function.update s i ((M.node i).step (s i) e') ∧
      M.writes s e = ((M.node i).writes (s i) e').map (fun w => (i, w)) ∧
      (∀ cut, e' ≠ .restart cut) ∧
      ∀ sender msg wallNow, e' = .recv sender msg wallNow → ∃ j, msg ∈ (s j).messages := by
  unfold step writes
  cases ho : M.occurs s e with
  | none => exact Or.inl ⟨rfl, rfl⟩
  | some x =>
    obtain ⟨i, e'⟩ := x
    refine Or.inr ⟨i, e', rfl, rfl, rfl, ?_, ?_⟩
    · rintro cut rfl
      simp [occurs_restart ho] at he
    · rintro sender msg wallNow rfl
      obtain ⟨j, -, hm⟩ := occurs_recv ho
      exact ⟨j, mem_messages.2 (Or.inl (List.mem_map_of_mem hm))⟩

/-- **An invariant of a mesh** and its history: it holds initially, and the steps of single nodes
    keep it. -/
theorem history_invariant {I : List (ι × Write) → (ι → NodeState) → Prop}
    {P : List (ι × Write) → Prop} (hP : ∀ h h', P (h ++ h') → P h)
    (hI : ∀ h s i e, I h s → (∀ cut, e ≠ .restart cut) →
      (∀ sender msg wallNow, e = .recv sender msg wallNow → ∃ j, msg ∈ (s j).messages) →
      P (h ++ ((M.node i).writes (s i) e).map (fun w => (i, w))) →
      I (h ++ ((M.node i).writes (s i) e).map (fun w => (i, w)))
        (Function.update s i ((M.node i).step (s i) e))) :
    ∀ {es : List (MeshEvent ι)} {h : List (ι × Write)} {s : ι → NodeState}, I h s →
      (∀ e ∈ es, e.isRestart = false) → P (h ++ M.history s es) →
      I (h ++ M.history s es) (run M.step s es)
  | [], h, s, hs, _, _ => by simpa [history] using hs
  | e :: es, h, s, hs, hes, hp => by
    have hes' : ∀ e ∈ es, e.isRestart = false := fun e' he' => hes e' (List.mem_cons_of_mem _ he')
    rw [history, ← List.append_assoc] at hp ⊢
    rw [run_cons]
    refine history_invariant hP hI ?_ hes' hp
    obtain ⟨hstep, hw⟩ | ⟨i, e', -, hstep, hw, hr, hrecv⟩ :=
      M.step_cases (s := s) (hes e (by simp))
    · rw [hstep, hw]
      simpa using hs
    · have hfirst := hP _ _ hp
      rw [hw] at hfirst
      rw [hstep, hw]
      exact hI h s i e' hs hr hrecv hfirst

/-! ## Two nodes -/

namespace Sample

/-- The nodes `a` and `c` with workers and without security. -/
noncomputable def pair : Mesh PeerNode.Sample.runtime Bool where
  node b :=
    { (if b then PeerNode.Sample.nodeC else PeerNode.Sample.nodeA) with
      hasHandler := true, security := { SecurityConfig.default with enabled := false } }
  distinct := by
    intro b c h
    revert h
    cases b <;> cases c <;> decide +kernel

/-- A task is submitted to `a`, gossiped to `c`, and claimed by both. -/
def bothClaim : List (MeshEvent Bool) :=
  [.act false (.submit (str "t") [] 0), .act false (.gossipRound (str "c") 0 (str "n")),
   .deliver false true 0 0, .act false (.workerGet 0 0 0 (fun _ => false) (str "n")),
   .act true (.workerGet 0 0 0 (fun _ => false) (str "n"))]

theorem bothClaim_alive : ∀ e ∈ bothClaim, e.isRestart = false := by
  intro e he
  simp only [bothClaim, List.mem_cons, List.not_mem_nil, or_false] at he
  rcases he with rfl | rfl | rfl | rfl | rfl <;> rfl

end Sample

end Mesh

end PeerQ
