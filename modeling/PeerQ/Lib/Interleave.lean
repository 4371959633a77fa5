/-
  Systems of components that take their steps one at a time.

  An event of the system is a step of one component, which may depend on the
  state of the others, or nothing.  What a component goes through in a run of the
  system is a run of its own, on the steps that are its own (`run_interleave`).
-/
import PeerQ.Lib.Runs

namespace Py

variable {ι σ α ε : Type} [DecidableEq ι]
variable (step : ι → σ → α → σ) (occurs : (ι → σ) → ε → Option (ι × α))

/-- A step of the system. -/
def interleave (s : ι → σ) (e : ε) : ι → σ :=
  match occurs s e with
  | some (i, a) => Function.update s i (step i (s i) a)
  | none => s

/-- The step that an event is for the component `i`, if any. -/
def ownStep (i : ι) (s : ι → σ) (e : ε) : Option α :=
  match occurs s e with
  | some (j, a) => if j = i then some a else none
  | none => none

/-- The steps of the component `i` in a run of the system. -/
def stepsOf (i : ι) : (ι → σ) → List ε → List α
  | _, [] => []
  | s, e :: es => (ownStep occurs i s e).toList ++ stepsOf i (interleave step occurs s e) es

section
variable {step occurs} {i : ι} {s : ι → σ} {e : ε}

theorem ownStep_eq_some {a : α} : ownStep occurs i s e = some a ↔ occurs s e = some (i, a) := by
  unfold ownStep
  rcases occurs s e with _ | ⟨j, b⟩
  · simp
  · by_cases h : j = i <;> simp [h]

theorem interleave_apply :
    interleave step occurs s e i = run (step i) (s i) (ownStep occurs i s e).toList := by
  unfold interleave ownStep
  rcases occurs s e with _ | ⟨j, a⟩
  · rfl
  · by_cases h : j = i
    · subst h
      simp
    · simp [h, Function.update_of_ne (Ne.symm h)]

/-- **A run of the system is a run of each component** on its own steps. -/
theorem run_interleave : ∀ (es : List ε) (s : ι → σ),
    run (interleave step occurs) s es i = run (step i) (s i) (stepsOf step occurs i s es)
  | [], _ => rfl
  | e :: es, s => by
    rw [run_cons, stepsOf, run_append, run_interleave es, interleave_apply]

/-- What is asked of every step of the system that is one of the component `i` holds along its
    run. -/
theorem Along.stepsOf {P : (ι → σ) → ε → Prop} {Q : σ → α → Prop}
    (h : ∀ s e a, occurs s e = some (i, a) → P s e → Q (s i) a) : ∀ {es : List ε} {s : ι → σ},
    Along P (interleave step occurs) s es →
      Along Q (step i) (s i) (Py.stepsOf step occurs i s es)
  | [], _, _ => trivial
  | e :: es, s, hs => by
    have hrest := Along.stepsOf h hs.2
    rw [interleave_apply] at hrest
    rw [Py.stepsOf, Along.append]
    refine ⟨?_, hrest⟩
    cases ho : ownStep occurs i s e with
    | none => trivial
    | some a => exact ⟨h s e a (ownStep_eq_some.1 ho) hs.1, trivial⟩

end

end Py
