/-
  Runs of a deterministic step function over a list of events, and what holds
  along them.

  `Along P step s es`: every step of the run meets `P`.  An invariant that steps
  meeting `P` keep holds at the end of such a run (`Along.invariant`), and
  whatever an invariant implies of the next step holds at every step
  (`Along.mono`).  `trace` collects what the steps put out.
-/
import Mathlib

namespace Py

variable {σ ε : Type}

/-- The state after the events. -/
def run (step : σ → ε → σ) (s : σ) (es : List ε) : σ := es.foldl step s

@[simp] theorem run_nil (step : σ → ε → σ) (s : σ) : run step s [] = s := rfl

@[simp] theorem run_cons (step : σ → ε → σ) (s : σ) (e : ε) (es : List ε) :
    run step s (e :: es) = run step (step s e) es := rfl

theorem run_concat (step : σ → ε → σ) (s : σ) (es : List ε) (e : ε) :
    run step s (es ++ [e]) = step (run step s es) e := by simp [run]

theorem run_append (step : σ → ε → σ) (s : σ) (es fs : List ε) :
    run step s (es ++ fs) = run step (run step s es) fs := List.foldl_append

/-- A map that commutes with the steps commutes with the runs. -/
theorem run_map {τ : Type} {f : τ → σ} {step : σ → ε → σ} {step' : τ → ε → τ}
    (hf : ∀ x e, f (step' x e) = step (f x) e) (es : List ε) (x : τ) :
    f (run step' x es) = run step (f x) es := by
  induction es generalizing x with
  | nil => rfl
  | cons e es ih => rw [run_cons, run_cons, ih, hf]

/-- What the steps of a run put out, in order. -/
def trace {ω : Type} (out : σ → ε → List ω) (step : σ → ε → σ) : σ → List ε → List ω
  | _, [] => []
  | s, e :: es => out s e ++ trace out step (step s e) es

theorem trace_concat {ω : Type} (out : σ → ε → List ω) (step : σ → ε → σ) (s : σ) (es : List ε)
    (e : ε) : trace out step s (es ++ [e]) = trace out step s es ++ out (run step s es) e := by
  induction es generalizing s with
  | nil => simp [trace]
  | cons e' es ih => rw [List.cons_append, trace, trace, ih, run_cons, List.append_assoc]

/-- An invariant of the state and of what was put out so far. -/
theorem trace_invariant {ω : Type} {out : σ → ε → List ω} {step : σ → ε → σ}
    {I : List ω → σ → Prop} (hI : ∀ h s e, I h s → I (h ++ out s e) (step s e)) (es : List ε)
    {h : List ω} {s : σ} (hs : I h s) : I (h ++ trace out step s es) (run step s es) := by
  induction es generalizing h s with
  | nil => simpa [trace] using hs
  | cons e es ih =>
    rw [trace, ← List.append_assoc, run_cons]
    exact ih (hI h s e hs)

/-- Every step of the run meets `P`. -/
def Along (P : σ → ε → Prop) (step : σ → ε → σ) : σ → List ε → Prop
  | _, [] => True
  | s, e :: es => P s e ∧ Along P step (step s e) es

variable {P Q : σ → ε → Prop} {step : σ → ε → σ} {I : σ → Prop}

/-- An invariant of the steps that meet `P` holds after a run of such steps. -/
theorem Along.invariant (hI : ∀ s e, I s → P s e → I (step s e)) :
    ∀ {es : List ε} {s : σ}, I s → Along P step s es → I (run step s es)
  | [], _, h, _ => h
  | e :: _, s, h, ha => Along.invariant hI (s := step s e) (hI s e h ha.1) ha.2

/-- What the invariant and `P` imply of a step holds at every step. -/
theorem Along.mono (hI : ∀ s e, I s → P s e → I (step s e)) (hQ : ∀ s e, I s → P s e → Q s e) :
    ∀ {es : List ε} {s : σ}, I s → Along P step s es → Along Q step s es
  | [], _, _, _ => trivial
  | e :: _, s, h, ha => ⟨hQ s e h ha.1, Along.mono hI hQ (s := step s e) (hI s e h ha.1) ha.2⟩

/-- Equivalent conditions on steps are equivalent along runs. -/
theorem Along.congr (h : ∀ s e, P s e ↔ Q s e) :
    ∀ {es : List ε} {s : σ}, Along P step s es ↔ Along Q step s es
  | [], _ => Iff.rfl
  | _ :: _, _ => and_congr (h _ _) (Along.congr h)

/-- Conditions that are equivalent as long as an invariant holds that the first one carries on. -/
theorem Along.iff_of_invariant {C : σ → ε → Prop} (h : ∀ s e, I s → C s e → (P s e ↔ Q s e))
    (hI : ∀ s e, I s → C s e → P s e → I (step s e)) : ∀ {es : List ε} {s : σ}, I s →
    Along C step s es → (Along P step s es ↔ Along Q step s es)
  | [], _, _, _ => Iff.rfl
  | e :: es, s, hs, hc => by
    refine ⟨fun hp => ?_, fun hq => ?_⟩
    · refine ⟨(h s e hs hc.1).1 hp.1, ?_⟩
      exact (Along.iff_of_invariant h hI (hI s e hs hc.1 hp.1) hc.2).1 hp.2
    · have hp := (h s e hs hc.1).2 hq.1
      exact ⟨hp, (Along.iff_of_invariant h hI (hI s e hs hc.1 hp) hc.2).2 hq.2⟩

theorem Along.append : ∀ {es fs : List ε} {s : σ},
    Along P step s (es ++ fs) ↔ Along P step s es ∧ Along P step (run step s es) fs
  | [], _, _ => (true_and _).symm.to_iff
  | _ :: _, _, _ => (and_congr_right' Along.append).trans and_assoc.symm

theorem Along.and : ∀ {es : List ε} {s : σ}, Along P step s es → Along Q step s es →
    Along (fun s e => P s e ∧ Q s e) step s es
  | [], _, _, _ => trivial
  | _ :: _, _, h, h' => ⟨⟨h.1, h'.1⟩, h.2.and h'.2⟩

/-- What holds along a run holds along one that is mapped to it. -/
theorem Along.of_map {τ : Type} {f : τ → σ} {step' : τ → ε → τ}
    (hf : ∀ x e, f (step' x e) = step (f x) e) : ∀ {es : List ε} {x : τ},
    Along P step (f x) es → Along (fun x e => P (f x) e) step' x es
  | [], _, _ => trivial
  | e :: _, x, h => ⟨h.1, Along.of_map hf (by rw [hf x e]; exact h.2)⟩

/-- Every event of the run meets the condition in some state. -/
theorem Along.exists_of_mem : ∀ {es : List ε} {s : σ}, Along P step s es → ∀ e ∈ es, ∃ s', P s' e
  | _ :: _, s, h, _, hm => (List.mem_cons.1 hm).elim (fun he => ⟨s, he ▸ h.1⟩)
      fun hm => h.2.exists_of_mem _ hm

/-- What holds of the events holds along a run of them. -/
theorem Along.of_mem {C : ε → Prop} : ∀ {es : List ε} {s : σ}, (∀ e ∈ es, C e) →
    Along (fun _ e => C e) step s es
  | [], _, _ => trivial
  | _ :: _, _, h => ⟨h _ (by simp), Along.of_mem fun e he => h e (by simp [he])⟩

/-- Events that all meet a condition meet it along a run. -/
theorem Along.of_forall (h : ∀ s, ∀ e, P s e) : ∀ {es : List ε} {s : σ}, Along P step s es
  | [], _ => trivial
  | _ :: _, _ => ⟨h _ _, Along.of_forall h⟩

end Py
