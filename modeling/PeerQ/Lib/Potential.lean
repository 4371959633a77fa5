/-
  The potential method for runs of a step function.

  `runSum count step s es` adds up what `count` says of the steps of a run.  If no
  step does more work than the potential it uses up and the credit it brings in,
  the same holds of the run (`runSum_potential`).
-/
import PeerQ.Lib.Runs

namespace Py

variable {σ ε : Type}

/-- The sum of a count along a run. -/
def runSum (count : σ → ε → ℕ) (step : σ → ε → σ) : σ → List ε → ℕ
  | _, [] => 0
  | s, e :: es => count s e + runSum count step (step s e) es

theorem runSum_mul (c : ℕ) (count : σ → ε → ℕ) (step : σ → ε → σ) : ∀ (s : σ) (es : List ε),
    runSum (fun s e => c * count s e) step s es = c * runSum count step s es
  | _, [] => rfl
  | s, e :: es => by rw [runSum, runSum, runSum_mul c count step _ es, Nat.mul_add]

/-- **The potential method**: the work of a run is paid by the potential it starts from and the credit
    of its steps. -/
theorem runSum_potential {work credit : σ → ε → ℕ} {step : σ → ε → σ} {potential : σ → ℕ} :
    ∀ {es : List ε} {s : σ},
      Along (fun s e => work s e + potential (step s e) ≤ potential s + credit s e) step s es →
      runSum work step s es + potential (run step s es) ≤ potential s + runSum credit step s es
  | [], s, _ => by simp [runSum]
  | e :: es, s, h => by
    have hstep := h.1
    have hrest := runSum_potential h.2
    simp only [runSum, run_cons]
    omega

/-- What holds at every step of a run, from the states on the way. -/
theorem Along.of_inits {P : σ → ε → Prop} {I : σ → Prop} {step : σ → ε → σ}
    (h : ∀ s e, I s → P s e) : ∀ {es : List ε} {s : σ},
    (∀ pre, pre <+: es → I (run step s pre)) → Along P step s es
  | [], _, _ => trivial
  | e :: es, s, hI => by
    refine ⟨h s e (hI [] List.nil_prefix), Along.of_inits h fun pre hpre => ?_⟩
    exact hI (e :: pre) (List.cons_prefix_cons.2 ⟨rfl, hpre⟩)

end Py
