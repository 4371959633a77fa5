/-
  Refinement of an abstract machine with labelled steps by a step function that
  puts out labels.

  If every step of the function is matched by abstract steps with the labels that
  it puts out, so is every run (`trace_path`).  If every step is matched by one
  event of another machine or by none, every run is matched by one run of that
  machine, prefix by prefix (`run_matched`).
-/
import PeerQ.Lib.Runs

namespace Py

variable {σ ε α ω : Type} {A : α → ω → α → Prop}

/-- Abstract steps one after the other, with their labels. -/
inductive Path (A : α → ω → α → Prop) : α → List ω → α → Prop where
  | nil (a : α) : Path A a [] a
  | cons {a b c : α} {w : ω} {ws : List ω} : A a w b → Path A b ws c → Path A a (w :: ws) c

theorem Path.single {a b : α} {w : ω} (h : A a w b) : Path A a [w] b := .cons h (.nil b)

theorem Path.append {a b c : α} {ws vs : List ω} (h : Path A a ws b) (h' : Path A b vs c) :
    Path A a (ws ++ vs) c := by
  induction h with
  | nil a => exact h'
  | cons hstep _ ih => exact .cons hstep (ih h')

/-- **Simulation**: what holds of the steps holds of the runs. -/
theorem trace_path {out : σ → ε → List ω} {step : σ → ε → σ} {R : σ → α → Prop}
    (h : ∀ s a e, R s a → ∃ b, Path A a (out s e) b ∧ R (step s e) b) (es : List ε) {s : σ} {a : α}
    (hs : R s a) : ∃ b, Path A a (trace out step s es) b ∧ R (run step s es) b := by
  induction es generalizing s a with
  | nil => exact ⟨a, .nil a, hs⟩
  | cons e es ih =>
    obtain ⟨b, hpath, hb⟩ := h s a e hs
    obtain ⟨c, hrest, hc⟩ := ih hb
    exact ⟨c, hpath.append hrest, hc⟩

theorem reduceOption_concat (os : List (Option α)) (o : Option α) :
    (os ++ [o]).reduceOption = os.reduceOption ++ o.toList := by
  rw [List.reduceOption_append]
  cases o <;> rfl

/-- **Refinement with idle steps**: where each step is matched by one event or none, the prefixes of a
    run are matched by the prefixes of one list of such events. -/
theorem run_matched {step : σ → ε → σ} {F : σ → List α → Prop} {P : ε → α → Prop}
    (h : ∀ s as e, F s as → ∃ o : Option α, F (step s e) (as ++ o.toList) ∧ ∀ a ∈ o, P e a)
    {s : σ} (hs : F s []) (es : List ε) : ∃ os : List (Option α), os.length = es.length ∧
      (∀ k, F (run step s (es.take k)) (os.take k).reduceOption) ∧
      ∀ a ∈ os.reduceOption, ∃ e ∈ es, P e a := by
  induction es using List.reverseRecOn with
  | nil => exact ⟨[], rfl, fun k => by simpa using hs, by simp⟩
  | append_singleton es e ih =>
    obtain ⟨os, hlen, hos, hP⟩ := ih
    have hall : F (run step s es) os.reduceOption := by
      have hwhole := hos es.length
      rwa [List.take_length, ← hlen, List.take_length] at hwhole
    obtain ⟨o, ho, hnext⟩ := h _ _ e hall
    refine ⟨os ++ [o], by simp [hlen], fun k => ?_, fun a ha => ?_⟩
    · -- the prefixes are those of before, or the whole run
      rcases Nat.lt_or_ge es.length k with hk | hk
      · rw [List.take_of_length_le (by simpa using hk),
          List.take_of_length_le (by simpa [hlen] using hk), reduceOption_concat, run_concat]
        exact ho
      · rw [List.take_append_of_le_length hk, List.take_append_of_le_length (hlen ▸ hk)]
        exact hos k
    · rw [reduceOption_concat] at ha
      rcases List.mem_append.1 ha with ha | ha
      · obtain ⟨e', he', hPe⟩ := hP a ha
        exact ⟨e', List.mem_append_left _ he', hPe⟩
      · exact ⟨e, by simp, hnext a (Option.mem_toList.1 ha)⟩

end Py
