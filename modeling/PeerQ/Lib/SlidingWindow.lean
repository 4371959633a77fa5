/-
  Sliding windows: of the events at the times of a list, at most `n` in any `w`.

  The log keeps the times that were admitted and may still count.  As long as
  time does not go back, it is made up of all admitted times in the window that
  ends now (`live_eq`), so no window of length `w` has more than `n` of them,
  wherever it ends (`countP_admitted_le`), and what is refused is one too many
  (`countP_admitted_of_refused`).
-/
import PeerQ.Lib.Runs

namespace SlidingWindow

open Py

variable {K : Type} [AddCommGroup K] [LinearOrder K] (n : ℕ) (w : K)

/-- The log without the times that have left the window that ends at `t`. -/
def live (log : List K) (t : K) : List K := log.dropWhile fun u => u < t - w

/-- An event at `t` is admitted. -/
def admits (log : List K) (t : K) : Bool := (live w log t).length < n

/-- The log after an event at `t`. -/
def record (log : List K) (t : K) : List K :=
  live w log t ++ if admits n w log t then [t] else []

/-- The times that are admitted, from an empty log on. -/
def admitted (ts : List K) : List K :=
  trace (fun log t => if admits n w log t then [t] else []) (record n w) [] ts

variable {n w}

theorem length_record_le {log : List K} {t : K} (h : log.length ≤ n) :
    (record n w log t).length ≤ n := by
  have hlive : (live w log t).length ≤ log.length := (List.dropWhile_sublist _).length_le
  unfold record
  split_ifs with ha
  · have hlt := of_decide_eq_true ha
    rw [List.length_append, List.length_singleton]
    omega
  · rw [List.append_nil]
    exact hlive.trans h

theorem admitted_concat (ts : List K) (t : K) : admitted n w (ts ++ [t]) =
    admitted n w ts ++ if admits n w (run (record n w) [] ts) t then [t] else [] :=
  trace_concat _ _ _ _ _

theorem admitted_sublist (ts : List K) : (admitted n w ts).Sublist ts := by
  induction ts using List.reverseRecOn with
  | nil => exact List.Sublist.refl _
  | append_singleton ts t ih =>
    rw [admitted_concat]
    refine ih.append ?_
    split_ifs
    exacts [List.Sublist.refl _, List.nil_sublist _]

omit [AddCommGroup K] in
/-- In a list in order, the small elements come first. -/
theorem dropWhile_lt {l : List K} (h : l.Pairwise (· ≤ ·)) (c : K) :
    l.dropWhile (fun u => u < c) = l.filter fun u => c ≤ u := by
  induction l with
  | nil => rfl
  | cons u l ih =>
    obtain ⟨hu, hl⟩ := List.pairwise_cons.1 h
    by_cases hc : c ≤ u
    · have hall : ∀ x ∈ u :: l, decide (c ≤ x) = true := by
        intro x hx
        obtain rfl | hx := List.mem_cons.1 hx
        exacts [decide_eq_true hc, decide_eq_true (hc.trans (hu x hx))]
      rw [List.filter_eq_self.2 hall, List.dropWhile_cons_of_neg (by simpa using hc)]
    · rw [List.dropWhile_cons_of_pos (by simpa using hc), ih hl,
        List.filter_cons_of_neg (by simpa using hc)]

variable [IsOrderedAddMonoid K]

/-- **What is in the log**: the admitted times in the window that ends now. -/
theorem live_eq (hw : 0 ≤ w) {ts : List K} (h : ts.Pairwise (· ≤ ·)) {t : K}
    (ht : ∀ u ∈ ts, u ≤ t) :
    live w (run (record n w) [] ts) t = (admitted n w ts).filter fun u => t - w ≤ u := by
  induction ts using List.reverseRecOn generalizing t with
  | nil => rfl
  | append_singleton ts v ih =>
    obtain ⟨hts, -, hv⟩ := List.pairwise_append.1 h
    have hlog : run (record n w) [] (ts ++ [v]) =
        (admitted n w (ts ++ [v])).filter fun u => v - w ≤ u := by
      rw [run_concat, record, ih hts fun u hu => hv u hu v (by simp), admitted_concat,
        List.filter_append]
      split_ifs
      · rw [List.filter_cons_of_pos (by simpa using hw), List.filter_nil]
      · rfl
    have hsorted := (h.sublist (admitted_sublist (n := n) (w := w) _)).filter fun u => v - w ≤ u
    rw [live, hlog, dropWhile_lt hsorted, List.filter_filter]
    -- What was dropped before is outside of the window now.
    have hle : v - w ≤ t - w := sub_le_sub_right (ht v (by simp)) w
    refine List.filter_congr fun u _ => ?_
    rw [← Bool.decide_and]
    exact decide_eq_decide.2 ⟨fun hu => hu.1, fun hu => ⟨hu, hle.trans hu⟩⟩

/-- **No window has too many**, also where it does not end at an event. -/
theorem countP_admitted_le (hw : 0 ≤ w) {ts : List K} (h : ts.Pairwise (· ≤ ·)) (t : K) :
    (admitted n w ts).countP (fun u => t ≤ u ∧ u ≤ t + w) ≤ n := by
  induction ts using List.reverseRecOn with
  | nil => exact Nat.zero_le n
  | append_singleton ts v ih =>
    obtain ⟨hts, -, hv⟩ := List.pairwise_append.1 h
    rw [admitted_concat, List.countP_append]
    split_ifs with ha
    swap
    · exact ih hts
    by_cases hin : t ≤ v ∧ v ≤ t + w
    · -- The others in the window are still in the log at the last one.
      have hlt := of_decide_eq_true ha
      rw [live_eq hw hts fun u hu => hv u hu v (by simp), ← List.countP_eq_length_filter] at hlt
      have hle : (admitted n w ts).countP (fun u => t ≤ u ∧ u ≤ t + w) ≤
          (admitted n w ts).countP fun u => v - w ≤ u := by
        refine List.countP_mono_left fun u _ hu => ?_
        exact decide_eq_true ((sub_le_iff_le_add.2 hin.2).trans (of_decide_eq_true hu).1)
      rw [List.countP_singleton, if_pos (decide_eq_true hin)]
      omega
    · rw [List.countP_singleton, if_neg (by simpa using hin)]
      exact ih hts

/-- **What is refused is one too many** in the window that ends at it. -/
theorem countP_admitted_of_refused (hw : 0 ≤ w) {ts : List K} {t : K}
    (h : (ts ++ [t]).Pairwise (· ≤ ·)) (ht : admits n w (run (record n w) [] ts) t = false) :
    (admitted n w ts).countP (fun u => t - w ≤ u ∧ u ≤ t) = n := by
  obtain ⟨hts, -, hle⟩ := List.pairwise_append.1 h
  have hbefore : ∀ u ∈ ts, u ≤ t := fun u hu => hle u hu t (by simp)
  have hwindow := countP_admitted_le (n := n) hw hts (t - w)
  rw [sub_add_cancel] at hwindow
  refine le_antisymm hwindow ?_
  have hfull := not_lt.1 (of_decide_eq_false ht)
  rw [live_eq hw hts hbefore, ← List.countP_eq_length_filter] at hfull
  refine hfull.trans (List.countP_mono_left fun u hu hin => ?_)
  exact decide_eq_true ⟨of_decide_eq_true hin, hbefore u ((admitted_sublist ts).subset hu)⟩

end SlidingWindow
