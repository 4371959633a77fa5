/-
  Sessions: what may happen on a channel between a node and one peer.

  A channel is opened by a peer, then it delivers messages of this peer, and
  after a failure nothing happens on it any more.  `Session.act` follows the acts
  of a channel; one that does not fit leads to `broken`.  Several channels share
  a history, of which each has its part (`actsOf`).
-/
import PeerQ.Lib.Runs

namespace Py

variable {α μ ι : Type}

/-- What happens on a channel. -/
inductive Act (α μ : Type) where
  | opened (peer : α) (msg : μ)
  | delivered (peer : α) (msg : μ)
  | failed

/-- The message that is delivered. -/
def Act.delivery : Act α μ → Option μ
  | .delivered _ msg => some msg
  | _ => none

/-- Where a channel stands. -/
inductive Session (α : Type) where
  | fresh
  | live (peer : α)
  | over
  | broken

namespace Session

variable [DecidableEq α]

def act : Session α → Act α μ → Session α
  | .fresh, .opened a _ => .live a
  | .fresh, .failed => .over
  | .live a, .delivered b _ => if a = b then .live a else .broken
  | .live _, .failed => .over
  | _, _ => .broken

variable {a b : α} {m : μ} {pre post : List (Act α μ)}

theorem run_broken (l : List (Act α μ)) : run act (.broken : Session α) l = .broken := by
  induction l with
  | nil => rfl
  | cons x l ih => exact ih

/-- Nothing happens on a channel that is over. -/
theorem run_over {x : Act α μ} : run act (.over : Session α) (x :: post) = .broken :=
  run_broken post

/-- A channel stays open to one peer. -/
theorem eq_of_run_live {l : List (Act α μ)} (h : run act (.live a) l = .live b) : b = a := by
  induction l with
  | nil =>
    cases h
    rfl
  | cons x l ih =>
    rw [run_cons] at h
    cases x with
    | opened p m => exact absurd ((run_broken l).symm.trans h) (by simp)
    | failed =>
      cases l with
      | nil => cases h
      | cons y l => exact absurd (run_over.symm.trans h) (by simp)
    | delivered p m =>
      simp only [act] at h
      split_ifs at h
      · exact ih h
      · exact absurd ((run_broken l).symm.trans h) (by simp)

/-- What an open channel delivers comes from its peer, and it was open all the time before. -/
theorem delivered_of_live (h : run act (.live a) (pre ++ .delivered b m :: post) ≠ .broken) :
    b = a ∧ ∀ x ∈ pre, ∃ m', x = .delivered a m' := by
  induction pre with
  | nil =>
    refine ⟨?_, by simp⟩
    by_contra hne
    simp only [List.nil_append, run_cons, act, if_neg (Ne.symm hne)] at h
    exact h (run_broken post)
  | cons x pre ih =>
    rw [List.cons_append, run_cons] at h
    cases x with
    | opened p m' => exact absurd (run_broken _) h
    | failed => cases pre <;> exact absurd run_over h
    | delivered p m' =>
      simp only [act] at h
      split_ifs at h with hp
      · obtain ⟨hb, hpre⟩ := ih h
        refine ⟨hb, List.forall_mem_cons.2 ⟨⟨m', ?_⟩, hpre⟩⟩
        rw [hp]
      · exact absurd (run_broken _) h

/-- **What comes before a delivery**: the channel was opened by the same peer, and all the rest are
    deliveries from it. -/
theorem opened_before (h : run act .fresh (pre ++ .delivered b m :: post) ≠ .broken) :
    ∃ m₀ rest, pre = .opened b m₀ :: rest ∧ ∀ x ∈ rest, ∃ m', x = .delivered b m' := by
  cases pre with
  | nil => exact absurd (run_broken post) h
  | cons x pre =>
    rw [List.cons_append, run_cons] at h
    cases x with
    | opened p m₀ =>
      obtain ⟨rfl, hpre⟩ := delivered_of_live h
      exact ⟨m₀, pre, rfl, hpre⟩
    | delivered p m' => exact absurd (run_broken _) h
    | failed => cases pre <;> exact absurd run_over h

end Session

/-! ## Several channels -/

variable [DecidableEq ι]

/-- The part of the channel `i` in a history. -/
def actsOf (i : ι) (h : List (ι × Act α μ)) : List (Act α μ) :=
  h.filterMap fun x => if x.1 = i then some x.2 else none

variable {i : ι} {h h' : List (ι × Act α μ)} {x : Act α μ}

theorem actsOf_append : actsOf i (h ++ h') = actsOf i h ++ actsOf i h' := List.filterMap_append

theorem actsOf_cons_self : actsOf i ((i, x) :: h) = x :: actsOf i h := by simp [actsOf]

theorem actsOf_single (i : ι) (l : List (Act α μ)) : actsOf i (l.map fun x => (i, x)) = l := by
  induction l with
  | nil => rfl
  | cons x l ih => rw [List.map_cons, actsOf_cons_self, ih]

theorem actsOf_other {j : ι} (hij : j ≠ i) (l : List (Act α μ)) :
    actsOf i (l.map fun x => (j, x)) = [] := by
  simp [actsOf, hij]

theorem actsOf_concat_self : actsOf i (h ++ [(i, x)]) = actsOf i h ++ [x] := by
  rw [actsOf_append, actsOf_cons_self]
  rfl

theorem actsOf_concat_other {j : ι} (hij : j ≠ i) : actsOf i (h ++ [(j, x)]) = actsOf i h := by
  simp [actsOf, hij]

theorem mem_actsOf : x ∈ actsOf i h ↔ (i, x) ∈ h := by
  simp only [actsOf, List.mem_filterMap, Option.ite_none_right_eq_some, Option.some.injEq]
  constructor
  · rintro ⟨⟨j, y⟩, hy, rfl, rfl⟩
    exact hy
  · intro hx
    exact ⟨_, hx, rfl, rfl⟩

end Py
