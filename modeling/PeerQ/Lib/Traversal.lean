/-
  Walking through a tree with an explicit stack.

  A round of the loop pops a node, looks at it, which changes a state or fails,
  and pushes its children.  The loop always ends, and what it comes to is what
  looking at the nodes one after the other comes to (`ends_iff`).  `walk` is the
  loop as a function, with a bound on the rounds.
-/
import Mathlib

namespace Traversal

/-- Nodes with their children, and with all the nodes below them in the order of a walk. -/
structure Forest (α : Type) where
  children : α → List α
  nodes : α → List α
  nodes_eq : ∀ x, nodes x = x :: (children x).flatMap nodes

variable {α σ ε : Type} (T : Forest α) (visit : σ → α → Except ε σ)

/-- The loop comes from a stack, its top first, and a state to a result. -/
inductive Ends : List α → σ → Except ε σ → Prop
  | done {a : σ} : Ends [] a (.ok a)
  | failed {x : α} {stack : List α} {a : σ} {e : ε} (h : visit a x = .error e) :
    Ends (x :: stack) a (.error e)
  | visited {x : α} {stack : List α} {a b : σ} {r : Except ε σ} (h : visit a x = .ok b)
    (hr : Ends (T.children x ++ stack) b r) : Ends (x :: stack) a r

/-- The loop, for at most so many rounds. -/
def walk : ℕ → List α → σ → Except ε σ
  | 0, _, a => .ok a
  | _ + 1, [], a => .ok a
  | fuel + 1, x :: stack, a => do walk fuel (T.children x ++ stack) (← visit a x)

/-- The nodes that are left to visit. -/
def pending (stack : List α) : List α := stack.flatMap T.nodes

theorem pending_cons (x : α) (stack : List α) :
    pending T (x :: stack) = x :: pending T (T.children x ++ stack) := by
  rw [pending, pending, List.flatMap_cons, T.nodes_eq, List.flatMap_append, List.cons_append]

variable {T visit}

/-- **What the loop comes to.** -/
theorem ends_iff {stack : List α} {a : σ} {r : Except ε σ} :
    Ends T visit stack a r ↔ (pending T stack).foldlM visit a = r := by
  constructor
  · intro h
    induction h with
    | done => rfl
    | failed h =>
      rw [pending_cons, List.foldlM_cons, h]
      rfl
    | visited h _ ih =>
      rw [pending_cons, List.foldlM_cons, h]
      exact ih
  · rintro rfl
    -- Every round takes one node off the nodes that are left.
    induction hn : (pending T stack).length generalizing stack a with
    | zero =>
      cases stack with
      | nil => exact .done
      | cons x stack => simp [pending_cons] at hn
    | succ n ih =>
      cases stack with
      | nil => simp [pending] at hn
      | cons x stack =>
        rw [pending_cons, List.length_cons, Nat.succ_inj] at hn
        rw [pending_cons, List.foldlM_cons]
        cases hx : visit a x with
        | error e => exact .failed hx
        | ok b => exact .visited hx (ih hn)

/-- With as many rounds as there are nodes the loop comes to its end. -/
theorem walk_eq {fuel : ℕ} {stack : List α} {a : σ} (h : (pending T stack).length ≤ fuel) :
    walk T visit fuel stack a = (pending T stack).foldlM visit a := by
  induction fuel generalizing stack a with
  | zero =>
    cases stack with
    | nil => rfl
    | cons x stack => simp [pending_cons] at h
  | succ fuel ih =>
    cases stack with
    | nil => rfl
    | cons x stack =>
      rw [pending_cons, List.length_cons] at h
      rw [walk, pending_cons, List.foldlM_cons]
      cases visit a x with
      | error e => rfl
      | ok b => exact ih (Nat.le_of_succ_le_succ h)

end Traversal
