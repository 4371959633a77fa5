/-
  Anti-entropy: components that send each other snapshots of their values and
  join what they receive.

  A snapshot may be lost, come late, out of order, and more than once.  Which
  components a value stems from is an exchange too, of sets of components
  (`sources`), and the value of a component is the join of the initial values of
  its sources (`run_value`).
-/
import PeerQ.Lib.Runs

namespace Py

/-- The values of the components, and the snapshots that each of them has sent. -/
structure Exchange (ι α : Type) where
  value : ι → α
  mail : ι → List α

namespace Exchange

/-- What can happen: a component sends its value, or something that carries no value, or the `k`-th
    thing that `j` has sent reaches `i`. -/
inductive Move (ι : Type) where
  | post (i : ι)
  | blank (i : ι)
  | fetch (j i : ι) (k : ℕ)

variable {ι α β : Type} [DecidableEq ι]

/-- Nothing is sent yet. -/
def start (value : ι → α) : Exchange ι α := ⟨value, fun _ => []⟩

/-- The same exchange of other values. -/
def map (f : α → β) (x : Exchange ι α) : Exchange ι β :=
  ⟨fun i => f (x.value i), fun i => (x.mail i).map f⟩

variable [SemilatticeSup α] [OrderBot α] [SemilatticeSup β] [OrderBot β]

def step (x : Exchange ι α) : Move ι → Exchange ι α
  | .post i => { x with mail := Function.update x.mail i (x.mail i ++ [x.value i]) }
  | .blank i => { x with mail := Function.update x.mail i (x.mail i ++ [⊥]) }
  | .fetch j i k =>
    { x with value := Function.update x.value i (x.value i ⊔ (x.mail j)[k]?.getD ⊥) }

/-- The components that the value of a component stems from. -/
def sources (ms : List (Move ι)) (i : ι) : Finset ι :=
  (run step (start fun i => ({i} : Finset ι)) ms).value i

/-- A homomorphism maps exchanges to exchanges. -/
theorem map_step (f : SupBotHom α β) (x : Exchange ι α) (m : Move ι) :
    (x.step m).map f = (x.map f).step m := by
  have hmail : ∀ (i : ι) (a : α) (b : β), f a = b →
      (fun k => (Function.update x.mail i (x.mail i ++ [a]) k).map f) =
        Function.update (fun k => (x.mail k).map f) i ((x.mail i).map f ++ [b]) := by
    rintro i a b rfl
    funext k
    by_cases hk : k = i
    · subst hk
      simp
    · simp [Function.update_of_ne hk]
  cases m with
  | post i => exact congrArg (Exchange.mk _) (hmail i _ _ rfl)
  | blank i => exact congrArg (Exchange.mk _) (hmail i _ _ (map_bot f))
  | fetch j i k =>
    have hget : f ((x.mail j)[k]?.getD ⊥) = ((x.mail j).map f)[k]?.getD ⊥ := by
      rw [List.getElem?_map]
      cases (x.mail j)[k]? with
      | none => exact map_bot f
      | some a => rfl
    refine congrArg (fun v => Exchange.mk v _) (funext fun l => ?_)
    by_cases hl : l = i
    · subst hl
      simp only [step, map, Function.update_self]
      rw [map_sup, hget]
    · simp only [step, map, Function.update_of_ne hl]

/-- The join of the values of some components. -/
def joinOf (v : ι → α) : SupBotHom (Finset ι) α where
  toFun A := A.sup v
  map_sup' _ _ := Finset.sup_union
  map_bot' := Finset.sup_empty

/-- **What a component has** is the join of what its sources had. -/
theorem run_value (v : ι → α) (ms : List (Move ι)) (i : ι) :
    (run step (start v) ms).value i = (sources ms i).sup v := by
  have hstart : start v = (start fun i => ({i} : Finset ι)).map (joinOf v) :=
    congrArg start (funext fun _ => Finset.sup_singleton.symm)
  rw [hstart, ← run_map (f := map (joinOf v)) (map_step (joinOf v))]
  rfl

end Exchange

end Py
