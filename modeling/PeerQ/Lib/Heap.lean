/-
  Python's `heapq`: lists whose first element is a minimum.

  `Heapq key` is what a program may rely on when it orders its entries by `key`.
  The comparison of two entries with one key would go on to what else they hold,
  so nothing is said of a push of a second entry with a key.
-/
import Mathlib

namespace Py

variable {ε κ : Type} [LinearOrder κ]

/-- The operations of `heapq`, the lists that they keep and what they do to them. -/
structure Heapq (key : ε → κ) where
  push : List ε → ε → List ε
  pop : List ε → List ε
  IsHeap : List ε → Prop
  nil : IsHeap []
  push_heap : ∀ {l e}, IsHeap l → (∀ x ∈ l, key x ≠ key e) → IsHeap (push l e)
  push_perm : ∀ {l e}, IsHeap l → (∀ x ∈ l, key x ≠ key e) → (push l e).Perm (e :: l)
  pop_heap : ∀ {e l}, IsHeap (e :: l) → IsHeap (pop (e :: l))
  pop_perm : ∀ {e l}, IsHeap (e :: l) → (pop (e :: l)).Perm l
  first_le : ∀ {e l}, IsHeap (e :: l) → ∀ x ∈ l, key e ≤ key x

namespace Heapq

variable (key : ε → κ)

/-- Heaps that are sorted lists. -/
def sorted : Heapq key where
  push l e := l.orderedInsert (fun a b => key a ≤ key b) e
  pop := List.tail
  IsHeap l := l.Pairwise fun a b => key a ≤ key b
  nil := .nil
  push_heap {l e} h _ := by
    have : Std.Total fun a b : ε => key a ≤ key b := ⟨fun a b => le_total _ _⟩
    have : IsTrans ε fun a b => key a ≤ key b := ⟨fun a b c => le_trans⟩
    exact h.orderedInsert e l
  push_perm _ _ := List.perm_orderedInsert _ _ _
  pop_heap h := (List.pairwise_cons.1 h).2
  pop_perm _ := .refl _
  first_le h := (List.pairwise_cons.1 h).1

variable {key} (H : Heapq key) {l : List ε} {e : ε}

theorem length_pop (h : H.IsHeap (e :: l)) : (H.pop (e :: l)).length = l.length :=
  (H.pop_perm h).length_eq

/-- Induction over what is left of a heap after a `pop`. -/
theorem induction {P : ∀ l, H.IsHeap l → Prop} (nil : ∀ h, P [] h)
    (cons : ∀ e l (h : H.IsHeap (e :: l)), P (H.pop (e :: l)) (H.pop_heap h) → P (e :: l) h)
    {l : List ε} (h : H.IsHeap l) : P l h := by
  induction hn : l.length generalizing l with
  | zero =>
    obtain rfl := List.length_eq_zero_iff.1 hn
    exact nil h
  | succ n ih =>
    obtain ⟨e, l, rfl⟩ := List.exists_cons_of_length_eq_add_one hn
    refine cons e l h (ih (H.pop_heap h) ?_)
    rw [H.length_pop h]
    simpa using hn

/-! ## Popping while a test holds -/

/-- At most so many entries are popped, as long as the first one passes the test: those that come
    out, and what is left. -/
def popUpTo (p : ε → Bool) : ℕ → List ε → List ε × List ε
  | 0, l => ([], l)
  | _ + 1, [] => ([], [])
  | n + 1, e :: l =>
    if p e then (e :: (popUpTo p n (H.pop (e :: l))).1, (popUpTo p n (H.pop (e :: l))).2)
    else ([], e :: l)

/-- `while heap and p(heap[0]): heappop(heap)`. -/
def popWhile (p : ε → Bool) (l : List ε) : List ε × List ε := H.popUpTo p l.length l

variable {H} {p q : ε → Bool}

theorem popUpTo_eq (h : H.IsHeap l) {n : ℕ} (hn : l.length ≤ n) :
    H.popUpTo p n l = H.popWhile p l := by
  suffices ∀ n m, l.length ≤ n → l.length ≤ m → H.popUpTo p n l = H.popUpTo p m l from
    this n _ hn le_rfl
  clear hn
  induction h using Heapq.induction with
  | nil =>
    intro n m _ _
    cases n <;> cases m <;> rfl
  | cons e l h ih =>
    intro n m hn hm
    obtain ⟨n, rfl⟩ := Nat.exists_eq_add_of_lt hn
    obtain ⟨m, rfl⟩ := Nat.exists_eq_add_of_lt hm
    have hlen := H.length_pop h
    simp only [popUpTo]
    rw [ih _ (l.length + m) (by omega) (by omega)]

@[simp] theorem popWhile_nil : H.popWhile p [] = ([], []) := rfl

theorem popWhile_cons (h : H.IsHeap (e :: l)) : H.popWhile p (e :: l) =
    if p e then (e :: (H.popWhile p (H.pop (e :: l))).1, (H.popWhile p (H.pop (e :: l))).2)
    else ([], e :: l) := by
  rw [popWhile, List.length_cons, popUpTo, popUpTo_eq (H.pop_heap h) (H.length_pop h).le]

/-- What comes out, in order, and what is left. -/
theorem popWhile_spec (h : H.IsHeap l) :
    l.Perm ((H.popWhile p l).1 ++ (H.popWhile p l).2) ∧ H.IsHeap (H.popWhile p l).2 ∧
      (∀ x ∈ (H.popWhile p l).1, p x = true) ∧
      ((H.popWhile p l).1.Pairwise fun x y => key x ≤ key y) ∧
      ∀ e l', (H.popWhile p l).2 = e :: l' → p e = false := by
  induction h using Heapq.induction with
  | nil h => exact ⟨.nil, h, by simp, by simp, by simp⟩
  | cons e l h ih =>
    rw [popWhile_cons h]
    cases hp : p e with
    | false =>
      refine ⟨.refl _, h, by simp, by simp, fun e' l' heq => ?_⟩
      obtain ⟨rfl, -⟩ := List.cons.inj heq
      exact hp
    | true =>
      obtain ⟨hperm, hheap, hpass, hsorted, hfirst⟩ := ih
      have hpop := (H.pop_perm h).symm.trans hperm
      refine ⟨hpop.cons e, hheap, ?_, ?_, hfirst⟩
      · rintro x (_ | ⟨_, hx⟩)
        exacts [hp, hpass x hx]
      · refine List.pairwise_cons.2 ⟨fun x hx => ?_, hsorted⟩
        exact H.first_le h x (hpop.mem_iff.2 (List.mem_append_left _ hx))

/-- With a test that holds of what comes earlier, all that pass it come out. -/
theorem popWhile_left (h : H.IsHeap l) (hp : ∀ x y, key x ≤ key y → p y = true → p x = true) :
    ∀ x ∈ (H.popWhile p l).2, p x = false := by
  obtain ⟨-, hheap, -, -, hfirst⟩ := popWhile_spec (p := p) h
  intro x hx
  cases hl : (H.popWhile p l).2 with
  | nil => simp [hl] at hx
  | cons e l' =>
    rw [hl] at hx hheap
    have he := hfirst e l' hl
    obtain rfl | hx := List.mem_cons.1 hx
    · exact he
    · by_contra hpx
      rw [Bool.not_eq_false] at hpx
      exact absurd (hp e x (H.first_le hheap x hx) hpx) (by simp [he])

/-- Popping in two turns. -/
theorem popWhile_append (h : H.IsHeap l) (hpq : ∀ e, p e = true → q e = true) :
    H.popWhile q l = ((H.popWhile p l).1 ++ (H.popWhile q (H.popWhile p l).2).1,
      (H.popWhile q (H.popWhile p l).2).2) := by
  induction h using Heapq.induction with
  | nil => rfl
  | cons e l h ih =>
    cases hp : p e with
    | false => simp [popWhile_cons (p := p) h, hp]
    | true =>
      rw [popWhile_cons (p := q) h, popWhile_cons (p := p) h]
      simp only [hp, hpq e hp, if_true, List.cons_append]
      rw [ih]

end Heapq

end Py
