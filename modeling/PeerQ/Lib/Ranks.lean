/-
  Order statistics by counting.

  `nthSmallest xs k` is the `k`-th smallest element, counted from zero.  Under a
  monotone map it is found by counting alone: it is the first value below or at
  which there are more than `k` elements.
-/
import Mathlib

namespace Py

variable {α β : Type} [LinearOrder α] [LinearOrder β]

/-- The `k`-th smallest element, counted from zero. -/
def nthSmallest (xs : List α) (k : ℕ) : Option α := (xs.insertionSort (· ≤ ·))[k]?

theorem mem_of_nthSmallest {xs : List α} {k : ℕ} {x : α} (h : nthSmallest xs k = some x) :
    x ∈ xs :=
  (List.mem_insertionSort _).1 (List.mem_of_getElem? h)

theorem exists_nthSmallest {xs : List α} {k : ℕ} (h : k < xs.length) :
    ∃ x, nthSmallest xs k = some x :=
  ⟨_, List.getElem?_eq_getElem (by rwa [List.length_insertionSort])⟩

theorem nthSmallest_mono {xs : List α} {j k : ℕ} (hjk : j ≤ k) {x y : α}
    (hx : nthSmallest xs j = some x) (hy : nthSmallest xs k = some y) : x ≤ y := by
  obtain ⟨hj, rfl⟩ := List.getElem?_eq_some_iff.1 hx
  obtain ⟨hk, rfl⟩ := List.getElem?_eq_some_iff.1 hy
  exact (List.pairwise_insertionSort (· ≤ ·) xs).rel_get_of_le (a := ⟨j, hj⟩) (b := ⟨k, hk⟩) hjk

/-- Counting up to an element of a sorted list. -/
theorem countP_sorted {f : α → β} (hf : Monotone f) {x : α} : ∀ {xs : List α} {k : ℕ},
    xs.Pairwise (· ≤ ·) → xs[k]? = some x →
    k < xs.countP (f · ≤ f x) ∧ ∀ j < f x, xs.countP (f · ≤ j) ≤ k
  | a :: xs, 0, hxs, hx => by
    obtain rfl : a = x := by simpa using hx
    rw [List.pairwise_cons] at hxs
    refine ⟨by simp, fun j hj => ?_⟩
    rw [List.countP_eq_zero.2]
    intro b hb
    have hab : f a ≤ f b := by
      obtain rfl | hb := List.mem_cons.1 hb
      exacts [le_rfl, hf (hxs.1 b hb)]
    simpa using hj.trans_le hab
  | a :: xs, k + 1, hxs, hx => by
    rw [List.getElem?_cons_succ] at hx
    rw [List.pairwise_cons] at hxs
    obtain ⟨hle, hlt⟩ := countP_sorted hf hxs.2 hx
    have hax : f a ≤ f x := hf (hxs.1 x (List.mem_of_getElem? hx))
    refine ⟨by simpa [hax] using hle, fun j hj => ?_⟩
    rw [List.countP_cons]
    have := hlt j hj
    split_ifs <;> omega

/-- **Ranks by counting**, in any list. -/
theorem countP_nthSmallest {f : α → β} (hf : Monotone f) {xs : List α} {k : ℕ} {x : α}
    (h : nthSmallest xs k = some x) :
    k < xs.countP (f · ≤ f x) ∧ ∀ j < f x, xs.countP (f · ≤ j) ≤ k := by
  have hperm := List.perm_insertionSort (· ≤ ·) xs
  obtain ⟨hle, hlt⟩ := countP_sorted hf (List.pairwise_insertionSort (· ≤ ·) xs) h
  refine ⟨?_, fun j hj => ?_⟩
  · rwa [hperm.countP_eq] at hle
  · rw [← hperm.countP_eq]
    exact hlt j hj

end Py
