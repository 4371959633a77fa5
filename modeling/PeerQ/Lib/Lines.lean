/-
  Lines, words and fields of texts.

  `lines` cuts a list behind each separator, as `readline` hands out a stream;
  `strip`, `words` and `splitOnce` are the methods of `str` with a given notion of
  white space.
-/
import PeerQ.Lib.Text

namespace Py

/-! ## Lines -/

section
variable {α : Type} [DecidableEq α] {sep : α}

/-- The pieces of a list up to and with each separator; the last one may lack it. -/
def lines (sep : α) : List α → List (List α)
  | [] => []
  | a :: l =>
    if a = sep then [a] :: lines sep l
    else match lines sep l with
      | [] => [[a]]
      | x :: xs => (a :: x) :: xs

theorem flatten_lines (l : List α) : (lines sep l).flatten = l := by
  induction l with
  | nil => rfl
  | cons a l ih =>
    unfold lines
    split_ifs
    · simp [ih]
    · split
      · next h => simpa [h] using ih
      · next h => simpa [h] using ih

theorem lines_ne_nil {l x : List α} (h : x ∈ lines sep l) : x ≠ [] := by
  induction l generalizing x with
  | nil => simp [lines] at h
  | cons a l ih =>
    unfold lines at h
    split_ifs at h
    · rcases List.mem_cons.1 h with rfl | h
      exacts [List.cons_ne_nil _ _, ih h]
    · split at h
      · obtain rfl := List.mem_singleton.1 h
        exact List.cons_ne_nil _ _
      · next y ys hl =>
        rcases List.mem_cons.1 h with rfl | h
        exacts [List.cons_ne_nil _ _, ih (by rw [hl]; exact List.mem_cons_of_mem _ h)]

/-- One separator, at the end. -/
def IsLine (sep : α) (l : List α) : Prop := ∃ x, sep ∉ x ∧ l = x ++ [sep]

theorem lines_append_of_isLine {l : List α} (h : IsLine sep l) (rest : List α) :
    lines sep (l ++ rest) = l :: lines sep rest := by
  obtain ⟨x, hx, rfl⟩ := h
  induction x with
  | nil => simp [lines]
  | cons a x ih =>
    rw [List.mem_cons, not_or] at hx
    rw [List.cons_append, List.cons_append, lines, if_neg (Ne.symm hx.1), ih hx.2]

/-- Whole lines in front of a list are its first lines. -/
theorem lines_flatten_append {ls : List (List α)} (h : ∀ l ∈ ls, IsLine sep l) (rest : List α) :
    lines sep (ls.flatten ++ rest) = ls ++ lines sep rest := by
  induction ls with
  | nil => rfl
  | cons l ls ih =>
    rw [List.flatten_cons, List.append_assoc, lines_append_of_isLine (h l (by simp)),
      ih fun x hx => h x (by simp [hx]), List.cons_append]

end

/-! ## Words and fields -/

section
variable (isSpace : CodePoint → Bool)

/-- `s.strip()`. -/
def strip (s : Str) : Str := (s.dropWhile isSpace).rdropWhile isSpace

/-- `s.split()`. -/
def words (s : Str) : List Str := (s.splitOnP isSpace).filter (· ≠ [])

end

/-- `s.split(c, 1)` if `c` occurs: what stands before and after its first occurrence. -/
def splitOnce (c : CodePoint) (s : Str) : Option (Str × Str) :=
  match s.span (· ≠ c) with
  | (key, _ :: value) => some (key, value)
  | _ => none

end Py
