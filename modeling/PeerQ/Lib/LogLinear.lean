/-
  Log-linear numbering: the cells of a histogram with a bounded relative error.

  Each number below `2 ^ (B + 1)` has a cell of its own; every octave
  `[2 ^ o, 2 ^ (o + 1))` from there on is cut into `2 ^ B` cells of equal width.
  A cell is an exponent `e` and a mantissa `m < 2 ^ (B + 1)`, at least `2 ^ B` unless
  `e` is zero; it holds `[m * 2 ^ e, (m + 1) * 2 ^ e)` and has the number
  `e * 2 ^ B + m`.
-/
import Mathlib

namespace LogLinear

variable (B : ℕ)

/-- The exponent of the cell of a number. -/
def shift (n : ℕ) : ℕ := Nat.log 2 n - B

/-- The cell of a number. -/
def cell (n : ℕ) : ℕ := shift B n * 2 ^ B + n / 2 ^ shift B n

/-- The exponent of a cell. -/
def exponent (i : ℕ) : ℕ := i / 2 ^ B - 1

/-- The mantissa of a cell. -/
def mantissa (i : ℕ) : ℕ := i - exponent B i * 2 ^ B

/-- The number in the middle of a cell. -/
def centre (i : ℕ) : ℚ := (mantissa B i + 1 / 2) * 2 ^ exponent B i

variable {B} {e i m n : ℕ}

/-! ## Exponents and mantissas -/

theorem exponent_mul_le (i : ℕ) : exponent B i * 2 ^ B ≤ i :=
  (Nat.mul_le_mul_right _ (Nat.sub_le _ _)).trans (Nat.div_mul_le_self i _)

theorem exponent_add_mantissa (i : ℕ) : exponent B i * 2 ^ B + mantissa B i = i :=
  Nat.add_sub_cancel' (exponent_mul_le i)

theorem mantissa_lt (i : ℕ) : mantissa B i < 2 ^ (B + 1) := by
  have hdiv := Nat.div_add_mod i (2 ^ B)
  have hmod := Nat.mod_lt i (Nat.two_pow_pos B)
  have hsum := exponent_add_mantissa (B := B) i
  have hq : i / 2 ^ B ≤ exponent B i + 1 := by
    rw [exponent]
    omega
  have := Nat.mul_le_mul_left (2 ^ B) hq
  rw [pow_succ]
  linarith

theorem le_mantissa (h : 0 < exponent B i) : 2 ^ B ≤ mantissa B i := by
  have hsum := exponent_add_mantissa (B := B) i
  have hq : exponent B i + 1 = i / 2 ^ B := by
    rw [exponent] at h ⊢
    omega
  have hle := Nat.div_mul_le_self i (2 ^ B)
  rw [← hq, add_mul, one_mul] at hle
  omega

/-- A cell has one exponent and one mantissa. -/
theorem exponent_eq (hm : m < 2 ^ (B + 1)) (he : 0 < e → 2 ^ B ≤ m) :
    exponent B (e * 2 ^ B + m) = e := by
  rw [exponent, Nat.mul_comm, Nat.mul_add_div (Nat.two_pow_pos B)]
  rw [pow_succ, mul_comm] at hm
  have hlt : m / 2 ^ B < 2 := Nat.div_lt_of_lt_mul (by rwa [mul_comm] at hm)
  obtain rfl | hpos := Nat.eq_zero_or_pos e
  · omega
  · have := (Nat.one_le_div_iff (Nat.two_pow_pos B)).2 (he hpos)
    omega

theorem mantissa_eq (hm : m < 2 ^ (B + 1)) (he : 0 < e → 2 ^ B ≤ m) :
    mantissa B (e * 2 ^ B + m) = m := by
  rw [mantissa, exponent_eq hm he, Nat.add_sub_cancel_left]

/-! ## The cell of a number -/

theorem div_shift_lt (n : ℕ) : n / 2 ^ shift B n < 2 ^ (B + 1) := by
  refine Nat.div_lt_of_lt_mul ?_
  rw [← pow_add]
  refine (Nat.lt_pow_succ_log_self one_lt_two n).trans_le (Nat.pow_le_pow_right two_pos ?_)
  rw [shift]
  omega

theorem le_of_shift_pos (h : 0 < shift B n) : 2 ^ B ≤ n := by
  refine Nat.pow_le_of_le_log ?_ ?_
  · rintro rfl
    simp [shift] at h
  · rw [shift] at h
    omega

theorem le_div_shift (h : 2 ^ B ≤ n) : 2 ^ B ≤ n / 2 ^ shift B n := by
  have hlog : B + shift B n = Nat.log 2 n := by
    have := Nat.le_log_of_pow_le one_lt_two h
    rw [shift]
    omega
  rw [Nat.le_div_iff_mul_le (Nat.two_pow_pos _), ← pow_add, hlog]
  exact Nat.pow_log_le_self 2 ((Nat.two_pow_pos B).trans_le h).ne'

@[simp] theorem exponent_cell (n : ℕ) : exponent B (cell B n) = shift B n :=
  exponent_eq (div_shift_lt n) fun h => le_div_shift (le_of_shift_pos h)

@[simp] theorem mantissa_cell (n : ℕ) : mantissa B (cell B n) = n / 2 ^ shift B n :=
  mantissa_eq (div_shift_lt n) fun h => le_div_shift (le_of_shift_pos h)

theorem cell_eq (hm : m < 2 ^ (B + 1)) (he : 0 < e → 2 ^ B ≤ m) (hle : m * 2 ^ e ≤ n)
    (hlt : n < (m + 1) * 2 ^ e) : cell B n = e * 2 ^ B + m := by
  have hshift : shift B n = e := by
    have hupper : n < 2 ^ (B + e + 1) := by
      calc n < (m + 1) * 2 ^ e := hlt
        _ ≤ 2 ^ (B + 1) * 2 ^ e := Nat.mul_le_mul_right _ hm
        _ = 2 ^ (B + e + 1) := by ring
    have hlog : Nat.log 2 n < B + e + 1 := Nat.log_lt_of_lt_pow' (by omega) hupper
    obtain rfl | hpos := Nat.eq_zero_or_pos e
    · rw [shift]
      omega
    · have hlower : 2 ^ (B + e) ≤ n := by
        rw [pow_add]
        exact (Nat.mul_le_mul_right _ (he hpos)).trans hle
      have := Nat.le_log_of_pow_le one_lt_two hlower
      rw [shift]
      omega
  rw [cell, hshift, Nat.div_eq_of_lt_le hle hlt]

/-- **What is in a cell.** -/
theorem cell_eq_iff : cell B n = i ↔
    mantissa B i * 2 ^ exponent B i ≤ n ∧ n < (mantissa B i + 1) * 2 ^ exponent B i := by
  constructor
  · rintro rfl
    rw [exponent_cell, mantissa_cell]
    exact ⟨Nat.div_mul_le_self n _, Nat.lt_div_mul_add (Nat.two_pow_pos _) |>.trans_eq (by ring)⟩
  · rintro ⟨hle, hlt⟩
    rw [cell_eq (mantissa_lt i) le_mantissa hle hlt, exponent_add_mantissa]

theorem cell_mono : Monotone (cell B) := by
  intro n n' h
  have hshift : shift B n ≤ shift B n' := Nat.sub_le_sub_right (Nat.log_mono_right h) B
  obtain hlt | heq := hshift.lt_or_eq
  · have hm := div_shift_lt (B := B) n
    have hm' := le_div_shift (le_of_shift_pos (B := B) (n := n') (by omega))
    have := Nat.mul_le_mul_right (2 ^ B) (Nat.succ_le_of_lt hlt)
    rw [pow_succ] at hm
    rw [Nat.succ_mul] at this
    unfold cell
    omega
  · unfold cell
    rw [heq]
    exact Nat.add_le_add_left (Nat.div_le_div_right h) _

theorem cell_of_lt (h : n < 2 ^ (B + 1)) : cell B n = n := by
  have := cell_eq (e := 0) h (by simp) (by simp) (by simp : n < (n + 1) * 2 ^ 0)
  simpa using this

/-- The cells of the numbers in the first octaves come first. -/
theorem cell_lt {k : ℕ} (h : n < 2 ^ (k + 1)) : cell B n < (k - B + 2) * 2 ^ B := by
  have hlog : Nat.log 2 n < k + 1 := Nat.log_lt_of_lt_pow' (by omega) h
  have hshift : shift B n ≤ k - B := Nat.sub_le_sub_right (by omega) B
  have hm := div_shift_lt (B := B) n
  have := Nat.mul_le_mul_right (2 ^ B) hshift
  rw [pow_succ] at hm
  rw [cell, add_mul]
  omega

/-! ## Centres -/

theorem mem_cell {v : ℚ} (hv : 0 ≤ v) (h : cell B ⌊v⌋₊ = i) :
    (mantissa B i * 2 ^ exponent B i : ℚ) ≤ v ∧ v < (mantissa B i + 1) * 2 ^ exponent B i := by
  obtain ⟨hle, hlt⟩ := cell_eq_iff.1 h
  rw [Nat.le_floor_iff hv] at hle
  rw [Nat.floor_lt hv] at hlt
  push_cast at hle hlt
  exact ⟨hle, hlt⟩

/-- The centre of a cell is in it. -/
theorem cell_centre (i : ℕ) : cell B ⌊centre B i⌋₊ = i := by
  have hpos : (0 : ℚ) < 2 ^ exponent B i := by positivity
  have hnonneg : 0 ≤ centre B i := by
    unfold centre
    positivity
  rw [cell_eq_iff, Nat.le_floor_iff hnonneg, Nat.floor_lt hnonneg]
  push_cast
  unfold centre
  constructor <;> nlinarith

theorem centre_mono : Monotone (centre B) := by
  intro i j h
  by_contra hlt
  have hle := cell_mono (B := B) (Nat.floor_mono (not_le.1 hlt).le)
  rw [cell_centre, cell_centre] at hle
  exact hlt (le_antisymm h hle ▸ le_rfl)

/-- **The error of a centre**: half a unit for small values, and a part of the value for large
    ones. -/
theorem abs_centre_sub_le {v : ℚ} (hv : 0 ≤ v) :
    |centre B (cell B ⌊v⌋₊) - v| ≤ if 2 ^ B ≤ v then v / 2 ^ (B + 1) else 1 / 2 := by
  obtain ⟨hle, hlt⟩ := mem_cell (B := B) hv rfl
  set i := cell B ⌊v⌋₊ with hi
  have hpos : (0 : ℚ) < 2 ^ exponent B i := by positivity
  have hhalf : |centre B i - v| ≤ 2 ^ exponent B i / 2 := by
    rw [abs_le, centre]
    constructor <;> nlinarith
  refine hhalf.trans ?_
  split_ifs with hlarge
  · have hfloor : 2 ^ B ≤ ⌊v⌋₊ := Nat.le_floor (by exact_mod_cast hlarge)
    have hm : 2 ^ B ≤ mantissa B i := by
      obtain hzero | hpos := Nat.eq_zero_or_pos (exponent B i)
      · rw [hi, exponent_cell] at hzero
        rwa [hi, mantissa_cell, hzero, pow_zero, Nat.div_one]
      · exact le_mantissa hpos
    have hm' : (2 ^ B : ℚ) ≤ mantissa B i := by exact_mod_cast hm
    rw [div_le_div_iff₀ two_pos (by positivity), pow_succ]
    nlinarith
  · have hfloor : ⌊v⌋₊ < 2 ^ B := (Nat.floor_lt hv).2 (by push_cast; exact not_le.1 hlarge)
    have hlog : Nat.log 2 ⌊v⌋₊ < B + 1 := Nat.log_lt_of_lt_pow' (by omega)
      (hfloor.trans (Nat.pow_lt_pow_right one_lt_two (by omega)))
    have hzero : exponent B i = 0 := by
      rw [hi, exponent_cell, shift]
      omega
    rw [hzero, pow_zero]

end LogLinear
