/-
  Python text and bytes: a `str` is a list of code points (lone surrogates
  included), a `bytes` a list of octets; UTF-8, hexadecimal, decimal text and
  floats with their non-finite values.
-/
import Mathlib

namespace Py

/-- A code point, surrogates included, as the elements of a Python `str`. -/
abbrev CodePoint := Fin 0x110000

abbrev Str := List CodePoint

abbrev Byte := Fin 256

abbrev Bytes := List Byte

instance codePoints_neZero : NeZero 0x110000 := ⟨by decide⟩

instance bytes_neZero : NeZero 256 := ⟨by decide⟩

instance str_lawfulBEq : LawfulBEq Str := inferInstance

/-- The code points of a literal. -/
def str (s : String) : Str := s.toList.map fun c => Fin.ofNat _ c.toNat

/-- The octets of an ASCII literal. -/
def ascii (s : String) : Bytes := s.toList.map fun c => Fin.ofNat _ c.toNat

/-! ## UTF-8 -/

def CodePoint.surrogate (c : CodePoint) : Bool := 0xd800 ≤ c.val && c.val ≤ 0xdfff

/-- No surrogate, so that `encode("utf-8")` succeeds. -/
def Str.valid (s : Str) : Bool := s.all fun c => !c.surrogate

/-- The UTF-8 octets of a code point that is not a surrogate. -/
def CodePoint.utf8 (c : CodePoint) : Bytes :=
  let b (n : ℕ) : Byte := Fin.ofNat _ n
  if c.val < 0x80 then [b c.val]
  else if c.val < 0x800 then [b (0xc0 + c.val / 0x40), b (0x80 + c.val % 0x40)]
  else if c.val < 0x10000 then
    [b (0xe0 + c.val / 0x1000), b (0x80 + c.val / 0x40 % 0x40), b (0x80 + c.val % 0x40)]
  else [b (0xf0 + c.val / 0x40000), b (0x80 + c.val / 0x1000 % 0x40),
    b (0x80 + c.val / 0x40 % 0x40), b (0x80 + c.val % 0x40)]

/-- `s.encode("utf-8")`; `none` is the `UnicodeEncodeError` of a lone surrogate. -/
def Str.utf8 (s : Str) : Option Bytes := if Str.valid s then some (s.flatMap CodePoint.utf8) else none

theorem Str.length_utf8_le (s : Str) : (s.flatMap CodePoint.utf8).length ≤ 4 * s.length := by
  induction s with
  | nil => simp
  | cons c s ih =>
    have hc : c.utf8.length ≤ 4 := by
      unfold CodePoint.utf8
      simp only
      split_ifs <;> simp
    rw [List.flatMap_cons, List.length_append, List.length_cons]
    omega

/-! ## Hexadecimal -/

/-- The lower-case digit of a number below 16. -/
def hexDigit (n : ℕ) : CodePoint := Fin.ofNat _ (if n < 10 then 0x30 + n else 0x57 + n)

/-- `b.hex()`. -/
def hex (bs : Bytes) : Str := bs.flatMap fun b => [hexDigit (b.val / 16), hexDigit (b.val % 16)]

def hexVal (c : CodePoint) : Option ℕ :=
  if 0x30 ≤ c.val ∧ c.val ≤ 0x39 then some (c.val - 0x30)
  else if 0x61 ≤ c.val ∧ c.val ≤ 0x66 then some (c.val - 0x57)
  else if 0x41 ≤ c.val ∧ c.val ≤ 0x46 then some (c.val - 0x37)
  else none

/-- ASCII white space, as `Py_ISSPACE` has it. -/
def isSpace (c : CodePoint) : Bool := c.val == 0x20 || (0x09 ≤ c.val && c.val ≤ 0x0d)

/-- `bytes.fromhex`: white space between two octets is skipped, not inside one; `none` is its
    `ValueError`. -/
def fromhex : Str → Option Bytes
  | [] => some []
  | [c] => if isSpace c then some [] else none
  | c :: d :: s =>
    if isSpace c then fromhex (d :: s)
    else match hexVal c, hexVal d with
      | some hi, some lo => (fromhex s).map (Fin.ofNat _ (16 * hi + lo) :: ·)
      | _, _ => none

theorem hexVal_hexDigit : ∀ n < 16, hexVal (hexDigit n) = some n := by decide

theorem isSpace_hexDigit : ∀ n < 16, isSpace (hexDigit n) = false := by decide

theorem fromhex_hex : ∀ bs : Bytes, fromhex (hex bs) = some bs
  | [] => rfl
  | b :: bs => by
    have hi : b.val / 16 < 16 := by omega
    have lo : b.val % 16 < 16 := by omega
    have ih : fromhex (hex bs) = some bs := fromhex_hex bs
    rw [hex] at ih
    simp only [hex, List.flatMap_cons, List.cons_append, List.nil_append, fromhex,
      isSpace_hexDigit _ hi, hexVal_hexDigit _ hi, hexVal_hexDigit _ lo, ih, Option.map_some,
      Bool.false_eq_true, if_false, Option.some.injEq, List.cons.injEq, and_true]
    exact Fin.ext (by simp; omega)

theorem length_fromhex : ∀ (s : Str) {bs : Bytes}, fromhex s = some bs → 2 * bs.length ≤ s.length
  | [], bs, h => by rw [← Option.some.inj h]; exact le_rfl
  | [c], bs, h => by
    rw [fromhex] at h
    split_ifs at h
    rw [← Option.some.inj h]
    exact Nat.zero_le _
  | c :: d :: s, bs, h => by
    rw [fromhex] at h
    split_ifs at h
    · exact (length_fromhex (d :: s) h).trans (Nat.le_succ _)
    · split at h
      · obtain ⟨bs', hs, rfl⟩ := Option.map_eq_some_iff.1 h
        have ih := length_fromhex s hs
        simp only [List.length_cons]
        omega
      · cases h

theorem length_hex (bs : Bytes) : (hex bs).length = 2 * bs.length := by
  induction bs with
  | nil => rfl
  | cons b bs ih => simp only [hex, List.flatMap_cons, List.length_append] at ih ⊢; simp [ih]; omega

theorem hex_valid (bs : Bytes) : (hex bs).valid = true := by
  have h : ∀ n < 16, (hexDigit n).surrogate = false := by decide
  simp only [Str.valid, hex, List.all_flatMap, List.all_eq_true]
  intro b _
  simp [h _ (show b.val / 16 < 16 by omega), h _ (show b.val % 16 < 16 by omega)]

/-! ## Decimal text -/

/-- The decimal digits of `n`, most significant first (`fuel` bounds their number). -/
def decimalAux : ℕ → ℕ → List ℕ → List ℕ
  | 0, _, acc => acc
  | fuel + 1, n, acc => if n < 10 then n :: acc else decimalAux fuel (n / 10) (n % 10 :: acc)

def decimal (n : ℕ) : List ℕ := decimalAux (n + 1) n []

/-- Evaluate a list of decimal digits. -/
def undecimal (ds : List ℕ) : ℕ := ds.foldl (fun n d => 10 * n + d) 0

theorem undecimal_aux : ∀ (fuel n : ℕ) (acc : List ℕ), n < fuel →
    undecimal (decimalAux fuel n acc) = acc.foldl (fun n d => 10 * n + d) n
  | 0, _, _, h => absurd h (Nat.not_lt_zero _)
  | fuel + 1, n, acc, h => by
    unfold decimalAux
    split_ifs with hn
    · simp [undecimal]
    · rw [undecimal_aux fuel (n / 10) _ (by omega)]
      simp only [List.foldl_cons]
      congr 1; omega

theorem undecimal_decimal (n : ℕ) : undecimal (decimal n) = n := by
  rw [decimal, undecimal_aux _ _ _ (Nat.lt_succ_self n)]; rfl

theorem decimalAux_lt : ∀ (fuel n : ℕ) (acc : List ℕ), (∀ d ∈ acc, d < 10) →
    ∀ d ∈ decimalAux fuel n acc, d < 10
  | 0, _, _, h => h
  | fuel + 1, n, acc, h => by
    unfold decimalAux
    split_ifs with hn
    · intro d hd
      rcases List.mem_cons.1 hd with rfl | hd
      exacts [hn, h d hd]
    · refine decimalAux_lt fuel (n / 10) _ fun d hd => ?_
      rcases List.mem_cons.1 hd with rfl | hd
      exacts [Nat.mod_lt _ (by decide), h d hd]

theorem decimal_lt {n d : ℕ} (h : d ∈ decimal n) : d < 10 :=
  decimalAux_lt _ _ [] (by simp) d h

theorem decimalAux_ne : ∀ (fuel n : ℕ) (acc : List ℕ), 0 < fuel → decimalAux fuel n acc ≠ []
  | 0, _, _, h => absurd h (lt_irrefl _)
  | 1, n, acc, _ => by unfold decimalAux; split_ifs <;> simp [decimalAux]
  | fuel + 2, n, acc, _ => by
    unfold decimalAux
    split_ifs
    · simp
    · exact decimalAux_ne (fuel + 1) _ _ (Nat.succ_pos _)

theorem decimal_ne (n : ℕ) : decimal n ≠ [] := decimalAux_ne _ _ _ (Nat.succ_pos _)

/-- `str(n)` of a natural number. -/
def natText (n : ℕ) : Str := (decimal n).map fun d => Fin.ofNat _ (0x30 + d)

/-! ## Floats -/

/-- A Python `float`: an exact number, or one of the three non-finite values. -/
inductive PyFloat where
  | finite (q : ℚ)
  | inf (neg : Bool)
  | nan
  deriving DecidableEq

/-- `float(n)`: exact here; `none` is the `OverflowError` of an `int` that rounds past the
    largest double. -/
def floatOfInt (n : ℤ) : Option ℚ := if n.natAbs < 2 ^ 1024 - 2 ^ 970 then some n else none

/-- `f"{q:.6f}"`: rounded to six decimals, half to even, with the sign of `q`. -/
def fixed6 (q : ℚ) : Str :=
  let x := |q| * 1000000
  let n := ⌊x⌋.toNat
  let r := if x - n < 1 / 2 then n else if 1 / 2 < x - n then n + 1 else n + n % 2
  let frac := natText (r % 1000000)
  (if q < 0 then str "-" else []) ++ natText (r / 1000000) ++ str "." ++
    List.replicate (6 - frac.length) 0x30 ++ frac

example : fixed6 (5 / 2) = str "2.500000" := by decide +kernel
example : fixed6 (-1 / 10000000) = str "-0.000000" := by decide +kernel

end Py
