/-
  How long the text of a JSON value is.

  Writing an object in the order of its keys does not change the length of its
  text, so the length is a sum over the fields (`textLength_obj`), whatever their
  order.  `simple` strings are written as they are by both kinds of escape.
-/
import PeerQ.Lib.JsonCodec

namespace Py

namespace Json

section
variable (fl : PyFloat → Bytes) (txt : Str → Bytes)

/-- The length of the text of a value, with the fields of objects in the order of their keys. -/
def textLength (v : Json) : ℕ := (print fl txt v.canon).length

/-- The length of a field with its name, quotes and colon. -/
def fieldLength (kv : Str × Json) : ℕ := (txt kv.1).length + 3 + textLength fl txt kv.2

theorem length_joinComma : ∀ ts : List Bytes,
    (joinComma ts).length = (ts.map List.length).sum + (ts.length - 1)
  | [] => rfl
  | [t] => by simp [joinComma]
  | t :: u :: ts => by
    have ih := length_joinComma (u :: ts)
    simp only [joinComma, List.length_append, List.length_cons, List.map_cons, List.sum_cons] at ih ⊢
    omega

@[simp] theorem textLength_null : textLength fl txt .null = 4 := rfl

@[simp] theorem textLength_int (n : ℤ) : textLength fl txt (.int n) = (intText n).length := rfl

@[simp] theorem textLength_float (x : PyFloat) : textLength fl txt (.float x) = (fl x).length := rfl

@[simp] theorem textLength_str (s : Str) : textLength fl txt (.str s) = (txt s).length + 2 := by
  simp [textLength, canon, print, quote]

/-- **The text of an object** is as long as its fields, the commas between them and two braces. -/
theorem textLength_obj (kvs : Fields) : textLength fl txt (.obj kvs) =
    (kvs.map (fieldLength fl txt)).sum + (kvs.length - 1) + 2 := by
  have hfield : ∀ kv : Str × Json, (fieldText fl txt (kv.1, kv.2.canon)).length =
      fieldLength fl txt kv := by
    intro kv
    simp only [fieldText, fieldLength, textLength, quote, List.length_append, List.length_cons,
      List.length_nil]
    omega
  have hperm := sortKeys_perm (canonFields kvs)
  have hsum : ((sortKeys (canonFields kvs)).map fun kv => (fieldText fl txt kv).length).sum =
      (kvs.map (fieldLength fl txt)).sum := by
    rw [(hperm.map _).sum_eq, canonFields_eq, List.map_map]
    exact congrArg List.sum (List.map_congr_left fun kv _ => hfield kv)
  have hlen : (sortKeys (canonFields kvs)).length = kvs.length := by
    rw [hperm.length_eq, canonFields_eq, List.length_map]
  simp only [textLength, canon, print, printFields_eq, List.length_cons, List.length_append,
    List.length_nil, length_joinComma, List.map_map, List.length_map, hlen]
  have hcomp : (sortKeys (canonFields kvs)).map (List.length ∘ fieldText fl txt) =
      (sortKeys (canonFields kvs)).map fun kv => (fieldText fl txt kv).length := rfl
  rw [hcomp, hsum]

/-- The same where the names of the fields are written as they are. -/
theorem textLength_obj_of {kvs : Fields} (h : ∀ kv ∈ kvs, (txt kv.1).length = kv.1.length) :
    textLength fl txt (.obj kvs) =
      (kvs.map fun kv => kv.1.length + 3 + textLength fl txt kv.2).sum + (kvs.length - 1) + 2 := by
  rw [textLength_obj]
  congr 3
  exact List.map_congr_left fun kv hkv => by rw [fieldLength, h kv hkv]

end

/-! ## Strings without escapes -/

/-- Printable ASCII without quotes and backslashes. -/
def simple (s : Str) : Bool :=
  s.all fun c => 0x20 ≤ c.val && c.val ≤ 0x7e && c.val != 0x22 && c.val != 0x5c

theorem simple_cons {c : CodePoint} {s : Str} (h : simple (c :: s) = true) :
    (0x20 ≤ c.val ∧ c.val ≤ 0x7e ∧ c.val ≠ 0x22 ∧ c.val ≠ 0x5c) ∧ simple s = true := by
  simpa [simple, and_assoc] using h

theorem length_escapeHalf_simple {u : ℕ} (h : 0x20 ≤ u ∧ u ≤ 0x7e ∧ u ≠ 0x22 ∧ u ≠ 0x5c) :
    (escapeHalf u).length = 1 := by
  unfold escapeHalf
  split_ifs <;> first | omega | rfl

theorem length_escape_simple {s : Str} (h : simple s = true) : (escape s).length = s.length := by
  induction s with
  | nil => rfl
  | cons c s ih =>
    obtain ⟨hc, hs⟩ := simple_cons h
    have ih := ih hs
    have hhalf : halves c = [c.val] := if_pos (by omega)
    simp only [escape, List.flatMap_cons, hhalf, List.cons_append, List.nil_append,
      List.length_append, List.length_cons, length_escapeHalf_simple hc] at ih ⊢
    omega

theorem length_escapeRaw_simple {s : Str} (h : simple s = true) : (escapeRaw s).length = s.length := by
  induction s with
  | nil => rfl
  | cons c s ih =>
    obtain ⟨hc, hs⟩ := simple_cons h
    have ih := ih hs
    have hlt : c.val < 0x7f := by omega
    simp only [escapeRaw, List.flatMap_cons, if_pos hlt, List.length_append, List.length_cons,
      length_escapeHalf_simple hc] at ih ⊢
    omega

theorem length_utf8_simple {s : Str} (h : simple s = true) :
    (s.flatMap CodePoint.utf8).length = s.length := by
  induction s with
  | nil => rfl
  | cons c s ih =>
    obtain ⟨hc, hs⟩ := simple_cons h
    have ih := ih hs
    have hone : c.utf8.length = 1 := by
      unfold CodePoint.utf8
      simp only
      rw [if_pos (by omega)]
      rfl
    simp only [List.flatMap_cons, List.length_append, List.length_cons, hone, ih]
    omega

theorem simple_hex (bs : Bytes) : simple (hex bs) = true := by
  have hdigit : ∀ n < 16, simple [hexDigit n] = true := by decide
  simp only [simple, hex, List.all_flatMap, List.all_eq_true, List.all_cons, List.all_nil,
    Bool.and_true] at hdigit ⊢
  intro b _
  rw [Bool.and_eq_true]
  exact ⟨hdigit _ (by omega), hdigit _ (by omega)⟩

/-- Escapes are no shorter than UTF-8. -/
theorem length_utf8_le_escape (s : Str) :
    (s.flatMap CodePoint.utf8).length ≤ (escape s).length := by
  have hpos : ∀ u, 1 ≤ (escapeHalf u).length := by
    intro u
    obtain ⟨b, w, hu, -⟩ := escapeHalf_head u
    rw [hu, List.length_cons]
    omega
  have hlong : ∀ u, 0x7f ≤ u → (escapeHalf u).length = 6 := by
    intro u hu
    unfold escapeHalf
    split_ifs <;> first | omega | rfl
  have hchar : ∀ c : CodePoint, c.utf8.length ≤ ((halves c).flatMap escapeHalf).length := by
    intro c
    have h1 := hpos c.val
    unfold CodePoint.utf8 halves
    simp only
    split_ifs with hc1 hc2 hc3
    · simpa using h1
    · omega
    · simp [hlong c.val (by omega)]
    · omega
    · simp [hlong c.val (by omega)]
    · have h2 := hlong (0xd800 + (c.val - 0x10000) / 0x400 % 0x400) (by omega)
      have h3 := hlong (0xdc00 + (c.val - 0x10000) % 0x400) (by omega)
      simp [h2, h3]
  induction s with
  | nil => exact Nat.zero_le _
  | cons c s ih =>
    have hc := hchar c
    simp only [escape, List.flatMap_cons, List.flatMap_append, List.length_append] at ih ⊢
    omega

/-! ## Values within limits

Where depth and lengths are within the limits, only surrogates and infinite floats are refused. -/

section
variable {D L d : ℕ}

theorem bounded_str_eq {s : Str} (hd : d ≤ D) (hl : (s.flatMap CodePoint.utf8).length ≤ L) :
    bounded D L d (.str s) = s.valid := by
  rw [bounded, decide_eq_true hd, decide_eq_true hl, Bool.true_and, Bool.and_true]

theorem bounded_obj_eq : ∀ {kvs : Fields}, d ≤ D →
    (∀ kv ∈ kvs, bounded D L (d + 1) (.str kv.1) = kv.1.valid ∧
      bounded D L (d + 1) kv.2 = kv.2.plain) →
    bounded D L d (.obj kvs) = (Json.obj kvs).plain := by
  have hfields : ∀ kvs : Fields, (∀ kv ∈ kvs, bounded D L (d + 1) (.str kv.1) = kv.1.valid ∧
      bounded D L (d + 1) kv.2 = kv.2.plain) → boundedFields D L (d + 1) kvs = plainFields kvs := by
    intro kvs
    induction kvs with
    | nil => exact fun _ => by rw [boundedFields, plainFields]
    | cons kv kvs ih =>
      intro h
      obtain ⟨hk, hv⟩ := h kv (by simp)
      rw [boundedFields, plainFields, hk, hv, ih fun kv' hkv' => h kv' (List.mem_cons_of_mem _ hkv')]
  intro kvs hd h
  rw [bounded, plain, hfields kvs h, decide_eq_true hd, Bool.true_and]

end

end Json

end Py
