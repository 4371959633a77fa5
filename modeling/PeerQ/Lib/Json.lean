/-
  JSON values as Python's `json` module reads and writes them, and their compact
  text.

  `print` writes a value without spaces, its fields in the order they stand;
  `canon` orders the fields of every object by key, so `print v.canon` is
  `dumps(v, separators=(",", ":"), sort_keys=True)`.  The text of a value ends
  where it ends (`print_split`): no text of a value continues another one, hence
  a text determines the texts of the parts (`print_arr_inj`, `print_obj_inj`)
  and, for strings without surrogates, the value (`print_inj`).
-/
import PeerQ.Lib.Text

namespace Py

/-- A JSON value.  An object is a Python `dict` with string keys, in insertion order. -/
inductive Json where
  | null
  | bool (b : Bool)
  | int (n : ℤ)
  | float (x : PyFloat)
  | str (s : Str)
  | arr (xs : List Json)
  | obj (kvs : List (Str × Json))

abbrev Fields := List (Str × Json)

namespace Json

/-- Induction on a value with a hypothesis for every element and every field. -/
@[elab_as_elim]
theorem ind {P : Json → Prop} (null : P .null) (bool : ∀ b, P (.bool b)) (int : ∀ n, P (.int n))
    (float : ∀ x, P (.float x)) (str : ∀ s, P (.str s))
    (arr : ∀ xs, (∀ x ∈ xs, P x) → P (.arr xs))
    (obj : ∀ kvs : Fields, (∀ kv ∈ kvs, P kv.2) → P (.obj kvs)) (v : Json) : P v :=
  @Json.rec P (fun xs => ∀ x ∈ xs, P x) (fun kvs => ∀ kv ∈ kvs, P kv.2) (fun kv => P kv.2)
    null bool int float str arr obj (by simp) (fun _ _ hx hxs => by simpa using ⟨hx, hxs⟩)
    (by simp) (fun _ _ h hs => by
      intro kv hkv
      rcases List.mem_cons.1 hkv with rfl | hkv
      exacts [h, hs kv hkv]) (fun _ _ h => h) v

/-! ## Canonical order of the fields -/

/-- The fields ordered by key. -/
def sortKeys {α : Type} (kvs : List (Str × α)) : List (Str × α) :=
  kvs.insertionSort fun a b => a.1 ≤ b.1

/-- Fields that are in the order of their keys stay as they are. -/
theorem sortKeys_eq_self {α : Type} {kvs : List (Str × α)}
    (h : (kvs.map Prod.fst).Pairwise (· ≤ ·)) : sortKeys kvs = kvs :=
  List.Pairwise.insertionSort_eq (List.pairwise_map.1 h)

mutual
/-- The value with the fields of every object ordered by key: the representative of a `dict` up to
    Python's `==`. -/
def canon : Json → Json
  | .null => .null
  | .bool b => .bool b
  | .int n => .int n
  | .float x => .float x
  | .str s => .str s
  | .arr xs => .arr (canonElems xs)
  | .obj kvs => .obj (sortKeys (canonFields kvs))
def canonElems : List Json → List Json
  | [] => []
  | x :: xs => x.canon :: canonElems xs
def canonFields : List (Str × Json) → List (Str × Json)
  | [] => []
  | (k, v) :: kvs => (k, v.canon) :: canonFields kvs
end

theorem canonElems_eq (xs : List Json) : canonElems xs = xs.map canon := by
  induction xs with
  | nil => rfl
  | cons x xs ih => simp [canonElems, ih]

theorem canonFields_eq (kvs : Fields) : canonFields kvs = kvs.map fun kv => (kv.1, kv.2.canon) := by
  induction kvs with
  | nil => rfl
  | cons kv kvs ih => simp [canonFields, ih]

/-! ## Text -/

/-- The texts with commas between them. -/
def joinComma : List Bytes → Bytes
  | [] => []
  | [t] => t
  | t :: u :: ts => t ++ 0x2c :: joinComma (u :: ts)

/-- The decimal text of an integer. -/
def intText (n : ℤ) : Bytes :=
  (if n < 0 then [0x2d] else []) ++ (decimal n.natAbs).map fun d => Fin.ofNat _ (0x30 + d)

/-- Python converts integers of at most so many digits to text (`sys.int_info`). -/
abbrev maxStrDigits : ℕ := 4300

def shortInt (n : ℤ) : Bool := (decimal n.natAbs).length ≤ maxStrDigits

/-- A string between quotes; `txt` writes what stands between them. -/
def quote (txt : Str → Bytes) (s : Str) : Bytes := 0x22 :: (txt s ++ [0x22])

section
variable (fl : PyFloat → Bytes) (txt : Str → Bytes)

mutual
/-- The compact text of a value, with floats written by `fl` and the inside of strings by `txt`. -/
def print : Json → Bytes
  | .null => ascii "null"
  | .bool true => ascii "true"
  | .bool false => ascii "false"
  | .int n => intText n
  | .float x => fl x
  | .str s => quote txt s
  | .arr xs => 0x5b :: (joinComma (printElems xs) ++ [0x5d])
  | .obj kvs => 0x7b :: (joinComma (printFields kvs) ++ [0x7d])
def printElems : List Json → List Bytes
  | [] => []
  | x :: xs => print x :: printElems xs
def printFields : List (Str × Json) → List Bytes
  | [] => []
  | (k, v) :: kvs => (quote txt k ++ 0x3a :: print v) :: printFields kvs
end

theorem printElems_eq (xs : List Json) : printElems fl txt xs = xs.map (print fl txt) := by
  induction xs with
  | nil => rfl
  | cons x xs ih => simp [printElems, ih]

/-- The text of a field. -/
def fieldText (kv : Str × Json) : Bytes := quote txt kv.1 ++ 0x3a :: print fl txt kv.2

theorem printFields_eq (kvs : Fields) : printFields fl txt kvs = kvs.map (fieldText fl txt) := by
  induction kvs with
  | nil => rfl
  | cons kv kvs ih => simp [printFields, fieldText, ih]

end

/-! ## Escapes

`json.dumps` writes a string in ASCII: a code point past the basic plane as the two halves of its
surrogate pair, and every half or other code point by one of three kinds of escape. -/

/-- The UTF-16 halves `json` writes for a code point. -/
def halves (c : CodePoint) : List ℕ :=
  if c.val < 0x10000 then [c.val]
  else [0xd800 + (c.val - 0x10000) / 0x400 % 0x400, 0xdc00 + (c.val - 0x10000) % 0x400]

/-- The octet of a hexadecimal digit. -/
def hexByte (n : ℕ) : Byte := Fin.ofNat _ (if n < 10 then 0x30 + n else 0x57 + n)

/-- The escape of one half (`ESCAPE_ASCII` of `json.encoder`). -/
def escapeHalf (u : ℕ) : Bytes :=
  if u = 0x22 then [0x5c, 0x22]
  else if u = 0x5c then [0x5c, 0x5c]
  else if u = 0x0a then [0x5c, 0x6e]
  else if u = 0x0d then [0x5c, 0x72]
  else if u = 0x09 then [0x5c, 0x74]
  else if u = 0x0c then [0x5c, 0x66]
  else if u = 0x08 then [0x5c, 0x62]
  else if 0x20 ≤ u ∧ u ≤ 0x7e then [Fin.ofNat _ u]
  else [0x5c, 0x75, hexByte (u / 0x1000 % 16), hexByte (u / 0x100 % 16), hexByte (u / 0x10 % 16),
    hexByte (u % 16)]

/-- The text of a string with `ensure_ascii=True`. -/
def escape (s : Str) : Bytes := (s.flatMap halves).flatMap escapeHalf

/-- The text of a string with `ensure_ascii=False`, in UTF-8: only quotes, backslashes and control
    characters are escaped. -/
def escapeRaw (s : Str) : Bytes :=
  s.flatMap fun c => if c.val < 0x7f then escapeHalf c.val else c.utf8

theorem escapeHalf_shape (u : ℕ) :
    (∃ b : Byte, b ≠ 0x22 ∧ b ≠ 0x5c ∧ 0x20 ≤ b ∧ escapeHalf u = [b]) ∨
    (∃ x : Byte, x ≠ 0x75 ∧ 0x20 ≤ x ∧ escapeHalf u = [0x5c, x]) ∨
    ∃ h, escapeHalf u = [0x5c, 0x75, hexByte (h / 0x1000 % 16), hexByte (h / 0x100 % 16),
      hexByte (h / 0x10 % 16), hexByte (h % 16)] := by
  unfold escapeHalf
  split_ifs with h1 h2 h3 h4 h5 h6 h7 h8
  iterate 7 exact Or.inr (Or.inl ⟨_, by decide, by decide, rfl⟩)
  · refine Or.inl ⟨Fin.ofNat _ u, ?_, ?_, ?_, rfl⟩
    · intro h; exact h1 (by have := congrArg Fin.val h; simp at this; omega)
    · intro h; exact h2 (by have := congrArg Fin.val h; simp at this; omega)
    · rw [Fin.le_def]; simp; omega
  · exact Or.inr (Or.inr ⟨u, rfl⟩)

theorem escapeHalf_split {u v : ℕ} {s t : Bytes} (h : escapeHalf u ++ s = escapeHalf v ++ t) :
    escapeHalf u = escapeHalf v ∧ s = t := by
  rcases escapeHalf_shape u with ⟨b, -, hb, -, hu⟩ | ⟨x, hx, -, hu⟩ | ⟨g, hu⟩ <;>
    rcases escapeHalf_shape v with ⟨c, -, hc, -, hv⟩ | ⟨y, hy, -, hv⟩ | ⟨k, hv⟩ <;>
    rw [hu, hv] at h ⊢ <;> simp only [List.cons_append, List.nil_append, List.cons.injEq] at h ⊢
  · exact ⟨⟨h.1, trivial⟩, h.2⟩
  · exact absurd h.1 hb
  · exact absurd h.1 hb
  · exact absurd h.1.symm hc
  · exact ⟨⟨trivial, h.2.1, trivial⟩, h.2.2⟩
  · exact absurd h.2.1 hx
  · exact absurd h.1.symm hc
  · exact absurd h.2.1.symm hy
  · exact ⟨⟨trivial, trivial, h.2.2.1, h.2.2.2.1, h.2.2.2.2.1, h.2.2.2.2.2.1, trivial⟩,
      h.2.2.2.2.2.2⟩

theorem escapeHalf_head (u : ℕ) : ∃ b w, escapeHalf u = b :: w ∧ b ≠ 0x22 := by
  rcases escapeHalf_shape u with ⟨b, h, -, -, hu⟩ | ⟨x, -, -, hu⟩ | ⟨g, hu⟩
  exacts [⟨b, [], hu, h⟩, ⟨_, _, hu, by decide⟩, ⟨_, _, hu, by decide⟩]

/-- The escapes of a string are read back one half at a time, up to the closing quote. -/
theorem escapes_split : ∀ {us vs : List ℕ} {s t : Bytes},
    us.flatMap escapeHalf ++ 0x22 :: s = vs.flatMap escapeHalf ++ 0x22 :: t →
      us.map escapeHalf = vs.map escapeHalf ∧ s = t
  | [], [], s, t, h => by simpa using h
  | [], v :: vs, s, t, h => by
    obtain ⟨b, w, hb, hne⟩ := escapeHalf_head v
    simp only [List.flatMap_nil, List.nil_append, List.flatMap_cons, hb, List.cons_append,
      List.cons.injEq] at h
    exact absurd h.1.symm hne
  | u :: us, [], s, t, h => by
    obtain ⟨b, w, hb, hne⟩ := escapeHalf_head u
    simp only [List.flatMap_nil, List.nil_append, List.flatMap_cons, hb, List.cons_append,
      List.cons.injEq] at h
    exact absurd h.1 hne
  | u :: us, v :: vs, s, t, h => by
    simp only [List.flatMap_cons, List.append_assoc] at h
    obtain ⟨h1, h2⟩ := escapeHalf_split h
    obtain ⟨h3, h4⟩ := escapes_split h2
    exact ⟨by simp [h1, h3], h4⟩

/-- A quoted string ends at its own closing quote. -/
theorem escape_split {s s' : Str} {x y : Bytes}
    (h : escape s ++ 0x22 :: x = escape s' ++ 0x22 :: y) : escape s = escape s' ∧ x = y := by
  obtain ⟨h1, h2⟩ := escapes_split h
  refine ⟨?_, h2⟩
  simp only [escape, List.flatMap_def (f := escapeHalf), h1]

/-! ## A text ends where its value ends -/

/-- The octets that occur in the text of a number or a constant: no quote, comma, colon or
    bracket. -/
def atomByte (b : Byte) : Bool :=
  b != 0x22 && b != 0x2c && b != 0x3a && b != 0x5b && b != 0x5d && b != 0x7b && b != 0x7d

/-- The end of the text, or an octet that closes or separates values. -/
def Delim (s : Bytes) : Prop := s = [] ∨ ∃ b t, s = b :: t ∧ atomByte b = false

/-- Two texts that agree up to something after them agree. -/
def Split (a b : Bytes) : Prop :=
  ∀ s t, Delim s → Delim t → a ++ s = b ++ t → a = b ∧ s = t

theorem takeWhile_atom {a s : Bytes} (ha : ∀ b ∈ a, atomByte b = true) (hs : Delim s) :
    (a ++ s).takeWhile atomByte = a := by
  rw [List.takeWhile_append_of_pos ha]
  rcases hs with rfl | ⟨b, t, rfl, hb⟩ <;> simp [*]

theorem split_atom {a b : Bytes} (ha : ∀ x ∈ a, atomByte x = true)
    (hb : ∀ x ∈ b, atomByte x = true) : Split a b := by
  intro s t hs ht h
  have hab : a = b := by rw [← takeWhile_atom ha hs, h, takeWhile_atom hb ht]
  subst hab
  exact ⟨rfl, List.append_cancel_left h⟩

theorem joinComma_cons (a : Bytes) (ts : List Bytes) (c : Byte) (s : Bytes) :
    joinComma (a :: ts) ++ c :: s =
      a ++ (if ts = [] then c :: s else 0x2c :: (joinComma ts ++ c :: s)) := by
  cases ts <;> simp [joinComma]

/-- Texts between commas and a closing bracket `c` are read back one by one. -/
theorem joinComma_split {c : Byte} (hc : atomByte c = false) (hc' : c ≠ 0x2c) :
    ∀ {ts us : List Bytes} {s t : Bytes}, (∀ a ∈ ts, ∀ b ∈ us, Split a b) →
      (∀ a ∈ ts, ∃ x w, a = x :: w ∧ x ≠ c) → (∀ b ∈ us, ∃ x w, b = x :: w ∧ x ≠ c) →
      joinComma ts ++ c :: s = joinComma us ++ c :: t → ts = us ∧ s = t
  | [], [], s, t, _, _, _, h => by simpa [joinComma] using h
  | [], b :: us, s, t, _, _, hu, h => by
    obtain ⟨x, w, rfl, hx⟩ := hu b (by simp)
    rw [joinComma_cons] at h
    simp only [joinComma, List.nil_append, List.cons_append, List.cons.injEq] at h
    exact absurd h.1.symm hx
  | a :: ts, [], s, t, _, ht, _, h => by
    obtain ⟨x, w, rfl, hx⟩ := ht a (by simp)
    rw [joinComma_cons] at h
    simp only [joinComma, List.nil_append, List.cons_append, List.cons.injEq] at h
    exact absurd h.1 hx
  | a :: ts, b :: us, s, t, hs, ht, hu, h => by
    rw [joinComma_cons, joinComma_cons] at h
    have hd : ∀ (l : List Bytes) (r : Bytes),
        Delim (if l = [] then c :: r else 0x2c :: (joinComma l ++ c :: r)) := by
      intro l r
      split_ifs
      exacts [Or.inr ⟨c, r, rfl, hc⟩, Or.inr ⟨0x2c, _, rfl, by decide⟩]
    obtain ⟨hab, hr⟩ := hs a (by simp) b (by simp) _ _ (hd ts s) (hd us t) h
    subst hab
    by_cases h1 : ts = [] <;> by_cases h2 : us = []
    · subst h1; subst h2; simpa using hr
    · simp only [h1, h2, if_true, if_false, List.cons.injEq] at hr; exact absurd hr.1 hc'
    · simp only [h1, h2, if_true, if_false, List.cons.injEq] at hr; exact absurd hr.1.symm hc'
    · simp only [h1, h2, if_false, List.cons.injEq, true_and] at hr
      obtain ⟨rfl, h4⟩ := joinComma_split hc hc' (fun a ha b hb => hs a (by simp [ha]) b (by simp [hb]))
        (fun a ha => ht a (by simp [ha])) (fun b hb => hu b (by simp [hb])) hr
      exact ⟨rfl, h4⟩

section
variable {fl : PyFloat → Bytes} {txt : Str → Bytes}

/-- What the float writer and the string writer must keep to: floats are atoms, and a string text
    never runs over its closing quote. -/
structure Writers (fl : PyFloat → Bytes) (txt : Str → Bytes) : Prop where
  float_ne : ∀ x, fl x ≠ []
  float_atom : ∀ x, ∀ b ∈ fl x, atomByte b = true
  text_split : ∀ {s s' : Str} {x y : Bytes}, txt s ++ 0x22 :: x = txt s' ++ 0x22 :: y →
    txt s = txt s' ∧ x = y

theorem digit_byte {d : ℕ} (h : d < 10) : (Fin.ofNat 256 (0x30 + d)).val = 0x30 + d :=
  Nat.mod_eq_of_lt (by omega)

/-- The octets of an integer are a sign and digits. -/
theorem intText_bytes {P : Byte → Prop} (hminus : P 0x2d)
    (hdigit : ∀ d < 10, P (Fin.ofNat 256 (0x30 + d))) (n : ℤ) : ∀ b ∈ intText n, P b := by
  intro b hb
  simp only [intText, List.mem_append, List.mem_map] at hb
  rcases hb with hb | ⟨d, hd, rfl⟩
  · split_ifs at hb
    · obtain rfl := List.mem_singleton.1 hb
      exact hminus
    · cases hb
  · exact hdigit d (decimal_lt hd)

theorem intText_atom (n : ℤ) : intText n ≠ [] ∧ ∀ b ∈ intText n, atomByte b = true := by
  refine ⟨fun h => ?_, intText_bytes (by decide) (by decide) n⟩
  simp only [intText, List.append_eq_nil_iff, List.map_eq_nil_iff] at h
  exact decimal_ne _ h.2

/-- The values whose text is an atom. -/
def isAtom : Json → Bool
  | .str _ | .arr _ | .obj _ => false
  | _ => true

variable (hw : Writers fl txt)
include hw

theorem print_atom {v : Json} (h : v.isAtom = true) :
    print fl txt v ≠ [] ∧ ∀ b ∈ print fl txt v, atomByte b = true := by
  cases v with
  | null => simp only [print]; decide +kernel
  | bool b => cases b <;> simp only [print] <;> decide +kernel
  | int n => simp only [print]; exact intText_atom n
  | float x => simp only [print]; exact ⟨hw.float_ne x, hw.float_atom x⟩
  | str | arr | obj => simp [isAtom] at h

/-- The first octet of a text: an atom's for an atom, and never one that separates or closes. -/
theorem print_head (v : Json) : ∃ b t, print fl txt v = b :: t ∧
    (v.isAtom = true → atomByte b = true) ∧ b ≠ 0x5d ∧ b ≠ 0x7d := by
  by_cases h : v.isAtom = true
  · obtain ⟨hne, hat⟩ := print_atom hw h
    obtain ⟨b, t, hbt⟩ := List.exists_cons_of_ne_nil hne
    have hb : atomByte b = true := hat b (by simp [hbt])
    exact ⟨b, t, hbt, fun _ => hb, by rintro rfl; simp [atomByte] at hb,
      by rintro rfl; simp [atomByte] at hb⟩
  · cases v with
    | str s => exact ⟨0x22, _, rfl, fun h' => absurd h' h, by decide, by decide⟩
    | arr xs => exact ⟨0x5b, _, rfl, fun h' => absurd h' h, by decide, by decide⟩
    | obj kvs => exact ⟨0x7b, _, rfl, fun h' => absurd h' h, by decide, by decide⟩
    | _ => simp [isAtom] at h

theorem atom_of_head {v w : Json} {s t : Bytes} (hv : v.isAtom = true)
    (h : print fl txt v ++ s = print fl txt w ++ t) : w.isAtom = true := by
  obtain ⟨b, x, hb, hat, -⟩ := print_head hw v
  rw [hb, List.cons_append] at h
  cases w with
  | str | arr | obj =>
    simp only [print, quote, List.cons_append, List.cons.injEq] at h
    have := hat hv
    rw [h.1] at this; simp [atomByte] at this
  | _ => rfl

/-- The key of a field ends where its text does. -/
theorem fieldText_append {kv kv' : Str × Json} {s t : Bytes}
    (h : fieldText fl txt kv ++ s = fieldText fl txt kv' ++ t) :
    txt kv.1 = txt kv'.1 ∧ print fl txt kv.2 ++ s = print fl txt kv'.2 ++ t := by
  simp only [fieldText, quote, List.cons_append, List.append_assoc, List.nil_append,
    List.cons.injEq, true_and] at h
  obtain ⟨h1, h2⟩ := hw.text_split h
  simp only [List.cons.injEq, true_and] at h2
  exact ⟨h1, h2⟩

theorem fieldText_split {kv kv' : Str × Json}
    (ih : Split (print fl txt kv.2) (print fl txt kv'.2)) :
    Split (fieldText fl txt kv) (fieldText fl txt kv') := by
  intro s t hs ht h
  obtain ⟨h1, h2⟩ := fieldText_append hw h
  obtain ⟨h3, h4⟩ := ih s t hs ht h2
  exact ⟨by simp [fieldText, quote, h1, h3], h4⟩

theorem elems_split {xs ys : List Json} {s t : Bytes}
    (ih : ∀ x ∈ xs, ∀ w, Split (print fl txt x) (print fl txt w))
    (h : joinComma (xs.map (print fl txt)) ++ 0x5d :: s =
      joinComma (ys.map (print fl txt)) ++ 0x5d :: t) :
    xs.map (print fl txt) = ys.map (print fl txt) ∧ s = t := by
  have hne : ∀ zs : List Json, ∀ a ∈ zs.map (print fl txt), ∃ x w, a = x :: w ∧ x ≠ 0x5d := by
    intro zs a ha
    obtain ⟨z, -, rfl⟩ := List.mem_map.1 ha
    obtain ⟨b, t, hb, -, h5, -⟩ := print_head hw z; exact ⟨b, t, hb, h5⟩
  refine joinComma_split (by decide) (by decide) ?_ (hne xs) (hne ys) h
  intro a ha b hb
  obtain ⟨x, hx, rfl⟩ := List.mem_map.1 ha
  obtain ⟨y, -, rfl⟩ := List.mem_map.1 hb
  exact ih x hx y

theorem fields_split {kvs kvs' : Fields} {s t : Bytes}
    (ih : ∀ kv ∈ kvs, ∀ w, Split (print fl txt kv.2) (print fl txt w))
    (h : joinComma (kvs.map (fieldText fl txt)) ++ 0x7d :: s =
      joinComma (kvs'.map (fieldText fl txt)) ++ 0x7d :: t) :
    kvs.map (fieldText fl txt) = kvs'.map (fieldText fl txt) ∧ s = t := by
  have hne : ∀ l : Fields, ∀ a ∈ l.map (fieldText fl txt), ∃ x w, a = x :: w ∧ x ≠ 0x7d := by
    intro l a ha
    obtain ⟨kv, -, rfl⟩ := List.mem_map.1 ha
    exact ⟨0x22, _, rfl, by decide⟩
  refine joinComma_split (by decide) (by decide) ?_ (hne kvs) (hne kvs') h
  intro a ha b hb
  obtain ⟨kv, hkv, rfl⟩ := List.mem_map.1 ha
  obtain ⟨kv', -, rfl⟩ := List.mem_map.1 hb
  exact fieldText_split hw (ih kv hkv kv'.2)

/-- **The text of a value ends where the value ends**: two texts followed by separators, brackets
    or nothing are equal only if the values' texts are. -/
theorem print_split (v : Json) : ∀ w, Split (print fl txt v) (print fl txt w) := by
  induction v using Json.ind with
  | null | bool b | int n | float x =>
    intro w s t hs ht h
    have hw' := atom_of_head hw rfl h
    exact split_atom (print_atom hw rfl).2 (print_atom hw hw').2 s t hs ht h
  | str s =>
    intro w x y hx hy h
    cases w with
    | str s' =>
      simp only [print, quote, List.cons_append, List.append_assoc, List.nil_append,
        List.cons.injEq, true_and] at h ⊢
      obtain ⟨h1, h2⟩ := hw.text_split h
      exact ⟨by rw [h1], h2⟩
    | arr | obj => simp [print, quote] at h
    | _ => exact absurd (atom_of_head hw rfl h.symm) (by simp [isAtom])
  | arr xs ih =>
    intro w x y hx hy h
    cases w with
    | arr ys =>
      simp only [print, printElems_eq, List.cons_append, List.append_assoc, List.nil_append,
        List.cons.injEq, true_and] at h ⊢
      obtain ⟨h1, h2⟩ := elems_split hw ih h
      exact ⟨by rw [h1], h2⟩
    | str | obj => simp [print, quote] at h
    | _ => exact absurd (atom_of_head hw rfl h.symm) (by simp [isAtom])
  | obj kvs ih =>
    intro w x y hx hy h
    cases w with
    | obj kvs' =>
      simp only [print, printFields_eq, List.cons_append, List.append_assoc, List.nil_append,
        List.cons.injEq, true_and] at h ⊢
      obtain ⟨h1, h2⟩ := fields_split hw ih h
      exact ⟨by rw [h1], h2⟩
    | str | arr => simp [print, quote] at h
    | _ => exact absurd (atom_of_head hw rfl h.symm) (by simp [isAtom])

theorem print_arr_inj {xs ys : List Json} (h : print fl txt (.arr xs) = print fl txt (.arr ys)) :
    xs.map (print fl txt) = ys.map (print fl txt) := by
  simp only [print, printElems_eq, List.cons.injEq, true_and] at h
  exact (elems_split hw (fun x _ => print_split hw x) h).1

theorem print_obj_inj {kvs kvs' : Fields}
    (h : print fl txt (.obj kvs) = print fl txt (.obj kvs')) :
    kvs.map (fieldText fl txt) = kvs'.map (fieldText fl txt) := by
  simp only [print, printFields_eq, List.cons.injEq, true_and] at h
  exact (fields_split hw (fun kv _ => print_split hw kv.2) h).1

theorem fieldText_inj {kv kv' : Str × Json} (h : fieldText fl txt kv = fieldText fl txt kv') :
    txt kv.1 = txt kv'.1 ∧ print fl txt kv.2 = print fl txt kv'.2 := by
  simpa using fieldText_append hw (congrArg (· ++ []) h)

end

theorem intText_inj {m n : ℤ} (h : intText m = intText n) : m = n := by
  have hdig : ∀ k : ℕ, ((decimal k).map fun d => Fin.ofNat 256 (0x30 + d)).map
      (fun b => b.val - 0x30) = decimal k := by
    intro k
    rw [List.map_map]
    refine (List.map_congr_left fun d hd => ?_).trans (List.map_id _)
    simp only [Function.comp, digit_byte (decimal_lt hd)]; simp
  have hhead : ∀ k : ℕ, ∀ t, ((decimal k).map fun d => Fin.ofNat 256 (0x30 + d)) ≠ 0x2d :: t := by
    intro k t hk
    obtain ⟨d, ds, hd⟩ := List.exists_cons_of_ne_nil (decimal_ne k)
    rw [hd, List.map_cons, List.cons.injEq] at hk
    have hb := digit_byte (decimal_lt (n := k) (d := d) (by simp [hd]))
    rw [hk.1] at hb; simp at hb; omega
  have habs : m.natAbs = n.natAbs ∧ (m < 0 ↔ n < 0) := by
    unfold intText at h
    split_ifs at h with hm hn hn
    · simp only [List.cons_append, List.nil_append, List.cons.injEq, true_and] at h
      refine ⟨?_, by simp [hm, hn]⟩
      rw [← undecimal_decimal m.natAbs, ← hdig, h, hdig, undecimal_decimal]
    · exact absurd h.symm (hhead _ _)
    · exact absurd h (hhead _ _)
    · simp only [List.nil_append] at h
      refine ⟨?_, by simp [hm, hn]⟩
      rw [← undecimal_decimal m.natAbs, ← hdig, h, hdig, undecimal_decimal]
  omega

end Json

end Py
