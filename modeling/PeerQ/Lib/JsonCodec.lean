/-
  The `json` module as a pair of functions, `dumps` and `loads`.

  `Codec` fixes what is left to the interpreter (the shortest text of a float,
  the parser) and carries the documented behaviour as fields: reading back what
  was written gives the value with its keys in order, whether or not the text is
  kept in ASCII, and a text with a raw control character is no JSON.  A value is
  written and read only if its integers are short (`short`).
  `Codec.std` shows that the fields can be met: it reads exactly the texts that
  some value has, which is well defined because a compact text determines its
  value (`print_inj`, `toAscii_print`).
-/
import PeerQ.Lib.Json
import PeerQ.Lib.Dict

namespace Py

namespace Json

/-! ## Values with bounded nesting and strings -/

mutual
/-- Every node lies at depth at most `D`, every string and key has at most `L` octets in UTF-8,
    every float is finite; the value itself stands at depth `d`. -/
def bounded (D L : ℕ) : ℕ → Json → Bool
  | d, .null => d ≤ D
  | d, .bool _ => d ≤ D
  | d, .int _ => d ≤ D
  | d, .float x => d ≤ D && match x with | .finite _ => true | _ => false
  | d, .str s => d ≤ D && s.valid && (s.flatMap CodePoint.utf8).length ≤ L
  | d, .arr xs => d ≤ D && boundedElems D L (d + 1) xs
  | d, .obj kvs => d ≤ D && boundedFields D L (d + 1) kvs
def boundedElems (D L : ℕ) : ℕ → List Json → Bool
  | _, [] => true
  | d, x :: xs => bounded D L d x && boundedElems D L d xs
def boundedFields (D L : ℕ) : ℕ → List (Str × Json) → Bool
  | _, [] => true
  | d, (k, v) :: kvs => bounded D L d (.str k) && bounded D L d v && boundedFields D L d kvs
end

mutual
/-- No object has a key twice. -/
def wf : Json → Bool
  | .arr xs => wfElems xs
  | .obj kvs => (kvs.map Prod.fst).Nodup && wfFields kvs
  | _ => true
def wfElems : List Json → Bool
  | [] => true
  | x :: xs => x.wf && wfElems xs
def wfFields : List (Str × Json) → Bool
  | [] => true
  | (_, v) :: kvs => v.wf && wfFields kvs
end

mutual
/-- The entries of all lists and objects together. -/
def items : Json → ℕ
  | .arr xs => xs.length + itemsElems xs
  | .obj kvs => kvs.length + itemsFields kvs
  | _ => 0
def itemsElems : List Json → ℕ
  | [] => 0
  | x :: xs => x.items + itemsElems xs
def itemsFields : List (Str × Json) → ℕ
  | [] => 0
  | (_, v) :: kvs => v.items + itemsFields kvs
end

mutual
/-- The nodes of a value, keys included. -/
def size : Json → ℕ
  | .arr xs => 1 + sizeElems xs
  | .obj kvs => 1 + sizeFields kvs
  | _ => 1
def sizeElems : List Json → ℕ
  | [] => 0
  | x :: xs => x.size + sizeElems xs
def sizeFields : List (Str × Json) → ℕ
  | [] => 0
  | (_, v) :: kvs => 1 + v.size + sizeFields kvs
end

mutual
/-- Strings without surrogates and finite floats only. -/
def plain : Json → Bool
  | .float x => match x with | .finite _ => true | _ => false
  | .str s => s.valid
  | .arr xs => plainElems xs
  | .obj kvs => plainFields kvs
  | _ => true
def plainElems : List Json → Bool
  | [] => true
  | x :: xs => x.plain && plainElems xs
def plainFields : List (Str × Json) → Bool
  | [] => true
  | (k, v) :: kvs => k.valid && v.plain && plainFields kvs
end

mutual
/-- No integer is too long to be converted to text or from it. -/
def short : Json → Bool
  | .int n => shortInt n
  | .arr xs => shortElems xs
  | .obj kvs => shortFields kvs
  | _ => true
def shortElems : List Json → Bool
  | [] => true
  | x :: xs => x.short && shortElems xs
def shortFields : List (Str × Json) → Bool
  | [] => true
  | (_, v) :: kvs => v.short && shortFields kvs
end

theorem itemsElems_eq (xs : List Json) : itemsElems xs = (xs.map items).sum := by
  induction xs with
  | nil => rfl
  | cons x xs ih => simp [itemsElems, ih]

theorem itemsFields_eq (kvs : Fields) : itemsFields kvs = (kvs.map fun kv => kv.2.items).sum := by
  induction kvs with
  | nil => rfl
  | cons kv kvs ih => obtain ⟨k, v⟩ := kv; simp [itemsFields, ih]

theorem sizeElems_eq (xs : List Json) : sizeElems xs = (xs.map size).sum := by
  induction xs with
  | nil => rfl
  | cons x xs ih => simp [sizeElems, ih]

theorem sizeFields_eq (kvs : Fields) :
    sizeFields kvs = kvs.length + (kvs.map fun kv => kv.2.size).sum := by
  induction kvs with
  | nil => rfl
  | cons kv kvs ih => obtain ⟨k, v⟩ := kv; simp [sizeFields, ih]; omega

theorem boundedElems_iff {D L d : ℕ} {xs : List Json} :
    boundedElems D L d xs = true ↔ ∀ x ∈ xs, bounded D L d x = true := by
  induction xs with
  | nil => simp [boundedElems]
  | cons x xs ih => simp [boundedElems, ih]

theorem boundedFields_iff {D L d : ℕ} {kvs : Fields} :
    boundedFields D L d kvs = true ↔
      ∀ kv ∈ kvs, bounded D L d (.str kv.1) = true ∧ bounded D L d kv.2 = true := by
  induction kvs with
  | nil => simp [boundedFields]
  | cons kv kvs ih => obtain ⟨k, v⟩ := kv; simp [boundedFields, ih, and_assoc]

theorem wfElems_iff {xs : List Json} : wfElems xs = true ↔ ∀ x ∈ xs, x.wf = true := by
  induction xs with
  | nil => simp [wfElems]
  | cons x xs ih => simp [wfElems, ih]

theorem wfFields_iff {kvs : Fields} : wfFields kvs = true ↔ ∀ kv ∈ kvs, kv.2.wf = true := by
  induction kvs with
  | nil => simp [wfFields]
  | cons kv kvs ih => obtain ⟨k, v⟩ := kv; simp [wfFields, ih]

/-! ## Putting keys in order changes neither bounds nor distinctness -/

theorem sortKeys_perm {α : Type} (kvs : List (Str × α)) : (sortKeys kvs).Perm kvs :=
  List.perm_insertionSort _ _

theorem bounded_canon (D L : ℕ) (v : Json) : ∀ d, bounded D L d v.canon = bounded D L d v := by
  induction v using Json.ind with
  | null | bool b | int n | float x | str s => intro d; rfl
  | arr xs ih =>
    intro d
    rw [Bool.eq_iff_iff]
    simp only [canon, bounded, canonElems_eq, Bool.and_eq_true, boundedElems_iff, List.mem_map,
      forall_exists_index, and_imp, forall_apply_eq_imp_iff₂]
    exact and_congr_right fun _ => forall₂_congr fun x hx => by rw [ih x hx]
  | obj kvs ih =>
    intro d
    rw [Bool.eq_iff_iff]
    simp only [canon, bounded, canonFields_eq, Bool.and_eq_true, boundedFields_iff,
      (sortKeys_perm _).mem_iff, List.mem_map, forall_exists_index, and_imp,
      forall_apply_eq_imp_iff₂]
    exact and_congr_right fun _ => forall₂_congr fun kv hkv => by rw [ih kv hkv]

theorem wf_canon (v : Json) : v.canon.wf = v.wf := by
  induction v using Json.ind with
  | null | bool b | int n | float x | str s => rfl
  | arr xs ih =>
    rw [Bool.eq_iff_iff]
    simp only [canon, wf, canonElems_eq, wfElems_iff, List.mem_map, forall_exists_index, and_imp,
      forall_apply_eq_imp_iff₂]
    exact forall₂_congr fun x hx => by rw [ih x hx]
  | obj kvs ih =>
    rw [Bool.eq_iff_iff]
    have hk : ((sortKeys (kvs.map fun kv => (kv.1, kv.2.canon))).map Prod.fst).Nodup ↔
        (kvs.map Prod.fst).Nodup := by
      rw [((sortKeys_perm _).map Prod.fst).nodup_iff, List.map_map]; rfl
    simp only [canon, wf, canonFields_eq, Bool.and_eq_true, decide_eq_true_eq, wfFields_iff, hk,
      (sortKeys_perm _).mem_iff, List.mem_map, forall_exists_index, and_imp,
      forall_apply_eq_imp_iff₂]
    exact and_congr_right fun _ => forall₂_congr fun kv hkv => by rw [ih kv hkv]

/-- A field of an ordered object is the ordered field. -/
theorem lookup_canon {kvs : Fields} (h : (kvs.map Prod.fst).Nodup) (k : Str) :
    lookup k (sortKeys (canonFields kvs)) = (lookup k kvs).map canon := by
  have hp := sortKeys_perm (canonFields kvs)
  have hk : (canonFields kvs).map Prod.fst = kvs.map Prod.fst := by
    simp [canonFields_eq, Function.comp_def]
  have hn : ((sortKeys (canonFields kvs)).map Prod.fst).Nodup := by
    rw [(hp.map Prod.fst).nodup_iff, hk]; exact h
  cases hl : lookup k kvs with
  | none =>
    rw [Option.map_none, lookup_eq_none, (hp.map Prod.fst).mem_iff, hk, ← lookup_eq_none, hl]
  | some v =>
    refine lookup_of_mem hn (hp.mem_iff.2 ?_)
    rw [canonFields_eq]
    exact List.mem_map.2 ⟨(k, v), mem_of_lookup hl, rfl⟩

theorem items_canon (v : Json) : v.canon.items = v.items := by
  induction v using Json.ind with
  | null | bool b | int n | float x | str s => rfl
  | arr xs ih =>
    simp only [canon, items, canonElems_eq, itemsElems_eq, List.length_map, List.map_map]
    rw [List.map_congr_left (f := items ∘ canon) (g := items) ih]
  | obj kvs ih =>
    simp only [canon, items, canonFields_eq, itemsFields_eq, (sortKeys_perm _).length_eq,
      List.length_map, ((sortKeys_perm _).map _).sum_eq, List.map_map]
    have h : kvs.map (fun kv => kv.2.canon.items) = kvs.map fun kv => kv.2.items :=
      List.map_congr_left ih
    exact congrArg (fun l => kvs.length + l.sum) h

theorem bounded_succ (D L : ℕ) (v : Json) : ∀ d, bounded (D + 1) L (d + 1) v = bounded D L d v := by
  induction v using Json.ind with
  | null | bool b | int n | str s => intro d; simp [bounded]
  | float x => intro d; cases x <;> simp [bounded]
  | arr xs ih =>
    intro d
    rw [Bool.eq_iff_iff]
    simp only [bounded, Bool.and_eq_true, decide_eq_true_eq, boundedElems_iff,
      Nat.add_le_add_iff_right]
    refine and_congr_right fun _ => forall₂_congr fun x hx => ?_
    rw [ih x hx]
  | obj kvs ih =>
    intro d
    rw [Bool.eq_iff_iff]
    simp only [bounded, Bool.and_eq_true, decide_eq_true_eq, boundedFields_iff,
      Nat.add_le_add_iff_right]
    refine and_congr_right fun _ => forall₂_congr fun x hx => ?_
    rw [ih x hx]

theorem plainElems_iff {xs : List Json} : plainElems xs = true ↔ ∀ x ∈ xs, x.plain = true := by
  induction xs with
  | nil => simp [plainElems]
  | cons x xs ih => simp [plainElems, ih]

theorem plainFields_iff {kvs : Fields} :
    plainFields kvs = true ↔ ∀ kv ∈ kvs, kv.1.valid = true ∧ kv.2.plain = true := by
  induction kvs with
  | nil => simp [plainFields]
  | cons kv kvs ih => obtain ⟨k, v⟩ := kv; simp [plainFields, ih, and_assoc]

theorem plain_of_bounded {D L : ℕ} (v : Json) : ∀ {d}, bounded D L d v = true → v.plain = true := by
  induction v using Json.ind with
  | null | bool b | int n => exact fun _ => rfl
  | float x => intro d h; cases x <;> simp_all [bounded, plain]
  | str s =>
    intro d h
    simp only [bounded, Bool.and_eq_true] at h
    exact h.1.2
  | arr xs ih =>
    intro d h
    simp only [bounded, Bool.and_eq_true, boundedElems_iff] at h
    exact plainElems_iff.2 fun x hx => ih x hx (h.2 x hx)
  | obj kvs ih =>
    intro d h
    simp only [bounded, Bool.and_eq_true, boundedFields_iff] at h
    refine plainFields_iff.2 fun kv hkv => ⟨?_, ih kv hkv (h.2 kv hkv).2⟩
    exact (h.2 kv hkv).1.1.2

theorem plain_canon (v : Json) : v.canon.plain = v.plain := by
  induction v using Json.ind with
  | null | bool b | int n | float x | str s => rfl
  | arr xs ih =>
    rw [Bool.eq_iff_iff]
    simp only [canon, plain, canonElems_eq, plainElems_iff, List.mem_map, forall_exists_index,
      and_imp, forall_apply_eq_imp_iff₂]
    exact forall₂_congr fun x hx => by rw [ih x hx]
  | obj kvs ih =>
    rw [Bool.eq_iff_iff]
    simp only [canon, plain, plainFields_iff, (sortKeys_perm _).mem_iff, canonFields_eq,
      List.mem_map, forall_exists_index, and_imp, forall_apply_eq_imp_iff₂]
    exact forall₂_congr fun x hx => by rw [ih x hx]

theorem shortElems_iff {xs : List Json} : shortElems xs = true ↔ ∀ x ∈ xs, x.short = true := by
  induction xs with
  | nil => simp [shortElems]
  | cons x xs ih => simp [shortElems, ih]

theorem shortFields_iff {kvs : Fields} :
    shortFields kvs = true ↔ ∀ kv ∈ kvs, kv.2.short = true := by
  induction kvs with
  | nil => simp [shortFields]
  | cons kv kvs ih => obtain ⟨k, v⟩ := kv; simp [shortFields, ih]

theorem short_canon (v : Json) : v.canon.short = v.short := by
  induction v using Json.ind with
  | null | bool b | int n | float x | str s => rfl
  | arr xs ih =>
    rw [Bool.eq_iff_iff]
    simp only [canon, short, canonElems_eq, shortElems_iff, List.mem_map, forall_exists_index,
      and_imp, forall_apply_eq_imp_iff₂]
    exact forall₂_congr fun x hx => by rw [ih x hx]
  | obj kvs ih =>
    rw [Bool.eq_iff_iff]
    simp only [canon, short, shortFields_iff, (sortKeys_perm _).mem_iff, canonFields_eq,
      List.mem_map, forall_exists_index, and_imp, forall_apply_eq_imp_iff₂]
    exact forall₂_congr fun x hx => by rw [ih x hx]

theorem sortKeys_sortKeys {α : Type} (kvs : List (Str × α)) :
    sortKeys (sortKeys kvs) = sortKeys kvs :=
  (List.pairwise_insertionSort _ _).insertionSort_eq

theorem canon_canon (v : Json) : v.canon.canon = v.canon := by
  induction v using Json.ind with
  | null | bool b | int n | float x | str s => rfl
  | arr xs ih =>
    simp only [canon, canonElems_eq, List.map_map]
    exact congrArg Json.arr (List.map_congr_left ih)
  | obj kvs ih =>
    have hfix : canonFields (sortKeys (canonFields kvs)) = sortKeys (canonFields kvs) := by
      rw [canonFields_eq]
      conv_rhs => rw [← List.map_id (sortKeys (canonFields kvs))]
      refine List.map_congr_left fun kv hkv => ?_
      rw [(sortKeys_perm _).mem_iff, canonFields_eq] at hkv
      obtain ⟨kv', hkv', rfl⟩ := List.mem_map.1 hkv
      simp only [ih kv' hkv', id]
    simp only [canon, hfix, sortKeys_sortKeys]
/-! ## A text determines its value -/

/-- The value of a hexadecimal octet. -/
def unhexByte (b : Byte) : ℕ := if b.val < 0x40 then b.val - 0x30 else b.val - 0x57

theorem unhexByte_hexByte : ∀ n < 16, unhexByte (hexByte n) = n := by decide

/-- The half an escape stands for. -/
def unescapeHalf : Bytes → ℕ
  | [b] => b.val
  | [_, x] =>
    if x = 0x6e then 0x0a else if x = 0x72 then 0x0d else if x = 0x74 then 0x09
    else if x = 0x66 then 0x0c else if x = 0x62 then 0x08 else x.val
  | [_, _, a, b, c, d] =>
    0x1000 * unhexByte a + 0x100 * unhexByte b + 0x10 * unhexByte c + unhexByte d
  | _ => 0

theorem unescapeHalf_escapeHalf {u : ℕ} (hu : u < 0x10000) : unescapeHalf (escapeHalf u) = u := by
  unfold escapeHalf
  split_ifs with h1 h2 h3 h4 h5 h6 h7 h8
  iterate 7 subst_vars; decide
  · simp only [unescapeHalf, Fin.ofNat]; omega
  · simp only [unescapeHalf]
    rw [unhexByte_hexByte _ (by omega), unhexByte_hexByte _ (by omega),
      unhexByte_hexByte _ (by omega), unhexByte_hexByte _ (by omega)]
    omega

theorem halves_lt {c : CodePoint} {u : ℕ} (h : u ∈ halves c) : u < 0x10000 := by
  unfold halves at h
  split_ifs at h with hc
  · simp only [List.mem_singleton] at h; omega
  · simp only [List.mem_cons, List.not_mem_nil, or_false] at h; omega

theorem not_surrogate {c : CodePoint} (h : c.surrogate = false) :
    c.val < 0xd800 ∨ 0xdfff < c.val := by
  simp only [CodePoint.surrogate, Bool.and_eq_false_iff, decide_eq_false_iff_not] at h; omega

theorem halves_inj : ∀ {s t : Str}, s.valid = true → t.valid = true →
    s.flatMap halves = t.flatMap halves → s = t
  | [], [], _, _, _ => rfl
  | [], d :: t, _, _, h => by
    simp only [List.flatMap_nil, List.flatMap_cons, halves] at h; split_ifs at h <;> simp at h
  | c :: s, [], _, _, h => by
    simp only [List.flatMap_nil, List.flatMap_cons, halves] at h; split_ifs at h <;> simp at h
  | c :: s, d :: t, hs, ht, h => by
    simp only [Str.valid, List.all_cons, Bool.and_eq_true, Bool.not_eq_true'] at hs ht
    have hc := not_surrogate hs.1
    have hd := not_surrogate ht.1
    have hlt := c.isLt
    have hlt' := d.isLt
    have hcd : c = d ∧ s.flatMap halves = t.flatMap halves := by
      simp only [List.flatMap_cons, halves] at h
      split_ifs at h with h1 h2 h2 <;>
        simp only [List.cons_append, List.nil_append, List.cons.injEq] at h
      · exact ⟨Fin.ext h.1, h.2⟩
      · omega
      · omega
      · exact ⟨Fin.ext (by omega), h.2.2⟩
    rw [hcd.1, halves_inj (s := s) (t := t) hs.2 ht.2 hcd.2]

theorem escape_inj {s t : Str} (hs : s.valid = true) (ht : t.valid = true)
    (h : escape s = escape t) : s = t := by
  refine halves_inj hs ht ?_
  have h' : escape s ++ 0x22 :: [] = escape t ++ 0x22 :: [] := by rw [h]
  have hm := (escapes_split h').1
  have hid : ∀ w : Str, ((w.flatMap halves).map escapeHalf).map unescapeHalf = w.flatMap halves := by
    intro w
    rw [List.map_map]
    refine (List.map_congr_left fun u hu => ?_).trans (List.map_id _)
    obtain ⟨c, -, hc⟩ := List.mem_flatMap.1 hu
    exact unescapeHalf_escapeHalf (halves_lt hc)
  rw [← hid s, hm, hid t]

/-- Lists whose images under `f` agree are equal if `f` is injective on their elements. -/
theorem map_inj_on {α β : Type} {f : α → β} : ∀ {xs ys : List α},
    (∀ x ∈ xs, ∀ y ∈ ys, f x = f y → x = y) → xs.map f = ys.map f → xs = ys
  | [], [], _, _ => rfl
  | x :: xs, y :: ys, hi, h => by
    simp only [List.map_cons, List.cons.injEq] at h
    rw [hi x (by simp) y (by simp) h.1,
      map_inj_on (fun a ha b hb => hi a (by simp [ha]) b (by simp [hb])) h.2]

/-- The octets of a number's text. -/
def numByte (b : Byte) : Bool :=
  (0x30 ≤ b && b ≤ 0x39) || b == 0x2b || b == 0x2d || b == 0x2e || b == 0x65

theorem numByte_atom : ∀ b, numByte b = true → atomByte b = true := by decide +kernel

theorem intText_num (n : ℤ) : ∀ b ∈ intText n, numByte b = true :=
  intText_bytes (by decide) (by decide) n

/-- What a text of finite numbers must keep to: it is made of the octets of numbers, tells floats
    apart, and is no integer's. -/
structure FloatText (fr : ℚ → Bytes) : Prop where
  ne_nil : ∀ q, fr q ≠ []
  num : ∀ q, ∀ b ∈ fr q, numByte b = true
  inj : ∀ {q r}, fr q = fr r → q = r
  ne_int : ∀ q n, fr q ≠ intText n

/-- The text of a float; the non-finite ones as `json` writes them. -/
def floatText (fr : ℚ → Bytes) : PyFloat → Bytes
  | .finite q => fr q
  | .inf false => ascii "Infinity"
  | .inf true => ascii "-Infinity"
  | .nan => ascii "NaN"

/-- `dumps(v, separators=(",", ":"), sort_keys=True)`. -/
def dumps (fr : ℚ → Bytes) (v : Json) : Bytes := print (floatText fr) escape v.canon

/-- The kinds of values, told apart by the first octet of the text. -/
def kind : Json → ℕ
  | .null => 0 | .bool true => 1 | .bool false => 2 | .int _ | .float _ => 3
  | .str _ => 4 | .arr _ => 5 | .obj _ => 6

def kindOf (b : Byte) : ℕ :=
  if b = 0x6e then 0 else if b = 0x74 then 1 else if b = 0x66 then 2 else if b = 0x22 then 4
  else if b = 0x5b then 5 else if b = 0x7b then 6 else 3

theorem kindOf_num : ∀ b, numByte b = true → kindOf b = 3 := by decide +kernel

theorem kindOf_head {t : Bytes} (hne : t ≠ []) (hnum : ∀ b ∈ t, numByte b = true) :
    t.head?.map kindOf = some 3 := by
  obtain ⟨b, w, rfl⟩ := List.exists_cons_of_ne_nil hne
  simp [kindOf_num b (hnum b (by simp))]

section
variable {fr : ℚ → Bytes} (hf : FloatText fr)
include hf

theorem writers : Writers (floatText fr) escape where
  float_ne x := by
    rcases x with q | b | _
    · exact hf.ne_nil q
    · cases b <;> simp only [floatText] <;> decide
    · simp only [floatText]; decide
  float_atom x := by
    rcases x with q | b | _
    · exact fun b hb => numByte_atom b (hf.num q b hb)
    · cases b <;> simp only [floatText] <;> decide +kernel
    · simp only [floatText]; decide +kernel
  text_split := escape_split

theorem kindOf_print {v : Json} (hv : v.plain = true) :
    (print (floatText fr) escape v).head?.map kindOf = some v.kind := by
  cases v with
  | null => simp only [print]; decide
  | bool b => cases b <;> simp only [print] <;> decide
  | int n => exact kindOf_head (intText_atom n).1 (intText_num n)
  | float x =>
    rcases x with q | b | _
    · exact kindOf_head (hf.ne_nil q) (hf.num q)
    all_goals simp [plain] at hv
  | str s => rfl
  | arr xs => rfl
  | obj kvs => rfl

theorem kind_eq {v w : Json} (hv : v.plain = true) (hw : w.plain = true)
    (h : print (floatText fr) escape v = print (floatText fr) escape w) : v.kind = w.kind := by
  have := kindOf_print hf hv
  rw [h, kindOf_print hf hw] at this
  exact (Option.some.inj this).symm

/-- **A text determines its value**, for values with valid strings and finite floats. -/
theorem print_inj (v : Json) : ∀ {w : Json}, v.plain = true → w.plain = true →
    print (floatText fr) escape v = print (floatText fr) escape w → v = w := by
  induction v using Json.ind with
  | null | bool b =>
    intro w hv hw h
    have hk := kind_eq hf hv hw h
    revert hk
    try cases b
    all_goals (rcases w with _ | (_ | _) | _ | _ | _ | _ | _ <;> simp [kind])
  | int n =>
    intro w hv hw h
    have hk := kind_eq hf hv hw h
    rcases w with _ | (_ | _) | m | x | _ | _ | _ <;> simp only [kind] at hk <;> try omega
    · rw [intText_inj h]
    · rcases x with q | b | _
      · exact absurd h.symm (hf.ne_int q n)
      all_goals simp [plain] at hw
  | float x =>
    intro w hv hw h
    have hk := kind_eq hf hv hw h
    rcases x with q | b | _ <;> [skip; simp [plain] at hv; simp [plain] at hv]
    rcases w with _ | (_ | _) | m | y | _ | _ | _ <;> simp only [kind] at hk <;> try omega
    · exact absurd h (hf.ne_int q m)
    · rcases y with r | b | _ <;> [skip; simp [plain] at hw; simp [plain] at hw]
      rw [hf.inj h]
  | str s =>
    intro w hv hw h
    have hk := kind_eq hf hv hw h
    rcases w with _ | (_ | _) | m | x | t | _ | _ <;> simp only [kind] at hk <;> try omega
    simp only [print, quote, List.cons.injEq, true_and] at h
    rw [escape_inj hv hw (List.append_cancel_right h)]
  | arr xs ih =>
    intro w hv hw h
    have hk := kind_eq hf hv hw h
    rcases w with _ | (_ | _) | m | x | t | ys | _ <;> simp only [kind] at hk <;> try omega
    simp only [plain, plainElems_iff] at hv hw
    rw [map_inj_on (fun x hx y hy hxy => ih x hx (hv x hx) (hw y hy) hxy)
      (print_arr_inj (writers hf) h)]
  | obj kvs ih =>
    intro w hv hw h
    have hk := kind_eq hf hv hw h
    rcases w with _ | (_ | _) | m | x | t | ys | kvs' <;> simp only [kind] at hk <;> try omega
    simp only [plain, plainFields_iff] at hv hw
    rw [map_inj_on (fun kv hkv kv' hkv' hxy => ?_) (print_obj_inj (writers hf) h)]
    obtain ⟨h1, h2⟩ := fieldText_inj (writers hf) hxy
    exact Prod.ext (escape_inj (hv kv hkv).1 (hw kv' hkv').1 h1)
      (ih kv hkv (hv kv hkv).2 (hw kv' hkv').2 h2)

end

/-! ## Printed octets -/

/-- A printable ASCII character. -/
def asciiByte (b : Byte) : Bool := 0x20 ≤ b && b < 0x7f

theorem hexByte_ascii : ∀ n < 16, asciiByte (hexByte n) = true := by decide

theorem numByte_ascii : ∀ b, numByte b = true → asciiByte b = true := by decide +kernel

theorem asciiByte_printable {b : Byte} (h : asciiByte b = true) : 0x20 ≤ b := by
  simp only [asciiByte, Bool.and_eq_true, decide_eq_true_eq] at h
  exact h.1

theorem escapeHalf_ascii (u : ℕ) : ∀ b ∈ escapeHalf u, asciiByte b = true := by
  have hdigit : ∀ m : ℕ, asciiByte (hexByte (m % 16)) = true :=
    fun m => hexByte_ascii _ (Nat.mod_lt _ (by decide))
  unfold escapeHalf
  split_ifs with h1 h2 h3 h4 h5 h6 h7 h8
  iterate 7 decide +kernel
  · simp only [List.mem_singleton, forall_eq, asciiByte, Fin.le_def, Fin.lt_def, Fin.ofNat,
      Bool.and_eq_true, decide_eq_true_eq, Fin.coe_ofNat_eq_mod]
    omega
  · simp only [List.mem_cons, List.not_mem_nil, or_false, forall_eq_or_imp, forall_eq, hdigit]
    decide

theorem escape_ascii (s : Str) : ∀ b ∈ escape s, asciiByte b = true := by
  intro b hb
  obtain ⟨u, -, hb⟩ := List.mem_flatMap.1 hb
  exact escapeHalf_ascii u b hb

theorem utf8_high {c : CodePoint} (hc : 0x7f ≤ c.val) : ∀ b ∈ c.utf8, 0x7f ≤ b := by
  have hlt := c.isLt
  unfold CodePoint.utf8
  simp only
  split_ifs <;> simp only [List.mem_cons, List.not_mem_nil, or_false, forall_eq_or_imp, forall_eq,
    Fin.le_def, Fin.ofNat, Fin.coe_ofNat_eq_mod] <;> omega

theorem escapeRaw_printable (s : Str) : ∀ b ∈ escapeRaw s, 0x20 ≤ b := by
  intro b hb
  obtain ⟨c, -, hb⟩ := List.mem_flatMap.1 hb
  split_ifs at hb with hc
  · exact asciiByte_printable (escapeHalf_ascii _ b hb)
  · exact le_trans (by decide) (utf8_high (not_lt.1 hc) b hb)

/-- The literals of the language. -/
theorem literal_ascii : ∀ t ∈ ["null", "false", "true", "NaN", "Infinity", "-Infinity"],
    ∀ b ∈ ascii t, asciiByte b = true := by decide +kernel

theorem floatText_ascii {fr : ℚ → Bytes} (hf : FloatText fr) (x : PyFloat) :
    ∀ b ∈ floatText fr x, asciiByte b = true := by
  rcases x with q | b | _
  · exact fun b hb => numByte_ascii b (hf.num q b hb)
  · cases b
    · exact literal_ascii "Infinity" (by simp)
    · exact literal_ascii "-Infinity" (by simp)
  · exact literal_ascii "NaN" (by simp)

section
variable {P : Byte → Prop} (hP : ∀ b, asciiByte b = true → P b)
include hP

theorem joinComma_bytes {ts : List Bytes} (h : ∀ t ∈ ts, ∀ b ∈ t, P b) :
    ∀ b ∈ joinComma ts, P b := by
  fun_induction joinComma ts with
  | case1 => simp
  | case2 t => exact h t (by simp)
  | case3 t u ts ih =>
    intro b hb
    rcases List.mem_append.1 hb with hb | hb
    · exact h t (by simp) b hb
    rcases List.mem_cons.1 hb with rfl | hb
    · exact hP _ (by decide)
    · exact ih (fun t ht => h t (by simp [ht])) b hb

variable {fl : PyFloat → Bytes} {txt : Str → Bytes} (htxt : ∀ s, ∀ b ∈ txt s, P b)
include htxt

theorem quote_bytes (s : Str) : ∀ b ∈ quote txt s, P b := by
  intro b hb
  simp only [quote, List.mem_cons, List.mem_append, List.not_mem_nil, or_false] at hb
  rcases hb with rfl | hb | rfl
  exacts [hP _ (by decide), htxt s b hb, hP _ (by decide)]

/-- A text is made of ASCII characters and what is written for the strings. -/
theorem print_bytes (hfl : ∀ x, ∀ b ∈ fl x, asciiByte b = true) (v : Json) :
    ∀ b ∈ print fl txt v, P b := by
  induction v using Json.ind with
  | null => exact fun b hb => hP b (literal_ascii "null" (by simp) b hb)
  | bool b =>
    cases b
    · exact fun b hb => hP b (literal_ascii "false" (by simp) b hb)
    · exact fun b hb => hP b (literal_ascii "true" (by simp) b hb)
  | int n => exact fun b hb => hP b (numByte_ascii b (intText_num n b hb))
  | float x => exact fun b hb => hP b (hfl x b hb)
  | str s => exact quote_bytes hP htxt s
  | arr xs ih =>
    intro b hb
    simp only [print, printElems_eq, List.mem_cons, List.mem_append, List.not_mem_nil,
      or_false] at hb
    rcases hb with rfl | hb | rfl
    · exact hP _ (by decide)
    · refine joinComma_bytes hP (fun t ht => ?_) b hb
      obtain ⟨x, hx, rfl⟩ := List.mem_map.1 ht
      exact ih x hx
    · exact hP _ (by decide)
  | obj kvs ih =>
    intro b hb
    simp only [print, printFields_eq, List.mem_cons, List.mem_append, List.not_mem_nil,
      or_false] at hb
    rcases hb with rfl | hb | rfl
    · exact hP _ (by decide)
    · refine joinComma_bytes hP (fun t ht c hc => ?_) b hb
      obtain ⟨kv, hkv, rfl⟩ := List.mem_map.1 ht
      simp only [fieldText, List.mem_append, List.mem_cons] at hc
      rcases hc with hc | rfl | hc
      exacts [quote_bytes hP htxt _ c hc, hP _ (by decide), ih kv hkv c hc]
    · exact hP _ (by decide)

end

/-! ## Texts with raw characters

With `ensure_ascii=False` the characters past ASCII stand in a text as they are.  `toAscii` escapes
them, so that the texts of both kinds are compared as ASCII ones. -/

/-- Escape the UTF-8 characters of a text. -/
def toAscii : Bytes → Bytes
  | [] => []
  | b :: t =>
    if b.val < 0x7f then b :: toAscii t
    else if b.val < 0x80 then escapeHalf 0x7f ++ toAscii t
    else match t with
      | [] => []
      | c :: t =>
        if b.val < 0xe0 then escapeHalf ((b.val - 0xc0) * 0x40 + (c.val - 0x80)) ++ toAscii t
        else match t with
          | [] => []
          | d :: t =>
            if b.val < 0xf0 then
              escapeHalf ((b.val - 0xe0) * 0x1000 + (c.val - 0x80) * 0x40 + (d.val - 0x80)) ++
                toAscii t
            else match t with
              | [] => []
              | e :: t =>
                (halves (Fin.ofNat _ ((b.val - 0xf0) * 0x40000 + (c.val - 0x80) * 0x1000 +
                  (d.val - 0x80) * 0x40 + (e.val - 0x80)))).flatMap escapeHalf ++ toAscii t

theorem toAscii_append {a : Bytes} (ha : ∀ b ∈ a, asciiByte b = true) (t : Bytes) :
    toAscii (a ++ t) = a ++ toAscii t := by
  induction a with
  | nil => rfl
  | cons b a ih =>
    have hb : b.val < 0x7f := by
      have := ha b (by simp)
      simp only [asciiByte, Bool.and_eq_true, decide_eq_true_eq, Fin.lt_def] at this
      exact this.2
    rw [List.cons_append, toAscii.eq_def]
    simp only
    rw [if_pos hb, ih fun b hb => ha b (by simp [hb]), List.cons_append]

theorem toAscii_cons {b : Byte} (hb : asciiByte b = true) (t : Bytes) :
    toAscii (b :: t) = b :: toAscii t :=
  toAscii_append (a := [b]) (by simpa using hb) t

theorem toAscii_two {b c : Byte} (t : Bytes) (hlo : 0x80 ≤ b.val) (hhi : b.val < 0xe0) :
    toAscii (b :: c :: t) = escapeHalf ((b.val - 0xc0) * 0x40 + (c.val - 0x80)) ++ toAscii t := by
  rw [toAscii.eq_def]
  simp only
  rw [if_neg (by omega), if_neg (by omega), if_pos hhi]

theorem toAscii_three {b c d : Byte} (t : Bytes) (hlo : 0xe0 ≤ b.val) (hhi : b.val < 0xf0) :
    toAscii (b :: c :: d :: t) =
      escapeHalf ((b.val - 0xe0) * 0x1000 + (c.val - 0x80) * 0x40 + (d.val - 0x80)) ++
        toAscii t := by
  rw [toAscii.eq_def]
  simp only
  rw [if_neg (by omega), if_neg (by omega), if_neg (by omega), if_pos hhi]

theorem toAscii_four {b c d e : Byte} (t : Bytes) (hlo : 0xf0 ≤ b.val) :
    toAscii (b :: c :: d :: e :: t) =
      (halves (Fin.ofNat _ ((b.val - 0xf0) * 0x40000 + (c.val - 0x80) * 0x1000 +
        (d.val - 0x80) * 0x40 + (e.val - 0x80)))).flatMap escapeHalf ++ toAscii t := by
  rw [toAscii.eq_def]
  simp only
  rw [if_neg (by omega), if_neg (by omega), if_neg (by omega), if_neg (by omega)]

/-- A byte of a code point that continues the first one. -/
theorem val_continued (n : ℕ) : (Fin.ofNat 256 (0x80 + n % 0x40)).val - 0x80 = n % 0x40 := by
  rw [Fin.val_ofNat]
  omega

theorem toAscii_char (c : CodePoint) (t : Bytes) :
    toAscii ((if c.val < 0x7f then escapeHalf c.val else c.utf8) ++ t) =
      (halves c).flatMap escapeHalf ++ toAscii t := by
  have hlt := c.isLt
  have hone : c.val < 0x10000 → (halves c).flatMap escapeHalf = escapeHalf c.val := by
    intro h
    rw [show halves c = [c.val] from if_pos h, List.flatMap_singleton]
  split_ifs with h
  · rw [hone (by omega), toAscii_append (escapeHalf_ascii _)]
  unfold CodePoint.utf8
  simp only
  split_ifs with h1 h2 h3
  · have hc : c.val = 0x7f := by omega
    rw [hone (by omega), hc, toAscii.eq_def]
    simp [Fin.ofNat]
  · have hval : (Fin.ofNat 256 (0xc0 + c.val / 0x40)).val = 0xc0 + c.val / 0x40 :=
      Nat.mod_eq_of_lt (by omega)
    have hcode : (0xc0 + c.val / 0x40 - 0xc0) * 0x40 + c.val % 0x40 = c.val := by omega
    rw [hone (by omega), List.cons_append, List.cons_append, List.nil_append,
      toAscii_two t (by omega) (by omega), hval, val_continued, hcode]
  · have hval : (Fin.ofNat 256 (0xe0 + c.val / 0x1000)).val = 0xe0 + c.val / 0x1000 :=
      Nat.mod_eq_of_lt (by omega)
    have hcode : (0xe0 + c.val / 0x1000 - 0xe0) * 0x1000 + c.val / 0x40 % 0x40 * 0x40 +
        c.val % 0x40 = c.val := by omega
    rw [hone h3, List.cons_append, List.cons_append, List.cons_append, List.nil_append,
      toAscii_three t (by omega) (by omega), hval, val_continued, val_continued, hcode]
  · have hval : (Fin.ofNat 256 (0xf0 + c.val / 0x40000)).val = 0xf0 + c.val / 0x40000 :=
      Nat.mod_eq_of_lt (by omega)
    have hcode : (0xf0 + c.val / 0x40000 - 0xf0) * 0x40000 + c.val / 0x1000 % 0x40 * 0x1000 +
        c.val / 0x40 % 0x40 * 0x40 + c.val % 0x40 = c.val := by omega
    have hfin : Fin.ofNat _ c.val = c := Fin.ext (Nat.mod_eq_of_lt hlt)
    rw [List.cons_append, List.cons_append, List.cons_append, List.cons_append, List.nil_append,
      toAscii_four t (by omega), hval, val_continued, val_continued, val_continued, hcode, hfin]

theorem toAscii_escapeRaw (s : Str) (t : Bytes) :
    toAscii (escapeRaw s ++ t) = escape s ++ toAscii t := by
  induction s with
  | nil => rfl
  | cons c s ih =>
    have hraw : escapeRaw (c :: s) =
        (if c.val < 0x7f then escapeHalf c.val else c.utf8) ++ escapeRaw s := rfl
    have hesc : escape (c :: s) = (halves c).flatMap escapeHalf ++ escape s := by
      simp [escape]
    rw [hraw, hesc, List.append_assoc, toAscii_char, ih, List.append_assoc]

theorem toAscii_quote (s : Str) (t : Bytes) :
    toAscii (quote escapeRaw s ++ t) = quote escape s ++ toAscii t := by
  have hquote : ∀ u : Bytes, toAscii (0x22 :: u) = 0x22 :: toAscii u := toAscii_cons (by decide)
  simp only [quote, List.cons_append, List.append_assoc, List.nil_append, hquote,
    toAscii_escapeRaw]

theorem toAscii_joinComma {α : Type} {f g : α → Bytes} {t : Bytes} : ∀ {xs : List α},
    (∀ x ∈ xs, ∀ t, toAscii (f x ++ t) = g x ++ toAscii t) →
    toAscii (joinComma (xs.map f) ++ t) = joinComma (xs.map g) ++ toAscii t
  | [], _ => rfl
  | [x], h => h x (by simp) t
  | x :: y :: xs, h => by
    have hcomma : ∀ u : Bytes, toAscii (0x2c :: u) = 0x2c :: toAscii u := toAscii_cons (by decide)
    have ih := toAscii_joinComma (t := t) fun z hz => h z (List.mem_cons_of_mem x hz)
    simp only [List.map_cons, joinComma, List.append_assoc, List.cons_append] at ih ⊢
    rw [h x (by simp), hcomma, ih]

/-- Escaping a raw text gives the text in ASCII. -/
theorem toAscii_print {fl : PyFloat → Bytes} (hfl : ∀ x, ∀ b ∈ fl x, asciiByte b = true)
    (v : Json) : ∀ t, toAscii (print fl escapeRaw v ++ t) = print fl escape v ++ toAscii t := by
  induction v using Json.ind with
  | null => exact toAscii_append (literal_ascii "null" (by simp))
  | bool b =>
    cases b
    · exact toAscii_append (literal_ascii "false" (by simp))
    · exact toAscii_append (literal_ascii "true" (by simp))
  | int n => exact toAscii_append fun b hb => numByte_ascii b (intText_num n b hb)
  | float x => exact toAscii_append (hfl x)
  | str s => exact toAscii_quote s
  | arr xs ih =>
    intro t
    simp only [print, printElems_eq, List.cons_append, List.append_assoc, List.nil_append]
    rw [toAscii_cons (by decide), toAscii_joinComma ih, toAscii_cons (by decide)]
  | obj kvs ih =>
    intro t
    have hfield : ∀ kv ∈ kvs, ∀ t, toAscii (fieldText fl escapeRaw kv ++ t) =
        fieldText fl escape kv ++ toAscii t := by
      intro kv hkv t
      simp only [fieldText, List.append_assoc, List.cons_append]
      rw [toAscii_quote, toAscii_cons (by decide), ih kv hkv]
    simp only [print, printFields_eq, List.cons_append, List.append_assoc, List.nil_append]
    rw [toAscii_cons (by decide), toAscii_joinComma hfield, toAscii_cons (by decide)]

/-- The text of a value in ASCII, from its text of either kind. -/
theorem toAscii_text {fl : PyFloat → Bytes} (hfl : ∀ x, ∀ b ∈ fl x, asciiByte b = true) {v : Json}
    {t : Bytes} (h : print fl escape v = t ∨ print fl escapeRaw v = t) :
    print fl escape v = toAscii t := by
  have hnil : toAscii [] = [] := rfl
  rcases h with rfl | rfl
  · have hascii := toAscii_append (print_bytes (fun _ => id) escape_ascii hfl v) []
    rw [List.append_nil, hnil, List.append_nil] at hascii
    exact hascii.symm
  · have hraw := toAscii_print hfl v []
    rw [List.append_nil, hnil, List.append_nil] at hraw
    exact hraw.symm

end Json

/-! ## The codec -/

open Json in
/-- What programs take from the interpreter for JSON: the text of floats, `loads` (with or without
    the constants `NaN` and `Infinity`; `none` is an exception) and `float` of a string, with what
    the documentation of `json` says of them. -/
structure Codec where
  floatRepr : ℚ → Bytes
  floatRepr_text : FloatText floatRepr
  loads : (constants : Bool) → Bytes → Option Json
  floatOfStr : Str → Option PyFloat
  /-- Whether the exception of `loads` is a `RecursionError`; any other is a `ValueError`. -/
  deep : Bytes → Bool := fun _ => false
  /-- What was written is read back, up to the order of the keys. -/
  loads_dumps : ∀ (c : Bool) {D L : ℕ} {v : Json}, D ≤ 64 → v.wf = true →
    bounded D L 0 v = true → v.short = true → loads c (dumps floatRepr v) = some v.canon
  /-- The same holds of texts with `ensure_ascii=False`. -/
  loads_raw : ∀ (c : Bool) {D L : ℕ} {v : Json}, D ≤ 64 → v.wf = true →
    bounded D L 0 v = true → v.short = true →
      loads c (print (floatText floatRepr) escapeRaw v.canon) = some v.canon
  /-- A control character that is no white space stands in no JSON text. -/
  loads_control : ∀ (c : Bool) {t : Bytes} {b : Byte}, b ∈ t → b < 0x20 → b ≠ 0x09 → b ≠ 0x0a →
    b ≠ 0x0d → loads c t = none
  /-- The shortest object text is the empty object's. -/
  loads_obj : ∀ (c : Bool) {t : Bytes} {kvs : Fields}, loads c t = some (.obj kvs) →
    2 ≤ t.length ∧ (t.length = 2 → t = [0x7b, 0x7d])
  /-- A parsed object is a `dict`. -/
  loads_wf : ∀ (c : Bool) {t : Bytes} {v : Json}, loads c t = some v → v.wf = true
  /-- A longer integer is a `ValueError`. -/
  loads_short : ∀ (c : Bool) {t : Bytes} {v : Json}, loads c t = some v → v.short = true

namespace Codec

open Json

/-- `json.dumps(v, separators=(",", ":"), sort_keys=True).encode("utf-8")`. -/
def dumps (J : Codec) (v : Json) : Bytes := Json.dumps J.floatRepr v

theorem dumps_printable (J : Codec) (v : Json) : ∀ b ∈ J.dumps v, 0x20 ≤ b :=
  fun b hb => asciiByte_printable
    (print_bytes (fun _ => id) escape_ascii (floatText_ascii J.floatRepr_text) v.canon b hb)

/-- Numerator and denominator of a number, as Python writes it when it is whole. -/
def ratioText (q : ℚ) : Bytes :=
  intText q.num ++ if q.den = 1 then [0x2e, 0x30] else 0x65 :: intText q.den

theorem ratioText_split {m n : ℤ} {b c : Byte} {s t : Bytes} (hb : b = 0x2e ∨ b = 0x65)
    (hc : c = 0x2e ∨ c = 0x65) (h : intText m ++ b :: s = intText n ++ c :: t) :
    m = n ∧ b :: s = c :: t := by
  have hdig : ∀ k : ℤ, ∀ x ∈ intText k, (x != 0x2e && x != 0x65) = true :=
    intText_bytes (by decide) (by decide)
  have htake : ∀ (k : ℤ) (e : Byte) (r : Bytes), e = 0x2e ∨ e = 0x65 →
      (intText k ++ e :: r).takeWhile (fun x => x != 0x2e && x != 0x65) = intText k := by
    intro k e r he
    rw [List.takeWhile_append_of_pos (hdig k)]
    rcases he with rfl | rfl <;> simp
  have hmn := congrArg (List.takeWhile fun x : Byte => x != 0x2e && x != 0x65) h
  rw [htake m b s hb, htake n c t hc] at hmn
  rw [hmn] at h
  exact ⟨intText_inj hmn, List.append_cancel_left h⟩

theorem ratioText_tail (q : ℚ) : ∃ b t, ratioText q = intText q.num ++ b :: t ∧
    (b = 0x2e ∨ b = 0x65) := by
  unfold ratioText
  split_ifs
  exacts [⟨0x2e, [0x30], rfl, Or.inl rfl⟩, ⟨0x65, _, rfl, Or.inr rfl⟩]

theorem ratioText_float : FloatText ratioText where
  ne_nil q := by
    obtain ⟨b, t, h, -⟩ := ratioText_tail q
    simp [h]
  num q b hb := by
    unfold ratioText at hb
    rcases List.mem_append.1 hb with hb | hb
    · exact intText_num _ b hb
    split_ifs at hb
    · simp only [List.mem_cons, List.not_mem_nil, or_false] at hb
      rcases hb with rfl | rfl <;> decide
    · rcases List.mem_cons.1 hb with rfl | hb
      exacts [by decide, intText_num _ b hb]
  inj {q r} h := by
    obtain ⟨b, s, hq, hb⟩ := ratioText_tail q
    obtain ⟨c, t, hr, hc⟩ := ratioText_tail r
    have hqr := h
    rw [hq, hr] at h
    obtain ⟨hn, -⟩ := ratioText_split hb hc h
    refine Rat.ext hn ?_
    unfold ratioText at hqr
    rw [hn] at hqr
    have ht := List.append_cancel_left hqr
    split_ifs at ht with h1 h2 h2
    · rw [h1, h2]
    · exact absurd (List.cons.inj ht).1 (by decide)
    · exact absurd (List.cons.inj ht).1 (by decide)
    · exact_mod_cast intText_inj (List.cons.inj ht).2
  ne_int q n h := by
    obtain ⟨b, s, hq, hb⟩ := ratioText_tail q
    have hmem : b ∈ intText n := by rw [← h, hq]; simp
    exact intText_bytes (P := fun b => ¬ (b = 0x2e ∨ b = 0x65)) (by decide) (by decide) n b hmem hb

/-- The value a compact text was printed from, in ASCII or with raw characters. -/
def Reads (t : Bytes) (v : Json) : Prop :=
  v.wf = true ∧ v.short = true ∧ (∃ D L, bounded D L 0 v = true) ∧
    (print (floatText ratioText) escape v = t ∨ print (floatText ratioText) escapeRaw v = t)

theorem Reads.unique {t : Bytes} {v w : Json} (hv : Reads t v) (hw : Reads t w) : v = w := by
  have hfl := floatText_ascii ratioText_float
  obtain ⟨-, -, ⟨D, L, hb⟩, ht⟩ := hv
  obtain ⟨-, -, ⟨D', L', hb'⟩, ht'⟩ := hw
  exact print_inj ratioText_float v (plain_of_bounded v hb) (plain_of_bounded w hb')
    ((toAscii_text hfl ht).trans (toAscii_text hfl ht').symm)

theorem Reads.length_obj {t : Bytes} {kvs : Fields} (h : Reads t (.obj kvs)) :
    2 ≤ t.length ∧ (t.length = 2 → t = [0x7b, 0x7d]) := by
  obtain ⟨-, -, -, ht⟩ := h
  rcases ht with rfl | rfl <;> simp only [print, List.length_cons, List.length_append,
    List.length_nil] <;> refine ⟨by omega, fun hl => ?_⟩ <;>
    rw [List.eq_nil_of_length_eq_zero (l := joinComma _) (by omega)] <;> rfl

open Classical in
/-- A codec that reads back exactly the compact texts. -/
noncomputable def std : Codec where
  floatRepr := ratioText
  floatRepr_text := ratioText_float
  loads _ t := if h : ∃ v, Reads t v then some h.choose else none
  floatOfStr _ := none
  loads_dumps c D L v _ hwf hb hshort := by
    have hr : Reads (Json.dumps ratioText v) v.canon :=
      ⟨by rw [wf_canon, hwf], by rw [short_canon, hshort], ⟨D, L, by rw [bounded_canon, hb]⟩,
        Or.inl rfl⟩
    have h : ∃ v', Reads (Json.dumps ratioText v) v' := ⟨_, hr⟩
    rw [dif_pos h, h.choose_spec.unique hr]
  loads_raw c D L v _ hwf hb hshort := by
    have hr : Reads (print (floatText ratioText) escapeRaw v.canon) v.canon :=
      ⟨by rw [wf_canon, hwf], by rw [short_canon, hshort], ⟨D, L, by rw [bounded_canon, hb]⟩,
        Or.inr rfl⟩
    have h : ∃ v', Reads (print (floatText ratioText) escapeRaw v.canon) v' := ⟨_, hr⟩
    rw [dif_pos h, h.choose_spec.unique hr]
  loads_control c t b hb hlt _ _ _ := by
    have hfl := floatText_ascii ratioText_float
    rw [dif_neg]
    rintro ⟨v, -, -, -, rfl | rfl⟩
    · exact absurd (print_bytes (fun _ => asciiByte_printable)
        (fun s b hb => asciiByte_printable (escape_ascii s b hb)) hfl v b hb) (not_le.2 hlt)
    · exact absurd (print_bytes (fun _ => asciiByte_printable) escapeRaw_printable hfl v b hb)
        (not_le.2 hlt)
  loads_obj c t kvs h := by
    split_ifs at h with hex
    exact Reads.length_obj (Option.some.inj h ▸ hex.choose_spec)
  loads_wf c t v h := by
    split_ifs at h with hex
    rw [← Option.some.inj h]; exact hex.choose_spec.1
  loads_short c t v h := by
    split_ifs at h with hex
    rw [← Option.some.inj h]; exact hex.choose_spec.2.1

end Codec

/-- A Python `dict` of JSON values: no key twice, at any depth. -/
structure PyDict where
  fields : Fields
  wf : (Json.obj fields).wf = true

namespace PyDict

/-- The fields in the order of their keys. -/
def canon (d : PyDict) : Fields := Json.sortKeys (Json.canonFields d.fields)

theorem canon_obj (d : PyDict) : (Json.obj d.fields).canon = .obj d.canon := by
  rw [Json.canon, canon]

/-- The text of an object: `{}`, or at least six octets. -/
theorem dumps_length (J : Codec) (d : PyDict) :
    J.dumps (.obj d.fields) = [0x7b, 0x7d] ∨ 6 ≤ (J.dumps (.obj d.fields)).length := by
  rw [Codec.dumps, Json.dumps, canon_obj, Json.print, Json.printFields_eq]
  cases hc : d.canon with
  | nil => exact Or.inl rfl
  | cons kv kvs =>
    refine Or.inr ?_
    obtain ⟨b, t, hb, -⟩ := Json.print_head (Json.writers J.floatRepr_text) kv.2
    have hlen : ∀ (a : Bytes) (ts : List Bytes), a.length ≤ (Json.joinComma (a :: ts)).length := by
      intro a ts; cases ts <;> simp [Json.joinComma]
    have h5 : 4 ≤ (Json.fieldText (Json.floatText J.floatRepr) Json.escape kv).length := by
      simp [Json.fieldText, Json.quote, hb]; omega
    have := hlen (Json.fieldText (Json.floatText J.floatRepr) Json.escape kv)
      (kvs.map (Json.fieldText (Json.floatText J.floatRepr) Json.escape))
    simp only [List.map_cons, List.length_cons, List.length_append, List.length_nil]
    omega

end PyDict

end Py
