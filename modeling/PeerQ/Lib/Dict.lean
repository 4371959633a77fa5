/-
  Python's `dict`: an insertion-ordered map with one entry per key.

  `set` (`d[k] = v`) keeps the position of a key that is present and appends a
  new one; `get_set` and `size_set` say what it does to the map and to its size.
-/
import Mathlib

namespace Py

variable {κ ν : Type}

/-- A `dict` in insertion order. -/
@[ext] structure Dict (κ ν : Type) where
  entries : List (κ × ν)
  nodup : (entries.map Prod.fst).Nodup

section
variable [DecidableEq κ]

/-- The value of the first entry for `k`. -/
def lookup (k : κ) : List (κ × ν) → Option ν
  | [] => none
  | (k', v) :: l => if k' = k then some v else lookup k l

/-- Overwrite the entry for `k`, or append one. -/
def assign (k : κ) (v : ν) : List (κ × ν) → List (κ × ν)
  | [] => [(k, v)]
  | (k', v') :: l => if k' = k then (k', v) :: l else (k', v') :: assign k v l

theorem lookup_assign (k j : κ) (v : ν) (l : List (κ × ν)) :
    lookup j (assign k v l) = if k = j then some v else lookup j l := by
  induction l with
  | nil => simp [assign, lookup]
  | cons e l ih =>
    obtain ⟨k', v'⟩ := e
    by_cases hk : k' = k
    · subst hk
      by_cases hj : k' = j <;> simp [assign, lookup, hj]
    · by_cases hj : k' = j
      · subst hj
        simp [assign, lookup, hk, Ne.symm hk]
      · simp [assign, lookup, hk, hj, ih]

theorem assign_assign (k : κ) (v w : ν) (l : List (κ × ν)) :
    assign k w (assign k v l) = assign k w l := by
  induction l with
  | nil => simp [assign]
  | cons e l ih =>
    obtain ⟨k', v'⟩ := e
    by_cases hk : k' = k <;> simp [assign, hk, ih]

theorem keys_assign (k : κ) (v : ν) (l : List (κ × ν)) :
    (assign k v l).map Prod.fst =
      if k ∈ l.map Prod.fst then l.map Prod.fst else l.map Prod.fst ++ [k] := by
  induction l with
  | nil => simp [assign]
  | cons e l ih =>
    obtain ⟨k', v'⟩ := e
    by_cases hk : k' = k
    · simp [assign, hk]
    · have hk' : ¬ k = k' := Ne.symm hk
      simp only [assign, hk, if_false, List.map_cons, ih, List.mem_cons, hk', false_or]
      split_ifs <;> simp

theorem lookup_eq_none {k : κ} {l : List (κ × ν)} : lookup k l = none ↔ k ∉ l.map Prod.fst := by
  induction l with
  | nil => simp [lookup]
  | cons e l ih =>
    obtain ⟨k', v⟩ := e
    by_cases hk : k' = k
    · simp [lookup, hk]
    · simp [lookup, hk, ih, Ne.symm hk]

theorem mem_of_lookup {k : κ} {v : ν} {l : List (κ × ν)} (h : lookup k l = some v) : (k, v) ∈ l := by
  induction l with
  | nil => simp [lookup] at h
  | cons e l ih =>
    obtain ⟨k', v'⟩ := e
    by_cases hk : k' = k
    · simp only [lookup, hk, if_true, Option.some.injEq] at h; simp [hk, h]
    · simp only [lookup, hk, if_false] at h; exact List.mem_cons_of_mem _ (ih h)

theorem lookup_of_mem {k : κ} {v : ν} {l : List (κ × ν)} (hl : (l.map Prod.fst).Nodup)
    (h : (k, v) ∈ l) : lookup k l = some v := by
  induction l with
  | nil => simp at h
  | cons e l ih =>
    obtain ⟨k', v'⟩ := e
    simp only [List.map_cons, List.nodup_cons] at hl
    rcases List.mem_cons.1 h with h | h
    · simp only [Prod.mk.injEq] at h; simp [lookup, h]
    · have hk : k' ≠ k := fun hk => hl.1 (hk ▸ List.mem_map_of_mem (f := Prod.fst) h)
      simp [lookup, hk, ih hl.2 h]

theorem assign_nodup {k : κ} {v : ν} {l : List (κ × ν)} (hl : (l.map Prod.fst).Nodup) :
    ((assign k v l).map Prod.fst).Nodup := by
  rw [keys_assign]
  split_ifs with hk
  · exact hl
  · exact List.nodup_append.2 ⟨hl, by simp, by
      rintro a ha b hb rfl
      simp only [List.mem_singleton] at hb
      exact hk (hb ▸ ha)⟩

end

namespace Dict

def empty : Dict κ ν := ⟨[], List.nodup_nil⟩

instance : Inhabited (Dict κ ν) := ⟨empty⟩

instance [DecidableEq κ] [DecidableEq ν] : DecidableEq (Dict κ ν) := fun a b =>
  decidable_of_iff (a.entries = b.entries) Dict.ext_iff.symm

def size (d : Dict κ ν) : ℕ := d.entries.length

def keys (d : Dict κ ν) : List κ := d.entries.map Prod.fst

/-- Drop entries from the front while `p` holds of them. -/
def dropWhile (p : κ × ν → Bool) (d : Dict κ ν) : Dict κ ν :=
  ⟨d.entries.dropWhile p, d.nodup.sublist ((List.dropWhile_sublist p).map Prod.fst)⟩

/-- Drop the oldest `n` entries. -/
def drop (n : ℕ) (d : Dict κ ν) : Dict κ ν :=
  ⟨d.entries.drop n, d.nodup.sublist ((List.drop_sublist n _).map Prod.fst)⟩

/-- The entries for which `p` holds. -/
def filter (p : κ × ν → Bool) (d : Dict κ ν) : Dict κ ν :=
  ⟨d.entries.filter p, d.nodup.sublist (List.filter_sublist.map Prod.fst)⟩

/-- `{k: f(k) for k in keys}`, the keys being those of a set. -/
def ofKeys (ks : List κ) (h : ks.Nodup) (f : κ → ν) : Dict κ ν :=
  ⟨ks.map fun k => (k, f k), by simpa [Function.comp_def] using h⟩

variable [DecidableEq κ]

/-- `d.move_to_end(k)`. -/
def moveToEnd (d : Dict κ ν) (k : κ) : Dict κ ν where
  entries := d.entries.filter (fun e => e.1 ≠ k) ++ d.entries.filter fun e => e.1 = k
  nodup := by
    have hperm := (List.filter_append_perm (fun e => decide (e.1 ≠ k)) d.entries).map Prod.fst
    simpa using hperm.nodup_iff.2 d.nodup

/-- `d.get(k)`. -/
def get (d : Dict κ ν) (k : κ) : Option ν := lookup k d.entries

/-- `k in d`. -/
def has (d : Dict κ ν) (k : κ) : Bool := (d.get k).isSome

/-- `d[k] = v`. -/
def set (d : Dict κ ν) (k : κ) (v : ν) : Dict κ ν := ⟨assign k v d.entries, assign_nodup d.nodup⟩

@[simp] theorem get_empty (k : κ) : (empty : Dict κ ν).get k = none := rfl

theorem get_set (d : Dict κ ν) (k j : κ) (v : ν) :
    (d.set k v).get j = if k = j then some v else d.get j := lookup_assign k j v d.entries

@[simp] theorem get_set_self (d : Dict κ ν) (k : κ) (v : ν) : (d.set k v).get k = some v := by
  simp [get_set]

theorem get_set_ne (d : Dict κ ν) {k j : κ} (v : ν) (h : k ≠ j) : (d.set k v).get j = d.get j := by
  simp [get_set, h]

@[simp] theorem set_set (d : Dict κ ν) (k : κ) (v w : ν) : (d.set k v).set k w = d.set k w :=
  Dict.ext (assign_assign k v w d.entries)

theorem get_eq_none {d : Dict κ ν} {k : κ} : d.get k = none ↔ k ∉ d.keys := lookup_eq_none

theorem mem_entries {d : Dict κ ν} {k : κ} {v : ν} : (k, v) ∈ d.entries ↔ d.get k = some v :=
  ⟨lookup_of_mem d.nodup, mem_of_lookup⟩

theorem get_ofKeys {ks : List κ} (h : ks.Nodup) (f : κ → ν) (k : κ) :
    (ofKeys ks h f).get k = if k ∈ ks then some (f k) else none := by
  refine Option.ext fun v => ?_
  rw [← mem_entries, ofKeys, List.mem_map]
  by_cases hk : k ∈ ks
  · simp only [hk, if_true, Prod.mk.injEq, Option.some.injEq]
    exact ⟨by rintro ⟨j, -, rfl, hv⟩; exact hv, fun hv => ⟨k, hk, rfl, hv⟩⟩
  · simp only [hk, if_false, reduceCtorEq, iff_false, Prod.mk.injEq]
    rintro ⟨j, hj, rfl, -⟩
    exact hk hj

theorem get_filter {p : κ × ν → Bool} {d : Dict κ ν} {k : κ} {v : ν} :
    (d.filter p).get k = some v ↔ d.get k = some v ∧ p (k, v) = true := by
  rw [← mem_entries, ← mem_entries, filter, List.mem_filter]

theorem get_of_drop {d : Dict κ ν} {n : ℕ} {k : κ} {v : ν} (h : (d.drop n).get k = some v) :
    d.get k = some v :=
  mem_entries.1 (List.mem_of_mem_drop (mem_entries.2 h))

@[simp] theorem get_moveToEnd (d : Dict κ ν) (k j : κ) : (d.moveToEnd k).get j = d.get j := by
  refine Option.ext fun v => ?_
  rw [← mem_entries, ← mem_entries, moveToEnd, List.mem_append, List.mem_filter, List.mem_filter]
  by_cases hj : j = k <;> simp [hj]

theorem has_of_get {d : Dict κ ν} {k : κ} {v : ν} (h : d.get k = some v) : d.has k = true := by
  rw [has, h]
  rfl

theorem has_iff {d : Dict κ ν} {k : κ} : d.has k = true ↔ k ∈ d.keys := by
  rw [has, Option.isSome_iff_ne_none, ne_eq, get_eq_none, not_not]

theorem keys_set (d : Dict κ ν) (k : κ) (v : ν) :
    (d.set k v).keys = if k ∈ d.keys then d.keys else d.keys ++ [k] := keys_assign k v d.entries

theorem size_set (d : Dict κ ν) (k : κ) (v : ν) :
    (d.set k v).size = if d.has k then d.size else d.size + 1 := by
  have h := congrArg List.length (keys_set d k v)
  simp only [← has_iff (d := d), apply_ite List.length, List.length_append,
    List.length_singleton] at h
  simpa [keys, size] using h

theorem size_lt_size {d e : Dict κ ν} {k : κ} (h : ∀ j, d.has j = true → e.has j = true)
    (hk : d.has k = false) (hk' : e.has k = true) : d.size < e.size := by
  have hsub : (k :: d.keys) ⊆ e.keys := by
    intro j hj
    rcases List.mem_cons.1 hj with rfl | hj
    exacts [has_iff.1 hk', has_iff.1 (h j (has_iff.2 hj))]
  have hnd : (k :: d.keys).Nodup :=
    List.nodup_cons.2 ⟨fun hm => by simp [has_iff.2 hm] at hk, d.nodup⟩
  have hle := (hnd.subperm hsub).length_le
  simpa [keys, size] using hle

theorem size_le_card {d : Dict κ ν} {S : Finset κ} (h : ∀ k, d.has k = true → k ∈ S) :
    d.size ≤ S.card := by
  have hcard : d.keys.toFinset.card = d.size := by
    rw [keys, List.toFinset_card_of_nodup d.nodup, List.length_map, size]
  rw [← hcard]
  exact Finset.card_le_card fun k hk => h k (has_iff.2 (List.mem_toFinset.1 hk))

/-- Equal lookups make equal sizes. -/
theorem size_congr {d e : Dict κ ν} (h : ∀ k, d.get k = e.get k) : d.size = e.size := by
  have hperm : d.keys.Perm e.keys := by
    refine (List.perm_ext_iff_of_nodup d.nodup e.nodup).2 fun k => ?_
    change k ∈ d.keys ↔ k ∈ e.keys
    rw [← has_iff, ← has_iff, has, has, h k]
  simpa [keys, size] using hperm.length_eq

end Dict

end Py
