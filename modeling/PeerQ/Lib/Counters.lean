/-
  Finite maps from identifiers to counters, zero where they say nothing, ordered
  pointwise: the lattice of vector clocks.

  A map is kept as its positive entries in increasing order of identifiers, so
  equal maps are equal values (`ext_get`); `ofFun` builds one from a list of
  identifiers and a function, and every operation is an `ofFun`.
-/
import PeerQ.Lib.Dict

namespace Py

/-- The positive entries of a map to `ℕ`, identifiers increasing. -/
@[ext] structure Counters (ι : Type) [LinearOrder ι] where
  entries : List (ι × ℕ)
  sorted : (entries.map Prod.fst).Pairwise (· < ·)
  pos : ∀ e ∈ entries, 0 < e.2

namespace Counters

variable {ι : Type} [LinearOrder ι]

instance : DecidableEq (Counters ι) := fun a b =>
  decidable_of_iff (a.entries = b.entries) Counters.ext_iff.symm

def keys (c : Counters ι) : List ι := c.entries.map Prod.fst

def get (c : Counters ι) (k : ι) : ℕ := (lookup k c.entries).getD 0

/-- The map with the values of `f` on the identifiers of `ks`. -/
def ofFun (ks : List ι) (f : ι → ℕ) : Counters ι where
  entries := (((ks.dedup.insertionSort (· ≤ ·)).filter fun k => 0 < f k)).map fun k => (k, f k)
  sorted := by
    rw [List.map_map, show Prod.fst ∘ (fun k => (k, f k)) = id from rfl, List.map_id]
    refine List.Pairwise.filter _ ?_
    have hs : (ks.dedup.insertionSort (· ≤ ·)).Pairwise (· ≤ ·) := List.pairwise_insertionSort _ _
    have hn : (ks.dedup.insertionSort (· ≤ ·)).Nodup :=
      (List.perm_insertionSort _ _).nodup_iff.2 (List.nodup_dedup ks)
    exact (hs.and hn).imp fun h => lt_of_le_of_ne h.1 h.2
  pos := by
    intro e he
    simp only [List.mem_map, List.mem_filter, decide_eq_true_eq] at he
    obtain ⟨k, ⟨-, hk⟩, rfl⟩ := he
    exact hk

theorem nodup_keys (c : Counters ι) : c.keys.Nodup := c.sorted.imp ne_of_lt

theorem get_eq_iff {c : Counters ι} {k : ι} {n : ℕ} (hn : 0 < n) :
    c.get k = n ↔ (k, n) ∈ c.entries := by
  refine ⟨fun h => ?_, fun h => by rw [get, lookup_of_mem c.nodup_keys h]; rfl⟩
  unfold get at h
  cases hl : lookup k c.entries with
  | none => rw [hl, Option.getD_none] at h; omega
  | some m => rw [hl, Option.getD_some] at h; exact h ▸ mem_of_lookup hl

theorem get_eq_zero {c : Counters ι} {k : ι} : c.get k = 0 ↔ k ∉ c.keys := by
  rw [keys, ← lookup_eq_none, get]
  cases hl : lookup k c.entries with
  | none => simp
  | some m => simp [(c.pos _ (mem_of_lookup hl)).ne']

theorem mem_keys {c : Counters ι} {k : ι} : k ∈ c.keys ↔ 0 < c.get k := by
  rw [Nat.pos_iff_ne_zero, ne_eq, get_eq_zero, not_not]

/-- A map that is zero wherever another one is has no more entries. -/
theorem length_entries_le {a b : Counters ι} (h : a.keys ⊆ b.keys) :
    a.entries.length ≤ b.entries.length := by
  have hle := (a.nodup_keys.subperm h).length_le
  simpa [keys] using hle

@[simp] theorem get_ofFun (ks : List ι) (f : ι → ℕ) (k : ι) :
    (ofFun ks f).get k = if k ∈ ks then f k else 0 := by
  have hmem : ∀ n, (k, n) ∈ (ofFun ks f).entries ↔ k ∈ ks ∧ 0 < f k ∧ n = f k := by
    intro n
    simp only [ofFun, List.mem_map, List.mem_filter, decide_eq_true_eq, Prod.mk.injEq,
      (List.perm_insertionSort _ _).mem_iff, List.mem_dedup]
    constructor
    · rintro ⟨a, ⟨ha, hp⟩, rfl, rfl⟩; exact ⟨ha, hp, rfl⟩
    · rintro ⟨ha, hp, rfl⟩; exact ⟨k, ⟨ha, hp⟩, rfl, rfl⟩
  by_cases hk : k ∈ ks ∧ 0 < f k
  · rw [if_pos hk.1]
    exact (get_eq_iff hk.2).2 ((hmem _).2 ⟨hk.1, hk.2, rfl⟩)
  · have h0 : (ofFun ks f).get k = 0 := by
      by_contra h0
      have := (hmem _).1 ((get_eq_iff (Nat.pos_of_ne_zero h0)).1 rfl)
      exact hk ⟨this.1, this.2.1⟩
    rw [h0]
    split_ifs with h
    · by_contra hf; exact hk ⟨h, Nat.pos_of_ne_zero (Ne.symm hf)⟩
    · rfl

/-- Equal maps are equal values. -/
theorem ext_get {a b : Counters ι} (h : ∀ k, a.get k = b.get k) : a = b := by
  have hmem : ∀ e, e ∈ a.entries ↔ e ∈ b.entries := by
    rintro ⟨k, n⟩
    constructor
    · intro he
      exact (get_eq_iff (a.pos _ he)).1 (by rw [← h, (get_eq_iff (a.pos _ he)).2 he])
    · intro he
      exact (get_eq_iff (b.pos _ he)).1 (by rw [h, (get_eq_iff (b.pos _ he)).2 he])
  have hp : a.entries.Perm b.entries :=
    (List.perm_ext_iff_of_nodup a.nodup_keys.of_map b.nodup_keys.of_map).2 hmem
  exact Counters.ext (hp.eq_of_pairwise
    (fun x y _ _ hxy hyx => absurd (lt_trans hxy hyx) (lt_irrefl _))
    (List.pairwise_map.1 a.sorted) (List.pairwise_map.1 b.sorted))

/-! ## Order and joins -/

instance : PartialOrder (Counters ι) where
  le a b := ∀ k, a.get k ≤ b.get k
  le_refl _ _ := le_rfl
  le_trans _ _ _ h1 h2 k := (h1 k).trans (h2 k)
  le_antisymm _ _ h1 h2 := ext_get fun k => le_antisymm (h1 k) (h2 k)

theorem le_def {a b : Counters ι} : a ≤ b ↔ ∀ k, a.get k ≤ b.get k := Iff.rfl

/-- The pointwise maximum. -/
def merge (a b : Counters ι) : Counters ι :=
  ofFun (a.keys ++ b.keys) fun k => max (a.get k) (b.get k)

@[simp] theorem get_merge (a b : Counters ι) (k : ι) :
    (a.merge b).get k = max (a.get k) (b.get k) := by
  rw [merge, get_ofFun]
  split_ifs with h
  · rfl
  · simp only [List.mem_append, not_or] at h
    rw [get_eq_zero.2 h.1, get_eq_zero.2 h.2, max_self]

instance : SemilatticeSup (Counters ι) where
  sup := merge
  le_sup_left a b k := by rw [get_merge]; exact le_max_left _ _
  le_sup_right a b k := by rw [get_merge]; exact le_max_right _ _
  sup_le a b c h1 h2 k := by rw [get_merge]; exact max_le (h1 k) (h2 k)

@[simp] theorem merge_eq_sup (a b : Counters ι) : a.merge b = a ⊔ b := rfl

@[simp] theorem get_sup (a b : Counters ι) (k : ι) : (a ⊔ b).get k = max (a.get k) (b.get k) :=
  get_merge a b k

def zero : Counters ι := ofFun [] fun _ => 0

@[simp] theorem get_zero (k : ι) : (zero : Counters ι).get k = 0 := by simp [zero]

instance : OrderBot (Counters ι) where
  bot := zero
  bot_le a k := by rw [get_zero]; exact Nat.zero_le _

/-- One more at `k`. -/
def increment (c : Counters ι) (k : ι) : Counters ι :=
  ofFun (c.keys ++ [k]) fun j => if j = k then c.get k + 1 else c.get j

@[simp] theorem get_increment (c : Counters ι) (k j : ι) :
    (c.increment k).get j = if j = k then c.get k + 1 else c.get j := by
  rw [increment, get_ofFun]
  split_ifs with h1 h2 h2
  · rfl
  · rfl
  · subst h2; simp at h1
  · simp only [List.mem_append, not_or] at h1; exact (get_eq_zero.2 h1.1).symm

theorem le_increment (c : Counters ι) (k : ι) : c ≤ c.increment k := by
  intro j
  rw [get_increment]
  split_ifs with h
  · subst h; exact Nat.le_succ _
  · exact le_rfl

instance (a b : Counters ι) : Decidable (a ≤ b) :=
  decidable_of_iff (∀ k ∈ a.keys ++ b.keys, a.get k ≤ b.get k) <| by
    refine ⟨fun h k => ?_, fun h k _ => h k⟩
    by_cases hk : k ∈ a.keys ++ b.keys
    · exact h k hk
    · simp only [List.mem_append, not_or] at hk
      rw [get_eq_zero.2 hk.1]; exact Nat.zero_le _

/-! ## Increments

A map as the set of the increments it counts: of every identifier, those with numbers up to its
counter. -/

def past (c : Counters ι) : Set (ι × ℕ) := {x | 1 ≤ x.2 ∧ x.2 ≤ c.get x.1}

theorem mem_past {c : Counters ι} {k : ι} {n : ℕ} : (k, n) ∈ c.past ↔ 1 ≤ n ∧ n ≤ c.get k := Iff.rfl

theorem past_zero : (zero : Counters ι).past = ∅ := by
  ext ⟨k, n⟩
  rw [mem_past, get_zero]
  simp only [Set.mem_empty_iff_false, iff_false]
  omega

theorem past_increment (c : Counters ι) (k : ι) :
    (c.increment k).past = insert (k, c.get k + 1) c.past := by
  ext ⟨j, n⟩
  rw [Set.mem_insert_iff, mem_past, mem_past, get_increment, Prod.mk.injEq]
  split_ifs with h
  · subst h
    simp only [true_and]
    omega
  · simp [h]

theorem past_sup (a b : Counters ι) : (a ⊔ b).past = a.past ∪ b.past := by
  ext ⟨k, n⟩
  rw [Set.mem_union, mem_past, mem_past, mem_past, get_sup, le_max_iff]
  tauto

theorem past_subset {a b : Counters ι} : a.past ⊆ b.past ↔ a ≤ b := by
  refine ⟨fun h k => ?_, fun h x hx => ⟨hx.1, hx.2.trans (h x.1)⟩⟩
  rcases Nat.eq_zero_or_pos (a.get k) with h0 | h0
  · rw [h0]; exact Nat.zero_le _
  · exact (h (mem_past.2 ⟨h0, le_rfl⟩)).2

theorem past_inj {a b : Counters ι} : a.past = b.past ↔ a = b := by
  refine ⟨fun h => ?_, congrArg past⟩
  exact le_antisymm (past_subset.1 h.subset) (past_subset.1 h.superset)

end Counters

end Py
