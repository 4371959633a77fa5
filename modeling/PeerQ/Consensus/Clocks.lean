/-
  `VectorClock` as the source keeps it (`peerq/consensus.py`): a `dict` from
  peers to counters, out of which the constructor takes what is not positive.

  `counts` forgets the order of the entries.  The operations on dicts are those
  of the lattice of counters (`counts_init`, `counts_increment`,
  `counts_merge`, `compare_counts`), in whatever order the interpreter goes
  through a set of keys, and the laws of the lattice are theirs.
-/
import PeerQ.Consensus

namespace PeerQ

open Py

/-! ## The comparison of counters -/

/-- The comparison the other way round. -/
def ClockComparison.mirror : ClockComparison → ClockComparison
  | before => after
  | after => before
  | equal => equal
  | concurrent => concurrent

namespace VectorClock

theorem compare_le_iff {a b : VectorClock} :
    a.compare b = .before ∨ a.compare b = .equal ↔ a ≤ b := by
  rw [compare_eq]
  split_ifs with h1 h2 h2 <;> simp [h1]

theorem compare_equal_iff {a b : VectorClock} : a.compare b = .equal ↔ a = b := by
  rw [compare_eq, le_antisymm_iff (a := a)]
  by_cases h1 : a ≤ b <;> by_cases h2 : b ≤ a <;> simp [h1, h2]

theorem compare_swap (a b : VectorClock) : b.compare a = (a.compare b).mirror := by
  rw [compare_eq, compare_eq]
  by_cases h1 : a ≤ b <;> by_cases h2 : b ≤ a <;> simp [h1, h2, ClockComparison.mirror]

theorem compare_increment (a : VectorClock) (p : Str) :
    VectorClock.compare (a.increment p) a = .after := by
  have hnot : ¬ a.increment p ≤ a := by
    intro h
    have hp := h p
    rw [Counters.get_increment, if_pos rfl] at hp
    omega
  rw [compare_eq, if_neg hnot, if_pos (a.le_increment p)]

end VectorClock

/-! ## Clocks as dicts -/

/-- How the interpreter goes through the union of two sets. -/
structure SetUnion where
  list : List Str → List Str → List Str
  nodup : ∀ a b, (list a b).Nodup
  mem_list : ∀ a b k, k ∈ list a b ↔ k ∈ a ∨ k ∈ b

instance : Inhabited SetUnion where
  default := ⟨fun a b => (a ++ b).dedup, fun a b => List.nodup_dedup _, by simp⟩

/-- A `VectorClock`, with what its constructor sees to. -/
structure ClockDict where
  clock : Dict Str ℤ
  pos : ∀ k v, clock.get k = some v → 0 < v

namespace ClockDict

/-- The constructor. -/
def init (clock : Option (Dict Str ℤ)) : ClockDict where
  clock := (clock.getD .empty).filter fun e => 0 < e.2
  pos _ _ h := of_decide_eq_true (Dict.get_filter.1 h).2

variable (U : SetUnion) (a b : ClockDict)

def get (peerId : Str) : ℤ := (a.clock.get peerId).getD 0

def increment (peerId : Str) : ClockDict :=
  init (some (a.clock.set peerId ((a.clock.get peerId).getD 0 + 1)))

def merge : ClockDict :=
  init (some (.ofKeys (U.list a.clock.keys b.clock.keys) (U.nodup _ _) fun k =>
    max (a.get k) (b.get k)))

def compare : ClockComparison :=
  let allKeys := U.list a.clock.keys b.clock.keys
  let selfLeqOther := allKeys.all fun k => a.get k ≤ b.get k
  let otherLeqSelf := allKeys.all fun k => b.get k ≤ a.get k
  if selfLeqOther && otherLeqSelf then .equal
  else if selfLeqOther && !otherLeqSelf then .before
  else if otherLeqSelf && !selfLeqOther then .after
  else .concurrent

/-- The counters of a clock. -/
def counts : VectorClock := .ofFun a.clock.keys fun k => (a.get k).toNat

/-- Equal clocks: their dicts have the same entries. -/
def Same : Prop := ∀ k, a.clock.get k = b.clock.get k

/-- The order of clocks. -/
def Le : Prop := compare U a b = .before ∨ compare U a b = .equal

variable {U a b} {k : Str}

/-! ## Dicts and counters -/

theorem get_of_not_mem (h : k ∉ a.clock.keys) : a.get k = 0 := by
  rw [get, Dict.get_eq_none.2 h, Option.getD_none]

theorem get_nonneg : 0 ≤ a.get k := by
  unfold get
  cases h : a.clock.get k with
  | none => exact le_rfl
  | some v => exact (a.pos k v h).le

theorem get_counts : (a.counts.get k : ℤ) = a.get k := by
  rw [counts, Counters.get_ofFun]
  split_ifs with h
  · exact Int.toNat_of_nonneg get_nonneg
  · rw [get_of_not_mem h, Nat.cast_zero]

/-- What is kept of a dict. -/
theorem get_init (clock : Option (Dict Str ℤ)) :
    (init clock).get k = max 0 (((clock.getD .empty).get k).getD 0) := by
  unfold get
  cases h : (init clock).clock.get k with
  | some v =>
    obtain ⟨hv, hpos⟩ := Dict.get_filter.1 h
    rw [hv]
    exact (max_eq_right (of_decide_eq_true hpos).le).symm
  | none =>
    refine (max_eq_left ?_).symm
    cases hv : (clock.getD .empty).get k with
    | none => exact le_rfl
    | some v =>
      by_contra hpos
      have hkept : (init clock).clock.get k = some v :=
        Dict.get_filter.2 ⟨hv, decide_eq_true (not_le.1 hpos)⟩
      rw [h] at hkept
      exact absurd hkept (by simp)

theorem lookup_map {α β : Type} (f : α → β) (l : List (Str × α)) :
    lookup k (l.map fun e => (e.1, f e.2)) = (lookup k l).map f := by
  induction l with
  | nil => rfl
  | cons e l ih =>
    by_cases he : e.1 = k <;> simp [lookup, he, ih]

/-- The clock that is decoded from the fields of a JSON object is that of its `dict`. -/
theorem counts_init (d : Dict Str ℤ) :
    (init (some d)).counts = .ofFields (d.entries.map fun e => (e.1, .int e.2)) := by
  refine Counters.ext_get fun k => ?_
  rw [← Nat.cast_inj (R := ℤ), get_counts, get_init, Option.getD_some, VectorClock.ofFields,
    Counters.get_ofFun, lookup_map]
  have hkeys : (d.entries.map fun e => (e.1, Json.int e.2)).map Prod.fst = d.keys := by
    rw [List.map_map]
    rfl
  rw [hkeys, ← Dict.get]
  cases hv : d.get k with
  | none =>
    rw [if_neg (Dict.get_eq_none.1 hv)]
    rfl
  | some v =>
    rw [if_pos (Dict.has_iff.1 (Dict.has_of_get hv))]
    exact (max_comm 0 v).trans (Int.toNat_eq_max v).symm

theorem clock_get : a.clock.get k = if 0 < a.get k then some (a.get k) else none := by
  unfold get
  cases h : a.clock.get k with
  | none => rfl
  | some v => exact (if_pos (a.pos k v h)).symm

theorem counts_eq_iff : a.counts = b.counts ↔ a.Same b := by
  constructor
  · intro h k
    rw [clock_get, clock_get, ← get_counts, ← get_counts, h]
  · intro h
    refine Counters.ext_get fun k => ?_
    have hk : a.get k = b.get k := by rw [get, get, h k]
    rw [← get_counts, ← get_counts] at hk
    exact_mod_cast hk

/-! ## The operations -/

theorem counts_increment (p : Str) : (a.increment p).counts = a.counts.increment p := by
  refine Counters.ext_get fun k => ?_
  have hget : (a.increment p).get k = if k = p then a.get p + 1 else a.get k := by
    rw [increment, get_init, Option.getD_some, Dict.get_set]
    by_cases hk : k = p
    · subst hk
      rw [if_pos rfl, if_pos rfl, Option.getD_some, ← get]
      exact max_eq_right (add_nonneg get_nonneg zero_le_one)
    · rw [if_neg (Ne.symm hk), if_neg hk, ← get]
      exact max_eq_right get_nonneg
  rw [← Nat.cast_inj (R := ℤ), get_counts, hget, Counters.get_increment]
  split_ifs <;> push_cast <;> rw [get_counts]

theorem counts_merge : (merge U a b).counts = a.counts ⊔ b.counts := by
  refine Counters.ext_get fun k => ?_
  have hget : (merge U a b).get k = max (a.get k) (b.get k) := by
    rw [merge, get_init, Option.getD_some, Dict.get_ofKeys]
    split_ifs with hk
    · exact max_eq_right (le_max_of_le_left get_nonneg)
    · rw [U.mem_list, not_or] at hk
      rw [get_of_not_mem hk.1, get_of_not_mem hk.2]
      rfl
  rw [← Nat.cast_inj (R := ℤ), get_counts, hget, Counters.get_sup, Nat.cast_max, get_counts,
    get_counts]

/-- Comparing over the keys of both is comparing everywhere. -/
theorem all_le_iff {c d : ClockDict}
    (h : ∀ k ∈ c.clock.keys, k ∈ U.list a.clock.keys b.clock.keys) :
    (U.list a.clock.keys b.clock.keys).all (fun k => c.get k ≤ d.get k) =
      decide (c.counts ≤ d.counts) := by
  rw [Bool.eq_iff_iff, List.all_eq_true, decide_eq_true_iff, Counters.le_def]
  have hcast : ∀ k, c.counts.get k ≤ d.counts.get k ↔ c.get k ≤ d.get k := by
    intro k
    rw [← get_counts, ← get_counts, Nat.cast_le]
  simp only [hcast, decide_eq_true_eq]
  refine ⟨fun hall k => ?_, fun hall k _ => hall k⟩
  by_cases hk : k ∈ c.clock.keys
  · exact hall k (h k hk)
  · rw [get_of_not_mem hk]
    exact get_nonneg

theorem compare_counts : compare U a b = VectorClock.compare a.counts b.counts := by
  have hab := all_le_iff (U := U) (a := a) (b := b) (c := a) (d := b) fun k hk =>
    (U.mem_list _ _ _).2 (Or.inl hk)
  have hba := all_le_iff (U := U) (a := a) (b := b) (c := b) (d := a) fun k hk =>
    (U.mem_list _ _ _).2 (Or.inr hk)
  rw [VectorClock.compare_eq, compare]
  simp only [hab, hba]
  by_cases h1 : a.counts ≤ b.counts <;> by_cases h2 : b.counts ≤ a.counts <;> simp [h1, h2]

theorem le_iff_counts : Le U a b ↔ a.counts ≤ b.counts := by
  rw [Le, compare_counts, VectorClock.compare_le_iff]

/-- **Vector clocks form a lattice**, for clocks from any maps to integers. -/
theorem clocks_lattice (U : SetUnion) (m₁ m₂ m₃ : Option (Dict Str ℤ)) (p : Str) :
    let a := init m₁
    let b := init m₂
    let c := init m₃
    (compare U a b = .equal ↔ a.Same b) ∧
      (Le U a a ∧ (Le U a b → Le U b a → a.Same b) ∧ (Le U a b → Le U b c → Le U a c)) ∧
      compare U b a = (compare U a b).mirror ∧
      (Le U a (merge U a b) ∧ Le U b (merge U a b) ∧
        (Le U a c → Le U b c → Le U (merge U a b) c)) ∧
      compare U (a.increment p) a = .after := by
  intro a b c
  simp only [compare_counts, le_iff_counts, counts_merge, counts_increment, ← counts_eq_iff]
  refine ⟨VectorClock.compare_equal_iff, ⟨le_rfl, le_antisymm, le_trans⟩,
    VectorClock.compare_swap _ _, ⟨le_sup_left, le_sup_right, sup_le⟩,
    VectorClock.compare_increment _ _⟩

/-- A counter that is zero is as good as none. -/
example : compare default (init (some ⟨[(str "p", 0)], by decide⟩)) (init none) = .equal := by
  decide

end ClockDict

end PeerQ
