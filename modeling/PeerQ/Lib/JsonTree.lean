/-
  JSON values as trees: the nodes of a value with their depths, keys included.

  The children of a node stand in the order in which they come off a stack onto
  which they were pushed from left to right, keys first.
-/
import PeerQ.Lib.JsonCodec
import PeerQ.Lib.Traversal

namespace Py

namespace Json

/-- The number of elements or fields. -/
def length : Json → ℕ
  | .arr xs => xs.length
  | .obj kvs => kvs.length
  | _ => 0

/-- A list or an object. -/
def isCollection : Json → Bool
  | .arr _ | .obj _ => true
  | _ => false

theorem sum_length_eq_zero {ns : List (Json × ℕ)} (h : ¬ ∃ n ∈ ns, n.1.isCollection = true) :
    (ns.map fun n => n.1.length).sum = 0 := by
  refine List.sum_eq_zero fun k hk => ?_
  obtain ⟨n, hn, rfl⟩ := List.mem_map.1 hk
  have hn' : ¬ n.1.isCollection = true := fun hc => h ⟨n, hn, hc⟩
  cases hv : n.1 with
  | arr | obj => exact absurd (by rw [hv]; rfl) hn'
  | _ => rfl

def children : Json × ℕ → List (Json × ℕ)
  | (.obj kvs, d) =>
    (kvs.map (fun kv => (Json.str kv.1, d + 1)) ++ kvs.map fun kv => (kv.2, d + 1)).reverse
  | (.arr xs, d) => (xs.map fun x => (x, d + 1)).reverse
  | _ => []

mutual
/-- The nodes of a value that stands at depth `d`. -/
def nodes : ℕ → Json → List (Json × ℕ)
  | d, .arr xs => (.arr xs, d) :: nodesElems (d + 1) xs
  | d, .obj kvs => (.obj kvs, d) ::
    (nodesFields (d + 1) kvs ++ (kvs.map fun kv => (Json.str kv.1, d + 1)).reverse)
  | d, v => [(v, d)]
def nodesElems : ℕ → List Json → List (Json × ℕ)
  | _, [] => []
  | d, x :: xs => nodesElems d xs ++ nodes d x
def nodesFields : ℕ → List (Str × Json) → List (Json × ℕ)
  | _, [] => []
  | d, (_, v) :: kvs => nodesFields d kvs ++ nodes d v
end

theorem nodesElems_eq (d : ℕ) (xs : List Json) : nodesElems d xs =
    (xs.map fun x => (x, d)).reverse.flatMap fun n => nodes n.2 n.1 := by
  induction xs with
  | nil => rfl
  | cons x xs ih => simp [nodesElems, ih]

theorem nodesFields_eq (d : ℕ) (kvs : Fields) : nodesFields d kvs =
    (kvs.map fun kv => (kv.2, d)).reverse.flatMap fun n => nodes n.2 n.1 := by
  induction kvs with
  | nil => rfl
  | cons kv kvs ih =>
    obtain ⟨k, v⟩ := kv
    simp [nodesFields, ih]

theorem nodes_eq (d : ℕ) (v : Json) :
    nodes d v = (v, d) :: (children (v, d)).flatMap fun n => nodes n.2 n.1 := by
  cases v with
  | arr xs => rw [nodes, nodesElems_eq, children]
  | obj kvs =>
    have hkeys : ((kvs.map fun kv => (Json.str kv.1, d + 1)).reverse.flatMap fun n =>
        nodes n.2 n.1) = (kvs.map fun kv => (Json.str kv.1, d + 1)).reverse := by
      have hone : ∀ n ∈ (kvs.map fun kv => (Json.str kv.1, d + 1)).reverse,
          nodes n.2 n.1 = [n] := by
        intro n hn
        obtain ⟨kv, -, rfl⟩ := List.mem_map.1 (List.mem_reverse.1 hn)
        rfl
      rw [List.flatMap_congr hone, List.flatMap_singleton']
    rw [nodes, nodesFields_eq, children, List.reverse_append, List.flatMap_append, hkeys]
  | _ => rfl

/-- The tree of a value. -/
def tree : Traversal.Forest (Json × ℕ) where
  children := children
  nodes n := nodes n.2 n.1
  nodes_eq n := nodes_eq n.2 n.1

/-! ## Induction over the nodes -/

theorem forall_children_arr {P : Json × ℕ → Prop} {d : ℕ} {xs : List Json} :
    (∀ c ∈ children (.arr xs, d), P c) ↔ ∀ x ∈ xs, P (x, d + 1) := by
  simp only [children, List.mem_reverse, List.forall_mem_map]

theorem forall_children_obj {P : Json × ℕ → Prop} {d : ℕ} {kvs : Fields} :
    (∀ c ∈ children (.obj kvs, d), P c) ↔
      ∀ kv ∈ kvs, P (.str kv.1, d + 1) ∧ P (kv.2, d + 1) := by
  simp only [children, List.mem_reverse, List.forall_mem_append, List.forall_mem_map]
  exact ⟨fun h kv hkv => ⟨h.1 kv hkv, h.2 kv hkv⟩,
    fun h => ⟨fun kv hkv => (h kv hkv).1, fun kv hkv => (h kv hkv).2⟩⟩

/-- Induction on a value with a hypothesis for its children. -/
theorem ind_children {P : Json → Prop} (h : ∀ v, (∀ d, ∀ c ∈ children (v, d), P c.1) → P v)
    (v : Json) : P v := by
  have hstr : ∀ s, P (.str s) := fun s => h _ fun d c hc => by simp [children] at hc
  induction v using Json.ind with
  | null | bool | int | float | str => exact h _ fun d c hc => by simp [children] at hc
  | arr xs ih => exact h _ fun d => forall_children_arr.2 ih
  | obj kvs ih => exact h _ fun d => forall_children_obj.2 fun kv hkv => ⟨hstr kv.1, ih kv hkv⟩

/-- A property of all nodes, one level after the other. -/
theorem forall_nodes {P : Json × ℕ → Prop} {d : ℕ} {v : Json} : (∀ n ∈ nodes d v, P n) ↔
    P (v, d) ∧ ∀ c ∈ children (v, d), ∀ n ∈ nodes c.2 c.1, P n := by
  rw [nodes_eq, List.forall_mem_cons]
  simp only [List.mem_flatMap, forall_exists_index, and_imp]
  exact and_congr_right fun _ => ⟨fun h c hc n hn => h n c hc hn, fun h n c hc hn => h c hc n hn⟩

/-- What is asked of a node and its children is asked of all nodes. -/
theorem forall_nodes_iff {P : Json × ℕ → Prop} {Q : ℕ → Json → Prop}
    (h : ∀ d v, Q d v ↔ P (v, d) ∧ ∀ c ∈ children (v, d), Q c.2 c.1) (v : Json) :
    ∀ d, (∀ n ∈ nodes d v, P n) ↔ Q d v := by
  induction v using ind_children with
  | h v ih =>
    intro d
    rw [forall_nodes, h]
    exact and_congr_right fun _ => forall₂_congr fun c hc => ih d c hc c.2

/-- What is summed up over the nodes. -/
theorem sum_nodes {f g : Json → ℕ}
    (h : ∀ d v, g v = f v + ((children (v, d)).map fun c => g c.1).sum) (v : Json) :
    ∀ d, ((nodes d v).map fun n => f n.1).sum = g v := by
  induction v using ind_children with
  | h v ih =>
    intro d
    rw [nodes_eq, List.map_cons, List.sum_cons, List.map_flatMap, List.flatMap_def,
      List.sum_flatten, List.map_map, h d]
    exact congrArg _ (congrArg _ (List.map_congr_left fun c hc => ih d c hc c.2))

theorem size_children (d : ℕ) (v : Json) :
    v.size = 1 + ((children (v, d)).map fun c => c.1.size).sum := by
  cases v with
  | arr xs => simp [size, sizeElems_eq, children, List.sum_reverse, Function.comp_def]
  | obj kvs =>
    simp [size, sizeFields_eq, children, List.sum_reverse, Function.comp_def]
    exact Nat.add_comm _ _
  | _ => rfl

theorem items_children (d : ℕ) (v : Json) :
    v.items = v.length + ((children (v, d)).map fun c => c.1.items).sum := by
  cases v with
  | arr xs => simp [items, itemsElems_eq, children, List.sum_reverse, Function.comp_def, length]
  | obj kvs => simp [items, itemsFields_eq, children, List.sum_reverse, Function.comp_def, length]
  | _ => rfl

theorem length_nodes (d : ℕ) (v : Json) : (nodes d v).length = v.size := by
  rw [← sum_nodes (f := fun _ => 1) size_children v d]
  simp

theorem sum_length_nodes (d : ℕ) (v : Json) : ((nodes d v).map fun n => n.1.length).sum = v.items :=
  sum_nodes items_children v d

theorem bounded_iff_nodes {D L d : ℕ} {v : Json} : bounded D L d v = true ↔ ∀ n ∈ nodes d v,
    n.2 ≤ D ∧ (∀ s, n.1 = .str s → s.valid = true ∧ (s.flatMap CodePoint.utf8).length ≤ L) ∧
      ∀ x, n.1 = .float x → ∃ q, x = .finite q := by
  refine (forall_nodes_iff (Q := fun d v => bounded D L d v = true) (fun d v => ?_) v d).symm
  cases v with
  | null | bool | int => simp [bounded, children]
  | float x => cases x <;> simp [bounded, children]
  | str s => simp [bounded, children, and_assoc]
  | arr xs =>
    rw [bounded, Bool.and_eq_true, decide_eq_true_eq, boundedElems_iff, forall_children_arr]
    simp
  | obj kvs =>
    rw [bounded, Bool.and_eq_true, decide_eq_true_eq, boundedFields_iff, forall_children_obj]
    simp

/-- Below the root there are lists and objects only if it is one. -/
theorem exists_collection_iff {d : ℕ} {v : Json} :
    (∃ n ∈ nodes d v, n.1.isCollection = true) ↔ v.isCollection = true := by
  constructor
  · rintro ⟨n, hn, hc⟩
    cases v with
    | arr | obj => rfl
    | _ =>
      obtain rfl := List.mem_singleton.1 hn
      exact hc
  · intro h
    exact ⟨(v, d), by simp [nodes_eq d v], h⟩

/-! ## The nodes of a stack -/

theorem pending_singleton (v : Json) (d : ℕ) : Traversal.pending tree [(v, d)] = nodes d v :=
  List.flatMap_singleton _ _

theorem forall_pending {P : Json × ℕ → Prop} {stack : List (Json × ℕ)} :
    (∀ n ∈ Traversal.pending tree stack, P n) ↔ ∀ e ∈ stack, ∀ n ∈ nodes e.2 e.1, P n := by
  simp only [Traversal.pending, tree, List.mem_flatMap, forall_exists_index, and_imp]
  exact ⟨fun h e he n hn => h n e he hn, fun h n e he hn => h e he n hn⟩

theorem length_pending (stack : List (Json × ℕ)) :
    (Traversal.pending tree stack).length = (stack.map fun e => e.1.size).sum := by
  simp only [Traversal.pending, tree, List.length_flatMap, length_nodes]

theorem sum_length_pending (stack : List (Json × ℕ)) :
    ((Traversal.pending tree stack).map fun n => n.1.length).sum =
      (stack.map fun e => e.1.items).sum := by
  rw [Traversal.pending, List.map_flatMap, List.flatMap_def, List.sum_flatten, List.map_map]
  exact congrArg _ (List.map_congr_left fun e _ => sum_length_nodes e.2 e.1)

end Json

end Py
