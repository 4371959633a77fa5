/-
  The election of a reclaimer.

  Every node searches its own list of live peers, itself first, for the first one
  with the largest score.  Where the scores are distinct this is the one with the
  largest score (`rendezvousReclaimer_eq_iff`), so order and repetition do not matter.
-/
import PeerQ.Node

namespace PeerQ

open Py

namespace PeerNode

variable {R : Runtime} {taskId : Str}

/-- The live peers of a sweep. -/
def livePeers (N : PeerNode R) (suspected : Str → Bool) : List Str :=
  N.nodeId :: N.peers.filter fun p => !suspected p

/-- They are the candidates of the sweep. -/
theorem reclaimSweep_eq (N : PeerNode R) {s : NodeState} (h : s.reclaim = .sleeping)
    (now wallNow : ℚ) (suspected : Str → Bool) (nonce : Str) :
    N.reclaimSweep s now wallNow suspected nonce =
      N.sweep now (N.livePeers suspected) suspected wallNow nonce s s.tasks.entries := by
  rw [reclaimSweep, h]
  rfl

/-- The scores of these peers exist and are distinct. -/
def ScoresDistinct (R : Runtime) (taskId : Str) (peers : Set Str) : Prop :=
  (∀ p ∈ peers, (score R taskId p).isSome = true) ∧ Set.InjOn (score R taskId) peers

/-- The score of a peer that has one. -/
def weight (R : Runtime) (taskId p : Str) : ℕ := (score R taskId p).getD 0

/-! ## The search for a maximum -/

/-- What the search has found so far is the largest of what it has seen. -/
theorem foldl_best {f : Option (Str × ℕ) → Str × ℕ → Option (Str × ℕ)}
    (hf : ∀ b c, f (some b) c = if b.2 < c.2 then some c else some b) (scored : List (Str × ℕ)) :
    ∀ b, ∃ c ∈ b :: scored, scored.foldl f (some b) = some c ∧ ∀ d ∈ b :: scored, d.2 ≤ c.2 := by
  induction scored with
  | nil => exact fun b => ⟨b, by simp, rfl, by simp⟩
  | cons x scored ih =>
    intro b
    rw [List.foldl_cons, hf]
    by_cases hlt : b.2 < x.2
    · obtain ⟨c, hc, heq, hmax⟩ := ih x
      refine ⟨c, List.mem_cons_of_mem _ hc, by rw [if_pos hlt, heq], fun d hd => ?_⟩
      obtain rfl | hd := List.mem_cons.1 hd
      exacts [hlt.le.trans (hmax x (by simp)), hmax d hd]
    · obtain ⟨c, hc, heq, hmax⟩ := ih b
      refine ⟨c, ?_, by rw [if_neg hlt, heq], fun d hd => ?_⟩
      · obtain rfl | hc := List.mem_cons.1 hc
        exacts [by simp, by simp [hc]]
      · obtain rfl | hd := List.mem_cons.1 hd
        · exact hmax d (by simp)
        obtain rfl | hd := List.mem_cons.1 hd
        · exact (not_lt.1 hlt).trans (hmax b (by simp))
        · exact hmax d (by simp [hd])

/-- The first entry with the largest score is an entry with the largest score. -/
theorem bestCandidate_spec : ∀ scored : List (Str × ℕ), scored ≠ [] →
    ∃ c ∈ scored, bestCandidate scored = some c.1 ∧ ∀ d ∈ scored, d.2 ≤ c.2 := by
  rintro (_ | ⟨b, scored⟩) hne
  · exact absurd rfl hne
  · rw [bestCandidate, List.foldl_cons]
    refine (foldl_best ?_ scored b).imp fun c hc =>
      ⟨hc.1, (congrArg (Option.map Prod.fst) hc.2.1).trans rfl, hc.2.2⟩
    exact fun _ _ => rfl

theorem mapM_score : ∀ {candidates : List Str},
    (∀ p ∈ candidates, (score R taskId p).isSome = true) →
    candidates.mapM (fun p => (score R taskId p).map fun n => (p, n)) =
      some (candidates.map fun p => (p, weight R taskId p))
  | [], _ => rfl
  | p :: candidates, h => by
    obtain ⟨n, hn⟩ := Option.isSome_iff_exists.1 (h p (by simp))
    rw [List.mapM_cons, mapM_score fun q hq => h q (by simp [hq])]
    simp [hn, weight]

/-- **Who is elected** where the scores are distinct. -/
theorem rendezvousReclaimer_eq_iff {candidates : List Str} {p : Str}
    (h : ScoresDistinct R taskId {x | x ∈ candidates}) :
    rendezvousReclaimer R taskId candidates = .ok (some p) ↔
      p ∈ candidates ∧ ∀ q ∈ candidates, weight R taskId q ≤ weight R taskId p := by
  have hweight : ∀ x ∈ candidates, ∀ y ∈ candidates, weight R taskId x = weight R taskId y →
      x = y := by
    intro x hx y hy heq
    obtain ⟨n, hn⟩ := Option.isSome_iff_exists.1 (h.1 x hx)
    obtain ⟨m, hm⟩ := Option.isSome_iff_exists.1 (h.1 y hy)
    refine h.2 hx hy ?_
    simpa [weight, hn, hm] using heq
  rw [rendezvousReclaimer, mapM_score h.1]
  simp only [Except.ok.injEq]
  cases hc : candidates with
  | nil => simp [bestCandidate]
  | cons a l =>
    rw [← hc]
    obtain ⟨c, hmem, heq, hmax⟩ := bestCandidate_spec
      (candidates.map fun p => (p, weight R taskId p)) (by simp [hc])
    obtain ⟨x, hx, rfl⟩ := List.mem_map.1 hmem
    have hlargest : ∀ q ∈ candidates, weight R taskId q ≤ weight R taskId x :=
      fun q hq => hmax _ (List.mem_map_of_mem hq)
    rw [heq, Option.some.injEq]
    constructor
    · rintro rfl
      exact ⟨hx, hlargest⟩
    · rintro ⟨hp, hle⟩
      exact hweight x hx p hp (le_antisymm (hle x hx) (hlargest p hp))

theorem exists_elected {candidates : List Str} (hne : candidates ≠ [])
    (h : ScoresDistinct R taskId {x | x ∈ candidates}) :
    ∃ p, rendezvousReclaimer R taskId candidates = .ok (some p) := by
  obtain ⟨c, -, heq, -⟩ := bestCandidate_spec
    (candidates.map fun p => (p, weight R taskId p)) (by simpa using hne)
  refine ⟨c.1, ?_⟩
  rw [rendezvousReclaimer, mapM_score h.1]
  simp only [heq]

/-! ## The election -/

/-- **The election of a reclaimer**, where the scores are distinct: a candidate is elected, the same
    one from every list with the same candidates; it stays when another one leaves, and when one is
    added, unless that one is elected; and of two nodes with the same live peers only one can elect
    itself. -/
theorem reclaimer_election {candidates : List Str} (hne : candidates ≠ [])
    (h : ScoresDistinct R taskId {x | x ∈ candidates}) :
    ∃ p ∈ candidates, rendezvousReclaimer R taskId candidates = .ok (some p) ∧
      (∀ l : List Str, (∀ x, x ∈ l ↔ x ∈ candidates) →
        rendezvousReclaimer R taskId l = .ok (some p)) ∧
      (∀ q, q ≠ p → ∀ l : List Str, (∀ x, x ∈ l ↔ x ∈ candidates ∧ x ≠ q) →
        rendezvousReclaimer R taskId l = .ok (some p)) ∧
      (∀ a, ∀ l : List Str, (∀ x, x ∈ l ↔ x = a ∨ x ∈ candidates) →
        ScoresDistinct R taskId {x | x ∈ l} →
        rendezvousReclaimer R taskId l = .ok (some p) ∨
          rendezvousReclaimer R taskId l = .ok (some a)) ∧
      ∀ (N N' : PeerNode R) (suspected suspected' : Str → Bool), N.nodeId ≠ N'.nodeId →
        (∀ x, x ∈ N.livePeers suspected ↔ x ∈ candidates) →
        (∀ x, x ∈ N'.livePeers suspected' ↔ x ∈ candidates) →
        ¬ (rendezvousReclaimer R taskId (N.livePeers suspected) = .ok (some N.nodeId) ∧
          rendezvousReclaimer R taskId (N'.livePeers suspected') = .ok (some N'.nodeId)) := by
  obtain ⟨p, hp⟩ := exists_elected hne h
  obtain ⟨hmem, hmax⟩ := (rendezvousReclaimer_eq_iff h).1 hp
  have hsub : ∀ l : List Str, (∀ x ∈ l, x ∈ candidates) → ScoresDistinct R taskId {x | x ∈ l} :=
    fun l hl => ⟨fun x hx => h.1 x (hl x hx), h.2.mono hl⟩
  have hsame : ∀ l : List Str, (∀ x, x ∈ l ↔ x ∈ candidates) →
      rendezvousReclaimer R taskId l = .ok (some p) := by
    intro l hl
    rw [rendezvousReclaimer_eq_iff (hsub l fun x hx => (hl x).1 hx)]
    exact ⟨(hl p).2 hmem, fun q hq => hmax q ((hl q).1 hq)⟩
  refine ⟨p, hmem, hp, hsame, fun q hq l hl => ?_, fun a l hl hd => ?_, ?_⟩
  · rw [rendezvousReclaimer_eq_iff (hsub l fun x hx => ((hl x).1 hx).1)]
    exact ⟨(hl p).2 ⟨hmem, hq.symm⟩, fun x hx => hmax x ((hl x).1 hx).1⟩
  · rw [rendezvousReclaimer_eq_iff hd, rendezvousReclaimer_eq_iff hd]
    obtain hle | hlt := le_or_gt (weight R taskId a) (weight R taskId p)
    · refine .inl ⟨(hl p).2 (.inr hmem), fun x hx => ?_⟩
      obtain rfl | hx := (hl x).1 hx
      exacts [hle, hmax x hx]
    · refine .inr ⟨(hl a).2 (.inl rfl), fun x hx => ?_⟩
      obtain rfl | hx := (hl x).1 hx
      exacts [le_rfl, (hmax x hx).trans hlt.le]
  · rintro N N' suspected suspected' hid hlive hlive' ⟨hself, hself'⟩
    rw [hsame _ hlive] at hself
    rw [hsame _ hlive'] at hself'
    simp only [Except.ok.injEq, Option.some.injEq] at hself hself'
    exact hid (hself.symm.trans hself')

theorem reclaimer_election_pair : ∃ p ∈ [str "b", str "c"],
    rendezvousReclaimer (Runtime.ofScheme .suffix) (str "t") [str "b", str "c"] = .ok (some p) := by
  have hb : score (Runtime.ofScheme .suffix) (str "t") (str "b") = some 0x743a62 := rfl
  have hc : score (Runtime.ofScheme .suffix) (str "t") (str "c") = some 0x743a63 := rfl
  have hd : ScoresDistinct (Runtime.ofScheme .suffix) (str "t") {x | x ∈ [str "b", str "c"]} := by
    constructor
    · simp [hb, hc]
    · rintro x hx y hy heq
      simp only [Set.mem_ofPred_eq, List.mem_cons, List.not_mem_nil, or_false] at hx hy
      rcases hx with rfl | rfl <;> rcases hy with rfl | rfl <;> simp_all
  obtain ⟨p, hp, helected, -⟩ := reclaimer_election (by simp) hd
  exact ⟨p, hp, helected⟩

end PeerNode

end PeerQ
