/-
  Merging task records (`_record_lattice_key` and `merge_records` of
  `peerq/consensus.py`).

  Records are registers in the sense of `Lww`: the key decides, the clocks are
  joined, and key and clock determine a record of a task (`recordLww`).  So the
  merge without a keyring is a join.  With a keyring the merge prefers
  authorised arguments, and since the signature covers the clock it leaves them
  unless the winner's clock is the larger one.
-/
import PeerQ.Crypto

namespace PeerQ

open Py

/-! ## The key -/

/-- The key of `_record_lattice_key`, a tuple compared from left to right. -/
abbrev LatticeKey :=
  ℕ ×ₗ FenceToken ×ₗ ℕ ×ₗ Str ×ₗ (ℕ ×ₗ Str) ×ₗ (ℕ ×ₗ Bytes) ×ₗ (ℕ ×ₗ Str) ×ₗ Bytes ×ₗ ℚ ×ₗ
    (ℕ ×ₗ Bytes) ×ₗ (ℕ ×ₗ Str)

/-- `(0, "")` for `None`, `(1, x)` for `x`. -/
def optKey {α : Type} : Option (List α) → ℕ ×ₗ List α
  | none => toLex (0, [])
  | some x => toLex (1, x)

theorem optKey_injective {α : Type} : Function.Injective (optKey : Option (List α) → _) := by
  intro a b h
  have h' := toLex.injective.eq_iff (a := ofLex (optKey a)) (b := ofLex (optKey b)) |>.1 h
  cases a <;> cases b <;> simp [optKey] at h' ⊢
  exact h'

/-- `_record_lattice_key`. -/
def latticeKey (r : TaskRecord) : LatticeKey :=
  toLex (if r.state.isTerminal then 1 else 0,
  toLex (r.fenceToken,
  toLex (r.state.latticeRank,
  toLex (r.updatedBy,
  toLex (optKey r.claimedBy,
  toLex (optKey r.result,
  toLex (optKey r.error,
  toLex (r.payload,
  toLex (r.leaseExpiry,
  toLex (optKey r.signature,
         optKey r.signerId))))))))))

theorem latticeKey_clock (r : TaskRecord) (c : VectorClock) :
    latticeKey { r with vectorClock := c } = latticeKey r := rfl

section
variable {r s : TaskRecord}

/-- What a larger key says: a terminal record is not below a non-terminal one, and among records
    alike in this the token does not get smaller. -/
theorem latticeKey_le (h : latticeKey r ≤ latticeKey s) :
    (r.state.isTerminal = true → s.state.isTerminal = true) ∧
      ((s.state.isTerminal = true → r.state.isTerminal = true) → r.fenceToken ≤ s.fenceToken) := by
  unfold latticeKey at h
  rw [Prod.Lex.toLex_le_toLex] at h
  rcases h with h | ⟨h, h'⟩
  · cases hr : r.state.isTerminal <;> cases hs : s.state.isTerminal <;> simp [hr, hs] at h ⊢
  · rw [Prod.Lex.toLex_le_toLex] at h'
    have ht : r.fenceToken ≤ s.fenceToken := by
      rcases h' with h' | ⟨h', -⟩
      exacts [le_of_lt h', le_of_eq h']
    cases hr : r.state.isTerminal <;> cases hs : s.state.isTerminal <;> simp [hr, hs] at h ⊢
    exacts [ht, ht]

theorem latticeKey_lt_terminal (hr : r.state.isTerminal = false) (hs : s.state.isTerminal = true) :
    latticeKey r < latticeKey s := by
  unfold latticeKey
  rw [Prod.Lex.toLex_lt_toLex]
  exact Or.inl (by simp [hr, hs])

theorem latticeKey_lt_token (h : r.state.isTerminal = s.state.isTerminal)
    (ht : r.fenceToken < s.fenceToken) : latticeKey r < latticeKey s := by
  unfold latticeKey
  rw [Prod.Lex.toLex_lt_toLex, Prod.Lex.toLex_lt_toLex]
  exact Or.inr ⟨by simp [h], Or.inl ht⟩

theorem latticeKey_lt_rank (h : r.state.isTerminal = s.state.isTerminal)
    (ht : r.fenceToken = s.fenceToken) (hk : r.state.latticeRank < s.state.latticeRank) :
    latticeKey r < latticeKey s := by
  unfold latticeKey
  rw [Prod.Lex.toLex_lt_toLex, Prod.Lex.toLex_lt_toLex, Prod.Lex.toLex_lt_toLex]
  exact Or.inr ⟨by simp [h], Or.inr ⟨ht, Or.inl hk⟩⟩

end

/-- The key covers every field but the task and the clock. -/
theorem record_ext {r s : TaskRecord} (ht : r.taskId = s.taskId)
    (hk : latticeKey r = latticeKey s) (hc : r.vectorClock = s.vectorClock) : r = s := by
  simp only [latticeKey, toLex_inj, Prod.mk.injEq, optKey_injective.eq_iff,
    TaskState.latticeRank_injective.eq_iff] at hk
  obtain ⟨-, h2, h3, h4, h5, h6, h7, h8, h9, h10, h11⟩ := hk
  exact TaskRecord.ext ht h3 h8 h6 h7 h5 h2 h9 hc h4 h10 h11

/-- Task records as registers. -/
def recordLww : Lww TaskRecord LatticeKey VectorClock Str where
  key := latticeKey
  clk := TaskRecord.vectorClock
  put r c := { r with vectorClock := c }
  grp := TaskRecord.taskId
  key_put := latticeKey_clock
  clk_put _ _ := rfl
  grp_put _ _ := rfl
  ext := record_ext

/-! ## `merge_records` -/

/-- The end of `merge_records`: the record with the larger key, with the join of the clocks. -/
def joinRecords (r1 r2 : TaskRecord) : TaskRecord :=
  let winner := if latticeKey r1 ≥ latticeKey r2 then r1 else r2
  { winner with vectorClock := r1.vectorClock.merge r2.vectorClock }

theorem joinRecords_eq (r1 r2 : TaskRecord) : joinRecords r1 r2 = recordLww.merge r1 r2 := rfl

/-- `merge_records`. -/
def mergeRecords (R : Runtime) (r1 r2 : TaskRecord) (keyring : Option PeerKeyRing) :
    Except Exn TaskRecord :=
  if r1.taskId ≠ r2.taskId then
    .error (.valueError (str "Cannot merge records for different tasks: " ++ r1.taskId ++
      str " vs " ++ r2.taskId))
  else match keyring with
    | none => .ok (joinRecords r1 r2)
    | some K =>
      let valid1 := verifyTaskAuthorization R r1 K
      let valid2 := verifyTaskAuthorization R r2 K
      if valid1 && !valid2 then .ok r1
      else if valid2 && !valid1 then .ok r2
      else if !valid1 && !valid2 then
        .error (.valueError (str "Neither record is cryptographically authorized for task " ++
          r1.taskId))
      else .ok (joinRecords r1 r2)

section
variable {R : Runtime} {r s t : TaskRecord}

theorem mergeRecords_none (h : r.taskId = s.taskId) :
    mergeRecords R r s none = .ok (recordLww.merge r s) := by
  simp [mergeRecords, h, joinRecords_eq]

theorem mergeRecords_some (K : PeerKeyRing) (h : r.taskId = s.taskId) :
    (mergeRecords R r s (some K)).toOption =
      recordLww.guarded (fun x => verifyTaskAuthorization R x K) r s := by
  unfold mergeRecords Lww.guarded
  cases hr : verifyTaskAuthorization R r K <;> cases hs : verifyTaskAuthorization R s K <;>
    simp [h, hr, hs, joinRecords_eq, Except.toOption]

theorem mergeRecords_ok_iff {K : PeerKeyRing} {m : TaskRecord} (h : r.taskId = s.taskId) :
    mergeRecords R r s (some K) = .ok m ↔
      recordLww.guarded (fun x => verifyTaskAuthorization R x K) r s = some m := by
  rw [← mergeRecords_some K h]
  cases mergeRecords R r s (some K) <;> simp [Except.toOption]

theorem guarded_authorized {K : PeerKeyRing} (hr : verifyTaskAuthorization R r K = true)
    (hs : verifyTaskAuthorization R s K = true) :
    recordLww.guarded (fun x => verifyTaskAuthorization R x K) r s = some (recordLww.merge r s) :=
  Lww.guarded_valid hr hs

theorem mergeRecords_valid {K : PeerKeyRing} (h : r.taskId = s.taskId)
    (hr : verifyTaskAuthorization R r K = true) (hs : verifyTaskAuthorization R s K = true) :
    mergeRecords R r s (some K) = .ok (recordLww.merge r s) :=
  (mergeRecords_ok_iff h).2 (guarded_authorized hr hs)

/-- A merge that returns keeps the task. -/
theorem mergeRecords_taskId {K : Option PeerKeyRing} {m : TaskRecord}
    (h : mergeRecords R r s K = .ok m) : r.taskId = s.taskId ∧ m.taskId = r.taskId := by
  by_cases ht : r.taskId = s.taskId
  · refine ⟨ht, ?_⟩
    have hj : (joinRecords r s).taskId = r.taskId := Lww.grp_merge (M := recordLww) ht
    unfold mergeRecords at h
    cases K with
    | none => simp only [ht, ne_eq, not_true_eq_false, if_false, Except.ok.injEq] at h; rw [← h, hj]
    | some K =>
      simp only [ht, ne_eq, not_true_eq_false, if_false] at h
      split_ifs at h <;> simp only [Except.ok.injEq] at h <;> subst h
      exacts [rfl, ht.symm, hj]
  · simp [mergeRecords, ht] at h

/-- What a merge returns is one of its arguments with a clock; the second one only if its key is the
    larger one or the first one is not authorised. -/
theorem mergeRecords_winner {K : Option PeerKeyRing} {m : TaskRecord}
    (h : mergeRecords R r s K = .ok m) : ∃ c, m = { r with vectorClock := c } ∨
      m = { s with vectorClock := c } ∧ (latticeKey r < latticeKey s ∨
        ∃ K', K = some K' ∧ verifyTaskAuthorization R r K' = false) := by
  have hj : ∃ c, joinRecords r s = { r with vectorClock := c } ∨
      joinRecords r s = { s with vectorClock := c } ∧ latticeKey r < latticeKey s := by
    refine ⟨r.vectorClock.merge s.vectorClock, ?_⟩
    unfold joinRecords
    by_cases hk : latticeKey r ≥ latticeKey s
    · rw [if_pos hk]; exact Or.inl rfl
    · rw [if_neg hk]; exact Or.inr ⟨rfl, not_le.1 hk⟩
  obtain ⟨c, hj⟩ := hj
  unfold mergeRecords at h
  split_ifs at h
  cases K with
  | none => rw [← Except.ok.inj h]; exact ⟨c, hj.imp_right fun h => ⟨h.1, Or.inl h.2⟩⟩
  | some K =>
    cases hr : verifyTaskAuthorization R r K <;> cases hs : verifyTaskAuthorization R s K <;>
      simp [hr, hs] at h
    · exact ⟨s.vectorClock, Or.inr ⟨h ▸ rfl, Or.inr ⟨K, rfl, hr⟩⟩⟩
    · exact ⟨r.vectorClock, Or.inl (h ▸ rfl)⟩
    · rw [← h]; exact ⟨c, hj.imp_right fun h => ⟨h.1, Or.inl h.2⟩⟩

/-- The clock of a merge is at most the join of the clocks. -/
theorem mergeRecords_clock {K : Option PeerKeyRing} {m : TaskRecord}
    (h : mergeRecords R r s K = .ok m) : m.vectorClock ≤ r.vectorClock ⊔ s.vectorClock := by
  unfold mergeRecords at h
  split_ifs at h
  cases K with
  | none => rw [← Except.ok.inj h]; exact le_rfl
  | some K =>
    cases hr : verifyTaskAuthorization R r K <;> cases hs : verifyTaskAuthorization R s K <;>
      simp [hr, hs] at h <;> subst h
    exacts [le_sup_right, le_sup_left, le_rfl]

/-- **`merge_records` without a keyring is a join**: commutative, associative and idempotent on the
    records of a task as whole records, and the key of the result is the larger key. -/
theorem mergeRecords_join (h12 : r.taskId = s.taskId) (h23 : s.taskId = t.taskId) :
    mergeRecords R r s none = mergeRecords R s r none ∧
    (∃ m, (mergeRecords R s t none >>= fun x => mergeRecords R r x none) = .ok m ∧
      (mergeRecords R r s none >>= fun x => mergeRecords R x t none) = .ok m) ∧
    mergeRecords R r r none = .ok r ∧
    ∃ m, mergeRecords R r s none = .ok m ∧ latticeKey m = max (latticeKey r) (latticeKey s) := by
  have hst : (recordLww.merge s t).taskId = s.taskId := Lww.grp_merge (M := recordLww) h23
  have hrs : (recordLww.merge r s).taskId = r.taskId := Lww.grp_merge (M := recordLww) h12
  refine ⟨?_, ⟨recordLww.merge r (recordLww.merge s t), ?_, ?_⟩, ?_, _, mergeRecords_none h12, ?_⟩
  · rw [mergeRecords_none h12, mergeRecords_none h12.symm, Lww.merge_comm (M := recordLww) h12]
  · rw [mergeRecords_none h23]
    exact mergeRecords_none (R := R) (h12.trans hst.symm)
  · rw [mergeRecords_none h12, Lww.merge_assoc (M := recordLww) h12 h23]
    exact mergeRecords_none (R := R) (hrs.trans (h12.trans h23))
  · rw [mergeRecords_none rfl, Lww.merge_self]
  · exact recordLww.key_merge r s

end

/-! ## Records of two peers

A task submitted by `a` and finished by `b`, who has seen the submission or not. -/

namespace Sample

def pendingA : TaskRecord where
  taskId := str "t"
  state := .pending
  payload := []
  vectorClock := Counters.zero.increment (str "a")
  updatedBy := str "a"
  signerId := some (str "a")

/-- Finished by `b` without having seen the submission by `a`. -/
def doneB : TaskRecord where
  taskId := str "t"
  state := .done
  payload := []
  result := some []
  claimedBy := some (str "b")
  fenceToken := ⟨1, str "b"⟩
  vectorClock := Counters.zero.increment (str "b")
  updatedBy := str "b"
  signerId := some (str "b")

/-- Finished by `b` after the submission by `a`. -/
def doneAfterA : TaskRecord :=
  { doneB with vectorClock := pendingA.vectorClock.increment (str "b") }

def keysAB : PeerKeyRing := ⟨⟨[(str "a", [1]), (str "b", [2])], by decide⟩⟩

/-- Every text of the three records has a signature of its own. -/
noncomputable def runtime : Runtime := .ofScheme (.numbered
  [Codec.std.dumps pendingA.signedDocument, Codec.std.dumps doneB.signedDocument,
   Codec.std.dumps doneAfterA.signedDocument])

noncomputable def signedA : TaskRecord := signTask runtime [1] pendingA (str "a")
noncomputable def signedB : TaskRecord := signTask runtime [2] doneB (str "b")
noncomputable def signedAB : TaskRecord := signTask runtime [2] doneAfterA (str "b")

theorem signedA_valid : verifyTaskAuthorization runtime signedA keysAB = true := by decide +kernel
theorem signedB_valid : verifyTaskAuthorization runtime signedB keysAB = true := by decide +kernel
theorem signedAB_valid : verifyTaskAuthorization runtime signedAB keysAB = true := by decide +kernel

theorem runtime_binding : runtime.ed25519.Binding := Ed25519.numbered_binding (by simp)

end Sample

theorem mergeRecords_join_sample :
    mergeRecords Sample.runtime Sample.pendingA Sample.doneB none =
      mergeRecords Sample.runtime Sample.doneB Sample.pendingA none ∧
    ∃ m, mergeRecords Sample.runtime Sample.pendingA Sample.doneB none = .ok m ∧
      latticeKey m = max (latticeKey Sample.pendingA) (latticeKey Sample.doneB) :=
  have h := mergeRecords_join (R := Sample.runtime) (r := Sample.pendingA) (s := Sample.doneB)
    (t := Sample.doneAfterA) rfl rfl
  ⟨h.1, h.2.2.2⟩

/-! ## Merging with a keyring -/

section
variable {R : Runtime} {r s t : TaskRecord}

/-- The signature check binds the clock. -/
theorem recordLww_sealed (hE : R.ed25519.Binding) (K : PeerKeyRing) :
    recordLww.Sealed fun x => verifyTaskAuthorization R x K :=
  fun _ _ hle hr hr' => authorization_clock hE hle hr hr'

/-- A merge of which one argument is authorised returns, and what it returns does not depend on how
    it is written. -/
theorem mergeRecords_eq_iff {K : PeerKeyRing} {r' s' : TaskRecord} (h : r.taskId = s.taskId)
    (h' : r'.taskId = s'.taskId) (hr : verifyTaskAuthorization R r K = true) :
    mergeRecords R r s (some K) = mergeRecords R r' s' (some K) ↔
      recordLww.guarded (fun x => verifyTaskAuthorization R x K) r s =
        recordLww.guarded (fun x => verifyTaskAuthorization R x K) r' s' := by
  have hsome : ∃ m, recordLww.guarded (fun x => verifyTaskAuthorization R x K) r s = some m := by
    unfold Lww.guarded
    by_cases hs : verifyTaskAuthorization R s K = true <;> simp [hr, hs]
  obtain ⟨m, hm⟩ := hsome
  rw [hm, (mergeRecords_ok_iff h).2 hm, eq_comm, mergeRecords_ok_iff h', eq_comm]

/-- **Authorised records and the merge with a keyring.**  For authorised records of a task, closure,
    commutativity, associativity and idempotence hold together exactly if the larger of the first
    two also has the larger clock, and so has the larger of the last two unless the first record
    tops both in key and clock. -/
theorem mergeRecords_authorized_iff (hE : R.ed25519.Binding) {K : PeerKeyRing}
    (h12 : r.taskId = s.taskId) (h23 : s.taskId = t.taskId)
    (hr : verifyTaskAuthorization R r K = true) (hs : verifyTaskAuthorization R s K = true)
    (ht : verifyTaskAuthorization R t K = true) :
    ((∃ m, mergeRecords R r s (some K) = .ok m ∧ verifyTaskAuthorization R m K = true) ∧
      mergeRecords R r s (some K) = mergeRecords R s r (some K) ∧
      (mergeRecords R s t (some K) >>= fun m => mergeRecords R r m (some K)) =
        (mergeRecords R r s (some K) >>= fun m => mergeRecords R m t (some K)) ∧
      mergeRecords R r r (some K) = .ok r) ↔
    recordLww.Dom r s ∧ (recordLww.Dom s t ∨ recordLww.Le s r ∧ recordLww.Le t r) := by
  have hst : (recordLww.merge s t).taskId = s.taskId := Lww.grp_merge (M := recordLww) h23
  have hrs : (recordLww.merge r s).taskId = r.taskId := Lww.grp_merge (M := recordLww) h12
  rw [← Lww.guarded_laws_iff (recordLww_sealed hE K) h12 h23 hr hs ht, mergeRecords_valid h12 hr hs,
    mergeRecords_valid h12.symm hs hr, mergeRecords_valid h23 hs ht, mergeRecords_valid rfl hr hr,
    guarded_authorized hr hs, guarded_authorized hs hr, guarded_authorized hs ht,
    guarded_authorized hr hr]
  have hassoc := mergeRecords_eq_iff (R := R) (h12.trans hst.symm)
    (hrs.trans (h12.trans h23)) hr
  simp only [Except.ok.injEq, Option.some.injEq, exists_eq_left', forall_eq', Option.bind_some]
  exact and_congr_right fun _ => and_congr_right fun _ => and_congr_left fun _ => hassoc

end

theorem mergeRecords_authorized_ordered :
    (∃ m, mergeRecords Sample.runtime Sample.signedA Sample.signedAB (some Sample.keysAB) = .ok m ∧
      verifyTaskAuthorization Sample.runtime m Sample.keysAB = true) ∧
    mergeRecords Sample.runtime Sample.signedA Sample.signedAB (some Sample.keysAB) =
      mergeRecords Sample.runtime Sample.signedAB Sample.signedA (some Sample.keysAB) :=
  have h := (mergeRecords_authorized_iff Sample.runtime_binding (r := Sample.signedA)
    (s := Sample.signedAB) (t := Sample.signedAB) rfl rfl Sample.signedA_valid
    Sample.signedAB_valid Sample.signedAB_valid).2
    ⟨by unfold Lww.Dom; decide +kernel, Or.inl (by unfold Lww.Dom; decide +kernel)⟩
  ⟨h.1, h.2.1⟩

/-- The merge of two authorised concurrent updates is not authorised: it carries the signature of
    the winner and the join of the clocks. -/
theorem mergeRecords_authorized_not_closed :
    ¬ ∀ (R : Runtime),
      (∀ seed data, R.ed25519.verify (R.ed25519.publicKey seed) (R.ed25519.sign seed data) data =
        true) → R.ed25519.Binding →
      ∀ (K : PeerKeyRing) (r s t : TaskRecord), r.taskId = s.taskId → s.taskId = t.taskId →
        verifyTaskAuthorization R r K = true → verifyTaskAuthorization R s K = true →
        verifyTaskAuthorization R t K = true →
        (∃ m, mergeRecords R r s (some K) = .ok m ∧ verifyTaskAuthorization R m K = true) ∧
        mergeRecords R r s (some K) = mergeRecords R s r (some K) ∧
        (mergeRecords R s t (some K) >>= fun m => mergeRecords R r m (some K)) =
          (mergeRecords R r s (some K) >>= fun m => mergeRecords R m t (some K)) ∧
        mergeRecords R r r (some K) = .ok r := by
  intro h
  obtain ⟨⟨m, hm, hv⟩, -⟩ := h Sample.runtime (fun _ _ => by simp [Sample.runtime,
    Runtime.ofScheme, Ed25519.numbered]) Sample.runtime_binding Sample.keysAB Sample.signedA
    Sample.signedB Sample.signedB rfl rfl Sample.signedA_valid Sample.signedB_valid
    Sample.signedB_valid
  rw [mergeRecords_valid (r := Sample.signedA) (s := Sample.signedB) rfl Sample.signedA_valid
    Sample.signedB_valid] at hm
  have hbad : verifyTaskAuthorization Sample.runtime (recordLww.merge Sample.signedA Sample.signedB)
      Sample.keysAB = false := by decide +kernel
  rw [← Except.ok.inj hm, hbad] at hv
  exact absurd hv (by decide)

end PeerQ
