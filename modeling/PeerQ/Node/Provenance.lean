/-
  Provenance: what the records of a secure node have in common.

  A record comes into the store by a write of the node itself, by gossip or out
  of the log, and a merge keeps one of two records but for the clock.  So a
  property that does not depend on the clock holds of every stored record if it
  holds of the node's own records and of those that come from outside
  (`Upholds.stored`).  Every stored record was signed by a member of the keyring
  up to its clock (`provenance`); its signer is its holder if the records from
  outside name one (`lease_authority`).
-/
import PeerQ.Node.Durability

namespace PeerQ

open Py

/-- The job that is written for. -/
def Write.job : Write → Option Job
  | .claim job | .run job | .commit job _ => some job
  | _ => none

namespace PeerNode

variable {R : Runtime} (N : PeerNode R)

/-! ## Records from outside -/

/-- Recovery from the file takes the record. -/
def Reads (file : Option Bytes) (r : TaskRecord) : Prop :=
  ∃ W f, N.wal = some W ∧ W.openFile file = .ok f ∧
    ∃ rec ∈ (W.replay R false f).1, ∃ v ∈ rec.taskValues, N.decodedTask v = .ok (some r)

/-- The records that the step takes from outside meet `P`: those of a received message, and those
    that a restart finds in the log and the node did not log. -/
def Admitted (P : TaskRecord → Prop) (s : NodeState) : Event → Prop
  | .recv sender msg _ => ∀ items, lookup (str "tasks") msg.payload = some (.obj items) →
      ∀ item ∈ items, ∀ r, N.acceptedRecord sender item = .ok (some r) → P r
  | .restart cut => ∀ r, N.Reads (s.walFile.map (·.take cut)) r → P r ∨ .task r ∈ s.journal
  | _ => True

/-- The states of a node after its last start, on any log file, if the records from outside meet
    `P`. -/
inductive Reached (P : TaskRecord → Prop) : NodeState → Prop
  | boot {file : Option Bytes} (h : ∀ r, N.Reads file r → P r) : Reached P (N.boot file [])
  | step {s : NodeState} {e : Event} (hs : Reached P s) (he : N.Admitted P s e) :
      Reached P (N.step s e)

/-- A property of records that the node upholds if the records from outside meet `P`: it is
    independent of the clock, holds of the node's own records and follows from `P` for authorised
    records. -/
structure Upholds (P Q : TaskRecord → Prop) : Prop where
  clock : ∀ r c, Q r → Q { r with vectorClock := c }
  own : ∀ w c, w.own = true → (∀ job ∈ w.job, job.newToken.peerId = N.nodeId) → Q (N.written c w)
  outside : ∀ r, (N.security.enabled = true → verifyTaskAuthorization R r N.keyring = true) → P r →
    Q r

/-- The records in the store and in the log meet `Q`. -/
structure AllRecords (Q : TaskRecord → Prop) (p : Replica) : Prop where
  stored : ∀ t r, p.tasks.get t = some r → Q r
  logged : ∀ r, .task r ∈ p.journal → Q r

section
variable {N} {P Q : TaskRecord → Prop} {p : Replica}

theorem AllRecords.store (h : AllRecords Q p) {r : TaskRecord} (hr : Q r) (t : Str) :
    AllRecords Q (p.store t r) := by
  refine ⟨fun t' r' hr' => ?_, h.logged⟩
  simp only [Replica.store, Dict.get_set] at hr'
  split_ifs at hr' with ht
  · exact Option.some.inj hr' ▸ hr
  · exact h.stored t' r' hr'

theorem AllRecords.write (h : AllRecords Q p) {w : Write}
    (hw : Q (N.written (N.writeClock p.vectorClock w) w)) : AllRecords Q (N.write p w) := by
  refine ⟨fun t r hr => ?_, fun r hr => ?_⟩
  · rw [write_get] at hr
    split_ifs at hr
    · exact Option.some.inj hr ▸ hw
    · exact h.stored t r hr
  · rcases mem_write_journal hr with hr | rfl
    exacts [h.logged r hr, hw]

/-- A merge keeps one of the records but for the clock. -/
theorem Upholds.merge (hU : N.Upholds P Q) {r s m : TaskRecord} {K : Option PeerKeyRing} (hr : Q r)
    (hs : Q s) (h : mergeRecords R r s K = .ok m) : Q m := by
  obtain ⟨c, rfl | ⟨rfl, -⟩⟩ := mergeRecords_winner h
  exacts [hU.clock _ _ hr, hU.clock _ _ hs]

/-! ## Recovery -/

theorem Upholds.recoverTask (hU : N.Upholds P Q) (h : AllRecords Q p) {r : TaskRecord} (hr : Q r)
    (t : Str) : AllRecords Q (N.recoverTask p t r) := by
  unfold PeerNode.recoverTask
  split
  · exact h.store hr t
  · next old hold =>
    split
    · exact h
    · next m hm => exact h.store (hU.merge (h.stored t old hold) hr hm) t

/-- A record out of the log is authorised. -/
theorem decodedTask_authorised {v : Json} {r : TaskRecord} (h : N.decodedTask v = .ok (some r)) :
    N.security.enabled = true → verifyTaskAuthorization R r N.keyring = true := by
  intro hs
  unfold decodedTask at h
  cases hd : TaskRecord.fromDict v with
  | error e => rw [hd] at h; simp only at h; split_ifs at h; simp at h
  | ok r' =>
    simp only [hd, hs, Bool.true_and, Bool.not_eq_true'] at h
    split_ifs at h with hv
    · simp at h
    · rw [← Option.some.inj (Except.ok.inj h)]; simpa using hv

theorem Upholds.boot (hU : N.Upholds P Q) {file : Option Bytes} {journal : List LogEntry}
    (hj : ∀ r, .task r ∈ journal → Q r)
    (h : ∀ r, N.Reads file r → P r ∨ .task r ∈ journal) :
    AllRecords Q (N.boot file journal).toReplica := by
  have hfresh : ∀ f l, (∀ r, .task r ∈ l → Q r) →
      AllRecords Q { N.fresh.toReplica with walFile := f, journal := l } := by
    intro f l hl
    exact ⟨fun t r hr => by simp [fresh] at hr, hl⟩
  rcases N.boot_replica file journal with ⟨-, hb⟩ | ⟨W, hW, ⟨-, hb⟩ | ⟨f, ho, hb⟩⟩ <;> rw [hb]
  · exact hfresh _ [] (by simp)
  · exact hfresh _ [] (by simp)
  · refine recoverRecords_invariant (I := AllRecords Q) (fun p c h => ⟨h.stored, h.logged⟩) ?_
      (hfresh _ _ fun r hr => hj r (List.mem_of_mem_take hr))
    rintro p t v r ⟨rec, hrec, hv⟩ hd - hp
    refine hU.recoverTask hp ?_ t
    rcases h r ⟨W, f, hW, ho, rec, hrec, v, hv.mem_taskValues, hd⟩ with hr | hr
    · exact hU.outside r (decodedTask_authorised hd) hr
    · exact hj r hr

/-! ## Steps -/

/-- What holds of a reached state: the records meet `Q`, and the worker's token is the node's. -/
structure Holds (N : PeerNode R) (Q : TaskRecord → Prop) (s : NodeState) : Prop where
  records : AllRecords Q s.toReplica
  token : ∀ job, s.worker.job = some job → job.newToken.peerId = N.nodeId
  distinct : s.reclaim.Distinct

theorem JobFor.token_peerId {job : Job} (h : N.JobFor p job) : job.newToken.peerId = N.nodeId := by
  rw [h.token]; rfl

/-- What is written meets `Q`. -/
theorem Holds.made (hU : N.Upholds P Q) {s : NodeState} (h : N.Holds Q s) {e : Event}
    (he : N.Admitted P s e) {w : Write} (hp : AllRecords Q p) (hw : N.Made s e p w) (c : VectorClock) :
    Q (N.written c w) := by
  have hown : w.own = true → (∀ job ∈ w.job, job.newToken.peerId = N.nodeId) → Q (N.written c w) :=
    hU.own w c
  cases hw with
  | submit => exact hown rfl (by simp [Write.job])
  | sweep => exact hown rfl (by simp [Write.job])
  | resume => exact hown rfl (by simp [Write.job])
  | claim hj => exact hown rfl (by rintro _ ⟨⟩; exact hj.token_peerId)
  | claimRun hj => exact hown rfl (by rintro _ ⟨⟩; exact hj.token_peerId)
  | run hclaiming => exact hown rfl (by rintro _ ⟨⟩; exact h.token _ (by rw [hclaiming]; rfl))
  | commit hhandling => exact hown rfl (by rintro _ ⟨⟩; exact h.token _ (by rw [hhandling]; rfl))
  | @take _ _ _ _ items item remote merged hi hm ha hmerge =>
    have hremote : Q remote := hU.outside remote
      (fun hs => (((N.acceptedRecord_iff).1 ha).2.2 hs).2) (he items hi item hm remote ha)
    rcases hmerge with ⟨-, -, rfl⟩ | ⟨old, hold, hok⟩
    · exact hremote
    · exact hU.merge (hp.stored _ old hold) hremote hok

theorem Holds.boot (hU : N.Upholds P Q) {file : Option Bytes} {journal : List LogEntry}
    (hj : ∀ r, .task r ∈ journal → Q r) (h : ∀ r, N.Reads file r → P r ∨ .task r ∈ journal) :
    N.Holds Q (N.boot file journal) where
  records := hU.boot hj h
  token job hjob := by
    rw [boot_job] at hjob
    cases hjob
  distinct := by
    unfold Reclaim.Distinct
    rw [boot_snapshot]
    exact List.nodup_nil

theorem Holds.step (hU : N.Upholds P Q) {s : NodeState} (h : N.Holds Q s) {e : Event}
    (he : N.Admitted P s e) : N.Holds Q (N.step s e) := by
  obtain ⟨cut, rfl⟩ | hr := e.restart_or
  · obtain ⟨h1, h2, h3⟩ := Holds.boot hU h.records.logged he
    exact ⟨h1, h2, h3⟩
  refine ⟨?_, fun job hjob => ?_, step_distinct h.distinct⟩
  · exact (N.step_makes h.distinct hr).invariant (I := AllRecords Q)
      (fun p w hp hw => hp.write (h.made hU he hp hw _)) h.records
  · rcases step_job hr hjob with hjob | ⟨-, hjob, -⟩
    exacts [h.token job hjob, hjob.token_peerId]

theorem Holds.of_reached (hU : N.Upholds P Q) {s : NodeState} (h : N.Reached P s) : N.Holds Q s := by
  induction h with
  | boot hread => exact .boot hU (by simp) fun r hr => Or.inl (hread r hr)
  | step _ he ih => exact ih.step hU he

/-- **A property that the node upholds holds of every stored record**, in every state that is reached
    while the records from outside meet `P`. -/
theorem Upholds.stored (hU : N.Upholds P Q) {s : NodeState} (h : N.Reached P s) {t : Str}
    {r : TaskRecord} (hr : s.tasks.get t = some r) : Q r :=
  (Holds.of_reached hU h).records.stored t r hr

end

/-! ## Signatures -/

section
variable {N} {s : NodeState} {t : Str} {r : TaskRecord}

/-- What a node writes itself is a sealed record, pending without a holder or held with a token of
    the node. -/
theorem written_own {w : Write} (hw : w.own = true)
    (hj : ∀ job ∈ w.job, job.newToken.peerId = N.nodeId) (c : VectorClock) :
    ∃ x, N.written c w = N.sealRecord x ∧ (x.state = .pending ∧ x.claimedBy = none ∨
      x.claimedBy = some N.nodeId ∧ x.fenceToken.peerId = N.nodeId) := by
  cases w with
  | submit t payload => exact ⟨_, rfl, Or.inl ⟨rfl, rfl⟩⟩
  | reset t record => exact ⟨_, rfl, Or.inl ⟨rfl, rfl⟩⟩
  | claim job => exact ⟨_, rfl, Or.inr ⟨rfl, hj job rfl⟩⟩
  | run job => exact ⟨_, rfl, Or.inr ⟨rfl, hj job rfl⟩⟩
  | commit job outcome => exact ⟨_, rfl, Or.inr ⟨rfl, hj job rfl⟩⟩
  | take t remote merged => cases hw

/-- **Provenance.** Every record in the store of a secure node passes `verify_task_authorization`
    with some clock in the place of its own, whatever the node receives and finds in its log. -/
theorem provenance (hE : R.ed25519.Lawful) (hs : N.security.enabled = true)
    (h : N.Reached (fun _ => True) s) (hr : s.tasks.get t = some r) :
    ∃ c, verifyTaskAuthorization R { r with vectorClock := c } N.keyring = true := by
  refine Upholds.stored (Q := fun r => ∃ c, verifyTaskAuthorization R { r with vectorClock := c }
    N.keyring = true) ⟨fun r c h => h, fun w c hw hj => ?_, fun r ha _ => ⟨r.vectorClock, ha hs⟩⟩ h hr
  obtain ⟨x, hx, hclaim⟩ := written_own hw hj c
  refine ⟨(N.written c w).vectorClock, ?_⟩
  show verifyTaskAuthorization R (N.written c w) N.keyring = true
  rw [hx, sealRecord, if_pos hs]
  refine authorization_signTask hE N.own_key fun holder hh => ?_
  rcases hclaim with ⟨-, hnone⟩ | ⟨hsome, htoken⟩
  · rw [hnone] at hh; cases hh
  · obtain rfl := Option.some.inj (hsome.symm.trans hh)
    exact ⟨rfl, htoken⟩

theorem provenance_gossip :
    ∃ c, verifyTaskAuthorization Sample.runtime { Sample.pendingA with vectorClock := c }
      Sample.keys = true :=
  have hboot : Sample.nodeC.Reached (fun _ => True) Sample.nodeC.initial := .boot fun _ _ => trivial
  provenance (N := Sample.nodeC) Ed25519.suffix_lawful rfl
    (hboot.step (e := .recv (str "a") (Sample.gossip 1 "a" "x" Sample.pendingA).msg 0)
      fun _ _ _ _ _ _ => trivial)
    (t := str "t") (by decide +kernel)

/-! ## Lease authority -/

/-- A record that is claimed, running, done or failed names a holder. -/
def NamesHolder (r : TaskRecord) : Prop := r.state ≠ .pending → r.claimedBy.isSome = true

/-- A record that is claimed, running, done or failed is signed by its holder and has a token of its
    holder. -/
def HolderSigned (r : TaskRecord) : Prop :=
  r.state ≠ .pending → r.signerId = r.claimedBy ∧ r.claimedBy = some r.fenceToken.peerId

/-- **Lease authority.** In the store of a secure node every record that is claimed, running, done
    or failed is signed by its holder and has a token of its holder, if the records from outside
    name a holder. -/
theorem lease_authority (hs : N.security.enabled = true) (h : N.Reached NamesHolder s)
    (hr : s.tasks.get t = some r) : HolderSigned r := by
  refine Upholds.stored (Q := HolderSigned)
    ⟨fun r c h => h, fun w c hw hj => ?_, fun r ha hn hp => ?_⟩ h hr
  · obtain ⟨x, hx, hclaim⟩ := written_own hw hj c
    rw [hx, sealRecord, if_pos hs]
    intro hp
    rcases hclaim with ⟨hpend, -⟩ | ⟨hsome, htoken⟩
    · exact absurd hpend hp
    · exact ⟨hsome.symm, hsome.trans (congrArg some htoken.symm)⟩
  · obtain ⟨holder, hh⟩ := Option.isSome_iff_exists.1 (hn hp)
    obtain ⟨h1, h2⟩ := (verifyTaskAuthorization_iff.1 (ha hs)).2 holder hh
    rw [hh, h1, h2]
    exact ⟨rfl, rfl⟩

namespace Sample

/-- Finished by `b`, without a holder. -/
noncomputable def unheldB : TaskRecord :=
  signTask runtime [2] { PeerQ.Sample.doneB with claimedBy := none } (str "b")

end Sample

theorem lease_authority_done : HolderSigned Sample.doneB := by
  have hboot : Sample.nodeC.Reached NamesHolder Sample.nodeC.initial := by
    refine .boot ?_
    rintro r ⟨W, f, hW, -⟩
    cases hW
  refine lease_authority (N := Sample.nodeC) rfl
    (hboot.step (e := .recv (str "b") (Sample.gossip 2 "b" "x" Sample.doneB).msg 0) ?_)
    (t := str "t") (by decide +kernel)
  intro items hi item hm r ha _
  obtain rfl : [(str "t", Sample.doneB.toDict)] = items := Json.obj.inj (Option.some.inj hi)
  rw [List.mem_singleton.1 hm, acceptedRecord_iff, TaskRecord.fromDict_toDict_iff] at ha
  obtain ⟨⟨-, rfl⟩, -⟩ := ha
  rfl

/-- A record of an authorised peer that is done and names no holder is stored. -/
theorem lease_authority_unheld :
    ¬ ∀ (R : Runtime) (N : PeerNode R) (ds : List Delivery), R.ed25519.Lawful →
      N.security.enabled = true →
      Along (fun s d => (N.authenticateMessage s d.sender d.msg d.wallNow).2 = .ok true ∧
        N.authorisedTasks d.msg = true) N.deliver N.initial ds →
      ∀ t r, (run N.deliver N.initial ds).tasks.get t = some r → HolderSigned r := by
  intro h
  have hstored : (run Sample.nodeC.deliver Sample.nodeC.initial
      [Sample.gossip 2 "b" "x" Sample.unheldB]).tasks.get (str "t") = some Sample.unheldB := by
    decide +kernel
  obtain ⟨-, hholder⟩ := h Sample.runtime Sample.nodeC [Sample.gossip 2 "b" "x" Sample.unheldB]
    Ed25519.suffix_lawful rfl ⟨⟨by decide +kernel, by decide +kernel⟩, trivial⟩ _ _ hstored
    (by decide)
  cases hholder

end

end PeerNode

end PeerQ
