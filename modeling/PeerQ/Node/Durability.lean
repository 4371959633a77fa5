/-
  Durability: what was logged is there after recovery.

  A node writes its store and its log from many places.  `Durable` says that
  recovery will take every logged record: each one can be decoded again and, on
  a secure node, is authorised and not above the record logged after it for the
  same task.  Every write keeps this under the conditions of `DurableWrite`, and
  from a durable log recovery holds a record above every logged one
  (`recovery_keeps`).
-/
import PeerQ.Node.Writes
import PeerQ.Node.Recovery

namespace PeerQ

open Py

/-- A clock that the decoder takes. -/
def VectorClock.Fits (c : VectorClock) : Prop :=
  c.entries.length ≤ 128 ∧ ∀ e ∈ c.entries, TaskRecord.PeerIdOk e.1

theorem VectorClock.Fits.mono {c d : VectorClock} (h : d.Fits)
    (hcd : ∀ k, 0 < c.get k → 0 < d.get k) : c.Fits := by
  have hsub : c.keys ⊆ d.keys := fun k hk => Counters.mem_keys.2 (hcd k (Counters.mem_keys.1 hk))
  refine ⟨(Counters.length_entries_le hsub).trans h.1, fun e he => ?_⟩
  obtain ⟨e', he', hk⟩ := List.mem_map.1 (hsub (List.mem_map_of_mem (f := Prod.fst) he))
  exact hk ▸ h.2 e' he'

theorem VectorClock.Fits.of_le {c d : VectorClock} (h : d.Fits) (hcd : c ≤ d) : c.Fits :=
  h.mono fun k hk => lt_of_lt_of_le hk (hcd k)

namespace PeerNode

variable {R : Runtime} (N : PeerNode R)

/-! ## Records that recovery takes -/

/-- Recovery takes the record. -/
structure Readable (r : TaskRecord) : Prop where
  decodable : r.Decodable
  authorised : N.security.enabled = true → verifyTaskAuthorization R r N.keyring = true

section
variable {N} {r old : TaskRecord}

theorem Readable.decodedTask (h : N.Readable r) : N.decodedTask r.toDict = .ok (some r) :=
  N.decodedTask_ok h.decodable h.authorised

/-- A sealed record can be decoded and is authorised under every keyring with the node's key, if it is
    unclaimed or claimed by this node with its own token. -/
theorem accepted_seal (hE : R.ed25519.Lawful) (h : r.Decodable)
    (hr : ∀ holder ∈ r.claimedBy, N.nodeId = holder ∧ r.fenceToken.peerId = holder) :
    (N.sealRecord r).Decodable ∧ (N.security.enabled = true → ∀ K : PeerKeyRing,
      K.getPeerKey N.nodeId = some (R.ed25519.publicKey N.identity) →
        verifyTaskAuthorization R (N.sealRecord r) K = true) := by
  unfold sealRecord
  split_ifs with hs
  · refine ⟨⟨h.taskId, h.payload, h.result, h.error, h.claimedBy, h.updatedBy, ?_, h.fence, h.clock,
      ?_⟩, fun _ K hK => authorization_signTask hE hK hr⟩
    · intro p hp
      rw [← Option.some.inj hp]
      exact N.nodeId_ok
    · intro sig hsig
      rw [← Option.some.inj hsig]
      exact hE.length_sign _ _
  · exact ⟨h, fun h => absurd h hs⟩

theorem readable_seal (hE : R.ed25519.Lawful) (h : r.Decodable)
    (hr : ∀ holder ∈ r.claimedBy, N.nodeId = holder ∧ r.fenceToken.peerId = holder) :
    N.Readable (N.sealRecord r) := by
  obtain ⟨hdec, hauth⟩ := accepted_seal hE h hr
  exact ⟨hdec, fun hs => hauth hs N.keyring N.own_key⟩

/-- Another clock that the decoder takes leaves a record decodable. -/
theorem decodable_clock (h : r.Decodable) {c : VectorClock} (hc : c.Fits) :
    ({ r with vectorClock := c } : TaskRecord).Decodable :=
  ⟨h.taskId, h.payload, h.result, h.error, h.claimedBy, h.updatedBy, h.signerId, h.fence, hc,
    h.signature⟩

/-- The merge of two records that recovery takes, on a secure node with clocks ordered as the
    keys. -/
theorem readable_merge (ht : old.taskId = r.taskId) (ho : N.Readable old) (hr : N.Readable r)
    (hc : (old.vectorClock ⊔ r.vectorClock).Fits)
    (hd : N.security.enabled = true → recordLww.Dom old r) :
    mergeRecords R old r N.mergeKeyring = .ok (recordLww.merge old r) ∧
      N.Readable (recordLww.merge old r) := by
  have hdec : (recordLww.merge old r).Decodable := by
    unfold Lww.merge Lww.winner
    split_ifs
    exacts [decodable_clock ho.decodable hc, decodable_clock hr.decodable hc]
  unfold mergeKeyring
  split_ifs with hs
  · refine ⟨mergeRecords_valid ht (ho.authorised hs) (hr.authorised hs), hdec, fun _ => ?_⟩
    -- the winner has the larger clock, so the merge is the winner
    have hw : recordLww.merge old r = recordLww.winner old r := by
      unfold Lww.merge
      rw [show recordLww.clk old ⊔ recordLww.clk r = _ from hd hs, Lww.put_clk]
    rw [hw]
    unfold Lww.winner
    split_ifs
    exacts [ho.authorised hs, hr.authorised hs]
  · exact ⟨mergeRecords_none ht, hdec, fun h => absurd h hs⟩

end

/-! ## Durable replicas -/

/-- Every stored and every logged record is one that recovery takes, no more tasks are stored than
    recovery takes, and a secure node logs no record below one it has logged or stored for the same
    task. -/
structure Durable (p : Replica) : Prop where
  intact : N.Intact p
  clocks : ClockInv p
  size : p.tasks.size ≤ N.maxTasks
  room : VectorClock.Fits (p.vectorClock.increment N.nodeId)
  stored : ∀ t r, p.tasks.get t = some r → r.taskId = t ∧ N.Readable r
  logged : ∀ r, .task r ∈ p.journal → N.Readable r ∧ ∃ cur, p.tasks.get r.taskId = some cur ∧
    (N.security.enabled = true → recordLww.Le r cur)
  ordered : N.security.enabled = true → p.journal.Pairwise fun a b => ∀ r s, a = .task r →
    b = .task s → r.taskId = s.taskId → recordLww.Le r s

/-- The condition on a write, at the replica it finds: what comes from outside can be decoded again
    and leaves room in the clock, and on a secure node the record that is replaced is not above. -/
def DurableWrite (p : Replica) : Write → Prop
  | .submit t _ => N.security.enabled = true → p.tasks.get t = none
  | .claim _ => True
  | .run job => N.security.enabled = true → ∀ r, p.tasks.get job.taskId = some r →
      r.state.isTerminal = false ∧ (r.fenceToken < job.newToken ∨
        r.fenceToken = job.newToken ∧ r.state ≠ .running)
  | .commit job outcome => (∀ result, outcome = .ok result → result.length ≤ maxTaskResult) ∧
      (∀ text, outcome = .error text → text.length ≤ maxErrorLength) ∧
      (N.security.enabled = true → ∀ r, p.tasks.get job.taskId = some r →
        r.state.isTerminal = true → r.fenceToken ≠ job.newToken)
  | .reset t record => N.security.enabled = true → ∀ r, p.tasks.get t = some r →
      latticeKey r ≤ latticeKey record
  | .take t remote _ => remote.Decodable ∧
      VectorClock.Fits ((p.vectorClock ⊔ remote.vectorClock).increment N.nodeId) ∧
      (N.security.enabled = true → ∀ r, p.tasks.get t = some r → recordLww.Dom r remote)

/-- A job whose task is stored and whose record and token are in order. -/
structure JobReady (p : Replica) (job : Job) : Prop where
  stored : p.tasks.has job.taskId = true
  taskId : job.record.taskId = job.taskId
  decodable : job.record.Decodable
  token : job.newToken = job.record.fenceToken.nextFor N.nodeId

/-- What the code has made sure of when it makes a write. -/
def WriteReady (p : Replica) : Write → Prop
  | .submit t payload => (t ≠ [] ∧ t.length ≤ maxTaskIdLength) ∧ payload.length ≤ maxTaskPayload ∧
      (p.tasks.has t = true ∨ p.tasks.size < N.maxTasks)
  | .claim job => N.JobReady p job ∧ p.tasks.get job.taskId = some job.record ∧
      job.record.state.isTerminal = false
  | .run job => N.JobReady p job
  | .commit job _ => N.JobReady p job ∧
      ∀ r, p.tasks.get job.taskId = some r → r.fenceToken ≤ job.newToken
  | .reset t record => p.tasks.has t = true ∧ record.taskId = t ∧ record.Decodable ∧
      record.state.isTerminal = false
  | .take t remote merged => remote.taskId = t ∧
      (N.security.enabled = true → verifyTaskAuthorization R remote N.keyring = true) ∧
      (p.tasks.get t = none ∧ p.tasks.size < N.maxTasks ∧ merged = remote ∨
        ∃ old, p.tasks.get t = some old ∧ mergeRecords R old remote N.mergeKeyring = .ok merged)

section
variable {N} {p : Replica} {w : Write}

/-- The clock after a write still fits. -/
theorem Durable.writeClock_fits (h : N.Durable p) (hd : N.DurableWrite p w) :
    VectorClock.Fits ((N.writeClock p.vectorClock w).increment N.nodeId) := by
  have hinc : VectorClock.Fits ((p.vectorClock.increment N.nodeId).increment N.nodeId) := by
    refine h.room.mono fun k hk => ?_
    by_cases hkn : k = N.nodeId <;> simp_all
  cases w with
  | run job => exact h.room
  | take t remote merged => exact hd.2.1
  | _ => exact hinc

theorem writeClock_fits_self (h : VectorClock.Fits ((N.writeClock p.vectorClock w).increment N.nodeId)) :
    VectorClock.Fits (N.writeClock p.vectorClock w) := h.of_le (Counters.le_increment _ _)

theorem nextFor_ok {r : TaskRecord} (h : r.Decodable) :
    0 ≤ (r.fenceToken.nextFor N.nodeId).epoch ∧
      (r.fenceToken.nextFor N.nodeId).peerId.length ≤ maxPeerIdLength :=
  ⟨by have := h.fence.1; simp only [FenceToken.nextFor]; omega, N.nodeId_ok.2⟩

/-- A record that this node makes as the holder of a job. -/
theorem JobReady.readable {job : Job} (h : N.JobReady p job) (hE : R.ed25519.Lawful) {r : TaskRecord}
    (ht : r.taskId = job.taskId) (hp : r.payload = job.record.payload)
    (hres : ∀ b ∈ r.result, b.length ≤ maxTaskResult)
    (herr : ∀ e ∈ r.error, e.length ≤ maxErrorLength) (hby : r.claimedBy = some N.nodeId)
    (hup : r.updatedBy = N.nodeId) (htok : r.fenceToken = job.newToken)
    (hc : VectorClock.Fits r.vectorClock) (hsig : r.signature = none) (hid : r.signerId = none) :
    N.Readable (N.sealRecord r) := by
  refine readable_seal hE ⟨?_, ?_, hres, herr, ?_, ?_, ?_, ?_, hc, ?_⟩ ?_
  · rw [ht, ← h.taskId]; exact h.decodable.taskId
  · rw [hp]; exact h.decodable.payload
  · rw [hby]; rintro _ ⟨⟩; exact N.nodeId_ok
  · rw [hup]; exact N.nodeId_ok
  · rw [hid]; simp
  · rw [htok, h.token]; exact nextFor_ok h.decodable
  · rw [hsig]; simp
  · rw [hby, htok, h.token]; rintro _ ⟨⟩; exact ⟨rfl, rfl⟩

/-- The record of a write is one of the task that recovery takes. -/
theorem Durable.written_readable (h : N.Durable p) (hE : R.ed25519.Lawful) (hr : N.WriteReady p w)
    (hd : N.DurableWrite p w) :
    (N.written (N.writeClock p.vectorClock w) w).taskId = w.taskId ∧
      N.Readable (N.written (N.writeClock p.vectorClock w) w) := by
  have hc : VectorClock.Fits (N.writeClock p.vectorClock w) :=
    writeClock_fits_self (h.writeClock_fits hd)
  cases w with
  | submit t payload =>
    refine ⟨N.sealRecord_taskId _, readable_seal hE ⟨hr.1, hr.2.1, ?_, ?_, ?_, N.nodeId_ok, ?_, ?_, hc,
      ?_⟩ ?_⟩ <;> simp
  | claim job =>
    exact ⟨N.sealRecord_taskId _, hr.1.readable hE rfl rfl (by simp) (by simp) rfl rfl rfl hc rfl rfl⟩
  | run job =>
    exact ⟨N.sealRecord_taskId _, JobReady.readable hr hE rfl rfl (by simp) (by simp) rfl rfl rfl hc
      rfl rfl⟩
  | commit job outcome =>
    obtain ⟨hres, herr, -⟩ := hd
    refine ⟨N.sealRecord_taskId _, hr.1.readable hE rfl rfl ?_ ?_ rfl rfl rfl hc rfl rfl⟩
    · cases outcome with
      | ok result => rintro _ ⟨⟩; exact hres _ rfl
      | error text => simp
    · cases outcome with
      | ok result => simp
      | error text => rintro _ ⟨⟩; exact herr _ rfl
  | reset t record =>
    obtain ⟨-, rfl, hdec, -⟩ := hr
    refine ⟨N.sealRecord_taskId _, readable_seal hE ⟨hdec.taskId, hdec.payload, ?_, ?_, ?_,
      N.nodeId_ok, ?_, nextFor_ok hdec, hc, ?_⟩ ?_⟩ <;> simp
  | take t remote merged =>
    obtain ⟨rfl, hauth, hm⟩ := hr
    obtain ⟨hdec, -, hdom⟩ := hd
    rcases hm with ⟨-, -, rfl⟩ | ⟨old, hold, hm⟩
    · exact ⟨rfl, hdec, hauth⟩
    · obtain ⟨hid, hread⟩ := h.stored _ _ hold
      obtain ⟨heq, hmr⟩ := readable_merge hid hread ⟨hdec, hauth⟩
        (hc.of_le (sup_le_sup_right (h.clocks.stored _ _ hold) _)) fun hs => hdom hs _ hold
      obtain rfl := Except.ok.inj (hm.symm.trans heq)
      exact ⟨(mergeRecords_taskId hm).2.trans hid, hmr⟩

/-- On a secure node the record of a write is not below the one it replaces. -/
theorem Durable.written_above (h : N.Durable p) (hr : N.WriteReady p w) (hd : N.DurableWrite p w)
    (hs : N.security.enabled = true) {cur : TaskRecord} (hcur : p.tasks.get w.taskId = some cur) :
    recordLww.Le cur (N.written (N.writeClock p.vectorClock w) w) := by
  -- what this node makes carries its clock, so only the keys matter
  have hmade : w.own = true →
      latticeKey cur ≤ latticeKey (N.written (N.writeClock p.vectorClock w) w) →
      recordLww.Le cur (N.written (N.writeClock p.vectorClock w) w) := by
    intro hw hk
    refine ⟨hk, ?_⟩
    show cur.vectorClock ≤ (N.written _ w).vectorClock
    rw [N.written_clock w _ hw]
    exact (h.clocks.stored _ _ hcur).trans (N.le_writeClock w _)
  cases w with
  | submit t payload =>
    have hn : p.tasks.get t = some cur := hcur
    rw [hd hs] at hn
    cases hn
  | claim job =>
    obtain ⟨hj, hst, hterm⟩ := hr
    obtain rfl := Option.some.inj (hst.symm.trans hcur)
    refine hmade rfl (le_of_lt (latticeKey_lt_token ?_ ?_))
    · simp only [written, claimRecord, sealRecord_state, hterm]; rfl
    · simp only [written, claimRecord, sealRecord_fenceToken, hj.token]
      exact FenceToken.lt_nextFor _ _
  | run job =>
    obtain ⟨hterm, ht⟩ := hd hs cur hcur
    have hst : cur.state.isTerminal =
        (N.written (N.writeClock p.vectorClock (.run job)) (.run job)).state.isTerminal := by
      simp only [written, claimRecord, sealRecord_state, hterm]; rfl
    refine hmade rfl ?_
    rcases ht with ht | ⟨ht, hrun⟩
    · refine le_of_lt (latticeKey_lt_token hst ?_)
      simpa only [written, claimRecord, sealRecord_fenceToken] using ht
    · refine le_of_lt (latticeKey_lt_rank hst ?_ ?_)
      · simpa only [written, claimRecord, sealRecord_fenceToken] using ht
      · simp only [written, claimRecord, sealRecord_state]
        cases hcs : cur.state <;> simp_all [TaskState.latticeRank, TaskState.isTerminal]
  | commit job outcome =>
    obtain ⟨hj, hle⟩ := hr
    have hst : (N.written (N.writeClock p.vectorClock (.commit job outcome))
        (.commit job outcome)).state.isTerminal = true := by
      simp only [written, commitRecord, sealRecord_state]
      cases outcome <;> rfl
    refine hmade rfl (le_of_lt ?_)
    cases hterm : cur.state.isTerminal with
    | false => exact latticeKey_lt_terminal hterm hst
    | true =>
      refine latticeKey_lt_token (hterm.trans hst.symm) ?_
      simp only [written, commitRecord, sealRecord_fenceToken]
      exact lt_of_le_of_ne (hle cur hcur) (hd.2.2 hs cur hcur hterm)
  | reset t record =>
    obtain ⟨-, -, -, hterm⟩ := hr
    have hk := hd hs cur hcur
    have hkt := latticeKey_le hk
    have hct : cur.state.isTerminal = false := by
      cases hc : cur.state.isTerminal
      · rfl
      · exact absurd (hkt.1 hc) (by simp [hterm])
    refine hmade rfl (le_of_lt (latticeKey_lt_token ?_ ?_))
    · simp only [written, resetRecord, sealRecord_state, hct]; rfl
    · simp only [written, resetRecord, sealRecord_fenceToken]
      exact lt_of_le_of_lt (hkt.2 (by simp [hterm])) (FenceToken.lt_nextFor _ _)
  | take t remote merged =>
    obtain ⟨rfl, hauth, ⟨hn, -⟩ | ⟨old, hold, hm⟩⟩ := hr
    · rw [show p.tasks.get remote.taskId = some cur from hcur] at hn; cases hn
    · obtain rfl := Option.some.inj (hold.symm.trans hcur)
      obtain ⟨hid, hread⟩ := h.stored _ _ hold
      have heq : mergeRecords R old remote N.mergeKeyring = .ok (recordLww.merge old remote) := by
        rw [mergeKeyring, if_pos hs]
        exact mergeRecords_valid hid (hread.authorised hs) (hauth hs)
      obtain rfl := Except.ok.inj (hm.symm.trans heq)
      exact Lww.le_merge_left _ _

/-- A write adds at most its record and its clock to the journal. -/
theorem write_journal (p : Replica) (w : Write) : ∃ l, (N.write p w).journal = p.journal ++ l ∧
    List.Sublist l [.task (N.written (N.writeClock p.vectorClock w) w),
      .clock (N.writeClock p.vectorClock w)] := by
  have happ : ∀ (q : Replica) e, ∃ l, (N.appendEntry q e).1.journal = q.journal ++ l ∧
      List.Sublist l [e] := by
    intro q e
    rcases appendEntry_journal (N := N) q e with hj | hj
    · exact ⟨[], by simp [hj], List.nil_sublist _⟩
    · exact ⟨[e], hj, .refl _⟩
  rcases N.write_cases p w with hw | hw <;> rw [hw]
  · exact ⟨[], (List.append_nil _).symm, List.nil_sublist _⟩
  · obtain ⟨l, hl, hs⟩ := happ (N.assigned p w) (.task (N.written (N.writeClock p.vectorClock w) w))
    rw [logUpdate_eq]
    split_ifs
    · obtain ⟨l', hl', hs'⟩ := happ (N.appendEntry (N.assigned p w)
        (.task (N.written (N.writeClock p.vectorClock w) w))).1
        (.clock (N.assigned p w).vectorClock)
      exact ⟨l ++ l', by rw [hl', hl, List.append_assoc]; rfl, hs.append hs'⟩
    · exact ⟨l, hl, hs.trans (List.sublist_append_left _ _)⟩

/-- What is logged by a write is its record. -/
theorem mem_write_journal {r : TaskRecord} (h : .task r ∈ (N.write p w).journal) :
    .task r ∈ p.journal ∨ r = N.written (N.writeClock p.vectorClock w) w := by
  obtain ⟨l, hl, hs⟩ := write_journal (N := N) p w
  rw [hl, List.mem_append] at h
  refine h.imp_right fun hm => ?_
  simpa using hs.subset hm

theorem WriteReady.room (h : N.WriteReady p w) :
    p.tasks.has w.taskId = true ∨ p.tasks.size < N.maxTasks := by
  cases w with
  | submit t payload => exact h.2.2
  | claim job => exact Or.inl h.1.stored
  | run job => exact Or.inl (JobReady.stored h)
  | commit job outcome => exact Or.inl h.1.stored
  | reset t record => exact Or.inl h.1
  | take t remote merged =>
    obtain ⟨-, -, ⟨-, hsize, -⟩ | ⟨old, hold, -⟩⟩ := h
    · exact Or.inr hsize
    · exact Or.inl (by simp [Dict.has, Write.taskId, hold])

theorem WriteReady.merged (h : N.WriteReady p w) : N.Merged p w := by
  cases w with
  | take t remote merged => exact h.2.2.imp (fun h => h.2.2) id
  | _ => trivial

/-- **A write keeps a replica durable.** -/
theorem Durable.write (h : N.Durable p) (hE : R.ed25519.Lawful) (hr : N.WriteReady p w)
    (hd : N.DurableWrite p w) : N.Durable (N.write p w) := by
  obtain ⟨hid, hread⟩ := h.written_readable hE hr hd
  -- every record logged for the task is below the new one
  have hbelow : ∀ r, .task r ∈ p.journal → N.security.enabled = true → r.taskId = w.taskId →
      recordLww.Le r (N.written (N.writeClock p.vectorClock w) w) := by
    intro r hj hs ht
    obtain ⟨-, cur, hcur, hle⟩ := h.logged r hj
    rw [ht] at hcur
    exact (hle hs).trans (h.written_above hr hd hs hcur)
  refine ⟨h.intact.write, h.clocks.write hr.merged, ?_, ?_, ?_, ?_, ?_⟩
  · rw [write_tasks, Dict.size_set]
    split_ifs with hh
    · exact h.size
    · exact Nat.succ_le_of_lt (hr.room.resolve_left (by simpa using hh))
  · rw [write_vectorClock]; exact h.writeClock_fits hd
  · intro t r hg
    rw [write_get] at hg
    split_ifs at hg with ht
    · rw [← Option.some.inj hg]; exact ⟨hid.trans ht, hread⟩
    · exact h.stored t r hg
  · intro r hj
    rcases mem_write_journal hj with hj | rfl
    · obtain ⟨hr', cur, hcur, hle⟩ := h.logged r hj
      refine ⟨hr', ?_⟩
      rw [write_get]
      split_ifs with ht
      · exact ⟨_, rfl, fun hs => hbelow r hj hs ht.symm⟩
      · exact ⟨cur, hcur, hle⟩
    · refine ⟨hread, _, ?_, fun _ => ⟨le_rfl, le_rfl⟩⟩
      rw [write_get, if_pos hid.symm]
  · intro hs
    obtain ⟨l, hl, hsub⟩ := write_journal (N := N) p w
    rw [hl]
    refine List.pairwise_append.2 ⟨h.ordered hs, ?_, ?_⟩
    · refine List.Pairwise.sublist hsub (List.pairwise_cons.2 ⟨?_, List.pairwise_singleton _ _⟩)
      intro b hb r x _ hx
      simp [hx] at hb
    · rintro a ha b hb r x rfl rfl ht
      obtain rfl : x = N.written (N.writeClock p.vectorClock w) w := by simpa using hsub.subset hb
      exact hbelow r ha hs (ht.trans hid)

end

/-! ## Durable runs -/

/-- The replica is durable, and the locals of the loops are in order. -/
structure DurableState (s : NodeState) : Prop where
  replica : N.Durable s.toReplica
  job : ∀ job, s.worker.job = some job → N.JobReady s.toReplica job
  snapshot : ∀ t r, (t, r) ∈ s.reclaim.snapshot →
    s.tasks.has t = true ∧ r.taskId = t ∧ r.Decodable
  distinct : s.reclaim.Distinct

/-- A step that is no restart and whose writes meet the conditions. -/
def DurableStep (s : NodeState) (e : Event) : Prop :=
  (∀ cut, e ≠ .restart cut) ∧ Along N.DurableWrite N.write s.toReplica (N.writes s e)

section
variable {N} {s : NodeState} {e : Event}

theorem Durable.jobReady {p : Replica} (h : N.Durable p) {job : Job} (hj : N.JobFor p job) :
    N.JobReady p job := by
  obtain ⟨hid, hread⟩ := h.stored _ _ hj.stored
  exact ⟨by simp [Dict.has, hj.stored], hid, hread.decodable, hj.token⟩

theorem JobReady.has {p q : Replica} {job : Job} (h : N.JobReady p job)
    (hq : p.tasks.has job.taskId = true → q.tasks.has job.taskId = true) : N.JobReady q job :=
  ⟨hq h.stored, h.taskId, h.decodable, h.token⟩

/-- The checks of the code make a write ready. -/
theorem DurableState.ready (h : N.DurableState s) {p : Replica} {w : Write}
    (hm : N.Made s e p w) : N.WriteReady p w := by
  cases hm with
  | submit id_ok payload_ok room => exact ⟨id_ok, payload_ok, room⟩
  | take items_of mem accepted merge =>
    obtain ⟨-, hid, hauth⟩ := N.acceptedRecord_iff.1 accepted
    exact ⟨hid, fun hs => (hauth hs).2, merge⟩
  | claim for_job => exact ⟨h.replica.jobReady for_job, for_job.stored, for_job.unfinished⟩
  | claimRun for_job =>
    exact (h.replica.jobReady for_job).has fun hh => by rw [write_has, hh]; rfl
  | run claiming => exact h.job _ (by rw [claiming]; rfl)
  | @commit outcome now wallNow nonce job handling in_time fresh =>
    refine ⟨h.job _ (by rw [handling]; rfl), fun r hr => ?_⟩
    have hr' : s.tasks.get job.taskId = some r := hr
    simpa [superseded, hr'] using fresh
  | @sweep now wallNow suspected nonce p t r no_handler hre mem same =>
    have hget := Dict.mem_entries.1 mem
    obtain ⟨hid, hread⟩ := h.replica.stored _ _ hget
    exact ⟨by simp [Dict.has, same, hget], hid, hread.decodable, reclaimable_unfinished hre⟩
  | @resume wallNow suspected nonce p t r msg now livePeers snapshot no_handler resetting hre mem
      same =>
    obtain ⟨hh, hid, hdec⟩ := h.snapshot t r (by rw [resetting]; exact mem)
    exact ⟨by rw [Dict.has, same]; exact hh, hid, hdec, reclaimable_unfinished hre⟩

theorem DurableState.step (h : N.DurableState s) (hE : R.ed25519.Lawful) (he : N.DurableStep s e) :
    N.DurableState (N.step s e) := by
  have hm := N.step_makes h.distinct he.1
  refine ⟨(hm.and he.2).invariant (fun p w hp hw => hp.write hE (h.ready hw.1) hw.2) h.replica,
    fun job hj => ?_, fun t r hr => ?_, N.step_distinct h.distinct⟩
  · rcases step_job he.1 hj with hj | ⟨-, hj, -⟩
    · exact (h.job _ hj).has hm.has
    · exact (h.replica.jobReady hj).has hm.has
  · obtain ⟨l, hl, hsuf, -⟩ := N.step_snapshot (s := s) he.1
    have hmem := hsuf.subset hr
    rcases hl with rfl | rfl
    · obtain ⟨hh, hid, hdec⟩ := h.snapshot t r hmem
      exact ⟨hm.has hh, hid, hdec⟩
    · have hget := Dict.mem_entries.1 hmem
      obtain ⟨hid, hread⟩ := h.replica.stored _ _ hget
      exact ⟨hm.has (by simp [Dict.has, hget]), hid, hread.decodable⟩

theorem DurableState.initial : N.DurableState N.initial := by
  obtain ⟨ht, hc, hj⟩ := initial_replica (N := N)
  have hroom : VectorClock.Fits (Counters.zero.increment N.nodeId) := by
    have hkeys : ∀ k ∈ (Counters.zero.increment N.nodeId).keys, k = N.nodeId := by
      intro k hk
      by_contra hne
      simp [Counters.mem_keys, hne] at hk
    have hsub : (Counters.zero.increment N.nodeId).keys ⊆ [N.nodeId] := fun k hk => by
      simp [hkeys k hk]
    have hlen := ((Counters.nodup_keys _).subperm hsub).length_le
    refine ⟨?_, fun e he => ?_⟩
    · simp only [Counters.keys, List.length_map, List.length_singleton] at hlen
      omega
    · rw [hkeys e.1 (List.mem_map_of_mem (f := Prod.fst) he)]
      exact N.nodeId_ok
  refine ⟨⟨.initial, .initial N, ?_, ?_, ?_, ?_, ?_⟩, ?_, ?_, ?_⟩
  · rw [ht]; exact Nat.zero_le _
  · rw [hc]; exact hroom
  · rw [ht]; simp
  · rw [hj]; simp
  · rw [hj]; simp
  · rw [show N.initial.worker.job = none from boot_job _ _]; simp
  · rw [show N.initial.reclaim.snapshot = [] from boot_snapshot _ _]; simp
  · exact initial_distinct

end

/-! ## Recovery of a durable log -/

section
variable {N}

theorem wholeBefore_append : ∀ (es fs : List WalEntry),
    WalEntry.wholeBefore R (es.flatMap (WalEntry.bytes R)).length (es ++ fs) = es
  | [], [] => rfl
  | [], e :: fs => by
    simp only [List.nil_append, WalEntry.wholeBefore]
    rw [if_neg (by simp [WalEntry.bytes, length_frame])]
  | e :: es, fs => by
    have ih := wholeBefore_append es fs
    simp only [List.cons_append, WalEntry.wholeBefore, List.flatMap_cons, List.length_append,
      Nat.le_add_right, if_true, Nat.add_sub_cancel_left, ih]

theorem length_logFile (es : List LogEntry) : 8 ≤ (logFile R es).length := by
  rw [logFile, List.length_append]
  exact Nat.le_add_right 8 _

/-- What lies before the end of the `k`-th entry of a log. -/
theorem survivors_take (es : List LogEntry) (k : ℕ) :
    survivors R (logFile R (es.take k)).length es = es.take k := by
  have hlen : (logFile R (es.take k)).length - 8 =
      (((es.take k).map LogEntry.entry).flatMap (WalEntry.bytes R)).length := by
    rw [logFile, List.length_append]
    exact Nat.add_sub_cancel_left 8 _
  have hwhole := wholeBefore_append (R := R) ((es.take k).map LogEntry.entry)
    ((es.drop k).map LogEntry.entry)
  rw [← List.map_append, List.take_append_drop] at hwhole
  unfold survivors
  rw [hlen, hwhole, List.length_map, List.length_take, ← List.take_take, List.take_length]

/-- The replica recovered from a beginning of the log: one record for each logged task, above
    those logged. -/
structure Regained (live : Dict Str TaskRecord) (es : List LogEntry) (p : Replica) : Prop where
  known : ∀ t m, p.tasks.get t = some m → m.taskId = t ∧ live.has t = true ∧
    (N.security.enabled = true → verifyTaskAuthorization R m N.keyring = true ∧ .task m ∈ es)
  above : ∀ r, .task r ∈ es → ∃ m, p.tasks.get r.taskId = some m ∧ recordLww.Le r m

/-- Storing a record above the logged one and the one it replaces. -/
theorem Regained.store {live : Dict Str TaskRecord} {es : List LogEntry} {p : Replica}
    {r m : TaskRecord} (h : N.Regained live es p) (hid : m.taskId = r.taskId)
    (hlive : live.has r.taskId = true) (hr : recordLww.Le r m)
    (hold : ∀ old, p.tasks.get r.taskId = some old → recordLww.Le old m)
    (hs : N.security.enabled = true →
      verifyTaskAuthorization R m N.keyring = true ∧ .task m ∈ es ++ [.task r]) :
    N.Regained live (es ++ [.task r]) (p.store r.taskId m) := by
  refine ⟨fun t x hx => ?_, fun x hx => ?_⟩
  · by_cases ht : r.taskId = t
    · subst ht
      rw [← Option.some.inj ((Dict.get_set_self _ _ _).symm.trans hx)]
      exact ⟨hid, hlive, hs⟩
    · obtain ⟨h1, h2, h3⟩ := h.known t x ((Dict.get_set_ne _ _ ht).symm.trans hx)
      exact ⟨h1, h2, fun hs => (h3 hs).imp_right (List.mem_append_left _)⟩
  · rcases List.mem_append.1 hx with hx | hx
    · obtain ⟨cur, hcur, hle⟩ := h.above x hx
      by_cases ht : r.taskId = x.taskId
      · exact ⟨m, by rw [← ht]; exact Dict.get_set_self _ _ _, hle.trans (hold cur (ht ▸ hcur))⟩
      · exact ⟨cur, (Dict.get_set_ne _ _ ht).trans hcur, hle⟩
    · obtain rfl : x = r := by simpa using hx
      exact ⟨m, Dict.get_set_self _ _ _, hr⟩

/-- **Recovery regains every record** of a log whose records it takes, if those of a secure node
    are in order and there is room for their tasks. -/
theorem recoverEntries_regained {live : Dict Str TaskRecord} (hlive : live.size ≤ N.maxTasks)
    {p : Replica} (hp : p.tasks = .empty) (es : List LogEntry)
    (hread : ∀ r, .task r ∈ es → N.Readable r ∧ live.has r.taskId = true)
    (hord : N.security.enabled = true → es.Pairwise fun a b => ∀ r s, a = .task r → b = .task s →
      r.taskId = s.taskId → recordLww.Le r s) :
    N.Regained live es (es.foldl N.recoverEntry p) := by
  induction es using List.reverseRecOn with
  | nil => exact ⟨by simp [hp], by simp⟩
  | append_singleton es e ih =>
    replace ih := ih (fun r hr => hread r (List.mem_append_left _ hr))
      fun hs => (List.pairwise_append.1 (hord hs)).1
    rw [List.foldl_append, List.foldl_cons, List.foldl_nil]
    generalize es.foldl N.recoverEntry p = q at ih
    cases e with
    | clock c =>
      refine ⟨fun t m hm => ?_, fun r hr => ih.above r (by simpa using hr)⟩
      obtain ⟨h1, h2, h3⟩ := ih.known t m hm
      exact ⟨h1, h2, fun hs => (h3 hs).imp_right (List.mem_append_left _)⟩
    | task r =>
      obtain ⟨hr, hrl⟩ := hread r (by simp)
      cases hget : q.tasks.get r.taskId with
      | none =>
        have hsize : q.tasks.size < N.maxTasks := by
          refine lt_of_lt_of_le (Dict.size_lt_size (fun t ht => ?_) ?_ hrl) hlive
          · obtain ⟨m, hm⟩ := Option.isSome_iff_exists.1 ht
            exact (ih.known t m hm).2.1
          · simp [Dict.has, hget]
        rw [N.recoverEntry_new hr.decodedTask hget hsize]
        exact ih.store rfl hrl ⟨le_rfl, le_rfl⟩ (by simp [hget]) fun hs =>
          ⟨hr.authorised hs, by simp⟩
      | some old =>
        obtain ⟨hid, -, hsec⟩ := ih.known _ _ hget
        have hmerge : mergeRecords R old r N.mergeKeyring = .ok (recordLww.merge old r) := by
          unfold mergeKeyring
          split_ifs with hs
          · exact mergeRecords_valid hid (hsec hs).1 (hr.authorised hs)
          · exact mergeRecords_none hid
        rw [N.recoverEntry_merge hr.decodedTask hget hmerge]
        refine ih.store ((Lww.grp_merge (M := recordLww) hid).trans hid) hrl (Lww.le_merge_right _ _)
          (fun o ho => ?_) fun hs => ?_
        · obtain rfl := Option.some.inj (hget.symm.trans ho)
          exact Lww.le_merge_left _ _
        · -- on a secure node what is stored was logged before, so the new record wins
          have hle : recordLww.Le old r :=
            (List.pairwise_append.1 (hord hs)).2.2 _ (hsec hs).2 (.task r) (by simp) old r rfl rfl hid
          have heq : recordLww.merge old r = r := by
            rw [Lww.merge_comm (M := recordLww) hid, (Lww.merge_eq_left_iff hid.symm).2 hle]
          rw [heq]
          exact ⟨hr.authorised hs, by simp⟩

end

/-- **Recovery keeps what was logged.**  In every run without restarts whose writes meet the
    conditions, and for a crash after any completed append, the restarted node holds for every
    logged record one of the same task with a key at least as large. -/
theorem recovery_keeps (hE : R.ed25519.Lawful) (hW : N.wal.isSome = true) {es : List Event}
    (hok : Along N.DurableStep N.step N.initial es) (k : ℕ) {r : TaskRecord}
    (hr : .task r ∈ (run N.step N.initial es).journal.take k) :
    ∃ m, (N.step (run N.step N.initial es)
        (.restart (logFile R ((run N.step N.initial es).journal.take k)).length)).tasks.get r.taskId =
          some m ∧ latticeKey r ≤ latticeKey m := by
  have h : N.DurableState (run N.step N.initial es) :=
    Along.invariant (fun _ _ h he => h.step hE he) .initial hok
  generalize run N.step N.initial es = s at h hr ⊢
  obtain ⟨W, hW⟩ := Option.isSome_iff_exists.1 hW
  obtain ⟨f, hf⟩ := N.step_restart_replica hW h.replica.intact (length_logFile (s.journal.take k))
  rw [survivors_take] at hf
  have hreg : N.Regained s.tasks (s.journal.take k) ((s.journal.take k).foldl N.recoverEntry
      (N.opened f (s.journal.take k)).toReplica) := by
    refine recoverEntries_regained h.replica.size rfl _ (fun x hx => ?_) fun hs =>
      (h.replica.ordered hs).sublist (List.take_sublist _ _)
    obtain ⟨hread, cur, hcur, -⟩ := h.replica.logged x (List.mem_of_mem_take hx)
    exact ⟨hread, by simp [Dict.has, hcur]⟩
  obtain ⟨m, hm, hle⟩ := hreg.above r hr
  rw [hf]
  exact ⟨m, hm, hle.1⟩

namespace Sample

/-- A submission, and a claim of the same task by `b` that is merged with it. -/
noncomputable def mergedSteps : List Event := [.submit (str "t") [] 0, arrivalStep]

/-- What comes of the merge. -/
noncomputable def mergedClaim : TaskRecord :=
  ((mergeRecords runtime submission claimB none).toOption).getD claimB

/-- The parts of the acceptance of a record. -/
def taken : Write → Option (Str × TaskRecord × TaskRecord)
  | .take t remote merged => some (t, remote, merged)
  | _ => none

theorem writes_arrival :
    loggingC.writes submitted arrivalStep = [.take (str "t") claimB mergedClaim] := by
  have htaken : (loggingC.writes submitted arrivalStep).map taken =
      [some (str "t", claimB, mergedClaim)] := by decide +kernel
  obtain ⟨w, hw, htake⟩ := List.map_eq_singleton_iff.1 htaken
  rw [hw]
  cases w <;> cases htake
  rfl

end Sample

theorem recovery_keeps_merged :
    ((run Sample.loggingC.step Sample.loggingC.initial Sample.mergedSteps).journal.length = 4 ∧
      .task Sample.mergedClaim ∈
        (run Sample.loggingC.step Sample.loggingC.initial Sample.mergedSteps).journal.take 3) ∧
    ∀ r, .task r ∈ (run Sample.loggingC.step Sample.loggingC.initial Sample.mergedSteps).journal.take 3 →
      ∃ m, (Sample.loggingC.step (run Sample.loggingC.step Sample.loggingC.initial Sample.mergedSteps)
        (.restart (logFile Sample.runtime ((run Sample.loggingC.step Sample.loggingC.initial
          Sample.mergedSteps).journal.take 3)).length)).tasks.get r.taskId = some m ∧
      latticeKey r ≤ latticeKey m := by
  have hwrites : Sample.loggingC.writes Sample.loggingC.initial (.submit (str "t") [] 0) =
      [.submit (str "t") []] := rfl
  have hok : Along Sample.loggingC.DurableStep Sample.loggingC.step Sample.loggingC.initial
      Sample.mergedSteps := by
    refine ⟨⟨(fun _ h => by cases h), ?_⟩, ⟨(fun _ h => by cases h), ?_⟩, trivial⟩
    · rw [hwrites]
      exact ⟨fun _ => rfl, trivial⟩
    · rw [← Sample.submitted, Sample.writes_arrival]
      exact ⟨⟨by decide, ⟨by decide +kernel, by decide +kernel⟩, fun hs => by cases hs⟩, trivial⟩
  exact ⟨⟨by decide +kernel, by decide +kernel⟩, fun r hr =>
    Sample.loggingC.recovery_keeps Ed25519.suffix_lawful rfl hok 3 hr⟩

namespace Sample

/-- A task in the JSON form of a submission of `a` that does not say who updated it. -/
def anonymous : Json :=
  .obj (({ PeerQ.Sample.pendingA with signerId := none } : TaskRecord).fields.filter
    fun e => e.1 ≠ str "updated_by")

/-- The record that this is decoded to. -/
def unnamed : TaskRecord := { PeerQ.Sample.pendingA with updatedBy := [] , signerId := none }

def anonymousGossip : Message :=
  ⟨str "gossip", str "a", [(str "tasks", .obj [(str "t", anonymous)])], none, none, none, 2⟩

/-- The state after that message. -/
noncomputable def informed : NodeState :=
  loggingC.step loggingC.initial (.recv (str "a") anonymousGossip 0)

theorem informed_journal : informed.journal = [.task unnamed, .clock unnamed.vectorClock] := by
  decide +kernel

theorem informed_intact : loggingC.Intact informed.toReplica :=
  (loggingC.step_makes (s := loggingC.initial) (e := .recv (str "a") anonymousGossip 0)
    (DurableState.initial (N := loggingC)).distinct nofun).invariant
    (fun _ _ h _ => h.write) Intact.initial

end Sample

/-- A gossiped record without `updated_by` is stored and logged with an empty one, which the decoder
    does not take: recovery skips it. -/
theorem recovery_loses_unnamed :
    ¬ ∀ (R : Runtime) (N : PeerNode R) (es : List Event) (k : ℕ) (r : TaskRecord),
      R.ed25519.Lawful → N.wal.isSome = true → (∀ e ∈ es, ∀ cut, e ≠ .restart cut) →
      .task r ∈ (run N.step N.initial es).journal.take k →
      ∃ m, (N.step (run N.step N.initial es)
        (.restart (logFile R ((run N.step N.initial es).journal.take k)).length)).tasks.get r.taskId =
          some m ∧ latticeKey r ≤ latticeKey m := by
  intro h
  have hbad := h Sample.runtime Sample.loggingC [.recv (str "a") Sample.anonymousGossip 0] 1
    Sample.unnamed Ed25519.suffix_lawful rfl (by simp)
  rw [run_cons, run_nil, ← Sample.informed] at hbad
  obtain ⟨f, hf⟩ := Sample.loggingC.step_restart_replica rfl Sample.informed_intact
    (length_logFile (Sample.informed.journal.take 1))
  rw [survivors_take, Sample.informed_journal] at hf
  rw [Sample.informed_journal] at hbad
  obtain ⟨m, hm, -⟩ := hbad (by simp)
  rw [hf] at hm
  -- the only entry is skipped
  have hskip : Sample.loggingC.decodedTask Sample.unnamed.toDict = .ok none := by
    rcases Sample.loggingC.decodedTask_toDict Sample.unnamed with hd | ⟨-, hd, -⟩
    · exact hd
    · exact absurd rfl hd.updatedBy.1
  simp [recoverEntry, hskip, opened, fresh] at hm

end PeerNode

end PeerQ
