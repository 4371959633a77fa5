/-
  Acceptance: whether peers take the records that a node makes.

  The checks of `submit_task` and of the decoder keep the id, the payload and the
  epoch of every stored record within the limits (`Renewable`), and so of every
  record that the node makes from one.  Nothing bounds what a handler returns, nor
  the number of peers that the clock of the node has heard of: a record is decoded
  again where these are within the limits too (`created_accepted`).
-/
import PeerQ.Node.LooseClocks
import PeerQ.Node.Store

namespace PeerQ

open Py

/-- A stored record whose key, payload and epoch are within the limits. -/
structure Renewable (t : Str) (r : TaskRecord) : Prop where
  taskId : t ≠ [] ∧ t.length ≤ maxTaskIdLength
  payload : r.payload.length ≤ maxTaskPayload
  epoch : 0 ≤ r.fenceToken.epoch

theorem TaskRecord.Accepted.renewable {r : TaskRecord} (h : r.Accepted) {t : Str}
    (ht : t ≠ [] ∧ t.length ≤ maxTaskIdLength) : Renewable t r := ⟨ht, h.payload, h.fence.1⟩

theorem Renewable.nextFor {t : Str} {r : TaskRecord} (h : Renewable t r) (peer : Str) :
    0 ≤ (r.fenceToken.nextFor peer).epoch := by
  have := h.epoch
  simp only [FenceToken.nextFor]
  omega

namespace PeerNode

variable {R : Runtime} (N : PeerNode R)

/-! ## The records that a step creates -/

/-- The records that the node makes itself in a list of writes. -/
def createdBy (p : Replica) : List Write → List TaskRecord
  | [] => []
  | w :: ws => (if w.own then [N.written (N.writeClock p.vectorClock w) w] else []) ++
      createdBy (N.write p w) ws

/-- The records that the node creates in a step, in `submit_task`, `_worker_loop` and
    `_reclaim_loop`. -/
def created (s : NodeState) (e : Event) : List TaskRecord :=
  N.createdBy s.toReplica (N.writes s e)

/-- Every key and record of the store is renewable, and so is what the loops work with. -/
structure Sound (s : NodeState) : Prop where
  stored : ∀ t r, s.tasks.get t = some r → Renewable t r
  job : ∀ job, s.worker.job = some job → Renewable job.taskId job.record ∧
    job.newToken = job.record.fenceToken.nextFor N.nodeId
  snapshot : ∀ t r, (t, r) ∈ s.reclaim.snapshot → Renewable t r
  distinct : s.reclaim.Distinct

/-- The outcome of a handler is within the limits. -/
def OutcomeFits : Event → Prop
  | .handlerDone (.ok result) .. => result.length ≤ maxTaskResult
  | .handlerDone (.error text) .. => text.length ≤ maxErrorLength
  | _ => True

section
variable {N} {s : NodeState} {e : Event} {p : Replica} {w : Write} {r : TaskRecord}

theorem mem_createdBy {P : Replica → Write → Prop} : ∀ {ws : List Write} {p : Replica},
    Along P N.write p ws → r ∈ N.createdBy p ws →
      ∃ q w, P q w ∧ w.own = true ∧ r = N.written (N.writeClock q.vectorClock w) w
  | [], _, _, h => by cases h
  | w :: ws, p, ⟨hw, hws⟩, h => by
    rcases List.mem_append.1 h with h | h
    · split_ifs at h with hown
      · exact ⟨p, w, hw, hown, List.mem_singleton.1 h⟩
      · cases h
    · exact mem_createdBy hws h

/-! ## Soundness -/

/-- What is written is renewable. -/
theorem Made.renewable (h : N.Made s e p w) (hs : N.Sound s)
    (hp : ∀ t r, p.tasks.get t = some r → Renewable t r) (c : VectorClock) :
    Renewable w.taskId (N.written c w) := by
  have hjob : ∀ (job : Job) (x : TaskRecord), Renewable job.taskId job.record ∧
      job.newToken = job.record.fenceToken.nextFor N.nodeId → x.payload = job.record.payload →
      x.fenceToken = job.newToken → Renewable job.taskId (N.sealRecord x) := by
    rintro job x ⟨hr, htok⟩ hpay hfence
    refine ⟨hr.taskId, ?_, ?_⟩
    · rw [sealRecord_payload, hpay]; exact hr.payload
    · rw [sealRecord_fenceToken, hfence, htok]; exact hr.nextFor _
  have hreset : ∀ (t : Str) (r : TaskRecord), Renewable t r →
      Renewable t (N.resetRecord t r c) := by
    intro t r hr
    refine ⟨hr.taskId, ?_, ?_⟩
    · rw [resetRecord, sealRecord_payload]; exact hr.payload
    · rw [resetRecord, sealRecord_fenceToken]; exact hr.nextFor _
  cases h with
  | submit id_ok payload_ok _ =>
    refine ⟨id_ok, ?_, ?_⟩
    · rw [written, submitRecord, sealRecord_payload]; exact payload_ok
    · rw [written, submitRecord, sealRecord_fenceToken]
  | claim for_job _ => exact hjob _ _ ⟨hs.stored _ _ for_job.stored, for_job.token⟩ rfl rfl
  | claimRun for_job _ => exact hjob _ _ ⟨hs.stored _ _ for_job.stored, for_job.token⟩ rfl rfl
  | run claiming => exact hjob _ _ (hs.job _ (by rw [claiming]; rfl)) rfl rfl
  | commit handling _ _ => exact hjob _ _ (hs.job _ (by rw [handling]; rfl)) rfl rfl
  | sweep _ _ mem _ => exact hreset _ _ (hs.stored _ _ (Dict.mem_entries.1 mem))
  | resume _ resetting _ mem _ =>
    exact hreset _ _ (hs.snapshot _ _ (by rw [resetting]; exact mem))
  | take _ _ accepted merge =>
    obtain ⟨hdec, hid, -⟩ := N.acceptedRecord_iff.1 accepted
    have hacc := TaskRecord.fromDict_accepted hdec
    have hremote := hacc.renewable (hid ▸ hacc.taskId)
    rcases merge with ⟨-, -, rfl⟩ | ⟨old, hold, hm⟩
    · exact hremote
    · have hrold := hp _ _ hold
      obtain ⟨c', rfl | ⟨rfl, -⟩⟩ := mergeRecords_winner hm
      exacts [⟨hrold.taskId, hrold.payload, hrold.epoch⟩,
        ⟨hremote.taskId, hremote.payload, hremote.epoch⟩]

theorem Sound.step (h : N.Sound s) (he : ∀ cut, e ≠ .restart cut) : N.Sound (N.step s e) := by
  refine ⟨?_, fun job hj => ?_, fun t r hr => ?_, step_distinct h.distinct⟩
  · refine (N.step_makes h.distinct he).invariant
      (I := fun p => ∀ t r, p.tasks.get t = some r → Renewable t r) (fun p w hp hw t r hr => ?_)
      h.stored
    rw [write_get] at hr
    split_ifs at hr with ht
    · rw [← Option.some.inj hr, ← ht]
      exact hw.renewable h hp _
    · exact hp t r hr
  · rcases step_job he hj with hj | ⟨-, hj, -⟩
    · exact h.job job hj
    · exact ⟨h.stored _ _ hj.stored, hj.token⟩
  · obtain ⟨l, hl, hsuf, -⟩ := N.step_snapshot (s := s) he
    have hmem := hsuf.subset hr
    rcases hl with rfl | rfl
    · exact h.snapshot t r hmem
    · exact h.stored t r (Dict.mem_entries.1 hmem)

end

/-! ## Recovery -/

/-- The checkpoints of a log have every task that recovery takes under a key that is a task id, and
    the counters of its clocks are integers.  Other numbers would stay in the clock of the node
    (`recover_withClock`), where the decoder refuses them. -/
structure AcceptableLog (file : Option Bytes) : Prop where
  taskIds : ∀ W f, N.wal = some W → W.openFile file = .ok f → ∀ rec ∈ (W.replay R false f).1,
    rec.recordType = recordCheckpoint → ∀ t v r, (t, v) ∈ rec.snapshot →
      N.decodedTask v = .ok (some r) → t ≠ [] ∧ t.length ≤ maxTaskIdLength
  integral : ∀ W f, N.wal = some W → W.openFile file = .ok f → ∀ rec ∈ (W.replay R false f).1,
    rec.Integral

variable {N} in
/-- On such a log the clock that the node recovers is the one of the interpreter. -/
theorem AcceptableLog.holds {file : Option Bytes} (h : N.AcceptableLog file) {W : WriteAheadLog}
    {f : Bytes} (hW : N.wal = some W) (ho : W.openFile file = .ok f) :
    ∃ c : LooseClock, N.recover ((N.opened f []).withClock .zero) (W.replay R false f) =
        ((N.recoverFile W f).1.withClock c, (N.recoverFile W f).2) ∧
      c.Holds (N.recoverFile W f).1.vectorClock := by
  obtain ⟨c, hrun, hholds⟩ := recover_withClock (N := N) (N.opened f []) .zero (W.replay R false f)
  exact ⟨c, hrun, hholds (h.integral W f hW ho) LooseClock.holds_zero⟩

/-- A restart finds such a log. -/
def RestartsAcceptably (s : NodeState) (e : Event) : Prop :=
  ∀ cut, e = .restart cut → N.AcceptableLog (s.walFile.map (List.take cut))

section
variable {N} {s : NodeState} {e : Event} {p : Replica} {r : TaskRecord}

theorem decodedTask_accepted {v : Json} (h : N.decodedTask v = .ok (some r)) : r.Accepted := by
  unfold decodedTask at h
  cases hd : TaskRecord.fromDict v with
  | error e =>
    simp only [hd] at h
    split_ifs at h
    simp at h
  | ok r' =>
    simp only [hd] at h
    split_ifs at h
    · simp at h
    · rw [← Option.some.inj (Except.ok.inj h)]
      exact TaskRecord.fromDict_accepted hd

theorem recoverTask_renewable (hp : ∀ t r, p.tasks.get t = some r → Renewable t r) {t : Str}
    (hr : Renewable t r) : ∀ k x, (N.recoverTask p t r).tasks.get k = some x → Renewable k x := by
  have hstore : ∀ m, Renewable t m → ∀ k x, (p.store t m).tasks.get k = some x → Renewable k x := by
    intro m hm k x hx
    simp only [Replica.store, Dict.get_set] at hx
    split_ifs at hx with hk
    · rw [← Option.some.inj hx, ← hk]; exact hm
    · exact hp k x hx
  unfold recoverTask
  split
  · exact hstore r hr
  · next old hold =>
    split
    · exact hp
    · next m hm =>
      have ho := hp t old hold
      obtain ⟨c', rfl | ⟨rfl, -⟩⟩ := mergeRecords_winner hm
      exacts [hstore _ ⟨ho.taskId, ho.payload, ho.epoch⟩, hstore _ ⟨hr.taskId, hr.payload, hr.epoch⟩]

theorem Sound.boot {file : Option Bytes} (h : N.AcceptableLog file) (journal : List LogEntry) :
    N.Sound (N.boot file journal) := by
  have hheld := Held.boot (N := N) file journal
  refine ⟨?_, fun job hj => ?_, fun t r hr => ?_, hheld.distinct⟩
  · obtain ⟨-, hb⟩ | ⟨W, hW, ⟨-, hb⟩ | ⟨f, ho, hb⟩⟩ := N.boot_replica file journal <;> rw [hb]
    · intro t r hr; cases hr
    · intro t r hr; cases hr
    · refine recoverRecords_invariant (I := fun p => ∀ t r, p.tasks.get t = some r → Renewable t r)
        (fun _ _ hp => hp) ?_ (by intro t r hr; cases hr)
      rintro p t v r ⟨rec, hrec, ⟨-, -, rfl⟩ | ⟨hty, hv⟩⟩ hd - hp
      · have hacc := decodedTask_accepted hd
        exact recoverTask_renewable hp (hacc.renewable hacc.taskId)
      · exact recoverTask_renewable hp
          ((decodedTask_accepted hd).renewable (h.taskIds W f hW ho rec hrec hty t v r hv hd))
  · rw [boot_job] at hj; cases hj
  · rw [boot_snapshot] at hr; cases hr

theorem Sound.run {file : Option Bytes} {es : List Event} (hfile : N.AcceptableLog file)
    (hes : Along N.RestartsAcceptably N.step (N.boot file []) es) :
    N.Sound (run N.step (N.boot file []) es) := by
  refine hes.invariant (fun s e h hok => ?_) (.boot hfile [])
  obtain ⟨cut, rfl⟩ | he := e.restart_or
  · have hb := Sound.boot (hok cut rfl) s.journal
    exact ⟨hb.stored, hb.job, hb.snapshot, hb.distinct⟩
  · exact h.step he

/-! ## The clock of a created record -/

/-- A step that creates records leaves the clock of the node with no other peers than before and
    itself. -/
theorem Made.clock {w : Write} (h : N.Made s e p w) (hw : w.own = true) {k : Str}
    (hp : (∀ sender msg now, e ≠ .recv sender msg now) →
      0 < p.vectorClock.get k → 0 < (s.vectorClock.increment N.nodeId).get k)
    (hk : 0 < (N.writeClock p.vectorClock w).get k) :
    0 < (s.vectorClock.increment N.nodeId).get k := by
  have he : ∀ sender msg now, e ≠ .recv sender msg now := by
    rintro sender msg now rfl
    cases h
    cases hw
  have hinc : ∀ c : VectorClock, (0 < c.get k → 0 < (s.vectorClock.increment N.nodeId).get k) →
      0 < (c.increment N.nodeId).get k → 0 < (s.vectorClock.increment N.nodeId).get k := by
    intro c hc hk
    by_cases hkn : k = N.nodeId
    · subst hkn
      rw [Counters.get_increment, if_pos rfl]
      exact Nat.succ_pos _
    · rw [Counters.get_increment, if_neg hkn] at hk
      exact hc hk
  cases w with
  | take => cases hw
  | run job => exact hp he hk
  | _ => exact hinc _ (hp he) hk

/-! ## Created records -/

/-- The decoder takes a renewable record without a signature whose other fields are the node's own. -/
theorem decodable_of_renewable {t : Str} {x : TaskRecord} (h : Renewable t (N.sealRecord x))
    (ht : x.taskId = t) (hres : ∀ b ∈ x.result, b.length ≤ maxTaskResult)
    (herr : ∀ m ∈ x.error, m.length ≤ maxErrorLength)
    (hby : ∀ holder ∈ x.claimedBy, N.nodeId = holder ∧ x.fenceToken.peerId = holder)
    (hpeer : x.fenceToken.peerId.length ≤ maxPeerIdLength) (hup : x.updatedBy = N.nodeId)
    (hc : VectorClock.Fits x.vectorClock) (hsig : x.signature = none) (hid : x.signerId = none) :
    x.Decodable where
  taskId := ht ▸ h.taskId
  payload := sealRecord_payload (N := N) x ▸ h.payload
  result := hres
  error := herr
  claimedBy p hp := (hby p hp).1 ▸ N.nodeId_ok
  updatedBy := hup ▸ N.nodeId_ok
  signerId := by rw [hid]; simp
  fence := ⟨sealRecord_fenceToken (N := N) x ▸ h.epoch, hpeer⟩
  clock := hc
  signature := by rw [hsig]; simp

/-- A record that the node makes is the seal on a decodable one, unclaimed or with its own claim. -/
theorem Made.unsealed {w : Write} (h : N.Made s e p w) (hs : N.Sound s) (hw : w.own = true)
    (hp : ∀ t r, p.tasks.get t = some r → Renewable t r) (hout : OutcomeFits e) {c : VectorClock}
    (hc : c.Fits) : ∃ x, N.written c w = N.sealRecord x ∧ x.Decodable ∧
      ∀ holder ∈ x.claimedBy, N.nodeId = holder ∧ x.fenceToken.peerId = holder := by
  have hren := h.renewable hs hp c
  have hnode := N.nodeId_ok.2
  have hclaim : ∀ job : Job, job.newToken = job.record.fenceToken.nextFor N.nodeId →
      (∀ holder ∈ some N.nodeId, N.nodeId = holder ∧ job.newToken.peerId = holder) ∧
        job.newToken.peerId.length ≤ maxPeerIdLength := by
    intro job htok
    rw [htok]
    refine ⟨?_, hnode⟩
    rintro _ ⟨⟩
    exact ⟨rfl, rfl⟩
  cases h with
  | submit id_ok payload_ok _ =>
    exact ⟨_, rfl, decodable_of_renewable hren rfl (by simp) (by simp) (by simp) (by simp) rfl hc rfl
      rfl, by simp⟩
  | claim for_job _ =>
    obtain ⟨hh, hl⟩ := hclaim _ for_job.token
    exact ⟨_, rfl, decodable_of_renewable hren rfl (by simp) (by simp) hh hl rfl hc rfl rfl, hh⟩
  | claimRun for_job _ =>
    obtain ⟨hh, hl⟩ := hclaim _ for_job.token
    exact ⟨_, rfl, decodable_of_renewable hren rfl (by simp) (by simp) hh hl rfl hc rfl rfl, hh⟩
  | run claiming =>
    obtain ⟨hh, hl⟩ := hclaim _ (hs.job _ (by rw [claiming]; rfl)).2
    exact ⟨_, rfl, decodable_of_renewable hren rfl (by simp) (by simp) hh hl rfl hc rfl rfl, hh⟩
  | @commit outcome _ _ _ _ handling _ _ =>
    obtain ⟨hh, hl⟩ := hclaim _ (hs.job _ (by rw [handling]; rfl)).2
    refine ⟨_, rfl, decodable_of_renewable hren rfl ?_ ?_ hh hl rfl hc rfl rfl, hh⟩
    · cases outcome with
      | ok result => rintro _ ⟨⟩; exact hout
      | error text => simp
    · cases outcome with
      | ok result => simp
      | error text => rintro _ ⟨⟩; exact hout
  | sweep _ _ mem _ =>
    exact ⟨_, rfl, decodable_of_renewable hren rfl (by simp) (by simp) (by simp) hnode rfl hc rfl
      rfl, by simp⟩
  | resume _ resetting _ mem _ =>
    exact ⟨_, rfl, decodable_of_renewable hren rfl (by simp) (by simp) (by simp) hnode rfl hc rfl
      rfl, by simp⟩
  | take => cases hw

/-- The records a step creates are decodable and authorised, if the clock has room. -/
theorem Sound.created (hE : R.ed25519.Lawful) (hs : N.Sound s)
    (hclock : VectorClock.Fits (s.vectorClock.increment N.nodeId)) (hout : OutcomeFits e) :
    ∀ r ∈ N.created s e, r.Decodable ∧ (N.security.enabled = true → ∀ K : PeerKeyRing,
      K.getPeerKey N.nodeId = some (R.ed25519.publicKey N.identity) →
        verifyTaskAuthorization R r K = true) := by
  intro r hr
  obtain ⟨cut, rfl⟩ | he := e.restart_or
  · cases hr
  let I : Replica → Prop := fun p => (∀ t r, p.tasks.get t = some r → Renewable t r) ∧
    ((∀ sender msg now, e ≠ .recv sender msg now) → ∀ k,
      0 < p.vectorClock.get k → 0 < (s.vectorClock.increment N.nodeId).get k)
  have hI : ∀ p w, I p → N.Made s e p w → I (N.write p w) := by
    rintro p w ⟨hp, hk⟩ hw
    refine ⟨fun t r hr => ?_, fun hrecv k hpos => ?_⟩
    · rw [write_get] at hr
      split_ifs at hr with ht
      · rw [← Option.some.inj hr, ← ht]
        exact hw.renewable hs hp _
      · exact hp t r hr
    · rw [write_vectorClock] at hpos
      refine hw.clock ?_ (fun hrecv => hk hrecv k) hpos
      cases hw with
      | take => exact absurd rfl (hrecv _ _ _)
      | _ => rfl
  have hinit : I s.toReplica := ⟨hs.stored, fun _ k hk => lt_of_lt_of_le hk
    (Counters.le_increment s.vectorClock N.nodeId k)⟩
  have halong := (N.step_makes hs.distinct he).made.mono (Q := fun p w => I p ∧ N.Made s e p w) hI
    (fun p w hp hw => ⟨hp, hw⟩) hinit
  obtain ⟨q, w, ⟨⟨hq, hk⟩, hw⟩, hown, rfl⟩ := mem_createdBy halong hr
  have hc : VectorClock.Fits (N.writeClock q.vectorClock w) :=
    hclock.mono fun k => hw.clock hown (fun hrecv => hk hrecv k)
  obtain ⟨x, hx, hdec, hby⟩ := hw.unsealed hs hown hq hout hc
  rw [hx]
  exact accepted_seal hE hdec hby

end

/-- **Peers take the records that a node creates.**  In every state of a run on any log whose
    checkpoints have task ids as keys and whose clocks have integers as counters, a record that the
    next step creates is decoded to itself and, on a secure node, authorised under every keyring with
    the node's key, if the clock of the node has room and the outcome of the handler is within the
    limits. -/
theorem created_accepted (hE : R.ed25519.Lawful) {file : Option Bytes} {es : List Event}
    (hfile : N.AcceptableLog file) (hes : Along N.RestartsAcceptably N.step (N.boot file []) es)
    {e : Event}
    (hclock : VectorClock.Fits ((run N.step (N.boot file []) es).vectorClock.increment N.nodeId))
    (hout : OutcomeFits e) : ∀ r ∈ N.created (run N.step (N.boot file []) es) e,
      TaskRecord.fromDict r.toDict = .ok r ∧ (N.security.enabled = true → ∀ K : PeerKeyRing,
        K.getPeerKey N.nodeId = some (R.ed25519.publicKey N.identity) →
          verifyTaskAuthorization R r K = true) := by
  intro r hr
  obtain ⟨hdec, hauth⟩ := (Sound.run hfile hes).created hE hclock hout r hr
  exact ⟨r.fromDict_toDict_iff.2 ⟨hdec, rfl⟩, hauth⟩

namespace Sample

/-- The handler of `c` is called for a task. -/
noncomputable def called : NodeState := run soloC.step (soloC.boot none []) claimSteps

theorem pendingA_acceptableLog {f : Bytes} (hf : WriteAheadLog.Sample.log.checkpoint runtime
    (keyedBy (str "t")) pendingA.vectorClock = .ok f) : durableC.AcceptableLog (some f) := by
  refine ⟨?_, ?_⟩
  · intro W g hW ho rec hrec hty t v r hv hr
    rw [← pendingA_keyedLog hf W g hW ho rec hrec hty t v r hv hr]
    exact (decodedTask_accepted hr).taskId
  · intro W g hW ho rec hrec
    obtain rfl : WriteAheadLog.Sample.log = W := Option.some.inj hW
    obtain rfl : f = g := Except.ok.inj ((WriteAheadLog.openFile_checkpoint hf).symm.trans ho)
    rw [WriteAheadLog.replay_checkpoint_only hf, List.mem_singleton] at hrec
    subst hrec
    unfold WalRecord.Integral
    decide +kernel

end Sample

/-- A task that was recovered, after a restart, is submitted again. -/
theorem created_accepted_restarted : ∃ f,
    WriteAheadLog.Sample.log.checkpoint Sample.runtime (Sample.keyedBy (str "t"))
      Sample.pendingA.vectorClock = .ok f ∧
    (Sample.durableC.created (run Sample.durableC.step (Sample.durableC.boot (some f) [])
      [.restart f.length]) (.submit (str "t") [1] 0)).length = 1 ∧
    ∀ r ∈ Sample.durableC.created (run Sample.durableC.step (Sample.durableC.boot (some f) [])
        [.restart f.length]) (.submit (str "t") [1] 0),
      TaskRecord.fromDict r.toDict = .ok r ∧
        verifyTaskAuthorization Sample.runtime r Sample.keys = true := by
  obtain ⟨f, hf⟩ := Sample.pendingA_checkpoint
  obtain ⟨hfile, journal, sent, hrestart⟩ := Sample.keyedBy_restart hf
  obtain ⟨hup, -, hclock, hget⟩ := Sample.keyedBy_boot hf journal
  have hlog := Sample.pendingA_acceptableLog hf
  have hes : Along Sample.durableC.RestartsAcceptably Sample.durableC.step
      (Sample.durableC.boot (some f) []) [.restart f.length] := by
    refine ⟨?_, trivial⟩
    rintro _ ⟨rfl⟩
    rw [hfile]
    exact hlog
  have hfits : VectorClock.Fits ((run Sample.durableC.step (Sample.durableC.boot (some f) [])
      [.restart f.length]).vectorClock.increment Sample.durableC.nodeId) := by
    rw [run_cons, run_nil, hrestart, hclock]
    exact ⟨by decide +kernel, by decide +kernel⟩
  refine ⟨f, hf, ?_, fun r hr => ?_⟩
  · rw [run_cons, run_nil, hrestart, created, writes, if_pos hup, submitWrites,
      if_neg (by decide), if_neg (by decide), Dict.has_of_get hget]
    rfl
  · obtain ⟨hdec, hauth⟩ := Sample.durableC.created_accepted Ed25519.suffix_lawful hlog hes
      (e := .submit (str "t") [1] 0) hfits trivial r hr
    exact ⟨hdec, hauth rfl Sample.keys (by decide +kernel)⟩

/-- The record of a result of more than 64 KiB is not decoded. -/
theorem created_refused :
    ¬ ∀ (R : Runtime) (N : PeerNode R) (es : List Event) (e : Event), R.ed25519.Lawful →
      ∀ r ∈ N.created (run N.step N.initial es) e, TaskRecord.fromDict r.toDict = .ok r ∧
        (N.security.enabled = true → ∀ K : PeerKeyRing,
          K.getPeerKey N.nodeId = some (R.ed25519.publicKey N.identity) →
            verifyTaskAuthorization R r K = true) := by
  intro h
  have hfresh : Sample.called.worker.handled.any (fun job => !superseded Sample.called job) =
      true := by decide +kernel
  cases hw : Sample.called.worker with
  | handling job =>
    simp only [hw, Worker.handled, Option.any_some, Bool.not_eq_true'] at hfresh
    let submitted := Sample.soloC.step (Sample.soloC.boot none []) (.submit (str "t") [] 0)
    have hcalled : Sample.called = Sample.soloC.step submitted (.workerGet 0 0 0 (fun _ => false)
        (str "n")) := by
      rw [Sample.called, Sample.claimSteps, run_cons, run_cons, run_nil]
    have hwindow := congrArg Worker.job hw
    rw [hcalled] at hwindow
    have hlease := workerGet_lease (rfl : submitted.worker.job = none) hwindow
    have hpos := taskLeaseDuration_pos (N := Sample.soloC) (by decide) job.record.payload
    have htime : ¬ job.leaseExp < 0 := by linarith
    let result : Bytes := List.replicate (maxTaskResult + 1) 0
    have hwrites : Sample.soloC.writes Sample.called (.handlerDone (.ok result) 0 0 (str "n")) =
        [.commit job (.ok result)] := by
      simp only [writes, doneWrites, hw, if_neg htime, hfresh]
      rfl
    have hmem : Sample.soloC.commitRecord job (.ok result)
        (Sample.called.vectorClock.increment Sample.soloC.nodeId) ∈
        Sample.soloC.created Sample.called (.handlerDone (.ok result) 0 0 (str "n")) := by
      rw [created, hwrites]
      exact List.mem_cons_self
    obtain ⟨hdec, -⟩ := h Sample.runtime Sample.soloC Sample.claimSteps
      (.handlerDone (.ok result) 0 0 (str "n")) Ed25519.suffix_lawful _ hmem
    have hlen := (TaskRecord.fromDict_toDict_iff _).1 hdec |>.1.result result rfl
    rw [List.length_replicate] at hlen
    omega
  | _ => simp [hw, Worker.handled] at hfresh

end PeerNode

end PeerQ
