/-
  Fence tokens in a mesh without security.

  A node derives a token from the record it stores, or from one that its reclaim
  loop has looked up before a suspension.  Both are above every token that the
  node has issued for the task before (`TokenInv`): a merge does not lower the
  token of an unfinished record, the worker writes the token it has issued last,
  and a sweep resets each task once.  Tokens of different nodes differ in the id.
-/
import PeerQ.Mesh

namespace PeerQ

open Py

namespace PeerNode

variable {R : Runtime} (N : PeerNode R)

/-! ## Tokens that are issued -/

/-- The token that a write issues. -/
def token : Write → Option FenceToken
  | .claim job => some job.newToken
  | .reset _ record => some (record.fenceToken.nextFor N.nodeId)
  | _ => none

/-- The tokens that are issued for a task by the writes, in their order. -/
def tokens (t : Str) (ws : List Write) : List FenceToken :=
  ws.filterMap fun w => if w.taskId = t then N.token w else none

section
variable {N} {t : Str} {ws vs : List Write} {w : Write} {k : FenceToken}

theorem tokens_append : N.tokens t (ws ++ vs) = N.tokens t ws ++ N.tokens t vs :=
  List.filterMap_append

theorem mem_tokens : k ∈ N.tokens t ws ↔ ∃ w ∈ ws, w.taskId = t ∧ N.token w = some k := by
  unfold tokens
  rw [List.mem_filterMap]
  refine exists_congr fun w => and_congr_right fun _ => ?_
  split_ifs with h <;> simp [h]

theorem tokens_nil_of (h : ∀ w ∈ ws, w.taskId = t → N.token w = none) : N.tokens t ws = [] := by
  refine List.eq_nil_iff_forall_not_mem.2 fun k hk => ?_
  obtain ⟨w, hw, ht, htoken⟩ := mem_tokens.1 hk
  rw [h w hw ht] at htoken
  cases htoken

theorem mem_tokens_one : k ∈ N.tokens t [w] ↔ w.taskId = t ∧ N.token w = some k := by
  rw [mem_tokens]
  simp

end

/-! ## One write -/

/-- The tokens issued so far are increasing and the node's, and a stored record that is unfinished has
    no smaller token than those issued for its task. -/
structure Issued (h : List Write) (p : Replica) : Prop where
  increasing : ∀ t, (N.tokens t h).Pairwise (· < ·)
  own : ∀ t, ∀ k ∈ N.tokens t h, k.peerId = N.nodeId
  stored : ∀ t, ∀ k ∈ N.tokens t h, ∃ r, p.tasks.get t = some r ∧
    (r.state.isTerminal = false → k ≤ r.fenceToken)

/-- What is written has no smaller token than those issued for its task, and a token that is issued
    is a new one of the node. -/
structure Rises (h : List Write) (w : Write) : Prop where
  new : ∀ k, N.token w = some k → k.peerId = N.nodeId ∧ ∀ k' ∈ N.tokens w.taskId h, k' < k
  kept : ∀ c, (N.written c w).state.isTerminal = false →
    (∀ k ∈ N.tokens w.taskId h, k ≤ (N.written c w).fenceToken) ∧
      ∀ k, N.token w = some k → k ≤ (N.written c w).fenceToken

section
variable {N} {h : List Write} {p : Replica} {w : Write}

theorem Issued.write (hI : N.Issued h p) (hw : N.Rises h w) : N.Issued (h ++ [w]) (N.write p w) where
  increasing t := by
    rw [tokens_append, List.pairwise_append]
    refine ⟨hI.increasing t, ?_, fun k hk k' hk' => ?_⟩
    · unfold tokens
      cases hk : (if w.taskId = t then N.token w else none) <;> simp [hk]
    · obtain ⟨rfl, htoken⟩ := mem_tokens_one.1 hk'
      exact (hw.new k' htoken).2 k hk
  own t k hk := by
    rw [tokens_append, List.mem_append] at hk
    rcases hk with hk | hk
    · exact hI.own t k hk
    · exact (hw.new k (mem_tokens_one.1 hk).2).1
  stored t k hk := by
    rw [tokens_append, List.mem_append, mem_tokens_one] at hk
    rw [write_get]
    by_cases ht : w.taskId = t
    · rw [if_pos ht]
      refine ⟨_, rfl, fun hterm => ?_⟩
      obtain ⟨hold, hnew⟩ := hw.kept _ hterm
      rcases hk with hk | ⟨-, hk⟩
      exacts [hold k (ht ▸ hk), hnew k hk]
    · rw [if_neg ht]
      exact hI.stored t k (hk.resolve_right fun hk => ht hk.1)

/-- The writes of a step, each of which rises above those before it. -/
theorem Issued.run {Q : Replica → Write → Prop} : ∀ (ws : List Write) {h : List Write} {p : Replica},
    N.Issued h p → Along Q N.write p ws →
    (∀ pre w post q, ws = pre ++ w :: post → N.Issued (h ++ pre) q → Q q w →
      N.Rises (h ++ pre) w) →
    N.Issued (h ++ ws) (run N.write p ws)
  | [], h, p, hI, _, _ => by simpa using hI
  | w :: ws, h, p, hI, hQ, hrise => by
    have hfirst : N.Rises h w := by
      simpa using hrise [] w ws p rfl (by simpa using hI) hQ.1
    have hrest := Issued.run ws (hI.write hfirst) hQ.2 fun pre v post q heq hq hv => by
      rw [List.append_assoc] at hq ⊢
      exact hrise (w :: pre) v post q (by rw [heq]; rfl) hq hv
    rwa [List.append_assoc] at hrest

/-! ## What is written -/

theorem Rises.of_none (htoken : N.token w = none)
    (hkept : ∀ c, (N.written c w).state.isTerminal = false →
      ∀ k ∈ N.tokens w.taskId h, k ≤ (N.written c w).fenceToken) : N.Rises h w :=
  ⟨fun k hk => absurd (htoken.symm.trans hk) (by simp),
    fun c hc => ⟨hkept c hc, fun k hk => absurd (htoken.symm.trans hk) (by simp)⟩⟩

theorem Rises.submit {t : Str} {payload : Bytes} (ht : N.tokens t h = []) :
    N.Rises h (.submit t payload) := by
  refine .of_none rfl fun c _ k hk => ?_
  rw [show N.tokens (Write.submit t payload).taskId h = [] from ht] at hk
  cases hk

theorem Rises.claim {job : Job} (hown : job.newToken.peerId = N.nodeId)
    (hlt : ∀ k ∈ N.tokens job.taskId h, k < job.newToken) : N.Rises h (.claim job) := by
  refine ⟨fun k hk => ?_, fun c _ => ⟨fun k hk => ?_, fun k hk => ?_⟩⟩
  · rw [← Option.some.inj hk]; exact ⟨hown, hlt⟩
  · simp only [written, claimRecord, sealRecord_fenceToken]
    exact (hlt k hk).le
  · simp only [written, claimRecord, sealRecord_fenceToken]
    exact (Option.some.inj hk).ge

theorem Rises.run {job : Job} (hle : ∀ k ∈ N.tokens job.taskId h, k ≤ job.newToken) :
    N.Rises h (.run job) := by
  refine .of_none rfl fun c _ k hk => ?_
  simp only [written, claimRecord, sealRecord_fenceToken]
  exact hle k hk

theorem Rises.commit {job : Job} {outcome : Except Str Bytes}
    (hle : ∀ k ∈ N.tokens job.taskId h, k ≤ job.newToken) : N.Rises h (.commit job outcome) := by
  refine .of_none rfl fun c _ k hk => ?_
  simp only [written, commitRecord, sealRecord_fenceToken]
  exact hle k hk

theorem Rises.reset {t : Str} {record : TaskRecord}
    (hle : ∀ k ∈ N.tokens t h, k ≤ record.fenceToken) : N.Rises h (.reset t record) := by
  have hlt : ∀ k ∈ N.tokens t h, k < record.fenceToken.nextFor N.nodeId := fun k hk =>
    lt_of_le_of_lt (hle k hk) (FenceToken.lt_nextFor _ _)
  refine ⟨fun k hk => ?_, fun c _ => ⟨fun k hk => ?_, fun k hk => ?_⟩⟩
  · rw [← Option.some.inj hk]; exact ⟨rfl, hlt⟩
  · simp only [written, resetRecord, sealRecord_fenceToken]
    exact (hlt k hk).le
  · simp only [written, resetRecord, sealRecord_fenceToken]
    exact (Option.some.inj hk).ge

/-- Without security a merge does not lower the token of an unfinished record. -/
theorem Rises.take (hsec : N.security.enabled = false) (hI : N.Issued h p) {t : Str}
    {remote merged : TaskRecord}
    (hm : p.tasks.get t = none ∧ p.tasks.size < N.maxTasks ∧ merged = remote ∨
      ∃ old, p.tasks.get t = some old ∧ mergeRecords R old remote N.mergeKeyring = .ok merged) :
    N.Rises h (.take t remote merged) := by
  refine .of_none rfl fun c hterm k hk => ?_
  obtain ⟨r, hr, hle⟩ := hI.stored t k hk
  rcases hm with ⟨hn, -⟩ | ⟨old, hold, hm⟩
  · rw [hn] at hr; cases hr
  · obtain rfl := Option.some.inj (hold.symm.trans hr)
    have hid := (mergeRecords_taskId hm).1
    rw [mergeKeyring, hsec, if_neg (by simp), mergeRecords_none hid] at hm
    obtain rfl := Except.ok.inj hm
    have hterm' : (recordLww.merge old remote).state.isTerminal = false := hterm
    obtain ⟨h1, h2⟩ := latticeKey_le (Lww.le_merge_left (M := recordLww) old remote).1
    have hunfinished : old.state.isTerminal = false := by
      by_contra ho
      rw [h1 (by simpa using ho)] at hterm'
      cases hterm'
    exact (hle hunfinished).trans (h2 fun ht => by rw [hterm'] at ht; cases ht)

end

/-! ## Loops that are not there -/

section
variable {N} {s : NodeState} {e : Event}

/-- A stopped worker stays so. -/
theorem step_idle (hw : s.worker = .stopped) (he : ∀ cut, e ≠ .restart cut) :
    (N.step s e).worker = .stopped := by
  cases e with
  | submit taskId payload priority =>
    exact (N.step_submit_frame s taskId payload priority).worker.trans hw
  | recv sender msg wallNow => exact (N.step_recv_worker s sender msg wallNow).trans hw
  | workerGet now leaseNow wallNow suspected nonce => simp only [step, hw]
  | workerSent wallNow nonce => simp only [step, workerSent, hw]
  | handlerDone outcome now wallNow nonce => simp only [step, handlerDone, hw]
  | reclaimSweep now wallNow suspected nonce => exact (step_reclaims_frame rfl).worker.trans hw
  | reclaimSent wallNow suspected nonce => exact (step_reclaims_frame rfl).worker.trans hw
  | gossipRound partner wallNow nonce =>
    exact (N.step_gossipRound_quiet s partner wallNow nonce).worker.trans hw
  | heartbeatRound now wallNow nonce =>
    exact (N.step_heartbeatRound_quiet s now wallNow nonce).worker.trans hw
  | restart cut => exact absurd rfl (he cut)

/-- On a node with a handler a sweep is never suspended. -/
theorem step_unsuspended (hh : N.hasHandler = true) (hs : s.reclaim.snapshot = [])
    (he : ∀ cut, e ≠ .restart cut) : (N.step s e).reclaim.snapshot = [] := by
  have hsweep : ∀ (now wallNow : ℚ) (livePeers : List Str) (suspected : Str → Bool) (nonce : Str)
      (l : List (Str × TaskRecord)),
      (N.sweep now livePeers suspected wallNow nonce s l).reclaim.snapshot = [] := by
    intro now wallNow livePeers suspected nonce l
    exact N.sweep_invariant (I := fun s => s.reclaim.snapshot = []) (J := fun _ _ => True)
      (fun _ _ _ h => h) (fun _ _ _ h => h) (fun _ _ _ _ _ h => h)
      (fun hf => absurd (hh.symm.trans hf) (by simp)) (fun _ _ => rfl) (fun _ _ _ => rfl)
      (fun hf => absurd (hh.symm.trans hf) (by simp)) l s trivial
  cases e with
  | reclaimSweep now wallNow suspected nonce =>
    simp only [step, reclaimSweep]
    cases hr : s.reclaim
    case sleeping => exact hsweep _ _ _ _ _ _
    all_goals rw [hr] at hs; rw [hr]; exact hs
  | reclaimSent wallNow suspected nonce =>
    simp only [step, reclaimSent]
    cases hr : s.reclaim
    case resetting msg rest now livePeers snapshot =>
      cases rest with
      | nil => exact hsweep _ _ _ _ _ _
      | cons p rest => rw [hr] at hs; exact hs
    all_goals rw [hr]; rfl
  | recv sender msg wallNow => rw [step_recv_reclaim]; exact hs
  | restart cut => exact absurd rfl (he cut)
  | _ => rw [(step_frame rfl).reclaim]; exact hs

/-- The writes of a worker that takes a task: it claims it, and may run the handler at once. -/
theorem getWrites_split {now leaseNow wallNow : ℚ} {suspected : Str → Bool} {nonce : Str}
    {pre post : List Write} {w : Write}
    (h : N.writes s (.workerGet now leaseNow wallNow suspected nonce) = pre ++ w :: post) :
    ∃ job, N.JobFor s.toReplica job ∧ s.worker = .waiting ∧
      (pre = [] ∧ w = .claim job ∨ pre = [.claim job] ∧ w = .run job) := by
  have hcases : ∀ (job : Job) (ws : List Write), ws = [.claim job] ∨ ws = [.claim job, .run job] →
      ws = pre ++ w :: post → pre = [] ∧ w = .claim job ∨ pre = [.claim job] ∧ w = .run job := by
    rintro job ws (rfl | rfl) hws
    · rcases pre with _ | ⟨v, pre⟩ <;> simp at hws
      exact Or.inl ⟨rfl, hws.1.symm⟩
    · rcases pre with _ | ⟨v, _ | ⟨v', pre⟩⟩ <;> simp at hws
      · exact Or.inl ⟨rfl, hws.1.symm⟩
      · exact Or.inr ⟨by rw [hws.1], hws.2.1.symm⟩
  simp only [writes] at h
  cases hw : s.worker <;> rw [hw] at h
  case waiting =>
    unfold getWrites at h
    rcases hg : s.queue.get with _ | ⟨taskId, q⟩ <;> simp only [hg] at h
    · simp at h
    rcases ht : s.tasks.get taskId with _ | record <;> simp only [ht] at h
    · simp at h
    split_ifs at h with h1 h2
    · simp at h
    · simp at h
    · refine ⟨⟨taskId, record, record.fenceToken.nextFor N.nodeId,
        leaseNow + N.taskLeaseDuration record.payload⟩, ⟨ht, by simpa using h1, rfl⟩, rfl,
        hcases _ _ ?_ h⟩
      unfold claimWrites
      split
      exacts [Or.inr rfl, Or.inl rfl]
  all_goals simp at h

end

/-! ## Steps -/

/-- What holds of a node that has made the writes `h`: its records, its job and the rest of its
    snapshot have no smaller tokens than those it has issued. -/
structure TokenInv (h : List Write) (s : NodeState) : Prop where
  issued : N.Issued h s.toReplica
  job : ∀ job, s.worker.job = some job → ∀ k ∈ N.tokens job.taskId h, k ≤ job.newToken
  snapshot : ∀ x ∈ s.reclaim.snapshot, x.2.state.isTerminal = false →
    ∀ k ∈ N.tokens x.1 h, k ≤ x.2.fenceToken
  handler : N.hasHandler = true → s.reclaim.snapshot = []
  idle : N.hasHandler = false → s.worker = .stopped
  distinct : s.reclaim.Distinct

section
variable {N} {h : List Write} {s : NodeState} {e : Event}

theorem TokenInv.stored_le (hi : N.TokenInv h s) {t : Str} {r : TaskRecord}
    (hr : s.tasks.get t = some r) (hterm : r.state.isTerminal = false) :
    ∀ k ∈ N.tokens t h, k ≤ r.fenceToken := by
  intro k hk
  obtain ⟨r', hr', hle⟩ := hi.issued.stored t k hk
  obtain rfl := Option.some.inj (hr.symm.trans hr')
  exact hle hterm

/-- The writes of a step of the reclaim loop are for different tasks, and not for those in the rest
    of the snapshot. -/
theorem reclaims_nodup (hs : s.reclaim.Distinct) (he : e.reclaims = true) :
    ((N.writes s e).map Write.taskId ++ (N.step s e).reclaim.snapshot.map Prod.fst).Nodup := by
  have hne : ∀ cut, e ≠ .restart cut := by rintro cut rfl; cases he
  obtain ⟨l, hl, -, hsub⟩ := N.step_snapshot (s := s) hne
  refine List.Nodup.sublist (hsub he) ?_
  rcases hl with rfl | rfl
  exacts [hs, s.tasks.nodup]

/-- The claim rises above the tokens issued before it, and the handler runs with its token. -/
theorem TokenInv.rises_get (hi : N.TokenInv h s) {now leaseNow wallNow : ℚ}
    {suspected : Str → Bool} {nonce : Str} {pre post : List Write} {w : Write}
    (hws : N.writes s (.workerGet now leaseNow wallNow suspected nonce) = pre ++ w :: post) :
    N.Rises (h ++ pre) w := by
  obtain ⟨job, hj, -, hcase⟩ := getWrites_split hws
  have hlt : ∀ k ∈ N.tokens job.taskId h, k < job.newToken := fun k hk =>
    lt_of_le_of_lt (hi.stored_le hj.stored hj.unfinished k hk) (hj.token ▸ FenceToken.lt_nextFor _ _)
  rcases hcase with ⟨rfl, rfl⟩ | ⟨rfl, rfl⟩
  · refine .claim (by rw [hj.token]; rfl) ?_
    rwa [List.append_nil]
  · refine .run fun k hk => ?_
    rw [tokens_append, List.mem_append] at hk
    rcases hk with hk | hk
    · exact (hlt k hk).le
    · exact (Option.some.inj (mem_tokens_one.1 hk).2).ge

/-- Each write of a step rises above the tokens issued before it. -/
theorem TokenInv.rises (hsec : N.security.enabled = false) (hi : N.TokenInv h s)
    (he : ∀ cut, e ≠ .restart cut)
    (hsub : ∀ t payload, .submit t payload ∈ N.writes s e → N.tokens t h = [])
    {pre post : List Write} {w : Write} {q : Replica} (hws : N.writes s e = pre ++ w :: post)
    (hq : N.Issued (h ++ pre) q) (hw : N.Made s e q w) : N.Rises (h ++ pre) w := by
  -- what the writes before this one have issued for its task
  have hquiet : (∀ v ∈ pre, v.taskId = w.taskId → N.token v = none) →
      N.tokens w.taskId (h ++ pre) = N.tokens w.taskId h := by
    intro hnone
    rw [tokens_append, tokens_nil_of hnone, List.append_nil]
  have hmade : ∀ v ∈ pre, ∃ q', N.Made s e q' v := fun v hv =>
    (N.step_makes hi.distinct he).made.exists_of_mem v (by rw [hws]; simp [hv])
  have hnodup : e.reclaims = true → ∀ v ∈ pre, v.taskId = w.taskId → N.token v = none := by
    intro hr v hv hid
    have hnd := (List.nodup_append.1 (reclaims_nodup (N := N) hi.distinct hr)).1
    rw [hws, List.map_append, List.map_cons] at hnd
    exact absurd hid ((List.nodup_append.1 hnd).2.2 _ (List.mem_map_of_mem hv) _ (by simp))
  cases hw with
  | @submit t payload =>
    refine .submit ((hquiet fun v hv _ => ?_).trans (hsub t payload (by rw [hws]; simp)))
    obtain ⟨q', hv⟩ := hmade v hv
    cases hv; rfl
  | take _ _ _ hm => exact .take hsec hq hm
  | claim => exact hi.rises_get hws
  | claimRun => exact hi.rises_get hws
  | run hclaiming =>
    refine .run (hquiet (fun v hv _ => ?_) ▸ hi.job _ (by rw [hclaiming]; rfl))
    obtain ⟨q', hv⟩ := hmade v hv
    cases hv; rfl
  | commit hhandling =>
    refine .commit (hquiet (fun v hv _ => ?_) ▸ hi.job _ (by rw [hhandling]; rfl))
    obtain ⟨q', hv⟩ := hmade v hv
    cases hv; rfl
  | sweep _ hr hm =>
    exact .reset (hquiet (hnodup rfl) ▸ hi.stored_le (Dict.mem_entries.1 hm)
      (reclaimable_unfinished hr))
  | resume _ hresetting hr hm =>
    refine .reset (hquiet (hnodup rfl) ▸ hi.snapshot (_, _) ?_ (reclaimable_unfinished hr))
    rw [hresetting]
    exact hm

/-- Tokens are issued by a waiting worker, or by the reclaim loop of a node without a handler. -/
theorem Made.issues {q : Replica} {w : Write} {k : FenceToken} (hw : N.Made s e q w)
    (hk : N.token w = some k) :
    s.worker = .waiting ∧ e.reclaims = false ∨ N.hasHandler = false ∧ e.reclaims = true := by
  cases hw
  case claim hwait => exact Or.inl ⟨hwait, rfl⟩
  case sweep hh _ _ _ => exact Or.inr ⟨hh, rfl⟩
  case resume hh _ _ _ _ => exact Or.inr ⟨hh, rfl⟩
  all_goals cases hk

theorem TokenInv.issues (hi : N.TokenInv h s) (he : ∀ cut, e ≠ .restart cut) {t : Str}
    {k : FenceToken} (hk : k ∈ N.tokens t (N.writes s e)) :
    s.worker = .waiting ∧ e.reclaims = false ∨ N.hasHandler = false ∧ e.reclaims = true := by
  obtain ⟨w, hw, -, htoken⟩ := mem_tokens.1 hk
  obtain ⟨q, hmade⟩ := (N.step_makes hi.distinct he).made.exists_of_mem w hw
  exact hmade.issues htoken

/-- A step with a job at hand issues no token. -/
theorem TokenInv.busy (hi : N.TokenInv h s) (he : ∀ cut, e ≠ .restart cut) {job : Job}
    (hj : s.worker.job = some job) (t : Str) : N.tokens t (N.writes s e) = [] := by
  refine List.eq_nil_iff_forall_not_mem.2 fun k hk => ?_
  rcases hi.issues he hk with ⟨hw, -⟩ | ⟨hh, -⟩
  · rw [hw] at hj; cases hj
  · rw [hi.idle hh] at hj; cases hj

/-- The token of a claim is the only one that is issued with it. -/
theorem TokenInv.claimed (hi : N.TokenInv h s) (he : ∀ cut, e ≠ .restart cut) {job : Job}
    (hj : .claim job ∈ N.writes s e) {t : Str} {k : FenceToken} (hk : k ∈ N.tokens t (N.writes s e)) :
    k = job.newToken := by
  obtain ⟨q, hmade⟩ := (N.step_makes hi.distinct he).made.exists_of_mem _ hj
  cases hmade with
  | claim hfor hwait =>
  obtain ⟨w, hw, -, htoken⟩ := mem_tokens.1 hk
  obtain ⟨pre, post, hws⟩ := List.append_of_mem hj
  obtain ⟨pre', post', hws'⟩ := List.append_of_mem hw
  obtain ⟨_, -, -, ⟨rfl, -⟩ | ⟨-, hclaim⟩⟩ := getWrites_split hws
  swap
  · cases hclaim
  obtain ⟨_, -, -, ⟨rfl, -⟩ | ⟨-, rfl⟩⟩ := getWrites_split hws'
  swap
  · cases htoken
  obtain ⟨rfl, -⟩ := List.cons.inj (hws.symm.trans hws')
  exact (Option.some.inj htoken).symm

/-- **A step keeps the invariant** if it submits only tasks for which no token was issued. -/
theorem TokenInv.step (hsec : N.security.enabled = false) (hi : N.TokenInv h s)
    (he : ∀ cut, e ≠ .restart cut)
    (hsub : ∀ t payload, .submit t payload ∈ N.writes s e → N.tokens t h = []) :
    N.TokenInv (h ++ N.writes s e) (N.step s e) where
  issued := by
    have hmakes := N.step_makes hi.distinct he
    rw [hmakes.result]
    exact hi.issued.run _ hmakes.made fun pre w post q hws hq hw => hi.rises hsec he hsub hws hq hw
  job job hjob k hk := by
    rw [tokens_append, List.mem_append] at hk
    rcases step_job he hjob with hold | ⟨-, hfor, hclaim⟩
    · rw [hi.busy he hold] at hk
      exact hi.job job hold k (hk.resolve_right (by simp))
    · rcases hk with hk | hk
      · exact (hi.stored_le hfor.stored hfor.unfinished k hk).trans
          (hfor.token ▸ (FenceToken.lt_nextFor _ _).le)
      · exact (hi.claimed he hclaim hk).le
  snapshot x hx hterm k hk := by
    have hnone : N.tokens x.1 (N.writes s e) = [] := by
      refine List.eq_nil_iff_forall_not_mem.2 fun k hk => ?_
      rcases hi.issues he hk with ⟨hw, -⟩ | ⟨-, hr⟩
      · cases hh : N.hasHandler with
        | true => rw [step_unsuspended hh (hi.handler hh) he] at hx; cases hx
        | false => rw [hi.idle hh] at hw; cases hw
      · obtain ⟨w, hw, hid, -⟩ := mem_tokens.1 hk
        exact (List.nodup_append.1 (reclaims_nodup hi.distinct hr)).2.2 _ (List.mem_map_of_mem hw) _
          (List.mem_map_of_mem hx) hid
    rw [tokens_append, hnone, List.append_nil] at hk
    obtain ⟨l, hl, hsuf, -⟩ := N.step_snapshot (s := s) he
    rcases hl with rfl | rfl
    · exact hi.snapshot x (hsuf.subset hx) hterm k hk
    · exact hi.stored_le (Dict.mem_entries.1 (hsuf.subset hx)) hterm k hk
  handler hh := step_unsuspended hh (hi.handler hh) he
  idle hh := step_idle (hi.idle hh) he
  distinct := step_distinct hi.distinct

theorem TokenInv.initial : N.TokenInv [] N.initial where
  issued := ⟨fun _ => List.Pairwise.nil, by simp [tokens], by simp [tokens]⟩
  job _ _ _ hk := by cases hk
  snapshot _ _ _ _ hk := by cases hk
  handler _ := boot_snapshot _ _
  idle hh := by
    have hstart : ∀ s, (N.startLoops s).worker = .stopped := by
      intro s
      simp [startLoops, hh]
    unfold PeerNode.initial
    obtain ⟨p, q, ids, up, s, rfl, hb | hb⟩ := N.boot_fresh none [] <;> rw [hb]
    exacts [rfl, hstart _]
  distinct := initial_distinct

end

/-! ## Known tasks -/

/-- The tasks that a node knows of are among `S`. -/
structure Knows (S : Set Str) (s : NodeState) : Prop where
  stored : ∀ t, s.tasks.has t = true → t ∈ S
  messages : ∀ m ∈ s.messages, ∀ x ∈ m.tasks, x.1 ∈ S
  job : ∀ job, s.worker.job = some job → job.taskId ∈ S
  snapshot : ∀ x ∈ s.reclaim.snapshot, x.1 ∈ S

section
variable {N} {S S' : Set Str} {s : NodeState} {e : Event}

theorem Knows.mono (hk : Knows S s) (hS : S ⊆ S') : Knows S' s :=
  ⟨fun t ht => hS (hk.stored t ht), fun m hm x hx => hS (hk.messages m hm x hx),
    fun job hj => hS (hk.job job hj), fun x hx => hS (hk.snapshot x hx)⟩

theorem Knows.get (hk : Knows S s) {t : Str} {r : TaskRecord} (hr : s.tasks.get t = some r) : t ∈ S :=
  hk.stored t (by simp [Dict.has, hr])

/-- A node learns of a task by a submission or a message. -/
theorem Knows.step (hk : Knows S s) (hd : s.reclaim.Distinct) (he : ∀ cut, e ≠ .restart cut)
    (hsub : ∀ t payload, .submit t payload ∈ N.writes s e → t ∈ S)
    (hrecv : ∀ sender msg wallNow, e = .recv sender msg wallNow → ∀ x ∈ msg.tasks, x.1 ∈ S) :
    Knows S (N.step s e) := by
  have hmakes := N.step_makes hd he
  have hmem : ∀ w ∈ N.writes s e, w.taskId ∈ S := by
    intro w hw
    obtain ⟨q, hmade⟩ := hmakes.made.exists_of_mem w hw
    cases hmade with
    | submit => exact hsub _ _ hw
    | @take sender msg wallNow _ items item _ _ hi hm =>
      refine hrecv sender msg wallNow rfl item ?_
      rw [Message.tasks, hi]
      exact hm
    | claim hfor => exact hk.get hfor.stored
    | claimRun hfor => exact hk.get hfor.stored
    | run hclaiming => exact hk.job _ (by rw [hclaiming]; rfl)
    | commit hhandling => exact hk.job _ (by rw [hhandling]; rfl)
    | sweep _ _ hm => exact hk.get (Dict.mem_entries.1 hm)
    | resume _ hresetting _ hm => exact hk.snapshot (_, _) (by rw [hresetting]; exact hm)
  have hstored : ∀ t, (N.step s e).tasks.has t = true → t ∈ S := by
    intro t ht
    rw [hmakes.result] at ht
    rcases N.run_write_has _ ht with ht | ⟨w, hw, rfl⟩
    exacts [hk.stored t ht, hmem w hw]
  refine ⟨hstored, fun m hm x hx => ?_, fun job hj => ?_, fun x hx => ?_⟩
  · rcases step_messages he m hm with hold | htells
    · exact hk.messages m hold x hx
    · obtain ⟨r, -, hr⟩ := htells x hx
      exact hstored x.1 (by simp [Dict.has, hr])
  · rcases step_job he hj with hold | ⟨-, hfor, -⟩
    exacts [hk.job job hold, hk.get hfor.stored]
  · obtain ⟨l, hl, hsuf, -⟩ := N.step_snapshot (s := s) he
    rcases hl with rfl | rfl
    exacts [hk.snapshot x (hsuf.subset hx), hk.get (Dict.mem_entries.1 (hsuf.subset hx))]

theorem Knows.initial : Knows ∅ N.initial where
  stored t ht := by rw [initial_replica.1] at ht; cases ht
  messages m hm := by
    rw [show N.initial.messages = [] from boot_messages _ _] at hm
    cases hm
  job job hj := by
    rw [show N.initial.worker.job = none from boot_job _ _] at hj
    cases hj
  snapshot x hx := by
    rw [show N.initial.reclaim.snapshot = [] from boot_snapshot _ _] at hx
    cases hx

end

end PeerNode

/-! ## The mesh -/

namespace Mesh

open PeerNode

variable {R : Runtime} {ι : Type} [DecidableEq ι] (M : Mesh R ι)

/-- The tasks that are submitted. -/
def submitted (h : List (ι × Write)) : List Str :=
  h.filterMap fun x => match x.2 with
    | .submit t _ => some t
    | _ => none

/-- The tokens issued for a task, each with the node that issues it. -/
def issued (t : Str) (h : List (ι × Write)) : List (ι × FenceToken) :=
  h.filterMap fun x =>
    if x.2.taskId = t then ((M.node x.1).token x.2).map fun k => (x.1, k) else none

/-- The writes of a node. -/
def writesOf (i : ι) (h : List (ι × Write)) : List Write :=
  h.filterMap fun x => if x.1 = i then some x.2 else none

section
variable {M} {h : List (ι × Write)} {i j : ι} {ws : List Write}

theorem writesOf_append_self : writesOf i (h ++ ws.map fun w => (i, w)) = writesOf i h ++ ws := by
  unfold writesOf
  rw [List.filterMap_append, List.filterMap_map]
  congr 1
  simp

theorem writesOf_append_ne (hij : j ≠ i) :
    writesOf i (h ++ ws.map fun w => (j, w)) = writesOf i h := by
  unfold writesOf
  rw [List.filterMap_append, List.filterMap_map]
  simp [hij]

omit [DecidableEq ι] in
theorem mem_submitted {t : Str} : t ∈ submitted h ↔ ∃ i payload, (i, .submit t payload) ∈ h := by
  unfold submitted
  rw [List.mem_filterMap]
  constructor
  · rintro ⟨⟨i, w⟩, hx, hw⟩
    cases w <;> simp only [Option.some.injEq, reduceCtorEq] at hw
    subst hw
    exact ⟨i, _, hx⟩
  · rintro ⟨i, payload, hx⟩
    exact ⟨_, hx, rfl⟩

/-- The tokens that a node issues are those of its writes. -/
theorem mem_issued {t : Str} {x : ι × FenceToken} (hx : x ∈ M.issued t h) :
    x.2 ∈ (M.node x.1).tokens t (writesOf x.1 h) := by
  obtain ⟨⟨i, w⟩, hw, hsome⟩ := List.mem_filterMap.1 hx
  simp only at hsome
  split_ifs at hsome with hid
  obtain ⟨k, hk, rfl⟩ := Option.map_eq_some_iff.1 hsome
  exact mem_tokens.2 ⟨w, List.mem_filterMap.2 ⟨_, hw, if_pos rfl⟩, hid, hk⟩

/-- Tokens that are increasing for each node are so in the order in which they are issued. -/
theorem issued_pairwise {t : Str} : ∀ {h : List (ι × Write)},
    (∀ i, ((M.node i).tokens t (writesOf i h)).Pairwise (· < ·)) →
    (M.issued t h).Pairwise fun x y => x.1 = y.1 → x.2 < y.2
  | [], _ => List.Pairwise.nil
  | (i, w) :: h, hp => by
    have hown : writesOf i ((i, w) :: h) = w :: writesOf i h := by simp [writesOf]
    have hrest : ∀ j, ((M.node j).tokens t (writesOf j h)).Pairwise (· < ·) := by
      intro j
      by_cases hj : i = j
      · subst hj
        have hi := hp i
        rw [hown, ← List.singleton_append, tokens_append] at hi
        exact (List.pairwise_append.1 hi).2.1
      · have hskip : writesOf j ((i, w) :: h) = writesOf j h := by simp [writesOf, hj]
        exact hskip ▸ hp j
    have ih := issued_pairwise hrest
    have hi := hp i
    rw [hown, ← List.singleton_append, tokens_append] at hi
    unfold issued
    rw [List.filterMap_cons]
    split
    · exact ih
    · next x hx =>
      simp only at hx
      split_ifs at hx with hid
      obtain ⟨k, hk, rfl⟩ := Option.map_eq_some_iff.1 hx
      refine List.pairwise_cons.2 ⟨fun y hy heq => ?_, ih⟩
      have hy' := mem_issued hy
      rw [← show i = y.1 from heq] at hy'
      exact (List.pairwise_append.1 hi).2.2 k (mem_tokens_one.2 ⟨hid, hk⟩) y.2 hy'

omit [DecidableEq ι] in
theorem submitted_append (h h' : List (ι × Write)) :
    submitted (h ++ h') = submitted h ++ submitted h' := List.filterMap_append

end

/-- What holds of a mesh after the writes `h`: every node keeps its tokens, and knows of submitted
    tasks only. -/
def TokensKept (h : List (ι × Write)) (s : ι → NodeState) : Prop :=
  ∀ i, (M.node i).TokenInv (writesOf i h) (s i) ∧ Knows {t | t ∈ submitted h} (s i)

section
variable {M} {h : List (ι × Write)} {s : ι → NodeState}

/-- A task that is submitted for the first time has no token yet. -/
theorem TokensKept.fresh (hk : M.TokensKept h s) {t : Str} (ht : t ∉ submitted h) (i : ι) :
    (M.node i).tokens t (writesOf i h) = [] := by
  refine List.eq_nil_iff_forall_not_mem.2 fun k htoken => ht ?_
  obtain ⟨r, hr, -⟩ := (hk i).1.issued.stored t k htoken
  exact (hk i).2.get hr

theorem TokensKept.step (hsec : ∀ i, (M.node i).security.enabled = false) (hk : M.TokensKept h s)
    {i : ι} {e : Event} (he : ∀ cut, e ≠ .restart cut)
    (hrecv : ∀ sender msg wallNow, e = .recv sender msg wallNow → ∃ j, msg ∈ (s j).messages)
    (hsub : (submitted (h ++ ((M.node i).writes (s i) e).map fun w => (i, w))).Nodup) :
    M.TokensKept (h ++ ((M.node i).writes (s i) e).map fun w => (i, w))
      (Function.update s i ((M.node i).step (s i) e)) := by
  have hmem : ∀ t payload, .submit t payload ∈ (M.node i).writes (s i) e →
      t ∈ submitted (((M.node i).writes (s i) e).map fun w => (i, w)) := fun t payload hw =>
    mem_submitted.2 ⟨i, payload, List.mem_map_of_mem hw⟩
  rw [submitted_append] at hsub
  have hmono : {t | t ∈ submitted h} ⊆
      {t | t ∈ submitted (h ++ ((M.node i).writes (s i) e).map fun w => (i, w))} := by
    intro t ht
    show t ∈ submitted (h ++ _)
    rw [submitted_append]
    exact List.mem_append_left _ ht
  intro j
  by_cases hj : j = i
  · subst hj
    rw [Function.update_self, writesOf_append_self]
    refine ⟨(hk j).1.step (hsec j) he fun t payload hw => ?_, ?_⟩
    · exact hk.fresh (fun ht => (List.nodup_append.1 hsub).2.2 t ht t (hmem t payload hw) rfl) j
    · refine ((hk j).2.mono hmono).step (hk j).1.distinct he (fun t payload hw => ?_)
        fun sender msg wallNow heq x hx => ?_
      · show t ∈ submitted (h ++ _)
        rw [submitted_append]
        exact List.mem_append_right _ (hmem t payload hw)
      · obtain ⟨j', hm⟩ := hrecv sender msg wallNow heq
        exact hmono ((hk j').2.messages msg hm x hx)
  · rw [Function.update_of_ne hj, writesOf_append_ne (Ne.symm hj)]
    exact ⟨(hk j).1, (hk j).2.mono hmono⟩

end

/-- **Fence tokens are unique.**  In every run of a mesh without security and restarts in which no
    task is submitted twice, the tokens issued for a task are pairwise different, and each node's are
    increasing. -/
theorem tokens_unique (hsec : ∀ i, (M.node i).security.enabled = false) {es : List (MeshEvent ι)}
    (hes : ∀ e ∈ es, e.isRestart = false) (hsub : (submitted (M.history M.initial es)).Nodup)
    (t : Str) : (M.issued t (M.history M.initial es)).Pairwise
      fun x y => x.2 ≠ y.2 ∧ (x.1 = y.1 → x.2 < y.2) := by
  have hkept : M.TokensKept (M.history M.initial es) (run M.step M.initial es) :=
    M.history_invariant (I := M.TokensKept) (P := fun h => (submitted h).Nodup) (h := [])
      (fun h h' hp => (submitted_append h h' ▸ hp).of_append_left)
      (fun _ _ _ _ hk he hrecv hp => hk.step hsec he hrecv hp)
      (fun i => ⟨.initial, Knows.initial.mono (by simp)⟩) hes hsub
  have horder := issued_pairwise fun i => (hkept i).1.issued.increasing t
  refine horder.imp_of_mem fun {x y} hx hy hlt => ⟨fun heq => ?_, hlt⟩
  -- tokens of different nodes have different ids
  have hx' := (hkept x.1).1.issued.own t _ (mem_issued hx)
  have hy' := (hkept y.1).1.issued.own t _ (mem_issued hy)
  have hxy : x.1 = y.1 := M.distinct (hx'.symm.trans (heq ▸ hy'))
  exact absurd heq (hlt hxy).ne

theorem tokens_unique_claims :
    Sample.pair.issued (str "t") (Sample.pair.history Sample.pair.initial Sample.bothClaim) =
      [(false, ⟨1, str "a"⟩), (true, ⟨1, str "c"⟩)] ∧
    (Sample.pair.issued (str "t")
      (Sample.pair.history Sample.pair.initial Sample.bothClaim)).Pairwise
        fun x y => x.2 ≠ y.2 ∧ (x.1 = y.1 → x.2 < y.2) := by
  refine ⟨by decide, Sample.pair.tokens_unique ?_ ?_ ?_ _⟩
  · intro b
    cases b <;> rfl
  · exact Sample.bothClaim_alive
  · decide

end Mesh

end PeerQ
