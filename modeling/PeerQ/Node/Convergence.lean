/-
  Convergence: nodes that have processed the same gossip hold the same tasks.

  Without security the merge is a join, so what a store holds for a task is the
  join of the records received for it (`Gathered`), whatever the order in which
  they came and how often each of them came.
-/
import PeerQ.Node.Gossip

namespace PeerQ

open Py

/-- The record is received for the task. -/
def Received (items : Fields) (t : Str) (r : TaskRecord) : Prop :=
  ∃ item ∈ items, item.1 = t ∧ TaskRecord.fromDict item.2 = .ok r ∧ r.taskId = t

namespace PeerNode

variable {R : Runtime} (N : PeerNode R)

/-- The store holds the joins of the received records, and the clock is the join of their
    clocks. -/
structure Gathered (items : Fields) (p : Replica) : Prop where
  stored : ∀ t m, p.tasks.get t = some m → m.taskId = t ∧ recordLww.IsJoin (Received items t) m ∧
    ∃ r, Received items t r
  missing : ∀ t r, p.tasks.get t = none → ¬ Received items t r
  clock : IsLUB {c | ∃ t r, Received items t r ∧ r.vectorClock = c} p.vectorClock

section
variable {items items' : Fields} {p q : Replica}

theorem received_concat {item : Str × Json} {t : Str} {r : TaskRecord} :
    Received (items ++ [item]) t r ↔ Received items t r ∨
      item.1 = t ∧ TaskRecord.fromDict item.2 = .ok r ∧ r.taskId = t := by
  unfold Received
  simp only [List.mem_append, List.mem_singleton]
  constructor
  · rintro ⟨i, hi | rfl, h⟩
    exacts [Or.inl ⟨i, hi, h⟩, Or.inr h]
  · rintro (⟨i, hi, h⟩ | h)
    exacts [⟨i, Or.inl hi, h⟩, ⟨item, Or.inr rfl, h⟩]

/-- What was gathered from the same items is the same. -/
theorem Gathered.unique (h : Gathered items p) (h' : Gathered items' q)
    (hi : ∀ i, i ∈ items ↔ i ∈ items') :
    (∀ t, p.tasks.get t = q.tasks.get t) ∧ p.vectorClock = q.vectorClock := by
  have hrec : ∀ t r, Received items t r ↔ Received items' t r := by
    intro t r
    unfold Received
    simp only [hi]
  constructor
  · intro t
    cases hp : p.tasks.get t with
    | none =>
      cases hq : q.tasks.get t with
      | none => rfl
      | some n =>
        obtain ⟨-, -, r, hr⟩ := h'.stored t n hq
        exact absurd ((hrec t r).2 hr) (h.missing t r hp)
    | some m =>
      obtain ⟨hm, hjoin, r, hr⟩ := h.stored t m hp
      cases hq : q.tasks.get t with
      | none => exact absurd ((hrec t r).1 hr) (h'.missing t r hq)
      | some n =>
        obtain ⟨hn, hjoin', -⟩ := h'.stored t n hq
        rw [hjoin.unique hjoin' (hrec t) (hm.trans hn.symm)]
  · have hset : {c | ∃ t r, Received items t r ∧ r.vectorClock = c} =
        {c | ∃ t r, Received items' t r ∧ r.vectorClock = c} := by
      simp only [hrec]
    exact h.clock.unique (hset ▸ h'.clock)

/-- An item that is refused leaves what was gathered. -/
theorem Gathered.refuse (h : Gathered items p) {item : Str × Json}
    (hr : ∀ r, TaskRecord.fromDict item.2 = .ok r → r.taskId ≠ item.1) :
    Gathered (items ++ [item]) p := by
  have hrec : ∀ t r, Received (items ++ [item]) t r ↔ Received items t r := by
    intro t r
    rw [received_concat, or_iff_left]
    rintro ⟨ht, hd, hid⟩
    exact hr r hd (hid.trans ht.symm)
  refine ⟨fun t m hm => ?_, fun t r hn => ?_, ?_⟩
  · obtain ⟨h1, h2, r, h3⟩ := h.stored t m hm
    exact ⟨h1, h2.congr fun r => (hrec t r).symm, r, (hrec t r).2 h3⟩
  · rw [hrec]; exact h.missing t r hn
  · simp only [hrec]; exact h.clock

/-- An item that is taken is joined. -/
theorem Gathered.take (h : Gathered items p) {item : Str × Json} {r m : TaskRecord}
    (hd : TaskRecord.fromDict item.2 = .ok r) (hid : r.taskId = item.1)
    (hm : p.tasks.get item.1 = none ∧ m = r ∨
      ∃ old, p.tasks.get item.1 = some old ∧ m = recordLww.merge old r)
    (hq : q.tasks = p.tasks.set item.1 m) (hc : q.vectorClock = p.vectorClock ⊔ r.vectorClock) :
    Gathered (items ++ [item]) q := by
  have hrec : ∀ t x, Received (items ++ [item]) t x ↔ Received items t x ∨ item.1 = t ∧ x = r := by
    intro t x
    rw [received_concat]
    refine or_congr_right ⟨fun ⟨ht, hx, _⟩ => ⟨ht, ?_⟩, fun ⟨ht, hx⟩ => ⟨ht, hx ▸ hd, ?_⟩⟩
    · exact Except.ok.inj (hx.symm.trans hd)
    · rw [hx, hid, ht]
  refine ⟨fun t x hx => ?_, fun t x hn => ?_, ?_⟩
  · rw [hq, Dict.get_set] at hx
    split_ifs at hx with ht
    · subst ht
      obtain rfl := Option.some.inj hx
      rcases hm with ⟨hnone, rfl⟩ | ⟨old, hold, rfl⟩
      · refine ⟨hid, (Lww.isJoin_single m).congr fun x => ?_, m, (hrec _ _).2 (Or.inr ⟨rfl, rfl⟩)⟩
        rw [hrec]
        simp [h.missing _ x hnone]
      · obtain ⟨h1, h2, -⟩ := h.stored _ _ hold
        refine ⟨(Lww.grp_merge (M := recordLww) (h1.trans hid.symm)).trans h1,
          (h2.merge r).congr fun x => ?_, r, (hrec _ _).2 (Or.inr ⟨rfl, rfl⟩)⟩
        rw [hrec]
        simp
    · obtain ⟨h1, h2, y, h3⟩ := h.stored t x hx
      refine ⟨h1, h2.congr fun z => ?_, y, (hrec _ _).2 (Or.inl h3)⟩
      rw [hrec]
      simp [ht]
  · rw [hq, Dict.get_set] at hn
    split_ifs at hn with ht
    rw [hrec]
    simp [ht, h.missing t x hn]
  · rw [hc]
    refine ⟨?_, fun c hc => sup_le (h.clock.2 ?_) ?_⟩
    · rintro _ ⟨t, x, hx, rfl⟩
      rcases (hrec t x).1 hx with hx | ⟨-, rfl⟩
      · exact (h.clock.1 ⟨t, x, hx, rfl⟩).trans le_sup_left
      · exact le_sup_right
    · rintro _ ⟨t, x, hx, rfl⟩
      exact hc ⟨t, x, (hrec t x).2 (Or.inl hx), rfl⟩
    · exact hc ⟨item.1, r, (hrec _ _).2 (Or.inr ⟨rfl, rfl⟩), rfl⟩

end

/-! ## Processing -/

/-- A gossip message within the limits, whose tasks are among `ids` and raise nothing but
    `TypeError` or `ValueError`. -/
structure Admits (ids : Finset Str) (m : Message) : Prop where
  gossip : m.msgType = str "gossip"
  bounded : m.tasks.length ≤ N.security.maxGossipTasks
  named : ∀ item ∈ m.tasks, item.1 ∈ ids
  benign : ∀ item ∈ m.tasks, ∀ e, TaskRecord.fromDict item.2 = .error e → e.isTypeOrValueError = true

section
variable {N} {ids : Finset Str} {items : Fields} {s : NodeState}

theorem logUpdate_none (hw : N.wal = none) (p : Replica) (r : TaskRecord) :
    N.logUpdate p r = (p, none) := by
  simp only [logUpdate, appendEntry, hw]

/-- A store that has gathered fewer tasks than it has room for takes another one. -/
theorem Gathered.room (h : Gathered items s.toReplica) (hcard : ids.card ≤ N.maxTasks)
    (hids : ∀ i ∈ items, i.1 ∈ ids) {t : Str} (ht : t ∈ ids) (hn : s.tasks.get t = none) :
    s.tasks.size < N.maxTasks := by
  have hsub : ∀ k ∈ s.tasks.keys, k ∈ ids.erase t := by
    intro k hk
    obtain ⟨m, hm⟩ := Option.isSome_iff_exists.1 (Dict.has_iff.2 hk)
    obtain ⟨-, -, r, i, hi, rfl, -⟩ := h.stored k m hm
    refine Finset.mem_erase.2 ⟨?_, hids i hi⟩
    rintro rfl
    rw [hn] at hm
    exact absurd hm (by simp)
  calc s.tasks.size ≤ (ids.erase t).card := by
        have hlen : s.tasks.size = s.tasks.keys.length := (List.length_map _).symm
        rw [hlen, ← List.toFinset_card_of_nodup (l := s.tasks.keys) s.tasks.nodup]
        exact Finset.card_le_card fun k hk => hsub k (List.mem_toFinset.1 hk)
    _ < ids.card := Finset.card_erase_lt_of_mem ht
    _ ≤ N.maxTasks := hcard

/-- A round without security and log gathers its item. -/
theorem gossipItem_gathered (sender : Str) (hsec : N.security.enabled = false)
    (hw : N.wal = none) (h : Gathered items s.toReplica) (hcard : ids.card ≤ N.maxTasks)
    (hids : ∀ i ∈ items, i.1 ∈ ids) {item : Str × Json} (hid : item.1 ∈ ids)
    (hb : ∀ e, TaskRecord.fromDict item.2 = .error e → e.isTypeOrValueError = true) :
    (N.gossipItem sender s item).2 = none ∧
      Gathered (items ++ [item]) (N.gossipItem sender s item).1.toReplica := by
  by_cases hacc : ∃ r, TaskRecord.fromDict item.2 = .ok r ∧ r.taskId = item.1
  · obtain ⟨r, hd, hr⟩ := hacc
    have ha : N.acceptedRecord sender item = .ok (some r) :=
      N.acceptedRecord_iff.2 ⟨hd, hr, by simp [hsec]⟩
    have htake : ∀ m, (s.tasks.get item.1 = none ∧ m = r ∨
        ∃ old, s.tasks.get item.1 = some old ∧ m = recordLww.merge old r) →
        N.gossipItem sender s item = N.takeRecord s item.1 r.vectorClock m →
        (N.gossipItem sender s item).2 = none ∧
          Gathered (items ++ [item]) (N.gossipItem sender s item).1.toReplica := by
      intro m hm hg
      rw [hg]
      refine ⟨?_, h.take hd hr hm (N.takeRecord_tasks _ _ _ _) ?_⟩
      · simp only [takeRecord, logUpdate_none hw]
      · rw [takeRecord_replica, logUpdate_none hw]
    unfold gossipItem at htake ⊢
    rw [ha] at htake ⊢
    cases hg : s.tasks.get item.1 with
    | none =>
      simp only [hg, if_neg (not_le.2 (h.room hcard hids hid hg))] at htake ⊢
      exact htake r (Or.inl ⟨trivial, rfl⟩) rfl
    | some old =>
      have hold := (h.stored _ _ hg).1
      have hm : mergeRecords R old r N.mergeKeyring = .ok (recordLww.merge old r) := by
        rw [mergeKeyring, if_neg (by simp [hsec]), mergeRecords_none (hold.trans hr.symm)]
      simp only [hg, hm] at htake ⊢
      exact htake _ (Or.inr ⟨old, rfl, rfl⟩) rfl
  · push Not at hacc
    have ha : N.acceptedRecord sender item = .ok none := by
      unfold acceptedRecord
      cases hd : TaskRecord.fromDict item.2 with
      | error e => simp only [hb e hd, if_true]
      | ok r => simp only [ne_eq, hacc r hd, not_false_eq_true, if_true]
    unfold gossipItem
    rw [ha]
    exact ⟨rfl, h.refuse hacc⟩

/-- The loop over a message's tasks gathers them all. -/
theorem gossipItems_gathered (sender : Str) (hsec : N.security.enabled = false)
    (hw : N.wal = none) (hcard : ids.card ≤ N.maxTasks) : ∀ {new items : Fields} {s : NodeState},
    Gathered items s.toReplica → (∀ i ∈ items, i.1 ∈ ids) → (∀ i ∈ new, i.1 ∈ ids) →
    (∀ i ∈ new, ∀ e, TaskRecord.fromDict i.2 = .error e → e.isTypeOrValueError = true) →
    (N.gossipItems sender s new).2 = none ∧
      Gathered (items ++ new) (N.gossipItems sender s new).1.toReplica
  | [], items, s, h, _, _, _ => ⟨rfl, by rw [List.append_nil]; exact h⟩
  | item :: new, items, s, h, hids, hnew, hb => by
    obtain ⟨hn, hg⟩ := gossipItem_gathered sender hsec hw h hcard hids
      (hnew item (by simp)) (hb item (by simp))
    unfold gossipItems
    rcases hgi : N.gossipItem sender s item with ⟨s₁, o⟩
    rw [hgi] at hn hg
    obtain rfl : o = none := hn
    have hids' : ∀ i ∈ items ++ [item], i.1 ∈ ids := by
      intro i hi
      rcases List.mem_append.1 hi with hi | hi
      · exact hids i hi
      · exact hnew i (by simp [List.mem_singleton.1 hi])
    have ih := gossipItems_gathered sender hsec hw hcard hg hids'
      (fun i hi => hnew i (List.mem_cons_of_mem _ hi)) (fun i hi => hb i (List.mem_cons_of_mem _ hi))
    rwa [List.append_assoc, List.singleton_append] at ih

/-- An admitted message is gathered, and the node goes on receiving. -/
theorem deliver_gathered (hsec : N.security.enabled = false) (hw : N.wal = none)
    (hcard : ids.card ≤ N.maxTasks) (h : Gathered items s.toReplica)
    (hids : ∀ i ∈ items, i.1 ∈ ids) (hr : s.receiving = true) {d : Delivery}
    (hd : N.Admits ids d.msg) :
    Gathered (items ++ d.msg.tasks) (N.deliver s d).toReplica ∧ (N.deliver s d).receiving = true := by
  have hrecv : N.recvMessage s d.sender d.msg d.wallNow = N.gossipItems d.sender s d.msg.tasks ∨
      d.msg.tasks = [] ∧ N.recvMessage s d.sender d.msg d.wallNow = (s.bump .rejected, none) := by
    have hb := hd.bounded
    simp only [recvMessage, authenticateMessage, hsec, Bool.not_false, if_true, hd.gossip]
    unfold Message.tasks at hb ⊢
    revert hb
    cases (lookup (str "tasks") d.msg.payload).getD (.obj []) with
    | obj rawTasks => exact fun hb => Or.inl (if_neg (not_lt.2 hb))
    | _ => exact fun _ => Or.inr ⟨rfl, rfl⟩
  have haside := (N.recvMessage_aside s d.sender d.msg d.wallNow).1
  simp only [deliver, step, hr, if_true]
  rcases hrecv with he | ⟨ht, he⟩ <;> rw [he] at haside ⊢
  · obtain ⟨hn, hg⟩ := gossipItems_gathered d.sender hsec hw hcard h hids hd.named
      hd.benign
    rw [afterRecv, hn]
    exact ⟨hg, haside.trans hr⟩
  · rw [ht, List.append_nil]
    exact ⟨h, haside.trans hr⟩

/-- **What a node has after processing messages** is the join of all their tasks. -/
theorem run_gathered (hsec : N.security.enabled = false) (hw : N.wal = none)
    (hcard : ids.card ≤ N.maxTasks) : ∀ {ds : List Delivery} {items : Fields} {s : NodeState},
    Gathered items s.toReplica → (∀ i ∈ items, i.1 ∈ ids) → s.receiving = true →
    (∀ d ∈ ds, N.Admits ids d.msg) →
    Gathered (items ++ ds.flatMap (·.msg.tasks)) (run N.deliver s ds).toReplica
  | [], items, s, h, _, _, _ => by
    rw [List.flatMap_nil, List.append_nil]; exact h
  | d :: ds, items, s, h, hids, hr, hd => by
    have hadm := hd d (by simp)
    obtain ⟨hg, hr'⟩ := deliver_gathered hsec hw hcard h hids hr hadm
    have ih := run_gathered hsec hw hcard hg
      (fun i hi => (List.mem_append.1 hi).elim (hids i) (hadm.named i)) hr'
      (fun x hx => hd x (List.mem_cons_of_mem _ hx))
    rw [List.flatMap_cons, ← List.append_assoc]
    exact ih

/-- A fresh node without a log has gathered nothing. -/
theorem initial_gathered (hw : N.wal = none) : Gathered [] N.initial.toReplica := by
  have hi : N.initial = N.startLoops { N.fresh with up := true } := by
    simp only [initial, boot, hw]
  rw [hi]
  refine ⟨fun t m hm => ?_, fun t r _ => ?_, ?_⟩
  · exact absurd hm (by simp [startLoops, fresh])
  · rintro ⟨i, hi, -⟩
    exact absurd hi (by simp)
  · have hset : {c | ∃ t r, Received [] t r ∧ r.vectorClock = c} = ∅ := by
      ext c
      simp [Received]
    rw [hset]
    exact isLUB_empty_iff.2 fun c => (bot_le : (⊥ : VectorClock) ≤ c)

end

/-- **Convergence.**  Without security and logs, two nodes that have processed the same gossip
    messages, in whatever order and however often each, hold the same tasks and the same clock. -/
theorem gossip_converges {A B : PeerNode R} (hA : A.security.enabled = false)
    (hB : B.security.enabled = false) (hwA : A.wal = none) (hwB : B.wal = none)
    {ids : Finset Str} (hcA : ids.card ≤ A.maxTasks) (hcB : ids.card ≤ B.maxTasks)
    {ds ds' : List Delivery} (same : ∀ m, (∃ d ∈ ds, d.msg = m) ↔ ∃ d ∈ ds', d.msg = m)
    (hds : ∀ d ∈ ds, A.Admits ids d.msg) (hds' : ∀ d ∈ ds', B.Admits ids d.msg) :
    (∀ t, (run A.deliver A.initial ds).tasks.get t = (run B.deliver B.initial ds').tasks.get t) ∧
      (run A.deliver A.initial ds).vectorClock = (run B.deliver B.initial ds').vectorClock := by
  have hrA : A.initial.receiving = true := by simp only [initial, boot, hwA]; rfl
  have hrB : B.initial.receiving = true := by simp only [initial, boot, hwB]; rfl
  have hgA := run_gathered hA hwA hcA (initial_gathered hwA) (by simp) hrA hds
  have hgB := run_gathered hB hwB hcB (initial_gathered hwB) (by simp) hrB hds'
  refine hgA.unique hgB fun i => ?_
  simp only [List.nil_append, List.mem_flatMap]
  constructor
  · rintro ⟨d, hd, hi⟩
    obtain ⟨d', hd', hm⟩ := (same d.msg).1 ⟨d, hd, rfl⟩
    exact ⟨d', hd', hm ▸ hi⟩
  · rintro ⟨d, hd, hi⟩
    obtain ⟨d', hd', hm⟩ := (same d.msg).2 ⟨d, hd, rfl⟩
    exact ⟨d', hd', hm ▸ hi⟩

namespace Sample

/-- The node without security. -/
noncomputable def plainC : PeerNode runtime :=
  { nodeC with security := { SecurityConfig.default with enabled := false } }

theorem plainC_admits (seed : Byte) (sender nonce : String) {r : TaskRecord}
    (hr : r.taskId = str "t") : plainC.Admits {str "t"} (gossip seed sender nonce r).msg := by
  have ht : (gossip seed sender nonce r).msg.tasks = [(r.taskId, r.toDict)] := rfl
  have hb : 1 ≤ plainC.security.maxGossipTasks := by decide
  refine ⟨rfl, ht ▸ hb, ?_, ?_⟩ <;> rw [ht] <;> intro item hi <;>
    obtain rfl := List.mem_singleton.1 hi
  · simp [hr]
  · exact fun e => TaskRecord.fromDict_toDict_error

end Sample

/-- Two nodes receive a submission and its completion in different orders, one of them with a
    repetition. -/
theorem gossip_converges_repeated :
    let submitted := Sample.gossip 1 "a" "x" Sample.pendingA
    let completed := Sample.gossip 2 "b" "x" Sample.doneB
    (∀ t, (run Sample.plainC.deliver Sample.plainC.initial [submitted, completed]).tasks.get t =
      (run Sample.plainC.deliver Sample.plainC.initial
        [completed, submitted, completed]).tasks.get t) ∧
    (run Sample.plainC.deliver Sample.plainC.initial [submitted, completed]).vectorClock =
      (run Sample.plainC.deliver Sample.plainC.initial
        [completed, submitted, completed]).vectorClock := by
  intro submitted completed
  have h1 := Sample.plainC_admits 1 "a" "x" (r := Sample.pendingA) rfl
  have h2 := Sample.plainC_admits 2 "b" "x" (r := Sample.doneB) rfl
  have hcard : ({str "t"} : Finset Str).card ≤ Sample.plainC.maxTasks := by decide
  refine gossip_converges rfl rfl rfl rfl hcard hcard ?_ ?_ ?_
  · intro m
    simp only [List.mem_cons, List.not_mem_nil, or_false, exists_eq_or_imp, exists_eq_left]
    tauto
  · simpa [submitted, completed] using ⟨h1, h2⟩
  · simpa [submitted, completed] using ⟨h2, h1, h2⟩

end PeerNode

end PeerQ
