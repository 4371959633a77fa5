/-
  Dissemination: how far the periodic gossip of a mesh without security carries.

  What a node knows of the tasks is an element of a join-semilattice (`View`), and
  while nodes only gossip, every round posts the view of its node and every
  delivery joins the view in the message (`step_tracks`).  So a run is an exchange
  of snapshots, and in the end a node holds the join of the stores of the nodes
  that it has heard of, over any number of hops (`gossip_spreads`).
-/
import PeerQ.Lib.AntiEntropy
import PeerQ.Mesh
import PeerQ.Node.Rounds
import PeerQ.Node.Durability

namespace PeerQ

open Py PeerNode

/-! ## Views -/

/-- For every task nothing, or a record of it. -/
abbrev View := ∀ t : Str, WithBot (recordLww.Group t)

namespace View

/-- A record of the task `t`. -/
def known {t : Str} (r : TaskRecord) (h : r.taskId = t) : WithBot (recordLww.Group t) :=
  WithBot.some ⟨r, h⟩

/-- One record under an id; nothing if it is the record of another task. -/
def single (t : Str) (r : TaskRecord) : View := fun t' =>
  if h : t = t' ∧ r.taskId = t' then known r h.2 else ⊥

/-- The view of a store. -/
def ofTasks (d : Dict Str TaskRecord) : View := fun t => (d.get t).elim ⊥ fun r => single t r t

/-- The view in a list of records. -/
def ofItems (items : List (Str × TaskRecord)) : View :=
  items.foldr (fun e v => single e.1 e.2 ⊔ v) ⊥

section
variable {t t' : Str} {r : TaskRecord} {d : Dict Str TaskRecord}

theorem single_self (h : r.taskId = t) : single t r t = known r h := dif_pos ⟨rfl, h⟩

theorem single_ne (h : t ≠ t') : single t r t' = ⊥ := dif_neg fun h' => h h'.1

theorem ofTasks_some (h : d.get t = some r) : ofTasks d t = single t r t := by
  simp [ofTasks, h]

theorem ofTasks_none (h : d.get t = none) : ofTasks d t = ⊥ := by
  simp [ofTasks, h]

theorem single_le (h : d.get t = some r) : single t r ≤ ofTasks d := by
  intro t'
  by_cases ht : t = t'
  · subst ht
    rw [ofTasks_some h]
  · rw [single_ne ht]
    exact bot_le

/-- A record that is stored where there was none is joined to the view. -/
theorem ofTasks_set (h : d.get t = none) : ofTasks (d.set t r) = ofTasks d ⊔ single t r := by
  funext t'
  by_cases ht : t = t'
  · subst ht
    simp [ofTasks_some (Dict.get_set_self d t r), ofTasks_none h]
  · have hget := Dict.get_set_ne d r ht
    simp [ofTasks, hget, single_ne ht]

/-- So is one that is merged with the stored one. -/
theorem ofTasks_merge {old : TaskRecord} (h : d.get t = some old) (ho : old.taskId = t)
    (hr : r.taskId = t) :
    ofTasks (d.set t (recordLww.merge old r)) = ofTasks d ⊔ single t r := by
  funext t'
  by_cases ht : t = t'
  · subst ht
    have hm : (recordLww.merge old r).taskId = t :=
      (Lww.grp_merge (M := recordLww) (ho.trans hr.symm)).trans ho
    rw [Pi.sup_apply, ofTasks_some (Dict.get_set_self d t _), ofTasks_some h, single_self ho,
      single_self hr, single_self hm]
    rfl
  · have hget := Dict.get_set_ne d (recordLww.merge old r) ht
    simp [ofTasks, hget, single_ne ht]

theorem ofItems_le {v : View} : ∀ {items : List (Str × TaskRecord)},
    ofItems items ≤ v ↔ ∀ e ∈ items, single e.1 e.2 ≤ v
  | [] => by simp [ofItems]
  | e :: items => by
    have ih : ofItems items ≤ v ↔ ∀ e ∈ items, single e.1 e.2 ≤ v := ofItems_le
    simp only [ofItems, List.foldr_cons, sup_le_iff, List.forall_mem_cons] at ih ⊢
    rw [ih]

/-- All records of a store give its view. -/
theorem ofItems_eq {items : List (Str × TaskRecord)}
    (h : ∀ t r, (t, r) ∈ items ↔ d.get t = some r) : ofItems items = ofTasks d := by
  refine le_antisymm (ofItems_le.2 fun e he => single_le ((h e.1 e.2).1 he)) fun t => ?_
  cases hg : d.get t with
  | none =>
    rw [ofTasks_none hg]
    exact bot_le
  | some r =>
    rw [ofTasks_some hg]
    exact ofItems_le.1 le_rfl (t, r) ((h t r).2 hg) t

/-- A store with every record under its own id is determined by its view. -/
theorem get_eq_of_ofTasks {d' : Dict Str TaskRecord} (hd : ∀ t r, d.get t = some r → r.taskId = t)
    (hd' : ∀ t r, d'.get t = some r → r.taskId = t) (h : ofTasks d = ofTasks d') (t : Str) :
    d.get t = d'.get t := by
  have ht := congrFun h t
  cases hg : d.get t with
  | none =>
    cases hg' : d'.get t with
    | none => rfl
    | some r' =>
      rw [ofTasks_none hg, ofTasks_some hg', single_self (hd' t r' hg')] at ht
      exact absurd ht WithBot.bot_ne_coe
  | some r =>
    cases hg' : d'.get t with
    | none =>
      rw [ofTasks_some hg, ofTasks_none hg', single_self (hd t r hg)] at ht
      exact absurd ht WithBot.coe_ne_bot
    | some r' =>
      rw [ofTasks_some hg, ofTasks_some hg', single_self (hd t r hg), single_self (hd' t r' hg')] at ht
      exact congrArg some (congrArg Subtype.val (WithBot.coe_injective ht))

end

end View

/-! ## Records that peers take -/

/-- The decoder takes the record, and its clock counts for the given peers. -/
structure Portable (peers : Finset Str) (r : TaskRecord) : Prop where
  decodable : r.Decodable
  clock : ∀ k ∈ r.vectorClock.keys, k ∈ peers

/-- With no more peers than a clock may have entries, a merge can be sent on. -/
theorem Portable.merge {peers : Finset Str} (hp : peers.card ≤ 128) {r s : TaskRecord}
    (hr : Portable peers r) (hs : Portable peers s) : Portable peers (recordLww.merge r s) := by
  have hkeys : ∀ k ∈ (r.vectorClock ⊔ s.vectorClock).keys,
      k ∈ r.vectorClock.keys ∨ k ∈ s.vectorClock.keys := by
    intro k hk
    simpa [Counters.mem_keys] using hk
  have hpeers : ∀ k ∈ (r.vectorClock ⊔ s.vectorClock).keys, k ∈ peers := fun k hk =>
    (hkeys k hk).elim (hr.clock k) (hs.clock k)
  have hfits : (r.vectorClock ⊔ s.vectorClock).Fits := by
    constructor
    · have hlen : (r.vectorClock ⊔ s.vectorClock).keys.length =
          (r.vectorClock ⊔ s.vectorClock).entries.length := List.length_map _
      rw [← hlen, ← List.toFinset_card_of_nodup (Counters.nodup_keys _)]
      exact (Finset.card_le_card fun k hk => hpeers k (List.mem_toFinset.1 hk)).trans hp
    · intro e he
      have hok : ∀ {c : VectorClock}, c.Fits → e.1 ∈ c.keys → TaskRecord.PeerIdOk e.1 := by
        intro c hc hk
        obtain ⟨e', he', hk'⟩ := List.mem_map.1 hk
        exact hk' ▸ hc.2 e' he'
      rcases hkeys e.1 (List.mem_map_of_mem he) with hk | hk
      · exact hok hr.decodable.clock hk
      · exact hok hs.decodable.clock hk
  refine ⟨?_, hpeers⟩
  unfold Lww.merge Lww.winner
  split_ifs
  exacts [decodable_clock hr.decodable hfits, decodable_clock hs.decodable hfits]

/-! ## A node that gossips -/

/-- The node receives, and its tasks are among `ids`, each with a record of its own that peers
    take. -/
structure Settled (ids peers : Finset Str) (s : NodeState) : Prop where
  receiving : s.receiving = true
  tasks : ∀ t r, s.tasks.get t = some r → t ∈ ids ∧ r.taskId = t ∧ Portable peers r

/-- The message is gossip with the view `v` in it, or a heartbeat, which has nothing in it. -/
def Carries (ids peers : Finset Str) (msg : Message) (v : View) : Prop :=
  msg.msgType = str "heartbeat" ∧ v = ⊥ ∨
  msg.msgType = str "gossip" ∧ ∃ items, msg.payload = gossipPayload items ∧
    v = View.ofItems items ∧ items.length ≤ ids.card ∧
    ∀ e ∈ items, e.1 ∈ ids ∧ e.2.taskId = e.1 ∧ Portable peers e.2

/-- The node has room for the tasks, in its store and in a message. -/
def PeerNode.Roomy {R : Runtime} (N : PeerNode R) (ids : Finset Str) : Prop :=
  ids.card ≤ N.maxTasks ∧ ids.card ≤ N.security.maxGossipTasks

section
variable {ids peers : Finset Str} {s : NodeState}

theorem Settled.size_le (h : Settled ids peers s) : s.tasks.size ≤ ids.card := by
  refine Dict.size_le_card fun t ht => ?_
  obtain ⟨r, hr⟩ := Option.isSome_iff_exists.1 ht
  exact (h.tasks t r hr).1

/-- A task that is not stored is one for which there is room. -/
theorem Settled.room {R : Runtime} {N : PeerNode R} (h : Settled ids peers s)
    (hroom : N.Roomy ids) {t : Str} (ht : t ∈ ids)
    (hn : s.tasks.get t = none) : s.tasks.size < N.maxTasks := by
  have hlt : s.tasks.size ≤ (ids.erase t).card := by
    refine Dict.size_le_card fun k hk => ?_
    obtain ⟨r, hr⟩ := Option.isSome_iff_exists.1 hk
    refine Finset.mem_erase.2 ⟨?_, (h.tasks k r hr).1⟩
    rintro rfl
    rw [show s.tasks.get k = some r from hr] at hn
    exact absurd hn (by simp)
  exact (hlt.trans_lt (Finset.card_erase_lt_of_mem ht)).trans_le hroom.1

theorem Settled.store (h : Settled ids peers s) {s' : NodeState} {t : Str} {r : TaskRecord}
    (hrecv : s'.receiving = s.receiving) (htasks : s'.tasks = s.tasks.set t r) (ht : t ∈ ids)
    (hid : r.taskId = t) (hr : Portable peers r) : Settled ids peers s' := by
  refine ⟨hrecv.trans h.receiving, fun t' r' hr' => ?_⟩
  rw [htasks, Dict.get_set] at hr'
  split_ifs at hr' with htt
  · subst htt
    obtain rfl := Option.some.inj hr'
    exact ⟨ht, hid, hr⟩
  · exact h.tasks t' r' hr'

end

namespace PeerNode

variable {R : Runtime} {N : PeerNode R} {ids peers : Finset Str} {s : NodeState}

/-- A round of the loop over a message joins its record. -/
theorem gossipItem_joins (hsec : N.security.enabled = false) (hw : N.wal = none)
    (hpeers : peers.card ≤ 128) (hroom : N.Roomy ids) (h : Settled ids peers s) (sender : Str)
    {t : Str} {r : TaskRecord} (ht : t ∈ ids) (hid : r.taskId = t) (hr : Portable peers r) :
    (N.gossipItem sender s (t, r.toDict)).2 = none ∧
      Settled ids peers (N.gossipItem sender s (t, r.toDict)).1 ∧
      View.ofTasks (N.gossipItem sender s (t, r.toDict)).1.tasks =
        View.ofTasks s.tasks ⊔ View.single t r := by
  have hacc : N.acceptedRecord sender (t, r.toDict) = .ok (some r) :=
    N.acceptedRecord_iff.2 ⟨(TaskRecord.fromDict_toDict_iff r).2 ⟨hr.decodable, rfl⟩, hid, by simp [hsec]⟩
  have htake : ∀ m : TaskRecord, m.taskId = t → Portable peers m →
      View.ofTasks (s.tasks.set t m) = View.ofTasks s.tasks ⊔ View.single t r →
      N.gossipItem sender s (t, r.toDict) = N.takeRecord s t r.vectorClock m →
      (N.gossipItem sender s (t, r.toDict)).2 = none ∧
        Settled ids peers (N.gossipItem sender s (t, r.toDict)).1 ∧
        View.ofTasks (N.gossipItem sender s (t, r.toDict)).1.tasks =
          View.ofTasks s.tasks ⊔ View.single t r := by
    intro m hm hport hview hg
    have haside := N.takeRecord_aside s t r.vectorClock m
    rw [hg]
    refine ⟨by simp only [takeRecord, logUpdate, appendEntry, hw], ?_, ?_⟩
    · exact h.store haside.receiving (N.takeRecord_tasks _ _ _ _) ht hm hport
    · rw [takeRecord_tasks, hview]
  cases hg : s.tasks.get t with
  | none =>
    refine htake r hid hr (View.ofTasks_set hg) ?_
    unfold gossipItem
    simp only [hacc, hg, if_neg (not_le.2 (h.room hroom ht hg))]
  | some old =>
    obtain ⟨-, ho, hport⟩ := h.tasks t old hg
    have hm : mergeRecords R old r N.mergeKeyring = .ok (recordLww.merge old r) := by
      rw [mergeKeyring, if_neg (by simp [hsec]), mergeRecords_none (ho.trans hid.symm)]
    refine htake (recordLww.merge old r) ?_ (hport.merge hpeers hr) (View.ofTasks_merge hg ho hid) ?_
    · exact (Lww.grp_merge (M := recordLww) (ho.trans hid.symm)).trans ho
    · unfold gossipItem
      simp only [hacc, hg, hm]

/-- So does the loop with all of them. -/
theorem gossipItems_joins (hsec : N.security.enabled = false) (hw : N.wal = none)
    (hpeers : peers.card ≤ 128) (hroom : N.Roomy ids) (sender : Str) :
    ∀ {items : List (Str × TaskRecord)} {s : NodeState}, Settled ids peers s →
    (∀ e ∈ items, e.1 ∈ ids ∧ e.2.taskId = e.1 ∧ Portable peers e.2) →
    (N.gossipItems sender s (items.map fun e => (e.1, e.2.toDict))).2 = none ∧
      Settled ids peers (N.gossipItems sender s (items.map fun e => (e.1, e.2.toDict))).1 ∧
      View.ofTasks (N.gossipItems sender s (items.map fun e => (e.1, e.2.toDict))).1.tasks =
        View.ofTasks s.tasks ⊔ View.ofItems items
  | [], s, h, _ => ⟨rfl, h, (sup_bot_eq _).symm⟩
  | e :: items, s, h, hitems => by
    obtain ⟨ht, hid, hr⟩ := hitems e (by simp)
    obtain ⟨hn, hset, hview⟩ := gossipItem_joins hsec hw hpeers hroom h sender ht hid hr
    obtain ⟨hn', hset', hview'⟩ := gossipItems_joins hsec hw hpeers hroom sender hset
      fun x hx => hitems x (List.mem_cons_of_mem _ hx)
    simp only [List.map_cons, gossipItems]
    rcases hgi : N.gossipItem sender s (e.1, e.2.toDict) with ⟨s₁, o⟩
    rw [hgi] at hn hview hn' hset' hview'
    obtain rfl : o = none := hn
    refine ⟨hn', hset', ?_⟩
    rw [hview', hview, sup_assoc]
    rfl

/-- **A delivery** joins the view in the message. -/
theorem recv_joins (hsec : N.security.enabled = false) (hw : N.wal = none)
    (hpeers : peers.card ≤ 128) (hroom : N.Roomy ids) (h : Settled ids peers s) {msg : Message}
    {v : View} (hm : Carries ids peers msg v) (sender : Str) (wallNow : ℚ) :
    Settled ids peers (N.step s (.recv sender msg wallNow)) ∧
      View.ofTasks (N.step s (.recv sender msg wallNow)).tasks = View.ofTasks s.tasks ⊔ v ∧
      (N.step s (.recv sender msg wallNow)).sent = s.sent := by
  have hauth : N.authenticateMessage s sender msg wallNow = (s, .ok true) := by
    simp [authenticateMessage, hsec]
  simp only [step, h.receiving, if_true]
  rcases hm with ⟨htype, rfl⟩ | ⟨htype, items, hpay, rfl, hlen, hitems⟩
  · have hrecv : N.recvMessage s sender msg wallNow = (s, none) := by
      unfold recvMessage
      rw [hauth, htype]
      rfl
    rw [hrecv]
    exact ⟨h, (sup_bot_eq _).symm, rfl⟩
  · have hrecv : N.recvMessage s sender msg wallNow =
        N.gossipItems sender s (items.map fun e => (e.1, e.2.toDict)) := by
      unfold recvMessage
      rw [hauth, htype, hpay]
      have hlook : lookup (str "tasks") (gossipPayload items) =
          some (.obj (items.map fun e => (e.1, e.2.toDict))) := rfl
      simp only [if_true, hlook, Option.getD_some]
      exact if_neg (not_lt.2 ((List.length_map _).trans_le (hlen.trans hroom.2)))
    obtain ⟨hn, hset, hview⟩ := gossipItems_joins hsec hw hpeers hroom sender h hitems
    rw [hrecv, afterRecv, hn]
    exact ⟨hset, hview, (N.gossipItems_aside sender s _).sent⟩

/-- **A round** of gossip or heartbeats leaves the store, and what it sends carries the view of the
    store or nothing. -/
theorem round_posts (hroom : N.Roomy ids) (h : Settled ids peers s) {e : Event}
    (he : (∃ partner wallNow nonce, e = .gossipRound partner wallNow nonce) ∨
      ∃ now wallNow nonce, e = .heartbeatRound now wallNow nonce) :
    (N.step s e).tasks = s.tasks ∧ (N.step s e).receiving = s.receiving ∧
      ∃ new, (N.step s e).sent = s.sent ++ new ∧ ∀ x ∈ new, Carries ids peers x.2
        (if x.2.msgType = str "gossip" then View.ofTasks s.tasks else ⊥) := by
  rcases he with ⟨partner, wallNow, nonce, rfl⟩ | ⟨now, wallNow, nonce, rfl⟩
  · refine ⟨congrArg Replica.tasks (N.step_gossipRound_quiet s partner wallNow nonce).replica, ?_⟩
    simp only [step, gossipRound]
    split_ifs with hg hp
    · exact ⟨rfl, [], (List.append_nil _).symm, by simp⟩
    · cases hmsg : N.gossipMessage s wallNow nonce with
      | error err => exact ⟨rfl, [], (List.append_nil _).symm, by simp⟩
      | ok m =>
        refine ⟨rfl, [(partner, m)], rfl, fun x hx => ?_⟩
        obtain rfl := List.mem_singleton.1 hx
        have hle : s.tasks.size ≤ N.security.maxGossipTasks := h.size_le.trans hroom.2
        rw [gossipMessage, taskItems_all hle] at hmsg
        obtain ⟨sig, rfl⟩ := Message.signed_ok hmsg
        refine Or.inr ⟨rfl, Json.sortKeys s.tasks.entries, rfl, ?_, ?_, fun e he => ?_⟩
        · exact (if_pos rfl).trans (View.ofItems_eq fun t r => mem_sortKeys_entries).symm
        · exact (Json.sortKeys_perm s.tasks.entries).length_eq.trans_le h.size_le
        · exact h.tasks e.1 e.2 (mem_sortKeys_entries.1 he)
    · exact ⟨rfl, [], (List.append_nil _).symm, by simp⟩
  · refine ⟨congrArg Replica.tasks (N.step_heartbeatRound_quiet s now wallNow nonce).replica, ?_⟩
    simp only [step, heartbeatRound]
    split_ifs with hb
    · cases hmsg : N.signedMessage (str "heartbeat") [(str "ts", .float (.finite now))] wallNow nonce with
      | error err => exact ⟨rfl, [], (List.append_nil _).symm, by simp⟩
      | ok m =>
        refine ⟨rfl, _, rfl, fun x hx => ?_⟩
        obtain ⟨p, -, rfl⟩ := List.mem_map.1 hx
        obtain ⟨sig, rfl⟩ := Message.signed_ok hmsg
        exact Or.inl ⟨rfl, if_neg (show str "heartbeat" ≠ str "gossip" by decide)⟩
    · exact ⟨rfl, [], (List.append_nil _).symm, by simp⟩

end PeerNode

/-! ## The mesh -/

namespace Mesh

variable {R : Runtime} {ι : Type} (M : Mesh R ι)

/-- The mesh only gossips: a node takes a round of gossip or heartbeats, or a message is delivered
    that was sent after the state `s`. -/
def Spreading (s : ι → NodeState) : MeshEvent ι → Prop
  | .act _ (.gossipRound ..) => True
  | .act _ (.heartbeatRound ..) => True
  | .deliver j _ k _ => (s j).sent.length ≤ k
  | _ => False

/-- What an event is in an exchange of snapshots, where of the messages of a node those after the
    first `n` ones count. -/
def moves (n : ι → ℕ) (s : ι → NodeState) : MeshEvent ι → List (Exchange.Move ι)
  | .act i e =>
    (((M.node i).step (s i) e).sent.drop (s i).sent.length).map fun x =>
      if x.2.msgType = str "gossip" then .post i else .blank i
  | .deliver j i k _ =>
    match (s j).sent[k]? with
    | some (peer, _) => if peer = (M.node i).nodeId then [.fetch j i (k - n j)] else []
    | none => []

variable [DecidableEq ι]

/-- The nodes whose stores in the state `s` have reached a node in the end, directly or over
    others. -/
def sources (s : ι → NodeState) (es : List (MeshEvent ι)) : ι → Finset ι :=
  Exchange.sources (trace (M.moves fun j => (s j).sent.length) M.step s es)

/-- The mesh is in the state of the exchange. -/
structure Tracks (ids peers : Finset Str) (n : ι → ℕ) (s : ι → NodeState) (x : Exchange ι View) :
    Prop where
  settled : ∀ i, Settled ids peers (s i)
  value : ∀ i, View.ofTasks (s i).tasks = x.value i
  known : ∀ j, n j ≤ (s j).sent.length
  mail : ∀ j, List.Forall₂ (fun m v => Carries ids peers m.2 v) ((s j).sent.drop (n j)) (x.mail j)

section
variable {M} {ids peers : Finset Str} {n : ι → ℕ} {s : ι → NodeState} {x : Exchange ι View}

/-- What a node posts in a round, one message after the other. -/
theorem run_posts (i : ι) : ∀ (new : List (Str × Message)) (x : Exchange ι View),
    run Exchange.step x (new.map fun m =>
      if m.2.msgType = str "gossip" then Exchange.Move.post i else .blank i) =
    { x with mail := Function.update x.mail i (x.mail i ++ new.map fun m =>
      if m.2.msgType = str "gossip" then x.value i else ⊥) }
  | [], x => by simp
  | m :: new, x => by
    rw [List.map_cons, run_cons, run_posts i new]
    split_ifs with hm <;> simp [Exchange.step, hm]

/-- A node and its part of the exchange take a step. -/
theorem Tracks.update (h : Tracks ids peers n s x) {i : ι} {s' : NodeState} {x' : Exchange ι View}
    (hset : Settled ids peers s') (hvalue : View.ofTasks s'.tasks = x'.value i)
    (hknown : n i ≤ s'.sent.length)
    (hmail : List.Forall₂ (fun m v => Carries ids peers m.2 v) (s'.sent.drop (n i)) (x'.mail i))
    (hother : ∀ k, k ≠ i → x'.value k = x.value k ∧ x'.mail k = x.mail k) :
    Tracks ids peers n (Function.update s i s') x' := by
  refine ⟨fun k => ?_, fun k => ?_, fun k => ?_, fun k => ?_⟩ <;>
    rcases eq_or_ne k i with rfl | hk
  · rwa [Function.update_self]
  · rw [Function.update_of_ne hk]
    exact h.settled k
  · rwa [Function.update_self]
  · rw [Function.update_of_ne hk, (hother k hk).1]
    exact h.value k
  · rwa [Function.update_self]
  · rw [Function.update_of_ne hk]
    exact h.known k
  · rwa [Function.update_self]
  · rw [Function.update_of_ne hk, (hother k hk).2]
    exact h.mail k

theorem Tracks.round (h : Tracks ids peers n s x) {i : ι} {e : Event}
    (hroom : (M.node i).Roomy ids)
    (he : (∃ partner wallNow nonce, e = .gossipRound partner wallNow nonce) ∨
      ∃ now wallNow nonce, e = .heartbeatRound now wallNow nonce) :
    Tracks ids peers n (Function.update s i ((M.node i).step (s i) e))
      (run Exchange.step x (M.moves n s (.act i e))) := by
  obtain ⟨htasks, hrecv, new, hsent, hnew⟩ := round_posts (N := M.node i) hroom (h.settled i) he
  have hmoves : M.moves n s (.act i e) = new.map fun m =>
      if m.2.msgType = str "gossip" then Exchange.Move.post i else .blank i := by
    rw [moves, hsent, List.drop_left]
  rw [hmoves, run_posts]
  refine h.update ⟨hrecv.trans (h.settled i).receiving, htasks ▸ (h.settled i).tasks⟩ ?_ ?_ ?_
    fun k hk => ⟨rfl, Function.update_of_ne hk _ _⟩
  · rw [htasks]
    exact h.value i
  · rw [hsent, List.length_append]
    exact (h.known i).trans (Nat.le_add_right _ _)
  · simp only [Function.update_self]
    rw [hsent, List.drop_append_of_le_length (h.known i)]
    refine List.rel_append (h.mail i) (List.forall₂_map_right_iff.2 (List.forall₂_same.2 ?_))
    intro m hm
    rw [← h.value i]
    exact hnew m hm

theorem Tracks.deliver (h : Tracks ids peers n s x) (hsec : ∀ i, (M.node i).security.enabled = false)
    (hw : ∀ i, (M.node i).wal = none) (hpeers : peers.card ≤ 128)
    (hroom : ∀ i, (M.node i).Roomy ids) {j i : ι} {k : ℕ} (hk : n j ≤ k) (wallNow : ℚ) :
    Tracks ids peers n (M.step s (.deliver j i k wallNow))
      (run Exchange.step x (M.moves n s (.deliver j i k wallNow))) := by
  simp only [step, occurs, moves]
  cases hget : (s j).sent[k]? with
  | none => exact h
  | some entry =>
    obtain ⟨peer, msg⟩ := entry
    simp only
    by_cases hpeer : peer = (M.node i).nodeId
    swap
    · simp only [if_neg hpeer]
      exact h
    simp only [if_pos hpeer, run_cons, run_nil, Exchange.step]
    -- the message carries what the exchange has in its place
    obtain ⟨v, hv, hcarries⟩ : ∃ v, (x.mail j)[k - n j]? = some v ∧ Carries ids peers msg v := by
      have hdrop : ((s j).sent.drop (n j))[k - n j]? = some (peer, msg) := by
        rw [List.getElem?_drop, Nat.add_sub_cancel' hk, hget]
      obtain ⟨hlt, hmsg⟩ := List.getElem?_eq_some_iff.1 hdrop
      have hlt' : k - n j < (x.mail j).length := (h.mail j).length_eq ▸ hlt
      have hrel := (h.mail j).get hlt hlt'
      simp only [List.get_eq_getElem, hmsg] at hrel
      exact ⟨_, List.getElem?_eq_getElem hlt', hrel⟩
    obtain ⟨hset, hview, hsent⟩ := recv_joins (hsec i) (hw i) hpeers (hroom i) (h.settled i) hcarries
      (M.node j).nodeId wallNow
    rw [hv, Option.getD_some]
    refine h.update hset ?_ ?_ ?_ fun l hl => ⟨Function.update_of_ne hl _ _, rfl⟩
    · simp only [Function.update_self]
      rw [hview, h.value i]
    · rw [hsent]
      exact h.known i
    · rw [hsent]
      exact h.mail i

/-- **A step of the mesh** is a step of the exchange. -/
theorem step_tracks (hsec : ∀ i, (M.node i).security.enabled = false)
    (hw : ∀ i, (M.node i).wal = none) (hpeers : peers.card ≤ 128)
    (hroom : ∀ i, (M.node i).Roomy ids) {s₀ : ι → NodeState} {e : MeshEvent ι}
    (he : Spreading s₀ e) (h : Tracks ids peers (fun j => (s₀ j).sent.length) s x) :
    Tracks ids peers (fun j => (s₀ j).sent.length) (M.step s e)
      (run Exchange.step x (M.moves (fun j => (s₀ j).sent.length) s e)) := by
  cases e with
  | deliver j i k wallNow => exact h.deliver hsec hw hpeers hroom he wallNow
  | act i e' =>
    cases e' with
    | gossipRound partner wallNow nonce =>
      exact h.round (hroom i) (Or.inl ⟨partner, wallNow, nonce, rfl⟩)
    | heartbeatRound now wallNow nonce =>
      exact h.round (hroom i) (Or.inr ⟨now, wallNow, nonce, rfl⟩)
    | _ => exact absurd he (by simp [Spreading])

theorem run_tracks (hsec : ∀ i, (M.node i).security.enabled = false)
    (hw : ∀ i, (M.node i).wal = none) (hpeers : peers.card ≤ 128)
    (hroom : ∀ i, (M.node i).Roomy ids) {s₀ : ι → NodeState} :
    ∀ {es : List (MeshEvent ι)} {s : ι → NodeState} {x : Exchange ι View},
    (∀ e ∈ es, Spreading s₀ e) → Tracks ids peers (fun j => (s₀ j).sent.length) s x →
    Tracks ids peers (fun j => (s₀ j).sent.length) (run M.step s es)
      (run Exchange.step x (trace (M.moves fun j => (s₀ j).sent.length) M.step s es))
  | [], _, _, _, h => h
  | e :: es, s, x, hes, h => by
    rw [run_cons, trace, run_append]
    exact run_tracks hsec hw hpeers hroom (fun e' he' => hes e' (List.mem_cons_of_mem _ he'))
      (step_tracks hsec hw hpeers hroom (hes e (by simp)) h)

end

/-- **Dissemination.**  In a mesh without security and logs, with room for all tasks, as long as the
    nodes do nothing but gossip: whatever is lost, delayed, reordered and repeated, and over however
    many hops, a node ends with exactly the join of the stores of its sources, and nodes with the
    same sources end with the same store. -/
theorem gossip_spreads (hsec : ∀ i, (M.node i).security.enabled = false)
    (hw : ∀ i, (M.node i).wal = none) {ids peers : Finset Str} (hpeers : peers.card ≤ 128)
    (hroom : ∀ i, (M.node i).Roomy ids) {s : ι → NodeState} (hs : ∀ i, Settled ids peers (s i))
    {es : List (MeshEvent ι)} (hes : ∀ e ∈ es, Spreading s e) :
    (∀ i, View.ofTasks (run M.step s es i).tasks =
      (M.sources s es i).sup fun j => View.ofTasks (s j).tasks) ∧
    ∀ i j, M.sources s es i = M.sources s es j →
      ∀ t, (run M.step s es i).tasks.get t = (run M.step s es j).tasks.get t := by
  have hstart : Tracks ids peers (fun j => (s j).sent.length) s
      (Exchange.start fun i => View.ofTasks (s i).tasks) := by
    refine ⟨hs, fun i => rfl, fun j => le_rfl, fun j => ?_⟩
    rw [List.drop_length]
    exact .nil
  have hend := run_tracks hsec hw hpeers hroom hes hstart
  have hview : ∀ i, View.ofTasks (run M.step s es i).tasks =
      (M.sources s es i).sup fun j => View.ofTasks (s j).tasks := by
    intro i
    rw [hend.value i, Exchange.run_value]
    rfl
  refine ⟨hview, fun i j hij => ?_⟩
  exact View.get_eq_of_ofTasks (fun t r hr => ((hend.settled i).tasks t r hr).2.1)
    (fun t r hr => ((hend.settled j).tasks t r hr).2.1) (by rw [hview i, hview j, hij])

namespace Sample

/-- The two nodes after a task was submitted to `a`. -/
noncomputable def submitted : Bool → NodeState :=
  run pair.step pair.initial [.act false (.submit (str "t") [] 0)]

/-- Each of them gossips with the other. -/
def bothGossip : List (MeshEvent Bool) :=
  [.act false (.gossipRound (str "c") 0 (str "n")), .deliver false true 0 0,
   .act true (.gossipRound (str "a") 0 (str "m")), .deliver true false 0 0]

theorem submitted_settled (b : Bool) : Settled {str "t"} {str "a"} (submitted b) := by
  have hrecv : ∀ b, (submitted b).receiving = true := by decide +kernel
  have htasks : ∀ b, ∀ e ∈ (submitted b).tasks.entries, e.1 ∈ ({str "t"} : Finset Str) ∧
      e.2.taskId = e.1 ∧ e.2.Decodable ∧ ∀ k ∈ e.2.vectorClock.keys, k ∈ ({str "a"} : Finset Str) := by
    decide +kernel
  refine ⟨hrecv b, fun t r hr => ?_⟩
  obtain ⟨h1, h2, h3, h4⟩ := htasks b (t, r) (Dict.mem_entries.2 hr)
  exact ⟨h1, h2, h3, h4⟩

theorem bothGossip_spreading : ∀ e ∈ bothGossip, Spreading submitted e := by
  intro e he
  simp only [bothGossip, List.mem_cons, List.not_mem_nil, or_false] at he
  have hsent : ∀ b, (submitted b).sent.length = 0 := by decide +kernel
  rcases he with rfl | rfl | rfl | rfl
  · trivial
  · exact (hsent false).le
  · trivial
  · exact (hsent true).le

end Sample

/-- Two nodes that have heard of each other hold the same tasks. -/
theorem gossip_spreads_pair :
    (run Sample.pair.step Sample.submitted Sample.bothGossip true).tasks.has (str "t") = true ∧
    ∀ t, (run Sample.pair.step Sample.submitted Sample.bothGossip false).tasks.get t =
      (run Sample.pair.step Sample.submitted Sample.bothGossip true).tasks.get t := by
  have hsources : ∀ b, Sample.pair.sources Sample.submitted Sample.bothGossip b = {false, true} := by
    decide +kernel
  have hplain : ∀ b, (Sample.pair.node b).security.enabled = false ∧ (Sample.pair.node b).wal = none ∧
      (Sample.pair.node b).Roomy {str "t"} := by
    intro b
    cases b <;> exact ⟨rfl, rfl, by decide +kernel, by decide +kernel⟩
  refine ⟨by decide +kernel, ?_⟩
  exact (Sample.pair.gossip_spreads (fun b => (hplain b).1) (fun b => (hplain b).2.1) (by decide)
    (fun b => (hplain b).2.2) Sample.submitted_settled Sample.bothGossip_spreading).2 false true
    ((hsources false).trans (hsources true).symm)

end Mesh

end PeerQ
