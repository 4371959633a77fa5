/-
  A cluster: the nodes of a mesh over the simulated network.

  What a node hands to its transport is encoded, may be lost or sleep, is decoded
  at the receiver, and is taken from its inbox.  Nodes get new transports and
  lose old ones, links are cut and healed, tasks are cancelled.  Every step of a
  cluster is one step of the mesh or none, and the nodes are in the same states
  after it; no message is delivered twice in that run (`cluster_refines`).
-/
import PeerQ.Lib.Refine
import PeerQ.Mesh
import PeerQ.Node.Wire
import PeerQ.Transport.Simulated

namespace PeerQ

open Py PeerNode

/-! ## The model -/

/-- The nodes, the network, the transport that each node has, and the calls of `send` that are still
    to be made: a heartbeat is sent to one peer after the other. -/
structure ClusterState (ι : Type) where
  nodes : ι → NodeState
  network : SimNetwork
  attached : ι → Option ℕ
  calls : List (ι × Str × Message)

inductive ClusterEvent (ι : Type) where
  | act (i : ι) (e : Event)
  | attach (i : ι) (security : SecurityConfig)
  | call (c : ℕ) (draw : ℚ)
  | abandon (c : ℕ)
  | receive (i : ι) (wallNow : ℚ)
  | network (e : SimEvent)

def ClusterEvent.isRestart {ι : Type} : ClusterEvent ι → Bool
  | .act _ (.restart _) => true
  | _ => false

/-- What happens in the network by itself. -/
def SimEvent.isEnvironment : SimEvent → Bool
  | .create .. | .send .. | .recv .. => false
  | _ => true

/-- The message that a delivery is of: its sender and its number. -/
def MeshEvent.delivery {ι : Type} : MeshEvent ι → Option (ι × ℕ)
  | .deliver j _ k _ => some (j, k)
  | .act .. => none

namespace Mesh

variable {R : Runtime} {ι : Type} (M : Mesh R ι)

/-! ## Messages and their images -/

/-- A message as it is on the wire, between the ids of its nodes. -/
def image (c : ι × Str × Message) : Str × Str × Message := ((M.node c.1).nodeId, c.2.1, c.2.2.canon)

/-- The image of the message with this sender and number. -/
def imageAt (s : ι → NodeState) (d : ι × ℕ) : Option (Str × Str × Message) :=
  (s d.1).sent[d.2]?.map fun x => M.image (d.1, x)

def images (calls : List (ι × Str × Message)) : Multiset (Str × Str × Message) := calls.map M.image

theorem images_eraseIdx {calls : List (ι × Str × Message)} {c : ℕ} {x : ι × Str × Message}
    (hc : calls[c]? = some x) : {M.image x} + M.images (calls.eraseIdx c) = M.images calls := by
  obtain ⟨hlt, rfl⟩ := List.getElem?_eq_some_iff.1 hc
  rw [Multiset.singleton_add, images, Multiset.cons_coe, ← List.map_cons]
  exact Multiset.coe_eq_coe.2 ((List.getElem_cons_eraseIdx_perm hlt).map M.image)

theorem images_eraseIdx_le (calls : List (ι × Str × Message)) (c : ℕ) :
    M.images (calls.eraseIdx c) ≤ M.images calls :=
  Multiset.coe_le.2 ((List.eraseIdx_sublist _ _).map M.image).subperm

/-- All that is on its way to a node. -/
def load (s : ClusterState ι) : Multiset (Str × Str × Message) := s.network.cargo + M.images s.calls

/-- Of more items than have been used, one has not. -/
theorem exists_unused {κ α : Type} [DecidableEq α] {f : κ → Option α} {y : α} {K D : List κ}
    (hK : K.Nodup) (h : D.countP (fun k => f k = some y) < K.countP (fun k => f k = some y)) :
    ∃ k ∈ K, k ∉ D ∧ f k = some y := by
  by_contra hno
  push Not at hno
  refine h.not_ge ?_
  rw [List.countP_eq_length_filter, List.countP_eq_length_filter]
  refine (List.subperm_of_subset (hK.filter _) fun k hk => ?_).length_le
  obtain ⟨hk, hf⟩ := List.mem_filter.1 hk
  refine List.mem_filter.2 ⟨?_, hf⟩
  by_contra hD
  exact hno k hk hD (by simpa using hf)

/-- A message keeps its number. -/
theorem imageAt_eq {s s' : ι → NodeState} (h : ∀ j, (s j).sent <+: (s' j).sent) {d : ι × ℕ}
    (hd : (M.imageAt s d).isSome) : M.imageAt s' d = M.imageAt s d := by
  obtain ⟨more, hmore⟩ := h d.1
  have hlt : d.2 < (s d.1).sent.length := by
    simpa [imageAt] using hd
  rw [imageAt, imageAt, ← hmore, List.getElem?_append_left hlt]

open Classical in
/-- The messages of a node are those with its numbers. -/
theorem count_sent (s : ι → NodeState) (j : ι) (y : Str × Str × Message) :
    (M.images ((s j).sent.map fun x => (j, x))).count y =
      ((List.range (s j).sent.length).map fun k => (j, k)).countP fun d => M.imageAt s d = some y := by
  have hl : ((s j).sent.map fun x => some (M.image (j, x))) =
      (List.range (s j).sent.length).map fun k => M.imageAt s (j, k) := by
    refine List.ext_getElem (by simp) fun k h₁ h₂ => ?_
    simp only [List.length_map] at h₁
    simp [imageAt, h₁]
  calc (M.images ((s j).sent.map fun x => (j, x))).count y
      = ((s j).sent.map fun x => some (M.image (j, x))).countP fun z => z = some y := by
        rw [images, List.map_map, Multiset.count, Multiset.coe_countP, List.countP_map,
          List.countP_map]
        exact List.countP_congr fun x _ => by simp [eq_comm]
    _ = _ := by
        rw [hl, List.countP_map, List.countP_map]
        rfl

/-! ## Steps -/

def clusterInitial (hasRng : Bool) : ClusterState ι := ⟨M.initial, .new hasRng, fun _ => none, []⟩

variable [DecidableEq ι]

/-- One step; what a node sends in it is to be handed to its transport. -/
def clusterStep (s : ClusterState ι) : ClusterEvent ι → ClusterState ι
  | .act _ (.recv ..) => s
  | .act i e =>
    let node := (M.node i).step (s.nodes i) e
    { s with
      nodes := Function.update s.nodes i node
      calls := s.calls ++ (node.sent.drop (s.nodes i).sent.length).map fun x => (i, x) }
  | .attach i security =>
    { s with
      network := s.network.step R (.create (M.node i).nodeId security)
      attached := Function.update s.attached i (some s.network.objects.length) }
  | .call c draw =>
    match s.calls[c]? with
    | none => s
    | some (i, peer, msg) =>
      let s := { s with calls := s.calls.eraseIdx c }
      match s.attached i with
      | none => s
      | some t => { s with network := s.network.step R (.send t peer msg draw) }
  -- the task that was to make the call is cancelled
  | .abandon c => { s with calls := s.calls.eraseIdx c }
  | .receive i wallNow =>
    match s.attached i with
    | none => s
    | some t =>
      match s.network.objects[t]?.bind (·.inbox.head?) with
      | none => s
      | some (sender, msg) =>
        { s with
          nodes := Function.update s.nodes i
            ((M.node i).step (s.nodes i) (.recv sender msg wallNow))
          network := s.network.step R (.recv t) }
  | .network e => if e.isEnvironment then { s with network := s.network.step R e } else s

section
open Classical

variable {M} {s : ClusterState ι}

/-! ## The refinement -/

/-- A state of the cluster after a run of the mesh. -/
structure Follows (M : Mesh R ι) (s : ClusterState ι) (mes : List (MeshEvent ι)) : Prop where
  nodes : s.nodes = run M.step M.initial mes
  once : (mes.filterMap MeshEvent.delivery).Nodup
  known : ∀ d ∈ mes.filterMap MeshEvent.delivery, (M.imageAt s.nodes d).isSome
  sound : s.network.Sound
  authored : ∀ j, ∀ m ∈ (s.nodes j).messages, (M.node j).Authored m
  attached : ∀ i t, s.attached i = some t → s.network.ids[t]? = some (M.node i).nodeId
  called : ∀ c ∈ s.calls, c.2 ∈ (s.nodes c.1).sent
  sources : ∀ y ∈ M.load s, ∃ j, y.1 = (M.node j).nodeId
  account : ∀ j y, y.1 = (M.node j).nodeId →
    (mes.filterMap MeshEvent.delivery).countP (fun d => M.imageAt s.nodes d = some y) +
      (M.load s).count y ≤ (M.images ((s.nodes j).sent.map fun x => (j, x))).count y

variable {mes : List (MeshEvent ι)}

/-- Nothing happens at the nodes, and nothing more is on its way. -/
theorem Follows.carry (h : M.Follows s mes) {s' : ClusterState ι} (hn : s'.nodes = s.nodes)
    (hsound : s'.network.Sound)
    (hatt : ∀ i t, s'.attached i = some t → s'.network.ids[t]? = some (M.node i).nodeId)
    (hcalls : ∀ c ∈ s'.calls, c ∈ s.calls) (hload : M.load s' ≤ M.load s) : M.Follows s' mes where
  nodes := hn.trans h.nodes
  once := h.once
  known := hn ▸ h.known
  sound := hsound
  authored := hn ▸ h.authored
  attached := hatt
  called c hc := hn ▸ h.called c (hcalls c hc)
  sources y hy := h.sources y (Multiset.mem_of_le hload hy)
  account j y hy := by
    rw [hn]
    exact (Nat.add_le_add_left (Multiset.count_le_of_le y hload) _).trans (h.account j y hy)

/-- A step of the network that sends at most the messages of these calls. -/
theorem Follows.carry_step (h : M.Follows s mes) {e : SimEvent} (he : e.WellFormed)
    {calls : List (ι × Str × Message)} (hcalls : ∀ c ∈ calls, c ∈ s.calls)
    (hsent : (s.network.sent e : Multiset (Str × Str × Message)) + M.images calls ≤ M.images s.calls) :
    M.Follows { s with network := s.network.step R e, calls } mes := by
  refine h.carry rfl (h.sound.step he) (fun i t ht => ?_) hcalls ?_
  · have hid := h.attached i t ht
    rw [SimNetwork.step_ids h.sound he, List.getElem?_append_left (List.getElem?_eq_some_iff.1 hid).1]
    exact hid
  · have hcargo := (Multiset.le_add_left _ _).trans (SimNetwork.step_conserves (R := R) h.sound he)
    calc M.load { s with network := s.network.step R e, calls }
        ≤ s.network.cargo + s.network.sent e + M.images calls := by
          exact add_le_add_left hcargo _
      _ ≤ M.load s := by
          rw [add_assoc]
          exact add_le_add_right hsent _

theorem Follows.attach (h : M.Follows s mes) (i : ι) (security : SecurityConfig) :
    M.Follows (M.clusterStep s (.attach i security)) mes := by
  have hstep := h.carry_step (e := .create (M.node i).nodeId security) trivial (fun c => id)
    (by simp [SimNetwork.sent])
  refine hstep.carry rfl hstep.sound (fun j t ht => ?_) (fun c => id) le_rfl
  simp only [clusterStep, Function.update_apply] at ht
  split_ifs at ht with hj
  · obtain rfl := Option.some.inj ht
    rw [hj]
    show ((s.network.create _ _).ids)[_]? = _
    rw [SimNetwork.ids_create, SimNetwork.ids, ← List.length_map InMemoryTransport.nodeId]
    exact List.getElem?_concat_length
  · exact hstep.attached j t ht

theorem Follows.abandon (h : M.Follows s mes) (c : ℕ) :
    M.Follows { s with calls := s.calls.eraseIdx c } mes :=
  h.carry rfl h.sound h.attached (fun _ hx => List.mem_of_mem_eraseIdx hx)
    (add_le_add_right (M.images_eraseIdx_le _ c) _)

theorem Follows.call (hE : R.ed25519.Lawful) (h : M.Follows s mes) (c : ℕ) (draw : ℚ) :
    M.Follows (M.clusterStep s (.call c draw)) mes := by
  simp only [clusterStep]
  cases hc : s.calls[c]? with
  | none => exact h
  | some x =>
    obtain ⟨i, peer, msg⟩ := x
    have hsent : (peer, msg) ∈ (s.nodes i).sent := h.called _ (List.mem_of_getElem? hc)
    have hmsg := h.authored i msg (mem_messages.2 (Or.inl (List.mem_map_of_mem hsent)))
    simp only
    cases ht : s.attached i with
    | none => exact h.abandon c
    | some t =>
      refine h.carry_step (e := .send t peer msg draw) (hmsg.wellFormed hE)
        (fun _ hx => List.mem_of_mem_eraseIdx hx) ?_
      rw [← M.images_eraseIdx hc]
      refine add_le_add_left ?_ _
      obtain ⟨T, hT, hname⟩ := Option.map_eq_some_iff.1 (List.getElem?_map .. ▸ h.attached i t ht)
      simp only [SimNetwork.sent, hT]
      split_ifs
      · exact Multiset.zero_le _
      · rw [hname]
        exact le_rfl

/-- A step of the network by itself. -/
theorem Follows.network (h : M.Follows s mes) (e : SimEvent) :
    M.Follows (M.clusterStep s (.network e)) mes := by
  simp only [clusterStep]
  split_ifs with he
  · have hwf : e.WellFormed := by
      cases e <;> trivial
    have hsent : s.network.sent e = [] := by
      cases e <;> first | rfl | cases he
    exact h.carry_step hwf (fun _ => id) (by simp [hsent])
  · exact h

theorem Follows.authored_update (h : M.Follows s mes) (i : ι) (e : Event) : ∀ j,
    ∀ m ∈ (Function.update s.nodes i ((M.node i).step (s.nodes i) e) j).messages,
      (M.node j).Authored m := by
  intro j m hm
  by_cases hj : j = i
  · subst hj
    rw [Function.update_self] at hm
    exact ((step_composes e).made m hm).elim (h.authored j m) id
  · rw [Function.update_of_ne hj] at hm
    exact h.authored j m hm

/-- A node that receives nothing takes a step. -/
theorem Follows.act (h : M.Follows s mes) (i : ι) {e : Event}
    (he : ∀ sender msg wallNow, e ≠ .recv sender msg wallNow) :
    M.Follows (M.clusterStep s (.act i e)) (mes ++ [.act i e]) := by
  have hcomp : (M.node i).Composes (s.nodes i) ((M.node i).step (s.nodes i) e) := step_composes e
  obtain ⟨new, hnew⟩ := hcomp.sent
  set node := (M.node i).step (s.nodes i) e with hnode
  have hstep : M.clusterStep s (.act i e) =
      { s with nodes := Function.update s.nodes i node, calls := s.calls ++ new.map fun x => (i, x) } := by
    have hdrop : node.sent.drop (s.nodes i).sent.length = new := by rw [← hnew, List.drop_left]
    rw [← hdrop]
    cases e <;> first | rfl | exact absurd rfl (he _ _ _)
  have hmesh : M.step s.nodes (.act i e) = Function.update s.nodes i node := by
    cases e <;> first | rfl | exact absurd rfl (he _ _ _)
  have hlonger : ∀ j, (s.nodes j).sent <+: (Function.update s.nodes i node j).sent := by
    intro j
    by_cases hj : j = i
    · subst hj
      rw [Function.update_self]
      exact hcomp.sent
    · rw [Function.update_of_ne hj]
  have hdel : (mes ++ [MeshEvent.act i e]).filterMap MeshEvent.delivery =
      mes.filterMap MeshEvent.delivery := by
    simp [MeshEvent.delivery]
  have hload : M.load { s with nodes := Function.update s.nodes i node
                               calls := s.calls ++ new.map fun x => (i, x) } =
      M.load s + M.images (new.map fun x => (i, x)) := by
    simp only [load, images, List.map_append, ← Multiset.coe_add, add_assoc]
  rw [hstep]
  refine ⟨?_, hdel ▸ h.once, fun d hd => ?_, h.sound, h.authored_update i e, h.attached,
    fun c hc => ?_, fun y hy => ?_, fun j y hy => ?_⟩
  · rw [run_concat, ← h.nodes, hmesh]
  · rw [hdel] at hd
    rw [M.imageAt_eq hlonger (h.known d hd)]
    exact h.known d hd
  · rcases List.mem_append.1 hc with hc | hc
    · exact (hlonger c.1).subset (h.called c hc)
    · obtain ⟨x, hx, rfl⟩ := List.mem_map.1 hc
      simp only [Function.update_self, ← hnew]
      exact List.mem_append_right _ hx
  · rw [hload] at hy
    rcases Multiset.mem_add.1 hy with hy | hy
    · exact h.sources y hy
    · obtain ⟨c, hc, rfl⟩ := List.mem_map.1 hy
      exact ⟨c.1, rfl⟩
  · have hcount : (mes.filterMap MeshEvent.delivery).countP
        (fun d => M.imageAt (Function.update s.nodes i node) d = some y) =
        (mes.filterMap MeshEvent.delivery).countP (fun d => M.imageAt s.nodes d = some y) :=
      List.countP_congr fun d hd => by rw [M.imageAt_eq hlonger (h.known d hd)]
    have hold := h.account j y hy
    rw [hdel, hcount, hload, Multiset.count_add]
    by_cases hj : j = i
    · subst hj
      have hadd : M.images (node.sent.map fun x => (j, x)) =
          M.images ((s.nodes j).sent.map fun x => (j, x)) + M.images (new.map fun x => (j, x)) := by
        simp only [images, ← hnew, List.map_append, ← Multiset.coe_add]
      simp only [Function.update_self, hadd, Multiset.count_add]
      omega
    · have hzero : (M.images (new.map fun x => (i, x))).count y = 0 := by
        refine Multiset.count_eq_zero.2 fun hmem => hj (M.distinct ?_)
        obtain ⟨c, hc, rfl⟩ := List.mem_map.1 hmem
        obtain ⟨x, hx, rfl⟩ := List.mem_map.1 hc
        exact hy.symm
      simp only [hzero, Function.update_of_ne hj]
      omega

/-- The copy of a message that was not delivered yet reaches its node. -/
theorem Follows.deliver (h : M.Follows s mes) {i j : ι} {k : ℕ} {m : Message} {n : SimNetwork}
    (hk : (s.nodes j).sent[k]? = some ((M.node i).nodeId, m))
    (hfresh : (j, k) ∉ mes.filterMap MeshEvent.delivery) (hsound : n.Sound)
    (hids : n.ids = s.network.ids)
    (hload : {M.image (j, (M.node i).nodeId, m)} + M.load { s with network := n } ≤ M.load s)
    (wallNow : ℚ) :
    M.Follows { s with
      nodes := Function.update s.nodes i
        ((M.node i).step (s.nodes i) (.recv (M.node j).nodeId m.canon wallNow))
      network := n } (mes ++ [.deliver j i k wallNow]) := by
  have hauthor := h.authored j m
    (mem_messages.2 (Or.inl (List.mem_map_of_mem (List.mem_of_getElem? hk))))
  have hcanon : (M.node i).step (s.nodes i) (.recv (M.node j).nodeId m.canon wallNow) =
      (M.node i).step (s.nodes i) (.recv (M.node j).nodeId m wallNow) := by
    simp only [PeerNode.step, recvMessage_canon hauthor.payload_wf hauthor.tasks_sorted]
  have hmesh : M.step s.nodes (.deliver j i k wallNow) = Function.update s.nodes i
      ((M.node i).step (s.nodes i) (.recv (M.node j).nodeId m.canon wallNow)) := by
    simp [step, occurs, hk, hcanon]
  have hsent : ∀ j', (M.step s.nodes (.deliver j i k wallNow) j').sent = (s.nodes j').sent := by
    intro j'
    rw [hmesh]
    by_cases hj : j' = i
    · rw [hj, Function.update_self, step_recv_sent]
    · rw [Function.update_of_ne hj]
  have himages : ∀ d, M.imageAt (M.step s.nodes (.deliver j i k wallNow)) d = M.imageAt s.nodes d := by
    intro d
    rw [imageAt, imageAt, hsent]
  have himage : M.imageAt s.nodes (j, k) = some (M.image (j, (M.node i).nodeId, m)) := by
    simp [imageAt, hk]
  have hdel : (mes ++ [MeshEvent.deliver j i k wallNow]).filterMap MeshEvent.delivery =
      mes.filterMap MeshEvent.delivery ++ [(j, k)] := by
    simp [MeshEvent.delivery]
  rw [← hmesh]
  refine ⟨?_, ?_, fun d hd => ?_, hsound, hmesh ▸ h.authored_update i _, hids ▸ h.attached,
    fun c hc => ?_, fun z hz => ?_, fun j' z hz => ?_⟩
  · rw [run_concat, ← h.nodes]
  · rw [hdel]
    exact h.once.append (List.nodup_singleton _) (by simpa using hfresh)
  · rw [himages]
    rw [hdel, List.mem_append, List.mem_singleton] at hd
    rcases hd with hd | rfl
    · exact h.known d hd
    · rw [himage]
      rfl
  · rw [hsent]
    exact h.called c hc
  · exact h.sources z (Multiset.mem_of_le ((Multiset.le_add_left _ _).trans hload) hz)
  · have hcount := Multiset.count_le_of_le z hload
    have hold := h.account j' z hz
    rw [Multiset.count_add, Multiset.count_singleton] at hcount
    have hlast : [(j, k)].countP (fun d => M.imageAt s.nodes d = some z) =
        if z = M.image (j, (M.node i).nodeId, m) then 1 else 0 := by
      simp [List.countP_singleton, himage, eq_comm]
    simp only [himages, hdel, List.countP_append, hsent, hlast]
    exact le_trans (by rw [add_assoc]; exact Nat.add_le_add_left hcount _) hold

/-- A node takes a message from its inbox: one of the mesh that was not delivered yet. -/
theorem Follows.receive (h : M.Follows s mes) (i : ι) (wallNow : ℚ) :
    ∃ o : Option (MeshEvent ι), M.Follows (M.clusterStep s (.receive i wallNow)) (mes ++ o.toList) ∧
      ∀ e ∈ o, e.isRestart = false := by
  have hnone : M.Follows s (mes ++ (none : Option (MeshEvent ι)).toList) := by
    rwa [Option.toList_none, List.append_nil]
  simp only [clusterStep]
  cases ht : s.attached i with
  | none => exact ⟨none, hnone, by simp⟩
  | some t =>
  simp only
  cases hx : s.network.objects[t]?.bind (·.inbox.head?) with
  | none => exact ⟨none, hnone, by simp⟩
  | some x =>
  obtain ⟨sender, msg⟩ := x
  obtain ⟨T, hT, hhead⟩ := Option.bind_eq_some_iff.1 hx
  have hname : T.nodeId = (M.node i).nodeId := by
    obtain ⟨T', hT', hname⟩ := Option.map_eq_some_iff.1 (List.getElem?_map .. ▸ h.attached i t ht)
    obtain rfl := Option.some.inj (hT.symm.trans hT')
    exact hname
  have hreceived : s.network.received (.recv t) = [(sender, (M.node i).nodeId, msg)] := by
    simp [SimNetwork.received, hT, hhead, hname]
  have hcons := SimNetwork.step_conserves (R := R) (e := .recv t) h.sound trivial
  rw [hreceived] at hcons
  have hload : {(sender, (M.node i).nodeId, msg)} +
      M.load { s with network := s.network.step R (.recv t) } ≤ M.load s := by
    rw [load, ← add_assoc]
    exact add_le_add_left (by simpa [SimNetwork.sent] using hcons) _
  have hmem : (sender, (M.node i).nodeId, msg) ∈ M.load s := Multiset.mem_of_le hload (by simp)
  obtain ⟨j, hj⟩ := h.sources _ hmem
  have hlt := h.account j _ hj
  rw [M.count_sent] at hlt
  obtain ⟨d, hd, hfresh, himage⟩ := exists_unused (f := M.imageAt s.nodes)
    (D := mes.filterMap MeshEvent.delivery) (List.nodup_range.map fun a b hab => (Prod.mk.inj hab).2)
    (lt_of_lt_of_le (Nat.lt_add_of_pos_right (Multiset.count_pos.2 hmem)) hlt)
  obtain ⟨k, -, rfl⟩ := List.mem_map.1 hd
  obtain ⟨⟨peer, m⟩, hk, hm⟩ := Option.map_eq_some_iff.1 himage
  obtain ⟨rfl, rfl, rfl⟩ : (M.node j).nodeId = sender ∧ peer = (M.node i).nodeId ∧ m.canon = msg := by
    simpa [image] using hm
  refine ⟨some (.deliver j i k wallNow),
    h.deliver hk hfresh (h.sound.step (e := .recv t) trivial) ?_ hload wallNow,
    by simp [MeshEvent.isRestart]⟩
  exact (SimNetwork.step_ids (e := .recv t) h.sound trivial).trans (List.append_nil _)

theorem follows_initial (hasRng : Bool) : M.Follows (M.clusterInitial hasRng) [] where
  nodes := rfl
  once := List.nodup_nil
  known d hd := by cases hd
  sound := SimNetwork.sound_new hasRng
  authored j m hm := by
    have hboot : ((M.node j).boot none []).messages = [] := boot_messages none []
    exact absurd (hboot ▸ hm) List.not_mem_nil
  attached i t ht := by cases ht
  called c hc := by cases hc
  sources y hy := by simp [load, images, clusterInitial, SimNetwork.new, SimNetwork.cargo] at hy
  account j y hy := by simp [load, images, clusterInitial, SimNetwork.new, SimNetwork.cargo]

/-- **A step of a cluster** is a step of the mesh, or none. -/
theorem Follows.step (hE : R.ed25519.Lawful) (h : M.Follows s mes) (e : ClusterEvent ι) :
    ∃ o : Option (MeshEvent ι), M.Follows (M.clusterStep s e) (mes ++ o.toList) ∧
      ∀ e' ∈ o, e.isRestart = false → e'.isRestart = false := by
  have hnone : ∀ {s' : ClusterState ι}, M.Follows s' mes → ∃ o : Option (MeshEvent ι),
      M.Follows s' (mes ++ o.toList) ∧ ∀ e' ∈ o, e.isRestart = false → e'.isRestart = false :=
    fun h => ⟨none, by rwa [Option.toList_none, List.append_nil], by simp⟩
  cases e with
  | act i e =>
    cases e with
    | recv sender msg wallNow => exact hnone h
    | restart cut => exact ⟨some _, h.act i (by simp), fun _ _ he => nomatch he⟩
    | _ => exact ⟨some _, h.act i (by simp), by simp [MeshEvent.isRestart]⟩
  | attach i security => exact hnone (h.attach i security)
  | call c draw => exact hnone (h.call hE c draw)
  | abandon c => exact hnone (h.abandon c)
  | receive i wallNow =>
    obtain ⟨o, ho, hrestart⟩ := h.receive i wallNow
    exact ⟨o, ho, fun e' he' _ => hrestart e' he'⟩
  | network e => exact hnone (h.network e)

end

/-- **A cluster refines the mesh**: each step of a cluster is one step of the mesh or none, the nodes
    are in the same states after every step, and no message is delivered twice. -/
theorem cluster_refines (hE : R.ed25519.Lawful) (hasRng : Bool) (es : List (ClusterEvent ι)) :
    ∃ mes : List (Option (MeshEvent ι)), mes.length = es.length ∧
      (∀ k, (run M.clusterStep (M.clusterInitial hasRng) (es.take k)).nodes =
        run M.step M.initial (mes.take k).reduceOption) ∧
      (mes.reduceOption.filterMap MeshEvent.delivery).Nodup ∧
      ((∀ e ∈ es, e.isRestart = false) → ∀ e ∈ mes.reduceOption, e.isRestart = false) := by
  obtain ⟨mes, hlen, hmes, hrestart⟩ := run_matched
    (fun s mes e (h : M.Follows s mes) => h.step hE e) (follows_initial hasRng) es
  refine ⟨mes, hlen, fun k => (hmes k).nodes, ?_, fun hes e' he' => ?_⟩
  · have hall := (hmes mes.length).once
    rwa [List.take_length] at hall
  · obtain ⟨e, he, himp⟩ := hrestart e' he'
    exact himp (hes e he)

namespace Sample

/-- The task of `a` is on its way to `c`. -/
def gossiping : List (ClusterEvent Bool) :=
  [.attach false .default, .attach true .default, .network (.tune 0 1),
   .act false (.submit (str "t") [] 0), .act false (.gossipRound (str "c") 0 (str "n")), .call 0 0]

/-- It arrives and `c` takes it from its inbox. -/
def carried : List (ClusterEvent Bool) := gossiping ++ [.network (.arrive 0), .receive true 0]

end Sample

theorem cluster_refines_gossiping :
    (run Sample.pair.clusterStep (Sample.pair.clusterInitial false) Sample.gossiping).network.inTransit.length =
      1 ∧
    ∃ mes : List (Option (MeshEvent Bool)), mes.length = 8 ∧
      (∀ k, (run Sample.pair.clusterStep (Sample.pair.clusterInitial false) (Sample.carried.take k)).nodes =
        run Sample.pair.step Sample.pair.initial (mes.take k).reduceOption) ∧
      (mes.reduceOption.filterMap MeshEvent.delivery).Nodup := by
  refine ⟨by decide +kernel, ?_⟩
  obtain ⟨mes, hlen, hnodes, honce, -⟩ := cluster_refines Sample.pair Ed25519.suffix_lawful false
    Sample.carried
  exact ⟨mes, hlen, hnodes, honce⟩

end Mesh

end PeerQ
