/-
  The simulated network (`InMemoryTransport` and `SimNetwork` of
  `peerq/transport.py`).

  A message goes from a transport to the network, may sleep there, and ends in
  the inbox of the transport that was registered for its target when it was
  sent.  What sleeps is part of the state, and the sleeps end in any order.
  Transports are named by the order of their creation, since a node that
  restarts gets a new one under its old id.

  The network loses messages but neither invents nor repeats any
  (`step_conserves`), and a link that is blocked lets nothing through, not even
  what is on its way (`partition_isolates`).
-/
import PeerQ.Message.Wire
import PeerQ.Lib.Runs

namespace PeerQ

open Py

/-! ## Transports -/

/-- What `send` and `recv` raise. -/
inductive TransportError where
  | runtimeError (msg : Str)
  | other (e : Exn)

structure InMemoryTransport where
  nodeId : Str
  security : SecurityConfig := .default
  inbox : List (Str × Message) := []
  closed : Bool := false

namespace InMemoryTransport

/-- `deliver_packet`: the message is encoded and decoded within the limits of the receiver, and
    dropped if the inbox is full. -/
def deliverPacket (R : Runtime) (T : InMemoryTransport) (senderId : Str) (msg : Message) :
    Except Exn InMemoryTransport :=
  if T.closed then .ok T
  else do
    let data ← msg.toBytes R T.security.maxFrameSize
    let isolated ← Message.fromBytes R (data.drop 4) T.security
    if T.security.maxInboxSize ≤ T.inbox.length then pure T
    else pure { T with inbox := T.inbox ++ [(senderId, isolated)] }

/-- `recv`; nothing if it has to wait. -/
def recv (T : InMemoryTransport) :
    Option (Except TransportError ((Str × Message) × InMemoryTransport)) :=
  match T.inbox with
  | x :: rest => some (.ok (x, { T with inbox := rest }))
  | [] =>
    if T.closed then some (.error (.runtimeError (str "Transport " ++ T.nodeId ++ str " is closed")))
    else none

end InMemoryTransport

/-! ## The network -/

/-- A message that sleeps in `route_message`, with the transport that was looked up for it. -/
structure Packet where
  source : Str
  target : Str
  transport : ℕ
  msg : Message

structure SimNetwork where
  objects : List InMemoryTransport
  transports : Dict Str ℕ
  blockedLinks : Finset (Str × Str)
  hasRng : Bool
  dropRate : ℚ
  baseLatency : ℚ
  inTransit : List Packet

/-- What can happen in the network; `draw` is what `rng.random()` gives. -/
inductive SimEvent where
  | create (nodeId : Str) (security : SecurityConfig)
  | send (t : ℕ) (peerId : Str) (msg : Message) (draw : ℚ)
  | arrive (k : ℕ)
  | cancel (k : ℕ)
  | recv (t : ℕ)
  | close (t : ℕ)
  | partition (groupA groupB : Finset Str) (symmetric : Bool)
  | healPartition (groupA groupB : Finset Str) (symmetric : Bool)
  | healAll
  | tune (dropRate baseLatency : ℚ)

/-- The messages that are sent are ones that the annotations allow. -/
def SimEvent.WellFormed : SimEvent → Prop
  | .send _ _ msg _ => msg.WellFormed
  | _ => True

/-- The links of `partition` and `heal_partition`. -/
def SimNetwork.links (groupA groupB : Finset Str) (symmetric : Bool) : Finset (Str × Str) :=
  groupA ×ˢ groupB ∪ if symmetric then groupB ×ˢ groupA else ∅

/-- The event blocks the link. -/
def SimEvent.blocks (link : Str × Str) : SimEvent → Bool
  | .partition groupA groupB symmetric => link ∈ SimNetwork.links groupA groupB symmetric
  | _ => false

/-- The event opens the link. -/
def SimEvent.heals (link : Str × Str) : SimEvent → Bool
  | .healPartition groupA groupB symmetric => link ∈ SimNetwork.links groupA groupB symmetric
  | .healAll => true
  | _ => false

namespace SimNetwork

variable (R : Runtime)

/-- `SimNetwork(clock, rng)`. -/
def new (hasRng : Bool) : SimNetwork := ⟨[], .empty, ∅, hasRng, 0, 0, []⟩

/-- `InMemoryTransport(node_id, network, security)`, which registers itself. -/
def create (n : SimNetwork) (nodeId : Str) (security : SecurityConfig) : SimNetwork :=
  { n with
    objects := n.objects ++ [{ nodeId, security }]
    transports := n.transports.set nodeId n.objects.length }

def unregister (n : SimNetwork) (nodeId : Str) : SimNetwork :=
  { n with transports := n.transports.filter fun e => e.1 ≠ nodeId }

def partition (n : SimNetwork) (groupA groupB : Finset Str) (symmetric : Bool) : SimNetwork :=
  { n with blockedLinks := n.blockedLinks ∪ links groupA groupB symmetric }

def healPartition (n : SimNetwork) (groupA groupB : Finset Str) (symmetric : Bool) : SimNetwork :=
  { n with blockedLinks := n.blockedLinks \ links groupA groupB symmetric }

def healAll (n : SimNetwork) : SimNetwork := { n with blockedLinks := ∅ }

def isBlocked (n : SimNetwork) (source target : Str) : Bool := (source, target) ∈ n.blockedLinks

/-- `route_message` after the sleep. -/
def land (n : SimNetwork) (p : Packet) : SimNetwork × Option Exn :=
  if n.isBlocked p.source p.target then (n, none)
  else match n.objects[p.transport]? with
    | none => (n, none)
    | some T =>
      match T.deliverPacket R p.source p.msg with
      | .error e => (n, some e)
      | .ok T => ({ n with objects := n.objects.set p.transport T }, none)

/-- `route_message`, up to the sleep if there is one. -/
def routeMessage (n : SimNetwork) (source target : Str) (msg : Message) (draw : ℚ) :
    SimNetwork × Option Exn :=
  if n.isBlocked source target then (n, none)
  else if n.hasRng && 0 < n.dropRate && draw < n.dropRate then (n, none)
  else match n.transports.get target with
    | none => (n, none)
    | some t =>
      if 0 < n.baseLatency then
        ({ n with inTransit := n.inTransit ++ [⟨source, target, t, msg⟩] }, none)
      else n.land R ⟨source, target, t, msg⟩

/-- `send` of a transport. -/
def send (n : SimNetwork) (T : InMemoryTransport) (peerId : Str) (msg : Message) (draw : ℚ) :
    SimNetwork × Option TransportError :=
  if T.closed then
    (n, some (.runtimeError (str "Cannot send on closed transport: " ++ T.nodeId)))
  else
    let r := n.routeMessage R T.nodeId peerId msg draw
    (r.1, r.2.map .other)

/-- `close` of a transport: whatever is registered under its id is unregistered. -/
def close (n : SimNetwork) (t : ℕ) (T : InMemoryTransport) : SimNetwork :=
  { n with objects := n.objects.set t { T with closed := true } }.unregister T.nodeId

/-- One step; an event that is not enabled changes nothing. -/
def step (n : SimNetwork) : SimEvent → SimNetwork
  | .create nodeId security => n.create nodeId security
  | .send t peerId msg draw =>
    match n.objects[t]? with
    | none => n
    | some T => (n.send R T peerId msg draw).1
  | .arrive k =>
    match n.inTransit[k]? with
    | none => n
    | some p => ({ n with inTransit := n.inTransit.eraseIdx k }.land R p).1
  -- the task that sleeps is cancelled
  | .cancel k => { n with inTransit := n.inTransit.eraseIdx k }
  | .recv t =>
    match n.objects[t]? with
    | none => n
    | some T =>
      match T.recv with
      | some (.ok (_, T)) => { n with objects := n.objects.set t T }
      | _ => n
  | .close t =>
    match n.objects[t]? with
    | none => n
    | some T => n.close t T
  | .partition groupA groupB symmetric => n.partition groupA groupB symmetric
  | .healPartition groupA groupB symmetric => n.healPartition groupA groupB symmetric
  | .healAll => n.healAll
  | .tune dropRate baseLatency => { n with dropRate, baseLatency }

/-- What a step takes out of an inbox: source, target and message. -/
def received (n : SimNetwork) : SimEvent → List (Str × Str × Message)
  | .recv t =>
    match n.objects[t]? with
    | none => []
    | some T => (T.inbox.head?.map fun x => (x.1, T.nodeId, x.2)).toList
  | _ => []

/-- What a step hands to the network, as it is on the wire. -/
def sent (n : SimNetwork) : SimEvent → List (Str × Str × Message)
  | .send t peerId msg _ =>
    match n.objects[t]? with
    | none => []
    | some T => if T.closed then [] else [(T.nodeId, peerId, msg.canon)]
  | _ => []

/-! ## What a transport takes -/

section
variable {R} {T T' : InMemoryTransport} {m : Message} {senderId : Str}

/-- A transport takes the message as it is on the wire, or nothing. -/
theorem deliverPacket_ok (hm : m.WellFormed) (h : T.deliverPacket R senderId m = .ok T') :
    T' = T ∨ T.closed = false ∧ T.inbox.length < T.security.maxInboxSize ∧
      T' = { T with inbox := T.inbox ++ [(senderId, m.canon)] } := by
  unfold InMemoryTransport.deliverPacket at h
  by_cases hc : T.closed = true
  · rw [if_pos hc] at h
    exact Or.inl (Except.ok.inj h).symm
  rw [if_neg hc] at h
  obtain ⟨data, hd, h⟩ := bind_eq_ok.1 h
  obtain ⟨isolated, hi, h⟩ := bind_eq_ok.1 h
  split_ifs at h with hfull
  · exact Or.inl (Except.ok.inj h).symm
  obtain ⟨hh, hv, hwrites, hlen, hdrop⟩ := Message.toBytes_ok hd
  rw [hdrop, Message.fromBytes_text hm hh hwrites hlen ((validateJsonTree_ok_iff _).1 hv).1] at hi
  rw [hi.2] at h
  exact Or.inr ⟨by simpa using hc, not_le.1 hfull, (Except.ok.inj h).symm⟩

end

/-! ## Invariants -/

/-- The ids of the transports. -/
def ids (n : SimNetwork) : List Str := n.objects.map InMemoryTransport.nodeId

/-- A transport is registered under its own id, what is on its way goes to a transport with the id
    of its target, and no inbox has more than it may. -/
structure Sound (n : SimNetwork) : Prop where
  registered : ∀ nodeId t, n.transports.get nodeId = some t → n.ids[t]? = some nodeId
  bound : ∀ p ∈ n.inTransit, n.ids[p.transport]? = some p.target
  wellFormed : ∀ p ∈ n.inTransit, p.msg.WellFormed
  room : ∀ T ∈ n.objects, T.inbox.length ≤ T.security.maxInboxSize

section
variable {R} {n : SimNetwork} {p : Packet} {t : ℕ} {T T' : InMemoryTransport}

theorem ids_set (ht : n.objects[t]? = some T) (hT : T'.nodeId = T.nodeId) :
    (n.objects.set t T').map InMemoryTransport.nodeId = n.ids := by
  rw [List.map_set, hT, ids]
  obtain ⟨hlt, rfl⟩ := List.getElem?_eq_some_iff.1 ht
  refine List.ext_getElem? fun i => ?_
  rw [List.getElem?_set]
  split_ifs with hi hlen
  · rw [← hi, List.getElem?_map, ht]; rfl
  · simp [hlt] at hlen
  · rfl

/-- One more message in an inbox. -/
def put (n : SimNetwork) (t : ℕ) (T : InMemoryTransport) (x : Str × Message) : SimNetwork :=
  { n with objects := n.objects.set t { T with inbox := T.inbox ++ [x] } }

/-- Where a message lands: in the inbox that it is bound for, over an open link, or nowhere. -/
theorem land_cases (hm : p.msg.WellFormed) : (n.land R p).1 = n ∨ ∃ T,
    n.objects[p.transport]? = some T ∧ T.inbox.length < T.security.maxInboxSize ∧
    (p.source, p.target) ∉ n.blockedLinks ∧
    (n.land R p).1 = n.put p.transport T (p.source, p.msg.canon) := by
  unfold land
  by_cases hb : n.isBlocked p.source p.target = true
  · exact Or.inl (by rw [if_pos hb])
  rw [if_neg hb]
  cases hT : n.objects[p.transport]? with
  | none => exact Or.inl rfl
  | some T =>
    simp only
    cases hd : T.deliverPacket R p.source p.msg with
    | error e => exact Or.inl rfl
    | ok T' =>
      obtain rfl | ⟨-, hroom, rfl⟩ := deliverPacket_ok hm hd
      · left
        obtain ⟨hlt, rfl⟩ := List.getElem?_eq_some_iff.1 hT
        simp only [List.set_getElem_self]
      · exact Or.inr ⟨T, rfl, hroom, by simpa [isBlocked] using hb, rfl⟩

/-- What `route_message` does: nothing, or the message is put to sleep or lands. -/
theorem routeMessage_cases (source target : Str) (msg : Message) (draw : ℚ) :
    (n.routeMessage R source target msg draw).1 = n ∨ ∃ t, n.transports.get target = some t ∧
      (source, target) ∉ n.blockedLinks ∧
      ((n.routeMessage R source target msg draw).1 =
          { n with inTransit := n.inTransit ++ [⟨source, target, t, msg⟩] } ∨
        (n.routeMessage R source target msg draw).1 = (n.land R ⟨source, target, t, msg⟩).1) := by
  unfold routeMessage
  by_cases hb : n.isBlocked source target = true
  · exact Or.inl (by rw [if_pos hb])
  rw [if_neg hb]
  by_cases hd : (n.hasRng && 0 < n.dropRate && draw < n.dropRate) = true
  · exact Or.inl (by rw [if_pos hd])
  rw [if_neg hd]
  cases ht : n.transports.get target with
  | none => exact Or.inl rfl
  | some t =>
    refine Or.inr ⟨t, rfl, by simpa [isBlocked] using hb, ?_⟩
    simp only
    split_ifs
    · exact Or.inl rfl
    · exact Or.inr rfl

theorem Sound.set (h : n.Sound) (ht : n.objects[t]? = some T) (hT : T'.nodeId = T.nodeId)
    (hroom : T'.inbox.length ≤ T'.security.maxInboxSize) :
    Sound { n with objects := n.objects.set t T' } where
  registered nodeId k hk := by
    rw [ids, ids_set ht hT]
    exact h.registered nodeId k hk
  bound p hp := by
    rw [ids, ids_set ht hT]
    exact h.bound p hp
  wellFormed := h.wellFormed
  room T₁ hT₁ := by
    obtain hT₁ | rfl := List.mem_or_eq_of_mem_set hT₁
    · exact h.room T₁ hT₁
    · exact hroom

theorem Sound.put (h : n.Sound) (ht : n.objects[t]? = some T)
    (hroom : T.inbox.length < T.security.maxInboxSize) (x : Str × Message) : (n.put t T x).Sound :=
  h.set ht rfl (by simpa using hroom)

theorem Sound.land (h : n.Sound) (hm : p.msg.WellFormed) : (n.land R p).1.Sound := by
  obtain hl | ⟨T, hT, hroom, -, hl⟩ := land_cases (R := R) (n := n) hm <;> rw [hl]
  · exact h
  · exact h.put hT hroom _

theorem Sound.fly (h : n.Sound) {l : List Packet}
    (hl : ∀ p ∈ l, p ∈ n.inTransit ∨ n.ids[p.transport]? = some p.target ∧ p.msg.WellFormed) :
    Sound { n with inTransit := l } where
  registered := h.registered
  bound p hp := (hl p hp).elim (h.bound p) And.left
  wellFormed p hp := (hl p hp).elim (h.wellFormed p) And.right
  room := h.room

theorem ids_create (nodeId : Str) (security : SecurityConfig) :
    (n.create nodeId security).ids = n.ids ++ [nodeId] := by
  simp [ids, SimNetwork.create]

theorem Sound.create (h : n.Sound) (nodeId : Str) (security : SecurityConfig) :
    (n.create nodeId security).Sound where
  registered nodeId' t ht := by
    rw [ids_create]
    simp only [SimNetwork.create, Dict.get_set] at ht
    split_ifs at ht with hn
    · obtain rfl := Option.some.inj ht
      simp [ids, hn]
    · have := h.registered nodeId' t ht
      rw [List.getElem?_append_left (List.getElem?_eq_some_iff.1 this).1]
      exact this
  bound p hp := by
    have := h.bound p hp
    rw [ids_create, List.getElem?_append_left (List.getElem?_eq_some_iff.1 this).1]
    exact this
  wellFormed := h.wellFormed
  room T hT := by
    rcases List.mem_append.1 hT with hT | hT
    · exact h.room T hT
    · rw [List.mem_singleton.1 hT]
      exact Nat.zero_le _

theorem Sound.unregister (h : n.Sound) (nodeId : Str) : (n.unregister nodeId).Sound where
  registered nodeId' t ht := h.registered nodeId' t (Dict.get_filter.1 ht).1
  bound := h.bound
  wellFormed := h.wellFormed
  room := h.room

theorem sound_new (hasRng : Bool) : (new hasRng).Sound where
  registered nodeId t ht := by simp [new] at ht
  bound p hp := by cases hp
  wellFormed p hp := by cases hp
  room T hT := by cases hT

/-- **The network stays sound.** -/
theorem Sound.step (h : n.Sound) {e : SimEvent} (he : e.WellFormed) : (n.step R e).Sound := by
  cases e with
  | create nodeId security => exact h.create nodeId security
  | send t peerId msg draw =>
    simp only [SimNetwork.step]
    cases ht : n.objects[t]? with
    | none => exact h
    | some T =>
      simp only [send]
      split_ifs
      · exact h
      obtain hr | ⟨k, hk, -, hr | hr⟩ :=
        routeMessage_cases (R := R) (n := n) T.nodeId peerId msg draw <;> simp only [hr]
      · exact h
      · refine h.fly fun p hp => ?_
        rcases List.mem_append.1 hp with hp | hp
        · exact Or.inl hp
        · rw [List.mem_singleton.1 hp]
          exact Or.inr ⟨h.registered _ _ hk, he⟩
      · exact h.land he
  | arrive k =>
    simp only [SimNetwork.step]
    cases hk : n.inTransit[k]? with
    | none => exact h
    | some p =>
      exact (h.fly fun q hq => Or.inl (List.mem_of_mem_eraseIdx hq)).land
        (h.wellFormed p (List.mem_of_getElem? hk))
  | cancel k => exact h.fly fun q hq => Or.inl (List.mem_of_mem_eraseIdx hq)
  | recv t =>
    simp only [SimNetwork.step]
    cases ht : n.objects[t]? with
    | none => exact h
    | some T =>
      simp only [InMemoryTransport.recv]
      cases hx : T.inbox with
      | nil => cases T.closed <;> exact h
      | cons x rest =>
        refine h.set ht rfl ?_
        have := h.room T (List.mem_of_getElem? ht)
        rw [hx] at this
        exact (Nat.le_succ _).trans this
  | close t =>
    simp only [SimNetwork.step]
    cases ht : n.objects[t]? with
    | none => exact h
    | some T =>
      have hset : Sound { n with objects := n.objects.set t { T with closed := true } } :=
        h.set ht rfl (h.room T (List.mem_of_getElem? ht))
      exact hset.unregister _
  | partition => exact ⟨h.registered, h.bound, h.wellFormed, h.room⟩
  | healPartition => exact ⟨h.registered, h.bound, h.wellFormed, h.room⟩
  | healAll => exact ⟨h.registered, h.bound, h.wellFormed, h.room⟩
  | tune => exact ⟨h.registered, h.bound, h.wellFormed, h.room⟩

end

/-! ## Conservation -/

/-- A message on its way, as it is on the wire. -/
def image (p : Packet) : Str × Str × Message := (p.source, p.target, p.msg.canon)

/-- The messages in an inbox. -/
def waiting (T : InMemoryTransport) : Multiset (Str × Str × Message) :=
  T.inbox.map fun x => (x.1, T.nodeId, x.2)

/-- The messages on their way and in the inboxes. -/
def cargo (n : SimNetwork) : Multiset (Str × Str × Message) :=
  (n.inTransit.map image : Multiset _) + (n.objects.map waiting).sum

theorem sum_map_set {α M : Type} [AddCommMonoid M] (f : α → M) {a b : α} :
    ∀ {l : List α} {i : ℕ}, l[i]? = some a → ((l.set i b).map f).sum + f a = (l.map f).sum + f b
  | x :: l, 0, h => by
    obtain rfl := Option.some.inj h
    simp only [List.set_cons_zero, List.map_cons, List.sum_cons]
    abel
  | x :: l, i + 1, h => by
    have ih := sum_map_set f (l := l) (i := i) (b := b) h
    simp only [List.set_cons_succ, List.map_cons, List.sum_cons, add_assoc, ih]

section
variable {R} {n : SimNetwork} {p : Packet} {t : ℕ} {T T' : InMemoryTransport}

theorem cargo_set (ht : n.objects[t]? = some T) (T' : InMemoryTransport) :
    cargo { n with objects := n.objects.set t T' } + waiting T = n.cargo + waiting T' := by
  simp only [cargo, add_assoc, sum_map_set waiting ht]

theorem cargo_put (ht : n.objects[t]? = some T) (x : Str × Message) :
    (n.put t T x).cargo = n.cargo + {(x.1, T.nodeId, x.2)} := by
  have hw : waiting { T with inbox := T.inbox ++ [x] } = waiting T + {(x.1, T.nodeId, x.2)} := by
    simp only [waiting, List.map_append, ← Multiset.coe_add]
    rfl
  refine add_right_cancel (b := waiting T) ?_
  rw [put, cargo_set ht, hw, add_right_comm, add_assoc]

theorem cargo_land (hm : p.msg.WellFormed) (hb : n.ids[p.transport]? = some p.target) :
    (n.land R p).1.cargo ≤ n.cargo + {image p} := by
  obtain hl | ⟨T, hT, -, -, hl⟩ := land_cases (R := R) (n := n) hm <;> rw [hl]
  · exact Multiset.le_add_right _ _
  · have hid : T.nodeId = p.target := by
      simpa [ids, hT] using hb
    rw [cargo_put hT, hid]
    exact le_rfl

theorem cargo_erase {k : ℕ} (hk : n.inTransit[k]? = some p) :
    cargo { n with inTransit := n.inTransit.eraseIdx k } + {image p} = n.cargo := by
  obtain ⟨hlt, rfl⟩ := List.getElem?_eq_some_iff.1 hk
  have hperm := Multiset.coe_eq_coe.2 ((List.getElem_cons_eraseIdx_perm hlt).map image)
  rw [List.map_cons, ← Multiset.cons_coe, ← Multiset.singleton_add] at hperm
  simp only [cargo, ← hperm]
  abel

theorem cargo_erase_le (k : ℕ) : cargo { n with inTransit := n.inTransit.eraseIdx k } ≤ n.cargo :=
  add_le_add_left (Multiset.coe_le.2 ((List.eraseIdx_sublist _ _).map image).subperm) _

/-- **The network neither invents nor repeats a message**: what a step takes out of an inbox and what
    is there afterwards was there before or is sent in the step. -/
theorem step_conserves (h : n.Sound) {e : SimEvent} (he : e.WellFormed) :
    (n.received e : Multiset _) + (n.step R e).cargo ≤ n.cargo + (n.sent e : Multiset _) := by
  cases e with
  | create nodeId security =>
    simp [received, sent, step, create, cargo, waiting]
  | send t peerId msg draw =>
    simp only [received, sent, step]
    cases ht : n.objects[t]? with
    | none => simp
    | some T =>
      simp only [send]
      split_ifs
      · simp
      obtain hr | ⟨k, hk, -, hr | hr⟩ :=
        routeMessage_cases (R := R) (n := n) T.nodeId peerId msg draw <;> simp only [hr]
      · simp
      · simp [cargo, image, ← Multiset.coe_add, add_right_comm]
      · simpa [image] using
          cargo_land (R := R) (p := ⟨T.nodeId, peerId, k, msg⟩) he (h.registered _ _ hk)
  | arrive k =>
    simp only [received, sent, step]
    cases hk : n.inTransit[k]? with
    | none => simp
    | some p =>
      have hp := List.mem_of_getElem? hk
      simpa [cargo_erase hk] using
        cargo_land (R := R) (n := { n with inTransit := n.inTransit.eraseIdx k })
          (h.wellFormed p hp) (h.bound p hp)
  | cancel k => simpa [received, sent, step] using cargo_erase_le k
  | recv t =>
    simp only [received, sent, step]
    cases ht : n.objects[t]? with
    | none => simp
    | some T =>
      simp only [InMemoryTransport.recv]
      cases hx : T.inbox with
      | nil => cases T.closed <;> simp
      | cons x rest =>
        have hw : waiting T = {(x.1, T.nodeId, x.2)} + waiting { T with inbox := rest } := by
          simp [waiting, hx]
        have hset := cargo_set ht { T with inbox := rest }
        rw [hw, ← add_assoc] at hset
        simpa [add_comm] using (add_right_cancel hset).le
  | close t =>
    simp only [received, sent, step]
    cases ht : n.objects[t]? with
    | none => simp
    | some T =>
      have hc : (n.close t T).cargo = n.cargo := add_right_cancel (cargo_set ht { T with closed := true })
      simp [hc]
  | partition | healPartition | healAll | tune => exact (add_comm (0 : Multiset _) n.cargo).le

end

/-! ## Partitions -/

/-- The messages of a peer in the inbox of a transport. -/
def heard (n : SimNetwork) (t : ℕ) (source : Str) : List (Str × Message) :=
  (n.objects[t]?.map InMemoryTransport.inbox).getD [] |>.filter fun x => x.1 = source

section
variable {R} {n : SimNetwork} {p : Packet} {t k : ℕ} {T T' : InMemoryTransport} {source target : Str}

theorem heard_set (ht : n.objects[k]? = some T) (T' : InMemoryTransport) :
    heard { n with objects := n.objects.set k T' } t source =
      if t = k then T'.inbox.filter (fun x => x.1 = source) else n.heard t source := by
  have hlt := (List.getElem?_eq_some_iff.1 ht).1
  by_cases htk : t = k
  · simp [heard, htk, hlt]
  · simp [heard, htk, List.getElem?_set_ne (Ne.symm htk)]

theorem heard_land (hm : p.msg.WellFormed) (hp : n.ids[p.transport]? = some p.target)
    (hb : (source, target) ∈ n.blockedLinks) (ht : n.ids[t]? = some target) :
    (n.land R p).1.heard t source = n.heard t source := by
  obtain hl | ⟨T, hT, -, hopen, hl⟩ := land_cases (R := R) (n := n) hm <;> rw [hl]
  rw [put, heard_set hT]
  split_ifs with htk
  · subst htk
    obtain rfl : p.target = target := Option.some.inj (hp.symm.trans ht)
    have hne : p.source ≠ source := by
      rintro rfl
      exact hopen hb
    simp [heard, hT, List.filter_append, hne]
  · rfl

theorem land_blockedLinks : (n.land R p).1.blockedLinks = n.blockedLinks := by
  unfold land
  split_ifs
  · rfl
  · split
    · rfl
    · split <;> rfl

theorem routeMessage_blockedLinks {msg : Message} {draw : ℚ} :
    (n.routeMessage R source target msg draw).1.blockedLinks = n.blockedLinks := by
  obtain hr | ⟨t, -, -, hr | hr⟩ := routeMessage_cases (R := R) (n := n) source target msg draw <;>
    rw [hr]
  exact land_blockedLinks

/-- Links are blocked and opened by `partition`, `heal_partition` and `heal_all` only. -/
theorem step_blockedLinks {e : SimEvent} {link : Str × Str} :
    link ∈ (n.step R e).blockedLinks ↔
      e.blocks link = true ∨ link ∈ n.blockedLinks ∧ e.heals link = false := by
  have hkeep : ∀ {n' : SimNetwork}, n'.blockedLinks = n.blockedLinks → e.blocks link = false →
      e.heals link = false → (link ∈ n'.blockedLinks ↔
        e.blocks link = true ∨ link ∈ n.blockedLinks ∧ e.heals link = false) := by
    intro n' h hb hh
    simp [h, hb, hh]
  cases e with
  | create => exact hkeep rfl rfl rfl
  | send t peerId msg draw =>
    refine hkeep ?_ rfl rfl
    simp only [step]
    split
    · rfl
    · simp only [send]
      split_ifs
      · rfl
      · exact routeMessage_blockedLinks
  | arrive k =>
    refine hkeep ?_ rfl rfl
    simp only [step]
    split
    · rfl
    · exact land_blockedLinks
  | cancel => exact hkeep rfl rfl rfl
  | recv t =>
    refine hkeep ?_ rfl rfl
    simp only [step]
    split
    · rfl
    · split <;> rfl
  | close t =>
    refine hkeep ?_ rfl rfl
    simp only [step]
    split <;> rfl
  | partition groupA groupB symmetric =>
    simp [step, partition, SimEvent.blocks, SimEvent.heals, or_comm]
  | healPartition groupA groupB symmetric =>
    simp [step, healPartition, SimEvent.blocks, SimEvent.heals]
  | healAll => simp [step, healAll, SimEvent.blocks, SimEvent.heals]
  | tune => exact hkeep rfl rfl rfl

theorem land_ids (hm : p.msg.WellFormed) : (n.land R p).1.ids = n.ids := by
  obtain hl | ⟨T, hT, -, -, hl⟩ := land_cases (R := R) (n := n) hm <;> rw [hl]
  exact ids_set hT rfl

/-- The transport that an event creates. -/
def created : SimEvent → List Str
  | .create nodeId _ => [nodeId]
  | _ => []

/-- A transport keeps its id. -/
theorem step_ids (h : n.Sound) {e : SimEvent} (he : e.WellFormed) :
    (n.step R e).ids = n.ids ++ created e := by
  cases e with
  | create nodeId security => exact ids_create nodeId security
  | send t peerId msg draw =>
    refine Eq.trans ?_ (List.append_nil _).symm
    simp only [step]
    split
    · rfl
    next T hT =>
    simp only [send]
    split_ifs
    · rfl
    obtain hr | ⟨t, -, -, hr | hr⟩ :=
      routeMessage_cases (R := R) (n := n) T.nodeId peerId msg draw <;> simp only [hr]
    · rfl
    · exact land_ids he
  | arrive k =>
    refine Eq.trans ?_ (List.append_nil _).symm
    simp only [step]
    split
    · rfl
    next p hp => exact land_ids (h.wellFormed p (List.mem_of_getElem? hp))
  | recv t =>
    refine Eq.trans ?_ (List.append_nil _).symm
    simp only [step]
    split
    · rfl
    next T hT =>
    simp only [InMemoryTransport.recv]
    cases T.inbox with
    | nil => cases T.closed <;> rfl
    | cons x rest => exact ids_set hT rfl
  | close t =>
    refine Eq.trans ?_ (List.append_nil _).symm
    simp only [step]
    split
    · rfl
    next T hT => exact ids_set hT rfl
  | cancel | partition | healPartition | healAll | tune => exact (List.append_nil _).symm

/-- **Nothing comes in over a blocked link**, not even what was on its way. -/
theorem step_heard (h : n.Sound) {e : SimEvent} (he : e.WellFormed)
    (hb : (source, target) ∈ n.blockedLinks) (ht : (n.step R e).ids[t]? = some target) :
    (n.step R e).heard t source <:+ n.heard t source := by
  rw [step_ids h he] at ht
  cases e with
  | create nodeId security =>
    simp only [step, heard, create]
    rcases lt_trichotomy t n.objects.length with hlt | rfl | hlt
    · rw [List.getElem?_append_left hlt]
    · simp
    · rw [List.getElem?_eq_none (by simpa using hlt)]
      exact List.nil_suffix
  | send k peerId msg draw =>
    replace ht : n.ids[t]? = some target := by simpa [created] using ht
    simp only [step]
    split
    · exact List.suffix_rfl
    next T hT =>
    simp only [send]
    split_ifs
    · exact List.suffix_rfl
    obtain hr | ⟨j, hj, -, hr | hr⟩ :=
      routeMessage_cases (R := R) (n := n) T.nodeId peerId msg draw <;> simp only [hr]
    · exact List.suffix_rfl
    · exact List.suffix_rfl
    · rw [heard_land (p := ⟨T.nodeId, peerId, j, msg⟩) he (h.registered _ _ hj) hb ht]
  | arrive k =>
    replace ht : n.ids[t]? = some target := by simpa [created] using ht
    simp only [step]
    split
    · exact List.suffix_rfl
    next p hp =>
    have hmem := List.mem_of_getElem? hp
    have hl := heard_land (R := R) (n := { n with inTransit := n.inTransit.eraseIdx k })
      (h.wellFormed p hmem) (h.bound p hmem) hb ht
    rw [hl]
    exact List.suffix_rfl
  | recv k =>
    simp only [step]
    split
    · exact List.suffix_rfl
    next T hT =>
    simp only [InMemoryTransport.recv]
    cases hx : T.inbox with
    | nil => cases T.closed <;> exact List.suffix_rfl
    | cons x rest =>
      simp only [heard_set hT]
      split_ifs with htk
      · subst htk
        simp only [heard, hT, hx, Option.map_some, Option.getD_some, List.filter_cons]
        split_ifs
        exacts [List.suffix_cons _ _, List.suffix_rfl]
      · exact List.suffix_rfl
  | close k =>
    simp only [step]
    split
    · exact List.suffix_rfl
    next T hT =>
    have hc : (n.close k T).heard t source = n.heard t source := by
      show heard { n with objects := n.objects.set k { T with closed := true } } t source = _
      rw [heard_set hT]
      split_ifs with htk
      · simp [heard, htk, hT]
      · rfl
    rw [hc]
  | cancel | partition | healPartition | healAll | tune => exact List.suffix_rfl

theorem run_ids {es : List SimEvent} (h : n.Sound) (hes : ∀ e ∈ es, e.WellFormed) :
    n.ids <+: (run (step R) n es).ids := by
  induction es generalizing n with
  | nil => exact List.prefix_rfl
  | cons e es ih =>
    have he := hes e (by simp)
    refine List.IsPrefix.trans ?_ (ih (h.step he) fun f hf => hes f (by simp [hf]))
    rw [step_ids h he]
    exact List.prefix_append _ _

theorem run_heard {es : List SimEvent} (h : n.Sound) (hes : ∀ e ∈ es, e.WellFormed)
    (hb : (source, target) ∈ n.blockedLinks) (hheal : ∀ e ∈ es, e.heals (source, target) = false)
    (ht : (run (step R) n es).ids[t]? = some target) :
    (run (step R) n es).heard t source <:+ n.heard t source := by
  induction es generalizing n with
  | nil => exact List.suffix_rfl
  | cons e es ih =>
    have he := hes e (by simp)
    have hes' : ∀ f ∈ es, f.WellFormed := fun f hf => hes f (by simp [hf])
    have hnext := ih (h.step he) hes' (step_blockedLinks.2 (Or.inr ⟨hb, hheal e (by simp)⟩))
      (fun f hf => hheal f (by simp [hf])) ht
    by_cases hlt : t < (n.step R e).ids.length
    · refine hnext.trans (step_heard h he hb ?_)
      obtain ⟨more, hmore⟩ := run_ids (R := R) (h.step (R := R) he) hes'
      rw [← ht, run_cons, ← hmore, List.getElem?_append_left hlt]
    · -- the transport is created later
      have hnone : (n.step R e).heard t source = [] := by
        rw [heard, List.getElem?_eq_none (by simpa [ids] using hlt)]
        rfl
      rw [hnone, List.suffix_nil] at hnext
      rw [run_cons, hnext]
      exact List.nil_suffix

theorem run_blocked {es : List SimEvent} {link : Str × Str} (hb : link ∈ n.blockedLinks)
    (hheal : ∀ e ∈ es, e.heals link = false) : link ∈ (run (step R) n es).blockedLinks := by
  induction es generalizing n with
  | nil => exact hb
  | cons e es ih =>
    exact ih (step_blockedLinks.2 (Or.inr ⟨hb, hheal e (by simp)⟩)) fun f hf => hheal f (by simp [hf])

/-- A link is blocked if it was partitioned and not healed since. -/
theorem mem_blockedLinks_run {hasRng : Bool} {link : Str × Str} (es : List SimEvent) :
    link ∈ (run (step R) (new hasRng) es).blockedLinks ↔ ∃ pre e post, es = pre ++ e :: post ∧
      e.blocks link = true ∧ ∀ f ∈ post, f.heals link = false := by
  constructor
  · intro h
    induction es using List.reverseRecOn with
    | nil => simp [new] at h
    | append_singleton es e ih =>
      rw [run_concat, step_blockedLinks] at h
      obtain he | ⟨hlink, he⟩ := h
      · exact ⟨es, e, [], rfl, he, by simp⟩
      · obtain ⟨pre, e', post, rfl, hb, hpost⟩ := ih hlink
        refine ⟨pre, e', post ++ [e], by simp, hb, fun f hf => ?_⟩
        rcases List.mem_append.1 hf with hf | hf
        · exact hpost f hf
        · rw [List.mem_singleton.1 hf]
          exact he
  · rintro ⟨pre, e, post, rfl, hb, hpost⟩
    rw [run_append, run_cons]
    exact run_blocked (step_blockedLinks.2 (Or.inl hb)) hpost

theorem sound_run {es : List SimEvent} (h : n.Sound) (hes : ∀ e ∈ es, e.WellFormed) :
    (run (step R) n es).Sound :=
  Along.invariant (fun _ _ hn he => hn.step he) h (Along.of_mem hes)

end

/-- **A partition holds until it is healed**: in every run of the network a link is blocked exactly
    if some event has cut it and none has healed it since, and from the cut on no message of the
    source comes into an inbox of the target, whether it was on its way at the cut or is sent
    later. -/
theorem partition_isolates (hasRng : Bool) {es : List SimEvent} (hes : ∀ e ∈ es, e.WellFormed)
    (source target : Str) :
    ((run (step R) (new hasRng) es).isBlocked source target = true ↔ ∃ pre e post,
      es = pre ++ e :: post ∧ e.blocks (source, target) = true ∧
        ∀ f ∈ post, f.heals (source, target) = false) ∧
    ∀ pre e post, es = pre ++ e :: post → e.blocks (source, target) = true →
      (∀ f ∈ post, f.heals (source, target) = false) → ∀ t : ℕ,
      (run (step R) (new hasRng) es).ids[t]? = some target →
      (run (step R) (new hasRng) es).heard t source <:+ (run (step R) (new hasRng) pre).heard t source := by
  refine ⟨?_, ?_⟩
  · rw [isBlocked, decide_eq_true_iff, mem_blockedLinks_run]
  rintro pre e post rfl hblock hheal t ht
  have hpre : ∀ f ∈ pre, f.WellFormed := fun f hf => hes f (by simp [hf])
  have hpost : ∀ f ∈ post, f.WellFormed := fun f hf => hes f (by simp [hf])
  have hsound := sound_run (R := R) (sound_new hasRng) hpre
  have hcut : (run (step R) (new hasRng) (pre ++ [e])).heard t source =
      (run (step R) (new hasRng) pre).heard t source := by
    rw [run_concat]
    cases e <;> first | rfl | cases hblock
  rw [← hcut, run_concat]
  rw [run_append, run_cons] at ht ⊢
  exact run_heard (hsound.step (hes e (by simp))) hpost (step_blockedLinks.2 (Or.inl hblock)) hheal ht

namespace Sample

/-- A message is on its way from `a` to `b`. -/
def inFlight : List SimEvent :=
  [.create (str "a") .default, .create (str "b") .default, .tune 0 1,
   .send 0 (str "b") (Message.Sample.heartbeat 0) 0]

def cut : SimEvent := .partition {str "a"} {str "b"} true

theorem inFlight_wellFormed : ∀ e ∈ inFlight ++ cut :: [.arrive 0], e.WellFormed := by
  intro e he
  simp only [inFlight, cut, List.cons_append, List.nil_append, List.mem_cons, List.not_mem_nil,
    or_false] at he
  rcases he with rfl | rfl | rfl | rfl | rfl | rfl
  case inr.inr.inr.inl => exact Message.Sample.heartbeat_wellFormed 0
  all_goals trivial

end Sample

theorem partition_isolates_inFlight :
    (run (step (.ofScheme .suffix)) (new false) Sample.inFlight).inTransit.length = 1 ∧
    (run (step (.ofScheme .suffix)) (new false) (Sample.inFlight ++ Sample.cut :: [.arrive 0])).heard 1
      (str "a") = [] := by
  refine ⟨by decide +kernel, ?_⟩
  have h := (partition_isolates (.ofScheme .suffix) false Sample.inFlight_wellFormed (str "a")
    (str "b")).2 Sample.inFlight Sample.cut [.arrive 0] rfl (by decide +kernel) (by simp [SimEvent.heals])
    1 (by decide +kernel)
  have hbefore : (run (step (.ofScheme .suffix)) (new false) Sample.inFlight).heard 1 (str "a") = [] := by
    decide +kernel
  rw [hbefore] at h
  exact List.suffix_nil.1 h

end SimNetwork

end PeerQ
