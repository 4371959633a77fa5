/-
  The TCP transport (`TcpTransport` of `peerq/transport.py`): what goes out.

  Calls of `send` run side by side.  Each uses a connection that is registered
  for its peer, or opens one: it connects, greets, waits for the answer, registers
  the connection and writes its frame.  A step is what a call does up to its next
  `await`, or something that happens to a connection.

  A secure transport writes nothing but a hello before the peer has answered with
  a signed message, and only messages of its own node (`outgoing_authenticated`).
  The limit on the connections is checked before the awaits, so calls side by side
  exceed it, by one less than their number at most (`pool_bounded`).
-/
import PeerQ.Transport.Connections

namespace PeerQ

open Py

/-! ## Configuration and state -/

/-- A transport with the peers whose addresses it has. -/
structure TcpClient (R : Runtime) extends TcpTransport R where
  peerAddresses : Finset Str

/-- What `send` raises. -/
inductive SendError where
  | runtimeError (msg : Str)
  | permissionError (msg : Str)
  | valueError (msg : Str)
  | connectionError (msg : Str)
  | other (e : Exn)

/-- An outgoing connection with the octets that were written to it. -/
structure Link where
  peer : Str
  written : Bytes := []
  closing : Bool := false

/-- Where a call of `send` is suspended. -/
inductive SendCall where
  | connecting (peer : Str) (msg : Message)
  | greeting (link : ℕ) (msg : Message)
  | awaiting (link : ℕ) (msg : Message)
  | writing (link : ℕ)

/-- The call has passed the limit on the connections and has not registered its own yet. -/
def SendCall.isPending : SendCall → Bool
  | .writing _ => false
  | _ => true

/-- The connection whose handshake the call is in. -/
def SendCall.handshake : SendCall → Option ℕ
  | .greeting link _ | .awaiting link _ => some link
  | _ => none

/-- The message that the call is to write. -/
def SendCall.message : SendCall → Option Message
  | .connecting _ msg | .greeting _ msg | .awaiting _ msg => some msg
  | .writing _ => none

/-- Connections are named by the order in which they were opened. -/
structure ClientState where
  connections : Dict Str ℕ
  links : List Link
  calls : List SendCall
  closed : Bool

/-- What can happen to the outgoing side; a call is named by its place. -/
inductive ClientEvent where
  | send (peer : Str) (msg : Message) (now : ℚ)
  | opened (k : ℕ) (now : ℚ) (nonce : Str)
  | drained (k : ℕ)
  | answered (k : ℕ) (ack : Message) (cache : ReplayCache) (now : ℚ)
  | broken (k : ℕ) (e : SendError)
  | lost (link : ℕ)
  | close
  | closeConnections

namespace ClientState

/-- The number of calls that are about to register a connection. -/
def pending (s : ClientState) : ℕ := s.calls.countP SendCall.isPending

/-- The connections whose handshakes are under way. -/
def waiting (s : ClientState) : List ℕ := s.calls.filterMap SendCall.handshake

/-- The peers of the connections and what was written to them. -/
def views (s : ClientState) : List (Str × Bytes) := s.links.map fun l => (l.peer, l.written)

def initial : ClientState := ⟨.empty, [], [], false⟩

/-- The call at this place goes on. -/
def resume (s : ClientState) (k : ℕ) : ClientState := { s with calls := s.calls.eraseIdx k }

def suspend (s : ClientState) (call : SendCall) : ClientState := { s with calls := s.calls ++ [call] }

/-- `writer.write`. -/
def put (s : ClientState) (link : ℕ) (data : Bytes) : ClientState :=
  { s with links := s.links.modify link fun l => { l with written := l.written ++ data } }

/-- `writer.close`. -/
def shut (s : ClientState) (link : ℕ) : ClientState :=
  { s with links := s.links.modify link fun l => { l with closing := true } }

/-- `_connections.pop(peer_id, None)`. -/
def forget (s : ClientState) (peer : Str) : ClientState :=
  { s with connections := s.connections.filter fun e => e.1 ≠ peer }

/-- The registered connection of a peer, unless it is closing. -/
def usable (s : ClientState) (peer : Str) : Option ℕ :=
  (s.connections.get peer).filter fun link => s.links[link]?.any fun l => !l.closing

end ClientState

namespace TcpClient

variable {R : Runtime} (T : TcpClient R)

/-- A step with what it does on the connections, and what the call raises if it ends so. -/
structure Outcome where
  state : ClientState
  acts : List (ℕ × Act Str Message) := []
  raised : Option SendError := none

/-! ## A call of `send` -/

/-- `_verify_local_message`. -/
def verifyLocalMessage (msg : Message) (now : ℚ) : Except Exn Bool :=
  if msg.senderId ≠ T.nodeId ∨ msg.protocolVersion ≠ T.security.protocolVersion then .ok false
  else match msg.timestamp, msg.nonce with
    | some timestamp, some _ =>
      if T.security.replayWindowSeconds < |now - timestamp| then .ok false
      else msg.verifySignature R T.keyring
    | _, _ => .ok false

/-- `_write_frame` in `send`, up to the drain; if it raises, the registered connection of the peer
    is forgotten and the one at hand closed. -/
def writeFrame (s : ClientState) (peer : Str) (link : ℕ) (msg : Message) : Outcome :=
  match msg.toBytes R T.security.maxFrameSize with
  | .error e => ⟨(s.forget peer).shut link, [], some (.other e)⟩
  | .ok data => { state := (s.put link data).suspend (.writing link), acts := [(link, .delivered peer msg)] }

/-- `_get_or_connect` up to the `await`, and the write if there is none. -/
def getOrConnect (s : ClientState) (peer : Str) (msg : Message) : Outcome :=
  match s.usable peer with
  | some link => T.writeFrame s peer link msg
  | none =>
    if peer ∉ T.peerAddresses then
      ⟨s, [], some (.valueError (str "Unknown peer address for peer_id: " ++ peer))⟩
    else if T.security.maxConnections ≤ s.connections.size then
      ⟨s, [], some (.connectionError (str "TCP connection limit reached"))⟩
    else { state := s.suspend (.connecting peer msg) }

/-- The connection is registered, and `send` goes on. -/
def register (s : ClientState) (peer : Str) (link : ℕ) (msg : Message) : Outcome :=
  T.writeFrame { s with connections := s.connections.set peer link } peer link msg

def send (s : ClientState) (peer : Str) (msg : Message) (now : ℚ) : Outcome :=
  if s.closed then
    ⟨s, [], some (.runtimeError (str "Transport " ++ T.nodeId ++ str " is closed"))⟩
  else if T.security.enabled then
    match T.verifyLocalMessage msg now with
    | .error e => ⟨s, [], some (.other e)⟩
    | .ok false =>
      ⟨s, [], some (.permissionError (str "secure transport requires a locally signed message"))⟩
    | .ok true => T.getOrConnect s peer msg
  else T.getOrConnect s peer msg

/-- The hello of the handshake. -/
def hello (now : ℚ) (nonce : Str) : Except Exn Bytes := do
  let hello ← T.signedMessage (str "hello")
    [(str "protocol_version", .int T.security.protocolVersion)] now nonce
  hello.toBytes R T.security.maxFrameSize

/-- The connection is open; a secure transport greets. -/
def opened (s : ClientState) (peer : Str) (msg : Message) (now : ℚ) (nonce : Str) : Outcome :=
  let link := s.links.length
  let s := { s with links := s.links ++ [{ peer }] }
  if T.security.enabled then
    match T.hello now nonce with
    | .error e => ⟨s, [], some (.other e)⟩
    | .ok data => { state := (s.put link data).suspend (.greeting link msg) }
  else T.register s peer link msg

/-- The answer to the hello is read; an exception of the check is not caught. -/
def answered (s : ClientState) (link : ℕ) (l : Link) (msg ack : Message) (cache : ReplayCache) (now : ℚ) :
    Outcome :=
  let refused : Outcome := ⟨s.shut link, [],
    some (.permissionError (str "Peer " ++ l.peer ++ str " failed authenticated handshake"))⟩
  if ack.msgType ≠ str "hello_ack" ∨ T.sameVersion ack = false then refused
  else match (T.verifyMessage cache ack (some l.peer) now).2 with
    | .error e => ⟨s, [], some (.other e)⟩
    | .ok false => refused
    | .ok true =>
      let r := T.register s l.peer link msg
      { r with acts := (link, .opened l.peer ack) :: r.acts }

/-- The `await` of a call raises; only one in `_write_frame` of `send` is caught. -/
def broken (s : ClientState) (e : SendError) : SendCall → Outcome
  | .writing link =>
    match s.links[link]? with
    | none => { state := s }
    | some l => ⟨(s.forget l.peer).shut link, [], some e⟩
  | _ => ⟨s, [], some e⟩

/-! ## Steps -/

/-- One step; an event that is not enabled changes nothing. -/
def react (s : ClientState) : ClientEvent → Outcome
  | .send peer msg now => T.send s peer msg now
  | .opened k now nonce =>
    match s.calls[k]? with
    | some (.connecting peer msg) => T.opened (s.resume k) peer msg now nonce
    | _ => { state := s }
  | .drained k =>
    match s.calls[k]? with
    | some (.greeting link msg) => { state := (s.resume k).suspend (.awaiting link msg) }
    | some (.writing _) => { state := s.resume k }
    | _ => { state := s }
  | .answered k ack cache now =>
    match s.calls[k]? with
    | some (.awaiting link msg) =>
      match s.links[link]? with
      | none => { state := s }
      | some l => T.answered (s.resume k) link l msg ack cache now
    | _ => { state := s }
  | .broken k e =>
    match s.calls[k]? with
    | none => { state := s }
    | some call => broken (s.resume k) e call
  -- the other side closes the connection
  | .lost link => { state := s.shut link }
  | .close => { state := { s with closed := true } }
  | .closeConnections =>
    { state := { s with
        connections := .empty
        links := s.links.mapIdx fun link l =>
          { l with closing := l.closing || s.connections.get l.peer = some link } } }

def step (s : ClientState) (e : ClientEvent) : ClientState := (T.react s e).state

/-- What happens on the connections in a run. -/
def history (es : List ClientEvent) : List (ℕ × Act Str Message) :=
  trace (fun s e => (T.react s e).acts) T.step .initial es

/-! ## The number of connections -/

/-- The registered connections and the calls that are about to register one. -/
def taken (s : ClientState) : ℕ := s.connections.size + s.pending

section
variable {T} {s : ClientState} {peer : Str} {link : ℕ} {msg : Message}

theorem size_forget_le : (s.forget peer).connections.size ≤ s.connections.size := by
  exact List.length_filter_le _ _

theorem writeFrame_taken : taken (T.writeFrame s peer link msg).state ≤ taken s := by
  unfold writeFrame taken
  cases msg.toBytes R T.security.maxFrameSize with
  | error e => exact Nat.add_le_add_right size_forget_le _
  | ok data => simp [ClientState.suspend, ClientState.put, ClientState.pending, SendCall.isPending]

theorem register_taken : taken (T.register s peer link msg).state ≤ taken s + 1 := by
  refine writeFrame_taken.trans ?_
  have := Dict.size_set s.connections peer link
  unfold taken ClientState.pending
  simp only
  split_ifs at this <;> omega

theorem taken_resume {k : ℕ} {call : SendCall} (hk : s.calls[k]? = some call) :
    taken (s.resume k) + (if call.isPending then 1 else 0) = taken s := by
  obtain ⟨hlt, rfl⟩ := List.getElem?_eq_some_iff.1 hk
  have hperm := (List.getElem_cons_eraseIdx_perm hlt).countP_eq SendCall.isPending
  rw [List.countP_cons] at hperm
  unfold taken ClientState.pending ClientState.resume
  simp only
  omega

theorem taken_resume_le (k : ℕ) : taken (s.resume k) ≤ taken s :=
  Nat.add_le_add_left (List.eraseIdx_sublist _ _).countP_le _

theorem taken_suspend {call : SendCall} :
    taken (s.suspend call) = taken s + if call.isPending then 1 else 0 := by
  simp [taken, ClientState.suspend, ClientState.pending, List.countP_append, List.countP_singleton,
    add_assoc]

theorem getOrConnect_taken : taken (T.getOrConnect s peer msg).state ≤ taken s ∨
    (T.getOrConnect s peer msg).state.connections.size < T.security.maxConnections := by
  unfold getOrConnect
  cases s.usable peer with
  | some link => exact Or.inl writeFrame_taken
  | none =>
    simp only
    split_ifs with haddress hlimit
    · exact Or.inl le_rfl
    · exact Or.inr (not_le.1 hlimit)
    · exact Or.inl le_rfl

/-- A step takes no more connections, or there is room for one. -/
theorem step_taken (e : ClientEvent) : taken (T.step s e) ≤ taken s ∨
    (T.step s e).connections.size < T.security.maxConnections := by
  cases e with
  | send peer msg now =>
    simp only [step, react, send]
    split_ifs
    · exact Or.inl le_rfl
    · split
      · exact Or.inl le_rfl
      · exact Or.inl le_rfl
      · exact getOrConnect_taken
    · exact getOrConnect_taken
  | opened k now nonce =>
    left
    simp only [step, react]
    split
    · next peer msg hk =>
      have hr := taken_resume hk
      simp only [SendCall.isPending, if_true] at hr
      rw [← hr]
      simp only [opened]
      split_ifs
      · split
        · exact Nat.le_succ _
        · exact taken_suspend.le
      · exact register_taken
    · exact le_rfl
  | drained k =>
    left
    simp only [step, react]
    split
    · next link msg hk =>
      rw [taken_suspend, ← taken_resume hk]
      rfl
    · exact taken_resume_le k
    · exact le_rfl
  | answered k ack cache now =>
    left
    simp only [step, react]
    split
    · next link msg hk =>
      have hr := taken_resume hk
      simp only [SendCall.isPending, if_true] at hr
      split
      · exact le_rfl
      · rw [← hr]
        simp only [answered]
        split_ifs
        · exact Nat.le_succ _
        · split
          · exact Nat.le_succ _
          · exact Nat.le_succ _
          · exact register_taken
    · exact le_rfl
  | broken k e =>
    left
    simp only [step, react]
    split
    · exact le_rfl
    · refine le_trans ?_ (taken_resume_le k)
      unfold broken
      split
      · split
        · exact le_rfl
        · exact Nat.add_le_add_right size_forget_le _
      · exact le_rfl
  | lost link => exact Or.inl le_rfl
  | close => exact Or.inl le_rfl
  | closeConnections => exact Or.inl (Nat.add_le_add_right (Nat.zero_le _) _)

end

/-- **How far the limit on the connections is exceeded.**  If never more than `K` calls are about to
    register a connection at the same time, there are never more than `K - 1` connections above the
    limit, which is checked before the connection is made. -/
theorem pool_bounded {K : ℕ} {es : List ClientEvent}
    (hK : ∀ pre, pre <+: es → (run T.step .initial pre).pending ≤ K) :
    (run T.step .initial es).connections.size ≤ T.security.maxConnections + K - 1 := by
  have hpos := T.security.maxConnections_pos
  have htaken : taken (run T.step .initial es) ≤ T.security.maxConnections + K - 1 := by
    induction es using List.reverseRecOn with
    | nil =>
      exact Nat.zero_le _
    | append_singleton es e ih =>
      have hlast := hK _ List.prefix_rfl
      have hold := ih fun pre hpre => hK pre (hpre.trans (List.prefix_append _ _))
      rw [run_concat] at hlast ⊢
      rcases step_taken (T := T) (s := run T.step .initial es) e with hle | hroom
      · exact hle.trans hold
      · unfold taken
        omega
  exact (Nat.le_add_right _ _).trans htaken

namespace Sample

/-- The transport of `c` without security, which knows two peers and may have one connection. -/
noncomputable def client : TcpClient TcpTransport.Sample.runtime where
  toTcpTransport := { TcpTransport.Sample.transportC with
    security := { SecurityConfig.default with
      enabled := false, maxConnections := 1, maxConnections_pos := Nat.one_pos } }
  peerAddresses := {str "a", str "b"}

/-- Two calls connect side by side. -/
def sideBySide : List ClientEvent :=
  [.send (str "a") (Message.Sample.heartbeat 0) 0, .send (str "b") (Message.Sample.heartbeat 0) 0,
   .opened 0 0 (str "n"), .opened 0 0 (str "n")]

end Sample

/-- The limit of one connection is exceeded by one. -/
theorem pool_bounded_sideBySide :
    (run Sample.client.step .initial Sample.sideBySide).connections.size = 2 ∧
    (run Sample.client.step .initial Sample.sideBySide).connections.size ≤ 1 + 2 - 1 := by
  refine ⟨by decide +kernel, Sample.client.pool_bounded fun pre hpre => ?_⟩
  have hall : ∀ pre ∈ Sample.sideBySide.inits, (run Sample.client.step .initial pre).pending ≤ 2 := by
    decide +kernel
  exact hall pre ((List.mem_inits _ _).2 hpre)

/-! ## What is written -/

/-- A message that is written. -/
def Encodes (m : Message) : Prop := ∃ data, m.toBytes R T.security.maxFrameSize = .ok data

/-- A hello of the transport. -/
def Greeting (m : Message) : Prop := ∃ now nonce, T.signedMessage (str "hello")
  [(str "protocol_version", .int T.security.protocolVersion)] now nonce = .ok m ∧ T.Encodes m

/-- A message of the own node, signed with its key. -/
def Own (m : Message) : Prop := m.senderId = T.nodeId ∧ T.SignedBy T.nodeId m

/-- A message of the own node that `send` was called with; `P` holds of those. -/
def Admitted (P : Message → Prop) (m : Message) : Prop := T.Own m ∧ P m

/-- What holds of the message of an act: an answer of the peer, or a message of the own node. -/
def Genuine (P : Message → Prop) : Act Str Message → Prop
  | .opened peer ack => ack.senderId = peer ∧ T.SignedBy peer ack ∧ ack.msgType = str "hello_ack"
  | .delivered _ msg => T.Admitted P msg ∧ T.Encodes msg
  | .failed => True

/-- A connection that nothing has happened on, or that is open; what was written to it is a hello and
    the messages, or nothing. -/
structure LinkKept (acts : List (Act Str Message)) (v : Str × Bytes) : Prop where
  session : acts = [] ∨ run Session.act .fresh acts = .live v.1
  written : acts = [] ∧ v.2 = [] ∨
    ∃ m, T.Greeting m ∧ v.2 = m.frame R ++ (acts.filterMap Act.delivery).flatMap (Message.frame R)

/-- What the connections of a secure transport have done. -/
structure Kept (P : Message → Prop) (h : List (ℕ × Act Str Message)) (s : ClientState) : Prop where
  quiet : ∀ c, s.views[c]? = none → actsOf c h = []
  links : ∀ c v, s.views[c]? = some v → T.LinkKept (actsOf c h) v
  registered : ∀ p c, s.connections.get p = some c → ∃ w, s.views[c]? = some (p, w) ∧
    run Session.act .fresh (actsOf c h) = .live p
  greeted : ∀ c ∈ s.waiting, actsOf c h = [] ∧ ∃ p m, s.views[c]? = some (p, m.frame R) ∧ T.Greeting m
  distinct : s.waiting.Nodup
  own : ∀ call ∈ s.calls, ∀ m ∈ call.message, T.Admitted P m
  genuine : ∀ c a, (c, a) ∈ h → T.Genuine P a

section
variable {T} {P : Message → Prop} {h : List (ℕ × Act Str Message)} {s s' : ClientState} {peer : Str}
  {link : ℕ} {msg : Message}

theorem Kept.initial : T.Kept P [] .initial where
  quiet _ _ := rfl
  links c v hv := by cases hv
  registered p c hc := by cases hc
  greeted c hc := by cases hc
  distinct := List.nodup_nil
  own call hc := by cases hc
  genuine c a ha := by cases ha

/-- Connections are closed or forgotten, and calls end or go on in their handshakes. -/
theorem Kept.of_less (hk : T.Kept P h s) (hv : s'.views = s.views)
    (hreg : ∀ p c, s'.connections.get p = some c → s.connections.get p = some c)
    (hwait : s'.waiting.Subperm s.waiting)
    (hown : ∀ call ∈ s'.calls, ∀ m ∈ call.message, T.Admitted P m) : T.Kept P h s' where
  quiet := hv ▸ hk.quiet
  links := hv ▸ hk.links
  registered p c hc := hv ▸ hk.registered p c (hreg p c hc)
  greeted c hc := hv ▸ hk.greeted c (hwait.subset hc)
  distinct := by
    obtain ⟨l, hl, hsub⟩ := hwait
    exact hl.nodup_iff.1 (hk.distinct.sublist hsub)
  own := hown
  genuine := hk.genuine

@[simp] theorem views_shut : (s.shut link).views = s.views := by
  refine List.ext_getElem? fun i => ?_
  simp only [ClientState.views, ClientState.shut, List.getElem?_map, List.getElem?_modify]
  cases s.links[i]? with
  | none => rfl
  | some l => simp only [Option.map_eq_map, Option.map_some]; split_ifs <;> rfl

theorem views_put (data : Bytes) (c : ℕ) : (s.put link data).views[c]? =
    s.views[c]?.map fun v => if link = c then (v.1, v.2 ++ data) else v := by
  simp only [ClientState.views, ClientState.put, List.getElem?_map, List.getElem?_modify]
  cases s.links[c]? with
  | none => rfl
  | some l => simp only [Option.map_eq_map, Option.map_some]; split_ifs <;> rfl

theorem get_forget {p : Str} {c : ℕ} (h : (s.forget peer).connections.get p = some c) :
    s.connections.get p = some c :=
  (Dict.get_filter.1 h).1

/-- Something happens on one connection, which is open then. -/
theorem Kept.of_act (hk : T.Kept P h s) {a : Act Str Message} {v : Str × Bytes} (ha : T.Genuine P a)
    (hself : s'.views[link]? = some v) (hothers : ∀ c, c ≠ link → s'.views[c]? = s.views[c]?)
    (hlive : run Session.act .fresh (actsOf link h ++ [a]) = .live v.1)
    (hwritten : ∃ m, T.Greeting m ∧ v.2 = m.frame R ++
      ((actsOf link h ++ [a]).filterMap Act.delivery).flatMap (Message.frame R))
    (hreg : ∀ p c, s'.connections.get p = some c →
      c = link ∧ p = v.1 ∨ c ≠ link ∧ s.connections.get p = some c)
    (hwait : s'.waiting.Sublist s.waiting) (hdone : link ∉ s'.waiting)
    (hown : ∀ call ∈ s'.calls, ∀ m ∈ call.message, T.Admitted P m) : T.Kept P (h ++ [(link, a)]) s' where
  quiet c hc := by
    have hne : c ≠ link := by
      rintro rfl
      rw [hself] at hc
      cases hc
    rw [actsOf_concat_other hne.symm]
    exact hk.quiet c (hothers c hne ▸ hc)
  links c v' hv' := by
    by_cases hc : c = link
    · subst hc
      obtain rfl := Option.some.inj (hself.symm.trans hv')
      rw [actsOf_concat_self]
      exact ⟨Or.inr hlive, Or.inr hwritten⟩
    · rw [actsOf_concat_other (Ne.symm hc)]
      exact hk.links c v' (hothers c hc ▸ hv')
  registered p c hc := by
    rcases hreg p c hc with ⟨rfl, rfl⟩ | ⟨hne, hc⟩
    · rw [actsOf_concat_self]
      exact ⟨v.2, hself, hlive⟩
    · rw [actsOf_concat_other hne.symm, hothers c hne]
      exact hk.registered p c hc
  greeted c hc := by
    have hne : c ≠ link := fun h => hdone (h ▸ hc)
    rw [actsOf_concat_other hne.symm, hothers c hne]
    exact hk.greeted c (hwait.subset hc)
  distinct := hk.distinct.sublist hwait
  own := hown
  genuine c a' ha' := by
    rcases List.mem_append.1 ha' with ha' | ha'
    · exact hk.genuine c a' ha'
    · obtain ⟨-, rfl⟩ := Prod.mk.inj (List.mem_singleton.1 ha')
      exact ha

/-- The peer answers, and its connection is registered. -/
theorem Kept.open (hk : T.Kept P h s) {k : ℕ} (hcall : s.calls[k]? = some (.awaiting link msg))
    {w : Bytes} (hview : s.views[link]? = some (peer, w)) {ack : Message}
    (hack : T.Genuine P (.opened peer ack)) :
    T.Kept P (h ++ [(link, .opened peer ack)])
      { s.resume k with connections := s.connections.set peer link } := by
  have hmem : link ∈ s.waiting := List.mem_filterMap.2 ⟨_, List.mem_of_getElem? hcall, rfl⟩
  obtain ⟨hacts, p, m, hview', hm⟩ := hk.greeted link hmem
  obtain ⟨rfl, rfl⟩ : peer = p ∧ w = m.frame R := by
    simpa using hview.symm.trans hview'
  have hwait : (s.resume k).waiting.Sublist s.waiting := (List.eraseIdx_sublist _ _).filterMap _
  refine hk.of_act hack hview (fun c _ => rfl) ?_ ⟨m, hm, ?_⟩ (fun p c hc => ?_) hwait ?_
    fun call hc => hk.own call (List.mem_of_mem_eraseIdx hc)
  · rw [hacts]
    rfl
  · simp [hacts, Act.delivery]
  · rw [Dict.get_set] at hc
    split_ifs at hc with hp
    · exact Or.inl ⟨(Option.some.inj hc).symm, hp.symm⟩
    · refine Or.inr ⟨?_, hc⟩
      rintro rfl
      obtain ⟨_, -, hlive⟩ := hk.registered p c hc
      rw [hacts] at hlive
      cases hlive
  · -- no other call is in the handshake of this connection
    obtain ⟨hlt, hget⟩ := List.getElem?_eq_some_iff.1 hcall
    have hperm := (List.getElem_cons_eraseIdx_perm hlt).filterMap SendCall.handshake
    rw [hget] at hperm
    exact (List.nodup_cons.1 (hperm.nodup_iff.2 hk.distinct)).1

/-- A frame is written to an open connection. -/
theorem writeFrame_kept (hk : T.Kept P h s) {w : Bytes} (hview : s.views[link]? = some (peer, w))
    (hlive : run Session.act .fresh (actsOf link h) = .live peer) (hown : T.Admitted P msg) :
    T.Kept P (h ++ (T.writeFrame s peer link msg).acts) (T.writeFrame s peer link msg).state := by
  unfold writeFrame
  cases hd : msg.toBytes R T.security.maxFrameSize with
  | error e =>
    simp only [List.append_nil]
    exact hk.of_less views_shut (fun p c => get_forget) (List.Subperm.refl _) hk.own
  | ok data =>
    obtain rfl := Message.toBytes_frame hd
    have hne : actsOf link h ≠ [] := by
      intro hnil
      rw [hnil] at hlive
      cases hlive
    obtain ⟨hnil, -⟩ | ⟨m, hm, hw⟩ := (hk.links link _ hview).written
    · exact absurd hnil hne
    have hwait : ((s.put link (msg.frame R)).suspend (.writing link)).waiting = s.waiting := by
      simp [ClientState.waiting, ClientState.suspend, ClientState.put, SendCall.handshake]
    refine hk.of_act (v := (peer, w ++ msg.frame R)) (a := .delivered peer msg) ⟨hown, _, hd⟩ ?_
      (fun c hc => ?_) ?_ ⟨m, hm, ?_⟩
      (fun p c hc => ?_) (hwait ▸ List.Sublist.refl _) ?_ fun call hc => ?_
    · exact (views_put _ link).trans (by simp [hview])
    · refine (views_put _ c).trans ?_
      simp [Ne.symm hc]
    · rw [run_concat, hlive]
      simp [Session.act]
    · have hw' : w = m.frame R ++ ((actsOf link h).filterMap Act.delivery).flatMap (Message.frame R) := hw
      simp [hw', Act.delivery]
    · by_cases hc' : c = link
      · subst hc'
        obtain ⟨w', hw', -⟩ := hk.registered p c hc
        rw [hview] at hw'
        exact Or.inl ⟨rfl, (Prod.mk.inj (Option.some.inj hw')).1.symm⟩
      · exact Or.inr ⟨hc', hc⟩
    · rw [hwait]
      exact fun hmem => hne (hk.greeted link hmem).1
    · rcases List.mem_append.1 hc with hc | hc
      · exact hk.own call hc
      · rw [List.mem_singleton.1 hc]
        intro m' hm'
        cases hm'

theorem getOrConnect_kept (hk : T.Kept P h s) (hown : T.Admitted P msg) :
    T.Kept P (h ++ (T.getOrConnect s peer msg).acts) (T.getOrConnect s peer msg).state := by
  unfold getOrConnect
  cases hu : s.usable peer with
  | some link =>
    obtain ⟨w, hview, hlive⟩ := hk.registered peer link (Option.filter_eq_some_iff.1 hu).1
    exact writeFrame_kept hk hview hlive hown
  | none =>
    simp only
    split_ifs
    · simpa using hk
    · rw [List.append_nil]
      refine hk.of_less rfl (fun _ _ => id) ?_ fun call hc => ?_
      · rw [ClientState.waiting, ClientState.suspend, List.filterMap_append]
        exact (List.Perm.of_eq (List.append_nil s.waiting)).subperm
      · rcases List.mem_append.1 hc with hc | hc
        · exact hk.own call hc
        · rw [List.mem_singleton.1 hc]
          intro m hm
          obtain rfl := Option.some.inj hm
          exact hown
    · simpa using hk

/-- Calls end or go on. -/
theorem Kept.resume (hk : T.Kept P h s) (k : ℕ) : T.Kept P h (s.resume k) :=
  hk.of_less rfl (fun _ _ => id) ((List.eraseIdx_sublist _ _).filterMap _).subperm
    fun call hc => hk.own call (List.mem_of_mem_eraseIdx hc)

/-- A connection is made. -/
theorem Kept.connect (hk : T.Kept P h s) (peer : Str) :
    T.Kept P h { s with links := s.links ++ [{ peer }] } := by
  have hviews : ∀ c, ({ s with links := s.links ++ [{ peer }] } : ClientState).views[c]? =
      if c = s.links.length then some (peer, []) else s.views[c]? := by
    intro c
    simp only [ClientState.views, List.map_append, List.getElem?_append, List.length_map]
    split_ifs with h1 h2 h2
    · omega
    · rfl
    · simp [h2]
    · rw [List.getElem?_eq_none (by simp; omega), List.getElem?_eq_none (by simp; omega)]
  have hnew : s.views[s.links.length]? = none := by simp [ClientState.views]
  have hold : ∀ {c v}, s.views[c]? = some v → c ≠ s.links.length := by
    rintro c v hc rfl
    rw [hnew] at hc
    cases hc
  refine ⟨fun c hc => ?_, fun c v hv => ?_, fun p c hc => ?_, fun c hc => ?_, hk.distinct, hk.own,
    hk.genuine⟩
  · rw [hviews] at hc
    split_ifs at hc
    exact hk.quiet c hc
  · rw [hviews] at hv
    split_ifs at hv with hlast
    · obtain rfl := Option.some.inj hv
      rw [hlast, hk.quiet _ hnew]
      exact ⟨Or.inl rfl, Or.inl ⟨rfl, rfl⟩⟩
    · exact hk.links c v hv
  · obtain ⟨w, hw, hlive⟩ := hk.registered p c hc
    exact ⟨w, by rw [hviews, if_neg (hold hw), hw], hlive⟩
  · obtain ⟨hacts, p, m, hview, hm⟩ := hk.greeted c hc
    exact ⟨hacts, p, m, by rw [hviews, if_neg (hold hview), hview], hm⟩

/-- A new connection is greeted. -/
theorem Kept.greet (hk : T.Kept P h s) {p : Str} (hview : s.views[link]? = some (p, []))
    (hacts : actsOf link h = []) {m : Message} (hm : T.Greeting m) (hown : T.Admitted P msg) :
    T.Kept P h ((s.put link (m.frame R)).suspend (.greeting link msg)) := by
  have hviews : ∀ c, ((s.put link (m.frame R)).suspend (.greeting link msg)).views[c]? =
      s.views[c]?.map fun v => if link = c then (v.1, v.2 ++ m.frame R) else v := views_put _
  have hwait : ((s.put link (m.frame R)).suspend (.greeting link msg)).waiting = s.waiting ++ [link] := by
    simp [ClientState.waiting, ClientState.suspend, ClientState.put, SendCall.handshake]
  have hfresh : link ∉ s.waiting := by
    intro hmem
    obtain ⟨-, p', m', hview', -⟩ := hk.greeted link hmem
    rw [hview] at hview'
    exact absurd (congrArg List.length (Prod.mk.inj (Option.some.inj hview')).2)
      (by rw [List.length_nil, Message.frame, List.length_append, length_be32]; omega)
  refine ⟨fun c hc => ?_, fun c v hv => ?_, fun p c hc => ?_, fun c hc => ?_, ?_, fun call hc => ?_,
    hk.genuine⟩
  · rw [hviews, Option.map_eq_none_iff] at hc
    exact hk.quiet c hc
  · rw [hviews] at hv
    by_cases hc : link = c
    · subst hc
      rw [hview] at hv
      obtain rfl := Option.some.inj hv
      rw [hacts]
      exact ⟨Or.inl rfl, Or.inr ⟨m, hm, by simp⟩⟩
    · simp only [hc, if_false, Option.map_id'] at hv
      exact hk.links c v hv
  · obtain ⟨w, hw, hlive⟩ := hk.registered p c hc
    have hne : link ≠ c := by
      rintro rfl
      rw [hacts] at hlive
      cases hlive
    exact ⟨w, by simp [hviews, hne, hw], hlive⟩
  · rw [hwait, List.mem_append, List.mem_singleton] at hc
    rcases hc with hc | rfl
    · obtain ⟨hnone, p, m', hview', hm'⟩ := hk.greeted c hc
      have hne : link ≠ c := fun h => hfresh (h ▸ hc)
      exact ⟨hnone, p, m', by simp [hviews, hne, hview'], hm'⟩
    · exact ⟨hacts, p, m, by simp [hviews, hview], hm⟩
  · rw [hwait]
    exact hk.distinct.append (List.nodup_singleton _) (by simpa using hfresh)
  · rcases List.mem_append.1 hc with hc | hc
    · exact hk.own call hc
    · rw [List.mem_singleton.1 hc]
      intro m' hm'
      obtain rfl := Option.some.inj hm'
      exact hown

theorem opened_kept (hsec : T.security.enabled = true) (hk : T.Kept P h s)
    (hown : T.Admitted P msg) {now : ℚ}
    {nonce : Str} :
    T.Kept P (h ++ (T.opened s peer msg now nonce).acts) (T.opened s peer msg now nonce).state := by
  have hc := hk.connect peer
  unfold opened
  simp only [hsec, if_true]
  cases hd : T.hello now nonce with
  | error e => simpa using hc
  | ok data =>
    obtain ⟨m, hm, hdata⟩ := bind_eq_ok.1 hd
    obtain rfl := Message.toBytes_frame hdata
    rw [List.append_nil]
    refine hc.greet (p := peer) ?_ (hk.quiet _ ?_) ⟨now, nonce, hm, _, hdata⟩ hown
    · simp [ClientState.views]
    · simp [ClientState.views]

theorem own_of_verifyLocalMessage {now : ℚ} (hv : T.verifyLocalMessage msg now = .ok true) :
    T.Own msg := by
  unfold verifyLocalMessage at hv
  split_ifs at hv with hid
  · cases hv
  rw [not_or, not_not, not_not] at hid
  split at hv
  · split_ifs at hv
    · cases hv
    rw [Own, ← hid.1]
    exact ⟨rfl, TcpTransport.signedBy_of_verifySignature hv⟩
  · cases hv

theorem answered_kept (hsec : T.security.enabled = true) (hk : T.Kept P h s) {k : ℕ} {l : Link}
    (hcall : s.calls[k]? = some (.awaiting link msg)) (hlink : s.links[link]? = some l)
    {ack : Message} {cache : ReplayCache} {now : ℚ} :
    T.Kept P (h ++ (T.answered (s.resume k) link l msg ack cache now).acts)
      (T.answered (s.resume k) link l msg ack cache now).state := by
  have hrefused : T.Kept P (h ++ []) ((s.resume k).shut link) := by
    rw [List.append_nil]
    exact (hk.resume k).of_less views_shut (fun _ _ => id) (List.Subperm.refl _) (hk.resume k).own
  have hview : s.views[link]? = some (l.peer, l.written) := by simp [ClientState.views, hlink]
  unfold answered
  simp only
  split_ifs with hcheck
  · exact hrefused
  push Not at hcheck
  split
  · simpa using hk.resume k
  · exact hrefused
  · next hv =>
    obtain ⟨hsigned, hsender⟩ := TcpTransport.verifyMessage_ok hsec hv
    have hname : l.peer = ack.senderId := hsender _ rfl
    have hack : T.Genuine P (.opened l.peer ack) := ⟨hname.symm, hname ▸ hsigned, hcheck.1⟩
    have hopen := hk.open hcall hview hack
    have hlive : run Session.act .fresh (actsOf link (h ++ [(link, .opened l.peer ack)])) =
        .live l.peer := by
      obtain ⟨w, -, hlive⟩ := hopen.registered l.peer link (Dict.get_set_self _ _ _)
      exact hlive
    have hdone := writeFrame_kept hopen hview hlive (hk.own _ (List.mem_of_getElem? hcall) msg rfl)
    rw [List.append_assoc] at hdone
    exact hdone

/-- **A step of a secure transport** keeps to the handshakes. -/
theorem step_kept (hsec : T.security.enabled = true) (hk : T.Kept P h s) (e : ClientEvent)
    (he : ∀ peer msg now, e = .send peer msg now → P msg) :
    T.Kept P (h ++ (T.react s e).acts) (T.step s e) := by
  have hquiet : ∀ {s' : ClientState}, T.Kept P h s' → T.Kept P (h ++ []) s' := by
    intro s' hs'
    rwa [List.append_nil]
  cases e with
  | send peer msg now =>
    simp only [step, react, send]
    split_ifs
    · exact hquiet hk
    · split
      · exact hquiet hk
      · exact hquiet hk
      · next hv => exact getOrConnect_kept hk ⟨own_of_verifyLocalMessage hv, he _ _ _ rfl⟩
  | opened k now nonce =>
    simp only [step, react]
    split
    · next peer msg hcall =>
      exact opened_kept hsec (hk.resume k) (hk.own _ (List.mem_of_getElem? hcall) msg rfl)
    · exact hquiet hk
  | drained k =>
    simp only [step, react]
    split
    · next link msg hcall =>
      refine hquiet (hk.of_less rfl (fun _ _ => id) ?_ fun call hc => ?_)
      · obtain ⟨hlt, hget⟩ := List.getElem?_eq_some_iff.1 hcall
        have hperm := (List.getElem_cons_eraseIdx_perm hlt).filterMap SendCall.handshake
        rw [hget] at hperm
        refine (List.Perm.trans ?_ hperm).subperm
        simp [ClientState.waiting, ClientState.suspend, ClientState.resume, SendCall.handshake]
      · rcases List.mem_append.1 hc with hc | hc
        · exact (hk.resume k).own call hc
        · rw [List.mem_singleton.1 hc]
          exact hk.own (.greeting link msg) (List.mem_of_getElem? hcall)
    · exact hquiet (hk.resume k)
    · exact hquiet hk
  | answered k ack cache now =>
    simp only [step, react]
    split
    · next link msg hcall =>
      split
      · exact hquiet hk
      · next l hlink => exact answered_kept hsec hk hcall hlink
    · exact hquiet hk
  | broken k e =>
    simp only [step, react]
    split
    · exact hquiet hk
    · unfold broken
      split
      · split
        · exact hquiet (hk.resume k)
        · exact hquiet ((hk.resume k).of_less views_shut (fun p c => get_forget)
            (List.Subperm.refl _) (hk.resume k).own)
      · exact hquiet (hk.resume k)
  | lost link => exact hquiet (hk.of_less views_shut (fun _ _ => id) (List.Subperm.refl _) hk.own)
  | close => exact hquiet (hk.of_less rfl (fun _ _ => id) (List.Subperm.refl _) hk.own)
  | closeConnections =>
    refine hquiet (hk.of_less ?_ (fun p c hc => by cases hc) (List.Subperm.refl _) hk.own)
    refine List.ext_getElem? fun i => ?_
    simp only [step, react, ClientState.views, List.getElem?_map, List.getElem?_mapIdx, Option.map_map]
    rfl

theorem run_kept (hsec : T.security.enabled = true) {es : List ClientEvent}
    (hes : ∀ peer msg now, .send peer msg now ∈ es → P msg) :
    T.Kept P (T.history es) (run T.step .initial es) := by
  induction es using List.reverseRecOn with
  | nil => exact Kept.initial
  | append_singleton es e ih =>
    rw [history, trace_concat, run_concat]
    refine step_kept hsec (ih fun peer msg now hm => hes peer msg now (by simp [hm])) e ?_
    rintro peer msg now rfl
    exact hes peer msg now (by simp)

end

/-- The messages that were written to a connection. -/
def sentOn (es : List ClientEvent) (link : ℕ) : List Message :=
  (actsOf link (T.history es)).filterMap Act.delivery

/-- **Authenticated sending.**  Whatever calls of `send` a secure transport handles side by side: what
    it has written to a connection is nothing, or a hello and the frames of messages; each of them is
    a message of the own node, signed with its key, for the peer of the connection, and was written
    after that peer had answered with a signed message. -/
theorem outgoing_authenticated (hsec : T.security.enabled = true) (es : List ClientEvent) :
    (∀ link l, (run T.step .initial es).links[link]? = some l →
      (l.written = [] ∧ T.sentOn es link = [] ∨ ∃ hello, T.Greeting hello ∧
        l.written = hello.frame R ++ (T.sentOn es link).flatMap (Message.frame R)) ∧
      ∀ peer msg, (link, .delivered peer msg) ∈ T.history es → peer = l.peer) ∧
    ∀ pre link peer msg post, T.history es = pre ++ (link, .delivered peer msg) :: post →
      msg.senderId = T.nodeId ∧ T.SignedBy T.nodeId msg ∧
      ∃ ack, (link, .opened peer ack) ∈ pre ∧ ack.senderId = peer ∧ T.SignedBy peer ack ∧
        ack.msgType = str "hello_ack" := by
  have hk : T.Kept (fun _ => True) (T.history es) (run T.step .initial es) :=
    run_kept hsec fun _ _ _ _ => trivial
  -- a connection that a message was written to was opened by its peer before
  have hopened : ∀ pre link peer msg post, T.history es = pre ++ (link, .delivered peer msg) :: post →
      ∃ v ack, (run T.step .initial es).views[link]? = some v ∧ peer = v.1 ∧
        (link, .opened peer ack) ∈ pre := by
    intro pre link peer msg post heq
    have hacts : actsOf link (T.history es) =
        actsOf link pre ++ .delivered peer msg :: actsOf link post := by
      rw [heq, actsOf_append, actsOf_cons_self]
    cases hview : (run T.step .initial es).views[link]? with
    | none =>
      rw [hk.quiet link hview] at hacts
      simp at hacts
    | some v =>
      have hlive : run Session.act .fresh (actsOf link (T.history es)) = .live v.1 := by
        refine (hk.links link v hview).session.resolve_left fun hnil => ?_
        rw [hnil] at hacts
        simp at hacts
      rw [hacts] at hlive
      obtain ⟨ack, rest, hpre, -⟩ := Session.opened_before (by rw [hlive]; simp)
      rw [hpre, List.cons_append, run_cons] at hlive
      refine ⟨v, ack, rfl, (Session.eq_of_run_live hlive).symm, mem_actsOf.1 ?_⟩
      rw [hpre]
      exact List.mem_cons_self
  refine ⟨fun link l hl => ⟨?_, fun peer msg hmem => ?_⟩, fun pre link peer msg post heq => ?_⟩
  · have hview : (run T.step .initial es).views[link]? = some (l.peer, l.written) := by
      simp [ClientState.views, hl]
    rcases (hk.links link _ hview).written with ⟨hnil, hw⟩ | hw
    · exact Or.inl ⟨hw, by rw [sentOn, hnil]; rfl⟩
    · exact Or.inr hw
  · obtain ⟨pre, post, heq⟩ := List.append_of_mem hmem
    obtain ⟨v, -, hview, rfl, -⟩ := hopened pre link peer msg post heq
    simp only [ClientState.views, List.getElem?_map, hl, Option.map_some, Option.some.injEq] at hview
    rw [← hview]
  · obtain ⟨v, ack, -, -, hack⟩ := hopened pre link peer msg post heq
    obtain ⟨⟨⟨hsender, hsigned⟩, -⟩, -⟩ := hk.genuine link (.delivered peer msg) (by rw [heq]; simp)
    have hgenuine := hk.genuine link (.opened peer ack) (by rw [heq]; exact List.mem_append_left _ hack)
    exact ⟨hsender, hsigned, ack, hack, hgenuine⟩

namespace Sample

/-- The transport of `c`, which knows the address of `a`. -/
noncomputable def secureClient : TcpClient TcpTransport.Sample.runtime where
  toTcpTransport := TcpTransport.Sample.transportC
  peerAddresses := {str "a"}

/-- A heartbeat of `c`, signed at time 0. -/
noncomputable def heartbeat : Message :=
  let unsigned : Message := ⟨str "heartbeat", str "c", [(str "ts", .int 0)], some 0, some (str "n"), none, 2⟩
  { unsigned with signature := some (TcpTransport.Sample.runtime.ed25519.sign [3]
    ((unsigned.canonicalBytes TcpTransport.Sample.runtime).toOption.getD [])) }

/-- A call connects, greets, is answered by `a` and writes its frame. -/
noncomputable def handshake : List ClientEvent :=
  [.send (str "a") heartbeat 0, .opened 0 0 (str "h"), .drained 0,
   .answered 0 (TcpTransport.Sample.fromA "hello_ack" "k" [(str "protocol_version", .int 2)])
     TcpTransport.Sample.transportC.initial.replayCache 0]

end Sample

theorem outgoing_authenticated_handshake :
    (Sample.secureClient.sentOn Sample.handshake 0).length = 1 ∧
    ∀ msg ∈ Sample.secureClient.sentOn Sample.handshake 0, msg.senderId = str "c" ∧
      Sample.secureClient.SignedBy (str "c") msg := by
  refine ⟨by decide +kernel, fun msg hmsg => ?_⟩
  obtain ⟨a, ha, hm⟩ := List.mem_filterMap.1 hmsg
  obtain ⟨peer, rfl⟩ : ∃ peer, a = .delivered peer msg := by
    cases a with
    | delivered peer m =>
      obtain rfl := Option.some.inj hm
      exact ⟨peer, rfl⟩
    | _ => cases hm
  obtain ⟨pre, post, heq⟩ := List.append_of_mem (mem_actsOf.1 ha)
  obtain ⟨hsender, hsigned, -⟩ :=
    (Sample.secureClient.outgoing_authenticated rfl Sample.handshake).2 pre 0 peer msg post heq
  exact ⟨hsender, hsigned⟩

end TcpClient

end PeerQ
