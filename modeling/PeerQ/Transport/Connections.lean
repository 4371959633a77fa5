/-
  Authenticated connections.

  A step of a secure transport moves one connection (`react_moves`), and its
  handler follows a session (`Turn.session`): the connection is opened by a
  verified hello, delivers messages of the same peer, and nothing after a
  failure.
-/
import PeerQ.Message.Wire
import PeerQ.Transport

namespace PeerQ

open Py

namespace TcpTransport

variable {R : Runtime} (T : TcpTransport R)

/-! ## What a step does to the connections -/

/-- The peer has a key in the keyring under which the message has a valid signature. -/
def SignedBy (peer : Str) (msg : Message) : Prop :=
  ∃ key sig data, T.keyring.getPeerKey peer = some key ∧ msg.signature = some sig ∧
    msg.canonicalBytes R = .ok data ∧ R.ed25519.verify key sig data = true

/-- What holds of the message of an act: a hello or another message, signed by the peer it names. -/
def Authentic : Act Str Message → Prop
  | .opened peer msg => msg.senderId = peer ∧ T.SignedBy peer msg ∧ msg.msgType = str "hello"
  | .delivered peer msg => msg.senderId = peer ∧ T.SignedBy peer msg ∧
      msg.msgType ∉ [str "hello", str "hello_ack"]
  | .failed => True

/-- What the handler of a connection of a secure transport can do in a step. -/
inductive Turn : Handler → List (Act Str Message) → Handler → Prop
  | stay (h : Handler) : Turn h [] h
  | refused : Turn .idle [] .ended
  | connected : Turn .idle [] .greeting
  | greeted (sender : Str) (hello : Message) :
      Turn .greeting [.opened sender hello] (.acking sender)
  | unanswered (sender : Str) (hello : Message) :
      Turn .greeting [.opened sender hello, .failed] .ended
  | answered (sender : Str) : Turn (.acking sender) [] (.reading (some sender))
  | stopped (h : Handler) (sender : Str) (hh : h = .acking sender ∨ h = .reading (some sender)) :
      Turn h [] .ended
  | delivered (sender : Str) (msg : Message) (h : Handler)
      (hh : h = .reading (some sender) ∨ h = .ended) :
      Turn (.reading (some sender)) [.delivered sender msg] h
  | failed (h : Handler) (hh : h ≠ .idle ∧ h ≠ .ended) : Turn h [.failed] .ended

section
variable {T} {s : TransportState} {cache : ReplayCache} {msg : Message} {expected : Option Str}
  {now : ℚ}

theorem signedBy_of_verifySignature (h : msg.verifySignature R T.keyring = .ok true) :
    T.SignedBy msg.senderId msg := by
  unfold Message.verifySignature at h
  split at h
  · next sig _ _ hsig _ _ =>
    obtain ⟨data, hdata, hv⟩ := bind_eq_ok.1 h
    obtain ⟨key, hkey, -, hverify⟩ := verify_iff.1 (Except.ok.inj hv)
    exact ⟨key, sig, data, hkey, hsig, hdata, hverify⟩
  · exact absurd h (by simp)

/-- A message that a secure transport accepts is signed by its sender, who is the expected one. -/
theorem verifyMessage_ok (hsec : T.security.enabled = true)
    (h : (T.verifyMessage cache msg expected now).2 = .ok true) :
    T.SignedBy msg.senderId msg ∧ ∀ p ∈ expected, p = msg.senderId := by
  unfold verifyMessage at h
  split_ifs at h with h1 h2 h3 h4
  · simp [hsec] at h1
  · cases h
  · cases h
  · cases h
  refine ⟨?_, fun p hp => ?_⟩
  · split at h
    · cases h
    · cases h
    · next hv => exact signedBy_of_verifySignature hv
  · by_contra hne
    exact h3 ((Option.any_eq_true _ _).2 ⟨p, hp, by simpa using hne⟩)

theorem checkFrame_ok (hsec : T.security.enabled = true)
    (h : (T.checkFrame cache msg expected now).2 = .ok true) :
    T.Authentic (.delivered msg.senderId msg) ∧ ∀ p ∈ expected, p = msg.senderId := by
  unfold checkFrame at h
  split_ifs at h with h1 h2
  · simp [hsec] at h1
  · cases h
  · obtain ⟨hsigned, hsender⟩ := verifyMessage_ok hsec h
    exact ⟨⟨rfl, hsigned, h2⟩, hsender⟩

@[simp] theorem suspend_connection (c : ℕ) (h : Handler) (buffer : Bytes) :
    (s.suspend c h buffer).connections c = ⟨h, buffer⟩ := by
  simp [TransportState.suspend]

theorem suspend_other {c c' : ℕ} (hc : c' ≠ c) (h : Handler) (buffer : Bytes) :
    (s.suspend c h buffer).connections c' = s.connections c' := by
  simp [TransportState.suspend, hc]

end

/-- A step moves one connection, and what it does is authentic; the inbox gets what is delivered. -/
structure Moves (s : TransportState) (c : ℕ) (r : Reaction) (acts : List (Act Str Message)) : Prop where
  out : r.2 = acts.map fun a => (c, a)
  turn : Turn (s.connections c).handler acts (r.1.connections c).handler
  others : ∀ c', c' ≠ c → r.1.connections c' = s.connections c'
  authentic : ∀ a ∈ acts, T.Authentic a
  inbox : ∀ x ∈ r.1.inbox, x ∈ s.inbox ∨ .delivered x.1 x.2 ∈ acts

section
variable {T} {s s₁ : TransportState} {c : ℕ} {buffer : Bytes} {msg : Message} {now : ℚ} {nonce : Str}

/-- Nothing happens on the connections. -/
theorem Moves.quiet (hconn : s₁.connections = s.connections) (hin : ∀ x ∈ s₁.inbox, x ∈ s.inbox) :
    T.Moves s c (s₁, []) [] where
  out := rfl
  turn := by
    rw [hconn]
    exact .stay _
  others _ _ := by rw [hconn]
  authentic := by simp
  inbox x hx := Or.inl (hin x hx)

/-- A connection is suspended again. -/
theorem Moves.suspend {h : Handler} (acts : List (Act Str Message))
    (hconn : s₁.connections = s.connections)
    (hturn : Turn (s.connections c).handler acts h) (hauth : ∀ a ∈ acts, T.Authentic a)
    (hin : ∀ x ∈ s₁.inbox, x ∈ s.inbox ∨ .delivered x.1 x.2 ∈ acts) :
    T.Moves s c (s₁.suspend c h buffer, acts.map fun a => (c, a)) acts where
  out := rfl
  turn := by simpa using hturn
  others c' hc := by rw [suspend_other hc, hconn]
  authentic := hauth
  inbox := hin

/-- The handler of a connection ends. -/
theorem Moves.hangUp (acts : List (Act Str Message)) (hconn : s₁.connections = s.connections)
    (hturn : Turn (s.connections c).handler acts .ended) (hauth : ∀ a ∈ acts, T.Authentic a)
    (hin : ∀ x ∈ s₁.inbox, x ∈ s.inbox ∨ .delivered x.1 x.2 ∈ acts) :
    T.Moves s c (s₁.hangUp c, acts.map fun a => (c, a)) acts :=
  have h : T.Moves s c (s₁.suspend c .ended [], acts.map fun a => (c, a)) acts :=
    .suspend acts hconn hturn hauth hin
  ⟨rfl, h.turn, h.others, hauth, hin⟩

/-- A frame that is refused ends the connection. -/
theorem Moves.fail (hconn : s₁.connections = s.connections) (hin : s₁.inbox = s.inbox)
    (hh : (s.connections c).handler ≠ .idle ∧ (s.connections c).handler ≠ .ended) :
    T.Moves s c (s₁.hangUp c, [(c, .failed)]) [.failed] := by
  refine .hangUp _ hconn (.failed _ hh) (List.forall_mem_singleton.2 trivial) fun x hx => Or.inl ?_
  rwa [hin] at hx

/-- The loop over the frames goes on or ends. -/
theorem Moves.resume {sender : Str} {acts : List (Act Str Message)}
    (hconn : s₁.connections = s.connections)
    (hturn : ∀ h, h = .reading (some sender) ∨ h = .ended → Turn (s.connections c).handler acts h)
    (hauth : ∀ a ∈ acts, T.Authentic a)
    (hin : ∀ x ∈ s₁.inbox, x ∈ s.inbox ∨ .delivered x.1 x.2 ∈ acts) :
    T.Moves s c (s₁.resume c (some sender) buffer, acts.map fun a => (c, a)) acts := by
  unfold TransportState.resume
  split_ifs
  · exact .hangUp _ hconn (hturn _ (Or.inr rfl)) hauth hin
  · exact .suspend _ hconn (hturn _ (Or.inl rfl)) hauth hin

theorem greet_moves (hsec : T.security.enabled = true) (hg : (s.connections c).handler = .greeting) :
    ∃ acts, T.Moves s c (T.greet s c buffer msg now nonce) acts := by
  have hh : (s.connections c).handler ≠ .idle ∧ (s.connections c).handler ≠ .ended := by simp [hg]
  unfold greet
  split_ifs with hcheck
  · exact ⟨_, .fail rfl rfl hh⟩
  push Not at hcheck
  split
  · next cache hv =>
    have hopened : T.Authentic (.opened msg.senderId msg) :=
      ⟨rfl, (verifyMessage_ok hsec (congrArg Prod.snd hv)).1, hcheck.1⟩
    simp only
    split
    · refine ⟨_, .hangUp [.opened msg.senderId msg, .failed] rfl ?_ ?_ fun x => Or.inl⟩
      · rw [hg]
        exact .unanswered _ _
      · exact List.forall_mem_cons.2 ⟨hopened, List.forall_mem_singleton.2 trivial⟩
    · refine ⟨_, .suspend [.opened msg.senderId msg] rfl ?_ ?_ fun x => Or.inl⟩
      · rw [hg]
        exact .greeted _ _
      · exact List.forall_mem_singleton.2 hopened
  · exact ⟨_, .fail rfl rfl hh⟩

theorem take_moves (hsec : T.security.enabled = true) {sender : Str}
    (hr : (s.connections c).handler = .reading (some sender)) :
    ∃ acts, T.Moves s c (T.take s c (some sender) buffer msg now) acts := by
  have hh : (s.connections c).handler ≠ .idle ∧ (s.connections c).handler ≠ .ended := by simp [hr]
  unfold take
  split
  · next cache hv =>
    obtain ⟨hdelivered, hsender⟩ := checkFrame_ok hsec (congrArg Prod.snd hv)
    obtain rfl := hsender sender rfl
    simp only
    split_ifs
    · refine ⟨[], .resume (by rfl) ?_ (List.forall_mem_nil _) fun x => Or.inl⟩
      rintro h (rfl | rfl)
      · rw [hr]
        exact .stay _
      · exact .stopped _ _ (Or.inr hr)
    · refine ⟨[.delivered msg.senderId msg], .resume (by rfl) (fun h hh => ?_)
        (List.forall_mem_singleton.2 hdelivered) ?_⟩
      · rw [hr]
        exact .delivered _ _ h hh
      · intro x hx
        simp only [List.mem_append, List.mem_singleton] at hx
        rcases hx with hx | rfl
        exacts [Or.inl hx, Or.inr (by simp)]
  · exact ⟨_, .fail rfl rfl hh⟩

/-- **What a step of a secure transport can do**: one connection makes a turn. -/
theorem react_moves (hsec : T.security.enabled = true)
    (hsome : ∀ c, (s.connections c).handler ≠ .reading none) (e : TransportEvent) :
    ∃ c acts, T.Moves s c (T.react s e) acts := by
  have hidle : ∀ c, ∃ c acts, T.Moves s c (s, []) acts :=
    fun c => ⟨c, [], .quiet rfl fun _ hx => hx⟩
  cases e with
  | connect c =>
    simp only [react]
    split
    · next hc =>
      refine ⟨c, [], ?_⟩
      unfold accept
      simp only [hsec, if_true]
      split_ifs
      · refine .suspend [] (by rfl) ?_ (List.forall_mem_nil _) fun x => Or.inl
        rw [hc]
        exact .refused
      · refine .suspend [] (by rfl) ?_ (List.forall_mem_nil _) fun x => Or.inl
        rw [hc]
        exact .connected
    · exact hidle c
  | data c octets =>
    simp only [react]
    split
    · exact hidle c
    · exact hidle c
    · exact ⟨c, [], .suspend [] (by rfl) (.stay _) (List.forall_mem_nil _) fun x => Or.inl⟩
  | frame c now nonce =>
    simp only [react, handleFrame]
    split
    · next hg =>
      split
      · exact hidle c
      · exact ⟨c, _, .fail rfl rfl (by simp [hg])⟩
      · exact ⟨c, greet_moves hsec hg⟩
    · next sender hr =>
      split
      · exact hidle c
      · exact ⟨c, _, .fail rfl rfl (by simp [hr])⟩
      · cases sender with
        | none => exact absurd hr (hsome c)
        | some sender => exact ⟨c, take_moves hsec hr⟩
    · exact hidle c
  | acked c =>
    simp only [react]
    split
    · next sender ha =>
      refine ⟨c, [], .resume (by rfl) ?_ (List.forall_mem_nil _) fun x => Or.inl⟩
      rintro h (rfl | rfl)
      · rw [ha]
        exact .answered _
      · exact .stopped _ sender (Or.inl ha)
    · exact hidle c
  | broken c =>
    simp only [react]
    split
    · exact hidle c
    · exact hidle c
    · next hi he => exact ⟨c, _, .fail rfl rfl ⟨hi, he⟩⟩
  | answered peer ack now =>
    simp only [react]
    split_ifs
    · exact hidle 0
    · exact ⟨0, [], .quiet (by rfl) fun _ hx => hx⟩
  | recv => exact ⟨0, [], .quiet (by rfl) fun _ hx => List.mem_of_mem_tail hx⟩
  | close => exact ⟨0, [], .quiet (by rfl) fun _ hx => hx⟩
  | closeWriters => exact ⟨0, [], .quiet (by rfl) fun _ hx => hx⟩

end

/-! ## Connections are sessions -/

/-- The session that a handler stands for; one that has ended may have been in any state. -/
def Matches : Handler → Session Str → Prop
  | .idle, q | .greeting, q => q = .fresh
  | .acking a, q | .reading (some a), q => q = .live a
  | .reading none, _ => False
  | .ended, q => q ≠ .broken

/-- What the connections have done fits sessions in the states of their handlers. -/
structure Follows (h : List (ℕ × Act Str Message)) (s : TransportState) : Prop where
  sessions : ∀ c, Matches (s.connections c).handler (run Session.act .fresh (actsOf c h))
  authentic : ∀ c a, (c, a) ∈ h → T.Authentic a
  inbox : ∀ x ∈ s.inbox, ∃ c, (c, .delivered x.1 x.2) ∈ h

section
variable {T} {h : List (ℕ × Act Str Message)} {s : TransportState}

/-- Each turn of a handler is one of the session. -/
theorem Turn.session {x y : Handler} {acts : List (Act Str Message)} (ht : Turn x acts y)
    {q : Session Str} (hq : Matches x q) : Matches y (run Session.act q acts) := by
  cases ht with
  | stay => exact hq
  | refused =>
    obtain rfl : q = .fresh := hq
    intro h
    cases h
  | connected => exact hq
  | greeted sender hello =>
    obtain rfl : q = .fresh := hq
    rfl
  | unanswered sender hello =>
    obtain rfl : q = .fresh := hq
    intro h
    cases h
  | answered sender => exact hq
  | stopped h sender hh =>
    rcases hh with rfl | rfl <;> obtain rfl : q = .live sender := hq <;> intro h <;> cases h
  | delivered sender msg h hh =>
    obtain rfl : q = .live sender := hq
    have hlive : run Session.act (.live sender) [.delivered sender msg] = .live sender := by
      simp [Session.act]
    rw [hlive]
    rcases hh with rfl | rfl
    · rfl
    · intro h
      cases h
  | failed _ hh =>
    cases x with
    | idle => exact absurd rfl hh.1
    | ended => exact absurd rfl hh.2
    | greeting =>
      obtain rfl : q = .fresh := hq
      intro h
      cases h
    | acking sender =>
      obtain rfl : q = .live sender := hq
      intro h
      cases h
    | reading sender =>
      cases sender with
      | none => exact hq.elim
      | some sender =>
        obtain rfl : q = .live sender := hq
        intro h
        cases h

theorem Matches.not_broken {x : Handler} {q : Session Str} (h : Matches x q) : q ≠ .broken := by
  rintro rfl
  cases x with
  | reading sender => cases sender <;> cases h
  | ended => exact h rfl
  | _ => cases h

theorem Follows.initial : T.Follows [] T.initial :=
  ⟨fun _ => rfl, by simp, by simp [TcpTransport.initial]⟩

theorem Follows.react (hsec : T.security.enabled = true) (hf : T.Follows h s) (e : TransportEvent) :
    T.Follows (h ++ (T.react s e).2) (T.react s e).1 := by
  have hsome : ∀ c, (s.connections c).handler ≠ .reading none := by
    intro c hc
    have hm := hf.sessions c
    rw [hc] at hm
    exact hm
  obtain ⟨c, acts, hm⟩ := react_moves hsec hsome e
  rw [hm.out]
  refine ⟨fun c' => ?_, fun c' a ha => ?_, fun x hx => ?_⟩
  · rw [actsOf_append, run_append]
    by_cases hc : c' = c
    · subst hc
      rw [actsOf_single]
      exact hm.turn.session (hf.sessions c')
    · rw [actsOf_other (Ne.symm hc), hm.others c' hc]
      exact hf.sessions c'
  · rcases List.mem_append.1 ha with ha | ha
    · exact hf.authentic c' a ha
    · obtain ⟨a', ha', heq⟩ := List.mem_map.1 ha
      obtain ⟨-, rfl⟩ := Prod.mk.inj heq
      exact hm.authentic _ ha'
  · rcases hm.inbox x hx with hx | hx
    · obtain ⟨c', hc'⟩ := hf.inbox x hx
      exact ⟨c', List.mem_append_left _ hc'⟩
    · exact ⟨c, List.mem_append_right _ (List.mem_map_of_mem hx)⟩

end

/-- **Authenticated connections.**  Whatever comes in on whatever connections of a secure transport,
    what is in the inbox was delivered by some connection, and at each delivery the message names the
    peer as its sender, is signed by it and is no message of the handshake, the connection was opened
    by a hello of the same peer, by no other one, and has not failed before. -/
theorem connections_authenticated (hsec : T.security.enabled = true) (es : List TransportEvent) :
    (∀ x ∈ (run T.step T.initial es).inbox, ∃ c, (c, .delivered x.1 x.2) ∈ T.history es) ∧
    ∀ pre c peer msg post, T.history es = pre ++ (c, .delivered peer msg) :: post →
      msg.senderId = peer ∧ T.SignedBy peer msg ∧ msg.msgType ∉ [str "hello", str "hello_ack"] ∧
      (∃ hello, (c, .opened peer hello) ∈ pre ∧ hello.senderId = peer ∧ T.SignedBy peer hello ∧
        hello.msgType = str "hello" ∧
        ∀ peer' hello', (c, .opened peer' hello') ∈ pre → peer' = peer ∧ hello' = hello) ∧
      (c, .failed) ∉ pre := by
  have hf : T.Follows (T.history es) (run T.step T.initial es) :=
    trace_invariant (I := T.Follows) (fun _ _ e hs => hs.react hsec e) es Follows.initial
  refine ⟨hf.inbox, fun pre c peer msg post heq => ?_⟩
  rw [heq] at hf
  obtain ⟨hsender, hsigned, htype⟩ := hf.authentic c (.delivered peer msg) (by simp)
  refine ⟨hsender, hsigned, htype, ?_⟩
  -- the part of the connection in the history
  have hlive : run Session.act .fresh (actsOf c pre ++ .delivered peer msg :: actsOf c post) ≠
      .broken := by
    have hm := (hf.sessions c).not_broken
    rwa [actsOf_append, actsOf_cons_self] at hm
  obtain ⟨hello, rest, hpre, hrest⟩ := Session.opened_before hlive
  have hopen : (c, Act.opened peer hello) ∈ pre := mem_actsOf.1 (by rw [hpre]; simp)
  obtain ⟨h1, h2, h3⟩ := hf.authentic c _ (List.mem_append_left _ hopen)
  refine ⟨⟨hello, hopen, h1, h2, h3, fun peer' hello' ho => ?_⟩, fun hfail => ?_⟩
  · rw [← mem_actsOf, hpre, List.mem_cons] at ho
    rcases ho with ho | ho
    · obtain ⟨rfl, rfl⟩ := Act.opened.inj ho
      exact ⟨rfl, rfl⟩
    · obtain ⟨m, hm⟩ := hrest _ ho
      cases hm
  · rw [← mem_actsOf, hpre, List.mem_cons] at hfail
    rcases hfail with hfail | hfail
    · cases hfail
    · obtain ⟨m, hm⟩ := hrest _ hfail
      cases hm

/-- A frame that is written as the first one of what comes in is read back. -/
theorem readFrame_toBytes (hconf : T.security = {}) {m : Message} (hm : m.WellFormed) {data : Bytes}
    (h : Message.toBytes R m = .ok data)
    (hlimits : Json.bounded 15 (256 * 1024) 0 (.obj m.payload) = true ∧
      (Json.obj m.payload).items + 7 ≤ 10000) (rest : Bytes) :
    T.readFrame (data ++ rest) = some (.ok m.canon, rest) := by
  have hread := (Message.fromBytes_toBytes hm h).2 ⟨hlimits, rfl⟩
  obtain ⟨hh, hv, hwrites, hlen, hdrop⟩ := Message.toBytes_ok h
  rw [hdrop] at hread
  rw [Message.toBytes_eq hh hv hwrites hlen (by decide)] at h
  obtain rfl := Except.ok.inj h
  have hpos : (m.text R).length ≠ 0 := by simp [Message.text, Message.document, Json.canon, Json.print]
  have hval : beVal ((be32 (m.text R).length ++ m.text R ++ rest).take 4) = (m.text R).length :=
    beVal_be32 (lt_of_le_of_lt hlen (by decide))
  have hlength : (be32 (m.text R).length ++ m.text R ++ rest).length =
      4 + (m.text R).length + rest.length := by
    rw [List.length_append, List.length_append, length_be32]
  have hbody : (be32 (m.text R).length ++ m.text R ++ rest).drop 4 = m.text R ++ rest := rfl
  have hafter : (be32 (m.text R).length ++ m.text R ++ rest).drop (4 + (m.text R).length) = rest := by
    rw [← List.drop_drop, hbody, List.drop_left]
  unfold readFrame
  simp only [hval, hlength, hafter, hbody, List.take_left, hconf, hread]
  rw [if_neg (by omega), if_neg (not_or.2 ⟨hpos, not_lt.2 hlen⟩), if_neg (by omega)]

section
variable {T} {s : TransportState} {c : ℕ} {buffer rest : Bytes} {msg : Message} {now : ℚ} {nonce : Str}
  {cache : ReplayCache}

/-- A valid hello is answered. -/
theorem step_greets (hconn : s.connections c = ⟨.greeting, buffer⟩)
    (hread : T.readFrame buffer = some (.ok msg, rest)) (htype : msg.msgType = str "hello")
    (hversion : T.sameVersion msg = true)
    (hv : T.verifyMessage s.replayCache msg none now = (cache, .ok true)) {ack : Bytes}
    (hack : T.helloAck now nonce = .ok ack) : T.step s (.frame c now nonce) =
      { s with replayCache := cache }.suspend c (.acking msg.senderId) rest := by
  simp [step, react, handleFrame, hconn, hread, greet, htype, hversion, hv, hack]

theorem step_acked {sender : Str} (hconn : s.connections c = ⟨.acking sender, buffer⟩)
    (hopen : s.closed = false) :
    T.step s (.acked c) = s.suspend c (.reading (some sender)) buffer := by
  simp [step, react, hconn, TransportState.resume, hopen]

/-- A valid frame is put in the inbox if there is room. -/
theorem step_takes {sender : Option Str} (hconn : s.connections c = ⟨.reading sender, buffer⟩)
    (hread : T.readFrame buffer = some (.ok msg, rest))
    (hv : T.checkFrame s.replayCache msg sender now = (cache, .ok true))
    (hroom : s.inbox.length < T.security.maxInboxSize) :
    (T.step s (.frame c now nonce)).inbox = s.inbox ++ [(msg.senderId, msg)] := by
  simp only [step, react, handleFrame, hconn, hread, take, hv, if_neg (not_le.2 hroom)]
  unfold TransportState.resume
  split_ifs <;> rfl

theorem verified_of_toOption {x : ReplayCache × Except Exn Bool} (h : x.2.toOption = some true) :
    x = (x.1, .ok true) := by
  obtain ⟨cache, _ | b⟩ := x
  · cases h
  · rw [Option.some.inj h]

end

namespace Sample

noncomputable def runtime : Runtime := .ofScheme .suffix

/-- The transport of the node `c`, which knows the key of `a`. -/
noncomputable def transportC : TcpTransport runtime where
  nodeId := str "c"
  identity := [3]
  keyring := ⟨⟨[(str "a", [1]), (str "c", [3])], by decide +kernel⟩⟩
  own_key := by decide +kernel

/-- A message of `a`, signed at time 0. -/
noncomputable def fromA (msgType nonce : String) (payload : Fields) : Message :=
  let unsigned : Message := ⟨str msgType, str "a", payload, some 0, some (str nonce), none, 2⟩
  { unsigned with signature := some (runtime.ed25519.sign [1]
    ((unsigned.canonicalBytes runtime).toOption.getD [])) }

noncomputable def hello : Message := fromA "hello" "h" [(str "protocol_version", .int 2)]

noncomputable def heartbeat : Message := fromA "heartbeat" "n" [(str "ts", .int 0)]

noncomputable def octets (m : Message) : Bytes := (Message.toBytes runtime m).toOption.getD []

/-- A hello and a heartbeat come in on one connection and are read one after the other. -/
noncomputable def arrivals : List TransportEvent :=
  [.connect 0, .data 0 (octets hello ++ (octets heartbeat ++ []))] ++
    [.frame 0 0 (str "n"), .acked 0, .frame 0 0 (str "n")]

theorem fromA_wellFormed {msgType nonce : String} {payload : Fields}
    (hp : (Json.obj payload).wf = true) (hn : 1 ≤ (str nonce).length ∧ (str nonce).length ≤ 128) :
    (fromA msgType nonce payload).WellFormed :=
  .of_signed hp rfl hn rfl (Ed25519.suffix_lawful.length_sign _ _)

theorem octets_read {m : Message} (hm : m.WellFormed)
    (hbytes : (Message.toBytes runtime m).toOption.isSome = true)
    (hlimits : Json.bounded 15 (256 * 1024) 0 (.obj m.payload) = true ∧
      (Json.obj m.payload).items + 7 ≤ 10000) (rest : Bytes) :
    transportC.readFrame (octets m ++ rest) = some (.ok m.canon, rest) := by
  obtain ⟨data, hdata⟩ := exists_ok hbytes
  rw [octets, hdata]
  exact transportC.readFrame_toBytes rfl hm hdata hlimits rest

theorem hello_read (rest : Bytes) :
    transportC.readFrame (octets hello ++ rest) = some (.ok hello.canon, rest) :=
  octets_read (fromA_wellFormed (by decide +kernel) (by decide)) (by decide +kernel)
    (by decide +kernel) rest

theorem heartbeat_read (rest : Bytes) :
    transportC.readFrame (octets heartbeat ++ rest) = some (.ok heartbeat.canon, rest) :=
  octets_read (fromA_wellFormed (by decide +kernel) (by decide)) (by decide +kernel)
    (by decide +kernel) rest

theorem connected (octets : Bytes) : ∃ s, run transportC.step transportC.initial
    [.connect 0, .data 0 octets] = s ∧ s.connections 0 = ⟨.greeting, octets⟩ ∧
    s.replayCache = transportC.initial.replayCache ∧ s.inbox = [] ∧ s.closed = false :=
  ⟨_, rfl, rfl, rfl, rfl, rfl⟩

theorem arrivals_inbox : (run transportC.step transportC.initial arrivals).inbox =
    [(str "a", heartbeat.canon)] := by
  have hhello := verified_of_toOption (x := transportC.verifyMessage
    transportC.initial.replayCache hello.canon none 0) (by decide +kernel)
  set cache := (transportC.verifyMessage transportC.initial.replayCache hello.canon none 0).1 with hc
  have hbeat := verified_of_toOption (x := transportC.checkFrame cache heartbeat.canon
    (some hello.canon.senderId) 0) (by rw [hc]; decide +kernel)
  obtain ⟨ack, hack⟩ := exists_ok (x := transportC.helloAck 0 (str "n")) (by decide +kernel)
  obtain ⟨s, hs, hconn, hreplay, hinbox, hopen⟩ :=
    connected (octets hello ++ (octets heartbeat ++ []))
  have hgreets := step_greets hconn (hello_read _) rfl (by decide)
    (by rw [hreplay]; exact hhello) hack
  rw [arrivals, run_append, hs, run_cons, hgreets, run_cons,
    step_acked (suspend_connection _ _ _) (by exact hopen), run_cons, run_nil]
  refine (step_takes (suspend_connection _ _ _) (heartbeat_read _) (by exact hbeat) ?_).trans ?_
  · show s.inbox.length < _
    rw [hinbox]
    decide
  · show s.inbox ++ _ = _
    rw [hinbox]
    rfl

end Sample

/-- A hello and a heartbeat of `a` come in, and the heartbeat is in the inbox. -/
theorem connections_authenticated_heartbeat :
    (str "a", Sample.heartbeat.canon) ∈
      (run Sample.transportC.step Sample.transportC.initial Sample.arrivals).inbox ∧
    Sample.transportC.SignedBy (str "a") Sample.heartbeat.canon ∧
    ∃ c hello, (c, .opened (str "a") hello) ∈ Sample.transportC.history Sample.arrivals := by
  obtain ⟨hall, hbefore⟩ := Sample.transportC.connections_authenticated rfl Sample.arrivals
  have hmem : (str "a", Sample.heartbeat.canon) ∈
      (run Sample.transportC.step Sample.transportC.initial Sample.arrivals).inbox := by
    rw [Sample.arrivals_inbox]
    exact List.mem_singleton_self _
  obtain ⟨c, hc⟩ := hall _ hmem
  obtain ⟨pre, post, hsplit⟩ := List.append_of_mem hc
  obtain ⟨-, hsigned, -, ⟨hello, hopen, -⟩, -⟩ := hbefore _ _ _ _ _ hsplit
  refine ⟨hmem, hsigned, c, hello, ?_⟩
  rw [hsplit]
  exact List.mem_append_left _ hopen

end TcpTransport

end PeerQ
