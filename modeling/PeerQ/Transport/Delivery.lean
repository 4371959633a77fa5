/-
  Delivery over TCP: from the calls of `send` of one transport to the inbox of
  another.

  A connection is a stream of octets that may end anywhere and comes in pieces of
  any size.  On the sending side it is a hello and the frames of the messages
  (`TcpClient.outgoing_authenticated`); the handler on the other side reads frame
  by frame (`react_progress`).  So the messages are delivered in the order in which
  they were written, none twice, and none is lost before the end of what was read
  unless the inbox was full (`delivery_in_order`).
-/
import PeerQ.Transport.Outgoing

namespace PeerQ

open Py

/-! ## Frames -/

namespace Message

variable {R : Runtime}

/-- A message that a transport has written. -/
def Sendable (R : Runtime) (m : Message) : Prop :=
  m.WellFormed ∧ ∃ size data, m.toBytes R size = .ok data

theorem text_length_lt {m : Message} {size : ℕ} {data : Bytes} (h : m.toBytes R size = .ok data) :
    (m.text R).length < 2 ^ 32 := by
  unfold toBytes at h
  split_ifs at h
  obtain ⟨_, -, h⟩ := bind_eq_ok.1 h
  obtain ⟨t, ht, h⟩ := bind_eq_ok.1 h
  unfold canonicalJsonBytes at ht
  split_ifs at ht
  obtain rfl := Except.ok.inj ht
  split_ifs at h with h1 h2
  exact not_le.1 h2

end Message

/-- The handler waits for the hello. -/
def Handler.isFresh : Handler → Bool
  | .idle | .greeting => true
  | _ => false

namespace TcpTransport

variable {R : Runtime} {T : TcpTransport R}

/-- What is read at the start of a frame is the message of the frame. -/
theorem readFrame_frame {m m' : Message} (hm : m.Sendable R) {buffer rest more left : Bytes}
    (hb : buffer ++ more = m.frame R ++ rest) (h : T.readFrame buffer = some (.ok m', left)) :
    m' = m.canon ∧ buffer = m.frame R ++ left := by
  obtain ⟨hwf, size, data, hdata⟩ := hm
  obtain ⟨hh, hv, hwrites, -, -⟩ := Message.toBytes_ok hdata
  unfold readFrame at h
  split_ifs at h with h4
  push Not at h4
  have htake : buffer.take 4 = be32 (m.text R).length := by
    have := congrArg (List.take 4) hb
    rw [List.take_append_of_le_length h4] at this
    rw [this, Message.frame, List.append_assoc]
    exact List.take_left' (length_be32 _)
  have hval : beVal (buffer.take 4) = (m.text R).length := by
    rw [htake, beVal_be32 (Message.text_length_lt hdata)]
  simp only [hval] at h
  split_ifs at h with hsize hmore
  · simp at h
  push Not at hsize hmore
  have hlen : (m.frame R).length = 4 + (m.text R).length := by
    rw [Message.frame, List.length_append, length_be32]
  have hbuffer : buffer = m.frame R ++ buffer.drop (4 + (m.text R).length) := by
    have hpre : buffer.take (4 + (m.text R).length) = m.frame R := by
      have := congrArg (List.take (4 + (m.text R).length)) hb
      rw [List.take_append_of_le_length hmore, ← hlen, List.take_left] at this
      rw [← hlen, this]
    rw [← hpre, List.take_append_drop]
  obtain ⟨hread, rfl⟩ := Prod.mk.inj (Option.some.inj h)
  have hbody : (buffer.drop 4).take (m.text R).length = m.text R := by
    rw [hbuffer, Message.frame, List.append_assoc, List.drop_left' (length_be32 _), List.take_left]
  rw [hbody, Message.fromBytes_text hwf hh hwrites hsize.2 ((validateJsonTree_ok_iff _).1 hv).1] at hread
  exact ⟨hread.2, hbuffer⟩

/-! ## One connection -/

variable (T)

/-- The octets that come in on a connection. -/
def intake (c : ℕ) (s : TransportState) : TransportEvent → Bytes
  | .data c' octets =>
    if c' = c then
      match (s.connections c).handler with
      | .idle | .ended => []
      | _ => octets
    else []
  | _ => []

/-- All that has come in on a connection. -/
def fed (es : List TransportEvent) (c : ℕ) : Bytes := trace (intake c) T.step T.initial es

/-- The messages that a connection has delivered. -/
def deliveredOn (es : List TransportEvent) (c : ℕ) : List Message :=
  (actsOf c (T.history es)).filterMap Act.delivery

/-- What a step can do to a connection of a secure transport, with what comes in and what is
    delivered. -/
inductive Progress (full : Prop) : Connection → Connection → Bytes → List Message → Prop
  | stay (x : Connection) : Progress full x x [] []
  | start (buffer : Bytes) : Progress full ⟨.idle, buffer⟩ ⟨.greeting, []⟩ [] []
  | feed (h : Handler) (buffer octets : Bytes) (hh : h ≠ .idle ∧ h ≠ .ended) :
      Progress full ⟨h, buffer⟩ ⟨h, buffer ++ octets⟩ octets []
  | stop (x : Connection) : Progress full x ⟨.ended, []⟩ [] []
  | greeted (sender : Str) (buffer rest : Bytes) (hello : Message)
      (hread : T.readFrame buffer = some (.ok hello, rest)) :
      Progress full ⟨.greeting, buffer⟩ ⟨.acking sender, rest⟩ [] []
  | acked (sender : Str) (buffer : Bytes) :
      Progress full ⟨.acking sender, buffer⟩ ⟨.reading (some sender), buffer⟩ [] []
  | took (sender : Option Str) (buffer rest : Bytes) (m : Message) (y : Connection)
      (hread : T.readFrame buffer = some (.ok m, rest))
      (hy : y = ⟨.reading sender, rest⟩ ∨ y = ⟨.ended, []⟩) :
      Progress full ⟨.reading sender, buffer⟩ y [] [m]
  | dropped (sender : Option Str) (buffer rest : Bytes) (m : Message) (hfull : full)
      (hread : T.readFrame buffer = some (.ok m, rest)) :
      Progress full ⟨.reading sender, buffer⟩ ⟨.reading sender, rest⟩ [] []

variable {T}

section
variable {s : TransportState} {c : ℕ} {full : Prop}

theorem hangUp_connection (c' : ℕ) : (s.hangUp c').connections c =
    if c = c' then ⟨.ended, []⟩ else s.connections c := by
  by_cases h : c = c' <;> simp [TransportState.hangUp, TransportState.suspend, h]

/-- The loop over the frames goes on or ends. -/
theorem resume_connection (s : TransportState) (c : ℕ) (sender : Option Str) (buffer : Bytes) :
    (s.resume c sender buffer).connections c = ⟨.reading sender, buffer⟩ ∨
      (s.resume c sender buffer).connections c = ⟨.ended, []⟩ := by
  unfold TransportState.resume
  split_ifs
  · exact Or.inr (by simp [hangUp_connection])
  · exact Or.inl (suspend_connection _ _ _)

theorem resume_other {c' : ℕ} (hc : c ≠ c') {sender : Option Str} {buffer : Bytes} :
    (s.resume c' sender buffer).connections c = s.connections c := by
  unfold TransportState.resume
  split_ifs
  · rw [hangUp_connection, if_neg hc]
  · exact suspend_other hc _ _

/-- A frame of another connection. -/
theorem handleFrame_other {c' : ℕ} (hc : c ≠ c') (now : ℚ) (nonce : Str) :
    (T.handleFrame s c' now nonce).1.connections c = s.connections c ∧
      actsOf c (T.handleFrame s c' now nonce).2 = [] := by
  have hacts : ∀ l : List (Act Str Message), actsOf c (l.map fun x => (c', x)) = [] :=
    actsOf_other (Ne.symm hc)
  unfold handleFrame
  split
  · split
    · exact ⟨rfl, rfl⟩
    · exact ⟨by rw [hangUp_connection, if_neg hc], hacts [.failed]⟩
    · next hello buffer _ =>
      unfold greet
      split_ifs
      · exact ⟨by rw [hangUp_connection, if_neg hc], hacts [.failed]⟩
      · split
        · simp only
          split
          · exact ⟨by rw [hangUp_connection, if_neg hc], hacts [.opened hello.senderId hello, .failed]⟩
          · exact ⟨suspend_other hc _ _, hacts [.opened hello.senderId hello]⟩
        · exact ⟨by rw [hangUp_connection, if_neg hc], hacts [.failed]⟩
  · split
    · exact ⟨rfl, rfl⟩
    · exact ⟨by rw [hangUp_connection, if_neg hc], hacts [.failed]⟩
    · next msg buffer _ =>
      unfold take
      split
      · simp only
        split_ifs
        · exact ⟨resume_other hc, rfl⟩
        · exact ⟨resume_other hc, hacts [.delivered msg.senderId msg]⟩
      · exact ⟨by rw [hangUp_connection, if_neg hc], hacts [.failed]⟩
  · exact ⟨rfl, rfl⟩

/-- The acts of one connection. -/
theorem Progress.of_acts {x y : Connection} (acts : List (Act Str Message))
    (h : T.Progress full x y [] (acts.filterMap Act.delivery)) : T.Progress full x y []
      ((actsOf c (acts.map fun x => (c, x))).filterMap Act.delivery) := by
  rwa [actsOf_single]

/-- The handler of the connection ends. -/
theorem Progress.of_hangUp (x : Connection) (acts : List (Act Str Message))
    (hacts : acts.filterMap Act.delivery = []) : T.Progress full x ((s.hangUp c).connections c) []
      ((actsOf c (acts.map fun x => (c, x))).filterMap Act.delivery) := by
  rw [hangUp_connection, if_pos rfl, actsOf_single, hacts]
  exact .stop x

/-- The next frame of a connection. -/
theorem handleFrame_progress (now : ℚ) (nonce : Str) :
    T.Progress (T.security.maxInboxSize ≤ s.inbox.length) (s.connections c)
      ((T.handleFrame s c now nonce).1.connections c) []
      ((actsOf c (T.handleFrame s c now nonce).2).filterMap Act.delivery) := by
  cases hconn : s.connections c with
  | mk handler buffer =>
  unfold handleFrame
  rw [hconn]
  cases handler with
  | greeting =>
    simp only
    split
    · rw [hconn]
      exact .stay _
    · exact .of_hangUp _ [.failed] rfl
    · next hello rest hread =>
      unfold greet
      split_ifs
      · exact .of_hangUp _ [.failed] rfl
      · split
        · simp only
          split
          · exact .of_hangUp _ [.opened hello.senderId hello, .failed] rfl
          · refine .of_acts [.opened hello.senderId hello] ?_
            rw [suspend_connection]
            exact .greeted _ _ _ hello hread
        · exact .of_hangUp _ [.failed] rfl
  | reading sender =>
    simp only
    split
    · rw [hconn]
      exact .stay _
    · exact .of_hangUp _ [.failed] rfl
    · next m rest hread =>
      unfold take
      split
      · simp only
        split_ifs with hfull
        · refine .of_acts [] ?_
          rcases resume_connection _ c sender rest with h | h
          · rw [h]
            exact .dropped sender buffer rest m hfull hread
          · rw [h]
            exact .stop _
        · refine .of_acts [.delivered m.senderId m] ?_
          exact .took sender buffer rest m _ hread (resume_connection _ _ _ _)
      · exact .of_hangUp _ [.failed] rfl
  | _ =>
    rw [hconn]
    exact .stay _

/-- **What a step does to a connection** of a secure transport. -/
theorem react_progress (hsec : T.security.enabled = true) (e : TransportEvent) :
    T.Progress (T.security.maxInboxSize ≤ s.inbox.length) (s.connections c)
      ((T.react s e).1.connections c) (intake c s e)
      ((actsOf c (T.react s e).2).filterMap Act.delivery) := by
  cases e with
  | connect c' =>
    simp only [react]
    split
    · next hidle =>
      unfold accept
      simp only [hsec, if_true]
      by_cases hc : c = c'
      · subst hc
        cases hconn : s.connections c with
        | mk handler buffer =>
        rw [hconn] at hidle
        obtain rfl : handler = .idle := hidle
        split_ifs
        · rw [suspend_connection]
          exact .stop _
        · rw [suspend_connection]
          exact .start buffer
      · split_ifs
        · rw [suspend_other hc]
          exact .stay _
        · rw [suspend_other hc]
          exact .stay _
    · exact .stay _
  | data c' octets =>
    by_cases hc : c' = c
    · subst hc
      simp only [react, intake, if_true]
      cases hconn : s.connections c' with
      | mk handler buffer =>
      cases handler
      case idle => rw [hconn]; exact .stay _
      case ended => rw [hconn]; exact .stay _
      all_goals
        rw [suspend_connection]
        exact .feed _ _ _ (by simp)
    · simp only [react, intake, if_neg hc]
      split
      · exact .stay _
      · exact .stay _
      · rw [suspend_other (Ne.symm hc)]
        exact .stay _
  | frame c' now nonce =>
    by_cases hc : c = c'
    · subst hc
      exact handleFrame_progress now nonce
    · obtain ⟨hconn, hacts⟩ := handleFrame_other (T := T) (s := s) hc now nonce
      simp only [react, hconn, hacts]
      exact .stay _
  | acked c' =>
    simp only [react]
    split
    · next sender hack =>
      by_cases hc : c = c'
      · subst hc
        cases hconn : s.connections c with
        | mk handler buffer =>
        rw [hconn] at hack
        obtain rfl : handler = .acking sender := hack
        rcases resume_connection s c (some sender) buffer with h | h
        · rw [h]
          exact .acked sender buffer
        · rw [h]
          exact .stop _
      · rw [resume_other hc]
        exact .stay _
    · exact .stay _
  | broken c' =>
    simp only [react]
    split
    · exact .stay _
    · exact .stay _
    · by_cases hc : c = c'
      · subst hc
        exact .of_hangUp _ [.failed] rfl
      · rw [hangUp_connection, if_neg hc, show actsOf c [(c', Act.failed)] = [] from
          actsOf_other (Ne.symm hc) [.failed]]
        exact .stay _
  | answered peer ack now =>
    simp only [react]
    split_ifs <;> exact .stay _
  | recv => exact .stay _
  | close => exact .stay _
  | closeWriters => exact .stay _

end

/-! ## A stream of frames -/

/-- Of a stream of frames, the first `k` are read: the first one is the hello, and the others are
    delivered, but for those that found the inbox full. -/
structure Streamed (R : Runtime) (ms : List Message) (roomy : Prop) (x : Connection) (fed : Bytes)
    (done : List Message) (k : ℕ) : Prop where
  count : k ≤ ms.length
  idle : x.handler = .idle → x.buffer = []
  fresh : x.handler.isFresh = true → k = 0
  begun : x.handler.isFresh = false → x.handler ≠ .ended → 1 ≤ k
  read : x.handler ≠ .ended → fed = (ms.take k).flatMap (Message.frame R) ++ x.buffer
  sub : done.Sublist (((ms.take k).drop 1).map Message.canon)
  all : roomy → done = ((ms.take k).drop 1).map Message.canon

section
variable {ms : List Message} {roomy : Prop} {x y : Connection} {fed more : Bytes}
  {done : List Message} {k : ℕ}

/-- The next frame of the stream. -/
theorem Streamed.next (hms : ∀ m ∈ ms, m.Sendable R) (h : Streamed R ms roomy x fed done k)
    (hend : x.handler ≠ .ended) (hfed : fed <+: ms.flatMap (Message.frame R)) {m : Message}
    {rest : Bytes} (hread : T.readFrame x.buffer = some (.ok m, rest)) :
    ∃ m₀, ms[k]? = some m₀ ∧ m = m₀.canon ∧
      fed = (ms.take (k + 1)).flatMap (Message.frame R) ++ rest := by
  obtain ⟨more, hmore⟩ := hfed
  have hbuffer : x.buffer ++ more = (ms.drop k).flatMap (Message.frame R) := by
    have hsplit : ms.flatMap (Message.frame R) =
        (ms.take k).flatMap (Message.frame R) ++ (ms.drop k).flatMap (Message.frame R) := by
      rw [← List.flatMap_append, List.take_append_drop]
    rw [h.read hend, hsplit, List.append_assoc] at hmore
    exact List.append_cancel_left hmore
  cases hk : ms[k]? with
  | none =>
    -- nothing is left of the stream, so there is no frame
    have hnil : ms.drop k = [] := List.drop_eq_nil_of_le (List.getElem?_eq_none_iff.1 hk)
    rw [hnil, List.flatMap_nil, List.append_eq_nil_iff] at hbuffer
    rw [hbuffer.1] at hread
    cases hread
  | some m₀ =>
    have hdrop : ms.drop k = m₀ :: ms.drop (k + 1) :=
      (List.drop_eq_getElem?_toList_append ..).trans (by simp [hk])
    rw [hdrop, List.flatMap_cons] at hbuffer
    obtain ⟨rfl, hb⟩ := readFrame_frame (hms m₀ (List.mem_of_getElem? hk)) hbuffer hread
    refine ⟨m₀, rfl, rfl, ?_⟩
    have htake : ms.take (k + 1) = ms.take k ++ [m₀] := by
      rw [List.take_add_one, hk]
      rfl
    rw [h.read hend, hb, htake, List.flatMap_append]
    simp

theorem take_succ_drop {k : ℕ} {m₀ : Message} (hk : ms[k]? = some m₀) (h1 : 1 ≤ k) :
    ((ms.take (k + 1)).drop 1).map Message.canon =
      ((ms.take k).drop 1).map Message.canon ++ [m₀.canon] := by
  have hlt := (List.getElem?_eq_some_iff.1 hk).1
  rw [List.take_add_one, hk, List.drop_append_of_le_length (by rw [List.length_take]; omega),
    List.map_append]
  rfl

/-- What happens to the connection keeps it on the stream. -/
theorem Streamed.progress (hms : ∀ m ∈ ms, m.Sendable R) (h : Streamed R ms roomy x fed done k)
    {full : Prop} (hroom : roomy → ¬full) {octets : Bytes} {new : List Message}
    (hp : T.Progress full x y octets new) (hfed : fed ++ octets <+: ms.flatMap (Message.frame R)) :
    ∃ k', Streamed R ms roomy y (fed ++ octets) (done ++ new) k' := by
  cases hp with
  | stay =>
    rw [List.append_nil, List.append_nil]
    exact ⟨k, h⟩
  | start buffer =>
    obtain rfl := h.fresh rfl
    have hnil : buffer = [] := h.idle rfl
    have hread := h.read (by simp)
    rw [List.append_nil, List.append_nil]
    exact ⟨0, h.count, by simp, fun _ => rfl, by simp [Handler.isFresh], fun _ => by rw [hread, hnil],
      h.sub, h.all⟩
  | feed handler buffer _ hh =>
    rw [List.append_nil]
    exact ⟨k, h.count, fun hi => absurd hi hh.1, h.fresh, h.begun,
      fun he => by rw [h.read he, List.append_assoc], h.sub, h.all⟩
  | stop =>
    rw [List.append_nil, List.append_nil]
    exact ⟨k, h.count, by simp, by simp [Handler.isFresh], by simp, by simp, h.sub, h.all⟩
  | greeted sender buffer rest hello hread =>
    rw [List.append_nil] at hfed
    obtain rfl := h.fresh rfl
    obtain ⟨m₀, hk, -, hfed'⟩ := h.next hms (by simp) hfed hread
    have hlen := (List.getElem?_eq_some_iff.1 hk).1
    rw [List.append_nil, List.append_nil]
    refine ⟨1, hlen, by simp, by simp [Handler.isFresh], fun _ _ => le_rfl, fun _ => hfed', ?_, ?_⟩
    · exact h.sub.trans (by simp)
    · intro hr
      rw [h.all hr]
      simp
  | acked sender buffer =>
    rw [List.append_nil, List.append_nil]
    exact ⟨k, h.count, by simp, by simp [Handler.isFresh], fun _ _ => h.begun rfl (by simp),
      fun _ => h.read (by simp), h.sub, h.all⟩
  | took sender buffer rest m _ hread hy =>
    rw [List.append_nil] at hfed
    have h1 := h.begun rfl (by simp)
    obtain ⟨m₀, hk, rfl, hfed'⟩ := h.next hms (by simp) hfed hread
    have hlen := (List.getElem?_eq_some_iff.1 hk).1
    rw [List.append_nil]
    refine ⟨k + 1, hlen, ?_, ?_, ?_, ?_, ?_, ?_⟩
    · rcases hy with rfl | rfl <;> simp
    · rcases hy with rfl | rfl <;> simp [Handler.isFresh]
    · exact fun _ _ => Nat.le_add_left 1 k
    · rcases hy with rfl | rfl
      · exact fun _ => hfed'
      · simp
    · rw [take_succ_drop hk h1]
      exact h.sub.append (List.Sublist.refl _)
    · intro hr
      rw [take_succ_drop hk h1, h.all hr]
  | dropped sender buffer rest m hfull hread =>
    rw [List.append_nil] at hfed
    have h1 := h.begun rfl (by simp)
    obtain ⟨m₀, hk, -, hfed'⟩ := h.next hms (by simp) hfed hread
    have hlen := (List.getElem?_eq_some_iff.1 hk).1
    rw [List.append_nil, List.append_nil]
    refine ⟨k + 1, hlen, by simp, by simp [Handler.isFresh], fun _ _ => Nat.le_add_left 1 k,
      fun _ => hfed', ?_, fun hr => absurd hfull (hroom hr)⟩
    rw [take_succ_drop hk h1]
    exact h.sub.trans (List.sublist_append_left _ _)

theorem Streamed.mono {roomy' : Prop} (h : Streamed R ms roomy x fed done k) (hr : roomy' → roomy) :
    Streamed R ms roomy' x fed done k :=
  ⟨h.count, h.idle, h.fresh, h.begun, h.read, h.sub, fun h' => h.all (hr h')⟩

/-- All frames are read once there are no octets left. -/
theorem Streamed.complete (h : Streamed R ms roomy x fed done k) (hend : x.handler ≠ .ended)
    (hb : x.buffer = []) (hfed : fed = ms.flatMap (Message.frame R)) : k = ms.length := by
  have hread := h.read hend
  rw [hb, List.append_nil, hfed] at hread
  have hsplit : ms.flatMap (Message.frame R) =
      (ms.take k).flatMap (Message.frame R) ++ (ms.drop k).flatMap (Message.frame R) := by
    rw [← List.flatMap_append, List.take_append_drop]
  have hnil : (ms.drop k).flatMap (Message.frame R) = [] := by
    rw [hread] at hsplit
    exact List.append_right_eq_self.1 hsplit.symm
  refine le_antisymm h.count (not_lt.1 fun hlt => ?_)
  have hm : ms[k] ∈ ms.drop k := by
    rw [List.drop_eq_getElem_cons hlt]
    exact List.mem_cons_self
  have hframe := List.flatMap_eq_nil_iff.1 hnil _ hm
  exact absurd (congrArg List.length hframe)
    (by rw [List.length_nil, Message.frame, List.length_append, length_be32]; omega)

variable (T) in
/-- The inbox has room at every step of the run. -/
def Roomy (es : List TransportEvent) : Prop :=
  ∀ pre, pre <+: es → (run T.step T.initial pre).inbox.length < T.security.maxInboxSize

/-- **A run on a stream of frames.** -/
theorem run_streamed (hsec : T.security.enabled = true) (hms : ∀ m ∈ ms, m.Sendable R)
    {es : List TransportEvent} {c : ℕ} (hfed : T.fed es c <+: ms.flatMap (Message.frame R)) :
    ∃ k, Streamed R ms (T.Roomy es) ((run T.step T.initial es).connections c) (T.fed es c)
      (T.deliveredOn es c) k := by
  induction es using List.reverseRecOn with
  | nil =>
    exact ⟨0, Nat.zero_le _, fun _ => rfl, fun _ => rfl, by simp [TcpTransport.initial, Handler.isFresh],
      fun _ => rfl, List.Sublist.refl _, fun _ => rfl⟩
  | append_singleton es e ih =>
    have hstep : T.fed (es ++ [e]) c = T.fed es c ++ intake c (run T.step T.initial es) e :=
      trace_concat _ _ _ _ _
    have hacts : T.deliveredOn (es ++ [e]) c = T.deliveredOn es c ++
        (actsOf c (T.react (run T.step T.initial es) e).2).filterMap Act.delivery := by
      rw [deliveredOn, history, trace_concat, actsOf_append, List.filterMap_append]
      rfl
    rw [hstep] at hfed ⊢
    rw [hacts, run_concat]
    obtain ⟨k, hk⟩ := ih ((List.prefix_append _ _).trans hfed)
    have hless : T.Roomy (es ++ [e]) → T.Roomy es :=
      fun h pre hpre => h pre (hpre.trans (List.prefix_append _ _))
    exact (hk.mono hless).progress hms (fun h => not_le.2 (h es (List.prefix_append _ _)))
      (react_progress hsec e) hfed

end

/-- A message of the node is written as the annotations allow. -/
theorem signedMessage_wellFormed (hE : R.ed25519.Lawful) {msgType : Str} {payload : Fields}
    {wallNow : ℚ} {nonce : Str} {m : Message} (hp : (Json.obj payload).wf = true)
    (hm : T.signedMessage msgType payload wallNow nonce = .ok m) : m.WellFormed := by
  unfold signedMessage Message.signed at hm
  split_ifs at hm with hn
  obtain ⟨data, -, hm⟩ := bind_eq_ok.1 hm
  obtain rfl := Except.ok.inj hm
  exact .of_signed hp rfl (by omega) rfl (hE.length_sign _ _)

end TcpTransport

/-- **Delivery over TCP.**  Let a secure transport handle any calls of `send` side by side, and let
    what it has written to a connection, or a first part of it, come in at another secure transport
    in pieces of any size, between whatever else happens there.  Then the connection delivers copies
    of the messages in the order in which they were written, none twice; while the inbox has room, it
    skips none; and once all octets are read and the connection stands, it has delivered all. -/
theorem TcpClient.delivery_in_order {R : Runtime} (hE : R.ed25519.Lawful) (C : TcpClient R)
    (S : TcpTransport R) (hC : C.security.enabled = true) (hS : S.security.enabled = true)
    {es : List ClientEvent} (hes : ∀ peer msg now, .send peer msg now ∈ es → msg.WellFormed)
    {link : ℕ} {l : Link} (hl : (run C.step .initial es).links[link]? = some l)
    {es' : List TransportEvent} {c : ℕ} (hfed : S.fed es' c <+: l.written) :
    (S.deliveredOn es' c).Sublist ((C.sentOn es link).map Message.canon) ∧
    (S.Roomy es' → S.deliveredOn es' c <+: (C.sentOn es link).map Message.canon ∧
      (S.fed es' c = l.written → ((run S.step S.initial es').connections c).handler ≠ .ended →
        ((run S.step S.initial es').connections c).buffer = [] →
        S.deliveredOn es' c = (C.sentOn es link).map Message.canon)) := by
  have hk : C.Kept Message.WellFormed (C.history es) (run C.step .initial es) := run_kept hC hes
  have hsendable : ∀ m ∈ C.sentOn es link, m.Sendable R := by
    intro m hm
    obtain ⟨a, ha, hdel⟩ := List.mem_filterMap.1 hm
    cases a with
    | delivered peer msg =>
      obtain rfl := Option.some.inj hdel
      obtain ⟨⟨-, hwf⟩, data, hdata⟩ := hk.genuine link _ (mem_actsOf.1 ha)
      exact ⟨hwf, _, data, hdata⟩
    | _ => cases hdel
  have hview : (run C.step .initial es).views[link]? = some (l.peer, l.written) := by
    simp [ClientState.views, hl]
  -- what was written is a stream of frames, of which the first one is the hello
  obtain ⟨ms, hms, hwritten, hdrop⟩ : ∃ ms : List Message, (∀ m ∈ ms, m.Sendable R) ∧
      l.written = ms.flatMap (Message.frame R) ∧ ms.drop 1 = C.sentOn es link := by
    rcases (hk.links link _ hview).written with
      ⟨hnil, hw⟩ | ⟨hello, ⟨now, nonce, hsigned, data, hdata⟩, hw⟩
    · exact ⟨[], by simp, hw, by rw [TcpClient.sentOn, hnil]; rfl⟩
    · refine ⟨hello :: C.sentOn es link, ?_, hw, rfl⟩
      refine List.forall_mem_cons.2 ⟨⟨?_, _, data, hdata⟩, hsendable⟩
      exact TcpTransport.signedMessage_wellFormed hE rfl hsigned
  rw [hwritten] at hfed ⊢
  obtain ⟨k, hstream⟩ := TcpTransport.run_streamed hS hms hfed
  have hpart : (ms.take k).drop 1 <+: C.sentOn es link := by
    rw [← hdrop]
    exact (List.take_prefix k ms).drop 1
  refine ⟨hstream.sub.trans (hpart.sublist.map _), fun hroom => ⟨?_, fun hall hend hbuffer => ?_⟩⟩
  · rw [hstream.all hroom]
    exact hpart.map _
  · have hlast := hstream.complete hend hbuffer hall
    rw [hstream.all hroom, hlast, List.take_length, hdrop]

namespace TcpClient.Sample

/-- The transport of `a`, which knows the address and the key of `c`. -/
noncomputable def clientA : TcpClient TcpTransport.Sample.runtime where
  nodeId := str "a"
  identity := [1]
  keyring := TcpTransport.Sample.transportC.keyring
  own_key := by decide +kernel
  peerAddresses := {str "c"}

/-- The answer of `c` to the hello of `a`. -/
noncomputable def answer : Message :=
  let unsigned : Message :=
    ⟨str "hello_ack", str "c", [(str "protocol_version", .int 2)], some 0, some (str "k"), none, 2⟩
  { unsigned with signature := some (TcpTransport.Sample.runtime.ed25519.sign [3]
    ((unsigned.canonicalBytes TcpTransport.Sample.runtime).toOption.getD [])) }

/-- A call of `send` at `a`, up to the frame of the heartbeat. -/
noncomputable def calls : List ClientEvent :=
  [.send (str "c") TcpTransport.Sample.heartbeat 0, .opened 0 0 (str "h"), .drained 0,
   .answered 0 answer TcpTransport.Sample.transportC.initial.replayCache 0]

end TcpClient.Sample

/-- The heartbeat of `a` comes in at `c`. -/
theorem TcpClient.delivery_in_order_heartbeat :
    (run Sample.clientA.step .initial Sample.calls).links.map Link.written =
      [TcpTransport.Sample.transportC.fed TcpTransport.Sample.arrivals 0] ∧
    (TcpTransport.Sample.transportC.deliveredOn TcpTransport.Sample.arrivals 0).Sublist
      ((Sample.clientA.sentOn Sample.calls 0).map Message.canon) := by
  have hfed : TcpTransport.Sample.transportC.fed TcpTransport.Sample.arrivals 0 =
      TcpTransport.Sample.octets TcpTransport.Sample.hello ++
        (TcpTransport.Sample.octets TcpTransport.Sample.heartbeat ++ []) := by
    simp only [TcpTransport.fed, TcpTransport.Sample.arrivals, List.cons_append, List.nil_append, trace,
      TcpTransport.intake, if_true, List.append_nil]
    rfl
  have hwritten : (run Sample.clientA.step .initial Sample.calls).links.map Link.written =
      [TcpTransport.Sample.octets TcpTransport.Sample.hello ++
        (TcpTransport.Sample.octets TcpTransport.Sample.heartbeat ++ [])] := by
    decide +kernel
  rw [← hfed] at hwritten
  refine ⟨hwritten, ?_⟩
  obtain ⟨l, hl, hl'⟩ := List.map_eq_singleton_iff.1 hwritten
  refine (delivery_in_order Ed25519.suffix_lawful Sample.clientA TcpTransport.Sample.transportC rfl rfl
    ?_ (by rw [hl]; rfl) (by rw [hl'])).1
  intro peer msg now hmem
  simp only [Sample.calls, List.mem_cons, List.not_mem_nil, or_false, reduceCtorEq,
    ClientEvent.send.injEq] at hmem
  obtain ⟨-, rfl, -⟩ := hmem
  exact TcpTransport.Sample.fromA_wellFormed (by decide +kernel) (by decide)

end PeerQ
