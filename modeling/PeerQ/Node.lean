/-
  The node (`peerq/node.py`) as a state machine.

  A step is what the node does between two suspension points of its coroutines:
  a call of `submit_task`, the processing of a received message, a stretch of
  the worker loop or of the reclaim loop up to its next `await`, a gossip round,
  or a crash with a restart on what is left of the log.  What the environment
  decides (clock readings, suspicions of the failure detector, handler outcomes,
  drawn nonces, when a send returns) is part of the event.  An exception that
  leaves a loop ends the loop.

  `NodeState.journal` and `NodeState.sent` are histories for stating theorems:
  what was appended to the log, and what was handed to the transport.
-/
import PeerQ.Merge
import PeerQ.Wal
import PeerQ.Queue
import PeerQ.Message
import PeerQ.Lib.Runs

namespace PeerQ

open Py

/-! ## Configuration and state -/

/-- The arguments of a `PeerNode`, with what its constructor checks. -/
structure PeerNode (R : Runtime) where
  nodeId : Str
  peers : List Str
  hasHandler : Bool
  leaseDuration : ℚ := 5
  maxQueueSize : ℤ := 1000
  initialCredits : ℤ := 20
  wal : Option WriteAheadLog := none
  identity : Bytes
  keyring : PeerKeyRing
  security : SecurityConfig := .default
  maxTasks : ℕ := 10000
  nodeId_ok : TaskRecord.PeerIdOk nodeId
  peers_ok : nodeId ∉ peers ∧ peers.Nodup ∧ ∀ p ∈ peers, TaskRecord.PeerIdOk p
  own_key : keyring.getPeerKey nodeId = some (R.ed25519.publicKey identity)
  maxTasks_pos : 0 < maxTasks

/-- The default of `max_tasks` will do. -/
theorem PeerNode.defaultTasks_pos : 0 < 10000 := by decide

/-- The counters of `MetricsCollector` that the node bumps. -/
inductive Metric where
  | enqueued | claimed | completed | failed | reclaimed | rejected
  deriving DecidableEq

/-- What the node appends to its log. -/
inductive LogEntry where
  | task (r : TaskRecord)
  | clock (c : VectorClock)
  deriving DecidableEq

/-- The entry of `append_task` or `append_clock`. -/
def LogEntry.entry : LogEntry → WalEntry
  | .task r => ⟨recordTask, r.pyDict⟩
  | .clock c => ⟨recordClock, c.pyDict⟩

/-- The locals of one round of `_worker_loop`: the task, the record it had, the token and the lease
    taken for it. -/
structure Job where
  taskId : Str
  record : TaskRecord
  newToken : FenceToken
  leaseExp : ℚ

/-- Where `_worker_loop` is suspended; in a broadcast, `rest` are the peers still to be sent to
    after the pending send. -/
inductive Worker where
  | stopped
  | waiting
  | claiming (job : Job) (msg : Message) (rest : List Str)
  | handling (job : Job)
  | committing (job : Job) (newState : TaskState) (msg : Message) (rest : List Str)
  | crediting

/-- Where `_reclaim_loop` is suspended: between sweeps, or in the broadcast of a reset, with the
    rest of the snapshot it works through. -/
inductive Reclaim where
  | stopped
  | sleeping
  | resetting (msg : Message) (rest : List Str) (now : ℚ) (livePeers : List Str)
      (snapshot : List (Str × TaskRecord))

/-- The replicated part of a node's state: the store, the clock and the log file.  The counters of a
    clock are integers; `C` is another representation where a log may hold others. -/
structure Replica (C : Type := VectorClock) where
  tasks : Dict Str TaskRecord
  vectorClock : C
  walFile : Option Bytes
  journal : List LogEntry

/-- The state of a node. -/
structure NodeState (C : Type := VectorClock) extends Replica C where
  queue : BackpressureQueue
  queuedTaskIds : Finset Str
  messageReplay : ReplayCache
  credits : Dict Str ℤ
  metrics : Metric → ℕ
  worker : Worker
  reclaim : Reclaim
  receiving : Bool
  gossiping : Bool
  heartbeating : Bool
  up : Bool
  sent : List (Str × Message)

/-- `_tasks[task_id] = record`. -/
def Replica.store {C : Type} (p : Replica C) (taskId : Str) (r : TaskRecord) : Replica C :=
  { p with tasks := p.tasks.set taskId r }

namespace NodeState

/-- `metrics.increment`. -/
def bump (s : NodeState) (m : Metric) : NodeState :=
  { s with metrics := fun k => if k = m then s.metrics k + 1 else s.metrics k }

/-- Hand a message to the transport. -/
def send (s : NodeState) (peer : Str) (m : Message) : NodeState :=
  { s with sent := s.sent ++ [(peer, m)] }

/-- `with suppress(QueueFull): put_nowait(task_id, priority); queued.add(task_id)`. -/
def tryEnqueue {C : Type} (s : NodeState C) (taskId : Str) (priority : ℤ) : NodeState C :=
  match s.queue.put taskId priority with
  | .ok q => { s with queue := q, queuedTaskIds := insert taskId s.queuedTaskIds }
  | .error _ => s

/-- Queue a task that is stored as `PENDING` and not queued. -/
def enqueuePending {C : Type} (s : NodeState C) (taskId : Str) (r : TaskRecord) : NodeState C :=
  if r.state = .pending ∧ taskId ∉ s.queuedTaskIds then s.tryEnqueue taskId 0 else s

end NodeState

namespace PeerNode

variable {R : Runtime} (N : PeerNode R)

/-- The keyring given to `merge_records`. -/
def mergeKeyring : Option PeerKeyRing := if N.security.enabled then some N.keyring else none

/-- `_seal_record`. -/
def sealRecord (r : TaskRecord) : TaskRecord :=
  if N.security.enabled then signTask R N.identity r N.nodeId else r

/-- `_signed_message`. -/
def signedMessage (msgType : Str) (payload : Fields) (wallNow : ℚ) (nonce : Str) :
    Except Exn Message :=
  Message.signed R ⟨msgType, N.nodeId, payload, none, none, none, N.security.protocolVersion⟩
    N.identity wallNow nonce

/-- The payload `{"tasks": {...}}` of a gossip message. -/
def gossipPayload (tasks : List (Str × TaskRecord)) : Fields :=
  [(str "tasks", .obj (tasks.map fun e => (e.1, e.2.toDict)))]

/-- `vector_clock = vector_clock.increment(node_id)`. -/
def tick (p : Replica) : Replica := { p with vectorClock := p.vectorClock.increment N.nodeId }

/-! ## The log -/

/-- Append to the log, if the node has one. -/
def appendEntry (p : Replica) (e : LogEntry) : Replica × Option Exn :=
  match N.wal, p.walFile with
  | some W, some f =>
    match W.append R f e.entry.recordType e.entry.payload with
    | .ok (_, f') => ({ p with walFile := some f', journal := p.journal ++ [e] }, none)
    | .error err => (p, some err)
  | _, _ => (p, none)

/-- `wal.append_task(record); wal.append_clock(vector_clock)`. -/
def logUpdate (p : Replica) (r : TaskRecord) : Replica × Option Exn :=
  match N.appendEntry p (.task r) with
  | (p, some e) => (p, some e)
  | (p, none) => N.appendEntry p (.clock p.vectorClock)

/-! ## Submitting -/

/-- The record of a submitted task. -/
def submitRecord (taskId : Str) (payload : Bytes) (clock : VectorClock) : TaskRecord :=
  N.sealRecord
    { taskId, state := .pending, payload, fenceToken := ⟨0, []⟩, vectorClock := clock,
      updatedBy := N.nodeId }

/-- `submit_task`: the new state and the exception it raises, if any. -/
def submitTask (s : NodeState) (taskId : Str) (payload : Bytes) (priority : ℤ) :
    NodeState × Option Exn :=
  if taskId = [] ∨ maxTaskIdLength < taskId.length then
    (s, some (.valueError (str "task_id must be a non-empty bounded string")))
  else if maxTaskPayload < payload.length then
    (s, some (.valueError (str "task payload exceeds the configured limit")))
  else if !s.tasks.has taskId && N.maxTasks ≤ s.tasks.size then
    (s.bump .rejected, some (.queueFull (str "task store is full")))
  else
    let p := N.tick s.toReplica
    let record := N.submitRecord taskId payload p.vectorClock
    let s := { s with toReplica := p.store taskId record }.bump .enqueued
    match N.logUpdate s.toReplica record with
    | (p, some e) => ({ s with toReplica := p }, some e)
    | (p, none) =>
      let s := { s with toReplica := p }
      match s.queue.put taskId priority with
      | .ok q => ({ s with queue := q, queuedTaskIds := insert taskId s.queuedTaskIds }, none)
      | .error e => (s.bump .rejected, some e)

/-! ## Receiving -/

/-- `_authenticate_message`. -/
def authenticateMessage (s : NodeState) (sender : Str) (msg : Message) (wallNow : ℚ) :
    NodeState × Except Exn Bool :=
  if !N.security.enabled then (s, .ok true)
  else if sender ≠ msg.senderId then (s, .ok false)
  else if msg.protocolVersion ≠ N.security.protocolVersion then (s, .ok false)
  else if msg.msgType ∉ [str "heartbeat", str "gossip", str "credit"] then (s, .ok false)
  else if !N.keyring.hasPeer sender then (s, .ok false)
  else match msg.verifySignature R N.keyring with
    | .error e => (s, .error e)
    | .ok false => (s, .ok false)
    | .ok true =>
      match msg.timestamp, msg.nonce with
      | some timestamp, some nonce =>
        if N.security.replayWindowSeconds < |wallNow - timestamp| then (s, .ok false)
        else
          let r := s.messageReplay.checkAndRemember sender nonce wallNow
            N.security.replayWindowSeconds
          ({ s with messageReplay := r.2 }, .ok r.1)
      | _, _ => (s, .ok false)

/-- A received record that the node accepts for merging: decoded, under its own task, and on a
    secure node signed by the sender and authorised. -/
def acceptedRecord (sender : Str) (item : Str × Json) : Except Exn (Option TaskRecord) :=
  match TaskRecord.fromDict item.2 with
  | .error e => if e.isTypeOrValueError then .ok none else .error e
  | .ok remote =>
    if remote.taskId ≠ item.1 then .ok none
    else if N.security.enabled && (remote.signerId ≠ some sender ||
        !verifyTaskAuthorization R remote N.keyring) then .ok none
    else .ok (some remote)

/-- The end of such a round: store the record, queue it if it is pending, take over the received
    clock, log. -/
def takeRecord (s : NodeState) (taskId : Str) (remoteClock : VectorClock) (r : TaskRecord) :
    NodeState × Option Exn :=
  let s := { s with toReplica := s.toReplica.store taskId r }.enqueuePending taskId r
  let s := { s with vectorClock := s.vectorClock.merge remoteClock }
  let x := N.logUpdate s.toReplica r
  ({ s with toReplica := x.1 }, x.2)

/-- One round of the loop over a gossip message's tasks in `_recv_loop`; `merge_records` raises
    nothing but `ValueError`. -/
def gossipItem (sender : Str) (s : NodeState) (item : Str × Json) : NodeState × Option Exn :=
  match N.acceptedRecord sender item with
  | .error e => (s, some e)
  | .ok none => (s.bump .rejected, none)
  | .ok (some remote) =>
    match s.tasks.get item.1 with
    | none =>
      if N.maxTasks ≤ s.tasks.size then (s.bump .rejected, none)
      else N.takeRecord s item.1 remote.vectorClock remote
    | some localRec =>
      match mergeRecords R localRec remote N.mergeKeyring with
      | .error _ => (s.bump .rejected, none)
      | .ok merged => N.takeRecord s item.1 remote.vectorClock merged

/-- The loop over a gossip message's tasks. -/
def gossipItems (sender : Str) : NodeState → Fields → NodeState × Option Exn
  | s, [] => (s, none)
  | s, item :: items =>
    match N.gossipItem sender s item with
    | (s, some e) => (s, some e)
    | (s, none) => gossipItems sender s items

/-- One round of `_recv_loop` for the message `msg` from `sender`. -/
def recvMessage (s : NodeState) (sender : Str) (msg : Message) (wallNow : ℚ) :
    NodeState × Option Exn :=
  match N.authenticateMessage s sender msg wallNow with
  | (s, .error e) => (s, some e)
  | (s, .ok false) => (s.bump .rejected, none)
  | (s, .ok true) =>
    if msg.msgType = str "gossip" then
      match (lookup (str "tasks") msg.payload).getD (.obj []) with
      | .obj rawTasks =>
        if N.security.maxGossipTasks < rawTasks.length then (s.bump .rejected, none)
        else N.gossipItems sender s rawTasks
      | _ => (s.bump .rejected, none)
    else if msg.msgType = str "credit" then
      match (lookup (str "amount") msg.payload).getD (.int 1) with
      | .int amount =>
        if amount < 0 ∨ (N.security.maxCreditAmount : ℤ) < amount then (s.bump .rejected, none)
        else ({ s with credits := replenish s.credits N.initialCredits sender amount }, none)
      | _ => (s.bump .rejected, none)
    -- a heartbeat only reaches the failure detector
    else (s, none)

/-! ## Broadcasting -/

/-- `_broadcast_task_update` up to its first send: the message to be sent to the peers. -/
def broadcastTaskUpdate (s : NodeState) (taskId : Str) (record : TaskRecord) (wallNow : ℚ)
    (nonce : Str) : NodeState × Except Exn Message :=
  let record := N.sealRecord record
  match N.logUpdate (s.toReplica.store taskId record) record with
  | (p, some e) => ({ s with toReplica := p }, .error e)
  | (p, none) => ({ s with toReplica := p },
      N.signedMessage (str "gossip") (gossipPayload [(taskId, record)]) wallNow nonce)

/-! ## The worker -/

/-- `float(v)` of a JSON value; `none` if it raises. -/
def toFloat (R : Runtime) : Json → Option PyFloat
  | .bool b => some (.finite (if b then 1 else 0))
  | .int n => (floatOfInt n).map .finite
  | .float x => some x
  | .str s => R.json.floatOfStr s
  | _ => none

/-- The lease of a task: the `lease_duration` of a JSON payload if it is a positive number within
    the limit, else the node's. -/
def taskLeaseDuration (payload : Bytes) : ℚ :=
  let asked : Option PyFloat :=
    match R.json.loads true payload with
    | some (.obj d) => (lookup (str "lease_duration") d).bind (toFloat R)
    | _ => none
  match asked with
  | some (.finite q) =>
    if q ≤ 0 ∨ N.security.maxLeaseDurationSeconds < q then N.leaseDuration else q
  | _ => N.leaseDuration

/-- The record a worker stores for a job in the states `CLAIMED` and `RUNNING`. -/
def claimRecord (job : Job) (state : TaskState) (clock : VectorClock) : TaskRecord :=
  N.sealRecord
    { taskId := job.taskId, state, payload := job.record.payload, claimedBy := some N.nodeId,
      fenceToken := job.newToken, leaseExpiry := job.leaseExp, vectorClock := clock,
      updatedBy := N.nodeId }

/-- The transition to `RUNNING` after the claim was broadcast, up to the handler call. -/
def startHandler (s : NodeState) (job : Job) : NodeState :=
  { s with
    toReplica := s.toReplica.store job.taskId (N.claimRecord job .running s.vectorClock)
    worker := .handling job }

/-- The claim of a task, up to the first send of its broadcast or to the handler call. -/
def claimTask (s : NodeState) (job : Job) (wallNow : ℚ) (nonce : Str) : NodeState :=
  let p := N.tick s.toReplica
  let claimed := N.claimRecord job .claimed p.vectorClock
  let s := { s with toReplica := p.store job.taskId claimed }.bump .claimed
  match N.broadcastTaskUpdate s job.taskId claimed wallNow nonce with
  | (s, .error _) => { s with worker := .stopped }
  | (s, .ok msg) =>
    match N.peers with
    | [] => N.startHandler s job
    | p :: rest => { s.send p msg with worker := .claiming job msg rest }

/-- `is_active_claim`: a live claim of another peer. -/
def isActiveClaim (record : TaskRecord) (now : ℚ) (suspected : Str → Bool) : Bool :=
  record.state.isClaim && record.claimedBy ≠ some N.nodeId && now < record.leaseExpiry &&
    !suspected (record.claimedBy.getD [])

/-- One round of `_worker_loop` from a queued task on: `now` is the clock when the claim is
    checked, `leaseNow` when the lease is taken. -/
def workerGet (s : NodeState) (now leaseNow wallNow : ℚ) (suspected : Str → Bool) (nonce : Str) :
    NodeState :=
  match s.queue.get with
  | none => s
  | some (taskId, queue) =>
    let s := { s with queue, queuedTaskIds := s.queuedTaskIds.erase taskId }
    match s.tasks.get taskId with
    | none => s
    | some record =>
      if record.state.isTerminal then s
      else if N.isActiveClaim record now suspected then s
      else N.claimTask s ⟨taskId, record, record.fenceToken.nextFor N.nodeId,
        leaseNow + N.taskLeaseDuration record.payload⟩ wallNow nonce

/-- The end of a round: count the outcome and return a credit to the peer that had updated the
    task. -/
def finishCommit (s : NodeState) (job : Job) (newState : TaskState) (wallNow : ℚ) (nonce : Str) :
    NodeState :=
  let s := s.bump (if newState = .done then .completed else .failed)
  if job.record.updatedBy ≠ [] ∧ job.record.updatedBy ∈ N.peers then
    match N.signedMessage (str "credit") [(str "amount", .int 1)] wallNow nonce with
    | .error _ => { s with worker := .stopped }
    | .ok msg => { s.send job.record.updatedBy msg with worker := .crediting }
  else { s with worker := .waiting }

/-- The record a worker commits: the handler's result, or the text of its exception. -/
def commitRecord (job : Job) (outcome : Except Str Bytes) (clock : VectorClock) : TaskRecord :=
  N.sealRecord
    { taskId := job.taskId, state := match outcome with | .ok _ => .done | .error _ => .failed,
      payload := job.record.payload,
      result := match outcome with | .ok result => some result | .error _ => none,
      error := match outcome with | .ok _ => none | .error text => some text,
      claimedBy := some N.nodeId, fenceToken := job.newToken, leaseExpiry := 0,
      vectorClock := clock, updatedBy := N.nodeId }

/-- The commit of an outcome, up to the first send of its broadcast or to the end of the round. -/
def commitTask (s : NodeState) (job : Job) (outcome : Except Str Bytes) (wallNow : ℚ)
    (nonce : Str) : NodeState :=
  let p := N.tick s.toReplica
  let committed := N.commitRecord job outcome p.vectorClock
  let s := { s with toReplica := p.store job.taskId committed }
  match N.broadcastTaskUpdate s job.taskId committed wallNow nonce with
  | (s, .error _) => { s with worker := .stopped }
  | (s, .ok msg) =>
    match N.peers with
    | [] => N.finishCommit s job committed.state wallNow nonce
    | p :: rest => { s.send p msg with worker := .committing job committed.state msg rest }

/-- The current token for the job's task is above the job's. -/
def superseded (s : NodeState) (job : Job) : Bool :=
  match s.tasks.get job.taskId with
  | none => false
  | some current => job.newToken < current.fenceToken

/-- The handler of a job ends at time `now`. -/
def handlerDone (s : NodeState) (outcome : Except Str Bytes) (now wallNow : ℚ) (nonce : Str) :
    NodeState :=
  match s.worker with
  | .handling job =>
    if job.leaseExp < now then { s.bump .rejected with worker := .waiting }
    else if superseded s job then { s.bump .rejected with worker := .waiting }
    else N.commitTask s job outcome wallNow nonce
  | _ => s

/-- The pending send of the worker returns, with or without an exception. -/
def workerSent (s : NodeState) (wallNow : ℚ) (nonce : Str) : NodeState :=
  match s.worker with
  | .claiming job _ [] => N.startHandler s job
  | .claiming job msg (p :: rest) => { s.send p msg with worker := .claiming job msg rest }
  | .committing job st _ [] => N.finishCommit s job st wallNow nonce
  | .committing job st msg (p :: rest) =>
    { s.send p msg with worker := .committing job st msg rest }
  | .crediting => { s with worker := .waiting }
  | _ => s

/-! ## Reclaiming -/

/-- The first eight octets of the digest of `task_id:peer`, as a number. -/
def score (R : Runtime) (taskId peer : Str) : Option ℕ :=
  (Str.utf8 (taskId ++ str ":" ++ peer)).map fun data => beVal ((R.sha256 data).take 8)

/-- `max(candidates, key=score)`: the first candidate with the largest score. -/
def bestCandidate (scored : List (Str × ℕ)) : Option Str :=
  (scored.foldl (fun best c => match best with
    | none => some c
    | some b => if b.2 < c.2 then some c else some b) none).map Prod.fst

/-- `_rendezvous_reclaimer`; a lone surrogate makes `encode` raise. -/
def rendezvousReclaimer (R : Runtime) (taskId : Str) (candidates : List Str) :
    Except Exn (Option Str) :=
  match candidates.mapM fun p => (score R taskId p).map fun n => (p, n) with
  | none => .error .unicodeEncodeError
  | some scored => .ok (bestCandidate scored)

/-- The record that releases a task. -/
def resetRecord (taskId : Str) (record : TaskRecord) (clock : VectorClock) : TaskRecord :=
  N.sealRecord
    { taskId, state := .pending, payload := record.payload, claimedBy := none,
      fenceToken := record.fenceToken.nextFor N.nodeId, leaseExpiry := 0, vectorClock := clock,
      updatedBy := N.nodeId }

/-- A claim of another peer whose lease is over and whose holder is suspected. -/
def reclaimable (record : TaskRecord) (now : ℚ) (suspected : Str → Bool) : Bool :=
  record.state.isClaim && record.claimedBy ≠ some N.nodeId && record.leaseExpiry ≤ now &&
    suspected (record.claimedBy.getD [])

/-- The sweep of `_reclaim_loop` over the rest of its snapshot, up to the first send of a reset or
    to the end. -/
def sweep (now : ℚ) (livePeers : List Str) (suspected : Str → Bool) (wallNow : ℚ) (nonce : Str) :
    NodeState → List (Str × TaskRecord) → NodeState
  | s, [] => { s with reclaim := .sleeping }
  | s, (taskId, record) :: snapshot =>
    if !N.reclaimable record now suspected then sweep now livePeers suspected wallNow nonce s snapshot
    else match rendezvousReclaimer R taskId livePeers with
      | .error _ => { s with reclaim := .stopped }
      | .ok elected =>
        if elected ≠ some N.nodeId then sweep now livePeers suspected wallNow nonce s snapshot
        else
          let s := s.bump .reclaimed
          if N.hasHandler then
            sweep now livePeers suspected wallNow nonce
              (if taskId ∉ s.queuedTaskIds then s.tryEnqueue taskId 10 else s) snapshot
          else
            let p := N.tick s.toReplica
            let reset := N.resetRecord taskId record p.vectorClock
            let s := { s with toReplica := p.store taskId reset }
            match N.broadcastTaskUpdate s taskId reset wallNow nonce with
            | (s, .error _) => { s with reclaim := .stopped }
            | (s, .ok msg) =>
              match N.peers with
              | [] => sweep now livePeers suspected wallNow nonce s snapshot
              | p :: rest =>
                { s.send p msg with reclaim := .resetting msg rest now livePeers snapshot }

/-- A new sweep of `_reclaim_loop`. -/
def reclaimSweep (s : NodeState) (now wallNow : ℚ) (suspected : Str → Bool) (nonce : Str) :
    NodeState :=
  match s.reclaim with
  | .sleeping =>
    N.sweep now (N.nodeId :: N.peers.filter fun p => !suspected p) suspected wallNow nonce s
      s.tasks.entries
  | _ => s

/-- The pending send of a reset returns. -/
def reclaimSent (s : NodeState) (wallNow : ℚ) (suspected : Str → Bool) (nonce : Str) : NodeState :=
  match s.reclaim with
  | .resetting _ [] now livePeers snapshot =>
    N.sweep now livePeers suspected wallNow nonce s snapshot
  | .resetting msg (p :: rest) now livePeers snapshot =>
    { s.send p msg with reclaim := .resetting msg rest now livePeers snapshot }
  | _ => s

/-! ## Gossiping -/

/-- The tasks of a round of `_gossip_loop`: the first ones of the store in the order of their
    ids. -/
def taskItems (s : NodeState) : List (Str × TaskRecord) :=
  (Json.sortKeys s.tasks.entries).take N.security.maxGossipTasks

/-- The message of a round of `_gossip_loop`. -/
def gossipMessage (s : NodeState) (wallNow : ℚ) (nonce : Str) : Except Exn Message :=
  N.signedMessage (str "gossip") (gossipPayload (N.taskItems s)) wallNow nonce

/-- A round of `_gossip_loop` with the chosen partner. -/
def gossipRound (s : NodeState) (partner : Str) (wallNow : ℚ) (nonce : Str) : NodeState :=
  if partner ∉ N.peers ∨ s.tasks.size = 0 then s
  else match N.gossipMessage s wallNow nonce with
    | .error _ => { s with gossiping := false }
    | .ok msg => s.send partner msg

/-- A round of `_heartbeat_loop`. -/
def heartbeatRound (s : NodeState) (now wallNow : ℚ) (nonce : Str) : NodeState :=
  match N.signedMessage (str "heartbeat") [(str "ts", .float (.finite now))] wallNow nonce with
  | .error _ => { s with heartbeating := false }
  | .ok msg => { s with sent := s.sent ++ N.peers.map fun p => (p, msg) }

/-! ## Recovery -/

/-- A counter of a clock out of the log, zero if the clock drops it; `none` if comparing it with
    zero raises.  A positive float, which no node writes, counts as one that raises. -/
def counterValue : Json → Option ℤ
  | .int n => some n
  | .bool b => some (if b then 1 else 0)
  | .float .nan => some 0
  | .float (.inf neg) => if neg then some 0 else none
  | .float (.finite q) => if q ≤ 0 then some 0 else none
  | _ => none

/-- `VectorClock(d)` for a `dict` out of the log. -/
def clockOfDict (d : Fields) : Except Exn VectorClock :=
  match d.mapM fun e => (counterValue e.2).map fun n => (e.1, Json.int n) with
  | some d => .ok (VectorClock.ofFields d)
  | none => .error .typeError

/-- The clocks that recovery works with: `VectorClock(d)` for a `dict` out of the log, which raises
    `TypeError` only, and `merge`. -/
class LogClock (C : Type) where
  ofDict : Fields → Except Exn C
  merge : C → C → C
  ofDict_error : ∀ {d : Fields} {e : Exn}, ofDict d = .error e → e = .typeError

instance : LogClock VectorClock where
  ofDict := clockOfDict
  merge := Counters.merge
  ofDict_error h := by
    unfold clockOfDict at h
    split at h <;> cases h
    rfl

@[simp] theorem LogClock.ofDict_vectorClock (d : Fields) :
    (LogClock.ofDict d : Except Exn VectorClock) = clockOfDict d := rfl

@[simp] theorem LogClock.merge_vectorClock (a b : VectorClock) : LogClock.merge a b = a.merge b := rfl

section
variable {C : Type}

/-- Put a recovered task into the store or merge it with what is there; `merge_records` raises
    nothing but `ValueError`, which is suppressed. -/
def recoverTask (p : Replica C) (taskId : Str) (task : TaskRecord) : Replica C :=
  match p.tasks.get taskId with
  | none => p.store taskId task
  | some old =>
    match mergeRecords R old task N.mergeKeyring with
    | .error _ => p
    | .ok merged => p.store taskId merged

/-- A task out of the log that recovery takes: decoded and, on a secure node, authorised. -/
def decodedTask (v : Json) : Except Exn (Option TaskRecord) :=
  match TaskRecord.fromDict v with
  | .error e => if e.isTypeOrValueError then .ok none else .error e
  | .ok task =>
    if N.security.enabled && !verifyTaskAuthorization R task N.keyring then .ok none
    else .ok (some task)

/-- The loop over the tasks of a checkpoint. -/
def recoverSnapshot : Replica C → Fields → Replica C × Option Exn
  | p, [] => (p, none)
  | p, (tid, v) :: rest =>
    if N.maxTasks ≤ p.tasks.size && !p.tasks.has tid then recoverSnapshot p rest
    else match N.decodedTask v with
      | .error e => (p, some e)
      | .ok none => recoverSnapshot p rest
      | .ok (some task) => recoverSnapshot (N.recoverTask p tid task) rest

/-- Queue the recovered tasks that are pending. -/
def requeuePending (s : NodeState C) : NodeState C :=
  s.tasks.entries.foldl (fun s e => s.enqueuePending e.1 e.2) s

variable [LogClock C]

/-- `VectorClock(v)` for any value: a false one counts as `{}`, another has no `items`. -/
def clockOfJson : Json → Except Exn C
  | .obj d => LogClock.ofDict d
  | .null | .bool false | .int 0 | .float (.finite 0) | .str [] | .arr [] => LogClock.ofDict []
  | _ => .error .attributeError

/-- Merge a clock out of the log; `TypeError` and `ValueError` are skipped. -/
def recoverClock (p : Replica C) (c : Except Exn C) : Replica C × Option Exn :=
  match c with
  | .ok c => ({ p with vectorClock := LogClock.merge p.vectorClock c }, none)
  | .error e => if e.isTypeOrValueError then (p, none) else (p, some e)

/-- One record of the log in `_recover_from_wal`. -/
def recoverRecord (p : Replica C) (rec : WalRecord) : Replica C × Option Exn :=
  if rec.recordType = recordTask then
    match N.decodedTask (.obj rec.payload) with
    | .error e => (p, some e)
    | .ok none => (p, none)
    | .ok (some task) =>
      if !p.tasks.has task.taskId && N.maxTasks ≤ p.tasks.size then (p, none)
      else (N.recoverTask p task.taskId task, none)
  else if rec.recordType = recordClock then recoverClock p (LogClock.ofDict rec.payload)
  else if rec.recordType = recordCheckpoint then
    match (lookup (str "tasks") rec.payload).getD (.obj []) with
    | .obj rawTasks =>
      match N.recoverSnapshot p rawTasks with
      | (p, some e) => (p, some e)
      | (p, none) =>
        recoverClock p (clockOfJson ((lookup (str "vector_clock") rec.payload).getD (.obj [])))
    | _ => (p, none)
  else (p, none)

/-- The loop over the records of the log. -/
def recoverRecords : Replica C → List WalRecord → Replica C × Option Exn
  | p, [] => (p, none)
  | p, rec :: recs =>
    match N.recoverRecord p rec with
    | (p, some e) => (p, some e)
    | (p, none) => recoverRecords p recs

/-- `_recover_from_wal` on what `replay` yields and the error it ends with. -/
def recover (s : NodeState C) (replayed : List WalRecord × Option Exn) : NodeState C × Option Exn :=
  let x := N.recoverRecords s.toReplica replayed.1
  let s := { s with toReplica := x.1 }
  match x.2, replayed.2 with
  | some e, _ => (s, some e)
  | none, some e => (s, some e)
  | none, none => (requeuePending s, none)

end

/-! ## Starting -/

/-- The state after construction. -/
def fresh : NodeState where
  tasks := .empty
  queue := { maxsize := N.maxQueueSize }
  queuedTaskIds := ∅
  vectorClock := .zero
  messageReplay := ⟨N.security.replayCacheSize, .empty⟩
  credits := N.peers.foldl (fun d p => d.set p N.initialCredits) .empty
  metrics := fun _ => 0
  walFile := none
  worker := .stopped
  reclaim := .stopped
  receiving := false
  gossiping := false
  heartbeating := false
  up := false
  journal := []
  sent := []

/-- The background loops start. -/
def startLoops (s : NodeState) : NodeState :=
  { s with
    worker := if N.hasHandler then .waiting else .stopped
    reclaim := .sleeping
    receiving := true
    gossiping := true
    heartbeating := true }

/-- The state after construction with an opened log. -/
def opened (file : Bytes) (journal : List LogEntry) : NodeState :=
  { N.fresh with walFile := some file, up := true, journal }

/-- Construct and start a node on the log file found on disk, if any.  If the log cannot be opened
    there is no node; if recovery raises, none of its loops is started.  Of the journal, as many
    entries are kept as the log yields records. -/
def boot (file : Option Bytes) (journal : List LogEntry) : NodeState :=
  match N.wal with
  | none => N.startLoops { N.fresh with up := true }
  | some W =>
    match W.openFile file with
    | .error _ => { N.fresh with walFile := file }
    | .ok f =>
      let replayed := W.replay R false f
      match N.recover (N.opened f (journal.take replayed.1.length)) replayed with
      | (s, none) => N.startLoops s
      | (s, some _) => s

/-! ## Steps -/

/-- What can happen to a node. -/
inductive Event where
  | submit (taskId : Str) (payload : Bytes) (priority : ℤ)
  | recv (sender : Str) (msg : Message) (wallNow : ℚ)
  | workerGet (now leaseNow wallNow : ℚ) (suspected : Str → Bool) (nonce : Str)
  | workerSent (wallNow : ℚ) (nonce : Str)
  | handlerDone (outcome : Except Str Bytes) (now wallNow : ℚ) (nonce : Str)
  | reclaimSweep (now wallNow : ℚ) (suspected : Str → Bool) (nonce : Str)
  | reclaimSent (wallNow : ℚ) (suspected : Str → Bool) (nonce : Str)
  | gossipRound (partner : Str) (wallNow : ℚ) (nonce : Str)
  | heartbeatRound (now wallNow : ℚ) (nonce : Str)
  | restart (cut : ℕ)

/-- An exception out of the receive loop ends it. -/
def afterRecv (r : NodeState × Option Exn) : NodeState :=
  match r.2 with
  | none => r.1
  | some _ => { r.1 with receiving := false }

/-- One step.  An event that is not enabled changes nothing. -/
def step (s : NodeState) : Event → NodeState
  | .submit taskId payload priority =>
    if s.up then (N.submitTask s taskId payload priority).1 else s
  | .recv sender msg wallNow =>
    if s.receiving then afterRecv (N.recvMessage s sender msg wallNow) else s
  | .workerGet now leaseNow wallNow suspected nonce =>
    match s.worker with
    | .waiting => N.workerGet s now leaseNow wallNow suspected nonce
    | _ => s
  | .workerSent wallNow nonce => N.workerSent s wallNow nonce
  | .handlerDone outcome now wallNow nonce => N.handlerDone s outcome now wallNow nonce
  | .reclaimSweep now wallNow suspected nonce => N.reclaimSweep s now wallNow suspected nonce
  | .reclaimSent wallNow suspected nonce => N.reclaimSent s wallNow suspected nonce
  | .gossipRound partner wallNow nonce =>
    if s.gossiping then N.gossipRound s partner wallNow nonce else s
  | .heartbeatRound now wallNow nonce =>
    if s.heartbeating then N.heartbeatRound s now wallNow nonce else s
  | .restart cut => { N.boot (s.walFile.map (·.take cut)) s.journal with sent := s.sent }

/-- A node started without a log file. -/
def initial : NodeState := N.boot none []

end PeerNode

end PeerQ
