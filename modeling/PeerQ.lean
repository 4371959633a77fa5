import PeerQ.Lib.JsonCodec
import PeerQ.Lib.Counters
import PeerQ.Lib.Join
import PeerQ.Lib.AntiEntropy
import PeerQ.Security.RateLimiter
import PeerQ.Consensus
import PeerQ.Consensus.Clocks
import PeerQ.Consensus.Reencoding
import PeerQ.Crypto
import PeerQ.Crypto.Binding
import PeerQ.Merge
import PeerQ.Wal.Atomic
import PeerQ.Queue
import PeerQ.Message.Wire
import PeerQ.Message.Decoding
import PeerQ.Node.Scheduling
import PeerQ.Node.Durability
import PeerQ.Node.Replay
import PeerQ.Node.Convergence
import PeerQ.Node.Rounds
import PeerQ.Node.Reclaim
import PeerQ.Node.Compaction
import PeerQ.Node.LooseClocks
import PeerQ.Node.Salvage
import PeerQ.Node.Submission
import PeerQ.Node.Provenance
import PeerQ.Node.Receiving
import PeerQ.Node.Acceptance
import PeerQ.Node.Carriers
import PeerQ.Node.Accounting
import PeerQ.Node.Progress
import PeerQ.Node.Wire
import PeerQ.Transport.Connections
import PeerQ.Transport.Outgoing
import PeerQ.Transport.Delivery
import PeerQ.Transport.Http
import PeerQ.Transport.Simulated
import PeerQ.Discovery.Addresses
import PeerQ.Mesh.Tokens
import PeerQ.Mesh.Knowledge
import PeerQ.Mesh.Credits
import PeerQ.Mesh.Dissemination
import PeerQ.Mesh.Cluster
import PeerQ.Lib.Runs
import PeerQ.Queue.Refinement
import PeerQ.Queue.Wakeups
import PeerQ.Queue.Credits
import PeerQ.Failure
import PeerQ.Metrics.Quantiles
import PeerQ.Clock
import PeerQ.Node.Election
import PeerQ.Discovery.Directory
import PeerQ.Exporter
