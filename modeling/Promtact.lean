import Promtact.QuorumLog.History
import Promtact.QuorumLog.Completeness
import Promtact.QuorumLog.Steps
import Promtact.GhostState
import Promtact.BitSet
import Promtact.Raft.Node
import Promtact.Raft.Recover
import Promtact.Raft.Store
import Promtact.Raft.Cluster
import Promtact.Raft.Voters
import Promtact.Raft.LogView
import Promtact.Raft.Invariant
import Promtact.Raft.Transport
import Promtact.Raft.Sending
import Promtact.Raft.Committing
import Promtact.Raft.Leading
import Promtact.Raft.Voting
import Promtact.Raft.Following
import Promtact.Raft.Acknowledging
import Promtact.Raft.Snapshots
import Promtact.Raft.Operations
import Promtact.Raft.Restarting
import Promtact.Raft.Simulation
import Promtact.Raft.Safety
import Promtact.Raft.Configuration
import Promtact.Raft.Reading
import Promtact.Bytes
import Promtact.StateMachine
import Promtact.Storage.Wal
import Promtact.Storage.FileDevice
import Promtact.Storage.RaftWal
import Promtact.Synod
import Promtact.Paxos.Node
import Promtact.Paxos.Agreement
import Promtact.Paxos.Safety
import Promtact.BinaryHeap
import Promtact.Dst.Engine
import Promtact.Dst.Conservation
import Promtact.Sim.Machines
import Promtact.Sim.Simulator
import Promtact.Sim.Equivalence
import Promtact.Raft.Emission
import Promtact.Raft.Ledger
import Promtact.Raft.Calm
import Promtact.Raft.Transfer
import Promtact.Raft.Matching
import Promtact.Raft.Recorder
import Promtact.Storage.Snapshot
import Promtact.Storage.RaftStore
import Promtact.Raft.Steady
import Promtact.Storage.Surviving
import Promtact.Runs
import Promtact.Sim.CatchUp
import Promtact.Raft.Local
import Promtact.Raft.LocalOperations
import Promtact.Raft.Process
import Promtact.Raft.Membership
import Promtact.Raft.Panics
import Promtact.Raft.Compaction
import Promtact.Protocol.Frame
import Promtact.Protocol.Peer
import Promtact.Protocol.Client
import Promtact.Server.Loop
import Promtact.Server.Round
import Promtact.Server.Host
import Promtact.Server.Inbound
import Promtact.Server.Pending
import Promtact.Raft.Serving
import Promtact.Server.Reads
import Promtact.Raft.Idle
import Promtact.Server.Fleet
import Promtact.StateMachine.Deduplication
import Promtact.StateMachine.Image
import Promtact.Storage.FaultDisk
import Promtact.Raft.FailStop
import Promtact.Raft.Restoring
import Promtact.Server.Opening
import Promtact.Raft.Along
import Promtact.Raft.Validation
import Promtact.Raft.PreVote
import Promtact.Raft.Progress
import Promtact.Raft.Joining
import Promtact.Raft.Promises
import Promtact.Server.Replicas
import Promtact.Server.Refusals
import Promtact.Server.Agreement
import Promtact.Server.Reopening
import Promtact.Dst.Queue
import Promtact.Raft.Quorums
import Promtact.Dst.Inject
import Promtact.Dst.Comparison
import Promtact.Dst.Scenario
import Promtact.Protocol.Corruption
import Promtact.Storage.UringWal
import Promtact.Backup
import Promtact.Storage.Failing
import Promtact.Server.Replies
import Promtact.Sim.Checks
