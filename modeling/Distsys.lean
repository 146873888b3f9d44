import Distsys.Lib.Lists
import Distsys.Lib.TransitionSystem
import Distsys.Lib.Termination
import Distsys.Lib.Possibility
import Distsys.Lib.Marking
import Distsys.Lib.GoSlice
import Distsys.Lib.SliceHeap
import Distsys.Lib.GoStd
import Distsys.Lib.GoText
import Distsys.Lib.Linearization
import Distsys.Lib.DoublyLinked
import Distsys.Lib.ReplicatedLog
import Distsys.Lib.LeaderCompleteness
import Distsys.Raft.Basic
import Distsys.Raft.Cluster
import Distsys.Raft.UnaryGob
import Distsys.Raft.Steps
import Distsys.Raft.Guards
import Distsys.Raft.InFlight
import Distsys.Raft.Durable
import Distsys.Raft.Encoding
import Distsys.Raft.Recovery
import Distsys.Raft.Bounds
import Distsys.Raft.Provenance
import Distsys.Raft.Votes
import Distsys.Raft.Election
import Distsys.Raft.AppendOnly
import Distsys.Raft.Commit
import Distsys.Raft.Quorums
import Distsys.Raft.Backup
import Distsys.Raft.History
import Distsys.Raft.Refinement
import Distsys.Raft.Simulation
import Distsys.Raft.LogMatching
import Distsys.Raft.StateMachine
import Distsys.Raft.LeaderCompleteness
import Distsys.Raft.WellFormed
import Distsys.Raft.Frame
import Distsys.Raft.Reelection
import Distsys.Raft.Drivers
import Distsys.Raft.Heartbeat
import Distsys.Raft.Reign
import Distsys.Raft.Availability
import Distsys.Raft.SliceBounds
import Distsys.Raft.Application
import Distsys.MapReduce.Basic
import Distsys.MapReduce.PlainJson
import Distsys.MapReduce.Tasks
import Distsys.MapReduce.Sequential
import Distsys.MapReduce.Applications
import Distsys.MapReduce.Scheduler
import Distsys.MapReduce.Distributed
import Distsys.MapReduce.Agreement
import Distsys.MapReduce.Termination
import Distsys.MapReduce.Completion
import Distsys.MapReduce.Stepwise
import Distsys.MapReduce.Stragglers
import Distsys.Linearizability.Bitset
import Distsys.Linearizability.Basic
import Distsys.Linearizability.Linked
import Distsys.Linearizability.Spec
import Distsys.Linearizability.Lifting
import Distsys.Linearizability.Search
import Distsys.Linearizability.Operations
import Distsys.Linearizability.Check
import Distsys.Linearizability.Kv
import Distsys.Linearizability.Events
import Distsys.Linearizability.RealTime
import Distsys.Linearizability.Renumber
import Distsys.Linearizability.CheckEvents
import Distsys.Linearizability.BitsetSlice
import Distsys.Linearizability.Positions
import Distsys.Labgob.Basic
import Distsys.Labgob.CheckDefault
import Distsys.Labgob.CheckType
import Distsys.Labrpc.Basic
import Distsys.Labrpc.Delivery
import Distsys.Labrpc.Reliability
import Distsys.Labrpc.Calls
