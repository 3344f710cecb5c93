import EventStream.Consensus.Protocol
import EventStream.Consensus.Invariant
import EventStream.Consensus.Agreement
import EventStream.Consensus.Majority
import EventStream.Machine
import EventStream.Maps
import EventStream.Newest
import EventStream.Auth.Keys
import EventStream.Auth.Revocation
import EventStream.Auth.Tenants
import EventStream.Binary.Budget
import EventStream.Binary.Wire
import EventStream.Binary.Pipelined
import EventStream.Binary.Order
import EventStream.Http.Host
import EventStream.Producers.Window
import EventStream.Producers.Lines
import EventStream.Producers.Journal
import EventStream.Producers.Survival
import EventStream.Producers.Expiry
import EventStream.Dataplane.Produce
import EventStream.Dataplane.Steps
import EventStream.Dataplane.Idempotence
import EventStream.Dataplane.Truthful
import EventStream.Raft.Messages
import EventStream.Raft.Log
import EventStream.Raft.State
import EventStream.Raft.Cluster
import EventStream.Raft.LogProofs
import EventStream.Raft.Counted
import EventStream.Raft.Refinement
import EventStream.Raft.Durable
import EventStream.Raft.Leader
import EventStream.Raft.Voting
import EventStream.Raft.Follower
import EventStream.Raft.Events
import EventStream.Raft.Safety
import EventStream.Raft.Histories
import EventStream.Raft.Crash
import EventStream.Raft.Ballot
import EventStream.Raft.Election
import EventStream.Raft.Mirror
import EventStream.Raft.Returns
import EventStream.Raft.LogFile
import EventStream.Raft.Merge
import EventStream.Raft.Codec
import EventStream.Raft.FileStore
import EventStream.Reading
import EventStream.Storage.Record
import EventStream.Storage.Cursor
import EventStream.Storage.Window
import EventStream.Storage.Readers
import EventStream.Storage.Segment
import EventStream.Storage.Partition
import EventStream.Storage.Contents
import EventStream.Storage.Recover
import EventStream.Storage.Recovery
import EventStream.Storage.Trusted
import EventStream.Storage.History
import EventStream.Storage.Compaction
import EventStream.Storage.Retention
import EventStream.Storage.Consumer
import EventStream.Storage.Survivors
import EventStream.Storage.Plan
import EventStream.Storage.Settings
import EventStream.Storage.Swap
import EventStream.Storage.Damaged
import EventStream.Storage.Grace
import EventStream.Storage.Faults
import EventStream.Storage.Leftover
import EventStream.Storage.Writer
import EventStream.Storage.Representation
import EventStream.Storage.GroupCommit
import EventStream.Storage.GroupCommitProofs
import EventStream.Storage.GroupSafety
import EventStream.Storage.Interval
import EventStream.Topics.Lifecycle
import EventStream.Topics.Recreate
import EventStream.Topics.UpdateConfig
import EventStream.Groups.Coordinator
import EventStream.Groups.Assignment
import EventStream.Groups.Generations
import EventStream.Groups.Sticky
import EventStream.Replica.Command
import EventStream.Replica.Payload
import EventStream.Replica.Reapply
import EventStream.Schema.Registry
import EventStream.Schema.Restart
import EventStream.Schema.Evolution
import EventStream.Tools.Readers
import EventStream.Raft.Commit
import EventStream.Raft.Untrusted
import EventStream.Raft.Backoff
import EventStream.Producers.History
import EventStream.Dataplane.Ledger
import EventStream.Dataplane.Again
import EventStream.Dataplane.Retry
import EventStream.Dataplane.RoundRobin
import EventStream.Producers.Replay
