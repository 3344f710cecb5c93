import EventStream.Machine

/-! Raft's messages (`raft/messages.rs`). -/
namespace EventStream.Raft

/-- Node ids. Terms and log indices, `u64` in the source, are plain numbers. -/
abbrev NodeId := Nat

structure LogEntry where
  term : Nat
  index : Nat
  payload : Bytes
  deriving DecidableEq, Repr

structure RequestVote where
  term : Nat
  candidateId : NodeId
  lastLogIndex : Nat
  lastLogTerm : Nat
  deriving DecidableEq, Repr

structure RequestVoteResp where
  term : Nat
  voteGranted : Bool
  voterId : NodeId
  deriving DecidableEq, Repr

structure AppendEntries where
  term : Nat
  leaderId : NodeId
  prevLogIndex : Nat
  prevLogTerm : Nat
  entries : List LogEntry
  leaderCommit : Nat
  deriving DecidableEq, Repr

/-- `matchIndex` is, on success, the highest index the request proved to be shared
with the leader; on failure the follower's last index, a hint. -/
structure AppendEntriesResp where
  term : Nat
  success : Bool
  responderId : NodeId
  matchIndex : Nat
  deriving DecidableEq, Repr

/-- One chunk of a snapshot transfer. -/
structure InstallSnapshot where
  term : Nat
  leaderId : NodeId
  lastIndex : Nat
  lastTerm : Nat
  offset : Nat
  done : Bool
  data : Bytes
  deriving DecidableEq, Repr

/-- `nextOffset` is the follower's position in the state machine; `installedIndex`
is not zero once the snapshot is installed. -/
structure InstallSnapshotResp where
  term : Nat
  success : Bool
  responderId : NodeId
  nextOffset : Nat
  installedIndex : Nat
  deriving DecidableEq, Repr

inductive Message where
  | requestVote (m : RequestVote)
  | requestVoteResp (m : RequestVoteResp)
  | appendEntries (m : AppendEntries)
  | appendEntriesResp (m : AppendEntriesResp)
  | installSnapshot (m : InstallSnapshot)
  | installSnapshotResp (m : InstallSnapshotResp)
  deriving DecidableEq, Repr

def Message.term : Message → Nat
  | .requestVote m => m.term
  | .requestVoteResp m => m.term
  | .appendEntries m => m.term
  | .appendEntriesResp m => m.term
  | .installSnapshot m => m.term
  | .installSnapshotResp m => m.term

/-- Which node sent the message. -/
def Message.sender : Message → NodeId
  | .requestVote m => m.candidateId
  | .requestVoteResp m => m.voterId
  | .appendEntries m => m.leaderId
  | .appendEntriesResp m => m.responderId
  | .installSnapshot m => m.leaderId
  | .installSnapshotResp m => m.responderId

end EventStream.Raft
