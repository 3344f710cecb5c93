import EventStream.Raft.State
import Mathlib.Data.Finset.Basic
import Mathlib.Logic.Relation

/-! A cluster of Raft nodes with a fixed membership: the driver of `raft/node.rs`, the
disks and the network.

An event is handled by one node, made durable and then acted upon. The network keeps
every message ever sent and may deliver any of them, in any order and any number of
times, or never. A node that crashes restarts from its disk. `torn` is a crash in the
middle of making an event durable. -/
namespace EventStream.Raft

/-- Who takes part. Each node's peers are all the others. -/
structure Cluster where
  members : Finset NodeId
  peers : NodeId → List NodeId
  noopOnElect : NodeId → Bool
  peers_nodup : ∀ i ∈ members, (peers i).Nodup
  mem_peers : ∀ i ∈ members, ∀ p, p ∈ peers i ↔ p ∈ members ∧ p ≠ i

/-- The cluster of the given nodes. -/
def Cluster.ofList (ids : List NodeId) (nodup : ids.Nodup) : Cluster where
  members := ids.toFinset
  peers := fun i => ids.filter (· ≠ i)
  noopOnElect := fun _ => false
  peers_nodup := fun _ _ => nodup.filter _
  mem_peers := fun i _ p => by simp

/-- The smallest clusters that can lose a message, or a node. -/
def pair : Cluster := .ofList [1, 2] (by decide)
def three : Cluster := .ofList [1, 2, 3] (by decide)

/-- A snapshot in the store. `covers` is a history variable, the entries the snapshot
stands for; no handler reads it. -/
structure Snapshot where
  stored : PersistedSnapshot
  covers : List LogEntry
  deriving DecidableEq

structure Disk where
  raft : PersistedRaft := {}
  snapshot : Option Snapshot := none
  deriving DecidableEq

/-- The entries the stored snapshot stands for. -/
def Disk.folded (d : Disk) : List LogEntry := (d.snapshot.map Snapshot.covers).getD []

structure Node where
  state : RaftState
  disk : Disk := {}

/-- Every entry the node has, those behind its snapshot first. -/
def Node.history (n : Node) : List LogEntry := n.disk.folded ++ n.state.log.entries

/-- A message on the way. For an InstallSnapshot, `covers` is that of the snapshot. -/
structure Packet where
  dst : NodeId
  msg : Message
  covers : List LogEntry := []
  deriving DecidableEq

/-! ### Durable steps -/

inductive DurableStep where
  | saveSnapshot (snap : Snapshot)
  | persist (op : PersistOp)
  deriving DecidableEq

def Disk.apply (d : Disk) : DurableStep → Disk
  | .saveSnapshot snap => {d with snapshot := some snap}
  | .persist op => {d with raft := d.raft.persistOp op}

/-- What the driver owes after an event: a snapshot to save, the pending operations of
the state, the actions. -/
structure Effect where
  state : RaftState
  save : Option Snapshot := none
  actions : List Action := []

/-- The durable steps of an event, in the driver's order. -/
def Effect.durable (e : Effect) : List DurableStep :=
  (e.save.map .saveSnapshot).toList ++ e.state.pending.map .persist

/-! ### Events -/

inductive Event where
  /-- A message, with what the driver reports as the state machine's position and what it
  stores as the data of a snapshot it receives. -/
  | message (p : Packet) (progress : Nat) (stored : Bytes)
  | electionTimeout
  | heartbeatTick
  | propose (payload : Bytes)
  | takeSnapshot (data : Bytes) (through : Option Nat)

/-- The snapshot to save after a message: that of a last chunk which moved the base. -/
def receivedSnapshot (before after : RaftState) (p : Packet) (stored : Bytes) :
    Option Snapshot :=
  match p.msg with
  | .installSnapshot is =>
    if is.done ∧ before.log.baseIndex < after.log.baseIndex then
      some ⟨{ lastIndex := is.lastIndex, lastTerm := is.lastTerm, data := stored }, p.covers⟩
    else none
  | _ => none

/-- What a node does with an event. -/
def Node.handle (n : Node) : Event → Option Effect
  | .message p progress stored => do
    let (s, actions) ← n.state.onMessageWithProgress p.msg progress
    some { state := s, save := receivedSnapshot n.state s p stored, actions }
  | .electionTimeout => do
    let (s, actions) ← n.state.onElectionTimeout
    some { state := s, actions }
  | .heartbeatTick => do
    let actions ← n.state.onHeartbeatTick
    some { state := n.state, actions }
  | .propose payload => do
    match ← n.state.tryPropose payload with
    | (s, .accepted _, actions) =>
      -- replicate now rather than at the next tick
      let more ← s.onHeartbeatTick
      some { state := s, actions := actions ++ more }
    | (s, .notLeader _, actions) => some { state := s, actions }
  | .takeSnapshot data through =>
    match n.state.takeSnapshot data through with
    | .error _ => none
    | .ok (s, snap) =>
      some { state := s, save := some ⟨snap, n.history.take snap.lastIndex⟩ }

/-! ### The world -/

structure World where
  nodes : NodeId → Node
  sent : List Packet := []
  /-- Every entry handed to a state machine, and by whom. -/
  applied : List (NodeId × LogEntry) := []

/-- Where a snapshot message starts, whether it is the last, and its data. -/
structure Chunk where
  offset : Nat
  done : Bool
  data : Bytes

/-- The next chunk of node `i`'s stored snapshot for `peer`. Which chunk that is, or that
it cannot be read, is up to the state machine's transfer. -/
def World.sendSnapshot (w : World) (chunk : NodeId → Option Chunk) (i peer : NodeId) :
    Option World :=
  let n := w.nodes i
  match n.disk.snapshot with
  | none => do
    let next ← addU64 n.state.log.baseIndex 1
    let s := {n.state with nextIndex := Function.update n.state.nextIndex peer (some next)}
    some {w with nodes := Function.update w.nodes i {n with state := s}}
  | some snap =>
    match chunk peer with
    | none => some w
    | some ch =>
      let msg := Message.installSnapshot
        { term := n.state.currentTerm
          leaderId := n.state.me
          lastIndex := snap.stored.lastIndex
          lastTerm := snap.stored.lastTerm
          offset := ch.offset
          done := ch.done
          data := ch.data }
      some {w with sent := { dst := peer, msg, covers := snap.covers } :: w.sent}

def World.act (chunk : NodeId → Option Chunk) (i : NodeId) (w : World) : Action → Option World
  | .sendTo peer msg => some {w with sent := { dst := peer, msg } :: w.sent}
  | .broadcast msg =>
    some {w with sent := (w.nodes i).state.peers.map (fun p => { dst := p, msg }) ++ w.sent}
  | .resetElectionTimer => some w
  | .apply entry => some {w with applied := (i, entry) :: w.applied}
  | .sendSnapshot peer => w.sendSnapshot chunk i peer

/-- A node as the process starts it. -/
def Cluster.boot (c : Cluster) (i : NodeId) : RaftState :=
  {RaftState.new i (c.peers i) with noopOnElect := c.noopOnElect i}

/-- A node restarted from a disk, if `restore` accepts it. -/
def Cluster.restart (c : Cluster) (i : NodeId) (d : Disk) : Option Node :=
  match (c.boot i).restore d.raft (d.snapshot.map Snapshot.stored) with
  | some (.ok s) => some ⟨s, d⟩
  | _ => none

def Cluster.initial (c : Cluster) : World := { nodes := fun i => { state := c.boot i } }

inductive Label where
  | event (i : NodeId) (ev : Event) (chunk : NodeId → Option Chunk)
  /-- The state machine could not apply the chunk a packet carries. -/
  | chunkFailed (i : NodeId) (p : Packet) (progress : Nat)
  | crash (i : NodeId)
  /-- A crash after `k` of the durable steps of an event. -/
  | torn (i : NodeId) (ev : Event) (k : Nat)

def Label.isTorn : Label → Bool
  | .torn .. => true
  | _ => false

/-- Only what is on the way can arrive, and no membership change is proposed. -/
def World.offers (w : World) (i : NodeId) : Event → Bool
  | .message p _ _ => p ∈ w.sent ∧ p.dst = i
  | .propose payload => (decodeConfigChange payload).isNone
  | _ => true

/-- The effect of an event that can happen at a member. Runs end before a log reaches the
last index of a `u64`. -/
def World.effect (c : Cluster) (w : World) (i : NodeId) (ev : Event) : Option Effect := do
  guard (i ∈ c.members ∧ w.offers i ev)
  let e ← (w.nodes i).handle ev
  guard (e.state.log.lastIndex < u64Max)
  some e

/-- The failure the driver answers with when a chunk could not be applied. -/
def chunkFailure (s : RaftState) (p : Packet) (progress : Nat) : Option Packet :=
  match p.msg with
  | .installSnapshot is =>
    if is.term < s.currentTerm then none
    else some
      { dst := is.leaderId
        msg := .installSnapshotResp
          { term := s.currentTerm, success := false, responderId := s.me,
            nextOffset := progress, installedIndex := 0 } }
  | _ => none

def World.step (c : Cluster) (w : World) : Label → Option World
  | .event i ev chunk => do
    let e ← w.effect c i ev
    let n : Node := ⟨{e.state with pending := []}, e.durable.foldl Disk.apply (w.nodes i).disk⟩
    e.actions.foldlM (World.act chunk i) {w with nodes := Function.update w.nodes i n}
  | .chunkFailed i p progress => do
    guard (i ∈ c.members ∧ p ∈ w.sent ∧ p.dst = i)
    let q ← chunkFailure (w.nodes i).state p progress
    some {w with sent := q :: w.sent}
  | .crash i => do
    guard (i ∈ c.members)
    let n ← c.restart i (w.nodes i).disk
    some {w with nodes := Function.update w.nodes i n}
  | .torn i ev k => do
    let e ← w.effect c i ev
    let n ← c.restart i ((e.durable.take k).foldl Disk.apply (w.nodes i).disk)
    some {w with nodes := Function.update w.nodes i n}

/-- The world after the steps of a list, if all of them can happen. -/
def World.run (c : Cluster) (w : World) (labels : List Label) : Option World :=
  labels.foldlM (World.step c) w

/-- A run whose steps all satisfy `P`. -/
def Run (c : Cluster) (P : World → Label → Prop) : World → World → Prop :=
  Relation.ReflTransGen (fun w w' => ∃ l, P w l ∧ w.step c l = some w')

end EventStream.Raft
