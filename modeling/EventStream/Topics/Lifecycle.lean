import EventStream.Raft.State
import EventStream.Storage.History
import EventStream.Storage.Retention

/-! Creating and deleting a Raft-backed topic (`Broker::create_topic`, `delete_topic` and `open`).

A topic has two directories: `topics/<name>` with its partitions, and `raft/<name>` with what its
Raft nodes persist. Creation builds the first aside and renames it into place, and opens the
partitions; the nodes find in the second whatever is there, and make it when they first persist.
Deletion takes the topic out of the map, stops its nodes and renames first the one directory and
then the other. Names do not meet, so the model is about one of them. Directories under a
`~creating-` or `~deleting-` name are never read again and are left out. -/
namespace EventStream.Topics

open EventStream.Raft EventStream.Storage

def maxPartitions : Nat := 10000

structure Config where
  me : NodeId
  peers : List NodeId
  segmentBytes : UInt64
  flushEveryRecords : Nat

/-- What the Raft node of one partition has persisted. -/
structure StoreFiles where
  raft : PersistedRaft := {}
  snapshot : Option PersistedSnapshot := none
  deriving DecidableEq, Repr

/-- `topics/<name>`; `generation` is the call that created it. -/
structure TopicDir where
  generation : Nat
  partitions : Nat
  dirs : Nat → Directory

/-- `raft/<name>`; `writers` are the topics whose nodes have written to it. -/
structure RaftDir where
  writers : List Nat
  stores : Nat → StoreFiles

/-- A partition as `RaftPartition::open` leaves it. -/
structure Opened where
  partition : Partition
  node : RaftState

/-- Open the partition and start its node from the store; `none` is an error. -/
def openPartition (cfg : Config) (dir : Directory) (store : StoreFiles) : Option Opened := do
  let partition ← Partition.open dir cfg.segmentBytes cfg.flushEveryRecords
  let initial := { RaftState.new cfg.me cfg.peers with noopOnElect := true }
  match ← initial.restore store.raft store.snapshot with
  | .ok node => some ⟨partition, node⟩
  | .error _ => none

inductive CreatePhase where
  /-- The name was not in the map; the directory is yet to be built, or built aside. -/
  | checked
  | staged
  /-- The directory is in place, and so many partitions are open. -/
  | placed (opened : List Opened)
  /-- `create_topic` returned `Ok`; it returned an error, or its process ended. -/
  | returned (opened : List Opened)
  | ended

structure Create where
  partitions : Nat
  phase : CreatePhase

inductive DeletePhase where
  | removed
  | stopped
  | topicsGone
  | ended
  deriving DecidableEq, Repr

structure Delete where
  target : Nat
  phase : DeletePhase
  deriving DecidableEq, Repr

/-- A topic is known by the place of its creation among `creates`. -/
structure World where
  topics : Option TopicDir
  raft : Option RaftDir
  map : Option Nat
  /-- How many nodes of a topic are running. -/
  running : Nat → Nat
  creates : List Create
  deletes : List Delete
  /-- The topics whose files the deletion of another topic took away. -/
  damaged : List Nat

def World.empty : World := ⟨none, none, none, fun _ => 0, [], [], []⟩

inductive Event where
  /-- The steps of `create_topic`. -/
  | create (partitions : Nat)
  | stage (id : Nat)
  | place (id : Nat)
  | openNext (id : Nat)
  | insert (id : Nat)
  /-- A node persists; a partition's files change. -/
  | persist (generation partition : Nat) (store : StoreFiles)
  | write (generation partition : Nat) (dir : Directory)
  /-- The steps of `delete_topic`. -/
  | delete
  | stop (j : Nat)
  | dropTopics (j : Nat)
  | dropRaft (j : Nat)
  /-- The process ends and the broker is opened again. -/
  | crash

def CreatePhase.crashed : CreatePhase → CreatePhase
  | .returned opened => .returned opened
  | _ => .ended

namespace World

def setCreate (w : World) (id : Nat) (c : Create) (phase : CreatePhase) : World :=
  { w with creates := w.creates.set id { c with phase } }

def setDelete (w : World) (j : Nat) (d : Delete) (phase : DeletePhase) : World :=
  { w with deletes := w.deletes.set j { d with phase } }

/-- What the node of a partition finds. -/
def storeAt (w : World) (p : Nat) : StoreFiles := (w.raft.map fun d => d.stores p).getD {}

def step (cfg : Config) (w : World) : Event → Option World
  | .create partitions =>
    if 0 < partitions ∧ partitions ≤ maxPartitions then
      some { w with
        creates := w.creates ++ [⟨partitions, if w.map = none then .checked else .ended⟩] }
    else none
  | .stage id => do
    let c ← w.creates[id]?
    match c.phase with
    | .checked => some (w.setCreate id c (if w.topics.isNone then .staged else .ended))
    | _ => none
  | .place id => do
    let c ← w.creates[id]?
    match c.phase with
    | .staged =>
      match w.topics with
      | none =>
        some { w.setCreate id c (.placed []) with
          topics := some ⟨id, c.partitions, fun _ => .empty⟩ }
      | some _ => some (w.setCreate id c .ended)
    | _ => none
  | .openNext id => do
    let c ← w.creates[id]?
    let t ← w.topics
    match c.phase with
    | .placed opened =>
      if opened.length < c.partitions then
        match openPartition cfg (t.dirs opened.length) (w.storeAt opened.length) with
        | none => some (w.setCreate id c .ended)
        | some o =>
          some { w.setCreate id c (.placed (opened ++ [o])) with
            running := Function.update w.running id (opened.length + 1) }
      else none
    | _ => none
  | .insert id => do
    let c ← w.creates[id]?
    match c.phase with
    | .placed opened =>
      if opened.length = c.partitions then
        some { w.setCreate id c (.returned opened) with map := some id }
      else none
    | _ => none
  | .persist generation partition store =>
    if partition < w.running generation then
      let d := w.raft.getD ⟨[], fun _ => {}⟩
      some { w with
        raft := some ⟨generation :: d.writers, Function.update d.stores partition store⟩ }
    else none
  | .write generation partition dir => do
    let t ← w.topics
    if partition < w.running generation ∧ t.generation = generation then
      some { w with topics := some { t with dirs := Function.update t.dirs partition dir } }
    else none
  | .delete => do
    let target ← w.map
    some { w with map := none, deletes := w.deletes ++ [⟨target, .removed⟩] }
  | .stop j => do
    let d ← w.deletes[j]?
    if d.phase = .removed then
      some { w.setDelete j d .stopped with running := Function.update w.running d.target 0 }
    else none
  | .dropTopics j => do
    let d ← w.deletes[j]?
    if d.phase = .stopped then
      some { w.setDelete j d .topicsGone with
        topics := none
        damaged := w.damaged ++
          (w.topics.toList.map TopicDir.generation).filter (· ≠ d.target) }
    else none
  | .dropRaft j => do
    let d ← w.deletes[j]?
    if d.phase = .topicsGone then
      some { w.setDelete j d .ended with
        raft := none
        damaged := w.damaged ++
          (w.raft.toList.flatMap RaftDir.writers).filter (· ≠ d.target) }
    else none
  | .crash =>
    some { w with
      map := w.topics.map TopicDir.generation
      running := fun g =>
        ((w.topics.filter fun t => t.generation = g).map TopicDir.partitions).getD 0
      creates := w.creates.map fun c => { c with phase := c.phase.crashed }
      deletes := w.deletes.map fun d => { d with phase := .ended } }

def run (cfg : Config) : World → List Event → Option World
  | w, [] => some w
  | w, e :: es => (w.step cfg e).bind fun w' => w'.run cfg es

end World

end EventStream.Topics
