import Mathlib.Data.List.Dedup
import Mathlib.Data.List.Sort
import EventStream.Producers.Journal

/-! Producing to a topic (`dataplane::produce`, with `Topic::route` and the producer registry).

A request with a producer id is routed record by record, waits for the producer's lock,
and has every record decided against the producer's windows before any is written: a
record is fresh, or it is answered as a duplicate with the offset the window gives. The
fresh ones are grouped by partition and each group is one `append_batch`; the groups run
concurrently, and one that fails fails the request at once, whatever the others come to.
When all are written their sequences are recorded in the windows and then journaled, and
only then is the lock released. `flush` goes on beside the requests: it copies the windows to
`producers.json`, and `open` replays the journals over that copy.

Topics are deleted and created again under the same name, so a topic has a generation and
the records it holds are kept by name and generation. The windows know only the name. -/
namespace EventStream.Dataplane

open EventStream.Producers

structure IncomingRecord where
  key : Option Bytes
  value : Bytes
  partition : Option Nat
  sequence : Option Int
  deriving DecidableEq, Repr

structure Produced where
  partition : Nat
  offset : Nat
  duplicate : Bool
  deriving DecidableEq, Repr

inductive DataError where
  | forbidden (message : String)
  | notFound (message : String)
  | badRequest (message : String)
  | rateLimited
  | internal (message : String)
  deriving DecidableEq, Repr

def maxRecordsPerRequest : Nat := 100000

/-- The sequences of a request with a producer id; each record must carry one. -/
def checkSequences : Nat → List IncomingRecord → Except DataError (List Int)
  | _, [] => .ok []
  | idx, r :: rs =>
    match r.sequence with
    | none => .error (.badRequest
        s!"record {idx} missing sequence (required when producer_id is set)")
    | some s =>
      if s < 0 then .error (.badRequest s!"record {idx} has negative sequence {s}")
      else (checkSequences (idx + 1) rs).map (s :: ·)

/-! ### Routing -/

def fnv1a64 (bytes : Bytes) : UInt64 :=
  bytes.foldl (fun h b => (h ^^^ b.toUInt64) * 0x100000001b3) 0xcbf29ce484222325

/-- A topic under its name. `generation` counts the topics that had the name before. -/
structure Topic where
  name : String
  generation : Nat
  partitions : Nat
  deriving DecidableEq, Repr

/-- The partition of one record, with the round-robin counter after it. -/
def Topic.route (topic : Topic) (counter : Nat) (key : Option Bytes) (hint : Option Nat) :
    Except String (Nat × Nat) :=
  match hint, key with
  | some h, _ =>
    if topic.partitions ≤ h then
      .error s!"partition {h} out of range (topic has {topic.partitions} partitions)"
    else .ok (h, counter)
  | none, some k => .ok ((fnv1a64 k).toNat % topic.partitions, counter)
  | none, none => .ok (counter % topic.partitions, (counter + 1) % 2 ^ 64)

/-- Route the records of a request, in order. The counter has moved for every keyless record in
front of one that cannot be routed. -/
def Topic.routeAll (topic : Topic) : Nat → List IncomingRecord → Except DataError (List Nat) × Nat
  | counter, [] => (.ok [], counter)
  | counter, r :: rs =>
    match topic.route counter r.key r.partition with
    | .error e => (.error (.badRequest e), counter)
    | .ok (p, counter) =>
      let rest := topic.routeAll counter rs
      (rest.1.map (p :: ·), rest.2)

/-! ### Deciding -/

/-- What was decided for one record: with `duplicate` it is answered with that offset,
without it is written. -/
structure Decision where
  partition : Nat
  sequence : Int
  duplicate : Option Nat
  deriving DecidableEq, Repr

/-- Decide the records of a request in order. `tentative` has the last sequence of this
request that was accepted for a partition: behind it only its successor is. -/
def decideAll (pid topic : String) (st : ProducerState) :
    (Nat → Option Int) → List (Nat × Int) → Except DataError (List Decision)
  | _, [] => .ok []
  | tentative, (p, seq) :: rest =>
    let accept := (decideAll pid topic st (Function.update tentative p (some seq)) rest).map
      (⟨p, seq, none⟩ :: ·)
    match tentative p with
    | some prev =>
      if seq = prev + 1 then accept
      else .error (.badRequest
        (s!"producer '{pid}' partition {p}: sequences within one request must be " ++
          s!"consecutive (got {seq} after {prev})"))
    | none =>
      match st.check topic p seq with
      | .accept => accept
      | .duplicate prevOffset =>
        (decideAll pid topic st tentative rest).map (⟨p, seq, some prevOffset⟩ :: ·)
      | .sequenceTooLow lastSeen => .error (.badRequest
          s!"producer '{pid}' partition {p} sequence {seq} below last_seen {lastSeen}")
      | .gap expected got => .error (.badRequest
          s!"producer '{pid}' partition {p} sequence gap: expected {expected}, got {got}")

/-- The sequences to be written to a partition, in order. -/
def fresh (decisions : List Decision) (partition : Nat) : List Int :=
  (decisions.filter fun d => d.partition = partition ∧ d.duplicate = none).map (·.sequence)

/-- The partitions to be written to, in the order of the map. -/
def targets (decisions : List Decision) : List Nat :=
  ((decisions.filter fun d => d.duplicate = none).map (·.partition)).dedup.insertionSort (· ≤ ·)

/-- What was written, once all groups are: partition, sequence and offset of each record. -/
def entries (decisions : List Decision) (written : Nat → Option (List Nat)) :
    List (Nat × Int × Nat) :=
  (targets decisions).flatMap fun p =>
    ((fresh decisions p).zip ((written p).getD [])).map fun x => (p, x.1, x.2)

/-- The answer to each record; `none` is the panic of `expect("every record decided")`. -/
def answers : (Nat → List Nat) → List Decision → Option (List Produced)
  | _, [] => some []
  | offsets, d :: ds =>
    match d.duplicate, offsets d.partition with
    | some offset, _ => (answers offsets ds).map (⟨d.partition, offset, true⟩ :: ·)
    | none, offset :: rest =>
      (answers (Function.update offsets d.partition rest) ds).map
        (⟨d.partition, offset, false⟩ :: ·)
    | none, [] => none

/-! ### The broker -/

/-- A record in a partition, by the producer and sequence it carries. -/
structure Stored where
  offset : Nat
  producer : String
  sequence : Int
  deriving DecidableEq, Repr

def Stored.tag (x : Stored) : String × Int := (x.producer, x.sequence)

inductive Phase where
  /-- Routed; waits for the producer's lock. -/
  | waiting (routed : List Nat) (sequences : List Int)
  /-- Holds the lock. `written` has the offsets of the groups that are appended. -/
  | writing (decisions : List Decision) (written : Nat → Option (List Nat))
  /-- Recorded in the windows, with the lock still held for the journal. -/
  | recorded (decisions : List Decision) (written : Nat → Option (List Nat))
  /-- The append of a group failed and so did the request; the appends of other groups may
  still be under way. -/
  | failed (decisions : List Decision) (written : Nat → Option (List Nat)) (lost : Nat)
  | answered (result : Except DataError (List Produced))

def Phase.holding : Phase → Bool
  | .writing .. => true
  | .recorded .. => true
  | _ => false

structure Request where
  topic : Topic
  producer : String
  owner : String
  records : List IncomingRecord
  phase : Phase

/-- Enter what a request wrote to the windows of its topic. -/
def recordAll (now : Int) (topic : String) (st : ProducerState) (xs : List (Nat × Int × Nat)) :
    ProducerState :=
  xs.foldl (fun st x => st.record now topic x.1 x.2.1 x.2.2) st

/-- The journal lines of a request. -/
def Request.lines (r : Request) (ds : List Decision) (written : Nat → Option (List Nat)) :
    List JournalEntry :=
  (entries ds written).map fun x => ⟨r.producer, r.owner, r.topic.name, x.1, x.2.1, x.2.2⟩

structure Broker where
  topics : String → Option Topic
  /-- How many topics of a name there have been. -/
  created : String → Nat
  /-- The records ever appended to a partition of a topic, by name and generation. -/
  logs : String × Nat → Nat → List Stored
  counters : String × Nat → Nat
  registry : Registry
  /-- `producers.json`, and the lines of `producers.journal.old` and `producers.journal`. -/
  snapshot : Option Registry
  rotated : List JournalEntry
  journal : List JournalEntry
  flush : FlushPhase
  requests : List Request

def Broker.empty : Broker :=
  ⟨fun _ => none, fun _ => 0, fun _ _ => [], fun _ => 0, .empty, none, [], [], .idle, []⟩

abbrev Broker.producers (b : Broker) : String → Option ProducerState := b.registry.slots

inductive Event where
  | createTopic (name : String) (partitions : Nat)
  | deleteTopic (name : String)
  /-- The process ends and the broker is opened again. -/
  | restart (now : Int)
  /-- The next step of `flush`. -/
  | flush
  /-- A request is refused as it comes in: by the access list, the size of a record or a quota. -/
  | deny (topic producer owner : String) (records : List IncomingRecord) (error : DataError)
  /-- A request comes in, up to its wait for the lock. -/
  | arrive (topic producer owner : String) (records : List IncomingRecord)
  /-- A request that waits for the lock is refused: by the form of its producer id, or by a limit
  of the registry. -/
  | refuse (id : Nat) (error : DataError)
  | admission (id : Nat) (now : Int)
  /-- The append of one group is done, with these offsets; or it failed. -/
  | append (id partition : Nat) (offsets : List Nat)
  | fail (id partition : Nat)
  | record (id : Nat) (now : Int)
  | journal (id : Nat)

/-- The state of a producer for a request of `owner` (`ProducerRegistry::admit`). -/
def admitState (now : Int) (slot : Option ProducerState) (pid owner : String) :
    Except DataError ProducerState :=
  let st := slot.getD ⟨owner, now, fun _ => none⟩
  let st := if st.owner = "" then { st with owner } else st
  if st.owner ≠ owner then .error (.forbidden s!"producer_id '{pid}' belongs to another key")
  else .ok { st with lastUsedMs := now }

namespace Broker

/-- Another request of the producer holds its lock. -/
def locked (b : Broker) (pid : String) : Bool :=
  b.requests.any fun r => r.producer = pid && r.phase.holding

/-- Request `id` goes on to `phase`. -/
def move (b : Broker) (id : Nat) (r : Request) (phase : Phase) : Broker :=
  { b with requests := b.requests.set id { r with phase } }

def setProducer (b : Broker) (pid : String) (st : ProducerState) : Broker :=
  { b with
    registry := ⟨if pid ∈ b.registry.ids then b.registry.ids else pid :: b.registry.ids,
      Function.update b.producers pid (some st)⟩ }

/-- The records of one group stand behind what the partition holds. -/
def store (b : Broker) (r : Request) (partition : Nat) (batch : List (Int × Nat)) : Broker :=
  let key := (r.topic.name, r.topic.generation)
  let stored := batch.map fun x => ⟨x.2, r.producer, x.1⟩
  { b with
    logs := Function.update b.logs key
      (Function.update (b.logs key) partition (b.logs key partition ++ stored)) }

/-- The part of `produce` before the lock: where the request stands then, and the round-robin
counter. -/
def arrive (b : Broker) (topic : Topic) (records : List IncomingRecord) : Phase × Nat :=
  let counter := b.counters (topic.name, topic.generation)
  if records.isEmpty then (.answered (.ok []), counter)
  else if maxRecordsPerRequest < records.length then
    (.answered (.error (.badRequest
      s!"{records.length} records in one request; the limit is {maxRecordsPerRequest}")), counter)
  else
    match checkSequences 0 records with
    | .error e => (.answered (.error e), counter)
    | .ok sequences =>
      match topic.routeAll counter records with
      | (.error e, counter) => (.answered (.error e), counter)
      | (.ok routed, counter) => (.waiting routed sequences, counter)

/-- One step of `flush`. A producer's state is copied under its lock. -/
def flushStep (b : Broker) : Option Broker :=
  match b.flush with
  | .idle =>
    some { b with
      rotated := if b.journal.isEmpty then b.rotated else b.journal
      journal := []
      flush := .rotated }
  | .rotated => some { b with flush := .copying b.registry.ids .empty }
  | .copying (pid :: todo) copy =>
    if b.locked pid then none
    else
      some { b with
        flush := .copying todo
          ⟨pid :: copy.ids, Function.update copy.slots pid (b.producers pid)⟩ }
  | .copying [] copy => some { b with snapshot := some copy, flush := .replaced }
  | .replaced => some { b with rotated := [], flush := .idle }

/-- `ProducerRegistry::open` on what is on disk. -/
def reopened (b : Broker) (now : Int) : Registry :=
  (b.rotated ++ b.journal).foldl (Registry.replayEntry now) ((b.snapshot.getD .empty).load now)

def step (b : Broker) : Event → Option Broker
  | .createTopic name partitions =>
    if b.topics name = none ∧ 0 < partitions then
      some { b with
        topics := Function.update b.topics name (some ⟨name, b.created name, partitions⟩)
        created := Function.update b.created name (b.created name + 1) }
    else none
  | .deleteTopic name =>
    if b.topics name = none then none
    else some { b with topics := Function.update b.topics name none }
  | .restart now =>
    some { b with
      counters := fun _ => 0
      registry := b.reopened now
      flush := .idle
      requests := [] }
  | .flush => b.flushStep
  | .deny name producer owner records error => do
    let topic ← b.topics name
    some { b with
      requests := b.requests ++ [⟨topic, producer, owner, records, .answered (.error error)⟩] }
  | .arrive name producer owner records => do
    let topic ← b.topics name
    let (phase, counter) := b.arrive topic records
    some { b with
      counters := Function.update b.counters (topic.name, topic.generation) counter
      requests := b.requests ++ [⟨topic, producer, owner, records, phase⟩] }
  | .refuse id error => do
    let r ← b.requests[id]?
    match r.phase with
    | .waiting _ _ => some (b.move id r (.answered (.error error)))
    | _ => none
  | .admission id now => do
    let r ← b.requests[id]?
    match r.phase with
    | .waiting routed sequences =>
      if b.locked r.producer then none
      else
        match admitState now (b.producers r.producer) r.producer r.owner with
        | .error e => some (b.move id r (.answered (.error e)))
        | .ok st =>
          let b := b.setProducer r.producer st
          match decideAll r.producer r.topic.name st (fun _ => none) (routed.zip sequences) with
          | .error e => some (b.move id r (.answered (.error e)))
          | .ok decisions => some (b.move id r (.writing decisions fun _ => none))
    | _ => none
  | .append id partition offsets => do
    let r ← b.requests[id]?
    match r.phase with
    | .writing decisions written =>
      if partition ∈ targets decisions ∧ written partition = none ∧
          offsets.length = (fresh decisions partition).length then
        some ((b.store r partition ((fresh decisions partition).zip offsets)).move id r
          (.writing decisions (Function.update written partition (some offsets))))
      else none
    | .failed decisions written lost =>
      if partition ∈ targets decisions ∧ written partition = none ∧ partition ≠ lost ∧
          offsets.length = (fresh decisions partition).length then
        some ((b.store r partition ((fresh decisions partition).zip offsets)).move id r
          (.failed decisions (Function.update written partition (some offsets)) lost))
      else none
    | _ => none
  | .fail id partition => do
    let r ← b.requests[id]?
    match r.phase with
    | .writing decisions written =>
      if partition ∈ targets decisions ∧ written partition = none then
        some (b.move id r (.failed decisions written partition))
      else none
    | _ => none
  | .record id now => do
    let r ← b.requests[id]?
    match r.phase with
    | .writing decisions written =>
      if ∀ p ∈ targets decisions, written p ≠ none then do
        let st ← b.producers r.producer
        let st := recordAll now r.topic.name st (entries decisions written)
        some ((b.setProducer r.producer st).move id r (.recorded decisions written))
      else none
    | _ => none
  | .journal id => do
    let r ← b.requests[id]?
    match r.phase with
    | .recorded decisions written => do
      let out ← answers (fun p => (written p).getD []) decisions
      some ({ b with journal := b.journal ++ r.lines decisions written }.move id r
        (.answered (.ok out)))
    | _ => none

/-- A run of the broker. -/
abbrev run (b : Broker) (es : List Event) : Option Broker := es.foldlM step b

end Broker

end EventStream.Dataplane
