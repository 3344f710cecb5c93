import Mathlib.Data.List.Dedup
import Mathlib.Data.List.Sort
import EventStream.Auth.Keys

/-! Consumer groups: who belongs to a group and who reads which partition (`coord.rs`).

A group has members, each with the topics it subscribes to, and an assignment of the
partitions of these topics to the members. Whenever the members or their subscriptions change
the assignment is computed anew, under a new generation. Every call holds the lock of its group,
so a call is one step; the topics of the broker are fixed. -/
namespace EventStream.Groups

open Std EventStream.Auth

def maxTopicsPerMember : Nat := 100
def maxGroups : Nat := 100000
def maxMembersPerGroup : Nat := 1000

abbrev TopicPartition := String × Nat

namespace TopicPartition

/-- Topics in the order of their names, the partitions of one by number. -/
def cmp : TopicPartition → TopicPartition → Ordering :=
  compareLex (compareOn Prod.fst) (compareOn Prod.snd)

instance : TransCmp cmp := inferInstanceAs (TransCmp (compareLex _ _))

instance : LawfulEqCmp cmp where
  eq_of_compare h := by
    obtain ⟨hname, hnumber⟩ := Ordering.then_eq_eq.mp h
    exact Prod.ext (LawfulEqCmp.eq_of_compare hname) (LawfulEqCmp.eq_of_compare hnumber)

end TopicPartition

abbrev PartitionSet := TreeSet TopicPartition TopicPartition.cmp

structure Member where
  id : String
  topics : List String
  lastHeartbeat : Nat
  /-- The key that joined this member; only it may act for the member. -/
  owner : Name
  deriving DecidableEq, Repr

abbrev Members := TreeMap String Member

/-- What each member is to read. -/
abbrev Assignment := TreeMap String (List TopicPartition)

structure GroupState where
  generation : Nat := 0
  members : Members := ∅
  assignment : Assignment := ∅

/-- The topics of the broker, each with its number of partitions. -/
abbrev Topics := String → Option Nat

/-! ### Assigning partitions -/

def partitionsOf (topics : Topics) (topic : String) : List TopicPartition :=
  ((topics topic).map fun n => (List.range n).map fun p => (topic, p)).getD []

/-- The partitions that should be assigned to someone. -/
def allPartitions (topics : Topics) (members : Members) : PartitionSet :=
  .ofList (members.toList.flatMap fun entry => entry.2.topics.flatMap (partitionsOf topics)) _

/-- The fair share: the partitions divided by the members, rounded up. -/
def targetMax (topics : Topics) (members : Members) : Nat :=
  ((allPartitions topics members).size + members.size - 1) / members.size

/-- The variables of `recompute_assignment`. -/
structure Passing where
  current : Assignment
  assigned : PartitionSet

section Passes
variable (members : Members) (all : PartitionSet) (share : Nat)

/-- The first pass: the owner of a partition keeps it if the partition still exists, the owner
still subscribes to it and has not got its share yet. -/
def Passing.stick (owner : String) (st : Passing) (tp : TopicPartition) : Passing :=
  match members[owner]? with
  | none => st
  | some member =>
    let bucket := st.current.getD owner []
    if tp ∉ all then st
    else if tp.1 ∉ member.topics then st
    else if share ≤ bucket.length then st
    else ⟨st.current.insert owner (bucket ++ [tp]), st.assigned.insert tp⟩

def Passing.sticky (previous : Assignment) (st : Passing) : Passing :=
  previous.toList.foldl
    (fun st entry => entry.2.foldl (Passing.stick members all share entry.1) st) st

/-- The search for the member with the lowest load, with the best one so far and its load. -/
def leastLoaded (current : Assignment) (topic : String) :
    List (String × Member) → Option (String × Nat) → Option String
  | [], best => best.map Prod.fst
  | (mid, m) :: rest, best =>
    if topic ∉ m.topics then leastLoaded current topic rest best
    else
      let load := (current.getD mid []).length
      if load < share ∧ best.all (load < ·.2) then
        leastLoaded current topic rest (some (mid, load))
      else leastLoaded current topic rest best

/-- The second pass: a partition without an owner goes to the member with the lowest load, if one
is below its share. -/
def placeOrphan (current : Assignment) (tp : TopicPartition) : Assignment :=
  match leastLoaded share current tp.1 members.toList none with
  | some mid => current.insert mid (current.getD mid [] ++ [tp])
  | none => current

end Passes

/-- The assignment of a group with at least one member. -/
def assign (topics : Topics) (members : Members) (previous : Assignment) : Assignment :=
  let all := allPartitions topics members
  let share := targetMax topics members
  let kept := Passing.sticky members all share previous ⟨members.map fun _ _ => [], ∅⟩
  let orphans := all.toList.filter (· ∉ kept.assigned)
  let current := orphans.foldl (placeOrphan members share) kept.current
  current.map fun _ v => v.insertionSort fun a b => (TopicPartition.cmp a b).isLE

def GroupState.recomputeAssignment (topics : Topics) (s : GroupState) : Option GroupState := do
  let generation ← addU64 s.generation 1
  let assignment := if s.members.isEmpty then ∅ else assign topics s.members s.assignment
  some { s with generation, assignment }

/-! ### Calls -/

structure JoinReply where
  memberId : String
  generation : Nat
  assignment : List TopicPartition
  deriving DecidableEq, Repr

inductive HeartbeatReply where
  | ok (generation : Nat)
  | rebalanceRequired (currentGeneration : Nat)
  | unknownMember (currentGeneration : Nat)
  deriving DecidableEq, Repr

inductive AssignmentReply where
  | ok (generation : Nat) (assignment : List TopicPartition)
  | unknownMember (currentGeneration : Nat)
  deriving DecidableEq, Repr

structure GroupCoordinator where
  memberTimeout : Nat
  state : TreeMap String GroupState

def GroupCoordinator.new (memberTimeout : Nat) : GroupCoordinator := ⟨memberTimeout, ∅⟩

def nameChar (c : Char) : Bool := c.isAlphanum || c == '_' || c == '-' || c == '.'

def validateGroupName (name : String) : Except String Unit :=
  if name.utf8ByteSize = 0 ∨ 200 < name.utf8ByteSize then
    .error "group name length must be 1..=200"
  else if ¬ name.toList.all nameChar then
    .error "group name may only contain ASCII alphanumerics, '_', '-', '.'"
  else if name = "." ∨ name = ".." then .error s!"group name '{name}' is reserved"
  else .ok ()

def validateMemberId (id : String) : Except String Unit :=
  if id.utf8ByteSize = 0 ∨ 200 < id.utf8ByteSize then
    .error "member_id length must be 1..=200"
  else if ¬ id.toList.all nameChar then
    .error "member_id may only contain ASCII alphanumerics, '_', '-', '.'"
  else .ok ()

def memberForbidden (memberId : String) : String :=
  s!"member '{memberId}' belongs to another key"

/-- Whether a key may act for a member. -/
def Member.allows (m : Member) (key : ApiKey) : Bool := m.owner = key.keyId || key.isAdmin

/-- A call of `join`. `generated` is what `generate_member_id` would return, and `claimed` what
`authorize_or_claim` answers for the group and the key. -/
structure JoinCall where
  group : String
  key : ApiKey
  memberId : Option String
  generated : String
  topics : List String
  claimed : Except String Unit
  now : Nat

/-- Which member joins, and with what topics, once the call is found to be valid. -/
def GroupCoordinator.checkJoin (topics : Topics) (c : GroupCoordinator) (call : JoinCall) :
    Except String (String × List String) := do
  validateGroupName call.group
  let mid := (call.memberId.filter (· ≠ "")).getD call.generated
  validateMemberId mid
  if call.topics = [] then throw "topics must contain at least one topic"
  let subscribed := (call.topics.insertionSort fun a b => (compare a b).isLE).dedup
  if maxTopicsPerMember < subscribed.length then
    throw s!"a member may subscribe to at most {maxTopicsPerMember} topics"
  match subscribed.find? fun t => (topics t).isNone with
  | some t => throw s!"topic '{t}' not found"
  | none => pure ()
  call.claimed
  if call.group ∉ c.state ∧ maxGroups ≤ c.state.size then
    throw s!"consumer group limit reached ({maxGroups})"
  pure (mid, subscribed)

/-- Enter a member, or renew it; the second result tells whether the assignment must change. -/
def GroupState.enter (s : GroupState) (call : JoinCall) (mid : String) (subscribed : List String) :
    Except String (GroupState × Bool) :=
  match s.members[mid]? with
  | none =>
    if maxMembersPerGroup ≤ s.members.size then
      .error s!"member limit reached for group '{call.group}' ({maxMembersPerGroup})"
    else
      .ok ({ s with
        members := s.members.insert mid ⟨mid, subscribed, call.now, call.key.keyId⟩ }, true)
  | some existing =>
    if existing.allows call.key then
      .ok ({ s with
        members := s.members.insert mid
          { existing with topics := subscribed, lastHeartbeat := call.now } },
        existing.topics ≠ subscribed)
    else .error (memberForbidden mid)

namespace GroupCoordinator
variable (topics : Topics) (c : GroupCoordinator)

def join (call : JoinCall) : Option (Except String JoinReply × GroupCoordinator) :=
  match c.checkJoin topics call with
  | .error e => some (.error e, c)
  | .ok (mid, subscribed) =>
    let slot := c.state.getD call.group {}
    match slot.enter call mid subscribed with
    | .error e => some (.error e, { c with state := c.state.insert call.group slot })
    | .ok (s, changed) =>
      (if changed then s.recomputeAssignment topics else some s).map fun s =>
        (.ok ⟨mid, s.generation, s.assignment.getD mid []⟩,
          { c with state := c.state.insert call.group s })

def heartbeat (group : String) (key : ApiKey) (memberId : String) (generation now : Nat) :
    Except String HeartbeatReply × GroupCoordinator :=
  match c.state[group]? with
  | none => (.ok (.unknownMember 0), c)
  | some s =>
    match s.members[memberId]? with
    | none => (.ok (.unknownMember s.generation), c)
    | some m =>
      if m.allows key then
        let members := s.members.insert memberId { m with lastHeartbeat := now }
        (.ok (if generation ≠ s.generation then .rebalanceRequired s.generation
          else .ok s.generation),
          { c with state := c.state.insert group { s with members } })
      else (.error (memberForbidden memberId), c)

def leave (group : String) (key : ApiKey) (memberId : String) :
    Option (Except String Unit × GroupCoordinator) :=
  match c.state[group]? with
  | none => some (.ok (), c)
  | some s =>
    match s.members[memberId]? with
    | none => some (.ok (), c)
    | some m =>
      if m.allows key then do
        let s ← { s with members := s.members.erase memberId }.recomputeAssignment topics
        some (.ok (), { c with state := c.state.insert group s })
      else some (.error (memberForbidden memberId), c)

def assignment (group : String) (key : ApiKey) (memberId : String) :
    Except String AssignmentReply :=
  match c.state[group]? with
  | none => .ok (.unknownMember 0)
  | some s =>
    match s.members[memberId]? with
    | none => .ok (.unknownMember s.generation)
    | some m =>
      if m.allows key then .ok (.ok s.generation (s.assignment.getD memberId []))
      else .error (memberForbidden memberId)

/-- One group's turn in `expire_stale`. -/
def expireStale (group : String) (now : Nat) : Option GroupCoordinator :=
  match c.state[group]? with
  | none => some c
  | some s => do
    let live := s.members.filter fun _ m => now - m.lastHeartbeat ≤ c.memberTimeout
    if live.size = s.members.size then some c
    else do
      let s ← { s with members := live }.recomputeAssignment topics
      some { c with state := c.state.insert group s }

end GroupCoordinator

/-! ### Runs -/

/-- What a member was told it reads. -/
structure Told where
  group : String
  generation : Nat
  member : String
  assignment : List TopicPartition
  deriving DecidableEq, Repr

/-- The coordinator and all that its replies have told. -/
structure World where
  coordinator : GroupCoordinator
  told : List Told

inductive Event where
  | join (call : JoinCall)
  | heartbeat (group : String) (key : ApiKey) (memberId : String) (generation now : Nat)
  | leave (group : String) (key : ApiKey) (memberId : String)
  | assignment (group : String) (key : ApiKey) (memberId : String)
  | expireStale (group : String) (now : Nat)

def World.step (topics : Topics) (w : World) : Event → Option World
  | .join call => do
    let (reply, coordinator) ← w.coordinator.join topics call
    match reply with
    | .error _ => some { w with coordinator }
    | .ok r =>
      some ⟨coordinator, w.told ++ [⟨call.group, r.generation, r.memberId, r.assignment⟩]⟩
  | .heartbeat group key memberId generation now =>
    some { w with coordinator := (w.coordinator.heartbeat group key memberId generation now).2 }
  | .leave group key memberId => do
    let (_, coordinator) ← w.coordinator.leave topics group key memberId
    some { w with coordinator }
  | .assignment group key memberId =>
    match w.coordinator.assignment group key memberId with
    | .ok (.ok generation parts) =>
      some { w with told := w.told ++ [⟨group, generation, memberId, parts⟩] }
    | _ => some w
  | .expireStale group now => do
    let coordinator ← w.coordinator.expireStale topics group now
    some { w with coordinator }

abbrev Reachable (topics : Topics) (memberTimeout : Nat) : World → Prop :=
  Runs (World.step topics) (fun _ _ => True) ⟨.new memberTimeout, []⟩

end EventStream.Groups
