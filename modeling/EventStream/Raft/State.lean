import EventStream.Raft.Log
import Mathlib.Data.List.Sort
import Mathlib.Logic.Function.Basic

/-! The Raft state machine (`raft/state.rs`).

Each handler takes the state and a message to the state after it and the actions the
driver carries out. What must be durable first is queued in `pending`. `none` is a
panic. -/
namespace EventStream.Raft

def maxAppendEntries : Nat := 1024
def maxAppendBytes : Nat := 4 * 1024 * 1024
def maxTermJump : Nat := 2 ^ 20

inductive Role where
  | follower
  | candidate
  | leader
  deriving DecidableEq, Repr

inductive Action where
  | sendTo (peer : NodeId) (msg : Message)
  | broadcast (msg : Message)
  | resetElectionTimer
  | apply (entry : LogEntry)
  | sendSnapshot (peer : NodeId)
  deriving DecidableEq, Repr

inductive ProposeOutcome where
  | accepted (index : Nat)
  | notLeader (hint : Option NodeId)
  deriving DecidableEq, Repr

structure RaftState where
  me : NodeId
  peers : List NodeId
  role : Role := .follower
  currentTerm : Nat := 0
  votedFor : Option NodeId := none
  leaderHint : Option NodeId := none
  log : Log := {}
  commitIndex : Nat := 0
  lastApplied : Nat := 0
  matchIndex : NodeId → Option Nat := fun _ => none
  nextIndex : NodeId → Option Nat := fun _ => none
  snapshotCursor : NodeId → Option Nat := fun _ => none
  noopOnElect : Bool := false
  votesReceived : List NodeId := []
  pending : List PersistOp := []

/-! ### Membership entries -/

def configMagic : Bytes := [0xEE, 0xEE, 0xEE, 0xEE]

def encodeConfigChange (add remove : List NodeId) : Bytes :=
  configMagic ++ beBytes 4 add.length ++ add.flatMap (beBytes 4) ++
    beBytes 4 remove.length ++ remove.flatMap (beBytes 4)

def takeU32 (payload : Bytes) : Option (Nat × Bytes) :=
  if 4 ≤ payload.length then some (beNat (payload.take 4), payload.drop 4) else none

/-- Read `n` node ids. -/
def takeIdsLoop : Nat → Bytes → Option (List NodeId × Bytes)
  | 0, payload => some ([], payload)
  | n + 1, payload => do
    let (id, rest) ← takeU32 payload
    let (ids, rest) ← takeIdsLoop n rest
    some (id :: ids, rest)

def takeIds (payload : Bytes) : Option (List NodeId × Bytes) := do
  let (len, rest) ← takeU32 payload
  takeIdsLoop len rest

def decodeConfigChange (payload : Bytes) : Option (List NodeId × List NodeId) :=
  if payload.length < 8 ∨ payload.take 4 ≠ configMagic then none
  else do
    let (add, rest) ← takeIds (payload.drop 4)
    let (remove, _) ← takeIds rest
    some (add, remove)

def PersistOp.isHardState : PersistOp → Bool
  | .hardState .. => true
  | _ => false

namespace RaftState

/-! ### Restart and snapshots -/

def new (me : NodeId) (peers : List NodeId) : RaftState := { me, peers }

/-- The stored log starts with an entry the snapshot covers. -/
def startsCovered (entries : List LogEntry) (lastIndex : Nat) : Bool :=
  match entries.head? with
  | some e => decide (e.index ≤ lastIndex)
  | none => false

/-- `restore` takes over the snapshot. A crash between saving the snapshot and compacting
the log leaves entries the snapshot covers: they go now, and on disk with the next
persist. -/
def adoptSnapshot (s : RaftState) (snap : PersistedSnapshot) : RaftState :=
  { s with
    pending := if startsCovered s.log.entries snap.lastIndex then
      s.pending ++ [PersistOp.compactThrough snap.lastIndex] else s.pending
    log := { s.log.compactThrough snap.lastIndex snap.lastTerm with
      baseIndex := snap.lastIndex
      baseTerm := snap.lastTerm }
    commitIndex := max s.commitIndex snap.lastIndex
    lastApplied := max s.lastApplied snap.lastIndex }

/-- `restore` refuses a log that does not start right after the snapshot. -/
def checkStart (s : RaftState) : Option (Except String RaftState) :=
  match s.log.entries.head? with
  | none => some (.ok s)
  | some first => do
    let expected ← addU64 s.log.baseIndex 1
    if first.index ≠ expected then
      let start := first.index
      let base := s.log.baseIndex
      some (.error (s!"raft log starts at index {start} but the snapshot ends at {base}: " ++
        "entries are missing"))
    else some (.ok s)

/-- Restore from what the store holds. -/
def restore (s : RaftState) (persisted : PersistedRaft) (snapshot : Option PersistedSnapshot) :
    Option (Except String RaftState) :=
  let s := { s with
    currentTerm := persisted.currentTerm
    votedFor := persisted.votedFor
    log := { entries := persisted.log } }
  match snapshot with
  | none => s.checkStart
  | some snap => (s.adoptSnapshot snap).checkStart

/-- Capture a snapshot through `through`, capped at `lastApplied`, and compact the log. -/
def takeSnapshot (s : RaftState) (data : Bytes) (through : Option Nat) :
    Except String (RaftState × PersistedSnapshot) :=
  let through := min (through.getD s.lastApplied) s.lastApplied
  if through = 0 ∨ through ≤ s.log.baseIndex then
    .error s!"nothing to snapshot yet (through={through})"
  else match s.log.termAt through with
    | none => .error s!"entry {through} not in log"
    | some term =>
      .ok ({ s with
        log := s.log.compactThrough through term
        pending := s.pending ++ [.compactThrough through] },
        { lastIndex := through, lastTerm := term, data })

/-- Queue the hard state; only the newest one matters. -/
def persistHardState (s : RaftState) : RaftState :=
  { s with
    pending := s.pending.filter (fun op => !op.isHardState) ++
      [.hardState s.currentTerm s.votedFor] }

/-- A majority of the peers and this node. -/
def quorum (s : RaftState) : Nat := (s.peers.length + 1) / 2 + 1

def isMember (s : RaftState) (id : NodeId) : Bool := s.peers.contains id

/-! ### Replication -/

def buildAppendFor (s : RaftState) (peer : NodeId) : Option Message := do
  let next := (s.nextIndex peer).getD 1
  let prevLogIndex := next - 1
  let entries ← s.log.sliceBounded next maxAppendEntries maxAppendBytes
  some (.appendEntries
    { term := s.currentTerm
      leaderId := s.me
      prevLogIndex
      prevLogTerm := (s.log.termAt prevLogIndex).getD 0
      entries
      leaderCommit := s.commitIndex })

def replicateTo (s : RaftState) (peer : NodeId) : Option Action :=
  if (s.nextIndex peer).getD 1 ≤ s.log.baseIndex then some (.sendSnapshot peer)
  else (s.buildAppendFor peer).map (.sendTo peer)

/-- The leader's timer: to each peer what it is missing. -/
def onHeartbeatTick (s : RaftState) : Option (List Action) :=
  if s.role ≠ .leader then some [] else s.peers.mapM s.replicateTo

/-- Commit the highest index a majority holds, if its entry is of the current term. -/
def recomputeCommitIndex (s : RaftState) : Option RaftState := do
  let indices := s.peers.map (fun p => (s.matchIndex p).getD 0) ++ [s.log.lastIndex]
  let sorted := indices.insertionSort (· ≤ ·)
  let candidate ← sorted[sorted.length - s.quorum]?
  if s.commitIndex < candidate ∧ s.log.termAt candidate = some s.currentTerm then
    some {s with commitIndex := candidate}
  else some s

def appendLocal (s : RaftState) (payload : Bytes) : Option (RaftState × Nat) := do
  let nextIdx ← addU64 s.log.lastIndex 1
  let entry : LogEntry := { term := s.currentTerm, index := nextIdx, payload }
  some ({ s with
    pending := s.pending ++ [.append [entry]]
    log := {s.log with entries := s.log.entries ++ [entry]} }, nextIdx)

def applyConfigChange (s : RaftState) (add remove : List NodeId) : RaftState :=
  let s := remove.foldl (fun s id =>
    { s with
      peers := s.peers.filter (· ≠ id)
      matchIndex := Function.update s.matchIndex id none
      nextIndex := Function.update s.nextIndex id none
      snapshotCursor := Function.update s.snapshotCursor id none }) s
  let s := add.foldl (fun s id =>
    if s.peers.contains id ∨ id = s.me then s
    else { s with
      peers := s.peers ++ [id]
      nextIndex := Function.update s.nextIndex id (some 1)
      matchIndex := Function.update s.matchIndex id (some 0) }) s
  {s with peers := s.peers.insertionSort (· ≤ ·)}

/-- The loop of `drainApplyActions`, for the given number of rounds. -/
def drainLoop : Nat → RaftState → RaftState × List Action
  | 0, s => (s, [])
  | n + 1, s =>
    let s := {s with lastApplied := s.lastApplied + 1}
    match s.log.get s.lastApplied with
    | none => drainLoop n s
    | some e =>
      -- an empty payload is a leader's election no-op
      if e.payload = [] then drainLoop n s
      else match decodeConfigChange e.payload with
        | some (add, remove) => drainLoop n (s.applyConfigChange add remove)
        | none =>
          let (s, out) := drainLoop n s
          (s, .apply e :: out)

/-- Hand on what is committed and not yet applied, up to `commitIndex`. -/
def drainApplyActions (s : RaftState) : RaftState × List Action :=
  drainLoop (s.commitIndex - s.lastApplied) s

/-! ### Elections -/

/-- Move to a later term as a follower. -/
def stepDownTo (s : RaftState) (term : Nat) : RaftState :=
  let changed := decide (s.currentTerm < term) || s.votedFor.isSome
  let s := {s with currentTerm := max s.currentTerm term, votedFor := none}
  let s := if changed then s.persistHardState else s
  { s with
    role := .follower
    votesReceived := []
    leaderHint := none
    matchIndex := fun _ => none
    nextIndex := fun _ => none
    snapshotCursor := fun _ => none }

/-- How `becomeLeader` starts: as a leader that knows nothing of its peers. -/
def takeLead (s : RaftState) : RaftState :=
  { s with
    role := .leader
    leaderHint := some s.me
    matchIndex := fun _ => none
    nextIndex := fun _ => none
    snapshotCursor := fun _ => none }

/-- The empty entry a new leader writes, so that entries of earlier terms commit. -/
def electNoop (s : RaftState) : Option RaftState :=
  if s.noopOnElect then (s.appendLocal []).map Prod.fst else some s

/-- Nothing is known to be replicated; the next entry to send is the one after the last. -/
def trackPeers (s : RaftState) : Option RaftState :=
  if s.peers.isEmpty then some {s with votesReceived := []}
  else (addU64 s.log.lastIndex 1).map fun next =>
    { s with
      matchIndex := fun p => if s.peers.contains p then some 0 else s.matchIndex p
      nextIndex := fun p => if s.peers.contains p then some next else s.nextIndex p
      votesReceived := [] }

def becomeLeader (s : RaftState) : Option RaftState := do
  let s ← s.takeLead.electNoop
  let s ← s.trackPeers
  s.recomputeCommitIndex

/-- Stand in the next term. The term saturates, so that it cannot overflow. -/
def stand (s : RaftState) : RaftState :=
  let s := { s with
    currentTerm := satAdd s.currentTerm 1
    role := .candidate
    votedFor := some s.me }
  {s.persistHardState with votesReceived := [s.me], leaderHint := none}

def startElection (s : RaftState) : Option (RaftState × List Action) :=
  let s := s.stand
  if s.peers.isEmpty then do
    let s ← s.becomeLeader
    let out ← s.onHeartbeatTick
    let (s, applied) := s.drainApplyActions
    some (s, out ++ applied)
  else
    let rv : RequestVote :=
      { term := s.currentTerm
        candidateId := s.me
        lastLogIndex := s.log.lastIndex
        lastLogTerm := s.log.lastTerm }
    some (s, [.resetElectionTimer, .broadcast (.requestVote rv)])

def onElectionTimeout (s : RaftState) : Option (RaftState × List Action) :=
  if s.role = .leader then some (s, []) else s.startElection

/-! ### Messages -/

def handleRequestVote (s : RaftState) (rv : RequestVote) : RaftState × List Action :=
  let upToDate := s.log.lastTerm < rv.lastLogTerm ∨
    (rv.lastLogTerm = s.log.lastTerm ∧ s.log.lastIndex ≤ rv.lastLogIndex)
  let canVote := s.votedFor = none ∨ s.votedFor = some rv.candidateId
  let grant := decide (s.currentTerm ≤ rv.term ∧ upToDate ∧ canVote)
  let s := if grant ∧ s.votedFor ≠ some rv.candidateId then
      {s with votedFor := some rv.candidateId}.persistHardState
    else s
  let resp := Message.requestVoteResp
    { term := s.currentTerm, voteGranted := grant, voterId := s.me }
  (s, .sendTo rv.candidateId resp :: if grant then [.resetElectionTimer] else [])

def handleRequestVoteResp (s : RaftState) (rvr : RequestVoteResp) :
    Option (RaftState × List Action) :=
  if s.role ≠ .candidate ∨ rvr.term ≠ s.currentTerm then some (s, [])
  else if rvr.voteGranted then
    let s := {s with votesReceived := s.votesReceived.insert rvr.voterId}
    if s.quorum ≤ s.votesReceived.length then do
      let s ← s.becomeLeader
      let out ← s.onHeartbeatTick
      some (s, out)
    else some (s, [])
  else some (s, [])

/-- Accept the sender as the leader of the term. -/
def acceptLeader (s : RaftState) (term : Nat) (leaderId : NodeId) : RaftState :=
  let s := if s.currentTerm < term then
      {s with currentTerm := term, votedFor := none}.persistHardState
    else s
  {s with role := .follower, leaderHint := some leaderId}

/-- The log-consistency check of an AppendEntries. -/
def consistent (s : RaftState) (ae : AppendEntries) : Bool :=
  if ae.prevLogIndex = 0 then true
  else if ae.prevLogIndex < s.log.baseIndex then true
  else s.log.termAt ae.prevLogIndex == some ae.prevLogTerm

/-- Append what a consistent AppendEntries carries; the Boolean says whether the log
took it. -/
def appendFrom (s : RaftState) (ae : AppendEntries) : Option (RaftState × Bool) :=
  if ae.entries = [] then some (s, true)
  else do
    match ← s.log.appendAt (satAdd ae.prevLogIndex 1) ae.entries s.commitIndex with
    | (log, .error _) => some ({s with log}, false)
    | (log, .ok none) => some ({s with log}, true)
    | (log, .ok (some firstChanged)) =>
      let changed ← log.slice firstChanged u64Max
      some ({ s with
        log
        pending := s.pending ++ [.truncateFrom firstChanged, .append changed] }, true)

def takeEntries (s : RaftState) (ae : AppendEntries) : Option (RaftState × Bool) :=
  if s.consistent ae then s.appendFrom ae else some (s, false)

def handleAppendEntries (s : RaftState) (ae : AppendEntries) :
    Option (RaftState × List Action) :=
  let reply (s : RaftState) (success : Bool) (matchIndex : Nat) :=
    Action.sendTo ae.leaderId (.appendEntriesResp
      { term := s.currentTerm, success, responderId := s.me, matchIndex })
  if ae.term < s.currentTerm then some (s, [reply s false 0])
  else
    ((s.acceptLeader ae.term ae.leaderId).takeEntries ae).map fun (s, applied) =>
      if applied then
        -- what this request proves to be shared with the leader, and nothing more
        let lastNew := satAdd ae.prevLogIndex ae.entries.length
        let s := if s.commitIndex < ae.leaderCommit then
            {s with commitIndex := max (min ae.leaderCommit lastNew) s.commitIndex}
          else s
        (s, [reply s true lastNew, .resetElectionTimer])
      else (s, [reply s false s.log.lastIndex, .resetElectionTimer])

def setNext (s : RaftState) (peer : NodeId) (index : Nat) : RaftState :=
  {s with nextIndex := Function.update s.nextIndex peer (some index)}

def setMatch (s : RaftState) (peer : NodeId) (index : Nat) : RaftState :=
  {s with matchIndex := Function.update s.matchIndex peer (some index)}

def handleAppendEntriesResp (s : RaftState) (aer : AppendEntriesResp) :
    Option (RaftState × List Action) :=
  if s.role ≠ .leader ∨ aer.term ≠ s.currentTerm then some (s, [])
  else
    let peer := aer.responderId
    if aer.success then do
      let mi := min aer.matchIndex s.log.lastIndex
      let cur := (s.matchIndex peer).getD 0
      let s := if cur < mi then s.setMatch peer mi else s
      let mi := max mi cur
      let s ← (s.setNext peer (satAdd mi 1)).recomputeCommitIndex
      if mi < s.log.lastIndex then
        let a ← s.replicateTo peer
        some (s, [a])
      else some (s, [])
    else do
      -- back off, at once to just past the follower's last entry if that is lower
      let cur := (s.nextIndex peer).getD 1
      let hinted := satAdd aer.matchIndex 1
      let next := max (min (cur - 1) hinted) 1
      let s := s.setNext peer next
      let a ← s.replicateTo peer
      some (s, [a])

/-- The last chunk has arrived: everything up to the snapshot's end is committed and
applied, and the log starts after it. -/
def install (s : RaftState) (is : InstallSnapshot) : RaftState :=
  let s := if s.log.baseIndex < is.lastIndex then
      let (kept, log) := s.log.installSnapshot is.lastIndex is.lastTerm
      { s with
        log
        pending := s.pending ++
          [if kept then .compactThrough is.lastIndex else .truncateFrom 0] }
    else s
  { s with
    commitIndex := max s.commitIndex is.lastIndex
    lastApplied := max s.lastApplied is.lastIndex }

def handleInstallSnapshot (s : RaftState) (is : InstallSnapshot) (progress : Nat) :
    RaftState × List Action :=
  let reply (s : RaftState) (success : Bool) (installedIndex : Nat) :=
    Action.sendTo is.leaderId (.installSnapshotResp
      { term := s.currentTerm, success, responderId := s.me, nextOffset := progress,
        installedIndex })
  if is.term < s.currentTerm then (s, [reply s false 0])
  else
    let s := s.acceptLeader is.term is.leaderId
    if is.done then
      let s := s.install is
      (s, [reply s true (max is.lastIndex s.log.baseIndex), .resetElectionTimer])
    else (s, [reply s true 0, .resetElectionTimer])

def handleInstallSnapshotResp (s : RaftState) (isr : InstallSnapshotResp) :
    Option (RaftState × List Action) :=
  if s.role ≠ .leader ∨ isr.term ≠ s.currentTerm then some (s, [])
  else
    let peer := isr.responderId
    if isr.success = false then some (s, [])
    else if 0 < isr.installedIndex then do
      let installed := min isr.installedIndex s.log.lastIndex
      let mi := max ((s.matchIndex peer).getD 0) installed
      let next ← addU64 mi 1
      let s := (s.setMatch peer mi).setNext peer next
      let s := {s with snapshotCursor := Function.update s.snapshotCursor peer none}
      let s ← s.recomputeCommitIndex
      if mi < s.log.lastIndex ∨ mi < s.log.baseIndex then
        let a ← s.replicateTo peer
        some (s, [a])
      else some (s, [])
    else
      -- a chunk or the probe landed: continue from where the follower is
      some ({ s with
        snapshotCursor := Function.update s.snapshotCursor peer (some isr.nextOffset) },
        [.sendSnapshot peer])

/-- The handler a message goes to. -/
def dispatch (s : RaftState) (progress : Nat) : Message → Option (RaftState × List Action)
  | .requestVote rv => some (s.handleRequestVote rv)
  | .requestVoteResp rvr => s.handleRequestVoteResp rvr
  | .appendEntries ae => s.handleAppendEntries ae
  | .appendEntriesResp aer => s.handleAppendEntriesResp aer
  | .installSnapshot is => some (s.handleInstallSnapshot is progress)
  | .installSnapshotResp isr => s.handleInstallSnapshotResp isr

/-- A message the node does not even look at: from a stranger, or with a term that is
too far ahead. -/
def ignores (s : RaftState) (msg : Message) : Bool :=
  !s.isMember msg.sender || decide (satAdd s.currentTerm maxTermJump < msg.term) ||
    msg.term == u64Max

def onMessageWithProgress (s : RaftState) (msg : Message) (progress : Nat) :
    Option (RaftState × List Action) :=
  if s.ignores msg then some (s, [])
  else do
    let steppedDown := decide (s.currentTerm < msg.term)
    let s := if steppedDown then s.stepDownTo msg.term else s
    let (s, actions) ← s.dispatch progress msg
    let actions := if steppedDown && !actions.contains .resetElectionTimer
      then .resetElectionTimer :: actions else actions
    let (s, applied) := s.drainApplyActions
    some (s, actions ++ applied)

def tryPropose (s : RaftState) (payload : Bytes) :
    Option (RaftState × ProposeOutcome × List Action) :=
  if s.role ≠ .leader then some (s, .notLeader s.leaderHint, [])
  else do
    let (s, nextIdx) ← s.appendLocal payload
    let s ← s.recomputeCommitIndex
    let (s, actions) := s.drainApplyActions
    some (s, .accepted nextIdx, actions)

def tryChangeMembership (s : RaftState) (add remove : List NodeId) :
    Option (RaftState × ProposeOutcome × List Action) :=
  if s.role ≠ .leader then some (s, .notLeader s.leaderHint, [])
  else s.tryPropose (encodeConfigChange add remove)

/-! ### Terms and leaders -/

/-- Only the parts of the state that the log and the commit index do not depend on differ. -/
structure Alike (s s' : RaftState) : Prop where
  log : s'.log = s.log
  commitIndex : s'.commitIndex = s.commitIndex
  lastApplied : s'.lastApplied = s.lastApplied

theorem Alike.refl (s : RaftState) : s.Alike s := ⟨rfl, rfl, rfl⟩

theorem alike_stepDownTo (s : RaftState) (term : Nat) : s.Alike (s.stepDownTo term) := by
  unfold stepDownTo
  dsimp only
  split <;> exact ⟨rfl, rfl, rfl⟩

theorem alike_acceptLeader (s : RaftState) (term : Nat) (leader : NodeId) :
    s.Alike (s.acceptLeader term leader) := by
  unfold acceptLeader
  dsimp only
  split <;> exact ⟨rfl, rfl, rfl⟩

/-! ### Handing on -/

/-- What a membership change may touch: who the peers are and what is known of them. Of a peer
that is new nothing is known. -/
structure Regrouped (s s' : RaftState) : Prop where
  eq : s' = { s with
    peers := s'.peers
    matchIndex := s'.matchIndex
    nextIndex := s'.nextIndex
    snapshotCursor := s'.snapshotCursor }
  matched : ∀ p i, s'.matchIndex p = some i → s.matchIndex p = some i ∨ i = 0

theorem Regrouped.refl (s : RaftState) : s.Regrouped s := ⟨rfl, fun _ _ h => .inl h⟩

theorem Regrouped.trans {s₁ s₂ s₃ : RaftState} (h : s₁.Regrouped s₂) (h' : s₂.Regrouped s₃) :
    s₁.Regrouped s₃ := by
  refine ⟨?_, fun p i hi => (h'.matched p i hi).elim (h.matched p i) .inr⟩
  rw [h'.eq, h.eq]

theorem Regrouped.alike {s s' : RaftState} (h : s.Regrouped s') : s.Alike s' := by
  rw [h.eq]
  exact ⟨rfl, rfl, rfl⟩

/-- Forget or enter one peer. -/
theorem regrouped_update (s : RaftState) (id : NodeId) {value : Option Nat}
    (hvalue : value.getD 0 = 0) (peers : List NodeId) (nextIndex cursor : NodeId → Option Nat) :
    s.Regrouped { s with
      peers
      nextIndex
      snapshotCursor := cursor
      matchIndex := Function.update s.matchIndex id value } := by
  refine ⟨rfl, fun p i hi => ?_⟩
  change Function.update s.matchIndex id value p = some i at hi
  by_cases hp : p = id
  · subst hp
    rw [Function.update_self] at hi
    rw [hi, Option.getD_some] at hvalue
    exact .inr hvalue
  · rw [Function.update_of_ne hp] at hi
    exact .inl hi

theorem applyConfigChange_regrouped (s : RaftState) (add remove : List NodeId) :
    s.Regrouped (s.applyConfigChange add remove) := by
  have hfold : ∀ (f : RaftState → NodeId → RaftState), (∀ s id, Regrouped s (f s id)) →
      ∀ (ids : List NodeId) (s : RaftState), s.Regrouped (ids.foldl f s) := by
    intro f hf ids
    induction ids with
    | nil => exact Regrouped.refl
    | cons id ids ih => exact fun s => (hf s id).trans (ih _)
  refine ((hfold _ (fun s id => ?_) remove s).trans (hfold _ (fun s id => ?_) add _)).trans
    ⟨rfl, fun _ _ h => .inl h⟩
  · exact s.regrouped_update id rfl _ _ _
  · split
    · exact .refl s
    · exact s.regrouped_update id rfl _ _ _

/-- Handing on raises the applied index, and changes the members where an entry says so. -/
theorem drainLoop_regrouped (n : Nat) (s : RaftState) :
    Regrouped {s with lastApplied := s.lastApplied + n} (drainLoop n s).1 ∧
      ∀ a ∈ (drainLoop n s).2, ∃ e, a = .apply e := by
  induction n generalizing s with
  | zero => exact ⟨.refl s, nofun⟩
  | succ n ih =>
    have hnext : ∀ s₁ : RaftState, Regrouped {s with lastApplied := s.lastApplied + 1} s₁ →
        Regrouped {s with lastApplied := s.lastApplied + (n + 1)} (drainLoop n s₁).1 ∧
          ∀ a ∈ (drainLoop n s₁).2, ∃ e, a = .apply e := by
      intro s₁ hs₁
      have hstart : Regrouped {s with lastApplied := s.lastApplied + (n + 1)}
          {s₁ with lastApplied := s₁.lastApplied + n} := by
        refine ⟨?_, hs₁.matched⟩
        rw [hs₁.eq]
        dsimp only
        rw [show s.lastApplied + 1 + n = s.lastApplied + (n + 1) by omega]
      exact ⟨hstart.trans (ih s₁).1, (ih s₁).2⟩
    unfold drainLoop
    dsimp only
    split
    · exact hnext _ (.refl _)
    · split
      · exact hnext _ (.refl _)
      · split
        · exact hnext _ (applyConfigChange_regrouped _ _ _)
        · obtain ⟨hregrouped, hacts⟩ := hnext _ (.refl _)
          refine ⟨hregrouped, fun a ha => ?_⟩
          rcases List.mem_cons.mp ha with rfl | ha
          · exact ⟨_, rfl⟩
          · exact hacts a ha

theorem drainApplyActions_regrouped (s : RaftState) :
    Regrouped {s with lastApplied := max s.lastApplied s.commitIndex} s.drainApplyActions.1 ∧
      ∀ a ∈ s.drainApplyActions.2, ∃ e, a = .apply e := by
  have h := drainLoop_regrouped (s.commitIndex - s.lastApplied) s
  rwa [show s.lastApplied + (s.commitIndex - s.lastApplied) = max s.lastApplied s.commitIndex by
    omega] at h

end RaftState

end EventStream.Raft
