import EventStream.Raft.Refinement

/-! What a node does with its vote, whatever its log.

Most handlers leave the term, the vote and the role alone (`Quiet`). The others move to a
later term, vote, stand or take office, and each of these keeps the node's record of its
votes (`Ballot`) and queues the hard state before any message that relies on it
(`Voted`). Nothing here depends on the entries of the log, other than that none of them
changes the membership (`Plain`). -/
namespace EventStream.Raft

/-- No entry changes the membership. -/
def Plain (es : List LogEntry) : Prop := ∀ e ∈ es, decodeConfigChange e.payload = none

theorem Plain.mono {es fs : List LogEntry} (h : Plain es) (hf : fs ⊆ es) : Plain fs :=
  fun e he => h e (hf he)

theorem Plain.append {es fs : List LogEntry} (h : Plain es) (hf : Plain fs) : Plain (es ++ fs) :=
  fun e he => (List.mem_append.mp he).elim (h e) (hf e)

namespace Log

theorem compactThrough_subset (log : Log) (cut term : Nat) :
    (log.compactThrough cut term).entries ⊆ log.entries := by
  unfold compactThrough
  split
  · exact List.Subset.refl _
  · exact List.drop_subset _ _

theorem truncateFrom_subset (log : Log) (cut : Nat) :
    (log.truncateFrom cut).entries ⊆ log.entries := by
  unfold truncateFrom
  split
  · exact List.nil_subset _
  · split
    · exact List.Subset.refl _
    · split
      · exact List.nil_subset _
      · exact List.take_subset _ _

theorem installSnapshot_subset (log : Log) (index term : Nat) :
    (log.installSnapshot index term).2.entries ⊆ log.entries := by
  unfold installSnapshot
  dsimp only
  split
  · exact compactThrough_subset log index term
  · exact List.nil_subset _

variable {log log' : Log} {es : List LogEntry} {committed : Nat}

theorem renumber_plain {out : List LogEntry} {next : Nat} (hp : Plain es)
    (h : renumber next es = some out) : Plain out := by
  intro e he
  obtain ⟨j, hj⟩ := List.mem_iff_getElem?.mp he
  rw [getElem?_renumber h] at hj
  obtain ⟨f, hf, rfl⟩ := Option.map_eq_some_iff.mp hj
  exact hp f (List.mem_of_getElem? hf)

theorem appendAt_plain {start : Nat} {r : Except Unit (Option Nat)} (hl : Plain log.entries)
    (he : Plain es) (h : log.appendAt start es committed = some (log', r)) :
    Plain log'.entries := by
  obtain ⟨k, -, happends⟩ := appendAt_appends h
  cases happends with
  | all => exact hl
  | refused => exact hl
  | @changed cut out _ _ hcut hout =>
    have hsub : cut.entries ⊆ log.entries := by
      rcases hcut with ⟨-, rfl⟩ | ⟨-, -, rfl⟩
      · exact List.Subset.refl _
      · exact truncateFrom_subset _ _
    exact (hl.mono hsub).append (renumber_plain (he.mono (List.drop_subset _ _)) hout)

theorem get_mem {index : Nat} {e : LogEntry} (h : log.get index = some e) : e ∈ log.entries := by
  unfold get at h
  split at h
  · cases h
  · split at h
    · cases h
    · exact List.mem_of_getElem? h

end Log

/-! ### Events that do not touch the vote -/

/-- The operations that write the hard state. -/
def hardOps (ops : List PersistOp) : List PersistOp := ops.filter PersistOp.isHardState

/-- The node's part in elections is unchanged, unless it gave up its role. -/
structure Quiet (s s' : RaftState) : Prop where
  me : s'.me = s.me
  peers : s'.peers = s.peers
  term : s'.currentTerm = s.currentTerm
  vote : s'.votedFor = s.votedFor
  role : s'.role = s.role ∨ s'.role = .follower
  votes : s'.role = .candidate → s'.votesReceived = s.votesReceived
  hard : hardOps s'.pending = hardOps s.pending
  plain : Plain s.log.entries → Plain s'.log.entries

variable {s s' s'' s₁ : RaftState} {acts : List Action} {t progress : Nat} {v peer dst : NodeId}
    {msg : Message} {payload : Bytes} {ae : AppendEntries}

theorem Quiet.refl (s : RaftState) : Quiet s s :=
  ⟨rfl, rfl, rfl, rfl, .inl rfl, fun _ => rfl, rfl, id⟩

theorem Quiet.trans (h : Quiet s s') (h' : Quiet s' s'') : Quiet s s'' where
  me := h'.me.trans h.me
  peers := h'.peers.trans h.peers
  term := h'.term.trans h.term
  vote := h'.vote.trans h.vote
  role := h'.role.elim (fun hr => hr ▸ h.role) .inr
  votes := fun hr => by
    rcases h'.role with hr' | hr'
    · exact (h'.votes hr).trans (h.votes (hr' ▸ hr))
    · rw [hr] at hr'
      cases hr'
  hard := h'.hard.trans h.hard
  plain := h'.plain ∘ h.plain

def Message.isVote : Message → Bool
  | .requestVote _ | .requestVoteResp _ => true
  | _ => false

def Action.isVote : Action → Bool
  | .sendTo _ msg | .broadcast msg => msg.isVote
  | _ => false

/-- None of the actions asks for a vote or gives one. -/
def Silent (acts : List Action) : Prop := ∀ act ∈ acts, act.isVote = false

theorem Silent.nil : Silent [] := fun _ h => absurd h List.not_mem_nil

theorem Silent.cons {act : Action} {acts : List Action} (h : act.isVote = false)
    (hs : Silent acts) : Silent (act :: acts) := by
  intro act' hact
  rcases List.mem_cons.mp hact with rfl | hact
  · exact h
  · exact hs act' hact

theorem Silent.append {acts acts' : List Action} (h : Silent acts) (h' : Silent acts') :
    Silent (acts ++ acts') :=
  fun act hact => (List.mem_append.mp hact).elim (h act) (h' act)

theorem hardOps_append_log {ops : List PersistOp} {op : PersistOp} (h : op.isHardState = false) :
    hardOps (ops ++ [op]) = hardOps ops := by
  simp [hardOps, h]

theorem quiet_recompute (h : s.recomputeCommitIndex = some s') : Quiet s s' := by
  obtain ⟨k, _, h⟩ := Option.bind_eq_some_iff.mp h
  split at h <;> cases h <;> exact {Quiet.refl s with me := rfl}

theorem quiet_appendLocal {k : Nat} (hp : decodeConfigChange payload = none)
    (h : s.appendLocal payload = some (s', k)) : Quiet s s' := by
  obtain ⟨next, _, h⟩ := Option.bind_eq_some_iff.mp h
  cases h
  exact {Quiet.refl s with
    hard := hardOps_append_log rfl
    plain := fun hs => hs.append fun e he => by rw [List.mem_singleton.mp he]; exact hp }

theorem quiet_drainLoop (n : Nat) (hp : Plain s.log.entries) :
    Quiet s (RaftState.drainLoop n s).1 ∧ Silent (RaftState.drainLoop n s).2 := by
  induction n generalizing s with
  | zero => exact ⟨.refl s, .nil⟩
  | succ n ih =>
    have hstep : Quiet s {s with lastApplied := s.lastApplied + 1} := {Quiet.refl s with me := rfl}
    obtain ⟨hq, hsilent⟩ := ih (s := {s with lastApplied := s.lastApplied + 1}) hp
    unfold RaftState.drainLoop
    dsimp only
    split
    · exact ⟨hstep.trans hq, hsilent⟩
    · rename_i e he
      split
      · exact ⟨hstep.trans hq, hsilent⟩
      · rw [hp e (Log.get_mem he)]
        exact ⟨hstep.trans hq, .cons rfl hsilent⟩

theorem quiet_drain (hp : Plain s.log.entries) :
    Quiet s s.drainApplyActions.1 ∧ Silent s.drainApplyActions.2 := quiet_drainLoop _ hp

theorem replicateTo_silent {act : Action} (h : s.replicateTo peer = some act) :
    act.isVote = false := by
  unfold RaftState.replicateTo at h
  split at h
  · cases h
    rfl
  · obtain ⟨msg, hmsg, rfl⟩ := Option.map_eq_some_iff.mp h
    obtain ⟨_, _, hmsg⟩ := Option.bind_eq_some_iff.mp hmsg
    cases hmsg
    rfl

theorem heartbeat_silent (h : s.onHeartbeatTick = some acts) : Silent acts := by
  unfold RaftState.onHeartbeatTick at h
  split at h
  · cases h
    exact .nil
  · exact forall_of_mapM (fun _ _ hact => replicateTo_silent hact) h

theorem quiet_acceptLeader {ldr : NodeId} (ht : t ≤ s.currentTerm) :
    Quiet s (s.acceptLeader t ldr) := by
  unfold RaftState.acceptLeader
  rw [if_neg (by omega)]
  exact {Quiet.refl s with role := .inr rfl, votes := fun h => by cases h}

theorem quiet_takeEntries {applied : Bool} (hp : Plain ae.entries)
    (h : s.takeEntries ae = some (s', applied)) : Quiet s s' := by
  unfold RaftState.takeEntries RaftState.appendFrom at h
  split at h
  · split at h
    · cases h
      exact .refl s
    · obtain ⟨r, hr, h⟩ := Option.bind_eq_some_iff.mp h
      split at h
      · cases h
        exact {Quiet.refl s with plain := fun hs => Log.appendAt_plain hs hp hr}
      · cases h
        exact {Quiet.refl s with plain := fun hs => Log.appendAt_plain hs hp hr}
      · obtain ⟨changed, _, h⟩ := Option.bind_eq_some_iff.mp h
        cases h
        exact {Quiet.refl s with
          hard := by simp [hardOps, PersistOp.isHardState]
          plain := fun hs => Log.appendAt_plain hs hp hr}
  · cases h
    exact .refl s

theorem quiet_appendEntries (hp : Plain ae.entries) (ht : ae.term ≤ s.currentTerm)
    (h : s.handleAppendEntries ae = some (s', acts)) : Quiet s s' ∧ Silent acts := by
  unfold RaftState.handleAppendEntries at h
  dsimp only at h
  split at h
  · cases h
    exact ⟨.refl s, .cons rfl .nil⟩
  · obtain ⟨⟨s₁, applied⟩, hs₁, h⟩ := Option.map_eq_some_iff.mp h
    have hq := (quiet_acceptLeader ht).trans (quiet_takeEntries hp hs₁)
    dsimp only at h
    split at h
    · cases h
      refine ⟨hq.trans ?_, .cons rfl (.cons rfl .nil)⟩
      split <;> exact {Quiet.refl s₁ with me := rfl}
    · cases h
      exact ⟨hq, .cons rfl (.cons rfl .nil)⟩

theorem quiet_setNext (s : RaftState) (peer : NodeId) (k : Nat) : Quiet s (s.setNext peer k) :=
  {Quiet.refl s with me := rfl}

theorem quiet_setMatch (s : RaftState) (peer : NodeId) (k : Nat) : Quiet s (s.setMatch peer k) :=
  {Quiet.refl s with me := rfl}

/-- A reply that ends in at most one message of replication. -/
theorem quiet_followUp {behind : Prop} [Decidable behind] (hq : Quiet s s₁) (h : (if behind then do
        let act ← s₁.replicateTo peer
        some (s₁, [act])
      else some (s₁, [])) = some (s', acts)) : Quiet s s' ∧ Silent acts := by
  split at h
  · obtain ⟨act, hact, h⟩ := Option.bind_eq_some_iff.mp h
    cases h
    exact ⟨hq, .cons (replicateTo_silent hact) .nil⟩
  · cases h
    exact ⟨hq, .nil⟩

theorem quiet_appendEntriesResp {aer : AppendEntriesResp}
    (h : s.handleAppendEntriesResp aer = some (s', acts)) : Quiet s s' ∧ Silent acts := by
  unfold RaftState.handleAppendEntriesResp at h
  split at h
  · cases h
    exact ⟨.refl s, .nil⟩
  split at h
  · obtain ⟨s₁, hs₁, h⟩ := Option.bind_eq_some_iff.mp h
    refine quiet_followUp (Quiet.trans ?_ (quiet_recompute hs₁)) h
    refine Quiet.trans ?_ (quiet_setNext _ _ _)
    split
    · exact quiet_setMatch _ _ _
    · exact .refl s
  · obtain ⟨act, hact, h⟩ := Option.bind_eq_some_iff.mp h
    cases h
    exact ⟨quiet_setNext _ _ _, .cons (replicateTo_silent hact) .nil⟩

theorem quiet_installSnapshotResp {isr : InstallSnapshotResp}
    (h : s.handleInstallSnapshotResp isr = some (s', acts)) : Quiet s s' ∧ Silent acts := by
  unfold RaftState.handleInstallSnapshotResp at h
  split at h
  · cases h
    exact ⟨.refl s, .nil⟩
  dsimp only at h
  split at h
  · cases h
    exact ⟨.refl s, .nil⟩
  split at h
  · obtain ⟨next, _, h⟩ := Option.bind_eq_some_iff.mp h
    obtain ⟨s₁, hs₁, h⟩ := Option.bind_eq_some_iff.mp h
    refine quiet_followUp (Quiet.trans ?_ (quiet_recompute hs₁)) h
    exact {Quiet.refl s with me := rfl}
  · cases h
    exact ⟨{Quiet.refl s with me := rfl}, .cons rfl .nil⟩

theorem quiet_install (s : RaftState) (is : InstallSnapshot) : Quiet s (s.install is) := by
  unfold RaftState.install
  split
  · refine {Quiet.refl s with
      hard := hardOps_append_log ?_
      plain := fun hs => hs.mono (Log.installSnapshot_subset _ _ _)}
    split <;> rfl
  · exact {Quiet.refl s with me := rfl}

theorem quiet_installSnapshot {is : InstallSnapshot} (progress : Nat)
    (ht : is.term ≤ s.currentTerm) :
    Quiet s (s.handleInstallSnapshot is progress).1 ∧
      Silent (s.handleInstallSnapshot is progress).2 := by
  unfold RaftState.handleInstallSnapshot
  dsimp only
  split
  · exact ⟨.refl s, .cons rfl .nil⟩
  · split
    · exact ⟨(quiet_acceptLeader ht).trans (quiet_install _ _), .cons rfl (.cons rfl .nil)⟩
    · exact ⟨quiet_acceptLeader ht, .cons rfl (.cons rfl .nil)⟩

theorem quiet_takeSnapshot {data : Bytes} {through : Option Nat} {snap : PersistedSnapshot}
    (h : s.takeSnapshot data through = .ok (s', snap)) : Quiet s s' := by
  unfold RaftState.takeSnapshot at h
  dsimp only at h
  split at h
  · cases h
  split at h
  · cases h
  · cases h
    exact {Quiet.refl s with
      hard := hardOps_append_log rfl
      plain := fun hs => hs.mono (Log.compactThrough_subset _ _ _)}

theorem quiet_propose {outcome : ProposeOutcome} (hs : Plain s.log.entries)
    (hp : decodeConfigChange payload = none) (h : s.tryPropose payload = some (s', outcome, acts)) :
    Quiet s s' ∧ Silent acts := by
  unfold RaftState.tryPropose at h
  split at h
  · cases h
    exact ⟨.refl s, .nil⟩
  · obtain ⟨⟨s₁, k⟩, hs₁, h⟩ := Option.bind_eq_some_iff.mp h
    obtain ⟨s₂, hs₂, h⟩ := Option.bind_eq_some_iff.mp h
    cases h
    have hq := (quiet_appendLocal hp hs₁).trans (quiet_recompute hs₂)
    obtain ⟨hdrain, hsilent⟩ := quiet_drain (hq.plain hs)
    exact ⟨hq.trans hdrain, hsilent⟩

/-! ### The record of votes -/

/-- Whom each node voted for, by term. -/
abbrev Votes := NodeId → Nat → Option NodeId

/-- A hard state of node `i` that agrees with the record. The last term is only ever
reached by standing for election. -/
structure Recorded (votes : Votes) (i : NodeId) (term : Nat) (vote : Option NodeId) : Prop where
  current : vote = votes i term
  past : ∀ t, votes i t ≠ none → t ≤ term
  bound : term ≤ u64Max
  top : term = u64Max → votes i u64Max = some i

structure Ballot (c : Cluster) (votes : Votes) (i : NodeId) (s : RaftState) : Prop where
  me : s.me = i
  peers : s.peers = c.peers i
  recorded : Recorded votes i s.currentTerm s.votedFor
  candidate : s.role = .candidate → s.votesReceived.Nodup ∧
    ∀ v ∈ s.votesReceived, v ∈ c.members ∧ votes v s.currentTerm = some i
  leader : s.role = .leader →
    ∃ Q, c.quorums.IsQuorum Q ∧ ∀ v ∈ Q, votes v s.currentTerm = some i
  plain : Plain s.log.entries

/-- `votes'` adds votes of node `i` to `votes`. -/
structure Adds (i : NodeId) (votes votes' : Votes) : Prop where
  keeps : ∀ t v, votes i t = some v → votes' i t = some v
  others : ∀ j, j ≠ i → votes' j = votes j

theorem Adds.refl (i : NodeId) (votes : Votes) : Adds i votes votes :=
  ⟨fun _ _ h => h, fun _ _ => rfl⟩

theorem Adds.mono {j : NodeId} (h : Adds i votes votes') (hv : votes j t = some v) :
    votes' j t = some v := by
  by_cases hj : j = i
  · subst hj
    exact h.keeps t v hv
  · rw [h.others j hj]
    exact hv

/-- A message about a vote says what the record says. -/
def VoteOk (c : Cluster) (votes : Votes) (dst : NodeId) : Message → Prop
  | .requestVote rv => votes rv.candidateId rv.term = some rv.candidateId
  | .requestVoteResp rvr => rvr.voteGranted = true →
      rvr.voterId ∈ c.members ∧ votes rvr.voterId rvr.term = some dst
  | _ => True

def ActionVoteOk (c : Cluster) (votes : Votes) : Action → Prop
  | .sendTo peer msg => VoteOk c votes peer msg
  | .broadcast msg => ∀ p, VoteOk c votes p msg
  | _ => True

variable {c : Cluster} {votes votes' : Votes} {i : NodeId}

theorem VoteOk.mono (h : VoteOk c votes dst msg) (ha : Adds i votes votes') :
    VoteOk c votes' dst msg := by
  cases msg with
  | requestVote rv => exact ha.mono h
  | requestVoteResp rvr => exact fun hg => ⟨(h hg).1, ha.mono (h hg).2⟩
  | appendEntries | appendEntriesResp | installSnapshot | installSnapshotResp => trivial

theorem VoteOk.of_silent (h : msg.isVote = false) : VoteOk c votes dst msg := by
  cases msg with
  | requestVote | requestVoteResp => cases h
  | appendEntries | appendEntriesResp | installSnapshot | installSnapshotResp => trivial

theorem Silent.voteOk (h : Silent acts) : ∀ act ∈ acts, ActionVoteOk c votes act := by
  intro act hact
  have := h act hact
  cases act with
  | sendTo peer msg => exact .of_silent this
  | broadcast msg => exact fun p => .of_silent this
  | resetElectionTimer | apply | sendSnapshot => trivial

/-- A node has handled an event: the record has its new vote, if any, and the hard state is
queued if it changed. -/
structure Voted (c : Cluster) (votes votes' : Votes) (i : NodeId) (s s' : RaftState)
    (acts : List Action) : Prop where
  adds : Adds i votes votes'
  ballot : Ballot c votes' i s'
  hard : hardOps s'.pending = [.hardState s'.currentTerm s'.votedFor] ∨
    hardOps s'.pending = hardOps s.pending ∧ s'.currentTerm = s.currentTerm ∧
      s'.votedFor = s.votedFor
  acts : ∀ act ∈ acts, ActionVoteOk c votes' act

theorem Ballot.quiet (h : Ballot c votes i s) (hq : Quiet s s') : Ballot c votes i s' where
  me := hq.me.trans h.me
  peers := hq.peers.trans h.peers
  recorded := by
    rw [hq.term, hq.vote]
    exact h.recorded
  candidate := fun hr => by
    rw [hq.votes hr, hq.term]
    exact h.candidate ((hq.role.resolve_right (by rw [hr]; nofun)) ▸ hr)
  leader := fun hr => by
    rw [hq.term]
    exact h.leader ((hq.role.resolve_right (by rw [hr]; nofun)) ▸ hr)
  plain := hq.plain h.plain

/-- A quiet end to an event. -/
theorem Voted.quiet {acts' : List Action} (h : Voted c votes votes' i s s' acts) (hq : Quiet s' s'')
    (hs : Silent acts') : Voted c votes votes' i s s'' (acts ++ acts') where
  adds := h.adds
  ballot := h.ballot.quiet hq
  hard := by
    rw [hq.hard, hq.term, hq.vote]
    exact h.hard
  acts := fun act hact => (List.mem_append.mp hact).elim (h.acts act) (hs.voteOk act)

theorem Ballot.voted (h : Ballot c votes i s) : Voted c votes votes i s s [] :=
  ⟨.refl i votes, h, .inr ⟨rfl, rfl, rfl⟩, fun _ hact => absurd hact List.not_mem_nil⟩

theorem hardOps_persistHardState (s : RaftState) :
    hardOps s.persistHardState.pending = [.hardState s.currentTerm s.votedFor] := by
  simp [hardOps, RaftState.persistHardState, PersistOp.isHardState]

/-! ### Changes of term and vote -/

/-- A vote in a term in which the node has not voted. -/
def cast (votes : Votes) (i : NodeId) (t : Nat) (v : NodeId) : Votes :=
  fun j u => if j = i ∧ u = t then some v else votes j u

theorem cast_self (votes : Votes) (i : NodeId) (t : Nat) (v : NodeId) :
    cast votes i t v i t = some v := if_pos ⟨rfl, rfl⟩

theorem cast_adds (h : votes i t = none) : Adds i votes (cast votes i t v) := by
  refine ⟨fun u x hx => ?_, fun j hj => ?_⟩
  · unfold cast
    rw [if_neg]
    · exact hx
    · rintro ⟨_, rfl⟩
      rw [h] at hx
      cases hx
  · funext u
    exact if_neg fun hc => hj hc.1

theorem Recorded.cast {term : Nat} {vote : Option NodeId} (h : Recorded votes i term vote)
    (hle : term ≤ t) (hmax : t ≤ u64Max) (htop : t = u64Max → v = i) :
    Recorded (cast votes i t v) i t (some v) where
  current := (cast_self votes i t v).symm
  past := fun u hu => by
    by_cases hut : u = t
    · exact hut.le
    · refine (h.past u fun hn => hu ?_).trans hle
      rw [Raft.cast, if_neg (fun hc => hut hc.2), hn]
  bound := hmax
  top := fun ht => by
    rw [← ht, cast_self, htop ht]

theorem Ballot.stepDown (h : Ballot c votes i s) (ht : s.currentTerm < t) (hmax : t < u64Max) :
    Voted c votes votes i s (s.stepDownTo t) [] := by
  have hfresh : votes i t = none := by
    by_contra hv
    exact absurd (h.recorded.past t hv) (by omega)
  have hdown : s.stepDownTo t = RaftState.persistHardState
      { s with
        currentTerm := t, votedFor := none, role := .follower, votesReceived := []
        leaderHint := none, matchIndex := fun _ => none, nextIndex := fun _ => none
        snapshotCursor := fun _ => none } := by
    unfold RaftState.stepDownTo
    simp only [decide_eq_true ht, Bool.true_or, if_true, Nat.max_eq_right (Nat.le_of_lt ht)]
    rfl
  rw [hdown]
  refine ⟨.refl i votes, ?_, .inl (hardOps_persistHardState _),
    fun _ hact => absurd hact List.not_mem_nil⟩
  exact
    { me := h.me
      peers := h.peers
      recorded :=
        { current := hfresh.symm
          past := fun u hu => (h.recorded.past u hu).trans (Nat.le_of_lt ht)
          bound := Nat.le_of_lt hmax
          top := fun htop => absurd htop (Nat.ne_of_lt hmax) }
      candidate := fun hr => by cases hr
      leader := fun hr => by cases hr
      plain := h.plain }

theorem Ballot.requestVote (hi : i ∈ c.members) (h : Ballot c votes i s) {rv : RequestVote}
    (hle : rv.term ≤ s.currentTerm) (hmax : rv.term < u64Max) :
    ∃ votes', Voted c votes votes' i s (s.handleRequestVote rv).1 (s.handleRequestVote rv).2 := by
  unfold RaftState.handleRequestVote
  dsimp only
  generalize hgrant : decide (s.currentTerm ≤ rv.term ∧
    (s.log.lastTerm < rv.lastLogTerm ∨
      rv.lastLogTerm = s.log.lastTerm ∧ s.log.lastIndex ≤ rv.lastLogIndex) ∧
    (s.votedFor = none ∨ s.votedFor = some rv.candidateId)) = grant
  cases grant with
  | false =>
    refine ⟨votes, .refl i votes, ?_, .inr ⟨rfl, rfl, rfl⟩, ?_⟩
    · exact h
    · exact List.forall_mem_singleton.mpr fun hg => absurd hg Bool.false_ne_true
  | true =>
    obtain ⟨hge, _, hcan⟩ := of_decide_eq_true hgrant
    have hcur : s.currentTerm < u64Max := by omega
    by_cases hv : s.votedFor = some rv.candidateId
    · rw [if_neg (fun hc => hc.2 hv)]
      refine ⟨votes, .refl i votes, h, .inr ⟨rfl, rfl, rfl⟩, ?_⟩
      refine List.forall_mem_cons.mpr ⟨fun _ => ⟨h.me ▸ hi, ?_⟩, ?_⟩
      · show votes s.me s.currentTerm = some rv.candidateId
        rw [h.me, ← h.recorded.current, hv]
      · exact List.forall_mem_singleton.mpr trivial
    · have hnone : votes i s.currentTerm = none := by
        rw [← h.recorded.current]
        exact hcan.resolve_right hv
      have hadds := cast_adds (v := rv.candidateId) hnone
      rw [if_pos ⟨rfl, hv⟩]
      refine ⟨cast votes i s.currentTerm rv.candidateId, hadds, ?_,
        .inl (hardOps_persistHardState _), ?_⟩
      · exact
          { me := h.me
            peers := h.peers
            recorded := h.recorded.cast (Nat.le_refl _) (Nat.le_of_lt hcur)
              fun htop => absurd htop (Nat.ne_of_lt hcur)
            candidate := fun hr => ⟨(h.candidate hr).1, fun v hv =>
              ⟨((h.candidate hr).2 v hv).1, hadds.mono ((h.candidate hr).2 v hv).2⟩⟩
            leader := fun hr => by
              obtain ⟨Q, hQ, hvotes⟩ := h.leader hr
              exact ⟨Q, hQ, fun v hv => hadds.mono (hvotes v hv)⟩
            plain := h.plain }
      · refine List.forall_mem_cons.mpr ⟨fun _ => ⟨h.me ▸ hi, ?_⟩, ?_⟩
        · show cast votes i s.currentTerm rv.candidateId s.me s.currentTerm = _
          rw [h.me]
          exact cast_self ..
        · exact List.forall_mem_singleton.mpr trivial

theorem quiet_becomeLeader (h : s.becomeLeader = some s') :
    Quiet s.takeLead s' ∧ s'.role = .leader := by
  obtain ⟨s₁, hs₁, h⟩ := Option.bind_eq_some_iff.mp h
  obtain ⟨s₂, hs₂, h⟩ := Option.bind_eq_some_iff.mp h
  have h₁ : Quiet s.takeLead s₁ ∧ s₁.role = .leader := by
    unfold RaftState.electNoop at hs₁
    split at hs₁
    · obtain ⟨⟨s₁, k⟩, happ, rfl⟩ := Option.map_eq_some_iff.mp hs₁
      refine ⟨quiet_appendLocal (by decide) happ, ?_⟩
      obtain ⟨_, _, happ⟩ := Option.bind_eq_some_iff.mp happ
      cases happ
      rfl
    · cases hs₁
      exact ⟨.refl _, rfl⟩
  have h₂ : Quiet s₁ s₂ ∧ s₂.role = .leader := by
    unfold RaftState.trackPeers at hs₂
    split at hs₂
    · cases hs₂
      exact ⟨{Quiet.refl s₁ with votes := fun hr => by cases h₁.2.symm.trans hr}, h₁.2⟩
    · obtain ⟨next, _, rfl⟩ := Option.map_eq_some_iff.mp hs₂
      exact ⟨{Quiet.refl s₁ with votes := fun hr => by cases h₁.2.symm.trans hr}, h₁.2⟩
  have h₃ := quiet_recompute h
  refine ⟨(h₁.1.trans h₂.1).trans h₃, ?_⟩
  obtain ⟨k, _, h⟩ := Option.bind_eq_some_iff.mp h
  split at h <;> cases h <;> exact h₂.2

/-- A candidate takes office with the votes of a majority. -/
theorem Ballot.takeLead (h : Ballot c votes i s) {Q : Finset NodeId} (hQ : c.quorums.IsQuorum Q)
    (hv : ∀ v ∈ Q, votes v s.currentTerm = some i) : Ballot c votes i s.takeLead :=
  { me := h.me
    peers := h.peers
    recorded := h.recorded
    candidate := fun hr => by cases hr
    leader := fun _ => ⟨Q, hQ, hv⟩
    plain := h.plain }

section
variable (hi : i ∈ c.members)
include hi

theorem Ballot.requestVoteResp (h : Ballot c votes i s) {rvr : RequestVoteResp}
    (hp : VoteOk c votes i (.requestVoteResp rvr))
    (he : s.handleRequestVoteResp rvr = some (s', acts)) : Voted c votes votes i s s' acts := by
  unfold RaftState.handleRequestVoteResp at he
  split at he
  · cases he
    exact h.voted
  rename_i hcond
  rw [not_or, not_not, not_not] at hcond
  obtain ⟨hr, ht⟩ := hcond
  split at he
  · rename_i hgrant
    obtain ⟨hmem, hvote⟩ := hp hgrant
    obtain ⟨hnodup, hvotes⟩ := h.candidate hr
    have hall : ∀ v ∈ s.votesReceived.insert rvr.voterId,
        v ∈ c.members ∧ votes v s.currentTerm = some i := by
      intro v hv
      rcases List.mem_insert_iff.mp hv with rfl | hv
      · exact ⟨hmem, ht ▸ hvote⟩
      · exact hvotes v hv
    have h₁ : Ballot c votes i {s with votesReceived := s.votesReceived.insert rvr.voterId} :=
      {h with candidate := fun _ => ⟨hnodup.insert, hall⟩}
    dsimp only at he
    split at he
    · rename_i hq
      obtain ⟨s₂, hs₂, he⟩ := Option.bind_eq_some_iff.mp he
      obtain ⟨out, hout, he⟩ := Option.bind_eq_some_iff.mp he
      cases he
      have hlen : c.members.card < 2 * (s.votesReceived.insert rvr.voterId).length := by
        have hq : (s.peers.length + 1) / 2 + 1 ≤ (s.votesReceived.insert rvr.voterId).length := hq
        rw [c.card_members hi, ← h.peers]
        omega
      have hQ := Consensus.majority_of_list (hnodup.insert (a := rvr.voterId))
        (fun v hv => (hall v hv).1) hlen
      have hlead := h₁.takeLead hQ fun v hv => (hall v (List.mem_toFinset.mp hv)).2
      have h₂ : Voted c votes votes i s
          (RaftState.takeLead {s with votesReceived := s.votesReceived.insert rvr.voterId}) [] :=
        ⟨.refl i votes, hlead, .inr ⟨rfl, rfl, rfl⟩, fun _ hact => absurd hact List.not_mem_nil⟩
      exact h₂.quiet (quiet_becomeLeader hs₂).1 (heartbeat_silent hout)
    · cases he
      exact ⟨.refl i votes, h₁, .inr ⟨rfl, rfl, rfl⟩, fun _ hact => absurd hact List.not_mem_nil⟩
  · cases he
    exact h.voted

/-- Standing is a vote for oneself. At the last term the node has its own vote already. -/
theorem Ballot.stand (h : Ballot c votes i s) :
    ∃ votes', Adds i votes votes' ∧ votes' i s.stand.currentTerm = some i ∧
      Ballot c votes' i s.stand := by
  have hbound := h.recorded.bound
  have hcur : s.stand.currentTerm = min (s.currentTerm + 1) u64Max := rfl
  have hmine {votes' : Votes} (hrec : Recorded votes' i s.stand.currentTerm (some i)) :
      Ballot c votes' i s.stand :=
    { me := h.me
      peers := h.peers
      recorded := by
        have hv : s.stand.votedFor = some i := congrArg some h.me
        rw [hv]
        exact hrec
      candidate := fun _ => ⟨List.nodup_singleton _, fun v hv => by
        rw [List.mem_singleton.mp hv, h.me]
        exact ⟨hi, hrec.current.symm⟩⟩
      leader := fun hr => by cases hr
      plain := h.plain }
  by_cases hmax : s.currentTerm = u64Max
  · have hterm : s.stand.currentTerm = u64Max := by omega
    have htop := h.recorded.top hmax
    refine ⟨votes, .refl i votes, by rw [hterm, htop], hmine ?_⟩
    rw [hterm]
    exact ⟨htop.symm, fun t ht => hmax ▸ h.recorded.past t ht, Nat.le_refl _, fun _ => htop⟩
  · have hnone : votes i s.stand.currentTerm = none := by
      by_contra hv
      have := h.recorded.past _ hv
      omega
    exact ⟨cast votes i s.stand.currentTerm i, cast_adds hnone, cast_self ..,
      hmine (h.recorded.cast (by omega) (by omega) fun _ => rfl)⟩

theorem Ballot.startElection (h : Ballot c votes i s) (he : s.startElection = some (s', acts)) :
    ∃ votes', Voted c votes votes' i s s' acts := by
  obtain ⟨votes', hadds, hself, hstand⟩ := h.stand hi
  have hhard : hardOps s.stand.pending = [.hardState s.stand.currentTerm s.stand.votedFor] :=
    hardOps_persistHardState _
  refine ⟨votes', ?_⟩
  unfold RaftState.startElection at he
  dsimp only at he
  split at he
  · rename_i hp
    obtain ⟨s₂, hs₂, he⟩ := Option.bind_eq_some_iff.mp he
    obtain ⟨out, hout, he⟩ := Option.bind_eq_some_iff.mp he
    cases he
    have hpeers : c.peers i = [] := hstand.peers ▸ List.isEmpty_iff.mp hp
    have hQ : c.quorums.IsQuorum [i].toFinset :=
      Consensus.majority_of_list (List.nodup_singleton i)
        (fun v hv => List.mem_singleton.mp hv ▸ hi)
        (by rw [c.card_members hi, hpeers, List.length_nil, List.length_singleton]; decide)
    have hlead := hstand.takeLead hQ fun v hv => by
      rw [List.mem_singleton.mp (List.mem_toFinset.mp hv), hself]
    have h₀ : Voted c votes votes' i s s.stand.takeLead [] :=
      ⟨hadds, hlead, .inl hhard, fun _ hact => absurd hact List.not_mem_nil⟩
    have h₁ := h₀.quiet (quiet_becomeLeader hs₂).1 (heartbeat_silent hout)
    obtain ⟨hdrain, hsilent⟩ := quiet_drain h₁.ballot.plain
    exact h₁.quiet hdrain hsilent
  · cases he
    refine ⟨hadds, hstand, .inl hhard, ?_⟩
    refine List.forall_mem_cons.mpr ⟨trivial, List.forall_mem_singleton.mpr fun p => ?_⟩
    show votes' s.stand.me s.stand.currentTerm = some s.stand.me
    rw [hstand.me]
    exact hself

end

/-! ### Events -/

theorem Voted.trans {votes₁ votes₂ : Votes} {s₂ : RaftState} (h : Voted c votes votes₁ i s s₁ [])
    (h' : Voted c votes₁ votes₂ i s₁ s₂ acts) : Voted c votes votes₂ i s s₂ acts where
  adds := ⟨fun t v hv => h'.adds.keeps t v (h.adds.keeps t v hv),
    fun j hj => (h'.adds.others j hj).trans (h.adds.others j hj)⟩
  ballot := h'.ballot
  hard := by
    rcases h'.hard with hnew | ⟨hops, hterm, hvote⟩
    · exact .inl hnew
    · rw [hops, hterm, hvote]
      exact h.hard
  acts := h'.acts

/-- Messages about votes come from the network; of the others only the entries matter. -/
def Allowed (c : Cluster) (votes : Votes) (i : NodeId) : Message → Prop
  | .appendEntries ae => Plain ae.entries
  | msg => VoteOk c votes i msg

theorem Ballot.dispatch (hi : i ∈ c.members) (h : Ballot c votes i s) (hp : Allowed c votes i msg)
    (hle : msg.term ≤ s.currentTerm) (hmax : msg.term < u64Max)
    (he : s.dispatch progress msg = some (s', acts)) :
    ∃ votes', Voted c votes votes' i s s' acts := by
  have hquiet (hq : Quiet s s' ∧ Silent acts) : ∃ votes', Voted c votes votes' i s s' acts :=
    ⟨votes, h.voted.quiet hq.1 hq.2⟩
  cases msg with
  | requestVote rv =>
    cases he
    exact h.requestVote hi hle hmax
  | requestVoteResp rvr => exact ⟨votes, h.requestVoteResp hi hp he⟩
  | appendEntries ae => exact hquiet (quiet_appendEntries hp hle he)
  | appendEntriesResp aer => exact hquiet (quiet_appendEntriesResp he)
  | installSnapshot is =>
    have he : s.handleInstallSnapshot is progress = (s', acts) := Option.some.inj he
    refine hquiet ?_
    have hq := quiet_installSnapshot progress hle
    rw [he] at hq
    exact hq
  | installSnapshotResp isr => exact hquiet (quiet_installSnapshotResp he)

theorem Ballot.message (hi : i ∈ c.members) (h : Ballot c votes i s) (hp : Allowed c votes i msg)
    (he : s.onMessageWithProgress msg progress = some (s', acts)) :
    ∃ votes', Voted c votes votes' i s s' acts := by
  unfold RaftState.onMessageWithProgress at he
  split at he
  · cases he
    exact ⟨votes, h.voted⟩
  rename_i hign
  have hmax : msg.term < u64Max := by
    simp only [RaftState.ignores, Bool.or_eq_true, decide_eq_true_eq, beq_iff_eq, not_or] at hign
    have : satAdd s.currentTerm maxTermJump ≤ u64Max := Nat.min_le_right _ _
    omega
  dsimp only at he
  obtain ⟨⟨s₂, out⟩, hdisp, he⟩ := Option.bind_eq_some_iff.mp he
  cases he
  obtain ⟨s₁, hs₁, h₁, hle⟩ : ∃ s₁, (if decide (s.currentTerm < msg.term) = true then
      s.stepDownTo msg.term else s) = s₁ ∧ Voted c votes votes i s s₁ [] ∧
        msg.term ≤ s₁.currentTerm := by
    by_cases ht : s.currentTerm < msg.term
    · refine ⟨_, if_pos (decide_eq_true ht), h.stepDown ht hmax, ?_⟩
      unfold RaftState.stepDownTo
      dsimp only
      split <;> exact Nat.le_max_right _ _
    · exact ⟨_, if_neg (by simpa using ht), h.voted, Nat.le_of_not_lt ht⟩
  rw [hs₁] at hdisp
  obtain ⟨votes', h₂⟩ := h₁.ballot.dispatch hi hp hle hmax hdisp
  have h₃ := h₁.trans h₂
  obtain ⟨hdrain, hsilent⟩ := quiet_drain h₃.ballot.plain
  have h₄ := h₃.quiet hdrain hsilent
  refine ⟨votes', {h₄ with acts := fun act hact => ?_}⟩
  split at hact
  · rcases List.mem_cons.mp hact with rfl | hact
    · trivial
    · exact h₄.acts act hact
  · exact h₄.acts act hact

end EventStream.Raft
