import EventStream.Consensus.Agreement
import EventStream.Consensus.Majority
import EventStream.Raft.Cluster
import EventStream.Raft.LogProofs

/-! What a cluster's state means in the protocol.

A node stands for a place in the protocol: its log, with the entries behind its
snapshot, is the protocol's log, and what it remembers of votes, acknowledgements and
commitment is true there (`Sound`). A disk stands for a place to restart from
(`DiskOk`), and a message for something that was once true and still is (`PacketOk`).
All three survive steps of other nodes (`Sound.frame`, `DiskOk.frame`,
`PacketOk.mono`). -/
namespace EventStream.Raft
open Consensus (Extends Frame Steps)

/-- The protocol the cluster implements, over log entries. -/
abbrev Proto := Consensus.State NodeId LogEntry

def Cluster.quorums (c : Cluster) : Consensus.Quorums NodeId := Consensus.majority c.members

variable {folded : List LogEntry} {s : RaftState} {t : Nat} {j : NodeId}

theorem Cluster.card_members (c : Cluster) (hi : i ∈ c.members) :
    c.members.card = (c.peers i).length + 1 := by
  have hnot : i ∉ c.peers i := fun h => ((c.mem_peers i hi i).mp h).2 rfl
  have hset : c.members = insert i (c.peers i).toFinset := by
    ext p
    rw [Finset.mem_insert, List.mem_toFinset, c.mem_peers i hi]
    refine ⟨fun hp => ?_, ?_⟩
    · by_cases h : p = i
      · exact .inl h
      · exact .inr ⟨hp, h⟩
    · rintro (rfl | ⟨hp, _⟩)
      · exact hi
      · exact hp
  rw [hset, Finset.card_insert_of_notMem (by rwa [List.mem_toFinset]),
    List.toFinset_card_of_nodup (c.peers_nodup i hi)]

abbrev Cluster.Settled (c : Cluster) (a : Proto) (b : Nat) (x : List LogEntry) : Prop :=
  Consensus.Settled LogEntry.term c.quorums a b x

abbrev Cluster.Moves (c : Cluster) (i : NodeId) (a a' : Proto) : Prop :=
  Steps LogEntry.term c.quorums i a a'

/-- The protocol state is one a cluster can be in: the protocol's invariant holds, and
leaders number their entries and propose no membership change. -/
structure Sane (c : Cluster) (a : Proto) : Prop where
  inv : Consensus.Inv LogEntry.term c.quorums a
  entry : ∀ t k e, (a.lead t)[k]? = some e →
    e.index = k + 1 ∧ decodeConfigChange e.payload = none
  small : ∀ t, (a.lead t).length < u64Max

variable {c : Cluster} {a a' : Proto} {i : NodeId}

/-- An anchored log is a leader's up to its last entry, so it is numbered too. -/
theorem Sane.anchored (hs : Sane c a) {l : List LogEntry}
    (hl : Consensus.Anchored LogEntry.term a l) :
    l.length < u64Max ∧ ∀ k e, l[k]? = some e →
      e.index = k + 1 ∧ decodeConfigChange e.payload = none := by
  refine ⟨?_, fun k e he => ?_⟩
  · rcases List.eq_nil_or_concat l with rfl | ⟨x, e, rfl⟩
    · decide
    · rw [List.concat_eq_append] at *
      exact hl.whole.2.length_le.trans_lt (hs.small _)
  · have hpre : l.take k ++ [e] <+: l := by
      have := List.take_prefix (k + 1) l
      rwa [List.take_add_one, he] at this
    refine hs.entry e.term k e (getElem?_of_isPrefix (hl _ e hpre).2 ?_)
    have hlen : (l.take k).length = k := by
      have := (List.getElem?_eq_some_iff.mp he).1
      rw [List.length_take]
      omega
    rw [List.getElem?_append_right (by omega), hlen, Nat.sub_self]
    rfl

theorem Sane.move (hs : Sane c a) (h : Consensus.Step LogEntry.term c.quorums i a a')
    (hlead : ∀ t, a'.lead t = a.lead t) : Sane c a' where
  inv := Consensus.inv_of_step hs.inv h
  entry := fun t => hlead t ▸ hs.entry t
  small := fun t => hlead t ▸ hs.small t

theorem Sane.log (hs : Sane c a) (i : NodeId) :
    (a.log i).length < u64Max ∧ ∀ k e, (a.log i)[k]? = some e →
      e.index = k + 1 ∧ decodeConfigChange e.payload = none :=
  hs.anchored (hs.inv.log_log i).1

/-! ### Nodes -/

/-- What is true of a node at any time, with or without its memory. -/
structure Standing (c : Cluster) (a : Proto) (i : NodeId) (folded : List LogEntry) : Prop where
  bound : a.term i ≤ u64Max
  settled : c.Settled a (a.term i) folded
  /-- The last term is only ever reached by standing for election. -/
  top : a.term i = u64Max → ∃ m, a.vote i u64Max = some (i, m)
  /-- A node alone in its cluster leads every term it reaches. -/
  alone : c.peers i = [] → a.term i = 0 ∨ ∃ l, a.leader (a.term i) = some (i, l)

/-- Node `i` stands for election in term `t` and has the votes of `votes`. -/
structure Candidacy (c : Cluster) (a : Proto) (i : NodeId) (t : Nat) (votes : List NodeId) :
    Prop where
  stood : a.stood i t = some (a.log i)
  fresh : ∀ l, a.leader t ≠ some (i, l)
  nodup : votes.Nodup
  votes : ∀ v ∈ votes, v ∈ c.members ∧ ∃ m, a.vote v t = some (i, m)

/-- Node `i` leads term `t`, and has these ideas of what to send and of what arrived. -/
structure Leading (a : Proto) (i : NodeId) (t : Nat) (next matched : NodeId → Option Nat) :
    Prop where
  elected : ∃ l, a.leader t = some (i, l)
  own : (a.log i).length ≤ a.acked i t
  next : ∀ p k, next p = some k → 0 < k ∧ k ≤ (a.log i).length + 1
  matched : ∀ p k, matched p = some k → k ≤ a.acked p t

/-- The node's state `s`, with the entries `folded` behind its snapshot, stands for node
`i` of the protocol state. -/
structure Sound (c : Cluster) (a : Proto) (i : NodeId) (folded : List LogEntry)
    (s : RaftState) : Prop where
  me : s.me = i
  peers : s.peers = c.peers i
  log : s.log.Holds folded (a.log i)
  term : a.term i = s.currentTerm
  vote : s.votedFor = (a.vote i s.currentTerm).map Prod.fst
  base_applied : s.log.baseIndex ≤ s.lastApplied
  applied_commit : s.lastApplied ≤ s.commitIndex
  commit_length : s.commitIndex ≤ (a.log i).length
  committed : c.Settled a s.currentTerm ((a.log i).take s.commitIndex)
  standing : Standing c a i folded
  candidate : s.role = .candidate → s.currentTerm < u64Max →
    Candidacy c a i s.currentTerm s.votesReceived
  leader : s.role = .leader → Leading a i s.currentTerm s.nextIndex s.matchIndex

theorem Standing.mono (h : Standing c a i folded) (he : Extends a a') (ht : a'.term i = a.term i) :
    Standing c a' i folded := by
  refine ⟨ht ▸ h.bound, ?_, fun htop => ?_, fun halone => ?_⟩
  · rw [ht]
    exact h.settled.mono he (Nat.le_refl _)
  · obtain ⟨m, hm⟩ := h.top (ht ▸ htop)
    exact ⟨m, he.vote _ _ _ hm⟩
  · rw [ht]
    exact (h.alone halone).imp id fun ⟨l, hl⟩ => ⟨l, he.leader _ _ hl⟩

theorem Candidacy.mono {votes : List NodeId} (h : Candidacy c a i t votes) (he : Extends a a')
    (hlog : a'.log i = a.log i)
    (hlead : ∀ l, a'.leader t = some (i, l) → a.leader t = some (i, l)) :
    Candidacy c a' i t votes := by
  refine ⟨hlog ▸ he.stood _ _ _ h.stood, fun l hl => h.fresh l (hlead l hl), h.nodup,
    fun v hv => ?_⟩
  obtain ⟨hmem, m, hm⟩ := h.votes v hv
  exact ⟨hmem, m, he.vote _ _ _ hm⟩

theorem Leading.mono {next matched : NodeId → Option Nat} (h : Leading a i t next matched)
    (he : Extends a a') (hlog : a'.log i = a.log i) : Leading a' i t next matched := by
  obtain ⟨l, hl⟩ := h.elected
  exact ⟨⟨l, he.leader _ _ hl⟩, hlog ▸ h.own.trans (he.acked _ _), hlog ▸ h.next,
    fun p k hk => (h.matched p k hk).trans (he.acked _ _)⟩

/-- A later state in which the node has the same term, log and vote, and was not made a
leader. -/
theorem Sound.mono (h : Sound c a i folded s) (he : Extends a a') (ht : a'.term i = a.term i)
    (hlog : a'.log i = a.log i) (hv : a'.vote i = a.vote i)
    (hlead : ∀ l, a'.leader s.currentTerm = some (i, l) → a.leader s.currentTerm = some (i, l)) :
    Sound c a' i folded s where
  me := h.me
  peers := h.peers
  log := hlog ▸ h.log
  term := ht.trans h.term
  vote := by rw [hv]; exact h.vote
  base_applied := h.base_applied
  applied_commit := h.applied_commit
  commit_length := hlog ▸ h.commit_length
  committed := by rw [hlog]; exact h.committed.mono he (Nat.le_refl _)
  standing := h.standing.mono he ht
  candidate := fun hr hlt => (h.candidate hr hlt).mono he hlog hlead
  leader := fun hr => (h.leader hr).mono he hlog

theorem Sound.frame (h : Sound c a i folded s) (he : Extends a a') (hf : Frame j a a')
    (hij : i ≠ j) : Sound c a' i folded s :=
  h.mono he (hf.term i hij) (hf.log i hij) (hf.vote i hij) fun l hl => hf.leader _ i l hij hl

/-! ### Disks -/

/-- The stored entries are numbered without a gap, and those the snapshot does not cover
continue it to `l`. -/
def Stored (folded l stored : List LogEntry) : Prop :=
  ∃ j, j ≤ folded.length ∧ (∀ k e, stored[k]? = some e → e.index = j + k + 1) ∧
    l = folded ++ stored.drop (folded.length - j)

/-- A store from which node `i` restarts where the protocol has it. -/
structure DiskOk (c : Cluster) (a : Proto) (i : NodeId) (folded : List LogEntry)
    (d : PersistedRaft) : Prop where
  term : d.currentTerm = a.term i
  vote : d.votedFor = (a.vote i (a.term i)).map Prod.fst
  log : Stored folded (a.log i) d.log
  standing : Standing c a i folded

theorem DiskOk.frame {d : PersistedRaft} (h : DiskOk c a i folded d) (he : Extends a a')
    (hf : Frame j a a') (hij : i ≠ j) : DiskOk c a' i folded d where
  term := h.term.trans (hf.term i hij).symm
  vote := by rw [hf.term i hij, hf.vote i hij]; exact h.vote
  log := (hf.log i hij).symm ▸ h.log
  standing := h.standing.mono he (hf.term i hij)

/-- The store the state would be written to. -/
def RaftState.snapshotPersistent (s : RaftState) : PersistedRaft :=
  { currentTerm := s.currentTerm, votedFor := s.votedFor, log := s.log.entries }

theorem Sound.disk (h : Sound c a i folded s) : DiskOk c a i folded s.snapshotPersistent where
  term := h.term.symm
  vote := by rw [h.term]; exact h.vote
  log := by
    refine ⟨folded.length, Nat.le_refl _, fun k e he => ?_, ?_⟩
    · have he' : s.log.entries[k]? = some e := he
      rw [h.log.entry, h.log.base] at he'
      exact h.log.index _ e he'
    · rw [Nat.sub_self]
      exact h.log.full
  standing := h.standing

/-! ### Messages -/

structure AppendOk (c : Cluster) (a : Proto) (ae : AppendEntries) : Prop where
  elected : ∃ l, a.leader ae.term = some (ae.leaderId, l)
  prev_le : ae.prevLogIndex ≤ (a.lead ae.term).length
  prevTerm : 0 < ae.prevLogIndex →
    ((a.lead ae.term)[ae.prevLogIndex - 1]?).map LogEntry.term = some ae.prevLogTerm
  entries : ae.entries <+: (a.lead ae.term).drop ae.prevLogIndex
  commit_le : ae.leaderCommit ≤ (a.lead ae.term).length
  committed : c.Settled a ae.term ((a.lead ae.term).take ae.leaderCommit)

structure InstallOk (c : Cluster) (a : Proto) (is : InstallSnapshot) (covers : List LogEntry) :
    Prop where
  elected : ∃ l, a.leader is.term = some (is.leaderId, l)
  lead : covers <+: a.lead is.term
  lastIndex : is.lastIndex = covers.length
  lastTerm : is.lastTerm = lastTermOf covers
  settled : c.Settled a is.term covers

/-- What a packet says is, and stays, true. -/
def PacketOk (c : Cluster) (a : Proto) (p : Packet) : Prop :=
  match p.msg with
  | .requestVote rv => rv.term < u64Max →
      ∃ l, a.stood rv.candidateId rv.term = some l ∧ rv.lastLogIndex = l.length ∧
        rv.lastLogTerm = lastTermOf l
  | .requestVoteResp rvr => rvr.voteGranted = true →
      rvr.voterId ∈ c.members ∧ ∃ m, a.vote rvr.voterId rvr.term = some (p.dst, m)
  | .appendEntries ae => AppendOk c a ae
  | .appendEntriesResp aer => aer.success = true →
      aer.matchIndex ≤ a.acked aer.responderId aer.term
  | .installSnapshot is => InstallOk c a is p.covers
  | .installSnapshotResp isr => isr.installedIndex ≤ a.acked isr.responderId isr.term

theorem take_of_isPrefix {α : Type} {l m : List α} (h : l <+: m) {k : Nat} (hk : k ≤ l.length) :
    m.take k = l.take k := by
  obtain ⟨r, rfl⟩ := h
  exact List.take_append_of_le_length hk

theorem AppendOk.mono {ae : AppendEntries} (h : AppendOk c a ae) (he : Extends a a') :
    AppendOk c a' ae := by
  have hlead := he.lead ae.term
  obtain ⟨l, hl⟩ := h.elected
  refine ⟨⟨l, he.leader _ _ hl⟩, h.prev_le.trans hlead.length_le, fun h0 => ?_, ?_,
    h.commit_le.trans hlead.length_le, ?_⟩
  · obtain ⟨e, he', ht⟩ := Option.map_eq_some_iff.mp (h.prevTerm h0)
    rw [getElem?_of_isPrefix hlead he']
    exact congrArg some ht
  · exact h.entries.trans (hlead.drop _)
  · rw [take_of_isPrefix hlead h.commit_le]
    exact h.committed.mono he (Nat.le_refl _)

theorem InstallOk.mono {is : InstallSnapshot} {covers : List LogEntry}
    (h : InstallOk c a is covers) (he : Extends a a') : InstallOk c a' is covers := by
  obtain ⟨l, hl⟩ := h.elected
  exact ⟨⟨l, he.leader _ _ hl⟩, h.lead.trans (he.lead _), h.lastIndex, h.lastTerm,
    h.settled.mono he (Nat.le_refl _)⟩

theorem PacketOk.mono {p : Packet} (h : PacketOk c a p) (he : Extends a a') : PacketOk c a' p := by
  unfold PacketOk at h ⊢
  split at h
  · intro hlt
    obtain ⟨l, hl, hrest⟩ := h hlt
    exact ⟨l, he.stood _ _ _ hl, hrest⟩
  · intro hg
    obtain ⟨hv, m, hm⟩ := h hg
    exact ⟨hv, m, he.vote _ _ _ hm⟩
  · exact h.mono he
  · exact fun hs => (h hs).trans (he.acked _ _)
  · exact h.mono he
  · exact h.trans (he.acked _ _)

/-- An entry handed to a state machine is settled, at its index. -/
def AppliedOk (c : Cluster) (a : Proto) (e : LogEntry) : Prop :=
  ∃ b x k, c.Settled a b x ∧ x[k]? = some e ∧ e.index = k + 1

theorem AppliedOk.mono {e : LogEntry} (h : AppliedOk c a e) (he : Extends a a') :
    AppliedOk c a' e := by
  obtain ⟨b, x, k, hx, hk⟩ := h
  exact ⟨b, x, k, hx.mono he (Nat.le_refl _), hk⟩

end EventStream.Raft
