import EventStream.Raft.Ballot
import EventStream.Raft.Durable

/-! Elections, with as little as possible assumed of the rest.

Here only requests for votes and the answers to them have to come from a node. Messages
of replication and snapshot transfer say whatever they like, and a node that crashes
comes back with any log and any snapshot. It does come back with the term and the vote it
last made durable; a crash may fall between any two durable steps of an event, and then
none of the event's messages is sent. -/
namespace EventStream.Raft

/-- Entries that change no membership, as a test. -/
def isPlain (es : List LogEntry) : Bool := es.all fun e => (decodeConfigChange e.payload).isNone

theorem plain_of_isPlain {es : List LogEntry} (h : isPlain es = true) : Plain es :=
  fun e he => Option.isNone_iff_eq_none.mp (List.all_eq_true.mp h e he)

inductive ElectionLabel where
  | event (i : NodeId) (ev : Event) (chunk : NodeId → Option Chunk)
  /-- The node comes back with `log` and `snapshot` on its disk. -/
  | crash (i : NodeId) (log : List LogEntry) (snapshot : Option Snapshot)
  /-- A crash after `k` of the durable steps of an event. -/
  | torn (i : NodeId) (ev : Event) (k : Nat) (log : List LogEntry) (snapshot : Option Snapshot)

/-- What can happen at a node: votes are asked for and given by nodes, the rest is free. -/
def World.traffic (w : World) (i : NodeId) : Event → Bool
  | .message p _ _ => match p.msg with
    | .requestVote _ | .requestVoteResp _ => p ∈ w.sent ∧ p.dst = i
    | .appendEntries ae => isPlain ae.entries
    | _ => true
  | .propose payload => (decodeConfigChange payload).isNone
  | _ => true

def World.electionStep (c : Cluster) (w : World) : ElectionLabel → Option World
  | .event i ev chunk => do
    guard (i ∈ c.members ∧ w.traffic i ev)
    let e ← (w.nodes i).handle ev
    let n : Node := ⟨{e.state with pending := []}, e.durable.foldl Disk.apply (w.nodes i).disk⟩
    e.actions.foldlM (World.act chunk i) {w with nodes := Function.update w.nodes i n}
  | .crash i log snapshot => do
    guard (i ∈ c.members ∧ isPlain log)
    let n ← c.restart i ⟨{(w.nodes i).disk.raft with log}, snapshot⟩
    some {w with nodes := Function.update w.nodes i n}
  | .torn i ev k log snapshot => do
    guard (i ∈ c.members ∧ w.traffic i ev ∧ isPlain log)
    let e ← (w.nodes i).handle ev
    let d := (e.durable.take k).foldl Disk.apply (w.nodes i).disk
    let n ← c.restart i ⟨{d.raft with log}, snapshot⟩
    some {w with nodes := Function.update w.nodes i n}

/-- Any sequence of such steps. -/
def ElectionRun (c : Cluster) : World → World → Prop :=
  Relation.ReflTransGen (fun w w' => ∃ l, w.electionStep c l = some w')

/-! ### The hard state on disk -/

variable {ops : List PersistOp} {t : Nat} {chunk : NodeId → Option Chunk}

theorem persist_no_hard (d : PersistedRaft) (h : hardOps ops = []) :
    (d.persist ops).currentTerm = d.currentTerm ∧ (d.persist ops).votedFor = d.votedFor := by
  induction ops generalizing d with
  | nil => exact ⟨rfl, rfl⟩
  | cons op ops ih =>
    cases op with
    | hardState t v => simp [hardOps, PersistOp.isHardState] at h
    | append | truncateFrom | compactThrough => exact ih (d.persistOp _) h

theorem persist_one_hard (d : PersistedRaft) {v : Option NodeId}
    (h : hardOps ops = [.hardState t v]) :
    (d.persist ops).currentTerm = t ∧ (d.persist ops).votedFor = v := by
  induction ops generalizing d with
  | nil => cases h
  | cons op ops ih =>
    cases op with
    | hardState t' v' =>
      obtain ⟨hop, hrest⟩ := List.cons.inj h
      cases hop
      exact persist_no_hard (d.persistOp (.hardState t v)) hrest
    | append | truncateFrom | compactThrough => exact ih (d.persistOp _) h

/-- After some of the durable steps the store has some of the pending operations. -/
theorem Effect.durable_take (e : Effect) (d : Disk) (k : Nat) :
    ∃ done, done <+: e.state.pending ∧
      ((e.durable.take k).foldl Disk.apply d).raft = d.raft.persist done := by
  unfold Effect.durable
  cases e.save with
  | none =>
    refine ⟨_, List.take_prefix k e.state.pending, ?_⟩
    rw [Option.map_none, Option.toList_none, List.nil_append, ← List.map_take, foldl_persist]
  | some snap =>
    cases k with
    | zero => exact ⟨[], List.nil_prefix, rfl⟩
    | succ k =>
      refine ⟨_, List.take_prefix k e.state.pending, ?_⟩
      rw [Option.map_some, Option.toList_some, List.singleton_append, List.take_succ_cons,
        List.foldl_cons, ← List.map_take, foldl_persist]
      rfl

theorem Effect.durable_all (e : Effect) (d : Disk) :
    (e.durable.foldl Disk.apply d).raft = d.raft.persist e.state.pending := by
  unfold Effect.durable
  rw [List.foldl_append, foldl_persist]
  cases e.save <;> rfl

/-- A node between two events, as far as its vote goes. -/
structure Resting (c : Cluster) (votes : Votes) (i : NodeId) (n : Node) : Prop where
  ballot : Ballot c votes i n.state
  term : n.disk.raft.currentTerm = n.state.currentTerm
  vote : n.disk.raft.votedFor = n.state.votedFor
  idle : hardOps n.state.pending = []

variable {c : Cluster} {votes votes' : Votes} {i : NodeId} {n : Node} {w w' : World} {e : Effect}

/-- The hard state on disk after all durable steps is the node's. -/
theorem Resting.stored (h : Resting c votes i n)
    (hv : Voted c votes votes' i n.state e.state e.actions) :
    Resting c votes' i
      ⟨{e.state with pending := []}, e.durable.foldl Disk.apply n.disk⟩ := by
  have hdisk : (n.disk.raft.persist e.state.pending).currentTerm = e.state.currentTerm ∧
      (n.disk.raft.persist e.state.pending).votedFor = e.state.votedFor := by
    rcases hv.hard with hnew | ⟨hops, hterm, hvote⟩
    · exact persist_one_hard _ hnew
    · obtain ⟨ht, hv⟩ := persist_no_hard n.disk.raft (hops.trans h.idle)
      exact ⟨ht.trans (h.term.trans hterm.symm), hv.trans (h.vote.trans hvote.symm)⟩
  rw [← e.durable_all] at hdisk
  exact ⟨{hv.ballot with me := hv.ballot.me}, hdisk.1, hdisk.2, rfl⟩

/-- Wherever a crash cuts the event, the hard state on disk agrees with the record, with or
without the event's vote. -/
theorem Resting.torn (h : Resting c votes i n)
    (hv : Voted c votes votes' i n.state e.state e.actions) (k : Nat) :
    ∃ votes₁, Adds i votes votes₁ ∧
      Recorded votes₁ i ((e.durable.take k).foldl Disk.apply n.disk).raft.currentTerm
        ((e.durable.take k).foldl Disk.apply n.disk).raft.votedFor := by
  obtain ⟨done, hdone, hraft⟩ := e.durable_take n.disk k
  rw [hraft]
  have hold (hnone : hardOps done = []) :
      Recorded votes i (n.disk.raft.persist done).currentTerm
        (n.disk.raft.persist done).votedFor := by
    obtain ⟨ht, hv⟩ := persist_no_hard n.disk.raft hnone
    rw [ht, hv, h.term, h.vote]
    exact h.ballot.recorded
  have hpre : hardOps done <+: hardOps e.state.pending := hdone.filter _
  rcases hv.hard with hnew | ⟨hops, _⟩
  · rw [hnew, ← List.nil_append [PersistOp.hardState _ _]] at hpre
    rcases List.prefix_concat_iff.mp hpre with hall | hnone
    · obtain ⟨ht, hvote⟩ := persist_one_hard n.disk.raft hall
      rw [ht, hvote]
      exact ⟨votes', hv.adds, hv.ballot.recorded⟩
    · exact ⟨votes, .refl i votes, hold (List.prefix_nil.mp hnone)⟩
  · rw [hops, h.idle] at hpre
    exact ⟨votes, .refl i votes, hold (List.prefix_nil.mp hpre)⟩

theorem checkStart_eq {s s' : RaftState} (h : s.checkStart = some (.ok s')) : s' = s := by
  unfold RaftState.checkStart at h
  split at h
  · cases h
    rfl
  · obtain ⟨_, _, h⟩ := Option.bind_eq_some_iff.mp h
    split at h
    · cases h
    · cases h
      rfl

theorem restart_resting {d : Disk} (h : c.restart i d = some n)
    (hd : Recorded votes i d.raft.currentTerm d.raft.votedFor) (hp : Plain d.raft.log) :
    Resting c votes i n := by
  unfold Cluster.restart at h
  split at h
  case h_2 => cases h
  rename_i s hs
  cases h
  unfold RaftState.restore at hs
  dsimp only at hs
  split at hs
  · cases checkStart_eq hs
    exact ⟨⟨rfl, rfl, hd, (fun hr => by cases hr), (fun hr => by cases hr), hp⟩, rfl, rfl, rfl⟩
  · cases checkStart_eq hs
    refine ⟨⟨rfl, rfl, hd, (fun hr => by cases hr), (fun hr => by cases hr),
      hp.mono (Log.compactThrough_subset _ _ _)⟩, rfl, rfl, ?_⟩
    unfold RaftState.adoptSnapshot
    dsimp only
    rw [apply_ite hardOps, hardOps_append_log rfl, ite_self]
    rfl

/-! ### Steps and runs -/

/-- The record of votes is true of every node and every message. -/
structure Polled (c : Cluster) (w : World) (votes : Votes) : Prop where
  nodes : ∀ i ∈ c.members, Resting c votes i (w.nodes i)
  sent : ∀ p ∈ w.sent, VoteOk c votes p.dst p.msg

theorem polled_initial (c : Cluster) : Polled c c.initial fun _ _ => none := by
  refine ⟨fun i _ => ⟨⟨rfl, rfl, ⟨rfl, fun t ht => absurd rfl ht, Nat.zero_le _, ?_⟩, ?_, ?_, ?_⟩,
    rfl, rfl, rfl⟩, fun p hp => absurd hp List.not_mem_nil⟩
  · exact fun h => by cases h
  · exact fun h => by cases h
  · exact fun h => by cases h
  · exact fun e he => absurd he List.not_mem_nil

theorem Resting.frame {j : NodeId} (h : Resting c votes j n) (ha : Adds i votes votes')
    (hj : j ≠ i) : Resting c votes' j n where
  ballot :=
    { me := h.ballot.me
      peers := h.ballot.peers
      recorded := by
        obtain ⟨hcur, hpast, hbound, htop⟩ := h.ballot.recorded
        have := ha.others j hj
        exact ⟨by rw [this]; exact hcur, by rw [this]; exact hpast, hbound,
          by rw [this]; exact htop⟩
      candidate := fun hr => ⟨(h.ballot.candidate hr).1, fun v hv =>
        ⟨((h.ballot.candidate hr).2 v hv).1, ha.mono ((h.ballot.candidate hr).2 v hv).2⟩⟩
      leader := fun hr => by
        obtain ⟨Q, hQ, hvotes⟩ := h.ballot.leader hr
        exact ⟨Q, hQ, fun v hv => ha.mono (hvotes v hv)⟩
      plain := h.ballot.plain }
  term := h.term
  vote := h.vote
  idle := h.idle

section
variable (h : Polled c w votes)
include h

theorem Polled.setNode (ha : Adds i votes votes') (hn : Resting c votes' i n) :
    Polled c {w with nodes := Function.update w.nodes i n} votes' := by
  refine ⟨fun j hj => ?_, fun p hp => (h.sent p hp).mono ha⟩
  show Resting c votes' j (Function.update w.nodes i n j)
  by_cases hji : j = i
  · subst hji
    rwa [Function.update_self]
  · rw [Function.update_of_ne hji]
    exact (h.nodes j hj).frame ha hji

theorem Polled.send (ps : List Packet) (hps : ∀ p ∈ ps, VoteOk c votes p.dst p.msg) :
    Polled c {w with sent := ps ++ w.sent} votes :=
  ⟨h.nodes, fun p hp => (List.mem_append.mp hp).elim (hps p) (h.sent p)⟩

section
variable (hi : i ∈ c.members)
include hi

theorem Polled.act {act : Action} (hact : ActionVoteOk c votes act)
    (hw : w.act chunk i act = some w') : Polled c w' votes := by
  cases act with
  | sendTo peer msg =>
    cases hw
    exact h.send [_] fun p hp => List.mem_singleton.mp hp ▸ hact
  | broadcast msg =>
    cases hw
    refine h.send _ fun p hp => ?_
    obtain ⟨peer, _, rfl⟩ := List.mem_map.mp hp
    exact hact peer
  | resetElectionTimer =>
    cases hw
    exact h
  | apply e =>
    cases hw
    exact ⟨h.nodes, h.sent⟩
  | sendSnapshot peer =>
    unfold World.act World.sendSnapshot at hw
    dsimp only at hw
    split at hw
    · obtain ⟨next, _, hw⟩ := Option.bind_eq_some_iff.mp hw
      cases hw
      have hn := h.nodes i hi
      exact h.setNode (.refl i votes) ⟨{hn.ballot with me := hn.ballot.me}, hn.term, hn.vote,
        hn.idle⟩
    · split at hw
      · cases hw
        exact h
      · cases hw
        exact h.send [_] fun p hp => List.mem_singleton.mp hp ▸ trivial

theorem Polled.acts {acts : List Action} (hacts : ∀ act ∈ acts, ActionVoteOk c votes act)
    (hw : acts.foldlM (World.act chunk i) w = some w') : Polled c w' votes :=
  foldlM_keeps (P := fun w => Polled c w votes)
    (fun act hact _ _ h hs => h.act hi (hacts act hact) hs) h hw

/-- Whatever event a node handles, the record follows. -/
theorem Polled.handle {ev : Event} (hev : w.traffic i ev = true)
    (he : (w.nodes i).handle ev = some e) :
    ∃ votes', Voted c votes votes' i (w.nodes i).state e.state e.actions := by
  have hb := (h.nodes i hi).ballot
  cases ev with
  | message p progress stored =>
    obtain ⟨⟨s', acts⟩, hs', he⟩ := Option.bind_eq_some_iff.mp he
    cases he
    refine hb.message hi ?_ hs'
    obtain ⟨dst, msg, covers⟩ := p
    cases msg with
    | requestVote rv =>
      obtain ⟨hp, hdst⟩ := of_decide_eq_true hev
      exact h.sent _ hp
    | requestVoteResp rvr =>
      obtain ⟨hp, hdst⟩ := of_decide_eq_true hev
      cases hdst
      exact h.sent _ hp
    | appendEntries ae => exact plain_of_isPlain hev
    | appendEntriesResp | installSnapshot | installSnapshotResp => trivial
  | electionTimeout =>
    obtain ⟨⟨s', acts⟩, hs', he⟩ := Option.bind_eq_some_iff.mp he
    cases he
    unfold RaftState.onElectionTimeout at hs'
    split at hs'
    · cases hs'
      exact ⟨votes, hb.voted⟩
    · exact hb.startElection hi hs'
  | heartbeatTick =>
    obtain ⟨acts, hacts, he⟩ := Option.bind_eq_some_iff.mp he
    cases he
    exact ⟨votes, hb.voted.quiet (.refl _) (heartbeat_silent hacts)⟩
  | propose payload =>
    have hp := Option.isNone_iff_eq_none.mp hev
    obtain ⟨⟨s', outcome, acts⟩, hs', he⟩ := Option.bind_eq_some_iff.mp he
    obtain ⟨hq, hsilent⟩ := quiet_propose hb.plain hp hs'
    cases outcome with
    | accepted k =>
      obtain ⟨more, hmore, he⟩ := Option.bind_eq_some_iff.mp he
      cases he
      exact ⟨votes, hb.voted.quiet hq (hsilent.append (heartbeat_silent hmore))⟩
    | notLeader hint =>
      cases he
      exact ⟨votes, hb.voted.quiet hq hsilent⟩
  | takeSnapshot data through =>
    unfold Node.handle at he
    dsimp only at he
    split at he
    · cases he
    · rename_i s' snap hsnap
      cases he
      exact ⟨votes, hb.voted.quiet (quiet_takeSnapshot hsnap) .nil⟩

end

end

/-- A later record of votes. -/
def Grows (votes votes' : Votes) : Prop := ∀ j t v, votes j t = some v → votes' j t = some v

theorem Polled.step (h : Polled c w votes) {l : ElectionLabel}
    (hw : w.electionStep c l = some w') : ∃ votes', Polled c w' votes' ∧ Grows votes votes' := by
  cases l with
  | event i ev chunk =>
    obtain ⟨_, hguard, hw⟩ := Option.bind_eq_some_iff.mp hw
    obtain ⟨hi, hev⟩ := (Option.guard_eq_some' _).mp hguard
    obtain ⟨e, he, hw⟩ := Option.bind_eq_some_iff.mp hw
    obtain ⟨votes', hv⟩ := h.handle hi hev he
    have h' := h.setNode hv.adds ((h.nodes i hi).stored hv)
    exact ⟨votes', h'.acts hi hv.acts hw, fun _ _ _ => hv.adds.mono⟩
  | crash i log snapshot =>
    obtain ⟨_, hguard, hw⟩ := Option.bind_eq_some_iff.mp hw
    obtain ⟨hi, hlog⟩ := (Option.guard_eq_some' _).mp hguard
    obtain ⟨n, hn, hw⟩ := Option.bind_eq_some_iff.mp hw
    cases hw
    have hnode := h.nodes i hi
    have hrec : Recorded votes i (w.nodes i).disk.raft.currentTerm
        (w.nodes i).disk.raft.votedFor := by
      rw [hnode.term, hnode.vote]
      exact hnode.ballot.recorded
    exact ⟨votes, h.setNode (.refl i votes) (restart_resting hn hrec (plain_of_isPlain hlog)),
      fun _ _ _ => id⟩
  | torn i ev k log snapshot =>
    obtain ⟨_, hguard, hw⟩ := Option.bind_eq_some_iff.mp hw
    obtain ⟨hi, hev, hlog⟩ := (Option.guard_eq_some' _).mp hguard
    obtain ⟨e, he, hw⟩ := Option.bind_eq_some_iff.mp hw
    obtain ⟨n, hn, hw⟩ := Option.bind_eq_some_iff.mp hw
    cases hw
    obtain ⟨votes', hv⟩ := h.handle hi hev he
    obtain ⟨votes₁, hadds, hrec⟩ := (h.nodes i hi).torn hv k
    exact ⟨votes₁, h.setNode hadds (restart_resting hn hrec (plain_of_isPlain hlog)),
      fun _ _ _ => hadds.mono⟩

theorem Polled.run (h : Polled c w votes) (hw : ElectionRun c w w') :
    ∃ votes', Polled c w' votes' ∧ Grows votes votes' := by
  induction hw with
  | refl => exact ⟨votes, h, fun _ _ _ => id⟩
  | tail _ hstep ih =>
    obtain ⟨votes₁, h₁, hg₁⟩ := ih
    obtain ⟨l, hl⟩ := hstep
    obtain ⟨votes₂, h₂, hg₂⟩ := h₁.step hl
    exact ⟨votes₂, h₂, fun j t v hv => hg₂ j t v (hg₁ j t v hv)⟩

/-- Node `v` has given its vote in term `t` to `x`: it has answered `x`, or has asked for
votes itself. -/
def World.Granted (w : World) (v : NodeId) (t : Nat) (x : NodeId) : Prop :=
  ∃ p ∈ w.sent, p.msg = .requestVoteResp ⟨t, true, v⟩ ∧ p.dst = x ∨
    ∃ rv, p.msg = .requestVote rv ∧ rv.candidateId = v ∧ rv.term = t ∧ x = v

theorem Polled.granted (h : Polled c w votes) {v x : NodeId} (hg : w.Granted v t x) :
    votes v t = some x := by
  obtain ⟨p, hp, ⟨hmsg, rfl⟩ | ⟨rv, hmsg, rfl, rfl, rfl⟩⟩ := hg
  · have := h.sent p hp
    rw [hmsg] at this
    exact (this rfl).2
  · have := h.sent p hp
    rw [hmsg] at this
    exact this

/-- **Election safety.** No two nodes lead the same term, at the same or at different
times, and no node gives its vote in one term to two candidates. -/
theorem election_safety (h : ElectionRun c c.initial w) (h' : ElectionRun c w w') :
    (∀ i ∈ c.members, ∀ j ∈ c.members, (w.nodes i).state.role = .leader →
      (w'.nodes j).state.role = .leader →
      (w.nodes i).state.currentTerm = (w'.nodes j).state.currentTerm → i = j) ∧
      ∀ v t x y, w'.Granted v t x → w'.Granted v t y → x = y := by
  obtain ⟨votes, hw, _⟩ := (polled_initial c).run h
  obtain ⟨votes', hw', hgrows⟩ := hw.run h'
  refine ⟨fun i hi j hj hri hrj ht => ?_, fun v t x y hx hy => ?_⟩
  · obtain ⟨P, hP, hp⟩ := (hw.nodes i hi).ballot.leader hri
    obtain ⟨Q, hQ, hq⟩ := (hw'.nodes j hj).ballot.leader hrj
    obtain ⟨v, hvP, hvQ⟩ := c.quorums.meet P Q hP hQ
    have hi' := hgrows _ _ _ (hp v hvP)
    rw [ht] at hi'
    exact Option.some.inj (hi'.symm.trans (hq v hvQ))
  · exact Option.some.inj ((hw'.granted hx).symm.trans (hw'.granted hy))

theorem ElectionRun.of_labels {labels : List ElectionLabel}
    (hw : labels.foldlM (World.electionStep c) w = some w') : ElectionRun c w w' :=
  foldlM_keeps (fun l _ _ _ h hs => h.tail ⟨l, hs⟩) .refl hw

/-- Node 1 takes office in term 1. -/
def firstTerm : List ElectionLabel :=
  [ .event 1 .electionTimeout fun _ => none,
    .event 2 (.message ⟨2, .requestVote ⟨1, 1, 0, 0⟩, []⟩ 0 []) fun _ => none,
    .event 1 (.message ⟨1, .requestVoteResp ⟨1, true, 2⟩, []⟩ 0 []) fun _ => none ]

/-- Node 2 crashes while it stands in term 2, comes back and takes office in term 3. Node 1
has heard of none of it. -/
def thirdTerm : List ElectionLabel :=
  [ .torn 2 .electionTimeout 1 [] none,
    .event 2 .electionTimeout fun _ => none,
    .event 3 (.message ⟨3, .requestVote ⟨3, 2, 0, 0⟩, []⟩ 0 []) fun _ => none,
    .event 2 (.message ⟨2, .requestVoteResp ⟨3, true, 3⟩, []⟩ 0 []) fun _ => none ]

theorem firstTerm_runs :
    (firstTerm.foldlM (World.electionStep three) three.initial).isSome = true := by decide

def inFirstTerm : World :=
  (firstTerm.foldlM (World.electionStep three) three.initial).get firstTerm_runs

theorem thirdTerm_runs :
    (thirdTerm.foldlM (World.electionStep three) inFirstTerm).isSome = true := by decide

def inThirdTerm : World :=
  (thirdTerm.foldlM (World.electionStep three) inFirstTerm).get thirdTerm_runs

theorem election_safety_three :
    ElectionRun three three.initial inFirstTerm ∧ ElectionRun three inFirstTerm inThirdTerm ∧
      (inFirstTerm.nodes 1).state.role = .leader ∧ (inThirdTerm.nodes 1).state.role = .leader ∧
      (inThirdTerm.nodes 2).state.role = .leader ∧
      (∀ j ∈ three.members, (inThirdTerm.nodes j).state.role = .leader →
        (inFirstTerm.nodes 1).state.currentTerm = (inThirdTerm.nodes j).state.currentTerm →
        1 = j) ∧
      ∀ x, inThirdTerm.Granted 2 1 x → x = 1 := by
  have hrun := ElectionRun.of_labels (Option.some_get firstTerm_runs).symm
  have hrun' := ElectionRun.of_labels (Option.some_get thirdTerm_runs).symm
  have hlead : (inFirstTerm.nodes 1).state.role = .leader := by decide
  have hgrant : inThirdTerm.Granted 2 1 1 :=
    ⟨⟨1, .requestVoteResp ⟨1, true, 2⟩, []⟩, by decide, .inl ⟨rfl, rfl⟩⟩
  have hsafe := election_safety hrun hrun'
  exact ⟨hrun, hrun', hlead, by decide, by decide,
    fun j hj => hsafe.1 1 (by decide) j hj hlead, fun x hx => hsafe.2 2 1 x 1 hx hgrant⟩

end EventStream.Raft
