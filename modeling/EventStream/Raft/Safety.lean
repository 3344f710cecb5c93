import EventStream.Raft.Events

/-! The cluster follows the protocol, and what that means for its clients.

`Refines` ties a world to a protocol state: every node, every message on the way and
every entry handed to a state machine. Each step keeps it (`Refines.step`), so the
protocol's agreement carries over to whole runs. -/
namespace EventStream.Raft
open Consensus (Extends)

structure Refines (c : Cluster) (w : World) (a : Proto) : Prop where
  sane : Sane c a
  nodes : ∀ i ∈ c.members, NodeOk c a i (w.nodes i)
  sent : ∀ p ∈ w.sent, PacketOk c a p
  applied : ∀ e ∈ w.applied, AppliedOk c a e.2

/-- No crash in this step falls at a harmful point of an event. -/
def SafeStep (c : Cluster) (w : World) : Label → Prop
  | .torn i ev k => ∀ e, w.effect c i ev = some e → SafeTear (w.nodes i).state e k
  | _ => True

/-- Every event is made durable as a whole, or not at all. -/
def AtomicStep (c : Cluster) (w : World) : Label → Prop
  | .torn i ev k => ∀ e, w.effect c i ev = some e → k = 0 ∨ e.durable.length ≤ k
  | _ => True

variable {c : Cluster} {w w' : World} {a a' : Proto} {i : NodeId} {n : Node} {k : Nat}
    {chunk : NodeId → Option Chunk} {l : Label} {e : LogEntry}

theorem AtomicStep.safe (h : AtomicStep c w l) : SafeStep c w l := by
  cases l with
  | torn i ev k =>
    intro e he snap _ h0 hk
    rcases h e he with rfl | hle
    · exact absurd h0 (Nat.lt_irrefl 0)
    · omega
  | event | chunkFailed | crash => trivial

theorem refines_initial (c : Cluster) : Refines c c.initial Consensus.State.initial := by
  have hsane : Sane c Consensus.State.initial :=
    ⟨Consensus.inv_initial, (fun t k e he => nomatch he), fun t => (by decide : 0 < u64Max)⟩
  refine ⟨hsane, fun i _ => ?_, (fun p hp => nomatch hp), (fun e he => nomatch he)⟩
  have hdisk : Resumes c Consensus.State.initial i {} :=
    ⟨⟨rfl, rfl, ⟨0, Nat.le_refl _, (fun k e he => nomatch he), rfl⟩,
      Nat.zero_le _, .inl rfl, (fun h => nomatch h), fun _ => .inl rfl⟩, fun snap h => nomatch h⟩
  exact (hdisk.sound .empty []).nodeOk {} hdisk.snapshot rfl

/-- The protocol moves by steps of node `i`, and the node with it. -/
theorem Refines.setNode (h : Refines c w a) (hm : c.Moves i a a') (hs : Sane c a')
    (hn : NodeOk c a' i n) :
    Refines c {w with nodes := Function.update w.nodes i n} a' ∧ Extends a a' := by
  obtain ⟨_, hext, hframe⟩ := Consensus.steps_sound h.sane.inv hm
  refine ⟨⟨hs, fun j hj => ?_, fun p hp => (h.sent p hp).mono hext,
    fun e he => (h.applied e he).mono hext⟩, hext⟩
  show NodeOk c a' j (Function.update w.nodes i n j)
  by_cases hji : j = i
  · subst hji
    rwa [Function.update_self]
  · rw [Function.update_of_ne hji]
    exact (h.nodes j hj).frame hext hframe hji

theorem Refines.send (h : Refines c w a) (ps : List Packet) (hps : ∀ p ∈ ps, PacketOk c a p) :
    Refines c {w with sent := ps ++ w.sent} a :=
  ⟨h.sane, h.nodes, fun p hp => (List.mem_append.mp hp).elim (hps p) (h.sent p), h.applied⟩

/-! ### Actions -/

/-- A leader's snapshot is part of its log. -/
theorem NodeOk.installOk (hs : Sane c a) (h : NodeOk c a i n) (hr : n.state.role = .leader)
    {snap : Snapshot} (hsnap : n.disk.snapshot = some snap) (ch : Chunk) :
    InstallOk c a
      { term := n.state.currentTerm
        leaderId := n.state.me
        lastIndex := snap.stored.lastIndex
        lastTerm := snap.stored.lastTerm
        offset := ch.offset
        done := ch.done
        data := ch.data } snap.covers := by
  obtain ⟨hindex, hterm⟩ := h.snapshot snap hsnap
  have hfold : n.disk.folded = snap.covers := by
    unfold Disk.folded
    rw [hsnap]
    rfl
  have hsound := h.sound
  rw [hfold] at hsound
  refine ⟨?_, ?_, hindex, hterm, ?_⟩
  · rw [hsound.me]
    exact (hsound.leader hr).elected
  · rw [← hsound.own_log hs hr]
    exact hsound.log.folded_isPrefix
  · rw [← hsound.term]
    exact hsound.standing.settled

theorem NodeOk.setNext (hs : Sane c a) (h : NodeOk c a i n) (hr : n.state.role = .leader)
    (peer : NodeId) (h0 : 0 < k) (hk : k ≤ (a.log i).length + 1) :
    NodeOk c a i {n with state := n.state.setNext peer k} := by
  have hset := (h.early hs).handled.setNext (p := peer) hr h0 hk
  exact ⟨hset.sound, h.snapshot, hset.synced, h.torn, h.logOnly⟩

section
variable (h : Refines c w a)
include h

theorem Refines.sendSnapshot (hi : i ∈ c.members) (hr : (w.nodes i).state.role = .leader)
    {peer : NodeId} (hw : w.sendSnapshot chunk i peer = some w') :
    Refines c w' a ∧ (w'.nodes i).state.role = (w.nodes i).state.role ∧
      (w'.nodes i).state.peers = (w.nodes i).state.peers := by
  have hn := h.nodes i hi
  unfold World.sendSnapshot at hw
  dsimp only at hw
  split at hw
  · obtain ⟨next, hnext, hw⟩ := Option.bind_eq_some_iff.mp hw
    obtain ⟨rfl, _⟩ := addU64_eq_some.mp hnext
    cases hw
    refine ⟨(h.setNode .refl h.sane (hn.setNext h.sane hr peer (Nat.succ_pos _)
      (Nat.succ_le_succ hn.sound.log.base_le))).1, ?_⟩
    dsimp only
    rw [Function.update_self]
    exact ⟨rfl, rfl⟩
  · rename_i snap hsnap
    split at hw
    · cases hw
      exact ⟨h, rfl, rfl⟩
    · rename_i ch _
      cases hw
      refine ⟨h.send [_] fun p hp => ?_, rfl, rfl⟩
      rw [List.mem_singleton.mp hp]
      exact hn.installOk h.sane hr hsnap ch

theorem Refines.act (hi : i ∈ c.members) {act : Action} (hact : ActionOk c a (w.nodes i).state act)
    (hw : w.act chunk i act = some w') :
    Refines c w' a ∧ (w'.nodes i).state.role = (w.nodes i).state.role ∧
      (w'.nodes i).state.peers = (w.nodes i).state.peers := by
  cases act with
  | sendTo peer msg =>
    cases hw
    exact ⟨h.send [_] fun p hp => List.mem_singleton.mp hp ▸ hact, rfl, rfl⟩
  | broadcast msg =>
    cases hw
    refine ⟨h.send _ fun p hp => ?_, rfl, rfl⟩
    obtain ⟨peer, hpeer, rfl⟩ := List.mem_map.mp hp
    exact hact peer hpeer
  | resetElectionTimer =>
    cases hw
    exact ⟨h, rfl, rfl⟩
  | apply e =>
    cases hw
    refine ⟨⟨h.sane, h.nodes, h.sent, fun e' he' => ?_⟩, rfl, rfl⟩
    rcases List.mem_cons.mp he' with rfl | he'
    · exact hact
    · exact h.applied e' he'
  | sendSnapshot peer => exact h.sendSnapshot hi hact hw

theorem Refines.acts (hi : i ∈ c.members) {acts : List Action}
    (hacts : ActionsOk c a (w.nodes i).state acts)
    (hw : acts.foldlM (World.act chunk i) w = some w') : Refines c w' a := by
  refine (foldlM_keeps (P := fun w => Refines c w a ∧ ActionsOk c a (w.nodes i).state acts)
    (fun act hact _ _ h hs => ?_) ⟨h, hacts⟩ hw).1
  obtain ⟨h₁, hrole, hpeers⟩ := h.1.act hi (h.2 act hact) hs
  exact ⟨h₁, h.2.congr hrole hpeers⟩

end

/-! ### Steps and runs -/

/-- The protocol follows the node through an event that happens in the world. -/
theorem Refines.effect (h : Refines c w a) {ev : Event} {e : Effect}
    (he : w.effect c i ev = some e) : i ∈ c.members ∧ ∃ a', EffectOk c a i (w.nodes i) e a' := by
  obtain ⟨_, hguard, he⟩ := Option.bind_eq_some_iff.mp he
  obtain ⟨hi, hoffers⟩ := (Option.guard_eq_some' _).mp hguard
  obtain ⟨e₁, he₁, he⟩ := Option.bind_eq_some_iff.mp he
  obtain ⟨_, hsmall, he⟩ := Option.bind_eq_some_iff.mp he
  cases he
  refine ⟨hi, (h.nodes i hi).handle hi h.sane ?_ he₁ ((Option.guard_eq_some' _).mp hsmall)⟩
  cases ev with
  | message p progress stored =>
    obtain ⟨hp, hdst⟩ := of_decide_eq_true hoffers
    exact ⟨h.sent p hp, hdst⟩
  | propose payload => exact Option.isNone_iff_eq_none.mp hoffers
  | electionTimeout | heartbeatTick | takeSnapshot => trivial

/-- The answer to a chunk that could not be applied acknowledges nothing. -/
theorem chunkFailure_ok {s : RaftState} {p q : Packet} {progress : Nat}
    (hq : chunkFailure s p progress = some q) : PacketOk c a q := by
  unfold chunkFailure at hq
  split at hq
  · split at hq
    · cases hq
    · cases hq
      exact Nat.zero_le _
  · cases hq

section
variable (h : Refines c w a)
include h

/-- A node restarts from a disk that agrees with where it is in the protocol. -/
theorem Refines.restart (hm : c.Moves i a a') (hs : Sane c a') {d : Disk} (hd : Resumes c a' i d)
    (hn : c.restart i d = some n) :
    Refines c {w with nodes := Function.update w.nodes i n} a' ∧ Extends a a' := by
  obtain ⟨n', hn', hok, _⟩ := restart_ok hs hd
  cases hn.symm.trans hn'
  exact h.setNode hm hs hok

/-- The protocol follows the cluster by steps of one node. -/
theorem Refines.moves (hl : SafeStep c w l) (hw : w.step c l = some w') :
    ∃ i a', Refines c w' a' ∧ c.Moves i a a' := by
  cases l with
  | event i ev chunk =>
    obtain ⟨e, he, hw⟩ := Option.bind_eq_some_iff.mp hw
    obtain ⟨hi, a', hok⟩ := h.effect he
    obtain ⟨h', _⟩ := h.setNode hok.moves hok.sane hok.node
    refine ⟨i, a', h'.acts hi ?_ hw, hok.moves⟩
    dsimp only
    rw [Function.update_self]
    exact hok.actions.congr rfl rfl
  | chunkFailed i p progress =>
    obtain ⟨_, _, hw⟩ := Option.bind_eq_some_iff.mp hw
    obtain ⟨q, hq, hw⟩ := Option.bind_eq_some_iff.mp hw
    cases hw
    exact ⟨i, a, h.send [q] fun p hp => List.mem_singleton.mp hp ▸ chunkFailure_ok hq, .refl⟩
  | crash i =>
    obtain ⟨_, hguard, hw⟩ := Option.bind_eq_some_iff.mp hw
    obtain ⟨n, hn, hw⟩ := Option.bind_eq_some_iff.mp hw
    cases hw
    have hi := (Option.guard_eq_some' _).mp hguard
    exact ⟨i, a, (h.restart .refl h.sane (h.nodes i hi).resumes hn).1, .refl⟩
  | torn i ev k =>
    obtain ⟨e, he, hw⟩ := Option.bind_eq_some_iff.mp hw
    obtain ⟨n, hn, hw⟩ := Option.bind_eq_some_iff.mp hw
    cases hw
    obtain ⟨_, a', hok⟩ := h.effect he
    obtain ⟨a₁, hm, hs, hd, _⟩ := hok.torn k (hl e he)
    exact ⟨i, a₁, (h.restart hm hs hd hn).1, hm⟩

/-- **One step.** The protocol follows the cluster. -/
theorem Refines.step {l : Label} (hl : SafeStep c w l) (hw : w.step c l = some w') :
    ∃ a', Refines c w' a' ∧ Extends a a' := by
  obtain ⟨i, a', h', hm⟩ := h.moves hl hw
  exact ⟨a', h', (Consensus.steps_sound h.sane.inv hm).2.1⟩

/-- **Whole runs.** -/
theorem Refines.run (hw : Run c (SafeStep c) w w') : ∃ a', Refines c w' a' ∧ Extends a a' := by
  induction hw with
  | refl => exact ⟨a, h, .refl a⟩
  | tail _ hstep ih =>
    obtain ⟨a₁, h₁, hext₁⟩ := ih
    obtain ⟨l, hl, hw⟩ := hstep
    obtain ⟨a₂, h₂, hext₂⟩ := h₁.step hl hw
    exact ⟨a₂, h₂, hext₁.trans hext₂⟩

end

theorem Run.safe (h : Run c (AtomicStep c) w w') : Run c (SafeStep c) w w' := by
  induction h with
  | refl => exact .refl
  | tail _ hstep ih =>
    obtain ⟨l, hl, hw⟩ := hstep
    exact ih.tail ⟨l, hl.safe, hw⟩

theorem Run.of_labels {labels : List Label} (hw : w.run c labels = some w')
    (hl : ∀ l ∈ labels, l.isTorn = false) : Run c (AtomicStep c) w w' := by
  refine foldlM_keeps (fun l hmem w₁ _ h hs => h.tail ⟨l, ?_, hs⟩) .refl hw
  cases l with
  | torn i ev k => cases hl _ hmem
  | event | chunkFailed | crash => trivial

/-! ### Agreement -/

/-- The node's commit index covers entry `e` at index `k`. -/
def Node.Covers (n : Node) (k : Nat) (e : LogEntry) : Prop :=
  0 < k ∧ k ≤ n.state.commitIndex ∧ n.history[k - 1]? = some e

instance (n : Node) (k : Nat) (e : LogEntry) : Decidable (n.Covers k e) :=
  inferInstanceAs (Decidable (_ ∧ _ ∧ _))

/-- What a commit index covers is settled. -/
theorem NodeOk.covers (h : NodeOk c a i n) (he : n.Covers k e) :
    c.Settled a n.state.currentTerm ((a.log i).take n.state.commitIndex) ∧
      ((a.log i).take n.state.commitIndex)[k - 1]? = some e := by
  obtain ⟨h0, hk, hget⟩ := he
  refine ⟨h.sound.committed, ?_⟩
  rw [List.getElem?_take_of_lt (by omega), h.sound.log.full]
  exact hget

/-- Two settled sequences have the same entry at an index. -/
theorem settled_entry (hs : Sane c a) {b b' : Nat} {x y : List LogEntry} {f : LogEntry}
    (hx : c.Settled a b x) (hy : c.Settled a b' y) (he : x[k]? = some e) (hf : y[k]? = some f) :
    e = f := by
  rcases Consensus.settled_comparable hs.inv hx hy with hxy | hyx
  · exact Option.some.inj ((getElem?_of_isPrefix hxy he).symm.trans hf)
  · exact Option.some.inj (he.symm.trans (getElem?_of_isPrefix hyx hf))

/-- **State-machine safety.** However messages, timeouts, proposals, snapshots and
crashes are ordered, two entries applied at one index are the same entry, and so are two
entries that commit indices cover at one index, at the same or at different times. -/
theorem state_machine_safety (h : Run c (AtomicStep c) c.initial w)
    (h' : Run c (AtomicStep c) w w') :
    (∀ i j e f, (i, e) ∈ w'.applied → (j, f) ∈ w'.applied → e.index = f.index → e = f) ∧
      ∀ i ∈ c.members, ∀ j ∈ c.members, ∀ k e f,
        (w.nodes i).Covers k e → (w'.nodes j).Covers k f → e = f := by
  obtain ⟨a, ha, _⟩ := (refines_initial c).run h.safe
  obtain ⟨a', ha', hext⟩ := ha.run h'.safe
  refine ⟨fun i j e f he hf hidx => ?_, fun i hi j hj k e f he hf => ?_⟩
  · obtain ⟨b, x, k, hx, hk, hek⟩ := ha'.applied _ he
    obtain ⟨b', y, k', hy, hk', hfk⟩ := ha'.applied _ hf
    obtain rfl : k = k' := by
      dsimp only at hek hfk
      omega
    exact settled_entry ha'.sane hx hy hk hk'
  · obtain ⟨hx, hk⟩ := (ha.nodes i hi).covers he
    obtain ⟨hy, hk'⟩ := (ha'.nodes j hj).covers hf
    exact settled_entry ha'.sane (hx.mono hext (Nat.le_refl _)) hy hk hk'

def deliver (dst : NodeId) (msg : Message) : Label :=
  .event dst (.message { dst, msg } 0 []) fun _ => none

def firstEntry : LogEntry := ⟨1, 1, [7]⟩

/-- Node 1 is elected, and both nodes apply its first entry. -/
def commitFirst : List Label :=
  [ .event 1 .electionTimeout fun _ => none,
    deliver 2 (.requestVote ⟨1, 1, 0, 0⟩),
    deliver 1 (.requestVoteResp ⟨1, true, 2⟩),
    .event 1 (.propose [7]) fun _ => none,
    deliver 2 (.appendEntries ⟨1, 1, 0, 0, [firstEntry], 0⟩),
    deliver 1 (.appendEntriesResp ⟨1, true, 2, 1⟩),
    .event 1 .heartbeatTick fun _ => none,
    deliver 2 (.appendEntries ⟨1, 1, 1, 1, [], 1⟩) ]

theorem commitFirst_runs : (pair.initial.run pair commitFirst).isSome = true := by decide

def committedFirst : World := (pair.initial.run pair commitFirst).get commitFirst_runs

theorem state_machine_safety_pair :
    Run pair (AtomicStep pair) pair.initial committedFirst ∧
      committedFirst.applied = [(2, firstEntry), (1, firstEntry)] ∧
      (committedFirst.nodes 1).Covers 1 firstEntry ∧
      ∀ f, (committedFirst.nodes 2).Covers 1 f → firstEntry = f := by
  have hrun : Run pair (AtomicStep pair) pair.initial committedFirst :=
    .of_labels (Option.some_get commitFirst_runs).symm (by decide)
  have hcov : (committedFirst.nodes 1).Covers 1 firstEntry := by decide
  exact ⟨hrun, by decide, hcov, fun f hf =>
    (state_machine_safety hrun .refl).2 1 (by decide) 2 (by decide) 1 firstEntry f hcov hf⟩

/-- **Leader completeness.** Once a commit index has covered an entry, every leader from
then on whose term is not lower than that node's was has the entry, in its log or behind
its snapshot. -/
theorem leader_completeness (h : Run c (AtomicStep c) c.initial w)
    (h' : Run c (AtomicStep c) w w') {i j : NodeId} (hi : i ∈ c.members) (hj : j ∈ c.members)
    {k : Nat} {e : LogEntry} (he : (w.nodes i).Covers k e)
    (hr : (w'.nodes j).state.role = .leader)
    (ht : (w.nodes i).state.currentTerm ≤ (w'.nodes j).state.currentTerm) :
    (k ≤ (w'.nodes j).state.log.baseIndex ∧ (w'.nodes j).disk.folded[k - 1]? = some e) ∨
      (w'.nodes j).state.log.get k = some e := by
  obtain ⟨a, ha, _⟩ := (refines_initial c).run h.safe
  obtain ⟨a', ha', hext⟩ := ha.run h'.safe
  obtain ⟨hx, hk⟩ := (ha.nodes i hi).covers he
  have hsound := (ha'.nodes j hj).sound
  obtain ⟨l, hl⟩ := (hsound.leader hr).elected
  have hlead := Consensus.settled_lead ha'.sane.inv (hx.mono hext (Nat.le_refl _)) ht
    (by rw [hl]; exact Option.some_ne_none _)
  rw [← hsound.own_log ha'.sane hr] at hlead
  have hlog := getElem?_of_isPrefix hlead hk
  by_cases hb : k ≤ (w'.nodes j).state.log.baseIndex
  · refine .inl ⟨hb, ?_⟩
    rw [← hsound.log.take_base, List.getElem?_take_of_lt (by have := he.1; omega)]
    exact hlog
  · right
    rw [hsound.log.get_eq (by omega)]
    exact hlog

/-- Node 2 takes over. -/
def takeOver : List Label :=
  [ .event 2 .electionTimeout fun _ => none,
    deliver 1 (.requestVote ⟨2, 2, 1, 1⟩),
    deliver 2 (.requestVoteResp ⟨2, true, 1⟩) ]

theorem takeOver_runs : (committedFirst.run pair takeOver).isSome = true := by decide

def tookOver : World := (committedFirst.run pair takeOver).get takeOver_runs

theorem leader_completeness_pair :
    Run pair (AtomicStep pair) pair.initial committedFirst ∧
      Run pair (AtomicStep pair) committedFirst tookOver ∧
      (committedFirst.nodes 1).Covers 1 firstEntry ∧
      (tookOver.nodes 2).state.role = .leader ∧
      (committedFirst.nodes 1).state.currentTerm < (tookOver.nodes 2).state.currentTerm ∧
      ((1 ≤ (tookOver.nodes 2).state.log.baseIndex ∧
          (tookOver.nodes 2).disk.folded[1 - 1]? = some firstEntry) ∨
        (tookOver.nodes 2).state.log.get 1 = some firstEntry) := by
  have hrun : Run pair (AtomicStep pair) pair.initial committedFirst :=
    .of_labels (Option.some_get commitFirst_runs).symm (by decide)
  have hrun' : Run pair (AtomicStep pair) committedFirst tookOver :=
    .of_labels (Option.some_get takeOver_runs).symm (by decide)
  have hcov : (committedFirst.nodes 1).Covers 1 firstEntry := by decide
  have hrole : (tookOver.nodes 2).state.role = .leader := by decide
  have hterm : (committedFirst.nodes 1).state.currentTerm <
      (tookOver.nodes 2).state.currentTerm := by decide
  exact ⟨hrun, hrun', hcov, hrole, hterm, leader_completeness hrun hrun' (by decide) (by decide)
    hcov hrole (Nat.le_of_lt hterm)⟩

end EventStream.Raft
