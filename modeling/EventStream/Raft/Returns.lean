import EventStream.Raft.Mirror

/-! A node that is told anything keeps running.

No index overflows and no slice is out of range as long as the indices in the messages are below
`2 ^ 63` and the entries ever added are fewer than that. `Fits` bounds the indices a node works
with; a handler moves the bound by the entries it is given, and one more. -/
namespace EventStream.Raft

/-! ### The log -/

namespace Log
variable {log : Log} {es : List LogEntry}

theorem Counted.sliceBounded_returns (h : log.Counted) (start maxEntries maxBytes : Nat) :
    ∃ es, log.sliceBounded start maxEntries maxBytes = some es := by
  have hlast := h.lastIndex_eq
  unfold sliceBounded
  split
  · exact ⟨_, rfl⟩
  · rename_i first hf
    have hfirst := h.head_index hf
    split
    · exact ⟨_, rfl⟩
    · dsimp only
      split
      · exact ⟨_, rfl⟩
      · rename_i hle
        rw [if_pos (by omega)]
        exact ⟨_, rfl⟩

end Log

/-! ### The handlers -/

/-- The indices a node works with are at most `bound`. -/
structure Fits (bound : Nat) (s : RaftState) : Prop where
  last : s.log.lastIndex ≤ bound
  matched : ∀ p m, s.matchIndex p = some m → m ≤ bound

theorem mapM_returns {α β : Type} {f : α → Option β} (h : ∀ x, ∃ y, f x = some y) (l : List α) :
    ∃ ys, l.mapM f = some ys := by
  induction l with
  | nil => exact ⟨[], rfl⟩
  | cons x l ih =>
    obtain ⟨y, hy⟩ := h x
    obtain ⟨ys, hys⟩ := ih
    rw [List.mapM_cons, hy, hys]
    exact ⟨_, rfl⟩

section
variable {d : PersistedRaft} {s s' : RaftState} {bound index : Nat} {ae : AppendEntries}
    {is : InstallSnapshot}

theorem Fits.mono (h : Fits bound s) {bound' : Nat} (hle : bound ≤ bound') : Fits bound' s :=
  ⟨Nat.le_trans h.last hle, fun p m hm => Nat.le_trans (h.matched p m hm) hle⟩

theorem Log.Counted.replicateTo_returns (h : s.log.Counted) (peer : NodeId) :
    ∃ act, s.replicateTo peer = some act := by
  unfold RaftState.replicateTo
  split
  · exact ⟨_, rfl⟩
  · obtain ⟨es, hes⟩ :=
      h.sliceBounded_returns ((s.nextIndex peer).getD 1) maxAppendEntries maxAppendBytes
    unfold RaftState.buildAppendFor
    dsimp only
    rw [hes]
    exact ⟨_, rfl⟩

theorem Log.Counted.heartbeat_returns (h : s.log.Counted) :
    ∃ acts, s.onHeartbeatTick = some acts := by
  unfold RaftState.onHeartbeatTick
  split
  · exact ⟨_, rfl⟩
  · exact mapM_returns h.replicateTo_returns _

section
variable (h : Fits bound s)
include h

theorem Fits.drain : Fits bound s.drainApplyActions.1 := by
  have hregrouped := s.drainApplyActions_regrouped.1
  refine ⟨hregrouped.alike.log ▸ h.last, fun p m hm => ?_⟩
  rcases hregrouped.matched p m hm with hm | rfl
  · exact h.matched p m hm
  · exact Nat.zero_le _

theorem Fits.appendLocal {payload : Bytes} (ha : s.appendLocal payload = some (s', index)) :
    Fits (bound + 1) s' := by
  obtain ⟨next, hnext, ha⟩ := Option.bind_eq_some_iff.mp ha
  obtain ⟨rfl, -⟩ := addU64_eq_some.mp hnext
  cases ha
  refine ⟨?_, (h.mono (Nat.le_succ bound)).matched⟩
  simp only [Log.lastIndex, List.getLast?_append, List.getLast?_singleton]
  exact Nat.succ_le_succ h.last

theorem Fits.appendLocal_returns (hb : bound < u64Max) (payload : Bytes) :
    ∃ r, s.appendLocal payload = some r := by
  have hlast := h.last
  unfold RaftState.appendLocal
  rw [addU64_eq_some.mpr ⟨rfl, by omega⟩]
  exact ⟨_, rfl⟩

theorem Fits.becomeLeader_returns (hb : bound + 1 < u64Max) :
    ∃ s', s.becomeLeader = some s' ∧ Fits (bound + 1) s' := by
  have hlead : Fits bound s.takeLead := ⟨h.last, nofun⟩
  have hnoop : ∃ s₁, s.takeLead.electNoop = some s₁ ∧ Fits (bound + 1) s₁ := by
    unfold RaftState.electNoop
    split
    · obtain ⟨⟨s₁, index⟩, happend⟩ := hlead.appendLocal_returns (by omega) []
      rw [happend]
      exact ⟨s₁, rfl, hlead.appendLocal happend⟩
    · exact ⟨_, rfl, hlead.mono (Nat.le_succ bound)⟩
  obtain ⟨s₁, hs₁, hfits₁⟩ := hnoop
  have htrack : ∃ s₂, s₁.trackPeers = some s₂ ∧ Fits (bound + 1) s₂ := by
    have hlast := hfits₁.last
    unfold RaftState.trackPeers
    split
    · exact ⟨_, rfl, hfits₁.last, hfits₁.matched⟩
    · rw [addU64_eq_some.mpr ⟨rfl, by omega⟩]
      refine ⟨_, rfl, hfits₁.last, fun p m hm => ?_⟩
      dsimp only at hm
      split at hm
      · cases hm
        omega
      · exact hfits₁.matched p m hm
  obtain ⟨s₂, hs₂, hfits₂⟩ := htrack
  obtain ⟨c, hc⟩ := s₂.recomputeCommitIndex_eq
  unfold RaftState.becomeLeader
  rw [hs₁, Option.bind_eq_bind, Option.bind_some, hs₂, Option.bind_some, hc]
  exact ⟨_, rfl, hfits₂.last, hfits₂.matched⟩

theorem Fits.stand : Fits bound s.stand := ⟨h.last, h.matched⟩

end

theorem Fits.startElection_returns (hm : Mirrors d s) (h : Fits bound s) (hb : bound + 1 < u64Max) :
    ∃ r, s.startElection = some r ∧ Fits (bound + 1) r.1 := by
  unfold RaftState.startElection
  dsimp only
  split
  · obtain ⟨s₁, hlead, hfits⟩ := h.stand.becomeLeader_returns hb
    obtain ⟨acts, hacts⟩ := (hm.stand.becomeLeader hlead).counted.heartbeat_returns
    rw [hlead, Option.bind_eq_bind, Option.bind_some, hacts]
    exact ⟨_, rfl, hfits.drain⟩
  · exact ⟨_, rfl, h.stand.mono (Nat.le_succ bound)⟩

theorem Fits.stepDownTo (h : Fits bound s) (term : Nat) : Fits bound (s.stepDownTo term) := by
  unfold RaftState.stepDownTo
  dsimp only
  split <;> exact ⟨h.last, nofun⟩

theorem Fits.acceptLeader (h : Fits bound s) (term : Nat) (leader : NodeId) :
    Fits bound (s.acceptLeader term leader) := by
  unfold RaftState.acceptLeader
  dsimp only
  split <;> exact ⟨h.last, h.matched⟩

theorem Fits.requestVote (h : Fits bound s) (rv : RequestVote) :
    Fits bound (s.handleRequestVote rv).1 := by
  unfold RaftState.handleRequestVote
  dsimp only
  split <;> exact ⟨h.last, h.matched⟩

theorem Fits.requestVoteResp_returns (hm : Mirrors d s) (h : Fits bound s) (hb : bound + 1 < u64Max)
    (rvr : RequestVoteResp) : ∃ r, s.handleRequestVoteResp rvr = some r ∧ Fits (bound + 1) r.1 := by
  have hsame := h.mono (Nat.le_succ bound)
  unfold RaftState.handleRequestVoteResp
  split
  · exact ⟨_, rfl, hsame⟩
  · split
    · dsimp only
      split
      · have hvotes : Mirrors d
            {s with votesReceived := s.votesReceived.insert rvr.voterId} := hm.congr rfl
        have hfits : Fits bound
            {s with votesReceived := s.votesReceived.insert rvr.voterId} := ⟨h.last, h.matched⟩
        obtain ⟨s₁, hlead, hfits₁⟩ := hfits.becomeLeader_returns hb
        obtain ⟨acts, hacts⟩ := (hvotes.becomeLeader hlead).counted.heartbeat_returns
        rw [hlead, Option.bind_eq_bind, Option.bind_some, hacts]
        exact ⟨_, rfl, hfits₁⟩
      · exact ⟨_, rfl, hsame.last, hsame.matched⟩
    · exact ⟨_, rfl, hsame⟩

/-- The log grows by the entries of a request at most. -/
theorem Log.Counted.appendFrom_returns (h : s.log.Counted)
    (hroom : s.log.lastIndex + ae.entries.length + 1 < u64Max)
    (hprev : ae.prevLogIndex ≤ s.log.lastIndex) :
    ∃ r, s.appendFrom ae = some r ∧
      r.1.log.lastIndex ≤ s.log.lastIndex + ae.entries.length ∧ r.1.matchIndex = s.matchIndex := by
  unfold RaftState.appendFrom
  split
  · exact ⟨_, rfl, Nat.le_add_right _ _, rfl⟩
  · have hstart : satAdd ae.prevLogIndex 1 + ae.entries.length ≤ u64Max := by
      rw [satAdd_of_le (by omega)]
      omega
    obtain ⟨r, hr⟩ := h.appendAt_returns s.commitIndex hstart (by omega)
    rw [hr, Option.bind_eq_bind, Option.bind_some]
    split
    · refine ⟨_, rfl, ?_, rfl⟩
      rw [Log.appendAt_same hr nofun]
      exact Nat.le_add_right _ _
    · refine ⟨_, rfl, ?_, rfl⟩
      rw [Log.appendAt_same hr nofun]
      exact Nat.le_add_right _ _
    · obtain ⟨kept, out, hkept, rfl, hnum, hne, hlen, rfl⟩ := h.appendAt_eq hr
      have hnew := h.replace hkept hnum
      have hnewLast := hnew.lastIndex_eq
      have holdLast := h.lastIndex_eq
      have hkeptLen := hkept.length_le
      dsimp only at hnew hnewLast
      rw [List.length_append] at hnewLast
      rw [hnew.slice_eq rfl hne (by omega)]
      refine ⟨_, rfl, ?_, rfl⟩
      dsimp only
      omega

/-- What is consistent with the log does not start behind it. -/
theorem RaftState.consistent_le (hcounted : s.log.Counted) (h : s.consistent ae = true) :
    ae.prevLogIndex ≤ s.log.lastIndex := by
  unfold RaftState.consistent at h
  split at h
  · omega
  · split at h
    · have := hcounted.lastIndex_eq
      omega
    · exact hcounted.termAt_le (beq_iff_eq.mp h)

theorem Log.Counted.appendEntries_returns (h : s.log.Counted)
    (hroom : s.log.lastIndex + ae.entries.length + 1 < u64Max) :
    ∃ r, s.handleAppendEntries ae = some r ∧
      r.1.log.lastIndex ≤ s.log.lastIndex + ae.entries.length ∧ r.1.matchIndex = s.matchIndex := by
  unfold RaftState.handleAppendEntries
  dsimp only
  split
  · exact ⟨_, rfl, Nat.le_add_right _ _, rfl⟩
  · have hlog := (s.alike_acceptLeader ae.term ae.leaderId).log
    have hmatch : (s.acceptLeader ae.term ae.leaderId).matchIndex = s.matchIndex := by
      unfold RaftState.acceptLeader
      dsimp only
      split <;> rfl
    have htake : ∃ r, (s.acceptLeader ae.term ae.leaderId).takeEntries ae = some r ∧
        r.1.log.lastIndex ≤ s.log.lastIndex + ae.entries.length ∧
        r.1.matchIndex = s.matchIndex := by
      rw [← hlog] at h hroom ⊢
      rw [← hmatch]
      unfold RaftState.takeEntries
      split
      · exact h.appendFrom_returns hroom (RaftState.consistent_le h ‹_›)
      · exact ⟨_, rfl, Nat.le_add_right _ _, rfl⟩
    obtain ⟨⟨s₁, took⟩, htook, hlast, hmatched⟩ := htake
    rw [htook]
    refine ⟨_, rfl, ?_⟩
    cases took with
    | true =>
      dsimp only
      rw [if_pos rfl]
      dsimp only
      split <;> exact ⟨hlast, hmatched⟩
    | false => exact ⟨hlast, hmatched⟩

theorem Fits.appendEntries_returns (hcounted : s.log.Counted) (h : Fits bound s)
    (hb : bound + ae.entries.length + 1 < u64Max) :
    ∃ r, s.handleAppendEntries ae = some r ∧ Fits (bound + ae.entries.length) r.1 := by
  have hlast := h.last
  have hroom : s.log.lastIndex + ae.entries.length + 1 < u64Max := by omega
  obtain ⟨r, hr, hgrown, hmatched⟩ := hcounted.appendEntries_returns hroom
  refine ⟨r, hr, by omega, fun p m hm => ?_⟩
  rw [hmatched] at hm
  exact Nat.le_trans (h.matched p m hm) (Nat.le_add_right _ _)

theorem Fits.setMatch (h : Fits bound s) (peer : NodeId) (hi : index ≤ bound) :
    Fits bound (s.setMatch peer index) := by
  refine ⟨h.last, fun p m hm => ?_⟩
  change Function.update s.matchIndex peer (some index) p = some m at hm
  by_cases hp : p = peer
  · subst hp
    rw [Function.update_self] at hm
    cases hm
    exact hi
  · rw [Function.update_of_ne hp] at hm
    exact h.matched p m hm

section
variable (hcounted : s.log.Counted)
include hcounted

/-- The leader looks at its commit index and may send more. -/
theorem Fits.followUp_returns (h : Fits bound s) (peer : NodeId) (more : RaftState → Prop)
    [DecidablePred more] :
    ∃ r, (do
      let s ← s.recomputeCommitIndex
      if more s then
        let a ← s.replicateTo peer
        some (s, [a])
      else some (s, [])) = some r ∧ Fits bound r.1 := by
  obtain ⟨c, hc⟩ := s.recomputeCommitIndex_eq
  have hfits : Fits bound {s with commitIndex := c} := ⟨h.last, h.matched⟩
  rw [hc, Option.bind_eq_bind, Option.bind_some]
  split
  · obtain ⟨act, hact⟩ :=
      Log.Counted.replicateTo_returns (s := {s with commitIndex := c}) hcounted peer
    rw [hact]
    exact ⟨_, rfl, hfits⟩
  · exact ⟨_, rfl, hfits⟩

theorem Fits.appendEntriesResp_returns (h : Fits bound s) (aer : AppendEntriesResp) :
    ∃ r, s.handleAppendEntriesResp aer = some r ∧ Fits bound r.1 := by
  unfold RaftState.handleAppendEntriesResp
  split
  · exact ⟨_, rfl, h⟩
  · dsimp only
    split
    · have hmatch : Fits bound (if (s.matchIndex aer.responderId).getD 0 <
          min aer.matchIndex s.log.lastIndex then
          s.setMatch aer.responderId (min aer.matchIndex s.log.lastIndex) else s) := by
        split
        · exact h.setMatch _ (Nat.le_trans (Nat.min_le_right _ _) h.last)
        · exact h
      refine Fits.followUp_returns ?_ ?_ aer.responderId (fun s₁ => _ < s₁.log.lastIndex)
      · show Log.Counted (if _ then _ else _ : RaftState).log
        split <;> exact hcounted
      · exact ⟨hmatch.last, hmatch.matched⟩
    · obtain ⟨act, hact⟩ := Log.Counted.replicateTo_returns
        (s := s.setNext aer.responderId (max (min ((s.nextIndex aer.responderId).getD 1 - 1)
          (satAdd aer.matchIndex 1)) 1)) hcounted aer.responderId
      rw [hact]
      exact ⟨_, rfl, h.last, h.matched⟩

theorem Fits.installSnapshotResp_returns (h : Fits bound s) (hb : bound < u64Max)
    (isr : InstallSnapshotResp) :
    ∃ r, s.handleInstallSnapshotResp isr = some r ∧ Fits bound r.1 := by
  unfold RaftState.handleInstallSnapshotResp
  split
  · exact ⟨_, rfl, h⟩
  · dsimp only
    split
    · exact ⟨_, rfl, h⟩
    · split
      · have hmi : max ((s.matchIndex isr.responderId).getD 0)
            (min isr.installedIndex s.log.lastIndex) ≤ bound := by
          refine Nat.max_le.mpr ⟨?_, Nat.le_trans (Nat.min_le_right _ _) h.last⟩
          cases hm : s.matchIndex isr.responderId with
          | none => exact Nat.zero_le _
          | some m => exact h.matched _ m hm
        rw [addU64_eq_some.mpr ⟨rfl, by omega⟩, Option.bind_eq_bind, Option.bind_some]
        have hset := h.setMatch isr.responderId hmi
        refine Fits.followUp_returns ?_ ?_ isr.responderId
          (fun s₁ => _ < s₁.log.lastIndex ∨ _ < s₁.log.baseIndex)
        · exact hcounted
        · exact ⟨hset.last, hset.matched⟩
      · exact ⟨_, rfl, h.last, h.matched⟩

end

theorem Log.Counted.compactThrough_last {log : Log} (h : log.Counted) {cut : Nat}
    (hc : log.baseIndex < cut) (hmax : cut < u64Max) (term : Nat) :
    (log.compactThrough cut term).lastIndex = max cut log.lastIndex := by
  rw [(h.compactThrough hc hmax term).lastIndex_eq, h.lastIndex_eq, Log.compactThrough_base hc,
    h.compactThrough_entries hc hmax, List.length_drop]
  omega

theorem Fits.install (hcounted : s.log.Counted) (h : Fits bound s) (hb : bound < u64Max)
    (hi : is.lastIndex ≤ bound) : Fits bound (s.install is) := by
  unfold RaftState.install Log.installSnapshot
  dsimp only
  split
  · rename_i hlt
    split
    · refine ⟨?_, h.matched⟩
      show (s.log.compactThrough is.lastIndex is.lastTerm).lastIndex ≤ bound
      rw [hcounted.compactThrough_last hlt (by omega)]
      exact Nat.max_le.mpr ⟨hi, h.last⟩
    · exact ⟨hi, h.matched⟩
  · exact ⟨h.last, h.matched⟩

theorem Fits.installSnapshot (hm : Mirrors d s) (h : Fits bound s) (hb : bound < u64Max)
    (hi : is.lastIndex ≤ bound) (progress : Nat) :
    Fits bound (s.handleInstallSnapshot is progress).1 := by
  unfold RaftState.handleInstallSnapshot
  dsimp only
  split
  · exact h
  · have haccept := h.acceptLeader is.term is.leaderId
    split
    · exact haccept.install (hm.acceptLeader is.term is.leaderId).counted hb hi
    · exact haccept

end

/-! ### Inputs -/

/-- The indices in a message are below `2 ^ 63`. -/
def Message.Small : Message → Prop
  | .requestVote rv => rv.lastLogIndex < 2 ^ 63
  | .requestVoteResp _ => True
  | .appendEntries ae =>
    ae.prevLogIndex < 2 ^ 63 ∧ ae.leaderCommit < 2 ^ 63 ∧ ∀ e ∈ ae.entries, e.index < 2 ^ 63
  | .appendEntriesResp aer => aer.matchIndex < 2 ^ 63
  | .installSnapshot is => is.lastIndex < 2 ^ 63
  | .installSnapshotResp isr => isr.installedIndex < 2 ^ 63

/-- A snapshot ends at or below `bound`. -/
def Message.SnapshotTo (bound : Nat) : Message → Prop
  | .installSnapshot is => is.lastIndex ≤ bound
  | _ => True

/-- How many entries a message can add: those it brings, or the one of an election that a vote
decides. -/
def Message.size : Message → Nat
  | .appendEntries ae => ae.entries.length
  | .requestVoteResp _ => 1
  | _ => 0

def Input.Small : Input → Prop
  | .message msg _ => msg.Small
  | _ => True

def Input.SnapshotTo (bound : Nat) : Input → Prop
  | .message msg _ => msg.SnapshotTo bound
  | _ => True

variable {bound : Nat} {input : Input}

theorem Input.Small.snapshotTo (h : input.Small) (hlarge : 2 ^ 63 ≤ bound) :
    input.SnapshotTo bound := by
  cases input with
  | message msg progress =>
    cases msg with
    | installSnapshot is => exact Nat.le_trans (Nat.le_of_lt h) hlarge
    | _ => trivial
  | _ => trivial

theorem Input.SnapshotTo.mono {bound' : Nat} (h : input.SnapshotTo bound) (hle : bound ≤ bound') :
    input.SnapshotTo bound' := by
  cases input with
  | message msg progress =>
    cases msg with
    | installSnapshot is => exact Nat.le_trans h hle
    | _ => trivial
  | _ => trivial

/-- How many entries an input can add. -/
def Input.size : Input → Nat
  | .message msg _ => msg.size
  | .electionTimeout | .propose _ | .changeMembership _ _ => 1
  | .heartbeatTick | .takeSnapshot _ _ => 0

section
variable {d : PersistedRaft} {s s' : RaftState} {bound : Nat} {msg : Message}

theorem Fits.dispatch_returns (hm : Mirrors d s) (h : Fits bound s) (hsnap : msg.SnapshotTo bound)
    (hb : bound + msg.size + 1 < u64Max) (progress : Nat) :
    ∃ r, s.dispatch progress msg = some r ∧ Fits (bound + msg.size) r.1 := by
  have hgrow : ∀ {r : RaftState}, Fits bound r → Fits (bound + msg.size) r :=
    fun hr => hr.mono (Nat.le_add_right _ _)
  cases msg with
  | requestVote rv => exact ⟨_, rfl, hgrow (h.requestVote rv)⟩
  | requestVoteResp rvr =>
    exact h.requestVoteResp_returns hm (Nat.lt_of_succ_lt hb) rvr
  | appendEntries ae =>
    exact h.appendEntries_returns hm.counted hb
  | appendEntriesResp aer =>
    obtain ⟨r, hr, hfits⟩ := h.appendEntriesResp_returns hm.counted aer
    exact ⟨r, hr, hgrow hfits⟩
  | installSnapshot is =>
    exact ⟨_, rfl, hgrow (h.installSnapshot hm (by omega) hsnap progress)⟩
  | installSnapshotResp isr =>
    obtain ⟨r, hr, hfits⟩ := h.installSnapshotResp_returns hm.counted (by omega) isr
    exact ⟨r, hr, hgrow hfits⟩

theorem Fits.message_returns (hm : Mirrors d s) (h : Fits bound s) (hsnap : msg.SnapshotTo bound)
    (hb : bound + msg.size + 1 < u64Max) (progress : Nat) :
    ∃ r, s.onMessageWithProgress msg progress = some r ∧ Fits (bound + msg.size) r.1 := by
  unfold RaftState.onMessageWithProgress
  split
  · exact ⟨_, rfl, h.mono (Nat.le_add_right _ _)⟩
  · have hdown : Mirrors d (if s.currentTerm < msg.term then s.stepDownTo msg.term else s) ∧
        Fits bound (if s.currentTerm < msg.term then s.stepDownTo msg.term else s) := by
      split
      · exact ⟨hm.stepDownTo _, h.stepDownTo _⟩
      · exact ⟨hm, h⟩
    obtain ⟨r, hr, hfits⟩ := hdown.2.dispatch_returns hdown.1 hsnap hb progress
    simp only [decide_eq_true_eq]
    rw [hr]
    exact ⟨_, rfl, hfits.drain⟩

theorem Fits.propose_returns (h : Fits bound s) (hb : bound < u64Max) (payload : Bytes) :
    ∃ r, s.tryPropose payload = some r ∧ Fits (bound + 1) r.1 := by
  unfold RaftState.tryPropose
  split
  · exact ⟨_, rfl, h.mono (Nat.le_succ bound)⟩
  · obtain ⟨⟨s₁, index⟩, happend⟩ := h.appendLocal_returns hb payload
    have hfits := h.appendLocal happend
    obtain ⟨c, hc⟩ := s₁.recomputeCommitIndex_eq
    rw [happend, Option.bind_eq_bind, Option.bind_some]
    dsimp only
    rw [hc]
    exact ⟨_, rfl, Fits.drain (s := {s₁ with commitIndex := c}) ⟨hfits.last, hfits.matched⟩⟩

theorem Fits.takeSnapshot (hm : Mirrors d s) (h : Fits bound s) (hb : bound < u64Max)
    {data : Bytes} {through : Option Nat} {snap : PersistedSnapshot}
    (ht : s.takeSnapshot data through = .ok (s', snap)) : Fits bound s' := by
  have hlast := h.last
  unfold RaftState.takeSnapshot at ht
  dsimp only at ht
  split at ht
  · cases ht
  · rename_i hnew
    split at ht
    · cases ht
    · rename_i term hterm
      cases ht
      have hle := hm.counted.termAt_le hterm
      refine ⟨?_, h.matched⟩
      dsimp only
      rw [hm.counted.compactThrough_last (by omega) (by omega)]
      omega

/-- No input stops a node, and it adds no more entries than its size. -/
theorem Fits.handle_returns (hm : Mirrors d s) (h : Fits bound s) (hsnap : input.SnapshotTo bound)
    (hb : bound + input.size + 1 < u64Max) :
    ∃ s', s.handle input = some s' ∧ Fits (bound + input.size) s' := by
  have hsame : Fits (bound + input.size) s := h.mono (Nat.le_add_right _ _)
  cases input with
  | electionTimeout =>
    unfold RaftState.handle RaftState.onElectionTimeout
    dsimp only
    split
    · exact ⟨_, rfl, hsame⟩
    · obtain ⟨r, hr, hfits⟩ := h.startElection_returns hm (Nat.lt_of_succ_lt hb)
      rw [hr]
      exact ⟨_, rfl, hfits⟩
  | heartbeatTick =>
    obtain ⟨acts, hacts⟩ := hm.counted.heartbeat_returns
    exact ⟨s, by rw [RaftState.handle, hacts]; rfl, hsame⟩
  | message msg progress =>
    obtain ⟨r, hr, hfits⟩ := h.message_returns hm hsnap hb progress
    exact ⟨r.1, by rw [RaftState.handle, hr]; rfl, hfits⟩
  | propose payload =>
    obtain ⟨r, hr, hfits⟩ := h.propose_returns (by omega) payload
    exact ⟨r.1, by rw [RaftState.handle, hr]; rfl, hfits⟩
  | changeMembership add remove =>
    unfold RaftState.handle RaftState.tryChangeMembership
    dsimp only
    split
    · exact ⟨_, rfl, hsame⟩
    · obtain ⟨r, hr, hfits⟩ := h.propose_returns (by omega) (encodeConfigChange add remove)
      rw [hr]
      exact ⟨_, rfl, hfits⟩
  | takeSnapshot data through =>
    unfold RaftState.handle
    dsimp only
    split
    · exact ⟨_, rfl, hsame⟩
    · rename_i s₁ snap htake
      exact ⟨_, rfl, h.takeSnapshot hm (by omega) htake⟩

end

/-! ### A node with its store -/

structure Backed where
  state : RaftState
  stored : PersistedRaft

inductive BackedEvent where
  | input (i : Input)
  /-- The driver takes the pending operations and makes them durable. -/
  | drain
  deriving DecidableEq, Repr

def BackedEvent.Small : BackedEvent → Prop
  | .input i => i.Small
  | .drain => True

def BackedEvent.size : BackedEvent → Nat
  | .input i => i.size
  | .drain => 0

namespace Backed

def drain (b : Backed) : Backed :=
  ⟨{b.state with pending := []}, b.stored.persist b.state.pending⟩

/-- Runs end before a log reaches the last index of a `u64`. -/
def step (b : Backed) : BackedEvent → Option Backed
  | .input i => do
    let state ← b.state.handle i
    if state.log.lastIndex < u64Max then some { b with state } else none
  | .drain => some b.drain

def run (b : Backed) (events : List BackedEvent) : Option Backed := events.foldlM step b

/-- A node as a process starts with it: a new one, or one restored from a store that `load` did
not refuse. -/
inductive Started : Backed → Prop where
  | new (me : NodeId) (peers : List NodeId) (noopOnElect : Bool) :
    Started ⟨fresh me peers noopOnElect, {}⟩
  | restored {me : NodeId} {peers : List NodeId} {noopOnElect : Bool} {stored : PersistedRaft}
    {snapshot : Option PersistedSnapshot} {state : RaftState} (hload : contiguous stored.log)
    (hsnapshot : ∀ p ∈ snapshot, p.lastIndex < u64Max)
    (hrestore : (fresh me peers noopOnElect).restore stored snapshot = some (.ok state))
    (hlast : state.log.lastIndex < u64Max) : Started ⟨state, stored⟩

structure Sound (b : Backed) : Prop where
  mirrors : Mirrors b.stored b.state
  last : b.state.log.lastIndex < u64Max

variable {b : Backed} {events : List BackedEvent}

theorem Started.sound (h : b.Started) : b.Sound := by
  cases h with
  | new me peers noopOnElect =>
    exact ⟨Mirrors.fresh me peers noopOnElect, show 0 < u64Max by decide⟩
  | restored hload hsnapshot hrestore hlast =>
    exact ⟨Mirrors.restored hrestore hload hsnapshot, hlast⟩

theorem Started.fits (h : b.Started) (hlast : b.state.log.lastIndex ≤ bound) :
    Fits bound b.state := by
  refine ⟨hlast, ?_⟩
  cases h with
  | new => nofun
  | @restored _ _ _ _ snapshot _ _ _ hrestore _ =>
    cases snapshot with
    | none =>
      obtain ⟨rfl, -⟩ := Mirrors.checkStart hrestore
      nofun
    | some snap =>
      obtain ⟨rfl, -⟩ := Mirrors.checkStart hrestore
      nofun

theorem Sound.drain (h : b.Sound) : b.drain.Sound :=
  ⟨⟨h.mirrors.synced, h.mirrors.counted⟩, h.last⟩

theorem Sound.step {b b' : Backed} {e : BackedEvent} (h : b.Sound) (hsmall : e.Small)
    (hs : b.step e = some b') : b'.Sound := by
  cases e with
  | input i =>
    obtain ⟨state, hhandle, hif⟩ := Option.bind_eq_some_iff.mp hs
    obtain ⟨hmax, hset⟩ := Option.ite_none_right_eq_some.mp hif
    cases hset
    refine ⟨h.mirrors.handle hhandle h.last hmax fun is progress heq => ?_, hmax⟩
    subst heq
    exact Nat.lt_trans (show is.lastIndex < 2 ^ 63 from hsmall) (by decide)
  | drain =>
    cases hs
    exact h.drain

theorem Sound.run {b' : Backed} (h : b.Sound) (hsmall : ∀ e ∈ events, e.Small)
    (hrun : b.run events = some b') : b'.Sound :=
  foldlM_keeps (fun e he _ _ h hs => h.step (hsmall e he) hs) h hrun

/-- The run goes to its end as long as the entries it adds leave room. -/
theorem Sound.run_returns (h : b.Sound) (hfits : Fits bound b.state) (hlarge : 2 ^ 63 ≤ bound)
    (hsmall : ∀ e ∈ events, e.Small) (hb : bound + (events.map BackedEvent.size).sum + 1 < u64Max) :
    (b.run events).isSome := by
  induction events generalizing b bound with
  | nil => rfl
  | cons e events ih =>
    rw [List.map_cons, List.sum_cons] at hb
    have hstep : ∃ b', b.step e = some b' ∧ Fits (bound + e.size) b'.state := by
      cases e with
      | input i =>
        dsimp only [BackedEvent.size] at hb
        have hi : i.Small := hsmall _ List.mem_cons_self
        obtain ⟨state, hstate, hfits'⟩ := hfits.handle_returns h.mirrors (hi.snapshotTo hlarge)
          (by omega)
        have hlast := hfits'.last
        refine ⟨{ b with state }, ?_, hfits'⟩
        unfold Backed.step
        dsimp only
        rw [hstate, Option.bind_eq_bind, Option.bind_some, if_pos (by omega)]
      | drain => exact ⟨b.drain, rfl, ⟨hfits.last, hfits.matched⟩⟩
    obtain ⟨b', hb', hfits'⟩ := hstep
    have hrest := ih (h.step (hsmall e List.mem_cons_self) hb') hfits'
      (Nat.le_trans hlarge (Nat.le_add_right _ _))
      (fun e he => hsmall e (List.mem_cons_of_mem _ he)) (by omega)
    rw [Backed.run, List.foldlM_cons, hb']
    exact hrest

end Backed

/-- Wherever the driver drains the queue, among any events, the store then holds the node's term,
vote and entries. The node does not stop in the middle of an event, unless indices come close to
the end of a `u64`. -/
theorem persist_ops_mirror_state {b₀ : Backed} (h₀ : b₀.Started) {events : List BackedEvent}
    (hsmall : ∀ e ∈ events, e.Small) :
    (∀ b, b₀.run events = some b → b.drain.stored = b.drain.state.snapshotPersistent) ∧
      (b₀.state.log.lastIndex < 2 ^ 63 → (events.map BackedEvent.size).sum < 2 ^ 62 →
        (b₀.run events).isSome) := by
  refine ⟨fun b hrun => (h₀.sound.run hsmall hrun).mirrors.synced, fun hlast hsize => ?_⟩
  exact h₀.sound.run_returns (h₀.fits (Nat.le_of_lt hlast)) (Nat.le_refl _) hsmall
    (by unfold u64Max; omega)

/-- A leader's entries arrive, a later leader replaces the second one and commits the first, and
the first is folded into a snapshot. The queue is drained once in between and once at the end. -/
def mirroredRun : List BackedEvent :=
  [.input (.message (.appendEntries ⟨1, 2, 0, 0, [⟨1, 1, [10]⟩, ⟨1, 2, [20]⟩], 0⟩) 0), .drain,
    .input (.message (.appendEntries ⟨2, 3, 1, 1, [⟨2, 2, [30]⟩], 1⟩) 0),
    .input (.takeSnapshot [] none), .input .electionTimeout, .drain]

theorem persist_ops_mirror_state_replaced :
    ((Backed.mk (fresh 1 [2, 3] true) {}).run mirroredRun).map (·.stored) =
        some ⟨3, some 1, [⟨2, 2, [30]⟩]⟩ ∧
      (∀ b, (Backed.mk (fresh 1 [2, 3] true) {}).run mirroredRun = some b →
        b.drain.stored = b.drain.state.snapshotPersistent) ∧
      ((Backed.mk (fresh 1 [2, 3] true) {}).run mirroredRun).isSome := by
  have hsmall : ∀ e ∈ mirroredRun, e.Small := by
    simp [mirroredRun, BackedEvent.Small, Input.Small, Message.Small]
  have h := persist_ops_mirror_state (.new 1 [2, 3] true) hsmall
  exact ⟨by decide +kernel, h.1, h.2 (by decide) (by decide)⟩

/-! ### No input stops a node -/

def RaftState.handleAll (s : RaftState) (inputs : List Input) : Option RaftState :=
  inputs.foldlM RaftState.handle s

/-- The bound grows by what each input can add. -/
theorem Fits.handleAll_returns {d : PersistedRaft} {s : RaftState} {inputs : List Input}
    (hm : Mirrors d s) (h : Fits bound s) (hsnap : ∀ i ∈ inputs, i.SnapshotTo bound)
    (hroom : bound + (inputs.map Input.size).sum + 1 < u64Max) : (s.handleAll inputs).isSome := by
  induction inputs generalizing s bound with
  | nil => rfl
  | cons i inputs ih =>
    rw [List.map_cons, List.sum_cons] at hroom
    have hi : i.SnapshotTo bound := hsnap i List.mem_cons_self
    obtain ⟨s', hs', hfits'⟩ := h.handle_returns hm hi (by omega)
    have hlast := h.last
    have hlast' := hfits'.last
    have hm' : Mirrors d s' := by
      refine hm.handle hs' (by omega) (by omega) fun is progress heq => ?_
      subst heq
      have : is.lastIndex ≤ bound := hi
      omega
    have hrest := ih hm' hfits'
      (fun j hj => (hsnap j (List.mem_cons_of_mem _ hj)).mono (Nat.le_add_right _ _)) (by omega)
    rw [RaftState.handleAll, List.foldlM_cons, hs']
    exact hrest

/-- From a new node on, no message, timeout, proposal or snapshot makes a handler overflow or
leave a slice, as long as the snapshots the node is sent and the entries it is given stay below
the end of a `u64`. -/
theorem handlers_return {me : NodeId} {peers : List NodeId} {noopOnElect : Bool} {bound : Nat}
    {inputs : List Input} (hsnap : ∀ i ∈ inputs, i.SnapshotTo bound)
    (hroom : bound + (inputs.map Input.size).sum + 1 < u64Max) :
    ((fresh me peers noopOnElect).handleAll inputs).isSome :=
  Fits.handleAll_returns (Mirrors.fresh me peers noopOnElect) ⟨Nat.zero_le _, nofun⟩ hsnap hroom

/-- A snapshot is installed, the node stands and is elected, and takes a proposal. -/
def installedRun (last : Nat) : List Input :=
  [.message (.installSnapshot ⟨1, 2, last, 1, 0, true, []⟩) 0, .electionTimeout,
    .message (.requestVoteResp ⟨2, true, 3⟩) 0, .propose [7]]

/-- With a snapshot that ends at the last index of a `u64`, the index after it overflows. -/
theorem installed_snapshot_overflows :
    ((fresh 1 [2, 3] false).handleAll (installedRun u64Max)).isNone = true := by decide +kernel

theorem handlers_return_installed :
    ((fresh 1 [2, 3] false).handleAll (installedRun (2 ^ 63))).isSome := by
  refine @handlers_return 1 [2, 3] false (2 ^ 63) _ ?_ (by decide)
  intro i hi
  simp only [installedRun, List.mem_cons, List.not_mem_nil, or_false] at hi
  rcases hi with rfl | rfl | rfl | rfl
  · exact Nat.le_refl _
  · trivial
  · trivial
  · trivial

end EventStream.Raft
