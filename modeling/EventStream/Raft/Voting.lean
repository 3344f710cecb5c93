import EventStream.Raft.Leader

/-! Terms, votes and elections.

A new term is a move of the protocol by itself (`Early.stepDown`); a vote and a
candidacy are durable before anybody hears of them. With a majority of votes a
candidate leads, and the first entry it writes, if any, is its own. -/
namespace EventStream.Raft
open Consensus (Step)

variable {c : Cluster} {a₀ a a' : Proto} {i : NodeId} {folded covers : List LogEntry}
    {d : PersistedRaft} {s s' : RaftState} {t : Nat} {Q : Finset NodeId} {acts : List Action}

/-! ### A new term -/

theorem Standing.advance (h : Standing c a i folded) (he : Consensus.Extends a a')
    (ht : a'.term i = t) (hlt : a.term i < t) (hmax : t < u64Max) (hp : c.peers i ≠ []) :
    Standing c a' i folded :=
  ⟨by omega, h.settled.mono he (by omega), fun htop => by omega, fun halone => absurd halone hp⟩

theorem Early.stepDown (h : Early c a₀ i folded d a s) (ht : s.currentTerm < t) (hmax : t < u64Max)
    (hp : c.peers i ≠ []) :
    ∃ a', Early c a₀ i folded d a' (s.stepDownTo t) ∧ Consensus.Extends a a' := by
  have hs := h.sound
  have hterm : a.term i < t := by
    rw [hs.term]
    exact ht
  have hstep : Step LogEntry.term c.quorums i a _ := .advance t hterm
  have hext := Consensus.extends_of_step h.sane.inv hstep
  have hself : Function.update a.term i t i = t := Function.update_self ..
  refine ⟨_, ?_, hext⟩
  have hdown : s.stepDownTo t = RaftState.persistHardState
      { s with
        currentTerm := t
        votedFor := none
        role := .follower
        votesReceived := []
        leaderHint := none
        matchIndex := fun _ => none
        nextIndex := fun _ => none
        snapshotCursor := fun _ => none } := by
    unfold RaftState.stepDownTo
    rw [decide_eq_true ht, Nat.max_eq_right (Nat.le_of_lt ht)]
    rfl
  rw [hdown]
  refine h.hardState (.single hstep) (h.sane.move hstep fun _ => rfl) rfl ?_ rfl rfl
  exact
    { me := hs.me
      peers := hs.peers
      log := hs.log
      term := hself
      vote := by
        show none = (a.vote i t).map Prod.fst
        rw [Consensus.fresh_vote h.sane.inv hterm]
        rfl
      base_applied := hs.base_applied
      applied_commit := hs.applied_commit
      commit_length := hs.commit_length
      committed := hs.committed.mono hext (Nat.le_of_lt ht)
      standing := hs.standing.advance hext hself hterm hmax hp
      candidate := fun hc => by cases hc
      leader := fun hl => by cases hl }

/-! ### Votes -/

theorem Early.requestVote (hi : i ∈ c.members) (h : Early c a₀ i folded d a s) {rv : RequestVote}
    (hp : PacketOk c a ⟨i, .requestVote rv, covers⟩) (hle : rv.term ≤ s.currentTerm)
    (hmax : rv.term < u64Max) :
    ∃ a', Early c a₀ i folded d a' (s.handleRequestVote rv).1 ∧
      ActionsOk c a' (s.handleRequestVote rv).1 (s.handleRequestVote rv).2 := by
  have hs := h.sound
  unfold RaftState.handleRequestVote
  dsimp only
  by_cases hgrant : s.currentTerm ≤ rv.term ∧
      (s.log.lastTerm < rv.lastLogTerm ∨
        (rv.lastLogTerm = s.log.lastTerm ∧ s.log.lastIndex ≤ rv.lastLogIndex)) ∧
      (s.votedFor = none ∨ s.votedFor = some rv.candidateId)
  · rw [decide_eq_true hgrant]
    obtain ⟨hge, hup, hcan⟩ := hgrant
    have hteq : rv.term = s.currentTerm := Nat.le_antisymm hle hge
    by_cases hv : s.votedFor = some rv.candidateId
    · -- already voted for this candidate
      rw [if_neg (fun hc => hc.2 hv)]
      obtain ⟨⟨cand, m⟩, hm, hcand⟩ := Option.map_eq_some_iff.mp (hs.vote.symm.trans hv)
      cases hcand
      refine ⟨a, h, .cons (fun _ => ⟨hs.me ▸ hi, m, ?_⟩) .reset⟩
      dsimp only
      rw [hs.me]
      exact hm
    · rw [if_pos ⟨rfl, hv⟩]
      have hnone : a.vote i (a.term i) = none := by
        rw [hs.term]
        exact Option.map_eq_none_iff.mp (hs.vote.symm.trans (hcan.resolve_right hv))
      obtain ⟨l, hl, hidx, hlt⟩ := hp hmax
      have hstood : a.stood rv.candidateId (a.term i) = some l := by
        rw [hs.term, ← hteq]
        exact hl
      have hutd : Consensus.UpToDate LogEntry.term l (a.log i) := by
        rw [hs.log.lastTerm_eq, hs.log.lastIndex_eq, hidx, hlt] at hup
        exact hup.imp id fun h => ⟨h.1.symm, h.2⟩
      have hstep : Step LogEntry.term c.quorums i a _ := .grant _ l hnone hstood hutd
      have hext := Consensus.extends_of_step h.sane.inv hstep
      have hvote : (Consensus.set₂ a.vote i (a.term i) (some (rv.candidateId, a.log i))) i
          s.currentTerm = some (rv.candidateId, a.log i) := by
        rw [← hs.term]
        exact Consensus.set₂_self ..
      refine ⟨_, h.hardState (.single hstep) (h.sane.move hstep fun _ => rfl) rfl ?_ rfl rfl,
        .cons (fun _ => ?_) .reset⟩
      · exact
          { me := hs.me
            peers := hs.peers
            log := hs.log
            term := hs.term
            vote := by
              show _ = Option.map Prod.fst _
              exact (congrArg (Option.map Prod.fst) hvote).symm
            base_applied := hs.base_applied
            applied_commit := hs.applied_commit
            commit_length := hs.commit_length
            committed := hs.committed.mono hext (Nat.le_refl _)
            standing := hs.standing.mono hext rfl
            candidate := fun hr hlt => (hs.candidate hr hlt).mono hext rfl fun _ hl => hl
            leader := fun hr => (hs.leader hr).mono hext rfl }
      · exact ⟨hs.me ▸ hi, a.log i, hs.me ▸ hvote⟩
  · rw [decide_eq_false hgrant, if_neg (fun hc => absurd hc.1 Bool.false_ne_true)]
    exact ⟨a, h, .cons (fun hc => absurd hc Bool.false_ne_true) .nil⟩

/-! ### Elections -/

/-- A candidate with a quorum of votes leads its term. -/
theorem Sane.elect (hs : Sane c a) (hst : a.stood i (a.term i) = some (a.log i))
    (hfresh : ∀ l, a.leader (a.term i) ≠ some (i, l)) (hQ : c.quorums.IsQuorum Q)
    (hv : ∀ v ∈ Q, ∃ m, a.vote v (a.term i) = some (i, m)) :
    ∃ a', Step LogEntry.term c.quorums i a a' ∧ Sane c a' ∧ a'.term = a.term ∧
      a'.log = a.log ∧ a'.vote = a.vote ∧
      a'.leader (a.term i) = some (i, a.log i) ∧
      a'.acked i (a.term i) = (a.log i).length := by
  have hnone : a.leader (a.term i) = none := by
    cases hl : a.leader (a.term i) with
    | none => rfl
    | some v =>
      obtain ⟨n, l⟩ := v
      obtain rfl := Consensus.leader_unique hs.inv hl hQ hv
      exact absurd hl (hfresh l)
  have hstep : Step LogEntry.term c.quorums i a _ := .elect Q hst hnone hQ hv
  refine ⟨_, hstep, ⟨Consensus.inv_of_step hs.inv hstep, fun t k e he => ?_, fun t => ?_⟩,
    rfl, rfl, rfl, Function.update_self .., Consensus.set₂_self ..⟩
  · by_cases ht : t = a.term i
    · subst ht
      dsimp only at he
      rw [Function.update_self] at he
      exact (hs.log i).2 k e he
    · dsimp only at he
      rw [Function.update_of_ne ht] at he
      exact hs.entry t k e he
  · by_cases ht : t = a.term i
    · subst ht
      dsimp only
      rw [Function.update_self]
      exact (hs.log i).1
    · dsimp only
      rw [Function.update_of_ne ht]
      exact hs.small t

/-- A new leader knows nothing of its peers. -/
theorem Leading.fresh (hl : ∃ l, a.leader t = some (i, l)) (hown : (a.log i).length ≤ a.acked i t) :
    Leading a i t (fun _ => none) (fun _ => none) :=
  ⟨hl, hown, (fun _ _ hk => nomatch hk), (fun _ _ hk => nomatch hk)⟩

/-- Winning an election. Nothing durable changes. -/
theorem Early.elect (h : Early c a₀ i folded d a s) (hst : a.stood i s.currentTerm = some (a.log i))
    (hfresh : ∀ l, a.leader s.currentTerm ≠ some (i, l)) (hQ : c.quorums.IsQuorum Q)
    (hv : ∀ v ∈ Q, ∃ m, a.vote v s.currentTerm = some (i, m)) :
    ∃ a', Early c a₀ i folded d a' s.takeLead := by
  have hs := h.sound
  rw [← hs.term] at hst hfresh hv
  obtain ⟨a', hstep, hsane, hterm, hlog, hvote, hl, hacked⟩ := h.sane.elect hst hfresh hQ hv
  have hext := Consensus.extends_of_step h.sane.inv hstep
  rw [hs.term] at hl hacked
  refine ⟨a', h.move (.single hstep) hsane (congrFun hlog i) ?_ rfl rfl⟩
  exact
    { me := hs.me
      peers := hs.peers
      log := hlog ▸ hs.log
      term := hterm ▸ hs.term
      vote := hvote ▸ hs.vote
      base_applied := hs.base_applied
      applied_commit := hs.applied_commit
      commit_length := hlog ▸ hs.commit_length
      committed := hlog ▸ hs.committed.mono hext (Nat.le_refl _)
      standing := hs.standing.mono hext (congrFun hterm i)
      candidate := fun hc => by cases hc
      leader := fun _ => .fresh ⟨_, hl⟩ (hlog ▸ hacked.ge) }

theorem Handled.electNoop (h : Handled c a₀ i folded d a s) (hr : s.role = .leader)
    (he : s.electNoop = some s') (hsmall : s'.log.lastIndex < u64Max) :
    ∃ a', Handled c a₀ i folded d a' s' ∧ s'.role = .leader := by
  unfold RaftState.electNoop at he
  split at he
  · obtain ⟨⟨s₁, k⟩, hs₁, rfl⟩ := Option.map_eq_some_iff.mp he
    obtain ⟨a', h'⟩ := h.appendLocal hr (by decide) hs₁ hsmall
    obtain ⟨_, _, hs₁⟩ := Option.bind_eq_some_iff.mp hs₁
    cases hs₁
    exact ⟨a', h', hr⟩
  · cases he
    exact ⟨a, h, hr⟩

theorem Handled.trackPeers (h : Handled c a₀ i folded d a s) (hr : s.role = .leader)
    (he : s.trackPeers = some s') :
    Handled c a₀ i folded d a s' ∧ s'.role = .leader ∧ s'.log = s.log := by
  have hnot : s.role ≠ .candidate := by
    rw [hr]
    nofun
  obtain ⟨hl, hown, hn, hm⟩ := h.sound.leader hr
  unfold RaftState.trackPeers at he
  split at he
  · cases he
    exact ⟨h.volatile {h.sound with candidate := fun hc => absurd hc hnot} rfl rfl, hr, rfl⟩
  · obtain ⟨next, hnext, rfl⟩ := Option.map_eq_some_iff.mp he
    obtain ⟨rfl, _⟩ := addU64_eq_some.mp hnext
    refine ⟨h.volatile {h.sound with
      candidate := fun hc => absurd hc hnot
      leader := fun _ => ⟨hl, hown, fun p k hk => ?_, fun p k hk => ?_⟩} rfl rfl, hr, rfl⟩
    · dsimp only at hk
      split at hk
      · cases hk
        rw [h.sound.log.lastIndex_eq]
        exact ⟨Nat.succ_pos _, Nat.le_refl _⟩
      · exact hn p k hk
    · dsimp only at hk
      split at hk
      · cases hk
        exact Nat.zero_le _
      · exact hm p k hk

theorem Handled.becomeLeader (hi : i ∈ c.members) (h : Handled c a₀ i folded d a s.takeLead)
    (he : s.becomeLeader = some s') (hsmall : s'.log.lastIndex < u64Max) :
    ∃ a', Handled c a₀ i folded d a' s' ∧ s'.role = .leader := by
  obtain ⟨s₁, hs₁, he⟩ := Option.bind_eq_some_iff.mp he
  obtain ⟨s₂, hs₂, he⟩ := Option.bind_eq_some_iff.mp he
  have hlog₂ : s₂.log = s₁.log := by
    unfold RaftState.trackPeers at hs₂
    split at hs₂
    · cases hs₂
      rfl
    · obtain ⟨_, _, rfl⟩ := Option.map_eq_some_iff.mp hs₂
      rfl
  have hlog : s'.log = s₂.log := by
    obtain ⟨k, _, he⟩ := Option.bind_eq_some_iff.mp he
    split at he <;> (cases he; rfl)
  obtain ⟨a', h₁, hr₁⟩ := h.electNoop rfl hs₁ (by rw [← hlog₂, ← hlog]; exact hsmall)
  obtain ⟨h₂, hr₂, _⟩ := h₁.trackPeers hr₁ hs₂
  obtain ⟨hdone, k, rfl⟩ := h₂.recompute hi hr₂ he
  exact ⟨a', hdone, hr₂⟩

theorem Early.requestVoteResp (hi : i ∈ c.members) (h : Early c a₀ i folded d a s)
    {rvr : RequestVoteResp} (hp : PacketOk c a ⟨i, .requestVoteResp rvr, covers⟩)
    (hmax : rvr.term < u64Max) (he : s.handleRequestVoteResp rvr = some (s', acts))
    (hsmall : s'.log.lastIndex < u64Max) :
    ∃ a', Handled c a₀ i folded d a' s' ∧ ActionsOk c a' s' acts := by
  unfold RaftState.handleRequestVoteResp at he
  split at he
  · cases he
    exact ⟨a, h.handled, .nil⟩
  rename_i hcond
  rw [not_or, not_not, not_not] at hcond
  obtain ⟨hr, ht⟩ := hcond
  split at he
  · rename_i hg
    have hs := h.sound
    obtain ⟨hst, hfresh, hnd, hvotes⟩ := hs.candidate hr (ht ▸ hmax)
    obtain ⟨hvm, m, hm⟩ := hp hg
    have hvotes' : ∀ v ∈ s.votesReceived.insert rvr.voterId,
        v ∈ c.members ∧ ∃ m, a.vote v s.currentTerm = some (i, m) := by
      intro v hv
      rcases List.mem_insert_iff.mp hv with rfl | hv
      · exact ⟨hvm, m, ht ▸ hm⟩
      · exact hvotes v hv
    have hcounted : Early c a₀ i folded d a
        {s with votesReceived := s.votesReceived.insert rvr.voterId} :=
      h.volatile {hs with candidate := fun _ _ => ⟨hst, hfresh, hnd.insert, hvotes'⟩} rfl rfl
    dsimp only at he
    split at he
    · rename_i hq
      have hcard : c.members.card < 2 * (s.votesReceived.insert rvr.voterId).length := by
        rw [c.card_members hi, ← hs.peers]
        unfold RaftState.quorum at hq
        dsimp only at hq
        omega
      have hquorum := Consensus.majority_of_list hnd.insert (fun v hv => (hvotes' v hv).1) hcard
      obtain ⟨a₁, h₁⟩ := hcounted.elect hst hfresh hquorum
        (fun v hv => (hvotes' v (List.mem_toFinset.mp hv)).2)
      obtain ⟨s₂, hs₂, he⟩ := Option.bind_eq_some_iff.mp he
      obtain ⟨out, hout, he⟩ := Option.bind_eq_some_iff.mp he
      cases he
      obtain ⟨a₂, h₂, _⟩ := h₁.handled.becomeLeader hi hs₂ hsmall
      exact ⟨a₂, h₂, heartbeat_ok h₂.sane h₂.sound hout⟩
    · cases he
      exact ⟨a, hcounted.handled, .nil⟩
  · cases he
    exact ⟨a, h.handled, .nil⟩

/-! ### Standing for election -/

/-- The next term, in which the node has voted for itself, before it is anything in it. -/
theorem Sound.stand (h : Sound c a i folded s) (he : Consensus.Extends a a')
    (hlog : a'.log i = a.log i) (ht : a'.term i = s.stand.currentTerm) {m : List LogEntry}
    (hv : a'.vote i s.stand.currentTerm = some (i, m))
    (halone : c.peers i = [] → ∃ l, a'.leader s.stand.currentTerm = some (i, l)) :
    Sound c a' i folded {s.stand with role := .follower} := by
  have hle : s.currentTerm ≤ s.stand.currentTerm := by
    have := h.standing.bound
    rw [h.term] at this
    exact Nat.le_min.mpr ⟨Nat.le_succ _, this⟩
  exact
    { me := h.me
      peers := h.peers
      log := hlog ▸ h.log
      term := ht
      vote := by
        show some s.me = Option.map Prod.fst (a'.vote i s.stand.currentTerm)
        rw [hv, h.me]
        rfl
      base_applied := h.base_applied
      applied_commit := h.applied_commit
      commit_length := hlog ▸ h.commit_length
      committed := hlog ▸ h.committed.mono he hle
      standing :=
        { bound := by rw [ht]; exact Nat.min_le_right _ _
          settled := h.standing.settled.mono he (by rw [h.term, ht]; exact hle)
          top := fun htop => ⟨m, by rw [← htop, ht]; exact hv⟩
          alone := fun hp => .inr (by rw [ht]; exact halone hp) }
      candidate := fun hc => by cases hc
      leader := fun hl => by cases hl }

/-- A candidacy in a term the node has not reached. -/
theorem Sane.stand (hs : Sane c a) (ht : a.term i < t) :
    ∃ a', Step LogEntry.term c.quorums i a a' ∧ Sane c a' ∧ a'.term i = t ∧
      a'.log = a.log ∧ a'.vote i t = some (i, a.log i) ∧
      a'.stood i t = some (a.log i) ∧ ∀ l, a'.leader t ≠ some (i, l) := by
  have hstep : Step LogEntry.term c.quorums i a _ := .stand t ht
  exact ⟨_, hstep, hs.move hstep fun _ => rfl, Function.update_self .., rfl,
    Consensus.set₂_self .., Consensus.set₂_self .., fun l => Consensus.fresh_leader hs.inv ht l⟩

/-- At the last term there is nowhere to go: the node has its own vote already. -/
theorem stand_cases (h : Sound c a i folded s) :
    (a.term i < s.stand.currentTerm) ∨
      (s.stand.currentTerm = u64Max ∧ a.term i = s.stand.currentTerm) := by
  have hb := h.standing.bound
  have hstand : s.stand.currentTerm = min (s.currentTerm + 1) u64Max := rfl
  have := h.term
  omega

section
variable (hi : i ∈ c.members)
include hi

theorem Early.stand (h : Early c a₀ i folded d a s) (hp : c.peers i ≠ []) :
    ∃ a', Early c a₀ i folded d a' s.stand ∧ (s.stand.currentTerm < u64Max →
      a'.stood i s.stand.currentTerm = some (a'.log i)) := by
  rcases stand_cases h.sound with hlt | ⟨hmax, hterm⟩
  · obtain ⟨a', hstep, hsane, hterm, hlog, hvote, hstood, hfresh⟩ := h.sane.stand hlt
    have hext := Consensus.extends_of_step h.sane.inv hstep
    have hsound := h.sound.stand hext (congrFun hlog i) hterm hvote fun hn => absurd hn hp
    have hcand : Candidacy c a' i s.stand.currentTerm [s.me] :=
      ⟨hlog ▸ hstood, hfresh, List.nodup_singleton _, fun v hv => by
        rw [List.mem_singleton.mp hv, h.sound.me]
        exact ⟨hi, _, hvote⟩⟩
    exact ⟨a', h.hardState (.single hstep) hsane (congrFun hlog i)
      {hsound with
        candidate := fun _ _ => hcand
        leader := fun hl => by cases hl} rfl rfl, fun _ => hlog ▸ hstood⟩
  · obtain ⟨m, hm⟩ := h.sound.standing.top (hterm.trans hmax)
    have hsound := h.sound.stand (.refl a) rfl hterm (hmax ▸ hm) fun hn => absurd hn hp
    exact ⟨a, h.hardState .refl h.sane rfl
      {hsound with
        candidate := fun _ hc => absurd hc (by omega)
        leader := fun hl => by cases hl} rfl rfl, fun hc => by omega⟩

/-- A node alone in its cluster has stood and won in one move. -/
theorem Early.standAlone (h : Early c a₀ i folded d a s) (hp : c.peers i = []) :
    ∃ a', Early c a₀ i folded d a' s.stand.takeLead := by
  rcases stand_cases h.sound with hlt | ⟨hmax, hterm⟩
  · obtain ⟨a₁, hstep, hsane, hterm, hlog, hvote, hstood, hfresh⟩ := h.sane.stand hlt
    have hquorum : c.quorums.IsQuorum [i].toFinset :=
      Consensus.majority_of_list (List.nodup_singleton i)
        (fun v hv => List.mem_singleton.mp hv ▸ hi)
        (by rw [c.card_members hi, hp, List.length_nil, List.length_singleton]; decide)
    obtain ⟨a₂, hstep₂, hsane₂, hterm₂, hlog₂, hvote₂, hl, hacked⟩ := hsane.elect
      (hterm ▸ hlog ▸ hstood) (hterm ▸ hfresh) hquorum
      (fun v hv => by
        rw [List.mem_singleton.mp (List.mem_toFinset.mp hv), hterm]
        exact ⟨_, hvote⟩)
    have hext := (Consensus.extends_of_step h.sane.inv hstep).trans
      (Consensus.extends_of_step hsane.inv hstep₂)
    have hlog' : a₂.log i = a.log i := (congrFun hlog₂ i).trans (congrFun hlog i)
    rw [hterm] at hl hacked
    have hsound := h.sound.stand hext hlog' ((congrFun hterm₂ i).trans hterm)
      (hvote₂ ▸ hvote) fun _ => ⟨_, hl⟩
    exact ⟨a₂, h.hardState (.tail (.single hstep) hstep₂) hsane₂ hlog'
      {hsound with
        candidate := fun hc => by cases hc
        leader := fun _ => .fresh ⟨_, hl⟩ (by rw [congrFun hlog₂ i]; exact hacked.ge)} rfl rfl⟩
  · have hpos : a.term i ≠ 0 := by
      rw [hterm, hmax]
      decide
    obtain ⟨m, hm⟩ := h.sound.standing.top (hterm.trans hmax)
    obtain ⟨l, hl⟩ := (h.sound.standing.alone hp).resolve_left hpos
    -- the term is led already; acknowledge the whole log again
    have hstep : Step LogEntry.term c.quorums i a _ :=
      .ack (a.log i) List.prefix_rfl (h.sane.inv.own i l hl ▸ List.prefix_rfl)
    have hext := Consensus.extends_of_step h.sane.inv hstep
    rw [hterm] at hl
    have hsound := h.sound.stand hext rfl hterm (hmax ▸ hm) fun _ => ⟨l, hl⟩
    refine ⟨_, h.hardState (.single hstep) (h.sane.move hstep fun _ => rfl) rfl
      {hsound with
        candidate := fun hc => by cases hc
        leader := fun _ => .fresh ⟨l, hl⟩ ?_} rfl rfl⟩
    show _ ≤ Consensus.set₂ a.acked i (a.term i) _ i s.stand.currentTerm
    rw [← hterm, Consensus.set₂_self]
    exact Nat.le_max_right _ _

theorem Early.startElection (h : Early c a₀ i folded d a s) (he : s.startElection = some (s', acts))
    (hsmall : s'.log.lastIndex < u64Max) :
    ∃ a', Handled c a₀ i folded d a' s' ∧ ActionsOk c a' s' acts := by
  unfold RaftState.startElection at he
  dsimp only at he
  have hpeers : s.stand.peers = c.peers i := h.sound.peers
  split at he
  · rename_i hp
    obtain ⟨a₁, h₁⟩ := h.standAlone hi (hpeers ▸ List.isEmpty_iff.mp hp)
    obtain ⟨s₂, hs₂, he⟩ := Option.bind_eq_some_iff.mp he
    obtain ⟨out, hout, he⟩ := Option.bind_eq_some_iff.mp he
    cases he
    obtain ⟨a₂, h₂, _⟩ := h₁.handled.becomeLeader hi hs₂ (drainApplyActions_log s₂ ▸ hsmall)
    obtain ⟨h₃, hs₃, hacts⟩ := h₂.drain
    exact ⟨a₂, h₃, ((heartbeat_ok h₂.sane h₂.sound hout).congr (by rw [hs₃]) (by rw [hs₃])).append
      hacts⟩
  · rename_i hp
    cases he
    obtain ⟨a₁, h₁, hstood⟩ := h.stand hi (fun hn => hp (by rw [hpeers, hn]; rfl))
    refine ⟨a₁, h₁.handled, .cons trivial (.cons (fun p _ hmax => ⟨a₁.log i, ?_, ?_, ?_⟩) .nil)⟩
    · exact h₁.sound.me ▸ hstood hmax
    · exact h₁.sound.log.lastIndex_eq
    · exact h₁.sound.log.lastTerm_eq

end

end EventStream.Raft
