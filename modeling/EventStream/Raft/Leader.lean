import EventStream.Raft.Durable

/-! The leader's side: committing, handing on what is committed, replicating.

`Handled.recompute` is the commit rule: an index that a majority holds, whose entry is
of the leader's own term, is chosen. -/
namespace EventStream.Raft
open Consensus (Step)

/-- What an action puts into the world is true there. -/
def ActionOk (c : Cluster) (a : Proto) (s : RaftState) : Action → Prop
  | .sendTo peer msg => PacketOk c a { dst := peer, msg }
  | .broadcast msg => ∀ p ∈ s.peers, PacketOk c a { dst := p, msg }
  | .resetElectionTimer => True
  | .apply e => AppliedOk c a e
  | .sendSnapshot _ => s.role = .leader

def ActionsOk (c : Cluster) (a : Proto) (s : RaftState) (actions : List Action) : Prop :=
  ∀ act ∈ actions, ActionOk c a s act

variable {c : Cluster} {a₀ a a' : Proto} {i p : NodeId} {folded : List LogEntry} {d : PersistedRaft}
    {s s' : RaftState} {acts : List Action} {k : Nat}

namespace ActionsOk

theorem nil : ActionsOk c a s [] := fun _ h => absurd h List.not_mem_nil

theorem cons {act : Action} {acts : List Action} (h : ActionOk c a s act)
    (hs : ActionsOk c a s acts) : ActionsOk c a s (act :: acts) := by
  intro act' hact
  rcases List.mem_cons.mp hact with rfl | hact
  · exact h
  · exact hs act' hact

theorem append {acts acts' : List Action} (h : ActionsOk c a s acts)
    (h' : ActionsOk c a s acts') : ActionsOk c a s (acts ++ acts') :=
  fun act hact => (List.mem_append.mp hact).elim (h act) (h' act)

theorem reset : ActionsOk c a s [.resetElectionTimer] := .cons trivial .nil

/-- Actions depend on the state only in the role and the peers. -/
theorem congr (h : ActionsOk c a s acts) (hr : s'.role = s.role)
    (hp : s'.peers = s.peers) : ActionsOk c a s' acts := by
  intro act hact
  have := h act hact
  cases act with
  | sendTo peer msg => exact this
  | broadcast msg => exact fun p hpm => this p (hp ▸ hpm)
  | resetElectionTimer => trivial
  | apply e => exact this
  | sendSnapshot peer => exact hr.trans this

end ActionsOk

/-! ### Handing on -/

/-- Handing on does not touch the log, not even for a membership change. -/
theorem drainApplyActions_log (s : RaftState) : s.drainApplyActions.1.log = s.log :=
  s.drainApplyActions_regrouped.1.alike.log

/-- The loop hands on settled entries and changes nothing but `lastApplied`. -/
theorem drainLoop_spec (hs : Sane c a) (h : Sound c a i folded s) (n : Nat)
    (hn : s.lastApplied + n ≤ s.commitIndex) :
    (RaftState.drainLoop n s).1 = {s with lastApplied := s.lastApplied + n} ∧
      ∀ act ∈ (RaftState.drainLoop n s).2, ∃ e, act = .apply e ∧ AppliedOk c a e := by
  induction n generalizing s with
  | zero => exact ⟨rfl, fun act hact => absurd hact List.not_mem_nil⟩
  | succ n ih =>
    have hnext : Sound c a i folded {s with lastApplied := s.lastApplied + 1} :=
      {h with
        base_applied := h.base_applied.trans (Nat.le_succ _)
        applied_commit := by show s.lastApplied + 1 ≤ s.commitIndex; omega}
    obtain ⟨hstate, hacts⟩ := ih hnext (by show s.lastApplied + 1 + n ≤ s.commitIndex; omega)
    have hstate' : (RaftState.drainLoop n {s with lastApplied := s.lastApplied + 1}).1 =
        {s with lastApplied := s.lastApplied + (n + 1)} := by
      rw [hstate, show s.lastApplied + (n + 1) = s.lastApplied + 1 + n by omega]
    have hbase := h.base_applied
    have hget : s.log.get (s.lastApplied + 1) = (a.log i)[s.lastApplied]? :=
      h.log.get_eq (by omega)
    unfold RaftState.drainLoop
    dsimp only
    rw [hget]
    cases hl : (a.log i)[s.lastApplied]? with
    | none => exact ⟨hstate', hacts⟩
    | some e =>
      obtain ⟨hidx, hcfg⟩ := (hs.log i).2 _ e hl
      dsimp only
      split
      · exact ⟨hstate', hacts⟩
      rw [hcfg]
      refine ⟨hstate', fun act hact => ?_⟩
      rcases List.mem_cons.mp hact with rfl | hact
      · refine ⟨e, rfl, _, _, s.lastApplied, h.committed, ?_, hidx⟩
        rw [List.getElem?_take_of_lt (by omega), hl]
      · exact hacts act hact

theorem Sound.drain (hs : Sane c a) (h : Sound c a i folded s) :
    Sound c a i folded s.drainApplyActions.1 ∧
      s.drainApplyActions.1 = {s with lastApplied := s.commitIndex} ∧
      ActionsOk c a s.drainApplyActions.1 s.drainApplyActions.2 := by
  have hle := h.applied_commit
  obtain ⟨hstate, hacts⟩ := drainLoop_spec hs h (s.commitIndex - s.lastApplied) (by omega)
  have hstate' : s.drainApplyActions.1 = {s with lastApplied := s.commitIndex} := by
    rw [Nat.add_sub_cancel' hle] at hstate
    exact hstate
  refine ⟨?_, hstate', fun act hact => ?_⟩
  · rw [hstate']
    exact {h with
      base_applied := h.base_applied.trans hle
      applied_commit := Nat.le_refl _}
  · obtain ⟨e, rfl, he⟩ := hacts act hact
    exact he

theorem Handled.drain (h : Handled c a₀ i folded d a s) :
    Handled c a₀ i folded d a s.drainApplyActions.1 ∧
      s.drainApplyActions.1 = {s with lastApplied := s.commitIndex} ∧
      ActionsOk c a s.drainApplyActions.1 s.drainApplyActions.2 := by
  obtain ⟨hsound, heq, hacts⟩ := h.sound.drain h.sane
  exact ⟨h.volatile hsound (by rw [heq]) (by rw [heq]; rfl), heq, hacts⟩

/-! ### Committing -/

/-- A leader's log is the log of its term. -/
theorem Sound.own_log (hs : Sane c a) (h : Sound c a i folded s) (hr : s.role = .leader) :
    a.log i = a.lead s.currentTerm := by
  obtain ⟨l, hl⟩ := (h.leader hr).elected
  rw [← h.term] at hl ⊢
  exact hs.inv.own i l hl

/-- What a majority's match indices reach, and is of the leader's term, is chosen. -/
theorem chosen_of_sorted (hi : i ∈ c.members) (hs : Sane c a) (h : Sound c a i folded s)
    (hr : s.role = .leader) (hk : s.commitIndex < k)
    (hsorted : ((s.peers.map (fun p => (s.matchIndex p).getD 0) ++
      [s.log.lastIndex]).insertionSort (· ≤ ·))[s.peers.length + 1 - s.quorum]? = some k)
    (ht : s.log.termAt k = some s.currentTerm) :
    Consensus.Chosen LogEntry.term c.quorums a s.currentTerm ((a.log i).take k) ∧
      k ≤ (a.log i).length := by
  obtain ⟨_, hown, _, hmatched⟩ := h.leader hr
  obtain ⟨_, e, he, het⟩ := h.log.termAt_some (by omega) ht
  have hlt := (List.getElem?_eq_some_iff.mp he).1
  have hlen : ((a.log i).take k).length = k := by
    rw [List.length_take]
    omega
  refine ⟨⟨?_, ⟨(a.log i).take (k - 1), e, ?_, het⟩, ?_⟩, by omega⟩
  · rw [← h.own_log hs hr]
    exact List.take_prefix _ _
  · have := List.take_add_one (l := a.log i) (i := k - 1)
    rw [he, Nat.sub_add_cancel (by omega)] at this
    exact this
  · -- the members whose recorded index reaches `k`, this node among them
    let f : NodeId → Nat := fun p => if p = i then (a.log i).length else (s.matchIndex p).getD 0
    have hpeers : ∀ p ∈ s.peers, p ∈ c.members ∧ p ≠ i := fun p hp =>
      (c.mem_peers i hi p).mp (h.peers ▸ hp)
    have hmap : s.peers.map (fun p => (s.matchIndex p).getD 0) ++ [s.log.lastIndex] =
        (s.peers ++ [i]).map f := by
      rw [List.map_append, h.log.lastIndex_eq]
      congr 1
      · exact List.map_congr_left fun p hp => (if_neg (hpeers p hp).2).symm
      · exact congrArg (fun x => [x]) (if_pos rfl).symm
    rw [hmap] at hsorted
    have hcount := Consensus.sorted_reaches f hsorted
    have hnd : (s.peers ++ [i]).Nodup := by
      rw [h.peers] at hpeers ⊢
      exact List.nodup_append.mpr ⟨c.peers_nodup i hi, List.nodup_singleton i,
        fun p hp q hq => (List.mem_singleton.mp hq).symm ▸ (hpeers p hp).2⟩
    refine ⟨_, Consensus.majority_of_list (hnd.filter (fun n => decide (k ≤ f n)))
      (fun p hp => ?_) ?_, fun p hp => ?_⟩
    · rcases List.mem_append.mp (List.mem_filter.mp hp).1 with hp | hp
      · exact (hpeers p hp).1
      · exact List.mem_singleton.mp hp ▸ hi
    · rw [c.card_members hi, ← h.peers]
      rw [List.length_append, List.length_singleton] at hcount
      unfold RaftState.quorum at hcount
      omega
    · obtain ⟨_, hp⟩ := List.mem_filter.mp (List.mem_toFinset.mp hp)
      rw [hlen]
      have hkf : k ≤ f p := of_decide_eq_true hp
      by_cases hpi : p = i
      · subst hpi
        rw [show f p = (a.log p).length from if_pos rfl] at hkf
        exact hkf.trans hown
      · rw [show f p = (s.matchIndex p).getD 0 from if_neg hpi] at hkf
        cases hm : s.matchIndex p with
        | none =>
          rw [hm, Option.getD_none] at hkf
          omega
        | some m =>
          rw [hm, Option.getD_some] at hkf
          exact hkf.trans (hmatched p m hm)

theorem Handled.recompute (hi : i ∈ c.members) (h : Handled c a₀ i folded d a s)
    (hr : s.role = .leader) (he : s.recomputeCommitIndex = some s') :
    Handled c a₀ i folded d a s' ∧ ∃ k, s' = {s with commitIndex := k} := by
  obtain ⟨k, hk, he⟩ := Option.bind_eq_some_iff.mp he
  rw [List.length_insertionSort, List.length_append, List.length_map, List.length_singleton] at hk
  split at he
  · rename_i hcond
    cases he
    obtain ⟨hchosen, hle⟩ := chosen_of_sorted hi h.sane h.sound hr hcond.1 hk hcond.2
    refine ⟨h.volatile ?_ rfl rfl, k, rfl⟩
    exact {h.sound with
      applied_commit := h.sound.applied_commit.trans (Nat.le_of_lt hcond.1)
      commit_length := hle
      committed := .inr ⟨s.currentTerm, _, Nat.le_refl _, hchosen, List.prefix_rfl⟩}
  · cases he
    exact ⟨h, s.commitIndex, rfl⟩

/-! ### Replicating -/

/-- What a leader sends a peer is part of its own log. -/
theorem replicateTo_ok (hs : Sane c a) (h : Sound c a i folded s) (hr : s.role = .leader)
    {act : Action} (hact : s.replicateTo p = some act) : ActionOk c a s act := by
  obtain ⟨hel, _, hnext, _⟩ := h.leader hr
  unfold RaftState.replicateTo at hact
  split at hact
  · cases hact
    exact hr
  rename_i hbase
  obtain ⟨msg, hmsg, rfl⟩ := Option.map_eq_some_iff.mp hact
  obtain ⟨es, hes, hmsg⟩ := Option.bind_eq_some_iff.mp hmsg
  cases hmsg
  have hown := h.own_log hs hr
  have hbound : 0 < (s.nextIndex p).getD 1 ∧ (s.nextIndex p).getD 1 ≤ (a.log i).length + 1 := by
    cases hn : s.nextIndex p with
    | none => exact ⟨Nat.one_pos, Nat.le_add_left _ _⟩
    | some k => exact hnext p k hn
  generalize (s.nextIndex p).getD 1 = next at *
  obtain ⟨es', hes', hpre⟩ :=
    h.log.sliceBounded_eq maxAppendEntries maxAppendBytes (Nat.lt_of_not_le hbase)
  cases hes.symm.trans hes'
  show AppendOk c a _
  rw [hown] at hbound hpre
  refine ⟨h.me ▸ hel, by dsimp only; omega, fun h0 => ?_, hpre, hown ▸ h.commit_length,
    hown ▸ h.committed⟩
  dsimp only at h0 ⊢
  rw [h.log.termAt_eq h0 (by omega), hown]
  have hlt : next - 1 - 1 < (a.lead s.currentTerm).length := by omega
  rw [List.getElem?_eq_getElem hlt]
  rfl

theorem heartbeat_ok (hs : Sane c a) (h : Sound c a i folded s)
    (hacts : s.onHeartbeatTick = some acts) : ActionsOk c a s acts := by
  unfold RaftState.onHeartbeatTick at hacts
  split at hacts
  · cases hacts
    exact .nil
  · rename_i hr
    exact forall_of_mapM (fun _ _ hact => replicateTo_ok hs h (not_not.mp hr) hact) hacts

/-! ### Writing -/

/-- A leader's next entry. -/
theorem Sane.append (hs : Sane c a) {l : List LogEntry} {e : LogEntry}
    (hl : a.leader (a.term i) = some (i, l)) (he : e.term = a.term i)
    (hidx : e.index = (a.log i).length + 1) (hcfg : decodeConfigChange e.payload = none)
    (hsmall : (a.log i).length + 1 < u64Max) :
    ∃ a', Step LogEntry.term c.quorums i a a' ∧ Sane c a' ∧ a'.log i = a.log i ++ [e] ∧
      a'.term = a.term ∧ a'.vote = a.vote ∧ a'.leader = a.leader ∧
      a'.acked i (a.term i) = (a.log i).length + 1 := by
  have hstep : Step LogEntry.term c.quorums i a _ := .append l e hl he
  have hown := hs.inv.own i l hl
  refine ⟨_, hstep, ⟨Consensus.inv_of_step hs.inv hstep, fun t k f hf => ?_, fun t => ?_⟩,
    Function.update_self .., rfl, rfl, rfl, ?_⟩
  · by_cases ht : t = a.term i
    · subst ht
      dsimp only at hf
      rw [Function.update_self, ← hown] at hf
      by_cases hk : k < (a.log i).length
      · rw [List.getElem?_append_left hk] at hf
        exact (hs.log i).2 k f hf
      · have hk' := (List.getElem?_eq_some_iff.mp hf).1
        rw [List.length_append, List.length_singleton] at hk'
        have hkeq : k = (a.log i).length := by omega
        subst hkeq
        rw [List.getElem?_append_right (Nat.le_refl _), Nat.sub_self] at hf
        cases hf
        exact ⟨hidx, hcfg⟩
    · dsimp only at hf
      rw [Function.update_of_ne ht] at hf
      exact hs.entry t k f hf
  · by_cases ht : t = a.term i
    · subst ht
      dsimp only
      rw [Function.update_self, ← hown, List.length_append, List.length_singleton]
      exact hsmall
    · dsimp only
      rw [Function.update_of_ne ht]
      exact hs.small t
  · rw [hown]
    exact Consensus.set₂_self ..

theorem Handled.appendLocal (h : Handled c a₀ i folded d a s) (hr : s.role = .leader)
    {payload : Bytes} (hcfg : decodeConfigChange payload = none)
    (he : s.appendLocal payload = some (s', k)) (hsmall : s'.log.lastIndex < u64Max) :
    ∃ a', Handled c a₀ i folded d a' s' := by
  obtain ⟨next, hnext, he⟩ := Option.bind_eq_some_iff.mp he
  obtain ⟨rfl, _⟩ := addU64_eq_some.mp hnext
  cases he
  have hs := h.sound
  obtain ⟨⟨l, hl⟩, hown, hnexts, hmatched⟩ := hs.leader hr
  let e : LogEntry := ⟨s.currentTerm, s.log.lastIndex + 1, payload⟩
  have hlen : s.log.lastIndex = (a.log i).length := hs.log.lastIndex_eq
  have hlast : (a.log i).length + 1 < u64Max := by
    simp only [Log.lastIndex, List.getLast?_append, List.getLast?_singleton, Option.some_or,
      Option.map_some, Option.getD_some] at hsmall
    rw [← hlen]
    exact hsmall
  obtain ⟨a', hstep, hsane, hlog, hterm, hvote, hleader, hacked⟩ :=
    h.sane.append (e := e) (by rw [hs.term]; exact hl) hs.term.symm
      (show s.log.lastIndex + 1 = _ by rw [hlen]) hcfg hlast
  have hext := Consensus.extends_of_step h.sane.inv hstep
  have hnum : ∀ k f, [e][k]? = some f → f.index = (a.log i).length + k + 1 := by
    intro k f hf
    obtain ⟨hk, rfl⟩ := List.getElem?_eq_some_iff.mp hf
    rw [List.length_singleton] at hk
    obtain rfl : k = 0 := by omega
    show s.log.lastIndex + 1 = _
    rw [hlen]
  have hholds := hs.log.concat hnum hlast
  rw [← hlog] at hholds
  refine ⟨a', h.write (.single hstep) hsane (hlog ▸ List.prefix_append _ _) ?_ rfl rfl⟩
  exact
    { me := hs.me
      peers := hs.peers
      log := hholds
      term := hterm ▸ hs.term
      vote := hvote ▸ hs.vote
      base_applied := hs.base_applied
      applied_commit := hs.applied_commit
      commit_length := by
        rw [hlog, List.length_append]
        exact hs.commit_length.trans (Nat.le_add_right _ _)
      committed := by
        rw [hlog, List.take_append_of_le_length hs.commit_length]
        exact hs.committed.mono hext (Nat.le_refl _)
      standing := hs.standing.mono hext (congrFun hterm i)
      candidate := fun hc => by
        rw [show s.role = .candidate from hc] at hr
        cases hr
      leader := fun _ =>
        { elected := ⟨l, hleader ▸ hl⟩
          own := by
            rw [hlog, List.length_append, List.length_singleton, ← hs.term, hacked]
          next := fun p k hk => by
            have := hnexts p k hk
            rw [hlog, List.length_append, List.length_singleton]
            omega
          matched := fun p k hk => (hmatched p k hk).trans (hext.acked _ _) } }

/-! ### Acknowledgements -/

section
variable (h : Handled c a₀ i folded d a s)
include h

theorem Handled.setMatch (hr : s.role = .leader) {m : Nat} (hm : m ≤ a.acked p s.currentTerm) :
    Handled c a₀ i folded d a (s.setMatch p m) := by
  have hlead := h.sound.leader hr
  refine h.volatile {h.sound with leader := fun _ => {hlead with matched := ?_}} rfl rfl
  intro q k (hk : Function.update s.matchIndex p (some m) q = some k)
  by_cases hq : q = p
  · subst hq
    rw [Function.update_self] at hk
    exact Option.some.inj hk ▸ hm
  · rw [Function.update_of_ne hq] at hk
    exact hlead.matched q k hk

theorem Handled.setNext (hr : s.role = .leader) (h0 : 0 < k) (hk : k ≤ (a.log i).length + 1) :
    Handled c a₀ i folded d a (s.setNext p k) := by
  have hlead := h.sound.leader hr
  refine h.volatile {h.sound with leader := fun _ => {hlead with next := ?_}} rfl rfl
  intro q j (hj : Function.update s.nextIndex p (some k) q = some j)
  by_cases hq : q = p
  · subst hq
    rw [Function.update_self] at hj
    exact Option.some.inj hj ▸ ⟨h0, hk⟩
  · rw [Function.update_of_ne hq] at hj
    exact hlead.next q j hj

/-- How far a snapshot transfer got is not part of the protocol. -/
theorem Handled.setCursor (f : NodeId → Option Nat) :
    Handled c a₀ i folded d a {s with snapshotCursor := f} :=
  h.volatile {h.sound with me := h.sound.me} rfl rfl

end

/-- Nobody has acknowledged more than the leader wrote. -/
theorem Sound.matched_le (hs : Sane c a) (h : Sound c a i folded s) (hr : s.role = .leader)
    (p : NodeId) :
    (s.matchIndex p).getD 0 ≤ a.acked p s.currentTerm ∧
      (s.matchIndex p).getD 0 ≤ (a.log i).length := by
  have hle : (s.matchIndex p).getD 0 ≤ a.acked p s.currentTerm := by
    cases hm : s.matchIndex p with
    | none => exact Nat.zero_le _
    | some k => exact (h.leader hr).matched p k hm
  exact ⟨hle, h.own_log hs hr ▸ hle.trans (hs.inv.acked_le _ _)⟩

section
variable (hi : i ∈ c.members)
include hi

/-- Commit what the new match index allows and follow up with the peer if it is behind. -/
theorem Handled.followUp (h : Handled c a₀ i folded d a s) (hr : s.role = .leader) {s₁ : RaftState}
    (hs₁ : s.recomputeCommitIndex = some s₁) {behind : Prop} [Decidable behind]
    (he : (if behind then do
        let act ← s₁.replicateTo p
        some (s₁, [act])
      else some (s₁, [])) = some (s', acts)) :
    Handled c a₀ i folded d a s' ∧ ActionsOk c a s' acts := by
  obtain ⟨hdone, k, hk⟩ := h.recompute hi hr hs₁
  split at he
  · obtain ⟨act, hact, he⟩ := Option.bind_eq_some_iff.mp he
    cases he
    exact ⟨hdone, .cons (replicateTo_ok hdone.sane hdone.sound (by rw [hk]; exact hr) hact) .nil⟩
  · cases he
    exact ⟨hdone, .nil⟩

theorem Handled.appendEntriesResp (h : Handled c a₀ i folded d a s) {aer : AppendEntriesResp}
    (hp : aer.success = true → aer.matchIndex ≤ a.acked aer.responderId aer.term)
    (he : s.handleAppendEntriesResp aer = some (s', acts)) :
    Handled c a₀ i folded d a s' ∧ ActionsOk c a s' acts := by
  unfold RaftState.handleAppendEntriesResp at he
  split at he
  · cases he
    exact ⟨h, .nil⟩
  rename_i hcond
  rw [not_or, not_not, not_not] at hcond
  obtain ⟨hr, ht⟩ := hcond
  dsimp only at he
  split at he
  · rename_i hsucc
    obtain ⟨hcur, hcurlen⟩ := h.sound.matched_le h.sane hr aer.responderId
    have hsmall := h.sound.log.small
    have hmi : min aer.matchIndex s.log.lastIndex ≤ a.acked aer.responderId s.currentTerm :=
      (Nat.min_le_left _ _).trans (ht ▸ hp hsucc)
    have hmilen : min aer.matchIndex s.log.lastIndex ≤ (a.log i).length :=
      h.sound.log.lastIndex_eq ▸ Nat.min_le_right _ _
    generalize min aer.matchIndex s.log.lastIndex = mi at he hmi hmilen
    rw [satAdd_of_le (by omega)] at he
    obtain ⟨s₁, hs₁, he⟩ := Option.bind_eq_some_iff.mp he
    split at hs₁
    · exact ((h.setMatch hr hmi).setNext hr (by omega) (by omega)).followUp hi hr hs₁ he
    · exact (h.setNext hr (by omega) (by omega)).followUp hi hr hs₁ he
  · obtain ⟨act, hact, he⟩ := Option.bind_eq_some_iff.mp he
    cases he
    have hbound : (s.nextIndex aer.responderId).getD 1 ≤ (a.log i).length + 1 := by
      cases hn : s.nextIndex aer.responderId with
      | none => exact Nat.le_add_left _ _
      | some k => exact ((h.sound.leader hr).next _ k hn).2
    have hdone := h.setNext hr (p := aer.responderId)
      (k := max (min ((s.nextIndex aer.responderId).getD 1 - 1) (satAdd aer.matchIndex 1)) 1)
      (by omega) (by omega)
    exact ⟨hdone, .cons (replicateTo_ok hdone.sane hdone.sound hr hact) .nil⟩

theorem Handled.installSnapshotResp (h : Handled c a₀ i folded d a s) {isr : InstallSnapshotResp}
    (hp : isr.installedIndex ≤ a.acked isr.responderId isr.term)
    (he : s.handleInstallSnapshotResp isr = some (s', acts)) :
    Handled c a₀ i folded d a s' ∧ ActionsOk c a s' acts := by
  unfold RaftState.handleInstallSnapshotResp at he
  split at he
  · cases he
    exact ⟨h, .nil⟩
  rename_i hcond
  rw [not_or, not_not, not_not] at hcond
  obtain ⟨hr, ht⟩ := hcond
  dsimp only at he
  split at he
  · cases he
    exact ⟨h, .nil⟩
  split at he
  · obtain ⟨next, hnext, he⟩ := Option.bind_eq_some_iff.mp he
    obtain ⟨rfl, _⟩ := addU64_eq_some.mp hnext
    obtain ⟨s₁, hs₁, he⟩ := Option.bind_eq_some_iff.mp he
    obtain ⟨hcur, hcurlen⟩ := h.sound.matched_le h.sane hr isr.responderId
    have hlast := h.sound.log.lastIndex_eq
    rw [ht] at hp
    generalize hmi : max ((s.matchIndex isr.responderId).getD 0)
      (min isr.installedIndex s.log.lastIndex) = mi at he hs₁
    have hset := (h.setMatch hr (p := isr.responderId) (m := mi) (by omega)).setNext hr
      (p := isr.responderId) (k := mi + 1) (by omega) (by omega)
    exact (hset.setCursor _).followUp hi hr hs₁ he
  · cases he
    exact ⟨h.setCursor _, .cons hr .nil⟩

end

end EventStream.Raft
