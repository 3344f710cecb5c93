import EventStream.Raft.Returns

/-! An AppendEntries whose fields are anything at all.

The log is looked at, never the numbers in the request: entries are walked over from the index
after `prev_log_index` on, the walk stops where the log parts from them, and a cut at or below the
commit index is refused. What is reported and committed is at most what the log then has. -/
namespace EventStream.Raft

namespace Log
variable {log log' : Log} {committed : Nat} {es : List LogEntry}

/-- Replacing what is behind the first `k` entries leaves these as they are. -/
theorem Counted.get_replace (h : log.Counted) {k : Nat} {out : List LogEntry}
    (hk : k ≤ log.entries.length) (h' : Counted {log with entries := log.entries.take k ++ out})
    {i : Nat} (hi : i ≤ log.baseIndex + k) :
    get {log with entries := log.entries.take k ++ out} i = log.get i := by
  rw [h.get_eq, h'.get_eq]
  dsimp only
  split
  · rfl
  · rw [List.getElem?_append_left (by rw [List.length_take]; omega),
      List.getElem?_take_of_lt (by omega)]

/-- What an append that is not refused does. -/
inductive Took (log : Log) (committed start : Nat) (es : List LogEntry) :
    Log → Option Nat → Prop where
  | same (hend : start + es.length ≤ log.lastIndex + 1) : Took log committed start es log none
  | changed {k first : Nat} {out : List LogEntry} (hk : k ≤ log.entries.length)
    (hcommitted : committed ≤ log.baseIndex + k)
    (hcounted : Counted {log with entries := log.entries.take k ++ out})
    (hend : log.baseIndex + k + 1 + out.length = start + es.length) :
    Took log committed start es {log with entries := log.entries.take k ++ out} (some first)

theorem Counted.appendAt_took (h : log.Counted) {start : Nat} {first : Option Nat}
    (hstart : start ≤ log.lastIndex + 1) (hcommitted : committed ≤ log.lastIndex)
    (ha : log.appendAt start es committed = some (log', .ok first)) :
    Took log committed start es log' first := by
  have hlast := h.lastIndex_eq
  obtain ⟨k, hskips, happends⟩ := appendAt_appends ha
  cases happends with
  | all hk => exact .same (hk ▸ hskips.le_lastIndex h hstart (Nat.le_of_eq hk))
  | changed hk hb hcut hout =>
    have hle := hskips.le_lastIndex h hstart (Nat.le_of_lt hk)
    have hbehind : committed < start + k := by
      rcases hcut with ⟨hnone, -⟩ | ⟨-, hc, -⟩
      · have := (h.get_eq_none_iff hb).mp hnone
        omega
      · exact hc
    obtain ⟨rfl, -⟩ := hcut.eq_take_at h hb hle
    obtain ⟨hnum, hlen⟩ := renumber_numbered hout
    rw [List.length_drop] at hlen
    exact .changed (by omega) (by omega) ((h.take _).concat hnum) (by omega)

end Log

namespace RaftState
variable {s s' : RaftState} {ae : AppendEntries} {aer : AppendEntriesResp}

/-- The log is numbered from the snapshot on, what is applied is committed, and what is committed
is in the log or in the snapshot. -/
structure Ordered (s : RaftState) : Prop where
  counted : s.log.Counted
  base : s.log.baseIndex ≤ s.lastApplied
  applied : s.lastApplied ≤ s.commitIndex
  committed : s.commitIndex ≤ s.log.lastIndex

theorem Alike.ordered (h : s.Alike s') (ho : s.Ordered) : s'.Ordered := by
  refine ⟨?_, ?_, ?_, ?_⟩
  · rw [h.log]; exact ho.counted
  · rw [h.log, h.lastApplied]; exact ho.base
  · rw [h.lastApplied, h.commitIndex]; exact ho.applied
  · rw [h.log, h.commitIndex]; exact ho.committed

/-- What the log may become: another one from behind the committed entries on. -/
structure Keeps (s s' : RaftState) : Prop where
  counted : s'.log.Counted
  base : s'.log.baseIndex = s.log.baseIndex
  entries : ∀ i ≤ s.commitIndex, s'.log.get i = s.log.get i
  committed : s.commitIndex ≤ s'.log.lastIndex

theorem Ordered.keeps (h : s.Ordered) : s.Keeps s := ⟨h.counted, rfl, fun _ _ => rfl, h.committed⟩

/-- What `append_from` does with a request that is consistent with the log. -/
theorem Ordered.appendFrom (h : s.Ordered) {took : Bool} (hprev : ae.prevLogIndex ≤ s.log.lastIndex)
    (ha : s.appendFrom ae = some (s', took)) :
    (took = false → s' = s) ∧ s.Keeps s' ∧ s'.commitIndex = s.commitIndex ∧
      s'.lastApplied = s.lastApplied ∧
      (took = true → satAdd ae.prevLogIndex ae.entries.length ≤ s'.log.lastIndex) := by
  have hsat : ∀ n, satAdd n ae.entries.length ≤ n + ae.entries.length := fun n =>
    Nat.min_le_left _ _
  unfold RaftState.appendFrom at ha
  split at ha
  · rename_i hnil
    cases ha
    refine ⟨nofun, h.keeps, rfl, rfl, fun _ => ?_⟩
    have := hsat ae.prevLogIndex
    rw [hnil, List.length_nil] at this ⊢
    exact Nat.le_trans this hprev
  · obtain ⟨r, hr, hmatch⟩ := Option.bind_eq_some_iff.mp ha
    have hstart : satAdd ae.prevLogIndex 1 ≤ ae.prevLogIndex + 1 := Nat.min_le_left _ _
    split at hmatch
    · cases hmatch
      obtain rfl := Log.appendAt_same hr nofun
      exact ⟨fun _ => rfl, h.keeps, rfl, rfl, nofun⟩
    · cases hmatch
      cases h.counted.appendAt_took (by omega) h.committed hr with
      | same hend =>
        refine ⟨nofun, h.keeps, rfl, rfl, fun _ => ?_⟩
        simp only [satAdd] at hend ⊢
        omega
    · obtain ⟨changed, -, hmatch⟩ := Option.bind_eq_some_iff.mp hmatch
      cases hmatch
      cases h.counted.appendAt_took (by omega) h.committed hr with
      | @changed k _ out hk hcommitted hcounted hend =>
        have hlast := hcounted.lastIndex_eq
        have hlen : (s.log.entries.take k ++ out).length = k + out.length := by
          rw [List.length_append, List.length_take, Nat.min_eq_left hk]
        have hpos : 0 < ae.entries.length := List.length_pos_iff.mpr ‹_›
        dsimp only at hlast
        rw [hlen] at hlast
        refine ⟨nofun, ⟨hcounted, rfl, fun i hi => ?_, ?_⟩, rfl, rfl, fun _ => ?_⟩
        · exact h.counted.get_replace hk hcounted (Nat.le_trans hi hcommitted)
        · dsimp only
          omega
        · simp only [satAdd] at hend ⊢
          omega

/-- What an AppendEntries is answered, and what has become of the state. -/
structure Answered (s s' : RaftState) (aer : AppendEntriesResp) : Prop where
  keeps : s.Keeps s'
  commit : s.commitIndex ≤ s'.commitIndex
  applied : s'.lastApplied = s.lastApplied
  reaches : s'.commitIndex ≤ s'.log.lastIndex
  refused : aer.success = false → s'.log = s.log
  took : aer.success = true → aer.matchIndex ≤ s'.log.lastIndex

theorem Answered.of_alike {s₀ : RaftState} (h : s₀.Answered s' aer) (ha : s.Alike s₀) :
    s.Answered s' aer where
  keeps := ⟨h.keeps.counted, by rw [← ha.log]; exact h.keeps.base,
    fun i hi => by rw [← ha.log]; exact h.keeps.entries i (ha.commitIndex ▸ hi),
    ha.commitIndex ▸ h.keeps.committed⟩
  commit := ha.commitIndex ▸ h.commit
  applied := h.applied.trans ha.lastApplied
  reaches := h.reaches
  refused hno := (h.refused hno).trans ha.log
  took := h.took

theorem Ordered.refuse (h : s.Ordered) (hno : aer.success = false) : s.Answered s aer :=
  ⟨h.keeps, Nat.le_refl _, rfl, h.committed, fun _ => rfl,
    fun hyes => Bool.noConfusion (hno.symm.trans hyes)⟩

theorem Ordered.handleAppendEntries (h : s.Ordered) {acts : List Action}
    (ha : s.handleAppendEntries ae = some (s', acts)) :
    ∃ aer, s.Answered s' aer ∧
      ∀ a ∈ acts, a = .sendTo ae.leaderId (.appendEntriesResp aer) ∨ a = .resetElectionTimer := by
  unfold RaftState.handleAppendEntries at ha
  dsimp only at ha
  split at ha
  · cases ha
    exact ⟨_, h.refuse rfl, fun a ha => .inl (List.mem_singleton.mp ha)⟩
  · have halike := s.alike_acceptLeader ae.term ae.leaderId
    have hordered := halike.ordered h
    obtain ⟨⟨s₁, took⟩, htake, ha⟩ := Option.map_eq_some_iff.mp ha
    have hspec : (took = false → s₁ = s.acceptLeader ae.term ae.leaderId) ∧
        (s.acceptLeader ae.term ae.leaderId).Keeps s₁ ∧
        s₁.commitIndex = (s.acceptLeader ae.term ae.leaderId).commitIndex ∧
        s₁.lastApplied = (s.acceptLeader ae.term ae.leaderId).lastApplied ∧
        (took = true → satAdd ae.prevLogIndex ae.entries.length ≤ s₁.log.lastIndex) := by
      unfold RaftState.takeEntries at htake
      split at htake
      · rename_i hconsistent
        exact hordered.appendFrom (consistent_le hordered.counted hconsistent) htake
      · cases htake
        exact ⟨fun _ => rfl, hordered.keeps, rfl, rfl, nofun⟩
    obtain ⟨hsame, hkeeps, hcommit, happlied, hreach⟩ := hspec
    have hcommitted := hkeeps.committed
    have hpair : ∀ {aer : AppendEntriesResp} {a : Action},
        a ∈ [Action.sendTo ae.leaderId (.appendEntriesResp aer), .resetElectionTimer] →
        a = .sendTo ae.leaderId (.appendEntriesResp aer) ∨ a = .resetElectionTimer := by
      intro aer a ha
      simpa using ha
    cases took with
    | false =>
      obtain rfl := hsame rfl
      cases ha
      exact ⟨_, (hordered.refuse rfl).of_alike halike, fun a ha => hpair ha⟩
    | true =>
      have hlast := hreach rfl
      obtain ⟨c, hc, hle, hmax⟩ : ∃ c, (if s₁.commitIndex < ae.leaderCommit then
            {s₁ with commitIndex := max (min ae.leaderCommit
              (satAdd ae.prevLogIndex ae.entries.length)) s₁.commitIndex}
          else s₁) = {s₁ with commitIndex := c} ∧ s₁.commitIndex ≤ c ∧ c ≤ s₁.log.lastIndex := by
        split
        · exact ⟨_, rfl, Nat.le_max_right _ _, by omega⟩
        · exact ⟨s₁.commitIndex, rfl, Nat.le_refl _, by omega⟩
      dsimp only at ha
      rw [if_pos rfl, hc] at ha
      cases ha
      refine ⟨_, ?_, fun a ha => hpair ha⟩
      exact Answered.of_alike ⟨⟨hkeeps.counted, hkeeps.base, hkeeps.entries, hkeeps.committed⟩,
        Nat.le_trans (Nat.le_of_eq hcommit.symm) hle, happlied, hmax, nofun, fun _ => hlast⟩ halike

/-- Whatever an AppendEntries carries, no committed entry changes, the commit and the applied
index do not fall, and the state stays in order; a request that is answered with `false` leaves
the log as it was, and one that is answered with `true` is told no index the log does not reach.
The node answers as long as the entries leave room below the end of a `u64`. -/
theorem append_entries_keeps_committed (h : s.Ordered) (ae : AppendEntries) (progress : Nat) :
    (∀ s' out, s.onMessageWithProgress (.appendEntries ae) progress = some (s', out) →
      (∀ i ≤ s.commitIndex, s'.log.get i = s.log.get i) ∧ s.commitIndex ≤ s'.commitIndex ∧
      s.lastApplied ≤ s'.lastApplied ∧ s'.Ordered ∧
      ∀ peer aer, .sendTo peer (.appendEntriesResp aer) ∈ out →
        (aer.success = false → s'.log = s.log) ∧
        (aer.success = true → aer.matchIndex ≤ s'.log.lastIndex)) ∧
    (s.log.lastIndex + ae.entries.length + 1 < u64Max →
      ∃ r, s.onMessageWithProgress (.appendEntries ae) progress = some r) := by
  have hdown : s.Alike (if s.currentTerm < ae.term then s.stepDownTo ae.term else s) := by
    split
    · exact s.alike_stepDownTo _
    · exact .refl s
  refine ⟨fun s' out hm => ?_, fun hroom => ?_⟩
  · unfold RaftState.onMessageWithProgress at hm
    split at hm
    · cases hm
      exact ⟨fun _ _ => rfl, Nat.le_refl _, Nat.le_refl _, h, fun _ _ hno =>
        absurd hno List.not_mem_nil⟩
    · obtain ⟨⟨s₁, acts⟩, hdispatch, hm⟩ := Option.bind_eq_some_iff.mp hm
      simp only [decide_eq_true_eq] at hdispatch
      obtain ⟨aer, hanswered, hacts⟩ := (hdown.ordered h).handleAppendEntries hdispatch
      have hanswered := hanswered.of_alike hdown
      obtain ⟨hregrouped, happlies⟩ := s₁.drainApplyActions_regrouped
      have halike := hregrouped.alike
      have hbase := hanswered.keeps.base
      dsimp only at hm
      generalize s₁.drainApplyActions = drained at hm halike happlies
      cases hm
      refine ⟨fun i hi => ?_, ?_, ?_, ⟨?_, ?_, ?_, ?_⟩, fun peer aer' hmem => ?_⟩
      · rw [halike.log]
        exact hanswered.keeps.entries i hi
      · rw [halike.commitIndex]
        exact hanswered.commit
      · rw [halike.lastApplied, ← hanswered.applied]
        exact Nat.le_max_left _ _
      · rw [halike.log]
        exact hanswered.keeps.counted
      · rw [halike.log, halike.lastApplied, hbase]
        exact Nat.le_trans (hanswered.applied ▸ h.base) (Nat.le_max_left _ _)
      · rw [halike.lastApplied, halike.commitIndex, hanswered.applied]
        exact Nat.max_le.mpr ⟨Nat.le_trans h.applied hanswered.commit, Nat.le_refl _⟩
      · rw [halike.log, halike.commitIndex]
        exact hanswered.reaches
      · obtain rfl : aer' = aer := by
          rcases List.mem_append.mp hmem with hmem | hmem
          · have hmem : Action.sendTo peer (.appendEntriesResp aer') ∈ acts := by
              split at hmem
              · exact (List.mem_cons.mp hmem).resolve_left nofun
              · exact hmem
            rcases hacts _ hmem with heq | heq
            · cases heq
              rfl
            · cases heq
          · obtain ⟨e, he⟩ := happlies _ hmem
            cases he
        rw [halike.log]
        exact ⟨hanswered.refused, hanswered.took⟩
  · unfold RaftState.onMessageWithProgress
    split
    · exact ⟨_, rfl⟩
    · obtain ⟨r, hr, -⟩ := (hdown.ordered h).counted.appendEntries_returns
        (hdown.log.symm ▸ hroom)
      simp only [decide_eq_true_eq, dispatch]
      rw [show Message.term (.appendEntries ae) = ae.term from rfl, hr]
      exact ⟨_, rfl⟩

/-- A node with a snapshot up to 2, two entries behind it, and the first of them committed. -/
def midway : RaftState :=
  { RaftState.new 1 [2, 3] with
    currentTerm := 4
    log := { entries := [⟨3, 3, [1]⟩, ⟨4, 4, [2]⟩], baseIndex := 2, baseTerm := 2 }
    commitIndex := 3
    lastApplied := 2 }

theorem midway_ordered : midway.Ordered :=
  ⟨contiguous_numbered (by decide) (by decide), by decide, by decide, by decide⟩

/-- A request that starts inside the snapshot, with entries numbered at will, replaces what is not
committed. -/
def wildRequest : AppendEntries := ⟨5, 2, 1, 9, [⟨0, 77, []⟩, ⟨3, 0, []⟩, ⟨9, 0, [5]⟩], 2 ^ 64 - 1⟩

theorem append_entries_keeps_committed_wild :
    (∃ s' out, midway.onMessageWithProgress (.appendEntries wildRequest) 0 = some (s', out) ∧
      s'.log.entries = [⟨3, 3, [1]⟩, ⟨9, 4, [5]⟩] ∧ s'.commitIndex = 4) ∧
    ∀ s' out, midway.onMessageWithProgress (.appendEntries wildRequest) 0 = some (s', out) →
      s'.log.get 3 = midway.log.get 3 ∧ s'.Ordered := by
  refine ⟨⟨_, _, rfl, by decide, by decide⟩, fun s' out hm => ?_⟩
  obtain ⟨hentries, -, -, hordered, -⟩ :=
    (append_entries_keeps_committed midway_ordered wildRequest 0).1 s' out hm
  exact ⟨hentries 3 (by decide), hordered⟩

end RaftState

end EventStream.Raft
