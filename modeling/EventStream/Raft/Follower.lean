import EventStream.Raft.Voting

/-! The follower's side: taking a leader's entries and its snapshots.

Both rest on log matching. The consistency check, or the snapshot's last entry, shows
that the follower's log and the leader's agree up to a point; what the follower then
drops is not committed, because everything committed is in the leader's log. -/
namespace EventStream.Raft
open Consensus (Step)

variable {c : Cluster} {a₀ a a' : Proto} {i n ldr : NodeId} {folded x l covers : List LogEntry}
    {d : PersistedRaft} {s s' : RaftState} {ae : AppendEntries} {k progress : Nat}
    {is : InstallSnapshot} {log : Log}

/-! ### Moves of a follower -/

/-- A move within the term, which changes at most the node's log and what it has
acknowledged. -/
structure Stays (c : Cluster) (i : NodeId) (a a' : Proto) : Prop where
  moves : c.Moves i a a'
  sane : Sane c a'
  extend : Consensus.Extends a a'
  term : a'.term = a.term
  vote : a'.vote = a.vote
  leader : a'.leader = a.leader
  lead : a'.lead = a.lead

theorem Stays.trans {a'' : Proto} (h : Stays c i a a') (h' : Stays c i a' a'') : Stays c i a a'' :=
  ⟨h.moves.trans h'.moves, h'.sane, h.extend.trans h'.extend, h'.term.trans h.term,
    h'.vote.trans h.vote, h'.leader.trans h.leader, h'.lead.trans h.lead⟩

theorem Sane.ack (hs : Sane c a) (hx : x <+: a.log i) (hl : x <+: a.lead (a.term i)) :
    ∃ a', Stays c i a a' ∧ a'.log = a.log ∧ x.length ≤ a'.acked i (a.term i) := by
  have hstep : Step LogEntry.term c.quorums i a _ := .ack x hx hl
  refine ⟨_, ⟨.single hstep, hs.move hstep fun _ => rfl,
    Consensus.extends_of_step hs.inv hstep, rfl, rfl, rfl, rfl⟩, rfl, ?_⟩
  show _ ≤ Consensus.set₂ a.acked i (a.term i) _ i (a.term i)
  rw [Consensus.set₂_self]
  exact Nat.le_max_right _ _

/-- Give up what conflicts with a prefix `x` of the leader's log, keep or copy `y`. -/
theorem Sane.replace (hs : Sane c a) {y : List LogEntry} (hl : a.leader (a.term i) = some (n, l))
    (hne : n ≠ i) (hx : x <+: a.lead (a.term i)) (hn : ¬ x <+: a.log i) (hy : y <+: x)
    (hk : ∀ z, z <+: a.log i → z <+: x → z <+: y) : ∃ a', Stays c i a a' ∧ a'.log i = y := by
  have hstep : Step LogEntry.term c.quorums i a _ := .replace n l x y hl hne hx hn hy hk
  exact ⟨_, ⟨.single hstep, hs.move hstep fun _ => rfl,
    Consensus.extends_of_step hs.inv hstep, rfl, rfl, rfl, rfl⟩, Function.update_self ..⟩

/-- Copy a prefix of the leader's log that the node does not have, and acknowledge it. -/
theorem Sane.copy (hs : Sane c a) (hl : a.leader (a.term i) = some (n, l)) (hne : n ≠ i)
    (hx : x <+: a.lead (a.term i)) (hn : ¬ x <+: a.log i) :
    ∃ a', Stays c i a a' ∧ a'.log i = x ∧ x.length ≤ a'.acked i (a.term i) := by
  obtain ⟨a₁, h₁, hlog₁⟩ := hs.replace hl hne hx hn List.prefix_rfl fun z _ hz => hz
  obtain ⟨a₂, h₂, hlog₂, hack⟩ := h₁.sane.ack (hlog₁ ▸ List.prefix_rfl) (h₁.lead ▸ h₁.term ▸ hx)
  exact ⟨a₂, h₁.trans h₂, (congrFun hlog₂ i).trans hlog₁, h₁.term ▸ hack⟩

/-- What is committed stays so in a log that still holds it. -/
theorem Sound.keep_committed (h : Sound c a i folded s) (he : Consensus.Extends a a')
    (hkeep : (a.log i).take s.commitIndex <+: l) :
    c.Settled a' s.currentTerm (l.take s.commitIndex) ∧ s.commitIndex ≤ l.length := by
  have hlen : ((a.log i).take s.commitIndex).length = s.commitIndex := by
    rw [List.length_take, Nat.min_eq_left h.commit_length]
  have htake := take_of_isPrefix hkeep hlen.ge
  rw [List.take_take, Nat.min_self] at htake
  rw [htake]
  exact ⟨h.committed.mono he (Nat.le_refl _), hlen ▸ hkeep.length_le⟩

/-- A follower's log changes, and with it what it may treat as committed. -/
theorem Sound.setLog {folded' : List LogEntry} (h : Sound c a i folded s) (hr : s.role = .follower)
    (hst : Stays c i a a') {commit applied : Nat} (hlog : log.Holds folded' (a'.log i))
    (hcommit : c.Settled a' s.currentTerm ((a'.log i).take commit) ∧ commit ≤ (a'.log i).length)
    (hbase : log.baseIndex ≤ applied) (happ : applied ≤ commit)
    (hfold : c.Settled a' (a.term i) folded') (ops : List PersistOp) :
    Sound c a' i folded'
      {s with log, commitIndex := commit, lastApplied := applied, pending := ops} where
  me := h.me
  peers := h.peers
  log := hlog
  term := hst.term ▸ h.term
  vote := hst.vote ▸ h.vote
  base_applied := hbase
  applied_commit := happ
  commit_length := hcommit.2
  committed := hcommit.1
  standing :=
    {h.standing.mono hst.extend (congrFun hst.term i) with settled := hst.term ▸ hfold}
  candidate := fun hc => by rw [show s.role = _ from hc] at hr; cases hr
  leader := fun hc => by rw [show s.role = _ from hc] at hr; cases hr

/-! ### Log matching with the leader -/

/-- The follower's log and the log of the term's leader match. -/
theorem Sound.matches (hs : Sane c a) (h : Sound c a i folded s)
    (hl : a.leader s.currentTerm = some (n, l)) :
    Log.Matches (a.log i) (a.lead s.currentTerm) s.log.baseIndex := by
  refine ⟨fun k e f he hf ht => ?_, fun k hk hg => ?_⟩
  · have hpre {m : List LogEntry} {e : LogEntry} (he : m[k]? = some e) :
        m.take k ++ [e] <+: m := by
      have := List.take_prefix (k + 1) m
      rwa [List.take_add_one, he] at this
    have hlen {m : List LogEntry} {e : LogEntry} (he : m[k]? = some e) :
        (m.take k).length = k := by
      rw [List.length_take, Nat.min_eq_left (Nat.le_of_lt (List.getElem?_eq_some_iff.mp he).1)]
    rw [List.take_add_one, List.take_add_one, he, hf]
    exact (hs.inv.log_log i).1.matching (hs.inv.lead_log _) (hpre he) (hpre hf)
      ((hlen he).trans (hlen hf).symm) ht
  · have hfold : folded <+: a.lead s.currentTerm :=
      Consensus.settled_lead hs.inv h.standing.settled (h.term ▸ Nat.le_refl _)
        (by rw [hl]; exact Option.some_ne_none _)
    rw [h.log.base] at hk
    rw [take_of_isPrefix h.log.folded_isPrefix hk, take_of_isPrefix hfold hk]

/-- What is committed at the follower is in the leader's log. -/
theorem Sound.committed_lead (hs : Sane c a) (h : Sound c a i folded s)
    (hl : a.leader s.currentTerm = some (n, l)) :
    (a.log i).take s.commitIndex <+: a.lead s.currentTerm :=
  Consensus.settled_lead hs.inv h.committed (Nat.le_refl _)
    (by rw [hl]; exact Option.some_ne_none _)

/-- A consistent request starts where the two logs still agree. -/
theorem Sound.consistent (hs : Sane c a) (h : Sound c a i folded s) (hp : AppendOk c a ae)
    (ht : ae.term = s.currentTerm) (hc : s.consistent ae = true) :
    (a.log i).take ae.prevLogIndex = (a.lead s.currentTerm).take ae.prevLogIndex ∧
      ae.prevLogIndex ≤ (a.log i).length := by
  obtain ⟨l, hl⟩ := hp.elected
  have hprev := hp.prev_le
  have hprevTerm := hp.prevTerm
  rw [ht] at hl hprev hprevTerm
  have hm := h.matches hs hl
  have hbl := h.log.base_le
  unfold RaftState.consistent at hc
  split at hc
  · rename_i h0
    rw [h0]
    exact ⟨rfl, Nat.zero_le _⟩
  rename_i h0
  split at hc
  · rename_i hb
    have := hm.below (ae.prevLogIndex - 1) (by omega) (by omega)
    rw [Nat.sub_add_cancel (by omega)] at this
    exact ⟨this, by omega⟩
  · obtain ⟨_, e, he, het⟩ := h.log.termAt_some (by omega) (eq_of_beq hc)
    obtain ⟨f, hf, hft⟩ := Option.map_eq_some_iff.mp (hprevTerm (by omega))
    have := hm.entry _ e f he hf (het.trans hft.symm)
    rw [Nat.sub_add_cancel (by omega)] at this
    exact ⟨this, by
      have := (List.getElem?_eq_some_iff.mp he).1
      omega⟩

/-- The sender of a message of the node's own term is accepted as its leader. -/
theorem Early.acceptLeader (h : Early c a₀ i folded d a s) {t : Nat} (ldr : NodeId)
    (ht : t = s.currentTerm) :
    Early c a₀ i folded d a (s.acceptLeader t ldr) ∧
      s.acceptLeader t ldr = {s with role := .follower, leaderHint := some ldr} := by
  have heq : s.acceptLeader t ldr = {s with role := .follower, leaderHint := some ldr} := by
    unfold RaftState.acceptLeader
    rw [if_neg (by omega)]
  rw [heq]
  exact ⟨h.volatile {h.sound with
    candidate := fun hc => by cases hc
    leader := fun hc => by cases hc} rfl rfl, rfl⟩

/-! ### AppendEntries -/

/-- What a follower owes after taking the first `n` of the leader's log. -/
structure Took (c : Cluster) (a₀ : Proto) (i : NodeId) (folded : List LogEntry)
    (d : PersistedRaft) (a a' : Proto) (s s' : RaftState) (n : Nat) : Prop where
  handled : Handled c a₀ i folded d a' s'
  stays : Stays c i a a'
  held : (a.lead s.currentTerm).take n <+: a'.log i
  acked : ((a.lead s.currentTerm).take n).length ≤ a'.acked i s.currentTerm
  term : s'.currentTerm = s.currentTerm
  role : s'.role = .follower

/-- The follower has the entries already and acknowledges them. -/
theorem Early.took (h : Early c a₀ i folded d a s) (hr : s.role = .follower) {n : Nat}
    (hheld : (a.lead s.currentTerm).take n <+: a.log i) :
    ∃ a', Took c a₀ i folded d a a' s s n := by
  obtain ⟨a', hst, hlog, hack⟩ := h.sane.ack hheld (h.sound.term ▸ List.take_prefix _ _)
  rw [h.sound.term] at hack
  refine ⟨a', h.handled.move hst.moves hst.sane (congrFun hlog i) ?_ rfl rfl, hst,
    hlog ▸ hheld, hack, rfl, hr⟩
  exact h.sound.mono hst.extend (congrFun hst.term i) (congrFun hlog i) (congrFun hst.vote i)
    fun l hl => hst.leader ▸ hl

theorem Log.Holds.filter_truncate (h : log.Holds folded l) (hk : log.baseIndex < k + 1) :
    log.entries.filter (fun e => e.index < k + 1) = (log.truncateFrom (k + 1)).entries := by
  rw [Numbered.filter_lt h.counted, h.counted.truncateFrom_eq hk]

section
variable (h : Early c a₀ i folded d a s)
include h

section
variable (hr : s.role = .follower)
include hr

/-- The follower's log is cut where it parts from the leader's, after `k` entries. -/
theorem Early.cut (hl : a.leader s.currentTerm = some (ldr, l)) (hne : ldr ≠ i)
    (hk : k < (a.lead s.currentTerm).length) (hparts : Log.Parts (a.log i) (a.lead s.currentTerm) k)
    (hb : s.log.baseIndex ≤ k) (hc : s.commitIndex ≤ k) :
    ∃ a', Handled c a₀ i folded d a'
        { s with
          log := s.log.truncateFrom (k + 1)
          pending := s.pending ++ [.truncateFrom (k + 1)] } ∧
      Stays c i a a' ∧ a'.log i = (a.log i).take k := by
  have hs := h.sound
  have hT := hs.term
  have hlk : ((a.log i).take k).length = k := by
    rw [List.length_take, Nat.min_eq_left hparts.le]
  have hnot : ¬ a.lead s.currentTerm <+: a.log i := fun hp => by
    have := hparts.prefix_le hp List.prefix_rfl
    omega
  obtain ⟨a', hst, hlog⟩ := h.sane.replace (hT ▸ hl) hne (hT ▸ List.prefix_rfl) hnot
    (hparts.agree ▸ List.take_prefix _ _ : (a.log i).take k <+: _)
    (fun z hz hzg => List.prefix_of_prefix_length_le hz (List.take_prefix _ _)
      (hlk.symm ▸ hparts.prefix_le hz hzg))
  have hlt : s.log.baseIndex < k + 1 := by omega
  have hholds := hs.log.truncateFrom hlt
  rw [Nat.add_sub_cancel, ← hlog] at hholds
  have hsound := hs.setLog hr hst hholds
    (hs.keep_committed hst.extend (hlog ▸ List.take_prefix_take_left hc))
    (hholds.base ▸ hs.log.base ▸ hs.base_applied) hs.applied_commit
    (hs.standing.settled.mono hst.extend (Nat.le_refl _)) (s.pending ++ [.truncateFrom (k + 1)])
  exact ⟨a', h.write hst.moves hst.sane hsound rfl
    (congrArg (PersistedRaft.mk _ _) (hs.log.filter_truncate hlt)), hst, hlog⟩

/-- The follower's log parts from the leader's after `k` entries: it is cut there and
continued with the leader's. -/
theorem Early.overwrite (hl : a.leader s.currentTerm = some (ldr, l)) (hne : ldr ≠ i) {n : Nat}
    (hk : k < n) (hn : n ≤ (a.lead s.currentTerm).length)
    (hparts : Log.Parts (a.log i) (a.lead s.currentTerm) k) (hb : s.log.baseIndex ≤ k)
    (hc : s.commitIndex ≤ k) {after : Log}
    (hafter : after.Holds folded ((a.lead s.currentTerm).take n)) :
    ∃ a', Took c a₀ i folded d a a' s
      { s with
        log := after
        pending := s.pending ++
          [.truncateFrom (k + 1), .append (((a.lead s.currentTerm).take n).drop k)] } n := by
  have hs := h.sound
  obtain ⟨a₁, h₁, hst₁, hlog₁⟩ := h.cut hr hl hne (by omega) hparts hb hc
  have hT₁ : a₁.term i = s.currentTerm := (congrFun hst₁.term i).trans hs.term
  have hlead₁ : a₁.lead (a₁.term i) = a.lead s.currentTerm := by
    rw [hT₁, hst₁.lead]
  generalize hg : a.lead s.currentTerm = g at *
  have hpre : g.take n <+: a₁.lead (a₁.term i) := hlead₁.symm ▸ List.take_prefix n g
  have hglen : (g.take n).length = n := by
    rw [List.length_take, Nat.min_eq_left hn]
  have hcut : a₁.log i = (g.take n).take k := by
    rw [hlog₁, hparts.agree, List.take_take, Nat.min_eq_left (by omega)]
  have hcutlen : (a₁.log i).length = k := by
    rw [hcut, List.length_take, hglen]
    omega
  obtain ⟨a₂, hst₂, hlog₂, hack⟩ := h₁.sane.copy (hT₁ ▸ hst₁.leader ▸ hl) hne hpre fun hp => by
    have := hp.length_le
    omega
  have hbase : (s.log.truncateFrom (k + 1)).baseIndex = after.baseIndex :=
    h₁.sound.log.base.trans hafter.base.symm
  have hsound := h₁.sound.setLog hr hst₂ (hlog₂ ▸ hafter)
    (h₁.sound.keep_committed hst₂.extend
      (by rw [hlog₂, hcut, List.take_take]; exact List.take_prefix _ _))
    (hbase ▸ h₁.sound.base_applied) h₁.sound.applied_commit
    (h₁.sound.standing.settled.mono hst₂.extend (Nat.le_refl _))
    (s.pending ++ ([.truncateFrom (k + 1), .append ((g.take n).drop k)] : List PersistOp))
  have hentries : (s.log.truncateFrom (k + 1)).entries ++ (g.take n).drop k = after.entries := by
    rw [h₁.sound.log.entries_eq, hbase, hafter.entries_eq, ← List.drop_append_of_le_length, hcut,
      List.take_append_drop]
    rw [hcutlen, hafter.base, ← hs.log.base]
    exact hb
  have hpend : s.pending ++
        ([.truncateFrom (k + 1), .append ((g.take n).drop k)] : List PersistOp) =
      s.pending ++ ([.truncateFrom (k + 1)] : List PersistOp) ++
        ([.append ((g.take n).drop k)] : List PersistOp) := by
    rw [List.append_assoc]
    rfl
  have hdone := h₁.write hst₂.moves hst₂.sane (by rw [hlog₂, hcut]; exact List.take_prefix _ _)
    hsound hpend (congrArg (PersistedRaft.mk _ _) hentries)
  exact ⟨a₂, hdone, hst₁.trans hst₂, by rw [hg, hlog₂], by rw [hg, ← hT₁]; exact hack, rfl, hr⟩

theorem Early.appendFrom (hp : AppendOk c a ae) (ht : ae.term = s.currentTerm)
    (hne : ae.leaderId ≠ i) (hc : s.consistent ae = true) {applied : Bool}
    (he : s.appendFrom ae = some (s', applied)) :
    (applied = false ∧ s' = s) ∨ (applied = true ∧
      ∃ a', Took c a₀ i folded d a a' s s' (ae.prevLogIndex + ae.entries.length)) := by
  obtain ⟨hprev, hlen⟩ := h.sound.consistent h.sane hp ht hc
  obtain ⟨l, hl⟩ := hp.elected
  have hentries := hp.entries
  rw [ht] at hl hentries
  unfold RaftState.appendFrom at he
  split at he
  · rename_i hnil
    cases he
    refine .inr ⟨rfl, h.took hr ?_⟩
    rw [hnil, List.length_nil, Nat.add_zero, ← hprev]
    exact List.take_prefix _ _
  obtain ⟨⟨log', r⟩, hr', he⟩ := Option.bind_eq_some_iff.mp he
  have hsmall := h.sound.log.small
  rw [satAdd_of_le (by omega)] at hr'
  have hspec := h.sound.log.appendAt_spec (h.sound.matches h.sane hl) hentries hprev hlen
    (fun k e hk => (h.sane.entry _ k e hk).1) (h.sane.small _) hr'
  cases hspec with
  | all hall =>
    cases he
    exact .inr ⟨rfl, h.took hr hall⟩
  | refused =>
    cases he
    exact .inl ⟨rfl, rfl⟩
  | changed k _ hk hg hafter hparts hb hcom =>
    obtain ⟨changed, hch, he⟩ := Option.bind_eq_some_iff.mp he
    cases he
    have hcommit : s.commitIndex ≤ k := by
      have := h.sound.commit_length
      omega
    have hlow : log'.baseIndex < k + 1 := by
      rw [hafter.base, ← h.sound.log.base]
      omega
    have hhigh : k + 1 ≤
        ((a.lead s.currentTerm).take (ae.prevLogIndex + ae.entries.length)).length := by
      rw [List.length_take]
      omega
    rw [hafter.slice_eq hlow hhigh, Nat.add_sub_cancel] at hch
    cases hch
    exact .inr ⟨rfl, h.overwrite hr hl hne hk hg hparts hb hcommit hafter⟩

end

end

/-- Commit what the leader has committed, as far as the request reached. -/
theorem Took.commit {n : Nat} (h : Took c a₀ i folded d a a' s s' n) (hp : AppendOk c a ae)
    (ht : ae.term = s.currentTerm) (hn : n ≤ (a.lead s.currentTerm).length) :
    Handled c a₀ i folded d a'
      { s' with commitIndex := max (min ae.leaderCommit n) s'.commitIndex } := by
  have hs := h.handled.sound
  have hheld := h.held
  have hcom := hp.committed
  rw [ht] at hcom
  generalize hg : a.lead s.currentTerm = g at hheld hn hcom
  have hglen : (g.take n).length = n := by
    rw [List.length_take, Nat.min_eq_left hn]
  have hnlen : n ≤ (a'.log i).length := hglen ▸ hheld.length_le
  have hclen := hs.commit_length
  refine h.handled.volatile {hs with
    applied_commit := hs.applied_commit.trans (Nat.le_max_right _ _)
    commit_length := Nat.max_le.mpr ⟨(Nat.min_le_right _ _).trans hnlen, hclen⟩
    committed := ?_} rfl rfl
  show c.Settled a' s'.currentTerm ((a'.log i).take (max (min ae.leaderCommit n) s'.commitIndex))
  rcases Nat.le_total (min ae.leaderCommit n) s'.commitIndex with hle | hle
  · rw [Nat.max_eq_right hle]
    exact hs.committed
  · have hsame : (a'.log i).take (min ae.leaderCommit n) = g.take (min ae.leaderCommit n) := by
      rw [take_of_isPrefix hheld (by rw [hglen]; exact Nat.min_le_right _ _), List.take_take,
        Nat.min_assoc, Nat.min_self]
    rw [Nat.max_eq_left hle, hsame, h.term]
    exact (hcom.mono h.stays.extend (Nat.le_refl _)).of_isPrefix
      (List.take_prefix_take_left (Nat.min_le_left _ _))

theorem Early.appendEntries (h : Early c a₀ i folded d a s) (hp : AppendOk c a ae)
    (hle : ae.term ≤ s.currentTerm) (hne : ae.leaderId ≠ i) {acts : List Action}
    (he : s.handleAppendEntries ae = some (s', acts)) :
    ∃ a', Handled c a₀ i folded d a' s' ∧ ActionsOk c a' s' acts := by
  unfold RaftState.handleAppendEntries at he
  dsimp only at he
  split at he
  · cases he
    exact ⟨a, h.handled, .cons (fun hc => absurd hc Bool.false_ne_true) .nil⟩
  rename_i hge
  obtain ⟨h₁, heq⟩ := h.acceptLeader ae.leaderId (show ae.term = s.currentTerm by omega)
  generalize s.acceptLeader ae.term ae.leaderId = s₁ at he h₁ heq
  have hr : s₁.role = .follower := heq ▸ rfl
  have ht : ae.term = s₁.currentTerm := by
    rw [heq]
    show ae.term = s.currentTerm
    omega
  obtain ⟨⟨s₂, applied⟩, hs₂, hout⟩ := Option.map_eq_some_iff.mp he
  have hrefused : applied = false → s₂ = s₁ →
      ∃ a', Handled c a₀ i folded d a' s' ∧ ActionsOk c a' s' acts := by
    rintro rfl rfl
    cases hout
    exact ⟨a, h₁.handled, .cons (fun hc => absurd hc Bool.false_ne_true) .reset⟩
  unfold RaftState.takeEntries at hs₂
  split at hs₂
  · rename_i hc
    rcases h₁.appendFrom hr hp ht hne hc hs₂ with ⟨ha, heq⟩ | ⟨rfl, a₂, htook⟩
    · exact hrefused ha heq
    have hn : ae.prevLogIndex + ae.entries.length ≤ (a.lead s₁.currentTerm).length := by
      have hprev := hp.prev_le
      have := hp.entries.length_le
      rw [List.length_drop, ht] at this
      rw [ht] at hprev
      omega
    have hsmall := h.sane.small s₁.currentTerm
    rw [satAdd_of_le (by omega)] at hout
    have hack : ae.prevLogIndex + ae.entries.length ≤ a₂.acked i s₂.currentTerm := by
      have := htook.acked
      rw [List.length_take, Nat.min_eq_left hn] at this
      rw [htook.term]
      exact this
    have hme := htook.handled.sound.me
    dsimp only at hout
    rw [if_pos rfl] at hout
    split at hout
    · cases hout
      exact ⟨a₂, htook.commit hp ht hn, .cons (fun _ => hme ▸ hack) .reset⟩
    · cases hout
      exact ⟨a₂, htook.handled, .cons (fun _ => hme ▸ hack) .reset⟩
  · cases hs₂
    exact hrefused rfl rfl

/-! ### InstallSnapshot -/

/-- The entry at the end of a list that is not empty. -/
theorem getElem?_last (hl : 0 < l.length) :
    ∃ e, l[l.length - 1]? = some e ∧ e.term = lastTermOf l := by
  have hlt : l.length - 1 < l.length := by omega
  refine ⟨l[l.length - 1], List.getElem?_eq_getElem hlt, ?_⟩
  have := Log.lastTermOf_take (List.getElem?_eq_getElem hlt)
  rw [Nat.sub_add_cancel hl, List.take_length] at this
  exact this.symm

/-- A snapshot past the base is kept with the entries after it exactly if the log has all
the entries it stands for. Otherwise nothing past it was committed. -/
theorem Sound.install_cases (hs : Sane c a) (h : Sound c a i folded s)
    (hp : InstallOk c a is covers) (ht : is.term = s.currentTerm)
    (hb : s.log.baseIndex < is.lastIndex) :
    (∃ log, s.log.installSnapshot is.lastIndex is.lastTerm = (true, log) ∧
        covers <+: a.log i ∧ log.Holds covers (a.log i)) ∨
      (∃ log, s.log.installSnapshot is.lastIndex is.lastTerm = (false, log) ∧
        ¬ covers <+: a.log i ∧ log.Holds covers covers ∧ log.entries = [] ∧
        (a.log i).take s.commitIndex <+: covers) := by
  obtain ⟨⟨ldr, hl⟩, hlead, hidx, hterm, _⟩ := hp
  rw [ht] at hl hlead
  obtain ⟨e, he, het⟩ := getElem?_last (l := covers) (by omega)
  unfold Log.installSnapshot
  dsimp only
  by_cases hkeep : s.log.termAt is.lastIndex = some is.lastTerm
  · -- the last entry is there, so all before it are
    obtain ⟨_, f, hf, hft⟩ := h.log.termAt_some (by omega) hkeep
    have hmatch := (h.matches hs hl).entry _ f e hf
      (getElem?_of_isPrefix hlead (hidx ▸ he)) (hft.trans (hterm.trans het.symm))
    rw [Nat.sub_add_cancel (by omega), hidx, take_of_isPrefix hlead (Nat.le_refl _),
      List.take_length] at hmatch
    have hpre : covers <+: a.log i := hmatch ▸ List.take_prefix _ _
    have hholds := h.log.compactThrough hb (hidx ▸ hpre.length_le)
    rw [hidx, hmatch, ← hterm, ← hidx] at hholds
    rw [hkeep, beq_self_eq_true, decide_eq_true (Nat.le_of_lt hb), Bool.and_self, if_pos rfl]
    exact .inl ⟨_, rfl, hpre, hholds⟩
  · have hnot : ¬ covers <+: a.log i := by
      intro hpre
      apply hkeep
      rw [h.log.termAt_eq (by omega) (Nat.le_of_lt hb), hidx, getElem?_of_isPrefix hpre he, hterm]
      exact congrArg some het
    obtain ⟨hsmall, hnum⟩ := hs.anchored ((hs.inv.lead_log s.currentTerm).of_isPrefix hlead)
    have hholds := Log.Holds.discarded (fun k e hk => (hnum k e hk).1) hsmall
    rw [← hterm, ← hidx] at hholds
    rw [beq_eq_false_iff_ne.mpr hkeep, Bool.false_and, if_neg Bool.false_ne_true]
    refine .inr ⟨_, rfl, hnot, hholds, rfl, ?_⟩
    refine (List.prefix_or_prefix_of_prefix (h.committed_lead hs hl) hlead).resolve_right ?_
    exact fun hpre => hnot (hpre.trans (List.take_prefix _ _))

/-- What a node owes that has installed a snapshot which stands for `covers`. The store is
in step again once the snapshot is saved and the pending operations are through. -/
structure Installed (c : Cluster) (a₀ : Proto) (i : NodeId) (covers : List LogEntry)
    (d : PersistedRaft) (a a' : Proto) (s' : RaftState) : Prop where
  moves : c.Moves i a₀ a'
  stays : Stays c i a a'
  sound : Sound c a' i covers s'
  synced : d.persist s'.pending = s'.snapshotPersistent
  log : covers <+: a.log i ∧ a'.log i = a.log i ∨ ¬ covers <+: a.log i ∧ a'.log i = covers
  acked : covers.length ≤ a'.acked i (a.term i)

section
variable (h : Early c a₀ i folded d a s)
include h

theorem Early.install (hr : s.role = .follower) (hp : InstallOk c a is covers)
    (ht : is.term = s.currentTerm) (hne : is.leaderId ≠ i) (hb : s.log.baseIndex < is.lastIndex) :
    ∃ a', Installed c a₀ i covers d a a' (s.install is) := by
  have hs := h.sound
  have hidx := hp.lastIndex
  obtain ⟨l, hl⟩ := hp.elected
  have hlead : covers <+: a.lead (a.term i) := by
    rw [hs.term, ← ht]
    exact hp.lead
  have hsettled : c.Settled a (a.term i) covers := by
    rw [hs.term, ← ht]
    exact hp.settled
  have happ : max s.lastApplied is.lastIndex ≤ max s.commitIndex is.lastIndex :=
    max_le_max_right _ hs.applied_commit
  -- what is committed afterwards, in a log that holds both
  have hcommit {a' : Proto} (hst : Stays c i a a') (hcov : covers <+: a'.log i)
      (hkeep : (a.log i).take s.commitIndex <+: a'.log i) :
      c.Settled a' s.currentTerm ((a'.log i).take (max s.commitIndex is.lastIndex)) ∧
        max s.commitIndex is.lastIndex ≤ (a'.log i).length := by
    obtain ⟨hold, hlen⟩ := hs.keep_committed hst.extend hkeep
    refine ⟨?_, Nat.max_le.mpr ⟨hlen, hidx ▸ hcov.length_le⟩⟩
    rcases Nat.le_total s.commitIndex is.lastIndex with hle | hle
    · rw [Nat.max_eq_right hle, hidx, take_of_isPrefix hcov (Nat.le_refl _), List.take_length,
        ← hs.term]
      exact hsettled.mono hst.extend (Nat.le_refl _)
    · rw [Nat.max_eq_left hle]
      exact hold
  unfold RaftState.install
  rw [if_pos hb]
  rcases hs.install_cases h.sane hp ht hb with
    ⟨log, hinst, hpre, hholds⟩ | ⟨log, hinst, hnot, hholds, hnil, hkeep⟩
  · obtain ⟨a', hst, hlog, hack⟩ := h.sane.ack hpre hlead
    rw [hinst]
    have hlog' : log.Holds covers (a'.log i) := hlog ▸ hholds
    have hbase : log.baseIndex ≤ max s.lastApplied is.lastIndex := by
      rw [hholds.base, ← hidx]
      exact Nat.le_max_right _ _
    have hsound := hs.setLog hr hst hlog'
      (hcommit hst (hlog ▸ hpre) (hlog ▸ List.take_prefix _ _)) hbase happ
      (hsettled.mono hst.extend (Nat.le_refl _))
      (s.pending ++ [.compactThrough is.lastIndex])
    refine ⟨a', h.moves.trans hst.moves, hst, hsound, ?_, .inl ⟨hpre, congrFun hlog i⟩, hack⟩
    rw [PersistedRaft.persist_append, h.synced]
    refine congrArg (PersistedRaft.mk _ _) ?_
    show s.log.entries.filter (fun e => is.lastIndex < e.index) = log.entries
    rw [Numbered.filter_gt hs.log.counted, hs.log.entries_eq, List.drop_drop, hholds.entries_eq,
      hholds.base, ← hidx]
    congr 1
    omega
  · obtain ⟨a', hst, hlog, hack⟩ := h.sane.copy (hs.term ▸ ht ▸ hl) hne hlead hnot
    rw [hinst]
    have hlog' : log.Holds covers (a'.log i) := by
      rw [hlog]
      exact hholds
    have hbase : log.baseIndex ≤ max s.lastApplied is.lastIndex := by
      rw [hholds.base, ← hidx]
      exact Nat.le_max_right _ _
    have hsound := hs.setLog hr hst hlog'
      (hcommit hst (hlog ▸ List.prefix_rfl) (hlog ▸ hkeep)) hbase happ
      (hsettled.mono hst.extend (Nat.le_refl _))
      (s.pending ++ [.truncateFrom 0])
    refine ⟨a', h.moves.trans hst.moves, hst, hsound, ?_, .inr ⟨hnot, hlog⟩, hack⟩
    rw [PersistedRaft.persist_append, h.synced]
    refine congrArg (PersistedRaft.mk _ _) ?_
    show s.log.entries.filter (fun e => e.index < 0) = log.entries
    rw [Numbered.filter_lt hs.log.counted, hnil, Nat.zero_sub, List.take_zero]

/-- A chunk that is not the last, or of a snapshot the node is past. -/
theorem Early.installSnapshot_old (hp : InstallOk c a is covers) (hle : is.term ≤ s.currentTerm)
    (hold : is.term < s.currentTerm ∨ is.done = false ∨ is.lastIndex ≤ s.log.baseIndex) :
    ∃ a', Handled c a₀ i folded d a' (s.handleInstallSnapshot is progress).1 ∧
      (s.handleInstallSnapshot is progress).1.log = s.log ∧
      ActionsOk c a' (s.handleInstallSnapshot is progress).1
        (s.handleInstallSnapshot is progress).2 := by
  unfold RaftState.handleInstallSnapshot
  dsimp only
  by_cases hlt : is.term < s.currentTerm
  · rw [if_pos hlt]
    exact ⟨a, h.handled, rfl, .cons (Nat.zero_le _) .nil⟩
  rw [if_neg hlt]
  obtain ⟨h₁, heq⟩ := h.acceptLeader is.leaderId (show is.term = s.currentTerm by omega)
  have hlog : (s.acceptLeader is.term is.leaderId).log = s.log := heq ▸ rfl
  have hr : (s.acceptLeader is.term is.leaderId).role = .follower := heq ▸ rfl
  have ht : is.term = (s.acceptLeader is.term is.leaderId).currentTerm := by
    rw [heq]
    show is.term = s.currentTerm
    omega
  generalize s.acceptLeader is.term is.leaderId = s₁ at *
  cases hdone : is.done with
  | false => exact ⟨a, h₁.handled, hlog, .cons (Nat.zero_le _) .reset⟩
  | true =>
    have hb : is.lastIndex ≤ s₁.log.baseIndex := by
      rw [hlog]
      exact (hold.resolve_left hlt).resolve_left (by rw [hdone]; exact Bool.noConfusion)
    have hs := h₁.sound
    have hbase := hs.base_applied
    have happ := hs.applied_commit
    have hinst : s₁.install is = s₁ := by
      unfold RaftState.install
      rw [if_neg (by omega)]
      dsimp only
      rw [Nat.max_eq_left (by omega : is.lastIndex ≤ s₁.commitIndex),
        Nat.max_eq_left (by omega : is.lastIndex ≤ s₁.lastApplied)]
    obtain ⟨l, hl⟩ := hp.elected
    have hfold : folded <+: a.lead s₁.currentTerm :=
      Consensus.settled_lead h.sane.inv hs.standing.settled (hs.term ▸ Nat.le_refl _)
        (by rw [← ht, hl]; exact Option.some_ne_none _)
    have htake : (a.lead s₁.currentTerm).take s₁.log.baseIndex = folded := by
      rw [hs.log.base, take_of_isPrefix hfold (Nat.le_refl _), List.take_length]
    obtain ⟨a', htook⟩ := h₁.took hr (n := s₁.log.baseIndex) (htake.symm ▸ hs.log.folded_isPrefix)
    have hack := htook.acked
    rw [htake, ← hs.log.base] at hack
    rw [if_pos rfl, hinst, Nat.max_eq_right hb]
    refine ⟨a', htook.handled, hlog, .cons ?_ .reset⟩
    show s₁.log.baseIndex ≤ a'.acked s₁.me s₁.currentTerm
    rw [hs.me]
    exact hack

/-- The last chunk of a snapshot past the base. -/
theorem Early.installSnapshot_new (hp : InstallOk c a is covers) (ht : is.term = s.currentTerm)
    (hne : is.leaderId ≠ i) (hdone : is.done = true) (hb : s.log.baseIndex < is.lastIndex) :
    ∃ a', Installed c a₀ i covers d a a' (s.handleInstallSnapshot is progress).1 ∧
      (s.handleInstallSnapshot is progress).1.pending = (s.install is).pending ∧
      ActionsOk c a' (s.handleInstallSnapshot is progress).1
        (s.handleInstallSnapshot is progress).2 := by
  obtain ⟨h₁, heq⟩ := h.acceptLeader is.leaderId ht
  have hlog : (s.acceptLeader is.term is.leaderId).log = s.log := heq ▸ rfl
  have hr : (s.acceptLeader is.term is.leaderId).role = .follower := heq ▸ rfl
  have hpend : ((s.acceptLeader is.term is.leaderId).install is).pending =
      (s.install is).pending := by
    rw [heq]
    unfold RaftState.install
    rw [if_pos hb, if_pos hb]
  have ht₁ : is.term = (s.acceptLeader is.term is.leaderId).currentTerm := heq ▸ ht
  unfold RaftState.handleInstallSnapshot
  dsimp only
  rw [if_neg (by omega), if_pos hdone]
  generalize s.acceptLeader is.term is.leaderId = s₁ at *
  obtain ⟨a', hinst⟩ := h₁.install hr hp ht₁ hne (hlog ▸ hb)
  refine ⟨a', hinst, hpend, .cons ?_ .reset⟩
  show max is.lastIndex (s₁.install is).log.baseIndex ≤
    a'.acked (s₁.install is).me (s₁.install is).currentTerm
  rw [hinst.sound.log.base, ← hp.lastIndex, Nat.max_self, hinst.sound.me, ← hinst.sound.term,
    hinst.stays.term, hp.lastIndex]
  exact hinst.acked

end

end EventStream.Raft
