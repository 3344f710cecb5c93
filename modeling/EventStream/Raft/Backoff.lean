import EventStream.Raft.Returns

/-! How a leader finds out what a follower has.

The leader guesses where the two logs agree. A rejected guess is lowered, at least by one and at
once to the follower's end if that is lower; from the first guess that is accepted on, each answer
moves what is known to be shared. Both bounds are of the leader's own log, so the exchange ends. -/
namespace EventStream.Raft

namespace Log
variable {log : Log} {folded l es g : List LogEntry} {p : Nat}

/-! ### What the follower's log does with entries of the leader's -/

section
variable (h : log.Holds folded l)
include h

/-- Entries that conflict with nothing committed are not refused. -/
theorem Holds.not_refused {committed i : Nat} (hes : es <+: g.drop p)
    (hsettled : ∀ k a c, k < committed → l[k]? = some a → g[k]? = some c → a.term = c.term)
    (hi : log.ConflictAt (p + 1) es i) : committed < i := by
  obtain ⟨hb, hle, a, e, ha, he, hne⟩ := hi
  by_contra hc
  rw [h.get_eq hb] at ha
  have hge := getElem?_of_isPrefix_drop hes he
  rw [show p + (i - (p + 1)) = i - 1 by omega] at hge
  exact hne (hsettled (i - 1) a e (by omega) ha hge)

/-- Taking the leader's entries does not overflow: the log ends with theirs. -/
theorem Holds.appendAt_returns (committed : Nat) (hm : Matches l g log.baseIndex)
    (hes : es <+: g.drop p) (hp : l.take p = g.take p) (hpl : p ≤ l.length) (hpg : p ≤ g.length)
    (hs : g.length < u64Max) : ∃ r, log.appendAt (p + 1) es committed = some r := by
  have hlen := hes.length_le
  rw [List.length_drop] at hlen
  refine appendAt_returns_of_cut committed (by omega) fun k cut hskips hk hb hcut => ?_
  obtain ⟨hcut, hparts, -⟩ := h.cut_spec hm hes hp hpl hskips hk hb hcut
  rw [hcut.lastIndex_eq, List.length_take, Nat.min_eq_left hparts.le]
  omega

/-- A bounded slice takes at least one entry if there is one. -/
theorem Holds.sliceBounded_ne_nil {start : Nat} (a b : Nat) (hb : log.baseIndex < start)
    (hl : start ≤ l.length) (hes : log.sliceBounded start a b = some es) : es ≠ [] := by
  have hlen := h.length_entries
  unfold sliceBounded at hes
  cases hf : log.entries.head? with
  | none =>
    have := h.head_none hf
    omega
  | some first =>
    have hfirst := h.counted.head_index hf
    rw [hf] at hes
    dsimp only at hes
    rw [if_neg (by omega), h.lastIndex_eq, if_neg (by omega), if_pos (by omega)] at hes
    cases hes
    obtain ⟨e, rest, hcons⟩ : ∃ e rest, log.entries.drop (max start first.index - first.index) =
        e :: rest := by
      refine List.exists_cons_of_ne_nil fun hnil => ?_
      have := List.drop_eq_nil_iff.mp hnil
      omega
    rw [hcons]
    exact List.ne_nil_of_length_pos (Nat.lt_of_lt_of_le (Nat.zero_lt_one)
      (takeBounded_isPrefix a b rest [e] (0 + e.payload.length)).1.length_le)

end

end Log

/-! ### The follower -/

namespace RaftState
variable {s s' : RaftState} {term : Nat} {folded l g : List LogEntry} {ae : AppendEntries}

/-- A follower whose log `l` matches the leader's log `g`, and conflicts with it nowhere at or
below the commit index. -/
structure Follows (term : Nat) (folded l g : List LogEntry) (s : RaftState) : Prop where
  log : s.log.Holds folded l
  term_le : s.currentTerm ≤ term
  base : s.log.baseIndex ≤ s.commitIndex
  committed : s.commitIndex ≤ l.length
  matching : ∀ k a c, l[k]? = some a → g[k]? = some c → a.term = c.term →
    l.take (k + 1) = g.take (k + 1)
  settled : ∀ k a c, k < s.commitIndex → l[k]? = some a → g[k]? = some c → a.term = c.term

theorem Follows.matches (h : Follows term folded l g s) : Log.Matches l g s.log.baseIndex := by
  refine ⟨h.matching, fun k hk hg => ?_⟩
  have hbase := h.base
  have hcommitted := h.committed
  have hl : k < l.length := by omega
  exact h.matching k _ _ (List.getElem?_eq_getElem hl) (List.getElem?_eq_getElem hg)
    (h.settled k _ _ (by omega) (List.getElem?_eq_getElem hl) (List.getElem?_eq_getElem hg))

/-- A request of the leader whose log is `g`. -/
structure Sends (term : Nat) (g : List LogEntry) (ae : AppendEntries) : Prop where
  term_eq : ae.term = term
  prev : ae.prevLogIndex ≤ g.length
  prevTerm : ∀ e, 0 < ae.prevLogIndex → g[ae.prevLogIndex - 1]? = some e →
    ae.prevLogTerm = e.term
  entries : ae.entries <+: g.drop ae.prevLogIndex

theorem Sends.end_le (h : Sends term g ae) : ae.prevLogIndex + ae.entries.length ≤ g.length := by
  have hlen := h.entries.length_le
  rw [List.length_drop] at hlen
  have := h.prev
  omega

/-- The check finds out whether the logs agree up to where the request starts. -/
theorem Follows.consistent_iff (h : Follows term folded l g s) (hs : Sends term g ae) :
    s.consistent ae = true ↔
      l.take ae.prevLogIndex = g.take ae.prevLogIndex ∧ ae.prevLogIndex ≤ l.length := by
  have hprev := hs.prev
  unfold RaftState.consistent
  split
  · rename_i hzero
    simp [hzero]
  · split
    · rename_i hne hlt
      have hagree := h.matches.below (ae.prevLogIndex - 1) (by omega) (by omega)
      rw [Nat.sub_add_cancel (by omega)] at hagree
      have := h.log.base_le
      exact iff_of_true rfl ⟨hagree, by omega⟩
    · rename_i hne hle
      have hlt : ae.prevLogIndex - 1 < g.length := by omega
      have hg := List.getElem?_eq_getElem hlt
      rw [h.log.termAt_eq (by omega) (by omega), hs.prevTerm _ (by omega) hg, beq_iff_eq]
      constructor
      · intro hterm
        obtain ⟨a, ha, hterm⟩ := Option.map_eq_some_iff.mp hterm
        have hagree := h.matching _ a _ ha hg hterm
        rw [Nat.sub_add_cancel (by omega)] at hagree
        have := (List.getElem?_eq_some_iff.mp ha).1
        exact ⟨hagree, by omega⟩
      · rintro ⟨hagree, -⟩
        have hsame : l[ae.prevLogIndex - 1]? = g[ae.prevLogIndex - 1]? := by
          rw [← List.getElem?_take_of_lt (show ae.prevLogIndex - 1 < ae.prevLogIndex by omega),
            hagree, List.getElem?_take_of_lt (by omega)]
        rw [hsame, hg, Option.map_some]

/-- The follower's log is the leader's for longer, and all of that may be committed. -/
theorem Follows.extend (h : Follows term folded l g s) {l' : List LogEntry} {shared : Nat}
    {log' : Log} (hlog : log'.Holds folded l') (hcase : l' = l ∨ l' = g.take shared)
    (hshared : l'.take shared = g.take shared) (hlen : shared ≤ l'.length)
    (hcommitted : s.commitIndex ≤ l'.length) {commit : Nat} (hge : s.commitIndex ≤ commit)
    (hle : commit ≤ max shared s.commitIndex) (hs : s'.log = log') (hc : s'.commitIndex = commit)
    (ht : s'.currentTerm ≤ term) : Follows term folded l' g s' where
  log := hs ▸ hlog
  term_le := ht
  base := by
    have hbase : s'.log.baseIndex = s.log.baseIndex := by rw [hs, hlog.base, h.log.base]
    rw [hbase, hc]
    exact Nat.le_trans h.base hge
  committed := by omega
  matching := by
    rcases hcase with rfl | rfl
    · exact h.matching
    · intro k a c ha _ _
      have hlt := (List.getElem?_eq_some_iff.mp ha).1
      rw [List.length_take] at hlt
      rw [List.take_take, Nat.min_eq_left (by omega)]
  settled := by
    intro k a c hk ha hg
    by_cases hlt : k < shared
    · have hsame : l'[k]? = g[k]? := by
        rw [← List.getElem?_take_of_lt hlt, hshared, List.getElem?_take_of_lt hlt]
      rw [ha, hg] at hsame
      rw [Option.some.inj hsame]
    · rcases hcase with rfl | rfl
      · exact h.settled k a c (by omega) ha hg
      · have := (List.getElem?_eq_some_iff.mp ha).1
        rw [List.length_take] at this
        omega

/-- What a follower that has `l` answers to a request, and what it has then. -/
inductive Replied (term : Nat) (folded l g : List LogEntry) (ae : AppendEntries) (s' : RaftState)
    (aer : AppendEntriesResp) : Prop where
  | rejected (hno : aer.success = false) (hlast : aer.matchIndex = l.length)
    (hpos : 0 < ae.prevLogIndex)
    (hpart : ¬ (l.take ae.prevLogIndex = g.take ae.prevLogIndex ∧ ae.prevLogIndex ≤ l.length))
    (hf : Follows term folded l g s')
  | accepted (l' : List LogEntry) (hyes : aer.success = true)
    (hmatch : aer.matchIndex = ae.prevLogIndex + ae.entries.length)
    (hshared : l'.take aer.matchIndex = g.take aer.matchIndex) (hlen : aer.matchIndex ≤ l'.length)
    (hf : Follows term folded l' g s')

/-- Entries that come where the logs agree are taken. -/
theorem Follows.appendFrom (h : Follows term folded l g s) (hs : Sends term g ae)
    (hi : ∀ k e, g[k]? = some e → e.index = k + 1) (hsmall : g.length < u64Max)
    (hp : l.take ae.prevLogIndex = g.take ae.prevLogIndex) (hpl : ae.prevLogIndex ≤ l.length) :
    ∃ s' l', s.appendFrom ae = some (s', true) ∧ s'.log.Holds folded l' ∧
      (l' = l ∨ l' = g.take (ae.prevLogIndex + ae.entries.length)) ∧
      l'.take (ae.prevLogIndex + ae.entries.length) =
        g.take (ae.prevLogIndex + ae.entries.length) ∧
      ae.prevLogIndex + ae.entries.length ≤ l'.length ∧ s.commitIndex ≤ l'.length ∧
      s'.commitIndex = s.commitIndex ∧ s'.currentTerm = s.currentTerm ∧ s'.me = s.me := by
  have hend := hs.end_le
  have hprev := hs.prev
  unfold RaftState.appendFrom
  split
  · rename_i hnil
    refine ⟨s, l, rfl, h.log, .inl rfl, ?_, ?_, h.committed, rfl, rfl, rfl⟩
    · rw [hnil]
      exact hp
    · rw [hnil]
      exact hpl
  · obtain ⟨⟨log', r⟩, hr⟩ :=
      h.log.appendAt_returns s.commitIndex h.matches hs.entries hp hpl hprev hsmall
    have hspec := h.log.appendAt_spec h.matches hs.entries hp hpl hi hsmall hr
    rw [satAdd_of_le (by omega), hr, Option.bind_eq_bind, Option.bind_some]
    cases hspec with
    | all hall =>
      have hlen := hall.length_le
      rw [List.length_take, Nat.min_eq_left hend] at hlen
      refine ⟨_, l, rfl, h.log, .inl rfl, ?_, hlen, h.committed, rfl, rfl, rfl⟩
      have htake := List.prefix_iff_eq_take.mp hall
      rw [List.length_take, Nat.min_eq_left hend] at htake
      exact htake.symm
    | refused hi hc => exact absurd hc (Nat.not_le.mpr (h.log.not_refused hs.entries h.settled hi))
    | changed k _ hk hg hafter hparts hb hc =>
      have hlen : (g.take (ae.prevLogIndex + ae.entries.length)).length =
          ae.prevLogIndex + ae.entries.length := by
        rw [List.length_take, Nat.min_eq_left hend]
      have hslice : log'.slice (k + 1) u64Max = some _ :=
        hafter.slice_eq (by rw [hafter.base, ← h.log.base]; omega) (by omega)
      dsimp only
      rw [hslice]
      refine ⟨_, _, rfl, hafter, .inr rfl, ?_, hlen.ge, ?_, rfl, rfl, rfl⟩
      · rw [List.take_take, Nat.min_self]
      · have := h.committed
        omega

theorem Follows.handleAppendEntries (h : Follows term folded l g s) (hs : Sends term g ae)
    (hi : ∀ k e, g[k]? = some e → e.index = k + 1) (hsmall : g.length < u64Max) :
    ∃ s' aer, s.handleAppendEntries ae =
        some (s', [.sendTo ae.leaderId (.appendEntriesResp aer), .resetElectionTimer]) ∧
      aer.term = term ∧ aer.responderId = s.me ∧ s'.me = s.me ∧
      Replied term folded l g ae s' aer := by
  have hend := hs.end_le
  have hterm : (s.acceptLeader ae.term ae.leaderId).currentTerm = term := by
    have := h.term_le
    unfold RaftState.acceptLeader
    dsimp only
    split
    · exact hs.term_eq
    · have := hs.term_eq
      show s.currentTerm = term
      omega
  have halike := s.alike_acceptLeader ae.term ae.leaderId
  have hme : (s.acceptLeader ae.term ae.leaderId).me = s.me := by
    unfold RaftState.acceptLeader
    dsimp only
    split <;> rfl
  generalize haccepted : s.acceptLeader ae.term ae.leaderId = s₁ at hterm halike hme
  have hfollows : Follows term folded l g s₁ :=
    ⟨halike.log.symm ▸ h.log, hterm.le, by rw [halike.log, halike.commitIndex]; exact h.base,
      halike.commitIndex.symm ▸ h.committed, h.matching, halike.commitIndex.symm ▸ h.settled⟩
  unfold RaftState.handleAppendEntries
  dsimp only
  rw [if_neg (by rw [hs.term_eq]; exact Nat.not_lt.mpr h.term_le), haccepted]
  unfold RaftState.takeEntries
  by_cases hconsistent : s₁.consistent ae = true
  · obtain ⟨hp, hpl⟩ := (hfollows.consistent_iff hs).mp hconsistent
    obtain ⟨s₂, l', hfrom, hlog, hcase, hshared, hlen, hcommitted, hc, ht, hm⟩ :=
      hfollows.appendFrom hs hi hsmall hp hpl
    rw [if_pos hconsistent, hfrom, Option.map_some, if_pos rfl, satAdd_of_le (by omega)]
    obtain ⟨c, hraise, hge, hle⟩ : ∃ c, (if s₂.commitIndex < ae.leaderCommit then
          {s₂ with commitIndex := max (min ae.leaderCommit
            (ae.prevLogIndex + ae.entries.length)) s₂.commitIndex}
        else s₂) = {s₂ with commitIndex := c} ∧ s₂.commitIndex ≤ c ∧
        c ≤ max (ae.prevLogIndex + ae.entries.length) s₂.commitIndex := by
      split
      · exact ⟨_, rfl, Nat.le_max_right _ _, by omega⟩
      · exact ⟨s₂.commitIndex, rfl, Nat.le_refl _, Nat.le_max_right _ _⟩
    rw [hraise]
    refine ⟨_, _, rfl, ht.trans hterm, hm.trans hme, hm.trans hme,
      .accepted l' rfl rfl hshared hlen ?_⟩
    rw [hc] at hge hle
    exact hfollows.extend hlog hcase hshared hlen hcommitted hge hle rfl rfl
      (ht.trans hterm).le
  · rw [if_neg hconsistent]
    have hpart := mt (hfollows.consistent_iff hs).mpr hconsistent
    refine ⟨s₁, _, rfl, hterm, hme, hme, .rejected rfl hfollows.log.lastIndex_eq ?_ hpart hfollows⟩
    refine Nat.pos_of_ne_zero fun hzero => hpart ?_
    rw [hzero]
    exact ⟨rfl, Nat.zero_le _⟩

/-! ### The leader -/

/-- A leader whose log is `g` and who has not been told more than `matched` of `peer`. -/
structure Leads (peer : NodeId) (folded g : List LogEntry) (next matched : Nat) (s : RaftState) :
    Prop where
  role : s.role = .leader
  log : s.log.Holds folded g
  next_eq : (s.nextIndex peer).getD 1 = next
  matched_eq : (s.matchIndex peer).getD 0 = matched
  next_pos : 1 ≤ next
  next_le : next ≤ g.length + 1

variable {peer : NodeId} {next matched : Nat}

theorem nextIndex_setNext (s : RaftState) (peer : NodeId) (index : Nat) :
    (s.setNext peer index).nextIndex peer = some index := Function.update_self ..

section
variable (h : Leads peer folded g next matched s)
include h

/-- What the leader sends next: a request from `next` on that is empty only when there is nothing
left, or the snapshot. -/
theorem Leads.replicateTo :
    (s.replicateTo peer = some (.sendSnapshot peer) ∧ next ≤ s.log.baseIndex) ∨
    ∃ ae, s.replicateTo peer = some (.sendTo peer (.appendEntries ae)) ∧
      Sends s.currentTerm g ae ∧ ae.prevLogIndex = next - 1 ∧
      (next ≤ g.length → ae.entries ≠ []) := by
  have hpos := h.next_pos
  have hle := h.next_le
  unfold RaftState.replicateTo
  rw [h.next_eq]
  by_cases hbase : next ≤ s.log.baseIndex
  · exact .inl ⟨if_pos hbase, hbase⟩
  · obtain ⟨es, hes, hpre⟩ :=
      h.log.sliceBounded_eq maxAppendEntries maxAppendBytes (Nat.lt_of_not_le hbase)
    refine .inr ⟨⟨s.currentTerm, s.me, next - 1, (s.log.termAt (next - 1)).getD 0, es,
      s.commitIndex⟩, ?_, ⟨rfl, ?_, fun e he hg => ?_, hpre⟩, rfl, fun hlast => ?_⟩
    · rw [if_neg hbase, RaftState.buildAppendFor, h.next_eq, hes]
      rfl
    · show next - 1 ≤ g.length
      omega
    · change 0 < next - 1 at he
      change g[next - 1 - 1]? = some e at hg
      show (s.log.termAt (next - 1)).getD 0 = e.term
      rw [h.log.termAt_eq he (by omega), hg]
      rfl
    · exact h.log.sliceBounded_ne_nil _ _ (by omega) hlast hes

/-- A rejection lowers the guess. -/
theorem Leads.rejected (hpos : 1 < next) {aer : AppendEntriesResp}
    (hterm : aer.term = s.currentTerm) (hpeer : aer.responderId = peer)
    (hno : aer.success = false) :
    ∃ s' act next', s.handleAppendEntriesResp aer = some (s', [act]) ∧ next' < next ∧
      Leads peer folded g next' matched s' ∧ s'.replicateTo peer = some act ∧
      s'.log = s.log ∧ s'.currentTerm = s.currentTerm := by
  have hle := h.next_le
  subst hpeer
  have hleads : Leads aer.responderId folded g
      (max (min (next - 1) (satAdd aer.matchIndex 1)) 1) matched
      (s.setNext aer.responderId (max (min (next - 1) (satAdd aer.matchIndex 1)) 1)) :=
    ⟨h.role, h.log, by rw [nextIndex_setNext]; rfl, h.matched_eq,
      by omega, by omega⟩
  obtain ⟨act, hact⟩ := Log.Counted.replicateTo_returns hleads.log.counted aer.responderId
  refine ⟨_, act, _, ?_, by omega, hleads, hact, rfl, rfl⟩
  unfold RaftState.handleAppendEntriesResp
  rw [if_neg (by rw [h.role, hterm]; simp), hno, if_neg nofun, h.next_eq]
  dsimp only
  rw [hact]
  rfl

/-- An acceptance raises what is known to be shared, and the leader goes on from there until it
has sent everything. -/
theorem Leads.accepted {aer : AppendEntriesResp} (hterm : aer.term = s.currentTerm)
    (hpeer : aer.responderId = peer) (hyes : aer.success = true) (hup : matched ≤ aer.matchIndex)
    (hle : aer.matchIndex ≤ g.length) :
    ∃ s' acts, s.handleAppendEntriesResp aer = some (s', acts) ∧
      Leads peer folded g (aer.matchIndex + 1) aer.matchIndex s' ∧
      (aer.matchIndex < g.length → ∃ act, acts = [act] ∧ s'.replicateTo peer = some act) ∧
      (aer.matchIndex = g.length → acts = []) ∧
      s'.log = s.log ∧ s'.currentTerm = s.currentTerm := by
  have hsmall := h.log.small
  subst hpeer
  have hmi : min aer.matchIndex s.log.lastIndex = aer.matchIndex := by
    rw [h.log.lastIndex_eq, Nat.min_eq_left hle]
  obtain ⟨f, hset, hf⟩ : ∃ f, (if matched < aer.matchIndex then
        s.setMatch aer.responderId aer.matchIndex else s) = {s with matchIndex := f} ∧
      (f aer.responderId).getD 0 = aer.matchIndex := by
    split
    · exact ⟨_, rfl, by rw [Function.update_self]; rfl⟩
    · exact ⟨s.matchIndex, rfl, by rw [h.matched_eq]; omega⟩
  obtain ⟨s', hs', hleads, hlog, hkeep⟩ : ∃ s', ({s with matchIndex := f}.setNext aer.responderId
      (aer.matchIndex + 1)).recomputeCommitIndex = some s' ∧
      Leads aer.responderId folded g (aer.matchIndex + 1) aer.matchIndex s' ∧ s'.log = s.log ∧
      s'.currentTerm = s.currentTerm := by
    obtain ⟨c, hc⟩ := ({s with matchIndex := f}.setNext aer.responderId
      (aer.matchIndex + 1)).recomputeCommitIndex_eq
    have hnext := nextIndex_setNext {s with matchIndex := f} aer.responderId (aer.matchIndex + 1)
    exact ⟨_, hc, ⟨h.role, h.log, by rw [hnext]; rfl, hf, by omega, by omega⟩, rfl, rfl⟩
  unfold RaftState.handleAppendEntriesResp
  rw [if_neg (by rw [h.role, hterm]; simp), hyes, if_pos rfl]
  dsimp only
  rw [h.matched_eq, hmi, hset, Nat.max_eq_left hup, satAdd_of_le (by omega), hs',
    Option.bind_eq_bind, Option.bind_some, hleads.log.lastIndex_eq]
  by_cases hmore : aer.matchIndex < g.length
  · obtain ⟨act, hact⟩ := Log.Counted.replicateTo_returns hleads.log.counted aer.responderId
    refine ⟨s', [act], ?_, hleads, fun _ => ⟨act, rfl, hact⟩, fun heq => by omega, hlog, hkeep⟩
    rw [if_pos hmore, hact]
    rfl
  · exact ⟨s', [], if_neg hmore, hleads, fun hlt => absurd hlt hmore, fun _ => rfl, hlog, hkeep⟩

end

end RaftState

/-! ### The exchange -/

/-- A leader, a follower, and what the leader is about to send. -/
structure Exchange where
  leader : RaftState
  follower : RaftState
  next : Option Action

namespace Exchange
open RaftState

def start (peer : NodeId) (leader follower : RaftState) : Option Exchange :=
  (leader.replicateTo peer).map fun act => ⟨leader, follower, some act⟩

/-- The answer among the actions of a follower. -/
def answer : List Action → Option AppendEntriesResp
  | .sendTo _ (.appendEntriesResp aer) :: _ => some aer
  | _ => none

/-- The request is delivered, and its answer, which is given back. -/
def round (x : Exchange) : Option (AppendEntriesResp × Exchange) :=
  match x.next with
  | some (.sendTo _ (.appendEntries ae)) => do
    let (follower, acts) ← x.follower.handleAppendEntries ae
    let aer ← answer acts
    let (leader, acts) ← x.leader.handleAppendEntriesResp aer
    some (aer, ⟨leader, follower, acts.head?⟩)
  | _ => none

def rounds : Nat → Exchange → Option Exchange
  | 0, x => some x
  | n + 1, x => x.round.bind fun (_, x) => rounds n x

def nextIndex (peer : NodeId) (x : Exchange) : Nat := (x.leader.nextIndex peer).getD 1

def matchIndex (peer : NodeId) (x : Exchange) : Nat := (x.leader.matchIndex peer).getD 0

variable {peer : NodeId} {leader follower : RaftState} {foldedL g foldedF l : List LogEntry}
    {x x' : Exchange}

/-- A leader with the log `leader` began with is about to send what comes at its guess, and
what it has been told is shared. -/
structure Going (peer : NodeId) (leader : RaftState) (foldedL g foldedF : List LogEntry)
    (x : Exchange) : Prop where
  leads : Leads peer foldedL g (x.nextIndex peer) (x.matchIndex peer) x.leader
  log : x.leader.log = leader.log
  term : x.leader.currentTerm = leader.currentTerm
  me : x.follower.me = peer
  sent : x.next = x.leader.replicateTo peer
  known : 0 < x.matchIndex peer → x.nextIndex peer = x.matchIndex peer + 1
  follows : ∃ l, Follows leader.currentTerm foldedF l g x.follower ∧
    l.take (x.matchIndex peer) = g.take (x.matchIndex peer) ∧ x.matchIndex peer ≤ l.length

/-- The leader has nothing more to send, and the follower has its log. -/
structure Done (foldedF g : List LogEntry) (x : Exchange) : Prop where
  idle : x.next = none
  has : ∃ l, x.follower.log.Holds foldedF l ∧ g <+: l

/-- The leader wants to send its snapshot: what it has to send next is no longer in its log. -/
structure Compacted (peer : NodeId) (leader : RaftState) (x : Exchange) : Prop where
  asks : x.next = some (.sendSnapshot peer)
  behind : x.nextIndex peer ≤ leader.log.baseIndex

/-- What an answer has moved. -/
structure Moved (peer : NodeId) (x : Exchange) (aer : AppendEntriesResp) (x' : Exchange) :
    Prop where
  rejected : aer.success = false →
    x'.nextIndex peer < x.nextIndex peer ∧ x'.matchIndex peer = x.matchIndex peer
  accepted : aer.success = true → x'.next ≠ none → x.matchIndex peer < x'.matchIndex peer

/-- What is left to do: guesses to lower, as long as none is accepted, then entries to send. -/
def left (peer : NodeId) (g : List LogEntry) (x : Exchange) : Nat :=
  if x.matchIndex peer = 0 then g.length + x.nextIndex peer
  else g.length - x.matchIndex peer

theorem Going.of_leads {s f : RaftState} {act : Action} {next matched : Nat}
    (hleads : Leads peer foldedL g next matched s) (hlog : s.log = leader.log)
    (hterm : s.currentTerm = leader.currentTerm) (hme : f.me = peer)
    (hact : s.replicateTo peer = some act) (hknown : 0 < matched → next = matched + 1)
    (hfollows : Follows leader.currentTerm foldedF l g f)
    (hshared : l.take matched = g.take matched) (hlen : matched ≤ l.length) :
    Going peer leader foldedL g foldedF ⟨s, f, some act⟩ := by
  obtain rfl := hleads.next_eq
  obtain rfl := hleads.matched_eq
  exact ⟨hleads, hlog, hterm, hme, hact.symm, hknown, l, hfollows, hshared, hlen⟩

theorem round_eq {ae : AppendEntries} {aer : AppendEntriesResp} {p : NodeId}
    {replies acts : List Action} (hnext : x.next = some (.sendTo p (.appendEntries ae)))
    (hf : x.follower.handleAppendEntries ae = some (follower, replies))
    (ha : answer replies = some aer)
    (hl : x.leader.handleAppendEntriesResp aer = some (leader, acts)) :
    x.round = some (aer, ⟨leader, follower, acts.head?⟩) := by
  unfold round
  rw [hnext]
  dsimp only
  rw [hf, Option.bind_eq_bind, Option.bind_some, ha, Option.bind_eq_bind, Option.bind_some, hl]
  rfl

/-- One round: the leader wants to send its snapshot, or it is answered. What an answer moves
leaves less to do, until everything is sent. -/
theorem Going.round (h : Going peer leader foldedL g foldedF x) :
    Compacted peer leader x ∨ ∃ aer x', x.round = some (aer, x') ∧ Moved peer x aer x' ∧
      (Done foldedF g x' ∨
        Going peer leader foldedL g foldedF x' ∧ x'.left peer g < x.left peer g) := by
  obtain ⟨l, hfollows, hshared, hlen⟩ := h.follows
  have hpos := h.leads.next_pos
  have hle := h.leads.next_le
  rcases h.leads.replicateTo with ⟨hact, hbase⟩ | ⟨ae, hact, hsends, hprev, hmore⟩
  · exact .inl ⟨h.sent.trans hact, h.log ▸ hbase⟩
  right
  have hend := hsends.end_le
  have hsends' : Sends leader.currentTerm g ae := h.term ▸ hsends
  obtain ⟨f, aer, hf, hterm, hfrom, hme, hreplied⟩ :=
    hfollows.handleAppendEntries hsends' h.leads.log.index h.leads.log.small
  have hterm' : aer.term = x.leader.currentTerm := hterm.trans h.term.symm
  have hfrom' : aer.responderId = peer := hfrom.trans h.me
  cases hreplied with
  | rejected hno hlast hprevPos hpart hf' =>
    -- where something is known to be shared the follower does not reject
    have hzero : x.matchIndex peer = 0 := by
      refine Nat.eq_zero_of_not_pos fun hmatched => hpart ?_
      have := h.known hmatched
      rw [hprev, show x.nextIndex peer - 1 = x.matchIndex peer by omega]
      exact ⟨hshared, hlen⟩
    obtain ⟨s', act, next', hs', hlt, hleads, hact', hlog, hcur⟩ :=
      h.leads.rejected (by omega) hterm' hfrom' hno
    have hround := round_eq (h.sent.trans hact) hf rfl hs'
    have hnext : nextIndex peer ⟨s', f, some act⟩ = next' := hleads.next_eq
    have hmatch : matchIndex peer ⟨s', f, some act⟩ = x.matchIndex peer := hleads.matched_eq
    refine ⟨aer, _, hround, ⟨fun _ => ⟨?_, hmatch⟩, fun hyes => ?_⟩, .inr ⟨?_, ?_⟩⟩
    · exact hnext ▸ hlt
    · rw [hno] at hyes
      cases hyes
    · exact .of_leads hleads (hlog.trans h.log) (hcur.trans h.term) (hme.trans h.me) hact'
        (by omega) hf' hshared hlen
    · show left peer g ⟨s', f, some act⟩ < _
      rw [left, left, hmatch, hnext, if_pos hzero, if_pos hzero]
      omega
  | accepted l' hyes hmatch hshared' hlen' hf' =>
    have hup : x.matchIndex peer ≤ aer.matchIndex := by
      rcases Nat.eq_zero_or_pos (x.matchIndex peer) with hzero | hmatched
      · omega
      · have := h.known hmatched
        omega
    obtain ⟨s', acts, hs', hleads, hgo, hstop, hlog, hcur⟩ :=
      h.leads.accepted hterm' hfrom' hyes hup (by omega)
    have hround := round_eq (h.sent.trans hact) hf rfl hs'
    have hno : ¬ aer.success = false := by rw [hyes]; exact nofun
    by_cases hlast : aer.matchIndex = g.length
    · rw [hstop hlast] at hround
      refine ⟨aer, _, hround, ⟨fun h => absurd h hno, fun _ hne => absurd rfl hne⟩,
        .inl ⟨rfl, l', hf'.log, ?_⟩⟩
      rw [hlast, List.take_length] at hshared'
      exact hshared' ▸ List.take_prefix _ _
    · obtain ⟨act, rfl, hact'⟩ := hgo (by omega)
      have hmatch' : matchIndex peer ⟨s', f, some act⟩ = aer.matchIndex := hleads.matched_eq
      -- the request was not empty, so that more is shared than before
      have hmoved : x.matchIndex peer < aer.matchIndex := by
        have hlast' : x.nextIndex peer ≤ g.length := by omega
        have hlen := List.length_pos_iff.mpr (hmore hlast')
        rcases Nat.eq_zero_or_pos (x.matchIndex peer) with hzero | hmatched
        · omega
        · have := h.known hmatched
          omega
      refine ⟨aer, _, hround, ⟨fun h => absurd h hno, fun _ _ => ?_⟩, .inr ⟨?_, ?_⟩⟩
      · exact hmatch' ▸ hmoved
      · exact .of_leads hleads (hlog.trans h.log) (hcur.trans h.term) (hme.trans h.me) hact'
          (fun _ => rfl) hf' hshared' hlen'
      · show left peer g ⟨s', f, some act⟩ < _
        rw [left, left, hmatch', if_neg (by omega)]
        split <;> omega

theorem Done.round (h : Done foldedF g x) : x.round = none := by
  rw [Exchange.round, h.idle]

theorem Compacted.round (h : Compacted peer leader x) : x.round = none := by
  rw [Exchange.round, h.asks]

/-- Every state the exchange gets to goes on, is done, or wants the snapshot. -/
theorem Going.reaches (h : Going peer leader foldedL g foldedF x) {n : Nat}
    (hn : x.rounds n = some x') : Going peer leader foldedL g foldedF x' ∨ Done foldedF g x' := by
  induction n generalizing x with
  | zero =>
    cases hn
    exact .inl h
  | succ n ih =>
    obtain ⟨⟨aer, x₁⟩, hround, hn⟩ := Option.bind_eq_some_iff.mp hn
    rcases h.round with hsnapshot | ⟨_, _, heq, -, hafter⟩
    · rw [hsnapshot.round] at hround
      cases hround
    · rw [heq] at hround
      cases hround
      rcases hafter with hdone | ⟨hgoing, -⟩
      · cases n with
        | zero =>
          cases hn
          exact .inr hdone
        | succ n =>
          change (x₁.round.bind fun (_, x) => rounds n x) = some x' at hn
          rw [hdone.round] at hn
          cases hn
      · exact ih hgoing hn

/-- The exchange ends, after no more rounds than there is left to do. -/
theorem Going.ends (h : Going peer leader foldedL g foldedF x) :
    ∃ n ≤ x.left peer g + 1, ∃ x', x.rounds n = some x' ∧
      (Done foldedF g x' ∨ Compacted peer leader x') := by
  induction hleft : x.left peer g using Nat.strong_induction_on generalizing x with
  | _ m ih =>
    rcases h.round with hsnapshot | ⟨aer, x₁, hround, -, hdone | ⟨hgoing, hless⟩⟩
    · exact ⟨0, Nat.zero_le _, x, rfl, .inr hsnapshot⟩
    · refine ⟨1, Nat.le_add_left _ _, x₁, ?_, .inl hdone⟩
      rw [rounds, hround]
      rfl
    · obtain ⟨n, hn, x', hrun, hend⟩ := ih _ (hleft ▸ hless) hgoing rfl
      refine ⟨n + 1, by omega, x', ?_, hend⟩
      rw [rounds, hround]
      exact hrun

theorem start_going (hrole : leader.role = .leader) (hleader : leader.log.Holds foldedL g)
    (hfollows : Follows leader.currentTerm foldedF l g follower) (hme : follower.me = peer)
    (hmatched : (leader.matchIndex peer).getD 0 = 0) (hpos : 1 ≤ (leader.nextIndex peer).getD 1)
    (hle : (leader.nextIndex peer).getD 1 ≤ leader.log.lastIndex + 1) :
    ∃ x, start peer leader follower = some x ∧ Going peer leader foldedL g foldedF x ∧
      x.left peer g = leader.log.lastIndex + (leader.nextIndex peer).getD 1 := by
  obtain ⟨act, hact⟩ := Log.Counted.replicateTo_returns hleader.counted peer
  have hlast := hleader.lastIndex_eq
  have hleads : Leads peer foldedL g ((leader.nextIndex peer).getD 1) 0 leader :=
    ⟨hrole, hleader, rfl, hmatched, hpos, hlast ▸ hle⟩
  refine ⟨⟨leader, follower, some act⟩, ?_, .of_leads hleads rfl rfl hme hact nofun hfollows rfl
    (Nat.zero_le _), ?_⟩
  · rw [start, hact]
    rfl
  · rw [hlast]
    exact if_pos hmatched

/-- The back-off converges. Let a leader with log `g` know nothing of a follower whose log matches
`g` and conflicts with it nowhere at or below the follower's commit index, and let its guess be
anywhere in its log. In every round each rejection lowers the guess and each acceptance that is not
the last raises what is known to be shared. After at most `last_index + next_index + 1` rounds the
follower has the leader's log, or the leader asks for a snapshot because its guess is in the
compacted part. -/
theorem backoff_converges {follower : RaftState} {l : List LogEntry}
    (hrole : leader.role = .leader) (hleader : leader.log.Holds foldedL g)
    (hfollows : Follows leader.currentTerm foldedF l g follower) (hme : follower.me = peer)
    (hmatched : (leader.matchIndex peer).getD 0 = 0)
    (hpos : 1 ≤ (leader.nextIndex peer).getD 1)
    (hle : (leader.nextIndex peer).getD 1 ≤ leader.log.lastIndex + 1) :
    ∃ x, start peer leader follower = some x ∧
      (∀ n x₁ aer x₂, x.rounds n = some x₁ → x₁.round = some (aer, x₂) →
        (aer.success = false → x₂.nextIndex peer < x₁.nextIndex peer) ∧
        (aer.success = true → x₂.next ≠ none → x₁.matchIndex peer < x₂.matchIndex peer)) ∧
      ∃ n ≤ leader.log.lastIndex + (leader.nextIndex peer).getD 1 + 1, ∃ x',
        x.rounds n = some x' ∧
        ((x'.next = none ∧ (∃ l', x'.follower.log.Holds foldedF l' ∧ g <+: l') ∧
            ∀ i, leader.log.baseIndex < i → x'.follower.log.baseIndex < i →
              i ≤ leader.log.lastIndex → x'.follower.log.get i = leader.log.get i) ∨
          (x'.next = some (.sendSnapshot peer) ∧ x'.nextIndex peer ≤ leader.log.baseIndex)) := by
  obtain ⟨x, hstart, hgoing, hleft⟩ :=
    start_going hrole hleader hfollows hme hmatched hpos hle
  refine ⟨x, hstart, fun n x₁ aer x₂ hn hround => ?_, ?_⟩
  · rcases hgoing.reaches hn with hgoing₁ | hdone
    · rcases hgoing₁.round with hsnapshot | ⟨_, _, heq, hmoved, -⟩
      · rw [hsnapshot.round] at hround
        cases hround
      · rw [heq] at hround
        cases hround
        exact ⟨fun hno => (hmoved.rejected hno).1, hmoved.accepted⟩
    · rw [hdone.round] at hround
      cases hround
  · obtain ⟨n, hn, x', hrun, hend⟩ := hgoing.ends
    refine ⟨n, hleft ▸ hn, x', hrun, ?_⟩
    rcases hend with hdone | hsnapshot
    · obtain ⟨l', hlog, hpre⟩ := hdone.has
      refine .inl ⟨hdone.idle, ⟨l', hlog, hpre⟩, fun i hi hi' hlast => ?_⟩
      rw [hleader.lastIndex_eq] at hlast
      have hlt : i - 1 < g.length := by omega
      rw [hlog.get_eq hi', hleader.get_eq hi, List.getElem?_eq_getElem hlt]
      exact getElem?_of_isPrefix hpre (List.getElem?_eq_getElem hlt)
    · exact .inr ⟨hsnapshot.asks, hsnapshot.behind⟩

/-- A leader of term 3 that has folded two of its four entries into a snapshot. -/
def compactedLeader : RaftState :=
  { RaftState.new 1 [2, 3] with
    role := .leader
    currentTerm := 3
    log := { entries := [⟨2, 3, [3]⟩, ⟨3, 4, [4]⟩], baseIndex := 2, baseTerm := 1 }
    commitIndex := 2
    nextIndex := fun _ => some 5
    matchIndex := fun _ => some 0 }

/-- A follower that went another way after the second entry, and further. -/
def strayFollower : RaftState :=
  { RaftState.new 2 [1, 3] with
    currentTerm := 1
    log := { entries := [⟨1, 1, [1]⟩, ⟨1, 2, [2]⟩, ⟨1, 3, [7]⟩, ⟨1, 4, [8]⟩, ⟨1, 5, [9]⟩] }
    commitIndex := 2 }

theorem strayFollower_follows : Follows compactedLeader.currentTerm [] strayFollower.log.entries
    ([⟨1, 1, [1]⟩, ⟨1, 2, [2]⟩] ++ compactedLeader.log.entries) strayFollower where
  log := by
    refine ⟨rfl, rfl, rfl, fun k e he => ?_, by decide⟩
    obtain ⟨hk, rfl⟩ := List.getElem?_eq_some_iff.mp he
    revert k
    decide
  term_le := by decide
  base := by decide
  committed := by decide
  matching := by
    intro k a c ha hc ht
    obtain ⟨hk, rfl⟩ := List.getElem?_eq_some_iff.mp ha
    obtain ⟨hk', rfl⟩ := List.getElem?_eq_some_iff.mp hc
    revert k
    decide
  settled := by
    intro k a c hlt ha hc
    obtain ⟨hk, rfl⟩ := List.getElem?_eq_some_iff.mp ha
    obtain ⟨hk', rfl⟩ := List.getElem?_eq_some_iff.mp hc
    revert k
    decide

/-- The guess goes down twice, to the end of the snapshot, and then the follower is told all. -/
theorem backoff_converges_stray :
    ∃ x, start 2 compactedLeader strayFollower = some x ∧
      (∃ x', x.rounds 3 = some x' ∧ x'.next = none ∧
        x'.follower.log.entries =
          [⟨1, 1, [1]⟩, ⟨1, 2, [2]⟩, ⟨2, 3, [3]⟩, ⟨3, 4, [4]⟩]) ∧
      ∀ n x₁ aer x₂, x.rounds n = some x₁ → x₁.round = some (aer, x₂) →
        aer.success = false → x₂.nextIndex 2 < x₁.nextIndex 2 := by
  have hleader : compactedLeader.log.Holds [⟨1, 1, [1]⟩, ⟨1, 2, [2]⟩]
      ([⟨1, 1, [1]⟩, ⟨1, 2, [2]⟩] ++ compactedLeader.log.entries) := by
    refine ⟨rfl, rfl, rfl, fun k e he => ?_, by decide⟩
    obtain ⟨hk, rfl⟩ := List.getElem?_eq_some_iff.mp he
    revert k
    decide
  obtain ⟨x, hstart, hmoves, -⟩ := backoff_converges rfl hleader strayFollower_follows rfl
    (show (compactedLeader.matchIndex 2).getD 0 = 0 by decide) (by decide) (by decide)
  refine ⟨x, hstart, ?_, fun n x₁ aer x₂ hn hround => (hmoves n x₁ aer x₂ hn hround).1⟩
  cases hstart
  exact ⟨_, rfl, rfl, by decide⟩

end Exchange

end EventStream.Raft
