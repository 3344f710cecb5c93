import EventStream.Raft.Counted
import EventStream.Raft.Durable

/-! A node and its store.

A node queues in `pending` what it changed, and its driver drains the queue into the store after
any number of events. Nothing is assumed here of the other nodes: any message may arrive. What is
drained brings the store to the node's term, vote and entries (`Mirrors`). -/
namespace EventStream.Raft

/-! ### The store follows -/

structure Mirrors (d : PersistedRaft) (s : RaftState) : Prop where
  /-- What is pending brings the store to the node. -/
  synced : d.persist s.pending = s.snapshotPersistent
  counted : s.log.Counted

/-- What the store is about. -/
def RaftState.durable (s : RaftState) : Nat × Option NodeId × Log × List PersistOp :=
  (s.currentTerm, s.votedFor, s.log, s.pending)

section Mirrors
variable {d : PersistedRaft} {s s' : RaftState} {acts : List Action} {snap : PersistedSnapshot}
    {payload : Bytes} {ae : AppendEntries} {msg : Message} {progress : Nat}

theorem Mirrors.congr (h : Mirrors d s) (hs : s'.durable = s.durable) : Mirrors d s' := by
  simp only [RaftState.durable, Prod.mk.injEq] at hs
  obtain ⟨hterm, hvote, hlog, hpending⟩ := hs
  refine ⟨?_, hlog ▸ h.counted⟩
  rw [hpending, h.synced, RaftState.snapshotPersistent, RaftState.snapshotPersistent, hterm, hvote,
    hlog]

/-- One more operation. -/
theorem Mirrors.write (h : Mirrors d s) {ops : List PersistOp}
    (hpending : s'.pending = s.pending ++ ops)
    (hops : s.snapshotPersistent.persist ops = s'.snapshotPersistent)
    (hcounted : s'.log.Counted) : Mirrors d s' :=
  ⟨by rw [hpending, PersistedRaft.persist_append, h.synced, hops], hcounted⟩

/-- The entries do not depend on the hard states among the operations. -/
theorem persist_filter_log (d d' : PersistedRaft) (ops : List PersistOp) (hlog : d.log = d'.log) :
    (d.persist (ops.filter fun op => !op.isHardState)).log = (d'.persist ops).log := by
  induction ops generalizing d d' with
  | nil => exact hlog
  | cons op ops ih =>
    cases op with
    | hardState term vote => exact ih d (d'.persistOp (.hardState term vote)) hlog
    | append es =>
      exact ih (d.persistOp (.append es)) (d'.persistOp (.append es))
        (by simp only [PersistedRaft.persistOp, hlog])
    | truncateFrom cut =>
      exact ih (d.persistOp (.truncateFrom cut)) (d'.persistOp (.truncateFrom cut))
        (by simp only [PersistedRaft.persistOp, hlog])
    | compactThrough cut =>
      exact ih (d.persistOp (.compactThrough cut)) (d'.persistOp (.compactThrough cut))
        (by simp only [PersistedRaft.persistOp, hlog])

section
variable (h : Mirrors d s)
include h

namespace Mirrors

/-- A new term or vote replaces the one that is pending. -/
theorem hardState (term : Nat) (vote : Option NodeId) :
    Mirrors d {s with currentTerm := term, votedFor := vote}.persistHardState := by
  refine ⟨?_, h.counted⟩
  have hlog : (d.persist (s.pending.filter fun op => !op.isHardState)).log = s.log.entries := by
    rw [persist_filter_log d d s.pending rfl, h.synced]
    rfl
  show d.persist (s.pending.filter (fun op => !op.isHardState) ++ [.hardState term vote]) = _
  rw [PersistedRaft.persist_append]
  show PersistedRaft.mk term vote _ = PersistedRaft.mk term vote s.log.entries
  rw [hlog]

theorem appendLocal {index : Nat} (ha : s.appendLocal payload = some (s', index)) :
    Mirrors d s' := by
  obtain ⟨next, hnext, ha⟩ := Option.bind_eq_some_iff.mp ha
  obtain ⟨rfl, -⟩ := addU64_eq_some.mp hnext
  cases ha
  refine h.write rfl rfl (h.counted.concat fun k e he => ?_)
  cases k with
  | zero =>
    cases he
    rfl
  | succ k => cases he

/-- Other entries come behind those that are kept. -/
theorem replace {kept out : List LogEntry} (hkept : kept <+: s.log.entries)
    (hnum : Numbered (s.log.baseIndex + kept.length) out) :
    Mirrors d { s with
      log := {s.log with entries := kept ++ out}
      pending := s.pending ++
        [.truncateFrom (s.log.baseIndex + kept.length + 1), .append out] } := by
  have htake : s.log.entries.take kept.length = kept := (List.prefix_iff_eq_take.mp hkept).symm
  have hcut : s.log.entries.filter (fun e => e.index < s.log.baseIndex + kept.length + 1) =
      kept := by
    rw [Numbered.filter_lt h.counted,
      show s.log.baseIndex + kept.length + 1 - 1 - s.log.baseIndex = kept.length by omega, htake]
  refine h.write rfl ?_ (h.counted.replace hkept hnum)
  simp only [PersistedRaft.persist, List.foldl_cons, List.foldl_nil, PersistedRaft.persistOp,
    RaftState.snapshotPersistent, hcut]

theorem appendFrom {took : Bool} (ha : s.appendFrom ae = some (s', took))
    (hmax : s'.log.lastIndex < u64Max) : Mirrors d s' := by
  unfold RaftState.appendFrom at ha
  split at ha
  · cases ha
    exact h
  · obtain ⟨r, hr, hmatch⟩ := Option.bind_eq_some_iff.mp ha
    split at hmatch
    · cases hmatch
      exact h.congr (by rw [Log.appendAt_same hr nofun])
    · cases hmatch
      exact h.congr (by rw [Log.appendAt_same hr nofun])
    · obtain ⟨changed, hchanged, hmatch⟩ := Option.bind_eq_some_iff.mp hmatch
      cases hmatch
      obtain ⟨kept, out, hkept, rfl, hnum, hne, -, rfl⟩ := h.counted.appendAt_eq hr
      have hnew := h.replace hkept hnum
      obtain rfl := Option.some.inj ((hnew.counted.slice_eq rfl hne hmax).symm.trans hchanged)
      exact hnew

/-- Dropping what a snapshot covers. -/
theorem compact {cut term : Nat} (hc : s.log.baseIndex < cut) (hmax : cut < u64Max) :
    Mirrors d { s with
      log := s.log.compactThrough cut term
      pending := s.pending ++ [.compactThrough cut] } := by
  refine h.write rfl ?_ (h.counted.compactThrough hc hmax term)
  simp only [PersistedRaft.persist, List.foldl_cons, List.foldl_nil, PersistedRaft.persistOp,
    RaftState.snapshotPersistent, Numbered.filter_gt h.counted,
    h.counted.compactThrough_entries hc hmax]

/-- A snapshot comes in place of the log. -/
theorem discard (base term : Nat) :
    Mirrors d { s with
      log := { entries := [], baseIndex := base, baseTerm := term }
      pending := s.pending ++ [.truncateFrom 0] } := by
  refine h.write rfl ?_ nofun
  simp [PersistedRaft.persist, PersistedRaft.persistOp, RaftState.snapshotPersistent]

theorem install (is : InstallSnapshot) (hmax : is.lastIndex < u64Max) :
    Mirrors d (s.install is) := by
  unfold RaftState.install Log.installSnapshot
  dsimp only
  split
  · rename_i hlt
    split
    · exact (h.compact hlt hmax).congr rfl
    · exact (h.discard is.lastIndex is.lastTerm).congr rfl
  · exact h.congr rfl

end Mirrors

end

/-! ### Every handler -/

namespace RaftState

/-- The quorum is at least one and at most all, so that there is a candidate. -/
theorem recomputeCommitIndex_eq (s : RaftState) :
    ∃ c, s.recomputeCommitIndex = some {s with commitIndex := c} := by
  unfold RaftState.recomputeCommitIndex
  dsimp only
  have hlt : (List.insertionSort (· ≤ ·) (s.peers.map (fun p => (s.matchIndex p).getD 0) ++
      [s.log.lastIndex])).length - s.quorum < (List.insertionSort (· ≤ ·)
        (s.peers.map (fun p => (s.matchIndex p).getD 0) ++ [s.log.lastIndex])).length := by
    rw [List.length_insertionSort, List.length_append, List.length_map, List.length_singleton,
      RaftState.quorum]
    omega
  rw [List.getElem?_eq_getElem hlt, Option.bind_eq_bind, Option.bind_some]
  split
  · exact ⟨_, rfl⟩
  · exact ⟨s.commitIndex, rfl⟩

theorem recomputeCommitIndex_durable (h : s.recomputeCommitIndex = some s') :
    s'.durable = s.durable := by
  obtain ⟨c, hc⟩ := s.recomputeCommitIndex_eq
  cases hc.symm.trans h
  rfl

theorem Regrouped.durable (h : s.Regrouped s') : s'.durable = s.durable := by
  rw [h.eq]
  rfl

theorem drainApplyActions_durable (s : RaftState) : s.drainApplyActions.1.durable = s.durable :=
  s.drainApplyActions_regrouped.1.durable

theorem trackPeers_durable (h : s.trackPeers = some s') : s'.durable = s.durable := by
  unfold RaftState.trackPeers at h
  split at h
  · cases h
    rfl
  · obtain ⟨next, -, rfl⟩ := Option.map_eq_some_iff.mp h
    rfl

end RaftState

section
variable (h : Mirrors d s)
include h

namespace Mirrors

theorem becomeLeader (hl : s.becomeLeader = some s') : Mirrors d s' := by
  obtain ⟨s₁, hnoop, hl⟩ := Option.bind_eq_some_iff.mp hl
  obtain ⟨s₂, htrack, hrecompute⟩ := Option.bind_eq_some_iff.mp hl
  have hlead : Mirrors d s.takeLead := h.congr rfl
  have hs₁ : Mirrors d s₁ := by
    unfold RaftState.electNoop at hnoop
    split at hnoop
    · obtain ⟨⟨_, index⟩, happend, rfl⟩ := Option.map_eq_some_iff.mp hnoop
      exact hlead.appendLocal happend
    · cases hnoop
      exact hlead
  exact hs₁.congr ((RaftState.recomputeCommitIndex_durable hrecompute).trans
    (RaftState.trackPeers_durable htrack))

theorem stand : Mirrors d s.stand :=
  (h.hardState (satAdd s.currentTerm 1) (some s.me)).congr rfl

theorem startElection (he : s.startElection = some (s', acts)) : Mirrors d s' := by
  unfold RaftState.startElection at he
  dsimp only at he
  split at he
  · obtain ⟨s₁, hlead, he⟩ := Option.bind_eq_some_iff.mp he
    obtain ⟨out, -, he⟩ := Option.bind_eq_some_iff.mp he
    cases he
    exact (h.stand.becomeLeader hlead).congr s₁.drainApplyActions_durable
  · cases he
    exact h.stand

theorem stepDownTo (term : Nat) : Mirrors d (s.stepDownTo term) := by
  unfold RaftState.stepDownTo
  dsimp only
  split
  · exact (h.hardState (max s.currentTerm term) none).congr rfl
  · rename_i hsame
    rw [Bool.or_eq_true, decide_eq_true_eq, not_or, Nat.not_lt, Bool.not_eq_true,
      Option.isSome_eq_false_iff, Option.isNone_iff_eq_none] at hsame
    refine h.congr ?_
    simp only [RaftState.durable, Nat.max_eq_left hsame.1, hsame.2]

theorem acceptLeader (term : Nat) (leader : NodeId) : Mirrors d (s.acceptLeader term leader) := by
  unfold RaftState.acceptLeader
  dsimp only
  split
  · exact (h.hardState term none).congr rfl
  · exact h.congr rfl

theorem requestVote (rv : RequestVote) : Mirrors d (s.handleRequestVote rv).1 := by
  unfold RaftState.handleRequestVote
  dsimp only
  split
  · exact h.hardState s.currentTerm (some rv.candidateId)
  · exact h

theorem requestVoteResp {rvr : RequestVoteResp}
    (hr : s.handleRequestVoteResp rvr = some (s', acts)) : Mirrors d s' := by
  unfold RaftState.handleRequestVoteResp at hr
  split at hr
  · cases hr
    exact h
  · split at hr
    · dsimp only at hr
      split at hr
      · obtain ⟨s₁, hlead, hr⟩ := Option.bind_eq_some_iff.mp hr
        obtain ⟨out, -, hr⟩ := Option.bind_eq_some_iff.mp hr
        cases hr
        refine Mirrors.becomeLeader ?_ hlead
        exact h.congr rfl
      · cases hr
        exact h.congr rfl
    · cases hr
      exact h

theorem appendEntries (hr : s.handleAppendEntries ae = some (s', acts))
    (hmax : s'.log.lastIndex < u64Max) : Mirrors d s' := by
  unfold RaftState.handleAppendEntries at hr
  dsimp only at hr
  split at hr
  · cases hr
    exact h
  · obtain ⟨⟨s₁, took⟩, htake, hr⟩ := Option.map_eq_some_iff.mp hr
    have hs₁ : s'.durable = s₁.durable := by
      cases took with
      | true =>
        cases hr
        dsimp only
        split <;> rfl
      | false =>
        cases hr
        rfl
    have hlog : s'.log = s₁.log := congrArg (fun x => x.2.2.1) hs₁
    refine Mirrors.congr ?_ hs₁
    unfold RaftState.takeEntries at htake
    split at htake
    · exact (h.acceptLeader ae.term ae.leaderId).appendFrom htake (hlog ▸ hmax)
    · cases htake
      exact h.acceptLeader ae.term ae.leaderId

theorem appendEntriesResp {aer : AppendEntriesResp}
    (hr : s.handleAppendEntriesResp aer = some (s', acts)) : Mirrors d s' := by
  unfold RaftState.handleAppendEntriesResp at hr
  split at hr
  · cases hr
    exact h
  · dsimp only at hr
    split at hr
    · obtain ⟨s₁, hrecompute, hr⟩ := Option.bind_eq_some_iff.mp hr
      have hs₁ : s₁.durable = s.durable := by
        rw [RaftState.recomputeCommitIndex_durable hrecompute]
        split <;> rfl
      split at hr
      · obtain ⟨act, -, hr⟩ := Option.bind_eq_some_iff.mp hr
        cases hr
        exact h.congr hs₁
      · cases hr
        exact h.congr hs₁
    · obtain ⟨act, -, hr⟩ := Option.bind_eq_some_iff.mp hr
      cases hr
      exact h.congr rfl

theorem installSnapshot (is : InstallSnapshot) (progress : Nat)
    (hmax : is.lastIndex < u64Max) : Mirrors d (s.handleInstallSnapshot is progress).1 := by
  unfold RaftState.handleInstallSnapshot
  dsimp only
  split
  · exact h
  · split
    · exact (h.acceptLeader is.term is.leaderId).install is hmax
    · exact h.acceptLeader is.term is.leaderId

theorem installSnapshotResp {isr : InstallSnapshotResp}
    (hr : s.handleInstallSnapshotResp isr = some (s', acts)) : Mirrors d s' := by
  unfold RaftState.handleInstallSnapshotResp at hr
  split at hr
  · cases hr
    exact h
  · dsimp only at hr
    split at hr
    · cases hr
      exact h
    · split at hr
      · obtain ⟨next, -, hr⟩ := Option.bind_eq_some_iff.mp hr
        obtain ⟨s₁, hrecompute, hr⟩ := Option.bind_eq_some_iff.mp hr
        have hs₁ : s₁.durable = s.durable := by
          rw [RaftState.recomputeCommitIndex_durable hrecompute]
          rfl
        split at hr
        · obtain ⟨act, -, hr⟩ := Option.bind_eq_some_iff.mp hr
          cases hr
          exact h.congr hs₁
        · cases hr
          exact h.congr hs₁
      · cases hr
        exact h.congr rfl

theorem dispatch (hd : s.dispatch progress msg = some (s', acts)) (hmax : s'.log.lastIndex < u64Max)
    (hsmall : ∀ is, msg = .installSnapshot is → is.lastIndex < u64Max) : Mirrors d s' := by
  cases msg with
  | requestVote rv =>
    obtain rfl : (s.handleRequestVote rv).1 = s' := congrArg Prod.fst (Option.some.inj hd)
    exact h.requestVote rv
  | requestVoteResp rvr => exact h.requestVoteResp hd
  | appendEntries ae => exact h.appendEntries hd hmax
  | appendEntriesResp aer => exact h.appendEntriesResp hd
  | installSnapshot is =>
    obtain rfl : (s.handleInstallSnapshot is progress).1 = s' :=
      congrArg Prod.fst (Option.some.inj hd)
    exact h.installSnapshot is progress (hsmall is rfl)
  | installSnapshotResp isr => exact h.installSnapshotResp hd

theorem message (hm : s.onMessageWithProgress msg progress = some (s', acts))
    (hmax : s'.log.lastIndex < u64Max)
    (hsmall : ∀ is, msg = .installSnapshot is → is.lastIndex < u64Max) : Mirrors d s' := by
  unfold RaftState.onMessageWithProgress at hm
  split at hm
  · cases hm
    exact h
  · obtain ⟨⟨s₁, acts₁⟩, hdispatch, hm⟩ := Option.bind_eq_some_iff.mp hm
    obtain rfl : s₁.drainApplyActions.1 = s' := congrArg Prod.fst (Option.some.inj hm)
    have hlog : s₁.drainApplyActions.1.log = s₁.log :=
      congrArg (fun x => x.2.2.1) s₁.drainApplyActions_durable
    rw [hlog] at hmax
    refine Mirrors.congr (Mirrors.dispatch ?_ hdispatch hmax hsmall) s₁.drainApplyActions_durable
    split
    · exact h.stepDownTo msg.term
    · exact h

theorem propose {out : ProposeOutcome} (hp : s.tryPropose payload = some (s', out, acts)) :
    Mirrors d s' := by
  unfold RaftState.tryPropose at hp
  split at hp
  · cases hp
    exact h
  · obtain ⟨⟨s₁, index⟩, happend, hp⟩ := Option.bind_eq_some_iff.mp hp
    obtain ⟨s₂, hrecompute, hp⟩ := Option.bind_eq_some_iff.mp hp
    cases hp
    exact (h.appendLocal happend).congr (s₂.drainApplyActions_durable.trans
      (RaftState.recomputeCommitIndex_durable hrecompute))

theorem takeSnapshot (hmax : s.log.lastIndex < u64Max) {data : Bytes} {through : Option Nat}
    (ht : s.takeSnapshot data through = .ok (s', snap)) : Mirrors d s' := by
  unfold RaftState.takeSnapshot at ht
  dsimp only at ht
  split at ht
  · cases ht
  · rename_i hnew
    split at ht
    · cases ht
    · rename_i term hterm
      cases ht
      have := h.counted.termAt_le hterm
      exact h.compact (by omega) (by omega)

end Mirrors

end

theorem Mirrors.checkStart (h : s.checkStart = some (.ok s')) :
    s' = s ∧ ∀ first, s.log.entries.head? = some first → first.index = s.log.baseIndex + 1 := by
  unfold RaftState.checkStart at h
  split at h
  · rename_i hnone
    cases h
    refine ⟨rfl, fun first hf => ?_⟩
    rw [hnone] at hf
    cases hf
  · rename_i first hfirst
    obtain ⟨expected, hexp, hif⟩ := Option.bind_eq_some_iff.mp h
    obtain ⟨rfl, -⟩ := addU64_eq_some.mp hexp
    split at hif
    · cases hif
    · rename_i heq
      cases hif
      refine ⟨rfl, fun first' hf' => ?_⟩
      cases hfirst.symm.trans hf'
      exact not_not.mp heq

/-- What `restore` leaves of a stored log that starts at or before the snapshot's end. -/
theorem adoptSnapshot_entries {e : LogEntry} {es : List LogEntry}
    (hlog : s.log = { entries := e :: es })
    (hstart : ∀ first, (s.adoptSnapshot snap).log.entries.head? = some first →
      first.index = snap.lastIndex + 1) (hmax : snap.lastIndex < u64Max) :
    (s.adoptSnapshot snap).log.entries = (e :: es).drop (snap.lastIndex + 1 - e.index) := by
  unfold RaftState.adoptSnapshot Log.compactThrough at hstart ⊢
  rw [hlog] at hstart ⊢
  dsimp only [List.head?_cons] at hstart ⊢
  split at hstart
  · rename_i hzero
    have he := hstart e rfl
    rw [if_pos hzero, show snap.lastIndex + 1 - e.index = 0 by omega]
    rfl
  · rename_i hpos
    rw [if_neg hpos, satAdd_of_le (by omega)]
    rcases Nat.le_total (snap.lastIndex + 1 - e.index) (e :: es).length with hle | hle
    · rw [Nat.min_eq_left hle]
    · rw [Nat.min_eq_right hle, List.drop_length, List.drop_eq_nil_of_le hle]

theorem Mirrors.adopted {log : List LogEntry} (hcontig : contiguous log) (hempty : s.pending = [])
    (hlog : s.log = { entries := log })
    (hstart : ∀ first, (s.adoptSnapshot snap).log.entries.head? = some first →
      first.index = snap.lastIndex + 1) (hmax : snap.lastIndex < u64Max) :
    Mirrors ⟨s.currentTerm, s.votedFor, log⟩ (s.adoptSnapshot snap) := by
  have hpending : (s.adoptSnapshot snap).pending =
      if RaftState.startsCovered log snap.lastIndex then
        [.compactThrough snap.lastIndex] else [] := by
    show (if RaftState.startsCovered s.log.entries snap.lastIndex then _ else _) = _
    rw [hlog, hempty]
    rfl
  cases log with
  | nil =>
    have hnil : (s.adoptSnapshot snap).log.entries = [] := by
      unfold RaftState.adoptSnapshot Log.compactThrough
      rw [hlog]
      dsimp only
      split <;> rfl
    refine ⟨?_, fun k e he => ?_⟩
    · rw [hpending, RaftState.snapshotPersistent, hnil]
      rfl
    · rw [hnil] at he
      cases he
  | cons e es =>
    have hdrop := adoptSnapshot_entries hlog hstart hmax
    rw [hdrop] at hstart
    have hle : e.index ≤ snap.lastIndex + 1 := by
      by_contra hgt
      rw [show snap.lastIndex + 1 - e.index = 0 by omega] at hstart
      have := hstart e rfl
      omega
    refine ⟨?_, fun k x hx => ?_⟩
    · rw [hpending, RaftState.snapshotPersistent, hdrop]
      by_cases hcov : e.index ≤ snap.lastIndex
      · rw [if_pos (by simpa [RaftState.startsCovered] using hcov), ← contiguous_filter_gt hcontig]
        rfl
      · rw [if_neg (by simpa [RaftState.startsCovered] using hcov),
          show snap.lastIndex + 1 - e.index = 0 by omega]
        rfl
    · rw [hdrop, List.getElem?_drop] at hx
      rw [contiguous_index hcontig hx]
      show _ = snap.lastIndex + k + 1
      omega

/-- A node as the process makes it. -/
def fresh (me : NodeId) (peers : List NodeId) (noopOnElect : Bool) : RaftState :=
  {RaftState.new me peers with noopOnElect}

theorem Mirrors.fresh (me : NodeId) (peers : List NodeId) (noopOnElect : Bool) :
    Mirrors {} (fresh me peers noopOnElect) :=
  ⟨rfl, nofun⟩

theorem Mirrors.restored {persisted : PersistedRaft} {snap : Option PersistedSnapshot}
    {me : NodeId} {peers : List NodeId} {noopOnElect : Bool}
    (hr : (Raft.fresh me peers noopOnElect).restore persisted snap = some (.ok s))
    (hcontig : contiguous persisted.log) (hmax : ∀ p ∈ snap, p.lastIndex < u64Max) :
    Mirrors persisted s := by
  unfold RaftState.restore at hr
  cases snap with
  | none =>
    obtain ⟨rfl, hstart⟩ := Mirrors.checkStart hr
    exact ⟨rfl, contiguous_numbered hcontig hstart⟩
  | some snap =>
    obtain ⟨rfl, hstart⟩ := Mirrors.checkStart hr
    exact Mirrors.adopted hcontig rfl rfl hstart (hmax snap rfl)

end Mirrors

/-! ### Runs -/

/-- What a node is told. -/
inductive Input where
  | electionTimeout
  | heartbeatTick
  | message (msg : Message) (progress : Nat)
  | propose (payload : Bytes)
  | changeMembership (add remove : List NodeId)
  | takeSnapshot (data : Bytes) (through : Option Nat)
  deriving DecidableEq, Repr

/-- The state after an input. A refused snapshot leaves it as it was. -/
def RaftState.handle (s : RaftState) : Input → Option RaftState
  | .electionTimeout => s.onElectionTimeout.map Prod.fst
  | .heartbeatTick => s.onHeartbeatTick.map fun _ => s
  | .message msg progress => (s.onMessageWithProgress msg progress).map Prod.fst
  | .propose payload => (s.tryPropose payload).map Prod.fst
  | .changeMembership add remove => (s.tryChangeMembership add remove).map Prod.fst
  | .takeSnapshot data through =>
    match s.takeSnapshot data through with
    | .error _ => some s
    | .ok (s, _) => some s

theorem Mirrors.handle {d : PersistedRaft} {s s' : RaftState} (h : Mirrors d s) {input : Input}
    (hh : s.handle input = some s') (hlast : s.log.lastIndex < u64Max)
    (hmax : s'.log.lastIndex < u64Max)
    (hsmall : ∀ is progress, input = .message (.installSnapshot is) progress →
      is.lastIndex < u64Max) : Mirrors d s' := by
  cases input with
  | electionTimeout =>
    obtain ⟨⟨s₁, acts⟩, helect, rfl⟩ := Option.map_eq_some_iff.mp hh
    unfold RaftState.onElectionTimeout at helect
    split at helect
    · cases helect
      exact h
    · exact h.startElection helect
  | heartbeatTick =>
    obtain ⟨acts, -, rfl⟩ := Option.map_eq_some_iff.mp hh
    exact h
  | message msg progress =>
    obtain ⟨⟨s₁, acts⟩, hmsg, rfl⟩ := Option.map_eq_some_iff.mp hh
    exact h.message hmsg hmax fun is heq => hsmall is progress (heq ▸ rfl)
  | propose payload =>
    obtain ⟨⟨s₁, out, acts⟩, hpropose, rfl⟩ := Option.map_eq_some_iff.mp hh
    exact h.propose hpropose
  | changeMembership add remove =>
    obtain ⟨⟨s₁, out, acts⟩, hchange, rfl⟩ := Option.map_eq_some_iff.mp hh
    unfold RaftState.tryChangeMembership at hchange
    split at hchange
    · cases hchange
      exact h
    · exact h.propose hchange
  | takeSnapshot data through =>
    unfold RaftState.handle at hh
    dsimp only at hh
    split at hh
    · cases hh
      exact h
    · rename_i s₁ snap htake
      cases hh
      exact h.takeSnapshot hlast htake

end EventStream.Raft
