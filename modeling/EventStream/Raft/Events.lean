import EventStream.Raft.Follower
import EventStream.Raft.Voting

/-! What one event does to a node and its disk.

Between events a node agrees with its disk (`NodeOk`), and a disk that agrees with the
protocol restarts the node there (`restart_ok`). Every event takes such a node to such a
node (`NodeOk.handle`). A crash between the durable steps of an event leaves a disk to
restart from, unless it falls between a snapshot and the operations that clear away what
conflicts with it (`SafeTear`). -/
namespace EventStream.Raft
open Consensus (Extends Frame)

/-- The stored snapshot says of itself what the entries it stands for say. -/
def SnapshotOk (snapshot : Option Snapshot) : Prop :=
  ∀ snap, snapshot = some snap → snap.stored.lastIndex = snap.covers.length ∧
    snap.stored.lastTerm = lastTermOf snap.covers

/-- A disk from which node `i` restarts where the protocol has it. -/
structure Resumes (c : Cluster) (a : Proto) (i : NodeId) (d : Disk) : Prop where
  raft : DiskOk c a i d.folded d.raft
  snapshot : SnapshotOk d.snapshot

/-- A node between two events. Only a restart leaves operations pending, and those do not
touch the hard state. -/
structure NodeOk (c : Cluster) (a : Proto) (i : NodeId) (n : Node) : Prop where
  sound : Sound c a i n.disk.folded n.state
  snapshot : SnapshotOk n.disk.snapshot
  synced : n.disk.raft.persist n.state.pending = n.state.snapshotPersistent
  torn : ∀ done, done <+: n.state.pending →
    DiskOk c a i n.disk.folded (n.disk.raft.persist done)
  logOnly : ∀ op ∈ n.state.pending, op.isHardState = false

variable {c : Cluster} {a₀ a a' : Proto} {i : NodeId} {folded covers l : List LogEntry}
    {d : PersistedRaft} {s s' : RaftState} {n : Node} {disk : Disk} {acts : List Action}
    {p : Packet} {k progress : Nat}

section
variable (h : NodeOk c a i n)
include h

theorem NodeOk.early (hs : Sane c a) : Early c a i n.disk.folded n.disk.raft a n.state where
  moves := .refl
  sane := hs
  sound := h.sound
  synced := h.synced
  torn := fun done hd => ⟨a, .refl, hs, h.torn done hd, .inl rfl⟩
  log := rfl
  shape := ⟨n.state.pending, [], (List.append_nil _).symm, h.logOnly, by simp⟩

theorem NodeOk.resumes : Resumes c a i n.disk :=
  ⟨h.torn [] List.nil_prefix, h.snapshot⟩

theorem NodeOk.frame {j : NodeId} (he : Extends a a') (hf : Frame j a a') (hij : i ≠ j) :
    NodeOk c a' i n :=
  ⟨h.sound.frame he hf hij, h.snapshot, h.synced,
    fun done hd => (h.torn done hd).frame he hf hij, h.logOnly⟩

end

/-- A node that has nothing pending and whose disk has all of its state. -/
theorem Sound.nodeOk (disk : Disk) (h : Sound c a i disk.folded s)
    (hsnap : SnapshotOk disk.snapshot) (hsync : disk.raft = s.snapshotPersistent) :
    NodeOk c a i ⟨{s with pending := []}, disk⟩ where
  sound := {h with me := h.me}
  snapshot := hsnap
  synced := hsync
  torn := fun done hd => by
    rw [List.prefix_nil.mp hd]
    exact (hsync ▸ h.disk : DiskOk c a i disk.folded disk.raft)
  logOnly := by simp

/-! ### Restarting -/

/-- Compacting what is stored at the snapshot's end leaves what continues it. -/
theorem Stored.compact {stored : List LogEntry} (h : Stored folded l stored)
    (hs : l.length < u64Max) (t : Nat) :
    l = folded ++ (Log.compactThrough { entries := stored } folded.length t).entries ∧
      stored.filter (fun e => folded.length < e.index) =
        (Log.compactThrough { entries := stored } folded.length t).entries := by
  obtain ⟨j, hj, hnum, hl⟩ := h
  have hfold : folded.length < u64Max := by
    have := congrArg List.length hl
    rw [List.length_append] at this
    omega
  have hdrop : (Log.compactThrough { entries := stored } folded.length t).entries =
      stored.drop (folded.length - j) := by
    unfold Log.compactThrough
    split
    · rename_i h0
      have h0 : folded.length ≤ 0 := h0
      rw [show folded.length - j = 0 by omega, List.drop_zero]
    · dsimp only
      cases hhead : stored.head? with
      | none =>
        rw [List.head?_eq_none_iff.mp hhead, List.drop_nil, List.drop_nil]
      | some first =>
        have hfirst : first.index = j + 1 := hnum 0 first (by rw [← List.head?_eq_getElem?, hhead])
        dsimp only
        rw [hfirst, satAdd_of_le (by omega), Nat.add_sub_add_right]
        rcases Nat.le_total (folded.length - j) stored.length with hle | hle
        · rw [Nat.min_eq_left hle]
        · rw [Nat.min_eq_right hle, List.drop_length, List.drop_eq_nil_of_le hle]
  rw [hdrop]
  exact ⟨hl, Numbered.filter_gt hnum _⟩

/-- The node as `restore` builds it from a disk whose log it reads as `log`. -/
def resumed (c : Cluster) (i : NodeId) (d : Disk) (log : Log) (pending : List PersistOp) :
    Node where
  state := {c.boot i with
    currentTerm := d.raft.currentTerm
    votedFor := d.raft.votedFor
    log
    commitIndex := d.folded.length
    lastApplied := d.folded.length
    pending }
  disk := d

theorem Resumes.sound (h : Resumes c a i disk) {log : Log} (hlog : log.Holds disk.folded (a.log i))
    (pending : List PersistOp) : Sound c a i disk.folded (resumed c i disk log pending).state where
  me := rfl
  peers := rfl
  log := hlog
  term := h.raft.term.symm
  vote := by
    have := h.raft.vote
    rw [← h.raft.term] at this
    exact this
  base_applied := hlog.base.le
  applied_commit := Nat.le_refl _
  commit_length := by
    show disk.folded.length ≤ _
    rw [← hlog.base]
    exact hlog.base_le
  committed := by
    show c.Settled a disk.raft.currentTerm ((a.log i).take disk.folded.length)
    rw [← hlog.base, hlog.take_base, h.raft.term]
    exact h.raft.standing.settled
  standing := h.raft.standing
  candidate := fun hr => by cases hr
  leader := fun hr => by cases hr

/-- A log in order passes `restore`'s check. -/
theorem checkStart_ok (h : s.log.Holds folded l) : s.checkStart = some (.ok s) := by
  unfold RaftState.checkStart
  cases hhead : s.log.entries.head? with
  | none => rfl
  | some first =>
    have hle := h.base_le
    have hsmall := h.small
    have hadd : addU64 s.log.baseIndex 1 = some (s.log.baseIndex + 1) :=
      addU64_eq_some.mpr ⟨rfl, by omega⟩
    simp [hadd, h.counted.head_index hhead]

/-- `restore` reads the entries the snapshot does not cover, and owes the store the removal
of those it does. -/
theorem restart_eq (hs : Sane c a) (h : Resumes c a i disk) :
    ∃ log pending, c.restart i disk = some (resumed c i disk log pending) ∧
      log.Holds disk.folded (a.log i) ∧
      (pending = [] ∧ disk.raft.log = log.entries ∨
        ∃ k, pending = [.compactThrough k] ∧
          disk.raft.log.filter (fun e => k < e.index) = log.entries) := by
  obtain ⟨hsmall, hidx⟩ := hs.log i
  have hstored := h.raft.log
  obtain ⟨raft, snapshot⟩ := disk
  cases snapshot with
  | none =>
    obtain ⟨j, hj, hnum, hl⟩ := hstored
    have hl : a.log i = raft.log := by simpa [Disk.folded] using hl
    have hholds : Log.Holds { entries := raft.log } [] (a.log i) :=
      ⟨hl, rfl, rfl, fun k e he => (hidx k e he).1, hsmall⟩
    refine ⟨{ entries := raft.log }, [], ?_, hholds, .inl ⟨rfl, rfl⟩⟩
    unfold Cluster.restart RaftState.restore
    dsimp only [Option.map_none]
    rw [checkStart_ok (s := {c.boot i with
      currentTerm := raft.currentTerm, votedFor := raft.votedFor, log := { entries := raft.log } })
      hholds]
    rfl
  | some snap =>
    obtain ⟨hindex, hterm⟩ := h.snapshot snap rfl
    obtain ⟨hl, hfilter⟩ := hstored.compact hsmall snap.stored.lastTerm
    have hfold : Disk.folded ⟨raft, some snap⟩ = snap.covers := rfl
    rw [hfold, ← hindex] at hl hfilter
    obtain ⟨log, hlog⟩ : ∃ log : Log, log =
        { Log.compactThrough { entries := raft.log } snap.stored.lastIndex snap.stored.lastTerm with
          baseIndex := snap.stored.lastIndex
          baseTerm := snap.stored.lastTerm } := ⟨_, rfl⟩
    have hholds : log.Holds snap.covers (a.log i) := by
      rw [hlog]
      exact ⟨hl, hindex, hterm, fun k e he => (hidx k e he).1, hsmall⟩
    obtain ⟨j, -, hnum, -⟩ := hstored
    have hrestart {ops : List PersistOp}
        (hops : (if RaftState.startsCovered raft.log snap.stored.lastIndex then
          [PersistOp.compactThrough snap.stored.lastIndex] else []) = ops) :
        c.restart i ⟨raft, some snap⟩ = some (resumed c i ⟨raft, some snap⟩ log ops) := by
      have hadopt : RaftState.adoptSnapshot
          {c.boot i with
            currentTerm := raft.currentTerm, votedFor := raft.votedFor
            log := { entries := raft.log } } snap.stored =
          (resumed c i ⟨raft, some snap⟩ log ops).state := by
        unfold RaftState.adoptSnapshot resumed
        rw [← hops, hfold, ← hindex, hlog]
        simp [Cluster.boot, RaftState.new]
      unfold Cluster.restart RaftState.restore
      dsimp only [Option.map_some]
      rw [hadopt, checkStart_ok (s := (resumed c i ⟨raft, some snap⟩ log ops).state) hholds]
      rfl
    by_cases hcov : RaftState.startsCovered raft.log snap.stored.lastIndex = true
    · exact ⟨_, _, hrestart (if_pos hcov), hholds, .inr ⟨_, rfl, hlog ▸ hfilter⟩⟩
    · refine ⟨_, _, hrestart (if_neg hcov), hholds, .inl ⟨rfl, ?_⟩⟩
      rw [hlog]
      show raft.log = (Log.compactThrough _ _ _).entries
      rw [← hfilter, Numbered.filter_gt hnum]
      cases hhead : raft.log.head? with
      | none => rw [List.head?_eq_none_iff.mp hhead, List.drop_nil]
      | some e =>
        have he : e.index = j + 1 := hnum 0 e (by rw [← List.head?_eq_getElem?, hhead])
        rw [RaftState.startsCovered, hhead] at hcov
        have : ¬ e.index ≤ snap.stored.lastIndex := by simpa using hcov
        rw [show snap.stored.lastIndex - j = 0 by omega, List.drop_zero]

theorem restart_ok (hs : Sane c a) (h : Resumes c a i disk) :
    ∃ n, c.restart i disk = some n ∧ NodeOk c a i n ∧ n.disk = disk := by
  obtain ⟨log, pending, heq, hlog, hpend⟩ := restart_eq hs h
  have hsound := h.sound hlog pending
  refine ⟨_, heq, ?_, rfl⟩
  rcases hpend with ⟨rfl, hsync⟩ | ⟨k, rfl, hsync⟩
  · exact hsound.nodeOk disk h.snapshot (congrArg (PersistedRaft.mk _ _) hsync)
  · have hdone : disk.raft.persist [.compactThrough k] =
        (resumed c i disk log [.compactThrough k]).state.snapshotPersistent :=
      congrArg (PersistedRaft.mk _ _) hsync
    refine ⟨hsound, h.snapshot, hdone, fun done hd => ?_, fun op hop => ?_⟩
    · have hd : done <+: [] ++ [PersistOp.compactThrough k] := hd
      rcases List.prefix_concat_iff.mp hd with rfl | hd
      · show DiskOk c a i disk.folded (disk.raft.persist [.compactThrough k])
        rw [hdone]
        exact hsound.disk
      · rw [List.prefix_nil.mp hd]
        exact h.raft
    · rw [List.mem_singleton.mp hop]
      rfl

/-! ### A snapshot on the disk before the log follows -/

/-- The log has all the entries of the new snapshot: compacting can wait. -/
theorem DiskOk.fold (h : DiskOk c a i folded d) (hpre : folded <+: covers)
    (hcov : covers <+: a.log i) (hset : c.Settled a (a.term i) covers) : DiskOk c a i covers d := by
  obtain ⟨j, hj, hnum, hl⟩ := h.log
  have hlen := hpre.length_le
  refine ⟨h.term, h.vote, ⟨j, by omega, hnum, ?_⟩, {h.standing with settled := hset}⟩
  obtain ⟨rest, hrest⟩ := hcov
  have hdrop : rest = d.log.drop (covers.length - j) :=
    calc rest = (a.log i).drop covers.length := by rw [← hrest, List.drop_left]
      _ = (d.log.drop (folded.length - j)).drop (covers.length - folded.length) := by
        rw [hl, List.drop_append, List.drop_eq_nil_of_le hlen, List.nil_append]
      _ = d.log.drop (covers.length - j) := by
        rw [List.drop_drop]
        congr 1
        omega
  rw [← hdrop, hrest]

/-- The log ends before the new snapshot does: nothing of it is left. -/
theorem DiskOk.discard (h : DiskOk c a i folded d) (hlen : folded.length ≤ covers.length)
    (hle : (a.log i).length ≤ covers.length) (hst : Stays c i a a') (hlog : a'.log i = covers)
    (hset : c.Settled a' (a'.term i) covers) : DiskOk c a' i covers d := by
  obtain ⟨j, hj, hnum, hl⟩ := h.log
  refine ⟨h.term.trans (congrFun hst.term i).symm, ?_, ⟨j, by omega, hnum, ?_⟩,
    {h.standing.mono hst.extend (congrFun hst.term i) with settled := hset}⟩
  · rw [hst.term, hst.vote]
    exact h.vote
  · have hstored : d.log.length ≤ covers.length - j := by
      have := congrArg List.length hl
      rw [List.length_append, List.length_drop] at this
      omega
    rw [hlog, List.drop_eq_nil_of_le hstored, List.append_nil]

/-! ### Effects -/

/-- The crash does not fall between a snapshot and operations that must follow it: those
that raise the term, or that remove entries which conflict with the snapshot. -/
def SafeTear (before : RaftState) (e : Effect) (k : Nat) : Prop :=
  ∀ snap, e.save = some snap → 0 < k → k < e.durable.length →
    e.state.currentTerm = before.currentTerm ∧
      (before.log.termAt snap.stored.lastIndex = some snap.stored.lastTerm ∨
        before.log.lastIndex ≤ snap.stored.lastIndex)

instance (before : RaftState) (e : Effect) (k : Nat) : Decidable (SafeTear before e k) :=
  match h : e.save with
  | none => .isTrue fun _ hs => nomatch h.symm.trans hs
  | some snap => decidable_of_iff (0 < k → k < e.durable.length →
      e.state.currentTerm = before.currentTerm ∧
        (before.log.termAt snap.stored.lastIndex = some snap.stored.lastTerm ∨
          before.log.lastIndex ≤ snap.stored.lastIndex))
      ⟨fun hk _ hs => Option.some.inj (h.symm.trans hs) ▸ hk, fun hk => hk snap h⟩

/-- The disk after `k` durable steps of an event. -/
def Effect.store (e : Effect) (d : Disk) (k : Nat) : Disk :=
  (e.durable.take k).foldl Disk.apply d

/-- The protocol follows a node through an event to `a'`, or to a point on the way there if
the node crashes. -/
structure EffectOk (c : Cluster) (a : Proto) (i : NodeId) (n : Node) (e : Effect) (a' : Proto) :
    Prop where
  moves : c.Moves i a a'
  sane : Sane c a'
  node : NodeOk c a' i ⟨{e.state with pending := []}, e.durable.foldl Disk.apply n.disk⟩
  actions : ActionsOk c a' e.state e.actions
  torn : ∀ k, SafeTear n.state e k → ∃ a₁, c.Moves i a a₁ ∧ Sane c a₁ ∧
    Resumes c a₁ i (e.store n.disk k) ∧
      ((e.store n.disk k).folded = n.disk.folded ∧ a₁.log i = a.log i ∨
        (e.store n.disk k).folded = (e.durable.foldl Disk.apply n.disk).folded ∧
          a₁.log i <+: a'.log i)

theorem Handled.effect (hn : NodeOk c a i n) (h : Handled c a i n.disk.folded n.disk.raft a' s')
    (hacts : ActionsOk c a' s' acts) : EffectOk c a i n { state := s', actions := acts } a' := by
  have hdur : Effect.durable { state := s', actions := acts } = s'.pending.map .persist := rfl
  refine ⟨h.moves, h.sane, ?_, hacts, fun k _ => ?_⟩
  · rw [hdur, foldl_persist]
    exact Sound.nodeOk {n.disk with raft := _} h.sound hn.snapshot h.synced
  · obtain ⟨a₁, hmoves, hsane, hdisk, hlog⟩ := h.torn _ (List.take_prefix k s'.pending)
    rw [Effect.store, hdur, ← List.map_take, foldl_persist, foldl_persist]
    exact ⟨a₁, hmoves, hsane, ⟨hdisk, hn.snapshot⟩,
      hlog.imp (fun hl => ⟨rfl, hl⟩) (fun hl => ⟨rfl, hl⟩)⟩

/-- An event that saves a snapshot. Between the snapshot and the last operation it is for
`hmid` to say where the disk restarts. -/
theorem Sound.effect (hs : Sane c a) (hn : NodeOk c a i n) (hm : c.Moves i a a') (hs' : Sane c a')
    {snap : Snapshot} (h : Sound c a' i snap.covers s')
    (hsync : n.disk.raft.persist s'.pending = s'.snapshotPersistent)
    (hsnap : SnapshotOk (some snap)) (hacts : ActionsOk c a' s' acts)
    (hmid : ∀ k, SafeTear n.state { state := s', save := some snap, actions := acts } (k + 1) →
      k < s'.pending.length → ∃ a₁, c.Moves i a a₁ ∧ Sane c a₁ ∧
        DiskOk c a₁ i snap.covers (n.disk.raft.persist (s'.pending.take k)) ∧
        a₁.log i <+: a'.log i) :
    EffectOk c a i n { state := s', save := some snap, actions := acts } a' := by
  have hdur : Effect.durable { state := s', save := some snap, actions := acts } =
      .saveSnapshot snap :: s'.pending.map .persist := rfl
  have hfin : (Effect.durable { state := s', save := some snap, actions := acts }).foldl
      Disk.apply n.disk = ⟨n.disk.raft.persist s'.pending, some snap⟩ := by
    rw [hdur, List.foldl_cons, foldl_persist]
    rfl
  have hnode := Sound.nodeOk ⟨n.disk.raft.persist s'.pending, some snap⟩ h hsnap hsync
  refine ⟨hm, hs', hfin ▸ hnode, hacts, fun k hk => ?_⟩
  rw [hfin]
  cases k with
  | zero => exact ⟨a, .refl, hs, hn.resumes, .inl ⟨rfl, rfl⟩⟩
  | succ k =>
    have hstore : Effect.store { state := s', save := some snap, actions := acts } n.disk (k + 1) =
        ⟨n.disk.raft.persist (s'.pending.take k), some snap⟩ := by
      rw [Effect.store, hdur, List.take_succ_cons, List.foldl_cons, ← List.map_take, foldl_persist]
      rfl
    rw [hstore]
    by_cases hlt : k < s'.pending.length
    · obtain ⟨a₁, hm₁, hs₁, hdisk, hlog⟩ := hmid k hk hlt
      exact ⟨a₁, hm₁, hs₁, ⟨hdisk, hsnap⟩, .inr ⟨rfl, hlog⟩⟩
    · rw [List.take_of_length_le (Nat.le_of_not_lt hlt)]
      exact ⟨a', hm, hs', hnode.resumes, .inr ⟨rfl, List.prefix_rfl⟩⟩

/-- Before the last of its operations the disk is where the node was. -/
theorem NodeOk.before_last (h : NodeOk c a i n) {op : PersistOp}
    (hk : k < (n.state.pending ++ [op]).length) :
    DiskOk c a i n.disk.folded (n.disk.raft.persist ((n.state.pending ++ [op]).take k)) := by
  rw [List.length_append, List.length_singleton] at hk
  rw [List.take_append_of_le_length (by omega)]
  exact h.torn _ (List.take_prefix _ _)

/-! ### The events -/

theorem NodeOk.takeSnapshot (hs : Sane c a) (h : NodeOk c a i n) {data : Bytes}
    {through : Option Nat} {snap : PersistedSnapshot}
    (he : n.state.takeSnapshot data through = .ok (s', snap)) :
    EffectOk c a i n
      { state := s', save := some ⟨snap, n.history.take snap.lastIndex⟩ } a := by
  have hsound := h.sound
  have hhist : n.history = a.log i := hsound.log.full.symm
  unfold RaftState.takeSnapshot at he
  dsimp only at he
  generalize hthrough : min (through.getD n.state.lastApplied) n.state.lastApplied = cut at he
  have happ := hsound.applied_commit
  have hcom := hsound.commit_length
  split at he
  · cases he
  rename_i hcond
  split at he
  · cases he
  rename_i term hterm
  cases he
  obtain ⟨_, e, hentry, het⟩ := hsound.log.termAt_some (by omega) hterm
  have htop : term = lastTermOf ((a.log i).take cut) := by
    rw [← het, ← Log.lastTermOf_take hentry, Nat.sub_add_cancel (by omega)]
  have hlen : ((a.log i).take cut).length = cut := by
    rw [List.length_take, Nat.min_eq_left (by omega)]
  have hset : c.Settled a (a.term i) ((a.log i).take cut) := by
    rw [hsound.term]
    refine hsound.committed.of_isPrefix ?_
    rw [show (a.log i).take cut = ((a.log i).take n.state.commitIndex).take cut by
      rw [List.take_take, Nat.min_eq_left (by omega)]]
    exact List.take_prefix _ _
  have hlog : (n.state.log.compactThrough cut term).Holds ((a.log i).take cut) (a.log i) :=
    htop ▸ hsound.log.compactThrough (by omega) (by omega)
  have hbase : (n.state.log.compactThrough cut term).baseIndex ≤ n.state.lastApplied := by
    rw [hlog.base, hlen]
    omega
  have hsound' : Sound c a i ((a.log i).take cut)
      { n.state with
        log := n.state.log.compactThrough cut term
        pending := n.state.pending ++ [.compactThrough cut] } :=
    {hsound with
      log := hlog
      base_applied := hbase
      standing := {hsound.standing with settled := hset}}
  show EffectOk c a i n { state := _, save := some ⟨_, n.history.take cut⟩ } a
  rw [hhist]
  let snap : Snapshot := ⟨⟨cut, term, data⟩, (a.log i).take cut⟩
  refine Sound.effect hs h .refl hs (show Sound c a i snap.covers _ from hsound') ?_ ?_ .nil
    fun k _ hk => ?_
  · rw [PersistedRaft.persist_append, h.synced]
    refine congrArg (PersistedRaft.mk _ _) ?_
    show n.state.log.entries.filter (fun e => cut < e.index) =
      (n.state.log.compactThrough cut term).entries
    rw [Numbered.filter_gt hsound.log.counted, hsound.log.entries_eq, List.drop_drop,
      hlog.entries_eq, hlog.base, hlen]
    congr 1
    omega
  · intro snap hsnap
    cases hsnap
    exact ⟨hlen.symm, htop⟩
  · refine ⟨a, .refl, hs, (h.before_last hk).fold ?_ (List.take_prefix _ _) hset,
      List.prefix_rfl⟩
    rw [← hsound.log.take_base]
    exact List.take_prefix_take_left (by omega)

/-- What a message does, before the newly committed entries are handed on. -/
theorem Early.dispatch (hi : i ∈ c.members) (h : Early c a₀ i folded d a s) (hp : PacketOk c a p)
    (hdst : p.dst = i) (hle : p.msg.term ≤ s.currentTerm) (hmax : p.msg.term < u64Max)
    (hne : p.msg.sender ≠ i) (he : s.dispatch progress p.msg = some (s', acts))
    (hsmall : s'.log.lastIndex < u64Max) :
    (∃ a', Handled c a₀ i folded d a' s' ∧ ActionsOk c a' s' acts) ∨
      ∃ is a', p.msg = .installSnapshot is ∧ is.done = true ∧ is.term = s.currentTerm ∧
        s.log.baseIndex < is.lastIndex ∧ InstallOk c a is p.covers ∧
        Installed c a₀ i p.covers d a a' s' ∧ s'.pending = (s.install is).pending ∧
        ActionsOk c a' s' acts := by
  obtain ⟨dst, msg, covers⟩ := p
  cases hdst
  cases msg with
  | requestVote rv =>
    cases he
    obtain ⟨a', h', hacts⟩ := h.requestVote hi hp hle hmax
    exact .inl ⟨a', h'.handled, hacts⟩
  | requestVoteResp rvr => exact .inl (h.requestVoteResp hi hp hmax he hsmall)
  | appendEntries ae => exact .inl (h.appendEntries hp hle hne he)
  | appendEntriesResp aer => exact .inl ⟨a, h.handled.appendEntriesResp hi hp he⟩
  | installSnapshotResp isr => exact .inl ⟨a, h.handled.installSnapshotResp hi hp he⟩
  | installSnapshot is =>
    have he : s.handleInstallSnapshot is progress = (s', acts) := Option.some.inj he
    obtain rfl : (s.handleInstallSnapshot is progress).1 = s' := congrArg Prod.fst he
    obtain rfl : (s.handleInstallSnapshot is progress).2 = acts := congrArg Prod.snd he
    by_cases hold : is.term < s.currentTerm ∨ is.done = false ∨ is.lastIndex ≤ s.log.baseIndex
    · obtain ⟨a', h', _, hacts⟩ := h.installSnapshot_old hp hle hold
      exact .inl ⟨a', h', hacts⟩
    · rw [not_or, not_or, Bool.not_eq_false] at hold
      obtain ⟨hterm, hdone, hbase⟩ := hold
      have ht : is.term = s.currentTerm := Nat.le_antisymm hle (Nat.le_of_not_lt hterm)
      have hb := Nat.lt_of_not_le hbase
      obtain ⟨a', h', hpend, hacts⟩ := h.installSnapshot_new hp ht hne hdone hb
      exact .inr ⟨is, a', rfl, hdone, ht, hb, hp, h', hpend, hacts⟩

/-- The node reaches the term of a message before the handler runs. -/
theorem NodeOk.catchUp (hi : i ∈ c.members) (hs : Sane c a) (h : NodeOk c a i n)
    {msg : Message} (hmsg : n.state.ignores msg = false) {down : Bool}
    (hdown : down = decide (n.state.currentTerm < msg.term)) :
    msg.term < u64Max ∧ msg.sender ≠ i ∧
      ∃ a₁ s₁, s₁ = (if down then n.state.stepDownTo msg.term else n.state) ∧ Extends a a₁ ∧
        Early c a i n.disk.folded n.disk.raft a₁ s₁ ∧ msg.term ≤ s₁.currentTerm ∧
        s₁.log = n.state.log ∧
        (a₁ = a ∧ s₁ = n.state ∨ n.state.currentTerm < s₁.currentTerm) := by
  unfold RaftState.ignores at hmsg
  simp only [Bool.or_eq_false_iff, Bool.not_eq_false', decide_eq_false_iff_not,
    beq_eq_false_iff_ne] at hmsg
  obtain ⟨⟨hmem, hjump⟩, hmax⟩ := hmsg
  have hmem : msg.sender ∈ c.peers i := by
    rw [← h.sound.peers]
    exact List.contains_iff_mem.mp hmem
  have hlt : msg.term < u64Max := by
    have : satAdd n.state.currentTerm maxTermJump ≤ u64Max := Nat.min_le_right _ _
    omega
  refine ⟨hlt, ((c.mem_peers i hi _).mp hmem).2, ?_⟩
  subst hdown
  by_cases hterm : n.state.currentTerm < msg.term
  · obtain ⟨a₁, h₁, hext⟩ := (h.early hs).stepDown hterm hlt (List.ne_nil_of_mem hmem)
    have hcur : (n.state.stepDownTo msg.term).currentTerm = max n.state.currentTerm msg.term := by
      unfold RaftState.stepDownTo
      dsimp only
      split <;> rfl
    have hlog : (n.state.stepDownTo msg.term).log = n.state.log := by
      unfold RaftState.stepDownTo
      dsimp only
      split <;> rfl
    exact ⟨a₁, _, (if_pos (decide_eq_true hterm)).symm, hext, h₁, by omega, hlog, .inr (by omega)⟩
  · exact ⟨a, _, (if_neg (by simpa using hterm)).symm, .refl a, h.early hs, by omega, rfl,
      .inl ⟨rfl, rfl⟩⟩

theorem receivedSnapshot_none {stored : Bytes} (hb : s'.log.baseIndex = s.log.baseIndex) :
    receivedSnapshot s s' p stored = none := by
  unfold receivedSnapshot
  split
  · rw [if_neg (by omega)]
  · rfl

/-- The disk of a node that installs a snapshot at its own term, at a crash before the last
operation. -/
theorem Installed.between (hs : Sane c a) (h : NodeOk c a i n) {is : InstallSnapshot}
    (hp : InstallOk c a is covers) (ht : is.term = n.state.currentTerm)
    (hb : n.state.log.baseIndex < is.lastIndex) (hinst : Installed c a i covers d a a' s')
    (hsafe : n.state.log.termAt is.lastIndex = some is.lastTerm ∨
      n.state.log.lastIndex ≤ is.lastIndex) (hk : k < (n.state.install is).pending.length) :
    ∃ a₁, c.Moves i a a₁ ∧ Sane c a₁ ∧
      DiskOk c a₁ i covers (n.disk.raft.persist ((n.state.install is).pending.take k)) ∧
      a₁.log i <+: a'.log i := by
  have hsound := h.sound
  have hlen : n.disk.folded.length ≤ covers.length := by
    rw [← hsound.log.base, ← hp.lastIndex]
    exact Nat.le_of_lt hb
  have hset : c.Settled a (a.term i) covers := by
    rw [hsound.term, ← ht]
    exact hp.settled
  have hdisk : DiskOk c a i n.disk.folded
      (n.disk.raft.persist ((n.state.install is).pending.take k)) := by
    unfold RaftState.install at hk ⊢
    rw [if_pos hb] at hk ⊢
    exact h.before_last hk
  rcases hinst.log with ⟨hpre, hlog⟩ | ⟨hnot, hlog⟩
  · have hfold := List.prefix_of_prefix_length_le hsound.log.folded_isPrefix hpre hlen
    exact ⟨a, .refl, hs, hdisk.fold hfold hpre hset, hlog ▸ List.prefix_rfl⟩
  · have hle : (a.log i).length ≤ covers.length := by
      rw [← hsound.log.lastIndex_eq, ← hp.lastIndex]
      refine hsafe.resolve_left fun hterm => ?_
      rcases hsound.install_cases hs hp ht hb with ⟨_, _, hpre, _⟩ | ⟨log, hkeep, _⟩
      · exact hnot hpre
      · have := congrArg Prod.fst hkeep
        simp [Log.installSnapshot, hterm, Nat.le_of_lt hb] at this
    exact ⟨a', hinst.stays.moves, hinst.stays.sane,
      hdisk.discard hlen hle hinst.stays hlog hinst.sound.standing.settled,
      List.prefix_rfl⟩

theorem ActionsOk.withReset (h : ActionsOk c a s acts) {b : Bool} :
    ActionsOk c a s (if b then .resetElectionTimer :: acts else acts) := by
  split
  · exact .cons trivial h
  · exact h

theorem NodeOk.message (hi : i ∈ c.members) (hs : Sane c a) (h : NodeOk c a i n)
    (hp : PacketOk c a p) (hdst : p.dst = i)
    (he : n.state.onMessageWithProgress p.msg progress = some (s', acts))
    (hsmall : s'.log.lastIndex < u64Max) (stored : Bytes) :
    ∃ a', EffectOk c a i n
      { state := s', save := receivedSnapshot n.state s' p stored, actions := acts } a' := by
  unfold RaftState.onMessageWithProgress at he
  split at he
  · cases he
    rw [receivedSnapshot_none rfl]
    exact ⟨a, (h.early hs).handled.effect h .nil⟩
  rename_i hign
  obtain ⟨hmax, hne, a₁, s₁, hs₁, hext, hearly, hle, hlog, hwhere⟩ :=
    h.catchUp hi hs (Bool.eq_false_iff.mpr hign) rfl
  dsimp only at he
  rw [← hs₁] at he
  obtain ⟨⟨s₂, out⟩, hdisp, he⟩ := Option.bind_eq_some_iff.mp he
  cases he
  have hsmall₂ : s₂.log.lastIndex < u64Max := by
    rw [drainApplyActions_log] at hsmall
    exact hsmall
  rcases hearly.dispatch hi (hp.mono hext) hdst hle hmax hne hdisp hsmall₂ with
    ⟨a', h', hacts⟩ | ⟨is, a', hmsg, hdone, ht, hb, hok, hinst, hpend, hacts⟩
  · obtain ⟨hdrain, hstate, hmore⟩ := h'.drain
    have hbase : s₂.drainApplyActions.1.log.baseIndex = n.state.log.baseIndex := by
      rw [hdrain.sound.log.base, h.sound.log.base]
    rw [receivedSnapshot_none hbase]
    exact ⟨a', hdrain.effect h
      ((hacts.withReset.congr (by rw [hstate]) (by rw [hstate])).append hmore)⟩
  · obtain ⟨hdrain, hstate, hmore⟩ := hinst.sound.drain hinst.stays.sane
    have hsnap : receivedSnapshot n.state s₂.drainApplyActions.1 p stored =
        some ⟨⟨is.lastIndex, is.lastTerm, stored⟩, p.covers⟩ := by
      unfold receivedSnapshot
      rw [hmsg]
      dsimp only
      rw [hdrain.log.base, ← hok.lastIndex, ← hlog, if_pos ⟨hdone, hb⟩]
    rw [hsnap]
    let snap : Snapshot := ⟨⟨is.lastIndex, is.lastTerm, stored⟩, p.covers⟩
    refine ⟨a', Sound.effect hs h hinst.moves hinst.stays.sane
      (show Sound c a' i snap.covers _ from hdrain) ?_ ?_
      ((hacts.withReset.congr (by rw [hstate]) (by rw [hstate])).append hmore) fun k hk hlt => ?_⟩
    · rw [hstate]
      exact hinst.synced
    · intro snap hsnap
      cases hsnap
      exact ⟨hok.lastIndex, hok.lastTerm⟩
    · obtain ⟨hterm, hsafe⟩ := hk _ rfl (Nat.succ_pos k) (by simpa [Effect.durable] using hlt)
      have hcur : s₁.currentTerm = n.state.currentTerm := by
        rw [← hearly.sound.term, ← congrFun hinst.stays.term i, hdrain.term]
        exact hterm
      rcases hwhere with ⟨rfl, rfl⟩ | hlater
      · have hpend' : s₂.drainApplyActions.1.pending = (n.state.install is).pending := by
          rw [hstate]
          exact hpend
        rw [hpend'] at hlt ⊢
        exact hinst.between hs h hok ht hb hsafe hlt
      · omega

/-- What an event may carry: a message on the way to the node, and a payload that is no
membership change. -/
def Offered (c : Cluster) (a : Proto) (i : NodeId) : Event → Prop
  | .message p _ _ => PacketOk c a p ∧ p.dst = i
  | .propose payload => decodeConfigChange payload = none
  | _ => True

theorem NodeOk.propose (hi : i ∈ c.members) (hs : Sane c a) (h : NodeOk c a i n) {payload : Bytes}
    (hcfg : decodeConfigChange payload = none) {outcome : ProposeOutcome}
    (he : n.state.tryPropose payload = some (s', outcome, acts))
    (hsmall : s'.log.lastIndex < u64Max) :
    ∃ a', Handled c a i n.disk.folded n.disk.raft a' s' ∧ ActionsOk c a' s' acts := by
  have h₀ := (h.early hs).handled
  unfold RaftState.tryPropose at he
  split at he
  · cases he
    exact ⟨a, h₀, .nil⟩
  rename_i hr
  rw [not_not] at hr
  obtain ⟨⟨s₁, k⟩, hs₁, he⟩ := Option.bind_eq_some_iff.mp he
  obtain ⟨s₂, hs₂, he⟩ := Option.bind_eq_some_iff.mp he
  cases he
  have hr₁ : s₁.role = .leader := by
    obtain ⟨_, _, hs₁⟩ := Option.bind_eq_some_iff.mp hs₁
    cases hs₁
    exact hr
  have hlog : s₂.drainApplyActions.1.log = s₁.log := by
    rw [drainApplyActions_log]
    obtain ⟨_, _, hs₂⟩ := Option.bind_eq_some_iff.mp hs₂
    split at hs₂ <;> cases hs₂ <;> rfl
  obtain ⟨a', h₁⟩ := h₀.appendLocal hr hcfg hs₁ (hlog ▸ hsmall)
  obtain ⟨h₂, _⟩ := h₁.recompute hi hr₁ hs₂
  obtain ⟨h₃, _, hacts⟩ := h₂.drain
  exact ⟨a', h₃, hacts⟩

/-- **One event.** The protocol follows a node through any event. -/
theorem NodeOk.handle (hi : i ∈ c.members) (hs : Sane c a) (h : NodeOk c a i n) {ev : Event}
    (hev : Offered c a i ev) {e : Effect} (he : n.handle ev = some e)
    (hsmall : e.state.log.lastIndex < u64Max) : ∃ a', EffectOk c a i n e a' := by
  have h₀ := h.early hs
  cases ev with
  | message p progress stored =>
    obtain ⟨⟨s', acts⟩, hs', he⟩ := Option.bind_eq_some_iff.mp he
    cases he
    exact h.message hi hs hev.1 hev.2 hs' hsmall stored
  | electionTimeout =>
    obtain ⟨⟨s', acts⟩, hs', he⟩ := Option.bind_eq_some_iff.mp he
    cases he
    unfold RaftState.onElectionTimeout at hs'
    split at hs'
    · cases hs'
      exact ⟨a, h₀.handled.effect h .nil⟩
    · obtain ⟨a', h', hacts⟩ := h₀.startElection hi hs' hsmall
      exact ⟨a', h'.effect h hacts⟩
  | heartbeatTick =>
    obtain ⟨acts, hacts, he⟩ := Option.bind_eq_some_iff.mp he
    cases he
    exact ⟨a, h₀.handled.effect h (heartbeat_ok hs h.sound hacts)⟩
  | propose payload =>
    obtain ⟨⟨s', outcome, acts⟩, hs', he⟩ := Option.bind_eq_some_iff.mp he
    cases outcome with
    | accepted k =>
      obtain ⟨more, hmore, he⟩ := Option.bind_eq_some_iff.mp he
      cases he
      obtain ⟨a', h', hacts⟩ := h.propose hi hs hev hs' hsmall
      exact ⟨a', h'.effect h (hacts.append (heartbeat_ok h'.sane h'.sound hmore))⟩
    | notLeader hint =>
      cases he
      obtain ⟨a', h', hacts⟩ := h.propose hi hs hev hs' hsmall
      exact ⟨a', h'.effect h hacts⟩
  | takeSnapshot data through =>
    unfold Node.handle at he
    dsimp only at he
    split at he
    · cases he
    · rename_i s' snap hsnap
      cases he
      exact ⟨a, h.takeSnapshot hs hsnap⟩

end EventStream.Raft
