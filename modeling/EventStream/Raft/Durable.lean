import EventStream.Raft.Counted
import EventStream.Raft.Refinement

/-! An event on its way to the disk.

While a node handles an event the protocol moves, the state follows it, and the pending
operations would bring the disk there (`Handled`). At every point between two of those
operations the disk is one to restart from (`Tearable`). Before the log is touched only
the hard state is pending, and it may be rewritten (`Early`). -/
namespace EventStream.Raft

/-! ### Operations on stored entries -/

theorem PersistedRaft.persist_append (d : PersistedRaft) (ops ops' : List PersistOp) :
    d.persist (ops ++ ops') = (d.persist ops).persist ops' := by
  simp [PersistedRaft.persist]

/-- Writing the hard state leaves the entries alone. -/
theorem PersistedRaft.persist_hardState (d : PersistedRaft) (hs : List PersistOp)
    (h : ∀ op ∈ hs, op.isHardState = true) : (d.persist hs).log = d.log := by
  induction hs generalizing d with
  | nil => rfl
  | cons op hs ih =>
    have hop := h op List.mem_cons_self
    rw [show d.persist (op :: hs) = (d.persistOp op).persist hs from rfl,
      ih _ (fun op' h' => h op' (List.mem_cons_of_mem _ h'))]
    cases op with
    | hardState => rfl
    | append | truncateFrom | compactThrough => cases hop

theorem foldl_persist (disk : Disk) (ops : List PersistOp) :
    (ops.map DurableStep.persist).foldl Disk.apply disk =
      {disk with raft := disk.raft.persist ops} := by
  induction ops generalizing disk with
  | nil => rfl
  | cons op ops ih => exact ih _

/-! ### Handling -/

/-- Wherever the store stops among `ops`, it stands for a protocol state the node moved
through, in which its log was still the old one or already a part of `l`. -/
def Tearable (c : Cluster) (a₀ : Proto) (i : NodeId) (folded : List LogEntry)
    (d : PersistedRaft) (l : List LogEntry) (ops : List PersistOp) : Prop :=
  ∀ done, done <+: ops → ∃ a, c.Moves i a₀ a ∧ Sane c a ∧
    DiskOk c a i folded (d.persist done) ∧ (a.log i = a₀.log i ∨ a.log i <+: l)

structure Handled (c : Cluster) (a₀ : Proto) (i : NodeId) (folded : List LogEntry)
    (d : PersistedRaft) (a : Proto) (s : RaftState) : Prop where
  moves : c.Moves i a₀ a
  sane : Sane c a
  sound : Sound c a i folded s
  synced : d.persist s.pending = s.snapshotPersistent
  torn : Tearable c a₀ i folded d (a.log i) s.pending

/-- Nothing but the hard state has changed. -/
structure Early (c : Cluster) (a₀ : Proto) (i : NodeId) (folded : List LogEntry)
    (d : PersistedRaft) (a : Proto) (s : RaftState) : Prop where
  moves : c.Moves i a₀ a
  sane : Sane c a
  sound : Sound c a i folded s
  synced : d.persist s.pending = s.snapshotPersistent
  torn : Tearable c a₀ i folded d [] s.pending
  log : a.log i = a₀.log i
  shape : ∃ pre hs, s.pending = pre ++ hs ∧ (∀ op ∈ pre, op.isHardState = false) ∧
    ∀ op ∈ hs, op.isHardState = true

variable {c : Cluster} {a₀ a a' : Proto} {i : NodeId} {folded l l' : List LogEntry}
    {d : PersistedRaft} {s s' : RaftState} {ops : List PersistOp} {op : PersistOp}

theorem Tearable.mono (h : Tearable c a₀ i folded d l ops) (hl : l <+: l') :
    Tearable c a₀ i folded d l' ops := by
  intro done hd
  obtain ⟨a, hm, hs, hok, hlog⟩ := h done hd
  exact ⟨a, hm, hs, hok, hlog.imp id (fun hp => hp.trans hl)⟩

/-- One more operation, after which the disk has caught up with the state. -/
theorem Tearable.snoc (h : Tearable c a₀ i folded d (a.log i) ops) (hm : c.Moves i a₀ a)
    (hs : Sane c a) (hsound : Sound c a i folded s)
    (hsync : d.persist (ops ++ [op]) = s.snapshotPersistent) :
    Tearable c a₀ i folded d (a.log i) (ops ++ [op]) := by
  intro done hd
  rcases List.prefix_concat_iff.mp hd with rfl | hd
  · exact ⟨a, hm, hs, hsync ▸ hsound.disk, .inr List.prefix_rfl⟩
  · exact h done hd

theorem Early.handled (h : Early c a₀ i folded d a s) : Handled c a₀ i folded d a s :=
  ⟨h.moves, h.sane, h.sound, h.synced, h.torn.mono List.nil_prefix⟩

/-- The protocol moves without touching the node's log, or the state changes in what is
not durable. -/
theorem Handled.move (h : Handled c a₀ i folded d a s) (hm : c.Moves i a a') (hs : Sane c a')
    (hlog : a'.log i = a.log i) (hsound : Sound c a' i folded s') (hp : s'.pending = s.pending)
    (hv : s'.snapshotPersistent = s.snapshotPersistent) : Handled c a₀ i folded d a' s' :=
  ⟨h.moves.trans hm, hs, hsound, by rw [hp, hv]; exact h.synced,
    by rw [hp, hlog]; exact h.torn⟩

theorem Early.move (h : Early c a₀ i folded d a s) (hm : c.Moves i a a') (hs : Sane c a')
    (hlog : a'.log i = a.log i) (hsound : Sound c a' i folded s') (hp : s'.pending = s.pending)
    (hv : s'.snapshotPersistent = s.snapshotPersistent) : Early c a₀ i folded d a' s' :=
  ⟨h.moves.trans hm, hs, hsound, by rw [hp, hv]; exact h.synced, by rw [hp]; exact h.torn,
    hlog.trans h.log, by rw [hp]; exact h.shape⟩

theorem Handled.volatile (h : Handled c a₀ i folded d a s) (hsound : Sound c a i folded s')
    (hp : s'.pending = s.pending) (hv : s'.snapshotPersistent = s.snapshotPersistent) :
    Handled c a₀ i folded d a s' :=
  h.move .refl h.sane rfl hsound hp hv

theorem Early.volatile (h : Early c a₀ i folded d a s) (hsound : Sound c a i folded s')
    (hp : s'.pending = s.pending) (hv : s'.snapshotPersistent = s.snapshotPersistent) :
    Early c a₀ i folded d a s' :=
  h.move .refl h.sane rfl hsound hp hv

/-- The log becomes another, behind which the node may be anywhere that the pending operations
bring it. -/
theorem handled_write (h : c.Moves i a₀ a) (hsynced : d.persist s.pending = s.snapshotPersistent)
    (htorn : Tearable c a₀ i folded d (a'.log i) s.pending) (hm : c.Moves i a a') (hs : Sane c a')
    (hsound : Sound c a' i folded s') (hp : s'.pending = s.pending ++ [op])
    (hv : s.snapshotPersistent.persistOp op = s'.snapshotPersistent) :
    Handled c a₀ i folded d a' s' := by
  have hm' := h.trans hm
  have hsync : d.persist (s.pending ++ [op]) = s'.snapshotPersistent := by
    rw [PersistedRaft.persist_append, hsynced]
    exact hv
  exact ⟨hm', hs, hsound, hp ▸ hsync, hp ▸ htorn.snoc hm' hs hsound hsync⟩

/-- The log changes, for the first time in this event. -/
theorem Early.write (h : Early c a₀ i folded d a s) (hm : c.Moves i a a') (hs : Sane c a')
    (hsound : Sound c a' i folded s') (hp : s'.pending = s.pending ++ [op])
    (hv : s.snapshotPersistent.persistOp op = s'.snapshotPersistent) :
    Handled c a₀ i folded d a' s' :=
  handled_write h.moves h.synced (h.torn.mono List.nil_prefix) hm hs hsound hp hv

/-- The log grows. -/
theorem Handled.write (h : Handled c a₀ i folded d a s) (hm : c.Moves i a a') (hs : Sane c a')
    (hlog : a.log i <+: a'.log i) (hsound : Sound c a' i folded s')
    (hp : s'.pending = s.pending ++ [op])
    (hv : s.snapshotPersistent.persistOp op = s'.snapshotPersistent) :
    Handled c a₀ i folded d a' s' :=
  handled_write h.moves h.synced (h.torn.mono hlog) hm hs hsound hp hv

/-- The hard state changes: the newest one replaces any that is pending. -/
theorem Early.hardState (h : Early c a₀ i folded d a s) (hm : c.Moves i a a') (hs : Sane c a')
    (hlog : a'.log i = a.log i) (hsound : Sound c a' i folded s')
    (hp : s'.pending = s.pending.filter (fun op => !op.isHardState) ++
      [.hardState s'.currentTerm s'.votedFor]) (hv : s'.log.entries = s.log.entries) :
    Early c a₀ i folded d a' s' := by
  obtain ⟨pre, hards, hshape, hpre, hhards⟩ := h.shape
  have hpend : s'.pending = pre ++ [.hardState s'.currentTerm s'.votedFor] := by
    have hkeep : pre.filter (fun op => !op.isHardState) = pre :=
      List.filter_eq_self.mpr (fun op hop => by simp [hpre op hop])
    have hdrop : hards.filter (fun op => !op.isHardState) = [] :=
      List.filter_eq_nil_iff.mpr (fun op hop => by simp [hhards op hop])
    rw [hp, hshape, List.filter_append, hkeep, hdrop, List.append_nil]
  have hsync : d.persist (pre ++ [.hardState s'.currentTerm s'.votedFor]) =
      s'.snapshotPersistent := by
    have hlogs : (d.persist pre).log = s.log.entries := by
      rw [← PersistedRaft.persist_hardState _ hards hhards, ← PersistedRaft.persist_append,
        ← hshape, h.synced]
      rfl
    rw [PersistedRaft.persist_append]
    show PersistedRaft.mk _ _ (d.persist pre).log = PersistedRaft.mk _ _ s'.log.entries
    rw [hlogs, hv]
  have hm' := h.moves.trans hm
  refine ⟨hm', hs, hsound, hpend ▸ hsync, ?_, hlog.trans h.log,
    ⟨pre, _, hpend, hpre, fun op hop => by rw [List.mem_singleton.mp hop]; rfl⟩⟩
  rw [hpend]
  intro done hd
  rcases List.prefix_concat_iff.mp hd with rfl | hd
  · exact ⟨a', hm', hs, hsync ▸ hsound.disk, .inl (hlog.trans h.log)⟩
  · exact h.torn done (hshape ▸ hd.trans (List.prefix_append _ _))

end EventStream.Raft
