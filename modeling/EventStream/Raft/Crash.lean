import EventStream.Raft.Safety

/-! Crashes in the middle of making an event durable.

The driver saves a snapshot first and then writes the pending operations one by one. A
crash between any two of them leaves a disk from which `restore` builds a log in order:
the log before the event, or a part of the log after it. The exception is a snapshot that
is saved over a log it conflicts with, or at a term the store has not reached
(`SafeTear`): `restore` trims by index only and keeps the conflicting entries. -/
namespace EventStream.Raft

/-- Entries numbered on from the base, and terms that never go back. -/
def Log.WellFormed (log : Log) : Prop :=
  (∀ k e, log.entries[k]? = some e → e.index = log.baseIndex + 1 + k) ∧
    (log.baseTerm :: log.entries.map LogEntry.term).Pairwise (· ≤ ·)

/-- The same snapshot, and a part of the entries after it. -/
def Log.PartOf (log after : Log) : Prop :=
  log.baseIndex = after.baseIndex ∧ log.baseTerm = after.baseTerm ∧ log.entries <+: after.entries

variable {c : Cluster} {w : World} {a a' : Proto} {i : NodeId} {folded l : List LogEntry}
    {log log' : Log}

/-- The terms along an anchored log never go back. -/
theorem Sane.terms (hs : Sane c a) (hl : Consensus.Anchored LogEntry.term a l) :
    (l.map LogEntry.term).Pairwise (· ≤ ·) := by
  induction l using List.reverseRecOn with
  | nil => exact .nil
  | append_singleton l e ih =>
    rw [List.map_append, List.pairwise_append]
    refine ⟨ih (hl.of_isPrefix (List.prefix_append _ _)), List.pairwise_singleton _ _, ?_⟩
    intro t ht t' ht'
    obtain ⟨f, hf, rfl⟩ := List.mem_map.mp ht
    rw [List.mem_singleton.mp ht']
    exact Consensus.lead_terms hs.inv _ f (hl.whole.2.subset (List.mem_append_left _ hf))

section
variable (h : log.Holds folded l)
include h

theorem Log.Holds.wellFormed (ht : (l.map LogEntry.term).Pairwise (· ≤ ·)) : log.WellFormed := by
  refine ⟨fun k e he => ?_, ?_⟩
  · rw [h.counted k e he]
    omega
  · rw [h.full, List.map_append, List.pairwise_append] at ht
    refine List.pairwise_cons.mpr ⟨fun t hmem => ?_, ht.2.1⟩
    rw [h.baseTerm]
    rcases List.eq_nil_or_concat folded with rfl | ⟨x, e, rfl⟩
    · exact Nat.zero_le _
    · rw [List.concat_eq_append, lastTermOf, Consensus.lastTerm_concat]
      exact ht.2.2 e.term (by simp) t hmem

/-- Two logs with the same entries behind the snapshot. -/
theorem Log.Holds.partOf {l' : List LogEntry} (h' : log'.Holds folded l') (hl : l <+: l') :
    log.PartOf log' := by
  refine ⟨h.base.trans h'.base.symm, h.baseTerm.trans h'.baseTerm.symm, ?_⟩
  rw [h.full, h'.full] at hl
  exact (List.prefix_append_right_inj _).mp hl

theorem Log.Holds.unique (h' : log'.Holds folded l) : log = log' := by
  obtain ⟨entries, base, term⟩ := log
  obtain ⟨entries', base', term'⟩ := log'
  obtain rfl : entries = entries' := List.append_cancel_left (h.full.symm.trans h'.full)
  obtain rfl : base = base' := h.base.trans h'.base.symm
  obtain rfl : term = term' := h.baseTerm.trans h'.baseTerm.symm
  rfl

end

/-- **Crash consistency.** In a run without harmful crashes, a further crash that is not
harmful either leaves a disk from which the node restarts, with a log in order that is
the one from before the event or a part of the one after it. -/
theorem crash_consistent (h : Run c (SafeStep c) c.initial w) {ev : Event} {e : Effect}
    (he : w.effect c i ev = some e) {k : Nat} (hk : SafeTear (w.nodes i).state e k) :
    ∃ n, c.restart i (e.store (w.nodes i).disk k) = some n ∧ n.state.log.WellFormed ∧
      (n.state.log = (w.nodes i).state.log ∨ n.state.log.PartOf e.state.log) := by
  obtain ⟨a, ha, _⟩ := (refines_initial c).run h
  obtain ⟨hi, a', hok⟩ := ha.effect he
  obtain ⟨a₁, _, hs₁, hdisk, hlog⟩ := hok.torn k hk
  obtain ⟨n, hn, hnode, hnd⟩ := restart_ok hs₁ hdisk
  have hholds := hnode.sound.log
  rw [hnd] at hholds
  refine ⟨n, hn, hholds.wellFormed (hs₁.terms (hs₁.inv.log_log i).1), ?_⟩
  rcases hlog with ⟨hfold, hlog⟩ | ⟨hfold, hlog⟩
  · rw [hfold, hlog] at hholds
    exact .inl (hholds.unique (ha.nodes i hi).sound.log)
  · rw [hfold] at hholds
    exact .inr (hholds.partOf hok.node.sound.log hlog)

/-! ### Node 3 installs a snapshot and crashes in between -/

/-- Node 1 is elected by all, commits an entry with node 2 only, takes a snapshot and sends
it to node 3. -/
def leaveBehind : List Label :=
  [ .event 1 .electionTimeout fun _ => none,
    deliver 2 (.requestVote ⟨1, 1, 0, 0⟩),
    deliver 3 (.requestVote ⟨1, 1, 0, 0⟩),
    deliver 1 (.requestVoteResp ⟨1, true, 2⟩),
    .event 1 (.propose [7]) fun _ => none,
    deliver 2 (.appendEntries ⟨1, 1, 0, 0, [⟨1, 1, [7]⟩], 0⟩),
    deliver 1 (.appendEntriesResp ⟨1, true, 2, 1⟩),
    .event 1 (.takeSnapshot [] none) fun _ => none,
    .event 1 .heartbeatTick fun _ => some ⟨0, true, []⟩ ]

theorem leaveBehind_runs : (three.initial.run three leaveBehind).isSome = true := by decide

def leftBehind : World := (three.initial.run three leaveBehind).get leaveBehind_runs

def installFresh : Event :=
  .message ⟨3, .installSnapshot ⟨1, 1, 1, 1, 0, true, []⟩, [⟨1, 1, [7]⟩]⟩ 0 []

theorem installFresh_happens : (leftBehind.effect three 3 installFresh).isSome = true := by decide

/-- With nothing in its log that could conflict, node 3 restarts from the snapshot alone. -/
theorem crash_consistent_install :
    ∃ n, three.restart 3
        (((leftBehind.effect three 3 installFresh).get installFresh_happens).store
          (leftBehind.nodes 3).disk 1) = some n ∧
      n.state.log.WellFormed ∧
      (n.state.log = (leftBehind.nodes 3).state.log ∨ n.state.log.PartOf
        ((leftBehind.effect three 3 installFresh).get installFresh_happens).state.log) :=
  crash_consistent
    (Run.of_labels (Option.some_get leaveBehind_runs).symm (by decide)).safe
    (Option.some_get installFresh_happens).symm (by decide)

/-- Node 3 leads term 1 and keeps two entries to itself. Node 1 leads term 2, commits an
entry with node 2, takes a snapshot and sends it to node 3. -/
def diverge : List Label :=
  [ .event 3 .electionTimeout fun _ => none,
    deliver 1 (.requestVote ⟨1, 3, 0, 0⟩),
    deliver 3 (.requestVoteResp ⟨1, true, 1⟩),
    .event 3 (.propose [1]) fun _ => none,
    .event 3 (.propose [2]) fun _ => none,
    .event 1 .electionTimeout fun _ => none,
    deliver 2 (.requestVote ⟨2, 1, 0, 0⟩),
    deliver 1 (.requestVoteResp ⟨2, true, 2⟩),
    .event 1 (.propose [7]) fun _ => none,
    deliver 2 (.appendEntries ⟨2, 1, 0, 0, [⟨2, 1, [7]⟩], 0⟩),
    deliver 1 (.appendEntriesResp ⟨2, true, 2, 1⟩),
    .event 1 (.takeSnapshot [] none) fun _ => none,
    .event 1 .heartbeatTick fun _ => some ⟨0, true, []⟩ ]

theorem diverge_runs : (three.initial.run three diverge).isSome = true := by decide

def diverged : World := (three.initial.run three diverge).get diverge_runs

def installOver : Event :=
  .message ⟨3, .installSnapshot ⟨2, 1, 1, 2, 0, true, []⟩, [⟨2, 1, [7]⟩]⟩ 0 []

theorem installOver_happens : (diverged.effect three 3 installOver).isSome = true := by decide

def overwriting : Effect := (diverged.effect three 3 installOver).get installOver_happens

/-- The snapshot and the hard state are durable, the removal of the conflicting entries is
not: the second of node 3's own entries, of term 1, is back above a base of term 2. -/
theorem torn_install_keeps_conflict :
    Run three (AtomicStep three) three.initial diverged ∧
      diverged.effect three 3 installOver = some overwriting ∧
      overwriting.state.log = ⟨[], 1, 2⟩ ∧
      ∃ n, three.restart 3 (overwriting.store (diverged.nodes 3).disk 2) = some n ∧
        n.state.log = ⟨[⟨1, 2, [2]⟩], 1, 2⟩ ∧ ¬ n.state.log.WellFormed ∧
        ¬ (n.state.log = (diverged.nodes 3).state.log ∨
          n.state.log.PartOf overwriting.state.log) := by
  have hsome : (three.restart 3 (overwriting.store (diverged.nodes 3).disk 2)).isSome = true := by
    decide
  obtain ⟨n, hn⟩ := Option.isSome_iff_exists.mp hsome
  have hlog : n.state.log = ⟨[⟨1, 2, [2]⟩], 1, 2⟩ := by
    have : (three.restart 3 (overwriting.store (diverged.nodes 3).disk 2)).map
        (fun n => n.state.log) = some ⟨[⟨1, 2, [2]⟩], 1, 2⟩ := by decide
    rw [hn] at this
    exact Option.some.inj this
  have hafter : overwriting.state.log = ⟨[], 1, 2⟩ := by decide
  refine ⟨.of_labels (Option.some_get diverge_runs).symm (by decide),
    (Option.some_get installOver_happens).symm, hafter, n, hn, hlog, ?_, ?_⟩
  · rw [hlog]
    exact fun h => absurd h.2 (by decide)
  · rw [hlog, hafter]
    rintro (h | ⟨_, _, h⟩)
    · exact absurd h (by decide)
    · exact absurd h (by decide)

end EventStream.Raft
