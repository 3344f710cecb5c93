import EventStream.Raft.Safety

/-! Histories of the nodes of a cluster: what was in one node's log, against what is in another's,
at the same or at different times.

A history is a node's log with the entries behind its snapshot. Histories agree up to an entry of
one index and one term (`log_matching`), a leader's only grows while its term lasts
(`leader_append_only`), and what a commit index has covered stays in the history of that node
through all that follows, crashes and snapshots included (`committed_stays`). -/
namespace EventStream.Raft
open Consensus (Extends)

variable {c : Cluster} {w w' : World} {a a' : Proto} {i j : NodeId} {k : Nat} {e : LogEntry}

theorem Refines.history (h : Refines c w a) (hi : i ∈ c.members) : (w.nodes i).history = a.log i :=
  (h.nodes i hi).sound.log.full.symm

/-- A run keeps what is settled in every log that has it. -/
theorem Refines.run_keeps (h : Refines c w a) (hw : Run c (SafeStep c) w w') :
    ∃ a', Refines c w' a' ∧ Extends a a' ∧ ∀ i b x, c.Settled a b x → b ≤ a.term i →
      x <+: a.log i → x <+: a'.log i := by
  induction hw with
  | refl => exact ⟨a, h, .refl a, fun _ _ _ _ _ hx => hx⟩
  | tail _ hstep ih =>
    obtain ⟨a₁, h₁, hext, hkeep⟩ := ih
    obtain ⟨l, hl, hw⟩ := hstep
    obtain ⟨n, a₂, h₂, hm⟩ := h₁.moves hl hw
    refine ⟨a₂, h₂, hext.trans (Consensus.steps_sound h₁.sane.inv hm).2.1, fun i b x hs hb hx => ?_⟩
    exact Consensus.settled_keeps h₁.sane.inv hm (hs.mono hext (Nat.le_refl _))
      (hb.trans (hext.term i)) (hkeep i b x hs hb hx)

/-- **Log matching.** Two nodes that hold an entry of one index and one term, at the same or at
different times, hold the same entries up to it. -/
theorem log_matching (h : Run c (SafeStep c) c.initial w) (h' : Run c (SafeStep c) w w')
    (hi : i ∈ c.members) (hj : j ∈ c.members) {f : LogEntry} (he : (w.nodes i).history[k]? = some e)
    (hf : (w'.nodes j).history[k]? = some f) (ht : e.term = f.term) :
    (w.nodes i).history.take (k + 1) = (w'.nodes j).history.take (k + 1) := by
  obtain ⟨a, ha, _⟩ := (refines_initial c).run h
  obtain ⟨a', ha', hext⟩ := ha.run h'
  rw [ha.history hi] at he ⊢
  rw [ha'.history hj] at hf ⊢
  have hlen {l : List LogEntry} {x : LogEntry} (hx : l[k]? = some x) : (l.take k).length = k :=
    List.length_take_of_le (List.getElem?_eq_some_iff.mp hx).1.le
  have hcut {l : List LogEntry} {x : LogEntry} (hx : l[k]? = some x) :
      l.take (k + 1) = l.take k ++ [x] := by
    rw [List.take_add_one, hx, Option.toList_some]
  rw [hcut he, hcut hf]
  apply Consensus.Anchored.matching ((ha.sane.inv.log_log i).1.mono hext)
    (ha'.sane.inv.log_log j).1
  · exact hcut he ▸ List.take_prefix _ _
  · exact hcut hf ▸ List.take_prefix _ _
  · rw [hlen he, hlen hf]
  · exact ht

theorem committedFirst_run : Run pair (SafeStep pair) pair.initial committedFirst :=
  (Run.of_labels (Option.some_get commitFirst_runs).symm (by decide)).safe

theorem tookOver_run : Run pair (SafeStep pair) committedFirst tookOver :=
  (Run.of_labels (Option.some_get takeOver_runs).symm (by decide)).safe

theorem log_matching_pair : (committedFirst.nodes 1).history[0]? = some firstEntry ∧
    (committedFirst.nodes 1).history.take 1 = (tookOver.nodes 2).history.take 1 := by
  have he : (committedFirst.nodes 1).history[0]? = some firstEntry := by decide
  have hf : (tookOver.nodes 2).history[0]? = some firstEntry := by decide
  exact ⟨he, log_matching committedFirst_run tookOver_run (by decide) (by decide) he hf rfl⟩

/-- **Leaders only append.** From one moment a term is led to another, the leader's history
grows at its end. -/
theorem leader_append_only (h : Run c (SafeStep c) c.initial w) (h' : Run c (SafeStep c) w w')
    (hi : i ∈ c.members) (hj : j ∈ c.members) (hr : (w.nodes i).state.role = .leader)
    (hr' : (w'.nodes j).state.role = .leader)
    (ht : (w.nodes i).state.currentTerm = (w'.nodes j).state.currentTerm) :
    i = j ∧ (w.nodes i).history <+: (w'.nodes j).history := by
  obtain ⟨a, ha, _⟩ := (refines_initial c).run h
  obtain ⟨a', ha', hext⟩ := ha.run h'
  have hsound := (ha.nodes i hi).sound
  have hsound' := (ha'.nodes j hj).sound
  obtain ⟨l, hl⟩ := (hsound.leader hr).elected
  obtain ⟨l', hl'⟩ := (hsound'.leader hr').elected
  constructor
  · have hsame := (hext.leader _ _ hl).symm.trans (ht ▸ hl')
    simpa using congrArg (Option.map Prod.fst) hsame
  · rw [ha.history hi, ha'.history hj, hsound.own_log ha.sane hr, hsound'.own_log ha'.sane hr', ht]
    exact hext.lead _

def proposeMore : List Label := [.event 2 (.propose [8]) fun _ => none]

theorem proposeMore_runs : (tookOver.run pair proposeMore).isSome = true := by decide

def proposedMore : World := (tookOver.run pair proposeMore).get proposeMore_runs

theorem leader_append_only_pair : (proposedMore.nodes 2).history.length = 2 ∧
    (tookOver.nodes 2).history <+: (proposedMore.nodes 2).history :=
  ⟨by decide, (leader_append_only (committedFirst_run.trans tookOver_run)
    (Run.of_labels (Option.some_get proposeMore_runs).symm (by decide)).safe (by decide) (by decide)
    (by decide) (by decide) (by decide)).2⟩

/-- **Committed entries stay.** What a node's commit index has covered, the node has at that index
ever after, in its log or behind its snapshot. -/
theorem committed_stays (h : Run c (SafeStep c) c.initial w) (h' : Run c (SafeStep c) w w')
    (hi : i ∈ c.members) (he : (w.nodes i).Covers k e) : (w'.nodes i).history[k - 1]? = some e := by
  obtain ⟨a, ha, _⟩ := (refines_initial c).run h
  obtain ⟨a', ha', _, hkeep⟩ := ha.run_keeps h'
  obtain ⟨hsettled, hget⟩ := (ha.nodes i hi).covers he
  rw [ha'.history hi]
  exact getElem?_of_isPrefix (hkeep i _ _ hsettled (Nat.le_of_eq (ha.nodes i hi).sound.term.symm)
    (List.take_prefix _ _)) hget

theorem committed_stays_pair : (committedFirst.nodes 1).Covers 1 firstEntry ∧
    (tookOver.nodes 1).history[0]? = some firstEntry := by
  have hcov : (committedFirst.nodes 1).Covers 1 firstEntry := by decide
  exact ⟨hcov, committed_stays committedFirst_run tookOver_run (by decide) hcov⟩

end EventStream.Raft
