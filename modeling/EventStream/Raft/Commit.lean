import Mathlib.Order.Bounds.Basic
import EventStream.Consensus.Majority
import EventStream.Raft.Mirror

/-! The commit rule.

`recomputeCommitIndex` looks at one candidate, the index at the quorum's place among the sorted
match indices. That is the highest index a majority holds. If its entry is of an earlier term, so
are all before it; so nothing else has to be looked at, as long as the leader's log reaches the
candidate. -/
namespace EventStream.Raft

namespace RaftState

variable {s s' : RaftState}

/-- The members known to hold the log up to `n`. -/
def holders (s : RaftState) (n : Nat) : Nat :=
  (s.peers.filter fun p => n ≤ (s.matchIndex p).getD 0).length +
    if n ≤ s.log.lastIndex then 1 else 0

/-- A majority holds `n`, and its entry is of the current term. -/
structure Committable (s : RaftState) (n : Nat) : Prop where
  above : s.commitIndex < n
  majority : s.peers.length + 1 < 2 * s.holders n
  term : s.log.termAt n = some s.currentTerm

/-- The terms of the log do not decrease, and none is later than the leader's. -/
structure Termed (s : RaftState) : Prop where
  ascending : ∀ i j t u, i ≤ j → s.log.termAt i = some t → s.log.termAt j = some u → t ≤ u
  le : ∀ i t, s.log.termAt i = some t → t ≤ s.currentTerm

/-- The indices that are compared. -/
def replicated (s : RaftState) : List Nat :=
  s.peers.map (fun p => (s.matchIndex p).getD 0) ++ [s.log.lastIndex]

theorem length_replicated (s : RaftState) : s.replicated.length = s.peers.length + 1 := by
  simp [replicated]

theorem holders_eq (s : RaftState) (n : Nat) :
    s.holders n = (s.replicated.insertionSort (· ≤ ·)).countP (fun x => n ≤ x) := by
  rw [(List.perm_insertionSort (· ≤ ·) s.replicated).countP_eq, replicated, List.countP_append,
    List.countP_map, List.countP_singleton, holders, List.countP_eq_length_filter]
  simp [Function.comp_def]

/-- The candidate is the highest index a majority holds. -/
structure Candidate (s : RaftState) (c : Nat) : Prop where
  mem : c ∈ s.replicated
  held : s.peers.length + 1 < 2 * s.holders c
  highest : ∀ n, s.peers.length + 1 < 2 * s.holders n → n ≤ c

theorem recompute_candidate (s : RaftState) :
    ∃ c, s.Candidate c ∧ s.recomputeCommitIndex =
      if s.commitIndex < c ∧ s.log.termAt c = some s.currentTerm then
        some {s with commitIndex := c}
      else some s := by
  have hlen : (s.replicated.insertionSort (· ≤ ·)).length = s.peers.length + 1 := by
    rw [List.length_insertionSort, length_replicated]
  have hquorum : s.quorum = (s.peers.length + 1) / 2 + 1 := rfl
  have hk : (s.replicated.insertionSort (· ≤ ·)).length - s.quorum <
      (s.replicated.insertionSort (· ≤ ·)).length := by omega
  have hsorted := List.pairwise_insertionSort (· ≤ ·) s.replicated
  refine ⟨_, ⟨(List.mem_insertionSort (· ≤ ·)).mp (List.getElem_mem hk), ?_, fun n hn => ?_⟩, ?_⟩
  · have hcount := Consensus.sorted_countP hsorted hk
    rw [holders_eq]
    omega
  · by_contra hlt
    have hcount := Consensus.sorted_countP_above hsorted hk (Nat.lt_of_not_le hlt)
    rw [holders_eq] at hn
    omega
  · unfold recomputeCommitIndex
    dsimp only
    rw [show s.peers.map (fun p => (s.matchIndex p).getD 0) ++ [s.log.lastIndex] = s.replicated
      from rfl, List.getElem?_eq_getElem hk, Option.bind_eq_bind, Option.bind_some]

/-- The commit index becomes the highest index that a majority holds and that is of the current
term, if there is one above it, and stays as it is otherwise. -/
theorem recompute_commit_exact (hlog : s.log.Counted) (hterms : s.Termed)
    (hmatch : ∀ p ∈ s.peers, (s.matchIndex p).getD 0 ≤ s.log.lastIndex) :
    ∃ c, s.recomputeCommitIndex = some {s with commitIndex := c} ∧
      ((∃ n, s.Committable n) → IsGreatest {n | s.Committable n} c) ∧
      ((¬ ∃ n, s.Committable n) → c = s.commitIndex) := by
  obtain ⟨c, hc, heq⟩ := s.recompute_candidate
  have hlast : c ≤ s.log.lastIndex := by
    rcases List.mem_append.mp hc.mem with hmem | hmem
    · obtain ⟨p, hp, rfl⟩ := List.mem_map.mp hmem
      exact hmatch p hp
    · exact Nat.le_of_eq (List.mem_singleton.mp hmem)
  by_cases hcond : s.commitIndex < c ∧ s.log.termAt c = some s.currentTerm
  · rw [if_pos hcond] at heq
    have hcommit : s.Committable c := ⟨hcond.1, hc.held, hcond.2⟩
    exact ⟨c, heq, fun _ => ⟨hcommit, fun n hn => hc.highest n hn.majority⟩,
      fun hno => absurd ⟨c, hcommit⟩ hno⟩
  · rw [if_neg hcond] at heq
    -- whatever a majority holds lies at or below the candidate, and so is of an earlier term
    have hno : ¬ ∃ n, s.Committable n := by
      rintro ⟨n, hn⟩
      have hle := hc.highest n hn.majority
      have hpos : 0 < n := Nat.zero_lt_of_lt hn.above
      have hbase : s.log.baseIndex ≤ n := by
        by_contra hlt
        exact Log.termAt_below hpos (Nat.lt_of_not_le hlt) hn.term
      obtain ⟨t, ht⟩ := Option.isSome_iff_exists.mp (hlog.termAt_isSome (hbase.trans hle) hlast)
      have hcur : t = s.currentTerm :=
        Nat.le_antisymm (hterms.le c t ht) (hterms.ascending n c _ _ hle hn.term ht)
      exact hcond ⟨Nat.lt_of_lt_of_le hn.above hle, hcur ▸ ht⟩
    exact ⟨s.commitIndex, heq, fun hyes => absurd hyes hno, fun _ => rfl⟩

/-- A leader of three with one entry, whose followers are taken to hold ten. -/
def overMatched : RaftState :=
  { RaftState.new 1 [2, 3] with
    role := .leader
    currentTerm := 1
    log := { entries := [⟨1, 1, []⟩] }
    matchIndex := fun p => if p = 2 ∨ p = 3 then some 10 else none }

/-- The candidate then lies behind the leader's log, and an index that could be committed is
not. -/
theorem recompute_skips_overMatched :
    overMatched.Committable 1 ∧
      (overMatched.recomputeCommitIndex.map RaftState.commitIndex) = some 0 :=
  ⟨⟨by decide, by decide, by decide⟩, by decide⟩

/-- A leader of four that two of its followers have caught up with. -/
def leaderOfFour : RaftState :=
  { RaftState.new 1 [2, 3, 4] with
    role := .leader
    currentTerm := 2
    log := { entries := [⟨1, 1, []⟩, ⟨2, 2, []⟩, ⟨2, 3, []⟩] }
    commitIndex := 1
    matchIndex := fun p => if p = 2 then some 2 else if p = 3 then some 3 else some 0 }

theorem leaderOfFour_counted : leaderOfFour.log.Counted :=
  contiguous_numbered (by decide) (by decide)

theorem leaderOfFour_termed : leaderOfFour.Termed := by
  have hsorted : ∀ i ≤ 3, ∀ j ≤ 3, i ≤ j →
      (leaderOfFour.log.termAt i).getD 0 ≤ (leaderOfFour.log.termAt j).getD 0 := by decide
  have hle : ∀ i ≤ 3, (leaderOfFour.log.termAt i).getD 0 ≤ 2 := by decide
  refine ⟨fun i j t u hij hi hj => ?_, fun i t hi => ?_⟩
  · have := hsorted i (leaderOfFour_counted.termAt_le hi) j (leaderOfFour_counted.termAt_le hj) hij
    rwa [hi, hj] at this
  · have := hle i (leaderOfFour_counted.termAt_le hi)
    rwa [hi] at this

theorem recompute_commit_exact_four :
    ∃ c, leaderOfFour.recomputeCommitIndex = some {leaderOfFour with commitIndex := c} ∧
      ((∃ n, leaderOfFour.Committable n) → IsGreatest {n | leaderOfFour.Committable n} c) ∧
      ((¬ ∃ n, leaderOfFour.Committable n) → c = leaderOfFour.commitIndex) :=
  recompute_commit_exact leaderOfFour_counted leaderOfFour_termed (by decide)

end RaftState

end EventStream.Raft
