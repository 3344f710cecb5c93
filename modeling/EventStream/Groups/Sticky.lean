import EventStream.Groups.Assignment

/-! What members keep when the assignment is computed anew.

A member may claim what it had as far as it still exists and the member still subscribes to
it. The first pass gives it as many of its claims as its share allows, in the order in which it
had them (`sticky_getD`); the second pass only adds, and only to members below their share
(`placeOrphans_getD`). So a member loses nothing but what is beyond its share, and gets nothing
back in the second pass that the first took from it. -/
namespace EventStream.Groups

open Std

/-- What of its previous partitions a member may claim. -/
def claimsOf (all : PartitionSet) (m : Member) (parts : List TopicPartition) :
    List TopicPartition :=
  parts.filter fun tp => tp ∈ all ∧ tp.1 ∈ m.topics

theorem getD_insert {current : Assignment} {id owner : String} {v : List TopicPartition} :
    (current.insert owner v).getD id [] = if id = owner then v else current.getD id [] := by
  rw [TreeMap.getD_eq_getD_getElem?, TreeMap.getD_eq_getD_getElem?]
  split
  · rename_i heq
    rw [heq, TreeMap.getElem?_insert_self]
    rfl
  · rename_i hne
    rw [getElem?_insert_of_ne v hne]

/-! ### The first pass -/

section Stick
variable {members : Members} {all : PartitionSet} {share : Nat} {st : Passing} {id owner : String}
  {m : Member}

theorem stick_getD (tp : TopicPartition) (hm : members[owner]? = some m) :
    (st.stick members all share owner tp).current.getD owner [] =
      if tp ∈ all ∧ tp.1 ∈ m.topics ∧ (st.current.getD owner []).length < share then
        st.current.getD owner [] ++ [tp]
      else st.current.getD owner [] := by
  simp only [Passing.stick, hm]
  split
  · rename_i hall
    rw [if_neg fun h => hall h.1]
  split
  · rename_i hsub
    rw [if_neg fun h => hsub h.2.1]
  split
  · rename_i hfull
    rw [if_neg fun h => Nat.not_lt_of_le hfull h.2.2]
  · rename_i hall hsub hroom
    rw [getD_insert, if_pos rfl,
      if_pos ⟨not_not.mp hall, not_not.mp hsub, Nat.lt_of_not_le hroom⟩]

/-- The turn of one partition changes nothing for those who did not have it, or have left. -/
theorem stick_getD_other (tp : TopicPartition) (h : id ≠ owner ∨ members[id]? = none) :
    (st.stick members all share owner tp).current.getD id [] = st.current.getD id [] := by
  unfold Passing.stick
  split
  · rfl
  · rename_i m hm
    have hne : id ≠ owner := by
      rintro rfl
      rcases h with hself | hnone
      · exact hself rfl
      · rw [hm] at hnone
        cases hnone
    dsimp only
    split
    · rfl
    split
    · rfl
    split
    · rfl
    · rw [getD_insert, if_neg hne]

theorem stickAll_getD_other (parts : List TopicPartition) (h : id ≠ owner ∨ members[id]? = none) :
    (parts.foldl (Passing.stick members all share owner) st).current.getD id [] =
      st.current.getD id [] := by
  induction parts generalizing st with
  | nil => rfl
  | cons tp parts ih => rw [List.foldl_cons, ih, stick_getD_other tp h]

/-- A member takes up its claims as long as it is below its share. -/
theorem stickAll_getD (parts : List TopicPartition) (hm : members[owner]? = some m)
    (hlen : (st.current.getD owner []).length ≤ share) :
    (parts.foldl (Passing.stick members all share owner) st).current.getD owner [] =
      (st.current.getD owner [] ++ claimsOf all m parts).take share := by
  induction parts generalizing st with
  | nil =>
    rw [List.foldl_nil, claimsOf, List.filter_nil, List.append_nil, List.take_of_length_le hlen]
  | cons tp parts ih =>
    have hstick : (st.stick members all share owner tp).current.getD owner [] = _ :=
      stick_getD tp hm
    rw [List.foldl_cons, ih ?_, hstick, claimsOf, claimsOf, List.filter_cons]
    · by_cases hclaim : tp ∈ all ∧ tp.1 ∈ m.topics
      · rw [if_pos (decide_eq_true hclaim)]
        split
        · rw [List.append_assoc, List.singleton_append]
        · rename_i hnot
          have hfull : share ≤ (st.current.getD owner []).length :=
            Nat.le_of_not_lt fun hlow => hnot ⟨hclaim.1, hclaim.2, hlow⟩
          rw [List.take_append_of_le_length hfull, List.take_append_of_le_length hfull]
      · rw [if_neg fun h => hclaim ⟨h.1, h.2.1⟩, if_neg (by simpa using hclaim)]
    · rw [hstick]
      split
      · rename_i hroom
        rw [List.length_append, List.length_singleton]
        exact hroom.2.2
      · exact hlen

/-- The first pass leaves those alone who had nothing, or have left. -/
theorem stickEntries_getD_other {entries : List (String × List TopicPartition)}
    (h : (∀ entry ∈ entries, entry.1 ≠ id) ∨ members[id]? = none) :
    (entries.foldl (fun st entry => entry.2.foldl (Passing.stick members all share entry.1) st)
      st).current.getD id [] = st.current.getD id [] := by
  induction entries generalizing st with
  | nil => rfl
  | cons entry entries ih =>
    rw [List.foldl_cons, ih (h.imp_left fun h' e he => h' e (List.mem_cons_of_mem _ he)),
      stickAll_getD_other]
    exact h.imp_left fun h' => (h' entry List.mem_cons_self).symm

/-- After the first pass a member has the first of its claims, as many as its share allows. -/
theorem sticky_getD {previous : Assignment} (hm : members[id]? = some m)
    (hstart : st.current.getD id [] = []) :
    (Passing.sticky members all share previous st).current.getD id [] =
      (claimsOf all m (previous.getD id [])).take share := by
  unfold Passing.sticky
  cases hprevious : previous[id]? with
  | none =>
    rw [stickEntries_getD_other (.inl fun entry he heq => ?_), hstart,
      TreeMap.getD_eq_getD_getElem?, hprevious]
    · exact List.take_nil.symm
    · rw [← heq, TreeMap.mem_toList_iff_getElem?_eq_some.mp he] at hprevious
      cases hprevious
  | some parts =>
    -- The member has one turn, in the middle of those of the others.
    obtain ⟨before, after, hsplit⟩ :=
      List.append_of_mem (TreeMap.mem_toList_iff_getElem?_eq_some.mpr hprevious)
    have hdistinct := TreeMap.distinct_keys_toList (t := previous)
    rw [hsplit] at hdistinct
    obtain ⟨-, hcons, hbefore⟩ := List.pairwise_append.mp hdistinct
    have hafter := (List.pairwise_cons.mp hcons).1
    have hkey : ∀ {a b : String}, ¬ compare a b = .eq → a ≠ b := by
      rintro a b hne rfl
      exact hne ReflCmp.compare_self
    have hother : ∀ {st : Passing}, (before.foldl (fun st entry =>
        entry.2.foldl (Passing.stick members all share entry.1) st) st).current.getD id [] =
          st.current.getD id [] :=
      stickEntries_getD_other (.inl fun entry he =>
        hkey (hbefore entry he (id, parts) List.mem_cons_self))
    rw [hsplit, List.foldl_append, List.foldl_cons,
      stickEntries_getD_other (.inl fun entry he => (hkey (hafter entry he)).symm),
      stickAll_getD parts hm ?_, hother, hstart, TreeMap.getD_eq_getD_getElem?, hprevious]
    · rfl
    · rw [hother, hstart]
      exact Nat.zero_le share

/-- What a member has is in the set of the assigned partitions. -/
def Passing.Recorded (st : Passing) : Prop :=
  ∀ id, ∀ tp ∈ st.current.getD id [], tp ∈ st.assigned

theorem Passing.Recorded.stick (h : st.Recorded) (owner : String) (tp : TopicPartition) :
    (st.stick members all share owner tp).Recorded := by
  unfold Passing.stick
  split
  · exact h
  dsimp only
  split
  · exact h
  split
  · exact h
  split
  · exact h
  intro id x hx
  rw [getD_insert] at hx
  rw [TreeSet.mem_insert, LawfulEqCmp.compare_eq_iff_eq]
  split at hx
  · rcases List.mem_append.mp hx with hx | hx
    · exact .inr (h owner x hx)
    · exact .inl (List.mem_singleton.mp hx).symm
  · exact .inr (h id x hx)

theorem Passing.Recorded.sticky (h : st.Recorded) (previous : Assignment) :
    (Passing.sticky members all share previous st).Recorded :=
  List.foldlRecOn _ _ h fun _ hst _ _ => List.foldlRecOn _ _ hst fun _ hst tp _ => hst.stick _ tp

end Stick

theorem getD_start (members : Members) (id : String) :
    (members.map fun _ _ => ([] : List TopicPartition)).getD id [] = [] := by
  rw [TreeMap.getD_eq_getD_getElem?, TreeMap.getElem?_map]
  cases members[id]? <;> rfl

/-! ### The second pass -/

section Orphans
variable {members : Members} {share : Nat} {current : Assignment} {id : String}

/-- A member gets the orphan or nothing. It gets it only if it subscribes to the topic and is
below its share. -/
theorem placeOrphan_getD (tp : TopicPartition) :
    (placeOrphan members share current tp).getD id [] = current.getD id [] ∨
      (placeOrphan members share current tp).getD id [] = current.getD id [] ++ [tp] ∧
        (∃ m, members[id]? = some m ∧ tp.1 ∈ m.topics) ∧
        (current.getD id []).length < share := by
  unfold placeOrphan
  split
  · rename_i mid hfound
    obtain ⟨m, hm, hsub, hroom⟩ := (leastLoaded_eq_some hfound).resolve_right (nomatch ·)
    by_cases heq : id = mid
    · subst heq
      rw [getD_insert, if_pos rfl]
      exact .inr ⟨rfl, ⟨m, TreeMap.mem_toList_iff_getElem?_eq_some.mp hm, hsub⟩, hroom⟩
    · rw [getD_insert, if_neg heq]
      exact .inl rfl
  · exact .inl rfl

theorem placeOrphans_getD (orphans : List TopicPartition) :
    ∃ extra, (orphans.foldl (placeOrphan members share) current).getD id [] =
        current.getD id [] ++ extra ∧
      (∀ tp ∈ extra, tp ∈ orphans ∧ ∃ m, members[id]? = some m ∧ tp.1 ∈ m.topics) ∧
      (extra ≠ [] → (current.getD id []).length < share) := by
  induction orphans generalizing current with
  | nil => exact ⟨[], (List.append_nil _).symm, fun _ h => absurd h List.not_mem_nil, nofun⟩
  | cons tp orphans ih =>
    obtain ⟨extra, hget, hextra, hroom⟩ : ∃ extra, _ =
        (placeOrphan members share current tp).getD id [] ++ extra ∧ _ := ih
    have hlater : ∀ x ∈ extra, x ∈ tp :: orphans ∧ ∃ m, members[id]? = some m ∧ x.1 ∈ m.topics :=
      fun x hx => (hextra x hx).imp_left (List.mem_cons_of_mem tp)
    rw [List.foldl_cons, hget]
    rcases placeOrphan_getD tp with hsame | ⟨hadd, hsub, hlow⟩
    · rw [hsame] at hroom ⊢
      exact ⟨extra, rfl, hlater, hroom⟩
    · rw [hadd]
      refine ⟨tp :: extra, by rw [List.append_assoc, List.singleton_append], fun x hx => ?_,
        fun _ => hlow⟩
      rcases List.mem_cons.mp hx with rfl | hx
      · exact ⟨List.mem_cons_self, hsub⟩
      · exact hlater x hx

end Orphans

/-! ### The assignment -/

/-- The first pass of `assign`. -/
def keptOf (topics : Topics) (members : Members) (previous : Assignment) : Passing :=
  .sticky members (allPartitions topics members) (targetMax topics members) previous
    ⟨members.map fun _ _ => [], ∅⟩

def orphansOf (topics : Topics) (members : Members) (previous : Assignment) :
    List TopicPartition :=
  (allPartitions topics members).toList.filter (· ∉ (keptOf topics members previous).assigned)

section Assign
variable {topics : Topics} {members : Members} {previous : Assignment} {id : String} {m : Member}

theorem assign_perm : ((assign topics members previous).getD id []).Perm
    (((orphansOf topics members previous).foldl (placeOrphan members (targetMax topics members))
      (keptOf topics members previous).current).getD id []) := by
  rw [assign, TreeMap.getD_eq_getD_getElem?, TreeMap.getElem?_map, TreeMap.getD_eq_getD_getElem?]
  show ((Option.map _ ((List.foldl _ (keptOf topics members previous).current
    (orphansOf topics members previous))[id]?)).getD []).Perm _
  cases (List.foldl _ (keptOf topics members previous).current
      (orphansOf topics members previous))[id]? with
  | none => exact List.Perm.refl _
  | some v => exact List.perm_insertionSort _ v

theorem keptOf_getD (hm : members[id]? = some m) :
    (keptOf topics members previous).current.getD id [] =
      (claimsOf (allPartitions topics members) m (previous.getD id [])).take
        (targetMax topics members) :=
  sticky_getD hm (getD_start members id)

theorem keptOf_recorded : (keptOf topics members previous).Recorded :=
  Passing.Recorded.sticky (fun id tp htp => by
    rw [getD_start] at htp
    exact absurd htp List.not_mem_nil) previous

/-- What a member has in the new assignment: its claims up to its share, and, if these are fewer,
partitions that nobody kept. -/
theorem assign_getD (hm : members[id]? = some m) : ∃ extra,
    ((assign topics members previous).getD id []).Perm
      ((claimsOf (allPartitions topics members) m (previous.getD id [])).take
        (targetMax topics members) ++ extra) ∧
    (∀ tp ∈ extra, tp ∈ allPartitions topics members ∧ tp.1 ∈ m.topics ∧
      ∀ id' m', members[id']? = some m' →
        tp ∉ (claimsOf (allPartitions topics members) m' (previous.getD id' [])).take
          (targetMax topics members)) ∧
    (extra ≠ [] → (claimsOf (allPartitions topics members) m (previous.getD id [])).length <
      targetMax topics members) := by
  obtain ⟨extra, hget, hextra, hroom⟩ : ∃ extra, _ = (keptOf topics members previous).current.getD
      id [] ++ extra ∧ _ := placeOrphans_getD (orphansOf topics members previous)
  rw [keptOf_getD hm] at hget hroom
  refine ⟨extra, assign_perm.trans (.of_eq hget), fun tp htp => ?_, fun hne => ?_⟩
  · obtain ⟨horphan, m', hm', hsub⟩ := hextra tp htp
    obtain rfl : m = m' := Option.some.inj (hm.symm.trans hm')
    obtain ⟨hall, hfree⟩ := List.mem_filter.mp horphan
    refine ⟨TreeSet.mem_toList.mp hall, hsub, fun id' m' hm' hmem => ?_⟩
    rw [← keptOf_getD hm'] at hmem
    exact of_decide_eq_true hfree (keptOf_recorded id' tp hmem)
  · have hlow := hroom hne
    rw [List.length_take] at hlow
    omega

/-- Those who have left get nothing. -/
theorem assign_getD_left (hnone : members[id]? = none) :
    (assign topics members previous).getD id [] = [] := by
  refine List.Perm.eq_nil (assign_perm.trans (.of_eq ?_))
  obtain ⟨extra, hget, hextra, -⟩ : ∃ extra, _ = (keptOf topics members previous).current.getD
      id [] ++ extra ∧ _ := placeOrphans_getD (orphansOf topics members previous)
  rw [hget]
  cases extra with
  | nil =>
    rw [List.append_nil]
    exact (stickEntries_getD_other (.inr hnone)).trans (getD_start members id)
  | cons tp =>
    obtain ⟨-, m, hm, -⟩ := hextra tp List.mem_cons_self
    rw [hnone] at hm
    cases hm

/-- Nothing that a member had comes back to it in the second pass. -/
theorem not_mem_previous {extra : List TopicPartition} {tp : TopicPartition} (htp : tp ∈ extra)
    (hfree : tp ∈ allPartitions topics members ∧ tp.1 ∈ m.topics ∧
      tp ∉ (claimsOf (allPartitions topics members) m (previous.getD id [])).take
        (targetMax topics members)) (hroom : extra ≠ [] → (claimsOf (allPartitions topics members) m
      (previous.getD id [])).length < targetMax topics members) : tp ∉ previous.getD id [] := by
  intro hmem
  obtain ⟨hall, hsub, hnot⟩ := hfree
  rw [List.take_of_length_le (Nat.le_of_lt (hroom (List.ne_nil_of_mem htp)))] at hnot
  exact hnot (List.mem_filter.mpr ⟨hmem, decide_eq_true ⟨hall, hsub⟩⟩)

end Assign

/-- The partitions a member had that still exist and whose topic it still subscribes to. -/
def GroupState.valid (topics : Topics) (s : GroupState) (id : String) (m : Member) :
    List TopicPartition :=
  (s.assignment.getD id []).filter fun tp =>
    (topics tp.1).any (tp.2 < ·) ∧ tp.1 ∈ m.topics

section Recompute
variable {topics : Topics} {s s' : GroupState} {id id' : String} {m : Member}
  {tp : TopicPartition}

theorem valid_eq_claimsOf (hm : s.members[id]? = some m) : s.valid topics id m =
    claimsOf (allPartitions topics s.members) m (s.assignment.getD id []) := by
  refine List.filter_congr fun tp _ => decide_eq_decide.mpr ?_
  rw [mem_allPartitions]
  refine and_congr_left fun hsub => ?_
  rw [Option.any_eq_true]
  simp only [decide_eq_true_eq]
  exact ⟨fun hn => ⟨⟨id, m, hm, hsub⟩, hn⟩, And.right⟩

section
variable (h : s.recomputeAssignment topics = some s')
include h

theorem recompute_assignment :
    (s.members.isEmpty ∧ s'.assignment = ∅) ∨
      s'.assignment = assign topics s.members s.assignment := by
  obtain ⟨generation, -, hs⟩ := Option.bind_eq_some_iff.mp h
  cases hs
  dsimp only
  split
  · rename_i hempty
    exact .inl ⟨hempty, rfl⟩
  · exact .inr rfl

/-- Of what it had, a member has the first of its valid partitions afterwards. -/
theorem recompute_keeps (hm : s.members[id]? = some m) :
    ((s'.assignment.getD id []).filter (· ∈ s.assignment.getD id [])).Perm
      ((s.valid topics id m).take (targetMax topics s.members)) := by
  rcases recompute_assignment h with ⟨hempty, -⟩ | hassign
  · rw [TreeMap.getElem?_of_isEmpty hempty] at hm
    cases hm
  rw [hassign, valid_eq_claimsOf hm]
  obtain ⟨extra, hperm, hextra, hroom⟩ : ∃ extra,
      ((assign topics s.members s.assignment).getD id []).Perm (_ ++ extra) ∧ _ := assign_getD hm
  have hnew : extra.filter (· ∈ s.assignment.getD id []) = [] :=
    List.filter_eq_nil_iff.mpr fun tp htp => by
      obtain ⟨hall, hsub, hfree⟩ := hextra tp htp
      rw [decide_eq_true_eq]
      exact not_mem_previous htp ⟨hall, hsub, hfree id m hm⟩ hroom
  have hold : ∀ tp ∈ (claimsOf (allPartitions topics s.members) m
      (s.assignment.getD id [])).take (targetMax topics s.members),
      decide (tp ∈ s.assignment.getD id []) = true := fun tp htp =>
    decide_eq_true (List.mem_of_mem_filter (List.mem_of_mem_take htp))
  refine (hperm.filter _).trans (.of_eq ?_)
  rw [List.filter_append, hnew, List.append_nil, List.filter_eq_self.mpr hold]

/-- A member gets a partition it did not have only if nobody could keep it. -/
theorem recompute_moves (hold : tp ∈ s.assignment.getD id []) (hnot : tp ∉ s.assignment.getD id' [])
    (hnew : tp ∈ s'.assignment.getD id' []) (hm : s.members[id]? = some m)
    (hsub : tp.1 ∈ m.topics) : tp ∈ (s.valid topics id m).drop (targetMax topics s.members) := by
  rcases recompute_assignment h with ⟨-, hassign⟩ | hassign
  · rw [hassign, TreeMap.getD_emptyc] at hnew
    exact absurd hnew List.not_mem_nil
  rw [hassign] at hnew
  cases hm' : s.members[id']? with
  | none =>
    rw [assign_getD_left hm'] at hnew
    exact absurd hnew List.not_mem_nil
  | some m' =>
    obtain ⟨extra, hperm, hextra, -⟩ : ∃ extra,
        ((assign topics s.members s.assignment).getD id' []).Perm (_ ++ extra) ∧ _ :=
      assign_getD hm'
    rcases List.mem_append.mp (hperm.mem_iff.mp hnew) with hkept | hgot
    · exact absurd (List.mem_of_mem_filter (List.mem_of_mem_take hkept)) hnot
    obtain ⟨hall, -, hfree⟩ := hextra tp hgot
    have hclaim : tp ∈ s.valid topics id m := by
      rw [valid_eq_claimsOf hm]
      exact List.mem_filter.mpr ⟨hold, decide_eq_true ⟨hall, hsub⟩⟩
    have hfree := hfree id m hm
    rw [← valid_eq_claimsOf hm] at hfree
    rw [← List.take_append_drop (targetMax topics s.members) (s.valid topics id m)] at hclaim
    exact (List.mem_append.mp hclaim).resolve_left hfree

end

/-- When the assignment is computed anew, from whatever was assigned before, a member keeps as
many of its valid partitions as its fair share allows, the first ones, and no other of those it
had. Whoever had a partition that another member gets has left, does not subscribe to the topic
any more, or had it beyond its share. -/
theorem recompute_is_sticky (h : s.recomputeAssignment topics = some s') :
    (∀ (id : String) (m : Member), s.members[id]? = some m →
      (∀ tp ∈ (s.valid topics id m).take (targetMax topics s.members),
        tp ∈ s'.assignment.getD id []) ∧
      ((s'.assignment.getD id []).filter (· ∈ s.assignment.getD id [])).length =
        min (s.valid topics id m).length (targetMax topics s.members)) ∧
    ∀ (id id' : String) (tp : TopicPartition), tp ∈ s.assignment.getD id [] →
      tp ∉ s.assignment.getD id' [] → tp ∈ s'.assignment.getD id' [] →
      s.members[id]? = none ∨ ∃ m, s.members[id]? = some m ∧
        (tp.1 ∉ m.topics ∨ tp ∈ (s.valid topics id m).drop (targetMax topics s.members)) := by
  refine ⟨fun id m hm => ?_, fun id id' tp hold hnot hnew => ?_⟩
  · have hkeeps := recompute_keeps h hm
    refine ⟨fun tp htp => List.mem_of_mem_filter (hkeeps.mem_iff.mpr htp), ?_⟩
    rw [hkeeps.length_eq, List.length_take, Nat.min_comm]
  · cases hm : s.members[id]? with
    | none => exact .inl rfl
    | some m =>
      refine .inr ⟨m, rfl, ?_⟩
      by_cases hsub : tp.1 ∈ m.topics
      · exact .inr (recompute_moves h hold hnot hnew hm hsub)
      · exact .inl hsub

end Recompute

def reader (id : String) : Member := ⟨id, ["t"], 0, ['k']⟩

/-- A member had the three partitions of a topic when a second one joined. -/
def joined : GroupState :=
  { members := .ofList [("a", reader "a"), ("b", reader "b")]
    assignment := .ofList [("a", [("t", 0), ("t", 1), ("t", 2)])] }

def threePartitions : Topics := fun topic => if topic = "t" then some 3 else none

theorem recompute_is_sticky_joined : ∃ s', joined.recomputeAssignment threePartitions = some s' ∧
    ((s'.assignment.getD "a" []).filter (· ∈ joined.assignment.getD "a" [])).length = 2 := by
  obtain ⟨s', h⟩ : ∃ s', joined.recomputeAssignment threePartitions = some s' := ⟨_, rfl⟩
  have hm : joined.members["a"]? = some (reader "a") := by decide +kernel
  have htwo : min (joined.valid threePartitions "a" (reader "a")).length
      (targetMax threePartitions joined.members) = 2 := by decide +kernel
  exact ⟨s', h, ((recompute_is_sticky h).1 "a" _ hm).2.trans htwo⟩

end EventStream.Groups
