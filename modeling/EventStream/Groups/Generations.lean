import EventStream.Groups.Assignment

/-! Consumer groups over whole runs.

The assignment of a group is fair in every state, and every change of it comes with a new
generation. So whoever was told an assignment under the generation of the group was told the
one that is in force (`Sound`), and what two members were told under one generation does not
overlap. -/
namespace EventStream.Groups

open Std EventStream.Auth

/-! ### One group -/

/-- The assignment of the group is one of shares, and every partition of a roomy topic has a
reader. -/
structure GroupState.Fair (topics : Topics) (s : GroupState) : Prop where
  shares : Shares s.members (allPartitions topics s.members) (targetMax topics s.members)
    s.assignment
  covered : ∀ tp ∈ allPartitions topics s.members, Roomy topics s.members tp.1 →
    Held s.assignment tp

variable {members members' : Members} {topics : Topics} {s s' : GroupState} {id topic : String}
    {m : Member} {memberTimeout : Nat} {w : World}

theorem Shares.of_isEmpty {all : PartitionSet} {share : Nat} (h : members.isEmpty = true) :
    Shares members all share ∅ := by
  have hnone : ∀ (id : String) (v : List TopicPartition), (∅ : Assignment)[id]? ≠ some v := by
    intro id v hv
    rw [TreeMap.getElem?_emptyc] at hv
    cases hv
  refine ⟨fun id => ⟨fun hid => absurd hid TreeMap.not_mem_emptyc, fun hid => ?_⟩,
    fun id v hv => absurd hv (hnone id v), fun id v hv => absurd hv (hnone id v),
    fun id v _ hv => absurd hv (hnone id v), fun id _ v _ hv => absurd hv (hnone id v)⟩
  exact absurd hid (TreeMap.not_mem_of_isEmpty h)

/-- Computing the assignment anew makes the group fair, under the next generation. -/
theorem GroupState.recomputeAssignment_fair (hnodup : (s.assignment.toList.flatMap Prod.snd).Nodup)
    (h : s.recomputeAssignment topics = some s') :
    s'.Fair topics ∧ s'.generation = s.generation + 1 ∧ s'.members = s.members := by
  obtain ⟨generation, hgen, h⟩ := Option.bind_eq_some_iff.mp h
  cases h
  refine ⟨?_, (addU64_eq_some.mp hgen).1, rfl⟩
  by_cases hempty : s.members.isEmpty
  · refine ⟨?_, fun tp htp => ?_⟩
    · dsimp only
      rw [if_pos hempty]
      exact Shares.of_isEmpty hempty
    · obtain ⟨⟨id, m, hm, -⟩, -⟩ := mem_allPartitions.mp htp
      exact absurd (mem_iff_getElem?.mpr ⟨m, hm⟩) (TreeMap.not_mem_of_isEmpty hempty)
  · obtain ⟨hshares, hcovered⟩ := @assign_spec topics s.members s.assignment hnodup
    refine ⟨?_, ?_⟩
    · dsimp only
      rw [if_neg hempty]
      exact hshares
    · dsimp only
      rw [if_neg hempty]
      exact hcovered

theorem GroupState.Fair.new (topics : Topics) : GroupState.Fair topics {} where
  shares := Shares.of_isEmpty TreeMap.isEmpty_emptyc
  covered tp htp := by
    obtain ⟨⟨id, m, hm, -⟩, -⟩ := mem_allPartitions.mp htp
    rw [TreeMap.getElem?_emptyc] at hm
    cases hm

section
variable (h : SameTopics members members')
include h

theorem SameTopics.mem_iff (id : String) : id ∈ members ↔ id ∈ members' := by
  rw [TreeMap.mem_iff_isSome_getElem?, TreeMap.mem_iff_isSome_getElem?,
    ← Option.isSome_map (f := Member.topics), h id, Option.isSome_map]

theorem SameTopics.subscribers (topic : String) :
    SameTopics (subscribers members topic) (subscribers members' topic) := by
  have hone : ∀ {a b : Members}, SameTopics a b → ∀ (id : String) (ts : List String),
      ((Groups.subscribers a topic)[id]?).map Member.topics = some ts →
      ((Groups.subscribers b topic)[id]?).map Member.topics = some ts := by
    intro a b hab id ts hts
    obtain ⟨m, hm, rfl⟩ := Option.map_eq_some_iff.mp hts
    obtain ⟨hm, htopic⟩ := getElem?_subscribers.mp hm
    obtain ⟨m', hm', htopics⟩ := hab.get hm
    rw [getElem?_subscribers.mpr ⟨hm', htopics ▸ htopic⟩, Option.map_some, htopics]
  exact fun id => Option.ext fun ts => ⟨hone h id ts, hone h.symm id ts⟩

theorem SameTopics.roomy (hroomy : Roomy topics members' topic) : Roomy topics members topic := by
  have hsub := h.subscribers topic
  have hall : (allPartitions topics (Groups.subscribers members topic)).size =
      (allPartitions topics (Groups.subscribers members' topic)).size :=
    (TreeSet.Equiv.of_forall_mem_iff fun _ => ⟨hsub.mem_all, hsub.symm.mem_all⟩).size_eq
  rw [Roomy, hall, h.targetMax, hsub.size]
  exact hroomy

end

/-- Fairness depends on the subscriptions only. -/
theorem GroupState.Fair.sameTopics (h : s.Fair topics) (hsame : SameTopics s.members s'.members)
    (hassignment : s'.assignment = s.assignment) : s'.Fair topics := by
  refine ⟨?_, fun tp htp hroomy => ?_⟩
  · rw [hassignment, ← hsame.targetMax]
    refine ⟨fun id => (h.shares.keys id).trans (hsame.mem_iff id), h.shares.nodup, h.shares.length,
      fun id v m' hv hm' tp htp => ?_, h.shares.exclusive⟩
    obtain ⟨m, hm, htopics⟩ := hsame.symm.get hm'
    obtain ⟨hall, htopic⟩ := h.shares.held id v m hv hm tp htp
    exact ⟨hsame.mem_all hall, htopics ▸ htopic⟩
  · rw [hassignment]
    exact h.covered tp (hsame.symm.mem_all htp) (hsame.roomy hroomy)

/-- What a call may do to its group: begin a new generation, or leave the assignment and the
members as they are. -/
def GroupState.Moves (s s' : GroupState) : Prop :=
  s.generation < s'.generation ∨
    (s'.generation = s.generation ∧ s'.assignment = s.assignment ∧ SameTopics s.members s'.members)

theorem SameTopics.refl (members : Members) : SameTopics members members := fun _ => rfl

/-- Replacing a member by one with the same topics. -/
theorem SameTopics.insert {m' : Member} (hm : members[id]? = some m)
    (htopics : m'.topics = m.topics) : SameTopics members (members.insert id m') := by
  intro i
  by_cases hi : i = id
  · rw [hi, hm, TreeMap.getElem?_insert_self, Option.map_some, Option.map_some, htopics]
  · rw [getElem?_insert_of_ne _ hi]

/-- A member enters; unless that is noted as a change, the subscriptions are as before. -/
theorem GroupState.enter_spec {call : JoinCall} {mid : String} {subscribed : List String}
    {changed : Bool} (h : s.enter call mid subscribed = .ok (s', changed)) :
    s'.generation = s.generation ∧ s'.assignment = s.assignment ∧ mid ∈ s'.members ∧
      (changed = false → SameTopics s.members s'.members) := by
  unfold GroupState.enter at h
  split at h
  · split at h
    · cases h
    · cases h
      exact ⟨rfl, rfl, TreeMap.mem_insert_self, nofun⟩
  · rename_i existing hexisting
    split at h
    · cases h
      refine ⟨rfl, rfl, TreeMap.mem_insert_self, fun hsame => SameTopics.insert hexisting ?_⟩
      exact (not_not.mp (of_decide_eq_false hsame)).symm
    · cases h

/-! ### All groups -/

/-- What was told under the generation of a group is what is in force. -/
def GroupState.Vouches (s : GroupState) (a : Told) : Prop :=
  a.generation ≤ s.generation ∧
    (a.generation = s.generation →
      a.member ∈ s.members ∧ s.assignment.getD a.member [] = a.assignment)

structure World.Sound (topics : Topics) (w : World) : Prop where
  fair : ∀ (group : String) (s : GroupState), w.coordinator.state[group]? = some s → s.Fair topics
  told : ∀ a ∈ w.told, ∃ s, w.coordinator.state[a.group]? = some s ∧ s.Vouches a
  exclusive : ∀ a ∈ w.told, ∀ b ∈ w.told, a.group = b.group → a.generation = b.generation →
    a.member ≠ b.member → ∀ tp ∈ a.assignment, tp ∉ b.assignment

namespace World.Sound
variable {topics : Topics} {w w' : World} {group memberId : String} {s : GroupState}
    {key : ApiKey}

section
variable (h : w.Sound topics)
include h

theorem slot_fair (group : String) : (w.coordinator.state.getD group {}).Fair topics := by
  rw [TreeMap.getD_eq_getD_getElem?]
  cases hs : w.coordinator.state[group]? with
  | none => exact GroupState.Fair.new topics
  | some s => exact h.fair group s hs

/-- A group moves. -/
theorem update (hfair : s'.Fair topics) (hmoves : (w.coordinator.state.getD group {}).Moves s') :
    World.Sound topics { w with coordinator :=
      { w.coordinator with state := w.coordinator.state.insert group s' } } := by
  refine ⟨fun g s hs => ?_, fun a ha => ?_, h.exclusive⟩
  · rcases getElem?_insert_cases hs with ⟨-, rfl⟩ | ⟨-, hs⟩
    · exact hfair
    · exact h.fair g s hs
  · obtain ⟨s, hs, hle, hforce⟩ := h.told a ha
    by_cases hg : a.group = group
    · refine ⟨s', hg ▸ TreeMap.getElem?_insert_self, ?_⟩
      have hslot : w.coordinator.state.getD group {} = s := by
        rw [TreeMap.getD_eq_getD_getElem?, ← hg, hs]
        rfl
      rw [hslot] at hmoves
      rcases hmoves with hlt | ⟨hgen, hassignment, hsame⟩
      · exact ⟨hle.trans hlt.le, fun heq => absurd heq (hle.trans_lt hlt).ne⟩
      · refine ⟨hle.trans_eq hgen.symm, fun heq => ?_⟩
        obtain ⟨hmember, htold⟩ := hforce (heq.trans hgen)
        exact ⟨(hsame.mem_iff _).mp hmember, hassignment ▸ htold⟩
    · exact ⟨s, (getElem?_insert_of_ne _ hg).trans hs, hle, hforce⟩

/-- A member is told what it reads. -/
theorem tell {mid : String} (hs : w.coordinator.state[group]? = some s) (hmid : mid ∈ s.members) :
    World.Sound topics { w with
      told := w.told ++ [⟨group, s.generation, mid, s.assignment.getD mid []⟩] } := by
  -- what another member was told under this generation is in force as well
  have hother : ∀ a ∈ w.told, a.group = group → a.generation = s.generation → a.member ≠ mid →
      ∀ tp ∈ a.assignment, tp ∉ s.assignment.getD mid [] := by
    intro a ha hg hgen hne tp htp htp'
    obtain ⟨s', hs', -, hforce⟩ := h.told a ha
    rw [hg, hs] at hs'
    cases hs'
    obtain ⟨hmember, htold⟩ := hforce hgen
    have hshares := (h.fair group s hs).shares
    obtain ⟨m, hm⟩ := mem_iff_getElem?.mp hmember
    obtain ⟨m', hm'⟩ := mem_iff_getElem?.mp hmid
    exact hne (hshares.exclusive a.member mid _ _ (hshares.bucket hm) (hshares.bucket hm') tp
      (htold ▸ htp) htp')
  refine ⟨h.fair, fun a ha => ?_, fun a ha b hb hg hgen hne tp htp htp' => ?_⟩
  · rcases List.mem_append.mp ha with ha | ha
    · exact h.told a ha
    · rw [List.mem_singleton.mp ha]
      exact ⟨s, hs, Nat.le_refl _, fun _ => ⟨hmid, rfl⟩⟩
  · rcases List.mem_append.mp ha with ha | ha
    · rcases List.mem_append.mp hb with hb | hb
      · exact h.exclusive a ha b hb hg hgen hne tp htp htp'
      · rw [List.mem_singleton.mp hb] at hg hgen hne htp'
        exact hother a ha hg hgen hne tp htp htp'
    · rw [List.mem_singleton.mp ha] at hg hgen hne htp
      rcases List.mem_append.mp hb with hb | hb
      · exact hother b hb hg.symm hgen.symm hne.symm tp htp' htp
      · rw [List.mem_singleton.mp hb] at hne
        exact hne rfl

end

theorem new (topics : Topics) (memberTimeout : Nat) :
    World.Sound topics ⟨.new memberTimeout, []⟩ where
  fair group s hs := by
    rw [GroupCoordinator.new, TreeMap.getElem?_emptyc] at hs
    cases hs
  told a ha := absurd ha List.not_mem_nil
  exclusive a ha := absurd ha List.not_mem_nil

/-- A group whose members change. -/
theorem recompute (h : w.Sound topics)
    (hgen : s.generation = (w.coordinator.state.getD group {}).generation)
    (hassignment : s.assignment = (w.coordinator.state.getD group {}).assignment)
    (hs : s.recomputeAssignment topics = some s') :
    s'.members = s.members ∧ World.Sound topics { w with coordinator :=
      { w.coordinator with state := w.coordinator.state.insert group s' } } := by
  obtain ⟨hfair, hnext, hmembers⟩ := GroupState.recomputeAssignment_fair
    (by rw [hassignment]; exact (h.slot_fair group).shares.flatMap_nodup) hs
  refine ⟨hmembers, h.update hfair (Or.inl ?_)⟩
  rw [hnext, hgen]
  exact Nat.lt_succ_self _

theorem slot_eq (hs : w.coordinator.state[group]? = some s) :
    w.coordinator.state.getD group {} = s := by
  rw [TreeMap.getD_eq_getD_getElem?, hs]
  rfl

section
variable (h : w.Sound topics)
include h

theorem join {call : JoinCall} (hstep : w.step topics (.join call) = some w') :
    w'.Sound topics := by
  obtain ⟨⟨reply, coordinator⟩, hjoin, hstep⟩ := Option.bind_eq_some_iff.mp hstep
  unfold GroupCoordinator.join at hjoin
  split at hjoin
  · cases hjoin
    cases hstep
    exact h
  · rename_i mid subscribed _
    dsimp only at hjoin
    split at hjoin
    · cases hjoin
      cases hstep
      exact h.update (h.slot_fair call.group) (Or.inr ⟨rfl, rfl, SameTopics.refl _⟩)
    · rename_i s changed henter
      obtain ⟨s', hs', hjoin⟩ := Option.map_eq_some_iff.mp hjoin
      cases hjoin
      cases hstep
      obtain ⟨hgen, hassignment, hmid, hsame⟩ := GroupState.enter_spec henter
      have hmoved : mid ∈ s'.members ∧ World.Sound topics { w with coordinator :=
          { w.coordinator with state := w.coordinator.state.insert call.group s' } } := by
        cases changed with
        | true =>
          obtain ⟨hmembers, hsound⟩ := h.recompute hgen hassignment hs'
          exact ⟨hmembers ▸ hmid, hsound⟩
        | false =>
          cases hs'
          exact ⟨hmid, h.update ((h.slot_fair call.group).sameTopics (hsame rfl) hassignment)
            (Or.inr ⟨hgen, hassignment, hsame rfl⟩)⟩
      exact hmoved.2.tell TreeMap.getElem?_insert_self hmoved.1

theorem heartbeat (group : String) (key : ApiKey) (memberId : String) (generation now : Nat) :
    World.Sound topics
      { w with coordinator := (w.coordinator.heartbeat group key memberId generation now).2 } := by
  unfold GroupCoordinator.heartbeat
  split
  · exact h
  · rename_i s hs
    split
    · exact h
    · rename_i m hm
      split
      · have hsame : SameTopics s.members
            (s.members.insert memberId { m with lastHeartbeat := now }) :=
          SameTopics.insert hm rfl
        refine h.update ((h.fair group s hs).sameTopics hsame rfl) ?_
        rw [slot_eq hs]
        exact Or.inr ⟨rfl, rfl, hsame⟩
      · exact h

theorem leave (hstep : w.step topics (.leave group key memberId) = some w') : w'.Sound topics := by
  obtain ⟨⟨reply, coordinator⟩, hleave, hstep'⟩ := Option.bind_eq_some_iff.mp hstep
  cases hstep'
  unfold GroupCoordinator.leave at hleave
  split at hleave
  · cases hleave
    exact h
  · rename_i s hs
    split at hleave
    · cases hleave
      exact h
    · split at hleave
      · obtain ⟨s', hs', hleave⟩ := Option.bind_eq_some_iff.mp hleave
        cases hleave
        refine (h.recompute ?_ ?_ hs').2 <;> rw [slot_eq hs]
      · cases hleave
        exact h

theorem expireStale {now : Nat} (hstep : w.step topics (.expireStale group now) = some w') :
    w'.Sound topics := by
  obtain ⟨coordinator, hexpire, hstep'⟩ := Option.bind_eq_some_iff.mp hstep
  cases hstep'
  unfold GroupCoordinator.expireStale at hexpire
  split at hexpire
  · cases hexpire
    exact h
  · rename_i s hs
    dsimp only at hexpire
    split at hexpire
    · cases hexpire
      exact h
    · obtain ⟨s', hs', hexpire⟩ := Option.bind_eq_some_iff.mp hexpire
      cases hexpire
      refine (h.recompute ?_ ?_ hs').2 <;> rw [slot_eq hs]

theorem assignment (hstep : w.step topics (.assignment group key memberId) = some w') :
    w'.Sound topics := by
  dsimp only [World.step] at hstep
  split at hstep
  · rename_i generation parts hreply
    cases hstep
    unfold GroupCoordinator.assignment at hreply
    split at hreply
    · cases hreply
    · rename_i s hs
      split at hreply
      · cases hreply
      · rename_i m hm
        split at hreply
        · cases hreply
          exact h.tell hs (mem_iff_getElem?.mpr ⟨m, hm⟩)
        · cases hreply
  · cases hstep
    exact h

theorem step {e : Event} {w' : World} (hs : w.step topics e = some w') : w'.Sound topics := by
  cases e with
  | join call => exact h.join hs
  | heartbeat group key memberId generation now =>
    cases hs
    exact h.heartbeat group key memberId generation now
  | leave group key memberId => exact h.leave hs
  | assignment group key memberId => exact h.assignment hs
  | expireStale group now => exact h.expireStale hs

end

end World.Sound

theorem sound_of_reachable (h : Reachable topics memberTimeout w) : w.Sound topics :=
  h.keeps (World.Sound.new topics memberTimeout) fun h _ hs => h.step hs

/-! ### Readers -/

/-- All members subscribe to the same topics. -/
def Alike (members : Members) : Prop :=
  ∀ (id id' : String) (m m' : Member), members[id]? = some m → members[id']? = some m' →
    ∀ topic ∈ m.topics, topic ∈ m'.topics

theorem le_targetMax_mul (topics : Topics) (hm : members[id]? = some m) :
    (allPartitions topics members).size ≤ targetMax topics members * members.size := by
  have hpos : 0 < members.size := by
    rw [← TreeMap.length_toList]
    exact List.length_pos_of_mem (TreeMap.mem_toList_iff_getElem?_eq_some.mpr hm)
  have hdiv := Nat.lt_mul_div_succ ((allPartitions topics members).size + members.size - 1) hpos
  rw [Nat.mul_succ, Nat.mul_comm] at hdiv
  unfold targetMax
  omega

/-- With one subscription for all, the members have room for everything. -/
theorem Alike.roomy (h : Alike members) (hm : members[id]? = some m) (htopic : topic ∈ m.topics) :
    Roomy topics members topic := by
  have hsame : SameTopics members (subscribers members topic) := by
    intro i
    congr 1
    refine Option.ext fun x => ⟨fun hx => ?_, fun hx => (getElem?_subscribers.mp hx).1⟩
    exact getElem?_subscribers.mpr ⟨hx, h id i m x hm hx topic htopic⟩
  have hall : (allPartitions topics members).size =
      (allPartitions topics (subscribers members topic)).size :=
    (TreeSet.Equiv.of_forall_mem_iff fun _ => ⟨hsame.mem_all, hsame.symm.mem_all⟩).size_eq
  rw [Roomy, ← hall, ← hsame.size]
  exact le_targetMax_mul topics hm

/-- **Every partition of a roomy topic has one reader**, and the reader subscribes to it. -/
theorem subscribed_partition_has_reader {topics : Topics} {memberTimeout : Nat} {w : World}
    (h : Reachable topics memberTimeout w) {group : String} {s : GroupState}
    (hs : w.coordinator.state[group]? = some s) {id topic : String} {m : Member}
    (hm : s.members[id]? = some m) (htopic : topic ∈ m.topics)
    (hroomy : Roomy topics s.members topic) {n p : Nat} (hn : topics topic = some n) (hp : p < n) :
    ∃ (reader : String) (v : List TopicPartition) (r : Member),
      s.assignment[reader]? = some v ∧ (topic, p) ∈ v ∧
      s.members[reader]? = some r ∧ topic ∈ r.topics ∧
      ∀ (other : String) (v' : List TopicPartition), s.assignment[other]? = some v' →
        (topic, p) ∈ v' → other = reader := by
  have hfair := (sound_of_reachable h).fair group s hs
  obtain ⟨reader, v, hv, htp⟩ :=
    hfair.covered (topic, p) (mem_allPartitions.mpr ⟨⟨id, m, hm, htopic⟩, n, hn, hp⟩) hroomy
  obtain ⟨r, hr⟩ := mem_iff_getElem?.mp
    ((hfair.shares.keys reader).mp (mem_iff_getElem?.mpr ⟨v, hv⟩))
  exact ⟨reader, v, r, hv, htp, hr, (hfair.shares.held reader v r hv hr _ htp).2,
    fun other v' hv' htp' => hfair.shares.exclusive other reader v' v hv' hv _ htp' htp⟩

/-- **Assignments are exclusive within a generation.** In every state no partition has two readers
and nobody has more than its share or what it does not subscribe to; members that subscribe alike
have all partitions between them; what two members were told under one generation does not
overlap; and a heartbeat is answered `Ok` only while what was told under its generation is in
force. -/
theorem assignments_exclusive {topics : Topics} {memberTimeout : Nat} {w : World}
    (h : Reachable topics memberTimeout w) :
    (∀ (group : String) (s : GroupState), w.coordinator.state[group]? = some s →
      Shares s.members (allPartitions topics s.members) (targetMax topics s.members) s.assignment ∧
      (Alike s.members → ∀ tp ∈ allPartitions topics s.members, Held s.assignment tp)) ∧
    (∀ a ∈ w.told, ∀ b ∈ w.told, a.group = b.group → a.generation = b.generation →
      a.member ≠ b.member → ∀ tp ∈ a.assignment, tp ∉ b.assignment) ∧
    ∀ (group : String) (key : ApiKey) (memberId : String) (generation now answered : Nat),
      (w.coordinator.heartbeat group key memberId generation now).1 = .ok (.ok answered) →
      answered = generation ∧ ∃ s, w.coordinator.state[group]? = some s ∧
        s.generation = generation ∧
        ∀ a ∈ w.told, a.group = group → a.generation = generation →
          s.assignment.getD a.member [] = a.assignment := by
  have hsound := (sound_of_reachable h)
  refine ⟨fun group s hs => ⟨(hsound.fair group s hs).shares, fun halike tp htp => ?_⟩,
    hsound.exclusive, fun group key memberId generation now answered hanswer => ?_⟩
  · obtain ⟨⟨id, m, hm, htopic⟩, -⟩ := mem_allPartitions.mp htp
    exact (hsound.fair group s hs).covered tp htp (halike.roomy hm htopic)
  · obtain ⟨s, hs, hgen, rfl⟩ : ∃ s, w.coordinator.state[group]? = some s ∧
        s.generation = generation ∧ answered = generation := by
      unfold GroupCoordinator.heartbeat at hanswer
      split at hanswer
      · cases hanswer
      · rename_i s hs
        split at hanswer
        · cases hanswer
        · split at hanswer
          · by_cases hgen : generation = s.generation
            · rw [if_neg (not_not.mpr hgen)] at hanswer
              cases hanswer
              exact ⟨s, hs, hgen.symm, hgen.symm⟩
            · rw [if_pos hgen] at hanswer
              cases hanswer
          · cases hanswer
    refine ⟨rfl, s, hs, hgen, fun a ha hgroup hag => ?_⟩
    obtain ⟨s', hs', -, hforce⟩ := hsound.told a ha
    rw [hgroup, hs] at hs'
    cases hs'
    exact (hforce (hag.trans hgen.symm)).2

/-! ### Two members -/

abbrev World.run (topics : Topics) (w : World) (events : List Event) : Option World :=
  events.foldlM (World.step topics) w

/-- A key that may do everything. -/
def rootKey : ApiKey :=
  { keyId := "k".toList, name := "k", acls := [⟨.admin, ['*']⟩], produceBytesPerSec := none
    consumeBytesPerSec := none, createdAtMs := 0, disabled := false }

def joinAs (member : String) (topics : List String) : Event :=
  .join ⟨"g", rootKey, some member, "", topics, .ok (), 0⟩

/-- Three partitions of one topic and one of another. -/
def twoTopics : Topics
  | "t" => some 3
  | "u" => some 1
  | _ => none

/-- What each member of the group reads. -/
def World.readers (w : World) : List (String × List TopicPartition) :=
  ((w.coordinator.state["g"]?).map fun s => s.assignment.toList).getD []

/-- Two members that both subscribe to the topic of three partitions. -/
def alikeRun : List Event := [joinAs "a" ["t"], joinAs "b" ["t"]]

theorem alikeRun_runs : (World.run twoTopics ⟨.new 10, []⟩ alikeRun).isSome = true := by
  decide +kernel

def alikeWorld : World := (World.run twoTopics ⟨.new 10, []⟩ alikeRun).get alikeRun_runs

theorem alikeWorld_reachable : Reachable twoTopics 10 alikeWorld :=
  Runs.refl.steps _ (Option.some_get alikeRun_runs).symm

theorem assignments_exclusive_two :
    alikeWorld.readers = [("a", [("t", 0), ("t", 1)]), ("b", [("t", 2)])] ∧
    ∀ a ∈ alikeWorld.told, ∀ b ∈ alikeWorld.told, a.group = b.group →
      a.generation = b.generation → a.member ≠ b.member → ∀ tp ∈ a.assignment, tp ∉ b.assignment :=
  ⟨by decide +kernel, (assignments_exclusive alikeWorld_reachable).2.1⟩

theorem alikeGroup_exists : (alikeWorld.coordinator.state["g"]?).isSome = true := by
  decide +kernel

def alikeGroup : GroupState := (alikeWorld.coordinator.state["g"]?).get alikeGroup_exists

theorem subscribed_partition_has_reader_two : ∃ (reader : String) (v : List TopicPartition)
    (r : Member), alikeGroup.assignment[reader]? = some v ∧ ("t", 2) ∈ v ∧
      alikeGroup.members[reader]? = some r ∧ "t" ∈ r.topics ∧
      ∀ (other : String) (v' : List TopicPartition), alikeGroup.assignment[other]? = some v' →
        ("t", 2) ∈ v' → other = reader := by
  have hm : alikeGroup.members["a"]? = some ⟨"a", ["t"], 0, ['k']⟩ := by decide +kernel
  exact subscribed_partition_has_reader alikeWorld_reachable
    (Option.some_get alikeGroup_exists).symm hm (by decide) (by decide +kernel) rfl (by decide)

/-- Two members that subscribe to one topic each: the share is two partitions, and the third
partition of the larger topic has no reader. -/
theorem subscribed_partition_unread :
    (World.run twoTopics ⟨.new 10, []⟩ [joinAs "a" ["t"], joinAs "b" ["u"]]).map World.readers =
      some [("a", [("t", 0), ("t", 1)]), ("b", [("u", 0)])] := by
  decide +kernel

end EventStream.Groups
