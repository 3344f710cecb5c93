import Mathlib.Algebra.Order.BigOperators.Group.List
import EventStream.Groups.Coordinator
import EventStream.Maps

/-! What an assignment guarantees.

No partition has two readers and no member has more than its share (`Shares`); both passes keep
this, since the first takes up partitions of an assignment that had it and the second those
that nobody has. A partition is left without a reader only if every member that subscribes to
its topic has its full share (`assign_covers`). -/
namespace EventStream.Groups

open Std

/-! ### The partitions of the subscribed topics -/

variable {topics : Topics} {tp : TopicPartition} {members members' : Members} {current : Assignment}
    {topic id : String} {m : Member} {all : PartitionSet} {share : Nat}

theorem mem_partitionsOf :
    tp ∈ partitionsOf topics topic ↔ tp.1 = topic ∧ ∃ n, topics topic = some n ∧ tp.2 < n := by
  obtain ⟨t, p⟩ := tp
  unfold partitionsOf
  cases topics topic with
  | none => simp
  | some n => simp [and_comm, eq_comm]

theorem mem_allPartitions :
    tp ∈ allPartitions topics members ↔
      (∃ (id : String) (m : Member), members[id]? = some m ∧ tp.1 ∈ m.topics) ∧
        ∃ n, topics tp.1 = some n ∧ tp.2 < n := by
  rw [allPartitions, TreeSet.mem_ofList, List.contains_iff_mem, List.mem_flatMap]
  constructor
  · rintro ⟨⟨id, m⟩, hm, htp⟩
    obtain ⟨t, ht, htp⟩ := List.mem_flatMap.mp htp
    obtain ⟨rfl, hn⟩ := mem_partitionsOf.mp htp
    exact ⟨⟨id, m, TreeMap.mem_toList_iff_getElem?_eq_some.mp hm, ht⟩, hn⟩
  · rintro ⟨⟨id, m, hm, ht⟩, hn⟩
    exact ⟨(id, m), TreeMap.mem_toList_iff_getElem?_eq_some.mpr hm,
      List.mem_flatMap.mpr ⟨tp.1, ht, mem_partitionsOf.mpr ⟨rfl, hn⟩⟩⟩

/-- The members are the same and subscribe to the same topics. -/
def SameTopics (members members' : Members) : Prop :=
  ∀ id : String, (members[id]?).map Member.topics = (members'[id]?).map Member.topics

section
variable (h : SameTopics members members')
include h

namespace SameTopics

theorem symm : SameTopics members' members := fun id => (h id).symm

theorem get (hm : members[id]? = some m) :
    ∃ m', members'[id]? = some m' ∧ m'.topics = m.topics := by
  have hid := h id
  rw [hm] at hid
  exact Option.map_eq_some_iff.mp hid.symm

theorem size : members.size = members'.size := by
  have hequiv : (members.map fun _ m => m.topics).Equiv (members'.map fun _ m => m.topics) :=
    TreeMap.Equiv.of_forall_constGet?_eq fun id => by
      rw [TreeMap.getElem?_map, TreeMap.getElem?_map]
      exact h id
  have hsize := hequiv.size_eq
  rwa [TreeMap.size_map, TreeMap.size_map] at hsize

theorem mem_all (htp : tp ∈ allPartitions topics members) : tp ∈ allPartitions topics members' := by
  obtain ⟨⟨id, m, hm, ht⟩, hn⟩ := mem_allPartitions.mp htp
  obtain ⟨m', hm', htopics⟩ := h.get hm
  exact mem_allPartitions.mpr ⟨⟨id, m', hm', htopics ▸ ht⟩, hn⟩

theorem targetMax (topics : Topics) : targetMax topics members = targetMax topics members' := by
  have hall : (allPartitions topics members).size = (allPartitions topics members').size :=
    (TreeSet.Equiv.of_forall_mem_iff fun _ =>
      ⟨h.mem_all, h.symm.mem_all⟩).size_eq
  rw [Groups.targetMax, Groups.targetMax, hall, h.size]

end SameTopics

end

/-! ### Shares -/

/-- Each member has some of the partitions: ones it subscribes to, at most its share of them, and
none that another member has. -/
structure Shares (members : Members) (all : PartitionSet) (share : Nat) (current : Assignment) :
    Prop where
  keys : ∀ id, id ∈ current ↔ id ∈ members
  nodup : ∀ (id : String) (v : List TopicPartition), current[id]? = some v → v.Nodup
  length : ∀ (id : String) (v : List TopicPartition), current[id]? = some v → v.length ≤ share
  held : ∀ (id : String) (v : List TopicPartition) (m : Member), current[id]? = some v →
    members[id]? = some m → ∀ tp ∈ v, tp ∈ all ∧ tp.1 ∈ m.topics
  exclusive : ∀ (id id' : String) (v v' : List TopicPartition), current[id]? = some v →
    current[id']? = some v' → ∀ tp ∈ v, tp ∈ v' → id = id'

/-- Some member has the partition. -/
def Held (current : Assignment) (tp : TopicPartition) : Prop :=
  ∃ (id : String) (v : List TopicPartition), current[id]? = some v ∧ tp ∈ v

section Give
variable {members : Members} {all : PartitionSet} {share : Nat} {current : Assignment} {id : String}
    {m : Member}

section
variable (h : Shares members all share current)
include h

section
variable (hm : members[id]? = some m)
include hm

theorem Shares.bucket : current[id]? = some (current.getD id []) := by
  obtain ⟨v, hv⟩ := mem_iff_getElem?.mp ((h.keys id).mpr (mem_iff_getElem?.mpr ⟨m, hm⟩))
  rw [TreeMap.getD_eq_getD_getElem?, hv]
  rfl

/-- A member gets a partition that nobody has. -/
theorem Shares.give (hall : tp ∈ all) (hsub : tp.1 ∈ m.topics)
    (hroom : (current.getD id []).length < share) (hfree : ¬Held current tp) :
    Shares members all share (current.insert id (current.getD id [] ++ [tp])) := by
  have hbucket := h.bucket hm
  have hnew : tp ∉ current.getD id [] := fun hmem => hfree ⟨id, _, hbucket, hmem⟩
  -- what is in a bucket afterwards was there before, or is the partition given
  have hmem : ∀ (i : String) (v : List TopicPartition),
      (current.insert id (current.getD id [] ++ [tp]))[i]? = some v → ∀ x ∈ v,
      (i = id ∧ x = tp) ∨ ∃ u, current[i]? = some u ∧ x ∈ u := by
    intro i v hv x hx
    rcases getElem?_insert_cases hv with ⟨rfl, rfl⟩ | ⟨-, hv'⟩
    · rcases List.mem_append.mp hx with hx | hx
      · exact Or.inr ⟨_, hbucket, hx⟩
      · exact Or.inl ⟨rfl, List.mem_singleton.mp hx⟩
    · exact Or.inr ⟨v, hv', hx⟩
  refine ⟨fun i => ?_, fun i v hv => ?_, fun i v hv => ?_, fun i v m' hv hm' x hx => ?_,
    fun i j v u hv hu x hx hx' => ?_⟩
  · rw [TreeMap.mem_insert, h.keys]
    refine ⟨fun hi => hi.elim (fun heq => ?_) (fun hi => hi), Or.inr⟩
    rw [← LawfulEqCmp.eq_of_compare heq]
    exact mem_iff_getElem?.mpr ⟨m, hm⟩
  · rcases getElem?_insert_cases hv with ⟨rfl, rfl⟩ | ⟨-, hv'⟩
    · exact List.nodup_append.mpr ⟨h.nodup _ _ hbucket, List.nodup_singleton tp,
        fun x hx y hy hxy => hnew (List.mem_singleton.mp hy ▸ hxy ▸ hx)⟩
    · exact h.nodup i v hv'
  · rcases getElem?_insert_cases hv with ⟨rfl, rfl⟩ | ⟨-, hv'⟩
    · rw [List.length_append, List.length_singleton]
      exact hroom
    · exact h.length i v hv'
  · rcases hmem i v hv x hx with ⟨rfl, rfl⟩ | ⟨u, hu, hx'⟩
    · rw [hm] at hm'
      cases hm'
      exact ⟨hall, hsub⟩
    · exact h.held i u m' hu hm' x hx'
  · rcases hmem i v hv x hx with ⟨rfl, rfl⟩ | ⟨v', hv', hxv⟩
    · rcases hmem j u hu x hx' with ⟨rfl, -⟩ | ⟨u', hu', hxu⟩
      · rfl
      · exact absurd ⟨j, u', hu', hxu⟩ hfree
    · rcases hmem j u hu x hx' with ⟨rfl, rfl⟩ | ⟨u', hu', hxu⟩
      · exact absurd ⟨i, v', hv', hxv⟩ hfree
      · exact h.exclusive i j v' u' hv' hu' x hxv hxu

/-- Who has a partition afterwards. -/
theorem held_give (tp x : TopicPartition) :
    Held (current.insert id (current.getD id [] ++ [tp])) x ↔ x = tp ∨ Held current x := by
  have hbucket := h.bucket hm
  constructor
  · rintro ⟨i, v, hv, hx⟩
    rcases getElem?_insert_cases hv with ⟨rfl, rfl⟩ | ⟨-, hv'⟩
    · rcases List.mem_append.mp hx with hx | hx
      · exact Or.inr ⟨i, _, hbucket, hx⟩
      · exact Or.inl (List.mem_singleton.mp hx)
    · exact Or.inr ⟨i, v, hv', hx⟩
  · have hself : (current.insert id (current.getD id [] ++ [tp]))[id]? =
        some (current.getD id [] ++ [tp]) := TreeMap.getElem?_insert_self
    rintro (rfl | ⟨i, v, hv, hx⟩)
    · exact ⟨id, _, hself, List.mem_append_right _ List.mem_cons_self⟩
    · by_cases hi : i = id
      · subst hi
        rw [hbucket] at hv
        cases hv
        exact ⟨i, _, hself, List.mem_append_left _ hx⟩
      · exact ⟨i, v, (getElem?_insert_of_ne _ hi).trans hv, hx⟩

end

end

end Give

/-! ### The first pass -/

section Sticky
variable {members : Members} {all : PartitionSet} {share : Nat} {st : Passing}

structure Passing.Sound (members : Members) (all : PartitionSet) (share : Nat) (st : Passing) :
    Prop where
  shares : Shares members all share st.current
  assigned : ∀ tp, tp ∈ st.assigned ↔ Held st.current tp

theorem Passing.Sound.start (members : Members) (all : PartitionSet) (share : Nat) :
    Passing.Sound members all share ⟨members.map fun _ _ => [], ∅⟩ := by
  have hnil : ∀ (id : String) (v : List TopicPartition),
      (members.map fun _ _ => ([] : List TopicPartition))[id]? = some v → v = [] := by
    intro id v hv
    rw [TreeMap.getElem?_map] at hv
    obtain ⟨m, -, rfl⟩ := Option.map_eq_some_iff.mp hv
    rfl
  have hnone : ∀ (id : String) (v : List TopicPartition) (x : TopicPartition),
      (members.map fun _ _ => ([] : List TopicPartition))[id]? = some v → x ∉ v := by
    intro id v x hv
    rw [hnil id v hv]
    exact List.not_mem_nil
  refine ⟨⟨fun id => TreeMap.mem_map, fun id v hv => ?_, fun id v hv => ?_,
    fun id v m hv _ tp htp => absurd htp (hnone id v tp hv),
    fun id _ v _ hv _ tp htp => absurd htp (hnone id v tp hv)⟩, fun tp => ?_⟩
  · rw [hnil id v hv]
    exact List.nodup_nil
  · rw [hnil id v hv]
    exact Nat.zero_le share
  · exact ⟨fun htp => absurd htp TreeSet.not_mem_emptyc,
      fun ⟨id, v, hv, htp⟩ => absurd htp (hnone id v tp hv)⟩

section
variable (h : st.Sound members all share)
include h

theorem Passing.Sound.stick (owner : String) (hfree : tp ∉ st.assigned) :
    (st.stick members all share owner tp).Sound members all share ∧
      ∀ x ∈ (st.stick members all share owner tp).assigned, x = tp ∨ x ∈ st.assigned := by
  have hsame : st.Sound members all share ∧ ∀ x ∈ st.assigned, x = tp ∨ x ∈ st.assigned :=
    ⟨h, fun _ => Or.inr⟩
  unfold Passing.stick
  split
  · exact hsame
  · rename_i m hm
    split
    · exact hsame
    split
    · exact hsame
    dsimp only
    split
    · exact hsame
    rename_i hall hsub hroom
    refine ⟨⟨h.shares.give hm (not_not.mp hall) (not_not.mp hsub) (Nat.lt_of_not_le hroom)
      fun hheld => hfree ((h.assigned tp).mpr hheld), fun x => ?_⟩, fun x hx => ?_⟩
    · rw [held_give h.shares hm, TreeSet.mem_insert, h.assigned, LawfulEqCmp.compare_eq_iff_eq]
      exact or_congr eq_comm Iff.rfl
    · rw [TreeSet.mem_insert, LawfulEqCmp.compare_eq_iff_eq] at hx
      exact hx.imp_left Eq.symm

theorem Passing.Sound.stickAll (owner : String) {parts : List TopicPartition} (hnodup : parts.Nodup)
    (hfree : ∀ tp ∈ parts, tp ∉ st.assigned) :
    (parts.foldl (Passing.stick members all share owner) st).Sound members all share ∧
      ∀ x ∈ (parts.foldl (Passing.stick members all share owner) st).assigned,
        x ∈ parts ∨ x ∈ st.assigned := by
  induction parts generalizing st with
  | nil => exact ⟨h, fun _ => Or.inr⟩
  | cons tp parts ih =>
    obtain ⟨htp, hnodup⟩ := List.nodup_cons.mp hnodup
    obtain ⟨hstick, hassigned⟩ := h.stick owner (hfree tp List.mem_cons_self)
    obtain ⟨hrest, hgot⟩ := ih hstick hnodup fun x hx hx' => by
      rcases hassigned x hx' with rfl | hx'
      · exact htp hx
      · exact hfree x (List.mem_cons_of_mem _ hx) hx'
    refine ⟨hrest, fun x hx => ?_⟩
    rcases hgot x hx with hx | hx
    · exact Or.inl (List.mem_cons_of_mem _ hx)
    · exact (hassigned x hx).imp_left fun (heq : x = tp) => heq ▸ List.mem_cons_self

/-- The first pass over an assignment in which no partition stands twice. -/
theorem Passing.Sound.sticky {previous : Assignment}
    (hnodup : (previous.toList.flatMap Prod.snd).Nodup) (hempty : ∀ tp, tp ∉ st.assigned) :
    (Passing.sticky members all share previous st).Sound members all share := by
  unfold Passing.sticky
  generalize previous.toList = entries at hnodup
  have hfree : ∀ tp ∈ entries.flatMap Prod.snd, tp ∉ st.assigned := fun tp _ => hempty tp
  clear hempty
  induction entries generalizing st with
  | nil => exact h
  | cons entry entries ih =>
    rw [List.flatMap_cons] at hnodup hfree
    obtain ⟨hfirst, hrest, hdisjoint⟩ := List.nodup_append.mp hnodup
    obtain ⟨hstick, hgot⟩ := h.stickAll entry.1 hfirst
      fun tp htp => hfree tp (List.mem_append_left _ htp)
    refine ih hstick hrest fun tp htp htp' => ?_
    rcases hgot tp htp' with hmem | hmem
    · exact hdisjoint tp hmem tp htp rfl
    · exact hfree tp (List.mem_append_right _ htp) hmem

end

end Sticky

/-- Nothing stands twice in an assignment of shares. -/
theorem Shares.flatMap_nodup (h : Shares members all share current) :
    (current.toList.flatMap Prod.snd).Nodup := by
  refine List.nodup_flatMap.mpr ⟨fun entry hentry => ?_, ?_⟩
  · exact h.nodup entry.1 entry.2 (TreeMap.mem_toList_iff_getElem?_eq_some.mp hentry)
  · refine List.Pairwise.imp_of_mem (fun {a b} ha hb hne tp hta htb => hne ?_)
      TreeMap.distinct_keys_toList
    rw [h.exclusive a.1 b.1 a.2 b.2 (TreeMap.mem_toList_iff_getElem?_eq_some.mp ha)
      (TreeMap.mem_toList_iff_getElem?_eq_some.mp hb) tp hta htb]
    exact ReflCmp.compare_self

/-! ### The second pass -/

section Orphans
variable {members : Members} {all : PartitionSet} {share : Nat} {current : Assignment}
    {topic : String} {entries : List (String × Member)} {best : Option (String × Nat)}

/-- The member found subscribes to the topic and is below its share. -/
theorem leastLoaded_eq_some {mid : String}
    (h : leastLoaded share current topic entries best = some mid) :
    (∃ m, (mid, m) ∈ entries ∧ topic ∈ m.topics ∧ (current.getD mid []).length < share) ∨
      best.map Prod.fst = some mid := by
  induction entries generalizing best with
  | nil => exact Or.inr h
  | cons entry entries ih =>
    obtain ⟨id, m⟩ := entry
    have hlater : ∀ best', leastLoaded share current topic entries best' = some mid →
        (∃ m', (mid, m') ∈ (id, m) :: entries ∧ topic ∈ m'.topics ∧
          (current.getD mid []).length < share) ∨ best'.map Prod.fst = some mid :=
      fun best' h' => (ih h').imp_left fun ⟨m', hm', hrest⟩ =>
        ⟨m', List.mem_cons_of_mem _ hm', hrest⟩
    rw [leastLoaded] at h
    split at h
    · exact hlater best h
    · rename_i hsub
      dsimp only at h
      split at h
      · rename_i hload
        rcases hlater _ h with hfound | hbest
        · exact Or.inl hfound
        · obtain rfl : id = mid := Option.some.inj hbest
          exact Or.inl ⟨m, List.mem_cons_self, not_not.mp hsub, hload.1⟩
      · exact hlater best h

/-- If none is found, every member that subscribes to the topic has its share. -/
theorem leastLoaded_eq_none (h : leastLoaded share current topic entries best = none) :
    best = none ∧ ∀ entry ∈ entries, topic ∈ entry.2.topics →
      share ≤ (current.getD entry.1 []).length := by
  induction entries generalizing best with
  | nil => exact ⟨Option.map_eq_none_iff.mp h, fun _ he => absurd he List.not_mem_nil⟩
  | cons entry entries ih =>
    obtain ⟨id, m⟩ := entry
    rw [leastLoaded] at h
    split at h
    · rename_i hsub
      obtain ⟨hbest, hrest⟩ := ih h
      refine ⟨hbest, fun entry he htopic => ?_⟩
      rcases List.mem_cons.mp he with rfl | he
      · exact absurd htopic hsub
      · exact hrest entry he htopic
    · dsimp only at h
      split at h
      · exact nomatch (ih h).1
      · rename_i hload
        obtain ⟨rfl, hrest⟩ := ih h
        refine ⟨rfl, fun entry he htopic => ?_⟩
        rcases List.mem_cons.mp he with rfl | he
        · exact Nat.le_of_not_lt fun hlow => hload ⟨hlow, rfl⟩
        · exact hrest entry he htopic

theorem Shares.placeOrphan (h : Shares members all share current) (hall : tp ∈ all)
    (hfree : ¬Held current tp) :
    Shares members all share (placeOrphan members share current tp) ∧
      (∀ x, Held (placeOrphan members share current tp) x → x = tp ∨ Held current x) ∧
      (∀ x, Held current x → Held (placeOrphan members share current tp) x) ∧
      (Held (placeOrphan members share current tp) tp ∨
        ∀ (id : String) (m : Member), members[id]? = some m → tp.1 ∈ m.topics →
          share ≤ (current.getD id []).length) := by
  unfold Groups.placeOrphan
  split
  · rename_i mid hfound
    obtain ⟨m, hm, hsub, hroom⟩ : ∃ m, (mid, m) ∈ members.toList ∧ tp.1 ∈ m.topics ∧
        (current.getD mid []).length < share :=
      (leastLoaded_eq_some hfound).resolve_right (nomatch ·)
    have hm' := TreeMap.mem_toList_iff_getElem?_eq_some.mp hm
    have hheld := held_give h hm' tp
    exact ⟨h.give hm' hall hsub hroom hfree, fun x => (hheld x).mp, fun x hx => (hheld x).mpr
      (Or.inr hx), Or.inl ((hheld tp).mpr (Or.inl rfl))⟩
  · rename_i hnone
    exact ⟨h, fun _ => Or.inr, fun _ hx => hx, Or.inr fun id m hm hsub =>
      (leastLoaded_eq_none hnone).2 (id, m) (TreeMap.mem_toList_iff_getElem?_eq_some.mpr hm) hsub⟩

end Orphans

/-! ### Room for everyone -/

/-- The members that subscribe to a topic. -/
def subscribers (members : Members) (topic : String) : Members :=
  members.filter fun _ m => topic ∈ m.topics

/-- The members that subscribe to the topic could take, within their shares, all partitions of
all the topics that these members subscribe to. -/
def Roomy (topics : Topics) (members : Members) (topic : String) : Prop :=
  (allPartitions topics (subscribers members topic)).size ≤
    targetMax topics members * (subscribers members topic).size

instance (topics : Topics) (members : Members) (topic : String) :
    Decidable (Roomy topics members topic) := Nat.decLe _ _

theorem getElem?_subscribers :
    (subscribers members topic)[id]? = some m ↔ members[id]? = some m ∧ topic ∈ m.topics := by
  rw [subscribers, TreeMap.getElem?_filter', Option.filter_eq_some_iff, decide_eq_true_eq]

section Room
variable {topics : Topics} {members : Members} {share : Nat} {current : Assignment}

/-- What the subscribers of a topic have, one after the other. -/
def heldBy (current : Assignment) (some : Members) : List TopicPartition :=
  some.toList.flatMap fun entry => current.getD entry.1 []

theorem mem_heldBy (h : Shares members (allPartitions topics members) share current)
    {x : TopicPartition} (hx : x ∈ heldBy current (subscribers members topic)) :
    Held current x ∧ x ∈ allPartitions topics (subscribers members topic) := by
  obtain ⟨⟨id, m⟩, hid, hx⟩ := List.mem_flatMap.mp hx
  have hsub := TreeMap.mem_toList_iff_getElem?_eq_some.mp hid
  have hm := (getElem?_subscribers.mp hsub).1
  have hbucket := h.bucket hm
  obtain ⟨hall, htopic⟩ := h.held id _ m hbucket hm x hx
  exact ⟨⟨id, _, hbucket, hx⟩,
    mem_allPartitions.mpr ⟨⟨id, m, hsub, htopic⟩, (mem_allPartitions.mp hall).2⟩⟩

theorem heldBy_nodup (h : Shares members (allPartitions topics members) share current)
    (topic : String) : (heldBy current (subscribers members topic)).Nodup := by
  have hbucket : ∀ entry ∈ (subscribers members topic).toList,
      current[entry.1]? = some (current.getD entry.1 []) := fun entry he =>
    h.bucket (getElem?_subscribers.mp (TreeMap.mem_toList_iff_getElem?_eq_some.mp he)).1
  refine List.nodup_flatMap.mpr ⟨fun entry he => h.nodup _ _ (hbucket entry he), ?_⟩
  refine List.Pairwise.imp_of_mem (fun {a b} ha hb hne tp hta htb => hne ?_)
    TreeMap.distinct_keys_toList
  rw [h.exclusive a.1 b.1 _ _ (hbucket a ha) (hbucket b hb) tp hta htb]
  exact ReflCmp.compare_self

/-- As long as a partition of a roomy topic is free, a subscriber of the topic is below its
share. -/
theorem Shares.exists_room
    (h : Shares members (allPartitions topics members) (targetMax topics members) current)
    (hall : tp ∈ allPartitions topics members) (hfree : ¬Held current tp)
    (hroomy : Roomy topics members tp.1) : ∃ (id : String) (m : Member), members[id]? = some m ∧
      tp.1 ∈ m.topics ∧ (current.getD id []).length < targetMax topics members := by
  by_contra hfull
  push Not at hfull
  obtain ⟨⟨id, m, hm, hsub⟩, hn⟩ := mem_allPartitions.mp hall
  have htp : tp ∈ allPartitions topics (subscribers members tp.1) :=
    mem_allPartitions.mpr ⟨⟨id, m, getElem?_subscribers.mpr ⟨hm, hsub⟩, hsub⟩, hn⟩
  -- the subscribers have distinct partitions out of those they may be given, and not this one
  have hnodup : (tp :: heldBy current (subscribers members tp.1)).Nodup :=
    List.nodup_cons.mpr ⟨fun hmem => hfree (mem_heldBy h hmem).1, heldBy_nodup h tp.1⟩
  have hsubset : tp :: heldBy current (subscribers members tp.1) ⊆
      (allPartitions topics (subscribers members tp.1)).toList := by
    intro x hx
    refine TreeSet.mem_toList.mpr ?_
    rcases List.mem_cons.mp hx with rfl | hx
    · exact htp
    · exact (mem_heldBy h hx).2
  have hfew := (List.subperm_of_subset hnodup hsubset).length_le
  rw [List.length_cons, TreeSet.length_toList] at hfew
  have hmany : (subscribers members tp.1).size * targetMax topics members ≤
      (heldBy current (subscribers members tp.1)).length := by
    have hloads : ∀ load ∈ (subscribers members tp.1).toList.map
        (fun entry => (current.getD entry.1 []).length), targetMax topics members ≤ load := by
      intro load hload
      obtain ⟨entry, he, rfl⟩ := List.mem_map.mp hload
      obtain ⟨hm', hsub'⟩ :=
        getElem?_subscribers.mp (TreeMap.mem_toList_iff_getElem?_eq_some.mp he)
      exact hfull entry.1 entry.2 hm' hsub'
    have hsum := List.card_nsmul_le_sum _ _ hloads
    rw [List.length_map, TreeMap.length_toList, ← List.length_flatMap] at hsum
    exact hsum
  unfold Roomy at hroomy
  rw [Nat.mul_comm] at hroomy
  omega

theorem Shares.placeOrphans {orphans : List TopicPartition}
    (h : Shares members (allPartitions topics members) (targetMax topics members) current)
    (hnodup : orphans.Nodup) (hall : ∀ tp ∈ orphans, tp ∈ allPartitions topics members)
    (hfree : ∀ tp ∈ orphans, ¬Held current tp) :
    Shares members (allPartitions topics members) (targetMax topics members)
        (orphans.foldl (Groups.placeOrphan members (targetMax topics members)) current) ∧
      (∀ x, Held current x →
        Held (orphans.foldl (Groups.placeOrphan members (targetMax topics members)) current) x) ∧
      ∀ tp ∈ orphans, Roomy topics members tp.1 →
        Held (orphans.foldl (Groups.placeOrphan members (targetMax topics members)) current)
          tp := by
  induction orphans generalizing current with
  | nil => exact ⟨h, fun _ hx => hx, fun _ htp => absurd htp List.not_mem_nil⟩
  | cons tp orphans ih =>
    obtain ⟨htp, hnodup⟩ := List.nodup_cons.mp hnodup
    have hfirst := hfree tp List.mem_cons_self
    have hmem := hall tp List.mem_cons_self
    obtain ⟨hplaced, hold, hkept, hgot⟩ := h.placeOrphan hmem hfirst
    obtain ⟨hshares, hmore, hrest⟩ := ih hplaced hnodup
      (fun x hx => hall x (List.mem_cons_of_mem _ hx)) fun x hx hheld => by
        rcases hold x hheld with rfl | hheld
        · exact htp hx
        · exact hfree x (List.mem_cons_of_mem _ hx) hheld
    refine ⟨hshares, fun x hx => hmore x (hkept x hx), fun x hx hroomy => ?_⟩
    rcases List.mem_cons.mp hx with rfl | hx
    · refine hmore x (hgot.resolve_right fun hfull => ?_)
      obtain ⟨id, m, hm, hsub, hlow⟩ := h.exists_room hmem hfirst hroomy
      exact absurd hlow (Nat.not_lt_of_le (hfull id m hm hsub))
    · exact hrest x hx hroomy

end Room

/-! ### The assignment -/

/-- Sorting what each member has changes nothing about who has what. -/
theorem Shares.sorted (h : Shares members all share current)
    (r : TopicPartition → TopicPartition → Prop) [DecidableRel r] :
    Shares members all share (current.map fun _ v => v.insertionSort r) := by
  have hget : ∀ (id : String) (v : List TopicPartition),
      (current.map fun _ v => v.insertionSort r)[id]? = some v →
      ∃ u, current[id]? = some u ∧ v.Perm u := by
    intro id v hv
    rw [TreeMap.getElem?_map] at hv
    obtain ⟨u, hu, rfl⟩ := Option.map_eq_some_iff.mp hv
    exact ⟨u, hu, List.perm_insertionSort r u⟩
  refine ⟨fun id => TreeMap.mem_map.trans (h.keys id), fun id v hv => ?_, fun id v hv => ?_,
    fun id v m hv hm tp htp => ?_, fun id id' v v' hv hv' tp htp htp' => ?_⟩
  · obtain ⟨u, hu, hperm⟩ := hget id v hv
    exact hperm.nodup_iff.mpr (h.nodup id u hu)
  · obtain ⟨u, hu, hperm⟩ := hget id v hv
    exact hperm.length_eq.trans_le (h.length id u hu)
  · obtain ⟨u, hu, hperm⟩ := hget id v hv
    exact h.held id u m hu hm tp (hperm.mem_iff.mp htp)
  · obtain ⟨u, hu, hperm⟩ := hget id v hv
    obtain ⟨u', hu', hperm'⟩ := hget id' v' hv'
    exact h.exclusive id id' u u' hu hu' tp (hperm.mem_iff.mp htp) (hperm'.mem_iff.mp htp')

theorem Held.sorted (h : Held current tp) (r : TopicPartition → TopicPartition → Prop)
    [DecidableRel r] : Held (current.map fun _ v => v.insertionSort r) tp := by
  obtain ⟨id, v, hv, htp⟩ := h
  refine ⟨id, v.insertionSort r, ?_, (List.mem_insertionSort r).mpr htp⟩
  rw [TreeMap.getElem?_map, hv]
  rfl

/-- Computing the assignment anew gives shares, and a reader to every partition of a roomy topic. -/
theorem assign_spec {topics : Topics} {members : Members} {previous : Assignment}
    (hprevious : (previous.toList.flatMap Prod.snd).Nodup) :
    Shares members (allPartitions topics members) (targetMax topics members)
        (assign topics members previous) ∧
      ∀ tp ∈ allPartitions topics members, Roomy topics members tp.1 →
        Held (assign topics members previous) tp := by
  have hkept := (Passing.Sound.start members (allPartitions topics members)
    (targetMax topics members)).sticky hprevious fun tp => TreeSet.not_mem_emptyc
  set kept := Passing.sticky members (allPartitions topics members) (targetMax topics members)
    previous ⟨members.map fun _ _ => [], ∅⟩
  have hnodup : ((allPartitions topics members).toList.filter (· ∉ kept.assigned)).Nodup := by
    refine List.Nodup.filter _ (TreeSet.distinct_toList.imp fun hne heq => hne ?_)
    rw [heq]
    exact ReflCmp.compare_self
  obtain ⟨hshares, hmore, hrest⟩ := hkept.shares.placeOrphans hnodup
    (fun tp htp => TreeSet.mem_toList.mp (List.mem_filter.mp htp).1)
    fun tp htp hheld => by
      have hfree := (List.mem_filter.mp htp).2
      rw [decide_eq_true_eq] at hfree
      exact hfree ((hkept.assigned tp).mpr hheld)
  refine ⟨hshares.sorted _, fun tp htp hroomy => Held.sorted ?_ _⟩
  by_cases hassigned : tp ∈ kept.assigned
  · exact hmore tp ((hkept.assigned tp).mp hassigned)
  · exact hrest tp (List.mem_filter.mpr ⟨TreeSet.mem_toList.mpr htp, decide_eq_true hassigned⟩)
      hroomy

end EventStream.Groups
