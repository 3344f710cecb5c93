import EventStream.Dataplane.Produce

/-! What the pieces of `produce` give, and what a step of the broker can do. -/
namespace EventStream.Dataplane

open EventStream.Producers

/-! ### Sequences and decisions -/

variable {records : List IncomingRecord} {pid : String} {b : Broker} {id j counter p o : Nat}
    {r : Request} {phase : Phase} {sequences : List Int} {topic : Topic} {ds : List Decision}
    {written : Nat → Option (List Nat)} {s : Int}

theorem checkSequences_ok {idx : Nat} (h : checkSequences idx records = .ok sequences) :
    records.map (·.sequence) = sequences.map some := by
  induction records generalizing idx sequences with
  | nil =>
    cases h
    rfl
  | cons r rs ih =>
    unfold checkSequences at h
    split at h
    · cases h
    · rename_i s hs
      split at h
      · cases h
      · cases hrest : checkSequences (idx + 1) rs with
        | error e =>
          rw [hrest] at h
          cases h
        | ok rest =>
          rw [hrest] at h
          cases h
          rw [List.map_cons, List.map_cons, hs, ih hrest]

/-- The first record is routed, and then the others. -/
theorem routeAll_cons {r : IncomingRecord} {routed : List Nat}
    (h : (topic.routeAll counter (r :: records)).1 = .ok routed) :
    ∃ p counter' rest, topic.route counter r.key r.partition = .ok (p, counter') ∧
      (topic.routeAll counter' records).1 = .ok rest ∧ routed = p :: rest := by
  unfold Topic.routeAll at h
  split at h
  · cases h
  · rename_i p counter' hp
    dsimp only at h
    cases hrest : (topic.routeAll counter' records).1 with
    | error e =>
      rw [hrest] at h
      cases h
    | ok rest =>
      rw [hrest] at h
      cases h
      exact ⟨p, counter', rest, hp, hrest, rfl⟩

theorem routeAll_length {routed : List Nat} (h : (topic.routeAll counter records).1 = .ok routed) :
    routed.length = records.length := by
  induction records generalizing counter routed with
  | nil =>
    cases h
    rfl
  | cons r rs ih =>
    obtain ⟨p, counter', rest, -, hrest, rfl⟩ := routeAll_cons h
    exact congrArg Nat.succ (ih hrest)

section Decisions
variable {pid topic : String} {st : ProducerState} {tentative : Nat → Option Int} {p : Nat}
    {ds : List Decision} {items : List (Nat × Int)} {s : Int}

/-- The first record of a request is accepted, or answered as a duplicate. -/
theorem decideAll_cons {seq : Int} {rest : List (Nat × Int)}
    (h : decideAll pid topic st tentative ((p, seq) :: rest) = .ok ds) :
    (∃ ds', ds = ⟨p, seq, none⟩ :: ds' ∧
      decideAll pid topic st (Function.update tentative p (some seq)) rest = .ok ds' ∧
      (tentative p = some (seq - 1) ∨
        tentative p = none ∧ st.check topic p seq = .accept)) ∨
    ∃ ds' offset, ds = ⟨p, seq, some offset⟩ :: ds' ∧
      decideAll pid topic st tentative rest = .ok ds' ∧ tentative p = none ∧
      st.check topic p seq = .duplicate offset := by
  have hmap : ∀ {x : Except DataError (List Decision)} {d : Decision},
      x.map (d :: ·) = .ok ds → ∃ ds', ds = d :: ds' ∧ x = .ok ds' := by
    intro x d hx
    cases x with
    | error e => cases hx
    | ok ds' =>
      cases hx
      exact ⟨ds', rfl, rfl⟩
  unfold decideAll at h
  dsimp only at h
  split at h
  · rename_i prev hprev
    split at h
    · rename_i hseq
      obtain ⟨ds', rfl, hrest⟩ := hmap h
      refine Or.inl ⟨ds', rfl, hrest, Or.inl ?_⟩
      rw [hprev, hseq, Int.add_sub_cancel]
    · cases h
  · rename_i hnone
    split at h
    · rename_i hacc
      obtain ⟨ds', rfl, hrest⟩ := hmap h
      exact Or.inl ⟨ds', rfl, hrest, Or.inr ⟨hnone, hacc⟩⟩
    · rename_i offset hdup
      obtain ⟨ds', rfl, hrest⟩ := hmap h
      exact Or.inr ⟨ds', offset, rfl, hrest, hnone, hdup⟩
    · cases h
    · cases h

theorem decideAll_items (h : decideAll pid topic st tentative items = .ok ds) :
    ds.map (fun d => (d.partition, d.sequence)) = items := by
  induction items generalizing tentative ds with
  | nil =>
    cases h
    rfl
  | cons item rest ih =>
    rcases decideAll_cons h with ⟨ds', rfl, hrest, -⟩ | ⟨ds', offset, rfl, hrest, -⟩ <;>
      rw [List.map_cons, ih hrest]

theorem decideAll_duplicate (h : decideAll pid topic st tentative items = .ok ds) :
    ∀ d ∈ ds, ∀ offset, d.duplicate = some offset →
      st.check topic d.partition d.sequence = .duplicate offset := by
  induction items generalizing tentative ds with
  | nil =>
    cases h
    exact fun d hd => absurd hd List.not_mem_nil
  | cons item rest ih =>
    intro d hd o ho
    rcases decideAll_cons h with ⟨ds', rfl, hrest, -⟩ | ⟨ds', offset, rfl, hrest, -, hdup⟩
    · rcases List.mem_cons.mp hd with rfl | hd
      · cases ho
      · exact ih hrest d hd o ho
    · rcases List.mem_cons.mp hd with rfl | hd
      · cases ho
        exact hdup
      · exact ih hrest d hd o ho

theorem fresh_cons_self (p : Nat) (seq : Int) (ds : List Decision) :
    fresh (⟨p, seq, none⟩ :: ds) p = seq :: fresh ds p := by
  simp [fresh]

theorem fresh_cons_of_ne {d : Decision} (hne : ¬(d.partition = p ∧ d.duplicate = none))
    (ds : List Decision) : fresh (d :: ds) p = fresh ds p := by
  simp [fresh, hne]

theorem mem_fresh : s ∈ fresh ds p ↔ ⟨p, s, none⟩ ∈ ds := by
  simp only [fresh, List.mem_map, List.mem_filter, decide_eq_true_eq]
  constructor
  · rintro ⟨⟨p', s', dup⟩, ⟨hd, hp, hdup⟩, hs⟩
    cases hp
    cases hdup
    cases hs
    exact hd
  · exact fun hd => ⟨_, ⟨hd, rfl, rfl⟩, rfl⟩

theorem mem_targets (h : s ∈ fresh ds p) : p ∈ targets ds := by
  refine (List.perm_insertionSort _ _).mem_iff.mpr (List.mem_dedup.mpr (List.mem_map.mpr ?_))
  exact ⟨_, List.mem_filter.mpr ⟨mem_fresh.mp h, decide_eq_true rfl⟩, rfl⟩

/-- What a request writes to a partition ascends, from a sequence the window accepts. -/
theorem decideAll_fresh (h : decideAll pid topic st tentative items = .ok ds) (p : Nat) :
    (fresh ds p).Pairwise (· < ·) ∧
      ∀ s ∈ fresh ds p, (∀ prev, tentative p = some prev → prev < s) ∧
        (tentative p = none → ∃ s₀ ∈ fresh ds p, s₀ ≤ s ∧ st.check topic p s₀ = .accept) := by
  induction items generalizing tentative ds with
  | nil =>
    cases h
    exact ⟨List.Pairwise.nil, fun s hs => absurd hs List.not_mem_nil⟩
  | cons item rest ih =>
    obtain ⟨q, seq⟩ := item
    rcases decideAll_cons h with ⟨ds', rfl, hrest, hwhy⟩ | ⟨ds', offset, rfl, hrest, -⟩
    · obtain ⟨hasc, hall⟩ := ih hrest
      by_cases hq : q = p
      · subst hq
        have habove : ∀ s ∈ fresh ds' q, seq < s :=
          fun s hs => (hall s hs).1 seq (Function.update_self ..)
        rw [fresh_cons_self]
        refine ⟨List.Pairwise.cons habove hasc, fun s hs => ?_⟩
        have hle : seq ≤ s := by
          rcases List.mem_cons.mp hs with rfl | hs
          · exact le_refl s
          · exact le_of_lt (habove s hs)
        rcases hwhy with hprev | ⟨hnone, hacc⟩
        · refine ⟨fun prev hp => ?_, fun hn => nomatch hprev.symm.trans hn⟩
          have := Option.some.inj (hprev.symm.trans hp)
          omega
        · exact ⟨fun prev hp => (nomatch hnone.symm.trans hp),
            fun _ => ⟨seq, List.mem_cons_self, hle, hacc⟩⟩
      · rw [fresh_cons_of_ne fun hc => hq hc.1]
        refine ⟨hasc, fun s hs => ?_⟩
        have := hall s hs
        rwa [Function.update_of_ne (Ne.symm hq)] at this
    · rw [fresh_cons_of_ne fun hc => Option.some_ne_none offset hc.2]
      exact ih hrest

end Decisions

theorem mem_entries {offsets : List Nat} (hw : written p = some offsets)
    (h : (s, o) ∈ (fresh ds p).zip offsets) : (p, s, o) ∈ entries ds written := by
  refine List.mem_flatMap.mpr ⟨p, mem_targets (List.of_mem_zip h).1, List.mem_map.mpr ?_⟩
  exact ⟨(s, o), by rwa [hw], rfl⟩

theorem of_mem_entries (h : (p, s, o) ∈ entries ds written) :
    ∃ offsets, written p = some offsets ∧ (s, o) ∈ (fresh ds p).zip offsets := by
  obtain ⟨q, -, hq⟩ := List.mem_flatMap.mp h
  obtain ⟨⟨s', o'⟩, hx, heq⟩ := List.mem_map.mp hq
  clear hq
  cases heq
  revert hx
  cases written p with
  | none => simp
  | some offsets => exact fun hx => ⟨offsets, rfl, hx⟩

/-- Each answer is for its record's partition: with the offset decided, or with the one its
sequence was written at. -/
theorem answers_spec {offsets : Nat → List Nat} {out : List Produced}
    (h : answers offsets ds = some out) :
    List.Forall₂ (fun d a => a.partition = d.partition ∧
      (d.duplicate = none →
        (d.sequence, a.offset) ∈ (fresh ds d.partition).zip (offsets d.partition)) ∧
      ∀ o, d.duplicate = some o → a.offset = o) ds out := by
  induction ds generalizing offsets out with
  | nil =>
    cases h
    exact .nil
  | cons d ds ih =>
    obtain ⟨p, seq, dup⟩ := d
    unfold answers at h
    dsimp only at h
    split at h
    · rename_i o
      obtain ⟨rest, hrest, rfl⟩ := Option.map_eq_some_iff.mp h
      refine .cons ⟨rfl, (fun hc => by cases hc), fun o' ho => Option.some.inj ho⟩
        ((ih hrest).imp fun d a hd => ?_)
      refine ⟨hd.1, fun hnone => ?_, hd.2.2⟩
      rw [fresh_cons_of_ne fun hc => Option.some_ne_none o hc.2]
      exact hd.2.1 hnone
    · rename_i o rest' hoff
      obtain ⟨rest, hrest, rfl⟩ := Option.map_eq_some_iff.mp h
      refine .cons ⟨rfl, fun _ => ?_, fun o' ho => by cases ho⟩ ((ih hrest).imp fun d a hd => ?_)
      · rw [hoff, fresh_cons_self]
        exact List.mem_cons_self
      · refine ⟨hd.1, fun hnone => ?_, hd.2.2⟩
        have hmem := hd.2.1 hnone
        by_cases hp : p = d.partition
        · subst hp
          rw [Function.update_self] at hmem
          rw [hoff, fresh_cons_self]
          exact List.mem_cons_of_mem _ hmem
        · rw [Function.update_of_ne (Ne.symm hp)] at hmem
          rwa [fresh_cons_of_ne fun hc => hp hc.1]
    · cases h

/-- An admitted producer keeps its windows and belongs to the request's key. -/
theorem admitState_ok {now : Int} {slot : Option ProducerState} {owner : String}
    {st : ProducerState} (h : admitState now slot pid owner = .ok st) :
    st.partitions = (slot.getD ⟨owner, now, fun _ => none⟩).partitions ∧ st.owner = owner := by
  unfold admitState at h
  dsimp only at h
  by_cases hclaim : (slot.getD ⟨owner, now, fun _ => none⟩).owner = ""
  · rw [if_pos hclaim] at h
    split at h <;> cases h
    exact ⟨rfl, rfl⟩
  · rw [if_neg hclaim] at h
    split at h
    · cases h
    · rename_i hown
      cases h
      exact ⟨rfl, not_not.mp hown⟩

theorem Broker.store_logs (b : Broker) (r : Request) (p : Nat) (batch : List (Int × Nat))
    (key : String × Nat) (q : Nat) :
    (b.store r p batch).logs key q =
      if key = (r.topic.name, r.topic.generation) ∧ q = p then
        b.logs key q ++ batch.map fun x => ⟨x.2, r.producer, x.1⟩
      else b.logs key q := by
  unfold Broker.store
  dsimp only
  by_cases hkey : key = (r.topic.name, r.topic.generation)
  · subst hkey
    rw [Function.update_self]
    by_cases hq : q = p
    · subst hq
      rw [Function.update_self, if_pos ⟨rfl, rfl⟩]
    · rw [Function.update_of_ne hq, if_neg fun hc => hq hc.2]
  · rw [Function.update_of_ne hkey, if_neg fun hc => hkey hc.1]

theorem Broker.setProducer_self (b : Broker) (pid : String) (st : ProducerState) :
    (b.setProducer pid st).producers pid = some st :=
  Function.update_self ..

theorem Broker.setProducer_of_ne (b : Broker) {pid' : String} (hne : pid' ≠ pid)
    (st : ProducerState) : (b.setProducer pid st).producers pid' = b.producers pid' :=
  Function.update_of_ne hne ..

/-! ### The steps -/

/-- How a request stands when it has come in: it is answered at once, or its records have their
sequences and are routed from this counter on. -/
inductive Arrival (topic : Topic) (counter : Nat) (records : List IncomingRecord) :
    Phase → Prop where
  | answered (result : Except DataError (List Produced)) :
      Arrival topic counter records (.answered result)
  | routed {routed : List Nat} {sequences : List Int} (hne : records ≠ [])
      (hfew : records.length ≤ maxRecordsPerRequest)
      (hseq : checkSequences 0 records = .ok sequences)
      (hroute : (topic.routeAll counter records).1 = .ok routed) :
      Arrival topic counter records (.waiting routed sequences)

theorem Broker.arrive_arrival (b : Broker) (topic : Topic) (records : List IncomingRecord) :
    Arrival topic (b.counters (topic.name, topic.generation)) records
      (b.arrive topic records).1 := by
  unfold Broker.arrive
  dsimp only
  split
  · exact .answered _
  · rename_i hempty
    split
    · exact .answered _
    · rename_i hmax
      split
      · exact .answered _
      · rename_i hseq
        split
        · exact .answered _
        · rename_i hroute
          exact .routed (mt List.isEmpty_iff.mpr hempty) (Nat.le_of_not_lt hmax) hseq
            (congrArg Prod.fst hroute)

theorem Arrival.not_holding {phase : Phase} (h : Arrival topic counter records phase) :
    phase.holding = false := by
  cases h <;> rfl

/-- The copy `flush` is making. -/
def copied : FlushPhase → List Registry
  | .copying _ copy => [copy]
  | _ => []

/-- The registries in memory, in `producers.json`, and in the copy `flush` is making. -/
def Broker.registries (b : Broker) : List Registry :=
  b.registry :: (b.snapshot.toList ++ copied b.flush)

/-- Request `id` is `r`, admitted by no other holder of its producer's lock. -/
structure Broker.Admissible (b : Broker) (id : Nat) (r : Request) (routed : List Nat)
    (sequences : List Int) : Prop where
  at_ : b.requests[id]? = some r
  waits : r.phase = .waiting routed sequences
  free : b.locked r.producer = false

/-- All that a step can do. -/
inductive Broker.Took (b : Broker) : Event → Broker → Prop where
  | created {name : String} {n : Nat} : b.topics name = none →
      b.Took (.createTopic name n)
        { b with
          topics := Function.update b.topics name (some ⟨name, b.created name, n⟩)
          created := Function.update b.created name (b.created name + 1) }
  | deleted {name : String} :
      b.Took (.deleteTopic name) { b with topics := Function.update b.topics name none }
  | restarted {now : Int} :
      b.Took (.restart now)
        { b with
          counters := fun _ => 0
          registry := b.reopened now
          flush := .idle
          requests := [] }
  /-- What is on disk, or about to be, was in memory or on disk before. -/
  | flushed {snapshot : Option Registry} {rotated journal : List JournalEntry}
      {flush : FlushPhase} (hlines : ∀ e ∈ rotated ++ journal, e ∈ b.rotated ++ b.journal)
      (hcopies : ∀ reg ∈ snapshot.toList ++ copied flush, ∀ pid st, reg.slots pid = some st →
        ∃ reg' ∈ b.registries, reg'.slots pid = some st) :
      b.Took .flush { b with snapshot, rotated, journal, flush }
  | denied {name producer owner : String} {records : List IncomingRecord} {topic : Topic}
      {e : DataError} : b.topics name = some topic →
      b.Took (.deny name producer owner records e)
        { b with
          requests := b.requests ++ [⟨topic, producer, owner, records, .answered (.error e)⟩] }
  | arrived {name producer owner : String} {records : List IncomingRecord} {topic : Topic}
      {phase : Phase} (counters : String × Nat → Nat) : b.topics name = some topic →
      Arrival topic (b.counters (topic.name, topic.generation)) records phase →
      b.Took (.arrive name producer owner records)
        { b with
          counters
          requests := b.requests ++ [⟨topic, producer, owner, records, phase⟩] }
  | refused {id : Nat} {r : Request} {routed : List Nat} {sequences : List Int} {e : DataError} :
      b.requests[id]? = some r → r.phase = .waiting routed sequences →
      b.Took (.refuse id e) (b.move id r (.answered (.error e)))
  | turnedAway {id : Nat} {r : Request} {routed : List Nat} {sequences : List Int} {now : Int}
      {e : DataError} : b.Admissible id r routed sequences →
      b.Took (.admission id now) (b.move id r (.answered (.error e)))
  | rejected {id : Nat} {r : Request} {routed : List Nat} {sequences : List Int} {now : Int}
      {st : ProducerState} {e : DataError} : b.Admissible id r routed sequences →
      admitState now (b.producers r.producer) r.producer r.owner = .ok st →
      b.Took (.admission id now) ((b.setProducer r.producer st).move id r (.answered (.error e)))
  | admitted {id : Nat} {r : Request} {routed : List Nat} {sequences : List Int} {now : Int}
      {st : ProducerState} {ds : List Decision} : b.Admissible id r routed sequences →
      admitState now (b.producers r.producer) r.producer r.owner = .ok st →
      decideAll r.producer r.topic.name st (fun _ => none) (routed.zip sequences) = .ok ds →
      b.Took (.admission id now)
        ((b.setProducer r.producer st).move id r (.writing ds fun _ => none))
  | appended {id p : Nat} {r : Request} {offsets : List Nat} {ds : List Decision}
      {written : Nat → Option (List Nat)} : b.requests[id]? = some r →
      r.phase = .writing ds written → written p = none → offsets.length = (fresh ds p).length →
      b.Took (.append id p offsets)
        ((b.store r p ((fresh ds p).zip offsets)).move id r
          (.writing ds (Function.update written p (some offsets))))
  | straggled {id p lost : Nat} {r : Request} {offsets : List Nat} {ds : List Decision}
      {written : Nat → Option (List Nat)} : b.requests[id]? = some r →
      r.phase = .failed ds written lost → offsets.length = (fresh ds p).length →
      b.Took (.append id p offsets)
        ((b.store r p ((fresh ds p).zip offsets)).move id r
          (.failed ds (Function.update written p (some offsets)) lost))
  | failed {id p : Nat} {r : Request} {ds : List Decision} {written : Nat → Option (List Nat)} :
      b.requests[id]? = some r → r.phase = .writing ds written →
      b.Took (.fail id p) (b.move id r (.failed ds written p))
  | recorded {id : Nat} {r : Request} {now : Int} {ds : List Decision}
      {written : Nat → Option (List Nat)} {st : ProducerState} : b.requests[id]? = some r →
      r.phase = .writing ds written → (∀ p ∈ targets ds, written p ≠ none) →
      b.producers r.producer = some st →
      b.Took (.record id now)
        ((b.setProducer r.producer (recordAll now r.topic.name st (entries ds written))).move id r
          (.recorded ds written))
  | journaled {id : Nat} {r : Request} {ds : List Decision} {written : Nat → Option (List Nat)}
      {out : List Produced} : b.requests[id]? = some r → r.phase = .recorded ds written →
      answers (fun p => (written p).getD []) ds = some out →
      b.Took (.journal id)
        ({ b with
            journal := b.journal ++ r.lines ds written }.move id r (.answered (.ok out)))

theorem Broker.flushStep_took {b' : Broker} (h : b.flushStep = some b') : b.Took .flush b' := by
  have hsaved {reg : Registry} (hreg : reg ∈ b.snapshot.toList ++ copied b.flush) :
      reg ∈ b.registries := List.mem_cons_of_mem _ hreg
  unfold flushStep at h
  cases hflush : b.flush with
  | idle =>
    rw [hflush] at h hsaved
    cases h
    refine .flushed (fun e he => ?_) fun reg hreg pid st hst => ⟨reg, hsaved hreg, hst⟩
    rw [List.append_nil] at he
    split at he
    · exact List.mem_append_left _ he
    · exact List.mem_append_right _ he
  | rotated =>
    rw [hflush] at h hsaved
    cases h
    refine .flushed (fun _ he => he) fun reg hreg pid st hst => ?_
    rcases List.mem_append.mp hreg with hreg | hreg
    · exact ⟨reg, hsaved (List.mem_append_left _ hreg), hst⟩
    · rw [List.mem_singleton.mp hreg] at hst
      cases hst
  | copying todo copy =>
    rw [hflush] at h hsaved
    have hcopy : copy ∈ b.registries := hsaved (List.mem_append_right _ List.mem_cons_self)
    cases todo with
    | nil =>
      cases h
      refine .flushed (fun _ he => he) fun reg hreg pid st hst => ⟨reg, ?_, hst⟩
      rwa [List.mem_singleton.mp hreg]
    | cons pid todo =>
      obtain ⟨-, h⟩ := Option.ite_none_left_eq_some.mp h
      cases h
      refine .flushed (fun _ he => he) fun reg hreg pid' st hst => ?_
      rcases List.mem_append.mp hreg with hreg | hreg
      · exact ⟨reg, hsaved (List.mem_append_left _ hreg), hst⟩
      · rw [List.mem_singleton.mp hreg] at hst
        dsimp only at hst
        by_cases hpid : pid' = pid
        · subst hpid
          rw [Function.update_self] at hst
          exact ⟨_, List.mem_cons_self, hst⟩
        · rw [Function.update_of_ne hpid] at hst
          exact ⟨copy, hcopy, hst⟩
  | replaced =>
    rw [hflush] at h hsaved
    cases h
    exact .flushed (fun _ he => List.mem_append_right _ he)
      fun reg hreg pid st hst => ⟨reg, hsaved hreg, hst⟩

theorem Broker.admission_took {b' : Broker} {now : Int} (h : b.step (.admission id now) = some b') :
    b.Took (.admission id now) b' := by
  obtain ⟨r, hr, h⟩ := Option.bind_eq_some_iff.mp h
  dsimp only at h
  split at h
  · rename_i routed sequences hp
    split at h
    · cases h
    · rename_i hfree
      have hadm : b.Admissible id r routed sequences := ⟨hr, hp, Bool.eq_false_iff.mpr hfree⟩
      split at h
      · cases h
        exact .turnedAway hadm
      · rename_i st hst
        split at h
        · cases h
          exact .rejected hadm hst
        · rename_i ds hds
          cases h
          exact .admitted hadm hst hds
  · cases h

theorem Broker.append_took {b' : Broker} {offsets : List Nat}
    (h : b.step (.append id p offsets) = some b') : b.Took (.append id p offsets) b' := by
  obtain ⟨r, hr, h⟩ := Option.bind_eq_some_iff.mp h
  split at h
  · rename_i hp
    obtain ⟨⟨-, hnone, hlen⟩, h⟩ := Option.ite_none_right_eq_some.mp h
    cases h
    exact .appended hr hp hnone hlen
  · rename_i hp
    obtain ⟨⟨-, -, -, hlen⟩, h⟩ := Option.ite_none_right_eq_some.mp h
    cases h
    exact .straggled hr hp hlen
  · cases h

theorem Broker.record_took {b' : Broker} {now : Int} (h : b.step (.record id now) = some b') :
    b.Took (.record id now) b' := by
  obtain ⟨r, hr, h⟩ := Option.bind_eq_some_iff.mp h
  dsimp only at h
  split at h
  · rename_i hp
    obtain ⟨hall, h⟩ := Option.ite_none_right_eq_some.mp h
    obtain ⟨st, hst, h⟩ := Option.bind_eq_some_iff.mp h
    cases h
    exact .recorded hr hp hall hst
  · cases h

theorem Broker.step_took {b' : Broker} {e : Event} (h : b.step e = some b') : b.Took e b' := by
  cases e with
  | createTopic name n =>
    obtain ⟨⟨hfree, -⟩, h⟩ := Option.ite_none_right_eq_some.mp h
    cases h
    exact .created hfree
  | deleteTopic name =>
    obtain ⟨-, h⟩ := Option.ite_none_left_eq_some.mp h
    cases h
    exact .deleted
  | restart now =>
    cases h
    exact .restarted
  | flush => exact flushStep_took h
  | deny name producer owner records e =>
    obtain ⟨topic, htopic, h⟩ := Option.bind_eq_some_iff.mp h
    cases h
    exact .denied htopic
  | arrive name producer owner records =>
    obtain ⟨topic, htopic, h⟩ := Option.bind_eq_some_iff.mp h
    cases h
    exact .arrived _ htopic (b.arrive_arrival topic records)
  | refuse id e =>
    obtain ⟨r, hr, h⟩ := Option.bind_eq_some_iff.mp h
    split at h
    · rename_i hp
      cases h
      exact .refused hr hp
    · cases h
  | admission id now => exact admission_took h
  | append id p offsets => exact append_took h
  | fail id p =>
    obtain ⟨r, hr, h⟩ := Option.bind_eq_some_iff.mp h
    split at h
    · rename_i hp
      obtain ⟨-, h⟩ := Option.ite_none_right_eq_some.mp h
      cases h
      exact .failed hr hp
    · cases h
  | record id now => exact record_took h
  | journal id =>
    obtain ⟨r, hr, h⟩ := Option.bind_eq_some_iff.mp h
    split at h
    · rename_i hp
      obtain ⟨out, hout, h⟩ := Option.bind_eq_some_iff.mp h
      cases h
      exact .journaled hr hp hout
    · cases h

/-- The moved request stands at its place. -/
theorem Broker.getElem?_move_self (hr : b.requests[id]? = some r) :
    (b.move id r phase).requests[id]? = some { r with phase } :=
  List.getElem?_set_self (List.getElem?_eq_some_iff.mp hr).1

theorem Broker.getElem?_move_of_ne (hne : j ≠ id) :
    (b.move id r phase).requests[j]? = b.requests[j]? :=
  List.getElem?_set_ne (Ne.symm hne)

/-- Every request after a move was there before, the moved one apart. -/
theorem Broker.getElem?_move {r' : Request} (h : (b.move id r phase).requests[j]? = some r') :
    (j = id ∧ r' = { r with phase }) ∨ (j ≠ id ∧ b.requests[j]? = some r') :=
  getElem?_set_cases h

theorem Broker.locked_eq_false (h : b.locked pid = false) (hr : b.requests[j]? = some r)
    (hp : r.producer = pid) : r.phase.holding = false := by
  have := List.any_eq_false.mp h r (List.mem_of_getElem? hr)
  simpa [hp] using this

/-! ### The lock of a producer -/

namespace Broker

/-- No two requests hold the lock of a producer. -/
def Alone (b : Broker) : Prop :=
  ∀ (i j : Nat) (ri rj : Request), b.requests[i]? = some ri → b.requests[j]? = some rj →
    ri.producer = rj.producer → ri.phase.holding → rj.phase.holding → i = j

variable {b b' : Broker} {r : Request}

/-- A request of the producer other than the lock holder is not a holder. -/
theorem Alone.others (h : b.Alone) {rj : Request} (hr : b.requests[id]? = some r)
    (hold : r.phase.holding) (hne : j ≠ id) (hj : b.requests[j]? = some rj)
    (hp : rj.producer = r.producer) : rj.phase.holding = false := by
  refine Bool.eq_false_iff.mpr fun hh => hne ?_
  exact h j id rj r hj hr hp hh hold

theorem Alone.move (h : b.Alone) (hreq : b'.requests = (b.move id r phase).requests)
    (hhold : phase.holding → ∀ (j : Nat) (rj : Request), j ≠ id → b.requests[j]? = some rj →
      rj.producer = r.producer → rj.phase.holding = false) : b'.Alone := by
  intro i j ri rj hi hj hp hhi hhj
  rw [hreq] at hi hj
  rcases getElem?_move hi with ⟨rfl, rfl⟩ | ⟨hnei, hi'⟩
  · rcases getElem?_move hj with ⟨rfl, rfl⟩ | ⟨hnej, hj'⟩
    · rfl
    · exact absurd hhj (Bool.eq_false_iff.mp (hhold hhi j rj hnej hj' hp.symm))
  · rcases getElem?_move hj with ⟨rfl, rfl⟩ | ⟨hnej, hj'⟩
    · exact absurd hhi (Bool.eq_false_iff.mp (hhold hhj i ri hnei hi' hp))
    · exact h i j ri rj hi' hj' hp hhi hhj

theorem Alone.arrive (h : b.Alone) (hreq : b'.requests = b.requests ++ [r])
    (hhold : r.phase.holding = false) : b'.Alone := by
  have hheld : ∀ {i : Nat} {ri : Request}, b'.requests[i]? = some ri → ri.phase.holding →
      b.requests[i]? = some ri := by
    intro i ri hi hh
    rw [hreq] at hi
    rcases getElem?_concat_cases hi with ⟨-, rfl⟩ | hi
    · exact absurd hh (Bool.eq_false_iff.mp hhold)
    · exact hi
  exact fun i j ri rj hi hj hp hhi hhj =>
    h i j ri rj (hheld hi hhi) (hheld hj hhj) hp hhi hhj

end Broker

end EventStream.Dataplane
