import EventStream.Topics.Lifecycle

/-! A topic starts empty and keeps its files, as long as it is put in place only when nothing
of an earlier one is left.

What can be left is `raft/<name>`, from a deletion that a crash cut between its two renames, and
a deletion that is still on its way to the second. If neither is there when a topic's directory
is renamed into place, then at every moment both directories belong to one topic, and only a
deletion of that topic touches them. -/
namespace EventStream.Topics

open EventStream.Raft EventStream.Storage

/-- The partition holds no record and its node has no log, no term and no vote. -/
structure Opened.Fresh (o : Opened) : Prop where
  records : o.partition.records = []
  term : o.node.currentTerm = 0
  vote : o.node.votedFor = none
  log : o.node.log = {}

theorem openPartition_fresh {cfg : Config} {o : Opened} (h : openPartition cfg .empty {} = some o) :
    o.Fresh := by
  rw [openPartition, open_empty] at h
  cases h
  exact ⟨rfl, rfl, rfl, rfl⟩

namespace World

/-- Nothing of an earlier topic is left when a topic is put in place. -/
def Clear (w : World) : Event → Prop
  | .place _ => w.raft = none ∧ ∀ d ∈ w.deletes, d.phase = .ended
  | _ => True

instance (w : World) (e : Event) : Decidable (w.Clear e) := by
  cases e <;> unfold Clear <;> infer_instance

abbrev Orderly (cfg : Config) : World → Prop := Runs (step cfg) Clear .empty

/-- The directory in place is that of the topic. -/
def Here (w : World) (g : Nat) : Prop := ∃ t, w.topics = some t ∧ t.generation = g

/-- No deletion is under way. -/
def Quiet (w : World) : Prop := ∀ d ∈ w.deletes, d.phase = .ended

/-- A creation that has put its directory in place. -/
structure Placed (w : World) (id : Nat) (opened : List Opened) : Prop where
  unmapped : w.map = none
  quiet : w.Quiet
  here : w.Here id
  running : w.running id = opened.length
  untouched : ∀ t, w.topics = some t → ∀ p, opened.length ≤ p → t.dirs p = .empty
  unwritten : ∀ p, opened.length ≤ p → w.storeAt p = {}
  fresh : ∀ o ∈ opened, o.Fresh

/-- Where a deletion under way finds the directories of its topic. -/
def Deleting (w : World) (d : Delete) : Prop :=
  w.map = none ∧ (∀ r, w.raft = some r → ∀ g ∈ r.writers, g = d.target) ∧
    match d.phase with
    | .removed => w.Here d.target
    | .stopped => w.Here d.target ∧ w.running d.target = 0
    | .topicsGone => w.topics = none
    | .ended => True

structure Sound (w : World) : Prop where
  mapped : ∀ g, w.map = some g → w.Here g ∧ w.Quiet
  placed : ∀ (id : Nat) (c : Create) (opened : List Opened), w.creates[id]? = some c →
    c.phase = .placed opened → w.Placed id opened
  returned : ∀ (id : Nat) (c : Create) (opened : List Opened), w.creates[id]? = some c →
    c.phase = .returned opened → opened.length = c.partitions ∧ ∀ o ∈ opened, o.Fresh
  deleting : ∀ (j : Nat) (d : Delete), w.deletes[j]? = some d → d.phase ≠ .ended → w.Deleting d
  alone : ∀ (i j : Nat) (d d' : Delete), w.deletes[i]? = some d → w.deletes[j]? = some d' →
    d.phase ≠ .ended → d'.phase ≠ .ended → i = j
  running : ∀ g, 0 < w.running g → w.Here g
  writers : ∀ t r, w.topics = some t → w.raft = some r → ∀ g ∈ r.writers, g = t.generation
  undamaged : w.damaged = []

theorem Sound.empty : Sound .empty where
  mapped _ h := by cases h
  placed _ _ _ h := by cases h
  returned _ _ _ h := by cases h
  deleting _ _ h := by cases h
  alone _ _ _ _ h := by cases h
  running _ h := by cases h
  writers _ _ h := by cases h
  undamaged := rfl

variable {w w' : World} {g id j p : Nat} {opened : List Opened} {c : Create} {cfg : Config}
    {d : Delete} {t : TopicDir}

theorem Here.unique {g' : Nat} (h : w.Here g) (h' : w.Here g') : g = g' := by
  obtain ⟨t, ht, rfl⟩ := h
  obtain ⟨t', ht', rfl⟩ := h'
  rw [Option.some.inj (ht.symm.trans ht')]

theorem Here.topics_ne_none (h : w.Here g) : w.topics ≠ none := by
  obtain ⟨t, ht, -⟩ := h
  rw [ht]
  exact Option.some_ne_none t

/-- Which creation it is does not matter to a world that differs in its creations only. -/
theorem Placed.congr (h : w.Placed id opened) (hmap : w'.map = w.map)
    (htopics : w'.topics = w.topics) (hraft : w'.raft = w.raft) (hrunning : w'.running = w.running)
    (hdeletes : w'.deletes = w.deletes) : w'.Placed id opened where
  unmapped := hmap.trans h.unmapped
  quiet := by
    unfold Quiet
    rw [hdeletes]
    exact h.quiet
  here := by
    unfold Here
    rw [htopics]
    exact h.here
  running := by
    rw [hrunning]
    exact h.running
  untouched := by
    rw [htopics]
    exact h.untouched
  unwritten := by
    unfold storeAt
    rw [hraft]
    exact h.unwritten
  fresh := h.fresh

/-! ### Creating -/

/-- Only the creations change. -/
theorem Sound.setCreates (h : w.Sound) {creates : List Create}
    (hplaced : ∀ (id : Nat) (c : Create) (opened : List Opened), creates[id]? = some c →
      c.phase = .placed opened → w.Placed id opened)
    (hreturned : ∀ (id : Nat) (c : Create) (opened : List Opened), creates[id]? = some c →
      c.phase = .returned opened → opened.length = c.partitions ∧ ∀ o ∈ opened, o.Fresh) :
    ({ w with creates } : World).Sound where
  mapped := h.mapped
  placed id c opened hc hp := (hplaced id c opened hc hp).congr rfl rfl rfl rfl rfl
  returned := hreturned
  deleting := h.deleting
  alone := h.alone
  running := h.running
  writers := h.writers
  undamaged := h.undamaged

theorem Sound.create {w : World} (h : w.Sound) {c : Create}
    (hc : c.phase = .checked ∨ c.phase = .ended) :
    ({ w with creates := w.creates ++ [c] } : World).Sound := by
  have hnew : ∀ opened, c.phase ≠ .placed opened ∧ c.phase ≠ .returned opened := by
    intro opened
    rcases hc with hc | hc <;> rw [hc] <;> exact ⟨nofun, nofun⟩
  refine h.setCreates (fun id c' opened hc' hp => ?_) (fun id c' opened hc' hp => ?_)
  · rcases getElem?_concat_cases hc' with ⟨-, rfl⟩ | hc'
    · exact absurd hp (hnew opened).1
    · exact h.placed id c' opened hc' hp
  · rcases getElem?_concat_cases hc' with ⟨-, rfl⟩ | hc'
    · exact absurd hp (hnew opened).2
    · exact h.returned id c' opened hc' hp

section
variable (h : w.Sound)
include h

/-- A creation goes on to a phase that asks for nothing. -/
theorem Sound.setCreate {phase : CreatePhase} (hphase : phase = .staged ∨ phase = .ended) :
    (w.setCreate id c phase).Sound := by
  have hnew : ∀ opened, phase ≠ .placed opened ∧ phase ≠ .returned opened := by
    intro opened
    rcases hphase with rfl | rfl <;> exact ⟨nofun, nofun⟩
  refine h.setCreates (fun id' c' opened hc' hp => ?_) (fun id' c' opened hc' hp => ?_)
  · rcases getElem?_set_cases hc' with ⟨-, rfl⟩ | ⟨-, hc'⟩
    · exact absurd hp (hnew opened).1
    · exact h.placed id' c' opened hc' hp
  · rcases getElem?_set_cases hc' with ⟨-, rfl⟩ | ⟨-, hc'⟩
    · exact absurd hp (hnew opened).2
    · exact h.returned id' c' opened hc' hp

theorem Sound.place (hnone : w.topics = none) (hraft : w.raft = none) (hquiet : w.Quiet) :
    ({ w.setCreate id c (.placed []) with
      topics := some ⟨id, c.partitions, fun _ => .empty⟩ } : World).Sound := by
  have hunmapped : w.map = none := by
    cases hmap : w.map with
    | none => rfl
    | some g => exact absurd hnone (h.mapped g hmap).1.topics_ne_none
  have hstopped : ∀ g, w.running g = 0 := fun g =>
    Nat.eq_zero_of_not_pos fun hpos => (h.running g hpos).topics_ne_none hnone
  have hno : ∀ (j : Nat) (d : Delete), w.deletes[j]? = some d → d.phase = .ended :=
    fun j d hd => hquiet d (List.mem_of_getElem? hd)
  refine ⟨fun g hg => ?_, fun id' c' opened hc' hp => ?_, fun id' c' opened hc' hp => ?_,
    fun j d hd hne => absurd (hno j d hd) hne, fun i j d d' hd _ hne => absurd (hno i d hd) hne,
    fun g hg => ?_, fun t r _ hr => ?_, h.undamaged⟩
  · exact nomatch hunmapped.symm.trans hg
  · rcases getElem?_set_cases hc' with ⟨rfl, rfl⟩ | ⟨-, hc'⟩
    · cases hp
      refine ⟨hunmapped, hquiet, ⟨_, rfl, rfl⟩, hstopped id', fun t ht p _ => ?_, fun p _ => ?_,
        fun o ho => absurd ho List.not_mem_nil⟩
      · cases ht
        rfl
      · show w.storeAt p = {}
        rw [storeAt, hraft]
        rfl
    · exact absurd hnone (h.placed id' c' opened hc' hp).here.topics_ne_none
  · rcases getElem?_set_cases hc' with ⟨rfl, rfl⟩ | ⟨-, hc'⟩
    · cases hp
    · exact h.returned id' c' opened hc' hp
  · exact absurd (hstopped g) (Nat.pos_iff_ne_zero.mp hg)
  · exact nomatch hraft.symm.trans hr

theorem Sound.openNext {o : Opened} (hc : w.creates[id]? = some c) (hp : c.phase = .placed opened)
    (ht : w.topics = some t)
    (ho : openPartition cfg (t.dirs opened.length) (w.storeAt opened.length) = some o) :
    ({ w.setCreate id c (.placed (opened ++ [o])) with
      running := Function.update w.running id (opened.length + 1) } : World).Sound := by
  have hplaced := h.placed id c opened hc hp
  have hfresh : o.Fresh := by
    rw [hplaced.untouched t ht _ (le_refl _), hplaced.unwritten _ (le_refl _)] at ho
    exact openPartition_fresh ho
  have hlen : ∀ p, (opened ++ [o]).length ≤ p → opened.length ≤ p := by
    intro p hle
    rw [List.length_append] at hle
    exact le_trans (Nat.le_add_right ..) hle
  have hno : ∀ (j : Nat) (d : Delete), w.deletes[j]? = some d → d.phase = .ended :=
    fun j d hd => hplaced.quiet d (List.mem_of_getElem? hd)
  refine ⟨h.mapped, fun id' c' opened' hc' hp' => ?_, fun id' c' opened' hc' hp' => ?_,
    fun j d hd hne => absurd (hno j d hd) hne, h.alone, fun g hg => ?_, h.writers, h.undamaged⟩
  · rcases getElem?_set_cases hc' with ⟨rfl, rfl⟩ | ⟨hne, hc'⟩
    · cases hp'
      refine ⟨hplaced.unmapped, hplaced.quiet, hplaced.here, ?_,
        fun t ht p hle => hplaced.untouched t ht p (hlen p hle),
        fun p hle => hplaced.unwritten p (hlen p hle), fun x hx => ?_⟩
      · rw [List.length_append]
        exact Function.update_self ..
      · rcases List.mem_append.mp hx with hx | hx
        · exact hplaced.fresh x hx
        · rw [List.mem_singleton.mp hx]
          exact hfresh
    · exact absurd ((h.placed id' c' opened' hc' hp').here.unique hplaced.here) hne
  · rcases getElem?_set_cases hc' with ⟨rfl, rfl⟩ | ⟨-, hc'⟩
    · cases hp'
    · exact h.returned id' c' opened' hc' hp'
  · by_cases hg' : g = id
    · rw [hg']
      exact hplaced.here
    · exact h.running g (hg.trans_eq (Function.update_of_ne hg' ..))

theorem Sound.insert (hc : w.creates[id]? = some c) (hp : c.phase = .placed opened)
    (hlen : opened.length = c.partitions) :
    ({ w.setCreate id c (.returned opened) with map := some id } : World).Sound := by
  have hplaced := h.placed id c opened hc hp
  have hno : ∀ (j : Nat) (d : Delete), w.deletes[j]? = some d → d.phase = .ended :=
    fun j d hd => hplaced.quiet d (List.mem_of_getElem? hd)
  refine ⟨fun g hg => ?_, fun id' c' opened' hc' hp' => ?_, fun id' c' opened' hc' hp' => ?_,
    fun j d hd hne => absurd (hno j d hd) hne, h.alone, h.running, h.writers, h.undamaged⟩
  · cases hg
    exact ⟨hplaced.here, hplaced.quiet⟩
  · rcases getElem?_set_cases hc' with ⟨rfl, rfl⟩ | ⟨hne, hc'⟩
    · cases hp'
    · exact absurd ((h.placed id' c' opened' hc' hp').here.unique hplaced.here) hne
  · rcases getElem?_set_cases hc' with ⟨rfl, rfl⟩ | ⟨-, hc'⟩
    · cases hp'
      exact ⟨hlen, hplaced.fresh⟩
    · exact h.returned id' c' opened' hc' hp'

end

/-! ### The topic at work -/

theorem Sound.persist (h : w.Sound) (hrun : p < w.running g) (store : StoreFiles) :
    ({ w with raft := some ⟨g :: (w.raft.getD ⟨[], fun _ => {}⟩).writers,
      Function.update (w.raft.getD ⟨[], fun _ => {}⟩).stores p store⟩ } : World).Sound := by
  have hhere := h.running g (Nat.zero_lt_of_lt hrun)
  have hold : ∀ x ∈ (w.raft.getD ⟨[], fun _ => {}⟩).writers, x = g := by
    intro x hx
    obtain ⟨t, ht, rfl⟩ := hhere
    cases hraft : w.raft with
    | none =>
      rw [hraft] at hx
      exact absurd hx List.not_mem_nil
    | some r =>
      rw [hraft] at hx
      exact h.writers t r ht hraft x hx
  have hall : ∀ x ∈ g :: (w.raft.getD ⟨[], fun _ => {}⟩).writers, x = g :=
    fun x hx => (List.mem_cons.mp hx).elim id (hold x)
  refine ⟨h.mapped, fun id c opened hc hp => ?_, h.returned, fun j d hd hne => ?_, h.alone,
    h.running, fun t r ht hr x hx => ?_, h.undamaged⟩
  · have hplaced := h.placed id c opened hc hp
    obtain rfl := hplaced.here.unique hhere
    refine ⟨hplaced.unmapped, hplaced.quiet, hplaced.here, hplaced.running, hplaced.untouched,
      fun q hle => ?_, hplaced.fresh⟩
    have hne : q ≠ p := by
      rw [hplaced.running] at hrun
      omega
    refine (Function.update_of_ne hne ..).trans ?_
    have hq := hplaced.unwritten q hle
    unfold storeAt at hq
    cases hraft : w.raft with
    | none => rfl
    | some r =>
      rw [hraft] at hq
      exact hq
  · obtain ⟨hmap, -, hphase⟩ := h.deleting j d hd hne
    refine ⟨hmap, fun r hr x hx => ?_, hphase⟩
    cases hr
    have htarget : w.Here d.target := by
      cases hd' : d.phase with
      | removed =>
        rw [hd'] at hphase
        exact hphase
      | stopped =>
        rw [hd'] at hphase
        exact hphase.1
      | topicsGone =>
        rw [hd'] at hphase
        exact absurd hphase hhere.topics_ne_none
      | ended => exact absurd hd' hne
    rw [hall x hx]
    exact hhere.unique htarget
  · cases hr
    obtain ⟨t', ht', rfl⟩ := hhere
    rw [Option.some.inj (ht.symm.trans ht')]
    exact hall x hx

theorem Sound.write (h : w.Sound) (ht : w.topics = some t) (hrun : p < w.running t.generation)
    (dir : Directory) :
    ({ w with topics := some { t with dirs := Function.update t.dirs p dir } } : World).Sound := by
  set w' : World := { w with topics := some { t with dirs := Function.update t.dirs p dir } }
  have hhere : ∀ g, w.Here g → w'.Here g := by
    rintro g ⟨t', ht', rfl⟩
    rw [Option.some.inj (ht'.symm.trans ht)]
    exact ⟨_, rfl, rfl⟩
  refine ⟨fun g hg => (h.mapped g hg).imp_left (hhere g), fun id c opened hc hp => ?_, h.returned,
    fun j d hd hne => ?_, h.alone, fun g hg => hhere g (h.running g hg),
    fun t' r ht' hr x hx => ?_, h.undamaged⟩
  · have hplaced := h.placed id c opened hc hp
    refine ⟨hplaced.unmapped, hplaced.quiet, hhere id hplaced.here, hplaced.running,
      fun t' ht' q hle => ?_, hplaced.unwritten, hplaced.fresh⟩
    cases ht'
    have hid : t.generation = id := hplaced.here.unique ⟨t, ht, rfl⟩ |>.symm
    have hne : q ≠ p := by
      rw [hid, hplaced.running] at hrun
      omega
    exact (Function.update_of_ne hne ..).trans (hplaced.untouched t ht q hle)
  · obtain ⟨hmap, hwriters, hphase⟩ := h.deleting j d hd hne
    refine ⟨hmap, hwriters, ?_⟩
    cases hd' : d.phase with
    | removed =>
      rw [hd'] at hphase
      exact hhere _ hphase
    | stopped =>
      rw [hd'] at hphase
      exact ⟨hhere _ hphase.1, hphase.2⟩
    | topicsGone =>
      rw [hd'] at hphase
      exact nomatch ht.symm.trans hphase
    | ended => trivial
  · cases ht'
    exact h.writers t r ht hr x hx

/-! ### Deleting -/

section
variable (h : w.Sound)
include h

theorem Sound.delete (hg : w.map = some g) :
    ({ w with map := none, deletes := w.deletes ++ [⟨g, .removed⟩] } : World).Sound := by
  obtain ⟨hhere, hquiet⟩ := h.mapped g hg
  have hold : ∀ (j : Nat) (d : Delete), (w.deletes ++ [⟨g, .removed⟩])[j]? = some d →
      d.phase ≠ .ended → j = w.deletes.length ∧ d = ⟨g, .removed⟩ := by
    intro j d hd hne
    rcases getElem?_concat_cases hd with hnew | hd
    · exact hnew
    · exact absurd (hquiet d (List.mem_of_getElem? hd)) hne
  refine ⟨nofun, fun id c opened hc hp => ?_, h.returned, fun j d hd hne => ?_,
    fun i j d d' hd hd' hne hne' => ?_, h.running, h.writers, h.undamaged⟩
  · exact nomatch (h.placed id c opened hc hp).unmapped.symm.trans hg
  · obtain ⟨-, rfl⟩ := hold j d hd hne
    obtain ⟨t, ht, rfl⟩ := hhere
    exact ⟨rfl, fun r hr => h.writers t r ht hr, t, ht, rfl⟩
  · rw [(hold i d hd hne).1, (hold j d' hd' hne').1]

section
variable (hd : w.deletes[j]? = some d)
include hd

/-- The one deletion under way goes on to its next phase. -/
theorem Sound.setDelete {phase : DeletePhase} (hne : d.phase ≠ .ended) (hmap : w'.map = none)
    (hcreates : w'.creates = w.creates) (hdeletes : w'.deletes = w.deletes.set j { d with phase })
    (hdeleting : phase ≠ .ended → w'.Deleting { d with phase })
    (hrunning : ∀ g, 0 < w'.running g → w'.Here g)
    (hwriters : ∀ t r, w'.topics = some t → w'.raft = some r → ∀ g ∈ r.writers, g = t.generation)
    (hundamaged : w'.damaged = []) : w'.Sound := by
  have honly : ∀ (i : Nat) (d' : Delete), w'.deletes[i]? = some d' → d'.phase ≠ .ended →
      i = j ∧ d' = { d with phase } := by
    intro i d' hd' hne'
    rw [hdeletes] at hd'
    rcases getElem?_set_cases hd' with hnew | ⟨hi, hd'⟩
    · exact hnew
    · exact absurd (h.alone i j d' d hd' hd hne' hne) hi
  refine ⟨fun g hg => (nomatch hmap.symm.trans hg), fun id c opened hc hp => ?_,
    fun id c opened hc hp => h.returned id c opened (hcreates ▸ hc) hp, fun i d' hd' hne' => ?_,
    fun i i' d' d'' hd' hd'' hne' hne'' => ?_, hrunning, hwriters, hundamaged⟩
  · have hplaced := h.placed id c opened (hcreates ▸ hc) hp
    exact absurd (hplaced.quiet d (List.mem_of_getElem? hd)) hne
  · obtain ⟨-, rfl⟩ := honly i d' hd' hne'
    exact hdeleting hne'
  · rw [(honly i d' hd' hne').1, (honly i' d'' hd'' hne'').1]

theorem Sound.stop (hp : d.phase = .removed) :
    ({ w.setDelete j d .stopped with
      running := Function.update w.running d.target 0 } : World).Sound := by
  have hne : d.phase ≠ .ended := by
    rw [hp]
    nofun
  obtain ⟨hmap, hwriters, hphase⟩ := h.deleting j d hd hne
  rw [hp] at hphase
  refine h.setDelete hd hne hmap rfl rfl
    (fun _ => ⟨hmap, hwriters, hphase, Function.update_self ..⟩) (fun g hg => ?_) h.writers
    h.undamaged
  by_cases hg' : g = d.target
  · rw [hg']
    exact hphase
  · exact h.running g (hg.trans_eq (Function.update_of_ne hg' ..))

theorem Sound.dropTopics (hp : d.phase = .stopped) :
    ({ w.setDelete j d .topicsGone with
      topics := none
      damaged := w.damaged ++
        (w.topics.toList.map TopicDir.generation).filter (· ≠ d.target) } : World).Sound := by
  have hne : d.phase ≠ .ended := by
    rw [hp]
    nofun
  obtain ⟨hmap, hwriters, hphase⟩ := h.deleting j d hd hne
  rw [hp] at hphase
  obtain ⟨hhere, hstopped⟩ := hphase
  refine h.setDelete hd hne hmap rfl rfl (fun _ => ⟨hmap, hwriters, rfl⟩) (fun g hg => ?_)
    (fun t r ht => nomatch ht) ?_
  · -- the nodes of the one topic that could be running are stopped
    rw [(h.running g hg).unique hhere] at hg
    exact absurd hstopped hg.ne'
  · obtain ⟨t, ht, hgen⟩ := hhere
    simp [h.undamaged, ht, hgen]

theorem Sound.dropRaft (hp : d.phase = .topicsGone) :
    ({ w.setDelete j d .ended with
      raft := none
      damaged := w.damaged ++
        (w.raft.toList.flatMap RaftDir.writers).filter (· ≠ d.target) } : World).Sound := by
  have hne : d.phase ≠ .ended := by
    rw [hp]
    nofun
  obtain ⟨hmap, hwriters, hphase⟩ := h.deleting j d hd hne
  refine h.setDelete hd hne hmap rfl rfl (fun hend => absurd rfl hend) h.running
    (fun t r _ hr => nomatch hr) ?_
  have hown : (w.raft.toList.flatMap RaftDir.writers).filter (· ≠ d.target) = [] := by
    refine List.filter_eq_nil_iff.mpr fun g hg => ?_
    obtain ⟨r, hr, hg⟩ := List.mem_flatMap.mp hg
    simpa using hwriters r (Option.mem_toList.mp hr) g hg
  exact (congrArg₂ (· ++ ·) h.undamaged hown).trans (List.append_nil _)

end

theorem Sound.crash :
    ({ w with
      map := w.topics.map TopicDir.generation
      running := fun g =>
        ((w.topics.filter fun t => t.generation = g).map TopicDir.partitions).getD 0
      creates := w.creates.map fun c => { c with phase := c.phase.crashed }
      deletes := w.deletes.map fun d => { d with phase := .ended } } : World).Sound := by
  have hended : ∀ d ∈ w.deletes.map fun d => { d with phase := DeletePhase.ended },
      d.phase = .ended := by
    intro d hd
    obtain ⟨d', -, rfl⟩ := List.mem_map.mp hd
    rfl
  have hno : ∀ (j : Nat) (d : Delete),
      (w.deletes.map fun d => { d with phase := DeletePhase.ended })[j]? = some d →
      d.phase = .ended := fun j d hd => hended d (List.mem_of_getElem? hd)
  have hcrashed : ∀ (id : Nat) (c : Create),
      (w.creates.map fun c => { c with phase := c.phase.crashed })[id]? = some c →
      ∃ c', w.creates[id]? = some c' ∧ c = { c' with phase := c'.phase.crashed } := by
    intro id c hc
    rw [List.getElem?_map] at hc
    obtain ⟨c', hc', rfl⟩ := Option.map_eq_some_iff.mp hc
    exact ⟨c', hc', rfl⟩
  refine ⟨fun g hg => ?_, fun id c opened hc hp => ?_, fun id c opened hc hp => ?_,
    fun j d hd hne => absurd (hno j d hd) hne,
    fun i j d d' hd hd' hne => absurd (hno i d hd) hne, fun g hg => ?_, h.writers, h.undamaged⟩
  · exact ⟨Option.map_eq_some_iff.mp hg, hended⟩
  · obtain ⟨c', -, rfl⟩ := hcrashed id c hc
    cases hphase : c'.phase <;> rw [hphase] at hp <;> cases hp
  · obtain ⟨c', hc', rfl⟩ := hcrashed id c hc
    cases hphase : c'.phase with
    | returned opened' =>
      rw [hphase] at hp
      cases hp
      exact h.returned id c' opened hc' hphase
    | _ =>
      rw [hphase] at hp
      cases hp
  · cases ht : w.topics with
    | none =>
      rw [ht] at hg
      exact absurd hg (Nat.lt_irrefl 0)
    | some t =>
      refine ⟨t, rfl, ?_⟩
      by_contra hgen
      dsimp only at hg
      rw [ht, Option.filter_some, if_neg (by simpa using hgen)] at hg
      exact absurd hg (Nat.lt_irrefl 0)

end

/-! ### Every orderly run -/

theorem Sound.step {cfg : Config} {w w' : World} {e : Event} (h : w.Sound) (hclear : w.Clear e)
    (hstep : w.step cfg e = some w') : w'.Sound := by
  cases e with
  | create partitions =>
    obtain ⟨-, hstep⟩ := Option.ite_none_right_eq_some.mp hstep
    cases hstep
    refine h.create ?_
    by_cases hmap : w.map = none
    · exact Or.inl (if_pos hmap)
    · exact Or.inr (if_neg hmap)
  | stage id =>
    obtain ⟨c, hc, hstep⟩ := Option.bind_eq_some_iff.mp hstep
    split at hstep
    · cases hstep
      refine h.setCreate ?_
      by_cases ht : w.topics.isNone
      · exact Or.inl (if_pos ht)
      · exact Or.inr (if_neg ht)
    · cases hstep
  | place id =>
    obtain ⟨c, hc, hstep⟩ := Option.bind_eq_some_iff.mp hstep
    split at hstep
    · split at hstep
      · cases hstep
        exact h.place ‹_› hclear.1 hclear.2
      · cases hstep
        exact h.setCreate (Or.inr rfl)
    · cases hstep
  | openNext id =>
    obtain ⟨c, hc, hstep⟩ := Option.bind_eq_some_iff.mp hstep
    obtain ⟨t, ht, hstep⟩ := Option.bind_eq_some_iff.mp hstep
    split at hstep
    · obtain ⟨-, hstep⟩ := Option.ite_none_right_eq_some.mp hstep
      split at hstep
      · cases hstep
        exact h.setCreate (Or.inr rfl)
      · cases hstep
        exact h.openNext hc ‹_› ht ‹_›
    · cases hstep
  | insert id =>
    obtain ⟨c, hc, hstep⟩ := Option.bind_eq_some_iff.mp hstep
    split at hstep
    · obtain ⟨hlen, hstep⟩ := Option.ite_none_right_eq_some.mp hstep
      cases hstep
      exact h.insert hc ‹_› hlen
    · cases hstep
  | persist g p store =>
    obtain ⟨hrun, hstep⟩ := Option.ite_none_right_eq_some.mp hstep
    cases hstep
    exact h.persist hrun store
  | write g p dir =>
    obtain ⟨t, ht, hif⟩ := Option.bind_eq_some_iff.mp hstep
    obtain ⟨⟨hrun, rfl⟩, hwrite⟩ := Option.ite_none_right_eq_some.mp hif
    cases hwrite
    exact h.write ht hrun dir
  | delete =>
    obtain ⟨g, hg, hstep⟩ := Option.bind_eq_some_iff.mp hstep
    cases hstep
    exact h.delete hg
  | stop j =>
    obtain ⟨d, hd, hstep⟩ := Option.bind_eq_some_iff.mp hstep
    obtain ⟨hp, hstep⟩ := Option.ite_none_right_eq_some.mp hstep
    cases hstep
    exact h.stop hd hp
  | dropTopics j =>
    obtain ⟨d, hd, hstep⟩ := Option.bind_eq_some_iff.mp hstep
    obtain ⟨hp, hstep⟩ := Option.ite_none_right_eq_some.mp hstep
    cases hstep
    exact h.dropTopics hd hp
  | dropRaft j =>
    obtain ⟨d, hd, hstep⟩ := Option.bind_eq_some_iff.mp hstep
    obtain ⟨hp, hstep⟩ := Option.ite_none_right_eq_some.mp hstep
    cases hstep
    exact h.dropRaft hd hp
  | crash =>
    cases hstep
    exact h.crash

end World

/-- Every `create_topic` that returned `Ok` opened as many partitions as it was asked for, all of
them fresh, and no deletion took away the files of a topic other than its own. -/
theorem recreated_topic_starts_empty {cfg : Config} {w : World} (h : w.Orderly cfg) :
    (∀ c ∈ w.creates, ∀ opened, c.phase = .returned opened →
      opened.length = c.partitions ∧ ∀ o ∈ opened, o.Fresh) ∧ w.damaged = [] := by
  have hsound : w.Sound := h.keeps .empty fun h hclear hstep => h.step hclear hstep
  refine ⟨fun c hc opened hp => ?_, hsound.undamaged⟩
  obtain ⟨id, hid⟩ := List.mem_iff_getElem?.mp hc
  exact hsound.returned id c opened hid hp

/-- One node, alone in its group. -/
def soloConfig : Config := ⟨1, [], 1024, 1⟩

/-- The term and the vote each partition of a topic started with. -/
def Create.started (c : Create) : List (Nat × Option NodeId) :=
  match c.phase with
  | .returned opened => opened.map fun o => (o.node.currentTerm, o.node.votedFor)
  | _ => []

/-- A topic of one partition is created, its node votes for itself in term 3, the topic is deleted
to the end, and the name is created again. -/
def recreatedRun : List Event :=
  [.create 1, .stage 0, .place 0, .openNext 0, .insert 0,
    .persist 0 0 ⟨{ currentTerm := 3, votedFor := some 1 }, none⟩,
    .delete, .stop 0, .dropTopics 0, .dropRaft 0,
    .create 1, .stage 1, .place 1, .openNext 1, .insert 1]

theorem recreatedRun_runs :
    (Runs.replay (World.step soloConfig) World.Clear .empty recreatedRun).isSome := by
  decide +kernel

def recreated : World :=
  (Runs.replay (World.step soloConfig) World.Clear .empty recreatedRun).get recreatedRun_runs

theorem recreated_topic_starts_empty_twice :
    recreated.creates.map Create.started = [[(0, none)], [(0, none)]] ∧
      (∀ c ∈ recreated.creates, ∀ opened, c.phase = .returned opened →
        opened.length = c.partitions ∧ ∀ o ∈ opened, o.Fresh) ∧ recreated.damaged = [] :=
  ⟨by decide +kernel,
    recreated_topic_starts_empty (Runs.of_replay (Option.some_get recreatedRun_runs).symm)⟩

/-! ### What goes wrong otherwise -/

/-- A topic of one partition is created, its node votes for itself in term 3, and the topic is
deleted; between the two renames the name is created again, and its node persists in turn before
the second rename. -/
def overtakenRun : List Event :=
  [.create 1, .stage 0, .place 0, .openNext 0, .insert 0,
    .persist 0 0 ⟨{ currentTerm := 3, votedFor := some 1 }, none⟩,
    .delete, .stop 0, .dropTopics 0,
    .create 1, .stage 1, .place 1, .openNext 1, .insert 1,
    .persist 1 0 ⟨{ currentTerm := 4, votedFor := some 1 }, none⟩, .dropRaft 0]

/-- The second creation returns with a node in term 3 that has voted, and the first deletion then
takes the second topic's Raft directory away. -/
theorem recreated_topic_inherits :
    (World.empty.run soloConfig overtakenRun).map
        (fun w => (w.creates.map Create.started, w.damaged)) =
      some ([[(0, none)], [(3, some 1)]], [1]) := by
  decide +kernel

end EventStream.Topics
