import EventStream.Dataplane.Steps

/-! An offset answered for a duplicate is where the record stands, as long as no window of an
earlier topic is left when its name is used again.

The windows and the journal know a topic by its name. The invariant reads them as statements
about the last topic created under that name: each sequence they have an offset for stands
at that offset in its partition. Creating the topic again makes every such statement about
the new one, which holds nothing. -/
namespace EventStream.Dataplane

open EventStream.Producers

/-- The request has yet to record or to answer with what it found under its topic's name. -/
def Phase.inFlight : Phase → Bool
  | .waiting .. => true
  | .writing .. => true
  | .recorded .. => true
  | _ => false

/-- Nothing is left of the topics that had the name: no window in memory or on disk, no journal line
and no request in flight. -/
structure Broker.Forgotten (b : Broker) (name : String) : Prop where
  windows : ∀ reg ∈ b.registries, ∀ pid st, reg.slots pid = some st →
    ∀ p, st.partitions (name, p) = none
  journal : ∀ e ∈ b.rotated ++ b.journal, e.t ≠ name
  requests : ∀ r ∈ b.requests, r.topic.name = name → r.phase.inFlight = false

/-- A topic is created under a forgotten name. -/
def Broker.CreatesAnew (b : Broker) (e : Event) : Prop :=
  ∀ name n, e = .createTopic name n → b.Forgotten name

/-- The brokers in whose past each topic was created under a forgotten name. -/
abbrev Broker.Unmixed : Broker → Prop := Runs Broker.step Broker.CreatesAnew .empty

/-- The sequence stands at the offset in the last topic created under the name. -/
def Broker.Told (b : Broker) (pid name : String) (p : Nat) (sequence : Int) (offset : Nat) :
    Prop :=
  ⟨offset, pid, sequence⟩ ∈ b.logs (name, b.created name - 1) p

/-- What a request goes by is told of its topic. -/
def Phase.Told (told : Nat → Int → Nat → Prop) (records : List IncomingRecord) : Phase → Prop
  | .waiting routed sequences =>
    records.map (·.sequence) = sequences.map some ∧ routed.length = records.length
  | .writing ds written | .recorded ds written =>
    records.map (·.sequence) = ds.map (fun d => some d.sequence) ∧
      (∀ d ∈ ds, ∀ offset, d.duplicate = some offset → told d.partition d.sequence offset) ∧
      ∀ p offsets, written p = some offsets → ∀ x ∈ (fresh ds p).zip offsets, told p x.1 x.2
  | _ => True

theorem Phase.Told.mono {told told' : Nat → Int → Nat → Prop} {records : List IncomingRecord}
    {phase : Phase} (h : phase.Told told records) (hmono : ∀ p s o, told p s o → told' p s o) :
    phase.Told told' records := by
  cases phase with
  | writing ds written | recorded ds written =>
    exact ⟨h.1, fun d hd o ho => hmono _ _ _ (h.2.1 d hd o ho),
      fun p offsets hw x hx => hmono _ _ _ (h.2.2 p offsets hw x hx)⟩
  | _ => exact h

namespace Broker

/-- A request is about the last topic of its name, for as long as it is in flight. -/
structure Current (b : Broker) (r : Request) : Prop where
  generation : r.phase.inFlight → r.topic.generation + 1 = b.created r.topic.name
  told : r.phase.inFlight → r.phase.Told (b.Told r.producer r.topic.name) r.records

structure Candid (b : Broker) : Prop where
  topics : ∀ name t, b.topics name = some t → t.name = name ∧ t.generation + 1 = b.created name
  windows : ∀ reg ∈ b.registries, ∀ pid st, reg.slots pid = some st → st.Vouched (b.Told pid)
  journal : ∀ e ∈ b.rotated ++ b.journal, b.Told e.p e.t e.n e.s e.f
  requests : ∀ r ∈ b.requests, b.Current r

theorem Candid.empty : Candid .empty where
  topics _ _ h := by cases h
  windows reg hreg pid st hst := by
    rw [List.mem_singleton.mp hreg] at hst
    cases hst
  journal _ h := absurd h List.not_mem_nil
  requests _ h := absurd h List.not_mem_nil

variable {b b' : Broker} {r : Request} {id : Nat} {now : Int} {st : ProducerState}
    {ds : List Decision} {written : Nat → Option (List Nat)} {phase : Phase} {pid : String}

theorem Current.mono (h : b.Current r) (hcreated : b'.created r.topic.name = b.created r.topic.name)
    (htold : ∀ p s o, b.Told r.producer r.topic.name p s o →
      b'.Told r.producer r.topic.name p s o) : b'.Current r :=
  ⟨fun hf => (h.generation hf).trans hcreated.symm, fun hf => (h.told hf).mono htold⟩

/-- One request goes on; windows, journal and logs change as its step changes them. -/
theorem Candid.advance (h : b.Candid) (htopics : b'.topics = b.topics)
    (hcreated : b'.created = b.created) (hlogs : b'.logs = b.logs)
    (hreq : b'.requests = (b.move id r phase).requests)
    (hwindows : ∀ reg ∈ b'.registries, ∀ pid st, reg.slots pid = some st →
      st.Vouched (b'.Told pid))
    (hjournal : ∀ e ∈ b'.rotated ++ b'.journal, b'.Told e.p e.t e.n e.s e.f)
    (hnew : b'.Current { r with phase }) : b'.Candid where
  topics name t ht := by
    rw [htopics] at ht
    rw [hcreated]
    exact h.topics name t ht
  windows := hwindows
  journal := hjournal
  requests r' hr' := by
    rw [hreq] at hr'
    rcases List.mem_or_eq_of_mem_set hr' with hold | rfl
    · refine (h.requests r' hold).mono (congrFun hcreated _) fun p s o ht => ?_
      unfold Told
      rw [hcreated, hlogs]
      exact ht
    · exact hnew

/-- A request moves and nothing else changes. -/
theorem Candid.move (h : b.Candid) (hnew : b.Current { r with phase }) :
    (b.move id r phase).Candid :=
  h.advance rfl rfl rfl rfl h.windows h.journal (hnew.mono rfl fun _ _ _ ht => ht)

/-- A request that is answered goes by nothing any more. -/
theorem current_answered (b : Broker) (r : Request) (result : Except DataError (List Produced)) :
    b.Current { r with phase := .answered result } :=
  ⟨fun hf => (nomatch hf), fun hf => (nomatch hf)⟩

theorem told_store (r : Request) (p : Nat) (batch : List (Int × Nat)) {name : String} {q o : Nat}
    {s : Int} (h : b.Told pid name q s o) : (b.store r p batch).Told pid name q s o := by
  unfold Told
  rw [store_logs]
  split
  · exact List.mem_append_left _ h
  · exact h

theorem Candid.store (h : b.Candid) (r : Request) (p : Nat) (batch : List (Int × Nat)) :
    (b.store r p batch).Candid :=
  ⟨h.topics,
    fun reg hreg pid st hst =>
      (h.windows reg hreg pid st hst).mono fun _ _ _ _ => told_store r p batch,
    fun e he => told_store r p batch (h.journal e he),
    fun r' hr' => (h.requests r' hr').mono rfl fun _ _ _ => told_store r p batch⟩

theorem Candid.producers (h : b.Candid) (hst : b.producers pid = some st) :
    st.Vouched (b.Told pid) := h.windows _ List.mem_cons_self pid st hst

/-- The registry in memory changes for one producer. -/
theorem Candid.setProducer (h : b.Candid) (hst : st.Vouched (b.Told pid)) :
    (b.setProducer pid st).Candid := by
  refine ⟨h.topics, fun reg hreg pid' st' hst' => ?_, h.journal,
    fun r hr => (h.requests r hr).mono rfl fun _ _ _ ht => ht⟩
  rcases List.mem_cons.mp hreg with rfl | hreg
  · by_cases hp : pid' = pid
    · subst hp
      obtain rfl := Option.some.inj ((setProducer_self b pid' st).symm.trans hst')
      exact hst
    · exact h.producers ((setProducer_of_ne b hp st).symm.trans hst')
  · exact h.windows reg (List.mem_cons_of_mem _ hreg) pid' st' hst'

/-- Admission changes no window. -/
theorem Candid.admitted (h : b.Candid) {owner : String}
    (hst : admitState now (b.producers pid) pid owner = .ok st) : st.Vouched (b.Told pid) := by
  have hpart := (admitState_ok hst).1
  intro topic p w hw
  rw [hpart] at hw
  cases hold : b.producers pid with
  | none =>
    rw [hold] at hw
    cases hw
  | some old =>
    rw [hold] at hw
    exact h.producers hold topic p w hw

/-- Recording what the request wrote keeps the windows vouched for. -/
theorem recordAll_vouched {P : String → Nat → Int → Nat → Prop} (now : Int) (topic : String)
    {xs : List (Nat × Int × Nat)} (hxs : ∀ x ∈ xs, P topic x.1 x.2.1 x.2.2) (h : st.Vouched P) :
    (recordAll now topic st xs).Vouched P := by
  induction xs generalizing st with
  | nil => exact h
  | cons x xs ih =>
    exact ih (fun y hy => hxs y (List.mem_cons_of_mem x hy))
      (h.record now (hxs x List.mem_cons_self))

/-- So does replaying journal lines that are told. -/
theorem replay_vouched {P : String → String → Nat → Int → Nat → Prop} (now : Int)
    {lines : List JournalEntry} (hlines : ∀ e ∈ lines, P e.p e.t e.n e.s e.f)
    {producers : String → Option ProducerState}
    (h : ∀ pid st, producers pid = some st → st.Vouched (P pid)) :
    ∀ pid st, lines.foldl (replayEntry now) producers pid = some st → st.Vouched (P pid) := by
  induction lines generalizing producers with
  | nil => exact h
  | cons e lines ih =>
    refine ih (fun e' he' => hlines e' (List.mem_cons_of_mem e he')) fun pid st hst => ?_
    unfold replayEntry at hst
    by_cases hp : pid = e.p
    · subst hp
      rw [Function.update_self] at hst
      cases hst
      refine ProducerState.Vouched.record ?_ now (hlines e List.mem_cons_self)
      cases hold : producers e.p with
      | none => exact fun _ _ _ hw => nomatch hw
      | some old => exact h e.p old hold
    · rw [Function.update_of_ne hp] at hst
      exact h pid st hst

theorem Candid.create {b : Broker} (h : b.Candid) {name : String} {n : Nat}
    (hforgot : b.Forgotten name) :
    ({ b with
      topics := Function.update b.topics name (some ⟨name, b.created name, n⟩)
      created := Function.update b.created name (b.created name + 1) } : Broker).Candid := by
  set b' : Broker := { b with
    topics := Function.update b.topics name (some ⟨name, b.created name, n⟩)
    created := Function.update b.created name (b.created name + 1) }
  have hcreated : ∀ name', name' ≠ name → b'.created name' = b.created name' :=
    fun name' hne => Function.update_of_ne hne ..
  have htold : ∀ name', name' ≠ name → ∀ {pid p s o}, b.Told pid name' p s o →
      b'.Told pid name' p s o := by
    intro name' hne pid p s o ht
    unfold Told
    rw [hcreated name' hne]
    exact ht
  refine ⟨fun name' t ht => ?_, fun reg hreg pid st hst topic p w hw => ?_, fun e he => ?_,
    fun r hr => ?_⟩
  · by_cases hname : name' = name
    · subst hname
      have hself : b'.topics name' = some ⟨name', b.created name', n⟩ := Function.update_self ..
      obtain rfl := Option.some.inj (hself.symm.trans ht)
      have hcount : b'.created name' = b.created name' + 1 := Function.update_self ..
      exact ⟨rfl, hcount.symm⟩
    · rw [hcreated name' hname]
      exact h.topics name' t ((Function.update_of_ne hname ..).symm.trans ht)
  · have hne : topic ≠ name := by
      rintro rfl
      exact nomatch (hforgot.windows reg hreg pid st hst p).symm.trans hw
    exact (h.windows reg hreg pid st hst topic p w hw).mono fun s o => htold topic hne
  · exact htold e.t (hforgot.journal e he) (h.journal e he)
  · by_cases hname : r.topic.name = name
    · have := Bool.eq_false_iff.mp (hforgot.requests r hr hname)
      exact ⟨fun hf => absurd hf this, fun hf => absurd hf this⟩
    · exact (h.requests r hr).mono (hcreated _ hname) fun _ _ _ => htold _ hname

theorem Candid.arrive (h : b.Candid) (counters : String × Nat → Nat) (hnew : b.Current r) :
    ({ b with counters, requests := b.requests ++ [r] } : Broker).Candid := by
  refine ⟨h.topics, h.windows, h.journal, fun r' hr' => ?_⟩
  rcases List.mem_append.mp hr' with hr' | hr'
  · exact (h.requests r' hr').mono rfl fun _ _ _ ht => ht
  · rw [List.mem_singleton.mp hr']
    exact hnew.mono rfl fun _ _ _ ht => ht

/-- The decisions of an admitted request are told: the duplicates by the windows. -/
theorem Candid.admission (h : b.Candid) {routed : List Nat} {sequences : List Int}
    (hadm : b.Admissible id r routed sequences)
    (hst : admitState now (b.producers r.producer) r.producer r.owner = .ok st)
    (hds : decideAll r.producer r.topic.name st (fun _ => none) (routed.zip sequences) = .ok ds) :
    ((b.setProducer r.producer st).move id r (.writing ds fun _ => none)).Candid := by
  have hvouched := h.admitted hst
  have hcur := h.requests r (List.mem_of_getElem? hadm.at_)
  have hflight : r.phase.inFlight := by rw [hadm.waits]; rfl
  have htold := hcur.told hflight
  rw [hadm.waits] at htold
  obtain ⟨hseq, hlen⟩ := htold
  have hlen' : sequences.length ≤ routed.length := by
    have := congrArg List.length hseq
    rw [List.length_map, List.length_map] at this
    omega
  refine (h.setProducer hvouched).move ⟨fun _ => hcur.generation hflight,
    fun _ => ⟨?_, ?_, fun p offs hw => nomatch hw⟩⟩
  · have hsnd : ds.map (·.sequence) = sequences := by
      calc ds.map (·.sequence) = (ds.map fun d => (d.partition, d.sequence)).map Prod.snd := by
            rw [List.map_map]
            rfl
        _ = sequences := by rw [decideAll_items hds, List.map_snd_zip hlen']
    calc r.records.map (·.sequence) = (ds.map (·.sequence)).map some := by rw [hseq, hsnd]
      _ = ds.map fun d => some d.sequence := List.map_map ..
  · intro d hd o ho
    exact hvouched.of_check (decideAll_duplicate hds d hd o ho)

theorem Candid.append {b : Broker} (h : b.Candid) {id p : Nat} {r : Request} {offsets : List Nat}
    {ds : List Decision} {written : Nat → Option (List Nat)} (hr : b.requests[id]? = some r)
    (hp : r.phase = .writing ds written) :
    ((b.store r p ((fresh ds p).zip offsets)).move id r
      (.writing ds (Function.update written p (some offsets)))).Candid := by
  have hcur := h.requests r (List.mem_of_getElem? hr)
  have hflight : r.phase.inFlight := by rw [hp]; rfl
  have htold := hcur.told hflight
  rw [hp] at htold
  obtain ⟨hseq, hdup, hwritten⟩ := htold
  refine (h.store r p _).move ⟨fun _ => hcur.generation hflight, fun _ => ⟨hseq, ?_, ?_⟩⟩
  · exact fun d hd o ho => told_store r p _ (hdup d hd o ho)
  · intro q offs hoffs x hx
    by_cases hq : q = p
    · subst hq
      rw [Function.update_self] at hoffs
      cases hoffs
      have hgen : b.created r.topic.name - 1 = r.topic.generation := by
        have := hcur.generation hflight
        omega
      show _ ∈ (b.store r q _).logs (r.topic.name, b.created r.topic.name - 1) q
      rw [hgen, store_logs, if_pos ⟨rfl, rfl⟩]
      exact List.mem_append_right _ (List.mem_map.mpr ⟨x, hx, rfl⟩)
    · rw [Function.update_of_ne hq] at hoffs
      exact told_store r p _ (hwritten q offs hoffs x hx)

/-- All that a request in flight wrote is told. -/
theorem Current.entries_told (h : b.Current r)
    (hp : r.phase = .writing ds written ∨ r.phase = .recorded ds written) :
    ∀ x ∈ entries ds written, b.Told r.producer r.topic.name x.1 x.2.1 x.2.2 := by
  rintro ⟨p, s, o⟩ hx
  obtain ⟨offsets, hw, hso⟩ := of_mem_entries hx
  have htold := h.told (by rcases hp with hp | hp <;> rw [hp] <;> rfl)
  rcases hp with hp | hp
  · rw [hp] at htold
    exact htold.2.2 p offsets hw (s, o) hso
  · rw [hp] at htold
    exact htold.2.2 p offsets hw (s, o) hso

theorem Candid.record (h : b.Candid) (hr : b.requests[id]? = some r)
    (hp : r.phase = .writing ds written) (hst : b.producers r.producer = some st) :
    ((b.setProducer r.producer (recordAll now r.topic.name st (entries ds written))).move id r
      (.recorded ds written)).Candid := by
  have hcur := h.requests r (List.mem_of_getElem? hr)
  have hflight : r.phase.inFlight := by rw [hp]; rfl
  have htold := hcur.told hflight
  rw [hp] at htold
  exact (h.setProducer (recordAll_vouched now r.topic.name (hcur.entries_told (Or.inl hp))
    (h.producers hst))).move ⟨fun _ => hcur.generation hflight, fun _ => htold⟩

theorem Candid.journals (h : b.Candid) (hr : b.requests[id]? = some r)
    (hp : r.phase = .recorded ds written) (result : Except DataError (List Produced)) :
    ({ b with journal := b.journal ++ r.lines ds written }.move id r
      (.answered result)).Candid := by
  have hcur := h.requests r (List.mem_of_getElem? hr)
  refine h.advance rfl rfl rfl rfl h.windows (fun e he => ?_)
    (current_answered _ r result)
  have he : e ∈ b.rotated ++ (b.journal ++ r.lines ds written) := he
  rw [← List.append_assoc] at he
  rcases List.mem_append.mp he with he | he
  · exact h.journal e he
  · obtain ⟨x, hx, rfl⟩ := List.mem_map.mp he
    exact hcur.entries_told (Or.inr hp) x hx

theorem update_none_eq_some {α β : Type} [DecidableEq α] {f : α → Option β} {a a' : α} {x : β}
    (h : Function.update f a none a' = some x) : f a' = some x := by
  by_cases ha : a' = a
  · subst ha
    rw [Function.update_self] at h
    cases h
  · rwa [Function.update_of_ne ha] at h

/-- The registry comes from what is on disk. -/
theorem Candid.restart (h : b.Candid) (now : Int) :
    ({ b with
      counters := fun _ => 0
      registry := b.reopened now
      flush := .idle
      requests := [] } : Broker).Candid := by
  have hsnapshot : ∀ reg ∈ b.snapshot, ∀ pid st, reg.slots pid = some st →
      st.Vouched (b.Told pid) := fun reg hreg => h.windows reg (List.mem_cons_of_mem _
    (List.mem_append_left _ (Option.mem_toList.mpr hreg)))
  refine ⟨h.topics, fun reg hreg => ?_, h.journal, fun r hr => absurd hr List.not_mem_nil⟩
  rcases List.mem_cons.mp hreg with rfl | hreg
  · intro pid st hst
    have hst : (b.reopened now).slots pid = some st := hst
    rw [reopened, Registry.slots_replay] at hst
    refine replay_vouched now h.journal (fun pid st hst => ?_) pid st hst
    obtain ⟨old, hold, rfl⟩ := Option.map_eq_some_iff.mp hst
    cases hs : b.snapshot with
    | none =>
      rw [hs] at hold
      cases hold
    | some reg =>
      rw [hs] at hold
      exact hsnapshot reg hs pid old hold
  · have hreg : reg ∈ b.snapshot.toList ++ [] := hreg
    rw [List.append_nil] at hreg
    exact hsnapshot reg (Option.mem_toList.mp hreg)

theorem Candid.step {b b' : Broker} {e : Event} (h : b.Candid) (hforgot : b.CreatesAnew e)
    (hstep : b.step e = some b') : b'.Candid := by
  cases step_took hstep with
  | created => exact h.create (hforgot _ _ rfl)
  | deleted =>
    refine ⟨fun name t ht => ?_, h.windows, h.journal,
      fun r hr => (h.requests r hr).mono rfl fun _ _ _ ht => ht⟩
    exact h.topics name t (update_none_eq_some ht)
  | restarted => exact h.restart _
  | flushed hlines hcopies =>
    refine ⟨h.topics, fun reg hreg pid st hst => ?_, fun e he => h.journal e (hlines e he),
      fun r hr => (h.requests r hr).mono rfl fun _ _ _ ht => ht⟩
    rcases List.mem_cons.mp hreg with rfl | hreg
    · exact h.producers hst
    · obtain ⟨reg', hreg', hst'⟩ := hcopies reg hreg pid st hst
      exact h.windows reg' hreg' pid st hst'
  | denied => exact h.arrive b.counters ⟨fun hf => (nomatch hf), fun hf => (nomatch hf)⟩
  | arrived counters htopic harrival =>
    refine h.arrive counters ?_
    obtain ⟨hname, hgen⟩ := h.topics _ _ htopic
    cases harrival with
    | answered => exact ⟨fun hf => (nomatch hf), fun hf => (nomatch hf)⟩
    | routed _ _ hseq hroute =>
      exact ⟨fun _ => hgen.trans (congrArg b.created hname.symm),
        fun _ => ⟨checkSequences_ok hseq, routeAll_length hroute⟩⟩
  | refused _ _ => exact h.move (current_answered ..)
  | turnedAway _ => exact h.move (current_answered ..)
  | rejected _ hst => exact (h.setProducer (h.admitted hst)).move (current_answered ..)
  | admitted hadm hst hds => exact h.admission hadm hst hds
  | appended hr hp _ _ => exact h.append hr hp
  | straggled hr hp _ =>
    exact (h.store _ _ _).move ⟨fun hf => (nomatch hf), fun hf => (nomatch hf)⟩
  | failed _ _ => exact h.move ⟨fun hf => (nomatch hf), fun hf => (nomatch hf)⟩
  | recorded hr hp _ hst => exact h.record hr hp hst
  | journaled hr hp _ => exact h.journals hr hp _

theorem candid_of_unmixed (h : b.Unmixed) : b.Candid :=
  h.keeps Candid.empty fun h hforgot hstep => h.step hforgot hstep

end Broker

/-! ### The answers -/

variable {out : List Produced}

/-- When a request is answered each of its records stands where the answer says. -/
theorem Broker.Candid.answered_stored {b b' : Broker} (h : b.Candid) {id : Nat}
    (hstep : b.step (.journal id) = some b') {r : Request} (hr : b'.requests[id]? = some r)
    (hout : r.phase = .answered (.ok out)) {i : Nat} {a : Produced} {x : IncomingRecord}
    (ha : out[i]? = some a) (hx : r.records[i]? = some x) :
    ∃ s, x.sequence = some s ∧
      ⟨a.offset, r.producer, s⟩ ∈ b'.logs (r.topic.name, r.topic.generation) a.partition ∧
      ∀ t, b'.topics r.topic.name = some t → t.generation = r.topic.generation := by
  cases Broker.step_took hstep with
  | @journaled _ r₀ ds written out' hr₀ hp hanswers =>
    obtain rfl := Option.some.inj ((Broker.getElem?_move_self hr₀).symm.trans hr)
    cases hout
    have hcur := h.requests r₀ (List.mem_of_getElem? hr₀)
    have hflight : r₀.phase.inFlight := by rw [hp]; rfl
    have hgen := hcur.generation hflight
    have htold := hcur.told hflight
    rw [hp] at htold
    obtain ⟨hseq, hdups, hwritten⟩ := htold
    -- The record, its decision and its answer stand at the same place of their lists.
    have hdec : (ds.map fun d => some d.sequence)[i]? = some x.sequence := by
      rw [← hseq, List.getElem?_map]
      exact congrArg (Option.map _) hx
    rw [List.getElem?_map] at hdec
    obtain ⟨d, hd, hs⟩ := Option.map_eq_some_iff.mp hdec
    obtain ⟨hpart, hfresh, hdup⟩ := (List.forall₂_iff_get.mp (answers_spec hanswers)).2 i
      (List.getElem?_eq_some_iff.mp hd).1 (List.getElem?_eq_some_iff.mp ha).1
    rw [List.get_eq_getElem, List.get_eq_getElem, (List.getElem?_eq_some_iff.mp hd).2,
      (List.getElem?_eq_some_iff.mp ha).2] at hpart hfresh hdup
    have hstored : b.Told r₀.producer r₀.topic.name d.partition d.sequence a.offset := by
      cases hcase : d.duplicate with
      | some o =>
        rw [hdup o hcase]
        exact hdups d (List.mem_of_getElem? hd) o hcase
      | none =>
        have hmem := hfresh hcase
        cases hw : written d.partition with
        | none =>
          rw [hw, Option.getD_none, List.zip_nil_right] at hmem
          exact absurd hmem List.not_mem_nil
        | some offsets =>
          rw [hw] at hmem
          exact hwritten d.partition offsets hw _ hmem
    rw [Told, ← hgen, Nat.add_sub_cancel, ← hpart] at hstored
    exact ⟨d.sequence, hs.symm, hstored,
      fun t ht => Nat.add_right_cancel ((h.topics _ t ht).2.trans hgen.symm)⟩

/-- When a request is answered, a record answered as a duplicate (or as fresh) stands at the
answered offset of the topic it was sent to, and no other topic has that topic's name. -/
theorem duplicate_is_stored {b b' : Broker} (h : b.Unmixed) {id : Nat}
    (hstep : b.step (.journal id) = some b') {r : Request} (hr : b'.requests[id]? = some r)
    {out : List Produced} (hout : r.phase = .answered (.ok out)) {i : Nat} {a : Produced}
    {x : IncomingRecord} (ha : out[i]? = some a) (hx : r.records[i]? = some x) :
    ∃ s, x.sequence = some s ∧
      ⟨a.offset, r.producer, s⟩ ∈ b'.logs (r.topic.name, r.topic.generation) a.partition ∧
      ∀ t, b'.topics r.topic.name = some t → t.generation = r.topic.generation :=
  (Broker.candid_of_unmixed h).answered_stored hstep hr hout ha hx

/-- The answer to a request that was not refused. -/
def Request.answer (r : Request) : Option (List Produced) :=
  match r.phase with
  | .answered (.ok out) => some out
  | _ => none

theorem Request.phase_of_answer {r : Request} (h : r.answer = some out) :
    r.phase = .answered (.ok out) := by
  unfold Request.answer at h
  split at h
  · rename_i hp
    cases h
    exact hp
  · cases h

/-- A run with no topic created is unmixed to its end. -/
theorem Broker.unmixed_run {b b' : Broker} {es : List Event} (h : b.Unmixed)
    (hes : ∀ e ∈ es, ∀ name n, e ≠ .createTopic name n) (hrun : b.run es = some b') : b'.Unmixed :=
  foldlM_keeps (fun e he _ _ h hs => h.step (fun name n heq => absurd heq (hes e he name n)) hs) h
    hrun

def oneRecord : List IncomingRecord := [⟨none, [1], some 0, some 0⟩]

/-- A record is produced, and its topic deleted and created again; the client then sends the
record to the new topic. -/
def recreated : List Event :=
  [.createTopic "t" 1, .arrive "t" "producer" "key" oneRecord, .admission 0 0, .append 0 0 [0],
    .record 0 0, .journal 0, .deleteTopic "t", .createTopic "t" 1,
    .arrive "t" "producer" "key" oneRecord, .admission 1 1, .record 1 1, .journal 1]

/-- The new topic answers it as a duplicate and holds no record at all. -/
theorem duplicate_of_deleted_topic : ∃ b, Broker.empty.run recreated = some b ∧
    b.requests[1]?.bind Request.answer = some [⟨0, 0, true⟩] ∧
    b.requests[1]?.map Request.topic = b.topics "t" ∧ b.topics "t" = some ⟨"t", 1, 1⟩ ∧
    b.logs ("t", 1) 0 = [] :=
  exists_of_any (by decide +kernel)

/-- A record is produced, and the windows are flushed up to the write of `producers.json`; after a
restart the record is sent again, up to the answer. -/
def resent : List Event :=
  [.arrive "t" "producer" "key" oneRecord, .admission 0 0, .append 0 0 [7], .record 0 0, .journal 0,
    .flush, .flush, .flush, .flush, .restart 1, .arrive "t" "producer" "key" oneRecord,
    .admission 0 1, .record 0 1]

/-- The empty broker with one topic of one partition. -/
def oneTopic : Broker :=
  { Broker.empty with
    topics := Function.update (fun _ => none) "t" (some ⟨"t", 0, 1⟩)
    created := Function.update (fun _ => 0) "t" 1 }

theorem Broker.forgotten_empty (name : String) : Broker.empty.Forgotten name := by
  refine ⟨fun reg hreg pid st hst => ?_, nofun, nofun⟩
  rw [List.mem_singleton.mp hreg] at hst
  cases hst

theorem oneTopic_unmixed : oneTopic.Unmixed :=
  Runs.refl.step (e := .createTopic "t" 1) (fun _ _ _ => Broker.forgotten_empty _) rfl

theorem resent_runs : (oneTopic.run resent).isSome = true := by decide +kernel

def resentBefore : Broker := (oneTopic.run resent).get resent_runs

theorem resent_answers : (resentBefore.step (.journal 0)).isSome = true := by decide +kernel

def resentAfter : Broker := (resentBefore.step (.journal 0)).get resent_answers

theorem resent_request : resentAfter.requests[0]?.isSome = true := by decide +kernel

def resentRequest : Request := resentAfter.requests[0]?.get resent_request

theorem duplicate_is_stored_resent : resentBefore.Unmixed ∧
    resentRequest.answer = some [⟨0, 7, true⟩] ∧
    (⟨7, "producer", 0⟩ : Stored) ∈ resentAfter.logs ("t", 0) 0 := by
  have hmixed : resentBefore.Unmixed :=
    Broker.unmixed_run oneTopic_unmixed (by simp [resent]) (Option.some_get resent_runs).symm
  have hanswer : resentRequest.answer = some [⟨0, 7, true⟩] := by decide +kernel
  have hrecord : resentRequest.records[0]? = some ⟨none, [1], some 0, some 0⟩ := by
    decide +kernel
  have htopic : resentRequest.topic = ⟨"t", 0, 1⟩ := by decide +kernel
  have hpid : resentRequest.producer = "producer" := by decide +kernel
  obtain ⟨s, hs, hmem, -⟩ := duplicate_is_stored hmixed (Option.some_get resent_answers).symm
    (Option.some_get resent_request).symm (Request.phase_of_answer hanswer) (i := 0) rfl hrecord
  cases hs
  refine ⟨hmixed, hanswer, ?_⟩
  rw [← hpid]
  rw [show resentRequest = resentAfter.requests[0]?.get resent_request from rfl] at htopic
  rwa [htopic] at hmem

end EventStream.Dataplane
