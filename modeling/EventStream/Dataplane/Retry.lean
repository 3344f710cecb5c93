import EventStream.Dataplane.Again
import EventStream.Dataplane.Truthful

/-! A request that was answered is sent again.

If it is routed as it was, every record is found in the windows, and the retry is answered with the
same offsets and writes nothing. That takes windows that still have all of the request's
sequences. -/
namespace EventStream.Dataplane

open EventStream.Producers

/-! ### Single steps -/

namespace Broker
variable {b b' : Broker} {id p : Nat} {q : Request} {ds : List Decision}
    {written : Nat → Option (List Nat)} {routed : List Nat} {sequences : List Int} {now : Int}
    {st : ProducerState}

theorem arrive_eq {topic : Topic} {name : String} (producer owner : String)
    {records : List IncomingRecord}
    (htopic : b.topics name = some topic)
    (h : Arrival topic (b.counters (topic.name, topic.generation)) records
      (.waiting routed sequences)) :
    ∃ counters, b.step (.arrive name producer owner records) = some
      { b with
        counters
        requests := b.requests ++
          [⟨topic, producer, owner, records, .waiting routed sequences⟩] } := by
  cases h with
  | routed hne hfew hseq hroute =>
    have harrive : (b.arrive topic records).1 = .waiting routed sequences := by
      unfold Broker.arrive
      dsimp only
      rw [if_neg (mt List.isEmpty_iff.mp hne), if_neg (Nat.not_lt.mpr hfew), hseq]
      dsimp only
      split
      · rename_i hrouted
        rw [hrouted] at hroute
        cases hroute
      · rename_i hrouted
        rw [hrouted] at hroute
        cases hroute
        rfl
    refine ⟨Function.update b.counters (topic.name, topic.generation)
      (b.arrive topic records).2, ?_⟩
    rw [← harrive]
    unfold step
    dsimp only
    rw [htopic]
    rfl

theorem admission_eq (h : b.Admissible id q routed sequences)
    (hst : admitState now (b.producers q.producer) q.producer q.owner = .ok st)
    (hds : decideAll q.producer q.topic.name st (fun _ => none) (routed.zip sequences) = .ok ds) :
    b.step (.admission id now) =
      some ((b.setProducer q.producer st).move id q (.writing ds fun _ => none)) := by
  unfold step
  dsimp only
  rw [h.at_, Option.bind_eq_bind, Option.bind_some, h.waits]
  dsimp only
  rw [h.free, if_neg Bool.false_ne_true, hst]
  dsimp only
  rw [hds]

section
variable (hq : b.requests[id]? = some q)
include hq

theorem record_eq (hp : q.phase = .writing ds written) (hall : ∀ p ∈ targets ds, written p ≠ none)
    (hst : b.producers q.producer = some st) (now : Int) :
    b.step (.record id now) =
      some ((b.setProducer q.producer (recordAll now q.topic.name st (entries ds written))).move
        id q (.recorded ds written)) := by
  unfold step
  dsimp only
  rw [hq, Option.bind_eq_bind, Option.bind_some, hp]
  dsimp only
  rw [if_pos hall, hst]
  rfl

theorem journal_eq {out : List Produced} (hp : q.phase = .recorded ds written)
    (hout : answers (fun p => (written p).getD []) ds = some out) :
    b.step (.journal id) =
      some ({ b with journal := b.journal ++ q.lines ds written }.move id q
        (.answered (.ok out))) := by
  unfold step
  dsimp only
  rw [hq, Option.bind_eq_bind, Option.bind_some, hp]
  dsimp only
  rw [hout]
  rfl

/-- Only a group of the request is written, or fails. -/
theorem append_target {offsets : List Nat} (hp : q.phase = .writing ds written)
    (hstep : b.step (.append id p offsets) = some b') : p ∈ targets ds := by
  unfold step at hstep
  dsimp only at hstep
  rw [hq, Option.bind_eq_bind, Option.bind_some, hp] at hstep
  exact (Option.ite_none_right_eq_some.mp hstep).1.1

theorem fail_target (hp : q.phase = .writing ds written) (hstep : b.step (.fail id p) = some b') :
    p ∈ targets ds := by
  unfold step at hstep
  dsimp only at hstep
  rw [hq, Option.bind_eq_bind, Option.bind_some, hp] at hstep
  exact (Option.ite_none_right_eq_some.mp hstep).1.1

end

/-- An admission moves a waiting request and touches no other producer. -/
theorem admission_moves (h : b.step (.admission id now) = some b') :
    ∃ q routed sequences phase, b.Admissible id q routed sequences ∧ b'.topics = b.topics ∧
      b'.requests = (b.move id q phase).requests ∧
      ∀ pid, pid ≠ q.producer → b'.producers pid = b.producers pid := by
  cases step_took h with
  | turnedAway hadm => exact ⟨_, _, _, _, hadm, rfl, rfl, fun _ _ => rfl⟩
  | rejected hadm _ =>
    exact ⟨_, _, _, _, hadm, rfl, rfl, fun _ hne => setProducer_of_ne b hne _⟩
  | admitted hadm _ _ =>
    exact ⟨_, _, _, _, hadm, rfl, rfl, fun _ hne => setProducer_of_ne b hne _⟩

end Broker

/-- The key that owns the producer is let in again. -/
theorem admitState_owned {st : ProducerState} {owner : String} (pid : String) (now : Int)
    (h : st.owner = owner) : ∃ st', admitState now (some st) pid owner = .ok st' ∧
      st'.owner = owner ∧ st'.partitions = st.partitions := by
  unfold admitState
  dsimp only [Option.getD_some]
  by_cases hclaim : st.owner = ""
  · rw [if_pos hclaim, if_neg (not_not.mpr rfl)]
    exact ⟨_, rfl, rfl, rfl⟩
  · rw [if_neg hclaim, if_neg (not_not.mpr h)]
    exact ⟨_, rfl, h, rfl⟩

/-! ### The retries of one request -/

/-- Where a retry can stand. -/
inductive Repeating (items : List (Nat × Int)) (out : List Produced) : Phase → Prop where
  | waiting {routed : List Nat} {sequences : List Int} : routed.zip sequences = items →
      Repeating items out (.waiting routed sequences)
  | writing : Repeating items out (.writing (repeated items out) fun _ => none)
  | recorded : Repeating items out (.recorded (repeated items out) fun _ => none)
  | answered : Repeating items out (.answered (.ok (asDuplicates out)))

/-- From the `n`-th on, the requests of the producer are `r` sent again, and no other is
admitted. The topic stays, and so does the broker. -/
def Broker.Resends (r : Request) (n : Nat) (b : Broker) : Event → Prop
  | .restart _ => False
  | .deleteTopic name => name ≠ r.topic.name
  | .deny _ producer _ _ _ => producer ≠ r.producer
  | .arrive name producer owner records => producer = r.producer →
      name = r.topic.name ∧ owner = r.owner ∧ records = r.records
  | .refuse id _ => n ≤ id → ∀ q ∈ b.requests[id]?, q.producer ≠ r.producer
  | .admission id _ => id < n → ∀ q ∈ b.requests[id]?, q.producer ≠ r.producer
  | _ => True

/-- A retry of `r` would come in and be routed to the partitions of the answer. -/
def Broker.Routes (r : Request) (out : List Produced) (b : Broker) : Prop :=
  Arrival r.topic (b.counters (r.topic.name, r.topic.generation)) r.records
    (.waiting (out.map (·.partition)) (r.records.filterMap (·.sequence)))

/-- Request `r` has been answered with `out` as one of the first `n`; the windows have all of its
records, and the requests of its producer since then are retries. -/
structure Broker.Retrying (r : Request) (out : List Produced) (n : Nat) (b : Broker) : Prop where
  kept : b.Kept
  topic : b.topics r.topic.name = some r.topic
  count : n ≤ b.requests.length
  state : ∃ st, b.producers r.producer = some st ∧ st.owner = r.owner ∧
    List.Forall₂ (Again fun p => st.partitions (r.topic.name, p)) (sentTo r.records out) out
  before : ∀ (i : Nat) (q : Request), b.requests[i]? = some q → q.producer = r.producer → i < n →
    q.phase.holding = false
  since : ∀ (i : Nat) (q : Request), b.requests[i]? = some q → q.producer = r.producer → n ≤ i →
    q.topic = r.topic ∧ q.owner = r.owner ∧ Repeating (sentTo r.records out) out q.phase

namespace Broker
variable {r q : Request} {out : List Produced} {n id i : Nat} {b b' : Broker} {routed : List Nat}
    {sequences : List Int} {records : List IncomingRecord}

section
variable (h : b.Retrying r out n)
include h

namespace Retrying

/-- A request moves on; if it is a retry it stands where a retry can. -/
theorem move (hkept : b'.Kept) {phase : Phase} (hq : b.requests[id]? = some q)
    (htopics : b'.topics = b.topics) (hreq : b'.requests = (b.move id q phase).requests)
    (hstate : ∃ st, b'.producers r.producer = some st ∧ st.owner = r.owner ∧
      List.Forall₂ (Again fun p => st.partitions (r.topic.name, p)) (sentTo r.records out) out)
    (hbefore : q.producer = r.producer → id < n → phase.holding = false)
    (hsince : q.producer = r.producer → n ≤ id → Repeating (sentTo r.records out) out phase) :
    b'.Retrying r out n where
  kept := hkept
  topic := htopics ▸ h.topic
  count := by
    rw [hreq]
    show n ≤ (b.requests.set id _).length
    rw [List.length_set]
    exact h.count
  state := hstate
  before i q' hi hp hlt := by
    rw [hreq] at hi
    rcases getElem?_move hi with ⟨rfl, rfl⟩ | ⟨-, hi⟩
    · exact hbefore hp hlt
    · exact h.before i q' hi hp hlt
  since i q' hi hp hle := by
    rw [hreq] at hi
    rcases getElem?_move hi with ⟨rfl, rfl⟩ | ⟨-, hi⟩
    · obtain ⟨ht, ho, -⟩ := h.since i q hq hp hle
      exact ⟨ht, ho, hsince hp hle⟩
    · exact h.since i q' hi hp hle

/-- A retry that holds the lock has nothing to write. -/
theorem decided (hq : b.requests[id]? = some q) (hpid : q.producer = r.producer)
    {ds : List Decision} {written : Nat → Option (List Nat)}
    (hp : q.phase = .writing ds written ∨ q.phase = .recorded ds written) :
    n ≤ id ∧ q.topic = r.topic ∧ ds = repeated (sentTo r.records out) out ∧
      written = fun _ => none := by
  have hle : n ≤ id := by
    by_contra hlt
    have := h.before id q hq hpid (by omega)
    rcases hp with hp | hp <;> rw [hp] at this <;> cases this
  obtain ⟨ht, -, hrep⟩ := h.since id q hq hpid hle
  rcases hp with hp | hp <;> rw [hp] at hrep <;> cases hrep <;> exact ⟨hle, ht, rfl, rfl⟩

/-- What has a group to write is of another producer. -/
theorem not_of_target (hq : b.requests[id]? = some q) {ds : List Decision}
    {written : Nat → Option (List Nat)} (hp : q.phase = .writing ds written) {p : Nat}
    (htarget : p ∈ targets ds) : q.producer ≠ r.producer := by
  intro hpid
  obtain ⟨-, -, rfl, -⟩ := h.decided hq hpid (.inl hp)
  rw [targets_repeated] at htarget
  exact absurd htarget List.not_mem_nil

/-- A retry is admitted with all records decided as duplicates. -/
theorem admits (hadm : b.Admissible id q routed sequences) (hpid : q.producer = r.producer)
    (hle : n ≤ id) (now : Int) :
    ∃ b', b.step (.admission id now) = some b' ∧ b'.topics = b.topics ∧ b'.logs = b.logs ∧
      b'.requests = (b.move id q
        (.writing (repeated (sentTo r.records out) out) fun _ => none)).requests ∧
      b'.Retrying r out n := by
  obtain ⟨ht, ho, hrep⟩ := h.since id q hadm.at_ hpid hle
  rw [hadm.waits] at hrep
  cases hrep with
  | waiting hitems =>
    obtain ⟨st, hst, hown, hagain⟩ := h.state
    obtain ⟨st', hst', hown', hsame⟩ := admitState_owned q.producer now hown
    rw [← hst, ← hpid, ← ho] at hst'
    have hagain' : List.Forall₂ (Again fun p => st'.partitions (r.topic.name, p))
        (sentTo r.records out) out := by
      rw [hsame]
      exact hagain
    have hds : decideAll q.producer r.topic.name st' (fun _ => none) (sentTo r.records out) =
        .ok (repeated (sentTo r.records out) out) := decideAll_again hagain'
    rw [← hitems, ← ht] at hds
    have hstep := admission_eq hadm hst' hds
    rw [hitems] at hstep
    have hkept := h.kept.step (e := .admission id now) nofun hstep
    refine ⟨_, hstep, rfl, rfl, rfl, h.move hkept hadm.at_ rfl rfl ?_
      (fun _ hlt => absurd hle (by omega)) fun _ _ => .writing⟩
    exact ⟨st', by rw [← hpid]; exact setProducer_self .., hown', hagain'⟩

/-- A request comes in; if it is of the producer it is a retry. -/
theorem arrive (hkept : b'.Kept) (htopics : b'.topics = b.topics)
    (hproducers : b'.producers = b.producers) (hreq : b'.requests = b.requests ++ [q])
    (hnew : q.producer = r.producer → q.topic = r.topic ∧ q.owner = r.owner ∧
      Repeating (sentTo r.records out) out q.phase) : b'.Retrying r out n := by
  refine ⟨hkept, htopics ▸ h.topic, ?_, hproducers ▸ h.state, fun i q hi hp hlt => ?_,
    fun i q hi hp hle => ?_⟩
  · rw [hreq, List.length_append]
    exact Nat.le_trans h.count (Nat.le_add_right _ _)
  · rw [hreq] at hi
    rcases getElem?_concat_cases hi with ⟨rfl, -⟩ | hi
    · exact absurd h.count (by omega)
    · exact h.before i q hi hp hlt
  · rw [hreq] at hi
    rcases getElem?_concat_cases hi with ⟨-, rfl⟩ | hi
    · exact hnew hp
    · exact h.since i q hi hp hle

theorem step {e : Event} (hevent : b.Resends r n e)
    (hroute : ∀ name owner records, e = .arrive name r.producer owner records → b.Routes r out)
    (hstep : b.step e = some b') : b'.Retrying r out n := by
  have hkept := h.kept.step (fun now he => by subst he; exact hevent.elim) hstep
  cases e with
  | createTopic name k =>
    cases step_took hstep with
    | created hfree =>
      have hne : r.topic.name ≠ name := by
        rintro rfl
        exact nomatch hfree.symm.trans h.topic
      exact ⟨hkept, (Function.update_of_ne hne ..).trans h.topic, h.count, h.state, h.before,
        h.since⟩
  | deleteTopic name =>
    cases step_took hstep with
    | deleted =>
      exact ⟨hkept, (Function.update_of_ne (Ne.symm hevent) ..).trans h.topic, h.count, h.state,
        h.before, h.since⟩
  | restart now => exact hevent.elim
  | flush =>
    cases step_took hstep with
    | flushed => exact ⟨hkept, h.topic, h.count, h.state, h.before, h.since⟩
  | deny name producer owner records e =>
    cases step_took hstep with
    | denied => exact h.arrive hkept rfl rfl rfl fun hpid => absurd hpid hevent
  | arrive name producer owner records =>
    by_cases hpid : producer = r.producer
    · subst hpid
      obtain ⟨rfl, rfl, rfl⟩ := hevent rfl
      obtain ⟨counters, harrive⟩ := arrive_eq r.producer r.owner h.topic (hroute _ _ _ rfl)
      obtain rfl := Option.some.inj (harrive.symm.trans hstep)
      exact h.arrive hkept rfl rfl rfl fun _ => ⟨rfl, rfl, .waiting rfl⟩
    · cases step_took hstep with
      | arrived => exact h.arrive hkept rfl rfl rfl fun hc => absurd hc hpid
  | refuse id e =>
    cases step_took hstep with
    | refused hq _ =>
      exact h.move hkept hq rfl rfl h.state (fun _ _ => rfl)
        fun hpid hle => absurd hpid (hevent hle _ hq)
  | admission id now =>
    obtain ⟨q, routed, sequences, phase, hadm, htopics, hreq, hproducers⟩ := admission_moves hstep
    by_cases hpid : q.producer = r.producer
    · have hle : n ≤ id := by
        by_contra hlt
        exact hevent (by omega) q hadm.at_ hpid
      obtain ⟨b₁, hstep₁, -, -, -, hretrying⟩ := h.admits hadm hpid hle now
      obtain rfl := Option.some.inj (hstep.symm.trans hstep₁)
      exact hretrying
    · exact h.move hkept hadm.at_ htopics hreq (by rw [hproducers _ (Ne.symm hpid)]; exact h.state)
        (fun hc => absurd hc hpid) fun hc => absurd hc hpid
  | append id p offsets =>
    cases step_took hstep with
    | @appended _ _ q _ ds written hq hp _ _ =>
      have hne := h.not_of_target hq hp (append_target hq hp hstep)
      exact h.move hkept hq rfl rfl h.state (fun hc => absurd hc hne) fun hc => absurd hc hne
    | straggled hq hp _ =>
      refine h.move hkept hq rfl rfl h.state (fun _ _ => rfl) fun hpid hle => ?_
      obtain ⟨-, -, hrep⟩ := h.since _ _ hq hpid hle
      rw [hp] at hrep
      cases hrep
  | fail id p =>
    cases step_took hstep with
    | @failed _ _ q ds written hq hp =>
      have hne := h.not_of_target hq hp (fail_target hq hp hstep)
      exact h.move hkept hq rfl rfl h.state (fun hc => absurd hc hne) fun hc => absurd hc hne
  | record id now =>
    cases step_took hstep with
    | @recorded _ q _ ds written st hq hp _ hst =>
      by_cases hpid : q.producer = r.producer
      · obtain ⟨hle, -, rfl, rfl⟩ := h.decided hq hpid (.inl hp)
        refine h.move hkept hq rfl rfl ?_ (fun _ hlt => absurd hle (by omega)) fun _ _ => .recorded
        obtain ⟨st', hst', hown, hagain⟩ := h.state
        rw [hpid] at hst
        obtain rfl := Option.some.inj (hst.symm.trans hst')
        refine ⟨st, ?_, hown, hagain⟩
        rw [entries_repeated, ← hpid]
        exact setProducer_self ..
      · refine h.move hkept hq rfl rfl ?_ (fun hc => absurd hc hpid) fun hc => absurd hc hpid
        obtain ⟨st', hst', hown, hagain⟩ := h.state
        exact ⟨st', (setProducer_of_ne b (Ne.symm hpid) _).trans hst', hown, hagain⟩
  | journal id =>
    cases step_took hstep with
    | @journaled _ q ds written out' hq hp hout =>
      refine h.move hkept hq rfl rfl h.state (fun _ _ => rfl) fun hpid hle => ?_
      obtain ⟨-, -, rfl, rfl⟩ := h.decided hq hpid (.inr hp)
      obtain ⟨st, -, -, hagain⟩ := h.state
      obtain rfl := Option.some.inj ((answers_repeated hagain _).symm.trans hout)
      exact .answered

end Retrying

end

/-! ### Every retry is answered -/

/-- A retry that holds the lock can go on to its answer, and touches nothing else. -/
theorem Retrying.finish (h : b.Retrying r out n) (hq : b.requests[i]? = some q)
    (hpid : q.producer = r.producer) (hhold : q.phase.holding) :
    ∃ es b', b.run es = some b' ∧ b'.Retrying r out n ∧ b'.logs = b.logs ∧
      b'.requests = (b.move i q (.answered (.ok (asDuplicates out)))).requests := by
  obtain ⟨st, hst, -, hagain⟩ := h.state
  -- the last step: the answer of a request that has recorded
  have hanswer : ∀ {b : Broker} {q : Request}, b.Retrying r out n → b.requests[i]? = some q →
      q.producer = r.producer →
      q.phase = .recorded (repeated (sentTo r.records out) out) (fun _ => none) →
      ∃ b', b.step (.journal i) = some b' ∧ b'.Retrying r out n ∧ b'.logs = b.logs ∧
        b'.requests = (b.move i q (.answered (.ok (asDuplicates out)))).requests := by
    intro b q h hq hpid hp
    have hstep := journal_eq hq hp (answers_repeated hagain _)
    exact ⟨_, hstep, h.step (e := .journal i) trivial nofun hstep, rfl, rfl⟩
  cases hp : q.phase with
  | waiting | failed | answered =>
    rw [hp] at hhold
    cases hhold
  | recorded ds written =>
    obtain ⟨-, -, rfl, rfl⟩ := h.decided hq hpid (.inr hp)
    obtain ⟨b', hstep, hretrying, hlogs, hreq⟩ := hanswer h hq hpid hp
    refine ⟨[.journal i], b', ?_, hretrying, hlogs, hreq⟩
    rw [run, List.foldlM_cons, hstep]
    rfl
  | writing ds written =>
    obtain ⟨-, -, rfl, rfl⟩ := h.decided hq hpid (.inl hp)
    have hrecord := record_eq hq hp
      (fun p hp => absurd (targets_repeated _ _ ▸ hp) List.not_mem_nil) (hpid ▸ hst) 0
    have hretrying := h.step (e := .record i 0) trivial nofun hrecord
    obtain ⟨b', hstep, hretrying', hlogs, hreq⟩ :=
      hanswer hretrying (getElem?_move_self hq) hpid rfl
    refine ⟨[.record i 0, .journal i], b', ?_, hretrying', hlogs, ?_⟩
    · rw [run, List.foldlM_cons, hrecord, Option.bind_eq_bind, Option.bind_some,
        List.foldlM_cons, hstep]
      rfl
    · rw [hreq]
      exact List.set_set ..

/-- A waiting retry can go on to its answer once the lock is free. -/
theorem Retrying.serve (h : b.Retrying r out n)
    (hadm : b.Admissible i q routed sequences) (hpid : q.producer = r.producer) (hle : n ≤ i) :
    ∃ es b' q', b.run es = some b' ∧ b'.requests[i]? = some q' ∧
      q'.phase = .answered (.ok (asDuplicates out)) ∧ b'.logs = b.logs := by
  obtain ⟨b₁, hstep, -, hlogs₁, hreq₁, hretrying⟩ := h.admits hadm hpid hle 0
  have hq₁ : b₁.requests[i]? = some { q with
      phase := .writing (repeated (sentTo r.records out) out) fun _ => none } := by
    rw [hreq₁]
    exact getElem?_move_self hadm.at_
  obtain ⟨es, b', hrun, -, hlogs, hreq⟩ := hretrying.finish hq₁ hpid rfl
  refine ⟨.admission i 0 :: es, b', _, ?_, by rw [hreq]; exact getElem?_move_self hq₁, rfl,
    hlogs.trans hlogs₁⟩
  rw [run, List.foldlM_cons, hstep, Option.bind_eq_bind, Option.bind_some]
  exact hrun

theorem exists_holder {pid : String} (h : b.locked pid = true) :
    ∃ (j : Nat) (q : Request), b.requests[j]? = some q ∧ q.producer = pid ∧ q.phase.holding := by
  obtain ⟨q, hmem, hq⟩ := List.any_eq_true.mp h
  obtain ⟨j, hj⟩ := List.getElem?_of_mem hmem
  rw [Bool.and_eq_true, decide_eq_true_eq] at hq
  exact ⟨j, q, hj, hq⟩

/-- Every retry can go on to its answer: the one that holds the lock first. -/
theorem Retrying.answers (h : b.Retrying r out n) (hq : b.requests[i]? = some q)
    (hpid : q.producer = r.producer) (hle : n ≤ i) :
    ∃ es b' q', b.run es = some b' ∧ b'.requests[i]? = some q' ∧
      q'.phase = .answered (.ok (asDuplicates out)) ∧ b'.logs = b.logs := by
  obtain ⟨-, -, hrep⟩ := h.since i q hq hpid hle
  cases hp : q.phase with
  | failed ds written lost =>
    rw [hp] at hrep
    cases hrep
  | answered result =>
    rw [hp] at hrep
    cases hrep
    exact ⟨[], b, q, rfl, hq, hp, rfl⟩
  | writing ds written | recorded ds written =>
    obtain ⟨es, b', hrun, -, hlogs, hreq⟩ := h.finish hq hpid (by rw [hp]; rfl)
    exact ⟨es, b', _, hrun, by rw [hreq]; exact getElem?_move_self hq, rfl, hlogs⟩
  | waiting routed sequences =>
    cases hlocked : b.locked q.producer with
    | false => exact h.serve ⟨hq, hp, hlocked⟩ hpid hle
    | true =>
      obtain ⟨j, qj, hj, hpidj, hhold⟩ := exists_holder hlocked
      have hne : i ≠ j := by
        rintro rfl
        obtain rfl := Option.some.inj (hq.symm.trans hj)
        rw [hp] at hhold
        cases hhold
      obtain ⟨es₁, b₁, hrun₁, hretrying, hlogs₁, hreq₁⟩ :=
        h.finish hj (hpidj.trans hpid) hhold
      have hq₁ : b₁.requests[i]? = some q := by
        rw [hreq₁, getElem?_move_of_ne hne]
        exact hq
      -- the lock is free: the holder was the only one
      have hfree : b₁.locked q.producer = false := by
        refine Bool.eq_false_iff.mpr fun hl => ?_
        obtain ⟨k, qk, hk, hpidk, hholdk⟩ := exists_holder hl
        rw [hreq₁] at hk
        rcases getElem?_move hk with ⟨rfl, rfl⟩ | ⟨hkj, hk⟩
        · cases hholdk
        · exact hkj (h.kept.alone k j qk qj hk hj (hpidk.trans hpidj.symm) hholdk hhold)
      obtain ⟨es, b', q', hrun, hq', hp', hlogs⟩ :=
        hretrying.serve ⟨hq₁, hp, hfree⟩ hpid hle
      refine ⟨es₁ ++ es, b', q', ?_, hq', hp', hlogs.trans hlogs₁⟩
      rw [run, List.foldlM_append]
      exact Option.bind_eq_some_iff.mpr ⟨b₁, hrun₁, hrun⟩

/-- A retry writes nothing. -/
theorem Retrying.append_none (h : b.Retrying r out n) (hq : b.requests[i]? = some q)
    (hpid : q.producer = r.producer) (hle : n ≤ i) (p : Nat) (offsets : List Nat) :
    b.step (.append i p offsets) = none := by
  refine Option.eq_none_iff_forall_ne_some.mpr fun b' hstep => ?_
  obtain ⟨-, -, hrep⟩ := h.since i q hq hpid hle
  cases step_took hstep with
  | appended hq' hp _ _ =>
    obtain rfl := Option.some.inj (hq.symm.trans hq')
    obtain ⟨-, -, rfl, -⟩ := h.decided hq hpid (.inl hp)
    have := append_target hq hp hstep
    rw [targets_repeated] at this
    exact absurd this List.not_mem_nil
  | straggled hq' hp _ =>
    obtain rfl := Option.some.inj (hq.symm.trans hq')
    rw [hp] at hrep
    cases hrep

/-! ### After the first answer -/

theorem map_eq_of_forall₂ {α β γ : Type} {R : α → β → Prop} {f : α → γ} {g : β → γ} {l : List α}
    {m : List β} (h : List.Forall₂ R l m) (hfg : ∀ a b, R a b → f a = g b) : l.map f = m.map g := by
  induction h with
  | nil => rfl
  | cons hab _ ih => rw [List.map_cons, List.map_cons, hfg _ _ hab, ih]

/-- When a request is answered the windows have all of it, if they have room for it. -/
theorem retrying_of_answer {b₀ b₁ : Broker} (hkept : b₀.Kept) (howned : b₀.Owned)
    (hjournal : b₀.step (.journal id) = some b₁) (hr : b₁.requests[id]? = some r)
    (hout : r.phase = .answered (.ok out)) (hmax : ∀ x ∈ r.records, ∀ s ∈ x.sequence, s < i64Max)
    (hnarrow : Narrow (sentTo r.records out)) (htopic : b₁.topics r.topic.name = some r.topic) :
    b₁.Retrying r out b₁.requests.length ∧
      ∃ counter, Arrival r.topic counter r.records
        (.waiting (out.map (·.partition)) (r.records.filterMap (·.sequence))) := by
  have hkept₁ := hkept.step (e := .journal id) nofun hjournal
  cases step_took hjournal with
  | @journaled _ r₀ ds written out' hr₀ hp hanswers =>
    obtain rfl := Option.some.inj ((getElem?_move_self hr₀).symm.trans hr)
    cases hout
    have hhold : r₀.phase.holding := by rw [hp]; rfl
    have hgoes := hkept.goes id r₀ hr₀
    unfold Goes at hgoes
    rw [hp] at hgoes
    obtain ⟨items, ⟨counter, routed, sequences, harrival, rfl⟩, old, history, hchained, hold, hds,
      hwindow⟩ := hgoes
    obtain ⟨st, hst, hown⟩ := howned id r₀ hr₀ hhold
    have hsequences := harrival.sequences_eq
    -- the answers name the partitions the records were routed to
    have hparts : out.map (·.partition) = routed := by
      have hmap : ds.map (·.partition) = out.map (·.partition) :=
        map_eq_of_forall₂ (answers_spec hanswers) fun d a hd => hd.1.symm
      calc out.map (·.partition) = (ds.map fun d => (d.partition, d.sequence)).map Prod.fst := by
            rw [← hmap, List.map_map]
            rfl
        _ = routed := by rw [decideAll_items hds, harrival.map_fst_zip]
    rw [← hparts, ← hsequences] at hds harrival
    have hsmall : ∀ x ∈ sentTo r₀.records out, x.2 < i64Max := by
      intro x hx
      obtain ⟨y, hy, hs⟩ := List.mem_filterMap.mp (List.of_mem_zip hx).2
      exact hmax y hy _ hs
    have hagain : List.Forall₂ (Again fun p => st.partitions (r₀.topic.name, p))
        (sentTo r₀.records out) out := by
      refine again_of_decided hchained hold hds hanswers hsmall hnarrow fun p => ?_
      have hw := hwindow p
      rwa [window, hst] at hw
    refine ⟨⟨hkept₁, htopic, Nat.le_refl _, ⟨st, hst, hown, hagain⟩, fun i q hi hpid _ => ?_,
      fun i q hi _ hle => ?_⟩, counter, harrival⟩
    · rcases getElem?_move hi with ⟨-, rfl⟩ | ⟨hne', hi⟩
      · rfl
      · exact Broker.Alone.others hkept.alone hr₀ hhold hne' hi hpid
    · exact absurd (List.getElem?_eq_some_iff.mp hi).1 (Nat.not_lt.mpr hle)

end Broker

/-- Keys and explicit partitions decide the partition, not the counter. -/
theorem routeAll_keyed {topic : Topic} {records : List IncomingRecord}
    (hkeyed : ∀ x ∈ records, x.key ≠ none ∨ x.partition ≠ none) (counter c : Nat) :
    (topic.routeAll c records).1 = (topic.routeAll counter records).1 := by
  induction records generalizing counter c with
  | nil => rfl
  | cons x records ih =>
    have hx := hkeyed x List.mem_cons_self
    have hrest := ih (fun y hy => hkeyed y (List.mem_cons_of_mem x hy)) counter c
    unfold Topic.routeAll Topic.route
    cases hpart : x.partition with
    | some hint =>
      by_cases hbad : topic.partitions ≤ hint
      · simp only [if_pos hbad]
      · simp only [if_neg hbad]
        exact congrArg (Except.map _) hrest
    | none =>
      obtain ⟨k, hk⟩ := Option.ne_none_iff_exists'.mp (hx.resolve_right (not_not.mpr hpart))
      rw [hk]
      exact congrArg (Except.map _) hrest

/-! ### Retrying a request -/

/-- A run with no restart. -/
theorem Broker.reopens_of_run {b b' : Broker} {es : List Event}
    (hes : ∀ e ∈ es, ∀ now, e ≠ .restart now) (hrun : b.run es = some b') :
    Runs Broker.step Broker.Reopens b b' :=
  foldlM_keeps (P := Runs Broker.step Broker.Reopens b)
    (fun e he _ _ h hs => h.step (fun now heq => absurd heq (hes e he now)) hs) .refl hrun

/-- A request with a record for each of two partitions is answered. -/
def writtenOnce : List Event :=
  [.createTopic "t" 2, .arrive "t" "producer" "key" splitRequest, .admission 0 0, .append 0 0 [7],
    .append 0 1 [9], .record 0 0, .journal 0]

theorem writtenOnce_runs : (Broker.empty.run writtenOnce).isSome = true := by decide +kernel

def written : Broker := (Broker.empty.run writtenOnce).get writtenOnce_runs

/-- The journal has one line for each partition, and nothing was flushed. -/
theorem written_follows : written.Follows := by
  have hlines : written.rotated ++ written.journal =
      [⟨"producer", "key", "t", 0, 0, 7⟩, ⟨"producer", "key", "t", 1, 0, 9⟩] := by decide +kernel
  have hsnapshot : written.snapshot.getD .empty = .empty := rfl
  have hsingle (o : Nat) : Chained [(0, o)] :=
    have hone : Consecutive 0 (List.zip [0] [o]) :=
      consecutive_zip (by rintro (_ | i) s hs <;> cases hs; rfl)
    Chained.nil.append hone fun _ _ hno => nomatch hno
  intro pid t p
  refine ⟨[], ?_, by rw [hsnapshot]; rfl⟩
  rw [hlines]
  by_cases hkey : pid = "producer" ∧ t = "t"
  · obtain ⟨rfl, rfl⟩ := hkey
    rcases p with - | - | p
    · exact hsingle 7
    · exact hsingle 9
    · exact Chained.nil
  · have hnone : pairs [⟨"producer", "key", "t", 0, 0, 7⟩,
        ⟨"producer", "key", "t", 1, 0, 9⟩] pid t p = [] := by
      refine List.map_eq_nil_iff.mpr (List.filter_eq_nil_iff.mpr fun e he => ?_)
      rw [decide_eq_true_eq]
      rintro ⟨rfl, rfl, -⟩
      rcases List.mem_pair.mp he with rfl | rfl <;> exact hkey ⟨rfl, rfl⟩
    rw [hnone]
    exact Chained.nil

/-- Both records, and one more between them. -/
def longerRequest : List IncomingRecord :=
  [⟨none, [1], some 0, some 0⟩, ⟨none, [3], some 0, some 1⟩, ⟨none, [2], some 1, some 0⟩]

/-- After a restart they are sent, with what is new written and recorded. -/
def writtenMore : List Event :=
  [.arrive "t" "producer" "key" longerRequest, .admission 0 1, .append 0 0 [8], .record 0 1]

theorem restarts : (written.step (.restart 1)).isSome = true := by decide +kernel

def restarted : Broker := (written.step (.restart 1)).get restarts

theorem writtenMore_runs : (restarted.run writtenMore).isSome = true := by decide +kernel

def onceBefore : Broker := (restarted.run writtenMore).get writtenMore_runs

theorem once_answers : (onceBefore.step (.journal 0)).isSome = true := by decide +kernel

def onceAfter : Broker := (onceBefore.step (.journal 0)).get once_answers

theorem once_request : onceAfter.requests[0]?.isSome = true := by decide +kernel

def onceRequest : Request := onceAfter.requests[0]?.get once_request

theorem sentAgain_runs :
    (onceAfter.step (.arrive "t" "producer" "key" longerRequest)).isSome = true := by
  decide +kernel

/-- The broker when the request has come in again. -/
def sentAgain : Broker :=
  (onceAfter.step (.arrive "t" "producer" "key" longerRequest)).get sentAgain_runs

theorem second_request : sentAgain.requests[1]?.isSome = true := by decide +kernel

def secondRequest : Request := sentAgain.requests[1]?.get second_request

instance (items : List (Nat × Int)) : Decidable (Narrow items) :=
  inferInstanceAs (Decidable (∀ x ∈ items, ∀ y ∈ items, x.1 = y.1 → y.2 < x.2 + windowSize))

/-- One more record for a partition than its window remembers. -/
def tooMany : List IncomingRecord :=
  (List.range (windowSize + 1)).map fun s => ⟨none, [], some 0, some s⟩

def sentTooMany : List Event :=
  [.createTopic "t" 1, .arrive "t" "producer" "key" tooMany, .admission 0 0,
    .append 0 0 (List.range (windowSize + 1)), .record 0 0, .journal 0,
    .arrive "t" "producer" "key" tooMany, .admission 1 1]

/-- The error of a request that was refused. -/
def Request.refusal (r : Request) : Option DataError :=
  match r.phase with
  | .answered (.error e) => some e
  | _ => none

end EventStream.Dataplane
