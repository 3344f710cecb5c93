import EventStream.Dataplane.Idempotence
import EventStream.Producers.History

/-! What the windows show of the past.

Whatever requests fail or interleave, each window shows the end of a history of sequences that were
accepted one by one: a request enters what it was decided to write, and only while it holds the
lock. A restart keeps this if the journals go on where `producers.json` ends. -/
namespace EventStream.Dataplane

open EventStream.Producers

/-! ### The records of one partition -/

/-- Sequences and offsets of what a request wrote to a partition. -/
def ofPartition (xs : List (Nat × Int × Nat)) (p : Nat) : List (Int × Nat) :=
  (xs.filter fun x => x.1 = p).map (·.2)

theorem flatMap_ite_eq {α β : Type} [DecidableEq α] {l : List α} (hl : l.Nodup) (a : α)
    (f : α → List β) :
    (l.flatMap fun x => if x = a then f x else []) = if a ∈ l then f a else [] := by
  induction l with
  | nil => rfl
  | cons x l ih =>
    obtain ⟨hx, hl⟩ := List.nodup_cons.mp hl
    rw [List.flatMap_cons, ih hl]
    by_cases hxa : x = a
    · subst hxa
      rw [if_pos rfl, if_neg hx, if_pos List.mem_cons_self, List.append_nil]
    · have : a ∈ x :: l ↔ a ∈ l := by simp [Ne.symm hxa]
      rw [if_neg hxa, List.nil_append, if_congr this rfl rfl]

theorem targets_nodup (ds : List Decision) : (targets ds).Nodup :=
  (List.perm_insertionSort _ _).nodup_iff.mpr (List.nodup_dedup _)

theorem ofPartition_entries (ds : List Decision) (written : Nat → Option (List Nat)) (p : Nat) :
    ofPartition (entries ds written) p = (fresh ds p).zip ((written p).getD []) := by
  have hpart : ∀ q, ((((fresh ds q).zip ((written q).getD [])).map fun x => (q, x.1, x.2)).filter
      fun x => x.1 = p).map (·.2) =
      if q = p then (fresh ds q).zip ((written q).getD []) else [] := by
    intro q
    rw [List.filter_map, List.map_map]
    by_cases hq : q = p
    · simp [Function.comp_def, hq]
    · simp [Function.comp_def, hq]
  unfold ofPartition entries
  rw [List.filter_flatMap, List.map_flatMap]
  simp only [hpart]
  rw [flatMap_ite_eq (targets_nodup ds) p fun q => (fresh ds q).zip ((written q).getD [])]
  split
  · rfl
  · rename_i hnot
    have hnil : fresh ds p = [] :=
      List.eq_nil_iff_forall_not_mem.mpr fun s hs => hnot (mem_targets hs)
    rw [hnil, List.zip_nil_left]

theorem recordAll_partitions (now : Int) (topic : String) (st : ProducerState)
    (xs : List (Nat × Int × Nat)) (t : String) (p : Nat) :
    (recordAll now topic st xs).partitions (t, p) =
      if t = topic then recorded (st.partitions (t, p)) (ofPartition xs p)
      else st.partitions (t, p) := by
  induction xs generalizing st with
  | nil =>
    show st.partitions (t, p) = if t = topic then st.partitions (t, p) else st.partitions (t, p)
    rw [ite_self]
  | cons x xs ih =>
    obtain ⟨q, s, o⟩ := x
    have hcons : recordAll now topic st ((q, s, o) :: xs) =
        recordAll now topic (st.record now topic q s o) xs := rfl
    rw [hcons, ih]
    by_cases ht : t = topic
    · subst ht
      rw [if_pos rfl, if_pos rfl]
      by_cases hq : q = p
      · subst hq
        have : ofPartition ((q, s, o) :: xs) q = (s, o) :: ofPartition xs q := by
          simp [ofPartition]
        rw [ProducerState.record_self, this]
        rfl
      · have : ofPartition ((q, s, o) :: xs) p = ofPartition xs p := by
          simp [ofPartition, hq]
        rw [ProducerState.record_of_ne now st fun heq => hq (Prod.mk.inj heq).2.symm, this]
    · rw [if_neg ht, if_neg ht,
        ProducerState.record_of_ne now st fun heq => ht (Prod.mk.inj heq).1]

/-! ### Deciding against windows -/

/-- A producer with these windows; nothing else of it is looked at by `check`. -/
def seen (windows : String → Nat → Option PartitionWindow) : ProducerState :=
  ⟨"", 0, fun key => windows key.1 key.2⟩

variable {pid topic : String} {st : ProducerState}

theorem decideAll_congr {st' : ProducerState}
    (h : ∀ p, st.partitions (topic, p) = st'.partitions (topic, p)) (tentative : Nat → Option Int)
    (items : List (Nat × Int)) :
    decideAll pid topic st tentative items = decideAll pid topic st' tentative items := by
  have hcheck : ∀ p s, st.check topic p s = st'.check topic p s := by
    intro p s
    unfold ProducerState.check
    rw [h]
  induction items generalizing tentative with
  | nil => rfl
  | cons x items ih =>
    unfold decideAll
    simp only [hcheck, ih]

/-- What a request writes to a partition counts up, from a sequence the window accepts or from
behind what the request has accepted before. -/
theorem decideAll_run {tentative : Nat → Option Int} {items : List (Nat × Int)} {ds : List Decision}
    (h : decideAll pid topic st tentative items = .ok ds) (p : Nat) :
    ∃ s₀ : Int, (∀ (i : Nat) (s : Int), (fresh ds p)[i]? = some s → s = s₀ + i) ∧
      (∀ prev, tentative p = some prev → s₀ = prev + 1) ∧
      (tentative p = none → fresh ds p ≠ [] → st.check topic p s₀ = .accept) := by
  induction items generalizing tentative ds with
  | nil =>
    cases h
    exact ⟨(tentative p).elim 0 (· + 1), nofun, fun prev hp => by rw [hp]; rfl,
      fun _ hne => absurd rfl hne⟩
  | cons item rest ih =>
    obtain ⟨q, seq⟩ := item
    rcases decideAll_cons h with ⟨ds', rfl, hrest, hwhy⟩ | ⟨ds', offset, rfl, hrest, -⟩
    · obtain ⟨s₁, hrun, hprev, hnone⟩ := ih hrest
      by_cases hq : q = p
      · subst hq
        have hs₁ : s₁ = seq + 1 := hprev seq (Function.update_self ..)
        refine ⟨seq, fun i s hs => ?_, fun prev hp => ?_, fun hn _ => ?_⟩
        · rw [fresh_cons_self] at hs
          cases i with
          | zero =>
            cases hs
            exact (Int.add_zero seq).symm
          | succ i =>
            have := hrun i s hs
            push_cast
            omega
        · rcases hwhy with hp' | ⟨hn, -⟩
          · have := Option.some.inj (hp'.symm.trans hp)
            omega
          · exact nomatch hn.symm.trans hp
        · rcases hwhy with hp' | ⟨-, hacc⟩
          · exact nomatch hp'.symm.trans hn
          · exact hacc
      · rw [fresh_cons_of_ne fun hc => hq hc.1]
        rw [Function.update_of_ne (Ne.symm hq)] at hprev hnone
        exact ⟨s₁, hrun, hprev, hnone⟩
    · rw [fresh_cons_of_ne fun hc => Option.some_ne_none offset hc.2]
      exact ih hrest

theorem consecutive_zip {s₀ : Int} {sequences : List Int} {offsets : List Nat}
    (h : ∀ (i : Nat) (s : Int), sequences[i]? = some s → s = s₀ + i) :
    Consecutive s₀ (sequences.zip offsets) := by
  intro i x hx
  obtain ⟨s, o⟩ := x
  exact h i s (List.getElem?_zip_eq_some.mp hx).1

/-! ### The invariant -/

/-- The items of a request: its records as they were routed when it came, with their sequences. -/
def Request.Came (r : Request) (items : List (Nat × Int)) : Prop :=
  ∃ counter routed sequences, Arrival r.topic counter r.records (.waiting routed sequences) ∧
    items = routed.zip sequences

namespace Broker

/-- What a request goes by: the windows it was decided against, until it records. -/
def Goes (b : Broker) (r : Request) : Prop :=
  match r.phase with
  | .waiting routed sequences => r.Came (routed.zip sequences)
  | .writing ds _ => ∃ items, r.Came items ∧
      decideAll r.producer r.topic.name (seen (b.window r.producer)) (fun _ => none) items = .ok ds
  | .recorded ds written => ∃ items, r.Came items ∧
      ∃ (st : ProducerState) (history : Nat → List (Int × Nat)), (∀ p, Chained (history p)) ∧
        (∀ p, st.partitions (r.topic.name, p) = recorded none (history p)) ∧
        decideAll r.producer r.topic.name st (fun _ => none) items = .ok ds ∧
        ∀ p, b.window r.producer r.topic.name p =
          recorded none (history p ++ (fresh ds p).zip ((written p).getD []))
  | _ => True

variable {b b' : Broker} {r : Request} {id : Nat} {ds : List Decision}
    {written : Nat → Option (List Nat)} {phase : Phase} {owner pid name producer : String}
    {now : Int} {st : ProducerState} {routed : List Nat} {sequences : List Int}
    {records : List IncomingRecord}

theorem Goes.of_eq (h : b.Goes r) (hw : b'.window r.producer = b.window r.producer) :
    b'.Goes r := by
  unfold Goes at h ⊢
  rw [hw]
  exact h

theorem Goes.of_not_holding (h : b.Goes r) (hr : r.phase.holding = false) : b'.Goes r := by
  obtain ⟨topic, producer, owner, records, phase⟩ := r
  cases phase with
  | writing ds written => cases hr
  | recorded ds written => cases hr
  | waiting routed sequences => exact h
  | failed ds written lost => exact h
  | answered result => exact h

structure Kept (b : Broker) : Prop where
  alone : b.Alone
  chained : ∀ pid t p, ∃ h, Chained h ∧ b.window pid t p = recorded none h
  goes : ∀ (i : Nat) (r : Request), b.requests[i]? = some r → b.Goes r

theorem Kept.empty : Kept .empty where
  alone _ _ _ _ hr := by cases hr
  chained _ _ _ := ⟨[], Chained.nil, rfl⟩
  goes _ _ hr := by cases hr

/-- A request moves and no window changes. -/
theorem Kept.move (h : b.Kept) (hreq : b'.requests = (b.move id r phase).requests)
    (hwindow : b'.window = b.window)
    (hhold : phase.holding → ∀ (j : Nat) (rj : Request), j ≠ id → b.requests[j]? = some rj →
      rj.producer = r.producer → rj.phase.holding = false) (hnew : b.Goes { r with phase }) :
    b'.Kept where
  alone := Alone.move h.alone hreq hhold
  chained := hwindow ▸ h.chained
  goes i ri hi := by
    rw [hreq] at hi
    rcases getElem?_move hi with ⟨rfl, rfl⟩ | ⟨-, hi⟩
    · exact hnew.of_eq (by rw [hwindow])
    · exact (h.goes i ri hi).of_eq (by rw [hwindow])

/-! ### The steps -/

theorem seen_window (h : admitState now (b.producers pid) pid owner = .ok st) (topic : String)
    (p : Nat) : st.partitions (topic, p) = (seen (b.window pid)).partitions (topic, p) := by
  have hwindow := congrFun (window_admitted h) pid
  rw [window_setProducer_self] at hwindow
  exact congrFun (congrFun hwindow topic) p

theorem Kept.admission (h : b.Kept) (hadm : b.Admissible id r routed sequences)
    (hst : admitState now (b.producers r.producer) r.producer r.owner = .ok st)
    (hds : decideAll r.producer r.topic.name st (fun _ => none) (routed.zip sequences) = .ok ds) :
    ((b.setProducer r.producer st).move id r (.writing ds fun _ => none)).Kept := by
  refine h.move rfl (window_admitted hst) (fun _ j rj _ hj hp => locked_eq_false hadm.free hj hp)
    ⟨routed.zip sequences, ?_, ?_⟩
  · have := h.goes id r hadm.at_
    unfold Goes at this
    rwa [hadm.waits] at this
  · rw [← hds]
    exact (decideAll_congr (seen_window hst r.topic.name) _ _).symm

theorem Kept.append {b : Broker} (h : b.Kept) {id p : Nat} {r : Request} {offsets : List Nat}
    {ds : List Decision} {written : Nat → Option (List Nat)} (hr : b.requests[id]? = some r)
    (hp : r.phase = .writing ds written) :
    ((b.store r p ((fresh ds p).zip offsets)).move id r
      (.writing ds (Function.update written p (some offsets)))).Kept := by
  have hhold : r.phase.holding := by rw [hp]; rfl
  have hgoes := h.goes id r hr
  unfold Goes at hgoes
  rw [hp] at hgoes
  exact h.move rfl rfl (fun _ j rj hne hj => Alone.others h.alone hr hhold hne hj) hgoes

/-- What a request was decided to write goes on with a history its window shows. -/
theorem chained_fresh {topic : String} {items : List (Nat × Int)} {p : Nat}
    {history : List (Int × Nat)} (hchained : Chained history)
    (hst : st.partitions (topic, p) = recorded none history)
    (hds : decideAll pid topic st (fun _ => none) items = .ok ds) (offsets : List Nat) :
    Chained (history ++ (fresh ds p).zip offsets) := by
  obtain ⟨s₀, hrun, -, hacc⟩ := decideAll_run hds p
  refine hchained.append (consecutive_zip hrun) fun hne w hw => ?_
  have := hacc rfl fun hnil => hne (by rw [hnil, List.zip_nil_left])
  unfold ProducerState.check at this
  rwa [hst, hw] at this

theorem Kept.record (h : b.Kept) (hr : b.requests[id]? = some r)
    (hp : r.phase = .writing ds written) (hst : b.producers r.producer = some st) :
    ((b.setProducer r.producer (recordAll now r.topic.name st (entries ds written))).move id r
      (.recorded ds written)).Kept := by
  have hhold : r.phase.holding := by rw [hp]; rfl
  have hothers : ∀ (j : Nat) (rj : Request), j ≠ id → b.requests[j]? = some rj →
      rj.producer = r.producer → rj.phase.holding = false :=
    fun j rj => Alone.others h.alone hr hhold
  have hgoes := h.goes id r hr
  unfold Goes at hgoes
  rw [hp] at hgoes
  obtain ⟨items, hcame, hds⟩ := hgoes
  have hwindow (t : String) (p : Nat) : st.partitions (t, p) = b.window r.producer t p := by
    rw [window, hst]
    rfl
  rw [← decideAll_congr (hwindow r.topic.name)] at hds
  choose history hchained hshown using h.chained r.producer r.topic.name
  have hbefore (p : Nat) : st.partitions (r.topic.name, p) = recorded none (history p) :=
    (hwindow _ p).trans (hshown p)
  set st' := recordAll now r.topic.name st (entries ds written)
  set b' := (b.setProducer r.producer st').move id r (.recorded ds written)
  have hself (t : String) (p : Nat) : b'.window r.producer t p = if t = r.topic.name then
      recorded none (history p ++ (fresh ds p).zip ((written p).getD []))
      else b.window r.producer t p := by
    have : b'.window r.producer = fun topic p => st'.partitions (topic, p) :=
      window_setProducer_self b r.producer st'
    rw [this, ← hwindow, recorded_append, ← ofPartition_entries]
    dsimp only
    rw [recordAll_partitions]
    split
    · rename_i ht
      rw [ht, hbefore]
    · rfl
  have hother : ∀ pid, pid ≠ r.producer → b'.window pid = b.window pid :=
    fun pid hpid => window_setProducer_of_ne b hpid st'
  refine ⟨Alone.move h.alone rfl fun _ => hothers, fun pid t p => ?_, fun i ri hi => ?_⟩
  · by_cases hpid : pid = r.producer
    · rw [hpid, hself]
      split
      · exact ⟨_, chained_fresh (hchained p) (hbefore p) hds _, rfl⟩
      · exact h.chained r.producer t p
    · rw [hother pid hpid]
      exact h.chained pid t p
  · rcases getElem?_move hi with ⟨rfl, rfl⟩ | ⟨hne, hi⟩
    · exact ⟨items, hcame, st, history, hchained, hbefore, hds,
        fun p => (hself _ p).trans (if_pos rfl)⟩
    · by_cases hpid : ri.producer = r.producer
      · exact (h.goes i ri hi).of_not_holding (hothers i ri hne hi hpid)
      · exact (h.goes i ri hi).of_eq (hother _ hpid)

theorem Kept.arrive (h : b.Kept) (counters : String × Nat → Nat) (hhold : r.phase.holding = false)
    (hnew : b.Goes r) : ({ b with counters, requests := b.requests ++ [r] } : Broker).Kept := by
  refine ⟨Alone.arrive h.alone rfl hhold, h.chained, fun i ri hi => ?_⟩
  rcases getElem?_concat_cases hi with ⟨-, rfl⟩ | hi
  · exact hnew.of_eq rfl
  · exact (h.goes i ri hi).of_eq rfl

/-- What the journals have of each partition goes on where `producers.json` ends: no sequence is in
both. -/
def Follows (b : Broker) : Prop :=
  ∀ pid t p, ∃ h, Chained (h ++ pairs (b.rotated ++ b.journal) pid t p) ∧
    windowIn (b.snapshot.getD .empty).slots pid t p = recorded none h

theorem window_reopened (b : Broker) (now : Int) (pid t : String) (p : Nat) :
    windowIn (b.reopened now).slots pid t p =
      recorded (windowIn (b.snapshot.getD .empty).slots pid t p)
        (pairs (b.rotated ++ b.journal) pid t p) := by
  rw [reopened, Registry.slots_replay, windowIn_replay, Registry.windowIn_load]

/-- Each restart finds journals that follow `producers.json`. -/
def Reopens (b : Broker) (e : Event) : Prop := ∀ now, e = .restart now → b.Follows

theorem Kept.step {b b' : Broker} {e : Event} (h : b.Kept) (hreopens : b.Reopens e)
    (hstep : b.step e = some b') : b'.Kept := by
  cases step_took hstep with
  | created | deleted | flushed => exact ⟨h.alone, h.chained, h.goes⟩
  | restarted =>
    refine ⟨nofun, fun pid t p => ?_, nofun⟩
    obtain ⟨history, hchained, hsnapshot⟩ := hreopens _ rfl pid t p
    refine ⟨_, hchained, (b.window_reopened _ pid t p).trans ?_⟩
    rw [hsnapshot, recorded_append]
  | denied => exact h.arrive b.counters rfl trivial
  | arrived counters _ harrival =>
    refine h.arrive counters harrival.not_holding ?_
    cases harrival with
    | answered => trivial
    | routed hne hfew hseq hroute => exact ⟨_, _, _, .routed hne hfew hseq hroute, rfl⟩
  | refused | turnedAway | straggled | failed | journaled => exact h.move rfl rfl nofun trivial
  | rejected hadm hst => exact h.move rfl (window_admitted hst) nofun trivial
  | admitted hadm hst hds => exact h.admission hadm hst hds
  | appended hr hp _ _ => exact h.append hr hp
  | recorded hr hp _ hst => exact h.record hr hp hst

/-! ### Who holds the lock -/

theorem recordAll_owner (now : Int) (topic : String) (xs : List (Nat × Int × Nat))
    (st : ProducerState) : (recordAll now topic st xs).owner = st.owner := by
  induction xs generalizing st with
  | nil => rfl
  | cons x xs ih => exact ih _

/-- The producer of a request that holds the lock belongs to the request's key. -/
def Owned (b : Broker) : Prop :=
  ∀ (i : Nat) (r : Request), b.requests[i]? = some r → r.phase.holding →
    ∃ st, b.producers r.producer = some st ∧ st.owner = r.owner

theorem Owned.empty : Owned .empty := by
  intro i r hr
  cases hr

/-- A request moves on, and no producer of a holder changes its owner. -/
theorem Owned.move (h : b.Owned) (hreq : b'.requests = (b.move id r phase).requests)
    (hnew : phase.holding → ∃ st, b'.producers r.producer = some st ∧ st.owner = r.owner)
    (hframe : ∀ (j : Nat) (rj : Request) (st : ProducerState), b.requests[j]? = some rj →
      rj.phase.holding → b.producers rj.producer = some st →
      ∃ st', b'.producers rj.producer = some st' ∧ st'.owner = st.owner) : b'.Owned := by
  intro i ri hi hh
  rw [hreq] at hi
  rcases getElem?_move hi with ⟨rfl, rfl⟩ | ⟨-, hi⟩
  · exact hnew hh
  · obtain ⟨st, hst, hown⟩ := h i ri hi hh
    obtain ⟨st', hst', hsame⟩ := hframe i ri st hi hh hst
    exact ⟨st', hst', hsame.trans hown⟩

/-- An admission changes the producer of no holder. -/
theorem Owned.admission (h : b.Owned) (hadm : b.Admissible id r routed sequences)
    (hst : admitState now (b.producers r.producer) r.producer r.owner = .ok st) (phase : Phase) :
    ((b.setProducer r.producer st).move id r phase).Owned := by
  refine h.move rfl (fun _ => ⟨st, setProducer_self .., (admitState_ok hst).2⟩) ?_
  intro j rj st' hj hh hst'
  have hne : rj.producer ≠ r.producer := fun heq =>
    Bool.false_ne_true ((locked_eq_false hadm.free hj heq).symm.trans hh)
  exact ⟨st', (setProducer_of_ne b hne st).trans hst', rfl⟩

theorem Owned.arrive (h : b.Owned) (counters : String × Nat → Nat)
    (hhold : r.phase.holding = false) :
    ({ b with counters, requests := b.requests ++ [r] } : Broker).Owned := by
  intro i ri hi hh
  rcases getElem?_concat_cases hi with ⟨-, rfl⟩ | hi
  · exact absurd hh (Bool.eq_false_iff.mp hhold)
  · exact h i ri hi hh

theorem Owned.step {b b' : Broker} {e : Event} (h : b.Owned) (hstep : b.step e = some b') :
    b'.Owned := by
  have hsame : ∀ (j : Nat) (rj : Request) (st : ProducerState), b.requests[j]? = some rj →
      rj.phase.holding → b.producers rj.producer = some st →
      ∃ st', b.producers rj.producer = some st' ∧ st'.owner = st.owner :=
    fun _ _ st _ _ hst => ⟨st, hst, rfl⟩
  cases step_took hstep with
  | created | deleted | flushed => exact h
  | restarted => exact nofun
  | denied => exact h.arrive b.counters rfl
  | arrived counters _ harrival => exact h.arrive counters harrival.not_holding
  | refused | turnedAway | straggled | failed | journaled => exact h.move rfl nofun hsame
  | rejected hadm hst => exact h.admission hadm hst _
  | admitted hadm hst _ => exact h.admission hadm hst _
  | @appended _ _ r _ ds written hr hp _ _ =>
    exact h.move rfl (fun _ => h _ r hr (by rw [hp]; rfl)) hsame
  | @recorded _ r now ds written st hr hp _ hst =>
    have hown : st.owner = r.owner := by
      obtain ⟨st', hst', hown⟩ := h _ r hr (by rw [hp]; rfl)
      obtain rfl := Option.some.inj (hst.symm.trans hst')
      exact hown
    refine h.move rfl (fun _ => ⟨_, setProducer_self .., ?_⟩) fun j rj st' hj hh hst' => ?_
    · rw [recordAll_owner, hown]
    · by_cases hpid : rj.producer = r.producer
      · rw [hpid] at hst' ⊢
        obtain rfl := Option.some.inj (hst.symm.trans hst')
        exact ⟨_, setProducer_self .., recordAll_owner ..⟩
      · exact ⟨st', (setProducer_of_ne b hpid _).trans hst', rfl⟩

end Broker

end EventStream.Dataplane
