import EventStream.Dataplane.Steps

/-! Each sequence of a producer is written to a partition at most once, as long as the appends
of a request succeed together or fail together.

The invariant says where the broker knows each stored record from: its sequence is recorded
in the producer's window, or the request that wrote it still holds the producer's lock and
will record it. What a request decided to write is above the window, so it is neither. A
request that fails with some of its groups written breaks this: the lock is released and
nothing is recorded. -/
namespace EventStream.Dataplane

open EventStream.Producers

/-- No group of the request is written. -/
def Phase.untouched : Phase → Bool
  | .writing ds written => decide (∀ p ∈ targets ds, written p = none)
  | _ => true

/-- The appends of a request succeed together or fail together, and sequences stay below the
last one of their type, which the window accepts again and again. -/
def Broker.AllOrNothing (b : Broker) : Event → Prop
  | .restart _ => False
  | .arrive _ _ _ records => ∀ r ∈ records, ∀ s ∈ r.sequence, s < i64Max
  | .fail id _ => ∀ r ∈ b.requests[id]?, r.phase.untouched
  | .append id _ _ => ∀ r ∈ b.requests[id]?, r.phase.holding
  | _ => True

instance (b : Broker) : DecidablePred b.AllOrNothing
  | .restart _ => inferInstanceAs (Decidable False)
  | .arrive _ _ _ records =>
    inferInstanceAs (Decidable (∀ r ∈ records, ∀ s ∈ r.sequence, s < i64Max))
  | .fail id _ => inferInstanceAs (Decidable (∀ r ∈ b.requests[id]?, r.phase.untouched))
  | .append id _ _ => inferInstanceAs (Decidable (∀ r ∈ b.requests[id]?, r.phase.holding))
  | .createTopic _ _ => inferInstanceAs (Decidable True)
  | .deleteTopic _ => inferInstanceAs (Decidable True)
  | .flush => inferInstanceAs (Decidable True)
  | .deny _ _ _ _ _ => inferInstanceAs (Decidable True)
  | .refuse _ _ => inferInstanceAs (Decidable True)
  | .admission _ _ => inferInstanceAs (Decidable True)
  | .record _ _ => inferInstanceAs (Decidable True)
  | .journal _ => inferInstanceAs (Decidable True)

/-- The brokers that requests bring about whose appends succeed or fail together. -/
abbrev Broker.Whole : Broker → Prop := Runs Broker.step Broker.AllOrNothing .empty

namespace Broker

def window (b : Broker) (pid topic : String) (p : Nat) : Option PartitionWindow :=
  (b.producers pid).bind fun st => st.partitions (topic, p)

/-- The record's sequence is in its producer's window. -/
def Settled (b : Broker) (topic : String) (p : Nat) (x : Stored) : Prop :=
  ∃ w, b.window x.producer topic p = some w ∧ w.Remembers x.sequence

end Broker

/-- The request wrote the record and has yet to record its sequence. -/
def Request.Pending (r : Request) (name : String) (generation p : Nat) (x : Stored) : Prop :=
  r.producer = x.producer ∧ r.topic.name = name ∧ r.topic.generation = generation ∧
    ∃ ds written, r.phase = .writing ds written ∧ written p ≠ none ∧ x.sequence ∈ fresh ds p

/-- What a request knows of the sequences it is to write, by the windows of its producer for
its topic. -/
def Phase.Ok (window : Nat → Option PartitionWindow) : Phase → Prop
  | .waiting _ sequences => ∀ s ∈ sequences, s < i64Max
  | .writing ds written => ∀ p, (fresh ds p).Nodup ∧
      (∀ s ∈ fresh ds p, ∀ w, window p = some w → w.lastSeen < s) ∧
      ∀ offsets, written p = some offsets → offsets.length = (fresh ds p).length
  | _ => True

theorem Phase.Ok.of_not_holding {window window' : Nat → Option PartitionWindow} {phase : Phase}
    (h : phase.Ok window) (hphase : phase.holding = false) : phase.Ok window' := by
  cases phase with
  | writing ds written => cases hphase
  | _ => exact h

def Request.Ok (b : Broker) (r : Request) : Prop := r.phase.Ok (b.window r.producer r.topic.name)

namespace Broker

structure Sound (b : Broker) : Prop where
  ok : ∀ (i : Nat) (r : Request), b.requests[i]? = some r → r.Ok b
  alone : b.Alone
  once : ∀ key p, ((b.logs key p).map Stored.tag).Nodup
  known : ∀ name generation p, ∀ x ∈ b.logs (name, generation) p, b.Settled name p x ∨
    ∃ (i : Nat) (r : Request), b.requests[i]? = some r ∧ r.Pending name generation p x

theorem Sound.empty : Sound .empty where
  ok _ _ hr := by cases hr
  alone _ _ _ _ hr := by cases hr
  once _ _ := List.nodup_nil
  known _ _ _ _ hx := absurd hx List.not_mem_nil

variable {b b' : Broker} {id p : Nat} {r : Request} {pid name : String} {now : Int}
    {st : ProducerState} {sequences : List Int} {ds : List Decision} {phase : Phase} {x : Stored}
    {routed : List Nat} {written : Nat → Option (List Nat)}

/-- One request goes on, with the windows and the logs changed as its step changes them. -/
theorem Sound.advance (h : b.Sound) (hreq : b'.requests = (b.move id r phase).requests)
    (hok : ({ r with phase } : Request).Ok b')
    (hframe : ∀ (j : Nat) (rj : Request), j ≠ id → b.requests[j]? = some rj → rj.Ok b → rj.Ok b')
    (hhold : phase.holding → ∀ (j : Nat) (rj : Request), j ≠ id → b.requests[j]? = some rj →
      rj.producer = r.producer → rj.phase.holding = false)
    (honce : ∀ key p, ((b'.logs key p).map Stored.tag).Nodup)
    (hknown : ∀ name generation p, ∀ x ∈ b'.logs (name, generation) p, b'.Settled name p x ∨
      ∃ (i : Nat) (ri : Request), b'.requests[i]? = some ri ∧ ri.Pending name generation p x) :
    b'.Sound where
  ok i ri hi := by
    rw [hreq] at hi
    rcases getElem?_move hi with ⟨rfl, rfl⟩ | ⟨hne, hi⟩
    · exact hok
    · exact hframe i ri hne hi (h.ok i ri hi)
  alone := Alone.move h.alone hreq hhold
  once := honce
  known := hknown

/-- A stored record stays known when the windows remember what they did and the request that
moves keeps or settles what it has pending. -/
theorem Sound.known_of_move (h : b.Sound) (hr : b.requests[id]? = some r) (phase : Phase)
    (hreq : b'.requests = (b.move id r phase).requests)
    (hsettled : ∀ name p x, b.Settled name p x → b'.Settled name p x)
    (hpending : ∀ name generation p x, r.Pending name generation p x → b'.Settled name p x ∨
      ({ r with phase } : Request).Pending name generation p x) {generation : Nat}
    (hx : x ∈ b.logs (name, generation) p) :
    b'.Settled name p x ∨
      ∃ (i : Nat) (ri : Request), b'.requests[i]? = some ri ∧ ri.Pending name generation p x := by
  rcases h.known name generation p x hx with hs | ⟨i, ri, hi, hpend⟩
  · exact Or.inl (hsettled name p x hs)
  · by_cases hne : i = id
    · subst hne
      obtain rfl := Option.some.inj (hr.symm.trans hi)
      rcases hpending name generation p x hpend with hs | hp
      · exact Or.inl hs
      · exact Or.inr ⟨i, _, by rw [hreq]; exact getElem?_move_self hr, hp⟩
    · exact Or.inr ⟨i, ri, by rw [hreq, getElem?_move_of_ne hne]; exact hi, hpend⟩

/-- A request moves and neither windows nor logs change. -/
theorem Sound.move (h : b.Sound) (hr : b.requests[id]? = some r)
    (hreq : b'.requests = (b.move id r phase).requests) (hwindow : b'.window = b.window)
    (hlogs : b'.logs = b.logs) (hok : phase.Ok (b.window r.producer r.topic.name))
    (hhold : phase.holding → ∀ (j : Nat) (rj : Request), j ≠ id → b.requests[j]? = some rj →
      rj.producer = r.producer → rj.phase.holding = false)
    (hpending : ∀ name generation p x, ¬r.Pending name generation p x) : b'.Sound := by
  have hsettled : ∀ name p x, b.Settled name p x → b'.Settled name p x := by
    intro name p x hs
    unfold Settled
    rwa [hwindow]
  refine h.advance hreq ?_ ?_ hhold (by rw [hlogs]; exact h.once) ?_
  · unfold Request.Ok
    rw [hwindow]
    exact hok
  · intro j rj _ _ hj
    unfold Request.Ok
    rwa [hwindow]
  · intro name generation p x hx
    rw [hlogs] at hx
    exact h.known_of_move hr phase hreq hsettled
      (fun _ _ _ _ hp => absurd hp (hpending _ _ _ _)) hx

theorem not_pending (h : ∀ ds written, r.phase ≠ .writing ds written) (name : String)
    (generation p : Nat) (x : Stored) : ¬r.Pending name generation p x :=
  fun ⟨_, _, _, ds, written, hp, _⟩ => h ds written hp

theorem window_setProducer_self (b : Broker) (pid : String) (st : ProducerState) :
    (b.setProducer pid st).window pid = fun topic p => st.partitions (topic, p) := by
  funext topic p
  unfold window
  rw [setProducer_self]
  rfl

theorem window_setProducer_of_ne (b : Broker) {pid' : String} (hne : pid' ≠ pid)
    (st : ProducerState) : (b.setProducer pid st).window pid' = b.window pid' := by
  unfold window
  rw [setProducer_of_ne b hne]

/-- Admitting a request leaves every window as it was. -/
theorem window_admitted {owner : String} (h : admitState now (b.producers pid) pid owner = .ok st) :
    (b.setProducer pid st).window = b.window := by
  funext pid'
  by_cases hp : pid' = pid
  · subst hp
    have hpart := (admitState_ok h).1
    rw [window_setProducer_self]
    funext topic p
    unfold window
    cases hold : b.producers pid' with
    | none =>
      rw [hold] at hpart
      exact congrFun hpart (topic, p)
    | some old =>
      rw [hold] at hpart
      exact congrFun hpart (topic, p)
  · exact window_setProducer_of_ne b hp st

/-! ### The steps that write and record -/

/-- What a request admitted with `ds` is to write is above its producer's windows. -/
theorem ok_of_decideAll {topic : String}
    (hds : decideAll pid topic st (fun _ => none) (routed.zip sequences) = .ok ds)
    (hmax : ∀ s ∈ sequences, s < i64Max) :
    (Phase.writing ds fun _ => none).Ok fun p => st.partitions (topic, p) := by
  intro p
  obtain ⟨hasc, hfrom⟩ := decideAll_fresh hds p
  refine ⟨hasc.imp ne_of_lt, fun s hs w hw => ?_, fun offsets h => nomatch h⟩
  obtain ⟨s₀, hs₀, hle, hacc⟩ := (hfrom s hs).2 rfl
  have hmem : (p, s₀) ∈ routed.zip sequences := by
    rw [← decideAll_items hds]
    exact List.mem_map.mpr ⟨_, mem_fresh.mp hs₀, rfl⟩
  dsimp only at hw
  unfold ProducerState.check at hacc
  rw [hw] at hacc
  exact lt_of_lt_of_le
    (PartitionWindow.lt_of_check_accept hacc (hmax s₀ (List.of_mem_zip hmem).2)) hle

theorem Sound.admission (h : b.Sound) (hadm : b.Admissible id r routed sequences)
    (hst : admitState now (b.producers r.producer) r.producer r.owner = .ok st)
    (hds : decideAll r.producer r.topic.name st (fun _ => none) (routed.zip sequences) = .ok ds) :
    ((b.setProducer r.producer st).move id r (.writing ds fun _ => none)).Sound := by
  have hwindow := window_admitted hst
  have hmax : ∀ s ∈ sequences, s < i64Max := by
    have := h.ok id r hadm.at_
    unfold Request.Ok at this
    rwa [hadm.waits] at this
  refine h.move hadm.at_ rfl hwindow rfl ?_
    (fun _ j rj _ hj hp => locked_eq_false hadm.free hj hp) (not_pending fun ds written hp => ?_)
  · rw [← hwindow, window_setProducer_self]
    exact ok_of_decideAll hds hmax
  · rw [hadm.waits] at hp
    cases hp

theorem map_tag_zip (pid : String) {offsets : List Nat} (h : offsets.length = sequences.length) :
    ((sequences.zip offsets).map fun x => (⟨x.2, pid, x.1⟩ : Stored)).map Stored.tag =
      sequences.map fun s => (pid, s) := by
  have hfst : (sequences.zip offsets).map Prod.fst = sequences :=
    List.map_fst_zip (le_of_eq h.symm)
  calc ((sequences.zip offsets).map fun x => (⟨x.2, pid, x.1⟩ : Stored)).map Stored.tag
      = ((sequences.zip offsets).map Prod.fst).map fun s => (pid, s) := by
        rw [List.map_map, List.map_map]
        rfl
    _ = sequences.map fun s => (pid, s) := by rw [hfst]

/-- What the request has yet to write to a partition is not stored there. -/
theorem Sound.not_stored (h : b.Sound) (hr : b.requests[id]? = some r)
    (hp : r.phase = .writing ds written) (hnone : written p = none)
    (hx : x ∈ b.logs (r.topic.name, r.topic.generation) p) (hpid : x.producer = r.producer) :
    x.sequence ∉ fresh ds p := by
  intro hs
  have hok : (Phase.writing ds written).Ok (b.window r.producer r.topic.name) := by
    have := h.ok id r hr
    unfold Request.Ok at this
    rwa [hp] at this
  rcases h.known _ _ p x hx with ⟨w, hw, hrem⟩ | ⟨j, rj, hj, hpend⟩
  · rw [hpid] at hw
    exact absurd hrem.le (not_le_of_gt ((hok p).2.1 _ hs w hw))
  · obtain ⟨hpid', -, -, ds', written', hp', hsome, -⟩ := hpend
    have hhold : r.phase.holding := by rw [hp]; rfl
    have hhold' : rj.phase.holding := by rw [hp']; rfl
    obtain rfl := h.alone j id rj r hj hr (hpid'.trans hpid) hhold' hhold
    obtain rfl := Option.some.inj (hr.symm.trans hj)
    cases hp.symm.trans hp'
    exact hsome hnone

theorem Sound.append {b : Broker} (h : b.Sound) {id p : Nat} {r : Request} {offsets : List Nat}
    {ds : List Decision} {written : Nat → Option (List Nat)} (hr : b.requests[id]? = some r)
    (hp : r.phase = .writing ds written) (hnone : written p = none)
    (hlen : offsets.length = (fresh ds p).length) :
    ((b.store r p ((fresh ds p).zip offsets)).move id r
      (.writing ds (Function.update written p (some offsets)))).Sound := by
  have hok : (Phase.writing ds written).Ok (b.window r.producer r.topic.name) := by
    have := h.ok id r hr
    unfold Request.Ok at this
    rwa [hp] at this
  have hhold : r.phase.holding := by rw [hp]; rfl
  have hkeeps : ∀ q, written q ≠ none → Function.update written p (some offsets) q ≠ none := by
    intro q hq
    by_cases hqp : q = p
    · subst hqp
      exact absurd hnone hq
    · rwa [Function.update_of_ne hqp]
  refine h.advance rfl ?_ (fun _ _ _ _ hj => hj)
    (fun _ j rj hne hj => Alone.others h.alone hr hhold hne hj) ?_ ?_
  · intro q
    refine ⟨(hok q).1, (hok q).2.1, fun offs hoffs => ?_⟩
    by_cases hqp : q = p
    · subst hqp
      rw [Function.update_self] at hoffs
      cases hoffs
      exact hlen
    · rw [Function.update_of_ne hqp] at hoffs
      exact (hok q).2.2 offs hoffs
  · intro key q
    rw [show (Broker.move _ _ _ _).logs = (b.store r p _).logs from rfl, store_logs]
    split
    · rename_i heq
      obtain ⟨rfl, rfl⟩ := heq
      rw [List.map_append, map_tag_zip r.producer hlen]
      refine List.Nodup.append (h.once _ _)
        ((hok q).1.map fun _ _ heq => (Prod.mk.inj heq).2) ?_
      intro tag htag hnew
      obtain ⟨x, hx, rfl⟩ := List.mem_map.mp htag
      obtain ⟨s, hs, heq⟩ := List.mem_map.mp hnew
      obtain ⟨hpid, hseq⟩ := Prod.mk.inj heq
      exact h.not_stored hr hp hnone hx hpid.symm (hseq ▸ hs)
    · exact h.once key q
  · intro name generation q x hx
    rw [show (Broker.move _ _ _ _).logs = (b.store r p _).logs from rfl, store_logs] at hx
    by_cases hnew : (name, generation) = (r.topic.name, r.topic.generation) ∧ q = p ∧
        x ∈ ((fresh ds p).zip offsets).map fun x => ⟨x.2, r.producer, x.1⟩
    · obtain ⟨hkey, rfl, hbatch⟩ := hnew
      cases hkey
      obtain ⟨⟨s, o⟩, hso, rfl⟩ := List.mem_map.mp hbatch
      refine Or.inr ⟨id, _, getElem?_move_self hr, rfl, rfl, rfl, ds, _, rfl, ?_,
        (List.of_mem_zip hso).1⟩
      rw [Function.update_self]
      exact Option.some_ne_none _
    · have hold : x ∈ b.logs (name, generation) q := by
        split at hx
        · rename_i heq
          exact (List.mem_append.mp hx).resolve_right fun hx => hnew ⟨heq.1, heq.2, hx⟩
        · exact hx
      refine h.known_of_move hr _ rfl (fun _ _ _ hs => hs) ?_ hold
      rintro _ _ q' _ ⟨h₁, h₂, h₃, ds', written', hp', hsome, hs⟩
      cases hp.symm.trans hp'
      exact Or.inr ⟨h₁, h₂, h₃, ds, _, rfl, hkeeps q' hsome, hs⟩

/-- Recording keeps what the windows remember, and adds what is recorded. -/
theorem recordAll_remembers (now : Int) (topic : String) (xs : List (Nat × Int × Nat))
    (st : ProducerState) {s : Int}
    (h : st.Remembers name p s ∨ name = topic ∧ ∃ o, (p, s, o) ∈ xs) :
    (recordAll now topic st xs).Remembers name p s := by
  induction xs generalizing st with
  | nil =>
    rcases h with h | ⟨-, o, ho⟩
    · exact h
    · exact absurd ho List.not_mem_nil
  | cons x xs ih =>
    refine ih _ ?_
    rcases h with h | ⟨rfl, o, ho⟩
    · exact Or.inl (h.record now _ _ _ _)
    · rcases List.mem_cons.mp ho with rfl | ho
      · exact Or.inl (ProducerState.record_remembers ..)
      · exact Or.inr ⟨rfl, o, ho⟩

theorem Sound.record (h : b.Sound) (hr : b.requests[id]? = some r)
    (hp : r.phase = .writing ds written) (hst : b.producers r.producer = some st) :
    ((b.setProducer r.producer (recordAll now r.topic.name st (entries ds written))).move id r
      (.recorded ds written)).Sound := by
  have hok : (Phase.writing ds written).Ok (b.window r.producer r.topic.name) := by
    have := h.ok id r hr
    unfold Request.Ok at this
    rwa [hp] at this
  have hhold : r.phase.holding := by rw [hp]; rfl
  have hothers : ∀ (j : Nat) (rj : Request), j ≠ id → b.requests[j]? = some rj →
      rj.producer = r.producer → rj.phase.holding = false :=
    fun j rj => Alone.others h.alone hr hhold
  set st' := recordAll now r.topic.name st (entries ds written)
  set b' := (b.setProducer r.producer st').move id r (.recorded ds written)
  have hself : b'.window r.producer = fun topic p => st'.partitions (topic, p) :=
    window_setProducer_self b r.producer st'
  have hother : ∀ pid, pid ≠ r.producer → b'.window pid = b.window pid :=
    fun pid hpid => window_setProducer_of_ne b hpid st'
  -- The windows of the producer remember what they did, and now what the request wrote.
  have hrecorded : ∀ name p x, x.producer = r.producer →
      (st.Remembers name p x.sequence ∨
        name = r.topic.name ∧ ∃ o, (p, x.sequence, o) ∈ entries ds written) →
      b'.Settled name p x := by
    intro name p x hpid hor
    obtain ⟨w, hw, hrem⟩ := recordAll_remembers now r.topic.name _ st hor
    exact ⟨w, by rw [hpid, hself]; exact hw, hrem⟩
  have hreq : b'.requests = (b.move id r (.recorded ds written)).requests := rfl
  refine h.advance hreq trivial ?_ (fun _ => hothers) h.once fun name generation p x hx => ?_
  · intro j rj hne hj hokj
    by_cases hpid : rj.producer = r.producer
    · exact hokj.of_not_holding (hothers j rj hne hj hpid)
    · unfold Request.Ok
      rwa [hother _ hpid]
  · refine h.known_of_move hr _ hreq ?_ ?_ hx
    · intro name p x ⟨w, hw, hrem⟩
      by_cases hpid : x.producer = r.producer
      · rw [hpid, window, hst] at hw
        exact hrecorded name p x hpid (Or.inl ⟨w, hw, hrem⟩)
      · exact ⟨w, by rw [hother _ hpid]; exact hw, hrem⟩
    · rintro name generation p x ⟨hpid, rfl, -, ds', written', hp', hsome, hs⟩
      cases hp.symm.trans hp'
      obtain ⟨offsets, hoffsets⟩ := Option.ne_none_iff_exists'.mp hsome
      have hmem : x.sequence ∈ ((fresh ds p).zip offsets).map Prod.fst := by
        rwa [List.map_fst_zip (le_of_eq ((hok p).2.2 offsets hoffsets).symm)]
      obtain ⟨⟨s, o⟩, hso, hseq⟩ := List.mem_map.mp hmem
      refine Or.inl (hrecorded _ p x hpid.symm (Or.inr ⟨rfl, o, ?_⟩))
      rw [← hseq]
      exact mem_entries hoffsets hso

/-! ### Every run -/

theorem Sound.arrive (h : b.Sound) (counters : String × Nat → Nat) (hhold : r.phase.holding = false)
    (hok : r.phase.Ok (b.window r.producer r.topic.name)) :
    ({ b with counters, requests := b.requests ++ [r] } : Broker).Sound := by
  have hget : ∀ {i : Nat} {ri : Request}, (b.requests ++ [r])[i]? = some ri →
      b.requests[i]? = some ri ∨ ri = r :=
    fun hi => (getElem?_concat_cases hi).symm.imp_right And.right
  refine ⟨fun i ri hi => ?_, Alone.arrive h.alone rfl hhold, h.once, ?_⟩
  · rcases hget hi with hi | rfl
    · exact h.ok i ri hi
    · exact hok
  · intro name generation p x hx
    rcases h.known name generation p x hx with hs | ⟨i, ri, hi, hpend⟩
    · exact Or.inl hs
    · refine Or.inr ⟨i, ri, ?_, hpend⟩
      exact (List.getElem?_append_left (List.getElem?_eq_some_iff.mp hi).1).trans hi

theorem Sound.step {b b' : Broker} {e : Event} (h : b.Sound) (hwhole : b.AllOrNothing e)
    (hstep : b.step e = some b') : b'.Sound := by
  cases step_took hstep with
  | created => exact ⟨h.ok, h.alone, h.once, h.known⟩
  | deleted => exact ⟨h.ok, h.alone, h.once, h.known⟩
  | restarted => exact hwhole.elim
  | flushed => exact ⟨h.ok, h.alone, h.once, h.known⟩
  | denied => exact h.arrive b.counters rfl trivial
  | arrived counters _ harrival =>
    cases harrival with
    | answered result => exact h.arrive counters rfl trivial
    | @routed _ sequences _ _ hseq _ =>
      refine h.arrive counters rfl fun s hs => ?_
      have hmem : some s ∈ sequences.map some := List.mem_map.mpr ⟨s, hs, rfl⟩
      rw [← checkSequences_ok hseq] at hmem
      obtain ⟨r, hr, hs⟩ := List.mem_map.mp hmem
      exact hwhole r hr s hs
  | refused hr hp =>
    exact h.move hr rfl rfl rfl trivial (fun hh => nomatch hh)
      (not_pending fun ds written hw => nomatch hp.symm.trans hw)
  | turnedAway hadm =>
    exact h.move hadm.at_ rfl rfl rfl trivial (fun hh => nomatch hh)
      (not_pending fun ds written hw => nomatch hadm.waits.symm.trans hw)
  | rejected hadm hst =>
    exact h.move hadm.at_ rfl (window_admitted hst) rfl trivial (fun hh => nomatch hh)
      (not_pending fun ds written hw => nomatch hadm.waits.symm.trans hw)
  | admitted hadm hst hds => exact h.admission hadm hst hds
  | appended hr hp hnone hlen => exact h.append hr hp hnone hlen
  | straggled hr hp _ =>
    have := hwhole _ hr
    rw [hp] at this
    cases this
  | failed hr hp =>
    refine h.move hr rfl rfl rfl trivial (fun hh => nomatch hh) ?_
    rintro name generation p x ⟨-, -, -, ds, written, hp', hsome, hs⟩
    have := hwhole _ hr
    rw [hp'] at this
    exact hsome (of_decide_eq_true this p (mem_targets hs))
  | recorded hr hp _ hst => exact h.record hr hp hst
  | journaled hr hp _ =>
    exact h.move hr rfl rfl rfl trivial (fun hh => nomatch hh)
      (not_pending fun ds written hw => nomatch hp.symm.trans hw)

theorem sound_of_whole (h : b.Whole) : b.Sound :=
  h.keeps Sound.empty fun h hwhole hstep => h.step hwhole hstep

end Broker

/-- While the appends of each request succeed or fail together, every partition holds a
sequence of a producer at most once. -/
theorem produce_at_most_once {b : Broker} (h : b.Whole) (topic : String) (generation p : Nat)
    (producer : String) (sequence : Int) :
    ((b.logs (topic, generation) p).map Stored.tag).count (producer, sequence) ≤ 1 :=
  List.nodup_iff_count_le_one.mp ((Broker.sound_of_whole h).once (topic, generation) p) _

/-! ### A request that fails half way -/

/-- A request for partitions 0 and 1 of a topic, with sequence 0 for each. -/
def splitRequest : List IncomingRecord :=
  [⟨none, [1], some 0, some 0⟩, ⟨none, [2], some 1, some 0⟩]

/-- The request's first group is written and its second is not; the client sends it again. -/
def halfFailed : List Event :=
  [.createTopic "t" 2, .arrive "t" "producer" "key" splitRequest, .admission 0 0, .append 0 0 [0],
    .fail 0 1, .arrive "t" "producer" "key" splitRequest, .admission 1 1, .append 1 0 [1]]

/-- Partition 0 then holds sequence 0 twice. -/
theorem retry_writes_twice : ∃ b, Broker.empty.run halfFailed = some b ∧
    ((b.logs ("t", 0) 0).map Stored.tag).count ("producer", 0) = 2 :=
  exists_of_any (by decide +kernel)

/-- A run with every step checked for `AllOrNothing`. -/
abbrev Broker.runWhole : Broker → List Event → Option Broker :=
  Runs.replay Broker.step Broker.AllOrNothing

/-- Both groups of the request fail; sent again it is written, and a third time answered. -/
def retried : List Event :=
  [.createTopic "t" 2, .arrive "t" "producer" "key" splitRequest, .admission 0 0, .fail 0 1,
    .arrive "t" "producer" "key" splitRequest, .admission 1 1, .append 1 1 [0], .append 1 0 [0],
    .record 1 1, .journal 1, .arrive "t" "producer" "key" splitRequest, .admission 2 2, .record 2 2,
    .journal 2]

theorem retried_runs : (Broker.empty.runWhole retried).isSome = true := by decide +kernel

theorem produce_at_most_once_retried : ∃ b : Broker, b.Whole ∧
    ((b.logs ("t", 0) 0).map Stored.tag).count ("producer", 0) = 1 ∧
    ((b.logs ("t", 0) 0).map Stored.tag).count ("producer", 0) ≤ 1 := by
  have h := Runs.of_replay (Option.some_get retried_runs).symm
  exact ⟨_, h, by decide +kernel, produce_at_most_once h "t" 0 0 "producer" 0⟩

end EventStream.Dataplane
