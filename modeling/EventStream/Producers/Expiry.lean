import EventStream.Maps
import EventStream.Producers.Window

/-! Producers that come and go: `admit` and `expire`.

The registry maps a producer id to a slot, which is shared: whoever looked it up keeps it, also
when the map no longer has it. `admit` looks the slot up, or makes one, and locks it in a later
step; its caller then checks and records sequences under the lock. `expire` collects the slots
and looks at each under its lock, but takes an idle producer out of the map after the lock was
released. A slot is named by its place in the list of all slots made.

The journal is not part of this: it is a file that nobody reads before a restart. -/
namespace EventStream.Producers

open Std

def maxProducers : Nat := 100000
def maxProducersPerKey : Nat := 10000

structure Slot where
  state : ProducerState
  locked : Bool

inductive AdmitError where
  | invalid (message : String)
  | limit (message : String)
  | forbidden (message : String)
  deriving DecidableEq, Repr

/-- Where a call of `admit`, and the request that made it, stands. -/
inductive AdmitPhase where
  /-- The id was not in the map. -/
  | absent
  /-- The limits leave room for a new producer. -/
  | cleared
  /-- The slot was looked up and is yet to be locked. -/
  | found (slot : Nat)
  | holding (slot : Nat)
  | refused (e : AdmitError)
  /-- The guard was dropped. -/
  | done
  deriving DecidableEq, Repr

/-- The slot the call has a clone of. -/
def AdmitPhase.slot : AdmitPhase → Option Nat
  | .found k | .holding k => some k
  | _ => none

structure Admission where
  producer : String
  owner : String
  phase : AdmitPhase
  deriving DecidableEq, Repr

inductive PassPhase where
  | collecting
  | visiting
  /-- An idle producer was found, and its lock released. -/
  | removing (producer owner : String)
  deriving DecidableEq, Repr

/-- The producer a pass is about to take out. -/
def PassPhase.candidate : PassPhase → Option String
  | .removing producer _ => some producer
  | _ => none

/-- A pass of `expire`, with the slots collected and not yet visited. -/
structure ExpirePass where
  cutoff : Int
  slots : List (String × Nat)
  phase : PassPhase
  deriving DecidableEq, Repr

/-- A sequence that a request has recorded, and when. -/
structure Recorded where
  producer : String
  topic : String
  partition : Nat
  sequence : Int
  time : Int
  deriving DecidableEq, Repr

structure Live where
  map : TreeMap String Nat
  slots : List Slot
  perOwner : String → Nat
  now : Int
  admissions : List Admission
  passes : List ExpirePass
  recorded : List Recorded

inductive LiveEvent where
  | tick (now : Int)
  /-- The steps of `admit`. -/
  | admission (producer owner : String)
  | limits (id : Nat)
  | create (id : Nat)
  | lock (id : Nat)
  /-- What the caller does with the guard. -/
  | record (id : Nat) (topic : String) (partition : Nat) (sequence : Int) (offset : Nat)
  | release (id : Nat)
  /-- The steps of `expire`. -/
  | expire (maxIdle : Int)
  | collect (j : Nat) (producer : String)
  | visit (j : Nat)
  | remove (j : Nat)
  deriving DecidableEq, Repr

/-- `a.saturating_sub(b)` on `i64`. -/
def satSub (a b : Int) : Int := max (-2 ^ 63) (min (a - b) i64Max)

def producerIdChar (c : Char) : Bool := c.isAlphanum || c == '_' || c == '-' || c == '.'

def validateProducerId (producer : String) : Except AdmitError Unit :=
  if producer.utf8ByteSize = 0 ∨ 200 < producer.utf8ByteSize then
    .error (.invalid "producer_id length must be 1..=200")
  else if ¬ producer.toList.all producerIdChar then
    .error (.invalid "producer_id may only contain ASCII alphanumerics, '_', '-', '.'")
  else .ok ()

namespace Live

/-- The registry as it was loaded. -/
def loaded (map : TreeMap String Nat) (slots : List Slot) (perOwner : String → Nat) (now : Int) :
    Live :=
  ⟨map, slots, perOwner, now, [], [], []⟩

def setAdmission (w : Live) (id : Nat) (a : Admission) (phase : AdmitPhase) : Live :=
  { w with admissions := w.admissions.set id { a with phase } }

def setSlot (w : Live) (k : Nat) (slot : Slot) : Live := { w with slots := w.slots.set k slot }

def countOwner (w : Live) (owner : String) : Live :=
  { w with perOwner := Function.update w.perOwner owner (w.perOwner owner + 1) }

/-- Validate the id and look it up. -/
def beginAdmission (w : Live) (producer : String) : AdmitPhase :=
  match validateProducerId producer with
  | .error e => .refused e
  | .ok () =>
    match w.map[producer]? with
    | some k => .found k
    | none => .absent

/-- The limits on new producers. -/
def limits (w : Live) (owner : String) : AdmitPhase :=
  if maxProducers ≤ w.map.size then
    .refused (.limit s!"producer limit reached ({maxProducers})")
  else if maxProducersPerKey ≤ w.perOwner owner then
    .refused (.limit s!"this key already owns {maxProducersPerKey} producer ids")
  else .cleared

/-- Make a slot for a new producer, unless there is one by now. -/
def create (w : Live) (id : Nat) (a : Admission) : Live :=
  match w.map[a.producer]? with
  | some k => w.setAdmission id a (.found k)
  | none =>
    { (w.setAdmission id a (.found w.slots.length)).countOwner a.owner with
      map := w.map.insert a.producer w.slots.length
      slots := w.slots ++ [⟨⟨a.owner, w.now, fun _ => none⟩, false⟩] }

/-- Lock the slot, claim it if it has no owner, and check its owner. -/
def lock (w : Live) (id k : Nat) (a : Admission) (slot : Slot) : Live :=
  let claimed := slot.state.owner = ""
  let state := if claimed then { slot.state with owner := a.owner } else slot.state
  let w := if claimed then w.countOwner a.owner else w
  if state.owner = a.owner then
    (w.setSlot k ⟨{ state with lastUsedMs := w.now }, true⟩).setAdmission id a (.holding k)
  else
    (w.setSlot k ⟨state, false⟩).setAdmission id a
      (.refused (.forbidden s!"producer_id '{a.producer}' belongs to another key"))

def setPass (w : Live) (j : Nat) (p : ExpirePass) : Live := { w with passes := w.passes.set j p }

/-- Look at a slot under its lock. -/
def visit (w : Live) (j : Nat) (p : ExpirePass) (producer : String) (rest : List (String × Nat))
    (slot : Slot) : Live :=
  if slot.state.lastUsedMs < p.cutoff then
    w.setPass j ⟨p.cutoff, rest, .removing producer slot.state.owner⟩
  else w.setPass j ⟨p.cutoff, rest, .visiting⟩

/-- Take a producer out of the map, whichever slot the map has for it. -/
def remove (w : Live) (j : Nat) (p : ExpirePass) (producer owner : String) : Live :=
  let w := w.setPass j { p with phase := .visiting }
  if producer ∈ w.map then
    { w with
      map := w.map.erase producer
      perOwner := Function.update w.perOwner owner (w.perOwner owner - 1) }
  else w

def step (w : Live) : LiveEvent → Option Live
  | .tick now => if w.now ≤ now then some { w with now } else none
  | .admission producer owner =>
    some { w with
      admissions := w.admissions ++ [⟨producer, owner, w.beginAdmission producer⟩] }
  | .limits id => do
    let a ← w.admissions[id]?
    if a.phase = .absent then some (w.setAdmission id a (w.limits a.owner)) else none
  | .create id => do
    let a ← w.admissions[id]?
    if a.phase = .cleared then some (w.create id a) else none
  | .lock id => do
    let a ← w.admissions[id]?
    match a.phase with
    | .found k => do
      let slot ← w.slots[k]?
      if slot.locked then none else some (w.lock id k a slot)
    | _ => none
  | .record id topic partition sequence offset => do
    let a ← w.admissions[id]?
    match a.phase with
    | .holding k => do
      let slot ← w.slots[k]?
      some { w.setSlot k
          { slot with state := slot.state.record w.now topic partition sequence offset } with
        recorded := w.recorded ++ [⟨a.producer, topic, partition, sequence, w.now⟩] }
    | _ => none
  | .release id => do
    let a ← w.admissions[id]?
    match a.phase with
    | .holding k => do
      let slot ← w.slots[k]?
      some ((w.setSlot k { slot with locked := false }).setAdmission id a .done)
    | _ => none
  | .expire maxIdle =>
    some { w with passes := w.passes ++ [⟨satSub w.now maxIdle, [], .collecting⟩] }
  | .collect j producer => do
    let p ← w.passes[j]?
    let k ← w.map[producer]?
    if p.phase = .collecting then
      some (w.setPass j { p with slots := p.slots ++ [(producer, k)] })
    else none
  | .visit j => do
    let p ← w.passes[j]?
    match p.slots with
    | [] => none
    | (producer, k) :: rest => do
      let slot ← w.slots[k]?
      if p.phase = .collecting ∨ p.phase = .visiting then
        if slot.locked then none else some (w.visit j p producer rest slot)
      else none
  | .remove j => do
    let p ← w.passes[j]?
    match p.phase with
    | .removing producer owner => some (w.remove j p producer owner)
    | _ => none

def run (w : Live) (events : List LiveEvent) : Option Live := events.foldlM step w

/-- Nobody holds the slot, or waits for it. -/
def Unclaimed (w : Live) (k : Nat) : Prop := ∀ a ∈ w.admissions, a.phase.slot ≠ some k

instance (w : Live) (k : Nat) : Decidable (w.Unclaimed k) :=
  inferInstanceAs (Decidable (∀ a ∈ w.admissions, _ ≠ _))

/-- The slot of `producer` is idle as the pass takes it out, not only as the pass looked. -/
def IdleAt (w : Live) (cutoff : Int) (producer : String) : Prop :=
  ∀ k ∈ w.map[producer]?, (∀ slot ∈ w.slots[k]?, slot.state.lastUsedMs < cutoff) ∧ w.Unclaimed k

instance (w : Live) (cutoff : Int) (producer : String) : Decidable (w.IdleAt cutoff producer) :=
  inferInstanceAs (Decidable (∀ k ∈ w.map[producer]?, _ ∧ _))

/-- What a step must respect: a producer is taken out of the map only while it is idle. -/
def Idle (w : Live) : LiveEvent → Prop
  | .remove j =>
    ∀ p ∈ w.passes[j]?, ∀ x ∈ p.phase.candidate, w.IdleAt p.cutoff x
  | _ => True

instance (w : Live) : DecidablePred w.Idle
  | .remove j =>
    inferInstanceAs (Decidable (∀ p ∈ w.passes[j]?, ∀ x ∈ p.phase.candidate, w.IdleAt p.cutoff x))
  | .tick _ | .admission .. | .limits _ | .create _ | .lock _ | .record .. | .release _
  | .expire _ | .collect .. | .visit _ => isTrue trivial

/-! ### What holds while idle producers alone are taken out -/

/-- The map has a slot for the producer of `r` that remembers `r` and was used since. -/
def Keeps (w : Live) (r : Recorded) : Prop :=
  ∃ k slot, w.map[r.producer]? = some k ∧ w.slots[k]? = some slot ∧
    slot.state.Remembers r.topic r.partition r.sequence ∧ r.time ≤ slot.state.lastUsedMs

structure Sound (w : Live) : Prop where
  /-- A slot that is claimed is the one in the map. -/
  current : ∀ a ∈ w.admissions, ∀ k, a.phase.slot = some k → w.map[a.producer]? = some k
  past : ∀ r ∈ w.recorded, r.time ≤ w.now
  kept : ∀ r ∈ w.recorded, (∀ p ∈ w.passes, p.cutoff ≤ r.time) → w.Keeps r

variable {w : Live} {k j id : Nat} {a : Admission} {slot' : Slot} {p : ExpirePass}
    {producer : String}

theorem Keeps.setSlot {r : Recorded} (h : w.Keeps r) {slot : Slot} (hk : w.slots[k]? = some slot)
    (hrem : slot.state.Remembers r.topic r.partition r.sequence →
      slot'.state.Remembers r.topic r.partition r.sequence)
    (hused : r.time ≤ slot.state.lastUsedMs → r.time ≤ slot'.state.lastUsedMs) :
    (w.setSlot k slot').Keeps r := by
  obtain ⟨k₀, slot₀, hmap, hslot, hrem₀, hused₀⟩ := h
  by_cases hkk : k = k₀
  · subst hkk
    obtain rfl := Option.some.inj (hk.symm.trans hslot)
    exact ⟨k, slot', hmap, List.getElem?_set_self (List.getElem?_eq_some_iff.mp hk).1,
      hrem hrem₀, hused hused₀⟩
  · exact ⟨k₀, slot₀, hmap, (List.getElem?_set_ne hkk).trans hslot, hrem₀, hused₀⟩

theorem Sound.setSlot (h : w.Sound) {slot : Slot} (hk : w.slots[k]? = some slot)
    (hrem : ∀ topic partition sequence, slot.state.Remembers topic partition sequence →
      slot'.state.Remembers topic partition sequence)
    (hused : slot'.state.lastUsedMs = slot.state.lastUsedMs ∨ slot'.state.lastUsedMs = w.now) :
    (w.setSlot k slot').Sound := by
  refine ⟨h.current, h.past, fun r hr hcut => (h.kept r hr hcut).setSlot hk (hrem _ _ _) ?_⟩
  intro hle
  rcases hused with heq | heq
  · rw [heq]
    exact hle
  · rw [heq]
    exact h.past r hr

theorem Sound.countOwner (h : w.Sound) (owner : String) : (w.countOwner owner).Sound :=
  ⟨h.current, h.past, h.kept⟩

theorem Sound.setAdmission (h : w.Sound) (id : Nat) (a : Admission) {phase : AdmitPhase}
    (hphase : ∀ k, phase.slot = some k → w.map[a.producer]? = some k) :
    (w.setAdmission id a phase).Sound := by
  refine ⟨fun b hb => ?_, h.past, h.kept⟩
  rcases List.mem_or_eq_of_mem_set hb with hb | rfl
  · exact h.current b hb
  · exact hphase

theorem Sound.setPass (h : w.Sound) {p' : ExpirePass} (hp : w.passes[j]? = some p)
    (hcut : p'.cutoff = p.cutoff) : (w.setPass j p').Sound := by
  refine ⟨h.current, h.past, fun r hr hall => h.kept r hr fun q hq => ?_⟩
  obtain ⟨i, hi⟩ := List.mem_iff_getElem?.mp hq
  by_cases hij : j = i
  · subst hij
    obtain rfl := Option.some.inj (hp.symm.trans hi)
    rw [← hcut]
    exact hall p' (List.mem_of_getElem?
      (List.getElem?_set_self (List.getElem?_eq_some_iff.mp hp).1))
  · exact hall q (List.mem_of_getElem? ((List.getElem?_set_ne hij).trans hi))

theorem beginAdmission_slot (w : Live) (h : (w.beginAdmission producer).slot = some k) :
    w.map[producer]? = some k := by
  unfold beginAdmission at h
  split at h
  · cases h
  · split at h
    · rename_i k' hk'
      cases h
      exact hk'
    · cases h

theorem limits_slot (w : Live) (owner : String) (k : Nat) : (w.limits owner).slot ≠ some k := by
  unfold limits
  split
  · nofun
  · split <;> nofun

theorem Sound.create {w : Live} (h : w.Sound) (id : Nat) (a : Admission) :
    (w.create id a).Sound := by
  unfold Live.create
  split
  · rename_i k hk
    refine h.setAdmission id a fun k' hk' => ?_
    cases hk'
    exact hk
  · rename_i hnone
    have hne : ∀ {x k}, w.map[x]? = some k → x ≠ a.producer := by
      intro x k hx heq
      rw [heq, hnone] at hx
      cases hx
    have hmap : ∀ {x k}, w.map[x]? = some k →
        (w.map.insert a.producer w.slots.length)[x]? = some k :=
      fun hx => (getElem?_insert_of_ne _ (hne hx)).trans hx
    refine ⟨fun b hb k hk => ?_, h.past, fun r hr hcut => ?_⟩
    · rcases List.mem_or_eq_of_mem_set hb with hb | rfl
      · exact hmap (h.current b hb k hk)
      · cases hk
        exact TreeMap.getElem?_insert_self
    · obtain ⟨k, slot, hk, hslot, hrem, hused⟩ := h.kept r hr hcut
      refine ⟨k, slot, hmap hk, ?_, hrem, hused⟩
      exact (List.getElem?_append_left (List.getElem?_eq_some_iff.mp hslot).1).trans hslot

section
variable (h : w.Sound)
include h

theorem Sound.grant (id : Nat) {slot : Slot} (hcur : w.map[a.producer]? = some k)
    (hk : w.slots[k]? = some slot) (owner : String) :
    ((w.setSlot k ⟨⟨owner, w.now, slot.state.partitions⟩, true⟩).setAdmission id a
      (.holding k)).Sound := by
  refine Sound.setAdmission ?_ id a fun k' hk' => ?_
  · exact h.setSlot hk (fun _ _ _ hr => hr) (Or.inr rfl)
  · cases hk'
    exact hcur

theorem Sound.deny (id : Nat) (a : Admission) {slot : Slot} (hk : w.slots[k]? = some slot)
    (owner : String) (e : AdmitError) :
    ((w.setSlot k ⟨{ slot.state with owner }, false⟩).setAdmission id a (.refused e)).Sound := by
  refine Sound.setAdmission ?_ id a fun k' hk' => ?_
  · exact h.setSlot hk (fun _ _ _ hr => hr) (Or.inl rfl)
  · cases hk'

theorem Sound.lock {slot : Slot} (ha : w.admissions[id]? = some a) (hphase : a.phase = .found k)
    (hk : w.slots[k]? = some slot) : (w.lock id k a slot).Sound := by
  have hcur : w.map[a.producer]? = some k :=
    h.current a (List.mem_of_getElem? ha) k (by rw [hphase]; rfl)
  unfold Live.lock
  dsimp only
  split <;> split
  · exact (h.countOwner a.owner).grant id hcur hk a.owner
  · exact (h.countOwner a.owner).deny id a hk a.owner _
  · exact h.grant id hcur hk slot.state.owner
  · exact h.deny id a hk slot.state.owner _

theorem Sound.record {slot : Slot} (ha : w.admissions[id]? = some a) (hphase : a.phase = .holding k)
    (hk : w.slots[k]? = some slot) (topic : String) (partition : Nat) (sequence : Int)
    (offset : Nat) :
    Sound { w.setSlot k
        { slot with state := slot.state.record w.now topic partition sequence offset } with
      recorded := w.recorded ++ [⟨a.producer, topic, partition, sequence, w.now⟩] } := by
  have hset : (w.setSlot k { slot with
      state := slot.state.record w.now topic partition sequence offset }).Sound :=
    h.setSlot hk (fun _ _ _ hr => hr.record w.now topic partition sequence offset) (Or.inr rfl)
  refine ⟨hset.current, fun r hr => ?_, fun r hr hcut => ?_⟩
  · rcases List.mem_append.mp hr with hr | hr
    · exact h.past r hr
    · rw [List.mem_singleton.mp hr]
      exact Int.le_refl _
  · rcases List.mem_append.mp hr with hr | hr
    · exact hset.kept r hr hcut
    · rw [List.mem_singleton.mp hr]
      refine ⟨k, _, h.current a (List.mem_of_getElem? ha) k (by rw [hphase]; rfl),
        List.getElem?_set_self (List.getElem?_eq_some_iff.mp hk).1, ?_, Int.le_refl _⟩
      exact slot.state.record_remembers ..

theorem Sound.remove {owner : String} (hp : w.passes[j]? = some p)
    (hidle : w.IdleAt p.cutoff producer) : (w.remove j p producer owner).Sound := by
  have hpass : (w.setPass j { p with phase := .visiting }).Sound := h.setPass hp rfl
  unfold Live.remove
  dsimp only
  split
  · rename_i hmem
    refine ⟨fun a ha k hk => ?_, hpass.past, fun r hr hcut => ?_⟩
    · have hcur := hpass.current a ha k hk
      have hne : a.producer ≠ producer := fun heq =>
        (hidle k (heq ▸ hcur)).2 a ha hk
      exact (getElem?_erase_of_ne hne).trans hcur
    · obtain ⟨k, slot, hk, hslot, hrem, hused⟩ := hpass.kept r hr hcut
      have hne : r.producer ≠ producer := by
        intro heq
        have hlt := (hidle k (heq ▸ hk)).1 slot hslot
        have hle := hcut _ (List.mem_of_getElem?
          (List.getElem?_set_self (List.getElem?_eq_some_iff.mp hp).1))
        dsimp only at hle
        omega
      exact ⟨k, slot, (getElem?_erase_of_ne hne).trans hk, hslot, hrem, hused⟩
  · exact hpass

end

theorem Sound.step {w w' : Live} {e : LiveEvent} (h : w.Sound) (hidle : w.Idle e)
    (hstep : w.step e = some w') : w'.Sound := by
  cases e with
  | tick now =>
    obtain ⟨hle, hstep⟩ := Option.ite_none_right_eq_some.mp hstep
    cases hstep
    exact ⟨h.current, fun r hr => Int.le_trans (h.past r hr) hle, h.kept⟩
  | admission producer owner =>
    cases hstep
    refine ⟨fun a ha k hk => ?_, h.past, h.kept⟩
    rcases List.mem_append.mp ha with ha | ha
    · exact h.current a ha k hk
    · rw [List.mem_singleton.mp ha] at hk ⊢
      exact w.beginAdmission_slot hk
  | limits id =>
    obtain ⟨a, ha, hif⟩ := Option.bind_eq_some_iff.mp hstep
    obtain ⟨-, hset⟩ := Option.ite_none_right_eq_some.mp hif
    cases hset
    exact h.setAdmission id a fun k hk => absurd hk (w.limits_slot a.owner k)
  | create id =>
    obtain ⟨a, ha, hif⟩ := Option.bind_eq_some_iff.mp hstep
    obtain ⟨-, hset⟩ := Option.ite_none_right_eq_some.mp hif
    cases hset
    exact h.create id a
  | lock id =>
    obtain ⟨a, ha, hmatch⟩ := Option.bind_eq_some_iff.mp hstep
    split at hmatch
    · rename_i k hphase
      obtain ⟨slot, hslot, hif⟩ := Option.bind_eq_some_iff.mp hmatch
      obtain ⟨-, hlock⟩ := Option.ite_none_left_eq_some.mp hif
      cases hlock
      exact h.lock ha hphase hslot
    · cases hmatch
  | record id topic partition sequence offset =>
    obtain ⟨a, ha, hmatch⟩ := Option.bind_eq_some_iff.mp hstep
    split at hmatch
    · rename_i k hphase
      obtain ⟨slot, hslot, hrec⟩ := Option.bind_eq_some_iff.mp hmatch
      cases hrec
      exact h.record ha hphase hslot topic partition sequence offset
    · cases hmatch
  | release id =>
    obtain ⟨a, ha, hmatch⟩ := Option.bind_eq_some_iff.mp hstep
    split at hmatch
    · obtain ⟨slot, hslot, hset⟩ := Option.bind_eq_some_iff.mp hmatch
      cases hset
      refine Sound.setAdmission ?_ id a fun k' hk' => ?_
      · exact h.setSlot hslot (fun _ _ _ hr => hr) (Or.inl rfl)
      · cases hk'
    · cases hmatch
  | expire maxIdle =>
    cases hstep
    exact ⟨h.current, h.past, fun r hr hcut =>
      h.kept r hr fun p hp => hcut p (List.mem_append_left _ hp)⟩
  | collect j producer =>
    obtain ⟨p, hp, hrest⟩ := Option.bind_eq_some_iff.mp hstep
    obtain ⟨k, hk, hif⟩ := Option.bind_eq_some_iff.mp hrest
    obtain ⟨-, hset⟩ := Option.ite_none_right_eq_some.mp hif
    cases hset
    exact h.setPass hp rfl
  | visit j =>
    obtain ⟨p, hp, hmatch⟩ := Option.bind_eq_some_iff.mp hstep
    split at hmatch
    · cases hmatch
    · obtain ⟨slot, hslot, hif⟩ := Option.bind_eq_some_iff.mp hmatch
      obtain ⟨-, hif⟩ := Option.ite_none_right_eq_some.mp hif
      obtain ⟨-, hvisit⟩ := Option.ite_none_left_eq_some.mp hif
      cases hvisit
      unfold Live.visit
      split <;> exact h.setPass hp rfl
  | remove j =>
    obtain ⟨p, hp, hmatch⟩ := Option.bind_eq_some_iff.mp hstep
    split at hmatch
    · rename_i producer owner hphase
      cases hmatch
      exact h.remove hp (hidle p hp producer (by rw [hphase]; rfl))
    · cases hmatch

/-- The runs from a loaded registry in which idle producers alone are taken out. -/
def Careful (w : Live) : Prop :=
  ∃ map slots perOwner now, Runs step Idle (loaded map slots perOwner now) w

theorem Careful.sound (h : w.Careful) : w.Sound := by
  obtain ⟨_, _, _, _, hrun⟩ := h
  exact hrun.keeps ⟨nofun, nofun, nofun⟩ fun h hidle hstep => h.step hidle hstep

/-- What the holder of a slot is answered for a sequence. -/
def answer (w : Live) (a : Admission) (topic : String) (partition : Nat) (sequence : Int) :
    Option DedupeOutcome :=
  match a.phase with
  | .holding k => w.slots[k]?.map fun slot => slot.state.check topic partition sequence
  | _ => none

end Live

/-- A sequence recorded at some time is not accepted from any admission of its producer, as long
as every expiry pass so far had a cutoff no later than that time. -/
theorem recorded_sequence_not_accepted {w : Live} (h : w.Careful) {r : Recorded}
    (hr : r ∈ w.recorded) (hmax : r.sequence < i64Max)
    (hcut : ∀ p ∈ w.passes, p.cutoff ≤ r.time) {a : Admission} (ha : a ∈ w.admissions)
    (hproducer : a.producer = r.producer) :
    w.answer a r.topic r.partition r.sequence ≠ some .accept := by
  obtain ⟨k, slot, hk, hslot, hrem, -⟩ := h.sound.kept r hr hcut
  unfold Live.answer
  split
  · rename_i k' hphase
    have hcur := h.sound.current a ha k' (by rw [hphase]; rfl)
    rw [hproducer] at hcur
    obtain rfl := Option.some.inj (hk.symm.trans hcur)
    rw [hslot]
    exact fun heq => hrem.check_ne_accept hmax (Option.some.inj heq)
  · nofun

/-- A registry with nothing in it, at time 0. -/
def Live.fresh : Live := .loaded ∅ [] (fun _ => 0) 0

/-- The steps of a call of `admit` that makes a producer. -/
def admitNew (id : Nat) (producer owner : String) : List LiveEvent :=
  [.admission producer owner, .limits id, .create id, .lock id]

/-- Two producers are made at time 0. At time 100 one of them records sequence 5, and a pass with
cutoff 50 takes the other out; the first is admitted again. -/
def expiredRun : List LiveEvent :=
  admitNew 0 "p" "key" ++ ([.release 0] : List LiveEvent) ++ admitNew 1 "q" "key" ++
    ([.release 1] : List LiveEvent) ++
    ([.tick 100, .admission "p" "key", .lock 2, .record 2 "orders" 0 5 9, .release 2, .expire 50,
      .collect 0 "p", .collect 0 "q", .visit 0, .visit 0, .remove 0, .admission "p" "key",
      .lock 3] : List LiveEvent)

theorem expiredRun_runs : (Runs.replay Live.step Live.Idle .fresh expiredRun).isSome := by
  decide +kernel

def expired : Live := (Runs.replay Live.step Live.Idle .fresh expiredRun).get expiredRun_runs

theorem expired_careful : expired.Careful :=
  ⟨∅, [], fun _ => 0, 0, Runs.of_replay (Option.some_get expiredRun_runs).symm⟩

theorem recorded_sequence_not_accepted_again :
    expired.map.toList = [("p", 0)] ∧
      expired.answer ⟨"p", "key", .holding 0⟩ "orders" 0 5 = some (.duplicate 9) ∧
      expired.answer ⟨"p", "key", .holding 0⟩ "orders" 0 5 ≠ some .accept := by
  refine ⟨by decide +kernel, by decide +kernel, ?_⟩
  exact recorded_sequence_not_accepted (r := ⟨"p", "orders", 0, 5, 100⟩)
    expired_careful (by decide +kernel) (by decide) (by decide +kernel) (by decide +kernel) rfl

/-! ### What goes wrong otherwise -/

/-- A producer made at time 0 is looked up at time 100 by a request and found idle by a pass with
cutoff 50. The request then records sequence 5, and the pass takes the producer out. -/
def overtakenRun : List LiveEvent :=
  admitNew 0 "p" "key" ++ ([.release 0] : List LiveEvent) ++
    ([.tick 100, .expire 50, .collect 0 "p", .admission "p" "key", .visit 0, .lock 1,
      .record 1 "orders" 0 5 9, .release 1, .remove 0] : List LiveEvent) ++
    admitNew 2 "p" "key"

/-- The next request of the producer is answered that sequence 5 is new. -/
theorem recorded_sequence_forgotten :
    (Live.fresh.run overtakenRun).map (fun w =>
        (w.recorded, w.passes.map (·.cutoff), w.admissions.map fun a => w.answer a "orders" 0 5)) =
      some ([⟨"p", "orders", 0, 5, 100⟩], [50], [none, none, some .accept]) := by
  decide +kernel

end EventStream.Producers
