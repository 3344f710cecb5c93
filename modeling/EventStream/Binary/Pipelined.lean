import EventStream.Machine

/-! The pipelined client (`binary/pipelined.rs`).

Callers of `round_trip` register a waiter, write their frame and wait. A reader task resolves the
waiters; when it stops, for whatever reason, it fails those that are left, and so does `shutdown`.
Registering, writing and the final sweep are not synchronised. A caller that registers after the
sweep has collected the waiters, and whose write still succeeds, is waited for by nobody
(`late_caller_left_behind`); all others are resolved (`no_caller_left_behind`). -/
namespace EventStream.Binary.Pipelined

/-- What the reader makes of a frame: an opcode and a body, or the server's message. -/
abbrev FrameOutcome := Except String (UInt8 × Bytes)

/-- What a waiter's channel yields; it is closed when its sender is dropped. -/
inductive Answer where
  | sent (outcome : FrameOutcome)
  | closed
  deriving DecidableEq

/-- What `round_trip` returns for it. -/
def Answer.result : Answer → FrameOutcome
  | .sent (.ok pair) => .ok pair
  | .sent (.error msg) => .error s!"server error: {msg}"
  | .closed => .error "connection closed before response"

/-- How far a `round_trip` has come. -/
inductive Phase where
  /-- The waiter is in the map. -/
  | registered
  | framed
  /-- The frame was written. -/
  | waiting
  | done (result : FrameOutcome)
  deriving DecidableEq

/-- A call of `round_trip`, with what its channel has received. -/
structure Caller where
  id : UInt32
  phase : Phase
  received : Option Answer
  /-- It registered after the reader's sweep had collected the waiters. -/
  late : Bool
  deriving DecidableEq

/-- Where the reader or a `shutdown` is on its way through `fail_all`. -/
inductive Sweep where
  /-- The reader is in its loop. -/
  | reading
  /-- `shutdown` waits for the reader to end. -/
  | joining
  | failing
  /-- The ids were collected; these are still to be removed. -/
  | removing (due : List UInt32)
  | ended
  deriving DecidableEq

/-- The client: its map of waiters, the calls, and who is failing waiters. -/
structure World where
  nextId : UInt32
  /-- The waiters, with the callers they belong to. -/
  pending : List (UInt32 × Nat)
  callers : List Caller
  /-- The reader, and the calls of `shutdown` after it. -/
  sweeps : List Sweep
  joinTaken : Bool
  deriving DecidableEq

/-- What a call, the reader or a `shutdown` does next. -/
inductive Event where
  /-- A `round_trip` begins. -/
  | call
  | compressFails (c : Nat) (why : String)
  | encode (c : Nat) (error : Option String)
  | write (c : Nat) (error : Option String)
  | receive (c : Nat)
  /-- The reader reads a frame. -/
  | frame (id : UInt32) (outcome : FrameOutcome)
  /-- A read error, a bad frame or the cancellation. -/
  | stop
  | shutdown
  | joined (k : Nat)
  | collect (k : Nat)
  | remove (k : Nat)
  | finish (k : Nat)
  deriving DecidableEq

/-- The ids that a sweep has still to remove, once it has collected them. -/
def Sweep.due : Sweep → Option (List UInt32)
  | .removing due => some due
  | .ended => some []
  | _ => none

namespace World

/-- After `connect`. -/
def connected : World :=
  { nextId := 1, pending := [], callers := [], sweeps := [.reading], joinTaken := false }

/-- `pending.remove`; the sender that was there sends the answer, or is dropped. -/
def resolve (w : World) (id : UInt32) (answer : Answer) : World :=
  match w.pending.lookup id with
  | none => w
  | some c =>
    { w with
      pending := w.pending.filter (·.1 ≠ id)
      callers := w.callers.modify c fun x => { x with received := some answer } }

def setPhase (w : World) (c : Nat) (phase : Phase) : World :=
  { w with callers := w.callers.modify c fun x => { x with phase } }

def setSweep (w : World) (k : Nat) (s : Sweep) : World := { w with sweeps := w.sweeps.set k s }

/-- A caller in this phase. -/
def inPhase (w : World) (c : Nat) (phase : Phase) : Option Caller :=
  w.callers[c]?.filter (·.phase = phase)

/-- The reader has collected the waiters it fails. -/
def collected (w : World) : Bool := (w.sweeps[0]?.bind Sweep.due).isSome

/-- `pending.insert`, which drops the sender that the id had. -/
def register (w : World) : World :=
  let w' := w.resolve w.nextId .closed
  { w' with
    nextId := w.nextId + 1
    pending := (w.nextId, w.callers.length) :: w'.pending
    callers := w'.callers ++ [⟨w.nextId, .registered, none, w.collected⟩] }

/-- The call removes its waiter and returns the error. -/
def giveUp (w : World) (c : Nat) (x : Caller) (why : String) : World :=
  (w.resolve x.id .closed).setPhase c (.done (.error why))

def step (w : World) : Event → Option World
  | .call => some w.register
  | .compressFails c why =>
    (w.inPhase c .registered).map fun _ => w.setPhase c (.done (.error why))
  | .encode c none => (w.inPhase c .registered).map fun _ => w.setPhase c .framed
  | .encode c (some why) => (w.inPhase c .registered).map fun x => w.giveUp c x why
  | .write c none => (w.inPhase c .framed).map fun _ => w.setPhase c .waiting
  | .write c (some why) => (w.inPhase c .framed).map fun x => w.giveUp c x why
  | .receive c =>
    (w.inPhase c .waiting).bind fun x => x.received.map fun a => w.setPhase c (.done a.result)
  | .frame id outcome =>
    if w.sweeps[0]? = some .reading then some (w.resolve id (.sent outcome)) else none
  | .stop => if w.sweeps[0]? = some .reading then some (w.setSweep 0 .failing) else none
  | .shutdown =>
    some { w with
      sweeps := w.sweeps ++ [if w.joinTaken then .failing else .joining]
      joinTaken := true }
  | .joined k =>
    if w.sweeps[k]? = some .joining ∧ w.sweeps[0]? = some .ended then some (w.setSweep k .failing)
    else none
  | .collect k =>
    if w.sweeps[k]? = some .failing then some (w.setSweep k (.removing (w.pending.map Prod.fst)))
    else none
  | .remove k =>
    match w.sweeps[k]? with
    | some (.removing (id :: due)) =>
      let why := if k = 0 then "connection closed" else "client shutdown"
      some ((w.resolve id (.sent (.error why))).setSweep k (.removing due))
    | _ => none
  | .finish k => if w.sweeps[k]? = some (.removing []) then some (w.setSweep k .ended) else none

/-- The task will still remove the waiter of `id`. -/
def willRemove (w : World) (id : UInt32) (k : Nat) : Bool :=
  match w.sweeps[k]? with
  | some .reading => true
  | some .joining | some .failing => true
  | some (.removing due) => id ∈ due
  | some .ended | none => false

/-- A caller waits and no task remains that will resolve it. -/
def LeftBehind (w : World) : Prop :=
  ∃ c x, w.callers[c]? = some x ∧ x.phase = .waiting ∧ x.received = none ∧
    (x.id, c) ∈ w.pending ∧ ∀ k, w.willRemove x.id k = false

/-- No caller that registered too late succeeds in writing its frame. -/
def Prompt (w : World) (e : Event) : Prop :=
  ∀ c, e = .write c none → ∀ x, w.callers[c]? = some x → x.late = false

end World

/-- The interleavings in which every step is so. -/
abbrev PromptRun : World → Prop := Runs World.step World.Prompt .connected

/-! ### The invariant -/

/-- What prompt steps keep. -/
structure Inv (w : World) : Prop where
  /-- A call under way has its waiter in the map, or its answer. -/
  waits : ∀ (c : Nat) (x : Caller), w.callers[c]? = some x → (∀ r, x.phase ≠ .done r) →
    (x.id, c) ∈ w.pending ∨ x.received.isSome
  unique : ∀ id c c', (id, c) ∈ w.pending → (id, c') ∈ w.pending → c = c'
  /-- What the reader's sweep will not remove belongs to those who were late. -/
  swept : ∀ (s : Sweep) due, w.sweeps[0]? = some s → s.due = some due →
    ∀ (c : Nat) (x : Caller), (x.id, c) ∈ w.pending → w.callers[c]? = some x →
      x.late = true ∨ x.id ∈ due
  prompt : ∀ (c : Nat) (x : Caller), w.callers[c]? = some x → x.phase = .waiting → x.late = false
  reader : ∃ s, w.sweeps[0]? = some s ∧ s ≠ .joining

section
variable {w w' : World} {id : UInt32} {a : Answer} {c : Nat} {phase : Phase} {x : Caller}

theorem resolve_sweeps (w : World) (id : UInt32) (a : Answer) :
    (w.resolve id a).sweeps = w.sweeps := by
  unfold World.resolve
  split <;> rfl

theorem length_resolve (w : World) (id : UInt32) (a : Answer) :
    (w.resolve id a).callers.length = w.callers.length := by
  unfold World.resolve
  split
  · rfl
  · exact List.length_modify ..

theorem mem_of_resolve {p : UInt32 × Nat} (h : p ∈ (w.resolve id a).pending) :
    p ∈ w.pending ∧ p.1 ≠ id := by
  unfold World.resolve at h
  split at h
  · rename_i hnone
    refine ⟨h, fun heq => ?_⟩
    have := List.lookup_eq_none_iff.mp hnone p h
    simp [heq] at this
  · simpa using List.mem_filter.mp h

/-- What resolving a waiter leaves of a caller, and of the map. -/
theorem Inv.of_resolve (hw : Inv w) {j : Nat} {x' : Caller}
    (h : (w.resolve id a).callers[j]? = some x') :
    ∃ x, w.callers[j]? = some x ∧ x'.id = x.id ∧ x'.phase = x.phase ∧ x'.late = x.late ∧
      (x.received.isSome → x'.received.isSome) ∧
      ((x.id, j) ∈ w.pending → (x.id, j) ∈ (w.resolve id a).pending ∨ x'.received.isSome) := by
  unfold World.resolve at h ⊢
  cases hlookup : w.pending.lookup id with
  | none =>
    rw [hlookup] at h
    exact ⟨x', h, rfl, rfl, rfl, fun hr => hr, .inl⟩
  | some c =>
    rw [hlookup] at h
    obtain ⟨x, hx, ⟨-, rfl⟩ | ⟨hne, rfl⟩⟩ := getElem?_modify_cases h
    · exact ⟨x, hx, rfl, rfl, rfl, fun _ => rfl, fun _ => .inr rfl⟩
    · refine ⟨x', hx, rfl, rfl, rfl, fun hr => hr, fun hm => .inl (List.mem_filter.mpr ⟨hm, ?_⟩)⟩
      obtain ⟨l₁, l₂, heq, -⟩ := List.lookup_eq_some_iff.mp hlookup
      have hmem : (id, c) ∈ w.pending := by simp [heq]
      simp only [ne_eq, decide_eq_true_eq]
      exact fun hid => hne (hw.unique id c j hmem (hid ▸ hm))

section
variable (h : Inv w)
include h

theorem Inv.resolve (id : UInt32) (a : Answer) : Inv (w.resolve id a) where
  waits := fun c x' hx' hphase => by
    obtain ⟨x, hx, hid, hph, -, hreceived, hpending⟩ := h.of_resolve hx'
    rw [hid]
    exact (h.waits c x hx (hph ▸ hphase)).elim hpending fun hr => .inr (hreceived hr)
  unique := fun id c c' hc hc' => h.unique id c c' (mem_of_resolve hc).1 (mem_of_resolve hc').1
  swept := fun s due hs hdue c x' hmem hx' => by
    obtain ⟨x, hx, hid, -, hlate, -⟩ := h.of_resolve hx'
    rw [hid] at hmem ⊢
    rw [hlate]
    exact h.swept s due (resolve_sweeps w id a ▸ hs) hdue c x (mem_of_resolve hmem).1 hx
  prompt := fun c x' hx' hphase => by
    obtain ⟨x, hx, -, hph, hlate, -⟩ := h.of_resolve hx'
    exact hlate ▸ h.prompt c x hx (hph ▸ hphase)
  reader := resolve_sweeps w id a ▸ h.reader

theorem Inv.setPhase (hold : ∀ x, w.callers[c]? = some x → ∀ r, x.phase ≠ .done r)
    (hprompt : phase = .waiting → ∀ x, w.callers[c]? = some x → x.late = false) :
    Inv (w.setPhase c phase) where
  waits := fun j x' hx' hphase => by
    obtain ⟨x, hx, ⟨rfl, rfl⟩ | ⟨-, rfl⟩⟩ := getElem?_modify_cases hx'
    · exact h.waits c x hx (hold x hx)
    · exact h.waits j x' hx hphase
  unique := h.unique
  swept := fun s due hs hdue j x' hmem hx' => by
    obtain ⟨x, hx, ⟨-, rfl⟩ | ⟨-, rfl⟩⟩ := getElem?_modify_cases hx'
    · exact h.swept s due hs hdue j x hmem hx
    · exact h.swept s due hs hdue j x' hmem hx
  prompt := fun j x' hx' hphase => by
    obtain ⟨x, hx, ⟨rfl, rfl⟩ | ⟨-, rfl⟩⟩ := getElem?_modify_cases hx'
    · exact hprompt hphase x hx
    · exact h.prompt j x' hx hphase
  reader := h.reader

theorem Inv.setSweep {k : Nat} {s : Sweep}
    (hreader : k = 0 → s ≠ .joining ∧ ∀ due, s.due = some due → ∀ (c : Nat) (x : Caller),
      (x.id, c) ∈ w.pending → w.callers[c]? = some x → x.late = true ∨ x.id ∈ due) :
    Inv (w.setSweep k s) where
  waits := h.waits
  unique := h.unique
  swept := fun s' due hs hdue => by
    rcases getElem?_set_cases hs with ⟨hk, rfl⟩ | ⟨-, hold⟩
    · exact (hreader hk.symm).2 due hdue
    · exact h.swept s' due hold hdue
  prompt := h.prompt
  reader := by
    obtain ⟨s₀, hs₀, hne⟩ := h.reader
    by_cases hk : k = 0
    · subst hk
      exact ⟨s, List.getElem?_set_self (List.getElem?_eq_some_iff.mp hs₀).1, (hreader rfl).1⟩
    · exact ⟨s₀, (List.getElem?_set_ne hk).trans hs₀, hne⟩

theorem Inv.giveUp (hx : w.callers[c]? = some x) (hphase : ∀ r, x.phase ≠ .done r) (why : String) :
    Inv (w.giveUp c x why) := by
  refine (h.resolve x.id .closed).setPhase (fun x' hx' => ?_) nofun
  obtain ⟨x₀, hx₀, -, hph, -⟩ := h.of_resolve hx'
  rw [hx] at hx₀
  cases hx₀
  exact hph ▸ hphase

theorem Inv.register : Inv w.register := by
  have hw := h.resolve w.nextId .closed
  have hlen := length_resolve w w.nextId .closed
  have hsweeps := resolve_sweeps w w.nextId .closed
  refine ⟨fun c x hx hphase => ?_, fun id c c' hc hc' => ?_, fun s due hs hdue c x hm hx => ?_,
    fun c x hx hphase => ?_, hw.reader⟩
  · rcases getElem?_concat_cases hx with ⟨rfl, rfl⟩ | hx
    · exact .inl (hlen ▸ List.mem_cons_self)
    · exact (hw.waits c x hx hphase).imp_left (List.mem_cons_of_mem _)
  · rcases List.mem_cons.mp hc with heq | hc <;> rcases List.mem_cons.mp hc' with heq' | hc'
    · exact (Prod.mk.inj heq).2.trans (Prod.mk.inj heq').2.symm
    · exact absurd (Prod.mk.inj heq).1 (mem_of_resolve hc').2
    · exact absurd (Prod.mk.inj heq').1 (mem_of_resolve hc).2
    · exact hw.unique id c c' hc hc'
  · rcases getElem?_concat_cases hx with ⟨rfl, rfl⟩ | hx
    · refine .inl ?_
      show w.collected = true
      rw [World.collected, ← hsweeps, show (w.resolve w.nextId .closed).sweeps[0]? = some s from hs,
        Option.bind_some, hdue]
      rfl
    · rcases List.mem_cons.mp hm with heq | hm
      · have hlt := (List.getElem?_eq_some_iff.mp hx).1
        rw [(Prod.mk.inj heq).2, hlen] at hlt
        exact absurd hlt (Nat.lt_irrefl _)
      · exact hw.swept s due hs hdue c x hm hx
  · rcases getElem?_concat_cases hx with ⟨rfl, rfl⟩ | hx
    · cases hphase
    · exact hw.prompt c x hx hphase

end

theorem of_inPhase (h : w.inPhase c phase = some x) : w.callers[c]? = some x ∧ x.phase = phase := by
  simpa [World.inPhase, Option.filter_eq_some_iff] using h

theorem Inv.step (h : Inv w) {e : Event} (hprompt : w.Prompt e) (hs : w.step e = some w') :
    Inv w' := by
  -- a caller moves on from a phase that is not the last
  have hmove {c : Nat} {x : Caller} {phase phase' : Phase} (hx : w.inPhase c phase = some x)
      (hphase : ∀ r, phase ≠ .done r)
      (hlate : phase' = .waiting → ∀ x, w.callers[c]? = some x → x.late = false) :
      Inv (w.setPhase c phase') := by
    obtain ⟨hcaller, rfl⟩ := of_inPhase hx
    refine h.setPhase (fun x' hx' => ?_) hlate
    rw [hcaller] at hx'
    cases hx'
    exact hphase
  have hgive {c : Nat} {x : Caller} {phase : Phase} (hx : w.inPhase c phase = some x)
      (hphase : ∀ r, phase ≠ .done r) (why : String) : Inv (w.giveUp c x why) := by
    obtain ⟨hcaller, rfl⟩ := of_inPhase hx
    exact h.giveUp hcaller hphase why
  cases e with
  | call => exact Option.some.inj hs ▸ h.register
  | compressFails c why =>
    obtain ⟨x, hx, rfl⟩ := Option.map_eq_some_iff.mp hs
    exact hmove hx nofun nofun
  | encode c error =>
    cases error <;> obtain ⟨x, hx, rfl⟩ := Option.map_eq_some_iff.mp hs
    · exact hmove hx nofun nofun
    · exact hgive hx nofun _
  | write c error =>
    cases error <;> obtain ⟨x, hx, rfl⟩ := Option.map_eq_some_iff.mp hs
    · exact hmove hx nofun fun _ => hprompt c rfl
    · exact hgive hx nofun _
  | receive c =>
    obtain ⟨x, hx, hs⟩ := Option.bind_eq_some_iff.mp hs
    obtain ⟨a, -, rfl⟩ := Option.map_eq_some_iff.mp hs
    exact hmove hx nofun nofun
  | frame id outcome =>
    simp only [World.step] at hs
    split at hs
    · exact Option.some.inj hs ▸ h.resolve id _
    · cases hs
  | stop =>
    simp only [World.step] at hs
    split at hs
    · exact Option.some.inj hs ▸ h.setSweep fun _ => ⟨nofun, nofun⟩
    · cases hs
  | shutdown =>
    obtain rfl := Option.some.inj hs
    obtain ⟨s₀, hs₀, hne⟩ := h.reader
    have hzero : ∀ l, (w.sweeps ++ l)[0]? = some s₀ := fun l =>
      (List.getElem?_append_left (List.getElem?_eq_some_iff.mp hs₀).1).trans hs₀
    exact ⟨h.waits, h.unique, fun s due hs => h.swept s due (hs₀.trans ((hzero _).symm.trans hs)),
      h.prompt, s₀, hzero _, hne⟩
  | joined k =>
    simp only [World.step] at hs
    split at hs
    · exact Option.some.inj hs ▸ h.setSweep fun _ => ⟨nofun, nofun⟩
    · cases hs
  | collect k =>
    simp only [World.step] at hs
    split at hs
    · refine Option.some.inj hs ▸ h.setSweep fun _ => ⟨nofun, ?_⟩
      rintro due ⟨⟩ c x hmem -
      exact .inr (List.mem_map_of_mem (f := Prod.fst) hmem)
    · cases hs
  | remove k =>
    simp only [World.step] at hs
    split at hs
    · rename_i id due hk
      refine Option.some.inj hs ▸ (h.resolve id _).setSweep fun hzero => ⟨nofun, ?_⟩
      rintro _ ⟨⟩ c x hmem hx
      subst hzero
      have hswept := (h.resolve id _).swept _ _ ((resolve_sweeps ..).symm ▸ hk) rfl c x hmem hx
      exact hswept.imp_right fun hdue =>
        (List.mem_cons.mp hdue).resolve_left (mem_of_resolve hmem).2
    · cases hs
  | finish k =>
    simp only [World.step] at hs
    split at hs
    · rename_i hk
      refine Option.some.inj hs ▸ h.setSweep fun hzero => ⟨nofun, ?_⟩
      rintro _ ⟨⟩
      subst hzero
      exact h.swept _ _ hk rfl
    · cases hs

/-- If no caller that registers after the reader's sweep has collected the waiters succeeds in
writing its frame, no caller is left behind: the reader or a `shutdown` will remove its waiter,
and once the reader has ended every caller that waits has its answer. -/
theorem no_caller_left_behind (h : PromptRun w) :
    ¬ w.LeftBehind ∧ (w.sweeps[0]? = some .ended →
      ∀ (c : Nat) (x : Caller), w.callers[c]? = some x → x.phase = .waiting →
        x.received.isSome) := by
  have hinv : Inv w := h.keeps ⟨nofun, nofun, nofun, nofun, _, rfl, nofun⟩
    fun h hprompt hs => h.step hprompt hs
  refine ⟨?_, fun hended c x hx hphase => ?_⟩
  · rintro ⟨c, x, hx, hphase, -, hmem, htasks⟩
    have hprompt := hinv.prompt c x hx hphase
    have htask := htasks 0
    obtain ⟨s, hs, hne⟩ := hinv.reader
    rw [World.willRemove, hs] at htask
    cases s with
    | reading | failing => cases htask
    | joining => exact hne rfl
    | removing due =>
      rcases hinv.swept _ due hs rfl c x hmem hx with hlate | hdue
      · exact absurd (hlate.symm.trans hprompt) nofun
      · simp [hdue] at htask
    | ended =>
      rcases hinv.swept _ [] hs rfl c x hmem hx with hlate | hdue
      · exact absurd (hlate.symm.trans hprompt) nofun
      · cases hdue
  · have hprompt := hinv.prompt c x hx hphase
    have hdone : ∀ r, x.phase ≠ .done r := fun r hr => nomatch hphase.symm.trans hr
    refine (hinv.waits c x hx hdone).resolve_left fun hmem => ?_
    rcases hinv.swept _ [] hended rfl c x hmem hx with hlate | hdue
    · exact absurd (hlate.symm.trans hprompt) nofun
    · cases hdue

end

/-! ### Two runs -/

/-- The reader stops while a caller waits, and fails it. -/
theorem no_caller_left_behind_swept : ∃ w, PromptRun w ∧ w.sweeps[0]? = some .ended ∧
    w.callers.map Caller.received = [some (.sent (.error "connection closed"))] ∧
    ¬ w.LeftBehind := by
  have hcall : PromptRun _ := Runs.refl.step (e := .call) nofun rfl
  have hencode := hcall.step (e := .encode 0 none) nofun rfl
  have hwrite := hencode.step (e := .write 0 none) (by rintro c ⟨⟩ x ⟨⟩; rfl) rfl
  have hstop := hwrite.step (e := .stop) nofun rfl
  have hcollect := hstop.step (e := .collect 0) nofun rfl
  have hremove := hcollect.step (e := .remove 0) nofun rfl
  have hfinish := hremove.step (e := .finish 0) nofun rfl
  exact ⟨_, hfinish, rfl, rfl, (no_caller_left_behind hfinish).1⟩

/-- The server has closed its side, the reader has swept, and a call begins whose frame can still
be written. -/
def lateCall : List Event := [.stop, .collect 0, .finish 0, .call, .encode 0 none, .write 0 none]

/-- Where such a call ends up: it waits, and nobody is left to answer. -/
def lateWorld : World :=
  { nextId := 2
    pending := [(1, 0)]
    callers := [⟨1, .waiting, none, true⟩]
    sweeps := [.ended]
    joinTaken := false }

/-- The caller waits on its entry, and no task remains that will remove it. -/
theorem late_caller_left_behind :
    lateCall.foldlM World.step .connected = some lateWorld ∧ lateWorld.LeftBehind := by
  refine ⟨by decide, 0, _, rfl, rfl, rfl, List.mem_cons_self, fun k => ?_⟩
  cases k <;> rfl

end EventStream.Binary.Pipelined
