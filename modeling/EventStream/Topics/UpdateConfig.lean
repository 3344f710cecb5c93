import Mathlib.Logic.Function.Basic
import EventStream.Storage.Settings

/-! Concurrent updates of a topic's settings (`Topic::update_config` in `topic.rs`).

An update merges, writes `topic.json` and publishes the resolved settings under one lock. Then it
releases the lock and tells the partitions their segment size, one after the other. An update
that is still at this when the next one publishes may put its own value back afterwards
(`partition_keeps_older_update`). If the partitions have been told by then, or both updates come
to the same segment size, everything ends with the last update to hold the lock
(`updates_publish_one_winner`). -/
namespace EventStream.Topics.UpdateConfig

open EventStream.Storage

structure TopicMeta where
  partitions : Nat
  config : PersistedTopicConfig
  deriving DecidableEq, Repr

/-- Where a call stands. From `merged` to `published` it holds the lock. -/
inductive Call where
  | idle
  | waiting (patch : TopicConfigPatch)
  /-- The new settings are known; in front of the write, of the assignment to what the lock
  guards, of the publication and of the release. -/
  | merged (new : Settings)
  | saved (new : Settings)
  | stored (new : Settings)
  | published (new : Settings)
  /-- The partitions before `next` have been told. -/
  | spreading (config : TopicConfig) (next : Nat)
  | done (result : Except String TopicConfig)
  deriving DecidableEq, Repr

structure World where
  /-- What the lock guards, and what `resolved_config` serves. -/
  settings : Settings
  file : TopicMeta
  /-- `segment_bytes` of each partition. -/
  segmentBytes : List UInt64
  lock : Option Nat
  calls : Nat → Call
  /-- The settings of the last update to hold the lock. -/
  winner : Settings

inductive Event where
  | update (call : Nat) (patch : TopicConfigPatch)
  | run (call : Nat)
  deriving DecidableEq, Repr

namespace World

def setCall (w : World) (c : Nat) (call : Call) : World :=
  { w with calls := Function.update w.calls c call }

/-- The next step of a call. -/
def runCall (broker : BrokerConfig) (w : World) (c : Nat) : Option World :=
  match w.calls c with
  | .idle | .done _ => none
  | .waiting patch =>
    match w.lock, w.settings.updateConfig patch broker with
    | some _, _ => none
    | none, .ok new => some ({ w with lock := some c, winner := new }.setCall c (.merged new))
    | none, .error e => some (w.setCall c (.done (.error e)))
  | .merged new =>
    some ({ w with file := ⟨w.segmentBytes.length, new.persisted⟩ }.setCall c (.saved new))
  | .saved new =>
    some ({ w with settings := { w.settings with persisted := new.persisted } }.setCall c
      (.stored new))
  | .stored new =>
    some ({ w with settings := { w.settings with config := new.config } }.setCall c
      (.published new))
  | .published new => some ({ w with lock := none }.setCall c (.spreading new.config 0))
  | .spreading config next =>
    if next < w.segmentBytes.length then
      some ({ w with segmentBytes := w.segmentBytes.set next config.segmentBytes }.setCall c
        (.spreading config (next + 1)))
    else some (w.setCall c (.done (.ok config)))

def step (broker : BrokerConfig) (w : World) : Event → Option World
  | .update c patch =>
    match w.calls c, validatePatch patch with
    | .idle, .ok () => some (w.setCall c (.waiting patch))
    | .idle, .error e => some (w.setCall c (.done (.error e)))
    | _, _ => none
  | .run c => w.runCall broker c

/-- A topic that was just created or opened. -/
def opened (s : Settings) (partitions : Nat) : World :=
  { settings := s
    file := ⟨partitions, s.persisted⟩
    segmentBytes := List.replicate partitions s.config.segmentBytes
    lock := none
    calls := fun _ => .idle
    winner := s }

/-- All calls have returned. -/
def Quiescent (w : World) : Prop := ∀ c, w.calls c = .idle ∨ ∃ result, w.calls c = .done result

/-- File, memory and partitions are of the last update to hold the lock. -/
structure OneWinner (w : World) : Prop where
  file : w.file = ⟨w.segmentBytes.length, w.winner.persisted⟩
  settings : w.settings = w.winner
  partitions : ∀ bytes ∈ w.segmentBytes, bytes = w.winner.config.segmentBytes

/-- When a call publishes, every call that has partitions left to tell tells them the same. -/
def Clear (w : World) (e : Event) : Prop :=
  ∀ c new, e = .run c → w.calls c = .stored new →
    ∀ c' config next, w.calls c' = .spreading config next → next < w.segmentBytes.length →
      config.segmentBytes = new.config.segmentBytes

end World

/-- The interleavings in which every step is so. -/
abbrev ClearRun (broker : BrokerConfig) : World → World → Prop :=
  Runs (World.step broker) World.Clear

/-! ### The invariant -/

def Call.holding : Call → Bool
  | .merged _ | .saved _ | .stored _ | .published _ => true
  | _ => false

/-- The call has still to tell this partition. -/
def Call.Spreads (i : Nat) : Call → Prop
  | .published _ => True
  | .spreading _ next => next ≤ i
  | _ => False

def CallOk (w : World) : Call → Prop
  | .idle | .waiting _ | .done _ => True
  | .merged new => w.winner = new
  | .saved new => w.winner = new ∧ w.file = ⟨w.segmentBytes.length, new.persisted⟩
  | .stored new => w.winner = new ∧ w.file = ⟨w.segmentBytes.length, new.persisted⟩ ∧
      w.settings.persisted = new.persisted
  | .published new => w.winner = new ∧ w.file = ⟨w.segmentBytes.length, new.persisted⟩ ∧
      w.settings = new
  | .spreading config next => next < w.segmentBytes.length →
      config.segmentBytes = w.settings.config.segmentBytes

structure Inv (w : World) : Prop where
  lock : ∀ c, w.lock = some c ↔ (w.calls c).holding = true
  free : w.lock = none → w.file = ⟨w.segmentBytes.length, w.winner.persisted⟩ ∧
    w.settings = w.winner
  partitions : ∀ i bytes, w.segmentBytes[i]? = some bytes →
    bytes = w.settings.config.segmentBytes ∨ ∃ c, (w.calls c).Spreads i
  calls : ∀ c, CallOk w (w.calls c)

section
variable {w w' : World} {c : Nat} {call : Call}

theorem Inv.opened (s : Settings) (n : Nat) : Inv (.opened s n) where
  lock := fun c => ⟨nofun, nofun⟩
  free := fun _ => ⟨by simp [World.opened], rfl⟩
  partitions := fun i bytes h => by
    have hmem : bytes ∈ List.replicate n s.config.segmentBytes := List.mem_of_getElem? h
    exact .inl (List.eq_of_mem_replicate hmem)
  calls := fun _ => trivial

theorem Inv.oneWinner (h : Inv w) (hq : w.Quiescent) : w.OneWinner := by
  have hnot : ∀ c, (w.calls c).holding = false ∧ ∀ i, ¬ (w.calls c).Spreads i := fun c => by
    rcases hq c with hidle | ⟨result, hdone⟩
    · rw [hidle]
      exact ⟨rfl, fun _ hs => hs⟩
    · rw [hdone]
      exact ⟨rfl, fun _ hs => hs⟩
  have hlock : w.lock = none := by
    by_contra hsome
    obtain ⟨c, hc⟩ := Option.ne_none_iff_exists'.mp hsome
    have := (h.lock c).mp hc
    rw [(hnot c).1] at this
    cases this
  obtain ⟨hfile, hsettings⟩ := h.free hlock
  refine ⟨hfile, hsettings, fun bytes hmem => ?_⟩
  obtain ⟨i, hi⟩ := List.mem_iff_getElem?.mp hmem
  rcases h.partitions i bytes hi with heq | ⟨c, hc⟩
  · rw [heq, hsettings]
  · exact absurd hc ((hnot c).2 i)

/-! ### Every step -/

theorem CallOk.of_not_holding (h : CallOk w call) (hnot : call.holding = false)
    (hlen : w'.segmentBytes.length = w.segmentBytes.length)
    (hsame : ∀ config next, call = .spreading config next → next < w.segmentBytes.length →
      config.segmentBytes = w.settings.config.segmentBytes →
      config.segmentBytes = w'.settings.config.segmentBytes) : CallOk w' call := by
  cases call with
  | idle | waiting | done => trivial
  | merged | saved | stored | published => cases hnot
  | spreading config next =>
    intro hlt
    rw [hlen] at hlt
    exact hsame config next rfl hlt (h hlt)

theorem CallOk.resized (h : CallOk w call) (hwinner : w'.winner = w.winner)
    (hfile : w'.file = w.file) (hsettings : w'.settings = w.settings)
    (hlen : w'.segmentBytes.length = w.segmentBytes.length) : CallOk w' call := by
  cases call with
  | idle | waiting | done => trivial
  | merged | saved | stored | published | spreading =>
    simp only [CallOk, hwinner, hfile, hsettings, hlen]
    exact h

/-- Of the calls other than the one that has the lock, none is in front of the release. -/
theorem Inv.not_holding (h : Inv w) (hlock : w.lock = none ∨ w.lock = some c) {c' : Nat}
    (hc : c' ≠ c) : (w.calls c').holding = false := by
  by_contra hhold
  have hc' : w.lock = some c' := (h.lock c').mpr (by simpa using hhold)
  rcases hlock with hnone | hsome
  · rw [hnone] at hc'
    cases hc'
  · exact hc (Option.some.inj (hc'.symm.trans hsome))

theorem spreads_update {i : Nat} (hspread : (w.calls c).Spreads i → call.Spreads i)
    (h : ∃ c₀, (w.calls c₀).Spreads i) : ∃ c₀, (Function.update w.calls c call c₀).Spreads i := by
  obtain ⟨c₀, h₀⟩ := h
  refine ⟨c₀, ?_⟩
  by_cases hc : c₀ = c
  · subst hc
    rw [Function.update_self]
    exact hspread h₀
  · rwa [Function.update_of_ne hc]

/-- A call goes on that neither has the lock nor comes to it. -/
theorem Inv.move (h : Inv w) (hold : (w.calls c).holding = false) (hnew : call.holding = false)
    (hspread : ∀ i < w.segmentBytes.length, (w.calls c).Spreads i → call.Spreads i)
    (hcall : CallOk w call) : Inv (w.setCall c call) where
  lock := fun c' => by
    show w.lock = some c' ↔ (Function.update w.calls c call c').holding = true
    by_cases hc : c' = c
    · subst hc
      rw [Function.update_self, hnew, h.lock c', hold]
    · rw [Function.update_of_ne hc]
      exact h.lock c'
  free := h.free
  partitions := fun i bytes hi => (h.partitions i bytes hi).imp_right
    (spreads_update (hspread i (List.getElem?_eq_some_iff.mp hi).1))
  calls := fun c' => by
    show CallOk _ (Function.update w.calls c call c')
    by_cases hc : c' = c
    · subst hc
      rw [Function.update_self]
      exact hcall
    · rw [Function.update_of_ne hc]
      exact h.calls c'

/-- A step of the call that has the lock, or takes it. The partitions are not touched. -/
theorem Inv.locked (h : Inv w) (hlock : w.lock = none ∨ w.lock = some c)
    (hcalls : w'.calls = Function.update w.calls c call) (hlock' : w'.lock = some c)
    (hnew : call.holding = true) (hbytes : w'.segmentBytes = w.segmentBytes)
    (hpart : w'.settings.config = w.settings.config ∧ (∀ i, ¬ (w.calls c).Spreads i) ∨
      (∀ i, call.Spreads i) ∧ ∀ c' config next, w.calls c' = .spreading config next →
        next < w.segmentBytes.length →
        config.segmentBytes = w'.settings.config.segmentBytes)
    (hcall : CallOk w' call) : Inv w' where
  lock := fun c' => by
    rw [hlock', hcalls]
    by_cases hc : c' = c
    · subst hc
      rw [Function.update_self, hnew]
      simp
    · rw [Function.update_of_ne hc, h.not_holding hlock hc]
      simp [Ne.symm hc]
  free := fun hnone => by
    rw [hlock'] at hnone
    cases hnone
  partitions := fun i bytes hi => by
    rw [hbytes] at hi
    rw [hcalls]
    rcases hpart with ⟨hsame, hnot⟩ | ⟨hall, -⟩
    · rw [hsame]
      exact (h.partitions i bytes hi).imp_right (spreads_update fun hs => absurd hs (hnot i))
    · exact .inr ⟨c, by rw [Function.update_self]; exact hall i⟩
  calls := fun c' => by
    rw [hcalls]
    by_cases hc : c' = c
    · subst hc
      rw [Function.update_self]
      exact hcall
    · rw [Function.update_of_ne hc]
      refine (h.calls c').of_not_holding (h.not_holding hlock hc) (congrArg _ hbytes) ?_
      intro config next hspread hlt heq
      rcases hpart with ⟨hsame, -⟩ | ⟨-, hothers⟩
      · rw [hsame]
        exact heq
      · exact hothers c' config next hspread hlt

theorem Inv.release (h : Inv w) {new : Settings} (hcall : w.calls c = .published new) :
    Inv ({ w with lock := none }.setCall c (.spreading new.config 0)) := by
  have hlock : w.lock = some c := (h.lock c).mpr (by rw [hcall]; rfl)
  obtain ⟨hwinner, hfile, hsettings⟩ : CallOk w (.published new) := hcall ▸ h.calls c
  exact
    { lock := fun c' => by
        show none = some c' ↔ (Function.update w.calls c _ c').holding = true
        by_cases hc : c' = c
        · subst hc
          rw [Function.update_self]
          exact ⟨nofun, nofun⟩
        · rw [Function.update_of_ne hc, h.not_holding (.inr hlock) hc]
          exact ⟨nofun, nofun⟩
      free := fun _ => ⟨by rw [← hwinner] at hfile; exact hfile, hsettings.trans hwinner.symm⟩
      partitions := fun i bytes hi => .inr ⟨c, by
        show (Function.update w.calls c _ c).Spreads i
        rw [Function.update_self]
        exact Nat.zero_le i⟩
      calls := fun c' => by
        show CallOk _ (Function.update w.calls c _ c')
        by_cases hc : c' = c
        · subst hc
          rw [Function.update_self]
          intro _
          show _ = w.settings.config.segmentBytes
          rw [hsettings]
        · rw [Function.update_of_ne hc]
          exact (h.calls c').of_not_holding (h.not_holding (.inr hlock) hc) rfl
            fun _ _ _ _ heq => heq }

/-- One partition is told. -/
theorem Inv.spread (h : Inv w) {config : TopicConfig} {next : Nat}
    (hcall : w.calls c = .spreading config next) (hlt : next < w.segmentBytes.length) :
    Inv ({ w with segmentBytes := w.segmentBytes.set next config.segmentBytes }.setCall c
      (.spreading config (next + 1))) := by
  have hsame : config.segmentBytes = w.settings.config.segmentBytes := by
    have hok : CallOk w (.spreading config next) := hcall ▸ h.calls c
    exact hok hlt
  have hlen : (w.segmentBytes.set next config.segmentBytes).length = w.segmentBytes.length :=
    List.length_set
  exact
    { lock := fun c' => by
        show w.lock = some c' ↔ (Function.update w.calls c _ c').holding = true
        by_cases hc : c' = c
        · subst hc
          rw [Function.update_self, h.lock c', hcall]
          exact Iff.rfl
        · rw [Function.update_of_ne hc]
          exact h.lock c'
      free := fun hnone => by
        show w.file = ⟨(w.segmentBytes.set next config.segmentBytes).length, _⟩ ∧ _
        rw [hlen]
        exact h.free hnone
      partitions := fun i bytes hi => by
        rcases getElem?_set_cases hi with ⟨-, rfl⟩ | ⟨hne, hi⟩
        · exact .inl hsame
        · refine (h.partitions i bytes hi).imp_right (spreads_update fun hs => ?_)
          rw [hcall] at hs
          exact Nat.lt_of_le_of_ne hs (Ne.symm hne)
      calls := fun c' => by
        show CallOk _ (Function.update w.calls c _ c')
        by_cases hc : c' = c
        · subst hc
          rw [Function.update_self]
          exact fun _ => hsame
        · rw [Function.update_of_ne hc]
          exact (h.calls c').resized rfl rfl rfl hlen }

theorem Inv.step {broker : BrokerConfig} {e : Event} (h : Inv w) (hclear : w.Clear e)
    (hs : w.step broker e = some w') : Inv w' := by
  cases e with
  | update c patch =>
    simp only [World.step] at hs
    split at hs
    · rename_i hcall _
      cases hs
      exact h.move (by rw [hcall]; rfl) rfl (by rw [hcall]; exact fun _ _ hs => hs) trivial
    · rename_i hcall _
      cases hs
      exact h.move (by rw [hcall]; rfl) rfl (by rw [hcall]; exact fun _ _ hs => hs) trivial
    · cases hs
  | run c =>
    have hok := h.calls c
    simp only [World.step, World.runCall] at hs
    cases hcall : w.calls c with
    | idle | done => simp [hcall] at hs
    | waiting patch =>
      simp only [hcall] at hs
      split at hs
      · cases hs
      · rename_i new hlock _
        cases hs
        exact h.locked (.inl hlock) rfl rfl rfl rfl
          (.inl ⟨rfl, by rw [hcall]; exact fun _ hs => hs⟩) rfl
      · cases hs
        exact h.move (by rw [hcall]; rfl) rfl (by rw [hcall]; exact fun _ _ hs => hs) trivial
    | merged new =>
      have hlock : w.lock = some c := (h.lock c).mpr (by rw [hcall]; rfl)
      simp only [hcall, Option.some.injEq] at hs
      rw [hcall] at hok
      subst hs
      exact h.locked (.inr hlock) rfl hlock rfl rfl
        (.inl ⟨rfl, by rw [hcall]; exact fun _ hs => hs⟩) ⟨hok, rfl⟩
    | saved new =>
      have hlock : w.lock = some c := (h.lock c).mpr (by rw [hcall]; rfl)
      simp only [hcall, Option.some.injEq] at hs
      rw [hcall] at hok
      subst hs
      exact h.locked (.inr hlock) rfl hlock rfl rfl
        (.inl ⟨rfl, by rw [hcall]; exact fun _ hs => hs⟩) ⟨hok.1, hok.2, rfl⟩
    | stored new =>
      have hlock : w.lock = some c := (h.lock c).mpr (by rw [hcall]; rfl)
      simp only [hcall, Option.some.injEq] at hs
      rw [hcall] at hok
      obtain ⟨hwinner, hfile, hpersisted⟩ := hok
      subst hs
      refine h.locked (.inr hlock) rfl hlock rfl rfl
        (.inr ⟨fun _ => trivial, hclear c new rfl hcall⟩) ⟨hwinner, hfile, ?_⟩
      show (⟨w.settings.persisted, new.config⟩ : Settings) = new
      rw [hpersisted]
    | published new =>
      simp only [hcall, Option.some.injEq] at hs
      subst hs
      exact h.release hcall
    | spreading config next =>
      simp only [hcall] at hs
      split at hs
      · rename_i hlt
        cases hs
        exact h.spread hcall hlt
      · rename_i hge
        cases hs
        refine h.move (by rw [hcall]; rfl) rfl (fun i hi hs => ?_) trivial
        rw [hcall] at hs
        exact absurd (Nat.lt_of_le_of_lt hs hi) hge

/-- If no update publishes while another has partitions left to tell another size, then, once
all calls have returned, file, memory and every partition are of the last update to hold the
lock. -/
theorem updates_publish_one_winner {broker : BrokerConfig} {s : Settings} {n : Nat}
    (hrun : ClearRun broker (.opened s n) w) (hq : w.Quiescent) : w.OneWinner :=
  (hrun.keeps (.opened s n) Inv.step).oneWinner hq

end

/-! ### Runs of given events -/

def Event.call : Event → Nat
  | .update c _ => c
  | .run c => c

section
variable {broker : BrokerConfig} {w w' : World} {c : Nat} {events : List Event}

theorem step_calls {e : Event} (hs : w.step broker e = some w') (hc : c ≠ e.call) :
    w'.calls c = w.calls c := by
  have hset : ∀ {w₀ : World} {call : Call}, some (w₀.setCall e.call call) = some w' →
      w₀.calls = w.calls → w'.calls c = w.calls c := by
    rintro w₀ call ⟨⟩ hcalls
    show Function.update w₀.calls e.call call c = _
    rw [Function.update_of_ne hc, hcalls]
  cases e with
  | update c' patch =>
    simp only [World.step] at hs
    split at hs
    · exact hset hs rfl
    · exact hset hs rfl
    · cases hs
  | run c' =>
    simp only [World.step, World.runCall] at hs
    split at hs
    · cases hs
    · cases hs
    · split at hs
      · cases hs
      · exact hset hs rfl
      · exact hset hs rfl
    · exact hset hs rfl
    · exact hset hs rfl
    · exact hset hs rfl
    · exact hset hs rfl
    · split at hs
      · exact hset hs rfl
      · exact hset hs rfl

/-- The step is clear as far as the first `n` calls go. -/
def clearBelow (n : Nat) (w : World) : Event → Bool
  | .update _ _ => true
  | .run c =>
    match w.calls c with
    | .stored new => (List.range n).all fun c' =>
      match w.calls c' with
      | .spreading config next =>
        w.segmentBytes.length ≤ next || config.segmentBytes = new.config.segmentBytes
      | _ => true
    | _ => true

theorem clear_of_below {n : Nat} {e : Event} (hidle : ∀ c, n ≤ c → w.calls c = .idle)
    (h : clearBelow n w e = true) : w.Clear e := by
  rintro c new rfl hstored c' config next hspreading hlt
  simp only [clearBelow, hstored, List.all_eq_true, List.mem_range] at h
  have hc : c' < n := by
    by_contra hc
    rw [hidle c' (not_lt.mp hc)] at hspreading
    cases hspreading
  have hsame := h c' hc
  rw [hspreading] at hsame
  simpa [Nat.not_le.mpr hlt] using hsame

/-- Calls that no event is of stay idle. -/
theorem replay_idle {ok : World → Event → Prop} [∀ w e, Decidable (ok w e)] {s : Settings}
    {k n : Nat} (hs : Runs.replay (World.step broker) ok (.opened s k) events = some w)
    (hn : ∀ e ∈ events, e.call < n) : ∀ c, n ≤ c → w.calls c = .idle := by
  intro c hc
  refine Runs.replay_keeps (P := fun w => w.calls c = .idle) hs rfl fun e he _ _ hidle _ hs => ?_
  rw [step_calls hs (Nat.ne_of_gt (Nat.lt_of_lt_of_le (hn e he) hc)), hidle]

theorem replay_clear {s : Settings} {k n : Nat}
    (hs : Runs.replay (World.step broker) (fun w e => clearBelow n w e) (.opened s k) events =
      some w) (hn : ∀ e ∈ events, e.call < n) : ClearRun broker (.opened s k) w := by
  refine (Runs.replay_keeps
    (P := fun w => ClearRun broker (.opened s k) w ∧ ∀ c, n ≤ c → w.calls c = .idle) hs
    ⟨.refl, fun _ _ => rfl⟩ fun e he w w' ⟨hrun, hidle⟩ hclear hs => ?_).1
  refine ⟨hrun.step (clear_of_below hidle hclear) hs, fun c hc => ?_⟩
  rw [step_calls hs (Nat.ne_of_gt (Nat.lt_of_lt_of_le (hn e he) hc)), hidle c hc]

/-- The call has not begun or has returned. -/
def Call.returned : Call → Bool
  | .idle | .done _ => true
  | _ => false

theorem quiescent_of_returned {n : Nat} (hidle : ∀ c, n ≤ c → w.calls c = .idle)
    (h : ∀ c ∈ List.range n, (w.calls c).returned = true) : w.Quiescent := by
  intro c
  rcases Nat.lt_or_ge c n with hc | hc
  · have hret := h c (List.mem_range.mpr hc)
    revert hret
    cases w.calls c <;> simp [Call.returned]
  · exact .inl (hidle c hc)

end

def smallBroker : BrokerConfig := { segmentBytes := 4096 }

/-- A topic without settings of its own, under these defaults. -/
def plainSettings : Settings :=
  { persisted := {}
    config := ⟨none, none, .delete, 4096, 24 * 60 * 60 * 1000⟩ }

/-- One call takes the lock, publishes and releases it. -/
def publishes (c : Nat) (bytes : UInt64) : List Event :=
  .update c { segmentBytes := some bytes } :: List.replicate 5 (.run c)

/-- The second call comes while the first has the lock, and publishes when the first has told both
partitions but has not returned. -/
def inTurn : List Event :=
  [.update 0 { segmentBytes := some 1024 }, .run 0, .update 1 { segmentBytes := some 2048 }] ++
    List.replicate 6 (.run 0) ++ List.replicate 4 (.run 1) ++ (.run 0 :: List.replicate 4 (.run 1))

theorem updates_publish_one_winner_inTurn : ∃ w,
    Runs.replay (World.step smallBroker) (fun w e => clearBelow 2 w e) (.opened plainSettings 2)
      inTurn = some w ∧ w.winner.config.segmentBytes = 2048 ∧ w.OneWinner := by
  obtain ⟨w, hw, hwinner, hreturned⟩ := exists_of_any
    (P := fun w : World => w.winner.config.segmentBytes = 2048 ∧
      ∀ c ∈ List.range 2, (w.calls c).returned = true)
    (o := Runs.replay (World.step smallBroker) (fun w e => clearBelow 2 w e)
      (.opened plainSettings 2) inTurn) (by decide +kernel)
  have hcalls : ∀ e ∈ inTurn, e.call < 2 := by decide
  exact ⟨w, hw, hwinner, updates_publish_one_winner (replay_clear hw hcalls)
    (quiescent_of_returned (replay_idle hw hcalls) hreturned)⟩

/-- The second update publishes and tells the partition while the first has not told it. -/
def overtaking : List Event :=
  publishes 0 1024 ++ publishes 1 2048 ++ ([.run 1, .run 1, .run 0, .run 0] : List Event)

/-- All calls have returned; the file and the settings have the second update, the partition has
the first. -/
theorem partition_keeps_older_update : ∃ w,
    Runs (World.step smallBroker) (fun _ _ => True) (.opened plainSettings 1) w ∧ w.Quiescent ∧
    w.file.config.segmentBytes = some 2048 ∧ w.settings.config.segmentBytes = 2048 ∧
    w.segmentBytes = [1024] := by
  obtain ⟨w, hw, hreturned, hend⟩ := exists_of_any
    (P := fun w : World => (∀ c ∈ List.range 2, (w.calls c).returned = true) ∧
      w.file.config.segmentBytes = some 2048 ∧ w.settings.config.segmentBytes = 2048 ∧
      w.segmentBytes = [1024])
    (o := Runs.replay (World.step smallBroker) (fun _ _ => True) (.opened plainSettings 1)
      overtaking) (by decide +kernel)
  exact ⟨w, .of_replay hw, quiescent_of_returned (replay_idle hw (by decide)) hreturned, hend⟩

end EventStream.Topics.UpdateConfig
