import Mathlib.Data.Option.Basic

/-! Runs of a step function.

A system is given by what an event makes of a state, `none` where the event cannot happen. The
results about whole runs ask a condition of each step, on the event and the state in front of it;
a run with the condition that always holds is any run. -/
namespace EventStream

variable {S E : Type}

/-- What every step keeps, a sequence of steps keeps. -/
theorem foldlM_keeps {f : S → E → Option S} {P : S → Prop} {es : List E} {s s' : S}
    (hstep : ∀ e ∈ es, ∀ s s', P s → f s e = some s' → P s') (h : P s)
    (hs : es.foldlM f s = some s') : P s' := by
  induction es generalizing s with
  | nil =>
    cases hs
    exact h
  | cons e es ih =>
    rw [List.foldlM_cons] at hs
    obtain ⟨s₁, hs₁, hs⟩ := Option.bind_eq_some_iff.mp hs
    exact ih (fun e' he' => hstep e' (List.mem_cons_of_mem e he'))
      (hstep e List.mem_cons_self s s₁ h hs₁) hs

/-- The states that steps from `s₀` lead to, if each of them meets `ok`. -/
inductive Runs (next : S → E → Option S) (ok : S → E → Prop) (s₀ : S) : S → Prop where
  | refl : Runs next ok s₀ s₀
  | step {s s' : S} {e : E} (h : Runs next ok s₀ s) (hok : ok s e) (hs : next s e = some s') :
      Runs next ok s₀ s'

namespace Runs

variable {next : S → E → Option S} {ok ok' : S → E → Prop} {P : S → Prop} {s₀ s s' : S}

/-- What every step keeps, a run keeps. -/
theorem keeps (h : Runs next ok s₀ s) (h₀ : P s₀)
    (hstep : ∀ {s s' : S} {e : E}, P s → ok s e → next s e = some s' → P s') : P s := by
  induction h with
  | refl => exact h₀
  | step _ hok hs ih => exact hstep ih hok hs

theorem trans (h : Runs next ok s₀ s) (h' : Runs next ok s s') : Runs next ok s₀ s' :=
  h'.keeps h .step

theorem mono (h : Runs next ok s₀ s) (hok : ∀ s e, ok s e → ok' s e) : Runs next ok' s₀ s :=
  h.keeps .refl fun hrun hs => hrun.step (hok _ _ hs)

/-- Any events that can happen go on with a run without a condition. -/
theorem steps (h : Runs next (fun _ _ => True) s₀ s) (es : List E)
    (hs : es.foldlM next s = some s') : Runs next (fun _ _ => True) s₀ s' :=
  foldlM_keeps (fun _ _ _ _ h hs => h.step trivial hs) h hs

/-- The state after the events of a list; `none` from the first one on that cannot happen or does
not meet the condition. -/
def replay (next : S → E → Option S) (ok : S → E → Prop) [∀ s e, Decidable (ok s e)] (s : S)
    (es : List E) : Option S :=
  es.foldlM (fun s e => if ok s e then next s e else none) s

/-- What the steps of its events keep, a replay keeps. -/
theorem replay_keeps [∀ s e, Decidable (ok s e)] {es : List E} (h : replay next ok s es = some s')
    (h₀ : P s) (hstep : ∀ e ∈ es, ∀ s s', P s → ok s e → next s e = some s' → P s') : P s' :=
  foldlM_keeps (fun e he s s' hP hs =>
    have ⟨hok, hs⟩ := Option.ite_none_right_eq_some.mp hs
    hstep e he s s' hP hok hs) h₀ h

theorem of_replay [∀ s e, Decidable (ok s e)] {es : List E} (h : replay next ok s es = some s') :
    Runs next ok s s' :=
  replay_keeps h .refl fun _ _ _ _ hrun hok hs => hrun.step hok hs

end Runs

end EventStream
