import Mathlib.Logic.Function.Basic
import EventStream.Machine

/-! What the broker remembers of an idempotent producer.

For each topic name and partition a producer has written to there is a window: the
highest sequence recorded, the offset it was written at, and the last 128 sequences
with their offsets. `check` compares a sequence with the window, `record` enters one.
Two facts carry the results about producers: a window never forgets that a sequence was
recorded (`Remembers`), since `lastSeen` only grows, and every offset it answers with was
once recorded (`Vouched`). A sequence is an `i64` and is an integer here; only
`saturating_add` sees the end of the range. -/
namespace EventStream.Producers

def i64Max : Int := 2 ^ 63 - 1

/-- `x.saturating_add(1)` on `i64`. -/
def satSucc (x : Int) : Int := min (x + 1) i64Max

inductive DedupeOutcome where
  | accept
  | duplicate (prevOffset : Nat)
  | sequenceTooLow (lastSeen : Int)
  | gap (expected got : Int)
  deriving DecidableEq, Repr

/-- `WINDOW`: the sequences remembered per partition. -/
def windowSize : Nat := 128

structure PartitionWindow where
  lastSeen : Int := 0
  lastOffset : Nat := 0
  recent : List (Int × Nat) := []
  deriving DecidableEq, Repr

namespace PartitionWindow

def check (w : PartitionWindow) (sequence : Int) : DedupeOutcome :=
  if sequence = satSucc w.lastSeen then .accept
  else if w.lastSeen < sequence then .gap (satSucc w.lastSeen) sequence
  else
    match w.recent.find? (fun x => x.1 = sequence) with
    | some x => .duplicate x.2
    | none =>
      if sequence = w.lastSeen then .duplicate w.lastOffset else .sequenceTooLow w.lastSeen

def record (w : PartitionWindow) (sequence : Int) (offset : Nat) : PartitionWindow :=
  let recent := w.recent ++ [(sequence, offset)]
  -- `pop_front` until no more than `WINDOW` are left.
  let recent := recent.drop (recent.length - windowSize)
  if w.recent.isEmpty ∨ w.lastSeen < sequence then ⟨sequence, offset, recent⟩
  else { w with recent }

section
variable (w : PartitionWindow)
include w

theorem record_recent (sequence : Int) (offset : Nat) :
    (w.record sequence offset).recent =
      (w.recent ++ [(sequence, offset)]).drop (w.recent.length + 1 - windowSize) := by
  have hlen : (w.recent ++ [(sequence, offset)]).length = w.recent.length + 1 :=
    List.length_append
  rw [← hlen]
  unfold record
  dsimp only
  rw [apply_ite PartitionWindow.recent, ite_self]

theorem record_lastSeen (sequence : Int) (offset : Nat) :
    (w.record sequence offset).lastSeen =
      if w.recent.isEmpty ∨ w.lastSeen < sequence then sequence else w.lastSeen := by
  unfold record
  split <;> rfl

theorem record_recent_ne_nil (sequence : Int) (offset : Nat) :
    (w.record sequence offset).recent ≠ [] := by
  rw [record_recent, Ne, List.drop_eq_nil_iff, List.length_append, List.length_singleton,
    windowSize]
  omega

end

/-! ### What a window has recorded it does not accept again -/

/-- The window stands at or past `sequence`. -/
structure Remembers (w : PartitionWindow) (sequence : Int) : Prop where
  recorded : w.recent ≠ []
  le : sequence ≤ w.lastSeen

theorem record_remembers (w : PartitionWindow) (sequence : Int) (offset : Nat) :
    (w.record sequence offset).Remembers sequence := by
  refine ⟨w.record_recent_ne_nil _ _, ?_⟩
  rw [record_lastSeen]
  split
  · exact le_refl _
  · rename_i h
    exact le_of_not_gt fun hlt => h (Or.inr hlt)

variable {w : PartitionWindow} {sequence : Int} {offset : Nat}

theorem Remembers.record {s : Int} (h : w.Remembers s) (sequence : Int) (offset : Nat) :
    (w.record sequence offset).Remembers s := by
  refine ⟨w.record_recent_ne_nil _ _, ?_⟩
  rw [record_lastSeen]
  split
  · rename_i hor
    rcases hor with hempty | hlt
    · exact absurd (List.isEmpty_iff.mp hempty) h.recorded
    · exact le_trans h.le (le_of_lt hlt)
  · exact h.le

/-- What is accepted short of the end of the range is above all that is remembered. -/
theorem lt_of_check_accept (h : w.check sequence = .accept) (hmax : sequence < i64Max) :
    w.lastSeen < sequence := by
  unfold check at h
  split at h
  · rename_i heq
    unfold satSucc at heq
    omega
  · split at h
    · exact DedupeOutcome.noConfusion h
    · split at h
      · exact DedupeOutcome.noConfusion h
      · split at h <;> exact DedupeOutcome.noConfusion h

theorem Remembers.check_ne_accept (h : w.Remembers sequence) (hmax : sequence < i64Max) :
    w.check sequence ≠ .accept :=
  fun hacc => absurd h.le (not_le_of_gt (lt_of_check_accept hacc hmax))

/-! ### What a window answers was recorded -/

/-- Each sequence the window can answer with an offset stands at that offset in `P`. -/
structure Vouched (P : Int → Nat → Prop) (w : PartitionWindow) : Prop where
  recent : ∀ x ∈ w.recent, P x.1 x.2
  last : w.recent ≠ [] → P w.lastSeen w.lastOffset
  recorded : w.recent ≠ []

variable {P Q : Int → Nat → Prop}

theorem Vouched.mono (h : w.Vouched P) (hpq : ∀ s o, P s o → Q s o) : w.Vouched Q :=
  ⟨fun x hx => hpq _ _ (h.recent x hx), fun hne => hpq _ _ (h.last hne), h.recorded⟩

theorem Vouched.record (hrecent : ∀ x ∈ w.recent, P x.1 x.2)
    (hlast : w.recent ≠ [] → P w.lastSeen w.lastOffset) (hnew : P sequence offset) :
    (w.record sequence offset).Vouched P := by
  refine ⟨?_, ?_, w.record_recent_ne_nil _ _⟩
  · intro x hx
    rw [record_recent] at hx
    rcases List.mem_append.mp (List.mem_of_mem_drop hx) with hx | hx
    · exact hrecent x hx
    · rw [List.mem_singleton.mp hx]
      exact hnew
  · intro _
    unfold PartitionWindow.record
    split
    · exact hnew
    · rename_i h
      exact hlast fun hnil => h (Or.inl (by rw [hnil]; rfl))

theorem Vouched.of_check (h : w.Vouched P) (hdup : w.check sequence = .duplicate offset) :
    P sequence offset := by
  unfold check at hdup
  split at hdup
  · exact DedupeOutcome.noConfusion hdup
  · split at hdup
    · exact DedupeOutcome.noConfusion hdup
    · split at hdup
      · rename_i x hfind
        cases hdup
        have hx := List.find?_some hfind
        rw [decide_eq_true_eq] at hx
        rw [← hx]
        exact h.recent x (List.mem_of_find?_eq_some hfind)
      · split at hdup
        · rename_i heq
          cases hdup
          rw [heq]
          exact h.last h.recorded
        · exact DedupeOutcome.noConfusion hdup

end PartitionWindow

/-! ### One producer -/

structure ProducerState where
  owner : String
  lastUsedMs : Int
  partitions : String × Nat → Option PartitionWindow

namespace ProducerState

/-- The first record on a partition is accepted with any sequence. -/
def check (st : ProducerState) (topic : String) (partition : Nat) (sequence : Int) :
    DedupeOutcome :=
  match st.partitions (topic, partition) with
  | none => .accept
  | some w => w.check sequence

def record (now : Int) (st : ProducerState) (topic : String) (partition : Nat) (sequence : Int)
    (offset : Nat) : ProducerState :=
  let w := (st.partitions (topic, partition)).getD {}
  { st with
    lastUsedMs := now
    partitions :=
      Function.update st.partitions (topic, partition) (some (w.record sequence offset)) }

theorem record_self (now : Int) (st : ProducerState) (topic : String) (partition : Nat)
    (sequence : Int) (offset : Nat) :
    (st.record now topic partition sequence offset).partitions (topic, partition) =
      some (((st.partitions (topic, partition)).getD {}).record sequence offset) :=
  Function.update_self ..

variable {topic : String} {partition offset : Nat} {st : ProducerState} {sequence : Int}

theorem record_of_ne (now : Int) (st : ProducerState) {topic' : String} {partition' : Nat}
    (hne : (topic', partition') ≠ (topic, partition)) (sequence : Int) (offset : Nat) :
    (st.record now topic partition sequence offset).partitions (topic', partition') =
      st.partitions (topic', partition') :=
  Function.update_of_ne hne ..

/-- The producer's window for the partition stands at or past `sequence`. -/
def Remembers (st : ProducerState) (topic : String) (partition : Nat) (sequence : Int) : Prop :=
  ∃ w, st.partitions (topic, partition) = some w ∧ w.Remembers sequence

theorem Remembers.check_ne_accept (h : st.Remembers topic partition sequence)
    (hmax : sequence < i64Max) : st.check topic partition sequence ≠ .accept := by
  obtain ⟨w, hw, hrem⟩ := h
  unfold check
  rw [hw]
  exact hrem.check_ne_accept hmax

theorem record_remembers (now : Int) (st : ProducerState) (topic : String) (partition : Nat)
    (sequence : Int) (offset : Nat) :
    (st.record now topic partition sequence offset).Remembers topic partition sequence :=
  ⟨_, record_self .., PartitionWindow.record_remembers _ _ _⟩

theorem Remembers.record {s : Int} (h : st.Remembers topic partition s) (now : Int)
    (topic' : String) (partition' : Nat) (sequence : Int) (offset : Nat) :
    (st.record now topic' partition' sequence offset).Remembers topic partition s := by
  obtain ⟨w, hw, hrem⟩ := h
  by_cases hkey : (topic, partition) = (topic', partition')
  · cases hkey
    refine ⟨_, record_self .., ?_⟩
    rw [hw]
    exact hrem.record sequence offset
  · exact ⟨w, (record_of_ne now st hkey ..).trans hw, hrem⟩

/-- Each window of the producer is vouched for by what `P` says of its partition. -/
def Vouched (P : String → Nat → Int → Nat → Prop) (st : ProducerState) : Prop :=
  ∀ topic partition w, st.partitions (topic, partition) = some w → w.Vouched (P topic partition)

variable {P Q : String → Nat → Int → Nat → Prop}

theorem Vouched.mono (h : st.Vouched P) (hpq : ∀ t p s o, P t p s o → Q t p s o) : st.Vouched Q :=
  fun t p w hw => (h t p w hw).mono (hpq t p)

theorem Vouched.record (h : st.Vouched P) (now : Int) (hnew : P topic partition sequence offset) :
    (st.record now topic partition sequence offset).Vouched P := by
  intro t p w hw
  by_cases hkey : (t, p) = (topic, partition)
  · cases hkey
    obtain rfl := Option.some.inj ((record_self ..).symm.trans hw)
    cases hold : st.partitions (topic, partition) with
    | none => exact PartitionWindow.Vouched.record (by simp) (fun hne => absurd rfl hne) hnew
    | some w => exact PartitionWindow.Vouched.record (h _ _ w hold).recent (h _ _ w hold).last hnew
  · exact h t p w ((record_of_ne now st hkey ..).symm.trans hw)

theorem Vouched.of_check (h : st.Vouched P)
    (hdup : st.check topic partition sequence = .duplicate offset) :
    P topic partition sequence offset := by
  unfold check at hdup
  split at hdup
  · exact DedupeOutcome.noConfusion hdup
  · rename_i w hw
    exact (h topic partition w hw).of_check hdup

end ProducerState

/-! ### The journal's entries -/

/-- One line of the producers' journal: an accepted sequence. -/
structure JournalEntry where
  p : String
  o : String
  t : String
  n : Nat
  s : Int
  f : Nat
  deriving DecidableEq, Repr

/-- Apply one journal line (`ProducerRegistry::replay`). -/
def replayEntry (now : Int) (producers : String → Option ProducerState) (e : JournalEntry) :
    String → Option ProducerState :=
  let st := (producers e.p).getD ⟨e.o, now, fun _ => none⟩
  Function.update producers e.p (some (st.record now e.t e.n e.s e.f))

end EventStream.Producers
