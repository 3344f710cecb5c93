import EventStream.Producers.History

/-! A journal replayed over a snapshot that is newer.

Between the write of `producers.json` and the removal of the rotated journal both have the same
records. Replaying the journal pushes them into the windows a second time, and what a window can
still answer then depends on what it pushes out. -/
namespace EventStream.Producers

/-! ### A window that is told what it knows -/

/-- The last records, which a window still has. -/
def latest (h : List (Int × Nat)) : List (Int × Nat) := h.drop (h.length - windowSize)

variable {w w' : PartitionWindow} {xs history again : List (Int × Nat)}

theorem recorded_recent (hlen : w.recent.length ≤ windowSize) (h : recorded (some w) xs = some w') :
    w'.recent = latest (w.recent ++ xs) := by
  unfold latest
  induction xs generalizing w with
  | nil =>
    cases h
    rw [List.append_nil, Nat.sub_eq_zero_of_le hlen, List.drop_zero]
  | cons x xs ih =>
    have hrecent := w.record_recent x.1 x.2
    have hlen' : (w.record x.1 x.2).recent.length ≤ windowSize := by
      rw [hrecent, List.length_drop, List.length_append, List.length_singleton]
      omega
    rw [ih hlen' h, hrecent]
    generalize windowSize = size at hlen ⊢
    have hdrop : (w.recent ++ [(x.1, x.2)]).drop (w.recent.length + 1 - size) ++ xs =
        (w.recent ++ x :: xs).drop (w.recent.length + 1 - size) := by
      rw [← List.drop_append_of_le_length
        (by rw [List.length_append, List.length_singleton]; omega), List.append_assoc]
      rfl
    rw [hdrop, List.drop_drop, List.length_drop, List.length_append, List.length_cons]
    congr 1
    omega

theorem vouched_recorded {P : Int → Nat → Prop} (hw : w.Vouched P)
    (hxs : ∀ x ∈ xs, P x.1 x.2) (h : recorded (some w) xs = some w') : w'.Vouched P := by
  induction xs generalizing w with
  | nil =>
    cases h
    exact hw
  | cons x xs ih =>
    obtain ⟨hx, hxs⟩ := List.forall_mem_cons.mp hxs
    exact ih (.record hw.recent hw.last hx) hxs h

/-- The window after these records, from the first on: the last of them, and the highest sequence
with an offset it was recorded with. -/
structure PartitionWindow.Holds (w : PartitionWindow) (history : List (Int × Nat)) : Prop where
  recent : w.recent = latest history
  vouched : w.Vouched fun s o => (s, o) ∈ history
  le : ∀ x ∈ history, x.1 ≤ w.lastSeen

theorem recorded_none (hw : recorded none history = some w) : w.Holds history := by
  cases history with
  | nil => cases hw
  | cons x h =>
    change recorded (some (({} : PartitionWindow).record x.1 x.2)) h = some w at hw
    have hfirst : (({} : PartitionWindow).record x.1 x.2).recent = [x] :=
      PartitionWindow.record_recent ..
    have hrecent := recorded_recent (by rw [hfirst]; exact Nat.le_of_ble_eq_true rfl) hw
    rw [hfirst] at hrecent
    obtain ⟨hle, hall⟩ := lastSeen_le_recorded (PartitionWindow.record_recent_ne_nil _ _ _) hw
    have hvouched := PartitionWindow.Vouched.record (w := {})
      (P := fun s o => (s, o) ∈ x :: h) (fun _ hno => absurd hno List.not_mem_nil)
      (fun hne => absurd rfl hne) (List.mem_cons_self : (x.1, x.2) ∈ x :: h)
    refine ⟨hrecent, vouched_recorded hvouched (fun y hy => List.mem_cons_of_mem x hy) hw,
      fun y hy => ?_⟩
    rcases List.mem_cons.mp hy with rfl | hy
    · exact le_trans (PartitionWindow.record_remembers _ y.1 y.2).le hle
    · exact hall y hy

/-- Past the last sequence, and at the end of the range, no record is looked up. -/
theorem check_congr (hseen : w'.lastSeen = w.lastSeen) {s : Int}
    (hs : w.lastSeen < s ∨ s = i64Max) : w'.check s = w.check s := by
  unfold PartitionWindow.check
  rw [hseen]
  by_cases hsucc : s = satSucc w.lastSeen
  · rw [if_pos hsucc, if_pos hsucc]
  · have hlt : w.lastSeen < s := by
      unfold satSucc at hsucc
      omega
    rw [if_neg hsucc, if_neg hsucc, if_pos hlt, if_pos hlt]

/-- A sequence that is not past the last one is a duplicate if it is the last one or the window
has it, and too low otherwise. -/
theorem check_seen {s : Int} (hle : s ≤ w.lastSeen) (hmax : s ≠ i64Max) :
    ((∃ o, w.check s = .duplicate o) ∧ (s = w.lastSeen ∨ ∃ x ∈ w.recent, x.1 = s)) ∨
      w.check s = .sequenceTooLow w.lastSeen ∧ s ≠ w.lastSeen ∧ ∀ x ∈ w.recent, x.1 ≠ s := by
  have hsucc : s ≠ satSucc w.lastSeen := by
    unfold satSucc
    omega
  unfold PartitionWindow.check
  rw [if_neg hsucc, if_neg (not_lt.mpr hle)]
  cases hfind : w.recent.find? fun x => x.1 = s with
  | some x =>
    exact .inl ⟨⟨x.2, rfl⟩, .inr ⟨x, List.mem_of_find?_eq_some hfind, by
      simpa using List.find?_some hfind⟩⟩
  | none =>
    by_cases hs : s = w.lastSeen
    · exact .inl ⟨⟨w.lastOffset, if_pos hs⟩, .inl hs⟩
    · exact .inr ⟨if_neg hs, hs, fun x hx hxs =>
        absurd (decide_eq_true hxs) (List.find?_eq_none.mp hfind x hx)⟩

/-- No sequence was recorded with two offsets, short of the end of the range. -/
def Once (history : List (Int × Nat)) : Prop :=
  ∀ x ∈ history, ∀ y ∈ history, x.1 = y.1 → x.1 ≠ i64Max → x = y

/-- Recorded once more, these records push none below the last sequence out of the window that
does not come again, and bring none back that had been pushed out. -/
def Unmoved (history again : List (Int × Nat)) : Prop :=
  ∀ x ∈ history, x.1 ≠ i64Max → (∃ y ∈ history, x.1 < y.1) →
    (x ∈ latest (history ++ again) ↔ x ∈ latest history)

/-- What was recorded below the last sequence is a duplicate exactly if the window has it. -/
theorem check_recorded (hone : Once history) (hsub : ∀ x ∈ w.recent, x ∈ history) {x : Int × Nat}
    (hx : x ∈ history) (hlt : x.1 < w.lastSeen) (hmax : x.1 ≠ i64Max) :
    (∃ o, w.check x.1 = .duplicate o) ↔ x ∈ w.recent := by
  rcases check_seen hlt.le hmax with ⟨hdup, hs⟩ | ⟨hlow, -, hnone⟩
  · refine iff_of_true hdup ?_
    obtain ⟨y, hy, hyx⟩ := hs.resolve_left hlt.ne
    rwa [hone x hx y (hsub y hy) hyx.symm hmax]
  · refine iff_of_false ?_ fun hmem => hnone x hmem rfl
    rintro ⟨o, ho⟩
    rw [hlow] at ho
    cases ho

/-- A window that is told what it knows answers as before exactly if nothing moved. -/
theorem check_again_iff (hone : Once history) (hagain : ∀ x ∈ again, x ∈ history)
    (hw : recorded none history = some w) (hw' : recorded (some w) again = some w') :
    (∀ s, w'.check s = w.check s) ↔ Unmoved history again := by
  have hw₀ := recorded_none hw
  rw [← hw, ← recorded_append] at hw'
  have hw₁ := recorded_none hw'
  have hall : ∀ x ∈ history ++ again, x ∈ history :=
    fun x hx => (List.mem_append.mp hx).elim id (hagain x)
  have hseen : w'.lastSeen = w.lastSeen :=
    le_antisymm (hw₀.le _ (hall _ (hw₁.vouched.last hw₁.vouched.recorded)))
      (hw₁.le _ (List.mem_append_left _ (hw₀.vouched.last hw₀.vouched.recorded)))
  have hsub (x : Int × Nat) (hx : x ∈ w'.recent) : x ∈ history := hall x (hw₁.vouched.recent x hx)
  unfold Unmoved
  rw [← hw₀.recent, ← hw₁.recent]
  constructor
  · rintro hcheck x hx hmax ⟨y, hy, hlt⟩
    have hlt := lt_of_lt_of_le hlt (hw₀.le y hy)
    rw [← check_recorded hone hw₀.vouched.recent hx hlt hmax,
      ← check_recorded hone hsub hx (hseen ▸ hlt) hmax, hcheck]
  · intro hsame s
    by_cases hs : w.lastSeen < s ∨ s = i64Max
    · exact check_congr hseen hs
    · obtain ⟨hle, hmax⟩ := not_or.mp hs
      have hle := not_lt.mp hle
      -- below the last sequence, what one window has the other has
      have hlower (x : Int × Nat) (hx : x ∈ history) (hxs : x.1 = s) (hne : s ≠ w.lastSeen) :
          x ∈ w'.recent ↔ x ∈ w.recent :=
        hsame x hx (hxs ▸ hmax) ⟨_, hw₀.vouched.last hw₀.vouched.recorded, by
          rw [hxs]; exact lt_of_le_of_ne hle hne⟩
      rcases check_seen hle hmax, check_seen (w := w') (hseen ▸ hle) hmax with
        ⟨⟨⟨o, ho⟩, hs⟩ | ⟨hlow, hne, hnone⟩, ⟨⟨o', ho'⟩, hs'⟩ | ⟨hlow', hne', hnone'⟩⟩
      · cases hone _ (hall _ (hw₁.vouched.of_check ho')) _ (hw₀.vouched.of_check ho) rfl hmax
        rw [ho, ho']
      · obtain ⟨x, hx, hxs⟩ := hs.resolve_left (hseen ▸ hne')
        exact absurd hxs (hnone' x ((hlower x (hw₀.vouched.recent x hx) hxs (hseen ▸ hne')).mpr hx))
      · obtain ⟨x, hx, hxs⟩ := hs'.resolve_left (hseen ▸ hne)
        exact absurd hxs (hnone x ((hlower x (hsub x hx) hxs hne).mp hx))
      · rw [hlow, hlow', hseen]

/-! ### Opening the registry -/

namespace Registry

/-- What `check` answers for a producer that is admitted. -/
def check (reg : Registry) (pid topic : String) (p : Nat) (s : Int) : DedupeOutcome :=
  match windowIn reg.slots pid topic p with
  | none => .accept
  | some w => w.check s

end Registry

section
variable [EntryFormat] {s : Store} {snapshot : Registry}
    {history : String → String → Nat → List (Int × Nat)} (hsnapshot : s.snapshot = some snapshot)
    (hlive : s.live = none)
    (hhistory : ∀ pid topic p,
      windowIn snapshot.slots pid topic p = recorded none (history pid topic p))
include hsnapshot hlive hhistory

/-- A window after `open`: the journal's entries are recorded behind the history. -/
theorem windowIn_opened (now : Int) (pid topic : String) (p : Nat) :
    windowIn (s.opened now).slots pid topic p =
      recorded (recorded none (history pid topic p))
        (pairs (replayed (s.rotated.getD .empty).text) pid topic p) := by
  have hnolines : replayed JournalFile.empty.text = [] := rfl
  unfold Store.opened
  dsimp only
  rw [hsnapshot, hlive, Option.getD_some, Option.getD_none, hnolines, List.foldl_nil,
    Registry.slots_replay, windowIn_replay, Registry.windowIn_load, hhistory]

end

/-- The sequences of one producer at one partition, each at the offset of the same number. -/
def numbered (sequences : List Nat) : List JournalEntry :=
  sequences.map fun s : Nat => ⟨"p", "k", "t", 0, (s : Int), s⟩

theorem pairs_numbered (l : List Nat) (pid topic : String) (p : Nat) :
    pairs (numbered l) pid topic p =
      if "p" = pid ∧ "t" = topic ∧ 0 = p then l.map fun s : Nat => ((s : Int), s) else [] := by
  have hkey : ((fun e : JournalEntry => decide (e.p = pid ∧ e.t = topic ∧ e.n = p)) ∘
      fun s : Nat => ⟨"p", "k", "t", 0, (s : Int), s⟩) =
        fun _ => decide ("p" = pid ∧ "t" = topic ∧ 0 = p) := rfl
  rw [pairs, numbered, List.filter_map, List.map_map, hkey]
  split
  · rename_i h
    rw [decide_eq_true h, List.filter_true]
    rfl
  · rename_i h
    rw [decide_eq_false h, List.filter_false]
    rfl

/-- A hundred records are in `producers.json`, and all of them in the rotated journal. -/
def rotatedOnce : Store :=
  { Store.empty with
    snapshot := some ((numbered (List.range 100)).foldl (Registry.replayEntry 1) .empty)
    rotated := some ⟨encodeLines (numbered (List.range 100)), 0⟩ }

/-- A full window is flushed; ten more records are journaled, and the next flush ends between the
write of `producers.json` and the removal of the rotated journal. -/
def flushedTwice : List Event :=
  [.record 1 (numbered (List.range 128)), .journal 0 10000 true, .rotate true, .collect, .copy,
    .write .ok, .remove true, .record 2 (numbered (List.range' 128 10)), .journal 0 10000 true,
    .rotate true, .collect, .copy, .write .ok]

end EventStream.Producers
