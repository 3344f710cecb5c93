import Mathlib.Data.List.Chain
import EventStream.Producers.Journal

/-! What a window answers, by the history of what was recorded in it.

As long as only accepted sequences are recorded, short of the last one of their type, a history is
a run of consecutive sequences and the window shows its end: the last 128 records with their
offsets, and the last of all. What `check` answers can then be read off the history. -/
namespace EventStream.Producers

/-- The sequences count up from `first`. -/
def Consecutive (first : Int) (h : List (Int × Nat)) : Prop :=
  ∀ (i : Nat) (x : Int × Nat), h[i]? = some x → x.1 = first + i

variable {h xs : List (Int × Nat)} {s first : Int}

theorem Consecutive.concat (hc : Consecutive first h) (hs : s = first + h.length) (o : Nat) :
    Consecutive first (h ++ [(s, o)]) := by
  intro i x hx
  rcases getElem?_concat_cases hx with ⟨rfl, rfl⟩ | hx
  · exact hs
  · exact hc i x hx

theorem Consecutive.index (hc : Consecutive first h) {i j : Nat} {x y : Int × Nat}
    (hx : h[i]? = some x) (hy : h[j]? = some y) (hxy : x.1 = y.1) : i = j := by
  have := hc i x hx
  have := hc j y hy
  omega

namespace PartitionWindow

/-- The window shows the end of the history `h`, which counts up from `first`. -/
structure Shows (first : Int) (h : List (Int × Nat)) (w : PartitionWindow) : Prop where
  consecutive : Consecutive first h
  recent : w.recent = h.drop (h.length - windowSize)
  last : h.getLast? = some (w.lastSeen, w.lastOffset)

variable {w : PartitionWindow} {first : Int} {h : List (Int × Nat)}

section
variable (hw : w.Shows first h)
include hw

theorem Shows.last_index : h[h.length - 1]? = some (w.lastSeen, w.lastOffset) := by
  rw [← List.getLast?_eq_getElem?]
  exact hw.last

theorem Shows.length_pos : 0 < h.length := by
  have := (List.getElem?_eq_some_iff.mp hw.last_index).1
  omega

theorem Shows.lastSeen_eq : w.lastSeen = first + h.length - 1 := by
  have hpos := hw.length_pos
  have := hw.consecutive _ _ hw.last_index
  dsimp only at this
  omega

end

/-- The first record of a window. -/
theorem shows_first (s : Int) (o : Nat) : (({} : PartitionWindow).record s o).Shows s [(s, o)] := by
  refine ⟨fun i x hx => ?_, record_recent .., rfl⟩
  obtain ⟨rfl, rfl⟩ : i = 0 ∧ x = (s, o) := by
    cases i with
    | zero =>
      cases hx
      exact ⟨rfl, rfl⟩
    | succ i => cases hx
  exact (Int.add_zero s).symm

/-- Recording the successor of the last sequence. -/
theorem Shows.record (hw : w.Shows first h) (hs : s = w.lastSeen + 1) (o : Nat) :
    (w.record s o).Shows first (h ++ [(s, o)]) := by
  have hlast := hw.lastSeen_eq
  refine ⟨hw.consecutive.concat (by omega) o, ?_, ?_⟩
  · rw [record_recent, hw.recent, List.length_append, List.length_singleton, List.length_drop]
    generalize windowSize = size
    rcases Nat.le_total h.length size with hle | hle
    · rw [Nat.sub_eq_zero_of_le hle, List.drop_zero, Nat.sub_zero]
    · rw [← List.drop_append_of_le_length (by omega), List.drop_drop]
      congr 1
      omega
  · have hnew : w.record s o = ⟨s, o, (w.record s o).recent⟩ := by
      unfold PartitionWindow.record
      dsimp only
      rw [if_pos (Or.inr (by omega))]
    rw [hnew, List.getLast?_append]
    rfl

/-! ### The answers -/

/-- Short of the end of the range exactly the successor is accepted. -/
theorem check_eq_accept (hmax : w.lastSeen < i64Max) (s : Int) :
    w.check s = .accept ↔ s = w.lastSeen + 1 := by
  have hsat : satSucc w.lastSeen = w.lastSeen + 1 := by
    unfold satSucc
    omega
  unfold check
  rw [hsat]
  constructor
  · intro hacc
    split at hacc
    · assumption
    · split at hacc
      · cases hacc
      · split at hacc
        · cases hacc
        · split at hacc <;> cases hacc
  · exact fun hs => if_pos hs

/-- What was recorded is looked up among the last records. -/
theorem Shows.check_recorded (hw : w.Shows first h) (hmax : w.lastSeen < i64Max) {i : Nat}
    {x : Int × Nat} (hx : h[i]? = some x) :
    w.check x.1 = if h.length - windowSize ≤ i then .duplicate x.2
      else .sequenceTooLow w.lastSeen := by
  have hi := (List.getElem?_eq_some_iff.mp hx).1
  have hseq := hw.consecutive i x hx
  have hlast := hw.lastSeen_eq
  have hsat : satSucc w.lastSeen = w.lastSeen + 1 := by
    unfold satSucc
    omega
  unfold check
  rw [hsat, if_neg (by omega), if_neg (by omega), hw.recent]
  split
  · rename_i y hfind
    obtain ⟨j, hj⟩ := List.getElem?_of_mem (List.mem_of_find?_eq_some hfind)
    have hy := List.find?_some hfind
    rw [decide_eq_true_eq] at hy
    rw [List.getElem?_drop] at hj
    obtain rfl := hw.consecutive.index hx hj hy.symm
    obtain rfl := Option.some.inj (hx.symm.trans hj)
    rw [if_pos (Nat.le_add_right _ _)]
  · rename_i hfind
    have hlow : i < h.length - windowSize := by
      by_contra hle
      have hmem : x ∈ h.drop (h.length - windowSize) := by
        refine List.mem_of_getElem? (i := i - (h.length - windowSize)) ?_
        rw [List.getElem?_drop, Nat.add_sub_cancel' (by omega)]
        exact hx
      exact absurd (decide_eq_true rfl) (List.find?_eq_none.mp hfind x hmem)
    have hpos : 0 < windowSize := by decide
    rw [if_neg (by omega), if_neg (by omega)]

/-- An offset that is answered stands among the last records of the history. -/
theorem Shows.of_duplicate (hw : w.Shows first h) {o : Nat} (hdup : w.check s = .duplicate o) :
    ∃ i, h.length - windowSize ≤ i ∧ h[i]? = some (s, o) := by
  unfold check at hdup
  split at hdup
  · cases hdup
  · split at hdup
    · cases hdup
    · split at hdup
      · rename_i x hfind
        cases hdup
        obtain ⟨j, hj⟩ := List.getElem?_of_mem (List.mem_of_find?_eq_some hfind)
        have hx := List.find?_some hfind
        rw [decide_eq_true_eq] at hx
        rw [hw.recent, List.getElem?_drop] at hj
        exact ⟨_, Nat.le_add_right _ _, by rw [hj, ← hx]⟩
      · split at hdup
        · rename_i hs
          cases hdup
          have hpos : 0 < windowSize := by decide
          have := hw.length_pos
          refine ⟨h.length - 1, by omega, ?_⟩
          rw [hw.last_index, hs]
        · cases hdup

end PartitionWindow

/-! ### One partition of a producer -/

namespace ProducerState

/-- The states that come of recording accepted sequences on one partition, which had no window,
with what was recorded, in order. Checking changes nothing, and neither does what is recorded
elsewhere. -/
inductive Recorded (topic : String) (partition : Nat) :
    ProducerState → List (Int × Nat) → Prop where
  | start {st : ProducerState} (hnone : st.partitions (topic, partition) = none) :
      Recorded topic partition st []
  | accepted {st : ProducerState} {h : List (Int × Nat)} {s : Int} (now : Int) (o : Nat)
      (hst : Recorded topic partition st h) (hs : 0 ≤ s) (hmax : s ≤ i64Max)
      (hacc : st.check topic partition s = .accept) :
      Recorded topic partition (st.record now topic partition s o) (h ++ [(s, o)])
  | elsewhere {st : ProducerState} {h : List (Int × Nat)} {topic' : String} {partition' : Nat}
      (now : Int) (s : Int) (o : Nat) (hst : Recorded topic partition st h)
      (hne : (topic, partition) ≠ (topic', partition')) :
      Recorded topic partition (st.record now topic' partition' s o) h

variable {topic : String} {partition : Nat} {st : ProducerState} {h : List (Int × Nat)}

/-- The window shows the history. -/
def Shows (topic : String) (partition : Nat) (h : List (Int × Nat)) (st : ProducerState) : Prop :=
  (h = [] ∧ st.partitions (topic, partition) = none) ∨
    ∃ first w, st.partitions (topic, partition) = some w ∧ w.Shows first h

/-- Accepting and recording a sequence. -/
theorem Shows.record (hst : st.Shows topic partition h) (hmax : s < i64Max)
    (hacc : st.check topic partition s = .accept) (now : Int) (o : Nat) :
    (st.record now topic partition s o).Shows topic partition (h ++ [(s, o)]) := by
  right
  rcases hst with ⟨rfl, hnone⟩ | ⟨first, w, hw, hshows⟩
  · refine ⟨s, _, record_self .., ?_⟩
    rw [hnone]
    exact PartitionWindow.shows_first s o
  · unfold check at hacc
    rw [hw] at hacc
    have hlt := PartitionWindow.lt_of_check_accept hacc hmax
    refine ⟨first, _, record_self .., ?_⟩
    rw [hw]
    exact hshows.record ((PartitionWindow.check_eq_accept (by omega) s).mp hacc) o

theorem Recorded.shows (hst : Recorded topic partition st h) (hmax : ∀ x ∈ h, x.1 ≠ i64Max) :
    st.Shows topic partition h := by
  induction hst with
  | start hnone => exact .inl ⟨rfl, hnone⟩
  | @accepted st h s now o _ _ hle hacc ih =>
    have hs : s ≠ i64Max := hmax (s, o) (List.mem_append_right _ List.mem_cons_self)
    exact (ih fun x hx => hmax x (List.mem_append_left _ hx)).record (by omega) hacc now o
  | elsewhere now s o _ hne ih =>
    rcases ih hmax with ⟨hnil, hnone⟩ | ⟨first, w, hw, hshows⟩
    · exact .inl ⟨hnil, (record_of_ne now _ hne s o).trans hnone⟩
    · exact .inr ⟨first, w, (record_of_ne now _ hne s o).trans hw, hshows⟩

theorem Recorded.range (hst : Recorded topic partition st h) : ∀ x ∈ h, 0 ≤ x.1 ∧ x.1 ≤ i64Max := by
  induction hst with
  | start => exact fun x hx => absurd hx List.not_mem_nil
  | accepted _ _ _ hs hmax _ ih =>
    intro x hx
    rcases List.mem_append.mp hx with hx | hx
    · exact ih x hx
    · rw [List.mem_singleton.mp hx]
      exact ⟨hs, hmax⟩
  | elsewhere _ _ _ _ _ ih => exact ih

/-- The window of a partition. Let only accepted sequences have been recorded, and not the last one
of their type. Then what was recorded is not accepted again: the last 128 are answered with the
offset they were recorded with, the others as too low. After the first record only the successor of
the last one is accepted, so that what is recorded is consecutive. -/
theorem window_answers (hst : Recorded topic partition st h) (hmax : ∀ x ∈ h, x.1 ≠ i64Max) :
    (∀ x ∈ h, st.check topic partition x.1 ≠ .accept) ∧
    (∀ x ∈ h.drop (h.length - windowSize),
      st.check topic partition x.1 = .duplicate x.2) ∧
    (∀ x ∈ h.take (h.length - windowSize), ∃ lastSeen,
      st.check topic partition x.1 = .sequenceTooLow lastSeen) ∧
    (∀ last, h.getLast? = some last → ∀ s,
      st.check topic partition s = .accept ↔ s = last.1 + 1) ∧
    h.IsChain fun x y => y.1 = x.1 + 1 := by
  rcases hst.shows hmax with ⟨rfl, -⟩ | ⟨first, w, hw, hshows⟩
  · refine ⟨?_, ?_, ?_, nofun, .nil⟩ <;> exact fun x hx => absurd hx List.not_mem_nil
  have hlast : w.lastSeen < i64Max := by
    have hmem := List.mem_of_getLast? hshows.last
    have hne := hmax _ hmem
    have hle := (hst.range _ hmem).2
    dsimp only at hne hle
    omega
  have hcheck : ∀ s, st.check topic partition s = w.check s := by
    intro s
    unfold check
    rw [hw]
  refine ⟨fun x hx => ?_, fun x hx => ?_, fun x hx => ?_, fun last hl s => ?_, ?_⟩
  · obtain ⟨i, hi⟩ := List.getElem?_of_mem hx
    rw [hcheck, hshows.check_recorded hlast hi]
    split <;> exact nofun
  · obtain ⟨i, hi⟩ := List.getElem?_of_mem hx
    rw [List.getElem?_drop] at hi
    rw [hcheck, hshows.check_recorded hlast hi, if_pos (Nat.le_add_right _ _)]
  · obtain ⟨i, hi⟩ := List.getElem?_of_mem hx
    have hlt := (List.getElem?_eq_some_iff.mp hi).1
    rw [List.length_take] at hlt
    rw [List.getElem?_take_of_lt (by omega)] at hi
    exact ⟨_, by rw [hcheck, hshows.check_recorded hlast hi, if_neg (by omega)]⟩
  · obtain rfl := Option.some.inj (hl.symm.trans hshows.last)
    rw [hcheck]
    exact PartitionWindow.check_eq_accept hlast s
  · rw [List.isChain_iff_getElem]
    intro i hi
    have hx := hshows.consecutive _ _ (List.getElem?_eq_getElem (Nat.lt_of_succ_lt hi))
    have hy := hshows.consecutive _ _ (List.getElem?_eq_getElem hi)
    omega

/-- A producer that has sent nothing. -/
def untried : ProducerState := ⟨"key", 0, fun _ => none⟩

/-- Two records, the first with sequence 5. -/
def twice : ProducerState := (untried.record 1 "t" 0 5 70).record 2 "t" 0 6 71

theorem twice_recorded : Recorded "t" 0 twice [(5, 70), (6, 71)] :=
  .accepted 2 71 (.accepted 1 70 (.start rfl) (by decide) (by decide) rfl) (by decide) (by decide)
    (by decide)

theorem window_answers_twice : twice.check "t" 0 5 = .duplicate 70 ∧
    twice.check "t" 0 6 = .duplicate 71 ∧ ∀ s, twice.check "t" 0 s = .accept ↔ s = 7 := by
  obtain ⟨-, hrecent, -, hnext, -⟩ := window_answers twice_recorded (by decide)
  exact ⟨hrecent (5, 70) (by decide), hrecent (6, 71) (by decide), hnext (6, 71) rfl⟩

/-- The last sequence of the type is its own successor: it is accepted again. -/
theorem last_sequence_accepted_again :
    Recorded "t" 0 (untried.record 1 "t" 0 i64Max 70) [(i64Max, 70)] ∧
      (untried.record 1 "t" 0 i64Max 70).check "t" 0 i64Max = .accept :=
  ⟨.accepted 1 70 (.start rfl) (by decide) (by decide) rfl, by decide⟩

end ProducerState

/-! ### Recording one after the other -/

/-- A window, or none yet, after these are recorded. -/
def recorded (w : Option PartitionWindow) (xs : List (Int × Nat)) : Option PartitionWindow :=
  xs.foldl (fun w x => some ((w.getD {}).record x.1 x.2)) w

theorem recorded_append (w : Option PartitionWindow) (xs ys : List (Int × Nat)) :
    recorded w (xs ++ ys) = recorded (recorded w xs) ys :=
  List.foldl_append

theorem recorded_some (w : PartitionWindow) (xs : List (Int × Nat)) :
    ∃ w', recorded (some w) xs = some w' := by
  induction xs generalizing w with
  | nil => exact ⟨w, rfl⟩
  | cons x xs ih => exact ih (w.record x.1 x.2)

/-- The last sequence only grows. -/
theorem lastSeen_le_recorded {w w' : PartitionWindow} (hne : w.recent ≠ [])
    (h : recorded (some w) xs = some w') :
    w.lastSeen ≤ w'.lastSeen ∧ ∀ x ∈ xs, x.1 ≤ w'.lastSeen := by
  induction xs generalizing w with
  | nil =>
    cases h
    exact ⟨le_refl _, fun x hx => absurd hx List.not_mem_nil⟩
  | cons x xs ih =>
    obtain ⟨hle, hall⟩ := ih (w.record_recent_ne_nil x.1 x.2) h
    have hkept : w.Remembers w.lastSeen := ⟨hne, le_refl _⟩
    refine ⟨le_trans (hkept.record x.1 x.2).le hle, fun y hy => ?_⟩
    rcases List.mem_cons.mp hy with rfl | hy
    · exact le_trans (w.record_remembers y.1 y.2).le hle
    · exact hall y hy

/-- Consecutive sequences behind the last one go on with the history. -/
theorem PartitionWindow.Shows.recorded {w w' : PartitionWindow} {first : Int}
    {h xs : List (Int × Nat)} (hw : w.Shows first h) (hxs : Consecutive (w.lastSeen + 1) xs)
    (hr : Producers.recorded (some w) xs = some w') : w'.Shows first (h ++ xs) := by
  induction xs generalizing w h with
  | nil =>
    cases hr
    rwa [List.append_nil]
  | cons x xs ih =>
    have hx : x.1 = w.lastSeen + 1 := by
      have := hxs 0 x rfl
      omega
    have hnext := hw.record hx x.2
    have hlast : (w.record x.1 x.2).lastSeen = x.1 := by
      rw [record_lastSeen, if_pos (Or.inr (by omega))]
    have := ih hnext (fun i y hy => by
      have := hxs (i + 1) y hy
      rw [hlast]
      push_cast at this
      omega) hr
    rwa [List.append_assoc] at this

/-- A history in which each sequence was accepted: short of the end of the range, the window shows
it. -/
def Chained (h : List (Int × Nat)) : Prop :=
  ∀ w, recorded none h = some w → w.lastSeen < i64Max → ∃ first, w.Shows first h

theorem Chained.nil : Chained [] := nofun

theorem recorded_eq_none (hnone : recorded none h = none) : h = [] := by
  cases h with
  | nil => rfl
  | cons y ys =>
    obtain ⟨w, hw⟩ := recorded_some (({} : PartitionWindow).record y.1 y.2) ys
    exact nomatch hnone.symm.trans hw

/-- What the window accepts short of the end of the range, and its successors, go on with the
history. -/
theorem Chained.shows_append (hh : Chained h) (hxs : Consecutive s xs) (hne : xs ≠ [])
    (hmax : s < i64Max) (hacc : ∀ w, recorded none h = some w → w.check s = .accept) :
    ∃ first w, recorded none (h ++ xs) = some w ∧ w.Shows first (h ++ xs) := by
  rw [recorded_append]
  cases hbefore : recorded none h with
  | none =>
    obtain rfl := recorded_eq_none hbefore
    obtain ⟨x, xs, rfl⟩ := List.exists_cons_of_ne_nil hne
    obtain ⟨w, hw⟩ := recorded_some (({} : PartitionWindow).record x.1 x.2) xs
    refine ⟨x.1, w, hw, (PartitionWindow.shows_first x.1 x.2).recorded (fun i y hy => ?_) hw⟩
    have hx := hxs 0 x rfl
    have hy := hxs (i + 1) y hy
    rw [show (({} : PartitionWindow).record x.1 x.2).lastSeen = x.1 from rfl]
    push_cast at hy
    omega
  | some w =>
    have hlt := PartitionWindow.lt_of_check_accept (hacc w hbefore) hmax
    obtain ⟨first, hshows⟩ := hh w hbefore (by omega)
    obtain ⟨w', hw'⟩ := recorded_some w xs
    have hsucc := (PartitionWindow.check_eq_accept (by omega) s).mp (hacc w hbefore)
    exact ⟨first, w', hw', hshows.recorded (hsucc ▸ hxs) hw'⟩

theorem Chained.append {h xs : List (Int × Nat)} (hh : Chained h) {s : Int} (hxs : Consecutive s xs)
    (hacc : xs ≠ [] → ∀ w, recorded none h = some w → w.check s = .accept) : Chained (h ++ xs) := by
  by_cases hne : xs = []
  · rwa [hne, List.append_nil]
  · intro w' hw' hmax
    have hle : s ≤ w'.lastSeen := by
      obtain ⟨x, xs, rfl⟩ := List.exists_cons_of_ne_nil hne
      have hx := hxs 0 x rfl
      rw [recorded_append] at hw'
      have hrem := (((recorded none h).getD {}).record_remembers x.1 x.2).le
      have := (lastSeen_le_recorded (PartitionWindow.record_recent_ne_nil _ x.1 x.2) hw').1
      omega
    obtain ⟨first, w, hw, hshows⟩ := hh.shows_append hxs hne (by omega) (hacc hne)
    obtain rfl := Option.some.inj (hw.symm.trans hw')
    exact ⟨first, hshows⟩

/-- A sequence that was answered, or is recorded now, is answered with its offset afterwards, as
long as it is still among the last. -/
theorem Chained.check_again (hh : Chained h) {s₀ : Int} (hxs : Consecutive s₀ xs)
    (hacc : xs ≠ [] → ∀ w, recorded none h = some w → w.check s₀ = .accept)
    (hmax : ∀ x ∈ xs, x.1 < i64Max) {o : Nat} (hspan : ∀ x ∈ xs, x.1 < s + windowSize)
    (hknown : (s, o) ∈ xs ∨ ∃ w, recorded none h = some w ∧ w.check s = .duplicate o) :
    ∃ w, recorded none (h ++ xs) = some w ∧ w.check s = .duplicate o := by
  by_cases hne : xs = []
  · rw [hne] at hknown
    rw [hne, List.append_nil]
    exact hknown.resolve_left List.not_mem_nil
  obtain ⟨x, hx⟩ : ∃ x, xs[0]? = some x := by
    obtain ⟨x, rest, rfl⟩ := List.exists_cons_of_ne_nil hne
    exact ⟨x, rfl⟩
  have hs₀ := hxs 0 x hx
  have hs₀max := hmax x (List.mem_of_getElem? hx)
  obtain ⟨first, w', hw', hshows⟩ := hh.shows_append hxs hne (by omega) (hacc hne)
  obtain ⟨last, hlast⟩ : ∃ last, xs[xs.length - 1]? = some last := by
    have := List.length_pos_iff.mpr hne
    exact ⟨_, List.getElem?_eq_getElem (by omega)⟩
  -- the window ends with the last of `xs`
  have hend : w'.lastSeen = last.1 := by
    have hl := hshows.last
    rw [List.getLast?_append, List.getLast?_eq_getElem?, hlast] at hl
    exact (congrArg Prod.fst (Option.some.inj hl)).symm
  have hlastmax := hmax last (List.mem_of_getElem? hlast)
  have hlastspan := hspan last (List.mem_of_getElem? hlast)
  obtain ⟨i, hi⟩ : ∃ i, (h ++ xs)[i]? = some (s, o) := by
    rcases hknown with hmem | ⟨w, hw, hdup⟩
    · exact List.getElem?_of_mem (List.mem_append_right _ hmem)
    · have hlt := PartitionWindow.lt_of_check_accept (hacc hne w hw) (by omega)
      obtain ⟨first', hbefore⟩ := hh w hw (by omega)
      obtain ⟨i, -, hi⟩ := hbefore.of_duplicate hdup
      exact ⟨i, by rw [List.getElem?_append_left (List.getElem?_eq_some_iff.mp hi).1, hi]⟩
  have hindex := hshows.consecutive i _ hi
  have hfirst := hshows.lastSeen_eq
  refine ⟨w', hw', ?_⟩
  rw [hshows.check_recorded (by omega) hi, if_pos]
  dsimp only at hindex
  omega

/-! ### Replaying a journal -/

/-- The window of a producer for a partition, if there is one. -/
def windowIn (producers : String → Option ProducerState) (pid topic : String) (p : Nat) :
    Option PartitionWindow :=
  (producers pid).bind fun st => st.partitions (topic, p)

/-- What the lines have of one partition. -/
def pairs (lines : List JournalEntry) (pid topic : String) (p : Nat) : List (Int × Nat) :=
  (lines.filter fun e => e.p = pid ∧ e.t = topic ∧ e.n = p).map fun e => (e.s, e.f)

theorem pairs_append (lines lines' : List JournalEntry) (pid topic : String) (p : Nat) :
    pairs (lines ++ lines') pid topic p = pairs lines pid topic p ++ pairs lines' pid topic p := by
  rw [pairs, List.filter_append, List.map_append]
  rfl

theorem windowIn_replayEntry (now : Int) (producers : String → Option ProducerState)
    (e : JournalEntry) (pid topic : String) (p : Nat) :
    windowIn (replayEntry now producers e) pid topic p =
      recorded (windowIn producers pid topic p) (pairs [e] pid topic p) := by
  unfold windowIn replayEntry
  by_cases hpid : pid = e.p
  · subst hpid
    rw [Function.update_self, Option.bind_some]
    by_cases hkey : (topic, p) = (e.t, e.n)
    · cases hkey
      rw [ProducerState.record_self]
      have hpairs : pairs [e] e.p e.t e.n = [(e.s, e.f)] := by simp [pairs]
      rw [hpairs]
      cases producers e.p <;> rfl
    · rw [ProducerState.record_of_ne now _ hkey]
      have hpairs : pairs [e] e.p topic p = [] := by
        have : ¬(e.t = topic ∧ e.n = p) := fun ⟨ht, hp⟩ => hkey (by rw [ht, hp])
        simp [pairs, this]
      rw [hpairs]
      cases producers e.p <;> rfl
  · have hpairs : pairs [e] pid topic p = [] := by simp [pairs, Ne.symm hpid]
    rw [Function.update_of_ne hpid, hpairs]
    rfl

theorem windowIn_replay (now : Int) (lines : List JournalEntry)
    (producers : String → Option ProducerState) (pid topic : String) (p : Nat) :
    windowIn (lines.foldl (replayEntry now) producers) pid topic p =
      recorded (windowIn producers pid topic p) (pairs lines pid topic p) := by
  induction lines generalizing producers with
  | nil => rfl
  | cons e lines ih =>
    rw [List.foldl_cons, ih, windowIn_replayEntry, ← recorded_append, ← pairs_append]
    rfl

namespace Registry

theorem windowIn_load (now : Int) (reg : Registry) (pid topic : String) (p : Nat) :
    windowIn (reg.load now).slots pid topic p = windowIn reg.slots pid topic p := by
  unfold windowIn load
  dsimp only
  cases reg.slots pid <;> rfl

end Registry

end EventStream.Producers
