import Mathlib.Data.List.Basic
import Mathlib.Data.List.Nodup

/-! Logs whose entries have a key, or none: the newest entry of each key, and what is left of a
log once older entries are dropped.

A reader that only wants the newest entry of each key cannot tell the compacted log from the
log (`newest_compacted`), and compacting it again changes nothing (`compacted_compacted`). -/
namespace EventStream

section
variable {α κ : Type} [DecidableEq κ] (key : α → Option κ)

/-- The last entry with the key `k`. -/
def newest (log : List α) (k : κ) : Option α := (log.filter fun a => key a = some k).getLast?

variable {key} {log : List α} {k : κ} {a : α}

theorem newest_append (xs ys : List α) :
    newest key (xs ++ ys) k = (newest key ys k).or (newest key xs k) := by
  rw [newest, List.filter_append, List.getLast?_append]
  rfl

theorem mem_of_newest (h : newest key log k = some a) : a ∈ log ∧ key a = some k := by
  have hmem := List.mem_filter.mp (List.mem_of_getLast? h)
  exact ⟨hmem.1, by simpa using hmem.2⟩

theorem newest_eq_none : newest key log k = none ↔ ∀ a ∈ log, key a ≠ some k := by
  rw [newest, List.getLast?_eq_none_iff, List.filter_eq_nil_iff]
  simp

/-- Where the entries are numbered in increasing order, the newest one has the greatest
number. -/
theorem newest_iff_greatest {rank : α → Nat} (hs : log.Pairwise fun a b => rank a < rank b) :
    newest key log k = some a ↔
      a ∈ log ∧ key a = some k ∧ ∀ x ∈ log, key x = some k → rank x ≤ rank a := by
  have hsorted : (log.filter fun x => key x = some k).Pairwise fun a b => rank a < rank b :=
    hs.filter _
  have hgreatest {b : α} (hb : newest key log k = some b) :
      ∀ x ∈ log, key x = some k → rank x ≤ rank b := by
    intro x hx hxk
    obtain ⟨front, hfront⟩ := List.getLast?_eq_some_iff.mp hb
    have hmem : x ∈ log.filter fun x => key x = some k :=
      List.mem_filter.mpr ⟨hx, decide_eq_true hxk⟩
    rw [hfront] at hsorted hmem
    rcases List.mem_append.mp hmem with hmem | hmem
    · exact Nat.le_of_lt ((List.pairwise_append.mp hsorted).2.2 x hmem b List.mem_cons_self)
    · exact Nat.le_of_eq (congrArg rank (List.mem_singleton.mp hmem))
  constructor
  · intro h
    exact ⟨(mem_of_newest h).1, (mem_of_newest h).2, hgreatest h⟩
  · rintro ⟨hmem, hk, hmax⟩
    cases hnew : newest key log k with
    | none => exact absurd hk (newest_eq_none.mp hnew a hmem)
    | some b =>
      -- Two entries with the same number are the same entry.
      obtain ⟨hb, hbk⟩ := mem_of_newest hnew
      have hrank : rank a = rank b := Nat.le_antisymm (hgreatest hnew a hmem hk) (hmax b hb hbk)
      rw [List.pairwise_iff_getElem] at hs
      obtain ⟨i, hi, rfl⟩ := List.getElem_of_mem hmem
      obtain ⟨j, hj, rfl⟩ := List.getElem_of_mem hb
      rcases Nat.lt_trichotomy i j with hij | rfl | hij
      · exact absurd hrank (Nat.ne_of_lt (hs i j hi hj hij))
      · rfl
      · exact absurd hrank (Nat.ne_of_gt (hs j i hj hi hij))

/-! ### Dropping older entries -/

variable [DecidableEq α] (key) (drop : α → Bool)

/-- An entry stays if it has no key, or if it is the newest of its key and need not be
dropped. -/
def stays (log : List α) (a : α) : Bool :=
  match key a with
  | none => true
  | some k => decide (newest key log k = some a) && !drop a

def compacted (log : List α) : List α := log.filter (stays key drop log)

variable {key} {drop}

theorem stays_iff (hk : key a = some k) :
    stays key drop log a = true ↔ newest key log k = some a ∧ drop a = false := by
  simp [stays, hk]

/-- The newest entry of a key stays the newest, or it is dropped and with it all others. -/
theorem newest_compacted (log : List α) (k : κ) :
    newest key (compacted key drop log) k = (newest key log k).filter fun a => !drop a := by
  have hleft {x : α} (hx : x ∈ compacted key drop log) (hxk : key x = some k) :
      newest key log k = some x ∧ drop x = false :=
    (stays_iff hxk).mp (List.mem_filter.mp hx).2
  cases hnew : newest key log k with
  | none =>
    refine newest_eq_none.mpr fun x hx hxk => ?_
    exact nomatch hnew.symm.trans (hleft hx hxk).1
  | some a =>
    obtain ⟨hmem, hk⟩ := mem_of_newest hnew
    rw [Option.filter_some]
    cases hdrop : drop a with
    | true =>
      refine newest_eq_none.mpr fun x hx hxk => ?_
      obtain ⟨hxnew, hxdrop⟩ := hleft hx hxk
      cases hnew.symm.trans hxnew
      exact nomatch hdrop.symm.trans hxdrop
    | false =>
      have hstays : a ∈ compacted key drop log :=
        List.mem_filter.mpr ⟨hmem, (stays_iff hk).mpr ⟨hnew, hdrop⟩⟩
      cases hnew' : newest key (compacted key drop log) k with
      | none => exact absurd hk (newest_eq_none.mp hnew' a hstays)
      | some b =>
        obtain ⟨hb, hbk⟩ := mem_of_newest hnew'
        cases hnew.symm.trans (hleft hb hbk).1
        rfl

theorem compacted_compacted (log : List α) :
    compacted key drop (compacted key drop log) = compacted key drop log := by
  refine List.filter_eq_self.mpr fun a ha => ?_
  have hstays := (List.mem_filter.mp ha).2
  cases hk : key a with
  | none => simp [stays, hk]
  | some k =>
    obtain ⟨hnew, hdrop⟩ := (stays_iff hk).mp hstays
    refine (stays_iff hk).mpr ⟨?_, hdrop⟩
    rw [newest_compacted, hnew, Option.filter_some, hdrop]
    rfl

/-- What a reader sees of the newest entries is unchanged, if it sees nothing of those that are
dropped. -/
theorem bind_newest_compacted {β : Type} {view : α → Option β}
    (hview : ∀ a, drop a = true → view a = none) (log later : List α) (k : κ) :
    (newest key (compacted key drop log ++ later) k).bind view =
      (newest key (log ++ later) k).bind view := by
  rw [newest_append, newest_append, newest_compacted]
  cases newest key later k with
  | some a => rfl
  | none =>
    cases hnew : newest key log k with
    | none => rfl
    | some a =>
      rw [Option.filter_some]
      cases hdrop : drop a with
      | false => rfl
      | true => exact (hview a hdrop).symm

/-- Of each key at most one entry stays. -/
theorem nodup_keys_compacted (hlog : log.Nodup) :
    ((compacted key drop log).filterMap key).Nodup := by
  have hnodup : (compacted key drop log).Pairwise (· ≠ ·) := hlog.filter _
  refine List.pairwise_filterMap.mpr (hnodup.imp_of_mem fun {a b} ha hb hne k hka k' hkb hkk => ?_)
  subst hkk
  have hanew := ((stays_iff hka).mp (List.mem_filter.mp ha).2).1
  have hbnew := ((stays_iff hkb).mp (List.mem_filter.mp hb).2).1
  exact hne (Option.some.inj (hanew.symm.trans hbnew))

theorem mem_keys_compacted (log : List α) (k : κ) :
    k ∈ (compacted key drop log).filterMap key ↔
      ∃ a, newest key log k = some a ∧ drop a = false := by
  rw [List.mem_filterMap]
  constructor
  · rintro ⟨a, ha, hka⟩
    exact ⟨a, (stays_iff hka).mp (List.mem_filter.mp ha).2⟩
  · rintro ⟨a, hnew, hdrop⟩
    obtain ⟨hmem, hk⟩ := mem_of_newest hnew
    exact ⟨a, List.mem_filter.mpr ⟨hmem, (stays_iff hk).mpr ⟨hnew, hdrop⟩⟩, hk⟩

end

end EventStream
