import EventStream.Raft.Log
import Mathlib.Data.List.Chain

/-! Logs whose entries are numbered from the base on.

A node numbers its entries itself, whatever the messages say, so that an operation that goes by
index, as the store's do, and one that goes by position, as the log's do, remove the same
entries.

The walk of `append_at` skips the entries that the log has and ends with the last of them, or at
the first that is absent or in conflict (`appendWalk_stops`). All that is said about the walk
elsewhere is read off from there. -/
namespace EventStream.Raft

variable {k : Nat}

theorem getElem?_of_isPrefix {α : Type} {m l : List α} {a : α} (h : m <+: l) (ha : m[k]? = some a) :
    l[k]? = some a := by
  obtain ⟨r, rfl⟩ := h
  rw [List.getElem?_append_left (List.getElem?_eq_some_iff.mp ha).1, ha]

/-- The entries are numbered from `b + 1`. -/
def Numbered (b : Nat) (es : List LogEntry) : Prop :=
  ∀ k e, es[k]? = some e → e.index = b + k + 1

variable {b : Nat} {e : LogEntry} {es : List LogEntry}

theorem Numbered.tail (h : Numbered b (e :: es)) : Numbered (b + 1) es := by
  intro k f hf
  rw [h (k + 1) f hf]
  omega

theorem Numbered.filter_lt (h : Numbered b es) (cut : Nat) :
    es.filter (fun e => e.index < cut) = es.take (cut - 1 - b) := by
  induction es generalizing b with
  | nil => simp
  | cons e es ih =>
    have he : e.index = b + 1 := h 0 e rfl
    rw [List.filter_cons, ih h.tail]
    by_cases hlt : b + 1 < cut
    · rw [if_pos (by simpa [he] using hlt), show cut - 1 - b = cut - 1 - (b + 1) + 1 by omega,
        List.take_succ_cons]
    · rw [if_neg (by simpa [he] using hlt), show cut - 1 - b = 0 by omega,
        show cut - 1 - (b + 1) = 0 by omega]
      rfl

theorem Numbered.filter_gt (h : Numbered b es) (cut : Nat) :
    es.filter (fun e => cut < e.index) = es.drop (cut - b) := by
  induction es generalizing b with
  | nil => simp
  | cons e es ih =>
    have he : e.index = b + 1 := h 0 e rfl
    rw [List.filter_cons, ih h.tail]
    by_cases hlt : cut < b + 1
    · rw [if_pos (by simpa [he] using hlt), show cut - b = 0 by omega,
        show cut - (b + 1) = 0 by omega]
      rfl
    · rw [if_neg (by simpa [he] using hlt), show cut - b = cut - (b + 1) + 1 by omega,
        List.drop_succ_cons]

def Log.Counted (log : Log) : Prop := Numbered log.baseIndex log.entries

namespace Log
variable {log log' : Log} {i start k committed index cut next idx : Nat}
    {new es out kept : List LogEntry}

section
variable (h : log.Counted)
include h

namespace Counted

theorem head_index {first : LogEntry} (hf : log.entries.head? = some first) :
    first.index = log.baseIndex + 1 := by
  rw [List.head?_eq_getElem?] at hf
  exact h 0 first hf

theorem lastIndex_eq : log.lastIndex = log.baseIndex + log.entries.length := by
  unfold lastIndex
  cases hlast : log.entries.getLast? with
  | none =>
    rw [List.getLast?_eq_none_iff.mp hlast]
    rfl
  | some e =>
    rw [List.getLast?_eq_getElem?] at hlast
    have hlt := (List.getElem?_eq_some_iff.mp hlast).1
    have he := h _ e hlast
    show e.index = _
    omega

theorem take (k : Nat) : Counted {log with entries := log.entries.take k} :=
  fun j e he => h j e (getElem?_of_isPrefix (List.take_prefix k _) he)

theorem concat (hes : Numbered log.lastIndex es) :
    Counted {log with entries := log.entries ++ es} := by
  rw [h.lastIndex_eq] at hes
  intro k e he
  by_cases hk : k < log.entries.length
  · exact h k e ((List.getElem?_append_left hk).symm.trans he)
  · rw [List.getElem?_append_right (by omega)] at he
    rw [hes _ e he]
    show _ = log.baseIndex + k + 1
    omega

/-- Numbered entries may come behind those that are kept. -/
theorem replace (hkept : kept <+: log.entries)
    (hnum : Numbered (log.baseIndex + kept.length) out) :
    Counted {log with entries := kept ++ out} := by
  have hcounted : Counted {log with entries := kept} := by
    have := h.take kept.length
    rwa [← List.prefix_iff_eq_take.mp hkept] at this
  exact hcounted.concat (hcounted.lastIndex_eq ▸ hnum)

end Counted

end

/-! ### Reading and cutting -/

theorem Counted.get_eq (h : log.Counted) (i : Nat) :
    log.get i = if i ≤ log.baseIndex then none else log.entries[i - log.baseIndex - 1]? := by
  unfold get
  cases hf : log.entries.head? with
  | none => simp [List.head?_eq_none_iff.mp hf]
  | some first =>
    have hfirst := h.head_index hf
    dsimp only
    by_cases hi : i ≤ log.baseIndex
    · rw [if_pos (by omega), if_pos hi]
    · rw [if_neg (by omega), if_neg hi, show i - first.index = i - log.baseIndex - 1 by omega]

theorem Counted.get_eq_none_iff (h : log.Counted) (hi : log.baseIndex < i) :
    log.get i = none ↔ log.lastIndex < i := by
  rw [h.get_eq, if_neg (Nat.not_le.mpr hi), h.lastIndex_eq, List.getElem?_eq_none_iff]
  omega

theorem termAt_eq (hi : log.baseIndex < i) : log.termAt i = (log.get i).map LogEntry.term := by
  unfold termAt
  rw [if_neg (by omega), if_neg (by omega), if_neg (by omega)]

theorem termAt_below {t : Nat} (hpos : 0 < index) (hlt : index < log.baseIndex) :
    log.termAt index ≠ some t := by
  unfold termAt
  rw [if_neg (by omega), if_neg (by omega), if_pos hlt]
  exact nofun

section
variable (h : log.Counted)
include h

/-- An index whose term is known is at most the last one. -/
theorem Counted.termAt_le {term : Nat} (ht : log.termAt index = some term) :
    index ≤ log.lastIndex := by
  by_contra hlt
  have hb : log.baseIndex < index := by
    rw [h.lastIndex_eq] at hlt
    omega
  rw [termAt_eq hb, (h.get_eq_none_iff hb).mpr (by omega)] at ht
  cases ht

/-- The log knows the term of every index it has. -/
theorem Counted.termAt_isSome (hbase : log.baseIndex ≤ index) (hlast : index ≤ log.lastIndex) :
    (log.termAt index).isSome := by
  rcases Nat.eq_or_lt_of_le hbase with rfl | hlt
  · unfold termAt
    split <;> simp
  · rw [termAt_eq hlt, Option.isSome_map, Option.isSome_iff_ne_none, Ne, h.get_eq_none_iff hlt]
    omega

/-- Cutting keeps the entries below the cut. -/
theorem Counted.truncateFrom_eq (hc : log.baseIndex < cut) :
    log.truncateFrom cut = {log with entries := log.entries.take (cut - 1 - log.baseIndex)} := by
  unfold truncateFrom
  rw [if_neg (by omega)]
  cases hf : log.entries.head? with
  | none =>
    rw [List.head?_eq_none_iff.mp hf, List.take_nil, ← List.head?_eq_none_iff.mp hf]
  | some first =>
    have hfirst := h.head_index hf
    dsimp only
    split
    · rw [show cut - 1 - log.baseIndex = 0 by omega, List.take_zero]
    · rw [show cut - first.index = cut - 1 - log.baseIndex by omega]

theorem Counted.compactThrough_entries (hc : log.baseIndex < cut) (hmax : cut < u64Max)
    (term : Nat) :
    (log.compactThrough cut term).entries = log.entries.drop (cut - log.baseIndex) := by
  unfold compactThrough
  rw [if_neg (by omega)]
  cases hf : log.entries.head? with
  | none =>
    rw [List.head?_eq_none_iff.mp hf, List.drop_nil]
    rfl
  | some first =>
    have hfirst := h.head_index hf
    dsimp only
    rw [satAdd_of_le (by omega), hfirst,
      show cut + 1 - (log.baseIndex + 1) = cut - log.baseIndex by omega]
    rcases Nat.le_total (cut - log.baseIndex) log.entries.length with hle | hle
    · rw [Nat.min_eq_left hle]
    · rw [Nat.min_eq_right hle, List.drop_length, List.drop_eq_nil_of_le hle]

end

theorem compactThrough_base (hc : log.baseIndex < cut) (term : Nat) :
    (log.compactThrough cut term).baseIndex = cut := by
  unfold compactThrough
  rw [if_neg (by omega)]

theorem Counted.compactThrough (h : log.Counted) (hc : log.baseIndex < cut) (hmax : cut < u64Max)
    (term : Nat) : (log.compactThrough cut term).Counted := by
  unfold Counted
  rw [compactThrough_base hc, h.compactThrough_entries hc hmax]
  intro k e he
  rw [List.getElem?_drop] at he
  rw [h _ e he]
  omega

/-- What is behind the kept entries is what a slice from there to the end takes. -/
theorem Counted.slice_eq (h : log.Counted) (hsplit : log.entries = kept ++ out) (hne : out ≠ [])
    (hmax : log.lastIndex < u64Max) :
    log.slice (log.baseIndex + kept.length + 1) u64Max = some out := by
  have hlen : log.entries.length = kept.length + out.length := by
    rw [hsplit, List.length_append]
  have hpos : 0 < out.length := List.length_pos_iff.mpr hne
  have hlast := h.lastIndex_eq
  unfold slice
  cases hf : log.entries.head? with
  | none =>
    rw [List.head?_eq_none_iff.mp hf, List.length_nil] at hlen
    omega
  | some first =>
    have hfirst := h.head_index hf
    have hadd : addU64 log.lastIndex 1 = some (log.lastIndex + 1) :=
      addU64_eq_some.mpr ⟨rfl, by omega⟩
    have hstart : max (log.baseIndex + kept.length + 1) first.index =
        log.baseIndex + kept.length + 1 := Nat.max_eq_left (by omega)
    have hstop : min u64Max (log.lastIndex + 1) = log.lastIndex + 1 := Nat.min_eq_right (by omega)
    simp only [hadd, Option.bind_eq_bind, Option.bind_some, hstart, hstop]
    rw [if_neg (by omega), if_neg (by omega), if_pos (by omega),
      List.take_of_length_le (by omega), hsplit,
      show log.baseIndex + kept.length + 1 - first.index = kept.length by omega, List.drop_left]

/-! ### The walk -/

/-- The log has an entry at `i` whose term is not the new entry's. -/
def ConflictAt (log : Log) (start : Nat) (new : List LogEntry) (i : Nat) : Prop :=
  log.baseIndex < i ∧ start ≤ i ∧
    ∃ old e, log.get i = some old ∧ new[i - start]? = some e ∧ old.term ≠ e.term

/-- The log has this entry, in memory or in its snapshot. -/
def Has (log : Log) (idx : Nat) (e : LogEntry) : Prop :=
  idx ≤ log.baseIndex ∨ log.termAt idx = some e.term

/-- The log has the first `k` of the entries. -/
def Skips (log : Log) (idx : Nat) (es : List LogEntry) (k : Nat) : Prop :=
  ∀ j e, j < k → es[j]? = some e → log.Has (idx + j) e

theorem Skips.cons {idx : Nat} {e : LogEntry} (he : log.Has idx e)
    (h : log.Skips (idx + 1) es k) : log.Skips idx (e :: es) (k + 1) := by
  intro j f hj hf
  cases j with
  | zero =>
    obtain rfl : e = f := Option.some.inj hf
    exact he
  | succ j =>
    have := h j f (by omega) hf
    rwa [Nat.add_assoc, Nat.add_comm 1] at this

/-- What the walk leaves of the log in front of an entry that is absent or in conflict. -/
def Cut (log : Log) (committed idx : Nat) (es : List LogEntry) (k : Nat) (cut : Log) : Prop :=
  log.get (idx + k) = none ∧ cut = log ∨
    log.ConflictAt idx es (idx + k) ∧ committed < idx + k ∧ cut = log.truncateFrom (idx + k)

/-- How the walk ends after the `k` entries that the log has: with the last of the new entries,
at one in conflict with what is committed, or at one from which on they are to be appended. -/
inductive Stops (log : Log) (committed idx : Nat) (es : List LogEntry) (k : Nat) :
    Log → Except Unit (List LogEntry) → Prop where
  | all (hk : k = es.length) : Stops log committed idx es k log (.ok [])
  | refused (hk : log.ConflictAt idx es (idx + k)) (hc : idx + k ≤ committed) :
    Stops log committed idx es k log (.error ())
  | cut {cut : Log} (hk : k < es.length) (hb : log.baseIndex < idx + k)
    (hcut : log.Cut committed idx es k cut) : Stops log committed idx es k cut (.ok (es.drop k))

theorem ConflictAt.cons {idx : Nat} {e : LogEntry} (h : log.ConflictAt (idx + 1) es i) :
    log.ConflictAt idx (e :: es) i := by
  obtain ⟨hb, hle, old, f, hold, hf, hne⟩ := h
  refine ⟨hb, by omega, old, f, hold, ?_, hne⟩
  rwa [show i - idx = i - (idx + 1) + 1 by omega, List.getElem?_cons_succ]

theorem Stops.cons {idx : Nat} {e : LogEntry} {r : Except Unit (List LogEntry)}
    (h : Stops log committed (idx + 1) es k log' r) :
    Stops log committed idx (e :: es) (k + 1) log' r := by
  have hidx : idx + 1 + k = idx + (k + 1) := by omega
  cases h with
  | all hk => exact .all (by simp [hk])
  | refused hk hc =>
    rw [hidx] at hk hc
    exact .refused hk.cons hc
  | cut hk hb hcut =>
    unfold Cut at hcut
    rw [hidx] at hb hcut
    exact .cut (by simpa using hk) hb (hcut.imp_right fun ⟨hconflict, hrest⟩ =>
      ⟨hconflict.cons, hrest⟩)

theorem appendWalk_stops {r : Except Unit (List LogEntry)}
    (h : log.appendWalk committed idx es = some (log', r)) :
    ∃ k, log.Skips idx es k ∧ Stops log committed idx es k log' r := by
  induction es generalizing idx with
  | nil =>
    cases h
    exact ⟨0, nofun, .all rfl⟩
  | cons e es ih =>
    -- the entry is there: go on with the next
    have hnext (he : log.Has idx e)
        (hr : ((addU64 idx 1).bind fun next => log.appendWalk committed next es) =
          some (log', r)) :
        ∃ k, log.Skips idx (e :: es) k ∧ Stops log committed idx (e :: es) k log' r := by
      obtain ⟨next, ha, hr⟩ := Option.bind_eq_some_iff.mp hr
      obtain ⟨rfl, -⟩ := addU64_eq_some.mp ha
      obtain ⟨k, hskips, hstops⟩ := ih hr
      exact ⟨k + 1, hskips.cons he, hstops.cons⟩
    unfold appendWalk at h
    split at h
    · rename_i hle
      exact hnext (.inl hle) h
    rename_i hb
    have hb := Nat.not_le.mp hb
    cases hget : log.get idx with
    | none =>
      simp only [termAt_eq hb, hget, Option.map_none] at h
      cases h
      exact ⟨0, nofun, .cut (by simp) hb (.inl ⟨hget, rfl⟩)⟩
    | some old =>
      simp only [termAt_eq hb, hget, Option.map_some] at h
      split at h
      · rename_i hterm
        exact hnext (.inr (by rw [termAt_eq hb, hget, ← hterm]; rfl)) h
      rename_i hterm
      have hconflict : log.ConflictAt idx (e :: es) (idx + 0) :=
        ⟨hb, Nat.le_refl idx, old, e, hget, by simp, hterm⟩
      refine ⟨0, nofun, ?_⟩
      split at h
      · rename_i hle
        cases h
        exact .refused hconflict hle
      · rename_i hlt
        cases h
        exact .cut (by simp) hb (.inr ⟨hconflict, Nat.not_le.mp hlt, rfl⟩)

/-- What `append_at` does with entries of which the log has the first `k`. -/
inductive Appends (log : Log) (committed start : Nat) (es : List LogEntry) (k : Nat) :
    Log → Except Unit (Option Nat) → Prop where
  | all (hk : k = es.length) : Appends log committed start es k log (.ok none)
  | refused (hk : log.ConflictAt start es (start + k)) (hc : start + k ≤ committed) :
    Appends log committed start es k log (.error ())
  | changed {cut : Log} {out : List LogEntry} (hk : k < es.length)
    (hb : log.baseIndex < start + k) (hcut : log.Cut committed start es k cut)
    (hout : renumber (cut.lastIndex + 1) (es.drop k) = some out) :
    Appends log committed start es k {cut with entries := cut.entries ++ out}
      (.ok (some (cut.lastIndex + 1)))

theorem appendAt_appends {r : Except Unit (Option Nat)}
    (h : log.appendAt start es committed = some (log', r)) :
    ∃ k, log.Skips start es k ∧ Appends log committed start es k log' r := by
  obtain ⟨⟨cut, walked⟩, hwalk, h⟩ := Option.bind_eq_some_iff.mp h
  obtain ⟨k, hskips, hstops⟩ := appendWalk_stops hwalk
  refine ⟨k, hskips, ?_⟩
  cases hstops with
  | all hk =>
    cases h
    exact .all hk
  | refused hk hc =>
    cases h
    exact .refused hk hc
  | cut hk hb hcut =>
    obtain ⟨e, rest, hdrop⟩ : ∃ e rest, es.drop k = e :: rest :=
      ⟨_, _, List.drop_eq_getElem_cons hk⟩
    rw [hdrop] at h
    obtain ⟨first, hfirst, h⟩ := Option.bind_eq_some_iff.mp h
    obtain ⟨rfl, -⟩ := addU64_eq_some.mp hfirst
    obtain ⟨out, hout, h⟩ := Option.bind_eq_some_iff.mp h
    cases h
    exact .changed hk hb hcut (hdrop ▸ hout)

/-- Where the log has the new entries, nothing conflicts. -/
theorem Skips.no_conflict (h : log.Skips start new k) (hi : i < start + k) :
    ¬ log.ConflictAt start new i := by
  rintro ⟨hb, hle, old, e, hold, he, hne⟩
  rcases h (i - start) e (by omega) he with hfold | hterm
  · omega
  · rw [Nat.add_sub_cancel' hle, termAt_eq hb, hold] at hterm
    exact hne (Option.some.inj hterm)

/-- The log reaches up to the entries that it has. -/
theorem Skips.le_lastIndex (h : log.Skips start new k) (hlog : log.Counted)
    (hstart : start ≤ log.lastIndex + 1) (hk : k ≤ new.length) : start + k ≤ log.lastIndex + 1 := by
  cases k with
  | zero => exact hstart
  | succ k =>
    have hlast := hlog.lastIndex_eq
    rcases h k new[k] (by omega) (List.getElem?_eq_getElem hk) with hfold | hterm
    · omega
    · by_cases hb : log.baseIndex < start + k
      · have hsome : log.get (start + k) ≠ none := by
          intro hnone
          rw [termAt_eq hb, hnone] at hterm
          cases hterm
        rw [Ne, hlog.get_eq_none_iff hb] at hsome
        omega
      · omega

/-! ### Numbering -/

theorem getElem?_renumber (h : renumber next es = some out) (j : Nat) :
    out[j]? = es[j]?.map ({ · with index := next + j }) := by
  induction es generalizing next out j with
  | nil => simp [← Option.some.inj h]
  | cons e es ih =>
    obtain ⟨after, ha, h⟩ := Option.bind_eq_some_iff.mp h
    obtain ⟨rest, hrest, rfl⟩ := Option.map_eq_some_iff.mp h
    obtain ⟨rfl, -⟩ := addU64_eq_some.mp ha
    cases j with
    | zero => rfl
    | succ j => simp [ih hrest, Nat.add_assoc, Nat.add_comm 1]

/-- Entries that carry the right numbers are not changed by numbering them. -/
theorem renumber_eq (hi : ∀ k e, es[k]? = some e → e.index = next + k)
    (hr : renumber next es = some out) : out = es := by
  refine List.ext_getElem? fun j => ?_
  rw [getElem?_renumber hr]
  cases he : es[j]? with
  | none => rfl
  | some e => simp [← hi j e he]

theorem renumber_numbered (hr : renumber (next + 1) es = some out) :
    Numbered next out ∧ out.length = es.length := by
  refine ⟨fun j e he => ?_, ?_⟩
  · rw [getElem?_renumber hr] at he
    obtain ⟨f, -, rfl⟩ := Option.map_eq_some_iff.mp he
    exact Nat.add_right_comm next 1 j
  · refine Nat.le_antisymm ?_ ?_
    · rw [← List.getElem?_eq_none_iff, getElem?_renumber hr, List.getElem?_eq_none (Nat.le_refl _)]
      rfl
    · rw [← List.getElem?_eq_none_iff]
      simpa using (getElem?_renumber hr out.length).symm

/-! ### Appending -/

/-- What the walk leaves is the log up to some entry. -/
theorem Cut.eq_take {cut : Log} (hcut : log.Cut committed start es k cut) (h : log.Counted) :
    ∃ n, cut = {log with entries := log.entries.take n} := by
  rcases hcut with ⟨-, rfl⟩ | ⟨hconflict, -, rfl⟩
  · exact ⟨_, by rw [List.take_length]⟩
  · exact ⟨_, h.truncateFrom_eq hconflict.1⟩

/-- Up to the entry where the walk stopped, if the new entries do not begin behind the log. -/
theorem Cut.eq_take_at {cut : Log} (hcut : log.Cut committed start es k cut) (h : log.Counted)
    (hb : log.baseIndex < start + k) (hle : start + k ≤ log.lastIndex + 1) :
    cut = {log with entries := log.entries.take (start + k - 1 - log.baseIndex)} ∧
      cut.lastIndex + 1 = start + k := by
  have hlast := h.lastIndex_eq
  have heq : cut = {log with entries := log.entries.take (start + k - 1 - log.baseIndex)} := by
    rcases hcut with ⟨hnone, rfl⟩ | ⟨-, -, rfl⟩
    · have := (h.get_eq_none_iff hb).mp hnone
      rw [List.take_of_length_le (by omega)]
    · exact h.truncateFrom_eq hb
  have hcutLast := (h.take (start + k - 1 - log.baseIndex)).lastIndex_eq
  dsimp only at hcutLast
  rw [List.length_take] at hcutLast
  exact ⟨heq, by rw [heq]; omega⟩

theorem appendWalk_returns (log : Log) (committed : Nat) {idx : Nat}
    (h : idx + es.length ≤ u64Max) : ∃ r, log.appendWalk committed idx es = some r := by
  induction es generalizing idx with
  | nil => exact ⟨_, rfl⟩
  | cons e es ih =>
    rw [List.length_cons] at h
    have hnext : ∃ r, (addU64 idx 1).bind (fun next => log.appendWalk committed next es) =
        some r := by
      rw [addU64_eq_some.mpr ⟨rfl, by omega⟩, Option.bind_some]
      exact ih (by omega)
    unfold appendWalk
    split
    · exact hnext
    · split
      · split
        · exact hnext
        · split <;> exact ⟨_, rfl⟩
      · exact ⟨_, rfl⟩

theorem renumber_returns {next : Nat} (h : next + es.length ≤ u64Max) :
    ∃ out, renumber next es = some out := by
  induction es generalizing next with
  | nil => exact ⟨_, rfl⟩
  | cons e es ih =>
    rw [List.length_cons] at h
    obtain ⟨out, hout⟩ : ∃ out, renumber (next + 1) es = some out := ih (by omega)
    rw [renumber, addU64_eq_some.mpr ⟨rfl, by omega⟩, Option.bind_some, hout]
    exact ⟨_, rfl⟩

/-- No index overflows as long as what the walk leaves of the log has room for the rest of the new
entries. -/
theorem appendAt_returns_of_cut (committed : Nat) (hstart : start + es.length ≤ u64Max)
    (hroom : ∀ k cut, log.Skips start es k → k < es.length → log.baseIndex < start + k →
      log.Cut committed start es k cut → cut.lastIndex + 1 + (es.length - k) ≤ u64Max) :
    ∃ r, log.appendAt start es committed = some r := by
  obtain ⟨⟨cut, walked⟩, hr⟩ := log.appendWalk_returns committed hstart
  unfold appendAt
  rw [hr, Option.bind_eq_bind, Option.bind_some]
  obtain ⟨k, hskips, hstops⟩ := appendWalk_stops hr
  cases hstops with
  | all => exact ⟨_, rfl⟩
  | refused => exact ⟨_, rfl⟩
  | cut hk hb hcut =>
    have hroom := hroom k cut hskips hk hb hcut
    obtain ⟨out, hout⟩ : ∃ out, renumber (cut.lastIndex + 1) (es.drop k) = some out :=
      renumber_returns (by rw [List.length_drop]; omega)
    obtain ⟨e, rest, hdrop⟩ : ∃ e rest, es.drop k = e :: rest :=
      ⟨_, _, List.drop_eq_getElem_cons hk⟩
    rw [hdrop] at hout ⊢
    dsimp only
    rw [addU64_eq_some.mpr ⟨rfl, by omega⟩, Option.bind_eq_bind, Option.bind_some, hout]
    exact ⟨_, rfl⟩

theorem Counted.appendAt_returns (h : log.Counted) (committed : Nat)
    (hstart : start + es.length ≤ u64Max) (hlast : log.lastIndex + es.length + 1 ≤ u64Max) :
    ∃ r, log.appendAt start es committed = some r := by
  refine appendAt_returns_of_cut committed hstart fun k cut _ _ _ hcut => ?_
  obtain ⟨n, rfl⟩ := hcut.eq_take h
  have hbefore := h.lastIndex_eq
  have hcut := (h.take n).lastIndex_eq
  dsimp only at hcut
  rw [List.length_take] at hcut
  omega

/-- `appendAt` keeps some of the entries and puts numbered ones behind them. -/
theorem Counted.appendAt_eq (h : log.Counted) {first : Nat}
    (ha : log.appendAt start es committed = some (log', .ok (some first))) :
    ∃ kept out, kept <+: log.entries ∧ first = log.baseIndex + kept.length + 1 ∧
      Numbered (log.baseIndex + kept.length) out ∧ out ≠ [] ∧ out.length ≤ es.length ∧
      log' = {log with entries := kept ++ out} := by
  obtain ⟨k, -, happends⟩ := appendAt_appends ha
  cases happends with
  | changed hk hb hcut hout =>
    obtain ⟨n, rfl⟩ := hcut.eq_take h
    obtain ⟨hnum, hlen⟩ := renumber_numbered hout
    have hlast := (h.take n).lastIndex_eq
    rw [List.length_drop] at hlen
    refine ⟨log.entries.take n, _, List.take_prefix _ _, by rw [hlast], hlast ▸ hnum, ?_,
      by omega, rfl⟩
    rintro rfl
    rw [List.length_nil] at hlen
    omega

/-- `appendAt` that changes nothing, or fails, leaves the log as it was. -/
theorem appendAt_same {r : Except Unit (Option Nat)}
    (ha : log.appendAt start es committed = some (log', r)) (hr : ∀ first, r ≠ .ok (some first)) :
    log' = log := by
  obtain ⟨k, -, happends⟩ := appendAt_appends ha
  cases happends with
  | all => rfl
  | refused => rfl
  | changed => exact absurd rfl (hr _)

end Log

/-! ### What a store gives back -/

/-- `load` refuses a log whose entries are not numbered in a row. -/
def contiguous : List LogEntry → Bool
  | a :: b :: rest => b.index == a.index + 1 && contiguous (b :: rest)
  | _ => true

theorem contiguous_iff : contiguous es ↔ es.IsChain fun a b => b.index = a.index + 1 := by
  induction es with
  | nil => simp [contiguous]
  | cons a es ih =>
    cases es with
    | nil => simp [contiguous]
    | cons b es => rw [contiguous, Bool.and_eq_true, beq_iff_eq, ih, List.isChain_cons_cons]

theorem contiguous_index (h : contiguous (e :: es)) {x : LogEntry} (hx : (e :: es)[k]? = some x) :
    x.index = e.index + k := by
  induction es generalizing e k with
  | nil =>
    cases k with
    | zero =>
      cases hx
      rfl
    | succ k => cases hx
  | cons e' es ih =>
    rw [contiguous, Bool.and_eq_true, beq_iff_eq] at h
    cases k with
    | zero =>
      cases hx
      rfl
    | succ k =>
      rw [ih h.2 hx, h.1]
      omega

theorem contiguous_numbered (h : contiguous es)
    (hstart : ∀ first, es.head? = some first → first.index = b + 1) : Numbered b es := by
  cases es with
  | nil => nofun
  | cons e es =>
    intro k x hx
    rw [contiguous_index h hx, hstart e rfl]
    omega

/-- Removing by index what a snapshot covers removes by position as many entries. -/
theorem contiguous_filter_gt (h : contiguous (e :: es)) (cut : Nat) :
    (e :: es).filter (fun x => cut < x.index) = (e :: es).drop (cut + 1 - e.index) := by
  cases hz : e.index with
  | zero =>
    have htail : Numbered 0 es := by
      intro k x hx
      have := contiguous_index h (k := k + 1) hx
      omega
    rw [List.filter_cons_of_neg (by simp [hz]), Numbered.filter_gt htail, Nat.sub_zero,
      Nat.sub_zero, List.drop_succ_cons]
  | succ b =>
    have hall : Numbered b (e :: es) := by
      refine contiguous_numbered h fun first hf => ?_
      cases hf
      exact hz
    rw [Numbered.filter_gt hall, Nat.add_sub_add_right]

end EventStream.Raft
