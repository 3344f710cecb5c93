import EventStream.Raft.Counted

/-! What a log is after a leader's entries were merged into it (`Log::append_at` in
`raft/log.rs`).

The walk over the new entries skips those the log has. It ends at the first that is absent or in
conflict, and from there on the log is the new entries: `splice` says so once for both cases, by
what `get` answers at every index. -/
namespace EventStream.Raft.Log

def FirstConflict (log : Log) (start : Nat) (new : List LogEntry) (c : Nat) : Prop :=
  log.ConflictAt start new c ∧ ∀ i < c, ¬ log.ConflictAt start new i

/-- The new entry for an index, numbered so. -/
def incoming (start : Nat) (new : List LogEntry) (i : Nat) : Option LogEntry :=
  if start ≤ i then new[i - start]?.map ({ · with index := i }) else none

/-- `log'` is `log` with the new entries merged into it, and `changed` says from where on. -/
structure Merged (log log' : Log) (start : Nat) (new : List LogEntry) (changed : Option Nat) :
    Prop where
  contiguous : log'.Counted
  base : log'.baseIndex = log.baseIndex ∧ log'.baseTerm = log.baseTerm
  entries : (∃ c, log.FirstConflict start new c ∧ ∀ i, log.baseIndex < i →
      log'.get i = if i < c then log.get i else incoming start new i) ∨
    (∀ i, ¬ log.ConflictAt start new i) ∧ ∀ i, log.baseIndex < i →
      log'.get i = (log.get i).or (incoming start new i)
  unchanged : changed = none ↔ log' = log
  first : ∀ c, changed = some c → log'.get c ≠ log.get c ∧ ∀ i < c, log'.get i = log.get i

section
variable {log log' : Log} {i start k committed : Nat} {new es out : List LogEntry}

/-! ### The merged log -/

section
variable (hlog : log.Counted)
include hlog

/-- The log up to an index, and the new entries from there on. -/
theorem splice (hb : log.baseIndex < start + k) (hlast : start + k ≤ log.lastIndex + 1)
    (hout : renumber (start + k) (new.drop k) = some out) (hlog' : log' = { log with
      entries := log.entries.take (start + k - 1 - log.baseIndex) ++ out }) :
    log'.Counted ∧ ∀ i, log.baseIndex < i →
      log'.get i = if i < start + k then log.get i else incoming start new i := by
  subst hlog'
  have hlen : (log.entries.take (start + k - 1 - log.baseIndex)).length =
      start + k - 1 - log.baseIndex := by
    rw [hlog.lastIndex_eq] at hlast
    rw [List.length_take, Nat.min_eq_left (by omega)]
  have hget : ∀ j, (log.entries.take (start + k - 1 - log.baseIndex) ++ out)[j]? =
      if log.baseIndex + 1 + j < start + k then log.entries[j]?
      else incoming start new (log.baseIndex + 1 + j) := by
    intro j
    split
    · rename_i hj
      rw [List.getElem?_append_left (by omega), List.getElem?_take_of_lt (by omega)]
    · rename_i hj
      rw [List.getElem?_append_right (by omega), hlen, getElem?_renumber hout, List.getElem?_drop,
        incoming, if_pos (by omega)]
      congr 2
      · funext e
        congr 1
        omega
      · omega
  have hcontiguous : Counted { log with
      entries := log.entries.take (start + k - 1 - log.baseIndex) ++ out } := by
    intro j e he
    rw [hget] at he
    split at he
    · exact hlog j e he
    · rw [incoming, if_pos (by omega)] at he
      obtain ⟨f, -, rfl⟩ := Option.map_eq_some_iff.mp he
      show log.baseIndex + 1 + j = log.baseIndex + j + 1
      omega
  refine ⟨hcontiguous, fun i hi => ?_⟩
  rw [hcontiguous.get_eq, hlog.get_eq, if_neg (Nat.not_le.mpr hi), if_neg (Nat.not_le.mpr hi), hget,
    show log.baseIndex + 1 + (i - log.baseIndex - 1) = i by omega]

/-- What was spliced in at an index that the log does not have, or has otherwise, is a change
there. -/
theorem changed_at (hcontiguous : log'.Counted) (hbase : log'.baseIndex = log.baseIndex)
    (hk : k < new.length) (hb : log.baseIndex < start + k) (hget : ∀ i, log.baseIndex < i →
      log'.get i = if i < start + k then log.get i else incoming start new i)
    (hne : ∀ old, log.get (start + k) = some old → old.term ≠ new[k].term) :
    log'.get (start + k) ≠ log.get (start + k) ∧ ∀ i < start + k, log'.get i = log.get i := by
  have hnew : log'.get (start + k) = some { new[k] with index := start + k } := by
    rw [hget _ hb, if_neg (Nat.lt_irrefl _), incoming, if_pos (Nat.le_add_right ..),
      Nat.add_sub_cancel_left, List.getElem?_eq_getElem hk]
    rfl
  refine ⟨fun heq => hne _ (heq.symm.trans hnew) rfl, fun i hi => ?_⟩
  by_cases hib : log.baseIndex < i
  · rw [hget i hib, if_pos hi]
  · have hle := Nat.not_lt.mp hib
    rw [hcontiguous.get_eq, hlog.get_eq, hbase, if_pos hle, if_pos hle]

/-- A splice is a merge, with the change where it begins. -/
theorem merged_of_splice (hskips : log.Skips start new k) (hk : k < new.length)
    (hb : log.baseIndex < start + k) (hlast : start + k ≤ log.lastIndex + 1)
    (hstop : log.get (start + k) = none ∨ log.ConflictAt start new (start + k))
    (hout : renumber (start + k) (new.drop k) = some out) (hlog' : log' = { log with
      entries := log.entries.take (start + k - 1 - log.baseIndex) ++ out }) :
    Merged log log' start new (some (start + k)) := by
  obtain ⟨hcontiguous, hget⟩ := splice hlog hb hlast hout hlog'
  have hbase : log'.baseIndex = log.baseIndex ∧ log'.baseTerm = log.baseTerm := by
    subst hlog'
    exact ⟨rfl, rfl⟩
  have hchanged := changed_at hlog hcontiguous hbase.1 hk hb hget (by
    intro old hold
    rcases hstop with hnone | ⟨-, -, old', e, hold', he, hne⟩
    · rw [hnone] at hold
      cases hold
    · rw [hold] at hold'
      rw [Nat.add_sub_cancel_left, List.getElem?_eq_getElem hk] at he
      obtain rfl := Option.some.inj hold'
      obtain rfl := Option.some.inj he
      exact hne)
  refine ⟨hcontiguous, hbase, ?_, ⟨nofun, fun heq => absurd (heq ▸ rfl) hchanged.1⟩, ?_⟩
  · rcases hstop with hnone | hconflict
    · have hend := (hlog.get_eq_none_iff hb).mp hnone
      refine .inr ⟨fun i hc => ?_, fun i hi => ?_⟩
      · by_cases hi : i < start + k
        · exact hskips.no_conflict hi hc
        · obtain ⟨hb', -, old, -, hold, -⟩ := hc
          rw [(hlog.get_eq_none_iff hb').mpr (by omega)] at hold
          cases hold
      · rw [hget i hi]
        split
        · have hsome : log.get i ≠ none := by
            rw [Ne, hlog.get_eq_none_iff hi]
            omega
          obtain ⟨old, hold⟩ := Option.ne_none_iff_exists'.mp hsome
          rw [hold, Option.some_or]
        · rw [(hlog.get_eq_none_iff hi).mpr (by omega), Option.none_or]
    · exact .inl ⟨start + k, ⟨hconflict, fun i hi => hskips.no_conflict hi⟩, hget⟩
  · rintro c ⟨⟩
    exact hchanged

/-- A log that has all the new entries is merged with them as it is. -/
theorem merged_self (hskips : log.Skips start new k) (hk : k = new.length) :
    Merged log log start new none := by
  have hnew : ∀ i, log.baseIndex < i → start + k ≤ i → incoming start new i = none := by
    intro i _ hi
    rw [incoming, if_pos (by omega), List.getElem?_eq_none (by omega)]
    rfl
  refine ⟨hlog, ⟨rfl, rfl⟩, .inr ⟨fun i hc => ?_, fun i hi => ?_⟩, iff_of_true rfl rfl, nofun⟩
  · obtain ⟨-, hle, -, e, -, he, -⟩ := id hc
    have := (List.getElem?_eq_some_iff.mp he).1
    exact hskips.no_conflict (by omega) hc
  · cases hget : log.get i with
    | some old => rfl
    | none =>
      rw [Option.none_or, incoming]
      split
      · rename_i hle
        cases he : new[i - start]? with
        | none => rfl
        | some e =>
          have := (List.getElem?_eq_some_iff.mp he).1
          rcases hskips (i - start) e (by omega) he with hfold | hterm
          · omega
          · rw [Nat.add_sub_cancel' hle, termAt_eq hi, hget] at hterm
            cases hterm
      · rfl

end

/-- **The merge law.** For every contiguous log and every start up to its end: a call that
succeeds leaves the log merged with the new entries and answers where it changed first; one that
fails leaves the log as it was, and its first conflict is committed. As long as the indices stay
below the end of a `u64` every call succeeds or fails. -/
theorem append_at_merges (hlog : log.Counted) (hstart : start ≤ log.lastIndex + 1) :
    (∀ r, log.appendAt start new committed = some (log', r) →
      match r with
      | .ok changed => Merged log log' start new changed
      | .error () => log' = log ∧ ∃ c ≤ committed, log.FirstConflict start new c) ∧
    (log.lastIndex + new.length < u64Max → (log.appendAt start new committed).isSome) := by
  refine ⟨fun r h => ?_, fun hroom => ?_⟩
  · obtain ⟨k, hskips, happends⟩ := appendAt_appends h
    cases happends with
    | all hk => exact merged_self hlog hskips hk
    | refused hk hc => exact ⟨rfl, start + k, hc, hk, fun i hi => hskips.no_conflict hi⟩
    | changed hk hb hcut hout =>
      have hlast := hskips.le_lastIndex hlog hstart (Nat.le_of_lt hk)
      obtain ⟨rfl, hfirst⟩ := hcut.eq_take_at hlog hb hlast
      dsimp only
      rw [hfirst] at hout ⊢
      exact merged_of_splice hlog hskips hk hb hlast (hcut.imp And.left And.left) hout rfl
  · rw [Option.isSome_iff_exists]
    exact hlog.appendAt_returns committed (by omega) (by omega)

end

/-- Three entries of term 1. -/
def threeEntries : Log := { entries := [⟨1, 1, [1]⟩, ⟨1, 2, [2]⟩, ⟨1, 3, [3]⟩] }

theorem append_at_merges_conflict :
    Merged threeEntries { entries := [⟨1, 1, [1]⟩, ⟨2, 2, [9]⟩] } 2 [⟨2, 0, [9]⟩] (some 2) := by
  have hlog : threeEntries.Counted := by
    intro k e he
    rcases k with _ | _ | _ | k
    · cases he
      rfl
    · cases he
      rfl
    · cases he
      rfl
    · cases he
  have hcall : threeEntries.appendAt 2 [⟨2, 0, [9]⟩] 1 =
      some ({ entries := [⟨1, 1, [1]⟩, ⟨2, 2, [9]⟩] }, .ok (some 2)) := by decide
  exact (append_at_merges hlog (by decide)).1 _ hcall

end EventStream.Raft.Log
