import EventStream.Consensus.Agreement
import EventStream.Raft.Counted

/-! What the log's operations do to the sequence of entries the log stands for.

A log holds the tail of a sequence `l`; the snapshot stands for the head, `folded`.
Every operation is described once, by what it does to `folded` and `l`, and nothing
outside this file looks at positions in `entries`. -/
namespace EventStream.Raft

/-- The term of the last entry. -/
abbrev lastTermOf (l : List LogEntry) : Nat := Consensus.lastTerm LogEntry.term l

/-- `folded` and the log's entries together are `l`, numbered from one. -/
structure Log.Holds (log : Log) (folded l : List LogEntry) : Prop where
  full : l = folded ++ log.entries
  base : log.baseIndex = folded.length
  baseTerm : log.baseTerm = lastTermOf folded
  index : ∀ k e, l[k]? = some e → e.index = k + 1
  small : l.length < u64Max

namespace Log
variable {log : Log} {folded l es g m : List LogEntry} {k idx p cut committed : Nat}
    {e : LogEntry}

theorem Holds.empty : Holds {} [] [] := ⟨rfl, rfl, rfl, by simp, by decide⟩

section
variable (h : log.Holds folded l)
include h

namespace Holds

theorem base_le : log.baseIndex ≤ l.length := by
  rw [h.full, h.base, List.length_append]
  omega

theorem folded_isPrefix : folded <+: l :=
  h.full ▸ List.prefix_append _ _

theorem take_base : l.take log.baseIndex = folded := by
  rw [h.full, h.base, List.take_left]

theorem entries_eq : log.entries = l.drop log.baseIndex := by
  rw [h.full, h.base, List.drop_left]

/-- The entry at position `k` in memory is the one at `base + k` of the sequence. -/
theorem entry (k : Nat) : log.entries[k]? = l[log.baseIndex + k]? := by
  rw [h.full, h.base, List.getElem?_append_right (Nat.le_add_right _ _), Nat.add_sub_cancel_left]

theorem counted : log.Counted := by
  intro k e he
  rw [h.entry] at he
  exact h.index _ e he

/-- The log has entries exactly when the sequence reaches past the base. -/
theorem head_none (hn : log.entries.head? = none) : l.length = log.baseIndex := by
  rw [h.full, List.head?_eq_none_iff.mp hn, h.base, List.append_nil]

theorem length_entries : log.entries.length = l.length - log.baseIndex := by
  rw [h.entries_eq, List.length_drop]

end Holds

end

/-- The term of the last entry of a nonempty head. -/
theorem lastTermOf_take (he : l[k]? = some e) : lastTermOf (l.take (k + 1)) = e.term := by
  rw [List.take_add_one, he]
  exact Consensus.lastTerm_concat _ _

/-! ### Reading -/

section
variable (h : log.Holds folded l)
include h

namespace Holds

theorem lastIndex_eq : log.lastIndex = l.length := by
  rw [h.counted.lastIndex_eq, h.length_entries, Nat.add_sub_cancel' h.base_le]

theorem lastTerm_eq : log.lastTerm = lastTermOf l := by
  unfold lastTerm
  rw [h.full, lastTermOf, Consensus.lastTerm]
  cases hg : log.entries.getLast? with
  | none =>
    rw [List.getLast?_eq_none_iff.mp hg, List.append_nil]
    exact h.baseTerm
  | some e =>
    rw [List.getLast?_append, hg]
    rfl

theorem get_eq (hi : log.baseIndex < idx) : log.get idx = l[idx - 1]? := by
  rw [h.counted.get_eq, if_neg (Nat.not_le.mpr hi), h.entry]
  congr 1
  omega

/-- At or past the base, the term is that of the sequence's entry. -/
theorem termAt_eq (h0 : 0 < idx) (hi : log.baseIndex ≤ idx) :
    log.termAt idx = (l[idx - 1]?).map LogEntry.term := by
  unfold termAt
  rw [if_neg (by omega)]
  by_cases hb : idx = log.baseIndex
  · subst hb
    have hlt : log.baseIndex - 1 < l.length := by
      have := h.base_le
      omega
    have hlast := lastTermOf_take (List.getElem?_eq_getElem hlt)
    rw [Nat.sub_add_cancel h0, h.take_base] at hlast
    rw [if_pos rfl, h.baseTerm, hlast, List.getElem?_eq_getElem hlt]
    rfl
  · rw [if_neg hb, if_neg (by omega), h.get_eq (by omega)]

theorem termAt_some {t : Nat} (h0 : 0 < idx) (ht : log.termAt idx = some t) :
    log.baseIndex ≤ idx ∧ ∃ e, l[idx - 1]? = some e ∧ e.term = t := by
  have hi : log.baseIndex ≤ idx :=
    Nat.le_of_not_lt fun hlt => termAt_below h0 hlt ht
  rw [h.termAt_eq h0 hi, Option.map_eq_some_iff] at ht
  exact ⟨hi, ht⟩

theorem slice_eq {first : Nat} (hb : log.baseIndex < first) (hl : first ≤ l.length) :
    log.slice first u64Max = some (l.drop (first - 1)) := by
  have hlen := h.length_entries
  have hsplit := (List.take_append_drop (first - 1 - log.baseIndex) log.entries).symm
  have hslice := h.counted.slice_eq hsplit (List.drop_eq_nil_iff.not.mpr (by omega))
    (h.lastIndex_eq ▸ h.small)
  rwa [List.length_take, Nat.min_eq_left (by omega), h.entries_eq, List.drop_drop,
    Nat.add_sub_cancel' (by omega), Nat.sub_add_cancel (by omega)] at hslice

end Holds

end

theorem takeBounded_isPrefix (a b : Nat) (rest out : List LogEntry) (bytes : Nat) :
    out <+: takeBounded a b out bytes rest ∧ takeBounded a b out bytes rest <+: out ++ rest := by
  induction rest generalizing out bytes with
  | nil => exact ⟨List.prefix_rfl, by rw [List.append_nil]; exact List.prefix_rfl⟩
  | cons e rest ih =>
    unfold takeBounded
    split
    · exact ⟨List.prefix_rfl, List.prefix_append _ _⟩
    · obtain ⟨hout, hrest⟩ := ih (out ++ [e]) (bytes + e.payload.length)
      rw [List.append_assoc] at hrest
      exact ⟨(List.prefix_append _ _).trans hout, hrest⟩

/-- What a bounded slice takes is a run of entries from `start` on. -/
theorem Holds.sliceBounded_eq (h : log.Holds folded l) {start : Nat} (a b : Nat)
    (hb : log.baseIndex < start) :
    ∃ es, log.sliceBounded start a b = some es ∧ es <+: l.drop (start - 1) := by
  unfold sliceBounded
  cases hf : log.entries.head? with
  | none => exact ⟨[], rfl, List.nil_prefix⟩
  | some e =>
    have he := h.counted.head_index hf
    have hlen := h.length_entries
    have hmax : max start e.index = start := Nat.max_eq_left (by omega)
    simp only [hmax, h.lastIndex_eq]
    rw [if_neg (by omega)]
    by_cases hlast : l.length < start
    · exact ⟨[], if_pos hlast, List.nil_prefix⟩
    · rw [if_neg hlast, if_pos (by omega)]
      refine ⟨_, rfl, ?_⟩
      have hdrop : log.entries.drop (start - e.index) = l.drop (start - 1) := by
        rw [h.entries_eq, List.drop_drop]
        congr 1
        omega
      rw [hdrop]
      exact (takeBounded_isPrefix a b _ [] 0).2

/-! ### Writing -/

section
variable (h : log.Holds folded l)
include h

theorem Holds.index_of_isPrefix (hm : m <+: l) (k : Nat) (e : LogEntry) (he : m[k]? = some e) :
    e.index = k + 1 :=
  h.index k e (getElem?_of_isPrefix hm he)

theorem Holds.truncateFrom (hc : log.baseIndex < cut) :
    (log.truncateFrom cut).Holds folded (l.take (cut - 1)) := by
  have hbase := h.base
  rw [h.counted.truncateFrom_eq hc]
  refine ⟨?_, h.base, h.baseTerm, h.index_of_isPrefix (List.take_prefix _ _), ?_⟩
  · rw [h.full, show cut - 1 = folded.length + (cut - 1 - log.baseIndex) by omega,
      List.take_length_add_append, hbase, Nat.add_sub_cancel_left]
  · have := h.small
    rw [List.length_take]
    omega

theorem Holds.compactThrough (hc : log.baseIndex < cut) (hl : cut ≤ l.length) :
    (log.compactThrough cut (lastTermOf (l.take cut))).Holds (l.take cut) l := by
  have hmax : cut < u64Max := Nat.lt_of_le_of_lt hl h.small
  refine ⟨?_, ?_, ?_, h.index, h.small⟩
  · rw [h.counted.compactThrough_entries hc hmax, h.entries_eq, List.drop_drop,
      Nat.add_sub_cancel' (Nat.le_of_lt hc), List.take_append_drop]
  · rw [compactThrough_base hc, List.length_take, Nat.min_eq_left hl]
  · unfold Log.compactThrough
    rw [if_neg (Nat.not_le.mpr hc)]

end

/-- A log that starts after a snapshot and holds nothing else. -/
theorem Holds.discarded (hi : ∀ k e, m[k]? = some e → e.index = k + 1) (hs : m.length < u64Max) :
    Holds { entries := [], baseIndex := m.length, baseTerm := lastTermOf m } m m :=
  ⟨(List.append_nil m).symm, rfl, rfl, hi, hs⟩

theorem Holds.concat (h : log.Holds folded l)
    (hi : ∀ k e, es[k]? = some e → e.index = l.length + k + 1)
    (hs : l.length + es.length < u64Max) :
    Holds {log with entries := log.entries ++ es} folded (l ++ es) := by
  refine ⟨by rw [h.full, List.append_assoc], h.base, h.baseTerm, ?_, ?_⟩
  · intro k e he
    by_cases hk : k < l.length
    · rw [List.getElem?_append_left hk] at he
      exact h.index k e he
    · rw [List.getElem?_append_right (by omega)] at he
      rw [hi _ e he]
      omega
  · rw [List.length_append]
    exact hs

/-! ### Appending a leader's entries -/

/-- Entries of one index and one term agree with all before them, and what lies behind
the first `b` of `l` is not in question. -/
structure Matches (l g : List LogEntry) (b : Nat) : Prop where
  entry : ∀ k a c, l[k]? = some a → g[k]? = some c → a.term = c.term →
    l.take (k + 1) = g.take (k + 1)
  below : ∀ k, k < b → k < g.length → l.take (k + 1) = g.take (k + 1)

/-- `l` and `g` agree on `k` entries and no more. -/
structure Parts (l g : List LogEntry) (k : Nat) : Prop where
  agree : l.take k = g.take k
  le : k ≤ l.length
  differ : l.take (k + 1) ≠ g.take (k + 1)

theorem Parts.of_term {a c : LogEntry} (hag : l.take k = g.take k) (ha : l[k]? = some a)
    (hc : g[k]? = some c) (hne : a.term ≠ c.term) : Parts l g k := by
  refine ⟨hag, Nat.le_of_lt (List.getElem?_eq_some_iff.mp ha).1, fun heq => hne ?_⟩
  rw [List.take_add_one, List.take_add_one, ha, hc, hag] at heq
  have := List.append_cancel_left heq
  simp only [Option.toList_some, List.cons.injEq, and_true] at this
  rw [this]

theorem Parts.of_end (hag : l.take k = g.take k) (hk : l.length = k) (hg : k < g.length) :
    Parts l g k := by
  refine ⟨hag, hk.ge, fun heq => ?_⟩
  have := congrArg List.length heq
  rw [List.length_take, List.length_take] at this
  omega

/-- A common head of two lists that part is no longer than where they do. -/
theorem Parts.prefix_le {z : List LogEntry} (h : Parts l g k) (hz : z <+: l) (hg : z <+: g) :
    z.length ≤ k := by
  by_contra hlt
  have hl := List.prefix_iff_eq_take.mp ((List.take_prefix (k + 1) z).trans hz)
  have hr := List.prefix_iff_eq_take.mp ((List.take_prefix (k + 1) z).trans hg)
  rw [List.length_take, Nat.min_eq_left (by omega)] at hl hr
  exact h.differ (hl.symm.trans hr)

theorem getElem?_of_isPrefix_drop {j : Nat} (h : es <+: g.drop p) (he : es[j]? = some e) :
    g[p + j]? = some e := by
  rw [← List.getElem?_drop]
  exact getElem?_of_isPrefix h he

/-- Where the log has the entries, it agrees with `g`. -/
theorem Holds.agree_of_skips (h : log.Holds folded l) (hm : Matches l g log.baseIndex)
    (hes : es <+: g.drop p) (hp : l.take p = g.take p) (hpl : p ≤ l.length)
    (hskips : log.Skips (p + 1) es k) (hk : k ≤ es.length) :
    l.take (p + k) = g.take (p + k) ∧ p + k ≤ l.length := by
  cases k with
  | zero => exact ⟨hp, hpl⟩
  | succ j =>
    have he := List.getElem?_eq_getElem (show j < es.length from hk)
    have hge := getElem?_of_isPrefix_drop hes he
    have hbase := h.base_le
    by_cases hb : p + 1 + j ≤ log.baseIndex
    · exact ⟨hm.below (p + j) (by omega) (List.getElem?_eq_some_iff.mp hge).1, by omega⟩
    · have hterm := (hskips j _ (Nat.lt_succ_self j) he).resolve_left hb
      rw [h.termAt_eq (by omega) (by omega), show p + 1 + j - 1 = p + j by omega] at hterm
      obtain ⟨a, ha, hterm⟩ := Option.map_eq_some_iff.mp hterm
      exact ⟨hm.entry (p + j) a _ ha hge hterm, (List.getElem?_eq_some_iff.mp ha).1⟩

/-- Where the walk stops, the log is cut where it parts from `g`. -/
theorem Holds.cut_spec (h : log.Holds folded l) (hm : Matches l g log.baseIndex)
    (hes : es <+: g.drop p) (hp : l.take p = g.take p) (hpl : p ≤ l.length)
    (hskips : log.Skips (p + 1) es k) (hk : k < es.length) (hb : log.baseIndex < p + 1 + k)
    {cut : Log} (hcut : log.Cut committed (p + 1) es k cut) :
    cut.Holds folded (l.take (p + k)) ∧ Parts l g (p + k) ∧
      (p + k = l.length ∨ committed ≤ p + k) := by
  have hidx : p + 1 + k - 1 = p + k := by omega
  obtain ⟨hagree, hle⟩ := h.agree_of_skips hm hes hp hpl hskips (Nat.le_of_lt hk)
  have hge := getElem?_of_isPrefix_drop hes (List.getElem?_eq_getElem hk)
  rcases hcut with ⟨hnone, rfl⟩ | ⟨⟨-, -, a, e, ha, he, hne⟩, hc, rfl⟩
  · rw [h.get_eq hb, hidx, List.getElem?_eq_none_iff] at hnone
    exact ⟨by rwa [List.take_of_length_le hnone],
      Parts.of_end hagree (by omega) (List.getElem?_eq_some_iff.mp hge).1, .inl (by omega)⟩
  · rw [h.get_eq hb, hidx] at ha
    rw [Nat.add_sub_cancel_left] at he
    have hholds := h.truncateFrom hb
    rw [hidx] at hholds
    exact ⟨hholds, Parts.of_term hagree ha (getElem?_of_isPrefix_drop hes he) hne,
      .inr (by omega)⟩

/-- What appending the entries `es`, which follow the first `p` of `g`, comes to: the log
has them, or refuses, or is `g` up to the last of them. -/
inductive Appended (log : Log) (folded l g : List LogEntry) (committed p : Nat)
    (es : List LogEntry) : Log → Except Unit (Option Nat) → Prop where
  | all (hall : g.take (p + es.length) <+: l) :
    Appended log folded l g committed p es log (.ok none)
  | refused {i : Nat} (hi : log.ConflictAt (p + 1) es i) (hc : i ≤ committed) :
    Appended log folded l g committed p es log (.error ())
  | changed (k : Nat) (after : Log) (hk : k < p + es.length) (hg : p + es.length ≤ g.length)
    (hafter : after.Holds folded (g.take (p + es.length))) (hparts : Parts l g k)
    (hb : log.baseIndex ≤ k) (hc : k = l.length ∨ committed ≤ k) :
    Appended log folded l g committed p es after (.ok (some (k + 1)))

theorem Holds.appendAt_spec (h : log.Holds folded l) (hm : Matches l g log.baseIndex)
    (hes : es <+: g.drop p) (hp : l.take p = g.take p) (hpl : p ≤ l.length)
    (hi : ∀ k e, g[k]? = some e → e.index = k + 1) (hs : g.length < u64Max) {log' : Log}
    {r : Except Unit (Option Nat)} (hr : log.appendAt (p + 1) es committed = some (log', r)) :
    Appended log folded l g committed p es log' r := by
  obtain ⟨k, hskips, happends⟩ := appendAt_appends hr
  cases happends with
  | all hk =>
    obtain ⟨hagree, -⟩ := h.agree_of_skips hm hes hp hpl hskips (Nat.le_of_eq hk)
    exact .all (hk ▸ hagree ▸ List.take_prefix _ _)
  | refused hk hc => exact .refused hk hc
  | @changed cut out hk hb hcut hout =>
    obtain ⟨hcut, hparts, hcom⟩ := h.cut_spec hm hes hp hpl hskips hk hb hcut
    have hgl : p + es.length ≤ g.length := by
      have := hes.length_le
      rw [List.length_drop] at this
      omega
    have hrest : es.drop k = (g.take (p + es.length)).drop (p + k) := by
      conv_lhs => rw [List.prefix_iff_eq_take.mp hes]
      rw [List.drop_take, List.drop_drop, List.drop_take]
      congr 1
      omega
    have hlen : (l.take (p + k)).length = p + k := by
      rw [List.length_take, Nat.min_eq_left hparts.le]
    have hsum : p + k + (es.drop k).length = p + es.length := by
      rw [List.length_drop]
      omega
    rw [hcut.lastIndex_eq, hlen] at hout ⊢
    have hnum : ∀ j e, (es.drop k)[j]? = some e → e.index = p + k + 1 + j := by
      intro j e he
      rw [hrest, List.getElem?_drop] at he
      rw [hi _ e (getElem?_of_isPrefix (List.take_prefix _ _) he)]
      omega
    have hfull := hcut.concat (fun j e he => by rw [hnum j e he, hlen]; omega)
      (by rw [hlen, hsum]; omega)
    have hjoin : l.take (p + k) ++ es.drop k = g.take (p + es.length) := by
      have htake : g.take (p + k) = (g.take (p + es.length)).take (p + k) := by
        rw [List.take_take, Nat.min_eq_left (by omega)]
      rw [hparts.agree, hrest, htake, List.take_append_drop]
    rw [hjoin, ← renumber_eq hnum hout] at hfull
    exact .changed (p + k) _ (by omega) hgl hfull hparts (by omega) hcom

end Log

end EventStream.Raft
