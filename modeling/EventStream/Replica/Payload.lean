import EventStream.Raft.State
import EventStream.Reading
import EventStream.Replica.Command

/-! The three kinds of payload that share the replicated log: a leader's no-op, a membership
change, and the data of a partition (`raft/state.rs`, `raft_partition.rs`).

They are told apart by their first bytes, in two places: where the Raft state hands on what is
committed, and where the partition decodes it. A batch is neither empty nor a membership change,
so that it is handed on; and the partition reads it whole or not at all. -/
namespace EventStream.Replica

open Raft (LogEntry RaftState configMagic decodeConfigChange)
open Reading (Steady)
open Storage (AppendRecord)

def isConfigEntry (payload : Bytes) : Bool := 4 ≤ payload.length && payload.take 4 = configMagic

section
variable {proposal baseOffset : Nat} {ts : Int64} {records : List AppendRecord} {p : Bytes}

/-! ### Not a membership change -/

theorem take_ne_configMagic (h : p.head? = some entryV1) : p.take 4 ≠ configMagic := by
  cases p with
  | nil => cases h
  | cons x p =>
    obtain rfl := Option.some.inj h
    intro heq
    exact absurd (List.cons.inj heq).1 (by decide)

theorem not_config_of_head (h : p.head? = some entryV1) :
    isConfigEntry p = false ∧ decodeConfigChange p = none := by
  have hne := take_ne_configMagic h
  exact ⟨by simp [isConfigEntry, hne], by simp [decodeConfigChange, hne]⟩

/-- What is committed and not yet applied is handed on, unless it is empty or changes the
members. -/
theorem drainLoop_applies {e : LogEntry} (hne : e.payload ≠ [])
    (hdata : decodeConfigChange e.payload = none) (n : Nat) (s : RaftState) {idx : Nat}
    (hget : s.log.get idx = some e) (hlow : s.lastApplied < idx) (hhigh : idx ≤ s.lastApplied + n) :
    .apply e ∈ (RaftState.drainLoop n s).2 := by
  induction n generalizing s with
  | zero => omega
  | succ n ih =>
    -- the entry comes later: the rest of the loop hands it on
    have hlater (s' : RaftState) (hs : Raft.RaftState.Alike
        { s with lastApplied := s.lastApplied + 1 } s') (hidx : idx ≠ s.lastApplied + 1) :
        .apply e ∈ (RaftState.drainLoop n s').2 := by
      have hlast : s'.lastApplied = s.lastApplied + 1 := hs.lastApplied
      exact ih s' (hs.log ▸ hget) (by omega) (by omega)
    unfold RaftState.drainLoop
    dsimp only
    by_cases hidx : idx = s.lastApplied + 1
    · rw [← hidx, hget]
      simp [hne, hdata]
    split
    · exact hlater _ (.refl _) hidx
    split
    · exact hlater _ (.refl _) hidx
    split
    · exact hlater _ (RaftState.applyConfigChange_regrouped ..).alike hidx
    · exact List.mem_cons_of_mem _ (hlater _ (.refl _) hidx)

/-! ### Nothing but the batch -/

theorem steady_take (n : Nat) : Steady (Cur.take n) := Steady.take "entry truncated" n

theorem steady_u32 : Steady Cur.u32 := (steady_take 4).bind fun x => .pure (beNat x)

theorem steady_u64 : Steady Cur.u64 := (steady_take 8).bind fun x => .pure (beNat x)

theorem steady_optBytes : Steady Cur.optBytes := by
  refine steady_u32.bind (f := fun n b => if 2 ^ 31 ≤ n then .ok (none, b) else
    (Cur.take n b).bind fun found => .ok (some found.1, found.2)) fun n => ?_
  by_cases hn : 2 ^ 31 ≤ n
  · simp only [hn, if_true]
    exact Steady.pure none
  · simp only [hn, if_false]
    exact (steady_take n).bind fun x => .pure (some x)

theorem steady_bytes : Steady Cur.bytes := steady_u32.bind fun n => steady_take n

theorem steady_record : Steady decodeBatchRecord :=
  steady_u64.bind fun ts => steady_optBytes.bind fun key => steady_bytes.bind fun value =>
    .pure (BatchRecord.mk (UInt64.ofNat ts).toInt64 key value)

theorem steady_records (n : Nat) : Steady (decodeBatchRecords n) := by
  induction n with
  | zero => exact .pure []
  | succ n ih => exact steady_record.bind fun r => ih.bind fun rs => .pure (r :: rs)

/-- Bytes after a whole batch are noticed. -/
theorem decodeCommand_append {c : Command} (hhead : p.head? = some entryV1)
    (h : decodeCommand p = .ok c) {more : Bytes} (hmore : more ≠ []) :
    decodeCommand (p ++ more) = .error "trailing bytes after batch entry" := by
  obtain ⟨tail, rfl⟩ : ∃ tail, p = entryV1 :: tail := by
    cases p with
    | nil => cases hhead
    | cons x tail => exact ⟨tail, by rw [Option.some.inj hhead]⟩
  rw [decodeCommand, if_pos hhead] at h
  obtain ⟨⟨proposal, b₁⟩, h₁, h⟩ := bind_eq_ok.mp h
  obtain ⟨⟨base, b₂⟩, h₂, h⟩ := bind_eq_ok.mp h
  obtain ⟨⟨n, b₃⟩, h₃, h⟩ := bind_eq_ok.mp h
  obtain ⟨⟨records, b₄⟩, h₄, h⟩ := bind_eq_ok.mp h
  obtain rfl : b₄ = [] := by
    dsimp only at h
    split at h
    · exact List.isEmpty_iff.mp ‹_›
    · cases h
  rw [decodeCommand, if_pos (show (entryV1 :: tail ++ more).head? = some entryV1 from rfl)]
  show (Cur.u64 (tail ++ more) >>= _) = _
  rw [steady_u64 tail _ _ more h₁]
  show (Cur.u64 (b₁ ++ more) >>= _) = _
  rw [steady_u64 _ _ _ more h₂]
  show (Cur.u32 (b₂ ++ more) >>= _) = _
  rw [steady_u32 _ _ _ more h₃]
  show (decodeBatchRecords n (b₃ ++ more) >>= _) = _
  rw [steady_records n _ _ _ more h₄]
  show (if ([] ++ more).isEmpty then _ else _) = _
  rw [if_neg (by simpa using hmore)]

/-- **A batch is a batch.** It is neither a no-op nor a membership change, so every replica hands
it on once it is committed; it is decoded to what was proposed, its span can be read off, and
neither a part of it nor more than it is accepted. -/
theorem batch_payload_exact (hp : proposal ≤ u64Max) (hb : baseOffset ≤ u64Max)
    (hn : records.length < 2 ^ 32) (hr : ∀ r ∈ records, Encodes r)
    (heq : p = encodeBatch proposal baseOffset ts records) :
    (p ≠ [] ∧ isConfigEntry p = false ∧ decodeConfigChange p = none) ∧
    (∀ (s : RaftState) (idx : Nat) (e : LogEntry), s.log.get idx = some e → e.payload = p →
      s.lastApplied < idx → idx ≤ s.commitIndex → .apply e ∈ s.drainApplyActions.2) ∧
    decodeCommand p = .ok (.batch proposal baseOffset (records.map (batchRecord ts))) ∧
    batchSpan p = some (baseOffset, records.length) ∧
    (∀ part, part <+: p → part ≠ p → ∃ err, decodeCommand part = .error err) ∧
    ∀ more, more ≠ [] → ∃ err, decodeCommand (p ++ more) = .error err := by
  have hhead : p.head? = some entryV1 := by rw [heq]; rfl
  have hne : p ≠ [] := by
    rintro rfl
    cases hhead
  have hconfig := not_config_of_head hhead
  have hdecode : decodeCommand p =
      .ok (.batch proposal baseOffset (records.map (batchRecord ts))) :=
    heq ▸ decodeCommand_encodeBatch hp hb hn hr ts
  refine ⟨⟨hne, hconfig⟩, ?_, hdecode, heq ▸ batchSpan_encodeBatch hb hn ts, ?_, ?_⟩
  · rintro s idx e hget rfl hlow hhigh
    exact drainLoop_applies hne hconfig.2 _ s hget hlow (by omega)
  · rintro part ⟨more, rfl⟩ hstrict
    have hmore : more ≠ [] := by
      rintro rfl
      exact hstrict (List.append_nil part).symm
    cases hpart : decodeCommand part with
    | error err => exact ⟨err, rfl⟩
    | ok c =>
      cases part with
      | nil => cases hpart
      | cons x part =>
        have hfirst : (x :: part).head? = some entryV1 := hhead
        rw [decodeCommand_append hfirst hpart hmore] at hdecode
        cases hdecode
  · exact fun more hmore => ⟨_, decodeCommand_append hhead hdecode hmore⟩

end

/-- One record without a key, one with a time of its own and an empty one. -/
theorem batch_payload_exact_three :
    decodeCommand (encodeBatch 42 100 7
        [⟨none, [1], none, none⟩, ⟨some [2], [3, 4], some 5, none⟩, ⟨some [], [], none, none⟩]) =
      .ok (.batch 42 100 [⟨7, none, [1]⟩, ⟨5, some [2], [3, 4]⟩, ⟨7, some [], []⟩]) ∧
    batchSpan (encodeBatch 42 100 7
        [⟨none, [1], none, none⟩, ⟨some [2], [3, 4], some 5, none⟩, ⟨some [], [], none, none⟩]) =
      some (100, 3) := by
  have hr : ∀ r ∈ ([⟨none, [1], none, none⟩, ⟨some [2], [3, 4], some 5, none⟩,
      ⟨some [], [], none, none⟩] : List AppendRecord), Encodes r := by
    intro r hr
    simp only [List.mem_cons, List.not_mem_nil, or_false] at hr
    obtain rfl | rfl | rfl := hr <;> exact ⟨by decide, by decide⟩
  have h := batch_payload_exact (by decide : 42 ≤ u64Max) (by decide : 100 ≤ u64Max) (by decide) hr
    (rfl : encodeBatch 42 100 7 _ = _)
  exact ⟨h.2.2.1, h.2.2.2.1⟩

end EventStream.Replica
