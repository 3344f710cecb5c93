import EventStream.Storage.Recovery

/-! Partitions over whole histories of appends, syncs, crashes and reopenings.

A history says which records were written and not lost; the partition it leads to holds
exactly these (`History.holds`). -/
namespace EventStream.Storage

def Directory.empty : Directory :=
  { logs := [], indexes := [], tmpLogs := [], tmpIndexes := [], marker := none }

def Partition.sealedBytes (p : Partition) : Nat := (p.sealedSegments.map (·.log.length)).sum

/-- A partition, and the records its appends wrote and no crash lost. Every record is at most
as long as the smallest read window. -/
inductive History : Partition → List Record → Prop where
  | created {p : Partition} {segmentBytes : UInt64} {flushEveryRecords : Nat}
    (h : Partition.open .empty segmentBytes flushEveryRecords = some p) : History p []
  | append {p p' : Partition} {rs : List Record} {records : List AppendRecord} {d : Durability}
    {now : Int64} {offsets : List Nat} (h : History p rs) (hr : ∀ r ∈ records, r.Small)
    (hs : p.appendBatch records d now = some (p', offsets)) :
    History p' (rs ++ assign now p.nextOffset records)
  | syncAll {p : Partition} {rs : List Record} (h : History p rs) : History p.syncAll rs
  | syncPending {p : Partition} {rs : List Record} (h : History p rs) : History p.syncPending rs
  | advanceTo {p : Partition} {rs : List Record} {offset : Nat} (h : History p rs)
    (ho : offset ≤ u64Max) : History (p.advanceTo offset) rs
  | reopen {p p' : Partition} {rs : List Record} {n : Nat} {index : Option Bytes}
    {segmentBytes : UInt64} {flushEveryRecords : Nat} (h : History p rs) (hn : p.durable ≤ n)
    (ho : Partition.open (p.crashed n index) segmentBytes flushEveryRecords = some p') :
    History p' (wholeWithin (p.sealedBytes + n) rs)

/-- Appends from one partition to another, with the records they wrote. -/
inductive Appended : Partition → Partition → List Record → Prop where
  | refl (p : Partition) : Appended p p []
  | append {p q q' : Partition} {new : List Record} {records : List AppendRecord}
    {d : Durability} {now : Int64} {offsets : List Nat} (h : Appended p q new)
    (hr : ∀ r ∈ records, r.Small) (hs : q.appendBatch records d now = some (q', offsets)) :
    Appended p q' (new ++ assign now q.nextOffset records)

variable {p q : Partition} {parts : List Part} {tail rs new : List Record}

theorem Partition.Laid.sealedBytes (h : p.Laid parts tail) :
    p.sealedBytes = (encodeAll (contents parts)).length := by
  have hmap : p.sealedSegments.map (·.log.length) = parts.map fun x => (encodeAll x.2).length := by
    rw [h.segments, List.map_map]
    exact List.map_congr_left fun x hx => congrArg List.length (h.sealedHold x hx).log
  rw [Partition.sealedBytes, hmap]
  clear h hmap
  induction parts with
  | nil => rfl
  | cons x parts ih =>
    rw [List.map_cons, List.sum_cons, ih, contents_cons, encodeAll_append, List.length_append]

theorem Partition.Holds.advanceTo (h : p.Holds parts tail) {offset : Nat} (ho : offset ≤ u64Max) :
    (p.advanceTo offset).Holds parts tail :=
  { h with
    below := fun r hr => Nat.lt_of_lt_of_le (h.below r hr) (Nat.le_max_left ..)
    baseNext := Nat.le_trans h.baseNext (Nat.le_max_left ..)
    nextMax := Nat.max_le.mpr ⟨h.nextMax, ho⟩ }

theorem Partition.Holds.syncAll (h : p.Holds parts tail) :
    p.syncAll.Holds parts tail := h.syncUpto _

theorem open_empty (segmentBytes : UInt64) (flushEveryRecords : Nat) :
    Partition.open .empty segmentBytes flushEveryRecords =
      some (.ofSegments [] (.openEmpty 0) 0 false segmentBytes flushEveryRecords) := by
  have hclean : Directory.empty.finishCompaction.sweepCompactionTmp = .empty := rfl
  rw [Partition.open, hclean]
  simp [Directory.empty, recoverSegments]

theorem Partition.Holds.syncPending (h : p.Holds parts tail) : p.syncPending.Holds parts tail := by
  unfold Partition.syncPending
  split
  · exact h
  · exact h.syncAll

/-- What survives of the records of a partition. -/
theorem Partition.Laid.survivors (h : p.Laid parts tail) (n : Nat) :
    wholeWithin (p.sealedBytes + n) (contents parts ++ tail) =
      contents parts ++ wholeWithin n tail := by
  rw [h.sealedBytes, wholeWithin_append]

/-- A partition holds the records of its history. -/
theorem History.holds (h : History p rs) :
    ∃ parts tail, p.Holds parts tail ∧ contents parts ++ tail = rs := by
  induction h with
  | created h =>
    cases (open_empty ..).symm.trans h
    have hnone (x : Part) (hx : x ∈ []) : x.1.Holds x.2 := absurd hx List.not_mem_nil
    exact ⟨[], [], Partition.holds_ofSegments hnone (Segment.holds_openEmpty 0)
      (List.pairwise_singleton _ _) rfl (Nat.zero_le _) _ _ _, rfl⟩
  | append _ hr hs ih =>
    obtain ⟨parts, tail, hp, rfl⟩ := ih
    obtain ⟨parts', tail', hp', hcontents, _⟩ := hp.appendBatch (fun r hr' => (hr r hr').fits) hs
    exact ⟨parts', tail', hp', hcontents⟩
  | syncAll _ ih =>
    obtain ⟨parts, tail, hp, hrs⟩ := ih
    exact ⟨parts, tail, hp.syncAll, hrs⟩
  | syncPending _ ih =>
    obtain ⟨parts, tail, hp, hrs⟩ := ih
    exact ⟨parts, tail, hp.syncPending, hrs⟩
  | advanceTo _ ho ih =>
    obtain ⟨parts, tail, hp, hrs⟩ := ih
    exact ⟨parts, tail, hp.advanceTo ho, hrs⟩
  | reopen _ _ ho ih =>
    obtain ⟨parts, tail, hp, rfl⟩ := ih
    obtain ⟨p', parts', hopen, hp', hcontents, _⟩ := hp.reopen _ _ _ _
    cases hopen.symm.trans ho
    exact ⟨parts', _, hp', by rw [hcontents, hp.survivors]⟩

/-- The records of a history fit in every read window. -/
theorem History.small (h : History p rs) : ∀ r ∈ rs, r.Small := by
  induction h with
  | created => exact fun r hr => absurd hr List.not_mem_nil
  | append _ hr _ ih =>
    intro r hmem
    rcases List.mem_append.mp hmem with hmem | hmem
    · exact ih r hmem
    · exact small_assign hr r hmem
  | syncAll _ ih => exact ih
  | syncPending _ ih => exact ih
  | advanceTo _ _ ih => exact ih
  | reopen _ _ _ ih => exact fun r hr => ih r ((wholeWithin_isPrefix ..).subset hr)

theorem Appended.small (h : Appended p q new) : ∀ r ∈ new, r.Small := by
  induction h with
  | refl => exact fun r hr => absurd hr List.not_mem_nil
  | append _ hr _ ih =>
    intro r hmem
    rcases List.mem_append.mp hmem with hmem | hmem
    · exact ih r hmem
    · exact small_assign hr r hmem

theorem Appended.holds (h : Appended p q new) (hp : p.Holds parts tail) :
    ∃ parts' tail', q.Holds parts' tail' ∧
      contents parts' ++ tail' = contents parts ++ tail ++ new := by
  induction h with
  | refl => exact ⟨parts, tail, hp, (List.append_nil _).symm⟩
  | append _ hr hs ih =>
    obtain ⟨parts1, tail1, hq, hcontents1⟩ := ih
    obtain ⟨parts', tail', hq', hcontents, _⟩ := hq.appendBatch (fun r hr' => (hr r hr').fits) hs
    exact ⟨parts', tail', hq', by rw [hcontents, hcontents1, List.append_assoc]⟩

/-- **Recovery loses nothing that was durable.** After any history and a crash that keeps a
part of the active log at least as long as its last fsync, and leaves the active index in any
state, the partition opens. A consumer then reads exactly the records that lie wholly inside
the surviving bytes, all durable ones among them; the partition ends one past the last record
of the active segment, or at its base if there is none; and later appends go behind what was
kept. -/
theorem recovery_keeps_durable {p : Partition} {rs : List Record} (h : History p rs) {n : Nat}
    (hn : p.durable ≤ n) (index : Option Bytes) (segmentBytes : UInt64)
    (flushEveryRecords : Nat) :
    ∃ p', Partition.open (p.crashed n index) segmentBytes flushEveryRecords = some p' ∧
      (∀ maxRecords maxBytes, 0 < maxRecords →
        p'.consume maxRecords maxBytes (p'.nextOffset + 1) p'.startOffset =
          wholeWithin (p.sealedBytes + n) rs) ∧
      wholeWithin (p.sealedBytes + p.durable) rs <+: wholeWithin (p.sealedBytes + n) rs ∧
      (p'.active.log = [] → p'.nextOffset = p.active.baseOffset) ∧
      (p'.active.log ≠ [] → ∃ last, (wholeWithin (p.sealedBytes + n) rs).getLast? = some last ∧
        p'.nextOffset = last.offset + 1) ∧
      ∀ q new, Appended p' q new → ∀ maxRecords maxBytes, 0 < maxRecords →
        q.consume maxRecords maxBytes (q.nextOffset + 1) q.startOffset =
          wholeWithin (p.sealedBytes + n) rs ++ new := by
  have hsmall := h.small
  obtain ⟨parts, tail, hp, rfl⟩ := h.holds
  obtain ⟨p', parts', hopen, hp', hcontents, hbase, hnext⟩ :=
    hp.reopen n index segmentBytes flushEveryRecords
  rw [hp.survivors]
  have hall : contents parts' ++ wholeWithin n tail = contents parts ++ wholeWithin n tail := by
    rw [hcontents]
  have hkept (r : Record) (hr : r ∈ contents parts ++ wholeWithin n tail) : r.Small := by
    refine hsmall r ?_
    rcases List.mem_append.mp hr with hr | hr
    · exact List.mem_append_left _ hr
    · exact List.mem_append_right _ ((wholeWithin_isPrefix ..).subset hr)
  have hlog := hp'.activeHolds.log
  refine ⟨p', hopen, fun maxRecords maxBytes hm => ?_, ?_, fun hempty => ?_, fun hne => ?_,
    fun q new happ maxRecords maxBytes hm => ?_⟩
  · rw [hp'.consume_start (hall ▸ hkept) hm, hall]
  · rw [hp.survivors]
    exact (List.prefix_append_right_inj _).mpr (wholeWithin_mono hn tail)
  · have hnone : wholeWithin n tail = [] := by
      have hle := length_le_encodeAll (wholeWithin n tail)
      rw [← hlog, hempty, List.length_nil] at hle
      exact List.length_eq_zero_iff.mp (Nat.le_zero.mp hle)
    rw [hnext, hnone]
    rfl
  · cases hlast : (wholeWithin n tail).getLast? with
    | none =>
      rw [List.getLast?_eq_none_iff.mp hlast] at hlog
      exact absurd hlog hne
    | some last =>
      refine ⟨last, by rw [List.getLast?_append, hlast]; rfl, ?_⟩
      rw [hnext, offsetAfter, hlast]
      rfl
  · obtain ⟨parts'', tail'', hq, hcontents'⟩ := happ.holds hp'
    have hnew (r : Record) (hr : r ∈ contents parts'' ++ tail'') : r.Small := by
      rw [hcontents', hall] at hr
      rcases List.mem_append.mp hr with hr | hr
      · exact hkept r hr
      · exact happ.small r hr
    rw [hq.consume_start hnew hm, hcontents', hall]

/-- Two records in one segment, not fsynced. -/
def twoRecords : Option (Partition × List Nat) :=
  (Partition.ofSegments [] (.openEmpty 0) 0 false 4096 8).appendBatch
    [⟨none, [1], some 5, none⟩, ⟨some [2], [3], none, some 4⟩] .policy 7

theorem twoRecords_written : twoRecords.isSome = true := by decide

/-- A crash in the middle of the second record keeps the first. -/
theorem recovery_keeps_durable_torn :
    ∃ p' : Partition, Partition.open ((twoRecords.get twoRecords_written).1.crashed 40 (some [9]))
        4096 8 = some p' ∧
      ∀ maxRecords maxBytes, 0 < maxRecords →
        p'.consume maxRecords maxBytes (p'.nextOffset + 1) p'.startOffset =
          [⟨0, 5, none, [1]⟩] := by
  have hhistory : History (twoRecords.get twoRecords_written).1
      [⟨0, 5, none, [1]⟩, ⟨4, 7, some [2], [3]⟩] :=
    .append (.created (open_empty 4096 8)) (by decide) (Option.some_get twoRecords_written).symm
  obtain ⟨p', hopen, hread, _⟩ :=
    recovery_keeps_durable hhistory (by decide : _ ≤ 40) (some [9]) 4096 8
  exact ⟨p', hopen, fun maxRecords maxBytes hm => (hread maxRecords maxBytes hm).trans (by decide)⟩

end EventStream.Storage
