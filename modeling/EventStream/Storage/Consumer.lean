import EventStream.Storage.History
import EventStream.Storage.Retention

/-! The consumer loop over every partition that appends, syncs, compactions, retention and
reopenings can lead to.

Compaction and retention keep a partition one that holds records (`Holds.compact`,
`Holds.unlinkPlan`): fewer of them, in the same order. So a consumer that polls from the
offset each call returns gets every record there is, once and in order. -/
namespace EventStream.Storage

/-! ### Scanning what a segment holds -/

variable {s : Segment} {rs : List Record} {parts : List Part} {p : Partition}

theorem Segment.Holds.walk (h : s.Holds rs) :
    s.walk = ⟨RecordCursor.positioned 0 rs, (encodeAll rs).length, none⟩ := by
  have hfile : s.log = [] ++ ((encodeAll rs ++ []) ++ []) := by simp [h.log]
  have hlimit : s.sizeBytes = ([] : Bytes).length + (encodeAll rs ++ []).length := by
    rw [h.size, h.log]
    simp
  have hwalk := RecordCursor.walk_encoded .clean hfile hlimit
    fun r hr => ⟨(h.fits r hr).valid, le_readWindow (h.fits r hr)⟩
  rwa [List.length_nil, Nat.zero_add] at hwalk

theorem Segment.Holds.records (h : s.Holds rs) : s.records = rs := by
  rw [Segment.records, h.walk, RecordCursor.map_snd_positioned]

theorem Segment.Holds.forEachRecord (h : s.Holds rs) : s.forEachRecord = some rs := by
  rw [Segment.forEachRecord, h.walk]
  dsimp only
  rw [h.records]

theorem sealedRecords_parts (hh : ∀ x ∈ parts, x.1.Holds x.2) :
    sealedRecords (parts.map Prod.fst) = some (contents parts) := by
  induction parts with
  | nil => rfl
  | cons x parts ih =>
    rw [List.map_cons, sealedRecords, (hh x List.mem_cons_self).forEachRecord,
      ih fun y hy => hh y (List.mem_cons_of_mem _ hy)]
    rfl

section
variable {p q p' : Partition} {parts : List Part} {tail : List Record} {config : TopicConfig}
    {now : Int64} {c : Compacting}

/-- The records a scan of the partition finds are those it holds. -/
theorem Partition.Laid.records (h : p.Laid parts tail) : p.records = contents parts ++ tail := by
  rw [Partition.records, h.map_segments, ← contents_snoc parts p.active, contents,
    List.flatMap_map]
  exact List.flatMap_congr fun x hx => (h.holdsAll x hx).records

theorem Partition.Laid.sealed_eq (h : p.Laid parts tail) :
    p.segments.filter (·.baseOffset < p.active.baseOffset) = parts.map Prod.fst := by
  have hsealed : p.sealedSegments.filter (·.baseOffset < p.active.baseOffset) =
      p.sealedSegments := by
    refine List.filter_eq_self.mpr fun s hs => decide_eq_true ?_
    rw [h.segments] at hs
    obtain ⟨x, hx, rfl⟩ := List.mem_map.mp hs
    exact ((List.pairwise_append.mp h.ordered).2.2 x hx _ List.mem_cons_self).1
  rw [Partition.segments, List.filter_append, hsealed, h.segments]
  simp

/-! ### Compaction -/

/-- The output of a compaction holds what survives. -/
theorem writeSurvivors_holds {survivors : List Record} {base : Nat} {output : Segment}
    (hfits : ∀ r ∈ survivors, r.Fits) (hsorted : survivors.Pairwise fun a b => a.offset < b.offset)
    (h : writeSurvivors survivors base = some output) :
    output.Holds survivors ∧ output.baseOffset = base := by
  unfold writeSurvivors at h
  split at h
  · cases h
  · rename_i hok
    rw [not_or, List.any_eq_true] at hok
    cases h
    exact ⟨
      { log := rfl
        size := rfl
        index := rfl
        indexFile := rfl
        fits := hfits
        sorted := hsorted
        base := fun r hr => Nat.le_of_not_lt fun hlow => hok.1 ⟨r, hr, by simpa using hlow⟩
        short := by
          have hmax : 256 ^ 8 = u64Max + 1 := by decide
          show (encodeAll survivors).length < 256 ^ 8
          omega }, rfl⟩

theorem survivorsOf_sublist (cutoff : Int64) (rs : List Record) :
    (survivorsOf cutoff rs).Sublist rs := List.filter_sublist

/-- A swap that goes through puts in place what a compaction of this very partition reads. -/
theorem Partition.compactRead_of_swap (hc : q.compactRead config now = some c)
    (hs : p.compactSwap c = some p') : p.compactRead config now = some c := by
  have hbase := Partition.compactRead_sealed hc
  unfold Partition.compactSwap at hs
  dsimp only at hs
  split at hs
  · rename_i hsame
    unfold Partition.compactRead at hc ⊢
    rw [hsame.2, hsame.1, hbase.1, hbase.2]
    exact hc
  · cases hs

/-- After a compaction the sealed part of the partition is one segment with what survived. -/
theorem Partition.Holds.compact (h : p.Holds parts tail) (hc : q.compactRead config now = some c)
    (hs : p.compactSwap c = some p') :
    p'.Holds [(c.output, survivorsOf (satSubI64 now config.tombstoneRetentionMs.toInt64)
      (contents parts))] tail := by
  have hread := Partition.compactRead_of_swap hc hs
  obtain ⟨rfl, _⟩ := Partition.compactSwap_eq hs
  unfold Partition.compactRead at hread
  rw [h.sealed_eq] at hread
  obtain ⟨lowest, hlowest, hread⟩ := Option.bind_eq_some_iff.mp hread
  obtain ⟨records, hrecords, hread⟩ := Option.bind_eq_some_iff.mp hread
  rw [sealedRecords_parts h.sealedHold] at hrecords
  cases hrecords
  dsimp only at hread
  split at hread
  · cases hread
  · obtain ⟨output, houtput, hread⟩ := Option.bind_eq_some_iff.mp hread
    cases hread
    have hsub := survivorsOf_sublist (satSubI64 now config.tombstoneRetentionMs.toInt64)
      (contents parts)
    obtain ⟨hold, hbase⟩ := writeSurvivors_holds
      (fun r hr => by
        obtain ⟨x, hx, hrx⟩ := mem_contents.mp (hsub.subset hr)
        exact (h.sealedHold x hx).fits r hrx)
      ((List.pairwise_append.mp h.sorted).1.sublist hsub) houtput
    obtain ⟨x0, hx0, rfl⟩ := List.mem_map.mp (List.mem_of_head? hlowest)
    have hbefore (x : Part) (hx : x ∈ parts) : x.Before (p.active, tail) :=
      (List.pairwise_append.mp h.ordered).2.2 x hx _ List.mem_cons_self
    refine { h with
      segments := rfl
      sealedHold := fun x hx => ?_
      ordered := ?_
      start := fun x hx => ?_ }
    · rw [List.mem_singleton.mp hx]
      exact hold
    · refine List.pairwise_append.mpr ⟨List.pairwise_singleton _ _, List.pairwise_singleton _ _,
        fun a ha b hb => ?_⟩
      rw [List.mem_singleton.mp ha, List.mem_singleton.mp hb]
      refine ⟨?_, fun r hr => ?_⟩
      · show output.baseOffset < p.active.baseOffset
        rw [hbase]
        exact (hbefore x0 hx0).1
      · obtain ⟨x, hx, hrx⟩ := mem_contents.mp (hsub.subset hr)
        exact (hbefore x hx).2 r hrx
    · rcases List.mem_append.mp hx with hx | hx
      · rw [List.mem_singleton.mp hx]
        show p.startOffset ≤ output.baseOffset
        rw [hbase]
        exact h.start x0 (List.mem_append_left _ hx0)
      · exact h.start x (List.mem_append_right _ hx)

/-! ### Retention -/

/-- Taking segments out of the partition takes their records out, and no others. -/
theorem Partition.Holds.unlinkPlan (h : p.Holds parts tail) (victims : List Nat) :
    ∃ parts', parts'.Sublist parts ∧ (p.unlinkPlan victims).Holds parts' tail := by
  unfold Partition.unlinkPlan
  dsimp only
  split
  · exact ⟨parts, List.Sublist.refl _, h⟩
  · have hsub := @List.filter_sublist _ (fun x : Part => decide
      (x.1.baseOffset ∉ victims.filter (· < p.active.baseOffset))) parts
    have hkept : p.sealedSegments.filter (fun s => decide
        (s.baseOffset ∉ victims.filter (· < p.active.baseOffset))) =
        (parts.filter fun x => decide (x.1.baseOffset ∉ victims.filter
          (· < p.active.baseOffset))).map Prod.fst := by
      rw [h.segments, List.filter_map]
      rfl
    have hordered := h.ordered.sublist (hsub.append (List.Sublist.refl [(p.active, tail)]))
    refine ⟨_, hsub, { h with
      segments := hkept
      sealedHold := fun x hx => h.sealedHold x (hsub.subset hx)
      ordered := hordered
      start := ?_ }⟩
    have hmap : p.sealedSegments.filter (fun s => decide
        (s.baseOffset ∉ victims.filter (· < p.active.baseOffset))) ++ [p.active] =
        ((parts.filter fun x => decide (x.1.baseOffset ∉ victims.filter
          (· < p.active.baseOffset))) ++ [(p.active, tail)]).map Prod.fst := by
      rw [hkept, List.map_append, List.map_singleton]
    show ∀ x ∈ _, ((_ ++ [p.active]).head?.map (·.baseOffset)).getD p.active.baseOffset ≤ _
    rw [hmap]
    exact head_le_base hordered _

end

/-! ### Reachable partitions -/

/-- The partitions that appends, rolls, compactions, retention and reopenings lead to. A
compaction may have read any earlier state; retention has unlinked the files it dropped. -/
inductive Reachable : Partition → Prop where
  | created {p : Partition} {segmentBytes : UInt64} {flushEveryRecords : Nat}
    (h : Partition.open .empty segmentBytes flushEveryRecords = some p) : Reachable p
  | append {p p' : Partition} {records : List AppendRecord} {d : Durability} {now : Int64}
    {offsets : List Nat} (h : Reachable p) (hr : ∀ r ∈ records, r.Small)
    (hs : p.appendBatch records d now = some (p', offsets)) : Reachable p'
  | syncAll {p : Partition} (h : Reachable p) : Reachable p.syncAll
  | syncPending {p : Partition} (h : Reachable p) : Reachable p.syncPending
  | advanceTo {p : Partition} {offset : Nat} (h : Reachable p) (ho : offset ≤ u64Max) :
    Reachable (p.advanceTo offset)
  | resize {p : Partition} (h : Reachable p) (segmentBytes : UInt64) :
    Reachable { p with segmentBytes }
  | compact {q p p' : Partition} {config : TopicConfig} {now : Int64} {c : Compacting}
    (h : Reachable p) (hc : q.compactRead config now = some c)
    (hs : p.compactSwap c = some p') : Reachable p'
  | retain {p : Partition} (h : Reachable p) (victims : List Nat) :
    Reachable (p.unlinkPlan victims)
  | reopen {p p' : Partition} {n : Nat} {index : Option Bytes} {segmentBytes : UInt64}
    {flushEveryRecords : Nat} (h : Reachable p) (hn : p.durable ≤ n)
    (ho : Partition.open (p.crashed n index) segmentBytes flushEveryRecords = some p') :
    Reachable p'

theorem contents_sublist {xs ys : List Part} (h : xs.Sublist ys) :
    (contents xs).Sublist (contents ys) := by
  induction h with
  | slnil => exact List.Sublist.refl _
  | cons x _ ih => exact ih.trans (List.sublist_append_right _ _)
  | cons_cons x _ ih => exact (List.Sublist.refl x.2).append ih

/-- A reachable partition holds records, all of which fit in every read window. -/
theorem Reachable.holds (h : Reachable p) :
    ∃ parts tail, p.Holds parts tail ∧ ∀ r ∈ contents parts ++ tail, r.Small := by
  induction h with
  | created h =>
    obtain ⟨parts, tail, hp, hrs⟩ := (History.created h).holds
    exact ⟨parts, tail, hp, hrs ▸ fun r hr => absurd hr List.not_mem_nil⟩
  | append _ hr hs ih =>
    obtain ⟨parts, tail, hp, hsmall⟩ := ih
    obtain ⟨parts', tail', hp', hcontents, _⟩ := hp.appendBatch (fun r hr' => (hr r hr').fits) hs
    refine ⟨parts', tail', hp', fun r hmem => ?_⟩
    rw [hcontents] at hmem
    rcases List.mem_append.mp hmem with hmem | hmem
    · exact hsmall r hmem
    · exact small_assign hr r hmem
  | syncAll _ ih =>
    obtain ⟨parts, tail, hp, hsmall⟩ := ih
    exact ⟨parts, tail, hp.syncAll, hsmall⟩
  | syncPending _ ih =>
    obtain ⟨parts, tail, hp, hsmall⟩ := ih
    exact ⟨parts, tail, hp.syncPending, hsmall⟩
  | advanceTo _ ho ih =>
    obtain ⟨parts, tail, hp, hsmall⟩ := ih
    exact ⟨parts, tail, hp.advanceTo ho, hsmall⟩
  | resize _ segmentBytes ih =>
    obtain ⟨parts, tail, hp, hsmall⟩ := ih
    exact ⟨parts, tail, { hp with segments := hp.segments }, hsmall⟩
  | compact _ hc hs ih =>
    obtain ⟨parts, tail, hp, hsmall⟩ := ih
    refine ⟨_, tail, hp.compact hc hs, fun r hmem => ?_⟩
    rw [contents, List.flatMap_singleton] at hmem
    rcases List.mem_append.mp hmem with hmem | hmem
    · exact hsmall r (List.mem_append_left _ ((survivorsOf_sublist ..).subset hmem))
    · exact hsmall r (List.mem_append_right _ hmem)
  | retain _ victims ih =>
    obtain ⟨parts, tail, hp, hsmall⟩ := ih
    obtain ⟨parts', hsub, hp'⟩ := hp.unlinkPlan victims
    exact ⟨parts', tail, hp', fun r hmem => hsmall r
      (((contents_sublist hsub).append (List.Sublist.refl tail)).subset hmem)⟩
  | reopen _ _ ho ih =>
    obtain ⟨parts, tail, hp, hsmall⟩ := ih
    obtain ⟨p', parts', hopen, hp', hcontents, _⟩ := hp.reopen _ _ _ _
    cases hopen.symm.trans ho
    refine ⟨parts', _, hp', fun r hmem => hsmall r ?_⟩
    rw [hcontents] at hmem
    rcases List.mem_append.mp hmem with hmem | hmem
    · exact List.mem_append_left _ hmem
    · exact List.mem_append_right _ ((wholeWithin_isPrefix ..).subset hmem)

/-! ### The consumer loop -/

/-- The offset a poll from `target` returns. -/
def Partition.pollNext (p : Partition) (maxRecords maxBytes target : Nat) : Nat :=
  (p.readRecordsRaw target maxRecords maxBytes).2.1

/-- Below the watermark a poll moves on, and not beyond the watermark. -/
theorem Partition.Holds.pollNext {tail : List Record} (h : p.Holds parts tail)
    (hsmall : ∀ r ∈ contents parts ++ tail, r.Small) {maxRecords : Nat} (hm : 0 < maxRecords)
    (maxBytes : Nat) {target : Nat} (ht : target < p.nextOffset) :
    target < p.pollNext maxRecords maxBytes target ∧
      p.pollNext maxRecords maxBytes target ≤ p.nextOffset := by
  obtain ⟨out, hread, hpre, _⟩ := h.readRecordsRaw hsmall hm ht maxBytes
  rw [Partition.pollNext, hread]
  dsimp only
  cases hlast : out.getLast? with
  | none => exact ⟨ht, Nat.le_refl _⟩
  | some r =>
    obtain ⟨hr, hlow⟩ := mem_liveFrom.mp (hpre.subset (List.mem_of_getLast? hlast))
    exact ⟨Nat.lt_succ_of_le hlow, h.lt_next r hr⟩

/-- What moves on without passing the end reaches the end. -/
theorem iterate_reaches {f : Nat → Nat} {stop : Nat} (hf : ∀ n, n < stop → n < f n ∧ f n ≤ stop)
    {start : Nat} (hs : start ≤ stop) : ∃ k, k ≤ stop - start ∧ f^[k] start = stop := by
  induction hd : stop - start using Nat.strong_induction_on generalizing start with
  | _ d ih =>
    rcases Nat.lt_or_ge start stop with hlt | hge
    · obtain ⟨hmove, hle⟩ := hf start hlt
      obtain ⟨k, hk, hreach⟩ := ih (stop - f start) (by omega) hle rfl
      exact ⟨k + 1, by omega, hreach⟩
    · exact ⟨0, Nat.zero_le _, Nat.le_antisymm hs hge⟩

/-- **The consumer loop is complete.** In every reachable partition, from every start and with
every limit, polling from the returned offset yields every record at or above the start (and
the start offset), once and in increasing order; each poll below the watermark moves on, and
finitely many polls reach the watermark. -/
theorem consumer_loop_complete {p : Partition} (h : Reachable p) {maxRecords : Nat}
    (hm : 0 < maxRecords) (maxBytes start : Nat) :
    (∀ fuel, p.nextOffset - start < fuel → p.consume maxRecords maxBytes fuel start =
      p.records.filter fun r => max start p.startOffset ≤ r.offset) ∧
    (p.records.Pairwise fun a b => a.offset < b.offset) ∧
    (∀ target, target < p.nextOffset → target < p.pollNext maxRecords maxBytes target) ∧
    (start ≤ p.nextOffset → ∃ polls, polls ≤ p.nextOffset - start ∧
      (p.pollNext maxRecords maxBytes)^[polls] start = p.nextOffset) := by
  obtain ⟨parts, tail, hp, hsmall⟩ := h.holds
  rw [hp.records]
  refine ⟨fun fuel hf => ?_, hp.sorted, fun target ht => (hp.pollNext hsmall hm maxBytes ht).1,
    fun hs => iterate_reaches (fun n hn => hp.pollNext hsmall hm maxBytes hn) hs⟩
  rw [hp.consume hsmall hm maxBytes hf]
  -- Nothing lies below the start offset.
  refine List.filter_congr fun r hr => ?_
  have := hp.start_le r hr
  exact decide_eq_decide.mpr (by omega)

/-- Two versions of a key and a record without one, each in its segment, after a compaction. -/
def sparse : Option Partition := do
  let (p, _) ← tinySegments.appendBatch [⟨some [1], [1], some 0, none⟩,
    ⟨some [1], [2], some 100, none⟩, ⟨none, [3], some 100, none⟩] .policy 100
  let c ← p.compactRead keepHalf 100
  p.compactSwap c

theorem sparse_isSome : sparse.isSome := by decide +kernel

def sparsePartition : Partition := sparse.get sparse_isSome

theorem sparse_reachable : Reachable sparsePartition := by
  have hsome : sparse = some sparsePartition := (Option.some_get sparse_isSome).symm
  generalize sparsePartition = p at hsome
  unfold sparse at hsome
  obtain ⟨⟨q, offsets⟩, hq, hsome⟩ := Option.bind_eq_some_iff.mp hsome
  obtain ⟨c, hc, hs⟩ := Option.bind_eq_some_iff.mp hsome
  exact .compact (.append (.created (open_empty 1 1)) (by decide) hq) hc hs

/-- One record at a time, across the gap and the sparse segment. -/
theorem consumer_loop_complete_sparse :
    sparsePartition.consume 1 0 4 0 =
      [⟨1, 100, some [1], [2]⟩, ⟨2, 100, none, [3]⟩] := by
  have hnext : sparsePartition.nextOffset - 0 < 4 := by decide +kernel
  have hrecords : (sparsePartition.records.filter fun r =>
      max 0 sparsePartition.startOffset ≤ r.offset) =
      [⟨1, 100, some [1], [2]⟩, ⟨2, 100, none, [3]⟩] := by decide +kernel
  rw [(consumer_loop_complete sparse_reachable Nat.one_pos 0 0).1 4 hnext, hrecords]

end EventStream.Storage
