import EventStream.Storage.Consumer
import EventStream.Storage.Writer

/-! The representation of a partition: its segments, logs and indexes over every run of appends,
retention, compactions and reopenings.

Index entries are decided in three places: by an append with a batch that is not yet written, by
a scan, and by the writer of a compaction. All three follow the same rule (`sparseFrom`), so an
index is always the one a scan of its log would build (`representation_invariant`). -/
namespace EventStream.Storage

/-! ### Index entries -/

variable {pos segmentBytes : Nat} {p : Partition}

theorem le_of_wantsEntry {p : Nat} (h : wantsEntry (some p) pos) :
    p + indexIntervalBytes ≤ pos := by simpa [wantsEntry] using h

variable {rs : List Record} {s : Segment} {merged : List Nat}

/-- The entries lie behind the position they start from, and far enough behind the last one. -/
theorem mem_sparseFrom {base : Nat} {last : Option Nat} {e : Nat × Nat}
    (h : e ∈ sparseFrom base last pos rs) :
    pos ≤ e.2 ∧ ∀ p, last = some p → p + indexIntervalBytes ≤ e.2 := by
  induction rs generalizing last pos with
  | nil => exact absurd h List.not_mem_nil
  | cons r rs ih =>
    rw [sparseFrom] at h
    split at h
    · rename_i hwants
      have hlast (p : Nat) (hp : last = some p) : p + indexIntervalBytes ≤ pos :=
        le_of_wantsEntry (hp ▸ hwants)
      rcases List.mem_cons.mp h with rfl | h
      · exact ⟨Nat.le_refl _, hlast⟩
      · obtain ⟨hpos, _⟩ := ih h
        exact ⟨by omega, fun p hp => by have := hlast p hp; omega⟩
    · obtain ⟨hpos, hlast⟩ := ih h
      exact ⟨by omega, hlast⟩

theorem sparseFrom_spaced (base pos : Nat) (last : Option Nat) (rs : List Record) :
    (sparseFrom base last pos rs).Pairwise fun a b => a.2 + indexIntervalBytes ≤ b.2 := by
  induction rs generalizing last pos with
  | nil => exact List.Pairwise.nil
  | cons r rs ih =>
    rw [sparseFrom]
    split
    · exact List.pairwise_cons.mpr ⟨fun e he => (mem_sparseFrom he).2 pos rfl, ih _ _⟩
    · exact ih _ _

/-! ### Segments -/

/-- The segment's files are those of its records, and its index, in memory and on disk, is the
one a full scan of its log builds: the first entry at the start of the log, the others at least
`indexIntervalBytes` apart, each at the start of the record it names. -/
structure Segment.Exact (s : Segment) : Prop where
  log : s.log = encodeAll s.records
  size : s.sizeBytes = s.log.length
  base : ∀ r ∈ s.records, s.baseOffset ≤ r.offset
  index : ∃ scan, scanFull s.log s.baseOffset = some scan ∧ s.index = scan.entries
  indexFile : loadIndex s.indexFile = some s.index
  first : s.records ≠ [] → s.index.head?.map Prod.snd = some 0
  spaced : s.index.Pairwise fun a b => a.2 + indexIntervalBytes ≤ b.2
  located : Located s.baseOffset s.records s.index

theorem Segment.Holds.exactly (h : s.Holds rs) : s.Exact where
  log := by rw [h.records, h.log]
  size := h.size
  base := by
    rw [h.records]
    exact h.base
  index := by
    obtain ⟨scan, hscan, hfinds, _⟩ := scanFull_encoded h.fits .clean s.baseOffset
    rw [List.append_nil] at hscan
    exact ⟨scan, h.log ▸ hscan, h.index.trans hfinds.entries.symm⟩
  indexFile := h.loadIndex
  first := by
    rw [h.records, h.index]
    intro hne
    cases rs with
    | nil => exact absurd rfl hne
    | cons r rs => rfl
  spaced := by
    rw [h.index]
    exact sparseFrom_spaced ..
  located := by
    rw [h.records]
    exact h.located

/-- Not larger than a segment is to be, or a single record. -/
def Segment.Sized (s : Segment) (segmentBytes : Nat) (merged : List Nat) : Prop :=
  s.baseOffset ∉ merged → s.log.length ≤ segmentBytes ∨ ∃ r, r.Fits ∧ s.log = encodeAll [r]

/-- A segment with the log of one record holds that record. -/
theorem Segment.Holds.eq_singleton (h : s.Holds rs) {r : Record} (hr : r.Fits)
    (hlog : s.log = encodeAll [r]) : rs = [r] := by
  have hfile : s.log = [] ++ ((encodeAll [r] ++ []) ++ []) := by simp [hlog]
  have hlimit : s.sizeBytes = ([] : Bytes).length + (encodeAll [r] ++ []).length := by
    rw [h.size, hlog]
    simp
  have hwalk : s.walk = _ := RecordCursor.walk_encoded .clean hfile hlimit fun x hx => by
    rw [List.mem_singleton.mp hx]
    exact ⟨hr.valid, le_readWindow hr⟩
  rw [← h.records, Segment.records, hwalk, RecordCursor.map_snd_positioned]

/-! ### Appending -/

def Partition.Sized (p : Partition) (segmentBytes : Nat) (merged : List Nat) : Prop :=
  ∀ s ∈ p.segments, s.Sized segmentBytes merged

/-- Making room seals the active segment or leaves the segments as they are. -/
theorem Appending.makeRoom_sealed (st : Appending) (offset need : Nat) :
    (∀ s ∈ (st.makeRoom offset need).committed.sealedSegments, s ∈ st.committed.segments) ∧
      (st.makeRoom offset need).partition.segmentBytes = st.partition.segmentBytes := by
  unfold Appending.makeRoom
  dsimp only
  split
  · refine ⟨fun s hs => hs, ?_⟩
    show (st.partition.commitBatch st.batch).segmentBytes = _
    unfold Partition.commitBatch
    split <;> rfl
  · exact ⟨fun s hs => List.mem_append_left _ hs, rfl⟩

section
variable {segmentBytes : Nat} {merged : List Nat} {parts : List Part} {tail : List Record}
    {now : Int64} {st st' : Appending} {records : List AppendRecord} {p p' : Partition}

/-- A record is written where it fits, or alone. -/
theorem Appending.Holds.write_sized (h : st.Holds parts tail)
    (hs : st.committed.Sized segmentBytes merged)
    (hsb : st.partition.segmentBytes.toNat = segmentBytes) {r : AppendRecord} (hr : r.Fits)
    {offset : Nat} (ho : st.next ≤ offset) (hw : st.write now r offset = some st') :
    st'.committed.Sized segmentBytes merged ∧ st'.partition.segmentBytes.toNat = segmentBytes := by
  obtain ⟨_, _, _, hproper, _, _, _, hroom⟩ :=
    h.makeRoom ho (recordDiskSize (r.key.map List.length) r.value.length)
  obtain ⟨hgrown, _, _, _, hmax⟩ := Appending.grown_write hw hproper
  obtain ⟨hsealed, hbytes⟩ := st.makeRoom_sealed offset
    (recordDiskSize (r.key.map List.length) r.value.length)
  have hsize : (encodeRecord (r.stored now offset)).length =
      recordDiskSize (r.key.map List.length) r.value.length := (recordDiskSize_eq _).symm
  refine ⟨fun s hmem => ?_, by rw [Appending.write_partition hw, hbytes, hsb]⟩
  rcases List.mem_append.mp hmem with hmem | hmem
  · exact hs s (hsealed s (hgrown.sealedSegments ▸ hmem))
  · rw [List.mem_singleton.mp hmem]
    intro _
    rw [hsb] at hroom
    rcases Nat.le_total (recordDiskSize (r.key.map List.length) r.value.length) segmentBytes
      with hfit | hlong
    · left
      rw [hgrown.log, List.length_append, hsize]
      omega
    · right
      have halone : (st.makeRoom offset (recordDiskSize (r.key.map List.length)
          r.value.length)).committed.active.log = [] := List.length_eq_zero_iff.mp (by omega)
      refine ⟨r.stored now offset, AppendRecord.fits_stored hr now (by omega), ?_⟩
      rw [hgrown.log, halone, List.nil_append, encodeAll_cons, encodeAll_nil, List.append_nil]

theorem Appending.Holds.foldlM_sized (hr : ∀ r ∈ records, r.Fits) (h : st.Holds parts tail)
    (hs : st.committed.Sized segmentBytes merged)
    (hsb : st.partition.segmentBytes.toNat = segmentBytes)
    (hfold : records.foldlM (Appending.append now) st = some st') :
    st'.committed.Sized segmentBytes merged ∧ st'.partition.segmentBytes.toNat = segmentBytes := by
  refine (foldlM_keeps (P := fun st => (∃ parts tail, st.Holds parts tail) ∧
    st.committed.Sized segmentBytes merged ∧ st.partition.segmentBytes.toNat = segmentBytes)
    (fun r hmem st st₁ ⟨⟨parts, tail, h⟩, hs, hsb⟩ hs₁ => ?_) ⟨⟨parts, tail, h⟩, hs, hsb⟩ hfold).2
  obtain ⟨parts₁, tail₁, -, h₁, -⟩ := h.append (hr r hmem) hs₁
  refine ⟨⟨parts₁, tail₁, h₁⟩, ?_⟩
  rcases Appending.append_cases hs₁ with ⟨_, hst⟩ | ⟨o, _, ho, hw⟩
  · rw [hst]
    exact ⟨hs, hsb⟩
  · exact h.write_sized hs hsb (hr r hmem) ho hw

/-- The segments and their size, which no fsync changes. -/
def Partition.layout (p : Partition) : List Segment × UInt64 := (p.segments, p.segmentBytes)

namespace Partition

theorem syncUpto_layout (p : Partition) (mark : WriteMark) :
    (p.syncUpto mark).layout = p.layout := by
  unfold Partition.syncUpto
  split <;> rfl

theorem settle_layout (p : Partition) (d : Durability) (wrote : Bool) :
    (p.settle d wrote).layout = p.layout := by
  unfold Partition.settle
  dsimp only
  split
  · exact p.syncUpto_layout _
  · rfl

theorem syncPending_layout (p : Partition) : p.syncPending.layout = p.layout := by
  unfold Partition.syncPending
  split
  · rfl
  · exact p.syncUpto_layout _

/-- The size of segments and the bound on them are a matter of the layout. -/
theorem Sized.of_layout {bytes : UInt64} (h : p.Sized segmentBytes merged ∧ p.segmentBytes = bytes)
    (hl : p'.layout = p.layout) : p'.Sized segmentBytes merged ∧ p'.segmentBytes = bytes := by
  obtain ⟨hsegs, hsame⟩ := Prod.ext_iff.mp hl
  refine ⟨fun s hs => h.1 s ?_, Eq.trans hsame h.2⟩
  have hmem : s ∈ p'.layout.1 := hs
  rwa [hsegs] at hmem

theorem Holds.appendBatch_sized (h : p.Holds parts tail) (hs : p.Sized segmentBytes merged)
    (hsb : p.segmentBytes.toNat = segmentBytes) (hr : ∀ r ∈ records, r.Fits) {d : Durability}
    {offsets : List Nat} (ha : p.appendBatch records d now = some (p', offsets)) :
    p'.Sized segmentBytes merged ∧ p'.segmentBytes.toNat = segmentBytes := by
  obtain ⟨st, hst, ha⟩ := Option.bind_eq_some_iff.mp ha
  cases ha
  have hstart : Appending.Holds ⟨p, {}, p.nextOffset, 0, []⟩ parts tail := ⟨h, rfl, fun _ => rfl⟩
  obtain ⟨hsized, hbytes⟩ := hstart.foldlM_sized hr hs hsb hst
  have hkept : st.committed.segmentBytes = st.partition.segmentBytes := by
    unfold Appending.committed Partition.commitBatch
    split <;> rfl
  obtain ⟨hsettled, hsame⟩ := Partition.Sized.of_layout ⟨hsized, rfl⟩
    (st.committed.settle_layout d (0 < st.fresh))
  refine ⟨hsettled, ?_⟩
  show (st.committed.settle d (0 < st.fresh)).segmentBytes.toNat = segmentBytes
  rw [hsame, hkept, hbytes]

end Partition

end

/-! ### Runs -/

/-- The partitions of all runs with a fixed segment size, and the bases that compactions gave
their output. A compaction may have read any earlier state; retention has unlinked the files it
dropped. -/
inductive Lived (segmentBytes : UInt64) : Partition → List Nat → Prop where
  | created {p : Partition} {flushEveryRecords : Nat}
    (h : Partition.open .empty segmentBytes flushEveryRecords = some p) : Lived segmentBytes p []
  | append {p p' : Partition} {merged : List Nat} {records : List AppendRecord} {d : Durability}
    {now : Int64} {offsets : List Nat} (h : Lived segmentBytes p merged)
    (hr : ∀ r ∈ records, r.Fits) (hs : p.appendBatch records d now = some (p', offsets)) :
    Lived segmentBytes p' merged
  | syncAll {p : Partition} {merged : List Nat} (h : Lived segmentBytes p merged) :
    Lived segmentBytes p.syncAll merged
  | syncPending {p : Partition} {merged : List Nat} (h : Lived segmentBytes p merged) :
    Lived segmentBytes p.syncPending merged
  | advanceTo {p : Partition} {merged : List Nat} {offset : Nat}
    (h : Lived segmentBytes p merged) (ho : offset ≤ u64Max) :
    Lived segmentBytes (p.advanceTo offset) merged
  | compact {q p p' : Partition} {merged : List Nat} {config : TopicConfig} {now : Int64}
    {c : Compacting} (h : Lived segmentBytes p merged)
    (hc : q.compactRead config now = some c) (hs : p.compactSwap c = some p') :
    Lived segmentBytes p' (c.output.baseOffset :: merged)
  | retain {p : Partition} {merged : List Nat} (h : Lived segmentBytes p merged)
    (victims : List Nat) : Lived segmentBytes (p.unlinkPlan victims) merged
  | reopen {p p' : Partition} {merged : List Nat} {n : Nat} {index : Option Bytes}
    {flushEveryRecords : Nat} (h : Lived segmentBytes p merged) (hn : p.durable ≤ n)
    (ho : Partition.open (p.crashed n index) segmentBytes flushEveryRecords = some p') :
    Lived segmentBytes p' merged

/-- What a partition looks like. -/
structure Partition.Represented (p : Partition) (segmentBytes : UInt64) (merged : List Nat) :
    Prop where
  bases : p.segments.Pairwise fun a b => a.baseOffset < b.baseOffset
  offsets : p.records.Pairwise fun a b => a.offset < b.offset
  between : p.segments.Pairwise fun a b => ∀ r ∈ a.records, r.offset < b.baseOffset
  next : ∀ r ∈ p.records, r.offset < p.nextOffset
  sizes : ∀ s ∈ p.segments, s.baseOffset ∉ merged →
    s.sizeBytes ≤ segmentBytes.toNat ∨ s.records.length = 1
  segments : ∀ s ∈ p.segments, s.Exact

theorem Partition.unlinkPlan_segments (p : Partition) (victims : List Nat) :
    (∀ s ∈ (p.unlinkPlan victims).segments, s ∈ p.segments) ∧
      (p.unlinkPlan victims).segmentBytes = p.segmentBytes := by
  unfold Partition.unlinkPlan
  dsimp only
  split
  · exact ⟨fun s hs => hs, rfl⟩
  · refine ⟨fun s hs => ?_, rfl⟩
    rcases List.mem_append.mp hs with hs | hs
    · exact List.mem_append_left _ (List.mem_filter.mp hs).1
    · exact List.mem_append_right _ hs

/-- A segment that comes back with a part of its records is no larger than it was. -/
theorem Segment.Sized.of_isPrefix {s' : Segment} {rs' : List Record}
    (h : s.Sized segmentBytes merged) (hs : s.Holds rs) (hs' : s'.Holds rs')
    (hbase : s'.baseOffset = s.baseOffset) (hpre : rs' <+: rs) : s'.Sized segmentBytes merged := by
  intro hnot
  rw [hbase] at hnot
  rcases h hnot with hfit | ⟨r, hr, hone⟩
  · left
    obtain ⟨more, rfl⟩ := hpre
    rw [hs.log, encodeAll_append, List.length_append] at hfit
    rw [hs'.log]
    omega
  · rw [hs.eq_singleton hr hone] at hpre
    rcases List.prefix_cons_iff.mp hpre with hnil | ⟨rest, hsame, hrest⟩
    · left
      rw [hs'.log, hnil]
      exact Nat.zero_le _
    · rw [List.prefix_nil.mp hrest] at hsame
      exact Or.inr ⟨r, hr, by rw [hs'.log, hsame]⟩

theorem Partition.Holds.sized_reopen {p' : Partition} {parts parts' : List Part}
    {tail : List Record} {n : Nat} (h : p.Holds parts tail)
    (h' : p'.Holds parts' (wholeWithin n tail)) (hsized : p.Sized segmentBytes merged)
    (houtline : parts'.map Part.outline = parts.map Part.outline)
    (hbase : p'.active.baseOffset = p.active.baseOffset) : p'.Sized segmentBytes merged := by
  intro s hs
  rcases List.mem_append.mp hs with hs | hs
  · rw [h'.segments] at hs
    obtain ⟨x', hx', rfl⟩ := List.mem_map.mp hs
    obtain ⟨x, hx, heq⟩ : ∃ x ∈ parts, Part.outline x = Part.outline x' := by
      have hmem : Part.outline x' ∈ parts.map Part.outline :=
        houtline ▸ List.mem_map_of_mem hx'
      simpa using hmem
    obtain ⟨hxbase, hrs⟩ := Prod.ext_iff.mp heq
    have hold := hsized x.1 (List.mem_append_left _ (h.segments ▸ List.mem_map_of_mem hx))
    exact hold.of_isPrefix (h.sealedHold x hx) (h'.sealedHold x' hx') hxbase.symm
      (hrs ▸ List.prefix_refl _)
  · rw [List.mem_singleton.mp hs]
    exact (hsized p.active (List.mem_append_right _ List.mem_cons_self)).of_isPrefix
      h.activeHolds h'.activeHolds hbase (wholeWithin_isPrefix n tail)

theorem Lived.holds {segmentBytes : UInt64} (h : Lived segmentBytes p merged) :
    ∃ parts tail, p.Holds parts tail ∧ p.Sized segmentBytes.toNat merged ∧
      p.segmentBytes = segmentBytes := by
  induction h with
  | created h =>
    cases (open_empty ..).symm.trans h
    obtain ⟨parts, tail, hp, _⟩ := (History.created (open_empty ..)).holds
    refine ⟨parts, tail, hp, fun s hs _ => Or.inl ?_, rfl⟩
    rw [List.mem_singleton.mp hs]
    exact Nat.zero_le _
  | append _ hr hs ih =>
    obtain ⟨parts, tail, hp, hsized, hsb⟩ := ih
    obtain ⟨parts', tail', hp', _⟩ := hp.appendBatch hr hs
    obtain ⟨hsized', hsb'⟩ := hp.appendBatch_sized hsized (congrArg _ hsb) hr hs
    exact ⟨parts', tail', hp', hsized', UInt64.toNat_inj.mp hsb'⟩
  | syncAll _ ih =>
    obtain ⟨parts, tail, hp, hsized⟩ := ih
    exact ⟨parts, tail, hp.syncAll,
      Partition.Sized.of_layout hsized (Partition.syncUpto_layout _ _)⟩
  | syncPending _ ih =>
    obtain ⟨parts, tail, hp, hsized⟩ := ih
    exact ⟨parts, tail, hp.syncPending,
      Partition.Sized.of_layout hsized (Partition.syncPending_layout _)⟩
  | advanceTo _ ho ih =>
    obtain ⟨parts, tail, hp, hsized, hsb⟩ := ih
    exact ⟨parts, tail, hp.advanceTo ho, hsized, hsb⟩
  | compact _ hc hs ih =>
    obtain ⟨parts, tail, hp, hsized, hsb⟩ := ih
    have hp' := hp.compact hc hs
    obtain ⟨rfl, _⟩ := Partition.compactSwap_eq hs
    refine ⟨_, tail, hp', fun s hmem hnot => ?_, hsb⟩
    rcases List.mem_append.mp hmem with hmem | hmem
    · rw [List.mem_singleton.mp hmem] at hnot
      exact absurd List.mem_cons_self hnot
    · exact hsized s (List.mem_append_right _ hmem) fun hm => hnot (List.mem_cons_of_mem _ hm)
  | retain _ victims ih =>
    obtain ⟨parts, tail, hp, hsized, hsb⟩ := ih
    obtain ⟨parts', _, hp'⟩ := hp.unlinkPlan victims
    obtain ⟨hsub, hsame⟩ := Partition.unlinkPlan_segments _ victims
    exact ⟨parts', tail, hp', fun s hs => hsized s (hsub s hs), hsame.trans hsb⟩
  | reopen _ _ ho ih =>
    obtain ⟨parts, tail, hp, hsized, _⟩ := ih
    obtain ⟨p', parts', hopen, hp', houtline, hbase, _, hsb⟩ := hp.reopen_outline _ _ _ _
    cases hopen.symm.trans ho
    exact ⟨parts', _, hp', hp.sized_reopen hp' hsized houtline hbase, hsb⟩

/-- **The representation invariant.** After every run of appends, syncs, retention, compactions
and reopenings with a fixed segment size, the bases of the segments increase strictly; so do the
offsets of the records, which lie between the base of their segment and the next one, and below
the end of the partition; a segment that no compaction wrote is no larger than the segment size,
or a single record; and every index is the one a full scan builds. -/
theorem representation_invariant {segmentBytes : UInt64} {p : Partition} {merged : List Nat}
    (h : Lived segmentBytes p merged) : p.Represented segmentBytes merged := by
  obtain ⟨parts, tail, hp, hsized, _⟩ := h.holds
  have hpart (s : Segment) (hs : s ∈ p.segments) : ∃ rs, s.Holds rs := by
    rw [hp.map_segments] at hs
    obtain ⟨x, hx, rfl⟩ := List.mem_map.mp hs
    exact ⟨x.2, hp.holdsAll x hx⟩
  have hordered := hp.ordered
  exact
    { bases := hp.stacked.ordered
      offsets := hp.records ▸ hp.sorted
      between := by
        rw [hp.map_segments]
        refine List.pairwise_map.mpr (hordered.imp_of_mem fun {a b} ha _ hab => ?_)
        rw [(hp.holdsAll a ha).records]
        exact hab.2
      next := hp.records ▸ hp.lt_next
      sizes := by
        intro s hs hnot
        obtain ⟨rs, hrs⟩ := hpart s hs
        rw [hrs.size, hrs.records]
        rcases hsized s hs hnot with hfit | ⟨r, hr, hone⟩
        · exact Or.inl hfit
        · rw [hrs.eq_singleton hr hone]
          exact Or.inr rfl
      segments := by
        intro s hs
        obtain ⟨rs, hrs⟩ := hpart s hs
        exact hrs.exactly }

theorem sparse_lived : ∃ merged, Lived 1 sparsePartition merged := by
  have hsome : sparse = some sparsePartition := (Option.some_get sparse_isSome).symm
  generalize sparsePartition = p at hsome
  unfold sparse at hsome
  obtain ⟨⟨q, offsets⟩, hq, hsome⟩ := Option.bind_eq_some_iff.mp hsome
  obtain ⟨c, hc, hs⟩ := Option.bind_eq_some_iff.mp hsome
  have hsmall : ∀ r ∈ [(⟨some [1], [1], some 0, none⟩ : AppendRecord),
      ⟨some [1], [2], some 100, none⟩, ⟨none, [3], some 100, none⟩], r.Small := by decide
  exact ⟨_, .compact (.append (.created (open_empty 1 1)) (fun r hr => (hsmall r hr).fits) hq)
    hc hs⟩

/-- A compacted partition of segments with one record each. -/
theorem representation_invariant_sparse : ∃ merged, sparsePartition.Represented 1 merged := by
  obtain ⟨merged, h⟩ := sparse_lived
  exact ⟨merged, representation_invariant h⟩

end EventStream.Storage
