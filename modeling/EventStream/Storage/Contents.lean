import EventStream.Storage.Partition

/-! What a partition holds.

Seen from outside a partition is a list of records in the order of their offsets. `Holds`
ties the files, indexes and counters of a partition to such a list, segment by segment. An
append puts its new records at the end of the list (`Holds.appendBatch`), and a consumer
that reads from the start gets the list (`Holds.consume`). -/
namespace EventStream.Storage

/-- The segment's files and index are those of the records `rs`. -/
structure Segment.Holds (s : Segment) (rs : List Record) : Prop where
  log : s.log = encodeAll rs
  size : s.sizeBytes = s.log.length
  index : s.index = sparseFrom s.baseOffset none 0 rs
  indexFile : s.indexFile = encodeIndex s.index
  fits : ∀ r ∈ rs, r.Fits
  sorted : rs.Pairwise fun a b => a.offset < b.offset
  base : ∀ r ∈ rs, s.baseOffset ≤ r.offset
  short : s.log.length < 256 ^ 8

/-- A segment with what it holds. -/
abbrev Part := Segment × List Record

def Part.Before (a b : Part) : Prop :=
  a.1.baseOffset < b.1.baseOffset ∧ ∀ r ∈ a.2, r.offset < b.1.baseOffset

/-- The records of all segments. -/
def contents (parts : List Part) : List Record := parts.flatMap Prod.snd

/-- The sealed segments are `parts` and the active one holds `tail`. -/
structure Partition.Laid (p : Partition) (parts : List Part) (tail : List Record) : Prop where
  segments : p.sealedSegments = parts.map Prod.fst
  sealedHold : ∀ x ∈ parts, x.1.Holds x.2
  activeHolds : p.active.Holds tail
  ordered : (parts ++ [(p.active, tail)]).Pairwise Part.Before
  start : ∀ x ∈ parts ++ [(p.active, tail)], p.startOffset ≤ x.1.baseOffset
  appenderBase : p.appender.baseOffset = p.active.baseOffset
  appenderSize : p.appender.sizeBytes = p.active.log.length
  appenderLast : p.appender.lastIndexPos = lastEntry none p.active.index

structure Partition.Holds (p : Partition) (parts : List Part) (tail : List Record) : Prop
    extends p.Laid parts tail where
  below : ∀ r ∈ tail, r.offset < p.nextOffset
  baseNext : p.active.baseOffset ≤ p.nextOffset
  nextMax : p.nextOffset ≤ u64Max

variable {rs tail : List Record} {p p' : Partition} {parts : List Part} {r : AppendRecord}
    {now : Int64} {records : List AppendRecord} {st st' : Appending} {offset target : Nat}
    {s : Segment} {b : PendingBatch}

theorem Segment.Holds.located (h : s.Holds rs) :
    Located s.baseOffset rs s.index := h.index ▸ located_sparseFrom s.baseOffset none [] rs

theorem Segment.Holds.readable (h : s.Holds rs) (hsmall : ∀ r ∈ rs, r.Small) : s.Readable rs where
  log := h.log ▸ List.prefix_refl _
  size := h.log ▸ h.size
  index := h.located
  fits := fun r hr => ⟨(h.fits r hr).valid, hsmall r hr⟩
  sorted := h.sorted
  base := h.base

theorem Segment.holds_openEmpty (base : Nat) : (Segment.openEmpty base).Holds [] where
  log := rfl
  size := rfl
  index := rfl
  indexFile := rfl
  fits := fun r hr => absurd hr List.not_mem_nil
  sorted := List.Pairwise.nil
  base := fun r hr => absurd hr List.not_mem_nil
  short := by simp [Segment.openEmpty]

/-! ### One more record -/

/-- The active segment of `p'` is that of `p` with `r` written behind it. -/
structure Partition.Grown (p p' : Partition) (r : Record) : Prop where
  sealedSegments : p'.sealedSegments = p.sealedSegments
  startOffset : p'.startOffset = p.startOffset
  baseOffset : p'.active.baseOffset = p.active.baseOffset
  log : p'.active.log = p.active.log ++ encodeRecord r
  sizeBytes : p'.active.sizeBytes = p.appender.sizeBytes + (encodeRecord r).length
  index : p'.active.index = p.active.index ++
    sparseFrom p.appender.baseOffset p.appender.lastIndexPos p.appender.sizeBytes [r]
  indexFile : p'.active.indexFile = p.active.indexFile ++ encodeIndex
    (sparseFrom p.appender.baseOffset p.appender.lastIndexPos p.appender.sizeBytes [r])
  appenderBase : p'.appender.baseOffset = p.appender.baseOffset
  appenderSize : p'.appender.sizeBytes = p.appender.sizeBytes + (encodeRecord r).length
  appenderLast : p'.appender.lastIndexPos = lastEntry p.appender.lastIndexPos
    (sparseFrom p.appender.baseOffset p.appender.lastIndexPos p.appender.sizeBytes [r])

theorem Partition.Laid.grow {r : Record} (h : p.Laid parts tail) (hg : p.Grown p' r) (hr : r.Fits)
    (hbase : p.active.baseOffset ≤ r.offset) (hlast : ∀ x ∈ tail, x.offset < r.offset)
    (hshort : (p.active.log ++ encodeRecord r).length < 256 ^ 8) : p'.Laid parts (tail ++ [r]) := by
  have hindex : p'.active.index = sparseFrom p'.active.baseOffset none 0 (tail ++ [r]) := by
    rw [hg.index, hg.baseOffset, sparseFrom_append, ← h.activeHolds.index, ← h.appenderLast,
      Nat.zero_add, ← h.activeHolds.log, h.appenderBase, h.appenderSize]
  have hactive : p'.active.Holds (tail ++ [r]) :=
    { log := by rw [hg.log, h.activeHolds.log, encodeAll_append, encodeAll_cons, encodeAll_nil,
        List.append_nil]
      size := by rw [hg.sizeBytes, hg.log, h.appenderSize, List.length_append]
      index := hindex
      indexFile := by rw [hg.indexFile, hg.index, h.activeHolds.indexFile, encodeIndex_append]
      fits := by
        intro x hx
        rcases List.mem_append.mp hx with hx | hx
        · exact h.activeHolds.fits x hx
        · exact List.mem_singleton.mp hx ▸ hr
      sorted := by
        refine List.pairwise_append.mpr ⟨h.activeHolds.sorted, List.pairwise_singleton _ _, ?_⟩
        intro x hx y hy
        rw [List.mem_singleton.mp hy]
        exact hlast x hx
      base := by
        rw [hg.baseOffset]
        intro x hx
        rcases List.mem_append.mp hx with hx | hx
        · exact h.activeHolds.base x hx
        · rw [List.mem_singleton.mp hx]
          exact hbase
      short := by rw [hg.log]; exact hshort }
  have hold := List.pairwise_append.mp h.ordered
  exact
    { segments := hg.sealedSegments.trans h.segments
      sealedHold := h.sealedHold
      activeHolds := hactive
      ordered := by
        refine List.pairwise_append.mpr ⟨hold.1, List.pairwise_singleton _ _, ?_⟩
        intro x hx y hy
        rw [List.mem_singleton.mp hy]
        have := hold.2.2 x hx _ List.mem_cons_self
        exact ⟨hg.baseOffset ▸ this.1, hg.baseOffset ▸ this.2⟩
      start := by
        rw [hg.startOffset]
        intro x hx
        rcases List.mem_append.mp hx with hx | hx
        · exact h.start x (List.mem_append_left _ hx)
        · rw [List.mem_singleton.mp hx]
          show _ ≤ p'.active.baseOffset
          rw [hg.baseOffset]
          exact h.start _ (List.mem_append_right _ List.mem_cons_self)
      appenderBase := by rw [hg.appenderBase, hg.baseOffset, h.appenderBase]
      appenderSize := by rw [hg.appenderSize, hg.log, h.appenderSize, List.length_append]
      appenderLast := by rw [hg.appenderLast, hg.index, lastEntry_append, ← h.appenderLast] }

theorem Partition.Holds.roll (h : p.Holds parts tail) {newBase : Nat}
    (hnew : p.nextOffset ≤ newBase) (hsize : 0 < p.active.log.length) :
    (p.roll newBase).Laid (parts ++ [(p.active, tail)]) [] := by
  -- A segment is sealed only if it holds a record, so the new base lies above the old one.
  obtain ⟨r, hr⟩ : ∃ r, r ∈ tail := by
    cases tail with
    | nil => rw [h.activeHolds.log] at hsize; exact absurd hsize (Nat.lt_irrefl _)
    | cons r _ => exact ⟨r, List.mem_cons_self⟩
  have hbase : p.active.baseOffset < newBase :=
    Nat.lt_of_le_of_lt (h.activeHolds.base r hr) (Nat.lt_of_lt_of_le (h.below r hr) hnew)
  have hactive : Part.Before (p.active, tail) (Segment.openEmpty newBase, []) :=
    ⟨hbase, fun r hr => Nat.lt_of_lt_of_le (h.below r hr) hnew⟩
  have hold := List.pairwise_append.mp h.ordered
  exact
    { segments := by
        show p.sealedSegments ++ [p.active] = _
        rw [h.segments, List.map_append, List.map_singleton]
      sealedHold := by
        intro x hx
        rcases List.mem_append.mp hx with hx | hx
        · exact h.sealedHold x hx
        · rw [List.mem_singleton.mp hx]
          exact h.activeHolds
      activeHolds := Segment.holds_openEmpty newBase
      ordered := by
        refine List.pairwise_append.mpr ⟨h.ordered, List.pairwise_singleton _ _, ?_⟩
        intro x hx y hy
        rw [List.mem_singleton.mp hy]
        rcases List.mem_append.mp hx with hx | hx
        · have := hold.2.2 x hx _ List.mem_cons_self
          exact ⟨Nat.lt_trans this.1 hbase, fun r hr => Nat.lt_trans (this.2 r hr) hbase⟩
        · rw [List.mem_singleton.mp hx]
          exact hactive
      start := by
        intro x hx
        rcases List.mem_append.mp hx with hx | hx
        · exact h.start x hx
        · rw [List.mem_singleton.mp hx]
          exact Nat.le_trans (h.start (p.active, tail) (by simp)) (Nat.le_of_lt hbase)
      appenderBase := rfl
      appenderSize := rfl
      appenderLast := rfl }

/-! ### Appending a batch -/

section Observe
variable (s : Segment) (b : PendingBatch)

@[simp] theorem Segment.observe_baseOffset : (s.observe b).baseOffset = s.baseOffset := by
  unfold Segment.observe; split <;> rfl

@[simp] theorem Segment.observe_log : (s.observe b).log = s.log := by
  unfold Segment.observe; split <;> rfl

@[simp] theorem Segment.observe_indexFile : (s.observe b).indexFile = s.indexFile := by
  unfold Segment.observe; split <;> rfl

@[simp] theorem Segment.observe_sizeBytes : (s.observe b).sizeBytes = s.sizeBytes := by
  unfold Segment.observe; split <;> rfl

@[simp] theorem Segment.observe_index : (s.observe b).index = s.index := by
  unfold Segment.observe; split <;> rfl

end Observe

theorem Partition.commitBatch_base (p : Partition) (b : PendingBatch) :
    (p.commitBatch b).active.baseOffset = p.active.baseOffset := by
  unfold Partition.commitBatch
  split
  · rfl
  · exact Segment.observe_baseOffset _ _

/-- A batch without records is the empty one. -/
def PendingBatch.Proper (b : PendingBatch) : Prop := b.count = 0 → b = {}

/-- What a commit does to the parts of a partition that hold records. -/
structure Partition.Committed (p q : Partition) (b : PendingBatch) : Prop where
  sealedSegments : q.sealedSegments = p.sealedSegments
  startOffset : q.startOffset = p.startOffset
  segmentBytes : q.segmentBytes = p.segmentBytes
  baseOffset : q.active.baseOffset = p.active.baseOffset
  log : q.active.log = p.active.log ++ b.log
  indexFile : q.active.indexFile = p.active.indexFile ++ b.index
  index : q.active.index = p.active.index ++ b.entries
  appenderBase : q.appender.baseOffset = p.appender.baseOffset
  appenderSize : q.appender.sizeBytes = p.appender.sizeBytes + b.log.length
  appenderLast : q.appender.lastIndexPos = b.lastIndexPos.or p.appender.lastIndexPos

theorem Partition.committed (p : Partition) (hb : b.Proper) : p.Committed (p.commitBatch b) b := by
  unfold Partition.commitBatch
  split
  · rename_i hzero
    rw [hb hzero]
    constructor <;> simp
  · constructor <;> simp

theorem PendingBatch.proper_push (b : PendingBatch) (app : SegmentAppender) (r : Record)
    (next : Nat) : (b.push app r next).Proper := fun h => nomatch h

/-- The new entries of a batch into which `r` was pushed. -/
theorem PendingBatch.push_entries (b : PendingBatch) (app : SegmentAppender) (r : Record)
    (next : Nat) :
    (b.push app r next).entries = b.entries ++ sparseFrom app.baseOffset
      (b.lastIndexPos.or app.lastIndexPos) (app.sizeBytes + b.log.length) [r] := by
  simp only [PendingBatch.push, sparseFrom]

theorem PendingBatch.push_lastIndexPos (b : PendingBatch) (app : SegmentAppender) (r : Record)
    (next : Nat) :
    (b.push app r next).lastIndexPos.or app.lastIndexPos =
      lastEntry (b.lastIndexPos.or app.lastIndexPos) (sparseFrom app.baseOffset
        (b.lastIndexPos.or app.lastIndexPos) (app.sizeBytes + b.log.length) [r]) := by
  simp only [PendingBatch.push, sparseFrom]
  split <;> simp [lastEntry]

/-- A record pushed into the batch ends up behind what the batch held before. -/
theorem Partition.grown_push (p : Partition) (hb : b.Proper) (r : Record) (next : Nat) :
    (p.commitBatch b).Grown (p.commitBatch (b.push p.appender r next)) r := by
  have hc := p.committed hb
  have hc' := p.committed (b.proper_push p.appender r next)
  have hbytes : (b.push p.appender r next).log = b.log ++ encodeRecord r := rfl
  constructor
  · rw [hc.sealedSegments, hc'.sealedSegments]
  · rw [hc.startOffset, hc'.startOffset]
  · rw [hc.baseOffset, hc'.baseOffset]
  · rw [hc.log, hc'.log, hbytes, List.append_assoc]
  · rw [hc.appenderSize]
    simp [Partition.commitBatch, PendingBatch.push, Nat.add_assoc]
  · rw [hc'.index, hc.index, hc.appenderLast, hc.appenderSize, hc.appenderBase,
      PendingBatch.push_entries, List.append_assoc]
  · rw [hc'.indexFile, hc.indexFile, hc.appenderLast, hc.appenderSize, hc.appenderBase,
      List.append_assoc]
    simp only [PendingBatch.push, sparseFrom]
  · rw [hc.appenderBase, hc'.appenderBase]
  · rw [hc.appenderSize, hc'.appenderSize, hbytes, List.length_append, Nat.add_assoc]
  · rw [hc'.appenderLast, hc.appenderLast, hc.appenderSize, hc.appenderBase,
      PendingBatch.push_lastIndexPos]

/-- The offset a record is written at, unless it was applied before. -/
def AppendRecord.place (r : AppendRecord) (next : Nat) : Option Nat :=
  match r.offset with
  | some o => if o < next then none else some o
  | none => some next

/-- The records an append writes into a partition that ends at `next`. -/
def assign (now : Int64) : Nat → List AppendRecord → List Record
  | _, [] => []
  | next, r :: rs =>
    match r.place next with
    | none => assign now next rs
    | some o => r.stored now o :: assign now (o + 1) rs

/-- The end of the partition after an append. -/
def endAfter : Nat → List AppendRecord → Nat
  | next, [] => next
  | next, r :: rs =>
    match r.place next with
    | none => endAfter next rs
    | some o => endAfter (o + 1) rs

/-- A record that a scan of its log reads. -/
def AppendRecord.Fits (r : AppendRecord) : Prop :=
  recordDiskSize (r.key.map List.length) r.value.length ≤ readWindowBytes

/-- A record that the smallest read window holds. -/
def AppendRecord.Small (r : AppendRecord) : Prop :=
  recordDiskSize (r.key.map List.length) r.value.length ≤ maxRecordBytes

instance (r : AppendRecord) : Decidable r.Small := Nat.decLe _ _

theorem AppendRecord.Small.fits (h : r.Small) : r.Fits :=
  Nat.le_trans h (by decide)

theorem AppendRecord.Small.stored (h : r.Small) (now : Int64) (offset : Nat) :
    (r.stored now offset).Small := by
  rw [Record.Small, ← recordDiskSize_eq]
  exact h

theorem small_assign {next : Nat} (h : ∀ r ∈ records, r.Small) :
    ∀ r ∈ assign now next records, r.Small := by
  induction records generalizing next with
  | nil => exact fun r hr => absurd hr List.not_mem_nil
  | cons a records ih =>
    have hrest (next : Nat) := @ih next fun r hr => h r (List.mem_cons_of_mem _ hr)
    intro r hr
    rw [assign] at hr
    split at hr
    · exact hrest _ r hr
    · rcases List.mem_cons.mp hr with rfl | hr
      · exact (h a List.mem_cons_self).stored now _
      · exact hrest _ r hr

/-- The partition once what is pending is committed. -/
def Appending.committed (st : Appending) : Partition := st.partition.commitBatch st.batch

/-- Between two rounds of the loop: committing what is pending would give a partition that
holds the records written so far. -/
structure Appending.Holds (st : Appending) (parts : List Part) (tail : List Record) : Prop where
  holds : st.committed.Holds parts tail
  next : st.next = st.committed.nextOffset
  proper : st.batch.Proper

/-- After making room there is room: the record fits, or the segment is empty. -/
theorem Appending.Holds.makeRoom (h : st.Holds parts tail) (ho : st.next ≤ offset) (need : Nat) :
    ∃ parts' tail',
      (st.makeRoom offset need).committed.Laid parts' tail' ∧
      (st.makeRoom offset need).batch.Proper ∧
      contents parts' ++ tail' = contents parts ++ tail ∧
      (∀ r ∈ tail', r.offset < offset) ∧
      (st.makeRoom offset need).committed.active.baseOffset ≤ offset ∧
      (st.makeRoom offset need).committed.active.log.length + need ≤
        max need st.partition.segmentBytes.toNat := by
  have hpending : st.partition.appender.sizeBytes + st.batch.log.length =
      st.committed.active.log.length := by
    rw [← (st.partition.committed h.proper).appenderSize]
    exact h.holds.appenderSize
  have hnext : st.committed.nextOffset ≤ offset := h.next ▸ ho
  unfold Appending.makeRoom
  dsimp only
  split
  · rename_i hroll
    refine ⟨_, [], h.holds.roll hnext (by omega), fun _ => rfl, ?_,
      fun r hr => absurd hr List.not_mem_nil, Nat.le_refl _, ?_⟩
    · simp [contents]
    · show (0 : Nat) + need ≤ _
      omega
  · rename_i hfits
    exact ⟨parts, tail, h.holds.toLaid, h.proper, rfl,
      fun r hr => Nat.lt_of_lt_of_le (h.holds.below r hr) hnext,
      Nat.le_trans h.holds.baseNext hnext, by omega⟩

theorem AppendRecord.fits_stored (hr : r.Fits) (now : Int64) (ho : offset < u64Max) :
    (r.stored now offset).Fits where
  offset := ho
  size := by
    rw [← recordDiskSize_eq]
    exact hr

namespace Appending

/-- Writing a record makes room for it and lets the active segment grow by it. -/
theorem grown_write (hw : st.write now r offset = some st') (hproper : (st.makeRoom offset
      (recordDiskSize (r.key.map List.length) r.value.length)).batch.Proper) :
    (st.makeRoom offset (recordDiskSize (r.key.map List.length)
      r.value.length)).committed.Grown st'.committed (r.stored now offset) ∧
    st'.batch.Proper ∧ st'.next = offset + 1 ∧ st'.committed.nextOffset = offset + 1 ∧
    offset + 1 ≤ u64Max := by
  obtain ⟨next, hnext, hst⟩ := Option.bind_eq_some_iff.mp hw
  obtain ⟨rfl, hmax⟩ := addU64_eq_some.mp hnext
  cases hst
  exact ⟨Partition.grown_push _ hproper _ _, PendingBatch.proper_push _ _ _ _, rfl, rfl, hmax⟩

/-- One record is written behind all others. -/
theorem Holds.write (h : st.Holds parts tail) (hr : r.Fits) (ho : st.next ≤ offset)
    (hw : st.write now r offset = some st') :
    ∃ parts' tail', st'.Holds parts' tail' ∧
      contents parts' ++ tail' = contents parts ++ tail ++ [r.stored now offset] ∧
      st'.next = offset + 1 := by
  obtain ⟨parts', tail', hlaid, hproper, hcontents, hbelow, hbase, hroom⟩ :=
    h.makeRoom ho (recordDiskSize (r.key.map List.length) r.value.length)
  obtain ⟨hgrown, hproper', hnext, hend, hmax⟩ := Appending.grown_write hw hproper
  have hsize : (encodeRecord (r.stored now offset)).length =
      recordDiskSize (r.key.map List.length) r.value.length := (recordDiskSize_eq _).symm
  have hfits : (r.stored now offset).Fits := AppendRecord.fits_stored hr now (by omega)
  refine ⟨parts', tail' ++ [r.stored now offset],
    ⟨⟨hlaid.grow hgrown hfits hbase hbelow ?_, ?_, ?_, hend ▸ hmax⟩, hnext.trans hend.symm,
      hproper'⟩, ?_, hnext⟩
  · -- The segment stays within `segment_bytes`, or it holds this record alone.
    have hu := st.partition.segmentBytes.toNat_lt
    have hsmall : recordDiskSize (r.key.map List.length) r.value.length ≤ 256 * 1024 := hr
    rw [List.length_append, hsize]
    omega
  · intro x hx
    rw [hend]
    rcases List.mem_append.mp hx with hx | hx
    · exact Nat.lt_succ_of_lt (hbelow x hx)
    · rw [List.mem_singleton.mp hx]
      exact Nat.lt_succ_self _
  · rw [hgrown.baseOffset, hend]
    exact Nat.le_succ_of_le hbase
  · rw [← List.append_assoc, hcontents]

/-- One round of the loop skips the record, or writes it at the offset it has in this place. -/
theorem append_cases (h : Appending.append now st r = some st') :
    (r.place st.next = none ∧ st' = { st with offsets := st'.offsets }) ∨
      ∃ o, r.place st.next = some o ∧ st.next ≤ o ∧ st.write now r o = some st' := by
  unfold Appending.append at h
  unfold AppendRecord.place
  cases hoffset : r.offset with
  | none =>
    rw [hoffset] at h
    exact .inr ⟨st.next, rfl, Nat.le_refl _, h⟩
  | some o =>
    rw [hoffset] at h
    dsimp only at h ⊢
    by_cases hlow : o < st.next
    · rw [if_pos hlow] at h ⊢
      cases h
      exact .inl ⟨rfl, rfl⟩
    · rw [if_neg hlow] at h ⊢
      exact .inr ⟨o, rfl, Nat.le_of_not_lt hlow, h⟩

/-- One round of the loop writes the first record that `assign` lists, if the record is new. -/
theorem Holds.append {st st' : Appending} {parts : List Part} {tail : List Record}
    (h : st.Holds parts tail) {now : Int64} {r : AppendRecord} (hr : r.Fits)
    (hs : Appending.append now st r = some st') :
    ∃ parts' tail' new, st'.Holds parts' tail' ∧
      contents parts' ++ tail' = contents parts ++ tail ++ new ∧
      (∀ rs, assign now st.next (r :: rs) = new ++ assign now st'.next rs) ∧
      ∀ rs, endAfter st.next (r :: rs) = endAfter st'.next rs := by
  rcases Appending.append_cases hs with ⟨hplace, hst⟩ | ⟨o, hplace, ho, hw⟩
  · rw [hst]
    exact ⟨parts, tail, [], ⟨h.holds, h.next, h.proper⟩, (List.append_nil _).symm,
      fun rs => by rw [assign, hplace]; rfl, fun rs => by rw [endAfter, hplace]⟩
  · obtain ⟨parts', tail', hholds, hcontents, hnext⟩ := h.write hr ho hw
    exact ⟨parts', tail', _, hholds, hcontents, fun rs => by rw [assign, hplace, hnext]; rfl,
      fun rs => by rw [endAfter, hplace, hnext]⟩

theorem Holds.foldlM (hr : ∀ r ∈ records, r.Fits) (h : st.Holds parts tail)
    (hs : records.foldlM (Appending.append now) st = some st') :
    ∃ parts' tail', st'.Holds parts' tail' ∧
      contents parts' ++ tail' = contents parts ++ tail ++ assign now st.next records ∧
      st'.next = endAfter st.next records := by
  induction records generalizing st parts tail with
  | nil =>
    cases hs
    exact ⟨parts, tail, h, (List.append_nil _).symm, rfl⟩
  | cons r records ih =>
    rw [List.foldlM_cons] at hs
    obtain ⟨st1, hs1, hs⟩ := Option.bind_eq_some_iff.mp hs
    obtain ⟨parts1, tail1, new, h1, hcontents1, hassign, hend⟩ :=
      h.append (hr r List.mem_cons_self) hs1
    obtain ⟨parts', tail', h', hcontents, hnext⟩ :=
      ih (fun r hr' => hr r (List.mem_cons_of_mem _ hr')) h1 hs
    refine ⟨parts', tail', h', ?_, by rw [hnext, hend]⟩
    rw [hcontents, hcontents1, hassign, List.append_assoc]

end Appending

namespace Partition

theorem Holds.syncUpto (h : p.Holds parts tail) (mark : WriteMark) :
    (p.syncUpto mark).Holds parts tail := by
  unfold Partition.syncUpto
  split
  · exact h
  · exact { h with segments := h.segments }

theorem Holds.settle (h : p.Holds parts tail) (d : Durability) (wrote : Bool) :
    (p.settle d wrote).Holds parts tail := by
  unfold Partition.settle
  dsimp only
  split
  · exact h.syncUpto _
  · exact h

@[simp] theorem syncUpto_nextOffset (p : Partition) (mark : WriteMark) :
    (p.syncUpto mark).nextOffset = p.nextOffset := by
  unfold Partition.syncUpto
  split <;> rfl

@[simp] theorem settle_nextOffset (p : Partition) (d : Durability) (wrote : Bool) :
    (p.settle d wrote).nextOffset = p.nextOffset := by
  unfold Partition.settle
  dsimp only
  split
  · exact p.syncUpto_nextOffset _
  · rfl

/-- An append puts its new records behind those the partition holds. -/
theorem Holds.appendBatch (h : p.Holds parts tail) (hr : ∀ r ∈ records, r.Fits)
    {d : Durability} {offsets : List Nat} (hs : p.appendBatch records d now = some (p', offsets)) :
    ∃ parts' tail', p'.Holds parts' tail' ∧
      contents parts' ++ tail' = contents parts ++ tail ++ assign now p.nextOffset records ∧
      p'.nextOffset = endAfter p.nextOffset records := by
  obtain ⟨st, hst, hs⟩ := Option.bind_eq_some_iff.mp hs
  cases hs
  have hstart : Appending.Holds ⟨p, {}, p.nextOffset, 0, []⟩ parts tail := ⟨h, rfl, fun _ => rfl⟩
  obtain ⟨parts', tail', h', hcontents, hnext⟩ := hstart.foldlM hr hst
  refine ⟨parts', tail', h'.holds.settle _ _, hcontents, ?_⟩
  rw [Partition.settle_nextOffset]
  exact h'.next.symm.trans hnext

end Partition

/-! ### Reading -/

@[simp] theorem contents_cons (x : Part) (parts : List Part) :
    contents (x :: parts) = x.2 ++ contents parts := rfl

@[simp] theorem contents_append (xs ys : List Part) :
    contents (xs ++ ys) = contents xs ++ contents ys := List.flatMap_append

theorem liveFrom_append (target : Nat) (xs ys : List Record) :
    liveFrom target (xs ++ ys) = liveFrom target xs ++ liveFrom target ys :=
  List.filter_append ..

theorem mem_liveFrom {r : Record} : r ∈ liveFrom target rs ↔ r ∈ rs ∧ target ≤ r.offset := by
  simp [liveFrom]

theorem liveFrom_eq_nil (h : ∀ r ∈ rs, r.offset < target) : liveFrom target rs = [] :=
  List.filter_eq_nil_iff.mpr fun r hr => by simpa using h r hr

theorem liveFrom_eq_self (h : ∀ r ∈ rs, target ≤ r.offset) : liveFrom target rs = rs :=
  List.filter_eq_self.mpr fun r hr => by simpa using h r hr

theorem mem_contents {r : Record} : r ∈ contents parts ↔ ∃ x ∈ parts, r ∈ x.2 := List.mem_flatMap

/-- Across segments the records are in the order of their offsets. -/
theorem contents_sorted (hh : ∀ x ∈ parts, x.1.Holds x.2) (ho : parts.Pairwise Part.Before) :
    (contents parts).Pairwise fun a b => a.offset < b.offset := by
  induction parts with
  | nil => exact List.Pairwise.nil
  | cons x parts ih =>
    obtain ⟨hx, ho⟩ := List.pairwise_cons.mp ho
    refine List.pairwise_append.mpr ⟨(hh x List.mem_cons_self).sorted,
      ih (fun y hy => hh y (List.mem_cons_of_mem _ hy)) ho, fun a ha b hb => ?_⟩
    obtain ⟨y, hy, hby⟩ := mem_contents.mp hb
    exact Nat.lt_of_lt_of_le ((hx y hy).2 a ha)
      ((hh y (List.mem_cons_of_mem _ hy)).base b hby)

/-- The segments a read skips hold nothing at or above its target. -/
theorem segmentIndexFor_skips (ho : parts.Pairwise Part.Before) (target : Nat) :
    ∃ skipped rest, parts = skipped ++ rest ∧
      (parts.map Prod.fst).drop (segmentIndexFor (parts.map Prod.fst) target) =
        rest.map Prod.fst ∧
      (parts ≠ [] → rest ≠ []) ∧ ∀ r ∈ contents skipped, r.offset < target := by
  induction parts with
  | nil => exact ⟨[], [], rfl, by simp, id, fun r hr => absurd hr List.not_mem_nil⟩
  | cons x parts ih =>
    have hhere (hidx : segmentIndexFor ((x :: parts).map Prod.fst) target = 0) :
        ∃ skipped rest, x :: parts = skipped ++ rest ∧
          ((x :: parts).map Prod.fst).drop (segmentIndexFor ((x :: parts).map Prod.fst) target) =
            rest.map Prod.fst ∧
          (x :: parts ≠ [] → rest ≠ []) ∧ ∀ r ∈ contents skipped, r.offset < target :=
      ⟨[], x :: parts, rfl, by rw [hidx, List.drop_zero], id,
        fun r hr => absurd hr List.not_mem_nil⟩
    obtain ⟨hx, ho⟩ := List.pairwise_cons.mp ho
    cases parts with
    | nil =>
      apply hhere
      simp only [segmentIndexFor, List.map_cons, List.map_nil, List.takeWhile_cons]
      split <;> rfl
    | cons y parts =>
      have hxy := hx y List.mem_cons_self
      by_cases hy : y.1.baseOffset ≤ target
      · obtain ⟨skipped, rest, hsplit, hdrop, hne, hlow⟩ := ih ho
        have hidx : segmentIndexFor ((x :: y :: parts).map Prod.fst) target =
            segmentIndexFor ((y :: parts).map Prod.fst) target + 1 := by
          have hxt : x.1.baseOffset ≤ target := Nat.le_trans (Nat.le_of_lt hxy.1) hy
          simp [segmentIndexFor, hy, hxt]
        refine ⟨x :: skipped, rest, by rw [hsplit]; rfl, by rw [hidx]; exact hdrop,
          fun _ => hne (List.cons_ne_nil _ _), fun r hr => ?_⟩
        rcases List.mem_append.mp hr with hr | hr
        · exact Nat.lt_of_lt_of_le (hxy.2 r hr) hy
        · exact hlow r hr
      · apply hhere
        simp only [segmentIndexFor, List.map_cons, List.takeWhile_cons]
        split
        · simp [hy]
        · rfl

/-- The walk across segments returns records from the front of those at or above the target,
at least one if there is one; if there is none it hands back the watermark. -/
theorem readSegments_live {target maxRecords maxBytes hwm : Nat} (hm : 0 < maxRecords)
    {parts : List Part} (hh : ∀ x ∈ parts, x.1.Holds x.2) (hsmall : ∀ r ∈ contents parts, r.Small)
    (hlow : ∀ r ∈ contents parts, r.offset < hwm) (hbase : ∀ x ∈ parts, x.1.baseOffset ≤ hwm)
    {eff : Nat} (he : eff ≤ hwm) :
    ∃ out eff', readSegments target maxRecords maxBytes hwm (parts.map Prod.fst) eff =
        (out, eff') ∧ out <+: liveFrom target (contents parts) ∧
      (liveFrom target (contents parts) ≠ [] → out ≠ []) ∧
      (parts ≠ [] → out = [] → eff' = hwm) := by
  induction parts generalizing eff with
  | nil => exact ⟨[], eff, rfl, List.nil_prefix, id, fun h => absurd rfl h⟩
  | cons x parts ih =>
    have hread : x.1.readFrom target maxRecords maxBytes hwm <+: liveFrom target x.2 ∧
        (liveFrom target x.2 ≠ [] → x.1.readFrom target maxRecords maxBytes hwm ≠ []) := by
      have hx (r : Record) (hr : r ∈ x.2) : r.offset < hwm :=
        hlow r (List.mem_append_left _ hr)
      rcases Nat.lt_or_ge target hwm with ht | ht
      · have hread := (hh x List.mem_cons_self).readable
          fun r hr => hsmall r (List.mem_append_left _ hr)
        exact hread.readFrom hm ht hx
      · rw [liveFrom_eq_nil fun r hr => Nat.lt_of_lt_of_le (hx r hr) ht, Segment.readFrom,
          if_pos (.inr ht)]
        exact ⟨List.nil_prefix, id⟩
    rw [List.map_cons, readSegments, contents_cons, liveFrom_append]
    cases hout : x.1.readFrom target maxRecords maxBytes hwm with
    | cons r out =>
      rw [hout] at hread
      exact ⟨_, _, rfl, hread.1.trans (List.prefix_append ..), fun _ => List.cons_ne_nil _ _,
        fun _ h => nomatch h⟩
    | nil =>
      have hnone : liveFrom target x.2 = [] := by
        by_contra hsome
        exact hread.2 hsome hout
      rw [hnone, List.nil_append]
      dsimp only
      cases parts with
      | nil =>
        exact ⟨[], max eff hwm, rfl, List.nil_prefix, id, fun _ _ => Nat.max_eq_right he⟩
      | cons y parts =>
        obtain ⟨out, eff', hrest, hpre, hne, hend⟩ :=
          ih (fun z hz => hh z (List.mem_cons_of_mem _ hz))
            (fun r hr => hsmall r (List.mem_append_right _ hr))
            (fun r hr => hlow r (List.mem_append_right _ hr))
            (fun z hz => hbase z (List.mem_cons_of_mem _ hz))
            (Nat.max_le.mpr ⟨hbase y (by simp), he⟩)
        exact ⟨out, eff', hrest, hpre, hne, fun _ => hend (List.cons_ne_nil _ _)⟩

section Holds
variable {p : Partition} {parts : List Part} {tail : List Record} {maxRecords : Nat}

theorem Partition.Laid.holdsAll (h : p.Laid parts tail) :
    ∀ x ∈ parts ++ [(p.active, tail)], x.1.Holds x.2 := by
  intro x hx
  rcases List.mem_append.mp hx with hx | hx
  · exact h.sealedHold x hx
  · rw [List.mem_singleton.mp hx]
    exact h.activeHolds

theorem contents_snoc (parts : List Part) (s : Segment) (tail : List Record) :
    contents (parts ++ [(s, tail)]) = contents parts ++ tail := by
  simp [contents]

namespace Partition

theorem Laid.sorted (h : p.Laid parts tail) :
    (contents parts ++ tail).Pairwise fun a b => a.offset < b.offset := by
  rw [← contents_snoc parts p.active]
  exact contents_sorted h.holdsAll h.ordered

theorem Laid.map_segments (h : p.Laid parts tail) :
    p.segments = (parts ++ [(p.active, tail)]).map Prod.fst := by
  rw [Partition.segments, h.segments, List.map_append, List.map_singleton]

theorem Laid.base_le_active (h : p.Laid parts tail) :
    ∀ x ∈ parts ++ [(p.active, tail)], x.1.baseOffset ≤ p.active.baseOffset := by
  intro x hx
  rcases List.mem_append.mp hx with hx | hx
  · exact Nat.le_of_lt ((List.pairwise_append.mp h.ordered).2.2 x hx _ List.mem_cons_self).1
  · rw [List.mem_singleton.mp hx]

theorem Holds.lt_next (h : p.Holds parts tail) :
    ∀ r ∈ contents parts ++ tail, r.offset < p.nextOffset := by
  intro r hr
  rcases List.mem_append.mp hr with hr | hr
  · obtain ⟨x, hx, hrx⟩ := mem_contents.mp hr
    have hbefore := (List.pairwise_append.mp h.ordered).2.2 x hx _ List.mem_cons_self
    exact Nat.lt_of_lt_of_le (hbefore.2 r hrx) h.baseNext
  · exact h.below r hr

theorem Laid.start_le (h : p.Laid parts tail) :
    ∀ r ∈ contents parts ++ tail, p.startOffset ≤ r.offset := by
  intro r hr
  rw [← contents_snoc parts p.active] at hr
  obtain ⟨x, hx, hrx⟩ := mem_contents.mp hr
  exact Nat.le_trans (h.start x hx) ((h.holdsAll x hx).base r hrx)

/-- A read below the watermark returns records from the front of those at or above its
target, at least one if there is one, and where to read on. -/
theorem Holds.readRecordsRaw (h : p.Holds parts tail)
    (hsmall : ∀ r ∈ contents parts ++ tail, r.Small) {maxRecords : Nat} (hm : 0 < maxRecords)
    {target : Nat} (ht : target < p.nextOffset) (maxBytes : Nat) :
    ∃ out, p.readRecordsRaw target maxRecords maxBytes =
        (out, (out.getLast?.map (·.offset + 1)).getD p.nextOffset, p.nextOffset) ∧
      out <+: liveFrom target (contents parts ++ tail) ∧
      (liveFrom target (contents parts ++ tail) ≠ [] → out ≠ []) := by
  have hall := h.lt_next
  have hstart : p.startOffset ≤ p.nextOffset :=
    Nat.le_trans (h.start (p.active, tail) (by simp)) h.baseNext
  -- Nothing lies below the start offset, so the clamp does not change what is live.
  have hclamp : liveFrom (max target p.startOffset) (contents parts ++ tail) =
      liveFrom target (contents parts ++ tail) := by
    refine List.filter_congr fun r hr => ?_
    have := h.start_le r hr
    exact decide_eq_decide.mpr (by omega)
  obtain ⟨skipped, rest, hsplit, hdrop, hne, hlow⟩ :=
    segmentIndexFor_skips h.ordered (max target p.startOffset)
  have hmem {x : Part} (hx : x ∈ rest) : x ∈ parts ++ [(p.active, tail)] :=
    hsplit ▸ List.mem_append_right _ hx
  have hcontents : contents parts ++ tail = contents skipped ++ contents rest := by
    rw [← contents_snoc parts p.active, hsplit, contents_append]
  obtain ⟨out, eff, hread, hpre, hsome, hend⟩ :=
    @readSegments_live (max target p.startOffset) maxRecords maxBytes p.nextOffset hm rest
      (fun x hx => h.holdsAll x (hmem hx))
      (fun r hr => hsmall r (hcontents ▸ List.mem_append_right _ hr))
      (fun r hr => hall r (hcontents ▸ List.mem_append_right _ hr))
      (fun x hx => Nat.le_trans (h.base_le_active x (hmem hx)) h.baseNext)
      _ (Nat.max_le.mpr ⟨Nat.le_of_lt ht, hstart⟩)
  have hlive : liveFrom (max target p.startOffset) (contents rest) =
      liveFrom target (contents parts ++ tail) := by
    rw [← hclamp, hcontents, liveFrom_append, liveFrom_eq_nil hlow, List.nil_append]
  rw [hlive] at hpre hsome
  refine ⟨out, ?_, hpre, hsome⟩
  unfold Partition.readRecordsRaw
  dsimp only
  rw [if_neg (by omega), h.map_segments, hdrop, hread]
  cases hlast : out.getLast? with
  | some r => rfl
  | none =>
    rw [hend (hne (by simp)) (List.getLast?_eq_none_iff.mp hlast)]

end Partition

/-- What is live from the offset a read returns is what the read left over. -/
theorem liveFrom_next {out : List Record} {hwm : Nat}
    (hs : rs.Pairwise fun a b => a.offset < b.offset) (hlow : ∀ r ∈ rs, r.offset < hwm)
    (hpre : out <+: liveFrom target rs) (hsome : liveFrom target rs ≠ [] → out ≠ []) :
    out ++ liveFrom ((out.getLast?.map (·.offset + 1)).getD hwm) rs = liveFrom target rs := by
  rcases List.eq_nil_or_concat out with rfl | ⟨front, r, rfl⟩
  · have hnone : liveFrom target rs = [] := by
      by_contra hne
      exact hsome hne rfl
    rw [hnone, List.nil_append]
    exact liveFrom_eq_nil hlow
  · rw [List.concat_eq_append] at hpre ⊢
    obtain ⟨rest, hrest⟩ := hpre
    have hlive : (liveFrom target rs).Pairwise fun a b => a.offset < b.offset := hs.filter _
    rw [List.getLast?_concat]
    show front ++ [r] ++ liveFrom (r.offset + 1) rs = _
    have hmem : r ∈ liveFrom target rs := by
      rw [← hrest]
      simp
    have hr : target ≤ r.offset := (mem_liveFrom.mp hmem).2
    have hagain : liveFrom (r.offset + 1) rs = liveFrom (r.offset + 1) (liveFrom target rs) := by
      unfold liveFrom
      rw [List.filter_filter]
      refine List.filter_congr fun x _ => ?_
      rw [← Bool.decide_and]
      exact decide_eq_decide.mpr (by omega)
    rw [← hrest, List.append_assoc, List.pairwise_append] at hlive
    obtain ⟨_, htail, hfront⟩ := hlive
    have hrestLive : liveFrom (r.offset + 1) rest = rest :=
      liveFrom_eq_self fun x hx => (List.pairwise_cons.mp htail).1 x hx
    have hfrontLow : liveFrom (r.offset + 1) (front ++ [r]) = [] := by
      refine liveFrom_eq_nil fun x hx => ?_
      rcases List.mem_append.mp hx with hx | hx
      · exact Nat.lt_succ_of_lt (hfront x hx r (by simp))
      · exact List.mem_singleton.mp hx ▸ Nat.lt_succ_self _
    rw [hagain, ← hrest, liveFrom_append, hfrontLow, hrestLive, List.nil_append]

/-- A consumer that reads on until the watermark gets every record from its start on, once
and in order. -/
theorem Partition.Holds.consume (h : p.Holds parts tail)
    (hsmall : ∀ r ∈ contents parts ++ tail, r.Small) (hm : 0 < maxRecords) (maxBytes : Nat)
    {fuel : Nat} (hf : p.nextOffset - target < fuel) :
    p.consume maxRecords maxBytes fuel target = liveFrom target (contents parts ++ tail) := by
  induction fuel generalizing target with
  | zero => exact absurd hf (Nat.not_lt_zero _)
  | succ fuel ih =>
    rcases Nat.lt_or_ge target p.nextOffset with ht | ht
    · obtain ⟨out, hread, hpre, hsome⟩ := h.readRecordsRaw hsmall hm ht maxBytes
      -- Each call moves on: past the last record it returned, or to the watermark.
      have hmoves : target < (out.getLast?.map (·.offset + 1)).getD p.nextOffset := by
        cases hlast : out.getLast? with
        | none => exact ht
        | some r =>
          have hr := (mem_liveFrom.mp (hpre.subset (List.mem_of_getLast? hlast))).2
          exact Nat.lt_succ_of_le hr
      rw [Partition.consume, hread]
      dsimp only
      rw [if_neg (Nat.not_le_of_lt ht), ih (by omega)]
      exact liveFrom_next h.sorted h.lt_next hpre hsome
    · have hover : (p.readRecordsRaw target maxRecords maxBytes) = ([], target, p.nextOffset) :=
        if_pos (.inl ht)
      rw [Partition.consume, hover]
      dsimp only
      rw [if_pos ht, liveFrom_eq_nil fun r hr => Nat.lt_of_lt_of_le (h.lt_next r hr) ht]

/-- From the start offset the consumer gets the whole partition. -/
theorem Partition.Holds.consume_start (h : p.Holds parts tail)
    (hsmall : ∀ r ∈ contents parts ++ tail, r.Small) (hm : 0 < maxRecords) (maxBytes : Nat) :
    p.consume maxRecords maxBytes (p.nextOffset + 1) p.startOffset = contents parts ++ tail := by
  rw [h.consume hsmall hm maxBytes (by omega), liveFrom_eq_self h.start_le]

end Holds

end EventStream.Storage
