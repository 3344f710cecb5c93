import EventStream.Storage.Partition

/-! Compaction of the sealed segments of a partition (`compaction.rs`).

A pass reads the sealed segments, keeps the newest record of each key, and writes what is
left to one segment that takes the lowest base. The swap happens later, under the appender
lock, and only if the sealed segments are still the ones that were read. -/
namespace EventStream.Storage

inductive CleanupPolicy where
  | delete
  | compact
  | compactDelete
  deriving DecidableEq, Repr

def CleanupPolicy.includesDelete : CleanupPolicy → Bool
  | .delete => true
  | .compact => false
  | .compactDelete => true

def CleanupPolicy.includesCompact : CleanupPolicy → Bool
  | .delete => false
  | .compact => true
  | .compactDelete => true

structure TopicConfig where
  retentionMs : Option UInt64
  retentionBytes : Option UInt64
  cleanupPolicy : CleanupPolicy
  segmentBytes : UInt64
  tombstoneRetentionMs : UInt64
  deriving DecidableEq, Repr

/-! ### Reading -/

def Segment.walk (s : Segment) : RecordCursor.Walk :=
  (RecordCursor.new s.log 0 s.sizeBytes readWindowBytes).walk

/-- The records that a scan of the segment finds. -/
def Segment.records (s : Segment) : List Record := s.walk.records.map Prod.snd

/-- The records of a segment; `none` if one cannot be read. -/
def Segment.forEachRecord (s : Segment) : Option (List Record) :=
  match s.walk.error with
  | none => some s.records
  | some .eof => some s.records
  | some _ => none

def sealedRecords : List Segment → Option (List Record)
  | [] => some []
  | s :: rest => do
    let rs ← s.forEachRecord
    let more ← sealedRecords rest
    some (rs ++ more)

/-! ### Choosing what survives -/

/-- The newest record of a key, and whether it is a tombstone old enough to drop. -/
structure Latest where
  offset : Nat
  drop : Bool
  deriving DecidableEq, Repr

def setLatest (latest : List (Bytes × Latest)) (key : Bytes) (l : Latest) :
    List (Bytes × Latest) :=
  (key, l) :: latest.filter fun e => e.1 ≠ key

/-- The first pass, one record at a time. -/
def noteLatest (cutoff : Int64) (latest : List (Bytes × Latest)) (r : Record) :
    List (Bytes × Latest) :=
  match r.key with
  | none => latest
  | some k =>
    let drop := r.value.isEmpty && decide (r.timestampMs < cutoff)
    match latest.lookup k with
    | some l => if r.offset < l.offset then latest else setLatest latest k ⟨r.offset, drop⟩
    | none => setLatest latest k ⟨r.offset, drop⟩

/-- Whether the second pass keeps a record. -/
def survives (latest : List (Bytes × Latest)) (r : Record) : Bool :=
  match r.key with
  | none => true
  | some k => ((latest.lookup k).map fun l => decide (l.offset = r.offset) && !l.drop).getD false

/-- What a compaction leaves of the sealed records. -/
def survivorsOf (cutoff : Int64) (records : List Record) : List Record :=
  records.filter (survives (records.foldl (noteLatest cutoff) []))

/-- The output segment; `none` if a record lies below its base, or if its size overflows. -/
def writeSurvivors (survivors : List Record) (base : Nat) : Option Segment :=
  if survivors.any (·.offset < base) ∨ u64Max < (encodeAll survivors).length then none
  else
    let entries := sparseFrom base none 0 survivors
    some
      { baseOffset := base
        log := encodeAll survivors
        indexFile := encodeIndex entries
        sizeBytes := (encodeAll survivors).length
        index := entries
        minTimestampMs := survivors.foldl (fun m r => min m r.timestampMs) Int64.maxValue
        maxTimestampMs := survivors.foldl (fun m r => max m r.timestampMs) Int64.minValue }

/-! ### The pass -/

/-- A compaction between its reading and its swap. -/
structure Compacting where
  activeBase : Nat
  sealedSegments : List Segment
  output : Segment
  deriving DecidableEq, Repr

/-- Read the sealed segments and write the output; `none` if there is nothing to reclaim or a
segment cannot be read. -/
def Partition.compactRead (p : Partition) (config : TopicConfig) (now : Int64) :
    Option Compacting := do
  let sealedSegments := p.segments.filter (·.baseOffset < p.active.baseOffset)
  let lowest ← sealedSegments.head?
  let cutoff := satSubI64 now config.tombstoneRetentionMs.toInt64
  let records ← sealedRecords sealedSegments
  let latest := records.foldl (noteLatest cutoff) []
  let keyless := (records.filter (·.key.isNone)).length
  let kept := keyless + (latest.filter fun e => !e.2.drop).length
  if records.length - kept = 0 then none
  else do
    let output ← writeSurvivors (survivorsOf cutoff records) lowest.baseOffset
    some ⟨p.active.baseOffset, sealedSegments, output⟩

/-- Put the output in place of the sealed segments, if these are the ones that were read. The
source compares them by address; a sealed segment never changes. -/
def Partition.compactSwap (p : Partition) (c : Compacting) : Option Partition :=
  let sealedSegments := p.segments.filter (·.baseOffset < p.active.baseOffset)
  if p.active.baseOffset = c.activeBase ∧ sealedSegments = c.sealedSegments then
    some { p with sealedSegments := [c.output] }
  else none

/-! ### What a caller sees -/

structure CompactionReport where
  recordsKept : Nat
  recordsDropped : Nat
  sealedMerged : Nat
  deriving DecidableEq, Repr

/-- Why a pass was given up: a segment, named by its base, cannot be read from a position on;
or a record lies below the base of the output; or the output is too long for its size. -/
inductive CompactionError where
  | unreadable (base pos : Nat) (error : RecordDecodeError)
  | emitBelowBase (offset base : Nat)
  | overflow
  deriving DecidableEq, Repr

def Segment.readAll (s : Segment) : Except CompactionError (List Record) :=
  match s.walk.error with
  | none => .ok s.records
  | some .eof => .ok s.records
  | some e => .error (.unreadable s.baseOffset s.walk.stop e)

def readSealed : List Segment → Except CompactionError (List Record)
  | [] => .ok []
  | s :: rest => do
    let rs ← s.readAll
    let more ← readSealed rest
    .ok (rs ++ more)

def emitSurvivors (survivors : List Record) (base : Nat) : Except CompactionError Segment :=
  match survivors.find? (·.offset < base) with
  | some r => .error (.emitBelowBase r.offset base)
  | none => (writeSurvivors survivors base).elim (.error .overflow) .ok

/-- `compact_partition`: the report, with the partition it leaves, if the sealed segments were
replaced. It reads the partition `q` and swaps in `p`, which is what other tasks have made of
`q` meanwhile. -/
def Partition.compactPartition (q p : Partition) (config : TopicConfig) (now : Int64) :
    Except CompactionError (Option (Partition × CompactionReport)) :=
  let sealedSegments := q.segments.filter (·.baseOffset < q.active.baseOffset)
  match sealedSegments.head? with
  | none => .ok none
  | some lowest => do
    let cutoff := satSubI64 now config.tombstoneRetentionMs.toInt64
    let records ← readSealed sealedSegments
    let latest := records.foldl (noteLatest cutoff) []
    let keyless := (records.filter (·.key.isNone)).length
    let kept := keyless + (latest.filter fun e => !e.2.drop).length
    let dropped := records.length - kept
    if dropped = 0 then .ok none
    else do
      let output ← emitSurvivors (survivorsOf cutoff records) lowest.baseOffset
      let swapped := p.compactSwap ⟨q.active.baseOffset, sealedSegments, output⟩
      .ok (swapped.map fun p' => (p', ⟨kept, dropped, sealedSegments.length⟩))

variable {rs survivors : List Record} {base : Nat} {output : Segment} {q p : Partition}
    {config : TopicConfig} {now : Int64} {c : Compacting} {segs : List Segment}

theorem Segment.readAll_eq {s : Segment} : s.readAll = .ok rs ↔ s.forEachRecord = some rs := by
  unfold Segment.readAll Segment.forEachRecord
  split <;> simp

theorem readSealed_eq : readSealed segs = .ok rs ↔ sealedRecords segs = some rs := by
  induction segs generalizing rs with
  | nil => simp [readSealed, sealedRecords]
  | cons s segs ih =>
    rw [readSealed, sealedRecords, bind_eq_ok]
    simp only [bind_eq_ok, Option.bind_eq_bind, Option.bind_eq_some_iff, Segment.readAll_eq, ih,
      Except.ok.injEq, Option.some.injEq]

theorem emitSurvivors_eq (h : emitSurvivors survivors base = .ok output) :
    writeSurvivors survivors base = some output := by
  unfold emitSurvivors at h
  split at h
  · cases h
  · cases hwrite : writeSurvivors survivors base with
    | none => rw [hwrite] at h; cases h
    | some out => rw [hwrite] at h; cases h; rfl

/-- A pass that reports something has read and swapped. -/
theorem Partition.compactPartition_some {p' : Partition} {report : CompactionReport}
    (h : q.compactPartition p config now = .ok (some (p', report))) :
    ∃ c, q.compactRead config now = some c ∧ p.compactSwap c = some p' := by
  unfold Partition.compactPartition at h
  unfold Partition.compactRead
  dsimp only at h ⊢
  split at h
  · cases h
  · rename_i lowest hlowest
    obtain ⟨records, hrecords, h⟩ := bind_eq_ok.mp h
    rw [hlowest, readSealed_eq.mp hrecords]
    split at h
    · cases h
    · rename_i hdropped
      obtain ⟨output, houtput, h⟩ := bind_eq_ok.mp h
      obtain ⟨p1, hswap, heq⟩ := Option.map_eq_some_iff.mp (Except.ok.inj h)
      cases heq
      refine ⟨_, ?_, hswap⟩
      simp only [Option.bind_eq_bind, Option.bind_some, if_neg hdropped,
        emitSurvivors_eq houtput]

/-! ### Where the records of the output come from -/

theorem mem_sealedRecords (h : sealedRecords segs = some rs) {r : Record} (hr : r ∈ rs) :
    ∃ s ∈ segs, r ∈ s.records := by
  induction segs generalizing rs with
  | nil =>
    cases h
    exact absurd hr List.not_mem_nil
  | cons s segs ih =>
    obtain ⟨first, hfirst, h⟩ := Option.bind_eq_some_iff.mp h
    obtain ⟨more, hmore, h⟩ := Option.bind_eq_some_iff.mp h
    cases h
    rcases List.mem_append.mp hr with hr | hr
    · have heq : first = s.records := by
        unfold Segment.forEachRecord at hfirst
        split at hfirst <;> cases hfirst <;> rfl
      exact ⟨s, List.mem_cons_self, heq ▸ hr⟩
    · obtain ⟨s', hs', hr'⟩ := ih hmore hr
      exact ⟨s', List.mem_cons_of_mem _ hs', hr'⟩

theorem Segment.records_valid (s : Segment) : ∀ r ∈ s.records, r.Valid :=
  RecordCursor.walk_valid _ _ _ _

/-- A scan of the output finds no record but those that were written to it. -/
theorem records_writeSurvivors (hv : ∀ r ∈ survivors, r.Valid)
    (h : writeSurvivors survivors base = some output) :
    output.baseOffset = base ∧ ∀ r ∈ output.records, r ∈ survivors := by
  unfold writeSurvivors at h
  split at h
  · cases h
  · cases h
    exact ⟨rfl, (RecordCursor.walk_isPrefix hv readWindowBytes).subset⟩

theorem Partition.compactRead_sealed (h : q.compactRead config now = some c) :
    c.activeBase = q.active.baseOffset ∧
      c.sealedSegments = q.segments.filter (·.baseOffset < q.active.baseOffset) := by
  obtain ⟨lowest, _, h⟩ := Option.bind_eq_some_iff.mp h
  obtain ⟨records, _, h⟩ := Option.bind_eq_some_iff.mp h
  dsimp only at h
  split at h
  · cases h
  · obtain ⟨output, _, h⟩ := Option.bind_eq_some_iff.mp h
    cases h
    exact ⟨rfl, rfl⟩

theorem writeSurvivors_base (h : writeSurvivors survivors base = some output) :
    output.baseOffset = base := by
  unfold writeSurvivors at h
  split at h
  · cases h
  · cases h
    rfl

/-- The output takes the base of the first segment. -/
theorem Partition.compactRead_first (h : q.compactRead config now = some c) :
    ∃ first rest, c.sealedSegments = first :: rest ∧ c.output.baseOffset = first.baseOffset := by
  obtain ⟨lowest, hlowest, h⟩ := Option.bind_eq_some_iff.mp h
  obtain ⟨records, _, h⟩ := Option.bind_eq_some_iff.mp h
  dsimp only at h
  split at h
  · cases h
  · obtain ⟨output, houtput, h⟩ := Option.bind_eq_some_iff.mp h
    cases h
    obtain ⟨rest, hrest⟩ := List.head?_eq_some_iff.mp hlowest
    exact ⟨lowest, rest, hrest, writeSurvivors_base houtput⟩

/-- The output takes the base of a segment that was read and holds records of these. -/
structure Compacting.Sound (c : Compacting) : Prop where
  base : ∃ s ∈ c.sealedSegments, s.baseOffset = c.output.baseOffset
  records : ∀ r ∈ c.output.records, ∃ s ∈ c.sealedSegments, r ∈ s.records

theorem Partition.compactRead_sound (h : p.compactRead config now = some c) : c.Sound := by
  obtain ⟨lowest, hlowest, h⟩ := Option.bind_eq_some_iff.mp h
  obtain ⟨records, hrecords, h⟩ := Option.bind_eq_some_iff.mp h
  dsimp only at h
  split at h
  · cases h
  · obtain ⟨output, houtput, h⟩ := Option.bind_eq_some_iff.mp h
    cases h
    have hread (r : Record) (hr : r ∈ records) := mem_sealedRecords hrecords hr
    obtain ⟨hbase, hsub⟩ := records_writeSurvivors (fun r hr => by
      obtain ⟨s, _, hrs⟩ := hread r (List.mem_filter.mp hr).1
      exact s.records_valid r hrs) houtput
    exact ⟨⟨lowest, List.mem_of_head? hlowest, hbase.symm⟩,
      fun r hr => hread r (List.mem_filter.mp (hsub r hr)).1⟩

end EventStream.Storage
