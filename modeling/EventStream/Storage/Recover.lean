import EventStream.Storage.Partition

/-! Opening a partition from the files in its directory (`storage/recover.rs`).

A compaction that had committed is finished, temporary files are removed, and each segment
is brought back from its log. A sealed segment is recovered from its index where that looks
sound; the active one is always scanned, and a torn record at its end is cut off. -/
namespace EventStream.Storage

/-- What a compaction is about to do, written before its first rename. -/
structure CompactionMarker where
  base : Nat
  victims : List Nat
  deriving DecidableEq, Repr

/-- The files of a partition by the base offset in their name. A marker that cannot be
parsed is `some none`. -/
structure Directory where
  logs : List (Nat × Bytes)
  indexes : List (Nat × Bytes)
  tmpLogs : List (Nat × Bytes)
  tmpIndexes : List (Nat × Bytes)
  marker : Option (Option CompactionMarker)
  deriving DecidableEq, Repr

/-! ### Interrupted compactions -/

def removeFiles (bases : List Nat) (files : List (Nat × Bytes)) : List (Nat × Bytes) :=
  files.filter fun f => f.1 ∉ bases

/-- Rename a file over `base` if it exists. -/
def renameOver (base : Nat) (tmp : Option Bytes) (files : List (Nat × Bytes)) :
    List (Nat × Bytes) :=
  match tmp with
  | none => files
  | some b => removeFiles [base] files ++ [(base, b)]

/-- Complete a compaction whose marker survived a crash. -/
def Directory.finishCompaction (d : Directory) : Directory :=
  match d.marker with
  | none => d
  | some none => { d with marker := none }
  | some (some m) =>
    { logs := removeFiles m.victims (renameOver m.base (d.tmpLogs.lookup m.base) d.logs)
      indexes :=
        removeFiles m.victims (renameOver m.base (d.tmpIndexes.lookup m.base) d.indexes)
      tmpLogs := removeFiles [m.base] d.tmpLogs
      tmpIndexes := removeFiles [m.base] d.tmpIndexes
      marker := none }

def Directory.sweepCompactionTmp (d : Directory) : Directory :=
  { d with tmpLogs := [], tmpIndexes := [] }

/-! ### Scanning a segment -/

structure SegmentScan where
  entries : SparseIndex
  nextOffset : Nat
  validBytes : Nat
  damaged : Bool
  indexTrusted : Bool
  minTs : Int64
  maxTs : Int64
  deriving DecidableEq, Repr

def thinIndex (entries : SparseIndex) : SparseIndex :=
  entries.foldl
    (fun out e => if wantsEntry (out.getLast?.map Prod.snd) e.2 then out ++ [e] else out) []

/-- No two neighbours are out of order. -/
def ascending : SparseIndex → Bool
  | [] => true
  | [_] => true
  | a :: b :: rest => decide (a.1 < b.1 ∧ a.2 < b.2) && ascending (b :: rest)

/-- The first record of a segment as the trusted scan reads it, through a small window. -/
def firstRecord (log : Bytes) : Option Record :=
  match (RecordCursor.new log 0 log.length 4096).nextRecord with
  | .ok (some (r, _)) => some r
  | _ => none

/-- Recover a sealed segment from its index; `none` if anything looks wrong, and the caller
falls back to a full scan. -/
def scanSealedTrusted (log : Bytes) (indexFile : Option Bytes) (base : Nat) :
    Option SegmentScan := do
  let entries ← indexFile.bind loadIndex
  if log.length = 0 then
    if entries = [] then
      some ⟨[], base, 0, false, true, Int64.maxValue, Int64.minValue⟩
    else none
  else do
    let head ← entries.head?
    let tail ← entries.getLast?
    let first ← firstRecord log
    let w := (RecordCursor.new log tail.2 log.length readWindowBytes).walk
    let fromTail ← w.records.head?
    let last ← w.records.getLast?
    if head.2 = 0 ∧ ascending entries ∧ tail.2 < log.length ∧
        base ≤ first.offset ∧ first.offset - base = head.1 ∧
        w.error = none ∧ base ≤ fromTail.2.offset ∧ fromTail.2.offset - base = tail.1 ∧
        w.stop = log.length then
      some
        { entries := thinIndex entries
          nextOffset := last.2.offset + 1
          validBytes := log.length
          damaged := false
          indexTrusted := true
          minTs := min first.timestampMs last.2.timestampMs
          maxTs := max first.timestampMs last.2.timestampMs }
    else none

/-- The variables of the loop in `scan_full`. -/
structure Scanning where
  entries : SparseIndex
  lastIndexPos : Option Nat
  nextOffset : Nat
  minTs : Int64
  maxTs : Int64
  deriving DecidableEq, Repr

/-- One record, found at a position; `none` is the overflow of `offset + 1`. -/
def Scanning.see (base : Nat) (s : Scanning) (found : Nat × Record) : Option Scanning := do
  let next ← addU64 found.2.offset 1
  let wants := wantsEntry s.lastIndexPos found.1
  some
    { entries := if wants then s.entries ++ [(found.2.offset - base, found.1)] else s.entries
      lastIndexPos := if wants then some found.1 else s.lastIndexPos
      nextOffset := next
      minTs := min s.minTs found.2.timestampMs
      maxTs := max s.maxTs found.2.timestampMs }

/-- Scan the whole log. The valid bytes end where the cursor stopped. -/
def scanFull (log : Bytes) (base : Nat) : Option SegmentScan := do
  let w := (RecordCursor.new log 0 log.length readWindowBytes).walk
  let s ← w.records.foldlM (Scanning.see base)
    ⟨[], none, base, Int64.maxValue, Int64.minValue⟩
  some
    { entries := s.entries
      nextOffset := s.nextOffset
      validBytes := w.stop
      damaged := w.error.isSome || decide (w.stop ≠ log.length)
      indexTrusted := false
      minTs := s.minTs
      maxTs := s.maxTs }

/-! ### Recovery -/

/-- `File::set_len`. -/
def setLen (n : Nat) (b : Bytes) : Bytes := b.take n ++ List.replicate (n - b.length) 0

/-- The index file after recovery: rewritten if it is not the one of the scan. -/
def recoverIndexFile (scan : SegmentScan) (indexFile : Option Bytes) : Bytes :=
  if scan.indexTrusted ∨ indexFile.bind loadIndex = some scan.entries then indexFile.getD []
  else encodeIndex scan.entries

/-- One segment and the offset after its last record. -/
def recoverSegment (isActive : Bool) (base : Nat) (log : Bytes) (indexFile : Option Bytes) :
    Option (Segment × Nat) := do
  let trusted := if isActive then none else scanSealedTrusted log indexFile base
  let scan ← trusted.orElse fun _ => scanFull log base
  if u64Max < scan.nextOffset then none
  else
    let index := recoverIndexFile scan indexFile
    let seg : Segment :=
      { baseOffset := base
        log := if scan.damaged ∧ isActive then log.take scan.validBytes else log
        indexFile :=
          if isActive then setLen (scan.entries.length * indexEntryLen) index else index
        sizeBytes := scan.validBytes
        index := scan.entries
        minTimestampMs := scan.minTs
        maxTimestampMs := scan.maxTs }
    some (seg, scan.nextOffset)

/-- All segments in the order of their bases, the last one being the active one. -/
def recoverSegments (indexes : List (Nat × Bytes)) :
    List (Nat × Bytes) → Nat → Option (List Segment × Nat)
  | [], next => some ([], next)
  | (base, log) :: rest, next => do
    let (seg, segNext) ← recoverSegment rest.isEmpty base log (indexes.lookup base)
    let (segs, next) ← recoverSegments indexes rest (max next segNext)
    some (seg :: segs, next)

/-- A partition over recovered segments. Only what this process fsyncs counts as durable:
the active log if its tail was cut. -/
def Partition.ofSegments (sealedSegments : List Segment) (active : Segment) (next : Nat)
    (cut : Bool) (segmentBytes : UInt64) (flushEveryRecords : Nat) : Partition :=
  { segmentBytes
    nextOffset := next
    startOffset := ((sealedSegments ++ [active]).head?.map (·.baseOffset)).getD 0
    sealedSegments
    active
    appender :=
      { baseOffset := active.baseOffset
        sizeBytes := active.sizeBytes
        indexLen := active.indexFile.length
        lastIndexPos := active.index.getLast?.map Prod.snd }
    flushEveryRecords := max flushEveryRecords 1
    unsynced := 0
    writeSeq := 0
    latest := ⟨0, active.baseOffset⟩
    synced := 0
    durable := if cut then active.log.length else 0 }

/-- `Partition::open`, which runs `recover_partition`. A directory without segments gets
one. -/
def Partition.open (d : Directory) (segmentBytes : UInt64) (flushEveryRecords : Nat) :
    Option Partition := do
  let d := d.finishCompaction.sweepCompactionTmp
  let logs := d.logs.mergeSort fun a b => a.1 ≤ b.1
  let (segs, next) ← recoverSegments d.indexes logs ((logs.head?.map Prod.fst).getD 0)
  match segs.getLast? with
  | none => some (.ofSegments [] (.openEmpty 0) 0 false segmentBytes flushEveryRecords)
  | some active =>
    let found := (logs.getLast?.map Prod.snd).getD []
    some (.ofSegments segs.dropLast active next (active.log.length ≠ found.length)
      segmentBytes flushEveryRecords)

/-! ### Crashes -/

/-- The files a crash leaves: sealed segments are complete, of the active log the first `n`
bytes survive, and the active index may be anything or missing. -/
def Partition.crashed (p : Partition) (n : Nat) (index : Option Bytes) : Directory :=
  { logs := (p.sealedSegments.map fun s => (s.baseOffset, s.log)) ++
      [(p.active.baseOffset, p.active.log.take n)]
    indexes := (p.sealedSegments.map fun s => (s.baseOffset, s.indexFile)) ++
      (index.map fun b => (p.active.baseOffset, b)).toList
    tmpLogs := []
    tmpIndexes := []
    marker := none }

end EventStream.Storage
