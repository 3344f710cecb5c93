import EventStream.Storage.Segment

/-! A partition: sealed segments and the active one, appends with rolls, and reads
(`partition.rs`).

Writing never fails here: a file is the bytes written to it. What an fsync covered is kept
in `durable`, since a crash may lose the rest of the active segment. -/
namespace EventStream.Storage

/-- One record to append. Raft replicas pass the offset the leader assigned. -/
structure AppendRecord where
  key : Option Bytes
  value : Bytes
  timestampMs : Option Int64
  offset : Option Nat
  deriving DecidableEq, Repr

inductive Durability where
  | policy
  | deferred
  deriving DecidableEq, Repr

/-- The writer's side of the active segment. -/
structure SegmentAppender where
  baseOffset : Nat
  sizeBytes : Nat
  indexLen : Nat
  lastIndexPos : Option Nat
  deriving DecidableEq, Repr

/-- The newest write. The source keeps the handles of the two files; here they are named by
the base offset of their segment. -/
structure WriteMark where
  seq : Nat
  base : Nat
  deriving DecidableEq, Repr

structure Partition where
  segmentBytes : UInt64
  nextOffset : Nat
  startOffset : Nat
  sealedSegments : List Segment
  active : Segment
  appender : SegmentAppender
  flushEveryRecords : Nat
  unsynced : Nat
  writeSeq : Nat
  latest : WriteMark
  synced : Nat
  /-- How much of the active log file its last fsync covered. -/
  durable : Nat
  deriving DecidableEq, Repr

structure PendingBatch where
  log : Bytes := []
  index : Bytes := []
  entries : SparseIndex := []
  lastIndexPos : Option Nat := none
  minTs : Int64 := Int64.maxValue
  maxTs : Int64 := Int64.minValue
  next : Nat := 0
  count : Nat := 0
  deriving DecidableEq, Repr

def Partition.segments (p : Partition) : List Segment := p.sealedSegments ++ [p.active]

/-! ### Appending -/

/-- The fields of a segment that two calls of `observe_timestamp` change. -/
def Segment.observe (s : Segment) (b : PendingBatch) : Segment :=
  if b.minTs ≠ Int64.maxValue then
    { s with
      minTimestampMs := min (min s.minTimestampMs b.minTs) b.maxTs
      maxTimestampMs := max (max s.maxTimestampMs b.minTs) b.maxTs }
  else s

/-- Write a batch to the active segment and publish it to readers. -/
def Partition.commitBatch (p : Partition) (b : PendingBatch) : Partition :=
  if b.count = 0 then p
  else
    let size := p.appender.sizeBytes + b.log.length
    { p with
      active := Segment.observe
        { p.active with
          log := p.active.log ++ b.log
          indexFile := p.active.indexFile ++ b.index
          sizeBytes := size
          index := p.active.index ++ b.entries } b
      appender :=
        { p.appender with
          sizeBytes := size
          indexLen := p.appender.indexLen + b.index.length
          lastIndexPos := b.lastIndexPos.or p.appender.lastIndexPos }
      nextOffset := b.next
      writeSeq := p.writeSeq + 1
      latest := ⟨p.writeSeq + 1, p.appender.baseOffset⟩
      unsynced := p.unsynced + b.count }

/-- `SegmentAppender::create` on files that do not exist yet. -/
def SegmentAppender.create (baseOffset : Nat) : SegmentAppender :=
  { baseOffset, sizeBytes := 0, indexLen := 0, lastIndexPos := none }

/-- Seal the active segment, which is fsynced first, and start a new one. -/
def Partition.roll (p : Partition) (newBase : Nat) : Partition :=
  { p with
    sealedSegments := p.sealedSegments ++ [p.active]
    active := Segment.openEmpty newBase
    appender := SegmentAppender.create newBase
    durable := 0 }

/-- Add a record to the batch that goes to the active segment. -/
def PendingBatch.push (b : PendingBatch) (app : SegmentAppender) (r : Record) (next : Nat) :
    PendingBatch :=
  let filePos := app.sizeBytes + b.log.length
  let wants := wantsEntry (b.lastIndexPos.or app.lastIndexPos) filePos
  let entry := if wants then [(r.offset - app.baseOffset, filePos)] else []
  { log := b.log ++ encodeRecord r
    index := b.index ++ encodeIndex entry
    entries := b.entries ++ entry
    lastIndexPos := if wants then some filePos else b.lastIndexPos
    minTs := min b.minTs r.timestampMs
    maxTs := max b.maxTs r.timestampMs
    next
    count := b.count + 1 }

/-- The variables of the loop in `append_batch`. -/
structure Appending where
  partition : Partition
  batch : PendingBatch
  next : Nat
  fresh : Nat
  offsets : List Nat
  deriving DecidableEq, Repr

/-- Commit and roll if a record of `need` bytes does not fit in the active segment. -/
def Appending.makeRoom (st : Appending) (offset need : Nat) : Appending :=
  let pending := st.partition.appender.sizeBytes + st.batch.log.length
  if 0 < pending ∧ st.partition.segmentBytes.toNat < pending + need then
    { st with partition := (st.partition.commitBatch st.batch).roll offset, batch := {} }
  else st

def AppendRecord.stored (r : AppendRecord) (now : Int64) (offset : Nat) : Record :=
  { offset, timestampMs := r.timestampMs.getD now, key := r.key, value := r.value }

/-- Write one record at its offset; `none` is the overflow of `offset + 1`. -/
def Appending.write (st : Appending) (now : Int64) (r : AppendRecord) (offset : Nat) :
    Option Appending := do
  let st := st.makeRoom offset (recordDiskSize (r.key.map List.length) r.value.length)
  let next ← addU64 offset 1
  some
    { st with
      batch := st.batch.push st.partition.appender (r.stored now offset) next
      next
      fresh := st.fresh + 1
      offsets := st.offsets ++ [offset] }

/-- One round of the loop. An offset below the end was already applied and is skipped. -/
def Appending.append (now : Int64) (st : Appending) (r : AppendRecord) : Option Appending :=
  match r.offset with
  | some o => if o < st.next then some { st with offsets := st.offsets ++ [o] }
    else st.write now r o
  | none => st.write now r st.next

/-- Group commit, seen by one caller at a time: fsync the files of `mark` unless that was
done already. -/
def Partition.syncUpto (p : Partition) (mark : WriteMark) : Partition :=
  if mark.seq ≤ p.synced then p
  else
    let target := if p.latest.base = mark.base then p.latest.seq else mark.seq
    { p with
      unsynced := 0
      synced := max p.synced target
      durable := if mark.base = p.active.baseOffset then p.active.log.length else p.durable }

def Partition.syncAll (p : Partition) : Partition :=
  p.syncUpto { p.latest with seq := max p.latest.seq 1 }

def Partition.syncPending (p : Partition) : Partition :=
  if p.unsynced = 0 then p else p.syncAll

/-- The fsync policy at the end of `append_batch`. -/
def Partition.settle (p : Partition) (durability : Durability) (wrote : Bool) : Partition :=
  let threshold := max p.flushEveryRecords 1
  if durability = .policy ∧ wrote ∧ (threshold = 1 ∨ threshold ≤ p.unsynced) then
    p.syncUpto p.latest
  else p

/-- Append records; the offset of each is returned in order. -/
def Partition.appendBatch (p : Partition) (records : List AppendRecord)
    (durability : Durability) (now : Int64) : Option (Partition × List Nat) := do
  let st ← records.foldlM (Appending.append now) ⟨p, {}, p.nextOffset, 0, []⟩
  let p := st.partition.commitBatch st.batch
  some (p.settle durability (0 < st.fresh), st.offsets)

/-- Move the end offset forward without writing. -/
def Partition.advanceTo (p : Partition) (offset : Nat) : Partition :=
  { p with nextOffset := max p.nextOffset offset }

/-! ### Reading -/

/-- Index of the last segment whose base is at or below the target. -/
def segmentIndexFor (segs : List Segment) (target : Nat) : Nat :=
  (segs.takeWhile (·.baseOffset ≤ target)).length - 1

/-- Where to read on when a segment had nothing: at the next segment, or at the watermark if
there is none. -/
def nextReachable (effectiveNext hwm : Nat) : List Segment → Nat
  | next :: _ => max next.baseOffset effectiveNext
  | [] => max effectiveNext hwm

/-- Walk forward across segments until one returns records. -/
def readSegments (target maxRecords maxBytes hwm : Nat) :
    List Segment → Nat → List Record × Nat
  | [], effectiveNext => ([], effectiveNext)
  | s :: rest, effectiveNext =>
    match s.readFrom target maxRecords maxBytes hwm with
    | [] =>
      readSegments target maxRecords maxBytes hwm rest (nextReachable effectiveNext hwm rest)
    | r :: out => (r :: out, effectiveNext)

/-- Records, the offset to read from next and the high watermark. The offset of a record
returned is below the watermark, so the addition cannot overflow. -/
def Partition.readRecordsRaw (p : Partition) (target maxRecords maxBytes : Nat) :
    List Record × Nat × Nat :=
  let hwm := p.nextOffset
  if hwm ≤ target ∨ maxRecords = 0 then ([], target, hwm)
  else
    let target := max target p.startOffset
    let segs := p.segments.drop (segmentIndexFor p.segments target)
    let (out, effectiveNext) := readSegments target maxRecords maxBytes hwm segs target
    (out, (out.getLast?.map (·.offset + 1)).getD effectiveNext, hwm)

/-- A consumer that reads on from the offset each call returns, up to the high watermark. -/
def Partition.consume (p : Partition) (maxRecords maxBytes : Nat) : Nat → Nat → List Record
  | 0, _ => []
  | fuel + 1, target =>
    let (out, next, hwm) := p.readRecordsRaw target maxRecords maxBytes
    if hwm ≤ target then [] else out ++ p.consume maxRecords maxBytes fuel next

end EventStream.Storage
