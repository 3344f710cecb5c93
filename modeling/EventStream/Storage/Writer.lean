import EventStream.Storage.Retention

/-! The steps an append takes while it holds the appender lock.

`append_batch` is one function for its caller, but readers and group commit look at the
partition between any two of its steps. `lockedOps` lists these steps in the order of the
source; carried out one after another they are the append of `Partition.appendBatch`
(`lockedOps_spec`). -/
namespace EventStream.Storage

/-- What the owner of the appender lock does to the shared state. -/
inductive WriterOp where
  /-- `write_batch`: the log, then the index file, then the fields of the appender. -/
  | writeLog (bytes : Bytes)
  | writeIndex (bytes : Bytes)
  | noteWritten (batch : PendingBatch)
  /-- Publishing a batch to readers. -/
  | publishSize
  | publishIndex (entries : SparseIndex)
  | observe (batch : PendingBatch)
  | publishNext (next : Nat)
  /-- Publishing it to group commit. -/
  | mark
  | addUnsynced (count : Nat)
  /-- `roll`: fsync both files, then start a new segment. -/
  | syncLog
  | syncIndex
  | newSegment (base : Nat)
  deriving DecidableEq, Repr

def WriterOp.apply (p : Partition) : WriterOp → Partition
  | .writeLog bytes => { p with active := { p.active with log := p.active.log ++ bytes } }
  | .writeIndex bytes =>
    { p with active := { p.active with indexFile := p.active.indexFile ++ bytes } }
  | .noteWritten b =>
    { p with
      appender :=
        { p.appender with
          sizeBytes := p.appender.sizeBytes + b.log.length
          indexLen := p.appender.indexLen + b.index.length
          lastIndexPos := b.lastIndexPos.or p.appender.lastIndexPos } }
  | .publishSize => { p with active := { p.active with sizeBytes := p.appender.sizeBytes } }
  | .publishIndex entries =>
    { p with active := { p.active with index := p.active.index ++ entries } }
  | .observe b => { p with active := p.active.observe b }
  | .publishNext next => { p with nextOffset := next }
  | .mark =>
    { p with writeSeq := p.writeSeq + 1, latest := ⟨p.writeSeq + 1, p.appender.baseOffset⟩ }
  | .addUnsynced count => { p with unsynced := p.unsynced + count }
  | .syncLog | .syncIndex => p
  | .newSegment base => p.roll base

/-- The steps of `commit_batch`. -/
def commitOps (b : PendingBatch) : List WriterOp :=
  if b.count = 0 then []
  else
    [.writeLog b.log, .writeIndex b.index, .noteWritten b, .publishSize,
      .publishIndex b.entries, .observe b, .publishNext b.next, .mark, .addUnsynced b.count]

/-- The steps of `roll`. -/
def rollOps (newBase : Nat) : List WriterOp := [.syncLog, .syncIndex, .newSegment newBase]

/-- The steps `Appending.makeRoom` takes. -/
def Appending.roomOps (st : Appending) (offset need : Nat) : List WriterOp :=
  let pending := st.partition.appender.sizeBytes + st.batch.log.length
  if 0 < pending ∧ st.partition.segmentBytes.toNat < pending + need then
    commitOps st.batch ++ rollOps offset
  else []

/-- The steps of one round of the loop. -/
def Appending.roundOps (st : Appending) (r : AppendRecord) : List WriterOp :=
  match r.place st.next with
  | none => []
  | some offset => st.roomOps offset (recordDiskSize (r.key.map List.length) r.value.length)

/-- The steps of an append from its loop on, with the loop's variables at the end. -/
def lockedOps (now : Int64) : Appending → List AppendRecord → Option (List WriterOp × Appending)
  | st, [] => some (commitOps st.batch, st)
  | st, r :: records => do
    let st' ← Appending.append now st r
    let (ops, last) ← lockedOps now st' records
    some (st.roundOps r ++ ops, last)

/-! ### The steps are the append -/

theorem foldl_commitOps (p : Partition) (b : PendingBatch) :
    (commitOps b).foldl WriterOp.apply p = p.commitBatch b := by
  unfold commitOps Partition.commitBatch
  split
  · rfl
  · simp only [List.foldl_cons, List.foldl_nil, WriterOp.apply]

theorem foldl_roomOps (st : Appending) (offset need : Nat) :
    (st.roomOps offset need).foldl WriterOp.apply st.partition =
      (st.makeRoom offset need).partition := by
  unfold Appending.roomOps Appending.makeRoom
  dsimp only
  split
  · rw [List.foldl_append, foldl_commitOps]
    rfl
  · rfl

variable {st st' : Appending} {now : Int64} {r : AppendRecord}

theorem Appending.write_partition {offset : Nat} (h : st.write now r offset = some st') :
    st'.partition = (st.makeRoom offset
      (recordDiskSize (r.key.map List.length) r.value.length)).partition := by
  obtain ⟨next, _, h⟩ := Option.bind_eq_some_iff.mp h
  cases h
  rfl

theorem Appending.foldl_roundOps (h : Appending.append now st r = some st') :
    (st.roundOps r).foldl WriterOp.apply st.partition = st'.partition := by
  unfold Appending.roundOps
  rcases Appending.append_cases h with ⟨hplace, hst⟩ | ⟨o, hplace, _, hw⟩
  · rw [hplace, hst]
    rfl
  · rw [hplace]
    exact (foldl_roomOps ..).trans (Appending.write_partition hw).symm

end EventStream.Storage
