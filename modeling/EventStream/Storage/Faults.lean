import EventStream.Storage.Consumer
import EventStream.Storage.Writer

/-! Appends in which file operations fail (`append_batch`, `commit_batch`, `roll` and
`SegmentAppender::write_batch`).

A write that fails is cut off again, and the partition is fenced if that fails too. A roll
fences the partition if the sealed segment cannot be fsynced; any later failure of it leaves
the partition as it was, with files on disk that the partition does not know. An append that
goes through is the one of `Partition.appendBatch` (`Writer.appendBatch_ok`). -/
namespace EventStream.Storage

/-! ### Writers and faults -/

/-- The log of a failed roll, which is empty. Its index file may be missing. -/
structure Leftover where
  base : Nat
  index : Bool
  deriving DecidableEq, Repr

/-- What a failed roll has created. -/
inductive Created where
  | nothing
  | log
  | both
  deriving DecidableEq, Repr

inductive Fault where
  /-- `write_batch` fails after so many bytes of the log and of the index. -/
  | write (log index : Nat)
  /-- The same, and so does cutting the files back. -/
  | writeAndCut (log index : Nat)
  /-- The fsync of the segment that is sealed. -/
  | seal
  /-- Creating a file, the fsync of the directory, or opening the new segment. -/
  | create (created : Created)
  deriving DecidableEq, Repr

/-- A partition, whether it is fenced, and what failed rolls have left in its directory. -/
structure Writer where
  partition : Partition
  poisoned : Bool
  leftovers : List Leftover
  deriving DecidableEq, Repr

def Created.leave (base : Nat) (leftovers : List Leftover) : Created → List Leftover
  | .nothing => leftovers
  | .log => if base ∈ leftovers.map (·.base) then leftovers else leftovers ++ [⟨base, false⟩]
  | .both => leftovers.filter (·.base ≠ base) ++ [⟨base, true⟩]

/-- Write a batch and publish it. An error carries the state it leaves. -/
def Writer.commitBatch (w : Writer) (b : PendingBatch) (fault : Option Fault) :
    Except Writer Writer :=
  if b.count = 0 then .ok w
  else
    let written (log index : Nat) : Segment :=
      { w.partition.active with
        log := w.partition.active.log ++ b.log.take log
        indexFile := w.partition.active.indexFile ++ b.index.take index }
    match fault with
    | some (.write log index) =>
      let active :=
        { written log index with
          log := setLen w.partition.appender.sizeBytes (written log index).log
          indexFile := setLen w.partition.appender.indexLen (written log index).indexFile }
      .error { w with partition := { w.partition with active } }
    | some (.writeAndCut log index) =>
      .error { w with
        partition := { w.partition with active := written log index }, poisoned := true }
    | _ => .ok { w with partition := w.partition.commitBatch b }

/-- Seal the active segment and start a new one. The files of an earlier roll that failed at
this base are taken as they are. -/
def Writer.roll (w : Writer) (newBase : Nat) (fault : Option Fault) : Except Writer Writer :=
  match fault with
  | some .seal => .error { w with poisoned := true }
  | some (.create created) => .error { w with leftovers := created.leave newBase w.leftovers }
  | _ => .ok { w with
      partition := w.partition.roll newBase
      leftovers := w.leftovers.filter (·.base ≠ newBase) }

/-- The variables of the loop in `append_batch`. -/
structure Filling where
  writer : Writer
  batch : PendingBatch
  next : Nat
  fresh : Nat
  offsets : List Nat
  deriving DecidableEq, Repr

/-- The active segment has records, pending ones included, and no room for `need` bytes. -/
def Filling.Full (f : Filling) (need : Nat) : Prop :=
  0 < f.writer.partition.appender.sizeBytes + f.batch.log.length ∧
    f.writer.partition.segmentBytes.toNat <
      f.writer.partition.appender.sizeBytes + f.batch.log.length + need

instance (f : Filling) (need : Nat) : Decidable (f.Full need) :=
  inferInstanceAs (Decidable (_ ∧ _))

def Filling.makeRoom (f : Filling) (offset need : Nat) (fault : Option Fault) :
    Except Writer Filling :=
  if f.Full need then do
    let w ← f.writer.commitBatch f.batch fault
    let w ← w.roll offset fault
    .ok { f with writer := w, batch := {} }
  else .ok f

def AppendRecord.need (r : AppendRecord) : Nat :=
  recordDiskSize (r.key.map List.length) r.value.length

/-- Write one record at its offset; `none` is the overflow of `offset + 1`. -/
def Filling.write (f : Filling) (now : Int64) (r : AppendRecord) (offset : Nat)
    (fault : Option Fault) : Option (Except Writer Filling) :=
  match f.makeRoom offset r.need fault with
  | .error w => some (.error w)
  | .ok f => do
    let next ← addU64 offset 1
    some (.ok
      { f with
        batch := f.batch.push f.writer.partition.appender (r.stored now offset) next
        next
        fresh := f.fresh + 1
        offsets := f.offsets ++ [offset] })

/-- One round of the loop. -/
def Filling.append (now : Int64) (f : Filling) (r : AppendRecord) (fault : Option Fault) :
    Option (Except Writer Filling) :=
  match r.offset with
  | some o => if o < f.next then some (.ok { f with offsets := f.offsets ++ [o] })
    else f.write now r o fault
  | none => f.write now r f.next fault

/-- The loop, each record with the fault that strikes in its round. -/
def Filling.rounds (now : Int64) :
    Filling → List (AppendRecord × Option Fault) → Option (Except Writer Filling)
  | f, [] => some (.ok f)
  | f, (r, fault) :: rest => do
    match ← f.append now r fault with
    | .error w => some (.error w)
    | .ok f => f.rounds now rest

def Writer.start (w : Writer) : Filling := ⟨w, {}, w.partition.nextOffset, 0, []⟩

/-- An append with its faults, the last of them in the commit after the loop. The offsets are
`none` if it returns an error. -/
def Writer.appendBatch (w : Writer) (records : List (AppendRecord × Option Fault))
    (last : Option Fault) (durability : Durability) (now : Int64) :
    Option (Writer × Option (List Nat)) :=
  if w.poisoned then some (w, none)
  else do
    match ← w.start.rounds now records with
    | .error w => some (w, none)
    | .ok f =>
      match f.writer.commitBatch f.batch last with
      | .error w => some (w, none)
      | .ok w =>
        some ({ w with partition := w.partition.settle durability (0 < f.fresh) },
          some f.offsets)

/-! ### What goes through is the append of the partition -/

def Filling.appending (f : Filling) : Appending :=
  ⟨f.writer.partition, f.batch, f.next, f.fresh, f.offsets⟩

variable {w w' : Writer} {fault : Option Fault} {f f' : Filling} {offset newBase : Nat}
    {now : Int64} {r : AppendRecord} {p p' : Partition} {b : PendingBatch}
    {records : List (AppendRecord × Option Fault)}

theorem Writer.commitBatch_ok (h : w.commitBatch b fault = .ok w') :
    w' = { w with partition := w.partition.commitBatch b } := by
  unfold Writer.commitBatch at h
  split at h
  · rename_i hcount
    cases h
    rw [Partition.commitBatch, if_pos hcount]
  · dsimp only at h
    split at h
    · cases h
    · cases h
    · cases h
      rfl

theorem Writer.roll_ok (h : w.roll newBase fault = .ok w') :
    w' = { w with
      partition := w.partition.roll newBase
      leftovers := w.leftovers.filter (·.base ≠ newBase) } := by
  unfold Writer.roll at h
  split at h
  · cases h
  · cases h
  · cases h
    rfl

/-- Room was there, or it was made by a commit and a roll. -/
theorem Filling.makeRoom_ok {need : Nat} (h : f.makeRoom offset need fault = .ok f') :
    f'.appending = f.appending.makeRoom offset need ∧
      (¬ f.Full need ∧ f' = f ∨ f.Full need ∧ f' = { f with
        writer :=
          { f.writer with
            partition := (f.writer.partition.commitBatch f.batch).roll offset
            leftovers := f.writer.leftovers.filter (·.base ≠ offset) }
        batch := {} }) := by
  unfold Filling.makeRoom at h
  split at h
  · rename_i hfull
    obtain ⟨w, hw, h⟩ := bind_eq_ok.mp h
    obtain ⟨w', hw', h⟩ := bind_eq_ok.mp h
    cases h
    cases Writer.commitBatch_ok hw
    cases Writer.roll_ok hw'
    exact ⟨(if_pos hfull).symm, .inr ⟨hfull, rfl⟩⟩
  · rename_i hfits
    cases h
    exact ⟨(if_neg hfits).symm, .inl ⟨hfits, rfl⟩⟩

/-- One round skips the record or writes it. -/
theorem Filling.append_cases {out : Except Writer Filling} (h : f.append now r fault = some out) :
    (r.place f.next = none ∧ ∃ offsets, out = .ok { f with offsets } ∧
        Appending.append now f.appending r = some { f.appending with offsets }) ∨
      ∃ o, r.place f.next = some o ∧ f.next ≤ o ∧ f.write now r o fault = some out ∧
        Appending.append now f.appending r = f.appending.write now r o := by
  unfold Filling.append at h
  unfold AppendRecord.place Appending.append
  cases hoffset : r.offset with
  | none =>
    rw [hoffset] at h
    exact .inr ⟨f.next, rfl, Nat.le_refl _, h, rfl⟩
  | some o =>
    rw [hoffset] at h
    dsimp only [Filling.appending] at h ⊢
    by_cases hlow : o < f.next
    · rw [if_pos hlow] at h ⊢
      cases h
      exact .inl ⟨rfl, _, rfl, if_pos hlow⟩
    · rw [if_neg hlow] at h ⊢
      exact .inr ⟨o, rfl, Nat.le_of_not_lt hlow, h, if_neg hlow⟩

theorem Filling.write_ok (h : f.write now r offset fault = some (.ok f')) :
    ∃ f₁, f.makeRoom offset r.need fault = .ok f₁ ∧
      f' = ⟨f₁.writer,
        f₁.batch.push f₁.writer.partition.appender (r.stored now offset) (offset + 1), offset + 1,
        f₁.fresh + 1, f₁.offsets ++ [offset]⟩ ∧
      f.appending.write now r offset = some f'.appending := by
  unfold Filling.write at h
  split at h
  · cases h
  · rename_i f₁ hroom
    obtain ⟨next, hnext, h⟩ := Option.bind_eq_some_iff.mp h
    cases h
    refine ⟨f₁, hroom, by rw [(addU64_eq_some.mp hnext).1], ?_⟩
    have heq : f.appending.makeRoom offset r.need = f₁.appending :=
      (Filling.makeRoom_ok hroom).1.symm
    unfold Appending.write
    dsimp only
    rw [← AppendRecord.need, heq, hnext]
    rfl

/-! ### What a failure leaves -/

/-- A commit that fails leaves torn files in a fenced partition, or files that are cut back. -/
theorem Writer.commitBatch_error (h : w.commitBatch b fault = .error w') :
    w'.poisoned ∨ (∃ log index, fault = some (.write log index)) ∧
      w'.partition.nextOffset = w.partition.nextOffset ∧
      (w.partition.appender.sizeBytes = w.partition.active.log.length →
        w.partition.appender.indexLen = w.partition.active.indexFile.length → w' = w) := by
  have hcut {n : Nat} {file more : Bytes} (hn : n = file.length) :
      setLen n (file ++ more) = file := by
    rw [setLen, hn, List.take_left, List.length_append, Nat.sub_eq_zero_of_le (by omega)]
    exact List.append_nil file
  unfold Writer.commitBatch at h
  split at h
  · cases h
  · dsimp only at h
    split at h
    · cases h
      refine .inr ⟨⟨_, _, rfl⟩, rfl, fun hlog hindex => ?_⟩
      rw [hcut hlog, hcut hindex]
    · cases h
      exact .inl rfl
    · cases h

theorem Writer.roll_error (h : w.roll newBase fault = .error w') :
    w'.poisoned ∨ ∃ created : Created, fault = some (.create created) ∧
      w' = { w with leftovers := created.leave newBase w.leftovers } := by
  unfold Writer.roll at h
  split at h
  · cases h
    exact .inl rfl
  · cases h
    exact .inr ⟨_, rfl, rfl⟩
  · cases h

theorem Filling.makeRoom_error {need : Nat} (h : f.makeRoom offset need fault = .error w) :
    f.Full need ∧ (f.writer.commitBatch f.batch fault = .error w ∨
      Writer.roll { f.writer with partition := f.writer.partition.commitBatch f.batch } offset
        fault = .error w) := by
  unfold Filling.makeRoom at h
  split at h
  · rename_i hfull
    refine ⟨hfull, ?_⟩
    cases hcommit : f.writer.commitBatch f.batch fault with
    | error w₁ =>
      rw [hcommit] at h
      cases h
      exact .inl rfl
    | ok w₁ =>
      rw [hcommit] at h
      cases Writer.commitBatch_ok hcommit
      right
      cases hroll : Writer.roll { f.writer with
          partition := f.writer.partition.commitBatch f.batch } offset fault with
      | error w₂ =>
        simp only [bind, Except.bind, hroll] at h
        cases h
        rfl
      | ok w₂ =>
        simp only [bind, Except.bind, hroll] at h
        cases h
  · cases h

theorem Filling.append_error (h : f.append now r fault = some (.error w)) :
    ∃ offset, r.place f.next = some offset ∧ f.next ≤ offset ∧
      f.makeRoom offset r.need fault = .error w := by
  rcases Filling.append_cases h with ⟨_, _, heq, _⟩ | ⟨o, hplace, ho, hwrite, _⟩
  · cases heq
  · refine ⟨o, hplace, ho, ?_⟩
    unfold Filling.write at hwrite
    split at hwrite
    · cases hwrite
      assumption
    · obtain ⟨_, _, hwrite⟩ := Option.bind_eq_some_iff.mp hwrite
      cases hwrite

/-! ### Every partition is ready -/

/-- The counters of the appender are those of its files, and the end lies above the active
base once something was written. -/
structure Partition.Ready (p : Partition) : Prop where
  written : 0 < p.appender.sizeBytes → p.active.baseOffset < p.nextOffset
  start : p.startOffset ≤ p.active.baseOffset
  size : p.appender.sizeBytes = p.active.log.length
  indexLen : p.appender.indexLen = p.active.indexFile.length

/-- The appender knows how long its index file is. -/
def Partition.Indexed (p : Partition) : Prop :=
  p.appender.indexLen = p.active.indexFile.length

theorem Partition.Indexed.commitBatch (h : p.Indexed) (b : PendingBatch) :
    (p.commitBatch b).Indexed := by
  unfold Partition.commitBatch
  split
  · exact h
  · show p.appender.indexLen + b.index.length = _
    simp [h.symm]

theorem Partition.Indexed.syncUpto (h : p.Indexed) (mark : WriteMark) :
    (p.syncUpto mark).Indexed := by
  unfold Partition.syncUpto
  split <;> exact h

theorem Appending.indexed_append {st st' : Appending} (h : st.partition.Indexed)
    (hs : st.append now r = some st') : st'.partition.Indexed := by
  have hroom (o need : Nat) : (st.makeRoom o need).partition.Indexed := by
    unfold Appending.makeRoom
    dsimp only
    split
    · exact rfl
    · exact h
  have hwrite {o : Nat} (hs : st.write now r o = some st') : st'.partition.Indexed := by
    obtain ⟨next, _, hs⟩ := Option.bind_eq_some_iff.mp hs
    cases hs
    exact hroom _ _
  unfold Appending.append at hs
  split at hs
  · split at hs
    · cases hs
      exact h
    · exact hwrite hs
  · exact hwrite hs

theorem Partition.Indexed.appendBatch (h : p.Indexed) {records : List AppendRecord}
    {d : Durability} {offsets : List Nat}
    (hs : p.appendBatch records d now = some (p', offsets)) : p'.Indexed := by
  obtain ⟨st, hst, hs⟩ := Option.bind_eq_some_iff.mp hs
  cases hs
  have hloop : st.partition.Indexed :=
    foldlM_keeps (P := fun st : Appending => st.partition.Indexed)
      (fun _ _ _ _ h hs => Appending.indexed_append h hs) h hst
  unfold Partition.settle
  dsimp only
  split
  · exact (hloop.commitBatch _).syncUpto _
  · exact hloop.commitBatch _

theorem Partition.indexed_open {d : Directory} {segmentBytes : UInt64} {flushEveryRecords : Nat}
    (h : Partition.open d segmentBytes flushEveryRecords = some p) : p.Indexed := by
  obtain ⟨⟨segs, next⟩, _, h⟩ := Option.bind_eq_some_iff.mp h
  dsimp only at h
  split at h <;>
    · cases h
      rfl

theorem Reachable.indexed (h : Reachable p) : p.Indexed := by
  induction h with
  | created h => exact Partition.indexed_open h
  | append _ _ hs ih => exact ih.appendBatch hs
  | syncAll _ ih => exact ih.syncUpto _
  | syncPending _ ih =>
    unfold Partition.syncPending
    split
    · exact ih
    · exact ih.syncUpto _
  | advanceTo _ _ ih => exact ih
  | resize _ _ ih => exact ih
  | compact _ _ hs ih =>
    unfold Partition.compactSwap at hs
    dsimp only at hs
    split at hs
    · cases hs
      exact ih
    · cases hs
  | retain _ victims ih =>
    unfold Partition.unlinkPlan
    dsimp only
    split <;> exact ih
  | reopen _ _ ho _ => exact Partition.indexed_open ho

theorem Reachable.ready (h : Reachable p) : p.Ready := by
  obtain ⟨parts, tail, hp, _⟩ := h.holds
  exact ⟨hp.stacked.written, hp.start _ (List.mem_append_right _ List.mem_cons_self),
    hp.appenderSize, h.indexed⟩

/-! ### Appends to one segment -/

/-- The partition, or the partition with an empty segment behind its records. -/
inductive Partition.Untouched (p : Partition) : Partition → Prop where
  | same : Untouched p p
  | rolled {base : Nat} (hbase : p.nextOffset ≤ base) (hsize : 0 < p.appender.sizeBytes) :
      Untouched p (p.roll base)

theorem Segment.readFrom_openEmpty (base target maxRecords maxBytes hwm : Nat) :
    (Segment.openEmpty base).readFrom target maxRecords maxBytes hwm = [] := by
  unfold Segment.readFrom
  split
  · rfl
  · exact if_pos (Nat.zero_le _)

/-- A segment that has nothing to read at the end makes no difference. -/
theorem readSegments_snoc {target maxRecords maxBytes hwm : Nat} {s : Segment}
    (hs : s.readFrom target maxRecords maxBytes hwm = []) (segs : List Segment) (m n : Nat) :
    (readSegments target maxRecords maxBytes hwm (segs ++ [s]) m).1 =
      (readSegments target maxRecords maxBytes hwm segs n).1 := by
  induction segs generalizing m n with
  | nil => simp only [List.nil_append, readSegments, hs]
  | cons x segs ih =>
    simp only [List.cons_append, readSegments]
    cases x.readFrom target maxRecords maxBytes hwm with
    | nil => exact ih _ _
    | cons r out => rfl

theorem takeWhile_snoc {α : Type} {q : α → Bool} {x : α} (hx : q x = false) (xs : List α) :
    (xs ++ [x]).takeWhile q = xs.takeWhile q := by
  induction xs with
  | nil => simp [hx]
  | cons y xs ih =>
    rw [List.cons_append, List.takeWhile_cons, List.takeWhile_cons, ih]

theorem Partition.Untouched.read (h : p.Untouched p') (hp : p.Ready)
    (target maxRecords maxBytes : Nat) :
    (p'.readRecordsRaw target maxRecords maxBytes).1 =
      (p.readRecordsRaw target maxRecords maxBytes).1 := by
  cases h with
  | same => rfl
  | @rolled base hbase hsize =>
    have hwritten := hp.written hsize
    have hstart := hp.start
    unfold Partition.readRecordsRaw
    show (if p.nextOffset ≤ target ∨ maxRecords = 0 then _ else _ : List Record × Nat × Nat).1 =
      (if p.nextOffset ≤ target ∨ maxRecords = 0 then _ else _ : List Record × Nat × Nat).1
    split
    · rfl
    · have hlow : max target p.startOffset < base := by omega
      have hsegs : (p.roll base).segments = p.segments ++ [Segment.openEmpty base] := rfl
      have hfor : segmentIndexFor (p.roll base).segments (max target p.startOffset) =
          segmentIndexFor p.segments (max target p.startOffset) := by
        unfold segmentIndexFor
        rw [hsegs, takeWhile_snoc]
        exact decide_eq_false (Nat.not_le_of_lt hlow)
      have hle : segmentIndexFor p.segments (max target p.startOffset) ≤ p.segments.length :=
        Nat.le_trans (Nat.sub_le _ _) (List.takeWhile_sublist _).length_le
      show (readSegments (max target p.startOffset) maxRecords maxBytes p.nextOffset
        ((p.roll base).segments.drop (segmentIndexFor (p.roll base).segments
          (max target p.startOffset))) _).1 = _
      rw [hfor, hsegs, List.drop_append_of_le_length hle]
      exact readSegments_snoc (Segment.readFrom_openEmpty ..) _ _ _

def Writer.logFiles (w : Writer) : List (Nat × Bytes) :=
  w.partition.segments.map (fun s => (s.baseOffset, s.log)) ++
    w.leftovers.map fun l => (l.base, [])

def Writer.indexFiles (w : Writer) : List (Nat × Bytes) :=
  w.partition.segments.map (fun s => (s.baseOffset, s.indexFile)) ++
    (w.leftovers.filter (·.index)).map fun l => (l.base, [])

/-- Every file of `w` is there with its contents. -/
structure Writer.Keeps (w w' : Writer) : Prop where
  partition : w.partition.Untouched w'.partition
  logs : ∀ f ∈ w.logFiles, f ∈ w'.logFiles
  indexes : ∀ f ∈ w.indexFiles, f ∈ w'.indexFiles

theorem Writer.Keeps.refl (w : Writer) : w.Keeps w := ⟨.same, fun _ h => h, fun _ h => h⟩

/-- A roll that goes through adds an empty segment, or takes over the files it finds. -/
theorem Writer.keeps_roll (w : Writer) {base : Nat} (hbase : w.partition.nextOffset ≤ base)
    (hsize : 0 < w.partition.appender.sizeBytes) :
    w.Keeps { w with
      partition := w.partition.roll base
      leftovers := w.leftovers.filter (·.base ≠ base) } where
  partition := .rolled hbase hsize
  logs := by
    intro f hf
    rcases List.mem_append.mp hf with hf | hf
    · obtain ⟨s, hs, rfl⟩ := List.mem_map.mp hf
      exact List.mem_append_left _ (List.mem_map.mpr ⟨s, List.mem_append_left _ hs, rfl⟩)
    · obtain ⟨l, hl, rfl⟩ := List.mem_map.mp hf
      by_cases hb : l.base = base
      · exact List.mem_append_left _ (List.mem_map.mpr
          ⟨.openEmpty base, List.mem_append_right _ List.mem_cons_self, by rw [hb]; rfl⟩)
      · exact List.mem_append_right _ (List.mem_map.mpr
          ⟨l, List.mem_filter.mpr ⟨hl, decide_eq_true hb⟩, rfl⟩)
  indexes := by
    intro f hf
    rcases List.mem_append.mp hf with hf | hf
    · obtain ⟨s, hs, rfl⟩ := List.mem_map.mp hf
      exact List.mem_append_left _ (List.mem_map.mpr ⟨s, List.mem_append_left _ hs, rfl⟩)
    · obtain ⟨l, hl, rfl⟩ := List.mem_map.mp hf
      obtain ⟨hl, hindex⟩ := List.mem_filter.mp hl
      by_cases hb : l.base = base
      · exact List.mem_append_left _ (List.mem_map.mpr
          ⟨.openEmpty base, List.mem_append_right _ List.mem_cons_self, by rw [hb]; rfl⟩)
      · exact List.mem_append_right _ (List.mem_map.mpr
          ⟨l, List.mem_filter.mpr ⟨List.mem_filter.mpr ⟨hl, decide_eq_true hb⟩, hindex⟩, rfl⟩)

/-- A roll that fails may add files, all of them empty. -/
theorem Created.mem_leave {created : Created} {base : Nat} {leftovers : List Leftover}
    {l : Leftover} (hl : l ∈ leftovers) :
    ∃ l' ∈ created.leave base leftovers, l'.base = l.base ∧ (l.index → l'.index) := by
  unfold Created.leave
  split
  · exact ⟨l, hl, rfl, id⟩
  · split
    · exact ⟨l, hl, rfl, id⟩
    · exact ⟨l, List.mem_append_left _ hl, rfl, id⟩
  · by_cases hb : l.base = base
    · exact ⟨⟨base, true⟩, List.mem_append_right _ List.mem_cons_self, hb.symm, fun _ => rfl⟩
    · exact ⟨l, List.mem_append_left _ (List.mem_filter.mpr ⟨hl, decide_eq_true hb⟩), rfl, id⟩

theorem Writer.keeps_leave (w : Writer) (created : Created) (base : Nat) :
    w.Keeps { w with leftovers := created.leave base w.leftovers } where
  partition := .same
  logs := by
    intro f hf
    rcases List.mem_append.mp hf with hf | hf
    · exact List.mem_append_left _ hf
    · obtain ⟨l, hl, rfl⟩ := List.mem_map.mp hf
      obtain ⟨l', hl', hb, _⟩ := @Created.mem_leave created base _ _ hl
      exact List.mem_append_right _ (List.mem_map.mpr ⟨l', hl', by rw [hb]⟩)
  indexes := by
    intro f hf
    rcases List.mem_append.mp hf with hf | hf
    · exact List.mem_append_left _ hf
    · obtain ⟨l, hl, rfl⟩ := List.mem_map.mp hf
      obtain ⟨hl, hindex⟩ := List.mem_filter.mp hl
      obtain ⟨l', hl', hb, hi⟩ := @Created.mem_leave created base _ _ hl
      exact List.mem_append_right _ (List.mem_map.mpr
        ⟨l', List.mem_filter.mpr ⟨hl', hi hindex⟩, by rw [hb]⟩)

/-- All records that are written go to one segment: to the active one, of `size` bytes, if it has
room for them, or to a new one that the first of them starts. `wrote` is set behind the first. -/
def oneSegment (segmentBytes : Nat) : Nat → Nat → Bool → List AppendRecord → Bool
  | _, _, _, [] => true
  | size, next, wrote, r :: rs =>
    match r.place next with
    | none => oneSegment segmentBytes size next wrote rs
    | some o =>
      if 0 < size ∧ segmentBytes < size + r.need then
        !wrote && oneSegment segmentBytes r.need (o + 1) true rs
      else oneSegment segmentBytes (size + r.need) (o + 1) true rs

def Writer.OneSegment (w : Writer) (records : List AppendRecord) : Prop :=
  oneSegment w.partition.segmentBytes.toNat w.partition.appender.sizeBytes w.partition.nextOffset
    false records

/-- What is left to go to one segment between two rounds. -/
def Filling.oneSegment (f : Filling) : List AppendRecord → Bool :=
  Storage.oneSegment f.writer.partition.segmentBytes.toNat
    (f.writer.partition.appender.sizeBytes + f.batch.log.length) f.next (0 < f.fresh)

/-- Inside the loop. What is pending ends above the partition. -/
structure Filling.Behind (w : Writer) (f : Filling) : Prop where
  next : w.partition.nextOffset ≤ f.next
  batch : f.batch.count ≠ 0 → w.partition.nextOffset < f.batch.next

/-- As long as all records go to one segment, the files are kept: in front of the first record
nothing has happened at all, and behind it the records are pending. -/
structure Filling.Single (w : Writer) (f : Filling) : Prop where
  keeps : w.Keeps f.writer
  fresh : f.fresh = 0 → f.writer = w ∧ f.batch = {}
  pending : f.fresh ≠ 0 → f.batch.count ≠ 0

/-- A record of the call is published. -/
def Writer.Published (w w' : Writer) : Prop := w.partition.nextOffset < w'.partition.nextOffset

theorem Filling.Behind.commit (h : f.Behind w) (hout : w.Published f.writer ∨ f.batch.count ≠ 0) :
    w.partition.nextOffset < (f.writer.partition.commitBatch f.batch).nextOffset := by
  unfold Partition.commitBatch
  split
  · rename_i hcount
    exact hout.resolve_right (not_not.mpr hcount)
  · rename_i hcount
    exact h.batch hcount

theorem Filling.oneSegment_place {o : Nat} (hplace : r.place f.next = some o)
    (rs : List AppendRecord) :
    f.oneSegment (r :: rs) =
      if f.Full r.need then !decide (0 < f.fresh) &&
        Storage.oneSegment f.writer.partition.segmentBytes.toNat r.need (o + 1) true rs
      else Storage.oneSegment f.writer.partition.segmentBytes.toNat
        (f.writer.partition.appender.sizeBytes + f.batch.log.length + r.need) (o + 1) true rs := by
  rw [Filling.oneSegment, Storage.oneSegment, hplace]
  rfl

theorem Partition.commitBatch_segmentBytes (p : Partition) (b : PendingBatch) :
    (p.commitBatch b).segmentBytes = p.segmentBytes := by
  unfold Partition.commitBatch
  split <;> rfl

/-- A round that goes through. A record that starts a segment behind another of the call publishes
that one. -/
theorem Filling.Single.append {w : Writer} {f f' : Filling} (h : f.Single w) (hb : f.Behind w)
    {now : Int64} {r : AppendRecord} {fault : Option Fault}
    (hs : f.append now r fault = some (.ok f')) :
    f'.Behind w ∧ ((f'.Single w ∧ ∀ rs, f.oneSegment (r :: rs) = f'.oneSegment rs) ∨
      w.Published f'.writer ∧ ∀ rs, f.oneSegment (r :: rs) = false) := by
  rcases Filling.append_cases hs with ⟨hplace, offsets, heq, _⟩ | ⟨o, hplace, ho, hwrite, _⟩
  · cases heq
    refine ⟨⟨hb.next, hb.batch⟩, .inl ⟨⟨h.keeps, h.fresh, h.pending⟩, fun rs => ?_⟩⟩
    rw [Filling.oneSegment, Storage.oneSegment, hplace]
    rfl
  · obtain ⟨f₁, hroom, rfl, _⟩ := Filling.write_ok hwrite
    have hnext := Nat.le_trans hb.next ho
    have hlen : (encodeRecord (r.stored now o)).length = r.need := (recordDiskSize_eq _).symm
    have hpush (b : PendingBatch) (app : SegmentAppender) :
        (b.push app (r.stored now o) (o + 1)).log.length = b.log.length + r.need := by
      rw [PendingBatch.push, List.length_append, hlen]
    have hfresh₁ : f₁.fresh + 1 ≠ 0 := Nat.succ_ne_zero _
    have hcount : f₁.batch.count + 1 ≠ 0 := Nat.succ_ne_zero _
    refine ⟨⟨Nat.le_succ_of_le hnext, fun _ => Nat.lt_succ_of_le hnext⟩, ?_⟩
    rcases (Filling.makeRoom_ok hroom).2 with ⟨hfits, rfl⟩ | ⟨hfull, rfl⟩
    · refine .inl ⟨⟨h.keeps, fun hno => absurd hno hfresh₁, fun _ => hcount⟩, fun rs => ?_⟩
      rw [Filling.oneSegment_place hplace, if_neg hfits]
      show _ = Storage.oneSegment _ _ _ _ _
      rw [hpush, Nat.add_assoc]
      rfl
    · by_cases hfresh : f.fresh = 0
      · obtain ⟨hwriter, hbatch⟩ := h.fresh hfresh
        have hcommit : w.partition.commitBatch {} = w.partition := rfl
        refine .inl ⟨⟨?_, fun hno => absurd hno hfresh₁, fun _ => hcount⟩, fun rs => ?_⟩
        · dsimp only
          rw [Filling.Full, hwriter, hbatch] at hfull
          rw [hwriter, hbatch, hcommit]
          exact w.keeps_roll hnext hfull.1
        · rw [Filling.oneSegment_place hplace, if_pos hfull, hfresh]
          show _ = Storage.oneSegment _ _ _ _ _
          rw [hpush]
          show _ = Storage.oneSegment (f.writer.partition.commitBatch f.batch).segmentBytes.toNat
            (0 + (0 + r.need)) _ _ _
          rw [Partition.commitBatch_segmentBytes, Nat.zero_add, Nat.zero_add]
          rfl
      · refine .inr ⟨hb.commit (.inr (h.pending hfresh)), fun rs => ?_⟩
        rw [Filling.oneSegment_place hplace, if_pos hfull,
          decide_eq_true (Nat.pos_of_ne_zero hfresh)]
        rfl

/-- What is published stays so. -/
theorem Filling.Behind.append {w : Writer} {f f' : Filling} (hb : f.Behind w)
    (hout : w.Published f.writer) {now : Int64} {r : AppendRecord} {fault : Option Fault}
    (hs : f.append now r fault = some (.ok f')) : f'.Behind w ∧ w.Published f'.writer := by
  rcases Filling.append_cases hs with ⟨_, offsets, heq, _⟩ | ⟨o, _, ho, hwrite, _⟩
  · cases heq
    exact ⟨⟨hb.next, hb.batch⟩, hout⟩
  · obtain ⟨f₁, hroom, rfl, _⟩ := Filling.write_ok hwrite
    have hnext := Nat.le_trans hb.next ho
    refine ⟨⟨Nat.le_succ_of_le hnext, fun _ => Nat.lt_succ_of_le hnext⟩, ?_⟩
    rcases (Filling.makeRoom_ok hroom).2 with ⟨_, rfl⟩ | ⟨_, rfl⟩
    · exact hout
    · exact hb.commit (.inl hout)

/-! ### Calls with one failure -/

/-- The records of a call with a failure in the round of the `i`-th. -/
def strike : List AppendRecord → Nat → Fault → List (AppendRecord × Option Fault)
  | [], _, _ => []
  | r :: rs, 0, fault => (r, some fault) :: rs.map (·, none)
  | r :: rs, i + 1, fault => (r, none) :: strike rs i fault

/-- The failure in the commit after the loop, which comes behind all records. -/
def strikeLast (records : List AppendRecord) (i : Nat) (fault : Fault) : Option Fault :=
  if i = records.length then some fault else none

/-- How many records the call has looked at when the failure in round `i` comes: a roll is made for
the record of the round, and the write in front of it is of the records before. -/
def Fault.reached (i : Nat) : Fault → Nat
  | .create _ => i + 1
  | _ => i

theorem strike_of_le {records : List AppendRecord} {i : Nat} (h : records.length ≤ i)
    (fault : Fault) : strike records i fault = records.map (·, none) := by
  induction records generalizing i with
  | nil => rfl
  | cons r rs ih =>
    cases i with
    | zero => cases h
    | succ i => exact congrArg ((r, none) :: ·) (ih (Nat.le_of_succ_le_succ h))

theorem strike_append (before after : List AppendRecord) (r : AppendRecord) (fault : Fault) :
    strike (before ++ r :: after) before.length fault =
      before.map (·, none) ++ (r, some fault) :: after.map (·, none) := by
  induction before with
  | nil => rfl
  | cons x before ih => exact congrArg ((x, none) :: ·) ih

theorem Filling.rounds_append (f : Filling) (xs ys : List (AppendRecord × Option Fault)) :
    f.rounds now (xs ++ ys) = (f.rounds now xs).bind fun
      | .error w => some (.error w)
      | .ok f => f.rounds now ys := by
  induction xs generalizing f with
  | nil => rfl
  | cons x xs ih =>
    obtain ⟨r, fault⟩ := x
    show (f.append now r fault).bind _ = ((f.append now r fault).bind _).bind _
    cases f.append now r fault with
    | none => rfl
    | some out =>
      cases out with
      | error w => rfl
      | ok f => exact ih f

/-! Nothing fails without a fault. -/

theorem Writer.commitBatch_none (w : Writer) (b : PendingBatch) :
    w.commitBatch b none = .ok { w with partition := w.partition.commitBatch b } := by
  unfold Writer.commitBatch
  split
  · rename_i hcount
    rw [Partition.commitBatch, if_pos hcount]
  · rfl

theorem Filling.append_none_ok {out : Except Writer Filling} (h : f.append now r none = some out) :
    ∃ f', out = .ok f' := by
  cases out with
  | ok f' => exact ⟨f', rfl⟩
  | error w =>
    obtain ⟨o, -, -, hroom⟩ := Filling.append_error h
    rcases (Filling.makeRoom_error hroom).2 with hfail | hfail
    · rw [Writer.commitBatch_none] at hfail
      cases hfail
    · cases hfail

theorem Filling.rounds_none_ok {out : Except Writer Filling} {rs : List AppendRecord}
    (h : f.rounds now (rs.map (·, none)) = some out) : ∃ f', out = .ok f' := by
  induction rs generalizing f with
  | nil =>
    cases h
    exact ⟨f, rfl⟩
  | cons r rs ih =>
    obtain ⟨out₁, hround, h⟩ := Option.bind_eq_some_iff.mp h
    obtain ⟨f₁, rfl⟩ := Filling.append_none_ok hround
    exact ih h

theorem Filling.Behind.rounds {before : List AppendRecord} (hb : f.Behind w)
    (hout : w.Published f.writer) (hs : f.rounds now (before.map (·, none)) = some (.ok f')) :
    f'.Behind w ∧ w.Published f'.writer := by
  induction before generalizing f with
  | nil =>
    cases hs
    exact ⟨hb, hout⟩
  | cons r before ih =>
    obtain ⟨out₁, hround, hs⟩ := Option.bind_eq_some_iff.mp hs
    obtain ⟨f₁, rfl⟩ := Filling.append_none_ok hround
    obtain ⟨hb₁, hout₁⟩ := hb.append hout hround
    exact ih hb₁ hout₁ hs

/-- Rounds in front of the failure: the records go to one segment, or one is published. -/
theorem Filling.Single.rounds {before : List AppendRecord} (h : f.Single w) (hb : f.Behind w)
    (hs : f.rounds now (before.map (·, none)) = some (.ok f')) :
    f'.Behind w ∧ ((f'.Single w ∧ ∀ rs, f.oneSegment (before ++ rs) = f'.oneSegment rs) ∨
      w.Published f'.writer ∧ ∀ rs, f.oneSegment (before ++ rs) = false) := by
  induction before generalizing f with
  | nil =>
    cases hs
    exact ⟨hb, .inl ⟨h, fun _ => rfl⟩⟩
  | cons r before ih =>
    obtain ⟨out₁, hround, hs⟩ := Option.bind_eq_some_iff.mp hs
    obtain ⟨f₁, rfl⟩ := Filling.append_none_ok hround
    obtain ⟨hb₁, ⟨h₁, hsame⟩ | ⟨hout₁, hno⟩⟩ := h.append hb hround
    · obtain ⟨hb', hcases⟩ := ih h₁ hb₁ hs
      refine ⟨hb', hcases.imp (fun ⟨h', hrest⟩ => ⟨h', fun rs => ?_⟩)
        fun ⟨hout', hrest⟩ => ⟨hout', fun rs => ?_⟩⟩ <;>
        exact (hsame _).trans (hrest rs)
    · obtain ⟨hb', hout'⟩ := hb₁.rounds hout₁ hs
      exact ⟨hb', .inr ⟨hout', fun rs => hno _⟩⟩

/-- Reads, the end, and the files that were there are as before. -/
structure Writer.Unchanged (w w' : Writer) : Prop where
  reads : ∀ target maxRecords maxBytes, (w'.partition.readRecordsRaw target maxRecords maxBytes).1 =
    (w.partition.readRecordsRaw target maxRecords maxBytes).1
  next : w'.partition.nextOffset = w.partition.nextOffset
  logs : ∀ f ∈ w.logFiles, f ∈ w'.logFiles
  indexes : ∀ f ∈ w.indexFiles, f ∈ w'.indexFiles

theorem Partition.Untouched.sizes (h : p.Untouched p') (hp : p.Ready) :
    p'.appender.sizeBytes = p'.active.log.length ∧
      p'.appender.indexLen = p'.active.indexFile.length := by
  cases h with
  | same => exact ⟨hp.size, hp.indexLen⟩
  | rolled => exact ⟨rfl, rfl⟩

theorem Partition.Untouched.nextOffset (h : p.Untouched p') : p'.nextOffset = p.nextOffset := by
  cases h <;> rfl

theorem Writer.Keeps.unchanged (h : w.Keeps w') (hw : w.partition.Ready) : w.Unchanged w' :=
  ⟨h.partition.read hw, h.partition.nextOffset, h.logs, h.indexes⟩

theorem Writer.Published.not_unchanged (h : w.Published w') : ¬ w.Unchanged w' :=
  fun hsame => absurd hsame.next (Nat.ne_of_gt h)

/-- The write of the pending records fails. -/
theorem Filling.Single.commit_error (same : Bool)
    (hw : w.partition.Ready) (hfail : f.writer.commitBatch f.batch fault = .error w')
    (hfence : w'.poisoned = false)
    (h : f.Single w ∧ same = f.oneSegment [] ∨ w.Published f.writer ∧ same = false) :
    (∃ log index, fault = some (.write log index)) ∧ (w.Unchanged w' ↔ same = true) := by
  obtain ⟨hfault, hnext, hcut⟩ :=
    (Writer.commitBatch_error hfail).resolve_left (by rw [hfence]; exact nofun)
  refine ⟨hfault, ?_⟩
  rcases h with ⟨h, rfl⟩ | ⟨hout, rfl⟩
  · obtain ⟨hlog, hindex⟩ := h.keeps.partition.sizes hw
    obtain rfl := hcut hlog hindex
    exact iff_of_true (h.keeps.unchanged hw) rfl
  · have hout : w.Published w' := by
      rw [Writer.Published, hnext]
      exact hout
    exact iff_of_false hout.not_unchanged nofun

/-- The round of a record fails: in the write of the pending ones, or in the roll behind it. -/
theorem Filling.Single.append_error {fault : Fault} (same : List AppendRecord → Bool)
    (hw : w.partition.Ready) (hb : f.Behind w) (hs : f.append now r (some fault) = some (.error w'))
    (hfence : w'.poisoned = false) (h : (f.Single w ∧ ∀ rs, same rs = f.oneSegment rs) ∨
      w.Published f.writer ∧ ∀ rs, same rs = false) :
    w.Unchanged w' ↔ same ([r].take (fault.reached 0)) = true := by
  obtain ⟨o, hplace, -, hroom⟩ := Filling.append_error hs
  obtain ⟨hfull, hfail | hfail⟩ := Filling.makeRoom_error hroom
  · obtain ⟨⟨log, index, hfault⟩, hiff⟩ := Filling.Single.commit_error _ hw hfail hfence
      (h.imp (fun ⟨h, hsame⟩ => ⟨h, hsame []⟩) fun ⟨hout, hsame⟩ => ⟨hout, hsame []⟩)
    cases hfault
    exact hiff
  · obtain ⟨created, hfault, rfl⟩ :=
      (Writer.roll_error hfail).resolve_left (by rw [hfence]; exact nofun)
    cases hfault
    show _ ↔ same [r] = true
    rcases h with ⟨h, hsame⟩ | ⟨hout, hsame⟩
    · rw [hsame, Filling.oneSegment_place hplace, if_pos hfull]
      by_cases hfresh : f.fresh = 0
      · obtain ⟨hwriter, hbatch⟩ := h.fresh hfresh
        rw [hwriter, hbatch, hfresh]
        exact iff_of_true ((w.keeps_leave created o).unchanged hw) rfl
      · rw [decide_eq_true (Nat.pos_of_ne_zero hfresh)]
        exact iff_of_false (Writer.Published.not_unchanged (hb.commit (.inr (h.pending hfresh))))
          nofun
    · rw [hsame]
      exact iff_of_false (Writer.Published.not_unchanged (hb.commit (.inl hout))) nofun

/-- **When a failed append changes nothing.** Let one operation of an append fail, the append return
an error and the partition not be fenced. Then reads return what they did, the end is where it was
and every file that was there has its contents, exactly if the records the append had looked at go
to one segment, by their sizes. -/
theorem failed_append_changes_nothing {w w' : Writer} (hw : w.partition.Ready)
    {records : List AppendRecord} {i : Nat} {fault : Fault} {d : Durability} {now : Int64}
    (hs : w.appendBatch (strike records i fault) (strikeLast records i fault) d now =
      some (w', none))
    (hfence : w'.poisoned = false) :
    w.Unchanged w' ↔ w.OneSegment (records.take (fault.reached i)) := by
  have hstart : w.start.Single w := ⟨.refl w, fun _ => ⟨rfl, rfl⟩, fun hne => absurd rfl hne⟩
  have hbehind : w.start.Behind w := ⟨Nat.le_refl _, fun hne => absurd rfl hne⟩
  have hone (rs : List AppendRecord) : w.OneSegment rs ↔ w.start.oneSegment rs = true := Iff.rfl
  unfold Writer.appendBatch at hs
  split at hs
  · rename_i hpoisoned
    cases hs
    rw [hpoisoned] at hfence
    cases hfence
  · obtain ⟨out, hout, hs⟩ := Option.bind_eq_some_iff.mp hs
    rw [hone]
    by_cases hi : i < records.length
    · -- the failure comes in the loop
      obtain ⟨before, r, after, rfl, rfl⟩ : ∃ before r after, records = before ++ r :: after ∧
          before.length = i := ⟨records.take i, records[i], records.drop (i + 1),
        by rw [List.getElem_cons_drop, List.take_append_drop], List.length_take_of_le hi.le⟩
      have hlast : strikeLast (before ++ r :: after) before.length fault = none :=
        if_neg (by simp)
      rw [strike_append, Filling.rounds_append] at hout
      obtain ⟨out₁, hbefore, hout⟩ := Option.bind_eq_some_iff.mp hout
      obtain ⟨f₁, rfl⟩ := Filling.rounds_none_ok hbefore
      obtain ⟨hb₁, hcases⟩ := hstart.rounds hbehind hbefore
      obtain ⟨out₂, hround, hout⟩ := Option.bind_eq_some_iff.mp hout
      cases out₂ with
      | ok f₂ =>
        obtain ⟨f₃, rfl⟩ := Filling.rounds_none_ok hout
        rw [hlast] at hs
        dsimp only at hs
        rw [Writer.commitBatch_none] at hs
        cases hs
      | error w₂ =>
        cases hout
        cases hs
        have htake : (before ++ r :: after).take (fault.reached before.length) =
            before ++ [r].take (fault.reached 0) := by
          cases fault <;> simp [Fault.reached, List.take_append, List.take_of_length_le]
        rw [htake]
        exact Filling.Single.append_error (fun rs => w.start.oneSegment (before ++ rs)) hw
          hb₁ hround hfence hcases
    · rw [strike_of_le (Nat.not_lt.mp hi)] at hout
      obtain ⟨f₁, rfl⟩ := Filling.rounds_none_ok hout
      obtain ⟨-, hcases⟩ := hstart.rounds hbehind hout
      dsimp only at hs
      split at hs
      · rename_i hfail
        cases hs
        obtain ⟨⟨log, index, hfault⟩, hiff⟩ := Filling.Single.commit_error
          (w.start.oneSegment (records ++ [])) hw hfail hfence
          (hcases.imp (fun ⟨h, hsame⟩ => ⟨h, hsame []⟩) fun ⟨hout, hsame⟩ => ⟨hout, hsame []⟩)
        rw [List.append_nil] at hiff
        unfold strikeLast at hfault
        split at hfault
        · cases hfault
          rw [hiff]
          show _ ↔ w.start.oneSegment (records.take i) = true
          rw [List.take_of_length_le (Nat.not_lt.mp hi)]
        · cases hfault
      · cases hs

theorem exists_failed {result : Option (Writer × Option (List Nat))} {P : Writer → Bool}
    (h : (result.any fun x => x.2.isNone && P x.1) = true) :
    ∃ w, result = some (w, none) ∧ P w = true := by
  match result, h with
  | some (w, none), h => exact ⟨w, rfl, h⟩

/-- Two records, the segments so short that each needs its own. The write of the first, which comes
when the second needs room, stops after three bytes. -/
theorem failed_append_changes_nothing_tiny :
    ∃ w, (⟨tinySegments, false, []⟩ : Writer).appendBatch
        (strike [⟨none, [1], some 0, none⟩, ⟨none, [2], some 0, none⟩] 1 (.write 3 0))
        (strikeLast [⟨none, [1], some 0, none⟩, ⟨none, [2], some 0, none⟩] 1 (.write 3 0))
        .policy 100 = some (w, none) ∧ w.poisoned = false ∧
      (⟨tinySegments, false, []⟩ : Writer).Unchanged w := by
  obtain ⟨w, hfails, hfence⟩ := @exists_failed ((⟨tinySegments, false, []⟩ : Writer).appendBatch
    (strike [⟨none, [1], some 0, none⟩, ⟨none, [2], some 0, none⟩] 1 (.write 3 0))
    (strikeLast [⟨none, [1], some 0, none⟩, ⟨none, [2], some 0, none⟩] 1 (.write 3 0)) .policy 100)
    (fun w => !w.poisoned) (by decide +kernel)
  have hfence : w.poisoned = false := by simpa using hfence
  have hready : tinySegments.Ready := (Reachable.created (open_empty 1 1)).ready
  have hone : (⟨tinySegments, false, []⟩ : Writer).OneSegment [⟨none, [1], some 0, none⟩] := by
    unfold Writer.OneSegment
    decide +kernel
  exact ⟨w, hfails, hfence, (failed_append_changes_nothing hready hfails hfence).mpr hone⟩

/-- Two records, one to a segment. The second segment cannot be created: the append returns an
error and the partition is not fenced, but the first record has been written. -/
theorem failed_append_keeps_first :
    ∃ w, (⟨tinySegments, false, []⟩ : Writer).appendBatch [(⟨none, [1], some 0, none⟩, none),
        (⟨none, [2], some 0, none⟩, some (.create .nothing))] none .policy 100 = some (w, none) ∧
      (w.poisoned = false ∧ w.partition.nextOffset = 1 ∧
        (w.partition.readRecordsRaw 0 10 0).1 = [⟨0, 0, none, [1]⟩]) ∧
      tinySegments.nextOffset = 0 ∧ (tinySegments.readRecordsRaw 0 10 0).1 = [] := by
  obtain ⟨w, hfails, hw⟩ := @exists_failed ((⟨tinySegments, false, []⟩ : Writer).appendBatch
    [(⟨none, [1], some 0, none⟩, none), (⟨none, [2], some 0, none⟩, some (.create .nothing))]
    none .policy 100) (fun w => decide (w.poisoned = false ∧ w.partition.nextOffset = 1 ∧
      (w.partition.readRecordsRaw 0 10 0).1 = [⟨0, 0, none, [1]⟩])) (by decide +kernel)
  exact ⟨w, hfails, of_decide_eq_true hw, rfl, rfl⟩

end EventStream.Storage
