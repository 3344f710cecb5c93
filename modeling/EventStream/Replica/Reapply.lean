import EventStream.Replica.Command
import EventStream.Storage.Consumer

/-! Applying committed entries again after a crash (`ApplyLoop` in `raft_partition.rs`).

A replica appends the records of an entry without an fsync, and a crash may lose any of them
that no snapshot covers, in the middle of an entry too. After the restart every entry above
the snapshot is applied again. An entry names the offset of each record, and records below the
end of the partition are skipped, so that exactly the lost ones are written.

`Kept` says what such a partition looks like: it holds the first records of the whole list and
ends at or below the first one it misses. -/
namespace EventStream.Replica

open Storage Raft

/-! ### The replica -/

/-- What `ApplyLoop::apply` appends for an entry. -/
def entryRecords (e : LogEntry) : Option (List AppendRecord) := do
  let command ← (decodeCommand e.payload).toOption
  command.appendRecords e.index

/-- `ApplyLoop::apply` on the partition; the offsets are for the waiter. -/
def applyEntry (p : Partition) (e : LogEntry) (now : Int64) : Option (Partition × List Nat) := do
  let records ← entryRecords e
  p.appendBatch records .deferred now

/-- Apply entries one after the other. -/
def applyEntries (p : Partition) (entries : List LogEntry) (now : Int64) : Option Partition :=
  entries.foldlM (fun p e => (applyEntry p e now).map Prod.fst) p

/-- A replica: its partition, the index of the last entry it applied, and the last index of
the snapshot on its disk. -/
structure Applier where
  partition : Partition
  lastApplied : Nat
  snapshot : Nat
  deriving DecidableEq, Repr

/-- The batch of an entry: the offset of its first record, and its records. -/
def batchOf (e : LogEntry) : Nat × List BatchRecord :=
  match decodeCommand e.payload with
  | .ok (.batch _ baseOffset records) => (baseOffset, records)
  | _ => (0, [])

/-- Records as they are stored, the first of them at `base`. -/
def spanRecords : Nat → List BatchRecord → List Record
  | _, [] => []
  | base, r :: rs => ⟨base, r.timestampMs, r.key, r.value⟩ :: spanRecords (base + 1) rs

def storedBy (e : LogEntry) : List Record := spanRecords (batchOf e).1 (batchOf e).2

/-- The records of the entries up to the snapshot. -/
def covered (entries : List LogEntry) (snapshot : Nat) : List Record :=
  (entries.filter (·.index ≤ snapshot)).flatMap storedBy

/-- What a crash leaves if `n` bytes of the active log survive. -/
def survivors (p : Partition) (n : Nat) : List Record := wholeWithin (p.sealedBytes + n) p.records

/-- A snapshot is the fsync and then, if `taken`, the one that Raft saves. A crash comes when
`torn` records of the next entry are appended; `n` bytes of the active log survive, at least
those an fsync covered, and the records a snapshot covers. -/
inductive ApplierEvent where
  | apply (now : Int64)
  | snapshot (taken : Bool)
  | flush
  | crash (torn : Nat) (now : Int64) (n : Nat) (index : Option Bytes) (segmentBytes : UInt64)
    (flushEveryRecords : Nat)
  deriving DecidableEq, Repr

/-- The entry that the loop applies next. -/
def Applier.nextEntry (w : Applier) (entries : List LogEntry) : Option LogEntry :=
  entries.find? (w.lastApplied < ·.index)

def Applier.step (entries : List LogEntry) (w : Applier) : ApplierEvent → Option Applier
  | .apply now => do
    let e ← w.nextEntry entries
    let (p, _) ← applyEntry w.partition e now
    some { w with partition := p, lastApplied := e.index }
  | .snapshot taken => some
    { w with
      partition := w.partition.syncAll
      snapshot := if taken then w.lastApplied else w.snapshot }
  | .flush => some { w with partition := w.partition.syncPending }
  | .crash torn now n index segmentBytes flushEveryRecords => do
    let records := ((w.nextEntry entries).bind entryRecords).getD []
    let (p, _) ← w.partition.appendBatch (records.take torn) .deferred now
    if p.durable ≤ n ∧ ∀ r ∈ covered entries w.snapshot, r ∈ survivors p n then do
      let q ← Partition.open (p.crashed n index) segmentBytes flushEveryRecords
      some { partition := q, lastApplied := w.snapshot, snapshot := w.snapshot }
    else none

def Applier.run (entries : List LogEntry) (w : Applier) (events : List ApplierEvent) :
    Option Applier :=
  events.foldlM (Applier.step entries) w

/-- An empty partition, as `Partition::open` makes it in an empty directory. -/
def emptyPartition (segmentBytes : UInt64) (flushEveryRecords : Nat) : Partition :=
  .ofSegments [] (.openEmpty 0) 0 false segmentBytes flushEveryRecords

def Applier.start (segmentBytes : UInt64) (flushEveryRecords : Nat) : Applier :=
  { partition := emptyPartition segmentBytes flushEveryRecords, lastApplied := 0, snapshot := 0 }

/-- Entries that are batches, in the order of their indices, with spans of offsets that
increase and do not meet. -/
structure Batches (entries : List LogEntry) : Prop where
  decodes : ∀ e ∈ entries, ∃ proposal,
    decodeCommand e.payload = .ok (.batch proposal (batchOf e).1 (batchOf e).2)
  positive : ∀ e ∈ entries, 0 < e.index
  indices : entries.Pairwise fun a b => a.index < b.index
  spans : entries.Pairwise fun a b => (batchOf a).1 + (batchOf a).2.length ≤ (batchOf b).1
  spanMax : ∀ e ∈ entries, (batchOf e).1 + (batchOf e).2.length ≤ u64Max
  window : ∀ e ∈ entries, ∀ r ∈ (batchOf e).2,
    recordDiskSize (r.key.map List.length) r.value.length ≤ readWindowBytes

/-! ### What an append writes -/

/-- The record as a replica appends it. -/
def toAppend (r : Record) : AppendRecord := ⟨r.key, r.value, some r.timestampMs, some r.offset⟩

variable {base : Nat} {entries : List LogEntry} {rs : List Record} {p : Partition}
    {st st' : Appending} {now : Int64}

theorem mapM_spanRecords {records : List BatchRecord} {k : Nat}
    (h : base + k + records.length ≤ u64Max) :
    (records.zipIdx k).mapM (appendRecord base) =
      some ((spanRecords (base + k) records).map toAppend) := by
  induction records generalizing k with
  | nil => rfl
  | cons r records ih =>
    rw [List.length_cons] at h
    have hadd : addU64 base k = some (base + k) := addU64_eq_some.mpr ⟨rfl, by omega⟩
    have hrest := @ih (k + 1) (by omega)
    rw [List.zipIdx_cons, List.mapM_cons, appendRecord, hadd, hrest]
    rfl

theorem Batches.entryRecords (hb : Batches entries) {e : LogEntry} (he : e ∈ entries) :
    entryRecords e = some ((storedBy e).map toAppend) := by
  obtain ⟨proposal, hdecode⟩ := hb.decodes e he
  rw [Replica.entryRecords, hdecode]
  exact mapM_spanRecords (hb.spanMax e he)

theorem mem_spanRecords {records : List BatchRecord} {r : Record}
    (h : r ∈ spanRecords base records) : base ≤ r.offset ∧ r.offset < base + records.length ∧
      ∃ b ∈ records, b.key = r.key ∧ b.value = r.value := by
  induction records generalizing base with
  | nil => exact absurd h List.not_mem_nil
  | cons b records ih =>
    rw [List.length_cons]
    rcases List.mem_cons.mp h with rfl | h
    · exact ⟨Nat.le_refl _, by dsimp only; omega, b, List.mem_cons_self, rfl, rfl⟩
    · obtain ⟨hlow, hhigh, b', hmem, heq⟩ := ih h
      exact ⟨by omega, by omega, b', List.mem_cons_of_mem _ hmem, heq⟩

theorem sorted_spanRecords (base : Nat) (records : List BatchRecord) :
    (spanRecords base records).Pairwise fun a b => a.offset < b.offset := by
  induction records generalizing base with
  | nil => exact List.Pairwise.nil
  | cons b records ih =>
    exact List.pairwise_cons.mpr ⟨fun r hr => (mem_spanRecords hr).1, ih _⟩

/-- All records of the entries, each below the next. -/
theorem Batches.sorted (hb : Batches entries) :
    (entries.flatMap storedBy).Pairwise fun a b => a.offset < b.offset := by
  refine List.pairwise_flatMap.mpr ⟨fun e _ => sorted_spanRecords _ _, ?_⟩
  refine hb.spans.imp fun hspan a ha b hb => ?_
  exact Nat.lt_of_lt_of_le (mem_spanRecords ha).2.1
    (Nat.le_trans hspan (mem_spanRecords hb).1)

/-- Records that a replica can append: they fit in the window, and an offset follows theirs. -/
def Appendable (rs : List Record) : Prop := ∀ r ∈ rs, (toAppend r).Fits ∧ r.offset < u64Max

theorem Batches.appendable (hb : Batches entries) : Appendable (entries.flatMap storedBy) := by
  intro r hr
  obtain ⟨e, he, hr⟩ := List.mem_flatMap.mp hr
  obtain ⟨_, hhigh, b, hmem, hkey, hvalue⟩ := mem_spanRecords hr
  have hwindow := hb.window e he b hmem
  rw [hkey, hvalue] at hwindow
  exact ⟨hwindow, Nat.lt_of_lt_of_le hhigh (hb.spanMax e he)⟩

/-- The records below the end are skipped and the others written. -/
theorem assign_toAppend {now : Int64} {next : Nat} {old new : List Record}
    (ho : ∀ r ∈ old, r.offset < next) (hn : ∀ r ∈ new, next ≤ r.offset)
    (hs : new.Pairwise fun a b => a.offset < b.offset) :
    assign now next ((old ++ new).map toAppend) = new ∧
      endAfter next ((old ++ new).map toAppend) = offsetAfter next new := by
  induction old generalizing next with
  | cons r old ih =>
    have hr : r.offset < next := ho r List.mem_cons_self
    have hplace : (toAppend r).place next = none := if_pos hr
    rw [List.cons_append, List.map_cons, assign, endAfter, hplace]
    exact ih (fun x hx => ho x (List.mem_cons_of_mem _ hx)) hn
  | nil =>
    clear ho
    rw [List.nil_append]
    induction new generalizing next with
    | nil => exact ⟨rfl, rfl⟩
    | cons r new ih =>
      have hr : next ≤ r.offset := hn r List.mem_cons_self
      have hplace : (toAppend r).place next = some r.offset := if_neg (Nat.not_lt.mpr hr)
      obtain ⟨hhead, htail⟩ := List.pairwise_cons.mp hs
      obtain ⟨hassign, hend⟩ := ih htail hhead
      rw [List.map_cons, assign, endAfter, hplace]
      exact ⟨by dsimp only; rw [hassign]; rfl, by rw [offsetAfter_cons]; exact hend⟩

/-- An append of records at given offsets does not fail. -/
theorem appendBatch_returns (h : Appendable rs) (p : Partition) (now : Int64) :
    ∃ p' offsets, p.appendBatch (rs.map toAppend) .deferred now = some (p', offsets) := by
  have hloop (st : Appending) :
      ∃ st', (rs.map toAppend).foldlM (Appending.append now) st = some st' := by
    induction rs generalizing st with
    | nil => exact ⟨st, rfl⟩
    | cons r rs ih =>
      have hrest := ih fun x hx => h x (List.mem_cons_of_mem _ hx)
      have hadd : addU64 r.offset 1 = some (r.offset + 1) :=
        addU64_eq_some.mpr ⟨rfl, (h r List.mem_cons_self).2⟩
      have hfirst : ∃ st1, Appending.append now st (toAppend r) = some st1 := by
        simp only [Appending.append, toAppend]
        split
        · exact ⟨_, rfl⟩
        · rw [Appending.write, hadd]
          exact ⟨_, rfl⟩
      obtain ⟨st1, hst1⟩ := hfirst
      obtain ⟨st', hst'⟩ := hrest st1
      refine ⟨st', ?_⟩
      rw [List.map_cons, List.foldlM_cons, hst1]
      exact hst'
  obtain ⟨st', hst'⟩ := hloop ⟨p, {}, p.nextOffset, 0, []⟩
  rw [Partition.appendBatch, hst']
  exact ⟨_, _, rfl⟩

/-! ### A partition with a part of the records -/

/-- The partition holds the first of the records `all` and misses the others. It ends at or
below the first one it misses, and one past the last if it misses none. -/
structure Kept (all : List Record) (p : Partition) (kept missing : List Record) : Prop where
  split : all = kept ++ missing
  holds : ∃ parts tail, p.Holds parts tail ∧ contents parts ++ tail = kept
  room : ∀ r ∈ missing, p.nextOffset ≤ r.offset
  ended : missing = [] → p.nextOffset = offsetAfter 0 all

theorem offsetAfter_append (base : Nat) (xs ys : List Record) :
    offsetAfter base (xs ++ ys) = offsetAfter (offsetAfter base xs) ys := by
  induction xs generalizing base with
  | nil => rfl
  | cons x xs ih => rw [List.cons_append, offsetAfter_cons, ih, offsetAfter_cons]

theorem offsetAfter_le {bound : Nat} (hb : base ≤ bound) (h : ∀ r ∈ rs, r.offset < bound) :
    offsetAfter base rs ≤ bound := by
  unfold offsetAfter
  cases hlast : rs.getLast? with
  | none => exact hb
  | some r => exact h r (List.mem_of_getLast? hlast)

theorem offsetAfter_of_ne_nil (h : rs ≠ []) (base base' : Nat) :
    offsetAfter base rs = offsetAfter base' rs := by
  cases rs with
  | nil => exact absurd rfl h
  | cons r rs => rw [offsetAfter_cons, offsetAfter_cons]

section
variable {all kept missing : List Record} {p : Partition}

theorem kept_empty (all : List Record) (segmentBytes : UInt64) (flushEveryRecords : Nat) :
    Kept all (emptyPartition segmentBytes flushEveryRecords) [] all where
  split := rfl
  holds := (History.created (open_empty segmentBytes flushEveryRecords)).holds
  room := fun _ _ => Nat.zero_le _
  ended := fun h => h ▸ rfl

section
variable (h : Kept all p kept missing)
include h

namespace Kept

theorem syncUpto (mark : WriteMark) : Kept all (p.syncUpto mark) kept missing := by
  obtain ⟨parts, tail, hp, hkept⟩ := h.holds
  exact ⟨h.split, ⟨parts, tail, hp.syncUpto mark, hkept⟩, by simpa using h.room,
    by simpa using h.ended⟩

theorem syncPending : Kept all p.syncPending kept missing := by
  unfold Partition.syncPending
  split
  · exact h
  · exact h.syncUpto _

theorem records : p.records = kept := by
  obtain ⟨parts, tail, hp, hkept⟩ := h.holds
  exact hp.records.trans hkept

/-- **One append.** What comes before the appended records is there; then they are there
too. -/
theorem append (hsorted : all.Pairwise fun a b => a.offset < b.offset) (hfit : Appendable all)
    {before new after : List Record} (hall : all = before ++ (new ++ after))
    (hbefore : before <+: kept) {p' : Partition} {now : Int64} {offsets : List Nat}
    (hs : p.appendBatch (new.map toAppend) .deferred now = some (p', offsets)) :
    ∃ kept' missing', Kept all p' kept' missing' ∧ before ++ new <+: kept' := by
  obtain ⟨parts, tail, hp, hkept⟩ := h.holds
  have hnew (r : AppendRecord) (hr : r ∈ new.map toAppend) : r.Fits := by
    obtain ⟨x, hx, rfl⟩ := List.mem_map.mp hr
    refine (hfit x ?_).1
    rw [hall]
    exact List.mem_append_right _ (List.mem_append_left _ hx)
  obtain ⟨parts', tail', hp', hcontents, hnext⟩ := hp.appendBatch hnew hs
  have hlow (r : Record) (hr : r ∈ kept) : r.offset < p.nextOffset := hp.lt_next r (hkept ▸ hr)
  obtain ⟨more, rfl⟩ := hbefore
  have hcut : more ++ missing = new ++ after :=
    List.append_cancel_left ((List.append_assoc ..).symm.trans (h.split.symm.trans hall))
  -- either the partition ends among the new records, or it has them all
  rcases List.append_eq_append_iff.mp hcut with ⟨lost, rfl, rfl⟩ | ⟨beyond, rfl, hafter⟩
  · have hlost : (lost ++ after).Pairwise fun a b => a.offset < b.offset :=
      (List.pairwise_append.mp (h.split ▸ hsorted)).2.1
    obtain ⟨hassign, hend⟩ := @assign_toAppend now p.nextOffset more lost
      (fun r hr => hlow r (List.mem_append_right _ hr))
      (fun r hr => h.room r (List.mem_append_left _ hr)) (List.pairwise_append.mp hlost).1
    refine ⟨before ++ (more ++ lost), after, ⟨by rw [hall, List.append_assoc before],
      ⟨parts', tail', hp', ?_⟩, fun r hr => ?_, fun hnone => ?_⟩, List.prefix_refl _⟩
    · rw [hcontents, hkept, hassign, List.append_assoc]
    · rw [hnext, hend]
      exact offsetAfter_le (h.room r (List.mem_append_right _ hr)) fun x hx =>
        (List.pairwise_append.mp hlost).2.2 x hx r hr
    · rw [hnext, hend, h.split, offsetAfter_append, hnone, List.append_nil]
      cases lost with
      | nil =>
        have hended := h.ended hnone
        rwa [h.split, hnone, List.append_nil, List.append_nil] at hended
      | cons r lost => exact offsetAfter_of_ne_nil (List.cons_ne_nil _ _) _ _
  · obtain ⟨hassign, hend⟩ := @assign_toAppend now p.nextOffset new []
      (fun r hr => hlow r (List.mem_append_right _ (List.mem_append_left _ hr)))
      (fun r hr => absurd hr List.not_mem_nil) List.Pairwise.nil
    rw [List.append_nil] at hassign hend
    have hsame : p'.nextOffset = p.nextOffset := hnext.trans hend
    refine ⟨_, missing, ⟨h.split, ⟨parts', tail', hp', ?_⟩, hsame ▸ h.room, hsame ▸ h.ended⟩, ?_⟩
    · rw [hcontents, hkept, hassign, List.append_nil]
    · rw [← List.append_assoc]
      exact List.prefix_append _ _

/-- **One crash.** The partition reopens with the records that survive. -/
theorem reopen (hsorted : all.Pairwise fun a b => a.offset < b.offset) {n : Nat}
    {index : Option Bytes} {segmentBytes : UInt64} {flushEveryRecords : Nat} {q : Partition}
    (hq : Partition.open (p.crashed n index) segmentBytes flushEveryRecords = some q) :
    ∃ missing', Kept all q (survivors p n) missing' := by
  obtain ⟨parts, tail, hp, hkept⟩ := h.holds
  obtain ⟨q', parts', hopen, hq', hcontents, hbase, hnext⟩ :=
    hp.reopen n index segmentBytes flushEveryRecords
  cases hopen.symm.trans hq
  obtain ⟨lost, hlost⟩ := wholeWithin_isPrefix n tail
  have hsurvive : survivors p n = contents parts ++ wholeWithin n tail := by
    rw [survivors, hp.records, hp.survivors]
  have hall : all = (contents parts ++ wholeWithin n tail) ++ (lost ++ missing) := by
    rw [h.split, ← hkept, List.append_assoc, List.append_assoc, ← List.append_assoc _ lost, hlost]
  have hcut := List.pairwise_append.mp (hall ▸ hsorted)
  refine ⟨lost ++ missing, hsurvive ▸ hall, ⟨parts', _, hq', by rw [hcontents, hsurvive]⟩,
    fun r hr => ?_, fun hnone => ?_⟩
  · rw [hnext]
    refine offsetAfter_le ?_ fun x hx => hcut.2.2 x (List.mem_append_right _ hx) r hr
    rcases List.mem_append.mp hr with hr | hr
    · exact hp.activeHolds.base r (hlost ▸ List.mem_append_right _ hr)
    · exact Nat.le_trans hp.baseNext (h.room r hr)
  · obtain ⟨rfl, rfl⟩ := List.append_eq_nil_iff.mp hnone
    rw [List.append_nil] at hlost
    rw [hnext, hlost, hall, hlost, List.append_nil, List.append_nil, offsetAfter_append]
    cases tail with
    | cons r tail => exact offsetAfter_of_ne_nil (List.cons_ne_nil _ _) _ _
    | nil =>
      -- an empty active segment starts where the records before it end
      have hended := h.ended rfl
      rw [hall, hlost, List.append_nil, List.append_nil, List.append_nil] at hended
      show p.active.baseOffset = offsetAfter 0 (contents parts)
      refine Nat.le_antisymm ?_ (offsetAfter_le (Nat.zero_le _) fun r hr => ?_)
      · exact hended ▸ hp.baseNext
      · obtain ⟨x, hx, hr⟩ := List.mem_flatMap.mp hr
        exact ((List.pairwise_append.mp hp.ordered).2.2 x hx _ List.mem_cons_self).2 r hr

/-- A partition that misses nothing. -/
theorem full (hall : all <+: kept) : p.records = all ∧ p.nextOffset = offsetAfter 0 all := by
  have hkept : kept <+: all := ⟨missing, h.split.symm⟩
  have heq : kept = all := hkept.eq_of_length_le hall.length_le
  have hnone : missing = [] :=
    List.append_right_eq_self.mp (h.split.symm.trans heq.symm)
  exact ⟨h.records.trans heq, h.ended hnone⟩

/-- **Entries one after the other**, from any part of the records on, give all of them. -/
theorem applyEntries (hsorted : all.Pairwise fun a b => a.offset < b.offset)
    (hfit : Appendable all) {rest : List LogEntry}
    (hrest : ∀ e ∈ rest, entryRecords e = some ((storedBy e).map toAppend)) {before : List Record}
    (hall : all = before ++ rest.flatMap storedBy) (hbefore : before <+: kept) (now : Int64) :
    ∃ p', applyEntries p rest now = some p' ∧ p'.records = all ∧
      p'.nextOffset = offsetAfter 0 all := by
  induction rest generalizing p kept missing before with
  | nil =>
    refine ⟨p, rfl, h.full ?_⟩
    rwa [hall, List.flatMap_nil, List.append_nil]
  | cons e rest ih =>
    rw [List.flatMap_cons] at hall
    have hnew : Appendable (storedBy e) := fun r hr => hfit r
      (hall ▸ List.mem_append_right _ (List.mem_append_left _ hr))
    obtain ⟨p1, offsets, hs⟩ := appendBatch_returns hnew p now
    obtain ⟨kept1, missing1, h1, hbefore1⟩ := h.append hsorted hfit hall hbefore hs
    obtain ⟨p', hp', hfull⟩ := ih h1 (fun x hx => hrest x (List.mem_cons_of_mem _ hx))
      (hall.trans (List.append_assoc ..).symm) hbefore1
    have happly : applyEntry p e now = some (p1, offsets) := by
      rw [applyEntry, hrest e List.mem_cons_self]
      exact hs
    refine ⟨p', ?_, hfull⟩
    rw [Replica.applyEntries, List.foldlM_cons, happly]
    exact hp'

end Kept

end

end

/-! ### What a snapshot has fsynced -/

/-- The newest write went to the active segment, and if it is synced, the whole of it is. -/
structure Marked (p : Partition) : Prop where
  appender : p.appender.baseOffset = p.active.baseOffset
  base : p.latest.base = p.active.baseOffset
  seq : p.latest.seq = p.writeSeq
  synced : p.synced ≤ p.writeSeq
  durable : 0 < p.writeSeq → p.writeSeq ≤ p.synced → p.durable = p.active.log.length

theorem Marked.syncAll (h : Marked p) :
    Marked p.syncAll ∧ p.syncAll.durable = p.active.log.length := by
  have hbase := h.base
  have hseq := h.seq
  have hsynced := h.synced
  unfold Partition.syncAll Partition.syncUpto
  dsimp only
  split
  · rename_i hdone
    exact ⟨h, h.durable (by omega) (by omega)⟩
  · simp only [hbase, if_true]
    refine ⟨⟨h.appender, hbase, hseq, ?_, fun _ _ => rfl⟩, trivial⟩
    dsimp only
    omega

theorem Marked.syncPending (h : Marked p) : Marked p.syncPending := by
  unfold Partition.syncPending
  split
  · exact h
  · exact h.syncAll.1

/-- A commit of something makes the active segment the newest written. -/
theorem marked_commitBatch {b : PendingBatch} (hb : b.count ≠ 0)
    (ha : p.appender.baseOffset = p.active.baseOffset) (hs : p.synced ≤ p.writeSeq) :
    Marked (p.commitBatch b) := by
  have hbase : (p.commitBatch b).active.baseOffset = p.active.baseOffset := by
    rw [Partition.commitBatch, if_neg hb]
    unfold Segment.observe
    dsimp only
    split <;> rfl
  rw [Partition.commitBatch, if_neg hb] at hbase ⊢
  dsimp only at hbase ⊢
  refine ⟨ha.trans hbase.symm, ha.trans hbase.symm, rfl, ?_, fun _ hle => ?_⟩
  · dsimp only
    omega
  · dsimp only at hle
    omega

/-- The appender writes to the active segment, and no fsync is ahead of the writes. -/
def Ordered (p : Partition) : Prop :=
  p.appender.baseOffset = p.active.baseOffset ∧ p.synced ≤ p.writeSeq

theorem Ordered.makeRoom (h : Ordered st.partition) (offset need : Nat) :
    Ordered (st.makeRoom offset need).partition := by
  unfold Appending.makeRoom
  dsimp only
  split
  · refine ⟨rfl, ?_⟩
    show (st.partition.commitBatch st.batch).synced ≤ (st.partition.commitBatch st.batch).writeSeq
    unfold Partition.commitBatch
    split
    · exact h.2
    · exact Nat.le_succ_of_le h.2
  · exact h

theorem marked_append {r : AppendRecord} (ho : Ordered st.partition) (hm : Marked st.committed)
    (hs : Appending.append now st r = some st') : Ordered st'.partition ∧ Marked st'.committed := by
  have hwrite {offset : Nat} (hw : st.write now r offset = some st') :
      Ordered st'.partition ∧ Marked st'.committed := by
    obtain ⟨next, _, hw⟩ := Option.bind_eq_some_iff.mp hw
    cases hw
    have hroom := ho.makeRoom offset (recordDiskSize (r.key.map List.length) r.value.length)
    exact ⟨hroom, marked_commitBatch (Nat.succ_ne_zero _) hroom.1 hroom.2⟩
  unfold Appending.append at hs
  split at hs
  · split at hs
    · cases hs
      exact ⟨ho, hm⟩
    · exact hwrite hs
  · exact hwrite hs

theorem marked_foldlM {records : List AppendRecord} (ho : Ordered st.partition)
    (hm : Marked st.committed) (hs : records.foldlM (Appending.append now) st = some st') :
    Marked st'.committed :=
  (foldlM_keeps (P := fun st => Ordered st.partition ∧ Marked st.committed)
    (fun _ _ _ _ h hs => marked_append h.1 h.2 hs) ⟨ho, hm⟩ hs).2

theorem Marked.appendBatch {p' : Partition} (h : Marked p) {records : List AppendRecord}
    {offsets : List Nat} (hs : p.appendBatch records .deferred now = some (p', offsets)) :
    Marked p' := by
  obtain ⟨st, hst, hs⟩ := Option.bind_eq_some_iff.mp hs
  cases hs
  rw [Partition.settle, if_neg fun hpolicy => nomatch hpolicy.1]
  refine marked_foldlM ?_ ?_ hst
  · exact ⟨h.appender, h.synced⟩
  · exact h

theorem marked_ofSegments (sealedSegments : List Segment) (active : Segment) (next : Nat)
    (cut : Bool) (segmentBytes : UInt64) (flushEveryRecords : Nat) :
    Marked (.ofSegments sealedSegments active next cut segmentBytes flushEveryRecords) :=
  ⟨rfl, rfl, rfl, Nat.le_refl _, fun hpos => absurd hpos (Nat.lt_irrefl _)⟩

theorem marked_open {d : Directory} {segmentBytes : UInt64} {flushEveryRecords : Nat}
    {q : Partition} (h : Partition.open d segmentBytes flushEveryRecords = some q) : Marked q := by
  obtain ⟨found, _, h⟩ := Option.bind_eq_some_iff.mp h
  dsimp only at h
  split at h
  · cases h
    exact marked_ofSegments ..
  · cases h
    exact marked_ofSegments ..

/-! ### Runs -/

section
variable {entries : List LogEntry}

section
variable (hb : Batches entries)
include hb

/-- The entries above `k`, and what is below them. -/
theorem covered_append (k : Nat) :
    entries.flatMap storedBy =
      covered entries k ++ (entries.filter (k < ·.index)).flatMap storedBy := by
  have hindices := hb.indices
  clear hb
  unfold covered
  rw [← List.flatMap_append]
  congr 1
  induction entries with
  | nil => rfl
  | cons e entries ih =>
    obtain ⟨hhead, htail⟩ := List.pairwise_cons.mp hindices
    by_cases he : e.index ≤ k
    · rw [List.filter_cons, if_pos (decide_eq_true he), List.filter_cons,
        if_neg (by simpa using he), List.cons_append, ← ih htail]
    · have hnone : (e :: entries).filter (·.index ≤ k) = [] := by
        refine List.filter_eq_nil_iff.mpr fun x hx => ?_
        rw [decide_eq_true_eq]
        rcases List.mem_cons.mp hx with rfl | hx
        · exact he
        · have := hhead x hx
          omega
      have hall : (e :: entries).filter (k < ·.index) = e :: entries := by
        refine List.filter_eq_self.mpr fun x hx => decide_eq_true ?_
        rcases List.mem_cons.mp hx with rfl | hx
        · omega
        · have := hhead x hx
          omega
      rw [hnone, hall, List.nil_append]

theorem covered_isPrefix (k : Nat) :
    covered entries k <+: entries.flatMap storedBy := ⟨_, (covered_append hb k).symm⟩

/-- The next entry is the first one that is not covered. -/
theorem covered_next {k : Nat} {e : LogEntry} (h : entries.find? (k < ·.index) = some e) :
    e ∈ entries ∧ covered entries e.index = covered entries k ++ storedBy e := by
  refine ⟨List.mem_of_find?_eq_some h, ?_⟩
  obtain ⟨hk, before, after, rfl, hbefore⟩ := List.find?_eq_some_iff_append.mp h
  have hk : k < e.index := of_decide_eq_true hk
  obtain ⟨_, hrest, hcross⟩ := List.pairwise_append.mp hb.indices
  have hafter := (List.pairwise_cons.mp hrest).1
  have hlow (x : LogEntry) (hx : x ∈ before) : x.index ≤ k := by simpa using hbefore x hx
  have hkeep (m : Nat) (hm : k ≤ m) : before.filter (·.index ≤ m) = before :=
    List.filter_eq_self.mpr fun x hx => decide_eq_true (Nat.le_trans (hlow x hx) hm)
  have hdrop (m : Nat) (hm : m ≤ e.index) : after.filter (·.index ≤ m) = [] := by
    refine List.filter_eq_nil_iff.mpr fun x hx => ?_
    rw [decide_eq_true_eq]
    have := hafter x hx
    omega
  unfold covered
  rw [List.filter_append, List.filter_append, hkeep _ (Nat.le_of_lt hk), hkeep k (Nat.le_refl _),
    List.filter_cons, if_pos (by simp), List.filter_cons, if_neg (by simpa using hk),
    hdrop _ (Nat.le_refl _), hdrop k (Nat.le_of_lt hk)]
  simp

end

/-- Of two first parts of records in order, one that holds the records of the other is the
longer. -/
theorem isPrefix_of_subset {xs ys all : List Record}
    (hsorted : all.Pairwise fun a b => a.offset < b.offset) (hx : xs <+: all) (hy : ys <+: all)
    (h : ∀ r ∈ xs, r ∈ ys) : xs <+: ys := by
  have hnodup : xs.Nodup := (hsorted.sublist hx.sublist).imp fun hab heq =>
    absurd (heq ▸ hab) (Nat.lt_irrefl _)
  exact List.prefix_of_prefix_length_le hx hy (List.subperm_of_subset hnodup h).length_le

/-- The partition holds the records of every entry it has applied. -/
structure Sound (entries : List LogEntry) (w : Applier) : Prop where
  kept : ∃ kept missing, Kept (entries.flatMap storedBy) w.partition kept missing ∧
    covered entries w.lastApplied <+: kept
  marked : Marked w.partition

section
variable (hb : Batches entries)
include hb

theorem sound_start (segmentBytes : UInt64) (flushEveryRecords : Nat) :
    Sound entries (.start segmentBytes flushEveryRecords) where
  kept := by
    have hnone : covered entries 0 = [] := by
      have hempty : entries.filter (·.index ≤ 0) = [] := by
        refine List.filter_eq_nil_iff.mpr fun e he => ?_
        have := hb.positive e he
        rw [decide_eq_true_eq]
        omega
      rw [covered, hempty, List.flatMap_nil]
    refine ⟨[], _, kept_empty _ _ _, ?_⟩
    show covered entries 0 <+: []
    exact hnone ▸ List.prefix_refl _
  marked := marked_ofSegments ..

/-- **One step.** -/
theorem Sound.step {w w' : Applier} (h : Sound entries w) {event : ApplierEvent}
    (hs : Applier.step entries w event = some w') : Sound entries w' := by
  obtain ⟨⟨kept, missing, hkept, hdone⟩, hmarked⟩ := h
  cases event with
  | apply now =>
    obtain ⟨e, he, hs⟩ := Option.bind_eq_some_iff.mp hs
    obtain ⟨⟨p, offsets⟩, happly, hs⟩ := Option.bind_eq_some_iff.mp hs
    cases hs
    obtain ⟨hmem, hcovered⟩ := covered_next hb he
    rw [applyEntry, hb.entryRecords hmem] at happly
    obtain ⟨after, hafter⟩ := covered_isPrefix hb e.index
    rw [hcovered, List.append_assoc] at hafter
    obtain ⟨kept', missing', hkept', hdone'⟩ :=
      hkept.append hb.sorted hb.appendable hafter.symm hdone happly
    exact ⟨⟨kept', missing', hkept', hcovered ▸ hdone'⟩, hmarked.appendBatch happly⟩
  | snapshot taken =>
    cases hs
    exact ⟨⟨kept, missing, hkept.syncUpto _, hdone⟩, hmarked.syncAll.1⟩
  | flush =>
    cases hs
    exact ⟨⟨kept, missing, hkept.syncPending, hdone⟩, hmarked.syncPending⟩
  | crash torn now n index segmentBytes flushEveryRecords =>
    obtain ⟨⟨p, offsets⟩, happend, hs⟩ := Option.bind_eq_some_iff.mp hs
    obtain ⟨⟨_, hsafe⟩, hs⟩ := Option.ite_none_right_eq_some.mp hs
    obtain ⟨q, hopen, hs⟩ := Option.bind_eq_some_iff.mp hs
    cases hs
    -- what the next entry left in the partition before the crash
    have htorn : ∃ kept' missing', Kept (entries.flatMap storedBy) p kept' missing' := by
      cases he : w.nextEntry entries with
      | none =>
        obtain ⟨after, hafter⟩ := covered_isPrefix hb w.lastApplied
        rw [he, Option.bind_none, Option.getD_none, List.take_nil] at happend
        obtain ⟨kept', missing', hkept', _⟩ :=
          @Kept.append _ _ _ _ hkept hb.sorted hb.appendable _ [] after hafter.symm hdone _ _ _
            happend
        exact ⟨kept', missing', hkept'⟩
      | some e =>
        obtain ⟨hmem, hcovered⟩ := covered_next hb he
        obtain ⟨after, hafter⟩ := covered_isPrefix hb e.index
        rw [hcovered, List.append_assoc, ← List.take_append_drop torn (storedBy e),
          List.append_assoc] at hafter
        rw [he, Option.bind_some, hb.entryRecords hmem, Option.getD_some, ← List.map_take]
          at happend
        obtain ⟨kept', missing', hkept', _⟩ :=
          hkept.append hb.sorted hb.appendable hafter.symm hdone happend
        exact ⟨kept', missing', hkept'⟩
    obtain ⟨kept', missing', hkept'⟩ := htorn
    obtain ⟨missing'', hreopened⟩ := hkept'.reopen hb.sorted hopen
    refine ⟨⟨_, missing'', hreopened, ?_⟩, marked_open hopen⟩
    exact isPrefix_of_subset hb.sorted (covered_isPrefix hb _) ⟨_, hreopened.split.symm⟩ hsafe

theorem Sound.run {w w' : Applier} (h : Sound entries w) {events : List ApplierEvent}
    (hs : w.run entries events = some w') : Sound entries w' :=
  foldlM_keeps (fun _ _ _ _ h hs => h.step hb hs) h hs

end

/-- **Applying entries again changes nothing.** Take any run of a replica: entries applied in
order, snapshots, flushes, and crashes that lose what was not fsynced but nothing a snapshot
covers, with the entries above the snapshot applied again after each. From wherever the run
ends, applying the entries it has not applied since its last restart succeeds, and gives the
records and the end offset that applying the whole list once to an empty partition gives. And
the fsync of a snapshot covers all that the partition holds. -/
theorem reapply_gives_single_application (hb : Batches entries) {segmentBytes : UInt64}
    {flushEveryRecords : Nat} {events : List ApplierEvent} {w : Applier}
    (hrun : (Applier.start segmentBytes flushEveryRecords).run entries events = some w)
    (now now' : Int64) (segmentBytes' : UInt64) (flushEveryRecords' : Nat) :
    (∃ p once,
      applyEntries w.partition (entries.filter (w.lastApplied < ·.index)) now = some p ∧
      applyEntries (emptyPartition segmentBytes' flushEveryRecords') entries now' = some once ∧
      p.records = once.records ∧ p.nextOffset = once.nextOffset) ∧
    w.partition.syncAll.durable = w.partition.active.log.length := by
  obtain ⟨⟨kept, missing, hkept, hdone⟩, hmarked⟩ := (sound_start hb _ _).run hb hrun
  obtain ⟨p, happly, hrecords, hnext⟩ := hkept.applyEntries hb.sorted hb.appendable
    (fun e he => hb.entryRecords (List.mem_filter.mp he).1) (covered_append hb _) hdone now
  obtain ⟨once, honce, hrecords', hnext'⟩ :=
    (kept_empty _ segmentBytes' flushEveryRecords').applyEntries hb.sorted hb.appendable
      (fun e he => hb.entryRecords he) (List.nil_append _).symm List.nil_prefix now'
  exact ⟨⟨p, once, happly, honce, hrecords.trans hrecords'.symm, hnext.trans hnext'.symm⟩,
    hmarked.syncAll.2⟩

end

/-- Two batches with a gap between their offsets, and other entries between their indices. -/
def twoBatches : List LogEntry :=
  [⟨1, 2, encodeBatch 11 0 5 [⟨none, [1], none, none⟩, ⟨some [2], [3], some 4, none⟩]⟩,
    ⟨1, 4, encodeBatch 12 5 6 [⟨none, [4], none, none⟩]⟩]

theorem twoBatches_batches : Batches twoBatches := by
  have hall : ∀ e ∈ twoBatches, (∃ proposal,
      decodeCommand e.payload = .ok (.batch proposal (batchOf e).1 (batchOf e).2)) ∧
      0 < e.index ∧ (batchOf e).1 + (batchOf e).2.length ≤ u64Max ∧
      ∀ r ∈ (batchOf e).2,
        recordDiskSize (r.key.map List.length) r.value.length ≤ readWindowBytes := by
    intro e he
    rcases List.mem_cons.mp he with rfl | he
    · exact ⟨⟨11, by decide +kernel⟩, by decide +kernel⟩
    · rw [List.mem_singleton.mp he]
      exact ⟨⟨12, by decide +kernel⟩, by decide +kernel⟩
  exact ⟨fun e he => (hall e he).1, fun e he => (hall e he).2.1, by decide +kernel,
    by decide +kernel, fun e he => (hall e he).2.2.1, fun e he => (hall e he).2.2.2⟩

/-- The first batch is lost but for one record, and after the snapshot that follows the second
batch is lost in the middle of its record. -/
def tornEvents : List ApplierEvent :=
  [.apply 7, .crash 0 7 40 none 4096 8, .apply 8, .snapshot true, .crash 1 9 80 none 4096 8]

theorem tornEvents_run :
    ((Applier.start 4096 8).run twoBatches tornEvents).isSome = true := by decide +kernel

def tornReplica : Applier := ((Applier.start 4096 8).run twoBatches tornEvents).get tornEvents_run

theorem reapply_gives_single_application_torn : ∃ p once,
    applyEntries tornReplica.partition (twoBatches.filter (tornReplica.lastApplied < ·.index)) 7 =
      some p ∧
    applyEntries (emptyPartition 64 1) twoBatches 7 = some once ∧
    p.records = once.records ∧ p.nextOffset = once.nextOffset :=
  (reapply_gives_single_application twoBatches_batches (Option.some_get tornEvents_run).symm
    7 7 64 1).1

end EventStream.Replica
