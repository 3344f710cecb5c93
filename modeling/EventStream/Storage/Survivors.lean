import Mathlib.Data.List.Induction
import EventStream.Newest
import EventStream.Storage.Consumer

/-! What a compaction keeps (`compact_partition` in `compaction.rs`).

The first pass notes the newest offset of each key and whether that record is a tombstone to
drop; the second keeps the records that were noted. Of records in the order of their offsets
that is the compacted log of `EventStream.compacted`, so the table of keys and values that the
partition stands for does not change. -/
namespace EventStream.Storage

/-! ### The first pass -/

/-- `now - tombstone_retention_ms`. -/
def TopicConfig.tombstoneCutoff (config : TopicConfig) (now : Int64) : Int64 :=
  satSubI64 now config.tombstoneRetentionMs.toInt64

/-- A tombstone older than the cutoff. -/
def dropsAt (cutoff : Int64) (r : Record) : Bool :=
  r.value.isEmpty && decide (r.timestampMs < cutoff)

variable {key k : Bytes} {output : Segment}

theorem lookup_filter_ne (hk : k ≠ key) (latest : List (Bytes × Latest)) :
    (latest.filter fun e => e.1 ≠ key).lookup k = latest.lookup k := by
  induction latest with
  | nil => rfl
  | cons e latest ih =>
    by_cases he : e.1 = key
    · have hne : (k == e.1) = false := beq_false_of_ne (he ▸ hk)
      rw [List.filter_cons_of_neg (by simpa using he), List.lookup_cons, hne, ih]
    · rw [List.filter_cons_of_pos (by simpa using he), List.lookup_cons, List.lookup_cons, ih]

theorem lookup_setLatest (latest : List (Bytes × Latest)) (key k : Bytes) (l : Latest) :
    (setLatest latest key l).lookup k = if k = key then some l else latest.lookup k := by
  rw [setLatest, List.lookup_cons]
  by_cases hk : k = key
  · rw [if_pos hk, hk, beq_self_eq_true]
  · rw [if_neg hk, beq_false_of_ne hk]
    exact lookup_filter_ne hk latest

variable {latest : List (Bytes × Latest)} {rs : List Record} {p : Partition} {config : TopicConfig}
    {now : Int64}

/-- A record with a greater offset than the one noted for its key replaces it. -/
theorem noteLatest_keyed {cutoff : Int64} {r : Record} (hkey : r.key = some key)
    (hold : ∀ l, latest.lookup key = some l → l.offset < r.offset) :
    noteLatest cutoff latest r = setLatest latest key ⟨r.offset, dropsAt cutoff r⟩ := by
  unfold noteLatest
  rw [hkey]
  dsimp only
  cases hlookup : latest.lookup key with
  | none => rfl
  | some l =>
    have := hold l hlookup
    dsimp only
    rw [if_neg (by omega)]
    rfl

theorem newest_singleton (r : Record) (k : Bytes) :
    newest Record.key [r] k = if r.key = some k then some r else none := by
  unfold newest
  by_cases hk : r.key = some k
  · rw [if_pos hk, List.filter_cons_of_pos (by simpa using hk)]
    rfl
  · rw [if_neg hk, List.filter_cons_of_neg (by simpa using hk)]
    rfl

/-- The first pass remembers the newest record of each key. -/
theorem lookup_foldl_noteLatest (cutoff : Int64) (hs : rs.Pairwise fun a b => a.offset < b.offset)
    (k : Bytes) :
    (rs.foldl (noteLatest cutoff) []).lookup k =
      (newest Record.key rs k).map fun r => ⟨r.offset, dropsAt cutoff r⟩ := by
  induction rs using List.reverseRecOn generalizing k with
  | nil => rfl
  | append_singleton rs r ih =>
    obtain ⟨hfront, _, hlast⟩ := List.pairwise_append.mp hs
    rw [List.foldl_append, List.foldl_cons, List.foldl_nil, newest_append, newest_singleton]
    cases hkey : r.key with
    | none =>
      rw [noteLatest, hkey, if_neg nofun, Option.none_or]
      exact ih hfront k
    | some key =>
      have hold (l : Latest) (hl : (rs.foldl (noteLatest cutoff) []).lookup key = some l) :
          l.offset < r.offset := by
        rw [ih hfront] at hl
        obtain ⟨x, hx, rfl⟩ := Option.map_eq_some_iff.mp hl
        exact hlast x (mem_of_newest hx).1 r List.mem_cons_self
      rw [noteLatest_keyed hkey hold, lookup_setLatest]
      by_cases hk : k = key
      · rw [if_pos hk, if_pos (congrArg some hk.symm)]
        rfl
      · rw [if_neg hk, if_neg (fun h => hk (Option.some.inj h).symm), Option.none_or]
        exact ih hfront k

/-! ### What survives -/

/-- Records in the order of their offsets are all different. -/
theorem nodup_of_sorted (hs : rs.Pairwise fun a b => a.offset < b.offset) : rs.Nodup := by
  refine List.Pairwise.imp (fun {a b} hlt => ?_) hs
  rintro rfl
  exact Nat.lt_irrefl _ hlt

/-- A compaction of records in order keeps the newest of each key. -/
theorem survivorsOf_eq (cutoff : Int64) (hs : rs.Pairwise fun a b => a.offset < b.offset) :
    survivorsOf cutoff rs = compacted Record.key (dropsAt cutoff) rs := by
  refine List.filter_congr fun r hr => ?_
  unfold survives stays
  cases hkey : r.key with
  | none => rfl
  | some k =>
    dsimp only
    rw [lookup_foldl_noteLatest cutoff hs]
    cases hnew : newest Record.key rs k with
    | none => exact absurd hkey (newest_eq_none.mp hnew r hr)
    | some a =>
      have hsame : a.offset = r.offset ↔ a = r := by
        refine ⟨fun hoff => ?_, fun h => h ▸ rfl⟩
        have hgreatest := (newest_iff_greatest hs).mp hnew
        have := (newest_iff_greatest hs).mpr
          ⟨hr, hkey, fun x hx hxk => hoff ▸ hgreatest.2.2 x hx hxk⟩
        exact Option.some.inj (hnew.symm.trans this)
      by_cases ha : a = r
      · simp [ha]
      · have hne : ¬a.offset = r.offset := fun h => ha (hsame.mp h)
        simp [ha, hne]

/-! ### Counting -/

theorem nodup_keys_setLatest (h : (latest.map Prod.fst).Nodup) (key : Bytes) (l : Latest) :
    ((setLatest latest key l).map Prod.fst).Nodup := by
  rw [setLatest, List.map_cons, List.nodup_cons]
  refine ⟨fun hmem => ?_, h.sublist (List.filter_sublist.map _)⟩
  obtain ⟨e, he, heq⟩ := List.mem_map.mp hmem
  have hne : e.1 ≠ key := by simpa using (List.mem_filter.mp he).2
  exact hne heq

theorem nodup_keys_noteLatest (cutoff : Int64) (h : (latest.map Prod.fst).Nodup) (r : Record) :
    ((noteLatest cutoff latest r).map Prod.fst).Nodup := by
  unfold noteLatest
  split
  · exact h
  · dsimp only
    split
    · split
      · exact h
      · exact nodup_keys_setLatest h _ _
    · exact nodup_keys_setLatest h _ _

theorem nodup_keys_foldl (cutoff : Int64) (rs : List Record) {latest : List (Bytes × Latest)}
    (h : (latest.map Prod.fst).Nodup) :
    ((rs.foldl (noteLatest cutoff) latest).map Prod.fst).Nodup := by
  induction rs generalizing latest with
  | nil => exact h
  | cons r rs ih => exact ih (nodup_keys_noteLatest cutoff h r)

theorem mem_iff_lookup (h : (latest.map Prod.fst).Nodup) {l : Latest} :
    (k, l) ∈ latest ↔ latest.lookup k = some l := by
  induction latest with
  | nil => exact iff_of_false List.not_mem_nil nofun
  | cons e latest ih =>
    rw [List.map_cons, List.nodup_cons] at h
    rw [List.lookup_cons, List.mem_cons]
    by_cases hk : k = e.1
    · rw [hk, beq_self_eq_true]
      constructor
      · rintro (heq | hmem)
        · rw [← heq]
        · exact absurd (List.mem_map.mpr ⟨_, hmem, rfl⟩) h.1
      · intro heq
        exact Or.inl (by rw [← Option.some.inj heq])
    · rw [beq_false_of_ne hk, ← ih h.2]
      refine ⟨fun hmem => hmem.resolve_left fun heq => hk (congrArg Prod.fst heq), Or.inr⟩

theorem length_keyless_add_keys (rs : List Record) :
    (rs.filter (·.key.isNone)).length + (rs.filterMap Record.key).length = rs.length := by
  induction rs with
  | nil => rfl
  | cons r rs ih =>
    cases hkey : r.key with
    | none =>
      rw [List.filter_cons_of_pos (by rw [hkey]; rfl), List.filterMap_cons_none hkey,
        List.length_cons, List.length_cons]
      omega
    | some k =>
      rw [List.filter_cons_of_neg (by rw [hkey]; exact Bool.false_ne_true),
        List.filterMap_cons_some hkey, List.length_cons, List.length_cons]
      omega

/-- The first pass counts what the second keeps. -/
theorem kept_eq (cutoff : Int64) (hs : rs.Pairwise fun a b => a.offset < b.offset) :
    (rs.filter (·.key.isNone)).length +
      ((rs.foldl (noteLatest cutoff) []).filter fun e => !e.2.drop).length =
        (survivorsOf cutoff rs).length := by
  have hnodup := @nodup_keys_foldl cutoff rs [] List.nodup_nil
  have hkeys : ((rs.foldl (noteLatest cutoff) []).filter fun e => !e.2.drop).map Prod.fst |>.Perm
      ((compacted Record.key (dropsAt cutoff) rs).filterMap Record.key) := by
    refine (List.perm_ext_iff_of_nodup (hnodup.sublist (List.filter_sublist.map _))
      (nodup_keys_compacted (nodup_of_sorted hs))).mpr fun k => ?_
    rw [mem_keys_compacted, List.mem_map]
    constructor
    · rintro ⟨⟨k', l⟩, he, rfl⟩
      obtain ⟨hmem, hdrop⟩ := List.mem_filter.mp he
      rw [mem_iff_lookup hnodup, lookup_foldl_noteLatest cutoff hs] at hmem
      obtain ⟨r, hr, rfl⟩ := Option.map_eq_some_iff.mp hmem
      exact ⟨r, hr, by simpa using hdrop⟩
    · rintro ⟨r, hr, hdrop⟩
      refine ⟨(k, ⟨r.offset, dropsAt cutoff r⟩),
        List.mem_filter.mpr ⟨?_, by simpa using hdrop⟩, rfl⟩
      rw [mem_iff_lookup hnodup, lookup_foldl_noteLatest cutoff hs, hr]
      rfl
  have hkeyless : (compacted Record.key (dropsAt cutoff) rs).filter (·.key.isNone) =
      rs.filter (·.key.isNone) := by
    rw [compacted, List.filter_filter]
    refine List.filter_congr fun r _ => ?_
    cases hkey : r.key with
    | none => simp [stays, hkey]
    | some k => rfl
  rw [survivorsOf_eq cutoff hs,
    ← length_keyless_add_keys (compacted Record.key (dropsAt cutoff) rs), hkeyless,
    ← hkeys.length_eq, List.length_map]

/-! ### The pass -/

/-- The records of the sealed segments. -/
def Partition.sealedPart (p : Partition) : List Record :=
  p.sealedSegments.flatMap Segment.records

/-- The bases of the segments increase. -/
def Partition.Increasing (p : Partition) : Prop :=
  p.segments.Pairwise fun a b => a.baseOffset < b.baseOffset

theorem Partition.Increasing.sealed_lt (h : p.Increasing) :
    ∀ s ∈ p.sealedSegments, s.baseOffset < p.active.baseOffset :=
  fun s hs => (List.pairwise_append.mp h).2.2 s hs _ List.mem_cons_self

theorem Partition.Increasing.sealed_eq (h : p.Increasing) :
    p.segments.filter (·.baseOffset < p.active.baseOffset) = p.sealedSegments := by
  rw [Partition.segments, List.filter_append, List.filter_eq_self.mpr fun s hs =>
    decide_eq_true (h.sealed_lt s hs)]
  simp

/-- Segments in the order of their bases and records in the order of their offsets. -/
structure Partition.Ordered (p : Partition) : Prop where
  bases : p.segments.Pairwise fun a b => a.baseOffset < b.baseOffset
  records : p.records.Pairwise fun a b => a.offset < b.offset

namespace Partition

theorem Holds.inOrder {parts : List Part} {tail : List Record} (h : p.Holds parts tail) :
    p.Ordered :=
  ⟨h.stacked.ordered, h.records ▸ h.sorted⟩

theorem records_eq (p : Partition) : p.records = p.sealedPart ++ p.active.records := by
  rw [Partition.records, Partition.segments, List.flatMap_append, List.flatMap_singleton]
  rfl

theorem Ordered.sealed_eq (h : p.Ordered) :
    p.segments.filter (·.baseOffset < p.active.baseOffset) = p.sealedSegments :=
  Partition.Increasing.sealed_eq h.bases

theorem Ordered.sealedPart (h : p.Ordered) :
    p.sealedPart.Pairwise fun a b => a.offset < b.offset := by
  have hrecords := h.records
  rw [Partition.records_eq] at hrecords
  exact (List.pairwise_append.mp hrecords).1

end Partition

theorem sealedRecords_eq {segs : List Segment} (h : sealedRecords segs = some rs) :
    rs = segs.flatMap Segment.records := by
  induction segs generalizing rs with
  | nil => cases h; rfl
  | cons s segs ih =>
    obtain ⟨first, hfirst, h⟩ := Option.bind_eq_some_iff.mp h
    obtain ⟨more, hmore, h⟩ := Option.bind_eq_some_iff.mp h
    cases h
    have heq : first = s.records := by
      unfold Segment.forEachRecord at hfirst
      split at hfirst <;> cases hfirst <;> rfl
    rw [List.flatMap_cons, heq, ih hmore]

/-- A scan of the output finds what was written to it. -/
theorem writeSurvivors_scan {survivors : List Record} {base : Nat}
    (hv : ∀ r ∈ survivors, r.Valid ∧ (encodeRecord r).length ≤ readWindowBytes)
    (h : writeSurvivors survivors base = some output) :
    output.walk = ⟨RecordCursor.positioned 0 survivors, (encodeAll survivors).length, none⟩ := by
  unfold writeSurvivors at h
  split at h
  · cases h
  · cases h
    have hwalk := @RecordCursor.walk_encoded survivors (encodeAll survivors) [] [] [] .clean
      (by simp) (encodeAll survivors).length readWindowBytes (by simp)
      fun r hr => ⟨(hv r hr).1, Nat.le_trans (hv r hr).2 (Nat.le_max_left ..)⟩
    rwa [List.length_nil, Nat.zero_add] at hwalk

/-- What a pass does to the partition in which it swaps. -/
theorem Partition.Ordered.swap {q p' : Partition} (hp : p.Ordered) {c : Compacting}
    (hc : q.compactRead config now = some c) (hs : p.compactSwap c = some p')
    (hwin : ∀ r ∈ p.sealedPart, (encodeRecord r).length ≤ readWindowBytes) :
    p'.sealedSegments = [c.output] ∧ p'.active = p.active ∧
      c.output.forEachRecord = some (compacted Record.key
        (dropsAt (config.tombstoneCutoff now)) p.sealedPart) ∧
      c.output.baseOffset < p.active.baseOffset := by
  have hread := Partition.compactRead_of_swap hc hs
  obtain ⟨rfl, _⟩ := Partition.compactSwap_eq hs
  unfold Partition.compactRead at hread
  rw [hp.sealed_eq] at hread
  obtain ⟨lowest, hlowest, hread⟩ := Option.bind_eq_some_iff.mp hread
  obtain ⟨records, hrecords, hread⟩ := Option.bind_eq_some_iff.mp hread
  obtain rfl : records = p.sealedPart := sealedRecords_eq hrecords
  dsimp only at hread
  split at hread
  · cases hread
  · obtain ⟨output, houtput, hread⟩ := Option.bind_eq_some_iff.mp hread
    cases hread
    have hsub := survivorsOf_sublist (config.tombstoneCutoff now) p.sealedPart
    have hwalk := writeSurvivors_scan (fun r hr => by
      obtain ⟨s, _, hrs⟩ := mem_sealedRecords hrecords (hsub.subset hr)
      exact ⟨s.records_valid r hrs, hwin r (hsub.subset hr)⟩) houtput
    refine ⟨rfl, rfl, ?_, ?_⟩
    · rw [← survivorsOf_eq _ hp.sealedPart, Segment.forEachRecord, hwalk]
      show some output.records = some (survivorsOf (config.tombstoneCutoff now) p.sealedPart)
      rw [Segment.records, hwalk, RecordCursor.map_snd_positioned]
      rfl
    · have hbase : output.baseOffset = lowest.baseOffset := by
        unfold writeSurvivors at houtput
        split at houtput <;> cases houtput
        rfl
      rw [hbase]
      exact (List.pairwise_append.mp hp.bases).2.2 lowest (List.mem_of_head? hlowest) _
        List.mem_cons_self

/-! ### The table -/

/-- The value of a key: that of its newest record, none if that is empty. -/
def tableView (rs : List Record) (key : Bytes) : Option Bytes :=
  (newest Record.key rs key).bind fun r => if r.value = [] then none else some r.value

theorem tableView_compacted (cutoff : Int64) (log later : List Record) (key : Bytes) :
    tableView (compacted Record.key (dropsAt cutoff) log ++ later) key =
      tableView (log ++ later) key := by
  refine bind_newest_compacted (fun r hdrop => ?_) log later key
  rw [dropsAt, Bool.and_eq_true, List.isEmpty_iff] at hdrop
  rw [if_pos hdrop.1]

/-- What a compaction with this cutoff, in milliseconds, is to keep of the records `rs`. -/
def Kept (cutoff : Int) (rs : List Record) (r : Record) : Prop :=
  r.key = none ∨ (∀ x ∈ rs, x.key = r.key → x.offset ≤ r.offset) ∧
    ¬(r.value = [] ∧ r.timestampMs.toInt < cutoff)

instance (cutoff : Int) (rs : List Record) (r : Record) : Decidable (Kept cutoff rs r) :=
  inferInstanceAs (Decidable (_ ∨ _ ∧ _))

theorem compacted_eq_kept (cutoff : Int64) (hs : rs.Pairwise fun a b => a.offset < b.offset) :
    compacted Record.key (dropsAt cutoff) rs =
      rs.filter fun r => decide (Kept cutoff.toInt rs r) := by
  refine List.filter_congr fun r hr => ?_
  rw [Bool.eq_iff_iff, decide_eq_true_iff, Kept]
  cases hkey : r.key with
  | none => simp [stays, hkey]
  | some k =>
    rw [stays_iff hkey, newest_iff_greatest hs]
    simp only [hr, hkey, true_and, reduceCtorEq, false_or]
    refine and_congr_right fun _ => ?_
    rw [← Bool.not_eq_true, dropsAt, Bool.and_eq_true, List.isEmpty_iff, decide_eq_true_iff,
      Int64.lt_iff_toInt_lt]

theorem toInt_toInt64 {x : UInt64} (h : x.toNat < 2 ^ 63) : x.toInt64.toInt = x.toNat := by
  show x.toBitVec.toInt = _
  rw [BitVec.toInt_eq_toNat_of_lt]
  · rfl
  · show 2 * x.toNat < 2 ^ 64
    omega

theorem toInt_tombstoneCutoff (hnow : 0 ≤ now.toInt)
    (hret : config.tombstoneRetentionMs.toNat < 2 ^ 63) :
    (config.tombstoneCutoff now).toInt = now.toInt - config.tombstoneRetentionMs.toNat := by
  have hmax := now.toInt_lt
  have hlow : Int64.minValue.toInt = -2 ^ 63 := by decide
  have hhigh : Int64.maxValue.toInt = 2 ^ 63 - 1 := by decide
  rw [TopicConfig.tombstoneCutoff, satSubI64, toInt_toInt64 hret, if_neg (by omega),
    if_neg (by omega), Int64.toInt_ofInt_of_le (by omega) (by omega)]

/-- A pass over records of which all survive leaves them alone. -/
theorem compactPartition_nothing (hp : p.Ordered) (hsealed : p.sealedSegments = [output])
    {log : List Record} (hread : output.forEachRecord = some (compacted Record.key
      (dropsAt (config.tombstoneCutoff now)) log)) :
    p.compactPartition p config now = .ok none := by
  have hrecords : readSealed [output] = .ok (compacted Record.key
      (dropsAt (config.tombstoneCutoff now)) log) := by
    rw [readSealed_eq, sealedRecords, hread]
    simp [sealedRecords]
  have hsorted : (compacted Record.key (dropsAt (config.tombstoneCutoff now)) log).Pairwise
      fun a b => a.offset < b.offset := by
    have hpart :
        p.sealedPart = compacted Record.key (dropsAt (config.tombstoneCutoff now)) log := by
      rw [Partition.sealedPart, hsealed, ← sealedRecords_eq (readSealed_eq.mp hrecords)]
    exact hpart ▸ hp.sealedPart
  have hkept := kept_eq (config.tombstoneCutoff now) hsorted
  rw [survivorsOf_eq _ hsorted, compacted_compacted] at hkept
  unfold Partition.compactPartition
  rw [hp.sealed_eq, hsealed]
  simp only [List.head?_cons, hrecords]
  exact if_pos (by
    show List.length _ - _ = 0
    exact Nat.sub_eq_zero_of_le (Nat.le_of_eq hkept.symm))

/-- **Compaction keeps exactly the right records.** Take a partition whose segments and records
are in order, with sealed records that fit in the window, and a pass that read `q` and reported
success in `p`. The sealed part then holds, in order and unchanged, the records without a key
and the newest sealed record of each key, unless that is a tombstone from before the cutoff;
the active segment is untouched; the table of the whole partition is the same; and another pass
with the same cutoff finds nothing to do. -/
theorem compaction_keeps_newest {q p p' : Partition} (hp : p.Ordered)
    (hwin : ∀ r ∈ p.sealedPart, (encodeRecord r).length ≤ readWindowBytes)
    {config : TopicConfig} {now : Int64} (hnow : 0 ≤ now.toInt)
    (hret : config.tombstoneRetentionMs.toNat < 2 ^ 63) {report : CompactionReport}
    (h : q.compactPartition p config now = .ok (some (p', report))) :
    p'.sealedPart = p.sealedPart.filter (fun r => decide
        (Kept (now.toInt - config.tombstoneRetentionMs.toNat) p.sealedPart r)) ∧
      p'.active = p.active ∧
      (∀ key, tableView p'.records key = tableView p.records key) ∧
      ∀ config' now', TopicConfig.tombstoneCutoff config' now' = config.tombstoneCutoff now →
        p'.compactPartition p' config' now' = .ok none := by
  obtain ⟨c, hc, hs⟩ := Partition.compactPartition_some h
  obtain ⟨hsealed, hactive, hread, hbase⟩ := hp.swap hc hs hwin
  have hpart : p'.sealedPart = compacted Record.key (dropsAt (config.tombstoneCutoff now))
      p.sealedPart := by
    have hone : sealedRecords [c.output] = some (compacted Record.key
        (dropsAt (config.tombstoneCutoff now)) p.sealedPart) := by
      rw [sealedRecords, hread]
      simp [sealedRecords]
    rw [Partition.sealedPart, hsealed, ← sealedRecords_eq hone]
  have hrecords : p'.records = compacted Record.key (dropsAt (config.tombstoneCutoff now))
      p.sealedPart ++ p.active.records := by
    rw [Partition.records_eq, hpart, hactive]
  have hp' : p'.Ordered := by
    refine ⟨?_, ?_⟩
    · rw [Partition.segments, hsealed, hactive]
      simpa using hbase
    · rw [hrecords]
      have hsorted := hp.records
      rw [Partition.records_eq] at hsorted
      exact hsorted.sublist (List.filter_sublist.append (List.Sublist.refl _))
  refine ⟨?_, hactive, fun key => ?_, fun config' now' hcut => ?_⟩
  · rw [hpart, compacted_eq_kept _ hp.sealedPart, toInt_tombstoneCutoff hnow hret]
  · rw [hrecords, Partition.records_eq, tableView_compacted]
  · exact compactPartition_nothing hp' hsealed (hcut ▸ hread)

/-- Two versions of a key and a record without one, each in its segment. -/
def versions : Option (Partition × List Nat) :=
  tinySegments.appendBatch [⟨some [1], [1], some 0, none⟩, ⟨some [1], [2], some 100, none⟩,
    ⟨none, [3], some 100, none⟩] .policy 100

theorem versions_isSome : versions.isSome := by decide +kernel

def versionsPartition : Partition := (versions.get versions_isSome).1

theorem versions_ordered : versionsPartition.Ordered := ⟨by decide +kernel, by decide +kernel⟩

/-- Whether a pass replaced the sealed segments. -/
def replaced (result : Except CompactionError (Option (Partition × CompactionReport))) : Bool :=
  result.toOption.join.isSome

theorem compaction_keeps_newest_versions :
    ∃ p' report, versionsPartition.compactPartition versionsPartition keepHalf 100 =
        .ok (some (p', report)) ∧ p'.sealedPart = [⟨1, 100, some [1], [2]⟩] := by
  have hok : replaced (versionsPartition.compactPartition versionsPartition keepHalf 100) := by
    decide +kernel
  cases hres : versionsPartition.compactPartition versionsPartition keepHalf 100 with
  | error e => rw [hres] at hok; cases hok
  | ok result =>
    cases result with
    | none => rw [hres] at hok; cases hok
    | some found =>
      refine ⟨found.1, found.2, rfl, ?_⟩
      rw [(compaction_keeps_newest versions_ordered (by decide +kernel) (by decide) (by decide)
        hres).1]
      decide +kernel

end EventStream.Storage
