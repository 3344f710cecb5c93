import Mathlib.Logic.Relation
import EventStream.Storage.Survivors

/-! A compaction as the partition directory sees it (`compaction.rs`, `recover.rs`).

A pass writes two temporary files, then a marker, and after it renames the files into place
and unlinks the segments they replace. A crash keeps the first of these operations, and the
next start finishes what the marker says; it may itself be interrupted, any number of times.
`Midway` says what such a directory looks like: finishing it leads to the directory before
the pass or to the one after it. -/
namespace EventStream.Storage

/-! ### Operations on the directory -/

inductive DirOp where
  /-- A temporary file is created, or its contents so far are these. -/
  | tmpLog (base : Nat) (bytes : Bytes)
  | tmpIndex (base : Nat) (bytes : Bytes)
  | removeTmpLog (base : Nat)
  | removeTmpIndex (base : Nat)
  | writeMarker (m : CompactionMarker)
  | removeMarker
  | renameLog (base : Nat)
  | renameIndex (base : Nat)
  | removeLog (base : Nat)
  | removeIndex (base : Nat)
  deriving DecidableEq, Repr

/-- Renaming a file that does not exist does nothing: recovery tests for it first. -/
def DirOp.apply (d : Directory) : DirOp → Directory
  | .tmpLog base bytes => { d with tmpLogs := renameOver base (some bytes) d.tmpLogs }
  | .tmpIndex base bytes => { d with tmpIndexes := renameOver base (some bytes) d.tmpIndexes }
  | .removeTmpLog base => { d with tmpLogs := removeFiles [base] d.tmpLogs }
  | .removeTmpIndex base => { d with tmpIndexes := removeFiles [base] d.tmpIndexes }
  | .writeMarker m => { d with marker := some (some m) }
  | .removeMarker => { d with marker := none }
  | .renameLog base =>
    { d with
      logs := renameOver base (d.tmpLogs.lookup base) d.logs
      tmpLogs := removeFiles [base] d.tmpLogs }
  | .renameIndex base =>
    { d with
      indexes := renameOver base (d.tmpIndexes.lookup base) d.indexes
      tmpIndexes := removeFiles [base] d.tmpIndexes }
  | .removeLog base => { d with logs := removeFiles [base] d.logs }
  | .removeIndex base => { d with indexes := removeFiles [base] d.indexes }

def Directory.after (d : Directory) (ops : List DirOp) : Directory := ops.foldl DirOp.apply d

/-- What follows the marker, in a pass and in `finish_compaction` alike. -/
def CompactionMarker.finishOps (m : CompactionMarker) : List DirOp :=
  [.renameLog m.base, .renameIndex m.base] ++
    m.victims.flatMap (fun v => [.removeLog v, .removeIndex v]) ++ [.removeMarker]

/-- The operations of `finish_compaction` on a directory. -/
def Directory.finishOps (d : Directory) : List DirOp :=
  match d.marker with
  | none => []
  | some none => [.removeMarker]
  | some (some m) => m.finishOps

/-- `sweep_compaction_tmp` removes temporary files, in the order `read_dir` lists them. -/
def DirOp.Sweeps : DirOp → Prop
  | .removeTmpLog _ => True
  | .removeTmpIndex _ => True
  | _ => False

/-- A crash inside recovery, in `finish_compaction` or in the sweep after it. -/
inductive Directory.Interrupted : Directory → Directory → Prop where
  | finishing (d : Directory) (j : Nat) : Interrupted d (d.after (d.finishOps.take j))
  | sweeping (d : Directory) {ops : List DirOp} (hops : ∀ op ∈ ops, op.Sweeps) :
      Interrupted d (d.finishCompaction.after ops)

/-! ### The operations of a pass -/

def Compacting.marker (c : Compacting) : CompactionMarker :=
  { base := c.output.baseOffset
    victims := (c.sealedSegments.map (·.baseOffset)).filter (· ≠ c.output.baseOffset) }

def removeTmpOps (base : Nat) : List DirOp := [.removeTmpLog base, .removeTmpIndex base]

/-- Writing the temporary files. Until a file is fsynced a crash may leave anything of it. -/
def Compacting.writeOps (c : Compacting) (partLog partIndex : Bytes) : List DirOp :=
  [.tmpLog c.output.baseOffset partLog, .tmpLog c.output.baseOffset c.output.log,
    .tmpIndex c.output.baseOffset partIndex,
    .tmpIndex c.output.baseOffset c.output.indexFile]

/-- The second half of a pass, in the partition as it is when the appender lock is taken. -/
def Partition.swapOps (p : Partition) (c : Compacting) : List DirOp :=
  if (p.compactSwap c).isSome then .writeMarker c.marker :: c.marker.finishOps
  else removeTmpOps c.output.baseOffset

/-- A pass that read `q` and finds the partition to be `p` when it takes the lock. One that is
given up while it reads may have begun its log. -/
def Partition.passOps (q p : Partition) (config : TopicConfig) (now : Int64)
    (partLog partIndex : Bytes) : List DirOp :=
  match q.compactRead config now with
  | none =>
    let base := (q.segments.head?.map (·.baseOffset)).getD 0
    .tmpLog base partLog :: removeTmpOps base
  | some c => c.writeOps partLog partIndex ++ p.swapOps c

/-! ### Files by their base -/

theorem removeFiles_append (bases : List Nat) (xs ys : List (Nat × Bytes)) :
    removeFiles bases (xs ++ ys) = removeFiles bases xs ++ removeFiles bases ys :=
  List.filter_append ..

variable {bases : List Nat} {files : List (Nat × Bytes)} {m : CompactionMarker} {d e t : Directory}
    {ops : List DirOp} {c : Compacting} {v base : Nat} {p p' : Partition}

theorem removeFiles_eq_self (h : ∀ f ∈ files, f.1 ∉ bases) : removeFiles bases files = files :=
  List.filter_eq_self.mpr fun f hf => decide_eq_true (h f hf)

theorem removeFiles_eq_nil (h : ∀ f ∈ files, f.1 ∈ bases) : removeFiles bases files = [] :=
  List.filter_eq_nil_iff.mpr fun f hf => by simpa using h f hf

theorem removeFiles_comm (xs ys : List Nat) (files : List (Nat × Bytes)) :
    removeFiles xs (removeFiles ys files) = removeFiles ys (removeFiles xs files) :=
  List.filter_comm ..

theorem removeFiles_cons (v : Nat) (bases : List Nat) (files : List (Nat × Bytes)) :
    removeFiles (v :: bases) files = removeFiles bases (removeFiles [v] files) := by
  unfold removeFiles
  rw [List.filter_filter]
  refine List.filter_congr fun f _ => ?_
  rw [Bool.eq_iff_iff]
  simp only [decide_eq_true_eq, Bool.and_eq_true, List.mem_cons, List.not_mem_nil, or_false]
  tauto

/-- A victim that is gone already makes no difference. -/
theorem removeFiles_removed (h : v ∈ bases) (files : List (Nat × Bytes)) :
    removeFiles bases (removeFiles [v] files) = removeFiles bases files := by
  unfold removeFiles
  rw [List.filter_filter]
  refine List.filter_congr fun f _ => ?_
  rw [Bool.eq_iff_iff]
  simp only [decide_eq_true_eq, Bool.and_eq_true, List.mem_singleton, and_iff_left_iff_imp]
  exact fun hf hv => hf (hv ▸ h)

theorem mem_of_lookup {bytes : Bytes} (h : files.lookup base = some bytes) :
    (base, bytes) ∈ files := by
  induction files with
  | nil => cases h
  | cons f files ih =>
    rw [List.lookup_cons] at h
    split at h
    · rename_i hbase
      cases h
      rw [beq_iff_eq.mp hbase]
      exact List.mem_cons_self
    · exact List.mem_cons_of_mem _ (ih h)

theorem lookup_removeFiles (base : Nat) (files : List (Nat × Bytes)) :
    (removeFiles [base] files).lookup base = none := by
  refine List.lookup_eq_none_iff.mpr fun f hf => ?_
  have := (List.mem_filter.mp hf).2
  simpa using fun h => (of_decide_eq_true this) (List.mem_singleton.mpr h.symm)

theorem lookup_renameOver (base : Nat) (bytes : Bytes) (files : List (Nat × Bytes)) :
    (renameOver base (some bytes) files).lookup base = some bytes := by
  rw [renameOver, List.lookup_append, lookup_removeFiles]
  simp

theorem renameOver_removeFiles (h : v ≠ base) (tmp : Option Bytes) (files : List (Nat × Bytes)) :
    renameOver base tmp (removeFiles [v] files) = removeFiles [v] (renameOver base tmp files) := by
  cases tmp with
  | none => rfl
  | some bytes =>
    have hkept : removeFiles [v] [(base, bytes)] = [(base, bytes)] :=
      removeFiles_eq_self fun f hf => by
        rw [List.mem_singleton.mp hf]
        exact fun hb => h (List.mem_singleton.mp hb).symm
    rw [renameOver, renameOver, removeFiles_append, hkept, removeFiles_comm]

/-! ### Finishing -/

theorem Directory.after_append (d : Directory) (xs ys : List DirOp) :
    d.after (xs ++ ys) = (d.after xs).after ys := List.foldl_append

/-- The operations up to the removal of the marker. -/
def DirOp.Finishes (m : CompactionMarker) : DirOp → Prop
  | .renameLog base => base = m.base
  | .renameIndex base => base = m.base
  | .removeLog v => v ∈ m.victims
  | .removeIndex v => v ∈ m.victims
  | _ => False

theorem CompactionMarker.mem_finishOps (m : CompactionMarker) :
    ∀ op ∈ [.renameLog m.base, .renameIndex m.base] ++
      m.victims.flatMap (fun v => [DirOp.removeLog v, .removeIndex v]), op.Finishes m := by
  intro op hop
  rcases List.mem_append.mp hop with hop | hop
  · simp only [List.mem_cons, List.not_mem_nil, or_false] at hop
    rcases hop with rfl | rfl <;> exact rfl
  · obtain ⟨v, hv, hop⟩ := List.mem_flatMap.mp hop
    simp only [List.mem_cons, List.not_mem_nil, or_false] at hop
    rcases hop with rfl | rfl <;> exact hv

/-- Two directories that finishing makes the same, as far as segments go. -/
def Directory.Alike (d e : Directory) : Prop :=
  d.marker = e.marker ∧ d.finishCompaction.logs = e.finishCompaction.logs ∧
    d.finishCompaction.indexes = e.finishCompaction.indexes

/-- What has been done already makes no difference to the end. -/
theorem DirOp.Finishes.alike {op : DirOp} (h : op.Finishes m) (hm : m.base ∉ m.victims)
    (hd : d.marker = some (some m)) : (op.apply d).Alike d := by
  unfold Directory.Alike Directory.finishCompaction
  cases op with
  | renameLog base =>
    cases h
    simp only [DirOp.apply, hd, lookup_removeFiles, renameOver, and_self]
  | renameIndex base =>
    cases h
    simp only [DirOp.apply, hd, lookup_removeFiles, renameOver, and_self]
  | removeLog v =>
    have hne : v ≠ m.base := fun hv => hm (hv ▸ h)
    simp only [DirOp.apply, hd, renameOver_removeFiles hne, removeFiles_removed h, and_self]
  | removeIndex v =>
    have hne : v ≠ m.base := fun hv => hm (hv ▸ h)
    simp only [DirOp.apply, hd, renameOver_removeFiles hne, removeFiles_removed h, and_self]
  | _ => exact h.elim

theorem Directory.after_alike (hm : m.base ∉ m.victims) (hops : ∀ op ∈ ops, op.Finishes m)
    (hd : d.marker = some (some m)) : (d.after ops).Alike d := by
  induction ops generalizing d with
  | nil => exact ⟨rfl, rfl, rfl⟩
  | cons op ops ih =>
    obtain ⟨hmarker, hlogs, hindexes⟩ := (hops op List.mem_cons_self).alike hm hd
    obtain ⟨hmarker', hlogs', hindexes'⟩ :=
      ih (fun o ho => hops o (List.mem_cons_of_mem _ ho)) (hmarker.trans hd)
    exact ⟨hmarker'.trans hmarker, hlogs'.trans hlogs, hindexes'.trans hindexes⟩

theorem Directory.after_victims (d : Directory) (victims : List Nat) :
    d.after (victims.flatMap fun v => [.removeLog v, .removeIndex v]) =
      { d with logs := removeFiles victims d.logs, indexes := removeFiles victims d.indexes } := by
  induction victims generalizing d with
  | nil =>
    have hnone (files : List (Nat × Bytes)) : removeFiles [] files = files :=
      removeFiles_eq_self fun _ _ => List.not_mem_nil
    rw [hnone, hnone]
    rfl
  | cons v victims ih =>
    rw [List.flatMap_cons, Directory.after_append, ih, removeFiles_cons v victims d.logs,
      removeFiles_cons v victims d.indexes]
    rfl

/-- All operations together are `finish_compaction`. -/
theorem Directory.after_finishOps (d : Directory) : d.after d.finishOps = d.finishCompaction := by
  unfold Directory.finishOps Directory.finishCompaction
  cases d.marker with
  | none => rfl
  | some marker =>
    cases marker with
    | none => rfl
    | some m =>
      dsimp only
      rw [CompactionMarker.finishOps, Directory.after_append, Directory.after_append,
        Directory.after_victims]
      rfl

/-! ### Directories in the middle of a pass -/

/-- A directory that recovery turns into `d`, if the marker was not written, or into `t`. -/
inductive Directory.Midway (d t : Directory) (m : CompactionMarker) : Directory → Prop where
  | before {e : Directory} (hmarker : e.marker = none) (hlogs : e.logs = d.logs)
      (hindexes : e.indexes = d.indexes) : Midway d t m e
  | during {e : Directory} (hmarker : e.marker = some (some m))
      (hlogs : e.finishCompaction.logs = t.logs)
      (hindexes : e.finishCompaction.indexes = t.indexes) : Midway d t m e
  | after {e : Directory} (hmarker : e.marker = none) (hlogs : e.logs = t.logs)
      (hindexes : e.indexes = t.indexes) : Midway d t m e

namespace Directory.Midway

variable {d t e e' : Directory} {m : CompactionMarker}

theorem finishCompaction (h : Midway d t m e) :
    Midway d t m e.finishCompaction ∧ e.finishCompaction.marker = none := by
  cases h with
  | before hmarker hlogs hindexes =>
    have heq : e.finishCompaction = e := by rw [Directory.finishCompaction, hmarker]
    rw [heq]
    exact ⟨.before hmarker hlogs hindexes, hmarker⟩
  | during hmarker hlogs hindexes =>
    have hnone : e.finishCompaction.marker = none := by
      rw [Directory.finishCompaction, hmarker]
    exact ⟨.after hnone hlogs hindexes, hnone⟩
  | after hmarker hlogs hindexes =>
    have heq : e.finishCompaction = e := by rw [Directory.finishCompaction, hmarker]
    rw [heq]
    exact ⟨.after hmarker hlogs hindexes, hmarker⟩

/-- A crash inside `finish_compaction`. -/
theorem finishing (hm : m.base ∉ m.victims) (h : Midway d t m e) (j : Nat) :
    Midway d t m (e.after (e.finishOps.take j)) := by
  by_cases hj : e.finishOps.length ≤ j
  · rw [List.take_of_length_le hj, Directory.after_finishOps]
    exact h.finishCompaction.1
  · cases h with
    | during hmarker hlogs hindexes =>
      have hops : e.finishOps = m.finishOps := by rw [Directory.finishOps, hmarker]
      rw [hops] at hj ⊢
      rw [CompactionMarker.finishOps] at hj ⊢
      rw [List.length_append, List.length_singleton] at hj
      rw [List.take_append_of_le_length (by omega)]
      obtain ⟨hmarker', hlogs', hindexes'⟩ := Directory.after_alike hm
        (fun op hop => m.mem_finishOps op (List.mem_of_mem_take hop)) hmarker
      exact .during (hmarker'.trans hmarker) (hlogs'.trans hlogs) (hindexes'.trans hindexes)
    | before hmarker _ _ =>
      rw [Directory.finishOps, hmarker] at hj
      exact absurd (Nat.zero_le j) hj
    | after hmarker _ _ =>
      rw [Directory.finishOps, hmarker] at hj
      exact absurd (Nat.zero_le j) hj

theorem sweeping (h : Midway d t m e) (he : e.marker = none) (hops : ∀ op ∈ ops, op.Sweeps) :
    Midway d t m (e.after ops) := by
  induction ops generalizing e with
  | nil => exact h
  | cons op ops ih =>
    have hsame : (op.apply e).marker = e.marker ∧ (op.apply e).logs = e.logs ∧
        (op.apply e).indexes = e.indexes := by
      have hop := hops op List.mem_cons_self
      cases op with
      | removeTmpLog base => exact ⟨rfl, rfl, rfl⟩
      | removeTmpIndex base => exact ⟨rfl, rfl, rfl⟩
      | _ => exact hop.elim
    obtain ⟨hmarker, hlogs, hindexes⟩ := hsame
    refine ih ?_ (hmarker.trans he) fun o ho => hops o (List.mem_cons_of_mem _ ho)
    cases h with
    | before hm hl hi => exact .before (hmarker.trans hm) (hlogs.trans hl) (hindexes.trans hi)
    | during hm _ _ =>
      rw [hm] at he
      cases he
    | after hm hl hi => exact .after (hmarker.trans hm) (hlogs.trans hl) (hindexes.trans hi)

theorem interrupted (hm : m.base ∉ m.victims) (h : Midway d t m e) (hi : e.Interrupted e') :
    Midway d t m e' := by
  cases hi with
  | finishing j => exact h.finishing hm j
  | sweeping hops => exact h.finishCompaction.1.sweeping h.finishCompaction.2 hops

/-- Any number of crashes during recovery. -/
theorem recovering (hm : m.base ∉ m.victims) (h : Midway d t m e)
    (hr : Relation.ReflTransGen Directory.Interrupted e e') : Midway d t m e' := by
  induction hr with
  | refl => exact h
  | tail _ hi ih => exact ih.interrupted hm hi

end Directory.Midway

/-! ### Opening -/

/-- Opening reads the segments of the finished directory, and nothing else. -/
theorem Partition.open_eq (hlogs : d.finishCompaction.logs = e.finishCompaction.logs)
    (hindexes : d.finishCompaction.indexes = e.finishCompaction.indexes) (segmentBytes : UInt64)
    (flushEveryRecords : Nat) :
    Partition.open d segmentBytes flushEveryRecords =
      Partition.open e segmentBytes flushEveryRecords := by
  unfold Partition.open Directory.sweepCompactionTmp
  dsimp only
  rw [hlogs, hindexes]

theorem Directory.Midway.open (h : d.Midway t m e) (hd : d.marker = none) (ht : t.marker = none)
    (segmentBytes : UInt64) (flushEveryRecords : Nat) :
    Partition.open e segmentBytes flushEveryRecords =
        Partition.open d segmentBytes flushEveryRecords ∨
      Partition.open e segmentBytes flushEveryRecords =
        Partition.open t segmentBytes flushEveryRecords := by
  have hd' := Directory.finishCompaction_of_none hd
  have ht' := Directory.finishCompaction_of_none ht
  cases h with
  | before hm hl hi =>
    have he := Directory.finishCompaction_of_none hm
    exact .inl (Partition.open_eq (by rw [he, hd', hl]) (by rw [he, hd', hi]) _ _)
  | during _ hl hi =>
    exact .inr (Partition.open_eq (by rw [ht', hl]) (by rw [ht', hi]) _ _)
  | after hm hl hi =>
    have he := Directory.finishCompaction_of_none hm
    exact .inr (Partition.open_eq (by rw [he, ht', hl]) (by rw [he, ht', hi]) _ _)

theorem recoverSegments_congr {xs ys : List (Nat × Bytes)} {logs : List (Nat × Bytes)}
    (h : ∀ f ∈ logs, xs.lookup f.1 = ys.lookup f.1) (next : Nat) :
    recoverSegments xs logs next = recoverSegments ys logs next := by
  induction logs generalizing next with
  | nil => rfl
  | cons f logs ih =>
    have hrest := ih fun g hg => h g (List.mem_cons_of_mem _ hg)
    rw [recoverSegments, recoverSegments, h f List.mem_cons_self]
    simp only [hrest]

/-- The order in which the directory lists its files does not matter. -/
theorem Partition.open_perm (hd : d.marker = none) (he : e.marker = none)
    (hlogs : d.logs.Perm e.logs) (hnodup : (d.logs.map Prod.fst).Nodup)
    (hindexes : ∀ f ∈ d.logs, d.indexes.lookup f.1 = e.indexes.lookup f.1) (segmentBytes : UInt64)
    (flushEveryRecords : Nat) :
    Partition.open d segmentBytes flushEveryRecords =
      Partition.open e segmentBytes flushEveryRecords := by
  have hsorted : (e.logs.mergeSort fun a b => a.1 ≤ b.1) =
      d.logs.mergeSort fun a b => a.1 ≤ b.1 :=
    mergeSort_eq_of_perm (hlogs.symm.trans (List.mergeSort_perm _ _).symm) (mergeSort_sorted _)
      (((List.mergeSort_perm _ _).map _).nodup_iff.mpr hnodup)
  unfold Partition.open Directory.sweepCompactionTmp
  dsimp only
  rw [Directory.finishCompaction_of_none hd, Directory.finishCompaction_of_none he, hsorted,
    recoverSegments_congr fun f hf => hindexes f (List.mem_mergeSort.mp hf)]

/-! ### The directory after a pass -/

/-- The output takes its place and the segments it was made of are gone. -/
def Directory.swapped (d : Directory) (c : Compacting) : Directory :=
  { logs := removeFiles c.marker.victims
      (renameOver c.output.baseOffset (some c.output.log) d.logs)
    indexes := removeFiles c.marker.victims
      (renameOver c.output.baseOffset (some c.output.indexFile) d.indexes)
    tmpLogs := []
    tmpIndexes := []
    marker := none }

theorem Compacting.base_notMem_victims (c : Compacting) : c.marker.base ∉ c.marker.victims :=
  fun h => (of_decide_eq_true (List.mem_filter.mp h).2) rfl

theorem Compacting.mem_victims {s : Segment} (hs : s ∈ c.sealedSegments)
    (hb : s.baseOffset ≠ c.output.baseOffset) : s.baseOffset ∈ c.marker.victims :=
  List.mem_filter.mpr ⟨List.mem_map_of_mem hs, decide_eq_true hb⟩

theorem take_append_cases {α : Type} (xs ys : List α) (j : Nat) :
    (∃ i, (xs ++ ys).take j = xs.take i) ∨ ∃ i, (xs ++ ys).take j = xs ++ ys.take i := by
  rw [List.take_append]
  by_cases hj : j ≤ xs.length
  · exact .inl ⟨j, by rw [Nat.sub_eq_zero_of_le hj, List.take_zero, List.append_nil]⟩
  · exact .inr ⟨j - xs.length, by rw [List.take_of_length_le (by omega)]⟩

/-- Writing and removing temporary files. -/
def DirOp.Temporary : DirOp → Prop
  | .tmpLog _ _ => True
  | .tmpIndex _ _ => True
  | .removeTmpLog _ => True
  | .removeTmpIndex _ => True
  | _ => False

theorem Directory.after_temporary (hops : ∀ op ∈ ops, op.Temporary) (d : Directory) :
    (d.after ops).logs = d.logs ∧ (d.after ops).indexes = d.indexes ∧
      (d.after ops).marker = d.marker := by
  induction ops generalizing d with
  | nil => exact ⟨rfl, rfl, rfl⟩
  | cons op ops ih =>
    obtain ⟨hlogs, hindexes, hmarker⟩ :=
      ih (fun o ho => hops o (List.mem_cons_of_mem _ ho)) (op.apply d)
    have hop := hops op List.mem_cons_self
    cases op with
    | tmpLog base bytes => exact ⟨hlogs, hindexes, hmarker⟩
    | tmpIndex base bytes => exact ⟨hlogs, hindexes, hmarker⟩
    | removeTmpLog base => exact ⟨hlogs, hindexes, hmarker⟩
    | removeTmpIndex base => exact ⟨hlogs, hindexes, hmarker⟩
    | _ => exact hop.elim

theorem Compacting.temporary_writeOps (c : Compacting) (partLog partIndex : Bytes) :
    ∀ op ∈ c.writeOps partLog partIndex, op.Temporary := by
  simp [Compacting.writeOps, DirOp.Temporary]

theorem temporary_removeTmpOps (base : Nat) : ∀ op ∈ removeTmpOps base, op.Temporary := by
  simp [removeTmpOps, DirOp.Temporary]

theorem Directory.Midway.of_temporary (hd : d.marker = none) (hops : ∀ op ∈ ops, op.Temporary) :
    d.Midway t m (d.after ops) := by
  obtain ⟨hlogs, hindexes, hmarker⟩ := Directory.after_temporary hops d
  exact .before (hmarker.trans hd) hlogs hindexes

/-- Once the marker is written, finishing puts the output in place. -/
theorem Directory.midway_written (d : Directory) (c : Compacting) (partLog partIndex : Bytes) :
    d.Midway (d.swapped c) c.marker
      ((d.after (c.writeOps partLog partIndex)).after [.writeMarker c.marker]) := by
  refine .during rfl ?_ ?_
  · show removeFiles _ (renameOver c.output.baseOffset
      ((renameOver c.output.baseOffset (some c.output.log) _).lookup c.output.baseOffset) _) = _
    rw [lookup_renameOver]
    rfl
  · show removeFiles _ (renameOver c.output.baseOffset
      ((renameOver c.output.baseOffset (some c.output.indexFile) _).lookup
        c.output.baseOffset) _) = _
    rw [lookup_renameOver]
    rfl

/-- A crash anywhere in a pass, if the swap goes through. -/
theorem Directory.midway_swap (hd : d.marker = none) (c : Compacting) (partLog partIndex : Bytes)
    (j : Nat) :
    d.Midway (d.swapped c) c.marker (d.after ((c.writeOps partLog partIndex ++
      .writeMarker c.marker :: c.marker.finishOps).take j)) := by
  rcases take_append_cases (c.writeOps partLog partIndex)
    (.writeMarker c.marker :: c.marker.finishOps) j with ⟨i, hi⟩ | ⟨i, hi⟩
  · rw [hi]
    exact .of_temporary hd fun op hop =>
      c.temporary_writeOps _ _ op (List.mem_of_mem_take hop)
  · rw [hi, Directory.after_append]
    cases i with
    | zero =>
      rw [← Directory.after_append, List.take_zero, List.append_nil]
      exact .of_temporary hd (c.temporary_writeOps _ _)
    | succ i =>
      have hmid := d.midway_written c partLog partIndex
      rw [List.take_succ_cons, ← List.singleton_append, Directory.after_append]
      exact hmid.finishing c.base_notMem_victims i

/-- A crash anywhere in a pass leaves the directory as it was, or one that finishing turns into
the directory of the swapped partition. -/
theorem Partition.midway_pass (hd : d.marker = none) (q p : Partition) (config : TopicConfig)
    (now : Int64) (partLog partIndex : Bytes) (j : Nat) :
    (∀ t m, d.Midway t m (d.after ((q.passOps p config now partLog partIndex).take j))) ∨
      ∃ c p', q.compactRead config now = some c ∧ p.compactSwap c = some p' ∧
        d.Midway (d.swapped c) c.marker
          (d.after ((q.passOps p config now partLog partIndex).take j)) := by
  unfold Partition.passOps
  split
  · refine .inl fun t m => .of_temporary hd fun op hop => ?_
    rcases List.mem_cons.mp (List.mem_of_mem_take hop) with rfl | hop
    · trivial
    · exact temporary_removeTmpOps _ op hop
  · rename_i c hc
    unfold Partition.swapOps
    cases hswap : p.compactSwap c with
    | none =>
      refine .inl fun t m => .of_temporary hd fun op hop => ?_
      rcases List.mem_append.mp (List.mem_of_mem_take hop) with hop | hop
      · exact c.temporary_writeOps _ _ op hop
      · exact temporary_removeTmpOps _ op hop
    | some p' => exact .inr ⟨c, p', hc, hswap, Directory.midway_swap hd c _ _ j⟩

/-- Recovery after a crash anywhere in a pass, itself interrupted any number of times, opens the
directory from before the pass or the swapped one. -/
theorem Partition.open_pass {d : Directory} (hd : d.marker = none) (q p : Partition)
    (config : TopicConfig) (now : Int64) (partLog partIndex : Bytes) (j : Nat) {e : Directory}
    (hr : Relation.ReflTransGen Directory.Interrupted
      (d.after ((q.passOps p config now partLog partIndex).take j)) e)
    (segmentBytes : UInt64) (flushEveryRecords : Nat) :
    Partition.open e segmentBytes flushEveryRecords =
        Partition.open d segmentBytes flushEveryRecords ∨
      ∃ c p', q.compactRead config now = some c ∧ p.compactSwap c = some p' ∧
        Partition.open e segmentBytes flushEveryRecords =
          Partition.open (d.swapped c) segmentBytes flushEveryRecords := by
  rcases Partition.midway_pass hd q p config now partLog partIndex j with hmid | hmid
  · have hmid := (hmid d ⟨0, []⟩).recovering List.not_mem_nil hr
    exact .inl ((hmid.open hd hd _ _).elim id id)
  · obtain ⟨c, p', hread, hswap, hmid⟩ := hmid
    rcases (hmid.recovering c.base_notMem_victims hr).open hd rfl segmentBytes
      flushEveryRecords with heq | heq
    · exact .inl heq
    · exact .inr ⟨c, p', hread, hswap, heq⟩

/-! ### The files of the swapped partition -/

theorem Partition.Increasing.swap_sealed (h : p.Increasing) (hswap : p.compactSwap c = some p') :
    c.sealedSegments = p.sealedSegments := by
  unfold Partition.compactSwap at hswap
  dsimp only at hswap
  split at hswap
  · rename_i hsame
    rw [← hsame.2, h.sealed_eq]
  · cases hswap

/-- Of the files of the sealed segments only the output is left; other files stay. -/
theorem removeFiles_sealed (h : c.Sound) (file : Segment → Bytes) (bytes : Bytes)
    {rest : List (Nat × Bytes)} (hrest : ∀ f ∈ rest, ∀ s ∈ c.sealedSegments, f.1 ≠ s.baseOffset) :
    removeFiles c.marker.victims (renameOver c.output.baseOffset (some bytes)
      ((c.sealedSegments.map fun s => (s.baseOffset, file s)) ++ rest)) =
        rest ++ [(c.output.baseOffset, bytes)] := by
  obtain ⟨lowest, hlowest, hout⟩ := h.base
  have hgone : removeFiles c.marker.victims (removeFiles [c.output.baseOffset]
      (c.sealedSegments.map fun s => (s.baseOffset, file s))) = [] := by
    refine removeFiles_eq_nil fun f hf => ?_
    obtain ⟨hmap, hne⟩ := List.mem_filter.mp hf
    obtain ⟨s, hs, rfl⟩ := List.mem_map.mp hmap
    refine Compacting.mem_victims hs fun hb => ?_
    exact of_decide_eq_true hne (List.mem_singleton.mpr hb)
  have hkept : removeFiles c.marker.victims (removeFiles [c.output.baseOffset] rest) = rest := by
    have hother : removeFiles [c.output.baseOffset] rest = rest :=
      removeFiles_eq_self fun f hf hb =>
        hrest f hf lowest hlowest ((List.mem_singleton.mp hb).trans hout.symm)
    rw [hother]
    refine removeFiles_eq_self fun f hf hv => ?_
    obtain ⟨s, hs, hb⟩ := List.mem_map.mp (List.mem_filter.mp hv).1
    exact hrest f hf s hs hb.symm
  have hplace : removeFiles c.marker.victims [(c.output.baseOffset, bytes)] =
      [(c.output.baseOffset, bytes)] :=
    removeFiles_eq_self fun f hf => by
      rw [List.mem_singleton.mp hf]
      exact c.base_notMem_victims
  rw [renameOver, removeFiles_append, removeFiles_append, removeFiles_append, hgone, hkept,
    hplace, List.nil_append]

theorem Partition.open_swapped (h : p.Increasing) (hsound : c.Sound)
    (hswap : p.compactSwap c = some p') (n : Nat) (index : Option Bytes) (segmentBytes : UInt64)
    (flushEveryRecords : Nat) :
    Partition.open ((p.crashed n index).swapped c) segmentBytes flushEveryRecords =
      Partition.open (p'.crashed n index) segmentBytes flushEveryRecords := by
  have hsealed := h.swap_sealed hswap
  obtain ⟨rfl, _⟩ := Partition.compactSwap_eq hswap
  have hbase : c.output.baseOffset < p.active.baseOffset := by
    obtain ⟨s, hs, hb⟩ := hsound.base
    rw [← hb]
    exact h.sealed_lt s (hsealed ▸ hs)
  have hactive (s : Segment) (hs : s ∈ c.sealedSegments) :
      p.active.baseOffset ≠ s.baseOffset := by
    have := h.sealed_lt s (hsealed ▸ hs)
    omega
  have hlogs : ((p.crashed n index).swapped c).logs =
      [(p.active.baseOffset, p.active.log.take n), (c.output.baseOffset, c.output.log)] := by
    unfold Directory.swapped Partition.crashed
    rw [← hsealed]
    exact removeFiles_sealed hsound Segment.log c.output.log fun f hf s hs => by
      rw [List.mem_singleton.mp hf]
      exact hactive s hs
  have hindexes : ((p.crashed n index).swapped c).indexes =
      (index.map fun b => (p.active.baseOffset, b)).toList ++
        [(c.output.baseOffset, c.output.indexFile)] := by
    unfold Directory.swapped Partition.crashed
    rw [← hsealed]
    refine removeFiles_sealed hsound Segment.indexFile c.output.indexFile fun f hf s hs => ?_
    obtain ⟨b, _, rfl⟩ := Option.map_eq_some_iff.mp (Option.mem_toList.mp hf)
    exact hactive s hs
  have hne : p.active.baseOffset ≠ c.output.baseOffset := by omega
  refine Partition.open_perm rfl rfl ?_ ?_ ?_ _ _
  · rw [hlogs]
    exact List.Perm.swap ..
  · rw [hlogs]
    simpa using hne
  · rw [hlogs, hindexes]
    intro f hf
    have hoff : (p.active.baseOffset == c.output.baseOffset) = false := by simpa using hne
    have hoff' : (c.output.baseOffset == p.active.baseOffset) = false := by simpa using hne.symm
    simp only [List.mem_cons, List.not_mem_nil, or_false] at hf
    rcases hf with rfl | rfl
    · cases index <;> simp [Partition.crashed, List.lookup_cons, hoff]
    · cases index <;> simp [Partition.crashed, List.lookup_cons, hoff']

/-! ### Recovery after a crash in a pass -/

/-- **Compaction is crash-atomic.** After a crash anywhere in a pass and any number of crashes
in the recovery from it, the partition opens as it was before the pass or as it is after it.
The records are those of before or what survived of them, each once and in order. Temporary
files of earlier passes may lie around. -/
theorem compaction_crash_atomic {p : Partition} (hp : p.Increasing) (q : Partition)
    (config : TopicConfig) (now : Int64) (partLog partIndex : Bytes) (j n : Nat)
    (index : Option Bytes) (tmpLogs tmpIndexes : List (Nat × Bytes)) {e : Directory}
    (hr : Relation.ReflTransGen Directory.Interrupted
      (({ p.crashed n index with tmpLogs, tmpIndexes } : Directory).after
        ((q.passOps p config now partLog partIndex).take j)) e)
    (segmentBytes : UInt64) (flushEveryRecords : Nat) :
    (Partition.open e segmentBytes flushEveryRecords =
        Partition.open (p.crashed n index) segmentBytes flushEveryRecords ∨
      ∃ c p', q.compactRead config now = some c ∧ p.compactSwap c = some p' ∧
        Partition.open e segmentBytes flushEveryRecords =
          Partition.open (p'.crashed n index) segmentBytes flushEveryRecords) ∧
    ∀ parts tail, p.Holds parts tail →
      ∃ p₁, Partition.open e segmentBytes flushEveryRecords = some p₁ ∧
        p₁.records.Pairwise (fun a b => a.offset < b.offset) ∧
        (p₁.records = contents parts ++ wholeWithin n tail ∨
          p₁.records = survivorsOf (satSubI64 now config.tombstoneRetentionMs.toInt64)
            (contents parts) ++ wholeWithin n tail) := by
  have hopen : Partition.open e segmentBytes flushEveryRecords =
        Partition.open (p.crashed n index) segmentBytes flushEveryRecords ∨
      ∃ c p', q.compactRead config now = some c ∧ p.compactSwap c = some p' ∧
        Partition.open e segmentBytes flushEveryRecords =
          Partition.open (p'.crashed n index) segmentBytes flushEveryRecords := by
    have hlitter : Partition.open { p.crashed n index with tmpLogs, tmpIndexes } segmentBytes
        flushEveryRecords = Partition.open (p.crashed n index) segmentBytes flushEveryRecords :=
      Partition.open_eq rfl rfl _ _
    rcases @Partition.open_pass { p.crashed n index with tmpLogs, tmpIndexes } rfl q p config
      now partLog partIndex j e hr segmentBytes flushEveryRecords with heq | hswapped
    · exact .inl (heq.trans hlitter)
    · obtain ⟨c, p', hread, hswap, heq⟩ := hswapped
      exact .inr ⟨c, p', hread, hswap, heq.trans
        (Partition.open_swapped hp (Partition.compactRead_sound hread) hswap n index _ _)⟩
  refine ⟨hopen, fun parts tail hh => ?_⟩
  rcases hopen with heq | ⟨c, p', hread, hswap, heq⟩
  · obtain ⟨p₁, parts', hp₁, hholds, hcontents, _⟩ :=
      hh.reopen n index segmentBytes flushEveryRecords
    refine ⟨p₁, heq.trans hp₁, ?_, .inl ?_⟩
    · rw [hholds.records]
      exact hholds.sorted
    · rw [hholds.records, hcontents]
  · obtain ⟨p₁, parts', hp₁, hholds, hcontents, _⟩ :=
      (hh.compact hread hswap).reopen n index segmentBytes flushEveryRecords
    refine ⟨p₁, heq.trans hp₁, ?_, .inr ?_⟩
    · rw [hholds.records]
      exact hholds.sorted
    · rw [hholds.records, hcontents]
      simp [contents]

/-- What is left if a pass stops after its first rename, and recovery stops after one step. -/
def stoppedTwice : Directory :=
  let e := (versionsPartition.crashed 1000 none).after
    ((versionsPartition.passOps versionsPartition keepHalf 100 [] []).take 6)
  e.after (e.finishOps.take 1)

theorem compaction_crash_atomic_stopped :
    stoppedTwice.marker = some (some ⟨0, [1]⟩) ∧
      (Partition.open stoppedTwice 1 1 = Partition.open (versionsPartition.crashed 1000 none) 1 1 ∨
        ∃ c p', versionsPartition.compactRead keepHalf 100 = some c ∧
          versionsPartition.compactSwap c = some p' ∧
          Partition.open stoppedTwice 1 1 = Partition.open (p'.crashed 1000 none) 1 1) :=
  ⟨by decide +kernel, (compaction_crash_atomic versions_ordered.bases
    versionsPartition keepHalf 100 [] [] 6 1000 none [] []
    (.single (.finishing _ 1)) 1 1).1⟩

end EventStream.Storage
