import EventStream.Storage.Swap

/-! Compaction and sealed segments that recovery could not read to their end.

Recovery leaves the file of such a segment as it is and serves the records before the damage:
the segment's visible size ends where the scan stopped. A later pass reads inside that size
only, finds nothing wrong there, and its swap renames the output over the file or unlinks it.
The file stays as long as the passes that read it have nothing to reclaim. -/
namespace EventStream.Storage

/-! ### What recovery makes of the file -/

/-- A sealed log that a scan leaves before its end, and whose index does not pass the cheap
check, so that the scan is made. -/
structure Directory.DamagedAt (d : Directory) (base : Nat) (log : Bytes) : Prop where
  file : d.logs.lookup base = some log
  isSealed : ∃ f ∈ d.logs, base < f.1
  unreadable : (RecordCursor.new log 0 log.length readWindowBytes).walk.error.isSome
  rest : (RecordCursor.new log 0 log.length readWindowBytes).walk.stop < log.length
  untrusted : scanSealedTrusted log (d.indexes.lookup base) base = none

/-- A segment that serves the readable prefix of its file. -/
structure Segment.ServesPrefix (s : Segment) (base : Nat) (log : Bytes) : Prop where
  base : s.baseOffset = base
  file : s.log = log
  size : s.sizeBytes = (RecordCursor.new log 0 log.length readWindowBytes).walk.stop

variable {base next : Nat} {log : Bytes} {op : DirOp} {rs : List Record}

theorem recoverSegment_damaged {indexFile : Option Bytes} {s : Segment}
    (hu : scanSealedTrusted log indexFile base = none)
    (h : recoverSegment false base log indexFile = some (s, next)) : s.ServesPrefix base log := by
  obtain ⟨scan, hscan, h⟩ := Option.bind_eq_some_iff.mp h
  rw [if_neg (by decide), hu] at hscan
  obtain ⟨seen, _, hscan⟩ := Option.bind_eq_some_iff.mp hscan
  dsimp only at h
  split at h
  · cases h
  · cases h
    cases hscan
    exact ⟨rfl, if_neg (by simp), rfl⟩

theorem recoverSegments_damaged {indexes : List (Nat × Bytes)}
    (hu : scanSealedTrusted log (indexes.lookup base) base = none) {logs : List (Nat × Bytes)}
    {last : Nat × Bytes} {start : Nat} {segs : List Segment} (hmem : (base, log) ∈ logs)
    (h : recoverSegments indexes (logs ++ [last]) start = some (segs, next)) :
    ∃ s ∈ segs.dropLast, s.ServesPrefix base log := by
  induction logs generalizing start segs next with
  | nil => exact absurd hmem List.not_mem_nil
  | cons f logs ih =>
    rw [List.cons_append, recoverSegments] at h
    obtain ⟨⟨s, segNext⟩, hs, h⟩ := Option.bind_eq_some_iff.mp h
    obtain ⟨⟨more, next'⟩, hmore, h⟩ := Option.bind_eq_some_iff.mp h
    cases h
    -- There is a segment after this one, so it is not the last.
    have hne : more ≠ [] := by
      rintro rfl
      obtain ⟨g, rest, hrest⟩ := List.exists_cons_of_ne_nil
        (List.append_ne_nil_of_right_ne_nil logs (List.cons_ne_nil last []))
      rw [hrest, recoverSegments] at hmore
      obtain ⟨_, _, hmore⟩ := Option.bind_eq_some_iff.mp hmore
      obtain ⟨_, _, hmore⟩ := Option.bind_eq_some_iff.mp hmore
      cases hmore
    rw [List.dropLast_cons_of_ne_nil hne]
    rcases List.mem_cons.mp hmem with rfl | hmem
    · have hactive : (logs ++ [last]).isEmpty = false := by simp
      rw [hactive] at hs
      exact ⟨s, List.mem_cons_self, recoverSegment_damaged hu hs⟩
    · obtain ⟨s', hs', hserves⟩ := ih hmem hmore
      exact ⟨s', List.mem_cons_of_mem _ hs', hserves⟩

/-- A file with a higher one beside it is not the last. -/
theorem mergeSort_front {files : List (Nat × Bytes)} {x f : Nat × Bytes} (hx : x ∈ files)
    (hf : f ∈ files) (hlt : x.1 < f.1) :
    ∃ front last, (files.mergeSort fun a b => a.1 ≤ b.1) = front ++ [last] ∧ x ∈ front := by
  have hsorted := mergeSort_sorted files
  have hmem (y : Nat × Bytes) (hy : y ∈ files) :
      y ∈ files.mergeSort fun a b => a.1 ≤ b.1 := List.mem_mergeSort.mpr hy
  generalize (files.mergeSort fun a b => decide (a.1 ≤ b.1)) = sorted at hsorted hmem
  rcases List.eq_nil_or_concat sorted with rfl | ⟨front, last, hlast⟩
  · exact absurd (hmem x hx) List.not_mem_nil
  · rw [List.concat_eq_append] at hlast
    subst hlast
    refine ⟨front, last, rfl, ?_⟩
    rcases List.mem_append.mp (hmem x hx) with hfront | hlast
    · exact hfront
    · rw [List.mem_singleton.mp hlast] at hlt
      rcases List.mem_append.mp (hmem f hf) with hf | hf
      · have := (List.pairwise_append.mp hsorted).2.2 f hf last List.mem_cons_self
        omega
      · rw [List.mem_singleton.mp hf] at hlt
        omega

/-- Recovery does not touch a damaged sealed log and serves what comes before the damage. -/
theorem Directory.DamagedAt.open {d : Directory} (h : d.finishCompaction.DamagedAt base log)
    {segmentBytes : UInt64} {flushEveryRecords : Nat} {p : Partition}
    (hopen : Partition.open d segmentBytes flushEveryRecords = some p) :
    ∃ s ∈ p.sealedSegments, s.ServesPrefix base log := by
  obtain ⟨⟨segs, next⟩, hrec, hopen⟩ := Option.bind_eq_some_iff.mp hopen
  dsimp only [Directory.sweepCompactionTmp] at hrec hopen
  obtain ⟨f, hf, hlt⟩ := h.isSealed
  obtain ⟨front, last, hlogs, hfront⟩ := mergeSort_front (mem_of_lookup h.file) hf hlt
  rw [hlogs] at hrec
  obtain ⟨s, hs, hserves⟩ := recoverSegments_damaged h.untrusted hfront hrec
  cases hlast : segs.getLast? with
  | none =>
    rw [List.getLast?_eq_none_iff.mp hlast] at hs
    exact absurd hs List.not_mem_nil
  | some active =>
    rw [hlast] at hopen
    cases hopen
    exact ⟨s, hs, hserves⟩

/-! ### Passes that spare a file -/

/-- The operation neither replaces nor removes the log with this base. -/
def DirOp.Spares (base : Nat) : DirOp → Prop
  | .renameLog b => b ≠ base
  | .removeLog b => b ≠ base
  | _ => True

theorem lookup_removeFiles_ne {b : Nat} (h : b ≠ base) (files : List (Nat × Bytes)) :
    (removeFiles [b] files).lookup base = files.lookup base := by
  induction files with
  | nil => rfl
  | cons f files ih =>
    rw [List.lookup_cons]
    unfold removeFiles at ih ⊢
    rw [List.filter_cons]
    by_cases hb : f.1 = b
    · rw [if_neg (by simp [hb]), ih]
      have hne : (base == f.1) = false := by simpa [hb] using h.symm
      rw [hne]
    · rw [if_pos (by simp [hb]), List.lookup_cons, ih]

theorem DirOp.Spares.apply (h : op.Spares base) (d : Directory) :
    (op.apply d).logs.lookup base = d.logs.lookup base := by
  cases op with
  | renameLog b =>
    show (renameOver b (d.tmpLogs.lookup b) d.logs).lookup base = _
    cases d.tmpLogs.lookup b with
    | none => rfl
    | some bytes =>
      have hne : (base == b) = false := by simpa using Ne.symm h
      rw [renameOver, List.lookup_append, lookup_removeFiles_ne h, List.lookup_cons, hne]
      simp
  | removeLog b => exact lookup_removeFiles_ne h d.logs
  | _ => rfl

theorem Directory.after_spares {ops : List DirOp} (h : ∀ op ∈ ops, op.Spares base) (d : Directory) :
    (d.after ops).logs.lookup base = d.logs.lookup base := by
  induction ops generalizing d with
  | nil => rfl
  | cons op ops ih =>
    exact (ih (fun o ho => h o (List.mem_cons_of_mem _ ho)) _).trans
      ((h op List.mem_cons_self).apply d)

theorem DirOp.Temporary.spares (h : op.Temporary) (base : Nat) : op.Spares base := by
  cases op with
  | renameLog b => exact h.elim
  | removeLog b => exact h.elim
  | _ => trivial

/-- The swap touches no log but those of the segments that were read. -/
theorem Compacting.Sound.spares {c : Compacting} (h : c.Sound)
    (hbase : ∀ s ∈ c.sealedSegments, s.baseOffset ≠ base) (p : Partition) :
    ∀ op ∈ p.swapOps c, op.Spares base := by
  obtain ⟨lowest, hlowest, hout⟩ := h.base
  have hvictims (v : Nat) (hv : v ∈ c.marker.victims) : v ≠ base := by
    obtain ⟨s, hs, rfl⟩ := List.mem_map.mp (List.mem_filter.mp hv).1
    exact hbase s hs
  intro op hop
  unfold Partition.swapOps at hop
  split at hop
  · rcases List.mem_cons.mp hop with rfl | hop
    · trivial
    · rcases List.mem_append.mp hop with hop | hop
      · have hfin := c.marker.mem_finishOps op hop
        cases op with
        | renameLog b =>
          cases hfin
          show c.output.baseOffset ≠ base
          exact hout ▸ hbase lowest hlowest
        | removeLog b => exact hvictims b hfin
        | _ => trivial
      · rw [List.mem_singleton.mp hop]
        trivial
  · exact (temporary_removeTmpOps _ op hop).spares base

/-! ### Nothing to reclaim -/

/-- One record for each key and no tombstone old enough to drop. -/
structure NothingToReclaim (cutoff : Int64) (rs : List Record) : Prop where
  keys : (rs.filterMap Record.key).Nodup
  live : ∀ r ∈ rs, r.key.isSome → dropsAt cutoff r = false

/-- What the first pass notes if no key comes twice. -/
theorem foldl_noteLatest_nodup (cutoff : Int64) {latest : List (Bytes × Latest)}
    (hn : (rs.filterMap Record.key).Nodup)
    (hd : ∀ k ∈ rs.filterMap Record.key, latest.lookup k = none) :
    rs.foldl (noteLatest cutoff) latest = (rs.filterMap fun r => r.key.map fun k =>
      (k, (⟨r.offset, dropsAt cutoff r⟩ : Latest))).reverse ++ latest := by
  induction rs generalizing latest with
  | nil => rfl
  | cons r rs ih =>
    rw [List.foldl_cons]
    cases hkey : r.key with
    | none =>
      have hnote : noteLatest cutoff latest r = latest := by rw [noteLatest, hkey]
      have hkeys : (r :: rs).filterMap Record.key = rs.filterMap Record.key :=
        List.filterMap_cons_none hkey
      rw [hkeys] at hn hd
      rw [hnote, ih hn hd, List.filterMap_cons_none (by rw [hkey]; rfl)]
    | some k =>
      rw [List.filterMap_cons_some hkey] at hn hd
      obtain ⟨hfresh, hn⟩ := List.nodup_cons.mp hn
      have hnone := hd k List.mem_cons_self
      have hnote : noteLatest cutoff latest r =
          (k, ⟨r.offset, dropsAt cutoff r⟩) :: latest := by
        rw [noteLatest, hkey]
        dsimp only
        rw [hnone]
        show _ :: latest.filter _ = _
        rw [List.filter_eq_self.mpr fun e he => ?_]
        · rfl
        · refine decide_eq_true fun hek => ?_
          have := List.lookup_eq_none_iff.mp hnone e he
          simp [hek] at this
      rw [hnote, ih hn ?_, List.filterMap_cons_some (by rw [hkey]; rfl), List.reverse_cons,
        List.append_assoc]
      · rfl
      · intro k' hk'
        rw [List.lookup_cons]
        have hne : (k' == k) = false := by
          simp only [beq_eq_false_iff_ne, ne_eq]
          rintro rfl
          exact hfresh hk'
        rw [hne]
        exact hd k' (List.mem_cons_of_mem _ hk')

/-- Such records are all counted as kept. -/
theorem NothingToReclaim.kept {cutoff : Int64} (h : NothingToReclaim cutoff rs) :
    (rs.filter (·.key.isNone)).length +
      ((rs.foldl (noteLatest cutoff) []).filter fun e => !e.2.drop).length = rs.length := by
  have hkeys : (rs.filterMap fun r => r.key.map fun k =>
      (k, (⟨r.offset, dropsAt cutoff r⟩ : Latest))).map Prod.fst = rs.filterMap Record.key := by
    rw [List.map_filterMap]
    congr 1
    funext r
    cases r.key <;> rfl
  have hlen := length_keyless_add_keys rs
  rw [← hkeys, List.length_map] at hlen
  rw [foldl_noteLatest_nodup cutoff h.keys fun _ _ => rfl, List.append_nil]
  have hlive (e : Bytes × Latest) (he : e ∈ (rs.filterMap fun r => r.key.map fun k =>
      (k, (⟨r.offset, dropsAt cutoff r⟩ : Latest))).reverse) : (!e.2.drop) = true := by
    obtain ⟨r, hr, hmap⟩ := List.mem_filterMap.mp (List.mem_reverse.mp he)
    obtain ⟨k, hk, rfl⟩ := Option.map_eq_some_iff.mp hmap
    simpa using h.live r hr (by rw [hk]; rfl)
  rw [List.filter_eq_self.mpr hlive, List.length_reverse, hlen]

theorem NothingToReclaim.compactRead {q : Partition} {config : TopicConfig} {now : Int64}
    (h : ∀ rs, sealedRecords (q.segments.filter (·.baseOffset < q.active.baseOffset)) = some rs →
      NothingToReclaim (config.tombstoneCutoff now) rs) : q.compactRead config now = none := by
  cases hread : q.compactRead config now with
  | none => rfl
  | some c =>
    obtain ⟨lowest, _, hread⟩ := Option.bind_eq_some_iff.mp hread
    obtain ⟨records, hrecords, hread⟩ := Option.bind_eq_some_iff.mp hread
    have hkept := (h records hrecords).kept
    dsimp only at hread
    rw [if_pos] at hread
    · cases hread
    · exact Nat.sub_eq_zero_of_le (Nat.le_of_eq hkept.symm)

/-! ### Passes -/

/-- A compaction pass: what it reads, what it finds when it takes the lock, what of its
temporary files is on disk before they are fsynced, and after how many operations it stops. -/
structure CompactionPass where
  read : Partition
  found : Partition
  config : TopicConfig
  now : Int64
  partLog : Bytes
  partIndex : Bytes
  stop : Nat

def CompactionPass.ops (x : CompactionPass) : List DirOp :=
  (x.read.passOps x.found x.config x.now x.partLog x.partIndex).take x.stop

def CompactionPass.sealedSegments (x : CompactionPass) : List Segment :=
  x.read.segments.filter (·.baseOffset < x.read.active.baseOffset)

/-- When the pass takes the lock, the active segment or the sealed ones are not those it read. -/
def CompactionPass.Overtaken (x : CompactionPass) : Prop :=
  ¬ (x.found.active.baseOffset = x.read.active.baseOffset ∧
    x.found.segments.filter (·.baseOffset < x.found.active.baseOffset) = x.sealedSegments)

/-- If the segment is among those read, then one of them cannot be read, or there is nothing to
reclaim in them, or others have taken their place meanwhile. -/
def CompactionPass.Harmless (x : CompactionPass) (base : Nat) : Prop :=
  base ∈ x.sealedSegments.map (·.baseOffset) →
    (∀ rs, sealedRecords x.sealedSegments = some rs →
      NothingToReclaim (x.config.tombstoneCutoff x.now) rs) ∨ x.Overtaken

/-- A harmless pass that reads the segment does not come to its swap. -/
theorem CompactionPass.Harmless.compactSwap {x : CompactionPass} (h : x.Harmless base)
    (hbase : base ∈ x.sealedSegments.map (·.baseOffset)) {c : Compacting}
    (hread : x.read.compactRead x.config x.now = some c) : x.found.compactSwap c = none := by
  rcases h hbase with hnothing | hovertaken
  · rw [NothingToReclaim.compactRead hnothing] at hread
    cases hread
  · obtain ⟨hactive, hsealed⟩ := Partition.compactRead_sealed hread
    refine if_neg ?_
    rw [hactive, hsealed]
    exact hovertaken

theorem CompactionPass.Harmless.spares {x : CompactionPass} (h : x.Harmless base) :
    ∀ op ∈ x.ops, op.Spares base := by
  intro op hop
  have hop := List.mem_of_mem_take hop
  unfold Partition.passOps at hop
  cases hread : x.read.compactRead x.config x.now with
  | none =>
    rw [hread] at hop
    rcases List.mem_cons.mp hop with rfl | hop
    · trivial
    · exact (temporary_removeTmpOps _ op hop).spares base
  | some c =>
    rw [hread] at hop
    rcases List.mem_append.mp hop with hop | hop
    · exact (c.temporary_writeOps _ _ op hop).spares base
    · by_cases hbase : base ∈ x.sealedSegments.map (·.baseOffset)
      · rw [Partition.swapOps, h.compactSwap hbase hread] at hop
        exact (temporary_removeTmpOps _ op hop).spares base
      · refine (Partition.compactRead_sound hread).spares (fun s hs hsb => hbase ?_) x.found op hop
        rw [(Partition.compactRead_sealed hread).2] at hs
        exact hsb ▸ List.mem_map_of_mem hs

/-- **A damaged segment is kept.** Recovery serves the readable prefix of a damaged sealed
segment and leaves its file as it is, and so does any sequence of later passes that are
harmless to it. -/
theorem damaged_segment_kept {d : Directory} {base : Nat} {log : Bytes}
    (h : d.finishCompaction.DamagedAt base log) {segmentBytes : UInt64}
    {flushEveryRecords : Nat} {p : Partition}
    (hopen : Partition.open d segmentBytes flushEveryRecords = some p) :
    (∃ s ∈ p.sealedSegments, s.ServesPrefix base log ∧ s.sizeBytes < s.log.length) ∧
      ∀ passes : List CompactionPass, (∀ x ∈ passes, x.Harmless base) →
        (d.finishCompaction.after (passes.flatMap CompactionPass.ops)).logs.lookup base =
          some log ∧
        ∀ x ∈ passes, base ∈ x.sealedSegments.map (·.baseOffset) → ∀ p' report,
          x.read.compactPartition x.found x.config x.now ≠ .ok (some (p', report)) := by
  obtain ⟨s, hs, hserves⟩ := h.open hopen
  refine ⟨⟨s, hs, hserves, ?_⟩, fun passes hpasses => ?_⟩
  · rw [hserves.size, hserves.file]
    exact h.rest
  · refine ⟨?_, fun x hx hbase p' report hreport => ?_⟩
    · rw [Directory.after_spares, h.file]
      intro op hop
      obtain ⟨x, hx, hop⟩ := List.mem_flatMap.mp hop
      exact (hpasses x hx).spares op hop
    · obtain ⟨c, hread, hswap⟩ := Partition.compactPartition_some hreport
      rw [(hpasses x hx).compactSwap hbase hread] at hswap
      cases hswap

/-! ### A file that a pass destroys -/

/-- Three records, of which the second has a wrong byte in its value. -/
def damagedLog : Bytes :=
  encodeAll [⟨0, 0, some [1], [1]⟩] ++ (encodeAll [⟨1, 0, none, [7]⟩]).set 28 9 ++
    encodeAll [⟨2, 0, some [2], [3]⟩]

/-- The damaged segment, a segment with one record, and the active segment. -/
def damagedDirectory (key : UInt8) : Directory :=
  { logs := [(0, damagedLog), (10, encodeAll [⟨10, 100, some [key], [2]⟩]), (20, [])]
    indexes := []
    tmpLogs := []
    tmpIndexes := []
    marker := none }

theorem damagedDirectory_damaged (key : UInt8) :
    (damagedDirectory key).finishCompaction.DamagedAt 0 damagedLog :=
  ⟨rfl, ⟨_, List.mem_cons_of_mem _ List.mem_cons_self, Nat.zero_lt_succ 9⟩,
    by decide +kernel, by decide +kernel, rfl⟩

def damagedSegments (key : UInt8) : Option (List Segment × Nat) :=
  recoverSegments (damagedDirectory key).indexes (damagedDirectory key).logs
    (((damagedDirectory key).logs.head?.map Prod.fst).getD 0)

def damagedPartition (key : UInt8) : Partition :=
  let found := (damagedSegments key).getD ([], 0)
  .ofSegments found.1.dropLast (.openEmpty 20) found.2 false 1 1

theorem damagedDirectory_opens {key : UInt8} (hsome : (damagedSegments key).isSome)
    (hactive : ((damagedSegments key).getD ([], 0)).1.getLast? = some (.openEmpty 20)) :
    Partition.open (damagedDirectory key) 1 1 = some (damagedPartition key) := by
  have hrec : damagedSegments key = some ((damagedSegments key).getD ([], 0)) := by
    obtain ⟨found, hfound⟩ := Option.isSome_iff_exists.mp hsome
    rw [hfound]
    rfl
  have hsorted : ((damagedDirectory key).logs.mergeSort fun a b => a.1 ≤ b.1) =
      (damagedDirectory key).logs := List.mergeSort_of_pairwise (by simp [damagedDirectory])
  rw [@Partition.open_sorted (damagedDirectory key) rfl _ hsorted _ _ hrec hactive]
  rfl

def firstPass (key : UInt8) : CompactionPass :=
  { read := damagedPartition key, found := damagedPartition key, config := keepHalf, now := 100
    partLog := [], partIndex := [], stop := 100 }

/-- With three keys there is nothing to reclaim and two passes leave the file alone. -/
theorem damaged_segment_kept_three :
    (firstPass 3).sealedSegments.map (·.baseOffset) = [0, 10] ∧
      ((damagedDirectory 3).finishCompaction.after
        ((List.replicate 2 (firstPass 3)).flatMap CompactionPass.ops)).logs.lookup 0 =
          some damagedLog := by
  have hopens : Partition.open (damagedDirectory 3) 1 1 = some (damagedPartition 3) :=
    damagedDirectory_opens (by decide +kernel) (by decide +kernel)
  have hread : sealedRecords (firstPass 3).sealedSegments =
      some [⟨0, 0, some [1], [1]⟩, ⟨10, 100, some [3], [2]⟩] := by decide +kernel
  refine ⟨by decide +kernel,
    ((damaged_segment_kept (damagedDirectory_damaged 3) hopens).2 _ ?_).1⟩
  intro x hx
  rw [List.eq_of_mem_replicate hx]
  refine fun _ => .inl fun rs hrs => ?_
  rw [hread] at hrs
  cases hrs
  exact ⟨by decide, by decide⟩

/-- The recovered partition serves one record of the damaged segment. If the next segment has a
newer version of it, the first pass renames its output over the file. -/
theorem damaged_segment_replaced :
    (damagedDirectory 1).finishCompaction.DamagedAt 0 damagedLog ∧
      Partition.open (damagedDirectory 1) 1 1 = some (damagedPartition 1) ∧
      ((damagedDirectory 1).finishCompaction.after (firstPass 1).ops).logs.lookup 0 =
        some (encodeAll [⟨10, 100, some [1], [2]⟩]) :=
  ⟨damagedDirectory_damaged 1, damagedDirectory_opens (by decide +kernel) (by decide +kernel),
    by decide +kernel⟩

end EventStream.Storage
