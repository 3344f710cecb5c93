import EventStream.Storage.Grace
import EventStream.Storage.Faults

/-! Restarts after failed rolls.

A roll that fails after the seal may leave an empty log named after the offset of the record
it was made for. The partition goes on with its old segment, and if a later record still fits
there it gets an offset at or above that name. Nothing is lost before a restart; then the
empty log is a segment, and reads at its offset look there. As long as no segment reaches over
a leftover log, a restart changes no read (`failed_roll_hides_nothing`). -/
namespace EventStream.Storage

/-! ### What a read returns, by records -/

/-- The walk across segments, each given by its records. -/
def readParts (target maxRecords maxBytes hwm : Nat) : List (List Record) → List Record
  | [] => []
  | rs :: rest =>
    match collect target maxRecords maxBytes hwm rs [] 0 with
    | [] => readParts target maxRecords maxBytes hwm rest
    | r :: out => r :: out

variable {target hwm target' hwm' maxRecords base : Nat} {rs tail : List Record}
    {parts xs : List Part} {w w' : Writer} {fault : Option Fault} {now : Int64} {p : Partition}
    {r : AppendRecord} {f : Filling} {records : List (AppendRecord × Option Fault)}

theorem collect_below (maxRecords maxBytes : Nat) (h : ∀ r ∈ rs, r.offset < target) :
    collect target maxRecords maxBytes hwm rs [] 0 = [] := by
  induction rs with
  | nil => rfl
  | cons r rs ih =>
    rw [collect, if_pos (h r List.mem_cons_self), ih fun x hx => h x (List.mem_cons_of_mem _ hx)]
    exact ite_self _

/-- Bounds that separate the records in the same way give the same read. -/
theorem collect_congr (maxRecords maxBytes : Nat)
    (htarget : ∀ r ∈ rs, r.offset < target ↔ r.offset < target')
    (hhwm : ∀ r ∈ rs, hwm ≤ r.offset ↔ hwm' ≤ r.offset) (out : List Record) (bytes : Nat) :
    collect target maxRecords maxBytes hwm rs out bytes =
      collect target' maxRecords maxBytes hwm' rs out bytes := by
  induction rs generalizing out bytes with
  | nil => rfl
  | cons r rs ih =>
    have hrest := ih (fun x hx => htarget x (List.mem_cons_of_mem _ hx))
      (fun x hx => hhwm x (List.mem_cons_of_mem _ hx))
    rw [collect, collect]
    simp only [htarget r List.mem_cons_self, hhwm r List.mem_cons_self, hrest]

theorem Segment.Holds.readFrom {s : Segment} (h : s.Holds rs) (hsmall : ∀ r ∈ rs, r.Small)
    (hlow : ∀ r ∈ rs, r.offset < hwm) (hm : 0 < maxRecords) (target maxBytes : Nat) :
    s.readFrom target maxRecords maxBytes hwm = collect target maxRecords maxBytes hwm rs [] 0 := by
  rcases Nat.lt_or_ge target hwm with ht | ht
  · exact (h.readable hsmall).readFrom_eq hm ht
  · rw [collect_below maxRecords maxBytes fun r hr => Nat.lt_of_lt_of_le (hlow r hr) ht,
      Segment.readFrom, if_pos (.inr ht)]

theorem readSegments_parts (hh : ∀ x ∈ parts, x.1.Holds x.2)
    (hsmall : ∀ r ∈ contents parts, r.Small) (hlow : ∀ r ∈ contents parts, r.offset < hwm)
    (hm : 0 < maxRecords) (target maxBytes eff : Nat) :
    (readSegments target maxRecords maxBytes hwm (parts.map Prod.fst) eff).1 =
      readParts target maxRecords maxBytes hwm (parts.map Prod.snd) := by
  induction parts generalizing eff with
  | nil => rfl
  | cons x parts ih =>
    have hx := (hh x List.mem_cons_self).readFrom
      (fun r hr => hsmall r (List.mem_append_left _ hr))
      (fun r hr => hlow r (List.mem_append_left _ hr)) hm target maxBytes
    simp only [List.map_cons, readSegments, readParts, hx]
    cases collect target maxRecords maxBytes hwm x.2 [] 0 with
    | nil =>
      exact ih (fun y hy => hh y (List.mem_cons_of_mem _ hy))
        (fun r hr => hsmall r (List.mem_append_right _ hr))
        (fun r hr => hlow r (List.mem_append_right _ hr)) _
    | cons r out => rfl

theorem readParts_below (maxRecords maxBytes hwm : Nat) {skipped : List (List Record)}
    (h : ∀ rs ∈ skipped, ∀ r ∈ rs, r.offset < target) (rest : List (List Record)) :
    readParts target maxRecords maxBytes hwm (skipped ++ rest) =
      readParts target maxRecords maxBytes hwm rest := by
  induction skipped with
  | nil => rfl
  | cons rs skipped ih =>
    rw [List.cons_append, readParts, collect_below maxRecords maxBytes (h rs List.mem_cons_self)]
    exact ih fun x hx => h x (List.mem_cons_of_mem _ hx)

/-- Segments without records make no difference. -/
theorem readParts_filter (target maxRecords maxBytes hwm : Nat) (rss : List (List Record)) :
    readParts target maxRecords maxBytes hwm (rss.filter (· ≠ [])) =
      readParts target maxRecords maxBytes hwm rss := by
  induction rss with
  | nil => rfl
  | cons rs rss ih =>
    cases rs with
    | nil =>
      rw [List.filter_cons_of_neg (by simp), ih]
      rfl
    | cons r rs =>
      rw [List.filter_cons_of_pos (by simp), readParts, readParts, ih]

theorem readParts_congr (maxRecords maxBytes : Nat) {rss : List (List Record)}
    (htarget : ∀ rs ∈ rss, ∀ r ∈ rs, r.offset < target ↔ r.offset < target')
    (hhwm : ∀ rs ∈ rss, ∀ r ∈ rs, hwm ≤ r.offset ↔ hwm' ≤ r.offset) :
    readParts target maxRecords maxBytes hwm rss =
      readParts target' maxRecords maxBytes hwm' rss := by
  induction rss with
  | nil => rfl
  | cons rs rss ih =>
    rw [readParts, readParts, collect_congr maxRecords maxBytes (htarget rs List.mem_cons_self)
      (hhwm rs List.mem_cons_self), ih (fun x hx => htarget x (List.mem_cons_of_mem _ hx))
      fun x hx => hhwm x (List.mem_cons_of_mem _ hx)]

/-- A read depends on the records of the segments only. -/
theorem Partition.Holds.read_eq (h : p.Holds parts tail)
    (hsmall : ∀ r ∈ contents parts ++ tail, r.Small) (hwm_le : p.nextOffset ≤ hwm)
    (target maxRecords maxBytes : Nat) :
    (p.readRecordsRaw target maxRecords maxBytes).1 =
      if maxRecords = 0 then []
      else readParts target maxRecords maxBytes hwm
        ((parts ++ [(p.active, tail)]).map Prod.snd) := by
  have hlow := h.lt_next
  rw [← contents_snoc parts p.active tail] at hlow hsmall
  have hof (rs : List Record) (hrs : rs ∈ (parts ++ [(p.active, tail)]).map Prod.snd) (r : Record)
      (hr : r ∈ rs) : p.startOffset ≤ r.offset ∧ r.offset < p.nextOffset := by
    obtain ⟨x, hx, rfl⟩ := List.mem_map.mp hrs
    exact ⟨Nat.le_trans (h.start x hx) ((h.holdsAll x hx).base r hr),
      hlow r (mem_contents.mpr ⟨x, hx, hr⟩)⟩
  -- no record lies below the first offset, and none at or above the end
  have hread := readParts_congr maxRecords maxBytes
    (fun rs hrs r hr => (show r.offset < max target p.startOffset ↔ r.offset < target by
      have := hof rs hrs r hr
      omega))
    (fun rs hrs r hr => (show p.nextOffset ≤ r.offset ↔ hwm ≤ r.offset by
      have := hof rs hrs r hr
      omega))
  unfold Partition.readRecordsRaw
  dsimp only
  by_cases hm : maxRecords = 0
  · rw [if_pos (.inr hm), if_pos hm]
  · rw [if_neg hm, ← hread]
    by_cases ht : p.nextOffset ≤ target
    · rw [if_pos (.inl ht)]
      have hnone := readParts_below maxRecords maxBytes p.nextOffset (fun rs hrs r hr =>
        Nat.lt_of_lt_of_le (hof rs hrs r hr).2
          (Nat.le_trans ht (Nat.le_max_left _ p.startOffset))) []
      rw [List.append_nil] at hnone
      exact hnone.symm
    · rw [if_neg (by omega)]
      obtain ⟨skipped, rest, hsplit, hdrop, _, hskip⟩ :=
        segmentIndexFor_skips h.ordered (max target p.startOffset)
      rw [h.map_segments, hdrop, hsplit, List.map_append, readParts_below]
      · refine readSegments_parts
          (fun x hx => h.holdsAll x (hsplit ▸ List.mem_append_right _ hx))
          (fun r hr => hsmall r ?_) (fun r hr => hlow r ?_) (Nat.pos_of_ne_zero hm) _ _ _
        all_goals
          rw [hsplit, contents_append]
          exact List.mem_append_right _ hr
      · intro rs hrs r hr
        obtain ⟨x, hx, rfl⟩ := List.mem_map.mp hrs
        exact hskip r (mem_contents.mpr ⟨x, hx, hr⟩)

/-! ### Segments in order -/

theorem Part.exists_ordered (hn : (xs.map (·.1.baseOffset)).Nodup)
    (hb : ∀ x ∈ xs, ∀ y ∈ xs, x.1.baseOffset < y.1.baseOffset → x.Before y) :
    ∃ all : List Part, all.Perm xs ∧ all.Pairwise Part.Before := by
  let all := xs.mergeSort fun x y => decide (x.1.baseOffset ≤ y.1.baseOffset)
  have hperm : all.Perm xs := List.mergeSort_perm _ _
  have hle : all.Pairwise fun x y => x.1.baseOffset ≤ y.1.baseOffset :=
    (List.pairwise_mergeSort (by simpa using fun a b c => Nat.le_trans)
      (by simpa using fun a b => Nat.le_total _ _) xs).imp of_decide_eq_true
  have hne : all.Pairwise fun x y => x.1.baseOffset ≠ y.1.baseOffset :=
    List.pairwise_map.mp ((hperm.map _).nodup_iff.mpr hn)
  refine ⟨all, hperm, (hle.and hne).imp_of_mem fun {x y} hx hy hxy => ?_⟩
  exact hb x (hperm.mem_iff.mp hx) y (hperm.mem_iff.mp hy) (Nat.lt_of_le_of_ne hxy.1 hxy.2)

/-- Lists that differ in empty segments only are read alike. -/
theorem readParts_perm {ys all : List Part} (hperm : all.Perm (xs ++ ys))
    (hall : all.Pairwise Part.Before) (hxs : xs.Pairwise Part.Before) (hys : ∀ y ∈ ys, y.2 = [])
    (target maxRecords maxBytes hwm : Nat) :
    readParts target maxRecords maxBytes hwm (all.map Prod.snd) =
      readParts target maxRecords maxBytes hwm (xs.map Prod.snd) := by
  have hnone : ys.filter (fun y => decide (y.2 ≠ [])) = [] :=
    List.filter_eq_nil_iff.mpr fun y hy => by simp [hys y hy]
  have heq : all.filter (fun x => decide (x.2 ≠ [])) =
      xs.filter (fun x => decide (x.2 ≠ [])) := by
    refine List.Perm.eq_of_pairwise ?_ (hall.filter _) (hxs.filter _) ?_
    · exact fun a b _ _ hab hba => absurd hab.1 (Nat.lt_asymm hba.1)
    · have hfilter := hperm.filter (fun x => decide (x.2 ≠ []))
      rwa [List.filter_append, hnone, List.append_nil] at hfilter
  rw [← readParts_filter _ _ _ _ (all.map Prod.snd), ← readParts_filter _ _ _ _ (xs.map Prod.snd),
    List.filter_map, List.filter_map]
  exact congrArg (fun l => readParts target maxRecords maxBytes hwm (l.map Prod.snd)) heq

/-! ### Histories -/

def Writer.files (w : Writer) : Directory :=
  { logs := w.logFiles, indexes := w.indexFiles, tmpLogs := [], tmpIndexes := [], marker := none }

/-- No segment reaches over a leftover log. -/
def Writer.Clear (w : Writer) : Prop :=
  ∀ l ∈ w.leftovers, ∀ s ∈ w.partition.segments, s.baseOffset < l.base →
    ∀ r ∈ s.records, r.offset < l.base

instance (w : Writer) : Decidable w.Clear :=
  inferInstanceAs (Decidable (∀ l ∈ w.leftovers, ∀ s ∈ w.partition.segments,
    s.baseOffset < l.base → ∀ r ∈ s.records, r.offset < l.base))

/-- A fault of a roll after the seal. -/
def Fault.OfCreate : Option Fault → Prop
  | none => True
  | some (.create _) => True
  | some _ => False

def AppendRecord.OffsetU64 (r : AppendRecord) : Prop := ∀ o, r.offset = some o → o ≤ u64Max

/-- Appends in which rolls may fail after the seal, and restarts that find the segments in
order. -/
inductive Writer.Rolling : Writer → Prop where
  | started {p : Partition} (h : Reachable p) : Rolling ⟨p, false, []⟩
  | append {w w' : Writer} (h : Rolling w) {records : List (AppendRecord × Option Fault)}
    (hsmall : ∀ x ∈ records, x.1.Small) (hu64 : ∀ x ∈ records, x.1.OffsetU64)
    (hfaults : ∀ x ∈ records, Fault.OfCreate x.2) {d : Durability} {now : Int64}
    {offsets : Option (List Nat)} (hs : w.appendBatch records none d now = some (w', offsets)) :
    Rolling w'
  | reopen {w : Writer} (h : Rolling w) (hclear : w.Clear) {segmentBytes : UInt64}
    {flushEveryRecords : Nat} {p : Partition}
    (ho : Partition.open w.files segmentBytes flushEveryRecords = some p) : Rolling ⟨p, false, []⟩

/-- The leftover logs have names of their own. -/
structure Writer.Apart (w : Writer) : Prop where
  nodup : (w.leftovers.map (·.base)).Nodup
  max : ∀ l ∈ w.leftovers, l.base ≤ u64Max
  apart : ∀ l ∈ w.leftovers, l.base ∉ w.partition.segments.map (·.baseOffset)

def Writer.Sound (w : Writer) : Prop :=
  w.Apart ∧ ∃ parts tail, w.partition.Holds parts tail ∧ ∀ r ∈ contents parts ++ tail, r.Small

/-- Between two rounds of the loop. -/
def Filling.Sound (f : Filling) : Prop :=
  f.writer.Apart ∧
    ∃ parts tail, f.appending.Holds parts tail ∧ ∀ r ∈ contents parts ++ tail, r.Small

theorem Partition.commitBatch_bases (p : Partition) (b : PendingBatch) :
    (p.commitBatch b).segments.map (·.baseOffset) = p.segments.map (·.baseOffset) := by
  have hsealed : (p.commitBatch b).sealedSegments = p.sealedSegments := by
    unfold Partition.commitBatch
    split <;> rfl
  simp only [Partition.segments, List.map_append, hsealed, List.map_cons, List.map_nil,
    Partition.commitBatch_base]

theorem Writer.Apart.of_bases (h : w.Apart) (hl : w'.leftovers = w.leftovers)
    (hb : w'.partition.segments.map (·.baseOffset) = w.partition.segments.map (·.baseOffset)) :
    w'.Apart := ⟨hl ▸ h.nodup, hl ▸ h.max, by rw [hl, hb]; exact h.apart⟩

theorem Writer.Apart.roll (h : w.Apart) (newBase : Nat) :
    Writer.Apart { w with
      partition := w.partition.roll newBase
      leftovers := w.leftovers.filter (·.base ≠ newBase) } where
  nodup := h.nodup.sublist (List.filter_sublist.map _)
  max := fun l hl => h.max l (List.mem_filter.mp hl).1
  apart := by
    intro l hl hmem
    obtain ⟨hl, hne⟩ := List.mem_filter.mp hl
    have hsegs : (w.partition.roll newBase).segments.map (·.baseOffset) =
        w.partition.segments.map (·.baseOffset) ++ [newBase] := List.map_append
    dsimp only at hmem
    rw [hsegs] at hmem
    rcases List.mem_append.mp hmem with hmem | hmem
    · exact h.apart l hl hmem
    · exact of_decide_eq_true hne (List.mem_singleton.mp hmem)

theorem Created.bases_leave (created : Created) (base : Nat) (leftovers : List Leftover)
    {l : Leftover} (hl : l ∈ created.leave base leftovers) : l.base = base ∨ l ∈ leftovers := by
  unfold Created.leave at hl
  split at hl
  · exact .inr hl
  · split at hl
    · exact .inr hl
    · rcases List.mem_append.mp hl with hl | hl
      · exact .inr hl
      · exact .inl (congrArg Leftover.base (List.mem_singleton.mp hl))
  · rcases List.mem_append.mp hl with hl | hl
    · exact .inr (List.mem_filter.mp hl).1
    · exact .inl (congrArg Leftover.base (List.mem_singleton.mp hl))

theorem Created.nodup_leave (created : Created) (base : Nat) {leftovers : List Leftover}
    (h : (leftovers.map (·.base)).Nodup) : ((created.leave base leftovers).map (·.base)).Nodup := by
  unfold Created.leave
  split
  · exact h
  · split
    · exact h
    · rename_i hnew
      rw [List.map_append]
      exact List.nodup_append.mpr ⟨h, List.nodup_singleton _, fun a ha b hb heq =>
        hnew ((heq.trans (List.mem_singleton.mp hb) : a = base) ▸ ha)⟩
  · rw [List.map_append]
    refine List.nodup_append.mpr ⟨h.sublist (List.filter_sublist.map _), List.nodup_singleton _,
      fun a ha b hb heq => ?_⟩
    obtain ⟨l, hl, rfl⟩ := List.mem_map.mp ha
    exact of_decide_eq_true (List.mem_filter.mp hl).2 (heq.trans (List.mem_singleton.mp hb))

theorem Writer.Apart.leave (h : w.Apart) (created : Created) (hmax : base ≤ u64Max)
    (hbase : base ∉ w.partition.segments.map (·.baseOffset)) :
    Writer.Apart { w with leftovers := created.leave base w.leftovers } where
  nodup := created.nodup_leave base h.nodup
  max := by
    intro l hl
    rcases created.bases_leave base _ hl with heq | hl
    · exact heq ▸ hmax
    · exact h.max l hl
  apart := by
    intro l hl
    rcases created.bases_leave base _ hl with heq | hl
    · exact heq ▸ hbase
    · exact h.apart l hl

/-! ### One append -/

theorem Filling.Sound.append {f f' : Filling} (h : f.Sound) {now : Int64} {r : AppendRecord}
    {fault : Option Fault} (hr : r.Small) (hs : f.append now r fault = some (.ok f')) :
    f'.Sound := by
  obtain ⟨hapart, parts, tail, hholds, hsmall⟩ := h
  rcases Filling.append_cases hs with ⟨_, offsets, heq, _⟩ | ⟨o, _, ho, hwrite, _⟩
  · cases heq
    exact ⟨hapart, parts, tail, ⟨hholds.holds, hholds.next, hholds.proper⟩, hsmall⟩
  · obtain ⟨f₁, hroom, rfl, happend⟩ := Filling.write_ok hwrite
    obtain ⟨parts', tail', hholds', hcontents, _⟩ := hholds.write hr.fits ho happend
    refine ⟨?_, parts', tail', hholds', fun x hx => ?_⟩
    · rcases (Filling.makeRoom_ok hroom).2 with ⟨_, rfl⟩ | ⟨_, rfl⟩
      · exact hapart
      · exact Writer.Apart.roll (w := { f.writer with
          partition := f.writer.partition.commitBatch f.batch })
          (hapart.of_bases rfl (Partition.commitBatch_bases _ _)) o
    · rw [hcontents] at hx
      rcases List.mem_append.mp hx with hx | hx
      · exact hsmall x hx
      · rw [List.mem_singleton.mp hx]
        exact hr.stored now o

theorem Writer.commitBatch_create (w : Writer) (b : PendingBatch) (hfault : Fault.OfCreate fault) :
    w.commitBatch b fault = .ok { w with partition := w.partition.commitBatch b } := by
  unfold Writer.commitBatch
  split
  · rename_i hcount
    rw [Partition.commitBatch, if_pos hcount]
  · rcases fault with _ | fault
    · rfl
    · cases fault with
      | create => rfl
      | _ => exact hfault.elim

theorem Writer.roll_create_error {newBase : Nat} (hfault : Fault.OfCreate fault)
    (h : w.roll newBase fault = .error w') :
    ∃ created : Created, w' = { w with leftovers := created.leave newBase w.leftovers } := by
  match fault, hfault, h with
  | some (.create created), _, h =>
    cases h
    exact ⟨created, rfl⟩

theorem AppendRecord.place_le (hu64 : r.OffsetU64) {next o : Nat} (hnext : next ≤ u64Max)
    (h : r.place next = some o) : o ≤ u64Max := by
  unfold AppendRecord.place at h
  split at h
  · rename_i o' ho'
    split at h
    · cases h
    · cases h
      exact hu64 _ ho'
  · cases h
    exact hnext

theorem Partition.Stacked.le_active (h : p.Stacked) (hb : base ∈ p.segments.map (·.baseOffset)) :
    base ≤ p.active.baseOffset := by
  obtain ⟨s, hs, rfl⟩ := List.mem_map.mp hb
  obtain ⟨_, _, hlt⟩ := List.pairwise_append.mp h.ordered
  rcases List.mem_append.mp hs with hs | hs
  · exact Nat.le_of_lt (hlt s hs p.active List.mem_cons_self)
  · rw [List.mem_singleton.mp hs]

/-- A roll is tried only if something was written, so the new base is above every segment. -/
theorem Filling.Sound.append_error (h : f.Sound) (hu64 : r.OffsetU64)
    (hfault : Fault.OfCreate fault) (hs : f.append now r fault = some (.error w)) : w.Sound := by
  obtain ⟨hapart, parts, tail, hholds, hsmall⟩ := h
  obtain ⟨o, hplace, ho, hroom⟩ := Filling.append_error hs
  obtain ⟨hfull, hfail⟩ := Filling.makeRoom_error hroom
  have hnext : f.next = f.appending.committed.nextOffset := hholds.next
  have hpending : f.writer.partition.appender.sizeBytes + f.batch.log.length =
      f.appending.committed.appender.sizeBytes :=
    (f.appending.partition.committed hholds.proper).appenderSize.symm
  have hwritten := hholds.holds.stacked.written (hpending ▸ hfull.1)
  rcases hfail with hfail | hfail
  · rw [Writer.commitBatch_create _ _ hfault] at hfail
    cases hfail
  · obtain ⟨created, rfl⟩ := Writer.roll_create_error hfault hfail
    refine ⟨Writer.Apart.leave (w := { f.writer with
      partition := f.writer.partition.commitBatch f.batch })
      (hapart.of_bases rfl (Partition.commitBatch_bases _ _)) created
      (AppendRecord.place_le hu64 (hnext ▸ hholds.holds.nextMax) hplace) fun hmem => ?_,
      parts, tail, hholds.holds, hsmall⟩
    have hle : o ≤ f.appending.committed.active.baseOffset :=
      hholds.holds.stacked.le_active hmem
    omega

theorem Filling.Sound.rounds (hsmall : ∀ x ∈ records, x.1.Small)
    (hu64 : ∀ x ∈ records, x.1.OffsetU64) (hfaults : ∀ x ∈ records, Fault.OfCreate x.2)
    (h : f.Sound) {out : Except Writer Filling} (hs : f.rounds now records = some out) :
    (∀ w, out = .error w → w.Sound) ∧ ∀ f', out = .ok f' → f'.Sound := by
  induction records generalizing f with
  | nil =>
    cases hs
    exact ⟨nofun, fun f' heq => by cases heq; exact h⟩
  | cons x records ih =>
    obtain ⟨r, fault⟩ := x
    obtain ⟨out₁, hout, hs⟩ := Option.bind_eq_some_iff.mp hs
    cases out₁ with
    | error w₁ =>
      cases hs
      refine ⟨fun w heq => ?_, nofun⟩
      cases heq
      exact h.append_error (hu64 _ List.mem_cons_self) (hfaults _ List.mem_cons_self) hout
    | ok f₁ =>
      exact ih (fun x hx => hsmall x (List.mem_cons_of_mem _ hx))
        (fun x hx => hu64 x (List.mem_cons_of_mem _ hx))
        (fun x hx => hfaults x (List.mem_cons_of_mem _ hx))
        (h.append (hsmall _ List.mem_cons_self) hout) hs

theorem Partition.settle_bases (p : Partition) (d : Durability) (fresh : Bool) :
    (p.settle d fresh).segments.map (·.baseOffset) = p.segments.map (·.baseOffset) := by
  unfold Partition.settle
  dsimp only
  split
  · unfold Partition.syncUpto
    split <;> rfl
  · rfl

theorem Writer.Sound.appendBatch (h : w.Sound) (hsmall : ∀ x ∈ records, x.1.Small)
    (hu64 : ∀ x ∈ records, x.1.OffsetU64) (hfaults : ∀ x ∈ records, Fault.OfCreate x.2)
    {d : Durability} {offsets : Option (List Nat)}
    (hs : w.appendBatch records none d now = some (w', offsets)) : w'.Sound := by
  obtain ⟨hapart, parts, tail, hholds, hrecords⟩ := id h
  unfold Writer.appendBatch at hs
  split at hs
  · cases hs
    exact h
  · obtain ⟨out, hout, hs⟩ := Option.bind_eq_some_iff.mp hs
    have hstart : w.start.Sound :=
      ⟨hapart, parts, tail, ⟨hholds, rfl, fun _ => rfl⟩, hrecords⟩
    obtain ⟨herror, hok⟩ := hstart.rounds hsmall hu64 hfaults hout
    cases out with
    | error w₁ =>
      cases hs
      exact herror _ rfl
    | ok f =>
      obtain ⟨hapart', parts', tail', hholds', hrecords'⟩ := hok f rfl
      simp only [Writer.commitBatch_create _ _ (show Fault.OfCreate none from trivial)] at hs
      cases hs
      exact ⟨hapart'.of_bases rfl
        ((Partition.settle_bases _ _ _).trans (Partition.commitBatch_bases _ _)),
        parts', tail', hholds'.holds.settle _ _, hrecords'⟩

/-! ### Restarts -/

/-- The leftover logs as segments. -/
def Writer.strays (w : Writer) : List Part :=
  w.leftovers.map fun l => (Segment.openEmpty l.base, [])

theorem Writer.mem_strays {x : Part} (hx : x ∈ w.strays) :
    ∃ l ∈ w.leftovers, x = (Segment.openEmpty l.base, []) := by
  obtain ⟨l, hl, rfl⟩ := List.mem_map.mp hx
  exact ⟨l, hl, rfl⟩

/-- The segments and the leftover logs, in one order. -/
structure Writer.Files (w : Writer) (parts : List Part) (tail : List Record)
    (all : List Part) : Prop where
  holds : w.partition.Holds parts tail
  perm : all.Perm (parts ++ [(w.partition.active, tail)] ++ w.strays)
  ordered : all.Pairwise Part.Before
  max : ∀ x ∈ all, x.1.baseOffset ≤ u64Max

theorem Writer.Clear.files (hclear : w.Clear) (hapart : w.Apart)
    (h : w.partition.Holds parts tail) : ∃ all, w.Files parts tail all := by
  have hbases : (parts ++ [(w.partition.active, tail)]).map (·.1.baseOffset) =
      w.partition.segments.map (·.baseOffset) := by
    rw [h.map_segments, List.map_map]
    rfl
  have hstrays : w.strays.map (·.1.baseOffset) = w.leftovers.map (·.base) := by
    rw [Writer.strays, List.map_map]
    rfl
  have hnodup : ((parts ++ [(w.partition.active, tail)] ++ w.strays).map
      (·.1.baseOffset)).Nodup := by
    rw [List.map_append, hbases, hstrays]
    refine List.nodup_append.mpr ⟨?_, hapart.nodup, fun a ha b hb heq => ?_⟩
    · exact List.pairwise_map.mpr (h.stacked.ordered.imp Nat.ne_of_lt)
    · obtain ⟨l, hl, rfl⟩ := List.mem_map.mp hb
      exact hapart.apart l hl (heq ▸ ha)
  obtain ⟨all, hperm, hordered⟩ := Part.exists_ordered hnodup (by
    intro x hx y hy hlt
    rcases List.mem_append.mp hx with hx | hx
    · rcases List.mem_append.mp hy with hy | hy
      · exact Part.before_of_lt h.ordered hx hy hlt
      · obtain ⟨l, hl, rfl⟩ := Writer.mem_strays hy
        refine ⟨hlt, fun r hr => hclear l hl x.1 ?_ hlt r ?_⟩
        · rw [h.map_segments]
          exact List.mem_map_of_mem hx
        · rw [(h.holdsAll x hx).records]
          exact hr
    · obtain ⟨l, _, rfl⟩ := Writer.mem_strays hx
      exact ⟨hlt, nofun⟩)
  refine ⟨all, h, hperm, hordered, fun x hx => ?_⟩
  rcases List.mem_append.mp (hperm.mem_iff.mp hx) with hx | hx
  · have hle := h.stacked.le_active (hbases ▸ List.mem_map_of_mem hx)
    exact Nat.le_trans hle (Nat.le_trans h.baseNext h.nextMax)
  · obtain ⟨l, hl, rfl⟩ := Writer.mem_strays hx
    exact hapart.max l hl

section
variable {w : Writer} {parts all : List Part} {tail : List Record}

section
variable (h : w.Files parts tail all)
include h

theorem Writer.Files.allHold : ∀ x ∈ all, x.1.Holds x.2 := by
  intro x hx
  rcases List.mem_append.mp (h.perm.mem_iff.mp hx) with hx | hx
  · exact h.holds.holdsAll x hx
  · obtain ⟨l, _, rfl⟩ := Writer.mem_strays hx
    exact Segment.holds_openEmpty l.base

theorem Writer.Files.logs : w.files.logs.Perm (all.map fun x => (x.1.baseOffset, x.1.log)) := by
  have hlogs : w.files.logs = (parts ++ [(w.partition.active, tail)] ++ w.strays).map
      fun x => (x.1.baseOffset, x.1.log) := by
    rw [List.map_append, Writer.strays, List.map_map]
    show w.partition.segments.map _ ++ _ = _
    rw [h.holds.map_segments, List.map_map]
    rfl
  rw [hlogs]
  exact (h.perm.map _).symm

theorem Writer.Files.indexed {x : Part} (hx : x ∈ all) :
    x.1.Indexed (w.files.indexes.lookup x.1.baseOffset) := by
  intro bytes hbytes
  -- the file found has the base of a segment or of a leftover log, and bases do not repeat
  have hfrom : ∃ y ∈ all, y.1.baseOffset = x.1.baseOffset ∧ bytes = y.1.indexFile := by
    rcases List.mem_append.mp (mem_of_lookup hbytes) with hmem | hmem
    · obtain ⟨s, hs, heq⟩ := List.mem_map.mp hmem
      rw [h.holds.map_segments] at hs
      obtain ⟨y, hy, rfl⟩ := List.mem_map.mp hs
      obtain ⟨hbase, hfile⟩ := Prod.mk.inj heq
      exact ⟨y, h.perm.mem_iff.mpr (List.mem_append_left _ hy), hbase, hfile.symm⟩
    · obtain ⟨l, hl, heq⟩ := List.mem_map.mp hmem
      obtain ⟨hbase, hfile⟩ := Prod.mk.inj heq
      exact ⟨(Segment.openEmpty l.base, []), h.perm.mem_iff.mpr (List.mem_append_right _
        (List.mem_map_of_mem (List.mem_filter.mp hl).1)), hbase, hfile.symm⟩
  obtain ⟨y, hy, hbase, hfile⟩ := hfrom
  rw [← Part.eq_of_base h.ordered hy hx hbase]
  exact hfile

/-- A restart finds all logs, in order. -/
theorem Writer.Files.open (segmentBytes : UInt64) (flushEveryRecords : Nat) :
    ∃ p parts' tail', Partition.open w.files segmentBytes flushEveryRecords = some p ∧
      p.Holds parts' tail' ∧ (parts' ++ [(p.active, tail')]).map Part.outline =
        all.map Part.outline := by
  rcases List.eq_nil_or_concat all with hnil | ⟨front, last, rfl⟩
  · have hperm := h.perm
    rw [hnil] at hperm
    exact absurd hperm.symm.eq_nil (by simp)
  · rw [List.concat_eq_append] at h ⊢
    have hlast := h.allHold last (by simp)
    obtain ⟨hfront, _, hbefore⟩ := List.pairwise_append.mp h.ordered
    obtain ⟨p, parts', hopen, hp, houtline, hbase, _⟩ := @Partition.open_parts w.files rfl front
      (fun x hx => h.allHold x (List.mem_append_left _ hx)) last.1.baseOffset last.2 []
      hlast.sequence (h.max last (by simp)) .clean hfront
      (fun x hx => hbefore x hx last List.mem_cons_self)
      (by
        have hlogs := h.logs
        rw [List.map_append, List.map_singleton, hlast.log] at hlogs
        rw [List.append_nil]
        exact hlogs)
      (fun x hx => h.indexed (List.mem_append_left _ hx)) segmentBytes flushEveryRecords
    refine ⟨p, parts', last.2, hopen, hp, ?_⟩
    rw [List.map_append, List.map_append, houtline, List.map_singleton, List.map_singleton,
      Part.outline, Part.outline, hbase]

end

end

/-- A restart in which no segment reaches over a leftover log changes no read. -/
theorem Writer.Sound.reopen (h : w.Sound) (hclear : w.Clear) (segmentBytes : UInt64)
    (flushEveryRecords : Nat) :
    ∃ p, Partition.open w.files segmentBytes flushEveryRecords = some p ∧
      Writer.Sound ⟨p, false, []⟩ ∧ ∀ target maxRecords maxBytes,
        (p.readRecordsRaw target maxRecords maxBytes).1 =
          (w.partition.readRecordsRaw target maxRecords maxBytes).1 := by
  obtain ⟨hapart, parts, tail, hholds, hsmall⟩ := h
  obtain ⟨all, hfiles⟩ := hclear.files hapart hholds
  obtain ⟨p, parts', tail', hopen, hp, houtline⟩ := hfiles.open segmentBytes flushEveryRecords
  have hsnd : (parts' ++ [(p.active, tail')]).map Prod.snd = all.map Prod.snd := by
    have hmap := congrArg (List.map Prod.snd) houtline
    rwa [List.map_map, List.map_map] at hmap
  have hsmall' : ∀ r ∈ contents parts' ++ tail', r.Small := by
    intro r hr
    rw [← contents_snoc parts' p.active, contents_outline houtline] at hr
    obtain ⟨x, hx, hr⟩ := mem_contents.mp hr
    rcases List.mem_append.mp (hfiles.perm.mem_iff.mp hx) with hx | hx
    · exact hsmall r (contents_snoc parts w.partition.active tail ▸ mem_contents.mpr ⟨x, hx, hr⟩)
    · obtain ⟨l, _, rfl⟩ := Writer.mem_strays hx
      cases hr
  refine ⟨p, hopen, ⟨⟨List.nodup_nil, nofun, nofun⟩, parts', tail', hp, hsmall'⟩, ?_⟩
  intro target maxRecords maxBytes
  rw [hp.read_eq hsmall' (Nat.le_max_left _ w.partition.nextOffset),
    hholds.read_eq hsmall (Nat.le_max_right p.nextOffset _), hsnd,
    readParts_perm hfiles.perm hfiles.ordered hholds.ordered]
  intro y hy
  obtain ⟨l, _, rfl⟩ := Writer.mem_strays hy
  rfl

theorem Writer.Rolling.sound (h : w.Rolling) : w.Sound := by
  induction h with
  | started h =>
    exact ⟨⟨List.nodup_nil, nofun, nofun⟩, h.holds⟩
  | append _ hsmall hu64 hfaults hs ih => exact ih.appendBatch hsmall hu64 hfaults hs
  | reopen _ hclear ho ih =>
    obtain ⟨p, hopen, hp, _⟩ := ih.reopen hclear _ _
    rw [hopen] at ho
    cases ho
    exact hp

/-- **A failed roll hides nothing**, unless a record was then written to a segment below the
log it left, at or above the offset in the log's name: the partition can be opened again, and
every read returns what it did. -/
theorem failed_roll_hides_nothing {w : Writer} (h : w.Rolling) (hclear : w.Clear)
    (segmentBytes : UInt64) (flushEveryRecords : Nat) :
    ∃ p, Partition.open w.files segmentBytes flushEveryRecords = some p ∧
      ∀ target maxRecords maxBytes, (p.readRecordsRaw target maxRecords maxBytes).1 =
        (w.partition.readRecordsRaw target maxRecords maxBytes).1 := by
  obtain ⟨p, hopen, _, hread⟩ := h.sound.reopen hclear segmentBytes flushEveryRecords
  exact ⟨p, hopen, hread⟩

/-! A segment with one record, and a roll that fails for a record that does not fit behind it. -/

def failedRoll : Option Writer := do
  let w : Writer := ⟨.ofSegments [] (.openEmpty 0) 0 false 100 1, false, []⟩
  let (w, _) ← w.appendBatch [(⟨none, [1], some 0, none⟩, none)] none .policy 100
  let (w, _) ← w.appendBatch [(⟨none, List.replicate 100 2, some 0, none⟩,
    some (.create .both))] none .policy 100
  some w

theorem failedRoll_rolling (h : failedRoll = some w) : w.Rolling := by
  unfold failedRoll at h
  obtain ⟨⟨w₁, _⟩, h₁, h⟩ := Option.bind_eq_some_iff.mp h
  obtain ⟨⟨w₂, _⟩, h₂, h⟩ := Option.bind_eq_some_iff.mp h
  cases h
  have hrecord : ∀ x ∈ [((⟨none, [1], some 0, none⟩ : AppendRecord), (none : Option Fault))],
      x.1.Small ∧ x.1.OffsetU64 ∧ Fault.OfCreate x.2 := by
    intro x hx
    rw [List.mem_singleton.mp hx]
    exact ⟨by decide, nofun, trivial⟩
  have hlarge : ∀ x ∈ [((⟨none, List.replicate 100 2, some 0, none⟩ : AppendRecord),
      some (Fault.create .both))], x.1.Small ∧ x.1.OffsetU64 ∧ Fault.OfCreate x.2 := by
    intro x hx
    rw [List.mem_singleton.mp hx]
    exact ⟨by decide, nofun, trivial⟩
  have hfirst := Writer.Rolling.append (.started (.created (open_empty 100 1)))
    (fun x hx => (hrecord x hx).1) (fun x hx => (hrecord x hx).2.1)
    (fun x hx => (hrecord x hx).2.2) h₁
  exact .append hfirst (fun x hx => (hlarge x hx).1) (fun x hx => (hlarge x hx).2.1)
    (fun x hx => (hlarge x hx).2.2) h₂

theorem failedRoll_isSome : failedRoll.isSome := by decide +kernel

/-- Closed right after the failed roll. -/
theorem failed_roll_hides_nothing_yet :
    (failedRoll.get failedRoll_isSome).leftovers = [⟨1, true⟩] ∧
      ∃ p, Partition.open (failedRoll.get failedRoll_isSome).files 100 1 = some p ∧
        ∀ target maxRecords maxBytes, (p.readRecordsRaw target maxRecords maxBytes).1 =
          ((failedRoll.get failedRoll_isSome).partition.readRecordsRaw target maxRecords
            maxBytes).1 :=
  ⟨by decide +kernel, failed_roll_hides_nothing
    (failedRoll_rolling (Option.some_get failedRoll_isSome).symm) (by decide +kernel) 100 1⟩

/-- A smaller record still fits into the old segment. -/
def smallAfterFailedRoll : Option Writer := do
  let w ← failedRoll
  let (w, _) ← w.appendBatch [(⟨none, [3], some 0, none⟩, none)] none .policy 100
  some w

theorem smallAfterFailedRoll_isSome : smallAfterFailedRoll.isSome := by decide +kernel

def reachesOver : Writer := smallAfterFailedRoll.get smallAfterFailedRoll_isSome

def reachesOverRecovered : Option (List Segment × Nat) :=
  recoverSegments reachesOver.files.indexes reachesOver.files.logs
    ((reachesOver.files.logs.head?.map Prod.fst).getD 0)

theorem reachesOverRecovered_isSome : reachesOverRecovered.isSome := by decide +kernel

/-- It gets the offset in the name of the leftover log. After a restart a read there finds
nothing. -/
theorem failed_roll_hides :
    reachesOver.leftovers = [⟨1, true⟩] ∧
      (reachesOver.partition.readRecordsRaw 1 10 0).1 = [⟨1, 0, none, [3]⟩] ∧
      ∃ p, Partition.open reachesOver.files 100 1 = some p ∧
        (p.readRecordsRaw 1 10 0).1 = [] := by
  have hsorted : (reachesOver.files.logs.mergeSort fun a b => a.1 ≤ b.1) =
      reachesOver.files.logs :=
    mergeSort_eq_of_perm (List.Perm.refl _) (by decide +kernel) (by decide +kernel)
  have hrec : reachesOverRecovered =
      some (reachesOverRecovered.get reachesOverRecovered_isSome) :=
    (Option.some_get reachesOverRecovered_isSome).symm
  have hactive : (reachesOverRecovered.get reachesOverRecovered_isSome).1.getLast? =
      some (.openEmpty 1) := by decide +kernel
  exact ⟨by decide +kernel, by decide +kernel, _,
    @Partition.open_sorted reachesOver.files rfl _ hsorted _ _ hrec hactive 100 1,
    by decide +kernel⟩

end EventStream.Storage
