import Mathlib.Data.List.Dedup
import Mathlib.Data.List.Sort
import EventStream.Storage.Compaction
import EventStream.Storage.Contents
import EventStream.Storage.Recover

/-! Retention of old segments, and how it runs beside compaction (`retention.rs`,
`Partition::unlink_plan`).

A retention pass names its victims by base offset, on a snapshot of the segments. Between
that and the unlinking other tasks append, roll and compact. The pass removes only records
of segments it selected, provided no compaction meanwhile puts records of other segments
under a selected base (`retention_removes_selected`). -/
namespace EventStream.Storage

/-! ### Planning -/

/-- Segments whose newest record is older than the cutoff. A segment without records is
skipped. -/
def expired (retentionMs : UInt64) (now : Int64) (segs : List Segment) : List Nat :=
  let cutoff := satSubI64 now retentionMs.toInt64
  (segs.filter fun s =>
    decide (s.maxTimestampMs ≠ Int64.minValue ∧ s.maxTimestampMs < cutoff)).map (·.baseOffset)

/-- Walk oldest first and mark segments until the partition is within its budget. -/
def overBudget : Nat → List Nat → List Segment → List Nat
  | _, victims, [] => victims
  | excess, victims, s :: rest =>
    if s.baseOffset ∈ victims then overBudget (excess - s.sizeBytes) victims rest
    else if excess = 0 then victims
    else overBudget (excess - s.sizeBytes) (victims ++ [s.baseOffset]) rest

/-- The bases of the segments a retention pass may delete. -/
def Partition.planVictims (p : Partition) (config : TopicConfig) (now : Int64) : List Nat :=
  let sealedSegments := p.segments.filter (·.baseOffset < p.active.baseOffset)
  let byTime := (config.retentionMs.map fun ms => expired ms now sealedSegments).getD []
  let bySize := (config.retentionBytes.map fun bytes =>
    let total := (p.segments.map (·.sizeBytes)).sum
    if bytes.toNat < total then overBudget (total - bytes.toNat) byTime sealedSegments
    else byTime).getD byTime
  (bySize.insertionSort (· ≤ ·)).dedup

/-- Take the victims out of the segment list; the active segment stays. -/
def Partition.unlinkPlan (p : Partition) (victims : List Nat) : Partition :=
  let victims := victims.filter (· < p.active.baseOffset)
  if p.sealedSegments = [] ∨ victims = [] then p
  else
    let kept := p.sealedSegments.filter fun s => s.baseOffset ∉ victims
    { p with
      sealedSegments := kept
      startOffset := ((kept ++ [p.active]).head?.map (·.baseOffset)).getD p.active.baseOffset }

/-! ### Passes side by side -/

/-- A retention pass between its planning and its unlinking. -/
structure Pass where
  /-- The segments it was planned on. -/
  snapshot : List Segment
  /-- What `plan_victims` returned. -/
  selected : List Nat
  /-- What is left of it after the offload to cold storage. -/
  victims : List Nat
  deriving DecidableEq, Repr

structure Cleanup where
  partition : Partition
  pass : Option Pass
  compacting : Option Compacting
  deriving DecidableEq, Repr

/-- The steps of the tasks that work on a partition. The offload names the bases whose copy
succeeded. -/
inductive CleanupEvent where
  | append (records : List AppendRecord) (d : Durability) (now : Int64)
  | sync
  | plan (config : TopicConfig) (now : Int64)
  | offload (copied : List Nat)
  | unlink
  | compact (config : TopicConfig) (now : Int64)
  | swap
  deriving DecidableEq, Repr

/-- Start a retention pass on the partition. -/
def Cleanup.plan (w : Cleanup) (config : TopicConfig) (now : Int64) : Option Cleanup :=
  let selected := w.partition.planVictims config now
  if w.pass.isSome ∨ config.cleanupPolicy.includesDelete = false ∨
      (config.retentionMs = none ∧ config.retentionBytes = none) ∨ selected = [] then none
  else some { w with pass := some ⟨w.partition.segments, selected, selected⟩ }

def Cleanup.step (w : Cleanup) : CleanupEvent → Option Cleanup
  | .append records d now =>
    (w.partition.appendBatch records d now).map fun (p, _) => { w with partition := p }
  | .sync => some { w with partition := w.partition.syncPending }
  | .plan config now => w.plan config now
  | .offload copied => w.pass.map fun pass =>
    let bases := w.partition.segments.map (·.baseOffset)
    let victims := pass.victims.filter fun b => b ∈ bases ∧ b ∈ copied
    { w with pass := if victims = [] then none else some { pass with victims } }
  | .unlink => w.pass.map fun pass =>
    { w with partition := w.partition.unlinkPlan pass.victims, pass := none }
  | .compact config now =>
    if w.compacting.isSome ∨ config.cleanupPolicy.includesCompact = false then none
    else (w.partition.compactRead config now).map fun c => { w with compacting := some c }
  | .swap => w.compacting.map fun c =>
    { w with partition := (w.partition.compactSwap c).getD w.partition, compacting := none }

abbrev Cleanup.run (w : Cleanup) (events : List CleanupEvent) : Option Cleanup :=
  events.foldlM Cleanup.step w

def Partition.records (p : Partition) : List Record := p.segments.flatMap Segment.records

/-! ### The order of segments -/

/-- Base offsets increase, and the end lies above the active base once something was
written. -/
structure Partition.Stacked (p : Partition) : Prop where
  ordered : p.segments.Pairwise fun a b => a.baseOffset < b.baseOffset
  next : p.active.baseOffset ≤ p.nextOffset
  written : 0 < p.appender.sizeBytes → p.active.baseOffset < p.nextOffset

/-- Appends keep the sealed segments and put new ones behind them. -/
structure Partition.Extended (p p' : Partition) : Prop where
  active : p.active.baseOffset ≤ p'.active.baseOffset
  sealedSegments : ∃ more, p'.sealedSegments = p.sealedSegments ++ more ∧
    ∀ s ∈ more, p.active.baseOffset ≤ s.baseOffset

theorem Partition.Extended.refl (p : Partition) : p.Extended p :=
  ⟨Nat.le_refl _, [], (List.append_nil _).symm, fun _ hs => absurd hs List.not_mem_nil⟩

variable {p p' : Partition} {st st' : Appending} {now : Int64} {pass : Pass} {c : Compacting}
    {w u : Cleanup} {offset b : Nat}

theorem Partition.Extended.trans {q r : Partition} (h : p.Extended q) (h' : q.Extended r) :
    p.Extended r := by
  obtain ⟨more, hmore, hbase⟩ := h.sealedSegments
  obtain ⟨more', hmore', hbase'⟩ := h'.sealedSegments
  refine ⟨Nat.le_trans h.active h'.active, more ++ more', by rw [hmore', hmore,
    List.append_assoc], fun s hs => ?_⟩
  rcases List.mem_append.mp hs with hs | hs
  · exact hbase s hs
  · exact Nat.le_trans h.active (hbase' s hs)

theorem Partition.Stacked.roll (h : p.Stacked) {newBase : Nat}
    (hnew : p.active.baseOffset < newBase) :
    (p.roll newBase).segments.Pairwise (fun a b => a.baseOffset < b.baseOffset) ∧
      p.Extended (p.roll newBase) := by
  have hold := List.pairwise_append.mp h.ordered
  refine ⟨List.pairwise_append.mpr ⟨h.ordered, List.pairwise_singleton _ _, fun a ha b hb => ?_⟩,
    Nat.le_of_lt hnew, [p.active], rfl, fun s hs => ?_⟩
  · rw [List.mem_singleton.mp hb]
    show a.baseOffset < newBase
    rcases List.mem_append.mp ha with ha | ha
    · exact Nat.lt_trans (hold.2.2 a ha _ List.mem_cons_self) hnew
    · rw [List.mem_singleton.mp ha]
      exact hnew
  · rw [List.mem_singleton.mp hs]

/-- The loop of an append, for records of any size. -/
structure Appending.Stacked (st : Appending) : Prop where
  stacked : st.committed.Stacked
  next : st.next = st.committed.nextOffset
  proper : st.batch.Proper

namespace Appending.Stacked

theorem makeRoom (h : st.Stacked) (ho : st.next ≤ offset) (need : Nat) :
    (st.makeRoom offset need).batch.Proper ∧
      (st.makeRoom offset need).committed.segments.Pairwise
        (fun a b => a.baseOffset < b.baseOffset) ∧
      (st.makeRoom offset need).committed.active.baseOffset ≤ offset ∧
      st.committed.Extended (st.makeRoom offset need).committed := by
  have hnext : st.committed.nextOffset ≤ offset := h.next ▸ ho
  unfold Appending.makeRoom
  dsimp only
  split
  · rename_i hroll
    rw [← (st.partition.committed h.proper).appenderSize] at hroll
    have hbase : st.committed.active.baseOffset < offset :=
      Nat.lt_of_lt_of_le (h.stacked.written hroll.1) hnext
    obtain ⟨hordered, hext⟩ := h.stacked.roll hbase
    exact ⟨fun _ => rfl, hordered, Nat.le_refl _, hext⟩
  · exact ⟨h.proper, h.stacked.ordered, Nat.le_trans h.stacked.next hnext, .refl _⟩

theorem write (h : st.Stacked) {r : AppendRecord} (ho : st.next ≤ offset)
    (hw : st.write now r offset = some st') :
    st'.Stacked ∧ st.committed.Extended st'.committed := by
  obtain ⟨hproper, hordered, hbase, hext⟩ :=
    h.makeRoom ho (recordDiskSize (r.key.map List.length) r.value.length)
  obtain ⟨hgrown, hproper', hnext, hend, _⟩ := Appending.grown_write hw hproper
  have hgrow : (st.makeRoom offset (recordDiskSize (r.key.map List.length)
      r.value.length)).committed.Extended st'.committed :=
    ⟨Nat.le_of_eq hgrown.baseOffset.symm, [], by rw [hgrown.sealedSegments, List.append_nil],
      fun _ hs => absurd hs List.not_mem_nil⟩
  refine ⟨⟨⟨?_, ?_, fun _ => ?_⟩, hnext.trans hend.symm, hproper'⟩, hext.trans hgrow⟩
  · have hold := List.pairwise_append.mp hordered
    rw [Partition.segments, hgrown.sealedSegments]
    refine List.pairwise_append.mpr ⟨hold.1, List.pairwise_singleton _ _, fun a ha b hb => ?_⟩
    rw [List.mem_singleton.mp hb, hgrown.baseOffset]
    exact hold.2.2 a ha _ List.mem_cons_self
  · rw [hgrown.baseOffset, hend]
    exact Nat.le_succ_of_le hbase
  · rw [hgrown.baseOffset, hend]
    exact Nat.lt_succ_of_le hbase

theorem append {st st' : Appending} (h : st.Stacked) {now : Int64}
    {r : AppendRecord} (hs : Appending.append now st r = some st') :
    st'.Stacked ∧ st.committed.Extended st'.committed := by
  rcases Appending.append_cases hs with ⟨_, hst⟩ | ⟨o, _, ho, hw⟩
  · rw [hst]
    exact ⟨⟨h.stacked, h.next, h.proper⟩, .refl _⟩
  · exact h.write ho hw

theorem foldlM {records : List AppendRecord} (h : st.Stacked)
    (hs : records.foldlM (Appending.append now) st = some st') :
    st'.Stacked ∧ st.committed.Extended st'.committed := by
  refine foldlM_keeps (P := fun st' => st'.Stacked ∧ st.committed.Extended st'.committed)
    (fun _ _ _ _ h hs => ?_) ⟨h, .refl _⟩ hs
  obtain ⟨h', hext⟩ := h.1.append hs
  exact ⟨h', h.2.trans hext⟩

end Appending.Stacked

namespace Partition

theorem Stacked.syncUpto (h : p.Stacked) (mark : WriteMark) :
    (p.syncUpto mark).Stacked ∧ p.Extended (p.syncUpto mark) := by
  unfold Partition.syncUpto
  split
  · exact ⟨h, .refl p⟩
  · exact ⟨⟨h.ordered, h.next, h.written⟩, ⟨Nat.le_refl _, [], (List.append_nil _).symm,
      fun _ hs => absurd hs List.not_mem_nil⟩⟩

theorem Stacked.syncPending (h : p.Stacked) :
    p.syncPending.Stacked ∧ p.Extended p.syncPending := by
  unfold Partition.syncPending
  split
  · exact ⟨h, .refl p⟩
  · exact h.syncUpto _

theorem Stacked.appendBatch (h : p.Stacked) {records : List AppendRecord} {d : Durability}
    {offsets : List Nat} (hs : p.appendBatch records d now = some (p', offsets)) :
    p'.Stacked ∧ p.Extended p' := by
  obtain ⟨st, hst, hs⟩ := Option.bind_eq_some_iff.mp hs
  cases hs
  have hstart : Appending.Stacked ⟨p, {}, p.nextOffset, 0, []⟩ := ⟨h, rfl, fun _ => rfl⟩
  obtain ⟨h', hext⟩ := hstart.foldlM hst
  unfold Partition.settle
  dsimp only
  split
  · obtain ⟨hsync, hext'⟩ := h'.stacked.syncUpto st.committed.latest
    exact ⟨hsync, hext.trans hext'⟩
  · exact ⟨h'.stacked, hext⟩

/-- The partitions of all histories are in order. -/
theorem Holds.stacked {parts : List Part} {tail : List Record} (h : p.Holds parts tail) :
    p.Stacked where
  ordered := by
    rw [h.map_segments]
    exact List.pairwise_map.mpr (h.ordered.imp fun hab => hab.1)
  next := h.baseNext
  written := by
    intro hsize
    rw [h.appenderSize, h.activeHolds.log] at hsize
    cases tail with
    | nil => exact absurd hsize (Nat.lt_irrefl _)
    | cons r tail =>
      exact Nat.lt_of_le_of_lt (h.activeHolds.base r List.mem_cons_self)
        (h.below r List.mem_cons_self)

end Partition

/-! ### What a pass may remove -/

/-- Since its planning, a segment under a selected base holds only records of segments that
were selected. -/
structure Pass.Sound (pass : Pass) (p : Partition) : Prop where
  victims : ∀ b ∈ pass.victims, b ∈ pass.selected
  sealedBases : ∀ b ∈ pass.selected, b < p.active.baseOffset
  records : ∀ s ∈ p.segments, s.baseOffset ∈ pass.selected → ∀ r ∈ s.records,
    ∃ s' ∈ pass.snapshot, s'.baseOffset ∈ pass.selected ∧ r ∈ s'.records

theorem mem_overBudget {excess : Nat} {victims : List Nat} {segs : List Segment}
    (h : b ∈ overBudget excess victims segs) : b ∈ victims ∨ ∃ s ∈ segs, s.baseOffset = b := by
  induction segs generalizing excess victims with
  | nil => exact .inl h
  | cons s segs ih =>
    have hmore {excess : Nat} {victims : List Nat} (h : b ∈ overBudget excess victims segs) :
        b ∈ victims ∨ ∃ x ∈ s :: segs, x.baseOffset = b := by
      rcases ih h with h | ⟨x, hx, hb⟩
      · exact .inl h
      · exact .inr ⟨x, List.mem_cons_of_mem _ hx, hb⟩
    rw [overBudget] at h
    split at h
    · exact hmore h
    · split at h
      · exact .inl h
      · rcases hmore h with h | h
        · rcases List.mem_append.mp h with h | h
          · exact .inl h
          · exact .inr ⟨s, List.mem_cons_self, (List.mem_singleton.mp h).symm⟩
        · exact .inr h

/-- A plan selects sealed segments only. -/
theorem Partition.planVictims_sealed {config : TopicConfig} (h : b ∈ p.planVictims config now) :
    b < p.active.baseOffset := by
  have hsealed {s : Segment}
      (hs : s ∈ p.segments.filter (·.baseOffset < p.active.baseOffset)) :
      s.baseOffset < p.active.baseOffset := by simpa using (List.mem_filter.mp hs).2
  have hexpired {ms : UInt64}
      (h : b ∈ expired ms now (p.segments.filter (·.baseOffset < p.active.baseOffset))) :
      b < p.active.baseOffset := by
    obtain ⟨s, hs, rfl⟩ := List.mem_map.mp h
    exact hsealed (List.mem_filter.mp hs).1
  have htime (h : b ∈ (config.retentionMs.map fun ms => expired ms now
      (p.segments.filter (·.baseOffset < p.active.baseOffset))).getD []) :
      b < p.active.baseOffset := by
    cases hms : config.retentionMs with
    | none => rw [hms] at h; exact absurd h List.not_mem_nil
    | some ms => rw [hms] at h; exact hexpired h
  unfold Partition.planVictims at h
  dsimp only at h
  rw [List.mem_dedup, List.mem_insertionSort] at h
  cases hbytes : config.retentionBytes with
  | none => rw [hbytes] at h; exact htime h
  | some bytes =>
    rw [hbytes, Option.map_some, Option.getD_some] at h
    split at h
    · rcases mem_overBudget h with h | ⟨s, hs, rfl⟩
      · exact htime h
      · exact hsealed hs
    · exact htime h

theorem Pass.Sound.extended (h : pass.Sound p) (hext : p.Extended p') : pass.Sound p' where
  victims := h.victims
  sealedBases := fun b hb => Nat.lt_of_lt_of_le (h.sealedBases b hb) hext.active
  records := by
    obtain ⟨more, hmore, hbase⟩ := hext.sealedSegments
    intro s hs hsel
    have hlow := h.sealedBases _ hsel
    rw [Partition.segments, hmore, List.append_assoc] at hs
    rcases List.mem_append.mp hs with hs | hs
    · exact h.records s (List.mem_append_left _ hs) hsel
    · -- A segment that is new since then lies above every selected base.
      exfalso
      rcases List.mem_append.mp hs with hs | hs
      · exact absurd (hbase s hs) (by omega)
      · rw [List.mem_singleton.mp hs] at hlow
        exact absurd hext.active (by omega)

/-- The condition on a swap: the compacted segment takes no base that a pending retention pass
selected, unless every segment merged into it was selected too. -/
def Cleanup.SwapSafe (w : Cleanup) : Prop :=
  ∀ pass c, w.pass = some pass → w.compacting = some c →
    c.output.baseOffset ∉ pass.selected ∨ ∀ s ∈ c.sealedSegments, s.baseOffset ∈ pass.selected

instance (w : Cleanup) : Decidable w.SwapSafe :=
  decidable_of_iff (∀ pass ∈ w.pass, ∀ c ∈ w.compacting, c.output.baseOffset ∉ pass.selected ∨
    ∀ s ∈ c.sealedSegments, s.baseOffset ∈ pass.selected)
    ⟨fun h pass c hpass hc => h pass hpass c hc, fun h pass hpass c hc => h pass c hpass hc⟩

theorem Partition.compactSwap_eq (h : p.compactSwap c = some p') :
    p' = { p with sealedSegments := [c.output] } ∧
      ∀ s ∈ c.sealedSegments, s ∈ p.segments ∧ s.baseOffset < p.active.baseOffset := by
  unfold Partition.compactSwap at h
  dsimp only at h
  split at h
  · rename_i hsame
    cases h
    refine ⟨rfl, fun s hs => ?_⟩
    rw [← hsame.2] at hs
    exact ⟨(List.mem_filter.mp hs).1, by simpa using (List.mem_filter.mp hs).2⟩
  · cases h

theorem Pass.Sound.swap (h : pass.Sound p) (hc : c.Sound) (hswap : p.compactSwap c = some p')
    (hsafe : c.output.baseOffset ∉ pass.selected ∨
      ∀ s ∈ c.sealedSegments, s.baseOffset ∈ pass.selected) : pass.Sound p' := by
  obtain ⟨rfl, hmem⟩ := Partition.compactSwap_eq hswap
  refine ⟨h.victims, h.sealedBases, fun s hs hsel r hr => ?_⟩
  rcases List.mem_append.mp hs with hs | hs
  · rw [List.mem_singleton.mp hs] at hsel hr
    rcases hsafe with hnot | hall
    · exact absurd hsel hnot
    · obtain ⟨s0, hs0, hr0⟩ := hc.records r hr
      exact h.records s0 (hmem s0 hs0).1 (hall s0 hs0) r hr0
  · exact h.records s (List.mem_append_right _ hs) hsel r hr

theorem Partition.Stacked.swap (h : p.Stacked) (hc : c.Sound) (hswap : p.compactSwap c = some p') :
    p'.Stacked := by
  obtain ⟨rfl, hmem⟩ := Partition.compactSwap_eq hswap
  obtain ⟨s, hs, hbase⟩ := hc.base
  refine ⟨?_, h.next, h.written⟩
  show [c.output, p.active].Pairwise _
  simp only [List.pairwise_cons, List.mem_singleton, forall_eq, List.not_mem_nil, false_implies,
    implies_true, List.Pairwise.nil, and_true]
  exact hbase ▸ (hmem s hs).2

theorem Partition.Stacked.unlink (h : p.Stacked) (victims : List Nat) :
    (p.unlinkPlan victims).Stacked := by
  unfold Partition.unlinkPlan
  dsimp only
  split
  · exact h
  · exact ⟨h.ordered.sublist (List.filter_sublist.append (List.Sublist.refl _)), h.next,
      h.written⟩

/-! ### Runs -/

structure Cleanup.Sound (w : Cleanup) : Prop where
  stacked : w.partition.Stacked
  pass : ∀ pass, w.pass = some pass → pass.Sound w.partition
  compacting : ∀ c, w.compacting = some c → c.Sound

/-- One step of any task keeps a pending pass sound, swaps meeting their condition. -/
theorem Cleanup.Sound.step {w w' : Cleanup} (h : w.Sound) {e : CleanupEvent}
    (hsafe : e = .swap → w.SwapSafe) (hs : w.step e = some w') : w'.Sound := by
  cases e with
  | append records d now =>
    obtain ⟨⟨p, offsets⟩, hp, rfl⟩ := Option.map_eq_some_iff.mp hs
    obtain ⟨hst, hext⟩ := h.stacked.appendBatch hp
    exact ⟨hst, fun pass hpass => (h.pass pass hpass).extended hext, h.compacting⟩
  | sync =>
    cases hs
    obtain ⟨hst, hext⟩ := h.stacked.syncPending
    exact ⟨hst, fun pass hpass => (h.pass pass hpass).extended hext, h.compacting⟩
  | plan config now =>
    unfold Cleanup.step Cleanup.plan at hs
    dsimp only at hs
    split at hs
    · cases hs
    · cases hs
      refine ⟨h.stacked, fun pass hpass => ?_, h.compacting⟩
      cases hpass
      exact ⟨fun b hb => hb, fun b hb => Partition.planVictims_sealed hb,
        fun s hs hsel r hr => ⟨s, hs, hsel, hr⟩⟩
  | offload copied =>
    obtain ⟨pass, hpass, rfl⟩ := Option.map_eq_some_iff.mp hs
    refine ⟨h.stacked, fun pass' hpass' => ?_, h.compacting⟩
    have hold := h.pass pass hpass
    dsimp only at hpass'
    split at hpass'
    · cases hpass'
    · cases hpass'
      exact ⟨fun b hb => hold.victims b (List.mem_filter.mp hb).1, hold.sealedBases, hold.records⟩
  | unlink =>
    obtain ⟨pass, hpass, rfl⟩ := Option.map_eq_some_iff.mp hs
    exact ⟨h.stacked.unlink _, fun _ hnone => (nomatch hnone), h.compacting⟩
  | compact config now =>
    unfold Cleanup.step at hs
    dsimp only at hs
    split at hs
    · cases hs
    · obtain ⟨c, hc, rfl⟩ := Option.map_eq_some_iff.mp hs
      refine ⟨h.stacked, h.pass, fun c' hc' => ?_⟩
      cases hc'
      exact Partition.compactRead_sound hc
  | swap =>
    obtain ⟨c, hc, rfl⟩ := Option.map_eq_some_iff.mp hs
    cases hswap : w.partition.compactSwap c with
    | none => exact ⟨h.stacked, h.pass, fun _ hnone => (nomatch hnone)⟩
    | some p' =>
      exact ⟨h.stacked.swap (h.compacting c hc) hswap,
        fun pass hpass => (h.pass pass hpass).swap (h.compacting c hc) hswap
          (hsafe rfl pass c hpass hc), fun _ hnone => (nomatch hnone)⟩

theorem Cleanup.step_unlink (h : w.pass = some pass) :
    w.step .unlink =
      some { w with partition := w.partition.unlinkPlan pass.victims, pass := none } := by
  unfold Cleanup.step
  rw [h, Option.map_some]

/-- Runs in which every swap meets its condition. -/
abbrev Cleanup.SafeRun : Cleanup → Cleanup → Prop :=
  Runs Cleanup.step fun w e => e = .swap → w.SwapSafe

/-- **Retention removes what it selected.** Start from any partition whose segments are in
order, with no pass under way, and let appends, rolls, compactions and retention passes run in
any order. If each swap of a compaction takes no base that a pending retention pass selected,
or merges only segments it selected, then every record that an unlinking removes was, at
planning time, in a segment that `plan_victims` selected. -/
theorem retention_removes_selected {p : Partition} (hp : p.Stacked) {w w' : Cleanup}
    (hrun : Cleanup.SafeRun ⟨p, none, none⟩ w) {pass : Pass} (hpass : w.pass = some pass)
    (hs : w.step .unlink = some w') {r : Record} (hr : r ∈ w.partition.records)
    (hgone : r ∉ w'.partition.records) :
    ∃ s ∈ pass.snapshot, s.baseOffset ∈ pass.selected ∧ r ∈ s.records := by
  have hsound : w.Sound := hrun.keeps
    ⟨hp, fun _ hnone => (nomatch hnone), fun _ hnone => (nomatch hnone)⟩
    fun h hsafe hs => h.step hsafe hs
  have hpassSound := hsound.pass pass hpass
  obtain ⟨pass', hpass', rfl⟩ := Option.map_eq_some_iff.mp hs
  cases hpass.symm.trans hpass'
  obtain ⟨s, hseg, hrs⟩ := List.mem_flatMap.mp hr
  -- The segment is gone, so its base was among the victims.
  have hvictim : s.baseOffset ∈ pass.victims := by
    by_contra hnot
    refine hgone (List.mem_flatMap.mpr ⟨s, ?_, hrs⟩)
    show s ∈ (w.partition.unlinkPlan pass.victims).segments
    unfold Partition.unlinkPlan
    dsimp only
    split
    · exact hseg
    · rcases List.mem_append.mp hseg with hseg | hseg
      · refine List.mem_append_left _ (List.mem_filter.mpr ⟨hseg, ?_⟩)
        simpa using Or.inl hnot
      · exact List.mem_append_right _ hseg
  exact hpassSound.records s hseg (hpassSound.victims _ hvictim) r hrs

/-! ### A compaction between planning and unlinking -/

/-- Every record gets a segment of its own. -/
def tinySegments : Partition := .ofSegments [] (.openEmpty 0) 0 false 1 1

def keepHalf : TopicConfig :=
  { retentionMs := some 50, retentionBytes := none, cleanupPolicy := .compactDelete,
    segmentBytes := 1, tombstoneRetentionMs := 0 }

/-- Two versions of a key in two sealed segments, the newer one of the given time; then a retention
pass is planned, and a compaction swaps before it unlinks. -/
def swapBetween (newer : Int64) : List CleanupEvent :=
  [.append [⟨some [1], [1], some 0, none⟩, ⟨some [1], [2], some newer, none⟩,
    ⟨none, [3], some 100, none⟩] .policy 100,
    .plan keepHalf 100, .compact keepHalf 100, .swap]

theorem tinySegments_stacked : tinySegments.Stacked := ⟨by decide, by decide, by decide⟩

theorem bothOld_runs : (Runs.replay Cleanup.step (fun w e => e = .swap → w.SwapSafe)
    ⟨tinySegments, none, none⟩ (swapBetween 0)).isSome := by decide +kernel

def bothOld : Cleanup :=
  (Runs.replay Cleanup.step (fun w e => e = .swap → w.SwapSafe) ⟨tinySegments, none, none⟩
    (swapBetween 0)).get bothOld_runs

theorem swapBetween_runs :
    (Cleanup.run ⟨tinySegments, none, none⟩ (swapBetween 100)).isSome := by decide +kernel

def swapped : Cleanup :=
  (Cleanup.run ⟨tinySegments, none, none⟩ (swapBetween 100)).get swapBetween_runs

theorem bothOld_pass : bothOld.pass.isSome := by decide +kernel

theorem swapped_pass : swapped.pass.isSome := by decide +kernel

/-- Both versions are past their time, so the merged segment may take the base of the first. The
newer version goes, which was in a segment that the pass had selected. -/
theorem retention_removes_selected_old :
    ∃ s ∈ (bothOld.pass.get bothOld_pass).snapshot,
      s.baseOffset ∈ (bothOld.pass.get bothOld_pass).selected ∧
        (⟨1, 0, some [1], [2]⟩ : Record) ∈ s.records := by
  have hpass : bothOld.pass = some (bothOld.pass.get bothOld_pass) :=
    (Option.some_get bothOld_pass).symm
  exact retention_removes_selected tinySegments_stacked
    (Runs.of_replay (Option.some_get bothOld_runs).symm) hpass
    (Cleanup.step_unlink hpass) (by decide +kernel) (by decide +kernel)

/-- A compaction that swaps between planning and unlinking puts the newer version, in a segment
that was not selected, under the selected base; the unlinking then removes it. -/
theorem retention_drops_merged :
    ∃ w w' pass r, Cleanup.run ⟨tinySegments, none, none⟩ (swapBetween 100) = some w ∧
      w.pass = some pass ∧ w.step .unlink = some w' ∧ r ∈ w.partition.records ∧
      r ∉ w'.partition.records ∧
      ∀ s ∈ pass.snapshot, s.baseOffset ∈ pass.selected → r ∉ s.records := by
  have hpass : swapped.pass = some (swapped.pass.get swapped_pass) :=
    (Option.some_get swapped_pass).symm
  exact ⟨swapped, _, swapped.pass.get swapped_pass, ⟨1, 100, some [1], [2]⟩,
    (Option.some_get swapBetween_runs).symm, hpass, Cleanup.step_unlink hpass,
    by decide +kernel, by decide +kernel, by decide +kernel⟩

end EventStream.Storage
