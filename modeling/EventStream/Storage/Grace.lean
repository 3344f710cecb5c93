import EventStream.Storage.Swap

/-! Segments that are on disk but not in memory.

Retention takes segments out of the list, waits, and unlinks their files. A crash in between
brings the dropped segments back. The recovered partition is in order as long as the dropped
segments fit between those that were kept, and a compaction during the wait can break that:
it merges segments from both sides of a dropped one into a single segment below it. -/
namespace EventStream.Storage

/-! ### Stray segments -/

/-- The files of a crashed partition beside those of segments it does not list. -/
def Partition.filesWith (p : Partition) (stray : List Segment) (n : Nat)
    (index : Option Bytes) : Directory :=
  { p.crashed n index with
    logs := (p.crashed n index).logs ++ stray.map fun s => (s.baseOffset, s.log)
    indexes := (p.crashed n index).indexes ++ stray.map fun s => (s.baseOffset, s.indexFile) }

/-- `all` are the sealed segments and the stray ones, in one order. -/
structure Partition.Beside (p : Partition) (stray : List Segment) (all : List Part)
    (tail : List Record) : Prop where
  holds : ∃ parts, p.Holds parts tail
  files : (all.map Prod.fst).Perm (p.sealedSegments ++ stray)
  allHold : ∀ x ∈ all, x.1.Holds x.2
  ordered : (all ++ [(p.active, tail)]).Pairwise Part.Before

variable {all parts : List Part} {x y : Part} {rs tail : List Record} {n : Nat}
    {index : Option Bytes} {r : Record} {p : Partition}

theorem Part.before_of_lt (ho : all.Pairwise Part.Before) (hx : x ∈ all) (hy : y ∈ all)
    (hlt : x.1.baseOffset < y.1.baseOffset) : x.Before y := by
  induction ho with
  | nil => exact absurd hx List.not_mem_nil
  | cons hz _ ih =>
    rcases List.mem_cons.mp hx with rfl | hx' <;> rcases List.mem_cons.mp hy with rfl | hy'
    · exact absurd hlt (Nat.lt_irrefl _)
    · exact hz y hy'
    · exact absurd (hz x hx').1 (Nat.lt_asymm hlt)
    · exact ih hx' hy'

theorem Part.eq_of_base (ho : all.Pairwise Part.Before) (hx : x ∈ all) (hy : y ∈ all)
    (h : x.1.baseOffset = y.1.baseOffset) : x = y := by
  induction ho with
  | nil => exact absurd hx List.not_mem_nil
  | cons hz _ ih =>
    rcases List.mem_cons.mp hx with rfl | hx' <;> rcases List.mem_cons.mp hy with rfl | hy'
    · rfl
    · exact absurd h (Nat.ne_of_lt (hz y hy').1)
    · exact absurd h.symm (Nat.ne_of_lt (hz x hx').1)
    · exact ih hx' hy'

/-- What a segment holds is what a scan of it finds. -/
theorem Segment.Holds.unique {s : Segment} {rs' : List Record} (h : s.Holds rs) (h' : s.Holds rs') :
    rs = rs' := h.records.symm.trans h'.records

/-- The segments that retention takes out of the list. -/
def Partition.droppedBy (p : Partition) (victims : List Nat) : List Segment :=
  p.sealedSegments.filter fun s => s.baseOffset ∈ victims.filter (· < p.active.baseOffset)

theorem Partition.unlinkPlan_kept (p : Partition) (victims : List Nat) :
    (p.unlinkPlan victims).sealedSegments = p.sealedSegments.filter (fun s =>
      s.baseOffset ∉ victims.filter (· < p.active.baseOffset)) ∧
    (p.unlinkPlan victims).active = p.active := by
  unfold Partition.unlinkPlan
  dsimp only
  split
  · rename_i hnone
    refine ⟨?_, rfl⟩
    rcases hnone with hnone | hnone
    · rw [hnone]
      rfl
    · rw [hnone]
      exact (List.filter_eq_self.mpr fun _ _ => by simp).symm
  · exact ⟨rfl, rfl⟩

/-- The segment lies below the output of a compaction. -/
def Compacting.below (c : Compacting) (s : Segment) : Bool := s.baseOffset < c.output.baseOffset

/-- It lies above everything that is merged. -/
def Compacting.above (c : Compacting) (s : Segment) : Bool :=
  ∀ s' ∈ c.sealedSegments, s'.baseOffset < s.baseOffset

section
variable {p : Partition} {stray : List Segment} {all : List Part} {tail : List Record}

theorem Partition.Holds.beside (h : p.Holds parts tail) : p.Beside [] parts tail where
  holds := ⟨parts, h⟩
  files := by rw [h.segments, List.append_nil]
  allHold := h.sealedHold
  ordered := h.ordered

variable {s : Segment} {q : Partition} {config : TopicConfig} {now : Int64} {c : Compacting}

/-- Nothing that is merged lies below the output or above everything merged. -/
theorem Partition.Holds.filter_merged (hp : p.Holds parts tail)
    (hc : q.compactRead config now = some c) (hsealed : c.sealedSegments = p.sealedSegments) :
    p.sealedSegments.filter c.below = [] ∧ p.sealedSegments.filter c.above = [] := by
  obtain ⟨first, others, hfirst, hbase⟩ := Partition.compactRead_first hc
  have hincreasing := (List.pairwise_append.mp hp.inOrder.bases).1
  rw [← hsealed, hfirst] at hincreasing
  rw [← hsealed]
  refine ⟨List.filter_eq_nil_iff.mpr fun s hs => ?_, List.filter_eq_nil_iff.mpr fun s hs hl =>
    Nat.lt_irrefl _ (of_decide_eq_true hl s hs)⟩
  have hle : first.baseOffset ≤ s.baseOffset := by
    rcases List.mem_cons.mp (hfirst ▸ hs) with rfl | hs
    · exact Nat.le_refl _
    · exact Nat.le_of_lt ((List.pairwise_cons.mp hincreasing).1 s hs)
  simp only [Compacting.below, decide_eq_true_eq]
  omega

namespace Partition.Beside

section
variable (h : p.Beside stray all tail)
include h

theorem sealed_mem (hs : s ∈ p.sealedSegments ++ stray) : ∃ rs, (s, rs) ∈ all := by
  obtain ⟨x, hx, rfl⟩ := List.mem_map.mp (h.files.symm.subset hs)
  exact ⟨x.2, hx⟩

theorem before_active : ∀ x ∈ all, x.Before (p.active, tail) :=
  fun x hx => (List.pairwise_append.mp h.ordered).2.2 x hx _ List.mem_cons_self

theorem all_ordered : all.Pairwise Part.Before :=
  (List.pairwise_append.mp h.ordered).1

theorem mem_of_holds (hp : p.Holds parts tail) : ∀ x ∈ parts, x ∈ all := by
  intro x hx
  have hmem : x.1 ∈ p.sealedSegments ++ stray :=
    List.mem_append_left _ (hp.segments ▸ List.mem_map_of_mem hx)
  obtain ⟨rs, hrs⟩ := h.sealed_mem hmem
  have heq : rs = x.2 := (h.allHold _ hrs).unique (hp.sealedHold x hx)
  rwa [heq] at hrs

/-- A base names one segment. -/
theorem stray_ne {s' : Segment} (hs : s ∈ p.sealedSegments) (hs' : s' ∈ stray) :
    s.baseOffset ≠ s'.baseOffset := by
  have hnodup : ((p.sealedSegments ++ stray).map (·.baseOffset)).Nodup := by
    refine ((h.files.map _).nodup_iff).mp ?_
    rw [List.map_map]
    exact List.pairwise_map.mpr (h.all_ordered.imp fun hab => Nat.ne_of_lt hab.1)
  rw [List.map_append] at hnodup
  exact (List.nodup_append.mp hnodup).2.2 _ (List.mem_map_of_mem hs) _ (List.mem_map_of_mem hs')

theorem filter_files (keep : Segment → Bool) :
    ((all.filter fun x => keep x.1).map Prod.fst).Perm
      (p.sealedSegments.filter keep ++ stray.filter keep) := by
  have hmap : (all.filter fun x => keep x.1).map Prod.fst = (all.map Prod.fst).filter keep := by
    rw [List.filter_map]
    rfl
  rw [hmap, ← List.filter_append]
  exact h.files.filter keep

end

/-! ### Steps -/

variable {p' : Partition}

section
variable (h : p.Beside stray all tail)
include h

/-- New segments come behind all others. -/
theorem extend (hext : p.Extended p') {parts' : List Part} {tail' : List Record}
    (h' : p'.Holds parts' tail') :
    ∃ back, p'.Beside stray (all ++ back) tail' ∧ ∀ x ∈ back, x ∈ parts' := by
  obtain ⟨more, hmore, hbase⟩ := hext.sealedSegments
  obtain ⟨front, back, rfl, hfront, hback⟩ := List.map_eq_append_iff.mp
    (h'.segments.symm.trans hmore)
  refine ⟨back, ⟨⟨_, h'⟩, ?_, ?_, ?_⟩, fun x hx => List.mem_append_right _ hx⟩
  · rw [List.map_append, hback, hmore]
    refine (h.files.append_right more).trans ?_
    rw [List.append_assoc, List.append_assoc]
    exact List.perm_append_comm.append_left _
  · intro x hx
    rcases List.mem_append.mp hx with hx | hx
    · exact h.allHold x hx
    · exact h'.sealedHold x (List.mem_append_right _ hx)
  · have hordered := h'.ordered
    rw [List.append_assoc] at hordered ⊢
    refine List.pairwise_append.mpr ⟨h.all_ordered, (List.pairwise_append.mp hordered).2.1,
      fun x hx y hy => ?_⟩
    have hlow : p.active.baseOffset ≤ y.1.baseOffset := by
      rcases List.mem_append.mp hy with hy | hy
      · exact hbase _ (hback ▸ List.mem_map_of_mem hy)
      · rw [List.mem_singleton.mp hy]
        exact hext.active
    obtain ⟨hx1, hx2⟩ := h.before_active x hx
    exact ⟨Nat.lt_of_lt_of_le hx1 hlow, fun r hr => Nat.lt_of_lt_of_le (hx2 r hr) hlow⟩

/-- What retention drops becomes stray. -/
theorem retain (victims : List Nat) :
    (p.unlinkPlan victims).Beside (stray ++ p.droppedBy victims) all tail := by
  obtain ⟨parts, hp⟩ := h.holds
  obtain ⟨parts', _, hp'⟩ := hp.unlinkPlan victims
  obtain ⟨hkept, hactive⟩ := p.unlinkPlan_kept victims
  refine ⟨⟨parts', hp'⟩, ?_, h.allHold, hactive ▸ h.ordered⟩
  refine h.files.trans ?_
  rw [hkept, Partition.droppedBy]
  refine ((List.filter_append_perm (fun s => decide (s.baseOffset ∉ victims.filter
    (· < p.active.baseOffset))) p.sealedSegments).symm.append_right stray).trans ?_
  rw [List.append_assoc]
  refine List.Perm.append_left _ (List.perm_append_comm.trans (List.Perm.append_left _ ?_))
  refine List.Perm.of_eq (List.filter_congr fun s _ => ?_)
  rw [← decide_not, decide_eq_decide, not_not]

/-- Files are unlinked. -/
theorem unlink (bases : List Nat) :
    ∃ rest, rest.Sublist all ∧ p.Beside (stray.filter fun s => s.baseOffset ∉ bases) rest tail := by
  -- A base names one segment, so the listed ones are told from the stray ones by it.
  let keep (s : Segment) : Bool :=
    decide (s.baseOffset ∈ p.sealedSegments.map (·.baseOffset) ∨ s.baseOffset ∉ bases)
  have hsub : (all.filter fun x => keep x.1).Sublist all := List.filter_sublist
  refine ⟨_, hsub, h.holds, ?_, fun x hx => h.allHold x (hsub.subset hx),
    h.ordered.sublist (hsub.append (List.Sublist.refl _))⟩
  refine (h.filter_files keep).trans (List.Perm.of_eq ?_)
  congr 1
  · exact List.filter_eq_self.mpr fun s hs => decide_eq_true (.inl (List.mem_map_of_mem hs))
  · refine List.filter_congr fun s hs => decide_eq_decide.mpr (or_iff_right fun hmem => ?_)
    obtain ⟨s', hs', hb⟩ := List.mem_map.mp hmem
    exact h.stray_ne hs' hs hb

/-! A compaction puts its output in the place of what it merged, between the segments below the
output and those above everything merged. -/

section
variable (hc : q.compactRead config now = some c) (hsealed : c.sealedSegments = p.sealedSegments)
include hc hsealed

theorem before_output (hx : x ∈ all) (hbelow : c.below x.1 = true) (rs : List Record) :
    x.Before (c.output, rs) := by
  obtain ⟨lowest, hlowest, hout⟩ := (Partition.compactRead_sound hc).base
  obtain ⟨_, hmem⟩ := h.sealed_mem (List.mem_append_left _ (hsealed ▸ hlowest))
  have hlt : x.1.baseOffset < lowest.baseOffset := hout ▸ of_decide_eq_true hbelow
  have hbefore := Part.before_of_lt h.all_ordered hx hmem hlt
  exact ⟨of_decide_eq_true hbelow, fun r hr => hout ▸ hbefore.2 r hr⟩

theorem output_before (hp : p.Holds parts tail) (hrs : ∀ r ∈ rs, r ∈ contents parts) (hy : y ∈ all)
    (habove : c.above y.1 = true) : Part.Before (c.output, rs) y := by
  obtain ⟨lowest, hlowest, hout⟩ := (Partition.compactRead_sound hc).base
  have hall := of_decide_eq_true habove
  refine ⟨hout ▸ hall lowest hlowest, fun r hr => ?_⟩
  obtain ⟨z, hz, hrz⟩ := mem_contents.mp (hrs r hr)
  have hzsealed : z.1 ∈ c.sealedSegments := hsealed ▸ hp.segments ▸ List.mem_map_of_mem hz
  exact (Part.before_of_lt h.all_ordered (h.mem_of_holds hp z hz) hy (hall z.1 hzsealed)).2 r hrz

/-- The others are the stray segments, if the output reaches over none of them. -/
theorem compact_files (hp : p.Holds parts tail) (hclear : ∀ s ∈ stray,
      s.baseOffset < c.output.baseOffset ∨ ∀ s' ∈ c.sealedSegments, s'.baseOffset < s.baseOffset) :
    ((all.filter (c.below ·.1)).map Prod.fst ++ (all.filter (c.above ·.1)).map Prod.fst).Perm
      stray := by
  obtain ⟨lowest, hlowest, hout⟩ := (Partition.compactRead_sound hc).base
  have hsplit : stray.filter c.above = stray.filter (fun s => !c.below s) := by
    refine List.filter_congr fun s hs => ?_
    rw [Bool.eq_iff_iff, Bool.not_eq_true']
    refine ⟨fun hl => decide_eq_false fun hlt => ?_, fun hl => decide_eq_true ?_⟩
    · have := of_decide_eq_true hl lowest hlowest
      omega
    · exact (hclear s hs).resolve_left (of_decide_eq_false hl)
  have hbelow := h.filter_files c.below
  have habove := h.filter_files c.above
  rw [(hp.filter_merged hc hsealed).1, List.nil_append] at hbelow
  rw [(hp.filter_merged hc hsealed).2, List.nil_append, hsplit] at habove
  exact (hbelow.append habove).trans (List.filter_append_perm c.below stray)

end

/-- The parts between which a new one goes are in order with it. -/
theorem ordered_between {low high : Part → Bool} (hlow : ∀ y ∈ all, low y = true → y.Before x)
    (hhigh : ∀ y ∈ all, high y = true → x.Before y) (hlast : x.Before (p.active, tail)) :
    ((all.filter low ++ x :: all.filter high) ++ [(p.active, tail)]).Pairwise Part.Before := by
  refine List.pairwise_append.mpr ⟨List.pairwise_append.mpr
    ⟨h.all_ordered.sublist List.filter_sublist, List.pairwise_cons.mpr ⟨fun y hy => ?_,
      h.all_ordered.sublist List.filter_sublist⟩, fun y hy z hz => ?_⟩,
    List.pairwise_singleton _ _, fun y hy z hz => ?_⟩
  · exact hhigh y (List.mem_filter.mp hy).1 (List.mem_filter.mp hy).2
  · obtain ⟨hy, hylow⟩ := List.mem_filter.mp hy
    rcases List.mem_cons.mp hz with rfl | hz
    · exact hlow y hy hylow
    · obtain ⟨hz, hzhigh⟩ := List.mem_filter.mp hz
      exact Part.before_of_lt h.all_ordered hy hz
        (Nat.lt_trans (hlow y hy hylow).1 (hhigh z hz hzhigh).1)
  · rw [List.mem_singleton.mp hz]
    rcases List.mem_append.mp hy with hy | hy
    · exact h.before_active y (List.mem_filter.mp hy).1
    · rcases List.mem_cons.mp hy with rfl | hy
      · exact hlast
      · exact h.before_active y (List.mem_filter.mp hy).1

/-- A compaction whose output reaches over no stray segment. -/
theorem compact (hc : q.compactRead config now = some c) (hs : p.compactSwap c = some p')
    (hclear : ∀ s ∈ stray, s.baseOffset < c.output.baseOffset ∨
      ∀ s' ∈ c.sealedSegments, s'.baseOffset < s.baseOffset) :
    ∃ rest survivors, p'.Beside stray rest tail ∧
      (∀ r ∈ survivors, r ∈ contents all) ∧
      ∀ x ∈ rest, x ∈ all ∨ x = (c.output, survivors) := by
  obtain ⟨parts, hp⟩ := h.holds
  have hp' := hp.compact hc hs
  have hsealed := Partition.Increasing.swap_sealed hp.inOrder.bases hs
  obtain ⟨rfl, _⟩ := Partition.compactSwap_eq hs
  have hsub := (survivorsOf_sublist (satSubI64 now config.tombstoneRetentionMs.toInt64)
    (contents parts)).subset
  generalize survivorsOf (satSubI64 now config.tombstoneRetentionMs.toInt64)
    (contents parts) = survivors at hp' hsub
  have hrest : ∀ x ∈ all.filter (c.below ·.1) ++ (c.output, survivors) :: all.filter (c.above ·.1),
      x ∈ all ∨ x = (c.output, survivors) := by
    intro x hx
    rcases List.mem_append.mp hx with hx | hx
    · exact .inl (List.mem_filter.mp hx).1
    · exact (List.mem_cons.mp hx).symm.imp_left fun hx => (List.mem_filter.mp hx).1
  refine ⟨_, survivors, ⟨⟨_, hp'⟩, ?_, fun x hx => ?_, ?_⟩, fun r hr => ?_, hrest⟩
  · rw [List.map_append, List.map_cons]
    exact List.perm_middle.trans ((h.compact_files hc hsealed hp hclear).cons c.output)
  · rcases hrest x hx with hx | rfl
    · exact h.allHold x hx
    · exact hp'.sealedHold _ List.mem_cons_self
  · exact h.ordered_between (fun y hy hl => h.before_output hc hsealed hy hl _)
      (fun y hy hl => h.output_before hc hsealed hp hsub hy hl)
      ((List.pairwise_append.mp hp'.ordered).2.2 _ List.mem_cons_self _ List.mem_cons_self)
  · obtain ⟨z, hz, hrz⟩ := mem_contents.mp (hsub hr)
    exact mem_contents.mpr ⟨z, h.mem_of_holds hp z hz, hrz⟩

end

/-! ### Opening -/

/-- The partition opens with all segments on disk, each with its records. -/
theorem «open» (h : p.Beside stray all tail) {d : Directory} (hd : d.marker = none)
    (hlogs : d.logs.Perm (p.filesWith stray n index).logs)
    (hindexes : ∀ f ∈ d.indexes, f ∈ (p.filesWith stray n index).indexes) (segmentBytes : UInt64)
    (flushEveryRecords : Nat) :
    ∃ p₁ parts₁, Partition.open d segmentBytes flushEveryRecords = some p₁ ∧
      p₁.Holds parts₁ (wholeWithin n tail) ∧ contents parts₁ = contents all := by
  obtain ⟨parts, hp⟩ := h.holds
  obtain ⟨torn, htake, ht⟩ := take_encodeAll hp.activeHolds.fits n
  have hfiles : d.logs.Perm (all.map (fun x => (x.1.baseOffset, x.1.log)) ++
      [(p.active.baseOffset, encodeAll (wholeWithin n tail) ++ torn)]) := by
    have hall := (h.files.map fun s => (s.baseOffset, s.log)).symm
    rw [List.map_map, List.map_append] at hall
    refine hlogs.trans (List.Perm.trans ?_ (hall.append_right _))
    rw [← htake, ← hp.activeHolds.log, List.append_assoc]
    show ((p.sealedSegments.map _ ++ [_]) ++ stray.map _).Perm _
    rw [List.append_assoc]
    exact List.perm_append_comm.append_left _
  have hindexed (x : Part) (hx : x ∈ all) : x.1.Indexed (d.indexes.lookup x.1.baseOffset) := by
    intro b hb
    have hmem := hindexes _ (mem_of_lookup hb)
    have hone (s : Segment) (hs : s ∈ p.sealedSegments ++ stray)
        (hsb : (s.baseOffset, s.indexFile) = (x.1.baseOffset, b)) : b = x.1.indexFile := by
      obtain ⟨rs, hrs⟩ := h.sealed_mem hs
      obtain ⟨hbase, hfile⟩ := Prod.mk.inj hsb
      rw [← hfile, ← Part.eq_of_base h.all_ordered hrs hx hbase]
    rcases List.mem_append.mp hmem with hmem | hmem
    · rcases List.mem_append.mp hmem with hmem | hmem
      · obtain ⟨s, hs, hsb⟩ := List.mem_map.mp hmem
        exact hone s (List.mem_append_left _ hs) hsb
      · obtain ⟨b', _, hb'⟩ := Option.map_eq_some_iff.mp (Option.mem_toList.mp hmem)
        exact absurd (Prod.mk.inj hb').1.symm (Nat.ne_of_lt (h.before_active x hx).1)
    · obtain ⟨s, hs, hsb⟩ := List.mem_map.mp hmem
      exact hone s (List.mem_append_right _ hs) hsb
  obtain ⟨p₁, parts₁, hopen, hholds, houtline, _⟩ := Partition.open_parts hd h.allHold
    (hp.activeHolds.sequence.of_isPrefix (wholeWithin_isPrefix n tail))
    (Nat.le_trans hp.baseNext hp.nextMax) ht h.all_ordered h.before_active hfiles hindexed
    segmentBytes flushEveryRecords
  exact ⟨p₁, parts₁, hopen, hholds, contents_outline houtline⟩

/-- A crash in the middle of a swap leaves the files of the swapped partition once it is
finished. -/
theorem swapped_files (h : p.Beside stray all tail) (hc : q.compactRead config now = some c)
    (hs : p.compactSwap c = some p') (n : Nat) (index : Option Bytes) :
    ((p.filesWith stray n index).swapped c).logs.Perm (p'.filesWith stray n index).logs ∧
      ∀ f ∈ ((p.filesWith stray n index).swapped c).indexes,
        f ∈ (p'.filesWith stray n index).indexes := by
  obtain ⟨parts, hp⟩ := h.holds
  have hsound := Partition.compactRead_sound hc
  have hsealed := Partition.Increasing.swap_sealed hp.inOrder.bases hs
  obtain ⟨rfl, _⟩ := Partition.compactSwap_eq hs
  have hactive (s : Segment) (hs : s ∈ c.sealedSegments) :
      p.active.baseOffset ≠ s.baseOffset := by
    have := Partition.Increasing.sealed_lt hp.inOrder.bases s (hsealed ▸ hs)
    omega
  have hstray (s s' : Segment) (hs : s ∈ c.sealedSegments) (hs' : s' ∈ stray) :
      s'.baseOffset ≠ s.baseOffset := (h.stray_ne (hsealed ▸ hs) hs').symm
  have hlogs : ((p.filesWith stray n index).swapped c).logs =
      ((p.active.baseOffset, p.active.log.take n) ::
        stray.map fun s => (s.baseOffset, s.log)) ++ [(c.output.baseOffset, c.output.log)] := by
    unfold Directory.swapped Partition.filesWith Partition.crashed
    dsimp only
    rw [← hsealed, List.append_assoc]
    refine removeFiles_sealed hsound Segment.log c.output.log fun f hf s hs => ?_
    rcases List.mem_append.mp hf with hf | hf
    · rw [List.mem_singleton.mp hf]
      exact hactive s hs
    · obtain ⟨s', hs', rfl⟩ := List.mem_map.mp hf
      exact hstray s s' hs hs'
  have hindexes : ((p.filesWith stray n index).swapped c).indexes =
      ((index.map fun b => (p.active.baseOffset, b)).toList ++
        stray.map fun s => (s.baseOffset, s.indexFile)) ++
          [(c.output.baseOffset, c.output.indexFile)] := by
    unfold Directory.swapped Partition.filesWith Partition.crashed
    dsimp only
    rw [← hsealed, List.append_assoc]
    refine removeFiles_sealed hsound Segment.indexFile c.output.indexFile fun f hf s hs => ?_
    rcases List.mem_append.mp hf with hf | hf
    · obtain ⟨b, _, rfl⟩ := Option.map_eq_some_iff.mp (Option.mem_toList.mp hf)
      exact hactive s hs
    · obtain ⟨s', hs', rfl⟩ := List.mem_map.mp hf
      exact hstray s s' hs hs'
  constructor
  · rw [hlogs]
    exact List.perm_append_comm
  · rw [hindexes]
    intro f hf
    have hf := List.perm_append_comm.subset hf
    rwa [← List.append_assoc] at hf

end Partition.Beside
end

/-! ### Retention and its grace period -/

/-- A partition, and the segments that retention has dropped but not yet unlinked. -/
structure Grace where
  partition : Partition
  dropped : List Segment
  deriving DecidableEq, Repr

def Grace.files (w : Grace) (n : Nat) (index : Option Bytes) : Directory :=
  w.partition.filesWith w.dropped n index

/-- The output of a compaction reaches over no dropped segment: each lies below it, or above
everything that was merged. -/
def Grace.Clear (w : Grace) (c : Compacting) : Prop :=
  ∀ s ∈ w.dropped, s.baseOffset < c.output.baseOffset ∨
    ∀ s' ∈ c.sealedSegments, s'.baseOffset < s.baseOffset

/-- Runs with retention, compaction and restarts, in which swaps are clear of what retention
has dropped. -/
inductive Grace.Reached : Grace → Prop where
  | start {p : Partition} (h : Reachable p) : Reached ⟨p, []⟩
  | append {w : Grace} {p' : Partition} {records : List AppendRecord} {d : Durability}
    {now : Int64} {offsets : List Nat} (h : Reached w) (hr : ∀ r ∈ records, r.Small)
    (hs : w.partition.appendBatch records d now = some (p', offsets)) :
    Reached { w with partition := p' }
  | syncAll {w : Grace} (h : Reached w) : Reached { w with partition := w.partition.syncAll }
  | syncPending {w : Grace} (h : Reached w) :
    Reached { w with partition := w.partition.syncPending }
  | advanceTo {w : Grace} {offset : Nat} (h : Reached w) (ho : offset ≤ u64Max) :
    Reached { w with partition := w.partition.advanceTo offset }
  | resize {w : Grace} (h : Reached w) (segmentBytes : UInt64) :
    Reached { w with partition := { w.partition with segmentBytes } }
  | retain {w : Grace} (h : Reached w) (victims : List Nat) :
    Reached ⟨w.partition.unlinkPlan victims, w.dropped ++ w.partition.droppedBy victims⟩
  | unlink {w : Grace} (h : Reached w) (bases : List Nat) :
    Reached { w with dropped := w.dropped.filter fun s => s.baseOffset ∉ bases }
  | compact {w : Grace} {q p' : Partition} {config : TopicConfig} {now : Int64}
    {c : Compacting} (h : Reached w) (hc : q.compactRead config now = some c)
    (hs : w.partition.compactSwap c = some p') (hclear : w.Clear c) :
    Reached { w with partition := p' }
  | reopen {w : Grace} {p' : Partition} {n : Nat} {index : Option Bytes} {segmentBytes : UInt64}
    {flushEveryRecords : Nat} (h : Reached w) (hn : w.partition.durable ≤ n)
    (ho : Partition.open (w.files n index) segmentBytes flushEveryRecords = some p') :
    Reached ⟨p', []⟩

/-- What is on disk is in order, and its records fit in every read window. -/
def Grace.Sound (w : Grace) : Prop :=
  ∃ all tail, w.partition.Beside w.dropped all tail ∧ ∀ r ∈ contents all ++ tail, r.Small

variable {w : Grace} {p' : Partition}

section
variable (h : w.Sound)
include h

namespace Grace.Sound

theorem extend (hext : w.partition.Extended p') {parts' : List Part}
    {tail' : List Record} (h' : p'.Holds parts' tail')
    (hsmall : ∀ r ∈ contents parts' ++ tail', r.Small) :
    Grace.Sound { w with partition := p' } := by
  obtain ⟨all, tail, hb, hold⟩ := h
  obtain ⟨back, hb', hback⟩ := hb.extend hext h'
  refine ⟨_, _, hb', fun r hr => ?_⟩
  rcases List.mem_append.mp hr with hr | hr
  · rw [contents_append] at hr
    rcases List.mem_append.mp hr with hr | hr
    · exact hold r (List.mem_append_left _ hr)
    · obtain ⟨x, hx, hrx⟩ := mem_contents.mp hr
      exact hsmall r (List.mem_append_left _ (mem_contents.mpr ⟨x, hback x hx, hrx⟩))
  · exact hsmall r (List.mem_append_right _ hr)

theorem holds :
    ∃ parts tail, w.partition.Holds parts tail ∧ ∀ r ∈ contents parts ++ tail, r.Small := by
  obtain ⟨all, tail, hb, hsmall⟩ := h
  obtain ⟨parts, hp⟩ := hb.holds
  refine ⟨parts, tail, hp, fun r hr => hsmall r ?_⟩
  rcases List.mem_append.mp hr with hr | hr
  · obtain ⟨x, hx, hrx⟩ := mem_contents.mp hr
    exact List.mem_append_left _ (mem_contents.mpr ⟨x, hb.mem_of_holds hp x hx, hrx⟩)
  · exact List.mem_append_right _ hr

theorem compact {q : Partition} {config : TopicConfig} {now : Int64} {c : Compacting}
    (hc : q.compactRead config now = some c) (hs : w.partition.compactSwap c = some p')
    (hclear : w.Clear c) : Grace.Sound { w with partition := p' } := by
  obtain ⟨all, tail, hb, hsmall⟩ := h
  obtain ⟨rest, survivors, hb', hsub, hrest⟩ := hb.compact hc hs hclear
  refine ⟨rest, tail, hb', fun r hr => hsmall r ?_⟩
  rcases List.mem_append.mp hr with hr | hr
  · obtain ⟨x, hx, hrx⟩ := mem_contents.mp hr
    refine List.mem_append_left _ ?_
    rcases hrest x hx with hx | rfl
    · exact mem_contents.mpr ⟨x, hx, hrx⟩
    · exact hsub r hrx
  · exact List.mem_append_right _ hr

/-- After a restart everything on disk is in memory again. -/
theorem reopen {segmentBytes : UInt64} {flushEveryRecords : Nat}
    (ho : Partition.open (w.files n index) segmentBytes flushEveryRecords = some p') :
    Grace.Sound ⟨p', []⟩ := by
  obtain ⟨all, tail, hb, hsmall⟩ := h
  obtain ⟨p₁, parts₁, hopen, hholds, hcontents⟩ :=
    hb.open rfl (List.Perm.refl _) (fun _ hf => hf) segmentBytes flushEveryRecords
  cases hopen.symm.trans ho
  refine ⟨parts₁, _, hholds.beside, fun r hr => hsmall r ?_⟩
  rw [hcontents] at hr
  rcases List.mem_append.mp hr with hr | hr
  · exact List.mem_append_left _ hr
  · exact List.mem_append_right _ ((wholeWithin_isPrefix n tail).subset hr)

end Grace.Sound

end

theorem Grace.Reached.sound (h : w.Reached) : w.Sound := by
  induction h with
  | start h =>
    obtain ⟨parts, tail, hp, hsmall⟩ := h.holds
    exact ⟨parts, tail, hp.beside, hsmall⟩
  | append _ hr hs ih =>
    obtain ⟨parts, tail, hp, hsmall⟩ := ih.holds
    obtain ⟨parts', tail', hp', hcontents, _⟩ := hp.appendBatch (fun r hr' => (hr r hr').fits) hs
    refine ih.extend (hp.stacked.appendBatch hs).2 hp' fun r hmem => ?_
    rw [hcontents] at hmem
    rcases List.mem_append.mp hmem with hmem | hmem
    · exact hsmall r hmem
    · exact small_assign hr r hmem
  | syncAll _ ih =>
    obtain ⟨parts, tail, hp, hsmall⟩ := ih.holds
    exact ih.extend (hp.stacked.syncUpto _).2 hp.syncAll hsmall
  | syncPending _ ih =>
    obtain ⟨parts, tail, hp, hsmall⟩ := ih.holds
    exact ih.extend hp.stacked.syncPending.2 hp.syncPending hsmall
  | advanceTo _ ho ih =>
    obtain ⟨parts, tail, hp, hsmall⟩ := ih.holds
    refine ih.extend ⟨Nat.le_refl _, [], (List.append_nil _).symm, ?_⟩ (hp.advanceTo ho) hsmall
    exact fun _ hs => absurd hs List.not_mem_nil
  | @resize w _ segmentBytes ih =>
    obtain ⟨parts, tail, hp, hsmall⟩ := ih.holds
    have hp' : Partition.Holds { w.partition with segmentBytes } parts tail :=
      { hp with segments := hp.segments }
    refine ih.extend ⟨Nat.le_refl _, [], (List.append_nil _).symm, ?_⟩ hp' hsmall
    exact fun _ hs => absurd hs List.not_mem_nil
  | retain _ victims ih =>
    obtain ⟨all, tail, hb, hsmall⟩ := ih
    exact ⟨all, tail, hb.retain victims, hsmall⟩
  | unlink _ bases ih =>
    obtain ⟨all, tail, hb, hsmall⟩ := ih
    obtain ⟨rest, hsub, hb'⟩ := hb.unlink bases
    exact ⟨rest, tail, hb', fun r hr => hsmall r
      (((contents_sublist hsub).append (List.Sublist.refl tail)).subset hr)⟩
  | compact _ hc hs hclear ih => exact ih.compact hc hs hclear
  | reopen _ _ ho ih => exact ih.reopen ho

/-! ### Reads after the restart -/

/-- A read at the record's offset, for any number of records and bytes, starts with it. -/
def Partition.Returns (p : Partition) (r : Record) : Prop :=
  ∀ maxRecords maxBytes, 0 < maxRecords →
    (p.readRecordsRaw r.offset maxRecords maxBytes).1.head? = some r

theorem head_liveFrom (hs : rs.Pairwise fun a b => a.offset < b.offset) (hr : r ∈ rs) :
    (liveFrom r.offset rs).head? = some r := by
  induction hs with
  | nil => exact absurd hr List.not_mem_nil
  | cons hx _ ih =>
    unfold liveFrom at ih ⊢
    rcases List.mem_cons.mp hr with rfl | hr'
    · rw [List.filter_cons_of_pos (by simp)]
      rfl
    · rw [List.filter_cons_of_neg (by simpa using hx r hr')]
      exact ih hr'

theorem Partition.Holds.returns (h : p.Holds parts tail)
    (hsmall : ∀ r ∈ contents parts ++ tail, r.Small) :
    ∀ r ∈ contents parts ++ tail, p.Returns r := by
  intro r hr maxRecords maxBytes hm
  obtain ⟨out, hread, hpre, hsome⟩ := h.readRecordsRaw hsmall hm (h.lt_next r hr) maxBytes
  have hhead := head_liveFrom h.sorted hr
  rw [hread]
  cases out with
  | nil => exact absurd rfl (hsome fun hnil => by rw [hnil] at hhead; cases hhead)
  | cons x out =>
    obtain ⟨rest, hrest⟩ := hpre
    rw [← hrest] at hhead
    exact hhead

theorem Partition.Holds.mem_read (h : p.Holds parts tail)
    (hsmall : ∀ r ∈ contents parts ++ tail, r.Small) {target maxRecords maxBytes : Nat}
    (hr : r ∈ (p.readRecordsRaw target maxRecords maxBytes).1) : r ∈ contents parts ++ tail := by
  by_cases hnone : p.nextOffset ≤ target ∨ maxRecords = 0
  · unfold Partition.readRecordsRaw at hr
    dsimp only at hr
    rw [if_pos hnone] at hr
    exact absurd hr List.not_mem_nil
  · obtain ⟨out, hread, hpre, _⟩ := @Partition.Holds.readRecordsRaw _ _ _ h hsmall maxRecords
      (by omega) target (by omega) maxBytes
    rw [hread] at hr
    exact (mem_liveFrom.mp (hpre.subset hr)).1

/-- Opening what is on disk. -/
theorem Grace.Sound.returns (h : w.Sound) {d : Directory} (hd : d.marker = none)
    (hlogs : d.logs.Perm (w.files n index).logs)
    (hindexes : ∀ f ∈ d.indexes, f ∈ (w.files n index).indexes) (segmentBytes : UInt64)
    (flushEveryRecords : Nat) :
    ∃ p₁, Partition.open d segmentBytes flushEveryRecords = some p₁ ∧
      p₁.records.Pairwise (fun a b => a.offset < b.offset) ∧
      ∀ target maxRecords maxBytes,
        ∀ r ∈ (w.partition.readRecordsRaw target maxRecords maxBytes).1,
          (r ∈ w.partition.active.records → r ∈ wholeWithin n w.partition.active.records) →
            p₁.Returns r := by
  obtain ⟨all, tail, hb, hsmall⟩ := h
  obtain ⟨parts, hp⟩ := hb.holds
  obtain ⟨p₁, parts₁, hopen, hholds, hcontents⟩ :=
    hb.open hd hlogs hindexes segmentBytes flushEveryRecords
  have hkept (r : Record) (hr : r ∈ contents parts) : r ∈ contents all := by
    obtain ⟨x, hx, hrx⟩ := mem_contents.mp hr
    exact mem_contents.mpr ⟨x, hb.mem_of_holds hp x hx, hrx⟩
  refine ⟨p₁, hopen, hholds.records ▸ hholds.sorted, fun target maxRecords maxBytes r hr hin =>
    hholds.returns (fun r hr => hsmall r ?_) r ?_⟩
  · rw [hcontents] at hr
    rcases List.mem_append.mp hr with hr | hr
    · exact List.mem_append_left _ hr
    · exact List.mem_append_right _ ((wholeWithin_isPrefix n tail).subset hr)
  · rw [hcontents]
    rw [hp.activeHolds.records] at hin
    have hmem := hp.mem_read (fun r hr => hsmall r ?_) hr
    · rcases List.mem_append.mp hmem with hmem | hmem
      · exact List.mem_append_left _ (hkept r hmem)
      · exact List.mem_append_right _ (hin hmem)
    · rcases List.mem_append.mp hr with hr | hr
      · exact List.mem_append_left _ (hkept r hr)
      · exact List.mem_append_right _ hr

/-- **The grace period hides nothing.** A crash while dropped segments are still on disk, at
any point of a compaction pass, and any number of crashes in the recovery from it: the
partition opens with its records in order, and every record that was readable, before the
swap or after it, is returned at its offset, unless it lay in lost bytes of the active log.
All swaps are clear of the dropped segments. -/
theorem grace_hides_nothing {w : Grace} (h : w.Reached) (q : Partition) (config : TopicConfig)
    (now : Int64) (partLog partIndex : Bytes) (j n : Nat) (index : Option Bytes)
    (hclear : ∀ c, q.compactRead config now = some c → (w.partition.compactSwap c).isSome →
      w.Clear c) {e : Directory}
    (hr : Relation.ReflTransGen Directory.Interrupted ((w.files n index).after
      ((q.passOps w.partition config now partLog partIndex).take j)) e)
    (segmentBytes : UInt64) (flushEveryRecords : Nat) :
    ∃ p p₁, (p = w.partition ∨ ∃ c, q.compactRead config now = some c ∧
        w.partition.compactSwap c = some p) ∧
      Partition.open e segmentBytes flushEveryRecords = some p₁ ∧
      p₁.records.Pairwise (fun a b => a.offset < b.offset) ∧
      ∀ target maxRecords maxBytes,
        ∀ r ∈ (p.readRecordsRaw target maxRecords maxBytes).1,
          (r ∈ p.active.records → r ∈ wholeWithin n p.active.records) → p₁.Returns r := by
  rcases @Partition.open_pass (w.files n index) rfl q w.partition config now partLog partIndex j
    e hr segmentBytes flushEveryRecords with heq | ⟨c, p', hread, hswap, heq⟩
  · obtain ⟨p₁, hopen, hrest⟩ := h.sound.returns rfl (List.Perm.refl (w.files n index).logs)
      (fun _ hf => hf) segmentBytes flushEveryRecords
    exact ⟨w.partition, p₁, .inl rfl, heq.trans hopen, hrest⟩
  · have hsound := h.sound.compact hread hswap (hclear c hread (hswap ▸ rfl))
    obtain ⟨all, tail, hb, _⟩ := h.sound
    obtain ⟨hlogs, hindexes⟩ := hb.swapped_files hread hswap n index
    obtain ⟨p₁, hopen, hrest⟩ := hsound.returns rfl hlogs hindexes segmentBytes flushEveryRecords
    exact ⟨p', p₁, .inr ⟨c, hread, hswap⟩, heq.trans hopen, hrest⟩

/-! ### Four records, of which retention drops one -/

/-- Three versions of a key and a record without one, each in its segment, after retention has
dropped what is older than 50 ms. -/
def expiring (first second : Int64) : Option Grace := do
  let (p, _) ← tinySegments.appendBatch [⟨some [1], [1], some first, none⟩,
    ⟨some [1], [2], some second, none⟩, ⟨some [1], [3], some 100, none⟩,
    ⟨none, [4], some 100, none⟩] .policy 100
  let victims := p.planVictims keepHalf 100
  some ⟨p.unlinkPlan victims, p.droppedBy victims⟩

theorem expiring_reached {first second : Int64} (h : expiring first second = some w) :
    w.Reached := by
  unfold expiring at h
  obtain ⟨⟨p, offsets⟩, hp, h⟩ := Option.bind_eq_some_iff.mp h
  cases h
  refine .retain (.append (.start (.created (open_empty 1 1))) ?_ hp) _
  intro r hr
  simp only [List.mem_cons, List.not_mem_nil, or_false] at hr
  rcases hr with rfl | rfl | rfl | rfl
  all_goals
    unfold AppendRecord.Small
    dsimp only
    decide

theorem oldestExpired_isSome : (expiring 0 100).isSome := by decide +kernel

def oldestExpired : Grace := (expiring 0 100).get oldestExpired_isSome

/-- Retention drops the first segment, and the pass merges the next two. -/
theorem grace_hides_nothing_oldest : ∃ p p₁, (p = oldestExpired.partition ∨
      ∃ c, oldestExpired.partition.compactRead keepHalf 100 = some c ∧
        oldestExpired.partition.compactSwap c = some p) ∧
    Partition.open ((oldestExpired.files 1000 none).after
      ((oldestExpired.partition.passOps oldestExpired.partition keepHalf 100 [] []).take 6)) 1 1 =
        some p₁ ∧
    p₁.records.Pairwise (fun a b => a.offset < b.offset) ∧
    ∀ target maxRecords maxBytes,
      ∀ r ∈ (p.readRecordsRaw target maxRecords maxBytes).1,
        (r ∈ p.active.records → r ∈ wholeWithin 1000 p.active.records) → p₁.Returns r := by
  refine grace_hides_nothing (expiring_reached (Option.some_get oldestExpired_isSome).symm)
    oldestExpired.partition keepHalf 100 [] [] 6 1000 none (fun c hc _ s hs => .inl ?_) .refl 1 1
  have hlow : ∀ s ∈ oldestExpired.dropped, s.baseOffset < 1 := by decide +kernel
  have hbase : (oldestExpired.partition.compactRead keepHalf 100).map (·.output.baseOffset) =
      some 1 := by decide +kernel
  rw [hc] at hbase
  have hbase : c.output.baseOffset = 1 := Option.some.inj hbase
  rw [hbase]
  exact hlow s hs

/-- The partition after the pass that runs while the middle one of three segments is dropped. -/
def middleMerged : Option Grace := do
  let w ← expiring 100 0
  let c ← w.partition.compactRead keepHalf 100
  let p ← w.partition.compactSwap c
  some { w with partition := p }

theorem middleMerged_isSome : middleMerged.isSome := by decide +kernel

def middleExpired : Grace := middleMerged.get middleMerged_isSome

def middleFiles : List (Nat × Bytes) :=
  (middleExpired.files 1000 none).logs.insertionSort fun a b => a.1 ≤ b.1

def middleRecovered : Option (List Segment × Nat) :=
  recoverSegments (middleExpired.files 1000 none).indexes middleFiles
    ((middleFiles.head?.map Prod.fst).getD 0)

theorem middleRecovered_isSome : middleRecovered.isSome := by decide +kernel

def middleActive : Segment :=
  (middleRecovered.get middleRecovered_isSome).1.getLast?.getD (.openEmpty 0)

/-- Retention has dropped the second segment, the pass merges the first and the third, and the
broker stops before the files are unlinked. The version in the merged segment was readable at
its offset; after the restart a read there passes it over. -/
theorem dropped_segment_hides :
    middleExpired.dropped.map (·.baseOffset) = [1] ∧
      (middleExpired.partition.readRecordsRaw 2 1 0).1 = [⟨2, 100, some [1], [3]⟩] ∧
      ∃ p₁, Partition.open (middleExpired.files 1000 none) 1 1 = some p₁ ∧
        (p₁.readRecordsRaw 2 1 0).1 = [⟨3, 100, none, [4]⟩] := by
  have hsorted : ((middleExpired.files 1000 none).logs.mergeSort fun a b => a.1 ≤ b.1) =
      middleFiles :=
    mergeSort_eq_of_perm (List.perm_insertionSort _ _).symm (by decide +kernel)
      (by decide +kernel)
  have hrec : middleRecovered = some (middleRecovered.get middleRecovered_isSome) :=
    (Option.some_get middleRecovered_isSome).symm
  have hactive : (middleRecovered.get middleRecovered_isSome).1.getLast? = some middleActive := by
    decide +kernel
  exact ⟨by decide +kernel, by decide +kernel, _,
    @Partition.open_sorted (middleExpired.files 1000 none) rfl _ hsorted _ _ hrec hactive 1 1,
    by decide +kernel⟩

end EventStream.Storage
