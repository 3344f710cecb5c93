import EventStream.Storage.Recovery

/-! The recovery of a sealed segment from its index, against a full scan
(`scan_sealed_trusted` in `storage/recover.rs`).

The fast path decodes the first record and what lies behind the last index entry. Its index
need not be the one a full scan would build: older files have an entry for every record, of
which it keeps some. For a log of whole records and an index with true entries it finds the
end that a full scan finds, and reads through either index return the same records. -/
namespace EventStream.Storage

/-- The entries of an index with one entry for each record. -/
def trueEntries (base : Nat) (rs : List Record) : SparseIndex :=
  (RecordCursor.positioned 0 rs).map fun x => (x.2.offset - base, x.1)

/-- The segment that recovery opens with the result of a scan. -/
def SegmentScan.segment (scan : SegmentScan) (base : Nat) (log indexFile : Bytes) : Segment :=
  { baseOffset := base
    log
    indexFile
    sizeBytes := scan.validBytes
    index := scan.entries
    minTimestampMs := scan.minTs
    maxTimestampMs := scan.maxTs }

variable {rs : List Record}

theorem mem_positioned {pos : Nat} {x : Nat × Record} (h : x ∈ RecordCursor.positioned pos rs) :
    ∃ before after, rs = before ++ x.2 :: after ∧ x.1 = pos + (encodeAll before).length := by
  induction rs generalizing pos with
  | nil => exact absurd h List.not_mem_nil
  | cons r rs ih =>
    rcases List.mem_cons.mp h with rfl | h
    · exact ⟨[], rs, rfl, rfl⟩
    · obtain ⟨before, after, hrs, hx⟩ := ih h
      refine ⟨r :: before, after, by rw [hrs]; rfl, ?_⟩
      rw [hx, encodeAll_cons, List.length_append, Nat.add_assoc]

theorem located_trueEntries (base : Nat) (rs : List Record) :
    Located base rs (trueEntries base rs) := by
  intro e he
  obtain ⟨x, hx, rfl⟩ := List.mem_map.mp he
  obtain ⟨before, after, hrs, hpos⟩ := mem_positioned hx
  exact ⟨before, x.2, after, hrs, by rw [hpos, Nat.zero_add], rfl⟩

theorem Located.sublist {base : Nat} {xs ys : SparseIndex} (h : Located base rs ys)
    (hs : xs.Sublist ys) : Located base rs xs :=
  fun e he => h e (hs.subset he)

/-- Thinning an index drops entries. -/
theorem thinIndex_sublist (entries : SparseIndex) : (thinIndex entries).Sublist entries := by
  have hfold (rest out : SparseIndex) : (rest.foldl (fun out e =>
      if wantsEntry (out.getLast?.map Prod.snd) e.2 then out ++ [e] else out) out).Sublist
        (out ++ rest) := by
    induction rest generalizing out with
    | nil => rw [List.append_nil]; exact List.Sublist.refl _
    | cons e rest ih =>
      rw [List.foldl_cons]
      split
      · have := ih (out ++ [e])
        rwa [List.append_assoc] at this
      · exact (ih out).trans ((List.Sublist.refl out).append (List.sublist_cons_self e rest))
  exact hfold entries []

section
variable {base : Nat} {rs : List Record}

/-- Whole records of a sealed segment, in order. -/
structure Intact (base : Nat) (rs : List Record) : Prop where
  fits : ∀ r ∈ rs, r.Valid ∧ r.Small
  sorted : rs.Pairwise fun a b => a.offset < b.offset
  base : ∀ r ∈ rs, base ≤ r.offset

section
variable (h : Intact base rs)
include h

/-- If the end does not overflow, neither does the offset after any record. -/
theorem Intact.recordFits (hmax : offsetAfter base rs ≤ u64Max) : ∀ r ∈ rs, r.Fits := by
  intro r hr
  have hsmall : (encodeRecord r).length ≤ maxRecordBytes := (h.fits r hr).2
  refine ⟨?_, Nat.le_trans hsmall (by decide)⟩
  rcases List.eq_nil_or_concat rs with rfl | ⟨front, last, hlast⟩
  · exact absurd hr List.not_mem_nil
  · rw [List.concat_eq_append] at hlast
    have hsorted := h.sorted
    rw [hlast] at hr hsorted hmax
    rw [offsetAfter, List.getLast?_concat] at hmax
    have hle : last.offset + 1 ≤ u64Max := hmax
    rcases List.mem_append.mp hr with hr | hr
    · have := (List.pairwise_append.mp hsorted).2.2 r hr last List.mem_cons_self
      omega
    · rw [List.mem_singleton.mp hr]
      omega

theorem Intact.le_readWindow {r : Record} (hr : r ∈ rs) :
    (encodeRecord r).length ≤ max readWindowBytes 4096 := by
  have hsmall : (encodeRecord r).length ≤ maxRecordBytes := (h.fits r hr).2
  exact Nat.le_trans hsmall (by decide)

/-- A scan that finds where the records end and has true entries opens a segment that serves
them. -/
theorem Intact.readable {scan : SegmentScan} (hbytes : scan.validBytes = (encodeAll rs).length)
    (hentries : Located base rs scan.entries) (indexFile : Bytes) :
    (scan.segment base (encodeAll rs) indexFile).Readable rs where
  log := List.prefix_refl _
  size := hbytes
  index := hentries
  fits := h.fits
  sorted := h.sorted
  base := h.base

end

/-- **The fast path is the full scan.** For a log of whole records of at most 16 KiB in order
and an index file with the true entries of some of them: if the trusted scan returns, which it
does not if the offset after the last record overflows, then a full scan ends at the same offset
and after the same bytes, and neither finds damage; and a segment opened with the one index
returns the same records as one opened with the other, whatever is read. -/
theorem trusted_scan_eq_full (h : Intact base rs) {indexFile : Bytes} {entries : SparseIndex}
    (hload : loadIndex indexFile = some entries) (htrue : entries.Sublist (trueEntries base rs))
    {scan : SegmentScan}
    (hs : scanSealedTrusted (encodeAll rs) (some indexFile) base = some scan)
    (hmax : scan.nextOffset ≤ u64Max) :
    ∃ full, scanFull (encodeAll rs) base = some full ∧
      scan.nextOffset = full.nextOffset ∧ scan.validBytes = full.validBytes ∧
      scan.damaged = false ∧ full.damaged = false ∧
      ∀ target maxRecords maxBytes hwm,
        (scan.segment base (encodeAll rs) indexFile).readFrom target maxRecords maxBytes hwm =
          (full.segment base (encodeAll rs) indexFile).readFrom target maxRecords maxBytes hwm := by
  have hlocated := (located_trueEntries base rs).sublist htrue
  obtain ⟨hentries, hnext, hbytes, hdamaged, _⟩ := scanSealedTrusted_located
    (fun r hr => ⟨(h.fits r hr).1, h.le_readWindow hr⟩) hload hlocated hs
  obtain ⟨full, hfull, hfinds, _⟩ :=
    scanFull_encoded (h.recordFits (hnext ▸ hmax)) .clean base
  rw [List.append_nil] at hfull
  have hread := h.readable hbytes (hentries ▸ hlocated.sublist (thinIndex_sublist entries))
    indexFile
  have hread' := h.readable hfinds.validBytes
    (hfinds.entries ▸ located_sparseFrom base none [] rs) indexFile
  refine ⟨full, hfull, hnext.trans hfinds.nextOffset.symm, hbytes.trans hfinds.validBytes.symm,
    hdamaged, hfinds.damaged, fun target maxRecords maxBytes hwm => ?_⟩
  by_cases hnone : maxRecords = 0 ∨ hwm ≤ target
  · rw [Segment.readFrom, Segment.readFrom, if_pos hnone, if_pos hnone]
  · rw [hread.readFrom_eq (by omega) (by omega), hread'.readFrom_eq (by omega) (by omega)]

end

def twoApart : List Record := [⟨1, 5, none, [1]⟩, ⟨3, 7, some [2], [3]⟩]

theorem twoApart_intact : Intact 0 twoApart where
  fits := by
    intro r hr
    simp only [twoApart, List.mem_cons, List.not_mem_nil, or_false] at hr
    rcases hr with rfl | rfl
    · exact ⟨⟨by decide, by decide⟩, by decide⟩
    · exact ⟨⟨by decide, by decide⟩, by decide⟩
  sorted := by decide
  base := by decide

/-- An entry for each record, as older versions wrote it. -/
def denseScan : Option SegmentScan :=
  scanSealedTrusted (encodeAll twoApart) (some (encodeIndex (trueEntries 0 twoApart))) 0

theorem denseScan_returns : denseScan.isSome := by decide +kernel

theorem trusted_scan_eq_full_dense :
    ∃ full, scanFull (encodeAll twoApart) 0 = some full ∧
      (denseScan.get denseScan_returns).nextOffset = full.nextOffset ∧
      (denseScan.get denseScan_returns).entries = [(1, 0)] ∧ full.entries = [(1, 0)] := by
  obtain ⟨full, hfull, hnext, _⟩ := trusted_scan_eq_full twoApart_intact
    (loadIndex_encode (by decide)) (List.Sublist.refl _)
    (Option.some_get denseScan_returns).symm (by decide +kernel)
  refine ⟨full, hfull, hnext, by decide +kernel, ?_⟩
  have hentries : (scanFull (encodeAll twoApart) 0).map SegmentScan.entries = some [(1, 0)] := by
    decide +kernel
  rw [hfull] at hentries
  exact Option.some.inj hentries

end EventStream.Storage
