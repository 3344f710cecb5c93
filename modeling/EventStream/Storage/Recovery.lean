import Mathlib.Data.List.Nodup
import EventStream.Storage.Contents
import EventStream.Storage.Recover

/-! Recovery after a crash.

Of a log whose end was lost the records that survived whole come back, with the index the
appends had built (`scanFull_encoded`); for a sealed segment the scan through the index
gives the same (`scanSealedTrusted_encoded`). So opening the partition again gives one that
holds the surviving records (`Holds.reopen`), and so does every history of appends, crashes
and reopenings. -/
namespace EventStream.Storage

/-! ### What survives -/

/-- The records that lie wholly inside the first `n` bytes of their log. -/
def wholeWithin : Nat → List Record → List Record
  | _, [] => []
  | n, r :: rs =>
    if (encodeRecord r).length ≤ n then r :: wholeWithin (n - (encodeRecord r).length) rs else []

theorem wholeWithin_isPrefix (n : Nat) (rs : List Record) : wholeWithin n rs <+: rs := by
  induction rs generalizing n with
  | nil => exact List.nil_prefix
  | cons r rs ih =>
    rw [wholeWithin]
    split
    · exact (List.prefix_cons_inj r).mpr (ih _)
    · exact List.nil_prefix

theorem wholeWithin_append (n : Nat) (xs ys : List Record) :
    wholeWithin ((encodeAll xs).length + n) (xs ++ ys) = xs ++ wholeWithin n ys := by
  induction xs with
  | nil => rw [encodeAll_nil, List.length_nil, Nat.zero_add, List.nil_append, List.nil_append]
  | cons x xs ih =>
    rw [List.cons_append, wholeWithin, encodeAll_cons, List.length_append, if_pos (by omega),
      show (encodeRecord x).length + (encodeAll xs).length + n - (encodeRecord x).length =
        (encodeAll xs).length + n by omega, ih, List.cons_append]

variable {n base next : Nat} {rs : List Record} {tail b : Bytes} {s : Segment} {scan : SegmentScan}
    {indexFile : Option Bytes} {parts : List Part} {entries : SparseIndex} {p : Partition}

theorem wholeWithin_mono {m : Nat} (h : n ≤ m) (rs : List Record) :
    wholeWithin n rs <+: wholeWithin m rs := by
  induction rs generalizing n m with
  | nil => exact List.nil_prefix
  | cons r rs ih =>
    rw [wholeWithin, wholeWithin]
    split
    · rw [if_pos (by omega)]
      exact (List.prefix_cons_inj r).mpr (ih (by omega))
    · exact List.nil_prefix

theorem take_encodeAll (hr : ∀ r ∈ rs, r.Fits) (n : Nat) :
    ∃ tail, (encodeAll rs).take n = encodeAll (wholeWithin n rs) ++ tail ∧
      RecordCursor.Tail tail := by
  induction rs generalizing n with
  | nil => exact ⟨[], List.take_nil, .clean⟩
  | cons r rs ih =>
    rw [wholeWithin, encodeAll_cons, List.take_append]
    split
    · rename_i hin
      obtain ⟨tail, htail, ht⟩ :=
        ih (fun r hr' => hr r (List.mem_cons_of_mem _ hr')) (n - (encodeRecord r).length)
      exact ⟨tail, by rw [htail, List.take_of_length_le hin, encodeAll_cons, List.append_assoc],
        ht⟩
    · rename_i hout
      rw [show n - (encodeRecord r).length = 0 by omega, List.take_zero, List.append_nil]
      rcases Nat.eq_zero_or_pos n with rfl | hn
      · exact ⟨[], rfl, .clean⟩
      · exact ⟨_, rfl, .torn (hr r List.mem_cons_self).valid hn (by omega)⟩

/-! ### The scans -/

/-- The offset after the last record of a segment. -/
def offsetAfter (base : Nat) (rs : List Record) : Nat :=
  (rs.getLast?.map (·.offset + 1)).getD base

theorem offsetAfter_cons (base : Nat) (r : Record) (rs : List Record) :
    offsetAfter base (r :: rs) = offsetAfter (r.offset + 1) rs := by
  cases rs with
  | nil => rfl
  | cons r' rs => simp [offsetAfter, List.getLast?_eq_some_getLast]

theorem Scanning.foldlM_see (base : Nat) (hr : ∀ r ∈ rs, r.Fits) (pos : Nat) (s : Scanning) :
    ∃ s', (RecordCursor.positioned pos rs).foldlM (Scanning.see base) s = some s' ∧
      s'.entries = s.entries ++ sparseFrom base s.lastIndexPos pos rs ∧
      s'.nextOffset = offsetAfter s.nextOffset rs := by
  induction rs generalizing pos s with
  | nil => exact ⟨s, rfl, (List.append_nil _).symm, rfl⟩
  | cons r rs ih =>
    have hlt := (hr r List.mem_cons_self).offset
    have hsee : Scanning.see base s (pos, r) = some
        { entries := if wantsEntry s.lastIndexPos pos then
            s.entries ++ [(r.offset - base, pos)] else s.entries
          lastIndexPos := if wantsEntry s.lastIndexPos pos then some pos else s.lastIndexPos
          nextOffset := r.offset + 1
          minTs := min s.minTs r.timestampMs
          maxTs := max s.maxTs r.timestampMs } := by
      rw [Scanning.see, addU64_eq_some.mpr ⟨rfl, hlt⟩]
      rfl
    obtain ⟨s', hs', hentries, hnext⟩ :=
      ih (fun r hr' => hr r (List.mem_cons_of_mem _ hr')) (pos + (encodeRecord r).length)
        { entries := if wantsEntry s.lastIndexPos pos then
            s.entries ++ [(r.offset - base, pos)] else s.entries
          lastIndexPos := if wantsEntry s.lastIndexPos pos then some pos else s.lastIndexPos
          nextOffset := r.offset + 1
          minTs := min s.minTs r.timestampMs
          maxTs := max s.maxTs r.timestampMs }
    refine ⟨s', ?_, ?_, ?_⟩
    · rw [RecordCursor.positioned, List.foldlM_cons, hsee]
      exact hs'
    · rw [hentries, sparseFrom]
      dsimp only
      split
      · rw [List.append_assoc, List.singleton_append]
      · rfl
    · rw [hnext, offsetAfter_cons]

theorem le_readWindow {r : Record} (h : r.Fits) :
    (encodeRecord r).length ≤ max readWindowBytes 4096 := by
  have := h.size
  simp only [readWindowBytes] at *
  omega

/-- What a scan of a log with these records, and maybe a torn one behind them, finds. -/
structure SegmentScan.Finds (scan : SegmentScan) (base : Nat) (rs : List Record)
    (damaged : Bool) : Prop where
  entries : scan.entries = sparseFrom base none 0 rs
  nextOffset : scan.nextOffset = offsetAfter base rs
  validBytes : scan.validBytes = (encodeAll rs).length
  damaged : scan.damaged = damaged

/-- A full scan finds the records that are whole. -/
theorem scanFull_encoded (hr : ∀ r ∈ rs, r.Fits) (ht : RecordCursor.Tail tail) (base : Nat) :
    ∃ scan, scanFull (encodeAll rs ++ tail) base = some scan ∧
      scan.Finds base rs (decide (tail ≠ [])) ∧ scan.indexTrusted = false := by
  have hwalk : (RecordCursor.new (encodeAll rs ++ tail) 0 (encodeAll rs ++ tail).length
      readWindowBytes).walk = ⟨RecordCursor.positioned 0 rs, (encodeAll rs).length,
        RecordCursor.tailError tail (encodeAll rs).length⟩ := by
    have := @RecordCursor.walk_encoded rs (encodeAll rs ++ tail) [] tail [] ht
      (by rw [List.nil_append, List.append_nil]) (encodeAll rs ++ tail).length readWindowBytes
      (Nat.zero_add _).symm fun r hr' => ⟨(hr r hr').valid, le_readWindow (hr r hr')⟩
    rwa [List.length_nil, Nat.zero_add] at this
  obtain ⟨s, hs, hentries, hnext⟩ :=
    Scanning.foldlM_see base hr 0 ⟨[], none, base, Int64.maxValue, Int64.minValue⟩
  unfold scanFull
  rw [hwalk]
  dsimp only
  rw [hs]
  refine ⟨_, rfl, ⟨hentries, hnext, rfl, ?_⟩, rfl⟩
  rw [List.length_append]
  cases tail with
  | nil => simp [RecordCursor.tailError]
  | cons b tail => simp [RecordCursor.tailError]

/-- An index with entries far enough apart is not thinned. -/
theorem thin_sparseFrom (base : Nat) (last : Option Nat) (pos : Nat) (rs : List Record)
    (out : SparseIndex) (hout : out.getLast?.map Prod.snd = last) :
    (sparseFrom base last pos rs).foldl
      (fun out e => if wantsEntry (out.getLast?.map Prod.snd) e.2 then out ++ [e] else out) out =
      out ++ sparseFrom base last pos rs := by
  induction rs generalizing last pos out with
  | nil => exact (List.append_nil _).symm
  | cons r rs ih =>
    rw [sparseFrom]
    split
    · rename_i hwants
      rw [List.foldl_cons, hout, if_pos hwants, ih _ _ _ (by rw [List.getLast?_concat]; rfl),
        List.append_assoc]
      rfl
    · exact ih _ _ _ hout

theorem thinIndex_sparseFrom (base : Nat) (rs : List Record) :
    thinIndex (sparseFrom base none 0 rs) = sparseFrom base none 0 rs :=
  thin_sparseFrom base none 0 rs [] rfl

/-- The index file of a segment that holds `rs` is read back. -/
theorem Segment.Holds.loadIndex (h : s.Holds rs) : loadIndex s.indexFile = some s.index := by
  rw [h.indexFile]
  refine loadIndex_encode fun e he => ?_
  obtain ⟨before, r, after, hrs, hpos, hrel⟩ := h.located e he
  have hr := (h.fits r (hrs ▸ by simp)).offset
  have hshort := h.short
  rw [h.log, hrs, encodeAll_append, List.length_append] at hshort
  have hmax : u64Max < 256 ^ 8 := by decide
  omega

/-- What the trusted scan finds in a log of whole records, if its index has entries for records
of the log. -/
theorem scanSealedTrusted_located
    (hr : ∀ r ∈ rs, r.Valid ∧ (encodeRecord r).length ≤ max readWindowBytes 4096)
    {indexFile : Bytes} (hload : loadIndex indexFile = some entries)
    (hlocated : Located base rs entries)
    (hs : scanSealedTrusted (encodeAll rs) (some indexFile) base = some scan) :
    scan.entries = thinIndex entries ∧ scan.nextOffset = offsetAfter base rs ∧
      scan.validBytes = (encodeAll rs).length ∧ scan.damaged = false ∧
      scan.indexTrusted = true := by
  obtain ⟨loaded, hloaded, hscan⟩ := Option.bind_eq_some_iff.mp hs
  obtain rfl : entries = loaded := Option.some.inj (hload.symm.trans hloaded)
  split at hscan
  · rename_i hempty
    have hlen := length_le_encodeAll rs
    obtain rfl : rs = [] := List.length_eq_zero_iff.mp (by omega)
    split at hscan
    · rename_i hnone
      cases hscan
      rw [hnone]
      exact ⟨rfl, rfl, rfl, rfl, rfl⟩
    · cases hscan
  · obtain ⟨head, _, hscan⟩ := Option.bind_eq_some_iff.mp hscan
    obtain ⟨tail, htail, hscan⟩ := Option.bind_eq_some_iff.mp hscan
    obtain ⟨first, _, hscan⟩ := Option.bind_eq_some_iff.mp hscan
    obtain ⟨fromTail, _, hscan⟩ := Option.bind_eq_some_iff.mp hscan
    obtain ⟨last, hlast, hscan⟩ := Option.bind_eq_some_iff.mp hscan
    split at hscan
    · cases hscan
      refine ⟨rfl, ?_, rfl, rfl, rfl⟩
      -- The walk starts at the record of the last entry, so its last record is the segment's.
      obtain ⟨before, r, after, hrs, hpos, _⟩ := hlocated tail (List.mem_of_getLast? htail)
      have hfile : encodeAll rs = encodeAll before ++ ((encodeAll (r :: after) ++ []) ++ []) := by
        rw [hrs, encodeAll_append, List.append_nil, List.append_nil]
      have hlimit : (encodeAll rs).length =
          (encodeAll before).length + (encodeAll (r :: after) ++ []).length := by
        rw [hfile]
        simp
      have hwalk := RecordCursor.walk_encoded .clean hfile hlimit
        fun x hx => hr x (hrs ▸ List.mem_append_right _ hx)
      rw [hpos, hwalk] at hlast
      have hlast' : (r :: after).getLast? = some last.2 := by
        rw [← RecordCursor.map_snd_positioned (encodeAll before).length (r :: after),
          List.getLast?_map]
        exact congrArg (Option.map Prod.snd) hlast
      show last.2.offset + 1 = _
      rw [offsetAfter, hrs, List.getLast?_append, hlast']
      rfl
    · cases hscan

/-- Where the index of a sealed segment is trusted, the scan finds what a full scan would. -/
theorem Segment.Holds.scanSealedTrusted (h : s.Holds rs)
    (hs : scanSealedTrusted s.log (some s.indexFile) s.baseOffset = some scan) :
    scan.Finds s.baseOffset rs false ∧ scan.indexTrusted = true := by
  rw [h.log] at hs
  obtain ⟨hentries, hnext, hbytes, hdamaged, htrusted⟩ := scanSealedTrusted_located
    (fun r hr => ⟨(h.fits r hr).valid, le_readWindow (h.fits r hr)⟩) h.loadIndex h.located hs
  refine ⟨⟨?_, hnext, hbytes, hdamaged⟩, htrusted⟩
  rw [hentries, h.index]
  exact thinIndex_sparseFrom _ _

/-! ### Recovering segments -/

theorem setLen_self (h : b.length = n) : setLen n b = b := by
  rw [setLen, List.take_of_length_le (by omega), h, Nat.sub_self, List.replicate_zero,
    List.append_nil]

theorem encodeIndex_decodeEntries (h : b.length = indexEntryLen * n) :
    encodeIndex (decodeEntries n b) = b := by
  induction n generalizing b with
  | zero => exact (List.length_eq_zero_iff.mp h).symm
  | succ n ih =>
    rw [indexEntryLen] at h
    have h1 : beBytes 8 (beNat (b.take 8)) = b.take 8 := by
      have := beBytes_beNat (b.take 8)
      rwa [List.length_take, Nat.min_eq_left (by omega)] at this
    have h2 : beBytes 8 (beNat ((b.drop 8).take 8)) = (b.drop 8).take 8 := by
      have := beBytes_beNat ((b.drop 8).take 8)
      rwa [List.length_take, List.length_drop, Nat.min_eq_left (by omega)] at this
    have hrest : encodeIndex (decodeEntries n (b.drop 16)) = (b.drop 8).drop 8 := by
      rw [ih (by rw [List.length_drop, indexEntryLen]; omega), List.drop_drop]
    show beBytes 8 (beNat (b.take 8)) ++ beBytes 8 (beNat ((b.drop 8).take 8)) ++
      encodeIndex (decodeEntries n (b.drop 16)) = b
    rw [hrest, h1, h2, List.append_assoc, List.take_append_drop, List.take_append_drop]

/-- A file from which an index is read is the file of that index. -/
theorem encodeIndex_of_loadIndex (h : loadIndex b = some entries) : encodeIndex entries = b := by
  unfold loadIndex at h
  split at h
  · cases h
  · rename_i hmod
    cases h
    exact encodeIndex_decodeEntries
      (Nat.mul_div_cancel' (Nat.dvd_of_mod_eq_zero (not_not.mp hmod))).symm

/-- Whatever the index file was, afterwards it is the one of the scan. -/
theorem recoverIndexFile_eq
    (h : scan.indexTrusted = true → indexFile = some (encodeIndex scan.entries)) :
    recoverIndexFile scan indexFile = encodeIndex scan.entries := by
  unfold recoverIndexFile
  split
  · rename_i hkeep
    rcases hkeep with htrusted | hload
    · rw [h htrusted]
      rfl
    · obtain ⟨b, rfl, hb⟩ := Option.bind_eq_some_iff.mp hload
      exact (encodeIndex_of_loadIndex hb).symm
  · rfl

/-- The facts about records that a segment's files do not show. -/
structure Sequence (base : Nat) (rs : List Record) : Prop where
  fits : ∀ r ∈ rs, r.Fits
  sorted : rs.Pairwise fun a b => a.offset < b.offset
  base : ∀ r ∈ rs, base ≤ r.offset
  short : (encodeAll rs).length < 256 ^ 8

theorem Segment.Holds.sequence (h : s.Holds rs) :
    Sequence s.baseOffset rs := ⟨h.fits, h.sorted, h.base, h.log ▸ h.short⟩

theorem Sequence.of_isPrefix {xs : List Record} (h : Sequence base rs) (hx : xs <+: rs) :
    Sequence base xs := by
  obtain ⟨ys, rfl⟩ := hx
  have hshort := h.short
  rw [encodeAll_append, List.length_append] at hshort
  exact ⟨fun r hr => h.fits r (List.mem_append_left _ hr), (List.pairwise_append.mp h.sorted).1,
    fun r hr => h.base r (List.mem_append_left _ hr), by omega⟩

theorem Sequence.offsetAfter_le (h : Sequence base rs) (hb : base ≤ u64Max) :
    offsetAfter base rs ≤ u64Max := by
  unfold offsetAfter
  cases hlast : rs.getLast? with
  | none => exact hb
  | some r => exact (h.fits r (List.mem_of_getLast? hlast)).offset

/-- Building a segment from what a scan found. -/
theorem recoverSegment_of_scan (hr : Sequence base rs) (hb : base ≤ u64Max) {isActive : Bool}
    (htail : isActive = false → tail = []) (hscan : ((if isActive then none
      else scanSealedTrusted (encodeAll rs ++ tail) indexFile base).orElse
        fun _ => scanFull (encodeAll rs ++ tail) base) = some scan)
    (hf : scan.Finds base rs (decide (tail ≠ [])))
    (htrusted : scan.indexTrusted = true → indexFile = some (encodeIndex scan.entries)) :
    ∃ s, recoverSegment isActive base (encodeAll rs ++ tail) indexFile =
      some (s, offsetAfter base rs) ∧ s.Holds rs ∧ s.baseOffset = base := by
  have hnext := hr.offsetAfter_le hb
  have hindex := recoverIndexFile_eq htrusted
  unfold recoverSegment
  simp only [hscan, bind, Option.bind]
  rw [if_neg (by rw [hf.nextOffset]; omega), hf.nextOffset]
  refine ⟨_, rfl, ?_, rfl⟩
  have hlog : (if scan.damaged ∧ isActive = true then
      (encodeAll rs ++ tail).take scan.validBytes else encodeAll rs ++ tail) = encodeAll rs := by
    rw [hf.damaged, hf.validBytes]
    split
    · exact List.take_left
    · rename_i hkeep
      have : tail = [] := by
        cases isActive with
        | false => exact htail rfl
        | true => simpa using hkeep
      rw [this, List.append_nil]
  have hfile : (if isActive = true then setLen (scan.entries.length * indexEntryLen)
      (recoverIndexFile scan indexFile) else recoverIndexFile scan indexFile) =
      encodeIndex scan.entries := by
    rw [hindex]
    split
    · exact setLen_self (by rw [length_encodeIndex, Nat.mul_comm])
    · rfl
  exact
    { log := hlog
      size := by
        show scan.validBytes = List.length (ite _ _ _)
        rw [hlog, hf.validBytes]
      index := hf.entries
      indexFile := hfile
      fits := hr.fits
      sorted := hr.sorted
      base := hr.base
      short := by
        show List.length (ite _ _ _) < _
        rw [hlog]
        exact hr.short }

/-- The index file of the segment is on disk, or there is none. -/
def Segment.Indexed (s : Segment) (indexFile : Option Bytes) : Prop :=
  ∀ b, indexFile = some b → b = s.indexFile

/-- A sealed segment comes back whole, by the trusted scan or by the full one. -/
theorem Segment.Holds.recover (h : s.Holds rs) (hb : s.baseOffset ≤ u64Max)
    (hi : s.Indexed indexFile) :
    ∃ s', recoverSegment false s.baseOffset s.log indexFile =
      some (s', offsetAfter s.baseOffset rs) ∧ s'.Holds rs ∧ s'.baseOffset = s.baseOffset := by
  have hlog : s.log = encodeAll rs ++ [] := by rw [h.log, List.append_nil]
  rw [hlog]
  cases htrust : Storage.scanSealedTrusted s.log indexFile s.baseOffset with
  | some scan =>
    obtain ⟨b, rfl⟩ : ∃ b, indexFile = some b := by
      cases indexFile with
      | none => cases htrust
      | some b => exact ⟨b, rfl⟩
    cases hi b rfl
    obtain ⟨hf, _⟩ := h.scanSealedTrusted htrust
    refine recoverSegment_of_scan h.sequence hb (fun _ => rfl) ?_ hf ?_
    · rw [← hlog, if_neg Bool.false_ne_true, htrust]
      rfl
    · intro _
      rw [hf.entries, ← h.index, h.indexFile]
  | none =>
    obtain ⟨scan, hscan, hf, hnot⟩ := scanFull_encoded h.fits .clean s.baseOffset
    refine recoverSegment_of_scan h.sequence hb (fun _ => rfl) ?_ hf ?_
    · rw [hscan, ← hlog, if_neg Bool.false_ne_true, htrust]
      rfl
    · intro htrusted
      rw [hnot] at htrusted
      cases htrusted

/-- Of the active segment the whole records come back, whatever its index file holds. -/
theorem recoverSegment_active (hr : Sequence base rs) (hb : base ≤ u64Max)
    (ht : RecordCursor.Tail tail) (indexFile : Option Bytes) :
    ∃ s, recoverSegment true base (encodeAll rs ++ tail) indexFile =
      some (s, offsetAfter base rs) ∧ s.Holds rs ∧ s.baseOffset = base := by
  obtain ⟨scan, hscan, hf, hnot⟩ := scanFull_encoded hr.fits ht base
  refine recoverSegment_of_scan hr hb ?_ ?_ hf ?_
  · exact fun h => nomatch h
  · rw [if_pos rfl]
    exact hscan
  · intro htrusted
    rw [hnot] at htrusted
    cases htrusted

/-! ### Recovering the partition -/

/-- What recovery keeps of a segment. -/
def Part.outline (x : Part) : Nat × List Record := (x.1.baseOffset, x.2)

theorem contents_outline {xs ys : List Part} (h : xs.map Part.outline = ys.map Part.outline) :
    contents xs = contents ys := by
  have hmap (zs : List Part) : contents zs = (zs.map Part.outline).flatMap Prod.snd := by
    rw [List.flatMap_map]
    rfl
  rw [hmap, hmap, h]

theorem ordered_outline {xs ys : List Part} (h : xs.map Part.outline = ys.map Part.outline)
    (hy : ys.Pairwise Part.Before) : xs.Pairwise Part.Before := by
  have hmap (zs : List Part) : zs.Pairwise Part.Before ↔ (zs.map Part.outline).Pairwise
      fun a b => a.1 < b.1 ∧ ∀ r ∈ a.2, r.offset < b.1 := by
    rw [List.pairwise_map]
    rfl
  rw [hmap, h, ← hmap]
  exact hy

theorem Sequence.le_offsetAfter (h : Sequence base rs) : base ≤ offsetAfter base rs := by
  unfold offsetAfter
  cases hlast : rs.getLast? with
  | none => exact Nat.le_refl _
  | some r => exact Nat.le_succ_of_le (h.base r (List.mem_of_getLast? hlast))

theorem Part.Before.offsetAfter_le {x y : Part} (h : x.Before y) :
    offsetAfter x.1.baseOffset x.2 ≤ y.1.baseOffset := by
  unfold offsetAfter
  cases hlast : x.2.getLast? with
  | none => exact Nat.le_of_lt h.1
  | some r => exact h.2 r (List.mem_of_getLast? hlast)

/-- The sealed segments come back whole and the active one with its whole records. The end
of the partition is the end of the active segment. -/
theorem recoverSegments_parts {indexes : List (Nat × Bytes)} (hr : Sequence base rs)
    (hb : base ≤ u64Max) (ht : RecordCursor.Tail tail) (hh : ∀ x ∈ parts, x.1.Holds x.2)
    (hidx : ∀ x ∈ parts, x.1.Indexed (indexes.lookup x.1.baseOffset))
    (hbelow : ∀ x ∈ parts, x.1.baseOffset ≤ base ∧ offsetAfter x.1.baseOffset x.2 ≤ base)
    (hn : next ≤ base) :
    ∃ (parts' : List Part) (s : Segment), recoverSegments indexes
        (parts.map (fun x => (x.1.baseOffset, x.1.log)) ++ [(base, encodeAll rs ++ tail)]) next =
        some (parts'.map Prod.fst ++ [s], offsetAfter base rs) ∧
      parts'.map Part.outline = parts.map Part.outline ∧ (∀ x ∈ parts', x.1.Holds x.2) ∧
      s.Holds rs ∧ s.baseOffset = base := by
  induction parts generalizing next with
  | nil =>
    obtain ⟨s, hs, hholds, hbase⟩ := recoverSegment_active hr hb ht (indexes.lookup base)
    refine ⟨[], s, ?_, rfl, fun x hx => absurd hx List.not_mem_nil, hholds, hbase⟩
    have hmax := Nat.max_eq_right (Nat.le_trans hn hr.le_offsetAfter)
    simp [recoverSegments, hs, hmax]
  | cons x parts ih =>
    obtain ⟨hxbase, hxnext⟩ := hbelow x List.mem_cons_self
    obtain ⟨s, hs, hholds, hsbase⟩ := (hh x List.mem_cons_self).recover
      (Nat.le_trans hxbase hb) (hidx x List.mem_cons_self)
    obtain ⟨parts', s', hrest, houtline, hh', hactive, hbase⟩ :=
      ih (fun y hy => hh y (List.mem_cons_of_mem _ hy))
        (fun y hy => hidx y (List.mem_cons_of_mem _ hy))
        (fun y hy => hbelow y (List.mem_cons_of_mem _ hy))
        (Nat.max_le.mpr ⟨hn, hxnext⟩)
    refine ⟨(s, x.2) :: parts', s', ?_, ?_, ?_, hactive, hbase⟩
    · have hsealed : (parts.map (fun x => (x.1.baseOffset, x.1.log)) ++
          [(base, encodeAll rs ++ tail)]).isEmpty = false := by simp
      rw [List.map_cons, List.cons_append, recoverSegments, hsealed, hs]
      simp only [bind, Option.bind, hrest, List.map_cons, List.cons_append]
    · rw [List.map_cons, List.map_cons, houtline, Part.outline, Part.outline, hsbase]
    · intro y hy
      rcases List.mem_cons.mp hy with rfl | hy
      · exact hholds
      · exact hh' y hy

/-- The index files of sealed segments are found by their base. -/
theorem lookup_indexFile (ho : parts.Pairwise Part.Before) (rest : List (Nat × Bytes)) :
    ∀ x ∈ parts, (parts.map (fun x => (x.1.baseOffset, x.1.indexFile)) ++ rest).lookup
      x.1.baseOffset = some x.1.indexFile := by
  induction parts with
  | nil => exact fun x hx => absurd hx List.not_mem_nil
  | cons y parts ih =>
    obtain ⟨hy, ho⟩ := List.pairwise_cons.mp ho
    intro x hx
    rw [List.map_cons, List.cons_append, List.lookup_cons]
    rcases List.mem_cons.mp hx with rfl | hx
    · simp
    · have hne : (x.1.baseOffset == y.1.baseOffset) = false := by
        have := (hy x hx).1
        simp only [beq_eq_false_iff_ne, ne_eq]
        omega
      rw [hne]
      exact ih ho x hx

/-- The first base is the lowest. -/
theorem head_le_base {all : List Part} (ho : all.Pairwise Part.Before) (d : Nat) :
    ∀ x ∈ all, ((all.map Prod.fst).head?.map (·.baseOffset)).getD d ≤ x.1.baseOffset := by
  intro x hx
  cases all with
  | nil => exact absurd hx List.not_mem_nil
  | cons y ys =>
    show y.1.baseOffset ≤ x.1.baseOffset
    rcases List.mem_cons.mp hx with rfl | hx
    · exact Nat.le_refl _
    · exact Nat.le_of_lt ((List.pairwise_cons.mp ho).1 x hx).1

/-- A partition over segments that hold records. -/
theorem Partition.holds_ofSegments {active : Segment} {tail : List Record}
    (hh : ∀ x ∈ parts, x.1.Holds x.2) (ha : active.Holds tail)
    (ho : (parts ++ [(active, tail)]).Pairwise Part.Before)
    (hnext : next = offsetAfter active.baseOffset tail) (hb : active.baseOffset ≤ u64Max)
    (cut : Bool) (segmentBytes : UInt64) (flushEveryRecords : Nat) :
    (Partition.ofSegments (parts.map Prod.fst) active next cut segmentBytes
      flushEveryRecords).Holds parts tail where
  segments := rfl
  sealedHold := hh
  activeHolds := ha
  ordered := ho
  start := by
    show ∀ x ∈ parts ++ [(active, tail)],
      ((parts.map Prod.fst ++ [active]).head?.map (·.baseOffset)).getD 0 ≤ x.1.baseOffset
    have hmap : parts.map Prod.fst ++ [active] = (parts ++ [(active, tail)]).map Prod.fst := by
      rw [List.map_append, List.map_singleton]
    rw [hmap]
    exact head_le_base ho 0
  appenderBase := rfl
  appenderSize := ha.size
  appenderLast := (Option.or_none ..).symm
  below := by
    intro r hr
    show r.offset < next
    obtain ⟨front, last, rfl⟩ : ∃ front last, tail = front ++ [last] := by
      rcases List.eq_nil_or_concat tail with rfl | ⟨front, last, hlast⟩
      · exact absurd hr List.not_mem_nil
      · exact ⟨front, last, hlast.trans (List.concat_eq_append ..)⟩
    rw [hnext, offsetAfter, List.getLast?_concat]
    show r.offset < last.offset + 1
    rcases List.mem_append.mp hr with hr | hr
    · exact Nat.lt_succ_of_lt
        ((List.pairwise_append.mp ha.sorted).2.2 r hr last List.mem_cons_self)
    · rw [List.mem_singleton.mp hr]
      exact Nat.lt_succ_self _
  baseNext := by
    show active.baseOffset ≤ next
    rw [hnext]
    exact ha.sequence.le_offsetAfter
  nextMax := by
    show next ≤ u64Max
    rw [hnext]
    exact ha.sequence.offsetAfter_le hb

theorem Directory.finishCompaction_of_none {d : Directory} (h : d.marker = none) :
    d.finishCompaction = d := by rw [Directory.finishCompaction, h]

/-- Opening a directory whose files, sorted, are `logs`. -/
theorem Partition.open_sorted {d : Directory} (hd : d.marker = none) {logs : List (Nat × Bytes)}
    (hs : (d.logs.mergeSort fun a b => a.1 ≤ b.1) = logs) {found : List Segment × Nat}
    {active : Segment}
    (hrec : recoverSegments d.indexes logs ((logs.head?.map Prod.fst).getD 0) = some found)
    (hactive : found.1.getLast? = some active) (segmentBytes : UInt64) (flushEveryRecords : Nat) :
    Partition.open d segmentBytes flushEveryRecords = some (.ofSegments found.1.dropLast active
      found.2 (active.log.length ≠ ((logs.getLast?.map Prod.snd).getD []).length)
      segmentBytes flushEveryRecords) := by
  unfold Partition.open Directory.sweepCompactionTmp
  dsimp only
  rw [Directory.finishCompaction_of_none hd, hs, hrec]
  simp only [Option.bind_eq_bind, Option.bind_some, hactive]

theorem mergeSort_sorted (files : List (Nat × Bytes)) :
    (files.mergeSort fun a b => a.1 ≤ b.1).Pairwise fun a b => a.1 ≤ b.1 := by
  have hsorted : (files.mergeSort fun a b => a.1 ≤ b.1).Pairwise
      fun a b => decide (a.1 ≤ b.1) = true := by
    apply List.pairwise_mergeSort
    · exact fun a b c hab hbc => decide_eq_true
        (Nat.le_trans (of_decide_eq_true hab) (of_decide_eq_true hbc))
    · intro a b
      simpa using Nat.le_total a.1 b.1
  exact hsorted.imp of_decide_eq_true

/-- Files with different bases are sorted in one way. -/
theorem mergeSort_eq_of_perm {files sorted : List (Nat × Bytes)} (h : files.Perm sorted)
    (hs : sorted.Pairwise fun a b => a.1 ≤ b.1) (hn : (sorted.map Prod.fst).Nodup) :
    (files.mergeSort fun a b => a.1 ≤ b.1) = sorted := by
  have hperm := (List.mergeSort_perm files fun a b => a.1 ≤ b.1).trans h
  refine List.Perm.eq_of_pairwise (fun a b ha hb hab hba => ?_) (mergeSort_sorted files) hs hperm
  exact List.inj_on_of_nodup_map hn (hperm.subset ha) hb (Nat.le_antisymm hab hba)

/-- **Opening.** A directory with the files of sealed segments, in any order, and a last log
that ends in a torn record: the partition holds the records of the segments and the whole
records of the last one. -/
theorem Partition.open_parts {d : Directory} (hd : d.marker = none) {parts : List Part}
    (hh : ∀ x ∈ parts, x.1.Holds x.2) {base : Nat} {rs : List Record} {torn : Bytes}
    (hr : Sequence base rs) (hb : base ≤ u64Max) (ht : RecordCursor.Tail torn)
    (ho : parts.Pairwise Part.Before)
    (hlast : ∀ x ∈ parts, x.1.baseOffset < base ∧ ∀ r ∈ x.2, r.offset < base)
    (hlogs : d.logs.Perm (parts.map (fun x => (x.1.baseOffset, x.1.log)) ++
      [(base, encodeAll rs ++ torn)]))
    (hindexes : ∀ x ∈ parts, x.1.Indexed (d.indexes.lookup x.1.baseOffset))
    (segmentBytes : UInt64) (flushEveryRecords : Nat) :
    ∃ p parts', Partition.open d segmentBytes flushEveryRecords = some p ∧ p.Holds parts' rs ∧
      parts'.map Part.outline = parts.map Part.outline ∧ p.active.baseOffset = base ∧
      p.nextOffset = offsetAfter base rs ∧ p.segmentBytes = segmentBytes := by
  have hincreasing : (parts.map (fun x => (x.1.baseOffset, x.1.log)) ++
      [(base, encodeAll rs ++ torn)]).Pairwise fun a b => a.1 < b.1 := by
    refine List.pairwise_append.mpr
      ⟨List.pairwise_map.mpr (ho.imp fun hab => hab.1), List.pairwise_singleton _ _, ?_⟩
    intro a ha b hb
    obtain ⟨x, hx, rfl⟩ := List.mem_map.mp ha
    rw [List.mem_singleton.mp hb]
    exact (hlast x hx).1
  have hsorted := mergeSort_eq_of_perm hlogs (hincreasing.imp Nat.le_of_lt)
    (List.pairwise_map.mpr (hincreasing.imp Nat.ne_of_lt))
  have hfirst : (((parts.map (fun x => (x.1.baseOffset, x.1.log)) ++
      [(base, encodeAll rs ++ torn)]).head?.map Prod.fst).getD 0) ≤ base := by
    cases parts with
    | nil => exact Nat.le_refl _
    | cons x parts => exact Nat.le_of_lt (hlast x List.mem_cons_self).1
  have hbefore (x : Part) (hx : x ∈ parts) (s : Segment) (hs : s.baseOffset = base) :
      x.Before (s, rs) := by
    unfold Part.Before
    rw [hs]
    exact hlast x hx
  obtain ⟨parts', s, hrec, houtline, hh', hs, hbase⟩ :=
    recoverSegments_parts hr hb ht hh hindexes
      (fun x hx => ⟨Nat.le_of_lt (hlast x hx).1,
        (hbefore x hx (.openEmpty base) rfl).offsetAfter_le⟩) hfirst
  have hordered : (parts' ++ [(s, rs)]).Pairwise Part.Before := by
    refine @ordered_outline _ (parts ++ [(s, rs)]) ?_ ?_
    · rw [List.map_append, List.map_append, houtline]
    · exact List.pairwise_append.mpr ⟨ho, List.pairwise_singleton _ _, fun x hx y hy => by
        rw [List.mem_singleton.mp hy]
        exact hbefore x hx s hbase⟩
  have hnext : offsetAfter base rs = offsetAfter s.baseOffset rs := by rw [hbase]
  refine ⟨_, parts', ?_, Partition.holds_ofSegments hh' hs hordered hnext
    (hbase ▸ hb) (decide (s.log.length ≠ (encodeAll rs ++ torn).length)) segmentBytes
    flushEveryRecords, houtline, hbase, rfl, rfl⟩
  rw [Partition.open_sorted hd hsorted hrec List.getLast?_concat, List.dropLast_concat,
    List.getLast?_concat]
  rfl

/-- Reopening brings back the sealed segments, each with its records, and of the active one the
records that lie wholly inside the surviving bytes. -/
theorem Partition.Holds.reopen_outline {tail : List Record} (h : p.Holds parts tail) (n : Nat)
    (index : Option Bytes) (segmentBytes : UInt64) (flushEveryRecords : Nat) :
    ∃ p' parts', Partition.open (p.crashed n index) segmentBytes flushEveryRecords = some p' ∧
      p'.Holds parts' (wholeWithin n tail) ∧ parts'.map Part.outline = parts.map Part.outline ∧
      p'.active.baseOffset = p.active.baseOffset ∧
      p'.nextOffset = offsetAfter p.active.baseOffset (wholeWithin n tail) ∧
      p'.segmentBytes = segmentBytes := by
  obtain ⟨hsealed, _, hbefore⟩ := List.pairwise_append.mp h.ordered
  obtain ⟨torn, htake, ht⟩ := take_encodeAll h.activeHolds.fits n
  refine Partition.open_parts rfl h.sealedHold
    (h.activeHolds.sequence.of_isPrefix (wholeWithin_isPrefix n tail))
    (Nat.le_trans h.baseNext h.nextMax) ht hsealed
    (fun x hx => hbefore x hx _ List.mem_cons_self) (List.Perm.of_eq ?_) (fun x hx b hb => ?_)
    segmentBytes flushEveryRecords
  · show p.sealedSegments.map _ ++ [(_, p.active.log.take n)] = _
    rw [h.segments, List.map_map, h.activeHolds.log, htake]
    rfl
  · have hindexes : (p.crashed n index).indexes =
        parts.map (fun x => (x.1.baseOffset, x.1.indexFile)) ++
          (index.map fun b => (p.active.baseOffset, b)).toList := by
      show p.sealedSegments.map _ ++ _ = _
      rw [h.segments, List.map_map]
      rfl
    rw [hindexes, lookup_indexFile hsealed _ x hx] at hb
    exact (Option.some.inj hb).symm

/-- **Reopening.** After a crash the partition opens and holds the records that lie wholly
inside the surviving bytes. -/
theorem Partition.Holds.reopen {tail : List Record} (h : p.Holds parts tail) (n : Nat)
    (index : Option Bytes) (segmentBytes : UInt64) (flushEveryRecords : Nat) :
    ∃ p' parts', Partition.open (p.crashed n index) segmentBytes flushEveryRecords = some p' ∧
      p'.Holds parts' (wholeWithin n tail) ∧ contents parts' = contents parts ∧
      p'.active.baseOffset = p.active.baseOffset ∧
      p'.nextOffset = offsetAfter p.active.baseOffset (wholeWithin n tail) := by
  obtain ⟨p', parts', hopen, hholds, houtline, hbase, hnext, _⟩ :=
    h.reopen_outline n index segmentBytes flushEveryRecords
  exact ⟨p', parts', hopen, hholds, contents_outline houtline, hbase, hnext⟩

end EventStream.Storage
