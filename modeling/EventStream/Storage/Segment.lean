import Mathlib.Data.List.TakeWhile
import EventStream.Storage.Window

/-! A segment: a log file, its sparse index, and reading from it (`storage/index.rs` and
`storage/segment.rs`).

The index holds a position about every four kilobytes of log. A read starts at the entry
before its target and skips what lies in between, so it returns the same records as a scan
of the whole log (`Readable.readFrom_eq`). -/
namespace EventStream.Storage

/-! ### The index -/

def indexEntryLen : Nat := 16

/-- Log bytes between two index entries. -/
def indexIntervalBytes : Nat := 4096

/-- Entries are pairs of a relative offset and a file position. -/
abbrev SparseIndex := List (Nat × Nat)

def encodeIndexEntry (e : Nat × Nat) : Bytes := beBytes 8 e.1 ++ beBytes 8 e.2

def encodeIndex (entries : SparseIndex) : Bytes := entries.flatMap encodeIndexEntry

def decodeEntries : Nat → Bytes → SparseIndex
  | 0, _ => []
  | n + 1, b => (beNat (b.take 8), beNat ((b.drop 8).take 8)) :: decodeEntries n (b.drop 16)

/-- `SparseIndex::load_from`; `none` for a file that is not a whole number of entries. -/
def loadIndex (b : Bytes) : Option SparseIndex :=
  if b.length % indexEntryLen ≠ 0 then none
  else some (decodeEntries (b.length / indexEntryLen) b)

/-- The last entry at or below the target. The source finds it by binary search; the entries
are sorted. -/
def SparseIndex.floor (entries : SparseIndex) (target : Nat) : Option (Nat × Nat) :=
  (entries.takeWhile (·.1 ≤ target)).getLast?

/-- Whether a record written at `pos` gets an entry, the newest entry being at `last`. -/
def wantsEntry (last : Option Nat) (pos : Nat) : Bool :=
  match last with
  | none => true
  | some p => p + indexIntervalBytes ≤ pos

/-- The entries for records written from `pos` on. -/
def sparseFrom (base : Nat) : Option Nat → Nat → List Record → SparseIndex
  | _, _, [] => []
  | last, pos, r :: rs =>
    if wantsEntry last pos then
      (r.offset - base, pos) :: sparseFrom base (some pos) (pos + (encodeRecord r).length) rs
    else sparseFrom base last (pos + (encodeRecord r).length) rs

/-- The position of the newest entry, `last` if there is none. -/
def lastEntry (last : Option Nat) (entries : SparseIndex) : Option Nat :=
  (entries.getLast?.map Prod.snd).or last

theorem lastEntry_cons (last : Option Nat) (e : Nat × Nat) (entries : SparseIndex) :
    lastEntry last (e :: entries) = lastEntry (some e.2) entries := by
  cases entries with
  | nil => rfl
  | cons e' entries =>
    simp [lastEntry, List.getLast?_eq_some_getLast]

theorem sparseFrom_append (base : Nat) (last : Option Nat) (pos : Nat) (rs bs : List Record) :
    sparseFrom base last pos (rs ++ bs) = sparseFrom base last pos rs ++
      sparseFrom base (lastEntry last (sparseFrom base last pos rs))
        (pos + (encodeAll rs).length) bs := by
  induction rs generalizing last pos with
  | nil => rfl
  | cons r rs ih =>
    have hpos : pos + (encodeAll (r :: rs)).length =
        pos + (encodeRecord r).length + (encodeAll rs).length := by
      rw [encodeAll_cons, List.length_append, Nat.add_assoc]
    rw [List.cons_append, sparseFrom, sparseFrom, hpos]
    split
    · rw [ih, List.cons_append, lastEntry_cons]
    · exact ih _ _

theorem lastEntry_append (last : Option Nat) (xs ys : SparseIndex) :
    lastEntry last (xs ++ ys) = lastEntry (lastEntry last xs) ys := by
  cases ys with
  | nil => simp [lastEntry]
  | cons y ys => simp [lastEntry, List.getLast?_eq_some_getLast]

/-- Each entry names a record and its position. -/
def Located (base : Nat) (rs : List Record) (entries : SparseIndex) : Prop :=
  ∀ e ∈ entries, ∃ before r after, rs = before ++ r :: after ∧
    e.2 = (encodeAll before).length ∧ e.1 = r.offset - base

theorem located_sparseFrom (base : Nat) (last : Option Nat) (before rs : List Record) :
    Located base (before ++ rs) (sparseFrom base last (encodeAll before).length rs) := by
  induction rs generalizing before last with
  | nil => exact fun e he => absurd he List.not_mem_nil
  | cons r rs ih =>
    have hstep (last : Option Nat) : Located base (before ++ r :: rs)
        (sparseFrom base last ((encodeAll before).length + (encodeRecord r).length) rs) := by
      have := ih last (before ++ [r])
      rwa [List.append_assoc, encodeAll_append, List.length_append, encodeAll_cons,
        encodeAll_nil, List.append_nil] at this
    rw [sparseFrom]
    split
    · intro e he
      rcases List.mem_cons.mp he with rfl | he
      · exact ⟨before, r, rs, rfl, rfl, rfl⟩
      · exact hstep _ e he
    · exact hstep _

theorem length_encodeIndex (entries : SparseIndex) :
    (encodeIndex entries).length = indexEntryLen * entries.length := by
  induction entries with
  | nil => rfl
  | cons e entries ih =>
    have hcons : encodeIndex (e :: entries) = encodeIndexEntry e ++ encodeIndex entries := rfl
    rw [hcons, List.length_append, ih, encodeIndexEntry, List.length_append, length_beBytes,
      length_beBytes, List.length_cons, indexEntryLen]
    omega

theorem encodeIndex_append (xs ys : SparseIndex) :
    encodeIndex (xs ++ ys) = encodeIndex xs ++ encodeIndex ys := List.flatMap_append

/-- An index that was written is read back. -/
theorem loadIndex_encode {entries : SparseIndex}
    (h : ∀ e ∈ entries, e.1 < 256 ^ 8 ∧ e.2 < 256 ^ 8) :
    loadIndex (encodeIndex entries) = some entries := by
  have hdecode : decodeEntries entries.length (encodeIndex entries) = entries := by
    induction entries with
    | nil => rfl
    | cons e entries ih =>
      obtain ⟨h1, h2⟩ := h e List.mem_cons_self
      have hcons : encodeIndex (e :: entries) =
          beBytes 8 e.1 ++ (beBytes 8 e.2 ++ encodeIndex entries) := by
        rw [← List.append_assoc]
        rfl
      rw [List.length_cons, decodeEntries, hcons, List.take_left' (length_beBytes ..),
        List.drop_left' (length_beBytes ..), List.take_left' (length_beBytes ..),
        show 16 = 8 + 8 from rfl, ← List.drop_drop, List.drop_left' (length_beBytes ..),
        List.drop_left' (length_beBytes ..), beNat_beBytes h1, beNat_beBytes h2,
        ih (fun e he => h e (List.mem_cons_of_mem _ he))]
  rw [loadIndex, length_encodeIndex, if_neg (by simp [Nat.mul_mod_right]),
    Nat.mul_div_cancel_left _ (by decide), hdecode]

/-! ### Segments -/

/-- A segment with the contents of its two files. The source's `min` and `max` timestamps
mean "no record yet" at the two ends of the range. -/
structure Segment where
  baseOffset : Nat
  log : Bytes
  indexFile : Bytes
  sizeBytes : Nat
  index : SparseIndex
  minTimestampMs : Int64
  maxTimestampMs : Int64
  deriving DecidableEq, Repr

def Segment.openEmpty (baseOffset : Nat) : Segment :=
  { baseOffset, log := [], indexFile := [], sizeBytes := 0, index := [],
    minTimestampMs := Int64.maxValue, maxTimestampMs := Int64.minValue }

/-- The loop of `read_from` over the records the cursor yields. -/
def collect (target maxRecords maxBytes highWatermark : Nat) :
    List Record → List Record → Nat → List Record
  | [], out, _ => out
  | r :: rs, out, bytes =>
    if highWatermark ≤ r.offset then out
    else if r.offset < target then collect target maxRecords maxBytes highWatermark rs out bytes
    else
      let approxBytes := recordDiskSize (r.key.map List.length) r.value.length
      if out ≠ [] ∧ maxBytes < bytes + approxBytes then out
      else if maxRecords ≤ (out ++ [r]).length then out ++ [r]
      else
        collect target maxRecords maxBytes highWatermark rs (out ++ [r]) (bytes + approxBytes)

def readWindow (maxBytes : Nat) : Nat :=
  min (max (maxBytes + indexIntervalBytes) (16 * 1024)) (readWindowBytes * 16)

/-- The records from the first one at or above the target on. A record that cannot be read
ends the read. -/
def Segment.readFrom (s : Segment) (target maxRecords maxBytes highWatermark : Nat) :
    List Record :=
  if maxRecords = 0 ∨ highWatermark ≤ target then []
  else
    let startPos := ((s.index.floor (target - s.baseOffset)).map Prod.snd).getD 0
    if s.sizeBytes ≤ startPos then []
    else
      let cursor := RecordCursor.new s.log startPos s.sizeBytes (readWindow maxBytes)
      collect target maxRecords maxBytes highWatermark (cursor.walk.records.map Prod.snd) [] 0

/-! ### What a read returns -/

/-- The segment serves the records `rs`. -/
structure Segment.Readable (s : Segment) (rs : List Record) : Prop where
  log : encodeAll rs <+: s.log
  size : s.sizeBytes = (encodeAll rs).length
  index : Located s.baseOffset rs s.index
  fits : ∀ r ∈ rs, r.Valid ∧ r.Small
  sorted : rs.Pairwise fun a b => a.offset < b.offset
  base : ∀ r ∈ rs, s.baseOffset ≤ r.offset

/-- The records at or above an offset. -/
def liveFrom (target : Nat) (rs : List Record) : List Record :=
  rs.filter fun r => target ≤ r.offset

open RecordCursor (map_snd_positioned)

variable {target maxRecords maxBytes hwm : Nat} {s : Segment} {rs : List Record}

theorem collect_skip {before : List Record} (h : ∀ r ∈ before, r.offset < target)
    (ht : target < hwm) (rs out : List Record) (bytes : Nat) :
    collect target maxRecords maxBytes hwm (before ++ rs) out bytes =
      collect target maxRecords maxBytes hwm rs out bytes := by
  induction before with
  | nil => rfl
  | cons r before ih =>
    have hr := h r List.mem_cons_self
    rw [List.cons_append, collect, if_neg (by omega), if_pos hr,
      ih fun r hr => h r (List.mem_cons_of_mem _ hr)]

/-- The read takes records from the front of those at or above the target, and takes at
least one. -/
theorem collect_live {target maxRecords maxBytes hwm : Nat} {rs : List Record}
    (hhwm : ∀ r ∈ rs, r.offset < hwm) (out : List Record) (bytes : Nat) :
    ∃ got, collect target maxRecords maxBytes hwm rs out bytes = out ++ got ∧
      got <+: liveFrom target rs ∧ (out = [] → liveFrom target rs ≠ [] → got ≠ []) := by
  induction rs generalizing out bytes with
  | nil => exact ⟨[], (List.append_nil _).symm, List.nil_prefix, fun _ h => h⟩
  | cons r rs ih =>
    have htail := ih fun r hr => hhwm r (List.mem_cons_of_mem _ hr)
    rw [collect, if_neg (Nat.not_le_of_lt (hhwm r List.mem_cons_self))]
    by_cases hlow : r.offset < target
    · have hlive : liveFrom target (r :: rs) = liveFrom target rs :=
        List.filter_cons_of_neg (by simpa using hlow)
      rw [if_pos hlow, hlive]
      exact htail out bytes
    · have hlive : liveFrom target (r :: rs) = r :: liveFrom target rs :=
        List.filter_cons_of_pos (by simpa using Nat.le_of_not_lt hlow)
      rw [if_neg hlow, hlive]
      dsimp only
      split
      · rename_i hbudget
        exact ⟨[], (List.append_nil _).symm, List.nil_prefix, fun hout => absurd hout hbudget.1⟩
      · split
        · exact ⟨[r], rfl, List.prefix_cons_inj r |>.mpr List.nil_prefix,
            fun _ _ => List.cons_ne_nil _ _⟩
        · obtain ⟨got, hgot, hpre, _⟩ := htail (out ++ [r])
            (bytes + recordDiskSize (r.key.map List.length) r.value.length)
          exact ⟨r :: got, by rw [hgot, List.append_assoc]; rfl,
            List.prefix_cons_inj r |>.mpr hpre, fun _ _ => List.cons_ne_nil _ _⟩

theorem maxRecordBytes_le_window (maxBytes : Nat) :
    maxRecordBytes ≤ max (readWindow maxBytes) 4096 := by
  simp only [maxRecordBytes, readWindow, readWindowBytes, indexIntervalBytes]
  omega

/-- The index only chooses where the scan starts. -/
theorem Segment.Readable.readFrom_eq (h : s.Readable rs) (hm : 0 < maxRecords) (ht : target < hwm) :
    s.readFrom target maxRecords maxBytes hwm = collect target maxRecords maxBytes hwm rs [] 0 := by
  -- The scan starts at a record boundary with nothing of interest before it.
  obtain ⟨before, after, hsplit, hstart, hskip⟩ : ∃ before after, rs = before ++ after ∧
      ((s.index.floor (target - s.baseOffset)).map Prod.snd).getD 0 =
        (encodeAll before).length ∧ ∀ r ∈ before, r.offset < target := by
    cases hfloor : s.index.floor (target - s.baseOffset) with
    | none => exact ⟨[], rs, rfl, rfl, fun r hr => absurd hr List.not_mem_nil⟩
    | some e =>
      have hmem := List.mem_of_getLast? hfloor
      obtain ⟨before, r, after, hrs, hpos, hrel⟩ :=
        h.index e ((List.takeWhile_sublist _).mem hmem)
      have hle : e.1 ≤ target - s.baseOffset := by
        simpa using List.mem_takeWhile_imp hmem
      refine ⟨before, r :: after, hrs, hpos, fun x hx => ?_⟩
      have hbase := h.base x (hrs ▸ List.mem_append_left _ hx)
      have hsorted := h.sorted
      rw [hrs, List.pairwise_append] at hsorted
      have hlt := hsorted.2.2 x hx r List.mem_cons_self
      omega
  obtain ⟨post, hpost⟩ := h.log
  have hcollect : collect target maxRecords maxBytes hwm rs [] 0 =
      collect target maxRecords maxBytes hwm after [] 0 := by
    rw [hsplit, collect_skip hskip ht]
  unfold Segment.readFrom
  rw [if_neg (by omega)]
  dsimp only
  rw [hstart, hcollect]
  have hsize : s.sizeBytes = (encodeAll before).length + (encodeAll after).length := by
    rw [h.size, hsplit, encodeAll_append, List.length_append]
  split
  · -- Nothing is left to read: every record takes bytes.
    have hlen := length_le_encodeAll after
    have hnil : after = [] := List.length_eq_zero_iff.mp (by omega)
    rw [hnil]
    rfl
  · have hfile : s.log = encodeAll before ++ ((encodeAll after ++ []) ++ post) := by
      rw [← hpost, hsplit, encodeAll_append, List.append_nil, List.append_assoc]
    rw [RecordCursor.walk_encoded .clean hfile (by rw [List.append_nil]; exact hsize),
      map_snd_positioned]
    intro r hr
    obtain ⟨hvalid, hsmall⟩ := h.fits r (hsplit ▸ List.mem_append_right _ hr)
    exact ⟨hvalid, Nat.le_trans hsmall (maxRecordBytes_le_window maxBytes)⟩

/-- A read returns records from the front of those at or above its target, and at least
one if there is one. -/
theorem Segment.Readable.readFrom (h : s.Readable rs) (hm : 0 < maxRecords) (ht : target < hwm)
    (hhwm : ∀ r ∈ rs, r.offset < hwm) :
    s.readFrom target maxRecords maxBytes hwm <+: liveFrom target rs ∧
      (liveFrom target rs ≠ [] → s.readFrom target maxRecords maxBytes hwm ≠ []) := by
  obtain ⟨got, hgot, hpre, hne⟩ :=
    @collect_live target maxRecords maxBytes hwm rs hhwm [] 0
  rw [h.readFrom_eq hm ht, hgot]
  exact ⟨hpre, hne rfl⟩

end EventStream.Storage
