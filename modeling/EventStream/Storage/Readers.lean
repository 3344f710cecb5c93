import EventStream.Storage.Recover
import EventStream.Storage.Window

/-! The readers of records in the broker: `read_record` from a file, `decode_record` from bytes,
and the scan of the recovery, which decodes out of windows.

They are one decoder but for two things. A file that ends inside a length field just ends for
`read_record` and ends in a record cut short for `decode_record` (`readFrom_cut`); and the scan
gives up on a record for which its window does not suffice (`scanFull_whole_iff`). -/
namespace EventStream.Storage

/-- The record at the reader's position; `buf` is what the file holds from there on. -/
def readRecord (buf : Bytes) (pos : Nat) : Except RecordDecodeError (Record × Nat) :=
  if buf.length < recordLenField then .error .eof
  else do
    let bodyLen ← checkBodyLen (beNat (buf.take 4)) pos
    let body := (buf.drop 4).take bodyLen
    if body.length < bodyLen then .error (.truncated pos)
    else do
      let r ← decodeBody body pos
      .ok (r, recordLenField + bodyLen)

/-! ### Reading to the end -/

/-- The class of what ends a sequence of records. -/
inductive Stop where
  | cleanEnd
  | truncated
  | crcMismatch
  | invalid
  deriving DecidableEq, Repr

def RecordDecodeError.stop : RecordDecodeError → Stop
  | .eof => .cleanEnd
  | .truncated _ => .truncated
  | .crcMismatch .. => .crcMismatch
  | .invalid .. => .invalid

/-- The records that were read, what ended them, and the bytes from there on. -/
structure Readout where
  records : List Record
  stop : Stop
  left : Bytes
  deriving DecidableEq, Repr

/-- A reader of one record, from bytes that start at a position of the file. -/
abbrev RecordReader := Bytes → Nat → Except RecordDecodeError (Record × Nat)

def readFrom (read : RecordReader) : Nat → Bytes → Nat → Readout
  | 0, rest, _ => ⟨[], .cleanEnd, rest⟩
  | fuel + 1, rest, pos =>
    match read rest pos with
    | .ok (r, n) =>
      let more := readFrom read fuel (rest.drop n) (pos + n)
      ⟨r :: more.records, more.stop, more.left⟩
    | .error e => ⟨[], e.stop, rest⟩

/-- A record takes at least a byte, so that many rounds suffice. -/
def readAll (read : RecordReader) (log : Bytes) : Readout := readFrom read (log.length + 1) log 0

/-- The same records, and the same class of end. -/
def Readout.Same (a b : Readout) : Prop := a.records = b.records ∧ a.stop = b.stop

/-- The file ends inside a length field. -/
def CutInLength (log : Bytes) : Prop :=
  0 < (readAll decodeRecord log).left.length ∧
    (readAll decodeRecord log).left.length < recordLenField

instance (log : Bytes) : Decidable (CutInLength log) := inferInstanceAs (Decidable (_ ∧ _))

/-! ### The readers of the broker -/

section
variable {buf rest log : Bytes} {pos n fuel : Nat} {r : Record} {rs : List Record}

theorem readRecord_eq_decodeRecord (h : recordLenField ≤ buf.length) :
    readRecord buf pos = decodeRecord buf pos := by
  unfold readRecord decodeRecord
  rw [if_neg (Nat.not_lt_of_le h), if_neg (RecordCursor.not_isEmpty_of_length h),
    if_neg (Nat.not_lt_of_le h)]
  cases checkBodyLen (beNat (buf.take 4)) pos with
  | error e => rfl
  | ok bodyLen =>
    simp only [bind, Except.bind]
    have hcut : ((buf.drop 4).take bodyLen).length < bodyLen ↔
        buf.length < recordLenField + bodyLen := by
      rw [List.length_take, List.length_drop]
      simp only [recordLenField] at *
      omega
    simp only [hcut]

theorem readRecord_short (h : buf.length < recordLenField) :
    readRecord buf pos = .error .eof := if_pos h

/-- Unless the bytes end inside a length field, the two readers of the broker find the same. -/
theorem readFrom_readRecord (h : ¬ (0 < (readFrom decodeRecord fuel rest pos).left.length ∧
      (readFrom decodeRecord fuel rest pos).left.length < recordLenField)) :
    readFrom readRecord fuel rest pos = readFrom decodeRecord fuel rest pos := by
  induction fuel generalizing rest pos with
  | zero => rfl
  | succ fuel ih =>
    rcases Nat.lt_or_ge rest.length recordLenField with hshort | hlong
    · -- What cannot hold a length field is what is left.
      have herror : ∃ e, decodeRecord rest pos = .error e := by
        rcases RecordCursor.decodeRecord_short hshort with he | he
        · exact ⟨_, he⟩
        · exact ⟨_, he⟩
      obtain ⟨e, he⟩ := herror
      have hnil : rest = [] := by
        by_contra hne
        refine h ?_
        simp only [readFrom, he]
        exact ⟨List.length_pos_iff.mpr hne, hshort⟩
      subst hnil
      rfl
    · simp only [readFrom, readRecord_eq_decodeRecord hlong] at h ⊢
      cases hd : decodeRecord rest pos with
      | error e => rfl
      | ok found =>
        rw [hd] at h
        show Readout.mk _ _ _ = Readout.mk _ _ _
        rw [ih h]

/-- Where the bytes end inside a length field, one reader finds a clean end there and the other a
record cut short. -/
theorem readFrom_cut (h : 0 < (readFrom decodeRecord fuel rest pos).left.length ∧
      (readFrom decodeRecord fuel rest pos).left.length < recordLenField)
    (hfuel : rest.length < fuel) :
    (readFrom readRecord fuel rest pos).stop = .cleanEnd ∧
      (readFrom decodeRecord fuel rest pos).stop = .truncated := by
  induction fuel generalizing rest pos with
  | zero => exact absurd hfuel (Nat.not_lt_zero _)
  | succ fuel ih =>
    rcases Nat.lt_or_ge rest.length recordLenField with hshort | hlong
    · have hne : rest ≠ [] := by
        rintro rfl
        exact absurd h.1 (Nat.lt_irrefl 0)
      have hcut : decodeRecord rest pos = .error (.truncated pos) := by
        rw [decodeRecord, if_neg (by rwa [List.isEmpty_iff]), if_pos hshort]
      simp only [readFrom, readRecord_short hshort, hcut]
      exact ⟨rfl, rfl⟩
    · simp only [readFrom, readRecord_eq_decodeRecord hlong] at h ⊢
      cases hd : decodeRecord rest pos with
      | error e =>
        rw [hd] at h
        exact absurd h.2 (Nat.not_lt_of_le hlong)
      | ok found =>
        obtain ⟨r, n⟩ := found
        rw [hd] at h
        obtain ⟨hmin, -, hmax⟩ := RecordCursor.decodeRecord_length hd
        refine ih h ?_
        rw [List.length_drop]
        simp only [recordLenField] at hmin
        omega

/-! ### The scan of the recovery -/

theorem decodeKey_ne_eof {rawLen : Nat} : decodeKey rawLen rest pos ≠ .error .eof := by
  unfold decodeKey
  split
  · split <;> nofun
  · split <;> nofun

theorem decodeValue_ne_eof : decodeValue rest pos ≠ .error .eof := by
  unfold decodeValue
  split
  · nofun
  · dsimp only
    split <;> nofun

theorem decodeBody_ne_eof : decodeBody buf pos ≠ .error .eof := by
  unfold decodeBody
  simp only [bind, Except.bind]
  split
  · rename_i hkey
    rintro ⟨⟩
    exact decodeKey_ne_eof hkey
  · split
    · rename_i hvalue
      rintro ⟨⟩
      exact decodeValue_ne_eof hvalue
    · split <;> nofun

/-- Only the end of the bytes is a clean end. -/
theorem decodeRecord_ne_eof (h : buf ≠ []) : decodeRecord buf pos ≠ .error .eof := by
  unfold decodeRecord
  rw [if_neg (by rwa [List.isEmpty_iff])]
  split
  · rintro ⟨⟩
  · simp only [bind, Except.bind, checkBodyLen]
    split
    · rename_i hlen
      split at hlen
      · cases hlen
        rintro ⟨⟩
      · split at hlen
        · cases hlen
          rintro ⟨⟩
        · cases hlen
    · split
      · rintro ⟨⟩
      · split
        · rename_i hbody
          rintro ⟨⟩
          exact decodeBody_ne_eof hbody
        · rintro ⟨⟩

theorem plainBytes_drop : RecordCursor.plainBytes log pos log.length = log.drop pos :=
  List.take_of_length_le (by rw [List.length_drop])

/-- The plain decoder and the reading of the whole log find the same, and end alike. -/
theorem plainWalkFuel_readFrom (hpos : pos ≤ log.length) :
    ((RecordCursor.plainWalkFuel log log.length fuel pos).records.map Prod.snd =
        (readFrom decodeRecord fuel (log.drop pos) pos).records) ∧
      ((RecordCursor.plainWalkFuel log log.length fuel pos).error = none ↔
        (readFrom decodeRecord fuel (log.drop pos) pos).stop = .cleanEnd) := by
  induction fuel generalizing pos with
  | zero => exact ⟨rfl, iff_of_true rfl rfl⟩
  | succ fuel ih =>
    rw [RecordCursor.plainWalkFuel, readFrom, RecordCursor.plainNext, plainBytes_drop]
    by_cases hend : log.length ≤ pos
    · rw [if_pos hend, List.drop_eq_nil_of_le hend]
      exact ⟨rfl, iff_of_true rfl rfl⟩
    rw [if_neg hend]
    have hne : log.drop pos ≠ [] := by
      rw [ne_eq, List.drop_eq_nil_iff]
      exact hend
    cases hd : decodeRecord (log.drop pos) pos with
    | error e =>
      cases e with
      | eof => exact absurd hd (decodeRecord_ne_eof hne)
      | truncated | crcMismatch | invalid =>
        exact ⟨rfl, iff_of_false (by rintro ⟨⟩) (by rintro ⟨⟩)⟩
    | ok found =>
      obtain ⟨r, n⟩ := found
      have hlen := (RecordCursor.decodeRecord_length hd).2.2
      rw [List.length_drop] at hlen
      obtain ⟨hrecords, hstop⟩ := ih (show pos + n ≤ log.length by omega)
      rw [← List.drop_drop] at hrecords hstop
      exact ⟨congrArg (r :: ·) hrecords, hstop⟩

end

/-! ### What the scan reports -/

section
variable {log : Bytes} {base : Nat} {scan : SegmentScan}

theorem scanFull_damaged (h : scanFull log base = some scan) : scan.damaged = false ↔
    (RecordCursor.new log 0 log.length readWindowBytes).walk.error = none ∧
      (RecordCursor.new log 0 log.length readWindowBytes).walk.stop = log.length := by
  obtain ⟨s, -, hs⟩ := Option.bind_eq_some_iff.mp h
  cases hs
  simp [Option.isSome_eq_false_iff]

theorem plainWalk_readAll : (RecordCursor.plainWalk log 0 log.length).error = none ↔
    (readAll decodeRecord log).stop = .cleanEnd :=
  (plainWalkFuel_readFrom (Nat.zero_le _)).2

theorem plainWalk_end : (RecordCursor.plainWalk log 0 log.length).error = none ↔
    (RecordCursor.plainWalk log 0 log.length).stop = log.length :=
  RecordCursor.plainWalkFuel_end (Nat.zero_le _) (Nat.lt_succ_self _)

/-- The scan finds a log whole that holds nothing but records, if its window suffices. -/
theorem scanFull_whole_iff (h : scanFull log base = some scan) : scan.damaged = false ↔
    (readAll decodeRecord log).stop = .cleanEnd ∧ RecordCursor.windowSuffices log log.length
      readWindowBytes (log.length + 1) 0 0 = true := by
  have hiff : (RecordCursor.new log 0 log.length readWindowBytes).walk =
      RecordCursor.plainWalk log 0 log.length ↔ _ :=
    RecordCursor.walkFuel_eq_iff (.new log 0 log.length readWindowBytes)
  rw [scanFull_damaged h, ← plainWalk_readAll]
  constructor
  · rintro ⟨herror, -⟩
    have hwalk : (RecordCursor.new log 0 log.length readWindowBytes).walk =
        RecordCursor.plainWalk log 0 log.length :=
      (RecordCursor.walkFuel_cases (.new log 0 log.length readWindowBytes)).resolve_right
        fun hstop => hstop.1 herror
    exact ⟨hwalk ▸ herror, hiff.mp hwalk⟩
  · rintro ⟨herror, hsuffices⟩
    rw [hiff.mpr hsuffices]
    exact ⟨herror, plainWalk_end.mp herror⟩

end

end EventStream.Storage
