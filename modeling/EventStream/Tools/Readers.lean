import EventStream.Storage.Readers
import EventStream.Storage.Recovery

/-! The reader of records of the tools, which has a decoder of its own (`dump.rs`), against the
readers of the broker.

The decoder is the broker's (`dump_readRecord_eq`). `verify_segment` takes a file that ends inside
a length field for one that ends, which the recovery scan does not. The readers agree, and the tools
accept a segment exactly if the scan finds it whole, if and only if this does not happen and, of a
log of whole records, the window of the scan suffices (`readers_agree`). -/
namespace EventStream

open Storage (Record RecordDecodeError decodeRecord readFrom readAll CutInLength)

namespace Tools.Dump

/-- Offset, timestamp and the length of the key. -/
def headerLen : Nat := 8 + 8 + 4
def valueLenField : Nat := 4
def crcLen : Nat := 4
def recordLenField : Nat := 4
/-- The longest body that is read. -/
def maxRecordBodyBytes : Nat := 256 * 1024 * 1024

/-- `body[p..p + n]`. -/
def slice (body : Bytes) (p n : Nat) : Bytes := (body.drop p).take n

/-- `i32::from_be_bytes`. -/
def beInt32 (b : Bytes) : Int := if beNat b < 2 ^ 31 then beNat b else (beNat b : Int) - 2 ^ 32

/-- The key that starts at `p`, and the position behind it. -/
def readKey (body : Bytes) (keyLen : Int) (p pos : Nat) :
    Except RecordDecodeError (Option Bytes × Nat) :=
  if keyLen < 0 then
    if keyLen ≠ -1 then .error (.invalid pos "key_len negative != -1") else .ok (none, p)
  else
    let kl := keyLen.toNat
    if body.length < p + kl then .error (.truncated pos)
    else .ok (some (slice body p kl), p + kl)

/-- The fields of a body, and its checksum. -/
def readBody (body : Bytes) (pos : Nat) : Except RecordDecodeError Record := do
  let offset := beNat (slice body 0 8)
  let timestampMs := (UInt64.ofNat (beNat (slice body 8 8))).toInt64
  let keyLen := beInt32 (slice body 16 4)
  let (key, p) ← readKey body keyLen 20 pos
  if body.length < p + valueLenField then .error (.truncated pos)
  else
    let valueLen := beNat (slice body p 4)
    let p := p + 4
    if p + valueLen + crcLen ≠ body.length then
      .error (.invalid pos "value_len does not match remaining body")
    else
      let value := slice body p valueLen
      let p := p + valueLen
      let stored := beNat (slice body p 4)
      let computed := Storage.Checksum.crc32 (body.take p)
      if stored ≠ computed then .error (.crcMismatch pos stored computed)
      else .ok ⟨offset, timestampMs, key, value⟩

/-- `read_record`. A cut length field is taken for the end. -/
def readRecord (buf : Bytes) (pos : Nat) : Except RecordDecodeError (Record × Nat) :=
  if buf.length < recordLenField then .error .eof
  else
    let bodyLen := beNat (buf.take 4)
    if bodyLen < headerLen + valueLenField + crcLen then
      .error (.invalid pos "body_len below minimum")
    else if maxRecordBodyBytes < bodyLen then .error (.invalid pos "body_len exceeds maximum")
    else
      let body := slice buf 4 bodyLen
      if body.length < bodyLen then .error (.truncated pos)
      else do
        let r ← readBody body pos
        .ok (r, recordLenField + bodyLen)

/-! ### The decoder of the tools is the broker's -/

section
variable {body : Bytes} {pos : Nat}

section
variable (hbody : 20 ≤ body.length)
include hbody

theorem readKey_eq :
    Storage.decodeKey (beNat (slice body 16 4)) (body.drop 20) pos =
      (readKey body (beInt32 (slice body 16 4)) 20 pos).map fun found =>
        (found.1, body.drop found.2) := by
  have hraw : beNat (slice body 16 4) < 2 ^ 32 := by
    have hlt := beNat_lt (slice body 16 4)
    have hlen : (slice body 16 4).length ≤ 4 := List.length_take_le ..
    exact Nat.lt_of_lt_of_le hlt (Nat.pow_le_pow_right (by decide) hlen)
  unfold beInt32 Storage.decodeKey readKey
  generalize beNat (slice body 16 4) = raw at hraw
  rcases Nat.lt_or_ge raw (2 ^ 31) with hlow | hhigh
  · -- A key of that many bytes.
    rw [if_neg (Nat.not_le_of_lt hlow), if_pos hlow, if_neg (Int.not_lt.mpr (Int.natCast_nonneg _)),
      Int.toNat_natCast, List.length_drop]
    dsimp only
    by_cases hcut : body.length < 20 + raw
    · rw [if_pos (show body.length - 20 < raw by omega), if_pos hcut]
      rfl
    · rw [if_neg (show ¬ body.length - 20 < raw by omega), if_neg hcut, List.drop_drop]
      rfl
  · rw [if_pos hhigh, if_neg (Nat.not_lt_of_le hhigh),
      if_pos (show (raw : Int) - 2 ^ 32 < 0 by omega)]
    by_cases hnone : raw = 2 ^ 32 - 1
    · rw [if_neg (not_not.mpr hnone), if_neg (show ¬ (raw : Int) - 2 ^ 32 ≠ -1 by omega)]
      rfl
    · rw [if_pos hnone, if_pos (show (raw : Int) - 2 ^ 32 ≠ -1 by omega)]
      rfl

theorem readKey_le {keyLen : Int} {key : Option Bytes} {p : Nat}
    (h : readKey body keyLen 20 pos = .ok (key, p)) : p ≤ body.length := by
  unfold readKey at h
  split at h
  · split at h
    · cases h
    · cases h
      exact hbody
  · dsimp only at h
    split at h
    · cases h
    · cases h
      omega

theorem readBody_eq : readBody body pos = Storage.decodeBody body pos := by
  have hkey : Storage.decodeKey (beNat ((body.drop 16).take 4)) (body.drop 20) pos = _ :=
    readKey_eq hbody
  unfold readBody Storage.decodeBody
  rw [hkey]
  dsimp only
  cases hread : readKey body (beInt32 (slice body 16 4)) 20 pos with
  | error e => rfl
  | ok found =>
    obtain ⟨key, p⟩ := found
    have hp := readKey_le hbody hread
    simp only [bind, Except.bind, Except.map, Storage.decodeValue, List.length_drop,
      List.drop_drop]
    -- The two lengths are compared from the start here and from what is left there.
    have hcut : body.length < p + valueLenField ↔ body.length - p < Storage.valueLenField := by
      simp only [valueLenField, Storage.valueLenField]
      omega
    by_cases hshort : body.length < p + valueLenField
    · rw [if_pos hshort, if_pos (hcut.mp hshort)]
    rw [if_neg hshort, if_neg (mt hcut.mpr hshort)]
    simp only [slice, List.drop_zero]
    generalize hv : beNat ((body.drop p).take 4) = valueLen
    have hmatch : p + 4 + valueLen + crcLen ≠ body.length ↔
        valueLen + Storage.crcLen ≠ body.length - (p + 4) := by
      simp only [crcLen, Storage.crcLen]
      simp only [valueLenField] at hshort
      omega
    by_cases hlen : p + 4 + valueLen + crcLen ≠ body.length
    · rw [if_pos hlen, if_pos (hmatch.mp hlen)]
    -- The checksum is what is left, and it covers what is in front of it.
    have hend : body.length = p + 4 + valueLen + 4 := (not_not.mp hlen).symm
    have hfour : (body.drop (p + 4 + valueLen)).take 4 = body.drop (p + 4 + valueLen) :=
      List.take_of_length_le (by rw [List.length_drop]; omega)
    rw [if_neg hlen, if_neg (mt hmatch.mpr hlen), hfour]
    rw [show body.length - Storage.crcLen = p + 4 + valueLen by
      simp only [Storage.crcLen]
      omega]

end

end

/-- The tools and the broker read the same. -/
theorem dump_readRecord_eq (buf : Bytes) (pos : Nat) :
    readRecord buf pos = Storage.readRecord buf pos := by
  unfold readRecord Storage.readRecord
  by_cases hshort : buf.length < recordLenField
  · rw [if_pos hshort, if_pos (show buf.length < Storage.recordLenField from hshort)]
  rw [if_neg hshort, if_neg (show ¬ buf.length < Storage.recordLenField from hshort)]
  dsimp only
  generalize beNat (buf.take 4) = bodyLen
  unfold Storage.checkBodyLen
  by_cases hmin : bodyLen < headerLen + valueLenField + crcLen
  · rw [if_pos hmin, if_pos (show bodyLen < Storage.headerLen + Storage.valueLenField +
      Storage.crcLen from hmin)]
    rfl
  rw [if_neg hmin, if_neg (show ¬ bodyLen < Storage.headerLen + Storage.valueLenField +
    Storage.crcLen from hmin)]
  by_cases hmax : maxRecordBodyBytes < bodyLen
  · rw [if_pos hmax, if_pos (show Storage.maxRecordBodyBytes < bodyLen from hmax)]
    rfl
  rw [if_neg hmax, if_neg (show ¬ Storage.maxRecordBodyBytes < bodyLen from hmax)]
  simp only [bind, Except.bind]
  rw [slice]
  by_cases hcut : ((buf.drop 4).take bodyLen).length < bodyLen
  · rw [if_pos hcut, if_pos hcut]
  rw [if_neg hcut, if_neg hcut, readBody_eq (by
    simp only [headerLen, valueLenField, crcLen] at hmin
    omega)]
  rfl

end Tools.Dump

namespace Tools

/-! ### The verification of a segment -/

/-- The loop of `verify_segment`; every round reads a byte at least. -/
def verifyLoop : Nat → Bytes → Nat → Bool
  | 0, _, _ => true
  | fuel + 1, rest, pos =>
    if rest.isEmpty then true
    else match Dump.readRecord rest pos with
      | .ok (_, total) => verifyLoop fuel (rest.drop total) (pos + total)
      | .error .eof => true
      | .error _ => false

/-- `verify_segment`: the log is read to its end without an error. -/
def verifySegment (log : Bytes) : Bool := verifyLoop log.length log 0

variable {pos : Nat} {r : Record}

theorem readRecord_length {buf : Bytes} {n : Nat} (h : Dump.readRecord buf pos = .ok (r, n)) :
    Storage.recordLenField ≤ n := by
  rw [Dump.dump_readRecord_eq] at h
  rcases Nat.lt_or_ge buf.length Storage.recordLenField with hshort | hlong
  · rw [Storage.readRecord_short hshort] at h
    cases h
  · rw [Storage.readRecord_eq_decodeRecord hlong] at h
    exact (Storage.RecordCursor.decodeRecord_length h).1

/-- The loop accepts exactly what its reader reads to a clean end. -/
theorem verifyLoop_iff {fuel : Nat} {rest : Bytes} (hfuel : rest.length ≤ fuel) :
    verifyLoop fuel rest pos = true ↔
      (readFrom Dump.readRecord (fuel + 1) rest pos).stop = .cleanEnd := by
  induction fuel generalizing rest pos with
  | zero =>
    obtain rfl := List.length_eq_zero_iff.mp (Nat.le_zero.mp hfuel)
    exact iff_of_true rfl rfl
  | succ fuel ih =>
    rw [verifyLoop, readFrom]
    by_cases hempty : rest.isEmpty
    · rw [if_pos hempty, List.isEmpty_iff.mp hempty]
      exact iff_of_true rfl rfl
    rw [if_neg hempty]
    cases hread : Dump.readRecord rest pos with
    | ok found =>
      obtain ⟨r, n⟩ := found
      refine ih ?_
      have hn := readRecord_length hread
      have hpos : 0 < rest.length := List.length_pos_iff.mpr (mt List.isEmpty_iff.mpr hempty)
      rw [List.length_drop]
      simp only [Storage.recordLenField] at hn
      omega
    | error e =>
      cases e with
      | eof => exact iff_of_true rfl rfl
      | truncated | crcMismatch | invalid =>
        exact iff_of_false (by rintro ⟨⟩) (by rintro ⟨⟩)

theorem verifySegment_iff (log : Bytes) :
    verifySegment log = true ↔ (readAll Dump.readRecord log).stop = .cleanEnd :=
  verifyLoop_iff (Nat.le_refl _)

theorem dump_eq_readRecord : Dump.readRecord = Storage.readRecord :=
  funext fun buf => funext (Dump.dump_readRecord_eq buf)

/-- For every log: the three readers find the same records and stop for the same reason, and the
tools accept the log exactly if the recovery scan finds it whole, if and only if the log does not
end inside a length field and, if it holds whole records to its end, the window of the scan
suffices. -/
theorem readers_agree {log : Bytes} {base : Nat} {scan : Storage.SegmentScan}
    (hscan : Storage.scanFull log base = some scan) :
    ((readAll Storage.readRecord log).Same (readAll decodeRecord log) ∧
      (readAll Dump.readRecord log).Same (readAll decodeRecord log) ∧
      (verifySegment log = true ↔ scan.damaged = false)) ↔
    ¬ CutInLength log ∧ ((readAll decodeRecord log).stop = .cleanEnd →
      Storage.RecordCursor.windowSuffices log log.length Storage.readWindowBytes (log.length + 1)
        0 0 = true) := by
  have hwhole := Storage.scanFull_whole_iff hscan
  rw [verifySegment_iff, dump_eq_readRecord]
  constructor
  · rintro ⟨hsame, -, hverify⟩
    refine ⟨fun hcut => ?_, fun hclean => ?_⟩
    · obtain ⟨hread, hdecode⟩ := Storage.readFrom_cut hcut (Nat.lt_succ_self _)
      have hstop : Storage.Stop.cleanEnd = .truncated := hread.symm.trans (hsame.2.trans hdecode)
      cases hstop
    · exact (hwhole.mp (hverify.mp (hsame.2.trans hclean))).2
  · rintro ⟨hcut, hsuffices⟩
    have hsame : readAll Storage.readRecord log = readAll decodeRecord log :=
      Storage.readFrom_readRecord hcut
    rw [hsame, hwhole]
    exact ⟨⟨rfl, rfl⟩, ⟨rfl, rfl⟩, fun hclean => ⟨hclean, hsuffices hclean⟩, And.left⟩

/-- A log of two records. -/
def twoRecords : Bytes := Storage.encodeAll [⟨0, 0, none, [1]⟩, ⟨1, 0, some [7], [2, 3]⟩]

theorem readers_agree_two : ∃ scan, Storage.scanFull twoRecords 0 = some scan ∧
    scan.damaged = false ∧ verifySegment twoRecords = true := by
  obtain ⟨scan, hscan, hwhole⟩ := exists_of_any (o := Storage.scanFull twoRecords 0)
    (P := fun s => s.damaged = false) (by decide +kernel)
  exact ⟨scan, hscan, hwhole, ((readers_agree hscan).mpr ⟨by decide +kernel,
    fun _ => by decide +kernel⟩).2.2.mpr hwhole⟩

/-- One byte of a length field: the tools accept the file, the recovery finds it damaged. -/
theorem cut_length_accepted : (readAll Storage.readRecord [0]).stop = .cleanEnd ∧
    (readAll Dump.readRecord [0]).stop = .cleanEnd ∧
    (readAll decodeRecord [0]).stop = .truncated ∧ verifySegment [0] = true ∧
    (Storage.scanFull [0] 0).map (·.damaged) = some true := by
  decide

end Tools

end EventStream
