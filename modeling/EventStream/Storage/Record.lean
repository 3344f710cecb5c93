import EventStream.Machine

/-! Records on disk (`storage/record.rs`).

A record is written as its length, its fields and a checksum over the fields, all big
endian. What was written is read back (`decodeRecord_encode`), and a record of which only
a part was written is reported as torn (`decodeRecord_torn`). -/
namespace EventStream.Storage

structure Record where
  offset : Nat
  timestampMs : Int64
  key : Option Bytes
  value : Bytes
  deriving DecidableEq, Repr

/-- Why a record could not be read, and where it starts. -/
inductive RecordDecodeError where
  | eof
  | truncated (pos : Nat)
  | crcMismatch (pos stored computed : Nat)
  | invalid (pos : Nat) (reason : String)
  deriving DecidableEq, Repr

def headerLen : Nat := 8 + 8 + 4
def valueLenField : Nat := 4
def crcLen : Nat := 4
def recordLenField : Nat := 4
def maxRecordBodyBytes : Nat := 256 * 1024 * 1024

/-! ### The checksum -/

/-- What is asked of a checksum: it fits in its field. -/
class Checksum where
  crc32 : Bytes → Nat
  crc32_lt : ∀ b, crc32 b < 2 ^ 32

open Checksum

/-! ### Writing -/

def keyBytes (key : Option Bytes) : Bytes := key.getD []

/-- The key's length as an `i32`; all ones, which is -1, for no key. -/
def keyLenField (key : Option Bytes) : Bytes :=
  match key with
  | none => beBytes 4 (2 ^ 32 - 1)
  | some k => beBytes 4 k.length

/-- What the checksum covers. -/
def recordFields (r : Record) : Bytes :=
  beBytes 8 r.offset ++ (beBytes 8 r.timestampMs.toUInt64.toNat ++ (keyLenField r.key ++
    (keyBytes r.key ++ (beBytes 4 r.value.length ++ r.value))))

def bodyLen (r : Record) : Nat :=
  headerLen + (keyBytes r.key).length + valueLenField + r.value.length + crcLen

def encodeRecord [Checksum] (r : Record) : Bytes :=
  beBytes 4 (bodyLen r) ++ (recordFields r ++ beBytes 4 (crc32 (recordFields r)))

def recordDiskSize (keyLen : Option Nat) (valueLen : Nat) : Nat :=
  recordLenField + (headerLen + keyLen.getD 0 + valueLenField + valueLen + crcLen)

/-! ### Reading -/

def checkBodyLen (raw pos : Nat) : Except RecordDecodeError Nat :=
  if raw < headerLen + valueLenField + crcLen then .error (.invalid pos "body_len below minimum")
  else if maxRecordBodyBytes < raw then .error (.invalid pos "body_len exceeds maximum")
  else .ok raw

/-- The key at the start of what follows the key length, and the rest. -/
def decodeKey (rawLen : Nat) (rest : Bytes) (pos : Nat) :
    Except RecordDecodeError (Option Bytes × Bytes) :=
  if 2 ^ 31 ≤ rawLen then
    if rawLen ≠ 2 ^ 32 - 1 then .error (.invalid pos "key_len negative != -1")
    else .ok (none, rest)
  else if rest.length < rawLen then .error (.truncated pos)
  else .ok (some (rest.take rawLen), rest.drop rawLen)

/-- The value and the stored checksum. -/
def decodeValue (rest : Bytes) (pos : Nat) : Except RecordDecodeError (Bytes × Nat) :=
  if rest.length < valueLenField then .error (.truncated pos)
  else
    let valueLen := beNat (rest.take 4)
    let rest := rest.drop 4
    if valueLen + crcLen ≠ rest.length then
      .error (.invalid pos "value_len does not match remaining body")
    else .ok (rest.take valueLen, beNat (rest.drop valueLen))

def decodeBody [Checksum] (body : Bytes) (pos : Nat) : Except RecordDecodeError Record := do
  let (key, rest) ← decodeKey (beNat ((body.drop 16).take 4)) (body.drop 20) pos
  let (value, stored) ← decodeValue rest pos
  let computed := crc32 (body.take (body.length - crcLen))
  let r : Record :=
    { offset := beNat (body.take 8)
      timestampMs := (UInt64.ofNat (beNat ((body.drop 8).take 8))).toInt64
      key
      value }
  if stored ≠ computed then .error (.crcMismatch pos stored computed) else .ok r

/-- The record at the start of `buf` and its length; `buf` starts at `pos` in the file. -/
def decodeRecord [Checksum] (buf : Bytes) (pos : Nat) : Except RecordDecodeError (Record × Nat) :=
  if buf.isEmpty then .error .eof
  else if buf.length < recordLenField then .error (.truncated pos)
  else do
    let len ← checkBodyLen (beNat (buf.take 4)) pos
    let total := recordLenField + len
    if buf.length < total then .error (.truncated pos)
    else do
      let r ← decodeBody ((buf.drop 4).take len) pos
      .ok (r, total)

/-- The length of the record at the start of `buf`, if its length field is there. -/
def peekRecordLen (buf : Bytes) (pos : Nat) : Except RecordDecodeError (Option Nat) :=
  if buf.length < recordLenField then .ok none
  else do
    let len ← checkBodyLen (beNat (buf.take 4)) pos
    .ok (some (recordLenField + len))

/-! ### Round trip -/

/-- Default read window. -/
def readWindowBytes : Nat := 256 * 1024

/-- The largest record the smallest read window holds. -/
def maxRecordBytes : Nat := 16 * 1024

/-- A record whose fields have room in the format. -/
structure Record.Valid (r : Record) : Prop where
  offset : r.offset ≤ u64Max
  size : bodyLen r ≤ maxRecordBodyBytes

/-- A record that can be written as it is and that a scan of its log reads. -/
structure Record.Fits [Checksum] (r : Record) : Prop where
  offset : r.offset < u64Max
  size : (encodeRecord r).length ≤ readWindowBytes

/-- A record that every read window holds. -/
def Record.Small [Checksum] (r : Record) : Prop := (encodeRecord r).length ≤ maxRecordBytes

instance [Checksum] (r : Record) : Decidable r.Small := Nat.decLe _ _

@[simp] theorem length_keyLenField (key : Option Bytes) : (keyLenField key).length = 4 := by
  cases key <;> simp [keyLenField]

theorem length_recordFields (r : Record) :
    (recordFields r).length = 24 + (keyBytes r.key).length + r.value.length := by
  simp only [recordFields, List.length_append, length_beBytes, length_keyLenField]
  omega

theorem decodeKey_encode (key : Option Bytes) (rest : Bytes) (pos : Nat)
    (h : (keyBytes key).length < 2 ^ 31) :
    decodeKey (beNat (keyLenField key)) (keyBytes key ++ rest) pos = .ok (key, rest) := by
  cases key with
  | none =>
    rw [keyLenField, beNat_beBytes (by decide), decodeKey, if_pos (by decide), if_neg (by decide)]
    rfl
  | some k =>
    have h : k.length < 2 ^ 31 := h
    rw [keyLenField, beNat_beBytes (by omega), decodeKey, if_neg (by omega), keyBytes,
      Option.getD_some, if_neg (by simp), List.take_left, List.drop_left]

theorem decodeValue_encode (value : Bytes) (crc pos : Nat) (h : value.length < 2 ^ 32)
    (hc : crc < 2 ^ 32) :
    decodeValue (beBytes 4 value.length ++ (value ++ beBytes 4 crc)) pos = .ok (value, crc) := by
  have htake : (beBytes 4 value.length ++ (value ++ beBytes 4 crc)).take 4 =
      beBytes 4 value.length := List.take_left' (length_beBytes ..)
  have hdrop : (beBytes 4 value.length ++ (value ++ beBytes 4 crc)).drop 4 =
      value ++ beBytes 4 crc := List.drop_left' (length_beBytes ..)
  rw [decodeValue, if_neg (by simp [valueLenField]), htake, hdrop, beNat_beBytes (by omega)]
  dsimp only
  rw [if_neg (by simp [crcLen]), List.take_left, List.drop_left, beNat_beBytes (by omega)]

variable {r : Record} {pos : Nat} {rest body : Bytes}

theorem decodeKey_length {rawLen : Nat} {rest' : Bytes} {key : Option Bytes}
    (h : decodeKey rawLen rest pos = .ok (key, rest')) :
    (keyBytes key).length + rest'.length = rest.length := by
  unfold decodeKey at h
  split at h
  · split at h
    · cases h
    · cases h
      exact Nat.zero_add _
  · split at h
    · cases h
    · cases h
      rw [keyBytes, Option.getD_some, List.length_take, List.length_drop]
      omega

theorem decodeValue_length {stored : Nat} {value : Bytes}
    (h : decodeValue rest pos = .ok (value, stored)) : value.length + 8 = rest.length := by
  unfold decodeValue at h
  split at h
  · cases h
  · rename_i hlong
    dsimp only at h
    split at h
    · cases h
    · rename_i hlen
      cases h
      simp only [valueLenField, crcLen, List.length_drop, List.length_take] at *
      omega

theorem Record.Valid.bounds (h : r.Valid) :
    (keyBytes r.key).length < 2 ^ 31 ∧ r.value.length < 2 ^ 32 := by
  have hsize := h.size
  simp only [bodyLen, headerLen, valueLenField, crcLen, maxRecordBodyBytes] at hsize
  omega

section Coding
variable [Checksum]

theorem length_encodeRecord (r : Record) : (encodeRecord r).length = 4 + bodyLen r := by
  simp only [encodeRecord, List.length_append, length_beBytes, length_recordFields, bodyLen,
    headerLen, valueLenField, crcLen]
  omega

theorem recordDiskSize_eq (r : Record) :
    recordDiskSize (r.key.map List.length) r.value.length = (encodeRecord r).length := by
  rw [length_encodeRecord, bodyLen, recordDiskSize]
  cases r.key <;> rfl

theorem decodeBody_encode (r : Record) (pos : Nat) (ho : r.offset ≤ u64Max)
    (hk : (keyBytes r.key).length < 2 ^ 31) (hv : r.value.length < 2 ^ 32) :
    decodeBody (recordFields r ++ beBytes 4 (crc32 (recordFields r))) pos = .ok r := by
  obtain ⟨body, hbody⟩ : ∃ body, body = recordFields r ++ beBytes 4 (crc32 (recordFields r)) :=
    ⟨_, rfl⟩
  have hfields : body = beBytes 8 r.offset ++ (beBytes 8 r.timestampMs.toUInt64.toNat ++
      (keyLenField r.key ++ (keyBytes r.key ++ (beBytes 4 r.value.length ++
        (r.value ++ beBytes 4 (crc32 (recordFields r))))))) := by
    rw [hbody, recordFields]
    simp only [List.append_assoc]
  have hoffset : body.take 8 = beBytes 8 r.offset := by
    rw [hfields, List.take_left' (length_beBytes ..)]
  have htime : (body.drop 8).take 8 = beBytes 8 r.timestampMs.toUInt64.toNat := by
    rw [hfields, List.drop_left' (length_beBytes ..), List.take_left' (length_beBytes ..)]
  have hlen : (body.drop 16).take 4 = keyLenField r.key := by
    rw [hfields, show 16 = 8 + 8 from rfl, ← List.drop_drop, List.drop_left' (length_beBytes ..),
      List.drop_left' (length_beBytes ..), List.take_left' (length_keyLenField _)]
  have hrest : body.drop 20 = keyBytes r.key ++ (beBytes 4 r.value.length ++
      (r.value ++ beBytes 4 (crc32 (recordFields r)))) := by
    rw [hfields, show 20 = 8 + 8 + 4 from rfl, ← List.drop_drop, ← List.drop_drop,
      List.drop_left' (length_beBytes ..), List.drop_left' (length_beBytes ..),
      List.drop_left' (length_keyLenField _)]
  have hcover : body.take (body.length - crcLen) = recordFields r := by
    rw [hbody, List.length_append, length_beBytes]
    exact List.take_left
  rw [← hbody, decodeBody, hoffset, htime, hlen, hrest, hcover, decodeKey_encode _ _ _ hk]
  simp only [bind, Except.bind, decodeValue_encode _ _ _ hv (crc32_lt _), ne_eq, not_true_eq_false,
    if_false]
  rw [beNat_beBytes (by have : u64Max < 256 ^ 8 := by decide
                        omega), beNat_beBytes (UInt64.toNat_lt _)]
  simp

theorem Record.Fits.valid (h : r.Fits) : r.Valid where
  offset := Nat.le_of_lt h.offset
  size := by
    have hsize := h.size
    rw [length_encodeRecord] at hsize
    simp only [readWindowBytes, maxRecordBodyBytes] at *
    omega

section
variable (h : r.Valid)
include h

theorem checkBodyLen_encode (rest : Bytes) (pos : Nat) :
    checkBodyLen (beNat ((encodeRecord r ++ rest).take 4)) pos = .ok (bodyLen r) := by
  have hbody := h.size
  rw [encodeRecord, List.append_assoc, List.take_left' (length_beBytes ..),
    beNat_beBytes (by simp only [maxRecordBodyBytes] at hbody; omega), checkBodyLen, if_neg,
    if_neg (Nat.not_lt_of_le hbody)]
  simp only [bodyLen]
  omega

/-- **Round trip.** A record that was written is read back, whatever follows it. -/
theorem decodeRecord_encode (rest : Bytes) (pos : Nat) :
    decodeRecord (encodeRecord r ++ rest) pos = .ok (r, (encodeRecord r).length) := by
  obtain ⟨hk, hv⟩ := h.bounds
  have hlen := length_encodeRecord r
  have hbody : ((encodeRecord r ++ rest).drop 4).take (bodyLen r) =
      recordFields r ++ beBytes 4 (crc32 (recordFields r)) := by
    rw [encodeRecord, List.append_assoc, List.drop_left' (length_beBytes ..), List.take_left']
    have := congrArg List.length (show encodeRecord r = _ from rfl)
    simp only [encodeRecord, List.length_append, length_beBytes] at hlen ⊢
    omega
  rw [decodeRecord, if_neg, if_neg, checkBodyLen_encode h]
  · simp only [bind, Except.bind, hbody, decodeBody_encode r pos h.offset hk hv]
    rw [if_neg, hlen]
    · rfl
    · rw [List.length_append, hlen]
      simp only [recordLenField]
      omega
  · rw [List.length_append, hlen]
    simp only [recordLenField]
    omega
  · simp [encodeRecord, beBytes]

/-- A record of which only a part was written is torn. -/
theorem decodeRecord_torn {k : Nat} (h0 : 0 < k) (hk : k < (encodeRecord r).length) (pos : Nat) :
    decodeRecord ((encodeRecord r).take k) pos = .error (.truncated pos) := by
  have hlen : ((encodeRecord r).take k).length = k := by
    rw [List.length_take, Nat.min_eq_left (Nat.le_of_lt hk)]
  rw [decodeRecord, if_neg (by rw [List.isEmpty_iff, ← List.length_eq_zero_iff]; omega)]
  by_cases hshort : k < 4
  · rw [if_pos (by rw [hlen]; exact hshort)]
  · have htake : ((encodeRecord r).take k).take 4 = (encodeRecord r ++ []).take 4 := by
      rw [List.take_take, Nat.min_eq_left (by omega), List.append_nil]
    rw [if_neg (by rw [hlen]; exact hshort), htake, checkBodyLen_encode h]
    simp only [bind, Except.bind]
    rw [if_pos]
    rw [hlen, recordLenField, ← length_encodeRecord]
    exact hk

end

/-! ### What is read is valid -/

/-- A record that was decoded fills the body it was decoded from. -/
theorem decodeBody_length (hbody : 20 ≤ body.length) (h : decodeBody body pos = .ok r) :
    bodyLen r = body.length := by
  unfold decodeBody at h
  simp only [bind, Except.bind] at h
  split at h
  · cases h
  · rename_i hkey
    split at h
    · cases h
    · rename_i hvalue
      split at h
      · cases h
      · cases h
        have h1 := decodeKey_length hkey
        have h2 := decodeValue_length hvalue
        rw [List.length_drop] at h1
        simp only [bodyLen, headerLen, valueLenField, crcLen]
        omega

theorem decodeBody_offset (h : decodeBody body pos = .ok r) : r.offset ≤ u64Max := by
  unfold decodeBody at h
  simp only [bind, Except.bind] at h
  split at h
  · cases h
  · split at h
    · cases h
    · split at h
      · cases h
      · cases h
        have hlt := beNat_lt (body.take 8)
        have hlen : (body.take 8).length ≤ 8 := List.length_take_le ..
        have hpow : 256 ^ (body.take 8).length ≤ 256 ^ 8 := Nat.pow_le_pow_right (by decide) hlen
        have hmax : 256 ^ 8 = u64Max + 1 := by decide
        show beNat (body.take 8) ≤ u64Max
        omega

theorem decodeRecord_valid {buf : Bytes} {n : Nat} (h : decodeRecord buf pos = .ok (r, n)) :
    r.Valid := by
  unfold decodeRecord at h
  split at h
  · cases h
  · split at h
    · cases h
    · simp only [bind, Except.bind] at h
      split at h
      · cases h
      · rename_i len hlen
        split at h
        · cases h
        · rename_i hwhole
          split at h
          · cases h
          · rename_i hdecode
            cases h
            unfold checkBodyLen at hlen
            split at hlen
            · cases hlen
            · split at hlen
              · cases hlen
              · rename_i hmin hmax
                cases hlen
                simp only [recordLenField, headerLen, valueLenField, crcLen] at *
                have hbody := decodeBody_length (by
                  rw [List.length_take, List.length_drop]
                  omega) hdecode
                refine ⟨decodeBody_offset hdecode, ?_⟩
                rw [hbody, List.length_take]
                omega

/-- The bytes of a log that holds `rs`. -/
def encodeAll (rs : List Record) : Bytes := rs.flatMap encodeRecord

@[simp] theorem encodeAll_nil : encodeAll [] = [] := rfl

@[simp] theorem encodeAll_cons (r : Record) (rs : List Record) :
    encodeAll (r :: rs) = encodeRecord r ++ encodeAll rs := rfl

@[simp] theorem encodeAll_append (rs bs : List Record) :
    encodeAll (rs ++ bs) = encodeAll rs ++ encodeAll bs := List.flatMap_append

theorem length_encodeRecord_pos (r : Record) : 0 < (encodeRecord r).length := by
  rw [length_encodeRecord]
  omega

theorem length_le_encodeAll (rs : List Record) : rs.length ≤ (encodeAll rs).length := by
  induction rs with
  | nil => exact Nat.le_refl _
  | cons r rs ih =>
    have := length_encodeRecord_pos r
    rw [List.length_cons, encodeAll_cons, List.length_append]
    omega

end Coding

/-! ### CRC-32 -/

/-- One bit of the CRC-32 of IEEE 802.3, low bit first. -/
def crcBit (c : UInt32) : UInt32 := if c &&& 1 = 1 then (c >>> 1) ^^^ 0xEDB88320 else c >>> 1

def crcByte (c : UInt32) (b : UInt8) : UInt32 := (crcBit^[8]) (c ^^^ b.toUInt32)

/-- The checksum of the segments and of Raft's log. -/
instance : Checksum where
  crc32 b := ((b.foldl crcByte 0xFFFFFFFF) ^^^ 0xFFFFFFFF).toNat
  crc32_lt _ := UInt32.toNat_lt _

end EventStream.Storage
