import Mathlib.Data.UInt
import EventStream.Machine
import EventStream.Reading

/-! The produce request of the binary protocol and its encoding (`es-protocol/src/wire.rs`).

Numbers are big endian. An optional byte string has an `i32` length of which -1 says that
there is none; an optional partition is an `i32`, of which every negative value says so; an
optional sequence number is an `i64`, of which the smallest says so. A reader takes no notice
of what follows the message it reads. -/
namespace EventStream.Binary

open Reading (Reader Reads many)

/-- The kinds of `io::Error` that reading gives. -/
inductive ErrorKind where
  | unexpectedEof
  | invalidData
  deriving DecidableEq, Repr

/-- An `io::Error`. The text of a failed UTF-8 check goes on with where it failed, which is
left out. -/
structure WireError where
  kind : ErrorKind
  message : String
  deriving DecidableEq, Repr

/-- A record of a produce request. -/
structure WireProduceRecord where
  key : Option Bytes
  value : Bytes
  partition : Option UInt32
  sequence : Option Int64
  deriving DecidableEq, Repr

/-- A produce request as it is on the wire. -/
structure WireProduceRequest where
  topic : String
  producerId : Option String
  records : List WireProduceRecord
  deriving DecidableEq, Repr

/-! ### Writing

Each `put` gives the bytes that `WireBuf` appends. -/

/-- A string as UTF-8. -/
def asBytes (s : String) : Bytes := s.toUTF8.data.toList

def putU16 (v : UInt16) : Bytes := beBytes 2 v.toNat
def putU32 (v : UInt32) : Bytes := beBytes 4 v.toNat
def putI32 (v : Int32) : Bytes := putU32 v.toUInt32
def putU64 (v : UInt64) : Bytes := beBytes 8 v.toNat
def putI64 (v : Int64) : Bytes := putU64 v.toUInt64

/-- The length has two bytes: that of a longer string is cut to its last 16 bits. -/
def putStr (s : String) : Bytes := putU16 (.ofNat (asBytes s).length) ++ asBytes s

/-- A byte string, or the length -1. -/
def putOptBytesI32 : Option Bytes → Bytes
  | none => putI32 (-1)
  | some b => putI32 (.ofNat b.length) ++ b

/-- A byte string behind four bytes of length. -/
def putValue (v : Bytes) : Bytes := putU32 (.ofNat v.length) ++ v

/-- A string, or the length -1. -/
def putOptStringI32 (v : Option String) : Bytes := putOptBytesI32 (v.map asBytes)

/-- A number below `2 ^ 31`, or -1. -/
def putOptU32Neg : Option UInt32 → Bytes
  | none => putI32 (-1)
  | some n => putI32 n.toInt32

/-- A number, or the smallest one. -/
def putOptI64Min : Option Int64 → Bytes
  | none => putI64 Int64.minValue
  | some n => putI64 n

/-! ### Reading -/

/-- A reader of bytes that may fail with an `io::Error`. -/
abbrev WireReader := Reader UInt8 WireError

/-- The error of a read past the end. -/
def shortRead : WireError := ⟨.unexpectedEof, "short read in wire decode"⟩

def getBytes (n : Nat) : WireReader Bytes := Reading.take shortRead n

def getU16 : WireReader UInt16 := do
  let b ← getBytes 2
  return .ofNat (beNat b)

def getU32 : WireReader UInt32 := do
  let b ← getBytes 4
  return .ofNat (beNat b)

def getI32 : WireReader Int32 := do
  let v ← getU32
  return v.toInt32

def getU64 : WireReader UInt64 := do
  let b ← getBytes 8
  return .ofNat (beNat b)

def getI64 : WireReader Int64 := do
  let v ← getU64
  return v.toInt64

/-- `String::from_utf8`; `message` begins the error. -/
def fromUtf8 (message : String) (raw : Bytes) : WireReader String :=
  match String.fromUTF8? ⟨raw.toArray⟩ with
  | some s => pure s
  | none => Reading.fail ⟨.invalidData, message⟩

/-- A string behind two bytes of length. -/
def getStr : WireReader String := do
  let n ← getU16
  let raw ← getBytes n.toNat
  fromUtf8 "non-utf8 string: " raw

/-- Every negative length says that there is none. -/
def getOptBytesI32 : WireReader (Option Bytes) := do
  let len ← getI32
  if len < 0 then return none
  else do
    let b ← getBytes len.toNatClampNeg
    return some b

/-- A byte string behind four bytes of length. -/
def getValue : WireReader Bytes := do
  let n ← getU32
  getBytes n.toNat

/-- As `getOptBytesI32`, in UTF-8. -/
def getOptStringI32 : WireReader (Option String) := do
  let len ← getI32
  if len < 0 then return none
  else do
    let raw ← getBytes len.toNatClampNeg
    let s ← fromUtf8 "non-utf8: " raw
    return some s

/-- Every negative number says that there is none. -/
def getOptU32Neg : WireReader (Option UInt32) := do
  let v ← getI32
  return if v < 0 then none else some v.toUInt32

/-- The smallest number says that there is none. -/
def getOptI64Min : WireReader (Option Int64) := do
  let v ← getI64
  return if v = Int64.minValue then none else some v

/-! ### The messages -/

/-- A record, field by field. -/
def encodeProduceRecord (r : WireProduceRecord) : Bytes :=
  putOptBytesI32 r.key ++ (putValue r.value ++ (putOptU32Neg r.partition ++
    putOptI64Min r.sequence))

/-- Topic, producer and the records behind their number. -/
def encodeProduceRequest (req : WireProduceRequest) : Bytes :=
  putStr req.topic ++ (putOptStringI32 req.producerId ++ (putU32 (.ofNat req.records.length) ++
    req.records.flatMap encodeProduceRecord))

/-- Reads what `encodeProduceRecord` writes. -/
def getProduceRecord : WireReader WireProduceRecord := do
  let key ← getOptBytesI32
  let value ← getValue
  let partition ← getOptU32Neg
  let sequence ← getOptI64Min
  return { key, value, partition, sequence }

/-- Reads what `encodeProduceRequest` writes. -/
def getProduceRequest : WireReader WireProduceRequest := do
  let topic ← getStr
  let producerId ← getOptStringI32
  let n ← getU32
  let records ← many getProduceRecord n.toNat
  return { topic, producerId, records }

/-- A reader over a whole frame; what is left of the frame is not looked at. -/
def decodeWith {α : Type} (m : WireReader α) (bytes : Bytes) : Except WireError α :=
  (m.run bytes).map Prod.fst

/-- Reads a request from a frame. -/
def decodeProduceRequest : Bytes → Except WireError WireProduceRequest :=
  decodeWith getProduceRequest

/-! ### What is read back -/

variable {α : Type} {n : Nat}

theorem decodeWith_of_reads {m : WireReader α} {bytes : Bytes} {a : α} (h : Reads m bytes a) :
    decodeWith m bytes = .ok a := by
  have h := h []
  rw [List.append_nil] at h
  exact congrArg (Except.map Prod.fst) h

theorem reads_getBytes (b : Bytes) (h : b.length = n) : Reads (getBytes n) b b :=
  h ▸ Reads.take shortRead b

theorem reads_u16 (v : UInt16) : Reads getU16 (putU16 v) v := by
  have h := (reads_getBytes (putU16 v) (length_beBytes ..)).map (fun b => UInt16.ofNat (beNat b))
  rwa [putU16, beNat_beBytes v.toNat_lt, UInt16.ofNat_toNat] at h

theorem reads_u32 (v : UInt32) : Reads getU32 (putU32 v) v := by
  have h := (reads_getBytes (putU32 v) (length_beBytes ..)).map (fun b => UInt32.ofNat (beNat b))
  rwa [putU32, beNat_beBytes v.toNat_lt, UInt32.ofNat_toNat] at h

theorem reads_u64 (v : UInt64) : Reads getU64 (putU64 v) v := by
  have h := (reads_getBytes (putU64 v) (length_beBytes ..)).map (fun b => UInt64.ofNat (beNat b))
  rwa [putU64, beNat_beBytes v.toNat_lt, UInt64.ofNat_toNat] at h

theorem reads_i32 (v : Int32) : Reads getI32 (putI32 v) v := by
  have h := (reads_u32 v.toUInt32).map UInt32.toInt32
  rwa [Int32.toInt32_toUInt32] at h

theorem reads_i64 (v : Int64) : Reads getI64 (putI64 v) v := by
  have h := (reads_u64 v.toUInt64).map UInt64.toInt64
  rwa [Int64.toInt64_toUInt64] at h

/-- A length below `2 ^ 31` is a length as an `i32`. -/
theorem ofNat_length (h : n < 2 ^ 31) :
    ¬ Int32.ofNat n < 0 ∧ (Int32.ofNat n).toNatClampNeg = n := by
  have hval : (Int32.ofNat n).toInt = n := Int32.toInt_ofNat_of_lt h
  constructor
  · rw [Int32.lt_iff_toInt_lt, hval]
    simp
  · rw [Int32.toNatClampNeg, hval]
    rfl

theorem reads_value {v : Bytes} (h : v.length < 2 ^ 32) : Reads getValue (putValue v) v :=
  (reads_u32 _).bind (reads_getBytes v (UInt32.toNat_ofNat_of_lt' h).symm)

theorem reads_optBytes {v : Option Bytes} (h : ∀ b ∈ v, b.length < 2 ^ 31) :
    Reads getOptBytesI32 (putOptBytesI32 v) v := by
  cases v with
  | none => exact (reads_i32 (-1)).bind (Reads.pure none)
  | some b =>
    obtain ⟨hpos, hlen⟩ := ofNat_length (h b rfl)
    refine (reads_i32 (.ofNat b.length)).bind ?_
    rw [if_neg hpos]
    exact (reads_getBytes b hlen.symm).map some

theorem fromUtf8_asBytes (message s : String) : fromUtf8 message (asBytes s) = pure s := by
  have h : String.fromUTF8? ⟨(asBytes s).toArray⟩ = some s := by
    show String.fromUTF8? s.toByteArray = some s
    rw [String.fromUTF8?, dif_pos s.isValidUTF8]
    rfl
  rw [fromUtf8, h]

theorem reads_str {s : String} (h : (asBytes s).length < 2 ^ 16) : Reads getStr (putStr s) s := by
  refine (reads_u16 _).bind ?_
  have hraw := reads_getBytes (n := (UInt16.ofNat (asBytes s).length).toNat) (asBytes s)
    (UInt16.toNat_ofNat_of_lt' h).symm
  have htext : Reads (fromUtf8 "non-utf8 string: " (asBytes s)) [] s := by
    rw [fromUtf8_asBytes]
    exact Reads.pure s
  have hs := hraw.bind (f := fromUtf8 "non-utf8 string: ") htext
  rwa [List.append_nil] at hs

theorem reads_optString {v : Option String} (h : ∀ s ∈ v, (asBytes s).length < 2 ^ 31) :
    Reads getOptStringI32 (putOptStringI32 v) v := by
  cases v with
  | none => exact (reads_i32 (-1)).bind (Reads.pure none)
  | some s =>
    obtain ⟨hpos, hlen⟩ := ofNat_length (h s rfl)
    refine (reads_i32 (.ofNat (asBytes s).length)).bind ?_
    rw [if_neg hpos]
    have htext :
        Reads (do let t ← fromUtf8 "non-utf8: " (asBytes s); return some t) [] (some s) := by
      rw [fromUtf8_asBytes]
      exact Reads.pure (some s)
    have hs := (reads_getBytes (asBytes s) hlen.symm).bind
      (f := fun raw => do let t ← fromUtf8 "non-utf8: " raw; return some t) htext
    rwa [List.append_nil] at hs

theorem toInt32_neg_iff (n : UInt32) : n.toInt32 < 0 ↔ ¬ n < 2 ^ 31 := by
  have hneg : n.toInt32 < 0 ↔ 2 ^ 32 ≤ 2 * n.toNat := by
    rw [Int32.lt_iff_toInt_lt]
    exact BitVec.toInt_neg_iff
  rw [hneg, UInt32.lt_iff_toNat_lt]
  have h31 : (2 ^ 31 : UInt32).toNat = 2 ^ 31 := by decide
  omega

/-- A partition from `2 ^ 31` on is read as none. -/
theorem reads_optU32 (v : Option UInt32) :
    Reads getOptU32Neg (putOptU32Neg v) (v.filter (· < 2 ^ 31)) := by
  cases v with
  | none => exact (reads_i32 (-1)).map fun v => if v < 0 then none else some v.toUInt32
  | some n =>
    have h := (reads_i32 n.toInt32).map fun v => if v < 0 then none else some v.toUInt32
    have hread : (if n.toInt32 < 0 then none else some n.toInt32.toUInt32) =
        (some n).filter (· < 2 ^ 31) := by
      by_cases hn : n < 2 ^ 31
      · rw [if_neg (not_not_intro hn ∘ (toInt32_neg_iff n).mp), UInt32.toUInt32_toInt32]
        simp [Option.filter, hn]
      · rw [if_pos ((toInt32_neg_iff n).mpr hn)]
        simp [Option.filter, hn]
    exact hread ▸ h

/-- The smallest sequence number is read as none. -/
theorem reads_optI64 (v : Option Int64) :
    Reads getOptI64Min (putOptI64Min v) (v.filter (· ≠ Int64.minValue)) := by
  cases v with
  | none =>
    exact (reads_i64 Int64.minValue).map fun v => if v = Int64.minValue then none else some v
  | some n =>
    have h := (reads_i64 n).map fun v => if v = Int64.minValue then none else some v
    have hread : (if n = Int64.minValue then none else some n) =
        (some n).filter (· ≠ Int64.minValue) := by
      by_cases hn : n = Int64.minValue <;> simp [Option.filter, hn]
    exact hread ▸ h

/-! ### Produce requests -/

/-- What the length fields of a record can say. -/
def WireProduceRecord.Fits (r : WireProduceRecord) : Prop :=
  (∀ k ∈ r.key, k.length ≤ 2 ^ 31 - 1) ∧ r.value.length < 2 ^ 32

/-- What the length fields of a request can say. -/
structure WireProduceRequest.Fits (req : WireProduceRequest) : Prop where
  topic : (asBytes req.topic).length ≤ 65535
  producerId : ∀ s ∈ req.producerId, (asBytes s).length ≤ 2 ^ 31 - 1
  count : req.records.length < 2 ^ 32
  records : ∀ r ∈ req.records, r.Fits

/-- What a record is read as. -/
def WireProduceRecord.asRead (r : WireProduceRecord) : WireProduceRecord :=
  { r with
    partition := r.partition.filter (· < 2 ^ 31)
    sequence := r.sequence.filter (· ≠ Int64.minValue) }

theorem reads_produceRecord {r : WireProduceRecord} (h : r.Fits) :
    Reads getProduceRecord (encodeProduceRecord r) r.asRead := by
  have hkey : ∀ k ∈ r.key, k.length < 2 ^ 31 := fun k hk => by have := h.1 k hk; omega
  exact (reads_optBytes hkey).bind ((reads_value h.2).bind ((reads_optU32 r.partition).bind
    ((reads_optI64 r.sequence).map _)))

theorem decodeProduceRequest_encode {req : WireProduceRequest} (h : req.Fits) :
    decodeProduceRequest (encodeProduceRequest req) =
      .ok { req with records := req.records.map WireProduceRecord.asRead } := by
  have htopic : (asBytes req.topic).length < 2 ^ 16 := by have := h.topic; omega
  have hpid : ∀ s ∈ req.producerId, (asBytes s).length < 2 ^ 31 :=
    fun s hs => by have := h.producerId s hs; omega
  have hcount : (UInt32.ofNat req.records.length).toNat = req.records.length :=
    UInt32.toNat_ofNat_of_lt' h.count
  have hrecords := Reads.many (m := getProduceRecord) fun r hr =>
    reads_produceRecord (h.records r hr)
  rw [← hcount] at hrecords
  exact decodeWith_of_reads ((reads_str htopic).bind ((reads_optString hpid).bind
    ((reads_u32 _).bind (hrecords.map _))))

theorem WireProduceRecord.asRead_eq_iff (r : WireProduceRecord) :
    r.asRead = r ↔ (∀ p ∈ r.partition, p < 2 ^ 31) ∧ r.sequence ≠ some Int64.minValue := by
  obtain ⟨key, value, partition, sequence⟩ := r
  cases partition <;> cases sequence <;> simp [asRead, Option.filter]

theorem map_eq_self_iff {f : α → α} {l : List α} : l.map f = l ↔ ∀ a ∈ l, f a = a := by
  induction l with
  | nil => simp
  | cons a l ih => simp [ih]

/-- A request that the length fields can describe is read back exactly when every partition
it names is below `2 ^ 31` and no sequence number is the smallest `i64`. -/
theorem produceRequest_survives_iff {req : WireProduceRequest} (h : req.Fits) :
    decodeProduceRequest (encodeProduceRequest req) = .ok req ↔
      ∀ r ∈ req.records, (∀ p ∈ r.partition, p < 2 ^ 31) ∧
        r.sequence ≠ some Int64.minValue := by
  have hsame : ({ req with records := req.records.map WireProduceRecord.asRead } :
      WireProduceRequest) = req ↔ req.records.map WireProduceRecord.asRead = req.records := by
    cases req
    simp
  rw [decodeProduceRequest_encode h, Except.ok.injEq, hsame, map_eq_self_iff]
  exact forall₂_congr fun r _ => r.asRead_eq_iff

/-- A record that names partition 7, with a sequence number. -/
def namedRecord : WireProduceRecord :=
  { key := some [1], value := [2, 3], partition := some 7, sequence := some 42 }

theorem produceRequest_survives_iff_named :
    decodeProduceRequest (encodeProduceRequest ⟨"orders", some "pid", [namedRecord]⟩) =
      .ok ⟨"orders", some "pid", [namedRecord]⟩ := by
  have hfits : (⟨"orders", some "pid", [namedRecord]⟩ : WireProduceRequest).Fits := by
    refine ⟨by decide, ?_, by decide, ?_⟩
    · rintro s ⟨⟩
      decide
    · intro r hr
      obtain rfl := List.mem_singleton.mp hr
      exact ⟨by rintro k ⟨⟩; decide, by decide⟩
  refine (produceRequest_survives_iff hfits).mpr fun r hr => ?_
  obtain rfl := List.mem_singleton.mp hr
  exact ⟨by rintro p ⟨⟩; decide, by decide⟩

/-- One record names partition `2 ^ 31`, the other has the smallest sequence number. -/
def extremeRequest : WireProduceRequest :=
  { topic := "t"
    producerId := none
    records := [⟨none, [], some (2 ^ 31), none⟩, ⟨none, [], none, some Int64.minValue⟩] }

/-- The partition that the client names is gone after the round trip, and so is the sequence
number. -/
theorem named_partition_dropped :
    extremeRequest.Fits ∧
    decodeProduceRequest (encodeProduceRequest extremeRequest) =
      .ok { extremeRequest with records := [⟨none, [], none, none⟩, ⟨none, [], none, none⟩] } ∧
    decodeProduceRequest (encodeProduceRequest extremeRequest) ≠ .ok extremeRequest := by
  refine ⟨⟨by decide, by rintro s ⟨⟩, by decide, ?_⟩, by decide +kernel, by decide +kernel⟩
  intro r hr
  simp only [extremeRequest, List.mem_cons, List.not_mem_nil, or_false] at hr
  rcases hr with rfl | rfl <;> exact ⟨by rintro k ⟨⟩, by decide⟩

end EventStream.Binary
