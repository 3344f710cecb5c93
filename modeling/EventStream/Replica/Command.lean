import EventStream.Raft.Messages
import EventStream.Storage.Partition

/-! The data entries of a replicated partition (`raft_partition.rs`).

A produce request becomes one log entry that carries its records, the offset of the first of
them and their timestamps. Older entries carry a single record and no offset. What is encoded
is read back (`decodeCommand_encodeBatch`), and the span of a batch can be read without its
records (`batchSpan_encodeBatch`). -/
namespace EventStream.Replica

open Storage (AppendRecord keyBytes keyLenField)

/-- The version tag of a data entry. -/
def entryV1 : UInt8 := 0x01

/-- One record of a batch as it is decoded: timestamp, key and value. -/
structure BatchRecord where
  timestampMs : Int64
  key : Option Bytes
  value : Bytes
  deriving DecidableEq, Repr

/-- A decoded data entry; `legacy` is the format from before batches. -/
inductive Command where
  | batch (proposal baseOffset : Nat) (records : List BatchRecord)
  | legacy (key : Option Bytes) (value : Bytes)
  deriving DecidableEq, Repr

/-! ### Writing -/

/-- A record of a batch; `ts` is its timestamp if it has none. -/
def encodeBatchRecord (ts : Int64) (r : AppendRecord) : Bytes :=
  beBytes 8 (r.timestampMs.getD ts).toUInt64.toNat ++ (keyLenField r.key ++
    (keyBytes r.key ++ (beBytes 4 r.value.length ++ r.value)))

def encodeBatch (proposal baseOffset : Nat) (ts : Int64) (records : List AppendRecord) : Bytes :=
  entryV1 :: (beBytes 8 proposal ++ (beBytes 8 baseOffset ++ (beBytes 4 records.length ++
    records.flatMap (encodeBatchRecord ts))))

/-! ### Reading

A cursor is what is left of the entry. Each reader gives what it read and what is left. -/

namespace Cur

def take (n : Nat) (b : Bytes) : Except String (Bytes × Bytes) :=
  if n ≤ b.length then .ok (b.take n, b.drop n) else .error "entry truncated"

def u32 (b : Bytes) : Except String (Nat × Bytes) := do
  let (x, b) ← take 4 b
  .ok (beNat x, b)

def u64 (b : Bytes) : Except String (Nat × Bytes) := do
  let (x, b) ← take 8 b
  .ok (beNat x, b)

/-- A length that is negative as an `i32` stands for no bytes. -/
def optBytes (b : Bytes) : Except String (Option Bytes × Bytes) := do
  let (n, b) ← u32 b
  if 2 ^ 31 ≤ n then .ok (none, b)
  else do
    let (x, b) ← take n b
    .ok (some x, b)

def bytes (b : Bytes) : Except String (Bytes × Bytes) := do
  let (n, b) ← u32 b
  take n b

end Cur

/-- The record at the cursor. -/
def decodeBatchRecord (b : Bytes) : Except String (BatchRecord × Bytes) := do
  let (ts, b) ← Cur.u64 b
  let (key, b) ← Cur.optBytes b
  let (value, b) ← Cur.bytes b
  .ok (⟨(UInt64.ofNat ts).toInt64, key, value⟩, b)

/-- The loop over the records of a batch. -/
def decodeBatchRecords : Nat → Bytes → Except String (List BatchRecord × Bytes)
  | 0, b => .ok ([], b)
  | n + 1, b => do
    let (r, b) ← decodeBatchRecord b
    let (rs, b) ← decodeBatchRecords n b
    .ok (r :: rs, b)

def decodeCommand (payload : Bytes) : Except String Command :=
  if payload.head? = some entryV1 then do
    let (proposal, b) ← Cur.u64 payload.tail
    let (baseOffset, b) ← Cur.u64 b
    let (n, b) ← Cur.u32 b
    let (records, b) ← decodeBatchRecords n b
    if b.isEmpty then .ok (.batch proposal baseOffset records)
    else .error "trailing bytes after batch entry"
  else do
    let (key, b) ← Cur.optBytes payload
    let (value, b) ← Cur.bytes b
    if b.isEmpty then .ok (.legacy key value)
    else .error "trailing bytes after append command"

/-- The offset and the number of the records of a batch, without the records. -/
def batchSpan (payload : Bytes) : Option (Nat × Nat) :=
  if payload.length < 21 ∨ payload.head? ≠ some entryV1 then none
  else some (beNat ((payload.drop 9).take 8), beNat ((payload.drop 17).take 4))

/-! ### What is read back -/

@[simp] theorem Cur.take_append {n : Nat} {xs : Bytes} (h : xs.length = n) (rest : Bytes) :
    Cur.take n (xs ++ rest) = .ok (xs, rest) := by
  rw [Cur.take, if_pos (by rw [List.length_append]; omega), List.take_left' h, List.drop_left' h]

variable {x proposal baseOffset : Nat}

theorem Cur.u32_append (h : x < 2 ^ 32) (rest : Bytes) :
    Cur.u32 (beBytes 4 x ++ rest) = .ok (x, rest) := by
  rw [Cur.u32, Cur.take_append (length_beBytes ..)]
  exact congrArg (fun x => Except.ok (x, rest)) (beNat_beBytes h)

theorem Cur.u64_append (h : x < 2 ^ 64) (rest : Bytes) :
    Cur.u64 (beBytes 8 x ++ rest) = .ok (x, rest) := by
  rw [Cur.u64, Cur.take_append (length_beBytes ..)]
  exact congrArg (fun x => Except.ok (x, rest)) (beNat_beBytes h)

theorem Cur.optBytes_append {key : Option Bytes} (h : (keyBytes key).length < 2 ^ 31)
    (rest : Bytes) :
    Cur.optBytes (keyLenField key ++ (keyBytes key ++ rest)) = .ok (key, rest) := by
  cases key with
  | none =>
    rw [Cur.optBytes, keyLenField, Cur.u32_append (by decide)]
    rfl
  | some k =>
    have hk : k.length < 2 ^ 31 := h
    have htake : Cur.take k.length (k ++ rest) = .ok (k, rest) := Cur.take_append rfl rest
    rw [Cur.optBytes, keyLenField, Cur.u32_append (by omega)]
    simp only [bind, Except.bind, if_neg (Nat.not_le.mpr hk)]
    rw [keyBytes, Option.getD_some, htake]

theorem Cur.bytes_append {value : Bytes} (h : value.length < 2 ^ 32) (rest : Bytes) :
    Cur.bytes (beBytes 4 value.length ++ (value ++ rest)) = .ok (value, rest) := by
  rw [Cur.bytes, Cur.u32_append h]
  exact Cur.take_append rfl rest

/-- A record whose lengths have room in their fields. -/
structure Encodes (r : AppendRecord) : Prop where
  key : (keyBytes r.key).length < 2 ^ 31
  value : r.value.length < 2 ^ 32

/-- What a record of a batch is decoded to. -/
def batchRecord (ts : Int64) (r : AppendRecord) : BatchRecord :=
  ⟨r.timestampMs.getD ts, r.key, r.value⟩

theorem decodeBatchRecord_append {r : AppendRecord} (h : Encodes r) (ts : Int64) (rest : Bytes) :
    decodeBatchRecord (encodeBatchRecord ts r ++ rest) = .ok (batchRecord ts r, rest) := by
  have hts : (r.timestampMs.getD ts).toUInt64.toNat < 2 ^ 64 := UInt64.toNat_lt _
  rw [decodeBatchRecord, encodeBatchRecord]
  simp only [List.append_assoc]
  rw [Cur.u64_append hts]
  simp only [bind, Except.bind]
  rw [Cur.optBytes_append h.key]
  dsimp only
  rw [Cur.bytes_append h.value]
  dsimp only
  rw [UInt64.ofNat_toNat, Int64.toInt64_toUInt64, batchRecord]

variable {records : List AppendRecord}

theorem decodeBatchRecords_append (h : ∀ r ∈ records, Encodes r) (ts : Int64) (rest : Bytes) :
    decodeBatchRecords records.length (records.flatMap (encodeBatchRecord ts) ++ rest) =
      .ok (records.map (batchRecord ts), rest) := by
  induction records with
  | nil => rfl
  | cons r records ih =>
    rw [List.length_cons, decodeBatchRecords, List.flatMap_cons, List.append_assoc,
      decodeBatchRecord_append (h r List.mem_cons_self)]
    simp only [bind, Except.bind]
    rw [ih fun r' hr' => h r' (List.mem_cons_of_mem _ hr')]
    rfl

/-- **A batch is read back** with the timestamps its records were given. -/
theorem decodeCommand_encodeBatch (hp : proposal ≤ u64Max) (hb : baseOffset ≤ u64Max)
    (hn : records.length < 2 ^ 32) (hr : ∀ r ∈ records, Encodes r) (ts : Int64) :
    decodeCommand (encodeBatch proposal baseOffset ts records) =
      .ok (.batch proposal baseOffset (records.map (batchRecord ts))) := by
  have hmax : u64Max < 2 ^ 64 := by decide
  have hrecords := decodeBatchRecords_append hr ts []
  rw [List.append_nil] at hrecords
  rw [decodeCommand, encodeBatch, List.head?_cons, if_pos rfl, List.tail_cons,
    Cur.u64_append (by omega)]
  simp only [bind, Except.bind]
  rw [Cur.u64_append (by omega)]
  dsimp only
  rw [Cur.u32_append hn]
  dsimp only
  rw [hrecords]
  rfl

theorem batchSpan_encodeBatch (hb : baseOffset ≤ u64Max) (hn : records.length < 2 ^ 32)
    (ts : Int64) :
    batchSpan (encodeBatch proposal baseOffset ts records) = some (baseOffset, records.length) := by
  have hmax : u64Max < 2 ^ 64 := by decide
  have hlen : ¬ (encodeBatch proposal baseOffset ts records).length < 21 := by
    simp only [encodeBatch, List.length_cons, List.length_append, length_beBytes]
    omega
  have hbase : ((encodeBatch proposal baseOffset ts records).drop 9).take 8 =
      beBytes 8 baseOffset := by
    rw [encodeBatch, List.drop_succ_cons, List.drop_left' (length_beBytes ..),
      List.take_left' (length_beBytes ..)]
  have hcount : ((encodeBatch proposal baseOffset ts records).drop 17).take 4 =
      beBytes 4 records.length := by
    rw [encodeBatch, List.drop_succ_cons, show 16 = 8 + 8 from rfl, ← List.drop_drop,
      List.drop_left' (length_beBytes ..), List.drop_left' (length_beBytes ..),
      List.take_left' (length_beBytes ..)]
  rw [batchSpan, if_neg (not_or.mpr ⟨hlen, by simp [encodeBatch]⟩), hbase, hcount,
    beNat_beBytes (by omega), beNat_beBytes (by omega)]

/-! ### Applying -/

/-- The record at place `x.2` of a batch, with the offset it is to be stored at. -/
def appendRecord (baseOffset : Nat) (x : BatchRecord × Nat) : Option AppendRecord := do
  let offset ← addU64 baseOffset x.2
  some ⟨x.1.key, x.1.value, some x.1.timestampMs, some offset⟩

/-- The records an entry stores. Every replica stores them at the offsets the entry says; the
offset of an older entry is its index less one. -/
def Command.appendRecords (index : Nat) : Command → Option (List AppendRecord)
  | .batch _ baseOffset records => records.zipIdx.mapM (appendRecord baseOffset)
  | .legacy key value => some [⟨key, value, none, some (index - 1)⟩]

end EventStream.Replica
