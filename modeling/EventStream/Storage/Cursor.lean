import EventStream.Storage.Record

/-! Reading a log file record by record (`RecordCursor` in `storage/segment.rs`).

The cursor reads the file in windows and decodes out of the window it holds. A record that
does not fit there is fetched with one more read. `plainWalk` decodes all the bytes up to the limit
instead; the two are compared in `Window`. -/
namespace EventStream.Storage

structure RecordCursor where
  file : Bytes
  pos : Nat
  limit : Nat
  buf : Bytes
  bufStart : Nat
  window : Nat
  deriving DecidableEq, Repr

namespace RecordCursor

def new (file : Bytes) (start limit window : Nat) : RecordCursor :=
  { file, pos := start, limit, buf := [], bufStart := start, window := max window 4096 }

def buffered (c : RecordCursor) : Bytes :=
  if c.pos < c.bufStart ∨ c.bufStart + c.buf.length ≤ c.pos then []
  else c.buf.drop (c.pos - c.bufStart)

/-- A positional read, short at the end of the file. -/
def refill (c : RecordCursor) (atLeast : Nat) : RecordCursor :=
  let want := min (max atLeast c.window) (c.limit - c.pos)
  { c with buf := (c.file.drop c.pos).take want, bufStart := c.pos }

def advance (c : RecordCursor) (n : Nat) : RecordCursor := { c with pos := c.pos + n }

/-- The second round of the loop in `next_record`: the window was refilled. -/
def decodeRefilled (c : RecordCursor) :
    Except RecordDecodeError (Option (Record × RecordCursor)) :=
  match decodeRecord c.buffered c.pos with
  | .ok (r, n) => .ok (some (r, c.advance n))
  | .error .eof => .error (.truncated c.pos)
  | .error e => .error e

/-- Fetch a record that the window does not hold. -/
def fetch (c : RecordCursor) : Except RecordDecodeError (Option (Record × RecordCursor)) := do
  let need := (← peekRecordLen c.buffered c.pos).getD 4
  if c.limit < c.pos + need then .error (.truncated c.pos)
  else (c.refill need).decodeRefilled

/-- The next record, or `none` once the cursor reaches its limit. -/
def nextRecord (c : RecordCursor) : Except RecordDecodeError (Option (Record × RecordCursor)) :=
  if c.limit ≤ c.pos then .ok none
  else
    match decodeRecord c.buffered c.pos with
    | .ok (r, n) => .ok (some (r, c.advance n))
    | .error (.truncated _) => c.fetch
    | .error .eof => c.fetch
    | .error e => .error e

/-- The records a loop over `nextRecord` sees, each with its position, the position it stops
at and the error that stopped it, if one did. -/
structure Walk where
  records : List (Nat × Record)
  stop : Nat
  error : Option RecordDecodeError
  deriving DecidableEq, Repr

attribute [ext] Walk

def walkFuel : Nat → RecordCursor → Walk
  | 0, c => ⟨[], c.pos, none⟩
  | fuel + 1, c =>
    match c.nextRecord with
    | .ok none => ⟨[], c.pos, none⟩
    | .error e => ⟨[], c.pos, some e⟩
    | .ok (some (r, c')) =>
      let rest := walkFuel fuel c'
      ⟨(c.pos, r) :: rest.records, rest.stop, rest.error⟩

/-- A record takes at least one byte, so the loop ends within this many rounds. -/
def walk (c : RecordCursor) : Walk := walkFuel (c.limit - c.pos + 1) c

/-! ### Decoding without a window -/

/-- What the file holds between a position and the limit. -/
def plainBytes (file : Bytes) (pos limit : Nat) : Bytes := (file.drop pos).take (limit - pos)

/-- The record at `pos` and the position behind it. A file that ends before the limit ends in
the middle of a record. -/
def plainNext (file : Bytes) (pos limit : Nat) :
    Except RecordDecodeError (Option (Record × Nat)) :=
  if limit ≤ pos then .ok none
  else
    match decodeRecord (plainBytes file pos limit) pos with
    | .ok (r, n) => .ok (some (r, pos + n))
    | .error .eof => .error (.truncated pos)
    | .error e => .error e

def plainWalkFuel (file : Bytes) (limit : Nat) : Nat → Nat → Walk
  | 0, pos => ⟨[], pos, none⟩
  | fuel + 1, pos =>
    match plainNext file pos limit with
    | .ok none => ⟨[], pos, none⟩
    | .error e => ⟨[], pos, some e⟩
    | .ok (some (r, pos')) =>
      let rest := plainWalkFuel file limit fuel pos'
      ⟨(pos, r) :: rest.records, rest.stop, rest.error⟩

def plainWalk (file : Bytes) (start limit : Nat) : Walk :=
  plainWalkFuel file limit (limit - start + 1) start

/-! ### When a window is enough -/

/-- The length of the record at the start of `b` by its length field. -/
def claimedLen (b : Bytes) : Nat := recordLenField + beNat (b.take 4)

/-- The record at `pos` is longer than the window; its length is admitted and it is not cut
short. -/
def Oversized (file : Bytes) (pos limit window : Nat) : Prop :=
  window < claimedLen (plainBytes file pos limit) ∧
    peekRecordLen (plainBytes file pos limit) pos =
      .ok (some (claimedLen (plainBytes file pos limit))) ∧
    plainNext file pos limit ≠ .error (.truncated pos)

instance (file : Bytes) (pos limit window : Nat) : Decidable (Oversized file pos limit window) :=
  inferInstanceAs (Decidable (_ ∧ _ ∧ _))

/-- How far the file has been read once the record from `pos` to `pos'` was found, if it had been
read up to `reach` before: as far as that, or a window from `pos` on, or the record if its length
field had been read. -/
def readUpTo (file : Bytes) (limit window reach pos pos' : Nat) : Nat :=
  if pos' ≤ reach then reach
  else
    let need := if pos + recordLenField ≤ reach then pos' - pos else recordLenField
    pos + min (max need window) (plainBytes file pos limit).length

/-- Of no record longer than the window has less than the length field been read when the cursor
comes to it. -/
def windowSuffices (file : Bytes) (limit window : Nat) : Nat → Nat → Nat → Bool
  | 0, _, _ => true
  | fuel + 1, reach, pos =>
    decide (reach < pos + recordLenField → ¬ Oversized file pos limit window) &&
      match plainNext file pos limit with
      | .ok (some (_, pos')) =>
        windowSuffices file limit window fuel (readUpTo file limit window reach pos pos') pos'
      | _ => true

end RecordCursor

end EventStream.Storage
