import EventStream.Raft.Messages
import EventStream.Reading

/-! Raft's messages on the wire (`raft/messages.rs`).

Every message is a tag and its fields, big endian; lists and byte strings have their length before
them. A message is read back field by field (`reads_message`). The readers are steady, so that a
message that was cut short is not taken for another, and what they allocate is bounded by the
input whatever the lengths in it say. -/
namespace EventStream.Raft

open Reading (Reader Reads Steady Spends many)

def tagRequestVote : Nat := 0x01
def tagRequestVoteResp : Nat := 0x02
def tagAppendEntries : Nat := 0x03
def tagAppendEntriesResp : Nat := 0x04
def tagInstallSnapshot : Nat := 0x05
def tagInstallSnapshotResp : Nat := 0x06

/-! ### Writing -/

def encodeFlag (b : Bool) : Bytes := beBytes 1 (if b then 1 else 0)

def LogEntry.encode (e : LogEntry) : Bytes :=
  beBytes 8 e.term ++ (beBytes 8 e.index ++ (beBytes 4 e.payload.length ++ e.payload))

def Message.encode : Message → Bytes
  | .requestVote m =>
    beBytes 1 tagRequestVote ++ (beBytes 8 m.term ++ (beBytes 4 m.candidateId ++
      (beBytes 8 m.lastLogIndex ++ beBytes 8 m.lastLogTerm)))
  | .requestVoteResp m =>
    beBytes 1 tagRequestVoteResp ++ (beBytes 8 m.term ++ (encodeFlag m.voteGranted ++
      beBytes 4 m.voterId))
  | .appendEntries m =>
    beBytes 1 tagAppendEntries ++ (beBytes 8 m.term ++ (beBytes 4 m.leaderId ++
      (beBytes 8 m.prevLogIndex ++ (beBytes 8 m.prevLogTerm ++ (beBytes 4 m.entries.length ++
        (m.entries.flatMap LogEntry.encode ++ beBytes 8 m.leaderCommit))))))
  | .appendEntriesResp m =>
    beBytes 1 tagAppendEntriesResp ++ (beBytes 8 m.term ++ (encodeFlag m.success ++
      (beBytes 4 m.responderId ++ beBytes 8 m.matchIndex)))
  | .installSnapshot m =>
    beBytes 1 tagInstallSnapshot ++ (beBytes 8 m.term ++ (beBytes 4 m.leaderId ++
      (beBytes 8 m.lastIndex ++ (beBytes 8 m.lastTerm ++ (beBytes 8 m.offset ++
        (encodeFlag m.done ++ (beBytes 4 m.data.length ++ m.data)))))))
  | .installSnapshotResp m =>
    beBytes 1 tagInstallSnapshotResp ++ (beBytes 8 m.term ++ (encodeFlag m.success ++
      (beBytes 4 m.responderId ++ (beBytes 8 m.nextOffset ++ beBytes 8 m.installedIndex))))

/-! ### Reading -/

abbrev MessageReader := Reader UInt8 String

namespace MessageReader

def bytes (n : Nat) : MessageReader Bytes := Reading.take "short" n

/-- An unsigned integer of `n` bytes. -/
def uint (n : Nat) : MessageReader Nat := do
  let b ← bytes n
  return beNat b

def u8 : MessageReader Nat := uint 1
def u32 : MessageReader Nat := uint 4
def u64 : MessageReader Nat := uint 8

def flag : MessageReader Bool := do
  let v ← u8
  return v != 0

end MessageReader

open MessageReader

def decodeLogEntry : MessageReader LogEntry := do
  let term ← u64
  let index ← u64
  let len ← u32
  let payload ← bytes len
  return { term, index, payload }

def decodeInstallSnapshot : MessageReader InstallSnapshot := do
  let term ← u64
  let leaderId ← u32
  let lastIndex ← u64
  let lastTerm ← u64
  let offset ← u64
  let done ← flag
  let dataLen ← u32
  let data ← bytes dataLen
  return { term, leaderId, lastIndex, lastTerm, offset, done, data }

/-- The fields after the tag. -/
def decodeFields (tag : Nat) : MessageReader Message :=
  if tag = tagRequestVote then do
    let term ← u64
    let candidateId ← u32
    let lastLogIndex ← u64
    let lastLogTerm ← u64
    return .requestVote { term, candidateId, lastLogIndex, lastLogTerm }
  else if tag = tagRequestVoteResp then do
    let term ← u64
    let voteGranted ← flag
    let voterId ← u32
    return .requestVoteResp { term, voteGranted, voterId }
  else if tag = tagAppendEntries then do
    let term ← u64
    let leaderId ← u32
    let prevLogIndex ← u64
    let prevLogTerm ← u64
    let n ← u32
    let entries ← many decodeLogEntry n
    let leaderCommit ← u64
    return .appendEntries { term, leaderId, prevLogIndex, prevLogTerm, entries, leaderCommit }
  else if tag = tagAppendEntriesResp then do
    let term ← u64
    let success ← flag
    let responderId ← u32
    let matchIndex ← u64
    return .appendEntriesResp { term, success, responderId, matchIndex }
  else if tag = tagInstallSnapshot then do
    let m ← decodeInstallSnapshot
    return .installSnapshot m
  else if tag = tagInstallSnapshotResp then do
    let term ← u64
    let success ← flag
    let responderId ← u32
    let nextOffset ← u64
    let installedIndex ← u64
    return .installSnapshotResp { term, success, responderId, nextOffset, installedIndex }
  else Reading.fail ("unknown raft tag 0x" ++ String.ofList (Nat.toDigits 16 tag))

def decodeTagged : MessageReader Message := do
  let tag ← u8
  decodeFields tag

/-- Bytes after the message are not looked at. -/
def Message.decode (input : Bytes) : Except String Message :=
  if input.isEmpty then .error "empty" else (decodeTagged input).map Prod.fst

/-! ### What is read back -/

/-- The fields have room in the format: they are what the source's types can hold, and the lists
are shorter than `2 ^ 32`. -/
def Message.Fits : Message → Prop
  | .requestVote m => m.term < 2 ^ 64 ∧ m.candidateId < 2 ^ 32 ∧ m.lastLogIndex < 2 ^ 64 ∧
      m.lastLogTerm < 2 ^ 64
  | .requestVoteResp m => m.term < 2 ^ 64 ∧ m.voterId < 2 ^ 32
  | .appendEntries m => m.term < 2 ^ 64 ∧ m.leaderId < 2 ^ 32 ∧ m.prevLogIndex < 2 ^ 64 ∧
      m.prevLogTerm < 2 ^ 64 ∧ m.entries.length < 2 ^ 32 ∧ m.leaderCommit < 2 ^ 64 ∧
      ∀ e ∈ m.entries, e.term < 2 ^ 64 ∧ e.index < 2 ^ 64 ∧ e.payload.length < 2 ^ 32
  | .appendEntriesResp m => m.term < 2 ^ 64 ∧ m.responderId < 2 ^ 32 ∧ m.matchIndex < 2 ^ 64
  | .installSnapshot m => m.term < 2 ^ 64 ∧ m.leaderId < 2 ^ 32 ∧ m.lastIndex < 2 ^ 64 ∧
      m.lastTerm < 2 ^ 64 ∧ m.offset < 2 ^ 64 ∧ m.data.length < 2 ^ 32
  | .installSnapshotResp m => m.term < 2 ^ 64 ∧ m.responderId < 2 ^ 32 ∧ m.nextOffset < 2 ^ 64 ∧
      m.installedIndex < 2 ^ 64

theorem reads_bytes (b : Bytes) : Reads (bytes b.length) b b := Reads.take "short" b

variable {x : Nat}

theorem reads_uint {n : Nat} (h : x < 256 ^ n) : Reads (uint n) (beBytes n x) x := by
  have hread := (reads_bytes (beBytes n x)).map beNat
  rwa [length_beBytes, beNat_beBytes h] at hread

theorem reads_u8 (h : x < 2 ^ 8) : Reads u8 (beBytes 1 x) x := reads_uint h
theorem reads_u32 (h : x < 2 ^ 32) : Reads u32 (beBytes 4 x) x := reads_uint h
theorem reads_u64 (h : x < 2 ^ 64) : Reads u64 (beBytes 8 x) x := reads_uint h

theorem reads_flag (b : Bool) : Reads flag (encodeFlag b) b := by
  cases b <;> exact (reads_u8 (by decide)).map (· != 0)

theorem reads_logEntry {e : LogEntry} (ht : e.term < 2 ^ 64) (hi : e.index < 2 ^ 64)
    (hp : e.payload.length < 2 ^ 32) : Reads decodeLogEntry e.encode e :=
  (reads_u64 ht).bind ((reads_u64 hi).bind ((reads_u32 hp).bind
    ((reads_bytes e.payload).map _)))

theorem reads_message {m : Message} (h : m.Fits) : Reads decodeTagged m.encode m := by
  cases m with
  | requestVote m =>
    obtain ⟨ht, hc, hi, hl⟩ := h
    exact (reads_u8 (by decide)).bind ((reads_u64 ht).bind ((reads_u32 hc).bind
      ((reads_u64 hi).bind ((reads_u64 hl).map _))))
  | requestVoteResp m =>
    obtain ⟨ht, hv⟩ := h
    exact (reads_u8 (by decide)).bind ((reads_u64 ht).bind ((reads_flag _).bind
      ((reads_u32 hv).map _)))
  | appendEntries m =>
    obtain ⟨ht, hl, hi, hp, hn, hc, he⟩ := h
    have hentries : Reads (many decodeLogEntry m.entries.length)
        (m.entries.flatMap LogEntry.encode) m.entries := by
      have := Reads.many fun e hmem =>
        reads_logEntry (he e hmem).1 (he e hmem).2.1 (he e hmem).2.2
      rwa [List.map_id'] at this
    exact (reads_u8 (by decide)).bind ((reads_u64 ht).bind ((reads_u32 hl).bind
      ((reads_u64 hi).bind ((reads_u64 hp).bind ((reads_u32 hn).bind (hentries.bind
        ((reads_u64 hc).map _)))))))
  | appendEntriesResp m =>
    obtain ⟨ht, hr, hm⟩ := h
    exact (reads_u8 (by decide)).bind ((reads_u64 ht).bind ((reads_flag _).bind
      ((reads_u32 hr).bind ((reads_u64 hm).map _))))
  | installSnapshot m =>
    obtain ⟨ht, hl, hi, hlt, ho, hd⟩ := h
    have hfields : Reads decodeInstallSnapshot (beBytes 8 m.term ++ (beBytes 4 m.leaderId ++
        (beBytes 8 m.lastIndex ++ (beBytes 8 m.lastTerm ++ (beBytes 8 m.offset ++
          (encodeFlag m.done ++ (beBytes 4 m.data.length ++ m.data))))))) m :=
      (reads_u64 ht).bind ((reads_u32 hl).bind ((reads_u64 hi).bind ((reads_u64 hlt).bind
        ((reads_u64 ho).bind ((reads_flag _).bind ((reads_u32 hd).bind
          ((reads_bytes m.data).map _)))))))
    exact (reads_u8 (by decide)).bind (hfields.map Message.installSnapshot)
  | installSnapshotResp m =>
    obtain ⟨ht, hr, ho, hi⟩ := h
    exact (reads_u8 (by decide)).bind ((reads_u64 ht).bind ((reads_flag _).bind
      ((reads_u32 hr).bind ((reads_u64 ho).bind
        ((reads_u64 hi).map _)))))

/-! ### What was cut short -/

theorem steady_bytes (n : Nat) : Steady (bytes n) := Steady.take "short" n

theorem steady_uint (n : Nat) : Steady (uint n) := (steady_bytes n).bind fun _ => .pure _

theorem steady_flag : Steady flag := (steady_uint 1).bind fun _ => .pure _

theorem steady_logEntry : Steady decodeLogEntry :=
  (steady_uint 8).bind fun _ => (steady_uint 8).bind fun _ => (steady_uint 4).bind fun n =>
    (steady_bytes n).bind fun _ => .pure _

theorem steady_installSnapshot : Steady decodeInstallSnapshot :=
  (steady_uint 8).bind fun _ => (steady_uint 4).bind fun _ => (steady_uint 8).bind fun _ =>
    (steady_uint 8).bind fun _ => (steady_uint 8).bind fun _ => steady_flag.bind fun _ =>
      (steady_uint 4).bind fun n => (steady_bytes n).bind fun _ => .pure _

theorem steady_fields (tag : Nat) : Steady (decodeFields tag) := by
  unfold decodeFields
  split
  · exact (steady_uint 8).bind fun _ => (steady_uint 4).bind fun _ => (steady_uint 8).bind fun _ =>
      (steady_uint 8).bind fun _ => .pure _
  split
  · exact (steady_uint 8).bind fun _ => steady_flag.bind fun _ => (steady_uint 4).bind fun _ =>
      .pure _
  split
  · exact (steady_uint 8).bind fun _ => (steady_uint 4).bind fun _ => (steady_uint 8).bind fun _ =>
      (steady_uint 8).bind fun _ => (steady_uint 4).bind fun n =>
        (steady_logEntry.many n).bind fun _ => (steady_uint 8).bind fun _ => .pure _
  split
  · exact (steady_uint 8).bind fun _ => steady_flag.bind fun _ => (steady_uint 4).bind fun _ =>
      (steady_uint 8).bind fun _ => .pure _
  split
  · exact steady_installSnapshot.bind fun _ => .pure _
  split
  · exact (steady_uint 8).bind fun _ => steady_flag.bind fun _ => (steady_uint 4).bind fun _ =>
      (steady_uint 8).bind fun _ => (steady_uint 8).bind fun _ => .pure _
  · exact .fail _

/-! ### What is allocated -/

/-- What `decode` asks for, whether it succeeds or not: room for entries, and bytes copied out of
the input. -/
structure Allocated where
  entries : Nat
  bytes : Nat
  deriving DecidableEq, Repr

/-- The room for `count` items that the rest of the input could hold. -/
def capHint (count minItemBytes remaining : Nat) : Nat := min count (remaining / max minItemBytes 1)

/-- The number of entries, after the fields before it. -/
def entryCount : MessageReader Nat := do
  let _ ← u64
  let _ ← u32
  let _ ← u64
  let _ ← u64
  u32

/-- The payloads that the loop over `n` entries copies before it ends or fails. -/
def copied : Nat → Bytes → Nat
  | 0, _ => 0
  | n + 1, input =>
    match decodeLogEntry input with
    | .ok (e, rest) => e.payload.length + copied n rest
    | .error _ => 0

def Message.allocated (input : Bytes) : Allocated :=
  match u8 input with
  | .error _ => ⟨0, 0⟩
  | .ok (tag, body) =>
    if tag = tagAppendEntries then
      match entryCount body with
      | .ok (n, rest) => ⟨capHint n 20 rest.length, copied n rest⟩
      | .error _ => ⟨0, 0⟩
    else if tag = tagInstallSnapshot then
      match decodeInstallSnapshot body with
      | .ok (m, _) => ⟨0, m.data.length⟩
      | .error _ => ⟨0, 0⟩
    else ⟨0, 0⟩

theorem spends_uint (n : Nat) : Spends (uint n) fun _ => n :=
  (Spends.take "short" n).bind fun _ => .pure _ (Nat.sub_self n)

theorem spends_payload {α : Type} (n : Nat) {f : Bytes → α} {cost : α → Nat}
    (hf : ∀ b, cost (f b) ≤ b.length) :
    Spends (do let b ← bytes n; return f b : MessageReader α) cost :=
  (Spends.take_length "short" n).bind fun b => .pure _ (Nat.sub_eq_zero_of_le (hf b))

theorem spends_logEntry : Spends decodeLogEntry fun e => e.payload.length :=
  (spends_uint 8).skip fun _ => (spends_uint 8).skip fun _ => (spends_uint 4).skip fun n =>
    spends_payload n fun _ => Nat.le_refl _

theorem spends_flag : Spends flag fun _ => 0 := (spends_uint 1).skip fun _ => .pure _ rfl

theorem spends_installSnapshot : Spends decodeInstallSnapshot fun m => m.data.length :=
  (spends_uint 8).skip fun _ => (spends_uint 4).skip fun _ => (spends_uint 8).skip fun _ =>
    (spends_uint 8).skip fun _ => (spends_uint 8).skip fun _ => spends_flag.skip fun _ =>
      (spends_uint 4).skip fun n => spends_payload n fun _ => Nat.le_refl _

theorem spends_entryCount : Spends entryCount fun _ => 4 :=
  (spends_uint 8).skip fun _ => (spends_uint 4).skip fun _ => (spends_uint 8).skip fun _ =>
    (spends_uint 8).skip fun _ => spends_uint 4

theorem copied_le (n : Nat) (input : Bytes) : copied n input ≤ input.length := by
  induction n generalizing input with
  | zero => exact Nat.zero_le _
  | succ n ih =>
    unfold copied
    split
    · rename_i e rest hread
      have hspent : e.payload.length + rest.length ≤ input.length :=
        spends_logEntry input e rest hread
      have := ih rest
      omega
    · exact Nat.zero_le _

theorem capHint_le (count remaining : Nat) : capHint count 20 remaining * 20 ≤ remaining := by
  show min count (remaining / 20) * 20 ≤ remaining
  omega

theorem allocated_le (input : Bytes) :
    (Message.allocated input).entries * 20 ≤ input.length ∧
      (Message.allocated input).bytes ≤ input.length := by
  unfold Message.allocated
  split
  · exact ⟨Nat.zero_le _, Nat.zero_le _⟩
  rename_i tag body htag
  have hbody : 1 + body.length ≤ input.length := spends_uint 1 input tag body htag
  split
  · split
    · rename_i n rest hcount
      have hrest : 4 + rest.length ≤ body.length := spends_entryCount body n rest hcount
      have hcap := capHint_le n rest.length
      have hcopied := copied_le n rest
      exact ⟨by show capHint n 20 rest.length * 20 ≤ input.length; omega,
        by show copied n rest ≤ input.length; omega⟩
    · exact ⟨Nat.zero_le _, Nat.zero_le _⟩
  split
  · split
    · rename_i m rest hread
      have hspent : m.data.length + rest.length ≤ body.length :=
        spends_installSnapshot body m rest hread
      exact ⟨Nat.zero_le _, by show m.data.length ≤ input.length; omega⟩
    · exact ⟨Nat.zero_le _, Nat.zero_le _⟩
  · exact ⟨Nat.zero_le _, Nat.zero_le _⟩

/-- **The codec.** Every message that has room in the format is read back, and no message is read
from a part of it. Whatever the input, no more is allocated than it can fill. -/
theorem message_codec {m : Message} (h : m.Fits) :
    Message.decode m.encode = .ok m ∧ ∀ p, p <+: m.encode → p ≠ m.encode →
      (∃ e, Message.decode p = .error e) ∧ (Message.allocated p).entries * 20 ≤ p.length ∧
        (Message.allocated p).bytes ≤ p.length := by
  have hread := reads_message h
  have hsteady : Steady decodeTagged := (steady_uint 1).bind steady_fields
  refine ⟨?_, fun p hp hne => ⟨?_, allocated_le p⟩⟩
  · have hne : m.encode.isEmpty = false := by
      cases m <;> simp [Message.encode, beBytes]
    have hall := hread []
    rw [List.append_nil] at hall
    rw [Message.decode, hne, hall]
    rfl
  · unfold Message.decode
    split
    · exact ⟨_, rfl⟩
    · obtain ⟨e, he⟩ := hread.strict hsteady hp hne
      exact ⟨e, by rw [he]; rfl⟩

/-- A snapshot chunk, and all of it but the last byte. -/
theorem message_codec_chunk :
    Message.decode (Message.encode (.installSnapshot ⟨3, 1, 9, 2, 0, true, [5, 6]⟩)) =
      .ok (.installSnapshot ⟨3, 1, 9, 2, 0, true, [5, 6]⟩) ∧
    ∃ e, Message.decode
      ((Message.encode (.installSnapshot ⟨3, 1, 9, 2, 0, true, [5, 6]⟩)).take 43) = .error e := by
  have h := message_codec (m := .installSnapshot ⟨3, 1, 9, 2, 0, true, [5, 6]⟩)
    ⟨by decide, by decide, by decide, by decide, by decide, by decide⟩
  exact ⟨h.1, (h.2 _ (List.take_prefix ..) (by decide)).1⟩

end EventStream.Raft
