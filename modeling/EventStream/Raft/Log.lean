import EventStream.Raft.Messages

/-! The Raft log and its store (`raft/log.rs`).

`none` is a panic: an index that overflows, a slice out of range. The store is the
contract `RaftStore` states and `MemStore` implements; how `FileStore` lays entries
out in a file is not modelled here. -/
namespace EventStream.Raft

/-- The entries in memory. `baseIndex` and `baseTerm` describe the last entry that was
folded into a snapshot. -/
structure Log where
  entries : List LogEntry := []
  baseIndex : Nat := 0
  baseTerm : Nat := 0
  deriving DecidableEq, Repr

namespace Log

def lastIndex (log : Log) : Nat :=
  (log.entries.getLast?.map LogEntry.index).getD log.baseIndex

def lastTerm (log : Log) : Nat :=
  (log.entries.getLast?.map LogEntry.term).getD log.baseTerm

def get (log : Log) (index : Nat) : Option LogEntry :=
  match log.entries.head? with
  | none => none
  | some first => if index < first.index then none else log.entries[index - first.index]?

def termAt (log : Log) (index : Nat) : Option Nat :=
  if index = 0 then some 0
  else if index = log.baseIndex then some log.baseTerm
  else if index < log.baseIndex then none
  else (log.get index).map LogEntry.term

/-- Entries in `[start, endExclusive)`. -/
def slice (log : Log) (start endExclusive : Nat) : Option (List LogEntry) :=
  match log.entries.head? with
  | none => some []
  | some first =>
    if start = 0 ∨ endExclusive ≤ start then some []
    else do
      let start := max start first.index
      let stop := min endExclusive (← addU64 log.lastIndex 1)
      if stop ≤ start then some []
      else if stop - first.index ≤ log.entries.length then
        some ((log.entries.take (stop - first.index)).drop (start - first.index))
      else none

/-- The loop of `sliceBounded`: `out` is what it has taken, `bytes` their payload. -/
def takeBounded (maxEntries maxBytes : Nat) (out : List LogEntry) (bytes : Nat) :
    List LogEntry → List LogEntry
  | [] => out
  | e :: rest =>
    if !out.isEmpty && (decide (maxEntries ≤ out.length) ||
        decide (maxBytes < bytes + e.payload.length)) then out
    else takeBounded maxEntries maxBytes (out ++ [e]) (bytes + e.payload.length) rest

/-- Entries from `start`, at most `maxEntries` of them and, beyond the first, no more
than `maxBytes` of payload. -/
def sliceBounded (log : Log) (start : Nat) (maxEntries maxBytes : Nat) :
    Option (List LogEntry) :=
  match log.entries.head? with
  | none => some []
  | some first =>
    if start = 0 then some []
    else
      let start := max start first.index
      if log.lastIndex < start then some []
      else if start - first.index ≤ log.entries.length then
        some (takeBounded maxEntries maxBytes [] 0 (log.entries.drop (start - first.index)))
      else none

def truncateFrom (log : Log) (cutIndex : Nat) : Log :=
  if cutIndex ≤ log.baseIndex then {log with entries := []}
  else match log.entries.head? with
    | none => log
    | some first =>
      if cutIndex ≤ first.index then {log with entries := []}
      else {log with entries := log.entries.take (cutIndex - first.index)}

/-- The loop of `appendAt`. It skips the entries the log has and stops at the first it
does not have, cutting off what conflicts with that one. The result is the log and the
entries still to append, or an error when the cut would reach committed entries. -/
def appendWalk (log : Log) (committed : Nat) :
    Nat → List LogEntry → Option (Log × Except Unit (List LogEntry))
  | _, [] => some (log, .ok [])
  | idx, e :: rest =>
    if idx ≤ log.baseIndex then
      (addU64 idx 1).bind fun next => appendWalk log committed next rest
    else match log.termAt idx with
      | some t =>
        if t = e.term then (addU64 idx 1).bind fun next => appendWalk log committed next rest
        else if idx ≤ committed then some (log, .error ())
        else some (log.truncateFrom idx, .ok (e :: rest))
      | none => some (log, .ok (e :: rest))

/-- Number the entries from `next` on. -/
def renumber : Nat → List LogEntry → Option (List LogEntry)
  | _, [] => some []
  | next, e :: rest => (addU64 next 1).bind fun after =>
      (renumber after rest).map ({e with index := next} :: ·)

/-- Append entries that start at `startIndex`, cutting off a conflicting suffix; refused
if that suffix is committed. The result is the log it leaves and the first index that changed. -/
def appendAt (log : Log) (startIndex : Nat) (newEntries : List LogEntry)
    (committed : Nat) : Option (Log × Except Unit (Option Nat)) := do
  match ← log.appendWalk committed startIndex newEntries with
  | (log, .error _) => some (log, .error ())
  | (log, .ok []) => some (log, .ok none)
  | (log, .ok toAppend) =>
    let firstChanged ← addU64 log.lastIndex 1
    let out ← renumber firstChanged toAppend
    some ({log with entries := log.entries ++ out}, .ok (some firstChanged))

/-- Drop every entry up to `cutIndex`. -/
def compactThrough (log : Log) (cutIndex : Nat) (cutTerm : Nat) : Log :=
  if cutIndex ≤ log.baseIndex then log
  else
    let dropCount := match log.entries.head? with
      | some first => min (satAdd cutIndex 1 - first.index) log.entries.length
      | none => 0
    { entries := log.entries.drop dropCount, baseIndex := cutIndex, baseTerm := cutTerm }

/-- Install a leader's snapshot. The entries after it are kept if the log has the
snapshot's last entry; the Boolean says so. -/
def installSnapshot (log : Log) (lastIndex : Nat) (lastTerm : Nat) : Bool × Log :=
  let keep := log.termAt lastIndex == some lastTerm && decide (log.baseIndex ≤ lastIndex)
  if keep then (keep, log.compactThrough lastIndex lastTerm)
  else (keep, { entries := [], baseIndex := lastIndex, baseTerm := lastTerm })

end Log

/-! ### The store -/

/-- A durable change, recorded by the state machine and applied by the store. -/
inductive PersistOp where
  | hardState (term : Nat) (votedFor : Option NodeId)
  | append (entries : List LogEntry)
  | truncateFrom (fromIndex : Nat)
  | compactThrough (through : Nat)
  deriving DecidableEq, Repr

structure PersistedSnapshot where
  lastIndex : Nat
  lastTerm : Nat
  data : Bytes
  deriving DecidableEq, Repr

structure PersistedRaft where
  currentTerm : Nat := 0
  votedFor : Option NodeId := none
  log : List LogEntry := []
  deriving DecidableEq, Repr

def PersistedRaft.persistOp (s : PersistedRaft) : PersistOp → PersistedRaft
  | .hardState term votedFor => {s with currentTerm := term, votedFor := votedFor}
  | .append es => {s with log := s.log ++ es}
  | .truncateFrom fromIndex => {s with log := s.log.filter (fun e => e.index < fromIndex)}
  | .compactThrough through => {s with log := s.log.filter (fun e => through < e.index)}

/-- `MemStore::persist`: the operations, in order. -/
def PersistedRaft.persist (s : PersistedRaft) (ops : List PersistOp) : PersistedRaft :=
  ops.foldl PersistedRaft.persistOp s

end EventStream.Raft
