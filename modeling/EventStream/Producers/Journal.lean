import EventStream.Producers.Lines

/-! The producers' journal and its compaction (`ProducerRegistry::journal`, `flush`, `open`).

A request records its sequences in memory and then appends them to the live journal, with an
fsync. `flush` renames the live journal aside, copies the state of every producer, replaces
`producers.json` with the copy and removes the renamed journal. `open` loads `producers.json`
and replays the renamed journal and then the live one on it.

Each call is cut into the steps at which it can fail or the process can end. A write reaches
the file up to any length, and a crash keeps of a file at least what was fsynced. `write_atomic`
leaves the old file or the new one. -/
namespace EventStream.Producers

/-- The map of producers, with its keys. -/
structure Registry where
  ids : List String
  slots : String → Option ProducerState

def Registry.empty : Registry := ⟨[], fun _ => none⟩

/-- Apply one line to the map. -/
def Registry.replayEntry (now : Int) (reg : Registry) (e : JournalEntry) : Registry :=
  ⟨if e.p ∈ reg.ids then reg.ids else e.p :: reg.ids, Producers.replayEntry now reg.slots e⟩

theorem Registry.slots_replay (now : Int) (lines : List JournalEntry) (reg : Registry) :
    (lines.foldl (Registry.replayEntry now) reg).slots =
      lines.foldl (Producers.replayEntry now) reg.slots := by
  induction lines generalizing reg with
  | nil => rfl
  | cons e lines ih => exact ih _

/-- The map from what `producers.json` has; a time of 0 is taken for now. -/
def Registry.load (now : Int) (reg : Registry) : Registry :=
  { reg with
    slots := fun pid => (reg.slots pid).map fun st =>
      { st with lastUsedMs := if st.lastUsedMs = 0 then now else st.lastUsedMs } }

/-- A journal file; the first `synced` characters are on disk. -/
structure JournalFile where
  text : List Char
  synced : Nat
  deriving DecidableEq, Repr

namespace JournalFile

def empty : JournalFile := ⟨[], 0⟩

/-- What a crash leaves of the file. -/
def cut (f : JournalFile) (len : Nat) : JournalFile :=
  let text := f.text.take (max f.synced len)
  ⟨text, text.length⟩

/-- The file ends where a line does. -/
def AtLine (f : JournalFile) : Prop := f.text = [] ∨ f.text.getLast? = some '\n'

instance : DecidablePred AtLine := fun f =>
  inferInstanceAs (Decidable (f.text = [] ∨ f.text.getLast? = some '\n'))

end JournalFile

/-- Where `flush` stands, with the copy it has made so far. -/
inductive FlushPhase where
  | idle
  | rotated
  | copying (todo : List String) (copy : Registry)
  | replaced

structure Store where
  memory : Registry
  /-- `producers.json`, `producers.journal.old` and `producers.journal`. -/
  snapshot : Option Registry
  rotated : Option JournalFile
  live : Option JournalFile
  /-- Recorded in memory and not yet handed to `journal`. -/
  pending : List (List JournalEntry)
  flush : FlushPhase
  /-- The entries whose `journal` call returned `Ok`. -/
  acked : List JournalEntry

def Store.empty : Store := ⟨.empty, none, none, none, [], .idle, []⟩

/-- How `write_atomic` ends: with an error before the rename, with one behind it, or without. -/
inductive WriteResult where
  | before
  | behind
  | ok
  deriving DecidableEq, Repr

inductive Event where
  /-- A request records the sequences it wrote. -/
  | record (now : Int) (entries : List JournalEntry)
  /-- `journal` for one such request: so many characters reach the file, and if all do the
  fsync may still fail. -/
  | journal (i written : Nat) (syncs : Bool)
  /-- The steps of `flush`: the rename, the list of producers, the copy of one of them, the
  write of the copy and the removal of the renamed journal. -/
  | rotate (renames : Bool)
  | collect
  | copy
  | write (result : WriteResult)
  | remove (removes : Bool)
  /-- The process ends and the registry is opened again; the files are cut at these lengths
  where they were not fsynced. -/
  | reopen (now : Int) (rotatedLen liveLen : Nat)

namespace Store

variable [EntryFormat]

/-- `ProducerRegistry::open` on the files. -/
def opened (now : Int) (s : Store) : Registry :=
  let reg := (s.snapshot.getD .empty).load now
  let reg := (replayed ((s.rotated.getD .empty).text)).foldl (Registry.replayEntry now) reg
  (replayed ((s.live.getD .empty).text)).foldl (Registry.replayEntry now) reg

/-- What the end of the process leaves, with the files cut at these lengths. -/
def crashed (s : Store) (rotatedLen liveLen : Nat) : Store :=
  { s with
    rotated := s.rotated.map fun f => f.cut rotatedLen
    live := s.live.map fun f => f.cut liveLen
    pending := []
    flush := .idle }

def step (s : Store) : Event → Option Store
  | .record now entries =>
    if ∀ e ∈ entries, e.Valid then
      some { s with
        memory := entries.foldl (Registry.replayEntry now) s.memory
        pending := s.pending ++ [entries] }
    else none
  | .journal i written syncs => do
    let entries ← s.pending[i]?
    let s := { s with pending := s.pending.eraseIdx i }
    if entries.isEmpty then some s
    else
      let f := s.live.getD .empty
      let buf := encodeLines entries
      let text := f.text ++ buf.take written
      if buf.length ≤ written ∧ syncs then
        some { s with live := some ⟨text, text.length⟩, acked := s.acked ++ entries }
      else some { s with live := some { f with text } }
  | .rotate renames =>
    match s.flush with
    | .idle =>
      match s.live with
      | none => some { s with flush := .rotated }
      | some f =>
        if renames then some { s with rotated := some f, live := none, flush := .rotated }
        else some s
    | _ => none
  | .collect =>
    match s.flush with
    | .rotated => some { s with flush := .copying s.memory.ids .empty }
    | _ => none
  | .copy =>
    match s.flush with
    | .copying (pid :: todo) copy =>
      some { s with
        flush := .copying todo
          ⟨pid :: copy.ids, Function.update copy.slots pid (s.memory.slots pid)⟩ }
    | _ => none
  | .write result =>
    match s.flush with
    | .copying [] copy =>
      match result with
      | .before => some { s with flush := .idle }
      | .behind => some { s with snapshot := some copy, flush := .idle }
      | .ok => some { s with snapshot := some copy, flush := .replaced }
    | _ => none
  | .remove removes =>
    match s.flush with
    | .replaced =>
      some { s with rotated := if removes then none else s.rotated, flush := .idle }
    | _ => none
  | .reopen now rotatedLen liveLen =>
    let s := s.crashed rotatedLen liveLen
    some { s with memory := s.opened now }

def run (s : Store) (es : List Event) : Option Store := es.foldlM step s

end Store

end EventStream.Producers
