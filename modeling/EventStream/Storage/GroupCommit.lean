import Mathlib.Logic.Function.Basic
import EventStream.Storage.Writer

/-! Group commit (`append_batch`, `sync_upto`, `sync_pending` and `sync_all`).

Any number of calls run at once. Each is a thread with its own program counter, and one event
lets one thread take one step: a step under the appender lock (`WriterOp`), a load of the
newest mark, the beginning or the end of an fsync. An fsync that succeeds covers what the file
held when it began; one that fails fences the partition and may discard what no earlier fsync
covered. -/
namespace EventStream.Storage

inductive FileKind where
  | log
  | index
  deriving DecidableEq, Repr

/-- A file of a segment. The handles of the source are named by the segment's base offset. -/
structure FileId where
  base : Nat
  kind : FileKind
  deriving DecidableEq, Repr

structure FileState where
  /-- Bytes written. -/
  len : Nat
  /-- The greatest length at which an fsync began that has succeeded since. -/
  covered : Nat
  /-- The ranges that failing fsyncs discarded. -/
  dropped : List (Nat × Nat)
  deriving DecidableEq, Repr

/-- Bytes that an append wrote, and the sequence number of their commit. -/
structure Span where
  file : FileId
  start : Nat
  stop : Nat
  seq : Nat
  deriving DecidableEq, Repr

/-- Where a call stands. -/
inductive Phase where
  | idle
  /-- `append_batch` behind the fence check, in front of the appender lock. -/
  | entered (records : List AppendRecord) (now : Int64)
  /-- Under the appender lock, with the steps still to take. -/
  | writing (ops : List WriterOp) (wrote : Bool)
  | written (mark : WriteMark) (wrote : Bool)
  /-- `sync_all` in front of the load of the newest mark. -/
  | loading
  /-- `sync_upto` in front of the `synced` lock. -/
  | waiting (mark : WriteMark)
  /-- Under the `synced` lock: before the newest mark is loaded, and with the files and the
  sequence number that the fsync will reach. -/
  | holding (mark : WriteMark)
  | chosen (target : WriteMark)
  | syncing (kind : FileKind) (target : WriteMark)
  /-- In an fsync that began when the file had `begun` bytes. -/
  | flushing (kind : FileKind) (begun : Nat) (target : WriteMark)
  | done (ok : Bool)
  deriving DecidableEq, Repr

structure Thread where
  phase : Phase
  wrote : List Span
  deriving DecidableEq, Repr

inductive Call where
  | append (records : List AppendRecord) (now : Int64)
  | syncAll
  | syncPending
  deriving DecidableEq, Repr

/-- The partition in memory, its files and the calls under way. -/
structure Group where
  partition : Partition
  files : FileId → FileState
  poisoned : Bool
  appenderHeld : Bool
  syncedHeld : Bool
  threads : Nat → Thread

inductive GroupEvent where
  | call (thread : Nat) (call : Call)
  | run (thread : Nat)
  /-- The fsync the thread is in fails. -/
  | fail (thread : Nat) (discards : Bool)
  deriving DecidableEq, Repr

namespace Group

def setPhase (g : Group) (t : Nat) (phase : Phase) : Group :=
  { g with threads := Function.update g.threads t { g.threads t with phase } }

/-- A write to a file of the active segment. -/
def write (g : Group) (t : Nat) (kind : FileKind) (bytes : Bytes) : Group :=
  let file : FileId := ⟨g.partition.appender.baseOffset, kind⟩
  let len := (g.files file).len
  let span : Span := ⟨file, len, len + bytes.length, g.partition.writeSeq + 1⟩
  { g with
    files := Function.update g.files file { g.files file with len := len + bytes.length }
    threads := Function.update g.threads t
      { g.threads t with wrote := (g.threads t).wrote ++ [span] } }

/-- An fsync that began at length `begun` succeeds. -/
def cover (g : Group) (file : FileId) (begun : Nat) : Group :=
  { g with
    files := Function.update g.files file
      { g.files file with covered := max (g.files file).covered begun } }

/-- An fsync fails; the partition is fenced. -/
def poison (g : Group) (file : FileId) (discards : Bool) : Group :=
  let st := g.files file
  { g with
    poisoned := true
    files := Function.update g.files file
      { st with dropped := st.dropped ++ if discards then [(st.covered, st.len)] else [] } }

/-- One step under the appender lock. Nobody else writes to the files meanwhile, so the
fsyncs of `roll` begin and end at the same length. -/
def perform (g : Group) (t : Nat) (op : WriterOp) : Group :=
  let base := g.partition.appender.baseOffset
  let g' := match op with
    | .writeLog bytes => g.write t .log bytes
    | .writeIndex bytes => g.write t .index bytes
    | .syncLog => g.cover ⟨base, .log⟩ (g.files ⟨base, .log⟩).len
    | .syncIndex => g.cover ⟨base, .index⟩ (g.files ⟨base, .index⟩).len
    | _ => g
  { g' with partition := op.apply g.partition }

/-- One step of a thread, in which no fsync fails. -/
def run (g : Group) (t : Nat) : Option Group :=
  match (g.threads t).phase with
  | .idle | .done _ => none
  | .entered records now =>
    if g.appenderHeld then none
    else do
      let (ops, st) ← lockedOps now ⟨g.partition, {}, g.partition.nextOffset, 0, []⟩ records
      some ({ g with appenderHeld := true }.setPhase t (.writing ops (0 < st.fresh)))
  | .writing [] wrote =>
    some ({ g with appenderHeld := false }.setPhase t (.written g.partition.latest wrote))
  | .writing (op :: ops) wrote => some ((g.perform t op).setPhase t (.writing ops wrote))
  | .written mark wrote =>
    let threshold := max g.partition.flushEveryRecords 1
    if wrote ∧ (threshold = 1 ∨ threshold ≤ g.partition.unsynced) then
      some (g.setPhase t (.waiting mark))
    else some (g.setPhase t (.done true))
  | .loading =>
    let mark := g.partition.latest
    some (g.setPhase t (.waiting { mark with seq := max mark.seq 1 }))
  | .waiting mark =>
    if g.syncedHeld then none
    else if mark.seq ≤ g.partition.synced then some (g.setPhase t (.done true))
    else some ({ g with syncedHeld := true }.setPhase t (.holding mark))
  | .holding mark =>
    let newest := g.partition.latest
    some (g.setPhase t (.chosen (if newest.base = mark.base then newest else mark)))
  | .chosen target =>
    some ({ g with partition := { g.partition with unsynced := 0 } }.setPhase t
      (.syncing .log target))
  | .syncing kind target =>
    some (g.setPhase t (.flushing kind (g.files ⟨target.base, kind⟩).len target))
  | .flushing .log begun target =>
    some ((g.cover ⟨target.base, .log⟩ begun).setPhase t (.syncing .index target))
  | .flushing .index begun target =>
    let g := g.cover ⟨target.base, .index⟩ begun
    some ({ g with
      syncedHeld := false
      partition := { g.partition with synced := max g.partition.synced target.seq } }.setPhase t
        (.done true))

/-- The failure of the fsync a thread is in. -/
def fail (g : Group) (t : Nat) (discards : Bool) : Option Group :=
  let base := g.partition.appender.baseOffset
  match (g.threads t).phase with
  | .writing (.syncLog :: _) _ =>
    some ({ g.poison ⟨base, .log⟩ discards with appenderHeld := false }.setPhase t (.done false))
  | .writing (.syncIndex :: _) _ =>
    some ({ g.poison ⟨base, .index⟩ discards with appenderHeld := false }.setPhase t
      (.done false))
  | .flushing kind _ target =>
    some ({ g.poison ⟨target.base, kind⟩ discards with syncedHeld := false }.setPhase t
      (.done false))
  | _ => none

/-- A call begins: `append_batch` looks at the fence, `sync_pending` at the counter. -/
def call (g : Group) (t : Nat) (c : Call) : Option Group :=
  match (g.threads t).phase with
  | .idle =>
    match c with
    | .append records now =>
      some (g.setPhase t (if g.poisoned then .done false else .entered records now))
    | .syncAll => some (g.setPhase t .loading)
    | .syncPending =>
      some (g.setPhase t (if g.partition.unsynced = 0 then .done true else .loading))
  | _ => none

def step (g : Group) : GroupEvent → Option Group
  | .call t c => g.call t c
  | .run t => g.run t
  | .fail t discards => g.fail t discards

/-- An opened partition over files of any length, before the first call. -/
def opened (p : Partition) (len : FileId → Nat) : Group :=
  { partition := p
    files := fun f => ⟨len f, 0, []⟩
    poisoned := false
    appenderHeld := false
    syncedHeld := false
    threads := fun _ => ⟨.idle, []⟩ }

/-- Every interleaving of calls. -/
abbrev Run : Group → Group → Prop := Runs step fun _ _ => True

/-- The step is not a `sync_all` that finds no write since the partition was opened. -/
def AfterWrite (g : Group) (e : GroupEvent) : Prop :=
  ∀ t, e = .run t → (g.threads t).phase = .loading → g.partition.latest.seq ≠ 0

/-- The interleavings in which every `sync_all` finds a write. -/
abbrev SafeRun : Group → Group → Prop := Runs step AfterWrite

/-- Some fsync of the file began after the bytes were written and has succeeded. -/
def Covered (g : Group) (σ : Span) : Prop := σ.stop ≤ (g.files σ.file).covered

/-! ### What a step does -/

/-- The next step of a call, by where it stands. -/
inductive Ran (g : Group) (t : Nat) : Phase → Group → Prop where
  | acquire {records : List AppendRecord} {now : Int64} {ops : List WriterOp} {st : Appending}
    (hfree : g.appenderHeld = false)
    (hops : lockedOps now ⟨g.partition, {}, g.partition.nextOffset, 0, []⟩ records =
      some (ops, st)) :
    Ran g t (.entered records now)
      (setPhase { g with appenderHeld := true } t (.writing ops (0 < st.fresh)))
  | release {w : Bool} :
    Ran g t (.writing [] w)
      (setPhase { g with appenderHeld := false } t (.written g.partition.latest w))
  | perform {op : WriterOp} {ops : List WriterOp} {w : Bool} :
    Ran g t (.writing (op :: ops) w) ((g.perform t op).setPhase t (.writing ops w))
  | flush {m : WriteMark} : Ran g t (.written m true) (g.setPhase t (.waiting m))
  | leave {m : WriteMark} {w : Bool} (hw : w = true → 1 < g.partition.flushEveryRecords) :
    Ran g t (.written m w) (g.setPhase t (.done true))
  | load : Ran g t .loading
      (g.setPhase t (.waiting { g.partition.latest with seq := max g.partition.latest.seq 1 }))
  | find {m : WriteMark} (hle : m.seq ≤ g.partition.synced) :
    Ran g t (.waiting m) (g.setPhase t (.done true))
  | hold {m : WriteMark} :
    Ran g t (.waiting m) (setPhase { g with syncedHeld := true } t (.holding m))
  | choose {m : WriteMark} : Ran g t (.holding m)
      (g.setPhase t (.chosen (if g.partition.latest.base = m.base then g.partition.latest else m)))
  | reset {m : WriteMark} :
    Ran g t (.chosen m) (setPhase { g with partition := { g.partition with unsynced := 0 } } t
      (.syncing .log m))
  | begin {kind : FileKind} {m : WriteMark} : Ran g t (.syncing kind m)
      (g.setPhase t (.flushing kind (g.files ⟨m.base, kind⟩).len m))
  | coverLog {n : Nat} {m : WriteMark} : Ran g t (.flushing .log n m)
      ((g.cover ⟨m.base, .log⟩ n).setPhase t (.syncing .index m))
  | coverIndex {n : Nat} {m : WriteMark} : Ran g t (.flushing .index n m)
      (setPhase { g.cover ⟨m.base, .index⟩ n with
        syncedHeld := false
        partition := { g.partition with synced := max g.partition.synced m.seq } } t (.done true))

theorem ran {g g' : Group} {t : Nat} (hs : g.run t = some g') :
    Ran g t (g.threads t).phase g' := by
  unfold run at hs
  cases hphase : (g.threads t).phase with
  | idle | done => simp [hphase] at hs
  | entered records now =>
    simp only [hphase, Option.ite_none_left_eq_some, Bool.not_eq_true] at hs
    obtain ⟨hfree, hs⟩ := hs
    obtain ⟨⟨ops, st⟩, hops, hs⟩ := Option.bind_eq_some_iff.mp hs
    cases hs
    exact .acquire hfree hops
  | writing ops w =>
    cases ops <;>
    · simp only [hphase, Option.some.injEq] at hs
      subst hs
      constructor
  | written m w =>
    simp only [hphase] at hs
    split at hs
    · rename_i hw
      cases hs
      rw [hw.1]
      exact .flush
    · rename_i hw
      cases hs
      refine .leave fun hwrote => ?_
      by_contra hle
      exact hw ⟨hwrote, .inl (Nat.max_eq_right (Nat.not_lt.mp hle))⟩
  | waiting m =>
    simp only [hphase, Option.ite_none_left_eq_some] at hs
    obtain ⟨_, hs⟩ := hs
    split at hs
    · rename_i hle
      cases hs
      exact .find hle
    · cases hs
      exact .hold
  | loading | holding | chosen | syncing =>
    simp only [hphase, Option.some.injEq] at hs
    subst hs
    constructor
  | flushing kind n m =>
    cases kind <;>
    · simp only [hphase, Option.some.injEq] at hs
      subst hs
      constructor

end Group

end EventStream.Storage
