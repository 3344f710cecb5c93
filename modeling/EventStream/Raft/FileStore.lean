import EventStream.Raft.Counted
import EventStream.Raft.LogFile

/-! The store of a Raft partition (`FileStore` of `raft/log.rs`).

The hard state is one file, replaced as a whole. The log is another, to which entries are appended;
the store keeps for every entry its index and its position in the file, cuts the file at a position
to truncate, and writes it anew to compact. `load` reads both files and cuts off a torn tail.

The files are followed as values: the hard-state file as what its JSON says, the log as its bytes.
When they are fsynced is not modelled here. -/
namespace EventStream.Raft

/-- `log` is where an older format kept the entries; it is only read. -/
structure HardStateFile where
  currentTerm : Nat := 0
  votedFor : Option NodeId := none
  log : List LogEntry := []
  deriving DecidableEq, Repr

structure StoreFiles where
  hardState : Option HardStateFile := none
  log : Option Bytes := none
  deriving DecidableEq, Repr

/-- `positions` has the index and the file position of every entry on disk, in order. -/
structure FileLog where
  isOpen : Bool := false
  positions : List (Nat × Nat) := []
  len : Nat := 0
  deriving DecidableEq, Repr

structure FileStore where
  files : StoreFiles
  inner : FileLog := {}
  deriving DecidableEq, Repr

/-- The entries with these indices do not follow each other. -/
structure NotContiguous where
  index : Nat
  next : Nat
  deriving DecidableEq, Repr

def firstGap : List LogEntry → Option NotContiguous
  | a :: b :: rest =>
    if b.index ≠ a.index + 1 then some ⟨a.index, b.index⟩ else firstGap (b :: rest)
  | _ => none

/-- The index and the position of each entry. -/
def indexed (es : List (LogEntry × Nat)) : List (Nat × Nat) := es.map fun x => (x.1.index, x.2)

namespace FileStore

def new (files : StoreFiles) : FileStore := { files }

def writeHardState (st : FileStore) (term : Nat) (votedFor : Option NodeId) : FileStore :=
  {st with files.hardState := some { currentTerm := term, votedFor }}

/-- The bytes of the log file, none if there is no such file. -/
def bytes (st : FileStore) : Bytes := st.files.log.getD []

def openLog (st : FileStore) : FileStore :=
  if st.inner.isOpen then st
  else
    { st with
      files.log := some st.bytes
      inner.len := st.bytes.length
      inner.isOpen := true }

/-- Write the log file with exactly `entries`. -/
def rewriteLog (st : FileStore) (entries : List LogEntry) : FileStore :=
  openLog { st with
    files.log := some (encodeEntries entries)
    inner :=
      { isOpen := false
        positions := indexed (placed 0 entries)
        len := (encodeEntries entries).length } }

/-- `partition_point` of the positions, which are in the order of the indices. -/
def partitionPoint (st : FileStore) (before : Nat → Bool) : Nat :=
  (st.inner.positions.takeWhile fun x => before x.1).length

def readEntriesAfter (st : FileStore) (through : Nat) : List LogEntry :=
  let first := st.partitionPoint fun i => i ≤ through
  match st.inner.positions[first]? with
  | none => []
  | some (_, start) =>
    (decodeLog ((st.bytes.drop start).take (st.inner.len - start))).1.map Prod.fst

/-- Take over the entries of the older format, if the log file is not there yet. -/
def migrate (st : FileStore) (hard : HardStateFile) : FileStore :=
  if hard.log ≠ [] ∧ st.files.log = none then
    (st.rewriteLog hard.log).writeHardState hard.currentTerm hard.votedFor
  else st

/-- Cut off a torn tail. -/
def cutTail (st : FileStore) (valid : Nat) : FileStore :=
  if valid < st.bytes.length then {st with files.log := some (st.bytes.take valid)} else st

def load (st : FileStore) : Except NotContiguous (PersistedRaft × FileStore) :=
  let hard := st.files.hardState.getD {}
  let st := st.migrate hard
  let (decoded, valid) := decodeLog st.bytes
  let st := st.cutTail valid
  match firstGap (decoded.map Prod.fst) with
  | some e => .error e
  | none =>
    let st := {st with inner := ⟨false, indexed decoded, valid⟩}
    .ok (⟨hard.currentTerm, hard.votedFor, decoded.map Prod.fst⟩,
      if st.files.log.isSome then st.openLog else st)

def append (st : FileStore) (entries : List LogEntry) : FileStore :=
  if entries.isEmpty then st
  else
    let st := st.openLog
    let base := st.inner.len
    { st with
      files.log := some (st.bytes ++ encodeEntries entries)
      inner.positions := st.inner.positions ++ indexed (placed base entries)
      inner.len := base + (encodeEntries entries).length }

def truncateFrom (st : FileStore) (fromIndex : Nat) : FileStore :=
  let cut := st.partitionPoint fun i => i < fromIndex
  match st.inner.positions[cut]? with
  | none => st
  | some (_, pos) =>
    let st := st.openLog
    { st with
      files.log := some (st.bytes.take pos)
      inner.positions := st.inner.positions.take cut
      inner.len := pos }

def compactThrough (st : FileStore) (through : Nat) : FileStore :=
  match st.inner.positions.head? with
  | none => st
  | some (i, _) =>
    if through < i then st
    else
      let st := st.openLog
      st.rewriteLog (st.readEntriesAfter through)

def persistOp (st : FileStore) : PersistOp → FileStore
  | .hardState term votedFor => st.writeHardState term votedFor
  | .append entries => st.append entries
  | .truncateFrom fromIndex => st.truncateFrom fromIndex
  | .compactThrough through => st.compactThrough through

/-- The operations, in order. -/
def persist (st : FileStore) (ops : List PersistOp) : FileStore := ops.foldl persistOp st

/-- The files after a crash that cuts an append after `k` of its bytes. -/
def cutAppend (st : FileStore) (entries : List LogEntry) (k : Nat) : StoreFiles :=
  if entries.isEmpty then st.files
  else {st.files with log := some (st.bytes ++ (encodeEntries entries).take k)}

end FileStore

/-! ### Entries in the order of their indices -/

variable {es : List LogEntry}

theorem contiguous_pairwise (h : contiguous es) : es.Pairwise fun a b => a.index < b.index := by
  have hlt : es.IsChain fun a b => a.index < b.index :=
    (contiguous_iff.mp h).imp fun a b hab => by omega
  exact List.isChain_iff_pairwise.mp hlt

theorem filter_eq_takeWhile (h : es.Pairwise fun a b => a.index < b.index) (cut : Nat) :
    es.filter (fun e => e.index < cut) = es.takeWhile fun e => decide (e.index < cut) := by
  induction h with
  | nil => rfl
  | @cons e es he _ ih =>
    by_cases hlt : e.index < cut
    · rw [List.filter_cons_of_pos (by simpa using hlt),
        List.takeWhile_cons_of_pos (by simpa using hlt), ih]
    · rw [List.filter_cons_of_neg (by simpa using hlt),
        List.takeWhile_cons_of_neg (by simpa using hlt), List.filter_eq_nil_iff]
      intro x hx
      have := he x hx
      simp only [decide_eq_true_eq]
      omega

theorem filter_eq_dropWhile (h : es.Pairwise fun a b => a.index < b.index) (cut : Nat) :
    es.filter (fun e => cut < e.index) = es.dropWhile fun e => decide (e.index ≤ cut) := by
  induction h with
  | nil => rfl
  | @cons e es he _ ih =>
    by_cases hle : e.index ≤ cut
    · rw [List.filter_cons_of_neg (by simpa using hle),
        List.dropWhile_cons_of_pos (by simpa using hle), ih]
    · rw [List.dropWhile_cons_of_neg (by simpa using hle), List.filter_eq_self]
      intro x hx
      rw [decide_eq_true_eq]
      rcases List.mem_cons.mp hx with rfl | hx
      · omega
      · have := he x hx
        omega

theorem contiguous_part {es' : List LogEntry} (h : contiguous es) (hin : es' <:+: es) :
    contiguous es' := by
  obtain ⟨before, after, rfl⟩ := hin
  exact contiguous_iff.mpr (contiguous_iff.mp h).left_of_append.right_of_append

theorem firstGap_eq_none (h : contiguous es) : firstGap es = none := by
  induction es with
  | nil => rfl
  | cons a es ih =>
    cases es with
    | nil => rfl
    | cons b es =>
      rw [contiguous, Bool.and_eq_true, beq_iff_eq] at h
      rw [firstGap, if_neg (not_not.mpr h.1), ih h.2]

/-! ### The files hold what the memory store holds -/

/-- An entry of a buffer stands behind the encodings of those before it. -/
theorem indexed_placed (pos k : Nat) (es : List LogEntry) :
    (indexed (placed pos es))[k]? =
      es[k]?.map fun e => (e.index, pos + (encodeEntries (es.take k)).length) := by
  induction es generalizing pos k with
  | nil => rfl
  | cons e es ih =>
    cases k with
    | zero => rfl
    | succ k =>
      rw [List.take_succ_cons, encodeEntries_cons, List.length_append, ← Nat.add_assoc]
      exact ih (pos + (encodeEntry e).length) k

theorem indexed_placed_append (pos : Nat) (es es' : List LogEntry) :
    indexed (placed pos (es ++ es')) =
      indexed (placed pos es) ++ indexed (placed (pos + (encodeEntries es).length) es') := by
  rw [placed_append, indexed, List.map_append]
  rfl

theorem map_fst_indexed (pos : Nat) (es : List LogEntry) :
    (indexed (placed pos es)).map Prod.fst = es.map LogEntry.index := by
  rw [indexed, List.map_map, ← congrArg (List.map LogEntry.index) (map_fst_placed pos es),
    List.map_map]
  rfl

namespace FileStore

structure Holds (st : FileStore) (d : PersistedRaft) : Prop where
  hardState : st.files.hardState.getD {} = ⟨d.currentTerm, d.votedFor, []⟩
  bytes : st.bytes = encodeEntries d.log
  isOpen : st.inner.isOpen = st.files.log.isSome
  positions : st.inner.positions = indexed (placed 0 d.log)
  len : st.inner.len = (encodeEntries d.log).length
  contiguous : contiguous d.log
  fits : ∀ e ∈ d.log, e.Fits

variable {st : FileStore} {d : PersistedRaft} {log es : List LogEntry} {files : StoreFiles}

section
variable (h : st.Holds d)
include h

namespace Holds

theorem writeHardState (term : Nat) (votedFor : Option NodeId) :
    (st.writeHardState term votedFor).Holds {d with currentTerm := term, votedFor} :=
  ⟨rfl, h.bytes, h.isOpen, h.positions, h.len, h.contiguous, h.fits⟩

theorem openLog :
    st.openLog.Holds d ∧ st.openLog.inner.isOpen = true ∧
      st.openLog.inner.positions = st.inner.positions := by
  unfold FileStore.openLog
  split
  · rename_i hopen
    exact ⟨h, hopen, rfl⟩
  · exact ⟨⟨h.hardState, h.bytes, rfl, h.positions, congrArg List.length h.bytes, h.contiguous,
      h.fits⟩, rfl, rfl⟩

/-- The store is left with other entries, in a file that is open. -/
theorem withLog {st' : FileStore} (hhard : st'.files.hardState = st.files.hardState)
    (hbytes : st'.files.log = some (encodeEntries log)) (hopen : st'.inner.isOpen = true)
    (hpos : st'.inner.positions = indexed (placed 0 log))
    (hlen : st'.inner.len = (encodeEntries log).length) (hcontig : Raft.contiguous log)
    (hfits : ∀ e ∈ log, e.Fits) : st'.Holds {d with log} where
  hardState := hhard ▸ h.hardState
  bytes := by rw [FileStore.bytes, hbytes, Option.getD_some]
  isOpen := by rw [hopen, hbytes, Option.isSome_some]
  positions := hpos
  len := hlen
  contiguous := hcontig
  fits := hfits

theorem rewriteLog (hcontig : Raft.contiguous log) (hfits : ∀ e ∈ log, e.Fits) :
    (st.rewriteLog log).Holds {d with log} :=
  h.withLog rfl rfl rfl rfl rfl hcontig hfits

theorem append {es : List LogEntry} (hcontig : Raft.contiguous (d.log ++ es))
    (hfits : ∀ e ∈ es, e.Fits) : (st.append es).Holds {d with log := d.log ++ es} := by
  obtain ⟨hopen, hisOpen, -⟩ := h.openLog
  unfold FileStore.append
  split
  · rename_i hempty
    rw [List.isEmpty_iff.mp hempty, List.append_nil]
    exact h
  · refine hopen.withLog rfl ?_ hisOpen ?_ ?_ hcontig fun e he => ?_
    · show some (st.openLog.bytes ++ _) = _
      rw [hopen.bytes, encodeEntries_append]
    · show st.openLog.inner.positions ++ _ = _
      rw [hopen.positions, hopen.len, indexed_placed_append, Nat.zero_add]
    · show st.openLog.inner.len + _ = _
      rw [hopen.len, encodeEntries_append, List.length_append]
    · rcases List.mem_append.mp he with he | he
      · exact h.fits e he
      · exact hfits e he

/-- `partition_point` finds as many entries as start the log with such an index. -/
theorem partitionPoint_eq (before : Nat → Bool) :
    st.partitionPoint before = (d.log.takeWhile fun e => before e.index).length := by
  have hmap : (d.log.takeWhile fun e => before e.index).map LogEntry.index =
      (st.inner.positions.takeWhile fun x => before x.1).map Prod.fst := by
    have hleft := List.takeWhile_map (f := LogEntry.index) (p := before) (l := d.log)
    have hright := List.takeWhile_map (f := Prod.fst) (p := before) (l := st.inner.positions)
    rw [h.positions, map_fst_indexed, hleft] at hright
    rw [h.positions]
    exact hright
  have hlen := congrArg List.length hmap
  rw [List.length_map, List.length_map] at hlen
  exact hlen.symm

/-- The positions before and at a cut. -/
theorem positions_cut {kept rest : List LogEntry} (hsplit : d.log = kept ++ rest) :
    st.inner.positions.take kept.length = indexed (placed 0 kept) ∧
      st.inner.positions[kept.length]? =
        rest.head?.map fun e => (e.index, (encodeEntries kept).length) := by
  rw [h.positions, hsplit]
  constructor
  · have hlen : (indexed (placed 0 kept)).length = kept.length := by
      have := congrArg List.length (map_fst_indexed 0 kept)
      rwa [List.length_map, List.length_map] at this
    rw [indexed_placed_append, List.take_left' hlen]
  · rw [indexed_placed, List.getElem?_append_right (Nat.le_refl _), Nat.sub_self, List.take_left,
      Nat.zero_add, List.head?_eq_getElem?]

theorem truncateFrom (fromIndex : Nat) :
    (st.truncateFrom fromIndex).Holds (d.persistOp (.truncateFrom fromIndex)) := by
  obtain ⟨hopen, hisOpen, hsame⟩ := h.openLog
  obtain ⟨kept, hkept⟩ : ∃ kept, kept = d.log.takeWhile fun e => decide (e.index < fromIndex) :=
    ⟨_, rfl⟩
  obtain ⟨rest, hrest⟩ : ∃ rest, rest = d.log.dropWhile fun e => decide (e.index < fromIndex) :=
    ⟨_, rfl⟩
  have hsplit : d.log = kept ++ rest := by
    rw [hkept, hrest, List.takeWhile_append_dropWhile]
  have hmem : d.persistOp (.truncateFrom fromIndex) = {d with log := kept} := by
    rw [PersistedRaft.persistOp, filter_eq_takeWhile (contiguous_pairwise h.contiguous), hkept]
  obtain ⟨htake, hat⟩ := h.positions_cut hsplit
  unfold FileStore.truncateFrom
  rw [hmem, h.partitionPoint_eq, ← hkept]
  dsimp only
  rw [hat]
  cases rest with
  | nil =>
    rw [List.append_nil] at hsplit
    rw [← hsplit]
    exact h
  | cons e rest =>
    refine hopen.withLog rfl ?_ hisOpen ?_ rfl ?_ fun x hx => ?_
    · show some (st.openLog.bytes.take _) = _
      rw [hopen.bytes, hsplit, encodeEntries_append, List.take_left]
    · show st.openLog.inner.positions.take _ = _
      rw [hsame, htake]
    · exact contiguous_part h.contiguous (hsplit ▸ (List.prefix_append _ _).isInfix)
    · exact h.fits x (hsplit ▸ List.mem_append_left _ hx)

theorem readEntriesAfter_eq (through : Nat) :
    st.readEntriesAfter through = d.log.dropWhile fun e => decide (e.index ≤ through) := by
  obtain ⟨kept, hkept⟩ : ∃ kept, kept = d.log.takeWhile fun e => decide (e.index ≤ through) :=
    ⟨_, rfl⟩
  obtain ⟨rest, hrest⟩ : ∃ rest, rest = d.log.dropWhile fun e => decide (e.index ≤ through) :=
    ⟨_, rfl⟩
  have hsplit : d.log = kept ++ rest := by
    rw [hkept, hrest, List.takeWhile_append_dropWhile]
  obtain ⟨-, hat⟩ := h.positions_cut hsplit
  unfold FileStore.readEntriesAfter
  rw [h.partitionPoint_eq, ← hkept, ← hrest]
  dsimp only
  rw [hat]
  cases rest with
  | nil => rfl
  | cons e rest =>
    have hfits : ∀ x ∈ e :: rest, x.Fits :=
      fun x hx => h.fits x (hsplit ▸ List.mem_append_right _ hx)
    dsimp only [List.head?_cons, Option.map_some]
    rw [h.bytes, h.len, hsplit, encodeEntries_append, List.drop_left, List.length_append,
      Nat.add_sub_cancel_left, List.take_length, decodeLog_encode hfits, map_fst_placed]

theorem compactThrough (through : Nat) :
    (st.compactThrough through).Holds (d.persistOp (.compactThrough through)) := by
  have hmem : d.persistOp (.compactThrough through) =
      {d with log := d.log.dropWhile fun e => decide (e.index ≤ through)} := by
    rw [PersistedRaft.persistOp, filter_eq_dropWhile (contiguous_pairwise h.contiguous)]
  have hfirst : st.inner.positions.head? = d.log.head?.map fun e => (e.index, 0) := by
    rw [h.positions, List.head?_eq_getElem?, indexed_placed, List.head?_eq_getElem?]
    rfl
  obtain ⟨hopen, -, -⟩ := h.openLog
  have hsuffix := List.dropWhile_suffix (l := d.log) fun e => decide (e.index ≤ through)
  unfold FileStore.compactThrough
  rw [hmem, hfirst]
  cases hlog : d.log with
  | nil =>
    show st.Holds {d with log := []}
    rw [← hlog]
    exact h
  | cons e es =>
    dsimp only [List.head?_cons, Option.map_some]
    split
    · rename_i hlt
      rw [List.dropWhile_cons_of_neg (by simpa using hlt), ← hlog]
      exact h
    · rw [hopen.readEntriesAfter_eq, ← hlog]
      exact hopen.rewriteLog (contiguous_part h.contiguous hsuffix.isInfix)
        fun x hx => h.fits x (hsuffix.subset hx)

end Holds

end

/-! ### Batches, reloads and a crash -/

/-- An append carries entries that follow what is stored and that have room in the format. -/
def Allowed (d : PersistedRaft) : PersistOp → Prop
  | .append es => Raft.contiguous (d.log.getLast?.toList ++ es) ∧ ∀ e ∈ es, e.Fits
  | _ => True

/-- Each operation of a batch is allowed when its turn comes. -/
def AllowedOps : PersistedRaft → List PersistOp → Prop
  | _, [] => True
  | d, op :: ops => Allowed d op ∧ AllowedOps (d.persistOp op) ops

/-- Entries that follow the last one follow all. -/
theorem contiguous_append (hlog : Raft.contiguous log)
    (hes : Raft.contiguous (log.getLast?.toList ++ es)) : Raft.contiguous (log ++ es) := by
  rw [contiguous_iff] at hlog hes ⊢
  refine hlog.append hes.right_of_append fun x hx y hy => ?_
  rw [Option.mem_def.mp hx] at hes
  exact (List.isChain_append.mp hes).2.2 x rfl y hy

theorem Holds.persistOp (h : st.Holds d) {op : PersistOp} (hop : Allowed d op) :
    (st.persistOp op).Holds (d.persistOp op) := by
  cases op with
  | hardState term votedFor => exact h.writeHardState term votedFor
  | append es => exact h.append (contiguous_append h.contiguous hop.1) hop.2
  | truncateFrom fromIndex => exact h.truncateFrom fromIndex
  | compactThrough through => exact h.compactThrough through

theorem Holds.persist (h : st.Holds d) {ops : List PersistOp} (hops : AllowedOps d ops) :
    (st.persist ops).Holds (d.persist ops) := by
  induction ops generalizing st d with
  | nil => exact h
  | cons op ops ih => exact ih (h.persistOp hops.1) hops.2

/-- How `load` leaves a store whose log file has been cut to its valid part. -/
theorem holds_of_decoded {inner : FileLog}
    (hhard : files.hardState.getD {} = ⟨d.currentTerm, d.votedFor, []⟩)
    (hbytes : files.log.getD [] = encodeEntries d.log)
    (hinner : inner = ⟨false, indexed (placed 0 d.log), (encodeEntries d.log).length⟩)
    (hcontig : Raft.contiguous d.log) (hfits : ∀ e ∈ d.log, e.Fits) :
    (if files.log.isSome then (FileStore.mk files inner).openLog else ⟨files, inner⟩).Holds d := by
  subst hinner
  split
  · exact ⟨hhard, hbytes, rfl, rfl, congrArg List.length hbytes, hcontig, hfits⟩
  · rename_i hnone
    exact ⟨hhard, hbytes, ((Bool.not_eq_true _).mp hnone).symm, rfl, rfl, hcontig, hfits⟩

theorem cutTail_eq {valid : Nat} {bytes : Bytes} (h : st.bytes.take valid = bytes) :
    (st.cutTail valid).files.hardState = st.files.hardState ∧ (st.cutTail valid).bytes = bytes := by
  unfold FileStore.cutTail
  split
  · exact ⟨rfl, h⟩
  · rename_i hle
    rw [List.take_of_length_le (Nat.le_of_not_lt hle)] at h
    exact ⟨rfl, h⟩

/-- What `load` makes of files that end somewhere in the last write. -/
theorem load_cut {term : Nat} {votedFor : Option NodeId} {k : Nat}
    (hhard : files.hardState.getD {} = ⟨term, votedFor, []⟩)
    (hbytes : files.log.getD [] = (encodeEntries es).take k) (hcontig : Raft.contiguous es)
    (hfits : ∀ e ∈ es, e.Fits) :
    ∃ st, (FileStore.new files).load = .ok (⟨term, votedFor, fitting k es⟩, st) ∧
      st.Holds ⟨term, votedFor, fitting k es⟩ := by
  have hpre := fitting_isPrefix k es
  have hcontig' := contiguous_part hcontig hpre.isInfix
  have hfits' : ∀ e ∈ fitting k es, e.Fits := fun e he => hfits e (hpre.subset he)
  have hmigrate : (FileStore.new files).migrate ⟨term, votedFor, []⟩ = FileStore.new files :=
    if_neg fun h => h.1 rfl
  have hdecode : decodeLog (FileStore.new files).bytes = (placed 0 (fitting k es),
      (encodeEntries (fitting k es)).length) :=
    (congrArg decodeLog hbytes).trans (decodeLog_take hfits k)
  have hvalid : (FileStore.new files).bytes.take (encodeEntries (fitting k es)).length =
      encodeEntries (fitting k es) := by
    obtain ⟨rest, hrest⟩ := hpre
    have hle := fitting_le k es
    rw [show (FileStore.new files).bytes = _ from hbytes, List.take_take,
      Nat.min_eq_left (by omega)]
    conv_lhs =>
      arg 2
      rw [← hrest, encodeEntries_append]
    rw [List.take_left]
  obtain ⟨hcutHard, hcutBytes⟩ := cutTail_eq hvalid
  unfold FileStore.load
  simp only [show (FileStore.new files).files.hardState.getD {} = _ from hhard, hmigrate, hdecode,
    map_fst_placed, firstGap_eq_none hcontig']
  refine ⟨_, rfl, ?_⟩
  refine holds_of_decoded (d := ⟨term, votedFor, fitting k es⟩) ?_ hcutBytes rfl hcontig' hfits'
  rw [hcutHard]
  exact hhard

/-- What `load` finds behind an append that was cut. -/
theorem Holds.load_crash (h : st.Holds d) (hop : Allowed d (.append es)) (k : Nat) :
    ∃ st', (FileStore.new (st.cutAppend es k)).load =
        .ok ({d with log := d.log ++ fitting k es}, st') ∧
      st'.Holds {d with log := d.log ++ fitting k es} := by
  have hfits : ∀ e ∈ d.log ++ es, e.Fits := by
    intro e he
    rcases List.mem_append.mp he with he | he
    · exact h.fits e he
    · exact hop.2 e he
  have hbytes : (st.cutAppend es k).log.getD [] =
      (encodeEntries (d.log ++ es)).take ((encodeEntries d.log).length + k) := by
    rw [encodeEntries_append, List.take_length_add_append, ← h.bytes]
    unfold FileStore.cutAppend
    split
    · rename_i hempty
      rw [List.isEmpty_iff.mp hempty, encodeEntries, List.flatMap_nil, List.take_nil,
        List.append_nil]
      rfl
    · rfl
  have hhard : (st.cutAppend es k).hardState.getD {} = ⟨d.currentTerm, d.votedFor, []⟩ := by
    unfold FileStore.cutAppend
    split <;> exact h.hardState
  have hload := load_cut hhard hbytes (contiguous_append h.contiguous hop.1) hfits
  rwa [fitting_append (Nat.le_add_right _ _), Nat.add_sub_cancel_left] at hload

theorem Holds.load (h : st.Holds d) :
    ∃ st', (FileStore.new st.files).load = .ok (d, st') ∧ st'.Holds d := by
  have hnone : Allowed d (.append []) := by
    refine ⟨?_, nofun⟩
    rw [List.append_nil]
    cases d.log.getLast? <;> rfl
  have hload := h.load_crash hnone 0
  rwa [fitting, List.append_nil] at hload

end FileStore

/-- A file store beside a memory store that is given the same operations. -/
structure Stores where
  file : FileStore
  mem : PersistedRaft

inductive StoreEvent where
  | persist (ops : List PersistOp)
  | reopen
  /-- A crash cuts the append at the end of a batch after `k` of its bytes, and the store is opened
  again. The memory store goes on with what was loaded. -/
  | crash (ops : List PersistOp) (entries : List LogEntry) (k : Nat)
  deriving DecidableEq, Repr

namespace Stores

def step (s : Stores) : StoreEvent → Except NotContiguous Stores
  | .persist ops => .ok ⟨s.file.persist ops, s.mem.persist ops⟩
  | .reopen => (FileStore.new s.file.files).load.map fun x => {s with file := x.2}
  | .crash ops entries k =>
    (FileStore.new ((s.file.persist ops).cutAppend entries k)).load.map fun x => ⟨x.2, x.1⟩

def Allows (s : Stores) : StoreEvent → Prop
  | .persist ops => FileStore.AllowedOps s.mem ops
  | .reopen => True
  | .crash ops entries _ =>
    FileStore.AllowedOps s.mem ops ∧ FileStore.Allowed (s.mem.persist ops) (.append entries)

/-- The runs from a directory that is not there yet. -/
inductive Reachable : Stores → Prop where
  | start : Reachable ⟨FileStore.new {}, {}⟩
  | step {s s' : Stores} {e : StoreEvent} (h : Reachable s) (hallow : s.Allows e)
    (hstep : s.step e = .ok s') : Reachable s'

theorem Reachable.holds {s : Stores} (h : s.Reachable) : s.file.Holds s.mem := by
  induction h with
  | start => exact ⟨rfl, rfl, rfl, rfl, rfl, rfl, nofun⟩
  | @step s s' e _ hallow hstep ih =>
    cases e with
    | persist ops =>
      cases hstep
      exact ih.persist hallow
    | reopen =>
      obtain ⟨st, hload, hst⟩ := ih.load
      simp only [Stores.step, hload] at hstep
      cases hstep
      exact hst
    | crash ops entries k =>
      obtain ⟨st, hload, hst⟩ := (ih.persist hallow.1).load_crash hallow.2 k
      simp only [Stores.step, hload] at hstep
      cases hstep
      exact hst

end Stores

/-- After any batches, reloads and crashes, `load` succeeds and returns what the memory store
holds; behind an append that is cut short it returns that with a prefix of the append's entries. -/
theorem file_store_refines {s : Stores} (h : s.Reachable) :
    (∃ st, (FileStore.new s.file.files).load = .ok (s.mem, st)) ∧
      ∀ ops es k, FileStore.AllowedOps s.mem ops →
        FileStore.Allowed (s.mem.persist ops) (.append es) →
        ∃ st pre, pre <+: es ∧
          (FileStore.new ((s.file.persist ops).cutAppend es k)).load =
            .ok ({s.mem.persist ops with log := (s.mem.persist ops).log ++ pre}, st) := by
  refine ⟨?_, fun ops es k hops hes => ?_⟩
  · obtain ⟨st, hload, -⟩ := h.holds.load
    exact ⟨st, hload⟩
  · obtain ⟨st, hload, -⟩ := (h.holds.persist hops).load_crash hes k
    exact ⟨st, fitting k es, fitting_isPrefix k es, hload⟩

def firstBatch : List PersistOp :=
  [.hardState 2 (some 7), .append [⟨1, 1, [10]⟩, ⟨1, 2, [20]⟩]]

/-- The second entry is replaced and the first compacted, in one batch. -/
def secondBatch : List PersistOp :=
  [.truncateFrom 2, .append [⟨2, 2, [30]⟩], .compactThrough 1]

def afterBatches : Stores :=
  ⟨((FileStore.new {}).persist firstBatch).persist secondBatch,
    (PersistedRaft.persist {} firstBatch).persist secondBatch⟩

theorem afterBatches_reachable : afterBatches.Reachable := by
  have hfits : ∀ e : LogEntry, e.term ≤ 2 → e.index ≤ 2 → e.payload.length ≤ 1 → e.Fits := by
    intro e hterm hindex hpayload
    refine ⟨?_, ?_, ?_⟩
    · exact Nat.le_trans hterm (by decide)
    · exact Nat.le_trans hindex (by decide)
    · rw [length_encodeEntry, maxEntryBytes]
      omega
  refine .step (e := .persist secondBatch) (.step (e := .persist firstBatch) .start ?_ rfl) ?_ rfl
  · refine ⟨trivial, ⟨by decide, ?_⟩, trivial⟩
    simp [hfits]
  · refine ⟨trivial, ⟨by decide, ?_⟩, trivial, trivial⟩
    simp [hfits]

theorem file_store_refines_batches :
    afterBatches.mem = ⟨2, some 7, [⟨2, 2, [30]⟩]⟩ ∧
      (∃ st, (FileStore.new afterBatches.file.files).load = .ok (afterBatches.mem, st)) ∧
      ∀ ops es k, FileStore.AllowedOps afterBatches.mem ops →
        FileStore.Allowed (afterBatches.mem.persist ops) (.append es) →
        ∃ st pre, pre <+: es ∧
          (FileStore.new ((afterBatches.file.persist ops).cutAppend es k)).load =
            .ok ({afterBatches.mem.persist ops with
              log := (afterBatches.mem.persist ops).log ++ pre}, st) :=
  ⟨by decide, file_store_refines afterBatches_reachable⟩

end EventStream.Raft
