import EventStream.Raft.Log
import EventStream.Storage.Record

/-! Raft's log file (`raft/log.rs`).

An entry is written as its length, a checksum, its term, its index and its payload. Of a file that
ends somewhere within the last write exactly the whole entries are read back, with the positions
they stand at (`decodeLog_take`). -/
namespace EventStream.Raft

open Storage (Checksum)
open Storage.Checksum

def entryHeader : Nat := 4 + 4 + 8 + 8

/-- A record that claims to be larger is refused. -/
def maxEntryBytes : Nat := 512 * 1024 * 1024

/-- What the checksum covers. -/
def entryBody (e : LogEntry) : Bytes := beBytes 8 e.term ++ (beBytes 8 e.index ++ e.payload)

theorem length_entryBody (e : LogEntry) : (entryBody e).length = 16 + e.payload.length := by
  simp only [entryBody, List.length_append, length_beBytes]
  omega

section
variable [Checksum]

def encodeEntry (e : LogEntry) : Bytes :=
  beBytes 4 (4 + 8 + 8 + e.payload.length) ++ (beBytes 4 (crc32 (entryBody e)) ++ entryBody e)

/-- A buffer the entries are encoded into one after the other. -/
def encodeEntries (es : List LogEntry) : Bytes := es.flatMap encodeEntry

/-- The loop of `decodeLog`: `rest` is what is left of the file at `pos`. -/
def decodeLoop : Nat → Nat → Bytes → List (LogEntry × Nat) × Nat
  | 0, pos, _ => ([], pos)
  | fuel + 1, pos, rest =>
    if rest.length < entryHeader then ([], pos)
    else
      let bodyLen := beNat (rest.take 4)
      if bodyLen < 20 ∨ maxEntryBytes < bodyLen ∨ rest.length < 4 + bodyLen then ([], pos)
      else
        let crc := beNat ((rest.drop 4).take 4)
        let body := (rest.drop 8).take (bodyLen - 4)
        if crc32 body ≠ crc then ([], pos)
        else
          let e : LogEntry :=
            { term := beNat (body.take 8)
              index := beNat ((body.drop 8).take 8)
              payload := body.drop 16 }
          let (out, valid) := decodeLoop fuel (pos + 4 + bodyLen) (rest.drop (4 + bodyLen))
          ((e, pos) :: out, valid)

/-- The entries of a file with their positions, and the length of what is valid. Each round takes
a byte at least, so that there are no more rounds than bytes. -/
def decodeLog (bytes : Bytes) : List (LogEntry × Nat) × Nat := decodeLoop bytes.length 0 bytes

/-! ### Reading back -/

/-- An entry whose fields have room in the format. -/
structure LogEntry.Fits (e : LogEntry) : Prop where
  term : e.term ≤ u64Max
  index : e.index ≤ u64Max
  size : (encodeEntry e).length ≤ maxEntryBytes

theorem length_encodeEntry (e : LogEntry) : (encodeEntry e).length = 24 + e.payload.length := by
  simp only [encodeEntry, List.length_append, length_beBytes, length_entryBody]
  omega

theorem encodeEntries_cons (e : LogEntry) (es : List LogEntry) :
    encodeEntries (e :: es) = encodeEntry e ++ encodeEntries es := List.flatMap_cons

theorem encodeEntries_append (es es' : List LogEntry) :
    encodeEntries (es ++ es') = encodeEntries es ++ encodeEntries es' := List.flatMap_append

variable {e : LogEntry} {k : Nat} {es : List LogEntry}

/-- The fields of an entry at the start of some bytes. -/
theorem take_bodyLen (h : e.Fits) (rest : Bytes) :
    beNat ((encodeEntry e ++ rest).take 4) = 20 + e.payload.length := by
  have hsize := h.size
  rw [length_encodeEntry, maxEntryBytes] at hsize
  rw [encodeEntry, List.append_assoc, List.take_left' (length_beBytes ..),
    beNat_beBytes (by omega)]

theorem decodeLoop_encode (h : e.Fits) (fuel pos : Nat) (rest : Bytes) :
    decodeLoop (fuel + 1) pos (encodeEntry e ++ rest) =
      ((e, pos) :: (decodeLoop fuel (pos + (encodeEntry e).length) rest).1,
        (decodeLoop fuel (pos + (encodeEntry e).length) rest).2) := by
  have hsize := h.size
  have hlen := length_encodeEntry e
  have hmax : u64Max < 256 ^ 8 := by decide
  have hterm := h.term
  have hindex := h.index
  have hbodyLen := take_bodyLen h rest
  have htotal : 4 + (20 + e.payload.length) = (encodeEntry e).length := by omega
  have hcrc : ((encodeEntry e ++ rest).drop 4).take 4 = beBytes 4 (crc32 (entryBody e)) := by
    rw [encodeEntry, List.append_assoc, List.drop_left' (length_beBytes ..), List.append_assoc,
      List.take_left' (length_beBytes ..)]
  have hbody : ((encodeEntry e ++ rest).drop 8).take (20 + e.payload.length - 4) =
      entryBody e := by
    rw [encodeEntry, List.append_assoc, show 8 = 4 + 4 from rfl, ← List.drop_drop,
      List.drop_left' (length_beBytes ..), List.append_assoc, List.drop_left' (length_beBytes ..),
      List.take_left' (by rw [length_entryBody]; omega)]
  have hentry : (⟨beNat ((entryBody e).take 8), beNat (((entryBody e).drop 8).take 8),
      (entryBody e).drop 16⟩ : LogEntry) = e := by
    rw [entryBody, List.take_left' (length_beBytes ..), List.drop_left' (length_beBytes ..),
      List.take_left' (length_beBytes ..), show 16 = 8 + 8 from rfl, ← List.drop_drop,
      List.drop_left' (length_beBytes ..), List.drop_left' (length_beBytes ..),
      beNat_beBytes (by omega), beNat_beBytes (by omega)]
  rw [decodeLoop, if_neg (by rw [List.length_append, entryHeader]; omega)]
  simp only [hbodyLen, hcrc, hbody]
  have hstored : beNat (beBytes 4 (crc32 (entryBody e))) = crc32 (entryBody e) :=
    beNat_beBytes (by have := crc32_lt (entryBody e); omega)
  rw [if_neg (by rw [List.length_append]; omega), hstored, if_neg (by simp), hentry, Nat.add_assoc,
    htotal, List.drop_left]

/-- An entry of which only a part was written is not read. -/
theorem decodeLoop_torn (h : e.Fits) (hk : k < (encodeEntry e).length) (fuel pos : Nat) :
    decodeLoop fuel pos ((encodeEntry e).take k) = ([], pos) := by
  cases fuel with
  | zero => rfl
  | succ fuel =>
    have hlen : ((encodeEntry e).take k).length = k := by
      rw [List.length_take, Nat.min_eq_left (Nat.le_of_lt hk)]
    rw [decodeLoop]
    by_cases hshort : k < entryHeader
    · rw [if_pos (by rw [hlen]; exact hshort)]
    · have htake : ((encodeEntry e).take k).take 4 = (encodeEntry e ++ []).take 4 := by
        rw [entryHeader] at hshort
        rw [List.take_take, Nat.min_eq_left (by omega), List.append_nil]
      rw [length_encodeEntry] at hk
      rw [if_neg (by rw [hlen]; exact hshort)]
      dsimp only
      rw [htake, take_bodyLen h, if_pos (by rw [hlen]; omega)]

/-- The entries of a buffer with the positions they start at, the first at `pos`. -/
def placed : Nat → List LogEntry → List (LogEntry × Nat)
  | _, [] => []
  | pos, e :: es => (e, pos) :: placed (pos + (encodeEntry e).length) es

/-- The longest prefix of the entries that has room in `k` bytes. -/
def fitting : Nat → List LogEntry → List LogEntry
  | _, [] => []
  | k, e :: es =>
    if (encodeEntry e).length ≤ k then e :: fitting (k - (encodeEntry e).length) es else []

theorem fitting_isPrefix (k : Nat) (es : List LogEntry) : fitting k es <+: es := by
  induction es generalizing k with
  | nil => exact List.prefix_rfl
  | cons e es ih =>
    unfold fitting
    split
    · exact List.cons_prefix_cons.mpr ⟨rfl, ih _⟩
    · exact List.nil_prefix

theorem fitting_le (k : Nat) (es : List LogEntry) :
    (encodeEntries (fitting k es)).length ≤ min k (encodeEntries es).length := by
  induction es generalizing k with
  | nil => exact Nat.zero_le _
  | cons e es ih =>
    unfold fitting
    split
    · have := ih (k - (encodeEntry e).length)
      rw [encodeEntries_cons, encodeEntries_cons, List.length_append, List.length_append]
      omega
    · exact Nat.zero_le _

theorem fitting_all (h : (encodeEntries es).length ≤ k) : fitting k es = es := by
  induction es generalizing k with
  | nil => rfl
  | cons e es ih =>
    rw [encodeEntries_cons, List.length_append] at h
    rw [fitting, if_pos (by omega), ih (by omega)]

theorem fitting_append {es' : List LogEntry} (h : (encodeEntries es).length ≤ k) :
    fitting k (es ++ es') = es ++ fitting (k - (encodeEntries es).length) es' := by
  induction es generalizing k with
  | nil => rfl
  | cons e es ih =>
    rw [encodeEntries_cons, List.length_append] at h ⊢
    rw [List.cons_append, fitting, if_pos (by omega), ih (by omega), Nat.sub_sub, List.cons_append]

theorem decodeLoop_take (h : ∀ e ∈ es, e.Fits) (k pos : Nat) {fuel : Nat}
    (hfuel : (fitting k es).length ≤ fuel) :
    decodeLoop fuel pos ((encodeEntries es).take k) =
      (placed pos (fitting k es), pos + (encodeEntries (fitting k es)).length) := by
  induction es generalizing k pos fuel with
  | nil =>
    rw [encodeEntries, List.flatMap_nil, List.take_nil]
    cases fuel <;> rfl
  | cons e es ih =>
    have he := h e List.mem_cons_self
    by_cases hfit : (encodeEntry e).length ≤ k
    · have hfitting : fitting k (e :: es) = e :: fitting (k - (encodeEntry e).length) es :=
        if_pos hfit
      rw [hfitting, List.length_cons] at hfuel
      obtain ⟨fuel, rfl⟩ : ∃ f, fuel = f + 1 := ⟨fuel - 1, by omega⟩
      rw [hfitting, encodeEntries_cons, List.take_append, List.take_of_length_le hfit,
        decodeLoop_encode he,
        ih (fun x hx => h x (List.mem_cons_of_mem _ hx)) _ _ (by omega), placed,
        encodeEntries_cons, List.length_append, Nat.add_assoc]
    · have hfitting : fitting k (e :: es) = [] := if_neg hfit
      rw [hfitting, encodeEntries_cons, List.take_append_of_le_length (by omega),
        decodeLoop_torn he (by omega)]
      rfl

theorem length_le_encodeEntries (es : List LogEntry) : es.length ≤ (encodeEntries es).length := by
  induction es with
  | nil => exact Nat.le_refl _
  | cons e es ih =>
    rw [encodeEntries_cons, List.length_append, List.length_cons, length_encodeEntry]
    omega

/-- Of the first bytes of a file exactly the whole entries are read, where they stand. -/
theorem decodeLog_take (h : ∀ e ∈ es, e.Fits) (k : Nat) :
    decodeLog ((encodeEntries es).take k) =
      (placed 0 (fitting k es), (encodeEntries (fitting k es)).length) := by
  rw [decodeLog, decodeLoop_take h k 0, Nat.zero_add]
  rw [List.length_take]
  exact Nat.le_trans (length_le_encodeEntries _) (fitting_le k es)

/-- What is left of the entries has the positions that were left out before it. -/
theorem placed_append (pos : Nat) (es es' : List LogEntry) :
    placed pos (es ++ es') = placed pos es ++ placed (pos + (encodeEntries es).length) es' := by
  induction es generalizing pos with
  | nil => rfl
  | cons e es ih =>
    rw [List.cons_append, placed, ih, placed, encodeEntries_cons, List.length_append,
      Nat.add_assoc, List.cons_append]

theorem map_fst_placed (pos : Nat) (es : List LogEntry) : (placed pos es).map Prod.fst = es := by
  induction es generalizing pos with
  | nil => rfl
  | cons e es ih => rw [placed, List.map_cons, ih]

theorem decodeLog_encode (h : ∀ e ∈ es, e.Fits) :
    decodeLog (encodeEntries es) = (placed 0 es, (encodeEntries es).length) := by
  have := decodeLog_take h (encodeEntries es).length
  rwa [List.take_length, fitting_all (Nat.le_refl _)] at this

/-! ### A torn tail -/

theorem getElem?_placed (pos : Nat) (es : List LogEntry) (i : Nat) :
    (placed pos es)[i]? = es[i]?.map fun e => (e, pos + (encodeEntries (es.take i)).length) := by
  induction es generalizing pos i with
  | nil => rfl
  | cons e es ih =>
    cases i with
    | zero => rfl
    | succ i => simp [placed, ih, encodeEntries_cons, Nat.add_assoc]

theorem placed_take (es : List LogEntry) (n : Nat) :
    placed 0 (es.take n) =
      (es.take n).mapIdx fun i e => (e, (encodeEntries (es.take i)).length) := by
  refine List.ext_getElem? fun i => ?_
  rw [getElem?_placed, List.getElem?_mapIdx]
  by_cases hi : i < n
  · rw [List.take_take, Nat.min_eq_left (Nat.le_of_lt hi), Nat.zero_add]
  · rw [List.getElem?_take_eq_none (Nat.le_of_not_lt hi)]
    rfl

/-- Of a file cut at any byte exactly the longest run of entries that has room in it is read,
each where it starts, and what is valid ends where the last of them does. -/
theorem torn_log_keeps_whole_entries {es : List LogEntry} (h : ∀ e ∈ es, e.Fits) (k : Nat) :
    ∃ n ≤ es.length, (encodeEntries (es.take n)).length ≤ k ∧
      (∀ m ≤ es.length, (encodeEntries (es.take m)).length ≤ k → m ≤ n) ∧
      decodeLog ((encodeEntries es).take k) =
        ((es.take n).mapIdx fun i e => (e, (encodeEntries (es.take i)).length),
          (encodeEntries (es.take n)).length) := by
  have hrun := fitting_isPrefix k es
  have htake : fitting k es = es.take (fitting k es).length := List.prefix_iff_eq_take.mp hrun
  refine ⟨(fitting k es).length, hrun.length_le, ?_, fun m hm hfit => ?_, ?_⟩
  · rw [← htake]
    exact Nat.le_trans (fitting_le k es) (Nat.min_le_left ..)
  · have happend : fitting k (es.take m ++ es.drop m) = _ := fitting_append hfit
    rw [List.take_append_drop] at happend
    rw [happend, List.length_append, List.length_take]
    omega
  · rw [decodeLog_take h, ← placed_take, ← htake]

end

/-- The first of two entries and a part of the second. -/
theorem torn_log_keeps_whole_entries_two :
    decodeLog ((encodeEntries [⟨1, 1, [7]⟩, ⟨1, 2, [8, 9]⟩]).take 40) =
      ([(⟨1, 1, [7]⟩, 0)], 25) := by
  have hfits : ∀ e ∈ ([⟨1, 1, [7]⟩, ⟨1, 2, [8, 9]⟩] : List LogEntry), e.Fits := by
    intro e he
    simp only [List.mem_cons, List.not_mem_nil, or_false] at he
    rcases he with rfl | rfl <;> exact ⟨by decide, by decide, by rw [length_encodeEntry]; decide⟩
  obtain ⟨n, hn, hfit, hlongest, hread⟩ := torn_log_keeps_whole_entries hfits 40
  have h1 : 1 ≤ n := hlongest 1 (by decide) (by simp [encodeEntries, length_encodeEntry])
  have h2 : n ≠ 2 := by
    rintro rfl
    simp [encodeEntries, length_encodeEntry] at hfit
  obtain rfl : n = 1 := by
    simp only [List.length_cons, List.length_nil] at hn
    omega
  simpa [encodeEntries, length_encodeEntry] using hread

end EventStream.Raft
