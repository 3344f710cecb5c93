import EventStream.Dataplane.Ledger

/-! Deciding a request against the windows it has left.

Once a request is recorded, its records are found in the windows at the offsets it was answered
with, as long as the windows still have them; decided again, all of them are duplicates. -/
namespace EventStream.Dataplane

open EventStream.Producers

/-! ### Deciding again -/

/-- The window of the record's partition has it at the offset of the answer. -/
def Again (windows : Nat → Option PartitionWindow) (x : Nat × Int) (a : Produced) : Prop :=
  a.partition = x.1 ∧ ∃ w, windows x.1 = some w ∧ w.check x.2 = .duplicate a.offset

/-- All records decided as duplicates, with the offsets of the answers. -/
def repeated (items : List (Nat × Int)) (out : List Produced) : List Decision :=
  (items.zip out).map fun x => ⟨x.1.1, x.1.2, some x.2.offset⟩

def asDuplicates (out : List Produced) : List Produced :=
  out.map fun a => { a with duplicate := true }

variable {items : List (Nat × Int)} {out : List Produced} {pid topic : String} {st : ProducerState}
    {windows : Nat → Option PartitionWindow} {ds : List Decision}

theorem decideAll_again (h : List.Forall₂ (Again fun p => st.partitions (topic, p)) items out) :
    decideAll pid topic st (fun _ => none) items = .ok (repeated items out) := by
  induction h with
  | nil => rfl
  | @cons x a items out hx _ ih =>
    obtain ⟨-, w, hw, hdup⟩ := hx
    dsimp only at hw
    have hcheck : st.check topic x.1 x.2 = .duplicate a.offset := by
      unfold ProducerState.check
      rw [hw]
      exact hdup
    unfold decideAll
    dsimp only
    rw [hcheck]
    dsimp only
    rw [ih]
    rfl

theorem duplicate_of_mem_repeated {d : Decision} (h : d ∈ repeated items out) :
    d.duplicate ≠ none := by
  obtain ⟨x, -, rfl⟩ := List.mem_map.mp h
  exact nofun

theorem targets_repeated (items : List (Nat × Int)) (out : List Produced) :
    targets (repeated items out) = [] := by
  have hnone : (repeated items out).filter (fun d => d.duplicate = none) = [] :=
    List.filter_eq_nil_iff.mpr fun d hd => by simpa using duplicate_of_mem_repeated hd
  unfold targets
  rw [hnone]
  rfl

theorem entries_repeated (items : List (Nat × Int)) (out : List Produced)
    (written : Nat → Option (List Nat)) : entries (repeated items out) written = [] := by
  unfold entries
  rw [targets_repeated]
  rfl

theorem answers_repeated (h : List.Forall₂ (Again windows) items out) (offsets : Nat → List Nat) :
    answers offsets (repeated items out) = some (asDuplicates out) := by
  induction h with
  | nil => rfl
  | @cons x a items out hx _ ih =>
    have : answers offsets (repeated (x :: items) (a :: out)) =
        (answers offsets (repeated items out)).map (⟨x.1, a.offset, true⟩ :: ·) := rfl
    rw [this, ih, ← hx.1]
    rfl

/-! ### What the first answer left in the windows -/

/-- The sequences of a request at one partition lie within one window. -/
def Narrow (items : List (Nat × Int)) : Prop :=
  ∀ x ∈ items, ∀ y ∈ items, x.1 = y.1 → y.2 < x.2 + windowSize

/-- A request that was decided against chained histories, written and recorded would be decided as
all duplicates. -/
theorem again_of_decided {history : Nat → List (Int × Nat)} (hchained : ∀ p, Chained (history p))
    (hst : ∀ p, st.partitions (topic, p) = recorded none (history p))
    (hds : decideAll pid topic st (fun _ => none) items = .ok ds)
    {written : Nat → Option (List Nat)}
    (hout : answers (fun p => (written p).getD []) ds = some out) (hmax : ∀ x ∈ items, x.2 < i64Max)
    (hnarrow : Narrow items) (hwindows : ∀ p, windows p =
      recorded none (history p ++ (fresh ds p).zip ((written p).getD []))) :
    List.Forall₂ (Again windows) items out := by
  have hitems := decideAll_items hds
  have hmem : ∀ {p : Nat} {x : Int × Nat}, x ∈ (fresh ds p).zip ((written p).getD []) →
      (p, x.1) ∈ items := by
    intro p x hx
    rw [← hitems]
    exact List.mem_map.mpr ⟨_, mem_fresh.mp (List.of_mem_zip hx).1, rfl⟩
  have hagain : List.Forall₂ (fun d a => Again windows (d.partition, d.sequence) a) ds out := by
    refine List.forall₂_iff_get.mpr ⟨(answers_spec hout).length_eq, fun i hi hi' => ?_⟩
    obtain ⟨hpart, hfresh, hdup⟩ := (List.forall₂_iff_get.mp (answers_spec hout)).2 i hi hi'
    set d := ds.get ⟨i, hi⟩
    have hd : d ∈ ds := List.get_mem ds ⟨i, hi⟩
    have hditem : (d.partition, d.sequence) ∈ items := by
      rw [← hitems]
      exact List.mem_map.mpr ⟨d, hd, rfl⟩
    obtain ⟨s₀, hrun, -, hacc⟩ := decideAll_run hds d.partition
    refine ⟨hpart, ?_⟩
    rw [hwindows]
    refine (hchained d.partition).check_again (consecutive_zip hrun) (fun hne w hw => ?_)
      (fun x hx => hmax _ (hmem hx)) (fun x hx => hnarrow _ hditem _ (hmem hx) rfl) ?_
    · have := hacc rfl fun hnil => hne (by rw [hnil, List.zip_nil_left])
      unfold ProducerState.check at this
      rwa [hst, hw] at this
    · cases hcase : d.duplicate with
      | none => exact .inl (hfresh hcase)
      | some o =>
        right
        have hcheck := decideAll_duplicate hds d hd o hcase
        rw [← hdup o hcase] at hcheck
        unfold ProducerState.check at hcheck
        rw [hst] at hcheck
        cases hw : recorded none (history d.partition) with
        | none =>
          rw [hw] at hcheck
          cases hcheck
        | some w =>
          rw [hw] at hcheck
          exact ⟨w, rfl, hcheck⟩
  rw [← hitems, List.forall₂_map_left_iff]
  exact hagain

/-- Where the records of a request were sent, by its answer, with their sequences. -/
def sentTo (records : List IncomingRecord) (out : List Produced) : List (Nat × Int) :=
  (out.map (·.partition)).zip (records.filterMap (·.sequence))

namespace Arrival
variable {topic : Topic} {counter : Nat} {records : List IncomingRecord} {routed : List Nat}
    {sequences : List Int} (h : Arrival topic counter records (.waiting routed sequences))
include h

theorem sequences_eq : records.filterMap (·.sequence) = sequences := by
  cases h with
  | routed _ _ hseq _ =>
    have hmap : records.filterMap (·.sequence) = (records.map (·.sequence)).filterMap id := by
      rw [List.filterMap_map]
      rfl
    rw [hmap, checkSequences_ok hseq, List.filterMap_map]
    exact List.filterMap_some

theorem map_fst_zip : (routed.zip sequences).map Prod.fst = routed := by
  cases h with
  | routed _ _ hseq hroute =>
    have hlen := congrArg List.length (checkSequences_ok hseq)
    rw [List.length_map, List.length_map] at hlen
    exact List.map_fst_zip (by rw [routeAll_length hroute, hlen])

/-- From another counter that leads the records to the same partitions. -/
theorem reroute {c : Nat}
    (hsame : (topic.routeAll c records).1 = (topic.routeAll counter records).1) :
    Arrival topic c records (.waiting routed sequences) := by
  cases h with
  | routed hne hfew hseq hroute => exact .routed hne hfew hseq (hsame.trans hroute)

end Arrival

end EventStream.Dataplane
