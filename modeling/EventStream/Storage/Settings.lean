import EventStream.Storage.Plan

/-! The settings of a topic (`TopicConfigPatch` in `es-protocol`, `PersistedTopicConfig` and
`validate_patch` in `topic.rs`).

A topic keeps the values it was given and resolves them against the defaults of the broker. The
retention times are `u64` there and are read as `i64` where they are used. `validate_patch`
accepts all of them, so a value from `2 ^ 63` on becomes a negative time and puts the cutoff
into the future. The times in force mean what they say exactly if they are below that
(`retention_times_exact`). -/
namespace EventStream.Storage

/-! ### Patches -/

def CleanupPolicy.fromStrOpt : String → Option CleanupPolicy
  | "delete" => some .delete
  | "compact" => some .compact
  | "compact,delete" => some .compactDelete
  | _ => none

def CleanupPolicy.asStr : CleanupPolicy → String
  | .delete => "delete"
  | .compact => "compact"
  | .compactDelete => "compact,delete"

theorem CleanupPolicy.fromStrOpt_asStr (p : CleanupPolicy) : fromStrOpt p.asStr = some p := by
  cases p <;> rfl

/-- What a client asks for. An absent value is the default of the broker on creation, and the
value in force on an update. -/
structure TopicConfigPatch where
  retentionMs : Option UInt64 := none
  retentionBytes : Option UInt64 := none
  cleanupPolicy : Option CleanupPolicy := none
  segmentBytes : Option UInt64 := none
  tombstoneRetentionMs : Option UInt64 := none
  deriving DecidableEq, Repr

def validatePatch (p : TopicConfigPatch) : Except String Unit :=
  match p.segmentBytes with
  | some sb =>
    if 128 ≤ sb ∧ sb ≤ (1 : UInt64) <<< 40 then .ok ()
    else .error "segment_bytes must be between 128 bytes and 1 TiB"
  | none => .ok ()

/-- The part of the broker's `Config` that topics fall back to. -/
structure BrokerConfig where
  segmentBytes : UInt64
  defaultTombstoneRetentionMs : UInt64 := 24 * 60 * 60 * 1000
  defaultRetentionMs : Option UInt64 := none
  defaultRetentionBytes : Option UInt64 := none
  defaultCleanupPolicy : CleanupPolicy := .delete
  deriving DecidableEq, Repr

/-! ### Settings on disk -/

structure PersistedTopicConfig where
  retentionMs : Option UInt64 := none
  retentionBytes : Option UInt64 := none
  cleanupPolicy : Option String := none
  segmentBytes : Option UInt64 := none
  tombstoneRetentionMs : Option UInt64 := none
  deriving DecidableEq, Repr

namespace PersistedTopicConfig

def fromPatch (patch : TopicConfigPatch) : PersistedTopicConfig :=
  { retentionMs := patch.retentionMs
    retentionBytes := patch.retentionBytes
    cleanupPolicy := patch.cleanupPolicy.map (·.asStr)
    segmentBytes := patch.segmentBytes
    tombstoneRetentionMs := patch.tombstoneRetentionMs }

def mergePatch (c : PersistedTopicConfig) (patch : TopicConfigPatch) : PersistedTopicConfig :=
  { retentionMs := patch.retentionMs.or c.retentionMs
    retentionBytes := patch.retentionBytes.or c.retentionBytes
    cleanupPolicy := (patch.cleanupPolicy.map (·.asStr)).or c.cleanupPolicy
    segmentBytes := patch.segmentBytes.or c.segmentBytes
    tombstoneRetentionMs := patch.tombstoneRetentionMs.or c.tombstoneRetentionMs }

def resolvePolicy (c : PersistedTopicConfig) (broker : BrokerConfig) :
    Except String CleanupPolicy :=
  match c.cleanupPolicy with
  | none => .ok broker.defaultCleanupPolicy
  | some s => (CleanupPolicy.fromStrOpt s).elim (.error s!"unknown cleanup_policy '{s}'") .ok

def resolve (c : PersistedTopicConfig) (broker : BrokerConfig) : Except String TopicConfig := do
  let cleanupPolicy ← c.resolvePolicy broker
  .ok
    { retentionMs := c.retentionMs.or broker.defaultRetentionMs
      retentionBytes := c.retentionBytes.or broker.defaultRetentionBytes
      cleanupPolicy
      segmentBytes := c.segmentBytes.getD broker.segmentBytes
      tombstoneRetentionMs := c.tombstoneRetentionMs.getD broker.defaultTombstoneRetentionMs }

end PersistedTopicConfig

/-! ### The settings of a topic -/

/-- What a topic keeps of its settings: the values it was given and those in force. -/
structure Settings where
  persisted : PersistedTopicConfig
  config : TopicConfig
  deriving DecidableEq, Repr

namespace Settings

def create (patch : Option TopicConfigPatch) (broker : BrokerConfig) : Except String Settings := do
  patch.elim (.ok ()) validatePatch
  let persisted := (patch.map .fromPatch).getD {}
  let config ← persisted.resolve broker
  .ok ⟨persisted, config⟩

def updateConfig (s : Settings) (patch : TopicConfigPatch) (broker : BrokerConfig) :
    Except String Settings := do
  validatePatch patch
  let persisted := s.persisted.mergePatch patch
  let config ← persisted.resolve broker
  .ok ⟨persisted, config⟩

/-- The topic is opened again, by a broker that may have other defaults. -/
def reopen (s : Settings) (broker : BrokerConfig) : Except String Settings := do
  let config ← s.persisted.resolve broker
  .ok ⟨s.persisted, config⟩

end Settings

variable {p : Partition} {broker : BrokerConfig} {s s' : Settings} {config : TopicConfig}
    {now : Int64} {ms : UInt64}

/-- A new topic takes a patch like one without settings of its own. -/
theorem Settings.create_eq_updateConfig (patch : TopicConfigPatch) (broker : BrokerConfig)
    (config : TopicConfig) :
    Settings.create (some patch) broker = (⟨{}, config⟩ : Settings).updateConfig patch broker := by
  have hpatch :
      PersistedTopicConfig.fromPatch patch = PersistedTopicConfig.mergePatch {} patch := by
    simp only [PersistedTopicConfig.fromPatch, PersistedTopicConfig.mergePatch, Option.or_none]
  rw [Settings.create, Settings.updateConfig, Option.map_some, Option.getD_some, hpatch]
  rfl

/-- The times that a patch puts in force. -/
theorem Settings.updateConfig_times {patch : TopicConfigPatch}
    (h : s.updateConfig patch broker = .ok s') :
    s'.config.retentionMs =
        (patch.retentionMs.or s.persisted.retentionMs).or broker.defaultRetentionMs ∧
      s'.config.tombstoneRetentionMs =
        (patch.tombstoneRetentionMs.or s.persisted.tombstoneRetentionMs).getD
          broker.defaultTombstoneRetentionMs := by
  obtain ⟨_, -, h⟩ := bind_eq_ok.mp h
  obtain ⟨config, hconfig, h⟩ := bind_eq_ok.mp h
  obtain ⟨policy, -, hconfig⟩ := bind_eq_ok.mp hconfig
  cases h
  cases hconfig
  exact ⟨rfl, rfl⟩

/-! ### What the times mean -/

/-- The time-based part alone selects segments past their age. -/
theorem mem_planVictims_byTime {b : Nat} (hms : ∀ ms ∈ config.retentionMs, ms.toNat < 2 ^ 63)
    (h : b ∈ p.planVictims { config with retentionBytes := none } now) :
    ∃ s ∈ p.segments, s.baseOffset = b ∧ s.baseOffset < p.active.baseOffset ∧
      ∃ ms ∈ config.retentionMs, s.maxTimestampMs.toInt + ms.toNat < now.toInt := by
  simp only [Partition.planVictims, List.mem_dedup, List.mem_insertionSort, Option.map_none,
    Option.getD_none] at h
  cases hret : config.retentionMs with
  | none => rw [hret] at h; exact absurd h List.not_mem_nil
  | some ms =>
    rw [hret] at h
    obtain ⟨s, hs, hb⟩ := List.mem_map.mp h
    obtain ⟨hs, hold⟩ := List.mem_filter.mp hs
    obtain ⟨hs, hbelow⟩ := List.mem_filter.mp hs
    exact ⟨s, hs, hb, of_decide_eq_true hbelow, ms, rfl,
      (lt_satSubI64_iff (hms ms hret)).mp (of_decide_eq_true hold).2⟩

/-- What a compaction writes. -/
theorem Partition.Ordered.compactRead_log (hp : p.Ordered) {c : Compacting}
    (h : p.compactRead config now = some c) :
    c.output.log = encodeAll (p.sealedPart.filter fun r => decide
      (Kept (config.tombstoneCutoff now).toInt p.sealedPart r)) := by
  obtain ⟨lowest, _, h⟩ := Option.bind_eq_some_iff.mp h
  obtain ⟨records, hrecords, h⟩ := Option.bind_eq_some_iff.mp h
  rw [hp.sealed_eq] at hrecords
  obtain rfl : records = p.sealedPart := sealedRecords_eq hrecords
  dsimp only at h
  split at h
  · cases h
  · obtain ⟨output, houtput, h⟩ := Option.bind_eq_some_iff.mp h
    cases h
    rw [← compacted_eq_kept _ hp.sealedPart, ← survivorsOf_eq _ hp.sealedPart]
    unfold writeSurvivors at houtput
    split at houtput
    · cases houtput
    · cases houtput
      rfl

/-- A pass that can read and write, and has something to drop, replaces the sealed segments. -/
theorem Partition.Ordered.compactPartition_eq (hp : p.Ordered) {lowest output : Segment}
    {records : List Record} (hlowest : p.sealedSegments.head? = some lowest)
    (hread : readSealed p.sealedSegments = .ok records)
    (hdrop : (survivorsOf (config.tombstoneCutoff now) records).length < records.length)
    (hemit : emitSurvivors (survivorsOf (config.tombstoneCutoff now) records) lowest.baseOffset =
      .ok output) :
    ∃ report, p.compactPartition p config now =
      .ok (some ({ p with sealedSegments := [output] }, report)) := by
  have hsorted := hp.sealedPart
  rw [Partition.sealedPart, ← sealedRecords_eq (readSealed_eq.mp hread)] at hsorted
  have hkept := kept_eq (config.tombstoneCutoff now) hsorted
  unfold TopicConfig.tombstoneCutoff at *
  have hswap : p.compactSwap ⟨p.active.baseOffset, p.sealedSegments, output⟩ =
      some { p with sealedSegments := [output] } := by
    rw [Partition.compactSwap, hp.sealed_eq]
    exact if_pos ⟨rfl, rfl⟩
  unfold Partition.compactPartition
  rw [hp.sealed_eq]
  simp only [hlowest, hread, bind, Except.bind, hkept, hemit, hswap, Option.map_some]
  rw [if_neg (by omega)]
  exact ⟨_, rfl⟩

theorem Partition.compactSwap_sealed {p' : Partition} {c : Compacting}
    (h : p.compactSwap c = some p') : p'.sealedSegments = [c.output] := by
  unfold Partition.compactSwap at h
  dsimp only at h
  split at h
  · cases h
    rfl
  · cases h

/-- At every moment and in every partition, the time-based part of a plan selects a sealed segment
only if its newest timestamp and the retention time, added as integers, are less than now; and a
compaction that wrote the records `kept` left out the newest record of a key only if that is a
tombstone for which the same holds. -/
def TopicConfig.TimesExact (config : TopicConfig) : Prop :=
  ∀ now : Int64, 0 ≤ now.toInt → ∀ p : Partition,
    (∀ b ∈ p.planVictims { config with retentionBytes := none } now,
      ∃ seg ∈ p.segments, seg.baseOffset = b ∧ seg.baseOffset < p.active.baseOffset ∧
        ∃ ms ∈ config.retentionMs, seg.maxTimestampMs.toInt + ms.toNat < now.toInt) ∧
      ∀ found p' report, p.Ordered →
        p.compactPartition found config now = .ok (some (p', report)) →
        ∃ output kept, p'.sealedSegments = [output] ∧ output.log = encodeAll kept ∧
          ∀ r ∈ p.sealedPart, r.key ≠ none →
            (∀ x ∈ p.sealedPart, x.key = r.key → x.offset ≤ r.offset) → r ∉ kept →
            r.value = [] ∧ r.timestampMs.toInt + config.tombstoneRetentionMs.toNat < now.toInt

theorem TopicConfig.timesExact (hms : ∀ ms ∈ config.retentionMs, ms.toNat < 2 ^ 63)
    (htomb : config.tombstoneRetentionMs.toNat < 2 ^ 63) : config.TimesExact := by
  intro now _ p
  refine ⟨fun b hb => mem_planVictims_byTime hms hb, fun found p' report hp hcompact => ?_⟩
  obtain ⟨c, hc, hswap⟩ := Partition.compactPartition_some hcompact
  refine ⟨c.output, _, Partition.compactSwap_sealed hswap, hp.compactRead_log hc, ?_⟩
  intro r hr hkey hnewest hgone
  have hdropped : ¬Kept (config.tombstoneCutoff now).toInt p.sealedPart r :=
    fun hkept => hgone (List.mem_filter.mpr ⟨hr, decide_eq_true hkept⟩)
  have hold : r.value = [] ∧ r.timestampMs.toInt < (config.tombstoneCutoff now).toInt :=
    not_not.mp fun hnot => hdropped (.inr ⟨hnewest, hnot⟩)
  exact ⟨hold.1, (lt_satSubI64_iff htomb).mp (Int64.lt_iff_toInt_lt.mpr hold.2)⟩

/-! ### Times from `2 ^ 63` on -/

/-- Such a time puts the cutoff of the moment 0 behind 0. -/
theorem zero_lt_cutoff (h : ¬ ms.toNat < 2 ^ 63) : 0 < satSubI64 0 ms.toInt64 := by
  have hms : ms.toInt64.toInt = (ms.toNat : Int) - 2 ^ 64 := by
    show ms.toBitVec.toInt = _
    rw [BitVec.toInt_eq_toNat_cond, if_neg]
    · rfl
    · show ¬ 2 * ms.toNat < 2 ^ 64
      omega
  have hlt := ms.toNat_lt
  have hzero : (0 : Int64).toInt = 0 := by decide
  have hlow : Int64.minValue.toInt = -2 ^ 63 := by decide
  have hhigh : Int64.maxValue.toInt = 2 ^ 63 - 1 := by decide
  rw [satSubI64, hms, hzero, Int64.lt_iff_toInt_lt, if_neg (by omega)]
  split
  · decide
  · rw [Int64.toInt_ofInt_of_le (by omega) (by omega)]
    omega

/-- A tombstone and two other records, each in its segment, the last one active. -/
def tombstoned (first : Int64) : Option (Partition × List Nat) :=
  tinySegments.appendBatch [⟨some [1], [], some first, none⟩, ⟨none, [2], some 100, none⟩,
    ⟨none, [3], some 100, none⟩] .policy 100

theorem tombstoned_isSome : (tombstoned 0).isSome ∧ (tombstoned 100).isSome := by decide +kernel

def oldTombstone : Partition := ((tombstoned 0).get tombstoned_isSome.1).1

theorem oldTombstone_sealed : readSealed oldTombstone.sealedSegments =
      .ok [⟨0, 0, some [1], []⟩, ⟨1, 100, none, [2]⟩] ∧
    oldTombstone.sealedPart = [⟨0, 0, some [1], []⟩, ⟨1, 100, none, [2]⟩] ∧
    oldTombstone.sealedSegments.head?.map (·.baseOffset) = some 0 ∧
    (∃ s ∈ oldTombstone.segments.filter (·.baseOffset < oldTombstone.active.baseOffset),
      s.baseOffset = 0 ∧ s.maxTimestampMs = 0) ∧
    ∀ s ∈ oldTombstone.segments, 0 ≤ s.maxTimestampMs.toInt := by
  decide +kernel

theorem oldTombstone_ordered : oldTombstone.Ordered := ⟨by decide +kernel, by decide +kernel⟩

/-- The segment with newest timestamp 0 is selected at 0. -/
theorem oldTombstone_selected (hms : config.retentionMs = some ms) (h : ¬ ms.toNat < 2 ^ 63) :
    0 ∈ oldTombstone.planVictims { config with retentionBytes := none } 0 := by
  obtain ⟨s, hs, hbase, hmax⟩ := oldTombstone_sealed.2.2.2.1
  simp only [Partition.planVictims, List.mem_dedup, List.mem_insertionSort, Option.map_none,
    Option.getD_none, hms, Option.map_some, Option.getD_some]
  refine List.mem_map.mpr ⟨s, List.mem_filter.mpr ⟨hs, decide_eq_true ?_⟩, hbase⟩
  rw [hmax]
  exact ⟨by decide, zero_lt_cutoff h⟩

/-- The tombstone from 0 is dropped at 0. -/
theorem oldTombstone_compacted (h : ¬ config.tombstoneRetentionMs.toNat < 2 ^ 63) :
    ∃ p' report output, oldTombstone.compactPartition oldTombstone config 0 =
        .ok (some (p', report)) ∧
      p'.sealedSegments = [output] ∧ output.log = encodeRecord ⟨1, 100, none, [2]⟩ := by
  obtain ⟨hread, -, hhead, -, -⟩ := oldTombstone_sealed
  obtain ⟨lowest, hlowest, hbase⟩ := Option.map_eq_some_iff.mp hhead
  have hcut : 0 < config.tombstoneCutoff 0 := zero_lt_cutoff h
  have hsurvivors : survivorsOf (config.tombstoneCutoff 0)
      [⟨0, 0, some [1], []⟩, ⟨1, 100, none, [2]⟩] = [⟨1, 100, none, [2]⟩] := by
    simp [survivorsOf, survives, noteLatest, setLatest, hcut]
  have hemit : (emitSurvivors [⟨1, 100, none, [2]⟩] 0).toOption.map (·.log) =
      some (encodeRecord ⟨1, 100, none, [2]⟩) := by decide +kernel
  cases hout : emitSurvivors [⟨1, 100, none, [2]⟩] 0 with
  | error e => rw [hout] at hemit; cases hemit
  | ok output =>
    rw [hout] at hemit
    obtain ⟨report, hdone⟩ := oldTombstone_ordered.compactPartition_eq hlowest hread
      (by rw [hsurvivors]; decide) (by rw [hsurvivors, hbase]; exact hout)
    exact ⟨_, report, output, hdone, rfl, Option.some.inj hemit⟩

/-- **Retention times mean what they say exactly below `2 ^ 63`.** For every patch that is accepted,
whatever the topic had before and the broker has for defaults: plans and compactions respect the
times in force, at every moment and in every partition, if and only if these are below `2 ^ 63`. A
topic is created by a patch to one without settings (`create_eq_updateConfig`). -/
theorem retention_times_exact {s s' : Settings} {patch : TopicConfigPatch} {broker : BrokerConfig}
    (h : s.updateConfig patch broker = .ok s') :
    s'.config.TimesExact ↔
      (∀ ms ∈ (patch.retentionMs.or s.persisted.retentionMs).or broker.defaultRetentionMs,
        ms.toNat < 2 ^ 63) ∧
      ((patch.tombstoneRetentionMs.or s.persisted.tombstoneRetentionMs).getD
        broker.defaultTombstoneRetentionMs).toNat < 2 ^ 63 := by
  obtain ⟨hms, htomb⟩ := Settings.updateConfig_times h
  rw [← hms, ← htomb]
  refine ⟨fun hexact => ⟨fun ms hmem => ?_, ?_⟩, fun hlow => TopicConfig.timesExact hlow.1 hlow.2⟩
  · by_contra hbig
    obtain ⟨hplan, -⟩ := hexact 0 (by decide) oldTombstone
    obtain ⟨seg, hseg, -, -, ms', -, hlt⟩ := hplan 0 (oldTombstone_selected hmem hbig)
    have := oldTombstone_sealed.2.2.2.2 seg hseg
    have hzero : (0 : Int64).toInt = 0 := by decide
    omega
  · by_contra hbig
    obtain ⟨-, hcompact⟩ := hexact 0 (by decide) oldTombstone
    obtain ⟨p', report, output, hdone, hsealed, hlog⟩ := oldTombstone_compacted hbig
    obtain ⟨output', kept, hsealed', hkept, hgone⟩ :=
      hcompact oldTombstone p' report oldTombstone_ordered hdone
    obtain rfl := List.singleton_inj.mp (hsealed.symm.trans hsealed')
    rw [oldTombstone_sealed.2.1] at hgone
    -- The tombstone is not in what was written.
    have hout : (⟨0, 0, some [1], []⟩ : Record) ∉ kept := fun hmem => by
      have hin : encodeRecord ⟨0, 0, some [1], []⟩ <:+: encodeAll kept :=
        List.infix_of_mem_flatten (List.mem_map_of_mem hmem)
      rw [← hkept, hlog] at hin
      revert hin
      decide +kernel
    obtain ⟨-, hlt⟩ := hgone _ List.mem_cons_self nofun (by decide) hout
    have hzero : (0 : Int64).toInt = 0 := by decide
    rw [hzero] at hlt
    omega

def shortly : TopicConfigPatch := { retentionMs := some 50, tombstoneRetentionMs := some 20 }

theorem retention_times_exact_shortly : ∃ s s' : Settings,
    s.updateConfig shortly ⟨128, 0, none, none, .delete⟩ = .ok s' ∧ s'.config.TimesExact := by
  have hup : (⟨{}, ⟨none, none, .delete, 128, 0⟩⟩ : Settings).updateConfig shortly
      ⟨128, 0, none, none, .delete⟩ =
        .ok ⟨.fromPatch shortly, ⟨some 50, none, .delete, 128, 20⟩⟩ := rfl
  exact ⟨_, _, hup, (retention_times_exact hup).mpr ⟨by rintro ms ⟨⟩; decide, by decide⟩⟩

def newTombstone : Partition := ((tombstoned 100).get tombstoned_isSome.2).1

/-- Keep everything, as the largest time there is. -/
def forever : TopicConfigPatch :=
  { retentionMs := some 18446744073709551615, tombstoneRetentionMs := some 18446744073709551615 }

def keepForever : Except String Settings :=
  Settings.create (some forever) ⟨128, 0, none, none, .compactDelete⟩

/-- The patch is accepted; both sealed segments, with newest timestamp 100, are selected at 100,
and the tombstone from 100 is dropped at 100. -/
theorem forever_ends_at_once :
    validatePatch forever = .ok () ∧
      newTombstone.sealedSegments.map (·.maxTimestampMs) = [100, 100] ∧
      newTombstone.sealedPart = [⟨0, 100, some [1], []⟩, ⟨1, 100, none, [2]⟩] ∧
      keepForever.toOption.map (fun s => newTombstone.planVictims s.config 100) = some [0, 1] ∧
      (keepForever.toOption.bind fun s =>
        (newTombstone.compactPartition newTombstone s.config 100).toOption.join.map
          fun result => result.1.sealedPart) = some [⟨1, 100, none, [2]⟩] := by
  decide +kernel

end EventStream.Storage
