import Mathlib.Algebra.Order.BigOperators.Group.List
import EventStream.Storage.Survivors

/-! What a retention pass selects (`plan_victims` in `retention.rs`).

The time-based part selects the sealed segments past their age. The size-based part then walks
the sealed segments from the oldest on. It takes the size of an expired segment off the excess
only when it comes to that segment, so one that lies behind a younger segment can be counted too
late. The walk adds the shortest run of the others that brings the partition within its limit
exactly if none is counted too late (`planVictims_least`). -/
namespace EventStream.Storage

/-! ### Ages -/

variable {now : Int64} {p : Partition} {config : TopicConfig} {segs : List Segment} {ms : UInt64}
    {excess : Nat} {victims : List Nat}

/-- The comparison with the cutoff is exact for a retention below `2 ^ 63`. -/
theorem lt_satSubI64_iff {ts : Int64} (h : ms.toNat < 2 ^ 63) :
    ts < satSubI64 now ms.toInt64 ↔ ts.toInt + ms.toNat < now.toInt := by
  have hts := ts.le_toInt
  have hnow := now.toInt_lt
  have hlow : Int64.minValue.toInt = -2 ^ 63 := by decide
  have hhigh : Int64.maxValue.toInt = 2 ^ 63 - 1 := by decide
  rw [satSubI64, toInt_toInt64 h, Int64.lt_iff_toInt_lt]
  split
  · omega
  · rw [if_neg (by omega), Int64.toInt_ofInt_of_le (by omega) (by omega)]
    omega

/-- Whether a segment is past its age, in exact milliseconds. A segment without a record has
no newest timestamp. -/
def Segment.aged (s : Segment) (retention : Option UInt64) (now : Int64) : Bool :=
  s.maxTimestampMs ≠ Int64.minValue &&
    retention.any fun ms => decide (s.maxTimestampMs.toInt + ms.toNat < now.toInt)

theorem expired_eq_aged (h : ms.toNat < 2 ^ 63) (now : Int64) (segs : List Segment) :
    expired ms now segs = (segs.filter (·.aged (some ms) now)).map (·.baseOffset) := by
  refine congrArg (List.map Segment.baseOffset) (List.filter_congr fun s _ => ?_)
  rw [Segment.aged, Option.any_some, Bool.decide_and, decide_eq_decide.mpr (lt_satSubI64_iff h)]

theorem aged_none (now : Int64) (s : Segment) : s.aged none now = false := by
  rw [Segment.aged, Option.any_none, Bool.and_false]

def Partition.aged (p : Partition) (config : TopicConfig) (now : Int64) : List Segment :=
  p.sealedSegments.filter (·.aged config.retentionMs now)

/-- The sealed segments that are not past their age. -/
def Partition.young (p : Partition) (config : TopicConfig) (now : Int64) : List Segment :=
  p.sealedSegments.filter fun s => !s.aged config.retentionMs now

/-- What the time-based part selects. -/
theorem Partition.Increasing.byTime (hp : p.Increasing)
    (hms : ∀ ms ∈ config.retentionMs, ms.toNat < 2 ^ 63) (now : Int64) :
    ((config.retentionMs.map fun ms => expired ms now
      (p.segments.filter (·.baseOffset < p.active.baseOffset))).getD []) =
        (p.aged config now).map (·.baseOffset) := by
  rw [hp.sealed_eq, Partition.aged]
  cases hret : config.retentionMs with
  | none =>
    rw [List.filter_eq_nil_iff.mpr fun s _ => by rw [aged_none]; exact Bool.false_ne_true]
    rfl
  | some ms => exact expired_eq_aged (hms ms hret) now _

/-! ### Sizes -/

def bytesOf (segs : List Segment) : Nat := (segs.map (·.sizeBytes)).sum

theorem bytesOf_append (xs ys : List Segment) : bytesOf (xs ++ ys) = bytesOf xs + bytesOf ys := by
  rw [bytesOf, List.map_append, List.sum_append]
  rfl

theorem bytesOf_cons (s : Segment) (segs : List Segment) :
    bytesOf (s :: segs) = s.sizeBytes + bytesOf segs := by
  rw [bytesOf, List.map_cons, List.sum_cons]
  rfl

/-- The size of the partition without the segments with these bases. -/
def Partition.remaining (p : Partition) (victims : List Nat) : Nat :=
  bytesOf (p.segments.filter fun s => s.baseOffset ∉ victims)

theorem Partition.Increasing.nodup (hp : p.Increasing) :
    (p.segments.map (·.baseOffset)).Nodup :=
  List.pairwise_map.mpr (hp.imp Nat.ne_of_lt)

/-- With some segments gone the others are left. -/
theorem Partition.Increasing.remaining_add (hp : p.Increasing) {gone rest : List Segment}
    (hperm : p.segments.Perm (gone ++ rest)) :
    bytesOf gone + p.remaining (gone.map (·.baseOffset)) = bytesOf p.segments := by
  have hnodup := (hperm.map Segment.baseOffset).nodup hp.nodup
  rw [List.map_append] at hnodup
  have hfilter :
      (gone ++ rest).filter (fun s => s.baseOffset ∉ gone.map (·.baseOffset)) = rest := by
    rw [List.filter_append, List.filter_eq_nil_iff.mpr, List.filter_eq_self.mpr, List.nil_append]
    · intro s hs
      exact decide_eq_true fun hmem =>
        (List.disjoint_of_nodup_append hnodup) hmem (List.mem_map_of_mem hs)
    · intro s hs
      simpa using ⟨s, hs, rfl⟩
  have hleft : (p.segments.filter fun s => s.baseOffset ∉ gone.map (·.baseOffset)).Perm rest :=
    hfilter ▸ hperm.filter _
  rw [Partition.remaining, bytesOf, bytesOf, bytesOf, (hleft.map _).sum_eq, (hperm.map _).sum_eq,
    List.map_append, List.sum_append]

/-- The oldest segments that make up for an excess, and no more of them than that. -/
def shortestRun : Nat → List Segment → List Segment
  | _, [] => []
  | excess, s :: rest =>
    if excess = 0 then [] else s :: shortestRun (excess - s.sizeBytes) rest

theorem shortestRun_isPrefix (excess : Nat) (segs : List Segment) :
    shortestRun excess segs <+: segs := by
  induction segs generalizing excess with
  | nil => exact List.nil_prefix
  | cons s segs ih =>
    rw [shortestRun]
    split
    · exact List.nil_prefix
    · exact List.cons_prefix_cons.mpr ⟨rfl, ih _⟩

theorem le_bytesOf_shortestRun (excess : Nat) (segs : List Segment) :
    excess ≤ bytesOf (shortestRun excess segs) ∨ shortestRun excess segs = segs := by
  induction segs generalizing excess with
  | nil => exact .inr rfl
  | cons s segs ih =>
    rw [shortestRun]
    split
    · exact .inl (by omega)
    · rw [bytesOf_cons]
      rcases ih (excess - s.sizeBytes) with h | h
      · exact .inl (by omega)
      · exact .inr (by rw [h])

theorem bytesOf_lt_of_shorter {shorter : List Segment} (h : shorter <+: shortestRun excess segs)
    (hne : shorter ≠ shortestRun excess segs) : bytesOf shorter < excess := by
  induction segs generalizing excess shorter with
  | nil => exact absurd (List.prefix_nil.mp h) hne
  | cons s segs ih =>
    rw [shortestRun] at h hne
    split at h
    · exact absurd (List.prefix_nil.mp h) (by simpa [*] using hne)
    · rename_i hpos
      rw [if_neg hpos] at hne
      cases shorter with
      | nil => exact Nat.pos_of_ne_zero hpos
      | cons t shorter =>
        obtain ⟨rfl, htail⟩ := List.cons_prefix_cons.mp h
        have := ih htail fun heq => hne (by rw [heq])
        rw [bytesOf_cons]
        omega

/-! ### The walk -/

section
variable {aged : Segment → Bool}

/-- The segments that the walk takes of those not past their age. -/
def taken (aged : Segment → Bool) : Nat → List Segment → List Segment
  | _, [] => []
  | excess, s :: rest =>
    if aged s then taken aged (excess - s.sizeBytes) rest
    else if excess = 0 then []
    else s :: taken aged (excess - s.sizeBytes) rest

theorem overBudget_eq (haged : ∀ s ∈ segs, s.baseOffset ∈ victims ↔ aged s = true)
    (hord : segs.Pairwise fun a b => a.baseOffset < b.baseOffset) :
    overBudget excess victims segs = victims ++ (taken aged excess segs).map (·.baseOffset) := by
  induction segs generalizing excess victims with
  | nil => exact (List.append_nil _).symm
  | cons s segs ih =>
    obtain ⟨hs, hord⟩ := List.pairwise_cons.mp hord
    have hrest := fun t ht => haged t (List.mem_cons_of_mem s ht)
    rw [overBudget, taken]
    by_cases hold : aged s = true
    · rw [if_pos ((haged s List.mem_cons_self).mpr hold), if_pos hold, ih hrest hord]
    rw [if_neg (mt (haged s List.mem_cons_self).mp hold), if_neg hold]
    split
    · exact (List.append_nil _).symm
    · rw [ih (fun t ht => ?_) hord, List.append_assoc]
      · rfl
      · rw [List.mem_append, List.mem_singleton, hrest t ht]
        exact or_iff_left (Nat.ne_of_gt (hs t ht))

theorem taken_zero (aged : Segment → Bool) (segs : List Segment) : taken aged 0 segs = [] := by
  induction segs with
  | nil => rfl
  | cons s segs ih => simp [taken, ih]

theorem taken_isPrefix (aged : Segment → Bool) (excess : Nat) (segs : List Segment) :
    taken aged excess segs <+: segs.filter fun s => !aged s := by
  induction segs generalizing excess with
  | nil => exact List.nil_prefix
  | cons s segs ih =>
    rw [taken]
    split
    · rename_i hold
      rw [List.filter_cons_of_neg (by simpa using hold)]
      exact ih _
    · rename_i hyoung
      rw [List.filter_cons_of_pos (by simpa using hyoung)]
      split
      · exact List.nil_prefix
      · exact List.cons_prefix_cons.mpr ⟨rfl, ih _⟩

/-- Of no segment in front of which there is too little is there enough in front of it and past its
age behind it. -/
def InTime (aged : Segment → Bool) (excess : Nat) (segs : List Segment) : Prop :=
  ∀ before s after, segs = before ++ s :: after → aged s = false → bytesOf before < excess →
    bytesOf before + bytesOf (after.filter aged) < excess

theorem inTime_cons {s : Segment} : InTime aged excess (s :: segs) ↔
    (aged s = false → 0 < excess → bytesOf (segs.filter aged) < excess) ∧
      InTime aged (excess - s.sizeBytes) segs := by
  constructor
  · intro h
    refine ⟨fun hs hpos => ?_, fun before t after hsegs ht hlt => ?_⟩
    · have := h [] s segs rfl hs hpos
      rwa [show bytesOf [] = 0 from rfl, Nat.zero_add] at this
    · have := h (s :: before) t after (by rw [hsegs]; rfl) ht (by rw [bytesOf_cons]; omega)
      rw [bytesOf_cons] at this
      omega
  · rintro ⟨hhead, htail⟩ before t after hsegs ht hlt
    cases before with
    | nil =>
      obtain ⟨rfl, rfl⟩ := List.cons.inj hsegs
      rw [show bytesOf [] = 0 from rfl, Nat.zero_add]
      exact hhead ht (Nat.zero_lt_of_lt hlt)
    | cons u before =>
      obtain ⟨rfl, rfl⟩ := List.cons.inj hsegs
      rw [bytesOf_cons] at hlt ⊢
      have := htail before t after rfl ht (by omega)
      omega

/-- The walk takes the shortest run for what the expired segments leave of the excess, exactly if
each of them is counted in time. -/
theorem taken_eq_iff : taken aged excess segs =
    shortestRun (excess - bytesOf (segs.filter aged)) (segs.filter fun s => !aged s) ↔
      InTime aged excess segs := by
  induction segs generalizing excess with
  | nil => exact iff_of_true rfl fun before s after h => absurd h (by simp)
  | cons s segs ih =>
    rw [taken, inTime_cons]
    cases hs : aged s with
    | true =>
      rw [if_pos rfl, List.filter_cons_of_pos hs, List.filter_cons_of_neg (by simp [hs]),
        bytesOf_cons, ← Nat.sub_sub, ih]
      exact ⟨fun h => ⟨nofun, h⟩, And.right⟩
    | false =>
      rw [if_neg Bool.false_ne_true, List.filter_cons_of_neg (by simp [hs]),
        List.filter_cons_of_pos (by simp [hs]), shortestRun]
      by_cases hzero : excess = 0
      · subst hzero
        rw [if_pos rfl, if_pos (Nat.zero_sub _)]
        refine iff_of_true rfl ⟨fun _ h => absurd h (Nat.lt_irrefl 0), ?_⟩
        exact fun _ _ _ _ _ hlt => absurd hlt (by omega)
      rw [if_neg hzero]
      by_cases hlate : excess - bytesOf (segs.filter aged) = 0
      · rw [if_pos hlate]
        exact iff_of_false nofun fun h => absurd (h.1 rfl (Nat.pos_of_ne_zero hzero)) (by omega)
      · rw [if_neg hlate, List.cons.injEq, Nat.sub_right_comm, ih]
        exact ⟨fun h => ⟨fun _ _ => by omega, h.2⟩, fun h => ⟨rfl, h.2⟩⟩

end

/-! ### The plan -/

/-- What the partition has too much. -/
def Partition.surplus (p : Partition) (config : TopicConfig) : Nat :=
  (config.retentionBytes.map fun bytes => bytesOf p.segments - bytes.toNat).getD 0

/-- Of the segments not past their age, `run` is the shortest oldest-first run that brings the
partition within its limit once the expired segments are gone, or all of them if none does. -/
structure Partition.LeastRun (p : Partition) (config : TopicConfig) (now : Int64)
    (run : List Segment) : Prop where
  oldest : run <+: p.young config now
  enough : (∀ bytes ∈ config.retentionBytes,
      p.remaining ((p.aged config now ++ run).map (·.baseOffset)) ≤ bytes.toNat) ∨
    run = p.young config now
  shortest : ∀ shorter, shorter <+: run → shorter ≠ run → ∃ bytes ∈ config.retentionBytes,
    bytes.toNat < p.remaining ((p.aged config now ++ shorter).map (·.baseOffset))

/-- There is one such run only. -/
theorem Partition.LeastRun.unique {run run' : List Segment} (h : p.LeastRun config now run)
    (h' : p.LeastRun config now run') : run = run' := by
  have hone {run run' : List Segment} (h : p.LeastRun config now run)
      (h' : p.LeastRun config now run') (hpre : run <+: run') : run = run' := by
    by_contra hne
    obtain ⟨bytes, hbytes, hlt⟩ := h'.shortest run hpre hne
    rcases h.enough with henough | hall
    · exact absurd (henough bytes hbytes) (Nat.not_le_of_lt hlt)
    · exact hne (hpre.eq_of_length_le (hall ▸ h'.oldest.length_le))
  rcases List.prefix_or_prefix_of_prefix h.oldest h'.oldest with hpre | hpre
  · exact hone h h' hpre
  · exact (hone h' h hpre).symm

theorem Partition.perm_aged_young (p : Partition) (config : TopicConfig) (now : Int64) :
    p.segments.Perm (p.aged config now ++ (p.young config now ++ [p.active])) := by
  rw [Partition.segments, ← List.append_assoc]
  exact (List.filter_append_perm _ _).symm.append_right _

/-- It is the run for the excess that the expired segments leave. -/
theorem Partition.Increasing.leastRun (hp : p.Increasing) (config : TopicConfig) (now : Int64) :
    p.LeastRun config now (shortestRun (p.surplus config - bytesOf (p.aged config now))
      (p.young config now)) := by
  have hleft {run : List Segment} (hrun : run <+: p.young config now) :
      bytesOf (p.aged config now) + bytesOf run +
        p.remaining ((p.aged config now ++ run).map (·.baseOffset)) = bytesOf p.segments := by
    obtain ⟨rest, hrest⟩ := hrun
    rw [← bytesOf_append]
    have hperm := p.perm_aged_young config now
    rw [← hrest, List.append_assoc, ← List.append_assoc] at hperm
    exact hp.remaining_add hperm
  have hpre := shortestRun_isPrefix (p.surplus config - bytesOf (p.aged config now))
    (p.young config now)
  refine ⟨hpre, ?_, fun shorter hshort hne => ?_⟩
  · rcases le_bytesOf_shortestRun (p.surplus config - bytesOf (p.aged config now))
      (p.young config now) with h | h
    · refine .inl fun bytes hbytes => ?_
      have hexcess : p.surplus config = bytesOf p.segments - bytes.toNat := by
        rw [Partition.surplus, show config.retentionBytes = some bytes from hbytes]
        rfl
      have := hleft hpre
      omega
    · exact .inr h
  · have hlt := bytesOf_lt_of_shorter hshort hne
    have hsum := hleft (hshort.trans hpre)
    cases hlimit : config.retentionBytes with
    | none =>
      have hexcess : p.surplus config = 0 := by rw [Partition.surplus, hlimit]; rfl
      omega
    | some bytes =>
      have hexcess : p.surplus config = bytesOf p.segments - bytes.toNat := by
        rw [Partition.surplus, hlimit]
        rfl
      exact ⟨bytes, rfl, by omega⟩

section
variable (hp : p.Increasing)
include hp

/-- What a plan holds. -/
theorem Partition.Increasing.mem_planVictims
    (hms : ∀ ms ∈ config.retentionMs, ms.toNat < 2 ^ 63) (now : Int64) (b : Nat) :
    b ∈ p.planVictims config now ↔ b ∈ (p.aged config now ++ taken
      (·.aged config.retentionMs now) (p.surplus config) p.sealedSegments).map (·.baseOffset) := by
  have hord : p.sealedSegments.Pairwise fun a b => a.baseOffset < b.baseOffset :=
    (List.pairwise_append.mp hp).1
  have hnodup := List.Pairwise.imp (fun hlt => Nat.ne_of_lt hlt) hord
  have haged : ∀ s ∈ p.sealedSegments, s.baseOffset ∈ (p.aged config now).map (·.baseOffset) ↔
      s.aged config.retentionMs now = true := fun s hs => by
    refine ⟨fun hmem => ?_, fun hold => List.mem_map_of_mem (List.mem_filter.mpr ⟨hs, hold⟩)⟩
    obtain ⟨t, ht, hbase⟩ := List.mem_map.mp hmem
    obtain ⟨ht, hold⟩ := List.mem_filter.mp ht
    rwa [← List.inj_on_of_nodup_map (List.pairwise_map.mpr hnodup) ht hs hbase]
  simp only [Partition.planVictims, List.mem_dedup, List.mem_insertionSort]
  rw [hp.byTime hms, List.map_append, Partition.surplus]
  cases config.retentionBytes with
  | none =>
    rw [Option.map_none, Option.map_none, Option.getD_none, Option.getD_none, taken_zero,
      List.map_nil, List.append_nil]
  | some bytes =>
    rw [Option.map_some, Option.map_some, Option.getD_some, Option.getD_some, hp.sealed_eq,
      ← overBudget_eq haged hord]
    split
    · rfl
    · rename_i hin
      have hzero : bytesOf p.segments - bytes.toNat = 0 :=
        Nat.sub_eq_zero_of_le (Nat.le_of_not_lt hin)
      rw [hzero, overBudget_eq haged hord, taken_zero, List.map_nil, List.append_nil]

/-- Runs of the young segments that hold the same bases are the same. -/
theorem Partition.Increasing.run_ext {xs ys : List Segment} (hx : xs <+: p.young config now)
    (hy : ys <+: p.young config now) (h : ∀ b, b ∈ (p.aged config now ++ xs).map (·.baseOffset) ↔
      b ∈ (p.aged config now ++ ys).map (·.baseOffset)) : xs = ys := by
  have hnodup := ((p.perm_aged_young config now).map Segment.baseOffset).nodup hp.nodup
  have hone {xs ys : List Segment} (hpre : xs <+: ys) (hy : ys <+: p.young config now)
      (h : ∀ b ∈ (p.aged config now ++ ys).map (·.baseOffset),
        b ∈ (p.aged config now ++ xs).map (·.baseOffset)) : xs = ys := by
    obtain ⟨more, rfl⟩ := hpre
    obtain ⟨rest, hrest⟩ := hy
    cases more with
    | nil => exact (List.append_nil _).symm
    | cons s more =>
      have hs := h s.baseOffset (List.mem_map_of_mem (by simp))
      rw [← hrest, show p.aged config now ++ (xs ++ s :: more ++ rest ++ [p.active]) =
        (p.aged config now ++ xs) ++ s :: (more ++ rest ++ [p.active]) by simp,
        List.map_append] at hnodup
      exact absurd List.mem_cons_self (List.disjoint_of_nodup_append hnodup hs)
  rcases List.prefix_or_prefix_of_prefix hx hy with hpre | hpre
  · exact hone hpre hy fun b hb => (h b).mpr hb
  · exact (hone hpre hx fun b hb => (h b).mp hb).symm

end

/-- **Retention by size removes no more than needed**, where the expired segments are counted in
time. A plan is the sealed segments past their age together with the shortest oldest-first run of
the other sealed segments that brings the partition within its limit, without the active segment,
if and only if there is no sealed segment, not past its age, such that the segments in front of it
do not make up for the excess of the partition, but do so together with the ones past their age
behind it. -/
theorem planVictims_least {p : Partition} (hp : p.Increasing) {config : TopicConfig}
    {now : Int64} (hms : ∀ ms ∈ config.retentionMs, ms.toNat < 2 ^ 63) :
    ((∃ run, p.LeastRun config now run ∧ ∀ b, b ∈ p.planVictims config now ↔
      b ∈ (p.aged config now ++ run).map (·.baseOffset)) ∧
      p.active.baseOffset ∉ p.planVictims config now) ↔
    InTime (·.aged config.retentionMs now) (p.surplus config) p.sealedSegments := by
  have hactive : p.active.baseOffset ∉ p.planVictims config now :=
    fun h => absurd (Partition.planVictims_sealed h) (Nat.lt_irrefl _)
  have hleast := hp.leastRun config now
  simp only [hp.mem_planVictims hms] at hactive ⊢
  rw [← taken_eq_iff]
  constructor
  · rintro ⟨⟨run, hrun, hmem⟩, -⟩
    rw [hp.run_ext (taken_isPrefix ..) hrun.oldest hmem]
    exact hrun.unique hleast
  · intro heq
    exact ⟨⟨_, hleast, fun b => by rw [heq]; rfl⟩, hactive⟩

/-- Three records of 33 bytes, each in its segment, the last one active. -/
def threeRecords (first second : Int64) : Option (Partition × List Nat) :=
  tinySegments.appendBatch [⟨none, [1], some first, none⟩, ⟨none, [2], some second, none⟩,
    ⟨none, [3], some 100, none⟩] .policy 100

def keepBytes (bytes : UInt64) : TopicConfig := { keepHalf with retentionBytes := some bytes }

theorem threeRecords_isSome : (threeRecords 0 100).isSome ∧ (threeRecords 100 0).isSome := by
  decide +kernel

/-- The oldest segment is past its age. -/
def oldFirst : Partition := ((threeRecords 0 100).get threeRecords_isSome.1).1

theorem planVictims_least_oldFirst :
    oldFirst.planVictims (keepBytes 33) 100 = [0, 1] ∧
      (∃ run, oldFirst.LeastRun (keepBytes 33) 100 run ∧
        ∀ b, b ∈ oldFirst.planVictims (keepBytes 33) 100 ↔
          b ∈ (oldFirst.aged (keepBytes 33) 100 ++ run).map (·.baseOffset)) ∧
      oldFirst.active.baseOffset ∉ oldFirst.planVictims (keepBytes 33) 100 :=
  have hp : oldFirst.Increasing := by
    unfold Partition.Increasing
    decide +kernel
  ⟨by decide +kernel, (planVictims_least hp (by rintro ms ⟨⟩; decide)).mpr
    (taken_eq_iff.mp (by decide +kernel))⟩

/-- The oldest segment is young and the one behind it past its age. -/
def oldSecond : Partition := ((threeRecords 100 0).get threeRecords_isSome.2).1

/-- Without the segment past its age the partition is within its limit of 66 bytes; the walk
comes to the oldest segment first and takes it too. -/
theorem young_segment_taken :
    (oldSecond.aged (keepBytes 66) 100).map (·.baseOffset) = [1] ∧
      oldSecond.remaining [1] = 66 ∧ oldSecond.planVictims (keepBytes 66) 100 = [0, 1] := by
  decide +kernel

end EventStream.Storage
