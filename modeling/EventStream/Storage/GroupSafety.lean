import EventStream.Storage.History
import EventStream.Storage.GroupCommitProofs

/-! What group commit promises, over whole runs.

An append that returns `Ok` has its bytes on disk (`group_commit_sound`), unless a `sync_all`
on a partition without writes has announced a number that the first write then takes
(`sync_all_covers_unwritten`). A failing fsync fences the partition for later appends, but not
for those that wrote before and still wait for the `synced` lock
(`later_fsync_acknowledges_dropped`); where none waits, no append with uncovered bytes returns
`Ok` (`failed_fsync_fences`). -/
namespace EventStream.Storage

namespace Group

/-! ### Whole runs -/

section
variable {strict : Prop} {g g' : Group} {t : Nat}

section
variable (h : g.Sound strict)
include h

theorem Sound.run (hsafe : (g.threads t).phase = .loading → g.partition.latest.seq ≠ 0)
    (hs : g.run t = some g') : g'.Sound strict := by
  have hp := h.phases t
  have hran := ran hs
  generalize hphase : (g.threads t).phase = phase at hp hran hsafe
  cases hran with
  | acquire hfree hops => exact h.acquire hphase hfree hops
  | release => exact h.release hphase
  | perform => exact h.perform hphase
  | flush => exact h.move nofun hp.1
  | leave hw =>
    -- under the strict policy a call that wrote something waits
    refine h.move nofun fun hstrict _ σ hσ => ?_
    rw [hp.2 (Bool.eq_false_iff.mpr fun hwrote => absurd (hw hwrote)
      (Nat.not_lt.mpr (h.flush hstrict)))] at hσ
    exact absurd hσ List.not_mem_nil
  | load =>
    have hmax : max g.partition.latest.seq 1 = g.partition.latest.seq :=
      Nat.max_eq_left (Nat.one_le_iff_ne_zero.mpr (hsafe rfl))
    rw [hmax]
    refine h.move nofun ⟨h.latest, fun σ hσ => ?_⟩
    rw [hp] at hσ
    exact absurd hσ List.not_mem_nil
  | find hle =>
    exact h.move nofun fun _ _ σ hσ =>
      (h.spans σ ⟨t, hσ⟩).syncedCovered (Nat.le_trans (hp.2 σ hσ) hle)
  | hold => exact h.move nofun hp
  | choose =>
    refine h.move nofun ?_
    show g.Held _ _
    split
    · exact ⟨h.latest, fun σ hσ => by
        rw [h.latestSeq]
        exact Nat.le_trans (hp.2 σ hσ) hp.1.seq⟩
    · exact hp
  | reset => exact h.move nofun hp
  | @begin kind m =>
    -- What was written up to the mark is in the file when the fsync begins.
    have hcaptured : g.Captured m kind (g.files ⟨m.base, kind⟩).len :=
      fun σ hσ _ hf => hf ▸ (h.spans σ hσ).len
    cases kind with
    | log => exact h.move nofun ⟨hp, hcaptured⟩
    | index => exact h.move nofun ⟨hp.1, hp.2, hcaptured⟩
  | coverLog => exact h.coverLog hphase
  | coverIndex => exact h.coverIndex hphase

theorem Sound.fail {discards : Bool} (hs : g.fail t discards = some g') : g'.Sound strict := by
  unfold Group.fail at hs
  dsimp only at hs
  split at hs
  · rename_i hphase
    cases hs
    exact h.failRoll hphase (.inl rfl) _ discards
  · rename_i hphase
    cases hs
    exact h.failRoll hphase (.inr rfl) _ discards
  · rename_i kind _ target _
    cases hs
    have hq : g.Quiet (setPhase { g.poison ⟨target.base, kind⟩ discards with
        syncedHeld := false } t (.done false)) t (.done false) :=
      ⟨⟨g.partition.unsynced, g.partition.synced, rfl⟩, rfl,
        fun f => (g.files_poison _ discards f).1,
        fun f => Nat.le_of_eq (g.files_poison _ discards f).2.symm⟩
    exact h.quiet hq rfl nofun (fun _ hno => (nomatch hno)) h.synced
      fun σ hσ hseq => hq.grows.mono ((h.spans σ hσ).syncedCovered hseq)
  · exact nomatch hs

theorem Sound.call {c : Call} (hs : g.call t c = some g') : g'.Sound strict := by
  have hp := h.phases t
  unfold Group.call at hs
  split at hs
  · rename_i hphase
    rw [hphase] at hp
    -- A call that has just begun has written nothing.
    have hdone : ∀ ok, g.PhaseOk strict (g.threads t).wrote (.done ok) := fun ok _ _ σ hσ => by
      rw [hp] at hσ
      exact absurd hσ List.not_mem_nil
    cases c with
    | append records now =>
      cases hs
      split
      · exact h.move nofun (hdone _)
      · exact h.move nofun hp
    | syncAll =>
      cases hs
      exact h.move nofun hp
    | syncPending =>
      cases hs
      split
      · exact h.move nofun (hdone _)
      · exact h.move nofun hp
  · exact nomatch hs

theorem Sound.step {e : GroupEvent} (hsafe : g.AfterWrite e) (hs : g.step e = some g') :
    g'.Sound strict := by
  cases e with
  | call t c => exact h.call hs
  | run t => exact h.run (hsafe t rfl) hs
  | fail t discards => exact h.fail hs

end

theorem sound_of_safeRun {g₀ : Group} (hrun : SafeRun g₀ g) (h₀ : g₀.Sound strict) :
    g.Sound strict :=
  hrun.keeps h₀ fun h hok hs => h.step hok hs

/-- A partition as `open` returns it. -/
theorem sound_opened {d : Directory} {segmentBytes : UInt64} {flushEveryRecords : Nat}
    {p : Partition} (hopen : Partition.open d segmentBytes flushEveryRecords = some p)
    (hp : p.Stacked) (hflush : strict → flushEveryRecords ≤ 1) (len : FileId → Nat) :
    (opened p len).Sound strict := by
  have hnone : ∀ σ, ¬ (opened p len).Wrote σ := fun σ ⟨_, hσ⟩ => absurd hσ List.not_mem_nil
  obtain ⟨segs, active, next, cut, rfl⟩ : ∃ segs active next cut,
      p = .ofSegments segs active next cut segmentBytes flushEveryRecords := by
    obtain ⟨⟨segs, next⟩, _, hopen⟩ := Option.bind_eq_some_iff.mp hopen
    dsimp only at hopen
    split at hopen
    · cases hopen
      exact ⟨_, _, _, _, rfl⟩
    · cases hopen
      exact ⟨_, _, _, _, rfl⟩
  exact
    { flush := fun hstrict => Nat.max_le.mpr ⟨hflush hstrict, Nat.le_refl 1⟩
      appenderBase := rfl
      latestSeq := rfl
      latest := ⟨Nat.le_refl _, Nat.le_refl _, fun σ hσ => absurd hσ (hnone σ)⟩
      synced := Nat.le_refl _
      spans := fun σ hσ => absurd hσ (hnone σ)
      phases := fun _ => rfl
      free := fun _ => ⟨hp, fun σ hσ => absurd hσ (hnone σ)⟩
      writer := fun _ _ _ hno => nomatch hno
      unique := fun _ _ _ _ _ _ hno => nomatch hno }

end

end Group

/-- **Group commit is sound.** Open a partition with `flush_every_records = 1` and let any
number of appends, rolls and syncs run in any interleaving. If every `sync_all` loads the
newest mark after something was written, then an append that has returned `Ok` finds all its
bytes, in every log and index file it wrote to, covered by an fsync of that file that began
after the write and has succeeded. -/
theorem group_commit_sound {d : Directory} {segmentBytes : UInt64} {p : Partition}
    (hopen : Partition.open d segmentBytes 1 = some p) (hp : p.Stacked) (len : FileId → Nat)
    {g : Group} (hrun : (Group.opened p len).SafeRun g) {t : Nat}
    (hok : (g.threads t).phase = .done true) : ∀ σ ∈ (g.threads t).wrote, g.Covered σ := by
  have hopened : (Group.opened p len).Sound True :=
    Group.sound_opened hopen hp (fun _ => Nat.le_refl 1) len
  have hphase := (Group.sound_of_safeRun hrun hopened).phases t
  rw [hok] at hphase
  exact hphase trivial rfl

/-! ### Replaying runs -/

namespace Group

instance (g : Group) (e : GroupEvent) : Decidable (g.AfterWrite e) :=
  match e with
  | .run t =>
    decidable_of_iff ((g.threads t).phase = .loading → g.partition.latest.seq ≠ 0)
      ⟨fun h u hu => by cases hu; exact h, fun h => h t rfl⟩
  | .call _ _ => .isTrue fun _ hno => nomatch hno
  | .fail _ _ => .isTrue fun _ hno => nomatch hno

abbrev replay : Group → List GroupEvent → Option Group := Runs.replay step fun _ _ => True

/-- A replay that stops in front of a `sync_all` without a write before it. -/
abbrev safeReplay : Group → List GroupEvent → Option Group := Runs.replay step AfterWrite

end Group

/-- `n` steps of one thread. -/
def steps (t n : Nat) : List GroupEvent := List.replicate n (.run t)

def oneByte (b : UInt8) : AppendRecord := ⟨none, [b], none, none⟩

/-- A new partition with segments of 1 KiB. -/
def newPartition : Partition := .ofSegments [] (.openEmpty 0) 0 false 1024 1

def newGroup : Group := .opened newPartition fun _ => 0

/-- Two appends write; the first fsyncs for both. -/
def sharedFsync : List GroupEvent :=
  [.call 0 (.append [oneByte 1] 0), .call 1 (.append [oneByte 2] 0)] ++
    steps 0 12 ++ steps 1 12 ++ steps 0 7 ++ steps 1 1

theorem sharedFsync_runs : (newGroup.safeReplay sharedFsync).isSome := by decide +kernel

/-- The second append returns `Ok` without an fsync of its own. -/
theorem group_commit_sound_shared :
    (((newGroup.safeReplay sharedFsync).get sharedFsync_runs).threads 1).wrote.length = 2 ∧
      ∀ σ ∈ (((newGroup.safeReplay sharedFsync).get sharedFsync_runs).threads 1).wrote,
        ((newGroup.safeReplay sharedFsync).get sharedFsync_runs).Covered σ := by
  refine ⟨by decide +kernel, ?_⟩
  exact group_commit_sound (open_empty 1024 1) ⟨by decide, by decide, by decide⟩ (fun _ => 0)
    (.of_replay (Option.some_get sharedFsync_runs).symm) (by decide +kernel)

/-! ### A number that no write has yet -/

/-- One record on disk, which a segment of one byte cannot share. -/
def oneRecordOnDisk : Directory :=
  { logs := [(0, encodeRecord ⟨0, 0, none, [7]⟩)], indexes := [], tmpLogs := [], tmpIndexes := []
    marker := none }

theorem oneRecordOnDisk_opens : (Partition.open oneRecordOnDisk 1 1).isSome := by decide +kernel

def reopened : Partition := (Partition.open oneRecordOnDisk 1 1).get oneRecordOnDisk_opens

/-- The partition with the lengths of its two files. -/
def reopenedGroup : Group :=
  .opened reopened fun f =>
    if f = ⟨0, .log⟩ then reopened.active.log.length
    else if f = ⟨0, .index⟩ then reopened.active.indexFile.length
    else 0

/-- `sync_all` loads the mark of an unwritten partition; the first append rolls and writes;
`sync_all` fsyncs the sealed files and takes the append's number as covered. -/
def staleMark : List GroupEvent :=
  [.call 0 .syncAll, .run 0, .call 1 (.append [oneByte 1] 0)] ++ steps 1 15 ++ steps 0 7 ++
    steps 1 1

theorem staleMark_runs : (reopenedGroup.replay staleMark).isSome := by decide +kernel

/-- The append returns `Ok` although no fsync of its log has begun since it wrote to it. -/
theorem sync_all_covers_unwritten :
    ∃ g, reopenedGroup.Run g ∧ (g.threads 1).phase = .done true ∧
      ∃ σ ∈ (g.threads 1).wrote, σ.start < σ.stop ∧ ¬ g.Covered σ := by
  refine ⟨_, .of_replay (Option.some_get staleMark_runs).symm, by decide +kernel, ?_⟩
  refine ⟨⟨⟨1, .log⟩, 0, 33, 1⟩, ?_, by decide, ?_⟩
  · decide +kernel
  · show ¬ _ ≤ _
    decide +kernel

/-! ### Failing fsyncs -/

def GroupEvent.thread : GroupEvent → Nat
  | .call t _ | .run t | .fail t _ => t

namespace Group
variable {g g' : Group} {t u : Nat} {discards ok : Bool} {e : GroupEvent}

theorem setPhase_other (g : Group) (phase : Phase) (hu : u ≠ t) :
    (g.setPhase t phase).threads u = g.threads u := Function.update_of_ne hu _ _

theorem perform_other (g : Group) (op : WriterOp) (hu : u ≠ t) :
    (g.perform t op).threads u = g.threads u := by
  cases op with
  | writeLog bytes => exact Function.update_of_ne hu _ _
  | writeIndex bytes => exact Function.update_of_ne hu _ _
  | _ => rfl

theorem run_other (hs : g.run t = some g') (hu : u ≠ t) : g'.threads u = g.threads u := by
  have hran := ran hs
  generalize (g.threads t).phase = phase at hran
  cases hran with
  | perform => rw [setPhase_other _ _ hu, perform_other _ _ hu]
  | _ => exact setPhase_other _ _ hu

theorem fail_other (hs : g.fail t discards = some g') (hu : u ≠ t) :
    g'.threads u = g.threads u := by
  unfold Group.fail at hs
  dsimp only at hs
  split at hs
  · cases hs
    exact setPhase_other _ _ hu
  · cases hs
    exact setPhase_other _ _ hu
  · cases hs
    exact setPhase_other _ _ hu
  · exact nomatch hs

theorem call_other {c : Call} (hs : g.call t c = some g') (hu : u ≠ t) :
    g'.threads u = g.threads u := by
  unfold Group.call at hs
  split at hs
  · split at hs <;> (cases hs; exact setPhase_other _ _ hu)
  · exact nomatch hs

/-- A step moves one thread. -/
theorem step_other (hs : g.step e = some g') (hu : u ≠ e.thread) : g'.threads u = g.threads u := by
  cases e with
  | call t c => exact call_other hs hu
  | run t => exact run_other hs hu
  | fail t discards => exact fail_other hs hu

/-- A call that has returned does not move. -/
theorem step_done (hs : g.step e = some g') (hdone : (g.threads t).phase = .done ok) :
    (g'.threads t).phase = .done ok := by
  by_cases ht : t = e.thread
  · subst ht
    cases e <;>
      simp [step, call, run, fail, GroupEvent.thread] at hs hdone <;> simp [hdone] at hs
  · rw [step_other hs ht, hdone]

/-- The call whose fsync fails returns an error. -/
theorem fail_done (hs : g.fail t discards = some g') : (g'.threads t).phase = .done false := by
  unfold Group.fail at hs
  dsimp only at hs
  split at hs
  · cases hs
    simp [setPhase]
  · cases hs
    simp [setPhase]
  · cases hs
    simp [setPhase]
  · cases hs

/-! ### What every step leaves in place -/

structure Advances (g g' : Group) : Prop where
  covered : ∀ f, (g.files f).covered ≤ (g'.files f).covered
  seq : g.partition.writeSeq ≤ g'.partition.writeSeq
  wrote : ∀ t, (g.threads t).wrote ⊆ (g'.threads t).wrote

theorem Advances.mono (h : g.Advances g') {σ : Span} (hσ : g.Covered σ) : g'.Covered σ :=
  Nat.le_trans hσ (h.covered _)

theorem Advances.wroteAny (h : g.Advances g') {σ : Span} : g.Wrote σ → g'.Wrote σ :=
  fun ⟨t, hσ⟩ => ⟨t, h.wrote t hσ⟩

/-- A step that moves a call, and may cover more. -/
theorem Advances.of_move {phase : Phase} (hcovered : ∀ f, (g.files f).covered ≤
    (g'.files f).covered) (hseq : g'.partition.writeSeq = g.partition.writeSeq)
    (hthreads : g'.threads = Function.update g.threads t ⟨phase, (g.threads t).wrote⟩) :
    g.Advances g' where
  covered := hcovered
  seq := Nat.le_of_eq hseq.symm
  wrote := by
    intro u
    rw [hthreads, wrote_update]
    exact List.Subset.refl _

theorem setPhase_self (g : Group) (t : Nat) (phase : Phase) :
    (g.setPhase t phase).threads t = ⟨phase, (g.threads t).wrote⟩ := Function.update_self ..

theorem advances_setPhase (g : Group) (t : Nat) (phase : Phase) :
    g.Advances (g.setPhase t phase) := .of_move (fun _ => Nat.le_refl _) rfl rfl

theorem Advances.trans {g₁ : Group} (h : g.Advances g₁) (h' : g₁.Advances g') : g.Advances g' :=
  ⟨fun f => Nat.le_trans (h.covered f) (h'.covered f), Nat.le_trans h.seq h'.seq,
    fun t => List.Subset.trans (h.wrote t) (h'.wrote t)⟩

theorem wrote_write (g : Group) (t : Nat) (kind : FileKind) (bytes : Bytes) (u : Nat) :
    (g.threads u).wrote ⊆ ((g.write t kind bytes).threads u).wrote := by
  show _ ⊆ (Function.update g.threads t _ u).wrote
  by_cases hut : u = t
  · subst hut
    rw [Function.update_self]
    exact List.subset_append_left _ _
  · rw [Function.update_of_ne hut]
    exact List.Subset.refl _

theorem advances_perform (g : Group) (t : Nat) (op : WriterOp) : g.Advances (g.perform t op) where
  covered := by
    intro f
    cases op with
    | writeLog bytes => exact Nat.le_of_eq (g.covered_write t .log bytes f).symm
    | writeIndex bytes => exact Nat.le_of_eq (g.covered_write t .index bytes f).symm
    | syncLog => exact g.covered_cover _ _ f
    | syncIndex => exact g.covered_cover _ _ f
    | _ => exact Nat.le_refl _
  seq := by
    cases op with
    | mark => exact Nat.le_succ _
    | _ => exact Nat.le_refl _
  wrote := by
    intro u
    cases op with
    | writeLog bytes => exact g.wrote_write t .log bytes u
    | writeIndex bytes => exact g.wrote_write t .index bytes u
    | _ => exact List.Subset.refl _

theorem advances_run (hs : g.run t = some g') : g.Advances g' := by
  have hran := ran hs
  generalize (g.threads t).phase = phase at hran
  cases hran with
  | perform => exact (g.advances_perform t _).trans (advances_setPhase _ t _)
  | coverLog | coverIndex => exact .of_move (g.covered_cover _ _) rfl rfl
  | _ => exact .of_move (fun _ => Nat.le_refl _) rfl rfl

/-- Nothing but the end of a sync moves the number in `synced`. -/
theorem step_synced (hs : g.step e = some g') :
    g'.partition.synced = g.partition.synced ∨
      ∃ u n m, e = .run u ∧ (g.threads u).phase = .flushing .index n m ∧
        g'.partition.synced = max g.partition.synced m.seq := by
  cases e with
  | call u c =>
    simp only [step, Group.call] at hs
    split at hs
    · split at hs <;> (cases hs; exact .inl rfl)
    · cases hs
  | run u =>
    have hran := ran hs
    generalize hphase : (g.threads u).phase = phase at hran
    cases hran with
    | @perform op => exact .inl (by cases op <;> rfl)
    | @coverIndex n m => exact .inr ⟨u, n, m, rfl, hphase, rfl⟩
    | _ => exact .inl rfl
  | fail u discards =>
    simp only [step, Group.fail] at hs
    split at hs <;> first | (cases hs; exact .inl rfl) | cases hs

/-! ### Behind a failed fsync -/

/-- The call has these bytes, no fsync has covered them when the failure in `g` came, and it has not
returned. -/
structure Pending (g now : Group) (t : Nat) (σ : Span) : Prop where
  wrote : σ ∈ (g.threads t).wrote
  lost : ¬ g.Covered σ
  waits : ∀ ok, (now.threads t).phase ≠ .done ok

/-- A sync that is about to succeed, behind the failure in `g`, does not reach the number of bytes
that are pending. -/
def SyncsBelow (g now : Group) (e : GroupEvent) : Prop :=
  ∀ u n target, e = .run u → (now.threads u).phase = .flushing .index n target →
    ∀ t σ, g.Pending now t σ → target.seq < σ.seq

/-- Where a call stands whose bytes a failure may have discarded: it has failed, or it waits for a
number that was not reached. -/
def Fenced (g now : Group) (t : Nat) (σ : Span) : Prop :=
  (now.threads t).phase = .done false ∨
    g.Pending now t σ ∧ σ ∈ (now.threads t).wrote ∧ now.partition.synced < σ.seq

section
variable {now now' : Group} {σ : Span}

/-- The step of the call itself. -/
theorem Pending.run (h : now.Sound True) (hp : g.Pending now t σ) (hσ : σ ∈ (now.threads t).wrote)
    (hlow : now.partition.synced < σ.seq) (hbelow : g.SyncsBelow now (.run t))
    (hs : now.run t = some now') : ∀ ok, (now'.threads t).phase ≠ .done ok := by
  have hphase := h.phases t
  have hran := ran hs
  generalize hat : (now.threads t).phase = phase at hphase hran
  have hnone : (now.threads t).wrote ≠ [] := List.ne_nil_of_mem hσ
  cases hran with
  | leave hw =>
    exact absurd (hphase.2 (Bool.eq_false_iff.mpr fun hwrote => absurd (hw hwrote)
      (Nat.not_lt.mpr (h.flush trivial)))) hnone
  | find hle => exact absurd (Nat.le_trans (hphase.2 σ hσ) hle) (Nat.not_le.mpr hlow)
  | coverIndex => exact absurd (hphase.1.2 σ hσ) (Nat.not_le.mpr (hbelow t _ _ rfl hat t σ hp))
  | _ =>
    rw [setPhase_self]
    exact nofun

theorem Fenced.step (hf : g.Fenced now t σ) (h : now.Sound True) (hbelow : g.SyncsBelow now e)
    (hs : now.step e = some now') : g.Fenced now' t σ := by
  rcases hf with hdone | ⟨hp, hσ, hlow⟩
  · exact .inl (step_done hs hdone)
  have hsynced : now'.partition.synced < σ.seq := by
    rcases step_synced hs with heq | ⟨u, n, m, rfl, hphase, heq⟩
    · rwa [heq]
    · rw [heq]
      exact Nat.max_lt.mpr ⟨hlow, hbelow u n m rfl hphase t σ hp⟩
  by_cases ht : t = e.thread
  · subst ht
    cases e with
    | call u c =>
      have hphase := h.phases u
      simp only [Group.step, Group.call] at hs
      split at hs
      · rename_i hidle
        rw [hidle] at hphase
        exact absurd hphase (List.ne_nil_of_mem hσ)
      · cases hs
    | run u =>
      exact .inr ⟨⟨hp.wrote, hp.lost, Pending.run h hp hσ hlow hbelow hs⟩,
        (advances_run hs).wrote u hσ, hsynced⟩
    | fail u discards => exact .inl (fail_done hs)
  · have hsame := step_other hs ht
    exact .inr ⟨⟨hp.wrote, hp.lost, hsame ▸ hp.waits⟩, hsame ▸ hσ, hsynced⟩

end

end Group

/-- **A failed fsync is not papered over.** Open a partition with `flush_every_records = 1` and
let appends run in any interleaving, until the fsync of one of them fails; then let them go on. If
no sync succeeds for a number at or above that of bytes which no fsync covered at the failure, while
the append that wrote them waits, then no append with such bytes returns `Ok`. -/
theorem failed_fsync_fences {d : Directory} {segmentBytes : UInt64} {p : Partition}
    (hopen : Partition.open d segmentBytes 1 = some p) (hp : p.Stacked) (len : FileId → Nat)
    {g g₁ g₂ : Group} (hrun : (Group.opened p len).SafeRun g) {a : Nat} {discards : Bool}
    (hfail : g.step (.fail a discards) = some g₁)
    (hrest : Runs Group.step (fun now e => now.AfterWrite e ∧ g.SyncsBelow now e) g₁ g₂) {t : Nat}
    {σ : Span} (hσ : σ ∈ (g.threads t).wrote) (hlost : ¬ g.Covered σ) :
    (g₂.threads t).phase ≠ .done true := by
  have hopened : (Group.opened p len).Sound True :=
    Group.sound_opened hopen hp (fun _ => Nat.le_refl 1) len
  have hsound := Group.sound_of_safeRun hrun hopened
  have hfenced : g.Fenced g₁ t σ := by
    by_cases ht : t = a
    · subst ht
      exact .inl (Group.fail_done hfail)
    · have hsame : g₁.threads t = g.threads t := Group.step_other hfail ht
      have hlow : g.partition.synced < σ.seq := by
        by_contra hle
        exact hlost ((hsound.spans σ ⟨t, hσ⟩).syncedCovered (Nat.not_lt.mp hle))
      cases hphase : (g.threads t).phase with
      | done ok =>
        cases ok with
        | false => exact .inl (hsame ▸ hphase)
        | true =>
          have hdone := hsound.phases t
          rw [hphase] at hdone
          exact absurd (hdone trivial rfl σ hσ) hlost
      | _ =>
        refine .inr ⟨⟨hσ, hlost, ?_⟩, hsame ▸ hσ, ?_⟩
        · rw [hsame, hphase]
          exact nofun
        · rcases Group.step_synced hfail with heq | ⟨_, _, _, hno, _⟩
          · rwa [heq]
          · cases hno
  obtain ⟨hend, -⟩ := hrest.keeps (P := fun now => g.Fenced now t σ ∧ now.Sound True)
    ⟨hfenced, hsound.fail hfail⟩ fun ⟨hf, h⟩ hok hs => ⟨hf.step h hok.2 hs, h.step hok.1 hs⟩
  rcases hend with hdone | ⟨hpending, -⟩
  · rw [hdone]
    exact nofun
  · exact hpending.waits true

/-! ### Appends around a failing fsync -/

namespace Group

/-- `SyncsBelow`, for the calls of the first `k` threads. -/
def syncsBelow (k : Nat) (g now : Group) : GroupEvent → Bool
  | .run u =>
    match (now.threads u).phase with
    | .flushing .index _ target =>
      (List.range k).all fun t =>
        (now.threads t).phase = .done true || (now.threads t).phase = .done false ||
          (g.threads t).wrote.all fun σ => σ.stop ≤ (g.files σ.file).covered || target.seq < σ.seq
    | _ => true
  | _ => true

theorem SyncsBelow.of_first {g now : Group} {e : GroupEvent} {k : Nat}
    (hidle : ∀ t ≥ k, (g.threads t).wrote = [])
    (h : syncsBelow k g now e = true) : g.SyncsBelow now e := by
  rintro u begun target rfl hphase t σ hp
  simp only [syncsBelow, hphase, List.all_eq_true, List.mem_range, Bool.or_eq_true,
    decide_eq_true_eq] at h
  by_cases ht : t < k
  · rcases h t ht with (hdone | hdone) | hall
    · exact absurd hdone (hp.waits _)
    · exact absurd hdone (hp.waits _)
    · exact (hall σ hp.wrote).resolve_left hp.lost
  · exact absurd (hidle t (Nat.not_lt.mp ht)) (List.ne_nil_of_mem hp.wrote)

/-- The other threads stay as they were. -/
theorem safeReplay_other {g g' : Group} {es : List GroupEvent} {k t : Nat}
    (hes : ∀ e ∈ es, e.thread < k)
    (h : g.safeReplay es = some g') (ht : k ≤ t) : g'.threads t = g.threads t :=
  Runs.replay_keeps (P := fun g' => g'.threads t = g.threads t) h rfl fun e he _ _ hsame _ hs =>
    (step_other hs (Nat.ne_of_gt (Nat.lt_of_lt_of_le (hes e he) ht))).trans hsame

end Group

/-- A first append has returned. Three more are past the fence; two of them have written, and one
of these is in its fsync of the log. -/
def threeUnderWay : List GroupEvent :=
  .call 0 (.append [oneByte 1] 0) :: steps 0 19 ++
    [.call 1 (.append [oneByte 2] 0), .call 2 (.append [oneByte 3] 0),
      .call 3 (.append [oneByte 4] 0)] ++ steps 1 12 ++ steps 2 12 ++ steps 1 4

theorem threeUnderWay_runs : (newGroup.safeReplay threeUnderWay).isSome := by decide +kernel

def inFsync : Group := (newGroup.safeReplay threeUnderWay).get threeUnderWay_runs

theorem inFsync_fails : (inFsync.step (.fail 1 true)).isSome := by decide +kernel

def fsyncFailed : Group := (inFsync.step (.fail 1 true)).get inFsync_fails

/-- The fsync of the append that waits fails too; then the last one writes, and its fsync
succeeds. -/
def failsThenWrites : Option Group :=
  Runs.replay Group.step (fun now e => now.AfterWrite e ∧ Group.syncsBelow 4 inFsync now e)
    fsyncFailed (steps 2 4 ++ .fail 2 true :: steps 3 19)

theorem failsThenWrites_runs : failsThenWrites.isSome := by decide +kernel

def lastReturned : Group := failsThenWrites.get failsThenWrites_runs

/-- The two appends with bytes in front of the failure do not return `Ok`, the two others do. -/
theorem failed_fsync_fences_waiting :
    (lastReturned.threads 0).phase = .done true ∧ (lastReturned.threads 1).phase ≠ .done true ∧
      (lastReturned.threads 2).phase ≠ .done true ∧
      (lastReturned.threads 3).phase = .done true := by
  have hidle (t : Nat) (ht : 4 ≤ t) : (inFsync.threads t).wrote = [] := by
    have hsame : inFsync.threads t = newGroup.threads t :=
      Group.safeReplay_other (by decide) (Option.some_get threeUnderWay_runs).symm ht
    rw [hsame]
    rfl
  have hrest : Runs Group.step (fun now e => now.AfterWrite e ∧ inFsync.SyncsBelow now e)
      fsyncFailed lastReturned :=
    (Runs.of_replay (Option.some_get failsThenWrites_runs).symm).mono
      fun _ _ hok => ⟨hok.1, .of_first hidle hok.2⟩
  have hfenced {t : Nat} {σ : Span} (hσ : σ ∈ (inFsync.threads t).wrote)
      (hlost : ¬ inFsync.Covered σ) :=
    failed_fsync_fences (open_empty 1024 1) ⟨by decide, by decide, by decide⟩ (fun _ => 0)
      (.of_replay (Option.some_get threeUnderWay_runs).symm)
      (Option.some_get inFsync_fails).symm hrest hσ hlost
  refine ⟨by decide +kernel, hfenced (σ := ⟨⟨0, .log⟩, 33, 66, 2⟩) (by decide +kernel) ?_,
    hfenced (σ := ⟨⟨0, .log⟩, 66, 99, 3⟩) (by decide +kernel) ?_, by decide +kernel⟩
  all_goals
    show ¬ _ ≤ _
    decide +kernel

/-! ### An append that waits behind a failing fsync -/

/-- Both appends have written, and the first is in its fsync of the log. -/
def bothWritten : List GroupEvent :=
  [.call 0 (.append [oneByte 1] 0), .call 1 (.append [oneByte 2] 0)] ++
    steps 0 12 ++ steps 1 12 ++ steps 0 4

theorem bothWritten_runs : (newGroup.replay bothWritten).isSome := by decide +kernel

def firstInFsync : Group := (newGroup.replay bothWritten).get bothWritten_runs

theorem firstInFsync_fails : (firstInFsync.step (.fail 0 true)).isSome := by decide +kernel

def firstFailed : Group := (firstInFsync.step (.fail 0 true)).get firstInFsync_fails

theorem secondFsync_runs : (firstFailed.replay (steps 1 7)).isSome := by decide +kernel

/-- The second append, already past the fence, fsyncs in its turn and returns `Ok`, although
the failure discarded its bytes. -/
theorem later_fsync_acknowledges_dropped :
    ∃ g g₁ g₂, newGroup.Run g ∧ g.step (.fail 0 true) = some g₁ ∧ g₁.Run g₂ ∧
      ∃ σ ∈ (g.threads 1).wrote, ¬ g.Covered σ ∧ (g₂.threads 1).phase = .done true ∧
        ∃ range ∈ (g₂.files σ.file).dropped, range.1 ≤ σ.start ∧ σ.stop ≤ range.2 := by
  refine ⟨firstInFsync, firstFailed, _, .of_replay (Option.some_get bothWritten_runs).symm,
    (Option.some_get firstInFsync_fails).symm,
    .of_replay (Option.some_get secondFsync_runs).symm, ⟨⟨0, .log⟩, 33, 66, 2⟩, ?_, ?_, ?_,
    (0, 66), ?_, by decide, by decide⟩
  · decide +kernel
  · show ¬ _ ≤ _
    decide +kernel
  · decide +kernel
  · decide +kernel

end EventStream.Storage
