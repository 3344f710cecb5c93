import EventStream.Storage.GroupSafety

/-! The interval flush (`sync_pending`), under any flush policy.

With `flush_every_records` above one, or with `Durability::Deferred`, appends return before
their bytes are on disk, and `sync_pending` is to bring them there. It looks at a counter that
every sync sets to zero in front of its fsync.

All that group commit keeps is kept here too, but for what a returned append may rely on
(`Group.Backed`). What is left to follow is the counter (`Group.Tallied`). -/
namespace EventStream.Storage

/-! ### Appends that return early -/

/-- One step of a run in which no fsync fails. -/
inductive FlushEvent where
  | call (thread : Nat) (call : Call)
  | run (thread : Nat)
  /-- An append with `Durability::Deferred` returns once it has written. -/
  | defer (thread : Nat)
  deriving DecidableEq, Repr

def FlushEvent.thread : FlushEvent → Nat
  | .call t _ | .run t | .defer t => t

namespace Group

def flushStep (g : Group) : FlushEvent → Option Group
  | .call t c => g.call t c
  | .run t => g.run t
  | .defer t =>
    match (g.threads t).phase with
    | .written _ _ => some (g.setPhase t (.done true))
    | _ => none

/-- The runs whose steps all satisfy a condition. -/
abbrev FlushRun (ok : Group → FlushEvent → Prop) : Group → Group → Prop := Runs flushStep ok

/-- The step is not a sync that finds no write since the partition was opened. -/
def FindsWrite (g : Group) (e : FlushEvent) : Prop :=
  ∀ t, e = .run t → (g.threads t).phase = .loading → g.partition.latest.seq ≠ 0

/-- A sync that sets the counter to zero is about to fsync the active segment. -/
def ResetsCurrent (g : Group) (e : FlushEvent) : Prop :=
  ∀ t target, e = .run t → (g.threads t).phase = .chosen target →
    target.base = g.partition.active.baseOffset

/-- The invariant of group commit, under any flush policy. -/
abbrev Backed (g : Group) : Prop := g.Sound False

section
variable {g g' : Group}

theorem Backed.step (h : g.Backed) {e : FlushEvent} (hfinds : g.FindsWrite e)
    (hs : g.flushStep e = some g') : g'.Backed := by
  cases e with
  | call t c => exact Sound.call h hs
  | run t => exact Sound.run h (hfinds t rfl) hs
  | defer t =>
    simp only [flushStep] at hs
    split at hs
    · cases hs
      exact Sound.move h nofun fun hno => hno.elim
    · cases hs

/-- The mark a call holds is not ahead of the newest one, and that is the last write's. -/
theorem Backed.mark_le (h : g.Backed) {u : Nat} {m : WriteMark}
    (hphase : (g.threads u).phase = .holding m) : m.seq ≤ g.partition.latest.seq := by
  have hp := h.phases u
  rw [hphase] at hp
  exact h.latestSeq ▸ hp.1.seq

end

/-! ### What every step leaves in place -/

section
variable {g g' : Group} {t u : Nat} {e : FlushEvent}

theorem advances_call {c : Call} (hs : g.call t c = some g') : g.Advances g' := by
  unfold Group.call at hs
  split at hs
  · cases c <;> (cases hs; exact g.advances_setPhase t _)
  · cases hs

theorem advances_defer (hs : g.flushStep (.defer t) = some g') : g.Advances g' := by
  simp only [flushStep] at hs
  split at hs
  · cases hs
    exact g.advances_setPhase t _
  · cases hs

theorem advances_flushStep (hs : g.flushStep e = some g') : g.Advances g' := by
  cases e with
  | call t c => exact advances_call hs
  | run t => exact advances_run hs
  | defer t => exact advances_defer hs

theorem flushStep_other (hs : g.flushStep e = some g') (hu : u ≠ e.thread) :
    g'.threads u = g.threads u := by
  cases e with
  | call t c => exact call_other hs hu
  | run t => exact run_other hs hu
  | defer t =>
    simp only [flushStep] at hs
    split at hs
    · cases hs
      exact setPhase_other _ _ hu
    · cases hs

end

/-! ### The sync of a call -/

/-- A `sync_all` or `sync_pending` under way, for writes that were there when it began. -/
def Serves (g : Group) (S : Span → Prop) : Phase → Prop
  | .loading => ∀ σ, S σ → σ.seq ≤ g.partition.writeSeq
  | .waiting m | .holding m | .chosen m | .syncing _ m | .flushing _ _ m =>
    ∀ σ, S σ → σ.seq ≤ m.seq
  | .done _ => ∀ σ, S σ → g.Covered σ
  | _ => False

section
variable {g g' : Group} {t u : Nat} {σ : Span} {S : Span → Prop} {phase : Phase}

theorem Serves.advances (h : g.Serves S phase) (ha : g.Advances g') : g'.Serves S phase := by
  cases phase with
  | idle | entered | writing | written => exact h
  | loading => exact fun σ hσ => Nat.le_trans (h σ hσ) ha.seq
  | waiting | holding | chosen | syncing | flushing => exact h
  | done => exact fun σ hσ => ha.mono (h σ hσ)

/-- One step of the call itself. -/
theorem Serves.run (h : g.Serves S (g.threads t).phase) (hb : g.Backed) (hb' : g'.Backed)
    (hwrote : ∀ σ, S σ → g.Wrote σ) (hs : g.run t = some g') :
    g'.Serves S (g'.threads t).phase := by
  have ha := advances_run hs
  have hmark (m : WriteMark) := hb.mark_le (u := t) (m := m)
  have hran := ran hs
  generalize (g.threads t).phase = phase at h hran hmark
  cases hran with
  | acquire | release | perform | flush | leave => exact h.elim
  | load =>
    rw [setPhase_self]
    intro σ hσ
    exact Nat.le_trans (hb.latestSeq ▸ h σ hσ) (Nat.le_max_left _ _)
  | find hle =>
    rw [setPhase_self]
    exact fun σ hσ => (hb.spans σ (hwrote σ hσ)).syncedCovered (Nat.le_trans (h σ hσ) hle)
  | @choose m =>
    rw [setPhase_self]
    intro σ hσ
    have hle := hmark m rfl
    have := h σ hσ
    split
    · omega
    · exact this
  | hold | reset | begin | coverLog =>
    rw [setPhase_self]
    exact h
  | coverIndex =>
    rw [setPhase_self]
    exact fun σ hσ => (hb'.spans σ (ha.wroteAny (hwrote σ hσ))).syncedCovered
      (Nat.le_trans (h σ hσ) (Nat.le_max_right _ _))

theorem Serves.step (h : g.Serves S (g.threads u).phase) (hb : g.Backed) (hb' : g'.Backed)
    (hwrote : ∀ σ, S σ → g.Wrote σ) {e : FlushEvent} (hs : g.flushStep e = some g') :
    g'.Serves S (g'.threads u).phase := by
  by_cases hu : u = e.thread
  · subst hu
    cases e with
    | call t c =>
      simp only [flushStep, Group.call] at hs
      split at hs
      · rename_i hidle
        rw [FlushEvent.thread, hidle] at h
        exact h.elim
      · cases hs
    | run t => exact h.run hb hb' hwrote hs
    | defer t =>
      simp only [flushStep] at hs
      split at hs
      · rename_i hwritten
        rw [FlushEvent.thread, hwritten] at h
        exact h.elim
      · cases hs
  · rw [flushStep_other hs hu]
    exact h.advances (advances_flushStep hs)

/-- A sync that returns has covered what was written when it began. -/
theorem serves_of_flushRun (hrun : FlushRun FindsWrite g g')
    (h : g.Serves S (g.threads u).phase) (hb : g.Backed) (hwrote : ∀ σ, S σ → g.Wrote σ) :
    g'.Serves S (g'.threads u).phase ∧ g'.Backed ∧ ∀ σ, S σ → g'.Wrote σ := by
  refine hrun.keeps (P := fun g' => g'.Serves S (g'.threads u).phase ∧ g'.Backed ∧
    ∀ σ, S σ → g'.Wrote σ) ⟨h, hb, hwrote⟩ fun ⟨h, hb, hwrote⟩ hfinds hs => ?_
  have hb' := hb.step hfinds hs
  exact ⟨h.step hb hb' hwrote hs, hb', fun σ hσ => (advances_flushStep hs).wroteAny (hwrote σ hσ)⟩

end

/-! ### The counter -/

/-- A commit whose records have not been counted. -/
def Uncounted (ops : List WriterOp) : Prop := ∃ count, 0 < count ∧ .addUnsynced count ∈ ops

/-- After every write the records are counted. -/
def Tallied : List WriterOp → Prop
  | [] => True
  | .writeLog _ :: ops | .writeIndex _ :: ops => Uncounted ops ∧ Tallied ops
  | _ :: ops => Tallied ops

theorem Uncounted.append {xs : List WriterOp} (h : Uncounted xs) (ys : List WriterOp) :
    Uncounted (xs ++ ys) := by
  obtain ⟨count, hpos, hmem⟩ := h
  exact ⟨count, hpos, List.mem_append_left _ hmem⟩

theorem Tallied.append {xs ys : List WriterOp} (hx : Tallied xs) (hy : Tallied ys) :
    Tallied (xs ++ ys) := by
  induction xs with
  | nil => exact hy
  | cons op xs ih =>
    cases op with
    | writeLog | writeIndex => exact ⟨hx.1.append ys, ih hx.2⟩
    | _ => exact ih hx

variable {ops : List WriterOp}

theorem Tallied.tail {op : WriterOp} (h : Tallied (op :: ops)) : Tallied ops := by
  cases op with
  | writeLog | writeIndex => exact h.2
  | _ => exact h

theorem tallied_commitOps (b : PendingBatch) : Tallied (commitOps b) := by
  unfold commitOps
  split
  · trivial
  · rename_i hcount
    have hpos : 0 < b.count := Nat.pos_of_ne_zero hcount
    exact ⟨⟨b.count, hpos, by simp⟩, ⟨b.count, hpos, by simp⟩, trivial⟩

theorem tallied_lockedOps {now : Int64} {records : List AppendRecord} {st last : Appending}
    (h : lockedOps now st records = some (ops, last)) : Tallied ops := by
  induction records generalizing st ops with
  | nil =>
    cases h
    exact tallied_commitOps _
  | cons r records ih =>
    obtain ⟨st', _, h⟩ := Option.bind_eq_some_iff.mp h
    obtain ⟨⟨ops', last'⟩, hops, h⟩ := Option.bind_eq_some_iff.mp h
    cases h
    refine Tallied.append ?_ (ih hops)
    unfold Appending.roundOps
    split
    · trivial
    · unfold Appending.roomOps
      dsimp only
      split
      · exact (tallied_commitOps _).append trivial
      · trivial

/-- A sync that has set the counter to zero and is going to fsync these bytes. -/
def Reaches (σ : Span) : Phase → Prop
  | .syncing .log m => σ.file.base = m.base
  | .flushing .log begun m => σ.file.base = m.base ∧ (σ.file.kind = .log → σ.stop ≤ begun)
  | .syncing .index m => σ.file = ⟨m.base, .index⟩
  | .flushing .index begun m => σ.file = ⟨m.base, .index⟩ ∧ σ.stop ≤ begun
  | _ => False

/-- Written bytes are on disk, or the counter tells of them, or it is going to, or a sync that
has reset it is on its way. -/
inductive Accounted (g : Group) (σ : Span) : Prop where
  | covered (h : g.Covered σ)
  | counted (h : 0 < g.partition.unsynced)
  | writing {t : Nat} {ops : List WriterOp} {w : Bool}
    (hphase : (g.threads t).phase = .writing ops w) (h : Uncounted ops)
  | syncing {t : Nat} (h : Reaches σ (g.threads t).phase)

structure Audited (g : Group) : Prop where
  spans : ∀ σ, g.Wrote σ → g.Accounted σ
  ops : ∀ t ops w, (g.threads t).phase = .writing ops w → Tallied ops
  owner : g.appenderHeld = true → ∃ t ops w, (g.threads t).phase = .writing ops w

section
variable {g g' : Group} {t : Nat} {old : Phase} {op : WriterOp}

theorem ops_update {phase : Phase}
    (h : ∀ t ops w, (g.threads t).phase = .writing ops w → Tallied ops)
    (hnew : ∀ ops w, phase = .writing ops w → Tallied ops)
    (hother : ∀ u, u ≠ t → g'.threads u = g.threads u) (hself : (g'.threads t).phase = phase) :
    ∀ u ops w, (g'.threads u).phase = .writing ops w → Tallied ops := by
  intro u ops w hphase
  by_cases hu : u = t
  · rw [hu, hself] at hphase
    exact hnew ops w hphase
  · rw [hother u hu] at hphase
    exact h u ops w hphase

/-- A step of a call that leaves the counter, from one phase to the next. -/
theorem Audited.move (h : g.Audited) (hphase : (g.threads t).phase = old) (phase : Phase)
    (hthreads : g'.threads = Function.update g.threads t ⟨phase, (g.threads t).wrote⟩)
    (hcovered : ∀ f, (g.files f).covered ≤ (g'.files f).covered)
    (hcount : g'.partition.unsynced = g.partition.unsynced)
    (howner : g'.appenderHeld = true → (∃ ops w, phase = .writing ops w) ∨
      g.appenderHeld = true ∧ ∀ ops w, old ≠ .writing ops w)
    (hold : ∀ ops w, old = .writing ops w → ¬ Uncounted ops)
    (hnew : ∀ ops w, phase = .writing ops w → Tallied ops)
    (hreaches : ∀ σ, g.Wrote σ → Reaches σ old → Reaches σ phase ∨ g'.Covered σ) : g'.Audited := by
  have hself : (g'.threads t).phase = phase := by rw [hthreads, Function.update_self]
  have hother (u : Nat) (hu : u ≠ t) : g'.threads u = g.threads u := by
    rw [hthreads, Function.update_of_ne hu]
  refine ⟨fun σ hσ => ?_, ops_update h.ops hnew hother hself, fun hheld => ?_⟩
  rotate_left
  · rcases howner hheld with ⟨ops, w, hphase'⟩ | ⟨hheld, hnot⟩
    · exact ⟨t, ops, w, hself.trans hphase'⟩
    · obtain ⟨u, ops, w, hu⟩ := h.owner hheld
      have hne : u ≠ t := fun heq => hnot ops w (hphase.symm.trans (heq ▸ hu))
      exact ⟨u, ops, w, hother u hne ▸ hu⟩
  have hσ : g.Wrote σ := by
    obtain ⟨u, hu⟩ := hσ
    rw [hthreads, wrote_update] at hu
    exact ⟨u, hu⟩
  cases h.spans σ hσ with
  | covered hc => exact .covered (Nat.le_trans hc (hcovered _))
  | counted hpos => exact .counted (hcount ▸ hpos)
  | @writing u ops w hwriting hun =>
    have hu : u ≠ t := fun heq => hold ops w (hphase.symm.trans (heq ▸ hwriting)) hun
    exact .writing (hother u hu ▸ hwriting) hun
  | @syncing u hr =>
    by_cases hu : u = t
    · rw [hu, hphase] at hr
      rcases hreaches σ hσ hr with hr | hc
      · exact .syncing (hself ▸ hr)
      · exact .covered hc
    · exact .syncing (hother u hu ▸ hr)

/-- A step that touches neither the lock, nor the files, nor the counter. -/
theorem Audited.pass (h : g.Audited) (hphase : (g.threads t).phase = old) (phase : Phase)
    (hthreads : g'.threads = Function.update g.threads t ⟨phase, (g.threads t).wrote⟩)
    (hfiles : g'.files = g.files) (hcount : g'.partition.unsynced = g.partition.unsynced)
    (hheld : g'.appenderHeld = g.appenderHeld) (hold : ∀ ops w, old ≠ .writing ops w)
    (hnew : ∀ ops w, phase ≠ .writing ops w) (hreaches : ∀ σ, ¬ Reaches σ old) : g'.Audited :=
  h.move hphase phase hthreads (fun f => Nat.le_of_eq (by rw [hfiles])) hcount
    (fun hg' => .inr ⟨hheld ▸ hg', hold⟩) (fun ops w heq => absurd heq (hold ops w))
    (fun ops w heq => absurd heq (hnew ops w)) (fun σ _ hr => absurd hr (hreaches σ))

/-- A sync sets the counter to zero. What lies in sealed segments is on disk, and the rest is
in the segment it is going to fsync. -/
theorem Audited.reset (h : g.Audited) (hb : g.Backed) {target : WriteMark}
    (hphase : (g.threads t).phase = .chosen target)
    (hcurrent : target.base = g.partition.active.baseOffset) :
    (setPhase { g with partition := { g.partition with unsynced := 0 } } t
      (.syncing .log target)).Audited := by
  refine ⟨fun σ hσ => ?_, @ops_update _ _ t (.syncing .log target) h.ops nofun
    (fun u hu => setPhase_other _ _ hu)
    (congrArg Thread.phase (setPhase_self _ t _)), fun hheld => ?_⟩
  rotate_left
  · obtain ⟨u, ops, w, hu⟩ := h.owner hheld
    have hne : u ≠ t := by
      rintro rfl
      rw [hphase] at hu
      cases hu
    exact ⟨u, ops, w, by rw [setPhase_other _ _ hne]; exact hu⟩
  have hσ : g.Wrote σ := by
    obtain ⟨u, hu⟩ := hσ
    exact ⟨u, (wrote_update t u _) ▸ hu⟩
  have hok := hb.spans σ hσ
  rcases Nat.lt_or_eq_of_le hok.base with hlt | heq
  · exact .covered (hok.sealedCovered hlt)
  · refine .syncing (t := t) ?_
    rw [setPhase_self]
    exact heq.trans hcurrent.symm

theorem perform_threads (hlog : ∀ bytes, op ≠ .writeLog bytes)
    (hindex : ∀ bytes, op ≠ .writeIndex bytes) : (g.perform t op).threads = g.threads := by
  cases op with
  | writeLog bytes => exact absurd rfl (hlog bytes)
  | writeIndex bytes => exact absurd rfl (hindex bytes)
  | _ => rfl

theorem unsynced_perform (g : Group) (t : Nat) (op : WriterOp) :
    g.partition.unsynced ≤ (g.perform t op).partition.unsynced := by
  cases op with
  | addUnsynced count => exact Nat.le_add_right _ _
  | _ => exact Nat.le_refl _

/-- A step under the appender lock. -/
theorem Audited.perform (h : g.Audited) {w : Bool}
    (hphase : (g.threads t).phase = .writing (op :: ops) w) :
    ((g.perform t op).setPhase t (.writing ops w)).Audited := by
  have htallied := h.ops t _ w hphase
  have hself : ((g.perform t op).setPhase t (.writing ops w)).threads t =
      ⟨.writing ops w, ((g.perform t op).threads t).wrote⟩ := setPhase_self _ t _
  have hother (u : Nat) (hu : u ≠ t) :
      ((g.perform t op).setPhase t (.writing ops w)).threads u = g.threads u := by
    rw [setPhase_other _ _ hu, perform_other _ _ hu]
  refine ⟨fun σ hσ => ?_, ops_update h.ops (fun ops' w' heq => ?_) hother
    (congrArg Thread.phase hself), fun _ => ⟨t, ops, w, congrArg Thread.phase hself⟩⟩
  · by_cases hun : Uncounted ops
    · exact .writing (t := t) (congrArg Thread.phase hself) hun
    · -- nothing is written here, and if the records were to be counted, they are now
      have hlog (bytes : Bytes) (heq : op = .writeLog bytes) : False := by
        subst heq
        exact hun htallied.1
      have hindex (bytes : Bytes) (heq : op = .writeIndex bytes) : False := by
        subst heq
        exact hun htallied.1
      have hwrote : g.Wrote σ := by
        obtain ⟨u, hu⟩ := hσ
        have hu := (wrote_update t u _) ▸ hu
        rw [perform_threads hlog hindex] at hu
        exact ⟨u, hu⟩
      cases h.spans σ hwrote with
      | covered hc => exact .covered ((g.advances_perform t op).mono hc)
      | counted hpos => exact .counted (Nat.lt_of_lt_of_le hpos (unsynced_perform g t op))
      | @writing u ops' w' hphase' hun' =>
        by_cases hu : u = t
        · subst hu
          rw [hphase] at hphase'
          cases hphase'
          obtain ⟨count, hpos, hmem⟩ := hun'
          rcases List.mem_cons.mp hmem with rfl | hmem
          · exact .counted (Nat.lt_of_lt_of_le hpos (Nat.le_add_left _ _))
          · exact absurd ⟨count, hpos, hmem⟩ hun
        · exact .writing (hother u hu ▸ hphase') hun'
      | @syncing u hr =>
        have hu : u ≠ t := by
          intro hu
          rw [hu, hphase] at hr
          exact hr
        exact .syncing (hother u hu ▸ hr)
  · cases heq
    exact htallied.tail

theorem covered_of_cover (g : Group) {file : FileId} {begun : Nat} {σ : Span}
    (hfile : σ.file = file) (hstop : σ.stop ≤ begun) : (g.cover file begun).Covered σ := by
  rw [Covered, hfile]
  exact Nat.le_trans hstop (g.begun_le_cover file begun)

theorem Audited.run (h : g.Audited) (hb : g.Backed) (hcurrent : g.ResetsCurrent (.run t))
    (hs : g.run t = some g') : g'.Audited := by
  have hran := ran hs
  generalize hphase : (g.threads t).phase = phase at hran
  cases hran with
  | acquire _ hops =>
    refine h.move hphase _ rfl (fun _ => Nat.le_refl _) rfl (fun _ => .inl ⟨_, _, rfl⟩) nofun
      (fun ops' w heq => ?_) nofun
    cases heq
    exact tallied_lockedOps hops
  | release =>
    refine h.move hphase _ rfl (fun _ => Nat.le_refl _) rfl nofun (fun ops' w' heq => ?_) nofun
      nofun
    cases heq
    exact fun hun => absurd hun.choose_spec.2 List.not_mem_nil
  | perform => exact h.perform hphase
  | @reset m => exact h.reset hb hphase (hcurrent t m rfl hphase)
  | @begin kind m =>
    refine h.move hphase _ rfl (fun _ => Nat.le_refl _) rfl (fun hheld => .inr ⟨hheld, nofun⟩)
      nofun nofun fun σ hσ hr => .inl ?_
    -- what is in the file now is what the fsync covers
    have hlen := (hb.spans σ hσ).len
    cases kind with
    | log =>
      have hbase : σ.file.base = m.base := hr
      refine ⟨hbase, fun hkind => ?_⟩
      have hfile : σ.file = ⟨m.base, .log⟩ := by rw [← hkind, ← hbase]
      exact hfile ▸ hlen
    | index =>
      have hfile : σ.file = ⟨m.base, .index⟩ := hr
      exact ⟨hfile, hfile ▸ hlen⟩
  | @coverLog begun m =>
    refine h.move hphase _ rfl (g.covered_cover _ _) rfl (fun hheld => .inr ⟨hheld, nofun⟩) nofun
      nofun fun σ _ ⟨hbase, hstop⟩ => ?_
    cases hkind : σ.file.kind with
    | index => exact .inl (show σ.file = _ by rw [← hbase, ← hkind])
    | log => exact .inr (g.covered_of_cover (by rw [← hbase, ← hkind]) (hstop hkind))
  | coverIndex =>
    exact h.move hphase _ rfl (g.covered_cover _ _) rfl (fun hheld => .inr ⟨hheld, nofun⟩) nofun
      nofun fun σ _ hr => .inr (g.covered_of_cover hr.1 hr.2)
  | _ => exact h.pass hphase _ rfl rfl rfl rfl nofun nofun nofun

theorem Audited.step (h : g.Audited) (hb : g.Backed) {e : FlushEvent}
    (hcurrent : g.ResetsCurrent e) (hs : g.flushStep e = some g') : g'.Audited := by
  cases e with
  | call t c =>
    simp only [flushStep, Group.call] at hs
    split at hs
    · rename_i hidle
      cases c with
      | append records now =>
        cases hs
        exact h.pass hidle _ rfl rfl rfl rfl (by simp) (by split <;> simp) fun _ => id
      | syncAll =>
        cases hs
        exact h.pass hidle _ rfl rfl rfl rfl (by simp) (by simp) fun _ => id
      | syncPending =>
        cases hs
        exact h.pass hidle _ rfl rfl rfl rfl (by simp) (by split <;> simp) fun _ => id
    · cases hs
  | run t => exact h.run hb hcurrent hs
  | defer t =>
    simp only [flushStep] at hs
    split at hs
    · rename_i hwritten
      cases hs
      exact h.pass hwritten _ rfl rfl rfl rfl (by simp) (by simp) fun _ => id
    · cases hs

/-- Every sync finds a write, and resets the counter only for the active segment. -/
def Tidy (g : Group) (e : FlushEvent) : Prop := g.FindsWrite e ∧ g.ResetsCurrent e

theorem audited_of_flushRun {g₀ : Group} (hrun : FlushRun Tidy g₀ g) (h : g₀.Audited)
    (hb : g₀.Backed) : g.Audited ∧ g.Backed := by
  exact hrun.keeps (P := fun g => g.Audited ∧ g.Backed) ⟨h, hb⟩ fun ⟨h, hb⟩ htidy hs =>
    ⟨h.step hb htidy.2 hs, hb.step htidy.1 hs⟩

theorem audited_opened (p : Partition) (len : FileId → Nat) : (opened p len).Audited :=
  ⟨fun _ ⟨_, hσ⟩ => absurd hσ List.not_mem_nil, fun _ _ _ hno => (nomatch hno), nofun⟩

/-- No append is writing, as is the case once all have returned. -/
def NoneWrites (g : Group) : Prop := ∀ t ops w, (g.threads t).phase ≠ .writing ops w

/-- No sync is between its reset of the counter and the end of its fsyncs. -/
def NoneSyncs (g : Group) : Prop :=
  ∀ t kind m, (g.threads t).phase ≠ .syncing kind m ∧
    ∀ begun, (g.threads t).phase ≠ .flushing kind begun m

theorem NoneSyncs.not_reaches (h : g.NoneSyncs) (t : Nat) (σ : Span) :
    ¬ Reaches σ (g.threads t).phase := by
  intro hr
  cases hphase : (g.threads t).phase with
  | syncing kind m => exact (h t kind m).1 hphase
  | flushing kind begun m => exact (h t kind m).2 begun hphase
  | _ =>
    rw [hphase] at hr
    exact hr

/-- When no append is writing, every write has its mark. -/
theorem Audited.marked (h : g.Audited) (hb : g.Backed) (hnone : g.NoneWrites) {σ : Span}
    (hσ : g.Wrote σ) : σ.seq ≤ g.partition.writeSeq := by
  have hfree : g.appenderHeld = false := by
    rw [← Bool.not_eq_true]
    intro hheld
    obtain ⟨t, ops, w, hphase⟩ := h.owner hheld
    exact hnone t ops w hphase
  exact (hb.free hfree).2 σ hσ

/-- `sync_pending` begins. It returns at once only if everything is on disk. -/
theorem Audited.syncPending (h : g.Audited) (hb : g.Backed) (hnone : g.NoneWrites)
    (hsyncs : g.NoneSyncs) (hs : g.flushStep (.call t .syncPending) = some g') :
    g'.Serves g.Wrote (g'.threads t).phase := by
  simp only [flushStep, Group.call] at hs
  split at hs
  · cases hs
    rw [setPhase_self]
    split
    · rename_i hzero
      intro σ hσ
      cases h.spans σ hσ with
      | covered hc => exact hc
      | counted hpos => exact absurd hzero (Nat.ne_of_gt hpos)
      | writing hphase _ => exact absurd hphase (hnone _ _ _)
      | syncing hr => exact absurd hr (hsyncs.not_reaches _ σ)
    · exact fun σ hσ => h.marked hb hnone hσ
  · cases hs

end

end Group

namespace Group

instance (g : Group) (e : FlushEvent) : Decidable (g.FindsWrite e) :=
  match e with
  | .run t =>
    decidable_of_iff ((g.threads t).phase = .loading → g.partition.latest.seq ≠ 0)
      ⟨fun h u hu => by cases hu; exact h, fun h => h t rfl⟩
  | .call _ _ => .isTrue nofun
  | .defer _ => .isTrue nofun

instance (g : Group) (e : FlushEvent) : Decidable (g.ResetsCurrent e) :=
  match e with
  | .run t =>
    match hphase : (g.threads t).phase with
    | .chosen target =>
      decidable_of_iff (target.base = g.partition.active.baseOffset)
        ⟨fun h u m hu hm => by
          cases hu
          rw [hphase] at hm
          cases hm
          exact h, fun h => h t target rfl hphase⟩
    | .idle | .entered _ _ | .writing _ _ | .written _ _ | .loading | .waiting _ | .holding _
    | .syncing _ _ | .flushing _ _ _ | .done _ => .isTrue fun u m hu hm => by
        cases hu
        rw [hphase] at hm
        cases hm
  | .call _ _ => .isTrue nofun
  | .defer _ => .isTrue nofun

instance (g : Group) (e : FlushEvent) : Decidable (g.Tidy e) :=
  inferInstanceAs (Decidable (_ ∧ _))

section
variable (ok : Group → FlushEvent → Prop) [∀ g e, Decidable (ok g e)]

abbrev flushReplay : Group → List FlushEvent → Option Group := Runs.replay flushStep ok

variable {ok} {g g' : Group} {events : List FlushEvent}

/-- All calls of a replay have returned. -/
theorem returned_of_replay {k : Nat} (hg : ∀ t, (g.threads t).phase = .idle)
    (hk : ∀ e ∈ events, e.thread < k) (h : g.flushReplay ok events = some g')
    (hdone : ∀ t, t < k → (g'.threads t).phase = .done true) : g'.NoneWrites ∧ g'.NoneSyncs := by
  have hphase (t : Nat) : (g'.threads t).phase = .done true ∨ (g'.threads t).phase = .idle := by
    rcases Nat.lt_or_ge t k with ht | ht
    · exact .inl (hdone t ht)
    · right
      refine Runs.replay_keeps (P := fun g => (g.threads t).phase = .idle) h (hg t)
        fun e he _ _ hidle _ hs => ?_
      rwa [flushStep_other hs (Nat.ne_of_gt (Nat.lt_of_lt_of_le (hk e he) ht))]
  refine ⟨fun t ops w hno => ?_, fun t kind m => ⟨fun hno => ?_, fun begun hno => ?_⟩⟩ <;>
    rcases hphase t with ht | ht <;> (rw [ht] at hno; cases hno)

end

end Group

def runs (t n : Nat) : List FlushEvent := List.replicate n (.run t)

/-- A new partition with a segment for each record, which fsyncs every ten. -/
def everyTen : Group := .opened (.ofSegments [] (.openEmpty 0) 0 false 1 10) fun _ => 0

/-- Two appends, of which the second rolls and is deferred. -/
def twoAppends : List FlushEvent :=
  .call 0 (.append [oneByte 1] 0) :: runs 0 12 ++
    .call 1 (.append [oneByte 2] 0) :: runs 1 14 ++ [.defer 1]

theorem twoAppends_run : (everyTen.flushReplay Group.Tidy twoAppends).isSome := by
  decide +kernel

def twoAppended : Group := (everyTen.flushReplay Group.Tidy twoAppends).get twoAppends_run

theorem pendingFlush_begins : (twoAppended.flushStep (.call 2 .syncPending)).isSome := by
  decide +kernel

def pendingFlush : Group :=
  (twoAppended.flushStep (.call 2 .syncPending)).get pendingFlush_begins

theorem pendingFlush_runs : (pendingFlush.flushReplay Group.FindsWrite (runs 2 8)).isSome := by
  decide +kernel

/-- A `sync_all` has chosen the files of the first segment when an append starts the second.
It then resets the counter and fsyncs the first segment. -/
def resetBehindRoll : List FlushEvent :=
  .call 0 (.append [oneByte 1] 0) :: runs 0 12 ++ .call 1 .syncAll :: runs 1 3 ++
    .call 2 (.append [oneByte 2] 0) :: runs 2 15 ++ runs 1 5

theorem resetBehindRoll_runs :
    (everyTen.flushReplay Group.FindsWrite resetBehindRoll).isSome := by decide +kernel

def resetBehind : Group :=
  (everyTen.flushReplay Group.FindsWrite resetBehindRoll).get resetBehindRoll_runs

theorem skippedFlush_begins : (resetBehind.flushStep (.call 3 .syncPending)).isSome := by
  decide +kernel

end EventStream.Storage
