import EventStream.Storage.GroupCommit

/-! Group commit is sound where every `sync_all` finds a write.

Sequence numbers run across segments while an fsync acts on one file. What ties them together
is that the bytes of a lower sequence number never lie in a later segment than those of a
higher one, and that a segment is fsynced before the next one is started. So an fsync of the
files of a mark covers every write up to the mark's number: what lies in earlier segments was
covered before (`Group.SpanOk.sealedCovered`). A mark that `sync_all` invents for a partition
without writes breaks this order. -/
namespace EventStream.Storage

/-! ### The order of the steps under the lock -/

/-- What the steps taken so far have left undone. -/
structure Stage where
  base : Nat
  /-- Something was written that no mark covers yet. -/
  dirty : Bool
  logSynced : Bool
  indexSynced : Bool
  deriving DecidableEq, Repr

def Stage.next (s : Stage) : WriterOp → Option Stage
  | .writeLog _ => some { s with dirty := true, logSynced := false }
  | .writeIndex _ => some { s with dirty := true, indexSynced := false }
  | .mark => some { s with dirty := false }
  | .syncLog => if s.dirty then none else some { s with logSynced := true }
  | .syncIndex => if s.dirty then none else some { s with indexSynced := true }
  | .newSegment base =>
    if s.base < base ∧ s.dirty = false ∧ s.logSynced ∧ s.indexSynced then
      some ⟨base, false, false, false⟩
    else none
  | .noteWritten _ | .publishSize | .publishIndex _ | .observe _ | .publishNext _
  | .addUnsynced _ => some s

/-- From this stage the steps can be taken, and they leave nothing unmarked. -/
def Stage.Orderly (s : Stage) (ops : List WriterOp) : Prop :=
  ∃ last, ops.foldlM Stage.next s = some last ∧ last.dirty = false

theorem Stage.Orderly.cons {s : Stage} {op : WriterOp} {ops : List WriterOp}
    (h : s.Orderly (op :: ops)) : ∃ s', s.next op = some s' ∧ s'.Orderly ops := by
  obtain ⟨last, hlast, hclean⟩ := h
  rw [List.foldlM_cons] at hlast
  obtain ⟨s', hnext, hlast⟩ := Option.bind_eq_some_iff.mp hlast
  exact ⟨s', hnext, last, hlast, hclean⟩

/-- A commit leaves nothing unmarked, whatever was fsynced before. -/
theorem Stage.foldlM_commitOps (s : Stage) (hs : s.dirty = false) (b : PendingBatch) :
    ∃ s', (commitOps b).foldlM Stage.next s = some s' ∧ s'.base = s.base ∧ s'.dirty = false := by
  unfold commitOps
  split
  · exact ⟨s, rfl, rfl, hs⟩
  · exact ⟨_, rfl, rfl, rfl⟩

theorem Stage.Orderly.commitOps (s : Stage) (hs : s.dirty = false) (b : PendingBatch) :
    s.Orderly (commitOps b) := by
  obtain ⟨s', hfold, _, hclean⟩ := s.foldlM_commitOps hs b
  exact ⟨s', hfold, hclean⟩

theorem Stage.Orderly.append {s s' : Stage} {xs ys : List WriterOp}
    (hx : xs.foldlM Stage.next s = some s') (hy : s'.Orderly ys) : s.Orderly (xs ++ ys) := by
  obtain ⟨last, hlast, hclean⟩ := hy
  refine ⟨last, ?_, hclean⟩
  rw [List.foldlM_append, hx]
  exact hlast

/-- The partition is in order wherever a failing fsync may leave the lock, and at the end. -/
def Settles : Partition → List WriterOp → Prop
  | p, [] => p.Stacked
  | p, op :: ops => (op = .syncLog ∨ op = .syncIndex → p.Stacked) ∧ Settles (op.apply p) ops

variable {p : Partition} {ops : List WriterOp} {st : Appending} {offset : Nat} {r : AppendRecord}
    {now : Int64} {s : Stage}

theorem settles_append {xs ys : List WriterOp} (hx : ∀ op ∈ xs, op ≠ .syncLog ∧ op ≠ .syncIndex)
    (hy : Settles (xs.foldl WriterOp.apply p) ys) : Settles p (xs ++ ys) := by
  induction xs generalizing p with
  | nil => exact hy
  | cons op xs ih =>
    have hop := hx op List.mem_cons_self
    refine ⟨fun h => ?_, ih (fun o ho => hx o (List.mem_cons_of_mem _ ho)) hy⟩
    rcases h with h | h
    · exact absurd h hop.1
    · exact absurd h hop.2

/-- The counters that group commit changes do not matter to the owner of the lock. -/
theorem WriterOp.apply_counters (op : WriterOp) (p : Partition) (u s : Nat) :
    ∃ u', op.apply { p with unsynced := u, synced := s } =
      { op.apply p with unsynced := u', synced := s } := by
  cases op <;> exact ⟨_, rfl⟩

theorem Partition.Stacked.counters (h : p.Stacked) (u s : Nat) :
    ({ p with unsynced := u, synced := s } : Partition).Stacked := ⟨h.ordered, h.next, h.written⟩

theorem Settles.counters (h : Settles p ops) (u s : Nat) :
    Settles { p with unsynced := u, synced := s } ops := by
  induction ops generalizing p u with
  | nil => exact Partition.Stacked.counters h u s
  | cons op ops ih =>
    obtain ⟨u', hu⟩ := op.apply_counters p u s
    refine ⟨fun hop => (h.1 hop).counters u s, ?_⟩
    rw [hu]
    exact ih h.2 u'

theorem commitOps_no_sync (b : PendingBatch) :
    ∀ op ∈ commitOps b, op ≠ .syncLog ∧ op ≠ .syncIndex := by
  unfold commitOps
  split
  · exact fun op hop => absurd hop List.not_mem_nil
  · intro op hop
    simp only [List.mem_cons, List.not_mem_nil, or_false] at hop
    rcases hop with rfl | rfl | rfl | rfl | rfl | rfl | rfl | rfl | rfl <;>
      exact ⟨nofun, nofun⟩

namespace Appending.Stacked

/-- A segment that is sealed holds something, so the new base lies above its own. -/
theorem base_lt (h : st.Stacked) (ho : st.next ≤ offset)
    (hpending : 0 < st.partition.appender.sizeBytes + st.batch.log.length) :
    st.partition.active.baseOffset < offset := by
  rw [← (st.partition.committed h.proper).appenderSize] at hpending
  have hbase : st.committed.active.baseOffset < offset :=
    Nat.lt_of_lt_of_le (h.stacked.written hpending) (h.next ▸ ho)
  rwa [Appending.committed, Partition.commitBatch_base] at hbase

theorem place_le (hr : r.place st.next = some offset) : st.next ≤ offset := by
  unfold AppendRecord.place at hr
  split at hr
  · split at hr
    · exact nomatch hr
    · rename_i hlow
      cases hr
      exact Nat.le_of_not_lt hlow
  · cases hr
    exact Nat.le_refl _

/-- The steps of a round lead from a clean stage to a clean stage, and keep order. -/
theorem roundOps {st' : Appending} (h : st.Stacked)
    (hs : Appending.append now st r = some st') (hbase : s.base = st.partition.active.baseOffset)
    (hclean : s.dirty = false) (hops : Settles st'.partition ops) :
    (∃ s', (st.roundOps r).foldlM Stage.next s = some s' ∧
      s'.base = st'.partition.active.baseOffset ∧ s'.dirty = false) ∧
      Settles st.partition (st.roundOps r ++ ops) := by
  rw [← Appending.foldl_roundOps hs] at hops ⊢
  unfold Appending.roundOps at hops ⊢
  split at hops
  · exact ⟨⟨s, rfl, hbase, hclean⟩, hops⟩
  · rename_i offset hplace
    have ho : st.next ≤ offset := Appending.Stacked.place_le hplace
    unfold Appending.roomOps at hops ⊢
    dsimp only at hops ⊢
    split at hops
    · rename_i hroll
      obtain ⟨s₁, hcommit, hbase₁, hclean₁⟩ := s.foldlM_commitOps hclean st.batch
      have hlt : s₁.base < offset := by
        rw [hbase₁, hbase]
        exact h.base_lt ho hroll.1
      rw [if_pos hroll]
      refine ⟨⟨⟨offset, false, false, false⟩, ?_, ?_, rfl⟩, ?_⟩
      · rw [List.foldlM_append, hcommit]
        show (rollOps offset).foldlM Stage.next s₁ = _
        simp [rollOps, Stage.next, hlt, hclean₁]
      · rw [List.foldl_append]
        rfl
      · rw [List.append_assoc]
        refine settles_append (commitOps_no_sync _) ?_
        rw [List.foldl_append] at hops
        rw [foldl_commitOps] at hops ⊢
        exact ⟨fun _ => h.stacked, fun _ => h.stacked, fun hno => (nomatch hno), hops⟩
    · rename_i hroll
      rw [if_neg hroll]
      exact ⟨⟨s, rfl, hbase, hclean⟩, hops⟩

theorem lockedOps {records : List AppendRecord} {last : Appending}
    (h : st.Stacked) (hs : lockedOps now st records = some (ops, last))
    (hbase : s.base = st.partition.active.baseOffset) (hclean : s.dirty = false) :
    s.Orderly ops ∧ Settles st.partition ops := by
  induction records generalizing st ops s with
  | nil =>
    cases hs
    refine ⟨.commitOps s hclean _, ?_⟩
    rw [← List.append_nil (commitOps _)]
    refine settles_append (commitOps_no_sync _) ?_
    rw [foldl_commitOps]
    exact h.stacked
  | cons r records ih =>
    obtain ⟨st', hst, hs⟩ := Option.bind_eq_some_iff.mp hs
    obtain ⟨⟨ops', last'⟩, hops, hs⟩ := Option.bind_eq_some_iff.mp hs
    cases hs
    have h' := (h.append hst).1
    -- The stage is threaded through the round before the rest is looked at.
    have hsettled := (ih h' hops (s := ⟨st'.partition.active.baseOffset, false, false, false⟩)
      rfl rfl).2
    obtain ⟨⟨s', hround, hbase', hclean'⟩, hsettles⟩ := h.roundOps hst hbase hclean hsettled
    exact ⟨.append hround (ih h' hops hbase' hclean').1, hsettles⟩

end Appending.Stacked

/-! ### The invariant -/

namespace Group

/-- Some append wrote these bytes. -/
def Wrote (g : Group) (σ : Span) : Prop := ∃ t, σ ∈ (g.threads t).wrote

/-- What holds of the bytes that were written. -/
structure SpanOk (g : Group) (σ : Span) : Prop where
  len : σ.stop ≤ (g.files σ.file).len
  base : σ.file.base ≤ g.partition.active.baseOffset
  seq : σ.seq ≤ g.partition.writeSeq + 1
  sealedCovered : σ.file.base < g.partition.active.baseOffset → g.Covered σ
  syncedCovered : σ.seq ≤ g.partition.synced → g.Covered σ

/-- A mark that someone stored: what has a lower number lies in no later segment. -/
structure MarkOk (g : Group) (m : WriteMark) : Prop where
  seq : m.seq ≤ g.partition.writeSeq
  base : m.base ≤ g.partition.active.baseOffset
  order : ∀ σ, g.Wrote σ → σ.seq ≤ m.seq → σ.file.base ≤ m.base

/-- The fsync of this file began behind all writes up to the mark. -/
def Captured (g : Group) (m : WriteMark) (kind : FileKind) (begun : Nat) : Prop :=
  ∀ σ, g.Wrote σ → σ.seq ≤ m.seq → σ.file = ⟨m.base, kind⟩ → σ.stop ≤ begun

def Secured (g : Group) (m : WriteMark) (kind : FileKind) : Prop :=
  ∀ σ, g.Wrote σ → σ.seq ≤ m.seq → σ.file = ⟨m.base, kind⟩ → g.Covered σ

/-- A call that waits for a mark, with the mark behind all it wrote. -/
def Held (g : Group) (wrote : List Span) (m : WriteMark) : Prop :=
  g.MarkOk m ∧ ∀ σ ∈ wrote, σ.seq ≤ m.seq

/-- What a call may rely on where it stands. Under a strict policy a call that has returned `Ok`
waited for its bytes. -/
def PhaseOk (strict : Prop) (g : Group) (wrote : List Span) : Phase → Prop
  | .idle | .entered _ _ | .loading => wrote = []
  | .writing ops w => w = false → ops = [] ∧ wrote = []
  | .written m w => g.Held wrote m ∧ (w = false → wrote = [])
  | .waiting m | .holding m | .chosen m | .syncing .log m => g.Held wrote m
  | .flushing .log n m => g.Held wrote m ∧ g.Captured m .log n
  | .syncing .index m => g.Held wrote m ∧ g.Secured m .log
  | .flushing .index n m => g.Held wrote m ∧ g.Secured m .log ∧ g.Captured m .index n
  | .done ok => strict → ok = true → ∀ σ ∈ wrote, g.Covered σ

/-- The stage describes what was written. -/
structure StageOk (g : Group) (s : Stage) : Prop where
  base : s.base = g.partition.active.baseOffset
  clean : s.dirty = false → ∀ σ, g.Wrote σ → σ.seq ≤ g.partition.writeSeq
  log : s.logSynced → ∀ σ, g.Wrote σ → σ.file = ⟨s.base, .log⟩ → g.Covered σ
  index : s.indexSynced → ∀ σ, g.Wrote σ → σ.file = ⟨s.base, .index⟩ → g.Covered σ

/-- The owner of the appender lock. -/
structure WriterOk (g : Group) (ops : List WriterOp) : Prop where
  staged : ∃ s, g.StageOk s ∧ s.Orderly ops
  settles : Settles g.partition ops

/-- The invariant. The strict policy is that of one record, which makes every append wait. -/
structure Sound (strict : Prop) (g : Group) : Prop where
  flush : strict → g.partition.flushEveryRecords ≤ 1
  appenderBase : g.partition.appender.baseOffset = g.partition.active.baseOffset
  latestSeq : g.partition.latest.seq = g.partition.writeSeq
  latest : g.MarkOk g.partition.latest
  synced : g.partition.synced ≤ g.partition.writeSeq
  spans : ∀ σ, g.Wrote σ → g.SpanOk σ
  phases : ∀ t, g.PhaseOk strict (g.threads t).wrote (g.threads t).phase
  free : g.appenderHeld = false →
    g.partition.Stacked ∧ ∀ σ, g.Wrote σ → σ.seq ≤ g.partition.writeSeq
  writer : ∀ t ops w, (g.threads t).phase = .writing ops w →
    g.appenderHeld = true ∧ g.WriterOk ops
  unique : ∀ t u ops ops' w w', (g.threads t).phase = .writing ops w →
    (g.threads u).phase = .writing ops' w' → t = u

/-- What every step leaves in place. -/
structure Grows (g g' : Group) : Prop where
  seq : g.partition.writeSeq ≤ g'.partition.writeSeq
  base : g.partition.active.baseOffset ≤ g'.partition.active.baseOffset
  covered : ∀ f, (g.files f).covered ≤ (g'.files f).covered
  wrote : ∀ σ, g'.Wrote σ → g.Wrote σ ∨ g.partition.writeSeq < σ.seq

section
variable {g g' : Group} {σ : Span} {m : WriteMark} {kind : FileKind}

theorem Grows.mono (h : g.Grows g') (hc : g.Covered σ) : g'.Covered σ :=
  Nat.le_trans hc (h.covered _)

/-- Bytes written up to an old mark were there before. -/
theorem Grows.old (h : g.Grows g') (hm : g.MarkOk m) (hσ : g'.Wrote σ) (hseq : σ.seq ≤ m.seq) :
    g.Wrote σ := by
  rcases h.wrote σ hσ with hσ | hnew
  · exact hσ
  · exact absurd (Nat.le_trans hseq hm.seq) (Nat.not_le_of_lt hnew)

theorem MarkOk.grows (hm : g.MarkOk m) (h : g.Grows g') : g'.MarkOk m where
  seq := Nat.le_trans hm.seq h.seq
  base := Nat.le_trans hm.base h.base
  order := fun σ hσ hseq => hm.order σ (h.old hm hσ hseq) hseq

theorem Held.grows {wrote : List Span} (hm : g.Held wrote m) (h : g.Grows g') :
    g'.Held wrote m := ⟨hm.1.grows h, hm.2⟩

theorem Captured.grows {n : Nat} (hm : g.MarkOk m) (hc : g.Captured m kind n) (h : g.Grows g') :
    g'.Captured m kind n :=
  fun σ hσ hseq => hc σ (h.old hm hσ hseq) hseq

theorem Secured.grows (hm : g.MarkOk m) (hc : g.Secured m kind) (h : g.Grows g') :
    g'.Secured m kind :=
  fun σ hσ hseq hf => h.mono (hc σ (h.old hm hσ hseq) hseq hf)

theorem PhaseOk.grows {strict : Prop} {wrote : List Span} {phase : Phase}
    (hp : g.PhaseOk strict wrote phase) (h : g.Grows g') : g'.PhaseOk strict wrote phase := by
  cases phase with
  | idle | entered | loading | writing => exact hp
  | written m w => exact ⟨hp.1.grows h, hp.2⟩
  | waiting | holding | chosen => exact Held.grows hp h
  | syncing kind m =>
    cases kind with
    | log => exact Held.grows hp h
    | index => exact ⟨hp.1.grows h, hp.2.grows hp.1.1 h⟩
  | flushing kind n m =>
    cases kind with
    | log => exact ⟨hp.1.grows h, hp.2.grows hp.1.1 h⟩
    | index => exact ⟨hp.1.grows h, hp.2.1.grows hp.1.1 h, hp.2.2.grows hp.1.1 h⟩
  | done ok => exact fun hstrict hok σ hσ => h.mono (hp hstrict hok σ hσ)

end

/-! ### Steps that write nothing -/

/-- A step that moves one call and at most the counters and the covered lengths. -/
structure Quiet (g g' : Group) (t : Nat) (phase : Phase) : Prop where
  partition : ∃ u s, g'.partition = { g.partition with unsynced := u, synced := s }
  threads : g'.threads = Function.update g.threads t { g.threads t with phase }
  len : ∀ f, (g'.files f).len = (g.files f).len
  covered : ∀ f, (g.files f).covered ≤ (g'.files f).covered

section
variable {strict : Prop} {g g' : Group} {t n : Nat} {phase : Phase} {σ : Span} {m : WriteMark}

theorem wrote_update {threads : Nat → Thread} (t u : Nat) (phase : Phase) :
    (Function.update threads t { threads t with phase } u).wrote = (threads u).wrote := by
  by_cases hu : u = t
  · rw [hu, Function.update_self]
  · rw [Function.update_of_ne hu]

section
variable (hq : g.Quiet g' t phase)
include hq

theorem Quiet.wrote : g'.Wrote σ ↔ g.Wrote σ := by
  unfold Wrote
  simp only [hq.threads, wrote_update]

theorem Quiet.grows : g.Grows g' := by
  obtain ⟨u, s, hp⟩ := hq.partition
  exact ⟨by rw [hp], by rw [hp], hq.covered, fun σ hσ => .inl (hq.wrote.mp hσ)⟩

theorem Quiet.writing (hnew : ∀ ops w, phase ≠ .writing ops w) {u : Nat} {ops : List WriterOp}
    {w : Bool} (hu : (g'.threads u).phase = .writing ops w) :
    (g.threads u).phase = .writing ops w := by
  rw [hq.threads] at hu
  by_cases hut : u = t
  · rw [hut, Function.update_self] at hu
    exact absurd hu (hnew ops w)
  · rwa [Function.update_of_ne hut] at hu

end

theorem WriterOk.quiet (h : g.WriterOk ops) (hq : g.Quiet g' t phase) : g'.WriterOk ops := by
  obtain ⟨s, hs, horder⟩ := h.staged
  obtain ⟨u, n, hp⟩ := hq.partition
  refine ⟨⟨s, ?_, horder⟩, hp ▸ h.settles.counters u n⟩
  exact
    { base := by rw [hp]; exact hs.base
      clean := fun hd σ hσ => by rw [hp]; exact hs.clean hd σ (hq.wrote.mp hσ)
      log := fun hl σ hσ hf => hq.grows.mono (hs.log hl σ (hq.wrote.mp hσ) hf)
      index := fun hi σ hσ hf => hq.grows.mono (hs.index hi σ (hq.wrote.mp hσ) hf) }

/-- What is left to show of a step that writes nothing: what the call may rely on where it stands
now, what the number in `synced` says, and who owns the lock. -/
theorem Sound.frame (h : g.Sound strict) (hq : g.Quiet g' t phase)
    (hphase : g'.PhaseOk strict (g.threads t).wrote phase)
    (hsynced : g'.partition.synced ≤ g.partition.writeSeq)
    (hcovered : ∀ σ, g.Wrote σ → σ.seq ≤ g'.partition.synced → g'.Covered σ)
    (hfree : g'.appenderHeld = false →
      g.partition.Stacked ∧ ∀ σ, g.Wrote σ → σ.seq ≤ g.partition.writeSeq)
    (hwriter : ∀ u ops w, (g'.threads u).phase = .writing ops w →
      g'.appenderHeld = true ∧ g.WriterOk ops)
    (hunique : ∀ u v ops ops' w w', (g'.threads u).phase = .writing ops w →
      (g'.threads v).phase = .writing ops' w' → u = v) : g'.Sound strict := by
  obtain ⟨u, s, hp⟩ := hq.partition
  have hgrows := hq.grows
  exact
    { flush := by rw [hp]; exact h.flush
      appenderBase := by rw [hp]; exact h.appenderBase
      latestSeq := by rw [hp]; exact h.latestSeq
      latest := by
        have hlatest := h.latest.grows hgrows
        rwa [← show g'.partition.latest = g.partition.latest by rw [hp]] at hlatest
      synced := by
        rw [show g'.partition.writeSeq = g.partition.writeSeq by rw [hp]]
        exact hsynced
      spans := fun σ hσ =>
        have hold := h.spans σ (hq.wrote.mp hσ)
        { len := by rw [hq.len]; exact hold.len
          base := by rw [hp]; exact hold.base
          seq := by rw [hp]; exact hold.seq
          sealedCovered := fun hlt => hgrows.mono (hold.sealedCovered (by rwa [hp] at hlt))
          syncedCovered := hcovered σ (hq.wrote.mp hσ) }
      phases := by
        intro v
        rw [hq.threads]
        by_cases hv : v = t
        · rw [hv, Function.update_self]
          exact hphase
        · rw [Function.update_of_ne hv]
          exact (h.phases v).grows hgrows
      free := by
        intro hf
        obtain ⟨hstacked, hseq⟩ := hfree hf
        rw [hp]
        exact ⟨hstacked.counters u s, fun σ hσ => hseq σ (hq.wrote.mp hσ)⟩
      writer := fun v ops w hv => (hwriter v ops w hv).imp_right fun hok => hok.quiet hq
      unique := hunique }

/-! ### Steps outside the appender lock -/

theorem Sound.quiet (h : g.Sound strict) (hq : g.Quiet g' t phase)
    (hheld : g'.appenderHeld = g.appenderHeld) (hnew : ∀ ops w, phase ≠ .writing ops w)
    (hphase : g'.PhaseOk strict (g.threads t).wrote phase)
    (hsynced : g'.partition.synced ≤ g.partition.writeSeq)
    (hcovered : ∀ σ, g.Wrote σ → σ.seq ≤ g'.partition.synced → g'.Covered σ) : g'.Sound strict :=
  h.frame hq hphase hsynced hcovered (fun hfree => h.free (hheld ▸ hfree))
    (fun v ops w hv => hheld ▸ h.writer v ops w (hq.writing hnew hv))
    fun v u ops ops' w w' hv hu =>
      h.unique v u ops ops' w w' (hq.writing hnew hv) (hq.writing hnew hu)

/-- A step that changes nothing but where one call stands. -/
theorem quiet_setPhase (g : Group) (t : Nat) (phase : Phase) (syncedHeld : Bool) (unsynced : Nat) :
    g.Quiet (setPhase { g with
      syncedHeld, partition := { g.partition with unsynced } } t phase) t phase :=
  ⟨⟨_, g.partition.synced, rfl⟩, rfl, fun _ => rfl, fun _ => Nat.le_refl _⟩

theorem Sound.move (h : g.Sound strict) {syncedHeld : Bool} {unsynced : Nat}
    (hnew : ∀ ops w, phase ≠ .writing ops w) (hphase : g.PhaseOk strict (g.threads t).wrote phase) :
    (setPhase { g with
      syncedHeld, partition := { g.partition with unsynced } } t phase).Sound strict :=
  have hq := g.quiet_setPhase t phase syncedHeld unsynced
  h.quiet hq rfl hnew (hphase.grows hq.grows) h.synced
    fun σ hσ hseq => hq.grows.mono ((h.spans σ hσ).syncedCovered hseq)

theorem covered_cover (g : Group) (file : FileId) (begun : Nat) (f : FileId) :
    (g.files f).covered ≤ ((g.cover file begun).files f).covered := by
  simp only [cover, Function.update_apply]
  split
  · rename_i hf
    rw [hf]
    exact Nat.le_max_left _ _
  · exact Nat.le_refl _

theorem len_cover (g : Group) (file : FileId) (begun : Nat) (f : FileId) :
    ((g.cover file begun).files f).len = (g.files f).len := by
  simp only [cover, Function.update_apply]
  split
  · rename_i hf
    rw [hf]
  · rfl

theorem begun_le_cover (g : Group) (file : FileId) (begun : Nat) :
    begun ≤ ((g.cover file begun).files file).covered := by
  simp [cover]

/-- An fsync of the log ends. -/
theorem Sound.coverLog (h : g.Sound strict) (hphase : (g.threads t).phase = .flushing .log n m) :
    ((g.cover ⟨m.base, .log⟩ n).setPhase t (.syncing .index m)).Sound strict := by
  have hp := h.phases t
  rw [hphase] at hp
  obtain ⟨hheld, hcaptured⟩ := hp
  have hq : g.Quiet ((g.cover ⟨m.base, .log⟩ n).setPhase t (.syncing .index m)) t
      (.syncing .index m) :=
    ⟨⟨g.partition.unsynced, g.partition.synced, rfl⟩, rfl, g.len_cover _ n, g.covered_cover _ n⟩
  refine h.quiet hq rfl nofun ⟨hheld.grows hq.grows, fun σ hσ hseq hf => ?_⟩ h.synced
    fun σ hσ hseq => hq.grows.mono ((h.spans σ hσ).syncedCovered hseq)
  have hstop := hcaptured σ (hq.wrote.mp hσ) hseq hf
  show σ.stop ≤ ((g.cover ⟨m.base, .log⟩ n).files σ.file).covered
  rw [hf]
  exact Nat.le_trans hstop (g.begun_le_cover _ n)

/-- Behind both fsyncs, everything up to the mark is covered: what is not in the files of the
mark lies in segments that were sealed before. -/
theorem Sound.coverIndex (h : g.Sound strict)
    (hphase : (g.threads t).phase = .flushing .index n m) :
    (setPhase { g.cover ⟨m.base, .index⟩ n with
      syncedHeld := false
      partition := { g.partition with synced := max g.partition.synced m.seq } } t
        (.done true)).Sound strict := by
  have hp := h.phases t
  rw [hphase] at hp
  obtain ⟨hheld, hsecured, hcaptured⟩ := hp
  have hq : g.Quiet (setPhase { g.cover ⟨m.base, .index⟩ n with
      syncedHeld := false
      partition := { g.partition with synced := max g.partition.synced m.seq } } t
        (.done true)) t (.done true) :=
    ⟨⟨g.partition.unsynced, max g.partition.synced m.seq, rfl⟩, rfl, g.len_cover _ n,
      g.covered_cover _ n⟩
  have hreached : ∀ σ, g.Wrote σ → σ.seq ≤ m.seq →
      Covered (setPhase { g.cover ⟨m.base, .index⟩ n with
        syncedHeld := false
        partition := { g.partition with synced := max g.partition.synced m.seq } } t
          (.done true)) σ := by
    intro σ hσ hseq
    rcases Nat.lt_or_eq_of_le (hheld.1.order σ hσ hseq) with hlt | heq
    · exact hq.grows.mono
        ((h.spans σ hσ).sealedCovered (Nat.lt_of_lt_of_le hlt hheld.1.base))
    · cases hkind : σ.file.kind with
      | log => exact hq.grows.mono (hsecured σ hσ hseq (by rw [← heq, ← hkind]))
      | index =>
        have hf : σ.file = ⟨m.base, .index⟩ := by rw [← heq, ← hkind]
        show σ.stop ≤ ((g.cover ⟨m.base, .index⟩ n).files σ.file).covered
        rw [hf]
        exact Nat.le_trans (hcaptured σ hσ hseq hf) (g.begun_le_cover _ n)
  refine h.quiet hq rfl nofun (fun _ _ σ hσ => hreached σ ⟨t, hσ⟩ (hheld.2 σ hσ))
    (Nat.max_le.mpr ⟨h.synced, hheld.1.seq⟩) fun σ hσ hseq => ?_
  rcases Nat.le_total g.partition.synced m.seq with hle | hle
  · exact hreached σ hσ (Nat.le_trans hseq (Nat.max_le.mpr ⟨hle, Nat.le_refl _⟩))
  · exact hq.grows.mono ((h.spans σ hσ).syncedCovered
      (Nat.le_trans hseq (Nat.max_le.mpr ⟨Nat.le_refl _, hle⟩)))

end

/-! ### Taking and leaving the appender lock -/

section
variable {strict : Prop} {g g' : Group} {t : Nat} {phase : Phase} {σ : Span}

/-- A step that takes or leaves the lock, and changes nothing that was written. -/
theorem Sound.handOver (h : g.Sound strict) (hpartition : g'.partition = g.partition)
    (hthreads : g'.threads = Function.update g.threads t { g.threads t with phase })
    (hlen : ∀ f, (g'.files f).len = (g.files f).len)
    (hcovered : ∀ f, (g'.files f).covered = (g.files f).covered)
    (hphase : g.PhaseOk strict (g.threads t).wrote phase) (hfree : g'.appenderHeld = false →
      g.partition.Stacked ∧ ∀ σ, g.Wrote σ → σ.seq ≤ g.partition.writeSeq)
    (hwriter : ∀ ops w, phase = .writing ops w → g'.appenderHeld = true ∧ g.WriterOk ops)
    (hothers : ∀ u, u ≠ t → ∀ ops w, (g.threads u).phase ≠ .writing ops w) : g'.Sound strict := by
  have hq : g.Quiet g' t phase :=
    ⟨⟨g.partition.unsynced, g.partition.synced, hpartition⟩, hthreads, hlen,
      fun f => Nat.le_of_eq (hcovered f).symm⟩
  -- Only the thread that moves can own the lock afterwards.
  have howner : ∀ u ops w, (g'.threads u).phase = .writing ops w →
      u = t ∧ phase = .writing ops w := by
    intro u ops w hu
    rw [hthreads] at hu
    by_cases hut : u = t
    · rw [hut, Function.update_self] at hu
      exact ⟨hut, hu⟩
    · rw [Function.update_of_ne hut] at hu
      exact absurd hu (hothers u hut ops w)
  exact h.frame hq (hphase.grows hq.grows) (hpartition ▸ h.synced)
    (fun σ hσ hseq => hq.grows.mono ((h.spans σ hσ).syncedCovered (hpartition ▸ hseq))) hfree
    (fun u ops w hu => hwriter ops w (howner u ops w hu).2)
    fun u v ops ops' w w' hu hv => (howner u ops w hu).1.trans (howner v ops' w' hv).1.symm

end

/-- Records that were all applied before leave nothing to write. -/
theorem lockedOps_fresh {records : List AppendRecord} {last : Appending}
    (h : lockedOps now st records = some (ops, last)) :
    st.fresh ≤ last.fresh ∧ (last.fresh = st.fresh → ops = commitOps st.batch) := by
  induction records generalizing st ops with
  | nil =>
    cases h
    exact ⟨Nat.le_refl _, fun _ => rfl⟩
  | cons r records ih =>
    obtain ⟨st', hst, h⟩ := Option.bind_eq_some_iff.mp h
    obtain ⟨⟨ops', last'⟩, hops, h⟩ := Option.bind_eq_some_iff.mp h
    cases h
    obtain ⟨hle, heq⟩ := ih hops
    have hwrite : ∀ offset, st.write now r offset = some st' → st'.fresh = st.fresh + 1 := by
      intro offset hw
      obtain ⟨next, _, hw⟩ := Option.bind_eq_some_iff.mp hw
      cases hw
      show (st.makeRoom offset _).fresh + 1 = _
      unfold Appending.makeRoom
      dsimp only
      split <;> rfl
    have hfresh : ∀ offset, st.write now r offset = some st' →
        st.fresh ≤ last.fresh ∧ (last.fresh = st.fresh → st.roundOps r ++ ops' =
          commitOps st.batch) := fun offset hw => by
      have := hwrite offset hw
      exact ⟨by omega, fun _ => by omega⟩
    unfold Appending.append at hst
    split at hst
    · rename_i o ho
      split at hst
      · rename_i hlow
        cases hst
        refine ⟨hle, fun hl => ?_⟩
        rw [heq hl]
        simp [Appending.roundOps, AppendRecord.place, ho, hlow]
      · exact hfresh o hst
    · exact hfresh st.next hst

section
variable {strict : Prop} {g g' : Group} {t : Nat} {w : Bool}

/-- An append gets the appender lock. -/
theorem Sound.acquire (h : g.Sound strict) {records : List AppendRecord}
    (hphase : (g.threads t).phase = .entered records now) (hfree : g.appenderHeld = false)
    (hops : lockedOps now ⟨g.partition, {}, g.partition.nextOffset, 0, []⟩ records =
      some (ops, st)) :
    (setPhase { g with appenderHeld := true } t (.writing ops (0 < st.fresh))).Sound strict := by
  obtain ⟨hstacked, hseq⟩ := h.free hfree
  have hnone : ∀ u ops w, (g.threads u).phase ≠ .writing ops w := fun u ops w hu =>
    absurd (h.writer u ops w hu).1 (by simp [hfree])
  have hempty : (g.threads t).wrote = [] := by
    have := h.phases t
    rwa [hphase] at this
  have hstart : Appending.Stacked ⟨g.partition, {}, g.partition.nextOffset, 0, []⟩ :=
    ⟨hstacked, rfl, fun _ => rfl⟩
  obtain ⟨horderly, hsettles⟩ := hstart.lockedOps hops
    (s := ⟨g.partition.active.baseOffset, false, false, false⟩) rfl rfl
  have hwriter : g.WriterOk ops :=
    ⟨⟨_, ⟨rfl, fun _ => hseq, fun hl => absurd hl Bool.false_ne_true,
      fun hi => absurd hi Bool.false_ne_true⟩, horderly⟩, hsettles⟩
  refine h.handOver rfl rfl (fun _ => rfl) (fun _ => rfl) (fun hw => ⟨?_, hempty⟩)
    (fun hheld => (nomatch hheld)) (fun ops' w hp => ?_) fun u _ => hnone u
  · -- Nothing fresh: the batch stayed empty.
    have hzero : st.fresh = 0 := by simpa using hw
    exact (lockedOps_fresh hops).2 hzero
  · cases hp
    exact ⟨rfl, hwriter⟩

/-- The append that owned the lock leaves it with the newest mark. -/
theorem Sound.release (h : g.Sound strict) (hphase : (g.threads t).phase = .writing [] w) :
    (setPhase { g with appenderHeld := false } t (.written g.partition.latest w)).Sound strict := by
  obtain ⟨_, ⟨s, hs, last, hlast, hclean⟩, hstacked⟩ := h.writer t [] w hphase
  cases hlast
  have hp := h.phases t
  rw [hphase] at hp
  have hseq := hs.clean hclean
  refine h.handOver rfl rfl (fun _ => rfl) (fun _ => rfl)
    ⟨⟨h.latest, fun σ hσ => ?_⟩, fun hw => (hp hw).2⟩ (fun _ => ⟨hstacked, hseq⟩)
    (fun _ _ hno => (nomatch hno)) fun u hu ops w' huw => ?_
  · rw [h.latestSeq]
    exact hseq σ ⟨t, hσ⟩
  · exact hu (h.unique u t ops [] w' w huw hphase)

theorem files_poison (g : Group) (file : FileId) (discards : Bool) (f : FileId) :
    ((g.poison file discards).files f).len = (g.files f).len ∧
      ((g.poison file discards).files f).covered = (g.files f).covered := by
  simp only [poison, Function.update_apply]
  split
  · rename_i hf
    rw [hf]
    exact ⟨rfl, rfl⟩
  · exact ⟨rfl, rfl⟩

/-- An fsync of `roll` fails: the lock is left with everything marked. -/
theorem Sound.failRoll (h : g.Sound strict) {op : WriterOp}
    (hphase : (g.threads t).phase = .writing (op :: ops) w) (hop : op = .syncLog ∨ op = .syncIndex)
    (file : FileId) (discards : Bool) :
    (setPhase { g.poison file discards with
      appenderHeld := false } t (.done false)).Sound strict := by
  obtain ⟨_, ⟨s, hs, horderly⟩, hsettles⟩ := h.writer t _ w hphase
  obtain ⟨s', hnext, _⟩ := horderly.cons
  have hclean : s.dirty = false := by
    rcases hop with rfl | rfl <;>
    · simp only [Stage.next, Option.ite_none_left_eq_some, Bool.not_eq_true] at hnext
      exact hnext.1
  refine h.handOver rfl rfl (fun f => ?_) (fun f => ?_) (fun _ hno => (nomatch hno))
    (fun _ => ⟨hsettles.1 hop, hs.clean hclean⟩) (fun _ _ hno => (nomatch hno))
    fun u hu ops' w' huw => hu (h.unique u t ops' _ w' w huw hphase)
  · exact (g.files_poison file discards f).1
  · exact (g.files_poison file discards f).2

end

/-! ### Steps under the appender lock -/

section
variable {strict : Prop} {g g' : Group} {t : Nat} {op : WriterOp} {ops : List WriterOp} {w : Bool}
    {s s' : Stage} {kind : FileKind}

/-- What is left to show of a step under the lock. -/
theorem Sound.underLock (h : g.Sound strict) (hphase : (g.threads t).phase = .writing (op :: ops) w)
    (hgrows : g.Grows g') (hothers : ∀ u, u ≠ t → g'.threads u = g.threads u)
    (hthis : (g'.threads t).phase = .writing ops w) (hheld : g'.appenderHeld = g.appenderHeld)
    (hflush : g'.partition.flushEveryRecords = g.partition.flushEveryRecords)
    (happender : g'.partition.appender.baseOffset = g'.partition.active.baseOffset)
    (hlatestSeq : g'.partition.latest.seq = g'.partition.writeSeq)
    (hlatest : g'.MarkOk g'.partition.latest) (hsynced : g'.partition.synced = g.partition.synced)
    (hspans : ∀ σ, g'.Wrote σ → g'.SpanOk σ) (hwriter : g'.WriterOk ops) : g'.Sound strict := by
  have hheld' : g'.appenderHeld = true := hheld.trans (h.writer t _ w hphase).1
  have howner : ∀ u ops' w', (g'.threads u).phase = .writing ops' w' → u = t := by
    intro u ops' w' hu
    by_contra hut
    rw [hothers u hut] at hu
    exact hut (h.unique u t ops' _ w' w hu hphase)
  exact
    { flush := hflush ▸ h.flush
      appenderBase := happender
      latestSeq := hlatestSeq
      latest := hlatest
      synced := hsynced ▸ Nat.le_trans h.synced hgrows.seq
      spans := hspans
      phases := by
        intro u
        by_cases hut : u = t
        · rw [hut, hthis]
          have hp := h.phases t
          rw [hphase] at hp
          exact fun hw => absurd (hp hw).1 (List.cons_ne_nil _ _)
        · rw [hothers u hut]
          exact (h.phases u).grows hgrows
      free := fun hf => absurd hheld' (by simp [hf])
      writer := by
        intro u ops' w' hu
        rw [howner u ops' w' hu, hthis] at hu
        cases hu
        exact ⟨hheld', hwriter⟩
      unique := fun u v _ _ _ _ hu hv => (howner u _ _ hu).trans (howner v _ _ hv).symm }

/-- Steps that neither store a mark nor start a segment leave these fields alone. -/
structure Keeps (p p' : Partition) : Prop where
  flush : p'.flushEveryRecords = p.flushEveryRecords
  appenderBase : p'.appender.baseOffset = p.appender.baseOffset
  activeBase : p'.active.baseOffset = p.active.baseOffset
  writeSeq : p'.writeSeq = p.writeSeq
  latest : p'.latest = p.latest
  synced : p'.synced = p.synced

theorem keeps_apply (op : WriterOp) (p : Partition) (hmark : op ≠ .mark)
    (hnew : ∀ base, op ≠ .newSegment base) : Keeps p (op.apply p) := by
  cases op with
  | mark => exact absurd rfl hmark
  | newSegment base => exact absurd rfl (hnew base)
  | observe b => exact ⟨rfl, rfl, Segment.observe_baseOffset _ _, rfl, rfl, rfl⟩
  | _ => exact ⟨rfl, rfl, rfl, rfl, rfl, rfl⟩

/-- The stage behind a write of this kind. -/
structure Stage.Wrote (s s' : Stage) (kind : FileKind) : Prop where
  base : s'.base = s.base
  dirty : s'.dirty = true
  log : s'.logSynced → s.logSynced ∧ kind ≠ .log
  index : s'.indexSynced → s.indexSynced ∧ kind ≠ .index

theorem covered_write (g : Group) (t : Nat) (kind : FileKind) (bytes : Bytes) (f : FileId) :
    ((g.write t kind bytes).files f).covered = (g.files f).covered := by
  simp only [Group.write, Function.update_apply]
  split
  · rename_i hf
    rw [hf]
  · rfl

theorem len_le_write (g : Group) (t : Nat) (kind : FileKind) (bytes : Bytes) (f : FileId) :
    (g.files f).len ≤ ((g.write t kind bytes).files f).len := by
  simp only [Group.write, Function.update_apply]
  split
  · rename_i hf
    rw [hf]
    exact Nat.le_add_right _ _
  · exact Nat.le_refl _

/-- A write adds bytes of the next sequence number to a file of the active segment. -/
theorem Sound.write (h : g.Sound strict) (hphase : (g.threads t).phase = .writing (op :: ops) w)
    (hkeeps : Keeps g.partition p) (hs : g.StageOk s) (hs' : Stage.Wrote s s' kind)
    (horderly : s'.Orderly ops) (hsettles : Settles p ops) (bytes : Bytes) :
    (setPhase { g.write t kind bytes with partition := p } t (.writing ops w)).Sound strict := by
  generalize hg' : setPhase { g.write t kind bytes with partition := p } t (.writing ops w) = g'
  let file : FileId := ⟨g.partition.appender.baseOffset, kind⟩
  let span : Span := ⟨file, (g.files file).len, (g.files file).len + bytes.length,
    g.partition.writeSeq + 1⟩
  have hp : g'.partition = p := by rw [← hg']; rfl
  have hthis : (g'.threads t) = ⟨.writing ops w, (g.threads t).wrote ++ [span]⟩ := by
    rw [← hg']
    simp [setPhase, Group.write, span, file]
  have hothers : ∀ u, u ≠ t → g'.threads u = g.threads u := by
    intro u hu
    rw [← hg']
    simp [setPhase, Group.write, Function.update_of_ne hu]
  have hwrote : ∀ {σ}, g'.Wrote σ → g.Wrote σ ∨ σ = span := by
    rintro σ ⟨u, hu⟩
    by_cases hut : u = t
    · rw [hut, hthis] at hu
      rcases List.mem_append.mp hu with hu | hu
      · exact .inl ⟨t, hu⟩
      · exact .inr (List.mem_singleton.mp hu)
    · exact .inl ⟨u, hothers u hut ▸ hu⟩
  have hcovered : ∀ f, (g'.files f).covered = (g.files f).covered := by
    rw [← hg']
    exact g.covered_write t kind bytes
  have hlen : ∀ f, (g.files f).len ≤ (g'.files f).len := by
    rw [← hg']
    exact g.len_le_write t kind bytes
  have hend : (g'.files file).len = (g.files file).len + bytes.length := by
    rw [← hg']
    show ((g.write t kind bytes).files file).len = _
    simp [Group.write, file]
  have hgrows : g.Grows g' :=
    ⟨by rw [hp, hkeeps.writeSeq], by rw [hp, hkeeps.activeBase],
      fun f => Nat.le_of_eq (hcovered f).symm, fun σ hσ => (hwrote hσ).imp_right
        fun (hspan : σ = span) => hspan ▸ Nat.lt_succ_self _⟩
  have hfile : file.base = g.partition.active.baseOffset := h.appenderBase
  refine h.underLock hphase hgrows hothers (by rw [hthis]) (by rw [← hg']; rfl)
    (by rw [hp, hkeeps.flush]) ?_ ?_ ?_ (by rw [hp, hkeeps.synced]) ?_ ⟨⟨s', ?_, horderly⟩, ?_⟩
  · rw [hp, hkeeps.appenderBase, hkeeps.activeBase]
    exact h.appenderBase
  · rw [hp, hkeeps.latest, hkeeps.writeSeq]
    exact h.latestSeq
  · have hlatest := h.latest.grows hgrows
    rwa [hp, hkeeps.latest]
  · intro σ hσ
    rcases hwrote hσ with hσ | rfl
    · have hold := h.spans σ hσ
      exact
        { len := Nat.le_trans hold.len (hlen _)
          base := by rw [hp, hkeeps.activeBase]; exact hold.base
          seq := by rw [hp, hkeeps.writeSeq]; exact hold.seq
          sealedCovered := by
            rw [hp, hkeeps.activeBase]
            exact fun hlt => hgrows.mono (hold.sealedCovered hlt)
          syncedCovered := by
            rw [hp, hkeeps.synced]
            exact fun hle => hgrows.mono (hold.syncedCovered hle) }
    · exact
        { len := Nat.le_of_eq hend.symm
          base := by rw [hp, hkeeps.activeBase]; exact Nat.le_of_eq hfile
          seq := by rw [hp, hkeeps.writeSeq]
          sealedCovered := by
            rw [hp, hkeeps.activeBase, ← hfile]
            exact fun hlt => absurd hlt (Nat.lt_irrefl _)
          syncedCovered := by
            rw [hp, hkeeps.synced]
            exact fun hle => absurd (Nat.le_trans hle h.synced) (Nat.not_succ_le_self _) }
  · exact
      { base := by rw [hp, hkeeps.activeBase, hs'.base]; exact hs.base
        clean := fun hclean => absurd hclean (by simp [hs'.dirty])
        log := by
          intro hl σ hσ hf
          obtain ⟨hl, hkind⟩ := hs'.log hl
          rcases hwrote hσ with hσ | rfl
          · exact hgrows.mono (hs.log hl σ hσ (hs'.base ▸ hf))
          · exact absurd (congrArg FileId.kind hf) hkind
        index := by
          intro hi σ hσ hf
          obtain ⟨hi, hkind⟩ := hs'.index hi
          rcases hwrote hσ with hσ | rfl
          · exact hgrows.mono (hs.index hi σ hσ (hs'.base ▸ hf))
          · exact absurd (congrArg FileId.kind hf) hkind }
  · rw [hp]
    exact hsettles

/-- A step under the lock that writes nothing. -/
theorem Sound.noWrite (h : g.Sound strict) (hphase : (g.threads t).phase = .writing (op :: ops) w)
    (hthreads : g'.threads = Function.update g.threads t
      { g.threads t with phase := .writing ops w }) (hheld : g'.appenderHeld = g.appenderHeld)
    (hlen : ∀ f, (g'.files f).len = (g.files f).len)
    (hcovered : ∀ f, (g.files f).covered ≤ (g'.files f).covered)
    (hseq : g.partition.writeSeq ≤ g'.partition.writeSeq)
    (hbase : g.partition.active.baseOffset ≤ g'.partition.active.baseOffset)
    (hflush : g'.partition.flushEveryRecords = g.partition.flushEveryRecords)
    (happender : g'.partition.appender.baseOffset = g'.partition.active.baseOffset)
    (hlatestSeq : g'.partition.latest.seq = g'.partition.writeSeq)
    (hlatest : g'.partition.latest = g.partition.latest ∨
      g'.partition.latest.base = g'.partition.active.baseOffset)
    (hsynced : g'.partition.synced = g.partition.synced)
    (hsealed : ∀ σ, g.Wrote σ → σ.file.base < g'.partition.active.baseOffset → g'.Covered σ)
    (hwriter : (∀ σ, g'.Wrote σ ↔ g.Wrote σ) → g'.WriterOk ops) : g'.Sound strict := by
  have hwrote : ∀ σ, g'.Wrote σ ↔ g.Wrote σ := by
    intro σ
    unfold Wrote
    simp only [hthreads, wrote_update]
  have hgrows : g.Grows g' := ⟨hseq, hbase, hcovered, fun σ hσ => .inl ((hwrote σ).mp hσ)⟩
  refine h.underLock hphase hgrows (fun u hu => ?_) ?_ hheld hflush happender hlatestSeq ?_
    hsynced (fun σ hσ => ?_) (hwriter hwrote)
  · rw [hthreads, Function.update_of_ne hu]
  · rw [hthreads, Function.update_self]
  · rcases hlatest with hlatest | hlatest
    · rw [hlatest]
      exact h.latest.grows hgrows
    · exact ⟨Nat.le_of_eq hlatestSeq, Nat.le_of_eq hlatest, fun σ hσ _ =>
        Nat.le_trans (h.spans σ ((hwrote σ).mp hσ)).base (hlatest ▸ hbase)⟩
  · have hσ := (hwrote σ).mp hσ
    have hold := h.spans σ hσ
    exact
      { len := by rw [hlen]; exact hold.len
        base := Nat.le_trans hold.base hbase
        seq := Nat.le_trans hold.seq (Nat.succ_le_succ hseq)
        sealedCovered := hsealed σ hσ
        syncedCovered := fun hle => hgrows.mono (hold.syncedCovered (hsynced ▸ hle)) }

/-- A step that only readers see, or the counter of `sync_pending`. -/
theorem Sound.publish (h : g.Sound strict) (hphase : (g.threads t).phase = .writing (op :: ops) w)
    (hkeeps : Keeps g.partition p) (hs : g.StageOk s) (horderly : s.Orderly ops)
    (hsettles : Settles p ops) :
    (setPhase { g with partition := p } t (.writing ops w)).Sound strict := by
  refine h.noWrite hphase rfl rfl (fun _ => rfl) (fun _ => Nat.le_refl _)
    (Nat.le_of_eq hkeeps.writeSeq.symm) (Nat.le_of_eq hkeeps.activeBase.symm) hkeeps.flush
    (hkeeps.appenderBase.trans (h.appenderBase.trans hkeeps.activeBase.symm)) ?_
    (.inl hkeeps.latest) hkeeps.synced (fun σ hσ hlt => ?_) fun hwrote => ⟨⟨s, ?_, horderly⟩,
      hsettles⟩
  · show p.latest.seq = p.writeSeq
    rw [hkeeps.latest, hkeeps.writeSeq]
    exact h.latestSeq
  · exact (h.spans σ hσ).sealedCovered (hkeeps.activeBase ▸ hlt)
  · exact ⟨hs.base.trans hkeeps.activeBase.symm,
      fun hd σ hσ => Nat.le_trans (hs.clean hd σ ((hwrote σ).mp hσ))
        (Nat.le_of_eq hkeeps.writeSeq.symm),
      fun hl σ hσ => hs.log hl σ ((hwrote σ).mp hσ),
      fun hi σ hσ => hs.index hi σ ((hwrote σ).mp hσ)⟩

/-- The stage behind an fsync of this kind. -/
structure Stage.Synced (s s' : Stage) (kind : FileKind) : Prop where
  base : s'.base = s.base
  dirty : s'.dirty = s.dirty
  log : s'.logSynced → s.logSynced ∨ kind = .log
  index : s'.indexSynced → s.indexSynced ∨ kind = .index

/-- `roll` fsyncs a file of the segment it seals. -/
theorem Sound.syncFile (h : g.Sound strict) (hphase : (g.threads t).phase = .writing (op :: ops) w)
    (hs : g.StageOk s) (hs' : Stage.Synced s s' kind) (horderly : s'.Orderly ops)
    (hsettles : Settles g.partition ops) :
    (setPhase { g.cover ⟨g.partition.appender.baseOffset, kind⟩
      (g.files ⟨g.partition.appender.baseOffset, kind⟩).len with partition := g.partition } t
        (.writing ops w)).Sound strict := by
  generalize hfile : (⟨g.partition.appender.baseOffset, kind⟩ : FileId) = file
  have hmono : ∀ {σ}, g.Covered σ → (g.cover file (g.files file).len).Covered σ :=
    fun hc => Nat.le_trans hc (g.covered_cover _ _ _)
  have hthis : ∀ σ, g.Wrote σ → σ.file = file → (g.cover file (g.files file).len).Covered σ := by
    intro σ hσ hf
    show σ.stop ≤ ((g.cover file (g.files file).len).files σ.file).covered
    have hlen := (h.spans σ hσ).len
    rw [hf] at hlen ⊢
    exact Nat.le_trans hlen (g.begun_le_cover _ _)
  have hbase : s.base = g.partition.appender.baseOffset := hs.base.trans h.appenderBase.symm
  refine h.noWrite hphase rfl rfl (g.len_cover _ _) (g.covered_cover _ _) (Nat.le_refl _)
    (Nat.le_refl _) rfl h.appenderBase h.latestSeq (.inl rfl) rfl
    (fun σ hσ hlt => hmono ((h.spans σ hσ).sealedCovered hlt)) fun hwrote =>
      ⟨⟨s', ⟨hs'.base.trans hs.base, fun hd σ hσ => hs.clean (hs'.dirty ▸ hd) σ
        ((hwrote σ).mp hσ), fun hl σ hσ hf => ?_, fun hi σ hσ hf => ?_⟩, horderly⟩, hsettles⟩
  · have hσ := (hwrote σ).mp hσ
    rcases hs'.log hl with hl | rfl
    · exact hmono (hs.log hl σ hσ (hs'.base ▸ hf))
    · exact hthis σ hσ (by rw [hf, hs'.base, hbase, hfile])
  · have hσ := (hwrote σ).mp hσ
    rcases hs'.index hi with hi | rfl
    · exact hmono (hs.index hi σ hσ (hs'.base ▸ hf))
    · exact hthis σ hσ (by rw [hf, hs'.base, hbase, hfile])

/-- The new mark takes the number of all that was written since the last one. -/
theorem Sound.mark (h : g.Sound strict) (hphase : (g.threads t).phase = .writing (.mark :: ops) w)
    (hs : g.StageOk s) (horderly : { s with dirty := false }.Orderly ops)
    (hsettles : Settles (WriterOp.mark.apply g.partition) ops) :
    (setPhase { g with partition := WriterOp.mark.apply g.partition } t
      (.writing ops w)).Sound strict := by
  refine h.noWrite hphase rfl rfl (fun _ => rfl) (fun _ => Nat.le_refl _) (Nat.le_succ _)
    (Nat.le_refl _) rfl h.appenderBase rfl (.inr h.appenderBase) rfl
    (fun σ hσ hlt => (h.spans σ hσ).sealedCovered hlt) fun hwrote =>
      ⟨⟨{ s with dirty := false }, ⟨hs.base, fun _ σ hσ => ?_,
        fun hl σ hσ => hs.log hl σ ((hwrote σ).mp hσ),
        fun hi σ hσ => hs.index hi σ ((hwrote σ).mp hσ)⟩, horderly⟩, hsettles⟩
  exact (h.spans σ ((hwrote σ).mp hσ)).seq

/-- A new segment is started when both files of the old one are covered. -/
theorem Sound.newSegment (h : g.Sound strict) {base : Nat}
    (hphase : (g.threads t).phase = .writing (.newSegment base :: ops) w) (hs : g.StageOk s)
    (hnext : s.next (.newSegment base) = some s') (horderly : s'.Orderly ops)
    (hsettles : Settles (g.partition.roll base) ops) :
    (setPhase { g with partition := g.partition.roll base } t (.writing ops w)).Sound strict := by
  simp only [Stage.next, Option.ite_none_right_eq_some, Option.some.injEq] at hnext
  obtain ⟨⟨hlt, hclean, hlog, hindex⟩, rfl⟩ := hnext
  have hbase : g.partition.active.baseOffset < base := hs.base ▸ hlt
  have hall : ∀ σ, g.Wrote σ → g.Covered σ := by
    intro σ hσ
    have hold := h.spans σ hσ
    rcases Nat.lt_or_eq_of_le hold.base with hlt | heq
    · exact hold.sealedCovered hlt
    · rw [← hs.base] at heq
      cases hkind : σ.file.kind with
      | log => exact hs.log hlog σ hσ (by rw [← heq, ← hkind])
      | index => exact hs.index hindex σ hσ (by rw [← heq, ← hkind])
  refine h.noWrite hphase rfl rfl (fun _ => rfl) (fun _ => Nat.le_refl _) (Nat.le_refl _)
    (Nat.le_of_lt hbase) rfl rfl h.latestSeq (.inl rfl) rfl
    (fun σ hσ _ => hall σ hσ) fun hwrote =>
      ⟨⟨⟨base, false, false, false⟩, ⟨rfl, fun _ σ hσ => hs.clean hclean σ ((hwrote σ).mp hσ),
        fun hl => absurd hl Bool.false_ne_true, fun hi => absurd hi Bool.false_ne_true⟩,
        horderly⟩, hsettles⟩

/-- One step under the appender lock. -/
theorem Sound.perform (h : g.Sound strict) (hphase : (g.threads t).phase = .writing (op :: ops) w) :
    ((g.perform t op).setPhase t (.writing ops w)).Sound strict := by
  obtain ⟨_, ⟨s, hs, horder⟩, _, hsettles⟩ := h.writer t _ w hphase
  obtain ⟨s', hnext, horderly⟩ := horder.cons
  cases op with
  | writeLog bytes =>
    cases hnext
    have hstage : Stage.Wrote s { s with dirty := true, logSynced := false } .log :=
      ⟨rfl, rfl, fun hl => absurd hl Bool.false_ne_true, fun hi => ⟨hi, nofun⟩⟩
    exact h.write hphase (keeps_apply (.writeLog bytes) _ nofun nofun) hs hstage horderly
      hsettles bytes
  | writeIndex bytes =>
    cases hnext
    have hstage : Stage.Wrote s { s with dirty := true, indexSynced := false } .index :=
      ⟨rfl, rfl, fun hl => ⟨hl, nofun⟩, fun hi => absurd hi Bool.false_ne_true⟩
    exact h.write hphase (keeps_apply (.writeIndex bytes) _ nofun nofun) hs hstage horderly
      hsettles bytes
  | syncLog =>
    simp only [Stage.next, Option.ite_none_left_eq_some, Option.some.injEq] at hnext
    obtain ⟨_, rfl⟩ := hnext
    have hstage : Stage.Synced s { s with logSynced := true } .log :=
      ⟨rfl, rfl, fun _ => .inr rfl, .inl⟩
    exact h.syncFile hphase hs hstage horderly hsettles
  | syncIndex =>
    simp only [Stage.next, Option.ite_none_left_eq_some, Option.some.injEq] at hnext
    obtain ⟨_, rfl⟩ := hnext
    have hstage : Stage.Synced s { s with indexSynced := true } .index :=
      ⟨rfl, rfl, .inl, fun _ => .inr rfl⟩
    exact h.syncFile hphase hs hstage horderly hsettles
  | mark =>
    cases hnext
    exact h.mark hphase hs horderly hsettles
  | newSegment base => exact h.newSegment hphase hs hnext horderly hsettles
  | noteWritten | publishSize | publishIndex | observe | publishNext | addUnsynced =>
    cases hnext
    exact h.publish hphase (keeps_apply _ _ nofun nofun) hs horderly hsettles

end

end Group

end EventStream.Storage
