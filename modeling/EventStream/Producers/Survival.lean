import EventStream.Producers.Journal

/-! What was journaled is remembered after every later open, as long as no journal is lost to a
second rename and no line is written behind a torn one.

An acknowledged entry is in `producers.json`, or stands in whole fsynced lines of one of the
two journals; and memory remembers it. While `flush` is at work the live journal has what was
acknowledged since the rename, and the copy has the rest. -/
namespace EventStream.Producers

/-! ### Maps -/

namespace Registry

/-- The producer's window stands at or past the entry. -/
def Remembers (reg : Registry) (e : JournalEntry) : Prop :=
  e.p ∈ reg.ids ∧ ∃ st, reg.slots e.p = some st ∧ st.Remembers e.t e.n e.s

theorem replayEntry_self (now : Int) (reg : Registry) (e : JournalEntry) :
    (reg.replayEntry now e).slots e.p =
      some (((reg.slots e.p).getD ⟨e.o, now, fun _ => none⟩).record now e.t e.n e.s e.f) :=
  Function.update_self ..

variable {pid : String}

theorem mem_ids_replayEntry (now : Int) (reg : Registry) (e : JournalEntry)
    (h : pid ∈ reg.ids ∨ pid = e.p) : pid ∈ (reg.replayEntry now e).ids := by
  unfold replayEntry
  dsimp only
  split
  · rename_i hmem
    rcases h with h | rfl
    · exact h
    · exact hmem
  · exact List.mem_cons.mpr h.symm

theorem replayEntry_remembers (now : Int) (reg : Registry) (e : JournalEntry) :
    (reg.replayEntry now e).Remembers e :=
  ⟨mem_ids_replayEntry now reg e (Or.inr rfl), _, replayEntry_self now reg e,
    ProducerState.record_remembers ..⟩

variable {reg : Registry} {e : JournalEntry}

theorem Remembers.replayEntry (h : reg.Remembers e) (now : Int) (e' : JournalEntry) :
    (reg.replayEntry now e').Remembers e := by
  obtain ⟨hid, st, hst, hrem⟩ := h
  refine ⟨mem_ids_replayEntry now reg e' (Or.inl hid), ?_⟩
  by_cases hp : e.p = e'.p
  · refine ⟨_, (congrArg _ hp).trans (replayEntry_self now reg e'), ?_⟩
    rw [← hp, hst]
    exact hrem.record now _ _ _ _
  · exact ⟨st, (Function.update_of_ne hp ..).trans hst, hrem⟩

/-- Replaying keeps what is remembered and adds what is replayed. -/
theorem foldl_remembers (now : Int) {es : List JournalEntry} (h : reg.Remembers e ∨ e ∈ es) :
    (es.foldl (Registry.replayEntry now) reg).Remembers e := by
  induction es generalizing reg with
  | nil => exact h.resolve_right List.not_mem_nil
  | cons e' es ih =>
    refine ih ?_
    rcases h with h | h
    · exact Or.inl (h.replayEntry now e')
    · rcases List.mem_cons.mp h with rfl | h
      · exact Or.inl (replayEntry_remembers now reg e)
      · exact Or.inr h

theorem Remembers.load (h : reg.Remembers e) (now : Int) : (reg.load now).Remembers e := by
  obtain ⟨hid, st, hst, hrem⟩ := h
  exact ⟨hid, _, congrArg (Option.map _) hst, hrem⟩

/-- Copying one producer from `memory`. -/
theorem Remembers.copy {memory : Registry} (hmem : memory.Remembers e)
    (h : e.p = pid ∨ reg.Remembers e) :
    Registry.Remembers ⟨pid :: reg.ids, Function.update reg.slots pid (memory.slots pid)⟩ e := by
  by_cases hp : e.p = pid
  · subst hp
    obtain ⟨-, st, hst, hrem⟩ := hmem
    exact ⟨List.mem_cons_self, st, (Function.update_self ..).trans hst, hrem⟩
  · obtain ⟨hid, st, hst, hrem⟩ := h.resolve_left hp
    exact ⟨List.mem_cons_of_mem _ hid, st, (Function.update_of_ne hp ..).trans hst, hrem⟩

end Registry

/-! ### Files -/

section
variable [EntryFormat]

namespace JournalFile

/-- The entry stands in whole lines at the front of the file that are on disk. -/
def Holds (f : JournalFile) (e : JournalEntry) : Prop :=
  ∃ es rest, f.text = encodeLines es ++ rest ∧ (encodeLines es).length ≤ f.synced ∧
    (∀ e ∈ es, e.Valid) ∧ e ∈ es

/-- The file is whole lines and at most a part of one behind them. -/
def Lined (f : JournalFile) : Prop :=
  ∃ es tail, f.text = encodeLines es ++ tail ∧ (∀ e ∈ es, e.Valid) ∧ '\n' ∉ tail

variable {f : JournalFile} {e : JournalEntry} {batch : List JournalEntry}

theorem Holds.replayed (h : f.Holds e) : e ∈ replayed f.text := by
  obtain ⟨es, rest, htext, -, hvalid, he⟩ := h
  rw [htext, replayed_encodeLines hvalid]
  exact List.mem_append_left _ he

theorem Holds.cut (h : f.Holds e) (len : Nat) : (f.cut len).Holds e := by
  obtain ⟨es, rest, htext, hlen, hvalid, he⟩ := h
  have htake : (f.cut len).text =
      encodeLines es ++ rest.take (max f.synced len - (encodeLines es).length) := by
    unfold JournalFile.cut
    dsimp only
    rw [htext, List.take_append, List.take_of_length_le (le_trans hlen (le_max_left ..))]
  refine ⟨es, _, htake, ?_, hvalid, he⟩
  show _ ≤ (f.cut len).text.length
  rw [htake, List.length_append]
  exact Nat.le_add_right ..

/-- A write behind the entry, with or without an fsync, leaves it where it is. -/
theorem Holds.extend (h : f.Holds e) (more : List Char) {synced : Nat}
    (hsynced : synced = f.synced ∨ synced = (f.text ++ more).length) :
    Holds ⟨f.text ++ more, synced⟩ e := by
  obtain ⟨es, rest, htext, hlen, hvalid, he⟩ := h
  refine ⟨es, rest ++ more, by rw [htext, List.append_assoc], ?_, hvalid, he⟩
  rcases hsynced with rfl | rfl
  · exact hlen
  · show _ ≤ (f.text ++ more).length
    rw [htext, List.length_append, List.length_append]
    omega

theorem lined_empty : empty.Lined :=
  ⟨[], [], rfl, fun _ h => absurd h List.not_mem_nil, List.not_mem_nil⟩

section
variable (h : f.Lined)
include h

theorem Lined.cut (len : Nat) : (f.cut len).Lined := by
  obtain ⟨es, tail, htext, hvalid, htail⟩ := h
  unfold Lined JournalFile.cut
  dsimp only
  rw [htext]
  by_cases hle : max f.synced len ≤ (encodeLines es).length
  · obtain ⟨k, tail', htake, htail'⟩ := take_encodeLines hvalid (max f.synced len)
    refine ⟨es.take k, tail', ?_, fun e he => hvalid e (List.mem_of_mem_take he), htail'⟩
    rw [List.take_append_of_le_length hle, htake]
  · refine ⟨es, tail.take (max f.synced len - (encodeLines es).length), ?_, hvalid,
      fun hmem => htail (List.mem_of_mem_take hmem)⟩
    rw [List.take_append, List.take_of_length_le (le_of_lt (not_le.mp hle))]

/-- A file at the end of a line is whole lines. -/
theorem Lined.whole (hat : f.AtLine) : ∃ es, f.text = encodeLines es ∧ ∀ e ∈ es, e.Valid := by
  obtain ⟨es, tail, htext, hvalid, htail⟩ := h
  refine ⟨es, ?_, hvalid⟩
  rcases List.eq_nil_or_concat tail with rfl | ⟨init, c, rfl⟩
  · rw [htext, List.append_nil]
  · have hlast : f.text.getLast? = some c := by
      rw [htext, List.concat_eq_append, ← List.append_assoc, List.getLast?_concat]
    have hc : c ≠ '\n' := fun hc => htail (by simp [hc])
    rcases hat with hnil | hat
    · rw [hnil] at hlast
      cases hlast
    · exact absurd (Option.some.inj (hlast.symm.trans hat)) hc

/-- A write behind whole lines, cut off anywhere. -/
theorem Lined.write (hat : f.AtLine) (hbatch : ∀ e ∈ batch, e.Valid) (m synced : Nat) :
    Lined ⟨f.text ++ (encodeLines batch).take m, synced⟩ := by
  obtain ⟨es, htext, hvalid⟩ := h.whole hat
  obtain ⟨k, tail, htake, htail⟩ := take_encodeLines hbatch m
  refine ⟨es ++ batch.take k, tail, ?_, ?_, htail⟩
  · dsimp only
    rw [htext, htake, encodeLines_append, List.append_assoc]
  · intro e he
    rcases List.mem_append.mp he with he | he
    · exact hvalid e he
    · exact hbatch e (List.mem_of_mem_take he)

/-- A write that is complete and fsynced is held. -/
theorem Lined.holds_written (hat : f.AtLine) (hbatch : ∀ e ∈ batch, e.Valid) (he : e ∈ batch) :
    Holds ⟨f.text ++ encodeLines batch, (f.text ++ encodeLines batch).length⟩ e := by
  obtain ⟨es, htext, hvalid⟩ := h.whole hat
  have hall : f.text ++ encodeLines batch = encodeLines (es ++ batch) := by
    rw [htext, encodeLines_append]
  refine ⟨es ++ batch, [], by rw [List.append_nil]; exact hall, ?_, ?_, List.mem_append_right _ he⟩
  · exact le_of_eq (congrArg List.length hall.symm)
  · intro e he
    exact (List.mem_append.mp he).elim (hvalid e) (hbatch e)

end

end JournalFile

/-! ### Every run -/

namespace Store

/-- `producers.json` has the entry. -/
def InSnapshot (s : Store) (e : JournalEntry) : Prop := ∃ reg ∈ s.snapshot, reg.Remembers e

def InLive (s : Store) (e : JournalEntry) : Prop := ∃ f ∈ s.live, f.Holds e

def InRotated (s : Store) (e : JournalEntry) : Prop := ∃ f ∈ s.rotated, f.Holds e

/-- No line is written behind a torn one, and the rename replaces no journal that
`producers.json` does not cover. -/
def Careful (s : Store) : Event → Prop
  | .journal _ _ _ => (s.live.getD .empty).AtLine
  | .rotate true => s.live ≠ none → ∀ f ∈ s.rotated, ∀ e ∈ replayed f.text, s.InSnapshot e
  | _ => True

abbrev Safe : Store → Prop := Runs step Careful .empty

/-- What `flush` may rely on at its next step. -/
def FlushOk (s : Store) : FlushPhase → Prop
  | .copying todo copy => ∀ e ∈ s.acked, s.InLive e ∨ e.p ∈ todo ∨ copy.Remembers e
  | .replaced => ∀ e ∈ s.acked, s.InLive e ∨ s.InSnapshot e
  | _ => True

structure Sound (s : Store) : Prop where
  remembers : ∀ e ∈ s.acked, s.memory.Remembers e
  pending : ∀ batch ∈ s.pending, ∀ e ∈ batch, s.memory.Remembers e ∧ e.Valid
  lined : ∀ f ∈ s.live, f.Lined
  durable : ∀ e ∈ s.acked, s.InSnapshot e ∨ s.InRotated e ∨ s.InLive e
  flush : s.FlushOk s.flush

theorem Sound.empty : Sound .empty where
  remembers _ h := absurd h List.not_mem_nil
  pending _ h := absurd h List.not_mem_nil
  lined _ h := by cases h
  durable _ h := absurd h List.not_mem_nil
  flush := trivial

variable {s : Store} {e : JournalEntry} {f : JournalFile}

theorem Sound.record (h : s.Sound) (now : Int) {entries : List JournalEntry}
    (hvalid : ∀ e ∈ entries, e.Valid) :
    ({ s with
      memory := entries.foldl (Registry.replayEntry now) s.memory
      pending := s.pending ++ [entries] } : Store).Sound where
  remembers e he := Registry.foldl_remembers now (Or.inl (h.remembers e he))
  pending batch hbatch e he := by
    rcases List.mem_append.mp hbatch with hbatch | hbatch
    · obtain ⟨hrem, hv⟩ := h.pending batch hbatch e he
      exact ⟨Registry.foldl_remembers now (Or.inl hrem), hv⟩
    · rw [List.mem_singleton.mp hbatch] at he
      exact ⟨Registry.foldl_remembers now (Or.inr he), hvalid e he⟩
  lined := h.lined
  durable := h.durable
  flush := h.flush

/-- The file the journal is written to. -/
theorem Sound.lined_live (h : s.Sound) : (s.live.getD .empty).Lined := by
  cases hlive : s.live with
  | none => exact JournalFile.lined_empty
  | some f => exact h.lined f hlive

theorem InLive.holds (h : s.InLive e) : (s.live.getD .empty).Holds e := by
  obtain ⟨f, hf, hholds⟩ := h
  rw [hf]
  exact hholds

/-- The live journal grows, and what is newly acknowledged stands in it. -/
theorem Sound.grow (h : s.Sound) {pending : List (List JournalEntry)}
    (hpending : ∀ batch ∈ pending, batch ∈ s.pending) (hlined : f.Lined) (new : List JournalEntry)
    (hnew : ∀ e ∈ new, s.memory.Remembers e ∧ f.Holds e) (hkeeps : ∀ e, s.InLive e → f.Holds e) :
    ({ s with pending, live := some f, acked := s.acked ++ new } : Store).Sound := by
  set s' : Store := { s with pending, live := some f, acked := s.acked ++ new }
  have hlive : ∀ e, s.InLive e → s'.InLive e := fun e he => ⟨f, rfl, hkeeps e he⟩
  have hadded : ∀ e ∈ new, s'.InLive e := fun e he => ⟨f, rfl, (hnew e he).2⟩
  refine ⟨fun e he => ?_, fun batch hb => h.pending batch (hpending batch hb), ?_,
    fun e he => ?_, ?_⟩
  · exact (List.mem_append.mp he).elim (h.remembers e) fun he => (hnew e he).1
  · intro f' hf'
    cases hf'
    exact hlined
  · rcases List.mem_append.mp he with he | he
    · rcases h.durable e he with hd | hd | hd
      · exact Or.inl hd
      · exact Or.inr (Or.inl hd)
      · exact Or.inr (Or.inr (hlive e hd))
    · exact Or.inr (Or.inr (hadded e he))
  · have hflush := h.flush
    show s'.FlushOk s.flush
    cases hphase : s.flush with
    | idle => trivial
    | rotated => trivial
    | copying todo copy =>
      rw [hphase] at hflush
      intro e he
      rcases List.mem_append.mp he with he | he
      · exact (hflush e he).imp_left (hlive e)
      · exact Or.inl (hadded e he)
    | replaced =>
      rw [hphase] at hflush
      intro e he
      rcases List.mem_append.mp he with he | he
      · exact (hflush e he).imp_left (hlive e)
      · exact Or.inl (hadded e he)

theorem Sound.journal {s' : Store} (h : s.Sound) {i written : Nat} {syncs : Bool}
    (hat : (s.live.getD .empty).AtLine) (hstep : s.step (.journal i written syncs) = some s') :
    s'.Sound := by
  obtain ⟨entries, hentries, hstep⟩ := Option.bind_eq_some_iff.mp hstep
  dsimp only at hstep
  have hmem : entries ∈ s.pending := List.mem_of_getElem? hentries
  have hsub : ∀ batch ∈ s.pending.eraseIdx i, batch ∈ s.pending :=
    fun batch hb => List.mem_of_mem_eraseIdx hb
  have hvalid : ∀ e ∈ entries, e.Valid := fun e he => (h.pending entries hmem e he).2
  split at hstep
  · cases hstep
    exact ⟨h.remembers, fun batch hb => h.pending batch (hsub batch hb), h.lined,
      h.durable, h.flush⟩
  · have hlined := h.lined_live.write hat hvalid written
    split at hstep
    · rename_i hwhole
      cases hstep
      have htake : (encodeLines entries).take written = encodeLines entries :=
        List.take_of_length_le hwhole.1
      refine h.grow hsub (hlined _) entries (fun e he => ⟨(h.pending entries hmem e he).1, ?_⟩) ?_
      · rw [htake]
        exact h.lined_live.holds_written hat hvalid he
      · exact fun e he => he.holds.extend _ (Or.inr rfl)
    · cases hstep
      have := h.grow hsub (hlined (s.live.getD .empty).synced) [] (fun e he => nomatch he) ?_
      · rwa [List.append_nil] at this
      · exact fun e he => he.holds.extend _ (Or.inl rfl)

/-- The rename moves the live journal to where nothing is lost. -/
theorem Sound.rotate (h : s.Sound) (hlive : s.live = some f)
    (hcareful : ∀ f ∈ s.rotated, ∀ e ∈ replayed f.text, s.InSnapshot e) :
    ({ s with rotated := some f, live := none, flush := .rotated } : Store).Sound where
  remembers := h.remembers
  pending := h.pending
  lined _ hf := by cases hf
  durable e he := by
    rcases h.durable e he with hd | ⟨f', hf', hd⟩ | ⟨f', hf', hd⟩
    · exact Or.inl hd
    · exact Or.inl (hcareful f' hf' e hd.replayed)
    · obtain rfl := Option.some.inj (hlive.symm.trans hf')
      exact Or.inr (Or.inl ⟨f, rfl, hd⟩)
  flush := trivial

/-- Once every producer is copied, the copy may take the place of `producers.json`. -/
theorem Sound.replace (h : s.Sound) {copy : Registry} (hphase : s.flush = .copying [] copy)
    {phase : FlushPhase} (hnext : phase = .idle ∨ phase = .replaced) :
    ({ s with snapshot := some copy, flush := phase } : Store).Sound := by
  have hflush := h.flush
  rw [hphase] at hflush
  have hcopied : ∀ e ∈ s.acked, s.InLive e ∨ copy.Remembers e := by
    intro e he
    rcases hflush e he with hl | htodo | hcopy
    · exact Or.inl hl
    · exact absurd htodo List.not_mem_nil
    · exact Or.inr hcopy
  refine ⟨h.remembers, h.pending, h.lined, fun e he => ?_, ?_⟩
  · rcases hcopied e he with hl | hcopy
    · exact Or.inr (Or.inr hl)
    · exact Or.inl ⟨copy, rfl, hcopy⟩
  · rcases hnext with rfl | rfl
    · trivial
    · exact fun e he => (hcopied e he).imp_right fun hcopy => ⟨copy, rfl, hcopy⟩

/-- What is on disk is remembered by the registry that is opened from it. -/
theorem opened_remembers (now : Int) (h : s.InSnapshot e ∨ s.InRotated e ∨ s.InLive e) :
    (s.opened now).Remembers e := by
  rcases h with ⟨reg, hreg, hrem⟩ | ⟨f, hf, hholds⟩ | hlive
  · refine Registry.foldl_remembers now (Or.inl (Registry.foldl_remembers now (Or.inl ?_)))
    rw [hreg]
    exact hrem.load now
  · refine Registry.foldl_remembers now (Or.inl (Registry.foldl_remembers now (Or.inr ?_)))
    rw [hf]
    exact hholds.replayed
  · exact Registry.foldl_remembers now (Or.inr hlive.holds.replayed)

theorem Sound.reopen (h : s.Sound) (now : Int) (rotatedLen liveLen : Nat) :
    ({ s.crashed rotatedLen liveLen with
      memory := (s.crashed rotatedLen liveLen).opened now } : Store).Sound := by
  set c := s.crashed rotatedLen liveLen
  have hdurable : ∀ e ∈ s.acked, c.InSnapshot e ∨ c.InRotated e ∨ c.InLive e := by
    intro e he
    rcases h.durable e he with hd | ⟨f, hf, hd⟩ | ⟨f, hf, hd⟩
    · exact Or.inl hd
    · exact Or.inr (Or.inl ⟨_, congrArg (Option.map _) hf, hd.cut rotatedLen⟩)
    · exact Or.inr (Or.inr ⟨_, congrArg (Option.map _) hf, hd.cut liveLen⟩)
  refine ⟨fun e he => opened_remembers now (hdurable e he), fun _ hb => absurd hb List.not_mem_nil,
    fun f hf => ?_, hdurable, trivial⟩
  obtain ⟨f₀, hf₀, rfl⟩ := Option.map_eq_some_iff.mp hf
  exact (h.lined f₀ hf₀).cut liveLen

theorem Sound.step {s s' : Store} {e : Event} (h : s.Sound) (hcareful : s.Careful e)
    (hstep : s.step e = some s') : s'.Sound := by
  cases e with
  | record now entries =>
    obtain ⟨hvalid, hstep⟩ := Option.ite_none_right_eq_some.mp hstep
    cases hstep
    exact h.record now hvalid
  | journal i written syncs => exact h.journal hcareful hstep
  | rotate renames =>
    dsimp only [Store.step] at hstep
    split at hstep
    · split at hstep
      · cases hstep
        exact ⟨h.remembers, h.pending, h.lined, h.durable, trivial⟩
      · rename_i f hlive
        split at hstep
        · rename_i hrenames
          cases hstep
          subst hrenames
          exact h.rotate hlive (hcareful (by rw [hlive]; exact Option.some_ne_none f))
        · cases hstep
          exact h
    · cases hstep
  | collect =>
    dsimp only [Store.step] at hstep
    split at hstep
    · cases hstep
      exact ⟨h.remembers, h.pending, h.lined, h.durable,
        fun e he => Or.inr (Or.inl (h.remembers e he).1)⟩
    · cases hstep
  | copy =>
    dsimp only [Store.step] at hstep
    split at hstep
    · rename_i pid todo copy hphase
      cases hstep
      have hflush := h.flush
      rw [hphase] at hflush
      refine ⟨h.remembers, h.pending, h.lined, h.durable, fun e he => ?_⟩
      have hmem : s.memory.Remembers e := h.remembers e he
      rcases hflush e he with hl | htodo | hrem
      · exact Or.inl hl
      · rcases List.mem_cons.mp htodo with hp | htodo
        · exact Or.inr (Or.inr (hmem.copy (Or.inl hp)))
        · exact Or.inr (Or.inl htodo)
      · exact Or.inr (Or.inr (hmem.copy (Or.inr hrem)))
    · cases hstep
  | write result =>
    dsimp only [Store.step] at hstep
    split at hstep
    · rename_i copy hphase
      cases result with
      | before =>
        cases hstep
        exact ⟨h.remembers, h.pending, h.lined, h.durable, trivial⟩
      | behind =>
        cases hstep
        exact h.replace hphase (Or.inl rfl)
      | ok =>
        cases hstep
        exact h.replace hphase (Or.inr rfl)
    · cases hstep
  | remove removes =>
    dsimp only [Store.step] at hstep
    split at hstep
    · rename_i hphase
      cases hstep
      have hflush := h.flush
      rw [hphase] at hflush
      refine ⟨h.remembers, h.pending, h.lined, fun e he => ?_, trivial⟩
      rcases hflush e he with hl | hs
      · exact Or.inr (Or.inr hl)
      · exact Or.inl hs
    · cases hstep
  | reopen now rotatedLen liveLen =>
    cases hstep
    exact h.reopen now rotatedLen liveLen

theorem sound_of_safe (h : s.Safe) : s.Sound := h.keeps .empty Sound.step

end Store

/-- What was journaled is never accepted again, after any number of failures, crashes and opens
in which no journal is lost and no line torn on. -/
theorem journaled_not_accepted {s : Store} (h : s.Safe) {e : JournalEntry} (he : e ∈ s.acked)
    (hmax : e.s < i64Max) :
    ∃ st, s.memory.slots e.p = some st ∧ st.check e.t e.n e.s ≠ .accept := by
  obtain ⟨-, st, hst, hrem⟩ := (Store.sound_of_safe h).remembers e he
  exact ⟨st, hst, hrem.check_ne_accept hmax⟩

/-- The step is careful for the simplest of reasons: no journal was left aside. -/
def Store.calm (s : Store) : Event → Bool
  | .journal _ _ _ => (s.live.getD .empty).AtLine
  | .rotate _ => s.rotated.isNone
  | _ => true

variable {s : Store}

theorem Store.careful_of_calm {e : Event} (h : s.calm e = true) : s.Careful e := by
  cases e with
  | journal i written syncs =>
    have hat : (s.live.getD .empty).AtLine := of_decide_eq_true h
    exact hat
  | rotate renames =>
    cases renames with
    | false => trivial
    | true =>
      intro _ f hf
      rw [Option.isNone_iff_eq_none.mp h] at hf
      cases hf
  | _ => trivial

/-- A run with every step checked for `calm`. -/
def Store.runCalm : Store → List Event → Option Store := Runs.replay step fun s e => s.calm e

theorem Store.safe_of_runCalm {es : List Event} (h : Store.empty.runCalm es = some s) : s.Safe :=
  (Runs.of_replay h).mono fun _ _ => careful_of_calm

end

def firstEntry : JournalEntry := ⟨"producer", "key", "t", 0, 5, 0⟩
def secondEntry : JournalEntry := ⟨"producer", "key", "t", 1, 0, 0⟩

/-- A flush replaces `producers.json` and reports an error, a further line is torn, and the
process ends. -/
def tornAfterFlush : List Event :=
  [.record 1 [firstEntry], .journal 0 100 true, .rotate true, .collect, .copy, .write .behind,
    .record 2 [secondEntry], .journal 0 10 true, .reopen 3 0 5]

theorem tornAfterFlush_runs : (Store.empty.runCalm tornAfterFlush).isSome = true := by
  decide +kernel

theorem journaled_not_accepted_torn : ∃ s : Store, s.Safe ∧ firstEntry ∈ s.acked ∧
    ∃ st, s.memory.slots "producer" = some st ∧ st.check "t" 0 5 ≠ .accept := by
  have h := Store.safe_of_runCalm (Option.some_get tornAfterFlush_runs).symm
  have hacked :
      firstEntry ∈ ((Store.empty.runCalm tornAfterFlush).get tornAfterFlush_runs).acked := by
    decide +kernel
  exact ⟨_, h, hacked, journaled_not_accepted h hacked (by decide)⟩

/-! ### Two ways to forget -/

/-- A flush renames the journal and fails to write `producers.json`; the next one renames the new
journal over it, and the process ends before it has written either. -/
def renamedOver : List Event :=
  [.record 1 [firstEntry], .journal 0 100 true, .rotate true, .collect, .copy, .write .before,
    .record 2 [secondEntry], .journal 0 100 true, .rotate true, .reopen 3 0 0]

/-- The first sequence is then accepted again. -/
theorem renamed_journal_forgets : ∃ s, Store.empty.run renamedOver = some s ∧
    firstEntry ∈ s.acked ∧
    (s.memory.slots "producer").map (fun st => st.check "t" 0 5) = some .accept :=
  exists_of_any (by decide +kernel)

end EventStream.Producers
