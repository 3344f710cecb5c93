import EventStream.Schema.Registry

/-! What the registry knows after a restart.

The file holds the registered versions, so opening finds them all; which of them is a subject's
latest depends on their order in the file. As long as every flush writes the newest version of
each subject behind its older ones, the opened registry is the one that was closed
(`versions_survive_restart`). -/
namespace EventStream.Schema

/-- The last version of a subject in a list. -/
def newest (entries : List SchemaEntry) (subject : String) : Option SchemaEntry :=
  (entries.filter (·.subject = subject)).getLast?

theorem newest_cons (e : SchemaEntry) (entries : List SchemaEntry) (subject : String) :
    newest (e :: entries) subject =
      (newest entries subject).or (if e.subject = subject then some e else none) := by
  unfold newest
  by_cases hs : e.subject = subject
  · rw [List.filter_cons_of_pos (by simpa using hs), if_pos hs, List.getLast?_cons]
    cases (entries.filter (·.subject = subject)).getLast? <;> rfl
  · rw [List.filter_cons_of_neg (by simpa using hs), if_neg hs, Option.or_none]

theorem newest_concat (entries : List SchemaEntry) (e : SchemaEntry) (subject : String) :
    newest (entries ++ [e]) subject =
      if e.subject = subject then some e else newest entries subject := by
  unfold newest
  by_cases hs : e.subject = subject
  · rw [List.filter_append, List.filter_cons_of_pos (by simpa using hs), if_pos hs,
      List.filter_nil, List.getLast?_concat]
  · rw [List.filter_append, List.filter_cons_of_neg (by simpa using hs), if_neg hs,
      List.filter_nil, List.append_nil]

variable {entries registered : List SchemaEntry} {subject : String}

theorem mem_of_newest {e : SchemaEntry} (h : newest entries subject = some e) :
    e ∈ entries ∧ e.subject = subject := by
  obtain ⟨hmem, hs⟩ := List.mem_filter.mp (List.mem_of_getLast? h)
  exact ⟨hmem, of_decide_eq_true hs⟩

theorem newest_eq_none : newest entries subject = none ↔ ∀ e ∈ entries, e.subject ≠ subject := by
  rw [newest, List.getLast?_eq_none_iff, List.filter_eq_nil_iff]
  simp

/-! ### Opening -/

/-- No two versions have one id. -/
def Numbered (entries : List SchemaEntry) : Prop :=
  ∀ a ∈ entries, ∀ b ∈ entries, a.id = b.id → a = b

theorem numbered_of_increasing (h : entries.Pairwise fun a b => a.id < b.id) :
    Numbered entries := by
  intro a ha b hb hid
  obtain ⟨i, hi, rfl⟩ := List.getElem_of_mem ha
  obtain ⟨j, hj, rfl⟩ := List.getElem_of_mem hb
  have hlt := List.pairwise_iff_getElem.mp h
  rcases Nat.lt_trichotomy i j with hij | rfl | hij
  · exact absurd hid (hlt i j hi hj hij).ne
  · rfl
  · exact absurd hid (hlt j i hj hi hij).ne'

theorem mem_foldl_insertEntry {acc : List SchemaEntry} (h : Numbered (acc ++ entries))
    (e : SchemaEntry) : e ∈ entries.foldl insertEntry acc ↔ e ∈ acc ∨ e ∈ entries := by
  induction entries generalizing acc with
  | nil => simp
  | cons x entries ih =>
    have hmem : ∀ y, y ∈ insertEntry acc x ↔ y = x ∨ y ∈ acc := by
      intro y
      rw [insertEntry, List.mem_cons, List.mem_filter, decide_eq_true_eq]
      refine or_congr_right' fun hne => ⟨fun hy => hy.1, fun hy => ⟨hy, fun hid => hne ?_⟩⟩
      exact h y (List.mem_append_left _ hy) x
        (List.mem_append_right _ List.mem_cons_self) hid
    have hrest : Numbered (insertEntry acc x ++ entries) := by
      have hsub : ∀ y ∈ insertEntry acc x ++ entries, y ∈ acc ++ x :: entries := by
        intro y hy
        rcases List.mem_append.mp hy with hy | hy
        · rcases (hmem y).mp hy with rfl | hy
          · exact List.mem_append_right _ List.mem_cons_self
          · exact List.mem_append_left _ hy
        · exact List.mem_append_right _ (List.mem_cons_of_mem _ hy)
      exact fun a ha b hb => h a (hsub a ha) b (hsub b hb)
    rw [List.foldl_cons, ih hrest, hmem, List.mem_cons]
    tauto

theorem foldl_setSubject (entries : List SchemaEntry) (m : String → Option Nat) (subject : String) :
    entries.foldl (fun m e => setSubject m e.subject (some e.id)) m subject =
      ((newest entries subject).map (·.id)).or (m subject) := by
  induction entries generalizing m with
  | nil => rfl
  | cons e entries ih =>
    rw [List.foldl_cons, ih, newest_cons]
    cases newest entries subject with
    | some x => rfl
    | none =>
      by_cases hs : e.subject = subject
      · rw [if_pos hs, ← hs]
        exact Function.update_self ..
      · rw [if_neg hs]
        exact Function.update_of_ne (Ne.symm hs) ..

/-- The registry holds the registered versions and knows the latest of each subject. -/
structure SchemaStore.Mirrors (s : SchemaStore) (registered : List SchemaEntry) : Prop where
  entries : ∀ e, e ∈ s.schemas ↔ e ∈ registered
  subjects : ∀ subject, s.subjects subject = (newest registered subject).map (·.id)
  ids : ∀ e ∈ registered, e.id < s.nextId

/-- The file holds the registered versions, each subject's newest last. -/
structure PersistedSchemas.Mirrors (f : PersistedSchemas) (registered : List SchemaEntry) : Prop
    where
  entries : ∀ e, e ∈ f.schemas ↔ e ∈ registered
  newest : ∀ subject, newest f.schemas subject = Schema.newest registered subject
  ids : ∀ e ∈ registered, e.id < f.nextId

theorem PersistedSchemas.Mirrors.open {file : Option PersistedSchemas}
    (h : (file.getD ⟨1, []⟩).Mirrors registered) (hnumbered : Numbered registered) :
    (SchemaStore.open file).Mirrors registered := by
  have hnumbered' : Numbered ([] ++ (file.getD ⟨1, []⟩).schemas) := fun a ha b hb =>
    hnumbered a ((h.entries a).mp ha) b ((h.entries b).mp hb)
  refine ⟨fun e => ?_, fun subject => ?_, h.ids⟩
  · refine (mem_foldl_insertEntry hnumbered' e).trans ?_
    rw [← h.entries, or_iff_right List.not_mem_nil]
  · refine (foldl_setSubject ..).trans ?_
    rw [h.newest, Option.or_none]

theorem SchemaStore.Mirrors.latestVersion {s : SchemaStore} (h : s.Mirrors registered)
    (hnumbered : Numbered registered) (subject : String) :
    s.latestVersion subject = newest registered subject := by
  unfold SchemaStore.latestVersion
  rw [h.subjects]
  cases hnew : newest registered subject with
  | none => rfl
  | some e =>
    have he := (mem_of_newest hnew).1
    show s.schemas.find? (·.id = e.id) = some e
    cases hfind : s.schemas.find? (·.id = e.id) with
    | none =>
      have hnone := List.find?_eq_none.mp hfind e ((h.entries e).mpr he)
      exact absurd (decide_eq_true rfl) hnone
    | some x =>
      have hx := (h.entries x).mp (List.mem_of_find?_eq_some hfind)
      have hid : x.id = e.id := by simpa using List.find?_some hfind
      rw [hnumbered x hx e he hid]

/-- What a flush writes. -/
theorem SchemaStore.Mirrors.flush {store : SchemaStore} {order : List SchemaEntry}
    (h : store.Mirrors registered) (hnumbered : Numbered registered)
    (hperm : order.Perm store.schemas)
    (hlast : ∀ e ∈ order, (newest order e.subject).map (·.id) = store.subjects e.subject) :
    PersistedSchemas.Mirrors ⟨store.nextId, order⟩ registered := by
  have hmem : ∀ e, e ∈ order ↔ e ∈ registered := fun e => hperm.mem_iff.trans (h.entries e)
  refine ⟨hmem, fun s => ?_, h.ids⟩
  show newest order s = newest registered s
  cases hnew : newest order s with
  | none =>
    refine (newest_eq_none.mpr fun e he => ?_).symm
    exact newest_eq_none.mp hnew e ((hmem e).mpr he)
  | some e =>
    obtain ⟨he, rfl⟩ := mem_of_newest hnew
    have hid := (hlast e he).trans (h.subjects e.subject)
    rw [hnew] at hid
    obtain ⟨x, hx, hxid⟩ := Option.map_eq_some_iff.mp hid.symm
    rw [hx, hnumbered x (mem_of_newest hx).1 e ((hmem e).mp he) hxid]

/-! ### Runs -/

namespace World

/-- The step does not wrap the counter, does not fail to write a file that it has replaced, and
writes each subject's newest version behind its older ones. -/
def Orderly (w : World) : Event → Prop
  | .register subject _ _ _ order flushed =>
    w.store.nextId + 1 < 2 ^ 32 ∧ flushed ≠ .failedLate ∧
      ∀ e ∈ order, (newest order e.subject).map (·.id) =
        setSubject w.store.subjects subject (some w.store.nextId) e.subject
  | .reopen => True

instance (w : World) (e : Event) : Decidable (w.Orderly e) := by
  cases e <;> unfold Orderly <;> infer_instance

/-- The registries that orderly steps bring about. -/
abbrev OrderlyRun (fromStr : String → Except String Json) : World → Prop :=
  Runs (step fromStr) Orderly .empty

/-- Memory and file tell of the registered versions, and ids go up. -/
structure Sound (w : World) : Prop where
  increasing : w.registered.Pairwise fun a b => a.id < b.id
  store : w.store.Mirrors w.registered
  file : (w.file.getD ⟨1, []⟩).Mirrors w.registered

theorem Sound.empty : Sound .empty where
  increasing := List.Pairwise.nil
  store := ⟨fun _ => Iff.rfl, fun _ => rfl, fun _ he => absurd he List.not_mem_nil⟩
  file := ⟨fun _ => Iff.rfl, fun _ => rfl, fun _ he => absurd he List.not_mem_nil⟩

section Register
variable {w : World} {subject schema : String} {kind : SchemaType} {now : Int64}
  {entry : SchemaEntry} {store : SchemaStore}

/-- The registry with one more version. -/
theorem Sound.add (h : w.Sound) (hadd : w.store.add subject kind schema now = (entry, store))
    (hwrap : w.store.nextId + 1 < 2 ^ 32) :
    (w.registered ++ [entry]).Pairwise (fun a b => a.id < b.id) ∧
      store.Mirrors (w.registered ++ [entry]) := by
  cases hadd
  have hfresh : ∀ e ∈ w.store.schemas, e.id ≠ w.store.nextId := fun e he =>
    (h.store.ids e ((h.store.entries e).mp he)).ne
  refine ⟨List.pairwise_append.mpr ⟨h.increasing, List.pairwise_singleton _ _, fun a ha b hb => ?_⟩,
    fun e => ?_, fun s => ?_, fun e he => ?_⟩
  · rw [List.mem_singleton.mp hb]
    exact h.store.ids a ha
  · rw [insertEntry, List.filter_eq_self.mpr fun e he => decide_eq_true (hfresh e he),
      List.mem_cons, List.mem_append, List.mem_singleton, h.store.entries, or_comm]
  · rw [newest_concat]
    by_cases hs : subject = s
    · rw [if_pos hs, ← hs]
      exact Function.update_self ..
    · rw [if_neg hs, ← h.store.subjects]
      exact Function.update_of_ne (Ne.symm hs) ..
  · show e.id < (w.store.nextId + 1) % 2 ^ 32
    rw [Nat.mod_eq_of_lt hwrap]
    rcases List.mem_append.mp he with he | he
    · exact Nat.lt_succ_of_lt (h.store.ids e he)
    · rw [List.mem_singleton.mp he]
      exact Nat.lt_succ_self _

/-- Taking the version back leaves the registry as it was, but for the counter. -/
theorem Sound.remove (h : w.Sound) (hadd : w.store.add subject kind schema now = (entry, store))
    (hwrap : w.store.nextId + 1 < 2 ^ 32) :
    (store.remove entry (w.store.subjects subject)).Mirrors w.registered := by
  cases hadd
  have hfresh : ∀ e ∈ w.store.schemas, e.id ≠ w.store.nextId := fun e he =>
    (h.store.ids e ((h.store.entries e).mp he)).ne
  refine ⟨fun e => ?_, fun s => ?_, fun e he => ?_⟩
  · rw [← h.store.entries]
    simp only [SchemaStore.remove, insertEntry, List.mem_filter, List.mem_cons, decide_eq_true_eq]
    refine ⟨fun ⟨hmem, hne⟩ => ?_, fun hmem => ⟨Or.inr ⟨hmem, hfresh e hmem⟩, hfresh e hmem⟩⟩
    rcases hmem with rfl | ⟨hmem, -⟩
    · exact absurd rfl hne
    · exact hmem
  · rw [← h.store.subjects]
    show setSubject (setSubject w.store.subjects subject _) subject _ s = _
    rw [setSubject, setSubject, Function.update_idem, Function.update_eq_self]
  · show e.id < (w.store.nextId + 1) % 2 ^ 32
    rw [Nat.mod_eq_of_lt hwrap]
    exact Nat.lt_succ_of_lt (h.store.ids e he)

end Register

theorem Sound.step {fromStr : String → Except String Json} {w w' : World} {e : Event} (h : w.Sound)
    (ho : w.Orderly e) (hs : w.step fromStr e = some w') : w'.Sound := by
  cases e with
  | reopen =>
    cases hs
    exact ⟨h.increasing, h.file.open (numbered_of_increasing h.increasing), h.file⟩
  | register subject schemaType schema now order flushed =>
    obtain ⟨hwrap, hlate, hlast⟩ := ho
    dsimp only [World.step] at hs
    split at hs
    · cases hs
      exact h
    · rename_i kind _
      obtain ⟨hperm, hs⟩ := Option.ite_none_right_eq_some.mp hs
      have hadd : w.store.add subject kind schema now = (_, _) := rfl
      cases flushed with
      | ok =>
        cases hs
        obtain ⟨hincreasing, hstore⟩ := h.add hadd hwrap
        exact ⟨hincreasing, hstore, hstore.flush (numbered_of_increasing hincreasing)
          (List.isPerm_iff.mp hperm) hlast⟩
      | failed =>
        cases hs
        exact ⟨h.increasing, h.remove hadd hwrap, h.file⟩
      | failedLate => exact absurd rfl hlate

end World

/-- **Versions survive a restart**: the registry opened over the file has, for every subject, the
version registered last, and numbers the next one behind all of them. -/
theorem versions_survive_restart {fromStr : String → Except String Json} {w : World}
    (h : w.OrderlyRun fromStr) :
    (∀ subject, (SchemaStore.open w.file).latestVersion subject = newest w.registered subject) ∧
      ∀ e ∈ w.registered, e.id < (SchemaStore.open w.file).nextId := by
  have hsound : w.Sound := h.keeps .empty fun h ho hs => h.step ho hs
  have hnumbered := numbered_of_increasing hsound.increasing
  have hopen := hsound.file.open hnumbered
  exact ⟨hopen.latestVersion hnumbered, hopen.ids⟩

/-! ### Two versions of a subject -/

abbrev World.run (fromStr : String → Except String Json) (w : World) (es : List Event) :
    Option World :=
  es.foldlM (World.step fromStr) w

/-- A parser, as far as documents without content go. -/
def emptyDocument (text : String) : Except String Json :=
  if text = "\x7b\x7d" ∨ text = "\x7b \x7d" then .ok (.obj []) else .error "expected value"

def firstVersion : SchemaEntry := ⟨1, "s", .jsonSchema, "\x7b\x7d", 0⟩
def secondVersion : SchemaEntry := ⟨2, "s", .jsonSchema, "\x7b \x7d", 0⟩

/-- Two versions of a subject are registered; the second flush has the map in this order. -/
def twoVersions (order : List SchemaEntry) : List Event :=
  [.register "s" "json_schema" "\x7b\x7d" 0 [firstVersion] .ok,
    .register "s" "json_schema" "\x7b \x7d" 0 order .ok]

theorem inOrder_runs : (Runs.replay (World.step emptyDocument) World.Orderly .empty
    (twoVersions [firstVersion, secondVersion])).isSome := by
  decide +kernel

def inOrder : World :=
  (Runs.replay (World.step emptyDocument) World.Orderly .empty
    (twoVersions [firstVersion, secondVersion])).get inOrder_runs

theorem versions_survive_restart_two :
    newest inOrder.registered "s" = some secondVersion ∧
      (SchemaStore.open inOrder.file).latestVersion "s" = newest inOrder.registered "s" :=
  ⟨by decide +kernel,
    (versions_survive_restart (Runs.of_replay (Option.some_get inOrder_runs).symm)).1 "s"⟩

/-- If the newer version comes first, the older one is the latest after the restart. -/
theorem older_version_returns :
    (World.empty.run emptyDocument (twoVersions [secondVersion, firstVersion] ++ [.reopen])).map
        (fun w => (newest w.registered "s", w.store.latestVersion "s")) =
      some (some secondVersion, some firstVersion) := by
  decide +kernel

end EventStream.Schema
