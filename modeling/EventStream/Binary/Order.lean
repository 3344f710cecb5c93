import Mathlib.Logic.Function.Basic
import EventStream.Machine
import EventStream.Binary.Wire

/-! The order of pipelined produces (`serve` and `process` in `binary/server.rs`).

The frame loop spawns a task for every request it accepts. A produce waits for the signal of the
produce before it on its topic, which the loop keeps in a map and replaces; the signal is given
when `process` has returned, however it returned. The budget and the slots of a connection only
hold tasks up, so that they are left out here: every schedule they allow is one of these.

`dataplane::produce` writes to its partitions at the same time, each write on a thread of its own,
and returns at the first that fails. The others go on, and may end up behind those of the next
request (`overtaken_after_failure`). -/
namespace EventStream.Binary.Order

/-- The opcodes the loop tells apart. -/
inductive Opcode where
  | ping
  | produce
  | consume
  | other
  deriving DecidableEq, Repr

/-- A frame, its payload as it is after decompression. -/
structure Frame where
  opcode : Opcode
  payload : Bytes
  deriving DecidableEq, Repr

/-- How far a task has come. -/
inductive Phase where
  /-- The task waits for the signal of the previous produce. -/
  | spawned
  | processing
  /-- `process` has returned and the signal was given. -/
  | done
  deriving DecidableEq, Repr

/-- A request that was accepted. -/
structure Task where
  frame : Frame
  /-- The chain of a produce. -/
  topic : Option String
  prev : Option Nat
  phase : Phase
  /-- Partitions still to be written to, with the number of records. -/
  writes : List (Nat × Nat)
  failed : Bool
  deriving DecidableEq, Repr

/-- Records of a task on a partition, and the offset of the first. -/
structure Written where
  task : Nat
  partition : Nat
  count : Nat
  base : Nat
  deriving DecidableEq, Repr

/-- A connection and the partitions it writes to. -/
structure Conn where
  /-- The accepted requests in the order of their frames. -/
  tasks : List Task
  chains : String → Option Nat
  /-- The next offset of a partition. -/
  next : Nat → Nat
  written : List Written

/-! ### The topic of a request -/

/-- A string behind its two bytes of length. -/
def peekStr : Reading.Reader UInt8 String String := do
  let len ← Reading.take "failed to fill whole buffer" 2
  let raw ← Reading.take "failed to fill whole buffer" (beNat len)
  match String.fromUTF8? ⟨raw.toArray⟩ with
  | some s => return s
  | none => Reading.fail "topic is not utf-8"

/-- The topic named at the head of a payload. -/
def peekTopic (payload : Bytes) : Except String String := (peekStr payload).map Prod.fst

theorem peekStr_of_getStr {bs rest : Bytes} {s : String} (h : getStr bs = .ok (s, rest)) :
    peekStr bs = .ok (s, rest) := by
  obtain ⟨n, bs₁, hlen, h⟩ := Reading.bind_eq_ok.mp h
  obtain ⟨raw, bs₂, hraw, hutf⟩ := Reading.bind_eq_ok.mp h
  obtain ⟨len, bs₁', htwo, hn⟩ := Reading.bind_eq_ok.mp hlen
  obtain ⟨rfl, rfl⟩ := Prod.mk.inj (Except.ok.inj hn)
  obtain ⟨hle, rfl, rfl⟩ := Reading.take_eq_ok.mp htwo
  -- the two bytes are the length as they are
  have hnat : (UInt16.ofNat (beNat (bs.take 2))).toNat = beNat (bs.take 2) := by
    refine UInt16.toNat_ofNat_of_lt' ((beNat_lt _).trans_eq ?_)
    rw [List.length_take, Nat.min_eq_left hle]
    rfl
  rw [hnat] at hraw
  refine Reading.bind_eq_ok.mpr ⟨_, _, Reading.take_eq_ok.mpr ⟨hle, rfl, rfl⟩,
    Reading.bind_eq_ok.mpr ⟨raw, bs₂, Reading.take_eq_ok.mpr (Reading.take_eq_ok.mp hraw), ?_⟩⟩
  cases hs : String.fromUTF8? ⟨raw.toArray⟩ with
  | none =>
    simp only [fromUtf8, hs] at hutf
    cases hutf
  | some s' =>
    simp only [fromUtf8, hs] at hutf
    obtain ⟨rfl, rfl⟩ := Prod.mk.inj (Except.ok.inj hutf)
    rfl

/-- A request is read with the topic that its head was seen to name. -/
theorem peekTopic_of_decode {payload : Bytes} {req : WireProduceRequest}
    (h : decodeProduceRequest payload = .ok req) : peekTopic payload = .ok req.topic := by
  obtain ⟨⟨req', rest⟩, hread, rfl⟩ : ∃ x, getProduceRequest payload = .ok x ∧ x.1 = req := by
    have h : (getProduceRequest payload).map Prod.fst = .ok req := h
    cases hread : getProduceRequest payload with
    | error e => simp [hread, Except.map] at h
    | ok x => exact ⟨x, rfl, by simpa [hread, Except.map] using h⟩
  obtain ⟨topic, _, htopic, h⟩ := Reading.bind_eq_ok.mp hread
  obtain ⟨_, _, -, h⟩ := Reading.bind_eq_ok.mp h
  obtain ⟨_, _, -, h⟩ := Reading.bind_eq_ok.mp h
  obtain ⟨_, _, -, h⟩ := Reading.bind_eq_ok.mp h
  obtain ⟨rfl, -⟩ := Prod.mk.inj (Except.ok.inj h)
  rw [peekTopic, peekStr_of_getStr htopic]
  rfl

/-! ### Steps -/

/-- What the frame loop, a task or one of its writes does next. -/
inductive Event where
  | frame (f : Frame)
  | start (t : Nat)
  /-- `dataplane::produce` hands its writes to their threads. -/
  | submit (t : Nat) (writes : List (Nat × Nat))
  | land (t partition count : Nat)
  | fail (t partition count : Nat)
  | finish (t : Nat)
  /-- Another connection writes. -/
  | foreign (partition count : Nat)
  deriving DecidableEq, Repr

namespace Conn

/-- A connection to a broker whose partitions are at these offsets. -/
def opened (next : Nat → Nat) : Conn :=
  { tasks := [], chains := fun _ => none, next, written := [] }

def setTask (w : Conn) (t : Nat) (task : Task) : Conn := { w with tasks := w.tasks.set t task }

/-- The sender of the signal was dropped. -/
def isDone (w : Conn) (t : Nat) : Bool := w.tasks[t]?.any (·.phase = .done)

/-- An accepted request becomes a task; a produce takes its topic's place in the map. -/
def spawn (w : Conn) (f : Frame) (topic : String) : Conn :=
  match f.opcode with
  | .produce =>
    { w with
      tasks := w.tasks ++ [⟨f, some topic, w.chains topic, .spawned, [], false⟩]
      chains := Function.update w.chains topic (some w.tasks.length) }
  | _ => { w with tasks := w.tasks ++ [⟨f, none, none, .spawned, [], false⟩] }

/-- The loop answers pings, unexpected opcodes, undecodable and forbidden requests itself. -/
def frame (can : Opcode → String → Bool) (w : Conn) (f : Frame) : Conn :=
  match f.opcode with
  | .ping | .other => w
  | .produce | .consume =>
    match peekTopic f.payload with
    | .error _ => w
    | .ok topic => if can f.opcode topic then w.spawn f topic else w

def step (can : Opcode → String → Bool) (w : Conn) : Event → Option Conn
  | .frame f => some (w.frame can f)
  | .start t =>
    match w.tasks[t]? with
    | some task =>
      if task.phase = .spawned ∧ task.prev.all w.isDone then
        some (w.setTask t { task with phase := .processing })
      else none
    | none => none
  | .submit t writes =>
    match w.tasks[t]? with
    | some task =>
      if task.phase = .processing ∧ task.writes = [] then some (w.setTask t { task with writes })
      else none
    | none => none
  | .land t p n =>
    match w.tasks[t]? with
    | some task =>
      if (p, n) ∈ task.writes then
        some { w.setTask t { task with writes := task.writes.erase (p, n) } with
          next := Function.update w.next p (w.next p + n)
          written := w.written ++ [⟨t, p, n, w.next p⟩] }
      else none
    | none => none
  | .fail t p n =>
    match w.tasks[t]? with
    | some task =>
      if (p, n) ∈ task.writes then
        some (w.setTask t { task with writes := task.writes.erase (p, n), failed := true })
      else none
    | none => none
  | .finish t =>
    match w.tasks[t]? with
    | some task =>
      if task.phase = .processing ∧ (task.writes = [] ∨ task.failed) then
        some (w.setTask t { task with phase := .done })
      else none
    | none => none
  | .foreign p n => some { w with next := Function.update w.next p (w.next p + n) }

end Conn

/-- The connections that some interleaving of frames, tasks and writes brings about. -/
abbrev Run (can : Opcode → String → Bool) (next : Nat → Nat) : Conn → Prop :=
  Runs (Conn.step can) (fun _ _ => True) (.opened next)

/-! ### The invariant -/

/-- How the produces on a topic hang together. -/
structure Chain (w : Conn) : Prop where
  named : ∀ (t : Nat) (a : Task) topic, w.tasks[t]? = some a → a.frame.opcode = .produce →
    peekTopic a.frame.payload = .ok topic → a.topic = some topic
  /-- The map has the last of them. -/
  last : ∀ (t : Nat) (a : Task) topic, w.tasks[t]? = some a → a.topic = some topic →
    ∃ p, w.chains topic = some p ∧ t ≤ p
  chained : ∀ topic p, w.chains topic = some p →
    ∃ a : Task, w.tasks[p]? = some a ∧ a.topic = some topic
  /-- Each waits for one that is no earlier than any other before it. -/
  linked : ∀ (i j : Nat) (a b : Task) topic, i < j → w.tasks[i]? = some a → w.tasks[j]? = some b →
    a.topic = some topic → b.topic = some topic →
    ∃ (p : Nat) (c : Task), b.prev = some p ∧ i ≤ p ∧ p < j ∧ w.tasks[p]? = some c ∧
      c.topic = some topic
  /-- None waits for itself or a later one. -/
  behind : ∀ (t p : Nat) (a : Task), w.tasks[t]? = some a → a.prev = some p → p < t

/-- What every step keeps: produces on a topic are worked on one after the other, and what
they write lies in that order. -/
structure Inv (w : Conn) : Prop extends Chain w where
  ordered : ∀ (i j : Nat) (a b : Task) topic, i < j → w.tasks[i]? = some a →
    w.tasks[j]? = some b → a.topic = some topic → b.topic = some topic →
    b.phase ≠ .spawned → a.phase = .done
  /-- Only a task that was started writes. -/
  idle : ∀ (t : Nat) (a : Task), w.tasks[t]? = some a → a.phase = .spawned → a.writes = []
  /-- One that has returned without a failure has nothing left to write. -/
  settled : ∀ (t : Nat) (a : Task), w.tasks[t]? = some a → a.phase = .done → a.failed = false →
    a.writes = []
  started : ∀ x ∈ w.written, ∃ a : Task, w.tasks[x.task]? = some a ∧ a.phase ≠ .spawned
  below : ∀ x ∈ w.written, x.base + x.count ≤ w.next x.partition
  offsets : ∀ (i j : Nat) (a b : Task) topic, i < j → w.tasks[i]? = some a →
    w.tasks[j]? = some b → a.topic = some topic → b.topic = some topic → a.failed = false →
    ∀ x ∈ w.written, ∀ y ∈ w.written, x.task = i → y.task = j → x.partition = y.partition →
      x.base + x.count ≤ y.base

section
variable {w w' : Conn} {t j : Nat} {a a' b : Task} {can : Opcode → String → Bool}
    {chains : String → Option Nat}

/-- A task after one of them moved on. -/
theorem of_setTask {b' : Task} (ha : w.tasks[t]? = some a)
    (hsame : a'.frame = a.frame ∧ a'.topic = a.topic ∧ a'.prev = a.prev)
    (h : (w.setTask t a').tasks[j]? = some b') :
    ∃ b, w.tasks[j]? = some b ∧ b'.frame = b.frame ∧ b'.topic = b.topic ∧ b'.prev = b.prev ∧
      (j = t ∧ b' = a' ∧ b = a ∨ j ≠ t ∧ b' = b) := by
  rcases getElem?_set_cases h with ⟨rfl, rfl⟩ | ⟨hj, hb⟩
  · exact ⟨a, ha, hsame.1, hsame.2.1, hsame.2.2, .inl ⟨rfl, rfl, rfl⟩⟩
  · exact ⟨b', hb, rfl, rfl, rfl, .inr ⟨hj, rfl⟩⟩

theorem to_setTask (ha : w.tasks[t]? = some a) (htopic : a'.topic = a.topic)
    (h : w.tasks[j]? = some b) :
    ∃ b', (w.setTask t a').tasks[j]? = some b' ∧ b'.topic = b.topic ∧
      (j = t ∧ b' = a' ∨ b' = b) := by
  by_cases hj : j = t
  · subst hj
    rw [ha] at h
    cases h
    exact ⟨a', List.getElem?_set_self (List.getElem?_eq_some_iff.mp ha).1, htopic, .inl ⟨rfl, rfl⟩⟩
  · exact ⟨b, (List.getElem?_set_ne (Ne.symm hj)).trans h, rfl, .inr rfl⟩

theorem Chain.setTask (h : Chain w) (ha : w.tasks[t]? = some a)
    (hsame : a'.frame = a.frame ∧ a'.topic = a.topic ∧ a'.prev = a.prev) :
    Chain (w.setTask t a') where
  named := fun j b' topic hb' hop hpeek => by
    obtain ⟨b, hb, hf, ht, -⟩ := of_setTask ha hsame hb'
    rw [hf] at hop hpeek
    exact ht.trans (h.named j b topic hb hop hpeek)
  last := fun j b' topic hb' htopic => by
    obtain ⟨b, hb, -, ht, -⟩ := of_setTask ha hsame hb'
    exact h.last j b topic hb (ht ▸ htopic)
  chained := fun topic p hp => by
    obtain ⟨b, hb, htopic⟩ := h.chained topic p hp
    obtain ⟨b', hb', ht, -⟩ := to_setTask ha hsame.2.1 hb
    exact ⟨b', hb', ht.trans htopic⟩
  linked := fun i j b' c' topic hij hb' hc' hbt hct => by
    obtain ⟨b, hb, -, htb, -⟩ := of_setTask ha hsame hb'
    obtain ⟨c, hc, -, htc, hprev, -⟩ := of_setTask ha hsame hc'
    obtain ⟨p, d, hp, hip, hpj, hd, hdt⟩ := h.linked i j b c topic hij hb hc (htb ▸ hbt) (htc ▸ hct)
    obtain ⟨d', hd', ht, -⟩ := to_setTask ha hsame.2.1 hd
    exact ⟨p, d', hprev.trans hp, hip, hpj, hd', ht.trans hdt⟩
  behind := fun j p b' hb' hp => by
    obtain ⟨b, hb, -, -, hprev, -⟩ := of_setTask ha hsame hb'
    exact h.behind j p b hb (hprev.symm.trans hp)

/-- A task that may start has all produces before it on its topic behind it. -/
theorem Inv.start_ordered (h : Inv w) (ha : w.tasks[t]? = some a)
    (hprev : a.prev.all w.isDone = true) {i : Nat} {topic : String} (hi : i < t)
    (hb : w.tasks[i]? = some b) (hbt : b.topic = some topic) (hat : a.topic = some topic) :
    b.phase = .done := by
  obtain ⟨p, c, hp, hip, -, hc, hct⟩ := h.linked i t b a topic hi hb ha hbt hat
  have hdone : c.phase = .done := by simpa [hp, Conn.isDone, hc] using hprev
  rcases Nat.eq_or_lt_of_le hip with rfl | hlt
  · rw [hb] at hc
    exact Option.some.inj hc ▸ hdone
  · exact h.ordered i p b c topic hlt hb hc hbt hct (by rw [hdone]; nofun)

/-- A task moves on: it is not done before it was, and if it starts its turn has come. -/
theorem Inv.setTask (h : Inv w) (ha : w.tasks[t]? = some a)
    (hsame : a'.frame = a.frame ∧ a'.topic = a.topic ∧ a'.prev = a.prev)
    (hdone : a.phase = .done → a'.phase = .done) (hback : a.phase ≠ .spawned → a'.phase ≠ .spawned)
    (hturn : a.phase = .spawned → a'.phase ≠ .spawned → a.prev.all w.isDone = true)
    (hfailed : a'.failed = false → a.failed = false) (hidle : a'.phase = .spawned → a'.writes = [])
    (hsettled : a'.phase = .done → a'.failed = false → a'.writes = []) : Inv (w.setTask t a') where
  toChain := h.toChain.setTask ha hsame
  ordered := fun i j b' c' topic hij hb' hc' hbt hct hphase => by
    obtain ⟨b, hb, -, htb, -, hbcase⟩ := of_setTask ha hsame hb'
    obtain ⟨c, hc, -, htc, -, hccase⟩ := of_setTask ha hsame hc'
    rw [htb] at hbt
    rw [htc] at hct
    have hwas : b.phase = .done := by
      rcases hccase with ⟨rfl, rfl, rfl⟩ | ⟨-, rfl⟩
      · by_cases hspawned : c.phase = .spawned
        · exact h.start_ordered ha (hturn hspawned hphase) hij hb hbt hct
        · exact h.ordered i j b c topic hij hb hc hbt hct hspawned
      · exact h.ordered i j b c' topic hij hb hc hbt hct hphase
    rcases hbcase with ⟨-, rfl, rfl⟩ | ⟨-, rfl⟩
    · exact hdone hwas
    · exact hwas
  idle := fun j b' hb' hphase => by
    obtain ⟨b, hb, -, -, -, ⟨-, rfl, -⟩ | ⟨-, rfl⟩⟩ := of_setTask ha hsame hb'
    · exact hidle hphase
    · exact h.idle j b' hb hphase
  settled := fun j b' hb' hphase hnot => by
    obtain ⟨b, hb, -, -, -, ⟨-, rfl, -⟩ | ⟨-, rfl⟩⟩ := of_setTask ha hsame hb'
    · exact hsettled hphase hnot
    · exact h.settled j b' hb hphase hnot
  started := fun x hx => by
    obtain ⟨b, hb, hphase⟩ := h.started x hx
    obtain ⟨b', hb', -, ⟨ht, rfl⟩ | rfl⟩ := to_setTask ha hsame.2.1 hb
    · rw [ht, ha] at hb
      cases hb
      exact ⟨b', hb', hback hphase⟩
    · exact ⟨b', hb', hphase⟩
  below := h.below
  offsets := fun i j b' c' topic hij hb' hc' hbt hct hnot => by
    obtain ⟨b, hb, -, htb, -, hbcase⟩ := of_setTask ha hsame hb'
    obtain ⟨c, hc, -, htc, -⟩ := of_setTask ha hsame hc'
    refine h.offsets i j b c topic hij hb hc (htb ▸ hbt) (htc ▸ hct) ?_
    rcases hbcase with ⟨-, rfl, rfl⟩ | ⟨-, rfl⟩
    · exact hfailed hnot
    · exact hnot

theorem le_update (next : Nat → Nat) (p n q : Nat) :
    next q ≤ Function.update next p (next p + n) q := by
  by_cases hq : q = p
  · simp [hq]
  · simp [hq]

/-- A task that has started, and has not returned without a failure, writes at the end of a
partition. -/
theorem Inv.write (h : Inv w) (ha : w.tasks[t]? = some a) (hphase : a.phase ≠ .spawned)
    (hlive : a.phase = .done → a.failed = true) (p n : Nat) :
    Inv { w with
      next := Function.update w.next p (w.next p + n)
      written := w.written ++ [⟨t, p, n, w.next p⟩] } where
  toChain := ⟨h.named, h.last, h.chained, h.linked, h.behind⟩
  ordered := h.ordered
  idle := h.idle
  settled := h.settled
  started := fun x hx => by
    rcases List.mem_append.mp hx with hx | hx
    · exact h.started x hx
    · rw [List.mem_singleton.mp hx]
      exact ⟨a, ha, hphase⟩
  below := fun x hx => by
    show x.base + x.count ≤ Function.update w.next p (w.next p + n) x.partition
    rcases List.mem_append.mp hx with hx | hx
    · exact (h.below x hx).trans (le_update w.next p n x.partition)
    · rw [List.mem_singleton.mp hx, Function.update_self]
  offsets := fun i j b c topic hij hb hc hbt hct hnot x hx y hy hxi hyj hp => by
    rcases List.mem_append.mp hy with hy | hy
    · rcases List.mem_append.mp hx with hx | hx
      · exact h.offsets i j b c topic hij hb hc hbt hct hnot x hx y hy hxi hyj hp
      · -- the later request has written: the earlier one had nothing left to write
        obtain ⟨c', hc', hstarted⟩ := h.started y hy
        rw [hyj, hc] at hc'
        cases hc'
        have hdone := h.ordered i j b c topic hij hb hc hbt hct hstarted
        rw [← hxi, List.mem_singleton.mp hx, ha] at hb
        cases hb
        rw [hlive hdone] at hnot
        cases hnot
    · obtain rfl := List.mem_singleton.mp hy
      rcases List.mem_append.mp hx with hx | hx
      · have := h.below x hx
        rwa [hp] at this
      · obtain rfl := List.mem_singleton.mp hx
        exact absurd (hxi.symm.trans hyj) (Nat.ne_of_lt hij)

/-- A task is added: it waits for the last produce on its topic and takes its place. -/
theorem Chain.concat (h : Chain w)
    (hnamed : a.frame.opcode = .produce → ∀ topic, peekTopic a.frame.payload = .ok topic →
      a.topic = some topic) (hprev : a.prev = a.topic.bind w.chains)
    (hchains : ∀ topic, chains topic =
      if a.topic = some topic then some w.tasks.length else w.chains topic) :
    Chain { w with tasks := w.tasks ++ [a], chains } := by
  have hold : ∀ {j : Nat} {b : Task}, w.tasks[j]? = some b →
      j < w.tasks.length ∧ (w.tasks ++ [a])[j]? = some b := fun hb =>
    have hlt := (List.getElem?_eq_some_iff.mp hb).1
    ⟨hlt, (List.getElem?_append_left hlt).trans hb⟩
  constructor
  · intro t b topic hb hop hpeek
    rcases getElem?_concat_cases hb with ⟨rfl, rfl⟩ | hb
    · exact hnamed hop topic hpeek
    · exact h.named t b topic hb hop hpeek
  · intro t b topic hb htopic
    rcases getElem?_concat_cases hb with ⟨rfl, rfl⟩ | hb
    · exact ⟨w.tasks.length, by simp [hchains, htopic], Nat.le_refl _⟩
    · obtain ⟨p, hp, hle⟩ := h.last t b topic hb htopic
      by_cases hsame : a.topic = some topic
      · exact ⟨w.tasks.length, by simp [hchains, hsame], Nat.le_of_lt (hold hb).1⟩
      · exact ⟨p, by simp [hchains, hsame, hp], hle⟩
  · intro topic p hp
    by_cases hsame : a.topic = some topic
    · obtain rfl : w.tasks.length = p := by simpa [hchains, hsame] using hp
      exact ⟨a, List.getElem?_concat_length, hsame⟩
    · obtain ⟨b, hb, htopic⟩ := h.chained topic p (by simpa [hchains, hsame] using hp)
      exact ⟨b, (hold hb).2, htopic⟩
  · intro i j b c topic hij hb hc hbt hct
    have hb₀ : w.tasks[i]? = some b := (getElem?_concat_cases hb).resolve_left fun hlast => by
      have : j < w.tasks.length + 1 := by simpa using (List.getElem?_eq_some_iff.mp hc).1
      omega
    rcases getElem?_concat_cases hc with ⟨rfl, rfl⟩ | hc
    · obtain ⟨p, hp, hle⟩ := h.last i b topic hb₀ hbt
      obtain ⟨d, hd, hdt⟩ := h.chained topic p hp
      exact ⟨p, d, by rw [hprev, hct, Option.bind_some, hp], hle, (hold hd).1, (hold hd).2, hdt⟩
    · obtain ⟨p, d, hp, hip, hpj, hd, hdt⟩ := h.linked i j b c topic hij hb₀ hc hbt hct
      exact ⟨p, d, hp, hip, hpj, (hold hd).2, hdt⟩
  · intro t p b hb hp
    rcases getElem?_concat_cases hb with ⟨rfl, rfl⟩ | hb
    · obtain ⟨topic, -, hchain⟩ := Option.bind_eq_some_iff.mp (hprev.symm.trans hp)
      obtain ⟨c, hc, -⟩ := h.chained topic p hchain
      exact (hold hc).1
    · exact h.behind t p b hb hp

theorem Inv.concat (h : Inv w)
    (hnamed : a.frame.opcode = .produce → ∀ topic, peekTopic a.frame.payload = .ok topic →
      a.topic = some topic) (hprev : a.prev = a.topic.bind w.chains)
    (hchains : ∀ topic, chains topic =
      if a.topic = some topic then some w.tasks.length else w.chains topic)
    (hphase : a.phase = .spawned) (hwrites : a.writes = []) :
    Inv { w with tasks := w.tasks ++ [a], chains } where
  toChain := h.toChain.concat hnamed hprev hchains
  ordered := fun i j b c topic hij hb hc hbt hct hstarted => by
    rcases getElem?_concat_cases hc with ⟨-, rfl⟩ | hc
    · exact absurd hphase hstarted
    · rcases getElem?_concat_cases hb with ⟨rfl, -⟩ | hb
      · exact absurd hij (Nat.not_lt_of_gt (List.getElem?_eq_some_iff.mp hc).1)
      · exact h.ordered i j b c topic hij hb hc hbt hct hstarted
  idle := fun t b hb hspawned => by
    rcases getElem?_concat_cases hb with ⟨-, rfl⟩ | hb
    · exact hwrites
    · exact h.idle t b hb hspawned
  settled := fun t b hb hdone hnot => by
    rcases getElem?_concat_cases hb with ⟨-, rfl⟩ | hb
    · exact hwrites
    · exact h.settled t b hb hdone hnot
  started := fun x hx => by
    obtain ⟨b, hb, hstarted⟩ := h.started x hx
    exact ⟨b, (List.getElem?_append_left (List.getElem?_eq_some_iff.mp hb).1).trans hb, hstarted⟩
  below := h.below
  offsets := fun i j b c topic hij hb hc hbt hct hnot x hx y hy hxi hyj => by
    -- both have written, so that neither is the new one
    obtain ⟨b', hb', -⟩ := h.started x hx
    obtain ⟨c', hc', -⟩ := h.started y hy
    subst hxi hyj
    have hlt := (List.getElem?_eq_some_iff.mp hb').1
    have hlt' := (List.getElem?_eq_some_iff.mp hc').1
    exact h.offsets _ _ b c topic hij ((List.getElem?_append_left hlt).symm.trans hb)
      ((List.getElem?_append_left hlt').symm.trans hc) hbt hct hnot x hx y hy rfl rfl

theorem Inv.frame (h : Inv w) (can : Opcode → String → Bool) (f : Frame) : Inv (w.frame can f) := by
  have hspawn : ∀ topic, peekTopic f.payload = .ok topic → Inv (w.spawn f topic) := by
    intro topic hpeek
    unfold Conn.spawn
    split
    case h_1 =>
      refine h.concat (by simp [hpeek]) rfl (fun topic' => ?_) rfl rfl
      simp [Function.update_apply, eq_comm]
    case h_2 hop => exact h.concat (fun h => absurd h hop) rfl (by simp) rfl rfl
  unfold Conn.frame
  split
  case h_1 | h_2 => exact h
  all_goals
    split
    · exact h
    · split
      · exact hspawn _ (by assumption)
      · exact h

/-- A task with writes left was started. -/
theorem Inv.started_of_mem (h : Inv w) (ha : w.tasks[t]? = some a) {x : Nat × Nat}
    (hmem : x ∈ a.writes) : a.phase ≠ .spawned := fun hphase => by
  rw [h.idle t a ha hphase] at hmem
  cases hmem

theorem Inv.step (h : Inv w) {e : Event} (hs : w.step can e = some w') : Inv w' := by
  cases e with
  | frame f =>
    cases hs
    exact h.frame can f
  | start t =>
    simp only [Conn.step] at hs
    split at hs
    · rename_i a ha
      obtain ⟨⟨hphase, hprev⟩, hs⟩ := Option.ite_none_right_eq_some.mp hs
      cases hs
      exact h.setTask ha ⟨rfl, rfl, rfl⟩ (by simp [hphase]) (by simp) (fun _ _ => hprev) id nofun
        nofun
    · cases hs
  | submit t writes =>
    simp only [Conn.step] at hs
    split at hs
    · rename_i a ha
      obtain ⟨⟨hphase, -⟩, hs⟩ := Option.ite_none_right_eq_some.mp hs
      cases hs
      exact h.setTask ha ⟨rfl, rfl, rfl⟩ id id (by simp [hphase]) id (by simp [hphase])
        (by simp [hphase])
    · cases hs
  | land t p n =>
    simp only [Conn.step] at hs
    split at hs
    · rename_i a ha
      obtain ⟨hmem, hs⟩ := Option.ite_none_right_eq_some.mp hs
      cases hs
      have hstarted := h.started_of_mem ha hmem
      have hlive : a.phase = .done → a.failed = true := fun hphase => by
        by_contra hnot
        rw [h.settled t a ha hphase (by simpa using hnot)] at hmem
        cases hmem
      exact (h.write ha hstarted hlive p n).setTask ha ⟨rfl, rfl, rfl⟩ id id
        (fun hphase _ => absurd hphase hstarted) id (fun hphase => absurd hphase hstarted)
        fun hphase hnot => by simp [hlive hphase] at hnot
    · cases hs
  | fail t p n =>
    simp only [Conn.step] at hs
    split at hs
    · rename_i a ha
      obtain ⟨hmem, hs⟩ := Option.ite_none_right_eq_some.mp hs
      cases hs
      have hstarted := h.started_of_mem ha hmem
      exact h.setTask ha ⟨rfl, rfl, rfl⟩ id id (fun hphase _ => absurd hphase hstarted) nofun
        (fun hphase => absurd hphase hstarted) nofun
    · cases hs
  | finish t =>
    simp only [Conn.step] at hs
    split at hs
    · rename_i a ha
      obtain ⟨⟨hphase, hend⟩, hs⟩ := Option.ite_none_right_eq_some.mp hs
      cases hs
      refine h.setTask ha ⟨rfl, rfl, rfl⟩ (fun _ => rfl) nofun (by simp [hphase]) id nofun ?_
      intro _ hnot
      exact hend.resolve_right (by simpa using hnot)
    · cases hs
  | «foreign» p n =>
    cases hs
    exact { h with below := fun x hx => (h.below x hx).trans (le_update w.next p n x.partition) }

end

section
variable {can : Opcode → String → Bool} {next : Nat → Nat} {w : Conn}

theorem inv_of_run (h : Run can next w) : Inv w := by
  refine h.keeps ?_ fun h _ hs => h.step hs
  exact { named := by simp [Conn.opened], last := by simp [Conn.opened], chained := nofun,
          linked := by simp [Conn.opened], behind := by simp [Conn.opened],
          ordered := by simp [Conn.opened], idle := by simp [Conn.opened],
          settled := by simp [Conn.opened], started := nofun, below := nofun,
          offsets := by simp [Conn.opened] }

/-- The chains never block, however a task returns: as long as one has not, some task can start,
land a write or return. -/
theorem unblocked_of_run (h : Run can next w) {t : Nat} {a : Task} (ha : w.tasks[t]? = some a)
    (hunfinished : a.phase ≠ .done) :
    ∃ t e, (e = .start t ∨ e = .finish t ∨ ∃ p n, e = .land t p n) ∧ (w.step can e).isSome := by
  have hinv := inv_of_run h
  induction t using Nat.strong_induction_on generalizing a with
  | _ t ih =>
    cases hphase : a.phase with
    | done => exact absurd hphase hunfinished
    | processing =>
      cases hwrites : a.writes with
      | nil =>
        exact ⟨t, .finish t, .inr (.inl rfl), by simp [Conn.step, ha, hphase, hwrites]⟩
      | cons x rest =>
        exact ⟨t, .land t x.1 x.2, .inr (.inr ⟨_, _, rfl⟩), by simp [Conn.step, ha, hwrites]⟩
    | spawned =>
      by_cases hprev : a.prev.all w.isDone = true
      · exact ⟨t, .start t, .inl rfl, by simp only [Conn.step, ha]; simp [hphase, hprev]⟩
      · -- the one it waits for has not returned, and is earlier
        obtain ⟨p, hp, hnot⟩ : ∃ p, a.prev = some p ∧ w.isDone p = false := by
          simpa [Option.all_eq_true] using hprev
        have hlt := hinv.behind t p a ha hp
        have hlen := hlt.trans (List.getElem?_eq_some_iff.mp ha).1
        have hb := List.getElem?_eq_getElem hlen
        refine ih p hlt hb fun hdone => ?_
        simp [Conn.isDone, hb, hdone] at hnot

end

/-! ### Produces on a topic -/

/-- Of two accepted produces on a topic, the later starts when the earlier has returned; and
unless a partition refused a part of the earlier one, its records come first on each partition
that both write to. -/
theorem produces_in_order {can : Opcode → String → Bool} {next : Nat → Nat} {w : Conn}
    (h : Run can next w) {i j : Nat} {a b : Task} {ra rb : WireProduceRequest} (hij : i < j)
    (ha : w.tasks[i]? = some a) (hb : w.tasks[j]? = some b)
    (hproduce : a.frame.opcode = .produce ∧ b.frame.opcode = .produce)
    (hra : decodeProduceRequest a.frame.payload = .ok ra)
    (hrb : decodeProduceRequest b.frame.payload = .ok rb) (htopic : ra.topic = rb.topic) :
    (b.phase ≠ .spawned → a.phase = .done) ∧
    (a.failed = false → ∀ x ∈ w.written, ∀ y ∈ w.written, x.task = i → y.task = j →
      x.partition = y.partition → x.base + x.count ≤ y.base) := by
  have hinv := inv_of_run h
  have hat := hinv.named i a ra.topic ha hproduce.1 (peekTopic_of_decode hra)
  have hbt := hinv.named j b rb.topic hb hproduce.2 (peekTopic_of_decode hrb)
  rw [← htopic] at hbt
  exact ⟨hinv.ordered i j a b ra.topic hij ha hb hat hbt,
    hinv.offsets i j a b ra.topic hij ha hb hat hbt⟩

/-- A record for each of two partitions. -/
def wide : WireProduceRequest := ⟨"t", none, [⟨none, [1], some 0, none⟩, ⟨none, [2], some 1, none⟩]⟩

/-- A record for the second of them. -/
def narrow : WireProduceRequest := ⟨"t", none, [⟨none, [3], some 1, none⟩]⟩

theorem decode_wide : decodeProduceRequest (encodeProduceRequest wide) = .ok wide := by
  decide +kernel

theorem decode_narrow : decodeProduceRequest (encodeProduceRequest narrow) = .ok narrow := by
  decide +kernel

/-- Both are accepted, and wait. -/
def accepted : Conn :=
  { tasks := [⟨⟨.produce, encodeProduceRequest wide⟩, some "t", none, .spawned, [], false⟩,
      ⟨⟨.produce, encodeProduceRequest narrow⟩, some "t", some 0, .spawned, [], false⟩]
    chains := Function.update (Function.update (fun _ => none) "t" (some 0)) "t" (some 1)
    next := fun _ => 0
    written := [] }

theorem run_accepted : Run (fun _ _ => true) (fun _ => 0) accepted := by
  have hwide : peekTopic (encodeProduceRequest wide) = .ok "t" := peekTopic_of_decode decode_wide
  have hnarrow : peekTopic (encodeProduceRequest narrow) = .ok "t" :=
    peekTopic_of_decode decode_narrow
  refine Runs.refl.steps [.frame ⟨.produce, encodeProduceRequest wide⟩,
    .frame ⟨.produce, encodeProduceRequest narrow⟩] ?_
  simp [Conn.step, Conn.frame, hwide, hnarrow, Conn.spawn, Conn.opened, accepted]

theorem produces_in_order_two :
    ∃ w, Run (fun _ _ => true) (fun _ => 0) w ∧ w.tasks.map (·.phase) = [.done, .processing] ∧
      w.written = [⟨0, 0, 1, 0⟩, ⟨0, 1, 1, 0⟩, ⟨1, 1, 1, 1⟩] ∧
      ∀ x ∈ w.written, ∀ y ∈ w.written, x.task = 0 → y.task = 1 → x.partition = y.partition →
        x.base + x.count ≤ y.base := by
  have hrun := run_accepted.steps [.start 0, .submit 0 [(0, 1), (1, 1)], .land 0 0 1, .land 0 1 1,
    .finish 0, .start 1, .submit 1 [(1, 1)], .land 1 1 1] rfl
  exact ⟨_, hrun, rfl, rfl, (produces_in_order hrun (i := 0) (j := 1) (by decide) rfl rfl
    ⟨rfl, rfl⟩ decode_wide decode_narrow rfl).2 rfl⟩

/-- The first partition refuses its part of the earlier request, and the signal is given while
the other part is still being written: the later request gets the smaller offset. -/
theorem overtaken_after_failure :
    ∃ w, Run (fun _ _ => true) (fun _ => 0) w ∧
      w.tasks.map (·.frame) = [⟨.produce, encodeProduceRequest wide⟩,
        ⟨.produce, encodeProduceRequest narrow⟩] ∧
      w.written = [⟨1, 1, 1, 0⟩, ⟨0, 1, 1, 1⟩] := by
  have hrun := run_accepted.steps [.start 0, .submit 0 [(0, 1), (1, 1)], .fail 0 0 1, .finish 0,
    .start 1, .submit 1 [(1, 1)], .land 1 1 1, .land 0 1 1] rfl
  exact ⟨_, hrun, rfl, rfl⟩

end EventStream.Binary.Order
