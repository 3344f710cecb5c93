import Mathlib.Algebra.BigOperators.Group.List.Basic
import Mathlib.Logic.Function.Basic
import EventStream.Auth.Keys

/-! The request-memory budget of the binary server (`serve` and `process` in
`binary/server.rs`).

A read loop takes permits for a frame before it reads it, and the request that the frame
becomes keeps them until its response is out. A request on a gzip connection takes a second
reservation from the same semaphore before it inflates its payload. The semaphore serves its
waiters in the order they came. -/
namespace EventStream.Binary

open EventStream.Auth (Name)

/-- Permits of the budget, one per KiB. -/
def inflightBudgetKib : Nat := 1024 * 1024

/-- Slots of a connection: how many of its requests are worked on at a time. -/
def maxInflightPerConn : Nat := 32

/-- The permits for so many bytes, at least one and never more than there are. -/
def kib (bytes : Nat) : Nat := min (max ((bytes + 1023) / 1024) 1) inflightBudgetKib

/-- The largest frame accepted, and the largest decompressed payload. -/
def maxRequestBytes (maxRecordBytes : Nat) : Nat := max (maxRecordBytes + 2 ^ 20) (16 * 2 ^ 20)

/-- How far a frame has come. -/
inductive Phase where
  /-- The length was read; the read loop waits for permits. -/
  | announced
  | reading
  /-- The whole frame is here; the read loop waits for a slot of the connection. -/
  | received
  /-- The task was spawned and waits for the previous produce on its topic. -/
  | spawned
  /-- A gzip request waits for its second reservation. -/
  | inflating
  | running
  /-- `process` has returned; the response is on its way out. -/
  | responding
  | finished
  deriving DecidableEq, Repr

/-- A frame and the request it becomes. -/
structure Request where
  conn : Nat
  size : Nat
  /-- The topic of a produce; other requests are not chained. -/
  topic : Option Name
  prev : Option Nat
  phase : Phase
  deriving DecidableEq, Repr

/-- The frames of all connections, and who waits for what. -/
structure Server where
  maxRecordBytes : Nat
  gzip : Nat → Bool
  /-- Requests are named by their position. -/
  requests : List Request
  /-- Who waits for permits, in order. -/
  queue : List Nat
  /-- The frame the read loop of a connection is at. -/
  reader : Nat → Option Nat
  /-- The last produce of a connection on a topic. -/
  chains : Nat × Name → Option Nat

/-- What a client, the read loop, the semaphore or a task does next. -/
inductive Event where
  /-- The length of a frame arrives. -/
  | announce (conn size : Nat) (topic : Option Name)
  /-- The rest of it arrives, or the connection is closed before the request is spawned. -/
  | body (id : Nat)
  | drop (id : Nat)
  /-- The semaphore serves the first waiter. -/
  | grant
  /-- The read loop spawns the request, or answers it itself. -/
  | spawn (id : Nat)
  | answer (id : Nat)
  /-- The previous produce is done. -/
  | start (id : Nat)
  | finish (id : Nat)
  | release (id : Nat)
  deriving DecidableEq, Repr

/-- Steps of the server itself; the others are up to its clients and to timers. -/
def Event.internal : Event → Bool
  | .announce _ _ _ | .body _ | .drop _ => false
  | _ => true

/-- The permits taken before the frame is read. -/
def Request.first (r : Request) : Nat :=
  match r.phase with
  | .announced | .finished => 0
  | _ => kib r.size

/-- The read loop is at this frame. -/
def Phase.isReader : Phase → Bool
  | .announced | .reading | .received => true
  | _ => false

/-- The request holds a slot of its connection. -/
def Phase.isInflight : Phase → Bool
  | .spawned | .inflating | .running | .responding => true
  | _ => false

namespace Server

/-- What the server accepts under its configuration. -/
def maxRequest (s : Server) : Nat := maxRequestBytes s.maxRecordBytes

/-- The permits held for inflating. -/
def second (s : Server) (r : Request) : Nat :=
  if r.phase = .running ∧ s.gzip r.conn then kib s.maxRequest else 0

/-- All permits taken for frames. -/
def firsts (s : Server) : Nat := (s.requests.map Request.first).sum

/-- All permits taken for inflated payloads. -/
def seconds (s : Server) : Nat := (s.requests.map s.second).sum

/-- What the semaphore has left. -/
def free (s : Server) : Nat := inflightBudgetKib - (s.firsts + s.seconds)

/-- What a waiter asks for. -/
def need (s : Server) (r : Request) : Nat :=
  if r.phase = .announced then kib r.size else kib s.maxRequest

/-- The slots of a connection that are taken. -/
def inflight (s : Server) (conn : Nat) : Nat :=
  s.requests.countP fun r => r.conn = conn && r.phase.isInflight

def setPhase (s : Server) (id : Nat) (phase : Phase) : Server :=
  { s with requests := s.requests.modify id fun r => { r with phase } }

/-- The read loop goes on to the next frame. -/
def nextFrame (s : Server) (conn : Nat) : Server :=
  { s with reader := Function.update s.reader conn none }

/-- The completion signal of a request was sent. -/
def isDone (s : Server) (id : Nat) : Bool :=
  match s.requests[id]? with
  | some r => r.phase = .responding || r.phase = .finished
  | none => true

/-- `chains.insert`, which hands back the previous produce on the topic. -/
def chain (s : Server) (id conn : Nat) : Option Name → Server
  | some topic =>
    { s with
      requests := s.requests.modify id fun r => { r with prev := s.chains (conn, topic) }
      chains := Function.update s.chains (conn, topic) (some id) }
  | none => s

/-- A request in this phase. -/
def inPhase (s : Server) (id : Nat) (phase : Phase) : Option Request :=
  (s.requests[id]?).filter (·.phase = phase)

/-- The first waiter gets its permits, if there are enough of them. -/
def grant (s : Server) : Option Server :=
  match s.queue with
  | [] => none
  | id :: queue =>
    match s.requests[id]? with
    | none => none
    | some r =>
      if s.need r ≤ s.free then
        some (setPhase { s with queue } id (if r.phase = .announced then .reading else .running))
      else none

def step (s : Server) : Event → Option Server
  | .announce conn size topic =>
    if s.reader conn = none ∧ 5 ≤ size ∧ size ≤ s.maxRequest then
      some { s with
        requests := s.requests ++ [⟨conn, size, topic, none, .announced⟩]
        queue := s.queue ++ [s.requests.length]
        reader := Function.update s.reader conn (some s.requests.length) }
    else none
  | .body id => (s.inPhase id .reading).map fun _ => s.setPhase id .received
  | .drop id =>
    ((s.inPhase id .reading).or (s.inPhase id .received)).map fun r =>
      (s.setPhase id .finished).nextFrame r.conn
  | .grant => s.grant
  | .spawn id =>
    match s.inPhase id .received with
    | some r =>
      if s.inflight r.conn < maxInflightPerConn then
        some (((s.setPhase id .spawned).nextFrame r.conn).chain id r.conn r.topic)
      else none
    | none => none
  | .answer id =>
    match s.inPhase id .received with
    | some r =>
      if s.inflight r.conn < maxInflightPerConn then
        some ((s.setPhase id .finished).nextFrame r.conn)
      else none
    | none => none
  | .start id =>
    match s.inPhase id .spawned with
    | some r =>
      if r.prev.all s.isDone then
        if s.gzip r.conn then
          some { s.setPhase id .inflating with queue := s.queue ++ [id] }
        else some (s.setPhase id .running)
      else none
    | none => none
  | .finish id => (s.inPhase id .running).map fun _ => s.setPhase id .responding
  | .release id => (s.inPhase id .responding).map fun _ => s.setPhase id .finished

/-- A server without connections. -/
def opened (maxRecordBytes : Nat) (gzip : Nat → Bool) : Server :=
  { maxRecordBytes, gzip, requests := [], queue := [], reader := fun _ => none
    chains := fun _ => none }

/-- A run given by its events. -/
def run (s : Server) (events : List Event) : Option Server := events.foldlM step s

/-- Some step of the server is possible. -/
def CanStep (s : Server) : Prop := ∃ e, e.internal ∧ (s.step e).isSome

/-- The frame was received and its permits are held. -/
def Waiting (s : Server) : Prop :=
  ∃ r ∈ s.requests, r.phase = .received ∨ r.phase.isInflight

/-- Where a request waits to inflate, the frames leave room for one more reservation. -/
def Roomy (s : Server) : Prop :=
  (∃ r ∈ s.requests, r.phase = .inflating) → s.firsts + kib s.maxRequest ≤ inflightBudgetKib

/-! ### The invariant -/

section
variable {s s' : Server} {id conn i : Nat} {r : Request} {phase : Phase} {topic : Option Name}

theorem getElem?_setPhase (s : Server) (id : Nat) (phase : Phase) (i : Nat) :
    (s.setPhase id phase).requests[i]? =
      (s.requests[i]?).map fun r => if id = i then { r with phase } else r :=
  List.getElem?_modify ..

/-- A request after a change of phase is one from before, in its new phase if it is the one
that moved. -/
theorem of_setPhase {r' : Request} (h : (s.setPhase id phase).requests[i]? = some r') :
    ∃ r, s.requests[i]? = some r ∧ r'.conn = r.conn ∧ r'.size = r.size ∧ r'.prev = r.prev ∧
      (i = id ∧ r'.phase = phase ∨ i ≠ id ∧ r' = r) := by
  rw [getElem?_setPhase] at h
  obtain ⟨r, hr, rfl⟩ := Option.map_eq_some_iff.mp h
  refine ⟨r, hr, ?_⟩
  by_cases hi : id = i
  · simp [hi]
  · simp [hi, Ne.symm hi]

theorem setPhase_other (hi : i ≠ id) : (s.setPhase id phase).requests[i]? = s.requests[i]? := by
  rw [getElem?_setPhase]
  simp [Ne.symm hi]

theorem setPhase_self (hr : s.requests[id]? = some r) :
    (s.setPhase id phase).requests[id]? = some { r with phase } := by
  rw [getElem?_setPhase, hr]
  simp

theorem inPhase_eq_some (h : s.inPhase id phase = some r) :
    s.requests[id]? = some r ∧ r.phase = phase := by
  obtain ⟨hr, hphase⟩ := Option.filter_eq_some_iff.mp h
  exact ⟨hr, by simpa using hphase⟩

/-- Read loops are at one frame each, and chains point back to requests spawned before. -/
structure Linked (s : Server) : Prop where
  sizes : ∀ (id : Nat) (r : Request), s.requests[id]? = some r → r.size ≤ s.maxRequest
  reader : ∀ (id : Nat) (r : Request), s.requests[id]? = some r → r.phase.isReader →
    s.reader r.conn = some id
  prevs : ∀ (id : Nat) (r : Request) (p : Nat), s.requests[id]? = some r → r.prev = some p →
    p < id ∧ ∃ r', s.requests[p]? = some r' ∧ r'.phase.isReader = false
  chained : ∀ key p, s.chains key = some p →
    (∃ r', s.requests[p]? = some r' ∧ r'.phase.isReader = false) ∧
      ∀ id, s.reader key.1 = some id → p < id

/-- The queue holds the requests that wait for permits. -/
structure Queued (s : Server) : Prop where
  queued : ∀ id ∈ s.queue, ∃ r, s.requests[id]? = some r ∧
    (r.phase = .announced ∨ r.phase = .inflating)
  nodup : s.queue.Nodup
  inflating : ∀ (id : Nat) (r : Request), s.requests[id]? = some r → r.phase = .inflating →
    id ∈ s.queue

/-- What every step keeps. -/
structure Sound (s : Server) : Prop extends Linked s, Queued s

/-- Spawned requests stay spawned. -/
theorem spawned_setPhase (hr : s.requests[id]? = some r)
    (hback : phase.isReader = true → r.phase.isReader = true) {p : Nat}
    (hp : ∃ r', s.requests[p]? = some r' ∧ r'.phase.isReader = false) :
    ∃ r', (s.setPhase id phase).requests[p]? = some r' ∧ r'.phase.isReader = false := by
  obtain ⟨r', hr', hspawned⟩ := hp
  by_cases hpid : p = id
  · subst hpid
    rw [hr] at hr'
    cases hr'
    refine ⟨_, setPhase_self hr, ?_⟩
    by_contra hreader
    rw [hback (by simpa using hreader)] at hspawned
    exact nomatch hspawned
  · exact ⟨r', (setPhase_other hpid).trans hr', hspawned⟩

theorem Linked.setPhase (h : s.Linked) (hr : s.requests[id]? = some r)
    (hback : phase.isReader = true → r.phase.isReader = true) : (s.setPhase id phase).Linked where
  sizes := by
    intro i r' hr'
    obtain ⟨r₀, hr₀, _, hsize, _⟩ := of_setPhase hr'
    rw [hsize]
    exact h.sizes i r₀ hr₀
  reader := by
    intro i r' hr' hreader
    obtain ⟨r₀, hr₀, hconn, _, _, ⟨rfl, hphase⟩ | ⟨_, rfl⟩⟩ := of_setPhase hr'
    · rw [hr] at hr₀
      cases hr₀
      rw [hconn]
      exact h.reader i r hr (hback (hphase ▸ hreader))
    · exact h.reader i r' hr₀ hreader
  prevs := by
    intro i r' p hr' hp
    obtain ⟨r₀, hr₀, _, _, hprev, _⟩ := of_setPhase hr'
    obtain ⟨hlt, hspawned⟩ := h.prevs i r₀ p hr₀ (hprev ▸ hp)
    exact ⟨hlt, spawned_setPhase hr hback hspawned⟩
  chained := fun key p hp =>
    ⟨spawned_setPhase hr hback (h.chained key p hp).1, (h.chained key p hp).2⟩

/-- A request that does not wait for permits moves on. -/
theorem Queued.setPhase (h : s.Queued) (hr : s.requests[id]? = some r)
    (hold : r.phase ≠ .announced ∧ r.phase ≠ .inflating) (hnew : phase ≠ .inflating) :
    (s.setPhase id phase).Queued where
  queued := by
    intro i hi
    obtain ⟨r', hr', hwaits⟩ := h.queued i hi
    refine ⟨r', (setPhase_other fun hid => ?_).trans hr', hwaits⟩
    rw [hid, hr] at hr'
    cases hr'
    rcases hwaits with hw | hw
    · exact hold.1 hw
    · exact hold.2 hw
  nodup := h.nodup
  inflating := by
    intro i r' hr' hinf
    obtain ⟨r₀, hr₀, _, _, _, ⟨_, hphase⟩ | ⟨_, rfl⟩⟩ := of_setPhase hr'
    · exact absurd (hphase.symm.trans hinf) hnew
    · exact h.inflating i r' hr₀ hinf

section
variable (h : s.Sound)
include h

namespace Sound

theorem move (hr : s.requests[id]? = some r)
    (hold : r.phase ≠ .announced ∧ r.phase ≠ .inflating) (hnew : phase ≠ .inflating)
    (hback : phase.isReader = true → r.phase.isReader = true) : (s.setPhase id phase).Sound :=
  ⟨h.toLinked.setPhase hr hback, h.toQueued.setPhase hr hold hnew⟩

/-- The read loop is done with the frame it was at. -/
theorem nextFrame (hnone : ∀ (id : Nat) (r : Request), s.requests[id]? = some r → r.conn = conn →
      r.phase.isReader = false) : (s.nextFrame conn).Sound :=
  { h with
    sizes := h.sizes
    reader := by
      intro i r hr hreader
      have hconn : r.conn ≠ conn := fun hc => by
        rw [hnone i r hr hc] at hreader
        exact nomatch hreader
      exact (Function.update_of_ne hconn _ _).trans (h.reader i r hr hreader)
    chained := by
      intro key p hp
      refine ⟨(h.chained key p hp).1, fun i hi => ?_⟩
      have hi : Function.update s.reader conn none key.1 = some i := hi
      by_cases hkey : key.1 = conn
      · rw [hkey, Function.update_self] at hi
        exact nomatch hi
      · rw [Function.update_of_ne hkey] at hi
        exact (h.chained key p hp).2 i hi }

/-- Where the one frame of a read loop leaves it, no other is there. -/
theorem none_reading (hr : s.requests[id]? = some r) (hreader : r.phase.isReader = true)
    (hnew : phase.isReader = false) :
    ∀ (i : Nat) (r' : Request), (s.setPhase id phase).requests[i]? = some r' → r'.conn = r.conn →
      r'.phase.isReader = false := by
  intro i r' hr' hconn
  obtain ⟨r₀, hr₀, _, _, _, ⟨_, hphase⟩ | ⟨hi, rfl⟩⟩ := of_setPhase hr'
  · rw [hphase]
    exact hnew
  · by_contra hr'reader
    have hmine := h.reader id r hr hreader
    have hits := h.reader i r' hr₀ (by simpa using hr'reader)
    rw [hconn, hmine] at hits
    exact hi (Option.some.inj hits).symm

theorem leaveReader (hr : s.requests[id]? = some r)
    (hold : r.phase = .reading ∨ r.phase = .received) (hnew : phase.isReader = false)
    (hinf : phase ≠ .inflating) : ((s.setPhase id phase).nextFrame r.conn).Sound := by
  have hreader : r.phase.isReader = true := by
    rcases hold with hp | hp <;> rw [hp] <;> rfl
  refine (h.move hr ?_ hinf fun _ => hreader).nextFrame (h.none_reading hr hreader hnew)
  rcases hold with hp | hp <;> simp [hp]

/-- A frame of a free read loop is announced and queued for permits. -/
theorem announce {size : Nat} (hfree : s.reader conn = none) (hsize : size ≤ s.maxRequest) :
    Server.Sound { s with
      requests := s.requests ++ [⟨conn, size, topic, none, .announced⟩]
      queue := s.queue ++ [s.requests.length]
      reader := Function.update s.reader conn (some s.requests.length) } := by
  have hlt : ∀ {i : Nat} {r : Request}, s.requests[i]? = some r → i < s.requests.length :=
    fun hr => (List.getElem?_eq_some_iff.mp hr).1
  have hkeep : ∀ {i : Nat} {r : Request}, s.requests[i]? = some r →
      (s.requests ++ [(⟨conn, size, topic, none, .announced⟩ : Request)])[i]? = some r :=
    fun hr => (List.getElem?_append_left (hlt hr)).trans hr
  -- A request of the longer list is an old one or the new one.
  have hcases : ∀ {i : Nat} {r : Request},
      (s.requests ++ [(⟨conn, size, topic, none, .announced⟩ : Request)])[i]? = some r →
      s.requests[i]? = some r ∨
        i = s.requests.length ∧ r = ⟨conn, size, topic, none, .announced⟩ := by
    intro i r hr
    by_cases hi : i < s.requests.length
    · rw [List.getElem?_append_left hi] at hr
      exact .inl hr
    · rw [List.getElem?_append_right (Nat.le_of_not_lt hi)] at hr
      obtain ⟨hi', hr⟩ := List.getElem?_eq_some_iff.mp hr
      have hzero : i - s.requests.length = 0 := by simpa using hi'
      simp only [hzero, List.getElem_cons_zero] at hr
      exact .inr ⟨by omega, hr.symm⟩
  exact
    { queued := by
        intro i hi
        rcases List.mem_append.mp hi with hi | hi
        · obtain ⟨r, hr, hwaits⟩ := h.queued i hi
          exact ⟨r, hkeep hr, hwaits⟩
        · rw [List.mem_singleton.mp hi]
          exact ⟨_, List.getElem?_concat_length, .inl rfl⟩
      nodup := by
        refine List.nodup_append.mpr ⟨h.nodup, List.pairwise_singleton _ _, fun a ha b hb hab => ?_⟩
        obtain ⟨r, hr, _⟩ := h.queued a ha
        rw [hab, List.mem_singleton.mp hb] at hr
        exact absurd (hlt hr) (Nat.lt_irrefl _)
      inflating := by
        intro i r hr hinf
        rcases hcases hr with hr | ⟨_, rfl⟩
        · exact List.mem_append_left _ (h.inflating i r hr hinf)
        · exact nomatch hinf
      sizes := by
        intro i r hr
        rcases hcases hr with hr | ⟨_, rfl⟩
        · exact h.sizes i r hr
        · exact hsize
      reader := by
        intro i r hr hreader
        rcases hcases hr with hr | ⟨rfl, rfl⟩
        · have hold := h.reader i r hr hreader
          refine (Function.update_of_ne (fun hconn => ?_) _ _).trans hold
          rw [hconn, hfree] at hold
          exact nomatch hold
        · exact Function.update_self ..
      prevs := by
        intro i r p hr hp
        rcases hcases hr with hr | ⟨_, rfl⟩
        · obtain ⟨hlt, r', hr', hspawned⟩ := h.prevs i r p hr hp
          exact ⟨hlt, r', hkeep hr', hspawned⟩
        · exact nomatch hp
      chained := by
        intro key p hp
        obtain ⟨⟨r', hr', hspawned⟩, hbefore⟩ := h.chained key p hp
        refine ⟨⟨r', hkeep hr', hspawned⟩, fun i hi => ?_⟩
        have hi : Function.update s.reader conn (some s.requests.length) key.1 = some i := hi
        by_cases hkey : key.1 = conn
        · rw [hkey, Function.update_self] at hi
          exact Option.some.inj hi ▸ hlt hr'
        · rw [Function.update_of_ne hkey] at hi
          exact hbefore i hi }

/-- The first waiter leaves the queue; then it may move on. -/
theorem grant (hs : s.grant = some s') : s'.Sound := by
  unfold Server.grant at hs
  split at hs
  · exact nomatch hs
  · rename_i id queue hqueue
    split at hs
    · exact nomatch hs
    · rename_i r hr
      obtain ⟨_, hs⟩ := Option.ite_none_right_eq_some.mp hs
      cases hs
      have hnodup := h.nodup
      rw [hqueue] at hnodup
      obtain ⟨hnot, hnodup⟩ := List.nodup_cons.mp hnodup
      obtain ⟨r₀, hr₀, hphase⟩ := h.queued id (hqueue ▸ List.mem_cons_self)
      rw [hr] at hr₀
      cases hr₀
      have hback : (if r.phase = .announced then Phase.reading else .running).isReader = true →
          r.phase.isReader = true := by
        rcases hphase with hp | hp <;> simp [hp, Phase.isReader]
      have hnew : (if r.phase = .announced then Phase.reading else .running) ≠ .inflating := by
        split <;> exact nofun
      have hlinked : Server.Linked { s with queue } :=
        ⟨h.sizes, h.reader, h.prevs, h.chained⟩
      refine ⟨hlinked.setPhase hr hback, ?_, hnodup, ?_⟩
      · intro i hi
        obtain ⟨r', hr', hwaits⟩ := h.queued i (hqueue ▸ List.mem_cons_of_mem _ hi)
        have hne : i ≠ id := fun hid => hnot (hid ▸ hi)
        exact ⟨r', (setPhase_other hne).trans hr', hwaits⟩
      · intro i r' hr' hinf
        obtain ⟨r₀, hr₀, _, _, _, ⟨_, hp⟩ | ⟨hi, rfl⟩⟩ := of_setPhase hr'
        · exact absurd (hp.symm.trans hinf) hnew
        · have hmem := h.inflating i r' hr₀ hinf
          rw [hqueue] at hmem
          exact (List.mem_cons.mp hmem).resolve_left hi

/-- A produce is put behind the previous one of its connection on the topic. -/
theorem chain (hr : s.requests[id]? = some r) (hspawned : r.phase.isReader = false)
    (hidle : s.reader conn = none) (hbefore : ∀ name p, s.chains (conn, name) = some p → p < id) :
    (s.chain id conn topic).Sound := by
  cases topic with
  | none => exact h
  | some name =>
    -- Only the link of the new request changes.
    have hget : ∀ i : Nat, (s.chain id conn (some name)).requests[i]? =
        (s.requests[i]?).map fun r => if id = i then { r with prev := s.chains (conn, name) }
          else r := fun i => List.getElem?_modify ..
    have hof : ∀ {i : Nat} {r' : Request},
        (s.chain id conn (some name)).requests[i]? = some r' →
        ∃ r, s.requests[i]? = some r ∧ r'.conn = r.conn ∧ r'.size = r.size ∧
          r'.phase = r.phase ∧ (r'.prev = r.prev ∨ i = id ∧ r'.prev = s.chains (conn, name)) := by
      intro i r' hr'
      rw [hget] at hr'
      obtain ⟨r, hr, rfl⟩ := Option.map_eq_some_iff.mp hr'
      refine ⟨r, hr, ?_⟩
      by_cases hi : id = i
      · simp [hi]
      · simp [hi]
    have hto : ∀ {i : Nat} {r : Request}, s.requests[i]? = some r →
        ∃ r', (s.chain id conn (some name)).requests[i]? = some r' ∧ r'.phase = r.phase := by
      intro i r hr
      rw [hget, hr]
      refine ⟨_, rfl, ?_⟩
      split <;> rfl
    have hstays : ∀ {p : Nat}, (∃ r', s.requests[p]? = some r' ∧ r'.phase.isReader = false) →
        ∃ r', (s.chain id conn (some name)).requests[p]? = some r' ∧
          r'.phase.isReader = false := by
      rintro p ⟨r', hr', hs'⟩
      obtain ⟨r'', hr'', hphase⟩ := hto hr'
      exact ⟨r'', hr'', hphase ▸ hs'⟩
    exact
      { sizes := by
          intro i r' hr'
          obtain ⟨r₀, hr₀, _, hsize, _⟩ := hof hr'
          rw [hsize]
          exact h.sizes i r₀ hr₀
        reader := by
          intro i r' hr' hreader
          obtain ⟨r₀, hr₀, hconn, _, hphase, _⟩ := hof hr'
          rw [hconn]
          exact h.reader i r₀ hr₀ (hphase ▸ hreader)
        prevs := by
          intro i r' p hr' hp
          obtain ⟨r₀, hr₀, _, _, _, hprev | ⟨rfl, hprev⟩⟩ := hof hr'
          · obtain ⟨hlt, hs'⟩ := h.prevs i r₀ p hr₀ (hprev ▸ hp)
            exact ⟨hlt, hstays hs'⟩
          · rw [hprev] at hp
            exact ⟨hbefore name p hp, hstays (h.chained _ p hp).1⟩
        chained := by
          intro key p hp
          have hp : Function.update s.chains (conn, name) (some id) key = some p := hp
          by_cases hkey : key = (conn, name)
          · rw [hkey, Function.update_self] at hp
            cases hp
            refine ⟨hstays ⟨r, hr, hspawned⟩, fun i hi => ?_⟩
            have hi : s.reader key.1 = some i := hi
            rw [hkey, hidle] at hi
            exact nomatch hi
          · rw [Function.update_of_ne hkey] at hp
            exact ⟨hstays (h.chained key p hp).1, (h.chained key p hp).2⟩
        queued := by
          intro i hi
          obtain ⟨r', hr', hwaits⟩ := h.queued i hi
          obtain ⟨r'', hr'', hphase⟩ := hto hr'
          exact ⟨r'', hr'', hphase ▸ hwaits⟩
        nodup := h.nodup
        inflating := by
          intro i r' hr' hinf
          obtain ⟨r₀, hr₀, _, _, hphase, _⟩ := hof hr'
          exact h.inflating i r₀ hr₀ (hphase ▸ hinf) }

/-- A gzip request queues for its second reservation. -/
theorem inflate (hr : s.requests[id]? = some r) (hphase : r.phase = .spawned) :
    Server.Sound { s.setPhase id .inflating with queue := s.queue ++ [id] } := by
  have hlinked : (s.setPhase id .inflating).Linked := h.toLinked.setPhase hr nofun
  have hnot : id ∉ s.queue := by
    intro hmem
    obtain ⟨r', hr', hwaits⟩ := h.queued id hmem
    rw [hr] at hr'
    cases hr'
    simp [hphase] at hwaits
  refine ⟨⟨hlinked.sizes, hlinked.reader, hlinked.prevs, hlinked.chained⟩, ?_, ?_, ?_⟩
  · intro i hi
    rcases List.mem_append.mp hi with hi | hi
    · obtain ⟨r', hr', hwaits⟩ := h.queued i hi
      have hne : i ≠ id := fun hid => hnot (hid ▸ hi)
      exact ⟨r', (setPhase_other hne).trans hr', hwaits⟩
    · rw [List.mem_singleton.mp hi]
      exact ⟨_, setPhase_self hr, .inr rfl⟩
  · refine List.nodup_append.mpr ⟨h.nodup, List.pairwise_singleton _ _, fun a ha b hb hab => ?_⟩
    rw [hab, List.mem_singleton.mp hb] at ha
    exact hnot ha
  · intro i r' hr' hinf
    obtain ⟨r₀, hr₀, _, _, _, ⟨rfl, _⟩ | ⟨_, rfl⟩⟩ := of_setPhase hr'
    · exact List.mem_append_right _ (List.mem_singleton_self _)
    · exact List.mem_append_left _ (h.inflating i r' hr₀ hinf)

theorem step {e : Event} (hs : s.step e = some s') : s'.Sound := by
  cases e with
  | announce conn size topic =>
    obtain ⟨⟨hfree, _, hsize⟩, hs⟩ := Option.ite_none_right_eq_some.mp hs
    cases hs
    exact h.announce hfree hsize
  | body id =>
    obtain ⟨r, hr, rfl⟩ := Option.map_eq_some_iff.mp hs
    obtain ⟨hr, hphase⟩ := inPhase_eq_some hr
    exact h.move hr (by simp [hphase]) nofun (by simp [hphase, Phase.isReader])
  | drop id =>
    obtain ⟨r, hr, rfl⟩ := Option.map_eq_some_iff.mp hs
    have hr : s.requests[id]? = some r ∧ (r.phase = .reading ∨ r.phase = .received) := by
      rcases Option.or_eq_some_iff.mp hr with hr | ⟨_, hr⟩
      · exact ⟨(inPhase_eq_some hr).1, .inl (inPhase_eq_some hr).2⟩
      · exact ⟨(inPhase_eq_some hr).1, .inr (inPhase_eq_some hr).2⟩
    exact h.leaveReader hr.1 hr.2 rfl nofun
  | grant => exact h.grant hs
  | spawn id =>
    simp only [Server.step] at hs
    split at hs
    · rename_i r hr
      obtain ⟨_, hs⟩ := Option.ite_none_right_eq_some.mp hs
      cases hs
      obtain ⟨hr, hphase⟩ := inPhase_eq_some hr
      have hnext : ((s.setPhase id .spawned).nextFrame r.conn).Sound :=
        h.leaveReader hr (.inr hphase) rfl nofun
      exact hnext.chain (setPhase_self hr) rfl (Function.update_self ..)
        fun name p hp => (h.chained _ p hp).2 id (h.reader id r hr (by rw [hphase]; rfl))
    · exact nomatch hs
  | answer id =>
    simp only [Server.step] at hs
    split at hs
    · rename_i r hr
      obtain ⟨_, hs⟩ := Option.ite_none_right_eq_some.mp hs
      cases hs
      obtain ⟨hr, hphase⟩ := inPhase_eq_some hr
      exact h.leaveReader hr (.inr hphase) rfl nofun
    · exact nomatch hs
  | start id =>
    simp only [Server.step] at hs
    split at hs
    · rename_i r hr
      obtain ⟨_, hs⟩ := Option.ite_none_right_eq_some.mp hs
      obtain ⟨hr, hphase⟩ := inPhase_eq_some hr
      split at hs
      · cases hs
        exact h.inflate hr hphase
      · cases hs
        exact h.move hr (by simp [hphase]) nofun nofun
    · exact nomatch hs
  | finish id =>
    obtain ⟨r, hr, rfl⟩ := Option.map_eq_some_iff.mp hs
    obtain ⟨hr, hphase⟩ := inPhase_eq_some hr
    exact h.move hr (by simp [hphase]) nofun nofun
  | release id =>
    obtain ⟨r, hr, rfl⟩ := Option.map_eq_some_iff.mp hs
    obtain ⟨hr, hphase⟩ := inPhase_eq_some hr
    exact h.move hr (by simp [hphase]) nofun nofun

end Sound

end

theorem sound_opened (maxRecordBytes : Nat) (gzip : Nat → Bool) :
    (opened maxRecordBytes gzip).Sound where
  sizes := fun _ _ hr => nomatch hr
  reader := fun _ _ hr => nomatch hr
  prevs := fun _ _ _ hr => nomatch hr
  chained := fun _ _ hp => nomatch hp
  queued := fun _ hi => absurd hi List.not_mem_nil
  nodup := List.nodup_nil
  inflating := fun _ _ hr => nomatch hr

theorem Sound.run (h : s.Sound) {events : List Event} (hs : s.run events = some s') : s'.Sound :=
  foldlM_keeps (fun _ _ _ _ h hs => h.step hs) h hs

/-! ### Progress -/

theorem kib_mono {a b : Nat} (h : a ≤ b) : kib a ≤ kib b := by
  unfold kib
  omega

section
variable (hr : s.requests[id]? = some r)
include hr

theorem isSome_inPhase (hphase : r.phase = phase) : s.inPhase id phase = some r := by
  simp [inPhase, hr, hphase]

theorem canStep_of_running (hphase : r.phase = .running) :
    s.CanStep := ⟨.finish id, rfl, by simp [Server.step, isSome_inPhase hr hphase]⟩

theorem canStep_of_responding (hphase : r.phase = .responding) :
    s.CanStep := ⟨.release id, rfl, by simp [Server.step, isSome_inPhase hr hphase]⟩

end

theorem seconds_eq_zero (hno : ∀ r ∈ s.requests, r.phase ≠ .running) : s.seconds = 0 := by
  refine List.sum_eq_zero fun n hn => ?_
  obtain ⟨r, hr, rfl⟩ := List.mem_map.mp hn
  simp [second, hno r hr]

/-- With no request running, the first waiter in the queue can be served. -/
theorem Sound.canStep_of_inflating (h : s.Sound) (hroom : s.Roomy)
    (hr : s.requests[id]? = some r) (hphase : r.phase = .inflating) : s.CanStep := by
  by_cases hrun : ∃ r ∈ s.requests, r.phase = .running
  · obtain ⟨r', hr', hp⟩ := hrun
    obtain ⟨i, hi⟩ := List.mem_iff_getElem?.mp hr'
    exact canStep_of_running hi hp
  · have hno : ∀ r ∈ s.requests, r.phase ≠ .running := fun r hr hp => hrun ⟨r, hr, hp⟩
    have hfirsts := hroom ⟨r, List.mem_iff_getElem?.mpr ⟨id, hr⟩, hphase⟩
    obtain ⟨first, queue, hqueue⟩ := List.exists_cons_of_ne_nil
      (List.ne_nil_of_mem (h.inflating id r hr hphase))
    obtain ⟨r', hr', _⟩ := h.queued first (hqueue ▸ List.mem_cons_self)
    have hneed : s.need r' ≤ s.free := by
      have hle : s.need r' ≤ kib s.maxRequest := by
        unfold need
        split
        · exact kib_mono (h.sizes first r' hr')
        · exact Nat.le_refl _
      rw [free, seconds_eq_zero hno]
      omega
    exact ⟨.grant, rfl, by simp [Server.step, Server.grant, hqueue, hr', hneed]⟩

/-- Follow the chain back to a request that is not held up by another one. -/
theorem Sound.canStep_of_spawned (h : s.Sound) (hroom : s.Roomy)
    (hr : s.requests[id]? = some r) (hphase : r.phase = .spawned) : s.CanStep := by
  induction id using Nat.strong_induction_on generalizing r with
  | _ id ih =>
    by_cases hdone : r.prev.all s.isDone
    · refine ⟨.start id, rfl, ?_⟩
      simp only [Server.step, isSome_inPhase hr hphase, hdone, if_true]
      split <;> rfl
    · cases hprev : r.prev with
      | none => simp [hprev] at hdone
      | some p =>
        obtain ⟨hlt, r', hr', hspawned⟩ := h.prevs id r p hr hprev
        rw [hprev] at hdone
        cases hp : r'.phase with
        | announced | reading | received => simp [hp, Phase.isReader] at hspawned
        | spawned => exact ih p hlt hr' hp
        | inflating => exact h.canStep_of_inflating hroom hr' hp
        | running => exact canStep_of_running hr' hp
        | responding | finished => simp [isDone, hr', hp] at hdone

theorem Sound.canStep_of_inflight (h : s.Sound) (hroom : s.Roomy) (hr : r ∈ s.requests)
    (hphase : r.phase.isInflight) : s.CanStep := by
  obtain ⟨i, hi⟩ := List.mem_iff_getElem?.mp hr
  cases hp : r.phase with
  | announced | reading | received | finished => simp [hp, Phase.isInflight] at hphase
  | spawned => exact h.canStep_of_spawned hroom hi hp
  | inflating => exact h.canStep_of_inflating hroom hi hp
  | running => exact canStep_of_running hi hp
  | responding => exact canStep_of_responding hi hp

end

end Server

/-- **The budget does not deadlock where frames leave room.** In every state that any mix of
connections, frames and requests leads to: if some request has been received and holds its
permits, and the frames leave room for one more reservation whenever a request waits to
inflate its payload, then some step of the server is possible. -/
theorem budget_progress {maxRecordBytes : Nat} {gzip : Nat → Bool} {events : List Event}
    {s : Server} (hrun : (Server.opened maxRecordBytes gzip).run events = some s)
    (hroom : s.Roomy) (hwaiting : s.Waiting) : s.CanStep := by
  have h := (Server.sound_opened maxRecordBytes gzip).run hrun
  obtain ⟨r, hr, hphase | hphase⟩ := hwaiting
  · obtain ⟨id, hid⟩ := List.mem_iff_getElem?.mp hr
    by_cases hslot : s.inflight r.conn < maxInflightPerConn
    · exact ⟨.spawn id, rfl, by
        simp [Server.step, Server.isSome_inPhase hid hphase, hslot]⟩
    · -- Its connection is full of requests, and one of those can move.
      have hpos : 0 < s.inflight r.conn :=
        Nat.lt_of_lt_of_le (by decide) (Nat.le_of_not_lt hslot)
      obtain ⟨r', hr', hp⟩ := List.countP_pos_iff.mp hpos
      exact h.canStep_of_inflight hroom hr' (by simp_all)
  · exact h.canStep_of_inflight hroom hr hphase

/-- Two connections send gzip frames of 8 MiB. On the first, one produce waits for another of its
topic, which waits to inflate its payload, as the request of the second connection does. -/
def threeWaiting : List Event :=
  ([0, 0, 1].zipIdx.flatMap fun (conn, i) =>
    ([.announce conn (8 * 2 ^ 20) (if conn = 0 then some ['t'] else none), .grant, .body i,
      .spawn i] : List Event)) ++ ([.start 0, .start 2] : List Event)

theorem threeWaiting_runs :
    ((Server.opened (8 * 2 ^ 20) fun _ => true).run threeWaiting).isSome := by decide +kernel

theorem budget_progress_inflating :
    (((Server.opened (8 * 2 ^ 20) fun _ => true).run threeWaiting).get
      threeWaiting_runs).CanStep :=
  budget_progress (Option.some_get threeWaiting_runs).symm (fun _ => by decide +kernel)
    ⟨⟨0, 8 * 2 ^ 20, some ['t'], some 0, .spawned⟩, by decide +kernel, .inr rfl⟩

/-! ### Frames that leave no room -/

/-- Where all requests wait to inflate and the first cannot, nothing moves. -/
theorem Server.not_canStep {s : Server} (hall : ∀ r ∈ s.requests, r.phase = .inflating)
    (hgrant : s.grant = none) : ¬ s.CanStep := by
  rintro ⟨e, hinternal, hstep⟩
  have hphase : ∀ id phase, phase ≠ .inflating → s.inPhase id phase = none := by
    intro id phase hne
    by_contra hsome
    obtain ⟨r, hr⟩ := Option.ne_none_iff_exists'.mp hsome
    obtain ⟨hr, hp⟩ := inPhase_eq_some hr
    exact hne (hp.symm.trans (hall r (List.mem_iff_getElem?.mpr ⟨id, hr⟩)))
  cases e <;> simp_all [Server.step, Event.internal]

/-- One connection sends 31 gzip frames of 33 MiB; each request is spawned before the first
of them gets to run. -/
def largeFrames : List Event :=
  ((List.range 31).flatMap fun i =>
    ([.announce 0 (33 * 2 ^ 20) none, .grant, .body i, .spawn i] : List Event)) ++
    (List.range 31).map Event.start

theorem largeFrames_runs :
    ((Server.opened (32 * 2 ^ 20) fun _ => true).run largeFrames).isSome := by decide +kernel

/-- All 31 requests hold 33 MiB and wait for 33 MiB more, of which 1 MiB is left. -/
theorem budget_deadlock :
    ∃ s, (Server.opened (32 * 2 ^ 20) fun _ => true).run largeFrames = some s ∧ s.Waiting ∧
      ¬ s.CanStep := by
  refine ⟨_, (Option.some_get largeFrames_runs).symm, ?_, Server.not_canStep ?_ ?_⟩
  · exact ⟨⟨0, 33 * 2 ^ 20, none, none, .inflating⟩, by decide +kernel, .inr rfl⟩
  · decide +kernel
  · have hgrant : (((Server.opened (32 * 2 ^ 20) fun _ => true).run largeFrames).get
        largeFrames_runs).grant.isNone := by decide +kernel
    exact Option.isNone_iff_eq_none.mp hgrant

end EventStream.Binary
