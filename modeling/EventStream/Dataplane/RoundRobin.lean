import EventStream.Dataplane.Retry

/-! Records without a key are routed by a counter that moves on with every request. A retry finds
its records in the windows only if the counter leads it to the same partitions. -/
namespace EventStream.Dataplane

open EventStream.Producers

/-- A retry comes in where the round-robin counter leads its records to the partitions they were
answered with. -/
def Broker.Reroutes (r : Request) (out : List Produced) (b : Broker) : Event → Prop
  | .arrive _ producer _ _ => producer = r.producer → b.Routes r out
  | _ => True

/-- The records of the producer in a partition. -/
def ofProducer (pid : String) (log : List Stored) : List Stored :=
  log.filter fun x => x.producer = pid

namespace Broker
variable {r : Request} {out : List Produced} {n : Nat} {b b' : Broker}

/-- Nothing of the producer is stored while it retries. -/
theorem Retrying.logs_step (h : b.Retrying r out n) {e : Event} (hwhole : b.AllOrNothing e)
    (hrestart : ∀ now, e ≠ .restart now) (hstep : b.step e = some b') (key : String × Nat)
    (p : Nat) : ofProducer r.producer (b'.logs key p) = ofProducer r.producer (b.logs key p) := by
  cases step_took hstep with
  | restarted => exact absurd rfl (hrestart _)
  | @appended _ p' q offsets ds written hq hp _ _ =>
    have hne := h.not_of_target hq hp (append_target hq hp hstep)
    show ofProducer _ ((b.store q p' _).logs key p) = _
    rw [store_logs]
    split
    · have hnone : ofProducer r.producer
          (((fresh ds p').zip offsets).map fun x => ⟨x.2, q.producer, x.1⟩) = [] := by
        refine List.filter_eq_nil_iff.mpr fun x hx => ?_
        obtain ⟨y, -, rfl⟩ := List.mem_map.mp hx
        simpa using hne
      unfold ofProducer at hnone ⊢
      rw [List.filter_append, hnone, List.append_nil]
    · rfl
  | straggled hq hp _ =>
    have := hwhole _ hq
    rw [hp] at this
    cases this
  | _ => rfl

theorem kept_of_whole (h : b.Whole) : b.Kept ∧ b.Owned :=
  h.keeps (P := fun b => b.Kept ∧ b.Owned) ⟨Kept.empty, Owned.empty⟩
    fun ⟨hkept, howned⟩ hwhole hstep =>
      ⟨hkept.step (fun now he => by subst he; exact hwhole.elim) hstep, howned.step hstep⟩

end Broker

/-- A record without a key, and two of them. -/
def keyless : List IncomingRecord := [⟨none, [1], none, some 0⟩]

def twoKeyless : List IncomingRecord := [⟨none, [1], none, some 0⟩, ⟨none, [2], none, some 0⟩]

/-- The empty broker with one topic of two partitions. -/
def twoPartitions : Broker :=
  { Broker.empty with
    topics := Function.update (fun _ => none) "t" (some ⟨"t", 0, 2⟩)
    created := Function.update (fun _ => 0) "t" 1 }

theorem twoPartitions_unmixed : twoPartitions.Unmixed :=
  Runs.refl.step (e := .createTopic "t" 2) (fun _ _ _ => Broker.forgotten_empty _) rfl

/-- Two records are produced to the two partitions. -/
def keylessOnce : List Event :=
  [.arrive "t" "producer" "key" twoKeyless, .admission 0 0, .append 0 1 [4], .append 0 0 [6],
    .record 0 0]

theorem keylessOnce_runs : (twoPartitions.runWhole keylessOnce).isSome = true := by
  decide +kernel

def keylessBefore : Broker := (twoPartitions.runWhole keylessOnce).get keylessOnce_runs

theorem keyless_answers : (keylessBefore.step (.journal 0)).isSome = true := by decide +kernel

def keylessAfter : Broker := (keylessBefore.step (.journal 0)).get keyless_answers

theorem keyless_request : keylessAfter.requests[0]?.isSome = true := by decide +kernel

def keylessRequest : Request := keylessAfter.requests[0]?.get keyless_request

theorem keylessAgain_runs :
    (keylessAfter.step (.arrive "t" "producer" "key" twoKeyless)).isSome = true := by
  decide +kernel

/-- They come in again, where the counter has gone round. -/
def keylessAgain : Broker :=
  (keylessAfter.step (.arrive "t" "producer" "key" twoKeyless)).get keylessAgain_runs

/-- A record is produced, and the request sent again. -/
def sentRoundRobin : List Event :=
  [.createTopic "t" 2, .arrive "t" "producer" "key" keyless, .admission 0 0, .append 0 0 [0],
    .record 0 0, .journal 0, .arrive "t" "producer" "key" keyless, .admission 1 1, .append 1 1 [0],
    .record 1 1, .journal 1]

end EventStream.Dataplane
