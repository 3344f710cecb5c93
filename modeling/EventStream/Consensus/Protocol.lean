import Mathlib.Data.Finset.Card
import Mathlib.Data.List.Infix
import Mathlib.Logic.Function.Basic
import Mathlib.Logic.Relation

/-! Leader-based log agreement, without messages.

Nodes hold logs, which are lists of entries, and pass through terms. In a term a
node may vote once; a candidate with a quorum of votes leads the term, and the
log of that leader (`lead`) only grows. Everybody else copies prefixes of it and
acknowledges them. The state keeps what a proof needs long after the fact: the
log a candidate stood with, the log a voter held when it voted, the length each
node has acknowledged in each term.

A log is `Anchored` when each of its prefixes is a prefix of the log of the
leader that wrote the prefix's last entry. That is log matching, stated against
leaders and not against pairs of logs, and every step keeps it. The other half
is `Retained`: what a node acknowledged in a term it still holds, or some later
leader does not have it. Nothing here knows how a prefix travels. -/
namespace Consensus

/-- Sets of nodes any two of which meet. -/
structure Quorums (N : Type) where
  IsQuorum : Finset N → Prop
  meet : ∀ P Q, IsQuorum P → IsQuorum Q → ∃ n, n ∈ P ∧ n ∈ Q

structure State (N E : Type) where
  term : N → Nat
  log : N → List E
  /-- Whom a node voted for in a term, and the log it held then. -/
  vote : N → Nat → Option (N × List E)
  /-- The log a node stood for election with. -/
  stood : N → Nat → Option (List E)
  /-- Who leads a term, and the log it was elected with. -/
  leader : Nat → Option (N × List E)
  /-- The log of the term's leader, as far as it got. -/
  lead : Nat → List E
  /-- The length of the leader's log a node has acknowledged in a term. -/
  acked : N → Nat → Nat

section Protocol
variable {N E : Type} (termOf : E → Nat) {T b b' : Nat}

/-- The term of the last entry, zero for the empty log. -/
def lastTerm (l : List E) : Nat := (l.getLast?.map termOf).getD 0

/-- `l` is at least as up to date as `m`. -/
def UpToDate (l m : List E) : Prop :=
  lastTerm termOf m < lastTerm termOf l ∨
    (lastTerm termOf m = lastTerm termOf l ∧ m.length ≤ l.length)

/-! ### What never goes away -/

/-- `s'` is a later state than `s`: terms grow, votes and leaders stand, leaders'
logs are extended and acknowledgements kept. -/
structure Extends (s s' : State N E) : Prop where
  term : ∀ n, s.term n ≤ s'.term n
  vote : ∀ n t v, s.vote n t = some v → s'.vote n t = some v
  stood : ∀ n t l, s.stood n t = some l → s'.stood n t = some l
  leader : ∀ t l, s.leader t = some l → s'.leader t = some l
  lead : ∀ t, s.lead t <+: s'.lead t
  acked : ∀ n t, s.acked n t ≤ s'.acked n t

/-- What a step of `n` leaves alone: the other nodes and the terms they lead. -/
structure Frame (n : N) (s s' : State N E) : Prop where
  term : ∀ m, m ≠ n → s'.term m = s.term m
  log : ∀ m, m ≠ n → s'.log m = s.log m
  vote : ∀ m, m ≠ n → s'.vote m = s.vote m
  stood : ∀ m, m ≠ n → s'.stood m = s.stood m
  leader : ∀ t m l, m ≠ n → s'.leader t = some (m, l) → s.leader t = some (m, l)
  lead : ∀ t m l, m ≠ n → s.leader t = some (m, l) → s'.lead t = s.lead t

theorem Extends.refl (s : State N E) : Extends s s :=
  ⟨fun _ => Nat.le_refl _, fun _ _ _ h => h, fun _ _ _ h => h, fun _ _ h => h,
    fun _ => List.prefix_rfl, fun _ _ => Nat.le_refl _⟩

theorem Extends.trans {s s' s'' : State N E} (h : Extends s s') (h' : Extends s' s'') :
    Extends s s'' :=
  ⟨fun n => (h.term n).trans (h'.term n), fun n t v hv => h'.vote n t v (h.vote n t v hv),
    fun n t l hl => h'.stood n t l (h.stood n t l hl),
    fun t l hl => h'.leader t l (h.leader t l hl), fun t => (h.lead t).trans (h'.lead t),
    fun n t => (h.acked n t).trans (h'.acked n t)⟩

theorem Frame.refl (n : N) (s : State N E) : Frame n s s :=
  ⟨fun _ _ => rfl, fun _ _ => rfl, fun _ _ => rfl, fun _ _ => rfl, fun _ _ _ _ h => h,
    fun _ _ _ _ _ => rfl⟩

theorem Frame.trans {n : N} {s s' s'' : State N E} (he : Extends s s') (h : Frame n s s')
    (h' : Frame n s' s'') : Frame n s s'' :=
  ⟨fun m hm => (h'.term m hm).trans (h.term m hm), fun m hm => (h'.log m hm).trans (h.log m hm),
    fun m hm => (h'.vote m hm).trans (h.vote m hm),
    fun m hm => (h'.stood m hm).trans (h.stood m hm),
    fun t m l hm hl => h.leader t m l hm (h'.leader t m l hm hl),
    fun t m l hm hl => (h'.lead t m l hm (he.leader t _ hl)).trans (h.lead t m l hm hl)⟩

/-! ### The invariant -/

/-- Each prefix is a prefix of the log of the leader that wrote its last entry. -/
def Anchored (s : State N E) (l : List E) : Prop :=
  ∀ x e, x ++ [e] <+: l → s.leader (termOf e) ≠ none ∧ x ++ [e] <+: s.lead (termOf e)

/-- A leader of a term after `T`, up to `b`, was elected without `x`. -/
def Lacking (s : State N E) (T b : Nat) (x : List E) : Prop :=
  ∃ t c l, T < t ∧ t ≤ b ∧ s.leader t = some (c, l) ∧ ¬ x <+: l

/-- What `n` acknowledged in term `T` is in `m`, unless a later leader lacks it. -/
def Retained (s : State N E) (n : N) (T b : Nat) (m : List E) : Prop :=
  ∀ x, x <+: s.lead T → x.length ≤ s.acked n T → x <+: m ∨ Lacking s T b x

variable (q : Quorums N)

structure Inv (s : State N E) : Prop where
  vote_term : ∀ n t v, s.vote n t = some v → t ≤ s.term n
  vote_log : ∀ n t c m, s.vote n t = some (c, m) →
    Anchored termOf s m ∧ ∃ l, s.stood c t = some l ∧ UpToDate termOf l m
  vote_retained : ∀ n t c m, s.vote n t = some (c, m) → ∀ T, T < t → Retained s n T t m
  stood_vote : ∀ n t l, s.stood n t = some l → s.vote n t = some (n, l)
  stood_log : ∀ n t l, s.stood n t = some l →
    0 < t ∧ Anchored termOf s l ∧ ∀ e ∈ l, termOf e < t
  /-- A leader had a quorum, none of whose voters had yet heard of it. -/
  elected : ∀ t c l, s.leader t = some (c, l) → s.stood c t = some l ∧
    ∃ Q, q.IsQuorum Q ∧ ∀ v ∈ Q, ∃ m, s.vote v t = some (c, m) ∧
      ∀ T, T < t → Retained s v T (t - 1) m
  lead_shape : ∀ t c l, s.leader t = some (c, l) →
    ∃ r, s.lead t = l ++ r ∧ ∀ e ∈ r, termOf e = t
  lead_none : ∀ t, s.leader t = none → s.lead t = []
  lead_log : ∀ t, Anchored termOf s (s.lead t)
  own : ∀ n l, s.leader (s.term n) = some (n, l) → s.log n = s.lead (s.term n)
  log_log : ∀ n, Anchored termOf s (s.log n) ∧ ∀ e ∈ s.log n, termOf e ≤ s.term n
  acked_le : ∀ n t, s.acked n t ≤ (s.lead t).length
  acked_term : ∀ n t, 0 < s.acked n t → t ≤ s.term n
  retained : ∀ n T, Retained s n T (s.term n) (s.log n)

variable {termOf q}

theorem Anchored.of_isPrefix {s : State N E} {l m : List E} (h : Anchored termOf s l)
    (hm : m <+: l) : Anchored termOf s m :=
  fun x e hx => h x e (hx.trans hm)

theorem Anchored.mono {s s' : State N E} {l : List E} (h : Anchored termOf s l)
    (he : Extends s s') : Anchored termOf s' l := by
  intro x e hx
  obtain ⟨hl, hp⟩ := h x e hx
  obtain ⟨v, hv⟩ := Option.ne_none_iff_exists'.mp hl
  exact ⟨by rw [he.leader _ _ hv]; exact Option.some_ne_none _, hp.trans (he.lead _)⟩

theorem Anchored.concat {s : State N E} {l : List E} {e : E} (h : Anchored termOf s l)
    (hl : s.leader (termOf e) ≠ none) (hp : l ++ [e] <+: s.lead (termOf e)) :
    Anchored termOf s (l ++ [e]) := by
  intro x f hx
  rcases List.prefix_concat_iff.mp hx with heq | hx
  · obtain ⟨rfl, hf⟩ := List.append_inj' heq rfl
    cases hf
    exact ⟨hl, hp⟩
  · exact h x f hx

theorem Lacking.mono {s s' : State N E} {x : List E} (h : Lacking s T b x) (he : Extends s s')
    (hb : b ≤ b') : Lacking s' T b' x := by
  obtain ⟨t, c, l, hT, ht, hl, hx⟩ := h
  exact ⟨t, c, l, hT, ht.trans hb, he.leader _ _ hl, hx⟩

/-- A node that acknowledges nothing new retains what it did, in a later state. -/
theorem Retained.mono {s s' : State N E} {n : N} {m m' : List E} (h : Retained s n T b m)
    (he : Extends s s') (hb : b ≤ b') (hm : m <+: m') (ha : s'.acked n T = s.acked n T)
    (hle : s.acked n T ≤ (s.lead T).length) : Retained s' n T b' m' := by
  intro x hx hxl
  rw [ha] at hxl
  have hold : x <+: s.lead T :=
    List.prefix_of_prefix_length_le hx (he.lead T) (hxl.trans hle)
  exact (h x hold hxl).imp (fun hp => hp.trans hm) (fun hlack => hlack.mono he hb)

/-! ### Steps -/

section Steps
variable [DecidableEq N] {α : Type}

/-- Replace one value of a function of two arguments. -/
def set₂ {α : Type} (f : N → Nat → α) (n : N) (t : Nat) (a : α) : N → Nat → α :=
  Function.update f n (Function.update (f n) t a)

theorem set₂_self (f : N → Nat → α) (n : N) (t : Nat) (a : α) : set₂ f n t a n t = a := by
  simp [set₂]

theorem set₂_ne (f : N → Nat → α) {n m : N} {t u : Nat} (a : α) (h : m = n → u ≠ t) :
    set₂ f n t a m u = f m u := by
  by_cases hm : m = n
  · subst hm
    simp [set₂, Function.update_of_ne (h rfl)]
  · simp [set₂, Function.update_of_ne hm]

variable (termOf q)

/-- One step of node `n`. -/
inductive Step (n : N) (s : State N E) : State N E → Prop where
  /-- Move to a later term. -/
  | advance (t : Nat) (ht : s.term n < t) :
    Step n s {s with term := Function.update s.term n t}
  /-- Stand for election in a later term, voting for oneself. -/
  | stand (t : Nat) (ht : s.term n < t) :
    Step n s
      { s with
        term := Function.update s.term n t
        vote := set₂ s.vote n t (some (n, s.log n))
        stood := set₂ s.stood n t (some (s.log n)) }
  /-- Vote for a candidate whose log is up to date. -/
  | grant (c : N) (l : List E) (hv : s.vote n (s.term n) = none)
    (hc : s.stood c (s.term n) = some l) (hu : UpToDate termOf l (s.log n)) :
    Step n s {s with vote := set₂ s.vote n (s.term n) (some (c, s.log n))}
  /-- Lead the term, with a quorum of its votes. -/
  | elect (Q : Finset N) (hs : s.stood n (s.term n) = some (s.log n))
    (hn : s.leader (s.term n) = none) (hQ : q.IsQuorum Q)
    (hv : ∀ v ∈ Q, ∃ m, s.vote v (s.term n) = some (n, m)) :
    Step n s
      { s with
        leader := Function.update s.leader (s.term n) (some (n, s.log n))
        lead := Function.update s.lead (s.term n) (s.log n)
        acked := set₂ s.acked n (s.term n) (s.log n).length }
  /-- A leader writes an entry of its own term. -/
  | append (l : List E) (e : E) (hl : s.leader (s.term n) = some (n, l))
    (he : termOf e = s.term n) :
    Step n s
      { s with
        log := Function.update s.log n (s.log n ++ [e])
        lead := Function.update s.lead (s.term n) (s.lead (s.term n) ++ [e])
        acked := set₂ s.acked n (s.term n) ((s.lead (s.term n)).length + 1) }
  /-- Acknowledge a prefix of the leader's log that the node holds. -/
  | ack (x : List E) (hx : x <+: s.log n) (hl : x <+: s.lead (s.term n)) :
    Step n s
      {s with acked := set₂ s.acked n (s.term n) (max (s.acked n (s.term n)) x.length)}
  /-- Drop what conflicts with the leader's prefix `x` and keep or copy up to `y`. -/
  | replace (c : N) (l x y : List E) (hl : s.leader (s.term n) = some (c, l)) (hc : c ≠ n)
    (hx : x <+: s.lead (s.term n)) (hn : ¬ x <+: s.log n) (hy : y <+: x)
    (hk : ∀ z, z <+: s.log n → z <+: x → z <+: y) :
    Step n s {s with log := Function.update s.log n y}

/-- Any number of steps of one node. -/
def Steps (n : N) : State N E → State N E → Prop := Relation.ReflTransGen (Step termOf q n)

end Steps

end Protocol

end Consensus
