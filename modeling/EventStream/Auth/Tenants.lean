import Mathlib.Data.Set.Lattice
import Mathlib.Order.CompletePartialOrder
import EventStream.Auth.Keys

/-! Grants do not overlap by accident.

A hierarchical name ends, for a grant, where a separator stands on either side of the cut.
Such cuts of one name are linearly ordered, so the grants that reach one topic form a chain:
the topics of two grants are nested or disjoint. -/

/-! ### Cuts of a hierarchical name -/

namespace EventStream.Hierarchy

variable {α : Type*} {sep : α → Prop} {p q t : List α}

/-- `t` is the name `p`, or is below it: the two differ by a rest that starts at a
separator, or `p` ends in one. -/
def Under (sep : α → Prop) (p t : List α) : Prop :=
  ∃ rest, t = p ++ rest ∧ (rest = [] ∨ (∃ c ∈ p.getLast?, sep c) ∨ ∃ c ∈ rest.head?, sep c)

/-- A separator at the first cut is there for every longer name. -/
theorem Under.append {r : List α} (h : Under sep p (p ++ r)) (hr : r ≠ []) (s : List α) :
    Under sep p (p ++ (r ++ s)) := by
  obtain ⟨rest, heq, hcut⟩ := h
  obtain rfl : r = rest := List.append_cancel_left heq
  refine ⟨r ++ s, rfl, .inr ?_⟩
  rcases hcut with hnil | hlast | hhead
  · exact absurd hnil hr
  · exact .inl hlast
  · obtain ⟨c, hc, hsep⟩ := hhead
    exact .inr ⟨c, by simp [List.head?_append, Option.mem_def.mp hc], hsep⟩

theorem Under.trans (hpq : Under sep p q) (hqt : Under sep q t) : Under sep p t := by
  obtain ⟨r, rfl, -⟩ := id hpq
  obtain ⟨s, rfl, -⟩ := id hqt
  by_cases hr : r = []
  · subst hr
    simpa using hqt
  · rw [List.append_assoc]
    exact hpq.append hr s

/-- Of two names above one topic, the shorter is above the longer. -/
theorem Under.of_length_le (hp : Under sep p t) (hq : Under sep q t)
    (hle : p.length ≤ q.length) : Under sep p q := by
  obtain ⟨rest, rfl, hcut⟩ := hp
  obtain ⟨s, heq, -⟩ := hq
  have hpre : p <+: q :=
    List.prefix_of_prefix_length_le (List.prefix_append p rest) ⟨s, heq.symm⟩ hle
  obtain ⟨r, rfl⟩ := hpre
  have hrest : rest = r ++ s := by
    rw [List.append_assoc] at heq
    exact List.append_cancel_left heq
  refine ⟨r, rfl, ?_⟩
  by_cases hr : r = []
  · exact .inl hr
  rcases hcut with hnil | hlast | ⟨c, hc, hsep⟩
  · rw [hrest] at hnil
    exact absurd (List.append_eq_nil_iff.mp hnil).1 hr
  · exact .inr (.inl hlast)
  · obtain ⟨d, r', rfl⟩ := List.exists_cons_of_ne_nil hr
    rw [hrest] at hc
    exact .inr (.inr ⟨c, by simpa using hc, hsep⟩)

theorem Under.chain (hp : Under sep p t) (hq : Under sep q t) : Under sep p q ∨ Under sep q p :=
  (Nat.le_total p.length q.length).imp (hp.of_length_le hq) (hq.of_length_le hp)

end EventStream.Hierarchy

namespace EventStream.Auth
open Hierarchy

/-! ### What a prefix covers -/

/-- Below a name, as `prefix_matches` cuts it. -/
abbrev Below : Name → Name → Prop := Under (· ∈ nameSeparators)

theorem any_mem_separators (o : Option Char) :
    o.any (· ∈ nameSeparators) = true ↔ ∃ c ∈ o, c ∈ nameSeparators := by
  cases o <;> simp

theorem prefixMatches_iff (p topic : Name) :
    prefixMatches p topic = true ↔ p = ['*'] ∨ p ≠ [] ∧ Below p topic := by
  unfold prefixMatches
  by_cases hstar : p = ['*']
  · simp [hstar]
  by_cases hpre : p <+: topic
  · obtain ⟨rest, rfl⟩ := hpre
    have hbelow : Below p (p ++ rest) ↔ rest = [] ∨ (∃ c ∈ p.getLast?, c ∈ nameSeparators) ∨
        ∃ c ∈ rest.head?, c ∈ nameSeparators := by
      constructor
      · rintro ⟨r, heq, hcut⟩
        rwa [List.append_cancel_left heq]
      · exact fun hcut => ⟨rest, rfl, hcut⟩
    rw [if_neg hstar, hbelow, ← any_mem_separators, ← any_mem_separators]
    by_cases hnil : p = []
    · simp [hnil]
    · have hcond : ¬ (p = [] ∨ ¬ p.isPrefixOf (p ++ rest) = true) := by simp [hnil]
      rw [if_neg hcond, List.drop_left]
      simp [hstar, hnil, or_assoc]
  · have hbelow : ¬ Below p topic := fun ⟨rest, heq, _⟩ => hpre ⟨rest, heq.symm⟩
    have hcond : p = [] ∨ ¬ p.isPrefixOf topic = true := by
      simp [ List.isPrefixOf_iff_prefix, hpre]
    rw [if_neg hstar, if_pos hcond]
    simp [hstar, hbelow]

variable {p t q : Name} {g h : Grant}

/-- Only the wildcard covers the wildcard as a name. -/
theorem eq_star_of_below_star (hp : p ≠ []) (h : Below p ['*']) : p = ['*'] := by
  obtain ⟨rest, heq, -⟩ := h
  obtain ⟨c, p', rfl⟩ := List.exists_cons_of_ne_nil hp
  simp only [List.cons_append, List.cons.injEq, List.nil_eq, List.append_eq_nil_iff] at heq
  simp [← heq.1, heq.2.1]

theorem prefixMatches_trans (hpq : prefixMatches p q = true) (hqt : prefixMatches q t = true) :
    prefixMatches p t = true := by
  rw [prefixMatches_iff] at hpq hqt ⊢
  rcases hpq with hstar | ⟨hp, hpq⟩
  · exact .inl hstar
  · rcases hqt with rfl | ⟨-, hqt⟩
    · exact .inl (eq_star_of_below_star hp hpq)
    · exact .inr ⟨hp, hpq.trans hqt⟩

theorem prefixMatches_chain (hp : prefixMatches p t = true) (hq : prefixMatches q t = true) :
    prefixMatches p q = true ∨ prefixMatches q p = true := by
  rw [prefixMatches_iff] at hp hq
  rcases hp with hstar | ⟨hp, hpt⟩
  · exact .inl ((prefixMatches_iff p q).mpr (.inl hstar))
  rcases hq with hstar | ⟨hq, hqt⟩
  · exact .inr ((prefixMatches_iff q p).mpr (.inl hstar))
  · exact (hpt.chain hqt).imp (fun h => (prefixMatches_iff p q).mpr (.inr ⟨hp, h⟩))
      (fun h => (prefixMatches_iff q p).mpr (.inr ⟨hq, h⟩))

/-! ### Grants -/

/-- A prefix that `validate_prefix` accepts, as a grant carries it. -/
abbrev Grant := {p : Name // validatePrefix p = .ok ()}

/-- The topics of a grant. -/
def Grant.topics (g : Grant) : Set Name := {t | prefixMatches g.1 t = true}

/-- `g` covers the name of `h` and every topic that `h` covers. -/
def Grant.Contains (g h : Grant) : Prop := h.1 ∈ g.topics ∧ h.topics ⊆ g.topics

theorem Grant.contains_of_covers (hcov : h.1 ∈ g.topics) : g.Contains h :=
  ⟨hcov, fun _ ht => prefixMatches_trans hcov ht⟩

theorem Grant.contains_of_common (hg : t ∈ g.topics) (hh : t ∈ h.topics) :
    g.Contains h ∨ h.Contains g :=
  (prefixMatches_chain hg hh).imp contains_of_covers contains_of_covers

/-- A topic covered by two grants puts one of them inside the other; coverage is transitive;
so the topics of two grants are nested or disjoint. -/
theorem grants_laminar (g h : Grant) :
    (∀ t, t ∈ g.topics → t ∈ h.topics → g.Contains h ∨ h.Contains g) ∧
    (∀ t, h.1 ∈ g.topics → t ∈ h.topics → t ∈ g.topics) ∧
    (g.topics ⊆ h.topics ∨ h.topics ⊆ g.topics ∨ Disjoint g.topics h.topics) := by
  refine ⟨fun t hg hh => Grant.contains_of_common hg hh,
    fun t hcov ht => prefixMatches_trans hcov ht, ?_⟩
  by_cases hcommon : ∃ t, t ∈ g.topics ∧ t ∈ h.topics
  · obtain ⟨t, hg, hh⟩ := hcommon
    rcases Grant.contains_of_common hg hh with hin | hin
    · exact .inr (.inl hin.2)
    · exact .inl hin.2
  · exact .inr (.inr (Set.disjoint_left.mpr fun t hg hh => hcommon ⟨t, hg, hh⟩))

/-- A name that merely starts with the same letters is another tenant's. -/
example : prefixMatches "orders".toList "orders.eu".toList = true ∧
    prefixMatches "orders".toList "ordersarchive".toList = false := by decide

end EventStream.Auth
