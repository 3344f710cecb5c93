import EventStream.Consensus.Invariant

/-! Leaders have what was chosen, and what is chosen is one sequence.

A prefix of a leader's log is *chosen* in its term when its last entry is of that
term and a quorum has acknowledged it. `chosen_elected`: every later leader was
elected with it. The proof goes by induction on the later term: the two quorums
share a voter, which held the prefix when it voted, or a leader in between lacks
it; and a log at least as up to date as the voter's contains it, because both are
anchored. Everything a node may treat as settled lies below some chosen prefix, so
any two settled prefixes are comparable (`settled_comparable`). -/
namespace Consensus

variable {N E : Type} {T b t b' : Nat}

section Chosen
variable (termOf : E → Nat) (q : Quorums N)

structure Chosen (s : State N E) (T : Nat) (x : List E) : Prop where
  lead : x <+: s.lead T
  last : ∃ y e, x = y ++ [e] ∧ termOf e = T
  acked : ∃ Q, q.IsQuorum Q ∧ ∀ v ∈ Q, x.length ≤ s.acked v T

/-- `x` lies below something chosen in a term up to `b`. -/
def Settled (s : State N E) (b : Nat) (x : List E) : Prop :=
  x = [] ∨ ∃ T y, T ≤ b ∧ Chosen termOf q s T y ∧ x <+: y

end Chosen

variable {termOf : E → Nat} {q : Quorums N} {s s' : State N E}

theorem Chosen.mono {x : List E} (h : Chosen termOf q s T x) (he : Extends s s') :
    Chosen termOf q s' T x := by
  obtain ⟨hl, hlast, Q, hQ, ha⟩ := h
  exact ⟨hl.trans (he.lead T), hlast, Q, hQ, fun v hv => (ha v hv).trans (he.acked v T)⟩

theorem Settled.mono {x : List E} (h : Settled termOf q s b x) (he : Extends s s') (hb : b ≤ b') :
    Settled termOf q s' b' x := by
  rcases h with rfl | ⟨T, y, hT, hy, hx⟩
  · exact .inl rfl
  · exact .inr ⟨T, y, hT.trans hb, hy.mono he, hx⟩

theorem Settled.of_isPrefix {x y : List E} (h : Settled termOf q s b y) (hx : x <+: y) :
    Settled termOf q s b x := by
  rcases h with rfl | ⟨T, z, hT, hz, hy⟩
  · exact .inl (List.prefix_nil.mp hx)
  · exact .inr ⟨T, z, hT, hz, hx.trans hy⟩

/-! ### Anchored logs -/

theorem lastTerm_concat (l : List E) (e : E) : lastTerm termOf (l ++ [e]) = termOf e := by
  simp [lastTerm]

/-- A log that is not empty is a prefix of the log of the leader of its last term. -/
theorem Anchored.whole {l : List E} {e : E} (h : Anchored termOf s (l ++ [e])) :
    s.leader (termOf e) ≠ none ∧ l ++ [e] <+: s.lead (termOf e) :=
  h l e List.prefix_rfl

/-- **Log matching.** Two anchored logs with an entry of one term at one index
agree up to it. -/
theorem Anchored.matching {l m x y : List E} {e f : E} (hl : Anchored termOf s l)
    (hm : Anchored termOf s m) (hx : x ++ [e] <+: l) (hy : y ++ [f] <+: m)
    (hlen : x.length = y.length) (ht : termOf e = termOf f) : x ++ [e] = y ++ [f] := by
  have hxl := (hl x e hx).2
  have hyl := (hm y f hy).2
  rw [ht] at hxl
  exact (List.prefix_of_prefix_length_le hxl hyl (by simp [hlen])).eq_of_length (by simp [hlen])

section
variable (h : Inv termOf q s)
include h

theorem leader_pos (hl : s.leader t ≠ none) : 0 < t := by
  obtain ⟨⟨c, l⟩, hv⟩ := Option.ne_none_iff_exists'.mp hl
  exact (h.stood_log c t l (h.elected t c l hv).1).1

theorem leader_of_lead {x : List E} (hx : x <+: s.lead t) (hne : x ≠ []) : s.leader t ≠ none := by
  intro hn
  rw [h.lead_none t hn] at hx
  exact hne (List.prefix_nil.mp hx)

/-- A leader's log from before its election is the shorter part: an anchored log
that ends in an entry of the term reaches past it. -/
theorem elected_shorter {c : N} {l m : List E} {e : E} (hl : s.leader t = some (c, l))
    (hm : m ++ [e] <+: s.lead t) (he : termOf e = t) : l.length < (m ++ [e]).length := by
  by_contra hlt
  obtain ⟨r, hr, _⟩ := h.lead_shape t c l hl
  have hpre : m ++ [e] <+: l := List.prefix_of_prefix_length_le hm
    (by rw [hr]; exact List.prefix_append _ _) (Nat.le_of_not_lt hlt)
  have := (h.stood_log c t l (h.elected t c l hl).1).2.2 e (hpre.subset (by simp))
  omega

end

/-! ### Leader completeness -/

section
variable (h : Inv termOf q s)
include h

/-- A log at least as up to date as one that holds the chosen prefix holds it too,
if the leaders of the terms between do. -/
theorem upToDate_carries {x l m : List E} (hx : Chosen termOf q s T x) (hl : Anchored termOf s l)
    (hm : Anchored termOf s m) (hu : UpToDate termOf l m) (hxm : x <+: m)
    (hlater : ∀ t c k, T < t → t ≤ lastTerm termOf l → s.leader t = some (c, k) → x <+: k) :
    x <+: l := by
  obtain ⟨y, e, rfl, he⟩ := hx.last
  have hT : 0 < T := leader_pos h (leader_of_lead h hx.lead (by simp))
  rcases List.eq_nil_or_concat m with rfl | ⟨m', f, rfl⟩
  · exact absurd hxm.length_le (by simp)
  rw [List.concat_eq_append] at *
  obtain ⟨_, hmlead⟩ := hm.whole
  have hTm : T ≤ termOf f := by
    rw [← he]
    exact lead_terms h _ e ((hxm.trans hmlead).subset (by simp))
  rw [UpToDate, lastTerm_concat] at hu
  rcases List.eq_nil_or_concat l with rfl | ⟨l', g, rfl⟩
  · have : lastTerm termOf ([] : List E) = 0 := rfl
    omega
  rw [List.concat_eq_append] at *
  rw [lastTerm_concat] at hu hlater
  obtain ⟨hgl, hllead⟩ := hl.whole
  rcases hu with hlt | ⟨heq, hlen⟩
  · -- a later last term: that term's leader has the prefix, and the log reaches past it
    obtain ⟨⟨c, k⟩, hk⟩ := Option.ne_none_iff_exists'.mp hgl
    have hxk := hlater (termOf g) c k (by omega) (Nat.le_refl _) hk
    obtain ⟨r, hr, _⟩ := h.lead_shape _ c k hk
    have hshort := elected_shorter h hk hllead rfl
    exact List.prefix_of_prefix_length_le (hxk.trans (by rw [hr]; exact List.prefix_append _ _))
      hllead (hxk.length_le.trans (Nat.le_of_lt hshort))
  · -- the same last term: both logs are prefixes of that leader's, and this one is longer
    rw [heq] at hmlead
    exact hxm.trans (List.prefix_of_prefix_length_le hmlead hllead hlen)

/-- **Leader completeness.** A leader of a later term was elected with every prefix
chosen before. -/
theorem chosen_elected {x : List E} (hx : Chosen termOf q s T x) (t : Nat) (c : N) (l : List E)
    (hT : T < t) (hl : s.leader t = some (c, l)) : x <+: l := by
  induction t using Nat.strong_induction_on generalizing c l with
  | _ t ih =>
    obtain ⟨hst, Q, hQ, hq⟩ := h.elected t c l hl
    obtain ⟨P, hP, hp⟩ := hx.acked
    obtain ⟨v, hvP, hvQ⟩ := q.meet P Q hP hQ
    obtain ⟨m, hm, hr⟩ := hq v hvQ
    obtain ⟨hma, l', hl', hu⟩ := h.vote_log v t c m hm
    rw [hst] at hl'
    cases hl'
    obtain ⟨_, hla, hlow⟩ := h.stood_log c t l hst
    have hxm : x <+: m := by
      rcases hr T hT x hx.lead (hp v hvP) with hxm | ⟨u, d, k, hTu, hut, hk, hlack⟩
      · exact hxm
      · exact absurd (ih u (by omega) d k hTu hk) hlack
    refine upToDate_carries h hx hla hma hu hxm (fun u d k hTu hul hk => ih u ?_ d k hTu hk)
    rcases List.eq_nil_or_concat l with rfl | ⟨l', g, rfl⟩
    · have : lastTerm termOf ([] : List E) = 0 := rfl
      omega
    · rw [List.concat_eq_append] at *
      rw [lastTerm_concat] at hul
      exact hul.trans_lt (hlow g (by simp))

theorem chosen_lead {x : List E} (hx : Chosen termOf q s T x) (hT : T ≤ t)
    (hl : s.leader t ≠ none) : x <+: s.lead t := by
  rcases Nat.lt_or_eq_of_le hT with hT | rfl
  · obtain ⟨⟨c, l⟩, hv⟩ := Option.ne_none_iff_exists'.mp hl
    obtain ⟨r, hr, _⟩ := h.lead_shape t c l hv
    rw [hr]
    exact (chosen_elected h hx t c l hT hv).trans (List.prefix_append _ _)
  · exact hx.lead

theorem settled_lead {x : List E} (hx : Settled termOf q s b x) (hb : b ≤ t)
    (hl : s.leader t ≠ none) : x <+: s.lead t := by
  rcases hx with rfl | ⟨T, y, hT, hy, hxy⟩
  · exact List.nil_prefix
  · exact hxy.trans (chosen_lead h hy (hT.trans hb) hl)

end

/-! ### One sequence -/

/-- **Agreement.** Any two settled prefixes are prefixes of one sequence. -/
theorem settled_comparable (h : Inv termOf q s) {x y : List E} (hx : Settled termOf q s b x)
    (hy : Settled termOf q s b' y) : x <+: y ∨ y <+: x := by
  rcases hx with rfl | ⟨T, z, hT, hz, hxz⟩
  · exact .inl List.nil_prefix
  rcases hy with rfl | ⟨T', z', hT', hz', hyz⟩
  · exact .inr List.nil_prefix
  have hne {t : Nat} {w : List E} (hw : Chosen termOf q s t w) : s.leader t ≠ none := by
    obtain ⟨y, e, rfl, _⟩ := hw.last
    exact leader_of_lead h hw.lead (by simp)
  rcases Nat.le_total T T' with hle | hle
  · exact List.prefix_or_prefix_of_prefix (hxz.trans (chosen_lead h hz hle (hne hz')))
      (hyz.trans hz'.lead)
  · exact List.prefix_or_prefix_of_prefix (hxz.trans hz.lead)
      (hyz.trans (chosen_lead h hz' hle (hne hz)))

/-- A term has one leader: a quorum of its votes names the one it has. -/
theorem leader_unique (h : Inv termOf q s) {c n : N} {l : List E} {Q : Finset N}
    (hl : s.leader t = some (c, l)) (hQ : q.IsQuorum Q)
    (hv : ∀ v ∈ Q, ∃ m, s.vote v t = some (n, m)) : c = n := by
  obtain ⟨_, P, hP, hp⟩ := h.elected t c l hl
  obtain ⟨v, hvP, hvQ⟩ := q.meet P Q hP hQ
  obtain ⟨m, hm, _⟩ := hp v hvP
  obtain ⟨m', hm'⟩ := hv v hvQ
  rw [hm] at hm'
  exact congrArg Prod.fst (Option.some.inj hm')

/-! ### What a node keeps -/

variable [DecidableEq N] {n m : N} {x : List E}

/-- A step leaves a settled prefix in every log that has it: a leader the node follows has it
too. -/
theorem settled_kept (h : Inv termOf q s) (hs : Step termOf q n s s')
    (hx : Settled termOf q s b x) (hb : b ≤ s.term m) (hm : x <+: s.log m) : x <+: s'.log m := by
  cases hs with
  | advance | stand | grant | elect | ack => exact hm
  | append l e hl he =>
    by_cases hmn : m = n
    · subst hmn
      simpa using hm.trans (List.prefix_append _ _)
    · simpa [hmn] using hm
  | replace c l y z hl hc hy hn hz hk =>
    by_cases hmn : m = n
    · subst hmn
      have hlead := settled_lead h hx hb (by simp [hl])
      rcases List.prefix_or_prefix_of_prefix hlead hy with hxy | hyx
      · simpa using hk x hm hxy
      · exact absurd (hyx.trans hm) hn
    · simpa [hmn] using hm

theorem settled_keeps (h : Inv termOf q s) (hs : Steps termOf q n s s')
    (hx : Settled termOf q s b x) (hb : b ≤ s.term m) (hm : x <+: s.log m) : x <+: s'.log m := by
  induction hs with
  | refl => exact hm
  | tail hsteps hstep ih =>
    obtain ⟨hinv, hext, -⟩ := steps_sound h hsteps
    exact settled_kept hinv hstep (hx.mono hext (Nat.le_refl _)) (hb.trans (hext.term m)) ih

end Consensus
