import EventStream.Consensus.Protocol

/-! Every step keeps the invariant.

First what a step can do to the facts that never go away (`extends_of_step`) and
what it leaves alone (`frame_of_step`); with those, each kind of step only has to
account for what it adds. -/
namespace Consensus

variable {N E : Type} {termOf : E → Nat} {q : Quorums N} {n : N} {s s' : State N E} {t : Nat}

section
variable (h : Inv termOf q s)
include h

theorem fresh_vote (ht : s.term n < t) : s.vote n t = none := by
  cases hv : s.vote n t with
  | none => rfl
  | some v => exact absurd (h.vote_term n t v hv) (by omega)

theorem fresh_stood (ht : s.term n < t) : s.stood n t = none := by
  cases hv : s.stood n t with
  | none => rfl
  | some l =>
    have := h.stood_vote n t l hv
    rw [fresh_vote h ht] at this
    cases this

/-- A node does not lead a term it has not reached. -/
theorem fresh_leader (ht : s.term n < t) (l : List E) : s.leader t ≠ some (n, l) := by
  intro hl
  have := (h.elected t n l hl).1
  rw [fresh_stood h ht] at this
  cases this

end

theorem update_keeps {α : Type} {f : Nat → Option α} {a : Option α} (hf : f t = none) (u : Nat)
    (b : α) (hb : f u = some b) : Function.update f t a u = some b := by
  have hu : u ≠ t := by
    rintro rfl
    rw [hf] at hb
    cases hb
  rw [Function.update_of_ne hu, hb]

theorem prefix_update {a : List E} (ha : s.lead t <+: a) (u : Nat) :
    s.lead u <+: Function.update s.lead t a u := by
  by_cases hu : u = t
  · subst hu
    rw [Function.update_self]
    exact ha
  · rw [Function.update_of_ne hu]

/-- The leader of a term led by somebody else is not touched by writing at the
term `n` is in, unless that term has no leader or is led by `n`. -/
theorem lead_update {m : Nat} {c : N} {l a : List E} (hm : c ≠ n)
    (hn : s.leader t = none ∨ ∃ l', s.leader t = some (n, l')) (hl : s.leader m = some (c, l)) :
    Function.update s.lead t a m = s.lead m := by
  have hne : m ≠ t := by
    rintro rfl
    rcases hn with hn | ⟨l', hn⟩
    · rw [hn] at hl
      cases hl
    · rw [hn] at hl
      exact hm (congrArg Prod.fst (Option.some.inj hl)).symm
  rw [Function.update_of_ne hne]

/-- The entries of a leader's log are of its term or earlier ones. -/
theorem lead_terms (h : Inv termOf q s) (t : Nat) : ∀ e ∈ s.lead t, termOf e ≤ t := by
  intro e he
  cases hl : s.leader t with
  | none =>
    rw [h.lead_none t hl] at he
    exact absurd he List.not_mem_nil
  | some v =>
    obtain ⟨c, l⟩ := v
    obtain ⟨r, hr, ht⟩ := h.lead_shape t c l hl
    rw [hr] at he
    rcases List.mem_append.mp he with he | he
    · exact Nat.le_of_lt ((h.stood_log c t l (h.elected t c l hl).1).2.2 e he)
    · exact Nat.le_of_eq (ht e he)

/-- A leader's log grows by entries of its own term. -/
theorem lead_shape_concat (h : Inv termOf q s) {e : E} (he : termOf e = t) {u : Nat} {c : N}
    {l : List E} (hl : s.leader u = some (c, l)) :
    ∃ r, Function.update s.lead t (s.lead t ++ [e]) u = l ++ r ∧ ∀ f ∈ r, termOf f = u := by
  obtain ⟨r, hr, ht⟩ := h.lead_shape u c l hl
  by_cases hu : u = t
  · subst hu
    refine ⟨r ++ [e], by rw [Function.update_self, hr, List.append_assoc], fun f hf => ?_⟩
    rcases List.mem_append.mp hf with hf | hf
    · exact ht f hf
    · rw [List.mem_singleton.mp hf, he]
  · exact ⟨r, by rw [Function.update_of_ne hu, hr], ht⟩

/-- At an election nobody has heard of the new leader, so no voter lost anything to it. -/
theorem retained_before (h : Inv termOf q s) (h0 : 0 < t) (hn : s.leader t = none) {v c : N}
    {m : List E} (hv : s.vote v t = some (c, m)) {T : Nat} (hT : T < t) :
    Retained s v T (t - 1) m := by
  intro x hx hxl
  refine (h.vote_retained v t c m hv T hT x hx hxl).imp id ?_
  rintro ⟨u, d, l, hTu, hut, hl, hlack⟩
  have hne : u ≠ t := by
    rintro rfl
    rw [hn] at hl
    cases hl
  exact ⟨u, d, l, hTu, by omega, hl, hlack⟩

section Steps
variable [DecidableEq N] {t : Nat} {α : Type}

theorem set₂_keeps {f : N → Nat → Option α} {a : Option α} (hf : f n t = none) (m : N) (u : Nat)
    (b : α) (hb : f m u = some b) : set₂ f n t a m u = some b := by
  rw [set₂_ne f a, hb]
  rintro rfl rfl
  rw [hf] at hb
  cases hb

/-- A value of the updated function is an old one or the new one. -/
theorem set₂_cases {f : N → Nat → Option α} {v : N} {u : Nat} {a x : α}
    (hx : set₂ f n t (some a) v u = some x) : f v u = some x ∨ (v = n ∧ u = t ∧ x = a) := by
  by_cases h : v = n ∧ u = t
  · obtain ⟨rfl, rfl⟩ := h
    rw [set₂_self] at hx
    exact .inr ⟨rfl, rfl, (Option.some.inj hx).symm⟩
  · rw [set₂_ne f _ (fun hv hu => h ⟨hv, hu⟩)] at hx
    exact .inl hx

theorem term_update_le (ht : s.term n < t) (m : N) : s.term m ≤ Function.update s.term n t m := by
  by_cases hm : m = n
  · subst hm
    rw [Function.update_self]
    exact Nat.le_of_lt ht
  · rw [Function.update_of_ne hm]

theorem set₂_le {f : N → Nat → Nat} {a : Nat} (ha : f n t ≤ a) (m : N) (u : Nat) :
    f m u ≤ set₂ f n t a m u := by
  by_cases h : m = n ∧ u = t
  · obtain ⟨rfl, rfl⟩ := h
    rw [set₂_self]
    exact ha
  · rw [set₂_ne f a (fun hm hu => h ⟨hm, hu⟩)]

theorem extends_of_step (h : Inv termOf q s) (hs : Step termOf q n s s') : Extends s s' := by
  cases hs with
  | advance t ht => exact {Extends.refl s with term := term_update_le ht}
  | stand t ht =>
    exact {Extends.refl s with
      term := term_update_le ht
      vote := set₂_keeps (fresh_vote h ht)
      stood := set₂_keeps (fresh_stood h ht)}
  | grant c l hv hc hu => exact {Extends.refl s with vote := set₂_keeps hv}
  | elect Q hst hn hQ hv =>
    have hnone := h.lead_none _ hn
    refine {Extends.refl s with
      leader := update_keeps hn, lead := prefix_update ?_, acked := set₂_le ?_}
    · rw [hnone]
      exact List.nil_prefix
    · have := h.acked_le n (s.term n)
      rw [hnone] at this
      exact this.trans (Nat.zero_le _)
  | append l e hl he =>
    exact {Extends.refl s with
      lead := prefix_update (List.prefix_append _ _)
      acked := set₂_le ((h.acked_le n _).trans (Nat.le_succ _))}
  | ack x hx hl => exact {Extends.refl s with acked := set₂_le (Nat.le_max_left _ _)}
  | replace c l x y hl hc hx hn hy hk => exact {Extends.refl s with}

theorem frame_of_step (hs : Step termOf q n s s') : Frame n s s' := by
  cases hs with
  | advance t ht =>
    exact {Frame.refl n s with term := fun m hm => Function.update_of_ne hm _ _}
  | stand t ht =>
    exact {Frame.refl n s with
      term := fun m hm => Function.update_of_ne hm _ _
      vote := fun m hm => Function.update_of_ne hm _ _
      stood := fun m hm => Function.update_of_ne hm _ _}
  | grant c l hv hc hu =>
    exact {Frame.refl n s with vote := fun m hm => Function.update_of_ne hm _ _}
  | elect Q hst hn hQ hv =>
    refine {Frame.refl n s with
      leader := fun t m l hm hl => ?_
      lead := fun t m l hm => lead_update hm (.inl hn)}
    simp only [Function.update_apply] at hl
    split at hl
    · exact absurd (congrArg Prod.fst (Option.some.inj hl)).symm hm
    · exact hl
  | append l e hl he =>
    exact {Frame.refl n s with
      log := fun m hm => Function.update_of_ne hm _ _
      lead := fun t m l' hm => lead_update hm (.inr ⟨l, hl⟩)}
  | ack x hx hl => exact {Frame.refl n s with}
  | replace c l x y hl hc hx hn hy hk =>
    exact {Frame.refl n s with log := fun m hm => Function.update_of_ne hm _ _}

/-- Acknowledgements of earlier terms are final. -/
theorem acked_of_step (hs : Step termOf q n s s') (m : N) (T : Nat)
    (h : m = n → T ≠ s.term n) : s'.acked m T = s.acked m T := by
  cases hs with
  | elect Q hst hn hQ hv => exact set₂_ne _ _ h
  | append l e hl he => exact set₂_ne _ _ h
  | ack x hx hl => exact set₂_ne _ _ h
  | _ => rfl

/-- So are the logs of the leaders of other terms. -/
theorem lead_of_step (hs : Step termOf q n s s') {u : Nat} (hu : u ≠ s.term n) :
    s'.lead u = s.lead u := by
  cases hs with
  | elect Q hst hn hQ hv => exact Function.update_of_ne hu ..
  | append l e hl he => exact Function.update_of_ne hu ..
  | _ => rfl

section
variable (h : Inv termOf q s)
include h

section
variable (hs : Step termOf q n s s')
include hs

/-! What a step of `n` may add is at its own term: a proof about all terms is one about that. -/

theorem lead_log_of_step (hnew : Anchored termOf s' (s'.lead (s.term n))) (u : Nat) :
    Anchored termOf s' (s'.lead u) := by
  by_cases hu : u = s.term n
  · exact hu ▸ hnew
  · rw [lead_of_step hs hu]
    exact (h.lead_log u).mono (extends_of_step h hs)

theorem acked_le_of_step (hnew : s'.acked n (s.term n) ≤ (s'.lead (s.term n)).length) (m : N)
    (u : Nat) : s'.acked m u ≤ (s'.lead u).length := by
  by_cases hmu : m = n ∧ u = s.term n
  · exact hmu.1 ▸ hmu.2 ▸ hnew
  · rw [acked_of_step hs m u fun hm hu => hmu ⟨hm, hu⟩]
    exact (h.acked_le m u).trans ((extends_of_step h hs).lead u).length_le

theorem acked_term_of_step (m : N) (u : Nat) (ha : 0 < s'.acked m u) : u ≤ s'.term m := by
  refine Nat.le_trans ?_ ((extends_of_step h hs).term m)
  by_cases hmu : m = n ∧ u = s.term n
  · exact hmu.1 ▸ Nat.le_of_eq hmu.2
  · rw [acked_of_step hs m u fun hm hu => hmu ⟨hm, hu⟩] at ha
    exact h.acked_term m u ha

theorem retained_logs_of_step (hlog : s.log n <+: s'.log n)
    (hnew : Retained s' n (s.term n) (s'.term n) (s'.log n)) (m : N) (T : Nat) :
    Retained s' m T (s'.term m) (s'.log m) := by
  by_cases hmT : m = n ∧ T = s.term n
  · exact hmT.1 ▸ hmT.2 ▸ hnew
  · have he := extends_of_step h hs
    refine (h.retained m T).mono he (he.term m) ?_
      (acked_of_step hs m T fun hm hu => hmT ⟨hm, hu⟩) (h.acked_le m T)
    by_cases hm : m = n
    · exact hm ▸ hlog
    · rw [(frame_of_step hs).log m hm]

/-- A vote that was cast stays as good as it was: its voter acknowledges nothing
more in the terms before it. -/
theorem retained_of_step {v : N} {T b : Nat} {m : List E} (hT : T < t) (ht : t ≤ s.term v)
    (hr : Retained s v T b m) : Retained s' v T b m :=
  hr.mono (extends_of_step h hs) (Nat.le_refl _) List.prefix_rfl
    (acked_of_step hs v T (by rintro rfl; omega)) (h.acked_le v T)

theorem vote_of_step {v c : N} {m : List E} (hv : s.vote v t = some (c, m)) :
    (Anchored termOf s' m ∧ ∃ l, s'.stood c t = some l ∧ UpToDate termOf l m) ∧
      ∀ T, T < t → Retained s' v T t m := by
  obtain ⟨ha, l, hl, hu⟩ := h.vote_log v t c m hv
  have he := extends_of_step h hs
  exact ⟨⟨ha.mono he, l, he.stood _ _ _ hl, hu⟩, fun T hT =>
    retained_of_step h hs hT (h.vote_term v t _ hv) (h.vote_retained v t c m hv T hT)⟩

theorem elected_of_step {c : N} {l : List E} (hl : s.leader t = some (c, l)) :
    s'.stood c t = some l ∧ ∃ Q, q.IsQuorum Q ∧ ∀ v ∈ Q, ∃ m, s'.vote v t = some (c, m) ∧
      ∀ T, T < t → Retained s' v T (t - 1) m := by
  obtain ⟨hst, Q, hQ, hq⟩ := h.elected t c l hl
  have he := extends_of_step h hs
  refine ⟨he.stood _ _ _ hst, Q, hQ, fun v hv => ?_⟩
  obtain ⟨m, hm, hr⟩ := hq v hv
  exact ⟨m, he.vote _ _ _ hm, fun T hT =>
    retained_of_step h hs hT (h.vote_term v t _ hm) (hr T hT)⟩

theorem stood_of_step {c : N} {l : List E} (hl : s.stood c t = some l) :
    s'.vote c t = some (c, l) ∧ 0 < t ∧ Anchored termOf s' l ∧ ∀ e ∈ l, termOf e < t := by
  have he := extends_of_step h hs
  obtain ⟨h0, ha, hlow⟩ := h.stood_log c t l hl
  exact ⟨he.vote _ _ _ (h.stood_vote c t l hl), h0, ha.mono he, hlow⟩

end

end

/-! ### Step by step -/

section
variable (h : Inv termOf q s)
include h

section
variable (ht : s.term n < t)
include ht

/-- Terms moved, and with them what is measured against a node's term. -/
theorem own_of_later (m : N) (l : List E)
    (hl : s.leader (Function.update s.term n t m) = some (m, l)) :
    s.log m = s.lead (Function.update s.term n t m) := by
  by_cases hm : m = n
  · subst hm
    rw [Function.update_self] at hl
    exact absurd hl (fresh_leader h ht l)
  · rw [Function.update_of_ne hm] at hl ⊢
    exact h.own m l hl

theorem inv_advance : Inv termOf q {s with term := Function.update s.term n t} := by
  have hle := term_update_le ht
  exact {h with
    vote_term := fun m u v hv => (h.vote_term m u v hv).trans (hle m)
    own := own_of_later h ht
    log_log := fun m => ⟨(h.log_log m).1, fun e he => ((h.log_log m).2 e he).trans (hle m)⟩
    acked_term := fun m u ha => (h.acked_term m u ha).trans (hle m)
    retained := fun m T => (h.retained m T).mono (extends_of_step h (.advance t ht)) (hle m)
      List.prefix_rfl rfl (h.acked_le m T)}

theorem inv_stand :
    Inv termOf q
      { s with
        term := Function.update s.term n t
        vote := set₂ s.vote n t (some (n, s.log n))
        stood := set₂ s.stood n t (some (s.log n)) } := by
  have hs : Step termOf q n s _ := .stand t ht
  have he := extends_of_step h hs
  have hle := term_update_le ht
  obtain ⟨hanch, hlow⟩ := h.log_log n
  refine {h with
    vote_term := fun m u v hv => ?_
    vote_log := fun m u c l hv => ?_
    vote_retained := fun m u c l hv T hT => ?_
    stood_vote := fun m u l hl => ?_
    stood_log := fun m u l hl => ?_
    elected := fun u c l hl => elected_of_step h hs hl
    own := own_of_later h ht
    log_log := fun m => ⟨(h.log_log m).1, fun e he => ((h.log_log m).2 e he).trans (hle m)⟩
    acked_term := fun m u ha => (h.acked_term m u ha).trans (hle m)
    retained := fun m T => (h.retained m T).mono he (hle m) List.prefix_rfl rfl (h.acked_le m T)}
  · rcases set₂_cases hv with hv | ⟨rfl, rfl, rfl⟩
    · exact (h.vote_term m u v hv).trans (hle m)
    · simp
  · rcases set₂_cases hv with hv | ⟨rfl, rfl, hx⟩
    · exact (vote_of_step h hs hv).1
    · cases hx
      exact ⟨hanch, s.log m, set₂_self .., .inr ⟨rfl, Nat.le_refl _⟩⟩
  · rcases set₂_cases hv with hv | ⟨rfl, rfl, hx⟩
    · exact (vote_of_step h hs hv).2 T hT
    · cases hx
      exact (h.retained m T).mono he (Nat.le_of_lt ht) List.prefix_rfl rfl (h.acked_le m T)
  · rcases set₂_cases hl with hl | ⟨rfl, rfl, rfl⟩
    · exact (stood_of_step h hs hl).1
    · exact set₂_self ..
  · rcases set₂_cases hl with hl | ⟨rfl, rfl, rfl⟩
    · exact (stood_of_step h hs hl).2
    · exact ⟨by omega, hanch, fun e he => (hlow e he).trans_lt ht⟩

end

theorem inv_grant {c : N} {l : List E} (hv : s.vote n (s.term n) = none)
    (hc : s.stood c (s.term n) = some l) (hu : UpToDate termOf l (s.log n)) :
    Inv termOf q {s with vote := set₂ s.vote n (s.term n) (some (c, s.log n))} := by
  have hs : Step termOf q n s _ := .grant c l hv hc hu
  have he := extends_of_step h hs
  refine {h with
    vote_term := fun m u v hv => ?_
    vote_log := fun m u c l hv => ?_
    vote_retained := fun m u c l hv T hT => ?_
    stood_vote := fun m u l hl => (stood_of_step h hs hl).1
    elected := fun u c l hl => elected_of_step h hs hl}
  · rcases set₂_cases hv with hv | ⟨rfl, rfl, rfl⟩
    · exact h.vote_term m u v hv
    · exact Nat.le_refl _
  · rcases set₂_cases hv with hv | ⟨rfl, rfl, hx⟩
    · exact (vote_of_step h hs hv).1
    · cases hx
      exact ⟨(h.log_log m).1, _, hc, hu⟩
  · rcases set₂_cases hv with hv | ⟨rfl, rfl, hx⟩
    · exact (vote_of_step h hs hv).2 T hT
    · cases hx
      exact h.retained m T

theorem inv_elect {Q : Finset N} (hst : s.stood n (s.term n) = some (s.log n))
    (hn : s.leader (s.term n) = none) (hQ : q.IsQuorum Q)
    (hv : ∀ v ∈ Q, ∃ m, s.vote v (s.term n) = some (n, m)) :
    Inv termOf q
      { s with
        leader := Function.update s.leader (s.term n) (some (n, s.log n))
        lead := Function.update s.lead (s.term n) (s.log n)
        acked := set₂ s.acked n (s.term n) (s.log n).length } := by
  have hs : Step termOf q n s _ := .elect Q hst hn hQ hv
  have he := extends_of_step h hs
  have h0 := (h.stood_log n _ _ hst).1
  refine {h with
    vote_log := fun m u c l hv => (vote_of_step h hs hv).1
    vote_retained := fun m u c l hv => (vote_of_step h hs hv).2
    stood_log := fun m u l hl => (stood_of_step h hs hl).2
    elected := fun u c l hl => ?_
    lead_shape := fun u c l hl => ?_
    lead_none := fun u hu => ?_
    lead_log := lead_log_of_step h hs ?_
    own := fun m l hl => ?_
    log_log := fun m => ⟨(h.log_log m).1.mono he, (h.log_log m).2⟩
    acked_le := acked_le_of_step h hs ?_
    acked_term := acked_term_of_step h hs
    retained := retained_logs_of_step h hs List.prefix_rfl fun x hx _ => .inl ?_}
  all_goals dsimp only at *
  · by_cases hu : u = s.term n
    · subst hu
      rw [Function.update_self] at hl
      cases hl
      refine ⟨hst, Q, hQ, fun v hvQ => ?_⟩
      obtain ⟨m, hm⟩ := hv v hvQ
      exact ⟨m, hm, fun T hT =>
        retained_of_step h hs hT (h.vote_term v _ _ hm) (retained_before h h0 hn hm hT)⟩
    · rw [Function.update_of_ne hu] at hl
      exact elected_of_step h hs hl
  · by_cases hu : u = s.term n
    · subst hu
      rw [Function.update_self] at hl ⊢
      cases hl
      exact ⟨[], (List.append_nil _).symm, fun e he => absurd he List.not_mem_nil⟩
    · rw [Function.update_of_ne hu] at hl ⊢
      exact h.lead_shape u c l hl
  · by_cases hut : u = s.term n
    · subst hut
      rw [Function.update_self] at hu
      cases hu
    · rw [Function.update_of_ne hut] at hu ⊢
      exact h.lead_none u hu
  · rw [Function.update_self]
    exact (h.log_log n).1.mono he
  · by_cases hm : s.term m = s.term n
    · rw [hm, Function.update_self] at hl ⊢
      cases hl
      rfl
    · rw [Function.update_of_ne hm] at hl ⊢
      exact h.own m l hl
  · rw [set₂_self, Function.update_self]
  · rwa [Function.update_self] at hx

theorem inv_append {l : List E} {e : E} (hl : s.leader (s.term n) = some (n, l))
    (he : termOf e = s.term n) :
    Inv termOf q
      { s with
        log := Function.update s.log n (s.log n ++ [e])
        lead := Function.update s.lead (s.term n) (s.lead (s.term n) ++ [e])
        acked := set₂ s.acked n (s.term n) ((s.lead (s.term n)).length + 1) } := by
  have hs : Step termOf q n s _ := .append l e hl he
  have hext := extends_of_step h hs
  have hown := h.own n l hl
  -- the leader's new log is anchored in itself
  have hanch := (h.lead_log (s.term n)).mono hext
  have hlead := hanch.concat (e := e) (by rw [he, hl]; exact Option.some_ne_none _)
    (by rw [he]; simp)
  refine {h with
    vote_log := fun m u c l hv => (vote_of_step h hs hv).1
    vote_retained := fun m u c l hv => (vote_of_step h hs hv).2
    stood_log := fun m u l hl => (stood_of_step h hs hl).2
    elected := fun u c l hl => elected_of_step h hs hl
    lead_shape := fun u c l hl => lead_shape_concat h he hl
    lead_none := fun u hu => ?_
    lead_log := lead_log_of_step h hs ?_
    own := fun m l' hl' => ?_
    log_log := fun m => ?_
    acked_le := acked_le_of_step h hs ?_
    acked_term := acked_term_of_step h hs
    retained := retained_logs_of_step h hs ?_ fun x hx _ => .inl ?_}
  all_goals dsimp only at *
  · have hut : u ≠ s.term n := by
      rintro rfl
      rw [hl] at hu
      cases hu
    rw [Function.update_of_ne hut]
    exact h.lead_none u hu
  · rw [Function.update_self]
    exact hlead
  · by_cases hm : m = n
    · subst hm
      rw [Function.update_self, Function.update_self, hown]
    · have hne : s.term m ≠ s.term n := by
        intro heq
        rw [heq, hl] at hl'
        exact hm (congrArg Prod.fst (Option.some.inj hl')).symm
      rw [Function.update_of_ne hm, Function.update_of_ne hne]
      exact h.own m l' hl'
  · by_cases hm : m = n
    · subst hm
      rw [Function.update_self]
      refine ⟨by rw [hown]; exact hlead, fun f hf => ?_⟩
      rcases List.mem_append.mp hf with hf | hf
      · exact (h.log_log m).2 f hf
      · rw [List.mem_singleton.mp hf, he]
    · rw [Function.update_of_ne hm]
      exact ⟨(h.log_log m).1.mono hext, (h.log_log m).2⟩
  · rw [set₂_self, Function.update_self, List.length_append]
    rfl
  · rw [Function.update_self]
    exact List.prefix_append _ _
  · rw [Function.update_self] at hx
    rwa [Function.update_self, hown]

theorem inv_ack {x : List E} (hx : x <+: s.log n) (hl : x <+: s.lead (s.term n)) :
    Inv termOf q
      {s with acked := set₂ s.acked n (s.term n) (max (s.acked n (s.term n)) x.length)} := by
  have hs : Step termOf q n s _ := .ack x hx hl
  refine {h with
    vote_retained := fun m u c l hv => (vote_of_step h hs hv).2
    elected := fun u c l hl => elected_of_step h hs hl
    acked_le := acked_le_of_step h hs ?_
    acked_term := acked_term_of_step h hs
    retained := retained_logs_of_step h hs List.prefix_rfl fun y hy hyl => ?_}
  all_goals dsimp only at *
  · rw [set₂_self]
    exact max_le (h.acked_le n _) hl.length_le
  · rw [set₂_self] at hyl
    rcases le_max_iff.mp hyl with hyl | hyl
    · exact h.retained n _ y hy hyl
    · exact .inl ((List.prefix_of_prefix_length_le hy hl hyl).trans hx)

theorem inv_replace {c : N} {l x y : List E} (hl : s.leader (s.term n) = some (c, l)) (hc : c ≠ n)
    (hx : x <+: s.lead (s.term n)) (hn : ¬ x <+: s.log n) (hy : y <+: x)
    (hk : ∀ z, z <+: s.log n → z <+: x → z <+: y) :
    Inv termOf q {s with log := Function.update s.log n y} := by
  -- a prefix of the leader's log that the node holds is kept: it is shorter than `x`
  have hkeep : ∀ z, z <+: s.log n → z <+: s.lead (s.term n) → z <+: y := by
    intro z hz hzl
    rcases List.prefix_or_prefix_of_prefix hzl hx with hzx | hxz
    · exact hk z hz hzx
    · exact absurd (hxz.trans hz) hn
  refine {h with
    own := fun m l' hl' => ?_
    log_log := fun m => ?_
    retained := fun m T => ?_}
  all_goals dsimp only at *
  · have hm : m ≠ n := by
      rintro rfl
      rw [hl] at hl'
      exact hc (congrArg Prod.fst (Option.some.inj hl'))
    rw [Function.update_of_ne hm]
    exact h.own m l' hl'
  · by_cases hm : m = n
    · subst hm
      rw [Function.update_self]
      exact ⟨(h.lead_log _).of_isPrefix (hy.trans hx), fun e he =>
        lead_terms h _ e ((hy.trans hx).subset he)⟩
    · rw [Function.update_of_ne hm]
      exact h.log_log m
  · by_cases hm : m = n
    · subst hm
      intro z hz hzl
      rw [Function.update_self]
      rcases h.retained m T z hz hzl with hzm | hlack
      · rcases Nat.lt_trichotomy T (s.term m) with hT | rfl | hT
        · -- an earlier term: the present leader has the prefix, or is the one that lacks it
          by_cases hzL : z <+: l
          · obtain ⟨r, hr, _⟩ := h.lead_shape _ c l hl
            exact .inl (hkeep z hzm (hzL.trans (by rw [hr]; exact List.prefix_append _ _)))
          · exact .inr ⟨s.term m, c, l, hT, Nat.le_refl _, hl, hzL⟩
        · exact .inl (hkeep z hzm hz)
        · -- nothing was acknowledged in a later term
          have h0 : z.length = 0 := by
            by_contra hne
            have := h.acked_term m T (lt_of_lt_of_le (Nat.pos_of_ne_zero hne) hzl)
            omega
          rw [List.length_eq_zero_iff.mp h0]
          exact .inl List.nil_prefix
      · exact .inr hlack
    · rw [Function.update_of_ne hm]
      exact h.retained m T

theorem inv_of_step (hs : Step termOf q n s s') : Inv termOf q s' := by
  cases hs with
  | advance t ht => exact inv_advance h ht
  | stand t ht => exact inv_stand h ht
  | grant c l hv hc hu => exact inv_grant h hv hc hu
  | elect Q hst hn hQ hv => exact inv_elect h hst hn hQ hv
  | append l e hl he => exact inv_append h hl he
  | ack x hx hl => exact inv_ack h hx hl
  | replace c l x y hl hc hx hn hy hk => exact inv_replace h hl hc hx hn hy hk

end

/-! ### Runs -/

theorem steps_sound (h : Inv termOf q s) (hs : Steps termOf q n s s') :
    Inv termOf q s' ∧ Extends s s' ∧ Frame n s s' := by
  induction hs with
  | refl => exact ⟨h, Extends.refl s, Frame.refl n s⟩
  | tail _ hstep ih =>
    obtain ⟨hi, he, hf⟩ := ih
    exact ⟨inv_of_step hi hstep, he.trans (extends_of_step hi hstep),
      hf.trans he (frame_of_step hstep)⟩

end Steps

/-- Nobody has done anything. -/
def State.initial : State N E :=
  ⟨fun _ => 0, fun _ => [], fun _ _ => none, fun _ _ => none, fun _ => none, fun _ => [],
    fun _ _ => 0⟩

theorem anchored_nil (s : State N E) : Anchored termOf s [] := by
  intro x e hx
  exact absurd hx.length_le (by simp)

theorem inv_initial : Inv termOf q (State.initial : State N E) where
  vote_term := by intro n t v hv; cases hv
  vote_log := by intro n t c m hv; cases hv
  vote_retained := by intro n t c m hv; cases hv
  stood_vote := by intro n t l hl; cases hl
  stood_log := by intro n t l hl; cases hl
  elected := by intro t c l hl; cases hl
  lead_shape := by intro t c l hl; cases hl
  lead_none := fun _ _ => rfl
  lead_log := fun _ => anchored_nil _
  own := by intro n l hl; cases hl
  log_log := fun _ => ⟨anchored_nil _, fun e he => absurd he List.not_mem_nil⟩
  acked_le := fun _ _ => Nat.le_refl _
  acked_term := fun _ _ h => absurd h (Nat.lt_irrefl _)
  retained := fun _ _ _ hx _ => .inl hx

end Consensus
