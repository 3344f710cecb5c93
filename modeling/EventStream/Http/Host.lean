import EventStream.Auth.Keys

/-! The guard against DNS rebinding (`guard_host` and `host_allowed` in `http/mod.rs`).

With authentication disabled a request is served only if its `Host` header names this machine.
The header is taken apart by hand. The code finds the host of every header of the form `name`,
`name:port`, `[literal]` or `[literal]:port` (`hostName_of_hostPart`), but it looks for one in other
headers too, and the check of the name lets through every name that starts with `127.`. -/
namespace EventStream.Http

open EventStream.Auth (Name)

inductive AuthMode where
  | disabled
  | required
  deriving DecidableEq, Repr

/-- The address the server binds: whether it is the unspecified one, and its text. -/
structure BindIp where
  isUnspecified : Bool
  text : Name
  deriving DecidableEq, Repr

structure Config where
  authMode : AuthMode
  bindIp : BindIp
  allowedHosts : List Name
  deriving DecidableEq, Repr

/-! ### The code -/

def toAsciiLowercase (s : Name) : Name := s.map Char.toLower

def eqIgnoreAsciiCase (s t : Name) : Bool := toAsciiLowercase s = toAsciiLowercase t

/-- What stands before and after the last `c`. -/
def rsplitOnce (c : Char) : Name → Option (Name × Name)
  | [] => none
  | x :: s =>
    match rsplitOnce c s with
    | some (before, after) => some (x :: before, after)
    | none => if x = c then some ([], s) else none

/-- The part of the header that is checked. -/
def hostName (host : Name) : Name :=
  match host with
  | '[' :: rest => rest.takeWhile (· ≠ ']')
  | host => ((rsplitOnce ':' host).map Prod.fst).getD host

def hostAllowed (host : Name) (config : Config) : Bool :=
  let name := toAsciiLowercase (hostName host)
  if name ∈ ["localhost".toList, "127.0.0.1".toList, "::1".toList] ∨
      "127.".toList.isPrefixOf name then true
  else if !config.bindIp.isUnspecified ∧ name = config.bindIp.text then true
  else config.allowedHosts.any (eqIgnoreAsciiCase · name)

def hostNotAllowed : String :=
  "Host not allowed: authentication is disabled, so only loopback " ++
    "host names (or --allowed-host) are accepted"

/-- A request without the header is let through; one whose header is no text is not. -/
def guardHost (config : Config) (header : Option (Option Name)) : Except String Unit :=
  if config.authMode = .disabled then
    match header with
    | some text => if text.any (hostAllowed · config) then .ok () else .error hostNotAllowed
    | none => .ok ()
  else .ok ()

/-! ### What a header says -/

/-- The host of a header of the form `name`, `name:port`, `[literal]` or `[literal]:port`. -/
def hostPart (host : Name) : Option Name :=
  match host with
  | '[' :: rest =>
    match rest.dropWhile (· ≠ ']') with
    | [']'] => some (rest.takeWhile (· ≠ ']'))
    | ']' :: ':' :: port =>
      if port.all Char.isDigit then some (rest.takeWhile (· ≠ ']')) else none
    | _ => none
  | host =>
    match rsplitOnce ':' host with
    | some (name, port) => if port.all Char.isDigit then some name else none
    | none => some host

/-- The header is `h`, a colon and text without one; or a bracket and `h`, up to a closing bracket
or to its end. -/
inductive Front (h : Name) : Name → Prop
  | colon {text : Name} : h.head? ≠ some '[' → ':' ∉ text → Front h (h ++ ':' :: text)
  | bracket {text : Name} : ']' ∉ h → Front h ('[' :: (h ++ ']' :: text))
  | unclosed : ']' ∉ h → Front h ('[' :: h)

/-- A number from 0 to 255 in decimal, without leading zeros. -/
def isOctet (s : Name) : Bool := s ∈ (List.range 256).map (Nat.toDigits 10)

/-- A literal IPv4 address in 127.0.0.0/8. -/
def isLoopbackV4 (h : Name) : Bool :=
  match h.splitOn '.' with
  | [a, b, c, d] => a = "127".toList ∧ isOctet b ∧ isOctet c ∧ isOctet d
  | _ => false

/-- The names of this machine. -/
def ThisMachine (config : Config) (h : Name) : Prop :=
  toAsciiLowercase h = "localhost".toList ∨ isLoopbackV4 h ∨ h = "::1".toList ∨
  (config.bindIp.isUnspecified = false ∧ toAsciiLowercase h = config.bindIp.text) ∨
  ∃ a ∈ config.allowedHosts, eqIgnoreAsciiCase a h

instance (config : Config) (h : Name) : Decidable (ThisMachine config h) :=
  inferInstanceAs (Decidable (_ ∨ _ ∨ _ ∨ _ ∨ _))

/-! ### The host is found -/

variable {c : Char} {h s p host t : Name} {config : Config}

theorem takeWhile_ne_append (h : c ∉ s) (rest : Name) : (s ++ c :: rest).takeWhile (· ≠ c) = s := by
  have hall : ∀ x ∈ s, decide (x ≠ c) = true := fun x hx => by
    simp only [ne_eq, decide_eq_true_eq]
    rintro rfl
    exact h hx
  rw [List.takeWhile_append_of_pos hall]
  simp

theorem takeWhile_cases (c : Char) (s : Name) : c ∉ s.takeWhile (· ≠ c) ∧
    (s = s.takeWhile (· ≠ c) ∨ ∃ text, s = s.takeWhile (· ≠ c) ++ c :: text) := by
  induction s with
  | nil => exact ⟨List.not_mem_nil, .inl rfl⟩
  | cons x s ih =>
    by_cases hx : x = c
    · subst hx
      simp
    · rw [List.takeWhile_cons_of_pos (by simpa using hx)]
      obtain ⟨hmem, hcases⟩ := ih
      refine ⟨by simpa using ⟨Ne.symm hx, by simpa using hmem⟩, ?_⟩
      rcases hcases with hs | ⟨text, hs⟩
      · exact .inl (congrArg (x :: ·) hs)
      · exact .inr ⟨text, congrArg (x :: ·) hs⟩

theorem rsplitOnce_none (h : rsplitOnce c s = none) : c ∉ s := by
  induction s with
  | nil => exact List.not_mem_nil
  | cons x s ih =>
    rw [rsplitOnce] at h
    split at h
    · cases h
    · rename_i hs
      split at h
      · cases h
      · rename_i hx
        rw [List.mem_cons, not_or]
        exact ⟨Ne.symm hx, ih hs⟩

theorem rsplitOnce_some (h : rsplitOnce c s = some (t, p)) : s = t ++ c :: p ∧ c ∉ p := by
  induction s generalizing t with
  | nil => cases h
  | cons x s ih =>
    rw [rsplitOnce] at h
    split at h
    · rename_i hs
      cases h
      obtain ⟨rfl, hp⟩ := ih hs
      exact ⟨rfl, hp⟩
    · rename_i hs
      split at h
      · rename_i hx
        cases h
        exact ⟨by rw [hx]; rfl, rsplitOnce_none hs⟩
      · cases h

theorem rsplitOnce_append (hp : c ∉ p) (h : Name) : rsplitOnce c (h ++ c :: p) = some (h, p) := by
  induction h with
  | nil =>
    rw [List.nil_append, rsplitOnce]
    cases hs : rsplitOnce c p with
    | none => exact if_pos rfl
    | some found => exact absurd (by rw [(rsplitOnce_some hs).1]; simp) hp
  | cons x h ih => rw [List.cons_append, rsplitOnce, ih]

theorem hostName_of_head (h : host.head? ≠ some '[') :
    hostName host = ((rsplitOnce ':' host).map Prod.fst).getD host := by
  unfold hostName
  split
  · exact absurd rfl h
  · rfl

/-- The code finds the host of every well-formed header. -/
theorem hostName_of_hostPart (hpart : hostPart host = some h) : hostName host = h := by
  unfold hostPart at hpart
  split at hpart
  · split at hpart
    · exact Option.some.inj hpart
    · exact Option.some.inj (Option.ite_none_right_eq_some.mp hpart).2
    · cases hpart
  · rename_i hhead
    rw [hostName_of_head (fun h => by cases host <;> simp_all)]
    split at hpart
    · rename_i hsplit
      rw [hsplit]
      exact Option.some.inj (Option.ite_none_right_eq_some.mp hpart).2
    · rename_i hsplit
      rw [hsplit]
      exact Option.some.inj hpart

/-- What the code takes for the host of another header. -/
theorem hostName_of_front (hfront : Front h host) : hostName host = h := by
  cases hfront with
  | @colon text hhead htext =>
    have hne : (h ++ ':' :: text).head? ≠ some '[' := by
      cases h with
      | nil => simp
      | cons c h => simpa using hhead
    rw [hostName_of_head hne, rsplitOnce_append htext]
    rfl
  | bracket hclose => exact takeWhile_ne_append hclose _
  | unclosed hclose =>
    rcases (takeWhile_cases ']' h).2 with hh | ⟨text, hh⟩
    · exact hh.symm
    · exact absurd (by rw [hh]; simp) hclose

theorem front_hostName (hnone : hostPart host = none) : Front (hostName host) host := by
  unfold hostPart at hnone
  split at hnone
  · rename_i rest
    show Front (rest.takeWhile (· ≠ ']')) ('[' :: rest)
    obtain ⟨hclose, hrest⟩ := takeWhile_cases ']' rest
    generalize rest.takeWhile (· ≠ ']') = h at *
    rcases hrest with rfl | ⟨text, rfl⟩
    · exact .unclosed hclose
    · exact .bracket hclose
  · rename_i hhead
    have hne : host.head? ≠ some '[' := fun h => by cases host <;> simp_all
    split at hnone
    · rename_i name text hsplit
      obtain ⟨rfl, htext⟩ := rsplitOnce_some hsplit
      rw [hostName_of_head hne, hsplit]
      refine .colon ?_ htext
      cases name with
      | nil => simp
      | cons c name => simpa using hne
    · cases hnone

/-! ### What is admitted -/

/-- Only capital letters change, and they become small ones. -/
theorem toLower_cases (c : Char) :
    c.toLower = c ∨ 'a'.toNat ≤ c.toLower.toNat ∧ c.toLower.toLower = c.toLower := by
  by_cases hc : c.val ≥ 'A'.val ∧ c.val ≤ 'Z'.val
  · have hval : c.toLower.toNat = c.toNat + 32 := by
      have hZ : c.val.toNat ≤ 90 := hc.2
      have h32 : ('a'.val - 'A'.val).toNat = 32 := by decide
      have hlower : c.toLower = _ := dif_pos hc
      rw [hlower]
      show (c.val + ('a'.val - 'A'.val)).toNat = c.val.toNat + 32
      rw [UInt32.toNat_add]
      omega
    have hA : 65 ≤ c.toNat := hc.1
    have hsmall : ¬ (c.toLower.val ≥ 'A'.val ∧ c.toLower.val ≤ 'Z'.val) := fun h => by
      have hZ : c.toLower.toNat ≤ 90 := h.2
      omega
    refine .inr ⟨?_, ?_⟩
    · rw [hval]
      show 97 ≤ c.toNat + 32
      omega
    · exact dif_neg hsmall
  · exact .inl (dif_neg hc)

theorem toAsciiLowercase_idem (s : Name) :
    toAsciiLowercase (toAsciiLowercase s) = toAsciiLowercase s := by
  rw [toAsciiLowercase, toAsciiLowercase, List.map_map]
  refine List.map_congr_left fun c _ => ?_
  rcases toLower_cases c with h | h
  · exact congrArg Char.toLower h
  · exact h.2

/-- A name without small letters in lower case is written in one way only. -/
theorem eq_of_toAsciiLowercase (hlow : toAsciiLowercase h = t) (ht : t.all (·.toNat < 'a'.toNat)) :
    h = t := by
  subst hlow
  have hmap : h.map Char.toLower = h.map id := by
    refine List.map_congr_left fun c hc => ?_
    have hsmall := of_decide_eq_true (List.all_eq_true.mp ht _ (List.mem_map_of_mem hc))
    rcases toLower_cases c with h | h
    · exact h
    · exact absurd h.1 (Nat.not_le.mpr hsmall)
  rw [toAsciiLowercase, hmap, List.map_id]

theorem prefix_of_toAsciiLowercase (hlow : t <+: toAsciiLowercase h)
    (ht : t.all (·.toNat < 'a'.toNat)) : t <+: h := by
  have htake : toAsciiLowercase (h.take t.length) = t := by
    rw [toAsciiLowercase, List.map_take]
    exact (List.prefix_iff_eq_take.mp hlow).symm
  exact eq_of_toAsciiLowercase htake ht ▸ List.take_prefix t.length h

theorem prefix_of_isLoopbackV4 (h : isLoopbackV4 s) : "127.".toList <+: s := by
  unfold isLoopbackV4 at h
  split at h
  · rename_i a b c d hsplit
    have hs : ['.'].intercalate (s.splitOn '.') = s := List.intercalate_splitOn '.'
    rw [hsplit, (of_decide_eq_true h).1] at hs
    exact ⟨_, hs⟩
  · cases h

/-- What is let through: this machine, and everything that starts with `127.`. -/
theorem hostAllowed_iff : hostAllowed host config = true ↔
    "127.".toList <+: hostName host ∨ ThisMachine config (hostName host) := by
  have hlower (h : "127.".toList <+: hostName host) :
      "127.".toList <+: toAsciiLowercase (hostName host) := h.map Char.toLower
  have hlisted : config.allowedHosts.any (eqIgnoreAsciiCase · (toAsciiLowercase (hostName host))) =
      true ↔ ∃ a ∈ config.allowedHosts, eqIgnoreAsciiCase a (hostName host) := by
    simp only [List.any_eq_true, eqIgnoreAsciiCase, toAsciiLowercase_idem]
  unfold hostAllowed
  dsimp only
  constructor
  · intro h
    split at h
    · rename_i hname
      simp only [List.mem_cons, List.not_mem_nil, or_false, List.isPrefixOf_iff_prefix] at hname
      rcases hname with (hlocal | hfour | hsix) | hstart
      · exact .inr (.inl hlocal)
      · exact .inl (prefix_of_toAsciiLowercase ⟨"0.0.1".toList, hfour.symm⟩ (by decide))
      · exact .inr (.inr (.inr (.inl (eq_of_toAsciiLowercase hsix (by decide)))))
      · exact .inl (prefix_of_toAsciiLowercase hstart (by decide))
    split at h
    · rename_i hbind
      exact .inr (.inr (.inr (.inr (.inl (by simpa using hbind)))))
    · exact .inr (.inr (.inr (.inr (.inr (hlisted.mp h)))))
  · intro h
    split
    · rfl
    rename_i hname
    simp only [List.mem_cons, List.not_mem_nil, or_false, List.isPrefixOf_iff_prefix, not_or]
      at hname
    obtain ⟨⟨hlocal, -, hsix⟩, hstart⟩ := hname
    split
    · rfl
    rename_i hbind
    rcases h with hfour | h | h | h | h | h
    · exact absurd (hlower hfour) hstart
    · exact absurd h hlocal
    · exact absurd (hlower (prefix_of_isLoopbackV4 h)) hstart
    · exact absurd (by rw [h]; decide) hsix
    · exact absurd (by simpa using h) hbind
    · exact hlisted.mpr h

/-- **The guard admits only this machine**, with authentication disabled, exactly if a host that
starts with `127.` is a literal address or a configured name, and a header that is none of the four
forms neither starts so nor names this machine in front of its last colon or in its bracket. -/
theorem guardHost_admits_this_machine {config : Config} (hauth : config.authMode = .disabled)
    (host : Name) :
    (guardHost config (some (some host)) = .ok () →
      ∃ h, hostPart host = some h ∧ ThisMachine config h) ↔
    (∀ h, hostPart host = some h → "127.".toList <+: h → ThisMachine config h) ∧
      (hostPart host = none → ∀ h, Front h host → ¬ "127.".toList <+: h ∧
        ¬ ThisMachine config h) := by
  have hguard : guardHost config (some (some host)) = .ok () ↔ hostAllowed host config = true := by
    rw [guardHost, if_pos hauth]
    cases hallowed : hostAllowed host config <;> simp [hallowed]
  rw [hguard, hostAllowed_iff]
  cases hpart : hostPart host with
  | some h =>
    rw [hostName_of_hostPart hpart]
    simp only [Option.some.injEq, exists_eq_left', forall_eq', reduceCtorEq, false_implies,
      and_true]
    exact ⟨fun hp hfour => hp (.inl hfour), fun hp hor => hor.elim hp id⟩
  | none =>
    have hfront := front_hostName hpart
    constructor
    · refine fun hp => ⟨nofun, fun _ h hh => ?_⟩
      rw [hostName_of_front hh] at hp
      rw [← not_or]
      exact fun hor => absurd (hp hor) (by simp)
    · rintro ⟨-, hp⟩ hor
      obtain ⟨hfour, hnamed⟩ := hp rfl _ hfront
      exact absurd hor (not_or.mpr ⟨hfour, hnamed⟩)

/-- The default configuration: bound to 127.0.0.1, no names listed. -/
def loopbackConfig : Config :=
  { authMode := .disabled
    bindIp := ⟨false, "127.0.0.1".toList⟩
    allowedHosts := [] }

theorem guardHost_admits_this_machine_loopback :
    guardHost loopbackConfig (some (some "127.0.0.1:9000".toList)) = .ok () ∧
      ∃ h, hostPart "127.0.0.1:9000".toList = some h ∧ ThisMachine loopbackConfig h := by
  have hpart : hostPart "127.0.0.1:9000".toList = some "127.0.0.1".toList := by decide +kernel
  have hok : guardHost loopbackConfig (some (some "127.0.0.1:9000".toList)) = .ok () := by
    decide +kernel
  refine ⟨hok, (guardHost_admits_this_machine rfl _).mpr ⟨fun h hh _ => ?_, fun hnone => ?_⟩ hok⟩
  · rw [hpart] at hh
    cases hh
    decide +kernel
  · rw [hpart] at hnone
    cases hnone

/-- A name that anyone can register is admitted, and so are a bracket with more text after it
and one that is not closed. -/
theorem registrable_name_admitted :
    guardHost loopbackConfig (some (some "127.evil.example".toList)) = .ok () ∧
    hostPart "127.evil.example".toList = some "127.evil.example".toList ∧
    ¬ ThisMachine loopbackConfig "127.evil.example".toList ∧
    guardHost loopbackConfig (some (some "[::1].evil.example".toList)) = .ok () ∧
    guardHost loopbackConfig (some (some "[::1".toList)) = .ok () := by
  decide +kernel

end EventStream.Http
