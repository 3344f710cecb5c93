import Mathlib.Logic.Function.Basic
import EventStream.Auth.Keys

/-! Revoking a key while connections are open (`revoke` in `auth.rs`, `serve` in
`binary/server.rs`).

A connection authenticates once and captures the revocation epoch; from then on it looks its
key up again only when the epoch has moved. `revoke` disables the key first and moves the epoch
second. So a connection that captured the epoch before it moved finds out at its next frame.
But `serve` reads the epoch *after* it has authenticated, and a revocation that falls between
the two is never seen (`revoked_key_dispatches`). -/
namespace EventStream.Auth

inductive Opcode where
  | produce
  | consume
  | ping
  deriving DecidableEq, Repr

/-- A request, with the keys whose revocation had returned `Ok` when its first byte was read. -/
structure Frame where
  opcode : Opcode
  topic : Name
  revokedBefore : List Name
  deriving DecidableEq, Repr

/-- Where a connection stands, with authentication required. -/
inductive Conn where
  | idle
  /-- In `authenticate`: before the hash is looked up, and before the key is. -/
  | presented (hash : Bytes)
  | known (keyId : Name)
  /-- In front of the read of the epoch. -/
  | authenticated (key : ApiKey)
  | ready (key : ApiKey) (epoch : Nat)
  /-- The first byte of a frame was read; the whole frame was read; the epoch has moved and
  the key is to be looked up; the frame passed the check. -/
  | reading (key : ApiKey) (epoch : Nat) (frame : Frame)
  | received (key : ApiKey) (epoch : Nat) (frame : Frame)
  | rechecking (key : ApiKey) (epoch : Nat) (frame : Frame)
  | cleared (key : ApiKey) (epoch : Nat) (frame : Frame)
  | closed
  deriving DecidableEq, Repr

/-- Where a call of `create_key` or `revoke` stands. -/
inductive Admin where
  | idle
  | creating (hash : Bytes) (key : ApiKey)
  | created (key : ApiKey)
  | revoking (keyId : Name)
  | disabling (keyId : Name) (key : ApiKey)
  | advancing (keyId : Name)
  | persisting (revoked : Option Name)
  | done (ok : Bool)
  deriving DecidableEq, Repr

structure Dispatch where
  keyId : Name
  frame : Frame
  deriving DecidableEq, Repr

structure World where
  store : KeyStore
  conns : Nat → Conn
  admins : Nat → Admin
  /-- The keys whose revocation has returned `Ok`. -/
  revoked : List Name
  dispatched : List Dispatch

inductive Event where
  | connect (conn : Nat) (token : Bytes)
  /-- The first byte of a frame arrives. -/
  | frame (conn : Nat) (opcode : Opcode) (topic : Name)
  | run (conn : Nat)
  | create (admin : Nat) (req : CreateKeyRequest) (secret : Bytes) (now : Int64)
  | revoke (admin : Nat) (keyId : Name)
  /-- A step of an administrative call; `ok` is how writing the key file ends. -/
  | admin (admin : Nat) (ok : Bool)
  deriving DecidableEq, Repr

def Opcode.action : Opcode → Option AclAction
  | .produce => some .write
  | .consume => some .read
  | .ping => none

namespace World

def setConn (w : World) (c : Nat) (conn : Conn) : World :=
  { w with conns := Function.update w.conns c conn }

def setAdmin (w : World) (a : Nat) (admin : Admin) : World :=
  { w with admins := Function.update w.admins a admin }

/-- A request goes to the data plane. -/
def dispatch (w : World) (keyId : Name) (frame : Frame) : World :=
  { w with dispatched := w.dispatched ++ [⟨keyId, frame⟩] }

/-- One step of a connection. -/
def runConn (w : World) (c : Nat) : Option World :=
  match w.conns c with
  | .idle | .ready _ _ | .closed => none
  | .presented hash =>
    some (w.setConn c (match w.store.byHash hash with
      | some keyId => .known keyId
      | none => .closed))
  | .known keyId =>
    some (w.setConn c (match w.store.getEnabled keyId with
      | some key => .authenticated key
      | none => .closed))
  | .authenticated key => some (w.setConn c (.ready key w.store.revocationEpoch))
  | .reading key epoch frame => some (w.setConn c (.received key epoch frame))
  | .received key epoch frame =>
    let now := w.store.revocationEpoch
    some (w.setConn c (if now = epoch then .cleared key epoch frame
      else .rechecking key now frame))
  | .rechecking key epoch frame =>
    some (w.setConn c (match w.store.getEnabled key.keyId with
      | some key => .cleared key epoch frame
      | none => .closed))
  | .cleared key epoch frame =>
    match frame.opcode.action with
    | some action =>
      if key.can action frame.topic then
        some ((w.dispatch key.keyId frame).setConn c (.ready key epoch))
      else some (w.setConn c (.ready key epoch))
    | none => some (w.setConn c (.ready key epoch))

/-- One step of an administrative call. -/
def runAdmin (w : World) (a : Nat) (ok : Bool) : Option World :=
  match w.admins a with
  | .idle | .done _ => none
  | .creating hash key =>
    some ({ w with store := { w.store with
      byHash := Function.update w.store.byHash hash (some key.keyId) } }.setAdmin a
        (.created key))
  | .created key =>
    some ({ w with store := { w.store with
      keys := Function.update w.store.keys key.keyId (some key) } }.setAdmin a
        (.persisting none))
  | .revoking keyId =>
    some (w.setAdmin a (match w.store.keys keyId with
      | some key => .disabling keyId key
      | none => .done false))
  | .disabling keyId key =>
    some ({ w with store := { w.store with
      keys := Function.update w.store.keys keyId (some { key with disabled := true }) } }.setAdmin
        a (.advancing keyId))
  | .advancing keyId =>
    some ({ w with store := { w.store with revocations := w.store.revocations + 1 } }.setAdmin a
      (.persisting (some keyId)))
  | .persisting revoked =>
    some ({ w with revoked := if ok then revoked.toList ++ w.revoked else w.revoked }.setAdmin a
      (.done ok))

/-- One step; `sha256` hashes secrets. -/
def step (sha256 : Bytes → Bytes) (w : World) : Event → Option World
  | .connect c token =>
    match w.conns c with
    | .idle => some (w.setConn c (.presented (sha256 token)))
    | _ => none
  | .frame c opcode topic =>
    match w.conns c with
    | .ready key epoch => some (w.setConn c (.reading key epoch ⟨opcode, topic, w.revoked⟩))
    | _ => none
  | .run c => w.runConn c
  | .create a req secret now =>
    match w.admins a, req.validate with
    | .idle, .ok () =>
      some (w.setAdmin a (.creating (sha256 secret) (req.build (sha256 secret) now)))
    | .idle, .error _ => some (w.setAdmin a (.done false))
    | _, _ => none
  | .revoke a keyId =>
    match w.admins a with
    | .idle => some (w.setAdmin a (.revoking keyId))
    | _ => none
  | .admin a ok => w.runAdmin a ok

/-- A broker that has loaded its keys, before the first connection. -/
def opened (store : KeyStore) : World :=
  { store, conns := fun _ => .idle, admins := fun _ => .idle, revoked := [], dispatched := [] }

/-- Every interleaving. -/
abbrev Run (sha256 : Bytes → Bytes) : World → World → Prop :=
  Runs (step sha256) fun _ _ => True

/-- The step does not move the epoch under a connection that has authenticated with the
revoked key and not captured the epoch yet, does not wrap the counter around, and creates no
key under an id that is taken. -/
def Safe (w : World) (e : Event) : Prop :=
  ∀ a ok, e = .admin a ok →
    (∀ keyId, w.admins a = .advancing keyId → w.store.revocations + 1 < 2 ^ 64 ∧
      ∀ c key, w.conns c = .authenticated key → key.keyId ≠ keyId) ∧
    ∀ key, w.admins a = .created key → w.store.keys key.keyId = none

abbrev SafeRun (sha256 : Bytes → Bytes) : World → World → Prop := Runs (step sha256) Safe

/-! ### The invariant -/

/-- What holds of a connection when `advanced` says at which epoch the revocation of a key
was last announced, and zero if it never was. -/
def ConnOk (advanced : Name → Nat) (epoch : Nat) : Conn → Prop
  | .idle | .presented _ | .known _ | .closed => True
  | .authenticated key => advanced key.keyId = 0
  | .ready key e => (advanced key.keyId = 0 ∨ e < advanced key.keyId) ∧ e ≤ epoch
  | .reading key e frame | .received key e frame =>
    ((advanced key.keyId = 0 ∨ e < advanced key.keyId) ∧ e ≤ epoch) ∧
      ∀ id ∈ frame.revokedBefore, advanced id ≠ 0
  | .rechecking _ e frame => e ≤ epoch ∧ ∀ id ∈ frame.revokedBefore, advanced id ≠ 0
  | .cleared key e frame =>
    ((advanced key.keyId = 0 ∨ e < advanced key.keyId) ∧ e ≤ epoch) ∧
      key.keyId ∉ frame.revokedBefore

def Disabled (w : World) (keyId : Name) : Prop :=
  ∃ key, w.store.keys keyId = some key ∧ key.disabled = true

def AdminOk (advanced : Name → Nat) (w : World) : Admin → Prop
  | .idle | .creating _ _ | .created _ | .revoking _ | .done _ | .persisting none => True
  | .disabling keyId key => key.keyId = keyId
  | .advancing keyId => w.Disabled keyId
  | .persisting (some keyId) => advanced keyId ≠ 0

structure Sound (advanced : Name → Nat) (w : World) : Prop where
  ids : ∀ keyId key, w.store.keys keyId = some key → key.keyId = keyId
  small : w.store.revocations < 2 ^ 64
  announced : ∀ keyId, advanced keyId ≤ w.store.revocations
  disabled : ∀ keyId, advanced keyId ≠ 0 → w.Disabled keyId
  revoked : ∀ keyId ∈ w.revoked, advanced keyId ≠ 0
  conns : ∀ c, ConnOk advanced w.store.revocations (w.conns c)
  admins : ∀ a, AdminOk advanced w (w.admins a)
  dispatched : ∀ d ∈ w.dispatched, d.keyId ∉ d.frame.revokedBefore

section
variable {advanced : Name → Nat} {w w' : World} {keyId : Name} {c a : Nat} {conn : Conn}

section
variable (h : w.Sound advanced)
include h

theorem Sound.epoch : w.store.revocationEpoch = w.store.revocations :=
  Nat.mod_eq_of_lt h.small

/-- An enabled key was never announced as revoked. -/
theorem Sound.getEnabled {key : ApiKey} (hk : w.store.getEnabled keyId = some key) :
    key.keyId = keyId ∧ advanced keyId = 0 := by
  obtain ⟨hkey, henabled⟩ := Option.filter_eq_some_iff.mp hk
  refine ⟨h.ids keyId key hkey, ?_⟩
  by_contra hne
  obtain ⟨key', hkey', hdisabled⟩ := h.disabled keyId hne
  rw [hkey] at hkey'
  cases hkey'
  simp [hdisabled] at henabled

theorem Sound.setConn (hc : ConnOk advanced w.store.revocations conn) :
    (w.setConn c conn).Sound advanced :=
  { h with
    conns := by
      intro c'
      show ConnOk advanced _ (Function.update w.conns c conn c')
      by_cases hcc : c' = c
      · rw [hcc, Function.update_self]
        exact hc
      · rw [Function.update_of_ne hcc]
        exact h.conns c'
    admins := h.admins }

/-- One step of a connection. -/
theorem Sound.runConn (hs : w.runConn c = some w') : w'.Sound advanced := by
  have hc := h.conns c
  unfold World.runConn at hs
  cases hconn : w.conns c with
  | idle | ready | closed => simp [hconn] at hs
  | presented hash =>
    simp only [hconn, Option.some.injEq] at hs
    subst hs
    cases w.store.byHash hash with
    | none => exact h.setConn trivial
    | some keyId => exact h.setConn trivial
  | known keyId =>
    simp only [hconn, Option.some.injEq] at hs
    subst hs
    cases hk : w.store.getEnabled keyId with
    | none => exact h.setConn trivial
    | some key =>
      obtain ⟨hid, hzero⟩ := h.getEnabled hk
      rw [← hid] at hzero
      exact h.setConn hzero
  | authenticated key =>
    rw [hconn] at hc
    simp only [hconn, Option.some.injEq] at hs
    subst hs
    exact h.setConn ⟨.inl hc, Nat.le_of_eq h.epoch⟩
  | reading key e frame =>
    rw [hconn] at hc
    simp only [hconn, Option.some.injEq] at hs
    subst hs
    exact h.setConn hc
  | received key e frame =>
    rw [hconn] at hc
    obtain ⟨⟨hcaptured, hle⟩, hframe⟩ := hc
    simp only [hconn, Option.some.injEq, h.epoch] at hs
    subst hs
    split
    · rename_i hsame
      refine h.setConn ⟨⟨hcaptured, hle⟩, fun hmem => ?_⟩
      -- The epoch has moved since it was captured if the key was announced at all.
      have hlt := hcaptured.resolve_left (hframe _ hmem)
      have := h.announced key.keyId
      omega
    · exact h.setConn ⟨Nat.le_refl _, hframe⟩
  | rechecking key e frame =>
    rw [hconn] at hc
    simp only [hconn, Option.some.injEq] at hs
    subst hs
    cases hk : w.store.getEnabled key.keyId with
    | none => exact h.setConn trivial
    | some key' =>
      obtain ⟨hid, hzero⟩ := h.getEnabled hk
      rw [← hid] at hzero
      exact h.setConn ⟨⟨.inl hzero, hc.1⟩, fun hmem => hc.2 _ hmem hzero⟩
  | cleared key e frame =>
    rw [hconn] at hc
    have hready : ConnOk advanced w.store.revocations (.ready key e) := hc.1
    simp only [hconn] at hs
    split at hs
    · split at hs
      · cases hs
        have hdispatch : (w.dispatch key.keyId frame).Sound advanced :=
          { h with
            admins := h.admins
            dispatched := by
              intro d hd
              rcases List.mem_append.mp hd with hd | hd
              · exact h.dispatched d hd
              · rw [List.mem_singleton.mp hd]
                exact hc.2 }
        exact hdispatch.setConn hready
      · cases hs
        exact h.setConn hready
    · cases hs
      exact h.setConn hready

theorem Sound.setAdmin {admin : Admin} (ha : AdminOk advanced w admin) :
    (w.setAdmin a admin).Sound advanced :=
  { h with
    conns := h.conns
    admins := by
      intro a'
      show AdminOk advanced w (Function.update w.admins a admin a')
      by_cases haa : a' = a
      · rw [haa, Function.update_self]
        exact ha
      · rw [Function.update_of_ne haa]
        exact h.admins a' }

end

theorem AdminOk.mono {admin : Admin} (h : AdminOk advanced w admin)
    (hkeep : ∀ keyId, w.Disabled keyId → w'.Disabled keyId) : AdminOk advanced w' admin := by
  cases admin with
  | advancing keyId => exact hkeep keyId h
  | persisting revoked =>
    cases revoked with
    | none => trivial
    | some keyId => exact h
  | disabling keyId key => exact h
  | _ => trivial

/-- Writing a key to the map, disabled or under an id that is free. -/
theorem Sound.insertKey (h : w.Sound advanced) (key : ApiKey) (hid : key.keyId = keyId)
    (hnew : key.disabled = true ∨ w.store.keys keyId = none) :
    World.Sound advanced { w with store := { w.store with
      keys := Function.update w.store.keys keyId (some key) } } := by
  have hkeep : ∀ id, w.Disabled id → World.Disabled { w with store := { w.store with
      keys := Function.update w.store.keys keyId (some key) } } id := by
    rintro id ⟨key', hkey', hdisabled⟩
    by_cases hsame : id = keyId
    · subst hsame
      rcases hnew with hnew | hnone
      · exact ⟨key, Function.update_self .., hnew⟩
      · rw [hnone] at hkey'
        exact nomatch hkey'
    · exact ⟨key', (Function.update_of_ne hsame _ _).trans hkey', hdisabled⟩
  exact
    { h with
      ids := by
        intro id key' hkey'
        have hkey' : Function.update w.store.keys keyId (some key) id = some key' := hkey'
        by_cases hsame : id = keyId
        · subst hsame
          rw [Function.update_self] at hkey'
          cases hkey'
          exact hid
        · rw [Function.update_of_ne hsame] at hkey'
          exact h.ids id key' hkey'
      conns := h.conns
      disabled := fun id hne => hkeep id (h.disabled id hne)
      admins := fun a => (h.admins a).mono hkeep }

theorem ConnOk.advance {epoch : Nat} (h : ConnOk advanced epoch conn)
    (hfree : ∀ key, conn = .authenticated key → key.keyId ≠ keyId) :
    ConnOk (Function.update advanced keyId (epoch + 1)) (epoch + 1) conn := by
  have hne : ∀ id, advanced id ≠ 0 → Function.update advanced keyId (epoch + 1) id ≠ 0 := by
    intro id hid
    by_cases hsame : id = keyId
    · rw [hsame, Function.update_self]
      exact Nat.succ_ne_zero _
    · rwa [Function.update_of_ne hsame]
  have hcaptured : ∀ (key : ApiKey) e,
      ((advanced key.keyId = 0 ∨ e < advanced key.keyId) ∧ e ≤ epoch) →
      (Function.update advanced keyId (epoch + 1) key.keyId = 0 ∨
        e < Function.update advanced keyId (epoch + 1) key.keyId) ∧ e ≤ epoch + 1 := by
    rintro key e ⟨hcap, hle⟩
    refine ⟨?_, Nat.le_succ_of_le hle⟩
    by_cases hsame : key.keyId = keyId
    · rw [hsame, Function.update_self]
      exact .inr (Nat.lt_succ_of_le hle)
    · rwa [Function.update_of_ne hsame]
  cases conn with
  | idle | presented | known | closed => trivial
  | authenticated key => exact (Function.update_of_ne (hfree key rfl) _ _).trans h
  | ready key e => exact hcaptured key e h
  | reading key e frame => exact ⟨hcaptured key e h.1, fun id hid => hne id (h.2 id hid)⟩
  | received key e frame => exact ⟨hcaptured key e h.1, fun id hid => hne id (h.2 id hid)⟩
  | rechecking key e frame =>
    exact ⟨Nat.le_succ_of_le h.1, fun id hid => hne id (h.2 id hid)⟩
  | cleared key e frame => exact ⟨hcaptured key e h.1, h.2⟩

/-- The epoch moves: the revocation of a disabled key is announced. -/
theorem Sound.advance (h : w.Sound advanced) (hdisabled : w.Disabled keyId)
    (hsmall : w.store.revocations + 1 < 2 ^ 64)
    (hfree : ∀ c key, w.conns c = .authenticated key → key.keyId ≠ keyId) :
    World.Sound (Function.update advanced keyId (w.store.revocations + 1))
      { w with store := { w.store with revocations := w.store.revocations + 1 } } := by
  have hne : ∀ id, advanced id ≠ 0 →
      Function.update advanced keyId (w.store.revocations + 1) id ≠ 0 := by
    intro id hid
    by_cases hsame : id = keyId
    · rw [hsame, Function.update_self]
      exact Nat.succ_ne_zero _
    · rwa [Function.update_of_ne hsame]
  exact
    { h with
      small := hsmall
      announced := by
        intro id
        by_cases hsame : id = keyId
        · rw [hsame, Function.update_self]
        · rw [Function.update_of_ne hsame]
          exact Nat.le_succ_of_le (h.announced id)
      disabled := by
        intro id hid
        by_cases hsame : id = keyId
        · exact hsame ▸ hdisabled
        · rw [Function.update_of_ne hsame] at hid
          exact h.disabled id hid
      revoked := fun id hid => hne id (h.revoked id hid)
      conns := fun c => (h.conns c).advance (hfree c)
      admins := by
        intro a
        show AdminOk _ _ (w.admins a)
        have ha := h.admins a
        cases hadmin : w.admins a with
        | advancing id =>
          rw [hadmin] at ha
          exact ha
        | disabling id key =>
          rw [hadmin] at ha
          exact ha
        | persisting revoked =>
          rw [hadmin] at ha
          cases revoked with
          | none => trivial
          | some id => exact hne id ha
        | _ => trivial }

/-- One step of an administrative call. -/
theorem Sound.runAdmin (h : w.Sound advanced) {ok : Bool} (hsafe : w.Safe (.admin a ok))
    (hs : w.runAdmin a ok = some w') : ∃ advanced', w'.Sound advanced' := by
  obtain ⟨hadvance, hfresh⟩ := hsafe a ok rfl
  have ha := h.admins a
  unfold World.runAdmin at hs
  cases hadmin : w.admins a with
  | idle | done => simp [hadmin] at hs
  | creating hash key =>
    simp only [hadmin, Option.some.injEq] at hs
    subst hs
    have hindexed : World.Sound advanced { w with store := { w.store with
        byHash := Function.update w.store.byHash hash (some key.keyId) } } :=
      { h with conns := h.conns, admins := h.admins, disabled := h.disabled }
    exact ⟨advanced, hindexed.setAdmin trivial⟩
  | created key =>
    simp only [hadmin, Option.some.injEq] at hs
    subst hs
    exact ⟨advanced, (h.insertKey key rfl (.inr (hfresh key hadmin))).setAdmin trivial⟩
  | revoking keyId =>
    simp only [hadmin, Option.some.injEq] at hs
    subst hs
    cases hkey : w.store.keys keyId with
    | none => exact ⟨advanced, h.setAdmin trivial⟩
    | some key => exact ⟨advanced, h.setAdmin (h.ids keyId key hkey)⟩
  | disabling keyId key =>
    rw [hadmin] at ha
    simp only [hadmin, Option.some.injEq] at hs
    subst hs
    have hinsert := h.insertKey { key with disabled := true } ha (.inl rfl)
    exact ⟨advanced, hinsert.setAdmin ⟨_, Function.update_self .., rfl⟩⟩
  | advancing keyId =>
    rw [hadmin] at ha
    simp only [hadmin, Option.some.injEq] at hs
    subst hs
    obtain ⟨hsmall, hfree⟩ := hadvance keyId hadmin
    refine ⟨_, (h.advance ha hsmall hfree).setAdmin ?_⟩
    show Function.update _ _ _ keyId ≠ 0
    rw [Function.update_self]
    exact Nat.succ_ne_zero _
  | persisting revoked =>
    rw [hadmin] at ha
    simp only [hadmin, Option.some.injEq] at hs
    subst hs
    have hreturned : World.Sound advanced
        { w with revoked := if ok then revoked.toList ++ w.revoked else w.revoked } :=
      { h with
        conns := h.conns
        admins := h.admins
        revoked := by
          intro id hid
          cases ok with
          | false => exact h.revoked id hid
          | true =>
            rcases List.mem_append.mp hid with hid | hid
            · cases revoked with
              | none => exact absurd hid List.not_mem_nil
              | some keyId => exact List.mem_singleton.mp hid ▸ ha
            · exact h.revoked id hid }
    exact ⟨advanced, hreturned.setAdmin trivial⟩

theorem Sound.step {sha256 : Bytes → Bytes} {e : Event} (h : ∃ advanced, w.Sound advanced)
    (hsafe : w.Safe e) (hs : w.step sha256 e = some w') : ∃ advanced, w'.Sound advanced := by
  obtain ⟨advanced, h⟩ := h
  cases e with
  | connect c token =>
    simp only [World.step] at hs
    split at hs
    · cases hs
      exact ⟨advanced, h.setConn trivial⟩
    · exact nomatch hs
  | frame c opcode topic =>
    simp only [World.step] at hs
    split at hs
    · rename_i hconn
      cases hs
      have hc := h.conns c
      rw [hconn] at hc
      exact ⟨advanced, h.setConn ⟨hc, h.revoked⟩⟩
    · exact nomatch hs
  | run c => exact ⟨advanced, h.runConn hs⟩
  | create a req secret now =>
    simp only [World.step] at hs
    split at hs
    · cases hs
      exact ⟨advanced, h.setAdmin trivial⟩
    · cases hs
      exact ⟨advanced, h.setAdmin trivial⟩
    · exact nomatch hs
  | revoke a keyId =>
    simp only [World.step] at hs
    split at hs
    · cases hs
      exact ⟨advanced, h.setAdmin trivial⟩
    · exact nomatch hs
  | admin a ok => exact h.runAdmin hsafe hs

end

/-- A store as it was loaded: every key is filed under its own id. -/
theorem sound_opened {store : KeyStore}
    (hids : ∀ keyId key, store.keys keyId = some key → key.keyId = keyId)
    (hzero : store.revocations = 0) : (opened store).Sound fun _ => 0 where
  ids := hids
  small := by
    show store.revocations < 2 ^ 64
    rw [hzero]
    decide
  announced := fun _ => Nat.zero_le _
  disabled := fun _ hne => absurd rfl hne
  revoked := fun _ hid => absurd hid List.not_mem_nil
  conns := fun _ => trivial
  admins := fun _ => trivial
  dispatched := fun _ hd => absurd hd List.not_mem_nil

end World

/-- **Revocation reaches open connections.** In every interleaving of connections, key
creations and revocations in which no revocation is announced while a connection stands
between authenticating with that key and capturing the epoch, no request whose first byte was
read after the revocation of a key had returned `Ok` is dispatched under that key. -/
theorem revocation_reaches_connections {sha256 : Bytes → Bytes} {store : KeyStore}
    (hids : ∀ keyId key, store.keys keyId = some key → key.keyId = keyId)
    (hzero : store.revocations = 0) {w : World} (hrun : (World.opened store).SafeRun sha256 w)
    {d : Dispatch} (hd : d ∈ w.dispatched) : d.keyId ∉ d.frame.revokedBefore := by
  obtain ⟨_, hsound⟩ := hrun.keeps ⟨_, World.sound_opened hids hzero⟩ World.Sound.step
  exact hsound.dispatched d hd

/-- A key that may write everywhere. -/
def someKey (hash : Bytes) : ApiKey :=
  CreateKeyRequest.build ⟨"app", [⟨.write, ['*']⟩], none, none⟩ hash 0

def oneKey (hash : Bytes) : KeyStore :=
  { keys := fun id => if id = (someKey hash).keyId then some (someKey hash) else none
    byHash := fun h => if h = hash then some (someKey hash).keyId else none
    revocations := 0 }

/-- Two keys, with the hash function left out of the picture. -/
def twoKeys : KeyStore :=
  { keys := fun id =>
      if id = (someKey [1]).keyId then some (someKey [1])
      else if id = (someKey [2]).keyId then some (someKey [2])
      else none
    byHash := fun h => if h = [1] ∨ h = [2] then some (someKey h).keyId else none
    revocations := 0 }

variable {sha256 : Bytes → Bytes} {w₀ w w' : World} {events : List Event}

theorem World.safeRun_of_replay (h₀ : w₀.SafeRun sha256 w) (hno : ∀ a ok, .admin a ok ∉ events)
    (h : events.foldlM (World.step sha256) w = some w') : w₀.SafeRun sha256 w' :=
  foldlM_keeps (fun _ he _ _ h hs => h.step (fun a ok hadm => absurd (hadm ▸ he) (hno a ok)) hs)
    h₀ h

/-- No connection stands in front of the read of the epoch. -/
theorem World.safeRun_admin (h₀ : w₀.SafeRun sha256 w) {a : Nat} {ok : Bool}
    (hquiet : ∀ c key, w.conns c ≠ .authenticated key) (hsmall : w.store.revocations + 1 < 2 ^ 64)
    (hnew : ∀ key, w.admins a ≠ .created key) (hs : w.runAdmin a ok = some w') :
    w₀.SafeRun sha256 w' := by
  have hstep : w.step sha256 (.admin a ok) = some w' := hs
  refine h₀.step (fun a' ok' he => ?_) hstep
  cases he
  exact ⟨fun keyId _ => ⟨hsmall, fun c key hc => absurd hc (hquiet c key)⟩,
    fun key hkey => absurd hkey (hnew key)⟩

/-- Two connections authenticate, one with each key. -/
def connectBoth : List Event :=
  [.connect 0 [1], .run 0, .run 0, .run 0, .connect 1 [2], .run 1, .run 1, .run 1]

theorem connectBoth_runs :
    (connectBoth.foldlM (World.step id) (.opened twoKeys)).isSome := by decide +kernel

def connected : World := (connectBoth.foldlM (World.step id) (.opened twoKeys)).get connectBoth_runs

theorem connected_quiet (c : Nat) (key : ApiKey) : connected.conns c ≠ .authenticated key := by
  have hready₀ : connected.conns 0 = .ready (someKey [1]) 0 := rfl
  have hready₁ : connected.conns 1 = .ready (someKey [2]) 0 := rfl
  have hidle : ∀ c, connected.conns (c + 2) = .idle := fun _ => rfl
  match c with
  | 0 | 1 | c + 2 => simp [hready₀, hready₁, hidle]

/-- Then the first key is revoked. -/
def firstRevoked : World :=
  { connected with
    store := { twoKeys with
      keys := Function.update twoKeys.keys (someKey [1]).keyId
        (some { someKey [1] with disabled := true })
      revocations := 1 }
    admins := Function.update (fun _ => .idle) 0 (.done true)
    revoked := [(someKey [1]).keyId] }

theorem firstRevoked_safe : (World.opened twoKeys).SafeRun id firstRevoked := by
  have h₀ : (World.opened twoKeys).SafeRun id connected :=
    World.safeRun_of_replay .refl (by simp [connectBoth]) (Option.some_get connectBoth_runs).symm
  have hstore : connected.store = twoKeys := rfl
  have hadmins : connected.admins = fun _ => .idle := rfl
  have hrevoked : connected.revoked = [] := rfl
  have hstart : connected.step id (.revoke 0 (someKey [1]).keyId) =
      some (connected.setAdmin 0 (.revoking (someKey [1]).keyId)) := rfl
  have hfound : (connected.setAdmin 0 (.revoking (someKey [1]).keyId)).runAdmin 0 true =
      some ((connected.setAdmin 0 (.revoking (someKey [1]).keyId)).setAdmin 0
        (.disabling (someKey [1]).keyId (someKey [1]))) := rfl
  have h₁ := h₀.step (fun a ok he => by cases he) hstart
  have h₂ := World.safeRun_admin h₁ connected_quiet (by decide) (by simp [World.setAdmin]) hfound
  have h₃ := World.safeRun_admin h₂ connected_quiet (by decide) (by simp [World.setAdmin])
    (show World.runAdmin _ 0 true = some _ from rfl)
  have h₄ := World.safeRun_admin h₃ connected_quiet (by decide) (by simp [World.setAdmin])
    (show World.runAdmin _ 0 true = some _ from rfl)
  have h₅ := World.safeRun_admin h₄ connected_quiet (by decide) (by simp [World.setAdmin])
    (show World.runAdmin _ 0 true = some _ from rfl)
  have hone : twoKeys.revocations + 1 = 1 := rfl
  simpa [World.setAdmin, firstRevoked, hstore, hadmins, hrevoked, hone] using h₅

/-- Both connections send a request; the first is closed. -/
def produceBoth : List Event :=
  [.frame 0 .produce ['t'], .run 0, .run 0, .run 0,
    .frame 1 .produce ['t'], .run 1, .run 1, .run 1, .run 1]

theorem produceBoth_runs : (produceBoth.foldlM (World.step id) firstRevoked).isSome := by
  decide +kernel

theorem twoKeys_ids : ∀ keyId key, twoKeys.keys keyId = some key → key.keyId = keyId := by
  intro keyId key hkey
  unfold twoKeys at hkey
  dsimp only at hkey
  split at hkey
  · cases hkey
    exact Eq.symm ‹_›
  · split at hkey
    · cases hkey
      exact Eq.symm ‹_›
    · exact nomatch hkey

/-- Both connections look their keys up again, and only the request under the key that is still
good runs. -/
theorem revocation_reaches_connections_second :
    ∃ d, ((produceBoth.foldlM (World.step id) firstRevoked).get produceBoth_runs).dispatched =
        [d] ∧
      d.frame.revokedBefore = [(someKey [1]).keyId] ∧ d.keyId ∉ d.frame.revokedBefore := by
  have hrun := World.safeRun_of_replay firstRevoked_safe (by simp [produceBoth])
    (Option.some_get produceBoth_runs).symm
  have hd : ((produceBoth.foldlM (World.step id) firstRevoked).get produceBoth_runs).dispatched =
      [⟨(someKey [2]).keyId, ⟨.produce, ['t'], [(someKey [1]).keyId]⟩⟩] := by
    decide +kernel
  exact ⟨_, hd, rfl, revocation_reaches_connections twoKeys_ids rfl hrun
    (hd ▸ List.mem_singleton_self _)⟩

/-! ### A revocation between authenticating and capturing the epoch -/

/-- A connection authenticates, its key is revoked, and only then it captures the epoch. -/
def lateCapture (secret : Bytes) (keyId : Name) : List Event :=
  [.connect 0 secret, .run 0, .run 0, .revoke 0 keyId, .admin 0 true, .admin 0 true,
    .admin 0 true, .admin 0 true, .run 0, .frame 0 .produce ['t'], .run 0, .run 0, .run 0]

theorem lateCapture_runs : (Runs.replay (World.step id) (fun _ _ => True) (.opened (oneKey [7]))
    (lateCapture [7] (someKey [7]).keyId)).isSome := by
  decide +kernel

/-- The connection goes on producing under the revoked key. -/
theorem revoked_key_dispatches : ∃ w, World.Run id (.opened (oneKey [7])) w ∧
    ∃ d ∈ w.dispatched, d.frame.opcode = .produce ∧ d.keyId ∈ d.frame.revokedBefore := by
  refine ⟨_, Runs.of_replay (Option.some_get lateCapture_runs).symm, ?_⟩
  exact ⟨⟨(someKey [7]).keyId, ⟨.produce, ['t'], [(someKey [7]).keyId]⟩⟩, by decide +kernel, rfl,
    List.mem_singleton_self _⟩

end EventStream.Auth
