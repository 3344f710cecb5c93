import Mathlib.Tactic.Common

/-! Readers of a serialized form, and when one of them reads back what was written.

A reader consumes a part of its input and leaves the rest. `Reads m bs a` says that it
consumes exactly `bs`, whatever comes after, and gives `a`; such facts compose along the
reader's own steps, so a round trip is proved field by field. `Spends m cost` bounds what is
read by what it is read from, and `Steady m` says that more input does not change what is read,
in the same way. A steady reader that reads `bs` fails on every part of it. -/
namespace EventStream.Reading

variable {β ε α γ : Type}

abbrev Reader (β ε α : Type) := StateT (List β) (Except ε) α

/-- The `n` next items, or `short` if there are fewer. -/
def take (short : ε) (n : Nat) : Reader β ε (List β) := fun b =>
  if n ≤ b.length then .ok (b.take n, b.drop n) else .error short

def fail (e : ε) : Reader β ε α := fun _ => .error e

/-- `n` items in a row. -/
def many (m : Reader β ε α) : Nat → Reader β ε (List α)
  | 0 => pure []
  | n + 1 => do
    let a ← m
    let rest ← many m n
    pure (a :: rest)

theorem bind_eq_ok {m : Reader β ε α} {f : α → Reader β ε γ} {bs rest : List β} {c : γ} :
    (m >>= f) bs = .ok (c, rest) ↔ ∃ a bs', m bs = .ok (a, bs') ∧ f a bs' = .ok (c, rest) := by
  show (m bs >>= fun x => f x.1 x.2) = .ok (c, rest) ↔ _
  cases m bs with
  | error e => exact ⟨nofun, by rintro ⟨a, bs', ⟨⟩, -⟩⟩
  | ok found => exact ⟨fun h => ⟨found.1, found.2, rfl, h⟩, by rintro ⟨a, bs', ⟨⟩, h⟩; exact h⟩

theorem take_eq_ok {short : ε} {n : Nat} {bs a rest : List β} :
    take short n bs = .ok (a, rest) ↔ n ≤ bs.length ∧ a = bs.take n ∧ rest = bs.drop n := by
  unfold take
  split
  case isTrue h => simp [h, eq_comm]
  case isFalse h => simp [h]

/-- `m` reads `bs` as `a` and leaves what follows. -/
def Reads (m : Reader β ε α) (bs : List β) (a : α) : Prop :=
  ∀ rest, m (bs ++ rest) = .ok (a, rest)

theorem Reads.pure (a : α) : Reads (pure a : Reader β ε α) [] a := fun _ => rfl

theorem Reads.bind {m : Reader β ε α} {f : α → Reader β ε γ} {bs bs' : List β} {a : α} {c : γ}
    (hm : Reads m bs a) (hf : Reads (f a) bs' c) : Reads (m >>= f) (bs ++ bs') c := by
  intro rest
  rw [List.append_assoc]
  show (m (bs ++ (bs' ++ rest)) >>= fun x => f x.1 x.2) = _
  rw [hm]
  exact hf rest

theorem Reads.map {m : Reader β ε α} {bs : List β} {a : α} (hm : Reads m bs a) (f : α → γ) :
    Reads (do let a ← m; return f a) bs (f a) := by
  have h := hm.bind (f := fun a => Pure.pure (f a)) (Reads.pure (f a))
  rwa [List.append_nil] at h

theorem Reads.take (short : ε) (bs : List β) : Reads (take short bs.length) bs bs := by
  intro rest
  have hle : bs.length ≤ (bs ++ rest).length := by simp
  show (if bs.length ≤ (bs ++ rest).length then _ else _) = _
  rw [if_pos hle, List.take_left, List.drop_left]

/-- Items written one after the other are read one after the other. -/
theorem Reads.many {m : Reader β ε γ} {put : α → List β} {seen : α → γ} {l : List α}
    (h : ∀ a ∈ l, Reads m (put a) (seen a)) :
    Reads (many m l.length) (l.flatMap put) (l.map seen) := by
  induction l with
  | nil => exact Reads.pure []
  | cons a l ih =>
    have hrest := ih fun x hx => h x (List.mem_cons_of_mem a hx)
    exact (h a List.mem_cons_self).bind (hrest.map (seen a :: ·))

/-- `m` reads the same from more input, and leaves the more. -/
def Steady (m : Reader β ε α) : Prop :=
  ∀ bs a rest more, m bs = .ok (a, rest) → m (bs ++ more) = .ok (a, rest ++ more)

namespace Steady

theorem pure (a : α) : Steady (pure a : Reader β ε α) := by
  rintro bs b rest more ⟨⟩
  rfl

theorem fail (e : ε) : Steady (fail e : Reader β ε α) := nofun

theorem bind {m : Reader β ε α} {f : α → Reader β ε γ} (hm : Steady m)
    (hf : ∀ a, Steady (f a)) : Steady (m >>= f) := by
  intro bs c rest more h
  obtain ⟨a, bs', hfirst, h⟩ := bind_eq_ok.mp h
  exact bind_eq_ok.mpr ⟨a, bs' ++ more, hm bs a bs' more hfirst, hf a bs' c rest more h⟩

theorem take (short : ε) (n : Nat) : Steady (take short n : Reader β ε (List β)) := by
  intro bs a rest more h
  obtain ⟨hle, rfl, rfl⟩ := take_eq_ok.mp h
  rw [take_eq_ok, List.take_append_of_le_length hle, List.drop_append_of_le_length hle]
  exact ⟨by rw [List.length_append]; omega, rfl, rfl⟩

theorem many {m : Reader β ε α} (hm : Steady m) (n : Nat) : Steady (many m n) := by
  induction n with
  | zero => exact .pure []
  | succ n ih => exact hm.bind fun a => ih.bind fun rest => .pure (a :: rest)

end Steady

/-- What was cut short is not read. -/
theorem Reads.strict {m : Reader β ε α} {bs p : List β} {a : α} (h : Reads m bs a)
    (hm : Steady m) (hp : p <+: bs) (hne : p ≠ bs) : ∃ e, m p = .error e := by
  cases hread : m p with
  | error e => exact ⟨e, rfl⟩
  | ok found =>
    obtain ⟨more, rfl⟩ := hp
    have hmore := hm p found.1 found.2 more hread
    have hall := h []
    rw [List.append_nil, hmore] at hall
    obtain ⟨-, hnil⟩ := Prod.mk.inj (Except.ok.inj hall)
    rw [(List.append_eq_nil_iff.mp hnil).2, List.append_nil] at hne
    exact absurd rfl hne

/-- What `m` gives has cost it at least that much of its input. -/
def Spends (m : Reader β ε α) (cost : α → Nat) : Prop :=
  ∀ bs a rest, m bs = .ok (a, rest) → cost a + rest.length ≤ bs.length

namespace Spends

theorem pure (a : α) {cost : α → Nat} (h : cost a = 0) :
    Spends (pure a : Reader β ε α) cost := by
  rintro bs b rest ⟨⟩
  show cost a + bs.length ≤ bs.length
  omega

/-- What is left to pay after the first reader is the second one's. -/
theorem bind {m : Reader β ε α} {f : α → Reader β ε γ} {paid : α → Nat} {cost : γ → Nat}
    (hm : Spends m paid) (hf : ∀ a, Spends (f a) (fun c => cost c - paid a)) :
    Spends (m >>= f) cost := by
  intro bs c rest h
  obtain ⟨a, rest', hfirst, h⟩ := bind_eq_ok.mp h
  have hpaid := hm bs a rest' hfirst
  have hcost : cost c - paid a + rest.length ≤ rest'.length := hf a rest' c rest h
  omega

/-- What the first reader takes need not be counted. -/
theorem skip {m : Reader β ε α} {f : α → Reader β ε γ} {paid : α → Nat} {cost : γ → Nat}
    (hm : Spends m paid) (hf : ∀ a, Spends (f a) cost) : Spends (m >>= f) cost :=
  hm.bind fun a bs c rest h => by
    have := hf a bs c rest h
    show cost c - paid a + rest.length ≤ bs.length
    omega

theorem take (short : ε) (n : Nat) :
    Spends (take short n : Reader β ε (List β)) fun _ => n := by
  intro bs a rest h
  obtain ⟨hle, rfl, rfl⟩ := take_eq_ok.mp h
  show n + (bs.drop n).length ≤ bs.length
  rw [List.length_drop]
  omega

theorem take_length (short : ε) (n : Nat) :
    Spends (Reading.take short n : Reader β ε (List β)) List.length := by
  intro bs a rest h
  obtain ⟨hle, rfl, rfl⟩ := take_eq_ok.mp h
  rw [List.length_take, List.length_drop]
  omega

end Spends

end EventStream.Reading
