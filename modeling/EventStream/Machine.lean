import Mathlib.Tactic.Ring
import EventStream.Runs

/-! The machine integers and byte strings of the source.

A `u64` is a natural number up to `u64Max`. Where the source adds without a guard
the sum may overflow, and the program panics there: `addU64` is `none`. Where it
saturates, so does `satAdd`; `saturating_sub` is subtraction of naturals. -/
namespace EventStream

abbrev Bytes := List UInt8

def u64Max : Nat := 2 ^ 64 - 1

/-- `a + b` on `u64`; `none` is the overflow panic. -/
def addU64 (a b : Nat) : Option Nat := if a + b ≤ u64Max then some (a + b) else none

/-- `a.saturating_add(b)` on `u64`. -/
def satAdd (a b : Nat) : Nat := min (a + b) u64Max

/-- `a.saturating_sub(b)` on `i64`. -/
def satSubI64 (a b : Int64) : Int64 :=
  let d := a.toInt - b.toInt
  if d < Int64.minValue.toInt then Int64.minValue
  else if Int64.maxValue.toInt < d then Int64.maxValue
  else Int64.ofInt d

variable {a b i n x : Nat} {β : Type}

theorem addU64_eq_some {c : Nat} : addU64 a b = some c ↔ c = a + b ∧ a + b ≤ u64Max := by
  unfold addU64
  split
  · rename_i h
    simp only [Option.some.injEq]
    exact ⟨fun hc => ⟨hc.symm, h⟩, fun hc => hc.1.symm⟩
  · rename_i h
    simp only [reduceCtorEq, false_iff, not_and]
    exact fun _ => h

theorem satAdd_of_le (h : a + b ≤ u64Max) : satAdd a b = a + b := Nat.min_eq_left h

variable {α ε : Type} {j : Nat}

/-- A computation comes to a result with a property if evaluating both says so. -/
theorem exists_of_any {P : α → Prop} [DecidablePred P] {o : Option α}
    (h : o.any (fun a => decide (P a)) = true) : ∃ a, o = some a ∧ P a := by
  obtain ⟨a, ha, hp⟩ := (Option.any_eq_true _ _).mp h
  exact ⟨a, ha, of_decide_eq_true hp⟩

/-- A sequence of two fallible steps succeeds if both do. -/
theorem bind_eq_ok {x : Except ε α} {f : α → Except ε β} {b : β} :
    (x >>= f) = .ok b ↔ ∃ a, x = .ok a ∧ f a = .ok b := by
  cases x with
  | error e => exact iff_of_false nofun fun ⟨_, h, _⟩ => nomatch h
  | ok a => exact ⟨fun h => ⟨a, rfl, h⟩, fun ⟨_, h, hf⟩ => Except.ok.inj h ▸ hf⟩

/-- A check that did not fail lets the rest decide. -/
theorem ok_of_guard {c : Prop} [Decidable c] {e : ε} {f : PUnit → Except ε α} {x : Except ε α}
    {a : α} (h : (if c then throw e >>= f else x) = .ok a) : x = .ok a := by
  split at h
  · cases h
  · exact h

/-- What holds of every result of `f` holds of all that `mapM f` collects. -/
theorem forall_of_mapM {f : α → Option β} {P : β → Prop} (hf : ∀ a b, f a = some b → P b)
    {l : List α} {out : List β} (h : l.mapM f = some out) : ∀ b ∈ out, P b := by
  induction l generalizing out with
  | nil =>
    cases h
    exact fun b hb => absurd hb List.not_mem_nil
  | cons a l ih =>
    rw [List.mapM_cons] at h
    obtain ⟨b, hb, h⟩ := Option.bind_eq_some_iff.mp h
    obtain ⟨rest, hrest, h⟩ := Option.bind_eq_some_iff.mp h
    cases h
    intro b' hb'
    rcases List.mem_cons.mp hb' with rfl | hb'
    · exact hf a _ hb
    · exact ih hrest b' hb'

/-- A place of a list after one of them is set: that one, or as it was. -/
theorem getElem?_set_cases {l : List α} {a x : α} (h : (l.set i a)[j]? = some x) :
    (j = i ∧ x = a) ∨ (j ≠ i ∧ l[j]? = some x) := by
  by_cases hj : j = i
  · subst hj
    have hlt : j < l.length := by
      have := (List.getElem?_eq_some_iff.mp h).1
      rwa [List.length_set] at this
    rw [List.getElem?_set_self hlt] at h
    exact Or.inl ⟨rfl, (Option.some.inj h).symm⟩
  · rw [List.getElem?_set_ne (Ne.symm hj)] at h
    exact Or.inr ⟨hj, h⟩

/-- A place of a list after one of them was changed. -/
theorem getElem?_modify_cases {l : List α} {f : α → α} {x' : α} (h : (l.modify i f)[j]? = some x') :
    ∃ x, l[j]? = some x ∧ (i = j ∧ x' = f x ∨ i ≠ j ∧ x' = x) := by
  rw [List.getElem?_modify] at h
  obtain ⟨x, hx, rfl⟩ := Option.map_eq_some_iff.mp h
  by_cases hi : i = j
  · exact ⟨x, hx, .inl ⟨hi, if_pos hi⟩⟩
  · exact ⟨x, hx, .inr ⟨hi, if_neg hi⟩⟩

/-- A place of a list with one more element: that one, or as it was. -/
theorem getElem?_concat_cases {l : List α} {a x : α} (h : (l ++ [a])[j]? = some x) :
    (j = l.length ∧ x = a) ∨ l[j]? = some x := by
  by_cases hlt : j < l.length
  · exact Or.inr ((List.getElem?_append_left hlt).symm.trans h)
  · rw [List.getElem?_append_right (Nat.le_of_not_lt hlt)] at h
    obtain ⟨hj, hx⟩ := List.getElem?_eq_some_iff.mp h
    rw [List.length_singleton] at hj
    refine Or.inl ⟨by omega, ?_⟩
    rw [List.getElem_singleton] at hx
    exact hx.symm

/-- The `n` bytes of a number, most significant first. -/
def beBytes : Nat → Nat → Bytes
  | 0, _ => []
  | n + 1, x => UInt8.ofNat (x / 256 ^ n) :: beBytes n x

/-- The number a byte string writes, most significant byte first. -/
def beNat (b : Bytes) : Nat := b.foldl (fun acc x => acc * 256 + x.toNat) 0

@[simp] theorem length_beBytes (n x : Nat) : (beBytes n x).length = n := by
  induction n with
  | zero => rfl
  | succ n ih => simp [beBytes, ih]

theorem foldl_beBytes (n x acc : Nat) :
    (beBytes n x).foldl (fun acc b => acc * 256 + b.toNat) acc = acc * 256 ^ n + x % 256 ^ n := by
  induction n generalizing acc with
  | zero => simp [beBytes, Nat.mod_one]
  | succ n ih =>
    have hdigit : x % 256 ^ (n + 1) = x / 256 ^ n % 256 * 256 ^ n + x % 256 ^ n := by
      rw [Nat.pow_succ, Nat.mod_mul]
      ring
    rw [beBytes, List.foldl_cons, ih, hdigit, UInt8.toNat_ofNat']
    ring

/-- A number that fits is read back. -/
theorem beNat_beBytes (h : x < 256 ^ n) : beNat (beBytes n x) = x := by
  rw [beNat, foldl_beBytes, Nat.mod_eq_of_lt h, Nat.zero_mul, Nat.zero_add]

theorem foldl_beNat (b : Bytes) (acc : Nat) :
    b.foldl (fun acc x => acc * 256 + x.toNat) acc = acc * 256 ^ b.length + beNat b := by
  induction b generalizing acc with
  | nil => simp [beNat]
  | cons x b ih =>
    rw [beNat, List.foldl_cons, List.foldl_cons, ih, ih (0 * 256 + x.toNat), List.length_cons]
    ring

theorem beNat_cons (x : UInt8) (b : Bytes) :
    beNat (x :: b) = x.toNat * 256 ^ b.length + beNat b := by
  rw [beNat, List.foldl_cons, foldl_beNat, Nat.zero_mul, Nat.zero_add]

theorem beNat_lt (b : Bytes) : beNat b < 256 ^ b.length := by
  induction b with
  | nil => exact Nat.one_pos
  | cons x b ih =>
    have hx : x.toNat < 256 := x.toNat_lt
    rw [beNat_cons, List.length_cons, Nat.pow_succ]
    have : x.toNat * 256 ^ b.length ≤ 255 * 256 ^ b.length := Nat.mul_le_mul_right _ (by omega)
    omega

theorem beBytes_congr {y : Nat} (h : x % 256 ^ n = y % 256 ^ n) : beBytes n x = beBytes n y := by
  induction n with
  | zero => rfl
  | succ n ih =>
    have hlow : x % 256 ^ n = y % 256 ^ n := by
      rw [← Nat.mod_mod_of_dvd x (Nat.pow_dvd_pow 256 (Nat.le_succ n)), h,
        Nat.mod_mod_of_dvd y (Nat.pow_dvd_pow 256 (Nat.le_succ n))]
    have hdigit : x / 256 ^ n % 256 = y / 256 ^ n % 256 := by
      rw [Nat.pow_succ] at h
      rw [← Nat.mod_mul_right_div_self, h, Nat.mod_mul_right_div_self]
    have hbyte : UInt8.ofNat (x / 256 ^ n) = UInt8.ofNat (y / 256 ^ n) :=
      UInt8.toNat_inj.mp (by rw [UInt8.toNat_ofNat', UInt8.toNat_ofNat']; exact hdigit)
    rw [beBytes, beBytes, ih hlow, hbyte]

/-- The bytes of the number that bytes write are these bytes. -/
theorem beBytes_beNat (b : Bytes) : beBytes b.length (beNat b) = b := by
  induction b with
  | nil => rfl
  | cons x b ih =>
    have hlt := beNat_lt b
    have hhead : (x.toNat * 256 ^ b.length + beNat b) / 256 ^ b.length = x.toNat := by
      rw [Nat.add_comm, Nat.add_mul_div_right _ _ (Nat.pow_pos (by decide)),
        Nat.div_eq_of_lt hlt, Nat.zero_add]
    have htail : beBytes b.length (x.toNat * 256 ^ b.length + beNat b) = b := by
      rw [beBytes_congr (Nat.mul_add_mod_self_right ..), ih]
    rw [List.length_cons, beBytes, beNat_cons, hhead, htail, UInt8.ofNat_toNat]

end EventStream
