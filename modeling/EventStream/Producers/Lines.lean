import Mathlib.Data.List.Basic
import EventStream.Producers.Window

/-! The text of the producers' journal.

An entry is one line of JSON. What is asked of the serializer and the reader (`EntryFormat`) is
that a line has no newline in it and is read back. Replay reads line after line and stops at the
first that is no entry.

`compactJson` is one such format: the fields in their order and without blanks. The names are
producer ids, key ids and topic names; all three are checked where they come from to be letters,
digits and `_-.`, so no character is ever escaped. -/
namespace EventStream.Producers

def plainChar (c : Char) : Bool := c.isAlphanum || c == '_' || c == '-' || c == '.'

/-- The fields are in the range of their types and the names are plain. -/
def JournalEntry.Valid (e : JournalEntry) : Prop :=
  (∀ c ∈ e.p.toList ++ e.o.toList ++ e.t.toList, plainChar c) ∧ e.n < 2 ^ 32 ∧
    -2 ^ 63 ≤ e.s ∧ e.s ≤ i64Max ∧ e.f ≤ u64Max

-- The names are gone through character by character, not the characters there are.
instance : DecidablePred JournalEntry.Valid := fun _ =>
  @instDecidableAnd _ _ (List.decidableBAll ..) inferInstance

/-! ### The file -/

/-- The lines of a text; the last one need not be ended. -/
def lines : List Char → List (List Char)
  | [] => []
  | c :: s =>
    if c = '\n' then [] :: lines s
    else
      match lines s with
      | [] => [[c]]
      | l :: ls => (c :: l) :: ls

theorem lines_line {l : List Char} (hl : '\n' ∉ l) (s : List Char) :
    lines (l ++ '\n' :: s) = l :: lines s := by
  induction l with
  | nil => rw [List.nil_append, lines, if_pos rfl]
  | cons c l ih =>
    obtain ⟨hc, hl⟩ := not_or.mp (List.mem_cons.not.mp hl)
    rw [List.cons_append, lines, if_neg (Ne.symm hc), ih hl]

/-- How an entry is written to a line and read from one. -/
class EntryFormat where
  encodeEntry : JournalEntry → List Char
  parseEntry : List Char → Option JournalEntry
  parse_encode {e : JournalEntry} : e.Valid → parseEntry (encodeEntry e) = some e
  newline_not_mem {e : JournalEntry} : e.Valid → '\n' ∉ encodeEntry e

section
open EntryFormat
variable [EntryFormat] {es : List JournalEntry}

/-- The entries of the lines up to the first that is none. -/
def parseAll : List (List Char) → List JournalEntry
  | [] => []
  | l :: ls =>
    match parseEntry l with
    | none => []
    | some e => e :: parseAll ls

/-- What `replay` finds in a file. -/
def replayed (text : List Char) : List JournalEntry := parseAll (lines text)

/-- What `journal` writes. -/
def encodeLines (es : List JournalEntry) : List Char :=
  es.flatMap fun e => encodeEntry e ++ ['\n']

theorem encodeLines_cons (e : JournalEntry) (es : List JournalEntry) :
    encodeLines (e :: es) = encodeEntry e ++ '\n' :: encodeLines es := by
  rw [encodeLines, List.flatMap_cons, List.append_assoc]
  rfl

theorem encodeLines_append (es es' : List JournalEntry) :
    encodeLines (es ++ es') = encodeLines es ++ encodeLines es' :=
  List.flatMap_append

/-- Whole lines are read back, whatever stands behind them. -/
theorem replayed_encodeLines (h : ∀ e ∈ es, e.Valid) (rest : List Char) :
    replayed (encodeLines es ++ rest) = es ++ replayed rest := by
  induction es with
  | nil => rfl
  | cons e es ih =>
    obtain ⟨he, hes⟩ := List.forall_mem_cons.mp h
    rw [encodeLines_cons, List.append_assoc, List.cons_append, replayed,
      lines_line (newline_not_mem he), parseAll, parse_encode he]
    exact congrArg (e :: ·) (ih hes)

/-- A cut through lines leaves whole lines and a part of one. -/
theorem take_encodeLines (h : ∀ e ∈ es, e.Valid) (m : Nat) :
    ∃ k tail, (encodeLines es).take m = encodeLines (es.take k) ++ tail ∧ '\n' ∉ tail := by
  induction es generalizing m with
  | nil => exact ⟨0, [], by simp [encodeLines], List.not_mem_nil⟩
  | cons e es ih =>
    obtain ⟨he, hes⟩ := List.forall_mem_cons.mp h
    rw [encodeLines_cons]
    by_cases hm : m ≤ (encodeEntry e).length
    · refine ⟨0, (encodeEntry e).take m, ?_, fun hmem => ?_⟩
      · rw [List.take_append_of_le_length hm]
        rfl
      · exact newline_not_mem he (List.mem_of_mem_take hmem)
    · obtain ⟨k, tail, htake, htail⟩ := ih hes (m - (encodeEntry e).length - 1)
      refine ⟨k + 1, tail, ?_, htail⟩
      have hsucc : m - (encodeEntry e).length = m - (encodeEntry e).length - 1 + 1 := by omega
      rw [List.take_append, List.take_of_length_le (by omega), hsucc, List.take_succ_cons, htake,
        List.take_succ_cons, encodeLines_cons, List.append_assoc, List.cons_append]

end

/-! ### Writing a line -/

def keyP : List Char := "\x7b\"p\":\"".toList
def keyO : List Char := "\",\"o\":\"".toList
def keyT : List Char := "\",\"t\":\"".toList
def keyN : List Char := "\",\"n\":".toList
def keyS : List Char := ",\"s\":".toList
def keyF : List Char := ",\"f\":".toList
def closing : List Char := "\x7d".toList

def printNat (n : Nat) : List Char := Nat.toDigits 10 n

def printInt (x : Int) : List Char :=
  if x < 0 then '-' :: printNat x.natAbs else printNat x.natAbs

def encodeEntry (e : JournalEntry) : List Char :=
  keyP ++ (e.p.toList ++ (keyO ++ (e.o.toList ++ (keyT ++ (e.t.toList ++ (keyN ++
    (printNat e.n ++ (keyS ++ (printInt e.s ++ (keyF ++ (printNat e.f ++ closing)))))))))))

/-! ### Reading a line -/

def expect : List Char → List Char → Option (List Char)
  | [], s => some s
  | _ :: _, [] => none
  | c :: cs, d :: s => if c = d then expect cs s else none

def word (p : Char → Bool) (s : List Char) : List Char × List Char := (s.takeWhile p, s.dropWhile p)

def parseNat (s : List Char) : Option (Nat × List Char) :=
  let w := word Char.isDigit s
  if w.1 = [] then none else some (Nat.ofDigitChars 10 w.1 0, w.2)

def parseInt (s : List Char) : Option (Int × List Char) :=
  if s.head? = some '-' then (parseNat s.tail).map fun x => (-(x.1 : Int), x.2)
  else (parseNat s).map fun x => ((x.1 : Int), x.2)

def parseEntry (s : List Char) : Option JournalEntry := do
  let p := word plainChar (← expect keyP s)
  let o := word plainChar (← expect keyO p.2)
  let t := word plainChar (← expect keyT o.2)
  let n ← parseNat (← expect keyN t.2)
  let s ← parseInt (← expect keyS n.2)
  let f ← parseNat (← expect keyF s.2)
  let rest ← expect closing f.2
  let e : JournalEntry :=
    ⟨String.ofList p.1, String.ofList o.1, String.ofList t.1, n.1, s.1, f.1⟩
  if rest = [] ∧ e.Valid then some e else none

theorem expect_append (l s : List Char) : expect l (l ++ s) = some s := by
  induction l with
  | nil => cases s <;> rfl
  | cons c l ih => rw [List.cons_append, expect, if_pos rfl, ih]

variable {l : List Char} {e : JournalEntry}

/-- What is read up to a key ends there, when the key's first character is no part of it. -/
theorem word_append {p : Char → Bool} (hl : ∀ c ∈ l, p c) (key : List Char)
    (hkey : key.head?.map p = some false) (s : List Char) :
    word p (l ++ (key ++ s)) = (l, key ++ s) := by
  cases key with
  | nil => cases hkey
  | cons d key =>
    have hd : ¬p d = true := Bool.eq_false_iff.mp (Option.some.inj hkey)
    unfold word
    rw [List.takeWhile_append_of_pos hl, List.dropWhile_append_of_pos hl, List.cons_append,
      List.takeWhile_cons_of_neg hd, List.dropWhile_cons_of_neg hd, List.append_nil]

theorem printNat_digits (n : Nat) : ∀ c ∈ printNat n, c.isDigit :=
  fun _ hc => Nat.isDigit_of_mem_toDigits (by decide) (by decide) hc

theorem printNat_ne_nil (n : Nat) : printNat n ≠ [] := Nat.toDigits_ne_nil

section Numbers
variable (key : List Char) (hkey : key.head?.map Char.isDigit = some false) (s : List Char)
include hkey

theorem parseNat_print (n : Nat) : parseNat (printNat n ++ (key ++ s)) = some (n, key ++ s) := by
  unfold parseNat
  rw [word_append (printNat_digits n) key hkey]
  dsimp only
  rw [if_neg (printNat_ne_nil n), printNat, Nat.ofDigitChars_toDigits (by decide) (by decide)]

theorem parseInt_print (x : Int) : parseInt (printInt x ++ (key ++ s)) = some (x, key ++ s) := by
  unfold parseInt printInt
  by_cases hx : x < 0
  · rw [if_pos hx, List.cons_append, List.head?_cons, if_pos rfl, List.tail_cons,
      parseNat_print key hkey, Option.map_some, Int.ofNat_natAbs_of_nonpos (le_of_lt hx), neg_neg]
  · rw [if_neg hx]
    -- The first character is a digit, so no sign.
    obtain ⟨c, cs, hcs⟩ := List.exists_cons_of_ne_nil (printNat_ne_nil x.natAbs)
    have hc : c.isDigit := printNat_digits x.natAbs c (hcs ▸ List.mem_cons_self)
    have hhead : (printNat x.natAbs ++ (key ++ s)).head? ≠ some '-' := by
      rw [hcs, List.cons_append, List.head?_cons]
      intro heq
      rw [Option.some.inj heq] at hc
      exact absurd hc (by decide)
    rw [if_neg hhead, parseNat_print key hkey, Option.map_some, Int.natAbs_of_nonneg (not_lt.mp hx)]

end Numbers

theorem parseEntry_encode (h : e.Valid) : parseEntry (encodeEntry e) = some e := by
  have hp : ∀ c ∈ e.p.toList, plainChar c := fun c hc => h.1 c (by simp [hc])
  have ho : ∀ c ∈ e.o.toList, plainChar c := fun c hc => h.1 c (by simp [hc])
  have ht : ∀ c ∈ e.t.toList, plainChar c := fun c hc => h.1 c (by simp [hc])
  have hf : parseNat (printNat e.f ++ closing) = some (e.f, closing) := by
    simpa using parseNat_print closing rfl [] e.f
  have hclosing : expect closing closing = some [] := rfl
  have hvalid : (if ([] : List Char) = [] ∧ e.Valid then some e else none) = some e :=
    if_pos ⟨rfl, h⟩
  unfold parseEntry encodeEntry
  -- One key after the other is found, and what stands before the next one is read.
  refine Option.bind_eq_some_iff.mpr ⟨_, expect_append keyP _, ?_⟩
  rw [word_append hp keyO rfl]
  refine Option.bind_eq_some_iff.mpr ⟨_, expect_append keyO _, ?_⟩
  rw [word_append ho keyT rfl]
  refine Option.bind_eq_some_iff.mpr ⟨_, expect_append keyT _, ?_⟩
  rw [word_append ht keyN rfl]
  refine Option.bind_eq_some_iff.mpr ⟨_, expect_append keyN _, ?_⟩
  refine Option.bind_eq_some_iff.mpr ⟨_, parseNat_print keyS rfl _ e.n, ?_⟩
  refine Option.bind_eq_some_iff.mpr ⟨_, expect_append keyS _, ?_⟩
  refine Option.bind_eq_some_iff.mpr ⟨_, parseInt_print keyF rfl _ e.s, ?_⟩
  refine Option.bind_eq_some_iff.mpr ⟨_, expect_append keyF _, ?_⟩
  refine Option.bind_eq_some_iff.mpr ⟨_, hf, ?_⟩
  refine Option.bind_eq_some_iff.mpr ⟨_, hclosing, ?_⟩
  simpa only [String.ofList_toList] using hvalid

theorem newline_not_mem_encodeEntry (h : e.Valid) : '\n' ∉ encodeEntry e := by
  have hname : '\n' ∉ e.p.toList ++ e.o.toList ++ e.t.toList :=
    fun hmem => absurd (h.1 _ hmem) (by decide)
  have hnat : ∀ n, '\n' ∉ printNat n :=
    fun n hmem => absurd (printNat_digits n _ hmem) (by decide)
  have hint : '\n' ∉ printInt e.s := by
    unfold printInt
    split
    · exact fun hmem => (List.mem_cons.mp hmem).elim (by decide) (hnat _)
    · exact hnat _
  have hkeys : ∀ key ∈ [keyP, keyO, keyT, keyN, keyS, keyF, closing], '\n' ∉ key := by decide
  simp only [List.mem_append, not_or] at hname
  simp only [List.forall_mem_cons] at hkeys
  obtain ⟨⟨hp, ho⟩, ht⟩ := hname
  obtain ⟨hkp, hko, hkt, hkn, hks, hkf, hend, -⟩ := hkeys
  simp only [encodeEntry, List.mem_append, not_or]
  exact ⟨hkp, hp, hko, ho, hkt, ht, hkn, hnat _, hks, hint, hkf, hnat _, hend⟩

instance compactJson : EntryFormat := ⟨encodeEntry, parseEntry, parseEntry_encode,
  newline_not_mem_encodeEntry⟩

end EventStream.Producers
