import Mathlib.Data.List.Sort

/-! Lookups in maps with string keys.

The maps of the source are ordered (`BTreeMap`) or hashed (`DashMap`); where more than a lookup
matters both are `Std.TreeMap` here. -/
namespace EventStream

open Std

variable {α : Type} {k id : String}

theorem getElem?_insert_cases {t : TreeMap String α} {v x : α} (h : (t.insert k v)[id]? = some x) :
    (id = k ∧ x = v) ∨ (id ≠ k ∧ t[id]? = some x) := by
  rw [TreeMap.getElem?_insert] at h
  split at h
  · rename_i heq
    exact Or.inl ⟨(LawfulEqCmp.eq_of_compare heq).symm, (Option.some.inj h).symm⟩
  · rename_i hne
    refine Or.inr ⟨fun hid => hne ?_, h⟩
    rw [hid]
    exact ReflCmp.compare_self

theorem getElem?_insert_of_ne {t : TreeMap String α} (v : α) (h : id ≠ k) :
    (t.insert k v)[id]? = t[id]? := by
  rw [TreeMap.getElem?_insert, if_neg fun heq => h (LawfulEqCmp.eq_of_compare heq).symm]

theorem getElem?_erase_of_ne {t : TreeMap String α} (h : id ≠ k) : (t.erase k)[id]? = t[id]? := by
  rw [TreeMap.getElem?_erase, if_neg fun heq => h (LawfulEqCmp.eq_of_compare heq).symm]

theorem mem_iff_getElem? {t : TreeMap String α} : id ∈ t ↔ ∃ v, t[id]? = some v := by
  rw [TreeMap.mem_iff_isSome_getElem?, Option.isSome_iff_exists]

end EventStream
