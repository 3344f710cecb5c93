import EventStream.Consensus.Protocol
import Mathlib.Data.List.Sort
import Mathlib.Data.List.Count

/-! Majorities, and how a sorted list shows one. -/
namespace Consensus

variable {N : Type} {k : Nat} {l : List Nat}

/-- From position `k` of an ascending list on, nothing is below what stands there. -/
theorem sorted_countP (h : l.Pairwise (· ≤ ·)) (hk : k < l.length) :
    l.length - k ≤ l.countP (fun x => l[k] ≤ x) := by
  have hdrop : l.drop k = l[k] :: l.drop (k + 1) := List.drop_eq_getElem_cons hk
  have hle : ∀ x ∈ l.drop k, l[k] ≤ x := by
    have hp := h.sublist (List.drop_sublist k l)
    rw [hdrop] at hp ⊢
    intro x hx
    rcases List.mem_cons.mp hx with rfl | hx
    · exact Nat.le_refl _
    · exact (List.pairwise_cons.mp hp).1 x hx
  have hall : (l.drop k).countP (fun x => l[k] ≤ x) = (l.drop k).length :=
    List.countP_eq_length.mpr (fun x hx => by simpa using hle x hx)
  calc l.length - k = (l.drop k).length := by rw [List.length_drop]
    _ = (l.drop k).countP (fun x => l[k] ≤ x) := hall.symm
    _ ≤ l.countP (fun x => l[k] ≤ x) := (List.drop_sublist k l).countP_le

/-- What is above the element at position `k` of an ascending list stands behind it. -/
theorem sorted_countP_above (h : l.Pairwise (· ≤ ·)) {n : Nat} (hk : k < l.length) (hn : l[k] < n) :
    l.countP (fun x => n ≤ x) < l.length - k := by
  have hbelow : (l.take (k + 1)).countP (fun x => n ≤ x) = 0 := by
    refine List.countP_eq_zero.mpr fun x hx => ?_
    obtain ⟨j, hj, rfl⟩ := List.mem_iff_getElem.mp hx
    rw [List.length_take] at hj
    have hle : l[j] ≤ l[k] := by
      rcases Nat.lt_or_ge j k with hjk | hjk
      · exact List.pairwise_iff_getElem.mp h j k (by omega) hk hjk
      · have heq : j = k := by omega
        subst heq
        exact Nat.le_refl _
    rw [List.getElem_take, decide_eq_true_eq]
    omega
  calc l.countP (fun x => n ≤ x)
      = (l.take (k + 1)).countP (fun x => n ≤ x) + (l.drop (k + 1)).countP (fun x => n ≤ x) := by
        rw [← List.countP_append, List.take_append_drop]
    _ ≤ (l.drop (k + 1)).length := by
        rw [hbelow, Nat.zero_add]
        exact List.countP_le_length
    _ < l.length - k := by
        rw [List.length_drop]
        omega

/-- The members whose value reaches the one at position `k` of the sorted values. -/
theorem sorted_reaches {ms : List N} (f : N → Nat) {c : Nat}
    (hc : ((ms.map f).insertionSort (· ≤ ·))[k]? = some c) :
    ms.length - k ≤ (ms.filter (fun n => c ≤ f n)).length := by
  obtain ⟨hk, rfl⟩ := List.getElem?_eq_some_iff.mp hc
  have hperm := List.perm_insertionSort (· ≤ ·) (ms.map f)
  have hcount := sorted_countP (List.pairwise_insertionSort (· ≤ ·) (ms.map f)) hk
  rw [hperm.countP_eq, List.countP_map, List.length_insertionSort, List.length_map] at hcount
  rw [← List.countP_eq_length_filter]
  exact hcount

variable [DecidableEq N]

/-- More than half of `members`. -/
def majority (members : Finset N) : Quorums N where
  IsQuorum Q := Q ⊆ members ∧ members.card < 2 * Q.card
  meet := by
    rintro P Q ⟨hP, hPc⟩ ⟨hQ, hQc⟩
    have hunion := Finset.card_le_card (Finset.union_subset hP hQ)
    have hsum := Finset.card_union_add_card_inter P Q
    have hpos : 0 < (P ∩ Q).card := by omega
    obtain ⟨n, hn⟩ := Finset.card_pos.mp hpos
    exact ⟨n, Finset.mem_inter.mp hn⟩

/-- A list of distinct members, more than half of them, is a majority. -/
theorem majority_of_list {members : Finset N} {l : List N} (hnd : l.Nodup)
    (hsub : ∀ n ∈ l, n ∈ members) (hlen : members.card < 2 * l.length) :
    (majority members).IsQuorum l.toFinset := by
  refine ⟨fun n hn => hsub n (List.mem_toFinset.mp hn), ?_⟩
  rw [List.toFinset_card_of_nodup hnd]
  exact hlen

end Consensus
