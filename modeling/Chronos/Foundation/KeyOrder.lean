import Mathlib

/-! # Order of a list and order of its keys

A list is stored under its own elements as keys and read back in key order. An initial
part of it comes back in place exactly if each of its elements is less than every later one.
-/
namespace Chronos.Foundation
variable {α : Type*} [LinearOrder α] {l : List α}

/-- An initial part that is sorted and below the rest is where sorting leaves it. -/
theorem insertionSort_append {p s : List α} (hp : p.Pairwise (· ≤ ·))
    (hlt : ∀ a ∈ p, ∀ b ∈ s, a ≤ b) :
    (p ++ s).insertionSort (· ≤ ·) = p ++ s.insertionSort (· ≤ ·) := by
  have hperm : ((p ++ s).insertionSort (· ≤ ·)).Perm (p ++ s.insertionSort (· ≤ ·)) :=
    (List.perm_insertionSort _ _).trans ((List.perm_insertionSort _ s).symm.append_left p)
  have hsorted : (p ++ s.insertionSort (· ≤ ·)).Pairwise (· ≤ ·) := by
    refine List.pairwise_append.mpr ⟨hp, List.pairwise_insertionSort _ s, ?_⟩
    intro a ha b hb
    exact hlt a ha b ((List.mem_insertionSort _).mp hb)
  exact hperm.eq_of_pairwise' (List.pairwise_insertionSort _ _) hsorted

/-- The first `m` elements are each less than all that come later. -/
def FirstInOrder (m : ℕ) (l : List α) : Prop :=
  ∀ i j, i < m → i < j → ∀ a b, l[i]? = some a → l[j]? = some b → a < b

theorem FirstInOrder.sorted {m : ℕ} (h : FirstInOrder m l) {i : ℕ} (hi : i < m) :
    (l.insertionSort (· ≤ ·))[i]? = l[i]? := by
  have hsorted : (l.take m).Pairwise (· ≤ ·) := by
    rw [List.pairwise_iff_getElem]
    intro i j hi hj hij
    rw [List.length_take] at hi hj
    rw [List.getElem_take, List.getElem_take]
    exact (h i j (by omega) hij _ _ (List.getElem?_eq_getElem _) (List.getElem?_eq_getElem _)).le
  have hbelow : ∀ a ∈ l.take m, ∀ b ∈ l.drop m, a ≤ b := by
    intro a ha b hb
    obtain ⟨i, hi, rfl⟩ := List.getElem_of_mem ha
    obtain ⟨j, hj, rfl⟩ := List.getElem_of_mem hb
    rw [List.length_take] at hi
    rw [List.length_drop] at hj
    rw [List.getElem_take, List.getElem_drop]
    exact (h i (m + j) (by omega) (by omega) _ _ (List.getElem?_eq_getElem _)
      (List.getElem?_eq_getElem _)).le
  have hsplit := insertionSort_append hsorted hbelow
  rw [List.take_append_drop] at hsplit
  rw [hsplit]
  by_cases hlen : i < l.length
  · rw [List.getElem?_append_left (by rw [List.length_take]; omega), List.getElem?_take_of_lt hi]
  · have hlong : (l.take m ++ (l.drop m).insertionSort (· ≤ ·)).length = l.length := by
      rw [← hsplit, List.length_insertionSort]
    rw [List.getElem?_eq_none (by omega), List.getElem?_eq_none (by omega)]

/-- Where nothing occurs twice, the first `m` elements are in order exactly if sorting
leaves them in place. -/
theorem firstInOrder_iff {m : ℕ} (hnodup : l.Nodup) :
    FirstInOrder m l ↔ ∀ i < m, (l.insertionSort (· ≤ ·))[i]? = l[i]? := by
  refine ⟨fun h i hi => h.sorted hi, fun h i j hi hij a b ha hb => ?_⟩
  have hsorted := List.pairwise_iff_getElem.mp (List.pairwise_insertionSort (· ≤ ·) l)
  have hmem : b ∈ l.insertionSort (· ≤ ·) :=
    (List.mem_insertionSort _).mpr (List.mem_of_getElem? hb)
  obtain ⟨k, hk, rfl⟩ := List.getElem_of_mem hmem
  have hne : ∀ k' < m, k' < j → k ≠ k' := by
    rintro k' hk' hlt rfl
    have hsame := (h k hk').symm.trans (List.getElem?_eq_getElem hk)
    have heq := (List.getElem?_inj (List.getElem?_eq_some_iff.mp hsame).1 hnodup).mp
      (hsame.trans hb.symm)
    omega
  have hik : i < k := by
    by_contra hle
    exact hne k (by omega) (by omega) rfl
  have ha' := (h i hi).trans ha
  obtain ⟨hi', rfl⟩ := List.getElem?_eq_some_iff.mp ha'
  refine lt_of_le_of_ne (hsorted i k hi' hk hik) fun heq => ?_
  have hnodup' : (l.insertionSort (· ≤ ·)).Nodup :=
    (List.perm_insertionSort _ l).nodup_iff.mpr hnodup
  have := (List.Nodup.getElem_inj_iff hnodup').mp heq
  omega

end Chronos.Foundation
