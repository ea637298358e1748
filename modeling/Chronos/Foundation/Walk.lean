import Chronos.Foundation.LockTable

/-! # What a cursor walk sees

A walk goes from each key of a list to the least one above it. When there is none left
it has seen every key once, in order: it has seen the list sorted and without its repetitions.
-/
namespace Chronos.Foundation
variable {K : Type} [LinearOrder K] {l seen : List K} {position : Option K} {k : K}

def inOrder (l : List K) : List K := l.dedup.insertionSort (· ≤ ·)

theorem mem_inOrder : k ∈ inOrder l ↔ k ∈ l := by simp [inOrder]

theorem inOrder_pairwise (l : List K) : (inOrder l).Pairwise (· < ·) := by
  have hsorted : (inOrder l).Pairwise (· ≤ ·) := List.pairwise_insertionSort _ _
  have hnodup : (inOrder l).Nodup :=
    (List.perm_insertionSort _ _).nodup_iff.mpr (List.nodup_dedup l)
  exact List.Pairwise.imp₂ (fun _ _ hle hne => lt_of_le_of_ne hle hne) hsorted hnodup

/-- What a walk that stands at `position` has seen. -/
structure Walked (l : List K) (position : Option K) (seen : List K) : Prop where
  sorted : seen.Pairwise (· < ·)
  mem : ∀ k, k ∈ seen ↔ k ∈ l ∧ ∃ p ∈ position, k ≤ p

theorem walked_nil : Walked l none [] where
  sorted := List.Pairwise.nil
  mem k := by simp

theorem nextAfter_lt (h : nextAfter l position = some k) {p : K} (hp : p ∈ position) : p < k := by
  have hmem := (List.mem_filter.mp (List.min?_mem h)).2
  rw [hp] at hmem
  simpa using hmem

theorem Walked.next (h : Walked l position seen) (hnext : nextAfter l position = some k) :
    Walked l (some k) (seen ++ [k]) where
  sorted := by
    refine List.pairwise_append.mpr ⟨h.sorted, List.pairwise_singleton _ _, ?_⟩
    intro k' hk' k'' hk''
    obtain ⟨p, hp, hle⟩ := ((h.mem k').mp hk').2
    rw [List.mem_singleton.mp hk'']
    exact hle.trans_lt (nextAfter_lt hnext hp)
  mem k' := by
    rw [List.mem_append, List.mem_singleton, h.mem]
    constructor
    · rintro (⟨hk', p, hp, hle⟩ | rfl)
      · exact ⟨hk', k, rfl, hle.trans (nextAfter_lt hnext hp).le⟩
      · exact ⟨nextAfter_mem hnext, k', rfl, le_rfl⟩
    · rintro ⟨hk', p, hp, hle⟩
      obtain rfl : k = p := Option.some.inj hp
      rcases hle.lt_or_eq with hlt | rfl
      · exact .inl ⟨hk', nextAfter_least hnext hk' hlt⟩
      · exact .inr rfl

theorem Walked.eq_inOrder (h : Walked l position seen) (hnext : nextAfter l position = none) :
    seen = inOrder l := by
  refine h.sorted.eq_of_mem_iff (inOrder_pairwise l) fun k => ?_
  rw [h.mem, mem_inOrder]
  exact ⟨fun hk => hk.1, fun hk => ⟨hk, nextAfter_none hnext hk⟩⟩

end Chronos.Foundation
