import Mathlib

/-! # Work that is paced by due times

Something is done again and again, not before it is due, and each time it becomes due again
some time after it has been done. The gaps between the times, and with them the number of
times within an interval, then follow from the due times.
-/
namespace Chronos.Foundation

section Pacing
variable {τ : Type*} [AddCommGroup τ] [LinearOrder τ] [IsOrderedAddMonoid τ]
  {gap start due due' : τ}

/-- When a piece of work began and when it was over. -/
structure Firing (τ : Type*) where
  began : τ
  ended : τ

/-- The last piece of work comes first in the list. There is a gap after the start and after each
of them, and the next one is due at `due`. -/
def Paced (gap start : τ) : τ → List (Firing τ) → Prop
  | due, [] => start + gap ≤ due
  | due, f :: fs => f.began ≤ f.ended ∧ f.ended + gap ≤ due ∧ Paced gap start f.began fs

def lastEnded (start : τ) : List (Firing τ) → τ
  | [] => start
  | f :: _ => f.ended

variable {fs : List (Firing τ)}

omit [IsOrderedAddMonoid τ] in
theorem Paced.mono (h : Paced gap start due fs) (hle : due ≤ due') : Paced gap start due' fs := by
  cases fs with
  | nil => exact le_trans h hle
  | cons f fs => exact ⟨h.1, h.2.1.trans hle, h.2.2⟩

omit [IsOrderedAddMonoid τ] in
theorem Paced.fire {f : Firing τ} (h : Paced gap start due fs) (hdue : due ≤ f.began)
    (hends : f.began ≤ f.ended) (hnext : f.ended + gap ≤ due') :
    Paced gap start due' (f :: fs) := ⟨hends, hnext, h.mono hdue⟩

omit [IsOrderedAddMonoid τ] in
theorem Paced.lastEnded_le (h : Paced gap start due fs) : lastEnded start fs + gap ≤ due := by
  cases fs with
  | nil => exact h
  | cons f fs => exact h.2.1

theorem Paced.ended_le (hgap : 0 ≤ gap) (h : Paced gap start due fs) :
    ∀ f ∈ fs, f.ended + gap ≤ due := by
  induction fs generalizing due with
  | nil => exact fun f hf => absurd hf List.not_mem_nil
  | cons g fs ih =>
    refine List.forall_mem_cons.mpr ⟨h.2.1, fun f hf => ?_⟩
    calc f.ended + gap ≤ g.began := ih h.2.2 f hf
      _ ≤ g.ended := h.1
      _ ≤ g.ended + gap := le_add_of_nonneg_right hgap
      _ ≤ due := h.2.1

theorem Paced.pairwise (hgap : 0 ≤ gap) (h : Paced gap start due fs) :
    fs.Pairwise fun later earlier => earlier.ended + gap ≤ later.began := by
  induction fs generalizing due with
  | nil => exact List.Pairwise.nil
  | cons f fs ih => exact List.pairwise_cons.mpr ⟨h.2.2.ended_le hgap, ih h.2.2⟩

theorem Paced.start_le (hgap : 0 ≤ gap) (h : Paced gap start due fs) : start + gap ≤ due := by
  induction fs generalizing due with
  | nil => exact h
  | cons f fs ih =>
    calc start + gap ≤ f.began := ih h.2.2
      _ ≤ f.ended := h.1
      _ ≤ f.ended + gap := le_add_of_nonneg_right hgap
      _ ≤ due := h.2.1

theorem Paced.count_le (h : Paced gap start due fs) :
    start + fs.length • gap ≤ lastEnded start fs := by
  induction fs generalizing due with
  | nil =>
    rw [List.length_nil, zero_smul, add_zero]
    exact le_rfl
  | cons f fs ih =>
    obtain ⟨hends, -, hrest⟩ := h
    calc start + (f :: fs).length • gap = start + fs.length • gap + gap := by
          rw [List.length_cons, succ_nsmul, add_assoc]
      _ ≤ lastEnded start fs + gap := by gcongr; exact ih hrest
      _ ≤ f.began := hrest.lastEnded_le
      _ ≤ f.ended := hends

end Pacing

end Chronos.Foundation
