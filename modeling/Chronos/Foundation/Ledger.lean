import Mathlib.Data.List.Nodup
import Mathlib.Data.List.Count
import Mathlib.Data.List.Perm.Basic

/-! # What has been opened and closed

The events of a trace open and close things. What is opened and not yet closed is
carried along as a list; each thing was closed exactly once if the list is empty.
-/
namespace Chronos.Foundation
variable {E I : Type} {opens closes : E → Option I} {X Y : List I} {tr : List E} {e : E} {c : I}

/-- Whatever has been opened has been closed exactly once. -/
def ClosedOnce [DecidableEq I] (opens closes : E → Option I) (tr : List E) : Prop :=
  ∀ c ∈ tr.filterMap opens, (tr.filterMap closes).count c = 1

/-- What has been opened and not closed is `X`. -/
def LeftOpen [DecidableEq I] (opens closes : E → Option I) (X : List I) (tr : List E) : Prop :=
  ∀ c, (tr.filterMap opens).count c = (tr.filterMap closes).count c + X.count c

theorem filterMap_snoc_none {f : E → Option I} (h : f e = none) :
    (tr ++ [e]).filterMap f = tr.filterMap f := by
  rw [List.filterMap_append, List.filterMap_cons_none h, List.filterMap_nil, List.append_nil]

theorem filterMap_snoc_some {f : E → Option I} (h : f e = some c) :
    (tr ++ [e]).filterMap f = tr.filterMap f ++ [c] := by
  rw [List.filterMap_append, List.filterMap_cons_some h, List.filterMap_nil]

theorem filterMap_append_none {f : E → Option I} {post : List E} (h : ∀ e ∈ post, f e = none) :
    (tr ++ post).filterMap f = tr.filterMap f := by
  rw [List.filterMap_append, List.filterMap_eq_nil_iff.mpr h, List.append_nil]

variable [DecidableEq I]

theorem LeftOpen.nil : LeftOpen opens closes [] [] := fun _ => rfl

theorem LeftOpen.perm (h : LeftOpen opens closes X tr) (hperm : X.Perm Y) :
    LeftOpen opens closes Y tr :=
  fun c => (h c).trans (by rw [hperm.count_eq])

theorem LeftOpen.other (h : LeftOpen opens closes X tr) (ho : opens e = none)
    (hc : closes e = none) : LeftOpen opens closes X (tr ++ [e]) := by
  intro c
  rw [filterMap_snoc_none ho, filterMap_snoc_none hc]
  exact h c

theorem LeftOpen.opened (h : LeftOpen opens closes X tr) (ho : opens e = some c)
    (hc : closes e = none) : LeftOpen opens closes (c :: X) (tr ++ [e]) := by
  intro c'
  rw [filterMap_snoc_some ho, filterMap_snoc_none hc, List.count_append, List.count_cons, h c',
    List.count_cons, List.count_nil, Nat.zero_add, Nat.add_assoc]

theorem LeftOpen.closed (h : LeftOpen opens closes (c :: X) tr) (ho : opens e = none)
    (hc : closes e = some c) : LeftOpen opens closes X (tr ++ [e]) := by
  intro c'
  have hcount := h c'
  rw [List.count_cons] at hcount
  rw [filterMap_snoc_none ho, filterMap_snoc_some hc, List.count_append, List.count_cons,
    List.count_nil, hcount]
  omega

theorem LeftOpen.mem_opened (h : LeftOpen opens closes X tr) (hc : c ∈ X) :
    c ∈ tr.filterMap opens := by
  have hpos : 0 < X.count c := List.count_pos_iff.mpr hc
  rw [← List.count_pos_iff, h c]
  omega

/-- If nothing is opened twice, what is left open tells whether each thing was closed once. -/
theorem LeftOpen.closedOnce_iff (h : LeftOpen opens closes X tr)
    (hnodup : (tr.filterMap opens).Nodup) : ClosedOnce opens closes tr ↔ X = [] := by
  constructor
  · intro hclosed
    refine List.eq_nil_iff_forall_not_mem.mpr fun c hc => ?_
    have hpos : 0 < X.count c := List.count_pos_iff.mpr hc
    have hopened : c ∈ tr.filterMap opens := h.mem_opened hc
    have honce : (tr.filterMap opens).count c = 1 := List.count_eq_one_of_mem hnodup hopened
    have hone := hclosed c hopened
    have hsum := h c
    omega
  · rintro rfl c hc
    have hsum := h c
    rw [List.count_eq_one_of_mem hnodup hc, List.count_nil] at hsum
    exact hsum.symm

theorem LeftOpen.not_closedOnce_of_again (h : LeftOpen opens closes X tr)
    (hmem : c ∈ tr.filterMap opens) (hX : c ∉ X) (ho : opens e = none) (hc : closes e = some c) :
    ¬ ClosedOnce opens closes (tr ++ [e]) := by
  intro hclosed
  have hone := hclosed c (by rwa [filterMap_snoc_none ho])
  have hpos : 0 < (tr.filterMap opens).count c := List.count_pos_iff.mpr hmem
  rw [h c, List.count_eq_zero_of_not_mem hX] at hpos
  rw [filterMap_snoc_some hc, List.count_append, List.count_singleton_self] at hone
  omega

end Chronos.Foundation
