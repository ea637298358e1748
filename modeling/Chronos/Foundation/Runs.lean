import Mathlib

/-! # Runs of a step function and their histories

A run folds a step function over a list of events. A property that relates the
state to all events so far is carried from each run to its extension by one event.
A closed system takes the same step again and again, and may or may not get done.
-/
namespace Chronos.Foundation

section Runs
variable {State Event : Type*} {step : State → Event → State}

/-- A property of histories and states that every step extends holds after every run. -/
theorem foldl_history {P : List Event → State → Prop} {s : State} (hstart : P [] s)
    (hstep : ∀ es s ev, P es s → P (es ++ [ev]) (step s ev)) (es : List Event) :
    P es (es.foldl step s) := by
  induction es using List.reverseRecOn with
  | nil => exact hstart
  | append_singleton es ev ih =>
    rw [List.foldl_append]
    exact hstep es _ ev ih

/-- Where each step keeps a promise if and only if it is safe, the promise holds throughout
a run exactly if all of its steps are safe. -/
theorem always_iff {Inv Good : State → Prop} {Safe : State → Event → Prop} {s : State}
    (hinv : Inv s) (hgood : Good s) (hkeep : ∀ s ev, Inv s → Inv (step s ev))
    (hsafe : ∀ s ev, Inv s → Good s → (Good (step s ev) ↔ Safe s ev)) (es : List Event) :
    (∀ pre, pre <+: es → Good (pre.foldl step s)) ↔ ∀ pre ev, pre ++ [ev] <+: es → Safe
    (pre.foldl step s) ev := by
  have hall : ∀ pre : List Event, Inv (pre.foldl step s) :=
    foldl_history (P := fun _ => Inv) hinv fun _ s ev => hkeep s ev
  have hsnoc : ∀ (pre : List Event) ev, (pre ++ [ev]).foldl step s = step (pre.foldl step s) ev :=
    fun _ _ => List.foldl_append
  constructor
  · intro h pre ev hpre
    have hafter := h _ hpre
    rw [hsnoc] at hafter
    exact (hsafe _ ev (hall pre) (h pre ((List.prefix_append _ _).trans hpre))).mp hafter
  · intro h pre hpre
    induction pre using List.reverseRecOn with
    | nil => exact hgood
    | append_singleton pre ev ih =>
      rw [hsnoc]
      exact (hsafe _ ev (hall pre) (ih ((List.prefix_append _ _).trans hpre))).mpr (h pre ev hpre)

/-- Where a step that keeps its promise leads to a good state, and in a good state keeps it if and
only if it is safe, all steps of a run keep theirs exactly if all are safe. -/
theorem always_step_iff (Good : State → Prop) (Keeps Safe : State → Event → Prop) {s : State}
    (hgood : Good s) (hkeep : ∀ s ev, Good s → Keeps s ev → Good (step s ev))
    (hsafe : ∀ s ev, Good s → (Keeps s ev ↔ Safe s ev)) (es : List Event) :
    (∀ pre ev, pre ++ [ev] <+: es → Keeps (pre.foldl step s) ev) ↔
      ∀ pre ev, pre ++ [ev] <+: es → Safe (pre.foldl step s) ev := by
  have hstate : (∀ pre ev, pre ++ [ev] <+: es → Good (pre.foldl step s) →
    Keeps (pre.foldl step s) ev) →
      ∀ pre, pre <+: es → Good (pre.foldl step s) := by
    intro h pre
    induction pre using List.reverseRecOn with
    | nil => exact fun _ => hgood
    | append_singleton pre ev ih =>
      intro hpre
      have hbefore := ih ((List.prefix_append _ _).trans hpre)
      rw [List.foldl_append]
      exact hkeep _ ev hbefore (h pre ev hpre hbefore)
  constructor
  · intro h pre ev hpre
    have hbefore :=
      hstate (fun pre ev hpre _ => h pre ev hpre) pre ((List.prefix_append _ _).trans hpre)
    exact (hsafe _ ev hbefore).mp (h pre ev hpre)
  · intro h pre ev hpre
    have hbefore := hstate (fun pre ev hpre hgood => (hsafe _ ev hgood).mpr (h pre ev hpre)) pre
      ((List.prefix_append _ _).trans hpre)
    exact (hsafe _ ev hbefore).mpr (h pre ev hpre)

end Runs

section Eventually
variable {State : Type*} {step : State → State} {Done : State → Prop} {s : State}

end Eventually

end Chronos.Foundation
