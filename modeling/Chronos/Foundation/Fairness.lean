import Mathlib

/-! # Fair schedules

A step function is driven by an infinite schedule of events. If every step that
changes the state brings a measure down, and in every state that is not done some
kind of event changes it, then a schedule in which every kind keeps coming gets done.
-/
namespace Chronos.Foundation

section Fair
variable {State Event Kind : Type*} {step : State → Event → State} {ev : ℕ → Event} {s : State}

/-- The state after the first `n` events of a schedule. -/
def runFor (step : State → Event → State) (ev : ℕ → Event) (s : State) : ℕ → State
  | 0 => s
  | n + 1 => step (runFor step ev s n) (ev n)

/-- Events of every kind come again and again. -/
def Fair (isOf : Kind → Event → Prop) (ev : ℕ → Event) : Prop := ∀ k n, ∃ m ≥ n, isOf k (ev m)

theorem runFor_stable {P : State → Prop} (hstep : ∀ s e, P s → P (step s e)) {n m : ℕ} (hle : n ≤ m)
    (h : P (runFor step ev s n)) : P (runFor step ev s m) := by
  induction m, hle using Nat.le_induction with
  | base => exact h
  | succ m _ ih => exact hstep _ _ ih

/-- Between two moments nothing has changed, or the measure is lower. -/
theorem unchanged_or_lower {measure : State → ℕ}
    (hstep : ∀ n, runFor step ev s (n + 1) = runFor step ev s n ∨
      measure (runFor step ev s (n + 1)) < measure (runFor step ev s n)) {n m : ℕ} (hle : n ≤ m) :
    runFor step ev s m = runFor step ev s n ∨
      measure (runFor step ev s m) < measure (runFor step ev s n) := by
  induction m, hle using Nat.le_induction with
  | base => exact Or.inl rfl
  | succ m _ ih =>
    rcases hstep m with heq | hlt
    · rw [heq]
      exact ih
    · right
      rcases ih with heq | hlt'
      · rwa [← heq]
      · exact hlt.trans hlt'

theorem fair_reaches {isOf : Kind → Event → Prop} {Inv Done : State → Prop} (measure : State → ℕ)
    (hfair : Fair isOf ev) (hinv : ∀ n, Inv (runFor step ev s n))
    (hstep : ∀ n, runFor step ev s (n + 1) = runFor step ev s n ∨
      measure (runFor step ev s (n + 1)) < measure (runFor step ev s n))
    (hprogress : ∀ s, Inv s → ¬ Done s → ∃ k, ∀ e, isOf k e → step s e ≠ s) :
    ∃ n, Done (runFor step ev s n) := by
  by_contra hnever
  rw [not_exists] at hnever
  -- the measure at a moment cannot be any number, since it is lower at a later one
  have hfalse : ∀ bound n, measure (runFor step ev s n) = bound → False := by
    intro bound
    induction bound using Nat.strong_induction_on with
    | _ bound ih =>
      intro n hn
      obtain ⟨k, hk⟩ := hprogress _ (hinv n) (hnever n)
      obtain ⟨m, hm, hof⟩ := hfair k n
      have hlower : measure (runFor step ev s (m + 1)) < measure (runFor step ev s n) := by
        rcases unchanged_or_lower hstep hm with heq | hlt
        · have hmoved : runFor step ev s (m + 1) ≠ runFor step ev s m := by
            rw [runFor, heq]
            exact hk _ hof
          rw [← heq]
          exact (hstep m).resolve_left hmoved
        · rcases hstep m with heq | hlt'
          · rwa [heq]
          · exact hlt'.trans hlt
      exact ih _ (hn ▸ hlower) (m + 1) rfl
  exact hfalse _ 0 rfl

end Fair

end Chronos.Foundation
