import Mathlib

/-! # Programs over an interface of calls

A program ends with a value, crashes, calls its environment and goes on with the
answer, or repeats a body until it yields a result. An environment answers a call,
or leaves it waiting. The weakest precondition is for total correctness.
-/
namespace Chronos.Foundation

inductive Program (C : Type) (R : C → Type) : Type → Type 1
  | ret {α} (a : α) : Program C R α
  | crash {α} : Program C R α
  | call {α} (c : C) (k : R c → Program C R α) : Program C R α
  | iter {σ β α : Type} (body : σ → Program C R (σ ⊕ β)) (init : σ) (k : β → Program C R α) :
  Program C R α

namespace Program
variable {C : Type} {R : C → Type} {W : Type} {α β γ σ : Type}

def bind : {α β : Type} → Program C R α → (α → Program C R β) → Program C R β
  | _, _, .ret a, f => f a
  | _, _, .crash, _ => .crash
  | _, _, .call c k, f => .call c fun r => (k r).bind f
  | _, _, .iter body init k, f => .iter body init fun b => (k b).bind f

instance : Monad (Program C R) where
  pure := .ret
  bind := .bind

theorem bind_eq (p : Program C R α) (f : α → Program C R β) : p >>= f = p.bind f := rfl

theorem bind_assoc (p : Program C R α) (f : α → Program C R β) (g : β → Program C R γ) :
    (p.bind f).bind g = p.bind fun a => (f a).bind g := by
  induction p with
  | ret a => rfl
  | crash => rfl
  | call c k ih => exact congrArg (Program.call c) (funext fun r => ih r f)
  | iter body init k _ ih => exact congrArg (Program.iter body init) (funext fun b => ih b f)

def perform (c : C) : Program C R (R c) := .call c .ret

/-- `while (1)` over a loop state; the body yields the next state or the result. -/
def loop (body : σ → Program C R (σ ⊕ β)) (init : σ) : Program C R β := .iter body init .ret

/-- A body that goes on or stops, followed by what comes after the loop. -/
def onward (body : σ → Program C R (σ ⊕ β)) (k : β → Program C R α) : σ ⊕ β → Program C R α
  | .inl s => .iter body s k
  | .inr b => k b

inductive Outcome (α : Type) where
  | value (a : α)
  | crashed

/-- The program runs to an outcome and leaves the environment in a state. -/
inductive Exec (h : (c : C) → W → Option (R c × W)) :
    {α : Type} → Program C R α → W → Outcome α → W → Prop
  | ret {α : Type} {a : α} {w : W} : Exec h (.ret a) w (.value a) w
  | crash {α : Type} {w : W} : Exec h (.crash : Program C R α) w .crashed w
  | call {α : Type} {c : C} {k : R c → Program C R α} {w w' w'' : W} {r : R c} {o : Outcome α} :
      h c w = some (r, w') → Exec h (k r) w' o w'' → Exec h (.call c k) w o w''
  | iter {σ β α : Type} {body : σ → Program C R (σ ⊕ β)} {s : σ} {k : β → Program C R α}
      {w w' w'' : W} {x : σ ⊕ β} {o : Outcome α} :
      Exec h (body s) w (.value x) w' → Exec h (onward body k x) w' o w'' →
        Exec h (.iter body s k) w o w''
  | iterCrash {σ β α : Type} {body : σ → Program C R (σ ⊕ β)} {s : σ} {k : β → Program C R α}
      {w w' : W} :
      Exec h (body s) w .crashed w' → Exec h (.iter body s k) w .crashed w'

section Exec
variable {h : (c : C) → W → Option (R c × W)} {w w' w'' : W}

/-- A program has at most one outcome. -/
theorem Exec.deterministic {p : Program C R α} {o o' : Outcome α} (he : Exec h p w o w')
    (he' : Exec h p w o' w'') : o = o' ∧ w' = w'' := by
  induction he generalizing w'' with
  | ret => cases he'; exact ⟨rfl, rfl⟩
  | crash => cases he'; exact ⟨rfl, rfl⟩
  | call hc _ ih =>
    cases he' with
    | call hc' hk' =>
      rw [hc] at hc'
      cases hc'
      exact ih hk'
  | iter _ _ ih ihk =>
    cases he' with
    | iter hb' hk' =>
      obtain ⟨hx, rfl⟩ := ih hb'
      cases hx
      exact ihk hk'
    | iterCrash hb' => cases (ih hb').1
  | iterCrash _ ih =>
    cases he' with
    | iter hb' _ => cases (ih hb').1
    | iterCrash hb' => exact ⟨rfl, (ih hb').2⟩

theorem Exec.invariant {J : W → Prop} (hJ : ∀ c w r w', J w → h c w = some (r, w') → J w')
    {p : Program C R α} {o : Outcome α} (he : Exec h p w o w') (hw : J w) : J w' := by
  induction he with
  | ret => exact hw
  | crash => exact hw
  | call hc _ ih => exact ih (hJ _ _ _ _ hw hc)
  | iter _ _ ih ihk => exact ihk (ih hw)
  | iterCrash _ ih => exact ih hw

theorem Exec.bind {p : Program C R α} {f : α → Program C R β} {a : α} {o : Outcome β}
    (hp : Exec h p w (.value a) w') (hf : Exec h (f a) w' o w'') : Exec h (p.bind f) w o w'' := by
  generalize hv : Outcome.value a = v at hp
  induction hp with
  | ret => cases hv; exact hf
  | crash => cases hv
  | call hc _ ih => exact .call hc (ih hf hv)
  | iterCrash => cases hv
  | @iter σ β' _ body s k w₁ w₂ w₃ x _ hb _ _ ihk =>
    refine .iter hb ?_
    have hnext := ihk hf hv
    cases x <;> exact hnext

theorem Exec.bindCrash {p : Program C R α} {f : α → Program C R β} (hp : Exec h p w .crashed w') :
    Exec h (p.bind f) w .crashed w' := by
  generalize hv : (Outcome.crashed : Outcome α) = v at hp
  induction hp with
  | ret => cases hv
  | crash => exact .crash
  | call hc _ ih => exact .call hc (ih hv)
  | iterCrash hb _ => exact .iterCrash hb
  | @iter σ β' _ body s k w₁ w₂ w₃ x _ hb _ _ ihk =>
    refine .iter hb ?_
    have hnext := ihk (f := f) hv
    cases x <;> exact hnext

/-- The run itself, if it is done after so many calls and rounds. -/
def run (h : (c : C) → W → Option (R c × W)) :
    ℕ → {α : Type} → Program C R α → W → Option (Outcome α × W)
  | 0, _, _, _ => none
  | _ + 1, _, .ret a, w => some (.value a, w)
  | _ + 1, _, .crash, w => some (.crashed, w)
  | n + 1, _, .call c k, w =>
    match h c w with
    | some (r, w') => run h n (k r) w'
    | none => none
  | n + 1, _, .iter body s k, w =>
    match run h n (body s) w with
    | some (.value x, w') => run h n (onward body k x) w'
    | some (.crashed, w') => some (.crashed, w')
    | none => none

theorem Exec.of_run {n : ℕ} {p : Program C R α} {o : Outcome α}
    (hrun : run h n p w = some (o, w')) : Exec h p w o w' := by
  induction n generalizing α p o w w' with
  | zero => cases hrun
  | succ n ih =>
    cases p with
    | ret a => cases hrun; exact .ret
    | crash => cases hrun; exact .crash
    | call c k =>
      simp only [run] at hrun
      split at hrun
      · rename_i hc
        exact .call hc (ih hrun)
      · cases hrun
    | iter body s k =>
      simp only [run] at hrun
      split at hrun
      · rename_i hbody
        exact .iter (ih hbody) (ih hrun)
      · rename_i hbody
        cases hrun
        exact .iterCrash (ih hbody)
      · cases hrun

end Exec

/-! ## Weakest preconditions -/

/-- The program ends, with an outcome and a state that satisfy `Q`. -/
def wp (h : (c : C) → W → Option (R c × W)) (p : Program C R α) (w : W)
    (Q : Outcome α → W → Prop) : Prop :=
  ∃ o w', Exec h p w o w' ∧ Q o w'

section Wp
variable {h : (c : C) → W → Option (R c × W)} {w : W} {Q Q' : Outcome α → W → Prop}

/-- A program followed by another: a crash skips the second. -/
def after (h : (c : C) → W → Option (R c × W)) (f : α → Program C R β) (Q : Outcome β → W → Prop) :
    Outcome α → W → Prop
  | .value a, w => wp h (f a) w Q
  | .crashed, w => Q .crashed w

theorem wp_mono {p : Program C R α} (hp : wp h p w Q) (hQ : ∀ o w', Q o w' → Q' o w') :
    wp h p w Q' := by
  obtain ⟨o, w', he, hq⟩ := hp
  exact ⟨o, w', he, hQ o w' hq⟩

theorem wp_and {p : Program C R α} (hp : wp h p w Q) (hp' : wp h p w Q') :
    wp h p w fun o w' => Q o w' ∧ Q' o w' := by
  obtain ⟨o, w', he, hq⟩ := hp
  obtain ⟨o', w'', he', hq'⟩ := hp'
  obtain ⟨rfl, rfl⟩ := he.deterministic he'
  exact ⟨o, w', he, hq, hq'⟩

@[simp] theorem wp_ret {a : α} : wp h (.ret a : Program C R α) w Q ↔ Q (.value a) w := by
  constructor
  · rintro ⟨o, w', he, hq⟩
    cases he
    exact hq
  · exact fun hq => ⟨_, _, .ret, hq⟩

@[simp] theorem wp_pure {a : α} : wp h (pure a : Program C R α) w Q ↔ Q (.value a) w := wp_ret

@[simp] theorem wp_crash : wp h (.crash : Program C R α) w Q ↔ Q .crashed w := by
  constructor
  · rintro ⟨o, w', he, hq⟩
    cases he
    exact hq
  · exact fun hq => ⟨_, _, .crash, hq⟩

theorem wp_call {c : C} {k : R c → Program C R α} :
    wp h (.call c k) w Q ↔ ∃ r w', h c w = some (r, w') ∧ wp h (k r) w' Q := by
  constructor
  · rintro ⟨o, w'', he, hq⟩
    cases he with
    | call hc hk => exact ⟨_, _, hc, _, _, hk, hq⟩
  · rintro ⟨r, w', hc, o, w'', hk, hq⟩
    exact ⟨o, w'', .call hc hk, hq⟩

theorem wp_perform {c : C} {Q : Outcome (R c) → W → Prop} :
    wp h (perform c) w Q ↔ ∃ r w', h c w = some (r, w') ∧ Q (.value r) w' := by
  simp only [perform, wp_call, wp_ret]

theorem wp_iter {body : σ → Program C R (σ ⊕ β)} {s : σ} {k : β → Program C R α} :
    wp h (.iter body s k) w Q ↔ wp h (body s) w (after h (onward body k) Q) := by
  constructor
  · rintro ⟨o, w'', he, hq⟩
    cases he with
    | iter hb hk => exact ⟨_, _, hb, _, _, hk, hq⟩
    | iterCrash hb => exact ⟨_, _, hb, hq⟩
  · rintro ⟨o, w', hb, hq⟩
    cases o with
    | value x =>
      obtain ⟨o, w'', hk, hq⟩ := hq
      exact ⟨o, w'', .iter hb hk, hq⟩
    | crashed => exact ⟨_, _, .iterCrash hb, hq⟩

theorem wp_bind {p : Program C R α} {f : α → Program C R β} {Q : Outcome β → W → Prop} :
    wp h (p.bind f) w Q ↔ wp h p w (after h f Q) := by
  constructor
  · induction p generalizing w with
    | ret a => exact fun hc => wp_ret.mpr hc
    | crash =>
      intro hc
      have hq : Q .crashed w := wp_crash.mp hc
      exact wp_crash.mpr hq
    | call c k ih =>
      intro hc
      obtain ⟨r, w', hr, hk⟩ := wp_call.mp hc
      exact wp_call.mpr ⟨r, w', hr, ih r hk⟩
    | @iter σ β' _ body init k ihb ih =>
      clear ihb
      rintro ⟨o, w₂, he, hq⟩
      simp only [bind] at he
      generalize hp : Program.iter body init (fun b => (k b).bind f) = p at he
      induction he generalizing init with
      | ret => cases hp
      | crash => cases hp
      | call => cases hp
      | @iter _ _ _ _ _ _ w₃ w₄ _ x _ hb hk _ ihk =>
        cases hp
        refine wp_iter.mpr ⟨_, _, hb, ?_⟩
        cases x with
        | inl s => exact ihk s ih hq rfl
        | inr b => exact ih b ⟨_, _, hk, hq⟩
      | iterCrash hb =>
        cases hp
        exact wp_iter.mpr ⟨_, _, hb, hq⟩
  · rintro ⟨o, w', hp, hq⟩
    cases o with
    | value a =>
      obtain ⟨o, w'', hf, hq⟩ := hq
      exact ⟨o, w'', hp.bind hf, hq⟩
    | crashed => exact ⟨_, _, hp.bindCrash, hq⟩

/-- How a run of a sequence splits. -/
theorem Exec.bind_cases {p : Program C R α} {f : α → Program C R β} {o : Outcome β} {w'' : W}
    (he : Exec h (p >>= f) w o w'') :
    (∃ a w', Exec h p w (.value a) w' ∧ Exec h (f a) w' o w'') ∨ o = .crashed ∧
      Exec h p w .crashed w'' := by
  have hwp : wp h (p >>= f) w fun o' w' => o' = o ∧ w' = w'' := ⟨_, _, he, rfl, rfl⟩
  obtain ⟨x, w', hp, hx⟩ := wp_bind.mp hwp
  cases x with
  | value a =>
    obtain ⟨o', w₂, hf, rfl, rfl⟩ := hx
    exact .inl ⟨a, w', hp, hf⟩
  | crashed =>
    obtain ⟨rfl, rfl⟩ := hx
    exact .inr ⟨rfl, hp⟩

theorem Exec.bind_value {p : Program C R α} {f : α → Program C R β} {b : β} {w'' : W}
    (he : Exec h (p >>= f) w (.value b) w'') :
    ∃ a w', Exec h p w (.value a) w' ∧ Exec h (f a) w' (.value b) w'' := by
  rcases he.bind_cases with hparts | ⟨hcrash, -⟩
  · exact hparts
  · cases hcrash

theorem Exec.perform_cases {c : C} {o : Outcome (R c)} {w' : W} (he : Exec h (perform c) w o w') :
    ∃ r, h c w = some (r, w') ∧ o = .value r := by
  cases he with
  | call hc hk =>
    cases hk
    exact ⟨_, hc, rfl⟩

theorem Exec.pure_cases {a : α} {o : Outcome α} {w' : W}
    (he : Exec h (pure a : Program C R α) w o w') : o = .value a ∧ w' = w := by
  cases he
  exact ⟨rfl, rfl⟩

theorem wp_bind' {p : Program C R α} {f : α → Program C R β} {Q : Outcome β → W → Prop} :
    wp h (p >>= f) w Q ↔ wp h p w (after h f Q) := wp_bind

/-- The rule of the loop: an invariant, and a measure that every round lowers. -/
theorem wp_loop {body : σ → Program C R (σ ⊕ β)} {Q : Outcome β → W → Prop} (I : σ → W → Prop)
    (measure : σ → W → ℕ) (hbody : ∀ s w, I s w → wp h (body s) w fun o w' => match o with
      | .value (.inl s') => I s' w' ∧ measure s' w' < measure s w
      | .value (.inr b) => Q (.value b) w'
      | .crashed => Q .crashed w')
    {s : σ} (hs : I s w) : wp h (loop body s) w Q := by
  induction hn : measure s w using Nat.strong_induction_on generalizing s w with
  | _ n ih =>
    refine wp_iter.mpr (wp_mono (hbody s w hs) ?_)
    rintro (x | _) w' hw
    · cases x with
      | inl s' => exact ih _ (hn ▸ hw.2) hw.1 rfl
      | inr b => exact wp_ret.mpr hw
    · exact hw

end Wp

end Program

end Chronos.Foundation
