import Chronos.Foundation.Outline

/-! # Programs that need not return

A run that does not return still comes through states. A program serves a purpose if
its runs that return are right and if it returns unless it comes through a bad state.
-/
namespace Chronos.Foundation
namespace Program
variable {C : Type} {R : C → Type} {W : Type} {α β γ σ δ : Type}

/-- The run of the program comes through a state. -/
inductive Reaches (h : (c : C) → W → Option (R c × W)) : {α : Type} → Program C R α → W → W → Prop
  | here {α : Type} {p : Program C R α} {w : W} : Reaches h p w w
  | call {α : Type} {c : C} {k : R c → Program C R α} {w w' w'' : W} {r : R c} :
      h c w = some (r, w') → Reaches h (k r) w' w'' → Reaches h (.call c k) w w''
  | within {σ β α : Type} {body : σ → Program C R (σ ⊕ β)} {s : σ} {k : β → Program C R α}
      {w w' : W} :
      Reaches h (body s) w w' → Reaches h (.iter body s k) w w'
  | onward {σ β α : Type} {body : σ → Program C R (σ ⊕ β)} {s : σ} {k : β → Program C R α}
      {w w' w'' : W} {x : σ ⊕ β} :
      Exec h (body s) w (.value x) w' → Reaches h (onward body k x) w' w'' →
        Reaches h (.iter body s k) w w''

section Reaches
variable {h : (c : C) → W → Option (R c × W)} {w w' w'' : W}

theorem Exec.reaches {p : Program C R α} {o : Outcome α} (he : Exec h p w o w') :
    Reaches h p w w' := by
  induction he with
  | ret => exact .here
  | crash => exact .here
  | call hc _ ih => exact .call hc ih
  | iter hb _ _ ih => exact .onward hb ih
  | iterCrash _ ih => exact .within ih

theorem Reaches.bind_left {p : Program C R α} {f : α → Program C R β} (hp : Reaches h p w w') :
    Reaches h (p.bind f) w w' := by
  induction hp with
  | here => exact .here
  | call hc _ ih => exact .call hc ih
  | within hb _ => exact .within hb
  | @onward σ β' _ body s k w₁ w₂ w₃ x hb _ ih =>
    refine .onward hb ?_
    have hnext := ih (f := f)
    cases x <;> exact hnext

theorem Reaches.bind_right {p : Program C R α} {f : α → Program C R β} {a : α}
    (hp : Exec h p w (.value a) w') (hf : Reaches h (f a) w' w'') : Reaches h (p.bind f) w w'' := by
  generalize hv : Outcome.value a = v at hp
  induction hp with
  | ret => cases hv; exact hf
  | crash => cases hv
  | call hc _ ih => exact .call hc (ih hf hv)
  | iterCrash => cases hv
  | @iter σ β' _ body s k w₁ w₂ w₃ x _ hb _ _ ihk =>
    refine .onward hb ?_
    have hnext := ihk hf hv
    cases x <;> exact hnext

section Order
variable {ρ : W → W → Prop} [IsPreorder W ρ] (hmono : ∀ c w r w', h c w = some (r, w') → ρ w w')
include hmono

theorem Exec.le {p : Program C R α} {o : Outcome α} (he : Exec h p w o w') : ρ w w' :=
  he.invariant (J := fun v => ρ w v) (fun c v r v' hv hc => trans_of ρ hv (hmono c v r v' hc))
    (refl_of ρ w)

theorem Reaches.le {p : Program C R α} {o : Outcome α} (hr : Reaches h p w w'')
    (he : Exec h p w o w') : ρ w'' w' := by
  induction hr generalizing w' with
  | here => exact he.le hmono
  | call hc _ ih =>
    cases he with
    | call hc' hk =>
      rw [hc] at hc'
      cases hc'
      exact ih hk
  | within _ ih =>
    cases he with
    | iter hb hk => exact trans_of ρ (ih hb) (hk.le hmono)
    | iterCrash hb => exact ih hb
  | onward hb _ ih =>
    cases he with
    | iter hb' hk =>
      obtain ⟨hx, rfl⟩ := hb.deterministic hb'
      cases hx
      exact ih hk
    | iterCrash hb' => cases (hb.deterministic hb').1

end Order

end Reaches

/-- The runs of a program never come through a bad state. -/
def Safe (h : (c : C) → W → Option (R c × W)) (bad : W → Prop) (p : Program C R α) (w : W) : Prop :=
  ∀ w', Reaches h p w w' → ¬ bad w'

/-- The runs that return are right, and a run returns unless it comes through a bad state. -/
structure Serves (h : (c : C) → W → Option (R c × W)) (bad : W → Prop) (p : Program C R α) (w : W)
    (V : α → W → Prop) (X : W → Prop) : Prop where
  sound : ∀ o w', Exec h p w o w' → ending V X o w'
  returns : Safe h bad p w → ∃ o w', Exec h p w o w'

section Serves
variable {h : (c : C) → W → Option (R c × W)} {bad : W → Prop} {w w' : W}
variable {V V' : α → W → Prop} {U : β → W → Prop} {X X' : W → Prop}

theorem Serves.pure {a : α} (hV : V a w) : Serves h bad (Pure.pure a : Program C R α) w V X where
  sound o w' he := by
    cases he
    exact hV
  returns _ := ⟨_, _, .ret⟩

theorem Serves.crash (hX : X w) : Serves h bad (.crash : Program C R α) w V X where
  sound o w' he := by
    cases he
    exact hX
  returns _ := ⟨_, _, .crash⟩

theorem Serves.mono {p : Program C R α} (hp : Serves h bad p w V X) (hV : ∀ a w', V a w' → V' a w')
    (hX : ∀ w', X w' → X' w') : Serves h bad p w V' X' where
  sound o w' he := by
    have hend := hp.sound o w' he
    cases o with
    | value a => exact hV a w' hend
    | crashed => exact hX w' hend
  returns := hp.returns

/-- A call, and what follows on its answer. -/
theorem Serves.call {c : C} {r : R c} {f : R c → Program C R α} (hc : h c w = some (r, w'))
    (hf : Serves h bad (f r) w' V X) : Serves h bad (perform c >>= f) w V X where
  sound o w'' he := by
    cases he with
    | call hc' hk =>
      rw [hc] at hc'
      cases hc'
      exact hf.sound o w'' hk
  returns hsafe := by
    obtain ⟨o, w'', he⟩ := hf.returns fun v hv => hsafe v (.call hc hv)
    exact ⟨o, w'', .call hc he⟩

theorem Serves.bind {p : Program C R β} {f : β → Program C R α} (hp : Serves h bad p w U X)
    (hf : ∀ b w', U b w' → Serves h bad (f b) w' V X) : Serves h bad (p >>= f) w V X where
  sound o w'' he := by
    rcases he.bind_cases with ⟨b, w', hb, hk⟩ | ⟨rfl, hb⟩
    · exact (hf b w' (hp.sound _ _ hb)).sound o w'' hk
    · exact hp.sound _ _ hb
  returns hsafe := by
    obtain ⟨o, w', hb⟩ := hp.returns fun v hv => hsafe v hv.bind_left
    cases o with
    | value b =>
      obtain ⟨o', w'', hk⟩ := (hf b w' (hp.sound _ _ hb)).returns
        fun v hv => hsafe v (hv.bind_right hb)
      exact ⟨o', w'', hb.bind hk⟩
    | crashed => exact ⟨.crashed, w', hb.bindCrash⟩

/-- A loop with an invariant. Where nothing bad comes, each round that goes on lowers a measure. -/
theorem Serves.loop [Preorder δ] [WellFoundedLT δ] {body : σ → Program C R (σ ⊕ α)}
    (I : σ → W → Prop) (measure : σ → W → δ)
    (hbody : ∀ s w,
      I s w → Serves h bad (body s) w (fun x w' => x.elim (fun s' => I s' w') fun b => V b w') X)
    (hdec : ∀ s w s' w', I s w → Safe h bad (Program.loop body s) w →
      Exec h (body s) w (.value (.inl s')) w' →
      measure s' w' < measure s w)
    {s : σ} (hs : I s w) : Serves h bad (Program.loop body s) w V X where
  sound o w' he := by
    generalize hp : Program.loop body s = p at he
    induction he generalizing s with
    | ret => cases hp
    | crash => cases hp
    | call => cases hp
    | @iter _ _ _ _ _ _ w₁ w₂ w₃ x _ hb hk _ ihk =>
      cases hp
      have hround := (hbody s w₁ hs).sound _ _ hb
      cases x with
      | inl s' => exact ihk hbody hdec hround rfl
      | inr b =>
        cases hk
        exact hround
    | iterCrash hb =>
      cases hp
      exact (hbody s _ hs).sound _ _ hb
  returns hsafe := by
    induction hn : measure s w using WellFoundedLT.induction generalizing s w with
    | _ n ih =>
      obtain ⟨o, w', hb⟩ := (hbody s w hs).returns fun v hv => hsafe v (.within hv)
      cases o with
      | crashed => exact ⟨.crashed, w', .iterCrash hb⟩
      | value x =>
        have hround := (hbody s w hs).sound _ _ hb
        cases x with
        | inr b => exact ⟨.value b, w', .iter hb .ret⟩
        | inl s' =>
          have hlt := hdec s w s' w' hs hsafe hb
          obtain ⟨o, w'', hk⟩ := ih _ (hn ▸ hlt) hround (fun v hv => hsafe v (.onward hb hv)) rfl
          exact ⟨o, w'', .iter hb hk⟩

end Serves

end Program

end Chronos.Foundation
