import Chronos.Foundation.Program

/-! # Proof outlines

An outline puts an assertion on every point of a program. The steps of others keep
each assertion, and each call of the program is one that the others rely on. Programs
with outlines run side by side keep them.
-/
namespace Chronos.Foundation
namespace Program
variable {C : Type} {R : C → Type} {V W : Type} {α β γ σ ι Φ : Type}

/-- What others may do, what a call may do, and what the program promises of its calls. -/
structure Setting (C : Type) (R : C → Type) (W : Type) where
  rely : W → W → Prop
  act : (c : C) → W → R c → W → Prop
  guar : (c : C) → W → R c → W → Prop

def Setting.Stable (E : Setting C R W) (P : W → Prop) : Prop := ∀ w w', P w → E.rely w w' → P w'

/-- After a round of a loop: the invariant if it goes on. -/
def between (I : σ → W → Prop) (Q : Outcome β → W → Prop) : Outcome (σ ⊕ β) → W → Prop
  | .value (.inl s) => I s
  | .value (.inr b) => Q (.value b)
  | .crashed => Q .crashed

def ending (V : α → W → Prop) (X : W → Prop) : Outcome α → W → Prop
  | .value a => V a
  | .crashed => X

def Outline (E : Setting C R W) : {α : Type} → Program C R α → (W → Prop) →
    (Outcome α → W → Prop) → Prop
  | _, .ret a, P, Q => ∀ w, P w → Q (.value a) w
  | _, .crash, P, Q => ∀ w, P w → Q .crashed w
  | _, .call c k, P, Q => ∃ P' : R c → W → Prop, (∀ r, E.Stable (P' r)) ∧
      (∀ w r w', P w → E.act c w r w' → E.guar c w r w' ∧ P' r w') ∧ ∀ r, Outline E (k r) (P' r) Q
  | _, @Program.iter _ _ σ β _ body s k, P, Q => ∃ (I : σ → W → Prop) (J : Outcome β → W → Prop),
      (∀ s, E.Stable (I s)) ∧ (∀ w, P w → I s w) ∧ (∀ s, Outline E (body s) (I s) (between I J)) ∧
      (∀ b, Outline E (k b) (J (.value b)) Q) ∧ ∀ w, J .crashed w → Q .crashed w

section Rules
variable {E : Setting C R W} {P P' : W → Prop} {Q Q' : Outcome α → W → Prop}

theorem Outline.mono {p : Program C R α} (hp : Outline E p P Q) (hP : ∀ w, P' w → P w)
    (hQ : ∀ o w, Q o w → Q' o w) : Outline E p P' Q' := by
  induction p generalizing P P' with
  | ret a => exact fun w hw => hQ _ _ (hp w (hP w hw))
  | crash => exact fun w hw => hQ _ _ (hp w (hP w hw))
  | call c k ih =>
    obtain ⟨M, hstable, hact, hk⟩ := hp
    exact ⟨M, hstable, fun w r w' hw => hact w r w' (hP w hw),
      fun r => ih r (hk r) (fun _ h => h) hQ⟩
  | iter body s k _ ih =>
    obtain ⟨I, J, hI, hinit, hbody, hk, hc⟩ := hp
    exact ⟨I, J, hI, fun w hw => hinit w (hP w hw), hbody, fun b => ih b (hk b) (fun _ h => h) hQ,
      fun w hw => hQ _ _ (hc w hw)⟩

theorem Outline.pre {p : Program C R α} (hp : Outline E p P Q) (hP : ∀ w, P' w → P w) :
    Outline E p P' Q :=
  hp.mono hP fun _ _ h => h

theorem Outline.post {p : Program C R α} (hp : Outline E p P Q) (hQ : ∀ o w, Q o w → Q' o w) :
    Outline E p P Q' :=
  hp.mono (fun _ h => h) hQ

theorem Outline.absurd {p : Program C R α} (h : ∀ w, ¬ P w) : Outline E p P Q := by
  induction p generalizing P with
  | ret a => exact fun w hw => (h w hw).elim
  | crash => exact fun w hw => (h w hw).elim
  | call c k ih =>
    exact ⟨fun _ _ => False, fun _ _ _ hw _ => hw, fun w _ _ hw => (h w hw).elim,
      fun r => ih r fun _ => id⟩
  | iter body s k ihb ih =>
    exact ⟨fun _ _ => False, fun _ _ => False, fun _ _ _ hw _ => hw, h, fun s => ihb s fun _ => id,
      fun b => ih b fun _ => id, fun _ hw => hw.elim⟩

theorem Outline.exists {p : Program C R α} {P : ι → W → Prop} (h : ∀ x, Outline E p (P x) Q) :
    Outline E p (fun w => ∃ x, P x w) Q := by
  induction p generalizing ι with
  | ret a => exact fun w ⟨x, hw⟩ => h x w hw
  | crash => exact fun w ⟨x, hw⟩ => h x w hw
  | call c k ih =>
    choose M hM hact hk using h
    refine ⟨fun r w => ∃ x, M x r w, ?_, ?_, fun r => ih r fun x => hk x r⟩
    · rintro r w w' ⟨x, hx⟩ hrely
      exact ⟨x, hM x r w w' hx hrely⟩
    · rintro w r w' ⟨x, hx⟩ hwact
      obtain ⟨hguar, hpost⟩ := hact x w r w' hx hwact
      exact ⟨hguar, x, hpost⟩
  | iter body s k ihb ih =>
    choose I J hI hinit hbody hk hc using h
    refine ⟨fun s w => ∃ x, I x s w, fun o w => ∃ x, J x o w, ?_, ?_, fun s => ?_,
      fun b => ih b fun x => hk x b, ?_⟩
    · rintro s w w' ⟨x, hx⟩ hrely
      exact ⟨x, hI x s w w' hx hrely⟩
    · rintro w ⟨x, hx⟩
      exact ⟨x, hinit x w hx⟩
    · refine ihb s fun x => (hbody x s).post ?_
      rintro ((s' | b) | _) w hw <;> exact ⟨x, hw⟩
    · rintro w ⟨x, hx⟩
      exact hc x w hx

theorem Outline.or {p : Program C R α} (h : Outline E p P Q) (h' : Outline E p P' Q) :
    Outline E p (fun w => P w ∨ P' w) Q := by
  have hboth : Outline E p (fun w => ∃ b : Bool, if b then P w else P' w) Q := by
    refine Outline.exists fun b => ?_
    cases b with
    | true => exact h.pre fun w hw => by simpa using hw
    | false => exact h'.pre fun w hw => by simpa using hw
  refine hboth.pre fun w hw => ?_
  rcases hw with hw | hw
  · exact ⟨true, by simpa using hw⟩
  · exact ⟨false, by simpa using hw⟩

/-- A fact that does not depend on the state. -/
theorem Outline.assume {p : Program C R α} {φ : Prop} (h : φ → Outline E p P Q) :
    Outline E p (fun w => φ ∧ P w) Q := by
  by_cases hφ : φ
  · exact (h hφ).pre fun _ hw => hw.2
  · exact Outline.absurd fun _ hw => hφ hw.1

theorem Outline.pure {a : α} (h : ∀ w, P w → Q (.value a) w) : Outline E (Pure.pure a) P Q := h

theorem Outline.crashed (h : ∀ w, P w → Q .crashed w) : Outline E (.crash : Program C R α) P Q := h

theorem Outline.bind {p : Program C R α} {f : α → Program C R β} {Q' : Outcome β → W → Prop}
    (hp : Outline E p P Q) (hf : ∀ a, Outline E (f a) (Q (.value a)) Q')
    (hc : ∀ w, Q .crashed w → Q' .crashed w) : Outline E (p >>= f) P Q' := by
  rw [bind_eq]
  induction p generalizing P with
  | ret a => exact (hf a).pre hp
  | crash => exact fun w hw => hc w (hp w hw)
  | call c k ih =>
    obtain ⟨M, hstable, hact, hk⟩ := hp
    exact ⟨M, hstable, hact, fun r => ih r (hk r) hf hc⟩
  | iter body s k _ ih =>
    obtain ⟨I, J, hI, hinit, hbody, hk, hcrash⟩ := hp
    exact ⟨I, J, hI, hinit, hbody, fun b => ih b (hk b) hf hc, fun w hw => hc w (hcrash w hw)⟩

theorem Outline.perform {c : C} {Q : Outcome (R c) → W → Prop}
    (hstable : ∀ r, E.Stable (Q (.value r)))
    (hact : ∀ w r w', P w → E.act c w r w' → E.guar c w r w' ∧ Q (.value r) w') :
    Outline E (perform c) P Q :=
  ⟨fun r => Q (.value r), hstable, hact, fun _ _ h => h⟩

theorem Outline.loop {body : σ → Program C R (σ ⊕ β)} {Q : Outcome β → W → Prop} (I : σ → W → Prop)
    (hI : ∀ s, E.Stable (I s)) (hbody : ∀ s, Outline E (body s) (I s) (between I Q)) (s : σ) :
    Outline E (loop body s) (I s) Q :=
  ⟨I, Q, hI, fun _ h => h, hbody, fun _ _ h => h, fun _ h => h⟩

/-- An outline of a loop that is under way is one of its next round. -/
theorem Outline.unroll {body : σ → Program C R (σ ⊕ β)} {k : β → Program C R α} {s : σ}
    (h : Outline E (.iter body s k) P Q) : Outline E ((body s).bind (onward body k)) P Q := by
  obtain ⟨I, J, hI, hinit, hbody, hk, hc⟩ := h
  refine (Outline.bind (hbody s) ?_ hc).pre hinit
  rintro (s' | b)
  · exact ⟨I, J, hI, fun _ h => h, hbody, hk, hc⟩
  · exact hk b

/-- What an outline says of a run that nothing disturbs. `J` is kept by every call. -/
theorem Outline.exec {h : (c : C) → V → Option (R c × V)} {π : V → W} {J : V → Prop}
    (hact : ∀ c v r v', h c v = some (r, v') → E.act c (π v) r (π v'))
    (hJ : ∀ c v r v', J v → h c v = some (r, v') → E.guar c (π v) r (π v') → J v')
    {p : Program C R α} {v v' : V} {o : Outcome α} (he : Exec h p v o v') (hp : Outline E p P Q)
    (hP : P (π v)) (hv : J v) : Q o (π v') ∧ J v' := by
  induction he generalizing P with
  | ret => exact ⟨hp _ hP, hv⟩
  | crash => exact ⟨hp _ hP, hv⟩
  | call hc _ ih =>
    obtain ⟨M, -, hM, hk⟩ := hp
    obtain ⟨hg, hm⟩ := hM _ _ _ hP (hact _ _ _ _ hc)
    exact ih (hk _) hm (hJ _ _ _ _ hv hc hg)
  | @iter σ β' _ body s k v₁ v₂ v₃ x _ _ _ ih ihk =>
    obtain ⟨I, Q', hI, hinit, hbody, hk, hc⟩ := hp
    obtain ⟨hx, hv₂⟩ := ih (hbody _) (hinit _ hP) hv
    cases x with
    | inl s' => exact ihk (P := I s') ⟨I, Q', hI, fun _ h => h, hbody, hk, hc⟩ hx hv₂
    | inr b => exact ihk (hk b) hx hv₂
  | iterCrash _ ih =>
    obtain ⟨I, Q', hI, hinit, hbody, hk, hc⟩ := hp
    obtain ⟨hx, hv'⟩ := ih (hbody _) (hinit _ hP) hv
    exact ⟨hc _ hx, hv'⟩

end Rules

/-! ## Which calls a program makes -/

/-- The program makes only calls that satisfy `K`, and does not crash. -/
def Makes (K : C → Prop) : {α : Type} → Program C R α → Prop
  | _, .ret _ => True
  | _, .crash => False
  | _, .call c k => K c ∧ ∀ r, Makes K (k r)
  | _, .iter body _ k => (∀ s, Makes K (body s)) ∧ ∀ b, Makes K (k b)

section Makes
variable {K K' : C → Prop}

theorem Makes.pure (a : α) : Makes K (Pure.pure a : Program C R α) := trivial

theorem Makes.perform {c : C} (hc : K c) : Makes K (perform c : Program C R (R c)) :=
  ⟨hc, fun _ => trivial⟩

theorem Makes.loop {body : σ → Program C R (σ ⊕ β)} (hbody : ∀ s, Makes K (body s)) (s : σ) :
    Makes K (loop body s) :=
  ⟨hbody, fun _ => trivial⟩

theorem Makes.bind {p : Program C R α} {f : α → Program C R β} (hp : Makes K p)
    (hf : ∀ a, Makes K (f a)) : Makes K (p >>= f) := by
  rw [bind_eq]
  induction p with
  | ret a => exact hf a
  | crash => exact hp.elim
  | call c k ih => exact ⟨hp.1, fun r => ih r (hp.2 r) hf⟩
  | iter body s k _ ih => exact ⟨hp.1, fun b => ih b (hp.2 b) hf⟩

theorem Makes.mono {p : Program C R α} (hp : Makes K p) (hK : ∀ c, K c → K' c) : Makes K' p := by
  induction p with
  | ret a => trivial
  | crash => exact hp
  | call c k ih => exact ⟨hK c hp.1, fun r => ih r (hp.2 r)⟩
  | iter body s k ihb ih => exact ⟨fun s => ihb s (hp.1 s), fun b => ih b (hp.2 b)⟩

/-- What these calls keep, the program keeps, and it comes to a value. -/
theorem Makes.outline {E : Setting C R W} {P : W → Prop} (hstable : E.Stable P)
    (hcall : ∀ c, K c → ∀ w r w', P w → E.act c w r w' → E.guar c w r w' ∧ P w') {p : Program C R α}
    (hp : Makes K p) : Outline E p P fun o w => o ≠ .crashed ∧ P w := by
  induction p with
  | ret a => exact fun w hw => ⟨by simp, hw⟩
  | crash => exact hp.elim
  | call c k ih => exact ⟨fun _ => P, fun _ => hstable, hcall c hp.1, fun r => ih r (hp.2 r)⟩
  | iter body s k ihb ih =>
    refine ⟨fun _ => P, fun o w => o ≠ .crashed ∧ P w, fun _ => hstable, fun _ hw => hw,
      fun s => ?_, fun b => ?_, ?_⟩
    · refine (ihb s (hp.1 s)).post ?_
      rintro ((s' | b) | _) w hw
      · exact hw.2
      · exact ⟨by simp, hw.2⟩
      · exact absurd rfl hw.1
    · exact (ih b (hp.2 b)).pre fun _ hw => hw.2
    · exact fun _ hw => absurd rfl hw.1

end Makes

/-! ## Threads -/

def advance (h : (c : C) → V → Option (R c × V)) : Program C R α → V → Option (Program C R α × V)
  | .ret _, _ => none
  | .crash, _ => none
  | .call c k, v => (h c v).map fun a => (k a.1, a.2)
  | .iter body s k, v => some ((body s).bind (onward body k), v)

structure Pool (ι : Type) (C : Type) (R : C → Type) (α V : Type) where
  threads : ι → Program C R α
  world : V

/-- Thread `i` takes a step. -/
def Pool.turn [DecidableEq ι] (h : ι → (c : C) → V → Option (R c × V)) (i : ι)
    (pool : Pool ι C R α V) : Option (Pool ι C R α V) :=
  (advance (h i) (pool.threads i) pool.world).map fun a => ⟨Function.update pool.threads i a.1, a.2⟩

def Pool.turns [DecidableEq ι] (h : ι → (c : C) → V → Option (R c × V)) (schedule : List ι)
    (pool : Pool ι C R α V) :
    Option (Pool ι C R α V) := schedule.foldlM (fun pool i => pool.turn h i) pool

def Pool.Outlined (E : ι → Setting C R W) (Q : ι → Outcome α → W → Prop) (π : V → W)
    (pool : Pool ι C R α V) : Prop :=
  ∀ i, ∃ P, (E i).Stable P ∧ P (π pool.world) ∧ Outline (E i) (pool.threads i) P (Q i)

section Pool
variable [DecidableEq ι] {E : ι → Setting C R W} {Q : ι → Outcome α → W → Prop} {π : V → W}
variable {h : ι → (c : C) → V → Option (R c × V)}

theorem Pool.turns_snoc {schedule : List ι} {i : ι} {pool pool' : Pool ι C R α V}
    (hturns : pool.turns h (schedule ++ [i]) = some pool') :
    ∃ pool₁, pool.turns h schedule = some pool₁ ∧ pool₁.turn h i = some pool' := by
  rw [turns, List.foldlM_append] at hturns
  obtain ⟨pool₁, h₁, hturn⟩ := Option.bind_eq_some_iff.mp hturns
  exact ⟨pool₁, h₁, by simpa using hturn⟩

/-- A step of a thread is a call that it promised, or leaves the world as it is;
every thread keeps its outline. -/
theorem Pool.Outlined.turn {pool pool' : Pool ι C R α V} {i : ι} (hpool : pool.Outlined E Q π)
    (hact : ∀ c v r v', h i c v = some (r, v') → (E i).act c (π v) r (π v'))
    (hrely : ∀ j, j ≠ i → ∀ c w r w', (E i).act c w r w' → (E i).guar c w r w' → (E j).rely w w')
    (hturn : pool.turn h i = some pool') :
    pool'.Outlined E Q π ∧ (pool'.world = pool.world ∨
      ∃ c r, h i c pool.world = some (r, pool'.world) ∧
        (E i).guar c (π pool.world) r (π pool'.world)) := by
  obtain ⟨threads, v⟩ := pool
  obtain ⟨⟨p, v'⟩, hadv, rfl⟩ := Option.map_eq_some_iff.mp hturn
  obtain ⟨P, hP, hPv, hout⟩ := hpool i
  simp only at hadv hPv hout ⊢
  cases hi : threads i with
  | ret a => simp [hi, advance] at hadv
  | crash => simp [hi, advance] at hadv
  | call c k =>
    rw [hi] at hadv hout
    obtain ⟨⟨r, v''⟩, hc, heq⟩ := Option.map_eq_some_iff.mp hadv
    cases heq
    obtain ⟨M, hM, hstep, hk⟩ := hout
    obtain ⟨hg, hm⟩ := hstep _ _ _ hPv (hact _ _ _ _ hc)
    refine ⟨fun j => ?_, .inr ⟨c, r, hc, hg⟩⟩
    by_cases hj : j = i
    · subst hj
      exact ⟨M r, hM r, hm, by simpa using hk r⟩
    · obtain ⟨P', hP', hPv', hout'⟩ := hpool j
      refine ⟨P', hP', hP' _ _ hPv' (hrely j hj _ _ _ _ (hact _ _ _ _ hc) hg), ?_⟩
      simpa [Function.update_of_ne hj] using hout'
  | iter body s k =>
    rw [hi] at hadv hout
    cases hadv
    refine ⟨fun j => ?_, .inl rfl⟩
    by_cases hj : j = i
    · subst hj
      exact ⟨P, hP, hPv, by simpa using hout.unroll⟩
    · obtain ⟨P', hP', hPv', hout'⟩ := hpool j
      exact ⟨P', hP', hPv', by simpa [Function.update_of_ne hj] using hout'⟩

end Pool

end Program

end Chronos.Foundation
