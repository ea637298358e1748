import Chronos.Foundation.Fairness

/-! # Progress along a schedule

`LeadsTo P Q` says of two properties of moments that each moment of the first is
followed by one of the second. Progress is composed from stages, by a rank that
comes down, and from events that come again and again.
-/
namespace Chronos.Foundation

section LeadsTo
variable {P Q R : ℕ → Prop}

/-- Whenever `P` holds, `Q` holds then or later. -/
def LeadsTo (P Q : ℕ → Prop) : Prop := ∀ n, P n → ∃ m ≥ n, Q m

theorem LeadsTo.trans (hpq : LeadsTo P Q) (hqr : LeadsTo Q R) : LeadsTo P R := by
  intro n hn
  obtain ⟨m, hm, hq⟩ := hpq n hn
  obtain ⟨k, hk, hr⟩ := hqr m hq
  exact ⟨k, hm.trans hk, hr⟩

theorem LeadsTo.exists {ι : Sort*} {P : ι → ℕ → Prop} (h : ∀ i, LeadsTo (P i) Q) :
    LeadsTo (fun n => ∃ i, P i n) Q := by
  rintro n ⟨i, hi⟩
  exact h i n hi

/-- Progress by stages: as long as `Q` is not reached, each stage ends in a smaller one. -/
theorem LeadsTo.of_decreasing {δ : Type*} [Preorder δ] [WellFoundedLT δ] {P : δ → ℕ → Prop}
    (h : ∀ d, LeadsTo (P d) fun n => Q n ∨ ∃ d' < d, P d' n) : LeadsTo (fun n => ∃ d, P d n) Q := by
  apply LeadsTo.exists
  intro d
  induction d using WellFoundedLT.induction with
  | _ d ih =>
    intro n hn
    obtain ⟨m, hm, hq | ⟨d', hlt, hp⟩⟩ := h d n hn
    · exact ⟨m, hm, hq⟩
    · obtain ⟨j, hj, hq⟩ := ih d' hlt m hp
      exact ⟨j, hm.trans hj, hq⟩

/-- Progress by events: until `Q` is reached no step raises the rank, and the events that
lower it come again and again. -/
theorem LeadsTo.of_recurrent {occurs : ℕ → Prop} (rank : ℕ → ℕ) (hrec : ∀ n, ∃ m ≥ n, occurs m)
    (hstep : ∀ n, P n → Q n ∨ Q (n + 1) ∨
      (P (n + 1) ∧ rank (n + 1) ≤ rank n ∧ (occurs n → rank (n + 1) < rank n))) : LeadsTo P Q := by
  -- until the next event, `Q` comes up or the rank is no higher than before
  have hwait : ∀ n, P n → ∀ m ≥ n, (∃ j, n ≤ j ∧ Q j) ∨ (P m ∧ rank m ≤ rank n) := by
    intro n hn m hm
    induction m, hm using Nat.le_induction with
    | base => exact Or.inr ⟨hn, le_rfl⟩
    | succ m hm ih =>
      rcases ih with hq | ⟨hp, hle⟩
      · exact Or.inl hq
      · rcases hstep m hp with hq | hq | ⟨hp', hle', -⟩
        · exact Or.inl ⟨m, hm, hq⟩
        · exact Or.inl ⟨m + 1, by omega, hq⟩
        · exact Or.inr ⟨hp', hle'.trans hle⟩
  intro n hn
  induction hk : rank n using Nat.strong_induction_on generalizing n with
  | _ k ih =>
    obtain ⟨m, hm, hocc⟩ := hrec n
    rcases hwait n hn m hm with ⟨j, hj, hq⟩ | ⟨hp, hle⟩
    · exact ⟨j, hj, hq⟩
    · rcases hstep m hp with hq | hq | ⟨hp', -, hlt⟩
      · exact ⟨m, hm, hq⟩
      · exact ⟨m + 1, by omega, hq⟩
      · have hlower : rank (m + 1) < k := by
          have := hlt hocc
          omega
        obtain ⟨j, hj, hq⟩ := ih _ hlower (m + 1) hp' rfl
        exact ⟨j, by omega, hq⟩

/-- A queue that is taken from again and again, as long as it is not empty, hands out each of its
entries. -/
theorem LeadsTo.popped {α : Type*} {queue : ℕ → List α}
    (hstep : ∀ n, (∃ new, queue (n + 1) = queue n ++ new) ∨ ∃ e, queue n = e :: queue (n + 1))
    (hpop : LeadsTo (fun n => queue n ≠ []) fun n => (queue (n + 1)).length < (queue n).length)
    (e : α) : LeadsTo (fun n => e ∈ queue n) fun n => queue n = e :: queue (n + 1) := by
  -- the number of entries in front of `e` comes down with each entry that is taken
  have hahead : LeadsTo (fun n => ∃ d, ∃ front back, queue n = front ++ e :: back ∧
    front.length = d)
      fun n => queue n = e :: queue (n + 1) := by
    refine LeadsTo.of_decreasing fun d n hn => ?_
    obtain ⟨front, back, hqueue, rfl⟩ := hn
    obtain ⟨m, hm, hshort⟩ := hpop n (by simp [hqueue])
    have hkept : ∀ k ≥ n, (∀ j ≥ n, j < k → ¬ (queue (j + 1)).length < (queue j).length) →
        ∃ back, queue k = front ++ e :: back := by
      intro k hk hlong
      induction k, hk using Nat.le_induction with
      | base => exact ⟨back, hqueue⟩
      | succ k hk ih =>
        obtain ⟨back', hk'⟩ := ih fun j hj hjk => hlong j hj (by omega)
        rcases hstep k with ⟨new, hnew⟩ | ⟨e', hpopped⟩
        · exact ⟨back' ++ new, by simp [hnew, hk']⟩
        · exact absurd (by simp [hpopped]) (hlong k hk (Nat.lt_succ_self k))
    classical
    -- the first moment at which an entry is taken
    have hex : ∃ k, n ≤ k ∧ (queue (k + 1)).length < (queue k).length := ⟨m, hm, hshort⟩
    obtain ⟨hk, htake⟩ := Nat.find_spec hex
    obtain ⟨back', hback⟩ := hkept _ hk fun j hj hjk hlt => Nat.find_min hex hjk ⟨hj, hlt⟩
    rcases hstep (Nat.find hex) with ⟨new, hnew⟩ | ⟨e', hpopped⟩
    · rw [hnew, List.length_append] at htake
      omega
    · cases front with
      | nil =>
        have hhead := hback.symm.trans hpopped
        simp only [List.nil_append, List.cons.injEq] at hhead
        exact ⟨_, hk, Or.inl (by rw [hpopped, ← hhead.1])⟩
      | cons x front =>
        have hrest := hback.symm.trans hpopped
        simp only [List.cons_append, List.cons.injEq] at hrest
        exact ⟨_, Nat.le_succ_of_le hk,
          Or.inr ⟨front.length, Nat.lt_succ_self _, front, back', hrest.2.symm, rfl⟩⟩
  intro n hn
  obtain ⟨front, back, hqueue⟩ := List.append_of_mem hn
  exact hahead n ⟨_, front, back, hqueue, rfl⟩

end LeadsTo

section Fair
variable {State Event Kind : Type*} {step : State → Event → State} {ev : ℕ → Event} {s : State}

/-- Progress by fairness: until `Done` holds, each step that changes the state brings the measure
down, and some kind of event changes it. -/
theorem LeadsTo.of_fair {isOf : Kind → Event → Prop} {Stage Done : State → Prop}
    (measure : State → ℕ) (hfair : Fair isOf ev)
    (hstep : ∀ n, Stage (runFor step ev s n) → Done (runFor step ev s (n + 1)) ∨
      Stage (runFor step ev s (n + 1)) ∧
      (runFor step ev s (n + 1) = runFor step ev s n ∨
        measure (runFor step ev s (n + 1)) < measure (runFor step ev s n)))
    (hprogress : ∀ s, Stage s → ∃ k, ∀ e, isOf k e → step s e ≠ s) :
    LeadsTo (fun n => Stage (runFor step ev s n)) fun n => Done (runFor step ev s n) := by
  -- until an event comes that changes the state, `Done` comes up, the measure is lower,
  -- or nothing has changed
  have hwait : ∀ n, Stage (runFor step ev s n) → ∀ m ≥ n, (∃ j ≥ n, Done (runFor step ev s j)) ∨
      (∃ j ≥ n, Stage (runFor step ev s j) ∧ measure (runFor step ev s j) <
        measure (runFor step ev s n)) ∨
        runFor step ev s m = runFor step ev s n := by
    intro n hn m hm
    induction m, hm using Nat.le_induction with
    | base => exact .inr (.inr rfl)
    | succ m hm ih =>
      rcases ih with hdone | hlower | hsame
      · exact .inl hdone
      · exact .inr (.inl hlower)
      · rcases hstep m (by rwa [hsame]) with hdone | ⟨hstage, heq | hlt⟩
        · exact .inl ⟨m + 1, Nat.le_succ_of_le hm, hdone⟩
        · exact .inr (.inr (heq.trans hsame))
        · rw [hsame] at hlt
          exact .inr (.inl ⟨m + 1, Nat.le_succ_of_le hm, hstage, hlt⟩)
  have hranked : LeadsTo (fun n => ∃ d, Stage (runFor step ev s n) ∧
    measure (runFor step ev s n) = d)
      fun n => Done (runFor step ev s n) := by
    refine LeadsTo.of_decreasing fun d n hn => ?_
    obtain ⟨hstage, rfl⟩ := hn
    obtain ⟨k, hk⟩ := hprogress _ hstage
    obtain ⟨m, hm, hof⟩ := hfair k n
    rcases hwait n hstage (m + 1) (Nat.le_succ_of_le hm) with ⟨j, hj, hdone⟩ |
      ⟨j, hj, hstage', hlt⟩ | hsame
    · exact ⟨j, hj, .inl hdone⟩
    · exact ⟨j, hj, .inr ⟨_, hlt, hstage', rfl⟩⟩
    · rcases hwait n hstage m hm with ⟨j, hj, hdone⟩ | ⟨j, hj, hstage', hlt⟩ | hbefore
      · exact ⟨j, hj, .inl hdone⟩
      · exact ⟨j, hj, .inr ⟨_, hlt, hstage', rfl⟩⟩
      · rw [runFor, hbefore] at hsame
        exact absurd hsame (hk _ hof)
  intro n hn
  exact hranked n ⟨_, hn, rfl⟩

end Fair

end Chronos.Foundation
