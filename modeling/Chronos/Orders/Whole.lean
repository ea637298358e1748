import Chronos.Orders.Functions

/-! # Whole transactions

From the start of a transaction to its commit or abort, in every regime, and what
that says of a run of a single thread.
-/
namespace Chronos.Orders
open Foundation Storage Benchmark Program
variable {F α : Type} {self : Txn} {m : Regime F}

/-- The items one after the other; `A` says what holds after those that are done. -/
theorem does_applyItems {apply : α → Txn → DbProgram F Rc} {A : List α → Db F → Prop}
    {U : Db F → Prop} {items : List α}
    (h : ∀ done d rest, items = done ++ d :: rest → Does self m (A done) (apply d self) fun rc w =>
      (rc = BENCHMARK_SUCCESS ∧ A (done ++ [d]) w) ∨ (rc ≠ BENCHMARK_SUCCESS ∧ U w)) :
    Does self m (A []) (applyItems apply items self) fun rc w =>
      (rc = BENCHMARK_SUCCESS ∧ A items w) ∨ (rc ≠ BENCHMARK_SUCCESS ∧ U w) := by
  suffices hrest : ∀ rest done, items = done ++ rest →
    Does self m (A done) (applyItems apply rest self) fun rc w =>
      (rc = BENCHMARK_SUCCESS ∧ A items w) ∨ (rc ≠ BENCHMARK_SUCCESS ∧ U w) from hrest items [] rfl
  intro rest
  induction rest with
  | nil =>
    intro done hitems
    rw [List.append_nil] at hitems
    exact Does.pure fun w hw => .inl ⟨rfl, hitems ▸ hw⟩
  | cons d rest ih =>
    intro done hitems
    refine (h done d rest hitems).bind fun rc => ?_
    by_cases hrc : rc = BENCHMARK_SUCCESS
    · simp only [if_pos hrc]
      refine (ih (done ++ [d]) (by rw [hitems, List.append_assoc]; rfl)).pre fun w hw => ?_
      rcases hw with hw | hw
      · exact hw.2
      · exact absurd hrc hw.1
    · simp only [if_neg hrc]
      refine Does.pure fun w hw => .inr ⟨by decide, ?_⟩
      rcases hw with hw | hw
      · exact absurd hw.1 hrc
      · exact hw.2

/-- What a transaction over items needs: `S` before it, `A` while its items are
applied, `U` when one has failed, `D` after its commit, and `N` if it came to nothing. -/
structure Transacting (t : Txn) (m : Regime F) (apply : α → Txn → DbProgram F Rc) (items : List α)
    (S : Db F → Prop) (A : List α → Db F → Prop) (U D N : Db F → Prop) : Prop where
  start : ∀ w, S w → A [] w
  startStable : m.shared → ∀ w w', S w → Others t w w' → S w'
  item : ∀ done d rest, items = done ++ d :: rest → Does t m (A done) (apply d t) fun rc w =>
    (rc = BENCHMARK_SUCCESS ∧ A (done ++ [d]) w) ∨ (rc ≠ BENCHMARK_SUCCESS ∧ U w)
  owes : ∀ ok w, A items w → m.owes (.commit t) ok w
  commit : ∀ w, w.WellFormed → A items w → D (w.commit t)
  commitStable : m.shared → ∀ w w', D w → Others t w w' → D w'
  abort : ∀ w, w.WellFormed → U w → N (w.abort t)
  abortStable : m.shared → ∀ w w', N w → Others t w w' → N w'
  notBegun : m.mayFail → ∀ w, w.WellFormed → S w → N w ∧ N (w.abort t)
  notCommitted : m.mayFail → ∀ w, w.WellFormed → A items w → N (w.abort t)
  again : m.mayFail → ∀ w, w.WellFormed → N w → N (w.abort t)

variable {apply : α → Txn → DbProgram F Rc} {items : List α} {S : Db F → Prop}
  {A : List α → Db F → Prop} {U D N : Db F → Prop}

/-- Without other sessions and without failures, only the items, the commit and the abort matter. -/
theorem Transacting.alone (hshared : ¬ m.shared) (hmayFail : ¬ m.mayFail)
    (hstart : ∀ w, S w → A [] w)
    (hitem : ∀ done d rest, items = done ++ d :: rest →
      Does self m (A done) (apply d self) fun rc w =>
      (rc = BENCHMARK_SUCCESS ∧ A (done ++ [d]) w) ∨ (rc ≠ BENCHMARK_SUCCESS ∧ U w))
    (howes : ∀ ok w, A items w → m.owes (.commit self) ok w)
    (hcommit : ∀ w, w.WellFormed → A items w → D (w.commit self))
    (habort : ∀ w, w.WellFormed → U w → N (w.abort self)) :
    Transacting self m apply items S A U D N where
  start := hstart
  startStable h := absurd h hshared
  item := hitem
  owes := howes
  commit := hcommit
  commitStable h := absurd h hshared
  abort := habort
  abortStable h := absurd h hshared
  notBegun h := absurd h hmayFail
  notCommitted h := absurd h hmayFail
  again h := absurd h hmayFail

theorem does_startXact (hS : m.shared → ∀ w w', S w → Others self w w' → S w')
    (hN : m.shared → ∀ w w', N w → Others self w w' → N w') 
    (h : m.mayFail → ∀ w, w.WellFormed → S w → N w ∧ N (w.abort self))
    (txnName : String) : Does self m S (startXact txnName) fun r w => match r with
      | some t => t = self ∧ S w
      | none => N w := by
  unfold startXact
  refine (does_txnBegin hS).bind fun r => ?_
  cases r with
  | error e => exact Does.pureOf fun w hwf hw => (h hw.2 w hwf hw.1).1
  | ok t =>
    refine Does.fact (fun w hw => hw.2) fun ht => ?_
    subst ht
    refine ((does_setName hS txnName).pre fun w hw => hw.1).bind fun r => ?_
    cases r with
    | ok _ => exact Does.pure fun w hw => ⟨rfl, hw.1⟩
    | error e =>
      refine Does.fact (fun w hw => hw.2 rfl) fun hfail => ?_
      exact ((does_abort hN fun w hwf hw => (h hfail w hwf hw).2).pre fun w hw => hw.1).bind
        fun _ => Does.pure fun w hw => hw

/-- The transaction is committed with success, or comes to nothing. -/
theorem does_inXact (h : Transacting self m apply items S A U D N) (txnName : String) :
    Does self m S (inXact txnName apply items) fun rc w =>
      (rc = BENCHMARK_SUCCESS ∧ D w) ∨ (rc = BENCHMARK_FAIL ∧ N w) := by
  have habandon : ∀ {P : Db F → Prop}, (∀ w, w.WellFormed → P w → N (w.abort self)) →
    Does self m P (abandon self) fun rc w =>
      (rc = BENCHMARK_SUCCESS ∧ D w) ∨ (rc = BENCHMARK_FAIL ∧ N w) := fun hP =>
    (does_abort h.abortStable hP).bind fun _ => Does.pure fun w hw => .inr ⟨rfl, hw⟩
  unfold inXact
  refine (does_startXact h.startStable h.abortStable h.notBegun txnName).bind fun r => ?_
  cases r with
  | none => exact Does.pure fun w hw => .inr ⟨rfl, hw⟩
  | some t =>
    refine Does.fact (fun w hw => hw.1) fun ht => ?_
    subst ht
    refine ((does_applyItems h.item).pre fun w hw => h.start w hw.2).bind fun rc => ?_
    by_cases hrc : rc = BENCHMARK_SUCCESS
    · simp only [if_pos hrc]
      have hcommit : Does t m (A items) (commitXact t) fun rc w =>
          (rc = BENCHMARK_SUCCESS ∧ D w) ∨ (rc = BENCHMARK_FAIL ∧ N w ∧ m.mayFail) := by
        unfold commitXact
        refine (does_commit h.commitStable h.abortStable h.owes h.commit h.notCommitted).bind
          fun r => ?_
        cases r with
        | ok _ => exact Does.pure fun w hw => .inl ⟨rfl, hw⟩
        | error e =>
          refine Does.fact (fun w hw => hw.2) fun hfail => ?_
          refine ((does_abort h.abortStable (h.again hfail)).pre fun w hw => hw.1).bind fun _ => ?_
          exact Does.pure fun w hw => .inr ⟨rfl, hw, hfail⟩
      refine (hcommit.pre fun w hw => ?_).bind fun rc' => ?_
      · rcases hw with hw | hw
        · exact hw.2
        · exact absurd hrc hw.1
      · by_cases hrc' : rc' = BENCHMARK_SUCCESS
        · simp only [if_pos hrc']
          refine Does.pure fun w hw => .inl ⟨rfl, ?_⟩
          rcases hw with hw | hw
          · exact hw.2
          · rw [hw.1] at hrc'
            cases hrc'
        · simp only [if_neg hrc']
          refine habandon fun w hwf hw => ?_
          rcases hw with hw | hw
          · exact absurd hw.1 hrc'
          · exact h.again hw.2.2 w hwf hw.2.1
    · simp only [if_neg hrc]
      refine habandon fun w hwf hw => ?_
      rcases hw with hw | hw
      · exact absurd hw.1 hrc
      · exact h.abort w hwf hw.2

end Chronos.Orders
