import Chronos.Server.AdmissionControl

/-! # What a tick measures

The counters of a thread are kept by ring slots; a tick empties the slot that it moves on to.
The slot in use therefore counts the transactions since the last tick, however often the
ring has come around.
-/
namespace Chronos.Sampling
open Foundation
variable {n m : ℕ}

/-! ## What the clients see -/

/-- The duration of a user transaction that has succeeded. -/
def Event.successMs : Event n m → Option ℤ
  | .account _ txnRc txnDurationMs => if txnRc = CHRONOS_SUCCESS then some txnDurationMs else none
  | _ => none

def Event.failed : Event n m → Bool
  | .account _ txnRc _ => decide (txnRc ≠ CHRONOS_SUCCESS)
  | _ => false

def Event.timely (desiredDelayBoundMS : ℚ) : Event n m → Bool
  | .account _ txnRc txnDurationMs =>
    decide (txnRc = CHRONOS_SUCCESS ∧ (txnDurationMs : ℚ) ≤ desiredDelayBoundMS)
  | _ => false

def durations (es : List (Event n m)) : List ℤ := es.filterMap Event.successMs

/-- The mean of the durations, or zero. -/
def meanMs (durations : List ℤ) : ℚ :=
  if durations = [] then 0 else (durations.sum : ℚ) / durations.length

/-! ## The slot in use -/

def ServerContext.total {M : Type} [AddCommGroup M] (c : ServerContext n m)
    (g : ChronosServerStats → M) : M :=
  ∑ i, g (c.statsMatrix c.currentSlot i)

/-- The slot in use counts these events, and nothing else. -/
structure Counts (a : Settings n) (es : List (Event n m)) (c : ServerContext n m) : Prop where
  bound : c.desiredDelayBoundMS = a.desiredDelayBoundMS
  count : c.total ChronosServerStats.numTxns = (durations es).length
  time : c.total ChronosServerStats.cumulativeTimeMs = (durations es).sum
  failed : c.total ChronosServerStats.numFailedTxns = es.countP Event.failed
  timely : c.total ChronosServerStats.numTimelyTxns = es.countP (Event.timely a.desiredDelayBoundMS)

theorem Counts.snoc {a : Settings n} {es : List (Event n m)} {c c' : ServerContext n m}
    (hc : Counts a es c) {ev : Event n m} (hbound : c'.desiredDelayBoundMS = c.desiredDelayBoundMS)
    (hcount : c'.total ChronosServerStats.numTxns =
      c.total ChronosServerStats.numTxns + ev.successMs.toList.length)
    (htime : c'.total ChronosServerStats.cumulativeTimeMs =
      c.total ChronosServerStats.cumulativeTimeMs + ev.successMs.toList.sum)
    (hfailed : c'.total ChronosServerStats.numFailedTxns =
      c.total ChronosServerStats.numFailedTxns + if ev.failed then 1 else 0)
    (htimely : c'.total ChronosServerStats.numTimelyTxns =
      c.total ChronosServerStats.numTimelyTxns + if ev.timely a.desiredDelayBoundMS then 1 else 0) :
    Counts a (es ++ [ev]) c' := by
  have hdurations : durations (es ++ [ev]) = durations es ++ ev.successMs.toList := by
    rw [durations, List.filterMap_append]
    cases h : ev.successMs <;> simp [durations, h]
  refine ⟨hbound.trans hc.bound, ?_, ?_, ?_, ?_⟩
  · rw [hcount, hc.count, hdurations, List.length_append, Nat.cast_add]
  · rw [htime, hc.time, hdurations, List.sum_append]
    norm_cast
  · rw [hfailed, hc.failed, List.countP_append, List.countP_singleton]
    push_cast
    rfl
  · rw [htimely, hc.timely, List.countP_append, List.countP_singleton]
    push_cast
    rfl

theorem Counts.other {a : Settings n} {es : List (Event n m)} {c c' : ServerContext n m}
    (hc : Counts a es c) {ev : Event n m} (hbound : c'.desiredDelayBoundMS = c.desiredDelayBoundMS)
    (hslot : c'.currentSlot = c.currentSlot) (hstats : c'.statsMatrix = c.statsMatrix)
    (hsuccess : ev.successMs = none) (hfailed : ev.failed = false)
    (htimely : ev.timely a.desiredDelayBoundMS = false) : Counts a (es ++ [ev]) c' := by
  have htotal : ∀ {M : Type} [AddCommGroup M] (g : ChronosServerStats → M), c'.total g =
    c.total g := by
    intro M _ g
    rw [ServerContext.total, ServerContext.total, hslot, hstats]
  refine hc.snoc hbound ?_ ?_ ?_ ?_
  · simp [htotal, hsuccess]
  · simp [htotal, hsuccess]
  · simp [htotal, hfailed]
  · simp [htotal, htimely]

theorem Counts.account {a : Settings n} {es : List (Event n m)} {c : ServerContext n m}
    (hc : Counts a es c) (threadNum : Fin m) (txnRc txnDurationMs : ℤ) :
    Counts a (es ++ [.account threadNum txnRc txnDurationMs])
      (accountTransaction c threadNum txnRc txnDurationMs) := by
  have htotal : ∀ {M : Type} [AddCommGroup M] (g : ChronosServerStats → M),
      (accountTransaction c threadNum txnRc txnDurationMs).total g = c.total g +
        (g ((c.statsMatrix c.currentSlot threadNum).account c.desiredDelayBoundMS txnRc
          txnDurationMs) -
          g (c.statsMatrix c.currentSlot threadNum)) := by
    intro M _ g
    simp only [ServerContext.total, accountTransaction, Function.update_self, sum_update]
  refine hc.snoc rfl ?_ ?_ ?_ ?_
  · rw [htotal]
    by_cases hrc : txnRc = CHRONOS_SUCCESS <;>
      simp [ChronosServerStats.account, Event.successMs, hrc]
  · rw [htotal]
    by_cases hrc : txnRc = CHRONOS_SUCCESS <;>
      simp [ChronosServerStats.account, Event.successMs, hrc]
  · rw [htotal]
    by_cases hrc : txnRc = CHRONOS_SUCCESS <;> simp [ChronosServerStats.account, Event.failed, hrc]
  · rw [htotal, hc.bound]
    by_cases hrc : txnRc = CHRONOS_SUCCESS <;>
      by_cases hin : (txnDurationMs : ℚ) ≤ a.desiredDelayBoundMS <;>
        simp [ChronosServerStats.account, Event.timely, hrc, hin]

theorem counts_handlerSampling {a : Settings n} {es : List (Event n m)} {c : ServerContext n m}
    (hc : Counts a es c) : Counts a [] (handlerSampling c) := by
  have htotal : ∀ {M : Type} [AddCommGroup M] (g : ChronosServerStats → M), g .zero = 0 →
      (handlerSampling c).total g = 0 := by
    intro M _ g hg
    simp only [ServerContext.total, handlerSampling, ServerContext.zeroedAt_self, hg,
      Finset.sum_const_zero]
  exact ⟨hc.bound, htotal _ rfl, htotal _ rfl, htotal _ rfl, htotal _ rfl⟩

theorem sinceTick_snoc {es : List (Event n m)} {ev : Event n m} (hev : ev ≠ .sampling) :
    sinceTick (es ++ [ev]) = sinceTick es ++ [ev] :=
  List.rtakeWhile_concat_pos _ _ _ (decide_eq_true hev)

theorem sinceTick_sampling (es : List (Event n m)) : sinceTick (es ++ [.sampling]) = [] :=
  List.rtakeWhile_concat_neg _ _ _ (by simp)

/-- What an event adds to the period, or where it begins a new one. -/
theorem Counts.step {a : Settings n} {es : List (Event n m)} {c : ServerContext n m}
    (hc : Counts a (sinceTick es) c) (ev : Event n m) :
    Counts a (sinceTick (es ++ [ev])) (step c ev) := by
  cases ev with
  | viewStock symbolIds =>
    obtain ⟨items, hkeep⟩ := dispatchTableFn_keeps symbolIds c
    rw [sinceTick_snoc (by simp), Sampling.step, hkeep]
    exact hc.other rfl rfl rfl rfl rfl rfl
  | refresh i next =>
    rw [sinceTick_snoc (by simp)]
    exact hc.other rfl rfl rfl rfl rfl rfl
  | transactionDone =>
    rw [sinceTick_snoc (by simp), Sampling.step, transactionDone]
    split <;> exact hc.other rfl rfl rfl rfl rfl rfl
  | account threadNum txnRc txnDurationMs =>
    rw [sinceTick_snoc (by simp)]
    exact hc.account threadNum txnRc txnDurationMs
  | occupied user sys =>
    rw [sinceTick_snoc (by simp)]
    exact hc.other rfl rfl rfl rfl rfl rfl
  | sampling =>
    rw [sinceTick_sampling]
    exact counts_handlerSampling hc

/-- In every run the slot in use counts what has happened since the last tick. -/
theorem counts_run (a : Settings n) (es : List (Event n m)) :
    Counts a (sinceTick es) (run (a.initial m) es) := by
  have hzero : ∀ {M : Type} [AddCommGroup M] (g : ChronosServerStats → M), g .zero = 0 →
    (a.initial m).total g = 0 := by
    intro M _ g hg
    simp only [ServerContext.total, Settings.initial, hg, Finset.sum_const_zero]
  exact foldl_history (P := fun es c => Counts a (sinceTick es) c)
    ⟨rfl, hzero _ rfl, hzero _ rfl, hzero _ rfl, hzero _ rfl⟩ (fun _ _ ev hc => hc.step ev) es

/-! ## The tick -/

theorem samplingTotals_eq (c : ServerContext n m) : samplingTotals c =
    ⟨c.total ChronosServerStats.numTxns, c.total ChronosServerStats.cumulativeTimeMs,
      c.total ChronosServerStats.numFailedTxns, c.total ChronosServerStats.numTimelyTxns⟩ := by
  simp only [samplingTotals, c.zeroedAt_ne (slot_ne_next c.currentSlot), ServerContext.total]

theorem averageServiceDelayMs_handlerSampling (c : ServerContext n m) :
    (handlerSampling c).averageServiceDelayMs =
      if (samplingTotals c).count > 0 then (samplingTotals c).durationMs / (samplingTotals c).count
        else 0 := rfl

/-- At every tick of every run the average service delay is that of the transactions that have
succeeded since the previous tick, and the totals are the numbers of those that have failed
and of those that were timely. -/
theorem tick_measures_period (a : Settings n) (es : List (Event n m)) :
    (run (a.initial m) (es ++ [.sampling])).averageServiceDelayMs = meanMs
    (durations (sinceTick es)) ∧
    (samplingTotals (run (a.initial m) es)).totalFailedTxns = (sinceTick es).countP Event.failed ∧
    (samplingTotals (run (a.initial m) es)).totalTimelyTxns =
      (sinceTick es).countP (Event.timely a.desiredDelayBoundMS) := by
  have hc := counts_run (m := m) a es
  refine ⟨?_, ?_, ?_⟩
  · rw [run, List.foldl_append]
    change (handlerSampling (run (a.initial m) es)).averageServiceDelayMs = _
    rw [averageServiceDelayMs_handlerSampling, samplingTotals_eq, hc.count, hc.time, meanMs]
    by_cases hnone : durations (sinceTick es) = []
    · simp [hnone]
    · have hpos : ((durations (sinceTick es)).length : ℤ) > 0 := by
        exact_mod_cast List.length_pos_of_ne_nil hnone
      rw [if_pos hpos, if_neg hnone]
      rfl
  · rw [samplingTotals_eq]
    exact hc.failed
  · rw [samplingTotals_eq]
    exact hc.timely

end Chronos.Sampling
