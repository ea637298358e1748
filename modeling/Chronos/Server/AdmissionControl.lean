import Chronos.Server.Sampling

/-! # How many transactions admission control waits for

At a tick the server sets `num_txn_to_wait` to a hundredth of the queue length times the
smoothed degree of overload; every completed transaction takes one off. The degree is a
weighted sum over all sampling periods so far and has no upper bound.
-/
namespace Chronos.Sampling
open Foundation
variable {n m : ℕ}

/-! ## What the clients cause -/

/-- What happened so far: the transactions in the two queues, and the durations of the
successful user transactions, in the open sampling period and in each closed one, latest first. -/
structure Load where
  queued : ℤ
  current : List ℤ
  closed : List (List ℤ)

def Load.next (h : Load) : Event n m → Load
  | .account _ txnRc txnDurationMs =>
    if txnRc = CHRONOS_SUCCESS then { h with current := txnDurationMs :: h.current } else h
  | .occupied user sys => { h with queued := user + sys }
  | .sampling => { h with current := [], closed := h.current :: h.closed }
  | _ => h

def load (es : List (Event n m)) : Load := es.foldl Load.next ⟨0, [], []⟩

/-- How far the average delay of a period lies above the bound, relative to the bound. -/
def overload (desiredDelayBoundMS : ℚ) (durations : List ℤ) : ℚ :=
  max 0 (durations.sum / durations.length / desiredDelayBoundMS - 1)

/-- The exponentially weighted sum of the overloads of the periods, latest first. -/
def smoothedOverload (alpha desiredDelayBoundMS : ℚ) (periods : List (List ℤ)) : ℚ :=
  ∑ k ∈ Finset.range periods.length, alpha * (1 - alpha) ^ k * overload desiredDelayBoundMS
    (periods.getD k [])

theorem overload_nonneg (bound : ℚ) (durations : List ℤ) : 0 ≤ overload bound durations :=
  le_max_left _ _

theorem smoothedOverload_cons (alpha bound : ℚ) (period : List ℤ) (periods : List (List ℤ)) :
    smoothedOverload alpha bound (period :: periods) =
      alpha * overload bound period + (1 - alpha) * smoothedOverload alpha bound periods := by
  simp only [smoothedOverload, List.length_cons, Finset.sum_range_succ', List.getD_cons_succ,
    List.getD_cons_zero, pow_zero, mul_one, Finset.mul_sum]
  rw [add_comm]
  congr 1
  apply Finset.sum_congr rfl
  intro k _
  rw [pow_succ]
  ring

theorem smoothedOverload_nonneg {alpha : ℚ} (hlo : 0 ≤ alpha) (hhi : alpha ≤ 1) (bound : ℚ)
    (periods : List (List ℤ)) : 0 ≤ smoothedOverload alpha bound periods := by
  apply Finset.sum_nonneg
  intro k _
  have hweight : 0 ≤ alpha * (1 - alpha) ^ k := mul_nonneg hlo (pow_nonneg (sub_nonneg.mpr hhi) k)
  exact mul_nonneg hweight (overload_nonneg _ _)

/-- The degree as `handler_sampling` computes it. -/
theorem degree_eq_overload {bound : ℚ} (hbound : 0 < bound) (durations : List ℤ) :
    (let average :=
        if (durations.length : ℤ) > 0 then (durations.sum : ℚ) / (durations.length : ℤ) else 0
      if average > bound then (average - bound) / bound else 0) = overload bound durations := by
  have haverage :
      (if (durations.length : ℤ) > 0 then (durations.sum : ℚ) / (durations.length : ℤ) else 0) =
        (durations.sum : ℚ) / durations.length := by
    split_ifs with hcount
    · rfl
    · have hlength : durations.length = 0 := by omega
      simp [hlength]
  simp only [haverage, overload]
  have hdegree : ∀ x : ℚ, (x - bound) / bound = x / bound - 1 := by
    intro x
    rw [sub_div, div_self hbound.ne']
  split_ifs with hover
  · rw [hdegree, max_eq_right]
    have := (one_lt_div hbound).mpr hover
    linarith
  · rw [max_eq_left]
    have := (div_le_one hbound).mpr (not_lt.mp hover)
    linarith

/-! ## The counters follow the load -/

theorem sum_update {M : Type} [AddCommGroup M] (g : ChronosServerStats → M)
    (row : Fin m → ChronosServerStats) (t : Fin m) (st : ChronosServerStats) :
    ∑ i, g (Function.update row t st i) = ∑ i, g (row i) + (g st - g (row t)) := by
  have hterm : ∀ i, g (Function.update row t st i) = g (row i) + if i = t then g st - g (row t)
    else 0 := by
    intro i
    by_cases hi : i = t
    · subst hi
      simp
    · simp [hi]
  simp only [hterm, Finset.sum_add_distrib, Finset.sum_ite_eq', Finset.mem_univ, if_true]

def Event.NonNegative : Event n m → Prop
  | .account _ _ txnDurationMs => 0 ≤ txnDurationMs
  | .occupied user sys => 0 ≤ user ∧ 0 ≤ sys
  | _ => True

/-- What the counters of the server say about the load so far. -/
structure Measures (a : Settings n) (h : Load) (c : ServerContext n m) : Prop where
  mode : c.runningMode = a.runningMode
  alpha : c.alpha = a.alpha
  bound : c.desiredDelayBoundMS = a.desiredDelayBoundMS
  queued : c.userOccupied + c.sysOccupied = h.queued
  nonneg : 0 ≤ h.queued
  count : ∑ i, (c.statsMatrix c.currentSlot i).numTxns = h.current.length
  time : ∑ i, (c.statsMatrix c.currentSlot i).cumulativeTimeMs = h.current.sum
  smoothed : c.smothDegreeTimingViolation = smoothedOverload a.alpha a.desiredDelayBoundMS h.closed

theorem measures_initial (a : Settings n) : Measures a ⟨0, [], []⟩ (a.initial m) where
  mode := rfl
  alpha := rfl
  bound := rfl
  queued := rfl
  nonneg := le_refl 0
  count := by simp [Settings.initial, ChronosServerStats.zero]
  time := by simp [Settings.initial, ChronosServerStats.zero]
  smoothed := by simp [Settings.initial, smoothedOverload]

theorem dispatchTableFn_keeps (symbolIds : List (Fin n)) (c : ServerContext n m) :
    ∃ items, dispatchTableFn c symbolIds = { c with dataItemsArray := items } := by
  unfold dispatchTableFn
  induction symbolIds generalizing c with
  | nil => exact ⟨c.dataItemsArray, rfl⟩
  | cons i is ih =>
    obtain ⟨items, h⟩ := ih (c.bumpUpdateFrequency i)
    exact ⟨items, h⟩

theorem slot_ne_next (slot : Slot) : slot ≠ slot + 1 := by
  revert slot
  decide

theorem Measures.smoothed_sampling {a : Settings n} {h : Load} {c : ServerContext n m}
    (hc : Measures a h c) (hbound : 0 < a.desiredDelayBoundMS) :
    (handlerSampling c).smothDegreeTimingViolation =
      smoothedOverload a.alpha a.desiredDelayBoundMS (h.current :: h.closed) := by
  rw [smoothedOverload_cons, ← degree_eq_overload hbound]
  simp only [handlerSampling, samplingTotals, c.zeroedAt_ne (slot_ne_next c.currentSlot), hc.count,
    hc.time, hc.alpha, hc.bound, hc.smoothed]

theorem Measures.account {a : Settings n} {h : Load} {c : ServerContext n m} (hc : Measures a h c)
    (threadNum : Fin m) (txnRc txnDurationMs : ℤ) :
    Measures a (h.next (.account (n := n) threadNum txnRc txnDurationMs))
      (accountTransaction c threadNum txnRc txnDurationMs) := by
  by_cases hrc : txnRc = CHRONOS_SUCCESS
  · have hnext : h.next (.account (n := n) threadNum txnRc txnDurationMs) =
        { h with current := txnDurationMs :: h.current } := if_pos hrc
    rw [hnext]
    refine ⟨hc.mode, hc.alpha, hc.bound, hc.queued, hc.nonneg, ?_, ?_, hc.smoothed⟩
    · simp only [accountTransaction, Function.update_self, sum_update ChronosServerStats.numTxns,
        hc.count]
      simp [ChronosServerStats.account, hrc]
    · simp only [accountTransaction, Function.update_self,
        sum_update ChronosServerStats.cumulativeTimeMs, hc.time]
      simp [ChronosServerStats.account, hrc, add_comm]
  · have hnext : h.next (.account (n := n) threadNum txnRc txnDurationMs) = h := if_neg hrc
    rw [hnext]
    refine ⟨hc.mode, hc.alpha, hc.bound, hc.queued, hc.nonneg, ?_, ?_, hc.smoothed⟩
    · simp only [accountTransaction, Function.update_self, sum_update ChronosServerStats.numTxns,
        hc.count]
      simp [ChronosServerStats.account, hrc]
    · simp only [accountTransaction, Function.update_self,
        sum_update ChronosServerStats.cumulativeTimeMs, hc.time]
      simp [ChronosServerStats.account, hrc]

theorem Measures.step {a : Settings n} {h : Load} {c : ServerContext n m} (hc : Measures a h c)
    (hbound : 0 < a.desiredDelayBoundMS) {ev : Event n m} (hev : ev.NonNegative) :
    Measures a (h.next ev) (step c ev) := by
  cases ev with
  | viewStock symbolIds =>
    obtain ⟨items, hkeep⟩ := dispatchTableFn_keeps symbolIds c
    simp only [Sampling.step, hkeep]
    exact ⟨hc.mode, hc.alpha, hc.bound, hc.queued, hc.nonneg, hc.count, hc.time, hc.smoothed⟩
  | refresh i next =>
    exact ⟨hc.mode, hc.alpha, hc.bound, hc.queued, hc.nonneg, hc.count, hc.time, hc.smoothed⟩
  | transactionDone =>
    simp only [Sampling.step, transactionDone]
    split_ifs
    · exact ⟨hc.mode, hc.alpha, hc.bound, hc.queued, hc.nonneg, hc.count, hc.time, hc.smoothed⟩
    · exact hc
  | account threadNum txnRc txnDurationMs => exact hc.account threadNum txnRc txnDurationMs
  | occupied user sys =>
    exact ⟨hc.mode, hc.alpha, hc.bound, rfl, add_nonneg hev.1 hev.2, hc.count, hc.time, hc.smoothed⟩
  | sampling =>
    refine ⟨hc.mode, hc.alpha, hc.bound, hc.queued, hc.nonneg, ?_, ?_, hc.smoothed_sampling hbound⟩
    · simp [Sampling.step, handlerSampling, Load.next, ChronosServerStats.zero]
    · simp [Sampling.step, handlerSampling, Load.next, ChronosServerStats.zero]

theorem measures_run (a : Settings n) (hbound : 0 < a.desiredDelayBoundMS) (es : List (Event n m))
    (hes : ∀ ev ∈ es, ev.NonNegative) : Measures a (load es) (run (a.initial m) es) := by
  induction es using List.reverseRecOn with
  | nil => exact measures_initial a
  | append_singleton es ev ih =>
    have hrun := ih fun ev' hev' => hes ev' (List.mem_append_left _ hev')
    rw [load, run, List.foldl_append, List.foldl_append]
    exact hrun.step hbound (hes ev (by simp))

/-! ## The bound on the wait -/

/-- Admission control waits for no more transactions than there were in the queues at the
last tick, so that the completion of these lets every handler go on. -/
structure WaitsForQueued (c : ServerContext n m) : Prop where
  nonneg : 0 ≤ c.numTxnToWait
  le_total : c.numTxnToWait ≤ c.totalTxnsEnqueued
  drains : (transactionDone^[c.totalTxnsEnqueued.toNat] c).numTxnToWait = 0

theorem transactionDone_iterate (c : ServerContext n m) (hc : 0 ≤ c.numTxnToWait) (k : ℕ) :
    (transactionDone^[k] c).numTxnToWait = max 0 (c.numTxnToWait - k) := by
  induction k generalizing c with
  | zero => simp [hc]
  | succ k ih =>
    have hdone : (transactionDone c).numTxnToWait = max 0 (c.numTxnToWait - 1) := by
      unfold transactionDone
      split_ifs with hpos
      · have hless : 0 ≤ c.numTxnToWait - 1 := by omega
        exact (max_eq_right hless).symm
      · omega
    rw [Function.iterate_succ_apply, ih _ (by omega), hdone]
    omega

theorem waitsForQueued_iff (c : ServerContext n m) :
    WaitsForQueued c ↔ 0 ≤ c.numTxnToWait ∧ c.numTxnToWait ≤ c.totalTxnsEnqueued := by
  constructor
  · intro h
    exact ⟨h.nonneg, h.le_total⟩
  · rintro ⟨hlo, hhi⟩
    refine ⟨hlo, hhi, ?_⟩
    rw [transactionDone_iterate c hlo]
    omega

/-- The overload so far is small enough for a tick at this moment, in the modes that do admission
control. -/
def TickInBounds (a : Settings n) (h : Load) : Prop :=
  a.runningMode = CHRONOS_MODE_FULL ∨ a.runningMode = CHRONOS_MODE_AC →
    h.queued * smoothedOverload a.alpha a.desiredDelayBoundMS (h.current :: h.closed) <
      100 * (h.queued + 1)

theorem truncate_le_iff {x : ℚ} (hx : 0 ≤ x) (k : ℤ) : truncate x ≤ k ↔ x < k + 1 := by
  rw [truncate, if_pos hx, ← Int.lt_add_one_iff, Int.floor_lt]
  push_cast
  rfl

theorem Measures.sampling_waits_iff {a : Settings n} {h : Load} {c : ServerContext n m}
    (hc : Measures a h c) (hbound : 0 < a.desiredDelayBoundMS) (hlo : 0 ≤ a.alpha)
    (hhi : a.alpha ≤ 1) : WaitsForQueued (handlerSampling c) ↔ TickInBounds a h := by
  have hsmoothed := hc.smoothed_sampling hbound
  have hnonneg := smoothedOverload_nonneg hlo hhi a.desiredDelayBoundMS (h.current :: h.closed)
  have htotal : (handlerSampling c).totalTxnsEnqueued = h.queued := hc.queued
  have hwait : (handlerSampling c).numTxnToWait =
      if (a.runningMode = CHRONOS_MODE_FULL ∨ a.runningMode = CHRONOS_MODE_AC) ∧
          (handlerSampling c).smothDegreeTimingViolation > 0
      then truncate (h.queued * (handlerSampling c).smothDegreeTimingViolation / 100) else 0 := by
    rw [← hc.mode, ← hc.queued]
    rfl
  have hqueued : (0 : ℚ) ≤ h.queued := by exact_mod_cast hc.nonneg
  rw [waitsForQueued_iff, htotal, hwait, hsmoothed, TickInBounds]
  set smoth := smoothedOverload a.alpha a.desiredDelayBoundMS (h.current :: h.closed)
  by_cases hmode : a.runningMode = CHRONOS_MODE_FULL ∨ a.runningMode = CHRONOS_MODE_AC
  · have hwaitNonneg : 0 ≤ h.queued * smoth / 100 := by positivity
    by_cases hpos : smoth > 0
    · simp only [hmode, hpos, and_self, if_true, forall_const]
      rw [truncate_le_iff hwaitNonneg, div_lt_iff₀ (by norm_num), mul_comm 100]
      refine and_iff_right ?_
      rw [truncate, if_pos hwaitNonneg]
      exact Int.floor_nonneg.mpr hwaitNonneg
    · have hzero : smoth = 0 := le_antisymm (not_lt.mp hpos) hnonneg
      rw [if_neg fun hand => hpos hand.2, hzero, mul_zero]
      have hbelow : (0 : ℚ) < 100 * (h.queued + 1) := by linarith
      exact iff_of_true ⟨le_refl 0, hc.nonneg⟩ fun _ => hbelow
  · simp [hmode, hc.nonneg]

theorem WaitsForQueued.step {c : ServerContext n m} (hc : WaitsForQueued c) {ev : Event n m}
    (hev : ev ≠ .sampling) : WaitsForQueued (step c ev) := by
  rw [waitsForQueued_iff]
  have hlo := hc.nonneg
  have hhi := hc.le_total
  cases ev with
  | viewStock symbolIds =>
    obtain ⟨items, hkeep⟩ := dispatchTableFn_keeps symbolIds c
    simp only [Sampling.step, hkeep]
    exact ⟨hlo, hhi⟩
  | refresh i next => exact ⟨hlo, hhi⟩
  | transactionDone =>
    simp only [Sampling.step, transactionDone]
    split_ifs with hpos
    · have hless : 0 ≤ c.numTxnToWait - 1 ∧ c.numTxnToWait - 1 ≤ c.totalTxnsEnqueued := by omega
      exact hless
    · exact ⟨hlo, hhi⟩
  | account threadNum txnRc txnDurationMs => exact ⟨hlo, hhi⟩
  | occupied user sys => exact ⟨hlo, hhi⟩
  | sampling => exact absurd rfl hev

/-- In every state of a run admission control waits for queued transactions only, exactly if at
every tick the queue length times the smoothed overload is below a hundred times one more than
it. -/
theorem wait_le_enqueued_iff (a : Settings n) (hbound : 0 < a.desiredDelayBoundMS)
    (hlo : 0 ≤ a.alpha) (hhi : a.alpha ≤ 1) (es : List (Event n m))
    (hes : ∀ ev ∈ es, ev.NonNegative) :
    (∀ es', es' <+: es → WaitsForQueued (run (a.initial m) es')) ↔
      ∀ es', es' ++ [.sampling] <+: es → TickInBounds a (load es') := by
  have htick : ∀ es', es' ++ [.sampling] <+: es →
      (WaitsForQueued (run (a.initial m) (es' ++ [.sampling])) ↔ TickInBounds a (load es')) := by
    intro es' hbegins
    have hmeasures := measures_run a hbound es' fun ev hev =>
      hes ev (hbegins.subset (List.mem_append_left _ hev))
    rw [run, List.foldl_append]
    exact hmeasures.sampling_waits_iff hbound hlo hhi
  constructor
  · intro h es' hbegins
    exact (htick es' hbegins).mp (h _ hbegins)
  · intro h es'
    induction es' using List.reverseRecOn with
    | nil =>
      intro _
      exact (waitsForQueued_iff _).mpr ⟨le_refl 0, le_refl 0⟩
    | append_singleton es' ev ih =>
      intro hbegins
      by_cases hev : ev = .sampling
      · subst hev
        exact (htick es' hbegins).mpr (h es' hbegins)
      · have hbefore := ih ((List.prefix_append es' [ev]).trans hbegins)
        rw [run, List.foldl_append]
        exact hbefore.step hev

/-- One transaction of 51 seconds against a bound of a second: with ten transactions in the
queues, the handlers are to wait for two. -/
theorem wait_le_enqueued_timely :
    let c := run ((⟨3, 1000, 1000, 0.4, fun i => i.elim0, 0⟩ : Settings 0).initial 1)
      [.account 0 0 51000, .occupied 6 4, .sampling]
    c.numTxnToWait = 2 ∧ c.totalTxnsEnqueued = 10 ∧ WaitsForQueued c := by
  intro c
  have hwait : c.numTxnToWait = 2 ∧ c.totalTxnsEnqueued = 10 := by decide +kernel
  refine ⟨hwait.1, hwait.2, ?_⟩
  refine (wait_le_enqueued_iff ⟨3, 1000, 1000, 0.4, fun i => i.elim0, 0⟩ (by norm_num) (by norm_num)
    (by norm_num)
    [.account 0 0 51000, .occupied 6 4, .sampling] ?_).mpr ?_ _ List.prefix_rfl
  · intro ev hev
    fin_cases hev <;> simp [Event.NonNegative]
  · intro es' hbegins
    rcases List.prefix_concat_iff.mp
      (show _ <+: [Event.account 0 0 51000, .occupied 6 4] ++ [.sampling] from hbegins)
      with heq | hbegins
    · obtain rfl := List.append_cancel_right heq
      intro _
      norm_num [load, Load.next, smoothedOverload, overload]
    · have hmem := hbegins.subset (List.mem_append_right es' (List.mem_singleton.mpr rfl))
      simp at hmem

/-- One transaction of a second against a bound of a millisecond: with one
transaction in the queue, the handlers are to wait for three. -/
theorem wait_exceeds_enqueued :
    let c := run ((⟨3, 1000, 1, 0.4, fun i => i.elim0, 0⟩ : Settings 0).initial 1)
      [.account 0 0 1000, .occupied 1 0, .sampling]
    c.numTxnToWait = 3 ∧ c.totalTxnsEnqueued = 1 ∧ ¬ WaitsForQueued c := by
  intro c
  have hwait : c.numTxnToWait = 3 ∧ c.totalTxnsEnqueued = 1 := by decide +kernel
  refine ⟨hwait.1, hwait.2, ?_⟩
  intro h
  have := h.le_total
  omega

end Chronos.Sampling
