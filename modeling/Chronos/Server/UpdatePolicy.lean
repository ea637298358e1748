import Chronos.Server.Sampling

/-! # The adaptive update policy over a run

No access is ever counted towards `accessUpdateRatio`, so every data item is cold
at every tick. From the lower limit its period grows for seven ticks; the eighth
finds it at the top and leaves in the reused slot what was there five ticks before.
-/
namespace Chronos.Sampling
open Foundation
variable {n m : ℕ}

/-! ## What the events leave alone -/

/-- Two contexts whose limits, slots, ratios and periods agree. -/
structure SamePeriods (c c' : ServerContext n m) : Prop where
  mode : c'.runningMode = c.runningMode
  lower : c'.minUpdatePeriodMS = c.minUpdatePeriodMS
  upper : c'.maxUpdatePeriodMS = c.maxUpdatePeriodMS
  slot : c'.currentSlot = c.currentSlot
  ratio : ∀ i, (c'.dataItemsArray i).accessUpdateRatio = (c.dataItemsArray i).accessUpdateRatio
  period : ∀ i, (c'.dataItemsArray i).updatePeriodMS = (c.dataItemsArray i).updatePeriodMS

theorem SamePeriods.refl (c : ServerContext n m) : SamePeriods c c :=
  ⟨rfl, rfl, rfl, rfl, fun _ => rfl, fun _ => rfl⟩

theorem SamePeriods.trans {c c' c'' : ServerContext n m} (h : SamePeriods c c')
    (h' : SamePeriods c' c'') : SamePeriods c c'' where
  mode := h'.mode.trans h.mode
  lower := h'.lower.trans h.lower
  upper := h'.upper.trans h.upper
  slot := h'.slot.trans h.slot
  ratio i := (h'.ratio i).trans (h.ratio i)
  period i := (h'.period i).trans (h.period i)

theorem modifyItem_samePeriods (c : ServerContext n m) (i : Fin n)
    (f : ChronosDataItem → ChronosDataItem)
    (hratio : ∀ d, (f d).accessUpdateRatio = d.accessUpdateRatio)
    (hperiod : ∀ d, (f d).updatePeriodMS = d.updatePeriodMS) :
    SamePeriods c (c.modifyItem i f) where
  mode := rfl
  lower := rfl
  upper := rfl
  slot := rfl
  ratio k := by
    by_cases hk : k = i
    · subst hk
      simp only [ServerContext.modifyItem, Function.update_self, hratio]
    · simp only [ServerContext.modifyItem, Function.update_of_ne hk]
  period k := by
    by_cases hk : k = i
    · subst hk
      simp only [ServerContext.modifyItem, Function.update_self, hperiod]
    · simp only [ServerContext.modifyItem, Function.update_of_ne hk]

theorem dispatchTableFn_samePeriods (c : ServerContext n m) (symbolIds : List (Fin n)) :
    SamePeriods c (dispatchTableFn c symbolIds) := by
  unfold dispatchTableFn
  induction symbolIds generalizing c with
  | nil => exact SamePeriods.refl c
  | cons i is ih =>
    have hi : SamePeriods c (c.bumpUpdateFrequency i) :=
      modifyItem_samePeriods c i _ (fun _ => rfl) fun _ => rfl
    exact hi.trans (ih _)

theorem step_samePeriods (c : ServerContext n m) {ev : Event n m} (hev : ev ≠ .sampling) :
    SamePeriods c (step c ev) := by
  cases ev with
  | viewStock symbolIds => exact dispatchTableFn_samePeriods c symbolIds
  | refresh i t =>
    simp only [step, updateThread]
    apply modifyItem_samePeriods <;> exact fun _ => rfl
  | transactionDone =>
    simp only [step, transactionDone]
    split
    · exact ⟨rfl, rfl, rfl, rfl, fun _ => rfl, fun _ => rfl⟩
    · exact SamePeriods.refl c
  | account threadNum txnRc txnDurationMs => exact ⟨rfl, rfl, rfl, rfl, fun _ => rfl, fun _ => rfl⟩
  | occupied user sys => exact ⟨rfl, rfl, rfl, rfl, fun _ => rfl, fun _ => rfl⟩
  | sampling => exact absurd rfl hev

/-! ## The ratio of a tick -/

/-- The ratio that the next tick computes for a data item and compares with 1. -/
def ratioAtTick (c : ServerContext n m) (i : Fin n) : ℚ :=
  ((handlerSampling c).dataItemsArray i).accessUpdateRatio c.currentSlot

/-- No access has been counted for any data item. -/
def NoAccessCounted (c : ServerContext n m) : Prop :=
  ∀ i k, (c.dataItemsArray i).accessUpdateRatio k = 0

theorem ratioAtTick_eq_zero {c : ServerContext n m} (hc : NoAccessCounted c) (i : Fin n) :
    ratioAtTick c i = 0 := by
  simp only [ratioAtTick, handlerSampling, sampleItem, Function.update_self, hc i, zero_div]

theorem step_noAccessCounted {c : ServerContext n m} (hc : NoAccessCounted c) (ev : Event n m) :
    NoAccessCounted (step c ev) := by
  by_cases hev : ev = .sampling
  · subst hev
    intro i k
    by_cases hk : k = c.currentSlot
    · rw [hk]
      exact ratioAtTick_eq_zero hc i
    · simp only [step, handlerSampling, sampleItem, Function.update_of_ne hk, hc i]
  · intro i k
    rw [(step_samePeriods c hev).ratio i]
    exact hc i k

theorem run_noAccessCounted (a : Settings n) (es : List (Event n m)) :
    NoAccessCounted (run (a.initial m) es) :=
  List.foldlRecOn es step (motive := NoAccessCounted) (fun _ _ => rfl)
    fun _ hc ev _ => step_noAccessCounted hc ev

/-! ## The closing period -/

/-- How often the event accesses data item `i`. -/
def Event.accesses (i : Fin n) : Event n m → ℕ
  | .viewStock symbolIds => symbolIds.count i
  | _ => 0

def Event.refreshes (i : Fin n) : Event n m → ℕ
  | .refresh j _ => if j = i then 1 else 0
  | _ => 0

/-- Accesses by refreshes, where no refresh counts as a tenth. -/
def measuredRatio (i : Fin n) (es : List (Event n m)) : ℚ :=
  let accesses : ℕ := (es.map (Event.accesses i)).sum
  let refreshes : ℕ := (es.map (Event.refreshes i)).sum
  accesses / (if refreshes = 0 then 0.1 else (refreshes : ℚ))

theorem measuredRatio_eq_zero_iff (i : Fin n) (es : List (Event n m)) :
    measuredRatio i es = 0 ↔ (es.map (Event.accesses i)).sum = 0 := by
  have hden : (if (es.map (Event.refreshes i)).sum = 0 then (0.1 : ℚ)
      else (((es.map (Event.refreshes i)).sum : ℕ) : ℚ)) ≠ 0 := by
    split
    · norm_num
    · exact_mod_cast ‹_›
  rw [measuredRatio, div_eq_zero_iff, or_iff_left hden, Nat.cast_eq_zero]

/-- A tick computes the ratio of the period it closes exactly for the data items
that nobody accessed in that period. -/
theorem ratioAtTick_eq_measured_iff (a : Settings n) (es : List (Event n m)) (i : Fin n) :
    ratioAtTick (run (a.initial m) es) i = measuredRatio i (sinceTick es) ↔
      ((sinceTick es).map (Event.accesses i)).sum = 0 := by
  rw [ratioAtTick_eq_zero (run_noAccessCounted a es), eq_comm, measuredRatio_eq_zero_iff]

/-- One VIEW_STOCK of the only data item before the first tick: ten accesses per
refresh were made, and none is measured. -/
theorem ratioAtTick_misses_access :
    let a : Settings 1 := ⟨CHRONOS_MODE_FULL, 1000, 1000, 0.5, fun _ => [], 0⟩
    let es : List (Event 1 1) := [.viewStock [0]]
    ratioAtTick (run (a.initial 1) es) 0 = 0 ∧ measuredRatio 0 (sinceTick es) = 10 := by
  refine ⟨ratioAtTick_eq_zero (run_noAccessCounted _ _) _, ?_⟩
  have hperiod : sinceTick [(.viewStock [0] : Event 1 1)] = [.viewStock [0]] := by decide
  norm_num [measuredRatio, hperiod, Event.accesses, Event.refreshes]

/-! ## The periods -/

def ticks (es : List (Event n m)) : ℕ := es.count .sampling

theorem ticks_append (es : List (Event n m)) (ev : Event n m) :
    ticks (es ++ [ev]) = ticks es + if ev = .sampling then 1 else 0 := by
  by_cases hev : ev = .sampling <;> simp [ticks, hev]

/-- The slot that the `k`-th tick fills. -/
def slotOf (k : ℕ) : Slot := Fin.ofNat _ k

theorem slotOf_succ (k : ℕ) : slotOf (k + 1) = slotOf k + 1 := by
  simp [slotOf, Fin.ext_iff, Fin.val_add]

theorem slotOf_eq_iff {j k : ℕ} : slotOf j = slotOf k ↔ j % 5 = k % 5 := by
  simp [slotOf, Fin.ext_iff]

/-- After `t` ticks, slot `j mod 5` holds the `j`-th power of 1.1 for the last five
powers up to the seventh. -/
structure Grown (a : Settings n) (t : ℕ) (c : ServerContext n m) : Prop where
  mode : c.runningMode = a.runningMode
  lower : c.minUpdatePeriodMS = a.minUpdatePeriodMS
  upper : c.maxUpdatePeriodMS = a.maxUpdatePeriodMS
  slot : c.currentSlot = slotOf t
  period : ∀ i j, j ≤ min t 7 → min t 7 < j + 5 →
    (c.dataItemsArray i).updatePeriodMS (slotOf j) = a.minUpdatePeriodMS * 1.1 ^ j

theorem Grown.congr {a : Settings n} {t : ℕ} {c c' : ServerContext n m} (hc : Grown a t c)
    (h : SamePeriods c c') : Grown a t c' where
  mode := h.mode.trans hc.mode
  lower := h.lower.trans hc.lower
  upper := h.upper.trans hc.upper
  slot := h.slot.trans hc.slot
  period i j hj hj' := (congrFun (h.period i) _).trans (hc.period i j hj hj')

def exponent (t : ℕ) : ℕ := if t < 3 then t else 3 + (t - 3) % 5

theorem exponent_spec (t : ℕ) : exponent t ≤ min t 7 ∧ min t 7 < exponent t + 5 ∧
    slotOf (exponent t) = slotOf t := by
  rw [slotOf_eq_iff]
  unfold exponent
  split <;> refine ⟨?_, ?_, ?_⟩ <;> omega

theorem exponent_le (t : ℕ) : exponent t ≤ 7 := (exponent_spec t).1.trans (min_le_right _ _)

/-- The eighth tick and every fifth one after it start from the highest power. -/
theorem exponent_eq_iff (t : ℕ) : exponent t = 7 ↔ 7 ≤ t ∧ t % 5 = 2 := by
  unfold exponent
  split <;> omega

theorem Grown.current {a : Settings n} {t : ℕ} {c : ServerContext n m} (hc : Grown a t c)
    (i : Fin n) :
    (c.dataItemsArray i).updatePeriodMS c.currentSlot = a.minUpdatePeriodMS * 1.1 ^ exponent t := by
  obtain ⟨hle, hlt, hslot⟩ := exponent_spec t
  rw [hc.slot, ← hslot]
  exact hc.period i _ hle hlt

theorem grown_initial (a : Settings n) : Grown a 0 (a.initial m) where
  mode := rfl
  lower := rfl
  upper := rfl
  slot := rfl
  period i j hj _ := by
    obtain rfl : j = 0 := by omega
    simp [Settings.initial, Settings.dataItem, slotOf]

theorem pow_le_two_iff (k : ℕ) : (1.1 : ℚ) ^ k ≤ 2 ↔ k ≤ 7 := by
  constructor
  · intro h
    by_contra hk
    have hmono : (1.1 : ℚ) ^ 8 ≤ 1.1 ^ k := pow_le_pow_right₀ (by norm_num) (by omega)
    have height : (2 : ℚ) < 1.1 ^ 8 := by norm_num
    linarith
  · intro hk
    calc (1.1 : ℚ) ^ k ≤ 1.1 ^ 7 := pow_le_pow_right₀ (by norm_num) hk
      _ ≤ 2 := by norm_num

def AdaptsPeriods (runningMode : ℤ) : Prop :=
  runningMode = CHRONOS_MODE_FULL ∨ runningMode = CHRONOS_MODE_AUP

section Ticks
variable {a : Settings n} {t : ℕ} {c : ServerContext n m}

theorem Settings.maxUpdatePeriodMS_eq (a : Settings n) :
    a.maxUpdatePeriodMS = a.minUpdatePeriodMS * 2 := by
  simp only [maxUpdatePeriodMS, minUpdatePeriodMS]
  push_cast
  ring

theorem Settings.minUpdatePeriodMS_pos (hv : 0 < a.initialValidityIntervalMS) :
    0 < a.minUpdatePeriodMS := by
  unfold minUpdatePeriodMS
  linarith

/-- Every tick takes the branch of a cold data item. -/
theorem sampled_period (hc : NoAccessCounted c) (hmode : AdaptsPeriods c.runningMode) (i : Fin n) :
    ((handlerSampling c).dataItemsArray i).updatePeriodMS =
      if (c.dataItemsArray i).updatePeriodMS c.currentSlot * 1.1 ≤ c.maxUpdatePeriodMS
      then Function.update (c.dataItemsArray i).updatePeriodMS (c.currentSlot + 1)
        ((c.dataItemsArray i).updatePeriodMS c.currentSlot * 1.1)
      else (c.dataItemsArray i).updatePeriodMS := by
  have hmode' : c.runningMode = CHRONOS_MODE_FULL ∨ c.runningMode = CHRONOS_MODE_AUP := hmode
  simp only [handlerSampling, sampleItem, hc i, zero_div, if_pos hmode', zero_lt_one, if_true]

theorem Grown.grows_iff (hg : Grown a t c) (hv : 0 < a.initialValidityIntervalMS) (i : Fin n) :
    (c.dataItemsArray i).updatePeriodMS c.currentSlot * 1.1 ≤ c.maxUpdatePeriodMS ↔
      exponent t < 7 := by
  rw [hg.current i, hg.upper, a.maxUpdatePeriodMS_eq, mul_assoc, ← pow_succ,
    mul_le_mul_iff_right₀ (Settings.minUpdatePeriodMS_pos hv), pow_le_two_iff]
  omega

theorem Grown.sampled (hg : Grown a t c) (hc : NoAccessCounted c)
    (hv : 0 < a.initialValidityIntervalMS) (hmode : AdaptsPeriods a.runningMode) :
    Grown a (t + 1) (handlerSampling c) where
  mode := hg.mode
  lower := hg.lower
  upper := hg.upper
  slot := by rw [slotOf_succ, ← hg.slot]; rfl
  period i j hj hj' := by
    obtain ⟨hle, hlt, hslot⟩ := exponent_spec t
    rw [slotOf_eq_iff] at hslot
    rw [sampled_period hc (hg.mode ▸ hmode)]
    by_cases hgrow : exponent t < 7
    · rw [if_pos ((hg.grows_iff hv i).mpr hgrow), hg.current i, hg.slot, ← slotOf_succ]
      by_cases hs : slotOf j = slotOf (t + 1)
      · rw [hs, Function.update_self]
        rw [slotOf_eq_iff] at hs
        obtain rfl : j = exponent t + 1 := by omega
        rw [pow_succ]
        ring
      · rw [Function.update_of_ne hs]
        rw [slotOf_eq_iff] at hs
        have hjt : j ≠ t + 1 := by rintro rfl; exact hs rfl
        exact hg.period i j (by omega) (by omega)
    · rw [if_neg (mt (hg.grows_iff hv i).mp hgrow)]
      exact hg.period i j (by omega) (by omega)

end Ticks

theorem run_grown (a : Settings n) (hv : 0 < a.initialValidityIntervalMS)
    (hmode : AdaptsPeriods a.runningMode) (es : List (Event n m)) :
    NoAccessCounted (run (a.initial m) es) ∧
      Grown a (ticks es) (run (a.initial m) es) := by
  refine foldl_history (P := fun es c => NoAccessCounted c ∧ Grown a (ticks es) c)
    ⟨fun _ _ => rfl, grown_initial a⟩ ?_ es
  rintro es c ev ⟨hc, hg⟩
  refine ⟨step_noAccessCounted hc ev, ?_⟩
  rw [ticks_append]
  by_cases hev : ev = .sampling
  · subst hev
    exact hg.sampled hc hv hmode
  · rw [if_neg hev, add_zero]
    exact hg.congr (step_samePeriods c hev)

/-! ## What a tick carries forward -/

def currentPeriod (c : ServerContext n m) (i : Fin n) : ℚ :=
  (c.dataItemsArray i).updatePeriodMS c.currentSlot

def policyPeriod (c : ServerContext n m) (i : Fin n) : ℚ :=
  if ratioAtTick c i < 1 ∧ currentPeriod c i * 1.1 ≤ c.maxUpdatePeriodMS then
    currentPeriod c i * 1.1
  else if ratioAtTick c i > 1 ∧ currentPeriod c i * 0.9 ≥ c.minUpdatePeriodMS then
    currentPeriod c i * 0.9
  else currentPeriod c i

/-- The next tick follows the policy, and shrinks no period of a cold data item. -/
structure CarriesForward (c : ServerContext n m) (i : Fin n) : Prop where
  policy : currentPeriod (handlerSampling c) i = policyPeriod c i
  cold : ratioAtTick c i < 1 → currentPeriod c i ≤ currentPeriod (handlerSampling c) i

section Ticks
variable {a : Settings n} {t : ℕ} {c : ServerContext n m}

theorem Grown.bounded (hg : Grown a t c) (hv : 0 < a.initialValidityIntervalMS) (i : Fin n) :
    c.minUpdatePeriodMS ≤ currentPeriod c i ∧ currentPeriod c i ≤ c.maxUpdatePeriodMS := by
  have hpos := Settings.minUpdatePeriodMS_pos hv
  rw [currentPeriod, hg.current i, hg.lower, hg.upper, a.maxUpdatePeriodMS_eq]
  refine ⟨?_, mul_le_mul_of_nonneg_left ((pow_le_two_iff _).mpr (exponent_le t)) hpos.le⟩
  exact le_mul_of_one_le_right hpos.le (one_le_pow₀ (by norm_num))

theorem Grown.carriesForward_iff (hg : Grown a t c) (hc : NoAccessCounted c)
    (hv : 0 < a.initialValidityIntervalMS) (hmode : AdaptsPeriods a.runningMode) (i : Fin n) :
    CarriesForward c i ↔ exponent t < 7 := by
  have hpos := Settings.minUpdatePeriodMS_pos hv
  have hratio : ratioAtTick c i = 0 := ratioAtTick_eq_zero hc i
  have hnext := (hg.sampled hc hv hmode).current i
  have hexp := exponent_spec (t + 1)
  have hcur : currentPeriod c i = a.minUpdatePeriodMS * 1.1 ^ exponent t := hg.current i
  have hgrow : currentPeriod c i * 1.1 ≤ c.maxUpdatePeriodMS ↔ exponent t < 7 := hg.grows_iff hv i
  change currentPeriod (handlerSampling c) i = _ at hnext
  have hpolicy : policyPeriod c i = if exponent t < 7 then currentPeriod c i * 1.1
    else currentPeriod c i := by
    simp only [policyPeriod, hratio, zero_lt_one, true_and, hgrow, gt_iff_lt,
      not_lt.mpr zero_le_one, false_and, if_false]
  constructor
  · intro h
    by_contra hlt
    have hseven : exponent t = 7 := by have := exponent_le t; omega
    have hthree : exponent (t + 1) = 3 := by
      have hmod := (exponent_eq_iff t).mp hseven
      unfold exponent
      split <;> omega
    have hcold := h.cold (by rw [hratio]; exact zero_lt_one)
    rw [hcur, hnext, hseven, hthree, mul_le_mul_iff_right₀ hpos] at hcold
    norm_num at hcold
  · intro hlt
    have hsucc : exponent (t + 1) = exponent t + 1 := by
      unfold exponent at hlt ⊢
      split at hlt <;> split <;> omega
    have hnext' : currentPeriod (handlerSampling c) i = currentPeriod c i * 1.1 := by
      rw [hnext, hcur, hsucc, pow_succ]
      ring
    refine ⟨by rw [hnext', hpolicy, if_pos hlt], fun _ => ?_⟩
    rw [hnext', hcur]
    exact le_mul_of_one_le_right (by positivity) (by norm_num)

end Ticks

/-- The periods always stay within their limits; the tick after `t` ticks carries
them forward exactly if it is not the eighth, the thirteenth, and so on. -/
theorem period_carried_iff (a : Settings n) (hv : 0 < a.initialValidityIntervalMS)
    (hmode : AdaptsPeriods a.runningMode) (es : List (Event n m)) (i : Fin n) :
    let c := run (a.initial m) es
    (c.minUpdatePeriodMS ≤ currentPeriod c i ∧ currentPeriod c i ≤ c.maxUpdatePeriodMS) ∧
      (CarriesForward c i ↔ ticks es < 7 ∨ ticks es % 5 ≠ 2) := by
  intro c
  obtain ⟨hc, hg⟩ := run_grown a hv hmode es
  refine ⟨hg.bounded hv i, ?_⟩
  rw [hg.carriesForward_iff hc hv hmode i]
  have hle := exponent_le (ticks es)
  have hiff := exponent_eq_iff (ticks es)
  omega

theorem period_carried_iff_default :
    CarriesForward (run (Settings.initial ⟨CHRONOS_MODE_FULL, 1000, 1000, 0.5, fun _ => [], 0⟩ 1)
      (List.replicate 6 .sampling : List (Event 1 1))) 0 :=
  (period_carried_iff ⟨CHRONOS_MODE_FULL, 1000, 1000, 0.5, fun _ => [], 0⟩ (by norm_num)
    (Or.inl rfl)
    (List.replicate 6 .sampling) 0).2.mpr (Or.inl (by simp [ticks]))

/-- With the default interval of a second, the eighth tick takes the period of a
cold data item from 974.35855 ms back to 665.5 ms. -/
theorem eighth_tick_shrinks :
    let c := run (Settings.initial ⟨CHRONOS_MODE_FULL, 1000, 1000, 0.5, fun _ => [], 0⟩ 1)
      (List.replicate 7 .sampling : List (Event 1 1))
    ratioAtTick c 0 = 0 ∧ currentPeriod c 0 = 974.35855 ∧
      currentPeriod (handlerSampling c) 0 = 665.5 ∧
      ¬ CarriesForward c 0 := by
  intro c
  have hv : (0 : ℚ) < 1000 := by norm_num
  obtain ⟨hc, hg⟩ := run_grown (m := 1) ⟨CHRONOS_MODE_FULL, 1000, 1000, 0.5, fun _ => [], 0⟩ hv
    (Or.inl rfl)
    (List.replicate 7 .sampling)
  have hcur : currentPeriod c 0 = 974.35855 := by
    refine (hg.current 0).trans ?_
    norm_num [exponent, ticks, Settings.minUpdatePeriodMS]
  have hnext : currentPeriod (handlerSampling c) 0 = 665.5 := by
    refine ((hg.sampled hc hv (Or.inl rfl)).current 0).trans ?_
    norm_num [exponent, ticks, Settings.minUpdatePeriodMS]
  refine ⟨ratioAtTick_eq_zero hc 0, hcur, hnext, fun h => ?_⟩
  have hcold := h.cold (by rw [ratioAtTick_eq_zero hc 0]; exact zero_lt_one)
  rw [hcur, hnext] at hcold
  norm_num at hcold

end Chronos.Sampling
