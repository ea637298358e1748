import Chronos.Times

/-! # Sums and averages of times

`CHRONOS_TIME_ADD` and `CHRONOS_TIME_AVERAGE` of `chronos.h`, with the overflow of `long`
as a failure. The addition carries only what exceeds a second, so that a sum of whole
seconds made of fractions is left with a full second of nanoseconds.
-/
namespace Chronos

abbrev LONG_BOUND : ℤ := 2 ^ 63

/-- A `long`; its overflow is not defined. -/
def long (x : ℤ) : Option ℤ := if -LONG_BOUND ≤ x ∧ x < LONG_BOUND then some x else none

/-- `CHRONOS_TIME_ADD`. -/
def chronosTimeAdd (t1 t2 : ChronosTime) : Option ChronosTime := do
  let nsec ← long (t1.tvNsec + t2.tvNsec)
  let carried := if nsec > NSEC_TO_SEC then (nsec.tdiv NSEC_TO_SEC, nsec.tmod NSEC_TO_SEC)
    else (0, nsec)
  let sec ← long (t1.tvSec + t2.tvSec)
  return { tvSec := ← long (carried.1 + sec), tvNsec := carried.2 }

/-- `CHRONOS_TIME_AVERAGE`, which leaves `res` as it is for no times. -/
def chronosTimeAverage (sum : ChronosTime) (num : ℤ) (res : ChronosTime) : Option ChronosTime :=
  if num ≠ 0 then do
    let sec ← long (sum.tvSec.tdiv num)
    let mod ← long (NSEC_TO_SEC * sum.tvSec.tmod num)
    let nsecs ← long (mod + sum.tvNsec)
    let nsec ← long (nsecs.tdiv num)
    if nsec ≥ NSEC_TO_SEC then
      return { tvSec := ← long (sec + nsec.tdiv NSEC_TO_SEC), tvNsec := nsec.tmod NSEC_TO_SEC }
    else
      return { tvSec := sec, tvNsec := nsec }
  else some res

/-- `CHRONOS_TIME_CLEAR` and then one addition after another. -/
def sumTimes (ts : List ChronosTime) : Option ChronosTime :=
  ts.foldlM chronosTimeAdd { tvSec := 0, tvNsec := 0 }

def total (ts : List ChronosTime) : ℤ := (ts.map ChronosTime.nanoseconds).sum

/-- The sum after each addition and the average of the whole are normalized and exact. -/
structure SumsExactly (ts : List ChronosTime) : Prop where
  sums : ∀ pre, pre <+: ts → ∃ t, sumTimes pre = some t ∧ t.Normalized ∧ t.nanoseconds = total pre
  average : ∀ res, ∃ sum avg, sumTimes ts = some sum ∧
    chronosTimeAverage sum ts.length res = some avg ∧
    avg.Normalized ∧ avg.nanoseconds = total ts / ts.length

theorem long_eq_some {x : ℤ} (hnonneg : 0 ≤ x) (hlt : x < LONG_BOUND) : long x = some x :=
  if_pos ⟨by norm_num at *; omega, hlt⟩

theorem long_eq_none {x : ℤ} (h : LONG_BOUND ≤ x) : long x = none :=
  if_neg fun hx => absurd hx.2 (not_lt.mpr h)

theorem ChronosTime.Normalized.components {t : ChronosTime} (h : t.Normalized) :
    t.tvSec = t.nanoseconds / NSEC_TO_SEC ∧ t.tvNsec = t.nanoseconds % NSEC_TO_SEC := by
  obtain ⟨h₀, h₁⟩ := h
  unfold ChronosTime.nanoseconds
  simp only [NSEC_TO_SEC] at *
  omega

theorem total_snoc (ts : List ChronosTime) (t : ChronosTime) :
    total (ts ++ [t]) = total ts + t.nanoseconds := by
  simp [total]

theorem sumTimes_snoc (ts : List ChronosTime) (t : ChronosTime) :
    sumTimes (ts ++ [t]) = sumTimes ts >>= fun s => chronosTimeAdd s t := by
  rw [sumTimes, List.foldlM_append]
  exact congrArg _ (funext fun s => bind_pure _)

/-! ## The additions -/

/-- Exact, and normalized but for a full second of nanoseconds; none are left of whole
seconds only. -/
structure Summed (ts : List ChronosTime) (t : ChronosTime) : Prop where
  sec : 0 ≤ t.tvSec
  nsec : 0 ≤ t.tvNsec ∧ t.tvNsec ≤ NSEC_TO_SEC
  sum : t.nanoseconds = total ts
  whole : t.tvNsec = 0 ↔ ∀ u ∈ ts, u.tvNsec = 0

section Sums
variable {ts pre : List ChronosTime} {t u : ChronosTime}

theorem chronosTimeAdd_eq (ht : 0 ≤ t.tvSec) (htn : 0 ≤ t.tvNsec ∧ t.tvNsec ≤ NSEC_TO_SEC)
    (hu : u.Normalized) (husec : 0 ≤ u.tvSec)
    (hfits : t.nanoseconds + u.nanoseconds < LONG_BOUND * NSEC_TO_SEC) :
    ∃ carry, (carry = 0 ∧ t.tvNsec + u.tvNsec ≤ NSEC_TO_SEC ∨ carry = 1 ∧
      NSEC_TO_SEC < t.tvNsec + u.tvNsec) ∧
      chronosTimeAdd t u = some
        { tvSec := carry + (t.tvSec + u.tvSec),
          tvNsec := t.tvNsec + u.tvNsec - carry * NSEC_TO_SEC } := by
  obtain ⟨hu₀, hu₁⟩ := hu
  simp only [ChronosTime.nanoseconds, NSEC_TO_SEC, LONG_BOUND] at *
  have hnsec : long (t.tvNsec + u.tvNsec) = some (t.tvNsec + u.tvNsec) :=
    long_eq_some (by omega) (by norm_num; omega)
  have hsec : long (t.tvSec + u.tvSec) = some (t.tvSec + u.tvSec) :=
    long_eq_some (by omega) (by norm_num; omega)
  unfold chronosTimeAdd
  rw [hnsec, hsec]
  simp only [NSEC_TO_SEC, Option.bind_eq_bind, Option.bind_some]
  split_ifs with hcarry
  · have hdiv : (t.tvNsec + u.tvNsec).tdiv 1000000000 = 1 := by
      rw [Int.tdiv_eq_ediv_of_nonneg (by omega)]
      omega
    have hmod : (t.tvNsec + u.tvNsec).tmod 1000000000 = t.tvNsec + u.tvNsec - 1 * 1000000000 := by
      rw [Int.tmod_eq_emod_of_nonneg (by omega)]
      omega
    refine ⟨1, Or.inr ⟨rfl, hcarry⟩, ?_⟩
    simp only [hdiv, hmod]
    rw [long_eq_some (by omega) (by norm_num; omega)]
    rfl
  · refine ⟨0, Or.inl ⟨rfl, not_lt.mp hcarry⟩, ?_⟩
    simp only [Int.zero_add, Int.zero_mul, Int.sub_zero]
    rw [hsec]
    rfl

theorem Summed.snoc (h : Summed pre t) (hu : u.Normalized) (husec : 0 ≤ u.tvSec)
    (hfits : total (pre ++ [u]) < LONG_BOUND * NSEC_TO_SEC) :
    ∃ t', chronosTimeAdd t u = some t' ∧ Summed (pre ++ [u]) t' := by
  obtain ⟨hsec, hnsec, hsum, hwhole⟩ := h
  rw [total_snoc, ← hsum] at hfits
  obtain ⟨carry, hcarry, hadd⟩ := chronosTimeAdd_eq hsec hnsec hu husec hfits
  obtain ⟨hu₀, hu₁⟩ := hu
  have hall : (∀ v ∈ pre ++ [u], v.tvNsec = 0) ↔ t.tvNsec = 0 ∧ u.tvNsec = 0 := by
    rw [List.forall_mem_append, List.forall_mem_singleton, hwhole]
  refine ⟨_, hadd, ?_, ?_, ?_, ?_⟩
  · simp only
    omega
  · simp only [NSEC_TO_SEC] at *
    omega
  · rw [total_snoc, ← hsum]
    simp only [ChronosTime.nanoseconds]
    ring
  · rw [hall]
    simp only [NSEC_TO_SEC] at *
    omega

theorem Summed.nil : Summed [] { tvSec := 0, tvNsec := 0 } :=
  ⟨le_rfl, ⟨le_rfl, by norm_num⟩, rfl, iff_of_true rfl fun _ hu => absurd hu List.not_mem_nil⟩

theorem summed_sumTimes (hts : ∀ t ∈ ts, t.Normalized ∧ 0 ≤ t.tvSec)
    (hfits : total ts < LONG_BOUND * NSEC_TO_SEC) :
    ∃ t, sumTimes ts = some t ∧ Summed ts t := by
  induction ts using List.reverseRecOn with
  | nil => exact ⟨_, rfl, Summed.nil⟩
  | append_singleton ts u ih =>
    obtain ⟨hu, husec⟩ := hts u (List.mem_append_right _ (List.mem_singleton_self u))
    have hpos : 0 ≤ u.nanoseconds := add_nonneg (mul_nonneg husec (by norm_num)) hu.1
    have hle := total_snoc ts u
    obtain ⟨t, ht, hsummed⟩ := ih (fun v hv => hts v (List.mem_append_left _ hv)) (by omega)
    obtain ⟨t', ht', hsummed'⟩ := hsummed.snoc hu husec hfits
    refine ⟨t', ?_, hsummed'⟩
    rw [sumTimes_snoc, ht]
    exact ht'

theorem total_nonneg (hts : ∀ t ∈ ts, t.Normalized ∧ 0 ≤ t.tvSec) : 0 ≤ total ts := by
  refine List.sum_nonneg fun x hx => ?_
  obtain ⟨t, ht, rfl⟩ := List.mem_map.mp hx
  obtain ⟨hnormalized, hsec⟩ := hts t ht
  exact add_nonneg (mul_nonneg hsec (by norm_num)) hnormalized.1

theorem total_le_of_isPrefix (hts : ∀ t ∈ ts, t.Normalized ∧ 0 ≤ t.tvSec) (hpre : pre <+: ts) :
    total pre ≤ total ts := by
  obtain ⟨rest, rfl⟩ := hpre
  have hrest : 0 ≤ total rest := total_nonneg fun t ht => hts t (List.mem_append_right _ ht)
  have hsplit : total (pre ++ rest) = total pre + total rest := by
    rw [total, List.map_append, List.sum_append]
    rfl
  omega

/-- A sum is left with a full second of nanoseconds where fractions make whole seconds. -/
theorem Summed.normalized_iff (h : Summed ts t) :
    t.Normalized ↔ (NSEC_TO_SEC ∣ total ts → ∀ u ∈ ts, u.tvNsec = 0) := by
  obtain ⟨-, hnsec, hsum, hwhole⟩ := h
  rw [← hsum, ← hwhole]
  unfold ChronosTime.Normalized ChronosTime.nanoseconds
  simp only [NSEC_TO_SEC] at *
  omega

theorem sumTimes_normalized_iff (hts : ∀ t ∈ ts, t.Normalized ∧ 0 ≤ t.tvSec)
    (hfits : total ts < LONG_BOUND * NSEC_TO_SEC) :
    (∃ t, sumTimes ts = some t ∧ t.Normalized ∧ t.nanoseconds = total ts) ↔
      (NSEC_TO_SEC ∣ total ts → ∀ u ∈ ts, u.tvNsec = 0) := by
  obtain ⟨t, ht, hsummed⟩ := summed_sumTimes hts hfits
  rw [← hsummed.normalized_iff]
  constructor
  · rintro ⟨t', ht', hnormalized, -⟩
    obtain rfl := Option.some.inj (ht.symm.trans ht')
    exact hnormalized
  · intro hnormalized
    exact ⟨t, ht, hnormalized, hsummed.sum⟩

end Sums

/-! ## The average -/

section Average
variable {sum : ChronosTime} {num : ℤ}

theorem normalized_average (hsum : sum.Normalized) (hnum : 0 < num) : ChronosTime.Normalized
    { tvSec := sum.tvSec / num,
      tvNsec := (NSEC_TO_SEC * (sum.tvSec % num) + sum.tvNsec) / num } := by
  obtain ⟨hn₀, hn₁⟩ := hsum
  have hmod₀ : 0 ≤ sum.tvSec % num := Int.emod_nonneg _ hnum.ne'
  have hmod₁ : sum.tvSec % num < num := Int.emod_lt_of_pos _ hnum
  exact ⟨Int.ediv_nonneg (add_nonneg (mul_nonneg (by norm_num) hmod₀) hn₀) hnum.le,
    Int.ediv_lt_of_lt_mul hnum (by nlinarith)⟩

theorem chronosTimeAverage_eq (hsum : sum.Normalized)
    (hsec : 0 ≤ sum.tvSec ∧ sum.tvSec < LONG_BOUND) (hnum : 0 < num) (res : ChronosTime) :
    chronosTimeAverage sum num res =
      if NSEC_TO_SEC * (sum.tvSec % num) + sum.tvNsec < LONG_BOUND then
        some { tvSec := sum.tvSec / num, tvNsec :=
          (NSEC_TO_SEC * (sum.tvSec % num) + sum.tvNsec) / num }
      else none := by
  have hn₀ : 0 ≤ sum.tvNsec := hsum.1
  obtain ⟨hs₀, hs₁⟩ := hsec
  have hmod₀ : 0 ≤ sum.tvSec % num := Int.emod_nonneg _ hnum.ne'
  have hproduct : 0 ≤ NSEC_TO_SEC * (sum.tvSec % num) := mul_nonneg (by norm_num) hmod₀
  have hdiv₀ : 0 ≤ sum.tvSec / num := Int.ediv_nonneg hs₀ hnum.le
  have hdiv₁ : sum.tvSec / num ≤ sum.tvSec := Int.ediv_le_self _ hs₀
  have hquot : long (sum.tvSec.tdiv num) = some (sum.tvSec / num) := by
    rw [Int.tdiv_eq_ediv_of_nonneg hs₀]
    exact long_eq_some hdiv₀ (by omega)
  unfold chronosTimeAverage
  rw [if_pos hnum.ne', hquot, Int.tmod_eq_emod_of_nonneg hs₀]
  simp only [Option.bind_eq_bind, Option.bind_some]
  split_ifs with hfits
  · have hnonneg : 0 ≤ NSEC_TO_SEC * (sum.tvSec % num) + sum.tvNsec := by omega
    obtain ⟨hge, hlt⟩ := normalized_average hsum hnum
    rw [long_eq_some hproduct (by omega), Option.bind_some, long_eq_some hnonneg hfits,
      Option.bind_some,
      Int.tdiv_eq_ediv_of_nonneg hnonneg, long_eq_some hge (hlt.trans (by norm_num)),
        Option.bind_some,
      if_neg (not_le.mpr hlt)]
    rfl
  · by_cases hmul : NSEC_TO_SEC * (sum.tvSec % num) < LONG_BOUND
    · rw [long_eq_some hproduct hmul, Option.bind_some, long_eq_none (not_lt.mp hfits),
        Option.bind_none]
    · rw [long_eq_none (not_lt.mp hmul), Option.bind_none]

/-- Dividing the seconds first loses nothing. -/
theorem nanoseconds_average (sec nsec : ℤ) (hnum : 0 < num) :
    sec / num * NSEC_TO_SEC + (NSEC_TO_SEC * (sec % num) + nsec) / num =
      (sec * NSEC_TO_SEC + nsec) / num := by
  have hsplit : sec * NSEC_TO_SEC + nsec =
      NSEC_TO_SEC * (sec % num) + nsec + num * (sec / num * NSEC_TO_SEC) := by
    calc sec * NSEC_TO_SEC + nsec
        = (sec % num + num * (sec / num)) * NSEC_TO_SEC + nsec := by rw [Int.emod_add_mul_ediv]
      _ = _ := by ring
  rw [hsplit, Int.add_mul_ediv_left _ _ hnum.ne', Int.add_comm]

theorem average_iff (hsum : sum.Normalized) (hpos : 0 ≤ sum.nanoseconds)
    (hfits : sum.nanoseconds / NSEC_TO_SEC < LONG_BOUND) (hnum : 0 < num) (res : ChronosTime) :
    (∃ avg, chronosTimeAverage sum num res = some avg ∧ avg.Normalized ∧
      avg.nanoseconds = sum.nanoseconds / num) ↔
      NSEC_TO_SEC * (sum.nanoseconds / NSEC_TO_SEC % num) + sum.nanoseconds % NSEC_TO_SEC <
        LONG_BOUND := by
  obtain ⟨hsec, hnsec⟩ := hsum.components
  have hsec₀ : 0 ≤ sum.tvSec := by
    rw [hsec]
    exact Int.ediv_nonneg hpos (by norm_num)
  rw [← hsec] at hfits
  rw [← hsec, ← hnsec, chronosTimeAverage_eq hsum ⟨hsec₀, hfits⟩ hnum res]
  constructor
  · rintro ⟨avg, havg, -⟩
    by_contra hbig
    rw [if_neg hbig] at havg
    exact absurd havg nofun
  · intro hproduct
    exact ⟨_, if_pos hproduct, normalized_average hsum hnum,
      nanoseconds_average sum.tvSec sum.tvNsec hnum⟩

end Average

/-! ## Both together -/

/-- Sums and average are right if no first times with fractions add up to whole seconds
and the product that the average divides fits a `long`. -/
theorem sumsExactly_iff (ts : List ChronosTime) (hne : ts ≠ [])
    (hts : ∀ t ∈ ts, t.Normalized ∧ 0 ≤ t.tvSec) (hfits : total ts / NSEC_TO_SEC < LONG_BOUND) :
    SumsExactly ts ↔ (∀ pre, pre <+: ts → NSEC_TO_SEC ∣ total pre → ∀ t ∈ pre, t.tvNsec = 0) ∧
      NSEC_TO_SEC * (total ts / NSEC_TO_SEC % ts.length) + total ts % NSEC_TO_SEC < LONG_BOUND := by
  have hlt : total ts < LONG_BOUND * NSEC_TO_SEC := Int.lt_mul_of_ediv_lt (by norm_num) hfits
  have hnum : (0 : ℤ) < ts.length := Int.natCast_pos.mpr (List.length_pos_of_ne_nil hne)
  have hpos : 0 ≤ total ts := total_nonneg hts
  have hsums : (∀ pre, pre <+: ts → ∃ t, sumTimes pre = some t ∧ t.Normalized ∧
    t.nanoseconds = total pre) ↔
      ∀ pre, pre <+: ts → NSEC_TO_SEC ∣ total pre → ∀ t ∈ pre, t.tvNsec = 0 :=
    forall₂_congr fun pre hpre => sumTimes_normalized_iff (fun t ht => hts t (hpre.subset ht))
      (lt_of_le_of_lt (total_le_of_isPrefix hts hpre) hlt)
  constructor
  · rintro ⟨hright, haverage⟩
    obtain ⟨sum, hsum, hnormalized, hexact⟩ := hright ts List.prefix_rfl
    obtain ⟨sum', avg, hsum', havg⟩ := haverage sum
    obtain rfl := Option.some.inj (hsum.symm.trans hsum')
    rw [← hexact] at hpos hfits havg ⊢
    exact ⟨hsums.mp hright, (average_iff hnormalized hpos hfits hnum sum).mp ⟨avg, havg⟩⟩
  · rintro ⟨hcarry, hproduct⟩
    have hright := hsums.mpr hcarry
    refine ⟨hright, fun res => ?_⟩
    obtain ⟨sum, hsum, hnormalized, hexact⟩ := hright ts List.prefix_rfl
    rw [← hexact] at hpos hfits hproduct ⊢
    obtain ⟨avg, havg⟩ := (average_iff hnormalized hpos hfits hnum res).mpr hproduct
    exact ⟨sum, avg, hsum, havg⟩

/-- That product fits where the whole sum fits in nanoseconds. -/
theorem average_product_fits (ts : List ChronosTime) (hts : ∀ t ∈ ts, t.Normalized ∧ 0 ≤ t.tvSec)
    (hfits : total ts < LONG_BOUND) :
    NSEC_TO_SEC * (total ts / NSEC_TO_SEC % ts.length) + total ts % NSEC_TO_SEC < LONG_BOUND := by
  have hsec : 0 ≤ total ts / NSEC_TO_SEC := Int.ediv_nonneg (total_nonneg hts) (by norm_num)
  have hmod : total ts / NSEC_TO_SEC % ts.length ≤ total ts / NSEC_TO_SEC := by
    have hquot : 0 ≤ (ts.length : ℤ) * (total ts / NSEC_TO_SEC / ts.length) :=
      mul_nonneg (Int.natCast_nonneg _) (Int.ediv_nonneg hsec (Int.natCast_nonneg _))
    rw [Int.emod_def]
    omega
  have hsplit := Int.mul_ediv_add_emod (total ts) NSEC_TO_SEC
  simp only [NSEC_TO_SEC] at *
  omega

def halfSeconds : List ChronosTime := List.replicate 2 { tvSec := 0, tvNsec := 500000000 }

/-- Two half seconds are no second, but a billion nanoseconds. -/
theorem halfSeconds_not_carried :
    halfSeconds ≠ [] ∧ (∀ t ∈ halfSeconds, t.Normalized ∧ 0 ≤ t.tvSec) ∧
      total halfSeconds = NSEC_TO_SEC ∧
      sumTimes halfSeconds = some { tvSec := 0, tvNsec := 1000000000 } ∧
        ¬ SumsExactly halfSeconds := by
  have hsum : sumTimes halfSeconds = some { tvSec := 0, tvNsec := 1000000000 } := by decide
  refine ⟨by decide, ?_, by decide, hsum, fun h => ?_⟩
  · intro t ht
    obtain rfl := List.eq_of_mem_replicate ht
    exact ⟨⟨by norm_num, by norm_num⟩, le_rfl⟩
  · obtain ⟨t, ht, hnormalized, -⟩ := h.sums halfSeconds List.prefix_rfl
    obtain rfl := Option.some.inj (hsum.symm.trans ht)
    exact absurd hnormalized.2 (by norm_num)

def moreSeconds : List ChronosTime :=
  [{ tvSec := 1, tvNsec := 600000000 }, { tvSec := 2, tvNsec := 500000000 }]

theorem sumsExactly_moreSeconds : SumsExactly moreSeconds := by
  refine (sumsExactly_iff moreSeconds (by decide) ?_ (by decide)).mpr ⟨fun pre hpre => ?_,
    by decide⟩
  · intro t ht
    simp only [moreSeconds, List.mem_cons, List.not_mem_nil, or_false] at ht
    rcases ht with rfl | rfl
    · exact ⟨⟨by norm_num, by norm_num⟩, by norm_num⟩
    · exact ⟨⟨by norm_num, by norm_num⟩, by norm_num⟩
  · have hinits := (List.mem_inits _ _).mpr hpre
    simp only [moreSeconds, List.inits, List.map_cons, List.map_nil, List.mem_cons,
      List.not_mem_nil, or_false] at hinits
    rcases hinits with rfl | rfl | rfl
    · exact fun _ t ht => absurd ht List.not_mem_nil
    · exact fun hdvd => absurd hdvd (by decide)
    · exact fun hdvd => absurd hdvd (by decide)

end Chronos
