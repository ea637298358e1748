import Chronos.Config

/-! # Times

The macros of `chronos.h` on `struct timespec`. Seconds are not bounded: the code is
about times whose sums and differences fit 64 bits.
-/
namespace Chronos

abbrev NSEC_TO_SEC : ℤ := 1000000000
abbrev SEC_TO_MSEC : ℤ := 1000
abbrev NSEC_TO_MSEC : ℤ := 1000000

/-- `_to` and `_tf` of `CHRONOS_TIME_NANO_OFFSET_GET`: a second is borrowed from the later of two
times whose components are in opposite orders. -/
def borrowed (begin_ end_ : ChronosTime) : ChronosTime × ChronosTime :=
  if end_.tvSec > begin_.tvSec ∧ end_.tvNsec < begin_.tvNsec then
    (begin_, { tvSec := end_.tvSec - 1, tvNsec := end_.tvNsec + NSEC_TO_SEC })
  else if end_.tvSec < begin_.tvSec ∧ end_.tvNsec > begin_.tvNsec then
    ({ tvSec := begin_.tvSec - 1, tvNsec := begin_.tvNsec + NSEC_TO_SEC }, end_)
  else (begin_, end_)

/-- `CHRONOS_TIME_NANO_OFFSET_GET`. -/
def chronosTimeNanoOffsetGet (begin_ end_ : ChronosTime) : ChronosTime where
  tvSec := (borrowed begin_ end_).2.tvSec - (borrowed begin_ end_).1.tvSec
  tvNsec := (borrowed begin_ end_).2.tvNsec - (borrowed begin_ end_).1.tvNsec

/-- `CHRONOS_TIME_TO_MS`. -/
def chronosTimeToMs (time : ChronosTime) : ℤ :=
  time.tvSec * SEC_TO_MSEC + time.tvNsec.tdiv NSEC_TO_MSEC

namespace ChronosTime

/-- As `clock_gettime` returns it. -/
def Normalized (t : ChronosTime) : Prop := 0 ≤ t.tvNsec ∧ t.tvNsec < NSEC_TO_SEC

def nanoseconds (t : ChronosTime) : ℤ := t.tvSec * NSEC_TO_SEC + t.tvNsec

/-- Less than a second in `tv_nsec`, and no component against the other. -/
structure Aligned (t : ChronosTime) : Prop where
  short : |t.tvNsec| < NSEC_TO_SEC
  sign : 0 ≤ t.tvSec ∧ 0 ≤ t.tvNsec ∨ t.tvSec ≤ 0 ∧ t.tvNsec ≤ 0

end ChronosTime

variable {b e : ChronosTime}

theorem nanoseconds_offset : (chronosTimeNanoOffsetGet b e).nanoseconds =
    e.nanoseconds - b.nanoseconds := by
  unfold chronosTimeNanoOffsetGet borrowed ChronosTime.nanoseconds
  split_ifs
  · simp only
    ring
  · simp only
    ring
  · simp only
    ring

/-- The branch that borrows is chosen by the order of both components. -/
theorem aligned_offset (hb : b.Normalized) (he : e.Normalized) :
    (chronosTimeNanoOffsetGet b e).Aligned := by
  obtain ⟨hb₀, hb₁⟩ := hb
  obtain ⟨he₀, he₁⟩ := he
  simp only [NSEC_TO_SEC] at hb₁ he₁
  unfold chronosTimeNanoOffsetGet borrowed
  split_ifs with h h'
  · refine ⟨abs_lt.mpr ?_, .inl ?_⟩
    · simp only [NSEC_TO_SEC]
      omega
    · simp only [NSEC_TO_SEC]
      omega
  · refine ⟨abs_lt.mpr ?_, .inr ?_⟩
    · simp only [NSEC_TO_SEC]
      omega
    · simp only [NSEC_TO_SEC]
      omega
  · refine ⟨abs_lt.mpr ?_, ?_⟩
    · simp only [NSEC_TO_SEC]
      omega
    · simp only
      omega

theorem toMs_of_aligned {t : ChronosTime} (h : t.Aligned) :
    chronosTimeToMs t = t.nanoseconds.tdiv NSEC_TO_MSEC := by
  have hpos : ∀ sec nsec : ℤ, 0 ≤ sec → 0 ≤ nsec →
      sec * SEC_TO_MSEC + nsec.tdiv NSEC_TO_MSEC =
        (sec * NSEC_TO_SEC + nsec).tdiv NSEC_TO_MSEC := by
    intro sec nsec hsec hnsec
    simp only [SEC_TO_MSEC, NSEC_TO_MSEC, NSEC_TO_SEC]
    rw [Int.tdiv_eq_ediv_of_nonneg hnsec, Int.tdiv_eq_ediv_of_nonneg (by omega)]
    omega
  unfold chronosTimeToMs ChronosTime.nanoseconds
  rcases h.sign with ⟨hsec, hnsec⟩ | ⟨hsec, hnsec⟩
  · exact hpos _ _ hsec hnsec
  · have hneg := hpos (-t.tvSec) (-t.tvNsec) (by omega) (by omega)
    have hsum : -t.tvSec * NSEC_TO_SEC + -t.tvNsec = -(t.tvSec * NSEC_TO_SEC + t.tvNsec) := by ring
    rw [hsum, Int.neg_tdiv, Int.neg_tdiv] at hneg
    linarith

theorem toMs_offset (hb : b.Normalized) (he : e.Normalized) :
    chronosTimeToMs (chronosTimeNanoOffsetGet b e) =
      (e.nanoseconds - b.nanoseconds).tdiv NSEC_TO_MSEC := by
  rw [toMs_of_aligned (aligned_offset hb he), nanoseconds_offset]

theorem toMs_offset_mono {b' e' : ChronosTime} (hb : b.Normalized) (he : e.Normalized)
    (hb' : b'.Normalized) (he' : e'.Normalized)
    (h : e.nanoseconds - b.nanoseconds ≤ e'.nanoseconds - b'.nanoseconds) :
    chronosTimeToMs (chronosTimeNanoOffsetGet b e) ≤
      chronosTimeToMs (chronosTimeNanoOffsetGet b' e') := by
  rw [toMs_offset hb he, toMs_offset hb' he']
  exact Int.tdiv_le_tdiv (by norm_num) h

end Chronos
