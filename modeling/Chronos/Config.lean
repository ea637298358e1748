import Mathlib

/-! # Constants and small types shared by the server and the benchmark

The values are those of `chronos_config.h`, `chronos.h`, `chronos_transactions.h`
and `benchmark_common.h`, built with `CHRONOS_DEBUG` as the Makefile does.
-/
namespace Chronos

abbrev CHRONOS_READY_QUEUE_SIZE : ℕ := 1024
abbrev CHRONOS_SAMPLING_SPACE : ℕ := 5
abbrev CHRONOS_MAX_DATA_ITEMS_PER_XACT : ℕ := 100
abbrev CHRONOS_UPDATE_PERIOD_RELAXATION_BOUND : ℕ := 2
abbrev ID_SZ : ℕ := 10

abbrev CHRONOS_SUCCESS : ℤ := 0
abbrev CHRONOS_FAIL : ℤ := 1
abbrev BENCHMARK_SUCCESS : ℤ := 0
abbrev BENCHMARK_FAIL : ℤ := 1

/-- A byte of memory, of a packet or of a stored string. -/
abbrev Byte := Fin 256

instance byteNeZero : NeZero (256 : ℕ) := ⟨by decide⟩

/-- The byte that ends a line. -/
abbrev NEWLINE : Byte := 10

/-- A C string: the bytes before its terminating NUL. -/
abbrev CStr := List Byte

instance cstrLawfulBEq : LawfulBEq CStr := inferInstance

instance samplingNeZero : NeZero CHRONOS_SAMPLING_SPACE := ⟨by decide⟩

/-- `struct timespec`. -/
structure ChronosTime where
  tvSec : ℤ
  tvNsec : ℤ
deriving DecidableEq, Repr

/-- The largest value of a 32-bit `int` plus one. -/
abbrev INT_BOUND : ℤ := 2 ^ 31

/-- An integer result stored in a 32-bit `int`. -/
def int32 (x : ℤ) : ℤ := x.bmod (2 ^ 32)

theorem int32_eq_self {x : ℤ} (hlo : -INT_BOUND ≤ x) (hhi : x < INT_BOUND) : int32 x = x := by
  unfold int32
  apply Int.bmod_eq_of_le <;> norm_num at * <;> omega

end Chronos
