import Chronos.Times

/-! # The trace of a transaction

`ThreadTraceTxnElapsedTimePrint` computes, for every transaction that a processing
thread has completed, the times that it prints to the trace of the thread.
-/
namespace Chronos.Trace

abbrev CHRONOS_USER_TXN_MIN : ℤ := 0
abbrev CHRONOS_USER_TXN_MAX : ℤ := 4

def chronosUserTransactionStr : List String :=
  ["CHRONOS_USER_TXN_VIEW_STOCK", "CHRONOS_USER_TXN_VIEW_PORTFOLIO", "CHRONOS_USER_TXN_PURCHASE",
    "CHRONOS_USER_TXN_SALE"]

def chronosSystemTransactionStr : List String := ["CHRONOS_SYS_TXN_UPDATE_STOCK"]

/-- `CHRONOS_TXN_NAME`. -/
def chronosTxnName (txnType : ℤ) : String :=
  if CHRONOS_USER_TXN_MIN ≤ txnType ∧ txnType < CHRONOS_USER_TXN_MAX then
    chronosUserTransactionStr.getD txnType.toNat "" else "INVALID"

/-- The values of `CHRONOS_THREAD_TRACE_FMT`. -/
structure TxnTrace where
  threadNum : ℤ
  txnName : String
  enqueueMs : ℤ
  startMs : ℤ
  endMs : ℤ
  txnExecutionMs : ℤ
  txnDurationMs : ℤ
deriving DecidableEq

/-- `ThreadTraceTxnElapsedTimePrint`, up to what it prints. -/
def threadTraceTxnElapsedTimePrint (enqueue start end_ : ChronosTime) (txnType threadNum : ℤ) :
    TxnTrace where
  threadNum := threadNum
  txnName := if txnType = -1 then chronosSystemTransactionStr.getD 0 "" else chronosTxnName txnType
  enqueueMs := chronosTimeToMs enqueue
  startMs := chronosTimeToMs start
  endMs := chronosTimeToMs end_
  txnExecutionMs := chronosTimeToMs (chronosTimeNanoOffsetGet start end_)
  txnDurationMs := chronosTimeToMs (chronosTimeNanoOffsetGet enqueue end_)

/-- The offset of two times is exact, also backwards, and with it the milliseconds, which
grow with the later time; so a traced execution never exceeds the traced duration. -/
theorem elapsed_exact (b e : ChronosTime) (hb : b.Normalized) (he : e.Normalized) :
    (chronosTimeNanoOffsetGet b e).nanoseconds = e.nanoseconds - b.nanoseconds ∧
    (chronosTimeNanoOffsetGet b e).Aligned ∧
    chronosTimeToMs (chronosTimeNanoOffsetGet b e) =
      (e.nanoseconds - b.nanoseconds).tdiv NSEC_TO_MSEC ∧
    (∀ e' : ChronosTime, e'.Normalized → e.nanoseconds ≤ e'.nanoseconds →
      chronosTimeToMs (chronosTimeNanoOffsetGet b e) ≤
        chronosTimeToMs (chronosTimeNanoOffsetGet b e')) ∧
    ∀ (start : ChronosTime) (txnType threadNum : ℤ), start.Normalized →
      b.nanoseconds ≤ start.nanoseconds →
      start.nanoseconds ≤ e.nanoseconds →
        (threadTraceTxnElapsedTimePrint b start e txnType threadNum).txnExecutionMs ≤
          (threadTraceTxnElapsedTimePrint b start e txnType threadNum).txnDurationMs := by
  refine ⟨nanoseconds_offset, aligned_offset hb he, toMs_offset hb he, ?_, ?_⟩
  · intro e' he' hle
    exact toMs_offset_mono hb he hb he' (by omega)
  · intro start txnType threadNum hstart hle _
    exact toMs_offset_mono hstart he hb he (by omega)

/-- A difference of minus one and a half milliseconds. -/
theorem elapsed_exact_backwards :
    (⟨2, 500000⟩ : ChronosTime).Normalized ∧ (⟨1, 999000000⟩ : ChronosTime).Normalized ∧
      chronosTimeToMs (chronosTimeNanoOffsetGet ⟨2, 500000⟩ ⟨1, 999000000⟩) = -1 := by
  have hb : (⟨2, 500000⟩ : ChronosTime).Normalized := ⟨by norm_num, by norm_num⟩
  have he : (⟨1, 999000000⟩ : ChronosTime).Normalized := ⟨by norm_num, by norm_num⟩
  exact ⟨hb, he, (elapsed_exact ⟨2, 500000⟩ ⟨1, 999000000⟩ hb he).2.2.1.trans (by decide)⟩

end Chronos.Trace
