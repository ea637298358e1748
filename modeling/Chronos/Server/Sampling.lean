import Chronos.Config
import Chronos.Foundation.Runs

/-! # The sampling task and the counters it reads

`handler_sampling` closes a sampling period: it computes the access/update ratio
and the next update period of every data item, the average service delay, and
the number of transactions that admission control waits for. Doubles are rationals.
-/
namespace Chronos.Sampling

abbrev Slot := Fin CHRONOS_SAMPLING_SPACE

structure ChronosDataItem where
  index : ℕ
  dataItem : CStr
  nextUpdateTimeMS : ℤ
  accessFrequency : Slot → ℚ
  updateFrequency : Slot → ℚ
  accessUpdateRatio : Slot → ℚ
  updatePeriodMS : Slot → ℚ

structure ChronosServerStats where
  numTxns : ℤ
  cumulativeTimeMs : ℚ
  numFailedTxns : ℤ
  numTimelyTxns : ℤ
deriving DecidableEq

def ChronosServerStats.zero : ChronosServerStats := ⟨0, 0, 0, 0⟩

/-- What the sampling task shares with the other threads, for `n` data items
and at most `m` processing threads. -/
structure ServerContext (n m : ℕ) where
  runningMode : ℤ
  minUpdatePeriodMS : ℚ
  maxUpdatePeriodMS : ℚ
  desiredDelayBoundMS : ℚ
  userOccupied : ℤ
  sysOccupied : ℤ
  currentSlot : Slot
  statsMatrix : Slot → Fin m → ChronosServerStats
  averageServiceDelayMs : ℚ
  degreeTimingViolation : ℚ
  smothDegreeTimingViolation : ℚ
  alpha : ℚ
  numTxnToWait : ℤ
  totalTxnsEnqueued : ℤ
  dataItemsArray : Fin n → ChronosDataItem

abbrev CHRONOS_MODE_AC : ℤ := 1
abbrev CHRONOS_MODE_AUP : ℤ := 2
abbrev CHRONOS_MODE_FULL : ℤ := 3

/-- A double stored in an integer. -/
def truncate (x : ℚ) : ℤ := if 0 ≤ x then ⌊x⌋ else ⌈x⌉

variable {n m : ℕ}

/-- The body of the loop of `handler_sampling` over the data items. -/
def sampleItem (c : ServerContext n m) (previousSlot newSlot : Slot) (d : ChronosDataItem) :
    ChronosDataItem :=
  let updateFrequency := if d.updateFrequency previousSlot = 0
    then Function.update d.updateFrequency previousSlot 0.1 else d.updateFrequency
  let ratio := d.accessUpdateRatio previousSlot / updateFrequency previousSlot
  let period := d.updatePeriodMS previousSlot
  { d with
    updateFrequency := updateFrequency
    accessUpdateRatio := Function.update d.accessUpdateRatio previousSlot ratio
    updatePeriodMS :=
      if c.runningMode = CHRONOS_MODE_FULL ∨ c.runningMode = CHRONOS_MODE_AUP then
        if ratio < 1 then
          if period * 1.1 ≤ c.maxUpdatePeriodMS
          then Function.update d.updatePeriodMS newSlot (period * 1.1) else d.updatePeriodMS
        else if ratio > 1 then
          if period * 0.9 ≥ c.minUpdatePeriodMS
          then Function.update d.updatePeriodMS newSlot (period * 0.9) else d.updatePeriodMS
        else d.updatePeriodMS
      else Function.update d.updatePeriodMS newSlot c.minUpdatePeriodMS }

/-- `statsMatrix` with the row of a slot zeroed. -/
def ServerContext.zeroedAt (c : ServerContext n m) (slot : Slot) :
    Slot → Fin m → ChronosServerStats :=
  Function.update c.statsMatrix slot fun _ => ChronosServerStats.zero

@[simp] theorem ServerContext.zeroedAt_self (c : ServerContext n m) (slot : Slot) :
    c.zeroedAt slot slot = fun _ => ChronosServerStats.zero := Function.update_self _ _ _

theorem ServerContext.zeroedAt_ne (c : ServerContext n m) {slot slot' : Slot} (hne : slot' ≠ slot) :
    c.zeroedAt slot slot' = c.statsMatrix slot' := Function.update_of_ne hne _ _

/-- The local variables of `handler_sampling` that it sums up over the threads. -/
structure SamplingTotals where
  count : ℤ
  durationMs : ℚ
  totalFailedTxns : ℤ
  totalTimelyTxns : ℤ

def samplingTotals (c : ServerContext n m) : SamplingTotals :=
  let previousSlot := c.currentSlot
  let statsMatrix := c.zeroedAt (previousSlot + 1)
  { count := ∑ i, (statsMatrix previousSlot i).numTxns
    durationMs := ∑ i, (statsMatrix previousSlot i).cumulativeTimeMs
    totalFailedTxns := ∑ i, (statsMatrix previousSlot i).numFailedTxns
    totalTimelyTxns := ∑ i, (statsMatrix previousSlot i).numTimelyTxns }

def handlerSampling (c : ServerContext n m) : ServerContext n m :=
  let previousSlot := c.currentSlot
  let newSlot := previousSlot + 1
  let totals := samplingTotals c
  let average := if totals.count > 0 then totals.durationMs / totals.count else 0
  let degree := if average > c.desiredDelayBoundMS
    then (average - c.desiredDelayBoundMS) / c.desiredDelayBoundMS else 0
  let smoth := c.alpha * degree + (1 - c.alpha) * c.smothDegreeTimingViolation
  let total := c.userOccupied + c.sysOccupied
  { c with
    statsMatrix := c.zeroedAt newSlot
    dataItemsArray := fun i => sampleItem c previousSlot newSlot (c.dataItemsArray i)
    currentSlot := newSlot
    averageServiceDelayMs := average
    degreeTimingViolation := degree
    smothDegreeTimingViolation := smoth
    totalTxnsEnqueued := total
    numTxnToWait :=
      if (c.runningMode = CHRONOS_MODE_FULL ∨ c.runningMode = CHRONOS_MODE_AC) ∧ smoth > 0
      then truncate (total * smoth / 100) else 0 }

def ServerContext.modifyItem (c : ServerContext n m) (i : Fin n)
    (f : ChronosDataItem → ChronosDataItem) : ServerContext n m :=
  { c with dataItemsArray := Function.update c.dataItemsArray i (f (c.dataItemsArray i)) }

/-- `updateFrequency[current_slot] ++`. -/
def ChronosDataItem.bumpUpdateFrequency (d : ChronosDataItem) (slot : Slot) : ChronosDataItem :=
  { d with updateFrequency := Function.update d.updateFrequency slot (d.updateFrequency slot + 1) }

def ServerContext.bumpUpdateFrequency (c : ServerContext n m) (i : Fin n) : ServerContext n m :=
  c.modifyItem i fun d => d.bumpUpdateFrequency c.currentSlot

/-- The loop of `dispatchTableFn` over the items of a VIEW_STOCK request. -/
def dispatchTableFn (c : ServerContext n m) (symbolIds : List (Fin n)) : ServerContext n m :=
  symbolIds.foldl (fun c i => c.bumpUpdateFrequency i) c

/-- `updateThread` has enqueued a refresh of a data item whose time had come. -/
def updateThread (c : ServerContext n m) (i : Fin n) (nextUpdateTimeMs : ℤ) : ServerContext n m :=
  c.modifyItem i fun d => { d.bumpUpdateFrequency c.currentSlot with
    nextUpdateTimeMS := truncate (nextUpdateTimeMs + d.updatePeriodMS c.currentSlot) }

/-- One transaction less to wait for, in `processUserTransaction` and
`processRefreshTransaction`. -/
def transactionDone (c : ServerContext n m) : ServerContext n m :=
  if c.numTxnToWait > 0 then { c with numTxnToWait := c.numTxnToWait - 1 } else c

/-- The statistics of a completed user transaction, in `processUserTransaction`. -/
def ChronosServerStats.account (st : ChronosServerStats) (desiredDelayBoundMS : ℚ)
    (txnRc txnDurationMs : ℤ) : ChronosServerStats :=
  if txnRc = CHRONOS_SUCCESS then
    { st with
      numTxns := st.numTxns + 1
      cumulativeTimeMs := st.cumulativeTimeMs + txnDurationMs
      numTimelyTxns := if txnDurationMs ≤ desiredDelayBoundMS then st.numTimelyTxns + 1
        else st.numTimelyTxns }
  else { st with numFailedTxns := st.numFailedTxns + 1 }

def accountTransaction (c : ServerContext n m) (threadNum : Fin m) (txnRc txnDurationMs : ℤ) :
    ServerContext n m :=
  let row := c.statsMatrix c.currentSlot
  let stats := (row threadNum).account c.desiredDelayBoundMS txnRc txnDurationMs
  { c with
    statsMatrix :=
      Function.update c.statsMatrix c.currentSlot (Function.update row threadNum stats) }

inductive Event (n m : ℕ) where
  | viewStock (symbolIds : List (Fin n))
  | refresh (item : Fin n) (nextUpdateTimeMs : ℤ)
  | transactionDone
  | account (threadNum : Fin m) (txnRc txnDurationMs : ℤ)
  | occupied (user sys : ℤ)
  | sampling
deriving DecidableEq

def step (c : ServerContext n m) : Event n m → ServerContext n m
  | .viewStock symbolIds => dispatchTableFn c symbolIds
  | .refresh i nextUpdateTimeMs => updateThread c i nextUpdateTimeMs
  | .transactionDone => transactionDone c
  | .account threadNum txnRc txnDurationMs => accountTransaction c threadNum txnRc txnDurationMs
  | .occupied user sys => { c with userOccupied := user, sysOccupied := sys }
  | .sampling => handlerSampling c

def run (c : ServerContext n m) (es : List (Event n m)) : ServerContext n m := es.foldl step c

/-- The events since the last tick. -/
def sinceTick (es : List (Event n m)) : List (Event n m) :=
  es.rtakeWhile fun ev => decide (ev ≠ .sampling)

/-- What the command line and the data files decide. -/
structure Settings (n : ℕ) where
  runningMode : ℤ
  initialValidityIntervalMS : ℚ
  desiredDelayBoundMS : ℚ
  alpha : ℚ
  pkeysList : Fin n → CStr
  systemStartMs : ℤ

/-- The period limits that `processArguments` sets. -/
def Settings.minUpdatePeriodMS (a : Settings n) : ℚ := 0.5 * a.initialValidityIntervalMS

def Settings.maxUpdatePeriodMS (a : Settings n) : ℚ :=
  0.5 * CHRONOS_UPDATE_PERIOD_RELAXATION_BOUND * a.initialValidityIntervalMS

/-- A data item as `main` initialises it. -/
def Settings.dataItem (a : Settings n) (i : Fin n) : ChronosDataItem where
  index := i
  dataItem := a.pkeysList i
  nextUpdateTimeMS := truncate (a.systemStartMs + a.minUpdatePeriodMS)
  accessFrequency _ := 0
  updateFrequency _ := 0
  accessUpdateRatio _ := 0
  updatePeriodMS := Function.update (fun _ => 0) 0 a.minUpdatePeriodMS

/-- The server when its threads start. -/
def Settings.initial (a : Settings n) (m : ℕ) : ServerContext n m where
  runningMode := a.runningMode
  minUpdatePeriodMS := a.minUpdatePeriodMS
  maxUpdatePeriodMS := a.maxUpdatePeriodMS
  desiredDelayBoundMS := a.desiredDelayBoundMS
  userOccupied := 0
  sysOccupied := 0
  currentSlot := 0
  statsMatrix _ _ := ChronosServerStats.zero
  averageServiceDelayMs := 0
  degreeTimingViolation := 0
  smothDegreeTimingViolation := 0
  alpha := a.alpha
  numTxnToWait := 0
  totalTxnsEnqueued := 0
  dataItemsArray := a.dataItem

end Chronos.Sampling
