import Chronos.Config
import Chronos.Foundation.Ledger
import Chronos.Foundation.Outline

/-! # Opening and closing the databases

`benchmark_handle_alloc` and `benchmark_handle_free` with all the calls of Berkeley DB
they make. Any call may fail. The handles that a run opens are those of the environment
and of the tables, and what it leaves open can be read off its trace.
-/
namespace Chronos.Setup
open Foundation Program

/-- The pointers `*_dbp` and `*_sdbp` of the handle. -/
inductive Table where
  | stocks
  | quotes
  | quotesHist
  | portfolios
  | portfoliosSec
  | accounts
  | currencies
  | personal
deriving DecidableEq

inductive Handle where
  | environment
  | table (t : Table)
deriving DecidableEq

/-- The calls whose results are looked at, and those that end something. -/
inductive Call where
  | malloc
  | calloc (count : ℤ)
  | dbEnvCreate
  | setLkDetect
  | setShmKey
  | setLockTimeout
  | setTxnTimeout
  | envOpen (create : Bool)
  | envClose
  | dbCreate (t : Table)
  | setFlags (t : Table)
  | dbOpen (t : Table) (create : Bool)
  | associate
  | dbClose (t : Table)
  | stat (t : Table)
  | txnBegin
  | cursor
  | get
  | cursorClose
  | commit
  | abort
deriving DecidableEq

/-- What a call returns; zero is success, also for an allocation. `stat` counts the keys. -/
structure Answer where
  ret : ℤ
  btNkeys : ℕ

abbrev HandleProgram := Program Call fun _ => Answer

/-- `BENCHMARK_DBS`, with the pointers that are set. -/
structure BenchmarkDbs where
  createDBs : Bool
  envP : Bool
  dbps : List Table
  numberStocks : ℤ
  numberPortfolios : ℤ

def initializeBenchmarkdbs : BenchmarkDbs := ⟨false, false, [], 0, 0⟩

abbrev STOCKS_FLAG : ℕ := 0x0001
abbrev PERSONAL_FLAG : ℕ := 0x0002
abbrev CURRENCIES_FLAG : ℕ := 0x0004
abbrev QUOTES_FLAG : ℕ := 0x0008
abbrev QUOTES_HIST_FLAG : ℕ := 0x0010
abbrev PORTFOLIOS_FLAG : ℕ := 0x0020
abbrev ACCOUNTS_FLAG : ℕ := 0x0040
abbrev ALL_DBS_FLAG : ℕ := 0x00FF

abbrev PRIMARY_DB : Bool := false
abbrev SECONDARY_DB : Bool := true

/-- The bit that selects a table; the secondary one comes with its primary. -/
def Table.flag : Table → ℕ
  | stocks => STOCKS_FLAG
  | quotes => QUOTES_FLAG
  | quotesHist => QUOTES_HIST_FLAG
  | portfolios => PORTFOLIOS_FLAG
  | portfoliosSec => PORTFOLIOS_FLAG
  | accounts => ACCOUNTS_FLAG
  | currencies => CURRENCIES_FLAG
  | personal => PERSONAL_FLAG

/-- `IS_STOCKS` and its like. -/
def isSelected (whichDatabase : ℕ) (t : Table) : Bool := whichDatabase &&& t.flag == t.flag

/-- One call after the other until one fails. -/
def inTurn : List Call → HandleProgram ℤ
  | [] => return 0
  | c :: cs => do
    let answer ← perform c
    if answer.ret ≠ 0 then return answer.ret else inTurn cs

/-! ## The environment and the tables -/

def openEnvironment (benchmarkP : BenchmarkDbs) : HandleProgram (ℤ × BenchmarkDbs) := do
  let answer ← perform .dbEnvCreate
  if answer.ret ≠ 0 then return (1, { benchmarkP with envP := false })
  else
    let rc ← inTurn [.setLkDetect, .setShmKey, .setLockTimeout, .setTxnTimeout,
      .envOpen benchmarkP.createDBs]
    if rc ≠ 0 then
      let _ ← perform .envClose
      return (1, { benchmarkP with envP := true })
    else return (0, { benchmarkP with envP := true })

def closeEnvironment (benchmarkP : BenchmarkDbs) : HandleProgram ℤ :=
  if benchmarkP.envP then do
    let answer ← perform .envClose
    return answer.ret
  else return 1

def openDatabase (dbpp : Table) (isSecondary : Bool) (benchmarkP : BenchmarkDbs) :
    HandleProgram (ℤ × BenchmarkDbs) := do
  let answer ← perform (.dbCreate dbpp)
  if answer.ret ≠ 0 then return (answer.ret, benchmarkP)
  else
    let ret ← inTurn ((if isSecondary then [.setFlags dbpp] else []) ++
      [.dbOpen dbpp benchmarkP.createDBs])
    return (ret, { benchmarkP with dbps := benchmarkP.dbps ++ [dbpp] })

/-- `if (ret != 0) return (ret);` -/
def orReturn (p : HandleProgram (ℤ × BenchmarkDbs))
    (next : BenchmarkDbs → HandleProgram (ℤ × BenchmarkDbs)) :
    HandleProgram (ℤ × BenchmarkDbs) := do
  let opened ← p
  if opened.1 ≠ 0 then return opened else next opened.2

def openSelected (whichDatabase : ℕ) : List Table → BenchmarkDbs → HandleProgram (ℤ × BenchmarkDbs)
  | [], benchmarkP => return (0, benchmarkP)
  | t :: ts, benchmarkP =>
    if isSelected whichDatabase t then
      orReturn (openDatabase t PRIMARY_DB benchmarkP) (openSelected whichDatabase ts)
    else openSelected whichDatabase ts benchmarkP

def openPortfolios (benchmarkP : BenchmarkDbs) : HandleProgram (ℤ × BenchmarkDbs) :=
  orReturn (openDatabase .portfolios PRIMARY_DB benchmarkP) fun benchmarkP =>
    orReturn (openDatabase .portfoliosSec SECONDARY_DB benchmarkP) fun benchmarkP => do
      let answer ← perform .associate
      return (answer.ret, benchmarkP)

def databasesSetup (benchmarkP : BenchmarkDbs) (whichDatabase : ℕ) :
    HandleProgram (ℤ × BenchmarkDbs) := do
  let opened ← openEnvironment benchmarkP
  if opened.1 ≠ 0 ∨ opened.2.envP = false then return (1, opened.2)
  else
    orReturn (openSelected whichDatabase [.stocks, .quotes, .quotesHist] opened.2) fun benchmarkP =>
      orReturn (if isSelected whichDatabase .portfolios then openPortfolios benchmarkP
        else return (0, benchmarkP))
        (openSelected whichDatabase [.accounts, .currencies, .personal])

def closeOrder : List Table :=
  [.stocks, .quotes, .quotesHist, .portfolios, .accounts, .currencies, .personal]

/-- Stops at the first table that cannot be closed. -/
def databasesClose (benchmarkP : BenchmarkDbs) : HandleProgram ℤ :=
  if benchmarkP.envP then do
    let ret ← inTurn ((closeOrder.filter (· ∈ benchmarkP.dbps)).map .dbClose)
    if ret ≠ 0 then return 1 else return 0
  else return 1

/-! ## The handle

`DB_NOTFOUND` is a constant of Berkeley DB. -/

section Handle
variable (DB_NOTFOUND : ℤ)

/-- `failXit` of `benchmark_stocks_symbols_get`, once there is a transaction. -/
def symbolsFailed (cursorP : Bool) (benchmarkP : BenchmarkDbs) :
    HandleProgram (ℤ × BenchmarkDbs) := do
  if cursorP then
    let _ ← perform .cursorClose
    let _ ← perform .abort
    return (BENCHMARK_FAIL, benchmarkP)
  else
    let _ ← perform .abort
    return (BENCHMARK_FAIL, benchmarkP)

/-- One round of the walk over the stocks; it asserts that there is a slot left. -/
def nextSymbol (numberStocks : ℤ) (currentSlot : ℕ) : HandleProgram (ℕ ⊕ ℤ) := do
  let answer ← perform .get
  if answer.ret ≠ 0 then return .inr answer.ret
  else if currentSlot < numberStocks then return .inl (currentSlot + 1)
  else .crash

def benchmarkStocksSymbolsGet (benchmarkP : BenchmarkDbs) : HandleProgram (ℤ × BenchmarkDbs) := do
  if benchmarkP.envP = false then return (BENCHMARK_FAIL, benchmarkP)
  else
    let begun ← perform .txnBegin
    if begun.ret ≠ 0 then return (BENCHMARK_FAIL, benchmarkP)
    else
      let stat ← perform (.stat .stocks)
      if stat.ret ≠ 0 then symbolsFailed false benchmarkP
      else
        let numberStocks := int32 stat.btNkeys
        let ret ← inTurn [.calloc numberStocks, .cursor]
        if ret ≠ 0 then symbolsFailed false { benchmarkP with numberStocks }
        else
          let ret ← loop (nextSymbol numberStocks) 0
          if ret ≠ DB_NOTFOUND then symbolsFailed true { benchmarkP with numberStocks }
          else
            let _ ← perform .cursorClose
            let committed ← perform .commit
            if committed.ret ≠ 0 then symbolsFailed false { benchmarkP with numberStocks }
            else return (BENCHMARK_SUCCESS, { benchmarkP with numberStocks })

def benchmarkPortfoliosStatsGet (benchmarkP : BenchmarkDbs) : HandleProgram (ℤ × BenchmarkDbs) := do
  if benchmarkP.envP = false ∨ .portfolios ∉ benchmarkP.dbps then
    return (BENCHMARK_FAIL, benchmarkP)
  else
    let stat ← perform (.stat .portfolios)
    if stat.ret ≠ 0 then return (BENCHMARK_FAIL, benchmarkP)
    else return (BENCHMARK_SUCCESS, { benchmarkP with numberPortfolios := int32 stat.btNkeys })

/-- `databases_close(benchmarkP); goto failXit;` -/
def giveUp (benchmarkP : BenchmarkDbs) : HandleProgram (Option BenchmarkDbs) := do
  let _ ← databasesClose benchmarkP
  return none

/-- The handle, or NULL with `BENCHMARK_FAIL`. -/
def benchmarkHandleAlloc (create : Bool) : HandleProgram (Option BenchmarkDbs) := do
  let answer ← perform .malloc
  if answer.ret ≠ 0 then return none
  else
    let opened ← databasesSetup { initializeBenchmarkdbs with createDBs := create } ALL_DBS_FLAG
    if opened.1 ≠ 0 then giveUp opened.2
    else if create then return some { opened.2 with createDBs := false }
    else
      let symbols ← benchmarkStocksSymbolsGet DB_NOTFOUND opened.2
      if symbols.1 ≠ BENCHMARK_SUCCESS then giveUp symbols.2
      else
        let portfolios ← benchmarkPortfoliosStatsGet symbols.2
        if portfolios.1 ≠ BENCHMARK_SUCCESS then giveUp portfolios.2 else return some portfolios.2

def benchmarkHandleFree (benchmarkP : BenchmarkDbs) : HandleProgram ℤ := do
  if (← databasesClose benchmarkP) ≠ BENCHMARK_SUCCESS then return BENCHMARK_FAIL
  else if (← closeEnvironment benchmarkP) ≠ BENCHMARK_SUCCESS then return BENCHMARK_FAIL
  else return BENCHMARK_SUCCESS

def lifetime (create : Bool) : HandleProgram (Option ℤ) := do
  match ← benchmarkHandleAlloc DB_NOTFOUND create with
  | none => return none
  | some benchmarkP => return some (← benchmarkHandleFree benchmarkP)

end Handle

/-! ## Runs -/

structure Entry where
  call : Call
  answer : Answer

/-- The calls are answered one after the other as an assignment says, and recorded. -/
def answering (answers : ℕ → Answer) (c : Call) (tr : List Entry) : Option (Answer × List Entry) :=
  some (answers tr.length, tr ++ [⟨c, answers tr.length⟩])

def Call.opens : Call → Option Handle
  | dbEnvCreate => some .environment
  | dbCreate t => some (.table t)
  | _ => none

def Call.closes : Call → Option Handle
  | envClose => some .environment
  | dbClose t => some (.table t)
  | _ => none

def Entry.Succeeds (e : Entry) : Prop := e.answer.ret = 0

instance (e : Entry) : Decidable e.Succeeds := inferInstanceAs (Decidable (_ = _))

def Entry.opens (e : Entry) : Option Handle := if e.Succeeds then e.call.opens else none

/-- The handle that is given back; it is gone whatever `close` returns. -/
def Entry.closes (e : Entry) : Option Handle := e.call.closes

def Entry.counts (e : Entry) : Option ℤ :=
  if e.call = .stat .stocks then some (int32 e.answer.btNkeys) else none

def Entry.walks (e : Entry) : Bool := e.call = .get ∧ e.Succeeds

/-- The calls up to the one that opens the environment. -/
def Call.Early : Call → Prop
  | malloc | dbEnvCreate | setLkDetect | setShmKey | setLockTimeout | setTxnTimeout | envOpen _ =>
    True
  | _ => False

/-- A failure other than one to close something. The end of a walk is no failure. -/
def Entry.Fails (DB_NOTFOUND : ℤ) (e : Entry) : Prop :=
  ¬ e.Succeeds ∧ e.call.closes = none ∧ e.call ≠ .cursorClose ∧
    ¬ (e.call = .get ∧ e.answer.ret = DB_NOTFOUND)

/-- A table or the environment cannot be closed. -/
def Entry.CloseFails (e : Entry) : Prop := ¬ e.Succeeds ∧ e.closes ≠ none

/-- The walk comes to a stock for which there is no slot. -/
def Overrun (tr : List Entry) : Prop :=
  ∃ numberStocks ∈ tr.filterMap Entry.counts,
    ∃ slot < tr.countP Entry.walks, numberStocks ≤ (slot : ℤ)

/-- Nothing leaks: a handle that cannot be allocated leaves nothing open, and one that is
freed has closed everything once, the environment last. -/
structure NoLeak (o : Outcome (Option ℤ)) (tr : List Entry) : Prop where
  failed : o = .value none → ClosedOnce Entry.opens Entry.closes tr
  freed : o = .value (some BENCHMARK_SUCCESS) → ClosedOnce Entry.opens Entry.closes tr ∧
    (tr.filterMap Entry.closes).getLast? = some .environment

end Chronos.Setup
