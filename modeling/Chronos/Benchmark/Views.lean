import Chronos.Benchmark.Orders

/-! # Viewing and refreshing

`show_quote`, `show_one_portfolio`, `show_portfolios` and `update_stock` of
`benchmark_common.c`, and the transactions that call them. What they print is left out.
-/
namespace Chronos.Benchmark
open Foundation Storage
variable {F : Type}

/-- Close the cursor that is open and abort the function's own transaction. -/
def failOwn (xactH : Option Txn) (txnP : Txn) (cursorp : Option CursorId) : DbProgram F Rc := do
  match xactH with
  | some _ => return BENCHMARK_FAIL
  | none =>
    let _ ← closeIfOpen cursorp
    let _ ← call (.abort txnP)
    return BENCHMARK_FAIL

def commitOwn (xactH : Option Txn) (txnP : Txn) : DbProgram F Rc := do
  match xactH with
  | some _ => return BENCHMARK_SUCCESS
  | none =>
    match ← call (.commit txnP) with
    | .ok _ => return BENCHMARK_SUCCESS
    | .error _ => failOwn none txnP none

def showQuote (symbol : CStr) (xactH : Option Txn) : DbProgram F Rc :=
  withXact xactH fun txnP => do
    match ← getStock symbol txnP with
    | none => failOwn xactH txnP none
    | some (cursorp, _) =>
      match ← call (.close cursorp) with
      | .error _ => failOwn xactH txnP (some cursorp)
      | .ok _ => commitOwn xactH txnP

def showOnePortfolioStep (cursorp : CursorId) (_ : Unit) : DbProgram F (Unit ⊕ Unit) := do
  match ← call (.portfoliosPgetNext cursorp) with
  | .error _ => return .inr ()
  | .ok _ => return .inl ()

/-- `show_one_portfolio` of every record, shown if it is of the account. The result
of closing the cursor is only logged. -/
def showOnePortfolio (txnIn : Option Txn) : DbProgram F Rc :=
  withXact txnIn fun txnP => do
    match ← call (.cursor .portfoliosSec txnP) with
    | .error _ => failOwn txnIn txnP none
    | .ok cursorp =>
      Program.loop (showOnePortfolioStep cursorp) ()
      let _ ← call (.close cursorp)
      commitOwn txnIn txnP

def showPortfoliosStep (showOnlyUsers : Bool) (txnP : Txn) (cursorp : CursorId) (_ : Unit) :
    DbProgram F (Unit ⊕ DbError) := do
  match ← call (.personalNext cursorp) with
  | .error e => return .inr e
  | .ok _ =>
    if showOnlyUsers then return .inl ()
    else
      let _ ← showOnePortfolio (some txnP)
      return .inl ()

/-- Close the cursor, whose result is only logged, and end. -/
def showPortfoliosEnd (xactH : Option Txn) (txnP : Txn) (cursorp : CursorId) : DbProgram F Rc := do
  let _ ← call (.close cursorp)
  commitOwn xactH txnP

def showPortfolios (accountId : CStr) (showOnlyUsers : Bool) (xactH : Option Txn) :
    DbProgram F Rc :=
  withXact xactH fun txnP => do
    match ← call (.cursor .personal txnP) with
    | .error _ => failOwn xactH txnP none
    | .ok cursorp =>
      if accountId = [] then
        match ← Program.loop (showPortfoliosStep showOnlyUsers txnP cursorp) () with
        | .notFound => showPortfoliosEnd xactH txnP cursorp
        | _ => failOwn xactH txnP (some cursorp)
      else
        match ← call (.get .personal cursorp accountId) with
        | .error _ => showPortfoliosEnd xactH txnP cursorp
        | .ok _ =>
          if showOnlyUsers then showPortfoliosEnd xactH txnP cursorp
          else
            let _ ← showOnePortfolio (some txnP)
            showPortfoliosEnd xactH txnP cursorp

def benchmarkViewStock2 (symbolList : List CStr) : DbProgram F Rc :=
  inXact "VIEW_STOCK_TXN" (fun symbol xactH => showQuote symbol (some xactH)) symbolList

def benchmarkViewPortfolio2 (accountList : List CStr) : DbProgram F Rc :=
  inXact "VIEW_PORTFOLIO_TXN" (fun accountId xactH => showPortfolios accountId false (some xactH))
    accountList

variable [CFloat F]

/-- The given price, or a step up or down if that is negative. -/
def newPrice (newValue currentPrice : F) : DbProgram F F := do
  if CFloat.le CFloat.zero newValue then return newValue
  else
    let r ← rand
    if r % 2 = 0 ∨ CFloat.le currentPrice CFloat.zero then return CFloat.addTenth currentPrice
    else return CFloat.subTenth currentPrice

/-- From `get_stock` to closing the cursor: the quote is rewritten, or the cursor
that `failXit` finds. -/
def rewriteQuote (symbol : CStr) (newValue : F) (txnP : Txn) :
    DbProgram F (Except (Option CursorId) Unit) := do
  match ← getStock symbol txnP with
  | none => return .error none
  | some (cursorp, currentPrice) =>
    let price ← newPrice newValue currentPrice
    match ← call (.quotesPut cursorp price) with
    | .error _ => return .error (some cursorp)
    | .ok _ =>
      match ← call (.close cursorp) with
      | .error _ => return .error (some cursorp)
      | .ok _ => return .ok ()

def updateStock (symbol : CStr) (newValue : F) : DbProgram F Rc :=
  withXact none fun txnP => do
    match ← rewriteQuote symbol newValue txnP with
    | .error cursorp => failOwn none txnP cursorp
    | .ok _ => commitOwn none txnP

def benchmarkRefreshQuotes2 (symbol : CStr) (newValue : F) : DbProgram F Rc := do
  if symbol = [] then return BENCHMARK_FAIL
  else if (← updateStock symbol newValue) = BENCHMARK_SUCCESS then return BENCHMARK_SUCCESS
  else return BENCHMARK_FAIL

end Chronos.Benchmark
