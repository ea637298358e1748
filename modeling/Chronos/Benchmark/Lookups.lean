import Chronos.Benchmark.Transactions

/-! # Looking records up

`account_exists`, `symbol_exists`, `get_stock`, `get_portfolio` and
`create_portfolio` of `benchmark_common.c`.
-/
namespace Chronos.Benchmark
open Foundation Storage
variable {F : Type}

/-- The record is read with a cursor that is closed whatever the result. -/
def recordExists (dbp : Dbp) (key : CStr) (txnP : Txn) : DbProgram F Bool := do
  if key = [] then return false
  else match ← call (.cursor dbp txnP) with
    | .error _ => return false
    | .ok cursorp =>
      let ret ← call (.get dbp cursorp key)
      let _ ← call (.close cursorp)
      return ret.isOk

def accountExists (accountId : CStr) (txnP : Txn) : DbProgram F Bool :=
  recordExists .personal accountId txnP

def symbolExists (symbol : CStr) (txnP : Txn) : DbProgram F Bool := recordExists .stocks symbol txnP

/-- The cursor stands on the quote and stays open. -/
def getStock (symbol : CStr) (txnP : Txn) : DbProgram F (Option (CursorId × F)) := do
  if symbol = [] then return none
  else match ← call (.cursor .quotes txnP) with
    | .error _ => return none
    | .ok cursorp =>
      match ← call (.get .quotes cursorp symbol) with
      | .ok price => return some (cursorp, price)
      | .error _ =>
        let _ ← call (.close cursorp)
        return none

/-- The body of the walk over the secondary of Portfolios. -/
def getPortfolioStep (accountId symbol : CStr) (cursorp : CursorId) (_ : Unit) :
    DbProgram F (Unit ⊕ Option (CStr × Portfolio)) := do
  match ← call (.portfoliosPgetNext cursorp) with
  | .error _ => return .inr none
  | .ok (pkey, pdata) =>
    if accountId = pdata.accountId ∧ symbol = pdata.symbol then return .inr (some (pkey, pdata))
    else return .inl ()

/-- The cursor stands on the record and stays open. Where there is no cursor,
`failXit` closes a NULL pointer. -/
def getPortfolio (accountId symbol : CStr) (txnP : Txn) :
    DbProgram F (Option (CursorId × CStr × Portfolio)) := do
  if accountId = [] ∨ symbol = [] then Program.crash
  else match ← call (.cursor .portfoliosSec txnP) with
    | .error _ => Program.crash
    | .ok cursorp =>
      match ← Program.loop (getPortfolioStep accountId symbol cursorp) () with
      | some record => return some (cursorp, record)
      | none =>
        let _ ← call (.close cursorp)
        return none

def formatNat (n : ℕ) : CStr :=
  if n = 0 then [48] else ((Nat.digits 10 n).map fun d => (Fin.ofNat 256 (48 + d) : Byte)).reverse

def formatInt (n : ℤ) : CStr := if n < 0 then 45 :: formatNat n.natAbs else formatNat n.natAbs

/-- The string in `portfolio_id`. One that leaves no room for its NUL runs on into
`account_id`, the next member. -/
def portfolioIdString (n : ℤ) (accountId : CStr) : CStr :=
  if (formatInt n).length < ID_SZ then formatInt n else (formatInt n).take ID_SZ ++ accountId

variable [CFloat F]

/-- The account and the symbol come from members of size `ID_SZ` and fit. -/
def createPortfolio (accountId symbol : CStr) (price : F) (amount : ℤ) (forceApply : Bool)
    (txnP : Txn) :
    DbProgram F Rc := do
  let usePortfolioId ← fetchAndAdd
  let key := portfolioIdString usePortfolioId accountId
  let portfolio : Portfolio :=
    { portfolioId := key
      accountId := accountId
      symbol := symbol
      holdStocks := if forceApply then amount else 0
      toSell := 0
      numberSell := 0
      priceSell := 0
      toBuy := if forceApply then 0 else 1
      numberBuy := if forceApply then 0 else amount
      priceBuy := if forceApply then 0 else CFloat.toInt price }
  match ← call (.portfoliosInsert txnP key portfolio) with
  | .ok _ => return BENCHMARK_SUCCESS
  | .error _ => return BENCHMARK_FAIL

end Chronos.Benchmark
