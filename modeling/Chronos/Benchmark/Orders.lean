import Chronos.Benchmark.Lookups

/-! # Placing and selling

`place_order` and `sell_stocks` of `benchmark_common.c`. `goto failXit` carries
the variables that `failXit` looks at; without an outer transaction it may come
back to itself.
-/
namespace Chronos.Benchmark
open Foundation Storage
variable {F : Type}

/-- The variables that are live at `failXit`. The cursor on Quotes is not among
them: neither function closes it. -/
structure Locals where
  txnP : Txn
  cursorPortfolioP : Option CursorId
  cursorPrimaryPortfolioP : Option CursorId

def closeIfOpen : Option CursorId → DbProgram F (Except DbError Unit)
  | none => return .ok ()
  | some c => call (.close c)

/-- `failXit` of a function that began its own transaction. -/
def failXitStep (l : Locals) : DbProgram F (Locals ⊕ Rc) := do
  let _ ← closeIfOpen l.cursorPortfolioP
  match ← closeIfOpen l.cursorPrimaryPortfolioP with
  | .error _ => return .inl { l with cursorPortfolioP := none }
  | .ok _ =>
    match ← call (.abort l.txnP) with
    | .error _ => return .inl { l with cursorPortfolioP := none, cursorPrimaryPortfolioP := none }
    | .ok _ => return .inr BENCHMARK_FAIL

def failXit (xactH : Option Txn) (l : Locals) : DbProgram F Rc :=
  match xactH with
  | some _ => return BENCHMARK_FAIL
  | none => Program.loop failXitStep l

/-- From closing the cursors to the end. -/
def finish (xactH : Option Txn) (l : Locals) : DbProgram F Rc := do
  match ← closeIfOpen l.cursorPortfolioP with
  | .error _ => failXit xactH l
  | .ok _ =>
    match ← closeIfOpen l.cursorPrimaryPortfolioP with
    | .error _ => failXit xactH { l with cursorPortfolioP := none }
    | .ok _ =>
      match xactH with
      | some _ => return BENCHMARK_SUCCESS
      | none =>
        match ← call (.commit l.txnP) with
        | .ok _ => return BENCHMARK_SUCCESS
        | .error _ =>
          failXit none { l with cursorPortfolioP := none, cursorPrimaryPortfolioP := none }

/-- Find the record again with a primary cursor, change it, and save it. -/
def rewritePortfolio (l : Locals) (key : CStr)
    (change : Portfolio → DbProgram F (Option Portfolio)) :
    DbProgram F (Except Locals Locals) := do
  match ← call (.cursor .portfolios l.txnP) with
  | .error _ => return .error l
  | .ok cursorp =>
    let l := { l with cursorPrimaryPortfolioP := some cursorp }
    match ← call (.get .portfolios cursorp key) with
    | .error _ => return .error l
    | .ok portfolio =>
      match ← change portfolio with
      | none => return .error l
      | some portfolio =>
        match ← call (.portfoliosPut cursorp portfolio) with
        | .error _ => return .error l
        | .ok _ => return .ok l

variable [CFloat F]

/-- The price of the quote passes the test. -/
def priceIs (test : F → Bool) (symbol : CStr) (txnP : Txn) : DbProgram F Bool := do
  match ← getStock symbol txnP with
  | none => return false
  | some (_, currentPrice) => return test currentPrice

def purchased (symbol : CStr) (price : F) (amount : ℤ) (forceApply : Bool) (txnP : Txn)
    (p : Portfolio) :
    DbProgram F (Option Portfolio) := do
  if forceApply then
    if ← priceIs (CFloat.le · price) symbol txnP then
      return some { p with holdStocks := int32 (p.holdStocks + amount) }
    else return none
  else return some { p with toBuy := 1, numberBuy := amount, priceBuy := CFloat.toInt price }

def sold (symbol : CStr) (price : F) (amount : ℤ) (forceApply : Bool) (txnP : Txn) (p : Portfolio) :
    DbProgram F (Option Portfolio) := do
  if forceApply then
    if ← priceIs (CFloat.le price ·) symbol txnP then
      return some { p with holdStocks := int32 (p.holdStocks - amount) }
    else return none
  else return some { p with toSell := 1, numberSell := amount, priceSell := CFloat.toInt price }

/-- `place_order` in the transaction `txnP`, which is its own if `xactH` is NULL. -/
def placeOrderIn (accountId symbol : CStr) (price : F) (amount : ℤ) (forceApply : Bool)
    (xactH : Option Txn) (txnP : Txn) : DbProgram F Rc := do
  if ← accountExists accountId txnP then
    if ← symbolExists symbol txnP then
      match ← getPortfolio accountId symbol txnP with
      | some (cursorp, key, _) =>
        match ← rewritePortfolio ⟨txnP, some cursorp, none⟩ key
          (purchased symbol price amount forceApply txnP) with
        | .ok l => finish xactH l
        | .error l => failXit xactH l
      | none =>
        -- whatever made the lookup fail, a new record is created
        if ← (if forceApply then priceIs (CFloat.le · price) symbol txnP else return true) then
          if (← createPortfolio accountId symbol price amount forceApply txnP) =
            BENCHMARK_SUCCESS then
            finish xactH ⟨txnP, none, none⟩
          else failXit xactH ⟨txnP, none, none⟩
        else failXit xactH ⟨txnP, none, none⟩
    else failXit xactH ⟨txnP, none, none⟩
  else failXit xactH ⟨txnP, none, none⟩

/-- `sell_stocks` in the transaction `txnP`, which is its own if `xactH` is NULL. -/
def sellStocksIn (accountId symbol : CStr) (price : F) (amount : ℤ) (forceApply : Bool)
    (xactH : Option Txn) (txnP : Txn) : DbProgram F Rc := do
  if ← accountExists accountId txnP then
    if ← symbolExists symbol txnP then
      match ← getPortfolio accountId symbol txnP with
      | some (cursorp, key, portfolio) =>
        if portfolio.holdStocks < amount then failXit xactH ⟨txnP, some cursorp, none⟩
        else
          match ← rewritePortfolio ⟨txnP, some cursorp, none⟩ key
            (sold symbol price amount forceApply txnP) with
          | .ok l => finish xactH l
          | .error l => failXit xactH l
      | none => failXit xactH ⟨txnP, none, none⟩
    else failXit xactH ⟨txnP, none, none⟩
  else failXit xactH ⟨txnP, none, none⟩

/-- The outer transaction, or one of the function's own. -/
def withXact (xactH : Option Txn) (body : Txn → DbProgram F Rc) : DbProgram F Rc := do
  match xactH with
  | some txnP => body txnP
  | none =>
    match ← call .txnBegin with
    | .ok txnP => body txnP
    | .error _ => return BENCHMARK_FAIL

def placeOrder (accountId symbol : CStr) (price : F) (amount : ℤ) (forceApply : Bool)
    (xactH : Option Txn) : DbProgram F Rc :=
  withXact xactH (placeOrderIn accountId symbol price amount forceApply xactH)

def sellStocks (accountId symbol : CStr) (price : F) (amount : ℤ) (forceApply : Bool)
    (xactH : Option Txn) : DbProgram F Rc :=
  withXact xactH (sellStocksIn accountId symbol price amount forceApply xactH)

/-- `benchmark_xact_data_t`, as far as the benchmark reads it; both strings end in
their members. -/
structure BenchmarkXactData (F : Type) where
  accountId : CStr
  symbol : CStr
  price : F
  amount : ℤ
  accountFits : accountId.length < ID_SZ
  symbolFits : symbol.length < ID_SZ

def BenchmarkXactData.holder (d : BenchmarkXactData F) : Holder := (d.accountId, d.symbol)

def benchmarkPurchase2 (data : List (BenchmarkXactData F)) : DbProgram F Rc :=
  inXact "PURCHASE_TXN" (fun d xactH => placeOrder d.accountId d.symbol d.price d.amount true
    (some xactH)) data

def benchmarkSell2 (data : List (BenchmarkXactData F)) : DbProgram F Rc :=
  inXact "SELL_TXN" (fun d xactH => sellStocks d.accountId d.symbol d.price d.amount true
    (some xactH)) data

end Chronos.Benchmark
