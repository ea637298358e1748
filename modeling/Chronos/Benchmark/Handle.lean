import Chronos.Storage.BerkeleyDb

/-! # Opening the database again

`benchmark_handle_alloc` with `create = 0`, as far as the transactions notice it: the
records that were committed are there, and `number_portfolios` is read off the table.
-/
namespace Chronos.Benchmark
open Foundation Storage
variable {F : Type}

/-- `databases_setup` after a stop of the server: no transaction and no cursor is left. -/
def databasesSetup (db : Db F) : Db F :=
  { db with
    quotes := db.quotes.recover
    portfolios := db.portfolios.recover
    cursors := [] }

/-- `bt_nkeys`, stored in an `int`. -/
def portfoliosNkeys (db : Db F) : ℤ := int32 db.portfolios.committedKeys.length

def benchmarkPortfoliosStatsGet (db : Db F) : Db F :=
  { db with numberPortfolios := portfoliosNkeys db }

def benchmarkHandleAlloc (db : Db F) : Db F := benchmarkPortfoliosStatsGet (databasesSetup db)

end Chronos.Benchmark
