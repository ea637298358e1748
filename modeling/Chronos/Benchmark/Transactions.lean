import Chronos.Storage.BerkeleyDb

/-! # Starting and ending a transaction

`start_xact`, `commit_xact` and `abort_xact`, and what the transactions of the
server have in common. The handle of the benchmark is open throughout, so its
NULL checks do not appear.
-/
namespace Chronos.Benchmark
open Foundation Storage
variable {F : Type}

abbrev Rc := ℤ

def call (c : DbCall F) : DbProgram F (Except DbError c.Payload) := Program.perform (Call.db c)

def fetchAndAdd : DbProgram F ℤ := Program.perform Call.fetchAndAdd

def rand : DbProgram F ℕ := Program.perform Call.rand

/-- The handle is NULL unless the return code is `BENCHMARK_SUCCESS`. -/
def startXact (txnName : String) : DbProgram F (Option Txn) := do
  match ← call .txnBegin with
  | .error _ => return none
  | .ok txnP =>
    match ← call (.setName txnP txnName) with
    | .ok _ => return some txnP
    | .error _ =>
      let _ ← call (.abort txnP)
      return none

/-- A transaction whose commit failed is aborted once more. -/
def commitXact (xactH : Txn) : DbProgram F Rc := do
  match ← call (.commit xactH) with
  | .ok _ => return BENCHMARK_SUCCESS
  | .error _ =>
    let _ ← call (.abort xactH)
    return BENCHMARK_FAIL

/-- Returns what `abort` returned, which no caller looks at. -/
def abortXact (xactH : Txn) : DbProgram F (Except DbError Unit) := call (.abort xactH)

/-- `for (i=0; i<num; i++)` over the items of a transaction. -/
def applyItems {α : Type} (apply : α → Txn → DbProgram F Rc) : List α → Txn → DbProgram F Rc
  | [], _ => return BENCHMARK_SUCCESS
  | item :: items, xactH => do
    if (← apply item xactH) = BENCHMARK_SUCCESS then applyItems apply items xactH
    else return BENCHMARK_FAIL

/-- `failXit` of the functions `benchmark_*2`, once the transaction has started. -/
def abandon (xactH : Txn) : DbProgram F Rc := do
  let _ ← abortXact xactH
  return BENCHMARK_FAIL

/-- The functions `benchmark_*2` apply their items one after the other in a
transaction and commit it. -/
def inXact {α : Type} (txnName : String) (apply : α → Txn → DbProgram F Rc) (items : List α) :
    DbProgram F Rc := do
  match ← startXact txnName with
  | none => return BENCHMARK_FAIL
  | some xactH =>
    if (← applyItems apply items xactH) = BENCHMARK_SUCCESS then
      if (← commitXact xactH) = BENCHMARK_SUCCESS then return BENCHMARK_SUCCESS
      else abandon xactH
    else abandon xactH

end Chronos.Benchmark
