import Chronos.Config
import Chronos.Foundation.LockTable
import Chronos.Foundation.Program

/-! # The database interface

The calls that the benchmark makes, each one atomic. Transactions run at degree 2:
a record written by another transaction is locked until that one ends, a record
under another transaction's open cursor cannot be written. A call that would have
to wait has no answer yet. Any call may instead fail.
-/
namespace Chronos.Storage
open Foundation

abbrev Txn := ℕ
abbrev CursorId := ℕ

/-- Prices are C floats; what the code does with them. -/
class CFloat (F : Type) where
  zero : F
  le : F → F → Bool
  addTenth : F → F
  subTenth : F → F
  toInt : F → ℤ

/-- Prices without rounding. -/
instance : CFloat ℚ where
  zero := 0
  le x y := x ≤ y
  addTenth x := x + 1 / 10
  subTenth x := x - 1 / 10
  toInt x := x.num.tdiv x.den

inductive DbError where
  | notFound
  | keyExist
  | other
deriving DecidableEq

inductive Dbp where
  | stocks
  | quotes
  | personal
  | portfolios
  | portfoliosSec
deriving DecidableEq

/-- `PORTFOLIOS`. -/
structure Portfolio where
  portfolioId : CStr
  accountId : CStr
  symbol : CStr
  holdStocks : ℤ
  toSell : ℤ
  numberSell : ℤ
  priceSell : ℤ
  toBuy : ℤ
  numberBuy : ℤ
  priceBuy : ℤ
deriving DecidableEq

/-- An account and a symbol. -/
abbrev Holder := CStr × CStr

def Portfolio.holder (p : Portfolio) : Holder := (p.accountId, p.symbol)

/-- Where a cursor stands: for the secondary of Portfolios the account and the
key of the record, else the key alone. -/
abbrev Position := CStr ×ₗ CStr

structure OpenCursor where
  id : CursorId
  owner : Txn
  dbp : Dbp
  position : Option Position
deriving DecidableEq

/-- The tables that the transactions use, the open cursors, `number_portfolios`,
what `rand` will return, and the transactions that have committed so far. -/
structure Db (F : Type) where
  personal : List CStr
  stocks : List CStr
  quotes : LockTable CStr Txn F
  portfolios : LockTable CStr Txn Portfolio
  cursors : List OpenCursor
  nextCursor : CursorId
  numberPortfolios : ℤ
  rand : ℕ → ℕ
  log : List Txn

/-- Portfolios is empty and nothing is open. -/
def Db.fresh {F : Type} (personal stocks : List CStr) (quotes : LockTable CStr Txn F)
    (rand : ℕ → ℕ) : Db F :=
  ⟨personal, stocks, quotes, LockTable.empty, [], 0, 0, rand, []⟩

/-- What `DB_SET` reads of a record; the data in Stocks and Personal is only shown. -/
def Value (F : Type) : Dbp → Type
  | .stocks => Unit
  | .personal => Unit
  | .quotes => F
  | .portfolios => Portfolio
  | .portfoliosSec => Portfolio

inductive DbCall (F : Type) where
  | txnBegin
  | setName (t : Txn) (name : String)
  | commit (t : Txn)
  | abort (t : Txn)
  | cursor (dbp : Dbp) (t : Txn)
  | close (c : CursorId)
  | get (dbp : Dbp) (c : CursorId) (key : CStr)
  | personalNext (c : CursorId)
  | portfoliosPgetNext (c : CursorId)
  | quotesPut (c : CursorId) (price : F)
  | portfoliosPut (c : CursorId) (p : Portfolio)
  | portfoliosInsert (t : Txn) (key : CStr) (p : Portfolio)

/-- What a call that does not fail gives back. -/
def DbCall.Payload {F : Type} : DbCall F → Type
  | .txnBegin => Txn
  | .cursor _ _ => CursorId
  | .get dbp _ _ => Value F dbp
  | .personalNext _ => CStr
  | .portfoliosPgetNext _ => CStr × Portfolio
  | .setName _ _ => Unit
  | .commit _ => Unit
  | .abort _ => Unit
  | .close _ => Unit
  | .quotesPut _ _ => Unit
  | .portfoliosPut _ _ => Unit
  | .portfoliosInsert _ _ _ => Unit

/-- The calls of the database, `__sync_fetch_and_add` on `number_portfolios`, and `rand`. -/
inductive Call (F : Type) where
  | db (c : DbCall F)
  | fetchAndAdd
  | rand

def Answer {F : Type} : Call F → Type
  | .db c => Except DbError c.Payload
  | .fetchAndAdd => ℤ
  | .rand => ℕ

/-- A function of the benchmark. -/
abbrev DbProgram (F : Type) (α : Type) := Program (Call F) Answer α

section Perform
variable {F : Type}

def Db.cursor? (db : Db F) (c : CursorId) : Option OpenCursor :=
  db.cursors.find? fun oc => oc.id = c

def Db.moveCursor (db : Db F) (c : CursorId) (position : Position) : Db F :=
  { db with cursors := db.cursors.map fun oc => if oc.id =
    c then { oc with position := some position } else oc }

def Db.closeCursor (db : Db F) (c : CursorId) : Db F :=
  { db with cursors := db.cursors.filter fun oc => oc.id ≠ c }

/-- The key of the record that the cursor stands on. -/
def OpenCursor.record (oc : OpenCursor) : Option CStr :=
  oc.position.map fun pos => if oc.dbp = .portfoliosSec then (ofLex pos).2 else (ofLex pos).1

/-- The table whose records the cursor locks. -/
def OpenCursor.table (oc : OpenCursor) : Dbp :=
  if oc.dbp = .portfoliosSec then .portfolios else oc.dbp

/-- Another transaction's open cursor stands on the record. -/
def Db.readLockedByOther (db : Db F) (t : Txn) (table : Dbp) (key : CStr) : Bool :=
  db.cursors.any fun oc => oc.owner ≠ t && oc.table = table && oc.record = some key

/-- The records of Portfolios in the order of the secondary. -/
def Db.walkKeys (db : Db F) (t : Txn) : List Position :=
  (db.portfolios.visibleKeys t).filterMap fun key =>
    (db.portfolios.view t key).map fun p => toLex (p.accountId, key)

/-- The transaction ends and with it its locks and cursors. -/
def Db.release (db : Db F) (t : Txn) (quotes : LockTable CStr Txn F)
    (portfolios : LockTable CStr Txn Portfolio) : Db F :=
  { db with quotes := quotes, portfolios := portfolios, cursors := db.cursors.filter fun oc =>
    oc.owner ≠ t }

def Db.commit (db : Db F) (t : Txn) : Db F :=
  { db.release t (db.quotes.commit t) (db.portfolios.commit t) with log := db.log ++ [t] }

def Db.abort (db : Db F) (t : Txn) : Db F :=
  db.release t (db.quotes.abort t) (db.portfolios.abort t)

/-- `DB_SET`. -/
def Db.get (db : Db F) (c : CursorId) (t : Txn) (key : CStr) :
    (dbp : Dbp) → Option (Except DbError (Value F dbp) × Db F)
  | .stocks =>
    some (if key ∈ db.stocks then (.ok (), db.moveCursor c (toLex (key, [])))
      else (.error .notFound, db))
  | .personal =>
    some (if key ∈ db.personal then (.ok (), db.moveCursor c (toLex (key, [])))
      else (.error .notFound, db))
  | .quotes =>
    if db.quotes.lockedByOther t key then none
    else match db.quotes.view t key with
      | some price => some (.ok price, db.moveCursor c (toLex (key, [])))
      | none => some (.error .notFound, db)
  | .portfolios =>
    if db.portfolios.lockedByOther t key then none
    else match db.portfolios.view t key with
      | some p => some (.ok p, db.moveCursor c (toLex (key, [])))
      | none => some (.error .notFound, db)
  | .portfoliosSec => some (.error .other, db)

/-- `DB_NEXT` on Personal. -/
def Db.personalNext (db : Db F) (oc : OpenCursor) : Except DbError CStr × Db F :=
  match nextAfter db.personal (oc.position.map fun pos => (ofLex pos).1) with
  | some key => (.ok key, db.moveCursor oc.id (toLex (key, [])))
  | none => (.error .notFound, db)

/-- `DB_NEXT` on the secondary of Portfolios, with the primary key and record. -/
def Db.portfoliosPgetNext (db : Db F) (oc : OpenCursor) :
    Option (Except DbError (CStr × Portfolio) × Db F) :=
  match nextAfter (db.walkKeys oc.owner) oc.position with
  | some pos =>
    if db.portfolios.lockedByOther oc.owner (ofLex pos).2 then none
    else match db.portfolios.view oc.owner (ofLex pos).2 with
      | some p => some (.ok ((ofLex pos).2, p), db.moveCursor oc.id pos)
      | none => some (.error .other, db)
  | none => some (.error .notFound, db)

/-- `DB_CURRENT`. -/
def Db.quotesPut (db : Db F) (oc : OpenCursor) (price : F) : Option (Except DbError Unit × Db F) :=
  match oc.record with
  | none => some (.error .other, db)
  | some key =>
    if db.quotes.lockedByOther oc.owner key || db.readLockedByOther oc.owner .quotes key then none
    else some (.ok (), { db with quotes := db.quotes.write oc.owner key price })

def Db.portfoliosPut (db : Db F) (oc : OpenCursor) (p : Portfolio) :
    Option (Except DbError Unit × Db F) :=
  match oc.record with
  | none => some (.error .other, db)
  | some key =>
    if db.portfolios.lockedByOther oc.owner key ||
      db.readLockedByOther oc.owner .portfolios key then none
    else some (.ok (), { db with portfolios := db.portfolios.write oc.owner key p })

/-- `DB_NOOVERWRITE`. -/
def Db.portfoliosInsert (db : Db F) (t : Txn) (key : CStr) (p : Portfolio) :
    Option (Except DbError Unit × Db F) :=
  if db.portfolios.lockedByOther t key then none
  else match db.portfolios.view t key with
    | some _ => some (.error .keyExist, db)
    | none => some (.ok (), { db with portfolios := db.portfolios.write t key p })

/-- A call on an open cursor. -/
def Db.onCursor {α : Type} (db : Db F) (c : CursorId)
    (f : OpenCursor → Option (Except DbError α × Db F)) : Option (Except DbError α × Db F) :=
  match db.cursor? c with
  | some oc => f oc
  | none => some (.error .other, db)

/-- The answer to a call that does not fail, for the transaction handle `self`
of the calling thread. -/
def Db.perform (self : Txn) (db : Db F) : (c : DbCall F) → Option (Except DbError c.Payload × Db F)
  | .txnBegin => some (.ok self, db)
  | .setName _ _ => some (.ok (), db)
  | .commit t => some (.ok (), db.commit t)
  | .abort t => some (.ok (), db.abort t)
  | .cursor dbp t =>
    let oc : OpenCursor := ⟨db.nextCursor, t, dbp, none⟩
    some (.ok db.nextCursor,
      { db with cursors := oc :: db.cursors, nextCursor := db.nextCursor + 1 })
  | .close c => some (.ok (), db.closeCursor c)
  | .get dbp c key => db.onCursor c fun oc => db.get c oc.owner key dbp
  | .personalNext c => db.onCursor c fun oc => some (db.personalNext oc)
  | .portfoliosPgetNext c => db.onCursor c fun oc => db.portfoliosPgetNext oc
  | .quotesPut c price => db.onCursor c fun oc => db.quotesPut oc price
  | .portfoliosPut c p => db.onCursor c fun oc => db.portfoliosPut oc p
  | .portfoliosInsert t key p => db.portfoliosInsert t key p

/-- What a failed call leaves behind: a transaction that failed to commit is
aborted, and a cursor that failed to close is gone. -/
def Db.afterFailure (db : Db F) : DbCall F → Db F
  | .commit t => db.abort t
  | .abort t => db.abort t
  | .close c => db.closeCursor c
  | _ => db

/-- The answer to a call that may be made to fail. -/
def Db.exec (self : Txn) (fault : Option DbError) (db : Db F) (c : DbCall F) :
    Option (Except DbError c.Payload × Db F) :=
  match fault with
  | some e => some (.error e, db.afterFailure c)
  | none => db.perform self c

end Perform

end Chronos.Storage
