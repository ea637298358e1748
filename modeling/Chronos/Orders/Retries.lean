import Chronos.Benchmark.Orders
import Chronos.Foundation.Reach

/-! # Whether an order comes back

The calls of `sell_stocks` and `place_order` are answered as an assignment of results says,
whatever the results are. With a transaction of its own an order goes back to `failXit` as
long as the primary cursor cannot be closed or the transaction not aborted.
-/
namespace Chronos.Retries
open Foundation Storage Benchmark Program
variable {F : Type}

/-- A call of the database with its result, or one of the others. -/
inductive Reply (F : Type) where
  | db (c : DbCall F) (answer : Except DbError c.Payload)
  | other

def reply : (c : Call F) → Answer c → Reply F
  | .db c, a => .db c a
  | .fetchAndAdd, _ => .other
  | .rand, _ => .other

/-- What the n-th call gives back, whichever it is. -/
abbrev Results (F : Type) := ℕ → (c : Call F) → Answer c

/-- The calls are answered one after the other, and recorded. -/
def Results.answer (results : Results F) (c : Call F) (tr : List (Reply F)) :
    Option (Answer c × List (Reply F)) :=
  some (results tr.length c, tr ++ [reply c (results tr.length c)])

inductive Side where
  | sell
  | place
deriving DecidableEq

/-- The arguments of `sell_stocks` or `place_order`. -/
structure Order (F : Type) where
  side : Side
  accountId : CStr
  symbol : CStr
  price : F
  amount : ℤ
  forceApply : Bool
  xactH : Option Txn

def Order.run [CFloat F] (q : Order F) : DbProgram F Rc :=
  match q.side with
  | .sell => sellStocks q.accountId q.symbol q.price q.amount q.forceApply q.xactH
  | .place => placeOrder q.accountId q.symbol q.price q.amount q.forceApply q.xactH

/-- A step fails. That a walk comes to its end is no failure. -/
def Reply.Fails : Reply F → Prop
  | .db (.portfoliosPgetNext _) (.error .notFound) => False
  | .db _ (.error _) => True
  | _ => False

def Reply.Refuses : Reply F → Prop
  | .db (.cursor .portfoliosSec _) (.error _) => True
  | _ => False

def Refused (tr : List (Reply F)) : Prop := ∃ e ∈ tr, e.Refuses

/-- The primary cursor that is created. -/
def Reply.primary : Reply F → Option CursorId
  | .db (.cursor .portfolios _) (.ok c) => some c
  | _ => none

def Reply.asks : Reply F → Bool
  | .db (.cursor .portfolios _) _ => true
  | _ => false

def Reply.call : Reply F → Option (DbCall F)
  | .db c _ => some c
  | .other => none

def Order.Wanted (q : Order F) (p : Portfolio) : Prop :=
  q.accountId = p.accountId ∧ q.symbol = p.symbol

/-- After this the same call is made again: an abort, the close of a cursor under an own
transaction, a step of the walk. -/
def Order.Again (q : Order F) : Reply F → Prop
  | .db (.abort _) (.error _) => True
  | .db (.close _) (.error _) => q.xactH = none
  | .db (.portfoliosPgetNext _) (.ok (_, p)) => ¬ q.Wanted p
  | _ => False

/-- Of the closes only that of the primary cursor is made again. -/
def Order.Repeats (q : Order F) (primaries : List CursorId) : Reply F → Prop
  | .db (.close c) (.error _) => q.xactH = none ∧ c ∈ primaries
  | e => q.Again e

def Order.accepts [CFloat F] (q : Order F) (currentPrice : F) : Bool :=
  match q.side with
  | .sell => CFloat.le q.price currentPrice
  | .place => CFloat.le currentPrice q.price

/-- The order does not go through: what is read is not good enough, or a call fails and this
is heeded. It is not if a cursor of a lookup is closed, nor when a purchase walks the portfolios. -/
def Order.Stops [CFloat F] (q : Order F) (asked : Bool) : Reply F → Prop
  | .db (.get .quotes _ _) (.ok currentPrice) => q.accepts currentPrice = false
  | .db (.portfoliosPgetNext _) (.ok (_, p)) =>
    q.side = .sell ∧ q.Wanted p ∧ p.holdStocks < q.amount
  | .db (.portfoliosPgetNext _) (.error _) => q.side = .sell
  | .db (.close _) (.error _) => asked
  | .db _ (.error _) => True
  | _ => False

def Order.Stopped [CFloat F] (q : Order F) (tr : List (Reply F)) : Prop :=
  ∃ pre e post, tr = pre ++ e :: post ∧ q.Stops (pre.any Reply.asks) e

/-- The account or the symbol is empty, so that it does not exist. -/
def Order.Blank (q : Order F) : Prop := q.accountId = [] ∨ q.symbol = []

/-- The last call is to be made again, and it will never come out otherwise. -/
def Order.Hopeless (q : Order F) (results : Results F) (tr : List (Reply F)) : Prop :=
  ∃ pre c a, tr = pre ++ [.db c a] ∧ q.Repeats (pre.filterMap Reply.primary) (.db c a) ∧
    ∀ m, tr.length ≤ m → q.Again (.db c (results m (.db c)))

/-- The order comes back, with a failure if any step has failed. -/
def Order.Returns [CFloat F] (q : Order F) (results : Results F) : Prop :=
  ∃ rc tr, Exec results.answer q.run [] (.value rc) tr ∧ ((∃ e ∈ tr, e.Fails) → rc = BENCHMARK_FAIL)

/-- What the order comes through: the cursor of `get_portfolio` is created, no call is made
again for ever, and if a step fails then something that is heeded stops the order. -/
structure Order.Passable [CFloat F] (q : Order F) (results : Results F) : Prop where
  created : ∀ tr, Reaches results.answer q.run [] tr → ¬ Refused tr
  hopeful : ∀ tr, Reaches results.answer q.run [] tr → ¬ q.Hopeless results tr
  heeded : ∀ tr, Reaches results.answer q.run [] tr → (∃ e ∈ tr, e.Fails) →
    q.Blank ∨ ∃ tr', Reaches results.answer q.run [] tr' ∧ q.Stopped tr'

end Chronos.Retries
