import Chronos.Config

/-! # The ready queue of `chronos_queue.c`

A critical section runs from taking the mutex, or from waking up inside
`pthread_cond_timedwait`, to releasing it or waiting again. It is one atomic
step on the queue. `timeToDieFp` is asked after every wake-up, and only then.
-/
namespace Chronos.ReadyQueue

/-- `txn_info_t`, over the types of pointers and of request packets. -/
structure TxnInfo (Ptr Req : Type) where
  txnStart : ChronosTime
  txnEnqueue : ChronosTime
  ticket : UInt64
  txnDone : Option Ptr
  txnRc : Option Ptr
  request : Req
deriving DecidableEq

/-- `chronos_queue_t` without its mutex and condition variables. -/
structure ChronosQueue (Ptr Req : Type) where
  txnInfoArr : Vector (TxnInfo Ptr Req) CHRONOS_READY_QUEUE_SIZE
  occupied : ℤ
  nextin : ℕ
  nextout : ℕ
  ticketReq : UInt64

variable {Ptr Req : Type}

/-- `memset(&txn_info, 0, sizeof(txn_info))`. -/
def TxnInfo.zeroed (zeroReq : Req) : TxnInfo Ptr Req :=
  { txnStart := ⟨0,0⟩, txnEnqueue := ⟨0,0⟩, ticket := 0, txnDone := none, txnRc := none,
    request := zeroReq }

def ChronosQueue.zeroed (zeroReq : Req) : ChronosQueue Ptr Req :=
  { txnInfoArr := Vector.replicate _ (TxnInfo.zeroed zeroReq)
    occupied := 0, nextin := 0, nextout := 0, ticketReq := 0 }

/-- How a critical section ends: it waits again, an assertion or an array
access fails, or it leaves with a result. -/
inductive Section (Ptr Req ρ : Type) where
  | wait
  | abort
  | done (q : ChronosQueue Ptr Req) (result : ρ)

/-- The section of `chronos_dequeue_transaction` from its `while` test on. -/
def chronosDequeueTransaction (q : ChronosQueue Ptr Req) : Section Ptr Req (TxnInfo Ptr Req) :=
  if q.occupied ≤ 0 then .wait
  else if ¬ q.occupied > 0 then .abort
  else match q.txnInfoArr[q.nextout]? with
    | none => .abort
    | some info =>
      .done { q with nextout := (q.nextout + 1) % CHRONOS_READY_QUEUE_SIZE, occupied :=
        q.occupied - 1 } info

/-- The section of `chronos_enqueue_transaction` from its `while` test on. -/
def chronosEnqueueTransaction (q : ChronosQueue Ptr Req) (txnInfo : TxnInfo Ptr Req) :
    Section Ptr Req UInt64 :=
  if q.occupied ≥ CHRONOS_READY_QUEUE_SIZE then .wait
  else if ¬ q.occupied < CHRONOS_READY_QUEUE_SIZE then .abort
  else if h : q.nextin < CHRONOS_READY_QUEUE_SIZE then
    .done { q with
      txnInfoArr := q.txnInfoArr.set q.nextin { txnInfo with ticket := q.ticketReq + 1 } h
      ticketReq := q.ticketReq + 1
      nextin := (q.nextin + 1) % CHRONOS_READY_QUEUE_SIZE
      occupied := q.occupied + 1 } (q.ticketReq + 1)
  else .abort

/-- A call of one of the two functions; `none` is a NULL `txnInfoP`. -/
inductive Call (Ptr Req : Type) where
  | dequeue (txnInfoP : Bool)
  | enqueue (txnInfoP : Option (TxnInfo Ptr Req))

/-- What a thread that is not outside the queue waits for. -/
inductive Waiting (Ptr Req : Type) where
  | more
  | less (txnInfo : TxnInfo Ptr Req)

/-- A queue shared by any number of threads, each inside at most one call. -/
structure Shared (Ptr Req : Type) where
  queue : ChronosQueue Ptr Req
  waiting : ℕ → Option (Waiting Ptr Req)

/-- What one step of a thread shows to the outside. -/
inductive Outcome (Ptr Req : Type) where
  | idle
  | waits
  | aborts
  | fails
  | accepted (txnInfo : TxnInfo Ptr Req) (ticketRet : UInt64)
  | handedOut (txnInfo : TxnInfo Ptr Req)

/-- A thread calls a function, or wakes up from its timed wait and hears the
answer of `timeToDieFp`. -/
inductive Event (Ptr Req : Type) where
  | call (thread : ℕ) (c : Call Ptr Req)
  | wake (thread : ℕ) (timeToDie : Bool)

def enter (s : Shared Ptr Req) (thread : ℕ) (w : Waiting Ptr Req) :
    Shared Ptr Req × Outcome Ptr Req :=
  match w with
  | .more => match chronosDequeueTransaction s.queue with
    | .wait => ({ s with waiting := Function.update s.waiting thread (some .more) }, .waits)
    | .abort => (s, .aborts)
    | .done q info =>
      ({ queue := q, waiting := Function.update s.waiting thread none }, .handedOut info)
  | .less info => match chronosEnqueueTransaction s.queue info with
    | .wait => ({ s with waiting := Function.update s.waiting thread (some (.less info)) }, .waits)
    | .abort => (s, .aborts)
    | .done q ticket =>
      ({ queue := q, waiting := Function.update s.waiting thread none }, .accepted info ticket)

/-- One atomic step. A thread that calls while inside a call, or wakes up while
outside, does nothing. -/
def step (s : Shared Ptr Req) : Event Ptr Req → Shared Ptr Req × Outcome Ptr Req
  | .call thread c => match s.waiting thread, c with
    | some _, _ => (s, .idle)
    | none, .dequeue false => (s, .fails)
    | none, .dequeue true => enter s thread .more
    | none, .enqueue none => (s, .fails)
    | none, .enqueue (some info) => enter s thread (.less info)
  | .wake thread timeToDie => match s.waiting thread with
    | none => (s, .idle)
    | some w =>
      if timeToDie then ({ s with waiting := Function.update s.waiting thread none }, .fails)
      else enter s thread w

/-- The state after a sequence of steps and the outcomes of all of them. -/
def run (s : Shared Ptr Req) : List (Event Ptr Req) → Shared Ptr Req × List (Outcome Ptr Req)
  | [] => (s, [])
  | e :: es =>
    let (t, o) := step s e
    let (u, os) := run t es
    (u, o :: os)

def Shared.zeroed (zeroReq : Req) : Shared Ptr Req :=
  { queue := ChronosQueue.zeroed zeroReq, waiting := fun _ => none }

/-! ## The wrappers over the two queues -/

def userTxnInfo (zeroReq request : Req) (ts : ChronosTime) (txnDone txnRc : Option Ptr) :
    TxnInfo Ptr Req :=
  { (TxnInfo.zeroed zeroReq : TxnInfo Ptr Req) with
    request := request, txnEnqueue := ts, txnDone := txnDone, txnRc := txnRc }

def systemTxnInfo (zeroReq request : Req) (ts : ChronosTime) : TxnInfo Ptr Req :=
  { (TxnInfo.zeroed zeroReq : TxnInfo Ptr Req) with request := request, txnEnqueue := ts }

/-- `chronos_enqueue_user_transaction` on a context: its NULL checks, then the
call on `userTxnQueue`. -/
def chronosEnqueueUserTransaction (zeroReq request : Req) (ts : Option ChronosTime)
    (ticketRet : Bool) (txnDone txnRc : Option Ptr) : Call Ptr Req :=
  match ts, ticketRet with
  | some ts, true => .enqueue (some (userTxnInfo zeroReq request ts txnDone txnRc))
  | _, _ => .enqueue none

def chronosEnqueueSystemTransaction (zeroReq : Req) (request : Option Req)
    (ts : Option ChronosTime) : Call Ptr Req :=
  match request, ts with
  | some request, some ts => .enqueue (some (systemTxnInfo zeroReq request ts))
  | _, _ => .enqueue none

/-- What `chronos_dequeue_user_transaction` copies out of the dequeued entry. -/
structure UserTransaction (Ptr Req : Type) where
  request : Req
  ts : ChronosTime
  ticket : UInt64
  txnDone : Option Ptr
  txnRc : Option Ptr

def chronosDequeueUserTransaction (txnInfo : TxnInfo Ptr Req) : UserTransaction Ptr Req :=
  { request := txnInfo.request, ts := txnInfo.txnEnqueue, ticket := txnInfo.ticket
    txnDone := txnInfo.txnDone, txnRc := txnInfo.txnRc }

/-- What `chronos_dequeue_system_transaction` copies out of the dequeued entry. -/
def chronosDequeueSystemTransaction (txnInfo : TxnInfo Ptr Req) : Req × ChronosTime :=
  (txnInfo.request, txnInfo.txnEnqueue)

end Chronos.ReadyQueue
