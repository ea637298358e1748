import Chronos.Queue.BoundedFifo

/-! # Handler and processing threads of `startup_server_2.c`

`dispatchTableFn` enqueues a request with pointers to two variables of its own
frame and polls the first; `processUserTransaction` dequeues the request, runs
it and writes through the two pointers. Enqueue and dequeue are atomic, and
each read or write of the shared variables is a step of its own.
-/
namespace Chronos.Handshake
open ReadyQueue

/-- The two variables of a handler's `dispatchTableFn` frame. A handler calls
the function from one place, so every call has its frame at the same address. -/
inductive Local where
  | txnDone (handler : ℕ)
  | txnRc (handler : ℕ)
deriving DecidableEq

/-- The `seq`-th call of `dispatchTableFn` by a handler. -/
structure CallId where
  handler : ℕ
  seq : ℕ
deriving DecidableEq

/-- A request packet, and the call that sent it (which the code does not see). -/
structure Request (P : Type) where
  owner : CallId
  packet : P
deriving DecidableEq

abbrev Entry (P : Type) := TxnInfo Local (Request P)

/-- The next statement of a handler. -/
inductive HandlerPc where
  | outside
  | clearDone
  | clearRc
  | enqueuing
  | enqueueWaiting
  | polling
  | reading
deriving DecidableEq

structure Handler (P : Type) where
  pc : HandlerPc
  seq : ℕ
  packet : P

/-- The next statement of a processing thread. -/
inductive ProcessorPc (P : Type) where
  | loopTest
  | occupiedTest
  | occupiedTestAgain
  | dequeuing
  | dequeueWaiting
  | running (entry : Entry P)
  | storeDone (entry : Entry P) (txnRc : ℤ)
  | storeRc (entry : Entry P) (txnRc : ℤ)
  | exited
  | crashed

/-- The shared state, every thread's next statement, and three histories: the
results computed, the results stored, and the results returned. -/
structure Server (P : Type) where
  userTxnQueue : ChronosQueue Local (Request P)
  memory : Local → ℤ
  timeToDie : Bool
  handlers : ℕ → Handler P
  processors : ℕ → ProcessorPc P
  processed : List (Request P × ℤ)
  stored : List CallId
  returned : List (Request P × ℤ)

variable {P : Type}

/-- The call a handler is in, or will make next. -/
def Server.callId (s : Server P) (h : ℕ) : CallId := ⟨h, (s.handlers h).seq⟩

def Server.request (s : Server P) (h : ℕ) : Request P := ⟨s.callId h, (s.handlers h).packet⟩

def Server.handlerAt (s : Server P) (h : ℕ) (pc : HandlerPc) : Server P :=
  { s with handlers := Function.update s.handlers h { s.handlers h with pc := pc } }

def Server.processorAt (s : Server P) (p : ℕ) (pc : ProcessorPc P) : Server P :=
  { s with processors := Function.update s.processors p pc }

def Server.store (s : Server P) (l : Local) (v : ℤ) : Server P :=
  { s with memory := Function.update s.memory l v }

/-- The entry that `chronos_enqueue_user_transaction` is given by handler `h`. -/
def Server.entry (s : Server P) (h : ℕ) : Entry P :=
  userTxnInfo (s.request h) (s.request h) ⟨0,0⟩ (some (.txnDone h)) (some (.txnRc h))

/-- One step of `dispatchTableFn`. The result of the enqueue is not looked at. -/
def handlerStep (s : Server P) (h : ℕ) : Server P :=
  match (s.handlers h).pc with
  | .outside => s
  | .clearDone => (s.store (.txnDone h) 0).handlerAt h .clearRc
  | .clearRc => (s.store (.txnRc h) 0).handlerAt h .enqueuing
  | .enqueuing => match chronosEnqueueTransaction s.userTxnQueue (s.entry h) with
    | .wait => s.handlerAt h .enqueueWaiting
    | .abort => s
    | .done q _ => { s.handlerAt h .polling with userTxnQueue := q }
  | .enqueueWaiting =>
    if s.timeToDie then s.handlerAt h .polling
    else match chronosEnqueueTransaction s.userTxnQueue (s.entry h) with
      | .wait => s
      | .abort => s
      | .done q _ => { s.handlerAt h .polling with userTxnQueue := q }
  | .polling => if s.memory (.txnDone h) = 0 then s else s.handlerAt h .reading
  | .reading => { s with
      returned := s.returned ++ [(s.request h, s.memory (.txnRc h))]
      handlers := Function.update s.handlers h
        { s.handlers h with pc := .outside, seq := (s.handlers h).seq + 1 } }

/-- One step of `processThread` and `processUserTransaction`. `txnRc` is what
the benchmark function returns, if this step calls it. -/
def processorStep (s : Server P) (p : ℕ) (txnRc : ℤ) : Server P :=
  match s.processors p with
  | .loopTest => if s.timeToDie then s.processorAt p .exited else s.processorAt p .occupiedTest
  | .occupiedTest =>
    if s.userTxnQueue.occupied > 0 then s.processorAt p .occupiedTestAgain
      else s.processorAt p .loopTest
  | .occupiedTestAgain =>
    if s.userTxnQueue.occupied > 0 then s.processorAt p .dequeuing else s.processorAt p .loopTest
  | .dequeuing => match chronosDequeueTransaction s.userTxnQueue with
    | .wait => s.processorAt p .dequeueWaiting
    | .abort => s.processorAt p .crashed
    | .done q entry => { s.processorAt p (.running entry) with userTxnQueue := q }
  | .dequeueWaiting =>
    if s.timeToDie then s.processorAt p .loopTest
    else match chronosDequeueTransaction s.userTxnQueue with
      | .wait => s
      | .abort => s.processorAt p .crashed
      | .done q entry => { s.processorAt p (.running entry) with userTxnQueue := q }
  | .running entry => { s.processorAt p (.storeDone entry txnRc) with
      processed := s.processed ++ [(entry.request, txnRc)] }
  -- the waiter is notified before its result is stored
  | .storeDone entry rc => match entry.txnDone with
    | none => s.processorAt p .crashed
    | some l => (s.store l 1).processorAt p (.storeRc entry rc)
  | .storeRc entry rc => match entry.txnRc with
    | none => s.processorAt p .crashed
    | some l =>
      { (s.store l rc).processorAt p .loopTest with stored := s.stored ++ [entry.request.owner] }
  | .exited => s
  | .crashed => s

inductive Event (P : Type) where
  | dispatch (handler : ℕ) (packet : P)
  | handler (h : ℕ)
  | processor (p : ℕ) (txnRc : ℤ)
  | sigint

/-- One step of one thread; a thread that cannot make the step does nothing. -/
def step (s : Server P) : Event P → Server P
  | .dispatch h packet => match (s.handlers h).pc with
    | .outside => { s with
        handlers :=
          Function.update s.handlers h { s.handlers h with pc := .clearDone, packet := packet } }
    | _ => s
  | .handler h => handlerStep s h
  | .processor p txnRc => processorStep s p txnRc
  | .sigint => { s with timeToDie := true }

def run (s : Server P) (es : List (Event P)) : Server P := es.foldl step s

/-- Every handler outside its first call, `numServerThreads` processing threads
at their loop, and whatever the frames held before. -/
def initial (numServerThreads : ℕ) (packet : P) (memory : Local → ℤ) : Server P where
  userTxnQueue := ChronosQueue.zeroed ⟨⟨0,0⟩, packet⟩
  memory := memory
  timeToDie := false
  handlers _ := ⟨.outside, 0, packet⟩
  processors p := if p < numServerThreads then .loopTest else .exited
  processed := []
  stored := []
  returned := []

end Chronos.Handshake
