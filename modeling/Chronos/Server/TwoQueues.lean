import Chronos.Server.Shutdown

/-! # The server with both of its queues

`updateThread` puts refreshes into `sysTxnQueue`, the handlers put requests into
`userTxnQueue`, and each pass of `processThread` takes first from the one and then
from the other. The user side is the server of `Handshake`: while a processing thread
is in the part for `sysTxnQueue`, it stands there before its test of `userTxnQueue`.
-/
namespace Chronos.TwoQueues
open ReadyQueue Foundation

/-- A refresh, and the update thread and call that enqueued it (which the code does not see). -/
structure Refresh (P : Type) where
  updater : ℕ
  seq : ℕ
  packet : P
deriving DecidableEq

abbrev RefreshEntry (P : Type) := TxnInfo Handshake.Local (Refresh P)

/-- Where an update thread is in `chronos_enqueue_system_transaction`. -/
inductive UpdaterPc where
  | outside
  | enqueuing
  | enqueueWaiting
deriving DecidableEq

structure Updater (P : Type) where
  pc : UpdaterPc
  seq : ℕ
  packet : P

/-- Where a processing thread is in the part of its loop for `sysTxnQueue`. -/
inductive RefresherPc (P : Type) where
  | past
  | occupiedTest
  | dequeuing
  | dequeueWaiting
  | running (entry : RefreshEntry P)
  | crashed

/-- The user side, the system side, and three histories of refreshes: those the queue
accepted, those it handed out, and those that were run, with their results. -/
structure Server (P : Type) where
  userSide : Handshake.Server P
  sysTxnQueue : ChronosQueue Handshake.Local (Refresh P)
  updaters : ℕ → Updater P
  refreshers : ℕ → RefresherPc P
  enqueued : List (Refresh P)
  taken : List (Refresh P)
  refreshed : List (Refresh P × ℤ)

variable {P : Type}

/-- The refresh that an update thread is enqueuing. -/
def Server.refresh (s : Server P) (u : ℕ) : Refresh P :=
  ⟨u, (s.updaters u).seq, (s.updaters u).packet⟩

/-- The entry that `chronos_enqueue_system_transaction` is given by update thread `u`. -/
def Server.entry (s : Server P) (u : ℕ) : RefreshEntry P :=
  systemTxnInfo (s.refresh u) (s.refresh u) ⟨0,0⟩

def Server.updaterAt (s : Server P) (u : ℕ) (pc : UpdaterPc) : Server P :=
  { s with updaters := Function.update s.updaters u { s.updaters u with pc := pc } }

/-- The call of update thread `u` is over. -/
def Server.updaterDone (s : Server P) (u : ℕ) : Server P :=
  { s with
    updaters := Function.update s.updaters u
      { s.updaters u with pc := .outside, seq := (s.updaters u).seq + 1 } }

def Server.refresherAt (s : Server P) (p : ℕ) (pc : RefresherPc P) : Server P :=
  { s with refreshers := Function.update s.refreshers p pc }

def Server.userStep (s : Server P) (ev : Handshake.Event P) : Server P :=
  { s with userSide := Handshake.step s.userSide ev }

/-- The critical section of `chronos_enqueue_system_transaction` for update thread `u`. -/
def enqueueRefresh (s : Server P) (u : ℕ) : Server P :=
  match chronosEnqueueTransaction s.sysTxnQueue (s.entry u) with
  | .wait => s.updaterAt u .enqueueWaiting
  | .abort => s
  | .done q _ => { s.updaterDone u with sysTxnQueue := q, enqueued := s.enqueued ++ [s.refresh u] }

/-- One step of an update thread inside its call. The result of the call is not looked at. -/
def updaterStep (s : Server P) (u : ℕ) : Server P :=
  match (s.updaters u).pc with
  | .outside => s
  | .enqueuing => enqueueRefresh s u
  | .enqueueWaiting => if s.userSide.timeToDie then s.updaterDone u else enqueueRefresh s u

/-- The critical section of `chronos_dequeue_system_transaction` for processing thread `p`. -/
def dequeueRefresh (s : Server P) (p : ℕ) : Server P :=
  match chronosDequeueTransaction s.sysTxnQueue with
  | .wait => s.refresherAt p .dequeueWaiting
  | .abort => s.refresherAt p .crashed
  | .done q entry =>
    { s.refresherAt p (.running entry) with sysTxnQueue := q, taken := s.taken ++ [entry.request] }

/-- One step of `processThread`, `processRefreshTransaction` or `processUserTransaction`. `rc` is
what the benchmark function returns, if this step calls one. -/
def processorStep (s : Server P) (p : ℕ) (rc : ℤ) : Server P :=
  match s.refreshers p with
  | .past => match s.userSide.processors p with
    | .loopTest =>
      if s.userSide.timeToDie then s.userStep (.processor p rc)
      else (s.userStep (.processor p rc)).refresherAt p .occupiedTest
    | _ => s.userStep (.processor p rc)
  | .occupiedTest =>
    if s.sysTxnQueue.occupied > 0 then s.refresherAt p .dequeuing else s.refresherAt p .past
  | .dequeuing => dequeueRefresh s p
  -- a dequeue that fails on `time_to_die` only costs the refresh its turn
  | .dequeueWaiting => if s.userSide.timeToDie then s.refresherAt p .past else dequeueRefresh s p
  | .running entry =>
    { s.refresherAt p .past with refreshed := s.refreshed ++ [(entry.request, rc)] }
  | .crashed => s

inductive Event (P : Type) where
  | dispatch (handler : ℕ) (packet : P)
  | handler (h : ℕ)
  | refresh (updater : ℕ) (packet : P)
  | updater (u : ℕ)
  | processor (p : ℕ) (rc : ℤ)
  | sigint

/-- One step of one thread; a thread that cannot make the step does nothing. -/
def step (s : Server P) : Event P → Server P
  | .dispatch h packet => s.userStep (.dispatch h packet)
  | .handler h => s.userStep (.handler h)
  | .refresh u packet => match (s.updaters u).pc with
    | .outside => { s with
        updaters :=
          Function.update s.updaters u { s.updaters u with pc := .enqueuing, packet := packet } }
    | _ => s
  | .updater u => updaterStep s u
  | .processor p rc => processorStep s p rc
  | .sigint => s.userStep .sigint

def run (s : Server P) (es : List (Event P)) : Server P := es.foldl step s

/-- Empty queues, every update thread outside its call, and the user side as it starts. -/
def initial (numServerThreads : ℕ) (packet : P) (memory : Handshake.Local → ℤ) : Server P where
  userSide := Handshake.initial numServerThreads packet memory
  sysTxnQueue := ChronosQueue.zeroed ⟨0, 0, packet⟩
  updaters _ := ⟨.outside, 0, packet⟩
  refreshers _ := .past
  enqueued := []
  taken := []
  refreshed := []

/-! ## The user side is the server of `Handshake` -/

section UserSide
variable {s : Server P}

@[simp] theorem updaterAt_userSide (u : ℕ) (pc : UpdaterPc) :
    (s.updaterAt u pc).userSide = s.userSide := rfl
@[simp] theorem updaterDone_userSide (u : ℕ) : (s.updaterDone u).userSide = s.userSide := rfl
@[simp] theorem refresherAt_userSide (p : ℕ) (pc : RefresherPc P) :
    (s.refresherAt p pc).userSide = s.userSide := rfl
@[simp] theorem userStep_userSide (ev : Handshake.Event P) :
    (s.userStep ev).userSide = Handshake.step s.userSide ev := rfl

@[simp] theorem enqueueRefresh_userSide (u : ℕ) : (enqueueRefresh s u).userSide = s.userSide := by
  unfold enqueueRefresh
  split <;> rfl

@[simp] theorem updaterStep_userSide (u : ℕ) : (updaterStep s u).userSide = s.userSide := by
  unfold updaterStep
  repeat' split
  all_goals simp

@[simp] theorem dequeueRefresh_userSide (p : ℕ) : (dequeueRefresh s p).userSide = s.userSide := by
  unfold dequeueRefresh
  split <;> rfl

/-- The step that the user side makes, if it makes one. -/
def userEvent (s : Server P) : Event P → Option (Handshake.Event P)
  | .dispatch h packet => some (.dispatch h packet)
  | .handler h => some (.handler h)
  | .processor p rc => match s.refreshers p with
    | .past => some (.processor p rc)
    | _ => none
  | .sigint => some .sigint
  | .refresh _ _ => none
  | .updater _ => none

/-- The steps that the user side makes in a run. -/
def userEvents (s : Server P) : List (Event P) → List (Handshake.Event P)
  | [] => []
  | ev :: es => (userEvent s ev).toList ++ userEvents (step s ev) es

theorem processorStep_userSide (p : ℕ) (rc : ℤ) :
    (processorStep s p rc).userSide = (userEvent s (.processor p rc)).elim s.userSide
    (Handshake.step s.userSide) := by
  unfold processorStep
  cases hp : s.refreshers p with
  | past =>
    simp only [userEvent, hp, Option.elim_some]
    repeat' split
    all_goals rfl
  | _ =>
    simp only [userEvent, hp, Option.elim_none]
    repeat' split
    all_goals simp

/-- Each step is one of the user side or does not touch it. -/
theorem step_userSide (s : Server P) (ev : Event P) :
    (step s ev).userSide = (userEvent s ev).elim s.userSide (Handshake.step s.userSide) := by
  cases ev with
  | dispatch h packet => rfl
  | handler h => rfl
  | sigint => rfl
  | updater u => exact updaterStep_userSide u
  | processor p rc => exact processorStep_userSide p rc
  | refresh u packet =>
    simp only [step]
    split <;> rfl

/-- The user side of a run is a run of the user side. -/
theorem run_userSide (s : Server P) (es : List (Event P)) :
    (run s es).userSide = Handshake.run s.userSide (userEvents s es) := by
  induction es generalizing s with
  | nil => rfl
  | cons ev es ih =>
    have hstep := step_userSide s ev
    have hrest := ih (step s ev)
    rw [userEvents, Handshake.run, List.foldl_append]
    rw [hstep] at hrest
    cases hev : userEvent s ev with
    | none =>
      rw [hev] at hrest
      exact hrest
    | some ev' =>
      rw [hev] at hrest
      exact hrest

end UserSide

end Chronos.TwoQueues
