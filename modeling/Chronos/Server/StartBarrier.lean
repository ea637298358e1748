import Chronos.Foundation.Runs

/-! # The start barrier of `startup_server_2.c`

`daListener` spawns a handler for every connection and then counts it in
`currentNumClients`; a handler waits until `numClientsThreads` have been counted and
takes itself off the count when it exits. What is done under `startThreadsMutex` is one
step; whoever waits for the condition variable has let go of the mutex, and tests again
in a step of its own once it has been woken.
-/
namespace Chronos.StartBarrier
open Foundation

/-- Where a handler is in `daHandler`. -/
inductive HandlerPc where
  | unborn
  | testing
  | waiting
  | serving
  | exited
deriving DecidableEq

/-- Where the listener is: at its outer loop, at its inner loop, about to count the
handler that it has spawned, or past both loops. -/
inductive ListenerPc where
  | polling
  | accepting
  | registering
  | finished
deriving DecidableEq

/-- `numRegistered` is history: how many handlers the listener has counted. They are
spawned and counted in the order of their numbers. -/
structure Server where
  currentNumClients : ℤ
  timeToDie : Bool
  doneCreating : Bool
  listener : ListenerPc
  handlers : ℕ → HandlerPc
  numSpawned : ℕ
  numRegistered : ℕ

def initial : Server where
  currentNumClients := 0
  timeToDie := false
  doneCreating := false
  listener := .polling
  handlers _ := .unborn
  numSpawned := 0
  numRegistered := 0

def HandlerPc.wake : HandlerPc → HandlerPc
  | .waiting => .testing
  | pc => pc

def Server.handlerAt (s : Server) (h : ℕ) (pc : HandlerPc) : Server :=
  { s with handlers := Function.update s.handlers h pc }

/-- `pthread_cond_broadcast(&startThreadsWait)`. -/
def Server.broadcast (s : Server) : Server := { s with handlers := fun h => (s.handlers h).wake }

/-- `currentNumClients < numClientsThreads && time_to_die == 0`. -/
def Server.mustWait (s : Server) (numClientsThreads : ℤ) : Prop :=
  s.currentNumClients < numClientsThreads ∧ s.timeToDie = false

instance mustWaitDecidable (s : Server) (n : ℤ) : Decidable (s.mustWait n) :=
  inferInstanceAs (Decidable (_ ∧ _))

/-- `ready` and `wake` are what `poll` and a spurious wakeup decide, `fails` is a failing
call of the listener, and `die` is any other thread or signal that sets `time_to_die`. -/
inductive Event where
  | poll (ready : Bool)
  | accept
  | noConnection
  | fails
  | register
  | test (h : ℕ)
  | wake (h : ℕ)
  | exit (h : ℕ)
  | die
deriving DecidableEq

/-- The listener counts the handler that it has spawned. -/
def Server.register (s : Server) (numClientsThreads : ℤ) : Server :=
  { s.broadcast with
    currentNumClients := s.currentNumClients + 1
    doneCreating := s.doneCreating || s.currentNumClients + 1 = numClientsThreads
    listener := .accepting
    numRegistered := s.numRegistered + 1 }

/-- The cleanup of `daHandler`. -/
def Server.exit (s : Server) (h : ℕ) : Server :=
  { s.handlerAt h .exited with
    currentNumClients := s.currentNumClients - 1
    timeToDie := s.timeToDie || s.currentNumClients - 1 = 0 }

def step (numClientsThreads : ℤ) (s : Server) : Event → Server
  | .poll ready => match s.listener with
    | .polling =>
      if s.doneCreating || s.timeToDie then { s with listener := .finished }
      else if ready then { s with listener := .accepting } else s
    | _ => s
  | .accept => match s.listener with
    | .accepting =>
      { s.handlerAt s.numSpawned .testing with listener := .registering, numSpawned :=
        s.numSpawned + 1 }
    | _ => s
  | .noConnection => match s.listener with
    | .accepting => { s with listener := .polling }
    | _ => s
  | .fails => match s.listener with
    | .registering => s
    | _ => { s with listener := .finished }
  | .register => match s.listener with
    | .registering => s.register numClientsThreads
    | _ => s
  | .test h => match s.handlers h with
    | .testing =>
      if s.mustWait numClientsThreads then s.handlerAt h .waiting
        else (s.handlerAt h .serving).broadcast
    | _ => s
  | .wake h => s.handlerAt h (s.handlers h).wake
  | .exit h => match s.handlers h with
    | .serving => s.exit h
    | _ => s
  | .die => { s with timeToDie := true }

def run (numClientsThreads : ℤ) (es : List Event) : Server :=
  es.foldl (step numClientsThreads) initial

/-! ## What the barrier promises -/

def HandlerPc.before (pc : HandlerPc) : Prop := pc = .testing ∨ pc = .waiting

def HandlerPc.passed (pc : HandlerPc) : Prop := pc = .serving ∨ pc = .exited

/-- Nobody passes too early; once enough handlers have been registered, the condition of
the wait is false for each registered handler before the barrier, and none is waiting.
The condition is asked for in every state, whether the handler tests it there or not. -/
structure Holds (n : ℤ) (s : Server) : Prop where
  gated : ∀ h, (s.handlers h).passed → n ≤ s.numRegistered ∨ s.timeToDie = true
  free : n ≤ s.numRegistered → ∀ h < s.numRegistered, (s.handlers h).before → ¬ s.mustWait n
  woken : n ≤ s.numRegistered → ∀ h < s.numRegistered, s.handlers h ≠ .waiting

/-- A handler does not leave the count below `numClientsThreads` while a registered one is
before the barrier, and no late one is registered there at a count that is too low. -/
def Safe (n : ℤ) (s : Server) : Event → Prop
  | .exit h =>
    s.handlers h = .serving → n ≤ s.numRegistered → (∃ k < s.numRegistered, (s.handlers k).before) →
      n < s.currentNumClients ∨ s.currentNumClients = 1 ∨ s.timeToDie = true
  | .register =>
    s.listener = .registering → n ≤ s.numRegistered → (s.handlers s.numRegistered).before →
      n ≤ s.currentNumClients + 1 ∨ s.timeToDie = true
  | _ => True

/-- What holds whatever the schedule is. -/
structure Inv (n : ℤ) (s : Server) : Prop where
  spawned : s.numSpawned = s.numRegistered + if s.listener = .registering then 1 else 0
  born : ∀ h, s.numSpawned ≤ h → s.handlers h = .unborn
  closed : s.timeToDie = false → (s.numRegistered : ℤ) < n →
    s.currentNumClients = s.numRegistered ∧ ∀ h, ¬ (s.handlers h).passed

section Wake
variable {pc : HandlerPc}

@[simp] theorem wake_before : pc.wake.before ↔ pc.before := by
  cases pc <;> simp [HandlerPc.wake, HandlerPc.before]

@[simp] theorem wake_passed : pc.wake.passed ↔ pc.passed := by
  cases pc <;> simp [HandlerPc.wake, HandlerPc.passed]

@[simp] theorem wake_unborn : pc.wake = .unborn ↔ pc = .unborn := by
  cases pc <;> simp [HandlerPc.wake]

theorem wake_ne_waiting : pc.wake ≠ .waiting := by
  cases pc <;> simp [HandlerPc.wake]

end Wake

section Steps
variable {n : ℤ} {s : Server} {h : ℕ} {pc : HandlerPc}

theorem handlerAt_self : (s.handlerAt h pc).handlers h = pc := by
  simp only [Server.handlerAt, Function.update_self]

theorem handlerAt_ne {k : ℕ} (hk : k ≠ h) : (s.handlerAt h pc).handlers k = s.handlers k := by
  simp only [Server.handlerAt, Function.update_of_ne hk]

theorem forall_handlerAt {P : ℕ → HandlerPc → Prop} (hself : P h pc)
    (hall : ∀ k, P k (s.handlers k)) (k : ℕ) : P k ((s.handlerAt h pc).handlers k) := by
  by_cases hk : k = h
  · subst hk
    rw [handlerAt_self]
    exact hself
  · rw [handlerAt_ne hk]
    exact hall k

theorem inv_initial (n : ℤ) : Inv n initial where
  spawned := rfl
  born _ _ := rfl
  closed _ _ := ⟨rfl, fun _ => by simp [initial, HandlerPc.passed]⟩

theorem holds_initial (n : ℤ) : Holds n initial where
  gated _ hpassed := by simp [initial, HandlerPc.passed] at hpassed
  free _ _ hlt := absurd hlt (Nat.not_lt_zero _)
  woken _ _ hlt := absurd hlt (Nat.not_lt_zero _)

/-! ## What one step keeps -/

/-- A handler that has been born moves on; past the barrier only if it may. -/
theorem Inv.handlerAt (hi : Inv n s) (hborn : s.handlers h ≠ .unborn)
    (hpassed : pc.passed → s.timeToDie = false → n ≤ s.numRegistered) :
    Inv n (s.handlerAt h pc) where
  spawned := hi.spawned
  born := by
    intro k hk
    have hne : k ≠ h := fun hkh => hborn (hkh ▸ hi.born k hk)
    rw [handlerAt_ne hne]
    exact hi.born k hk
  closed := by
    intro halive hless
    obtain ⟨hcount, hnone⟩ := hi.closed halive hless
    refine ⟨hcount, forall_handlerAt (P := fun _ pc => ¬ pc.passed) (fun hp => ?_) hnone⟩
    exact absurd (hpassed hp halive) (not_le.mpr hless)

theorem Inv.broadcast (hi : Inv n s) : Inv n s.broadcast where
  spawned := hi.spawned
  born h hh := wake_unborn.mpr (hi.born h hh)
  closed halive hless := by
    obtain ⟨hcount, hnone⟩ := hi.closed halive hless
    exact ⟨hcount, fun h hp => hnone h (wake_passed.mp hp)⟩

theorem Inv.passed (hi : Inv n s) (hp : (s.handlers h).passed) (halive : s.timeToDie = false) :
    n ≤ s.numRegistered := by
  by_contra hless
  exact (hi.closed halive (not_le.mp hless)).2 h hp

/-- Only registered handlers are waited for, so far as the listener is not in between. -/
theorem Inv.accept (hi : Inv n s) (hl : s.listener = .accepting) :
    Inv n { s.handlerAt s.numSpawned .testing with listener := .registering, numSpawned :=
      s.numSpawned + 1 } where
  spawned := by
    have hspawned := hi.spawned
    rw [hl, if_neg (by decide)] at hspawned
    change s.numSpawned + 1 = s.numRegistered + 1
    omega
  born := by
    intro k hk
    change s.numSpawned + 1 ≤ k at hk
    have hne : k ≠ s.numSpawned := by omega
    exact (handlerAt_ne hne).trans (hi.born k (by omega))
  closed := by
    intro halive hless
    obtain ⟨hcount, hnone⟩ := hi.closed halive hless
    exact ⟨hcount, forall_handlerAt (P := fun _ pc => ¬ pc.passed)
      (by simp [HandlerPc.passed]) hnone⟩

theorem Inv.register (hi : Inv n s) (hl : s.listener = .registering) : Inv n (s.register n) where
  spawned := by
    have hspawned := hi.spawned
    rw [hl, if_pos rfl] at hspawned
    exact hspawned
  born h hh := wake_unborn.mpr (hi.born h hh)
  closed := by
    intro halive hless
    change ((s.numRegistered + 1 : ℕ) : ℤ) < n at hless
    obtain ⟨hcount, hnone⟩ := hi.closed halive (by push_cast at hless; omega)
    refine ⟨?_, fun h hp => hnone h (wake_passed.mp hp)⟩
    change s.currentNumClients + 1 = ((s.numRegistered + 1 : ℕ) : ℤ)
    rw [hcount]
    rfl

theorem Inv.exit (hi : Inv n s) (hh : s.handlers h = .serving) : Inv n (s.exit h) := by
  have hpassed : (s.handlers h).passed := Or.inl hh
  have hmoved : Inv n (s.handlerAt h .exited) :=
    hi.handlerAt (by rw [hh]; decide) fun _ => hi.passed hpassed
  refine ⟨hmoved.spawned, hmoved.born, fun halive hless => ?_⟩
  have hbefore : s.timeToDie = false := (Bool.or_eq_false_iff.mp halive).1
  exact absurd (hi.passed hpassed hbefore) (not_le.mpr hless)

theorem step_inv (hi : Inv n s) (e : Event) : Inv n (step n s e) := by
  cases e with
  | poll ready =>
    simp only [step]
    split
    · rename_i hl
      have hspawned := hi.spawned
      rw [hl] at hspawned
      split_ifs <;> first | exact hi | exact ⟨hspawned, hi.born, hi.closed⟩
    · exact hi
  | accept =>
    simp only [step]
    split
    · exact hi.accept ‹_›
    · exact hi
  | noConnection =>
    simp only [step]
    split
    · rename_i hl
      have hspawned := hi.spawned
      rw [hl] at hspawned
      exact ⟨hspawned, hi.born, hi.closed⟩
    · exact hi
  | fails =>
    simp only [step]
    split
    · exact hi
    · rename_i hl
      have hspawned := hi.spawned
      rw [if_neg hl] at hspawned
      exact ⟨hspawned, hi.born, hi.closed⟩
  | register =>
    simp only [step]
    split
    · exact hi.register ‹_›
    · exact hi
  | test h =>
    simp only [step]
    split
    · rename_i hh
      have hborn : s.handlers h ≠ .unborn := by rw [hh]; decide
      split_ifs with hwait
      · exact hi.handlerAt hborn (by simp [HandlerPc.passed])
      · refine (hi.handlerAt hborn fun _ halive => ?_).broadcast
        by_contra hless
        obtain ⟨hcount, -⟩ := hi.closed halive (not_le.mp hless)
        exact hwait ⟨by omega, halive⟩
    · exact hi
  | wake h =>
    simp only [step]
    by_cases hborn : s.handlers h = .unborn
    · have hsame : s.handlerAt h (s.handlers h).wake = s := by
        rw [wake_unborn.mpr hborn, ← hborn, Server.handlerAt, Function.update_eq_self]
      rw [hsame]
      exact hi
    · exact hi.handlerAt hborn fun hp halive => hi.passed (wake_passed.mp hp) halive
  | exit h =>
    simp only [step]
    split
    · exact hi.exit ‹_›
    · exact hi
  | die => exact ⟨hi.spawned, hi.born, fun halive => by cases halive⟩

/-! ## Which steps keep the promise -/

theorem Holds.handlerAt (hs : Holds n s)
    (hpassed : pc.passed → n ≤ s.numRegistered ∨ s.timeToDie = true)
    (hbefore : h < s.numRegistered → pc.before → (s.handlers h).before)
    (hwaiting : n ≤ s.numRegistered → h < s.numRegistered → pc ≠ .waiting) :
    Holds n (s.handlerAt h pc) where
  gated := forall_handlerAt (P := fun _ pc => pc.passed → _) hpassed hs.gated
  free hn := forall_handlerAt (P := fun k pc => k < s.numRegistered → pc.before → _)
    (fun hlt hb => hs.free hn h hlt (hbefore hlt hb)) (hs.free hn)
  woken hn := forall_handlerAt (P := fun k pc => k < s.numRegistered → pc ≠ .waiting) (hwaiting hn)
    (hs.woken hn)

theorem Holds.broadcast (hs : Holds n s) : Holds n s.broadcast where
  gated h hp := hs.gated h (wake_passed.mp hp)
  free hn h hlt hb := hs.free hn h hlt (wake_before.mp hb)
  woken _ _ _ := wake_ne_waiting

theorem Holds.test (hs : Holds n s) (hi : Inv n s) (hh : s.handlers h = .testing) :
    Holds n (step n s (.test h)) := by
  have hb : (s.handlers h).before := Or.inl hh
  simp only [step, hh]
  split_ifs with hwait
  · refine hs.handlerAt (by simp [HandlerPc.passed]) (fun _ _ => hb) fun hn hlt => ?_
    exact absurd hwait (hs.free hn h hlt hb)
  · refine (hs.handlerAt (fun _ => ?_) (by simp [HandlerPc.before]) (by simp)).broadcast
    by_contra hnot
    obtain ⟨hless, halive⟩ := not_or.mp hnot
    have halive' := Bool.eq_false_of_not_eq_true halive
    obtain ⟨hcount, -⟩ := hi.closed halive' (not_le.mp hless)
    exact hwait ⟨by omega, halive'⟩

theorem holds_register_iff (hs : Holds n s) (hi : Inv n s) (hl : s.listener = .registering) :
    Holds n (s.register n) ↔ Safe n s .register := by
  constructor
  · intro hs' _ hn hb
    have hfree :=
      hs'.free (by change n ≤ ((s.numRegistered + 1 : ℕ) : ℤ); push_cast; omega) s.numRegistered
      (Nat.lt_succ_self _) (wake_before.mpr hb)
    by_contra hnot
    obtain ⟨hless, halive⟩ := not_or.mp hnot
    exact hfree ⟨not_le.mp hless, Bool.eq_false_of_not_eq_true halive⟩
  · intro hsafe
    refine ⟨?_, ?_, fun _ _ _ => wake_ne_waiting⟩
    · intro h hp
      rcases hs.gated h (wake_passed.mp hp) with hn | hdie
      · left
        change n ≤ ((s.numRegistered + 1 : ℕ) : ℤ)
        push_cast
        omega
      · exact Or.inr hdie
    · rintro hn h hlt hb ⟨hless, halive⟩
      change n ≤ ((s.numRegistered + 1 : ℕ) : ℤ) at hn
      change s.currentNumClients + 1 < n at hless
      change s.timeToDie = false at halive
      change h < s.numRegistered + 1 at hlt
      have hb' : (s.handlers h).before := wake_before.mp hb
      push_cast at hn
      by_cases hreached : n ≤ s.numRegistered
      · rcases Nat.lt_succ_iff_lt_or_eq.mp hlt with hlt | rfl
        · exact hs.free hreached h hlt hb' ⟨by omega, halive⟩
        · rcases hsafe hl hreached hb' with hle | hdie
          · omega
          · rw [halive] at hdie
            cases hdie
      · obtain ⟨hcount, -⟩ := hi.closed halive (not_le.mp hreached)
        omega

theorem holds_exit_iff (hs : Holds n s) (hh : s.handlers h = .serving) :
    Holds n (s.exit h) ↔ Safe n s (.exit h) := by
  have hpassed : (s.handlers h).passed := Or.inl hh
  constructor
  · rintro hs' - hn ⟨k, hk, hb⟩
    have hne : k ≠ h := by
      rintro rfl
      rw [hh] at hb
      simp [HandlerPc.before] at hb
    have hb' : ((s.exit h).handlers k).before := by
      change ((s.handlerAt h .exited).handlers k).before
      rwa [handlerAt_ne hne]
    have hfree := hs'.free hn k hk hb'
    by_contra hnot
    obtain ⟨hless, hnot⟩ := not_or.mp hnot
    obtain ⟨hone, halive⟩ := not_or.mp hnot
    refine hfree ⟨by change s.currentNumClients - 1 < n; omega, ?_⟩
    change (s.timeToDie || decide (s.currentNumClients - 1 = 0)) = false
    rw [Bool.eq_false_of_not_eq_true halive, Bool.false_or]
    exact decide_eq_false (by omega)
  · intro hsafe
    have hmoved : Holds n (s.handlerAt h .exited) :=
      hs.handlerAt (fun _ => hs.gated h hpassed) (by simp [HandlerPc.before]) (by simp)
    refine ⟨?_, ?_, hmoved.woken⟩
    · intro k hp
      rcases hmoved.gated k hp with hn | hdie
      · exact Or.inl hn
      · exact Or.inr (Bool.or_eq_true_iff.mpr (Or.inl hdie))
    · rintro hn k hk hb ⟨hless, halive⟩
      change s.currentNumClients - 1 < n at hless
      obtain ⟨halive, hzero⟩ := Bool.or_eq_false_iff.mp halive
      have hzero := of_decide_eq_false hzero
      have hne : k ≠ h := by
        rintro rfl
        change ((s.handlerAt k .exited).handlers k).before at hb
        rw [handlerAt_self] at hb
        simp [HandlerPc.before] at hb
      change ((s.handlerAt h .exited).handlers k).before at hb
      rw [handlerAt_ne hne] at hb
      rcases hsafe hh hn ⟨k, hk, hb⟩ with hgt | hone | hdie
      · omega
      · omega
      · rw [halive] at hdie
        cases hdie

theorem step_holds_iff (hs : Holds n s) (hi : Inv n s) (e : Event) :
    Holds n (step n s e) ↔ Safe n s e := by
  cases e with
  | poll ready =>
    refine iff_of_true ?_ trivial
    simp only [step]
    split
    · split_ifs <;> exact ⟨hs.gated, hs.free, hs.woken⟩
    · exact hs
  | accept =>
    refine iff_of_true ?_ trivial
    simp only [step]
    split
    · rename_i hl
      have hspawned := hi.spawned
      rw [hl, if_neg (by decide)] at hspawned
      have hmoved : Holds n (s.handlerAt s.numSpawned .testing) :=
        hs.handlerAt (by simp [HandlerPc.passed]) (fun hlt => by omega) (by simp)
      exact ⟨hmoved.gated, hmoved.free, hmoved.woken⟩
    · exact hs
  | noConnection =>
    refine iff_of_true ?_ trivial
    simp only [step]
    split
    · exact ⟨hs.gated, hs.free, hs.woken⟩
    · exact hs
  | fails =>
    refine iff_of_true ?_ trivial
    simp only [step]
    split
    · exact hs
    · exact ⟨hs.gated, hs.free, hs.woken⟩
  | register =>
    by_cases hl : s.listener = .registering
    · simp only [step, hl]
      exact holds_register_iff hs hi hl
    · refine iff_of_true ?_ fun hl' => absurd hl' hl
      simp only [step]
      exact hs
  | test h =>
    refine iff_of_true ?_ trivial
    by_cases hh : s.handlers h = .testing
    · exact hs.test hi hh
    · simp only [step]
      exact hs
  | wake h =>
    refine iff_of_true ?_ trivial
    exact hs.handlerAt (fun hp => hs.gated h (wake_passed.mp hp)) (fun _ hb => wake_before.mp hb)
      fun _ _ => wake_ne_waiting
  | exit h =>
    by_cases hh : s.handlers h = .serving
    · simp only [step, hh]
      exact holds_exit_iff hs hh
    · refine iff_of_true ?_ fun hh' => absurd hh' hh
      simp only [step]
      exact hs
  | die =>
    refine iff_of_true ⟨fun _ _ => Or.inr rfl, fun _ _ _ _ hwait => ?_, hs.woken⟩ trivial
    cases hwait.2

end Steps

/-- The barrier keeps its promise in every state of a run exactly if every step of it is safe. Safe
steps are enough for the promise at the tests that the handlers make; that they are necessary is
said of the states. -/
theorem startBarrier_iff (numClientsThreads : ℤ) (es : List Event) :
    (∀ pre, pre <+: es → Holds numClientsThreads (run numClientsThreads pre)) ↔
      ∀ pre e, pre ++ [e] <+: es → Safe numClientsThreads (run numClientsThreads pre) e :=
  always_iff (inv_initial _) (holds_initial _) (fun _ e hi => step_inv hi e)
    (fun _ e hi hs => step_holds_iff hs hi e) es

/-! ## A registered handler that stays at the barrier -/

/-- The listener is past its loops and one handler waits while all others have exited. -/
structure LeftWaiting (h : ℕ) (s : Server) : Prop where
  listener : s.listener = .finished
  waiting : s.handlers h = .waiting
  others : ∀ k, k ≠ h → s.handlers k = .unborn ∨ s.handlers k = .exited

/-- Nothing but a spurious wakeup ends this, `time_to_die` included. -/
theorem LeftWaiting.step {n : ℤ} {s : Server} {h : ℕ} (hs : LeftWaiting h s) {e : Event}
    (he : e ≠ .wake h) : LeftWaiting h (step n s e) := by
  have hnot : ∀ k, s.handlers k ≠ .testing ∧ s.handlers k ≠ .serving := by
    intro k
    by_cases hk : k = h
    · rw [hk, hs.waiting]
      exact ⟨by decide, by decide⟩
    · rcases hs.others k hk with hpc | hpc <;> rw [hpc] <;> exact ⟨by decide, by decide⟩
  cases e with
  | poll ready => simpa only [StartBarrier.step, hs.listener] using hs
  | accept => simpa only [StartBarrier.step, hs.listener] using hs
  | noConnection => simpa only [StartBarrier.step, hs.listener] using hs
  | fails =>
    simp only [StartBarrier.step, hs.listener]
    exact ⟨rfl, hs.waiting, hs.others⟩
  | register => simpa only [StartBarrier.step, hs.listener] using hs
  | test k =>
    have htest := (hnot k).1
    simp only [StartBarrier.step]
    exact hs
  | wake k =>
    have hk : k ≠ h := fun hkh => he (hkh ▸ rfl)
    have hsame : (s.handlers k).wake = s.handlers k := by
      rcases hs.others k hk with hpc | hpc <;> rw [hpc] <;> rfl
    have hstep : s.handlerAt k (s.handlers k).wake = s := by
      rw [hsame, Server.handlerAt, Function.update_eq_self]
    simp only [StartBarrier.step, hstep]
    exact hs
  | exit k =>
    have hserving := (hnot k).2
    simp only [StartBarrier.step]
    exact hs
  | die => exact ⟨hs.listener, hs.waiting, hs.others⟩

theorem LeftWaiting.run {n : ℤ} {s : Server} {h : ℕ} (hs : LeftWaiting h s) (es : List Event)
    (hes : .wake h ∉ es) : LeftWaiting h (es.foldl (StartBarrier.step n) s) := by
  induction es generalizing s with
  | nil => exact hs
  | cons e es ih =>
    obtain ⟨he, hes⟩ := not_or.mp (fun h' => hes (List.mem_cons.mpr h'))
    exact ih (hs.step fun heq => he heq.symm) hes

/-- Two handlers wait and are registered; the first passes the barrier and exits before the
second, woken with it, has tested the condition again. -/
def lateHandler : List Event :=
  [.poll true, .accept, .register, .test 0, .accept, .test 1, .register, .noConnection, .poll false,
    .test 0, .exit 0, .test 1]

theorem late_handler_left_waiting :
    (run 2 lateHandler).numRegistered = 2 ∧ (run 2 lateHandler).timeToDie = false ∧ ¬ Holds 2
    (run 2 lateHandler) ∧
      ∀ es, .wake 1 ∉ es → (run 2 (lateHandler ++ es)).handlers 1 = .waiting := by
  have hregistered : (run 2 lateHandler).numRegistered = 2 := by decide +kernel
  have hwaiting : (run 2 lateHandler).handlers 1 = .waiting := by decide +kernel
  have hleft : LeftWaiting 1 (run 2 lateHandler) := by
    refine ⟨by decide +kernel, hwaiting, fun k hk => ?_⟩
    rcases Nat.lt_or_ge k 2 with hlt | hge
    · obtain rfl : k = 0 := by omega
      exact Or.inr (by decide +kernel)
    · have hspawned : (run 2 lateHandler).numSpawned = 2 := by decide +kernel
      have hinv : Inv 2 (run 2 lateHandler) :=
        foldl_history (P := fun _ => Inv 2) (inv_initial 2) (fun _ _ e hi => step_inv hi e) _
      exact Or.inl (hinv.born k (hspawned ▸ hge))
  refine ⟨hregistered, by decide +kernel, fun hs => ?_, fun es hes => ?_⟩
  · exact hs.woken (by rw [hregistered]; rfl) 1 (by rw [hregistered]; norm_num) hwaiting
  · rw [run, List.foldl_append]
    exact (hleft.run es hes).waiting

end Chronos.StartBarrier
