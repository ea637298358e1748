import Chronos.Foundation.Fairness

/-! # The listener of the first server and its deadline

`daListener` of `startup_server.c` polls for connections, accepts all that are queued, and then
compares the clock with `next_sample_time`. A poll that times out goes straight on to the
next iteration, so that the clock is read only where a client has connected.
-/
namespace Chronos.Listener
open Foundation

/-- What `poll` returns: a negative number, zero, or the number of ready descriptors. -/
inductive PollResult where
  | failed
  | timedOut
  | ready
deriving DecidableEq

/-- One turn of the inner loop: `accept` fails with `EWOULDBLOCK` or otherwise, a later call of
the turn fails, or a handler is spawned. -/
inductive Accepted where
  | wouldBlock
  | acceptFailed
  | callocFailed
  | createFailed
  | spawned
deriving DecidableEq

/-- What the calls of one step return, and the clock. -/
structure Answer where
  poll : PollResult
  accept : Accepted
  now : ℤ

/-- Where the listener is: at the condition of its loop, in `poll`, in the inner loop, at the
deadline test, or after the loop. -/
inductive ListenerPc where
  | testing
  | polling
  | accepting
  | checking
  | finished
deriving DecidableEq

structure ListenerState where
  pc : ListenerPc
  timeToDie : Bool
deriving DecidableEq

def atLoop : ListenerState := ⟨.testing, false⟩

/-- The loop of `daListener`, one call at a time. -/
def step (nextSampleTime : ℤ) (s : ListenerState) (a : Answer) : ListenerState :=
  match s.pc with
  | .testing => if s.timeToDie then { s with pc := .finished } else { s with pc := .polling }
  | .polling => match a.poll with
    | .failed => { s with pc := .finished }
    | .timedOut => { s with pc := .testing }
    | .ready => { s with pc := .accepting }
  | .accepting => match a.accept with
    | .wouldBlock => { s with pc := .checking }
    | .spawned => s
    | _ => { s with pc := .finished }
  | .checking => if nextSampleTime ≤ a.now then ⟨.testing, true⟩ else { s with pc := .testing }
  | .finished => s

def ListenerState.Starts (s : ListenerState) : Prop := s.pc = .testing ∧ s.timeToDie = false

variable {nextSampleTime : ℤ} {ev : ℕ → Answer} {k n m : ℕ}

def state (nextSampleTime : ℤ) (ev : ℕ → Answer) (n : ℕ) : ListenerState :=
  runFor (step nextSampleTime) ev atLoop n

theorem state_succ (nextSampleTime : ℤ) (ev : ℕ → Answer) (n : ℕ) :
    state nextSampleTime ev (n + 1) = step nextSampleTime (state nextSampleTime ev n) (ev n) := rfl

/-- The first iteration that starts at or after the deadline starts at the `k`-th call. -/
def FirstLate (nextSampleTime : ℤ) (ev : ℕ → Answer) (k : ℕ) : Prop :=
  (state nextSampleTime ev k).Starts ∧ nextSampleTime ≤ (ev k).now ∧
    ∀ j < k, (state nextSampleTime ev j).Starts → (ev j).now < nextSampleTime

/-- The first late iteration sets `time_to_die`, and no other one follows. -/
def EndsAtDeadline (nextSampleTime : ℤ) (ev : ℕ → Answer) : Prop :=
  ∀ k, FirstLate nextSampleTime ev k →
    (∃ m, k < m ∧ (state nextSampleTime ev m).timeToDie = true) ∧
      ∀ j, k < j → ¬ (state nextSampleTime ev j).Starts

/-- The poll after the `k`-th call is ready, and accepting goes on until there is no connection
left. -/
def Served (ev : ℕ → Answer) (k : ℕ) : Prop :=
  (ev (k + 1)).poll = .ready ∧
    ∃ n, (∀ i < n, (ev (k + 2 + i)).accept = .spawned) ∧ (ev (k + 2 + n)).accept = .wouldBlock

/-! ## What the steps of an iteration do -/

theorem step_timeToDie {s : ListenerState} (a : Answer) (h : s.timeToDie = true) :
    (step nextSampleTime s a).timeToDie = true := by
  rcases s with ⟨pc, die⟩
  cases h
  cases pc with
  | testing => rfl
  | polling => cases hpoll : a.poll <;> simp only [step, hpoll]
  | accepting => cases haccept : a.accept <;> simp only [step, haccept]
  | checking =>
    simp only [step]
    split <;> rfl
  | finished => rfl

theorem timeToDie_stable (h : (state nextSampleTime ev n).timeToDie = true) (hle : n ≤ m) :
    (state nextSampleTime ev m).timeToDie = true :=
  runFor_stable (P := fun s : ListenerState => s.timeToDie = true)
    (fun _ a hs => step_timeToDie a hs) hle h

theorem finished_stable {die : Bool} (h : state nextSampleTime ev n = ⟨.finished, die⟩)
    (hle : n ≤ m) : state nextSampleTime ev m = ⟨.finished, die⟩ := by
  refine runFor_stable (P := fun s : ListenerState => s = ⟨.finished, die⟩) (fun s a hs => ?_) hle h
  rw [hs]
  rfl

theorem polling_of_starts (h : (state nextSampleTime ev k).Starts) :
    state nextSampleTime ev (k + 1) = ⟨.polling, false⟩ := by
  obtain ⟨hpc, hdie⟩ := h
  rw [state_succ, step, hpc, hdie]
  simp

/-- While handlers are spawned the listener stays in the inner loop. -/
theorem accepting_while_spawned (h : state nextSampleTime ev m = ⟨.accepting, false⟩)
    (hspawned : ∀ i < n, (ev (m + i)).accept = .spawned) :
    state nextSampleTime ev (m + n) = ⟨.accepting, false⟩ := by
  induction n with
  | zero => exact h
  | succ n ih =>
    have hbefore := ih fun i hi => hspawned i (by omega)
    have hlast := hspawned n (by omega)
    rw [← Nat.add_assoc, state_succ, hbefore]
    simp only [step, hlast]

theorem timeToDie_of_finished (h : state nextSampleTime ev n = ⟨.finished, false⟩)
    (hdie : (state nextSampleTime ev m).timeToDie = true) : False := by
  rcases le_total n m with hle | hle
  · rw [finished_stable h hle] at hdie
    cases hdie
  · have hafter := timeToDie_stable hdie hle
    rw [h] at hafter
    cases hafter

/-! ## The deadline -/

/-- An iteration that sets the flag, without another one after it, has been served. -/
theorem served_of_ends (hstart : (state nextSampleTime ev k).Starts)
    (hdie : (state nextSampleTime ev m).timeToDie = true)
    (hlast : ∀ j, k < j → ¬ (state nextSampleTime ev j).Starts) : Served ev k := by
  have hpolling := polling_of_starts hstart
  have hpolled : state nextSampleTime ev (k + 2) =
    step nextSampleTime ⟨.polling, false⟩ (ev (k + 1)) := by
    rw [state_succ, hpolling]
  cases hpoll : (ev (k + 1)).poll with
  | failed =>
    simp only [step, hpoll] at hpolled
    exact (timeToDie_of_finished hpolled hdie).elim
  | timedOut =>
    simp only [step, hpoll] at hpolled
    refine absurd ?_ (hlast (k + 2) (by omega))
    rw [hpolled]
    exact ⟨rfl, rfl⟩
  | ready =>
    simp only [step, hpoll] at hpolled
    by_cases hspawned : ∀ i, (ev (k + 2 + i)).accept = .spawned
    · have hnever := accepting_while_spawned (n := m) hpolled fun i _ => hspawned i
      have hdie' := timeToDie_stable hdie (by omega : m ≤ k + 2 + m)
      rw [hnever] at hdie'
      cases hdie'
    · classical
      rw [not_forall] at hspawned
      have hbefore : ∀ i < Nat.find hspawned, (ev (k + 2 + i)).accept = .spawned := fun i hi =>
        not_not.mp (Nat.find_min hspawned hi)
      have hend := Nat.find_spec hspawned
      have haccepting := accepting_while_spawned hpolled hbefore
      have hnext : state nextSampleTime ev (k + 2 + Nat.find hspawned + 1) =
          step nextSampleTime ⟨.accepting, false⟩ (ev (k + 2 + Nat.find hspawned)) := by
        rw [state_succ, haccepting]
      refine ⟨hpoll, Nat.find hspawned, hbefore, ?_⟩
      cases haccept : (ev (k + 2 + Nat.find hspawned)).accept with
      | wouldBlock => rfl
      | spawned => exact absurd haccept hend
      | acceptFailed | callocFailed | createFailed =>
        simp only [step, haccept] at hnext
        exact (timeToDie_of_finished hnext hdie).elim

theorem ends_of_served (hclock : Monotone fun n => (ev n).now)
    (hstart : (state nextSampleTime ev k).Starts) (hlate : nextSampleTime ≤ (ev k).now)
    (hserved : Served ev k) :
    (∃ m, k < m ∧ (state nextSampleTime ev m).timeToDie = true) ∧ ∀ j, k < j → ¬
    (state nextSampleTime ev j).Starts := by
  obtain ⟨hpoll, n, hspawned, hblock⟩ := hserved
  have hpolling := polling_of_starts hstart
  have haccepting : state nextSampleTime ev (k + 2) = ⟨.accepting, false⟩ := by
    rw [state_succ, hpolling]
    simp only [step, hpoll]
  have hinner : ∀ i ≤ n, state nextSampleTime ev (k + 2 + i) = ⟨.accepting, false⟩ := fun i hi =>
    accepting_while_spawned haccepting fun j hj => hspawned j (by omega)
  have hchecking : state nextSampleTime ev (k + 2 + n + 1) = ⟨.checking, false⟩ := by
    rw [state_succ, hinner n le_rfl]
    simp only [step, hblock]
  have hdead : state nextSampleTime ev (k + 2 + n + 2) = ⟨.testing, true⟩ := by
    have hpast : nextSampleTime ≤ (ev (k + 2 + n + 1)).now := hlate.trans (hclock (by omega))
    rw [state_succ, hchecking]
    simp only [step, if_pos hpast]
  refine ⟨⟨_, by omega, congrArg ListenerState.timeToDie hdead⟩, fun j hj hstarts => ?_⟩
  rcases
    (by omega : j = k + 1 ∨ (k + 2 ≤ j ∧ j ≤ k + 2 + n) ∨ j = k + 2 + n + 1 ∨ k + 2 + n + 2 ≤ j)
    with rfl | ⟨hlo, hhi⟩ | rfl | hafter
  · rw [hpolling] at hstarts
    cases hstarts.1
  · have hin := hinner (j - (k + 2)) (by omega)
    rw [Nat.add_sub_cancel' hlo] at hin
    rw [hin] at hstarts
    cases hstarts.1
  · rw [hchecking] at hstarts
    cases hstarts.1
  · have hdie := timeToDie_stable (congrArg ListenerState.timeToDie hdead) hafter
    rw [hstarts.2] at hdie
    cases hdie

/-- A listener to which nobody connects never ends, however late it is. -/
theorem silent_never_dies (hsilent : ∀ n, (ev n).poll = .timedOut) (n : ℕ) :
    state nextSampleTime ev n = ⟨.testing, false⟩ ∨
      state nextSampleTime ev n = ⟨.polling, false⟩ := by
  induction n with
  | zero => exact Or.inl rfl
  | succ n ih =>
    rw [state_succ]
    rcases ih with h | h
    · right
      rw [h]
      rfl
    · left
      rw [h]
      simp only [step, hsilent n]

/-- Every poll times out, a second each. -/
def silence : ℕ → Answer := fun n => ⟨.timedOut, .wouldBlock, n⟩

theorem silence_firstLate : FirstLate 10 silence 10 := by
  refine ⟨⟨by decide, by decide⟩, by decide, fun j hj _ => ?_⟩
  change (j : ℤ) < 10
  omega

/-- With a deadline at 10 the iteration that starts at 10 polls in vain, and so do all after it. -/
theorem silent_listener_goes_on : ¬ EndsAtDeadline 10 silence := by
  intro h
  obtain ⟨⟨m, -, hdie⟩, -⟩ := h 10 silence_firstLate
  have hsilent : state 10 silence m = ⟨.testing, false⟩ ∨ state 10 silence m = ⟨.polling, false⟩ :=
    silent_never_dies (fun _ => rfl) m
  rcases hsilent with hm | hm <;>
  · rw [hm] at hdie
    cases hdie

/-- The experiment ends at its deadline if and only if the first late iteration finds a connection
and no call of it fails. -/
theorem endsAtDeadline_iff (nextSampleTime : ℤ) (ev : ℕ → Answer)
    (hclock : Monotone fun n => (ev n).now) :
    EndsAtDeadline nextSampleTime ev ↔ ∀ k, FirstLate nextSampleTime ev k → Served ev k := by
  constructor
  · intro h k hfirst
    obtain ⟨⟨m, -, hdie⟩, hlast⟩ := h k hfirst
    exact served_of_ends hfirst.1 hdie hlast
  · intro h k hfirst
    exact ends_of_served hclock hfirst.1 hfirst.2.1 (h k hfirst)

def clients : ℕ → Answer := fun n => ⟨.ready, if n % 5 = 2 then .spawned else .wouldBlock, n⟩

theorem endsAtDeadline_iff_clients : EndsAtDeadline 10 clients := by
  refine (endsAtDeadline_iff 10 clients fun i j hij => Int.ofNat_le.mpr hij).mpr fun k _ => ?_
  refine ⟨rfl, ?_⟩
  by_cases hspawn : (k + 2) % 5 = 2
  · refine ⟨1, fun i hi => ?_, if_neg (by omega)⟩
    obtain rfl : i = 0 := by omega
    exact if_pos hspawn
  · exact ⟨0, fun i hi => absurd hi (Nat.not_lt_zero i), if_neg hspawn⟩

end Chronos.Listener
