import Chronos.Foundation.WorkerPool
import Chronos.Server.Refreshes

/-! # The processing threads keep serving both queues

A processing thread may find its queue emptied after its test, and then waits in the
dequeue even if the other queue fills up. Seen from the two queues, the processing
threads are a pool of workers that serve them in turn.
-/
namespace Chronos.TwoQueues
open ReadyQueue Foundation
variable {P : Type}

/-- One pass of `processThread`: a test of `sysTxnQueue` and the refresh; two tests of
`userTxnQueue`, the transaction with its two stores, and the test of the loop. -/
def processThread : Round 1 where
  tests := ![0, 1]
  busy := ![1, 4]
  idle := ![0, 1]

/-- Where a processing thread is in its pass. -/
def place : RefresherPc P → Handshake.ProcessorPc P → Place 1
  | .occupiedTest, _ => (0, .testing 0)
  | .dequeuing, _ => (0, .taking)
  | .dequeueWaiting, _ => (0, .waiting)
  | .running _, _ => (0, .working 0)
  | .past, .occupiedTest => (1, .testing 1)
  | .past, .occupiedTestAgain => (1, .testing 0)
  | .past, .dequeuing => (1, .taking)
  | .past, .dequeueWaiting => (1, .waiting)
  | .past, .running _ => (1, .working 3)
  | .past, .storeDone _ _ => (1, .working 2)
  | .past, .storeRc _ _ => (1, .working 1)
  | _, _ => (1, .working 0)

/-- The processing threads as a pool of workers: queue 0 is `sysTxnQueue`, queue 1 is
`userTxnQueue`. -/
def Server.pool (s : Server P) : Pool 1 where
  len := ![s.sysTxnQueue.occupied.toNat, s.userSide.userTxnQueue.occupied.toNat]
  place p := place (s.refreshers p) (s.userSide.processors p)

/-- A server with `n` processing threads before `time_to_die` is set. -/
structure Running (n : ℕ) (s : Server P) : Prop where
  conserved : Conserved n s
  inv : Handshake.Inv s.userSide
  running : s.userSide.timeToDie = false
  alive : ∀ p < n, s.userSide.alive p

theorem running_initial (n : ℕ) (packet : P) (memory : Handshake.Local → ℤ) :
    Running n (initial n packet memory) where
  conserved := conserved_initial n packet memory
  inv := Handshake.inv_initial n packet memory
  running := rfl
  alive p hp := by simp [Handshake.Server.alive, initial, Handshake.initial, hp]

section UserSide
variable {t : Handshake.Server P}

theorem handlerStep_timeToDie (h : ℕ) : (Handshake.handlerStep t h).timeToDie = t.timeToDie := by
  unfold Handshake.handlerStep
  repeat' split
  all_goals rfl

theorem handlerStep_queue (h : ℕ) :
    (Handshake.handlerStep t h).userTxnQueue = t.userTxnQueue ∨ ∃ ticket,
      chronosEnqueueTransaction t.userTxnQueue (t.entry h) =
        .done (Handshake.handlerStep t h).userTxnQueue ticket := by
  unfold Handshake.handlerStep
  repeat' split
  all_goals first | exact Or.inl rfl | exact Or.inr ⟨_, by assumption⟩

theorem processorStep_timeToDie (p : ℕ) (rc : ℤ) :
    (Handshake.processorStep t p rc).timeToDie = t.timeToDie := by
  unfold Handshake.processorStep
  repeat' split
  all_goals rfl

theorem step_timeToDie (ev : Handshake.Event P) (hev : ev ≠ .sigint) :
    (Handshake.step t ev).timeToDie = t.timeToDie := by
  cases ev with
  | dispatch h packet =>
    simp only [Handshake.step]
    split <;> rfl
  | handler h => exact handlerStep_timeToDie h
  | processor p rc => exact processorStep_timeToDie p rc
  | sigint => exact absurd rfl hev

/-- A processing thread leaves its loop only on `time_to_die`. -/
theorem processorStep_alive (hi : Handshake.Inv t) (hdie : t.timeToDie = false) {p : ℕ}
    (hp : t.alive p) (rc : ℤ) : (Handshake.processorStep t p rc).alive p := by
  have hself : ∀ pc : Handshake.ProcessorPc P, pc ≠ .exited → pc ≠ .crashed →
    (t.processorAt p pc).alive p := by
    intro pc he hc
    rw [Handshake.Server.alive, Handshake.processorAt_self]
    exact ⟨he, hc⟩
  cases hpc : t.processors p with
  | loopTest =>
    simp only [Handshake.processorStep, hpc, hdie, Bool.false_eq_true, if_false]
    exact hself _ (by simp) (by simp)
  | occupiedTest =>
    simp only [Handshake.processorStep, hpc]
    split <;> exact hself _ (by simp) (by simp)
  | occupiedTestAgain =>
    simp only [Handshake.processorStep, hpc]
    split <;> exact hself _ (by simp) (by simp)
  | dequeuing =>
    simp only [Handshake.processorStep, hpc]
    rcases dequeue_cases t.userTxnQueue hi.indices with ⟨-, hd⟩ | ⟨_, -, hd⟩
    · rw [hd]
      exact hself _ (by simp) (by simp)
    · rw [hd]
      exact hself (.running _) (by simp) (by simp)
  | dequeueWaiting =>
    simp only [Handshake.processorStep, hpc, hdie, Bool.false_eq_true, if_false]
    rcases dequeue_cases t.userTxnQueue hi.indices with ⟨-, hd⟩ | ⟨_, -, hd⟩
    · rw [hd]
      exact hp
    · rw [hd]
      exact hself (.running _) (by simp) (by simp)
  | running entry =>
    simp only [Handshake.processorStep, hpc]
    exact hself (.storeDone entry rc) (by simp) (by simp)
  | storeDone entry rc' =>
    simp only [Handshake.processorStep, hpc, (hi.storeDone p entry rc' hpc).1.donePtr]
    simp [Handshake.Server.alive, Handshake.Server.processorAt]
  | storeRc entry rc' =>
    simp only [Handshake.processorStep, hpc, (hi.storeRc p entry rc' hpc).rcPtr]
    simp [Handshake.Server.alive, Handshake.Server.processorAt]
  | exited => exact absurd hpc hp.1
  | crashed => exact absurd hpc hp.2

theorem step_alive (hi : Handshake.Inv t) (hdie : t.timeToDie = false) {p : ℕ} (hp : t.alive p)
    (ev : Handshake.Event P) : (Handshake.step t ev).alive p := by
  by_cases hev : ∃ rc, ev = .processor p rc
  · obtain ⟨rc, rfl⟩ := hev
    exact processorStep_alive hi hdie hp rc
  · have hsame := step_processors_eq t ev p fun rc h => hev ⟨rc, h⟩
    rwa [Handshake.Server.alive, hsame]

end UserSide

theorem userEvent_ne_sigint {s : Server P} {ev : Event P} {ev' : Handshake.Event P}
    (hev : ev ≠ .sigint) (h : userEvent s ev = some ev') : ev' ≠ .sigint := by
  cases ev with
  | sigint => exact absurd rfl hev
  | processor p rc =>
    simp only [userEvent] at h
    split at h
    · cases h
      simp
    · cases h
  | _ => cases h <;> simp

theorem Running.step {n : ℕ} {s : Server P} (hr : Running n s) {ev : Event P} (hev : ev ≠ .sigint) :
    Running n (step s ev) := by
  have hc := hr.conserved.step ev
  have hu := step_userSide s ev
  cases hev' : userEvent s ev with
  | none =>
    rw [hev'] at hu
    exact ⟨hc, hu ▸ hr.inv, hu ▸ hr.running, fun p hp => hu ▸ hr.alive p hp⟩
  | some ev' =>
    rw [hev'] at hu
    refine ⟨hc, ?_, ?_, fun p hp => ?_⟩
    · exact hu ▸ Handshake.step_inv hr.inv ev'
    · rw [hu]
      exact (step_timeToDie ev' (userEvent_ne_sigint hev hev')).trans hr.running
    · rw [hu]
      exact step_alive hr.inv hr.running (hr.alive p hp) ev'

/-! ## Steps of the server as steps of the pool -/

section Pool
variable {n : ℕ} {s : Server P}

theorem processorStep_place_ne {p k : ℕ} (hk : k ≠ p) (rc : ℤ) :
    (processorStep s p rc).pool.place k = s.pool.place k := by
  have hrefresher : (processorStep s p rc).refreshers k = s.refreshers k := by
    unfold processorStep dequeueRefresh
    repeat' split
    all_goals first | rfl | exact refresherAt_ne _ hk
  have huser : (processorStep s p rc).userSide.processors k = s.userSide.processors k := by
    rw [processorStep_userSide]
    simp only [userEvent]
    split
    · exact Handshake.processorStep_processors_ne _ hk rc
    · rfl
  simp only [Server.pool, hrefresher, huser]

theorem pool_place {p : ℕ} : s.pool.place p =
    place (s.refreshers p) (s.userSide.processors p) := rfl

theorem sys_len : s.pool.len 0 = s.sysTxnQueue.occupied.toNat := rfl
theorem user_len : s.pool.len 1 = s.userSide.userTxnQueue.occupied.toNat := rfl

theorem dequeueRefresh_pool (hc : Conserved n s) {p : ℕ}
    (hp : s.refreshers p = .dequeuing ∨ s.refreshers p = .dequeueWaiting)
    (hother : ∀ k, k ≠ p → (dequeueRefresh s p).pool.place k = s.pool.place k) :
    (dequeueRefresh s p).pool = s.pool.work processThread p := by
  obtain ⟨phase, hplace, htakes, hwait⟩ : ∃ phase, s.pool.place p = (0, phase) ∧ phase.takes ∧
      processThread.next False (0, phase) = (0, .waiting) := by
    rcases hp with hp | hp
    · exact ⟨.taking, by rw [pool_place, hp]; rfl, rfl, rfl⟩
    · exact ⟨.waiting, by rw [pool_place, hp]; rfl, rfl, rfl⟩
  rcases dequeue_cases s.sysTxnQueue hc.indices with ⟨hzero, hd⟩ | ⟨_, hpos, hd⟩
  · have hempty : s.pool.len 0 = 0 := by rw [sys_len]; omega
    refine eq_work_of_kept hplace (Or.inr hempty) ?_ ?_ hother
    · simp only [dequeueRefresh, hd]
      rfl
    · simp only [hempty, lt_irrefl, hwait]
      simp [dequeueRefresh, hd, Server.pool, place]
  · have hlen : 0 < s.pool.len 0 := by rw [sys_len]; omega
    refine eq_work_of_taken hplace htakes hlen ?_ ?_ hother
    · funext q
      fin_cases q
      · simp [dequeueRefresh, hd, Server.pool]
      · simp [dequeueRefresh, hd, Server.pool]
    · simp only [dequeueRefresh, hd, Server.pool, Server.refresherAt, Function.update_self, place]
      rfl

theorem dequeueUser_pool {t : Server P} (hi : s.userSide.userTxnQueue.IndicesValid) {p : ℕ}
    (hp : s.refreshers p = .past)
    (hpc : s.userSide.processors p = .dequeuing ∨ s.userSide.processors p = .dequeueWaiting)
    (ht : t = { s with userSide := match chronosDequeueTransaction s.userSide.userTxnQueue with
      | .wait => s.userSide.processorAt p .dequeueWaiting
      | .abort => s.userSide.processorAt p .crashed
      | .done q entry => { s.userSide.processorAt p (.running entry) with userTxnQueue := q } })
    (hother : ∀ k, k ≠ p → t.pool.place k = s.pool.place k) : t.pool =
      s.pool.work processThread p := by
  obtain ⟨phase, hplace, htakes, hwait⟩ : ∃ phase, s.pool.place p = (1, phase) ∧ phase.takes ∧
      processThread.next False (1, phase) = (1, .waiting) := by
    rcases hpc with hpc | hpc
    · exact ⟨.taking, by rw [pool_place, hp, hpc]; rfl, rfl, rfl⟩
    · exact ⟨.waiting, by rw [pool_place, hp, hpc]; rfl, rfl, rfl⟩
  rcases dequeue_cases s.userSide.userTxnQueue hi with ⟨hzero, hd⟩ | ⟨_, hpos, hd⟩
  · have hempty : s.pool.len 1 = 0 := by rw [user_len]; omega
    rw [hd] at ht
    refine eq_work_of_kept hplace (Or.inr hempty) ?_ ?_ hother
    · rw [ht]
      rfl
    · simp only [hempty, lt_irrefl, hwait]
      simp [ht, Server.pool, place, hp, Handshake.Server.processorAt]
  · have hlen : 0 < s.pool.len 1 := by rw [user_len]; omega
    rw [hd] at ht
    refine eq_work_of_taken hplace htakes hlen ?_ ?_ hother
    · funext q
      fin_cases q
      · simp [ht, Server.pool]
      · simp [ht, Server.pool]
    · simp only [ht, Server.pool, hp, Handshake.Server.processorAt, Function.update_self, place]
      rfl

/-- A step in which a processing thread at `userTxnQueue` touches no queue. -/
theorem quietUser_pool {t : Server P} {p : ℕ} {phase : Phase}
    (hplace : s.pool.place p = (1, phase)) (htakes : phase.takes = false)
    (hsys : t.sysTxnQueue = s.sysTxnQueue)
    (huser : t.userSide.userTxnQueue = s.userSide.userTxnQueue)
    (hown : t.pool.place p = processThread.next (0 < s.pool.len 1) (1, phase))
    (hother : ∀ k, k ≠ p → t.pool.place k = s.pool.place k) :
    t.pool = s.pool.work processThread p :=
  eq_work_of_kept hplace (Or.inl htakes) (by simp only [Server.pool, hsys, huser]) hown hother

theorem testUser_pool {t : Server P} {p left : ℕ} {pc pc' : Handshake.ProcessorPc P}
    (hp : s.refreshers p = .past) (hplace : s.pool.place p = (1, .testing left))
    (ht : t = { s with userSide := if s.userSide.userTxnQueue.occupied > 0
      then s.userSide.processorAt p pc else s.userSide.processorAt p pc' })
    (hfull : place .past pc = processThread.next True (1, .testing left))
    (hempty : place .past pc' = processThread.next False (1, .testing left))
    (hother : ∀ k, k ≠ p → t.pool.place k = s.pool.place k) :
    t.pool = s.pool.work processThread p := by
  have hlen : 0 < s.pool.len 1 ↔ s.userSide.userTxnQueue.occupied > 0 := by
    rw [user_len]
    omega
  by_cases hocc : s.userSide.userTxnQueue.occupied > 0
  · rw [if_pos hocc] at ht
    subst ht
    refine quietUser_pool hplace rfl rfl rfl ?_ hother
    simp only [hlen, hocc, ← hfull]
    simp [Server.pool, hp, Handshake.Server.processorAt]
  · rw [if_neg hocc] at ht
    subst ht
    refine quietUser_pool hplace rfl rfl rfl ?_ hother
    simp only [hlen, hocc, ← hempty]
    simp [Server.pool, hp, Handshake.Server.processorAt]

theorem userPart_pool (hr : Running n s) {p : ℕ} (hlt : p < n) (hp : s.refreshers p = .past)
    (rc : ℤ) : (processorStep s p rc).pool = s.pool.work processThread p := by
  have hother : ∀ k, k ≠ p → (processorStep s p rc).pool.place k = s.pool.place k :=
    fun k hk => processorStep_place_ne hk rc
  have halive := hr.alive p hlt
  have hdie := hr.running
  have hstep : ∀ pc, s.userSide.processors p = pc → pc ≠ .loopTest →
      processorStep s p rc = { s with userSide := Handshake.processorStep s.userSide p rc } := by
    intro pc hpc hne
    simp only [processorStep, hp]
    split
    · rename_i hloop
      exact absurd (hpc.symm.trans hloop) hne
    · rfl
  -- running the transaction and its two stores
  have hbusy : ∀ left, s.pool.place p = (1, .working left) → ∀ side : Handshake.Server P,
      processorStep s p rc = { s with userSide := side } →
      side.userTxnQueue = s.userSide.userTxnQueue →
      place .past (side.processors p) = processThread.leave 1 left →
      (processorStep s p rc).pool = s.pool.work processThread p := by
    intro left hplace side ht hqueue hown
    refine quietUser_pool hplace rfl (by rw [ht]) (by rw [ht]; exact hqueue) ?_ hother
    rw [ht, pool_place, hp]
    exact hown
  cases hpc : s.userSide.processors p with
  | loopTest =>
    have ht : processorStep s p rc =
        ({ s with userSide := s.userSide.processorAt p .occupiedTest } : Server P).refresherAt p
          .occupiedTest := by
      simp only [processorStep, hp, hpc, hdie, Bool.false_eq_true, if_false, Server.userStep,
        step_loopTest hpc hdie]
    refine quietUser_pool (by rw [pool_place, hp, hpc]; rfl) rfl (by rw [ht]; rfl)
      (by rw [ht]; rfl) ?_ hother
    rw [ht]
    simp [Server.pool, place, Server.refresherAt, Round.next, Round.leave, processThread]
  | occupiedTest =>
    have ht := hstep _ hpc (by simp)
    simp only [Handshake.processorStep, hpc] at ht
    exact testUser_pool hp (by rw [pool_place, hp, hpc]; rfl) ht rfl rfl hother
  | occupiedTestAgain =>
    have ht := hstep _ hpc (by simp)
    simp only [Handshake.processorStep, hpc] at ht
    exact testUser_pool hp (by rw [pool_place, hp, hpc]; rfl) ht rfl rfl hother
  | dequeuing =>
    have ht := hstep _ hpc (by simp)
    simp only [Handshake.processorStep, hpc] at ht
    exact dequeueUser_pool hr.inv.indices hp (Or.inl hpc) ht hother
  | dequeueWaiting =>
    have ht := hstep _ hpc (by simp)
    simp only [Handshake.processorStep, hpc, hdie, Bool.false_eq_true, if_false] at ht
    refine dequeueUser_pool hr.inv.indices hp (Or.inr hpc) ?_ hother
    rw [ht]
    rcases hd : chronosDequeueTransaction s.userSide.userTxnQueue with _ | _ | ⟨q, entry⟩
    · simp only [Handshake.Server.processorAt, ← hpc, Function.update_eq_self]
    · rfl
    · rfl
  | running entry =>
    have ht := hstep _ hpc (by simp)
    simp only [Handshake.processorStep, hpc] at ht
    exact hbusy 3 (by rw [pool_place, hp, hpc]; rfl) _ ht rfl
      (by simp [place, Round.leave, Handshake.Server.processorAt])
  | storeDone entry rc' =>
    have ht := hstep _ hpc (by simp)
    simp only [Handshake.processorStep, hpc, (hr.inv.storeDone p entry rc' hpc).1.donePtr] at ht
    exact hbusy 2 (by rw [pool_place, hp, hpc]; rfl) _ ht rfl
      (by simp [place, Round.leave, Handshake.Server.processorAt])
  | storeRc entry rc' =>
    have ht := hstep _ hpc (by simp)
    simp only [Handshake.processorStep, hpc, (hr.inv.storeRc p entry rc' hpc).rcPtr] at ht
    exact hbusy 1 (by rw [pool_place, hp, hpc]; rfl) _ ht rfl
      (by simp [place, Round.leave, Handshake.Server.processorAt])
  | exited => exact absurd hpc halive.1
  | crashed => exact absurd hpc halive.2

theorem processorStep_pool (hr : Running n s) {p : ℕ} (hlt : p < n) (rc : ℤ) :
    (processorStep s p rc).pool = s.pool.work processThread p := by
  have hother : ∀ k, k ≠ p → (processorStep s p rc).pool.place k = s.pool.place k :=
    fun k hk => processorStep_place_ne hk rc
  cases hp : s.refreshers p with
  | past => exact userPart_pool hr hlt hp rc
  | occupiedTest =>
    have hplace : s.pool.place p = (0, .testing 0) := by rw [pool_place, hp]; rfl
    have halign := (hr.conserved.aligned p).resolve_left (by simp [hp])
    simp only [processorStep, hp] at hother ⊢
    by_cases hocc : s.sysTxnQueue.occupied > 0
    · rw [if_pos hocc] at hother ⊢
      refine eq_work_of_kept hplace (Or.inl rfl) rfl ?_ hother
      simp [Server.pool, place, hocc, Round.next]
    · rw [if_neg hocc] at hother ⊢
      have hzero : s.sysTxnQueue.occupied.toNat = 0 := by omega
      refine eq_work_of_kept hplace (Or.inl rfl) rfl ?_ hother
      simp [Server.pool, place, halign, hzero, Round.next, Round.leave, processThread]
  | dequeuing =>
    simp only [processorStep, hp] at hother ⊢
    exact dequeueRefresh_pool hr.conserved (Or.inl hp) hother
  | dequeueWaiting =>
    simp only [processorStep, hp, hr.running, Bool.false_eq_true, if_false] at hother ⊢
    exact dequeueRefresh_pool hr.conserved (Or.inr hp) hother
  | running entry =>
    have hplace : s.pool.place p = (0, .working 0) := by rw [pool_place, hp]; rfl
    have halign := (hr.conserved.aligned p).resolve_left (by simp [hp])
    simp only [processorStep, hp] at hother ⊢
    refine eq_work_of_kept hplace (Or.inl rfl) rfl ?_ hother
    simp [Server.pool, Server.refresherAt, place, halign, Round.next, Round.leave, processThread]
  | crashed => exact absurd hp (hr.conserved.uncrashed p)

theorem occupied_enqueue {Req : Type} {q q' : ChronosQueue Handshake.Local Req}
    {info : TxnInfo Handshake.Local Req} {ticket : UInt64} (hq : q.IndicesValid)
    (he : chronosEnqueueTransaction q info = .done q' ticket) :
    q'.occupied.toNat = q.occupied.toNat + 1 := by
  rcases enqueue_cases q hq info with ⟨-, hw⟩ | ⟨_, -, he'⟩
  · rw [hw] at he
    cases he
  · rw [he'] at he
    cases he
    have := hq.occupied_nonneg
    simp only
    omega

theorem enqueueRefresh_pool (hc : Conserved n s) (u : ℕ) :
    (enqueueRefresh s u).pool = s.pool ∨ (enqueueRefresh s u).pool = s.pool.put 0 := by
  unfold enqueueRefresh
  rcases he : chronosEnqueueTransaction s.sysTxnQueue (s.entry u) with _ | _ | ⟨q, ticket⟩
  · exact Or.inl rfl
  · exact Or.inl rfl
  · have hlen := occupied_enqueue hc.indices he
    refine Or.inr (Pool.ext (funext fun k => ?_) rfl)
    fin_cases k
    · simpa [Server.pool, Pool.put] using hlen
    · simp [Server.pool, Pool.put, Server.updaterDone]

theorem handlerStep_pool (hi : Handshake.Inv s.userSide) (h : ℕ) :
    (s.userStep (.handler h)).pool = s.pool ∨ (s.userStep (.handler h)).pool = s.pool.put 1 := by
  have hplace : (s.userStep (.handler h)).pool.place = s.pool.place := by
    funext k
    have hsame : (Handshake.handlerStep s.userSide h).processors k = s.userSide.processors k :=
      congrFun (Handshake.handlerStep_processors _ h) k
    simp only [Server.pool, Server.userStep, Handshake.step, hsame]
  rcases handlerStep_queue (t := s.userSide) h with hsame | ⟨ticket, he⟩
  · refine Or.inl (Pool.ext ?_ hplace)
    simp only [Server.pool, Server.userStep, Handshake.step, hsame]
  · have hlen := occupied_enqueue hi.indices he
    refine Or.inr (Pool.ext (funext fun k => ?_) hplace)
    fin_cases k
    · simp [Server.pool, Pool.put, Server.userStep, Handshake.step]
    · simpa [Server.pool, Pool.put, Server.userStep, Handshake.step] using hlen

/-- Before `time_to_die` is set, every step of the server is one of the pool. -/
theorem step_pool (hr : Running n s) {ev : Event P} (hev : ev ≠ .sigint) :
    Pool.Step processThread n s.pool (step s ev).pool := by
  cases ev with
  | dispatch h packet =>
    left
    have hprocs : (Handshake.step s.userSide (.dispatch h packet)).processors =
      s.userSide.processors :=
      funext fun p => step_processors_eq _ _ p (by simp)
    have hqueue : (Handshake.step s.userSide (.dispatch h packet)).userTxnQueue =
      s.userSide.userTxnQueue := by
      simp only [Handshake.step]
      split <;> rfl
    simp only [step, Server.pool, Server.userStep, hprocs, hqueue]
  | handler h =>
    rcases handlerStep_pool hr.inv h with hsame | hput
    · exact Or.inl hsame
    · exact Or.inr (Or.inl ⟨1, hput⟩)
  | sigint => exact absurd rfl hev
  | refresh u packet =>
    left
    simp only [step]
    split <;> rfl
  | updater u =>
    have henqueue : (enqueueRefresh s u).pool = s.pool ∨
      ∃ q, (enqueueRefresh s u).pool = s.pool.put q :=
      (enqueueRefresh_pool hr.conserved u).imp_right fun h => ⟨0, h⟩
    have hstep : (updaterStep s u).pool = s.pool ∨ ∃ q, (updaterStep s u).pool = s.pool.put q := by
      unfold updaterStep
      split
      · exact Or.inl rfl
      · exact henqueue
      · split
        · exact Or.inl rfl
        · exact henqueue
    exact hstep.imp_right Or.inl
  | processor p rc =>
    by_cases hlt : p < n
    · exact Or.inr (Or.inr ⟨p, hlt, processorStep_pool hr hlt rc⟩)
    · left
      obtain ⟨hp, hexited⟩ := hr.conserved.outside p (not_lt.mp hlt)
      have hsame : processorStep s p rc = s := by
        simp [processorStep, hp, hexited, Server.userStep, Handshake.step, Handshake.processorStep]
      exact congrArg Server.pool hsame

end Pool

theorem initial_ready (n : ℕ) (packet : P) (memory : Handshake.Local → ℤ) {p : ℕ} (hp : p < n) :
    (initial n packet memory).pool.Ready p := by
  have hplace : (initial n packet memory).pool.place p = (1, .working 0) := by
    simp [Server.pool, initial, Handshake.initial, hp, place]
  exact ⟨by simp [hplace], fun h => by simp [hplace] at h⟩

theorem run_running {n : ℕ} {s : Server P} (hr : Running n s) {es : List (Event P)}
    (hes : ∀ ev ∈ es, ev ≠ .sigint) :
    Running n (run s es) ∧ ((∃ p < n, s.pool.Ready p) → ∃ p < n, (run s es).pool.Ready p) := by
  induction es generalizing s with
  | nil => exact ⟨hr, id⟩
  | cons ev es ih =>
    have hev : ev ≠ .sigint := hes ev List.mem_cons_self
    obtain ⟨hrun, hready⟩ := ih (hr.step hev) fun ev' h => hes ev' (List.mem_cons_of_mem _ h)
    exact ⟨hrun, fun h => hready (ready_step (step_pool hr hev) h)⟩

/-- A processing thread can go on: it has not left its loop, is in no dequeue that waits, and
will not find its queue empty if it is about to dequeue. -/
structure Server.CanGoOn (s : Server P) (p : ℕ) : Prop where
  alive : s.userSide.alive p
  sysAwake : s.refreshers p ≠ .dequeueWaiting
  userAwake : s.userSide.processors p ≠ .dequeueWaiting
  sysSupplied : s.refreshers p = .dequeuing → 0 < s.sysTxnQueue.occupied
  userSupplied : s.userSide.processors p = .dequeuing → 0 < s.userSide.userTxnQueue.occupied

theorem Running.canGoOn {n : ℕ} {s : Server P} (hr : Running n s) {p : ℕ} (hp : p < n)
    (hready : s.pool.Ready p) : s.CanGoOn p := by
  obtain ⟨hawake, hsupplied⟩ := hready
  rw [pool_place] at hawake hsupplied
  -- inside a user dequeue the thread is past its part for `sysTxnQueue`
  have hpast : s.userSide.processors p ≠ .occupiedTest → s.refreshers p = .past :=
    fun h => (hr.conserved.aligned p).resolve_right h
  refine ⟨hr.alive p hp, fun h => ?_, fun h => ?_, fun h => ?_, fun h => ?_⟩
  · exact hawake (by rw [h]; rfl)
  · exact hawake (by rw [hpast (by simp [h]), h]; rfl)
  · rw [h] at hsupplied
    have hlen : 0 < s.pool.len 0 := hsupplied rfl
    rw [sys_len] at hlen
    omega
  · rw [hpast (by simp [h]), h] at hsupplied
    have hlen : 0 < s.pool.len 1 := hsupplied rfl
    rw [user_len] at hlen
    omega

/-- The processing threads never block each other: before `time_to_die` is set, in every state some
processing thread is outside the waits of both queues and will not have to wait in the dequeue
it has decided on. -/
theorem some_thread_can_go_on {numServerThreads : ℕ} (hthreads : 0 < numServerThreads) (packet : P)
    (memory : Handshake.Local → ℤ) {es : List (Event P)} (hes : ∀ ev ∈ es, ev ≠ .sigint) :
    ∃ p < numServerThreads, (run (initial numServerThreads packet memory) es).CanGoOn p := by
  obtain ⟨hr, hready⟩ := run_running (running_initial numServerThreads packet memory) hes
  obtain ⟨p, hp, h⟩ := hready ⟨0, hthreads, initial_ready _ _ _ hthreads⟩
  exact ⟨p, hp, hr.canGoOn hp h⟩

/-- Two threads, one refresh: thread 1 tests `sysTxnQueue` before thread 0 empties it, and waits;
thread 0 can go on. -/
theorem some_thread_can_go_on_two :
    ∃ p < 2, (run (initial 2 7 fun _ => 0)
      [.refresh 0 7, .updater 0, .processor 0 0, .processor 1 0, .processor 0 0, .processor 1 0,
        .processor 0 0, .processor 1 0]).CanGoOn p :=
  some_thread_can_go_on (by decide) 7 _ (by simp)

end Chronos.TwoQueues
