import Chronos.Server.PoolProgress

/-! # Refreshes and requests are eventually served

In a schedule in which every processing thread keeps making steps and `time_to_die` is
never set, every refresh that was enqueued is run. If the handlers keep making steps
too and there are no more of them than the queue has room for, every call returns.
-/
namespace Chronos.TwoQueues
open ReadyQueue Foundation
variable {P : Type}

/-! ## What a step does to a queue -/

section Queues
variable {n : ℕ} {s : Server P}

def QueueStep {Req : Type} (q q' : ChronosQueue Handshake.Local Req) : Prop :=
  q' = q ∨ (∃ info ticket, chronosEnqueueTransaction q info = .done q' ticket) ∨
    ∃ e, chronosDequeueTransaction q = .done q' e

theorem QueueStep.contents {Req : Type} {q q' : ChronosQueue Handshake.Local Req}
    (h : QueueStep q q') (hq : q.IndicesValid) :
    (∃ new, q'.contents = q.contents ++ new) ∨
      ∃ e, q.contents = e :: q'.contents := by
  rcases h with rfl | ⟨info, ticket, he⟩ | ⟨e, hd⟩
  · exact Or.inl ⟨[], (List.append_nil _).symm⟩
  · exact Or.inl ⟨_, (enqueue_contents hq he).2.1⟩
  · exact Or.inr ⟨e, (dequeue_contents hq hd).2.1⟩

theorem step_sysTxnQueue (s : Server P) (ev : Event P) :
    QueueStep s.sysTxnQueue (step s ev).sysTxnQueue := by
  have henqueue : ∀ u, QueueStep s.sysTxnQueue (enqueueRefresh s u).sysTxnQueue := by
    intro u
    unfold enqueueRefresh
    split
    · exact Or.inl rfl
    · exact Or.inl rfl
    · exact Or.inr (Or.inl ⟨_, _, by assumption⟩)
  have hdequeue : ∀ p, QueueStep s.sysTxnQueue (dequeueRefresh s p).sysTxnQueue := by
    intro p
    unfold dequeueRefresh
    split
    · exact Or.inl rfl
    · exact Or.inl rfl
    · exact Or.inr (Or.inr ⟨_, by assumption⟩)
  cases ev with
  | updater u =>
    simp only [step, updaterStep]
    repeat' split
    all_goals first | exact Or.inl rfl | exact henqueue u
  | processor p rc =>
    simp only [step, processorStep]
    repeat' split
    all_goals first | exact Or.inl rfl | exact hdequeue p
  | refresh u packet =>
    simp only [step]
    split <;> exact Or.inl rfl
  | _ => exact Or.inl rfl

theorem step_userTxnQueue (s : Server P) (ev : Event P) :
    QueueStep s.userSide.userTxnQueue (step s ev).userSide.userTxnQueue := by
  rw [step_userSide]
  cases userEvent s ev with
  | none => exact Or.inl rfl
  | some ev' =>
    simp only [Option.elim_some]
    cases ev' with
    | dispatch h packet =>
      simp only [Handshake.step]
      split <;> exact Or.inl rfl
    | handler h =>
      rcases handlerStep_queue (t := s.userSide) h with hsame | ⟨ticket, he⟩
      · exact Or.inl hsame
      · exact Or.inr (Or.inl ⟨_, ticket, he⟩)
    | processor p rc =>
      simp only [Handshake.step, Handshake.processorStep]
      repeat' split
      all_goals first | exact Or.inl rfl | exact Or.inr (Or.inr ⟨_, by assumption⟩)
    | sigint => exact Or.inl rfl

theorem occupied_eq_length {Req : Type} (q : ChronosQueue Handshake.Local Req) :
    q.occupied.toNat = q.contents.length := by
  simp [ChronosQueue.contents]

end Queues

/-! ## Fair schedules -/

/-- In the schedule `time_to_die` is never set and every processing thread keeps making steps. -/
structure Serving (n : ℕ) (ev : ℕ → Event P) : Prop where
  threads : 0 < n
  noSigint : ∀ i, ev i ≠ .sigint
  processors : Fair (fun (p : Fin n) e => ∃ rc, e = .processor p rc) ev

section Schedules
variable {n : ℕ} {ev : ℕ → Event P} {s : Server P}

theorem runFor_running (hs : Running n s) (hev : ∀ i, ev i ≠ .sigint) (i : ℕ) :
    Running n (runFor step ev s i) := by
  induction i with
  | zero => exact hs
  | succ i ih => exact ih.step (hev i)

theorem Serving.queues (hev : Serving n ev) (hs : Running n s) (hready : ∃ p < n, s.pool.Ready p)
    (a : Fin 2) :
    LeadsTo (fun i => 0 < (runFor step ev s i).pool.len a)
      fun i => (runFor step ev s (i + 1)).pool.len a < (runFor step ev s i).pool.len a := by
  have hrun := runFor_running hs hev.noSigint
  refine queue_served (r := processThread)
    (fun i => step_pool (hrun i) (hev.noSigint i)) hready ?_ a
  intro p hp i
  obtain ⟨j, hj, rc, hjp⟩ := hev.processors ⟨p, hp⟩ i
  refine ⟨j, hj, ?_⟩
  rw [runFor, hjp]
  exact processorStep_pool (hrun j) hp rc

theorem Serving.sysPopped (hev : Serving n ev) (hs : Running n s) (hready : ∃ p < n, s.pool.Ready p)
    (e : RefreshEntry P) :
    LeadsTo (fun i => e ∈ (runFor step ev s i).sysTxnQueue.contents) fun i =>
      (runFor step ev s i).sysTxnQueue.contents = e ::
      (runFor step ev s (i + 1)).sysTxnQueue.contents := by
  have hrun := runFor_running hs hev.noSigint
  refine LeadsTo.popped (fun i => (step_sysTxnQueue _ _).contents (hrun i).conserved.indices)
    (fun i hi => ?_) e
  have hpool := hev.queues hs hready 0
  simp only [sys_len, occupied_eq_length] at hpool
  exact hpool i (List.length_pos_of_ne_nil hi)

theorem Serving.userPopped (hev : Serving n ev) (hs : Running n s)
    (hready : ∃ p < n, s.pool.Ready p) (e : Handshake.Entry P) :
    LeadsTo (fun i => e ∈ (runFor step ev s i).userSide.userTxnQueue.contents) fun i =>
      (runFor step ev s i).userSide.userTxnQueue.contents =
        e :: (runFor step ev s (i + 1)).userSide.userTxnQueue.contents := by
  have hrun := runFor_running hs hev.noSigint
  refine LeadsTo.popped (fun i => (step_userTxnQueue _ _).contents (hrun i).inv.indices)
    (fun i hi => ?_) e
  have hpool := hev.queues hs hready 1
  simp only [user_len, occupied_eq_length] at hpool
  exact hpool i (List.length_pos_of_ne_nil hi)

end Schedules

/-! ## Refreshes -/

section Refreshes
variable {n : ℕ} {ev : ℕ → Event P} {s : Server P}

theorem step_enqueued_mem (s : Server P) (ev : Event P) {r : Refresh P} (hr : r ∈ s.enqueued) :
    r ∈ (step s ev).enqueued := by
  have henqueue : ∀ u, r ∈ (enqueueRefresh s u).enqueued := by
    intro u
    unfold enqueueRefresh
    split
    · exact hr
    · exact hr
    · exact List.mem_append_left _ hr
  have hdequeue : ∀ p, r ∈ (dequeueRefresh s p).enqueued := by
    intro p
    unfold dequeueRefresh
    split <;> exact hr
  cases ev with
  | updater u =>
    simp only [step, updaterStep]
    repeat' split
    all_goals first | exact hr | exact henqueue u
  | processor p rc =>
    simp only [step, processorStep]
    repeat' split
    all_goals first | exact hr | exact hdequeue p
  | refresh u packet =>
    simp only [step]
    split <;> exact hr
  | _ => exact hr

/-- Only a processing thread's own step moves it in its part for `sysTxnQueue`. -/
theorem step_refreshers_eq (s : Server P) (ev : Event P) (p : ℕ)
    (hev : ∀ rc, ev ≠ .processor p rc) : (step s ev).refreshers p = s.refreshers p := by
  cases ev with
  | updater u =>
    simp only [step, updaterStep, enqueueRefresh]
    repeat' split
    all_goals rfl
  | processor k rc =>
    have hk : p ≠ k := fun h => hev rc (h ▸ rfl)
    simp only [step, processorStep, dequeueRefresh]
    repeat' split
    all_goals first | rfl | exact refresherAt_ne _ hk
  | refresh u packet =>
    simp only [step]
    split <;> rfl
  | _ => rfl

theorem Serving.held_refreshed (hev : Serving n ev) {p : ℕ} (hp : p < n) (entry : RefreshEntry P) :
    LeadsTo (fun i => (runFor step ev s i).refreshers p = .running entry)
      fun i => entry.request ∈ (runFor step ev s i).refreshed.map (·.1) := by
  refine LeadsTo.of_recurrent (fun _ => 0) (hev.processors ⟨p, hp⟩) fun i hi => ?_
  by_cases hown : ∃ rc, ev i = .processor p rc
  · obtain ⟨rc, hrc⟩ := hown
    right; left
    simp [runFor, hrc, step, processorStep, hi]
  · right; right
    have hsame := step_refreshers_eq (runFor step ev s i) (ev i) p fun rc h => hown ⟨rc, h⟩
    exact ⟨hsame.trans hi, le_rfl, fun h => absurd h hown⟩

theorem Serving.taken_refreshed (hev : Serving n ev) (hs : Running n s) (r : Refresh P) :
    LeadsTo (fun i => r ∈ (runFor step ev s i).taken)
      fun i => r ∈ (runFor step ev s i).refreshed.map (·.1) := by
  intro i hi
  have hc := (runFor_running hs hev.noSigint i).conserved
  rcases List.mem_append.mp (hc.balance.mem_iff.mp hi) with hdone | hheld
  · exact ⟨i, le_rfl, hdone⟩
  · obtain ⟨p, hp, hheld⟩ := List.mem_filterMap.mp hheld
    cases hpc : (runFor step ev s i).refreshers p with
    | running entry =>
      rw [hpc] at hheld
      obtain rfl := Option.some.inj hheld
      exact hev.held_refreshed (List.mem_range.mp hp) entry i hpc
    | _ =>
      rw [hpc] at hheld
      cases hheld

theorem Serving.enqueued_taken (hev : Serving n ev) (hs : Running n s)
    (hready : ∃ p < n, s.pool.Ready p) (r : Refresh P) :
    LeadsTo (fun i => r ∈ (runFor step ev s i).enqueued)
      fun i => r ∈ (runFor step ev s i).taken := by
  have hrun := runFor_running hs hev.noSigint
  intro i hi
  have hfifo := (hrun i).conserved.fifo
  rw [hfifo] at hi
  rcases List.mem_append.mp hi with htaken | hqueued
  · exact ⟨i, le_rfl, htaken⟩
  · obtain ⟨e, he, rfl⟩ := List.mem_map.mp hqueued
    obtain ⟨j, hj, hpopped⟩ := hev.sysPopped hs hready e i he
    -- the queue has given the refresh away and does not contain it a second time
    have hbefore := (hrun j).conserved
    have hafter := (hrun (j + 1)).conserved
    have hmem : e.request ∈ (runFor step ev s j).enqueued := by
      rw [hbefore.fifo, hpopped]
      simp
    have hmem' : e.request ∈ (runFor step ev s (j + 1)).enqueued := step_enqueued_mem _ _ hmem
    have honce := hbefore.nodup
    rw [hbefore.fifo, hpopped, List.map_cons] at honce
    have hgone := (List.nodup_cons.mp (List.nodup_append.mp honce).2.1).1
    rw [hafter.fifo] at hmem'
    exact ⟨j + 1, by omega, (List.mem_append.mp hmem').resolve_right hgone⟩

end Refreshes

/-- As long as the server is not told to stop and its processing threads keep running, every refresh
that an update thread has enqueued is run, however the user transactions compete with it. -/
theorem every_refresh_runs {numServerThreads : ℕ} {ev : ℕ → Event P}
    (hev : Serving numServerThreads ev) (packet : P) (memory : Handshake.Local → ℤ) (i : ℕ)
    (r : Refresh P)
    (hr : r ∈ (runFor step ev (initial numServerThreads packet memory) i).enqueued) :
    ∃ j ≥ i, r ∈ (runFor step ev (initial numServerThreads packet memory) j).refreshed.map
      (·.1) := by
  have hs := running_initial numServerThreads packet memory
  have hready : ∃ p < numServerThreads, (initial numServerThreads packet memory).pool.Ready p :=
    ⟨0, hev.threads, initial_ready _ _ _ hev.threads⟩
  exact ((hev.enqueued_taken hs hready r).trans (hev.taken_refreshed hs r)) i hr

/-- One update thread enqueues one refresh, and from then on the only processing thread runs. -/
def oneRefresh : ℕ → Event ℕ
  | 0 => .refresh 0 7
  | 1 => .updater 0
  | _ + 2 => .processor 0 0

theorem serving_oneRefresh : Serving 1 oneRefresh where
  threads := by decide
  noSigint i := by
    match i with
    | 0 => simp [oneRefresh]
    | 1 => simp [oneRefresh]
    | i + 2 => simp [oneRefresh]
  processors p i := ⟨i + 2, by omega, 0, by rw [Fin.fin_one_eq_zero p]; rfl⟩

theorem every_refresh_runs_one :
    ∃ j ≥ 2, (⟨0, 0, 7⟩ : Refresh ℕ) ∈
      (runFor step oneRefresh (initial 1 0 fun _ => 0) j).refreshed.map (·.1) :=
  every_refresh_runs serving_oneRefresh 0 _ 2 ⟨0, 0, 7⟩ (by decide +kernel)

/-! ## Requests -/

section Frames
variable {t : Handshake.Server P}

theorem handlerStep_handlers_ne {h k : ℕ} (hk : k ≠ h) :
    (Handshake.handlerStep t h).handlers k = t.handlers k := by
  unfold Handshake.handlerStep
  repeat' split
  all_goals first | rfl | exact Function.update_of_ne hk _ _

theorem processorStep_handlers (p : ℕ) (rc : ℤ) :
    (Handshake.processorStep t p rc).handlers = t.handlers := by
  unfold Handshake.processorStep
  repeat' split
  all_goals rfl

/-- Inside a call, only the handler's own step moves it. -/
theorem userStep_handlers_eq {h : ℕ} {ev : Handshake.Event P} (hev : ev ≠ .handler h)
    (hpc : (t.handlers h).pc ≠ .outside) : (Handshake.step t ev).handlers h = t.handlers h := by
  cases ev with
  | dispatch k packet =>
    simp only [Handshake.step]
    split
    · rename_i hout
      have hk : h ≠ k := by
        rintro rfl
        exact hpc hout
      exact Function.update_of_ne hk _ _
    · rfl
  | handler k => exact handlerStep_handlers_ne fun hk => hev (hk ▸ rfl)
  | processor p rc => exact congrFun (processorStep_handlers p rc) h
  | sigint => rfl

theorem userStep_done_ne {h : ℕ} {ev : Handshake.Event P} (hi : Handshake.Inv t)
    (hev : ev ≠ .handler h) (hdone : t.memory (.txnDone h) ≠ 0) :
    (Handshake.step t ev).memory (.txnDone h) ≠ 0 := by
  cases ev with
  | dispatch k packet =>
    simp only [Handshake.step]
    split <;> exact hdone
  | handler k =>
    have hk : h ≠ k := fun hk => hev (hk ▸ rfl)
    simp only [Handshake.step, Handshake.handlerStep]
    repeat' split
    all_goals simpa [Handshake.Server.store, Handshake.Server.handlerAt, hk] using hdone
  | processor p rc =>
    cases hpc : t.processors p with
    | storeDone e rc' =>
      simp only [Handshake.step, Handshake.processorStep, hpc, (hi.storeDone p e rc' hpc).1.donePtr,
        Handshake.Server.processorAt, Handshake.Server.store]
      by_cases he : e.request.owner.handler = h
      · simp [he]
      · simpa [Ne.symm he] using hdone
    | storeRc e rc' =>
      simpa [Handshake.step, Handshake.processorStep, hpc, (hi.storeRc p e rc' hpc).rcPtr,
        Handshake.Server.processorAt, Handshake.Server.store] using hdone
    | _ =>
      simp only [Handshake.step, Handshake.processorStep, hpc]
      repeat' split
      all_goals exact hdone
  | sigint => exact hdone

theorem processorStep_popped (p : ℕ) (rc : ℤ) :
    (Handshake.processorStep t p rc).userTxnQueue = t.userTxnQueue ∨
      ∃ e, chronosDequeueTransaction t.userTxnQueue =
        .done (Handshake.processorStep t p rc).userTxnQueue e ∧
        (Handshake.processorStep t p rc).processors p = .running e := by
  unfold Handshake.processorStep
  repeat' split
  all_goals first
    | exact Or.inl rfl
    | exact Or.inr ⟨_, by assumption, by simp [Handshake.Server.processorAt]⟩

theorem userStep_popped {ev : Handshake.Event P} (hi : Handshake.Inv t) {e : Handshake.Entry P}
    (hpop : t.userTxnQueue.contents = e :: (Handshake.step t ev).userTxnQueue.contents) :
    ∃ p, (Handshake.step t ev).processors p = .running e := by
  have hkept : (Handshake.step t ev).userTxnQueue ≠ t.userTxnQueue := by
    intro hsame
    rw [hsame] at hpop
    exact absurd (congrArg List.length hpop) (by simp)
  have hgrown : ∀ info ticket,
      chronosEnqueueTransaction t.userTxnQueue info ≠
        .done (Handshake.step t ev).userTxnQueue ticket := by
    intro info ticket he
    rw [(enqueue_contents hi.indices he).2.1] at hpop
    have hlen := congrArg List.length hpop
    simp only [List.length_cons, List.length_append] at hlen
    omega
  cases ev with
  | dispatch k packet =>
    refine absurd ?_ hkept
    simp only [Handshake.step]
    split <;> rfl
  | handler k =>
    obtain ⟨ticket, he⟩ := (handlerStep_queue (t := t) k).resolve_left hkept
    exact absurd he (hgrown _ ticket)
  | processor p rc =>
    obtain ⟨e', hd, hrun⟩ := (processorStep_popped (t := t) p rc).resolve_left hkept
    have hcontents := (dequeue_contents hi.indices hd).2.1
    rw [hpop] at hcontents
    obtain rfl := (List.cons.inj hcontents).1
    exact ⟨p, hrun⟩
  | sigint => exact absurd rfl hkept

/-- With no more clients than places in the queue, a handler that is about to enqueue finds room. -/
theorem enqueue_room {clients : ℕ} (hi : Handshake.Inv t)
    (hclients : clients ≤ CHRONOS_READY_QUEUE_SIZE)
    (houtside : ∀ h, clients ≤ h → (t.handlers h).pc = .outside) {h : ℕ} (hlt : h < clients)
    (hpc : (t.handlers h).pc ≠ .polling) (info : Handshake.Entry P) :
    ∃ q ticket, chronosEnqueueTransaction t.userTxnQueue info = .done q ticket := by
  set owners := t.userTxnQueue.contents.map (·.request.owner.handler) with howners
  have hdistinct : owners.Nodup := by
    have hcalls : t.userTxnQueue.contents.map (·.request.owner) = owners.map t.callId := by
      rw [howners, List.map_map]
      exact List.map_congr_left fun e he => (hi.queued e he).1.owner_eq
    have hnodup := hi.distinct
    rw [hcalls] at hnodup
    exact hnodup.of_map
  have hothers : owners ⊆ (List.range clients).erase h := by
    intro k hk
    obtain ⟨e, he, rfl⟩ := List.mem_map.mp hk
    have hpolling := (hi.queued e he).1.polling
    refine (List.nodup_range.mem_erase_iff).mpr ⟨?_, List.mem_range.mpr ?_⟩
    · rintro rfl
      exact hpc hpolling
    · by_contra hle
      rw [houtside _ (not_lt.mp hle)] at hpolling
      cases hpolling
  have hlen := (List.subperm_of_subset hdistinct hothers).length_le
  rw [howners, List.length_map, List.length_erase_of_mem (List.mem_range.mpr hlt),
    List.length_range] at hlen
  rcases enqueue_cases t.userTxnQueue hi.indices info with ⟨hfull, -⟩ | ⟨_, -, he⟩
  · have hocc := occupied_eq_length t.userTxnQueue
    omega
  · exact ⟨_, _, he⟩

end Frames

def entryRank : Handshake.HandlerPc → ℕ
  | .clearDone => 3
  | .clearRc => 2
  | .enqueuing => 1
  | .enqueueWaiting => 1
  | _ => 0

/-- The `seq`-th call of handler `h` is in progress and its request is not yet in the queue. -/
def Entering (t : Handshake.Server P) (h seq : ℕ) : Prop :=
  0 < entryRank (t.handlers h).pc ∧ (t.handlers h).seq = seq

def Polling (t : Handshake.Server P) (h seq : ℕ) : Prop :=
  (t.handlers h).pc = .polling ∧ (t.handlers h).seq = seq

/-- The `seq`-th call of handler `h` will return with its next steps. -/
def Answered (t : Handshake.Server P) (h seq : ℕ) : Prop :=
  t.waits h ∧ t.memory (.txnDone h) ≠ 0 ∧ (t.handlers h).seq = seq

def Returned (t : Handshake.Server P) (h seq : ℕ) : Prop :=
  (t.handlers h).pc = .outside ∧ (t.handlers h).seq = seq + 1

section HandlerSteps
variable {t : Handshake.Server P} {h seq : ℕ}

theorem handlerStep_entering {clients : ℕ} (hi : Handshake.Inv t) (hdie : t.timeToDie = false)
    (hclients : clients ≤ CHRONOS_READY_QUEUE_SIZE)
    (houtside : ∀ h, clients ≤ h → (t.handlers h).pc = .outside) (hlt : h < clients)
    (he : Entering t h seq) :
    Polling (Handshake.handlerStep t h) h seq ∨ (Entering (Handshake.handlerStep t h) h seq ∧
      entryRank ((Handshake.handlerStep t h).handlers h).pc < entryRank (t.handlers h).pc) := by
  obtain ⟨hrank, hseq⟩ := he
  cases hpc : (t.handlers h).pc with
  | clearDone =>
    right
    simp [Handshake.handlerStep, hpc, Entering, Handshake.Server.handlerAt, Handshake.Server.store,
      entryRank, hseq]
  | clearRc =>
    right
    simp [Handshake.handlerStep, hpc, Entering, Handshake.Server.handlerAt, Handshake.Server.store,
      entryRank, hseq]
  | enqueuing =>
    left
    obtain ⟨q, ticket, hq⟩ := enqueue_room hi hclients houtside hlt (by simp [hpc]) (t.entry h)
    simp [Handshake.handlerStep, hpc, hq, Polling, Handshake.Server.handlerAt, hseq]
  | enqueueWaiting =>
    left
    obtain ⟨q, ticket, hq⟩ := enqueue_room hi hclients houtside hlt (by simp [hpc]) (t.entry h)
    simp [Handshake.handlerStep, hpc, hdie, hq, Polling, Handshake.Server.handlerAt, hseq]
  | _ => simp [hpc, entryRank] at hrank

theorem handlerStep_answered (ha : Answered t h seq) :
    Returned (Handshake.handlerStep t h) h seq ∨
      ((t.handlers h).pc = .polling ∧ Answered (Handshake.handlerStep t h) h seq ∧
        ((Handshake.handlerStep t h).handlers h).pc = .reading) := by
  obtain ⟨hw | hw, hdone, hseq⟩ := ha
  · right
    simp [Handshake.handlerStep, hw, hdone, Answered, Handshake.Server.handlerAt,
      Handshake.Server.waits, hseq]
  · left
    simp [Handshake.handlerStep, hw, Returned, hseq]

end HandlerSteps

section Steps
variable {s : Server P} {h : ℕ}

def ofUserEvent : Handshake.Event P → Event P
  | .dispatch h packet => .dispatch h packet
  | .handler h => .handler h
  | .processor p rc => .processor p rc
  | .sigint => .sigint

theorem eq_ofUserEvent {ev : Event P} {ev' : Handshake.Event P} (hu : userEvent s ev = some ev') :
    ev = ofUserEvent ev' := by
  cases ev with
  | processor p rc =>
    simp only [userEvent] at hu
    split at hu <;> cases hu
    rfl
  | _ => cases hu <;> rfl

theorem step_handlers_eq {ev : Event P} (hev : ev ≠ .handler h)
    (hpc : (s.userSide.handlers h).pc ≠ .outside) :
    (step s ev).userSide.handlers h = s.userSide.handlers h := by
  rw [step_userSide]
  cases hu : userEvent s ev with
  | none => rfl
  | some ev' => exact userStep_handlers_eq (fun h' => hev (eq_ofUserEvent (h' ▸ hu))) hpc

theorem step_done_ne {ev : Event P} (hi : Handshake.Inv s.userSide) (hev : ev ≠ .handler h)
    (hdone : s.userSide.memory (.txnDone h) ≠ 0) :
    (step s ev).userSide.memory (.txnDone h) ≠ 0 := by
  rw [step_userSide]
  cases hu : userEvent s ev with
  | none => exact hdone
  | some ev' => exact userStep_done_ne hi (fun h' => hev (eq_ofUserEvent (h' ▸ hu))) hdone

/-- Before `time_to_die` is set no step leaves a request behind. -/
theorem step_served {n : ℕ} (hr : Running n s) (hn : 0 < n) (hs : Handshake.Served s.userSide)
    (ev : Event P) : Handshake.Served (step s ev).userSide := by
  have halive : ∃ p, s.userSide.alive p := ⟨0, hr.alive 0 hn⟩
  rw [step_userSide]
  cases userEvent s ev with
  | none => exact hs
  | some ev' =>
    refine Handshake.step_served hs hr.inv ?_
    cases ev' with
    | handler k => exact ⟨fun _ => halive, fun _ => ⟨hr.running, halive⟩⟩
    | processor p rc =>
      intro _ hdie
      rw [hr.running] at hdie
      cases hdie
    | _ => trivial

theorem userEvent_processor {n : ℕ} (hr : Running n s) {p : ℕ}
    (hp : s.userSide.processors p ≠ .occupiedTest) (rc : ℤ) :
    userEvent s (.processor p rc) = some (.processor p rc) := by
  simp [userEvent, (hr.conserved.aligned p).resolve_right hp]

end Steps

/-- A schedule as in `Serving` in which the handlers of all clients keep making steps, and in which
there are no more clients than places in the queue. -/
structure Attending (n clients : ℕ) (ev : ℕ → Event P) : Prop extends Serving n ev where
  room : clients ≤ CHRONOS_READY_QUEUE_SIZE
  connected : ∀ i h packet, ev i = .dispatch h packet → h < clients
  handlers : Fair (fun (h : Fin clients) e => e = .handler h) ev

section Requests
variable {n clients : ℕ} {ev : ℕ → Event P} {s : Server P}

theorem Attending.outside (hev : Attending n clients ev)
    (hs : ∀ h, clients ≤ h → (s.userSide.handlers h).pc = .outside) (i : ℕ) (h : ℕ)
    (hle : clients ≤ h) : ((runFor step ev s i).userSide.handlers h).pc =
      .outside := by
  induction i with
  | zero => exact hs h hle
  | succ i ih =>
    rw [runFor, step_userSide]
    cases hu : userEvent (runFor step ev s i) (ev i) with
    | none => exact ih
    | some ev' =>
      cases ev' with
      | dispatch k packet =>
        have hne : h ≠ k := by
          have := hev.connected i k packet (eq_ofUserEvent hu)
          omega
        simp only [Option.elim_some, Handshake.step]
        split
        · simpa [hne] using ih
        · exact ih
      | handler k =>
        by_cases hk : h = k
        · subst hk
          simp [Handshake.step, Handshake.handlerStep, ih]
        · simp only [Option.elim_some, Handshake.step]
          rwa [handlerStep_handlers_ne hk]
      | processor p rc =>
        simp only [Option.elim_some, Handshake.step]
        rwa [processorStep_handlers]
      | sigint => exact ih

theorem Attending.entering_polling (hev : Attending n clients ev) (hs : Running n s)
    (hout : ∀ h, clients ≤ h → (s.userSide.handlers h).pc = .outside) {h : ℕ} (hlt : h < clients)
    (seq : ℕ) :
    LeadsTo (fun i => Entering (runFor step ev s i).userSide h seq)
      fun i => Polling (runFor step ev s i).userSide h seq := by
  have hrun := runFor_running hs hev.noSigint
  refine LeadsTo.of_recurrent (fun i => entryRank ((runFor step ev s i).userSide.handlers h).pc)
    (hev.handlers ⟨h, hlt⟩) fun i hi => ?_
  right
  by_cases hown : ev i = .handler h
  · have hstep : (runFor step ev s (i + 1)).userSide =
      Handshake.handlerStep (runFor step ev s i).userSide h := by
      rw [runFor, hown]
      rfl
    rw [hstep]
    rcases handlerStep_entering (hrun i).inv (hrun i).running hev.room
      (hev.outside hout i) hlt hi with hp | ⟨he, hlow⟩
    · exact Or.inl hp
    · exact Or.inr ⟨he, hlow.le, fun _ => hlow⟩
  · right
    have hpc : ((runFor step ev s i).userSide.handlers h).pc ≠ .outside := by
      intro hpc
      simp [Entering, hpc, entryRank] at hi
    have hsame : (runFor step ev s (i + 1)).userSide.handlers h =
      (runFor step ev s i).userSide.handlers h :=
      step_handlers_eq hown hpc
    simp only [Entering, hsame]
    exact ⟨hi, le_rfl, fun h' => absurd h' hown⟩

theorem Attending.answered_returned (hev : Attending n clients ev) (hs : Running n s) {h : ℕ}
    (hlt : h < clients) (seq : ℕ) :
    LeadsTo (fun i => Answered (runFor step ev s i).userSide h seq)
      fun i => Returned (runFor step ev s i).userSide h seq := by
  have hrun := runFor_running hs hev.noSigint
  refine LeadsTo.of_recurrent
    (fun i => if ((runFor step ev s i).userSide.handlers h).pc = .polling then 1 else 0)
    (hev.handlers ⟨h, hlt⟩) fun i hi => ?_
  right
  by_cases hown : ev i = .handler h
  · have hstep : (runFor step ev s (i + 1)).userSide =
      Handshake.handlerStep (runFor step ev s i).userSide h := by
      rw [runFor, hown]
      rfl
    rw [hstep]
    rcases handlerStep_answered hi with hret | ⟨hpolling, ha, hreading⟩
    · exact Or.inl hret
    · exact Or.inr ⟨ha, by simp [hreading], fun _ => by simp [hreading, hpolling]⟩
  · right
    obtain ⟨hw, hdone, hseq⟩ := hi
    have hpc : ((runFor step ev s i).userSide.handlers h).pc ≠ .outside := by
      rcases hw with hw | hw <;> simp [hw]
    have hsame : (runFor step ev s (i + 1)).userSide.handlers h =
      (runFor step ev s i).userSide.handlers h :=
      step_handlers_eq hown hpc
    have hdone' := step_done_ne (hrun i).inv hown hdone
    simp only [Answered, Handshake.Server.waits, hsame]
    exact ⟨⟨hw, hdone', hseq⟩, le_rfl, fun h' => absurd h' hown⟩

theorem Attending.unfinished_answered (hev : Attending n clients ev) (hs : Running n s) {p : ℕ}
    (hp : p < n) (e : Handshake.Entry P) :
    LeadsTo (fun i => ((runFor step ev s i).userSide.processors p).unfinished = some e)
      fun i =>
        Answered (runFor step ev s i).userSide e.request.owner.handler e.request.owner.seq := by
  have hrun := runFor_running hs hev.noSigint
  refine LeadsTo.of_recurrent
    (fun i => match (runFor step ev s i).userSide.processors p with
      | .running _ => 1
      | _ => 0)
    (hev.processors ⟨p, hp⟩) fun i hi => ?_
  right
  by_cases hown : ∃ rc, ev i = .processor p rc
  · obtain ⟨rc, hrc⟩ := hown
    have hbusy : (runFor step ev s i).userSide.processors p ≠ .occupiedTest := by
      intro h
      simp [h, Handshake.ProcessorPc.unfinished] at hi
    have hstep : (runFor step ev s (i + 1)).userSide =
      Handshake.processorStep (runFor step ev s i).userSide p rc := by
      rw [runFor, hrc, step_userSide, userEvent_processor (hrun i) hbusy]
      rfl
    rw [hstep]
    cases hpc : (runFor step ev s i).userSide.processors p with
    | running e' =>
      right
      obtain rfl : e' = e := by simpa [hpc, Handshake.ProcessorPc.unfinished] using hi
      simp [Handshake.processorStep, hpc, Handshake.Server.processorAt,
        Handshake.ProcessorPc.unfinished]
    | storeDone e' rc' =>
      left
      obtain rfl : e' = e := by simpa [hpc, Handshake.ProcessorPc.unfinished] using hi
      have ha := ((hrun i).inv.storeDone p e' rc' hpc).1
      have hseq := congrArg Handshake.CallId.seq ha.owner_eq
      simp only [Handshake.processorStep, hpc, ha.donePtr]
      exact ⟨Or.inl ha.polling,
        by simp [Handshake.Server.processorAt, Handshake.Server.store], hseq.symm⟩
    | _ => simp [hpc, Handshake.ProcessorPc.unfinished] at hi
  · right
    have hsame : (runFor step ev s (i + 1)).userSide.processors p =
      (runFor step ev s i).userSide.processors p := by
      rw [runFor, step_userSide]
      cases hu : userEvent (runFor step ev s i) (ev i) with
      | none => rfl
      | some ev' =>
        exact step_processors_eq _ _ _ fun rc h => hown ⟨rc, eq_ofUserEvent (h ▸ hu)⟩
    simp only [hsame]
    exact ⟨hi, le_rfl, fun h' => absurd h' hown⟩

theorem Attending.queued_answered (hev : Attending n clients ev) (hs : Running n s)
    (hready : ∃ p < n, s.pool.Ready p) (e : Handshake.Entry P) :
    LeadsTo (fun i => e ∈ (runFor step ev s i).userSide.userTxnQueue.contents)
      fun i =>
        Answered (runFor step ev s i).userSide e.request.owner.handler e.request.owner.seq := by
  have hrun := runFor_running hs hev.noSigint
  refine (hev.userPopped hs hready e).trans fun i hpop => ?_
  obtain ⟨p, hp⟩ : ∃ p, (runFor step ev s (i + 1)).userSide.processors p = .running e := by
    simp only [runFor, step_userSide] at hpop ⊢
    cases hu : userEvent (runFor step ev s i) (ev i) with
    | none =>
      rw [hu] at hpop
      exact absurd (congrArg List.length hpop) (by simp)
    | some ev' =>
      rw [hu] at hpop
      exact userStep_popped (hrun i).inv hpop
  have hlt : p < n := by
    by_contra hle
    have hexited := ((hrun (i + 1)).conserved.outside p (not_lt.mp hle)).2
    rw [hp] at hexited
    cases hexited
  obtain ⟨j, hj, ha⟩ := hev.unfinished_answered hs hlt e (i + 1) (congrArg _ hp)
  exact ⟨j, by omega, ha⟩

theorem Attending.polling_answered (hev : Attending n clients ev) (hs : Running n s)
    (hready : ∃ p < n, s.pool.Ready p) (hserved : Handshake.Served s.userSide) (h seq : ℕ) :
    LeadsTo (fun i => Polling (runFor step ev s i).userSide h seq)
      fun i => Answered (runFor step ev s i).userSide h seq := by
  have hrun := runFor_running hs hev.noSigint
  have hserved' : ∀ i, Handshake.Served (runFor step ev s i).userSide := by
    intro i
    induction i with
    | zero => exact hserved
    | succ i ih => exact step_served (hrun i) hev.threads ih (ev i)
  rintro i ⟨hpc, rfl⟩
  by_cases hdone : (runFor step ev s i).userSide.memory (.txnDone h) = 0
  · rcases (hserved' i).placed h hpc hdone with ⟨e, he, hreq⟩ | ⟨p, e, he, hreq⟩
    · have ha := hev.queued_answered hs hready e i he
      rwa [hreq] at ha
    · have hlt : p < n := by
        by_contra hle
        rw [((hrun i).conserved.outside p (not_lt.mp hle)).2] at he
        cases he
      have ha := hev.unfinished_answered hs hlt e i he
      rwa [hreq] at ha
  · exact ⟨i, le_rfl, Or.inl hpc, hdone, rfl⟩

end Requests

/-- As long as the server is not told to stop, its threads keep running and there are no more
clients than places in the queue, every call of `dispatchTableFn` returns, however the refreshes
compete with it. -/
theorem every_call_returns {numServerThreads clients : ℕ} {ev : ℕ → Event P}
    (hev : Attending numServerThreads clients ev) (packet : P) (memory : Handshake.Local → ℤ)
    (i h : ℕ)
    (hpc : ((runFor step ev (initial numServerThreads packet memory) i).userSide.handlers h).pc ≠
      .outside) :
    ∃ j ≥ i, Returned (runFor step ev (initial numServerThreads packet memory) j).userSide h
      ((runFor step ev (initial numServerThreads packet memory) i).userSide.handlers h).seq := by
  have hs := running_initial numServerThreads packet memory
  have hready : ∃ p < numServerThreads, (initial numServerThreads packet memory).pool.Ready p :=
    ⟨0, hev.threads, initial_ready _ _ _ hev.threads⟩
  have hout : ∀ h, clients ≤ h →
    ((initial numServerThreads packet memory).userSide.handlers h).pc = .outside :=
    fun _ _ => rfl
  have hlt : h < clients := by
    by_contra hle
    exact hpc (hev.outside hout i h (not_lt.mp hle))
  set s := initial numServerThreads packet memory
  set seq := ((runFor step ev s i).userSide.handlers h).seq with hseq
  have hreturn := hev.answered_returned hs hlt seq
  have hpoll :=
    (hev.polling_answered hs hready (Handshake.served_initial _ _ _) h seq).trans hreturn
  have henter := (hev.entering_polling hs hout hlt seq).trans hpoll
  cases hpc' : ((runFor step ev s i).userSide.handlers h).pc with
  | outside => exact absurd hpc' hpc
  | polling => exact hpoll i ⟨hpc', hseq.symm⟩
  | reading =>
    have hdone := (runFor_running hs hev.noSigint i).inv.reading h hpc'
    exact hreturn i ⟨Or.inr hpc', hdone, hseq.symm⟩
  | _ => exact henter i ⟨by simp [hpc', entryRank], hseq.symm⟩

/-- After one request has been dispatched, a handler, an update thread that enqueues refresh
after refresh, and a processing thread take turns. -/
def amongRefreshes : ℕ → Event ℕ
  | 0 => .dispatch 0 7
  | i + 1 => match i % 4 with
    | 0 => .handler 0
    | 1 => .refresh 0 3
    | 2 => .updater 0
    | _ => .processor 0 0

theorem amongRefreshes_handler (i : ℕ) : amongRefreshes (4 * i + 1) = .handler 0 := by
  simp [amongRefreshes]

theorem amongRefreshes_processor (i : ℕ) : amongRefreshes (4 * i + 4) = .processor 0 0 := by
  simp [amongRefreshes, Nat.add_mod]

theorem attending_amongRefreshes : Attending 1 1 amongRefreshes where
  threads := by decide
  noSigint i := by
    cases i with
    | zero => simp [amongRefreshes]
    | succ i =>
      simp only [amongRefreshes]
      split <;> simp
  processors p i :=
    ⟨4 * i + 4, by omega, 0, by rw [Fin.fin_one_eq_zero p]; exact amongRefreshes_processor i⟩
  room := by decide
  connected i h packet hi := by
    cases i with
    | zero =>
      cases hi
      decide
    | succ i =>
      simp only [amongRefreshes] at hi
      split at hi <;> cases hi
  handlers h i :=
    ⟨4 * i + 1, by omega, by rw [Fin.fin_one_eq_zero h]; exact amongRefreshes_handler i⟩

/-- While the request is queued, one refresh has been run and three more are waiting. -/
theorem every_call_returns_one :
    let after := runFor step amongRefreshes (initial 1 0 fun _ => 0)
    ((after 17).refreshed.length = 1 ∧ (after 17).sysTxnQueue.occupied = 3 ∧
      (after 17).userSide.userTxnQueue.occupied = 1) ∧ ∃ j ≥ 17, Returned (after j).userSide 0 0 :=
  ⟨by decide +kernel,
    every_call_returns attending_amongRefreshes 0 (fun _ => 0) 17 0 (by decide +kernel)⟩

end Chronos.TwoQueues
