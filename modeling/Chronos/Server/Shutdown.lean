import Chronos.Server.HandshakeSafety
import Chronos.Foundation.Runs

/-! # Handlers that wait while the server shuts down

A handler polls `txn_done` without looking at `time_to_die`, while the processing
threads leave on it and the enqueue into a full queue is given up on it. The runs in
which no handler is left behind are those in which no shutdown overtakes a request.
-/
namespace Chronos.Handshake
open ReadyQueue Foundation
variable {P : Type}

/-- The request that a processing thread has dequeued, until it has set its `txn_done`. -/
def ProcessorPc.unfinished : ProcessorPc P → Option (Entry P)
  | .running entry => some entry
  | .storeDone entry _ => some entry
  | _ => none

def Server.alive (s : Server P) (p : ℕ) : Prop :=
  s.processors p ≠ .exited ∧ s.processors p ≠ .crashed

def Server.enqueued (s : Server P) (h : ℕ) : Prop :=
  ∃ e ∈ s.userTxnQueue.contents, e.request = s.request h

/-- A processing thread has the request of handler `h` and has not set its `txn_done`. -/
def Server.inProgress (s : Server P) (h : ℕ) : Prop :=
  ∃ p e, (s.processors p).unfinished = some e ∧ e.request = s.request h

/-- Every handler that polls waits for a transaction that somebody is still to finish. -/
def NoneStranded (s : Server P) : Prop :=
  ∀ h, (s.handlers h).pc = .polling → s.memory (.txnDone h) = 0 →
    (s.enqueued h ∧ ∃ p, s.alive p) ∨ s.inProgress h

/-- The step is not one in which the shutdown overtakes a request: no enqueue is given up, no
request is enqueued when all processing threads have left, and none of them leaves as the last
one while requests are in the queue. -/
def Safe (s : Server P) : Event P → Prop
  | .handler h => ((s.handlers h).pc = .enqueuing → ∃ p, s.alive p) ∧
    ((s.handlers h).pc = .enqueueWaiting → s.timeToDie = false ∧ ∃ p, s.alive p)
  | .processor p _ => s.processors p = .loopTest → s.timeToDie = true →
    s.userTxnQueue.contents = [] ∨ ∃ p', p' ≠ p ∧ s.alive p'
  | _ => True

/-- Where the requests of the polling handlers are, and that the queue is served. -/
structure Served (s : Server P) : Prop where
  placed : ∀ h, (s.handlers h).pc = .polling → s.memory (.txnDone h) = 0 → s.enqueued h ∨
    s.inProgress h
  alive : s.userTxnQueue.contents ≠ [] → ∃ p, s.alive p

theorem served_initial (n : ℕ) (packet : P) (memory : Local → ℤ) :
    Served (initial n packet memory) where
  placed := by simp [initial]
  alive h := absurd rfl h

section Steps
variable {s : Server P}

theorem Inv.unfinished (hi : Inv s) {p : ℕ} {e : Entry P}
    (hp : (s.processors p).unfinished = some e) : Awaited s e := by
  cases hpc : s.processors p with
  | running e' =>
    rw [hpc] at hp
    cases hp
    exact (hi.running p _ hpc).1
  | storeDone e' rc =>
    rw [hpc] at hp
    cases hp
    exact (hi.storeDone p _ rc hpc).1
  | _ =>
    rw [hpc] at hp
    cases hp

theorem unfinished_held {pc : ProcessorPc P} {e : Entry P} (h : pc.unfinished = some e) :
    pc.held = some e := by
  cases pc with
  | running e' => exact h
  | storeDone e' rc => exact h
  | _ => cases h

theorem Inv.polling_of_placed (hi : Inv s) {h : ℕ} (hp : s.enqueued h ∨ s.inProgress h) :
    (s.handlers h).pc = .polling := by
  have hawaited : ∃ e, Awaited s e ∧ e.request = s.request h := by
    rcases hp with ⟨e, he, hreq⟩ | ⟨p, e, he, hreq⟩
    · exact ⟨e, (hi.queued e he).1, hreq⟩
    · exact ⟨e, hi.unfinished he, hreq⟩
  obtain ⟨e, he, hreq⟩ := hawaited
  have hpolling := he.polling
  rwa [hreq] at hpolling

/-- No request is both in the queue and with a processing thread. -/
theorem Served.of_noneStranded (hi : Inv s) (hs : NoneStranded s) : Served s where
  placed h hpc hdone := (hs h hpc hdone).imp_left And.left
  alive hne := by
    obtain ⟨e, he⟩ := List.exists_mem_of_ne_nil _ hne
    have ha := (hi.queued e he).1
    rcases hs _ ha.polling ha.unset with ⟨-, halive⟩ | ⟨p, e', he', hreq⟩
    · exact halive
    · refine absurd ?_ (hi.apart p e' (unfinished_held he') e he)
      rw [hreq, ha.request]
      rfl

theorem Served.noneStranded (hs : Served s) : NoneStranded s := by
  intro h hpc hdone
  rcases hs.placed h hpc hdone with hq | hp
  · obtain ⟨e, he, -⟩ := id hq
    exact Or.inl ⟨hq, hs.alive (List.ne_nil_of_mem he)⟩
  · exact Or.inr hp

/-! ## Steps of a handler -/

theorem Served.moved (hs : Served s) {h : ℕ} {d : Handler P} {m : Local → ℤ} (hm : FrameOf s h m)
    (hpolling : d.pc ≠ .polling) : Served (s.moved h d m) where
  placed k hpc hdone := by
    have hk : k ≠ h := by
      rintro rfl
      exact hpolling (by simpa using hpc)
    rw [moved_handlers_ne hk] at hpc
    rw [moved_memory_done hm hk] at hdone
    simp only [Server.enqueued, Server.inProgress, Server.request, Server.callId,
      moved_handlers_ne hk]
    exact hs.placed k hpc hdone
  alive := hs.alive

theorem Served.accepted (hs : Served s) (hi : Inv s) {h : ℕ} {q : ChronosQueue Local (Request P)}
    {ticket : UInt64} (he : chronosEnqueueTransaction s.userTxnQueue (s.entry h) = .done q ticket)
    (halive : ∃ p, s.alive p) : Served { s.handlerAt h .polling with userTxnQueue := q } where
  placed k hpc hdone := by
    obtain ⟨-, hcontents, -, -⟩ := enqueue_contents hi.indices he
    by_cases hk : k = h
    · subst hk
      refine Or.inl
        ⟨_, by rw [hcontents]; exact List.mem_append_right _ (List.mem_singleton_self _), ?_⟩
      simp [Server.entry, userTxnInfo, Server.request, Server.callId, Server.handlerAt]
    · simp only [Server.handlerAt, Function.update_of_ne hk] at hpc
      simp only [Server.enqueued, Server.inProgress, Server.request, Server.callId,
        Server.handlerAt, Function.update_of_ne hk, hcontents]
      refine (hs.placed k hpc hdone).imp_left ?_
      rintro ⟨e, hmem, hreq⟩
      exact ⟨e, List.mem_append_left _ hmem, hreq⟩
  alive _ := halive

theorem handlerStep_served (hs : Served s) (hi : Inv s) (h : ℕ) (hsafe : Safe s (.handler h)) :
    Served (handlerStep s h) := by
  have hmove : ∀ pc, pc ≠ .polling → Served (s.handlerAt h pc) := fun pc hne =>
    hs.moved (d := { s.handlers h with pc := pc }) (m := s.memory) (fun _ _ _ => rfl) hne
  cases hpc : (s.handlers h).pc with
  | outside => simpa only [handlerStep, hpc] using hs
  | clearDone =>
    simp only [handlerStep, hpc]
    refine hs.moved (d := { s.handlers h with pc := .clearRc })
      (m := Function.update s.memory (.txnDone h) 0) ?_
      (by simp)
    intro l hl _
    exact Function.update_of_ne hl _ _
  | clearRc =>
    simp only [handlerStep, hpc]
    refine hs.moved (d := { s.handlers h with pc := .enqueuing })
      (m := Function.update s.memory (.txnRc h) 0) ?_
      (by simp)
    intro l _ hl
    exact Function.update_of_ne hl _ _
  | enqueuing =>
    have halive := hsafe.1 hpc
    simp only [handlerStep, hpc]
    split
    · exact hmove _ (by simp)
    · exact hs
    · rename_i q ticket he
      exact hs.accepted hi he halive
  | enqueueWaiting =>
    obtain ⟨hdie, halive⟩ := hsafe.2 hpc
    simp only [handlerStep, hpc, hdie, Bool.false_eq_true, if_false]
    split
    · exact hs
    · exact hs
    · rename_i q ticket he
      exact hs.accepted hi he halive
  | polling =>
    simp only [handlerStep, hpc]
    split
    · exact hs
    · exact hmove _ (by simp)
  | reading =>
    simp only [handlerStep, hpc]
    have hleave :=
      hs.moved (h := h) (d := { s.handlers h with pc := .outside, seq := (s.handlers h).seq + 1 })
      (m := s.memory) (fun _ _ _ => rfl) (by simp)
    exact ⟨hleave.placed, hleave.alive⟩

/-! ## Steps of a processing thread -/

theorem Served.processorAt (hs : Served s) {p : ℕ} {pc : ProcessorPc P}
    (hkeep : ∀ e, (s.processors p).unfinished = some e → pc.unfinished = some e)
    (halive : (pc ≠ .exited ∧ pc ≠ .crashed) ∨ s.userTxnQueue.contents = [] ∨ ∃ p',
      p' ≠ p ∧ s.alive p') :
    Served (s.processorAt p pc) where
  placed h hpc hdone := by
    refine (hs.placed h hpc hdone).imp_right ?_
    rintro ⟨k, e, hk, hreq⟩
    by_cases hkp : k = p
    · subst hkp
      exact ⟨k, e, by rw [processorAt_self]; exact hkeep e hk, hreq⟩
    · exact ⟨k, e, by rw [processorAt_ne hkp]; exact hk, hreq⟩
  alive hne := by
    have hother : ∀ p', p' ≠ p → s.alive p' → (s.processorAt p pc).alive p' := by
      intro p' hp' ha
      rw [Server.alive, processorAt_ne hp']
      exact ha
    rcases halive with hpc | hempty | ⟨p', hp', ha⟩
    · exact ⟨p, by rw [Server.alive, processorAt_self]; exact hpc⟩
    · exact absurd hempty hne
    · exact ⟨p', hother p' hp' ha⟩

theorem Served.dequeued (hs : Served s) (hi : Inv s) {p : ℕ} {q : ChronosQueue Local (Request P)}
    {e : Entry P} (hold : (s.processors p).held = none)
    (hd : chronosDequeueTransaction s.userTxnQueue = .done q e) :
    Served { s.processorAt p (.running e) with userTxnQueue := q } where
  placed h hpc hdone := by
    obtain ⟨-, hcontents, -⟩ := dequeue_contents hi.indices hd
    rcases hs.placed h hpc hdone with ⟨e', hmem, hreq⟩ | ⟨k, e', hk, hreq⟩
    · rw [hcontents] at hmem
      rcases List.mem_cons.mp hmem with rfl | hmem
      · exact Or.inr ⟨p, e', by simp [Server.processorAt, ProcessorPc.unfinished], hreq⟩
      · exact Or.inl ⟨e', hmem, hreq⟩
    · have hkp : k ≠ p := by
        rintro rfl
        rw [unfinished_held hk] at hold
        cases hold
      exact Or.inr
        ⟨k, e', by simpa only [Server.processorAt, Function.update_of_ne hkp] using hk, hreq⟩
  alive _ := ⟨p, by simp [Server.alive, Server.processorAt]⟩

theorem Served.doneStored (hs : Served s) {p : ℕ} {e : Entry P} {rc : ℤ}
    (hold : s.processors p = .storeDone e rc) :
    Served ((s.store (.txnDone e.request.owner.handler) 1).processorAt p (.storeRc e rc)) where
  placed h hpc hdone := by
    have hne : h ≠ e.request.owner.handler := by
      rintro rfl
      simp [Server.processorAt, Server.store] at hdone
    have hdone' : s.memory (.txnDone h) = 0 := by
      simpa [Server.processorAt, Server.store, hne] using hdone
    refine (hs.placed h hpc hdone').imp_right ?_
    rintro ⟨k, e', hk, hreq⟩
    have hkp : k ≠ p := by
      rintro rfl
      rw [hold] at hk
      obtain rfl := Option.some.inj hk
      exact hne (by rw [hreq]; rfl)
    exact ⟨k, e', by rw [processorAt_ne hkp]; exact hk, hreq⟩
  alive _ := ⟨p, by simp [Server.alive, Server.processorAt]⟩

theorem processorStep_served (hs : Served s) (hi : Inv s) (p : ℕ) (txnRc : ℤ)
    (hsafe : Safe s (.processor p txnRc)) : Served (processorStep s p txnRc) := by
  cases hpc : s.processors p with
  | loopTest =>
    simp only [processorStep, hpc]
    split
    · rename_i hdie
      exact hs.processorAt (by simp [hpc, ProcessorPc.unfinished]) (Or.inr (hsafe hpc hdie))
    · exact hs.processorAt (by simp [hpc, ProcessorPc.unfinished]) (Or.inl (by simp))
  | occupiedTest =>
    simp only [processorStep, hpc]
    split <;> exact hs.processorAt (by simp [hpc, ProcessorPc.unfinished]) (Or.inl (by simp))
  | occupiedTestAgain =>
    simp only [processorStep, hpc]
    split <;> exact hs.processorAt (by simp [hpc, ProcessorPc.unfinished]) (Or.inl (by simp))
  | dequeuing =>
    simp only [processorStep, hpc]
    rcases dequeue_cases s.userTxnQueue hi.indices with ⟨-, hd⟩ | ⟨_, -, hd⟩
    · rw [hd]
      exact hs.processorAt (by simp [hpc, ProcessorPc.unfinished]) (Or.inl (by simp))
    · rw [hd]
      exact hs.dequeued hi (by simp [hpc, ProcessorPc.held]) hd
  | dequeueWaiting =>
    simp only [processorStep, hpc]
    split
    · exact hs.processorAt (by simp [hpc, ProcessorPc.unfinished]) (Or.inl (by simp))
    · rcases dequeue_cases s.userTxnQueue hi.indices with ⟨-, hd⟩ | ⟨_, -, hd⟩
      · rw [hd]
        exact hs
      · rw [hd]
        exact hs.dequeued hi (by simp [hpc, ProcessorPc.held]) hd
  | running e =>
    simp only [processorStep, hpc]
    have hnext : Served (s.processorAt p (.storeDone e txnRc)) :=
      hs.processorAt (by simp [hpc, ProcessorPc.unfinished]) (Or.inl (by simp))
    exact ⟨hnext.placed, hnext.alive⟩
  | storeDone e rc =>
    simp only [processorStep, hpc, (hi.storeDone p e rc hpc).1.donePtr]
    exact hs.doneStored hpc
  | storeRc e rc =>
    simp only [processorStep, hpc, (hi.storeRc p e rc hpc).rcPtr]
    have hnext : Served (s.processorAt p .loopTest) :=
      hs.processorAt (by simp [hpc, ProcessorPc.unfinished]) (Or.inl (by simp))
    refine ⟨?_, hnext.alive⟩
    intro h hpc' hdone
    have hdone' : s.memory (.txnDone h) = 0 := by
      simpa [Server.processorAt, Server.store] using hdone
    exact hnext.placed h hpc' hdone'
  | exited => simpa only [processorStep, hpc] using hs
  | crashed => simpa only [processorStep, hpc] using hs

theorem step_served (hs : Served s) (hi : Inv s) {ev : Event P} (hsafe : Safe s ev) :
    Served (step s ev) := by
  cases ev with
  | dispatch h packet =>
    simp only [step]
    split
    · exact hs.moved (d := { s.handlers h with pc := .clearDone, packet := packet }) (m := s.memory)
        (fun _ _ _ => rfl) (by simp)
    · exact hs
  | handler h => exact handlerStep_served hs hi h hsafe
  | processor p txnRc => exact processorStep_served hs hi p txnRc hsafe
  | sigint => exact ⟨hs.placed, hs.alive⟩

/-! ## Steps that strand a handler -/

theorem Inv.enqueue_of_empty (hi : Inv s) (hempty : s.userTxnQueue.contents = []) (info : Entry P) :
    ∃ q ticket, chronosEnqueueTransaction s.userTxnQueue info = .done q ticket := by
  rcases enqueue_cases s.userTxnQueue hi.indices info with ⟨hfull, -⟩ | ⟨_, -, he⟩
  · rcases dequeue_cases s.userTxnQueue hi.indices with ⟨hzero, -⟩ | ⟨_, -, hd⟩
    · simp only [CHRONOS_READY_QUEUE_SIZE] at hfull
      omega
    · obtain ⟨-, hcontents, -⟩ := dequeue_contents hi.indices hd
      rw [hempty] at hcontents
      cases hcontents
  · exact ⟨_, _, he⟩

/-- A request that enters an empty queue is served by a thread that was there before. -/
theorem alive_of_enqueue (hs : Served s) (hi : Inv s) {h : ℕ} (hnext : Served (handlerStep s h))
    (hpc : (s.handlers h).pc = .enqueuing ∨
      ((s.handlers h).pc = .enqueueWaiting ∧ s.timeToDie = false)) :
    ∃ p, s.alive p := by
  by_cases hempty : s.userTxnQueue.contents = []
  · obtain ⟨q, ticket, he⟩ := hi.enqueue_of_empty hempty (s.entry h)
    obtain ⟨-, hcontents, -, -⟩ := enqueue_contents hi.indices he
    have hstep : handlerStep s h = { s.handlerAt h .polling with userTxnQueue := q } := by
      rcases hpc with hpc | ⟨hpc, hdie⟩
      · simp only [handlerStep, hpc, he]
      · simp only [handlerStep, hpc, hdie, Bool.false_eq_true, if_false, he]
    rw [hstep] at hnext
    exact hnext.alive (by simp [hcontents])
  · exact hs.alive hempty

/-- A handler that gives up its enqueue polls for a request that nobody has. -/
theorem not_served_of_abandon (hi : Inv s) {h : ℕ} (hpc : (s.handlers h).pc = .enqueueWaiting)
    (hdie : s.timeToDie = true) : ¬ Served (handlerStep s h) := by
  intro hnext
  have hstep : handlerStep s h = s.handlerAt h .polling := by
    simp only [handlerStep, hpc, hdie, if_true]
  have hunset : s.memory (.txnDone h) = 0 := hi.entering h (Or.inr (Or.inr hpc))
  rw [hstep] at hnext
  have hplaced := hnext.placed h (by simp [Server.handlerAt]) hunset
  have hrequest : (s.handlerAt h .polling).request h = s.request h := by
    simp [Server.request, Server.callId, Server.handlerAt]
  simp only [Server.enqueued, Server.inProgress, hrequest] at hplaced
  have hpolling := hi.polling_of_placed hplaced
  rw [hpc] at hpolling
  cases hpolling

theorem safe_of_step (hs : Served s) (hi : Inv s) {ev : Event P} (hnext : Served (step s ev)) :
    Safe s ev := by
  cases ev with
  | dispatch h packet => trivial
  | sigint => trivial
  | handler h =>
    refine ⟨fun hpc => alive_of_enqueue hs hi hnext (Or.inl hpc), ?_⟩
    intro hpc
    have hdie : s.timeToDie = false := by
      by_contra hdie
      exact not_served_of_abandon hi hpc (Bool.not_eq_false _ ▸ hdie) hnext
    exact ⟨hdie, alive_of_enqueue hs hi hnext (Or.inr ⟨hpc, hdie⟩)⟩
  | processor p txnRc =>
    intro hpc hdie
    by_cases hempty : s.userTxnQueue.contents = []
    · exact Or.inl hempty
    · have hstep : step s (.processor p txnRc) = s.processorAt p .exited := by
        simp only [step, processorStep, hpc, hdie, if_true]
      rw [hstep] at hnext
      obtain ⟨p', ha⟩ := hnext.alive hempty
      have hne : p' ≠ p := by
        rintro rfl
        exact ha.1 processorAt_self
      rw [Server.alive, processorAt_ne hne] at ha
      exact Or.inr ⟨p', hne, ha⟩

end Steps

/-- No handler is ever left waiting for a transaction that nobody will finish, exactly
if in no step of the run the shutdown overtakes a request. -/
theorem none_stranded_iff (numServerThreads : ℕ) (packet : P) (memory : Local → ℤ)
    (es : List (Event P)) :
    (∀ pre, pre <+: es → NoneStranded (run (initial numServerThreads packet memory) pre)) ↔
      ∀ pre ev, pre ++ [ev] <+: es →
        Safe (run (initial numServerThreads packet memory) pre) ev := by
  have hinv := inv_initial numServerThreads packet memory
  have hserved : ∀ pre, NoneStranded (run (initial numServerThreads packet memory) pre) ↔
      Served (run (initial numServerThreads packet memory) pre) := fun pre =>
    ⟨Served.of_noneStranded (run_inv hinv pre), Served.noneStranded⟩
  simp only [hserved]
  exact always_iff hinv (served_initial _ _ _) (fun _ ev hi => step_inv hi ev)
    (fun _ _ hi hs => ⟨safe_of_step hs hi, step_served hs hi⟩) es

theorem handlerStep_processors (s : Server P) (h : ℕ) :
    (handlerStep s h).processors = s.processors := by
  unfold handlerStep
  repeat' split
  all_goals rfl

theorem processorStep_processors_ne (s : Server P) {p k : ℕ} (hk : k ≠ p) (txnRc : ℤ) :
    (processorStep s p txnRc).processors k = s.processors k := by
  unfold processorStep
  repeat' split
  all_goals first | rfl | exact processorAt_ne hk

theorem run_exited {s : Server P} {p : ℕ} (hp : s.processors p = .exited) (es : List (Event P)) :
    (run s es).processors p = .exited := by
  induction es generalizing s with
  | nil => exact hp
  | cons ev es ih =>
    refine ih ?_
    cases ev with
    | dispatch h packet =>
      simp only [step]
      split <;> exact hp
    | handler h => rw [step, handlerStep_processors, hp]
    | processor k txnRc =>
      by_cases hk : p = k
      · subst hk
        simp only [step, processorStep, hp]
      · rw [step, processorStep_processors_ne s hk, hp]
    | sigint => exact hp

/-- The only processing thread leaves on `time_to_die` with the request of handler 0 in the
queue. -/
theorem stranded_at_shutdown :
    ¬ NoneStranded (run (initial 1 0 fun _ => 0)
      [.dispatch 0 7, .handler 0, .handler 0, .handler 0, .sigint, .processor 0 0]) := by
  set s := run (initial 1 0 fun _ => 0)
    [.dispatch 0 7, .handler 0, .handler 0, .handler 0, .sigint, .processor 0 0] with hs
  have hpolling : (s.handlers 0).pc = .polling := by decide +kernel
  have hdone : s.memory (.txnDone 0) = 0 := by decide +kernel
  have hexited : ∀ p, s.processors p = .exited := by
    intro p
    cases p with
    | zero => rfl
    | succ p => exact run_exited (by simp [initial]) _
  intro h
  rcases h 0 hpolling hdone with ⟨-, p, ha⟩ | ⟨p, e, he, -⟩
  · exact ha.1 (hexited p)
  · rw [hexited p] at he
    cases he

end Chronos.Handshake
