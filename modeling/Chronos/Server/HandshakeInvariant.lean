import Chronos.Server.Handshake

/-! # What holds in every state of the queued server

Each request is in at most one place: in the queue, with one processing thread,
or finished. Until its `txn_done` is written its handler is polling. These facts
need no assumption on the schedule.
-/
namespace Chronos.Handshake
open ReadyQueue
variable {P : Type}

/-- The dequeued entry whose pointers a processing thread holds. -/
def ProcessorPc.held : ProcessorPc P → Option (Entry P)
  | .running entry => some entry
  | .storeDone entry _ => some entry
  | .storeRc entry _ => some entry
  | _ => none

def Server.results (s : Server P) : List CallId := s.processed.map (·.1.owner)

def Server.waits (s : Server P) (h : ℕ) : Prop :=
  (s.handlers h).pc = .polling ∨ (s.handlers h).pc = .reading

/-- The handler that sent the entry polls a `txn_done` that is still 0. -/
structure Awaited (s : Server P) (e : Entry P) : Prop where
  donePtr : e.txnDone = some (.txnDone e.request.owner.handler)
  rcPtr : e.txnRc = some (.txnRc e.request.owner.handler)
  request : e.request = s.request e.request.owner.handler
  polling : (s.handlers e.request.owner.handler).pc = .polling
  unset : s.memory (.txnDone e.request.owner.handler) = 0

/-- The processing thread has set `txn_done` and not yet stored the result. -/
structure Late (s : Server P) (e : Entry P) (rc : ℤ) : Prop where
  rcPtr : e.txnRc = some (.txnRc e.request.owner.handler)
  result : (e.request, rc) ∈ s.processed
  unstored : e.request.owner ∉ s.stored
  current : e.request.owner = s.callId e.request.owner.handler →
    s.waits e.request.owner.handler ∧ s.memory (.txnDone e.request.owner.handler) ≠ 0 ∧
      e.request = s.request e.request.owner.handler

theorem Awaited.congr {s t : Server P} {e : Entry P} (he : Awaited s e)
    (hh : t.handlers = s.handlers) (hm : ∀ k, t.memory (.txnDone k) = s.memory (.txnDone k)) :
    Awaited t e where
  donePtr := he.donePtr
  rcPtr := he.rcPtr
  request := by simpa only [Server.request, Server.callId, hh] using he.request
  polling := by simpa only [hh] using he.polling
  unset := by simpa only [hm] using he.unset

theorem Late.congr {s t : Server P} {e : Entry P} {rc : ℤ} (he : Late s e rc)
    (hh : t.handlers = s.handlers) (hm : ∀ k, s.memory (.txnDone k) ≠ 0 → t.memory (.txnDone k) ≠ 0)
    (hp : ∀ x ∈ s.processed, x ∈ t.processed) (hs : e.request.owner ∉ t.stored) : Late t e rc where
  rcPtr := he.rcPtr
  result := hp _ he.result
  unstored := hs
  current := by
    have hc := he.current
    simp only [Server.request, Server.callId, Server.waits, hh] at hc ⊢
    intro h
    exact ⟨(hc h).1, hm _ (hc h).2.1, (hc h).2.2⟩

structure Inv (s : Server P) : Prop where
  indices : s.userTxnQueue.IndicesValid
  queued : ∀ e ∈ s.userTxnQueue.contents, Awaited s e ∧ e.request.owner ∉ s.results
  distinct : (s.userTxnQueue.contents.map (·.request.owner)).Nodup
  apart : ∀ p e, (s.processors p).held = some e →
    ∀ e' ∈ s.userTxnQueue.contents, e'.request.owner ≠ e.request.owner
  exclusive : ∀ p p' e e', (s.processors p).held = some e → (s.processors p').held = some e' →
    e.request.owner = e'.request.owner → p = p'
  running : ∀ p e, s.processors p = .running e → Awaited s e ∧ e.request.owner ∉ s.results
  storeDone : ∀ p e rc, s.processors p = .storeDone e rc →
    Awaited s e ∧ (e.request, rc) ∈ s.processed ∧ e.request.owner ∉ s.stored
  storeRc : ∀ p e rc, s.processors p = .storeRc e rc → Late s e rc
  resultsNodup : s.results.Nodup
  resultsPast : ∀ o ∈ s.results, o.seq < (s.handlers o.handler).seq ∨
    (o.seq = (s.handlers o.handler).seq ∧ s.waits o.handler)
  storedRun : ∀ o ∈ s.stored, o ∈ s.results
  woken : ∀ h, s.waits h → s.memory (.txnDone h) ≠ 0 →
    s.callId h ∈ s.stored ∨ ∃ p e rc, s.processors p = .storeRc e rc ∧ e.request.owner = s.callId h
  reading : ∀ h, (s.handlers h).pc = .reading → s.memory (.txnDone h) ≠ 0
  entering : ∀ h, (s.handlers h).pc = .clearRc ∨ (s.handlers h).pc = .enqueuing ∨
    (s.handlers h).pc = .enqueueWaiting → s.memory (.txnDone h) = 0

theorem inv_initial (n : ℕ) (packet : P) (memory : Local → ℤ) : Inv (initial n packet memory) := by
  have hproc : ∀ p, ((initial n packet memory).processors p).held = none := by
    intro p
    by_cases hp : p < n <;> simp [initial, hp, ProcessorPc.held]
  have hidle : ∀ p, (initial n packet memory).processors p = .loopTest ∨
      (initial n packet memory).processors p = .exited := by
    intro p
    by_cases hp : p < n <;> simp [initial, hp]
  have hcontents : (initial n packet memory).userTxnQueue.contents = [] := rfl
  exact {
    indices := (fifo_zeroed _).indices
    queued := by simp [hcontents]
    distinct := by simp [hcontents]
    apart := by simp [hproc]
    exclusive := by simp [hproc]
    running := by intro p e h; rcases hidle p with h' | h' <;> rw [h'] at h <;> cases h
    storeDone := by intro p e rc h; rcases hidle p with h' | h' <;> rw [h'] at h <;> cases h
    storeRc := by intro p e rc h; rcases hidle p with h' | h' <;> rw [h'] at h <;> cases h
    resultsNodup := by simp [initial, Server.results]
    resultsPast := by simp [initial, Server.results]
    storedRun := by simp [initial]
    woken := by simp [initial, Server.waits]
    reading := by simp [initial]
    entering := by simp [initial] }

/-! ## Steps of a handler -/

section HandlerSteps
variable {s : Server P}

def Server.moved (s : Server P) (h : ℕ) (hd : Handler P) (m : Local → ℤ) : Server P :=
  { s with handlers := Function.update s.handlers h hd, memory := m }

/-- Only the frame of handler `h` changes. -/
def FrameOf (s : Server P) (h : ℕ) (m : Local → ℤ) : Prop :=
  ∀ l, l ≠ .txnDone h → l ≠ .txnRc h → m l = s.memory l

variable {h : ℕ} {hd : Handler P} {m : Local → ℤ}

theorem moved_handlers_ne {k : ℕ} (hk : k ≠ h) : (s.moved h hd m).handlers k = s.handlers k :=
  Function.update_of_ne hk _ _

@[simp] theorem moved_handlers_self : (s.moved h hd m).handlers h = hd := Function.update_self _ _ _

@[simp] theorem moved_processors : (s.moved h hd m).processors = s.processors := rfl
@[simp] theorem moved_stored : (s.moved h hd m).stored = s.stored := rfl

theorem moved_memory_done (hm : FrameOf s h m) {k : ℕ} (hk : k ≠ h) :
    (s.moved h hd m).memory (.txnDone k) = s.memory (.txnDone k) :=
  hm _ (by simpa using hk) (by simp)

theorem Awaited.moved (hm : FrameOf s h m) {e : Entry P} (he : Awaited s e)
    (hne : e.request.owner.handler ≠ h) : Awaited (s.moved h hd m) e where
  donePtr := he.donePtr
  rcPtr := he.rcPtr
  request := by
    rw [Server.request, Server.callId, moved_handlers_ne hne]
    exact he.request
  polling := by
    rw [moved_handlers_ne hne]
    exact he.polling
  unset := by
    rw [moved_memory_done hm hne]
    exact he.unset

/-- While its handler is not polling an unset flag, a call has no awaited entry. -/
theorem Awaited.handler_ne {e : Entry P} (he : Awaited s e)
    (hpc : (s.handlers h).pc ≠ .polling ∨ s.memory (.txnDone h) ≠ 0) :
    e.request.owner.handler ≠ h := by
  rintro rfl
  rcases hpc with hpc | hpc
  · exact hpc he.polling
  · exact hpc he.unset

theorem Late.moved_ne (hm : FrameOf s h m) {e : Entry P} {rc : ℤ} (he : Late s e rc)
    (hne : e.request.owner.handler ≠ h) : Late (s.moved h hd m) e rc where
  rcPtr := he.rcPtr
  result := he.result
  unstored := he.unstored
  current := by
    simp only [Server.request, Server.callId, Server.waits, moved_handlers_ne hne,
      moved_memory_done hm hne]
    exact he.current

/-- The invariant survives a move of handler `h` if the awaited entries are not
its own and the facts about its own call still hold. -/
theorem Inv.moved (hi : Inv s) (hd : Handler P) (hm : FrameOf s h m)
    (hidle : (s.handlers h).pc ≠ .polling ∨ s.memory (.txnDone h) ≠ 0)
    (hseq : (s.handlers h).seq ≤ hd.seq)
    (hlate : ∀ p e rc, s.processors p = .storeRc e rc → e.request.owner.handler = h →
      Late (s.moved h hd m) e rc)
    (hpast : ∀ o ∈ s.results, o.handler = h → o.seq < hd.seq ∨
      (o.seq = hd.seq ∧ (hd.pc = .polling ∨ hd.pc = .reading)))
    (hwoken : hd.pc = .polling ∨ hd.pc = .reading → m (.txnDone h) ≠ 0 →
      (⟨h, hd.seq⟩ : CallId) ∈ s.stored ∨
        ∃ p e rc, s.processors p = .storeRc e rc ∧ e.request.owner = ⟨h, hd.seq⟩)
    (hreading : hd.pc = .reading → m (.txnDone h) ≠ 0)
    (hentering : hd.pc = .clearRc ∨ hd.pc = .enqueuing ∨ hd.pc = .enqueueWaiting →
      m (.txnDone h) = 0) :
    Inv (s.moved h hd m) where
  indices := hi.indices
  queued e he :=
    ⟨(hi.queued e he).1.moved hm ((hi.queued e he).1.handler_ne hidle), (hi.queued e he).2⟩
  distinct := hi.distinct
  apart := hi.apart
  exclusive := hi.exclusive
  running p e he :=
    ⟨(hi.running p e he).1.moved hm ((hi.running p e he).1.handler_ne hidle), (hi.running p e he).2⟩
  storeDone p e rc he :=
    ⟨(hi.storeDone p e rc he).1.moved hm ((hi.storeDone p e rc he).1.handler_ne hidle),
      (hi.storeDone p e rc he).2⟩
  storeRc p e rc he := by
    by_cases hh : e.request.owner.handler = h
    · exact hlate p e rc he hh
    · exact (hi.storeRc p e rc he).moved_ne hm hh
  resultsNodup := hi.resultsNodup
  resultsPast o ho := by
    by_cases hh : o.handler = h
    · have hp := hpast o ho hh
      simpa only [Server.waits, hh, moved_handlers_self] using hp
    · simpa only [Server.waits, moved_handlers_ne hh] using hi.resultsPast o ho
  storedRun := hi.storedRun
  woken k hk hdone := by
    by_cases hh : k = h
    · subst hh
      simp only [Server.waits, moved_handlers_self] at hk
      simpa only [Server.callId, moved_handlers_self, moved_processors, moved_stored]
        using hwoken hk hdone
    · simp only [Server.waits, moved_handlers_ne hh] at hk
      rw [moved_memory_done hm hh] at hdone
      simpa only [Server.callId, moved_handlers_ne hh, moved_processors, moved_stored]
        using hi.woken k hk hdone
  reading k hk := by
    by_cases hh : k = h
    · subst hh
      exact hreading (by simpa using hk)
    · rw [moved_handlers_ne hh] at hk
      rw [moved_memory_done hm hh]
      exact hi.reading k hk
  entering k hk := by
    by_cases hh : k = h
    · subst hh
      exact hentering (by simpa using hk)
    · rw [moved_handlers_ne hh] at hk
      rw [moved_memory_done hm hh]
      exact hi.entering k hk

/-- A handler that is not waiting for a result moves on without starting to wait. -/
theorem Inv.moved_quiet (hi : Inv s) (hd : Handler P) (hm : FrameOf s h m) (hpc : ¬ s.waits h)
    (hseq : hd.seq = (s.handlers h).seq)
    (hreading : hd.pc ≠ .reading)
    (hpolling : hd.pc = .polling → m (.txnDone h) = 0)
    (hentering : hd.pc = .clearRc ∨ hd.pc = .enqueuing ∨ hd.pc = .enqueueWaiting →
      m (.txnDone h) = 0) :
    Inv (s.moved h hd m) := by
  have hnone : ∀ o ∈ s.results, o.handler = h → o.seq < hd.seq := by
    intro o ho hh
    rcases hi.resultsPast o ho with hp | ⟨_, hw⟩
    · rw [hh] at hp
      omega
    · exact absurd (hh ▸ hw) hpc
  refine hi.moved hd hm (Or.inl fun h' => hpc (Or.inl h')) hseq.ge ?_
    (fun o ho hh => Or.inl (hnone o ho hh)) ?_ (fun h' => absurd h' hreading) hentering
  · intro p e rc hp hh
    have hl := hi.storeRc p e rc hp
    refine ⟨hl.rcPtr, hl.result, hl.unstored, ?_⟩
    intro hcur
    have hseq' : e.request.owner.seq = hd.seq := by
      have := congrArg CallId.seq hcur
      simpa only [Server.callId, hh, moved_handlers_self] using this
    have hlt := hnone e.request.owner (List.mem_map.mpr ⟨_, hl.result, rfl⟩) hh
    omega
  · rintro (hp | hr) hdone
    · exact absurd (hpolling hp) hdone
    · exact absurd hr hreading

/-- The handler saw `txn_done` set. -/
theorem Inv.moved_wake (hi : Inv s) (hpc : (s.handlers h).pc = .polling)
    (hdone : s.memory (.txnDone h) ≠ 0) : Inv (s.handlerAt h .reading) := by
  have hw : s.waits h := Or.inl hpc
  refine hi.moved (s := s) { s.handlers h with pc := .reading } (m := s.memory)
    (fun _ _ _ => rfl) (Or.inr hdone) le_rfl ?_ ?_ ?_ (fun _ => hdone) (by simp)
  · intro p e rc hp hh
    have hl := hi.storeRc p e rc hp
    refine ⟨hl.rcPtr, hl.result, hl.unstored, ?_⟩
    have hcur := hl.current
    simp only [Server.callId, Server.request, Server.waits, hh, moved_handlers_self] at hcur ⊢
    intro hc
    obtain ⟨-, hd, hr⟩ := hcur hc
    exact ⟨Or.inr trivial, hd, hr⟩
  · intro o ho hh
    rcases hi.resultsPast o ho with hp | ⟨hp, _⟩
    · exact Or.inl (hh ▸ hp)
    · exact Or.inr ⟨hh ▸ hp, Or.inr rfl⟩
  · intro _ _
    exact hi.woken h hw hdone

theorem Inv.moved_leave (hi : Inv s) (hpc : (s.handlers h).pc = .reading) :
    Inv (s.moved h { s.handlers h with pc := .outside, seq := (s.handlers h).seq + 1 }
      s.memory) := by
  refine hi.moved _ (fun _ _ _ => rfl) (Or.inl (by simp [hpc])) (Nat.le_succ _) ?_ ?_ (by simp)
    (by simp) (by simp)
  · intro p e rc hp hh
    have hl := hi.storeRc p e rc hp
    refine ⟨hl.rcPtr, hl.result, hl.unstored, ?_⟩
    intro hcur
    have hseq := congrArg CallId.seq hcur
    simp only [Server.callId, hh, moved_handlers_self] at hseq
    have hpast := hi.resultsPast e.request.owner (List.mem_map.mpr ⟨_, hl.result, rfl⟩)
    rw [hh] at hpast
    rcases hpast with hp' | ⟨hp', _⟩ <;> omega
  · intro o ho hh
    left
    rcases hi.resultsPast o ho with hp | ⟨hp, _⟩ <;> rw [hh] at hp <;> simp only <;> omega

theorem Inv.enqueued {q : ChronosQueue Local (Request P)} {ticket : UInt64} (hi : Inv s)
    (hpc : (s.handlers h).pc = .enqueuing ∨ (s.handlers h).pc = .enqueueWaiting)
    (he : chronosEnqueueTransaction s.userTxnQueue (s.entry h) = .done q ticket) :
    Inv { s.handlerAt h .polling with userTxnQueue := q } := by
  obtain ⟨hvalid, hcontents, -, -⟩ := enqueue_contents hi.indices he
  have hunset : s.memory (.txnDone h) = 0 := hi.entering h (by tauto)
  have hidle : ¬ s.waits h := by rintro (hw | hw) <;> rw [hw] at hpc <;> simp at hpc
  have hnew : s.callId h ∉ s.results := by
    intro hr
    rcases hi.resultsPast _ hr with hp | ⟨_, hw⟩
    · exact absurd hp (lt_irrefl _)
    · exact hidle hw
  have hi' := hi.moved_quiet { s.handlers h with pc := .polling } (m := s.memory)
    (fun _ _ _ => rfl) hidle rfl (by simp) (fun _ => hunset) (by simp)
  have hfresh : ∀ e : Entry P, Awaited s e → e.request.owner ≠ s.callId h := by
    intro e ha ho
    exact hidle (Or.inl (by have := ha.polling; rwa [ho] at this))
  have hapart : ∀ p e, (s.processors p).held = some e → e.request.owner ≠ s.callId h := by
    intro p e hp
    cases hpp : s.processors p with
    | running e' => rw [hpp] at hp; cases hp; exact hfresh _ (hi.running p _ hpp).1
    | storeDone e' rc => rw [hpp] at hp; cases hp; exact hfresh _ (hi.storeDone p _ rc hpp).1
    | storeRc e' rc =>
      rw [hpp] at hp
      cases hp
      intro ho
      have hl := (hi.storeRc p _ rc hpp).result
      exact hnew (ho ▸ List.mem_map.mpr ⟨_, hl, rfl⟩)
    | _ => rw [hpp] at hp; cases hp
  refine
    { indices := hvalid
      queued := ?_
      distinct := ?_
      apart := ?_
      exclusive := hi'.exclusive
      running :=
        fun p e hp => ⟨(hi'.running p e hp).1.congr rfl fun _ => rfl, (hi'.running p e hp).2⟩
      storeDone := fun p e rc hp => ⟨(hi'.storeDone p e rc hp).1.congr rfl fun _ => rfl,
        (hi'.storeDone p e rc hp).2⟩
      storeRc := fun p e rc hp => (hi'.storeRc p e rc hp).congr rfl (fun _ h => h) (fun _ h => h)
        (hi'.storeRc p e rc hp).unstored
      resultsNodup := hi'.resultsNodup
      resultsPast := hi'.resultsPast
      storedRun := hi'.storedRun
      woken := hi'.woken
      reading := hi'.reading
      entering := hi'.entering }
  · intro e hmem
    simp only [hcontents, List.mem_append, List.mem_singleton] at hmem
    rcases hmem with hmem | rfl
    · exact ⟨(hi'.queued e hmem).1.congr rfl fun _ => rfl, (hi'.queued e hmem).2⟩
    · exact ⟨⟨rfl, rfl,
        by simp [Server.entry, userTxnInfo, Server.request, Server.callId, Server.handlerAt],
        by simp [Server.entry, userTxnInfo, Server.request, Server.callId, Server.handlerAt],
        hunset⟩, hnew⟩
  · simp only [hcontents, List.map_append, List.map_cons, List.map_nil]
    rw [List.nodup_append]
    refine ⟨hi.distinct, List.nodup_singleton _, ?_⟩
    intro o ho o' ho'
    obtain ⟨e, hmem, rfl⟩ := List.mem_map.mp ho
    rw [List.mem_singleton.mp ho']
    exact hfresh e (hi.queued e hmem).1
  · intro p e hp e' hmem
    simp only [hcontents, List.mem_append, List.mem_singleton] at hmem
    rcases hmem with hmem | rfl
    · exact hi.apart p e hp e' hmem
    · exact (hapart p e hp).symm

end HandlerSteps

/-! ## Steps of a processing thread -/

section ProcessorSteps
variable {s : Server P} {p : ℕ}

theorem processorAt_self {pc : ProcessorPc P} : (s.processorAt p pc).processors p = pc :=
  Function.update_self _ _ _

theorem processorAt_ne {pc : ProcessorPc P} {k : ℕ} (hk : k ≠ p) :
    (s.processorAt p pc).processors k = s.processors k := Function.update_of_ne hk _ _

/-- At another place than the new one is another thread, which has not moved. -/
theorem processorAt_back {pc pc' : ProcessorPc P} {k : ℕ}
    (hk : (s.processorAt p pc).processors k = pc') (hpc : pc' ≠ pc) :
    k ≠ p ∧ s.processors k = pc' := by
  have hkp : k ≠ p := by
    rintro rfl
    exact hpc (hk.symm.trans processorAt_self)
  exact ⟨hkp, (processorAt_ne hkp).symm.trans hk⟩

theorem Inv.woken_processorAt (hi : Inv s) (pc : ProcessorPc P)
    (hold : ∀ e rc, s.processors p ≠ .storeRc e rc) {h : ℕ} (hw : s.waits h)
    (hd : s.memory (.txnDone h) ≠ 0) : s.callId h ∈ s.stored ∨
      ∃ k e rc, (s.processorAt p pc).processors k = .storeRc e rc ∧
        e.request.owner = s.callId h := by
  rcases hi.woken h hw hd with hs | ⟨k, e, rc, hk, ho⟩
  · exact Or.inl hs
  · have hkp : k ≠ p := by
      rintro rfl
      exact hold e rc hk
    exact Or.inr ⟨k, e, rc, (processorAt_ne hkp).trans hk, ho⟩

theorem Inv.processor_quiet (hi : Inv s) {pc : ProcessorPc P} (hold : (s.processors p).held = none)
    (hnew : pc.held = none) : Inv (s.processorAt p pc) := by
  have hpc : ∀ k pc', (s.processorAt p pc).processors k = pc' → pc'.held ≠ none →
    s.processors k = pc' :=
    fun k pc' hk hh => (processorAt_back hk fun heq => hh (heq ▸ hnew)).2
  have hheld : ∀ k e, ((s.processorAt p pc).processors k).held = some e →
    (s.processors k).held = some e := by
    intro k e hk
    rwa [hpc k _ rfl (by rw [hk]; simp)]
  exact
    { indices := hi.indices
      queued := fun e he => ⟨(hi.queued e he).1.congr rfl fun _ => rfl, (hi.queued e he).2⟩
      distinct := hi.distinct
      apart := fun k e hk => hi.apart k e (hheld k e hk)
      exclusive := fun k k' e e' hk hk' => hi.exclusive k k' e e' (hheld k e hk) (hheld k' e' hk')
      running := fun k e hk =>
        have h := hi.running k e (hpc k _ hk (by simp [ProcessorPc.held]))
        ⟨h.1.congr rfl fun _ => rfl, h.2⟩
      storeDone := fun k e rc hk =>
        have h := hi.storeDone k e rc (hpc k _ hk (by simp [ProcessorPc.held]))
        ⟨h.1.congr rfl fun _ => rfl, h.2⟩
      storeRc := fun k e rc hk =>
        have h := hi.storeRc k e rc (hpc k _ hk (by simp [ProcessorPc.held]))
        h.congr rfl (fun _ hd => hd) (fun _ hx => hx) h.unstored
      resultsNodup := hi.resultsNodup
      resultsPast := hi.resultsPast
      storedRun := hi.storedRun
      woken := fun h hw hd => hi.woken_processorAt pc
        (fun e rc hk => by simp [hk, ProcessorPc.held] at hold) hw hd
      reading := hi.reading
      entering := hi.entering }

theorem Inv.dequeued (hi : Inv s) {q : ChronosQueue Local (Request P)} {e : Entry P}
    (hold : (s.processors p).held = none)
    (hd : chronosDequeueTransaction s.userTxnQueue = .done q e) :
    Inv { s.processorAt p (.running e) with userTxnQueue := q } := by
  obtain ⟨hvalid, hcontents, -⟩ := dequeue_contents hi.indices hd
  have hmem : ∀ e' ∈ q.contents, e' ∈ s.userTxnQueue.contents := by
    intro e' he'
    rw [hcontents]
    exact List.mem_cons_of_mem _ he'
  have hhead : e ∈ s.userTxnQueue.contents := by
    rw [hcontents]
    exact List.mem_cons_self
  have hdist := hi.distinct
  rw [hcontents, List.map_cons, List.nodup_cons] at hdist
  have hheld : ∀ k e', ((s.processorAt p (.running e)).processors k).held = some e' →
      (k = p ∧ e' = e) ∨ (k ≠ p ∧ (s.processors k).held = some e') := by
    intro k e' hk
    by_cases hkp : k = p
    · subst hkp
      rw [processorAt_self] at hk
      exact Or.inl ⟨rfl, (Option.some.inj hk).symm⟩
    · rw [processorAt_ne hkp] at hk
      exact Or.inr ⟨hkp, hk⟩
  refine
    { indices := hvalid
      queued := fun e' he' =>
        ⟨(hi.queued e' (hmem e' he')).1.congr rfl fun _ => rfl, (hi.queued e' (hmem e' he')).2⟩
      distinct := hdist.2
      apart := ?_
      exclusive := ?_
      running := ?_
      storeDone := ?_
      storeRc := ?_
      resultsNodup := hi.resultsNodup
      resultsPast := hi.resultsPast
      storedRun := hi.storedRun
      woken := ?_
      reading := hi.reading
      entering := hi.entering }
  · intro k e' hk e'' he''
    rcases hheld k e' hk with ⟨-, rfl⟩ | ⟨-, hk'⟩
    · intro ho
      exact hdist.1 (ho ▸ List.mem_map.mpr ⟨_, he'', rfl⟩)
    · exact hi.apart k e' hk' e'' (hmem e'' he'')
  · intro k k' e₁ e₂ hk hk' ho
    rcases hheld k e₁ hk with ⟨rfl, rfl⟩ | ⟨-, hk₁⟩ <;>
      rcases hheld k' e₂ hk' with ⟨rfl, rfl⟩ | ⟨-, hk₂⟩
    · rfl
    · exact absurd ho (hi.apart k' e₂ hk₂ _ hhead)
    · exact absurd ho.symm (hi.apart k e₁ hk₁ _ hhead)
    · exact hi.exclusive k k' e₁ e₂ hk₁ hk₂ ho
  · intro k e' hk
    by_cases hkp : k = p
    · subst hkp
      obtain rfl : e = e' := ProcessorPc.running.inj (processorAt_self.symm.trans hk)
      exact ⟨(hi.queued e hhead).1.congr rfl fun _ => rfl, (hi.queued e hhead).2⟩
    · have h := hi.running k e' ((processorAt_ne hkp).symm.trans hk)
      exact ⟨h.1.congr rfl fun _ => rfl, h.2⟩
  · intro k e' rc hk
    have h := hi.storeDone k e' rc (processorAt_back hk (by simp)).2
    exact ⟨h.1.congr rfl fun _ => rfl, h.2⟩
  · intro k e' rc hk
    have h := hi.storeRc k e' rc (processorAt_back hk (by simp)).2
    exact h.congr rfl (fun _ hd => hd) (fun _ hx => hx) h.unstored
  · intro h hw hdone
    exact hi.woken_processorAt (.running e)
      (fun e' rc hk => by simp [hk, ProcessorPc.held] at hold) hw hdone

/-- A thread that moves on and takes no entry from elsewhere. -/
theorem processorAt_held {pc : ProcessorPc P}
    (hnew : ∀ e, pc.held = some e → (s.processors p).held = some e) {k : ℕ} {e : Entry P}
    (hk : ((s.processorAt p pc).processors k).held = some e) :
    (s.processors k).held = some e := by
  by_cases hkp : k = p
  · subst hkp
    rw [processorAt_self] at hk
    exact hnew e hk
  · rwa [processorAt_ne hkp] at hk

theorem Awaited.owner_eq {e : Entry P} (he : Awaited s e) :
    e.request.owner = s.callId e.request.owner.handler := by
  have h := congrArg Request.owner he.request
  simpa only [Server.request] using h

theorem Awaited.handler_ne_of_owner_ne {e e' : Entry P} (he : Awaited s e) (he' : Awaited s e')
    (hne : e'.request.owner ≠ e.request.owner) :
    e'.request.owner.handler ≠ e.request.owner.handler := by
  intro hh
  apply hne
  rw [he'.owner_eq, he.owner_eq, hh]

theorem Inv.processed (hi : Inv s) {e : Entry P} {rc : ℤ} (hold : s.processors p = .running e) :
    Inv { s.processorAt p (.storeDone e rc) with processed :=
      s.processed ++ [(e.request, rc)] } := by
  obtain ⟨ha, hfresh⟩ := hi.running p e hold
  have hresults : Server.results { s.processorAt p (.storeDone e rc) with
      processed := s.processed ++ [(e.request, rc)] } = s.results ++ [e.request.owner] := by
    simp [Server.results]
  have hheld : (s.processors p).held = some e := by rw [hold]; rfl
  have hother : ∀ k e', k ≠ p → (s.processors k).held = some e' →
    e'.request.owner ≠ e.request.owner :=
    fun k e' hk hk' ho => hk (hi.exclusive k p e' e hk' hheld ho)
  refine
    { indices := hi.indices
      queued := ?_
      distinct := hi.distinct
      apart := fun k e' hk => hi.apart k e' (processorAt_held (by simp [ProcessorPc.held, hold]) hk)
      exclusive := fun k k' e₁ e₂ hk hk' => hi.exclusive k k' e₁ e₂
        (processorAt_held (by simp [ProcessorPc.held, hold]) hk)
        (processorAt_held (by simp [ProcessorPc.held, hold]) hk')
      running := ?_
      storeDone := ?_
      storeRc := ?_
      resultsNodup := ?_
      resultsPast := ?_
      storedRun := ?_
      woken := ?_
      reading := hi.reading
      entering := hi.entering }
  · intro e' he'
    refine ⟨(hi.queued e' he').1.congr rfl fun _ => rfl, ?_⟩
    rw [hresults, List.mem_append, List.mem_singleton]
    exact not_or.mpr ⟨(hi.queued e' he').2, hi.apart p e hheld e' he'⟩
  · intro k e' hk
    obtain ⟨hkp, hk'⟩ : k ≠ p ∧ s.processors k = .running e' := processorAt_back hk (by simp)
    refine ⟨(hi.running k e' hk').1.congr rfl fun _ => rfl, ?_⟩
    rw [hresults, List.mem_append, List.mem_singleton]
    exact not_or.mpr ⟨(hi.running k e' hk').2, hother k e' hkp (by rw [hk']; rfl)⟩
  · intro k e' rc' hk
    by_cases hkp : k = p
    · subst hkp
      obtain ⟨rfl, rfl⟩ := ProcessorPc.storeDone.inj (processorAt_self.symm.trans hk)
      exact ⟨ha.congr rfl fun _ => rfl, List.mem_append_right _ (List.mem_singleton_self _),
        fun hs => hfresh (hi.storedRun _ hs)⟩
    · have h := hi.storeDone k e' rc' ((processorAt_ne hkp).symm.trans hk)
      exact ⟨h.1.congr rfl fun _ => rfl, List.mem_append_left _ h.2.1, h.2.2⟩
  · intro k e' rc' hk
    have h := hi.storeRc k e' rc' (processorAt_back hk (by simp)).2
    exact h.congr rfl (fun _ hd => hd) (fun _ hx => List.mem_append_left _ hx) h.unstored
  · rw [hresults, List.nodup_append]
    refine ⟨hi.resultsNodup, List.nodup_singleton _, ?_⟩
    intro o ho o' ho'
    rw [List.mem_singleton.mp ho']
    rintro rfl
    exact hfresh ho
  · intro o ho
    rw [hresults, List.mem_append, List.mem_singleton] at ho
    rcases ho with ho | rfl
    · exact hi.resultsPast o ho
    · exact Or.inr ⟨congrArg CallId.seq ha.owner_eq, Or.inl ha.polling⟩
  · intro o ho
    rw [hresults]
    exact List.mem_append_left _ (hi.storedRun o ho)
  · intro h hw hdone
    exact hi.woken_processorAt (.storeDone e rc) (fun e' rc' hk => by simp [hk] at hold) hw hdone

/-- `*txn_done = 1`. -/
theorem Inv.doneStored (hi : Inv s) {e : Entry P} {rc : ℤ}
    (hold : s.processors p = .storeDone e rc) :
    Inv ((s.store (.txnDone e.request.owner.handler) 1).processorAt p (.storeRc e rc)) := by
  obtain ⟨ha, hresult, hunstored⟩ := hi.storeDone p e rc hold
  have hheld : (s.processors p).held = some e := by rw [hold]; rfl
  set t := (s.store (.txnDone e.request.owner.handler) 1).processorAt p (.storeRc e rc) with ht
  have hdone : t.memory (.txnDone e.request.owner.handler) = 1 := by
    simp [ht, Server.store, Server.processorAt]
  have hmem : ∀ k, k ≠ e.request.owner.handler → t.memory (.txnDone k) = s.memory (.txnDone k) := by
    intro k hk
    simp [ht, Server.store, Server.processorAt, hk]
  have hmem' : ∀ k, s.memory (.txnDone k) ≠ 0 → t.memory (.txnDone k) ≠ 0 := by
    intro k hk
    by_cases hkh : k = e.request.owner.handler
    · rw [hkh, hdone]
      exact one_ne_zero
    · rwa [hmem k hkh]
  have hawaited : ∀ e', Awaited s e' → e'.request.owner ≠ e.request.owner → Awaited t e' := by
    intro e' ha' hne
    refine ⟨ha'.donePtr, ha'.rcPtr, ha'.request, ha'.polling, ?_⟩
    rw [hmem _ (ha.handler_ne_of_owner_ne ha' hne)]
    exact ha'.unset
  have hother : ∀ k e', k ≠ p → (s.processors k).held = some e' →
    e'.request.owner ≠ e.request.owner :=
    fun k e' hk hk' ho => hk (hi.exclusive k p e' e hk' hheld ho)
  have hne : ∀ k, k ≠ p → t.processors k = s.processors k := fun k hk => processorAt_ne hk
  have hself : t.processors p = .storeRc e rc := processorAt_self
  refine
    { indices := hi.indices
      queued := fun e' he' => ⟨hawaited e' (hi.queued e' he').1 (hi.apart p e hheld e' he'),
        (hi.queued e' he').2⟩
      distinct := hi.distinct
      apart := fun k e' hk =>
        hi.apart k e'
          (processorAt_held (s := s.store _ 1) (by simp [ProcessorPc.held, Server.store, hold]) hk)
      exclusive := fun k k' e₁ e₂ hk hk' => hi.exclusive k k' e₁ e₂
        (processorAt_held (s := s.store _ 1) (by simp [ProcessorPc.held, Server.store, hold]) hk)
        (processorAt_held (s := s.store _ 1) (by simp [ProcessorPc.held, Server.store, hold]) hk')
      running := ?_
      storeDone := ?_
      storeRc := ?_
      resultsNodup := hi.resultsNodup
      resultsPast := hi.resultsPast
      storedRun := hi.storedRun
      woken := ?_
      reading := fun h hr => hmem' h (hi.reading h hr)
      entering := ?_ }
  · intro k e' hk
    obtain ⟨hkp, hk'⟩ : k ≠ p ∧ s.processors k = .running e' := processorAt_back hk (by simp)
    have h := hi.running k e' hk'
    exact ⟨hawaited e' h.1 (hother k e' hkp (by rw [hk']; rfl)), h.2⟩
  · intro k e' rc' hk
    obtain ⟨hkp, hk'⟩ : k ≠ p ∧ s.processors k = .storeDone e' rc' := processorAt_back hk (by simp)
    have h := hi.storeDone k e' rc' hk'
    exact ⟨hawaited e' h.1 (hother k e' hkp (by rw [hk']; rfl)), h.2⟩
  · intro k e' rc' hk
    by_cases hkp : k = p
    · subst hkp
      obtain ⟨rfl, rfl⟩ := ProcessorPc.storeRc.inj (hself.symm.trans hk)
      refine ⟨ha.rcPtr, hresult, hunstored, fun _ => ⟨Or.inl ha.polling, ?_, ha.request⟩⟩
      rw [hdone]
      exact one_ne_zero
    · have h := hi.storeRc k e' rc' ((hne k hkp).symm.trans hk)
      exact h.congr rfl hmem' (fun _ hx => hx) h.unstored
  · intro h hw hd
    by_cases hh : h = e.request.owner.handler
    · subst hh
      exact Or.inr ⟨p, e, rc, hself, ha.owner_eq⟩
    · rw [hmem h hh] at hd
      exact hi.woken_processorAt (.storeRc e rc) (fun e' rc' hk => by simp [hk] at hold) hw hd
  · intro h hpc
    have hh : h ≠ e.request.owner.handler := by
      rintro rfl
      have hpolling : (t.handlers e.request.owner.handler).pc = .polling := ha.polling
      simp [hpolling] at hpc
    rw [hmem h hh]
    exact hi.entering h hpc

/-- `*txn_rcP = txn_rc`. -/
theorem Inv.rcStored (hi : Inv s) {e : Entry P} {rc : ℤ} (hold : s.processors p = .storeRc e rc) :
    Inv { (s.store (.txnRc e.request.owner.handler) rc).processorAt p .loopTest with
      stored := s.stored ++ [e.request.owner] } := by
  have hl := hi.storeRc p e rc hold
  have hheld : (s.processors p).held = some e := by rw [hold]; rfl
  have hother : ∀ k e', k ≠ p → (s.processors k).held = some e' →
    e'.request.owner ≠ e.request.owner :=
    fun k e' hk hk' ho => hk (hi.exclusive k p e' e hk' hheld ho)
  set t : Server P := { (s.store (.txnRc e.request.owner.handler) rc).processorAt p .loopTest with
    stored := s.stored ++ [e.request.owner] } with ht
  have hmem : ∀ k, t.memory (.txnDone k) = s.memory (.txnDone k) := by
    intro k
    simp [ht, Server.store, Server.processorAt]
  have hne : ∀ k, k ≠ p → t.processors k = s.processors k :=
    fun k hk => Function.update_of_ne hk _ _
  have hself : t.processors p = .loopTest := Function.update_self _ _ _
  have hheld' : ∀ k e', (t.processors k).held = some e' → (s.processors k).held = some e' := by
    intro k e' hk
    by_cases hkp : k = p
    · rw [hkp, hself] at hk
      cases hk
    · rwa [hne k hkp] at hk
  have hback : ∀ k pc, t.processors k = pc → pc ≠ .loopTest → k ≠ p ∧ s.processors k = pc :=
    fun _ _ hk hpc => processorAt_back hk hpc
  have hunstored : ∀ k e', k ≠ p → (s.processors k).held = some e' → e'.request.owner ∉ s.stored →
      e'.request.owner ∉ t.stored := by
    intro k e' hkp hk hs
    simp only [ht, List.mem_append, List.mem_singleton]
    exact not_or.mpr ⟨hs, hother k e' hkp hk⟩
  refine
    { indices := hi.indices
      queued := fun e' he' => ⟨(hi.queued e' he').1.congr rfl hmem, (hi.queued e' he').2⟩
      distinct := hi.distinct
      apart := fun k e' hk => hi.apart k e' (hheld' k e' hk)
      exclusive :=
        fun k k' e₁ e₂ hk hk' => hi.exclusive k k' e₁ e₂ (hheld' k e₁ hk) (hheld' k' e₂ hk')
      running := ?_
      storeDone := ?_
      storeRc := ?_
      resultsNodup := hi.resultsNodup
      resultsPast := hi.resultsPast
      storedRun := ?_
      woken := ?_
      reading := fun h hr => by rw [hmem]; exact hi.reading h hr
      entering := fun h hr => by rw [hmem]; exact hi.entering h hr }
  · intro k e' hk
    have h := hi.running k e' (hback k _ hk (by simp)).2
    exact ⟨h.1.congr rfl hmem, h.2⟩
  · intro k e' rc' hk
    obtain ⟨hkp, hk'⟩ := hback k _ hk (by simp)
    have h := hi.storeDone k e' rc' hk'
    exact ⟨h.1.congr rfl hmem, h.2.1, hunstored k e' hkp (by rw [hk']; rfl) h.2.2⟩
  · intro k e' rc' hk
    obtain ⟨hkp, hk'⟩ := hback k _ hk (by simp)
    have h := hi.storeRc k e' rc' hk'
    exact h.congr rfl (fun k' hd => by rwa [hmem k']) (fun _ hx => hx)
      (hunstored k e' hkp (by rw [hk']; rfl) h.unstored)
  · intro o ho
    simp only [ht, List.mem_append, List.mem_singleton] at ho
    rcases ho with ho | rfl
    · exact hi.storedRun o ho
    · exact List.mem_map.mpr ⟨_, hl.result, rfl⟩
  · intro h hw hd
    rw [hmem] at hd
    rcases hi.woken h hw hd with hs | ⟨k, e', rc', hk, ho⟩
    · exact Or.inl (List.mem_append_left _ hs)
    · by_cases hkp : k = p
      · rw [hkp, hold] at hk
        obtain ⟨rfl, rfl⟩ := ProcessorPc.storeRc.inj hk
        exact Or.inl (List.mem_append_right _ (List.mem_singleton.mpr ho.symm))
      · exact Or.inr ⟨k, e', rc', (hne k hkp).trans hk, ho⟩

end ProcessorSteps

/-! ## Runs -/

section Runs
variable {s : Server P}

/-- The invariant looks neither at `time_to_die` nor at the returned results. -/
theorem Inv.congr (hi : Inv s) (timeToDie : Bool) (returned : List (Request P × ℤ)) :
    Inv { s with timeToDie := timeToDie, returned := returned } where
  indices := hi.indices
  queued e he := ⟨(hi.queued e he).1.congr rfl fun _ => rfl, (hi.queued e he).2⟩
  distinct := hi.distinct
  apart := hi.apart
  exclusive := hi.exclusive
  running p e he := ⟨(hi.running p e he).1.congr rfl fun _ => rfl, (hi.running p e he).2⟩
  storeDone p e rc he :=
    ⟨(hi.storeDone p e rc he).1.congr rfl fun _ => rfl, (hi.storeDone p e rc he).2⟩
  storeRc p e rc he :=
    (hi.storeRc p e rc he).congr rfl (fun _ hd => hd) (fun _ hx => hx)
      (hi.storeRc p e rc he).unstored
  resultsNodup := hi.resultsNodup
  resultsPast := hi.resultsPast
  storedRun := hi.storedRun
  woken := hi.woken
  reading := hi.reading
  entering := hi.entering

theorem handlerStep_inv (hi : Inv s) (h : ℕ) : Inv (handlerStep s h) := by
  cases hpc : (s.handlers h).pc with
  | outside => simpa only [handlerStep, hpc] using hi
  | clearDone =>
    simp only [handlerStep, hpc]
    refine hi.moved_quiet { s.handlers h with pc := .clearRc }
      (m := Function.update s.memory (.txnDone h) 0) ?_ (by simp [Server.waits, hpc]) rfl (by simp)
        (by simp) (by simp)
    intro l hl _
    exact Function.update_of_ne hl _ _
  | clearRc =>
    have hunset := hi.entering h (Or.inl hpc)
    simp only [handlerStep, hpc]
    refine hi.moved_quiet { s.handlers h with pc := .enqueuing }
      (m := Function.update s.memory (.txnRc h) 0) ?_ (by simp [Server.waits, hpc]) rfl (by simp)
        (by simp)
      (by simpa using hunset)
    intro l _ hl
    exact Function.update_of_ne hl _ _
  | enqueuing =>
    have hunset := hi.entering h (Or.inr (Or.inl hpc))
    simp only [handlerStep, hpc]
    split
    · exact hi.moved_quiet { s.handlers h with pc := .enqueueWaiting } (m := s.memory)
        (fun _ _ _ => rfl) (by simp [Server.waits, hpc]) rfl (by simp) (by simp)
          (by simpa using hunset)
    · exact hi
    · rename_i q ticket he
      exact hi.enqueued (Or.inl hpc) he
  | enqueueWaiting =>
    have hunset := hi.entering h (Or.inr (Or.inr hpc))
    simp only [handlerStep, hpc]
    split
    · exact hi.moved_quiet { s.handlers h with pc := .polling } (m := s.memory)
        (fun _ _ _ => rfl) (by simp [Server.waits, hpc]) rfl (by simp) (fun _ => hunset) (by simp)
    · split
      · exact hi
      · exact hi
      · rename_i q ticket he
        exact hi.enqueued (Or.inr hpc) he
  | polling =>
    simp only [handlerStep, hpc]
    split
    · exact hi
    · rename_i hdone
      exact hi.moved_wake hpc hdone
  | reading =>
    simp only [handlerStep, hpc]
    exact (hi.moved_leave hpc).congr s.timeToDie _

theorem processorStep_inv (hi : Inv s) (p : ℕ) (txnRc : ℤ) : Inv (processorStep s p txnRc) := by
  cases hpc : s.processors p with
  | loopTest =>
    simp only [processorStep, hpc]
    split <;> exact hi.processor_quiet (by simp [hpc, ProcessorPc.held]) rfl
  | occupiedTest =>
    simp only [processorStep, hpc]
    split <;> exact hi.processor_quiet (by simp [hpc, ProcessorPc.held]) rfl
  | occupiedTestAgain =>
    simp only [processorStep, hpc]
    split <;> exact hi.processor_quiet (by simp [hpc, ProcessorPc.held]) rfl
  | dequeuing =>
    have hold : (s.processors p).held = none := by simp [hpc, ProcessorPc.held]
    simp only [processorStep, hpc]
    split
    · exact hi.processor_quiet hold rfl
    · exact hi.processor_quiet hold rfl
    · rename_i q e hd
      exact hi.dequeued hold hd
  | dequeueWaiting =>
    have hold : (s.processors p).held = none := by simp [hpc, ProcessorPc.held]
    simp only [processorStep, hpc]
    split
    · exact hi.processor_quiet hold rfl
    · split
      · exact hi
      · exact hi.processor_quiet hold rfl
      · rename_i q e hd
        exact hi.dequeued hold hd
  | running e =>
    simp only [processorStep, hpc]
    exact hi.processed hpc
  | storeDone e rc =>
    simp only [processorStep, hpc, (hi.storeDone p e rc hpc).1.donePtr]
    exact hi.doneStored hpc
  | storeRc e rc =>
    simp only [processorStep, hpc, (hi.storeRc p e rc hpc).rcPtr]
    exact hi.rcStored hpc
  | exited => simpa only [processorStep, hpc] using hi
  | crashed => simpa only [processorStep, hpc] using hi

theorem step_inv (hi : Inv s) (ev : Event P) : Inv (step s ev) := by
  cases ev with
  | dispatch h packet =>
    simp only [step]
    split
    · rename_i hpc
      exact hi.moved_quiet { s.handlers h with pc := .clearDone, packet := packet } (m := s.memory)
        (fun _ _ _ => rfl) (by simp [Server.waits, hpc]) rfl (by simp) (by simp) (by simp)
    · exact hi
  | handler h => exact handlerStep_inv hi h
  | processor p txnRc => exact processorStep_inv hi p txnRc
  | sigint => exact hi.congr true s.returned

theorem run_inv (hi : Inv s) (es : List (Event P)) : Inv (run s es) := by
  induction es generalizing s with
  | nil => exact hi
  | cons ev es ih => exact ih (step_inv hi ev)

end Runs

end Chronos.Handshake
