import Chronos.Server.HandshakeInvariant

/-! # What the completion handshake guarantees

A handler may return between the two stores of its processing thread. The runs
in which none does are exactly those in which every result reaches its handler
and nobody keeps pointers into the frame of a finished call.
-/
namespace Chronos.Handshake
open ReadyQueue
variable {P : Type}

/-- The pointers of the entry are in the queue or with a processing thread. -/
def Server.pointersHeld (s : Server P) (e : Entry P) : Prop :=
  e ∈ s.userTxnQueue.contents ∨ ∃ p, (s.processors p).held = some e

def Server.finished (s : Server P) (o : CallId) : Prop := o.seq < (s.handlers o.handler).seq

/-- What the handshake promises in one state. -/
structure Sound (s : Server P) : Prop where
  own : ∀ x ∈ s.returned, x ∈ s.processed
  once : ∀ x ∈ s.returned, s.results.count x.1.owner = 1
  quiet : ∀ e, s.pointersHeld e → ¬ s.finished e.request.owner

/-- A processing thread is between `*txn_done = 1` and `*txn_rcP = txn_rc` for
the call that handler `h` is in. -/
def Between (s : Server P) (h : ℕ) : Prop :=
  ∃ p e rc, s.processors p = .storeRc e rc ∧ e.request.owner = s.callId h

/-- No handler reads `txn_rc` between the two stores. -/
def Ordered (s : Server P) (es : List (Event P)) : Prop :=
  ∀ pre h, pre ++ [.handler h] <+: es → ((run s pre).handlers h).pc = .reading →
    ¬ Between (run s pre) h

/-- What holds besides `Inv` as long as no handler reads too early. -/
structure Prompt (s : Server P) : Prop where
  current : ∀ p e rc, s.processors p = .storeRc e rc →
    e.request.owner = s.callId e.request.owner.handler
  value : ∀ h, s.waits h → s.callId h ∈ s.stored → (s.request h, s.memory (.txnRc h)) ∈ s.processed
  own : ∀ x ∈ s.returned, x ∈ s.processed

theorem prompt_initial (n : ℕ) (packet : P) (memory : Local → ℤ) :
    Prompt (initial n packet memory) where
  current p e rc h := by
    by_cases hp : p < n <;> simp [initial, hp] at h
  value := by simp [initial, Server.waits]
  own := by simp [initial]

section Steps
variable {s t : Server P}

theorem Prompt.sound (hp : Prompt s) (hi : Inv s) : Sound s where
  own := hp.own
  once x hx := List.count_eq_one_of_mem hi.resultsNodup (List.mem_map.mpr ⟨x, hp.own x hx, rfl⟩)
  quiet e he := by
    have hcur : e.request.owner = s.callId e.request.owner.handler := by
      rcases he with he | ⟨p, he⟩
      · exact (hi.queued e he).1.owner_eq
      · cases hpc : s.processors p with
        | running e' => rw [hpc] at he; cases he; exact (hi.running p _ hpc).1.owner_eq
        | storeDone e' rc => rw [hpc] at he; cases he; exact (hi.storeDone p _ rc hpc).1.owner_eq
        | storeRc e' rc => rw [hpc] at he; cases he; exact hp.current p _ rc hpc
        | _ => rw [hpc] at he; cases he
    have hseq := congrArg CallId.seq hcur
    simp only [Server.callId] at hseq
    simp only [Server.finished, hseq, lt_irrefl, not_false_iff]

/-- A call that is not yet waiting has no result. -/
theorem Inv.not_stored (hi : Inv s) {h : ℕ} (hw : ¬ s.waits h) : s.callId h ∉ s.stored := by
  intro hs
  rcases hi.resultsPast _ (hi.storedRun _ hs) with hp | ⟨-, hw'⟩
  · exact lt_irrefl _ hp
  · exact hw hw'

theorem Prompt.congr (hp : Prompt s) (hseq : ∀ k, t.callId k = s.callId k)
    (hwaits : ∀ k, t.waits k → s.callId k ∈ s.stored →
      s.waits k ∧ t.request k = s.request k ∧ t.memory (.txnRc k) = s.memory (.txnRc k))
    (hstored : t.stored = s.stored) (hprocessed : ∀ x ∈ s.processed, x ∈ t.processed)
    (hreturned : t.returned = s.returned)
    (hprocessors : ∀ p e rc, t.processors p = .storeRc e rc → s.processors p = .storeRc e rc ∨
      Awaited s e) :
    Prompt t where
  current p e rc h := by
    rw [hseq]
    rcases hprocessors p e rc h with h | h
    · exact hp.current p e rc h
    · exact h.owner_eq
  value k hw hs := by
    rw [hseq, hstored] at hs
    obtain ⟨hw', hr, hm⟩ := hwaits k hw hs
    rw [hr, hm]
    exact hprocessed _ (hp.value k hw' hs)
  own x hx := hprocessed x (hp.own x (hreturned ▸ hx))

theorem Prompt.moved (hp : Prompt s) (hi : Inv s) {h : ℕ} (hd : Handler P) {m : Local → ℤ}
    (hm : FrameOf s h m) (hseq : hd.seq = (s.handlers h).seq)
    (hwaits : s.waits h → hd.packet = (s.handlers h).packet ∧ m (.txnRc h) = s.memory (.txnRc h)) :
    Prompt (s.moved h hd m) := by
  have hcall : ∀ k, (s.moved h hd m).callId k = s.callId k := by
    intro k
    by_cases hk : k = h
    · subst hk
      simp only [Server.callId, moved_handlers_self, hseq]
    · simp only [Server.callId, moved_handlers_ne hk]
  refine hp.congr hcall ?_ rfl (fun _ hx => hx) rfl (fun _ _ _ h => Or.inl h)
  intro k hw hs
  by_cases hk : k = h
  · subst hk
    by_cases hw' : s.waits k
    · obtain ⟨hpacket, hrc⟩ := hwaits hw'
      refine ⟨hw', ?_, hrc⟩
      simp only [Server.request, hcall, moved_handlers_self, hpacket]
    · exact absurd hs (hi.not_stored hw')
  · refine
      ⟨by simpa only [Server.waits, moved_handlers_ne hk] using hw, ?_,
        hm _ (by simp) (by simpa using hk)⟩
    simp only [Server.request, hcall, moved_handlers_ne hk]

theorem Prompt.withQueue (hp : Prompt s) (q : ChronosQueue Local (Request P)) :
    Prompt { s with userTxnQueue := q } :=
  ⟨hp.current, hp.value, hp.own⟩

theorem Prompt.leave (hp : Prompt s) (hi : Inv s) {h : ℕ} (hpc : (s.handlers h).pc = .reading)
    (hstored : ¬ Between s h) : Prompt (handlerStep s h) := by
  have hw : s.waits h := Or.inr hpc
  have hmem : s.callId h ∈ s.stored := (hi.woken h hw (hi.reading h hpc)).resolve_right hstored
  have hvalue := hp.value h hw hmem
  simp only [handlerStep, hpc]
  refine ⟨?_, ?_, ?_⟩
  · intro p e rc he
    have hcur := hp.current p e rc he
    have hne : e.request.owner.handler ≠ h := by
      rintro rfl
      exact hstored ⟨p, e, rc, he, hcur⟩
    simpa only [Server.callId, Function.update_of_ne hne] using hcur
  · intro k hk hs
    have hne : k ≠ h := by
      rintro rfl
      simp [Server.waits] at hk
    simp only [Server.callId, Server.request, Server.waits, Function.update_of_ne hne] at hk hs ⊢
    exact hp.value k hk hs
  · intro x hx
    rcases List.mem_append.mp hx with hx | hx
    · exact hp.own x hx
    · rw [List.mem_singleton.mp hx]
      exact hvalue

theorem handlerStep_prompt (hp : Prompt s) (hi : Inv s) (h : ℕ)
    (hord : (s.handlers h).pc = .reading → ¬ Between s h) : Prompt (handlerStep s h) := by
  have hmove : ∀ pc, Prompt (s.handlerAt h pc) := fun pc =>
    hp.moved hi { s.handlers h with pc := pc } (m := s.memory) (fun _ _ _ => rfl) rfl
      (fun _ => ⟨rfl, rfl⟩)
  cases hpc : (s.handlers h).pc with
  | outside => simpa only [handlerStep, hpc] using hp
  | clearDone =>
    simp only [handlerStep, hpc]
    refine hp.moved hi { s.handlers h with pc := .clearRc }
      (m := Function.update s.memory (.txnDone h) 0) ?_ rfl (by simp [Server.waits, hpc])
    intro l hl _
    exact Function.update_of_ne hl _ _
  | clearRc =>
    simp only [handlerStep, hpc]
    refine hp.moved hi { s.handlers h with pc := .enqueuing }
      (m := Function.update s.memory (.txnRc h) 0) ?_ rfl (by simp [Server.waits, hpc])
    intro l _ hl
    exact Function.update_of_ne hl _ _
  | enqueuing =>
    simp only [handlerStep, hpc]
    split
    · exact hmove _
    · exact hp
    · exact (hmove _).withQueue _
  | enqueueWaiting =>
    simp only [handlerStep, hpc]
    split
    · exact hmove _
    · split
      · exact hp
      · exact hp
      · exact (hmove _).withQueue _
  | polling =>
    simp only [handlerStep, hpc]
    split
    · exact hp
    · exact hmove _
  | reading => exact hp.leave hi hpc (hord hpc)

/-- A processing thread moves on; if it comes to its second store, its entry was awaited. -/
theorem Prompt.processorAt (hp : Prompt s) {p : ℕ} {pc : ProcessorPc P}
    (hpc : ∀ e rc, pc = .storeRc e rc → Awaited s e) : Prompt (s.processorAt p pc) := by
  refine hp.congr (fun _ => rfl) (fun _ hw _ => ⟨hw, rfl, rfl⟩) rfl (fun _ hx => hx) rfl ?_
  intro k e rc hk
  by_cases hkp : k = p
  · subst hkp
    exact Or.inr (hpc e rc (processorAt_self.symm.trans hk))
  · exact Or.inl ((processorAt_ne hkp).symm.trans hk)

/-- `*txn_rcP = txn_rc`. -/
theorem Prompt.rcStored (hp : Prompt s) (hi : Inv s) {p : ℕ} {e : Entry P} {rc : ℤ}
    (hold : s.processors p = .storeRc e rc) :
    Prompt { (s.store (.txnRc e.request.owner.handler) rc).processorAt p .loopTest with
      stored := s.stored ++ [e.request.owner] } := by
  have hl := hi.storeRc p e rc hold
  have hcur := hp.current p e rc hold
  obtain ⟨-, -, hrequest⟩ := hl.current hcur
  refine ⟨?_, ?_, hp.own⟩
  · intro k e' rc' hk
    exact hp.current k e' rc' (processorAt_back (s := s.store _ rc) hk (by simp)).2
  · intro k hw hs
    change s.waits k at hw
    change s.callId k ∈ s.stored ++ [e.request.owner] at hs
    change (s.request k, Function.update s.memory (.txnRc e.request.owner.handler) rc (.txnRc k)) ∈
      s.processed
    by_cases hk : k = e.request.owner.handler
    · subst hk
      rw [Function.update_self, ← hrequest]
      exact hl.result
    · rw [Function.update_of_ne (by simpa using hk)]
      refine hp.value k hw ((List.mem_append.mp hs).resolve_right fun h => hk ?_)
      exact congrArg CallId.handler (List.mem_singleton.mp h)

theorem processorStep_prompt (hp : Prompt s) (hi : Inv s) (p : ℕ) (txnRc : ℤ) :
    Prompt (processorStep s p txnRc) := by
  cases hpc : s.processors p with
  | loopTest =>
    simp only [processorStep, hpc]
    split <;> exact hp.processorAt (by simp)
  | occupiedTest =>
    simp only [processorStep, hpc]
    split <;> exact hp.processorAt (by simp)
  | occupiedTestAgain =>
    simp only [processorStep, hpc]
    split <;> exact hp.processorAt (by simp)
  | dequeuing =>
    simp only [processorStep, hpc]
    split
    · exact hp.processorAt (by simp)
    · exact hp.processorAt (by simp)
    · exact (hp.processorAt (by simp)).withQueue _
  | dequeueWaiting =>
    simp only [processorStep, hpc]
    split
    · exact hp.processorAt (by simp)
    · split
      · exact hp
      · exact hp.processorAt (by simp)
      · exact (hp.processorAt (by simp)).withQueue _
  | running e =>
    simp only [processorStep, hpc]
    have h : Prompt (s.processorAt p (.storeDone e txnRc)) := hp.processorAt (by simp)
    exact ⟨h.current, fun k hw hs => List.mem_append_left _ (h.value k hw hs),
      fun x hx => List.mem_append_left _ (h.own x hx)⟩
  | storeDone e rc =>
    have ha := (hi.storeDone p e rc hpc).1
    simp only [processorStep, hpc, ha.donePtr]
    refine hp.congr (fun _ => rfl) (fun _ hw _ => ⟨hw, rfl, ?_⟩) rfl (fun _ hx => hx) rfl ?_
    · simp [Server.store, Server.processorAt]
    · intro k e' rc' hk
      by_cases hkp : k = p
      · subst hkp
        obtain ⟨rfl, -⟩ := ProcessorPc.storeRc.inj (processorAt_self.symm.trans hk)
        exact Or.inr ha
      · exact Or.inl ((processorAt_ne (s := s.store _ 1) hkp).symm.trans hk)
  | storeRc e rc =>
    simp only [processorStep, hpc, (hi.storeRc p e rc hpc).rcPtr]
    exact hp.rcStored hi hpc
  | exited => simpa only [processorStep, hpc] using hp
  | crashed => simpa only [processorStep, hpc] using hp

theorem step_prompt (hp : Prompt s) (hi : Inv s) (ev : Event P)
    (hord : ∀ h, ev = .handler h → (s.handlers h).pc = .reading → ¬ Between s h) :
    Prompt (step s ev) := by
  cases ev with
  | dispatch h packet =>
    simp only [step]
    split
    · rename_i hpc
      exact hp.moved hi { s.handlers h with pc := .clearDone, packet := packet } (m := s.memory)
        (fun _ _ _ => rfl) rfl (by simp [Server.waits, hpc])
    · exact hp
  | handler h => exact handlerStep_prompt hp hi h (hord h rfl)
  | processor p txnRc => exact processorStep_prompt hp hi p txnRc
  | sigint => exact ⟨hp.current, hp.value, hp.own⟩

theorem run_append (s : Server P) (es es' : List (Event P)) :
    run s (es ++ es') = run (run s es) es' :=
  List.foldl_append

theorem run_prompt (hp : Prompt s) (hi : Inv s) {es : List (Event P)} (hord : Ordered s es)
    (pre : List (Event P)) (hpre : pre <+: es) : Prompt (run s pre) := by
  induction pre using List.reverseRecOn with
  | nil => exact hp
  | append_singleton pre ev ih =>
    rw [run_append]
    refine step_prompt (ih ((List.prefix_append _ _).trans hpre)) (run_inv hi pre) ev ?_
    rintro h rfl
    exact hord pre h hpre

theorem handlerStep_dangling {h : ℕ} (hpc : (s.handlers h).pc = .reading) (hb : Between s h) :
    ¬ Sound (handlerStep s h) := by
  obtain ⟨p, e, rc, hp, ho⟩ := hb
  intro hs
  refine hs.quiet e (Or.inr ⟨p, ?_⟩) ?_
  · simp [handlerStep, hpc, hp, ProcessorPc.held]
  · simp [handlerStep, hpc, Server.finished, ho, Server.callId]

end Steps

/-- The handshake keeps its promise throughout a run exactly if no handler reads
`txn_rc` while its processing thread is between `*txn_done = 1` and `*txn_rcP = txn_rc`. -/
theorem handshake_sound_iff (numServerThreads : ℕ) (packet : P) (memory : Local → ℤ)
    (es : List (Event P)) :
    (∀ pre, pre <+: es → Sound (run (initial numServerThreads packet memory) pre)) ↔
      Ordered (initial numServerThreads packet memory) es := by
  constructor
  · intro hs pre h hpre hpc hb
    have hsound := hs _ hpre
    rw [run_append] at hsound
    exact handlerStep_dangling hpc hb hsound
  · intro hord pre hpre
    exact (run_prompt (prompt_initial _ _ _) (inv_initial _ _ _) hord pre hpre).sound
      (run_inv (inv_initial _ _ _) pre)

/-- One handler, one processing thread: the benchmark function returns 1, and
`dispatchTableFn` returns 0 and leaves its frame to a late store. -/
theorem handshake_early_return :
    let s := run (initial 1 0 fun _ => 0)
      [.dispatch 0 7, .handler 0, .handler 0, .handler 0, .processor 0 0, .processor 0 0,
        .processor 0 0, .processor 0 0, .processor 0 1, .processor 0 0, .handler 0, .handler 0]
    s.returned = [(⟨⟨0, 0⟩, 7⟩, 0)] ∧ s.processed = [(⟨⟨0, 0⟩, 7⟩, 1)] ∧ ¬ Sound s := by
  intro s
  have hreturned : s.returned = [(⟨⟨0, 0⟩, 7⟩, 0)] := by decide +kernel
  have hprocessed : s.processed = [(⟨⟨0, 0⟩, 7⟩, 1)] := by decide +kernel
  refine ⟨hreturned, hprocessed, fun hs => ?_⟩
  have hmem := hs.own (⟨⟨0, 0⟩, 7⟩, 0) (by rw [hreturned]; exact List.mem_singleton_self _)
  rw [hprocessed] at hmem
  simp at hmem

end Chronos.Handshake
