import Chronos.Server.TwoQueues

/-! # No refresh is lost or run twice

Each refresh that `sysTxnQueue` has accepted is in one place: in the queue, with one
processing thread, or run. The queue hands them out in the order in which it took them.
-/
namespace Chronos.TwoQueues
open ReadyQueue Foundation
variable {P : Type}

section FilterMap
variable {α : Type} {f : ℕ → Option α} {n p : ℕ}

/-- One more position below `n` has a value. -/
theorem filterMap_range_some (hp : p < n) (hf : f p = none) (a : α) :
    ((List.range n).filterMap (Function.update f p (some a))).Perm
    (a :: (List.range n).filterMap f) := by
  have hperm : (List.range n).Perm (p :: (List.range n).erase p) :=
    List.perm_cons_erase (List.mem_range.mpr hp)
  have hrest : ((List.range n).erase p).filterMap (Function.update f p (some a)) =
      ((List.range n).erase p).filterMap f := by
    apply List.filterMap_congr
    intro k hk
    have hne : k ≠ p := ((List.nodup_range.mem_erase_iff).mp hk).1
    rw [Function.update_of_ne hne]
  have hnew := hperm.filterMap (Function.update f p (some a))
  have hold := hperm.filterMap f
  rw [List.filterMap_cons_some (Function.update_self p (some a) f), hrest] at hnew
  rw [List.filterMap_cons_none hf] at hold
  exact hnew.trans (hold.symm.cons a)

theorem filterMap_range_none (hp : p < n) {a : α} (hf : f p = some a) :
    ((List.range n).filterMap f).Perm
    (a :: (List.range n).filterMap (Function.update f p none)) := by
  have h :=
    filterMap_range_some (f := Function.update f p none) hp (Function.update_self p none f) a
  rwa [Function.update_idem, ← hf, Function.update_eq_self] at h

end FilterMap

def RefresherPc.held : RefresherPc P → Option (Refresh P)
  | .running entry => some entry.request
  | _ => none

/-- The refreshes that the first `n` processing threads are running. -/
def Server.inProgress (s : Server P) (n : ℕ) : List (Refresh P) :=
  (List.range n).filterMap fun p => (s.refreshers p).held

/-- The state of the system side after a run with `n` processing threads. -/
structure Conserved (n : ℕ) (s : Server P) : Prop where
  indices : s.sysTxnQueue.IndicesValid
  fifo : s.enqueued = s.taken ++ s.sysTxnQueue.contents.map (·.request)
  balance : s.taken.Perm (s.refreshed.map (·.1) ++ s.inProgress n)
  nodup : s.enqueued.Nodup
  past : ∀ r ∈ s.enqueued, r.seq < (s.updaters r.updater).seq
  aligned : ∀ p, s.refreshers p = .past ∨ s.userSide.processors p = .occupiedTest
  outside : ∀ p, n ≤ p → s.refreshers p = .past ∧ s.userSide.processors p = .exited
  uncrashed : ∀ p, s.refreshers p ≠ .crashed

theorem conserved_initial (n : ℕ) (packet : P) (memory : Handshake.Local → ℤ) :
    Conserved n (initial n packet memory) where
  indices := (fifo_zeroed _).indices
  fifo := rfl
  balance := by simp [initial, Server.inProgress, RefresherPc.held]
  nodup := List.nodup_nil
  past := by simp [initial]
  aligned _ := Or.inl rfl
  outside p hp := ⟨rfl, by simp [initial, Handshake.initial, hp]⟩
  uncrashed _ := by simp [initial]

section Steps
variable {n : ℕ} {s : Server P}

@[simp] theorem refresherAt_self (p : ℕ) (pc : RefresherPc P) :
    (s.refresherAt p pc).refreshers p = pc :=
  Function.update_self _ _ _

theorem refresherAt_ne {p k : ℕ} (pc : RefresherPc P) (hk : k ≠ p) :
    (s.refresherAt p pc).refreshers k = s.refreshers k := Function.update_of_ne hk _ _

theorem held_update (f : ℕ → RefresherPc P) (p : ℕ) (pc : RefresherPc P) :
    (fun k => (Function.update f p pc k).held) = Function.update
    (fun k => (f k).held) p pc.held := by
  funext k
  by_cases hk : k = p
  · subst hk
    simp
  · simp [hk]

theorem inProgress_refresherAt {p : ℕ} {pc : RefresherPc P}
    (hpc : pc.held = (s.refreshers p).held) :
    (s.refresherAt p pc).inProgress n = s.inProgress n := by
  simp only [Server.inProgress, Server.refresherAt, held_update, hpc]
  rw [Function.update_eq_self p fun k => (s.refreshers k).held]

theorem Conserved.lt (hc : Conserved n s) {p : ℕ} (hp : s.refreshers p ≠ .past) : p < n := by
  by_contra hle
  exact hp (hc.outside p (not_lt.mp hle)).1

theorem Conserved.refresherAt (hc : Conserved n s) {p : ℕ} {pc : RefresherPc P}
    (hp : s.refreshers p ≠ .past) (hold : (s.refreshers p).held = none) (hpc : pc.held = none)
    (hcrash : pc ≠ .crashed) : Conserved n (s.refresherAt p pc) where
  indices := hc.indices
  fifo := hc.fifo
  balance := by
    rw [inProgress_refresherAt (hpc.trans hold.symm)]
    exact hc.balance
  nodup := hc.nodup
  past := hc.past
  aligned k := by
    by_cases hk : k = p
    · subst hk
      exact Or.inr ((hc.aligned k).resolve_left hp)
    · rw [refresherAt_ne pc hk]
      exact hc.aligned k
  outside k hk := by
    have hne : k ≠ p := by
      have := hc.lt hp
      omega
    rw [refresherAt_ne pc hne]
    exact hc.outside k hk
  uncrashed k := by
    by_cases hk : k = p
    · subst hk
      rwa [refresherAt_self]
    · rw [refresherAt_ne pc hk]
      exact hc.uncrashed k

theorem Conserved.dequeueRefresh (hc : Conserved n s) {p : ℕ} (hp : s.refreshers p ≠ .past)
    (hold : (s.refreshers p).held = none) : Conserved n (dequeueRefresh s p) := by
  unfold TwoQueues.dequeueRefresh
  rcases hd : chronosDequeueTransaction s.sysTxnQueue with _ | _ | ⟨q, entry⟩
  · exact hc.refresherAt hp hold rfl (by simp)
  · rcases dequeue_cases s.sysTxnQueue hc.indices with ⟨-, hd'⟩ | ⟨_, -, hd'⟩ <;>
      rw [hd'] at hd <;> cases hd
  · dsimp only
    obtain ⟨hvalid, hcontents, -⟩ := dequeue_contents hc.indices hd
    have hmoved : ∀ k, k ≠ p → (s.refresherAt p (.running entry)).refreshers k = s.refreshers k :=
      fun k hk => refresherAt_ne _ hk
    refine ⟨hvalid, ?_, ?_, hc.nodup, hc.past, ?_, ?_, ?_⟩
    · have hfifo := hc.fifo
      rw [hcontents, List.map_cons, ← List.singleton_append, ← List.append_assoc] at hfifo
      exact hfifo
    · have hmore : (s.refresherAt p (.running entry)).inProgress n |>.Perm
        (entry.request :: s.inProgress n) := by
        simp only [Server.inProgress, Server.refresherAt, held_update]
        exact filterMap_range_some (hc.lt hp) hold entry.request
      have hcons : (s.taken ++ [entry.request]).Perm (entry.request :: s.taken) :=
        List.perm_append_singleton _ _
      have hmid : (entry.request :: (s.refreshed.map (·.1) ++ s.inProgress n)).Perm
          (s.refreshed.map (·.1) ++ entry.request :: s.inProgress n) := List.perm_middle.symm
      exact hcons.trans ((hc.balance.cons _).trans (hmid.trans (hmore.symm.append_left _)))
    · intro k
      by_cases hk : k = p
      · subst hk
        exact Or.inr ((hc.aligned k).resolve_left hp)
      · exact (hc.aligned k).imp_left fun h => (hmoved k hk).trans h
    · intro k hk
      have hne : k ≠ p := by
        have := hc.lt hp
        omega
      exact ⟨(hmoved k hne).trans (hc.outside k hk).1, (hc.outside k hk).2⟩
    · intro k
      by_cases hk : k = p
      · subst hk
        simp [Server.refresherAt]
      · exact fun h => hc.uncrashed k ((hmoved k hk).symm.trans h)

theorem Conserved.refreshed (hc : Conserved n s) {p : ℕ} {entry : RefreshEntry P}
    (hp : s.refreshers p = .running entry) (rc : ℤ) :
    Conserved n { s.refresherAt p .past with refreshed :=
      s.refreshed ++ [(entry.request, rc)] } := by
  have hmoved : ∀ k, k ≠ p → (s.refresherAt p .past).refreshers k = s.refreshers k :=
    fun k hk => refresherAt_ne _ hk
  have hlt : p < n := hc.lt (by simp [hp])
  refine ⟨hc.indices, hc.fifo, ?_, hc.nodup, hc.past, ?_, ?_, ?_⟩
  · have hless : (s.inProgress n).Perm (entry.request :: (s.refresherAt p .past).inProgress n) := by
      simp only [Server.inProgress, Server.refresherAt, held_update]
      exact filterMap_range_none hlt (f := fun k => (s.refreshers k).held)
        (by simp [hp, RefresherPc.held])
    have hbalance := hc.balance.trans (hless.append_left _)
    rw [List.map_append, List.map_singleton, List.append_assoc]
    exact hbalance
  · intro k
    by_cases hk : k = p
    · subst hk
      exact Or.inl (refresherAt_self _ _)
    · exact (hc.aligned k).imp_left fun h => (hmoved k hk).trans h
  · intro k hk
    have hne : k ≠ p := by omega
    exact ⟨(hmoved k hne).trans (hc.outside k hk).1, (hc.outside k hk).2⟩
  · intro k
    by_cases hk : k = p
    · subst hk
      simp [Server.refresherAt]
    · exact fun h => hc.uncrashed k ((hmoved k hk).symm.trans h)

theorem Conserved.updaterMoved (hc : Conserved n s) {u : ℕ} {d : Updater P}
    (hseq : (s.updaters u).seq ≤ d.seq) :
    Conserved n { s with updaters := Function.update s.updaters u d } where
  indices := hc.indices
  fifo := hc.fifo
  balance := hc.balance
  nodup := hc.nodup
  past r hr := by
    have hlt := hc.past r hr
    by_cases hu : r.updater = u
    · simp only [hu, Function.update_self] at hlt ⊢
      omega
    · simpa only [Function.update_of_ne hu] using hlt
  aligned := hc.aligned
  outside := hc.outside
  uncrashed := hc.uncrashed

theorem Conserved.enqueueRefresh (hc : Conserved n s) (u : ℕ) :
    Conserved n (enqueueRefresh s u) := by
  unfold TwoQueues.enqueueRefresh
  rcases he : chronosEnqueueTransaction s.sysTxnQueue (s.entry u) with _ | _ | ⟨q, ticket⟩
  · exact hc.updaterMoved le_rfl
  · exact hc
  · dsimp only
    obtain ⟨hvalid, hcontents, -, -⟩ := enqueue_contents hc.indices he
    have hdone := hc.updaterMoved (u := u)
      (d := { s.updaters u with pc := .outside, seq := (s.updaters u).seq + 1 }) (Nat.le_succ _)
    have hnew : s.refresh u ∉ s.enqueued := fun hr => lt_irrefl _ (hc.past _ hr)
    refine ⟨hvalid, ?_, hc.balance, ?_, ?_, hc.aligned, hc.outside, hc.uncrashed⟩
    · have hfifo := congrArg (· ++ [s.refresh u]) hc.fifo
      simp only [List.append_assoc] at hfifo
      rw [hcontents, List.map_append]
      exact hfifo
    · refine List.nodup_append.mpr ⟨hc.nodup, List.nodup_singleton _, ?_⟩
      rintro r hr r' hr' rfl
      exact hnew (List.mem_singleton.mp hr' ▸ hr)
    · intro r hr
      rcases List.mem_append.mp hr with hr | hr
      · exact hdone.past r hr
      · rw [List.mem_singleton.mp hr]
        simp [Server.refresh, Server.updaterDone]

theorem Conserved.updaterStep (hc : Conserved n s) (u : ℕ) : Conserved n (updaterStep s u) := by
  unfold TwoQueues.updaterStep
  split
  · exact hc
  · exact hc.enqueueRefresh u
  · split
    · exact hc.updaterMoved (Nat.le_succ _)
    · exact hc.enqueueRefresh u

/-- A step of the user side that moves no processing thread out of its place. -/
theorem Conserved.userStep (hc : Conserved n s) (ev : Handshake.Event P)
    (hprocs : ∀ p, s.refreshers p = .past ∨
      (Handshake.step s.userSide ev).processors p = s.userSide.processors p)
    (hexited : ∀ p, s.userSide.processors p = .exited →
      (Handshake.step s.userSide ev).processors p = .exited) :
    Conserved n (s.userStep ev) where
  indices := hc.indices
  fifo := hc.fifo
  balance := hc.balance
  nodup := hc.nodup
  past := hc.past
  aligned p := by
    rcases hc.aligned p with h | h
    · exact Or.inl h
    · exact (hprocs p).imp_right fun hsame => hsame.trans h
  outside p hp := ⟨(hc.outside p hp).1, hexited p (hc.outside p hp).2⟩
  uncrashed := hc.uncrashed

theorem step_processors_eq (t : Handshake.Server P) (ev : Handshake.Event P) (p : ℕ)
    (hev : ∀ rc, ev ≠ .processor p rc) : (Handshake.step t ev).processors p = t.processors p := by
  cases ev with
  | dispatch h packet =>
    simp only [Handshake.step]
    split <;> rfl
  | handler h => exact congrFun (Handshake.handlerStep_processors t h) p
  | processor k rc =>
    have hk : p ≠ k := fun h => hev rc (h ▸ rfl)
    exact Handshake.processorStep_processors_ne t hk rc
  | sigint => rfl

theorem step_exited {t : Handshake.Server P} {p : ℕ} (hp : t.processors p = .exited)
    (ev : Handshake.Event P) :
    (Handshake.step t ev).processors p = .exited := Handshake.run_exited hp [ev]

theorem step_loopTest {t : Handshake.Server P} {p : ℕ} (hp : t.processors p = .loopTest)
    (hdie : t.timeToDie = false) (rc : ℤ) :
    Handshake.step t (.processor p rc) = t.processorAt p .occupiedTest := by
  simp only [Handshake.step, Handshake.processorStep, hp, hdie, Bool.false_eq_true, if_false]

theorem Conserved.processorStep (hc : Conserved n s) (p : ℕ) (rc : ℤ) :
    Conserved n (processorStep s p rc) := by
  have huser : s.refreshers p = .past → Conserved n (s.userStep (.processor p rc)) := by
    intro hp
    refine hc.userStep _ (fun k => ?_) fun k hk => step_exited hk _
    by_cases hk : k = p
    · exact Or.inl (hk ▸ hp)
    · exact Or.inr (step_processors_eq _ _ _ (by simp [Ne.symm hk]))
  cases hp : s.refreshers p with
  | past =>
    simp only [TwoQueues.processorStep, hp]
    split
    · rename_i hloop
      split
      · exact huser hp
      · rename_i hdie
        have hstep := step_loopTest hloop (Bool.not_eq_true _ ▸ hdie) rc
        have hu := huser hp
        have hlt : p < n := by
          by_contra hle
          have hexited := (hc.outside p (not_lt.mp hle)).2
          rw [hloop] at hexited
          cases hexited
        have hin : ((s.userStep (.processor p rc)).refresherAt p .occupiedTest).inProgress n =
          s.inProgress n := by
          rw [inProgress_refresherAt]
          · rfl
          · rw [show (s.userStep (.processor p rc)).refreshers p = .past from hp]
            rfl
        refine ⟨hu.indices, hu.fifo, by rw [hin]; exact hc.balance, hu.nodup, hu.past, ?_, ?_, ?_⟩
        · intro k
          by_cases hk : k = p
          · subst hk
            exact Or.inr
              (by
                rw [refresherAt_userSide, userStep_userSide, hstep]
                simp [Handshake.Server.processorAt])
          · rw [refresherAt_ne _ hk]
            exact hu.aligned k
        · intro k hk
          rw [refresherAt_ne _ (by omega)]
          exact hu.outside k hk
        · intro k
          by_cases hk : k = p
          · subst hk
            simp
          · rw [refresherAt_ne _ hk]
            exact hu.uncrashed k
    · exact huser hp
  | occupiedTest =>
    simp only [TwoQueues.processorStep, hp]
    split <;> exact hc.refresherAt (by simp [hp]) (by simp [hp, RefresherPc.held]) rfl (by simp)
  | dequeuing =>
    simp only [TwoQueues.processorStep, hp]
    exact hc.dequeueRefresh (by simp [hp]) (by simp [hp, RefresherPc.held])
  | dequeueWaiting =>
    simp only [TwoQueues.processorStep, hp]
    split
    · exact hc.refresherAt (by simp [hp]) (by simp [hp, RefresherPc.held]) rfl (by simp)
    · exact hc.dequeueRefresh (by simp [hp]) (by simp [hp, RefresherPc.held])
  | running entry =>
    simp only [TwoQueues.processorStep, hp]
    exact hc.refreshed hp rc
  | crashed => exact absurd hp (hc.uncrashed p)

theorem Conserved.step (hc : Conserved n s) (ev : Event P) : Conserved n (step s ev) := by
  have huser : ∀ ev, (∀ p rc, ev ≠ .processor p rc) → Conserved n (s.userStep ev) := fun ev hev =>
    hc.userStep ev (fun p => Or.inr (step_processors_eq _ _ _ (hev p)))
      fun p hp => step_exited hp ev
  cases ev with
  | dispatch h packet => exact huser _ (by simp)
  | handler h => exact huser _ (by simp)
  | sigint => exact huser _ (by simp)
  | updater u => exact hc.updaterStep u
  | processor p rc => exact hc.processorStep p rc
  | refresh u packet =>
    simp only [TwoQueues.step]
    split
    · exact hc.updaterMoved le_rfl
    · exact hc

end Steps

theorem run_conserved (n : ℕ) (packet : P) (memory : Handshake.Local → ℤ) (es : List (Event P)) :
    Conserved n (run (initial n packet memory) es) :=
  foldl_history (P := fun _ => Conserved n) (conserved_initial n packet memory)
    (fun _ _ ev hc => hc.step ev) es

/-- Over every interleaving of handlers, update threads and processing threads, and whenever
`time_to_die` is set, the user side behaves as the server of `userTxnQueue` alone, and no refresh
is lost, run twice or taken out of turn. -/
theorem refreshes_run_once (numServerThreads : ℕ) (packet : P) (memory : Handshake.Local → ℤ)
    (es : List (Event P)) :
    let s := run (initial numServerThreads packet memory) es
    s.userSide = Handshake.run (Handshake.initial numServerThreads packet memory)
        (userEvents (initial numServerThreads packet memory) es) ∧
      s.enqueued = s.taken ++ s.sysTxnQueue.contents.map (·.request) ∧
      s.taken.Perm (s.refreshed.map (·.1) ++ s.inProgress numServerThreads) ∧ s.enqueued.Nodup := by
  intro s
  have hc := run_conserved numServerThreads packet memory es
  exact ⟨run_userSide _ es, hc.fifo, hc.balance, hc.nodup⟩

end Chronos.TwoQueues
