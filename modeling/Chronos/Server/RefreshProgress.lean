import Chronos.Foundation.LeadsTo
import Chronos.Server.RefreshSchedule

/-! # Every data item is refreshed again and again

Along an infinite schedule in which the clock advances and an update thread keeps making steps, each
pass of the thread ends, and a pass that begins when a data item is due comes to it.
-/
namespace Chronos.RefreshSchedule
open Foundation Packet Sampling UpdateThreads
variable {n m : ℕ} {a : Settings n} {u : ℤ} {ticks : ℕ} {clock : ℤ} {s : System n m} {t : ℕ}
  {k : Fin n} {now : ℤ}

/-! ## Steps of other threads -/

theorem refreshStep_threads_ne {i txnEnqueue : ℤ} {phase : Phase} {t' : ℕ} (hne : t' ≠ t) :
    (refreshStep s t i txnEnqueue now phase k).threads t' = s.threads t' := by
  cases phase <;> exact Function.update_of_ne hne _ _

theorem withItem_cases {P : System n m → Prop} {f : Fin n → System n m}
    (hnone : P (s.threadAt t .faulted)) (hsome : ∀ k, P (f k)) (item : Option (Fin n)) :
    P (s.withItem t f item) := by
  cases item with
  | none => exact hnone
  | some k => exact hsome k

/-- What holds after every kind of step of a thread. -/
theorem threadStep_cases {P : System n m → Prop}
    (hstart : P { s with threads := Function.update s.threads t ⟨.testing 0, now⟩ }) (hself : P s)
    (hmove : ∀ pc, P (s.threadAt t pc)) (hrefresh : ∀ i txnEnqueue phase k,
      P (refreshStep s t i txnEnqueue now phase k)) :
    P (threadStep s t now) := by
  cases hpc : (s.threads t).pc with
  | starting => rwa [threadStep_starting hpc]
  | testing i =>
    rcases lt_or_ge i 30 with hi | hi
    · rw [threadStep_testing hpc hi rfl]
      refine withItem_cases (hmove _) (fun k => ?_) _
      split
      · exact hmove _
      · exact hmove _
    · rw [threadStep_passed hpc hi]
      exact hmove _
  | refreshing i txnEnqueue phase =>
    rw [threadStep_refreshing hpc rfl]
    exact withItem_cases (hmove _) (hrefresh i txnEnqueue phase) _
  | sleeping =>
    rw [threadStep_sleeping hpc]
    exact hmove _
  | exited => rwa [threadStep_over (.inl hpc)]
  | faulted => rwa [threadStep_over (.inr hpc)]

theorem threadStep_threads_ne {t' : ℕ} (hne : t' ≠ t) :
    (threadStep s t now).threads t' = s.threads t' :=
  threadStep_cases (P := fun s' => s'.threads t' = s.threads t') (Function.update_of_ne hne _ _) rfl
    (fun _ => Function.update_of_ne hne _ _) fun _ _ _ _ => refreshStep_threads_ne hne

theorem step_threads_eq {ev : Event n m} (hev : ∀ now, ev ≠ .thread t now) :
    (step u s ev).threads t = s.threads t := by
  cases ev with
  | thread t' now =>
    have hne : t ≠ t' := fun heq => hev now (by rw [heq])
    rw [step]
    split
    · exact threadStep_threads_ne hne
    · rfl
  | server ev => cases ev <;> rfl
  | sigint => rfl

/-! ## What a step does to the refreshes of one data item -/

def RefreshedOnce (s s' : System n m) (k : Fin n) : Prop :=
  (s'.firings k = s.firings k ∧ s'.due k = s.due k) ∨ ∃ f, s'.firings k = f :: s.firings k

theorem refreshStep_refreshedOnce {i txnEnqueue : ℤ} {phase : Phase} (k' : Fin n) :
    RefreshedOnce s (refreshStep s t i txnEnqueue now phase k') k := by
  cases phase with
  | enqueuing => exact .inl ⟨rfl, bumped_nextUpdateTimeMS s.context k' k⟩
  | scheduling slot => exact .inl ⟨rfl, rfl⟩
  | storing slot next =>
    by_cases hk : k = k'
    · exact .inr ⟨_, by rw [storing_firings, if_pos hk]⟩
    · exact .inl ⟨by rw [storing_firings, if_neg hk], by rw [storing_due, if_neg hk]⟩

theorem threadStep_refreshedOnce : RefreshedOnce s (threadStep s t now) k :=
  threadStep_cases (P := fun s' => RefreshedOnce s s' k) (.inl ⟨rfl, rfl⟩) (.inl ⟨rfl, rfl⟩)
    (fun _ => .inl ⟨rfl, rfl⟩)
    fun _ _ _ k' => refreshStep_refreshedOnce k'

theorem step_refreshedOnce (u : ℤ) (s : System n m) (ev : Event n m) (k : Fin n) :
    RefreshedOnce s (step u s ev) k := by
  cases ev with
  | thread t now =>
    rw [step]
    split
    · exact threadStep_refreshedOnce
    · exact .inl ⟨rfl, rfl⟩
  | server ev =>
    cases ev with
    | refresh i next => exact .inl ⟨rfl, rfl⟩
    | viewStock symbolIds =>
      exact .inl ⟨rfl, dispatchTableFn_nextUpdateTimeMS s.context symbolIds k⟩
    | transactionDone =>
      exact .inl ⟨rfl, server_nextUpdateTimeMS s.context (fun _ _ h => by cases h) k⟩
    | account threadNum txnRc txnDurationMs => exact .inl ⟨rfl, rfl⟩
    | occupied user sys => exact .inl ⟨rfl, rfl⟩
    | sampling => exact .inl ⟨rfl, rfl⟩
  | sigint => exact .inl ⟨rfl, rfl⟩

/-! ## Passes -/

def Pc.left : Pc → ℕ
  | .testing i => (4 * (30 - i) + 2).toNat
  | .refreshing i _ .enqueuing => (4 * (30 - i) + 1).toNat
  | .refreshing i _ (.scheduling _) => (4 * (30 - i)).toNat
  | .refreshing i _ (.storing _ _) => (4 * (30 - i) - 1).toNat
  | .sleeping => 1
  | _ => 0

/-- The server was not told to stop, and no thread has exited. -/
structure Alive (s : System n m) : Prop where
  running : s.timeToDie = false
  threads : ∀ t, (s.threads t).pc ≠ .exited

theorem Alive.threadAt {pc : Pc} (h : Alive s) (hpc : pc ≠ .exited) : Alive (s.threadAt t pc) where
  running := h.running
  threads t' := by
    by_cases hsame : t' = t
    · rw [hsame, System.threadAt_self]
      exact hpc
    · rw [System.threadAt_ne s pc hsame]
      exact h.threads t'

theorem Alive.refreshStep {i txnEnqueue : ℤ} {phase : Phase} (h : Alive s) :
    Alive (refreshStep s t i txnEnqueue now phase k) := by
  cases phase with
  | enqueuing => exact Alive.threadAt ⟨h.running, h.threads⟩ nofun
  | scheduling slot => exact h.threadAt nofun
  | storing slot next => exact Alive.threadAt ⟨h.running, h.threads⟩ nofun

theorem Alive.threadStep (h : Alive s) : Alive (threadStep s t now) := by
  cases hpc : (s.threads t).pc with
  | starting =>
    rw [threadStep_starting hpc]
    refine ⟨h.running, fun t' => ?_⟩
    by_cases hsame : t' = t
    · simp [hsame]
    · simp only [Function.update_of_ne hsame]
      exact h.threads t'
  | testing i =>
    rcases lt_or_ge i 30 with hi | hi
    · rw [threadStep_testing hpc hi rfl]
      refine withItem_cases (h.threadAt nofun) (fun k => ?_) _
      split
      · exact h.threadAt nofun
      · exact h.threadAt nofun
    · rw [threadStep_passed hpc hi]
      exact h.threadAt nofun
  | refreshing i txnEnqueue phase =>
    rw [threadStep_refreshing hpc rfl]
    exact withItem_cases (h.threadAt nofun) (fun _ => h.refreshStep) _
  | sleeping =>
    rw [threadStep_sleeping hpc, h.running]
    exact h.threadAt nofun
  | exited => exact absurd hpc (h.threads t)
  | faulted => rwa [threadStep_over (.inr hpc)]

theorem Alive.step (h : Alive s) {ev : Event n m} (hev : ev ≠ .sigint) : Alive (step u s ev) := by
  cases ev with
  | thread t now =>
    rw [RefreshSchedule.step]
    split
    · exact h.threadStep
    · exact h
  | server ev => cases ev <;> exact ⟨h.running, h.threads⟩
  | sigint => exact absurd rfl hev

/-- The thread has not yet come to the data item, which was due when the pass began. -/
structure Nearing (s : System n m) (t : ℕ) (k : Fin n) : Prop where
  due : s.due k ≤ (s.threads t).currentTimeMs
  before : (t : ℤ) * 30 + (s.threads t).pc.passed ≤ k

theorem left_threadStep_lt (hn : (n : ℤ) < INT_BOUND) (hpartition : (n : ℤ) = 30 * u)
    (h : Good a u ticks clock s) (halive : Alive s) (ht : (t : ℤ) < u)
    (hpc : (s.threads t).pc ≠ .starting) (now : ℤ) :
    ((threadStep s t now).threads t).pc.left < (s.threads t).pc.left := by
  have hsteady := h.steady t ht
  obtain ⟨hlow, hhigh⟩ := hsteady.index
  cases hpc' : (s.threads t).pc with
  | starting => exact absurd hpc' hpc
  | testing i =>
    rw [hpc', Pc.passed] at hlow hhigh
    rcases lt_or_ge i 30 with hi | hi
    · obtain ⟨k, hitem, -⟩ := dataItem_eq_some hn hpartition ht ⟨hlow, hi⟩
      rw [threadStep_testing hpc' hi hitem, System.withItem]
      split
      · rw [System.threadAt_self, Pc.left, Pc.left]
        omega
      · rw [System.threadAt_self, Pc.left, Pc.left]
        omega
    · rw [threadStep_passed hpc' hi, System.threadAt_self, Pc.left, Pc.left]
      omega
  | refreshing i txnEnqueue phase =>
    have hi := (hsteady.busy i txnEnqueue phase hpc').1
    rw [hpc', Pc.passed] at hlow
    obtain ⟨k, hitem, -⟩ := dataItem_eq_some hn hpartition ht ⟨hlow, hi⟩
    rw [threadStep_refreshing hpc' hitem, System.withItem]
    cases phase with
    | enqueuing =>
      rw [refreshStep, System.threadAt_self, Pc.left, Pc.left]
      omega
    | scheduling slot =>
      rw [refreshStep, System.threadAt_self, Pc.left, Pc.left]
      omega
    | storing slot next =>
      rw [refreshStep, System.threadAt_self, Pc.left, Pc.left]
      omega
  | sleeping =>
    rw [threadStep_sleeping hpc', halive.running, System.threadAt_self]
    exact Nat.zero_lt_one
  | exited => exact absurd hpc' (halive.threads t)
  | faulted => exact absurd hpc' hsteady.unfaulted

theorem Nearing.threadAt {pc : Pc} (h : Nearing s t k) (hpassed : (t : ℤ) * 30 + pc.passed ≤ k) :
    Nearing (s.threadAt t pc) t k where
  due := h.due.trans_eq (by rw [System.threadAt_self])
  before := by rwa [System.threadAt_self]

theorem nearing_threadStep (hn : (n : ℤ) < INT_BOUND) (hpartition : (n : ℤ) = 30 * u)
    (h : Good a u ticks clock s) (ht : (t : ℤ) < u) (hk : (k : ℤ) < t * 30 + 30)
    (hnear : Nearing s t k) (now : ℤ) :
    (∃ f, (threadStep s t now).firings k = f :: s.firings k) ∨ Nearing
    (threadStep s t now) t k := by
  have hsteady := h.steady t ht
  have hlow := hsteady.index.1
  have hbefore := hnear.before
  cases hpc : (s.threads t).pc with
  | testing i =>
    rw [hpc, Pc.passed] at hlow hbefore
    have hi : i < 30 := by omega
    obtain ⟨k', hitem, hk'⟩ := dataItem_eq_some hn hpartition ht ⟨hlow, hi⟩
    rw [threadStep_testing hpc hi hitem, System.withItem]
    right
    split
    · exact hnear.threadAt hbefore
    · rename_i hearly
      have hne : k ≠ k' := by
        rintro rfl
        exact hearly hnear.due
      have hne' : (k : ℤ) ≠ k' := fun heq => hne (Fin.ext (Int.ofNat.inj heq))
      refine hnear.threadAt ?_
      rw [Pc.passed]
      omega
  | refreshing i txnEnqueue phase =>
    have hi := (hsteady.busy i txnEnqueue phase hpc).1
    rw [hpc, Pc.passed] at hlow hbefore
    obtain ⟨k', hitem, hk'⟩ := dataItem_eq_some hn hpartition ht ⟨hlow, hi⟩
    rw [threadStep_refreshing hpc hitem, System.withItem]
    cases phase with
    | enqueuing =>
      right
      have hbumped : Nearing { s with context := s.context.bumpUpdateFrequency k' } t k :=
        ⟨(bumped_nextUpdateTimeMS s.context k' k).trans_le hnear.due, hnear.before⟩
      exact hbumped.threadAt hbefore
    | scheduling slot => exact .inr (hnear.threadAt hbefore)
    | storing slot next =>
      by_cases hsame : k = k'
      · exact .inl ⟨_, by rw [storing_firings, if_pos hsame]⟩
      · have hne : (k : ℤ) ≠ k' := fun heq => hsame (Fin.ext (Int.ofNat.inj heq))
        have hthread : (refreshStep s t i txnEnqueue now (.storing slot next) k').threads t =
            ⟨.testing (i + 1), (s.threads t).currentTimeMs⟩ := System.threadAt_self _ _ _
        refine .inr ⟨?_, ?_⟩
        · rw [storing_due, if_neg hsame, hthread]
          exact hnear.due
        · rw [hthread, Pc.passed]
          omega
  | starting =>
    rw [hpc] at hbefore
    exact absurd (hbefore.trans_lt hk) (lt_irrefl _)
  | sleeping =>
    rw [hpc] at hbefore
    exact absurd (hbefore.trans_lt hk) (lt_irrefl _)
  | exited =>
    rw [hpc] at hbefore
    exact absurd (hbefore.trans_lt hk) (lt_irrefl _)
  | faulted => exact absurd hpc hsteady.unfaulted

/-! ## Along a schedule -/

/-- An infinite schedule before the server is told to stop, in which the clock advances beyond every
time and update thread `t` keeps making steps. -/
structure Ticking (a : Settings n) (t : ℕ) (ev : ℕ → Event n m) : Prop where
  noSigint : ∀ i, ev i ≠ .sigint
  clocked : ∀ i, Clocked a.systemStartMs ((List.range i).map ev)
  advances : ∀ time, ∃ i, ∀ j ≥ i, ∀ t now, ev j = .thread t now → time ≤ now
  runs : ∀ i, ∃ j ≥ i, ∃ now, ev j = .thread t now

section Schedule
variable {ev : ℕ → Event n m} {i : ℕ}

theorem runFor_eq_run (u : ℤ) (s : System n m) (ev : ℕ → Event n m) (i : ℕ) :
    runFor (step u) ev s i = run u s ((List.range i).map ev) := by
  induction i with
  | zero => rfl
  | succ i ih => rw [runFor, ih, List.range_succ, List.map_append, run, run, List.foldl_append]; rfl

theorem runFor_alive (hev : ∀ i, ev i ≠ .sigint) (i : ℕ) :
    Alive (runFor (step u) ev (initial a m) i) := by
  induction i with
  | zero => exact ⟨rfl, fun _ => nofun⟩
  | succ i ih => exact ih.step (hev i)

theorem runFor_good (hn : (n : ℤ) < INT_BOUND) (hpartition : (n : ℤ) = 30 * u)
    (hv : 0 < a.initialValidityIntervalMS) (hstart : 0 ≤ a.systemStartMs) (hev : Ticking a t ev)
    (i : ℕ) : ∃ ticks clock, Good a u ticks clock (runFor (step u) ev (initial a m) i) := by
  obtain ⟨ticks, h⟩ := (good_initial hv hstart).run hn hpartition hv hstart (hev.clocked i)
  rw [runFor_eq_run]
  exact ⟨ticks, _, h⟩

theorem runFor_thread (hev : ev i = .thread t now) (ht : (t : ℤ) < u) :
    runFor (step u) ev s (i + 1) = threadStep (runFor (step u) ev s i) t now := by
  rw [runFor, hev, step, if_pos ht]

theorem untouched {j : ℕ} (hij : i ≤ j) (hnever : ∀ j ≥ i,
    ¬ ((runFor (step u) ev s i).firings k).length < ((runFor (step u) ev s j).firings k).length) :
    (runFor (step u) ev s j).firings k = (runFor (step u) ev s i).firings k ∧
      (runFor (step u) ev s j).due k = (runFor (step u) ev s i).due k := by
  induction j, hij using Nat.le_induction with
  | base => exact ⟨rfl, rfl⟩
  | succ j hij ih =>
    rcases step_refreshedOnce u (runFor (step u) ev s j) (ev j) k with ⟨hfirings, hdue⟩ | ⟨f, hf⟩
    · exact ⟨hfirings.trans ih.1, hdue.trans ih.2⟩
    · refine absurd ?_ (hnever (j + 1) (Nat.le_succ_of_le hij))
      rw [runFor, hf, ih.1, List.length_cons]
      exact Nat.lt_succ_self _

/-- Sooner or later the thread begins its next pass. -/
theorem leadsTo_starting (hn : (n : ℤ) < INT_BOUND) (hpartition : (n : ℤ) = 30 * u)
    (hv : 0 < a.initialValidityIntervalMS) (hstart : 0 ≤ a.systemStartMs) (ht : (t : ℤ) < u)
    (hev : Ticking a t ev) (first : ℕ) :
    LeadsTo (fun j => first ≤ j)
      fun j => first ≤ j ∧ ((runFor (step u) ev (initial a m) j).threads t).pc = .starting := by
  refine LeadsTo.of_recurrent (fun j => ((runFor (step u) ev (initial a m) j).threads t).pc.left)
    hev.runs fun j hj => ?_
  by_cases hpc : ((runFor (step u) ev (initial a m) j).threads t).pc = .starting
  · exact .inl ⟨hj, hpc⟩
  · refine .inr (.inr ⟨Nat.le_succ_of_le hj, ?_⟩)
    by_cases hocc : ∃ now, ev j = .thread t now
    · obtain ⟨now, hnow⟩ := hocc
      obtain ⟨ticks, clock, hgood⟩ := runFor_good (u := u) hn hpartition hv hstart hev j
      have hlt := left_threadStep_lt hn hpartition hgood (runFor_alive hev.noSigint j) ht hpc now
      rw [runFor_thread hnow ht]
      exact ⟨hlt.le, fun _ => hlt⟩
    · rw [runFor, step_threads_eq fun now h => hocc ⟨now, h⟩]
      exact ⟨le_rfl, fun h => absurd h hocc⟩

theorem leadsTo_nearing (ht : (t : ℤ) < u) (hk : (t : ℤ) * 30 ≤ k)
    (hruns : ∀ i, ∃ j ≥ i, ∃ now, ev j = .thread t now) {first : ℕ} {due : ℤ}
    (hdue : ∀ j ≥ first, (runFor (step u) ev s j).due k = due)
    (hlate : ∀ j ≥ first, ∀ now, ev j = .thread t now → due ≤ now) :
    LeadsTo (fun j => first ≤ j ∧ ((runFor (step u) ev s j).threads t).pc = .starting)
      fun j => first ≤ j ∧ Nearing (runFor (step u) ev s j) t k := by
  refine LeadsTo.of_recurrent (fun _ => 0) hruns fun j hj => ?_
  obtain ⟨hfirst, hpc⟩ := hj
  by_cases hocc : ∃ now, ev j = .thread t now
  · obtain ⟨now, hnow⟩ := hocc
    have hthread : (runFor (step u) ev s (j + 1)).threads t = ⟨.testing 0, now⟩ := by
      rw [runFor_thread hnow ht, threadStep_starting hpc]
      exact Function.update_self _ _ _
    refine .inr (.inl ⟨Nat.le_succ_of_le hfirst, ?_, ?_⟩)
    · rw [hdue _ (Nat.le_succ_of_le hfirst), hthread]
      exact hlate j hfirst now hnow
    · rw [hthread, Pc.passed, add_zero]
      exact hk
  · refine .inr (.inr ⟨⟨Nat.le_succ_of_le hfirst, ?_⟩, le_rfl, fun h => absurd h hocc⟩)
    rwa [runFor, step_threads_eq fun now h => hocc ⟨now, h⟩]

theorem leadsTo_refreshed (hn : (n : ℤ) < INT_BOUND) (hpartition : (n : ℤ) = 30 * u)
    (hv : 0 < a.initialValidityIntervalMS) (hstart : 0 ≤ a.systemStartMs) (ht : (t : ℤ) < u)
    (hk : (k : ℤ) < t * 30 + 30) (hev : Ticking a t ev) {first : ℕ} {due : ℤ}
    (hdue : ∀ j ≥ first, (runFor (step u) ev (initial a m) j).due k = due) :
    LeadsTo (fun j => first ≤ j ∧ Nearing (runFor (step u) ev (initial a m) j) t k)
      fun j => first ≤ j ∧
      ∃ f, (runFor (step u) ev (initial a m) (j + 1)).firings k =
        f :: (runFor (step u) ev (initial a m) j).firings k := by
  refine LeadsTo.of_recurrent (fun j => ((runFor (step u) ev (initial a m) j).threads t).pc.left)
    hev.runs fun j hj => ?_
  obtain ⟨hfirst, hnear⟩ := hj
  by_cases hocc : ∃ now, ev j = .thread t now
  · obtain ⟨now, hnow⟩ := hocc
    obtain ⟨ticks, clock, hgood⟩ := runFor_good (u := u) hn hpartition hv hstart hev j
    rw [runFor_thread hnow ht]
    rcases nearing_threadStep hn hpartition hgood ht hk hnear now with hfired | hnearer
    · exact .inl ⟨hfirst, hfired⟩
    · have hpc : ((runFor (step u) ev (initial a m) j).threads t).pc ≠ .starting := by
        intro hpc
        have hbefore := hnear.before
        rw [hpc] at hbefore
        exact absurd (hbefore.trans_lt hk) (lt_irrefl _)
      have hlt := left_threadStep_lt hn hpartition hgood (runFor_alive hev.noSigint j) ht hpc now
      exact .inr (.inr ⟨⟨Nat.le_succ_of_le hfirst, hnearer⟩, hlt.le, fun _ => hlt⟩)
  · have hthread : (runFor (step u) ev (initial a m) (j + 1)).threads t =
      (runFor (step u) ev (initial a m) j).threads t := by
      rw [runFor, step_threads_eq fun now h => hocc ⟨now, h⟩]
    refine .inr
      (.inr ⟨⟨Nat.le_succ_of_le hfirst, ?_, ?_⟩, (by rw [hthread]), fun h => absurd h hocc⟩)
    · rw [hdue _ (Nat.le_succ_of_le hfirst), hthread, ← hdue j hfirst]
      exact hnear.due
    · rw [hthread]
      exact hnear.before

end Schedule

/-- Every data item of the thread is refreshed again and again. -/
theorem every_item_refreshed (a : Settings n) (u : ℤ) (hn : (n : ℤ) < INT_BOUND)
    (hpartition : (n : ℤ) = 30 * u) (hv : 0 < a.initialValidityIntervalMS)
    (hstart : 0 ≤ a.systemStartMs) (t : ℕ) (ht : (t : ℤ) < u) (ev : ℕ → Event n m)
    (hev : Ticking a t ev) (k : Fin n) (hk : (k.val : ℤ) ∈ slice t) (i : ℕ) :
    ∃ j ≥ i, ((runFor (step u) ev (initial a m) i).firings k).length <
      ((runFor (step u) ev (initial a m) j).firings k).length := by
  by_contra hnever
  have hnever' : ∀ j ≥ i, ¬ ((runFor (step u) ev (initial a m) i).firings k).length <
      ((runFor (step u) ev (initial a m) j).firings k).length := fun j hj hlt => hnever ⟨j, hj, hlt⟩
  obtain ⟨hlo, hhi⟩ := (mem_slice (by omega)).mp hk
  -- the data item keeps its due time, and from `first` on the clock has passed it
  obtain ⟨late, hlate⟩ := hev.advances ((runFor (step u) ev (initial a m) i).due k)
  have hdue : ∀ j ≥ max i late, (runFor (step u) ev (initial a m) j).due k =
    (runFor (step u) ev (initial a m) i).due k :=
    fun j hj => (untouched ((le_max_left _ _).trans hj) hnever').2
  have hreadings : ∀ j ≥ max i late, ∀ now, ev j = .thread t now →
    (runFor (step u) ev (initial a m) i).due k ≤ now :=
    fun j hj now => hlate j ((le_max_right _ _).trans hj) t now
  obtain ⟨j, hj, hfirst, f, hf⟩ := (((leadsTo_starting hn hpartition hv hstart ht hev _).trans
    (leadsTo_nearing ht hlo hev.runs hdue hreadings)).trans
    (leadsTo_refreshed hn hpartition hv hstart ht hhi hev hdue)) _ le_rfl
  have hij : i ≤ j := (le_max_left _ _).trans hfirst
  refine hnever' (j + 1) (Nat.le_succ_of_le hij) ?_
  rw [hf, (untouched hij hnever').1, List.length_cons]
  exact Nat.lt_succ_self _

theorem clocked_range' (i first : ℕ) {clock : ℤ} (hclock : clock ≤ first) :
    Clocked clock ((List.range' first i).map fun j : ℕ => (.thread 0 j : Event n m)) := by
  induction i generalizing first clock with
  | zero => trivial
  | succ i ih => exact ⟨hclock, ih (first + 1) (by push_cast; omega)⟩

theorem ticking_millis (a : Settings n) (hstart : a.systemStartMs = 0) :
    Ticking a 0 fun j => (.thread 0 j : Event n m) where
  noSigint _ := nofun
  clocked i := by
    rw [List.range_eq_range', hstart]
    exact clocked_range' i 0 le_rfl
  advances time := ⟨time.toNat, fun j hj t now h => by cases h; omega⟩
  runs i := ⟨i, le_rfl, i, rfl⟩

/-- The only update thread makes one step a millisecond. -/
theorem every_item_refreshed_millis :
    let a : Settings 30 := ⟨CHRONOS_MODE_FULL, 1000, 1000, 0.5, fun _ => [], 0⟩
    ∃ j ≥ 7, ((runFor (step 1) (fun j => .thread 0 j) (initial a 1) 7).firings 29).length <
      ((runFor (step 1) (fun j => .thread 0 j) (initial a 1) j).firings 29).length :=
  every_item_refreshed ⟨CHRONOS_MODE_FULL, 1000, 1000, 0.5, fun _ => [], 0⟩ 1 (by norm_num)
    (by norm_num) (by norm_num) le_rfl
    0 (by norm_num) (fun j => .thread 0 j) (ticking_millis _ rfl) 29
      ((mem_slice (by norm_num)).mpr (by decide)) 7

end Chronos.RefreshSchedule
