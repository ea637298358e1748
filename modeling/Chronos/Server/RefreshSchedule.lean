import Chronos.Foundation.Pacing
import Chronos.Server.UpdatePolicy
import Chronos.Server.UpdateThreads

/-! # When the data items are refreshed

The loop of `updateThread` step by step: the thread reads the clock at the start of a pass, enqueues
a refresh of every data item that is due, reads the slot and the clock again, and stores when the
item is due next. The other threads and the sampling task run in between.
-/
namespace Chronos.RefreshSchedule
open Foundation Packet Sampling UpdateThreads
variable {n m : ℕ}

/-! ## The update threads -/

/-- Where a thread is with a data item that is due. -/
inductive Phase where
  | enqueuing
  | scheduling (currentSlot : Slot)
  | storing (currentSlot : Slot) (nextUpdateTimeMs : ℤ)
deriving DecidableEq

inductive Pc where
  | starting
  | testing (i : ℤ)
  | refreshing (i txnEnqueue : ℤ) (phase : Phase)
  | sleeping
  | exited
  | faulted
deriving DecidableEq

structure Thread where
  pc : Pc
  currentTimeMs : ℤ

/-- The server with its update threads, and the refreshes so far, the last one first. -/
structure System (n m : ℕ) where
  context : ServerContext n m
  timeToDie : Bool
  threads : ℕ → Thread
  refreshed : List (Fin n × Firing ℤ)

def initial (a : Settings n) (m : ℕ) : System n m where
  context := a.initial m
  timeToDie := false
  threads _ := ⟨.starting, 0⟩
  refreshed := []

/-- `dataItemArray[i]` of update thread `t`. -/
def dataItem? (n t : ℕ) (i : ℤ) : Option (Fin n) :=
  (at? .dataItemsArray n ((updateParameters t).dataItemsArray + i)).toOption

def System.threadAt (s : System n m) (t : ℕ) (pc : Pc) : System n m :=
  { s with threads := Function.update s.threads t { s.threads t with pc := pc } }

theorem System.threadAt_self (s : System n m) (t : ℕ) (pc : Pc) :
    (s.threadAt t pc).threads t = ⟨pc, (s.threads t).currentTimeMs⟩ := Function.update_self _ _ _

theorem System.threadAt_ne (s : System n m) {t t' : ℕ} (pc : Pc) (hne : t' ≠ t) :
    (s.threadAt t pc).threads t' = s.threads t' := Function.update_of_ne hne _ _

/-- What thread `t` does with a data item, if its pointer stays in `dataItemsArray`. -/
def System.withItem (s : System n m) (t : ℕ) (f : Fin n → System n m) : Option (Fin n) → System n m
  | none => s.threadAt t .faulted
  | some k => f k

/-- `nextUpdateTimeMS = next_update_time_ms + updatePeriodMS[current_slot]` of `dataItemArray[i]`. -/
def store (c : ServerContext n m) (k : Fin n) (currentSlot : Slot) (nextUpdateTimeMs : ℤ) :
    ServerContext n m :=
  c.modifyItem k fun d =>
    { d with nextUpdateTimeMS := truncate (nextUpdateTimeMs + d.updatePeriodMS currentSlot) }

/-- The part of the pass for a data item that is due. -/
def refreshStep (s : System n m) (t : ℕ) (i txnEnqueue now : ℤ) (phase : Phase) (k : Fin n) :
    System n m :=
  match phase with
  -- the call of `chronos_enqueue_system_transaction` returns
  | .enqueuing => { s with context := s.context.bumpUpdateFrequency k }.threadAt t
      (.refreshing i txnEnqueue (.scheduling s.context.currentSlot))
  | .scheduling slot => s.threadAt t (.refreshing i txnEnqueue (.storing slot now))
  | .storing slot next => { s with
      context := store s.context k slot next
      refreshed := (k, ⟨txnEnqueue, next⟩) :: s.refreshed }.threadAt t (.testing (i + 1))

/-- One step of update thread `t`; `now` is what the clock says if the step reads it. -/
def threadStep (s : System n m) (t : ℕ) (now : ℤ) : System n m :=
  match (s.threads t).pc with
  | .starting => { s with threads := Function.update s.threads t ⟨.testing 0, now⟩ }
  | .testing i =>
    if i < (updateParameters t).numStocks then s.withItem t (fun k =>
      if (s.context.dataItemsArray k).nextUpdateTimeMS ≤ (s.threads t).currentTimeMs
      then s.threadAt t (.refreshing i now .enqueuing) else s.threadAt t (.testing (i + 1)))
        (dataItem? n t i)
    else s.threadAt t .sleeping
  | .refreshing i txnEnqueue phase =>
    s.withItem t (refreshStep s t i txnEnqueue now phase) (dataItem? n t i)
  | .sleeping => s.threadAt t (if s.timeToDie then .exited else .starting)
  | .exited => s
  | .faulted => s

section Steps
variable {s : System n m} {t : ℕ} {i txnEnqueue now : ℤ} {phase : Phase}

theorem threadStep_starting (hpc : (s.threads t).pc = .starting) :
    threadStep s t now = { s with threads := Function.update s.threads t ⟨.testing 0, now⟩ } := by
  rw [threadStep, hpc]

theorem threadStep_testing {item : Option (Fin n)} (hpc : (s.threads t).pc = .testing i)
    (hi : i < 30) (hitem : dataItem? n t i = item) : threadStep s t now = s.withItem t (fun k =>
      if (s.context.dataItemsArray k).nextUpdateTimeMS ≤ (s.threads t).currentTimeMs
      then s.threadAt t (.refreshing i now .enqueuing)
        else s.threadAt t (.testing (i + 1))) item := by
  have hnum : i < (updateParameters t).numStocks := hi
  rw [threadStep, hpc]
  simp only [if_pos hnum]
  rw [hitem]

theorem threadStep_passed (hpc : (s.threads t).pc = .testing i) (hi : 30 ≤ i) :
    threadStep s t now = s.threadAt t .sleeping := by
  have hnum : ¬ i < (updateParameters t).numStocks := not_lt.mpr hi
  rw [threadStep, hpc]
  simp only [if_neg hnum]

theorem threadStep_refreshing {item : Option (Fin n)}
    (hpc : (s.threads t).pc = .refreshing i txnEnqueue phase) (hitem : dataItem? n t i = item) :
    threadStep s t now = s.withItem t (refreshStep s t i txnEnqueue now phase) item := by
  unfold threadStep
  split <;> rename_i hpc' <;> rw [hpc] at hpc' <;> cases hpc'
  rw [hitem]

theorem threadStep_sleeping (hpc : (s.threads t).pc = .sleeping) :
    threadStep s t now = s.threadAt t (if s.timeToDie then .exited else .starting) := by
  rw [threadStep, hpc]

theorem threadStep_over (hpc : (s.threads t).pc = .exited ∨ (s.threads t).pc = .faulted) :
    threadStep s t now = s := by
  rcases hpc with hpc | hpc <;> rw [threadStep, hpc]

end Steps

inductive Event (n m : ℕ) where
  | thread (t : ℕ) (now : ℤ)
  | server (ev : Sampling.Event n m)
  | sigint

/-- One step of one of the `u` update threads or of the rest of the server. -/
def step (u : ℤ) (s : System n m) : Event n m → System n m
  | .thread t now => if t < u then threadStep s t now else s
  | .server (.refresh _ _) => s
  | .server ev => { s with context := Sampling.step s.context ev }
  | .sigint => { s with timeToDie := true }

def run (u : ℤ) (s : System n m) (es : List (Event n m)) : System n m := es.foldl (step u) s

/-- The clock never goes back. -/
def Clocked : ℤ → List (Event n m) → Prop
  | _, [] => True
  | clock, .thread _ now :: es => clock ≤ now ∧ Clocked now es
  | clock, _ :: es => Clocked clock es

def System.firings (s : System n m) (k : Fin n) : List (Firing ℤ) :=
  (s.refreshed.filter fun r => r.1 = k).map Prod.snd

/-! ## The periods in the slots -/

section Periods
variable {a : Settings n} {ticks : ℕ} {c c' : ServerContext n m}

structure Fixed (a : Settings n) (ticks : ℕ) (c : ServerContext n m) : Prop where
  mode : c.runningMode = a.runningMode
  lower : c.minUpdatePeriodMS = a.minUpdatePeriodMS
  slot : c.currentSlot = slotOf ticks
  period : ∀ i, ∀ j ≤ ticks, (c.dataItemsArray i).updatePeriodMS (slotOf j) = a.minUpdatePeriodMS

/-- What the ticks so far have left in the slots. -/
structure Regulated (a : Settings n) (ticks : ℕ) (c : ServerContext n m) : Prop where
  adapted : AdaptsPeriods a.runningMode → NoAccessCounted c ∧ Grown a ticks c
  fixed : ¬ AdaptsPeriods a.runningMode → Fixed a ticks c

theorem regulated_initial (a : Settings n) (m : ℕ) : Regulated a 0 (a.initial m) where
  adapted _ := ⟨fun _ _ => rfl, grown_initial a⟩
  fixed _ := by
    refine ⟨rfl, rfl, rfl, fun i j hj => ?_⟩
    obtain rfl : j = 0 := Nat.le_zero.mp hj
    simp [Settings.initial, Settings.dataItem, slotOf]

theorem Regulated.congr (h : Regulated a ticks c) (hsame : SamePeriods c c') :
    Regulated a ticks c' where
  adapted hmode := by
    refine ⟨fun i k => ?_, (h.adapted hmode).2.congr hsame⟩
    rw [hsame.ratio i]
    exact (h.adapted hmode).1 i k
  fixed hmode := by
    obtain ⟨hm, hl, hs, hp⟩ := h.fixed hmode
    exact ⟨hsame.mode.trans hm, hsame.lower.trans hl, hsame.slot.trans hs,
      fun i j hj => (congrFun (hsame.period i) _).trans (hp i j hj)⟩

theorem Regulated.sampled (h : Regulated a ticks c) (hv : 0 < a.initialValidityIntervalMS) :
    Regulated a (ticks + 1) (handlerSampling c) where
  adapted hmode := by
    obtain ⟨hc, hg⟩ := h.adapted hmode
    exact ⟨step_noAccessCounted hc .sampling, hg.sampled hc hv hmode⟩
  fixed hmode := by
    obtain ⟨hm, hl, hs, hp⟩ := h.fixed hmode
    refine ⟨hm, hl, ?_, fun i j hj => ?_⟩
    · rw [slotOf_succ, ← hs]
      rfl
    · have hmode' : ¬ (c.runningMode = CHRONOS_MODE_FULL ∨ c.runningMode = CHRONOS_MODE_AUP) := by
        rwa [hm]
      simp only [handlerSampling, sampleItem, if_neg hmode', hs, ← slotOf_succ, hl]
      by_cases hslot : slotOf j = slotOf (ticks + 1)
      · rw [hslot, Function.update_self]
      · rw [Function.update_of_ne hslot]
        have hne : j ≠ ticks + 1 := by
          rintro rfl
          exact hslot rfl
        exact hp i j (by omega)

theorem Regulated.slot (h : Regulated a ticks c) : c.currentSlot = slotOf ticks := by
  by_cases hmode : AdaptsPeriods a.runningMode
  · exact (h.adapted hmode).2.slot
  · exact (h.fixed hmode).slot

/-- Every slot that has been the current one holds a period between the limits. -/
theorem Regulated.within (h : Regulated a ticks c) (hv : 0 < a.initialValidityIntervalMS) {j : ℕ}
    (hj : j ≤ ticks) (i : Fin n) :
    a.minUpdatePeriodMS ≤ (c.dataItemsArray i).updatePeriodMS (slotOf j) ∧
      (c.dataItemsArray i).updatePeriodMS (slotOf j) ≤ a.maxUpdatePeriodMS := by
  have hpos := Settings.minUpdatePeriodMS_pos hv
  by_cases hmode : AdaptsPeriods a.runningMode
  · obtain ⟨p, hple, hplt, hslot⟩ : ∃ p, p ≤ min ticks 7 ∧ min ticks 7 < p + 5 ∧
      slotOf p = slotOf j := by
      simp only [slotOf_eq_iff]
      by_cases hlate : min ticks 7 < j % 5 + 5
      · exact ⟨j % 5, by omega, hlate, Nat.mod_mod _ _⟩
      · exact ⟨j % 5 + 5, by omega, by omega, by omega⟩
    rw [← hslot, (h.adapted hmode).2.period i p hple hplt, a.maxUpdatePeriodMS_eq]
    exact ⟨le_mul_of_one_le_right hpos.le (one_le_pow₀ (by norm_num)),
      mul_le_mul_of_nonneg_left ((pow_le_two_iff p).mpr (by omega)) hpos.le⟩
  · rw [(h.fixed hmode).period i j hj, a.maxUpdatePeriodMS_eq]
    exact ⟨le_rfl, le_mul_of_one_le_right hpos.le (by norm_num)⟩

end Periods

/-! ## What every step preserves -/

section Invariant
variable {a : Settings n} {u : ℤ} {ticks ticks' : ℕ} {clock clock' : ℤ} {s s' : System n m} {t : ℕ}
  {k : Fin n}

def System.due (s : System n m) (k : Fin n) : ℤ := (s.context.dataItemsArray k).nextUpdateTimeMS

/-- What the clock said after the last refresh of the data item, or when the server started. -/
def System.lastRefresh (s : System n m) (a : Settings n) (k : Fin n) : ℤ :=
  lastEnded a.systemStartMs (s.firings k)

def Pc.passed : Pc → ℤ
  | .testing i => i
  | .refreshing i _ _ => i
  | _ => 30

/-- What the thread has read while it refreshes a data item. -/
def Phase.Read (ticks : ℕ) (clock txnEnqueue : ℤ) : Phase → Prop
  | .enqueuing => True
  | .scheduling slot => ∃ j ≤ ticks, slot = slotOf j
  | .storing slot next => (∃ j ≤ ticks, slot = slotOf j) ∧ txnEnqueue ≤ next ∧ next ≤ clock

theorem Phase.Read.mono {phase : Phase} {txnEnqueue : ℤ} (h : phase.Read ticks clock txnEnqueue)
    (hticks : ticks ≤ ticks') (hclock : clock ≤ clock') : phase.Read ticks' clock' txnEnqueue := by
  cases phase with
  | enqueuing => trivial
  | scheduling slot =>
    obtain ⟨j, hj, hslot⟩ := h
    exact ⟨j, hj.trans hticks, hslot⟩
  | storing slot next =>
    obtain ⟨⟨j, hj, hslot⟩, hbegan, hnext⟩ := h
    exact ⟨⟨j, hj.trans hticks, hslot⟩, hbegan, hnext.trans hclock⟩

/-- A thread has left no data item it has passed without a refresh for longer than the upper limit
before the start of its pass, and refreshes only what was due then. -/
structure Steady (a : Settings n) (ticks : ℕ) (clock : ℤ) (s : System n m) (t : ℕ)
    (thread : Thread) : Prop where
  read : thread.currentTimeMs ≤ clock
  index : 0 ≤ thread.pc.passed ∧ thread.pc.passed ≤ 30
  passed : ∀ k : Fin n, (t : ℤ) * 30 ≤ k → (k : ℤ) < t * 30 + thread.pc.passed →
    thread.currentTimeMs ≤ s.lastRefresh a k + ⌊a.maxUpdatePeriodMS⌋
  busy : ∀ i txnEnqueue phase, thread.pc = .refreshing i txnEnqueue phase → i < 30 ∧
    thread.currentTimeMs ≤ txnEnqueue ∧ txnEnqueue ≤ clock ∧ phase.Read ticks clock txnEnqueue ∧
    ∀ k : Fin n, (k : ℤ) = t * 30 + i → s.due k ≤ thread.currentTimeMs
  unfaulted : thread.pc ≠ .faulted

theorem Steady.frame {thread : Thread} (h : Steady a ticks clock s t thread)
    (hticks : ticks ≤ ticks') (hclock : clock ≤ clock')
    (hlast : ∀ k, s.lastRefresh a k ≤ s'.lastRefresh a k)
    (hdue : ∀ k : Fin n, (t : ℤ) * 30 ≤ k → (k : ℤ) < t * 30 + 30 → s'.due k = s.due k) :
    Steady a ticks' clock' s' t thread where
  read := h.read.trans hclock
  index := h.index
  passed k hlo hhi := (h.passed k hlo hhi).trans (by have := hlast k; omega)
  busy i txnEnqueue phase hpc := by
    obtain ⟨hi, hbegan, hend, hread, hduek⟩ := h.busy i txnEnqueue phase hpc
    refine ⟨hi, hbegan, hend.trans hclock, hread.mono hticks hclock, fun k hk => ?_⟩
    have hindex := h.index.1
    rw [hpc] at hindex
    rw [hdue k (by simp only [Pc.passed] at hindex; omega) (by omega)]
    exact hduek k hk
  unfaulted := h.unfaulted

/-- The server after some ticks, when the clock was last read at `clock`. -/
structure Good (a : Settings n) (u : ℤ) (ticks : ℕ) (clock : ℤ) (s : System n m) : Prop where
  regulated : Regulated a ticks s.context
  paced : ∀ k, Paced ⌊a.minUpdatePeriodMS⌋ a.systemStartMs (s.due k) (s.firings k)
  renewed : ∀ k, s.due k ≤ s.lastRefresh a k + ⌊a.maxUpdatePeriodMS⌋
  read : ∀ k, s.lastRefresh a k ≤ clock
  steady : ∀ t : ℕ, (t : ℤ) < u → Steady a ticks clock s t (s.threads t)

theorem Good.quiet (h : Good a u ticks clock s) (hticks : ticks ≤ ticks') (hclock : clock ≤ clock')
    (hreg : Regulated a ticks' s'.context) (hdue : ∀ k, s'.due k = s.due k)
    (hrefreshed : s'.refreshed = s.refreshed) (hthreads : ∀ t' ≠ t, s'.threads t' = s.threads t')
    (hsteady : (t : ℤ) < u → Steady a ticks' clock' s' t (s'.threads t)) :
    Good a u ticks' clock' s' := by
  have hfirings : ∀ k, s'.firings k = s.firings k :=
    fun k => by rw [System.firings, hrefreshed, System.firings]
  have hlast : ∀ k, s'.lastRefresh a k = s.lastRefresh a k :=
    fun k => by rw [System.lastRefresh, hfirings, System.lastRefresh]
  refine ⟨hreg, fun k => ?_, fun k => ?_, fun k => ?_, fun t' ht' => ?_⟩
  · rw [hdue, hfirings]
    exact h.paced k
  · rw [hdue, hlast]
    exact h.renewed k
  · rw [hlast]
    exact (h.read k).trans hclock
  · by_cases hsame : t' = t
    · subst hsame
      exact hsteady ht'
    · rw [hthreads t' hsame]
      exact (h.steady t' ht').frame hticks hclock (fun k => (hlast k).ge) fun k _ _ => hdue k

theorem floor_truncate {x : ℤ} {p : ℚ} (hx : 0 ≤ x) (hp : 0 ≤ p) : truncate (x + p) = x + ⌊p⌋ := by
  have hnonneg : (0 : ℚ) ≤ x + p := add_nonneg (by exact_mod_cast hx) hp
  rw [truncate, if_pos hnonneg, Int.floor_intCast_add]

theorem store_samePeriods (c : ServerContext n m) (k : Fin n) (slot : Slot) (next : ℤ) :
    SamePeriods c (store c k slot next) :=
  modifyItem_samePeriods c k _ (fun _ => rfl) fun _ => rfl

theorem storing_due {i txnEnqueue next now : ℤ} {slot : Slot} (k' : Fin n) :
    (refreshStep s t i txnEnqueue now (.storing slot next) k).due k' =
      if k' = k then truncate (next + (s.context.dataItemsArray k).updatePeriodMS slot)
        else s.due k' := by
  simp only [refreshStep, System.due, System.threadAt, store, ServerContext.modifyItem,
    Function.update_apply]
  split <;> rfl

theorem storing_firings {i txnEnqueue next now : ℤ} {slot : Slot} (k' : Fin n) :
    (refreshStep s t i txnEnqueue now (.storing slot next) k).firings k' =
      if k' = k then ⟨txnEnqueue, next⟩ :: s.firings k' else s.firings k' := by
  simp only [refreshStep, System.firings, System.threadAt, List.filter_cons, decide_eq_true_eq,
    eq_comm (a := k)]
  split <;> rfl

theorem storing_lastRefresh (a : Settings n) {i txnEnqueue next now : ℤ} {slot : Slot}
    (k' : Fin n) : (refreshStep s t i txnEnqueue now (.storing slot next) k).lastRefresh a k' =
      if k' = k then next else s.lastRefresh a k' := by
  rw [System.lastRefresh, storing_firings]
  split
  · rfl
  · rfl

theorem Steady.stored (h : Steady a ticks clock s t (s.threads t)) {i txnEnqueue next now : ℤ}
    {slot : Slot} (hk : (k : ℤ) = t * 30 + i)
    (hpc : (s.threads t).pc = .refreshing i txnEnqueue (.storing slot next))
    (hnext : (s.threads t).currentTimeMs ≤ next + ⌊a.maxUpdatePeriodMS⌋) :
    Steady a ticks clock (refreshStep s t i txnEnqueue now (.storing slot next) k) t
      ⟨.testing (i + 1), (s.threads t).currentTimeMs⟩ := by
  obtain ⟨hi, -⟩ := h.busy i txnEnqueue _ hpc
  have hindex := h.index.1
  rw [hpc] at hindex
  refine ⟨h.read, ⟨?_, ?_⟩, fun k' hlok hhik => ?_, nofun, nofun⟩
  · simp only [Pc.passed] at hindex ⊢
    omega
  · simp only [Pc.passed]
    omega
  · simp only [Pc.passed] at hhik
    rw [storing_lastRefresh]
    by_cases hne : k' = k
    · rw [if_pos hne]
      exact hnext
    · have hne' : (k' : ℤ) ≠ k := fun heq => hne (Fin.ext (Int.ofNat.inj heq))
      rw [if_neg hne]
      exact h.passed k' hlok (by simp only [hpc, Pc.passed]; omega)

/-- A refresh that is stored is paced like those before it. -/
theorem Good.stored (hv : 0 < a.initialValidityIntervalMS) (hstart : 0 ≤ a.systemStartMs)
    (h : Good a u ticks clock s) {i txnEnqueue next now : ℤ} {slot : Slot} (ht : (t : ℤ) < u)
    (hk : (k : ℤ) = t * 30 + i)
    (hpc : (s.threads t).pc = .refreshing i txnEnqueue (.storing slot next)) :
    Good a u ticks clock (refreshStep s t i txnEnqueue now (.storing slot next) k) := by
  have hsteady := h.steady t ht
  obtain ⟨hi, hbegan, -, ⟨⟨j, hj, rfl⟩, hends, hnext⟩, hduek⟩ := hsteady.busy i txnEnqueue _ hpc
  have hduek := hduek k hk
  have hindex := hsteady.index.1
  rw [hpc] at hindex
  obtain ⟨hlower, hupper⟩ := h.regulated.within hv hj k
  have hpos := Settings.minUpdatePeriodMS_pos hv
  have hlo := Int.floor_le_floor hlower
  have hhi := Int.floor_le_floor hupper
  have hgap : 0 ≤ ⌊a.minUpdatePeriodMS⌋ := Int.floor_nonneg.mpr hpos.le
  have hstartk := (h.paced k).start_le hgap
  have hlastk : s.lastRefresh a k + ⌊a.minUpdatePeriodMS⌋ ≤ s.due k := (h.paced k).lastEnded_le
  have hown : Steady a ticks clock (refreshStep s t i txnEnqueue now (.storing (slotOf j) next) k) t
      ⟨.testing (i + 1), (s.threads t).currentTimeMs⟩ := hsteady.stored hk hpc (by omega)
  generalize hs' : refreshStep s t i txnEnqueue now (.storing (slotOf j) next) k = s' at hown
  have hdue : ∀ k', s'.due k' = if k' = k then
    next + ⌊(s.context.dataItemsArray k).updatePeriodMS (slotOf j)⌋ else s.due k' := by
    intro k'
    rw [← hs', storing_due, floor_truncate (by omega) (hpos.le.trans hlower)]
  have hfirings : ∀ k', s'.firings k' = if k' = k then ⟨txnEnqueue,
    next⟩ :: s.firings k' else s.firings k' := by
    intro k'
    rw [← hs', storing_firings]
  have hlast : ∀ k', s'.lastRefresh a k' = if k' = k then next else s.lastRefresh a k' := by
    intro k'
    rw [← hs', storing_lastRefresh]
  refine ⟨?_, fun k' => ?_, fun k' => ?_, fun k' => ?_, fun t' ht' => ?_⟩
  · rw [← hs']
    exact h.regulated.congr (store_samePeriods s.context k _ _)
  · rw [hdue, hfirings]
    by_cases hne : k' = k
    · subst hne
      rw [if_pos rfl, if_pos rfl]
      exact (h.paced k').fire (hduek.trans hbegan) hends (Int.add_le_add_left hlo next)
    · rw [if_neg hne, if_neg hne]
      exact h.paced k'
  · rw [hdue, hlast]
    by_cases hne : k' = k
    · subst hne
      rw [if_pos rfl, if_pos rfl]
      exact Int.add_le_add_left hhi next
    · rw [if_neg hne, if_neg hne]
      exact h.renewed k'
  · rw [hlast]
    by_cases hne : k' = k
    · rw [if_pos hne]
      exact hnext
    · rw [if_neg hne]
      exact h.read k'
  · by_cases hsame : t' = t
    · subst hsame
      have hthread : s'.threads t' = ⟨.testing (i + 1), (s.threads t').currentTimeMs⟩ := by
        rw [← hs']
        exact Function.update_self _ _ _
      rw [hthread]
      exact hown
    · have hthread : s'.threads t' = s.threads t' := by
        rw [← hs']
        exact Function.update_of_ne hsame _ _
      rw [hthread]
      refine (h.steady t' ht').frame le_rfl le_rfl (fun k' => ?_) fun k' hlok hhik => ?_
      · rw [hlast]
        split
        · rename_i heq
          rw [heq]
          omega
        · exact le_rfl
      · have hne : k' ≠ k := by
          rintro rfl
          simp only [Pc.passed] at hindex
          omega
        rw [hdue, if_neg hne]

theorem dataItem_eq_some (hn : (n : ℤ) < INT_BOUND) (hpartition : (n : ℤ) = 30 * u)
    (ht : (t : ℤ) < u) {i : ℤ} (hi : 0 ≤ i ∧ i < 30) :
    ∃ k : Fin n, dataItem? n t i = some k ∧ (k : ℤ) = t * 30 + i := by
  have hself : int32 ((t : ℤ) * 30) = t * 30 := int32_eq_self (by omega) (by omega)
  obtain ⟨k, hk⟩ : ∃ k : Fin n, (k.val : ℤ) = t * 30 + i :=
    ⟨⟨(t * 30 + i).toNat, by omega⟩, by simp only; omega⟩
  refine ⟨k, ?_, hk⟩
  have hindex : at? .dataItemsArray n ((updateParameters t).dataItemsArray + i) = .ok k := by
    refine at_eq_ok.mpr ?_
    rw [hk, updateParameters, hself]
  rw [dataItem?, hindex]
  rfl

theorem Good.later (h : Good a u ticks clock s) (hclock : clock ≤ clock') :
    Good a u ticks clock' s where
  regulated := h.regulated
  paced := h.paced
  renewed := h.renewed
  read k := (h.read k).trans hclock
  steady t ht := (h.steady t ht).frame le_rfl hclock (fun _ => le_rfl) fun _ _ _ => rfl

theorem Good.threadAt {pc : Pc} (h : Good a u ticks clock s) (hclock : clock ≤ clock')
    (ht : (t : ℤ) < u) (hindex : 0 ≤ pc.passed ∧ pc.passed ≤ 30) (hfault : pc ≠ .faulted)
    (hpassed : ∀ k : Fin n, (t : ℤ) * 30 + (s.threads t).pc.passed ≤ k →
      (k : ℤ) < t * 30 + pc.passed →
      (s.threads t).currentTimeMs ≤ s.lastRefresh a k + ⌊a.maxUpdatePeriodMS⌋)
    (hbusy : ∀ i txnEnqueue phase, pc = .refreshing i txnEnqueue phase → i < 30 ∧
      (s.threads t).currentTimeMs ≤ txnEnqueue ∧ txnEnqueue ≤ clock' ∧
        phase.Read ticks clock' txnEnqueue ∧
      ∀ k : Fin n, (k : ℤ) = t * 30 + i → s.due k ≤ (s.threads t).currentTimeMs) :
    Good a u ticks clock' (s.threadAt t pc) := by
  have hsteady := h.steady t ht
  refine h.quiet le_rfl hclock h.regulated (fun _ => rfl) rfl
    (fun t' hne => Function.update_of_ne hne _ _) fun _ => ?_
  rw [System.threadAt_self]
  refine ⟨hsteady.read.trans hclock, hindex, fun k hlo hhi => ?_, hbusy, hfault⟩
  by_cases hbefore : (k : ℤ) < t * 30 + (s.threads t).pc.passed
  · exact hsteady.passed k hlo hbefore
  · exact hpassed k (by omega) hhi

theorem bumped_samePeriods (c : ServerContext n m) (k : Fin n) :
    SamePeriods c (c.bumpUpdateFrequency k) :=
  modifyItem_samePeriods c k _ (fun _ => rfl) fun _ => rfl

theorem bumped_nextUpdateTimeMS (c : ServerContext n m) (k k' : Fin n) :
    ((c.bumpUpdateFrequency k).dataItemsArray k').nextUpdateTimeMS =
    (c.dataItemsArray k').nextUpdateTimeMS := by
  simp only [ServerContext.bumpUpdateFrequency, ServerContext.modifyItem, Function.update_apply]
  split
  · subst_vars
    rfl
  · rfl

theorem Good.started_pass (h : Good a u ticks clock s) {now : ℤ} (hnow : clock ≤ now) :
    Good a u ticks now { s with threads := Function.update s.threads t ⟨.testing 0, now⟩ } := by
  refine h.quiet le_rfl hnow h.regulated (fun _ => rfl) rfl
    (fun t' hne => Function.update_of_ne hne _ _) fun _ => ?_
  simp only [Function.update_self]
  refine ⟨le_rfl, ⟨le_rfl, by norm_num [Pc.passed]⟩, fun k hlo hhi => ?_, nofun, nofun⟩
  simp only [Pc.passed] at hhi
  omega

theorem Good.tested (h : Good a u ticks clock s) (ht : (t : ℤ) < u) {i now : ℤ}
    (hpc : (s.threads t).pc = .testing i) (hi : i < 30) (hk : (k : ℤ) = t * 30 + i)
    (hnow : clock ≤ now) :
    Good a u ticks now (if (s.context.dataItemsArray k).nextUpdateTimeMS ≤
      (s.threads t).currentTimeMs
      then s.threadAt t (.refreshing i now .enqueuing) else s.threadAt t (.testing (i + 1))) := by
  have hsteady := h.steady t ht
  have hlow := hsteady.index.1
  rw [hpc, Pc.passed] at hlow
  by_cases hdue : (s.context.dataItemsArray k).nextUpdateTimeMS ≤ (s.threads t).currentTimeMs
  · rw [if_pos hdue]
    refine h.threadAt hnow ht ⟨hlow, hi.le⟩ nofun
      (fun k' hlo hhi => ?_) fun i' txnEnqueue phase hpc' => ?_
    · simp only [hpc, Pc.passed] at hlo hhi
      omega
    · cases hpc'
      refine ⟨hi, hsteady.read.trans hnow, le_rfl, trivial, fun k' hk' => ?_⟩
      obtain rfl : k' = k := Fin.ext (by omega)
      exact hdue
  · rw [if_neg hdue]
    have hindex : 0 ≤ i + 1 ∧ i + 1 ≤ 30 := ⟨by omega, by omega⟩
    refine h.threadAt hnow ht hindex nofun (fun k' hlo hhi => ?_) nofun
    simp only [hpc, Pc.passed] at hlo hhi
    obtain rfl : k' = k := Fin.ext (by omega)
    have hrenewed : (s.context.dataItemsArray k').nextUpdateTimeMS ≤ _ := h.renewed k'
    omega

theorem Good.refreshed (hv : 0 < a.initialValidityIntervalMS) (hstart : 0 ≤ a.systemStartMs)
    (h : Good a u ticks clock s) (ht : (t : ℤ) < u) {i txnEnqueue now : ℤ} {phase : Phase}
    (hpc : (s.threads t).pc = .refreshing i txnEnqueue phase) (hk : (k : ℤ) = t * 30 + i)
    (hnow : clock ≤ now) : Good a u ticks now (refreshStep s t i txnEnqueue now phase k) := by
  have hsteady := h.steady t ht
  have hlow := hsteady.index.1
  obtain ⟨hi, hbegan, hend, hread, hduek⟩ := hsteady.busy i txnEnqueue phase hpc
  rw [hpc, Pc.passed] at hlow
  cases phase with
  | enqueuing =>
    -- the slot is the current one, and the item is counted as refreshed
    have hbumped : Good a u ticks clock { s with context := s.context.bumpUpdateFrequency k } :=
      h.quiet le_rfl le_rfl (h.regulated.congr (bumped_samePeriods _ k))
        (bumped_nextUpdateTimeMS _ k) rfl
        (fun _ _ => rfl) fun _ => hsteady.frame le_rfl le_rfl (fun _ => le_rfl)
          fun k' _ _ => bumped_nextUpdateTimeMS _ k k'
    refine hbumped.threadAt hnow ht ⟨hlow, hi.le⟩ nofun
      (fun k' hlo hhi => ?_) fun i' txnEnqueue' phase hpc' => ?_
    · simp only [hpc, Pc.passed] at hlo hhi
      omega
    · cases hpc'
      refine ⟨hi, hbegan, hend.trans hnow, ⟨ticks, le_rfl, h.regulated.slot⟩, fun k' hk' => ?_⟩
      exact (bumped_nextUpdateTimeMS s.context k k').trans_le (hduek k' hk')
  | scheduling slot =>
    refine h.threadAt hnow ht ⟨hlow, hi.le⟩ nofun
      (fun k' hlo hhi => ?_) fun i' txnEnqueue' phase hpc' => ?_
    · simp only [hpc, Pc.passed] at hlo hhi
      omega
    · cases hpc'
      exact ⟨hi, hbegan, hend.trans hnow, ⟨hread, hend.trans hnow, le_rfl⟩, hduek⟩
  | storing slot next => exact (h.stored hv hstart ht hk hpc).later hnow

theorem Good.rested {pc : Pc} (h : Good a u ticks clock s) (ht : (t : ℤ) < u) {now : ℤ}
    (hpassed : 30 ≤ (s.threads t).pc.passed)
    (hrests : pc = .sleeping ∨ pc = .starting ∨ pc = .exited) (hnow : clock ≤ now) :
    Good a u ticks now (s.threadAt t pc) := by
  have hwhole : pc.passed = 30 := by rcases hrests with rfl | rfl | rfl <;> rfl
  refine h.threadAt hnow ht ⟨by omega, by omega⟩ ?_ (fun k hlo hhi => ?_) ?_
  · rcases hrests with rfl | rfl | rfl <;> nofun
  · omega
  · rcases hrests with rfl | rfl | rfl <;> nofun

theorem Good.threadStep (hn : (n : ℤ) < INT_BOUND) (hpartition : (n : ℤ) = 30 * u)
    (hv : 0 < a.initialValidityIntervalMS) (hstart : 0 ≤ a.systemStartMs)
    (h : Good a u ticks clock s) (ht : (t : ℤ) < u) {now : ℤ} (hnow : clock ≤ now) :
    Good a u ticks now (threadStep s t now) := by
  have hsteady := h.steady t ht
  have hlow := hsteady.index.1
  cases hpc : (s.threads t).pc with
  | starting =>
    rw [threadStep_starting hpc]
    exact h.started_pass hnow
  | testing i =>
    rw [hpc, Pc.passed] at hlow
    by_cases hi : i < 30
    · obtain ⟨k, hitem, hk⟩ := dataItem_eq_some hn hpartition ht ⟨hlow, hi⟩
      rw [threadStep_testing hpc hi hitem, System.withItem]
      exact h.tested ht hpc hi hk hnow
    · rw [not_lt] at hi
      rw [threadStep_passed hpc hi]
      exact h.rested ht (by rwa [hpc]) (.inl rfl) hnow
  | refreshing i txnEnqueue phase =>
    have hi := (hsteady.busy i txnEnqueue phase hpc).1
    rw [hpc, Pc.passed] at hlow
    obtain ⟨k, hitem, hk⟩ := dataItem_eq_some hn hpartition ht ⟨hlow, hi⟩
    rw [threadStep_refreshing hpc hitem, System.withItem]
    exact h.refreshed hv hstart ht hpc hk hnow
  | sleeping =>
    rw [threadStep_sleeping hpc]
    refine h.rested ht (by rw [hpc]; exact le_rfl) ?_ hnow
    cases s.timeToDie
    · exact .inr (.inl rfl)
    · exact .inr (.inr rfl)
  | exited =>
    rw [threadStep_over (.inl hpc)]
    exact h.later hnow
  | faulted => exact absurd hpc hsteady.unfaulted

theorem dispatchTableFn_nextUpdateTimeMS (c : ServerContext n m) (symbolIds : List (Fin n))
    (k : Fin n) :
    ((Sampling.dispatchTableFn c symbolIds).dataItemsArray k).nextUpdateTimeMS =
    (c.dataItemsArray k).nextUpdateTimeMS := by
  unfold Sampling.dispatchTableFn
  induction symbolIds generalizing c with
  | nil => rfl
  | cons i is ih => exact (ih _).trans (bumped_nextUpdateTimeMS c i k)

theorem server_nextUpdateTimeMS (c : ServerContext n m) {ev : Sampling.Event n m}
    (hev : ∀ i next, ev ≠ .refresh i next) (k : Fin n) :
    ((Sampling.step c ev).dataItemsArray k).nextUpdateTimeMS =
      (c.dataItemsArray k).nextUpdateTimeMS := by
  cases ev with
  | viewStock symbolIds => exact dispatchTableFn_nextUpdateTimeMS c symbolIds k
  | refresh i next => exact absurd rfl (hev i next)
  | transactionDone =>
    simp only [Sampling.step, transactionDone]
    split <;> rfl
  | account threadNum txnRc txnDurationMs => rfl
  | occupied user sys => rfl
  | sampling => rfl

theorem Good.serverStep (hv : 0 < a.initialValidityIntervalMS) (h : Good a u ticks clock s)
    (ev : Sampling.Event n m) : ∃ ticks', Good a u ticks' clock (step u s (.server ev)) := by
  by_cases hrefresh : ∃ i next, ev = .refresh i next
  · obtain ⟨i, next, rfl⟩ := hrefresh
    exact ⟨ticks, h⟩
  · have hev : ∀ i next, ev ≠ .refresh i next := fun i next heq => hrefresh ⟨i, next, heq⟩
    have hstep : step u s (.server ev) = { s with context := Sampling.step s.context ev } := by
      cases ev with
      | refresh i next => exact absurd rfl (hev i next)
      | _ => rfl
    have hdue := server_nextUpdateTimeMS s.context hev
    rw [hstep]
    by_cases htick : ev = .sampling
    · subst htick
      exact ⟨ticks + 1, h.quiet (Nat.le_succ _) le_rfl (h.regulated.sampled hv) hdue rfl
        (fun _ _ => rfl) fun h0 =>
        (h.steady 0 h0).frame (Nat.le_succ _) le_rfl (fun _ => le_rfl) fun k _ _ => hdue k⟩
    · exact ⟨ticks, h.quiet le_rfl le_rfl (h.regulated.congr (step_samePeriods _ htick)) hdue rfl
        (fun _ _ => rfl) fun h0 =>
        (h.steady 0 h0).frame le_rfl le_rfl (fun _ => le_rfl) fun k _ _ => hdue k⟩

/-- What the clock last said in a run. -/
def lastReading : ℤ → List (Event n m) → ℤ
  | clock, [] => clock
  | _, .thread _ now :: es => lastReading now es
  | clock, .server _ :: es => lastReading clock es
  | clock, .sigint :: es => lastReading clock es

theorem Good.run (hn : (n : ℤ) < INT_BOUND) (hpartition : (n : ℤ) = 30 * u)
    (hv : 0 < a.initialValidityIntervalMS) (hstart : 0 ≤ a.systemStartMs) {es : List (Event n m)}
    (h : Good a u ticks clock s) (hclock : Clocked clock es) :
    ∃ ticks', Good a u ticks' (lastReading clock es) (run u s es) := by
  induction es generalizing s ticks clock with
  | nil => exact ⟨ticks, h⟩
  | cons ev es ih =>
    cases ev with
    | thread t now =>
      obtain ⟨hnow, hrest⟩ := hclock
      have hgood : Good a u ticks now (step u s (.thread t now)) := by
        by_cases ht : (t : ℤ) < u
        · rw [step, if_pos ht]
          exact h.threadStep hn hpartition hv hstart ht hnow
        · rw [step, if_neg ht]
          exact h.later hnow
      exact ih hgood hrest
    | server ev =>
      obtain ⟨ticks', hgood⟩ := h.serverStep hv ev
      exact ih hgood hclock
    | sigint =>
      have hgood : Good a u ticks clock (step u s .sigint) :=
        h.quiet le_rfl le_rfl h.regulated (fun _ => rfl) rfl (fun _ _ => rfl) fun h0 =>
          (h.steady 0 h0).frame le_rfl le_rfl (fun _ => le_rfl) fun _ _ _ => rfl
      exact ih hgood hclock

theorem good_initial (hv : 0 < a.initialValidityIntervalMS) (hstart : 0 ≤ a.systemStartMs) :
    Good a u 0 a.systemStartMs (initial a m) := by
  have hpos := Settings.minUpdatePeriodMS_pos hv
  have hdue : ∀ k, (initial a m).due k = a.systemStartMs + ⌊a.minUpdatePeriodMS⌋ :=
    fun _ => floor_truncate hstart hpos.le
  have hle : ⌊a.minUpdatePeriodMS⌋ ≤ ⌊a.maxUpdatePeriodMS⌋ := by
    rw [a.maxUpdatePeriodMS_eq]
    exact Int.floor_le_floor (le_mul_of_one_le_right hpos.le (by norm_num))
  have hmax : 0 ≤ ⌊a.maxUpdatePeriodMS⌋ := (Int.floor_nonneg.mpr hpos.le).trans hle
  refine ⟨regulated_initial a m, fun k => ?_, fun k => ?_, fun _ => le_rfl, fun t _ => ?_⟩
  · exact (hdue k).ge
  · rw [hdue]
    exact Int.add_le_add_left hle _
  · refine ⟨hstart, ⟨by norm_num [initial, Pc.passed], by norm_num [initial, Pc.passed]⟩,
      fun k _ _ => ?_, nofun, nofun⟩
    exact add_nonneg hstart hmax

end Invariant

/-! ## What holds of every run -/

/-- The refreshes of a data item are spaced by the lower limit of the update period, however the
threads and the sampling task interleave and whatever the modes do to the periods: from the end of
one to the start of the next there is at least that much time, and until a moment there are no more
of them than the lower limit fits in since the start. -/
theorem refreshes_paced (a : Settings n) (u : ℤ) (hn : (n : ℤ) < INT_BOUND)
    (hpartition : (n : ℤ) = 30 * u) (hv : 0 < a.initialValidityIntervalMS)
    (hstart : 0 ≤ a.systemStartMs) (es : List (Event n m)) (hclock : Clocked a.systemStartMs es)
    (k : Fin n) :
    let firings := (run u (initial a m) es).firings k
    firings.Pairwise (fun later earlier => earlier.ended + ⌊a.minUpdatePeriodMS⌋ ≤ later.began) ∧
      a.systemStartMs + firings.length * ⌊a.minUpdatePeriodMS⌋ ≤
        lastReading a.systemStartMs es := by
  intro firings
  obtain ⟨ticks, hgood⟩ := (good_initial hv hstart).run hn hpartition hv hstart hclock (m := m)
  have hgap : 0 ≤ ⌊a.minUpdatePeriodMS⌋ :=
    Int.floor_nonneg.mpr (Settings.minUpdatePeriodMS_pos hv).le
  refine ⟨(hgood.paced k).pairwise hgap, ?_⟩
  rw [← nsmul_eq_mul]
  exact (hgood.paced k).count_le.trans (hgood.read k)

/-- A thread passes its data items at 600 ms, and after a tick at 1200 ms. -/
def twoPasses : List (Event 30 1) :=
  List.replicate 123 (.thread 0 600) ++ .server .sampling :: List.replicate 122 (.thread 0 1200)

theorem clocked_replicate {now : ℤ} {es : List (Event n m)} (t : ℕ) (h : Clocked now es)
    (count : ℕ) : Clocked now (List.replicate count (.thread t now) ++ es) := by
  induction count with
  | zero => exact h
  | succ count ih => exact ⟨le_rfl, ih⟩

theorem clocked_twoPasses : Clocked 0 twoPasses := by
  have hend : Clocked 1200 ([] : List (Event 30 1)) := trivial
  have hsecond := clocked_replicate 0 hend 121
  have hfirst : Clocked 600 (.server .sampling :: .thread 0 1200 :: List.replicate 121
    (.thread (n := 30) (m := 1) 0 1200)) :=
    ⟨by norm_num, by simpa using hsecond⟩
  exact ⟨by norm_num, clocked_replicate 0 hfirst 122⟩

/-- The first data item is refreshed in both passes. -/
theorem refreshes_paced_one :
    let a : Settings 30 := ⟨CHRONOS_MODE_FULL, 1000, 1000, 0.5, fun _ => [], 0⟩
    let firings := (run 1 (initial a 1) twoPasses).firings 0
    firings.length = 2 ∧
      firings.Pairwise (fun later earlier => earlier.ended + ⌊a.minUpdatePeriodMS⌋ ≤ later.began) ∧
      a.systemStartMs + firings.length * ⌊a.minUpdatePeriodMS⌋ ≤
        lastReading a.systemStartMs twoPasses :=
  ⟨by decide +kernel,
    refreshes_paced ⟨CHRONOS_MODE_FULL, 1000, 1000, 0.5, fun _ => [], 0⟩ 1 (by norm_num)
      (by norm_num) (by norm_num) le_rfl twoPasses clocked_twoPasses 0⟩

/-- No data item is left stale: when an update thread has passed its data items and sleeps, each of
them has been refreshed, or the server was started, within the validity interval before the pass
began. -/
theorem passes_keep_fresh (a : Settings n) (u : ℤ) (hn : (n : ℤ) < INT_BOUND)
    (hpartition : (n : ℤ) = 30 * u) (hv : 0 < a.initialValidityIntervalMS)
    (hstart : 0 ≤ a.systemStartMs) (es : List (Event n m)) (hclock : Clocked a.systemStartMs es)
    (t : ℕ) (ht : (t : ℤ) < u) :
    let s := run u (initial a m) es
    (s.threads t).pc ≠ .faulted ∧
      ((s.threads t).pc = .sleeping → ∀ k : Fin n, (k.val : ℤ) ∈ slice t →
        (s.threads t).currentTimeMs ≤ s.lastRefresh a k + a.initialValidityIntervalMS) := by
  intro s
  obtain ⟨ticks, hgood⟩ := (good_initial hv hstart).run hn hpartition hv hstart hclock (m := m)
  have hsteady := hgood.steady t ht
  refine ⟨hsteady.unfaulted, fun hpc k hk => ?_⟩
  obtain ⟨hlo, hhi⟩ := (mem_slice (by omega)).mp hk
  have hfresh :=
    hsteady.passed k hlo (by rw [show (s.threads t).pc = .sleeping from hpc]; exact hhi)
  have hmax : a.maxUpdatePeriodMS = a.initialValidityIntervalMS := by
    simp only [Settings.maxUpdatePeriodMS]
    push_cast
    ring
  have hfloor : (⌊a.maxUpdatePeriodMS⌋ : ℚ) ≤ a.initialValidityIntervalMS :=
    (Int.floor_le _).trans_eq hmax
  have hcast : ((s.threads t).currentTimeMs : ℚ) ≤ s.lastRefresh a k + ⌊a.maxUpdatePeriodMS⌋ := by
    exact_mod_cast hfresh
  linarith

/-- After the second pass the thread sleeps, and each of its data items has been refreshed twice. -/
theorem passes_keep_fresh_one :
    let a : Settings 30 := ⟨CHRONOS_MODE_FULL, 1000, 1000, 0.5, fun _ => [], 0⟩
    let s : System 30 1 := run 1 (initial a 1) twoPasses
    (s.threads 0).pc = .sleeping ∧ s.refreshed.length = 60 ∧ ∀ k : Fin 30, (k.val : ℤ) ∈ slice 0 →
      (s.threads 0).currentTimeMs ≤ s.lastRefresh a k + a.initialValidityIntervalMS := by
  have hpc : ((run 1 (initial ⟨CHRONOS_MODE_FULL, 1000, 1000, 0.5,
    fun _ => [], 0⟩ 1) twoPasses).threads 0).pc = .sleeping := by
    decide +kernel
  have hfresh := @passes_keep_fresh 30 1 ⟨CHRONOS_MODE_FULL, 1000, 1000, 0.5,
    fun _ => [], 0⟩ 1 (by norm_num) (by norm_num)
    (by norm_num) le_rfl twoPasses clocked_twoPasses 0 (by norm_num)
  exact ⟨hpc, by decide +kernel, hfresh.2 hpc⟩

end Chronos.RefreshSchedule
