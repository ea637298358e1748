import Chronos.Server.Packet

/-! # The update threads and their slices of the data items

`main` hands every update thread a pointer into `dataItemsArray` and a fixed number
of data items. A thread passes over its slice again and again and refreshes the items
whose time has come, while the other threads and the sampling task run in between.
-/
namespace Chronos.UpdateThreads
open Packet Sampling

abbrev CHRONOS_NUM_UPDATE_THREADS : ℤ := 100
abbrev CHRONOS_NUM_STOCK_UPDATES_PER_UPDATE_THREAD : ℤ := 30

/-- `numUpdateThreads` after `processArguments`, with the value of `-u` if it is given. -/
def processArguments (u : Option ℤ) : Except String ℤ :=
  let numUpdateThreads := u.getD CHRONOS_NUM_UPDATE_THREADS
  if numUpdateThreads ≤ 0 then .error "number of update threads must be > 0"
    else .ok numUpdateThreads

/-- What `main` tells an update thread; the pointer is an index into `dataItemsArray`. -/
structure UpdateParameters where
  firstSymbolId : ℤ
  dataItemsArray : ℤ
  numStocks : ℤ
deriving DecidableEq

def updateParameters (i : ℕ) : UpdateParameters where
  firstSymbolId := int32 (i * CHRONOS_NUM_STOCK_UPDATES_PER_UPDATE_THREAD)
  dataItemsArray := int32 (i * CHRONOS_NUM_STOCK_UPDATES_PER_UPDATE_THREAD)
  numStocks := CHRONOS_NUM_STOCK_UPDATES_PER_UPDATE_THREAD

def slice (i : ℕ) : Set ℤ :=
  {k | (updateParameters i).dataItemsArray ≤ k ∧
    k < (updateParameters i).dataItemsArray + (updateParameters i).numStocks}

/-- The local variables of `updateThread`; between two passes `i` is `num_updates`. -/
structure UpdateThread where
  i : ℤ
  currentTimeMs : ℤ

variable {n m : ℕ}

/-- The server with its update threads, and which thread refreshed which data item so far. -/
structure System (n m : ℕ) where
  context : ServerContext n m
  threads : ℕ → UpdateThread
  refreshed : List (ℕ × Fin n)

def initial (a : Settings n) (m : ℕ) : System n m where
  context := a.initial m
  threads i := ⟨(updateParameters i).numStocks, 0⟩
  refreshed := []

inductive Event where
  | startPass (thread : ℕ) (currentTimeMs : ℤ)
  | dataItem (thread : ℕ) (nextUpdateTimeMs : ℤ)
  | sampling

/-- The body of the loop of `updateThread` over its data items. -/
def refreshItem (s : System n m) (t : ℕ) (nextUpdateTimeMs : ℤ) : Except Fault (System n m) := do
  let thread := s.threads t
  let k ← at? .dataItemsArray n ((updateParameters t).dataItemsArray + thread.i)
  let s := { s with threads := Function.update s.threads t { thread with i := thread.i + 1 } }
  if (s.context.dataItemsArray k).nextUpdateTimeMS ≤ thread.currentTimeMs then
    return { s with context := updateThread s.context k nextUpdateTimeMs, refreshed :=
      (t, k) :: s.refreshed }
  else return s

/-- One step of one of the `u` update threads or of the sampling task. -/
def step (u : ℤ) (s : System n m) : Event → Except Fault (System n m)
  | .startPass t currentTimeMs =>
    if t < u ∧ (updateParameters t).numStocks ≤ (s.threads t).i then
      .ok { s with threads := Function.update s.threads t ⟨0, currentTimeMs⟩ }
    else .ok s
  | .dataItem t nextUpdateTimeMs =>
    if t < u ∧ (s.threads t).i < (updateParameters t).numStocks then
      refreshItem s t nextUpdateTimeMs else .ok s
  | .sampling => .ok { s with context := handlerSampling s.context }

def run (u : ℤ) (s : System n m) (es : List Event) : Except Fault (System n m) :=
  es.foldlM (step u) s

/-! ## The slices -/

theorem mem_slice {i : ℕ} (hi : (i : ℤ) * 30 < INT_BOUND) {k : ℤ} :
    k ∈ slice i ↔ (i : ℤ) * 30 ≤ k ∧ k < (i : ℤ) * 30 + 30 := by
  have hself : int32 ((i : ℤ) * 30) = i * 30 := int32_eq_self (by omega) hi
  simp only [slice, updateParameters, CHRONOS_NUM_STOCK_UPDATES_PER_UPDATE_THREAD, hself,
    Set.mem_ofPred_eq]

/-- The slices of `u` threads lie inside the array, are disjoint and leave no item out. -/
structure Partition (n : ℕ) (u : ℤ) : Prop where
  inside : ∀ t : ℕ, t < u → ∀ k ∈ slice t, 0 ≤ k ∧ k < n
  disjoint : ∀ t t' : ℕ, t < u → t' < u → t ≠ t' → Disjoint (slice t) (slice t')
  covers : ∀ k : ℤ, 0 ≤ k → k < n → ∃ t : ℕ, t < u ∧ k ∈ slice t

theorem partition_of_eq {u : ℤ} (hn : (n : ℤ) < INT_BOUND) (h : (n : ℤ) = 30 * u) :
    Partition n u := by
  have hsmall : ∀ t : ℕ, t < u → (t : ℤ) * 30 < INT_BOUND := by
    intro t ht
    omega
  refine ⟨?_, ?_, ?_⟩
  · intro t ht k hk
    obtain ⟨hlo, hhi⟩ := (mem_slice (hsmall t ht)).mp hk
    omega
  · intro t t' ht ht' hne
    rw [Set.disjoint_left]
    intro k hk hk'
    obtain ⟨hlo, hhi⟩ := (mem_slice (hsmall t ht)).mp hk
    obtain ⟨hlo', hhi'⟩ := (mem_slice (hsmall t' ht')).mp hk'
    omega
  · intro k hlo hhi
    have ht : ((k / 30).toNat : ℤ) < u := by omega
    exact ⟨(k / 30).toNat, ht, (mem_slice (hsmall _ ht)).mpr (by omega)⟩

/-- With too many threads one of them is handed indices past the end, with too few the
last data items belong to nobody. -/
theorem Partition.eq {u : ℤ} (hu : 0 < u) (hn : (n : ℤ) < INT_BOUND) (h : Partition n u) :
    (n : ℤ) = 30 * u := by
  have hbound : INT_BOUND = 2147483648 := by norm_num
  have hlast : ∃ t : ℕ, t < u ∧ (t : ℤ) * 30 < INT_BOUND ∧
    ((t : ℤ) + 1 = u ∨ INT_BOUND ≤ (t : ℤ) * 30 + 30) := by
    by_cases hbig : u ≤ 71582788
    · exact ⟨(u - 1).toNat, by omega, by omega, Or.inl (by omega)⟩
    · exact ⟨71582788, by omega, by omega, Or.inr (by omega)⟩
  obtain ⟨t, ht, hsmall, hend⟩ := hlast
  have hinside := h.inside t ht (t * 30 + 29) ((mem_slice hsmall).mpr (by omega))
  by_contra hne
  obtain ⟨t', ht', hmem⟩ := h.covers (30 * u) (by omega) (by omega)
  obtain ⟨-, hlt⟩ := (mem_slice (by omega)).mp hmem
  omega

/-! ## What the threads do with their slices -/

theorem run_cons (u : ℤ) (s : System n m) (ev : Event) (es : List Event) :
    run u s (ev :: es) = step u s ev >>= fun s' => run u s' es := List.foldlM_cons

theorem run_append (u : ℤ) (s : System n m) (es es' : List Event) :
    run u s (es ++ es') = run u s es >>= fun s' => run u s' es' := List.foldlM_append

/-- The loop counters are no negative numbers, and whoever refreshed an item has it in its slice. -/
structure Owned (u : ℤ) (s : System n m) : Prop where
  nonneg : ∀ t, 0 ≤ (s.threads t).i
  owner : ∀ t k, (t, k) ∈ s.refreshed → t < u ∧ (k.val : ℤ) ∈ slice t

theorem owned_initial (u : ℤ) (a : Settings n) : Owned u (initial a m) where
  nonneg t := by simp [initial, updateParameters]
  owner t k h := by simp [initial] at h

def System.advance (s : System n m) (t : ℕ) : System n m :=
  { s with threads := Function.update s.threads t { s.threads t with i := (s.threads t).i + 1 } }

def System.refresh (s : System n m) (t : ℕ) (k : Fin n) (nextUpdateTimeMs : ℤ) : System n m :=
  { s.advance t with
    context := updateThread s.context k nextUpdateTimeMs
    refreshed := (t, k) :: s.refreshed }

theorem refreshItem_eq {s : System n m} {t : ℕ} {k : Fin n}
    (hk : (k.val : ℤ) = (updateParameters t).dataItemsArray + (s.threads t).i) (next : ℤ) :
    refreshItem s t next = .ok
      (if (s.context.dataItemsArray k).nextUpdateTimeMS ≤ (s.threads t).currentTimeMs
      then s.refresh t k next else s.advance t) := by
  unfold refreshItem
  simp only [at_eq_ok.mpr hk, ok_bind]
  split <;> rfl

theorem advance_i (s : System n m) (t t' : ℕ) :
    ((s.advance t).threads t').i = if t' = t then (s.threads t').i + 1 else (s.threads t').i := by
  by_cases heq : t' = t
  · subst heq
    simp [System.advance]
  · simp [System.advance, heq]

/-- One round of the loop stays inside the slice, and so inside the array. -/
theorem Owned.refreshItem {u : ℤ} {s : System n m} (h : Owned u s) (hp : Partition n u) {t : ℕ}
    (ht : t < u) (hi : (s.threads t).i < (updateParameters t).numStocks) (next : ℤ) :
    ∃ s', refreshItem s t next = .ok s' ∧ Owned u s' := by
  have hmem : (updateParameters t).dataItemsArray + (s.threads t).i ∈ slice t := by
    have := h.nonneg t
    simp only [slice, Set.mem_ofPred_eq]
    omega
  obtain ⟨hlo, hhi⟩ := hp.inside t ht _ hmem
  obtain ⟨j, hj⟩ := Int.eq_ofNat_of_zero_le hlo
  obtain ⟨k, hk⟩ : ∃ k : Fin n, (k.val : ℤ) =
    (updateParameters t).dataItemsArray + (s.threads t).i :=
    ⟨⟨j, by omega⟩, hj.symm⟩
  have hnonneg : ∀ t', 0 ≤ ((s.advance t).threads t').i := by
    intro t'
    have := h.nonneg t'
    rw [advance_i]
    split <;> omega
  refine ⟨_, refreshItem_eq hk next, ?_⟩
  split
  · refine ⟨hnonneg, ?_⟩
    intro t' k' hmem'
    rcases List.mem_cons.mp hmem' with heq | hmem'
    · obtain ⟨rfl, rfl⟩ := Prod.mk.inj heq
      exact ⟨ht, hk ▸ hmem⟩
    · exact h.owner t' k' hmem'
  · exact ⟨hnonneg, h.owner⟩

theorem Owned.step {u : ℤ} {s : System n m} (h : Owned u s) (hp : Partition n u) (ev : Event) :
    ∃ s', step u s ev = .ok s' ∧ Owned u s' := by
  cases ev with
  | startPass t currentTimeMs =>
    simp only [UpdateThreads.step]
    split_ifs with hgo
    · refine ⟨_, rfl, ?_, h.owner⟩
      intro t'
      by_cases heq : t' = t
      · subst heq
        simp
      · simp only [Function.update_of_ne heq]
        exact h.nonneg t'
    · exact ⟨s, rfl, h⟩
  | dataItem t next =>
    simp only [UpdateThreads.step]
    split_ifs with hgo
    · exact h.refreshItem hp hgo.1 hgo.2 next
    · exact ⟨s, rfl, h⟩
  | sampling => exact ⟨_, rfl, h.nonneg, h.owner⟩

theorem Owned.run {u : ℤ} {s : System n m} (h : Owned u s) (hp : Partition n u) (es : List Event) :
    ∃ s', run u s es = .ok s' ∧ Owned u s' := by
  induction es generalizing s with
  | nil => exact ⟨s, rfl, h⟩
  | cons ev es ih =>
    obtain ⟨s₁, hstep, h₁⟩ := h.step hp ev
    obtain ⟨s', hrun, h'⟩ := ih h₁
    exact ⟨s', by rw [run_cons, hstep, ok_bind, hrun], h'⟩

/-- A thread in the middle of a pass that has come to the `j`-th item of its slice, with an
item `k` further on that is still due. -/
structure Approaching (s : System n m) (t : ℕ) (j : ℕ) (k : Fin n) : Prop where
  counter : (s.threads t).i = j
  due : (s.context.dataItemsArray k).nextUpdateTimeMS ≤ (s.threads t).currentTimeMs

theorem Approaching.next {u : ℤ} {s : System n m} {t j : ℕ} {k k' : Fin n} (h : Approaching s t j k)
    (ht : t < u) (hk' : (k'.val : ℤ) = (updateParameters t).dataItemsArray + j) (hne : k ≠ k')
    (hj : j < (updateParameters t).numStocks) :
    ∃ s', step u s (.dataItem t 0) = .ok s' ∧ Approaching s' t (j + 1) k := by
  have hi : (s.threads t).i < (updateParameters t).numStocks := by rw [h.counter]; exact hj
  have hadvance : ((s.advance t).threads t).i = (j + 1 : ℕ) := by
    rw [advance_i, if_pos rfl, h.counter]
    omega
  have htime : ((s.advance t).threads t).currentTimeMs = (s.threads t).currentTimeMs := by
    simp [System.advance]
  have hstep : step u s (.dataItem t 0) = refreshItem s t 0 := by
    simp only [step]
    rw [if_pos ⟨ht, hi⟩]
  rw [hstep, refreshItem_eq (by rw [hk', h.counter])]
  refine ⟨_, rfl, ?_⟩
  split
  · refine ⟨hadvance, ?_⟩
    have hkeep : ((updateThread s.context k' 0).dataItemsArray k) = s.context.dataItemsArray k := by
      simp only [updateThread, ServerContext.modifyItem, Function.update_of_ne hne]
    exact (congrArg ChronosDataItem.nextUpdateTimeMS hkeep).trans_le (h.due.trans_eq htime.symm)
  · exact ⟨hadvance, h.due.trans_eq htime.symm⟩

/-- Within one pass over its slice a thread comes to every item of it. -/
theorem approaching_run {u : ℤ} {s : System n m} {t : ℕ} {k : Fin n} (hp : Partition n u)
    (ht : t < u) (h : Approaching s t 0 k) (j : ℕ)
    (hj : (updateParameters t).dataItemsArray + j ≤ k)
    (hlast : j < (updateParameters t).numStocks) :
    ∃ s', run u s (List.replicate j (.dataItem t 0)) = .ok s' ∧ Approaching s' t j k := by
  induction j with
  | zero => exact ⟨s, rfl, h⟩
  | succ j ih =>
    obtain ⟨s₁, hrun, h₁⟩ := ih (by omega) (by omega)
    have hmem : (updateParameters t).dataItemsArray + j ∈ slice t := by
      simp only [slice, Set.mem_ofPred_eq]
      omega
    obtain ⟨hlo, hhi⟩ := hp.inside t ht _ hmem
    obtain ⟨i, hi⟩ := Int.eq_ofNat_of_zero_le hlo
    have hk' : (((⟨i, by omega⟩ : Fin n).val : ℕ) : ℤ) = (updateParameters t).dataItemsArray + j :=
      hi.symm
    have hne : k ≠ ⟨i, by omega⟩ := by
      intro heq
      have hval : k.val = i := congrArg Fin.val heq
      omega
    obtain ⟨s', hstep, h'⟩ := h₁.next ht hk' hne (by omega)
    refine ⟨s', ?_, h'⟩
    rw [List.replicate_succ', run_append, hrun, ok_bind, run_cons, hstep, ok_bind]
    rfl

def Refreshes (a : Settings n) (m : ℕ) (u : ℤ) (t : ℕ) (k : Fin n) : Prop :=
  ∃ es s, run u (initial a m) es = .ok s ∧ (t, k) ∈ s.refreshed

theorem refreshes_of_mem (a : Settings n) (m : ℕ) {u : ℤ} {t : ℕ} {k : Fin n} (hp : Partition n u)
    (ht : t < u) (hk : (k.val : ℤ) ∈ slice t) : Refreshes a m u t k := by
  let now := (a.dataItem k).nextUpdateTimeMS
  let s₀ : System n m :=
    { initial a m with threads := Function.update (initial a m).threads t ⟨0, now⟩ }
  have hstart : step u (initial a m) (.startPass t now) = .ok s₀ := by
    have hidle : (updateParameters t).numStocks ≤ ((initial a m).threads t).i := le_refl _
    simp only [step]
    rw [if_pos ⟨ht, hidle⟩]
  obtain ⟨j, hj⟩ :=
    Int.eq_ofNat_of_zero_le (show 0 ≤ (k.val : ℤ) - (updateParameters t).dataItemsArray by
    have := hk.1
    omega)
  have hlast : (j : ℤ) < (updateParameters t).numStocks := by
    have := hk.2
    omega
  have happ : Approaching s₀ t 0 k := ⟨by simp [s₀], by simp [s₀, initial, Settings.initial, now]⟩
  obtain ⟨s₁, hrun, h₁⟩ := approaching_run hp ht happ j (by omega) hlast
  have hitem : step u s₁ (.dataItem t 0) = .ok (s₁.refresh t k 0) := by
    have hi : (s₁.threads t).i < (updateParameters t).numStocks := by rw [h₁.counter]; exact hlast
    have hk₁ : (k.val : ℤ) = (updateParameters t).dataItemsArray + (s₁.threads t).i := by
      rw [h₁.counter]
      omega
    simp only [step]
    rw [if_pos ⟨ht, hi⟩, refreshItem_eq hk₁, if_pos h₁.due]
  refine ⟨.startPass t now :: (List.replicate j (.dataItem t 0) ++ [.dataItem t 0]),
    s₁.refresh t k 0, ?_, ?_⟩
  · rw [run_cons, hstart, ok_bind, run_append, hrun, ok_bind, run_cons, hitem, ok_bind]
    rfl
  · exact List.mem_cons_self

/-- No run of the threads leaves the array, and every data item has one thread that refreshes it. -/
structure RefreshedByOne (n : ℕ) (u : ℤ) : Prop where
  safe : ∀ (a : Settings n) (m : ℕ) (es : List Event), Handled (run u (initial a m) es)
  one : ∀ (a : Settings n) (m : ℕ) (k : Fin n), ∃! t, Refreshes a m u t k

theorem Partition.refreshedByOne {u : ℤ} (hp : Partition n u) : RefreshedByOne n u where
  safe a m es := by
    obtain ⟨s, hrun, -⟩ := (owned_initial u a).run hp (m := m) es
    exact ⟨s, hrun⟩
  one a m k := by
    obtain ⟨t, ht, hk⟩ := hp.covers k (by omega) (by omega)
    refine ⟨t, refreshes_of_mem a m hp ht hk, ?_⟩
    rintro t' ⟨es, s, hrun, hmem⟩
    obtain ⟨s', hrun', hs'⟩ := (owned_initial u a).run hp (m := m) es
    obtain rfl := Except.ok.inj (hrun.symm.trans hrun')
    obtain ⟨ht', hk'⟩ := hs'.owner t' k hmem
    by_contra hne
    exact Set.disjoint_left.mp (hp.disjoint t' t ht' ht hne) hk' hk

/-- Whatever value of `-u` is accepted, the update threads divide the data items among them
exactly if there are thirty times as many items as threads. -/
theorem updateThreads_partition_iff (arg : Option ℤ) (u : ℤ) (hu : processArguments arg = .ok u)
    (hn : (n : ℤ) < INT_BOUND) : Partition n u ∧ RefreshedByOne n u ↔ (n : ℤ) = 30 * u := by
  have hpos : 0 < u := by
    simp only [processArguments] at hu
    split_ifs at hu with hle
    · obtain rfl := Except.ok.inj hu
      omega
  constructor
  · rintro ⟨hp, -⟩
    exact hp.eq hpos hn
  · intro h
    have hp := partition_of_eq hn h
    exact ⟨hp, hp.refreshedByOne⟩

/-- The shipped numbers of threads and stocks fit. -/
theorem updateThreads_partition_default : Partition 3000 100 ∧ RefreshedByOne 3000 100 :=
  (updateThreads_partition_iff none 100 rfl (by norm_num)).mpr (by norm_num)

/-- One thread for one data item goes on to the next one, and of 31 items it leaves the last one
out. -/
theorem updateThreads_no_partition :
    processArguments (some 1) = .ok 1 ∧
    ¬ Handled (run 1 (initial (⟨0, 1000, 1, 0, fun _ => [65], 0⟩ : Settings 1) 1)
      [.startPass 0 0, .dataItem 0 0, .dataItem 0 0]) ∧
    ¬ ∃ t : ℕ, (t : ℤ) < 1 ∧ (30 : ℤ) ∈ slice t := by
  refine ⟨rfl, ?_, ?_⟩
  · have hfault : (fun _ => ()) <$> run 1
      (initial (⟨0, 1000, 1, 0, fun _ => [65], 0⟩ : Settings 1) 1)
        [.startPass 0 0, .dataItem 0 0, .dataItem 0 0] = .error
          (.outOfBounds .dataItemsArray 1) := by
      decide +kernel
    rw [← handled_map (f := fun _ => ()), hfault]
    exact not_handled_error _
  · rintro ⟨t, ht, hmem⟩
    obtain rfl : t = 0 := by omega
    exact absurd hmem.2 (by decide)

end Chronos.UpdateThreads
