import Chronos.Foundation.LeadsTo

/-! # Workers that serve several queues in turn

A worker tests a queue, takes from it if it was not empty, works, and goes on to the
next queue. If the queue has been emptied after the test, the worker waits there. Some
worker can always go on, and each queue that is not empty is taken from.
-/
namespace Chronos.Foundation

/-- What a worker does at a queue. -/
inductive Phase where
  | testing (left : ℕ)
  | taking
  | waiting
  | working (left : ℕ)

/-- How often a worker tests each queue after its first test, and how many steps it makes
after it has taken an entry and after it has found the queue empty. -/
structure Round (K : ℕ) where
  tests : Fin (K + 1) → ℕ
  busy : Fin (K + 1) → ℕ
  idle : Fin (K + 1) → ℕ

abbrev Place (K : ℕ) := Fin (K + 1) × Phase

/-- The lengths of the queues and the places of the workers. -/
@[ext]
structure Pool (K : ℕ) where
  len : Fin (K + 1) → ℕ
  place : ℕ → Place K

variable {K : ℕ}

def Round.leave (r : Round K) (q : Fin (K + 1)) : ℕ → Place K
  | 0 => (q + 1, .testing (r.tests (q + 1)))
  | left + 1 => (q, .working left)

def Round.next (r : Round K) (nonempty : Prop) [Decidable nonempty] : Place K → Place K
  | (q, .testing 0) => if nonempty then (q, .taking) else r.leave q (r.idle q)
  | (q, .testing (left + 1)) => if nonempty then (q, .testing left) else r.leave q (r.idle q)
  | (q, .taking) => if nonempty then r.leave q (r.busy q) else (q, .waiting)
  | (q, .waiting) => if nonempty then r.leave q (r.busy q) else (q, .waiting)
  | (q, .working left) => r.leave q left

/-- Whether a worker at this place takes an entry if there is one. -/
def Phase.takes : Phase → Bool
  | .taking => true
  | .waiting => true
  | _ => false

def Pool.put (s : Pool K) (q : Fin (K + 1)) : Pool K :=
  { s with len := Function.update s.len q (s.len q + 1) }

def Pool.work (s : Pool K) (r : Round K) (p : ℕ) : Pool K where
  len := if (s.place p).2.takes then Function.update s.len (s.place p).1 (s.len (s.place p).1 - 1)
    else s.len
  place := Function.update s.place p (r.next (0 < s.len (s.place p).1) (s.place p))

/-- Nothing happens, or an entry is put into a queue, or one of the first `n` workers makes a
step. -/
def Pool.Step (r : Round K) (n : ℕ) (s t : Pool K) : Prop :=
  t = s ∨ (∃ q, t = s.put q) ∨ ∃ p < n, t = s.work r p

/-- The worker does not wait, and will not wait where it is if nobody else takes an entry. -/
structure Pool.Ready (s : Pool K) (p : ℕ) : Prop where
  awake : (s.place p).2 ≠ .waiting
  supplied : (s.place p).2 = .taking → 0 < s.len (s.place p).1

section Steps
variable {r : Round K} {n p k : ℕ} {s t : Pool K} {q a : Fin (K + 1)}

theorem work_place_self : (s.work r p).place p = r.next (0 < s.len (s.place p).1) (s.place p) :=
  Function.update_self _ _ _

theorem work_place_ne (hk : p ≠ k) : (s.work r k).place p = s.place p :=
  Function.update_of_ne hk _ _

/-- A queue whose length a step changes is the one that the worker takes from. -/
theorem takes_of_work_len (h : (s.work r k).len q ≠ s.len q) :
    (s.place k).2.takes ∧ (s.place k).1 = q := by
  unfold Pool.work at h
  split at h
  · rename_i htakes
    refine ⟨htakes, ?_⟩
    by_contra hq
    exact h (Function.update_of_ne (Ne.symm hq) _ _)
  · exact absurd rfl h

theorem leave_quiet (left : ℕ) : (r.leave q left).2 ≠ .waiting ∧ (r.leave q left).2 ≠ .taking := by
  cases left <;> simp [Round.leave]

theorem next_of_takes (h : (s.place p).2.takes) (hlen : 0 < s.len (s.place p).1) :
    (s.work r p).place p = r.leave (s.place p).1 (r.busy (s.place p).1) := by
  rw [work_place_self]
  rcases hplace : s.place p with ⟨q, _ | _ | _ | left⟩
  · simp [hplace, Phase.takes] at h
  · simp [Round.next, hplace ▸ hlen]
  · simp [Round.next, hplace ▸ hlen]
  · simp [hplace, Phase.takes] at h

theorem eq_work_of_kept {phase : Phase} (hplace : s.place p = (q, phase))
    (hkept : phase.takes = false ∨ s.len q = 0) (hlen : t.len = s.len)
    (hown : t.place p = r.next (0 < s.len q) (q, phase))
    (hother : ∀ k, k ≠ p → t.place k = s.place k) : t = s.work r p := by
  have hlen' : (s.work r p).len = s.len := by
    simp only [Pool.work, hplace]
    split
    · rename_i htakes
      have hzero : s.len q = 0 := hkept.resolve_left (by simp [htakes])
      rw [show s.len q - 1 = s.len q by omega, Function.update_eq_self]
    · rfl
  refine Pool.ext (hlen.trans hlen'.symm) (funext fun k => ?_)
  by_cases hk : k = p
  · subst hk
    rw [work_place_self, hplace, hown]
  · rw [work_place_ne hk, hother k hk]

theorem eq_work_of_taken {phase : Phase} (hplace : s.place p = (q, phase)) (htakes : phase.takes)
    (hpos : 0 < s.len q) (hlen : t.len = Function.update s.len q (s.len q - 1))
    (hown : t.place p = r.leave q (r.busy q)) (hother : ∀ k, k ≠ p → t.place k = s.place k) :
    t = s.work r p := by
  have hlen' : (s.work r p).len = t.len := by
    rw [hlen]
    simp [Pool.work, hplace, htakes]
  refine Pool.ext hlen'.symm (funext fun k => ?_)
  by_cases hk : k = p
  · subst hk
    rw [next_of_takes (hplace ▸ htakes) (hplace ▸ hpos), hplace, hown]
  · rw [work_place_ne hk, hother k hk]

theorem ready_of_takes (h : (s.place p).2.takes) (hlen : 0 < s.len (s.place p).1) :
    (s.work r p).Ready p where
  awake := by
    rw [next_of_takes h hlen]
    exact (leave_quiet _).1
  supplied htaking := by
    rw [next_of_takes h hlen] at htaking
    exact absurd htaking (leave_quiet _).2

theorem Pool.Ready.work_self (hs : s.Ready p) : (s.work r p).Ready p := by
  by_cases htakes : (s.place p).2.takes
  · refine ready_of_takes htakes (hs.supplied ?_)
    have hawake := hs.awake
    revert htakes hawake
    cases (s.place p).2 <;> simp [Phase.takes]
  · have hlen : (s.work r p).len = s.len := by simp [Pool.work, htakes]
    rcases hplace : s.place p with ⟨q, _ | _ | _ | left⟩
    · rename_i left
      by_cases hq : 0 < s.len q
      · cases left with
        | zero =>
          have hnext : (s.work r p).place p = (q, .taking) := by
            simp [work_place_self, hplace, Round.next, hq]
          exact ⟨by simp [hnext], fun _ => by rw [hnext, hlen]; exact hq⟩
        | succ left =>
          have hnext : (s.work r p).place p = (q, .testing left) := by
            simp [work_place_self, hplace, Round.next, hq]
          exact ⟨by simp [hnext], fun h => by simp [hnext] at h⟩
      · have hnext : (s.work r p).place p = r.leave q (r.idle q) := by
          cases left <;> simp [work_place_self, hplace, Round.next, hq]
        exact
          ⟨by rw [hnext]; exact (leave_quiet _).1, fun h => absurd (hnext ▸ h) (leave_quiet _).2⟩
    · simp [hplace, Phase.takes] at htakes
    · simp [hplace, Phase.takes] at htakes
    · have hnext : (s.work r p).place p = r.leave q left := by
        simp [work_place_self, hplace, Round.next]
      exact ⟨by rw [hnext]; exact (leave_quiet _).1, fun h => absurd (hnext ▸ h) (leave_quiet _).2⟩

/-- A ready worker stays ready in its place, unless another one takes the entry that was there for
it. -/
theorem Pool.Ready.work_ne (hs : s.Ready p) (hk : p ≠ k) :
    ((s.work r k).Ready p ∧ (s.work r k).place p = s.place p) ∨
      ((s.place p).2 = .taking ∧ (s.place k).2.takes ∧ (s.place k).1 = (s.place p).1) := by
  have hplace := work_place_ne (s := s) (r := r) hk
  by_cases hsame : (s.work r k).len (s.place p).1 = s.len (s.place p).1
  · refine Or.inl ⟨⟨by rw [hplace]; exact hs.awake, fun h => ?_⟩, hplace⟩
    rw [hplace] at h ⊢
    rw [hsame]
    exact hs.supplied h
  · obtain ⟨htakes, hq⟩ := takes_of_work_len hsame
    by_cases htaking : (s.place p).2 = .taking
    · exact Or.inr ⟨htaking, htakes, hq⟩
    · exact Or.inl ⟨⟨by rw [hplace]; exact hs.awake, fun h => absurd (hplace ▸ h) htaking⟩, hplace⟩

theorem Pool.Ready.put (hs : s.Ready p) (q : Fin (K + 1)) : (s.put q).Ready p where
  awake := hs.awake
  supplied h := by
    have hlen := hs.supplied h
    change 0 < Function.update s.len q (s.len q + 1) (s.place p).1
    by_cases hq : (s.place p).1 = q
    · rw [hq, Function.update_self]
      omega
    · rwa [Function.update_of_ne hq]

/-- Among the workers there always is a ready one. -/
theorem ready_step (hstep : Pool.Step r n s t) (hready : ∃ p < n, s.Ready p) :
    ∃ p < n, t.Ready p := by
  obtain ⟨p, hp, hs⟩ := hready
  rcases hstep with rfl | ⟨q, rfl⟩ | ⟨k, hk, rfl⟩
  · exact ⟨p, hp, hs⟩
  · exact ⟨p, hp, hs.put q⟩
  · by_cases hkp : p = k
    · subst hkp
      exact ⟨p, hp, hs.work_self⟩
    · rcases hs.work_ne (r := r) hkp with ⟨hs', -⟩ | ⟨htaking, htakes, hq⟩
      · exact ⟨p, hp, hs'⟩
      · exact ⟨k, hk, ready_of_takes htakes (hq ▸ hs.supplied htaking)⟩

/-! ## The way to a queue -/

/-- How far a worker at a place is from taking an entry of queue `a`: queues, then what is left of
its visit to the current one. A worker that has just taken an entry of `a` has a whole round before
it. -/
def distance (a : Fin (K + 1)) : Place K → ℕ ×ₗ ℕ ×ₗ ℕ
  | (q, .testing left) => toLex ((a - q).val, toLex (2, left))
  | (q, .taking) => toLex ((a - q).val, toLex (1, 0))
  | (q, .waiting) => toLex ((a - q).val, toLex (1, 0))
  | (q, .working left) => toLex (if q = a then K + 1 else (a - q).val, toLex (0, left))

theorem sub_succ_lt (hq : q ≠ a) : (a - (q + 1)).val < (a - q).val := by
  have hne : a - q ≠ 0 := fun h => hq (sub_eq_zero.mp h).symm
  have hpos : 0 < (a - q).val := Nat.pos_of_ne_zero fun h => hne (Fin.ext h)
  rw [← sub_sub, Fin.val_sub_one_of_ne_zero hne]
  omega

/-- Leaving another queue brings a worker closer. -/
theorem distance_leave_lt (hq : q ≠ a) (left : ℕ) :
    distance a (r.leave q left) < distance a (q, .taking) := by
  cases left with
  | zero =>
    simp only [Round.leave, distance, Prod.Lex.toLex_lt_toLex]
    exact Or.inl (sub_succ_lt hq)
  | succ left => simp [Round.leave, distance, Prod.Lex.toLex_lt_toLex, hq]

theorem distance_taking_lt (left : ℕ) :
    distance a (q, .taking) < distance a (q, .testing left) := by
  simp [distance, Prod.Lex.toLex_lt_toLex]

theorem distance_working_lt (left : ℕ) :
    distance a (r.leave q left) < distance a (q, .working left) := by
  cases left with
  | zero =>
    simp only [Round.leave, distance, Prod.Lex.toLex_lt_toLex]
    by_cases hq : q = a
    · rw [if_pos hq]
      exact Or.inl (Fin.is_lt _)
    · rw [if_neg hq]
      exact Or.inl (sub_succ_lt hq)
  | succ left => simp [Round.leave, distance, Prod.Lex.toLex_lt_toLex]

/-- A ready worker takes an entry of queue `a` with its next step, or comes closer to it. -/
theorem Pool.Ready.closer (hs : s.Ready p) (ha : 0 < s.len a) :
    (s.work r p).len a < s.len a ∨ distance a ((s.work r p).place p) < distance a (s.place p) := by
  rw [work_place_self]
  rcases hplace : s.place p with ⟨q, _ | _ | _ | left⟩
  · rename_i left
    right
    by_cases hq : 0 < s.len q
    · cases left with
      | zero => simpa [Round.next, hq] using distance_taking_lt (a := a) (q := q) 0
      | succ left => simp [Round.next, hq, distance, Prod.Lex.toLex_lt_toLex]
    · have hne : q ≠ a := fun h => hq (h ▸ ha)
      have hlt := (distance_leave_lt (r := r) hne (r.idle q)).trans (distance_taking_lt left)
      cases left <;> simpa [Round.next, hq] using hlt
  · have hlen : 0 < s.len q := by simpa [hplace] using hs.supplied (by simp [hplace])
    by_cases hq : q = a
    · left
      subst hq
      simp only [Pool.work, hplace, Phase.takes, if_true, Function.update_self]
      omega
    · right
      simpa [Round.next, hlen] using distance_leave_lt (r := r) hq (r.busy q)
  · exact absurd (by simp [hplace]) hs.awake
  · right
    simpa [Round.next] using distance_working_lt (r := r) (a := a) (q := q) left

end Steps

/-! ## Schedules -/

section Schedules
variable {r : Round K} {n : ℕ} {pool : ℕ → Pool K}

/-- In no moment do all workers wait. -/
theorem never_all_waiting (hstep : ∀ i, Pool.Step r n (pool i) (pool (i + 1)))
    (hstart : ∃ p < n, (pool 0).Ready p) (i : ℕ) : ∃ p < n, (pool i).Ready p := by
  induction i with
  | zero => exact hstart
  | succ i ih => exact ready_step (hstep i) ih

/-- If every worker keeps making steps, each queue that is not empty is taken from. -/
theorem queue_served (hstep : ∀ i, Pool.Step r n (pool i) (pool (i + 1)))
    (hstart : ∃ p < n, (pool 0).Ready p)
    (hfair : ∀ p < n, ∀ i, ∃ j ≥ i, pool (j + 1) = (pool j).work r p) (a : Fin (K + 1)) :
    LeadsTo (fun i => 0 < (pool i).len a) fun i => (pool (i + 1)).len a < (pool i).len a := by
  have hway : LeadsTo (fun i => ∃ d, ∃ p, p < n ∧ 0 < (pool i).len a ∧ (pool i).Ready p ∧
      distance a ((pool i).place p) = d) fun i => (pool (i + 1)).len a < (pool i).len a := by
    refine LeadsTo.of_decreasing fun d => LeadsTo.exists fun p => ?_
    by_cases hp : p < n
    swap
    · exact fun i hi => absurd hi.1 hp
    refine LeadsTo.of_recurrent (fun _ => 0) (hfair p hp) fun i ⟨_, ha, hs, hd⟩ => ?_
    by_cases hshort : (pool (i + 1)).len a < (pool i).len a
    · exact Or.inl (Or.inl hshort)
    have ha' : 0 < (pool (i + 1)).len a := lt_of_lt_of_le ha (not_lt.mp hshort)
    by_cases hown : pool (i + 1) = (pool i).work r p
    · right; left; right
      have hcloser := (hs.closer (r := r) ha).resolve_left (hown ▸ hshort)
      exact ⟨_, hd ▸ hcloser, p, hp, ha', hown ▸ hs.work_self, by rw [hown]⟩
    · rcases hstep i with hsame | ⟨q, hput⟩ | ⟨k, hk, hwork⟩
      · right; right
        exact ⟨⟨hp, ha', hsame ▸ hs, by rw [hsame, hd]⟩, le_rfl, fun h => absurd h hown⟩
      · right; right
        exact ⟨⟨hp, ha', hput ▸ hs.put q, by rw [hput]; exact hd⟩, le_rfl, fun h => absurd h hown⟩
      · have hkp : p ≠ k := by
          rintro rfl
          exact hown hwork
        rcases hs.work_ne (r := r) hkp with ⟨hs', hplace⟩ | ⟨htaking, htakes, hq⟩
        · right; right
          exact ⟨⟨hp, ha', hwork ▸ hs', by rw [hwork, hplace, hd]⟩, le_rfl, fun h => absurd h hown⟩
        · -- the worker that took the entry is ahead of the one that would have taken it
          right; left; right
          have hlen : 0 < (pool i).len ((pool i).place k).1 := hq ▸ hs.supplied htaking
          have hne : ((pool i).place p).1 ≠ a := by
            intro hqa
            apply hshort
            rw [hwork]
            simp only [Pool.work, htakes, if_true, hq, hqa, Function.update_self]
            omega
          refine ⟨_, ?_, k, hk, ha', hwork ▸ ready_of_takes htakes hlen, rfl⟩
          have hplace : (pool i).place p = (((pool i).place p).1, .taking) := Prod.ext rfl htaking
          rw [hwork, next_of_takes htakes hlen, hq, ← hd, hplace]
          exact distance_leave_lt hne _
  intro i hi
  obtain ⟨p, hp, hs⟩ := never_all_waiting hstep hstart i
  exact hway i ⟨_, p, hp, hi, hs, rfl⟩

end Schedules

end Chronos.Foundation
