import Mathlib

/-! # Tables of records under transactions

Every key has a committed record, and a pending one while some transaction has
written it and not ended. A transaction sees its own writes over what is committed;
commit makes them the committed records, abort drops them. A cursor walk goes from
each key to the least one above it.
-/
namespace Chronos.Foundation

variable {K T V : Type}

/-! ## Cells -/

structure Cell (T V : Type) where
  committed : Option V
  pending : Option (T × V)

namespace Cell

def empty : Cell T V := ⟨none, none⟩

def write (t : T) (v : V) (c : Cell T V) : Cell T V := { c with pending := some (t, v) }

@[simp] theorem committed_write {t : T} {v : V} {c : Cell T V} :
    (c.write t v).committed = c.committed := rfl

variable [DecidableEq T]

def own (t : T) (c : Cell T V) : Option V :=
  c.pending.bind fun p => if p.1 = t then some p.2 else none

def view (t : T) (c : Cell T V) : Option V := (c.own t).or c.committed

def lockedByOther (t : T) (c : Cell T V) : Bool := c.pending.any fun p => p.1 ≠ t

def commit (t : T) (c : Cell T V) : Cell T V :=
  match c.own t with
  | some v => ⟨some v, none⟩
  | none => c

def abort (t : T) (c : Cell T V) : Cell T V :=
  match c.own t with
  | some _ => { c with pending := none }
  | none => c

section Lemmas
variable {t t' : T} {v : V} {c : Cell T V}

@[simp] theorem own_empty : (empty : Cell T V).own t = none := rfl
@[simp] theorem view_empty : (empty : Cell T V).view t = none := rfl
@[simp] theorem own_write : (c.write t v).own t = some v := by simp [own, write]
@[simp] theorem view_write : (c.write t v).view t = some v := by simp [view]
theorem own_write_ne (h : t' ≠ t) (hfree : c.lockedByOther t = false) :
    (c.write t v).own t' = c.own t' := by
  obtain ⟨_, _ | ⟨t₀, v₀⟩⟩ := c
  · simp [own, write, h.symm]
  · have ht : t₀ = t := by simpa [lockedByOther] using hfree
    simp [own, write, ht, h.symm]

theorem view_of_own (h : c.own t = some v) : c.view t = some v := by simp [view, h]

theorem view_eq_committed (h : c.own t = none) : c.view t = c.committed := by simp [view, h]

@[simp] theorem committed_commit : (c.commit t).committed = c.view t := by
  unfold commit view
  cases c.own t <;> rfl

@[simp] theorem committed_abort : (c.abort t).committed = c.committed := by
  unfold abort
  cases c.own t <;> rfl

@[simp] theorem own_commit_self : (c.commit t).own t = none := by
  unfold commit
  cases h : c.own t
  · exact h
  · rfl

@[simp] theorem own_abort_self : (c.abort t).own t = none := by
  unfold abort
  cases h : c.own t
  · exact h
  · rfl

theorem own_eq_none_of_own (h : c.own t = some v) (hne : t' ≠ t) : c.own t' = none := by
  obtain ⟨_, _ | ⟨t₀, v₀⟩⟩ := c
  · rfl
  · have ht : t₀ = t := by
      by_contra hn
      simp [own, hn] at h
    simp [own, ht, hne.symm]

theorem own_commit_ne (h : t' ≠ t) : (c.commit t).own t' = c.own t' := by
  unfold commit
  cases hc : c.own t with
  | none => rfl
  | some v => exact (own_eq_none_of_own hc h).symm

theorem own_abort_ne (h : t' ≠ t) : (c.abort t).own t' = c.own t' := by
  unfold abort
  cases hc : c.own t with
  | none => rfl
  | some v => exact (own_eq_none_of_own hc h).symm

/-- What another transaction has written is not lost or changed by a commit. -/
theorem committed_commit_of_own (h : c.own t' = some v) (hne : t' ≠ t) :
    (c.commit t).committed = c.committed := by
  rw [committed_commit, view_eq_committed (own_eq_none_of_own h hne.symm)]

theorem lockedByOther_of_own (h : c.own t' = some v) (hne : t' ≠ t) : c.lockedByOther t = true := by
  obtain ⟨_, _ | ⟨t₀, v₀⟩⟩ := c
  · simp [own] at h
  · have ht : t₀ = t' := by
      by_contra hn
      simp [own, hn] at h
    simpa [lockedByOther, ht] using hne

theorem lockedByOther_eq_false_of_own (h : c.own t = some v) : c.lockedByOther t = false := by
  obtain ⟨_, _ | ⟨t₀, v₀⟩⟩ := c
  · rfl
  · have ht : t₀ = t := by
      by_contra hn
      simp [own, hn] at h
    simp [lockedByOther, ht]

theorem commit_of_own_none (h : c.own t = none) : c.commit t = c := by
  unfold commit
  rw [h]

theorem abort_of_own_none (h : c.own t = none) : c.abort t = c := by
  unfold abort
  rw [h]

theorem own_of_pending_none (h : c.pending = none) : c.own t = none := by simp [own, h]

theorem lockedByOther_commit (h : c.lockedByOther t = false) :
    (c.commit t).lockedByOther t = false := by
  unfold commit
  split
  · rfl
  · exact h

theorem lockedByOther_abort (h : c.lockedByOther t = false) :
    (c.abort t).lockedByOther t = false := by
  unfold abort
  split
  · rfl
  · exact h

end Lemmas

end Cell

/-! ## Tables -/

/-- Finitely many cells in use, listed once each. -/
structure LockTable (K T V : Type) where
  keys : List K
  cell : K → Cell T V
  nodup : keys.Nodup
  complete : ∀ k, k ∉ keys → cell k = Cell.empty

namespace LockTable

def empty : LockTable K T V := ⟨[], fun _ => Cell.empty, List.nodup_nil, fun _ _ => rfl⟩

def committed (d : LockTable K T V) (k : K) : Option V := (d.cell k).committed

def committedKeys (d : LockTable K T V) : List K := d.keys.filter fun k => (d.committed k).isSome

def write [DecidableEq K] (d : LockTable K T V) (t : T) (k : K) (v : V) : LockTable K T V where
  keys := d.keys.insert k
  cell := Function.update d.cell k ((d.cell k).write t v)
  nodup := d.nodup.insert
  complete k' hk' := by
    rw [List.mem_insert_iff, not_or] at hk'
    rw [Function.update_of_ne hk'.1]
    exact d.complete k' hk'.2

def recover (d : LockTable K T V) : LockTable K T V where
  keys := d.keys
  cell k := ⟨d.committed k, none⟩
  nodup := d.nodup
  complete k hk := by rw [committed, d.complete k hk]; rfl

@[simp] theorem committedKeys_recover {d : LockTable K T V} :
    d.recover.committedKeys = d.committedKeys := rfl

section Transactions
variable [DecidableEq T]

def own (d : LockTable K T V) (t : T) (k : K) : Option V := (d.cell k).own t

def view (d : LockTable K T V) (t : T) (k : K) : Option V := (d.cell k).view t

def lockedByOther (d : LockTable K T V) (t : T) (k : K) : Bool := (d.cell k).lockedByOther t

def commit (d : LockTable K T V) (t : T) : LockTable K T V where
  keys := d.keys
  cell k := (d.cell k).commit t
  nodup := d.nodup
  complete k hk := by rw [d.complete k hk]; rfl

def abort (d : LockTable K T V) (t : T) : LockTable K T V where
  keys := d.keys
  cell k := (d.cell k).abort t
  nodup := d.nodup
  complete k hk := by rw [d.complete k hk]; rfl

def visibleKeys (d : LockTable K T V) (t : T) : List K := d.keys.filter fun k => (d.view t k).isSome

end Transactions

variable {d : LockTable K T V} {t t' : T} {k k' : K} {v : V}

theorem mem_committedKeys : k ∈ d.committedKeys ↔ ∃ v, d.committed k = some v := by
  rw [committedKeys, List.mem_filter, Option.isSome_iff_exists]
  refine and_iff_right_of_imp ?_
  rintro ⟨v, hv⟩
  by_contra hk
  rw [committed, d.complete k hk] at hv
  cases hv

section Resolution
variable [DecidableEq T]

@[simp] theorem committed_commit : (d.commit t).committed k = d.view t k := Cell.committed_commit
@[simp] theorem committed_abort : (d.abort t).committed = d.committed :=
  funext fun _ => Cell.committed_abort
@[simp] theorem own_commit_self : (d.commit t).own t k = none := Cell.own_commit_self
@[simp] theorem own_abort_self : (d.abort t).own t k = none := Cell.own_abort_self

theorem own_commit_ne (h : t' ≠ t) : (d.commit t).own t' = d.own t' :=
  funext fun _ => Cell.own_commit_ne h
theorem own_abort_ne (h : t' ≠ t) : (d.abort t).own t' = d.own t' :=
  funext fun _ => Cell.own_abort_ne h

theorem view_of_own (h : d.own t k = some v) : d.view t k = some v := Cell.view_of_own h

theorem view_eq_committed (h : d.own t k = none) : d.view t k = d.committed k :=
  Cell.view_eq_committed h

theorem committed_commit_of_own (h : d.own t' k = some v) (hne : t' ≠ t) :
    (d.commit t).committed k = d.committed k := Cell.committed_commit_of_own h hne

theorem lockedByOther_of_own (h : d.own t' k = some v) (hne : t' ≠ t) :
    d.lockedByOther t k = true :=
  Cell.lockedByOther_of_own h hne

theorem not_locked_of_settled (h : (d.cell k).pending = none) : d.lockedByOther t k = false := by
  rw [lockedByOther, Cell.lockedByOther, h]
  rfl

theorem lockedByOther_eq_false_of_own (h : d.own t k = some v) : d.lockedByOther t k = false :=
  Cell.lockedByOther_eq_false_of_own h

theorem lockedByOther_commit (hk : d.lockedByOther t k = false) :
    (d.commit t).lockedByOther t k = false :=
  Cell.lockedByOther_commit hk

theorem lockedByOther_abort (hk : d.lockedByOther t k = false) :
    (d.abort t).lockedByOther t k = false :=
  Cell.lockedByOther_abort hk

theorem own_eq_none_of_not_locked (h : d.lockedByOther t k = false) (hne : t' ≠ t) :
    d.own t' k = none := by
  cases ho : d.own t' k with
  | none => rfl
  | some v =>
    rw [lockedByOther_of_own ho hne] at h
    cases h

theorem cell_commit_of_own_none (h : d.own t k = none) : (d.commit t).cell k = d.cell k :=
  Cell.commit_of_own_none h

theorem cell_abort_of_own_none (h : d.own t k = none) : (d.abort t).cell k = d.cell k :=
  Cell.abort_of_own_none h

theorem commit_of_settled (h : ∀ k, (d.cell k).pending = none) : d.commit t = d := by
  have hcell : (d.commit t).cell = d.cell :=
    funext fun k => Cell.commit_of_own_none (Cell.own_of_pending_none (h k))
  cases d
  simp only [commit] at hcell ⊢
  simp only [hcell]

theorem abort_of_settled (h : ∀ k, (d.cell k).pending = none) : d.abort t = d := by
  have hcell : (d.abort t).cell = d.cell :=
    funext fun k => Cell.abort_of_own_none (Cell.own_of_pending_none (h k))
  cases d
  simp only [abort] at hcell ⊢
  simp only [hcell]

theorem mem_visibleKeys : k ∈ d.visibleKeys t ↔ ∃ v, d.view t k = some v := by
  rw [visibleKeys, List.mem_filter, Option.isSome_iff_exists]
  refine and_iff_right_of_imp ?_
  rintro ⟨v, hv⟩
  by_contra hk
  rw [view, d.complete k hk] at hv
  cases hv

end Resolution

section Writes
variable [DecidableEq K]

@[simp] theorem committed_write : (d.write t k v).committed = d.committed := by
  funext k'
  by_cases hk : k' = k
  · subst hk
    simp [committed, write]
  · simp only [committed, write, Function.update_of_ne hk]

variable [DecidableEq T]

@[simp] theorem own_write_self : (d.write t k v).own t k = some v := by simp [own, write]

@[simp] theorem view_write_self : (d.write t k v).view t k = some v := by simp [view, write]

theorem view_write : (d.write t k v).view t = Function.update (d.view t) k (some v) := by
  funext k'
  by_cases hk : k' = k
  · subst hk
    rw [view_write_self, Function.update_self]
  · rw [Function.update_of_ne hk]
    simp only [view, write, Function.update_of_ne hk]

theorem own_write : (d.write t k v).own t = Function.update (d.own t) k (some v) := by
  funext k'
  by_cases hk : k' = k
  · subst hk
    rw [own_write_self, Function.update_self]
  · rw [Function.update_of_ne hk]
    simp only [own, write, Function.update_of_ne hk]

theorem lockedByOther_write (hk' : d.lockedByOther t k' = false) :
    (d.write t k v).lockedByOther t k' = false := by
  by_cases hk : k' = k
  · subst hk
    exact lockedByOther_eq_false_of_own own_write_self
  · simpa only [lockedByOther, write, Function.update_of_ne hk] using hk'

theorem lockedByOther_write_ne (h : k' ≠ k) :
    (d.write t k v).lockedByOther t' k' = d.lockedByOther t' k' := by
  simp only [lockedByOther, write, Function.update_of_ne h]

theorem own_write_ne (h : k' ≠ k) : (d.write t k v).own t' k' = d.own t' k' := by
  simp only [own, write, Function.update_of_ne h]

theorem own_write_other (h : t' ≠ t) (hfree : d.lockedByOther t k = false) :
    (d.write t k v).own t' k' = d.own t' k' := by
  by_cases hk : k' = k
  · subst hk
    simp only [own, write, Function.update_self]
    exact Cell.own_write_ne h hfree
  · exact own_write_ne hk

theorem committed_commit_write (h : ∀ k, (d.cell k).pending = none) :
    ((d.write t k v).commit t).committed = Function.update d.committed k (some v) := by
  funext k'
  rw [committed_commit, view_write]
  by_cases hk : k' = k
  · subst hk
    rw [Function.update_self, Function.update_self]
  · rw [Function.update_of_ne hk, Function.update_of_ne hk]
    exact view_eq_committed (Cell.own_of_pending_none (h k'))

theorem settled_commit_write (h : ∀ k, (d.cell k).pending = none) (k' : K) :
    (((d.write t k v).commit t).cell k').pending = none := by
  by_cases hk : k' = k
  · subst hk
    simp [commit, write, Cell.commit, Cell.own, Cell.write]
  · simp only [commit, write, Function.update_of_ne hk]
    rw [Cell.commit_of_own_none (Cell.own_of_pending_none (h k'))]
    exact h k'

end Writes

end LockTable

/-! ## Walks -/

section Walks
variable [LinearOrder K]

/-- The least key above a position, or the least of all. -/
def nextAfter (l : List K) (position : Option K) : Option K :=
  (l.filter fun k => position.all fun p => p < k).min?

def remaining (l : List K) (position : Option K) : ℕ :=
  (l.filter fun k => position.all fun p => p < k).length

variable {l : List K} {position : Option K} {k : K}

theorem nextAfter_mem (h : nextAfter l position = some k) : k ∈ l :=
  List.mem_of_mem_filter (List.min?_mem h)

theorem nextAfter_least (h : nextAfter l position = some k) {k' : K} (hk' : k' ∈ l) (hlt : k' < k) :
    ∃ p ∈ position, k' ≤ p := by
  have hleast := (List.min?_eq_some_iff.mp h).2
  by_contra hno
  push Not at hno
  refine absurd hlt (not_lt.mpr (hleast k' (List.mem_filter.mpr ⟨hk', ?_⟩)))
  cases position with
  | none => rfl
  | some p => simpa using hno p rfl

theorem nextAfter_none (h : nextAfter l position = none) (hk : k ∈ l) : ∃ p ∈ position, k ≤ p := by
  have hempty := List.min?_eq_none_iff.mp h
  by_contra hno
  push Not at hno
  have hmem : k ∈ l.filter fun k => position.all fun p => p < k := by
    refine List.mem_filter.mpr ⟨hk, ?_⟩
    cases position with
    | none => rfl
    | some p => simpa using hno p rfl
  rw [hempty] at hmem
  cases hmem

theorem remaining_lt (h : nextAfter l position = some k) :
    remaining l (some k) < remaining l position := by
  have hmem := List.min?_mem h
  have hsub : (l.filter fun k' => k < k') =
    ((l.filter fun k' => position.all fun p => p < k').filter fun k' => k < k') := by
    rw [List.filter_filter]
    refine List.filter_congr fun k' _ => ?_
    have hk := (List.mem_filter.mp hmem).2
    cases position with
    | none => simp
    | some p =>
      have hpk : p < k := by simpa using hk
      by_cases hkk : k < k'
      · simp [hkk, hpk.trans hkk]
      · simp [hkk]
  simp only [remaining, Option.all_some]
  rw [hsub]
  exact List.length_filter_lt_length_iff_exists.mpr ⟨k, hmem, by simp⟩

end Walks

end Chronos.Foundation
