import Chronos.Storage.Session

/-! # What the transactions do to each other

Whatever one transaction does, the others keep their own writes, their cursors, and
the committed records that they have written or whose record an open cursor of
theirs stands on.
-/
namespace Chronos.Storage
open Foundation
variable {F : Type} {self t : Txn} {w w' : Db F}

/-- Cursors have different ids, and no quote is being written. -/
structure Db.WellFormed (db : Db F) : Prop where
  nodup : (db.cursors.map OpenCursor.id).Nodup
  fresh : ∀ oc ∈ db.cursors, oc.id < db.nextCursor
  settled : ∀ k, (db.quotes.cell k).pending = none

/-- A cursor of the transaction stands on the record, which is committed and not
being written by another one. -/
def Db.Reads (db : Db F) (t : Txn) (k : CStr) : Prop :=
  db.portfolios.lockedByOther t k = false ∧ db.portfolios.committed k ≠ none ∧
    ∃ c oc, db.cursor? c = some oc ∧ oc.owner = t ∧ oc.table = .portfolios ∧ oc.record = some k

def Db.Held (db : Db F) (t : Txn) (k : CStr) : Prop := db.portfolios.own t k ≠ none ∨ db.Reads t k

structure SameData (w w' : Db F) : Prop where
  personal : w'.personal = w.personal
  stocks : w'.stocks = w.stocks
  quotes : w'.quotes = w.quotes
  portfolios : w'.portfolios = w.portfolios
  numberPortfolios : w'.numberPortfolios = w.numberPortfolios
  rand : w'.rand = w.rand
  log : w'.log = w.log

/-- What the others may do, as transaction `t` sees it. -/
structure Others (t : Txn) (w w' : Db F) : Prop where
  personal : w'.personal = w.personal
  stocks : w'.stocks = w.stocks
  quotes : w'.quotes = w.quotes
  own : w'.portfolios.own t = w.portfolios.own t
  held : ∀ k, w.Held t k →
    w'.portfolios.committed k = w.portfolios.committed k ∧ w'.portfolios.lockedByOther t k = false
  cursors : ∀ c oc, w.cursor? c = some oc → oc.owner = t → w'.cursor? c = some oc
  next : w.nextCursor ≤ w'.nextCursor
  log : t ∈ w'.log ↔ t ∈ w.log

theorem SameData.refl (w : Db F) : SameData w w := ⟨rfl, rfl, rfl, rfl, rfl, rfl, rfl⟩

theorem SameData.moveCursor (w : Db F) (c : CursorId) (pos : Position) :
    SameData w (w.moveCursor c pos) :=
  ⟨rfl, rfl, rfl, rfl, rfl, rfl, rfl⟩

theorem SameData.closeCursor (w : Db F) (c : CursorId) : SameData w (w.closeCursor c) :=
  ⟨rfl, rfl, rfl, rfl, rfl, rfl, rfl⟩

theorem Db.Held.not_locked {k : CStr} (h : w.Held t k) :
    w.portfolios.lockedByOther t k = false := by
  rcases h with h | h
  · obtain ⟨v, hv⟩ := Option.ne_none_iff_exists'.mp h
    exact LockTable.lockedByOther_eq_false_of_own hv
  · exact h.1

/-- What a transaction sees of a record that it has locked stays as it is. -/
theorem Others.view_of_held (ho : Others t w w') {k : CStr} (hk : w.Held t k) :
    w'.portfolios.view t k = w.portfolios.view t k := by
  have hown := congrFun ho.own k
  cases hw : w.portfolios.own t k with
  | some v => rw [LockTable.view_of_own hw, LockTable.view_of_own (hown.trans hw)]
  | none =>
    rw [LockTable.view_eq_committed hw, LockTable.view_eq_committed (hown.trans hw)]
    exact (ho.held k hk).1

theorem SameData.others (h : SameData w w')
    (hcursors : ∀ c oc, w.cursor? c = some oc → oc.owner = t →
    w'.cursor? c = some oc) (hnext : w.nextCursor ≤ w'.nextCursor) : Others t w w' where
  personal := h.personal
  stocks := h.stocks
  quotes := h.quotes
  own := by rw [h.portfolios]
  held k hk := by
    rw [h.portfolios]
    exact ⟨rfl, hk.not_locked⟩
  cursors := hcursors
  next := hnext
  log := by rw [h.log]

/-! ## Cursors -/

theorem cursor?_mem {c : CursorId} {oc : OpenCursor} (h : w.cursor? c = some oc) :
    oc ∈ w.cursors ∧ oc.id = c :=
  ⟨List.mem_of_find?_eq_some h, by simpa using List.find?_some h⟩

theorem cursor?_of_mem (hwf : w.WellFormed) {oc : OpenCursor} (h : oc ∈ w.cursors) :
    w.cursor? oc.id = some oc := by
  have hnodup := hwf.nodup
  unfold Db.cursor?
  generalize w.cursors = l at h hnodup
  induction l with
  | nil => cases h
  | cons x xs ih =>
    rw [List.map_cons, List.nodup_cons] at hnodup
    rcases List.mem_cons.mp h with rfl | h
    · simp
    · have hx : x.id ≠ oc.id := fun hx => hnodup.1 (hx ▸ List.mem_map_of_mem h)
      rw [List.find?_cons_of_neg (by simpa using hx)]
      exact ih h hnodup.2

def Db.openCursor (db : Db F) (t : Txn) (dbp : Dbp) : Db F :=
  { db with
    cursors := ⟨db.nextCursor, t, dbp, none⟩ :: db.cursors
    nextCursor := db.nextCursor + 1 }

theorem SameData.openCursor (w : Db F) (t : Txn) (dbp : Dbp) : SameData w (w.openCursor t dbp) :=
  ⟨rfl, rfl, rfl, rfl, rfl, rfl, rfl⟩

theorem cursor?_openCursor_self (dbp : Dbp) :
    (w.openCursor t dbp).cursor? w.nextCursor = some ⟨w.nextCursor, t, dbp, none⟩ := by
  simp [Db.cursor?, Db.openCursor]

theorem cursor?_openCursor_ne (dbp : Dbp) {c : CursorId} (h : c ≠ w.nextCursor) :
    (w.openCursor t dbp).cursor? c = w.cursor? c := by
  simp only [Db.cursor?, Db.openCursor]
  rw [List.find?_cons_of_neg (by simpa using h.symm)]

theorem cursor?_lt (hwf : w.WellFormed) {c : CursorId} {oc : OpenCursor}
    (h : w.cursor? c = some oc) : c < w.nextCursor := by
  obtain ⟨hmem, rfl⟩ := cursor?_mem h
  exact hwf.fresh oc hmem

theorem cursor?_moveCursor_self {c : CursorId} {oc : OpenCursor} (hc : w.cursor? c = some oc)
    (pos : Position) : (w.moveCursor c pos).cursor? c = some { oc with position := some pos } := by
  simp only [Db.cursor?, Db.moveCursor] at hc ⊢
  generalize w.cursors = l at hc ⊢
  induction l with
  | nil => cases hc
  | cons x xs ih =>
    by_cases hx : x.id = c
    · rw [List.find?_cons_of_pos (by simpa using hx)] at hc
      cases hc
      simp [hx]
    · rw [List.find?_cons_of_neg (by simpa using hx)] at hc
      simpa [hx] using ih hc

theorem cursor?_moveCursor_id {c : CursorId} {oc : OpenCursor} (hc : w.cursor? c = some oc)
    (pos : Position) :
    (w.moveCursor oc.id pos).cursor? c = some { oc with position := some pos } := by
  obtain ⟨-, rfl⟩ := cursor?_mem hc
  exact cursor?_moveCursor_self hc pos

theorem cursor?_moveCursor_ne {c c' : CursorId} (hne : c' ≠ c) (pos : Position) :
    (w.moveCursor c' pos).cursor? c = w.cursor? c := by
  simp only [Db.cursor?, Db.moveCursor]
  generalize w.cursors = l
  induction l with
  | nil => rfl
  | cons x xs ih =>
    by_cases hx : x.id = c
    · simp [hx, hne.symm]
    · have hx' : (if x.id = c' then { x with position := some pos } else x).id = x.id := by
        split <;> rfl
      rw [List.map_cons, List.find?_cons_of_neg (by simpa [hx'] using hx),
        List.find?_cons_of_neg (by simpa using hx)]
      exact ih

theorem cursor?_closeCursor_ne {c c' : CursorId} (hne : c' ≠ c) :
    (w.closeCursor c').cursor? c = w.cursor? c := by
  simp only [Db.cursor?, Db.closeCursor, List.find?_filter]
  congr 1
  funext oc
  by_cases h : oc.id = c
  · simp [h, hne.symm]
  · simp [h]

theorem cursor?_release (hwf : w.WellFormed) {c : CursorId} {oc : OpenCursor}
    (hc : w.cursor? c = some oc) (hne : oc.owner ≠ self) (quotes : LockTable CStr Txn F)
    (portfolios : LockTable CStr Txn Portfolio) :
    (w.release self quotes portfolios).cursor? c = some oc := by
  obtain ⟨hmem, rfl⟩ := cursor?_mem hc
  have hwf' : (w.release self w.quotes portfolios).WellFormed :=
    ⟨hwf.nodup.sublist (List.filter_sublist.map _),
      fun oc hoc => hwf.fresh oc (List.mem_of_mem_filter hoc), hwf.settled⟩
  exact cursor?_of_mem hwf' (List.mem_filter.mpr ⟨hmem, by simpa using hne⟩)

section WellFormed
variable (hwf : w.WellFormed)
include hwf

theorem wellFormed_openCursor (dbp : Dbp) : (w.openCursor t dbp).WellFormed where
  nodup := by
    refine List.nodup_cons.mpr ⟨fun hmem => ?_, hwf.nodup⟩
    obtain ⟨oc, hoc, hid⟩ := List.mem_map.mp hmem
    exact absurd (hwf.fresh oc hoc) (by simp [hid])
  fresh oc hoc := by
    rcases List.mem_cons.mp hoc with rfl | hoc
    · exact Nat.lt_succ_self _
    · exact (hwf.fresh oc hoc).trans (Nat.lt_succ_self _)
  settled := hwf.settled

theorem wellFormed_moveCursor (c : CursorId) (pos : Position) :
    (w.moveCursor c pos).WellFormed where
  nodup := by
    have hids : (w.moveCursor c pos).cursors.map OpenCursor.id = w.cursors.map OpenCursor.id := by
      rw [Db.moveCursor, List.map_map]
      refine List.map_congr_left fun oc _ => ?_
      simp only [Function.comp_apply]
      split <;> rfl
    rw [hids]
    exact hwf.nodup
  fresh oc hoc := by
    obtain ⟨oc', hoc', rfl⟩ := List.mem_map.mp hoc
    have hid := hwf.fresh oc' hoc'
    split <;> exact hid
  settled := hwf.settled

theorem wellFormed_closeCursor (c : CursorId) : (w.closeCursor c).WellFormed :=
  ⟨hwf.nodup.sublist (List.filter_sublist.map _),
    fun oc hoc => hwf.fresh oc (List.mem_of_mem_filter hoc), hwf.settled⟩

theorem wellFormed_commit : (w.commit t).WellFormed :=
  ⟨hwf.nodup.sublist (List.filter_sublist.map _),
    fun oc hoc => hwf.fresh oc (List.mem_of_mem_filter hoc), by
    rw [Db.commit, Db.release, LockTable.commit_of_settled hwf.settled]
    exact hwf.settled⟩

theorem wellFormed_abort : (w.abort t).WellFormed :=
  ⟨hwf.nodup.sublist (List.filter_sublist.map _),
    fun oc hoc => hwf.fresh oc (List.mem_of_mem_filter hoc), by
    rw [Db.abort, Db.release, LockTable.abort_of_settled hwf.settled]
    exact hwf.settled⟩

end WellFormed

/-! ## Single steps -/

theorem others_openCursor (hwf : w.WellFormed) (dbp : Dbp) : Others t w (w.openCursor self dbp) :=
  (SameData.openCursor w self dbp).others (fun _ _ hc _ => by
    rw [cursor?_openCursor_ne dbp (cursor?_lt hwf hc).ne]
    exact hc) (Nat.le_succ _)

section OwnCursor
variable {c : CursorId} {oc : OpenCursor} (hc : w.cursor? c = some oc) (hne : oc.owner ≠ t)
include hc hne

theorem ne_of_owner {c' : CursorId} {oc' : OpenCursor} (hc' : w.cursor? c' = some oc')
    (howner : oc'.owner = t) : c ≠ c' := by
  rintro rfl
  rw [hc] at hc'
  cases hc'
  exact hne howner

theorem others_moveCursor (pos : Position) : Others t w (w.moveCursor c pos) :=
  (SameData.moveCursor w c pos).others (fun _ _ hc' howner => by
    rw [cursor?_moveCursor_ne (ne_of_owner hc hne hc' howner)]
    exact hc') le_rfl

theorem others_closeCursor : Others t w (w.closeCursor c) :=
  (SameData.closeCursor w c).others (fun _ _ hc' howner => by
    rw [cursor?_closeCursor_ne (ne_of_owner hc hne hc' howner)]
    exact hc') le_rfl

end OwnCursor

section Portfolios
variable (hne : t ≠ self)
include hne

theorem others_write {k : CStr} (hfree : w.portfolios.lockedByOther self k = false)
    (hreads : ¬ w.Reads t k) (p : Portfolio) :
    Others t w { w with portfolios := w.portfolios.write self k p } where
  personal := rfl
  stocks := rfl
  quotes := rfl
  own := funext fun _ => LockTable.own_write_other hne hfree
  held k' hk' := by
    have hk : k' ≠ k := by
      rintro rfl
      rcases hk' with hk' | hk'
      · exact hk' (LockTable.own_eq_none_of_not_locked hfree hne)
      · exact hreads hk'
    rw [LockTable.committed_write, LockTable.lockedByOther_write_ne hk]
    exact ⟨rfl, hk'.not_locked⟩
  cursors _ _ hc _ := hc
  next := le_rfl
  log := Iff.rfl

theorem others_commit (hwf : w.WellFormed) : Others t w (w.commit self) where
  personal := rfl
  stocks := rfl
  quotes := LockTable.commit_of_settled hwf.settled
  own := LockTable.own_commit_ne hne
  held k hk := by
    have hown : w.portfolios.own self k = none :=
      LockTable.own_eq_none_of_not_locked hk.not_locked hne.symm
    have hcell := LockTable.cell_commit_of_own_none hown
    have hlock := hk.not_locked
    unfold LockTable.lockedByOther at hlock
    simpa only [Db.commit, Db.release, LockTable.committed, LockTable.lockedByOther, hcell,
      true_and] using hlock
  cursors c oc hc howner :=
    cursor?_release hwf hc (howner ▸ hne) (w.quotes.commit self) (w.portfolios.commit self)
  next := le_rfl
  log := by simp [Db.commit, Db.release, hne]

theorem others_abort (hwf : w.WellFormed) : Others t w (w.abort self) where
  personal := rfl
  stocks := rfl
  quotes := LockTable.abort_of_settled hwf.settled
  own := LockTable.own_abort_ne hne
  held k hk := by
    have hown : w.portfolios.own self k = none :=
      LockTable.own_eq_none_of_not_locked hk.not_locked hne.symm
    have hcell := LockTable.cell_abort_of_own_none hown
    have hlock := hk.not_locked
    unfold LockTable.lockedByOther at hlock
    simpa only [Db.abort, Db.release, LockTable.committed, LockTable.lockedByOther, hcell, true_and]
      using hlock
  cursors c oc hc howner := cursor?_release hwf hc (howner ▸ hne) _ _
  next := le_rfl
  log := Iff.rfl

end Portfolios

end Chronos.Storage
