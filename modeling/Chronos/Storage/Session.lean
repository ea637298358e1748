import Chronos.Storage.BerkeleyDb

/-! # One thread at the database

A session answers the calls of a single thread, makes some of them fail as an
assignment says, and keeps a trace: each call with the state it met and its answer.
-/
namespace Chronos.Storage
open Foundation
variable {F : Type}

structure Entry (F : Type) where
  before : Db F
  call : DbCall F
  answer : Except DbError call.Payload

structure Session (F : Type) where
  db : Db F
  trace : List (Entry F)

/-- Which calls fail, and how. -/
abbrev Faults := ℕ → Option DbError

def noFaults : Faults := fun _ => none

def Entry.Failed (e : Entry F) : Prop := ∃ err, e.answer = .error err

theorem forall_mem_snoc {P : Entry F → Prop} {tr : List (Entry F)} {e : Entry F} :
    (∀ e' ∈ tr ++ [e], P e') ↔ (∀ e' ∈ tr, P e') ∧ P e := by
  simp only [List.mem_append, List.mem_singleton, or_imp, forall_and, forall_eq]

theorem exists_mem_snoc {P : Entry F → Prop} {tr : List (Entry F)} {e : Entry F} :
    (∃ e' ∈ tr ++ [e], P e') ↔ (∃ e' ∈ tr, P e') ∨ P e := by
  simp only [List.mem_append, List.mem_singleton, or_and_right, exists_or, exists_eq_left]

/-- The trace is as long as the number of calls of the database so far. -/
def Session.answer (self : Txn) (faults : Faults) :
    (c : Call F) → Session F → Option (Answer c × Session F)
  | .db c, s =>
    (s.db.exec self (faults s.trace.length) c).map fun a =>
    (a.1, ⟨a.2, s.trace ++ [⟨s.db, c, a.1⟩]⟩)
  | .fetchAndAdd, s =>
    some (s.db.numberPortfolios,
      { s with db := { s.db with numberPortfolios := int32 (s.db.numberPortfolios + 1) } })
  | .rand, s =>
    some (s.db.rand 0, { s with db := { s.db with rand := fun i => s.db.rand (i + 1) } })

/-- A call is recorded with its answer, whatever it is and whatever others do to the
database in the meantime. -/
def Recorded : (c : Call F) → Session F → Answer c → Session F → Prop
  | .db c, s, a, s' => s'.trace = s.trace ++ [⟨s.db, c, a⟩]
  | .fetchAndAdd, s, _, s' => s'.trace = s.trace
  | .rand, s, _, s' => s'.trace = s.trace

theorem recorded_answer {self : Txn} {faults : Faults} {c : Call F} {s s' : Session F}
    {a : Answer c} (h : s.answer self faults c = some (a, s')) : Recorded c s a s' := by
  cases c with
  | db c =>
    obtain ⟨_, _, heq⟩ := Option.map_eq_some_iff.mp h
    cases heq
    rfl
  | fetchAndAdd => cases h; rfl
  | rand => cases h; rfl

/-- No lock and no cursor of another transaction. -/
structure Db.Alone (t : Txn) (db : Db F) : Prop where
  quotes : ∀ k, db.quotes.lockedByOther t k = false
  portfolios : ∀ k, db.portfolios.lockedByOther t k = false
  cursors : ∀ oc ∈ db.cursors, oc.owner = t

/-- The transaction handle that is passed to a call. -/
def DbCall.handle : DbCall F → Option Txn
  | .setName t _ => some t
  | .commit t => some t
  | .abort t => some t
  | .cursor _ t => some t
  | .portfoliosInsert t _ _ => some t
  | _ => none

/-- The transaction that the call ends. -/
def DbCall.resolves : DbCall F → Option Txn
  | .commit t => some t
  | .abort t => some t
  | _ => none

theorem DbCall.handle_of_resolves {c : DbCall F} {t : Txn} (h : c.resolves = some t) :
    c.handle = some t := by
  cases c <;> simp_all [resolves, handle]

section Alone
variable {self : Txn} {db : Db F}

theorem Db.Alone.owner (h : db.Alone self) {c : CursorId} {oc : OpenCursor}
    (hc : db.cursor? c = some oc) :
    oc.owner = self := h.cursors oc (List.mem_of_find?_eq_some hc)

theorem Db.Alone.not_readLocked (h : db.Alone self) (table : Dbp) (key : CStr) :
    db.readLockedByOther self table key = false := by
  simp only [Db.readLockedByOther, List.any_eq_false]
  intro oc hoc
  simp [h.cursors oc hoc]

theorem Db.Alone.moveCursor (h : db.Alone self) (c : CursorId) (position : Position) :
    (db.moveCursor c position).Alone self where
  quotes := h.quotes
  portfolios := h.portfolios
  cursors oc hoc := by
    obtain ⟨oc', hoc', rfl⟩ := List.mem_map.mp hoc
    have howner := h.cursors oc' hoc'
    split <;> exact howner

theorem Db.Alone.closeCursor (h : db.Alone self) (c : CursorId) :
    (db.closeCursor c).Alone self where
  quotes := h.quotes
  portfolios := h.portfolios
  cursors oc hoc := h.cursors oc (List.mem_of_mem_filter hoc)

theorem Db.Alone.commit (h : db.Alone self) : (db.commit self).Alone self where
  quotes k := LockTable.lockedByOther_commit (h.quotes k)
  portfolios k := LockTable.lockedByOther_commit (h.portfolios k)
  cursors oc hoc := h.cursors oc (List.mem_of_mem_filter hoc)

theorem Db.Alone.abort (h : db.Alone self) : (db.abort self).Alone self where
  quotes k := LockTable.lockedByOther_abort (h.quotes k)
  portfolios k := LockTable.lockedByOther_abort (h.portfolios k)
  cursors oc hoc := h.cursors oc (List.mem_of_mem_filter hoc)

theorem Db.Alone.writePortfolio (h : db.Alone self) (key : CStr) (p : Portfolio) :
    Db.Alone self { db with portfolios := db.portfolios.write self key p } where
  quotes := h.quotes
  portfolios k := LockTable.lockedByOther_write (h.portfolios k)
  cursors := h.cursors

theorem Db.Alone.writeQuote (h : db.Alone self) (key : CStr) (price : F) :
    Db.Alone self { db with quotes := db.quotes.write self key price } where
  quotes k := LockTable.lockedByOther_write (h.quotes k)
  portfolios := h.portfolios
  cursors := h.cursors

/-- The call is answered and leaves the thread alone. -/
def Answered {α : Type} (self : Txn) (x : Option (Except DbError α × Db F)) : Prop :=
  ∃ a db, x = some (a, db) ∧ db.Alone self

theorem Db.Alone.onCursor (h : db.Alone self) {α : Type} {c : CursorId}
    {f : OpenCursor → Option (Except DbError α × Db F)}
    (hf : ∀ oc, oc.owner = self → Answered self (f oc)) : Answered self (db.onCursor c f) := by
  unfold Db.onCursor
  split
  · exact hf _ (h.owner ‹_›)
  · exact ⟨_, _, rfl, h⟩

theorem Db.Alone.get (h : db.Alone self) (c : CursorId) (key : CStr) (dbp : Dbp) :
    Answered self (db.get c self key dbp) := by
  cases dbp with
  | stocks =>
    simp only [Db.get]
    split
    · exact ⟨_, _, rfl, h.moveCursor c _⟩
    · exact ⟨_, _, rfl, h⟩
  | personal =>
    simp only [Db.get]
    split
    · exact ⟨_, _, rfl, h.moveCursor c _⟩
    · exact ⟨_, _, rfl, h⟩
  | quotes =>
    simp only [Db.get, h.quotes key, Bool.false_eq_true, if_false]
    split
    · exact ⟨_, _, rfl, h.moveCursor c _⟩
    · exact ⟨_, _, rfl, h⟩
  | portfolios =>
    simp only [Db.get, h.portfolios key, Bool.false_eq_true, if_false]
    split
    · exact ⟨_, _, rfl, h.moveCursor c _⟩
    · exact ⟨_, _, rfl, h⟩
  | portfoliosSec => exact ⟨_, _, rfl, h⟩

theorem Db.Alone.perform (h : db.Alone self) (c : DbCall F)
    (hc : ∀ t, c.handle = some t → t = self) : Answered self (db.perform self c) := by
  cases c with
  | txnBegin => exact ⟨_, _, rfl, h⟩
  | setName t name => exact ⟨_, _, rfl, h⟩
  | commit t => obtain rfl := hc t rfl; exact ⟨_, _, rfl, h.commit⟩
  | abort t => obtain rfl := hc t rfl; exact ⟨_, _, rfl, h.abort⟩
  | cursor dbp t =>
    obtain rfl := hc t rfl
    refine ⟨_, _, rfl, h.quotes, h.portfolios, ?_⟩
    intro oc hoc
    rcases List.mem_cons.mp hoc with rfl | hoc
    · rfl
    · exact h.cursors oc hoc
  | close c => exact ⟨_, _, rfl, h.closeCursor c⟩
  | get dbp c key =>
    refine h.onCursor fun oc howner => ?_
    rw [howner]
    exact h.get c key dbp
  | personalNext c =>
    refine h.onCursor fun oc _ => ?_
    unfold Db.personalNext
    split
    · exact ⟨_, _, rfl, h.moveCursor _ _⟩
    · exact ⟨_, _, rfl, h⟩
  | portfoliosPgetNext c =>
    refine h.onCursor fun oc howner => ?_
    unfold Db.portfoliosPgetNext
    split
    · rw [howner, h.portfolios, if_neg Bool.false_ne_true]
      split
      · exact ⟨_, _, rfl, h.moveCursor _ _⟩
      · exact ⟨_, _, rfl, h⟩
    · exact ⟨_, _, rfl, h⟩
  | quotesPut c price =>
    refine h.onCursor fun oc howner => ?_
    unfold Db.quotesPut
    split
    · exact ⟨_, _, rfl, h⟩
    · rw [howner, h.quotes, h.not_readLocked, Bool.or_false, if_neg Bool.false_ne_true]
      exact ⟨_, _, rfl, h.writeQuote _ _⟩
  | portfoliosPut c p =>
    refine h.onCursor fun oc howner => ?_
    unfold Db.portfoliosPut
    split
    · exact ⟨_, _, rfl, h⟩
    · rw [howner, h.portfolios, h.not_readLocked, Bool.or_false, if_neg Bool.false_ne_true]
      exact ⟨_, _, rfl, h.writePortfolio _ _⟩
  | portfoliosInsert t key p =>
    obtain rfl := hc t rfl
    change Answered _ (db.portfoliosInsert _ _ _)
    rw [Db.portfoliosInsert, h.portfolios, if_neg Bool.false_ne_true]
    split
    · exact ⟨_, _, rfl, h⟩
    · exact ⟨_, _, rfl, h.writePortfolio _ _⟩

theorem Db.Alone.afterFailure (h : db.Alone self) (c : DbCall F)
    (hc : ∀ t, c.handle = some t → t = self) : (db.afterFailure c).Alone self := by
  cases c with
  | commit t => obtain rfl := hc t rfl; exact h.abort
  | abort t => obtain rfl := hc t rfl; exact h.abort
  | close c => exact h.closeCursor c
  | _ => exact h

theorem Db.Alone.exec (h : db.Alone self) (fault : Option DbError) (c : DbCall F)
    (hc : ∀ t, c.handle = some t → t = self) : Answered self (db.exec self fault c) := by
  cases fault with
  | none => exact h.perform c hc
  | some e => exact ⟨_, _, rfl, h.afterFailure c hc⟩

end Alone

end Chronos.Storage
