import Chronos.Benchmark.Returns
import Chronos.Orders.Functions

/-! # Lookups that fail

`get_portfolio` ends its walk at any non-zero result and returns one failure for all of
them, and `place_order` takes every failure for an absent portfolio. Which results of the
calls make it create a record that is there, or close a cursor that is not.
-/
namespace Chronos.Orders
open Foundation Storage Benchmark Program
variable {F α : Type} {t : Txn} {q : Holder} {faults : Faults}

/-! ## What a trace says -/

def Inserts (e : Entry F) : Prop := ∃ t key p, e.call = .portfoliosInsert t key p

def LookupFails (t : Txn) (q : Holder) (faults : Faults) (tr : List (Entry F)) : Prop :=
  ∃ i e c err, tr[i]? = some e ∧ e.call = .portfoliosPgetNext c ∧ faults i = some err ∧
    (err = .notFound → ¬ NotHeld t q e.before)

def QuoteRefused [CFloat F] (price : F) (e : Entry F) : Prop :=
  (∃ t, e.call = .cursor .quotes t) ∧ e.Failed ∨
    ∃ db c key a, e = ⟨db, .get .quotes c key, a⟩ ∧ ∀ p : F, a = .ok p → CFloat.le p price = false

/-- `place_order` has created a record only where none was, and has not made anything of
a lookup that failed. -/
structure LookupTrusted (t : Txn) (q : Holder) (faults : Faults) (o : Outcome Rc)
    (tr : List (Entry F)) : Prop where
  created : ∀ e ∈ tr, Inserts e → NotHeld t q e.before
  failed : (∃ e ∈ tr, CursorRefused e) ∨ LookupFails t q faults tr →
    o = .value BENCHMARK_FAIL ∧ ∀ e ∈ tr, ¬ Inserts e
  cursor : o ≠ .crashed

/-- No result of a call leads the lookup astray, or the quote stops the order after all. -/
def LookupAnswered [CFloat F] (t : Txn) (q : Holder) (price : F) (faults : Faults)
    (tr : List (Entry F)) : Prop :=
  (∀ e ∈ tr, ¬ CursorRefused e) ∧ (LookupFails t q faults tr → ∃ e ∈ tr, QuoteRefused price e)

theorem lookupFails_snoc {tr : List (Entry F)} {e : Entry F} :
    LookupFails t q faults (tr ++ [e]) ↔ LookupFails t q faults tr ∨
      ∃ c err, e.call = .portfoliosPgetNext c ∧
      faults tr.length = some err ∧ (err = .notFound → ¬ NotHeld t q e.before) := by
  constructor
  · rintro ⟨i, e', c, err, hi, h⟩
    rcases Nat.lt_trichotomy i tr.length with hlt | rfl | hgt
    · rw [List.getElem?_append_left hlt] at hi
      exact Or.inl ⟨i, e', c, err, hi, h⟩
    · rw [List.getElem?_append_right le_rfl, Nat.sub_self] at hi
      cases hi
      exact Or.inr ⟨c, err, h⟩
    · rw [List.getElem?_eq_none (by rw [List.length_append, List.length_singleton]; omega)] at hi
      cases hi
  · rintro (⟨i, e', c, err, hi, h⟩ | ⟨c, err, h⟩)
    · refine ⟨i, e', c, err, ?_, h⟩
      rw [List.getElem?_append_left (List.getElem?_eq_some_iff.mp hi).1, hi]
    · refine ⟨tr.length, e, c, err, ?_, h⟩
      rw [List.getElem?_append_right le_rfl, Nat.sub_self]
      rfl

/-- The call has no part in the lookup or in what follows from it. -/
def Tame (c : Call F) : Prop :=
  (∀ t, c ≠ .db (.cursor .portfoliosSec t)) ∧ (∀ c', c ≠ .db (.portfoliosPgetNext c')) ∧
    ∀ t key p, c ≠ .db (.portfoliosInsert t key p)

/-- Nor does it read the quote. -/
def Neutral (c : Call F) : Prop :=
  Tame c ∧ (∀ t, c ≠ .db (.cursor .quotes t)) ∧ ∀ c' key, c ≠ .db (.get .quotes c' key)

section Calls

theorem neutral_get {dbp : Dbp} (hdbp : dbp ≠ .quotes) (c : CursorId) (key : CStr) :
    Neutral (.db (.get dbp c key) : Call F) := by
  refine ⟨⟨by simp, by simp, by simp⟩, by simp, ?_⟩
  intro c' key' h
  cases h
  exact hdbp rfl

theorem neutral_cursor {dbp : Dbp} (hsec : dbp ≠ .portfoliosSec) (hquotes : dbp ≠ .quotes) :
    Neutral (.db (.cursor dbp t) : Call F) := by
  refine ⟨⟨?_, by simp, by simp⟩, ?_, by simp⟩
  · intro t' h
    cases h
    exact hsec rfl
  · intro t' h
    cases h
    exact hquotes rfl

theorem neutral_close (c : CursorId) : Neutral (.db (.close c) : Call F) :=
  ⟨⟨by simp, by simp, by simp⟩, by simp, by simp⟩

theorem makes_recordExists {dbp : Dbp} (hdbp : dbp = .personal ∨ dbp = .stocks) (key : CStr) :
    Makes Neutral (recordExists dbp key t : DbProgram F Bool) := by
  have hsec : dbp ≠ .portfoliosSec := by rcases hdbp with rfl | rfl <;> decide
  have hquotes : dbp ≠ .quotes := by rcases hdbp with rfl | rfl <;> decide
  unfold recordExists
  split
  · exact Makes.pure _
  · refine (Makes.perform (neutral_cursor hsec hquotes)).bind fun r => ?_
    cases r with
    | error e => exact Makes.pure _
    | ok c =>
      refine (Makes.perform (neutral_get hquotes c key)).bind fun _ => ?_
      exact (Makes.perform (neutral_close c)).bind fun _ => Makes.pure _

theorem makes_closeIfOpen (c : Option CursorId) :
    Makes Neutral (closeIfOpen c : DbProgram F (Except DbError Unit)) := by
  cases c with
  | none => exact Makes.pure _
  | some c => exact Makes.perform (neutral_close c)

theorem makes_failXit (xactH : Option Txn) (l : Locals) :
    Makes Neutral (failXit xactH l : DbProgram F Rc) := by
  cases xactH with
  | some _ => exact Makes.pure _
  | none =>
    refine Makes.loop (fun l => ?_) l
    unfold failXitStep
    refine (makes_closeIfOpen _).bind fun _ => (makes_closeIfOpen _).bind fun r => ?_
    cases r with
    | error e => exact Makes.pure _
    | ok _ =>
      refine Makes.bind (Makes.perform ⟨⟨by simp, by simp, by simp⟩, by simp, by simp⟩) fun r => ?_
      cases r <;> exact Makes.pure _

theorem makes_finish (xactH : Option Txn) (l : Locals) :
    Makes Neutral (finish xactH l : DbProgram F Rc) := by
  unfold finish
  refine (makes_closeIfOpen _).bind fun r => ?_
  cases r with
  | error e => exact makes_failXit _ _
  | ok _ =>
    refine (makes_closeIfOpen _).bind fun r => ?_
    cases r with
    | error e => exact makes_failXit _ _
    | ok _ =>
      cases xactH with
      | some _ => exact Makes.pure _
      | none =>
        refine Makes.bind (Makes.perform ⟨⟨by simp, by simp, by simp⟩, by simp, by simp⟩)
          fun r => ?_
        cases r with
        | error e => exact makes_failXit _ _
        | ok _ => exact Makes.pure _

theorem makes_getStock (symbol : CStr) : Makes Tame (getStock symbol t : DbProgram F _) := by
  unfold getStock
  split
  · exact Makes.pure _
  · refine Makes.bind (Makes.perform ⟨by simp, by simp, by simp⟩) fun r => ?_
    cases r with
    | error e => exact Makes.pure _
    | ok c =>
      refine Makes.bind (Makes.perform ⟨by simp, by simp, by simp⟩) fun r => ?_
      cases r with
      | ok price => exact Makes.pure _
      | error e => exact (Makes.perform (neutral_close c).1).bind fun _ => Makes.pure _

theorem makes_priceIs (test : F → Bool) (symbol : CStr) : Makes Tame (priceIs test symbol t) := by
  refine (makes_getStock symbol).bind fun r => ?_
  rcases r with _ | ⟨c, price⟩ <;> exact Makes.pure _

theorem makes_rewritePortfolio (l : Locals) (key : CStr)
    {change : Portfolio → DbProgram F (Option Portfolio)} (hchange : ∀ p, Makes Tame (change p)) :
    Makes Tame (rewritePortfolio l key change) := by
  unfold rewritePortfolio
  refine Makes.bind (Makes.perform (neutral_cursor (by decide) (by decide)).1) fun r => ?_
  cases r with
  | error e => exact Makes.pure _
  | ok c =>
    refine Makes.bind (Makes.perform (neutral_get (by decide) c key).1) fun r => ?_
    cases r with
    | error e => exact Makes.pure _
    | ok p =>
      refine (hchange p).bind fun r => ?_
      cases r with
      | none => exact Makes.pure _
      | some p' =>
        refine Makes.bind (Makes.perform ⟨by simp, by simp, by simp⟩) fun r => ?_
        cases r <;> exact Makes.pure _

theorem makes_purchased [CFloat F] (symbol : CStr) (price : F) (amount : ℤ) (forceApply : Bool)
    (p : Portfolio) : Makes Tame (purchased symbol price amount forceApply t p) := by
  unfold purchased
  split
  · refine (makes_priceIs _ _).bind fun b => ?_
    split <;> exact Makes.pure _
  · exact Makes.pure _

end Calls

/-! ## The state of the lookup -/

/-- The calls of the session, whose trace and database are looked at. -/
def sessions (t : Txn) (faults : Faults) : Setting (Call F) Answer (Session F) where
  rely := Eq
  act c s a s' := s.answer t faults c = some (a, s')
  guar _ _ _ _ := True

theorem sessions_stable (P : Session F → Prop) : (sessions t faults).Stable P :=
  fun _ _ hw h => h ▸ hw

/-- Nothing has been inserted; the lookup has failed, the quote has stopped the order. -/
structure LookedUp [CFloat F] (t : Txn) (q : Holder) (price : F) (faults : Faults)
    (missed stopped : Prop) (tr : List (Entry F)) : Prop where
  refused : ∀ e ∈ tr, ¬ CursorRefused e
  missed : LookupFails t q faults tr ↔ missed
  inserted : ∀ e ∈ tr, ¬ Inserts e
  stopped : (∃ e ∈ tr, QuoteRefused price e) ↔ stopped

/-- The lookup has not failed, and a record has been inserted only where none was. -/
structure Fine (t : Txn) (q : Holder) (faults : Faults) (tr : List (Entry F)) : Prop where
  refused : ∀ e ∈ tr, ¬ CursorRefused e
  missed : ¬ LookupFails t q faults tr
  inserted : ∀ e ∈ tr, Inserts e → NotHeld t q e.before

/-- The lookup has failed and a record has been inserted. -/
structure TakenForAbsent [CFloat F] (t : Txn) (q : Holder) (price : F) (faults : Faults)
    (tr : List (Entry F)) : Prop where
  refused : ∀ e ∈ tr, ¬ CursorRefused e
  missed : LookupFails t q faults tr
  inserted : ∃ e ∈ tr, Inserts e
  stopped : ∀ e ∈ tr, ¬ QuoteRefused price e

section Entries
variable {c : DbCall F} {db : Db F} {a : Except DbError c.Payload} {tr : List (Entry F)}

theorem Tame.not_refused (h : Tame (.db c)) : ¬ CursorRefused ⟨db, c, a⟩ := by
  rintro ⟨⟨t, rfl⟩, -⟩
  exact h.1 t rfl

theorem Tame.not_inserts (h : Tame (.db c)) : ¬ Inserts ⟨db, c, a⟩ := by
  rintro ⟨t, key, p, rfl⟩
  exact h.2.2 t key p rfl

theorem Tame.lookupFails_iff (h : Tame (.db c)) :
    LookupFails t q faults (tr ++ [⟨db, c, a⟩]) ↔ LookupFails t q faults tr := by
  rw [lookupFails_snoc]
  refine or_iff_left ?_
  rintro ⟨c', err, rfl, -⟩
  exact h.2.1 c' rfl

theorem Fine.tame (hf : Fine t q faults tr) (h : Tame (.db c)) :
    Fine t q faults (tr ++ [⟨db, c, a⟩]) where
  refused := forall_mem_snoc.mpr ⟨hf.refused, h.not_refused⟩
  missed hm := hf.missed (h.lookupFails_iff.mp hm)
  inserted := forall_mem_snoc.mpr ⟨hf.inserted, fun hi => absurd hi h.not_inserts⟩

variable [CFloat F] {price : F} {missed stopped : Prop}

theorem Neutral.not_quoteRefused (h : Neutral (.db c)) : ¬ QuoteRefused price ⟨db, c, a⟩ := by
  rintro (⟨⟨t, rfl⟩, -⟩ | ⟨db', c', key, a', heq, -⟩)
  · exact h.2.1 t rfl
  · cases heq
    exact h.2.2 c' key rfl

theorem LookedUp.fine (hl : LookedUp t q price faults False stopped tr) : Fine t q faults tr where
  refused := hl.refused
  missed := hl.missed.mp
  inserted e he hi := absurd hi (hl.inserted e he)

/-- One more call that is none of the lookup's; whether it reads the quote matters. -/
theorem LookedUp.tame (hl : LookedUp t q price faults missed False tr) (h : Tame (.db c))
    (hq : QuoteRefused price ⟨db, c, a⟩ ↔ stopped) :
    LookedUp t q price faults missed stopped (tr ++ [⟨db, c, a⟩]) where
  refused := forall_mem_snoc.mpr ⟨hl.refused, h.not_refused⟩
  missed := h.lookupFails_iff.trans hl.missed
  inserted := forall_mem_snoc.mpr ⟨hl.inserted, h.not_inserts⟩
  stopped := by rw [exists_mem_snoc, hl.stopped, hq, false_or]

theorem LookedUp.neutral (hl : LookedUp t q price faults missed stopped tr) (h : Neutral (.db c)) :
    LookedUp t q price faults missed stopped (tr ++ [⟨db, c, a⟩]) where
  refused := forall_mem_snoc.mpr ⟨hl.refused, h.1.not_refused⟩
  missed := h.1.lookupFails_iff.trans hl.missed
  inserted := forall_mem_snoc.mpr ⟨hl.inserted, h.1.not_inserts⟩
  stopped := by rw [exists_mem_snoc, or_iff_left h.not_quoteRefused, hl.stopped]

theorem TakenForAbsent.neutral (ht : TakenForAbsent t q price faults tr) (h : Neutral (.db c)) :
    TakenForAbsent t q price faults (tr ++ [⟨db, c, a⟩]) where
  refused := forall_mem_snoc.mpr ⟨ht.refused, h.1.not_refused⟩
  missed := h.1.lookupFails_iff.mpr ht.missed
  inserted := exists_mem_snoc.mpr (Or.inl ht.inserted)
  stopped := forall_mem_snoc.mpr ⟨ht.stopped, h.not_quoteRefused⟩

end Entries

theorem outline_makes {K : Call F → Prop} {P : List (Entry F) → Prop}
    (hP : ∀ tr c db a, K (.db c) → P tr → P (tr ++ [⟨db, c, a⟩])) {p : DbProgram F α}
    (hp : Makes K p) :
    Outline (sessions t faults) p (fun s => P s.trace) fun o s => o ≠ .crashed ∧ P s.trace := by
  refine hp.outline (sessions_stable _) fun c hc s a s' hs hact => ⟨trivial, ?_⟩
  have hrec := recorded_answer hact
  cases c with
  | db c =>
    rw [hrec]
    exact hP _ _ _ _ hc hs
  | fetchAndAdd => exact hrec ▸ hs
  | rand => exact hrec ▸ hs

theorem outline_dbCall {c : DbCall F} {P : Session F → Prop}
    {Q : Outcome (Except DbError c.Payload) → Session F → Prop}
    (h : ∀ s a db, P s → s.db.exec t (faults s.trace.length) c = some (a, db) →
      Q (.value a) ⟨db, s.trace ++ [⟨s.db, c, a⟩]⟩) :
    Outline (sessions t faults) (call c) P Q := by
  refine Outline.perform (fun _ => sessions_stable _) fun s a s' hs hact => ⟨trivial, ?_⟩
  obtain ⟨⟨a', db⟩, hexec, heq⟩ := Option.map_eq_some_iff.mp hact
  cases heq
  exact h s _ _ hs hexec

theorem exec_cursor {db db' : Db F} {fault : Option DbError} {dbp : Dbp}
    {a : Except DbError CursorId} (h : db.exec t fault (.cursor dbp t) = some (a, db')) :
    db'.portfolios = db.portfolios ∧
      ∀ c, a = .ok c → db'.cursor? c = some ⟨c, t, dbp, none⟩ := by
  cases fault with
  | some e =>
    cases h
    exact ⟨rfl, fun c hc => by cases hc⟩
  | none =>
    cases h
    refine ⟨rfl, fun c hc => ?_⟩
    cases hc
    exact cursor?_openCursor_self dbp

theorem exec_close {db db' : Db F} {fault : Option DbError} {c : CursorId} {a : Except DbError Unit}
    (h : db.exec t fault (.close c) = some (a, db')) : db'.portfolios = db.portfolios := by
  cases fault <;> cases h <;> rfl

theorem exec_getQuote {db db' : Db F} {fault : Option DbError} {c : CursorId} {key : CStr}
    {a : Except DbError F} (h : db.exec t fault (.get .quotes c key) = some (a, db')) :
    db'.portfolios = db.portfolios := by
  cases fault with
  | some e =>
    cases h
    rfl
  | none =>
    simp only [Db.exec, Db.perform, Db.onCursor] at h
    split at h
    · simp only [Db.get] at h
      split at h
      · cases h
      · split at h <;> cases h <;> rfl
    · cases h
      rfl

/-! ## The functions of a purchase -/

/-- Kept by calls that have no part in the lookup and do not read the quote. -/
def KeptByNeutral (P : List (Entry F) → Prop) : Prop :=
  ∀ tr c db a, Neutral (.db c : Call F) → P tr → P (tr ++ [⟨db, c, a⟩])

theorem outline_recordExists_bind {dbp : Dbp} (hdbp : dbp = .personal ∨ dbp = .stocks) {key : CStr}
    {f : Bool → DbProgram F α} {P : List (Entry F) → Prop} {Q : Outcome α → Session F → Prop}
    (hP : KeptByNeutral P) (hfalse : Outline (sessions t faults) (f false) (fun s => P s.trace) Q)
    (htrue : key ≠ [] → Outline (sessions t faults) (f true) (fun s => P s.trace) Q) :
    Outline (sessions t faults) (recordExists dbp key t >>= f) (fun s => P s.trace) Q := by
  by_cases hkey : key = []
  · rw [recordExists, if_pos hkey]
    exact hfalse
  · refine (outline_makes hP (makes_recordExists hdbp key)).bind (fun b => ?_)
      fun _ h => absurd rfl h.1
    cases b with
    | false => exact hfalse.pre fun _ h => h.2
    | true => exact (htrue hkey).pre fun _ h => h.2

theorem outline_failXit {P : List (Entry F) → Prop} (hP : KeptByNeutral P) (xactH : Option Txn)
    (l : Locals) :
    Outline (sessions t faults) (failXit xactH l : DbProgram F Rc) (fun s => P s.trace)
      fun o s => o = .value BENCHMARK_FAIL ∧ P s.trace := by
  cases xactH with
  | some _ => exact Outline.pure fun _ h => ⟨rfl, h⟩
  | none =>
    refine Outline.loop (fun _ s => P s.trace) (fun _ => sessions_stable _) (fun l => ?_) l
    unfold failXitStep
    have hclose : ∀ c, Outline (sessions t faults)
      (closeIfOpen c : DbProgram F (Except DbError Unit)) (fun s => P s.trace)
        fun o s => o ≠ .crashed ∧ P s.trace := fun c => outline_makes hP (makes_closeIfOpen c)
    refine (hclose _).bind (fun _ => ?_) fun _ h => absurd rfl h.1
    refine ((hclose _).pre fun _ h => h.2).bind (fun r => ?_) fun _ h => absurd rfl h.1
    cases r with
    | error e => exact Outline.pure fun _ h => h.2
    | ok _ =>
      refine Outline.bind (Q := fun o s => o ≠ .crashed ∧ P s.trace) ?_ (fun r => ?_)
        fun _ h => absurd rfl h.1
      · exact outline_dbCall fun s a db h _ =>
          ⟨by simp, hP _ _ _ _ ⟨⟨by simp, by simp, by simp⟩, by simp, by simp⟩ h.2⟩
      · cases r with
        | error e => exact Outline.pure fun _ h => h.2
        | ok _ => exact Outline.pure fun _ h => ⟨rfl, h.2⟩

theorem keptByNeutral_fine : KeptByNeutral (Fine t q faults : List (Entry F) → Prop) :=
  fun _ _ _ _ hc h => h.tame hc.1

section Purchase
variable [CFloat F] {price : F} {missed stopped : Prop}

theorem keptByNeutral_lookedUp : KeptByNeutral (LookedUp t q price faults missed stopped) :=
  fun _ _ _ _ hc h => h.neutral hc

theorem keptByNeutral_takenForAbsent : KeptByNeutral (TakenForAbsent t q price faults) :=
  fun _ _ _ _ hc h => h.neutral hc

theorem LookedUp.congr {missed' : Prop} {tr : List (Entry F)}
    (hl : LookedUp t q price faults missed stopped tr) (h : missed ↔ missed') :
    LookedUp t q price faults missed' stopped tr :=
  ⟨hl.refused, hl.missed.trans h, hl.inserted, hl.stopped⟩

theorem LookedUp.pget {tr : List (Entry F)} (hl : LookedUp t q price faults False False tr)
    (db : Db F) (c : CursorId) (a : Except DbError (CStr × Portfolio)) :
    LookedUp t q price faults (∃ err, faults tr.length = some err ∧
      (err = .notFound → ¬ NotHeld t q db)) False (tr ++ [⟨db, .portfoliosPgetNext c, a⟩]) where
  refused := forall_mem_snoc.mpr ⟨hl.refused, by simp [CursorRefused]⟩
  missed := by
    rw [lookupFails_snoc, hl.missed, false_or]
    constructor
    · rintro ⟨c', err, -, h⟩
      exact ⟨err, h⟩
    · rintro ⟨err, h⟩
      exact ⟨c, err, rfl, h⟩
  inserted := forall_mem_snoc.mpr ⟨hl.inserted, by simp [Inserts]⟩
  stopped := by
    rw [exists_mem_snoc, hl.stopped, false_or]
    refine iff_of_false ?_ not_false
    rintro (⟨⟨t, ht⟩, -⟩ | ⟨db', c', key, a', heq, -⟩)
    · cases ht
    · cases heq

/-- What the walk has come to: it has been made to fail, or no record is there. -/
def Absent (t : Txn) (q : Holder) (price : F) (faults : Faults) (s : Session F) : Prop :=
  ∃ missed : Prop, LookedUp t q price faults missed False s.trace ∧ (¬ missed → NotHeld t q s.db)

def PortfolioSought (t : Txn) (q : Holder) (price : F) (faults : Faults) {α : Type} :
    Outcome (Option α) → Session F → Prop
  | .value (some _), s => LookedUp t q price faults False False s.trace
  | .value none, s => Absent t q price faults s
  | .crashed, s => ∃ e ∈ s.trace, CursorRefused e

theorem outline_pgetNext (c : CursorId) (pos : Option Position) :
    Outline (sessions t faults) (call (.portfoliosPgetNext c))
      (fun s => LookedUp t q price faults False False s.trace ∧
        s.db.cursor? c = some ⟨c, t, .portfoliosSec, pos⟩ ∧
        NotHeldUpTo t pos q s.db)
      fun o s => match o with
        | .value (.ok (_, p)) => LookedUp t q price faults False False s.trace ∧ (p.holder ≠ q →
          ∃ pos', s.db.cursor? c = some ⟨c, t, .portfoliosSec, pos'⟩ ∧ NotHeldUpTo t pos' q s.db)
        | .value (.error _) => Absent t q price faults s
        | .crashed => False := by
  refine outline_dbCall fun s a db h hexec => ?_
  obtain ⟨hl, hopen, hupTo⟩ := h
  have hnext := hl.pget s.db c a
  cases hfault : faults s.trace.length with
  | some e =>
    rw [hfault] at hexec hnext
    cases hexec
    refine ⟨_, hnext, fun hnot => ?_⟩
    by_contra hheld
    exact hnot ⟨e, rfl, fun _ => hheld⟩
  | none =>
    rw [hfault] at hexec hnext
    have hwell : LookedUp t q price faults False False
      (s.trace ++ [⟨s.db, .portfoliosPgetNext c, a⟩]) :=
      hnext.congr (by simp)
    simp only [Db.exec, Db.perform, Db.onCursor, hopen, Db.portfoliosPgetNext] at hexec
    cases hkey : nextAfter (s.db.walkKeys t) pos with
    | none =>
      simp only [hkey] at hexec
      cases hexec
      exact ⟨False, hwell, fun _ => hupTo.all hkey⟩
    | some pos' =>
      obtain ⟨k, p, hview, rfl⟩ := mem_walkKeys.mp (nextAfter_mem hkey)
      simp only [hkey, ofLex_toLex, hview] at hexec
      split at hexec
      · cases hexec
      · cases hexec
        refine ⟨hwell, fun hp => ⟨_, cursor?_moveCursor_self hopen _, ?_⟩⟩
        exact hupTo.next hkey hview hp

theorem outline_getPortfolio {accountId symbol : CStr} (ha : accountId ≠ []) (hs : symbol ≠ []) :
    Outline (sessions t faults) (getPortfolio accountId symbol t)
      (fun s => LookedUp t (accountId, symbol) price faults False False s.trace)
      (PortfolioSought t (accountId, symbol) price faults) := by
  unfold getPortfolio
  rw [if_neg (by simp [ha, hs])]
  refine Outline.bind (Q := fun (o : Outcome (Except DbError CursorId)) s => match o with
    | .value (.ok c) => LookedUp t (accountId, symbol) price faults False False s.trace ∧
      s.db.cursor? c = some ⟨c, t, .portfoliosSec, none⟩
    | .value (.error _) => ∃ e ∈ s.trace, CursorRefused e
    | .crashed => False) ?_ (fun r => ?_) fun _ h => h.elim
  · refine outline_dbCall fun s a db hl hexec => ?_
    cases a with
    | error e => exact ⟨_, List.mem_append_right _ (List.mem_singleton_self _), ⟨t, rfl⟩, e, rfl⟩
    | ok c =>
      refine ⟨⟨?_, ?_, ?_, ?_⟩, (exec_cursor hexec).2 c rfl⟩
      · exact forall_mem_snoc.mpr ⟨hl.refused, by simp [CursorRefused, Entry.Failed]⟩
      · rw [lookupFails_snoc, hl.missed]
        simp
      · exact forall_mem_snoc.mpr ⟨hl.inserted, by simp [Inserts]⟩
      · rw [exists_mem_snoc, hl.stopped]
        simp [QuoteRefused]
  cases r with
  | error e => exact Outline.crashed fun _ h => h
  | ok c =>
    refine Outline.bind (Q := PortfolioSought t (accountId, symbol) price faults) ?_ (fun r => ?_)
      fun _ h => h
    · refine Outline.pre (Outline.loop (fun _ s => ∃ pos,
        LookedUp t (accountId, symbol) price faults False False s.trace ∧
        s.db.cursor? c = some ⟨c, t, .portfoliosSec, pos⟩ ∧
          NotHeldUpTo t pos (accountId, symbol) s.db)
        (fun _ => sessions_stable _) (fun _ => ?_) ()) ?_
      · refine Outline.exists fun pos => ?_
        refine (outline_pgetNext c pos).bind (fun r => ?_) fun _ h => h.elim
        rcases r with e | ⟨k, p⟩
        · exact Outline.pure fun _ h => h
        · by_cases hp : accountId = p.accountId ∧ symbol = p.symbol
          · simp only [if_pos hp]
            exact Outline.pure fun _ h => h.1
          · simp only [if_neg hp]
            refine Outline.pure fun s h => ?_
            obtain ⟨pos', hopen, hupTo⟩ := h.2 fun h =>
              hp ⟨(congrArg Prod.fst h).symm, (congrArg Prod.snd h).symm⟩
            exact ⟨pos', h.1, hopen, hupTo⟩
      · rintro s ⟨hl, hopen⟩
        refine ⟨none, hl, hopen, ?_⟩
        rintro k p _ ⟨_, hb, _⟩
        cases hb
    · rcases r with _ | record
      · refine Outline.bind (Q := fun o s => o ≠ .crashed ∧
          Absent t (accountId, symbol) price faults s) ?_ (fun _ => ?_)
          fun _ h => absurd rfl h.1
        · refine outline_dbCall fun s a db h hexec => ?_
          obtain ⟨missed, hl, hheld⟩ := h
          refine ⟨by simp, missed, hl.neutral (neutral_close c), fun hm => ?_⟩
          unfold NotHeld
          rw [exec_close hexec]
          exact hheld hm
        · exact Outline.pure fun _ h => h.2
      · exact Outline.pure fun _ h => h

/-- The quote lets the order go on, or stops it. -/
def QuoteChecked (t : Txn) (q : Holder) (price : F) (faults : Faults) (missed : Prop) :
    Outcome Bool → Session F → Prop
  | .value true, s => LookedUp t q price faults missed False s.trace ∧ (¬ missed → NotHeld t q s.db)
  | .value false, s => LookedUp t q price faults missed True s.trace
  | .crashed, _ => False

def QuoteRead (t : Txn) (q : Holder) (price : F) (faults : Faults) (missed : Prop) {α : Type}
    (test : α → Bool) :
    Outcome (Except DbError α) → Session F → Prop
  | .value (.ok a), s =>
    if test a then LookedUp t q price faults missed False s.trace ∧ (¬ missed → NotHeld t q s.db)
    else LookedUp t q price faults missed True s.trace
  | .value (.error _), s => LookedUp t q price faults missed True s.trace
  | .crashed, _ => False

theorem outline_priceIs {symbol : CStr} (hs : symbol ≠ []) (missed : Prop) :
    Outline (sessions t faults) (priceIs (CFloat.le · price) symbol t)
      (fun s => LookedUp t q price faults missed False s.trace ∧ (¬ missed → NotHeld t q s.db))
      (QuoteChecked t q price faults missed) := by
  have hget : ∀ c (key : CStr), Tame (.db (.get .quotes c key) : Call F) :=
    fun _ _ => ⟨by simp, by simp, by simp⟩
  have hcursor : Tame (.db (.cursor .quotes t) : Call F) := ⟨by simp, by simp, by simp⟩
  unfold priceIs getStock
  rw [if_neg hs, bind_eq, bind_eq, bind_assoc]
  refine Outline.bind (Q := QuoteRead t q price faults missed fun _ => true) ?_ (fun r => ?_)
    fun _ h => h.elim
  · refine outline_dbCall fun s a db h hexec => ?_
    cases a with
    | error e => exact h.1.tame hcursor (iff_of_true (Or.inl ⟨⟨t, rfl⟩, e, rfl⟩) trivial)
    | ok c =>
      simp only [QuoteRead, if_true]
      refine ⟨h.1.tame hcursor (iff_of_false (by simp [QuoteRefused, Entry.Failed]) not_false),
        fun hm => ?_⟩
      unfold NotHeld
      rw [(exec_cursor hexec).1]
      exact h.2 hm
  cases r with
  | error e => exact Outline.pure fun _ h => h
  | ok c =>
    simp only [bind_eq, Program.bind_assoc]
    refine Outline.bind (Q := QuoteRead t q price faults missed (CFloat.le · price)) ?_
      (fun r => ?_) fun _ h => h.elim
    · refine outline_dbCall fun s a db h hexec => ?_
      cases a with
      | error e =>
        refine h.1.tame (hget c symbol) (iff_of_true (Or.inr ⟨_, _, _, _, rfl, ?_⟩) trivial)
        intro p hp
        cases hp
      | ok p =>
        simp only [QuoteRead]
        split_ifs with hle
        · refine ⟨h.1.tame (hget c symbol) (iff_of_false ?_ not_false), fun hm => ?_⟩
          · rintro (⟨⟨t, ht⟩, -⟩ | ⟨db', c', key, a', heq, hprice⟩)
            · cases ht
            · cases heq
              rw [hprice p rfl] at hle
              cases hle
          · unfold NotHeld
            rw [exec_getQuote hexec]
            exact h.2 hm
        · refine h.1.tame (hget c symbol) (iff_of_true (Or.inr ⟨_, _, _, _, rfl, ?_⟩) trivial)
          intro p' hp
          cases hp
          exact Bool.eq_false_of_not_eq_true hle
    · cases r with
      | ok p =>
        refine Outline.pure fun s h => ?_
        cases hle : CFloat.le p price with
        | true => simpa [hle, QuoteRead, QuoteChecked] using h
        | false => simpa [hle, QuoteRead, QuoteChecked] using h
      | error e =>
        change Outline (sessions t faults) (call (.close c) >>= fun _ => pure false) _ _
        refine Outline.bind (Q := fun o s => o ≠ .crashed ∧
          LookedUp t q price faults missed True s.trace) ?_ (fun _ => ?_)
          fun _ h => absurd rfl h.1
        · exact outline_dbCall fun s a db h _ => ⟨by simp, h.neutral (neutral_close c)⟩
        · exact Outline.pure fun _ h => h.2

theorem outline_createPortfolio (accountId symbol : CStr) (amount : ℤ) (forceApply : Bool)
    (missed : Prop) :
    Outline (sessions t faults) (createPortfolio accountId symbol price amount forceApply t)
      (fun s => LookedUp t q price faults missed False s.trace ∧ (¬ missed → NotHeld t q s.db))
      fun o s => o ≠ .crashed ∧
        (Fine t q faults s.trace ∨ TakenForAbsent t q price faults s.trace) := by
  unfold createPortfolio
  refine Outline.bind (Q := fun o s => o ≠ .crashed ∧
    LookedUp t q price faults missed False s.trace ∧
    (¬ missed → NotHeld t q s.db)) ?_ (fun n => ?_) fun _ h => absurd rfl h.1
  · refine Outline.perform (fun _ => sessions_stable _)
      fun s a s' h hact => ⟨trivial, (by rintro ⟨⟩), ?_⟩
    cases hact
    exact h
  · refine Outline.bind (Q := fun o s => o ≠ .crashed ∧
      (Fine t q faults s.trace ∨ TakenForAbsent t q price faults s.trace)) ?_
      (fun r => ?_) fun _ h => absurd rfl h.1
    · refine outline_dbCall fun s a db h _ => ⟨by simp, ?_⟩
      obtain ⟨-, hl, hheld⟩ := h
      have hrefused : ∀ e ∈ s.trace ++ [⟨s.db, _, a⟩], ¬ CursorRefused e :=
        forall_mem_snoc.mpr ⟨hl.refused, by simp [CursorRefused]⟩
      have hmissed : LookupFails t q faults (s.trace ++ [⟨s.db, _, a⟩]) ↔ missed := by
        rw [lookupFails_snoc, hl.missed]
        simp
      by_cases hm : missed
      · refine Or.inr ⟨hrefused, hmissed.mpr hm, exists_mem_snoc.mpr (Or.inr ⟨_, _, _, rfl⟩),
          forall_mem_snoc.mpr ⟨?_, ?_⟩⟩
        · exact fun e he hq => hl.stopped.mp ⟨e, he, hq⟩
        · simp [QuoteRefused]
      · refine Or.inl ⟨hrefused, fun h => hm (hmissed.mp h),
          forall_mem_snoc.mpr ⟨?_, fun _ => hheld hm⟩⟩
        exact fun e he hi => absurd hi (hl.inserted e he)
    · cases r with
      | ok _ => exact Outline.pure fun _ h => ⟨by simp, h.2⟩
      | error _ => exact Outline.pure fun _ h => ⟨by simp, h.2⟩

/-- How `place_order` ends: without a failed lookup; after one, stopped by the quote; or
with a record that it should not have created. -/
def LookupResult (t : Txn) (q : Holder) (price : F) (faults : Faults) (o : Outcome Rc)
    (s : Session F) : Prop :=
  match o with
  | .value rc =>
    Fine t q faults s.trace ∨ (LookedUp t q price faults True True s.trace ∧ rc = BENCHMARK_FAIL) ∨
    TakenForAbsent t q price faults s.trace
  | .crashed => ∃ e ∈ s.trace, CursorRefused e

theorem lookupResult_of_fine {p : DbProgram F Rc} (hp : Makes Neutral p) :
    Outline (sessions t faults) p (fun s => Fine t q faults s.trace)
      (LookupResult t q price faults) := by
  refine (outline_makes keptByNeutral_fine hp).post ?_
  rintro (rc | _) s h
  · exact Or.inl h.2
  · exact absurd rfl h.1

theorem lookupResult_of_taken {p : DbProgram F Rc} (hp : Makes Neutral p) :
    Outline (sessions t faults) p (fun s => TakenForAbsent t q price faults s.trace)
      (LookupResult t q price faults) := by
  refine (outline_makes keptByNeutral_takenForAbsent hp).post ?_
  rintro (rc | _) s h
  · exact Or.inr (Or.inr h.2)
  · exact absurd rfl h.1

theorem outline_placeOrderIn (accountId symbol : CStr) (amount : ℤ) (forceApply : Bool)
    (xactH : Option Txn) :
    Outline (sessions t faults) (placeOrderIn accountId symbol price amount forceApply xactH t)
      (fun s => LookedUp t (accountId, symbol) price faults False False s.trace)
      (LookupResult t (accountId, symbol) price faults) := by
  have hfail : ∀ {stopped l}, Outline (sessions t faults) (failXit xactH l)
      (fun s => LookedUp t (accountId, symbol) price faults False stopped s.trace)
      (LookupResult t (accountId, symbol) price faults) :=
    fun {stopped l} => (lookupResult_of_fine (makes_failXit xactH l)).pre fun s h => h.fine
  unfold placeOrderIn accountExists symbolExists
  refine outline_recordExists_bind (Or.inl rfl) keptByNeutral_lookedUp hfail fun ha => ?_
  refine outline_recordExists_bind (Or.inr rfl) keptByNeutral_lookedUp hfail fun hs => ?_
  refine (outline_getPortfolio ha hs).bind (fun r => ?_) fun _ h => h
  rcases r with _ | ⟨cursorp, key, portfolio⟩
  · refine Outline.exists fun missed => ?_
    have hprice : Outline (sessions t faults)
        (if forceApply then priceIs (CFloat.le · price) symbol t
          else (pure true : DbProgram F Bool))
        (fun s => LookedUp t (accountId, symbol) price faults missed False s.trace ∧
          (¬ missed → NotHeld t (accountId, symbol) s.db))
        (QuoteChecked t (accountId, symbol) price faults missed) := by
      split
      · exact outline_priceIs hs missed
      · exact Outline.pure fun _ h => h
    refine hprice.bind (fun b => ?_) fun _ h => h.elim
    cases b with
    | false =>
      simp only [Bool.false_eq_true, if_false]
      refine (outline_failXit keptByNeutral_lookedUp xactH _).post ?_
      rintro o s ⟨rfl, h⟩
      by_cases hm : missed
      · exact Or.inr (Or.inl ⟨h.congr (iff_true_intro hm), rfl⟩)
      · exact Or.inl (h.congr (iff_false_intro hm)).fine
    | true =>
      simp only [if_true]
      refine (outline_createPortfolio accountId symbol amount forceApply missed).bind (fun rc => ?_)
        fun _ h => absurd rfl h.1
      refine Outline.pre (P := fun s => Fine t (accountId, symbol) faults s.trace ∨
        TakenForAbsent t (accountId, symbol) price faults s.trace) ?_ fun _ h => h.2
      split
      · exact Outline.or (lookupResult_of_fine (makes_finish _ _))
          (lookupResult_of_taken (makes_finish _ _))
      · exact Outline.or (lookupResult_of_fine (makes_failXit _ _))
          (lookupResult_of_taken (makes_failXit _ _))
  · have hrewrite := makes_rewritePortfolio ⟨t, some cursorp, none⟩ key
      (makes_purchased (t := t) symbol price amount forceApply)
    refine Outline.bind ((outline_makes (fun _ _ _ _ hc h => h.tame hc) hrewrite).pre fun s h =>
      h.fine) (fun r => ?_)
      fun _ h => absurd rfl h.1
    cases r with
    | ok l => exact (lookupResult_of_fine (makes_finish xactH l)).pre fun _ h => h.2
    | error l => exact (lookupResult_of_fine (makes_failXit xactH l)).pre fun _ h => h.2

theorem lookedUp_nil : LookedUp t q price faults False False [] where
  refused := by simp
  missed := by simp [LookupFails]
  inserted := by simp
  stopped := by simp

theorem outline_placeOrder (accountId symbol : CStr) (amount : ℤ) (forceApply : Bool)
    {xactH : Option Txn} (hx : xactH = none ∨ xactH = some t) :
    Outline (sessions t faults) (placeOrder accountId symbol price amount forceApply xactH)
      (fun s => s.trace = []) (LookupResult t (accountId, symbol) price faults) := by
  have hstart : ∀ s : Session F, s.trace = [] →
    LookedUp t (accountId, symbol) price faults False False s.trace :=
    fun s h => h ▸ lookedUp_nil
  rcases hx with rfl | rfl
  · refine Outline.bind (Q := fun (o : Outcome (Except DbError Txn)) s =>
      (∀ t', o = .value (.ok t') → t' = t) ∧
      o ≠ .crashed ∧ LookedUp t (accountId, symbol) price faults False False s.trace) ?_
        (fun r => ?_)
      fun _ h => absurd rfl h.2.1
    · refine outline_dbCall fun s a db h hexec => ⟨?_, (by rintro ⟨⟩), ?_⟩
      · intro t' ht'
        cases ht'
        exact exec_txnBegin hexec
      · exact (hstart s h).neutral ⟨⟨by simp, by simp, by simp⟩, by simp, by simp⟩
    · cases r with
      | error e => exact Outline.pure fun s h => Or.inl h.2.2.fine
      | ok t' =>
        refine (Outline.assume (φ := t' = t) fun ht => ?_).pre fun s h => ⟨h.1 t' rfl, h.2.2⟩
        subst ht
        exact outline_placeOrderIn accountId symbol amount forceApply none
  · exact (outline_placeOrderIn accountId symbol amount forceApply (some t)).pre hstart

/-- The lookup can be trusted exactly if the calls are answered accordingly. -/
theorem LookupResult.trusted_iff {o : Outcome Rc} {s : Session F}
    (h : LookupResult t q price faults o s) :
    LookupTrusted t q faults o s.trace ↔ LookupAnswered t q price faults s.trace := by
  cases o with
  | crashed =>
    obtain ⟨e, he, hrefused⟩ := h
    exact iff_of_false (fun hs => hs.cursor rfl) fun ha => ha.1 e he hrefused
  | value rc =>
    rcases h with hfine | ⟨hl, rfl⟩ | ht
    · refine iff_of_true ⟨hfine.inserted, ?_, by simp⟩ ⟨hfine.refused,
        fun hm => absurd hm hfine.missed⟩
      rintro (⟨e, he, hrefused⟩ | hm)
      · exact absurd hrefused (hfine.refused e he)
      · exact absurd hm hfine.missed
    · refine iff_of_true ⟨?_, fun _ => ⟨rfl, hl.inserted⟩, by simp⟩ ⟨hl.refused,
        fun _ => hl.stopped.mpr trivial⟩
      exact fun e he hi => absurd hi (hl.inserted e he)
    · refine iff_of_false (fun hs => ?_) fun ha => ?_
      · obtain ⟨e, he, hi⟩ := ht.inserted
        exact (hs.failed (Or.inr ht.missed)).2 e he hi
      · obtain ⟨e, he, hq⟩ := ha.2 ht.missed
        exact ht.stopped e he hq

end Purchase

/-- `place_order` returns unless a call fails for ever, and its lookup is to be trusted
exactly if its cursor is created and no `pget` fails, or the quote stops the order. -/
theorem placeOrder_lookup_iff [CFloat F] (t : Txn) (faults : Faults) (db : Db F)
    (accountId symbol : CStr) (price : F) (amount : ℤ) (forceApply : Bool) (xactH : Option Txn)
    (hx : xactH = none ∨ xactH = some t) :
    (db.Alone t → (xactH = none → FailuresEnd faults) → ∃ o s',
      Exec (Session.answer t faults) (placeOrder accountId symbol price amount forceApply xactH)
        ⟨db, []⟩ o s') ∧
    ∀ o s', Exec (Session.answer t faults)
      (placeOrder accountId symbol price amount forceApply xactH) ⟨db, []⟩ o s' →
      (LookupTrusted t (accountId, symbol) faults o s'.trace ↔
        LookupAnswered t (accountId, symbol) price faults s'.trace) := by
  constructor
  · intro halone hlive
    obtain ⟨o, s', he, -⟩ := ends_placeOrder accountId symbol price amount forceApply hx hlive
      ⟨db, []⟩ halone
    exact ⟨o, s', he⟩
  · intro o s' he
    have hresult :=
      (Outline.exec (E := sessions t faults) (π := id) (J := fun _ => True) (fun _ _ _ _ h => h)
      (fun _ _ _ _ _ _ _ => trivial) he
        (outline_placeOrder accountId symbol amount forceApply hx) rfl trivial).1
    exact hresult.trusted_iff

def Inserted (e : Entry F) : Bool :=
  match e.call with
  | .portfoliosInsert _ _ _ => true
  | _ => false

def Pget (e : Entry F) : Bool :=
  match e.call with
  | .portfoliosPgetNext _ => true
  | _ => false

theorem inserts_of_inserted {e : Entry F} (h : Inserted e = true) : Inserts e := by
  unfold Inserted at h
  split at h
  · exact ⟨_, _, _, ‹_›⟩
  · cases h

theorem pgetNext_of_pget {e : Entry F} (h : Pget e = true) :
    ∃ c, e.call = .portfoliosPgetNext c := by
  unfold Pget at h
  split at h
  · exact ⟨_, ‹_›⟩
  · cases h

def Updated (e : Entry F) : Bool :=
  match e.call with
  | .portfoliosPut _ _ => true
  | _ => false

def Refused (e : Entry F) : Bool :=
  match e with
  | ⟨_, .cursor .portfoliosSec _, .error _⟩ => true
  | _ => false

theorem refused_of_cursorRefused {e : Entry F} (h : CursorRefused e) : Refused e = true := by
  obtain ⟨db, c, a⟩ := e
  obtain ⟨⟨t, hcall⟩, err, hanswer⟩ := h
  obtain rfl : c = .cursor .portfoliosSec t := hcall
  obtain rfl : a = .error err := hanswer
  rfl

/-- Account 1 holds three stocks of B, and four of A in its second record. -/
def secondRecord : Db ℚ :=
  { Db.fresh [[49]] [[65]] ((LockTable.empty.write 0 [65] (10 : ℚ)).commit 0) id with
    portfolios :=
      (((LockTable.empty.write 0 [48] ⟨[48], [49], [66], 3, 0, 0, 0, 0, 0,
        0⟩).commit 0).write 0 [49]
      ⟨[49], [49], [65], 4, 0, 0, 0, 0, 0, 0⟩).commit 0
    numberPortfolios := 2 }

theorem secondRecord_alone : secondRecord.Alone 1 where
  quotes k := LockTable.not_locked_of_settled (LockTable.settled_commit_write (fun _ => rfl) k)
  portfolios k :=
    LockTable.not_locked_of_settled
      (LockTable.settled_commit_write (LockTable.settled_commit_write fun _ => rfl) k)
  cursors := by simp [secondRecord, Db.fresh]

/-- The lookup walks to the second record, and the purchase updates it. -/
theorem placeOrder_lookup_second : ∃ s',
    Exec (Session.answer 1 noFaults) (placeOrder [49] [65] (12 : ℚ) 5 true (some 1))
      ⟨secondRecord, []⟩
      (.value BENCHMARK_SUCCESS) s' ∧
    (s'.trace.filter Pget).length = 2 ∧ s'.trace.any Updated = true ∧
    LookupTrusted 1 ([49], [65]) noFaults (.value BENCHMARK_SUCCESS) s'.trace := by
  obtain ⟨hends, htrusted⟩ :=
    placeOrder_lookup_iff 1 noFaults secondRecord [49] [65] (12 : ℚ) 5 true (some 1)
    (Or.inr rfl)
  obtain ⟨o, s', he⟩ := hends secondRecord_alone (by simp)
  have hrun :
    (Program.run (Session.answer 1 noFaults) 60 (placeOrder [49] [65] (12 : ℚ) 5 true (some 1))
      ⟨secondRecord, []⟩).map (fun x => (match x.1 with
        | .value rc => some rc
        | .crashed =>
          none, (x.2.trace.filter Pget).length, x.2.trace.any Updated, x.2.trace.any Refused)) =
      some (some BENCHMARK_SUCCESS, 2, true, false) := by decide +kernel
  obtain ⟨⟨o', s''⟩, hs'', htest⟩ := Option.map_eq_some_iff.mp hrun
  obtain ⟨rfl, rfl⟩ := he.deterministic (Exec.of_run hs'')
  cases o with
  | crashed => cases htest
  | value rc =>
    simp only [Prod.mk.injEq, Option.some.injEq] at htest
    obtain ⟨rfl, hpgets, hupdated, hrefused⟩ := htest
    refine ⟨s', he, hpgets, hupdated, (htrusted _ s' he).mpr ⟨fun e hmem hrefusal => ?_, ?_⟩⟩
    · rw [List.any_eq_false] at hrefused
      exact hrefused e hmem (refused_of_cursorRefused hrefusal)
    · rintro ⟨i, e, c, err, -, -, hfault, -⟩
      cases hfault

/-- Account 1 holds stocks of A. Its purchase of more succeeds although the first `pget`
fails, and adds a second record. -/
theorem failed_lookup_taken_for_absent : ∃ s',
    Exec (Session.answer 1 fun i => if i = 7 then some .other else none)
      (placeOrder [49] [65] (12 : ℚ) 5 true (some 1))
      ⟨{ Db.fresh [[49]] [[65]] ((LockTable.empty.write 0 [65] (10 : ℚ)).commit 0) id with
          portfolios :=
            (LockTable.empty.write 0 [48] ⟨[48], [49], [65], 3, 0, 0, 0, 0, 0, 0⟩).commit 0
          numberPortfolios := 1 }, []⟩ (.value BENCHMARK_SUCCESS) s' ∧
      ¬ LookupTrusted 1 ([49], [65]) (fun i => if i = 7 then some .other else none)
        (.value BENCHMARK_SUCCESS) s'.trace := by
  have hrun : (Program.run (Session.answer 1 fun i => if i = 7 then some .other else none) 60
      (placeOrder [49] [65] (12 : ℚ) 5 true (some 1))
      ⟨{ Db.fresh [[49]] [[65]] ((LockTable.empty.write 0 [65] (10 : ℚ)).commit 0) id with
          portfolios :=
            (LockTable.empty.write 0 [48] ⟨[48], [49], [65], 3, 0, 0, 0, 0, 0, 0⟩).commit 0
          numberPortfolios := 1 }, []⟩).map (fun x => (match x.1 with
            | .value rc => some rc
            | .crashed => none, x.2.trace.any Inserted, x.2.trace[7]?.any Pget)) =
      some (some BENCHMARK_SUCCESS, true, true) := by decide +kernel
  obtain ⟨⟨o, s'⟩, hs', htest⟩ := Option.map_eq_some_iff.mp hrun
  cases o with
  | crashed => cases htest
  | value rc =>
    simp only [Prod.mk.injEq, Option.some.injEq, List.any_eq_true] at htest
    obtain ⟨rfl, ⟨e, he, hinsert⟩, hpget⟩ := htest
    refine ⟨s', Exec.of_run hs', fun hs => ?_⟩
    obtain ⟨e', he', hpget⟩ := (Option.any_eq_true _ _).mp hpget
    obtain ⟨c, hc⟩ := pgetNext_of_pget hpget
    exact (hs.failed (Or.inr ⟨7, e', c, .other, he', hc, rfl, by simp⟩)).2 e he
      (inserts_of_inserted hinsert)

end Chronos.Orders
