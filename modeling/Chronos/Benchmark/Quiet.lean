import Chronos.Benchmark.Views
import Chronos.Foundation.Outline
import Chronos.Storage.Isolation

/-! # What the functions do inside a transaction

Between the start of a transaction and its end the benchmark makes calls that
neither begin nor end one, whatever their answers are. A thread that is alone comes
back from them whatever fails, except where `get_portfolio` closes a cursor it did
not get.
-/
namespace Chronos.Benchmark
open Foundation Storage Program
variable {F α β σ : Type} {self : Txn} {fatal : Entry F → Prop}

def Inside (c : DbCall F) : Prop := c ≠ .txnBegin ∧ c.resolves = none

/-- A stretch of calls inside a transaction; it crashes exactly at fatal answers. -/
def Stretch (fatal : Entry F → Prop) (s : Session F) (crashed : Prop) (s' : Session F) : Prop :=
  ∃ tr, s'.trace = s.trace ++ tr ∧ (∀ e ∈ tr, Inside e.call) ∧ (crashed ↔ ∃ e ∈ tr, fatal e)

def anyAnswer : Setting (Call F) Answer (Session F) where
  rely := Eq
  act := Recorded
  guar _ _ _ _ := True

/-- The program makes a stretch of calls, and ends if the thread is alone. -/
structure Quiet (t : Txn) (fatal : Entry F → Prop) (p : DbProgram F α) : Prop where
  outline : ∀ s, Outline anyAnswer p (Stretch fatal s False) fun o => Stretch fatal s (o = .crashed)
  ends : ∀ faults s, s.db.Alone t → wp (Session.answer t faults) p s fun _ s' => s'.db.Alone t

theorem anyAnswer_stable (P : Session F → Prop) : anyAnswer.Stable P := fun _ _ hw h => h ▸ hw

theorem Stretch.refl {s : Session F} {crashed : Prop} (h : ¬ crashed) : Stretch fatal s crashed s :=
  ⟨[], by simp, by simp, by simpa using h⟩

theorem Stretch.of_iff {s s' : Session F} {x y : Prop} (h : Stretch fatal s x s') (hxy : x ↔ y) :
    Stretch fatal s y s' := by
  obtain rfl := propext hxy
  exact h

theorem Stretch.snoc {s s' s'' : Session F} {e : Entry F} {crashed : Prop}
    (h : Stretch fatal s False s') (htrace : s''.trace = s'.trace ++ [e]) (hin : Inside e.call)
    (hfatal : crashed ↔ fatal e) : Stretch fatal s crashed s'' := by
  obtain ⟨tr, htr, hins, hnone⟩ := h
  refine ⟨tr ++ [e], by rw [htrace, htr, List.append_assoc], ?_, ?_⟩
  · intro e' he'
    rcases List.mem_append.mp he' with he' | he'
    · exact hins e' he'
    · exact List.mem_singleton.mp he' ▸ hin
  · have hno : ¬ ∃ e ∈ tr, fatal e := fun h => hnone.mpr h
    simp only [hfatal, List.mem_append, List.mem_singleton, or_and_right, exists_or, exists_eq_left,
      or_iff_right hno]

theorem value_ne_crashed {a : α} : (Outcome.value a = .crashed) ↔ False := by simp

theorem Quiet.pure (a : α) : Quiet self fatal (Pure.pure a : DbProgram F α) where
  outline _ := Outline.pure fun _ h => h.of_iff value_ne_crashed.symm
  ends _ _ hs := wp_pure.mpr hs

theorem Quiet.bind {p : DbProgram F α} {f : α → DbProgram F β} (hp : Quiet self fatal p)
    (hf : ∀ a, Quiet self fatal (f a)) : Quiet self fatal (p >>= f) where
  outline s := by
    refine (hp.outline s).bind (fun a => ?_) fun _ h => h.of_iff (iff_of_true rfl rfl)
    exact ((hf a).outline s).pre fun _ h => h.of_iff value_ne_crashed
  ends faults s hs := by
    refine wp_bind'.mpr (wp_mono (hp.ends faults s hs) ?_)
    rintro (a | _) s' h
    · exact (hf a).ends faults s' h
    · exact h

theorem outline_call {c : DbCall F} {s : Session F} (hin : Inside c)
    (hfatal : ∀ db a, ¬ fatal ⟨db, c, a⟩) :
    Outline anyAnswer (Benchmark.call c) (Stretch fatal s False)
      fun o => Stretch fatal s (o = .crashed) := by
  refine Outline.perform (fun _ => anyAnswer_stable _) fun s₁ a s' h hrec => ⟨trivial, ?_⟩
  exact h.snoc hrec hin (iff_of_false (by simp) (hfatal _ _))

theorem wp_dbCall {faults : Faults} {s : Session F} {c : DbCall F}
    {Q : Outcome (Except DbError c.Payload) → Session F → Prop}
    (hs : s.db.Alone self) (hc : ∀ t, c.handle = some t → t = self)
    (h : ∀ a db, s.db.exec self (faults s.trace.length) c = some (a, db) → db.Alone self →
      Q (.value a) ⟨db, s.trace ++ [⟨s.db, c, a⟩]⟩) :
    wp (Session.answer self faults) (call c) s Q := by
  obtain ⟨a, db, hexec, halone⟩ := hs.exec (faults s.trace.length) c hc
  have hanswer : Session.answer self faults (.db c) s =
    some (a, ⟨db, s.trace ++ [⟨s.db, c, a⟩]⟩) := by
    simp only [Session.answer, hexec, Option.map_some]
    rfl
  exact wp_perform.mpr ⟨_, _, hanswer, h a db hexec halone⟩

theorem Quiet.call {c : DbCall F} (hin : Inside c) (hc : ∀ t, c.handle = some t → t = self)
    (hfatal : ∀ db a, ¬ fatal ⟨db, c, a⟩) : Quiet self fatal (Benchmark.call c) where
  outline _ := outline_call hin hfatal
  ends _ _ hs := wp_dbCall hs hc fun _ _ _ halone => halone

theorem Quiet.fetchAndAdd : Quiet self fatal (Benchmark.fetchAndAdd : DbProgram F ℤ) where
  outline _ := Outline.perform (fun _ => anyAnswer_stable _) fun _ _ _ h hrec => ⟨trivial, by
    obtain ⟨tr, htr, hins, hnone⟩ := h
    exact ⟨tr, hrec.trans htr, hins, by simpa using hnone⟩⟩
  ends _ _ hs := wp_perform.mpr ⟨_, _, rfl, hs.quotes, hs.portfolios, hs.cursors⟩

theorem Quiet.rand : Quiet self fatal (Benchmark.rand : DbProgram F ℕ) where
  outline _ := Outline.perform (fun _ => anyAnswer_stable _) fun _ _ _ h hrec => ⟨trivial, by
    obtain ⟨tr, htr, hins, hnone⟩ := h
    exact ⟨tr, hrec.trans htr, hins, by simpa using hnone⟩⟩
  ends _ _ hs := wp_perform.mpr ⟨_, _, rfl, hs.quotes, hs.portfolios, hs.cursors⟩

theorem Quiet.outline_loop {body : σ → DbProgram F (σ ⊕ β)} (hbody : ∀ x, Quiet self fatal (body x))
    (x : σ) (s : Session F) :
    Outline anyAnswer (Program.loop body x) (Stretch fatal s False) fun o =>
      Stretch fatal s (o = .crashed) := by
  refine Outline.loop (fun _ => Stretch fatal s False) (fun _ => anyAnswer_stable _) (fun x => ?_) x
  refine ((hbody x).outline s).post ?_
  rintro ((x' | b) | _) s' h
  · exact h.of_iff value_ne_crashed
  · exact h.of_iff (by simp)
  · exact h.of_iff (iff_of_true rfl rfl)

/-- A loop whose rounds lower a measure of the session. -/
theorem Quiet.loop {body : σ → DbProgram F (σ ⊕ β)} (measure : Session F → ℕ)
    (hbody : ∀ x, Quiet self fatal (body x))
    (hmeasure : ∀ x faults s, s.db.Alone self →
      wp (Session.answer self faults) (body x) s fun o s' =>
      s'.db.Alone self ∧ ∀ x', o = .value (.inl x') → measure s' < measure s) (x : σ) :
    Quiet self fatal (Program.loop body x) where
  outline := Quiet.outline_loop hbody x
  ends faults s hs := by
    refine wp_loop (fun _ s' => s'.db.Alone self) (fun _ => measure) (fun x s' hs' => ?_) hs
    refine wp_mono (hmeasure x faults s' hs') ?_
    rintro ((x' | b) | _) s'' ⟨h, hlt⟩
    · exact ⟨h, hlt x' rfl⟩
    · exact h
    · exact h

/-! ## Walks -/

def walkMeasure (c : CursorId) (s : Session F) : ℕ :=
  match s.db.cursor? c with
  | some oc => remaining (s.db.walkKeys oc.owner) oc.position
  | none => 0

theorem portfoliosPgetNext_measure {fault : Option DbError} {s : Session F} {c : CursorId}
    {a : CStr × Portfolio} {db : Db F} {tr : List (Entry F)}
    (h : s.db.exec self fault (.portfoliosPgetNext c) = some (.ok a, db)) :
    walkMeasure c ⟨db, tr⟩ < walkMeasure c s := by
  cases fault with
  | some e => simp [Db.exec] at h
  | none =>
    simp only [Db.exec, Db.perform, Db.onCursor] at h
    cases hc : s.db.cursor? c with
    | none => simp [hc] at h
    | some oc =>
      simp only [hc, Db.portfoliosPgetNext] at h
      cases hnext : nextAfter (s.db.walkKeys oc.owner) oc.position with
      | none =>
        simp only [hnext] at h
        cases h
      | some pos =>
        simp only [hnext] at h
        split at h
        · cases h
        · split at h
          · cases h
            have hmoved := cursor?_moveCursor_id hc pos
            simp only [walkMeasure, hmoved, hc]
            exact remaining_lt hnext
          · cases h

theorem inside_pgetNext (c : CursorId) : Inside (.portfoliosPgetNext c : DbCall F) := ⟨by simp, rfl⟩

/-- Walks over Portfolios whose body makes one step and then only decides. -/
theorem Quiet.walk (c : CursorId) (stop : β) (next : CStr × Portfolio → Unit ⊕ β)
    {body : Unit → DbProgram F (Unit ⊕ β)} (hbody : ∀ x, body x = do
      match ← Benchmark.call (.portfoliosPgetNext c) with
      | .error _ => return .inr stop
      | .ok a => return next a)
    (hfatal : ∀ db a, ¬ fatal ⟨db, .portfoliosPgetNext c, a⟩) :
    Quiet self fatal (Program.loop body ()) := by
  refine Quiet.loop (walkMeasure c) (fun x => ?_) (fun x faults s hs => ?_) ()
  · rw [hbody]
    refine (Quiet.call (inside_pgetNext c) (by simp [DbCall.handle]) hfatal).bind fun a => ?_
    cases a <;> exact Quiet.pure _
  · rw [hbody]
    refine wp_bind'.mpr (wp_dbCall hs (by simp [DbCall.handle]) fun a db hexec halone => ?_)
    cases a with
    | error e => exact wp_pure.mpr ⟨halone, by simp⟩
    | ok a => exact wp_pure.mpr ⟨halone, fun _ _ => portfoliosPgetNext_measure hexec⟩

/-! ## The functions of an order -/

/-- The cursor of `get_portfolio` was not created. -/
def CursorRefused (e : Entry F) : Prop := (∃ t, e.call = .cursor .portfoliosSec t) ∧ e.Failed

theorem not_cursorRefused {c : DbCall F} (hc : ∀ t, c ≠ .cursor .portfoliosSec t) (db : Db F)
    (a : Except DbError c.Payload) : ¬ CursorRefused ⟨db, c, a⟩ := fun ⟨⟨t, ht⟩, _⟩ => hc t ht

/-- Nothing is fatal to the functions that only view. -/
def NeverFatal (_ : Entry F) : Prop := False

def Harmless (fatal : Entry F → Prop) : Prop :=
  ∀ c : DbCall F, (∀ t, c ≠ .cursor .portfoliosSec t) → ∀ db a, ¬ fatal ⟨db, c, a⟩

theorem harmless_cursorRefused : Harmless (CursorRefused : Entry F → Prop) :=
  fun _ hc => not_cursorRefused hc

theorem harmless_neverFatal : Harmless (NeverFatal : Entry F → Prop) := fun _ _ _ _ h => h

/-- Under an outer transaction `failXit` makes no call. -/
theorem quiet_failXit (l : Locals) : Quiet self fatal (failXit (some self) l : DbProgram F Rc) :=
  Quiet.pure _

section Functions
variable (hf : Harmless fatal)
include hf

theorem quiet_close (c : CursorId) :
    Quiet self fatal (call (.close c) : DbProgram F (Except DbError Unit)) :=
  Quiet.call ⟨by simp, rfl⟩ (by simp [DbCall.handle]) (hf _ (by simp))

theorem quiet_get (dbp : Dbp) (c : CursorId) (key : CStr) :
    Quiet self fatal (call (.get dbp c key) : DbProgram F _) :=
  Quiet.call ⟨by simp, rfl⟩ (by simp [DbCall.handle]) (hf _ (by simp))

theorem quiet_cursor (dbp : Dbp) (hdbp : dbp ≠ .portfoliosSec) :
    Quiet self fatal (call (.cursor dbp self) : DbProgram F (Except DbError CursorId)) :=
  Quiet.call ⟨by simp, rfl⟩ (by simp [DbCall.handle]) (hf _ (by simp [hdbp]))

theorem quiet_recordExists (dbp : Dbp) (hdbp : dbp ≠ .portfoliosSec) (key : CStr) :
    Quiet self fatal (recordExists dbp key self : DbProgram F Bool) := by
  unfold recordExists
  split
  · exact Quiet.pure _
  · refine (quiet_cursor hf dbp hdbp).bind fun r => ?_
    split
    · exact Quiet.pure _
    · exact (quiet_get hf _ _ _).bind fun _ => (quiet_close hf _).bind fun _ => Quiet.pure _

theorem quiet_getStock (symbol : CStr) :
    Quiet self fatal (getStock symbol self : DbProgram F _) := by
  unfold getStock
  split
  · exact Quiet.pure _
  · refine (quiet_cursor hf .quotes (by simp)).bind fun r => ?_
    split
    · exact Quiet.pure _
    · refine (quiet_get hf _ _ _).bind fun r' => ?_
      split
      · exact Quiet.pure _
      · exact (quiet_close hf _).bind fun _ => Quiet.pure _

theorem quiet_closeIfOpen (c : Option CursorId) :
    Quiet self fatal (closeIfOpen c : DbProgram F (Except DbError Unit)) := by
  cases c with
  | none => exact Quiet.pure _
  | some c => exact quiet_close hf c

theorem quiet_priceIs (test : F → Bool) (symbol : CStr) :
    Quiet self fatal (priceIs test symbol self) := by
  unfold priceIs
  refine (quiet_getStock hf symbol).bind fun r => ?_
  split <;> exact Quiet.pure _

theorem quiet_finish (l : Locals) : Quiet self fatal (finish (some self) l : DbProgram F Rc) := by
  unfold finish
  refine (quiet_closeIfOpen hf _).bind fun r => ?_
  split
  · exact quiet_failXit _
  · refine (quiet_closeIfOpen hf _).bind fun r' => ?_
    split
    · exact quiet_failXit _
    · exact Quiet.pure _

theorem quiet_rewritePortfolio (l : Locals) (hl : l.txnP = self) (key : CStr)
    {change : Portfolio → DbProgram F (Option Portfolio)}
    (hchange : ∀ p, Quiet self fatal (change p)) :
    Quiet self fatal (rewritePortfolio l key change) := by
  unfold rewritePortfolio
  rw [hl]
  refine (quiet_cursor hf .portfolios (by simp)).bind fun r => ?_
  split
  · exact Quiet.pure _
  · refine (quiet_get hf .portfolios _ _).bind fun r' => ?_
    split
    · exact Quiet.pure _
    · refine (hchange _).bind fun r'' => ?_
      split
      · exact Quiet.pure _
      · refine Quiet.bind (Quiet.call ⟨by simp, rfl⟩ (by simp [DbCall.handle]) (hf _ (by simp)))
          fun r => ?_
        split <;> exact Quiet.pure _

variable [CFloat F]

theorem quiet_createPortfolio (accountId symbol : CStr) (price : F) (amount : ℤ)
    (forceApply : Bool) :
    Quiet self fatal (createPortfolio accountId symbol price amount forceApply self) := by
  unfold createPortfolio
  refine Quiet.fetchAndAdd.bind fun n => ?_
  refine Quiet.bind (Quiet.call ⟨by simp, rfl⟩ (by simp [DbCall.handle]) (hf _ (by simp)))
    fun r => ?_
  split <;> exact Quiet.pure _

theorem quiet_purchased (symbol : CStr) (price : F) (amount : ℤ) (forceApply : Bool)
    (p : Portfolio) : Quiet self fatal (purchased symbol price amount forceApply self p) := by
  unfold purchased
  split
  · refine (quiet_priceIs hf _ _).bind fun r => ?_
    split <;> exact Quiet.pure _
  · exact Quiet.pure _

theorem quiet_sold (symbol : CStr) (price : F) (amount : ℤ) (forceApply : Bool) (p : Portfolio) :
    Quiet self fatal (sold symbol price amount forceApply self p) := by
  unfold sold
  split
  · refine (quiet_priceIs hf _ _).bind fun r => ?_
    split <;> exact Quiet.pure _
  · exact Quiet.pure _

end Functions

theorem quiet_cursorOrCrash {k : CursorId → DbProgram F α}
    (hk : ∀ c, Quiet self CursorRefused (k c)) :
    Quiet self CursorRefused (do
      match ← call (.cursor .portfoliosSec self) with
      | .error _ => Program.crash
      | .ok cursorp => k cursorp) where
  outline s := by
    refine Outline.bind (Q := fun o => match o with
      | .value (.ok _) => Stretch CursorRefused s False
      | .value (.error _) => Stretch CursorRefused s True
      | .crashed => fun _ => False) ?_ ?_ (fun _ h => h.elim)
    · refine Outline.perform (fun _ => anyAnswer_stable _) fun s₁ a s' h hrec => ⟨trivial, ?_⟩
      cases a with
      | ok c => exact h.snoc hrec ⟨by simp, rfl⟩ (by simp [CursorRefused, Entry.Failed])
      | error e => exact h.snoc hrec ⟨by simp, rfl⟩ (by simp [CursorRefused, Entry.Failed])
    · intro a
      cases a with
      | ok c => exact (hk c).outline s
      | error e => exact Outline.crashed fun _ h => h.of_iff (iff_of_true trivial rfl)
  ends faults s hs := by
    refine wp_bind'.mpr (wp_dbCall hs (by simp [DbCall.handle]) fun a db hexec halone => ?_)
    cases a with
    | ok c => exact (hk c).ends faults _ halone
    | error e => exact wp_crash.mpr halone

theorem quiet_getPortfolio {accountId symbol : CStr} (ha : accountId ≠ []) (hs : symbol ≠ []) :
    Quiet self CursorRefused (getPortfolio accountId symbol self : DbProgram F _) := by
  have hf : Harmless (CursorRefused : Entry F → Prop) := harmless_cursorRefused
  unfold getPortfolio
  rw [if_neg (by simp [ha, hs])]
  refine quiet_cursorOrCrash fun c => Quiet.bind ?_ fun r => ?_
  · refine Quiet.walk c none
      (fun a => if accountId = a.2.accountId ∧ symbol = a.2.symbol then .inr (some a)
        else .inl ()) ?_ (hf _ (by simp))
    intro x
    unfold getPortfolioStep
    congr 1
    funext r
    cases r with
    | error e => rfl
    | ok a =>
      obtain ⟨k, p⟩ := a
      by_cases h : accountId = p.accountId ∧ symbol = p.symbol
      · simp only [if_pos h]
      · simp only [if_neg h]
  · split
    · exact Quiet.pure _
    · exact (quiet_close hf _).bind fun _ => Quiet.pure _

theorem quiet_recordExists_bind {dbp : Dbp} (hdbp : dbp ≠ .portfoliosSec) {key : CStr}
    (hf : Harmless fatal) {f : Bool → DbProgram F α} (hfalse : Quiet self fatal (f false))
    (htrue : key ≠ [] → Quiet self fatal (f true)) :
    Quiet self fatal (recordExists dbp key self >>= f) := by
  by_cases hkey : key = []
  · rw [recordExists, if_pos hkey]
    exact hfalse
  · refine (quiet_recordExists hf dbp hdbp key).bind fun b => ?_
    cases b
    · exact hfalse
    · exact htrue hkey

section Orders
variable [CFloat F]

theorem quiet_placeOrder (accountId symbol : CStr) (price : F) (amount : ℤ) (forceApply : Bool) :
    Quiet self CursorRefused (placeOrder accountId symbol price amount forceApply (some self)) := by
  have hf : Harmless (CursorRefused : Entry F → Prop) := harmless_cursorRefused
  change Quiet self CursorRefused
    (placeOrderIn accountId symbol price amount forceApply (some self) self)
  unfold placeOrderIn accountExists symbolExists
  refine quiet_recordExists_bind (by simp) hf (quiet_failXit ⟨self, none, none⟩) fun ha => ?_
  refine quiet_recordExists_bind (by simp) hf (quiet_failXit ⟨self, none, none⟩) fun hs => ?_
  refine (quiet_getPortfolio ha hs).bind fun r => ?_
  rcases r with _ | ⟨cursorp, key, p⟩
  · have hprice : Quiet self CursorRefused
      (if forceApply = true then priceIs (CFloat.le · price) symbol self
        else pure true) := by
      split
      · exact quiet_priceIs hf _ _
      · exact Quiet.pure _
    refine hprice.bind fun b => ?_
    split
    · refine (quiet_createPortfolio hf _ _ _ _ _).bind fun rc => ?_
      split
      · exact quiet_finish hf _
      · exact quiet_failXit _
    · exact quiet_failXit _
  · refine (quiet_rewritePortfolio hf ⟨self, some cursorp, none⟩ rfl _
      (quiet_purchased hf _ _ _ _)).bind fun r => ?_
    cases r with
    | ok l => exact quiet_finish hf l
    | error l => exact quiet_failXit l

theorem quiet_sellStocks (accountId symbol : CStr) (price : F) (amount : ℤ) (forceApply : Bool) :
    Quiet self CursorRefused (sellStocks accountId symbol price amount forceApply (some self)) := by
  have hf : Harmless (CursorRefused : Entry F → Prop) := harmless_cursorRefused
  change Quiet self CursorRefused
    (sellStocksIn accountId symbol price amount forceApply (some self) self)
  unfold sellStocksIn accountExists symbolExists
  refine quiet_recordExists_bind (by simp) hf (quiet_failXit ⟨self, none, none⟩) fun ha => ?_
  refine quiet_recordExists_bind (by simp) hf (quiet_failXit ⟨self, none, none⟩) fun hs => ?_
  refine (quiet_getPortfolio ha hs).bind fun r => ?_
  rcases r with _ | ⟨cursorp, key, p⟩
  · exact quiet_failXit _
  · simp only
    split
    · exact quiet_failXit _
    · refine (quiet_rewritePortfolio hf ⟨self, some cursorp, none⟩ rfl _
        (quiet_sold hf _ _ _ _)).bind fun r => ?_
      cases r with
      | ok l => exact quiet_finish hf l
      | error l => exact quiet_failXit l

end Orders

/-! ## The functions of a view -/

theorem quiet_showQuote (symbol : CStr) :
    Quiet self NeverFatal (showQuote symbol (some self) : DbProgram F Rc) := by
  have hf : Harmless (NeverFatal : Entry F → Prop) := harmless_neverFatal
  unfold showQuote withXact
  refine (quiet_getStock hf symbol).bind fun r => ?_
  split
  · exact Quiet.pure _
  · refine (quiet_close hf _).bind fun r => ?_
    split <;> exact Quiet.pure _

theorem quiet_showOnePortfolio :
    Quiet self NeverFatal (showOnePortfolio (some self) : DbProgram F Rc) := by
  have hf : Harmless (NeverFatal : Entry F → Prop) := harmless_neverFatal
  unfold showOnePortfolio withXact
  refine Quiet.bind (Quiet.call ⟨by simp, rfl⟩ (by simp [DbCall.handle]) fun _ _ h => h) fun r => ?_
  cases r with
  | error e => exact Quiet.pure _
  | ok cursorp =>
    refine Quiet.bind (Quiet.walk cursorp () (fun _ => .inl ()) ?_ fun _ _ h => h) fun _ => ?_
    · intro x
      unfold showOnePortfolioStep
      congr 1
    · exact (quiet_close hf _).bind fun _ => Quiet.pure _

theorem quiet_showPortfoliosStep (showOnlyUsers : Bool) (c : CursorId) (x : Unit) :
    Quiet self NeverFatal (showPortfoliosStep showOnlyUsers self c x : DbProgram F _) := by
  unfold showPortfoliosStep
  refine Quiet.bind (Quiet.call ⟨by simp, rfl⟩ (by simp [DbCall.handle]) fun _ _ h => h) fun r => ?_
  split
  · exact Quiet.pure _
  · split
    · exact Quiet.pure _
    · exact quiet_showOnePortfolio.bind fun _ => Quiet.pure _

structure Kept (c : CursorId) (db db' : Db F) : Prop where
  personal : db'.personal = db.personal
  cursor : db'.cursor? c = db.cursor? c
  next : db.nextCursor ≤ db'.nextCursor

theorem Kept.refl (c : CursorId) (db : Db F) : Kept c db db := ⟨rfl, rfl, le_rfl⟩

theorem Kept.trans {c : CursorId} {db db' db'' : Db F} (h : Kept c db db') (h' : Kept c db' db'') :
    Kept c db db'' :=
  ⟨h'.personal.trans h.personal, h'.cursor.trans h.cursor, h.next.trans h'.next⟩

theorem kept_moveCursor {c c' : CursorId} (hne : c' ≠ c) (db : Db F) (pos : Position) :
    Kept c db (db.moveCursor c' pos) := ⟨rfl, cursor?_moveCursor_ne hne pos, le_rfl⟩

theorem kept_closeCursor {c c' : CursorId} (hne : c' ≠ c) (db : Db F) :
    Kept c db (db.closeCursor c') :=
  ⟨rfl, cursor?_closeCursor_ne hne, le_rfl⟩

theorem kept_openCursor {c : CursorId} {fault : Option DbError} {db db' : Db F} {dbp : Dbp}
    {r : Except DbError CursorId} (hc : c < db.nextCursor)
    (h : db.exec self fault (.cursor dbp self) = some (r, db')) :
    Kept c db db' ∧ ∀ c', r = .ok c' → c' ≠ c := by
  cases fault with
  | some e =>
    cases h
    exact ⟨Kept.refl c db, fun c' h => by cases h⟩
  | none =>
    cases h
    refine ⟨⟨rfl, cursor?_openCursor_ne (t := self) dbp hc.ne, Nat.le_succ _⟩, ?_⟩
    intro c' h
    cases h
    exact hc.ne'

theorem openCursor_lt {fault : Option DbError} {db db' : Db F} {dbp : Dbp}
    {r : Except DbError CursorId} (h : db.exec self fault (.cursor dbp self) = some (r, db'))
    {c : CursorId} (hc : r = .ok c) : c < db'.nextCursor := by
  cases fault with
  | some e =>
    cases h
    cases hc
  | none =>
    cases h
    cases hc
    exact Nat.lt_succ_self _

theorem kept_pgetNext {c c' : CursorId} {fault : Option DbError} {db db' : Db F}
    {r : Except DbError (CStr × Portfolio)} (hne : c' ≠ c)
    (h : db.exec self fault (.portfoliosPgetNext c') = some (r, db')) : Kept c db db' := by
  cases fault with
  | some e =>
    cases h
    exact Kept.refl c db
  | none =>
    simp only [Db.exec, Db.perform, Db.onCursor] at h
    cases hoc : db.cursor? c' with
    | none =>
      simp only [hoc] at h
      cases h
      exact Kept.refl c db
    | some oc =>
      have hid : oc.id = c' := by simpa using List.find?_some hoc
      simp only [hoc, Db.portfoliosPgetNext, hid] at h
      split at h
      · split at h
        · cases h
        · split at h <;> cases h
          · exact kept_moveCursor hne db _
          · exact Kept.refl c db
      · cases h
        exact Kept.refl c db

theorem kept_close {c c' : CursorId} {fault : Option DbError} {db db' : Db F}
    {r : Except DbError Unit} (hne : c' ≠ c) (h : db.exec self fault (.close c') = some (r, db')) :
    Kept c db db' := by
  cases fault <;> cases h <;> exact kept_closeCursor hne db

theorem showOnePortfolio_kept {c : CursorId} {faults : Faults} {s : Session F}
    (hs : s.db.Alone self) (hc : c < s.db.nextCursor) :
    wp (Session.answer self faults) (showOnePortfolio (some self)) s
      fun _ s' =>
      s'.db.Alone self ∧ Kept c s.db s'.db := by
  unfold showOnePortfolio withXact
  refine wp_bind'.mpr (wp_dbCall hs (by simp [DbCall.handle]) fun r db hexec halone => ?_)
  obtain ⟨hkept, hne⟩ := kept_openCursor hc hexec
  cases r with
  | error e => exact wp_pure.mpr ⟨halone, hkept⟩
  | ok c' =>
    refine wp_bind'.mpr (wp_loop (fun _ s' => s'.db.Alone self ∧ Kept c s.db s'.db)
      (fun _ => walkMeasure c') ?_
      ⟨halone, hkept⟩)
    · intro _ s' hs'
      refine wp_bind'.mpr (wp_dbCall hs'.1 (by simp [DbCall.handle])
        fun r' db' hexec' halone' => ?_)
      have hkept' := hs'.2.trans (kept_pgetNext (hne c' rfl) hexec')
      cases r' with
      | error e =>
        refine wp_pure.mpr (wp_bind'.mpr (wp_dbCall halone' (by simp [DbCall.handle])
          fun r'' db'' hexec'' halone'' => ?_))
        exact wp_pure.mpr ⟨halone'', hkept'.trans (kept_close (hne c' rfl) hexec'')⟩
      | ok a => exact wp_pure.mpr ⟨⟨halone', hkept'⟩, portfoliosPgetNext_measure hexec'⟩

def personalMeasure (c : CursorId) (db : Db F) : ℕ :=
  match db.cursor? c with
  | some oc => remaining db.personal (oc.position.map fun pos => (ofLex pos).1)
  | none => 0

theorem Kept.personalMeasure {c : CursorId} {db db' : Db F} (h : Kept c db db') :
    personalMeasure c db' = personalMeasure c db := by
  simp only [Benchmark.personalMeasure, h.cursor, h.personal]

theorem personalNext_measure {fault : Option DbError} {db db' : Db F} {c : CursorId} {key : CStr}
    (h : db.exec self fault (.personalNext c) = some (.ok key, db')) :
    personalMeasure c db' < personalMeasure c db ∧ db'.nextCursor = db.nextCursor := by
  cases fault with
  | some e => simp [Db.exec] at h
  | none =>
    simp only [Db.exec, Db.perform, Db.onCursor] at h
    cases hc : db.cursor? c with
    | none => simp [hc] at h
    | some oc =>
      simp only [hc, Db.personalNext] at h
      cases hnext : nextAfter db.personal (oc.position.map fun pos => (ofLex pos).1) with
      | none =>
        simp only [hnext] at h
        cases h
      | some k =>
        simp only [hnext] at h
        cases h
        refine ⟨?_, rfl⟩
        simp only [personalMeasure, cursor?_moveCursor_id hc, hc]
        exact remaining_lt hnext

theorem showPortfolios_walk_ends (showOnlyUsers : Bool) {c : CursorId} (faults : Faults)
    (s : Session F) (hs : s.db.Alone self) (hc : c < s.db.nextCursor) :
    wp (Session.answer self faults) (Program.loop (showPortfoliosStep showOnlyUsers self c) ()) s
      fun _ s' =>
      s'.db.Alone self := by
  refine wp_loop (fun _ s' => s'.db.Alone self ∧ c < s'.db.nextCursor)
    (fun _ s' => personalMeasure c s'.db) ?_ ⟨hs, hc⟩
  intro _ s' hs'
  refine wp_bind'.mpr (wp_dbCall hs'.1 (by simp [DbCall.handle]) fun r db hexec halone => ?_)
  cases r with
  | error e => exact wp_pure.mpr halone
  | ok key =>
    obtain ⟨hlt, hnext⟩ := personalNext_measure hexec
    have hc' : c < db.nextCursor := hnext ▸ hs'.2
    cases showOnlyUsers with
    | true => exact wp_pure.mpr ⟨⟨halone, hc'⟩, hlt⟩
    | false =>
      refine wp_bind'.mpr (wp_mono (showOnePortfolio_kept halone hc') ?_)
      rintro (rc | _) s'' ⟨halone'', hkept⟩
      · exact wp_pure.mpr ⟨⟨halone'', hc'.trans_le hkept.next⟩, hkept.personalMeasure ▸ hlt⟩
      · exact halone''

theorem quiet_showPortfolios (accountId : CStr) (showOnlyUsers : Bool) :
    Quiet self NeverFatal
      (showPortfolios accountId showOnlyUsers (some self) : DbProgram F Rc) := by
  have hf : Harmless (NeverFatal : Entry F → Prop) := harmless_neverFatal
  have hend : ∀ c, Quiet self NeverFatal (showPortfoliosEnd (some self) self c : DbProgram F Rc) :=
    fun c =>
    (quiet_close hf c).bind fun _ => Quiet.pure _
  unfold showPortfolios withXact
  by_cases ha : accountId = []
  · simp only [if_pos ha]
    have hfail : ∀ c, Quiet self NeverFatal (failOwn (some self) self (some c) : DbProgram F Rc) :=
      fun c => Quiet.pure _
    constructor
    · intro s
      refine Outline.bind (outline_call ⟨by simp, rfl⟩ fun _ _ h => h) (fun r => ?_)
        fun _ h => h.of_iff (by simp)
      cases r with
      | error e => exact Outline.pure fun _ h => h.of_iff (by simp)
      | ok c =>
        refine Outline.bind (Q := fun o => Stretch NeverFatal s (o = .crashed)) ?_ (fun e => ?_)
          fun _ h => h.of_iff (by simp)
        · exact ((Quiet.outline_loop (quiet_showPortfoliosStep showOnlyUsers c) ()) s).pre
            fun _ h => h.of_iff (by simp)
        · cases e with
          | notFound => exact ((hend c).outline s).pre fun _ h => h.of_iff (by simp)
          | keyExist => exact ((hfail c).outline s).pre fun _ h => h.of_iff (by simp)
          | other => exact ((hfail c).outline s).pre fun _ h => h.of_iff (by simp)
    · intro faults s hs
      refine wp_bind'.mpr (wp_dbCall hs (by simp [DbCall.handle]) fun r db hexec halone => ?_)
      cases r with
      | error e => exact wp_pure.mpr halone
      | ok c =>
        have hc := openCursor_lt hexec rfl
        refine wp_bind'.mpr (wp_mono (showPortfolios_walk_ends showOnlyUsers faults _ halone hc) ?_)
        rintro (e | _) s' halone'
        · cases e with
          | notFound => exact (hend c).ends faults s' halone'
          | keyExist => exact (hfail c).ends faults s' halone'
          | other => exact (hfail c).ends faults s' halone'
        · exact halone'
  · simp only [if_neg ha]
    refine Quiet.bind (Quiet.call ⟨by simp, rfl⟩ (by simp [DbCall.handle]) fun _ _ h => h)
      fun r => ?_
    cases r with
    | error e => exact Quiet.pure _
    | ok c =>
      refine (quiet_get hf .personal c accountId).bind fun r => ?_
      cases r with
      | error e => exact hend c
      | ok _ =>
        simp only
        split
        · exact hend c
        · exact quiet_showOnePortfolio.bind fun _ => hend c

/-- Refreshing a quote crashes no more than viewing does. -/
theorem quiet_rewriteQuote [CFloat F] (symbol : CStr) (newValue : F) :
    Quiet self NeverFatal (rewriteQuote symbol newValue self) := by
  have hf : Harmless (NeverFatal : Entry F → Prop) := harmless_neverFatal
  unfold rewriteQuote newPrice
  refine (quiet_getStock hf symbol).bind fun r => ?_
  rcases r with _ | ⟨cursorp, currentPrice⟩
  · exact Quiet.pure _
  · refine Quiet.bind ?_ fun price => ?_
    · split
      · exact Quiet.pure _
      · refine Quiet.rand.bind fun r => ?_
        split <;> exact Quiet.pure _
    · refine Quiet.bind (Quiet.call ⟨by simp, rfl⟩ (by simp [DbCall.handle]) fun _ _ h => h)
        fun r => ?_
      cases r with
      | error e => exact Quiet.pure _
      | ok _ =>
        refine (quiet_close hf cursorp).bind fun r => ?_
        cases r <;> exact Quiet.pure _

end Chronos.Benchmark
