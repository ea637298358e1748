import Chronos.Orders.SingleThread

/-! # The exchange

The abstract component: a market whose quotes change, a book of what is held, and the
number of portfolio ids taken. Every call of a purchase, a sale or a refresh, one
after another from an empty table, does to the database what it does to the exchange.
-/
namespace Chronos.Orders
open Foundation Storage Benchmark Program
variable {F : Type}

structure Exchange (F : Type) where
  market : Market F
  rand : ℕ → ℕ
  book : Book
  ids : ℕ

/-- The calls of the benchmark that change the database. -/
inductive Op (F : Type) where
  | order (o : Order F)
  | refresh (symbol : CStr) (newValue : F)

def Market.setQuote (m : Market F) (symbol : CStr) (price : F) : Market F :=
  { m with quote := Function.update m.quote symbol (some price) }

def Exchange.opening (market : Market F) (rand : ℕ → ℕ) : Exchange F :=
  ⟨market, rand, fun _ => none, 0⟩

/-- The database is in the state of the exchange, and idle. -/
structure Represents (t : Txn) (db : Db F) (x : Exchange F) : Prop where
  alone : db.Alone t
  wellFormed : db.WellFormed
  rests : Rests t x.market x.rand x.book x.ids db
  within : x.book.Within

variable {self : Txn} {db : Db F} {x : Exchange F}

theorem represents_fresh {personal stocks : List CStr} {quotes : LockTable CStr Txn F}
    {rand : ℕ → ℕ} (hquotes : ∀ k, (quotes.cell k).pending = none) :
    Represents self (Db.fresh personal stocks quotes rand)
      (Exchange.opening ⟨personal, stocks, quotes.committed⟩ rand) where
  alone := by
    refine ⟨fun k => ?_, fun _ => rfl, fun _ hoc => absurd hoc List.not_mem_nil⟩
    simp [Db.fresh, LockTable.lockedByOther, Cell.lockedByOther, hquotes k]
  wellFormed := ⟨List.nodup_nil, fun _ hoc => absurd hoc List.not_mem_nil, hquotes⟩
  rests := {
    market := rfl
    rand := rfl
    unwritten := fun _ => rfl
    index := indexes_empty
    keys := fun k p hp => by cases hp
    counter := rfl }
  within _ _ h := by cases h

/-! ## Calls that do not fail -/

section Calls
variable {s : Session F} {symbol : CStr}

theorem wp_perform_noFaults {c : DbCall F}
    {Q : Outcome (Except DbError c.Payload) → Session F → Prop} {a : Except DbError c.Payload}
    {db : Db F} (hs : s.db.Alone self) (hc : ∀ t, c.handle = some t → t = self)
    (h : s.db.perform self c = some (a, db))
    (hQ : db.Alone self → Q (.value a) ⟨db, s.trace ++ [⟨s.db, c, a⟩]⟩) :
    wp (Session.answer self noFaults) (call c) s Q := by
  refine wp_dbCall hs hc fun a' db' hexec halone => ?_
  obtain ⟨rfl, rfl⟩ := Prod.mk.inj (Option.some.inj (h.symm.trans hexec))
  exact hQ halone

/-- `get_stock` finds the quote and leaves a cursor on it. -/
theorem wp_getStock (hs : s.db.Alone self) (hwf : s.db.WellFormed) (hsymbol : symbol ≠ []) :
    wp (Session.answer self noFaults) (getStock symbol self) s fun o s' => s'.db.Alone self ∧
      match s.db.quotes.committed symbol with
        | some price => o = .value (some (s.db.nextCursor, price)) ∧
          s'.db = (s.db.openCursor self .quotes).moveCursor s.db.nextCursor (toLex (symbol, []))
        | none =>
          o = .value none ∧ s'.db = (s.db.openCursor self .quotes).closeCursor s.db.nextCursor := by
  have hopen : (s.db.openCursor self .quotes).cursor? s.db.nextCursor =
    some ⟨s.db.nextCursor, self, .quotes, none⟩ :=
    cursor?_openCursor_self .quotes
  have hview : (s.db.openCursor self .quotes).quotes.view self symbol =
    s.db.quotes.committed symbol :=
    LockTable.view_eq_committed (Cell.own_of_pending_none (hwf.settled symbol))
  have hfree : (s.db.openCursor self .quotes).quotes.lockedByOther self symbol = false :=
    hs.quotes symbol
  unfold getStock
  rw [if_neg hsymbol]
  refine wp_bind'.mpr (wp_perform_noFaults hs (by simp [DbCall.handle]) rfl fun halone => ?_)
  cases hquote : s.db.quotes.committed symbol with
  | some price =>
    have hget : Db.perform self (s.db.openCursor self .quotes)
      (.get .quotes s.db.nextCursor symbol) =
        some (.ok price, (s.db.openCursor self .quotes).moveCursor s.db.nextCursor
          (toLex (symbol, []))) := by
      simp only [Db.perform, Db.onCursor, hopen, Db.get, hfree, hview, hquote]
      rfl
    refine wp_bind'.mpr (wp_perform_noFaults halone (by simp [DbCall.handle]) hget
      fun halone' => ?_)
    exact wp_pure.mpr ⟨halone', rfl, rfl⟩
  | none =>
    have hget : Db.perform self (s.db.openCursor self .quotes)
      (.get .quotes s.db.nextCursor symbol) =
        some (.error .notFound, s.db.openCursor self .quotes) := by
      simp only [Db.perform, Db.onCursor, hopen, Db.get, hfree, hview, hquote]
      rfl
    refine wp_bind'.mpr (wp_perform_noFaults halone (by simp [DbCall.handle]) hget
      fun halone' => ?_)
    refine wp_bind'.mpr (wp_perform_noFaults halone' (by simp [DbCall.handle]) rfl
      fun halone'' => ?_)
    exact wp_pure.mpr ⟨halone'', rfl, rfl⟩

theorem committed_commit_unwritten {db' : Db F} {b : Book} {n : ℕ} {r : ℕ → ℕ} {mk : Market F}
    (h : Rests self mk r b n db) (hportfolios : db'.portfolios = db.portfolios) :
    (db'.commit self).portfolios.committed = db.portfolios.committed := by
  rw [committed_commit, hportfolios, view_of_unwritten h.unwritten]

theorem Represents.commit_quote {db' : Db F} {y : Exchange F} {price : F} {r : ℕ → ℕ}
    (h : Represents self db y) (hquotes : db'.quotes = db.quotes.write self symbol price)
    (hportfolios : db'.portfolios = db.portfolios)
    (hdata : db'.personal = db.personal ∧ db'.stocks = db.stocks ∧
      db'.numberPortfolios = db.numberPortfolios)
    (hrand : db'.rand = r) : Rests self (y.market.setQuote symbol price) r y.book y.ids
      (db'.commit self) where
  market := by
    rw [← h.rests.market]
    simp only [marketOf, Market.setQuote, Db.commit, Db.release, hquotes, hdata.1, hdata.2.1,
      LockTable.committed_commit_write h.wellFormed.settled]
  rand := hrand
  unwritten _ := LockTable.own_commit_self
  index := by
    rw [committed_commit_unwritten h.rests hportfolios]
    exact h.rests.index
  keys := by
    rw [committed_commit_unwritten h.rests hportfolios]
    exact h.rests.keys
  counter := hdata.2.2.trans h.rests.counter

theorem quotesPut_noFaults (db : Db F) (symbol : CStr) (hs : db.Alone self) {c : CursorId}
    {oc : OpenCursor} (hc : db.cursor? c = some oc) (hrecord : oc.record = some symbol)
    (price : F) :
    db.perform self (.quotesPut c price) =
      some (.ok (), { db with quotes := db.quotes.write self symbol price }) := by
  simp only [Db.perform, Db.onCursor, hc, Db.quotesPut, hrecord, hs.owner hc, hs.quotes,
    hs.not_readLocked, Bool.or_false, Bool.false_eq_true, if_false]
  rfl

theorem wellFormed_commit_quote {cursors : List OpenCursor} {next : CursorId} {price : F}
    (h : (cursors.map OpenCursor.id).Nodup ∧ ∀ oc ∈ cursors, oc.id < next)
    (hsettled : ∀ k, (db.quotes.cell k).pending = none) {db' : Db F}
    (hquotes : db'.quotes = db.quotes.write self symbol price) (hcursors : db'.cursors = cursors)
    (hnext : db'.nextCursor = next) : (db'.commit self).WellFormed where
  nodup := (hcursors ▸ h.1).sublist (List.filter_sublist.map _)
  fresh oc hoc := hnext ▸ h.2 oc (hcursors ▸ List.mem_of_mem_filter hoc)
  settled := by
    rw [Db.commit, Db.release, hquotes]
    exact LockTable.settled_commit_write hsettled

end Calls

/-! ## Steps -/

variable [CFloat F]

def Op.run : Op F → DbProgram F Rc
  | .order o => o.transaction.run
  | .refresh symbol newValue => benchmarkRefreshQuotes2 symbol newValue

def quoteAfter (rand : ℕ → ℕ) (newValue currentPrice : F) : F × (ℕ → ℕ) :=
  if CFloat.le CFloat.zero newValue then (newValue, rand)
  else
    (if rand 0 % 2 = 0 ∨ CFloat.le currentPrice CFloat.zero then CFloat.addTenth currentPrice
      else CFloat.subTenth currentPrice, fun i => rand (i + 1))

/-- What a call does, and the code it returns. Amounts are added exactly. -/
def Exchange.step (x : Exchange F) : Op F → Exchange F × Rc
  | .order o =>
    let ids := x.ids + o.taken id x.market x.book
    match o.apply id x.market x.book with
    | some book => ({ x with book := book, ids := ids }, BENCHMARK_SUCCESS)
    | none => ({ x with ids := ids }, BENCHMARK_FAIL)
  | .refresh symbol newValue =>
    if symbol = [] then (x, BENCHMARK_FAIL)
    else match x.market.quote symbol with
      | none => (x, BENCHMARK_FAIL)
      | some currentPrice =>
        let quote := quoteAfter x.rand newValue currentPrice
        ({ x with market := x.market.setQuote symbol quote.1, rand := quote.2 }, BENCHMARK_SUCCESS)

/-- The sums of the call are in range, and fewer than 2³¹ ids are taken up to its end. -/
def Exchange.Allows (x : Exchange F) : Op F → Prop
  | .order o => o.InRange x.market x.book ∧ x.ids + o.taken id x.market x.book < 2 ^ 31
  | .refresh _ _ => True

/-- An order does to the database what it does to the book. -/
theorem order_refines (o : Order F) (h : Represents self db x) (hallows : x.Allows (.order o)) :
    ∃ s', Exec (Session.answer self noFaults) o.transaction.run ⟨db, []⟩
      (.value (x.step (.order o)).2) s' ∧
      Represents self s'.db (x.step (.order o)).1 := by
  obtain ⟨hrange, hids⟩ := hallows
  obtain ⟨hexact, htaken, hwithin⟩ := o.exact h.within hrange
  obtain ⟨out, s', he, halone⟩ := o.transaction.ends noFaults (s := ⟨db, []⟩) h.alone
  have hdoes := does_order o h.rests (by rw [htaken]; exact hids)
  obtain ⟨rc, rfl, hwf, hrc⟩ := hdoes.run he h.wellFormed rfl
  rw [hexact, htaken] at hrc
  refine ⟨s', ?_, ?_⟩ <;> simp only [Exchange.step]
  · rcases hrc with ⟨rfl, b, hb, -⟩ | ⟨rfl, hnone, -⟩
    · simpa only [hb] using he
    · simpa only [hnone] using he
  · rcases hrc with ⟨rfl, b, hb, hrests⟩ | ⟨rfl, hnone, hrests⟩
    · simp only [hb]
      exact ⟨halone, hwf, hrests, hwithin b hb⟩
    · simp only [hnone]
      exact ⟨halone, hwf, hrests, h.within⟩

/-! ## Refreshing a quote -/

section Refresh
variable {s : Session F} {symbol : CStr}

theorem wp_newPrice (newValue currentPrice : F) :
    wp (Session.answer self noFaults) (newPrice newValue currentPrice) s fun o s' =>
      o = .value (quoteAfter s.db.rand newValue currentPrice).1 ∧
      s'.db = { s.db with rand := (quoteAfter s.db.rand newValue currentPrice).2 } := by
  unfold newPrice quoteAfter
  split
  · exact wp_pure.mpr ⟨rfl, rfl⟩
  · refine wp_bind'.mpr (wp_perform.mpr ⟨_, _, rfl, ?_⟩)
    simp only [after]
    split
    · exact wp_pure.mpr ⟨rfl, rfl⟩
    · exact wp_pure.mpr ⟨rfl, rfl⟩

theorem wp_updateStock (hsymbol : symbol ≠ []) (newValue : F) (h : Represents self db x) :
    wp (Session.answer self noFaults) (updateStock symbol newValue) ⟨db, []⟩ fun o s' =>
      match db.quotes.committed symbol with
        | some currentPrice => o = .value BENCHMARK_SUCCESS ∧ Represents self s'.db
          { x with
            market := x.market.setQuote symbol (quoteAfter x.rand newValue currentPrice).1
            rand := (quoteAfter x.rand newValue currentPrice).2 }
        | none => o = .value BENCHMARK_FAIL ∧ Represents self s'.db x := by
  have hwf := h.wellFormed
  refine wp_bind'.mpr (wp_perform_noFaults h.alone (by simp [DbCall.handle]) rfl fun halone => ?_)
  refine wp_bind'.mpr (wp_bind'.mpr (wp_mono (wp_getStock halone hwf hsymbol) ?_))
  rintro o s₁ ⟨halone₁, hget⟩
  cases hquote : db.quotes.committed symbol with
  | none =>
    simp only [hquote] at hget
    obtain ⟨rfl, hdb⟩ := hget
    refine wp_pure.mpr (wp_bind'.mpr (wp_pure.mpr (wp_bind'.mpr ?_)))
    refine wp_perform_noFaults halone₁ (by simp [DbCall.handle]) rfl
      fun halone₂ => wp_pure.mpr ⟨rfl, ?_⟩
    have hwf₁ : s₁.db.WellFormed :=
      hdb ▸ wellFormed_closeCursor (wellFormed_openCursor hwf .quotes) _
    have hdata : SameData db s₁.db := hdb ▸ ⟨rfl, rfl, rfl, rfl, rfl, rfl, rfl⟩
    have hmid := h.rests.midway.sameData hdata
    exact ⟨halone₂, wellFormed_abort hwf₁,
      hmid.abort hwf₁ h.rests (hdata.numberPortfolios.trans h.rests.counter) le_rfl, h.within⟩
  | some currentPrice =>
    simp only [hquote] at hget
    obtain ⟨rfl, hdb⟩ := hget
    refine wp_bind'.mpr (wp_mono (wp_newPrice newValue currentPrice) ?_)
    rintro o ⟨db₂, tr₂⟩ ⟨rfl, rfl⟩
    obtain ⟨db₁, tr₁⟩ := s₁
    subst hdb
    have hrand : db.rand = x.rand := h.rests.rand
    simp only [← hrand]
    generalize hnew : quoteAfter db.rand newValue currentPrice = new
    have hput := quotesPut_noFaults { db with
        cursors :=
          ((db.openCursor self .quotes).moveCursor db.nextCursor (toLex (symbol, []))).cursors
        nextCursor := db.nextCursor + 1
        rand := new.2 } symbol ⟨halone₁.quotes, halone₁.portfolios, halone₁.cursors⟩
      (cursor?_moveCursor_self (cursor?_openCursor_self .quotes) (toLex (symbol, []))) rfl new.1
    subst hnew
    refine wp_bind'.mpr (wp_perform_noFaults ⟨halone₁.quotes, halone₁.portfolios, halone₁.cursors⟩
      (by simp [DbCall.handle]) hput fun halone₂ => ?_)
    refine wp_bind'.mpr (wp_perform_noFaults halone₂ (by simp [DbCall.handle]) rfl
      fun halone₃ => ?_)
    refine wp_pure.mpr (wp_bind'.mpr ?_)
    refine wp_perform_noFaults halone₃ (by simp [DbCall.handle]) rfl
      fun halone₄ => wp_pure.mpr ⟨rfl, ?_⟩
    have hwf₁ :=
      wellFormed_closeCursor (wellFormed_moveCursor (wellFormed_openCursor hwf .quotes (t := self))
      db.nextCursor (toLex (symbol, []))) db.nextCursor
    refine ⟨halone₄, wellFormed_commit_quote ⟨hwf₁.nodup, hwf₁.fresh⟩ hwf.settled rfl rfl rfl, ?_,
      h.within⟩
    refine h.commit_quote ?_ ?_ ⟨?_, ?_, ?_⟩ ?_ <;> rfl

/-- A refresh changes a quote and nothing that is held. -/
theorem refresh_refines (symbol : CStr) (newValue : F) (h : Represents self db x) :
    ∃ s', Exec (Session.answer self noFaults) (benchmarkRefreshQuotes2 symbol newValue) ⟨db, []⟩
        (.value (x.step (.refresh symbol newValue)).2) s' ∧
      Represents self s'.db (x.step (.refresh symbol newValue)).1 := by
  suffices hwp : wp (Session.answer self noFaults) (benchmarkRefreshQuotes2 symbol newValue)
    ⟨db, []⟩ fun o s' =>
      o = .value (x.step (.refresh symbol newValue)).2 ∧
        Represents self s'.db (x.step (.refresh symbol newValue)).1 by
    obtain ⟨o, s', he, rfl, hs'⟩ := hwp
    exact ⟨s', he, hs'⟩
  have hmarket : x.market.quote = db.quotes.committed := by rw [← h.rests.market, marketOf]
  unfold benchmarkRefreshQuotes2
  by_cases hsymbol : symbol = []
  · simp only [Exchange.step, if_pos hsymbol]
    exact wp_pure.mpr ⟨rfl, h⟩
  · simp only [Exchange.step, if_neg hsymbol, hmarket]
    refine wp_bind'.mpr (wp_mono (wp_updateStock hsymbol newValue h) ?_)
    rintro o s' hpost
    cases hquote : db.quotes.committed symbol with
    | none =>
      simp only [hquote] at hpost
      obtain ⟨rfl, hrep⟩ := hpost
      exact wp_pure.mpr ⟨rfl, hrep⟩
    | some currentPrice =>
      simp only [hquote] at hpost
      obtain ⟨rfl, hrep⟩ := hpost
      exact wp_pure.mpr ⟨rfl, hrep⟩

end Refresh

/-! ## Runs of calls -/

/-- Calls one after another, with the codes that they return. -/
inductive Calls (t : Txn) : Db F → List (Op F) → List Rc → Db F → Prop
  | nil {db : Db F} : Calls t db [] [] db
  | cons {db db' : Db F} {op : Op F} {ops : List (Op F)} {rc : Rc} {rcs : List Rc}
      {s' : Session F} :
      Exec (Session.answer t noFaults) op.run ⟨db, []⟩ (.value rc) s' → Calls t s'.db ops rcs db' →
      Calls t db (op :: ops) (rc :: rcs) db'

def Exchange.after (x : Exchange F) : List (Op F) → Exchange F
  | [] => x
  | op :: ops => (x.step op).1.after ops

def Exchange.codes (x : Exchange F) : List (Op F) → List Rc
  | [] => []
  | op :: ops => (x.step op).2 :: (x.step op).1.codes ops

def Exchange.AllowsAll (x : Exchange F) : List (Op F) → Prop
  | [] => True
  | op :: ops => x.Allows op ∧ (x.step op).1.AllowsAll ops

theorem Exchange.AllowsAll.of_prefix {done ops : List (Op F)} (h : x.AllowsAll ops)
    (hdone : done <+: ops) : x.AllowsAll done := by
  induction done generalizing x ops with
  | nil => trivial
  | cons op done ih =>
    obtain ⟨rest, rfl⟩ := hdone
    exact ⟨h.1, ih h.2 (List.prefix_append done rest)⟩

theorem Calls.deterministic {ops : List (Op F)} {rcs rcs' : List Rc} {db₁ db₂ : Db F}
    (h : Calls self db ops rcs db₁) (h' : Calls self db ops rcs' db₂) : rcs = rcs' ∧ db₁ = db₂ := by
  induction h generalizing rcs' with
  | nil =>
    cases h'
    exact ⟨rfl, rfl⟩
  | cons he _ ih =>
    cases h' with
    | cons he' hcalls' =>
      obtain ⟨hrc, rfl⟩ := he.deterministic he'
      cases hrc
      obtain ⟨rfl, rfl⟩ := ih hcalls'
      exact ⟨rfl, rfl⟩

theorem step_refines (op : Op F) (h : Represents self db x) (hallows : x.Allows op) :
    ∃ s', Exec (Session.answer self noFaults) op.run ⟨db, []⟩ (.value (x.step op).2) s' ∧
      Represents self s'.db (x.step op).1 := by
  cases op with
  | order o => exact order_refines o h hallows
  | refresh symbol newValue => exact refresh_refines symbol newValue h

theorem calls_refine {ops : List (Op F)} (h : Represents self db x) (hallows : x.AllowsAll ops) :
    ∃ db', Calls self db ops (x.codes ops) db' ∧ Represents self db' (x.after ops) := by
  induction ops generalizing db x with
  | nil => exact ⟨db, .nil, h⟩
  | cons op ops ih =>
    obtain ⟨s', he, hs'⟩ := step_refines op h hallows.1
    obtain ⟨db', hcalls, hdb'⟩ := ih hs' hallows.2
    exact ⟨db', .cons he hcalls, hdb'⟩

/-- After every one of any sequence of calls the codes returned are those of the exchange,
Portfolios has one record for each account and symbol in the book, with what is held,
and no other, and Quotes are those of the exchange. -/
theorem calls_refine_exchange (t : Txn) (personal stocks : List CStr)
    (quotes : LockTable CStr Txn F) (rand : ℕ → ℕ) (hquotes : ∀ k, (quotes.cell k).pending = none)
    (ops : List (Op F))
    (hallows : (Exchange.opening ⟨personal, stocks, quotes.committed⟩ rand).AllowsAll ops) :
    ∀ done, done <+: ops →
      (∃ rcs db, Calls t (Db.fresh personal stocks quotes rand) done rcs db) ∧
      ∀ rcs db, Calls t (Db.fresh personal stocks quotes rand) done rcs db →
        rcs = (Exchange.opening ⟨personal, stocks, quotes.committed⟩ rand).codes done ∧
        Indexes Portfolio.holder Portfolio.holdStocks db.portfolios.committed
          ((Exchange.opening ⟨personal, stocks, quotes.committed⟩ rand).after done).book ∧
        marketOf db =
          ((Exchange.opening ⟨personal, stocks, quotes.committed⟩ rand).after done).market := by
  intro done hdone
  obtain ⟨db', hcalls, hdb'⟩ := calls_refine (represents_fresh hquotes) (hallows.of_prefix hdone)
  refine ⟨⟨_, db', hcalls⟩, fun rcs db hrun => ?_⟩
  obtain ⟨rfl, rfl⟩ := hrun.deterministic hcalls
  exact ⟨rfl, hdb'.rests.index, hdb'.rests.market⟩

theorem calls_refine_exchange_purchase :
    ∃ rcs db, Calls 1 (Db.fresh [[49]] [[65]] ((LockTable.empty.write 0 [65] (10 : ℚ)).commit 0) id)
      [.order (.purchase [⟨[49], [65], 12, 5, by decide, by decide⟩]), .refresh [65] 13] rcs db ∧
      rcs = [BENCHMARK_SUCCESS, BENCHMARK_SUCCESS] := by
  have hrun :=
    calls_refine_exchange 1 [[49]] [[65]] ((LockTable.empty.write 0 [65] (10 : ℚ)).commit 0) id
    (LockTable.settled_commit_write fun _ => rfl)
    [.order (.purchase [⟨[49], [65], 12, 5, by decide, by decide⟩]), .refresh [65] 13]
    ⟨⟨fun b' _ => ⟨by decide, by decide, trivial⟩, by decide⟩, trivial, trivial⟩ _
      (List.prefix_refl _)
  obtain ⟨⟨rcs, db, hcalls⟩, hall⟩ := hrun
  exact ⟨rcs, db, hcalls, (hall rcs db hcalls).1.trans (by decide)⟩

end Chronos.Orders
