import Chronos.Orders.Viewing

/-! # Requests of every kind

The exchange answers the views too: with the code, and with each account that was asked
for and what the book holds for it. The transactions of the benchmark, one after another,
refine it.
-/
namespace Chronos.Orders
open Foundation Storage Benchmark Program
variable {F : Type}

/-- One record for each symbol that the account holds, with what it holds. -/
structure Book.Lists (b : Book) (accountId : CStr) (ps : List Portfolio) : Prop where
  owner : ∀ p ∈ ps, p.accountId = accountId
  once : (ps.map Portfolio.symbol).Nodup
  held : ∀ symbol n, (∃ p ∈ ps, p.symbol = symbol ∧ p.holdStocks = n) ↔
    b (accountId, symbol) = some n

inductive Book.Shows (b : Book) : List CStr → List Shown → Prop
  | nil : Book.Shows b [] []
  | cons {accountId : CStr} {accounts : List CStr} {ps : List Portfolio} {out : List Shown} :
    b.Lists accountId ps → Book.Shows b accounts out →
    Book.Shows b (accountId :: accounts) (.person accountId :: ps.map .portfolio ++ out)

variable {self : Txn} {db : Db F} {x : Exchange F}

theorem mem_recordsOf {accountId : CStr} {p : Portfolio} : p ∈ recordsOf db self accountId ↔
    ∃ k, db.portfolios.view self k = some p ∧ p.accountId = accountId := by
  simp only [recordsOf, recordsAt, List.mem_filterMap, mem_inOrder, mem_walkKeys,
    Option.filter_eq_some_iff, decide_eq_true_eq]
  constructor
  · rintro ⟨pos, -, hview, hp⟩
    exact ⟨_, hview, hp⟩
  · rintro ⟨k, hview, hp⟩
    exact ⟨_, ⟨k, p, hview, rfl⟩, hview, hp⟩

/-- The walk meets no two records of one account and symbol. -/
theorem recordsOf_once (hdistinct : Distinct Portfolio.holder (db.portfolios.view self))
    (accountId : CStr) : ((recordsOf db self accountId).map Portfolio.symbol).Nodup := by
  refine List.pairwise_map.mpr (List.pairwise_filterMap.mpr ?_)
  refine (inOrder_pairwise (db.walkKeys self)).imp_of_mem ?_
  intro pos pos' hpos hpos' hlt p hp p' hp' hsymbol
  obtain ⟨hview, ha⟩ := Option.filter_eq_some_iff.mp hp
  obtain ⟨hview', ha'⟩ := Option.filter_eq_some_iff.mp hp'
  rw [decide_eq_true_eq] at ha ha'
  obtain ⟨k, q, hq, rfl⟩ := mem_walkKeys.mp (mem_inOrder.mp hpos)
  obtain ⟨k', q', hq', rfl⟩ := mem_walkKeys.mp (mem_inOrder.mp hpos')
  simp only [ofLex_toLex] at hview hview'
  obtain rfl : q = p := Option.some.inj (hq.symm.trans hview)
  obtain rfl : q' = p' := Option.some.inj (hq'.symm.trans hview')
  obtain rfl : k = k' := hdistinct k k' q q' hq hq' (Prod.ext (ha.trans ha'.symm) hsymbol)
  rw [hq] at hq'
  cases hq'
  exact lt_irrefl _ hlt

theorem Represents.lists (h : Represents self db x) (accountId : CStr) :
    x.book.Lists accountId (recordsOf db self accountId) := by
  have hview : db.portfolios.view self = db.portfolios.committed :=
    view_of_unwritten h.rests.unwritten
  refine ⟨fun p hp => (mem_recordsOf.mp hp).choose_spec.2, ?_, fun symbol n => ?_⟩
  · exact recordsOf_once (hview ▸ h.rests.index.distinct) accountId
  · rw [h.rests.index.value]
    simp only [mem_recordsOf, hview, Portfolio.holder, Prod.mk.injEq]
    constructor
    · rintro ⟨p, ⟨k, hk, ha⟩, hsymbol, hn⟩
      exact ⟨k, p, hk, ⟨ha, hsymbol⟩, hn⟩
    · rintro ⟨k, p, hk, ⟨ha, hsymbol⟩, hn⟩
      exact ⟨p, ⟨k, hk, ha⟩, hsymbol, hn⟩

theorem Represents.shows (h : Represents self db x) (accounts : List CStr) :
    x.book.Shows accounts (shownOf db self accounts) := by
  induction accounts with
  | nil => exact .nil
  | cons accountId accounts ih => exact .cons (h.lists accountId) ih

/-! ## Views -/

theorem viewStock_refines (symbolList : List CStr) (h : Represents self db x) :
    ∃ rc s', Exec (Session.answer self noFaults) (benchmarkViewStock2 symbolList) ⟨db, []⟩
      (.value rc) s' ∧
      Represents self s'.db x ∧ rc = quoted x.market.quote symbolList := by
  have hquote : db.quotes.committed = x.market.quote := by rw [← h.rests.market, marketOf]
  have hcode : quoted x.market.quote symbolList = BENCHMARK_SUCCESS ∨
    quoted x.market.quote symbolList = BENCHMARK_FAIL := by
    unfold quoted
    split <;> simp
  have hitems : ∀ s, Viewing self db s → (display s.trace).shown = [] →
    wp (Session.answer self noFaults)
      (applyItems (fun symbol xactH => showQuote symbol (some xactH)) symbolList self) s fun o s' =>
        o = .value (quoted x.market.quote symbolList) ∧ Viewing self db s' ∧ True := by
    intro s hs _
    refine wp_mono (wp_viewStocks symbolList hs) ?_
    rintro o s' ⟨rfl, hs'⟩
    exact ⟨by rw [hquote], hs', trivial⟩
  obtain ⟨o, s', he, rfl, hs', -⟩ :=
    wp_inXact_view (fun _ => True) "VIEW_STOCK_TXN" h hcode (fun _ _ _ _ => trivial) hitems
  exact ⟨_, s', he, hs', rfl⟩

/-- Commits and aborts show nothing. -/
theorem display_resolved {e : Entry F} (he : e.call.resolves = some self) (d : Display) :
    d.after e = d := by
  obtain ⟨before, c, a⟩ := e
  cases c <;> first | rfl | cases he

theorem viewPortfolio_refines (accountList : List CStr) (h : Represents self db x) :
    ∃ s', Exec (Session.answer self noFaults) (benchmarkViewPortfolio2 accountList) ⟨db, []⟩
      (.value BENCHMARK_SUCCESS) s' ∧
      Represents self s'.db x ∧
      x.book.Shows (accountList.flatMap (accountsShown x.market.personal))
        (display s'.trace).shown := by
  have hpersonal : db.personal = x.market.personal := by rw [← h.rests.market, marketOf]
  have hitems : ∀ s, Viewing self db s → (display s.trace).shown = [] →
    wp (Session.answer self noFaults)
      (applyItems (fun accountId xactH => showPortfolios accountId false
        (some xactH)) accountList self) s fun o s' =>
        o = .value BENCHMARK_SUCCESS ∧ Viewing self db s' ∧
          (display s'.trace).shown = shownOf db self
            (accountList.flatMap (accountsShown db.personal)) := by
    intro s hs hnil
    refine wp_mono (wp_viewPortfolios accountList hs) ?_
    rintro o s' ⟨rfl, hs', hshown⟩
    exact ⟨rfl, hs', by rw [hshown, hnil, List.nil_append]⟩
  obtain ⟨o, s', he, rfl, hs', hshown⟩ := wp_inXact_view
    (fun tr => (display tr).shown = shownOf db self
      (accountList.flatMap (accountsShown db.personal)))
    "VIEW_PORTFOLIO_TXN" h (.inl rfl)
      (fun tr e htr he => by rw [display_snoc, display_resolved he, htr]) hitems
  refine ⟨s', he, hs', ?_⟩
  rw [hshown, hpersonal]
  exact h.shows _

/-! ## Requests -/

/-- What a client may ask for, and the refreshes of the server itself. -/
inductive Request (F : Type) where
  | op (o : Op F)
  | viewStock (symbolList : List CStr)
  | viewPortfolio (accountList : List CStr)

/-- What the server returns, and what it shows. -/
structure Reply where
  rc : Rc
  shown : List Shown

def Request.shown : Request F → List (Entry F) → List Shown
  | .op _, _ => []
  | .viewStock _, _ => []
  | .viewPortfolio _, tr => (display tr).shown

def Exchange.Allowed (x : Exchange F) [CFloat F] : Request F → Prop
  | .op o => x.Allows o
  | .viewStock _ => True
  | .viewPortfolio _ => True

variable [CFloat F]

def Request.run : Request F → DbProgram F Rc
  | .op o => o.run
  | .viewStock symbolList => benchmarkViewStock2 symbolList
  | .viewPortfolio accountList => benchmarkViewPortfolio2 accountList

def Exchange.next (x : Exchange F) : Request F → Exchange F
  | .op o => (x.step o).1
  | _ => x

/-- The reply that the exchange gives to a request. -/
def Exchange.Replies (x : Exchange F) : Request F → Reply → Prop
  | .op o, r => r = ⟨(x.step o).2, []⟩
  | .viewStock symbolList, r => r = ⟨quoted x.market.quote symbolList, []⟩
  | .viewPortfolio accountList, r =>
    r.rc = BENCHMARK_SUCCESS ∧
      x.book.Shows (accountList.flatMap (accountsShown x.market.personal)) r.shown

theorem request_refines (q : Request F) (h : Represents self db x) (hallowed : x.Allowed q) :
    ∃ rc s', Exec (Session.answer self noFaults) q.run ⟨db, []⟩ (.value rc) s' ∧
      Represents self s'.db (x.next q) ∧
      x.Replies q ⟨rc, q.shown s'.trace⟩ := by
  cases q with
  | op o =>
    obtain ⟨s', he, hs'⟩ := step_refines o h hallowed
    exact ⟨_, s', he, hs', rfl⟩
  | viewStock symbolList =>
    obtain ⟨rc, s', he, hs', rfl⟩ := viewStock_refines symbolList h
    exact ⟨_, s', he, hs', rfl⟩
  | viewPortfolio accountList =>
    obtain ⟨s', he, hs', hshown⟩ := viewPortfolio_refines accountList h
    exact ⟨_, s', he, hs', rfl, hshown⟩

/-! ## Runs of requests -/

/-- Requests one after another, each with its reply. -/
inductive Dialogue (t : Txn) : Db F → List (Request F × Reply) → Db F → Prop
  | nil {db : Db F} : Dialogue t db [] db
  | cons {db db' : Db F} {q : Request F} {rc : Rc} {served : List (Request F × Reply)}
      {s' : Session F} :
    Exec (Session.answer t noFaults) q.run ⟨db, []⟩ (.value rc) s' → Dialogue t s'.db served db' →
    Dialogue t db ((q, ⟨rc, q.shown s'.trace⟩) :: served) db'

/-- Each reply is one that the exchange gives where the request meets it. -/
def Exchange.RepliesAll (x : Exchange F) : List (Request F × Reply) → Prop
  | [] => True
  | (q, r) :: served => x.Replies q r ∧ (x.next q).RepliesAll served

def Exchange.AllowedAll (x : Exchange F) : List (Request F) → Prop
  | [] => True
  | q :: requests => x.Allowed q ∧ (x.next q).AllowedAll requests

theorem Dialogue.replies {served : List (Request F × Reply)} {db' : Db F}
    (hdialogue : Dialogue self db served db') (h : Represents self db x)
    (hallowed : x.AllowedAll (served.map Prod.fst)) :
    x.RepliesAll served ∧ Represents self db' ((served.map Prod.fst).foldl Exchange.next x) := by
  induction hdialogue generalizing x with
  | nil => exact ⟨trivial, h⟩
  | @cons db db' q rc served s' he _ ih =>
    obtain ⟨hq, hrest⟩ := hallowed
    obtain ⟨rc', s'', he', hs'', hreply⟩ := request_refines q h hq
    obtain ⟨hrc, rfl⟩ := he.deterministic he'
    cases hrc
    obtain ⟨hreplies, hdb'⟩ := ih hs'' hrest
    exact ⟨⟨hreply, hreplies⟩, hdb'⟩

theorem dialogue_exists {requests : List (Request F)} (h : Represents self db x)
    (hallowed : x.AllowedAll requests) :
    ∃ served db', Dialogue self db served db' ∧ served.map Prod.fst = requests := by
  induction requests generalizing db x with
  | nil => exact ⟨[], db, .nil, rfl⟩
  | cons q requests ih =>
    obtain ⟨rc, s', he, hs', -⟩ := request_refines q h hallowed.1
    obtain ⟨served, db', hdialogue, hmap⟩ := ih hs' hallowed.2
    exact ⟨_, db', .cons he hdialogue, by rw [List.map_cons, hmap]⟩

/-- From an empty table any requests, one after another, come to their end, and every
reply is the one that the exchange gives where the request meets it. -/
theorem dialogue_refines_exchange (t : Txn) (personal stocks : List CStr)
    (quotes : LockTable CStr Txn F) (rand : ℕ → ℕ) (hquotes : ∀ k, (quotes.cell k).pending = none)
    (requests : List (Request F))
    (hallowed : (Exchange.opening ⟨personal, stocks, quotes.committed⟩ rand).AllowedAll requests) :
    (∃ served db, Dialogue t (Db.fresh personal stocks quotes rand) served db ∧
      served.map Prod.fst = requests) ∧
    ∀ served db, Dialogue t (Db.fresh personal stocks quotes rand) served db →
      served.map Prod.fst = requests →
      (Exchange.opening ⟨personal, stocks, quotes.committed⟩ rand).RepliesAll served := by
  refine ⟨dialogue_exists (represents_fresh hquotes) hallowed,
    fun served db hdialogue hrequests => ?_⟩
  subst hrequests
  exact (hdialogue.replies (represents_fresh hquotes) hallowed).1

theorem dialogue_refines_exchange_view :
    ∃ served db, Dialogue 1
      (Db.fresh [[49]] [[65]] ((LockTable.empty.write 0 [65] (10 : ℚ)).commit 0) id) served db ∧
      (Exchange.opening ⟨[[49]], [[65]],
        ((LockTable.empty.write 0 [65] (10 : ℚ)).commit 0).committed⟩ id).RepliesAll served ∧
      served.map Prod.fst =
        [.op (.order (.purchase [⟨[49], [65], 12, 5, by decide, by decide⟩])),
          .viewPortfolio [[49]], .viewStock [[66]]] := by
  have hall :=
    dialogue_refines_exchange 1 [[49]] [[65]] ((LockTable.empty.write 0 [65] (10 : ℚ)).commit 0) id
    (LockTable.settled_commit_write fun _ => rfl)
    [.op (.order (.purchase [⟨[49], [65], 12, 5, by decide, by decide⟩])), .viewPortfolio [[49]],
      .viewStock [[66]]]
    ⟨⟨fun b' _ => ⟨by decide, by decide, trivial⟩, by decide⟩, trivial, trivial, trivial⟩
  obtain ⟨⟨served, db, hdialogue, hrequests⟩, hreplies⟩ := hall
  exact ⟨served, db, hdialogue, hreplies served db hdialogue hrequests, hrequests⟩

end Chronos.Orders
