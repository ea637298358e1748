import Chronos.Foundation.Walk
import Chronos.Orders.Exchange

/-! # What the views show

`show_personal_item` and `show_portfolio_item` print the record that was just read; so
what a view has shown can be told from its calls. A view leaves the data as it is and
shows each account with the portfolios that it holds, in the order of the cursors.
-/
namespace Chronos.Orders
open Foundation Storage Benchmark Program
variable {F : Type}

inductive Shown where
  | person (accountId : CStr)
  | portfolio (p : Portfolio)
deriving DecidableEq

/-- The account whose record was read last, and what has been shown so far. -/
structure Display where
  accountId : CStr
  shown : List Shown
deriving DecidableEq

/-- `show_portfolio_item` is called for the records of the account only. -/
def Display.after (d : Display) : Entry F → Display
  | ⟨_, .get .personal _ key, .ok _⟩ => ⟨key, d.shown ++ [.person key]⟩
  | ⟨_, .personalNext _, .ok key⟩ => ⟨key, d.shown ++ [.person key]⟩
  | ⟨_, .portfoliosPgetNext _, .ok (_, p)⟩ =>
    if p.accountId = d.accountId then { d with shown := d.shown ++ [.portfolio p] } else d
  | _ => d

def display (tr : List (Entry F)) : Display := tr.foldl Display.after ⟨[], []⟩

@[simp] theorem display_snoc (tr : List (Entry F)) (e : Entry F) :
    display (tr ++ [e]) = (display tr).after e := by
  simp [display]

/-- The portfolios of an account among the records at some positions. -/
def recordsAt (db : Db F) (t : Txn) (accountId : CStr) (seen : List Position) : List Portfolio :=
  seen.filterMap fun pos => (db.portfolios.view t (ofLex pos).2).filter
    fun p => p.accountId = accountId

/-- The portfolios of an account in the order of the secondary. -/
def recordsOf (db : Db F) (t : Txn) (accountId : CStr) : List Portfolio :=
  recordsAt db t accountId (inOrder (db.walkKeys t))

/-- What the walk of `show_one_portfolio` adds to what is shown. -/
def Display.list (d : Display) (ps : List Portfolio) : Display :=
  { d with shown := d.shown ++ ps.map .portfolio }

theorem recordsAt_snoc {db : Db F} {t : Txn} {accountId k : CStr} {p : Portfolio}
    {seen : List Position} (hview : db.portfolios.view t k = some p) :
    recordsAt db t accountId (seen ++ [toLex (p.accountId, k)]) =
      recordsAt db t accountId seen ++ if p.accountId = accountId then [p] else [] := by
  rw [recordsAt, List.filterMap_append, ← recordsAt]
  by_cases hp : p.accountId = accountId <;> simp [hview, Option.filter, hp]

theorem Display.after_pgetNext (d : Display) (ps : List Portfolio) (k : CStr) (p : Portfolio)
    {db : Db F} {c : CursorId} : (d.list ps).after ⟨db, .portfoliosPgetNext c, .ok (k, p)⟩ =
      d.list (ps ++ if p.accountId = d.accountId then [p] else []) := by
  by_cases hp : p.accountId = d.accountId <;> simp [Display.after, Display.list, hp]

structure Viewing (t : Txn) (db : Db F) (s : Session F) : Prop where
  data : SameData db s.db
  alone : s.db.Alone t
  wellFormed : s.db.WellFormed

variable {self : Txn} {db : Db F} {s : Session F}

theorem Viewing.openCursor (h : Viewing self db s) (dbp : Dbp)
    (halone : (s.db.openCursor self dbp).Alone self) (tr : List (Entry F)) :
    Viewing self db ⟨s.db.openCursor self dbp, tr⟩ where
  data := ⟨h.data.1, h.data.2, h.data.3, h.data.4, h.data.5, h.data.6, h.data.7⟩
  alone := halone
  wellFormed := wellFormed_openCursor h.wellFormed dbp

theorem Viewing.moveCursor (h : Viewing self db s) (c : CursorId) (pos : Position)
    (tr : List (Entry F)) : Viewing self db ⟨s.db.moveCursor c pos, tr⟩ where
  data := ⟨h.data.1, h.data.2, h.data.3, h.data.4, h.data.5, h.data.6, h.data.7⟩
  alone := h.alone.moveCursor c pos
  wellFormed := wellFormed_moveCursor h.wellFormed c pos

theorem Viewing.closeCursor (h : Viewing self db s) (c : CursorId) (tr : List (Entry F)) :
    Viewing self db ⟨s.db.closeCursor c, tr⟩ where
  data := ⟨h.data.1, h.data.2, h.data.3, h.data.4, h.data.5, h.data.6, h.data.7⟩
  alone := h.alone.closeCursor c
  wellFormed := wellFormed_closeCursor h.wellFormed c

theorem Viewing.traced (h : Viewing self db s) (tr : List (Entry F)) : Viewing self db ⟨s.db, tr⟩ :=
  ⟨h.data, h.alone, h.wellFormed⟩

theorem Viewing.walkKeys (h : Viewing self db s) : s.db.walkKeys self = db.walkKeys self := by
  simp only [Db.walkKeys, h.data.portfolios]

/-! ## One portfolio after the other -/

theorem Viewing.perform_pgetNext_none (h : Viewing self db s) {c : CursorId}
    {position : Option Position} (hc : s.db.cursor? c = some ⟨c, self, .portfoliosSec, position⟩)
    (hnext : nextAfter (db.walkKeys self) position = none) :
    s.db.perform self (.portfoliosPgetNext c) = some (.error .notFound, s.db) := by
  simp only [Db.perform, Db.onCursor, hc, Db.portfoliosPgetNext, h.walkKeys, hnext]
  rfl

theorem Viewing.perform_pgetNext_some (h : Viewing self db s) {c : CursorId}
    {position : Option Position} {k : CStr} {p : Portfolio}
    (hc : s.db.cursor? c = some ⟨c, self, .portfoliosSec, position⟩)
    (hnext : nextAfter (db.walkKeys self) position = some (toLex (p.accountId, k)))
    (hview : db.portfolios.view self k = some p) :
    s.db.perform self (.portfoliosPgetNext c) =
      some (.ok (k, p), s.db.moveCursor c (toLex (p.accountId, k))) := by
  have hfree : s.db.portfolios.lockedByOther self k = false := h.alone.portfolios k
  rw [← h.data.portfolios] at hview
  simp only [Db.perform, Db.onCursor, hc, Db.portfoliosPgetNext, h.walkKeys, hnext, ofLex_toLex,
    hfree, hview]
  rfl

theorem wp_showOnePortfolio (hs : Viewing self db s) :
    wp (Session.answer self noFaults) (showOnePortfolio (some self)) s fun o s' =>
      o = .value BENCHMARK_SUCCESS ∧ Viewing self db s' ∧
      display s'.trace = (display s.trace).list
        (recordsOf db self (display s.trace).accountId) := by
  unfold showOnePortfolio withXact
  refine wp_bind'.mpr (wp_perform_noFaults hs.alone (by simp [DbCall.handle]) rfl fun halone => ?_)
  set c := s.db.nextCursor with hcdef
  refine wp_bind'.mpr (wp_loop (fun _ s' => Viewing self db s' ∧ ∃ position seen,
    s'.db.cursor? c = some ⟨c, self, .portfoliosSec, position⟩ ∧
      Walked (db.walkKeys self) position seen ∧
    display s'.trace = (display s.trace).list (recordsAt db self (display s.trace).accountId seen))
    (fun _ => walkMeasure c) ?_ ?_)
  · rintro _ s' ⟨hs', position, seen, hc, hwalked, hdisplay⟩
    unfold showOnePortfolioStep
    cases hnext : nextAfter (db.walkKeys self) position with
    | none =>
      refine wp_bind'.mpr (wp_perform_noFaults hs'.alone (by simp [DbCall.handle])
        (hs'.perform_pgetNext_none hc hnext) fun halone' => wp_pure.mpr ?_)
      refine wp_bind'.mpr (wp_perform_noFaults halone' (by simp [DbCall.handle]) rfl fun halone'' =>
        wp_pure.mpr ?_)
      refine ⟨rfl, hs'.closeCursor c _, ?_⟩
      simp only [display_snoc]
      rw [recordsOf, ← hwalked.eq_inOrder hnext, ← hdisplay]
      rfl
    | some pos =>
      obtain ⟨k, p, hview, rfl⟩ := mem_walkKeys.mp (nextAfter_mem hnext)
      have hperform := hs'.perform_pgetNext_some hc hnext hview
      refine wp_bind'.mpr (wp_perform_noFaults hs'.alone (by simp [DbCall.handle]) hperform
        fun halone' => wp_pure.mpr ?_)
      refine ⟨⟨hs'.moveCursor c _ _, _, _, cursor?_moveCursor_self hc _, hwalked.next hnext, ?_⟩,
        portfoliosPgetNext_measure (show s'.db.exec self none (.portfoliosPgetNext c) =
          _ from hperform)⟩
      rw [display_snoc, hdisplay, recordsAt_snoc hview]
      exact Display.after_pgetNext _ _ k p
  · refine ⟨hs.openCursor .portfoliosSec halone _, none, [], cursor?_openCursor_self .portfoliosSec,
      walked_nil, ?_⟩
    simp only [display_snoc]
    simp [Display.after, Display.list, recordsAt]

/-! ## One account after the other -/

/-- The accounts that `show_portfolios` visits: all of them if none is given. -/
def accountsShown (personal : List CStr) (accountId : CStr) : List CStr :=
  if accountId = [] then inOrder personal else if accountId ∈ personal then [accountId] else []

def shownOf (db : Db F) (t : Txn) (accounts : List CStr) : List Shown :=
  accounts.flatMap fun accountId => .person accountId :: (recordsOf db t accountId).map .portfolio

theorem Viewing.perform_personalNext_some (h : Viewing self db s) {c : CursorId}
    {position : Option Position} {key : CStr}
    (hc : s.db.cursor? c = some ⟨c, self, .personal, position⟩)
    (hnext : nextAfter db.personal (position.map fun pos => (ofLex pos).1) = some key) :
    s.db.perform self (.personalNext c) = some (.ok key, s.db.moveCursor c (toLex (key, []))) := by
  rw [← h.data.personal] at hnext
  simp only [Db.perform, Db.onCursor, hc, Db.personalNext, hnext]
  rfl

theorem Viewing.perform_personalNext_none (h : Viewing self db s) {c : CursorId}
    {position : Option Position} (hc : s.db.cursor? c = some ⟨c, self, .personal, position⟩)
    (hnext : nextAfter db.personal (position.map fun pos => (ofLex pos).1) = none) :
    s.db.perform self (.personalNext c) = some (.error .notFound, s.db) := by
  rw [← h.data.personal] at hnext
  simp only [Db.perform, Db.onCursor, hc, Db.personalNext, hnext]
  rfl

theorem wp_showAccount {d : Display} {accountId : CStr} (hs : Viewing self db s)
    (hdisplay : display s.trace = ⟨accountId, d.shown ++ [.person accountId]⟩) {c : CursorId}
    (hc : c < s.db.nextCursor) :
    wp (Session.answer self noFaults) (showOnePortfolio (some self)) s fun o s' =>
      o = .value BENCHMARK_SUCCESS ∧ Viewing self db s' ∧ Kept c s.db s'.db ∧
      display s'.trace = ⟨accountId, d.shown ++ shownOf db self [accountId]⟩ := by
  refine wp_mono (wp_and (wp_showOnePortfolio hs) (showOnePortfolio_kept hs.alone hc)) ?_
  rintro o s' ⟨⟨rfl, hs', hdisplay'⟩, -, hkept⟩
  refine ⟨rfl, hs', hkept, ?_⟩
  rw [hdisplay', hdisplay]
  simp [Display.list, shownOf]

/-- The walk over Personal. -/
theorem wp_showAccounts {c : CursorId} (hs : Viewing self db s)
    (hc : s.db.cursor? c = some ⟨c, self, .personal, none⟩) :
    wp (Session.answer self noFaults) (Program.loop (showPortfoliosStep false self c) ()) s
      fun o s' =>
      o = .value .notFound ∧ Viewing self db s' ∧
      (display s'.trace).shown = (display s.trace).shown ++ shownOf db self
      (inOrder db.personal) := by
  refine wp_loop (fun _ s' => Viewing self db s' ∧ ∃ position seen,
    s'.db.cursor? c = some ⟨c, self, .personal, position⟩ ∧
    Walked db.personal (position.map fun pos => (ofLex pos).1) seen ∧
    (display s'.trace).shown = (display s.trace).shown ++ shownOf db self seen)
    (fun _ s' => personalMeasure c s'.db) ?_ ⟨hs, none, [], hc, walked_nil, by simp [shownOf]⟩
  rintro _ s' ⟨hs', position, seen, hc', hwalked, hshown⟩
  unfold showPortfoliosStep
  cases hnext : nextAfter db.personal (position.map fun pos => (ofLex pos).1) with
  | none =>
    have hperform := hs'.perform_personalNext_none hc' hnext
    refine wp_bind'.mpr (wp_perform_noFaults hs'.alone (by simp [DbCall.handle]) hperform
      fun halone => wp_pure.mpr ?_)
    refine ⟨rfl, hs'.traced _, ?_⟩
    rw [display_snoc, ← hwalked.eq_inOrder hnext, ← hshown]
    rfl
  | some key =>
    have hperform := hs'.perform_personalNext_some hc' hnext
    refine wp_bind'.mpr (wp_perform_noFaults hs'.alone (by simp [DbCall.handle]) hperform
      fun halone => ?_)
    have hmoved := cursor?_moveCursor_self hc' (toLex (key, []))
    refine wp_bind'.mpr
      (wp_mono (wp_showAccount (d := display s'.trace) (hs'.moveCursor c _ _) (display_snoc _ _)
      (cursor?_lt (wellFormed_moveCursor hs'.wellFormed c _) hmoved)) ?_)
    rintro o s'' ⟨rfl, hs'', hkept, hdisplay⟩
    refine wp_pure.mpr ⟨⟨hs'', some (toLex (key, [])), seen ++ [key], hkept.cursor.trans hmoved,
      hwalked.next hnext, ?_⟩, ?_⟩
    · rw [hdisplay, hshown]
      simp [shownOf]
    · rw [hkept.personalMeasure]
      exact (personalNext_measure (show s'.db.exec self none (.personalNext c) = _ from hperform)).1

theorem wp_showPortfoliosEnd (hs : Viewing self db s) (c : CursorId) :
    wp (Session.answer self noFaults) (showPortfoliosEnd (some self) self c) s fun o s' =>
      o = .value BENCHMARK_SUCCESS ∧ Viewing self db s' ∧ display s'.trace = display s.trace := by
  refine wp_bind'.mpr (wp_perform_noFaults hs.alone (by simp [DbCall.handle]) rfl fun _ =>
    wp_pure.mpr ?_)
  exact ⟨rfl, hs.closeCursor c _, display_snoc _ _⟩

theorem Viewing.perform_getPersonal (h : Viewing self db s) {c : CursorId}
    {position : Option Position} (hc : s.db.cursor? c = some ⟨c, self, .personal, position⟩)
    (key : CStr) :
    s.db.perform self (.get .personal c key) = some (if key ∈ db.personal then
      (.ok (), s.db.moveCursor c (toLex (key, []))) else (.error .notFound, s.db)) := by
  rw [← h.data.personal]
  simp only [Db.perform, Db.onCursor, hc, Db.get]
  rfl

theorem wp_showPortfolios (hs : Viewing self db s) (accountId : CStr) :
    wp (Session.answer self noFaults) (showPortfolios accountId false (some self)) s fun o s' =>
      o = .value BENCHMARK_SUCCESS ∧ Viewing self db s' ∧
      (display s'.trace).shown = (display s.trace).shown ++ shownOf db self
      (accountsShown db.personal accountId) := by
  unfold showPortfolios withXact
  refine wp_bind'.mpr (wp_perform_noFaults hs.alone (by simp [DbCall.handle]) rfl fun halone => ?_)
  set s₁ : Session F := ⟨s.db.openCursor self .personal,
    s.trace ++ [⟨s.db, .cursor .personal self, .ok s.db.nextCursor⟩]⟩
    with hs₁def
  have hopen : s₁.db.cursor? s.db.nextCursor = some ⟨s.db.nextCursor, self, .personal, none⟩ :=
    cursor?_openCursor_self .personal
  have hs₁ : Viewing self db s₁ := hs.openCursor .personal halone _
  have hdisplay₁ : display s₁.trace = display s.trace := display_snoc _ _
  unfold accountsShown
  by_cases ha : accountId = []
  · simp only [if_pos ha]
    refine wp_bind'.mpr (wp_mono (wp_showAccounts hs₁ hopen) ?_)
    rintro o s₂ ⟨rfl, hs₂, hshown⟩
    refine wp_mono (wp_showPortfoliosEnd hs₂ _) ?_
    rintro o s₃ ⟨rfl, hs₃, hdisplay⟩
    exact ⟨rfl, hs₃, by rw [hdisplay, hshown, hdisplay₁]⟩
  simp only [if_neg ha]
  have hget := hs₁.perform_getPersonal hopen accountId
  by_cases hmem : accountId ∈ db.personal
  · rw [if_pos hmem] at hget
    refine wp_bind'.mpr (wp_perform_noFaults hs₁.alone (by simp [DbCall.handle]) hget fun _ => ?_)
    set s₂ : Session F := ⟨s₁.db.moveCursor s.db.nextCursor (toLex (accountId, [])),
      s₁.trace ++ [⟨s₁.db, .get .personal s.db.nextCursor accountId, .ok ()⟩]⟩ with hs₂def
    have hs₂ : Viewing self db s₂ := hs₁.moveCursor _ _ _
    have hdisplay₂ : display s₂.trace =
      ⟨accountId, (display s.trace).shown ++ [.person accountId]⟩ := by
      rw [← hdisplay₁]
      exact display_snoc _ _
    have hlt := cursor?_lt hs₂.wellFormed (cursor?_moveCursor_self hopen _)
    refine wp_bind'.mpr (wp_mono (wp_showAccount hs₂ hdisplay₂ hlt) ?_)
    rintro o s₃ ⟨rfl, hs₃, -, hdisplay⟩
    refine wp_mono (wp_showPortfoliosEnd hs₃ _) ?_
    rintro o s₄ ⟨rfl, hs₄, hdisplay'⟩
    exact ⟨rfl, hs₄, by rw [hdisplay', hdisplay, if_pos hmem]⟩
  · rw [if_neg hmem] at hget
    refine wp_bind'.mpr (wp_perform_noFaults hs₁.alone (by simp [DbCall.handle]) hget fun _ => ?_)
    refine wp_mono (wp_showPortfoliosEnd (hs₁.traced _) _) ?_
    rintro o s₂ ⟨rfl, hs₂, hdisplay⟩
    refine ⟨rfl, hs₂, ?_⟩
    rw [hdisplay, display_snoc, hdisplay₁, if_neg hmem]
    simp [Display.after, shownOf]

/-! ## Whole views -/

theorem wp_viewPortfolios (accountList : List CStr) (hs : Viewing self db s) :
    wp (Session.answer self noFaults)
      (applyItems (fun accountId xactH => showPortfolios accountId false
        (some xactH)) accountList self) s fun o s' =>
      o = .value BENCHMARK_SUCCESS ∧ Viewing self db s' ∧ (display s'.trace).shown =
        (display s.trace).shown ++ shownOf db self
        (accountList.flatMap (accountsShown db.personal)) := by
  induction accountList generalizing s with
  | nil => exact wp_pure.mpr ⟨rfl, hs, by simp [shownOf]⟩
  | cons accountId accountList ih =>
    refine wp_bind'.mpr (wp_mono (wp_showPortfolios hs accountId) ?_)
    rintro o s₁ ⟨rfl, hs₁, hshown⟩
    refine wp_mono (ih hs₁) ?_
    rintro o s₂ ⟨rfl, hs₂, hshown'⟩
    refine ⟨rfl, hs₂, ?_⟩
    rw [hshown', hshown]
    simp [shownOf]

def quoted (quote : CStr → Option F) (symbolList : List CStr) : Rc :=
  if ∀ symbol ∈ symbolList, symbol ≠ [] ∧ (quote symbol).isSome then BENCHMARK_SUCCESS
    else BENCHMARK_FAIL

theorem wp_showQuote (hs : Viewing self db s) (symbol : CStr) :
    wp (Session.answer self noFaults) (showQuote symbol (some self)) s fun o s' =>
      o = .value (quoted db.quotes.committed [symbol]) ∧ Viewing self db s' := by
  unfold showQuote withXact
  by_cases hsymbol : symbol = []
  · simp only [hsymbol, getStock, if_pos]
    exact wp_bind'.mpr (wp_pure.mpr (wp_pure.mpr ⟨by simp [quoted], hs⟩))
  refine wp_bind'.mpr (wp_mono (wp_getStock hs.alone hs.wellFormed hsymbol) ?_)
  rintro o ⟨db₁, tr₁⟩ ⟨halone, hget⟩
  rw [hs.data.quotes] at hget
  have hwf := wellFormed_openCursor hs.wellFormed .quotes (t := self)
  have hdata : SameData db (s.db.openCursor self .quotes) :=
    ⟨hs.data.1, hs.data.2, hs.data.3, hs.data.4, hs.data.5, hs.data.6, hs.data.7⟩
  cases hquote : db.quotes.committed symbol with
  | none =>
    simp only [hquote] at hget
    obtain ⟨rfl, rfl⟩ := hget
    refine wp_pure.mpr ⟨by simp [quoted, hquote], ?_⟩
    exact ⟨⟨hdata.1, hdata.2, hdata.3, hdata.4, hdata.5, hdata.6, hdata.7⟩, halone,
      wellFormed_closeCursor hwf _⟩
  | some price =>
    simp only [hquote] at hget
    obtain ⟨rfl, rfl⟩ := hget
    have hs₁ : Viewing self db
      ⟨(s.db.openCursor self .quotes).moveCursor s.db.nextCursor (toLex (symbol, [])), tr₁⟩ :=
      ⟨⟨hdata.1, hdata.2, hdata.3, hdata.4, hdata.5, hdata.6, hdata.7⟩, halone,
        wellFormed_moveCursor hwf _ _⟩
    refine wp_bind'.mpr (wp_perform_noFaults halone (by simp [DbCall.handle]) rfl fun _ =>
      wp_pure.mpr ?_)
    exact ⟨by simp [quoted, hquote, hsymbol], hs₁.closeCursor _ _⟩

theorem quoted_cons (quote : CStr → Option F) (symbol : CStr) (symbolList : List CStr) :
    quoted quote (symbol :: symbolList) =
      if quoted quote [symbol] = BENCHMARK_SUCCESS then quoted quote symbolList
        else BENCHMARK_FAIL := by
  by_cases hsymbol : symbol ≠ [] ∧ (quote symbol).isSome <;>
    simp [quoted, hsymbol, BENCHMARK_SUCCESS, BENCHMARK_FAIL]

theorem wp_viewStocks (symbolList : List CStr) (hs : Viewing self db s) :
    wp (Session.answer self noFaults)
      (applyItems (fun symbol xactH => showQuote symbol (some xactH)) symbolList self) s
      fun o s' => o = .value (quoted db.quotes.committed symbolList) ∧ Viewing self db s' := by
  induction symbolList generalizing s with
  | nil => exact wp_pure.mpr ⟨by simp [quoted], hs⟩
  | cons symbol symbolList ih =>
    rw [quoted_cons]
    refine wp_bind'.mpr (wp_mono (wp_showQuote hs symbol) ?_)
    rintro o s₁ ⟨rfl, hs₁⟩
    simp only [after]
    split
    · exact ih hs₁
    · exact wp_pure.mpr ⟨rfl, hs₁⟩

theorem wp_inXact_view {x : Exchange F} {α : Type} {apply : α → Txn → DbProgram F Rc}
    {items : List α} {code : Rc} (P : List (Entry F) → Prop) (txnName : String)
    (h : Represents self db x) (hcode : code = BENCHMARK_SUCCESS ∨ code = BENCHMARK_FAIL)
    (hend : ∀ tr e, P tr → e.call.resolves = some self → P (tr ++ [e]))
    (hitems : ∀ s, Viewing self db s → (display s.trace).shown = [] →
      wp (Session.answer self noFaults) (applyItems apply items self) s fun o s' =>
        o = .value code ∧ Viewing self db s' ∧ P s'.trace) :
    wp (Session.answer self noFaults) (inXact txnName apply items) ⟨db, []⟩ fun o s' =>
      o = .value code ∧ Represents self s'.db x ∧ P s'.trace := by
  have hs : ∀ tr, Viewing self db ⟨db, tr⟩ := fun tr => ⟨SameData.refl db, h.alone, h.wellFormed⟩
  have hmidway : ∀ {s : Session F}, Viewing self db s →
    Midway self x.market x.rand db.portfolios.committed x.book x.ids s.db :=
    fun hs => h.rests.midway.sameData hs.data
  have hcounter : ∀ {s : Session F}, Viewing self db s → s.db.numberPortfolios = x.ids :=
    fun hs => hs.data.numberPortfolios.trans h.rests.counter
  refine wp_bind'.mpr
    (wp_bind'.mpr (wp_perform_noFaults h.alone (by simp [DbCall.handle]) rfl fun _ => ?_))
  refine wp_bind'.mpr (wp_perform_noFaults h.alone (by simp [DbCall.handle]) rfl fun _ =>
    wp_pure.mpr ?_)
  refine wp_bind'.mpr (wp_mono (hitems _ (hs _) rfl) ?_)
  rintro o s ⟨rfl, hs', hP⟩
  rcases hcode with rfl | rfl
  · refine wp_bind'.mpr
      (wp_bind'.mpr (wp_perform_noFaults hs'.alone (by simp [DbCall.handle]) rfl fun _ => ?_))
    refine wp_pure.mpr (wp_pure.mpr ⟨rfl, ?_, hend _ _ hP rfl⟩)
    exact ⟨hs'.alone.commit, wellFormed_commit hs'.wellFormed,
      (hmidway hs').commit hs'.wellFormed (hcounter hs'), h.within⟩
  · refine wp_bind'.mpr (wp_perform_noFaults hs'.alone (by simp [DbCall.handle]) rfl fun _ => ?_)
    refine wp_pure.mpr ⟨rfl, ?_, hend _ _ hP rfl⟩
    exact ⟨hs'.alone.abort, wellFormed_abort hs'.wellFormed,
      (hmidway hs').abort hs'.wellFormed h.rests (hcounter hs') le_rfl, h.within⟩

end Chronos.Orders
