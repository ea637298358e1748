import Chronos.Orders.Exchange
import Chronos.Orders.Holdings

/-! # Orders side by side

Every thread carries out one order while the others carry out theirs, call by call in
any order, and calls may be made to fail. What a thread has written is what its items
make of any book that agrees with the table at the records written; so every commit
is a step of the book, unless it adds a second record for an account and a symbol.
-/
namespace Chronos.Orders
open Foundation Storage Benchmark Program
variable {F : Type} {self t : Txn} {mk : Market F} {f g : Book → Option Book} {w w' : Db F}

/-- The thread has not committed, and its writes change a book that fits as `f` does. -/
structure Amending (t : Txn) (mk : Market F) (f : Book → Option Book) (w : Db F) : Prop where
  market : marketOf w = mk
  underway : t ∉ w.log
  names : KeepsNames Portfolio.holder (w.portfolios.own t) w.portfolios.committed
  amends : ∀ b, Fits Portfolio.holder Portfolio.holdStocks
    (w.portfolios.own t) w.portfolios.committed b →
    ∃ b', f b = some b' ∧ Overlay Portfolio.holder Portfolio.holdStocks (w.portfolios.own t) b b'

def racing (t : Txn) (mk : Market F) (f : Book → Option Book) : Regime F where
  shared := True
  mayFail := True
  owes c _ w := ∀ t', c = .commit t' → t' = t ∧ Amending t mk f w
  plain _ _ _ hc _ _ t' h := absurd h (hc t')

section Amending

theorem Amending.sameData (h : Amending self mk f w) (hd : SameData w w') :
    Amending self mk f w' where
  market := by rw [← h.market, marketOf, marketOf, hd.personal, hd.stocks, hd.quotes]
  underway := by
    rw [hd.log]
    exact h.underway
  names := by
    rw [hd.portfolios]
    exact h.names
  amends := by
    rw [hd.portfolios]
    exact h.amends

theorem Amending.others (h : Amending self mk f w) (ho : Others self w w') :
    Amending self mk f w' := by
  have hwritten : ∀ k, w.portfolios.own self k ≠ none →
    w'.portfolios.committed k = w.portfolios.committed k :=
    fun k hk => (ho.held k (.inl hk)).1
  refine ⟨?_, ?_, ?_, ?_⟩
  · rw [← h.market, marketOf, marketOf, ho.personal, ho.stocks, ho.quotes]
  · rw [ho.log]
    exact h.underway
  · rw [ho.own]
    exact h.names.congr hwritten
  · rw [ho.own]
    intro b hb
    exact h.amends b (hb.congr hwritten)

theorem Amending.steady (m : Regime F) : Steady self m mk [] (Amending self mk f) where
  stable _ _ _ h ho := h.others ho
  aside _ _ h ha := h.sameData ha.data
  bound _ _ c hc := by cases hc
  market w h := by
    rw [← h.market]
    exact ⟨rfl, rfl, rfl⟩

/-- A record is written under its old name, or under a free key. -/
theorem Amending.write (h : Amending self mk f w) {k : CStr} {p : Portfolio}
    (hkey : ∀ v, w.portfolios.view self k = some v → v.holder = p.holder)
    (hstep : ∀ b b', f b = some b' →
      b' p.holder = (w.portfolios.view self k).map Portfolio.holdStocks →
      g b = some (Function.update b' p.holder (some p.holdStocks))) :
    Amending self mk g { w with portfolios := w.portfolios.write self k p } where
  market := h.market
  underway := h.underway
  names := by
    intro k' v v' hv hv'
    rw [LockTable.committed_write] at hv'
    by_cases hk : k' = k
    · subst hk
      rw [LockTable.own_write_self, Option.some.injEq] at hv
      subst hv
      cases hown : w.portfolios.own self k' with
      | none => exact (hkey v' ((LockTable.view_eq_committed hown).trans hv')).symm
      | some v₀ =>
        exact (hkey v₀ (LockTable.view_of_own hown)).symm.trans (h.names k' v₀ v' hown hv')
    · rw [LockTable.own_write_ne hk] at hv
      exact h.names k' v v' hv hv'
  amends b hb := by
    have hown : ∀ v, w.portfolios.own self k = some v → v.holder = p.holder :=
      fun v hv => hkey v (LockTable.view_of_own hv)
    simp only [LockTable.committed_write, LockTable.own_write] at hb ⊢
    obtain ⟨b', hf, hoverlay⟩ := h.amends b (hb.of_update hown)
    exact ⟨_, hstep b b' hf (hoverlay.seen hb hown), hoverlay.update hb hown⟩

end Amending

theorem rely_of_guar {m m' : Regime F} (hshared : m'.shared) {i j : Txn} (hne : j ≠ i) {c : Call F}
    {w w' : Db F} {a : Answer c} (h : (orders i m).guar c w a w') : (orders j m').rely w w' := by
  cases c with
  | db c => exact .inr ⟨hshared, h.1 j hne, h.2.1⟩
  | fetchAndAdd => exact .inr ⟨hshared, h.1 j hne, h.2⟩
  | rand => exact .inr ⟨hshared, h.1 j hne, h.2⟩

/-! ## What is committed -/

def committedBy : Entry F → Option Txn
  | ⟨_, .commit t, .ok _⟩ => some t
  | _ => none

def commits (tr : List (Entry F)) : List Txn := tr.filterMap committedBy

theorem commits_snoc (tr : List (Entry F)) (e : Entry F) :
    commits (tr ++ [e]) = commits tr ++ (committedBy e).toList := by
  rw [commits, List.filterMap_append]
  cases h : committedBy e <;> simp [commits, h]

/-- No record that the transaction created has, at the commit, the account and symbol of
another record that it sees. -/
def DoublesNone (e : Entry F) : Prop :=
  ∀ t, committedBy e = some t →
    NoneDoubled Portfolio.holder (e.before.portfolios.own t) e.before.portfolios.committed

theorem perform_committed {db db' : Db F} {c : DbCall F} {a : Except DbError c.Payload}
    (hc : ∀ t, c ≠ .commit t) (h : db.perform self c = some (a, db')) :
    db'.portfolios.committed = db.portfolios.committed ∧ db'.log = db.log := by
  cases c with
  | txnBegin => cases h; exact ⟨rfl, rfl⟩
  | setName t name => cases h; exact ⟨rfl, rfl⟩
  | commit t => exact absurd rfl (hc t)
  | abort t => cases h; exact ⟨LockTable.committed_abort, rfl⟩
  | cursor dbp t => cases h; exact ⟨rfl, rfl⟩
  | close c => cases h; exact ⟨rfl, rfl⟩
  | get dbp c key =>
    simp only [Db.perform, Db.onCursor] at h
    split at h
    · cases dbp <;> simp only [Db.get] at h
      all_goals repeat' split at h
      all_goals cases h
      all_goals exact ⟨rfl, rfl⟩
    · cases h; exact ⟨rfl, rfl⟩
  | personalNext c =>
    simp only [Db.perform, Db.onCursor, Db.personalNext] at h
    repeat' split at h
    all_goals cases h
    all_goals exact ⟨rfl, rfl⟩
  | portfoliosPgetNext c =>
    simp only [Db.perform, Db.onCursor, Db.portfoliosPgetNext] at h
    repeat' split at h
    all_goals cases h
    all_goals exact ⟨rfl, rfl⟩
  | quotesPut c price =>
    simp only [Db.perform, Db.onCursor, Db.quotesPut] at h
    repeat' split at h
    all_goals cases h
    all_goals exact ⟨rfl, rfl⟩
  | portfoliosPut c p =>
    simp only [Db.perform, Db.onCursor, Db.portfoliosPut] at h
    repeat' split at h
    all_goals cases h
    all_goals exact ⟨by simp, rfl⟩
  | portfoliosInsert t key p =>
    simp only [Db.perform, Db.portfoliosInsert] at h
    repeat' split at h
    all_goals cases h
    all_goals exact ⟨by simp, rfl⟩

/-- A call commits a transaction, or leaves the committed records as they are. -/
theorem exec_committed {db db' : Db F} {c : DbCall F} {a : Except DbError c.Payload}
    {fault : Option DbError} (h : db.exec self fault c = some (a, db')) :
    (committedBy ⟨db, c, a⟩ = none ∧ db'.portfolios.committed = db.portfolios.committed ∧
      db'.log = db.log) ∨
      ∃ t, committedBy ⟨db, c, a⟩ = some t ∧ c = .commit t ∧ db' = db.commit t := by
  cases fault with
  | some e =>
    cases h
    cases c with
    | commit t => exact .inl ⟨rfl, LockTable.committed_abort, rfl⟩
    | abort t => exact .inl ⟨rfl, LockTable.committed_abort, rfl⟩
    | _ => exact .inl ⟨rfl, rfl, rfl⟩
  | none =>
    by_cases hc : ∃ t, c = .commit t
    · obtain ⟨t, rfl⟩ := hc
      cases h
      exact .inr ⟨t, rfl, rfl, rfl⟩
    · have hno : ∀ t, c ≠ .commit t := fun t ht => hc ⟨t, ht⟩
      refine .inl ⟨?_, perform_committed hno h⟩
      cases c with
      | commit t => exact absurd rfl (hno t)
      | _ => rfl

/-! ## One thread -/

structure Unbegun (t : Txn) (mk : Market F) (w : Db F) : Prop where
  market : marketOf w = mk
  underway : t ∉ w.log
  unwritten : w.portfolios.own t = fun _ => none

theorem Unbegun.others (h : Unbegun self mk w) (ho : Others self w w') : Unbegun self mk w' where
  market := by rw [← h.market, marketOf, marketOf, ho.personal, ho.stocks, ho.quotes]
  underway := by
    rw [ho.log]
    exact h.underway
  unwritten := ho.own.trans h.unwritten

theorem Unbegun.amending (h : Unbegun self mk w) : Amending self mk some w where
  market := h.market
  underway := h.underway
  names k v v' hv := by
    rw [h.unwritten] at hv
    cases hv
  amends b _ := by
    rw [h.unwritten]
    exact ⟨b, rfl, overlay_nothing⟩

theorem Transacting.racing {t : Txn} {mk : Market F} {make : Book → Option Book}
    {apply : BenchmarkXactData F → Txn → DbProgram F Rc} {items : List (BenchmarkXactData F)}
    {A : List (BenchmarkXactData F) → Db F → Prop} (hstart : ∀ w, Unbegun t mk w → A [] w)
    (hitem : ∀ done d rest, items = done ++ d :: rest →
      Does t (racing t mk make) (A done) (apply d t) fun rc w =>
      (rc = BENCHMARK_SUCCESS ∧ A (done ++ [d]) w) ∨ rc = BENCHMARK_FAIL)
    (howes : ∀ ok w, A items w → (racing t mk make).owes (.commit t) ok w) :
    Transacting t (racing t mk make) apply items (Unbegun t mk) A (fun _ => True) (fun _ => True)
      fun _ => True where
  start := hstart
  startStable _ _ _ h ho := h.others ho
  item done d rest hdata := by
    refine (hitem done d rest hdata).post ?_
    rintro rc w (hdone | hrc)
    · exact .inl hdone
    · exact .inr ⟨by rw [hrc]; decide, trivial⟩
  owes := howes
  commit _ _ _ := trivial
  commitStable _ _ _ _ _ := trivial
  abort _ _ _ := trivial
  abortStable _ _ _ _ _ := trivial
  notBegun _ _ _ _ := ⟨trivial, trivial⟩
  notCommitted _ _ _ _ := trivial
  again _ _ _ _ := trivial

variable [CFloat F]

section Items
variable {data done : List (BenchmarkXactData F)} {d : BenchmarkXactData F}
  {fin : Book → Option Book}

/-- After the items `done` of a purchase, and after taking an id for the next one. -/
theorem amendPurchase : Purchasing self (racing self mk fin) mk d
    (Amending self mk fun b => done.foldlM (Book.purchase int32 mk) b)
    (fun _ w => Amending self mk (fun b => done.foldlM (Book.purchase int32 mk) b) w ∧ mk.Buys d)
    (Amending self mk fun b => (done ++ [d]).foldlM (Book.purchase int32 mk) b) where
  before := Amending.steady _
  taken _ _ _ _ h ho := ⟨h.1.others ho, h.2⟩
  after := Amending.steady _
  take _ h _ hbuys := ⟨⟨h.market, h.underway, h.names, h.amends⟩, hbuys⟩
  bought w k p h _ hview hholder hbuys := by
    refine h.write ?_ fun b b' hb hseen => ?_
    · intro v hv
      rw [hview] at hv
      cases hv
      rfl
    · change b' p.holder = _ at hseen
      rw [hview, hholder] at hseen
      rw [foldlM_snoc hb, purchase_eq_some]
      refine ⟨hbuys, ?_⟩
      rw [hseen, ← hholder]
      rfl
  created n w h _ hview := by
    refine h.1.write ?_ fun b b' hb hseen => ?_
    · intro v hv
      rw [hview] at hv
      cases hv
    · rw [hview] at hseen
      rw [foldlM_snoc hb, purchase_eq_some]
      refine ⟨h.2, ?_⟩
      change b' d.holder = none at hseen
      rw [hseen]
      rfl
  owesInsert _ _ _ _ _ h := by cases h
  owesPut _ _ _ _ _ _ _ _ _ _ _ h := by cases h

theorem amendSale : Selling self (racing self mk fin) mk d
    (Amending self mk fun b => done.foldlM (Book.sell int32 mk) b)
    (Amending self mk fun b => (done ++ [d]).foldlM (Book.sell int32 mk) b) where
  before := Amending.steady _
  after := Amending.steady _
  sold w k p h _ hview hholder hle hsells := by
    refine h.write ?_ fun b b' hb hseen => ?_
    · intro v hv
      rw [hview] at hv
      cases hv
      rfl
    · change b' p.holder = _ at hseen
      rw [hview, hholder] at hseen
      rw [foldlM_snoc hb, sell_eq_some]
      refine ⟨p.holdStocks, hseen, hsells, hle, ?_⟩
      rw [← hholder]
      rfl
  owesPut _ _ _ _ _ _ _ _ _ _ _ _ h := by cases h

end Items

/-- Each thread commits what its order makes of a book. -/
theorem does_racing (t : Txn) (mk : Market F) (o : Order F) :
    Does t (racing t mk fun b => o.apply int32 mk b) (Unbegun t mk) o.transaction.run
      fun _ _ => True := by
  cases o with
  | purchase data =>
    refine
      (does_inXact (A := fun done => Amending t mk fun b => done.foldlM (Book.purchase int32 mk) b)
      (Transacting.racing (fun w h => h.amending) ?_ ?_) _).post fun _ _ _ => trivial
    · intro done d rest _
      refine (does_placeOrder amendPurchase).post ?_
      rintro rc w (⟨hrc, -, hB⟩ | ⟨hrc, -⟩)
      · exact .inl ⟨hrc, hB⟩
      · exact .inr hrc
    · rintro ok w h t' ⟨⟩
      exact ⟨rfl, h⟩
  | sell data =>
    refine (does_inXact (A := fun done => Amending t mk fun b => done.foldlM (Book.sell int32 mk) b)
      (Transacting.racing (fun w h => h.amending) ?_ ?_) _).post fun _ _ _ => trivial
    · intro done d rest _
      refine (does_sellStocks amendSale).post ?_
      rintro rc w (⟨hrc, -, hB⟩ | ⟨hrc, -⟩)
      · exact .inl ⟨hrc, hB⟩
      · exact .inr hrc
    · rintro ok w h t' ⟨⟩
      exact ⟨rfl, h⟩

/-! ## One after the other -/

def Book.after (wrap : ℤ → ℤ) (m : Market F) (os : List (Order F)) (b : Book) : Option Book :=
  os.foldlM (fun b o => o.apply wrap m b) b

/-- The sums of each order are in range where it meets the book. -/
def InRangeAll (m : Market F) : List (Order F) → Book → Prop
  | [], _ => True
  | o :: os, b => o.InRange m b ∧ ∀ b', o.apply id m b = some b' → InRangeAll m os b'

theorem after_within {m : Market F} {os : List (Order F)} {b b' : Book} (hb : b.Within)
    (hrange : InRangeAll m os b) (h : Book.after int32 m os b = some b') : b'.Within := by
  induction os generalizing b with
  | nil =>
    cases h
    exact hb
  | cons o os ih =>
    obtain ⟨hexact, -, hwithin⟩ := o.exact hb hrange.1
    rw [Book.after, List.foldlM_cons, hexact] at h
    obtain ⟨b₁, hb₁, hrest⟩ := Option.bind_eq_some_iff.mp h
    exact ih (hwithin b₁ hb₁) (hrange.2 b₁ hb₁) hrest

theorem taken_le (mk : Market F) (o : Order F) (b : Book) :
    o.taken int32 mk b ≤ o.items.length := by
  cases o with
  | sell data => exact Nat.zero_le _
  | purchase data =>
    change created int32 mk data b ≤ data.length
    induction data generalizing b with
    | nil => exact le_rfl
    | cons d data ih =>
      rw [created, List.length_cons]
      split
      · rename_i b' _
        have hrest := ih b'
        split <;> omega
      · omega

/-- As long as there are ids, orders that are carried out one after the other by a thread that is
alone do to the table what they do to the book. -/
theorem calls_of_after {os : List (Order F)} {b b' : Book} {n : ℕ} {r : ℕ → ℕ} {db : Db F}
    (halone : db.Alone self) (hwf : db.WellFormed) (h : Rests self mk r b n db)
    (hids : n + (os.map fun o => o.items.length).sum < 2 ^ 31)
    (hafter : Book.after int32 mk os b = some b') :
    ∃ db', Calls self db (os.map Op.order) (os.map fun _ => BENCHMARK_SUCCESS) db' ∧
      Indexes Portfolio.holder Portfolio.holdStocks db'.portfolios.committed b' := by
  induction os generalizing b n db with
  | nil =>
    cases hafter
    exact ⟨db, .nil, h.index⟩
  | cons o os ih =>
    rw [Book.after, List.foldlM_cons] at hafter
    obtain ⟨b₁, hb₁, hrest⟩ := Option.bind_eq_some_iff.mp hafter
    rw [List.map_cons, List.sum_cons] at hids
    have htaken := taken_le mk o b
    obtain ⟨out, s', he, halone'⟩ := o.transaction.ends noFaults (s := ⟨db, []⟩) halone
    obtain ⟨rc, rfl, hwf', hrc⟩ := (does_order o h (by omega)).run he hwf rfl
    rcases hrc with ⟨rfl, b₂, hb₂, hrests⟩ | ⟨-, hnone, -⟩
    · rw [hb₁, Option.some.injEq] at hb₂
      subst hb₂
      obtain ⟨db', hcalls, hindex⟩ := ih halone' hwf' hrests (by omega) hrest
      exact ⟨db', .cons he hcalls, hindex⟩
    · rw [hb₁] at hnone
      cases hnone

/-! ## All threads -/

structure Untouched (b₀ : Book) (db : Db F) : Prop where
  cursors : db.cursors = []
  quotes : ∀ k, (db.quotes.cell k).pending = none
  portfolios : ∀ k, (db.portfolios.cell k).pending = none
  log : db.log = []
  index : Indexes Portfolio.holder Portfolio.holdStocks db.portfolios.committed b₀

def starting (orderOf : Txn → Order F) (db : Db F) : Pool Txn (Call F) Answer Rc (Session F) :=
  ⟨fun t => (orderOf t).transaction.run, ⟨db, []⟩⟩

/-- The counter is above the keys, and does not wrap around however many items need an id. -/
def IdsSuffice (db : Db F) (os : List (Order F)) : Prop :=
  ∃ n : ℕ, db.numberPortfolios = n ∧ KeysBelow n db.portfolios.committed ∧
    n + (os.map fun o => o.items.length).sum < 2 ^ 31

/-- In some order the committed transactions, one after the other, make of the book what is now in
the table; and so does the code, carrying them out one after the other. -/
def Serializable (orderOf : Txn → Order F) (b₀ : Book) (db₀ : Db F) (s : Session F) : Prop :=
  ∃ σ : List Txn, σ.Perm (commits s.trace) ∧
    ∃ b, Book.after int32 (marketOf db₀) (σ.map orderOf) b₀ = some b ∧
    Indexes Portfolio.holder Portfolio.holdStocks s.db.portfolios.committed b ∧
    (IdsSuffice db₀ (σ.map orderOf) → ∀ self, ∃ db,
      Calls self db₀ ((σ.map orderOf).map Op.order)
        ((σ.map orderOf).map fun _ => BENCHMARK_SUCCESS) db ∧
      Indexes Portfolio.holder Portfolio.holdStocks db.portfolios.committed b)

section Untouched
variable {b₀ : Book} {db₀ : Db F}

omit [CFloat F] in
theorem Untouched.wellFormed (h : Untouched b₀ db₀) : db₀.WellFormed where
  nodup := by
    rw [h.cursors]
    exact List.nodup_nil
  fresh oc hoc := by
    rw [h.cursors] at hoc
    cases hoc
  settled := h.quotes

omit [CFloat F] in
theorem Untouched.alone (h : Untouched b₀ db₀) (t : Txn) : db₀.Alone t where
  quotes k := by simp [LockTable.lockedByOther, Cell.lockedByOther, h.quotes k]
  portfolios k := by simp [LockTable.lockedByOther, Cell.lockedByOther, h.portfolios k]
  cursors oc hoc := by
    rw [h.cursors] at hoc
    cases hoc

omit [CFloat F] in
theorem Untouched.own (h : Untouched b₀ db₀) (t : Txn) (k : CStr) : db₀.portfolios.own t k = none :=
  Cell.own_of_pending_none (h.portfolios k)

omit [CFloat F] in
theorem Untouched.rests (h : Untouched b₀ db₀) (t : Txn) {n : ℕ} (hn : db₀.numberPortfolios = n)
    (hkeys : KeysBelow n db₀.portfolios.committed) : Rests t (marketOf db₀) db₀.rand b₀ n db₀ where
  unwritten := h.own t
  keys := hkeys
  counter := hn
  market := rfl
  rand := rfl
  index := h.index

end Untouched

/-- What the calls so far say of the table: its names are distinct if and only if no commit
doubled one, and then it is what the commits make of the book. -/
structure Traced (orderOf : Txn → Order F) (mk : Market F) (b₀ : Book) (s : Session F) : Prop where
  log : s.db.log = commits s.trace
  nodup : s.db.log.Nodup
  distinct : Distinct Portfolio.holder s.db.portfolios.committed ↔ ∀ e ∈ s.trace, DoublesNone e
  serial : Distinct Portfolio.holder s.db.portfolios.committed →
    ∃ b, Book.after int32 mk (s.db.log.map orderOf) b₀ = some b ∧
      Indexes Portfolio.holder Portfolio.holdStocks s.db.portfolios.committed b

section Traced
variable {orderOf : Txn → Order F} {b₀ : Book} {s : Session F}

theorem Traced.idle (h : Traced orderOf mk b₀ s) (db : Db F)
    (hcommitted : db.portfolios.committed = s.db.portfolios.committed) (hlog : db.log = s.db.log)
    {tr : List (Entry F)} (htrace : commits tr = commits s.trace)
    (hdoubles : (∀ e ∈ tr, DoublesNone e) ↔ ∀ e ∈ s.trace, DoublesNone e) :
    Traced orderOf mk b₀ ⟨db, tr⟩ where
  log := hlog.trans (h.log.trans htrace.symm)
  nodup := hlog ▸ h.nodup
  distinct := by
    rw [hcommitted, hdoubles]
    exact h.distinct
  serial := by
    rw [hcommitted, hlog]
    exact h.serial

theorem Traced.commit (h : Traced orderOf mk b₀ s) {t : Txn} {a : Except DbError Unit}
    (hready : Amending t mk (fun b => (orderOf t).apply int32 mk b) s.db)
    (hok : committedBy ⟨s.db, .commit t, a⟩ = some t) :
    Traced orderOf mk b₀ ⟨s.db.commit t, s.trace ++ [⟨s.db, .commit t, a⟩]⟩ := by
  have hcommitted : (s.db.commit t).portfolios.committed =
      patch (s.db.portfolios.own t) s.db.portfolios.committed := committed_commit
  have hlast : DoublesNone ⟨s.db, .commit t, a⟩ ↔
      NoneDoubled Portfolio.holder (s.db.portfolios.own t) s.db.portfolios.committed := by
    refine ⟨fun hd => hd t hok, fun hd t' ht' => ?_⟩
    rw [hok, Option.some.injEq] at ht'
    subst ht'
    exact hd
  refine ⟨?_, ?_, ?_, ?_⟩
  · change s.db.log ++ [t] = _
    rw [commits_snoc, h.log, hok]
    rfl
  · exact List.Nodup.append h.nodup (List.nodup_singleton t) (by simpa using hready.underway)
  · change Distinct Portfolio.holder (s.db.commit t).portfolios.committed ↔ _
    rw [hcommitted, forall_mem_snoc, ← h.distinct, hlast]
    constructor
    · intro hpatch
      have hbefore := hpatch.of_patch hready.names
      exact ⟨hbefore, (distinct_patch_iff hbefore hready.names).mp hpatch⟩
    · rintro ⟨hbefore, hnone⟩
      exact (distinct_patch_iff hbefore hready.names).mpr hnone
  · change Distinct Portfolio.holder (s.db.commit t).portfolios.committed →
      ∃ b, Book.after int32 mk ((s.db.log ++ [t]).map orderOf) b₀ = some b ∧
        Indexes Portfolio.holder Portfolio.holdStocks (s.db.commit t).portfolios.committed b
    rw [hcommitted]
    intro hpatch
    obtain ⟨b, hb, hindex⟩ := h.serial (hpatch.of_patch hready.names)
    obtain ⟨b', hb', hoverlay⟩ := hready.amends b (hindex.fits hpatch hready.names)
    refine ⟨b', ?_, hindex.patched hpatch hready.names hoverlay⟩
    rw [List.map_append, Book.after, List.foldlM_append]
    exact Option.bind_eq_some_iff.mpr ⟨b, hb, by simpa using hb'⟩

theorem Traced.answer (h : Traced orderOf mk b₀ s) {t : Txn} {faults : Faults} {c : Call F}
    {a : Answer c} {s' : Session F} (hcall : Session.answer t faults c s = some (a, s'))
    (hguar : (orders t (racing t mk fun b => (orderOf t).apply int32 mk b)).guar c s.db a s'.db) :
    Traced orderOf mk b₀ s' := by
  cases c with
  | fetchAndAdd =>
    cases hcall
    exact h.idle { s.db with numberPortfolios := int32 (s.db.numberPortfolios + 1) } rfl rfl
      rfl Iff.rfl
  | rand =>
    cases hcall
    exact h.idle { s.db with rand := fun i => s.db.rand (i + 1) } rfl rfl rfl Iff.rfl
  | db c =>
    obtain ⟨⟨r, db⟩, hexec, heq⟩ := Option.map_eq_some_iff.mp hcall
    cases heq
    rcases exec_committed hexec with ⟨hnone, hcommitted, hlog⟩ | ⟨t', hsome, rfl, rfl⟩
    · refine h.idle db hcommitted hlog ?_ ?_
      · rw [commits_snoc, hnone]
        exact List.append_nil _
      · rw [forall_mem_snoc]
        refine and_iff_left fun t' ht' => ?_
        rw [hnone] at ht'
        cases ht'
    · obtain ⟨rfl, hready⟩ := hguar.2.2 t' rfl
      exact h.commit hready hsome

end Traced

/-! ## Interleavings -/

section Schedules
variable {orderOf : Txn → Order F} {b₀ : Book} {db₀ : Db F} {faults : Txn → Faults}

/-- The setting of each thread. -/
def contest (orderOf : Txn → Order F) (mk : Market F) (t : Txn) : Setting (Call F) Answer (Db F) :=
  orders t (racing t mk fun b => (orderOf t).apply int32 mk b)

theorem outlined_starting (h : Untouched b₀ db₀) :
    (starting orderOf db₀).Outlined (contest orderOf (marketOf db₀))
    (fun t => ended (racing t (marketOf db₀) fun b => (orderOf t).apply int32 (marketOf db₀) b)
      fun _ _ => True)
    Session.db := by
  intro t
  refine ⟨fun w => w.WellFormed ∧ Unbegun t (marketOf db₀) w, ?_,
    ⟨h.wellFormed, rfl, ?_, funext (h.own t)⟩, does_racing t (marketOf db₀) (orderOf t)⟩
  · rintro w w' hw (rfl | ⟨-, hothers, hwf⟩)
    · exact hw
    · exact ⟨hwf hw.1, hw.2.others hothers⟩
  · change t ∉ db₀.log
    rw [h.log]
    exact List.not_mem_nil

theorem traced_starting (h : Untouched b₀ db₀) :
    Traced orderOf (marketOf db₀) b₀ (starting orderOf db₀).world where
  log := h.log
  nodup := by
    change db₀.log.Nodup
    rw [h.log]
    exact List.nodup_nil
  distinct := ⟨fun _ e he => absurd he List.not_mem_nil, fun _ => h.index.distinct⟩
  serial _ := by
    change ∃ b, Book.after int32 (marketOf db₀) (db₀.log.map orderOf) b₀ = some b ∧ _
    rw [h.log]
    exact ⟨b₀, rfl, h.index⟩

theorem traced_turns (h : Untouched b₀ db₀) {schedule : List Txn}
    {pool : Pool Txn (Call F) Answer Rc (Session F)}
    (hturns : (starting orderOf db₀).turns (fun t => Session.answer t (faults t)) schedule =
      some pool) :
    pool.Outlined (contest orderOf (marketOf db₀))
      (fun t => ended (racing t (marketOf db₀) fun b => (orderOf t).apply int32 (marketOf db₀) b)
        fun _ _ => True)
      Session.db ∧ Traced orderOf (marketOf db₀) b₀ pool.world := by
  induction schedule using List.reverseRecOn generalizing pool with
  | nil =>
    cases hturns
    exact ⟨outlined_starting h, traced_starting h⟩
  | append_singleton schedule t ih =>
    obtain ⟨pool₁, hturns₁, hturn⟩ := Pool.turns_snoc hturns
    obtain ⟨hout, htraced⟩ := ih hturns₁
    obtain ⟨hout', hworld⟩ := hout.turn (fun _ _ _ _ hc => act_answer (fun _ _ => trivial) hc)
      (fun _ hne _ _ _ _ _ hguar => rely_of_guar trivial hne hguar) hturn
    refine ⟨hout', ?_⟩
    rcases hworld with hsame | ⟨c, r, hcall, hguar⟩
    · rw [hsame]
      exact htraced
    · exact htraced.answer hcall hguar

/-- Whatever the interleaving, the table is what the committed transactions make of it one after
the other if and only if no commit doubled an account and symbol. Then no holding is negative
either, as long as the sums are in range. -/
theorem serializable_iff (orderOf : Txn → Order F) (faults : Txn → Faults) (b₀ : Book) (db₀ : Db F)
    (h₀ : Untouched b₀ db₀) (schedule : List Txn) (pool : Pool Txn (Call F) Answer Rc (Session F))
    (hturns : (starting orderOf db₀).turns (fun t => Session.answer t (faults t)) schedule =
      some pool) :
    (commits pool.world.trace).Nodup ∧
    (Serializable orderOf b₀ db₀ pool.world ↔ ∀ e ∈ pool.world.trace, DoublesNone e) ∧
    ((∀ e ∈ pool.world.trace, DoublesNone e) → b₀.Within →
      InRangeAll (marketOf db₀) ((commits pool.world.trace).map orderOf) b₀ →
        ∀ k p, pool.world.db.portfolios.committed k = some p → 0 ≤ p.holdStocks ∧
          p.holdStocks < INT_BOUND) := by
  obtain ⟨-, htraced⟩ := traced_turns h₀ hturns
  refine ⟨htraced.log ▸ htraced.nodup, ⟨?_, ?_⟩, ?_⟩
  · rintro ⟨σ, -, b, -, hindex, -⟩
    exact htraced.distinct.mp hindex.distinct
  · intro hnone
    obtain ⟨b, hb, hindex⟩ := htraced.serial (htraced.distinct.mpr hnone)
    rw [htraced.log] at hb
    refine ⟨commits pool.world.trace, .refl _, b, hb, hindex, ?_⟩
    rintro ⟨n, hn, hkeys, hids⟩ self
    exact calls_of_after (h₀.alone self) h₀.wellFormed (h₀.rests self hn hkeys) hids hb
  · intro hnone hwithin hrange k p hp
    obtain ⟨b, hb, hindex⟩ := htraced.serial (htraced.distinct.mpr hnone)
    rw [htraced.log] at hb
    exact after_within hwithin hrange hb _ _ (hindex.of_mem hp)

end Schedules

/-! ## Two purchases -/

def fiveFor (account : Byte) : Order ℚ :=
  .purchase [⟨[account], [65], 12, 5, by simp [ID_SZ], by decide⟩]

def withQuote (personal : List CStr) : Db ℚ :=
  Db.fresh personal [[65]] ((LockTable.empty.write 0 [65] (10 : ℚ)).commit 0) id

theorem untouched_withQuote (personal : List CStr) :
    Untouched (fun _ => none) (withQuote personal) :=
  ⟨rfl, LockTable.settled_commit_write fun _ => rfl, fun _ => rfl, rfl, indexes_empty⟩

/-- For different accounts, call by call in turns. -/
theorem serializable_iff_two : ∃ pool,
    (starting (fun t => fiveFor (if t = 1 then 49 else 50)) (withQuote [[49], [50]])).turns
      (fun t => Session.answer t noFaults) (List.replicate 17 [1, 2]).flatten = some pool ∧
    commits pool.world.trace = [1, 2] ∧
    (Serializable (fun t => fiveFor (if t = 1 then 49 else 50)) (fun _ => none)
      (withQuote [[49], [50]]) pool.world ↔
      ∀ e ∈ pool.world.trace, DoublesNone e) := by
  have hrun :
    ((starting (fun t => fiveFor (if t = 1 then 49 else 50)) (withQuote [[49], [50]])).turns
      (fun t => Session.answer t noFaults) (List.replicate 17 [1, 2]).flatten).map (fun pool =>
        commits pool.world.trace) = some [1, 2] := by decide +kernel
  obtain ⟨pool, hturns, hcommits⟩ := Option.map_eq_some_iff.mp hrun
  exact ⟨pool, hturns, hcommits,
    (serializable_iff _ _ _ _ (untouched_withQuote _) _ pool hturns).2.1⟩

/-- For one account: both look for the portfolio before either inserts it. -/
theorem both_create : ∃ pool,
    (starting (fun _ => fiveFor 49) (withQuote [[49]])).turns (fun t => Session.answer t noFaults)
      (List.replicate 14 1 ++ List.replicate 14 2 ++ [1, 1, 1, 2, 2, 2]) = some pool ∧
    commits pool.world.trace = [1, 2] ∧
    ¬ Serializable (fun _ => fiveFor 49) (fun _ => none) (withQuote [[49]]) pool.world := by
  have hrun :
    (((starting (fun _ => fiveFor 49) (withQuote [[49]])).turns (fun t => Session.answer t noFaults)
      (List.replicate 14 1 ++ List.replicate 14 2 ++ [1, 1, 1, 2, 2, 2])).map fun pool =>
        decide (commits pool.world.trace = [1, 2]) &&
        decide ((pool.world.db.portfolios.committed
          (portfolioIdString 0 [49])).map Portfolio.holder = some ([49], [65])) &&
        decide ((pool.world.db.portfolios.committed
          (portfolioIdString 1 [49])).map Portfolio.holder = some ([49], [65]))) =
      some true := by decide +kernel
  obtain ⟨pool, hturns, heq⟩ := Option.map_eq_some_iff.mp hrun
  simp only [Bool.and_eq_true, decide_eq_true_eq] at heq
  obtain ⟨⟨hcommits, hfirst⟩, hsecond⟩ := heq
  obtain ⟨p, hp, hpq⟩ := Option.map_eq_some_iff.mp hfirst
  obtain ⟨p', hp', hpq'⟩ := Option.map_eq_some_iff.mp hsecond
  refine ⟨pool, hturns, hcommits, ?_⟩
  rintro ⟨σ, -, b, -, hindex, -⟩
  have hkeys := hindex.distinct _ _ p p' hp hp' (hpq.trans hpq'.symm)
  exact absurd hkeys (by decide)

end Chronos.Orders
