import Chronos.Orders.Rules

/-! # What the functions of an order do

One specification for each function, in every regime. Assertions that are steady
hold before and after; in a quiet regime a negative answer is also right.
-/
namespace Chronos.Orders
open Foundation Storage Benchmark Program
variable {F : Type} {self : Txn} {m : Regime F} {mk : Market F} {X : List CursorId}
  {A : Db F → Prop}

/-! ## Lookups -/

/-- The answer is right, unless calls may be made to fail and it is no. -/
def Tells (m : Regime F) (P : Prop) (b : Bool) : Prop :=
  (b = true → P) ∧ (b = false → m.mayFail ∨ ¬ P)

theorem does_recordExists (hA : Steady self m mk X A) {dbp : Dbp}
    (hdbp : dbp = .personal ∨ dbp = .stocks) (key : CStr) :
    Does self m A (recordExists dbp key self) fun b w => Tells m (key ≠ [] ∧ mk.Has dbp key) b ∧
      A w := by
  unfold recordExists
  by_cases hkey : key = []
  · rw [if_pos hkey]
    exact Does.pure fun w hw => ⟨⟨by simp, fun _ => .inr (by simp [hkey])⟩, hw⟩
  · rw [if_neg hkey]
    refine (does_cursor hA dbp).bind fun r => ?_
    cases r with
    | error e => exact Does.pure fun w hw => ⟨⟨by simp, fun _ => .inl hw.2⟩, hw.1⟩
    | ok c =>
      refine Does.fact (fun w hw => hw.2.1) fun hc => ?_
      refine ((does_getListed hA hc hdbp key).pre fun w hw => ⟨hw.1, hw.2.2⟩).bind fun r => ?_
      refine Does.fact (fun w hw => hw.2) fun hr => ?_
      refine ((does_close hA hc).pre fun w hw => hw.1).bind fun _ => ?_
      refine Does.pure fun w hw => ⟨⟨fun h => ⟨hkey, hr.1 h⟩, fun h => ?_⟩, hw.1⟩
      exact (hr.2 h).imp_right fun hno h => hno h.2

theorem does_getStock (hA : Steady self m mk X A) {symbol : CStr} (hs : symbol ≠ []) :
    Does self m A (getStock symbol self) fun r w => (match r with
      | some (_, price) => mk.quote symbol = some price
      | none => m.mayFail ∨ mk.quote symbol = none) ∧ A w := by
  unfold getStock
  rw [if_neg hs]
  refine (does_cursor hA .quotes).bind fun r => ?_
  cases r with
  | error e => exact Does.pure fun w hw => ⟨.inl hw.2, hw.1⟩
  | ok c =>
    refine Does.fact (fun w hw => hw.2.1) fun hc => ?_
    refine ((does_getQuote hA hc symbol).pre fun w hw => ⟨hw.1, hw.2.2⟩).bind fun r => ?_
    cases r with
    | ok price => exact Does.pure fun w hw => ⟨hw.2, hw.1.1⟩
    | error e =>
      refine Does.fact (fun w hw => hw.2) fun hr => ?_
      exact ((does_close hA hc).pre fun w hw => hw.1).bind fun _ => Does.pure fun w hw => ⟨hr, hw.1⟩

theorem does_priceIs (hA : Steady self m mk X A) {symbol : CStr} (hs : symbol ≠ [])
    (test : F → Bool) :
    Does self m A (priceIs test symbol self) fun b w => Tells m (mk.Quotes symbol test) b ∧
      A w := by
  unfold priceIs
  refine (does_getStock hA hs).bind fun r => ?_
  rcases r with _ | ⟨c, price⟩
  · refine Does.pure fun w hw => ⟨⟨by simp, fun _ => hw.1.imp_right fun hno => ?_⟩, hw.2⟩
    rintro ⟨price, hprice, -⟩
    rw [hno] at hprice
    cases hprice
  · refine Does.pure fun w hw => ⟨⟨fun h => ⟨price, hw.1, h⟩, fun h => .inr ?_⟩, hw.2⟩
    rintro ⟨price', hprice, htest⟩
    rw [hw.1] at hprice
    cases hprice
    rw [htest] at h
    cases h

def NotHeld (t : Txn) (q : Holder) (w : Db F) : Prop :=
  ∀ k p, w.portfolios.view t k = some p → p.holder ≠ q

/-- None up to the position of the walk. -/
def NotHeldUpTo (t : Txn) (pos : Option Position) (q : Holder) (w : Db F) : Prop :=
  ∀ k p, w.portfolios.view t k = some p → (∃ b ∈ pos, toLex (p.accountId, k) ≤ b) → p.holder ≠ q

theorem NotHeld.sameData {w w' : Db F} {q : Holder} (hd : SameData w w') (h : NotHeld self q w) :
    NotHeld self q w' := by
  unfold NotHeld
  rw [hd.portfolios]
  exact h

theorem NotHeldUpTo.sameData {w w' : Db F} {pos : Option Position} {q : Holder} (hd : SameData w w')
    (h : NotHeldUpTo self pos q w) : NotHeldUpTo self pos q w' := by
  unfold NotHeldUpTo
  rw [hd.portfolios]
  exact h

theorem NotHeldUpTo.next {w : Db F} {pos : Option Position} {q : Holder} {k : CStr} {p : Portfolio}
    (h : NotHeldUpTo self pos q w)
    (hnext : nextAfter (w.walkKeys self) pos = some (toLex (p.accountId, k)))
    (hview : w.portfolios.view self k = some p) (hp : p.holder ≠ q) :
    NotHeldUpTo self (some (toLex (p.accountId, k))) q w := by
  rintro k' p' hview' ⟨b, hb, hle⟩
  cases hb
  rcases hle.lt_or_eq with hlt | heq
  · exact h k' p' hview' (nextAfter_least hnext (mem_walkKeys.mpr ⟨k', p', hview', rfl⟩) hlt)
  · obtain ⟨-, rfl⟩ := Prod.mk.inj (toLex.injective heq)
    rw [hview] at hview'
    cases hview'
    exact hp

theorem NotHeldUpTo.all {w : Db F} {pos : Option Position} {q : Holder}
    (h : NotHeldUpTo self pos q w) (hnext : nextAfter (w.walkKeys self) pos = none) :
    NotHeld self q w :=
  fun k p hview => h k p hview (nextAfter_none hnext (mem_walkKeys.mpr ⟨k, p, hview, rfl⟩))

/-- In a quiet regime only the thread changes the data. -/
theorem Steady.quietly {P : Db F → Prop} (hA : Steady self m mk X A)
    (hP : ∀ w w', SameData w w' → P w → P w') : Steady self m mk X fun w => A w ∧ (m.Quiet → P w) :=
  hA.and (fun hshared _ _ _ _ _ hq => absurd hshared hq.1)
    fun w w' _ h ha hq => hP w w' ha.data (h hq)

/-- What `get_portfolio` finds, which is everything in a quiet regime. -/
theorem does_getPortfolio (hA : Steady self m mk X A) {accountId symbol : CStr}
    (ha : accountId ≠ []) (hs : symbol ≠ []) :
    Does self m A (getPortfolio accountId symbol self) fun r w => match r with
      | some (c, k, p) => (c ∉ X ∧ p.holder = (accountId, symbol)) ∧ A w ∧ Reading self c k p w
      | none => A w ∧ (m.Quiet → NotHeld self (accountId, symbol) w) := by
  unfold getPortfolio
  rw [if_neg (by simp [ha, hs])]
  refine (does_cursor hA .portfoliosSec).bind fun r => ?_
  cases r with
  | error e => exact Does.fact (fun w hw => hw.2) Does.crash
  | ok c =>
    refine Does.fact (fun w hw => hw.2.1) fun hc => ?_
    have hwalk : Does self m (fun w => A w ∧ OpenAt self .portfoliosSec none c w)
        (Program.loop (getPortfolioStep accountId symbol c) ()) fun r w => match r with
          | some (k, p) => p.holder = (accountId, symbol) ∧ A w ∧ Reading self c k p w
          | none =>
            (A w ∧ ∃ dbp pos, OpenAt self dbp pos c w) ∧
              (m.Quiet → NotHeld self (accountId, symbol) w) := by
      refine Does.pre (Does.loop (fun _ w => ∃ pos, (A w ∧ OpenAt self .portfoliosSec pos c w) ∧
        (m.Quiet → NotHeldUpTo self pos (accountId, symbol) w)) ?_ ?_ ()) ?_
      rotate_right
      · exact fun w hw => ⟨none, hw, fun _ k p _ ⟨_, hb, _⟩ => by cases hb⟩
      · rintro hshared _ w w' ⟨pos, hw, -⟩ ho
        exact ⟨pos, (hA.openAt _ pos c).stable hshared w w' hw ho, fun hq => absurd hshared hq.1⟩
      · intro _
        refine Does.exists fun pos => ?_
        have hA' := hA.quietly (P := NotHeldUpTo self pos (accountId, symbol))
          fun w w' => NotHeldUpTo.sameData
        unfold getPortfolioStep
        refine ((does_pgetNext hA' hc pos).pre fun w hw => ⟨⟨hw.1.1, hw.2⟩, hw.1.2⟩).bind
          fun r => ?_
        rcases r with e | ⟨k, p⟩
        · exact Does.pure fun w hw => ⟨⟨hw.1.1, hw.2.1⟩, fun hq => (hw.1.2 hq).all (hw.2.2 hq)⟩
        · by_cases hp : accountId = p.accountId ∧ symbol = p.symbol
          · simp only [if_pos hp]
            exact Does.pure fun w hw => ⟨by simp [Portfolio.holder, hp.1, hp.2], hw.1.1, hw.2.1⟩
          · simp only [if_neg hp]
            have hholder : p.holder ≠ (accountId, symbol) :=
              fun h => hp ⟨(congrArg Prod.fst h).symm, (congrArg Prod.snd h).symm⟩
            exact Does.pure fun w hw => ⟨_, ⟨hw.1.1, hw.2.1.cursor⟩,
              fun hq => (hw.1.2 hq).next (hw.2.2 hq) hw.2.1.view hholder⟩
    refine (hwalk.pre fun w hw => ⟨hw.1, hw.2.2⟩).bind fun r => ?_
    rcases r with _ | ⟨k, p⟩
    · have hA' := hA.quietly (P := NotHeld self (accountId, symbol)) fun w w' => NotHeld.sameData
      refine ((does_close hA' hc).pre fun w hw => ⟨⟨hw.1.1, hw.2⟩, hw.1.2⟩).bind fun _ => ?_
      exact Does.pure fun w hw => hw.1
    · exact Does.pure fun w hw => ⟨⟨hc, hw.1⟩, hw.2⟩

/-! ## Changes -/

theorem does_failXit {P : Db F → Prop} (l : Locals) :
    Does self m P (failXit (some self) l : DbProgram F Rc) fun rc w => rc = BENCHMARK_FAIL ∧ P w :=
  Does.pure fun _ hw => ⟨rfl, hw⟩

theorem does_closeIfOpen (hA : Steady self m mk X A) (c : Option CursorId) (hc : ∀ c' ∈ c, c' ∉ X) :
    Does self m (fun w => A w ∧ ∀ c' ∈ c, ∃ dbp pos, OpenAt self dbp pos c' w) (closeIfOpen c)
      fun r w =>
      A w ∧ (r.isOk = false → m.mayFail) := by
  cases c with
  | none => exact Does.pure fun w hw => ⟨hw.1, by simp [Except.isOk, Except.toBool]⟩
  | some c => exact (does_close hA (hc c rfl)).pre fun w hw => ⟨hw.1, hw.2 c rfl⟩

theorem does_finish {B : Db F → Prop} (hB : Steady self m mk [] B) {c c' : CursorId}
    (hne : c ≠ c') :
    Does self m (fun w => B w ∧ (∃ dbp pos, OpenAt self dbp pos c w) ∧ ∃ dbp pos,
      OpenAt self dbp pos c' w)
      (finish (some self) ⟨self, some c, some c'⟩) fun rc w =>
        B w ∧ (rc = BENCHMARK_SUCCESS ∨ rc = BENCHMARK_FAIL ∧ m.mayFail) := by
  have hopen : ∀ dbp pos, Does self m (fun w => (B w ∧ OpenAt self dbp pos c' w) ∧ ∃ dbp pos,
    OpenAt self dbp pos c w)
      (finish (some self) ⟨self, some c, some c'⟩) fun rc w =>
        B w ∧ (rc = BENCHMARK_SUCCESS ∨ rc = BENCHMARK_FAIL ∧ m.mayFail) := by
    intro dbp pos
    unfold finish
    refine Does.bind ((does_closeIfOpen (hB.openAt dbp pos c') (some c) ?_).pre ?_) fun r => ?_
    · rintro _ ⟨⟩
      simpa using hne
    · rintro w ⟨hw, hc⟩
      exact ⟨hw, fun _ h => by cases h; exact hc⟩
    · cases r with
      | error e => exact Does.pure fun w hw => ⟨hw.1.1, .inr ⟨rfl, hw.2 rfl⟩⟩
      | ok _ =>
        refine Does.bind ((does_closeIfOpen hB (some c') (by simp)).pre ?_) fun r => ?_
        · rintro w ⟨⟨hw, hc'⟩, -⟩
          exact ⟨hw, fun _ h => by cases h; exact ⟨dbp, pos, hc'⟩⟩
        · cases r with
          | error e => exact Does.pure fun w hw => ⟨hw.1, .inr ⟨rfl, hw.2 rfl⟩⟩
          | ok _ => exact Does.pure fun w hw => ⟨hw.1, .inl rfl⟩
  refine (Does.exists fun x : Dbp × Option Position => hopen x.1 x.2).pre ?_
  rintro w ⟨hw, hc, dbp, pos, hc'⟩
  exact ⟨(dbp, pos), ⟨hw, hc'⟩, hc⟩

/-- A record that was found is read again, changed, and written; the change depends on a test. -/
theorem does_rewritePortfolio (hA : Steady self m mk X A) {B : Db F → Prop}
    (hB : Steady self m mk [] B) {c : CursorId} {k : CStr} {p p' : Portfolio} {test : Prop}
    {change : Portfolio → DbProgram F (Option Portfolio)}
    (hchange : ∀ {X : List CursorId} {A : Db F → Prop}, Steady self m mk X A →
      Does self m A (change p) fun r w => (match r with
        | some p'' => p'' = p' ∧ test
        | none => m.mayFail ∨ ¬ test) ∧ A w)
    (howes : ∀ c' ok w, A w → Reading self c k p w →
      OpenAt self .portfolios (some (toLex (k, []))) c' w → test →
      m.owes (.portfoliosPut c' p') ok w)
    (hwrite : ∀ w, A w → Reading self c k p w → test →
      B { w with portfolios := w.portfolios.write self k p' }) :
    Does self m (fun w => A w ∧ Reading self c k p w)
      (rewritePortfolio ⟨self, some c, none⟩ k change) fun r w =>
      match r with
        | .ok l => ∃ c', (l = ⟨self, some c, some c'⟩ ∧ c ≠ c' ∧ test) ∧
          B w ∧ (∃ dbp pos, OpenAt self dbp pos c w) ∧ ∃ dbp pos, OpenAt self dbp pos c' w
        | .error _ => A w ∧ (m.mayFail ∨ ¬ test) := by
  have hread := hA.reading c k p
  unfold rewritePortfolio
  refine (does_cursor hread .portfolios).bind fun r => ?_
  cases r with
  | error e => exact Does.pure fun w hw => ⟨hw.1.1, .inl hw.2⟩
  | ok c' =>
    refine Does.fact (fun w hw => hw.2.1) fun hc' => ?_
    have hne : c ≠ c' := fun h => hc' (h ▸ List.mem_cons_self)
    refine ((does_getKnown hread hc' fun w hw => hw.2.view).pre fun w hw => ⟨hw.1, hw.2.2⟩).bind
      fun r => ?_
    cases r with
    | error e => exact Does.pure fun w hw => ⟨hw.1.1, .inl hw.2⟩
    | ok p₁ =>
      refine Does.fact (fun w hw => hw.2.1) fun hp => ?_
      subst hp
      have hready := hread.openAt .portfolios (some (toLex (k, []))) c'
      refine ((hchange hready).pre fun w hw => ⟨hw.1, hw.2.2⟩).bind fun r => ?_
      cases r with
      | none => exact Does.pure fun w hw => ⟨hw.2.1.1, hw.1⟩
      | some p'' =>
        refine Does.fact (fun w hw => hw.1) fun htest => ?_
        obtain ⟨rfl, htest⟩ := htest
        let D : Db F → Prop := fun w =>
          B w ∧ (∃ dbp pos, OpenAt self dbp pos c w) ∧ ∃ dbp pos, OpenAt self dbp pos c' w
        have hD : m.shared → ∀ w w', D w → Others self w w' → D w' := by
          rintro hshared w w' ⟨hw, ⟨dbp, pos, h⟩, dbp', pos', h'⟩ ho
          exact ⟨hB.stable hshared w w' hw ho, ⟨dbp, pos, h.others ho⟩, dbp', pos', h'.others ho⟩
        have hput := does_put (p := p'') hD hready.stable (fun w hw => hw.2)
          (fun ok w hw => howes c' ok w hw.1.1 hw.1.2 hw.2 htest) fun w hw _ =>
          ⟨hwrite w hw.1.1 hw.1.2 htest, ⟨_, _, hw.1.2.cursor⟩, _, _, hw.2⟩
        refine (hput.pre fun w hw => hw.2).bind fun r => ?_
        cases r with
        | error e => exact Does.pure fun w hw => ⟨hw.1.1.1, .inl hw.2⟩
        | ok _ => exact Does.pure fun w hw => ⟨c', ⟨rfl, hne, htest⟩, hw⟩

/-- What `purchased` and `sold` make of a record, if the price passes the test. -/
theorem does_tested (hA : Steady self m mk X A) {symbol : CStr} (hs : symbol ≠ []) (test : F → Bool)
    (p : Portfolio) :
    Does self m A (do if ← priceIs test symbol self then return some p else return none : DbProgram
      F (Option Portfolio))
      fun r w => (match r with
        | some p' => p' = p ∧ mk.Quotes symbol test
        | none => m.mayFail ∨ ¬ mk.Quotes symbol test) ∧ A w := by
  refine (does_priceIs hA hs test).bind fun b => ?_
  cases b with
  | true => exact Does.pure fun w hw => ⟨⟨rfl, hw.1.1 rfl⟩, hw.2⟩
  | false => exact Does.pure fun w hw => ⟨hw.1.2 rfl, hw.2⟩

variable [CFloat F]

theorem does_purchased (hA : Steady self m mk X A) {symbol : CStr} (hs : symbol ≠ []) (price : F)
    (amount : ℤ) (p : Portfolio) :
    Does self m A (purchased symbol price amount true self p) fun r w =>
      (match r with
      | some p' =>
        p' = { p with holdStocks := int32 (p.holdStocks + amount) } ∧
          mk.Quotes symbol (CFloat.le · price)
      | none => m.mayFail ∨ ¬ mk.Quotes symbol (CFloat.le · price)) ∧ A w :=
  does_tested hA hs _ _

theorem does_sold (hA : Steady self m mk X A) {symbol : CStr} (hs : symbol ≠ []) (price : F)
    (amount : ℤ) (p : Portfolio) :
    Does self m A (sold symbol price amount true self p) fun r w =>
      (match r with
      | some p' =>
        p' = { p with holdStocks := int32 (p.holdStocks - amount) } ∧
          mk.Quotes symbol (CFloat.le price ·)
      | none => m.mayFail ∨ ¬ mk.Quotes symbol (CFloat.le price ·)) ∧ A w :=
  does_tested hA hs _ _

def newKey (d : BenchmarkXactData F) (n : ℤ) : CStr := portfolioIdString n d.accountId

def newPortfolio (d : BenchmarkXactData F) (n : ℤ) : Portfolio :=
  ⟨newKey d n, d.accountId, d.symbol, d.amount, 0, 0, 0, 0, 0, 0⟩

/-- What a purchase needs of the assertions before it, after taking an id, and after it. -/
structure Purchasing (t : Txn) (m : Regime F) (mk : Market F) (d : BenchmarkXactData F)
    (A : Db F → Prop) (A' : ℤ → Db F → Prop) (B : Db F → Prop) : Prop where
  before : Steady t m mk [] A
  taken : m.shared → ∀ n w w', A' n w → Others t w w' → A' n w'
  after : Steady t m mk [] B
  take : ∀ w, A w → (m.Quiet → NotHeld t d.holder w) → mk.Buys d →
    A' w.numberPortfolios { w with numberPortfolios := int32 (w.numberPortfolios + 1) }
  bought : ∀ w k p, A w → w.Held t k →
    w.portfolios.view t k = some p → p.holder = d.holder → mk.Buys d →
    B { w with portfolios :=
      w.portfolios.write t k { p with holdStocks := int32 (p.holdStocks + d.amount) } }
  created : ∀ n w, A' n w → w.portfolios.lockedByOther t (newKey d n) = false →
    w.portfolios.view t (newKey d n) = none →
    B { w with portfolios := w.portfolios.write t (newKey d n) (newPortfolio d n) }
  owesInsert : ∀ n ok w, A' n w → m.owes (.portfoliosInsert t (newKey d n) (newPortfolio d n)) ok w
  owesPut : ∀ c k p ok w, A w → OpenAt t .portfolios (some (toLex (k, []))) c w →
    w.portfolios.view t k = some p →
    p.holder = d.holder → mk.Buys d →
    m.owes (.portfoliosPut c { p with holdStocks := int32 (p.holdStocks + d.amount) }) ok w

structure Selling (t : Txn) (m : Regime F) (mk : Market F) (d : BenchmarkXactData F)
    (A B : Db F → Prop) : Prop where
  before : Steady t m mk [] A
  after : Steady t m mk [] B
  sold : ∀ w k p, A w → w.Held t k → w.portfolios.view t k = some p → p.holder = d.holder →
    d.amount ≤ p.holdStocks →
    mk.Sells d →
    B { w with portfolios :=
      w.portfolios.write t k { p with holdStocks := int32 (p.holdStocks - d.amount) } }
  owesPut : ∀ c k p ok w, A w → OpenAt t .portfolios
    (some (toLex (k, []))) c w → w.portfolios.view t k = some p →
    p.holder = d.holder → d.amount ≤ p.holdStocks → mk.Sells d →
    m.owes (.portfoliosPut c { p with holdStocks := int32 (p.holdStocks - d.amount) }) ok w

section Items
variable {d : BenchmarkXactData F} {A' : ℤ → Db F → Prop} {B : Db F → Prop}

theorem does_createPortfolio (h : Purchasing self m mk d A A' B) (hbuys : mk.Buys d) :
    Does self m (fun w => A w ∧ (m.Quiet → NotHeld self d.holder w))
      (createPortfolio d.accountId d.symbol d.price d.amount true self) fun rc w =>
        (rc = BENCHMARK_SUCCESS ∧ B w) ∨ (rc = BENCHMARK_FAIL ∧ ∃ n, A' n w ∧
          (m.Quiet → w.portfolios.view self (newKey d n) ≠ none)) := by
  unfold createPortfolio
  refine (does_fetchAndAdd h.taken fun w hw => h.take w hw.1 hw.2 hbuys).bind fun n => ?_
  refine (does_insert h.after.stable (fun hshared => h.taken hshared n) (h.owesInsert n)
    (h.created n)).bind fun r => ?_
  cases r with
  | ok _ => exact Does.pure fun w hw => .inl ⟨rfl, hw⟩
  | error e => exact Does.pure fun w hw => .inr ⟨rfl, n, hw⟩

/-- A purchase of an order, from before to after. In a quiet regime it fails where the market
does not buy, or where the new record's key is taken. -/
theorem does_placeOrder (h : Purchasing self m mk d A A' B) :
    Does self m A (placeOrder d.accountId d.symbol d.price d.amount true (some self)) fun rc w =>
      (rc = BENCHMARK_SUCCESS ∧ mk.Buys d ∧ B w) ∨
      (rc = BENCHMARK_FAIL ∧ (A w ∨ (∃ n, A' n w) ∨ B w) ∧
        (m.Quiet → A w ∧ ¬ mk.Buys d ∨ ∃ n, A' n w ∧
          w.portfolios.view self (newKey d n) ≠ none)) := by
  have hno : ∀ {P Z : Prop} {Y : Db F → Prop} {w : Db F}, Y w → m.mayFail ∨ ¬ P → (mk.Buys d → P) →
      m.Quiet → Y w ∧ ¬ mk.Buys d ∨ Z := fun hw hP hbuys hq =>
    .inl ⟨hw, fun hb => (hP.resolve_left hq.2) (hbuys hb)⟩
  change Does self m A (placeOrderIn d.accountId d.symbol d.price d.amount true (some self) self) _
  unfold placeOrderIn accountExists symbolExists
  refine (does_recordExists h.before (.inl rfl) d.accountId).bind fun b => ?_
  cases b with
  | false =>
    exact Does.pure fun w hw => .inr ⟨rfl, .inl hw.2, hno hw.2 (hw.1.2 rfl) fun hb => hb.1.1⟩
  | true =>
    refine Does.fact (fun w hw => hw.1.1 rfl) fun ha => ?_
    refine ((does_recordExists h.before (.inr rfl) d.symbol).pre fun w hw => hw.2).bind fun b => ?_
    cases b with
    | false =>
      exact Does.pure fun w hw => .inr ⟨rfl, .inl hw.2, hno hw.2 (hw.1.2 rfl) fun hb => hb.1.2⟩
    | true =>
      refine Does.fact (fun w hw => hw.1.1 rfl) fun hs => ?_
      have hlists : mk.Lists d := ⟨ha, hs⟩
      refine ((does_getPortfolio h.before ha.1 hs.1).pre fun w hw => hw.2).bind fun r => ?_
      rcases r with _ | ⟨c, k, p⟩
      · have hsteady := h.before.quietly (P := NotHeld self d.holder) fun w w' hd h => by
          unfold NotHeld
          rw [hd.portfolios]
          exact h
        refine ((does_priceIs hsteady hs.1 (CFloat.le · d.price)).pre fun w hw => hw).bind
          fun b => ?_
        cases b with
        | false =>
          exact Does.pure fun w hw =>
            .inr ⟨rfl, .inl hw.2.1, hno hw.2.1 (hw.1.2 rfl) fun hb => hb.2⟩
        | true =>
          refine Does.fact (fun w hw => hw.1.1 rfl) fun hprice => ?_
          refine ((does_createPortfolio h ⟨hlists, hprice⟩).pre fun w hw => hw.2).bind fun rc => ?_
          by_cases hrc : rc = BENCHMARK_SUCCESS
          · simp only [if_pos hrc]
            refine Does.pure fun w hw => .inl ⟨rfl, ⟨hlists, hprice⟩, ?_⟩
            rcases hw with hw | ⟨hfail, -⟩
            · exact hw.2
            · rw [hfail] at hrc
              cases hrc
          · simp only [if_neg hrc]
            refine (does_failXit _).mono (fun w hw => hw) fun rc' w hw => .inr ⟨hw.1, ?_⟩
            obtain ⟨-, ⟨hsucc, -⟩ | ⟨-, n, htaken, hview⟩⟩ := hw
            · exact absurd hsucc hrc
            · exact ⟨.inr (.inl ⟨n, htaken⟩), fun hq => .inr ⟨n, htaken, hview hq⟩⟩
      · refine Does.fact (fun w hw => hw.1) fun hfound => ?_
        obtain ⟨hc, hp⟩ := hfound
        have hrewrite := does_rewritePortfolio (c := c) (k := k) (p := p) h.before h.after
          (fun hA => does_purchased hA hs.1 d.price d.amount p)
          (fun c' ok w hw hr hopen hprice => h.owesPut c' k p ok w hw hopen hr.view hp ⟨hlists,
            hprice⟩)
          fun w hw hr hprice => h.bought w k p hw hr.held hr.view hp ⟨hlists, hprice⟩
        refine (hrewrite.pre fun w hw => hw.2).bind fun r => ?_
        cases r with
        | error l =>
          refine (does_failXit l).post fun rc w hw =>
            .inr ⟨hw.1, .inl hw.2.1, hno hw.2.1 hw.2.2 fun hb => hb.2⟩
        | ok l =>
          refine Does.exists fun c' => ?_
          refine Does.fact (fun w hw => hw.1) fun hl => ?_
          obtain ⟨rfl, hne, hprice⟩ := hl
          refine (does_finish h.after hne).mono (fun w hw => hw.2) fun rc w hw => ?_
          rcases hw.2 with hrc | ⟨hrc, hfail⟩
          · exact .inl ⟨hrc, ⟨hlists, hprice⟩, hw.1⟩
          · exact .inr ⟨hrc, .inr (.inr hw.1), fun hq => absurd hfail hq.2⟩

/-- A sale of an order, from before to after. -/
theorem does_sellStocks (h : Selling self m mk d A B) :
    Does self m A (sellStocks d.accountId d.symbol d.price d.amount true (some self)) fun rc w =>
      (rc = BENCHMARK_SUCCESS ∧ mk.Sells d ∧ B w) ∨
      (rc = BENCHMARK_FAIL ∧ (A w ∨ B w) ∧ (m.Quiet → A w ∧
        (¬ mk.Sells d ∨ NotHeld self d.holder w ∨
          ∃ k p, w.portfolios.view self k = some p ∧ p.holder = d.holder ∧
            p.holdStocks < d.amount))) := by
  have hno : ∀ {P : Prop} {Y : Db F → Prop} {Z : Prop} {w : Db F}, Y w → m.mayFail ∨ ¬ P →
    (mk.Sells d → P) →
      m.Quiet → Y w ∧ (¬ mk.Sells d ∨ Z) := fun hw hP hsells hq =>
    ⟨hw, .inl fun hb => (hP.resolve_left hq.2) (hsells hb)⟩
  change Does self m A (sellStocksIn d.accountId d.symbol d.price d.amount true (some self) self) _
  unfold sellStocksIn accountExists symbolExists
  refine (does_recordExists h.before (.inl rfl) d.accountId).bind fun b => ?_
  cases b with
  | false =>
    exact Does.pure fun w hw => .inr ⟨rfl, .inl hw.2, hno hw.2 (hw.1.2 rfl) fun hb => hb.1.1⟩
  | true =>
    refine Does.fact (fun w hw => hw.1.1 rfl) fun ha => ?_
    refine ((does_recordExists h.before (.inr rfl) d.symbol).pre fun w hw => hw.2).bind fun b => ?_
    cases b with
    | false =>
      exact Does.pure fun w hw => .inr ⟨rfl, .inl hw.2, hno hw.2 (hw.1.2 rfl) fun hb => hb.1.2⟩
    | true =>
      refine Does.fact (fun w hw => hw.1.1 rfl) fun hs => ?_
      have hlists : mk.Lists d := ⟨ha, hs⟩
      refine ((does_getPortfolio h.before ha.1 hs.1).pre fun w hw => hw.2).bind fun r => ?_
      rcases r with _ | ⟨c, k, p⟩
      · exact Does.pure fun w hw => .inr ⟨rfl, .inl hw.1, fun hq => ⟨hw.1, .inr (.inl (hw.2 hq))⟩⟩
      · refine Does.fact (fun w hw => hw.1) fun hfound => ?_
        obtain ⟨hc, hp⟩ := hfound
        by_cases hamount : p.holdStocks < d.amount
        · simp only [if_pos hamount]
          exact Does.pure fun w hw => .inr ⟨rfl, .inl hw.2.1, fun _ =>
            ⟨hw.2.1, .inr (.inr ⟨k, p, hw.2.2.view, hp, hamount⟩)⟩⟩
        · simp only [if_neg hamount]
          have hrewrite := does_rewritePortfolio (c := c) (k := k) (p := p) h.before h.after
            (fun hA => does_sold hA hs.1 d.price d.amount p)
            (fun c' ok w hw hr hopen hprice =>
              h.owesPut c' k p ok w hw hopen hr.view hp (not_lt.mp hamount) ⟨hlists, hprice⟩)
            fun w hw hr hprice =>
              h.sold w k p hw hr.held hr.view hp (not_lt.mp hamount) ⟨hlists, hprice⟩
          refine (hrewrite.pre fun w hw => hw.2).bind fun r => ?_
          cases r with
          | error l =>
            refine (does_failXit l).post fun rc w hw =>
              .inr ⟨hw.1, .inl hw.2.1, hno hw.2.1 hw.2.2 fun hb => hb.2⟩
          | ok l =>
            refine Does.exists fun c' => ?_
            refine Does.fact (fun w hw => hw.1) fun hl => ?_
            obtain ⟨rfl, hne, hprice⟩ := hl
            refine (does_finish h.after hne).mono (fun w hw => hw.2) fun rc w hw => ?_
            rcases hw.2 with hrc | ⟨hrc, hfail⟩
            · exact .inl ⟨hrc, ⟨hlists, hprice⟩, hw.1⟩
            · exact .inr ⟨hrc, .inr hw.1, fun hq => absurd hfail hq.2⟩

end Items

end Chronos.Orders
