import Chronos.Orders.Restarts
import Chronos.Orders.SingleThread

/-! # Holdings in range

No amount of a request is checked before it is added to or subtracted from a holding.
As long as every sum is at least zero and fits an int, the additions of C are exact and
no negative holding is ever written, whatever becomes of the transaction.
-/
namespace Chronos.Orders
open Foundation Storage Benchmark Program
variable {F α : Type} {self : Txn}

def Order.items : Order F → List (BenchmarkXactData F)
  | .purchase data => data
  | .sell data => data

/-- What an item makes of a holding. -/
def Order.sum : Order F → ℤ → ℤ → ℤ
  | .purchase _, held, amount => held + amount
  | .sell _, held, amount => held - amount

/-- If the call writes a record, its holding is the exact sum of an item, at least zero and an
int; a record that is rewritten is the one under the cursor. -/
def WritesSum (o : Order F) (c : DbCall F) (w : Db F) : Prop :=
  match c with
  | .portfoliosPut c p => ∃ oc k old, w.cursor? c = some oc ∧ oc.record = some k ∧
      w.portfolios.view oc.owner k = some old ∧
      ∃ d ∈ o.items, old.holder = d.holder ∧
        p = { old with holdStocks := o.sum old.holdStocks d.amount } ∧
        0 ≤ p.holdStocks ∧ p.holdStocks < INT_BOUND
  | .portfoliosInsert _ _ p =>
      ∃ d ∈ o.items, p.holder = d.holder ∧ p.holdStocks = d.amount ∧ 0 ≤ p.holdStocks ∧
        p.holdStocks < INT_BOUND
  | _ => True

/-- No other thread and no failing call; every write is of a sum in range. -/
def exact (o : Order F) : Regime F where
  shared := False
  mayFail := False
  owes c _ w := WritesSum o c w
  plain c _ w _ hput hinsert := by
    cases c with
    | portfoliosPut c p => exact absurd rfl (hput c p)
    | portfoliosInsert t k p => exact absurd rfl (hinsert t k p)
    | _ => trivial

theorem exact_quiet (o : Order F) : (exact o).Quiet := ⟨id, id⟩

/-! ## One transaction -/

/-- In the middle of a transaction what the thread sees is a book in range; nothing has been
committed yet. -/
structure Holding (t : Txn) (mk : Market F) (c₀ : CStr → Option Portfolio) (b : Book)
    (w : Db F) : Prop where
  market : marketOf w = mk
  committed : w.portfolios.committed = c₀
  index : Indexes Portfolio.holder Portfolio.holdStocks (w.portfolios.view t) b
  within : b.Within

/-- Between two transactions the committed table is a book in range. -/
structure Settled (t : Txn) (w : Db F) : Prop where
  unwritten : ∀ k, w.portfolios.own t k = none
  book : ∃ b : Book, b.Within ∧
    Indexes Portfolio.holder Portfolio.holdStocks w.portfolios.committed b

section Holding
variable {mk : Market F} {c₀ : CStr → Option Portfolio} {b : Book} {w w' : Db F}

theorem Holding.sameData (h : Holding self mk c₀ b w) (hd : SameData w w') :
    Holding self mk c₀ b w' where
  market := by rw [← h.market, marketOf, marketOf, hd.personal, hd.stocks, hd.quotes]
  committed := by rw [hd.portfolios, h.committed]
  index := by
    rw [hd.portfolios]
    exact h.index
  within := h.within

theorem Holding.steady (o : Order F) (P : Book → Prop) :
    Steady self (exact o) mk [] fun w => ∃ b, Holding self mk c₀ b w ∧ P b where
  stable h := h.elim
  aside w w' hw ha := by
    obtain ⟨b, h, hP⟩ := hw
    exact ⟨b, h.sameData ha.data, hP⟩
  bound w _ c hc := by cases hc
  market w hw := by
    obtain ⟨b, h, -⟩ := hw
    rw [← h.market]
    exact ⟨rfl, rfl, rfl⟩

theorem Holding.rewrite (h : Holding self mk c₀ b w) {k : CStr} {p : Portfolio}
    (hview : w.portfolios.view self k = some p) {x : ℤ} (hlo : 0 ≤ x) (hhi : x < INT_BOUND) :
    Holding self mk c₀ (Function.update b p.holder (some x))
      { w with portfolios := w.portfolios.write self k { p with holdStocks := x } } where
  market := h.market
  committed := LockTable.committed_write.trans h.committed
  index := by
    rw [LockTable.view_write]
    refine h.index.update (v := { p with holdStocks := x }) ?_ ?_
    · exact fun k' v' hv' hname => h.index.distinct k' k v' p hv' hview hname
    · intro v' hv'
      rw [hview] at hv'
      cases hv'
      rfl
  within := h.within.update hlo hhi

theorem Holding.insert (h : Holding self mk c₀ b w) {k : CStr} {p : Portfolio}
    (hnone : b p.holder = none) (hfree : w.portfolios.view self k = none) (hlo : 0 ≤ p.holdStocks)
    (hhi : p.holdStocks < INT_BOUND) :
    Holding self mk c₀ (Function.update b p.holder (some p.holdStocks))
      { w with portfolios := w.portfolios.write self k p } where
  market := h.market
  committed := LockTable.committed_write.trans h.committed
  index := by
    rw [LockTable.view_write]
    refine h.index.update ?_ ?_
    · intro k' v' hv' hname
      rw [← hname, h.index.of_mem hv'] at hnone
      cases hnone
    · intro v' hv'
      rw [hfree] at hv'
      cases hv'
  within := h.within.update hlo hhi

theorem Settled.holding (h : Settled self w) (hb : b.Within)
    (hindex : Indexes Portfolio.holder Portfolio.holdStocks w.portfolios.committed b) :
    Holding self (marketOf w) w.portfolios.committed b w where
  market := rfl
  committed := rfl
  index := by
    rw [view_of_unwritten h.unwritten]
    exact hindex
  within := hb

theorem Holding.commit (h : Holding self mk c₀ b w) : Settled self (w.commit self) where
  unwritten _ := LockTable.own_commit_self
  book := ⟨b, h.within, by rw [committed_commit]; exact h.index⟩

theorem Holding.abort {w₀ : Db F} (h₀ : Settled self w₀)
    (h : Holding self mk w₀.portfolios.committed b w) : Settled self (w.abort self) where
  unwritten _ := LockTable.own_abort_self
  book := by
    obtain ⟨b₀, hb₀, hindex⟩ := h₀.book
    exact ⟨b₀, hb₀, by rw [committed_abort, h.committed]; exact hindex⟩

end Holding

theorem settled_fresh (t : Txn) (personal stocks : List CStr) (quotes : LockTable CStr Txn F)
    (rand : ℕ → ℕ) : Settled t (Db.fresh personal stocks quotes rand) where
  unwritten _ := rfl
  book := ⟨fun _ => none, fun _ _ h => (Option.some_ne_none _ h.symm).elim, indexes_empty⟩

theorem rest_eq {data done rest rest' : List (BenchmarkXactData F)} {d : BenchmarkXactData F}
    (h : data = done ++ d :: rest) (h' : data = done ++ [d] ++ rest') : rest = rest' := by
  rw [h, List.append_assoc] at h'
  simpa using h'

/-! ## What is asked for -/

/-- How many stocks the items ask for under an account and a symbol. -/
def asked (data : List (BenchmarkXactData F)) (q : Holder) : ℤ :=
  ((data.filter fun d => d.holder = q).map BenchmarkXactData.amount).sum

theorem asked_cons (d : BenchmarkXactData F) (data : List (BenchmarkXactData F)) (q : Holder) :
    asked (d :: data) q = (if d.holder = q then d.amount else 0) + asked data q := by
  by_cases h : d.holder = q <;> simp [asked, h]

theorem asked_nonneg {data : List (BenchmarkXactData F)} (h : ∀ d ∈ data, 0 ≤ d.amount)
    (q : Holder) : 0 ≤ asked data q := by
  refine List.sum_nonneg fun x hx => ?_
  obtain ⟨d, hd, rfl⟩ := List.mem_map.mp hx
  exact h d (List.mem_of_mem_filter hd)

theorem bought_id (amount : ℤ) (held : Option ℤ) :
    bought id amount held = held.getD 0 + amount := by
  cases held with
  | none => exact (Int.zero_add amount).symm
  | some n => rfl

/-- A purchase moves what it buys from what is asked for to what is held. -/
theorem update_getD_add_asked (b : Book) (d : BenchmarkXactData F)
    (data : List (BenchmarkXactData F)) (q : Holder) :
    (Function.update b d.holder (some (bought id d.amount (b d.holder))) q).getD 0 + asked data q =
      (b q).getD 0 + asked (d :: data) q := by
  rw [asked_cons, bought_id]
  by_cases h : d.holder = q
  · subst h
    rw [Function.update_self, if_pos rfl, Option.getD_some, Int.add_assoc]
  · rw [Function.update_of_ne (Ne.symm h), if_neg h, Int.zero_add]

variable [CFloat F]

/-! ## Sums that fit -/

/-- The sums that the items of a purchase make in turn, up to the first that the market refuses. -/
def PurchasesFit (m : Market F) : List (BenchmarkXactData F) → Book → Prop
  | [], _ => True
  | d :: data, b => ∀ b', b.purchase id m d = some b' →
    (0 ≤ bought id d.amount (b d.holder) ∧ bought id d.amount (b d.holder) < INT_BOUND) ∧
      PurchasesFit m data b'

/-- The differences that the items of a sale make in turn, up to the first that is refused. -/
def SalesFit (m : Market F) : List (BenchmarkXactData F) → Book → Prop
  | [], _ => True
  | d :: data, b => ∀ b', b.sell id m d = some b' →
    (∀ held, b d.holder = some held → held - d.amount < INT_BOUND) ∧ SalesFit m data b'

def Order.SumsFit (m : Market F) : Order F → Book → Prop
  | .purchase data, b => PurchasesFit m data b
  | .sell data, b => SalesFit m data b

theorem PurchasesFit.next {m : Market F} {d : BenchmarkXactData F}
    {rest : List (BenchmarkXactData F)} {b : Book} (h : PurchasesFit m (d :: rest) b)
    (hbuys : m.Buys d) :
    (0 ≤ bought id d.amount (b d.holder) ∧ bought id d.amount (b d.holder) < INT_BOUND) ∧
      PurchasesFit m rest (Function.update b d.holder (some (bought id d.amount (b d.holder)))) :=
  h _ (purchase_eq_some.mpr ⟨hbuys, rfl⟩)

theorem SalesFit.next {m : Market F} {d : BenchmarkXactData F} {rest : List (BenchmarkXactData F)}
    {b : Book} {held : ℤ} (h : SalesFit m (d :: rest) b) (hheld : b d.holder = some held)
    (hsells : m.Sells d) (hle : d.amount ≤ held) :
    held - d.amount < INT_BOUND ∧
      SalesFit m rest (Function.update b d.holder (some (held - d.amount))) := by
  obtain ⟨hfits, hrest⟩ := h _ (sell_eq_some.mpr ⟨held, hheld, hsells, hle, rfl⟩)
  exact ⟨hfits held hheld, hrest⟩

/-! ## Room for an order -/

def Order.allowed (m : Market F) : Order F → List (BenchmarkXactData F)
  | .purchase data => data.takeWhile fun d => m.Buys d
  | .sell data => data.takeWhile fun d => m.Sells d

/-- No amount that the market allows is negative, and what a purchase asks for in all is at most
what its record leaves of an int. -/
structure FindsRoom (o : Order F) (db : Db F) : Prop where
  nonneg : ∀ d ∈ o.allowed (marketOf db), 0 ≤ d.amount
  room : ∀ data, o = .purchase data → ∀ q, asked (o.allowed (marketOf db)) q < INT_BOUND ∧
    ∀ k p, db.portfolios.committed k = some p → p.holder = q →
      asked (o.allowed (marketOf db)) q < INT_BOUND - p.holdStocks

theorem allowed_purchase_cons {m : Market F} {d : BenchmarkXactData F}
    {data : List (BenchmarkXactData F)} (h : m.Buys d) :
    (Order.purchase (d :: data)).allowed m = d :: (Order.purchase data).allowed m := by
  rw [Order.allowed, List.takeWhile_cons_of_pos (by simpa using h), Order.allowed]

theorem allowed_sell_cons {m : Market F} {d : BenchmarkXactData F}
    {data : List (BenchmarkXactData F)} (h : m.Sells d) :
    (Order.sell (d :: data)).allowed m = d :: (Order.sell data).allowed m := by
  rw [Order.allowed, List.takeWhile_cons_of_pos (by simpa using h), Order.allowed]

/-- Without negative amounts the sums of a purchase fit exactly if all that it asks for does. -/
theorem purchasesFit_iff {m : Market F} {data : List (BenchmarkXactData F)} {b : Book}
    (hb : b.Within) (hnonneg : ∀ d ∈ (Order.purchase data).allowed m, 0 ≤ d.amount) :
    PurchasesFit m data b ↔ ∀ q, (b q).getD 0 + asked
      ((Order.purchase data).allowed m) q < INT_BOUND := by
  induction data generalizing b with
  | nil =>
    refine iff_of_true trivial fun q => ?_
    cases hq : b q with
    | none => simp [Order.allowed, asked]
    | some held => simpa [Order.allowed, asked] using (hb q held hq).2
  | cons d data ih =>
    by_cases hbuys : m.Buys d
    · rw [allowed_purchase_cons hbuys] at hnonneg ⊢
      have hamount := hnonneg d List.mem_cons_self
      have hrest := fun d' hd' => hnonneg d' (List.mem_cons_of_mem _ hd')
      have hlo : 0 ≤ bought id d.amount (b d.holder) := by
        rw [bought_id]
        cases hq : b d.holder with
        | none => simpa using hamount
        | some held => exact Int.add_nonneg (hb _ held hq).1 hamount
      constructor
      · intro hfits q
        obtain ⟨⟨-, hhi⟩, htail⟩ := hfits.next hbuys
        rw [← update_getD_add_asked]
        exact (ih (hb.update hlo hhi) hrest).mp htail q
      · intro hroom b' hb'
        obtain ⟨-, rfl⟩ := purchase_eq_some.mp hb'
        have hsum := hroom d.holder
        rw [asked_cons, if_pos rfl, ← Int.add_assoc, ← bought_id] at hsum
        have hhi : bought id d.amount (b d.holder) < INT_BOUND :=
          lt_of_le_of_lt (Int.le_add_of_nonneg_right (asked_nonneg hrest _)) hsum
        refine ⟨⟨hlo, hhi⟩, (ih (hb.update hlo hhi) hrest).mpr fun q => ?_⟩
        rw [update_getD_add_asked]
        exact hroom q
    · rw [Order.allowed, List.takeWhile_cons_of_neg (by simpa using hbuys)]
      refine iff_of_true (fun b' hb' => absurd (purchase_eq_some.mp hb').1 hbuys) fun q => ?_
      cases hq : b q with
      | none => simp [asked]
      | some held => simpa [asked] using (hb q held hq).2

theorem salesFit {m : Market F} {data : List (BenchmarkXactData F)} {b : Book} (hb : b.Within)
    (hnonneg : ∀ d ∈ (Order.sell data).allowed m, 0 ≤ d.amount) : SalesFit m data b := by
  induction data generalizing b with
  | nil => trivial
  | cons d data ih =>
    intro b' hb'
    obtain ⟨held, hheld, hsells, hle, rfl⟩ := sell_eq_some.mp hb'
    rw [allowed_sell_cons hsells] at hnonneg
    have hamount := hnonneg d List.mem_cons_self
    obtain ⟨hlo, hhi⟩ := hb _ held hheld
    simp only [id]
    refine ⟨fun held' hheld' => ?_, ih (hb.update (by omega) (by omega)) fun d' hd' =>
      hnonneg d' (List.mem_cons_of_mem _ hd')⟩
    rw [hheld] at hheld'
    cases hheld'
    omega

theorem FindsRoom.sumsFit {o : Order F} {db : Db F} (h : FindsRoom o db) {b : Book} (hb : b.Within)
    (hindex : Indexes Portfolio.holder Portfolio.holdStocks db.portfolios.committed b) :
    o.SumsFit (marketOf db) b := by
  cases o with
  | sell data => exact salesFit hb h.nonneg
  | purchase data =>
    refine (purchasesFit_iff hb h.nonneg).mpr fun q => ?_
    obtain ⟨hnew, hstored⟩ := h.room data rfl q
    cases hq : b q with
    | none => simpa using hnew
    | some held =>
      obtain ⟨k, p, hp, hname, hval⟩ := (hindex.value q held).mp hq
      have hroom := hstored k p hp hname
      simp only [Option.getD_some]
      omega

/-! ## Purchases and sales -/

section Items
variable {mk : Market F} {c₀ : CStr → Option Portfolio} {data : List (BenchmarkXactData F)}

/-- After the items `done` of a purchase the sums of the rest still fit. -/
def Purchasable (t : Txn) (mk : Market F) (c₀ : CStr → Option Portfolio)
    (data done : List (BenchmarkXactData F)) (w : Db F) : Prop :=
  ∃ b, Holding t mk c₀ b w ∧ ∀ rest, data = done ++ rest → PurchasesFit mk rest b

/-- The same, when an id has been taken for a new record. -/
def Creatable (t : Txn) (mk : Market F) (c₀ : CStr → Option Portfolio)
    (data done : List (BenchmarkXactData F)) (d : BenchmarkXactData F) (w : Db F) : Prop :=
  ∃ b, Holding t mk c₀ b w ∧ mk.Buys d ∧ b d.holder = none ∧
    ∀ rest, data = done ++ rest → PurchasesFit mk rest b

def Sellable (t : Txn) (mk : Market F) (c₀ : CStr → Option Portfolio)
    (data done : List (BenchmarkXactData F)) (w : Db F) : Prop :=
  ∃ b, Holding t mk c₀ b w ∧ ∀ rest, data = done ++ rest → SalesFit mk rest b

theorem Holding.adds {rest : List (BenchmarkXactData F)} {d : BenchmarkXactData F} {b : Book}
    {w : Db F} (h : Holding self mk c₀ b w) (hfits : PurchasesFit mk (d :: rest) b) {k : CStr}
    {p : Portfolio} (hview : w.portfolios.view self k = some p) (hholder : p.holder = d.holder)
    (hbuys : mk.Buys d) :
    b d.holder = some p.holdStocks ∧ int32 (p.holdStocks + d.amount) = p.holdStocks + d.amount ∧
      0 ≤ p.holdStocks + d.amount ∧ p.holdStocks + d.amount < INT_BOUND := by
  have hheld : b d.holder = some p.holdStocks := hholder ▸ h.index.of_mem hview
  obtain ⟨⟨hlo, hhi⟩, -⟩ := hfits.next hbuys
  simp only [hheld, bought, id] at hlo hhi
  exact ⟨hheld, int32_eq_self (by norm_num; omega) hhi, hlo, hhi⟩

theorem purchasable {done rest : List (BenchmarkXactData F)} {d : BenchmarkXactData F}
    (hdata : data = done ++ d :: rest) :
    Purchasing self (exact (.purchase data)) mk d (Purchasable self mk c₀ data done)
      (fun _ => Creatable self mk c₀ data done d) (Purchasable self mk c₀ data (done ++ [d])) where
  before := Holding.steady _ _
  taken hshared := hshared.elim
  after := Holding.steady _ _
  take := by
    rintro w ⟨b, h, hfits⟩ hnone hbuys
    have hnone' : b d.holder = none := h.index.eq_none fun k p hp => hnone (exact_quiet _) k p hp
    exact ⟨b, ⟨h.market, h.committed, h.index, h.within⟩, hbuys, hnone', hfits⟩
  bought := by
    rintro w k p ⟨b, h, hfits⟩ - hview hholder hbuys
    obtain ⟨hheld, hexact, hlo, hhi⟩ := h.adds (hfits _ hdata) hview hholder hbuys
    obtain ⟨-, hrest⟩ := (hfits _ hdata).next hbuys
    rw [hexact]
    refine ⟨Function.update b d.holder (some (p.holdStocks + d.amount)),
      hholder ▸ h.rewrite hview hlo hhi, ?_⟩
    rintro rest' hrest'
    obtain rfl := rest_eq hdata hrest'
    simpa only [hheld, bought, id] using hrest
  created := by
    rintro n w ⟨b, h, hbuys, hnone, hfits⟩ - hfree
    obtain ⟨⟨hlo, hhi⟩, hrest⟩ := (hfits _ hdata).next hbuys
    simp only [hnone, bought] at hlo hhi hrest
    refine ⟨_, h.insert (p := newPortfolio d n) hnone hfree hlo hhi, ?_⟩
    rintro rest' hrest'
    obtain rfl := rest_eq hdata hrest'
    exact hrest
  owesInsert := by
    rintro n ok w ⟨b, h, hbuys, hnone, hfits⟩
    obtain ⟨⟨hlo, hhi⟩, -⟩ := (hfits _ hdata).next hbuys
    simp only [hnone, bought] at hlo hhi
    exact ⟨d, by simp [Order.items, hdata], rfl, rfl, hlo, hhi⟩
  owesPut := by
    rintro c k p ok w ⟨b, h, hfits⟩ hopen hview hholder hbuys
    obtain ⟨-, hexact, hlo, hhi⟩ := h.adds (hfits _ hdata) hview hholder hbuys
    rw [hexact]
    exact ⟨_, k, p, hopen.2, rfl, hview, d, by simp [Order.items, hdata], hholder, rfl, hlo, hhi⟩

theorem Holding.subtracts {rest : List (BenchmarkXactData F)} {d : BenchmarkXactData F} {b : Book}
    {w : Db F} (h : Holding self mk c₀ b w) (hfits : SalesFit mk (d :: rest) b) {k : CStr}
    {p : Portfolio} (hview : w.portfolios.view self k = some p) (hholder : p.holder = d.holder)
    (hle : d.amount ≤ p.holdStocks) (hsells : mk.Sells d) :
    b d.holder = some p.holdStocks ∧ int32 (p.holdStocks - d.amount) = p.holdStocks - d.amount ∧
      0 ≤ p.holdStocks - d.amount ∧ p.holdStocks - d.amount < INT_BOUND := by
  have hheld : b d.holder = some p.holdStocks := hholder ▸ h.index.of_mem hview
  obtain ⟨hhi, -⟩ := hfits.next hheld hsells hle
  exact ⟨hheld, int32_eq_self (by norm_num; omega) hhi, by omega, hhi⟩

theorem sellable {done rest : List (BenchmarkXactData F)} {d : BenchmarkXactData F}
    (hdata : data = done ++ d :: rest) :
    Selling self (exact (.sell data)) mk d (Sellable self mk c₀ data done)
      (Sellable self mk c₀ data (done ++ [d])) where
  before := Holding.steady _ _
  after := Holding.steady _ _
  sold := by
    rintro w k p ⟨b, h, hfits⟩ - hview hholder hle hsells
    obtain ⟨hheld, hexact, hlo, hhi⟩ := h.subtracts (hfits _ hdata) hview hholder hle hsells
    obtain ⟨-, hrest⟩ := (hfits _ hdata).next hheld hsells hle
    rw [hexact]
    refine ⟨Function.update b d.holder (some (p.holdStocks - d.amount)),
      hholder ▸ h.rewrite hview hlo hhi, ?_⟩
    rintro rest' hrest'
    obtain rfl := rest_eq hdata hrest'
    exact hrest
  owesPut := by
    rintro c k p ok w ⟨b, h, hfits⟩ hopen hview hholder hle hsells
    obtain ⟨-, hexact, hlo, hhi⟩ := h.subtracts (hfits _ hdata) hview hholder hle hsells
    rw [hexact]
    exact ⟨_, k, p, hopen.2, rfl, hview, d, by simp [Order.items, hdata], hholder, rfl, hlo, hhi⟩

end Items

/-! ## Whole transactions -/

/-- The transaction that carries out an order, between two states of rest. -/
theorem does_fitting (o : Order F) {w₀ : Db F} (h₀ : Settled self w₀) (hroom : FindsRoom o w₀) :
    Does self (exact o) (fun w => w = w₀) o.transaction.run fun _ w => Settled self w := by
  obtain ⟨b₀, hb₀, hindex⟩ := h₀.book
  have hstart : Holding self (marketOf w₀) w₀.portfolios.committed b₀ w₀ := h₀.holding hb₀ hindex
  have hsums : o.SumsFit (marketOf w₀) b₀ := hroom.sumsFit hb₀ hindex
  have hcommit : ∀ {P : Book → Prop} (w : Db F),
      (∃ b, Holding self (marketOf w₀) w₀.portfolios.committed b w ∧ P b) →
        Settled self (w.commit self) :=
    fun w ⟨_, h, _⟩ => h.commit
  have habort : ∀ w : Db F, (∃ b, Holding self (marketOf w₀) w₀.portfolios.committed b w) →
    Settled self (w.abort self) :=
    fun w ⟨b, h⟩ => h.abort h₀
  cases o with
  | purchase data =>
    refine (does_inXact (A := Purchasable self (marketOf w₀) w₀.portfolios.committed data)
      (U := fun w => ∃ b, Holding self (marketOf w₀) w₀.portfolios.committed b w)
        (D := Settled self)
      (N := Settled self) ?_ _).post fun rc w hw => hw.elim (fun h => h.2) fun h => h.2
    refine Transacting.alone id id ?_ ?_ (fun _ _ _ => trivial) (fun w _ => hcommit w)
      fun w _ => habort w
    · rintro w rfl
      refine ⟨b₀, hstart, fun rest hrest => ?_⟩
      obtain rfl : data = rest := hrest
      exact hsums
    · intro done d rest hdata
      refine (does_placeOrder (purchasable hdata)).post ?_
      rintro rc w (⟨hrc, -, hB⟩ | ⟨hrc, hw, -⟩)
      · exact .inl ⟨hrc, hB⟩
      · refine .inr ⟨by rw [hrc]; decide, ?_⟩
        rcases hw with ⟨b, h, -⟩ | ⟨n, b, h, -⟩ | ⟨b, h, -⟩
        · exact ⟨b, h⟩
        · exact ⟨b, h⟩
        · exact ⟨b, h⟩
  | sell data =>
    refine (does_inXact (A := Sellable self (marketOf w₀) w₀.portfolios.committed data)
      (U := fun w => ∃ b, Holding self (marketOf w₀) w₀.portfolios.committed b w)
        (D := Settled self)
      (N := Settled self) ?_ _).post fun rc w hw => hw.elim (fun h => h.2) fun h => h.2
    refine Transacting.alone id id ?_ ?_ (fun _ _ _ => trivial) (fun w _ => hcommit w)
      fun w _ => habort w
    · rintro w rfl
      refine ⟨b₀, hstart, fun rest hrest => ?_⟩
      obtain rfl : data = rest := hrest
      exact hsums
    · intro done d rest hdata
      refine (does_sellStocks (sellable hdata)).post ?_
      rintro rc w (⟨hrc, -, hB⟩ | ⟨hrc, hw, -⟩)
      · exact .inl ⟨hrc, hB⟩
      · refine .inr ⟨by rw [hrc]; decide, ?_⟩
        rcases hw with ⟨b, h, -⟩ | ⟨b, h, -⟩
        · exact ⟨b, h⟩
        · exact ⟨b, h⟩

/-! ## Runs -/

/-- Orders carried out one after the other, each with the database it found, and the
calls that are made for each. -/
inductive Trades (t : Txn) : Db F → List (Order F × Db F) → List (Order F × Entry F) → Db F → Prop
  | nil {db : Db F} : Trades t db [] [] db
  | order {db db' : Db F} {o : Order F} {rc : Rc} {s' : Session F} {orders : List (Order F × Db F)}
      {tr : List (Order F × Entry F)} :
      Exec (Session.answer t noFaults) o.transaction.run ⟨db, []⟩ (.value rc) s' →
        Trades t s'.db orders tr db' →
      Trades t db ((o, db) :: orders) (s'.trace.map (Prod.mk o) ++ tr) db'

theorem order_in_range {o : Order F} {db : Db F} {rc : Rc} {s' : Session F} (hwf : db.WellFormed)
    (h₀ : Settled self db) (hroom : FindsRoom o db)
    (he : Exec (Session.answer self noFaults) o.transaction.run ⟨db, []⟩ (.value rc) s') :
    (∀ e ∈ s'.trace, WritesSum o e.call e.before) ∧ s'.db.WellFormed ∧ Settled self s'.db := by
  have hrun := Outline.exec (E := orders self (exact o)) (π := Session.db)
    (J := fun s => ∀ e ∈ s.trace, WritesSum o e.call e.before)
    (fun _ _ _ _ h => act_answer (fun _ h => absurd rfl h) h) ?_ he (does_fitting o h₀ hroom)
      ⟨hwf, rfl⟩ (by simp)
  · exact ⟨hrun.2, hrun.1⟩
  · intro c s a s₁ hs hanswer hguar e he
    have hrecorded := recorded_answer hanswer
    cases c with
    | db c =>
      rw [hrecorded, List.mem_append, List.mem_singleton] at he
      rcases he with he | rfl
      · exact hs e he
      · exact hguar.2.2
    | fetchAndAdd => exact hs e (hrecorded ▸ he)
    | rand => exact hs e (hrecorded ▸ he)

/-- From an empty table of portfolios, orders that find room only write exact sums in
range, and leave only holdings in range. -/
theorem holdings_in_range (t : Txn) (personal stocks : List CStr) (quotes : LockTable CStr Txn F)
    (rand : ℕ → ℕ) (hquotes : ∀ k, (quotes.cell k).pending = none) (orders : List (Order F × Db F))
    (tr : List (Order F × Entry F)) (db : Db F)
    (h : Trades t (Db.fresh personal stocks quotes rand) orders tr db)
    (hroom : ∀ x ∈ orders, FindsRoom x.1 x.2) : (∀ x ∈ tr, WritesSum x.1 x.2.call x.2.before) ∧
      ∀ k p, db.portfolios.committed k = some p → 0 ≤ p.holdStocks ∧ p.holdStocks < INT_BOUND := by
  have hwf : (Db.fresh personal stocks quotes rand).WellFormed :=
    ⟨List.nodup_nil, fun _ hoc => absurd hoc List.not_mem_nil, hquotes⟩
  have hsettled := settled_fresh t personal stocks quotes rand
  generalize Db.fresh personal stocks quotes rand = db₀ at h hwf hsettled
  induction h with
  | nil =>
    obtain ⟨b, hb, hindex⟩ := hsettled.book
    exact ⟨by simp, fun k p hp => hb _ _ (hindex.of_mem hp)⟩
  | order he _ ih =>
    obtain ⟨hwrites, hwf', hsettled'⟩ := order_in_range hwf hsettled (hroom _ List.mem_cons_self) he
    obtain ⟨hrest, hend⟩ := ih (fun x hx => hroom x (List.mem_cons_of_mem _ hx)) hwf' hsettled'
    refine ⟨fun x hx => ?_, hend⟩
    rcases List.mem_append.mp hx with hx | hx
    · obtain ⟨e, he, rfl⟩ := List.mem_map.mp hx
      exact hwrites e he
    · exact hrest x hx

theorem holdings_in_range_purchase : ∃ tr db,
    Trades 1 (Db.fresh [[49]] [[65]] ((LockTable.empty.write 0 [65] (10 : ℚ)).commit 0) id)
      [(.purchase [⟨[49], [65], 12, 5, by decide, by decide⟩],
        Db.fresh [[49]] [[65]] ((LockTable.empty.write 0 [65] (10 : ℚ)).commit 0) id)] tr db ∧
      (∀ x ∈ tr, WritesSum x.1 x.2.call x.2.before) ∧
        ∀ k p, db.portfolios.committed k = some p → 0 ≤ p.holdStocks ∧
          p.holdStocks < INT_BOUND := by
  have hrun : (purchaseRun 1 100 [⟨[49], [65], 12, 5, by decide, by decide⟩]
      (Db.fresh [[49]] [[65]] ((LockTable.empty.write 0 [65] (10 : ℚ)).commit 0) id)).isSome =
        true := by decide +kernel
  obtain ⟨s, hs⟩ := Option.isSome_iff_exists.mp hrun
  obtain ⟨rc, he⟩ := exec_of_purchaseRun hs
  refine ⟨_, _, .order (o := .purchase _) he .nil, ?_⟩
  refine holdings_in_range 1 [[49]] [[65]] _ id (LockTable.settled_commit_write fun _ => rfl) _ _ _
    (.order (o := .purchase _) he .nil) fun x hx => ?_
  obtain rfl := List.mem_singleton.mp hx
  refine ⟨by decide, fun data hdata q => ?_⟩
  cases hdata
  refine ⟨?_, fun k p hp => by cases hp⟩
  rw [allowed_purchase_cons (by decide), asked_cons]
  split <;> norm_num [asked, Order.allowed]

/-- A purchase of minus five stocks is accepted. -/
theorem negative_holding_stored : ∃ tr db,
    Trades 1 (Db.fresh [[49]] [[65]] ((LockTable.empty.write 0 [65] (10 : ℚ)).commit 0) id)
      [(.purchase [⟨[49], [65], 12, -5, by decide, by decide⟩],
        Db.fresh [[49]] [[65]] ((LockTable.empty.write 0 [65] (10 : ℚ)).commit 0) id)] tr db ∧
      ∃ k p, db.portfolios.committed k = some p ∧ p.holdStocks = -5 := by
  have hrun : ((purchaseRun 1 100 [⟨[49], [65], 12, -5, by decide, by decide⟩]
      (Db.fresh [[49]] [[65]] ((LockTable.empty.write 0 [65] (10 : ℚ)).commit 0) id)).map fun s =>
        (s.db.portfolios.committed (portfolioIdString 0 [49])).map Portfolio.holdStocks) =
          some (some (-5)) := by
    decide +kernel
  obtain ⟨s, hs, hstored⟩ := Option.map_eq_some_iff.mp hrun
  obtain ⟨p, hp, hheld⟩ := Option.map_eq_some_iff.mp hstored
  obtain ⟨rc, he⟩ := exec_of_purchaseRun hs
  exact ⟨_, _, .order (o := .purchase _) he .nil, _, p, hp, hheld⟩

end Chronos.Orders
