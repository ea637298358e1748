import Chronos.Benchmark.Resolution
import Chronos.Foundation.Index
import Chronos.Orders.PortfolioIds
import Chronos.Orders.Whole

/-! # One transaction of a single thread

Where no other thread runs and no call is made to fail, a transaction does to the
table what it does to the order book, and takes the ids that this needs.
-/
namespace Chronos.Orders
open Foundation Storage Benchmark Program
variable {F α : Type} {self : Txn}

/-- No other thread, no failing call, and nothing owed. -/
def alone (F : Type) : Regime F where
  shared := False
  mayFail := False
  owes _ _ _ := True
  plain _ _ _ _ _ _ := trivial

theorem alone_quiet : (alone F).Quiet := ⟨id, id⟩

structure Midway (t : Txn) (mk : Market F) (r : ℕ → ℕ) (c₀ : CStr → Option Portfolio) (b : Book)
    (n : ℕ) (w : Db F) : Prop extends Underway t mk c₀ n w where
  rand : w.rand = r
  index : Indexes Portfolio.holder Portfolio.holdStocks (w.portfolios.view t) b

section Midway
variable {mk : Market F} {r : ℕ → ℕ} {c₀ : CStr → Option Portfolio} {b : Book} {n : ℕ} {w w' : Db F}

theorem Midway.sameData (h : Midway self mk r c₀ b n w) (hd : SameData w w') :
    Midway self mk r c₀ b n w' where
  toUnderway := h.toUnderway.sameData hd
  rand := hd.rand.trans h.rand
  index := by
    rw [hd.portfolios]
    exact h.index

theorem Midway.rewrite (h : Midway self mk r c₀ b n w) {k : CStr} {p : Portfolio}
    (hview : w.portfolios.view self k = some p) (x : ℤ) :
    Midway self mk r c₀ (Function.update b p.holder (some x)) n
      { w with portfolios := w.portfolios.write self k { p with holdStocks := x } } where
  toUnderway := h.toUnderway.rewrite hview _
  rand := h.rand
  index := by
    rw [LockTable.view_write]
    refine h.index.update (v := { p with holdStocks := x }) ?_ ?_
    · exact fun k' v' hv' hname => h.index.distinct k' k v' p hv' hview hname
    · intro v' hv'
      rw [hview] at hv'
      cases hv'
      rfl

theorem Midway.insert (h : Midway self mk r c₀ b n w) {p : Portfolio} (hnone : b p.holder = none)
    (hn : n < 2 ^ 31) (accountId : CStr) :
    Midway self mk r c₀ (Function.update b p.holder (some p.holdStocks)) (n + 1)
      { w with portfolios := w.portfolios.write self (portfolioIdString n accountId) p } where
  toUnderway := h.toUnderway.insert accountId p
  rand := h.rand
  index := by
    rw [LockTable.view_write]
    refine h.index.update ?_ ?_
    · intro k' v' hv' hname
      rw [← hname, h.index.of_mem hv'] at hnone
      cases hnone
    · intro v' hv'
      rw [h.keys.fresh hn] at hv'
      cases hv'

end Midway

/-! ## Between the calls -/

/-- Between two calls the committed table is a book. -/
structure Rests (t : Txn) (mk : Market F) (r : ℕ → ℕ) (b : Book) (n : ℕ) (w : Db F) :
    Prop extends Idle t n w where
  market : marketOf w = mk
  rand : w.rand = r
  index : Indexes Portfolio.holder Portfolio.holdStocks w.portfolios.committed b

section Resting
variable {mk : Market F} {r : ℕ → ℕ} {b₀ b : Book} {n₀ n : ℕ} {w w₀ : Db F}

theorem Rests.midway (h : Rests self mk r b n w) :
    Midway self mk r w.portfolios.committed b n w where
  toUnderway := h.market ▸ h.toIdle.underway
  rand := h.rand
  index := by
    rw [view_of_unwritten h.unwritten]
    exact h.index

theorem Midway.commit (hwf : w.WellFormed) {c₀ : CStr → Option Portfolio}
    (h : Midway self mk r c₀ b n w) (hn : w.numberPortfolios = n) :
    Rests self mk r b n (w.commit self) where
  toIdle := h.toUnderway.commit hn
  market := (marketOf_commit hwf).trans h.market
  rand := h.rand
  index := by
    rw [committed_commit]
    exact h.index

theorem Midway.abort (hwf : w.WellFormed) (h₀ : Rests self mk r b₀ n₀ w₀)
    (h : Midway self mk r w₀.portfolios.committed b n w) {n' : ℕ} (hn : w.numberPortfolios = n')
    (hle : n₀ ≤ n') : Rests self mk r b₀ n' (w.abort self) where
  toIdle := h.toUnderway.abort (h₀.keys.mono hle) hn
  market := (marketOf_abort hwf).trans h.market
  rand := h.rand
  index := by
    rw [committed_abort, h.committed]
    exact h₀.index

end Resting

/-! ## Runs of the thread -/

section Runs

theorem Does.run {p : DbProgram F α} {P : Db F → Prop} {Q : α → Db F → Prop}
    (hp : Does self (alone F) P p Q) {s s' : Session F} {o : Outcome α}
    (he : Exec (Session.answer self noFaults) p s o s') (hwf : s.db.WellFormed) (hP : P s.db) :
    ∃ a, o = .value a ∧ s'.db.WellFormed ∧ Q a s'.db := by
  have hout := (Outline.exec (E := orders self (alone F)) (π := Session.db) (J := fun _ => True)
    (fun _ _ _ _ h => act_answer (fun _ h => absurd rfl h) h) (fun _ _ _ _ _ _ _ => trivial) he hp
      ⟨hwf, hP⟩ trivial).1
  cases o with
  | value a => exact ⟨a, rfl, hout⟩
  | crashed => exact hout.elim

end Runs

variable [CFloat F]

/-! ## Purchases -/

section Purchases
variable {mk : Market F} {r : ℕ → ℕ} {c₀ : CStr → Option Portfolio} {b₀ : Book} {n₀ : ℕ}
  {data : List (BenchmarkXactData F)}

theorem created_append {wrap : ℤ → ℤ} {done rest : List (BenchmarkXactData F)} {b₀ b : Book}
    (h : done.foldlM (Book.purchase wrap mk) b₀ = some b) :
    created wrap mk (done ++ rest) b₀ = created wrap mk done b₀ + created wrap mk rest b := by
  induction done generalizing b₀ with
  | nil =>
    cases h
    simp [created]
  | cons d done ih =>
    rw [List.foldlM_cons] at h
    cases hstep : b₀.purchase wrap mk d with
    | none =>
      rw [hstep] at h
      cases h
    | some b₁ =>
      rw [hstep] at h
      simp only [List.cons_append, created, hstep, ih h, Nat.add_assoc]

def Purchased (t : Txn) (mk : Market F) (r : ℕ → ℕ) (c₀ : CStr → Option Portfolio) (b₀ : Book)
    (n₀ : ℕ) (done : List (BenchmarkXactData F)) (w : Db F) : Prop :=
  ∃ b, done.foldlM (Book.purchase int32 mk) b₀ = some b ∧
    Midway t mk r c₀ b (n₀ + created int32 mk done b₀) w ∧
    w.numberPortfolios = (n₀ + created int32 mk done b₀ : ℕ)

def Taken (t : Txn) (mk : Market F) (r : ℕ → ℕ) (c₀ : CStr → Option Portfolio) (b₀ : Book) (n₀ : ℕ)
    (done : List (BenchmarkXactData F)) (d : BenchmarkXactData F) (n : ℤ) (w : Db F) : Prop :=
  ∃ b, done.foldlM (Book.purchase int32 mk) b₀ = some b ∧ mk.Buys d ∧ b d.holder = none ∧
    Midway t mk r c₀ b (n₀ + created int32 mk done b₀) w ∧ n = (n₀ + created int32 mk done b₀ : ℕ) ∧
    n₀ + created int32 mk done b₀ < 2 ^ 31 ∧ w.numberPortfolios = n + 1

theorem created_snoc {done : List (BenchmarkXactData F)} {d : BenchmarkXactData F} {b : Book}
    (h : done.foldlM (Book.purchase int32 mk) b₀ = some b) (hbuys : mk.Buys d) :
    created int32 mk (done ++ [d]) b₀ = created int32 mk done b₀ + if b d.holder = none then 1
      else 0 := by
  rw [created_append h, created, purchase_eq_some.mpr ⟨hbuys, rfl⟩]
  simp [created]

theorem purchasing (hids : n₀ + created int32 mk data b₀ < 2 ^ 31)
    {done rest : List (BenchmarkXactData F)} {d : BenchmarkXactData F}
    (hdata : data = done ++ d :: rest) :
    Purchasing self (alone F) mk d (Purchased self mk r c₀ b₀ n₀ done)
      (Taken self mk r c₀ b₀ n₀ done d) (Purchased self mk r c₀ b₀ n₀ (done ++ [d])) where
  before := by
    refine Underway.steady alone_quiet.1 (fun w ⟨_, _, h, _⟩ => ⟨_, _, h.toUnderway⟩) ?_
    rintro w w' ⟨b, hb, h, hn⟩ hd
    exact ⟨b, hb, h.sameData hd, hd.numberPortfolios.trans hn⟩
  taken hshared := hshared.elim
  after := by
    refine Underway.steady alone_quiet.1 (fun w ⟨_, _, h, _⟩ => ⟨_, _, h.toUnderway⟩) ?_
    rintro w w' ⟨b, hb, h, hn⟩ hd
    exact ⟨b, hb, h.sameData hd, hd.numberPortfolios.trans hn⟩
  take := by
    rintro w ⟨b, hb, h, hn⟩ hnone hbuys
    have hnone' : b d.holder = none := h.index.eq_none fun k p hp => hnone alone_quiet k p hp
    have hlt : n₀ + created int32 mk done b₀ + 1 < 2 ^ 31 := by
      have hmore : created int32 mk data b₀ =
        created int32 mk done b₀ + created int32 mk (d :: rest) b := by
        rw [hdata, created_append hb]
      simp only [created, purchase_eq_some.mpr ⟨hbuys, rfl⟩, hnone', if_true] at hmore
      omega
    refine ⟨b, hb, hbuys, hnone', ⟨⟨h.market, h.committed, h.keys⟩, h.rand, h.index⟩, hn,
      by omega, ?_⟩
    exact int32_eq_self (by norm_num; omega) (by norm_num; omega)
  bought := by
    rintro w k p ⟨b, hb, h, hn⟩ - hview hholder hbuys
    have hheld : b d.holder = some p.holdStocks := hholder ▸ h.index.of_mem hview
    have hsnoc := created_snoc hb hbuys
    rw [hheld, if_neg (by simp), Nat.add_zero] at hsnoc
    refine ⟨Function.update b d.holder (some (int32 (p.holdStocks + d.amount))), ?_, ?_, ?_⟩
    · rw [foldlM_snoc hb, purchase_eq_some]
      exact ⟨hbuys, by rw [hheld]; rfl⟩
    · rw [hsnoc, ← hholder]
      exact h.rewrite hview _
    · rw [hsnoc]
      exact hn
  created := by
    rintro n w ⟨b, hb, hbuys, hnone, h, hn, hlt, hcounter⟩ - -
    have hsnoc := created_snoc hb hbuys
    rw [hnone, if_pos rfl] at hsnoc
    have hnext : n₀ + created int32 mk (done ++ [d]) b₀ = n₀ + created int32 mk done b₀ + 1 := by
      omega
    refine ⟨Function.update b d.holder (some d.amount), ?_, ?_, ?_⟩
    · rw [foldlM_snoc hb, purchase_eq_some]
      exact ⟨hbuys, by rw [hnone]; rfl⟩
    · rw [hnext, newKey, hn]
      exact h.insert (p := newPortfolio d _) hnone hlt d.accountId
    · rw [hnext, hcounter, hn]
      push_cast
      ring
  owesInsert _ _ _ _ := trivial
  owesPut _ _ _ _ _ _ _ _ _ _ := trivial

theorem Taken.fresh {done : List (BenchmarkXactData F)} {d : BenchmarkXactData F} {n : ℤ} {w : Db F}
    (h : Taken self mk r c₀ b₀ n₀ done d n w) : w.portfolios.view self (newKey d n) = none := by
  obtain ⟨b, hb, hbuys, hnone, h, hn, hlt, hcounter⟩ := h
  rw [hn]
  exact h.keys.fresh hlt d.accountId

end Purchases

/-! ## Sales -/

section Sales
variable {mk : Market F} {r : ℕ → ℕ} {c₀ : CStr → Option Portfolio} {b₀ : Book} {n₀ : ℕ}

def Sold (t : Txn) (mk : Market F) (r : ℕ → ℕ) (c₀ : CStr → Option Portfolio) (b₀ : Book) (n₀ : ℕ)
    (done : List (BenchmarkXactData F)) (w : Db F) : Prop :=
  ∃ b, done.foldlM (Book.sell int32 mk) b₀ = some b ∧ Midway t mk r c₀ b n₀ w ∧
    w.numberPortfolios = n₀

theorem sold_steady (done : List (BenchmarkXactData F)) :
    Steady self (alone F) mk [] (Sold self mk r c₀ b₀ n₀ done) := by
  refine Underway.steady alone_quiet.1 (fun w ⟨_, _, h, _⟩ => ⟨_, _, h.toUnderway⟩) ?_
  rintro w w' ⟨b, hb, h, hn⟩ hd
  exact ⟨b, hb, h.sameData hd, hd.numberPortfolios.trans hn⟩

theorem selling (done : List (BenchmarkXactData F)) (d : BenchmarkXactData F) :
    Selling self (alone F) mk d (Sold self mk r c₀ b₀ n₀ done)
      (Sold self mk r c₀ b₀ n₀ (done ++ [d])) where
  before := sold_steady done
  after := sold_steady (done ++ [d])
  sold := by
    rintro w k p ⟨b, hb, h, hn⟩ - hview hholder hle hsells
    have hheld : b d.holder = some p.holdStocks := hholder ▸ h.index.of_mem hview
    refine ⟨Function.update b d.holder (some (int32 (p.holdStocks - d.amount))), ?_, ?_, hn⟩
    · rw [foldlM_snoc hb, sell_eq_some]
      exact ⟨p.holdStocks, hheld, hsells, hle, rfl⟩
    · rw [← hholder]
      exact h.rewrite hview _
  owesPut _ _ _ _ _ _ _ _ _ _ _ := trivial

end Sales

/-! ## Whole transactions -/

section Whole
variable {mk : Market F} {b₀ : Book} {n₀ : ℕ} {r : ℕ → ℕ} {w₀ : Db F}

/-- The transaction that carries out an order. -/
def Order.transaction : Order F → Transaction F
  | .purchase data => .purchase data
  | .sell data => .sell data

/-- An order from one state of rest to the next, with the code that it returns. -/
theorem does_order (o : Order F) (h₀ : Rests self mk r b₀ n₀ w₀)
    (hids : n₀ + o.taken int32 mk b₀ < 2 ^ 31) :
    Does self (alone F) (fun w => w = w₀) o.transaction.run fun rc w =>
      (rc = BENCHMARK_SUCCESS ∧ ∃ b, o.apply int32 mk b₀ = some b ∧
        Rests self mk r b (n₀ + o.taken int32 mk b₀) w) ∨
      (rc = BENCHMARK_FAIL ∧ o.apply int32 mk b₀ = none ∧
        Rests self mk r b₀ (n₀ + o.taken int32 mk b₀) w) := by
  have habort : ∀ {w : Db F}, w.WellFormed →
    (∃ b n, Midway self mk r w₀.portfolios.committed b n w) ∧
      o.apply int32 mk b₀ = none ∧ w.numberPortfolios = (n₀ + o.taken int32 mk b₀ : ℕ) →
      o.apply int32 mk b₀ = none ∧ Rests self mk r b₀ (n₀ + o.taken int32 mk b₀)
        (w.abort self) := by
    rintro w hwf ⟨⟨b, n, h⟩, hnone, hn⟩
    exact ⟨hnone, h.abort hwf h₀ hn (Nat.le_add_right _ _)⟩
  cases o with
  | purchase data =>
    refine does_inXact (A := Purchased self mk r w₀.portfolios.committed b₀ n₀)
      (U := fun w => (∃ b n, Midway self mk r w₀.portfolios.committed b n w) ∧
        data.foldlM (Book.purchase int32 mk) b₀ = none ∧
          w.numberPortfolios = (n₀ + created int32 mk data b₀ : ℕ)) ?_ _
    refine Transacting.alone id id ?_ ?_ (fun _ _ _ => trivial) ?_ fun w hwf h => habort hwf h
    · rintro w rfl
      exact ⟨b₀, rfl, h₀.midway, h₀.counter⟩
    · intro done d rest hdata
      refine (does_placeOrder (purchasing hids hdata)).post ?_
      rintro rc w (⟨hrc, -, hB⟩ | ⟨hrc, -, hquiet⟩)
      · exact .inl ⟨hrc, hB⟩
      · rcases hquiet alone_quiet with ⟨⟨b, hb, h, hn⟩, hbuys⟩ | ⟨n, htaken, hview⟩
        rotate_left
        · exact absurd htaken.fresh hview
        have hstep : b.purchase int32 mk d = none := by rw [Book.purchase, if_neg hbuys]
        refine .inr ⟨by rw [hrc]; decide, ⟨b, _, h⟩, ?_, ?_⟩
        · rw [hdata, List.foldlM_append, hb]
          simp [hstep]
        · rw [hn, hdata, created_append hb]
          simp [created, hstep]
    · rintro w hwf ⟨b, hb, h, hn⟩
      exact ⟨b, hb, h.commit hwf hn⟩
  | sell data =>
    refine does_inXact (A := Sold self mk r w₀.portfolios.committed b₀ n₀)
      (U := fun w => (∃ b n, Midway self mk r w₀.portfolios.committed b n w) ∧
        data.foldlM (Book.sell int32 mk) b₀ = none ∧ w.numberPortfolios = (n₀ + 0 : ℕ)) ?_ _
    refine Transacting.alone id id ?_ ?_ (fun _ _ _ => trivial) ?_ fun w hwf h => habort hwf h
    · rintro w rfl
      exact ⟨b₀, rfl, h₀.midway, h₀.counter⟩
    · intro done d rest hdata
      refine (does_sellStocks (selling done d)).post ?_
      rintro rc w (⟨hrc, -, hB⟩ | ⟨hrc, -, hquiet⟩)
      · exact .inl ⟨hrc, hB⟩
      · obtain ⟨⟨b, hb, h, hn⟩, hreason⟩ := hquiet alone_quiet
        have hstep : b.sell int32 mk d = none := by
          rw [Option.eq_none_iff_forall_ne_some]
          intro b' hb'
          obtain ⟨held, hheld, hsells, hle, -⟩ := sell_eq_some.mp hb'
          rcases hreason with hno | hno | ⟨k, p, hview, hholder, hlt⟩
          · exact hno hsells
          · rw [h.index.eq_none hno] at hheld
            cases hheld
          · rw [← hholder, h.index.of_mem hview] at hheld
            cases hheld
            omega
        refine .inr ⟨by rw [hrc]; decide, ⟨b, _, h⟩, ?_, hn⟩
        rw [hdata, List.foldlM_append, hb]
        simp [hstep]
    · rintro w hwf ⟨b, hb, h, hn⟩
      exact ⟨b, hb, h.commit hwf hn⟩

end Whole

end Chronos.Orders
