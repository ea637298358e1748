import Chronos.Benchmark.Orders

/-! # The order book

What the orders are for: a partial map from account and symbol to the stocks that the
account holds. A purchase adds to it and a sale subtracts from it, if the market
allows. `wrap` is what an addition makes of its result.
-/
namespace Chronos.Orders
open Storage Benchmark
variable {F : Type}

abbrev Book := Holder → Option ℤ

/-- What an order finds and does not change. -/
structure Market (F : Type) where
  personal : List CStr
  stocks : List CStr
  quote : CStr → Option F

/-- The market that a database offers. -/
def marketOf (db : Db F) : Market F := ⟨db.personal, db.stocks, db.quotes.committed⟩

def Market.Lists (m : Market F) (d : BenchmarkXactData F) : Prop :=
  (d.accountId ≠ [] ∧ d.accountId ∈ m.personal) ∧ d.symbol ≠ [] ∧ d.symbol ∈ m.stocks

def Market.Quotes (m : Market F) (symbol : CStr) (test : F → Bool) : Prop :=
  ∃ price, m.quote symbol = some price ∧ test price = true

instance (m : Market F) (d : BenchmarkXactData F) : Decidable (m.Lists d) := by
  unfold Market.Lists
  infer_instance

instance (m : Market F) (symbol : CStr) (test : F → Bool) : Decidable (m.Quotes symbol test) :=
  decidable_of_iff ((m.quote symbol).any test = true) (by simp [Market.Quotes, Option.any_eq_true])

def bought (wrap : ℤ → ℤ) (amount : ℤ) : Option ℤ → ℤ
  | some held => wrap (held + amount)
  | none => amount

theorem foldlM_snoc {α : Type} {step : Book → α → Option Book} {b₀ b : Book} {done : List α} {d : α}
    (h : done.foldlM step b₀ = some b) : (done ++ [d]).foldlM step b₀ = step b d := by
  rw [List.foldlM_append, h]
  simp

def Book.Within (b : Book) : Prop := ∀ q held, b q = some held → 0 ≤ held ∧ held < INT_BOUND

theorem Book.Within.update {b : Book} (h : b.Within) {q : Holder} {n : ℤ} (h₀ : 0 ≤ n)
    (hn : n < INT_BOUND) : Book.Within (Function.update b q (some n)) := by
  intro q' held hq'
  by_cases hq : q' = q
  · subst hq
    rw [Function.update_self] at hq'
    cases hq'
    exact ⟨h₀, hn⟩
  · rw [Function.update_of_ne hq] at hq'
    exact h q' held hq'

/-- In range the additions of C are exact. -/
theorem bought_int32 {b : Book} (hb : b.Within) {q : Holder} {amount : ℤ} (h₀ : 0 ≤ amount)
    (hn : bought id amount (b q) < INT_BOUND) :
    bought int32 amount (b q) = bought id amount (b q) ∧ 0 ≤ bought id amount (b q) := by
  cases hq : b q with
  | none => exact ⟨rfl, h₀⟩
  | some held =>
    obtain ⟨hheld, -⟩ := hb _ _ hq
    simp only [hq, bought, id] at hn ⊢
    exact ⟨int32_eq_self (by norm_num; omega) hn, by omega⟩

variable [CFloat F]

/-- The current price is at most the offered one. -/
def Market.Buys (m : Market F) (d : BenchmarkXactData F) : Prop :=
  m.Lists d ∧ m.Quotes d.symbol (CFloat.le · d.price)

def Market.Sells (m : Market F) (d : BenchmarkXactData F) : Prop :=
  m.Lists d ∧ m.Quotes d.symbol (CFloat.le d.price ·)

instance (m : Market F) (d : BenchmarkXactData F) : Decidable (m.Buys d) :=
  inferInstanceAs (Decidable (_ ∧ _))

instance (m : Market F) (d : BenchmarkXactData F) : Decidable (m.Sells d) :=
  inferInstanceAs (Decidable (_ ∧ _))

def Book.purchase (wrap : ℤ → ℤ) (m : Market F) (b : Book) (d : BenchmarkXactData F) :
    Option Book :=
  if m.Buys d then some (Function.update b d.holder (some (bought wrap d.amount (b d.holder))))
    else none

def Book.sell (wrap : ℤ → ℤ) (m : Market F) (b : Book) (d : BenchmarkXactData F) : Option Book :=
  match b d.holder with
  | some held =>
    if m.Sells d ∧ d.amount ≤ held then
      some (Function.update b d.holder (some (wrap (held - d.amount)))) else none
  | none => none

/-- How many new names a list of purchases adds, also if it fails in the end. -/
def created (wrap : ℤ → ℤ) (m : Market F) : List (BenchmarkXactData F) → Book → ℕ
  | [], _ => 0
  | d :: data, b =>
    match b.purchase wrap m d with
    | some b' => (if b d.holder = none then 1 else 0) + created wrap m data b'
    | none => 0

/-- A transaction on the book: all of its items or nothing. -/
inductive Order (F : Type) where
  | purchase (data : List (BenchmarkXactData F))
  | sell (data : List (BenchmarkXactData F))

def Order.apply (wrap : ℤ → ℤ) (m : Market F) : Order F → Book → Option Book
  | .purchase data, b => data.foldlM (Book.purchase wrap m) b
  | .sell data, b => data.foldlM (Book.sell wrap m) b

/-- How many portfolio ids the transaction takes, whether it goes through or not. -/
def Order.taken (wrap : ℤ → ℤ) (m : Market F) : Order F → Book → ℕ
  | .purchase data, b => created wrap m data b
  | .sell _, _ => 0

/-! ## Sums in range -/

/-- No amount is negative, and no sum that a purchase makes is too large. -/
def InRange (m : Market F) : List (BenchmarkXactData F) → Book → Prop
  | [], _ => True
  | d :: data, b =>
    ∀ b', b.purchase id m d = some b' → 0 ≤ d.amount ∧ bought id d.amount (b d.holder) < INT_BOUND ∧
    InRange m data b'

def Order.InRange (m : Market F) : Order F → Book → Prop
  | .purchase data, b => Orders.InRange m data b
  | .sell data, _ => ∀ d ∈ data, 0 ≤ d.amount

theorem purchase_eq_some {wrap : ℤ → ℤ} {m : Market F} {b b' : Book} {d : BenchmarkXactData F} :
    b.purchase wrap m d = some b' ↔
      m.Buys d ∧ b' = Function.update b d.holder (some (bought wrap d.amount (b d.holder))) := by
  unfold Book.purchase
  split
  · rename_i h
    simp only [Option.some.injEq, h, true_and]
    exact eq_comm
  · rename_i h
    simp [h]

theorem sell_eq_some {wrap : ℤ → ℤ} {m : Market F} {b b' : Book} {d : BenchmarkXactData F} :
    b.sell wrap m d = some b' ↔ ∃ held, b d.holder = some held ∧ m.Sells d ∧ d.amount ≤ held ∧
      b' = Function.update b d.holder (some (wrap (held - d.amount))) := by
  unfold Book.sell
  cases hq : b d.holder with
  | none => simp
  | some held =>
    simp only
    split
    · rename_i h
      constructor
      · rintro ⟨⟩
        exact ⟨held, rfl, h.1, h.2, rfl⟩
      · rintro ⟨held', hh, -, -, rfl⟩
        cases hh
        rfl
    · rename_i h
      constructor
      · rintro ⟨⟩
      · rintro ⟨held', hh, hsells, hle, -⟩
        cases hh
        exact absurd ⟨hsells, hle⟩ h

theorem purchase_exact {m : Market F} {b : Book} (hb : b.Within) {d : BenchmarkXactData F}
    (h : ∀ b', b.purchase id m d = some b' → 0 ≤ d.amount ∧
      bought id d.amount (b d.holder) < INT_BOUND) :
    b.purchase int32 m d = b.purchase id m d ∧ ∀ b', b.purchase id m d = some b' → b'.Within := by
  by_cases hbuys : m.Buys d
  · obtain ⟨h₀, hn⟩ := h _ (purchase_eq_some.mpr ⟨hbuys, rfl⟩)
    obtain ⟨heq, hpos⟩ := bought_int32 hb h₀ hn
    refine ⟨by rw [Book.purchase, Book.purchase, heq], fun b' hb' => ?_⟩
    rw [(purchase_eq_some.mp hb').2]
    exact hb.update hpos hn
  · have hnone : ∀ wrap, b.purchase wrap m d = none := fun wrap => by
      rw [Book.purchase, if_neg hbuys]
    refine ⟨by rw [hnone, hnone], fun b' hb' => ?_⟩
    rw [hnone] at hb'
    cases hb'

theorem sell_exact {m : Market F} {b : Book} (hb : b.Within) {d : BenchmarkXactData F}
    (h₀ : 0 ≤ d.amount) :
    b.sell int32 m d = b.sell id m d ∧ ∀ b', b.sell id m d = some b' → b'.Within := by
  cases hq : b d.holder with
  | none => simp [Book.sell, hq]
  | some held =>
    obtain ⟨hheld, hbound⟩ := hb _ _ hq
    have hexact : d.amount ≤ held → int32 (held - d.amount) = held - d.amount := fun hle =>
      int32_eq_self (by norm_num at hbound ⊢; omega) (by omega)
    constructor
    · simp only [Book.sell, hq, id]
      split
      · rename_i h
        rw [hexact h.2]
      · rfl
    · intro b' hb'
      obtain ⟨held', hq', -, hle, rfl⟩ := sell_eq_some.mp hb'
      rw [hq] at hq'
      cases hq'
      exact hb.update (by simpa using hle) (by simp only [id]; omega)

theorem purchases_exact {m : Market F} {data : List (BenchmarkXactData F)} {b : Book}
    (hb : b.Within) (h : InRange m data b) :
    data.foldlM (Book.purchase int32 m) b =
      data.foldlM (Book.purchase id m) b ∧
      created int32 m data b = created id m data b ∧
      ∀ b', data.foldlM (Book.purchase id m) b = some b' → b'.Within := by
  induction data generalizing b with
  | nil =>
    refine ⟨rfl, rfl, fun b' hb' => ?_⟩
    cases hb'
    exact hb
  | cons d data ih =>
    obtain ⟨heq, hwithin⟩ := purchase_exact hb fun b' hb' => ⟨(h b' hb').1, (h b' hb').2.1⟩
    simp only [List.foldlM_cons, created, heq]
    cases hstep : b.purchase id m d with
    | none => simp
    | some b₁ =>
      obtain ⟨hfold, hcreated, hrest⟩ := ih (hwithin b₁ hstep) (h b₁ hstep).2.2
      exact ⟨hfold, by simp only [hcreated], hrest⟩

theorem sales_exact {m : Market F} {data : List (BenchmarkXactData F)} {b : Book} (hb : b.Within)
    (h : ∀ d ∈ data, 0 ≤ d.amount) :
    data.foldlM (Book.sell int32 m) b = data.foldlM (Book.sell id m) b ∧
      ∀ b', data.foldlM (Book.sell id m) b = some b' → b'.Within := by
  induction data generalizing b with
  | nil =>
    refine ⟨rfl, fun b' hb' => ?_⟩
    cases hb'
    exact hb
  | cons d data ih =>
    obtain ⟨heq, hwithin⟩ := sell_exact (m := m) hb (h d List.mem_cons_self)
    simp only [List.foldlM_cons, heq]
    cases hstep : b.sell id m d with
    | none => simp
    | some b₁ => exact ih (hwithin b₁ hstep) fun d' hd' => h d' (List.mem_cons_of_mem _ hd')

/-- In range the book computes with ints as with numbers, and stays in range. -/
theorem Order.exact {m : Market F} (o : Order F) {b : Book} (hb : b.Within) (h : o.InRange m b) :
    o.apply int32 m b = o.apply id m b ∧ o.taken int32 m b = o.taken id m b ∧
      ∀ b', o.apply id m b = some b' → b'.Within := by
  cases o with
  | purchase data => exact purchases_exact hb h
  | sell data =>
    obtain ⟨heq, hwithin⟩ := sales_exact (m := m) hb h
    exact ⟨heq, rfl, hwithin⟩

end Chronos.Orders
