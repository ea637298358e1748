import Chronos.Orders.Requests

/-! # What an account holds

Accounting for a dialogue: what went through was bought and sold, and a view shows for
each account just what it has bought and how much of that it has not sold.
-/
namespace Chronos.Orders
open Foundation Storage Benchmark Program
variable {F : Type} {q : Holder}

/-- A purchase enters the name in the book, whatever the amount. -/
def Request.buys (q : Holder) : Request F → Bool
  | .op (.order (.purchase data)) => data.any fun d => d.holder = q
  | _ => false

def Request.traded (q : Holder) : Request F → ℤ
  | .op (.order (.purchase data)) => (data.map fun d => if d.holder = q then d.amount else 0).sum
  | .op (.order (.sell data)) => (data.map fun d => if d.holder = q then -d.amount else 0).sum
  | _ => 0

def passed (served : List (Request F × Reply)) : List (Request F) :=
  (served.filter fun qr => qr.2.rc = BENCHMARK_SUCCESS).map Prod.fst

/-- What was ever bought, with the purchases less the sales. -/
def accounted (served : List (Request F × Reply)) : Book := fun q =>
  if (passed served).any (Request.buys q) then some ((passed served).map (Request.traded q)).sum
    else none

/-! ## Entries -/

/-- An entry of the book before and after a number of trades; nothing is traded that is not
there. -/
structure Traded (bought : Bool) (amount : ℤ) (held held' : Option ℤ) : Prop where
  entry : held' = held.elim (if bought then some amount else none) fun n => some (n + amount)
  absent : held = none → bought = false → amount = 0

theorem traded_nothing (held : Option ℤ) : Traded false 0 held held where
  entry := by cases held <;> simp
  absent _ _ := rfl

theorem Traded.trans {bought bought' : Bool} {n n' : ℤ} {held held' held'' : Option ℤ}
    (h : Traded bought n held held') (h' : Traded bought' n' held' held'') :
    Traded (bought || bought') (n + n') held held'' where
  entry := by
    rw [h'.entry, h.entry]
    cases held with
    | some m => simp [add_assoc]
    | none =>
      cases bought with
      | true => simp
      | false => cases bought' <;> simp [h.absent rfl rfl]
  absent hnone hbought := by
    rw [Bool.or_eq_false_iff] at hbought
    obtain ⟨rfl, rfl⟩ := hbought
    have hnone' : held' = none := by rw [h.entry, hnone]; rfl
    rw [h.absent hnone rfl, h'.absent hnone' rfl, add_zero]

variable [CFloat F] {m : Market F} {b b' : Book}

theorem traded_purchase {d : BenchmarkXactData F} (h : b.purchase id m d = some b') :
    Traded (decide (d.holder = q)) (if d.holder = q then d.amount else 0) (b q) (b' q) := by
  obtain ⟨-, rfl⟩ := purchase_eq_some.mp h
  by_cases hq : d.holder = q
  · subst hq
    rw [Function.update_self]
    constructor
    · cases b d.holder <;> simp [bought]
    · simp
  · rw [Function.update_of_ne (Ne.symm hq)]
    simpa [hq] using traded_nothing (b q)

theorem traded_sale {d : BenchmarkXactData F} (h : b.sell id m d = some b') :
    Traded false (if d.holder = q then -d.amount else 0) (b q) (b' q) := by
  obtain ⟨held, hheld, -, -, rfl⟩ := sell_eq_some.mp h
  by_cases hq : d.holder = q
  · subst hq
    rw [Function.update_self, hheld]
    exact ⟨by simp [sub_eq_add_neg], by simp⟩
  · rw [Function.update_of_ne (Ne.symm hq)]
    simpa [hq] using traded_nothing (b q)

theorem traded_purchases {data : List (BenchmarkXactData F)}
    (h : data.foldlM (Book.purchase id m) b = some b') :
    Traded (data.any fun d => d.holder = q) (data.map fun d => if d.holder = q then d.amount
      else 0).sum (b q) (b' q) := by
  induction data generalizing b with
  | nil =>
    cases h
    exact traded_nothing _
  | cons d data ih =>
    rw [List.foldlM_cons, Option.bind_eq_bind, Option.bind_eq_some_iff] at h
    obtain ⟨b₁, hd, hdata⟩ := h
    exact (traded_purchase hd).trans (ih hdata)

theorem traded_sales {data : List (BenchmarkXactData F)}
    (h : data.foldlM (Book.sell id m) b = some b') :
    Traded false (data.map fun d => if d.holder = q then -d.amount else 0).sum (b q) (b' q) := by
  induction data generalizing b with
  | nil =>
    cases h
    exact traded_nothing _
  | cons d data ih =>
    rw [List.foldlM_cons, Option.bind_eq_bind, Option.bind_eq_some_iff] at h
    obtain ⟨b₁, hd, hdata⟩ := h
    exact (traded_sale hd).trans (ih hdata)

/-! ## Dialogues -/

variable {x : Exchange F}

theorem step_order_cases (o : Order F) :
    (∃ b, o.apply id x.market x.book = some b ∧ (x.step (.order o)).2 = BENCHMARK_SUCCESS ∧
      (x.step (.order o)).1.book = b) ∨
    (x.step (.order o)).2 = BENCHMARK_FAIL ∧ (x.step (.order o)).1.book = x.book := by
  simp only [Exchange.step]
  split
  · exact .inl ⟨_, ‹_›, rfl, rfl⟩
  · exact .inr ⟨rfl, rfl⟩

theorem traded_order {o : Order F} (h : o.apply id x.market x.book = some b) :
    Traded ((Request.op (.order o)).buys q) ((Request.op (.order o)).traded q) (x.book q)
      (b q) := by
  cases o with
  | purchase data => exact traded_purchases h
  | sell data => exact traded_sales h

/-- A request that goes through trades its items, any other trades nothing. -/
theorem traded_next {r : Request F} {a : Reply} (h : x.Replies r a) :
    Traded (decide (a.rc = BENCHMARK_SUCCESS) && r.buys q)
      (if a.rc = BENCHMARK_SUCCESS then r.traded q else 0) (x.book q) ((x.next r).book q) := by
  cases r with
  | op o =>
    obtain rfl : a = ⟨(x.step o).2, []⟩ := h
    cases o with
    | order o =>
      rcases step_order_cases (x := x) o with ⟨b, happly, hrc, hbook⟩ | ⟨hrc, hbook⟩
      · simpa [hrc, Exchange.next, hbook] using traded_order (q := q) happly
      · simpa [hrc, Exchange.next, hbook, BENCHMARK_FAIL, BENCHMARK_SUCCESS]
          using traded_nothing (x.book q)
    | refresh symbol newValue =>
      have hbook : (x.next (.op (.refresh symbol newValue))).book = x.book := by
        simp only [Exchange.next, Exchange.step]
        split
        · rfl
        · split <;> rfl
      simpa [hbook, Request.buys, Request.traded] using traded_nothing (x.book q)
  | viewStock symbolList =>
    simpa [Exchange.next, Request.buys, Request.traded] using traded_nothing (x.book q)
  | viewPortfolio accountList =>
    simpa [Exchange.next, Request.buys, Request.traded] using traded_nothing (x.book q)

theorem traded_all {served : List (Request F × Reply)} (h : x.RepliesAll served) :
    Traded ((passed served).any (Request.buys q)) ((passed served).map (Request.traded q)).sum
      (x.book q) (((served.map Prod.fst).foldl Exchange.next x).book q) := by
  induction served generalizing x with
  | nil => exact traded_nothing _
  | cons ra served ih =>
    obtain ⟨r, a⟩ := ra
    have hall := (traded_next (q := q) h.1).trans (ih h.2)
    by_cases ha : a.rc = BENCHMARK_SUCCESS
    · simpa [passed, ha] using hall
    · simpa [passed, ha] using hall

theorem book_accounted {served : List (Request F × Reply)} {market : Market F} {rand : ℕ → ℕ}
    (h : (Exchange.opening market rand).RepliesAll served) :
    ((served.map Prod.fst).foldl Exchange.next (Exchange.opening market rand)).book =
      accounted served :=
  funext fun _ => (traded_all h).entry

theorem personal_next (r : Request F) : (x.next r).market.personal = x.market.personal := by
  cases r with
  | op o =>
    simp only [Exchange.next]
    cases o with
    | order o =>
      simp only [Exchange.step]
      split <;> rfl
    | refresh symbol newValue =>
      simp only [Exchange.step]
      split
      · rfl
      · split <;> rfl
  | viewStock _ => rfl
  | viewPortfolio _ => rfl

theorem personal_foldl (requests : List (Request F)) :
    (requests.foldl Exchange.next x).market.personal = x.market.personal := by
  induction requests generalizing x with
  | nil => rfl
  | cons r requests ih => exact (ih (x := x.next r)).trans (personal_next r)

theorem Exchange.RepliesAll.snoc {served : List (Request F × Reply)} {r : Request F} {a : Reply}
    (h : x.RepliesAll (served ++ [(r, a)])) :
    x.RepliesAll served ∧ ((served.map Prod.fst).foldl Exchange.next x).Replies r a := by
  induction served generalizing x with
  | nil => exact ⟨trivial, h.1⟩
  | cons ra served ih =>
    obtain ⟨hrest, hlast⟩ := ih h.2
    exact ⟨⟨h.1, hrest⟩, hlast⟩

theorem allowedAll_view {requests : List (Request F)} {accountList : List CStr}
    (h : x.AllowedAll requests) : x.AllowedAll (requests ++ [.viewPortfolio accountList]) := by
  induction requests generalizing x with
  | nil => exact ⟨trivial, trivial⟩
  | cons r requests ih => exact ⟨h.1, ih h.2⟩

/-- Whatever was asked for before, a view of portfolios succeeds and shows each account with
one record for each symbol that it has bought, and in it what was bought less what was sold. -/
theorem view_shows_accounted (t : Txn) (personal stocks : List CStr) (quotes : LockTable CStr Txn F)
    (rand : ℕ → ℕ) (hquotes : ∀ k, (quotes.cell k).pending = none)
    (served : List (Request F × Reply)) (accountList : List CStr) (reply : Reply) (db : Db F)
    (hallowed : (Exchange.opening ⟨personal, stocks, quotes.committed⟩ rand).AllowedAll
      (served.map Prod.fst))
    (hdialogue : Dialogue t (Db.fresh personal stocks quotes rand)
      (served ++ [(.viewPortfolio accountList, reply)]) db) :
    reply.rc = BENCHMARK_SUCCESS ∧
      (accounted served).Shows (accountList.flatMap (accountsShown personal)) reply.shown := by
  have hreplies := (hdialogue.replies (represents_fresh hquotes) (by
    rw [List.map_append]
    exact allowedAll_view hallowed)).1
  obtain ⟨hserved, hrc, hshown⟩ := hreplies.snoc
  rw [book_accounted hserved, personal_foldl] at hshown
  exact ⟨hrc, hshown⟩

theorem view_shows_accounted_bought :
    ∃ a reply db,
      Dialogue 1 (Db.fresh [[49]] [[65]] ((LockTable.empty.write 0 [65] (10 : ℚ)).commit 0) id)
        ([(.op (.order (.purchase [⟨[49], [65], 12, 5, by decide, by decide⟩])), a)] ++
          [(.viewPortfolio [[49]], reply)]) db ∧
      reply.rc = BENCHMARK_SUCCESS ∧
      (accounted [(.op (.order
        (.purchase [(⟨[49], [65], 12, 5, by decide, by decide⟩ : BenchmarkXactData ℚ)])), a)]).Shows
        [[49]] reply.shown := by
  have hallowed : (Exchange.opening ⟨[[49]], [[65]],
    ((LockTable.empty.write 0 [65] (10 : ℚ)).commit 0).committed⟩ id).AllowedAll
      [.op (.order (.purchase [⟨[49], [65], 12, 5, by decide, by decide⟩])),
        .viewPortfolio [[49]]] :=
    ⟨⟨fun b' _ => ⟨by decide, by decide, trivial⟩, by decide⟩, trivial, trivial⟩
  have hfresh : Represents 1
    (Db.fresh [[49]] [[65]] ((LockTable.empty.write 0 [65] (10 : ℚ)).commit 0) id) _ :=
    represents_fresh (LockTable.settled_commit_write fun _ => rfl)
  obtain ⟨served, db, hdialogue, hrequests⟩ := dialogue_exists hfresh hallowed
  obtain ⟨⟨r, a⟩, served, rfl, rfl, hrest⟩ := List.map_eq_cons_iff.mp hrequests
  obtain ⟨⟨r, reply⟩, served, rfl, rfl, hnil⟩ := List.map_eq_cons_iff.mp hrest
  obtain rfl := List.map_eq_nil_iff.mp hnil
  refine ⟨a, reply, db, hdialogue, ?_⟩
  exact view_shows_accounted 1 [[49]] [[65]] _ id (LockTable.settled_commit_write fun _ => rfl) _
    [[49]] reply db
    ⟨hallowed.1, trivial⟩ hdialogue

end Chronos.Orders
