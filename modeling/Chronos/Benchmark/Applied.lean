import Chronos.Benchmark.Quiet
import Chronos.Foundation.History

/-! # What an item must have done

The calls of a thread with their answers, one after the other, make a word. Each kind
of item has a language: the calls that it must have made, and how they were answered.
A function that returns success made such calls, unless it ignored a failure.
-/
namespace Chronos.Benchmark
open Foundation Storage Program Computability
variable {F α : Type}

/-- A call with its answer. -/
abbrev Made (F : Type) := (c : DbCall F) × Except DbError c.Payload

def did (c : DbCall F) (a : c.Payload) : Made F := ⟨c, .ok a⟩

def Made.of (e : Entry F) : Made F := ⟨e.call, e.answer⟩

def madeSoFar (s : Session F) : List (Made F) := s.trace.map Made.of

/-- One call, and its answer. -/
def one (m : Made F) : Language (Made F) := {[m]}

def closed (c : CursorId) : Language (Made F) := {w | ∃ r, w = [⟨.close c, r⟩]}

/-! ## The items -/

/-- `account_exists` and `symbol_exists` find the record. -/
def recordFound (dbp : Dbp) (key : CStr) (t : Txn) : Language (Made F) :=
  {w | ∃ c a, w ∈ one (did (.cursor dbp t) c) * one (did (.get dbp c key) a) * closed c}

/-- `get_stock` on cursor `c` finds the quote. -/
def stockGot (symbol : CStr) (c : CursorId) (price : F) (t : Txn) : Language (Made F) :=
  one (did (.cursor .quotes t) c) * one (did (.get .quotes c symbol) price)

def passed (P : Portfolio → Prop) (c : CursorId) : Language (Made F) :=
  {w | ∃ record : CStr × Portfolio, P record.2 ∧ w = [did (.portfoliosPgetNext c) record]}

def walkEnded (c : CursorId) : Language (Made F) := one ⟨.portfoliosPgetNext c, .error .notFound⟩

/-- `get_portfolio` finds a record of the holder after others, under `key`. -/
def portfolioFound (holder : Holder) (c : CursorId) (key : CStr) (found : Portfolio → Prop)
    (t : Txn) : Language (Made F) :=
  {w | ∃ p, p.holder = holder ∧ found p ∧
    w ∈ one (did (.cursor .portfoliosSec t) c) *
      ((passed (·.holder ≠ holder) c)∗ * one (did (.portfoliosPgetNext c) (key, p)))}

/-- `get_portfolio` comes to the end and has seen no record of the holder. -/
def portfolioAbsent (holder : Holder) (t : Txn) : Language (Made F) :=
  {w | ∃ c, w ∈ one (did (.cursor .portfoliosSec t) c) *
    ((passed (·.holder ≠ holder) c)∗ * walkEnded c) * closed c}

/-- The record under `key` is read, the quote passes the test, and the record is saved
with `change` applied to it. -/
def portfolioRewritten (key symbol : CStr) (test : F → Prop) (change : Portfolio → Portfolio)
    (cursorp : CursorId) (t : Txn) : Language (Made F) :=
  {w | ∃ p c price, test price ∧
    w ∈ one (did (.cursor .portfolios t) cursorp) * (one (did (.get .portfolios cursorp key) p) *
      (stockGot symbol c price t * one (did (.portfoliosPut cursorp (change p)) ())))}

/-- The quote passes the test, and a record of so many stocks is inserted. -/
def portfolioCreated (holder : Holder) (amount : ℤ) (test : F → Prop) (t : Txn) :
    Language (Made F) :=
  {w | ∃ c price key p, test price ∧ p.holder = holder ∧ p.holdStocks = amount ∧
    w ∈ stockGot holder.2 c price t * one (did (.portfoliosInsert t key p) ())}

/-- The record of the holder is found and rewritten, and both cursors are closed. -/
def holdingChanged (holder : Holder) (found : Portfolio → Prop) (test : F → Prop)
    (change : Portfolio → Portfolio) (t : Txn) : Language (Made F) :=
  {w | ∃ c key cursorp, w ∈ portfolioFound holder c key found t *
    (portfolioRewritten key holder.2 test change cursorp t *
      (one (did (.close c) ()) * one (did (.close cursorp) ())))}

def quoteShown (t : Txn) (symbol : CStr) : Language (Made F) :=
  {w | ∃ c price, w ∈ stockGot symbol c price t * one (did (.close c) ())}

def portfoliosWalked (t : Txn) : Language (Made F) :=
  {w | ∃ c, w ∈ one (did (.cursor .portfoliosSec t) c) *
    ((passed (fun _ => True) c)∗ * walkEnded c) * closed c}

def accountShown (c : CursorId) (t : Txn) : Language (Made F) :=
  {w | ∃ key, w ∈ one (did (.personalNext c) key) * portfoliosWalked t}

/-- The account that is given, or all of them. -/
def portfoliosShown (t : Txn) (accountId : CStr) : Language (Made F) :=
  {w | ∃ c, w ∈ one (did (.cursor .personal t) c) *
    ((if accountId = [] then (accountShown c t)∗ * one ⟨.personalNext c, .error .notFound⟩
      else one (did (.get .personal c accountId) ()) * portfoliosWalked t) * closed c)}

section Prices
variable [CFloat F]

/-- The stocks are added to the record of the holder, or to a new one if there is none. -/
def purchaseApplied (t : Txn) (d : BenchmarkXactData F) : Language (Made F) :=
  recordFound .personal d.accountId t * (recordFound .stocks d.symbol t *
    (holdingChanged d.holder (fun _ => True) (CFloat.le · d.price)
        (fun p => { p with holdStocks := int32 (p.holdStocks + d.amount) }) t +
      portfolioAbsent d.holder t * portfolioCreated d.holder d.amount (CFloat.le · d.price) t))

/-- The stocks are taken from the record of the holder, which has as many. -/
def saleApplied (t : Txn) (d : BenchmarkXactData F) : Language (Made F) :=
  recordFound .personal d.accountId t * (recordFound .stocks d.symbol t *
    holdingChanged d.holder (d.amount ≤ ·.holdStocks) (CFloat.le d.price ·)
      (fun p => { p with holdStocks := int32 (p.holdStocks - d.amount) }) t)

/-- A given price is stored as it is; a negative one stands for a step up or down. -/
def isNewPrice (newValue currentPrice price : F) : Prop :=
  if CFloat.le CFloat.zero newValue then price = newValue
  else price = CFloat.addTenth currentPrice ∨ price = CFloat.subTenth currentPrice

def quoteRewritten (symbol : CStr) (newValue : F) (t : Txn) : Language (Made F) :=
  {w | ∃ c currentPrice price, isNewPrice newValue currentPrice price ∧
    w ∈ stockGot symbol c currentPrice t *
      (one (did (.quotesPut c price) ()) * one (did (.close c) ()))}

end Prices

/-! ## Failures that are ignored -/

/-- A walk over Portfolios ends before its end. -/
def WalkBroken : Made F → Prop
  | ⟨.portfoliosPgetNext _, .error err⟩ => err ≠ .notFound
  | _ => False

/-- What `show_portfolios` does not report: a walk that is broken or cannot start, and an
account that is not read. -/
def ViewBroken : Made F → Prop
  | ⟨.cursor .portfoliosSec _, .error _⟩ => True
  | ⟨.get .personal _ _, .error _⟩ => True
  | m => WalkBroken m

theorem WalkBroken.viewBroken {m : Made F} (h : WalkBroken m) : ViewBroken m := by
  unfold ViewBroken
  split
  · trivial
  · trivial
  · exact h

theorem not_viewBroken_did (c : DbCall F) (a : c.Payload) : ¬ ViewBroken (did c a) := by
  cases c with
  | cursor dbp t => cases dbp <;> exact id
  | get dbp c key => cases dbp <;> exact id
  | _ => exact id

def Smooth (L : Language (Made F)) : Prop := ∀ w ∈ L, ∀ m ∈ w, ¬ ViewBroken m

theorem Smooth.mul {L M : Language (Made F)} (hL : Smooth L) (hM : Smooth M) : Smooth (L * M) :=
  forall_mem_mul hL hM

theorem smooth_one {m : Made F} (h : ¬ ViewBroken m) : Smooth (one m) := by
  rintro w rfl
  exact List.forall_mem_singleton.mpr h

theorem smooth_did (c : DbCall F) (a : c.Payload) : Smooth (one (did c a)) :=
  smooth_one (not_viewBroken_did c a)

theorem smooth_closed (c : CursorId) : Smooth (closed c : Language (Made F)) := by
  rintro w ⟨r, rfl⟩
  exact List.forall_mem_singleton.mpr id

theorem smooth_passed (P : Portfolio → Prop) (c : CursorId) :
    Smooth (passed P c : Language (Made F)) := by
  rintro w ⟨record, -, rfl⟩
  exact List.forall_mem_singleton.mpr (not_viewBroken_did _ _)

theorem smooth_walkEnded (c : CursorId) : Smooth (walkEnded c : Language (Made F)) :=
  smooth_one fun h => h rfl

theorem smooth_walk (P : Portfolio → Prop) (c : CursorId) :
    Smooth ((passed P c : Language (Made F))∗) :=
  forall_mem_kstar (smooth_passed P c)

theorem smooth_recordFound (dbp : Dbp) (key : CStr) (t : Txn) :
    Smooth (recordFound dbp key t : Language (Made F)) := by
  rintro w ⟨c, a, hw⟩
  exact (((smooth_did _ _).mul (smooth_did _ _)).mul (smooth_closed c)) w hw

theorem smooth_stockGot (symbol : CStr) (c : CursorId) (price : F) (t : Txn) :
    Smooth (stockGot symbol c price t) :=
  (smooth_did _ _).mul (smooth_did _ _)

theorem smooth_holdingChanged (holder : Holder) (found : Portfolio → Prop) (test : F → Prop)
    (change : Portfolio → Portfolio) (t : Txn) :
    Smooth (holdingChanged holder found test change t) := by
  rintro w ⟨c, key, cursorp, hw⟩
  refine Smooth.mul ?_ (Smooth.mul ?_ ((smooth_did _ _).mul (smooth_did _ _))) w hw
  · rintro w ⟨p, -, -, hw⟩
    exact (smooth_did _ _).mul ((smooth_walk _ c).mul (smooth_did _ _)) w hw
  · rintro w ⟨p, c, price, -, hw⟩
    exact (smooth_did _ _).mul
      ((smooth_did _ _).mul ((smooth_stockGot _ _ _ _).mul (smooth_did _ _))) w hw

theorem smooth_quoteShown (t : Txn) (symbol : CStr) :
    Smooth (quoteShown t symbol : Language (Made F)) := by
  rintro w ⟨c, price, hw⟩
  exact (smooth_stockGot _ _ _ _).mul (smooth_did _ _) w hw

theorem smooth_portfoliosWalked (t : Txn) : Smooth (portfoliosWalked t : Language (Made F)) := by
  rintro w ⟨c, hw⟩
  exact ((smooth_did _ _).mul ((smooth_walk _ c).mul (smooth_walkEnded c))).mul
    (smooth_closed c) w hw

theorem smooth_portfoliosShown (t : Txn) (accountId : CStr) :
    Smooth (portfoliosShown t accountId : Language (Made F)) := by
  have hwalk : Smooth (portfoliosWalked t : Language (Made F)) := smooth_portfoliosWalked t
  rintro w ⟨c, hw⟩
  refine (smooth_did _ _).mul (Smooth.mul ?_ (smooth_closed c)) w hw
  split
  · refine Smooth.mul (forall_mem_kstar ?_) (smooth_one id)
    rintro w ⟨key, hw⟩
    exact (smooth_did _ _).mul hwalk w hw
  · exact (smooth_did _ _).mul hwalk

section Prices
variable [CFloat F]

theorem smooth_purchaseApplied (t : Txn) (d : BenchmarkXactData F) :
    Smooth (purchaseApplied t d) := by
  refine (smooth_recordFound _ _ _).mul ((smooth_recordFound _ _ _).mul ?_)
  rintro w (hw | hw)
  · exact smooth_holdingChanged _ _ _ _ _ w hw
  · refine Smooth.mul ?_ ?_ w hw
    · rintro w ⟨c, hw⟩
      exact ((smooth_did _ _).mul ((smooth_walk _ c).mul (smooth_walkEnded c))).mul
        (smooth_closed c) w hw
    · rintro w ⟨c, price, key, p, -, -, -, hw⟩
      exact (smooth_stockGot _ _ _ _).mul (smooth_did _ _) w hw

theorem smooth_saleApplied (t : Txn) (d : BenchmarkXactData F) : Smooth (saleApplied t d) :=
  (smooth_recordFound _ _ _).mul ((smooth_recordFound _ _ _).mul (smooth_holdingChanged _ _ _ _ _))

theorem smooth_quoteRewritten (symbol : CStr) (newValue : F) (t : Txn) :
    Smooth (quoteRewritten symbol newValue t) := by
  rintro w ⟨c, currentPrice, price, -, hw⟩
  exact (smooth_stockGot _ _ _ _).mul ((smooth_did _ _).mul (smooth_did _ _)) w hw

end Prices

/-! ## What the functions make -/

/-- The environment records its calls. -/
def Records (h : (c : Call F) → Session F → Option (Answer c × Session F)) : Prop :=
  ∀ c s a s', h c s = some (a, s') → Recorded c s a s'

theorem records_answer {self : Txn} {faults : Faults} :
    Records (Session.answer self faults : (c : Call F) → Session F →
      Option (Answer c × Session F)) :=
  fun _ _ _ _ => recorded_answer

section Runs
variable {h : (c : Call F) → Session F → Option (Answer c × Session F)} {s s' : Session F}

theorem call_bind_cases {c : DbCall F} {f : Except DbError c.Payload → DbProgram F α}
    {o : Outcome α} (hh : Records h) (he : Exec h (call c >>= f) s o s') :
    ∃ a s₁, h (.db c) s = some (a, s₁) ∧ s₁.trace = s.trace ++ [⟨s.db, c, a⟩] ∧
      Exec h (f a) s₁ o s' := by
  rcases he.bind_cases with ⟨a, s₁, hcall, he⟩ | ⟨-, hcrash⟩
  · obtain ⟨a', ha, heq⟩ := hcall.perform_cases
    cases heq
    exact ⟨a, s₁, ha, hh _ _ _ _ ha, he⟩
  · obtain ⟨a, -, heq⟩ := hcrash.perform_cases
    cases heq

theorem grows_of_trace {w : List (Entry F)} {L : Language (Made F)} (htr : s'.trace = s.trace ++ w)
    (hw : w.map Made.of ∈ L) : Grows madeSoFar L s s' :=
  ⟨w.map Made.of, hw, by rw [madeSoFar, htr, List.map_append, madeSoFar]⟩

theorem grows_of_untraced {L : Language (Made F)} (htr : s'.trace = s.trace) (hnil : [] ∈ L) :
    Grows madeSoFar L s s' :=
  grows_of_trace (w := []) (htr.trans (List.append_nil _).symm) hnil

theorem call_grows {c : DbCall F} {f : Except DbError c.Payload → DbProgram F α} {o : Outcome α}
    (hh : Records h) (he : Exec h (call c >>= f) s o s') :
    ∃ a s₁, Grows madeSoFar (one ⟨c, a⟩) s s₁ ∧ Exec h (f a) s₁ o s' := by
  obtain ⟨a, s₁, -, htr, he⟩ := call_bind_cases hh he
  exact ⟨a, s₁, grows_of_trace htr rfl, he⟩

theorem run_grows {p : DbProgram F α} {o : Outcome α} (hh : Records h) (he : Exec h p s o s') :
    Grows madeSoFar ⊤ s s' := by
  refine he.invariant (fun c s₁ a s₂ hgrows hc => hgrows.trans (M := ⊤) ?_ fun _ _ _ _ => trivial)
    ⟨[], trivial, by simp⟩
  have hrec := hh c s₁ a s₂ hc
  cases c with
  | db c => exact grows_of_trace hrec trivial
  | fetchAndAdd => exact grows_of_untraced hrec trivial
  | rand => exact grows_of_untraced hrec trivial

theorem grows_trouble {P : Made F → Prop} {L : Language (Made F)} {p : DbProgram F α}
    {o : Outcome α} {s₁ : Session F} (hgrows : Grows madeSoFar (containing P) s s₁) (hh : Records h)
    (he : Exec h p s₁ o s') : Grows madeSoFar (L + containing P) s s' := by
  refine hgrows.trans (run_grows hh he) fun x hx y _ => Or.inr ?_
  obtain ⟨a, ha, hP⟩ := hx
  exact ⟨a, List.mem_append_left _ ha, hP⟩

theorem closed_of_close {c : CursorId} {r : Except DbError Unit}
    (hgrows : Grows madeSoFar (one ⟨.close c, r⟩) s s') :
    Grows madeSoFar (closed c) s s' := hgrows.mono fun _ hw => ⟨r, hw⟩

theorem fail_not_success : ¬ Exec h (pure BENCHMARK_FAIL : DbProgram F Rc) s
    (.value BENCHMARK_SUCCESS) s' := by
  intro he
  obtain ⟨hvalue, -⟩ := he.pure_cases
  cases hvalue

theorem containing_of_one {P : Made F → Prop} {m : Made F} {w : List (Made F)} (hw : w ∈ one m)
    (hm : P m) : w ∈ containing P := by
  obtain rfl : w = [m] := hw
  exact ⟨m, List.mem_singleton_self m, hm⟩

theorem walkEnded_or_broken {c : CursorId} {err : DbError} {w : List (Made F)}
    (hw : w ∈ one (⟨.portfoliosPgetNext c, .error err⟩ : Made F)) :
    w ∈ walkEnded c + containing WalkBroken := by
  rcases eq_or_ne err .notFound with rfl | herr
  · exact Or.inl hw
  · exact Or.inr (containing_of_one hw herr)

variable (hh : Records h)
include hh

theorem recordExists_true {dbp : Dbp} {key : CStr} {t : Txn}
    (he : Exec h (recordExists dbp key t) s (.value true) s') :
    Grows madeSoFar (recordFound dbp key t) s s' := by
  unfold recordExists at he
  split at he
  · cases he
  · obtain ⟨a, s₁, hcursor, he⟩ := call_grows hh he
    cases a with
    | error err => cases he
    | ok c =>
      obtain ⟨ret, s₂, hget, he⟩ := call_grows hh he
      obtain ⟨r, s₃, hclose, he⟩ := call_grows hh he
      obtain ⟨hret, rfl⟩ := he.pure_cases
      cases ret with
      | error err => cases hret
      | ok a => exact ((hcursor.mul hget).mul (closed_of_close hclose)).mono fun w hw => ⟨c, a, hw⟩

theorem recordExists_bind {dbp : Dbp} {key : CStr} {t : Txn} {f : Bool → DbProgram F Rc}
    {L : Language (Made F)}
    (he : Exec h (recordExists dbp key t >>= f) s (.value BENCHMARK_SUCCESS) s')
    (hfalse : f false = pure BENCHMARK_FAIL)
    (htrue : ∀ s₁, Exec h (f true) s₁ (.value BENCHMARK_SUCCESS) s' → Grows madeSoFar L s₁ s') :
    Grows madeSoFar (recordFound dbp key t * L) s s' := by
  obtain ⟨found, s₁, hfound, he⟩ := he.bind_value
  cases found with
  | false =>
    rw [hfalse] at he
    exact absurd he fail_not_success
  | true => exact (recordExists_true hh hfound).mul (htrue s₁ he)

theorem getStock_some {symbol : CStr} {t : Txn} {c : CursorId} {price : F}
    (he : Exec h (getStock symbol t) s (.value (some (c, price))) s') :
    Grows madeSoFar (stockGot symbol c price t) s s' := by
  unfold getStock at he
  split at he
  · cases he
  · obtain ⟨a, s₁, hcursor, he⟩ := call_grows hh he
    cases a with
    | error err => cases he
    | ok c' =>
      obtain ⟨ret, s₂, hget, he⟩ := call_grows hh he
      cases ret with
      | error err =>
        obtain ⟨r, s₃, hclose, he⟩ := call_grows hh he
        cases he
      | ok price' =>
        obtain ⟨hvalue, rfl⟩ := he.pure_cases
        cases hvalue
        exact hcursor.mul hget

/-- What `get_portfolio` has seen when its walk stops. -/
def walkResult (holder : Holder) (c : CursorId) (found : Option (CStr × Portfolio)) :
    Language (Made F) :=
  found.elim (walkEnded c + containing WalkBroken) fun record =>
    {w | record.2.holder = holder ∧ w ∈ one (did (.portfoliosPgetNext c) record)}

theorem getPortfolioStep_next {accountId symbol : CStr} {c : CursorId} {x x' : Unit}
    (he : Exec h (getPortfolioStep accountId symbol c x) s (.value (.inl x')) s') :
    Grows madeSoFar (passed (·.holder ≠ (accountId, symbol)) c) s s' := by
  obtain ⟨a, s₁, hpget, he⟩ := call_grows hh he
  cases a with
  | error err => cases he
  | ok record =>
    obtain ⟨pkey, pdata⟩ := record
    change Exec h (if accountId = pdata.accountId ∧ symbol = pdata.symbol then _ else _) _ _ _ at he
    split at he
    · cases he
    · rename_i hmatch
      obtain ⟨-, rfl⟩ := he.pure_cases
      refine hpget.mono fun w hw => ⟨(pkey, pdata), fun hholder => hmatch ?_, hw⟩
      exact ⟨(congrArg Prod.fst hholder).symm, (congrArg Prod.snd hholder).symm⟩

theorem getPortfolioStep_done {accountId symbol : CStr} {c : CursorId} {x : Unit}
    {found : Option (CStr × Portfolio)}
    (he : Exec h (getPortfolioStep accountId symbol c x) s (.value (.inr found)) s') :
    Grows madeSoFar (walkResult (accountId, symbol) c found) s s' := by
  obtain ⟨a, s₁, hpget, he⟩ := call_grows hh he
  cases a with
  | error err =>
    obtain ⟨hvalue, rfl⟩ := he.pure_cases
    cases hvalue
    exact hpget.mono fun w hw => walkEnded_or_broken hw
  | ok record =>
    obtain ⟨pkey, pdata⟩ := record
    change Exec h (if accountId = pdata.accountId ∧ symbol = pdata.symbol then _ else _) _ _ _ at he
    split at he
    · rename_i hmatch
      obtain ⟨hvalue, rfl⟩ := he.pure_cases
      cases hvalue
      exact hpget.mono fun w hw => ⟨Prod.ext hmatch.1.symm hmatch.2.symm, hw⟩
    · cases he

theorem getPortfolio_some {accountId symbol : CStr} {t : Txn} {c : CursorId} {key : CStr}
    {p : Portfolio} (found : Portfolio → Prop) (hfound : found p)
    (he : Exec h (getPortfolio accountId symbol t) s (.value (some (c, key, p))) s') :
    Grows madeSoFar (portfolioFound (accountId, symbol) c key found t) s s' := by
  unfold getPortfolio at he
  split at he
  · cases he
  · obtain ⟨a, s₁, hcursor, he⟩ := call_grows hh he
    cases a with
    | error err => cases he
    | ok c' =>
      obtain ⟨record, s₂, hloop, he⟩ := he.bind_value
      have hwalk := hloop.loop_grows (fun _ _ _ _ => getPortfolioStep_next hh)
        fun _ _ _ _ => getPortfolioStep_done hh
      cases record with
      | none =>
        obtain ⟨r, s₃, hclose, he⟩ := call_grows hh he
        cases he
      | some record =>
        obtain ⟨hvalue, rfl⟩ := he.pure_cases
        cases hvalue
        refine hcursor.trans hwalk fun x hx y hy => ?_
        obtain ⟨y₁, hy₁, y₂, ⟨hholder, hy₂⟩, rfl⟩ := Language.mem_mul.mp hy
        exact ⟨p, hholder, hfound, Language.append_mem_mul hx (Language.append_mem_mul hy₁ hy₂)⟩

theorem getPortfolio_none {accountId symbol : CStr} {t : Txn}
    (he : Exec h (getPortfolio accountId symbol t) s (.value none) s') :
    Grows madeSoFar (portfolioAbsent (accountId, symbol) t + containing WalkBroken) s s' := by
  unfold getPortfolio at he
  split at he
  · cases he
  · obtain ⟨a, s₁, hcursor, he⟩ := call_grows hh he
    cases a with
    | error err => cases he
    | ok c =>
      obtain ⟨record, s₂, hloop, he⟩ := he.bind_value
      have hwalk := hloop.loop_grows (fun _ _ _ _ => getPortfolioStep_next hh)
        fun _ _ _ _ => getPortfolioStep_done hh
      cases record with
      | some record => cases he
      | none =>
        obtain ⟨r, s₃, hclose, he⟩ := call_grows hh he
        obtain ⟨-, rfl⟩ := he.pure_cases
        have hall :=
          (hcursor.inl.mul_containing (hwalk.mono fun _ => mem_mul_add_containing)).mul_containing
          (closed_of_close hclose).inl
        exact hall.mono fun w hw => hw.imp_left fun hw => ⟨c, hw⟩

theorem finish_closes {t : Txn} {c cursorp : CursorId}
    (he : Exec h (finish (some t) ⟨t, some c, some cursorp⟩) s (.value BENCHMARK_SUCCESS) s') :
    Grows madeSoFar (one (did (.close c) ()) * one (did (.close cursorp) ())) s s' := by
  obtain ⟨a, s₁, hclose, he⟩ := call_grows hh he
  cases a with
  | error err => exact absurd he fail_not_success
  | ok _ =>
    obtain ⟨a, s₂, hclose', he⟩ := call_grows hh he
    cases a with
    | error err => exact absurd he fail_not_success
    | ok _ =>
      obtain ⟨-, rfl⟩ := he.pure_cases
      exact hclose.mul hclose'

theorem fetchAndAdd_grows {n : ℤ} (he : Exec h fetchAndAdd s (.value n) s') :
    Grows madeSoFar 1 s s' := by
  obtain ⟨a, hadd, -⟩ := he.perform_cases
  exact grows_of_untraced (hh _ _ _ _ hadd) rfl

theorem priceIs_true {test : F → Bool} {symbol : CStr} {t : Txn}
    (he : Exec h (priceIs test symbol t) s (.value true) s') :
    ∃ c price, test price = true ∧ Grows madeSoFar (stockGot symbol c price t) s s' := by
  obtain ⟨quote, s₁, hstock, he⟩ := he.bind_value
  cases quote with
  | none => cases he
  | some quote =>
    obtain ⟨hvalue, rfl⟩ := he.pure_cases
    exact ⟨quote.1, quote.2, (Outcome.value.inj hvalue).symm, getStock_some hh hstock⟩

theorem change_some {test : F → Bool} {symbol : CStr} {t : Txn} {p p' : Portfolio}
    (he : Exec h (do if ← priceIs test symbol t then return some p else return none) s
      (.value (some p')) s') :
    p' = p ∧ ∃ c price, test price = true ∧ Grows madeSoFar (stockGot symbol c price t) s s' := by
  obtain ⟨b, s₁, hprice, he⟩ := he.bind_value
  cases b with
  | false => cases he
  | true =>
    obtain ⟨hvalue, rfl⟩ := he.pure_cases
    exact ⟨Option.some.inj (Outcome.value.inj hvalue), priceIs_true hh hprice⟩

theorem rewritePortfolio_ok {symbol key : CStr} {t : Txn} {c : Option CursorId} {test : F → Bool}
    {change : Portfolio → Portfolio} {l : Locals}
    (he : Exec h (rewritePortfolio ⟨t, c, none⟩ key fun p => do
      if ← priceIs test symbol t then return some (change p)
        else return none) s (.value (.ok l)) s') :
    ∃ cursorp, l = ⟨t, c, some cursorp⟩ ∧
      Grows madeSoFar (portfolioRewritten key symbol (test ·) change cursorp t) s s' := by
  obtain ⟨a, s₁, hcursor, he⟩ := call_grows hh he
  cases a with
  | error err => cases he
  | ok cursorp =>
    obtain ⟨a, s₂, hget, he⟩ := call_grows hh he
    cases a with
    | error err => cases he
    | ok p =>
      obtain ⟨p', s₃, hchange, he⟩ := he.bind_value
      cases p' with
      | none => cases he
      | some p' =>
        obtain ⟨rfl, quotep, price, htest, hstock⟩ := change_some hh hchange
        obtain ⟨a, s₄, hput, he⟩ := call_grows hh he
        cases a with
        | error err => cases he
        | ok _ =>
          obtain ⟨hvalue, rfl⟩ := he.pure_cases
          cases hvalue
          refine ⟨cursorp, rfl, ?_⟩
          exact (hcursor.mul (hget.mul (hstock.mul hput))).mono
            fun w hw => ⟨p, quotep, price, htest, hw⟩

theorem holdingChanged_of_ok {accountId symbol key : CStr} {t : Txn} {c : CursorId}
    {p : Portfolio} {l : Locals} {test : F → Bool} {change : Portfolio → Portfolio}
    {s₁ s₂ : Session F} (found : Portfolio → Prop) (hfound : found p)
    (hlookup : Exec h (getPortfolio accountId symbol t) s (.value (some (c, key, p))) s₁)
    (hrewrite : Exec h (rewritePortfolio ⟨t, some c, none⟩ key fun p => do
      if ← priceIs test symbol t then return some (change p)
        else return none) s₁ (.value (.ok l)) s₂)
    (he : Exec h (finish (some t) l) s₂ (.value BENCHMARK_SUCCESS) s') :
    Grows madeSoFar (holdingChanged (accountId, symbol) found (test ·) change t) s s' := by
  obtain ⟨cursorp, rfl, hrewritten⟩ := rewritePortfolio_ok hh hrewrite
  have hlooked := getPortfolio_some hh found hfound hlookup
  have hchanged := hlooked.mul (hrewritten.mul (finish_closes hh he))
  exact hchanged.mono fun w hw => ⟨c, key, cursorp, hw⟩

variable [CFloat F]

theorem createPortfolio_success {accountId symbol : CStr} {price : F} {amount : ℤ} {t : Txn}
    (he : Exec h (createPortfolio accountId symbol price amount true t) s
      (.value BENCHMARK_SUCCESS) s') :
    ∃ key p, p.holder = (accountId, symbol) ∧ p.holdStocks = amount ∧
      Grows madeSoFar (one (did (.portfoliosInsert t key p) ())) s s' := by
  obtain ⟨n, s₁, hadd, he⟩ := he.bind_value
  obtain ⟨a, s₂, hinsert, he⟩ := call_grows hh he
  cases a with
  | error err => cases he
  | ok _ =>
    obtain ⟨-, rfl⟩ := he.pure_cases
    have hgrows := (fetchAndAdd_grows hh hadd).mul hinsert
    rw [one_mul] at hgrows
    refine ⟨_, _, ?_, ?_, hgrows⟩ <;> rfl

theorem portfolioCreated_of_success {accountId symbol : CStr} {price : F} {amount : ℤ} {t : Txn}
    {test : F → Bool} {s₁ : Session F}
    (hprice : Exec h (priceIs test symbol t) s (.value true) s₁)
    (hcreate : Exec h (createPortfolio accountId symbol price amount true t) s₁
      (.value BENCHMARK_SUCCESS) s') :
    Grows madeSoFar (portfolioCreated (accountId, symbol) amount (test ·) t) s s' := by
  obtain ⟨quotep, quote, htest, hgot⟩ := priceIs_true hh hprice
  obtain ⟨key, p, hholder, hamount, hinsert⟩ := createPortfolio_success hh hcreate
  exact (hgot.mul hinsert).mono fun w hw => ⟨quotep, quote, key, p, htest, hholder, hamount, hw⟩

/-- A purchase that returns success has been made, unless its look-up broke off. -/
theorem placeOrder_success {d : BenchmarkXactData F} {t : Txn}
    (he : Exec h (placeOrder d.accountId d.symbol d.price d.amount true (some t)) s
      (.value BENCHMARK_SUCCESS) s') :
    Grows madeSoFar (purchaseApplied t d + containing WalkBroken) s s' := by
  refine (recordExists_bind hh he rfl fun s₁ he => ?_).mono fun _ => mem_mul_add_containing
  refine (recordExists_bind hh he rfl fun s₂ he => ?_).mono fun _ => mem_mul_add_containing
  obtain ⟨record, s₃, hlookup, he⟩ := he.bind_value
  cases record with
  | some record =>
    obtain ⟨c, key, p⟩ := record
    obtain ⟨r, s₄, hrewrite, he⟩ := he.bind_value
    cases r with
    | error l => exact absurd he fail_not_success
    | ok l =>
      have hchanged := holdingChanged_of_ok hh (fun _ => True) trivial hlookup hrewrite he
      exact hchanged.mono fun w hw => Or.inl (Or.inl hw)
  | none =>
    obtain ⟨priced, s₄, hprice, he⟩ := he.bind_value
    cases priced with
    | false => exact absurd he fail_not_success
    | true =>
      obtain ⟨rc, s₅, hcreate, he⟩ := he.bind_value
      split at he
      · rename_i hrc
        subst hrc
        obtain ⟨-, rfl⟩ := he.pure_cases
        have hcreated := portfolioCreated_of_success hh hprice hcreate
        exact ((getPortfolio_none hh hlookup).mul_containing hcreated.inl).mono
          fun w hw => hw.imp_left Or.inr
      · exact absurd he fail_not_success

theorem sellStocks_success {d : BenchmarkXactData F} {t : Txn}
    (he : Exec h (sellStocks d.accountId d.symbol d.price d.amount true (some t)) s
      (.value BENCHMARK_SUCCESS) s') :
    Grows madeSoFar (saleApplied t d) s s' := by
  refine recordExists_bind hh he rfl fun s₁ he => recordExists_bind hh he rfl fun s₂ he => ?_
  obtain ⟨record, s₃, hlookup, he⟩ := he.bind_value
  cases record with
  | none => exact absurd he fail_not_success
  | some record =>
    obtain ⟨c, key, p⟩ := record
    change Exec h (if p.holdStocks < d.amount then _ else _) _ _ _ at he
    split at he
    · exact absurd he fail_not_success
    · rename_i henough
      obtain ⟨r, s₄, hrewrite, he⟩ := he.bind_value
      cases r with
      | error l => exact absurd he fail_not_success
      | ok l =>
        exact holdingChanged_of_ok hh (d.amount ≤ ·.holdStocks) (Int.not_lt.mp henough) hlookup
          hrewrite he

theorem newPrice_isNewPrice {newValue currentPrice price : F}
    (he : Exec h (newPrice newValue currentPrice) s (.value price) s') :
    isNewPrice newValue currentPrice price ∧ Grows madeSoFar 1 s s' := by
  unfold newPrice at he
  unfold isNewPrice
  split at he
  · rename_i hgiven
    obtain ⟨hvalue, rfl⟩ := he.pure_cases
    rw [if_pos hgiven]
    exact ⟨Outcome.value.inj hvalue, Grows.refl⟩
  · rename_i hgiven
    obtain ⟨r, s₁, hrand, he⟩ := he.bind_value
    obtain ⟨a, hanswer, -⟩ := hrand.perform_cases
    have hgrows : Grows madeSoFar 1 s s₁ := grows_of_untraced (hh _ _ _ _ hanswer) rfl
    rw [if_neg hgiven]
    split at he
    · obtain ⟨hvalue, rfl⟩ := he.pure_cases
      exact ⟨Or.inl (Outcome.value.inj hvalue), hgrows⟩
    · obtain ⟨hvalue, rfl⟩ := he.pure_cases
      exact ⟨Or.inr (Outcome.value.inj hvalue), hgrows⟩

theorem rewriteQuote_ok {symbol : CStr} {newValue : F} {t : Txn} {u : Unit}
    (he : Exec h (rewriteQuote symbol newValue t) s (.value (.ok u)) s') :
    Grows madeSoFar (quoteRewritten symbol newValue t) s s' := by
  obtain ⟨quote, s₁, hstock, he⟩ := he.bind_value
  cases quote with
  | none => cases he
  | some quote =>
    obtain ⟨c, currentPrice⟩ := quote
    obtain ⟨price, s₂, hprice, he⟩ := he.bind_value
    obtain ⟨hnew, hnone⟩ := newPrice_isNewPrice hh hprice
    obtain ⟨a, s₃, hput, he⟩ := call_grows hh he
    cases a with
    | error err => cases he
    | ok _ =>
      obtain ⟨a, s₄, hclose, he⟩ := call_grows hh he
      cases a with
      | error err => cases he
      | ok _ =>
        obtain ⟨-, rfl⟩ := he.pure_cases
        have hgrows := (getStock_some hh hstock).mul (hnone.mul (hput.mul hclose))
        rw [one_mul] at hgrows
        exact hgrows.mono fun w hw => ⟨c, currentPrice, price, hnew, hw⟩

omit [CFloat F]

theorem showQuote_success {symbol : CStr} {t : Txn}
    (he : Exec h (showQuote symbol (some t)) s (.value BENCHMARK_SUCCESS) s') :
    Grows madeSoFar (quoteShown t symbol) s s' := by
  obtain ⟨quote, s₁, hstock, he⟩ := he.bind_value
  cases quote with
  | none => exact absurd he fail_not_success
  | some quote =>
    obtain ⟨c, price⟩ := quote
    obtain ⟨a, s₂, hclose, he⟩ := call_grows hh he
    cases a with
    | error err => exact absurd he fail_not_success
    | ok _ =>
      obtain ⟨-, rfl⟩ := he.pure_cases
      exact ((getStock_some hh hstock).mul hclose).mono fun w hw => ⟨c, price, hw⟩

theorem showOnePortfolio_grows {t : Txn} {rc : Rc}
    (he : Exec h (showOnePortfolio (some t)) s (.value rc) s') :
    Grows madeSoFar (portfoliosWalked t + containing ViewBroken) s s' := by
  obtain ⟨a, s₁, hcursor, he⟩ := call_grows hh he
  cases a with
  | error err =>
    obtain ⟨-, rfl⟩ := he.pure_cases
    exact hcursor.mono fun w hw => Or.inr (containing_of_one hw trivial)
  | ok c =>
    obtain ⟨u, s₂, hloop, he⟩ := he.bind_value
    obtain ⟨r, s₃, hclose, he⟩ := call_grows hh he
    obtain ⟨-, rfl⟩ := he.pure_cases
    have hwalk : Grows madeSoFar
      ((passed (fun _ => True) c)∗ * (walkEnded c + containing ViewBroken)) s₁ s₂ := by
      refine hloop.loop_grows (K := fun _ => walkEnded c + containing ViewBroken) ?_ ?_
      · intro _ s₁ _ s₂ hround
        obtain ⟨a, s₃, hpget, hround⟩ := call_grows hh hround
        cases a with
        | error err => cases hround
        | ok record =>
          obtain ⟨-, rfl⟩ := hround.pure_cases
          exact hpget.mono fun w hw => ⟨record, trivial, hw⟩
      · intro _ s₁ _ s₂ hround
        obtain ⟨a, s₃, hpget, hround⟩ := call_grows hh hround
        cases a with
        | ok record => cases hround
        | error err =>
          obtain ⟨-, rfl⟩ := hround.pure_cases
          exact hpget.mono fun w hw => (walkEnded_or_broken hw).imp_right
            fun hw => hw.imp fun m hm => ⟨hm.1, hm.2.viewBroken⟩
    have hall :=
      (hcursor.inl.mul_containing (hwalk.mono fun _ => mem_mul_add_containing)).mul_containing
      (closed_of_close hclose).inl
    exact hall.mono fun w hw => hw.imp_left fun hw => ⟨c, hw⟩

theorem showPortfoliosEnd_grows {t : Txn} {c : CursorId} {rc : Rc}
    (he : Exec h (showPortfoliosEnd (some t) t c) s (.value rc) s') :
    Grows madeSoFar (closed c) s s' := by
  obtain ⟨r, s₁, hclose, he⟩ := call_grows hh he
  obtain ⟨-, rfl⟩ := he.pure_cases
  exact closed_of_close hclose

/-- The walk over the accounts, which ends well only at the end. -/
theorem showPortfoliosWalk_grows {t : Txn} {c : CursorId} {u : Unit}
    (he : Exec h (Program.loop (showPortfoliosStep false t c) u) s (.value .notFound) s') :
    Grows madeSoFar ((accountShown c t)∗ * one
      ⟨.personalNext c, .error .notFound⟩ + containing ViewBroken) s s' := by
  have hgrows : Grows madeSoFar
    ((accountShown c t + containing ViewBroken)∗ * one ⟨.personalNext c, .error .notFound⟩)
      s s' := by
    refine he.loop_grows (K := fun err => one ⟨.personalNext c, .error err⟩) ?_ ?_
    · intro _ s₁ _ s₂ hround
      obtain ⟨a, s₃, hnext, hround⟩ := call_grows hh hround
      cases a with
      | error err => cases hround
      | ok key =>
        obtain ⟨rc, s₄, hshow, hround⟩ := hround.bind_value
        obtain ⟨-, rfl⟩ := hround.pure_cases
        exact (hnext.inl.mul_containing (showOnePortfolio_grows hh hshow)).mono
          fun w hw => hw.imp_left fun hw => ⟨key, hw⟩
    · intro _ s₁ err s₂ hround
      obtain ⟨a, s₃, hnext, hround⟩ := call_grows hh hround
      cases a with
      | ok key =>
        obtain ⟨rc, s₄, -, hround⟩ := hround.bind_value
        cases hround
      | error err' =>
        obtain ⟨hvalue, rfl⟩ := hround.pure_cases
        cases hvalue
        exact hnext
  refine hgrows.mono fun w hw => ?_
  obtain ⟨x, hx, y, hy, rfl⟩ := Language.mem_mul.mp hw
  exact mem_mul_or_containing (mem_kstar_or_containing hx) (Or.inl hy)

/-- A view that returns success has shown what was asked for, unless it ignored a failure. -/
theorem showPortfolios_success {accountId : CStr} {t : Txn}
    (he : Exec h (showPortfolios accountId false (some t)) s (.value BENCHMARK_SUCCESS) s') :
    Grows madeSoFar (portfoliosShown t accountId + containing ViewBroken) s s' := by
  obtain ⟨a, s₁, hcursor, he⟩ := call_grows hh he
  cases a with
  | error err => exact absurd he fail_not_success
  | ok c =>
    have hshown (L : Language (Made F)) (hL : L = if accountId = [] then
          (accountShown c t)∗ * one ⟨.personalNext c, .error .notFound⟩
        else one (did (.get .personal c accountId) ()) * portfoliosWalked t)
        (hrest : Grows madeSoFar (L * closed c + containing ViewBroken) s₁ s') :
        Grows madeSoFar (portfoliosShown t accountId + containing ViewBroken) s s' := by
      subst hL
      exact (hcursor.inl.mul_containing hrest).mono fun w hw => hw.imp_left fun hw => ⟨c, hw⟩
    by_cases ha : accountId = []
    · simp only [if_pos ha] at he
      obtain ⟨err, s₂, hloop, he⟩ := he.bind_value
      cases err with
      | notFound =>
        refine hshown _ (if_pos ha).symm ?_
        exact (showPortfoliosWalk_grows hh hloop).mul_containing (showPortfoliosEnd_grows hh he).inl
      | keyExist => exact absurd he fail_not_success
      | other => exact absurd he fail_not_success
    · simp only [if_neg ha] at he
      refine hshown _ (if_neg ha).symm ?_
      obtain ⟨a, s₂, hget, he⟩ := call_grows hh he
      cases a with
      | error err => exact grows_trouble (hget.mono fun w hw => containing_of_one hw trivial) hh he
      | ok _ =>
        obtain ⟨rc, s₃, hshow, he⟩ := he.bind_value
        have hwalked := hget.inl.mul_containing (showOnePortfolio_grows hh hshow)
        exact hwalked.mul_containing (showPortfoliosEnd_grows hh he).inl

omit hh in
theorem applyItems_success {t : Txn} {apply : α → Txn → DbProgram F Rc}
    {does : α → Language (Made F)} {P : Made F → Prop} {items : List α}
    (happly : ∀ item s s', Exec h (apply item t) s (.value BENCHMARK_SUCCESS) s' →
      Grows madeSoFar (does item + containing P) s s')
    (he : Exec h (applyItems apply items t) s (.value BENCHMARK_SUCCESS) s') :
    Grows madeSoFar ((items.map does).prod + containing P) s s' := by
  induction items generalizing s with
  | nil =>
    obtain ⟨-, rfl⟩ := he.pure_cases
    exact Grows.refl.inl
  | cons item items ih =>
    obtain ⟨rc, s₁, hitem, he⟩ := he.bind_value
    split at he
    · rename_i hrc
      subst hrc
      exact (happly item s s₁ hitem).mul_containing (ih he)
    · exact absurd he fail_not_success

end Runs

end Chronos.Benchmark
