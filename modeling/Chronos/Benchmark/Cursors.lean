import Chronos.Benchmark.Resolution
import Chronos.Foundation.Ledger

/-! # The cursors of a transaction

When a transaction ends, each cursor that was opened under it should have been
closed once. Under an outer transaction `failXit` of `place_order` and `sell_stocks` closes
nothing, and no path closes the cursor on Quotes: an item leaves a cursor open unless it is
refused before a record of its holder or its quote is read.
-/
namespace Chronos.Benchmark
open Foundation Storage Program
variable {F α : Type} {t : Txn}

/-! ## What a trace says -/

def opens (t : Txn) : Entry F → Option CursorId
  | ⟨_, .cursor _ t', .ok c⟩ => if t' = t then some c else none
  | _ => none

/-- The cursor that is passed to `close`, whatever the result. -/
def closes : Entry F → Option CursorId
  | ⟨_, .close c, _⟩ => some c
  | _ => none

/-- Whenever a transaction is committed or aborted, each cursor that was opened under it
has been closed exactly once. -/
def CursorsClosed (tr : List (Entry F)) : Prop :=
  ∀ pre e post t, tr = pre ++ e :: post → e.call.resolves = some t → ClosedOnce (opens t) closes pre

/-- Each cursor has a handle of its own. -/
def OwnHandles (tr : List (Entry F)) : Prop := ∀ t, (tr.filterMap (opens t)).Nodup

def QuoteRead (e : Entry F) : Prop := ∃ db c key price, e = ⟨db, .get .quotes c key, .ok price⟩

def RecordFound (q : Holder) (e : Entry F) : Prop :=
  ∃ db c key p, e = ⟨db, .portfoliosPgetNext c, .ok (key, p)⟩ ∧ p.holder = q

def AccountsFailed (e : Entry F) : Prop :=
  ∃ db c err, e = ⟨db, .personalNext c, .error err⟩ ∧ err ≠ .notFound

def QuoteWritten (e : Entry F) : Prop := ∃ db c price, e = ⟨db, .quotesPut c price, .ok ()⟩

def CloseFailed (e : Entry F) : Prop := (∃ c, e.call = .close c) ∧ e.Failed

/-- A close has failed after a quote was rewritten. -/
def ClosedLate (tr : List (Entry F)) : Prop :=
  ∃ pre e post, tr = pre ++ e :: post ∧ CloseFailed e ∧ ∃ e' ∈ pre, QuoteWritten e'

/-- The first item is refused before a record of its holder or its quote is read, or a
cursor of `get_portfolio` is not created. -/
def RefusedEarly (data : List (BenchmarkXactData F)) (tr : List (Entry F)) : Prop :=
  (∃ e ∈ tr, CursorRefused e) ∨
    ∀ d ∈ data.head?, ∀ e ∈ tr, ¬ QuoteRead e ∧ ¬ RecordFound d.holder e

/-- When the function closes its cursors. -/
def Transaction.Tidy : Transaction F → List (Entry F) → Prop
  | .purchase data, tr => RefusedEarly data tr
  | .sell data, tr => RefusedEarly data tr
  | .viewStock _, _ => True
  | .viewPortfolio _, tr => ∀ e ∈ tr, ¬ AccountsFailed e
  | .updateStock _ _, tr => ¬ ClosedLate tr

theorem opens_of_resolves {e : Entry F} {t' : Txn} (h : e.call.resolves = some t') (t : Txn) :
    opens t e = none := by
  obtain ⟨db, c, a⟩ := e
  cases c <;> first | rfl | cases h

theorem closes_of_resolves {e : Entry F} {t' : Txn} (h : e.call.resolves = some t') :
    closes e = none := by
  obtain ⟨db, c, a⟩ := e
  cases c <;> first | rfl | cases h

/-- Once the transaction is being ended, nothing is opened or closed any more. -/
theorem cursorsClosed_resolved {mid post : List (Entry F)}
    (hmid : ∀ e ∈ mid, e.call.resolves = none) (hpost : post ≠ [])
    (hres : ∀ e ∈ post, e.call.resolves = some t) :
    CursorsClosed (mid ++ post) ↔ ClosedOnce (opens t) closes mid := by
  constructor
  · intro h
    obtain ⟨e, post', rfl⟩ := List.exists_cons_of_ne_nil hpost
    exact h mid e post' t rfl (hres e List.mem_cons_self)
  · intro h pre e post' t' htr he
    rcases List.append_eq_append_iff.mp htr with ⟨m, rfl, hm⟩ | ⟨m, rfl, hm⟩
    · have hall : ∀ e' ∈ m, e'.call.resolves = some t :=
        fun e' he' => hres e' (by rw [hm]; exact List.mem_append_left _ he')
      obtain rfl : t = t' := Option.some.inj ((hres e (by rw [hm]; simp)).symm.trans he)
      rw [ClosedOnce, filterMap_append_none fun e' he' => opens_of_resolves (hall e' he') t,
        filterMap_append_none fun e' he' => closes_of_resolves (hall e' he')]
      exact h
    · cases m with
      | nil =>
        rw [List.append_nil] at h
        obtain rfl : t = t' :=
          Option.some.inj ((hres e (by rw [List.nil_append] at hm; rw [← hm]; simp)).symm.trans he)
        exact h
      | cons e' m =>
        cases hm
        rw [hmid e (by simp)] at he
        cases he

theorem cursorsClosed_of_unresolved {tr : List (Entry F)} (h : ∀ e ∈ tr, e.call.resolves = none) :
    CursorsClosed tr := by
  rintro pre e post t rfl he
  rw [h e (by simp)] at he
  cases he

/-- What is open, and whether something has been told that makes a difference. -/
structure Books (t : Txn) (telling : Entry F → Prop) (X : List CursorId) (told : Prop)
    (s : Session F) : Prop where
  unresolved : ∀ e ∈ s.trace, e.call.resolves = none
  leftOpen : LeftOpen (opens t) closes X s.trace
  told : (∃ e ∈ s.trace, telling e) ↔ told

section Books
variable {telling : Entry F → Prop} {X Y : List CursorId} {told : Prop} {s s' : Session F}

theorem Books.perm (h : Books t telling X told s) (hperm : X.Perm Y) : Books t telling Y told s :=
  ⟨h.unresolved, h.leftOpen.perm hperm, h.told⟩

theorem Books.congr {told' : Prop} (h : Books t telling X told s) (htold : told ↔ told') :
    Books t telling X told' s :=
  ⟨h.unresolved, h.leftOpen, h.told.trans htold⟩

theorem Books.of_trace (h : Books t telling X told s) (htrace : s'.trace = s.trace) :
    Books t telling X told s' :=
  ⟨htrace ▸ h.unresolved, htrace ▸ h.leftOpen, htrace ▸ h.told⟩

theorem Books.snoc {e : Entry F} {tells : Prop} (h : Books t telling X told s)
    (htrace : s'.trace = s.trace ++ [e]) (hres : e.call.resolves = none)
    (hleft : LeftOpen (opens t) closes Y (s.trace ++ [e])) (htells : telling e ↔ tells) :
    Books t telling Y (told ∨ tells) s' where
  unresolved := by
    rw [htrace]
    exact forall_mem_snoc.mpr ⟨h.unresolved, hres⟩
  leftOpen := by
    rw [htrace]
    exact hleft
  told := by
    rw [htrace, exists_mem_snoc, h.told, htells]

theorem Books.close {db : Db F} {c : CursorId} {a : Except DbError Unit}
    (h : Books t telling (c :: X) told s) (htrace : s'.trace = s.trace ++ [⟨db, .close c, a⟩])
    (htells : ¬ telling ⟨db, .close c, a⟩) : Books t telling X told s' :=
  (h.snoc htrace rfl (h.leftOpen.closed rfl rfl) (iff_false_intro htells)).congr
    (iff_of_eq (or_false told))

theorem outline_other {Z : Session F → Prop} {c : DbCall F}
    {tells : Except DbError c.Payload → Prop} (hres : c.resolves = none)
    (hopens : ∀ db a, opens t (⟨db, c, a⟩ : Entry F) = none)
    (hcloses : ∀ db a, closes (⟨db, c, a⟩ : Entry F) = none)
    (htells : ∀ db a, telling ⟨db, c, a⟩ ↔ tells a) :
    Outline anyAnswer (call c) (Books t telling X told)
      (ending (fun a => Books t telling X (told ∨ tells a)) Z) :=
  Outline.perform (fun _ => anyAnswer_stable _) fun s a _ h hrec => ⟨trivial,
    h.snoc hrec hres (h.leftOpen.other (hopens s.db a) (hcloses s.db a)) (htells s.db a)⟩

theorem outline_mute {Z : Session F → Prop} {c : DbCall F} (hres : c.resolves = none)
    (hopens : ∀ db a, opens t (⟨db, c, a⟩ : Entry F) = none)
    (hcloses : ∀ db a, closes (⟨db, c, a⟩ : Entry F) = none)
    (htells : ∀ db a, ¬ telling ⟨db, c, a⟩) :
    Outline anyAnswer (call c) (Books t telling X told)
      (ending (fun _ => Books t telling X told) Z) := by
  have htells' : ∀ db a, telling ⟨db, c, a⟩ ↔ False := fun db a => iff_false_intro (htells db a)
  refine (outline_other (Z := Z) hres hopens hcloses htells').post ?_
  rintro (a | _) s h
  · exact h.congr (iff_of_eq (or_false told))
  · exact h

def handed : Except DbError CursorId → List CursorId
  | .ok c => [c]
  | .error _ => []

theorem outline_cursor {Z : Session F → Prop} {dbp : Dbp}
    (htells : ∀ db a, ¬ telling ⟨db, .cursor dbp t, a⟩) :
    Outline anyAnswer (call (.cursor dbp t)) (Books t telling X told)
      (ending (fun a => Books t telling (handed a ++ X) told) Z) := by
  refine Outline.perform (fun _ => anyAnswer_stable _) fun s a s' h hrec => ⟨trivial, ?_⟩
  have hleft : LeftOpen (opens t) closes (handed a ++ X)
    (s.trace ++ [⟨s.db, .cursor dbp t, a⟩]) := by
    cases a with
    | ok c => exact h.leftOpen.opened (if_pos rfl) rfl
    | error e => exact h.leftOpen.other rfl rfl
  exact (h.snoc hrec rfl hleft (iff_false_intro (htells s.db a))).congr (iff_of_eq (or_false told))

theorem outline_close {Z : Session F → Prop} {c : CursorId}
    (htells : ∀ db a, ¬ telling ⟨db, .close c, a⟩) :
    Outline anyAnswer (call (.close c)) (Books t telling (c :: X) told)
      (ending (fun _ => Books t telling X told) Z) :=
  Outline.perform (fun _ => anyAnswer_stable _)
    fun s a _ h hrec => ⟨trivial, h.close hrec (htells s.db a)⟩

/-- Opening and closing cursors tells nothing; reading a quote may. -/
structure Tells (t : Txn) (telling : Entry F → Prop) (onQuote : Prop) : Prop where
  cursor : ∀ db dbp a, ¬ telling ⟨db, .cursor dbp t, a⟩
  close : ∀ db c a, ¬ telling ⟨db, .close c, a⟩
  quote : ∀ db c key a, telling ⟨db, .get .quotes c key, a⟩ ↔ (∃ price, a = .ok price) ∧ onQuote

def StockGot (t : Txn) (telling : Entry F → Prop) (X : List CursorId) (told onQuote : Prop) :
    Option (CursorId × F) → Session F → Prop
  | none => Books t telling X told
  | some (c, _) => Books t telling (c :: X) (told ∨ onQuote)

theorem outline_getStock {Z : Session F → Prop} {onQuote : Prop} (htells : Tells t telling onQuote)
    (symbol : CStr) :
    Outline anyAnswer (getStock symbol t) (Books t telling X told)
      (ending (StockGot t telling X told onQuote) Z) := by
  unfold getStock
  split
  · exact Outline.pure fun _ h => h
  · refine (outline_cursor (htells.cursor · .quotes)).bind (fun r => ?_) fun _ h => h
    cases r with
    | error e => exact Outline.pure fun _ h => h
    | ok c =>
      refine (outline_other rfl (fun _ _ => rfl) (fun _ _ => rfl) fun db a =>
        htells.quote db c symbol a).bind
        (fun r' => ?_) fun _ h => h
      cases r' with
      | ok price =>
        refine Outline.pure fun _ h => Books.congr h (or_congr_right ?_)
        exact and_iff_right ⟨price, rfl⟩
      | error e =>
        refine Outline.pre (P := Books t telling (c :: X) told) ?_ fun _ h => Books.congr h ?_
        · exact (outline_close (htells.close · c)).bind (fun _ => Outline.pure fun _ h => h)
            fun _ h => h
        · simp

end Books

/-! ## The functions of an order -/

section Orders
variable {q : Holder} {X Y : List CursorId} {told : Prop}

def Telling (q : Holder) (e : Entry F) : Prop := QuoteRead e ∨ RecordFound q e

theorem not_telling {c : DbCall F} (hget : ∀ c' key, c ≠ .get .quotes c' key)
    (hpget : ∀ c', c ≠ .portfoliosPgetNext c') (db : Db F) (a : Except DbError c.Payload) :
    ¬ Telling q ⟨db, c, a⟩ := by
  rintro (⟨_, c', key, _, heq⟩ | ⟨_, c', _, _, heq, -⟩)
  · cases heq
    exact hget c' key rfl
  · cases heq
    exact hpget c' rfl

theorem tells_telling : Tells t (Telling q : Entry F → Prop) True where
  cursor db dbp a := not_telling (by simp) (by simp) db a
  close db c a := not_telling (by simp) (by simp) db a
  quote db c key a := by
    rw [and_true]
    constructor
    · rintro (⟨_, _, _, price, heq⟩ | ⟨_, _, _, _, heq, -⟩)
      · cases heq
        exact ⟨price, rfl⟩
      · cases heq
    · rintro ⟨price, rfl⟩
      exact Or.inl ⟨_, _, _, _, rfl⟩

def Crashed (s : Session F) : Prop := ∃ e ∈ s.trace, CursorRefused e

def Leaves (t : Txn) (q : Holder) (s : Session F) : Prop :=
  ∃ X, X ≠ [] ∧ Books t (Telling q) X True s

theorem outline_get {Z : Session F → Prop} {dbp : Dbp} (hdbp : dbp ≠ .quotes) (c : CursorId)
    (key : CStr) :
    Outline anyAnswer (call (.get dbp c key)) (Books t (Telling q) X told)
      (ending (fun _ => Books t (Telling q) X told) Z) := by
  refine outline_mute rfl (fun _ _ => rfl) (fun _ _ => rfl) (not_telling ?_ (by simp))
  rintro c' key' ⟨⟩
  exact hdbp rfl

theorem outline_recordExists {Z : Session F → Prop} {dbp : Dbp} (hdbp : dbp ≠ .quotes)
    (key : CStr) :
    Outline anyAnswer (recordExists dbp key t) (Books t (Telling q) X told)
      (ending (fun _ => Books t (Telling q) X told) Z) := by
  unfold recordExists
  split
  · exact Outline.pure fun _ h => h
  · refine (outline_cursor (tells_telling.cursor · dbp)).bind (fun r => ?_) fun _ h => h
    cases r with
    | error e => exact Outline.pure fun _ h => h
    | ok c =>
      refine (outline_get hdbp c key).bind (fun _ => ?_) fun _ h => h
      exact (outline_close ((tells_telling (t := t)).close · c)).bind
        (fun _ => Outline.pure fun _ h => h) fun _ h => h

theorem outline_recordExists_bind {dbp : Dbp} (hdbp : dbp ≠ .quotes) {key : CStr}
    {f : Bool → DbProgram F α} {Q : Outcome α → Session F → Prop}
    (hfalse : Outline anyAnswer (f false) (Books t (Telling q) X told) Q)
    (htrue : key ≠ [] → Outline anyAnswer (f true) (Books t (Telling q) X told) Q) :
    Outline anyAnswer (recordExists dbp key t >>= f) (Books t (Telling q) X told) Q := by
  by_cases hkey : key = []
  · rw [recordExists, if_pos hkey]
    exact hfalse
  · refine (outline_recordExists (Z := fun _ => False) hdbp key).bind (fun b => ?_)
      fun _ h => h.elim
    cases b with
    | false => exact hfalse
    | true => exact htrue hkey

def PortfolioGot (t : Txn) (q : Holder) (X : List CursorId) (told : Prop) {β : Type} :
    Option (CursorId × β) → Session F → Prop
  | none => Books t (Telling q) X told
  | some (c, _) => Books t (Telling q) (c :: X) True

def WalkBegun (t : Txn) (q : Holder) (X : List CursorId) (told : Prop) :
    Except DbError CursorId → Session F → Prop
  | .ok c => Books t (Telling q) (c :: X) told
  | .error _ => Crashed

theorem telling_pgetNext {db : Db F} {c : CursorId} {a : Except DbError (CStr × Portfolio)} :
    Telling q ⟨db, .portfoliosPgetNext c, a⟩ ↔ ∃ key p, a = .ok (key, p) ∧ p.holder = q := by
  constructor
  · rintro (⟨_, _, _, _, heq⟩ | ⟨_, _, key, p, heq, hp⟩)
    · cases heq
    · cases heq
      exact ⟨key, p, rfl, hp⟩
  · rintro ⟨key, p, rfl, hp⟩
    exact Or.inr ⟨db, c, key, p, rfl, hp⟩

theorem outline_getPortfolio {accountId symbol : CStr} (ha : accountId ≠ []) (hs : symbol ≠ [])
    (hq : told ∨ q = (accountId, symbol)) :
    Outline anyAnswer (getPortfolio accountId symbol t : DbProgram F _) (Books t (Telling q) X told)
      (ending (PortfolioGot t q X told) Crashed) := by
  unfold getPortfolio
  rw [if_neg (by simp [ha, hs])]
  refine Outline.bind (Q := ending (WalkBegun t q X told) Crashed) ?_ (fun r => ?_) fun _ h => h
  · refine Outline.perform (fun _ => anyAnswer_stable _) fun s a s' h hrec => ⟨trivial, ?_⟩
    cases a with
    | ok c =>
      have htells : ¬ Telling q (⟨s.db, .cursor .portfoliosSec t, .ok c⟩ : Entry F) :=
        tells_telling.cursor _ _ _
      exact (h.snoc hrec rfl (h.leftOpen.opened (if_pos rfl) rfl) (iff_false_intro htells)).congr
        (iff_of_eq (or_false told))
    | error e =>
      refine ⟨⟨s.db, .cursor .portfoliosSec t, .error e⟩, ?_, ⟨t, rfl⟩, e, rfl⟩
      rw [show s'.trace = _ from hrec]
      exact List.mem_append_right _ (List.mem_singleton_self _)
  cases r with
  | error e => exact Outline.crashed fun _ h => h
  | ok c =>
    refine Outline.bind
      (Q := ending (fun r => Books t (Telling q) (c :: X) (told ∨ r.isSome = true)) Crashed) ?_
      (fun r => ?_) fun _ h => h
    · refine Outline.loop (fun _ => Books t (Telling q) (c :: X) told) (fun _ => anyAnswer_stable _)
        (fun _ => ?_) ()
      refine (outline_other rfl (fun _ _ => rfl) (fun _ _ => rfl) fun _ _ => telling_pgetNext).bind
        (fun r => ?_)
        fun _ h => h
      rcases r with e | ⟨key, p⟩
      · exact Outline.pure fun _ h => h.congr (by simp)
      · by_cases hp : accountId = p.accountId ∧ symbol = p.symbol
        · simp only [if_pos hp]
          refine Outline.pure fun _ h => Books.congr h (iff_of_true ?_ (Or.inr rfl))
          rcases hq with hq | rfl
          · exact Or.inl hq
          · exact Or.inr ⟨key, p, rfl, Prod.ext hp.1.symm hp.2.symm⟩
        · simp only [if_neg hp]
          refine Outline.pure fun _ h => Books.congr h (or_iff_left_of_imp ?_)
          rintro ⟨key', p', heq, hp'⟩
          cases heq
          rcases hq with hq | rfl
          · exact hq
          · exact absurd ⟨(congrArg Prod.fst hp').symm, (congrArg Prod.snd hp').symm⟩ hp
    · cases r with
      | some record => exact Outline.pure fun _ h => Books.congr h (by simp)
      | none =>
        refine Outline.pre (P := Books t (Telling q) (c :: X) told) ?_
          fun _ h => Books.congr h (by simp)
        exact (outline_close ((tells_telling (t := t)).close · c)).bind
          (fun _ => Outline.pure fun _ h => h) fun _ h => h

def PriceSeen (t : Txn) (q : Holder) (X : List CursorId) (told : Prop) (b : Bool)
    (s : Session F) : Prop :=
  (b = false ∧ Books t (Telling q) X told s) ∨ ∃ c, Books t (Telling q) (c :: X) True s

theorem outline_priceIs (test : F → Bool) (symbol : CStr) :
    Outline anyAnswer (priceIs test symbol t) (Books t (Telling q) X told)
      (ending (PriceSeen t q X told) Crashed) := by
  unfold priceIs
  refine (outline_getStock tells_telling symbol).bind (fun r => ?_) fun _ h => h
  rcases r with _ | ⟨c, price⟩
  · exact Outline.pure fun _ h => Or.inl ⟨rfl, h⟩
  · exact Outline.pure fun _ h => Or.inr ⟨c, Books.congr h (by simp)⟩

/-- The change was not made and something is left open, or the cursor on Quotes is. -/
def Changed (t : Txn) (q : Holder) (X : List CursorId) : Option Portfolio → Session F → Prop
  | none => Leaves t q
  | some _ => fun s => ∃ c, Books t (Telling q) (c :: X) True s

theorem PriceSeen.some {s : Session F} (h : PriceSeen t q X told true s) :
    ∃ c, Books t (Telling q) (c :: X) True s := by
  rcases h with ⟨hb, -⟩ | h
  · cases hb
  · exact h

theorem PriceSeen.leaves {s : Session F} (hX : X ≠ []) (h : PriceSeen t q X True false s) :
    Leaves t q s := by
  rcases h with ⟨-, h⟩ | ⟨c, h⟩
  · exact ⟨X, hX, h⟩
  · exact ⟨c :: X, by simp, h⟩

section Quotes
variable [CFloat F]

theorem outline_purchased (hX : X ≠ []) (symbol : CStr) (price : F) (amount : ℤ) (p : Portfolio) :
    Outline anyAnswer (purchased symbol price amount true t p) (Books t (Telling q) X True)
      (ending (Changed t q X) Crashed) := by
  unfold purchased
  rw [if_pos rfl]
  refine (outline_priceIs _ symbol).bind (fun b => ?_) fun _ h => h
  cases b with
  | true => exact Outline.pure fun s h => h.some
  | false => exact Outline.pure fun s h => h.leaves hX

theorem outline_sold (hX : X ≠ []) (symbol : CStr) (price : F) (amount : ℤ) (p : Portfolio) :
    Outline anyAnswer (sold symbol price amount true t p) (Books t (Telling q) X True)
      (ending (Changed t q X) Crashed) := by
  unfold sold
  rw [if_pos rfl]
  refine (outline_priceIs _ symbol).bind (fun b => ?_) fun _ h => h
  cases b with
  | true => exact Outline.pure fun s h => h.some
  | false => exact Outline.pure fun s h => h.leaves hX

end Quotes

def Rewritten (t : Txn) (q : Holder) (X : List CursorId) (l : Locals) :
    Except Locals Locals → Session F → Prop
  | .error _ => Leaves t q
  | .ok l' =>
    fun s => ∃ c c', l' = { l with cursorPrimaryPortfolioP := some c' } ∧
      Books t (Telling q) (c :: c' :: X) True s

theorem outline_rewritePortfolio (hX : X ≠ []) (l : Locals) (hl : l.txnP = t) (key : CStr)
    {change : Portfolio → DbProgram F (Option Portfolio)}
    (hchange : ∀ Y p, Y ≠ [] →
      Outline anyAnswer (change p) (Books t (Telling q) Y True) (ending (Changed t q Y) Crashed)) :
    Outline anyAnswer (rewritePortfolio l key change) (Books t (Telling q) X True)
      (ending (Rewritten t q X l) Crashed) := by
  unfold rewritePortfolio
  rw [hl]
  refine (outline_cursor (tells_telling.cursor · .portfolios)).bind (fun r => ?_) fun _ h => h
  cases r with
  | error e => exact Outline.pure fun _ h => ⟨X, hX, h⟩
  | ok c' =>
    refine (outline_get (by simp) c' key).bind (fun r => ?_) fun _ h => h
    cases r with
    | error e => exact Outline.pure fun _ h => ⟨c' :: X, by simp, h⟩
    | ok portfolio =>
      refine (hchange (c' :: X) portfolio (by simp)).bind (fun r => ?_) fun _ h => h
      cases r with
      | none => exact Outline.pure fun _ h => h
      | some portfolio =>
        refine Outline.exists fun c => ?_
        refine (outline_mute rfl (fun _ _ => rfl) (fun _ _ => rfl)
          (not_telling (by simp) (by simp))).bind (fun r => ?_)
          fun _ h => h
        cases r with
        | error e => exact Outline.pure fun _ h => ⟨c :: c' :: X, by simp, h⟩
        | ok _ => exact Outline.pure fun _ h => ⟨c, c', by rw [hl], h⟩

/-- How an item ends: refused with nothing left open, or with something left open. -/
def ItemDone (t : Txn) (q : Holder) (X : List CursorId) (told : Prop) (rc : Rc)
    (s : Session F) : Prop :=
  (rc = BENCHMARK_FAIL ∧ Books t (Telling q) X told s) ∨ Leaves t q s

theorem outline_failXit (l : Locals) :
    Outline anyAnswer (failXit (some t) l : DbProgram F Rc) (Books t (Telling q) X told)
      (ending (ItemDone t q X told) Crashed) :=
  Outline.pure fun _ h => Or.inl ⟨rfl, h⟩

theorem outline_failXit_leaves (l : Locals) :
    Outline anyAnswer (failXit (some t) l : DbProgram F Rc) (Leaves t q)
      (ending (ItemDone t q X told) Crashed) :=
  Outline.pure fun _ h => Or.inr h

/-- The cursors on Portfolios are closed, the one on Quotes is not. -/
theorem outline_finish (cursorp c' c : CursorId) :
    Outline anyAnswer (finish (some t) ⟨t, some cursorp, some c'⟩ : DbProgram F Rc)
      (Books t (Telling q) (c :: c' :: cursorp :: X) True)
      (ending (fun _ => Leaves t q) Crashed) := by
  unfold finish
  have hperm : (c :: c' :: cursorp :: X).Perm (cursorp :: c' :: c :: X) := by
    refine (List.Perm.swap _ _ _).trans ?_
    refine (List.Perm.cons _ (List.Perm.swap _ _ _)).trans ?_
    exact List.Perm.swap _ _ _
  refine Outline.pre ?_ fun _ h => Books.perm h hperm
  refine (outline_close ((tells_telling (t := t)).close · cursorp)).bind (fun r => ?_) fun _ h => h
  cases r with
  | error e => exact Outline.pure fun _ h => ⟨_, by simp, h⟩
  | ok _ =>
    refine (outline_close ((tells_telling (t := t)).close · c')).bind (fun r => ?_) fun _ h => h
    cases r with
    | error e => exact Outline.pure fun _ h => ⟨_, by simp, h⟩
    | ok _ => exact Outline.pure fun _ h => ⟨_, by simp, h⟩

theorem outline_rewritten {l : Locals} {cursorp : CursorId} {r : Except Locals Locals}
    (hl : l = ⟨t, some cursorp, none⟩) :
    Outline anyAnswer (match r with
        | .ok l => finish (some t) l
        | .error l => failXit (some t) l : DbProgram F Rc)
      (Rewritten t q (cursorp :: X) l r) (ending (ItemDone t q X told) Crashed) := by
  subst hl
  cases r with
  | error l => exact outline_failXit_leaves l
  | ok l =>
    refine Outline.exists fun c => Outline.exists fun c' => Outline.assume fun hl => ?_
    subst hl
    refine (outline_finish cursorp c' c).post ?_
    rintro (rc | _) s h
    · exact Or.inr h
    · exact h

section Items
variable [CFloat F]

theorem outline_createPortfolio {Z : Session F → Prop} (accountId symbol : CStr) (price : F)
    (amount : ℤ) :
    Outline anyAnswer (createPortfolio accountId symbol price amount true t)
      (Books t (Telling q) X told) (ending (fun _ => Books t (Telling q) X told) Z) := by
  unfold createPortfolio
  refine Outline.bind (Q := ending (fun _ => Books t (Telling q) X told) Z) ?_ (fun n => ?_)
    fun _ h => h
  · exact Outline.perform (fun _ => anyAnswer_stable _)
      fun s a s' h hrec => ⟨trivial, h.of_trace hrec⟩
  · refine (outline_mute rfl (fun _ _ => rfl) (fun _ _ => rfl)
      (not_telling (by simp) (by simp))).bind (fun r => ?_)
      fun _ h => h
    cases r <;> exact Outline.pure fun _ h => h

theorem outline_placeOrder {accountId symbol : CStr} (price : F) (amount : ℤ)
    (hq : told ∨ q = (accountId, symbol)) :
    Outline anyAnswer (placeOrder accountId symbol price amount true (some t))
      (Books t (Telling q) X told) (ending (ItemDone t q X told) Crashed) := by
  change Outline anyAnswer (placeOrderIn accountId symbol price amount true (some t) t) _ _
  unfold placeOrderIn accountExists symbolExists
  refine outline_recordExists_bind (by simp) (outline_failXit ⟨t, none, none⟩) fun ha => ?_
  refine outline_recordExists_bind (by simp) (outline_failXit ⟨t, none, none⟩) fun hs => ?_
  refine (outline_getPortfolio ha hs hq).bind (fun r => ?_) fun _ h => h
  rcases r with _ | ⟨cursorp, key, p⟩
  · simp only [if_true]
    refine (outline_priceIs _ symbol).bind (fun b => ?_) fun _ h => h
    cases b with
    | false =>
      refine Outline.pure fun s h => ?_
      rcases h with ⟨-, h⟩ | ⟨c, h⟩
      · exact Or.inl ⟨rfl, h⟩
      · exact Or.inr ⟨c :: X, by simp, h⟩
    | true =>
      refine Outline.pre (P := fun s => ∃ c, Books t (Telling q) (c :: X) True s) ?_
        fun s h => h.some
      refine Outline.exists fun c => ?_
      refine (outline_createPortfolio accountId symbol price amount).bind (fun rc => ?_)
        fun _ h => h
      split <;> exact Outline.pure fun _ h => Or.inr ⟨c :: X, by simp, h⟩
  · refine (outline_rewritePortfolio (by simp) ⟨t, some cursorp, none⟩ rfl key
      fun Y p hY => outline_purchased hY symbol price amount p).bind (fun r => ?_) fun _ h => h
    exact outline_rewritten rfl

theorem outline_sellStocks {accountId symbol : CStr} (price : F) (amount : ℤ)
    (hq : told ∨ q = (accountId, symbol)) :
    Outline anyAnswer (sellStocks accountId symbol price amount true (some t))
      (Books t (Telling q) X told) (ending (ItemDone t q X told) Crashed) := by
  change Outline anyAnswer (sellStocksIn accountId symbol price amount true (some t) t) _ _
  unfold sellStocksIn accountExists symbolExists
  refine outline_recordExists_bind (by simp) (outline_failXit ⟨t, none, none⟩) fun ha => ?_
  refine outline_recordExists_bind (by simp) (outline_failXit ⟨t, none, none⟩) fun hs => ?_
  refine (outline_getPortfolio ha hs hq).bind (fun r => ?_) fun _ h => h
  rcases r with _ | ⟨cursorp, key, p⟩
  · exact outline_failXit _
  · simp only
    split
    · exact (outline_failXit_leaves _).pre fun _ h => ⟨cursorp :: X, by simp, h⟩
    · refine (outline_rewritePortfolio (by simp) ⟨t, some cursorp, none⟩ rfl key
        fun Y p hY => outline_sold hY symbol price amount p).bind (fun r => ?_) fun _ h => h
      exact outline_rewritten rfl

end Items

end Orders

/-! ## The functions of a view -/

section Views
variable {X : List CursorId} {told : Prop} {Z : Session F → Prop}

theorem tells_never : Tells t (fun _ : Entry F => False) False where
  cursor _ _ _ := not_false
  close _ _ _ := not_false
  quote _ _ _ _ := by simp

theorem outline_showQuote (symbol : CStr) :
    Outline anyAnswer (showQuote symbol (some t) : DbProgram F Rc)
      (Books t (fun _ => False) X False)
      (ending (fun _ => Books t (fun _ => False) X False) Z) := by
  unfold showQuote withXact
  refine (outline_getStock tells_never symbol).bind (fun r => ?_) fun _ h => h
  rcases r with _ | ⟨c, price⟩
  · exact Outline.pure fun _ h => h
  · refine Outline.pre (P := Books t (fun _ => False) (c :: X) False) ?_
      fun _ h => Books.congr h (by simp)
    refine (outline_close fun _ _ => not_false).bind (fun r => ?_) fun _ h => h
    cases r <;> exact Outline.pure fun _ h => h

theorem not_accountsFailed {c : DbCall F} (hc : ∀ c', c ≠ .personalNext c') (db : Db F)
    (a : Except DbError c.Payload) : ¬ AccountsFailed ⟨db, c, a⟩ := by
  rintro ⟨_, c', _, heq, -⟩
  cases heq
  exact hc c' rfl

theorem outline_showOnePortfolio :
    Outline anyAnswer (showOnePortfolio (some t) : DbProgram F Rc) (Books t AccountsFailed X told)
      (ending (fun _ => Books t AccountsFailed X told) Z) := by
  unfold showOnePortfolio withXact
  refine (outline_cursor (not_accountsFailed (by simp))).bind (fun r => ?_) fun _ h => h
  cases r with
  | error e => exact Outline.pure fun _ h => h
  | ok c =>
    refine Outline.bind (Q := ending (fun _ => Books t AccountsFailed (c :: X) told) Z) ?_
      (fun _ => ?_) fun _ h => h
    · refine Outline.loop (fun _ => Books t AccountsFailed (c :: X) told)
        (fun _ => anyAnswer_stable _) (fun _ => ?_) ()
      refine (outline_mute rfl (fun _ _ => rfl) (fun _ _ => rfl)
        (not_accountsFailed (by simp))).bind (fun r => ?_)
        fun _ h => h
      cases r <;> exact Outline.pure fun _ h => h
    · exact (outline_close (not_accountsFailed (by simp))).bind (fun _ => Outline.pure fun _ h => h)
        fun _ h => h

theorem accountsFailed_personalNext {db : Db F} {c : CursorId} {a : Except DbError CStr} :
    AccountsFailed ⟨db, .personalNext c, a⟩ ↔ ∃ err, a = .error err ∧ err ≠ .notFound := by
  constructor
  · rintro ⟨_, _, err, heq, hne⟩
    cases heq
    exact ⟨err, rfl, hne⟩
  · rintro ⟨err, rfl, hne⟩
    exact ⟨db, c, err, rfl, hne⟩

theorem outline_showPortfoliosStep (showOnlyUsers : Bool) (c : CursorId) (x : Unit) :
    Outline anyAnswer (showPortfoliosStep showOnlyUsers t c x : DbProgram F _)
      (Books t AccountsFailed [c] False) (between (fun _ => Books t AccountsFailed [c] False)
        (ending (fun err => Books t AccountsFailed [c] (err ≠ .notFound)) Z)) := by
  unfold showPortfoliosStep
  refine (outline_other (Z := Z) rfl (fun _ _ => rfl) (fun _ _ => rfl) fun _ _ =>
    accountsFailed_personalNext).bind
    (fun r => ?_) fun _ h => h
  cases r with
  | error err =>
    refine Outline.pure fun _ h =>
      Books.congr h ((or_iff_right not_false).trans ⟨?_, fun hne => ⟨err, rfl, hne⟩⟩)
    rintro ⟨_, heq, hne⟩
    cases heq
    exact hne
  | ok key =>
    refine Outline.pre (P := Books t AccountsFailed [c] False) ?_ fun _ h => Books.congr h (by simp)
    cases showOnlyUsers with
    | true => exact Outline.pure fun _ h => h
    | false => exact outline_showOnePortfolio.bind (fun _ => Outline.pure fun _ h => h) fun _ h => h

def ViewDone (t : Txn) (rc : Rc) (s : Session F) : Prop :=
  Books t AccountsFailed [] False s ∨ (rc = BENCHMARK_FAIL ∧ ∃ c, Books t AccountsFailed [c] True s)

theorem outline_showPortfoliosEnd (c : CursorId) :
    Outline anyAnswer (showPortfoliosEnd (some t) t c : DbProgram F Rc)
      (Books t AccountsFailed [c] False) (ending (ViewDone t) Z) :=
  (outline_close (not_accountsFailed (by simp))).bind (fun _ => Outline.pure fun _ h => Or.inl h)
    fun _ h => h

theorem outline_showPortfolios (accountId : CStr) (showOnlyUsers : Bool) :
    Outline anyAnswer (showPortfolios accountId showOnlyUsers (some t) : DbProgram F Rc)
      (Books t AccountsFailed [] False) (ending (ViewDone t) Z) := by
  unfold showPortfolios withXact
  refine (outline_cursor (not_accountsFailed (by simp))).bind (fun r => ?_) fun _ h => h
  cases r with
  | error e => exact Outline.pure fun _ h => Or.inl h
  | ok c =>
    simp only
    split
    · refine Outline.bind (Q := ending (fun err => Books t AccountsFailed [c] (err ≠ .notFound)) Z)
        ?_ (fun err => ?_)
        fun _ h => h
      · exact Outline.loop (fun _ => Books t AccountsFailed [c] False) (fun _ => anyAnswer_stable _)
          (fun x => outline_showPortfoliosStep showOnlyUsers c x) ()
      · cases err with
        | notFound => exact (outline_showPortfoliosEnd c).pre fun _ h => Books.congr h (by simp)
        | _ => exact Outline.pure fun _ h => Or.inr ⟨rfl, c, Books.congr h (by simp)⟩
    · refine (outline_mute rfl (fun _ _ => rfl) (fun _ _ => rfl)
        (not_accountsFailed (by simp))).bind (fun r => ?_)
        fun _ h => h
      cases r with
      | error e => exact outline_showPortfoliosEnd c
      | ok _ =>
        cases showOnlyUsers with
        | true => exact outline_showPortfoliosEnd c
        | false =>
          exact outline_showOnePortfolio.bind (fun _ => outline_showPortfoliosEnd c) fun _ h => h

end Views

/-! ## update_stock -/

section Update

theorem closedLate_snoc {tr : List (Entry F)} {e : Entry F} :
    ClosedLate (tr ++ [e]) ↔ ClosedLate tr ∨ (CloseFailed e ∧ ∃ e' ∈ tr, QuoteWritten e') := by
  constructor
  · rintro ⟨pre, e', post, htr, hfailed, hwritten⟩
    rcases List.eq_nil_or_concat post with rfl | ⟨post, last, rfl⟩
    · obtain ⟨rfl, heq⟩ := List.append_inj' htr rfl
      cases heq
      exact Or.inr ⟨hfailed, hwritten⟩
    · rw [List.concat_eq_append, ← List.cons_append, ← List.append_assoc] at htr
      obtain ⟨rfl, -⟩ := List.append_inj' htr rfl
      exact Or.inl ⟨pre, e', post, rfl, hfailed, hwritten⟩
  · rintro (⟨pre, e', post, rfl, h⟩ | h)
    · exact ⟨pre, e', post ++ [e], by simp, h⟩
    · exact ⟨tr, e, [], rfl, h⟩

theorem not_closedLate_of_unwritten {tr : List (Entry F)} (h : ¬ ∃ e ∈ tr, QuoteWritten e) :
    ¬ ClosedLate tr := by
  rintro ⟨pre, e, post, rfl, -, e', he', hwritten⟩
  exact h ⟨e', List.mem_append_left _ he', hwritten⟩

theorem not_quoteWritten {c : DbCall F} (hc : ∀ c' price, c ≠ .quotesPut c' price) (db : Db F)
    (a : Except DbError c.Payload) : ¬ QuoteWritten ⟨db, c, a⟩ := by
  rintro ⟨_, c', price, heq⟩
  cases heq
  exact hc c' price rfl

theorem tells_quoteWritten : Tells t (QuoteWritten : Entry F → Prop) False where
  cursor db dbp a := not_quoteWritten (by simp) db a
  close db c a := not_quoteWritten (by simp) db a
  quote db c key a := by
    rw [and_false, iff_false]
    exact not_quoteWritten (by simp) db a

def Written (t : Txn) (c : CursorId) (s : Session F) : Prop :=
  Books t QuoteWritten [c] True s ∧ ¬ ClosedLate s.trace

/-- The cursor was closed with an error. -/
def Overdue (t : Txn) (c : CursorId) (s : Session F) : Prop :=
  Books t QuoteWritten [] True s ∧ c ∈ s.trace.filterMap (opens t) ∧ ClosedLate s.trace

/-- What is left for `failXit`, or for the commit. -/
def QuoteDone (t : Txn) : Except (Option CursorId) Unit → Session F → Prop
  | .error none => Books t QuoteWritten [] False
  | .error (some c) => fun s => Books t QuoteWritten [c] False s ∨ Overdue t c s
  | .ok _ => fun s => Books t QuoteWritten [] True s ∧ ¬ ClosedLate s.trace

section Steps
variable {s s' : Session F} {c : CursorId}

theorem Books.quotesPut {price : F} {a : Except DbError Unit} (h : Books t QuoteWritten [c] False s)
    (htrace : s'.trace = s.trace ++ [⟨s.db, .quotesPut c price, a⟩]) :
    (if a.isOk then Written t c else Books t QuoteWritten [c] False) s' := by
  have hleft : LeftOpen (opens t) closes [c] (s.trace ++ [⟨s.db, .quotesPut c price, a⟩]) :=
    h.leftOpen.other rfl rfl
  cases a with
  | error e =>
    have hnot : ¬ QuoteWritten (⟨s.db, .quotesPut c price, .error e⟩ : Entry F) := by
      rintro ⟨_, _, _, heq⟩
      cases heq
    exact (h.snoc htrace rfl hleft (iff_false_intro hnot)).congr (iff_of_eq (or_false False))
  | ok _ =>
    refine ⟨(h.snoc htrace rfl hleft (iff_true_intro ⟨_, _, _, rfl⟩)).congr (by simp), ?_⟩
    rw [htrace, closedLate_snoc]
    rintro (hlate | ⟨⟨⟨_, hclose⟩, -⟩, -⟩)
    · exact not_closedLate_of_unwritten h.told.mp hlate
    · cases hclose

theorem Written.close {a : Except DbError Unit} (h : Written t c s)
    (htrace : s'.trace = s.trace ++ [⟨s.db, .close c, a⟩]) :
    (if a.isOk then QuoteDone t (.ok ()) else Overdue t c) s' := by
  obtain ⟨hbooks, hlate⟩ := h
  have hclosed : Books t QuoteWritten [] True s' :=
    hbooks.close htrace (not_quoteWritten (by simp) _ _)
  cases a with
  | error e =>
    refine ⟨hclosed, ?_, ?_⟩
    · rw [htrace, filterMap_snoc_none rfl]
      exact hbooks.leftOpen.mem_opened (List.mem_singleton_self c)
    · rw [htrace, closedLate_snoc]
      exact Or.inr ⟨⟨⟨c, rfl⟩, e, rfl⟩, hbooks.told.mpr trivial⟩
  | ok _ =>
    refine ⟨hclosed, ?_⟩
    rw [htrace, closedLate_snoc]
    rintro (h | ⟨⟨-, err, herr⟩, -⟩)
    · exact hlate h
    · cases herr

end Steps

variable [CFloat F] {Z : Session F → Prop}

theorem outline_newPrice {P : Session F → Prop}
    (hP : ∀ s s' : Session F, P s → s'.trace = s.trace → P s') (newValue currentPrice : F) :
    Outline anyAnswer (newPrice newValue currentPrice) P (ending (fun _ => P) Z) := by
  unfold newPrice
  split
  · exact Outline.pure fun _ h => h
  · refine Outline.bind (Q := ending (fun _ => P) Z) ?_ (fun r => ?_) fun _ h => h
    · exact Outline.perform (fun _ => anyAnswer_stable _)
        fun s a s' h hrec => ⟨trivial, hP s s' h hrec⟩
    · split <;> exact Outline.pure fun _ h => h

theorem outline_rewriteQuote (symbol : CStr) (newValue : F) :
    Outline anyAnswer (rewriteQuote symbol newValue t) (Books t QuoteWritten [] False)
      (ending (QuoteDone t) Z) := by
  unfold rewriteQuote
  refine (outline_getStock tells_quoteWritten symbol).bind (fun r => ?_) fun _ h => h
  rcases r with _ | ⟨c, currentPrice⟩
  · exact Outline.pure fun _ h => h
  · refine Outline.pre (P := Books t QuoteWritten [c] False) ?_ fun _ h => Books.congr h (by simp)
    refine (outline_newPrice (fun _ _ h htrace => h.of_trace htrace) newValue currentPrice).bind
      (fun price => ?_)
      fun _ h => h
    refine Outline.bind
      (Q := ending (fun r => if r.isOk then Written t c else Books t QuoteWritten [c] False) Z) ?_
      (fun r => ?_) fun _ h => h
    · refine Outline.perform (fun _ => anyAnswer_stable _) fun s a s' h hrec => ⟨trivial, ?_⟩
      exact h.quotesPut hrec
    · cases r with
      | error e => exact Outline.pure fun _ h => Or.inl h
      | ok _ =>
        refine Outline.bind
          (Q := ending (fun r => if r.isOk then QuoteDone t (.ok ()) else Overdue t c) Z) ?_
          (fun r => ?_) fun _ h => h
        · refine Outline.perform (fun _ => anyAnswer_stable _) fun s a s' h hrec => ⟨trivial, ?_⟩
          exact h.close hrec
        · cases r with
          | error e => exact Outline.pure fun _ h => Or.inr h
          | ok _ => exact Outline.pure fun _ h => h

end Update

end Chronos.Benchmark
