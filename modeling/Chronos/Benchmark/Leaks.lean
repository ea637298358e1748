import Chronos.Benchmark.Cursors

/-! # When the transactions close their cursors

Under every assignment of answers to the calls: a purchase or a sale leaves a cursor
open at its commit or abort unless its first item is refused early, a view of portfolios
if its walk over the accounts fails, and the refresh of a quote closes a cursor twice if
the first close fails.
-/
namespace Chronos.Benchmark
open Foundation Storage Program
variable {F α : Type} {t : Txn}

def Outer (c : DbCall F) : Prop := c = .txnBegin ∨ (∃ t name, c = .setName t name) ∨
    ∃ t, c.resolves = some t

theorem opens_of_outer {e : Entry F} (h : Outer e.call) : opens t e = none := by
  obtain ⟨db, c, a⟩ := e
  rcases h with rfl | ⟨t', name, rfl⟩ | ⟨t', h⟩
  · rfl
  · rfl
  · exact opens_of_resolves h t

theorem closes_of_outer {e : Entry F} (h : Outer e.call) : closes e = none := by
  obtain ⟨db, c, a⟩ := e
  rcases h with rfl | ⟨t', name, rfl⟩ | ⟨t', h⟩
  · rfl
  · rfl
  · exact closes_of_resolves h

theorem cursorsClosed_of_outer {tr : List (Entry F)} (h : ∀ e ∈ tr, Outer e.call) :
    CursorsClosed tr := by
  rintro pre e post t rfl - c hc
  obtain ⟨e', he', hopens⟩ := List.mem_filterMap.mp hc
  rw [opens_of_outer (h e' (List.mem_append_left _ he'))] at hopens
  cases hopens

def Inner (telling : Entry F → Prop) : Prop := ∀ e, telling e → ¬ Outer e.call

theorem Inner.resolves {telling : Entry F → Prop} (h : Inner telling) {e : Entry F}
    (he : telling e) : e.call.resolves = none := by
  cases hres : e.call.resolves with
  | none => rfl
  | some t => exact absurd (Or.inr (Or.inr ⟨t, hres⟩)) (h e he)

theorem inner_quoteRead : Inner (QuoteRead : Entry F → Prop) := by
  rintro _ ⟨db, c, key, price, rfl⟩
  simp [Outer, DbCall.resolves]

theorem inner_telling {q : Holder} : Inner (Telling q : Entry F → Prop) := by
  rintro e (h | ⟨db, c, key, p, rfl, -⟩)
  · exact inner_quoteRead e h
  · simp [Outer, DbCall.resolves]

theorem inner_accountsFailed : Inner (AccountsFailed : Entry F → Prop) := by
  rintro _ ⟨db, c, err, rfl, -⟩
  simp [Outer, DbCall.resolves]

theorem inner_quoteWritten : Inner (QuoteWritten : Entry F → Prop) := by
  rintro _ ⟨db, c, price, rfl⟩
  simp [Outer, DbCall.resolves]

theorem inner_cursorRefused : Inner (CursorRefused : Entry F → Prop) := by
  rintro e ⟨⟨t, ht⟩, -⟩
  rw [ht]
  simp [Outer, DbCall.resolves]

theorem inner_closeFailed : Inner (CloseFailed : Entry F → Prop) := by
  rintro e ⟨⟨c, hc⟩, -⟩
  rw [hc]
  simp [Outer, DbCall.resolves]

/-! ## Runs -/

section Runs
variable {h : (c : Call F) → Session F → Option (Answer c × Session F)} {s s' s₁ s₂ : Session F}

/-- Between the two states the transaction is ended, by one call or more. -/
def EndedBy (t : Txn) (s s' : Session F) : Prop :=
  ∃ post, s'.trace = s.trace ++ post ∧ post ≠ [] ∧ ∀ e ∈ post, e.call.resolves = some t

def Begun (s s' : Session F) : Prop :=
  ∃ tr, s'.trace = s.trace ++ tr ∧ ∀ e ∈ tr, Outer e.call ∧ e.call.resolves = none

theorem EndedBy.trans (h₁ : EndedBy t s s₁) (h₂ : EndedBy t s₁ s') : EndedBy t s s' := by
  obtain ⟨post, htrace, hne, hres⟩ := h₁
  obtain ⟨post', htrace', -, hres'⟩ := h₂
  refine ⟨post ++ post', by rw [htrace', htrace, List.append_assoc], by simp [hne], ?_⟩
  exact List.forall_mem_append.mpr ⟨hres, hres'⟩

theorem Closing.endedBy {rc : Rc} {post : List (Entry F)} {o : Outcome Rc}
    (hclosing : Closing t rc post o) (htrace : s'.trace = s.trace ++ post) : EndedBy t s s' := by
  refine ⟨post, htrace, ?_, ?_⟩ <;> cases hclosing <;> simp [DbCall.resolves]

/-- The transaction does not start, or its items are applied, and it is ended unless they crash. -/
theorem inXact_stages {txnName : String} {apply : α → Txn → DbProgram F Rc} {items : List α}
    {o : Outcome Rc} (hh : Records h) (he : Exec h (inXact txnName apply items) s o s') :
    (∃ tr, s'.trace = s.trace ++ tr ∧ ∀ e ∈ tr, Outer e.call) ∨
    ∃ t s₁ s₂ o', Begun s s₁ ∧ Exec h (applyItems apply items t) s₁ o' s₂ ∧
      ((o' = .crashed ∧ s' = s₂) ∨ (∃ rc, o' = .value rc) ∧ EndedBy t s₂ s') := by
  rcases inXact_cases hh he with ⟨err, -, htr⟩ | ⟨t, db, err, e, -, hcall, htr⟩ |
    ⟨t, db, s₁, htr, hrest⟩
  · exact Or.inl ⟨_, htr, by simp [Outer]⟩
  · exact Or.inl ⟨_, htr, by simp [Outer, hcall, DbCall.resolves]⟩
  · have hbegun : Begun s s₁ := ⟨_, htr, by simp [Outer, DbCall.resolves]⟩
    rcases hrest with ⟨-, hcrash⟩ | ⟨rc, s₂, post, hitems, hclosing, htr'⟩
    · exact Or.inr ⟨t, s₁, s', .crashed, hbegun, hcrash, Or.inl ⟨rfl, rfl⟩⟩
    · exact Or.inr ⟨t, s₁, s₂, _, hbegun, hitems, Or.inr ⟨⟨rc, rfl⟩, hclosing.endedBy htr'⟩⟩

section Books
variable {telling : Entry F → Prop} {X : List CursorId} {told : Prop}

theorem Begun.not_telling (hs : s.trace = []) (hbegun : Begun s s₁) (htelling : Inner telling) :
    ¬ ∃ e ∈ s₁.trace, telling e := by
  obtain ⟨tr, htrace, hout⟩ := hbegun
  rw [htrace, hs, List.nil_append]
  rintro ⟨e, he, htold⟩
  exact htelling e htold (hout e he).1

theorem EndedBy.exists_telling (hend : EndedBy t s s') (htelling : Inner telling) :
    (∃ e ∈ s'.trace, telling e) ↔ ∃ e ∈ s.trace, telling e := by
  obtain ⟨post, htrace, -, hres⟩ := hend
  rw [htrace]
  constructor
  · rintro ⟨e, he, htold⟩
    rcases List.mem_append.mp he with he | he
    · exact ⟨e, he, htold⟩
    · exact absurd (Or.inr (Or.inr ⟨t, hres e he⟩)) (htelling e htold)
  · rintro ⟨e, he, htold⟩
    exact ⟨e, List.mem_append_left _ he, htold⟩

theorem Begun.books (hs : s.trace = []) (hbegun : Begun s s₁) (htelling : Inner telling) :
    Books t telling [] False s₁ := by
  have htold : ¬ ∃ e ∈ s₁.trace, telling e := hbegun.not_telling hs htelling
  obtain ⟨tr, htrace, hout⟩ := hbegun
  rw [hs, List.nil_append] at htrace
  refine ⟨htrace ▸ fun e he => (hout e he).2, ?_, iff_false_intro htold⟩
  rw [htrace]
  intro c
  rw [List.filterMap_eq_nil_iff.mpr fun e he => opens_of_outer (hout e he).1,
    List.filterMap_eq_nil_iff.mpr fun e he => closes_of_outer (hout e he).1]
  rfl

/-- When the transaction is ended, all is closed if nothing was left open. -/
theorem Books.cursorsClosed_iff (hbooks : Books t telling X told s) (hend : EndedBy t s s')
    (hown : OwnHandles s'.trace) : CursorsClosed s'.trace ↔ X = [] := by
  obtain ⟨post, htrace, hne, hres⟩ := hend
  have hnodup : (s.trace.filterMap (opens t)).Nodup := by
    have hall := hown t
    rw [htrace, filterMap_append_none fun e he => opens_of_resolves (hres e he) t] at hall
    exact hall
  rw [htrace, cursorsClosed_resolved hbooks.unresolved hne hres]
  exact hbooks.leftOpen.closedOnce_iff hnodup

theorem Books.told_iff (hbooks : Books t telling X told s) (hend : EndedBy t s s')
    (htelling : Inner telling) :
    (∃ e ∈ s'.trace, telling e) ↔ told := (hend.exists_telling htelling).trans hbooks.told

end Books

/-! ## Items -/

section Items
variable {apply : α → Txn → DbProgram F Rc} {P B Z : Session F → Prop}

theorem outline_applyItems (happly : ∀ item, Outline anyAnswer (apply item t) P
      (ending (fun rc s => P s ∨ (rc = BENCHMARK_FAIL ∧ B s)) Z)) (items : List α) :
    Outline anyAnswer (applyItems apply items t) P (ending (fun _ s => P s ∨ B s) Z) := by
  induction items with
  | nil => exact Outline.pure fun _ h => Or.inl h
  | cons item items ih =>
    refine (happly item).bind (fun rc => ?_) fun _ h => h
    split
    · next hrc =>
      refine ih.pre fun s h => ?_
      rcases h with h | ⟨hfail, -⟩
      · exact h
      · rw [hrc] at hfail
        cases hfail
    · refine Outline.pure fun s h => ?_
      rcases h with h | ⟨-, h⟩
      · exact Or.inl h
      · exact Or.inr h

theorem outline_applyItems_keep
    (happly : ∀ item, Outline anyAnswer (apply item t) P (ending (fun _ => P) Z)) (items : List α) :
    Outline anyAnswer (applyItems apply items t) P (ending (fun _ => P) Z) := by
  refine (outline_applyItems (B := fun _ => False) (Z := Z)
    (fun item => (happly item).post ?_) items).post ?_
  · rintro (rc | _) s h
    · exact Or.inl h
    · exact h
  · rintro (rc | _) s h
    · exact h.resolve_right id
    · exact h

end Items

/-! ## Orders -/

section Orders
variable {apply : BenchmarkXactData F → Txn → DbProgram F Rc} {q : Holder}

/-- Under each ledger the item is refused early or leaves something open. -/
def Ordering (apply : BenchmarkXactData F → Txn → DbProgram F Rc) : Prop :=
  ∀ t d q X (told : Prop), told ∨ q = d.holder →
    Outline anyAnswer (apply d t) (Books t (Telling q) X told)
    (ending (ItemDone t q X told) Crashed)

theorem Ordering.leaves (happly : Ordering apply) (d : BenchmarkXactData F) :
    Outline anyAnswer (apply d t) (Leaves t q) (ending (fun _ => Leaves t q) Crashed) := by
  refine Outline.exists fun X => Outline.assume fun hX => ?_
  refine (happly t d q X True (Or.inl trivial)).post ?_
  rintro (rc | _) s h
  · rcases h with ⟨-, h⟩ | h
    · exact ⟨X, hX, h⟩
    · exact h
  · exact h

theorem Ordering.items (happly : Ordering apply) (d : BenchmarkXactData F)
    (data : List (BenchmarkXactData F)) :
    Outline anyAnswer (applyItems apply (d :: data) t) (Books t (Telling d.holder) [] False)
      (ending (fun _ s => Books t (Telling d.holder) [] False s ∨ Leaves t d.holder s)
        Crashed) := by
  refine (happly t d d.holder [] False (Or.inr rfl)).bind (fun rc => ?_) fun _ h => h
  split
  · next hrc =>
    refine ((outline_applyItems_keep (happly.leaves (q := d.holder)) data).pre fun s h =>
      ?_).post ?_
    · rcases h with ⟨hfail, -⟩ | h
      · rw [hrc] at hfail
        cases hfail
      · exact h
    · rintro (rc' | _) s h
      · exact Or.inr h
      · exact h
  · refine Outline.pure fun s h => ?_
    rcases h with ⟨-, h⟩ | h
    · exact Or.inl h
    · exact Or.inr h

theorem refusedEarly_of_untold {data : List (BenchmarkXactData F)} {tr : List (Entry F)}
    (h : ∀ d ∈ data.head?, ¬ ∃ e ∈ tr, Telling d.holder e) : RefusedEarly data tr := by
  refine Or.inr fun d hd e he => ⟨fun hread => ?_, fun hfound => ?_⟩
  · exact h d hd ⟨e, he, Or.inl hread⟩
  · exact h d hd ⟨e, he, Or.inr hfound⟩

theorem orders_cursorsClosed_iff {txnName : String} {data : List (BenchmarkXactData F)}
    {o : Outcome Rc} (hh : Records h) (hquiet : ∀ t d, Quiet t CursorRefused (apply d t))
    (happly : Ordering apply) (hs : s.trace = []) (he : Exec h (inXact txnName apply data) s o s')
    (hown : OwnHandles s'.trace) : CursorsClosed s'.trace ↔ RefusedEarly data s'.trace := by
  rcases inXact_stages hh he with ⟨tr, htrace, hout⟩ | ⟨t, s₁, s₂, o', hbegun, hitems, hend⟩
  · rw [hs, List.nil_append] at htrace
    rw [htrace]
    refine iff_of_true (cursorsClosed_of_outer hout) (refusedEarly_of_untold ?_)
    rintro d - ⟨e, he, htold⟩
    exact inner_telling e htold (hout e he)
  · obtain ⟨mid, hmid, hin, hcrashed⟩ := (applyItems_quiet (hquiet t) data).stretch hh hitems
    have hstart : ∀ q, Books t (Telling q) [] False s₁ := fun q => hbegun.books hs inner_telling
    rcases hend with ⟨rfl, rfl⟩ | ⟨⟨rc, rfl⟩, hend⟩
    · obtain ⟨e, he, hrefused⟩ := hcrashed.mp rfl
      refine iff_of_true (cursorsClosed_of_unresolved ?_) (Or.inl ⟨e, ?_, hrefused⟩)
      · rw [hmid]
        exact List.forall_mem_append.mpr ⟨(hstart ([], [])).unresolved, fun e he => (hin e he).2⟩
      · rw [hmid]
        exact List.mem_append_right _ he
    · cases data with
      | nil =>
        obtain ⟨-, rfl⟩ := hitems.pure_cases
        refine iff_of_true (((hstart ([], [])).cursorsClosed_iff hend hown).mpr rfl)
          (refusedEarly_of_untold ?_)
        simp
      | cons d data =>
        rcases run_outline hh hitems (happly.items d data) (hstart d.holder) with hbooks |
          ⟨X, hX, hbooks⟩
        · refine iff_of_true ((hbooks.cursorsClosed_iff hend hown).mpr rfl)
            (refusedEarly_of_untold ?_)
          rintro d' ⟨⟩
          exact (hbooks.told_iff hend inner_telling).not.mpr not_false
        · refine iff_of_false ((hbooks.cursorsClosed_iff hend hown).not.mpr hX) ?_
          rintro (hrefused | hno)
          · obtain ⟨e, he, hrefused⟩ := (hend.exists_telling inner_cursorRefused).mp hrefused
            rw [hmid] at he
            rcases List.mem_append.mp he with he | he
            · exact hbegun.not_telling hs inner_cursorRefused ⟨e, he, hrefused⟩
            · cases hcrashed.mpr ⟨e, he, hrefused⟩
          · obtain ⟨e, he, hread | hfound⟩ := (hbooks.told_iff hend inner_telling).mpr trivial
            · exact (hno d rfl e he).1 hread
            · exact (hno d rfl e he).2 hfound

end Orders

/-! ## Views -/

theorem views_cursorsClosed_iff {apply : α → Txn → DbProgram F Rc} {txnName : String}
    {items : List α} {o : Outcome Rc} {telling : Entry F → Prop} (hh : Records h)
    (htelling : Inner telling)
    (happly : ∀ t item, Outline anyAnswer (apply item t) (Books t telling [] False)
      (ending (fun rc s => Books t telling [] False s ∨
        (rc = BENCHMARK_FAIL ∧ ∃ c, Books t telling [c] True s))
        fun _ => False))
    (hs : s.trace = []) (he : Exec h (inXact txnName apply items) s o s')
    (hown : OwnHandles s'.trace) : CursorsClosed s'.trace ↔ ¬ ∃ e ∈ s'.trace, telling e := by
  rcases inXact_stages hh he with ⟨tr, htrace, hout⟩ | ⟨t, s₁, s₂, o', hbegun, hitems, hend⟩
  · rw [hs, List.nil_append] at htrace
    rw [htrace]
    refine iff_of_true (cursorsClosed_of_outer hout) ?_
    rintro ⟨e, he, htold⟩
    exact htelling e htold (hout e he)
  · have hdone :=
      run_outline hh hitems (outline_applyItems (happly t) items) (hbegun.books hs htelling)
    rcases hend with ⟨rfl, -⟩ | ⟨⟨rc, rfl⟩, hend⟩
    · exact hdone.elim
    · rcases hdone with hbooks | ⟨c, hbooks⟩
      · refine iff_of_true ((hbooks.cursorsClosed_iff hend hown).mpr rfl) ?_
        exact (hbooks.told_iff hend htelling).not.mpr not_false
      · refine iff_of_false ((hbooks.cursorsClosed_iff hend hown).not.mpr (by simp))
          (not_not.mpr ?_)
        exact (hbooks.told_iff hend htelling).mpr trivial

/-! ## update_stock -/

theorem closedLate_append {tr post : List (Entry F)} (hpost : ∀ e ∈ post, ¬ CloseFailed e) :
    ClosedLate (tr ++ post) ↔ ClosedLate tr := by
  induction post using List.reverseRecOn with
  | nil => rw [List.append_nil]
  | append_singleton post e ih =>
    obtain ⟨hpost, he⟩ := forall_mem_snoc.mp hpost
    rw [← List.append_assoc, closedLate_snoc, ih hpost]
    exact or_iff_left fun h => he h.1

theorem EndedBy.not_cursorsClosed (hend : EndedBy t s s')
    (hunresolved : ∀ e ∈ s.trace, e.call.resolves = none)
    (hnot : ¬ ClosedOnce (opens t) closes s.trace) : ¬ CursorsClosed s'.trace := by
  obtain ⟨post, htrace, hne, hres⟩ := hend
  rw [htrace, cursorsClosed_resolved hunresolved hne hres]
  exact hnot

theorem EndedBy.closedLate_iff (hend : EndedBy t s s') :
    ClosedLate s'.trace ↔ ClosedLate s.trace := by
  obtain ⟨post, htrace, -, hres⟩ := hend
  rw [htrace]
  exact closedLate_append fun e he hfailed =>
    inner_closeFailed e hfailed (Or.inr (Or.inr ⟨t, hres e he⟩))

theorem failOwn_none_ended {o : Outcome Rc} (hh : Records h)
    (he : Exec h (failOwn none t none) s o s') : EndedBy t s s' := by
  obtain ⟨a, s₁, -, htrace, he⟩ := call_bind_cases hh he
  obtain ⟨-, rfl⟩ := he.pure_cases
  exact ⟨_, htrace, by simp, by simp [DbCall.resolves]⟩

theorem commitOwn_ended {o : Outcome Rc} (hh : Records h) (he : Exec h (commitOwn none t) s o s') :
    EndedBy t s s' := by
  obtain ⟨a, s₁, -, htrace, he⟩ := call_bind_cases hh he
  have hcommit : EndedBy t s s₁ := ⟨_, htrace, by simp, by simp [DbCall.resolves]⟩
  cases a with
  | ok _ =>
    obtain ⟨-, rfl⟩ := he.pure_cases
    exact hcommit
  | error err => exact hcommit.trans (failOwn_none_ended hh he)

theorem updateStock_cursorsClosed_iff [CFloat F] {symbol : CStr} {newValue : F} {o : Outcome Rc}
    (hh : Records h) (hs : s.trace = []) (he : Exec h (updateStock symbol newValue) s o s')
    (hown : OwnHandles s'.trace) : CursorsClosed s'.trace ↔ ¬ ClosedLate s'.trace := by
  obtain ⟨a, s₁, -, htrace, he⟩ := call_bind_cases hh he
  have hout : ∀ e ∈ [(⟨s.db, .txnBegin, a⟩ : Entry F)], Outer e.call ∧ e.call.resolves = none := by
    simp [Outer, DbCall.resolves]
  cases a with
  | error err =>
    obtain ⟨-, rfl⟩ := he.pure_cases
    rw [htrace, hs, List.nil_append]
    refine iff_of_true (cursorsClosed_of_outer fun e he => (hout e he).1)
      (not_closedLate_of_unwritten ?_)
    rintro ⟨e, he, hwritten⟩
    exact inner_quoteWritten e hwritten (hout e he).1
  | ok t =>
    have hbegun : Begun s s₁ := ⟨_, htrace, hout⟩
    rcases he.bind_cases with ⟨r, s₂, hrewrite, he⟩ | ⟨-, hcrash⟩
    · have hdone : QuoteDone t r s₂ :=
        run_outline hh hrewrite (outline_rewriteQuote (Z := fun _ => False) symbol newValue)
          (hbegun.books hs inner_quoteWritten)
      rcases r with (_ | c) | _
      · have hend : EndedBy t s₂ s' := failOwn_none_ended hh he
        refine iff_of_true ((Books.cursorsClosed_iff hdone hend hown).mpr rfl) ?_
        exact not_closedLate_of_unwritten
          ((Books.told_iff hdone hend inner_quoteWritten).not.mpr not_false)
      · obtain ⟨a, s₃, -, hclose, he⟩ := call_bind_cases hh he
        have hend : EndedBy t s₃ s' := failOwn_none_ended hh he
        rcases hdone with hbooks | ⟨hbooks, hmem, hlate⟩
        · have hclosed : Books t QuoteWritten [] False s₃ :=
            hbooks.close hclose (not_quoteWritten (by simp) _ _)
          refine iff_of_true ((hclosed.cursorsClosed_iff hend hown).mpr rfl) ?_
          exact not_closedLate_of_unwritten
            ((hclosed.told_iff hend inner_quoteWritten).not.mpr not_false)
        · refine iff_of_false (hend.not_cursorsClosed ?_ ?_)
            (not_not.mpr (hend.closedLate_iff.mpr ?_))
          · rw [hclose]
            exact forall_mem_snoc.mpr ⟨hbooks.unresolved, rfl⟩
          · rw [hclose]
            exact hbooks.leftOpen.not_closedOnce_of_again hmem (by simp) rfl rfl
          · rw [hclose, closedLate_snoc]
            exact Or.inl hlate
      · have hend : EndedBy t s₂ s' := commitOwn_ended hh he
        refine iff_of_true ((hdone.1.cursorsClosed_iff hend hown).mpr rfl) ?_
        exact hend.closedLate_iff.not.mpr hdone.2
    · exact (run_outline hh hcrash (outline_rewriteQuote (Z := fun _ => False) symbol newValue)
        (hbegun.books hs inner_quoteWritten)).elim

end Runs

/-! ## Handles -/

section Handles
variable {self : Txn} {db db' : Db F}

theorem nextCursor_onCursor {β : Type} {c : CursorId} {a : Except DbError β}
    {f : OpenCursor → Option (Except DbError β × Db F)}
    (hf : ∀ oc a db', f oc = some (a, db') → db'.nextCursor = db.nextCursor)
    (hexec : db.onCursor c f = some (a, db')) : db'.nextCursor = db.nextCursor := by
  unfold Db.onCursor at hexec
  split at hexec
  · exact hf _ _ _ hexec
  · cases hexec
    rfl

theorem nextCursor_get {c : CursorId} {key : CStr} {dbp : Dbp} {a : Except DbError (Value F dbp)}
    (hexec : db.get c self key dbp = some (a, db')) : db'.nextCursor = db.nextCursor := by
  cases dbp with
  | stocks =>
    simp only [Db.get] at hexec
    split at hexec <;> cases hexec <;> rfl
  | personal =>
    simp only [Db.get] at hexec
    split at hexec <;> cases hexec <;> rfl
  | quotes =>
    simp only [Db.get] at hexec
    split at hexec
    · cases hexec
    · split at hexec <;> cases hexec <;> rfl
  | portfolios =>
    simp only [Db.get] at hexec
    split at hexec
    · cases hexec
    · split at hexec <;> cases hexec <;> rfl
  | portfoliosSec =>
    cases hexec
    rfl

/-- Only the call that creates a cursor uses up a handle. -/
theorem nextCursor_perform {c : DbCall F} {a : Except DbError c.Payload}
    (hc : ∀ dbp t, c ≠ .cursor dbp t) (hexec : db.perform self c = some (a, db')) :
    db'.nextCursor = db.nextCursor := by
  cases c with
  | cursor dbp t => exact absurd rfl (hc dbp t)
  | get dbp c key => exact nextCursor_onCursor (fun _ _ _ h => nextCursor_get h) hexec
  | personalNext c =>
    refine nextCursor_onCursor (fun oc a db'' h => ?_) hexec
    simp only [Db.personalNext] at h
    split at h <;> cases h <;> rfl
  | portfoliosPgetNext c =>
    refine nextCursor_onCursor (fun oc a db'' h => ?_) hexec
    simp only [Db.portfoliosPgetNext] at h
    split at h
    · split at h
      · cases h
      · split at h <;> cases h <;> rfl
    · cases h
      rfl
  | quotesPut c price =>
    refine nextCursor_onCursor (fun oc a db'' h => ?_) hexec
    simp only [Db.quotesPut] at h
    split at h
    · cases h
      rfl
    · split at h <;> cases h
      rfl
  | portfoliosPut c p =>
    refine nextCursor_onCursor (fun oc a db'' h => ?_) hexec
    simp only [Db.portfoliosPut] at h
    split at h
    · cases h
      rfl
    · split at h <;> cases h
      rfl
  | portfoliosInsert t key p =>
    simp only [Db.perform, Db.portfoliosInsert] at hexec
    split at hexec
    · cases hexec
    · split at hexec <;> cases hexec <;> rfl
  | _ =>
    cases hexec
    rfl

theorem opens_eq_some {e : Entry F} {c : CursorId} (h : opens t e = some c) :
    ∃ db dbp, e = ⟨db, .cursor dbp t, .ok c⟩ := by
  obtain ⟨db, call, a⟩ := e
  cases call with
  | cursor dbp t' =>
    cases a with
    | error err => cases h
    | ok c' =>
      simp only [opens] at h
      split at h
      · next ht =>
        cases h
        exact ⟨db, dbp, by rw [ht]⟩
      · cases h
  | _ => cases h

theorem nextCursor_afterFailure (db : Db F) (c : DbCall F) :
    (db.afterFailure c).nextCursor = db.nextCursor := by
  cases c <;> rfl

theorem exec_handles {fault : Option DbError} {c : DbCall F} {a : Except DbError c.Payload}
    (hexec : db.exec self fault c = some (a, db')) : db.nextCursor ≤ db'.nextCursor ∧
      ∀ t c', opens t ⟨db, c, a⟩ = some c' → c' = db.nextCursor ∧
        db.nextCursor < db'.nextCursor := by
  cases fault with
  | some err =>
    cases hexec
    refine ⟨(nextCursor_afterFailure db c).ge, fun t c' h => ?_⟩
    obtain ⟨_, dbp, heq⟩ := opens_eq_some h
    cases heq
  | none =>
    by_cases hc : ∃ dbp t, c = .cursor dbp t
    · obtain ⟨dbp, t, rfl⟩ := hc
      cases hexec
      refine ⟨Nat.le_succ _, fun t' c' h => ?_⟩
      obtain ⟨_, dbp', heq⟩ := opens_eq_some h
      cases heq
      exact ⟨rfl, Nat.lt_succ_self _⟩
    · have hnext : db'.nextCursor = db.nextCursor :=
        nextCursor_perform (fun dbp t heq => hc ⟨dbp, t, heq⟩) hexec
      refine ⟨hnext.ge, fun t c' h => ?_⟩
      obtain ⟨_, dbp, heq⟩ := opens_eq_some h
      cases heq
      exact absurd ⟨dbp, t, rfl⟩ hc

def HandlesBelow (s : Session F) : Prop :=
  ∀ t, (s.trace.filterMap (opens t)).Nodup ∧ ∀ c ∈ s.trace.filterMap (opens t), c < s.db.nextCursor

theorem handlesBelow_answer {faults : Faults} {c : Call F} {s s' : Session F} {a : Answer c}
    (hs : HandlesBelow s) (hanswer : s.answer self faults c = some (a, s')) : HandlesBelow s' := by
  cases c with
  | fetchAndAdd => cases hanswer; exact hs
  | rand => cases hanswer; exact hs
  | db c =>
    obtain ⟨⟨a', db'⟩, hexec, heq⟩ := Option.map_eq_some_iff.mp hanswer
    cases heq
    intro t
    obtain ⟨hnodup, hbelow⟩ := hs t
    obtain ⟨hle, hopens⟩ := exec_handles hexec
    cases hopen : opens t (⟨s.db, c, a'⟩ : Entry F) with
    | none =>
      rw [filterMap_snoc_none hopen]
      exact ⟨hnodup, fun c' hc' => (hbelow c' hc').trans_le hle⟩
    | some c' =>
      obtain ⟨rfl, hlt⟩ := hopens t c' hopen
      rw [filterMap_snoc_some hopen]
      refine ⟨List.nodup_append.mpr ⟨hnodup, List.nodup_singleton _, ?_⟩, ?_⟩
      · intro c hc c' hc'
        rw [List.mem_singleton.mp hc']
        exact (hbelow c hc).ne
      · intro c' hc'
        rcases List.mem_append.mp hc' with hc' | hc'
        · exact (hbelow c' hc').trans hlt
        · rwa [List.mem_singleton.mp hc']

theorem ownHandles_answer {faults : Faults} {p : DbProgram F α} {o : Outcome α} {s' : Session F}
    (he : Exec (Session.answer self faults) p ⟨db, []⟩ o s') : OwnHandles s'.trace := by
  have hstart : HandlesBelow (⟨db, []⟩ : Session F) := fun _ => ⟨List.nodup_nil, by simp⟩
  have hend : HandlesBelow s' :=
    Exec.invariant (h := Session.answer self faults) (J := HandlesBelow)
    (fun _ _ _ _ hs hanswer => handlesBelow_answer hs hanswer) he hstart
  exact fun t => (hend t).1

end Handles

/-! ## All transactions -/

variable [CFloat F]

theorem Transaction.cursorsClosed_iff (x : Transaction F)
    {h : (c : Call F) → Session F → Option (Answer c × Session F)} {s s' : Session F}
    {o : Outcome Rc} (hh : Records h) (hs : s.trace = []) (he : Exec h x.run s o s')
    (hown : OwnHandles s'.trace) : CursorsClosed s'.trace ↔ x.Tidy s'.trace := by
  cases x with
  | purchase data =>
    exact orders_cursorsClosed_iff hh (fun _ _ => quiet_placeOrder _ _ _ _ _)
      (fun _ d _ _ _ hq => outline_placeOrder d.price d.amount hq) hs he hown
  | sell data =>
    exact orders_cursorsClosed_iff hh (fun _ _ => quiet_sellStocks _ _ _ _ _)
      (fun _ d _ _ _ hq => outline_sellStocks d.price d.amount hq) hs he hown
  | viewStock symbolList =>
    have hnever : Inner fun _ : Entry F => False := fun _ hfalse => hfalse.elim
    refine (views_cursorsClosed_iff hh hnever (fun t symbol => ?_) hs he hown).trans ?_
    · refine (outline_showQuote (Z := fun _ => False) symbol).post ?_
      rintro (rc | _) s h
      · exact Or.inl h
      · exact h
    · simp [Transaction.Tidy]
  | viewPortfolio accountList =>
    refine
      (views_cursorsClosed_iff hh inner_accountsFailed (fun t accountId => ?_) hs he hown).trans ?_
    · exact outline_showPortfolios accountId false
    · simp [Transaction.Tidy]
  | updateStock symbol newValue => exact updateStock_cursorsClosed_iff hh hs he hown

/-- Whatever the answers are, every cursor is closed once before its transaction ends if and
only if the function is tidy. A thread that is alone comes to an end, with cursors that
have handles of their own. -/
theorem transaction_cursorsClosed_iff (x : Transaction F) :
    (∀ h : (c : Call F) → Session F → Option (Answer c × Session F), Records h →
      ∀ db o s', Exec h x.run ⟨db, []⟩ o s' → OwnHandles s'.trace →
        (CursorsClosed s'.trace ↔ x.Tidy s'.trace)) ∧
    ∀ t faults (db : Db F), db.Alone t →
      ∃ o s', Exec (Session.answer t faults) x.run ⟨db, []⟩ o s' ∧ OwnHandles s'.trace := by
  refine ⟨fun h hh db o s' he hown => x.cursorsClosed_iff hh rfl he hown, fun t faults db hdb => ?_⟩
  obtain ⟨o, s', he, -⟩ := x.ends faults (s := ⟨db, []⟩) hdb
  exact ⟨o, s', he, ownHandles_answer he⟩

/-- A view of a stock. -/
theorem cursorsClosed_viewStock :
    ∃ o s', Exec (Session.answer 1 noFaults) (Transaction.viewStock [[65]]).run
    ⟨Db.fresh [] [[65]] ((LockTable.empty.write 1 [65] (10 : ℚ)).commit 1) id, []⟩ o s' ∧
      CursorsClosed s'.trace := by
  have hall := transaction_cursorsClosed_iff (Transaction.viewStock [[65]] : Transaction ℚ)
  have halone :
    (Db.fresh [] [[65]] ((LockTable.empty.write 1 [65] (10 : ℚ)).commit 1) id).Alone 1 :=
    ⟨fun _ => LockTable.lockedByOther_commit (LockTable.lockedByOther_write rfl), fun _ => rfl,
      by simp [Db.fresh]⟩
  obtain ⟨o, s', he, hown⟩ := hall.2 1 noFaults _ halone
  exact ⟨o, s', he, (hall.1 _ records_answer _ _ _ he hown).mpr trivial⟩

/-- The transaction is ended by the last call with a cursor that was not closed once. -/
def leaksAtEnd (t : Txn) (tr : List (Entry F)) : Bool :=
  (tr.getLast?.any fun e => e.call.resolves == some t) &&
    (tr.dropLast.filterMap (opens t)).any fun c => (tr.dropLast.filterMap closes).count c ≠ 1

omit [CFloat F] in
theorem not_cursorsClosed_of_leaksAtEnd {tr : List (Entry F)} (hleaks : leaksAtEnd t tr) :
    ¬ CursorsClosed tr := by
  intro hclosed
  simp only [leaksAtEnd, Bool.and_eq_true, Option.any_eq_true, List.any_eq_true, decide_eq_true_eq,
    beq_iff_eq] at hleaks
  obtain ⟨⟨e, hlast, hres⟩, c, hc, hcount⟩ := hleaks
  exact hcount (hclosed tr.dropLast e [] t (List.dropLast_append_getLast? e hlast).symm hres c hc)

/-- A purchase that goes through commits with its cursor on Quotes open. -/
theorem purchase_leaves_quote_open : ∃ s', Exec (Session.answer 1 noFaults)
      (benchmarkPurchase2 [⟨[49], [65], 12, 5, by decide, by decide⟩])
      ⟨Db.fresh [[49]] [[65]] ((LockTable.empty.write 0 [65] (10 : ℚ)).commit 0) id, []⟩
        (.value BENCHMARK_SUCCESS) s' ∧
    ¬ CursorsClosed s'.trace := by
  have hrun : (Program.run (Session.answer 1 noFaults) 60
      (benchmarkPurchase2 [⟨[49], [65], 12, 5, by decide, by decide⟩])
      ⟨Db.fresh [[49]] [[65]] ((LockTable.empty.write 0 [65] (10 : ℚ)).commit 0) id, []⟩).map
        (fun x => (match x.1 with
        | .value rc => some rc
        | .crashed =>
          none, leaksAtEnd 1 x.2.trace)) = some (some BENCHMARK_SUCCESS, true) := by decide +kernel
  obtain ⟨⟨o, s'⟩, hs', htest⟩ := Option.map_eq_some_iff.mp hrun
  cases o with
  | crashed => cases htest
  | value rc =>
    simp only [Prod.mk.injEq, Option.some.injEq] at htest
    obtain ⟨rfl, hleaks⟩ := htest
    exact ⟨s', Exec.of_run hs', not_cursorsClosed_of_leaksAtEnd hleaks⟩

end Chronos.Benchmark
