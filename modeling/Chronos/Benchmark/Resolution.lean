import Chronos.Benchmark.Applied

/-! # How the transactions of the server end

A transaction that began gets one commit or one abort, unless its commit fails: it
is then aborted by `commit_xact` and once more by its caller. Success is returned for
a commit that went through, and then all items were applied, unless a view or the
look-up of a purchase ignored a failure.
-/
namespace Chronos.Benchmark
open Foundation Storage Program
variable {F α : Type}

/-- The functions that run a whole transaction. -/
inductive Transaction (F : Type) where
  | purchase (data : List (BenchmarkXactData F))
  | sell (data : List (BenchmarkXactData F))
  | viewStock (symbolList : List CStr)
  | viewPortfolio (accountList : List CStr)
  | updateStock (symbol : CStr) (newValue : F)

def Transaction.run [CFloat F] : Transaction F → DbProgram F Rc
  | .purchase data => benchmarkPurchase2 data
  | .sell data => benchmarkSell2 data
  | .viewStock symbolList => benchmarkViewStock2 symbolList
  | .viewPortfolio accountList => benchmarkViewPortfolio2 accountList
  | .updateStock symbol newValue => Benchmark.updateStock symbol newValue

/-! ## What a trace says -/

def Began (t : Txn) (tr : List (Entry F)) : Prop := ∃ db, ⟨db, .txnBegin, .ok t⟩ ∈ tr

/-- Every transaction that began is ended by one call and passed to none after it. -/
def ResolvedOnce (tr : List (Entry F)) : Prop :=
  ∀ t, Began t tr → ∃ pre e post, tr = pre ++ e :: post ∧ e.call.resolves = some t ∧
    (∀ e' ∈ pre, e'.call.resolves ≠ some t) ∧ ∀ e' ∈ post, e'.call.handle ≠ some t

def CommitFailed (e : Entry F) : Prop := (∃ t, e.call = .commit t) ∧ e.Failed

def CommitDone (e : Entry F) : Prop := ∃ t, Made.of e = did (.commit t) ()

theorem not_commitDone {e : Entry F} (h : ∀ t, e.call ≠ .commit t) : ¬ CommitDone e := by
  rintro ⟨t, ht⟩
  exact h t (congrArg Sigma.fst ht)

theorem not_commitDone_of_inside {e : Entry F} (h : Inside e.call) : ¬ CommitDone e :=
  not_commitDone fun t ht => by simpa [ht, DbCall.resolves] using h.2

theorem not_commitFailed_of_inside {e : Entry F} (h : Inside e.call) : ¬ CommitFailed e := by
  rintro ⟨⟨t, ht⟩, -⟩
  have hresolves := h.2
  rw [ht] at hresolves
  cases hresolves

/-- The trace of one transaction, and whether its function came back. -/
inductive Course (fatal : Entry F → Prop) : List (Entry F) → Prop
  | notBegun {db : Db F} {err : DbError} : Course fatal [⟨db, .txnBegin, .error err⟩]
  | crashed {db : Db F} {t : Txn} {mid : List (Entry F)} :
      (∀ e ∈ mid, Inside e.call) → (∃ e ∈ mid, fatal e) → Course fatal
      (⟨db, .txnBegin, .ok t⟩ :: mid)
  | resolved {db : Db F} {t : Txn} {mid : List (Entry F)} {e : Entry F} :
      (∀ e ∈ mid, Inside e.call) → (¬ ∃ e ∈ mid, fatal e) → e.call.resolves = some t →
        ¬ CommitFailed e →
      Course fatal (⟨db, .txnBegin, .ok t⟩ :: (mid ++ [e]))
  | again {db db' : Db F} {t : Txn} {mid post : List (Entry F)} {err : DbError} :
      (∀ e ∈ mid, Inside e.call) → (∃ e ∈ post, e.call.resolves = some t) →
      Course fatal (⟨db, .txnBegin, .ok t⟩ :: (mid ++ ⟨db', .commit t, .error err⟩ :: post))

theorem began_cons {db : Db F} {t t' : Txn} {tr : List (Entry F)}
    (htr : ∀ e ∈ tr, e.call ≠ .txnBegin) (h : Began t' (⟨db, .txnBegin, .ok t⟩ :: tr)) :
    t' = t := by
  obtain ⟨db', hmem⟩ := h
  rcases List.mem_cons.mp hmem with heq | hmem
  · cases heq
    rfl
  · exact absurd rfl (htr _ hmem)

theorem not_resolvedOnce_of_unresolved {db : Db F} {t : Txn} {tr : List (Entry F)}
    (h : ∀ e ∈ tr, e.call.resolves ≠ some t) : ¬ ResolvedOnce (⟨db, .txnBegin, .ok t⟩ :: tr) := by
  intro hres
  obtain ⟨pre, e, post, htr, he, -, -⟩ := hres t ⟨db, List.mem_cons_self⟩
  have hmem : e ∈ (⟨db, .txnBegin, .ok t⟩ : Entry F) :: tr := by simp [htr]
  rcases List.mem_cons.mp hmem with rfl | hmem
  · cases he
  · exact h e hmem he

/-- After the first call that ends the transaction there is another one. -/
theorem not_resolvedOnce_of_two {t : Txn} (pre : List (Entry F)) {post : List (Entry F)}
    {e : Entry F} (hbegan : Began t (pre ++ e :: post)) (he : e.call.resolves = some t)
    (hpost : ∃ e' ∈ post, e'.call.resolves = some t) : ¬ ResolvedOnce (pre ++ e :: post) := by
  intro hres
  obtain ⟨pre', e₁, post', htr, -, hpre', hpost'⟩ := hres t hbegan
  obtain ⟨e', hmem, he'⟩ := hpost
  rcases List.append_eq_append_iff.mp htr with ⟨m, rfl, hm⟩ | ⟨m, rfl, hm⟩
  · cases m with
    | nil =>
      cases hm
      exact hpost' e' hmem (DbCall.handle_of_resolves he')
    | cons x m =>
      cases hm
      exact hpre' e (by simp) he
  · cases m with
    | nil =>
      cases hm
      exact hpost' e' hmem (DbCall.handle_of_resolves he')
    | cons x m =>
      cases hm
      exact hpost' e' (by simp [hmem]) (DbCall.handle_of_resolves he')

theorem Course.resolvedOnce_iff {fatal : Entry F → Prop} (hfatal : ∀ e, fatal e → Inside e.call)
    {tr : List (Entry F)} (h : Course fatal tr) :
    ResolvedOnce tr ↔ ∀ e ∈ tr, ¬ CommitFailed e ∧ ¬ fatal e := by
  have hnot : ∀ {e : Entry F}, ¬ Inside e.call → ¬ fatal e := fun hin hf => hin (hfatal _ hf)
  have hbegin : ∀ (db : Db F) (a : Except DbError Txn), ¬ CommitFailed ⟨db, .txnBegin, a⟩ ∧
    ¬ fatal ⟨db, .txnBegin, a⟩ :=
    fun db a => ⟨by simp [CommitFailed], hnot (by simp [Inside])⟩
  cases h with
  | notBegun =>
    refine iff_of_true ?_ (by simpa using hbegin _ _)
    rintro t ⟨db', hmem⟩
    cases List.mem_singleton.mp hmem
  | crashed hin hf =>
    obtain ⟨e, he, hfe⟩ := hf
    refine iff_of_false (not_resolvedOnce_of_unresolved fun e he => ?_) fun hno =>
      (hno e (List.mem_cons_of_mem _ he)).2 hfe
    simp [(hin e he).2]
  | @resolved db t mid e hin hf he hc =>
    have hends : ¬ Inside e.call := fun hin => by simp [hin.2] at he
    refine iff_of_true ?_ ?_
    · intro t' hbegan
      obtain rfl : t' = t := by
        refine began_cons (fun e' he' => ?_) hbegan
        rcases List.mem_append.mp he' with he' | he'
        · exact (hin e' he').1
        · rw [List.mem_singleton.mp he']
          intro hcall
          rw [hcall] at he
          cases he
      refine ⟨⟨db, .txnBegin, .ok t'⟩ :: mid, e, [], by simp, he, ?_, by simp⟩
      intro e' he'
      rcases List.mem_cons.mp he' with rfl | he'
      · simp [DbCall.resolves]
      · simp [(hin e' he').2]
    · intro e' he'
      rcases List.mem_cons.mp he' with rfl | he'
      · exact hbegin _ _
      · rcases List.mem_append.mp he' with he' | he'
        · exact ⟨not_commitFailed_of_inside (hin e' he'), fun hfe => hf ⟨e', he', hfe⟩⟩
        · rw [List.mem_singleton.mp he']
          exact ⟨hc, hnot hends⟩
  | @again db db' t mid post err hin hpost =>
    refine iff_of_false ?_ fun hno => ?_
    · exact not_resolvedOnce_of_two (⟨db, .txnBegin, .ok t⟩ :: mid)
        ⟨db, List.mem_cons_self⟩ rfl hpost
    · exact (hno ⟨db', .commit t, .error err⟩ (by simp)).1 ⟨⟨t, rfl⟩, err, rfl⟩

/-! ## Runs -/

section Runs
variable {h : (c : Call F) → Session F → Option (Answer c × Session F)}
variable {fatal : Entry F → Prop} {s s' : Session F}

theorem run_outline {p : DbProgram F α} {P : Session F → Prop} {Q : Outcome α → Session F → Prop}
    {o : Outcome α} (hh : Records h) (he : Exec h p s o s') (hp : Outline anyAnswer p P Q)
    (hs : P s) : Q o s' :=
  (Outline.exec (E := anyAnswer) (π := id) (J := fun _ => True) (fun c s a s' ha => hh c s a s' ha)
    (fun _ _ _ _ _ _ _ => trivial) he hp hs trivial).1

theorem Quiet.stretch {t : Txn} {p : DbProgram F α} {o : Outcome α} (hp : Quiet t fatal p)
    (hh : Records h) (he : Exec h p s o s') : Stretch fatal s (o = .crashed) s' :=
  run_outline hh he (hp.outline s) (Stretch.refl not_false)

theorem applyItems_quiet {t : Txn} {apply : α → Txn → DbProgram F Rc}
    (happly : ∀ item, Quiet t fatal (apply item t)) (items : List α) :
    Quiet t fatal (applyItems apply items t) := by
  induction items with
  | nil => exact Quiet.pure _
  | cons item items ih =>
    refine (happly item).bind fun rc => ?_
    split
    · exact ih
    · exact Quiet.pure _

theorem startXact_cases {txnName : String} {o : Outcome (Option Txn)} (hh : Records h)
    (he : Exec h (startXact txnName) s o s') :
    (∃ err, o = .value none ∧ s'.trace = s.trace ++ [⟨s.db, .txnBegin, .error err⟩]) ∨
    (∃ t db err e, o = .value none ∧ e.call = .abort t ∧
      s'.trace = s.trace ++ [⟨s.db, .txnBegin, .ok t⟩, ⟨db, .setName t txnName, .error err⟩, e]) ∨
    (∃ t db, o = .value (some t) ∧
      s'.trace = s.trace ++ [⟨s.db, .txnBegin, .ok t⟩, ⟨db, .setName t txnName, .ok ()⟩]) := by
  obtain ⟨a, s₁, -, htr, he⟩ := call_bind_cases hh he
  cases a with
  | error err =>
    obtain ⟨rfl, rfl⟩ := he.pure_cases
    exact .inl ⟨err, rfl, htr⟩
  | ok t =>
    obtain ⟨a, s₂, -, htr', he⟩ := call_bind_cases hh he
    cases a with
    | ok _ =>
      obtain ⟨rfl, rfl⟩ := he.pure_cases
      refine .inr (.inr ⟨t, s₁.db, rfl, ?_⟩)
      rw [htr', htr, List.append_assoc]
      rfl
    | error err =>
      obtain ⟨a, s₃, -, htr'', he⟩ := call_bind_cases hh he
      obtain ⟨rfl, rfl⟩ := he.pure_cases
      refine .inr (.inl ⟨t, s₁.db, err, ⟨s₂.db, .abort t, a⟩, rfl, rfl, ?_⟩)
      rw [htr'', htr', htr, List.append_assoc, List.append_assoc]
      rfl

theorem commitXact_cases {t : Txn} {o : Outcome Rc} (hh : Records h)
    (he : Exec h (commitXact t) s o s') : (o = .value BENCHMARK_SUCCESS ∧
      s'.trace = s.trace ++ [⟨s.db, .commit t, .ok ()⟩]) ∨
    (∃ err db a, o = .value BENCHMARK_FAIL ∧
      s'.trace = s.trace ++ [⟨s.db, .commit t, .error err⟩, ⟨db, .abort t, a⟩]) := by
  obtain ⟨a, s₁, -, htr, he⟩ := call_bind_cases hh he
  cases a with
  | ok _ =>
    obtain ⟨rfl, rfl⟩ := he.pure_cases
    exact .inl ⟨rfl, htr⟩
  | error err =>
    obtain ⟨a, s₂, -, htr', he⟩ := call_bind_cases hh he
    obtain ⟨rfl, rfl⟩ := he.pure_cases
    refine .inr ⟨err, s₁.db, a, rfl, ?_⟩
    rw [htr', htr, List.append_assoc]
    rfl

theorem abandon_cases {t : Txn} {o : Outcome Rc} (hh : Records h) (he : Exec h (abandon t) s o s') :
    ∃ a, o = .value BENCHMARK_FAIL ∧ s'.trace = s.trace ++ [⟨s.db, .abort t, a⟩] := by
  obtain ⟨a, s₁, -, htr, he⟩ := call_bind_cases hh he
  obtain ⟨rfl, rfl⟩ := he.pure_cases
  exact ⟨a, rfl, htr⟩

theorem startXact_not_crashed {txnName : String} (hh : Records h) :
    ¬ Exec h (startXact txnName) s .crashed s' := by
  intro he
  rcases startXact_cases hh he with ⟨_, ho, -⟩ | ⟨_, _, _, _, ho, -⟩ | ⟨_, _, ho, -⟩ <;> cases ho

/-- What follows on the items: a commit, a commit that fails with two aborts, or an abort. -/
inductive Closing (t : Txn) : Rc → List (Entry F) → Outcome Rc → Prop
  | committed {db : Db F} :
      Closing t BENCHMARK_SUCCESS [⟨db, .commit t, .ok ()⟩] (.value BENCHMARK_SUCCESS)
  | again {db db' db'' : Db F} {err : DbError} {a a' : Except DbError Unit} :
      Closing t BENCHMARK_SUCCESS
        [⟨db, .commit t, .error err⟩, ⟨db', .abort t, a⟩, ⟨db'', .abort t, a'⟩]
        (.value BENCHMARK_FAIL)
  | abandoned {db : Db F} {a : Except DbError Unit} {rc : Rc} :
      Closing t rc [⟨db, .abort t, a⟩] (.value BENCHMARK_FAIL)

/-- All that a transaction over items can do, read off once. -/
theorem inXact_cases {txnName : String} {apply : α → Txn → DbProgram F Rc} {items : List α}
    {o : Outcome Rc} (hh : Records h) (he : Exec h (inXact txnName apply items) s o s') :
    (∃ err, o = .value BENCHMARK_FAIL ∧
      s'.trace = s.trace ++ [⟨s.db, .txnBegin, .error err⟩]) ∨
    (∃ t db err e, o = .value BENCHMARK_FAIL ∧ e.call = .abort t ∧
      s'.trace = s.trace ++ [⟨s.db, .txnBegin, .ok t⟩, ⟨db, .setName t txnName, .error err⟩, e]) ∨
    ∃ t db s₁, s₁.trace = s.trace ++
        [⟨s.db, .txnBegin, .ok t⟩, ⟨db, .setName t txnName, .ok ()⟩] ∧
      ((o = .crashed ∧ Exec h (applyItems apply items t) s₁ .crashed s') ∨
        ∃ rc s₂ post, Exec h (applyItems apply items t) s₁ (.value rc) s₂ ∧
          Closing t rc post o ∧ s'.trace = s₂.trace ++ post) := by
  rcases he.bind_cases with ⟨x, s₁, hstart, he⟩ | ⟨-, hcrash⟩
  · rcases startXact_cases hh hstart with ⟨err, hx, htr⟩ | ⟨t, db, err, e, hx, hcall, htr⟩ |
      ⟨t, db, hx, htr⟩
    · cases hx
      obtain ⟨rfl, rfl⟩ := he.pure_cases
      exact Or.inl ⟨err, rfl, htr⟩
    · cases hx
      obtain ⟨rfl, rfl⟩ := he.pure_cases
      exact Or.inr (Or.inl ⟨t, db, err, e, rfl, hcall, htr⟩)
    · cases hx
      refine Or.inr (Or.inr ⟨t, db, s₁, htr, ?_⟩)
      rcases he.bind_cases with ⟨rc, s₂, hitems, he⟩ | ⟨rfl, hcrash⟩
      · refine Or.inr ⟨rc, s₂, ?_⟩
        split at he
        · rename_i hrc
          subst hrc
          rcases he.bind_cases with ⟨rc, s₃, hcommit, he⟩ | ⟨-, hcrash⟩
          · rcases commitXact_cases hh hcommit with ⟨hrc, hctr⟩ | ⟨err, db', a, hrc, hctr⟩
            · cases hrc
              obtain ⟨rfl, rfl⟩ := he.pure_cases
              exact ⟨_, hitems, .committed, hctr⟩
            · cases hrc
              obtain ⟨a', rfl, htr'⟩ := abandon_cases hh he
              exact ⟨_, hitems, .again, by rw [htr', hctr, List.append_assoc]; rfl⟩
          · rcases commitXact_cases hh hcrash with ⟨ho, -⟩ | ⟨_, _, _, ho, -⟩ <;> cases ho
        · obtain ⟨a, rfl, htr'⟩ := abandon_cases hh he
          exact ⟨_, hitems, .abandoned, htr'⟩
      · exact Or.inl ⟨rfl, hcrash⟩
  · exact absurd hcrash (startXact_not_crashed hh)

/-- The entry of `set_name` together with what the items do. -/
theorem inside_setName_cons {db : Db F} {t : Txn} {txnName : String}
    {a : Except DbError (DbCall.setName t txnName : DbCall F).Payload} {mid : List (Entry F)}
    (h : ∀ e ∈ mid, Inside e.call) : ∀ e ∈ ⟨db, .setName t txnName, a⟩ :: mid, Inside e.call :=
  List.forall_mem_cons.mpr ⟨⟨by simp, rfl⟩, h⟩

theorem fatal_setName_cons {db : Db F} {t : Txn} {txnName : String}
    {a : Except DbError (DbCall.setName t txnName : DbCall F).Payload} {mid : List (Entry F)}
    (hf : Harmless fatal) : (∃ e ∈ ⟨db, .setName t txnName, a⟩ :: mid, fatal e) ↔
      ∃ e ∈ mid, fatal e := by
  rw [List.exists_mem_cons_iff]
  exact or_iff_right (hf (.setName t txnName) (by simp) db a)

theorem made_mem {L : Language (Made F)} {mid : List (Entry F)} (hgrows : Grows madeSoFar L s s')
    (htr : s'.trace = s.trace ++ mid) : mid.map Made.of ∈ L := by
  obtain ⟨w, hw, hmade⟩ := hgrows
  rw [madeSoFar, htr, List.map_append] at hmade
  exact List.append_cancel_left hmade ▸ hw

def Concluded (opening items : Txn → Language (Made F)) (o : Outcome Rc)
    (tr : List (Entry F)) : Prop :=
  (o = .value BENCHMARK_SUCCESS ∧ ∃ t,
    tr.map Made.of ∈ opening t * (items t * one (did (.commit t) ()))) ∨
  (o ≠ .value BENCHMARK_SUCCESS ∧ ∀ e ∈ tr, ¬ CommitDone e)

def opened (txnName : String) (t : Txn) : Language (Made F) :=
  one (did .txnBegin t) * one (did (.setName t txnName) ())

theorem not_commitDone_begun {db : Db F} {a : Except DbError Txn} {mid post : List (Entry F)}
    (hin : ∀ e ∈ mid, Inside e.call) (hpost : ∀ e ∈ post, ¬ CommitDone e) :
    ∀ e ∈ (⟨db, .txnBegin, a⟩ : Entry F) :: (mid ++ post), ¬ CommitDone e := by
  refine List.forall_mem_cons.mpr ⟨not_commitDone (by simp), ?_⟩
  exact List.forall_mem_append.mpr ⟨fun e he => not_commitDone_of_inside (hin e he), hpost⟩

theorem not_commitDone_abort {db : Db F} {t : Txn} {a : Except DbError Unit} :
    ¬ CommitDone (⟨db, .abort t, a⟩ : Entry F) := not_commitDone (by simp)

theorem not_commitDone_failed {db : Db F} {t : Txn} {err : DbError} :
    ¬ CommitDone (⟨db, .commit t, .error err⟩ : Entry F) := by
  rintro ⟨t', ht'⟩
  cases ht'

theorem Closing.course {db : Db F} {t : Txn} {rc : Rc} {mid post : List (Entry F)} {o : Outcome Rc}
    (hclosing : Closing t rc post o) (hin : ∀ e ∈ mid, Inside e.call)
    (hno : ¬ ∃ e ∈ mid, fatal e) : Course fatal (⟨db, .txnBegin, .ok t⟩ :: (mid ++ post)) := by
  cases hclosing with
  | committed => exact .resolved hin hno rfl (by simp [CommitFailed, Entry.Failed])
  | @again _ _ db'' _ _ a' => exact .again hin ⟨⟨db'', .abort t, a'⟩, by simp, rfl⟩
  | abandoned => exact .resolved hin hno rfl (by simp [CommitFailed])

theorem Closing.cases_commit {t : Txn} {rc : Rc} {post : List (Entry F)} {o : Outcome Rc}
    (hclosing : Closing t rc post o) :
    (o = .value BENCHMARK_SUCCESS ∧ rc = BENCHMARK_SUCCESS ∧
      post.map Made.of ∈ one (did (.commit t) ())) ∨
    (o ≠ .value BENCHMARK_SUCCESS ∧ ∀ e ∈ post, ¬ CommitDone e) := by
  cases hclosing with
  | committed => exact Or.inl ⟨rfl, rfl, rfl⟩
  | again =>
    refine Or.inr ⟨by simp, List.forall_mem_cons.mpr ⟨not_commitDone_failed, ?_⟩⟩
    exact List.forall_mem_cons.mpr
      ⟨not_commitDone_abort, List.forall_mem_singleton.mpr not_commitDone_abort⟩
  | abandoned => exact Or.inr ⟨by simp, List.forall_mem_singleton.mpr not_commitDone_abort⟩

theorem inXact_course {txnName : String} {apply : α → Txn → DbProgram F Rc} {items : List α}
    {o : Outcome Rc} {does : Txn → α → Language (Made F)} {ignored : Made F → Prop} (hh : Records h)
    (hf : Harmless fatal) (happly : ∀ t item, Quiet t fatal (apply item t))
    (hdoes : ∀ t item s s', Exec h (apply item t) s (.value BENCHMARK_SUCCESS) s' →
      Grows madeSoFar (does t item + containing ignored) s s')
    (he : Exec h (inXact txnName apply items) s o s') :
    ∃ tr, s'.trace = s.trace ++ tr ∧ Course fatal tr ∧
      Concluded (opened txnName)
        (fun t => (items.map (does t)).prod + containing ignored) o tr := by
  rcases inXact_cases hh he with ⟨err, rfl, htr⟩ | ⟨t, db, err, e, rfl, hcall, htr⟩ |
    ⟨t, db, s₁, htr, hrest⟩
  · refine ⟨_, htr, .notBegun, Or.inr ⟨by simp, ?_⟩⟩
    exact List.forall_mem_singleton.mpr (not_commitDone (by simp))
  · have hno : ¬ ∃ e ∈ [(⟨db, .setName t txnName, .error err⟩ : Entry F)], fatal e := fun h => by
      obtain ⟨_, hmem, _⟩ := (fatal_setName_cons hf).mp h
      cases hmem
    have hcourse := @Course.resolved F fatal s.db t [⟨db, .setName t txnName, .error err⟩] e
      (inside_setName_cons (by simp)) hno (by rw [hcall]; rfl)
        (fun h => by simp [CommitFailed, hcall] at h)
    have hnone := @not_commitDone_begun F s.db (.ok t) [⟨db, .setName t txnName, .error err⟩] [e]
      (inside_setName_cons (by simp))
      (List.forall_mem_singleton.mpr (not_commitDone (by simp [hcall])))
    exact ⟨_, htr, hcourse, Or.inr ⟨by simp, hnone⟩⟩
  · rcases hrest with ⟨rfl, hcrash⟩ | ⟨rc, s₂, post, hitems, hclosing, htr'⟩
    · obtain ⟨mid, hmid, hin, hnone⟩ := (applyItems_quiet (happly t) items).stretch hh hcrash
      have hcourse : Course fatal
        (⟨s.db, .txnBegin, .ok t⟩ :: ⟨db, .setName t txnName, .ok ()⟩ :: mid) :=
        .crashed (inside_setName_cons hin) ((fatal_setName_cons hf).mpr (hnone.mp rfl))
      have hnocommit := @not_commitDone_begun F s.db (.ok t)
        (⟨db, .setName t txnName, .ok ()⟩ :: mid) [] (inside_setName_cons hin) (by simp)
      rw [List.append_nil] at hnocommit
      exact ⟨_, by rw [hmid, htr, List.append_assoc]; rfl, hcourse, Or.inr ⟨by simp, hnocommit⟩⟩
    · obtain ⟨mid, hmid, hin, hnone⟩ := (applyItems_quiet (happly t) items).stretch hh hitems
      have hno : ¬ ∃ e ∈ ⟨db, .setName t txnName, .ok ()⟩ :: mid, fatal e := fun h => by
        cases hnone.mpr ((fatal_setName_cons hf).mp h)
      refine ⟨⟨s.db, .txnBegin, .ok t⟩ :: (⟨db, .setName t txnName, .ok ()⟩ :: mid ++ post), ?_,
        hclosing.course (inside_setName_cons hin) hno, ?_⟩
      · rw [htr', hmid, htr, List.append_assoc, List.append_assoc]
        rfl
      · rcases hclosing.cases_commit with ⟨rfl, rfl, hcommit⟩ | ⟨ho, hpost⟩
        · have hmade := made_mem (applyItems_success (hdoes t) hitems) hmid
          have hword := Language.append_mem_mul
            (show _ ∈ opened txnName t from Language.append_mem_mul rfl rfl)
            (Language.append_mem_mul hmade hcommit)
          exact Or.inl ⟨rfl, t, by simpa [Made.of, did] using hword⟩
        · exact Or.inr ⟨ho, not_commitDone_begun (inside_setName_cons hin) hpost⟩

theorem commitXact_ends {t : Txn} (faults : Faults) (hs : s.db.Alone t) :
    wp (Session.answer t faults) (commitXact t) s fun _ s' => s'.db.Alone t := by
  refine wp_bind'.mpr (wp_dbCall hs (by simp [DbCall.handle]) fun a db _ halone => ?_)
  cases a with
  | ok _ => exact wp_pure.mpr halone
  | error _ =>
    exact wp_bind'.mpr (wp_dbCall halone (by simp [DbCall.handle]) fun _ _ _ halone' =>
      wp_pure.mpr halone')

theorem abandon_ends {t : Txn} (faults : Faults) (hs : s.db.Alone t) :
    wp (Session.answer t faults) (abandon t) s fun _ s' => s'.db.Alone t :=
  wp_bind'.mpr (wp_dbCall hs (by simp [DbCall.handle]) fun _ _ _ halone => wp_pure.mpr halone)

theorem begin_handle {t : Txn} {fault : Option DbError} {db db' : Db F} {a : Except DbError Txn}
    (h : db.exec t fault .txnBegin = some (a, db')) {t' : Txn} (ha : a = .ok t') : t' = t := by
  cases fault <;> cases h <;> cases ha
  rfl

/-- Whatever fails, a transaction of a thread that is alone comes to an end. -/
theorem inXact_ends {txnName : String} {apply : α → Txn → DbProgram F Rc} {items : List α} {t : Txn}
    (faults : Faults) (happly : ∀ item, Quiet t fatal (apply item t)) (hs : s.db.Alone t) :
    wp (Session.answer t faults) (inXact txnName apply items) s fun _ s' => s'.db.Alone t := by
  have hstart : wp (Session.answer t faults) (startXact txnName) s fun o s' =>
      s'.db.Alone t ∧ ∀ t', o = .value (some t') → t' = t := by
    refine wp_bind'.mpr (wp_dbCall hs (by simp [DbCall.handle]) fun a db hexec halone => ?_)
    cases a with
    | error _ => exact wp_pure.mpr ⟨halone, by simp⟩
    | ok t' =>
      obtain rfl := begin_handle hexec rfl
      refine wp_bind'.mpr (wp_dbCall halone (fun _ h => (Option.some.inj h).symm)
        fun a _ _ halone' => ?_)
      cases a with
      | ok _ => exact wp_pure.mpr ⟨halone', fun _ h => by cases h; rfl⟩
      | error _ =>
        refine wp_bind'.mpr (wp_dbCall halone' (fun _ h => (Option.some.inj h).symm)
          fun _ _ _ halone'' => ?_)
        exact wp_pure.mpr ⟨halone'', by simp⟩
  refine wp_bind'.mpr (wp_mono hstart ?_)
  rintro ((_ | t') | _) s₁ ⟨halone, ht⟩
  · exact wp_pure.mpr halone
  · obtain rfl := ht t' rfl
    refine wp_bind'.mpr (wp_mono ((applyItems_quiet happly items).ends faults s₁ halone) ?_)
    rintro (rc | _) s₂ halone'
    · by_cases hrc : rc = BENCHMARK_SUCCESS
      · simp only [after, if_pos hrc]
        refine wp_bind'.mpr (wp_mono (commitXact_ends faults halone') ?_)
        rintro (rc' | _) s₃ halone''
        · by_cases hrc' : rc' = BENCHMARK_SUCCESS
          · simpa only [after, if_pos hrc'] using wp_pure.mpr halone''
          · simpa only [after, if_neg hrc'] using abandon_ends faults halone''
        · exact halone''
      · simpa only [after, if_neg hrc] using abandon_ends faults halone'
    · exact halone'
  · exact halone

/-! ## update_stock -/

/-- Under its own transaction `failXit` closes the cursor it finds and aborts. -/
theorem failOwn_cases {t : Txn} {cursorp : Option CursorId} {o : Outcome Rc} (hh : Records h)
    (he : Exec h (failOwn none t cursorp) s o s') :
    ∃ mid db a, (∀ e ∈ mid, Inside e.call) ∧ o = .value BENCHMARK_FAIL ∧
      s'.trace = s.trace ++ (mid ++ [⟨db, .abort t, a⟩]) := by
  cases cursorp with
  | none =>
    obtain ⟨a, s₁, -, htr, he⟩ := call_bind_cases hh he
    obtain ⟨rfl, rfl⟩ := he.pure_cases
    exact ⟨[], s.db, a, by simp, rfl, htr⟩
  | some c =>
    obtain ⟨r, s₁, -, htr, he⟩ := call_bind_cases hh he
    obtain ⟨a, s₂, -, htr', he⟩ := call_bind_cases hh he
    obtain ⟨rfl, rfl⟩ := he.pure_cases
    refine ⟨[⟨s.db, .close c, r⟩], s₁.db, a, ?_, rfl, ?_⟩
    · exact List.forall_mem_singleton.mpr ⟨by simp, rfl⟩
    · rw [htr', htr, List.append_assoc]

theorem failOwn_ends {t : Txn} {cursorp : Option CursorId} (faults : Faults) (hs : s.db.Alone t) :
    wp (Session.answer t faults) (failOwn none t cursorp) s fun _ s' => s'.db.Alone t := by
  refine wp_bind'.mpr
    (wp_mono ((quiet_closeIfOpen harmless_neverFatal cursorp).ends faults s hs) ?_)
  rintro (a | _) s₁ halone
  · exact wp_bind'.mpr (wp_dbCall halone (by simp [DbCall.handle]) fun _ _ _ halone' =>
      wp_pure.mpr halone')
  · exact halone

variable [CFloat F]

theorem updateStock_course {symbol : CStr} {newValue : F} {ignored : Made F → Prop} {o : Outcome Rc}
    (hh : Records h) (he : Exec h (updateStock symbol newValue) s o s') :
    ∃ tr, s'.trace = s.trace ++ tr ∧ Course NeverFatal tr ∧
      Concluded (fun t => one (did .txnBegin t))
        (fun t => quoteRewritten symbol newValue t + containing ignored) o tr := by
  obtain ⟨a, s₁, -, htr, he⟩ := call_bind_cases hh he
  cases a with
  | error err =>
    obtain ⟨rfl, rfl⟩ := he.pure_cases
    refine ⟨_, htr, .notBegun, Or.inr ⟨by simp, ?_⟩⟩
    exact List.forall_mem_singleton.mpr (not_commitDone (by simp))
  | ok t =>
    rcases he.bind_cases with ⟨r, s₂, hrewrite, he⟩ | ⟨-, hcrash⟩
    · obtain ⟨mid, hmid, hin, -⟩ := (quiet_rewriteQuote symbol newValue).stretch hh hrewrite
      cases r with
      | error cursorp =>
        obtain ⟨mid', db, a, hin', rfl, htr'⟩ := failOwn_cases hh he
        have hin'' : ∀ e ∈ mid ++ mid', Inside e.call := List.forall_mem_append.mpr ⟨hin, hin'⟩
        have hcourse : Course NeverFatal
          (⟨s.db, .txnBegin, .ok t⟩ :: (mid ++ mid' ++ [⟨db, .abort t, a⟩])) :=
          .resolved hin'' (by simp [NeverFatal]) rfl (by simp [CommitFailed])
        refine ⟨_, ?_, hcourse, Or.inr ⟨by simp, not_commitDone_begun hin'' ?_⟩⟩
        · rw [htr', hmid, htr]
          simp
        · exact List.forall_mem_singleton.mpr not_commitDone_abort
      | ok _ =>
        obtain ⟨a, s₃, -, htr', he⟩ := call_bind_cases hh he
        cases a with
        | ok _ =>
          obtain ⟨rfl, rfl⟩ := he.pure_cases
          have hcourse : Course NeverFatal
            (⟨s.db, .txnBegin, .ok t⟩ :: (mid ++ [⟨s₂.db, .commit t, .ok ()⟩])) :=
            .resolved hin (by simp [NeverFatal]) rfl (by simp [CommitFailed, Entry.Failed])
          have hmade := made_mem (rewriteQuote_ok hh hrewrite) hmid
          refine ⟨_, ?_, hcourse, Or.inl ⟨rfl, t, ?_⟩⟩
          · rw [htr', hmid, htr, List.append_assoc, List.append_assoc]
            rfl
          · have hword := Language.append_mem_mul (show _ ∈ one (did .txnBegin t) from rfl)
              (Language.append_mem_mul (show _ ∈ _ + containing ignored from Or.inl hmade)
                (show _ ∈ one (did (.commit t) ()) from rfl))
            simpa [Made.of, did] using hword
        | error err =>
          obtain ⟨mid', db, a, hin', rfl, htr''⟩ := failOwn_cases hh he
          have hcourse : Course NeverFatal (⟨s.db, .txnBegin, .ok t⟩ :: (mid ++
              ⟨s₂.db, .commit t, .error err⟩ :: (mid' ++ [⟨db, .abort t, a⟩]))) :=
            .again hin ⟨⟨db, .abort t, a⟩, by simp, rfl⟩
          refine ⟨_, ?_, hcourse, Or.inr ⟨by simp, not_commitDone_begun hin ?_⟩⟩
          · rw [htr'', htr', hmid, htr]
            simp
          · refine List.forall_mem_cons.mpr ⟨not_commitDone_failed, List.forall_mem_append.mpr ⟨?_, ?_⟩⟩
            · exact fun e he => not_commitDone_of_inside (hin' e he)
            · exact List.forall_mem_singleton.mpr not_commitDone_abort
    · obtain ⟨mid, -, -, hcrash⟩ := (quiet_rewriteQuote symbol newValue).stretch hh hcrash
      obtain ⟨_, _, hfatal⟩ := hcrash.mp rfl
      exact hfatal.elim

theorem updateStock_ends {symbol : CStr} {newValue : F} {t : Txn} (faults : Faults)
    (hs : s.db.Alone t) :
    wp (Session.answer t faults) (updateStock symbol newValue) s fun _ s' => s'.db.Alone t := by
  refine wp_bind'.mpr (wp_dbCall hs (by simp [DbCall.handle]) fun a db hexec halone => ?_)
  cases a with
  | error _ => exact wp_pure.mpr halone
  | ok t' =>
    obtain rfl := begin_handle hexec rfl
    refine wp_bind'.mpr (wp_mono ((quiet_rewriteQuote symbol newValue).ends faults _ halone) ?_)
    rintro ((c | _) | _) s₁ halone'
    · exact failOwn_ends faults halone'
    · refine wp_bind'.mpr (wp_dbCall halone' (fun _ h => (Option.some.inj h).symm)
        fun a _ _ halone'' => ?_)
      cases a with
      | ok _ => exact wp_pure.mpr halone''
      | error _ => exact failOwn_ends faults halone''
    · exact halone'

end Runs

/-! ## All transactions -/

section All
variable (h : (c : Call F) → Session F → Option (Answer c × Session F))

def Transaction.Fatal : Transaction F → Entry F → Prop
  | .purchase _ => CursorRefused
  | .sell _ => CursorRefused
  | .viewStock _ => NeverFatal
  | .viewPortfolio _ => NeverFatal
  | .updateStock _ _ => NeverFatal

theorem fatal_inside (x : Transaction F) (e : Entry F) (he : x.Fatal e) : Inside e.call := by
  have hcursor : CursorRefused e → Inside e.call := by
    rintro ⟨⟨t, ht⟩, -⟩
    rw [ht]
    exact ⟨by simp, rfl⟩
  cases x
  · exact hcursor he
  · exact hcursor he
  all_goals exact False.elim he

/-- The failures that do not keep the function from returning success. -/
def Transaction.Ignored : Transaction F → Made F → Prop
  | .purchase _ => WalkBroken
  | .viewPortfolio _ => ViewBroken
  | .sell _ => fun _ => False
  | .viewStock _ => fun _ => False
  | .updateStock _ _ => fun _ => False

theorem ignored_viewBroken (x : Transaction F) {m : Made F} (hm : x.Ignored m) : ViewBroken m := by
  cases x with
  | purchase data => exact WalkBroken.viewBroken hm
  | viewPortfolio accountList => exact hm
  | _ => exact hm.elim

def Transaction.opening : Transaction F → Txn → Language (Made F)
  | .purchase _ => opened "PURCHASE_TXN"
  | .sell _ => opened "SELL_TXN"
  | .viewStock _ => opened "VIEW_STOCK_TXN"
  | .viewPortfolio _ => opened "VIEW_PORTFOLIO_TXN"
  | .updateStock _ _ => fun t => one (did .txnBegin t)

theorem smooth_opening (x : Transaction F) (t : Txn) : Smooth (x.opening t) := by
  cases x with
  | updateStock symbol newValue => exact smooth_did _ _
  | _ => exact (smooth_did _ _).mul (smooth_did _ _)

variable [CFloat F]

/-- The items one after the other, each with the calls that it must have made. -/
def Transaction.applied : Transaction F → Txn → Language (Made F)
  | .purchase data => fun t => (data.map (purchaseApplied t)).prod
  | .sell data => fun t => (data.map (saleApplied t)).prod
  | .viewStock symbolList => fun t => (symbolList.map (quoteShown t)).prod
  | .viewPortfolio accountList => fun t => (accountList.map (portfoliosShown t)).prod
  | .updateStock symbol newValue => quoteRewritten symbol newValue

/-- The transaction began, all its items were applied, and its commit, the last call, returned 0. -/
def Transaction.Committed (x : Transaction F) (calls : List (Made F)) : Prop :=
  ∃ t, calls ∈ x.opening t * (x.applied t * one (did (.commit t) ()))

theorem smooth_applied (x : Transaction F) (t : Txn) : Smooth (x.applied t) := by
  cases x with
  | purchase data => exact forall_mem_prod (smooth_purchaseApplied t) data
  | sell data => exact forall_mem_prod (smooth_saleApplied t) data
  | viewStock symbolList => exact forall_mem_prod (smooth_quoteShown t) symbolList
  | viewPortfolio accountList => exact forall_mem_prod (smooth_portfoliosShown t) accountList
  | updateStock symbol newValue => exact smooth_quoteRewritten symbol newValue t

theorem Transaction.Committed.not_ignored {x : Transaction F} {calls : List (Made F)}
    (hx : x.Committed calls) : ∀ m ∈ calls, ¬ x.Ignored m := by
  obtain ⟨t, ht⟩ := hx
  have hsmooth := (smooth_opening x t).mul ((smooth_applied x t).mul (smooth_did (.commit t) ()))
  exact fun m hm hignored => hsmooth calls ht m hm (ignored_viewBroken x hignored)

variable {h}

theorem Transaction.course (x : Transaction F) {s s' : Session F} {o : Outcome Rc} (hh : Records h)
    (he : Exec h x.run s o s') : ∃ tr, s'.trace = s.trace ++ tr ∧ Course x.Fatal tr ∧
      Concluded x.opening (fun t => x.applied t + containing x.Ignored) o tr := by
  have hf : Harmless (CursorRefused : Entry F → Prop) := harmless_cursorRefused
  cases x with
  | purchase data =>
    exact inXact_course hh hf (fun _ _ => quiet_placeOrder _ _ _ _ _)
      (fun _ _ _ _ => placeOrder_success hh) he
  | sell data =>
    exact inXact_course hh hf (fun _ _ => quiet_sellStocks _ _ _ _ _)
      (fun _ _ _ _ he => (sellStocks_success hh he).inl) he
  | viewStock symbolList =>
    exact inXact_course hh harmless_neverFatal (fun _ _ => quiet_showQuote _)
      (fun _ _ _ _ he => (showQuote_success hh he).inl) he
  | viewPortfolio accountList =>
    exact inXact_course hh harmless_neverFatal (fun _ _ => quiet_showPortfolios _ _)
      (fun _ _ _ _ => showPortfolios_success hh) he
  | updateStock symbol newValue => exact updateStock_course hh he

theorem Transaction.success_iff_committed (x : Transaction F) {o : Outcome Rc} {tr : List (Entry F)}
    (hends : Concluded x.opening (fun t => x.applied t + containing x.Ignored) o tr) :
    (o = .value BENCHMARK_SUCCESS ↔ x.Committed (tr.map Made.of)) ↔
      ((∃ e ∈ tr, CommitDone e) → ∀ e ∈ tr, ¬ x.Ignored (Made.of e)) := by
  have hcommit : ∀ {L : Language (Made F)} {t}, tr.map Made.of ∈ L * one (did (.commit t) ()) →
      ∃ e ∈ tr, CommitDone e := by
    intro L t hmem
    obtain ⟨y, -, z, rfl, hmade⟩ := Language.mem_mul.mp hmem
    obtain ⟨e, he, hmade⟩ :=
      List.mem_map.mp (hmade ▸ List.mem_append_right y (List.mem_singleton_self _))
    exact ⟨e, he, t, hmade⟩
  rcases hends with ⟨rfl, t, hmade⟩ | ⟨ho, hnone⟩
  · have hdone : ∃ e ∈ tr, CommitDone e := hcommit (by rwa [mul_assoc])
    constructor
    · intro hx _ e he
      exact (hx.mp rfl).not_ignored _ (List.mem_map_of_mem he)
    · intro hno
      refine iff_of_true rfl ⟨t, ?_⟩
      obtain ⟨x₁, hx₁, y, hy, hxy⟩ := Language.mem_mul.mp hmade
      obtain ⟨y₁, hy₁ | ⟨m, hm, hignored⟩, z, hz, rfl⟩ := Language.mem_mul.mp hy
      · exact hxy ▸ Language.append_mem_mul hx₁ (Language.append_mem_mul hy₁ hz)
      · obtain ⟨e, he, rfl⟩ :=
          List.mem_map.mp (hxy ▸ List.mem_append_right x₁ (List.mem_append_left z hm))
        exact absurd hignored (hno hdone e he)
  · refine iff_of_true (iff_of_false ho ?_) fun ⟨e, he, hdone⟩ => absurd hdone (hnone e he)
    rintro ⟨t, ht⟩
    obtain ⟨e, he, hdone⟩ := hcommit (show _ ∈ (x.opening t * x.applied t) * _ by rwa [mul_assoc])
    exact hnone e he hdone

theorem Transaction.ends (x : Transaction F) {t : Txn} (faults : Faults) {s : Session F}
    (hs : s.db.Alone t) : wp (Session.answer t faults) x.run s fun _ s' => s'.db.Alone t := by
  cases x with
  | purchase data => exact inXact_ends faults (fun _ => quiet_placeOrder _ _ _ _ _) hs
  | sell data => exact inXact_ends faults (fun _ => quiet_sellStocks _ _ _ _ _) hs
  | viewStock symbolList => exact inXact_ends faults (fun _ => quiet_showQuote _) hs
  | viewPortfolio accountList => exact inXact_ends faults (fun _ => quiet_showPortfolios _ _) hs
  | updateStock symbol newValue => exact updateStock_ends faults hs

/-- Whatever the answers are, a transaction is resolved once, and success returned exactly
for a commit after all items were applied, if and only if no commit failed, `get_portfolio`
got its cursors, and a transaction that committed ignored no failure. A thread that is
alone always comes to such an end or crashes. -/
theorem transaction_resolved_iff (x : Transaction F) :
    (∀ h : (c : Call F) → Session F → Option (Answer c × Session F), Records h →
      ∀ db o s', Exec h x.run ⟨db, []⟩ o s' →
        ((ResolvedOnce s'.trace ∧
          (o = .value BENCHMARK_SUCCESS ↔ x.Committed (s'.trace.map Made.of))) ↔
          (∀ e ∈ s'.trace, ¬ CommitFailed e ∧ ¬ x.Fatal e) ∧
            ((∃ e ∈ s'.trace, CommitDone e) → ∀ e ∈ s'.trace, ¬ x.Ignored (Made.of e)))) ∧
    ∀ t faults (db : Db F), db.Alone t →
      ∃ o s', Exec (Session.answer t faults) x.run ⟨db, []⟩ o s' := by
  refine ⟨fun h hh db o s' he => ?_, fun t faults db hdb => ?_⟩
  · obtain ⟨tr, htr, hcourse, hends⟩ := x.course hh he
    rw [List.nil_append] at htr
    rw [htr, hcourse.resolvedOnce_iff (fatal_inside x), x.success_iff_committed hends]
  · obtain ⟨o, s', he, -⟩ := x.ends faults (s := ⟨db, []⟩) hdb
    exact ⟨o, s', he⟩

end All

/-- Answered without an error, but for the end of a walk. -/
def Plain (e : Entry F) : Bool :=
  match e with
  | ⟨_, .portfoliosPgetNext _, .error .notFound⟩ => true
  | ⟨_, _, .ok _⟩ => true
  | _ => false

theorem unbroken_of_plain {e : Entry F} (he : Plain e = true) :
    ¬ CommitFailed e ∧ ¬ CursorRefused e ∧ ¬ WalkBroken (Made.of e) := by
  obtain ⟨db, c, a⟩ := e
  refine ⟨?_, ?_, ?_⟩
  · rintro ⟨⟨t, hcall⟩, err, hanswer⟩
    obtain rfl : c = .commit t := hcall
    obtain rfl : a = .error err := hanswer
    cases he
  · rintro ⟨⟨t, hcall⟩, err, hanswer⟩
    obtain rfl : c = .cursor .portfoliosSec t := hcall
    obtain rfl : a = .error err := hanswer
    cases he
  · intro hbroken
    unfold Made.of WalkBroken at hbroken
    split at hbroken
    · rename_i heq
      cases heq
      rename_i err
      cases err with
      | notFound => exact hbroken rfl
      | _ => cases he
    · exact hbroken

/-- Account 1 holds three stocks of B. It buys more of them, and stocks of C. -/
def twoPurchases : List (BenchmarkXactData ℚ) :=
  [⟨[49], [66], 25, 5, by decide, by decide⟩, ⟨[49], [67], 12, 4, by decide, by decide⟩]

def market : Db ℚ :=
  { Db.fresh [[49]] [[66], [67]]
    ((((LockTable.empty.write 0 [67] (10 : ℚ)).commit 0).write 0 [66] 20).commit 0) id with
    portfolios := (LockTable.empty.write 0 [48] ⟨[48], [49], [66], 3, 0, 0, 0, 0, 0, 0⟩).commit 0
    numberPortfolios := 1 }

theorem market_alone : market.Alone 1 where
  quotes k :=
    LockTable.not_locked_of_settled
      (LockTable.settled_commit_write (LockTable.settled_commit_write fun _ => rfl) k)
  portfolios k := LockTable.not_locked_of_settled (LockTable.settled_commit_write (fun _ => rfl) k)
  cursors := by simp [market, Db.fresh]

/-- The first item changes a record, the second one adds a record. -/
theorem transaction_resolved_purchase : ∃ s',
    Exec (Session.answer 1 noFaults) (Transaction.purchase twoPurchases).run ⟨market, []⟩
      (.value BENCHMARK_SUCCESS) s' ∧
      ResolvedOnce s'.trace ∧ (Transaction.purchase twoPurchases).Committed
        (s'.trace.map Made.of) := by
  obtain ⟨hresolved, hends⟩ := transaction_resolved_iff (Transaction.purchase twoPurchases)
  obtain ⟨o, s', he⟩ := hends 1 noFaults market market_alone
  have hrun : (Program.run (Session.answer 1 noFaults) 90 (Transaction.purchase twoPurchases).run
      ⟨market, []⟩).map
        (fun x => (match x.1 with
          | .value rc => some rc
          | .crashed => none, x.2.trace.all Plain)) = some (some BENCHMARK_SUCCESS, true) := by
    decide +kernel
  obtain ⟨⟨o', s''⟩, hs'', htest⟩ := Option.map_eq_some_iff.mp hrun
  obtain ⟨rfl, rfl⟩ := he.deterministic (Exec.of_run hs'')
  cases o with
  | crashed => cases htest
  | value rc =>
    simp only [Prod.mk.injEq, Option.some.injEq, List.all_eq_true] at htest
    obtain ⟨rfl, hplain⟩ := htest
    have hunbroken := fun e he => unbroken_of_plain (hplain e he)
    obtain ⟨honce, hsuccess⟩ := (hresolved _ records_answer _ _ _ he).mpr
      ⟨fun e he => ⟨(hunbroken e he).1, (hunbroken e he).2.1⟩, fun _ e he => (hunbroken e he).2.2⟩
    exact ⟨s', he, honce, hsuccess.mp rfl⟩

/-- The commit of a view fails. -/
theorem failed_commit_aborted_twice :
    ∃ s', Exec (Session.answer 1 fun i => if i = 5 then some .other else none)
      (benchmarkViewStock2 [[65]])
        ⟨Db.fresh [] [[65]] ((LockTable.empty.write 0 [65] (10 : ℚ)).commit 0) id, []⟩
          (.value BENCHMARK_FAIL) s' ∧
      ¬ ResolvedOnce s'.trace := by
  refine ⟨_, .call rfl
    (.call rfl (.call rfl (.call rfl (.call rfl (.call rfl (.call rfl (.call rfl .ret))))))), ?_⟩
  exact not_resolvedOnce_of_two [_, _, _, _, _] (t := 1) ⟨_, List.mem_cons_self⟩ rfl
    ⟨_, List.mem_cons_self, rfl⟩

end Chronos.Benchmark
