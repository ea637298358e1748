import Chronos.Orders.RetryLookups

/-! # When an order comes back

An order comes back unless the cursor of `get_portfolio` is refused or a call is made again
for ever, and then its code says whether anything that is heeded has stopped it.
-/
namespace Chronos.Retries
open Foundation Storage Benchmark Program
variable {F α : Type} {q : Order F} {results : Results F} {tr tr' : List (Reply F)} {t : Txn}
variable {ps : List CursorId} {asked : Bool}

/-! ## `failXit` -/

theorem unresolved_close {k : CursorId} (h : q.Unresolved tr (.close k)) : q.xactH = none := by
  obtain ⟨pre, e, post, -, hcall, hrep, -⟩ := h
  cases e with
  | other => cases hcall
  | db c a =>
    cases hcall
    cases a with
    | ok _ => exact hrep.elim
    | error err => exact hrep.1

def cursorsSet (l : Locals) : ℕ :=
  l.cursorPortfolioP.toList.length + l.cursorPrimaryPortfolioP.toList.length

/-- The call that is made again. -/
def retried (l : Locals) : DbCall F := l.cursorPrimaryPortfolioP.elim (.abort l.txnP) .close

/-- If the call to be made again has failed, the first cursor is gone or nothing has changed. -/
theorem fewer_or_again {t : Txn} {first x : Option CursorId} {tr₁ : List (Reply F)} {err : DbError}
    (hfirst : first = none → tr₁ = tr)
    (hres : results tr₁.length (.db (retried ⟨t, none, x⟩)) = .error err) :
    cursorsSet ⟨t, none, x⟩ < cursorsSet ⟨t, first, x⟩ ∨
      ((⟨t, none, x⟩ : Locals) = ⟨t, first, x⟩ ∧ first = none ∧
        ∃ err', results tr.length (.db (retried ⟨t, first, x⟩)) = .error err' ∧
          tr₁ ++ [.db (retried ⟨t, none, x⟩) (.error err)] =
            tr ++ [.db (retried ⟨t, first, x⟩) (.error err')]) := by
  cases first with
  | some f => exact Or.inl (by simp [cursorsSet])
  | none =>
    obtain rfl := hfirst rfl
    exact Or.inr ⟨rfl, rfl, err, hres, rfl⟩

theorem exec_failXitStep {l l' : Locals}
    (he : Exec results.answer (failXitStep l) tr (.value (.inl l')) tr') :
    cursorsSet l' < cursorsSet l ∨ (l' = l ∧ l.cursorPortfolioP = none ∧
      ∃ err, results tr.length (.db (retried l)) = .error err ∧
        tr' = tr ++ [.db (retried l) (.error err)]) := by
  obtain ⟨t, first, x⟩ := l
  obtain ⟨a, tr₁, hfirst, he⟩ := he.bind_value
  obtain ⟨b, tr₂, hprim, he⟩ := he.bind_value
  have hfirst' : first = none → tr₁ = tr := by
    rintro rfl
    exact (Exec.pure_cases hfirst).2
  cases x with
  | none =>
    cases hprim
    obtain ⟨d, tr₃, habort, he⟩ := he.bind_value
    obtain ⟨a', hd, hres, rfl⟩ := exec_call habort
    cases hd
    cases d with
    | ok _ => cases he
    | error err =>
      cases he
      exact fewer_or_again hfirst' hres
  | some k =>
    obtain ⟨a', hb, hres, rfl⟩ := exec_call hprim
    cases hb
    cases b with
    | error err =>
      cases he
      exact fewer_or_again hfirst' hres
    | ok _ =>
      obtain ⟨d, tr₃, habort, he⟩ := he.bind_value
      cases d with
      | ok _ => cases he
      | error err =>
        cases he
        exact Or.inl (by simp [cursorsSet])

section Stages
variable [CFloat F]

/-- At `failXit` under an own transaction: the order is stopped, and what is to be made again
is the abort or to close the primary cursor. -/
structure Retrying (q : Order F) (l : Locals) (tr : List (Reply F)) : Prop where
  owing : ∀ c, q.Unresolved tr c → c = .abort l.txnP ∨
    ∃ k, l.cursorPrimaryPortfolioP = some k ∧ c = .close k
  created : ¬ Refused tr
  lost : q.Blank ∨ q.Stopped tr
  known : l.cursorPortfolioP ≠ none ∨ l.cursorPrimaryPortfolioP ≠ none →
    tr.filterMap Reply.primary = l.cursorPrimaryPortfolioP.toList

theorem Failing.retrying {l : Locals} (h : Failing q l.cursorPrimaryPortfolioP.toList tr) :
    Retrying q l tr where
  owing c hc := by
    obtain ⟨k, hk, hclose⟩ := h.owing c hc
    exact Or.inr ⟨k, Option.mem_toList.mp hk, hclose⟩
  created := h.created
  lost := h.lost
  known _ := h.primaries

theorem Retrying.snoc {l l' : Locals} {c : DbCall F} {a : Except DbError c.Payload}
    (h : Retrying q l tr) (hold : ∀ d, q.Unresolved tr d → (c = d → q.Again (.db c a)) →
      d = .abort l'.txnP ∨ ∃ k, l'.cursorPrimaryPortfolioP = some k ∧ d = .close k)
    (hnew : q.Repeats (tr.filterMap Reply.primary) (.db c a) →
      c = .abort l'.txnP ∨ ∃ k, l'.cursorPrimaryPortfolioP = some k ∧ c = .close k)
    (hcreated : ¬ (Reply.db c a).Refuses) (hprim : (Reply.db c a).primary = none)
    (hknown : l'.cursorPortfolioP ≠ none ∨ l'.cursorPrimaryPortfolioP ≠ none →
      tr.filterMap Reply.primary = l'.cursorPrimaryPortfolioP.toList) : Retrying q l'
        (tr ++ [.db c a]) where
  owing d hd := by
    rcases unresolved_snoc hd with ⟨hd, hagain⟩ | ⟨hcall, hrep⟩
    · exact hold d hd fun hcd => hagain (congrArg some hcd)
    · cases hcall
      exact hnew hrep
  created := not_refused_snoc h.created hcreated
  lost := h.lost.imp_right fun hs => stopped_snoc.mpr (Or.inl hs)
  known hset := by
    rw [List.filterMap_append, List.filterMap_cons_none hprim, List.filterMap_nil, List.append_nil]
    exact hknown hset

/-- The first cursor is closed or not, and forgotten. -/
theorem Retrying.closeFirst {t : Txn} {f : CursorId} {x : Option CursorId}
    (h : Retrying q ⟨t, some f, x⟩ tr) (a : Except DbError (DbCall.close (F := F) f).Payload) :
    Retrying q ⟨t, none, x⟩ (tr ++ [.db (.close f) a]) := by
  have hknown : tr.filterMap Reply.primary = x.toList := h.known (Or.inl (by simp))
  refine h.snoc (fun d hd _ => h.owing d hd) (fun hrep => Or.inr ?_) (by cases a <;> exact id) rfl
    fun _ => hknown
  cases a with
  | ok _ => exact hrep.elim
  | error err =>
    have hmem : f ∈ x.toList := hknown ▸ hrep.2
    exact ⟨f, Option.mem_toList.mp hmem, rfl⟩

theorem Retrying.closeFailed {t : Txn} {k : CursorId} {err : DbError}
    (h : Retrying q ⟨t, none, some k⟩ tr) :
    Retrying q ⟨t, none, some k⟩ (tr ++ [.db (.close k) (.error err)]) :=
  h.snoc (fun d hd _ => h.owing d hd) (fun _ => Or.inr ⟨k, rfl, rfl⟩) id rfl
    fun _ => h.known (Or.inr (by simp))

theorem Retrying.closed {t : Txn} {k : CursorId} {a : Unit} (h : Retrying q ⟨t, none, some k⟩ tr) :
    Retrying q ⟨t, none, none⟩ (tr ++ [.db (.close k) (.ok a)]) := by
  refine h.snoc (fun d hd hagain => ?_) (fun hrep => hrep.elim) id rfl (by simp)
  rcases h.owing d hd with habort | ⟨k', hk, rfl⟩
  · exact Or.inl habort
  · cases hk
    exact (hagain rfl).elim

theorem Retrying.abortFailed {t : Txn} {err : DbError} (h : Retrying q ⟨t, none, none⟩ tr) :
    Retrying q ⟨t, none, none⟩ (tr ++ [.db (.abort t) (.error err)]) :=
  h.snoc (fun d hd _ => h.owing d hd) (fun _ => Or.inl rfl) id rfl (by simp)

theorem Retrying.aborted {t : Txn} {a : Unit} (h : Retrying q ⟨t, none, none⟩ tr) :
    Back q BENCHMARK_FAIL (tr ++ [.db (.abort t) (.ok a)]) where
  resolved d hd := by
    rcases unresolved_snoc hd with ⟨hd, hagain⟩ | ⟨-, hrep⟩
    · rcases h.owing d hd with rfl | ⟨k, hk, -⟩
      · exact hagain rfl
      · cases hk
    · exact hrep
  created := not_refused_snoc h.created id
  code := Or.inr ⟨rfl, h.lost.imp_right fun hs => stopped_snoc.mpr (Or.inl hs)⟩

theorem Retrying.stage_abort {t : Txn}
    {f : Except DbError (DbCall.abort (F := F) t).Payload → DbProgram F (Locals ⊕ Rc)}
    (h : Retrying q ⟨t, none, none⟩ tr) (hok : ∀ a, f (.ok a) = pure (.inr BENCHMARK_FAIL))
    (herror : ∀ err, f (.error err) = pure (.inl ⟨t, none, none⟩)) :
    Stage q results (call (.abort t) >>= f) tr fun x tr' =>
      x.elim (fun l' => Retrying q l' tr') fun rc => Back q rc tr' := by
  refine stage_call fun a => ?_
  cases a with
  | error err =>
    rw [herror]
    exact Serves.pure h.abortFailed
  | ok a =>
    rw [hok]
    exact Serves.pure h.aborted

theorem stage_failXitStep {l : Locals} (h : Retrying q l tr) :
    Stage q results (failXitStep l) tr fun x tr' =>
      x.elim (fun l' => Retrying q l' tr') fun rc => Back q rc tr' := by
  obtain ⟨t, first, x⟩ := l
  have hfirst : Stage q results (closeIfOpen first) tr
    fun _ tr' => Retrying q ⟨t, none, x⟩ tr' := by
    cases first with
    | none => exact Serves.pure h
    | some f => exact stage_perform fun a => h.closeFirst a
  unfold failXitStep
  refine hfirst.bind fun _ tr₁ h₁ => ?_
  cases x with
  | none => exact h₁.stage_abort (fun _ => rfl) fun _ => rfl
  | some k =>
    refine stage_call fun a => ?_
    cases a with
    | error err => exact Serves.pure h₁.closeFailed
    | ok _ => exact h₁.closed.stage_abort (fun _ => rfl) fun _ => rfl

theorem stage_failXit_own {l : Locals} (hown : q.xactH = none) (h : Retrying q l tr) :
    Stage q results (loop failXitStep l) tr (Back q) := by
  refine Serves.loop (Retrying q)
    (fun l tr' => toLex (cursorsSet l, rank q results (retried l) tr'))
    (fun l tr' hl => stage_failXitStep hl) (fun l₁ tr₁ l₂ tr₂ hl hsafe he => ?_) h
  rw [Prod.Lex.toLex_lt_toLex]
  rcases exec_failXitStep he with hlt | ⟨rfl, hfirst, err, hres, rfl⟩
  · exact Or.inl hlt
  · refine Or.inr ⟨rfl, rank_lt hres ?_ (hsafe _ (.within he.reaches))⟩
    obtain ⟨t, first, x⟩ := l₂
    cases x with
    | none => trivial
    | some k =>
      have hknown := hl.known (Or.inr (by simp))
      rw [hknown]
      exact ⟨hown, List.mem_singleton_self k⟩

theorem stage_failXit {l : Locals} (h : Failing q l.cursorPrimaryPortfolioP.toList tr) :
    Stage q results (failXit q.xactH l) tr (Back q) := by
  unfold failXit
  split
  · next t hx =>
    have hresolved : ∀ c, ¬ q.Unresolved tr c := fun c hc => by
      obtain ⟨k, -, rfl⟩ := h.owing c hc
      rw [unresolved_close hc] at hx
      cases hx
    exact Serves.pure ⟨hresolved, h.created, Or.inr ⟨rfl, h.lost⟩⟩
  · next hx => exact stage_failXit_own hx h.retrying

/-! ## The whole order -/

theorem At.closeOk (h : At q ps true False tr) {c : CursorId} {a : Unit} :
    At q ps true False (tr ++ [.db (.close c) (.ok a)]) := by
  have hsnoc := (h.snoc (e := .db (.close c) (.ok a)) id id).iff (or_iff_left id)
  have hnone : (Reply.db (F := F) (.close c) (.ok a)).primary = none := rfl
  rwa [hnone, Option.toList_none, List.append_nil] at hsnoc

theorem At.closeError (h : At q ps true False tr) {c : CursorId} {err : DbError} :
    Failing q ps (tr ++ [.db (.close c) (.error err)]) where
  owing d hd := by
    rcases unresolved_snoc hd with ⟨hd, -⟩ | ⟨hcall, hrep⟩
    · exact absurd hd (h.resolved d)
    · exact ⟨c, h.primaries ▸ hrep.2, (Option.some.inj hcall).symm⟩
  created := not_refused_snoc h.created id
  lost := by
    refine Or.inr (stopped_snoc.mpr (Or.inr ?_))
    rw [h.asks]
    rfl
  primaries := by
    rw [List.filterMap_append, h.primaries]
    exact List.append_nil ps

theorem At.back (h : At q ps asked False tr) (hblank : ¬ q.Blank) :
    Back q BENCHMARK_SUCCESS tr where
  resolved := h.resolved
  created := h.created
  code := Or.inl ⟨rfl, hblank, h.stops.mp⟩

theorem stage_commit {t : Txn}
    {f : Except DbError (DbCall.commit (F := F) t).Payload → DbProgram F Rc} (hown : q.xactH = none)
    (hblank : ¬ q.Blank) (h : At q ps asked False tr)
    (hok : ∀ a, f (.ok a) = pure BENCHMARK_SUCCESS) (herror : ∀ err,
      f (.error err) = failXit none ⟨t, none, none⟩) :
    Stage q results (call (.commit t) >>= f) tr (Back q) := by
  have hcommit : Heeded q (.commit t) := heeded_saving trivial
  refine stage_call fun a => ?_
  cases a with
  | ok a =>
    rw [hok]
    exact Serves.pure (((h.heeded hcommit (.ok a)).iff (or_iff_left id)).back hblank)
  | error err =>
    rw [herror]
    have hfails := h.fails hcommit err
    have hretry : Retrying q ⟨t, none, none⟩ (tr ++ [.db (.commit t) (.error err)]) :=
      ⟨fun c hc => absurd hc (hfails.resolved c), hfails.created,
        Or.inr (hfails.stops.mpr trivial), by simp⟩
    exact stage_failXit_own hown hretry

theorem stage_finish_nil {t : Txn} (hblank : ¬ q.Blank) (h : At q ps asked False tr) :
    Stage q results (finish q.xactH ⟨t, none, none⟩) tr (Back q) := by
  have hclose : ∀ {tr'}, tr' = tr → Stage q results (closeIfOpen none) tr'
    fun a tr'' => a = .ok () ∧ tr'' = tr :=
    fun htr => Serves.pure ⟨rfl, htr⟩
  unfold finish
  refine (hclose rfl).bind ?_
  rintro _ tr₁ ⟨rfl, htr₁⟩
  refine (hclose htr₁).bind ?_
  rintro _ tr₂ ⟨rfl, rfl⟩
  simp only
  split
  · exact Serves.pure (h.back hblank)
  · next hown => exact stage_commit hown hblank h (fun _ => rfl) fun _ => rfl

theorem stage_finish {t : Txn} {f c : CursorId} (hblank : ¬ q.Blank) (h : At q [c] true False tr) :
    Stage q results (finish q.xactH ⟨t, some f, some c⟩) tr (Back q) := by
  unfold finish
  refine stage_call fun a => ?_
  cases a with
  | error err => exact stage_failXit h.closeError
  | ok _ =>
    refine stage_call fun a' => ?_
    cases a' with
    | error err => exact stage_failXit h.closeOk.closeError
    | ok _ =>
      simp only
      split
      · exact Serves.pure (h.closeOk.closeOk.back hblank)
      · next hown => exact stage_commit hown hblank h.closeOk.closeOk (fun _ => rfl) fun _ => rfl

theorem stage_rewrite {t : Txn} {f : CursorId} {change : Portfolio → DbProgram F (Option Portfolio)}
    (hblank : ¬ q.Blank) (hchange : Changes q results change) (h : At q [] false False tr) :
    Stage q results
      (do
        match ← rewritePortfolio ⟨t, some f, none⟩ key change with
        | .ok l => finish q.xactH l
        | .error l => failXit q.xactH l) tr (Back q) := by
  refine (stage_rewritePortfolio hchange h).bind fun r tr' hr => ?_
  cases r with
  | ok l =>
    obtain ⟨c, rfl, h'⟩ := hr
    exact stage_finish hblank h'
  | error l =>
    obtain ⟨c, rfl, h'⟩ := hr
    exact stage_failXit h'

theorem stage_lookup {dbp : Dbp} {f : Bool → DbProgram F Rc}
    (hdbp : dbp = .personal ∨ dbp = .stocks) (hkey : key = [] → q.Blank)
    (h : At q [] false False tr) (hfalse : f false = failXit q.xactH ⟨t, none, none⟩)
    (htrue : key ≠ [] → ∀ tr', At q [] false False tr' → Stage q results (f true) tr' (Back q)) :
    Stage q results (recordExists dbp key t >>= f) tr (Back q) := by
  refine (stage_recordExists hdbp h).bind fun found tr' ⟨hfound, hnot⟩ => ?_
  cases found with
  | true => exact htrue (hfound rfl).1 tr' (hfound rfl).2
  | false =>
    rw [hfalse]
    refine stage_failXit ((hnot rfl).failing ?_)
    by_cases hk : key = []
    · exact Or.inl (hkey hk)
    · exact Or.inr hk

theorem stage_sellStocksIn (hside : q.side = .sell) (h : At q [] false False tr) :
    Stage q results (sellStocksIn q.accountId q.symbol q.price q.amount q.forceApply q.xactH t) tr
      (Back q) := by
  have haccepts : ∀ x, CFloat.le q.price x = q.accepts x := fun x => by rw [Order.accepts, hside]
  refine stage_lookup (Or.inl rfl) (fun hk => Or.inl hk) h rfl fun ha tr₁ h₁ => ?_
  refine stage_lookup (Or.inr rfl) (fun hk => Or.inr hk) h₁ rfl fun hs tr₂ h₂ => ?_
  have hblank : ¬ q.Blank := not_or.mpr ⟨ha, hs⟩
  refine (stage_getPortfolio ha hs h₂).bind fun r tr₃ h₃ => ?_
  rcases r with _ | ⟨cursorp, key, p⟩
  · exact stage_failXit (At.failing h₃ (Or.inr hside))
  · by_cases hp : p.holdStocks < q.amount
    · simp only [if_pos hp]
      exact stage_failXit (At.failing h₃ (Or.inr ⟨hside, hp⟩))
    · simp only [if_neg hp]
      exact stage_rewrite hblank (changes_ite haccepts hs)
        (h₃.iff (iff_false_intro fun hstop => hp hstop.2))

theorem stage_createPortfolio {accountId symbol : CStr} {price : F} {amount : ℤ} {forceApply : Bool}
    (h : At q [] false False tr) :
    Stage q results (createPortfolio accountId symbol price amount forceApply t) tr fun rc tr' =>
      (rc = BENCHMARK_SUCCESS → At q [] false False tr') ∧
      (rc ≠ BENCHMARK_SUCCESS → Failing q [] tr') := by
  have hinsert : ∀ key p, Heeded q (.portfoliosInsert t key p) := fun _ _ => heeded_saving trivial
  have h₁ : At q [] false False (tr ++ [.other]) :=
    (h.snoc (e := .other) id id).iff (or_iff_left id)
  refine stage_fetchAndAdd fun n => stage_call fun a => ?_
  cases a with
  | error err =>
    exact Serves.pure ⟨by simp, fun _ => (h₁.fails (hinsert _ _) err).failing (Or.inr trivial)⟩
  | ok a =>
    exact Serves.pure ⟨fun _ => (h₁.heeded (hinsert _ _) (.ok a)).iff (or_iff_left id), by simp⟩

theorem stage_placeOrderIn (hside : q.side = .place) (h : At q [] false False tr) :
    Stage q results (placeOrderIn q.accountId q.symbol q.price q.amount q.forceApply q.xactH t) tr
      (Back q) := by
  have haccepts : ∀ x, CFloat.le x q.price = q.accepts x := fun x => by rw [Order.accepts, hside]
  have hnotSell : q.side ≠ .sell := by simp [hside]
  refine stage_lookup (Or.inl rfl) (fun hk => Or.inl hk) h rfl fun ha tr₁ h₁ => ?_
  refine stage_lookup (Or.inr rfl) (fun hk => Or.inr hk) h₁ rfl fun hs tr₂ h₂ => ?_
  have hblank : ¬ q.Blank := not_or.mpr ⟨ha, hs⟩
  refine (stage_getPortfolio ha hs h₂).bind fun r tr₃ h₃ => ?_
  rcases r with _ | ⟨cursorp, key, p⟩
  · have h₃ : At q [] false False tr₃ := At.iff h₃ (iff_false_intro hnotSell)
    have hprice : Stage q results (if q.forceApply then priceIs (CFloat.le · q.price) q.symbol t
      else return true) tr₃
        fun passes tr' => (passes = true → At q [] false False tr') ∧
          (passes = false → Failing q [] tr') := by
      split
      · exact stage_priceIs haccepts hs h₃
      · exact Serves.pure ⟨fun _ => h₃, by simp⟩
    refine hprice.bind fun passes tr₄ ⟨hpass, hfail⟩ => ?_
    cases passes with
    | false => exact stage_failXit (hfail rfl)
    | true =>
      refine (stage_createPortfolio (hpass rfl)).bind fun rc tr₅ ⟨hok, hbad⟩ => ?_
      split
      · next hrc => exact stage_finish_nil hblank (hok hrc)
      · next hrc => exact stage_failXit (hbad hrc)
  · exact stage_rewrite hblank (changes_ite haccepts hs)
      (At.iff h₃ (iff_false_intro fun hstop => hnotSell hstop.1))

theorem stage_withXact {body : Txn → DbProgram F Rc}
    (hbody : ∀ t tr', At q [] false False tr' → Stage q results (body t) tr' (Back q)) :
    Stage q results (withXact q.xactH body) [] (Back q) := by
  unfold withXact
  split
  · exact hbody _ _ At.nil
  · have hbegin : Heeded q .txnBegin := heeded_saving trivial
    refine stage_call fun a => ?_
    cases a with
    | ok txnP => exact hbody _ _ ((At.nil.heeded hbegin (.ok txnP)).iff (or_iff_left id))
    | error err =>
      have hfails := At.nil.fails hbegin err
      exact Serves.pure ⟨hfails.resolved, hfails.created,
        Or.inr ⟨rfl, Or.inr (hfails.stops.mpr trivial)⟩⟩

theorem stage_run (q : Order F) (results : Results F) : Stage q results q.run [] (Back q) := by
  unfold Order.run
  split
  · next hside => exact stage_withXact fun _ _ h => stage_sellStocksIn hside h
  · next hside => exact stage_withXact fun _ _ h => stage_placeOrderIn hside h

end Stages

/-! ## When it returns -/

def Consistent (results : Results F) (tr : List (Reply F)) : Prop :=
  ∀ pre e post, tr = pre ++ e :: post → ∃ c, e = reply c (results pre.length c)

theorem exec_consistent {p : DbProgram F α} {o : Outcome α} (he : Exec results.answer p [] o tr) :
    Consistent results tr := by
  refine he.invariant (J := Consistent results) (fun c tr₁ a tr₂ h hc => ?_)
    fun pre e post htr => ?_
  · obtain ⟨rfl, rfl⟩ := Prod.mk.inj (Option.some.inj hc)
    intro pre e post htr
    rcases split_snoc htr with ⟨rfl, rfl, rfl⟩ | ⟨post', rfl, rfl⟩
    · exact ⟨c, rfl⟩
    · exact h pre e post' rfl
  · simp at htr

theorem answer_longer (c : Call F) (tr₁ : List (Reply F)) (a : Answer c) (tr₂ : List (Reply F))
    (h : results.answer c tr₁ = some (a, tr₂)) : tr₁ <+: tr₂ := by
  obtain ⟨-, rfl⟩ := Prod.mk.inj (Option.some.inj h)
  exact List.prefix_append _ _

/-- What an order that comes back has come through is part of its trace. -/
theorem reaches_within {p : DbProgram F α} {o : Outcome α} (hr : Reaches results.answer p [] tr')
    (he : Exec results.answer p [] o tr) : tr' <+: tr :=
  Reaches.le (ρ := (· <+: ·)) answer_longer hr he

theorem Order.Hopeless.unresolved (h : q.Hopeless results tr') (hpre : tr' <+: tr)
    (htr : Consistent results tr) : ∃ c, q.Unresolved tr c := by
  obtain ⟨pre, c, a, rfl, hrep, hall⟩ := h
  obtain ⟨post, rfl⟩ := hpre
  refine ⟨c, pre, .db c a, post, by simp, rfl, hrep, fun e he hcall => ?_⟩
  obtain ⟨post₁, post₂, rfl⟩ := List.append_of_mem he
  obtain ⟨c', rfl⟩ := htr (pre ++ [.db c a] ++ post₁) e post₂ (by simp)
  cases c' with
  | db c' =>
    cases hcall
    exact hall _ (by simp)
  | fetchAndAdd => cases hcall
  | rand => cases hcall

variable [CFloat F]

theorem Order.Returns.passable (h : q.Returns results) : q.Passable results := by
  obtain ⟨rc, tr, he, hfails⟩ := h
  have hback : Back q rc tr := (stage_run q results).sound _ _ he
  refine ⟨fun tr' hr hrefused => ?_, fun tr' hr hhopeless => ?_, fun tr' hr hfail => ?_⟩
  · obtain ⟨e, hmem, hrefuses⟩ := hrefused
    exact hback.created ⟨e, (reaches_within hr he).subset hmem, hrefuses⟩
  · obtain ⟨c, hc⟩ := hhopeless.unresolved (reaches_within hr he) (exec_consistent he)
    exact hback.resolved c hc
  · obtain ⟨e, hmem, hefails⟩ := hfail
    have hrc := hfails ⟨e, (reaches_within hr he).subset hmem, hefails⟩
    rcases hback.code with ⟨hsuccess, -⟩ | ⟨-, hblank | hstopped⟩
    · exact absurd (hsuccess.symm.trans hrc) (by decide)
    · exact Or.inl hblank
    · exact Or.inr ⟨tr, he.reaches, hstopped⟩

theorem Order.Passable.returns (h : q.Passable results) : q.Returns results := by
  obtain ⟨o, tr, he⟩ := (stage_run q results).returns fun tr' hr =>
    not_or.mpr ⟨h.created tr' hr, h.hopeful tr' hr⟩
  have hend := (stage_run q results).sound _ _ he
  cases o with
  | crashed => exact absurd hend (h.created tr he.reaches)
  | value rc =>
    refine ⟨rc, tr, he, fun hfail => ?_⟩
    rcases hend.code with ⟨-, hblank, hstopped⟩ | ⟨hrc, -⟩
    · rcases h.heeded tr he.reaches hfail with hblank' | ⟨tr', hr, hstopped'⟩
      · exact absurd hblank' hblank
      · exact absurd (hstopped'.mono (reaches_within hr he)) hstopped
    · exact hrc

/-- `sell_stocks` and `place_order` come back, with a failure if any step has failed, if and
only if the cursor of `get_portfolio` is created, no call is made again for ever, and a step
that fails unheeded comes with something that stops the order. -/
theorem order_returns_iff (q : Order F) (results : Results F) :
    q.Returns results ↔ q.Passable results :=
  ⟨fun h => h.passable, fun h => h.returns⟩

def brokenDown : Results F
  | _, .db .txnBegin => .ok (1 : Txn)
  | _, .db _ => .error .other
  | _, .fetchAndAdd => (0 : ℤ)
  | _, .rand => (0 : ℕ)

def ownSale : Order ℚ := ⟨.sell, [49], [65], 10, 5, true, none⟩

/-- It aborts for ever. -/
theorem ownSale_never_returns : ¬ ownSale.Returns brokenDown := by
  intro h
  have hreached : Reaches brokenDown.answer ownSale.run []
      ([.db .txnBegin (.ok (1 : Txn)), .db (.cursor .personal 1) (.error .other)] ++
        [.db (.abort 1) (.error .other)]) :=
    .call rfl (.call rfl (.onward (.call rfl .ret) .here))
  exact h.passable.hopeful _ hreached ⟨_, .abort 1, .error .other, rfl, trivial, fun _ _ => trivial⟩

end Chronos.Retries
