import Chronos.Orders.Retries

/-! # The lookups of an order under any results

What is to be made again and whether the order is stopped is followed along its trace: over
the calls that are heeded, the lookups that are not, the walk over the portfolios and the
change of a record.
-/
namespace Chronos.Retries
open Foundation Storage Benchmark Program
variable {F α β : Type} {q : Order F} {results : Results F} {tr tr' : List (Reply F)} {e : Reply F}
  {t : Txn}
variable {ps : List CursorId} {asked : Bool} {stop : Prop}

/-! ## Traces -/

theorem split_snoc {γ : Type} {pre post xs : List γ} {x y : γ} (h : xs ++ [y] = pre ++ x :: post) :
    (pre = xs ∧ x = y ∧ post = []) ∨ ∃ post', post = post' ++ [y] ∧ xs = pre ++ x :: post' := by
  rcases List.eq_nil_or_concat post with rfl | ⟨post', z, rfl⟩
  · obtain ⟨hpre, hx⟩ := List.append_inj' h rfl
    exact Or.inl ⟨hpre.symm, by simpa using hx.symm, rfl⟩
  · rw [List.concat_eq_append] at h ⊢
    rw [← List.cons_append, ← List.append_assoc] at h
    obtain ⟨hpre, hz⟩ := List.append_inj' h rfl
    cases hz
    exact Or.inr ⟨post', rfl, hpre⟩

def Order.Unresolved (q : Order F) (tr : List (Reply F)) (c : DbCall F) : Prop :=
  ∃ pre e post, tr = pre ++ e :: post ∧ e.call = some c ∧
    q.Repeats (pre.filterMap Reply.primary) e ∧
    ∀ e' ∈ post, e'.call = some c → q.Again e'

theorem repeats_again (h : q.Repeats ps e) : q.Again e := by
  unfold Order.Repeats at h
  split at h
  · exact h.1
  · exact h

theorem not_unresolved_nil (c : DbCall F) : ¬ q.Unresolved [] c := by
  rintro ⟨pre, e, post, htr, -⟩
  simp at htr

theorem unresolved_snoc {c : DbCall F} (h : q.Unresolved (tr ++ [e]) c) :
    (q.Unresolved tr c ∧ (e.call = some c → q.Again e)) ∨
      (e.call = some c ∧ q.Repeats (tr.filterMap Reply.primary) e) := by
  obtain ⟨pre, e', post, htr, hcall, hrep, hpost⟩ := h
  rcases split_snoc htr with ⟨rfl, rfl, rfl⟩ | ⟨post', rfl, rfl⟩
  · exact Or.inr ⟨hcall, hrep⟩
  · refine Or.inl ⟨⟨pre, e', post', rfl, hcall, hrep, fun e'' he'' => ?_⟩, fun hc => ?_⟩
    · exact hpost e'' (List.mem_append_left _ he'')
    · exact hpost e (List.mem_append_right _ (List.mem_singleton_self e)) hc

theorem not_refused_snoc (h : ¬ Refused tr) (he : ¬ e.Refuses) : ¬ Refused (tr ++ [e]) := by
  simp only [Refused, List.mem_append, List.mem_singleton, or_and_right, exists_or, exists_eq_left]
  exact not_or.mpr ⟨h, he⟩

theorem stopped_snoc [CFloat F] : q.Stopped (tr ++ [e]) ↔ q.Stopped tr ∨
    q.Stops (tr.any Reply.asks) e := by
  constructor
  · rintro ⟨pre, e', post, htr, hstops⟩
    rcases split_snoc htr with ⟨rfl, rfl, rfl⟩ | ⟨post', rfl, rfl⟩
    · exact Or.inr hstops
    · exact Or.inl ⟨pre, e', post', rfl, hstops⟩
  · rintro (⟨pre, e', post, rfl, hstops⟩ | hstops)
    · exact ⟨pre, e', post ++ [e], by simp, hstops⟩
    · exact ⟨tr, e, [], rfl, hstops⟩

theorem Order.Stopped.mono [CFloat F] (h : q.Stopped tr) (hpre : tr <+: tr') : q.Stopped tr' := by
  obtain ⟨post', rfl⟩ := hpre
  obtain ⟨pre, e, post, rfl, hstops⟩ := h
  exact ⟨pre, e, post ++ post', by simp, hstops⟩

section Predicates
variable [CFloat F]

/-- So far nothing is to be made again, these primary cursors have been created, and the
order is stopped or not. -/
structure At (q : Order F) (ps : List CursorId) (asked : Bool) (stop : Prop)
    (tr : List (Reply F)) : Prop where
  resolved : ∀ c, ¬ q.Unresolved tr c
  created : ¬ Refused tr
  primaries : tr.filterMap Reply.primary = ps
  asks : tr.any Reply.asks = asked
  stops : q.Stopped tr ↔ stop

theorem At.nil : At q [] false False [] where
  resolved := not_unresolved_nil
  created := by simp [Refused]
  primaries := rfl
  asks := rfl
  stops := by simp [Order.Stopped]

theorem At.snoc (h : At q ps asked stop tr) (he : ¬ q.Repeats ps e) (hr : ¬ e.Refuses) :
    At q (ps ++ e.primary.toList) (asked || e.asks) (stop ∨ q.Stops asked e) (tr ++ [e]) where
  resolved c hc := by
    rcases unresolved_snoc hc with ⟨hc, -⟩ | ⟨-, hrep⟩
    · exact h.resolved c hc
    · exact he (h.primaries ▸ hrep)
  created := not_refused_snoc h.created hr
  primaries := by
    rw [List.filterMap_append, h.primaries]
    cases hp : e.primary <;> simp [hp]
  asks := by simp [h.asks]
  stops := by rw [stopped_snoc, h.stops, h.asks]

theorem At.iff (h : At q ps asked stop tr) {stop' : Prop} (hstop : stop ↔ stop') :
    At q ps asked stop' tr :=
  { h with stops := h.stops.trans hstop }

/-- The order is stopped, and what is to be made again is to close a primary cursor. -/
structure Failing (q : Order F) (ps : List CursorId) (tr : List (Reply F)) : Prop where
  owing : ∀ c, q.Unresolved tr c → ∃ k ∈ ps, c = .close k
  created : ¬ Refused tr
  lost : q.Blank ∨ q.Stopped tr
  primaries : tr.filterMap Reply.primary = ps

theorem At.failing (h : At q ps asked stop tr) (hlost : q.Blank ∨ stop) : Failing q ps tr where
  owing c hc := absurd hc (h.resolved c)
  created := h.created
  lost := hlost.imp_right h.stops.mpr
  primaries := h.primaries

theorem Failing.close (h : Failing q ps tr) {c : CursorId}
    (a : Except DbError (DbCall.close (F := F) c).Payload) :
    Failing q ps (tr ++ [.db (.close c) a]) where
  owing d hd := by
    rcases unresolved_snoc hd with ⟨hd, -⟩ | ⟨hcall, hrep⟩
    · exact h.owing d hd
    · cases a with
      | ok _ => exact hrep.elim
      | error err => exact ⟨c, h.primaries ▸ hrep.2, (Option.some.inj hcall).symm⟩
  created := not_refused_snoc h.created (by cases a <;> exact id)
  lost := h.lost.imp_right fun hs => stopped_snoc.mpr (Or.inl hs)
  primaries := by
    rw [List.filterMap_append, h.primaries]
    exact List.append_nil ps

structure Back (q : Order F) (rc : Rc) (tr : List (Reply F)) : Prop where
  resolved : ∀ c, ¬ q.Unresolved tr c
  created : ¬ Refused tr
  code : (rc = BENCHMARK_SUCCESS ∧ ¬ q.Blank ∧ ¬ q.Stopped tr) ∨
    (rc = BENCHMARK_FAIL ∧ (q.Blank ∨ q.Stopped tr))

end Predicates

/-! ## Calls that are made again -/

def Bad (q : Order F) (results : Results F) (tr : List (Reply F)) : Prop :=
  Refused tr ∨ q.Hopeless results tr

/-- Where the call, if made again and again from the n-th on, comes out otherwise. -/
def ways (q : Order F) (results : Results F) (c : DbCall F) (n : ℕ) : Set ℕ :=
  {m | n ≤ m ∧ ¬ q.Again (.db c (results m (.db c)))}

/-- How many calls it still takes until then. -/
noncomputable def rank (q : Order F) (results : Results F) (c : DbCall F) (tr : List (Reply F)) :
    ℕ :=
  sInf (ways q results c tr.length) - tr.length

theorem ways_succ {c : DbCall F} {n : ℕ} (h : q.Again (.db c (results n (.db c)))) :
    ways q results c (n + 1) = ways q results c n := by
  ext m
  refine ⟨fun hm => ⟨Nat.le_of_succ_le hm.1, hm.2⟩, fun hm => ⟨?_, hm.2⟩⟩
  have hne : n ≠ m := by
    rintro rfl
    exact hm.2 h
  exact Nat.lt_of_le_of_ne hm.1 hne

theorem rank_lt {c : DbCall F} {a : Except DbError c.Payload} (ha : results tr.length (.db c) = a)
    (hrep : q.Repeats (tr.filterMap Reply.primary) (.db c a))
    (hbad : ¬ Bad q results (tr ++ [.db c a])) :
    rank q results c (tr ++ [.db c a]) < rank q results c tr := by
  have hlater : (ways q results c (tr.length + 1)).Nonempty := by
    by_contra hnone
    refine hbad (Or.inr ⟨tr, c, a, rfl, hrep, fun m hm => ?_⟩)
    by_contra hagain
    rw [List.length_append] at hm
    exact hnone ⟨m, hm, hagain⟩
  have hle : tr.length + 1 ≤ sInf (ways q results c (tr.length + 1)) := (Nat.sInf_mem hlater).1
  have hsame := ways_succ (ha ▸ repeats_again hrep)
  rw [hsame] at hle
  rw [rank, rank, List.length_append, List.length_singleton, hsame]
  omega

theorem exec_call {c : DbCall F} {o : Outcome (Except DbError c.Payload)}
    (he : Exec results.answer (call c) tr o tr') :
    ∃ a, o = .value a ∧ results tr.length (.db c) = a ∧ tr' = tr ++ [.db c a] := by
  obtain ⟨a, ha, rfl⟩ := he.perform_cases
  obtain ⟨rfl, rfl⟩ := Prod.mk.inj (Option.some.inj ha)
  exact ⟨_, rfl, rfl, rfl⟩

theorem exec_getPortfolioStep {c : CursorId} {x y : Unit}
    (he : Exec results.answer (getPortfolioStep q.accountId q.symbol c x) tr
      (.value (.inl y)) tr') :
    ∃ k p, results tr.length (.db (.portfoliosPgetNext c)) = .ok (k, p) ∧ ¬ q.Wanted p ∧
      tr' = tr ++ [.db (.portfoliosPgetNext c) (.ok (k, p))] := by
  obtain ⟨a, tr₁, hcall, he⟩ := he.bind_value
  obtain ⟨r, hr, hres, rfl⟩ := exec_call hcall
  cases hr
  rcases a with err | ⟨k, p⟩
  · cases he
  · simp only at he
    split at he
    · cases he
    · next hp =>
      cases he
      exact ⟨k, p, hres, hp, rfl⟩

/-! ## Calls -/

/-- What an order makes of a trace; it crashes only if a cursor is refused. -/
abbrev Stage (q : Order F) (results : Results F) (p : DbProgram F α) (tr : List (Reply F))
    (V : α → List (Reply F) → Prop) : Prop := Serves results.answer (Bad q results) p tr V Refused

section Stages
variable {V : α → List (Reply F) → Prop}

theorem stage_call {c : DbCall F} {f : Except DbError c.Payload → DbProgram F α}
    (h : ∀ a, Stage q results (f a) (tr ++ [.db c a]) V) : Stage q results (call c >>= f) tr V :=
  Serves.call rfl (h _)

theorem stage_perform {c : DbCall F} {V : Except DbError c.Payload → List (Reply F) → Prop}
    (h : ∀ a, V a (tr ++ [.db c a])) : Stage q results (call c) tr V :=
  stage_call (f := Pure.pure) fun a => Serves.pure (h a)

theorem stage_fetchAndAdd {f : ℤ → DbProgram F α}
    (h : ∀ n, Stage q results (f n) (tr ++ [.other]) V) :
    Stage q results (fetchAndAdd >>= f) tr V := Serves.call rfl (h _)

variable [CFloat F] {key : CStr}

/-- A call whose failure stops the order, that is not made again and has to do with no
primary cursor. -/
structure Heeded (q : Order F) (c : DbCall F) : Prop where
  again : ∀ a ps, ¬ q.Repeats ps (.db c a)
  created : ∀ a, ¬ (Reply.db c a).Refuses
  plain : ∀ a, (Reply.db c a).primary = none ∧ (Reply.db c a).asks = false
  stops : ∀ err asked, q.Stops asked (.db c (.error err))

theorem heeded_cursor {dbp : Dbp} (hsec : dbp ≠ .portfoliosSec) (hprim : dbp ≠ .portfolios) :
    Heeded q (.cursor dbp t) where
  again a _ := by cases a <;> exact id
  created a := by cases dbp <;> cases a <;> first | exact id | exact absurd rfl hsec
  plain a := by cases dbp <;> first | exact ⟨rfl, rfl⟩ | exact absurd rfl hprim
  stops _ _ := trivial

theorem heeded_get {dbp : Dbp} {c : CursorId} : Heeded q (.get dbp c key) where
  again a _ := by cases dbp <;> cases a <;> exact id
  created a := by cases dbp <;> cases a <;> exact id
  plain a := by cases dbp <;> exact ⟨rfl, rfl⟩
  stops _ _ := by cases dbp <;> trivial

def Saving : DbCall F → Prop
  | .txnBegin | .commit _ | .portfoliosPut _ _ | .portfoliosInsert _ _ _ => True
  | _ => False

theorem heeded_saving {c : DbCall F} (hc : Saving c) : Heeded q c where
  again a _ := by cases c <;> first | exact hc.elim | cases a <;> exact id
  created a := by cases c <;> first | exact hc.elim | cases a <;> exact id
  plain a := by cases c <;> first | exact hc.elim | exact ⟨rfl, rfl⟩
  stops _ _ := by cases c <;> first | exact hc.elim | trivial

theorem At.heeded {c : DbCall F} (h : At q ps asked stop tr) (hc : Heeded q c)
    (a : Except DbError c.Payload) :
    At q ps asked (stop ∨ q.Stops asked (.db c a)) (tr ++ [.db c a]) := by
  have hsnoc := h.snoc (hc.again a ps) (hc.created a)
  rwa [(hc.plain a).1, (hc.plain a).2, Option.toList_none, List.append_nil, Bool.or_false] at hsnoc

theorem At.fails {c : DbCall F} (h : At q ps asked stop tr) (hc : Heeded q c) (err : DbError) :
    At q ps asked True (tr ++ [.db c (.error err)]) :=
  (h.heeded hc (.error err)).iff (iff_true_intro (Or.inr (hc.stops err asked)))

theorem At.closed (h : At q [] false stop tr) {c : CursorId}
    (a : Except DbError (DbCall.close (F := F) c).Payload) :
    At q [] false stop (tr ++ [.db (.close c) a]) := by
  have hagain : ¬ q.Repeats [] (.db (.close c) a) := by
    cases a with
    | ok _ => exact id
    | error err => exact fun hrep => List.not_mem_nil hrep.2
  have hstops : ¬ q.Stops false (.db (.close c) a) := by
    cases a with
    | ok _ => exact id
    | error err => exact Bool.false_ne_true
  have hcreated : ¬ (Reply.db (.close c) a).Refuses := by cases a <;> exact id
  exact (h.snoc hagain hcreated).iff (or_iff_left hstops)

theorem stage_recordExists {dbp : Dbp} (hdbp : dbp = .personal ∨ dbp = .stocks)
    (h : At q [] false False tr) :
    Stage q results (recordExists dbp key t) tr fun found tr' =>
      (found = true → key ≠ [] ∧ At q [] false False tr') ∧
      (found = false → At q [] false (key ≠ []) tr') := by
  unfold recordExists
  by_cases hkey : key = []
  · rw [if_pos hkey]
    exact Serves.pure ⟨fun hfound => absurd hfound (by simp), fun _ => h.iff (by simp [hkey])⟩
  · rw [if_neg hkey]
    have hsec : dbp ≠ .portfoliosSec ∧ dbp ≠ .portfolios := by rcases hdbp with rfl | rfl <;> simp
    have hcursor : Heeded q (.cursor dbp t) := heeded_cursor hsec.1 hsec.2
    refine stage_call fun a => ?_
    cases a with
    | error err =>
      exact Serves.pure ⟨fun hfound => absurd hfound (by simp),
        fun _ => (h.fails hcursor err).iff (by simp [hkey])⟩
    | ok cursorp =>
      have h₁ : At q [] false False (tr ++ [.db (.cursor dbp t) (.ok cursorp)]) :=
        (h.heeded hcursor (.ok cursorp)).iff
          (by rcases hdbp with rfl | rfl <;> exact or_iff_left id)
      refine stage_call fun ret => stage_call fun a' => Serves.pure ?_
      cases ret with
      | error err =>
        refine ⟨fun hfound => absurd hfound (by simp [Except.isOk, Except.toBool]), fun _ => ?_⟩
        exact ((h₁.fails heeded_get err).closed a').iff (by simp [hkey])
      | ok value =>
        have h₂ : At q [] false False
            (tr ++ [.db (.cursor dbp t) (.ok cursorp)] ++
              [.db (.get dbp cursorp key) (.ok value)]) :=
          (h₁.heeded heeded_get (.ok value)).iff
            (by rcases hdbp with rfl | rfl <;> exact or_iff_left id)
        exact ⟨fun _ => ⟨hkey, h₂.closed a'⟩,
          fun hfound => absurd hfound (by simp [Except.isOk, Except.toBool])⟩

theorem stage_getStock {symbol : CStr} (hsymbol : symbol ≠ []) (h : At q ps asked False tr) :
    Stage q results (getStock symbol t) tr fun r tr' =>
      (∀ c x, r = some (c, x) → At q ps asked (q.accepts x = false) tr') ∧
      (r = none → Failing q ps tr') := by
  have hcursor : Heeded q (.cursor .quotes t) := heeded_cursor (by simp) (by simp)
  unfold getStock
  rw [if_neg hsymbol]
  refine stage_call fun a => ?_
  cases a with
  | error err =>
    exact Serves.pure ⟨by simp, fun _ => (h.fails hcursor err).failing (Or.inr trivial)⟩
  | ok cursorp =>
    have h₁ : At q ps asked False (tr ++ [.db (.cursor .quotes t) (.ok cursorp)]) :=
      (h.heeded hcursor (.ok cursorp)).iff (or_iff_left id)
    refine stage_call fun a' => ?_
    cases a' with
    | ok x =>
      refine Serves.pure ⟨fun c x' hx => ?_, by simp⟩
      obtain ⟨-, rfl⟩ := Prod.mk.inj (Option.some.inj hx)
      exact (h₁.heeded heeded_get (.ok x)).iff (Iff.of_eq (false_or _))
    | error err =>
      refine stage_call fun a'' => Serves.pure ⟨by simp, fun _ => ?_⟩
      exact ((h₁.fails heeded_get err).failing (Or.inr trivial)).close a''

theorem stage_priceIs {test : F → Bool} {symbol : CStr} (htest : ∀ x, test x = q.accepts x)
    (hsymbol : symbol ≠ []) (h : At q ps asked False tr) :
    Stage q results (priceIs test symbol t) tr fun passes tr' =>
      (passes = true → At q ps asked False tr') ∧ (passes = false → Failing q ps tr') := by
  refine (stage_getStock hsymbol h).bind fun r tr' ⟨hsome, hnone⟩ => ?_
  rcases r with _ | ⟨c, x⟩
  · exact Serves.pure ⟨by simp, fun _ => hnone rfl⟩
  · have hx := hsome c x rfl
    refine Serves.pure ⟨fun hpass => hx.iff ?_, fun hpass => hx.failing (Or.inr ?_)⟩
    · rw [← htest, hpass]
      simp
    · rw [← htest, hpass]

/-- A change of a record is made, or the order is stopped. -/
def Changes (q : Order F) (results : Results F)
    (change : Portfolio → DbProgram F (Option Portfolio)) : Prop :=
  ∀ p ps asked tr, At q ps asked False tr → Stage q results (change p) tr fun r tr' =>
    (∀ p', r = some p' → At q ps asked False tr') ∧ (r = none → Failing q ps tr')

theorem changes_ite {forceApply : Bool} {test : F → Bool} {symbol : CStr}
    {f g : Portfolio → Portfolio} (htest : ∀ x, test x = q.accepts x) (hsymbol : symbol ≠ []) :
    Changes q results fun p => do
      if forceApply then
        if ← priceIs test symbol t then return some (f p)
        else return none
      else return some (g p) := by
  intro p ps asked tr h
  cases forceApply with
  | false => exact Serves.pure ⟨fun _ _ => h, by simp⟩
  | true =>
    refine (stage_priceIs htest hsymbol h).bind fun passes tr' ⟨hpass, hfail⟩ => ?_
    cases passes with
    | true => exact Serves.pure ⟨fun _ _ => hpass rfl, by simp⟩
    | false => exact Serves.pure ⟨by simp, fun _ => hfail rfl⟩

def Rewrites (q : Order F) (t : Txn) (cursorp : Option CursorId) :
    Except Locals Locals → List (Reply F) → Prop
  | .ok l, tr => ∃ c, l = ⟨t, cursorp, some c⟩ ∧ At q [c] true False tr
  | .error l, tr => ∃ c, l = ⟨t, cursorp, c⟩ ∧ Failing q c.toList tr

theorem stage_rewritePortfolio {cursorp : Option CursorId}
    {change : Portfolio → DbProgram F (Option Portfolio)} (hchange : Changes q results change)
    (h : At q [] false False tr) :
    Stage q results (rewritePortfolio ⟨t, cursorp, none⟩ key change) tr (Rewrites q t cursorp) := by
  have hagain : ∀ a, ¬ q.Repeats [] (.db (.cursor .portfolios t) a) :=
    fun a => by cases a <;> exact id
  have hcreated : ∀ a, ¬ (Reply.db (F := F) (.cursor .portfolios t) a).Refuses :=
    fun a => by cases a <;> exact id
  unfold rewritePortfolio
  refine stage_call fun a => ?_
  have h₁ := h.snoc (hagain a) (hcreated a)
  cases a with
  | error err => exact Serves.pure ⟨none, rfl, h₁.failing (Or.inr (Or.inr trivial))⟩
  | ok c =>
    have h₁ : At q [c] true False (tr ++ [.db (.cursor .portfolios t) (.ok c)]) :=
      h₁.iff (or_iff_left id)
    refine stage_call fun a' => ?_
    cases a' with
    | error err =>
      exact Serves.pure ⟨some c, rfl, (h₁.fails heeded_get err).failing (Or.inr trivial)⟩
    | ok p =>
      refine (hchange p _ _ _ ((h₁.heeded heeded_get (.ok p)).iff (or_iff_left id))).bind
        fun r tr' ⟨hsome, hnone⟩ => ?_
      cases r with
      | none => exact Serves.pure ⟨some c, rfl, hnone rfl⟩
      | some p' =>
        refine stage_call fun a'' => ?_
        have h₂ := hsome p' rfl
        have hput : Heeded q (.portfoliosPut c p') := heeded_saving trivial
        cases a'' with
        | error err => exact Serves.pure ⟨some c, rfl, (h₂.fails hput err).failing (Or.inr trivial)⟩
        | ok a => exact Serves.pure ⟨c, rfl, (h₂.heeded hput (.ok a)).iff (or_iff_left id)⟩

/-! ## The walk -/

/-- The walk over the portfolios goes on. -/
structure Walking (q : Order F) (c : CursorId) (tr : List (Reply F)) : Prop where
  owing : ∀ d, q.Unresolved tr d → d = .portfoliosPgetNext c
  created : ¬ Refused tr
  primaries : tr.filterMap Reply.primary = []
  asks : tr.any Reply.asks = false
  going : ¬ q.Stopped tr

theorem At.walking (h : At q [] false False tr) (c : CursorId) : Walking q c tr where
  owing d hd := absurd hd (h.resolved d)
  created := h.created
  primaries := h.primaries
  asks := h.asks
  going := h.stops.mp

theorem Walking.again {c : CursorId} {k : CStr} {p : Portfolio} (h : Walking q c tr)
    (hp : ¬ q.Wanted p) : Walking q c (tr ++ [.db (.portfoliosPgetNext c) (.ok (k, p))]) where
  owing d hd := by
    rcases unresolved_snoc hd with ⟨hd, -⟩ | ⟨hcall, -⟩
    · exact h.owing d hd
    · exact (Option.some.inj hcall).symm
  created := not_refused_snoc h.created id
  primaries := by
    rw [List.filterMap_append, h.primaries]
    rfl
  asks := by
    rw [List.any_append, h.asks]
    rfl
  going := by
    rw [stopped_snoc]
    exact not_or.mpr ⟨h.going, fun hstops => hp hstops.2.1⟩

theorem Walking.done {c : CursorId} {a : Except DbError (CStr × Portfolio)} (h : Walking q c tr)
    (ha : ¬ q.Again (.db (.portfoliosPgetNext c) a)) :
    At q [] false (q.Stops false (.db (.portfoliosPgetNext c) a))
      (tr ++ [.db (.portfoliosPgetNext c) a]) where
  resolved d hd := by
    rcases unresolved_snoc hd with ⟨hd, hagain⟩ | ⟨-, hrep⟩
    · exact ha (hagain (congrArg some (h.owing d hd).symm))
    · exact ha (repeats_again hrep)
  created := not_refused_snoc h.created id
  primaries := by
    rw [List.filterMap_append, h.primaries]
    rfl
  asks := by
    rw [List.any_append, h.asks]
    rfl
  stops := by
    rw [stopped_snoc, h.asks]
    exact or_iff_right h.going

def Finds (q : Order F) (record : Option Portfolio) (tr : List (Reply F)) : Prop :=
  match record with
  | some p => At q [] false (q.side = .sell ∧ p.holdStocks < q.amount) tr
  | none => At q [] false (q.side = .sell) tr

theorem stage_getPortfolio (ha : q.accountId ≠ []) (hs : q.symbol ≠ [])
    (h : At q [] false False tr) :
    Stage q results (getPortfolio q.accountId q.symbol t) tr
      fun r tr' => Finds q (r.map fun x => x.2.2) tr' := by
  unfold getPortfolio
  rw [if_neg (by simp [ha, hs])]
  refine stage_call fun a => ?_
  cases a with
  | error err =>
    exact Serves.crash ⟨_, List.mem_append_right _ (List.mem_singleton_self _), trivial⟩
  | ok cursorp =>
    have h₁ : At q [] false False (tr ++ [.db (.cursor .portfoliosSec t) (.ok cursorp)]) :=
      (h.snoc (e := .db (.cursor .portfoliosSec t) (.ok cursorp)) id id).iff (or_iff_left id)
    have hwalk : Stage q results (loop (getPortfolioStep q.accountId q.symbol cursorp) ())
        (tr ++ [.db (.cursor .portfoliosSec t) (.ok cursorp)])
          fun r tr' => Finds q (r.map Prod.snd) tr' := by
      refine Serves.loop (fun _ => Walking q cursorp)
        (fun _ => rank q results (.portfoliosPgetNext cursorp))
        (fun _ tr₁ hwalking => ?_) (fun s tr₁ s' tr₂ hwalking hsafe he => ?_) (h₁.walking cursorp)
      · refine stage_call fun a => ?_
        rcases a with err | ⟨k, p⟩
        · exact Serves.pure (hwalking.done (a := .error err) id)
        · by_cases hp : q.accountId = p.accountId ∧ q.symbol = p.symbol
          · simp only [if_pos hp]
            refine Serves.pure ((hwalking.done (a := .ok (k, p)) fun hagain => hagain hp).iff ?_)
            exact ⟨fun hstops => ⟨hstops.1, hstops.2.2⟩, fun hstops => ⟨hstops.1, hp, hstops.2⟩⟩
          · simp only [if_neg hp]
            exact Serves.pure (hwalking.again hp)
      · obtain ⟨k, p, hres, hp, rfl⟩ := exec_getPortfolioStep he
        exact rank_lt hres hp (hsafe _ (.within he.reaches))
    refine hwalk.bind fun r tr' hr => ?_
    cases r with
    | some record => exact Serves.pure hr
    | none => exact stage_call fun a => Serves.pure (At.closed hr a)

end Stages

end Chronos.Retries
