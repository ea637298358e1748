import Chronos.Benchmark.Setup

/-! # What the handle leaves open

`databases_setup` creates eight tables and the environment, and `databases_close` closes
seven of them: a handle that is freed leaves the secondary table open, and one that cannot
be allocated leaves the environment open unless opening the environment is what failed.
-/
namespace Chronos.Setup
open Foundation Program
variable {α β : Type} {answers : ℕ → Answer} {DB_NOTFOUND : ℤ} {tr tr' : List Entry} {c : Call}
  {a : Answer}

structure Books where
  opened : List Handle
  closed : List Handle
  counted : List ℤ
  walked : ℕ

def books (tr : List Entry) : Books :=
  ⟨tr.filterMap Entry.opens, tr.filterMap Entry.closes, tr.filterMap Entry.counts,
    tr.countP Entry.walks⟩

def Books.after (B : Books) (e : Entry) : Books where
  opened := B.opened ++ e.opens.toList
  closed := B.closed ++ e.closes.toList
  counted := B.counted ++ e.counts.toList
  walked := B.walked + if e.walks then 1 else 0

theorem filterMap_singleton_toList {γ : Type} (f : Entry → Option γ) (e : Entry) :
    [e].filterMap f = (f e).toList := by
  cases h : f e <;> simp [h]

theorem books_snoc (tr : List Entry) (e : Entry) : books (tr ++ [e]) = (books tr).after e := by
  simp only [books, Books.after, List.filterMap_append, filterMap_singleton_toList,
    List.countP_append, List.countP_singleton]

/-- Calls that leave the counting and the walk alone. -/
def Call.Plain (c : Call) : Prop := c ≠ .stat .stocks ∧ c ≠ .get

instance (c : Call) : Decidable c.Plain := inferInstanceAs (Decidable (_ ∧ _))

def Books.plus (B : Books) (c : Call) : Books :=
  { B with opened := B.opened ++ c.opens.toList, closed := B.closed ++ c.closes.toList }

theorem Books.after_plain (B : Books) (hc : c.Plain) (ha : a.ret = 0) :
    B.after ⟨c, a⟩ = B.plus c := by
  have hcounts : Entry.counts ⟨c, a⟩ = none := if_neg hc.1
  have hwalks : Entry.walks ⟨c, a⟩ = false := by simp [Entry.walks, hc.2]
  have hopens : Entry.opens ⟨c, a⟩ = c.opens := if_pos ha
  simp [Books.after, Books.plus, hcounts, hwalks, hopens, Entry.closes]

/-- Everything has succeeded so far, and these are the books. -/
structure Going (DB_NOTFOUND : ℤ) (B : Books) (tr : List Entry) : Prop where
  books : books tr = B
  clean : ∀ e ∈ tr, ¬ e.Fails DB_NOTFOUND
  closing : ∀ e ∈ tr, ¬ e.CloseFails

/-- Something other than opening the environment has failed, and the environment is open. -/
structure Leaking (DB_NOTFOUND : ℤ) (tr : List Entry) : Prop where
  opened : .environment ∈ tr.filterMap Entry.opens
  kept : .environment ∉ tr.filterMap Entry.closes
  late : ∀ e ∈ tr, e.Fails DB_NOTFOUND → ¬ e.call.Early
  failed : ∃ e ∈ tr, e.Fails DB_NOTFOUND

/-- The environment has been opened and not closed. -/
def Books.Holds (B : Books) : Prop := .environment ∈ B.opened ∧ .environment ∉ B.closed

/-- What is called once the environment is open and may not give it back. -/
def Call.Late (c : Call) : Prop := ¬ c.Early ∧ c.closes ≠ some .environment

theorem forall_mem_snoc {P : Entry → Prop} {e : Entry} :
    (∀ e' ∈ tr ++ [e], P e') ↔ (∀ e' ∈ tr, P e') ∧ P e := by
  simp only [List.mem_append, List.mem_singleton, or_imp, forall_and, forall_eq]

section Steps
variable {B : Books}

theorem Going.nil : Going DB_NOTFOUND ⟨[], [], [], 0⟩ [] := ⟨rfl, by simp, by simp⟩

theorem Going.opened_eq (h : Going DB_NOTFOUND B tr) : tr.filterMap Entry.opens = B.opened :=
  congrArg Books.opened h.books

theorem Going.closed_eq (h : Going DB_NOTFOUND B tr) : tr.filterMap Entry.closes = B.closed :=
  congrArg Books.closed h.books

theorem Going.snoc (h : Going DB_NOTFOUND B tr) (hclean : ¬ Entry.Fails DB_NOTFOUND ⟨c, a⟩)
    (hclosing : ¬ Entry.CloseFails ⟨c, a⟩) :
    Going DB_NOTFOUND (B.after ⟨c, a⟩) (tr ++ [⟨c, a⟩]) where
  books := by rw [books_snoc, h.books]
  clean := forall_mem_snoc.mpr ⟨h.clean, hclean⟩
  closing := forall_mem_snoc.mpr ⟨h.closing, hclosing⟩

theorem Going.succeeds (h : Going DB_NOTFOUND B tr) (hc : c.Plain) (ha : a.ret = 0) :
    Going DB_NOTFOUND (B.plus c) (tr ++ [⟨c, a⟩]) := by
  rw [← B.after_plain hc ha]
  exact h.snoc (fun hfails => hfails.1 ha) fun hfails => hfails.1 ha

theorem Going.leaks (h : Going DB_NOTFOUND B tr) (hB : B.Holds) (hc : ¬ c.Early)
    (ha : Entry.Fails DB_NOTFOUND ⟨c, a⟩) : Leaking DB_NOTFOUND (tr ++ [⟨c, a⟩]) where
  opened := by
    rw [List.filterMap_append, h.opened_eq]
    exact List.mem_append_left _ hB.1
  kept := by
    have hcloses : Entry.closes ⟨c, a⟩ = none := ha.2.1
    rw [filterMap_snoc_none hcloses, h.closed_eq]
    exact hB.2
  late := forall_mem_snoc.mpr ⟨fun e he hfails => absurd hfails (h.clean e he), fun _ => hc⟩
  failed := ⟨_, List.mem_append_right _ (List.mem_singleton_self _), ha⟩

theorem Leaking.snoc (h : Leaking DB_NOTFOUND tr) (hc : c.Late) :
    Leaking DB_NOTFOUND (tr ++ [⟨c, a⟩]) where
  opened := by
    rw [List.filterMap_append]
    exact List.mem_append_left _ h.opened
  kept := by
    rw [List.filterMap_append, List.mem_append, filterMap_singleton_toList, Option.mem_toList]
    exact not_or.mpr ⟨h.kept, hc.2⟩
  late := forall_mem_snoc.mpr ⟨h.late, fun _ => hc.1⟩
  failed := by
    obtain ⟨e, he, hfails⟩ := h.failed
    exact ⟨e, List.mem_append_left _ he, hfails⟩

theorem Leaking.not_closedOnce (h : Leaking DB_NOTFOUND tr) :
    ¬ ClosedOnce Entry.opens Entry.closes tr := by
  intro hclosed
  have hone := hclosed _ h.opened
  rw [List.count_eq_zero_of_not_mem h.kept] at hone
  omega

end Steps

/-! ## Rules -/

/-- What a part of the program makes of a trace, under any answers. -/
def Stage (p : HandleProgram α) (tr : List Entry) (V : α → List Entry → Prop)
    (X : List Entry → Prop) : Prop :=
  ∀ answers, wp (answering answers) p tr (ending V X)

section Rules
variable {V V' : α → List Entry → Prop} {U : β → List Entry → Prop} {X X' : List Entry → Prop}

theorem Stage.pure {x : α} (h : V x tr) : Stage (Pure.pure x) tr V X := fun _ => wp_pure.mpr h

theorem Stage.perform {V : Answer → List Entry → Prop} (h : ∀ a, V a (tr ++ [⟨c, a⟩])) :
    Stage (perform c) tr V X :=
  fun _ => wp_perform.mpr ⟨_, _, rfl, h _⟩

theorem Stage.bind {p : HandleProgram β} {f : β → HandleProgram α} (hp : Stage p tr U X)
    (hf : ∀ b tr', U b tr' → Stage (f b) tr' V X) : Stage (p >>= f) tr V X := by
  intro answers
  refine wp_bind'.mpr (wp_mono (hp answers) ?_)
  rintro (b | _) tr' h
  · exact hf b tr' h answers
  · exact h

theorem Stage.mono {p : HandleProgram α} (hp : Stage p tr V X) (hV : ∀ x tr', V x tr' → V' x tr')
    (hX : ∀ tr', X tr' → X' tr') : Stage p tr V' X' := by
  intro answers
  refine wp_mono (hp answers) ?_
  rintro (x | _) tr' h
  · exact hV x tr' h
  · exact hX tr' h

theorem Stage.call {f : Answer → HandleProgram α} (h : ∀ a, Stage (f a) (tr ++ [⟨c, a⟩]) V X) :
    Stage (Program.perform c >>= f) tr V X :=
  (Stage.perform (V := fun a tr' => tr' = tr ++ [⟨c, a⟩]) fun _ => rfl).bind
    fun a _ htr => htr ▸ h a

/-- Calls in turn: an invariant over those that are left, and what the first failure brings
about. -/
theorem Stage.inTurn {I : List Call → List Entry → Prop} {J : List Entry → Prop} {cs : List Call}
    (hI : ∀ c cs tr a, I (c :: cs) tr →
      (a.ret = 0 → I cs (tr ++ [⟨c, a⟩])) ∧ (a.ret ≠ 0 → J (tr ++ [⟨c, a⟩]))) (h : I cs tr) :
    Stage (inTurn cs) tr (fun rc tr' => (rc = 0 → I [] tr') ∧ (rc ≠ 0 → J tr')) X := by
  induction cs generalizing tr with
  | nil => exact Stage.pure ⟨fun _ => h, fun hrc => absurd rfl hrc⟩
  | cons c cs ih =>
    refine Stage.call fun a => ?_
    obtain ⟨hsucc, hfail⟩ := hI c cs tr a h
    by_cases ha : a.ret = 0
    · rw [if_neg (not_not.mpr ha)]
      exact ih (hsucc ha)
    · rw [if_pos ha]
      exact Stage.pure ⟨fun h0 => absurd h0 ha, fun _ => hfail ha⟩

theorem Stage.loop {σ : Type} {body : σ → HandleProgram (σ ⊕ α)} (I : σ → List Entry → Prop)
    (measure : σ → ℕ) (hbody : ∀ s tr, I s tr → Stage (body s) tr
      (fun x tr' => x.elim (fun s' => I s' tr' ∧ measure s' < measure s) fun b => V b tr') X)
    {s : σ} (h : I s tr) : Stage (loop body s) tr V X := by
  intro answers
  refine wp_loop I (fun s _ => measure s) (fun s tr hs => wp_mono (hbody s tr hs answers) ?_) h
  rintro ((s' | b) | _) tr' hx <;> exact hx

end Rules

/-! ## The tables -/

/-- What is called with the environment open, tables being opened and looked at. -/
def Call.Ordinary : Call → Prop
  | calloc _ | dbCreate _ | setFlags _ | dbOpen _ _ | associate | txnBegin | cursor | commit => True
  | stat t => t ≠ .stocks
  | _ => False

theorem Call.Ordinary.plain (hc : c.Ordinary) : c.Plain := by
  cases c <;> simp_all [Call.Ordinary, Call.Plain]

theorem Call.Ordinary.late (hc : c.Ordinary) : c.Late := by
  cases c <;> simp_all [Call.Ordinary, Call.Late, Call.Early, Call.closes]

theorem Call.Ordinary.fails (hc : c.Ordinary) (ha : a.ret ≠ 0) :
    Entry.Fails DB_NOTFOUND ⟨c, a⟩ := by
  refine ⟨ha, ?_, ?_, ?_⟩ <;> cases c <;> simp_all [Call.Ordinary, Call.closes]

theorem Call.Ordinary.closes (hc : c.Ordinary) : c.closes = none := by
  cases c <;> simp_all [Call.Ordinary, Call.closes]

section Tables
variable {B : Books} {S : List ℤ} {k : ℕ} {ts : List Table} {b : BenchmarkDbs}
  {X : List Entry → Prop}

theorem Books.Holds.plus (hB : B.Holds) (hc : c.Ordinary) : (B.plus c).Holds := by
  refine ⟨List.mem_append_left _ hB.1, ?_⟩
  simpa [Books.plus, hc.closes] using hB.2

theorem Going.ordinary (h : Going DB_NOTFOUND B tr) (hB : B.Holds) (hc : c.Ordinary) :
    (a.ret = 0 → Going DB_NOTFOUND (B.plus c) (tr ++ [⟨c, a⟩])) ∧
    (a.ret ≠ 0 → Leaking DB_NOTFOUND (tr ++ [⟨c, a⟩])) :=
  ⟨h.succeeds hc.plain, fun ha => h.leaks hB hc.late.1 (hc.fails ha)⟩

theorem Going.inTurn {cs : List Call} (h : Going DB_NOTFOUND B tr) (hB : B.Holds)
    (hcs : ∀ c ∈ cs, c.Ordinary) :
    Stage (inTurn cs) tr
      (fun rc tr' => (rc = 0 → Going DB_NOTFOUND (cs.foldl Books.plus B) tr') ∧
        (rc ≠ 0 → Leaking DB_NOTFOUND tr')) X := by
  refine (Stage.inTurn (I := fun cs' tr' => ∃ B', B'.Holds ∧ (∀ c ∈ cs', c.Ordinary) ∧
    cs'.foldl Books.plus B' = cs.foldl Books.plus B ∧ Going DB_NOTFOUND B' tr')
    (J := Leaking DB_NOTFOUND) ?_ ⟨B, hB, hcs, rfl, h⟩).mono ?_ fun _ hx => hx
  · rintro c cs' tr' a ⟨B', hB', hord, heq, hgoing⟩
    have hc : c.Ordinary := hord c (List.mem_cons_self ..)
    have hrest : ∀ c' ∈ cs', c'.Ordinary := fun c' hc' => hord c' (List.mem_cons_of_mem _ hc')
    refine ⟨fun ha => ⟨B'.plus c, hB'.plus hc, hrest, heq, ?_⟩, fun ha => ?_⟩
    · exact (hgoing.ordinary hB' hc).1 ha
    · exact (hgoing.ordinary hB' hc).2 ha
  · rintro rc tr' ⟨hsucc, hfail⟩
    refine ⟨fun hrc => ?_, hfail⟩
    obtain ⟨B', -, -, rfl, hgoing⟩ := hsucc hrc
    exact hgoing

/-- The books with the environment and some tables open. -/
def holding (S : List ℤ) (k : ℕ) (ts : List Table) : Books :=
  ⟨.environment :: ts.map .table, [], S, k⟩

theorem holding_holds : (holding S k ts).Holds := ⟨List.mem_cons_self .., List.not_mem_nil⟩

theorem holding_plus (hc : c.opens = none) (hc' : c.closes = none) :
    (holding S k ts).plus c = holding S k ts := by
  simp [Books.plus, holding, hc, hc']

structure Has (DB_NOTFOUND : ℤ) (S : List ℤ) (k : ℕ) (ts : List Table) (b : BenchmarkDbs)
    (tr : List Entry) : Prop where
  envP : b.envP = true
  dbps : b.dbps = ts
  going : Going DB_NOTFOUND (holding S k ts) tr

def Opens (DB_NOTFOUND : ℤ) (S : List ℤ) (k : ℕ) (ts : List Table) (x : ℤ × BenchmarkDbs)
    (tr : List Entry) : Prop :=
  (x.1 = 0 → Has DB_NOTFOUND S k ts x.2 tr) ∧ (x.1 ≠ 0 → Leaking DB_NOTFOUND tr)

theorem opens_failed {ret : ℤ} (hret : ret ≠ 0) (h : Leaking DB_NOTFOUND tr) :
    Opens DB_NOTFOUND S k ts (ret, b) tr :=
  ⟨fun h0 => absurd h0 hret, fun _ => h⟩

theorem stage_openDatabase {t : Table} {isSecondary : Bool} (h : Has DB_NOTFOUND S k ts b tr) :
    Stage (openDatabase t isSecondary b) tr (Opens DB_NOTFOUND S k (ts ++ [t])) X := by
  refine Stage.call fun a => ?_
  obtain ⟨hsucc, hfail⟩ := h.going.ordinary (a := a) (c := .dbCreate t) holding_holds trivial
  by_cases ha : a.ret = 0
  · rw [if_neg (not_not.mpr ha)]
    have hbooks : (holding S k ts).plus (.dbCreate t) = holding S k (ts ++ [t]) := by
      simp [Books.plus, holding, Call.opens, Call.closes]
    have hgoing : Going DB_NOTFOUND (holding S k (ts ++ [t])) _ := hbooks ▸ hsucc ha
    have hord : ∀ c ∈ (if isSecondary then [Call.setFlags t] else []) ++
      [Call.dbOpen t b.createDBs], c.Ordinary := by
      cases isSecondary <;> simp [Call.Ordinary]
    have hopen : ((if isSecondary then [Call.setFlags t] else []) ++
      [Call.dbOpen t b.createDBs]).foldl Books.plus
        (holding S k (ts ++ [t])) = holding S k (ts ++ [t]) := by
      cases isSecondary <;> simp [Books.plus, holding, Call.opens, Call.closes]
    refine (hgoing.inTurn holding_holds hord).bind fun ret tr' ⟨hok, hbad⟩ =>
      Stage.pure ⟨fun hret => ?_, hbad⟩
    exact ⟨h.envP, by rw [h.dbps], hopen ▸ hok hret⟩
  · rw [if_pos ha]
    exact Stage.pure (opens_failed ha (hfail ha))

theorem stage_orReturn {p : HandleProgram (ℤ × BenchmarkDbs)}
    {next : BenchmarkDbs → HandleProgram (ℤ × BenchmarkDbs)} {ts' : List Table}
    (hp : Stage p tr (Opens DB_NOTFOUND S k ts) X)
    (hnext : ∀ b tr', Has DB_NOTFOUND S k ts b tr' →
      Stage (next b) tr' (Opens DB_NOTFOUND S k ts') X) :
    Stage (orReturn p next) tr (Opens DB_NOTFOUND S k ts') X := by
  refine hp.bind fun x tr' ⟨hsucc, hfail⟩ => ?_
  by_cases hx : x.1 = 0
  · rw [if_neg (not_not.mpr hx)]
    exact hnext _ _ (hsucc hx)
  · rw [if_pos hx]
    exact Stage.pure (opens_failed hx (hfail hx))

theorem stage_openSelected {which : ℕ} {ts' : List Table}
    (hsel : ∀ t ∈ ts', isSelected which t = true) (h : Has DB_NOTFOUND S k ts b tr) :
    Stage (openSelected which ts' b) tr (Opens DB_NOTFOUND S k (ts ++ ts')) X := by
  induction ts' generalizing ts b tr with
  | nil => exact Stage.pure ⟨fun _ => by rwa [List.append_nil], fun h0 => absurd rfl h0⟩
  | cons t ts' ih =>
    rw [openSelected, if_pos (hsel t (List.mem_cons_self ..))]
    refine stage_orReturn (stage_openDatabase h) fun b' tr' h' => ?_
    have hrest := ih (fun t' ht' => hsel t' (List.mem_cons_of_mem _ ht')) h'
    rwa [List.append_assoc, List.singleton_append] at hrest

theorem stage_openPortfolios (h : Has DB_NOTFOUND S k ts b tr) :
    Stage (openPortfolios b) tr
      (Opens DB_NOTFOUND S k (ts ++ [.portfolios] ++ [.portfoliosSec])) X := by
  refine stage_orReturn (stage_openDatabase h) fun b₁ tr₁ h₁ => ?_
  refine stage_orReturn (stage_openDatabase h₁) fun b₂ tr₂ h₂ => ?_
  refine Stage.call fun a => Stage.pure ?_
  obtain ⟨hsucc, hfail⟩ := h₂.going.ordinary (a := a) (c := .associate) holding_holds trivial
  rw [holding_plus rfl rfl] at hsucc
  exact ⟨fun ha => ⟨h₂.envP, h₂.dbps, hsucc ha⟩, hfail⟩

theorem stage_portfolios (h : Has DB_NOTFOUND S k ts b tr) :
    Stage (if isSelected ALL_DBS_FLAG .portfolios then openPortfolios b else return (0, b)) tr
      (Opens DB_NOTFOUND S k (ts ++ [.portfolios] ++ [.portfoliosSec])) X := by
  rw [if_pos (by decide)]
  exact stage_openPortfolios h

end Tables

/-! ## The environment -/

section Environment
variable {b : BenchmarkDbs} {X : List Entry → Prop}

def Undone (DB_NOTFOUND : ℤ) (tr : List Entry) : Prop :=
  (∃ e ∈ tr, e.Fails DB_NOTFOUND ∧ e.call.Early) ∧ ClosedOnce Entry.opens Entry.closes tr

theorem closedOnce_of_books {B : Books} (h : books tr = B)
    (hB : ∀ c ∈ B.opened, B.closed.count c = 1) : ClosedOnce Entry.opens Entry.closes tr := by
  subst h
  exact hB

theorem books_early (hc : c.Early) (ha : a.ret ≠ 0) : books (tr ++ [⟨c, a⟩]) = books tr := by
  have hopens : Entry.opens ⟨c, a⟩ = none := if_neg ha
  have hcloses : Entry.closes ⟨c, a⟩ = none := by
    cases c <;> simp_all [Entry.closes, Call.Early, Call.closes]
  have hcounts : Entry.counts ⟨c, a⟩ = none := by cases c <;> simp_all [Entry.counts, Call.Early]
  have hwalks : Entry.walks ⟨c, a⟩ = false := by simp [Entry.walks, Entry.Succeeds, ha]
  simp [books_snoc, Books.after, hopens, hcloses, hcounts, hwalks]

theorem fails_of_early (hc : c.Early) (ha : a.ret ≠ 0) : Entry.Fails DB_NOTFOUND ⟨c, a⟩ := by
  refine ⟨ha, ?_, ?_, ?_⟩ <;> cases c <;> simp_all [Call.Early, Call.closes]

theorem plain_of_early (hc : c.Early) : c.Plain := by
  cases c <;> simp_all [Call.Early, Call.Plain]

theorem undone_of_fails (hc : c.Early) (ha : a.ret ≠ 0) (h : books tr = ⟨[], [], [], 0⟩) :
    Undone DB_NOTFOUND (tr ++ [⟨c, a⟩]) :=
  ⟨⟨_, List.mem_append_right _ (List.mem_singleton_self _), fails_of_early hc ha, hc⟩,
    closedOnce_of_books ((books_early hc ha).trans h) (by simp)⟩

def OpensEnvironment (DB_NOTFOUND : ℤ) (b : BenchmarkDbs) (x : ℤ × BenchmarkDbs)
    (tr : List Entry) : Prop :=
  (x.1 = 0 → Has DB_NOTFOUND [] 0 b.dbps x.2 tr) ∧
    (x.1 ≠ 0 → x.2.dbps = b.dbps ∧ Undone DB_NOTFOUND tr)

theorem stage_setting {cs : List Call} (h : Going DB_NOTFOUND (holding [] 0 []) tr)
    (hcs : ∀ c ∈ cs, c.Early ∧ c.opens = none ∧ c.closes = none) :
    Stage (inTurn cs) tr (fun rc tr' => (rc = 0 → Going DB_NOTFOUND (holding [] 0 []) tr') ∧
      (rc ≠ 0 → books tr' = holding [] 0 [] ∧ ∃ e ∈ tr',
        e.Fails DB_NOTFOUND ∧ e.call.Early)) X := by
  refine (Stage.inTurn (I := fun cs tr' => (∀ c ∈ cs, c.Early ∧ c.opens = none ∧ c.closes = none) ∧
    Going DB_NOTFOUND (holding [] 0 []) tr') (fun c cs tr' a ⟨hcs, hgoing⟩ => ?_) ⟨hcs, h⟩).mono
    (fun rc tr' hrc => ⟨fun h0 => (hrc.1 h0).2, hrc.2⟩) fun _ hx => hx
  obtain ⟨hc, hopens, hcloses⟩ := hcs c (List.mem_cons_self ..)
  have hsame : (holding [] 0 []).plus c = holding [] 0 [] := holding_plus hopens hcloses
  refine ⟨fun ha => ⟨fun c' hc' => hcs c' (List.mem_cons_of_mem _ hc'), ?_⟩, fun ha => ⟨?_, ?_⟩⟩
  · exact hsame ▸ hgoing.succeeds (plain_of_early hc) ha
  · exact (books_early hc ha).trans hgoing.books
  · exact ⟨_, List.mem_append_right _ (List.mem_singleton_self _), fails_of_early hc ha, hc⟩

theorem stage_openEnvironment (hb : b.dbps = []) (h : Going DB_NOTFOUND ⟨[], [], [], 0⟩ tr) :
    Stage (openEnvironment b) tr (OpensEnvironment DB_NOTFOUND b) X := by
  refine Stage.call fun a => ?_
  by_cases ha : a.ret = 0
  · rw [if_neg (not_not.mpr ha)]
    have hopen : Going DB_NOTFOUND (holding [] 0 []) (tr ++ [⟨.dbEnvCreate, a⟩]) :=
      h.succeeds (c := .dbEnvCreate) (plain_of_early trivial) ha
    refine (stage_setting hopen (by simp [Call.Early, Call.opens, Call.closes])).bind
      fun rc tr' ⟨hok, hbad⟩ => ?_
    by_cases hrc : rc = 0
    · rw [if_neg (not_not.mpr hrc)]
      exact Stage.pure ⟨fun _ => ⟨rfl, rfl, by rw [hb]; exact hok hrc⟩, fun h0 => absurd rfl h0⟩
    · rw [if_pos hrc]
      obtain ⟨hbooks, e, he, hfails⟩ := hbad hrc
      refine Stage.call fun a' => Stage.pure ⟨fun h0 => absurd h0 one_ne_zero,
        fun _ => ⟨rfl, ?_, ?_⟩⟩
      · exact ⟨e, List.mem_append_left _ he, hfails⟩
      · have hclosed : books (tr' ++ [⟨.envClose, a'⟩]) =
          (holding [] 0 []).after ⟨.envClose, a'⟩ := by
          rw [books_snoc, hbooks]
        refine closedOnce_of_books hclosed ?_
        simp [holding, Books.after, Entry.opens, Call.opens, Entry.closes, Call.closes]
  · rw [if_pos ha]
    exact Stage.pure ⟨fun h0 => absurd h0 one_ne_zero,
      fun _ => ⟨rfl, undone_of_fails trivial ha h.books⟩⟩

/-- The tables in the order in which they are opened. -/
def openOrder : List Table :=
  [.stocks, .quotes, .quotesHist, .portfolios, .portfoliosSec, .accounts, .currencies, .personal]

/-- All tables, or what the failure has left. -/
def SetsUp (DB_NOTFOUND : ℤ) (x : ℤ × BenchmarkDbs) (tr : List Entry) : Prop :=
  (x.1 = 0 → Has DB_NOTFOUND [] 0 openOrder x.2 tr) ∧
    (x.1 ≠ 0 → x.2.dbps = [] ∧ Undone DB_NOTFOUND tr ∨ Leaking DB_NOTFOUND tr)

theorem stage_databasesSetup (hb : b.dbps = []) (h : Going DB_NOTFOUND ⟨[], [], [], 0⟩ tr) :
    Stage (databasesSetup b ALL_DBS_FLAG) tr (SetsUp DB_NOTFOUND) X := by
  refine (stage_openEnvironment hb h).bind fun x tr₁ ⟨hok, hbad⟩ => ?_
  by_cases hx : x.1 = 0
  · have h₁ : Has DB_NOTFOUND [] 0 [] x.2 tr₁ := hb ▸ hok hx
    rw [if_neg (by simp [hx, h₁.envP])]
    refine (stage_orReturn (stage_openSelected (by decide) h₁) fun b₂ tr₂ h₂ => ?_).mono
      (fun y tr' hy =>
      ⟨hy.1, fun h0 => Or.inr (hy.2 h0)⟩) fun _ hX => hX
    exact stage_orReturn (stage_portfolios h₂) fun b₃ tr₃ h₃ => stage_openSelected (by decide) h₃
  · rw [if_pos (Or.inl hx)]
    obtain ⟨hdbps, hundone⟩ := hbad hx
    exact Stage.pure ⟨fun h0 => absurd h0 one_ne_zero, fun _ => Or.inl ⟨hdbps.trans hb, hundone⟩⟩

end Environment

/-! ## Closing -/

section Closing
variable {S : List ℤ} {k : ℕ} {ts : List Table} {b : BenchmarkDbs} {X : List Entry → Prop}

def CloseFailed (DB_NOTFOUND : ℤ) (tr : List Entry) : Prop :=
  (∀ e ∈ tr, ¬ e.Fails DB_NOTFOUND) ∧ ∃ e ∈ tr, e.CloseFails

def releasing (S : List ℤ) (k : ℕ) (ts : List Table) (hs : List Handle) : Books :=
  ⟨.environment :: ts.map .table, hs, S, k⟩

theorem not_fails_of_closes {x : Handle} (hc : c.closes = some x) :
    ¬ Entry.Fails DB_NOTFOUND ⟨c, a⟩ := by
  rintro ⟨-, hnone, -⟩
  rw [hc] at hnone
  cases hnone

theorem Going.closing_step {hs : List Handle} {x : Handle}
    (h : Going DB_NOTFOUND (releasing S k ts hs) tr) (hc : c.closes = some x) :
    (a.ret = 0 → Going DB_NOTFOUND (releasing S k ts (hs ++ [x])) (tr ++ [⟨c, a⟩])) ∧
      (a.ret ≠ 0 → CloseFailed DB_NOTFOUND (tr ++ [⟨c, a⟩])) := by
  have hopens : c.opens = none := by cases c <;> simp_all [Call.closes, Call.opens]
  have hplain : c.Plain := by cases c <;> simp_all [Call.closes, Call.Plain]
  refine ⟨fun ha => ?_, fun ha => ⟨forall_mem_snoc.mpr ⟨h.clean, not_fails_of_closes hc⟩, ?_⟩⟩
  · have hbooks : (releasing S k ts hs).plus c = releasing S k ts (hs ++ [x]) := by
      simp [Books.plus, releasing, hopens, hc]
    exact hbooks ▸ h.succeeds hplain ha
  · exact ⟨_, List.mem_append_right _ (List.mem_singleton_self _), ha, by simp [Entry.closes, hc]⟩

/-- All tables are closed but the secondary one. -/
theorem stage_databasesClose (hb : b.envP = true) (hdbps : b.dbps = openOrder)
    (h : Going DB_NOTFOUND (releasing S k ts []) tr) :
    Stage (databasesClose b) tr (fun rc tr' =>
      (rc = 0 → Going DB_NOTFOUND (releasing S k ts (closeOrder.map .table)) tr') ∧
        (rc ≠ 0 → CloseFailed DB_NOTFOUND tr')) X := by
  have hfilter : closeOrder.filter (· ∈ b.dbps) = closeOrder := by
    rw [hdbps]
    decide
  rw [databasesClose, if_pos hb, hfilter]
  have hcalls : Stage (inTurn (closeOrder.map .dbClose)) tr (fun rc tr' =>
      (rc = 0 → Going DB_NOTFOUND (releasing S k ts (closeOrder.map .table)) tr') ∧
        (rc ≠ 0 → CloseFailed DB_NOTFOUND tr')) X := by
    refine (Stage.inTurn (I := fun cs tr' => ∃ done left, cs = left.map .dbClose ∧
      closeOrder = done ++ left ∧
      Going DB_NOTFOUND (releasing S k ts (done.map .table)) tr') (J := CloseFailed DB_NOTFOUND) ?_
      ⟨[], closeOrder, rfl, rfl, h⟩).mono ?_ fun _ hX => hX
    · rintro c cs tr' a ⟨done, left, hcs, hall, hgoing⟩
      obtain ⟨t, left', rfl, rfl, rfl⟩ := List.map_eq_cons_iff.mp hcs.symm
      obtain ⟨hok, hbad⟩ := hgoing.closing_step (c := .dbClose t) (a := a) rfl
      refine ⟨fun ha => ⟨done ++ [t], left', rfl, by rw [hall, List.append_assoc]; rfl, ?_⟩, hbad⟩
      rw [List.map_append]
      exact hok ha
    · rintro rc tr' ⟨hok, hbad⟩
      refine ⟨fun hrc => ?_, hbad⟩
      obtain ⟨done, left, hleft, hall, hgoing⟩ := hok hrc
      rw [List.map_eq_nil_iff.mp hleft.symm, List.append_nil] at hall
      rwa [hall]
  refine hcalls.bind fun rc tr' ⟨hok, hbad⟩ => ?_
  by_cases hrc : rc = 0
  · rw [if_neg (not_not.mpr hrc)]
    exact Stage.pure ⟨fun _ => hok hrc, fun h0 => absurd rfl h0⟩
  · rw [if_pos hrc]
    exact Stage.pure ⟨fun h0 => absurd h0 one_ne_zero, fun _ => hbad hrc⟩

/-- `benchmark_handle_free` gives back the environment last, and not the secondary table. -/
theorem stage_benchmarkHandleFree (h : Has DB_NOTFOUND S k openOrder b tr) :
    Stage (benchmarkHandleFree b) tr (fun rc tr' =>
      (rc = 0 →
        Going DB_NOTFOUND (releasing S k openOrder (closeOrder.map .table ++ [.environment])) tr') ∧
        (rc ≠ 0 → CloseFailed DB_NOTFOUND tr')) X := by
  refine (stage_databasesClose h.envP h.dbps h.going).bind fun rc tr₁ ⟨hok, hbad⟩ => ?_
  by_cases hrc : rc = 0
  · rw [if_neg (not_not.mpr hrc)]
    have henv : Stage (closeEnvironment b) tr₁ (fun rc tr' =>
        (rc = 0 → Going DB_NOTFOUND
          (releasing S k openOrder (closeOrder.map .table ++ [.environment])) tr') ∧
          (rc ≠ 0 → CloseFailed DB_NOTFOUND tr')) X := by
      rw [closeEnvironment, if_pos h.envP]
      exact Stage.call fun a => Stage.pure ((hok hrc).closing_step rfl)
    refine henv.bind fun rc' tr₂ ⟨hok', hbad'⟩ => ?_
    by_cases hrc' : rc' = 0
    · rw [if_neg (not_not.mpr hrc')]
      exact Stage.pure ⟨fun _ => hok' hrc', fun h0 => absurd rfl h0⟩
    · rw [if_pos hrc']
      exact Stage.pure ⟨fun h0 => absurd h0 one_ne_zero, fun _ => hbad' hrc'⟩
  · rw [if_pos hrc]
    exact Stage.pure ⟨fun h0 => absurd h0 one_ne_zero, fun _ => hbad hrc⟩

/-- Whatever `databases_close` closes, the environment stays open. -/
theorem Leaking.stage_giveUp (h : Leaking DB_NOTFOUND tr) :
    Stage (giveUp b) tr (fun x tr' => x = none ∧ Leaking DB_NOTFOUND tr') X := by
  have hclose : Stage (databasesClose b) tr (fun _ tr' => Leaking DB_NOTFOUND tr') X := by
    rw [databasesClose]
    split
    · refine Stage.bind (Stage.inTurn (I := fun cs tr' => (∀ c ∈ cs, c.Late) ∧
        Leaking DB_NOTFOUND tr')
        (J := Leaking DB_NOTFOUND) (fun c cs tr' a ⟨hcs, hleak⟩ => ?_) ⟨?_, h⟩)
          fun rc tr' ⟨hok, hbad⟩ => ?_
      · have hleak' := hleak.snoc (a := a) (hcs c (List.mem_cons_self ..))
        exact ⟨fun _ => ⟨fun c' hc' => hcs c' (List.mem_cons_of_mem _ hc'), hleak'⟩,
          fun _ => hleak'⟩
      · intro c hc
        obtain ⟨t, -, rfl⟩ := List.mem_map.mp hc
        simp [Call.Late, Call.Early, Call.closes]
      · split <;> exact Stage.pure (by_cases (fun hrc => (hok hrc).2) hbad)
    · exact Stage.pure h
  exact hclose.bind fun _ _ hleak => Stage.pure ⟨rfl, hleak⟩

theorem stage_giveUp_nil (hb : b.dbps = []) :
    Stage (giveUp b) tr (fun x tr' => x = none ∧ tr' = tr) X := by
  have hfilter : closeOrder.filter (· ∈ b.dbps) = [] := by simp [hb]
  have hclose : Stage (databasesClose b) tr (fun _ tr' => tr' = tr) X := by
    rw [databasesClose, hfilter]
    split
    · exact Stage.bind (Stage.pure (V := fun _ tr' => tr' = tr) rfl) fun rc _ htr => by
        split <;> exact Stage.pure htr
    · exact Stage.pure rfl
  exact hclose.bind fun _ _ htr => Stage.pure ⟨rfl, htr⟩

end Closing

/-! ## Reading the tables -/

section Symbols
variable {S : List ℤ} {n : ℤ} {k : ℕ} {ts : List Table} {b : BenchmarkDbs}

def RunOut (DB_NOTFOUND : ℤ) (tr : List Entry) : Prop :=
  (∀ e ∈ tr, ¬ e.Fails DB_NOTFOUND) ∧ Overrun tr

def Within (S : List ℤ) (k : ℕ) : Prop := ∀ numberStocks ∈ S, ∀ slot < k, (slot : ℤ) < numberStocks

theorem within_nil : Within [] k := by simp [Within]

theorem within_succ (hk : (k : ℤ) < n) : Within [n] (k + 1) := by
  intro n' hn slot hslot
  rw [List.mem_singleton.mp hn]
  omega

theorem Going.not_overrun {B : Books} (h : Going DB_NOTFOUND B tr)
    (hB : Within B.counted B.walked) : ¬ Overrun tr := by
  rintro ⟨n, hn, slot, hslot, hle⟩
  have hcounted : tr.filterMap Entry.counts = B.counted := congrArg Books.counted h.books
  have hwalked : tr.countP Entry.walks = B.walked := congrArg Books.walked h.books
  have hlt := hB n (hcounted ▸ hn) slot (hwalked ▸ hslot)
  omega

def Ready (DB_NOTFOUND : ℤ) (ts : List Table) (b : BenchmarkDbs) (tr : List Entry) : Prop :=
  ∃ S k, Within S k ∧ Has DB_NOTFOUND S k ts b tr

/-- Success with the tables open, or a failure that leaves the environment open. -/
def Reads (DB_NOTFOUND : ℤ) (ts : List Table) (x : ℤ × BenchmarkDbs) (tr : List Entry) : Prop :=
  (x.1 = 0 → Ready DB_NOTFOUND ts x.2 tr) ∧ (x.1 ≠ 0 → Leaking DB_NOTFOUND tr)

theorem reads_failed {ret : ℤ} (hret : ret ≠ 0) (h : Leaking DB_NOTFOUND tr) :
    Reads DB_NOTFOUND ts (ret, b) tr :=
  ⟨fun h0 => absurd h0 hret, fun _ => h⟩

theorem reads_ready (h : Ready DB_NOTFOUND ts b tr) :
    Reads DB_NOTFOUND ts (BENCHMARK_SUCCESS, b) tr :=
  ⟨fun _ => h, fun h0 => absurd rfl h0⟩

theorem Leaking.stage_symbolsFailed {cursorP : Bool} (h : Leaking DB_NOTFOUND tr) :
    Stage (symbolsFailed cursorP b) tr (Reads DB_NOTFOUND ts) (RunOut DB_NOTFOUND) := by
  have hlate : Call.abort.Late ∧ Call.cursorClose.Late := by
    simp [Call.Late, Call.Early, Call.closes]
  have habort : ∀ tr', Leaking DB_NOTFOUND tr' →
      Stage (Program.perform .abort >>= fun _ => pure (BENCHMARK_FAIL, b)) tr'
        (Reads DB_NOTFOUND ts)
        (RunOut DB_NOTFOUND) := fun tr' hleak =>
    Stage.call fun a => Stage.pure (reads_failed one_ne_zero (hleak.snoc hlate.1))
  cases cursorP with
  | false => exact habort tr h
  | true => exact Stage.call fun a => habort _ (h.snoc hlate.2)

theorem opens_none (hc : c.opens = none) : Entry.opens ⟨c, a⟩ = none := by simp [Entry.opens, hc]

theorem holding_after_get : (holding S k ts).after ⟨.get, a⟩ =
    holding S (k + if a.ret = 0 then 1 else 0) ts := by
  simp [Books.after, holding, opens_none (c := .get) rfl, Entry.closes, Call.closes, Entry.counts,
    Entry.walks, Entry.Succeeds]

def WalkEnds (DB_NOTFOUND n : ℤ) (ts : List Table) (ret : ℤ) (tr : List Entry) : Prop :=
  (ret = DB_NOTFOUND → ∃ k, Within [n] k ∧ Going DB_NOTFOUND (holding [n] k ts) tr) ∧
    (ret ≠ DB_NOTFOUND → Leaking DB_NOTFOUND tr)

theorem stage_nextSymbol (hk : Within [n] k) (h : Going DB_NOTFOUND (holding [n] k ts) tr) :
    Stage (nextSymbol n k) tr (fun x tr' => x.elim
      (fun k' => (Within [n] k' ∧ Going DB_NOTFOUND (holding [n] k' ts) tr') ∧
        (n - k').toNat < (n - k).toNat)
      fun ret => WalkEnds DB_NOTFOUND n ts ret tr') (RunOut DB_NOTFOUND) := by
  refine Stage.call fun a => ?_
  have hsnoc : ¬ Entry.Fails DB_NOTFOUND ⟨.get, a⟩ →
    Going DB_NOTFOUND (holding [n] (k + if a.ret = 0 then 1 else 0) ts)
      (tr ++ [⟨.get, a⟩]) := fun hfails =>
    holding_after_get ▸ h.snoc hfails fun hclose => hclose.2 rfl
  by_cases ha : a.ret = 0
  · rw [if_neg (not_not.mpr ha)]
    have hgoing := hsnoc fun hfails => hfails.1 ha
    rw [if_pos ha] at hgoing
    split
    · next hslot =>
      have hnext : (Within [n] (k + 1) ∧
        Going DB_NOTFOUND (holding [n] (k + 1) ts) (tr ++ [⟨.get, a⟩])) ∧
          (n - (k + 1 : ℕ)).toNat < (n - k).toNat := ⟨⟨within_succ hslot, hgoing⟩, by omega⟩
      exact Stage.pure hnext
    · next hslot =>
      have hcounted : List.filterMap Entry.counts (tr ++ [⟨.get, a⟩]) = [n] :=
        congrArg Books.counted hgoing.books
      have hwalked : List.countP Entry.walks (tr ++ [⟨.get, a⟩]) = k + 1 :=
        congrArg Books.walked hgoing.books
      have hover : Overrun (tr ++ [⟨.get, a⟩]) := by
        refine ⟨n, ?_, k, ?_, not_lt.mp hslot⟩
        · rw [hcounted]
          exact List.mem_singleton_self n
        · rw [hwalked]
          exact Nat.lt_succ_self k
      exact fun _ => wp_crash.mpr ⟨hgoing.clean, hover⟩
  · rw [if_pos ha]
    have hend : WalkEnds DB_NOTFOUND n ts a.ret (tr ++ [⟨.get, a⟩]) := by
      refine ⟨fun hret => ⟨k, hk, ?_⟩, fun hret => ?_⟩
      · have hgoing := hsnoc fun hfails => hfails.2.2.2 ⟨rfl, hret⟩
        rwa [if_neg ha] at hgoing
      · exact h.leaks holding_holds id ⟨ha, rfl, by simp, fun hget => hret hget.2⟩
    exact Stage.pure hend

theorem stage_walk (h : Going DB_NOTFOUND (holding [n] 0 ts) tr) :
    Stage (loop (nextSymbol n) 0) tr (WalkEnds DB_NOTFOUND n ts) (RunOut DB_NOTFOUND) :=
  Stage.loop (fun k tr' => Within [n] k ∧ Going DB_NOTFOUND (holding [n] k ts) tr')
    (fun k => (n - k).toNat)
    (fun _ _ hk => stage_nextSymbol hk.1 hk.2) ⟨by simp [Within], h⟩

theorem stage_benchmarkStocksSymbolsGet (h : Has DB_NOTFOUND [] 0 ts b tr) :
    Stage (benchmarkStocksSymbolsGet DB_NOTFOUND b) tr (Reads DB_NOTFOUND ts)
      (RunOut DB_NOTFOUND) := by
  rw [benchmarkStocksSymbolsGet, if_neg (by simp [h.envP])]
  refine Stage.call fun begun => ?_
  obtain ⟨hok, hbad⟩ := h.going.ordinary (a := begun) (c := .txnBegin) holding_holds trivial
  by_cases hbegun : begun.ret = 0
  swap
  · rw [if_pos hbegun]
    exact Stage.pure (reads_failed one_ne_zero (hbad hbegun))
  rw [if_neg (not_not.mpr hbegun)]
  have hgoing := hok hbegun
  rw [holding_plus rfl rfl] at hgoing
  refine Stage.call fun stat => ?_
  by_cases hstat : stat.ret = 0
  swap
  · rw [if_pos hstat]
    exact (hgoing.leaks holding_holds id ⟨hstat, rfl, by simp, by simp⟩).stage_symbolsFailed
  rw [if_neg (not_not.mpr hstat)]
  have hcounted : (holding [] 0 ts).after ⟨.stat .stocks, stat⟩ =
    holding [int32 stat.btNkeys] 0 ts := by
    simp [Books.after, holding, Entry.opens, Call.opens, Entry.closes, Call.closes, Entry.counts,
      Entry.walks]
  have hgoing :=
    hcounted ▸ hgoing.snoc (c := .stat .stocks) (a := stat) (fun hfails => hfails.1 hstat)
    fun hfails => hfails.1 hstat
  have hord : ∀ c ∈ [Call.calloc (int32 stat.btNkeys), Call.cursor], c.Ordinary := by
    simp [Call.Ordinary]
  refine (hgoing.inTurn holding_holds hord).bind fun ret tr₁ ⟨hok, hbad⟩ => ?_
  by_cases hret : ret = 0
  swap
  · rw [if_pos hret]
    exact (hbad hret).stage_symbolsFailed
  rw [if_neg (not_not.mpr hret)]
  have hgoing := hok hret
  rw [List.foldl_cons, List.foldl_cons, List.foldl_nil, holding_plus rfl rfl,
    holding_plus rfl rfl] at hgoing
  refine (stage_walk hgoing).bind fun ret tr₂ ⟨hok, hbad⟩ => ?_
  by_cases hret : ret = DB_NOTFOUND
  swap
  · rw [if_pos hret]
    exact (hbad hret).stage_symbolsFailed
  rw [if_neg (not_not.mpr hret)]
  obtain ⟨k, hk, hgoing⟩ := hok hret
  refine Stage.call fun closed => Stage.call fun committed => ?_
  have hclosed : (holding [int32 stat.btNkeys] k ts).after ⟨.cursorClose, closed⟩ =
      holding [int32 stat.btNkeys] k ts := by
    simp [Books.after, holding, Entry.opens, Call.opens, Entry.closes, Call.closes, Entry.counts,
      Entry.walks]
  have hgoing :=
    hclosed ▸ hgoing.snoc (c := .cursorClose) (a := closed) (fun hfails => hfails.2.2.1 rfl)
    fun hfails => hfails.2 rfl
  obtain ⟨hok, hbad⟩ := hgoing.ordinary (a := committed) (c := .commit) holding_holds trivial
  by_cases hcommitted : committed.ret = 0
  · rw [if_neg (not_not.mpr hcommitted)]
    have hgoing := hok hcommitted
    rw [holding_plus rfl rfl] at hgoing
    exact Stage.pure (reads_ready ⟨_, k, hk, h.envP, h.dbps, hgoing⟩)
  · rw [if_pos hcommitted]
    exact (hbad hcommitted).stage_symbolsFailed

theorem stage_benchmarkPortfoliosStatsGet (hts : .portfolios ∈ ts) (h : Ready DB_NOTFOUND ts b tr)
    {X : List Entry → Prop} :
    Stage (benchmarkPortfoliosStatsGet b) tr (Reads DB_NOTFOUND ts) X := by
  obtain ⟨S, k, hk, h⟩ := h
  rw [benchmarkPortfoliosStatsGet, if_neg (by simp [h.envP, h.dbps, hts])]
  refine Stage.call fun stat => ?_
  obtain ⟨hok, hbad⟩ := h.going.ordinary (a := stat) (c := .stat .portfolios) holding_holds
    (by simp [Call.Ordinary])
  by_cases hstat : stat.ret = 0
  · rw [if_neg (not_not.mpr hstat)]
    have hgoing := hok hstat
    rw [holding_plus rfl rfl] at hgoing
    exact Stage.pure (reads_ready ⟨S, k, hk, h.envP, h.dbps, hgoing⟩)
  · rw [if_pos hstat]
    exact Stage.pure (reads_failed one_ne_zero (hbad hstat))

end Symbols

/-! ## The handle -/

def Allocates (DB_NOTFOUND : ℤ) : Option BenchmarkDbs → List Entry → Prop
  | none, tr => Undone DB_NOTFOUND tr ∨ Leaking DB_NOTFOUND tr
  | some b, tr => Ready DB_NOTFOUND openOrder b tr

theorem stage_benchmarkHandleAlloc (create : Bool) :
    Stage (benchmarkHandleAlloc DB_NOTFOUND create) [] (Allocates DB_NOTFOUND)
      (RunOut DB_NOTFOUND) := by
  have hgiveUp : ∀ {b tr}, Leaking DB_NOTFOUND tr →
      Stage (giveUp b) tr (Allocates DB_NOTFOUND) (RunOut DB_NOTFOUND) := by
    intro b tr h
    exact h.stage_giveUp.mono (fun x tr' ⟨hx, hleak⟩ => hx ▸ Or.inr hleak) fun _ hX => hX
  refine Stage.call fun a => ?_
  by_cases ha : a.ret = 0
  swap
  · rw [if_pos ha]
    exact Stage.pure (Or.inl (undone_of_fails trivial ha rfl))
  rw [if_neg (not_not.mpr ha)]
  have hmalloc : Going DB_NOTFOUND ⟨[], [], [], 0⟩ ([] ++ [⟨.malloc, a⟩]) :=
    Going.nil.succeeds (c := .malloc) (plain_of_early trivial) ha
  refine (stage_databasesSetup rfl hmalloc).bind fun x tr₁ ⟨hok, hbad⟩ => ?_
  by_cases hx : x.1 = 0
  swap
  · rw [if_pos hx]
    rcases hbad hx with ⟨hdbps, hundone⟩ | hleak
    · exact (stage_giveUp_nil hdbps).mono (fun y tr' ⟨hy, htr⟩ => hy ▸ htr ▸ Or.inl hundone)
        fun _ hX => hX
    · exact hgiveUp hleak
  rw [if_neg (not_not.mpr hx)]
  have h₁ := hok hx
  cases create with
  | true => exact Stage.pure ⟨[], 0, within_nil, h₁.envP, h₁.dbps, h₁.going⟩
  | false =>
    refine (stage_benchmarkStocksSymbolsGet h₁).bind fun y tr₂ ⟨hok, hbad⟩ => ?_
    by_cases hy : y.1 = 0
    swap
    · rw [if_pos hy]
      exact hgiveUp (hbad hy)
    rw [if_neg (not_not.mpr hy)]
    refine (stage_benchmarkPortfoliosStatsGet (by decide) (hok hy)).bind fun z tr₃ ⟨hok, hbad⟩ => ?_
    by_cases hz : z.1 = 0
    · rw [if_neg (not_not.mpr hz)]
      exact Stage.pure (hok hz)
    · rw [if_pos hz]
      exact hgiveUp (hbad hz)

/-- Nothing is left open exactly in these runs. -/
def Spared (DB_NOTFOUND : ℤ) (tr : List Entry) : Prop :=
  (∃ e ∈ tr, e.Fails DB_NOTFOUND ∧ e.call.Early) ∨
    ((∀ e ∈ tr, ¬ e.Fails DB_NOTFOUND) ∧ (Overrun tr ∨ ∃ e ∈ tr, e.CloseFails))

theorem Leaking.not_spared (h : Leaking DB_NOTFOUND tr) : ¬ Spared DB_NOTFOUND tr := by
  rintro (⟨e, he, hfails, hearly⟩ | ⟨hclean, -⟩)
  · exact h.late e he hfails hearly
  · obtain ⟨e, he, hfails⟩ := h.failed
    exact hclean e he hfails

/-- Once a handle is freed, the secondary table is what is left open. -/
theorem freed_leaks {S : List ℤ} {k : ℕ}
    (h : Going DB_NOTFOUND (releasing S k openOrder (closeOrder.map .table ++ [.environment])) tr) :
    ¬ ClosedOnce Entry.opens Entry.closes tr := by
  intro hclosed
  have hopened : .table .portfoliosSec ∈ tr.filterMap Entry.opens := by
    rw [h.opened_eq]
    simp [releasing, openOrder]
  have hone := hclosed _ hopened
  rw [h.closed_eq] at hone
  simp [releasing, closeOrder] at hone

theorem freed_not_spared {S : List ℤ} {k : ℕ} {hs : List Handle} (hk : Within S k)
    (h : Going DB_NOTFOUND (releasing S k openOrder hs) tr) : ¬ Spared DB_NOTFOUND tr := by
  rintro (⟨e, he, hfails, -⟩ | ⟨-, hover | ⟨e, he, hfails⟩⟩)
  · exact h.clean e he hfails
  · exact h.not_overrun hk hover
  · exact h.closing e he hfails

/-- Handles do not leak if and only if opening the environment fails, or everything is
allocated and then the walk runs out of slots or something cannot be closed. -/
theorem lifetime_noLeak_iff (answers : ℕ → Answer) (DB_NOTFOUND : ℤ) (create : Bool) :
    wp (answering answers) (lifetime DB_NOTFOUND create) [] fun o tr => NoLeak o tr ↔
      Spared DB_NOTFOUND tr := by
  refine wp_bind'.mpr (wp_mono (stage_benchmarkHandleAlloc create answers) ?_)
  rintro ((_ | b) | _) tr h
  · refine wp_pure.mpr ?_
    rcases h with ⟨hearly, hclosed⟩ | hleak
    · exact iff_of_true ⟨fun _ => hclosed, fun hfreed => by cases hfreed⟩ (Or.inl hearly)
    · exact iff_of_false (fun hno => hleak.not_closedOnce (hno.failed rfl)) hleak.not_spared
  · obtain ⟨S, k, hk, hhas⟩ := h
    refine wp_bind'.mpr (wp_mono (stage_benchmarkHandleFree hhas (X := fun _ => False) answers) ?_)
    rintro (rc | _) tr' h
    · obtain ⟨hok, hbad⟩ := h
      refine wp_pure.mpr ?_
      by_cases hrc : rc = 0
      · have hleaks := freed_leaks (hok hrc)
        exact iff_of_false (fun hno => hleaks (hno.freed (by rw [hrc])).1)
          (freed_not_spared hk (hok hrc))
      · obtain ⟨hclean, hclose⟩ := hbad hrc
        have hno : NoLeak (.value (some rc)) tr' := {
          failed := by simp
          freed := by simp [hrc] }
        exact iff_of_true hno (Or.inr ⟨hclean, Or.inr hclose⟩)
    · exact h.elim
  · exact iff_of_true ⟨by simp, by simp⟩ (Or.inr ⟨h.1, Or.inl h.2⟩)

/-- Nothing fails, and the table of the portfolios by account is never closed. -/
theorem lifetime_leaks : ¬ ∀ (answers : ℕ → Answer) (DB_NOTFOUND : ℤ) (create : Bool),
    wp (answering answers) (lifetime DB_NOTFOUND create) [] NoLeak := by
  intro hno
  obtain ⟨o, tr, hrun, hnoLeak⟩ := hno (fun _ => ⟨0, 0⟩) (-30988) true
  have hfreed : ∃ tr', run (answering fun _ => ⟨0, 0⟩) 40 (lifetime (-30988) true) [] =
      some (.value (some BENCHMARK_SUCCESS), tr') ∧
      .table .portfoliosSec ∈ tr'.filterMap Entry.opens ∧
        .table .portfoliosSec ∉ tr'.filterMap Entry.closes :=
    ⟨_, rfl, by decide, by decide⟩
  obtain ⟨tr', hrun', hopened, hkept⟩ := hfreed
  obtain ⟨rfl, rfl⟩ := hrun.deterministic (Exec.of_run hrun')
  have hone := (hnoLeak.freed rfl).1 _ hopened
  rw [List.count_eq_zero_of_not_mem hkept] at hone
  exact absurd hone (by decide)

end Chronos.Setup
