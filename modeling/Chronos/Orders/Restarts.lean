import Chronos.Benchmark.Handle
import Chronos.Orders.PortfolioIds
import Chronos.Orders.Whole

/-! # Ids of portfolios across aborts and restarts

An abort undoes what a purchase wrote but not the counter, and a restart sets the
counter to the number of records. As long as every restart finds the ids in use
below that number, no purchase inserts a record under a key that is taken.
-/
namespace Chronos.Orders
open Foundation Storage Benchmark Program
variable {F α : Type} {self : Txn}

/-- The insert meets a record. -/
def Collides (e : Entry F) : Prop :=
  ∃ t k p, e.call = .portfoliosInsert t k p ∧ e.before.portfolios.view t k ≠ none

def collides (e : Entry F) : Bool :=
  match e.call with
  | .portfoliosInsert t k _ => (e.before.portfolios.view t k).isSome
  | _ => false

theorem collides_iff {e : Entry F} : collides e = true ↔ Collides e := by
  obtain ⟨before, c, a⟩ := e
  cases c <;> simp [collides, Collides, Option.isSome_iff_ne_none]

instance (e : Entry F) : Decidable (Collides e) := decidable_of_iff _ collides_iff

/-- No other thread; any call may be made to fail; no insert meets a record. -/
def faulty (F : Type) : Regime F where
  shared := False
  mayFail := True
  owes c _ w := ∀ t k p, c = .portfoliosInsert t k p → w.portfolios.view t k = none
  plain _ _ _ _ _ hc t k p h := absurd h (hc t k p)

/-! ## One purchase -/

section Items
variable {mk : Market F} {c₀ : CStr → Option Portfolio} {n₀ : ℕ} {data : List (BenchmarkXactData F)}

def Applied (t : Txn) (mk : Market F) (c₀ : CStr → Option Portfolio) (n₀ : ℕ)
    (done : List (BenchmarkXactData F)) (w : Db F) : Prop :=
  ∃ n : ℕ, n₀ ≤ n ∧ n ≤ n₀ + done.length ∧ w.numberPortfolios = n ∧ Underway t mk c₀ n w

def Numbered (t : Txn) (mk : Market F) (c₀ : CStr → Option Portfolio) (n₀ : ℕ)
    (done : List (BenchmarkXactData F)) (id : ℤ) (w : Db F) : Prop :=
  ∃ n : ℕ, n₀ ≤ n ∧ n ≤ n₀ + done.length ∧ id = n ∧ w.numberPortfolios = (n + 1 : ℕ) ∧
    Underway t mk c₀ n w

theorem Applied.mono {done : List (BenchmarkXactData F)} {w : Db F}
    (h : Applied self mk c₀ n₀ done w) {done' : List (BenchmarkXactData F)}
    (hle : done.length ≤ done'.length) : Applied self mk c₀ n₀ done' w := by
  obtain ⟨n, hn₀, hn, hcounter, hu⟩ := h
  exact ⟨n, hn₀, by omega, hcounter, hu⟩

theorem Numbered.applied {done : List (BenchmarkXactData F)} {w : Db F} {id : ℤ}
    (h : Numbered self mk c₀ n₀ done id w) (d : BenchmarkXactData F) :
    Applied self mk c₀ n₀ (done ++ [d]) w := by
  obtain ⟨n, hn₀, hn, -, hcounter, hu⟩ := h
  exact ⟨n + 1, by omega, by simp; omega, hcounter, hu.mono (Nat.le_succ n)⟩

theorem applied_steady (done : List (BenchmarkXactData F)) :
    Steady self (faulty F) mk [] (Applied self mk c₀ n₀ done) := by
  refine Underway.steady id (fun w ⟨n, _, _, _, h⟩ => ⟨c₀, n, h⟩) ?_
  rintro w w' ⟨n, hn₀, hn, hcounter, hu⟩ hd
  exact ⟨n, hn₀, hn, hd.numberPortfolios.trans hcounter, hu.sameData hd⟩

variable [CFloat F]

theorem numbering (hids : n₀ + data.length < 2 ^ 31) {done rest : List (BenchmarkXactData F)}
    {d : BenchmarkXactData F} (hdata : data = done ++ d :: rest) :
    Purchasing self (faulty F) mk d (Applied self mk c₀ n₀ done) (Numbered self mk c₀ n₀ done)
      (Applied self mk c₀ n₀ (done ++ [d])) where
  before := applied_steady done
  taken hshared := hshared.elim
  after := applied_steady (done ++ [d])
  take := by
    rintro w ⟨n, hn₀, hn, hcounter, hu⟩ - -
    have hlength := congrArg List.length hdata
    rw [List.length_append, List.length_cons] at hlength
    refine ⟨n, hn₀, hn, hcounter, ?_, hu.market, hu.committed, hu.keys⟩
    simp only [hcounter]
    rw [int32_eq_self (by norm_num; omega) (by norm_num; omega)]
    push_cast
    rfl
  bought := by
    rintro w k p ⟨n, hn₀, hn, hcounter, hu⟩ - hview - -
    exact ⟨n, hn₀, by simp; omega, hcounter, hu.rewrite hview _⟩
  created := by
    rintro _ w ⟨n, hn₀, hn, rfl, hcounter, hu⟩ - -
    exact ⟨n + 1, by omega, by simp; omega, hcounter, hu.insert d.accountId _⟩
  owesInsert := by
    rintro _ ok w ⟨n, hn₀, hn, rfl, hcounter, hu⟩ t k p ⟨⟩
    have hlength := congrArg List.length hdata
    rw [List.length_append, List.length_cons] at hlength
    exact hu.keys.fresh (by omega) d.accountId
  owesPut := by
    rintro c k p ok w - - - - - t k' p' ⟨⟩

/-- A purchase that starts with the counter above the keys also ends so. -/
theorem does_purchase {w₀ : Db F} (h₀ : Idle self n₀ w₀) (hids : n₀ + data.length < 2 ^ 31) :
    Does self (faulty F) (fun w => w = w₀) (benchmarkPurchase2 data)
      fun _ w => ∃ n < 2 ^ 31, Idle self n w := by
  have hstable : ∀ {P : Prop}, (faulty F).shared → P := fun h => h.elim
  have hkeys : ∀ n, n₀ ≤ n → KeysBelow n w₀.portfolios.committed := fun n hle => h₀.keys.mono hle
  have habort : ∀ w : Db F, Applied self (marketOf w₀) w₀.portfolios.committed n₀ data w →
      ∃ n < 2 ^ 31, Idle self n (w.abort self) := fun w ⟨n, hn₀, hn, hcounter, hu⟩ =>
    ⟨n, by omega, hu.abort (hkeys n hn₀) hcounter⟩
  have hstart : Applied self (marketOf w₀) w₀.portfolios.committed n₀ [] w₀ :=
    ⟨n₀, le_rfl, le_rfl, h₀.counter, h₀.underway⟩
  refine (does_inXact (A := Applied self (marketOf w₀) w₀.portfolios.committed n₀)
    (U := Applied self (marketOf w₀) w₀.portfolios.committed n₀ data) (D := fun w => ∃ n < 2 ^ 31,
      Idle self n w)
    (N := fun w => ∃ n < 2 ^ 31, Idle self n w) ?_ _).post
      fun rc w hw => hw.elim (fun h => h.2) fun h => h.2
  exact {
    start := by
      rintro w rfl
      exact hstart
    startStable := hstable
    item := by
      intro done d rest hdata
      have hle : (done ++ [d]).length ≤ data.length := by
        rw [hdata]
        simp
      refine (does_placeOrder (numbering hids hdata)).post ?_
      rintro rc w (⟨hrc, -, hB⟩ | ⟨hrc, hw, -⟩)
      · exact .inl ⟨hrc, hB⟩
      · refine .inr ⟨by rw [hrc]; decide, ?_⟩
        rcases hw with hA | ⟨id, hA'⟩ | hB
        · exact hA.mono (by simp at hle; omega)
        · exact (hA'.applied d).mono hle
        · exact hB.mono hle
    owes := fun ok w _ t k p h => by cases h
    commit := fun w _ ⟨n, _, hn, hcounter, hu⟩ => ⟨n, by omega, hu.commit hcounter⟩
    commitStable := hstable
    abort := fun w _ h => habort w h
    abortStable := hstable
    notBegun := by
      rintro - w - rfl
      exact ⟨⟨n₀, by omega, h₀⟩, habort w (hstart.mono (Nat.zero_le _))⟩
    notCommitted := fun _ w _ h => habort w h
    again := fun _ w _ ⟨n, hn, h⟩ => ⟨n, hn, h.underway.abort h.keys h.counter⟩ }

end Items

/-! ## Histories -/

/-- What happens to the server, one thing after another. -/
inductive Event (F : Type) where
  | purchase (data : List (BenchmarkXactData F))
  | restart

/-- A restart finds every id in use below the number of records; a purchase finds the
counter so low that it does not wrap around. -/
def Meets : Event F × Db F → Prop
  | (.purchase data, db) => db.numberPortfolios + data.length < INT_BOUND
  | (.restart, db) => ∀ k p, db.portfolios.committed k = some p →
    ∃ (i : ℕ) (accountId : CStr), (i : ℤ) < portfoliosNkeys db ∧ k = portfolioIdString i accountId

/-- No transaction is open and the counter is above the keys. -/
def Ready (t : Txn) (db : Db F) : Prop := db.WellFormed ∧ ∃ n < 2 ^ 31, Idle t n db

theorem int32_bounds (x : ℤ) : -INT_BOUND ≤ int32 x ∧ int32 x < INT_BOUND := by
  unfold int32
  have hlo := Int.le_bmod (x := x) (m := 2 ^ 32) (by norm_num)
  have hhi := Int.bmod_lt (x := x) (m := 2 ^ 32) (by norm_num)
  norm_num at hlo hhi ⊢
  omega

theorem numberPortfolios_benchmarkHandleAlloc (db : Db F) :
    (benchmarkHandleAlloc db).numberPortfolios = portfoliosNkeys db := by
  simp only [benchmarkHandleAlloc, benchmarkPortfoliosStatsGet, portfoliosNkeys, databasesSetup,
    LockTable.committedKeys_recover]

theorem ready_of_restart {db : Db F} (h : Meets (.restart, db)) :
    Ready self (benchmarkHandleAlloc db) := by
  have hwf : (benchmarkHandleAlloc db).WellFormed :=
    ⟨List.nodup_nil, fun _ hoc => absurd hoc List.not_mem_nil, fun _ => rfl⟩
  have hpos : 0 ≤ portfoliosNkeys db := by
    cases hkeys : db.portfolios.committedKeys with
    | nil => simp [portfoliosNkeys, hkeys, int32]
    | cons k ks =>
      have hk : k ∈ db.portfolios.committedKeys := by simp [hkeys]
      obtain ⟨p, hp⟩ := LockTable.mem_committedKeys.mp hk
      obtain ⟨i, -, hi, -⟩ := h k p hp
      omega
  have hlt := (int32_bounds db.portfolios.committedKeys.length).2
  refine ⟨hwf, (portfoliosNkeys db).toNat, ?_, ?_, ?_, ?_⟩
  · unfold portfoliosNkeys at hpos ⊢
    norm_num at hlt ⊢
    omega
  · exact fun _ => rfl
  · intro k p hp
    obtain ⟨i, a, hi, rfl⟩ := h k p hp
    exact ⟨i, by omega, a, rfl⟩
  · rw [Int.toNat_of_nonneg hpos, numberPortfolios_benchmarkHandleAlloc]

variable [CFloat F]

/-- Purchases and restarts, with the database that each one finds and the calls that
are made. A purchase that crashes is followed by a restart. -/
inductive History (t : Txn) : Db F → List (Event F × Db F) → List (Entry F) → Db F → Prop
  | nil {db : Db F} : History t db [] [] db
  | purchase {db db' : Db F} {data : List (BenchmarkXactData F)} {faults : Faults} {rc : Rc}
      {s' : Session F} {events : List (Event F × Db F)} {tr : List (Entry F)} :
      Exec (Session.answer t faults) (benchmarkPurchase2 data) ⟨db, []⟩ (.value rc) s' →
      History t s'.db events tr db' →
        History t db ((.purchase data, db) :: events) (s'.trace ++ tr) db'
  | crash {db db' : Db F} {data : List (BenchmarkXactData F)} {faults : Faults} {s' : Session F}
      {events : List (Event F × Db F)} {tr : List (Entry F)} :
      Exec (Session.answer t faults) (benchmarkPurchase2 data) ⟨db, []⟩ .crashed s' →
      History t (benchmarkHandleAlloc s'.db) events tr db' →
      History t db ((.purchase data, db) :: (.restart, s'.db) :: events) (s'.trace ++ tr) db'
  | restart {db db' : Db F} {events : List (Event F × Db F)} {tr : List (Entry F)} :
      History t (benchmarkHandleAlloc db) events tr db' →
        History t db ((.restart, db) :: events) tr db'

theorem purchase_fresh {data : List (BenchmarkXactData F)} {db : Db F} {faults : Faults}
    {o : Outcome Rc} {s' : Session F} (h₀ : Ready self db) (hmeets : Meets (.purchase data, db))
    (he : Exec (Session.answer self faults) (benchmarkPurchase2 data) ⟨db, []⟩ o s') :
    (∀ e ∈ s'.trace, ¬ Collides e) ∧ ∀ rc, o = .value rc → Ready self s'.db := by
  obtain ⟨hwf, n, hn, hidle⟩ := h₀
  have hids : n + data.length < 2 ^ 31 := by
    simp only [Meets, hidle.counter] at hmeets
    norm_num at hmeets
    omega
  have hrun := Outline.exec (E := orders self (faulty F)) (π := Session.db)
    (J := fun s => ∀ e ∈ s.trace, ¬ Collides e)
    (fun _ _ _ _ h => act_answer (fun _ _ => trivial) h) ?_ he (does_purchase hidle hids) ⟨hwf, rfl⟩
      (by simp)
  · refine ⟨hrun.2, ?_⟩
    rintro rc rfl
    exact hrun.1
  · intro c s a s₁ hs hanswer hguar e he
    have hrecorded := recorded_answer hanswer
    cases c with
    | db c =>
      rw [hrecorded, List.mem_append, List.mem_singleton] at he
      rcases he with he | rfl
      · exact hs e he
      · rintro ⟨t, k, p, hc, hview⟩
        exact hview (hguar.2.2 t k p hc)
    | fetchAndAdd => exact hs e (hrecorded ▸ he)
    | rand => exact hs e (hrecorded ▸ he)

/-- In a history whose purchases and restarts find what they need, the key that
`create_portfolio` makes of the next id is never taken. -/
theorem ids_fresh_of_meets (t : Txn) (personal stocks : List CStr) (quotes : LockTable CStr Txn F)
    (rand : ℕ → ℕ) (hquotes : ∀ k, (quotes.cell k).pending = none) (events : List (Event F × Db F))
    (tr : List (Entry F)) (db : Db F)
    (h : History t (Db.fresh personal stocks quotes rand) events tr db)
    (hmeets : ∀ x ∈ events, Meets x) : ∀ e ∈ tr, ¬ Collides e := by
  have hready : Ready t (Db.fresh personal stocks quotes rand) :=
    ⟨⟨List.nodup_nil, fun _ hoc => absurd hoc List.not_mem_nil, hquotes⟩, 0, by norm_num,
      ⟨fun _ => rfl, fun _ _ hp =>
        absurd hp (by simp [Db.fresh, LockTable.committed, LockTable.empty, Cell.empty]), rfl⟩⟩
  generalize Db.fresh personal stocks quotes rand = db₀ at h hready
  induction h with
  | nil => simp
  | purchase he _ ih =>
    obtain ⟨hfresh, hnext⟩ := purchase_fresh hready (hmeets _ List.mem_cons_self) he
    intro e hmem
    rcases List.mem_append.mp hmem with hmem | hmem
    · exact hfresh e hmem
    · exact ih (fun x hx => hmeets x (List.mem_cons_of_mem _ hx)) (hnext _ rfl) e hmem
  | crash he _ ih =>
    obtain ⟨hfresh, -⟩ := purchase_fresh hready (hmeets _ List.mem_cons_self) he
    intro e hmem
    rcases List.mem_append.mp hmem with hmem | hmem
    · exact hfresh e hmem
    · refine ih (fun x hx => hmeets x (List.mem_cons_of_mem _ (List.mem_cons_of_mem _ hx)))
        ?_ e hmem
      exact ready_of_restart (hmeets _ (List.mem_cons_of_mem _ List.mem_cons_self))
  | restart _ ih =>
    exact ih (fun x hx => hmeets x (List.mem_cons_of_mem _ hx))
      (ready_of_restart (hmeets _ List.mem_cons_self))

/-- The purchase in which no call fails, if it is done after so many calls. -/
def purchaseRun (t : Txn) (n : ℕ) (data : List (BenchmarkXactData F)) (db : Db F) :
    Option (Session F) :=
  match run (Session.answer t noFaults) n (benchmarkPurchase2 data) ⟨db, []⟩ with
  | some (.value _, s) => some s
  | _ => none

theorem exec_of_purchaseRun {t : Txn} {n : ℕ} {data : List (BenchmarkXactData F)} {db : Db F}
    {s : Session F} (h : purchaseRun t n data db = some s) :
    ∃ rc, Exec (Session.answer t noFaults) (benchmarkPurchase2 data) ⟨db, []⟩ (.value rc) s := by
  unfold purchaseRun at h
  split at h
  · rename_i hrun
    cases h
    exact ⟨_, .of_run hrun⟩
  · cases h

/-- A purchase adds a record, a restart counts it, and the next purchase adds another one. -/
theorem ids_fresh_of_meets_restart : ∃ db₁ tr db,
    History 1 (Db.fresh [[49], [50]] [[65]] ((LockTable.empty.write 0 [65] (10 : ℚ)).commit 0) id)
      [(.purchase [⟨[49], [65], 12, 5, by decide, by decide⟩],
          Db.fresh [[49], [50]] [[65]] ((LockTable.empty.write 0 [65] (10 : ℚ)).commit 0) id),
        (.restart, db₁), (.purchase [⟨[50], [65], 12, 5, by decide, by decide⟩],
          benchmarkHandleAlloc db₁)] tr db ∧
      db₁.portfolios.committedKeys.length = 1 ∧ db.portfolios.committedKeys.length = 2 ∧
        ∀ e ∈ tr, ¬ Collides e := by
  have hrun : ((purchaseRun 1 100 [⟨[49], [65], 12, 5, by decide, by decide⟩]
      (Db.fresh [[49], [50]] [[65]] ((LockTable.empty.write 0 [65] (10 : ℚ)).commit 0) id)).bind
        fun s₁ =>
        (purchaseRun 1 100 [⟨[50], [65], 12, 5, by decide, by decide⟩]
          (benchmarkHandleAlloc s₁.db)).map fun s₂ =>
          (s₁.db.portfolios.committedKeys, s₂.db.portfolios.committedKeys.length)) =
            some ([[48]], 2) := by decide +kernel
  obtain ⟨s₁, h₁, hrun⟩ := Option.bind_eq_some_iff.mp hrun
  obtain ⟨s₂, h₂, hkeys⟩ := Option.map_eq_some_iff.mp hrun
  obtain ⟨hkeys₁, hkeys₂⟩ := Prod.mk.inj hkeys
  have hnkeys : portfoliosNkeys s₁.db = 1 := by
    rw [portfoliosNkeys, hkeys₁]
    decide
  obtain ⟨_, he₁⟩ := exec_of_purchaseRun h₁
  obtain ⟨_, he₂⟩ := exec_of_purchaseRun h₂
  have hhistory := History.purchase he₁ (.restart (.purchase he₂ .nil))
  refine ⟨s₁.db, _, _, hhistory, by rw [hkeys₁]; rfl, hkeys₂, ?_⟩
  refine ids_fresh_of_meets 1 [[49], [50]] [[65]] _ id
    (LockTable.settled_commit_write fun _ => rfl) _ _ _ hhistory ?_
  refine List.forall_mem_cons.mpr
    ⟨?_, List.forall_mem_cons.mpr ⟨?_, List.forall_mem_singleton.mpr ?_⟩⟩
  · unfold Meets
    decide +kernel
  · intro k p hp
    have hk : k ∈ s₁.db.portfolios.committedKeys := LockTable.mem_committedKeys.mpr ⟨p, hp⟩
    rw [hkeys₁, List.mem_singleton] at hk
    exact ⟨0, [], by rw [hnkeys]; decide, by rw [hk]; decide⟩
  · rw [Meets, numberPortfolios_benchmarkHandleAlloc, hnkeys]
    decide

/-- A purchase is aborted after its first item has taken id 0; the same item then takes
id 1. A restart counts one record, and the next purchase takes id 1 again. -/
theorem aborted_id_taken_again : ∃ db₁ db₂ tr db,
    History 1 (Db.fresh [[49], [50]] [[65]] ((LockTable.empty.write 0 [65] (10 : ℚ)).commit 0) id)
      [(.purchase [⟨[49], [65], 12, 5, by decide, by decide⟩,
        ⟨[51], [65], 12, 5, by decide, by decide⟩],
          Db.fresh [[49], [50]] [[65]] ((LockTable.empty.write 0 [65] (10 : ℚ)).commit 0) id),
        (.purchase [⟨[49], [65], 12, 5, by decide, by decide⟩], db₁), (.restart, db₂),
        (.purchase [⟨[50], [65], 12, 5, by decide, by decide⟩], benchmarkHandleAlloc db₂)] tr db ∧
      ∃ e ∈ tr, Collides e := by
  have hrun : ((purchaseRun 1 100 [⟨[49], [65], 12, 5, by decide, by decide⟩,
    ⟨[51], [65], 12, 5, by decide, by decide⟩]
      (Db.fresh [[49], [50]] [[65]] ((LockTable.empty.write 0 [65] (10 : ℚ)).commit 0) id)).bind
        fun s₁ =>
        (purchaseRun 1 100 [⟨[49], [65], 12, 5, by decide, by decide⟩] s₁.db).bind fun s₂ =>
          (purchaseRun 1 100 [⟨[50], [65], 12, 5, by decide, by decide⟩]
            (benchmarkHandleAlloc s₂.db)).map fun s₃ =>
            decide (∃ e ∈ s₃.trace, Collides e)) = some true := by decide +kernel
  obtain ⟨s₁, h₁, hrun⟩ := Option.bind_eq_some_iff.mp hrun
  obtain ⟨s₂, h₂, hrun⟩ := Option.bind_eq_some_iff.mp hrun
  obtain ⟨s₃, h₃, hcollides⟩ := Option.map_eq_some_iff.mp hrun
  obtain ⟨_, he₁⟩ := exec_of_purchaseRun h₁
  obtain ⟨_, he₂⟩ := exec_of_purchaseRun h₂
  obtain ⟨_, he₃⟩ := exec_of_purchaseRun h₃
  obtain ⟨e, he, hcollides⟩ := of_decide_eq_true hcollides
  refine ⟨_, _, _, _, .purchase he₁ (.purchase he₂ (.restart (.purchase he₃ .nil))), e, ?_,
    hcollides⟩
  simp [he]

end Chronos.Orders
