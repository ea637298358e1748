import Chronos.Benchmark.Quiet

/-! # That `place_order` returns

With a transaction of its own `place_order` goes back to `failXit` until everything is
closed and the transaction aborted. It returns if calls do not fail for ever, and under
an outer transaction in any case.
-/
namespace Chronos.Benchmark
open Foundation Storage Program
variable {F α : Type} {t : Txn} {faults : Faults}

def Ends (t : Txn) (faults : Faults) (p : DbProgram F α) (φ : α → Prop) : Prop :=
  ∀ s : Session F, s.db.Alone t →
    wp (Session.answer t faults) p s fun o s' => s'.db.Alone t ∧ ∀ a, o = .value a → φ a

section Ends
variable {β : Type} {φ : α → Prop} {ψ : β → Prop}

theorem Ends.pure {a : α} (h : φ a) : Ends t faults (Pure.pure a : DbProgram F α) φ :=
  fun _ hs => wp_pure.mpr ⟨hs, fun _ ha => by cases ha; exact h⟩

theorem Ends.bind {p : DbProgram F α} {f : α → DbProgram F β} (hp : Ends t faults p φ)
    (hf : ∀ a, φ a → Ends t faults (f a) ψ) : Ends t faults (p >>= f) ψ := by
  intro s hs
  refine wp_bind'.mpr (wp_mono (hp s hs) ?_)
  rintro (a | _) s' ⟨hs', hφ⟩
  · exact hf a (hφ a rfl) s' hs'
  · exact ⟨hs', by simp⟩

theorem Ends.call {c : DbCall F} (hc : ∀ t', c.handle = some t' → t' = t) :
    Ends t faults (call c) fun _ => True :=
  fun _ hs => wp_dbCall hs hc fun _ _ _ halone => ⟨halone, fun _ _ => trivial⟩

theorem Quiet.comes {fatal : Entry F → Prop} {p : DbProgram F α} (hp : Quiet t fatal p) :
    Ends t faults p fun _ => True :=
  fun s hs => wp_mono (hp.ends faults s hs) fun _ _ h => ⟨h, fun _ _ => trivial⟩

theorem ends_closeIfOpen (c : Option CursorId) :
    Ends t faults (closeIfOpen c : DbProgram F (Except DbError Unit)) fun _ => True := by
  cases c with
  | none => exact Ends.pure trivial
  | some c => exact Ends.call (by simp [DbCall.handle])

/-- From every point on some call is not made to fail. -/
def FailuresEnd (faults : Faults) : Prop := ∀ n, ∃ m, n ≤ m ∧ faults m = none

def nextSuccess (hlive : FailuresEnd faults) (n : ℕ) : ℕ := Nat.find (hlive n)

variable {hlive : FailuresEnd faults} {n : ℕ}

theorem le_nextSuccess : n ≤ nextSuccess hlive n := (Nat.find_spec (hlive n)).1

theorem nextSuccess_mono {m : ℕ} (h : n ≤ m) : nextSuccess hlive n ≤ nextSuccess hlive m :=
  Nat.find_min' _ ⟨h.trans le_nextSuccess, (Nat.find_spec (hlive m)).2⟩

theorem nextSuccess_of_fault {e : DbError} (h : faults n = some e) :
    nextSuccess hlive (n + 1) = nextSuccess hlive n := by
  refine le_antisymm (Nat.find_min' _ ⟨?_, (Nat.find_spec (hlive n)).2⟩)
    (nextSuccess_mono n.le_succ)
  have hne : nextSuccess hlive n ≠ n := by
    intro heq
    have hnone : faults (nextSuccess hlive n) = none := (Nat.find_spec (hlive n)).2
    rw [heq, h] at hnone
    cases hnone
  exact Nat.lt_of_le_of_ne le_nextSuccess hne.symm

/-- How long `failXit` still goes round once the first cursor is closed. -/
def roundsLeft (hlive : FailuresEnd faults) (l : Locals) (n : ℕ) : ℕ :=
  match l.cursorPrimaryPortfolioP with
  | none => nextSuccess hlive n - n
  | some _ => nextSuccess hlive (nextSuccess hlive n + 1) - n

theorem roundsLeft_of_fault {l : Locals} {e : DbError} (h : faults n = some e) :
    roundsLeft hlive l (n + 1) < roundsLeft hlive l n := by
  have hnext : nextSuccess hlive (n + 1) = nextSuccess hlive n := nextSuccess_of_fault h
  have hle : n + 1 ≤ nextSuccess hlive (n + 1) := le_nextSuccess
  have hle' : nextSuccess hlive (n + 1) + 1 ≤ nextSuccess hlive (nextSuccess hlive (n + 1) + 1) :=
    le_nextSuccess
  unfold roundsLeft
  split
  · omega
  · rw [hnext] at hle' ⊢
    omega

theorem roundsLeft_of_closed {l l' : Locals} {e : DbError} (hl : l.cursorPrimaryPortfolioP ≠ none)
    (hl' : l'.cursorPrimaryPortfolioP = none) (hok : faults n = none)
    (h : faults (n + 1) = some e) : roundsLeft hlive l' (n + 2) < roundsLeft hlive l n := by
  obtain ⟨c, hc⟩ := Option.ne_none_iff_exists'.mp hl
  have hnow : nextSuccess hlive n = n := le_antisymm (Nat.find_min' _ ⟨le_rfl, hok⟩) le_nextSuccess
  have hnext : nextSuccess hlive (n + 2) = nextSuccess hlive (n + 1) := nextSuccess_of_fault h
  have hle : n + 2 ≤ nextSuccess hlive (n + 2) := le_nextSuccess
  simp only [roundsLeft, hl', hc, hnow]
  omega

theorem exec_txnBegin {db db' : Db F} {fault : Option DbError} {t' : Txn}
    (h : db.exec t fault .txnBegin = some (.ok t', db')) : t' = t := by
  cases fault <;> cases h
  rfl

theorem exec_resolve {db db' : Db F} {fault : Option DbError} {e : DbError}
    (h : db.exec t fault (.abort t) = some (.error e, db')) : fault = some e := by
  cases fault <;> cases h
  rfl

theorem exec_close_error {db db' : Db F} {fault : Option DbError} {c : CursorId} {e : DbError}
    (h : db.exec t fault (.close c) = some (.error e, db')) : fault = some e := by
  cases fault <;> cases h
  rfl

theorem exec_close_ok {db db' : Db F} {fault : Option DbError} {c : CursorId}
    (h : db.exec t fault (.close c) = some (.ok (), db')) : fault = none := by
  cases fault <;> cases h
  rfl

theorem ends_failXit_closed (hlive : FailuresEnd faults) (x : Option CursorId) :
    Ends t faults (loop failXitStep ⟨t, none, x⟩ : DbProgram F Rc) fun _ => True := by
  intro s hs
  refine wp_loop (fun l s' => l.txnP = t ∧ l.cursorPortfolioP = none ∧ s'.db.Alone t)
    (fun l s' => roundsLeft hlive l s'.trace.length) ?_ ⟨rfl, rfl, hs⟩
  rintro ⟨t', first, x⟩ s' ⟨rfl, rfl, halone⟩
  cases x with
  | none =>
    refine wp_bind'.mpr (wp_pure.mpr (wp_bind'.mpr (wp_pure.mpr ?_)))
    refine wp_bind'.mpr (wp_dbCall halone (by simp [DbCall.handle]) fun a db hexec halone' => ?_)
    cases a with
    | ok _ => exact wp_pure.mpr ⟨halone', fun _ _ => trivial⟩
    | error e =>
      refine wp_pure.mpr ⟨⟨rfl, rfl, halone'⟩, ?_⟩
      rw [List.length_append]
      exact roundsLeft_of_fault (exec_resolve hexec)
  | some c =>
    refine wp_bind'.mpr (wp_pure.mpr (wp_bind'.mpr ?_))
    refine wp_dbCall halone (by simp [DbCall.handle]) fun a db hexec halone' => ?_
    cases a with
    | error e =>
      refine wp_pure.mpr ⟨⟨rfl, rfl, halone'⟩, ?_⟩
      rw [List.length_append]
      exact roundsLeft_of_fault (exec_close_error hexec)
    | ok _ =>
      refine wp_bind'.mpr (wp_dbCall halone' (by simp [DbCall.handle])
        fun a db' hexec' halone'' => ?_)
      cases a with
      | ok _ => exact wp_pure.mpr ⟨halone'', fun _ _ => trivial⟩
      | error e =>
        refine wp_pure.mpr ⟨⟨rfl, rfl, halone''⟩, ?_⟩
        have hfault := exec_resolve hexec'
        simp only [List.length_append, List.length_singleton] at hfault ⊢
        exact roundsLeft_of_closed (by simp) rfl (exec_close_ok hexec) hfault

theorem ends_failXitStep {l : Locals} (hl : l.txnP = t) :
    Ends t faults (failXitStep l : DbProgram F (Locals ⊕ Rc))
    fun r => ∀ l', r = .inl l' → ∃ x, l' = ⟨t, none, x⟩ := by
  subst hl
  refine (ends_closeIfOpen _).bind fun _ _ => (ends_closeIfOpen _).bind fun r _ => ?_
  cases r with
  | error e =>
    refine Ends.pure ?_
    rintro l' ⟨⟩
    exact ⟨_, rfl⟩
  | ok _ =>
    refine (Ends.call (by simp [DbCall.handle])).bind fun r _ => ?_
    cases r with
    | error e =>
      refine Ends.pure ?_
      rintro l' ⟨⟩
      exact ⟨_, rfl⟩
    | ok _ => exact Ends.pure (by simp)

theorem ends_failXit {xactH : Option Txn} (hlive : xactH = none → FailuresEnd faults) {l : Locals}
    (hl : l.txnP = t) : Ends t faults (failXit xactH l : DbProgram F Rc) fun _ => True := by
  cases xactH with
  | some _ => exact Ends.pure trivial
  | none =>
    intro s hs
    refine wp_iter.mpr (wp_mono (ends_failXitStep hl s hs) ?_)
    rintro ((l' | rc) | _) s' ⟨hs', hnext⟩
    · obtain ⟨x, rfl⟩ := hnext _ rfl l' rfl
      exact ends_failXit_closed (hlive rfl) x s' hs'
    · exact wp_ret.mpr ⟨hs', fun _ _ => trivial⟩
    · exact ⟨hs', by simp⟩

theorem ends_finish {xactH : Option Txn} (hlive : xactH = none → FailuresEnd faults) {l : Locals}
    (hl : l.txnP = t) : Ends t faults (finish xactH l : DbProgram F Rc) fun _ => True := by
  unfold finish
  refine (ends_closeIfOpen _).bind fun r _ => ?_
  cases r with
  | error e => exact ends_failXit hlive hl
  | ok _ =>
    refine (ends_closeIfOpen _).bind fun r _ => ?_
    cases r with
    | error e => exact ends_failXit hlive hl
    | ok _ =>
      cases xactH with
      | some _ => exact Ends.pure trivial
      | none =>
        refine (Ends.call (by simp [DbCall.handle, hl])).bind fun r _ => ?_
        cases r with
        | error e => exact ends_failXit hlive hl
        | ok _ => exact Ends.pure trivial

theorem ends_recordExists_bind {dbp : Dbp} (hdbp : dbp ≠ .portfoliosSec) {key : CStr}
    {f : Bool → DbProgram F α} (hfalse : Ends t faults (f false) φ)
    (htrue : key ≠ [] → Ends t faults (f true) φ) :
    Ends t faults (recordExists dbp key t >>= f) φ := by
  by_cases hkey : key = []
  · rw [recordExists, if_pos hkey]
    exact hfalse
  · refine (Quiet.comes (quiet_recordExists harmless_neverFatal dbp hdbp key)).bind fun b _ => ?_
    cases b with
    | false => exact hfalse
    | true => exact htrue hkey

theorem ends_rewritePortfolio {l : Locals} (hl : l.txnP = t) {key : CStr}
    {change : Portfolio → DbProgram F (Option Portfolio)}
    (hchange : ∀ p, Quiet t NeverFatal (change p)) :
    Ends t faults (rewritePortfolio l key change)
      fun r => ∀ l', r = .ok l' ∨ r = .error l' → l'.txnP = t := by
  have hpure : ∀ (r : Except Locals Locals), (∀ l', r = .ok l' ∨ r = .error l' → l'.txnP = t) →
      Ends t faults (Pure.pure r : DbProgram F (Except Locals Locals))
        fun r => ∀ l', r = .ok l' ∨ r = .error l' → l'.txnP = t := fun r h => Ends.pure h
  unfold rewritePortfolio
  refine (Ends.call (by simp [DbCall.handle, hl])).bind fun r _ => ?_
  cases r with
  | error e => exact hpure _ (by simp [hl])
  | ok c =>
    refine (Ends.call (by simp [DbCall.handle])).bind fun r _ => ?_
    cases r with
    | error e => exact hpure _ (by simp [hl])
    | ok p =>
      refine (Quiet.comes (hchange p)).bind fun r _ => ?_
      cases r with
      | none => exact hpure _ (by simp [hl])
      | some p' =>
        refine (Ends.call (by simp [DbCall.handle])).bind fun r _ => ?_
        cases r with
        | error e => exact hpure _ (by simp [hl])
        | ok _ => exact hpure _ (by simp [hl])

variable [CFloat F]

theorem ends_placeOrderIn (accountId symbol : CStr) (price : F) (amount : ℤ) (forceApply : Bool)
    {xactH : Option Txn} (hlive : xactH = none → FailuresEnd faults) :
    Ends t faults (placeOrderIn accountId symbol price amount forceApply xactH t)
      fun _ => True := by
  have hquiet : Harmless (NeverFatal : Entry F → Prop) := harmless_neverFatal
  have hfail : Ends t faults (failXit xactH ⟨t, none, none⟩ : DbProgram F Rc) fun _ => True :=
    ends_failXit hlive rfl
  unfold placeOrderIn accountExists symbolExists
  refine ends_recordExists_bind (by simp) hfail fun ha => ?_
  refine ends_recordExists_bind (by simp) hfail fun hs => ?_
  refine (Quiet.comes (quiet_getPortfolio ha hs)).bind fun r _ => ?_
  rcases r with _ | ⟨cursorp, key, portfolio⟩
  · have hprice : Ends t faults (if forceApply then priceIs (CFloat.le · price) symbol t
        else (pure true : DbProgram F Bool)) fun _ => True := by
      split
      · exact Quiet.comes (quiet_priceIs hquiet _ _)
      · exact Ends.pure trivial
    refine hprice.bind fun b _ => ?_
    split
    · refine (Quiet.comes (quiet_createPortfolio hquiet _ _ _ _ _)).bind fun rc _ => ?_
      split
      · exact ends_finish hlive rfl
      · exact hfail
    · exact hfail
  · have hrewrite : Ends t faults
      (rewritePortfolio ⟨t, some cursorp, none⟩ key (purchased symbol price amount forceApply t))
        fun r => ∀ l', r = .ok l' ∨ r = .error l' → l'.txnP = t :=
      ends_rewritePortfolio (l := ⟨t, some cursorp, none⟩) rfl
        (quiet_purchased hquiet symbol price amount forceApply)
    refine hrewrite.bind fun r hr => ?_
    cases r with
    | ok l => exact ends_finish hlive (hr l (Or.inl rfl))
    | error l => exact ends_failXit hlive (hr l (Or.inr rfl))

theorem ends_placeOrder (accountId symbol : CStr) (price : F) (amount : ℤ) (forceApply : Bool)
    {xactH : Option Txn} (hx : xactH = none ∨ xactH = some t)
    (hlive : xactH = none → FailuresEnd faults) :
    Ends t faults (placeOrder accountId symbol price amount forceApply xactH) fun _ => True := by
  rcases hx with rfl | rfl
  · intro s hs
    refine wp_bind'.mpr (wp_dbCall hs (by simp [DbCall.handle]) fun a db hexec halone => ?_)
    cases a with
    | error e => exact wp_pure.mpr ⟨halone, fun _ _ => trivial⟩
    | ok t' =>
      obtain rfl := exec_txnBegin hexec
      exact ends_placeOrderIn accountId symbol price amount forceApply hlive _ halone
  · exact ends_placeOrderIn accountId symbol price amount forceApply hlive

end Ends

end Chronos.Benchmark
