import Chronos.Foundation.Outline
import Chronos.Orders.Book
import Chronos.Storage.Isolation

/-! # Rules for the calls of an order

A regime says whether other threads run and whether calls may be made to fail, and
what the thread promises of its writes and commits. Assertions about the data and
about chosen cursors survive the steps of others and work with other cursors.
-/
namespace Chronos.Orders
open Foundation Storage Benchmark Program
variable {F α β σ : Type}

/-- What surrounds a thread, and what it owes. -/
structure Regime (F : Type) where
  shared : Prop
  mayFail : Prop
  owes : DbCall F → Bool → Db F → Prop
  plain : ∀ c ok w, (∀ t, c ≠ .commit t) → (∀ c' p, c ≠ .portfoliosPut c' p) →
    (∀ t k p, c ≠ .portfoliosInsert t k p) → owes c ok w

/-- The thread is alone and no call is made to fail. -/
def Regime.Quiet (m : Regime F) : Prop := ¬ m.shared ∧ ¬ m.mayFail

/-- The transaction handle is that of the thread. -/
def orders (self : Txn) (m : Regime F) : Setting (Call F) Answer (Db F) where
  rely w w' := w' = w ∨ m.shared ∧ Others self w w' ∧ (w.WellFormed → w'.WellFormed)
  act
    | .db c, w, a, w' =>
      ∃ fault : Option DbError, (fault ≠ none → m.mayFail) ∧ w.exec self fault c = some (a, w')
    | .fetchAndAdd, w, a, w' =>
      a = w.numberPortfolios ∧ w' = { w with numberPortfolios := int32 (w.numberPortfolios + 1) }
    | .rand, w, a, w' => a = w.rand 0 ∧ w' = { w with rand := fun i => w.rand (i + 1) }
  guar
    | .db c, w, a, w' =>
      (∀ t, t ≠ self → Others t w w') ∧ (w.WellFormed → w'.WellFormed) ∧ m.owes c a.isOk w
    | .fetchAndAdd, w, _, w' => (∀ t, t ≠ self → Others t w w') ∧ (w.WellFormed → w'.WellFormed)
    | .rand, w, _, w' => (∀ t, t ≠ self → Others t w w') ∧ (w.WellFormed → w'.WellFormed)

/-- The calls of a session are answered as the regime says. -/
theorem act_answer {self : Txn} {m : Regime F} {faults : Faults}
    (hm : ∀ i, faults i ≠ none → m.mayFail) {c : Call F} {s s' : Session F} {a : Answer c}
    (h : Session.answer self faults c s = some (a, s')) :
    (orders self m).act c s.db a s'.db := by
  cases c with
  | db c =>
    obtain ⟨⟨r, db⟩, hexec, heq⟩ := Option.map_eq_some_iff.mp h
    cases heq
    exact ⟨_, hm _, hexec⟩
  | fetchAndAdd =>
    cases h
    exact ⟨rfl, rfl⟩
  | rand =>
    cases h
    exact ⟨rfl, rfl⟩

/-- After an outcome: a crash only where calls may be made to fail. -/
def ended (m : Regime F) (Q : α → Db F → Prop) : Outcome α → Db F → Prop
  | .value a, w => w.WellFormed ∧ Q a w
  | .crashed, _ => m.mayFail

/-- From `P` the program comes to a value and `Q`, or crashes. -/
def Does (self : Txn) (m : Regime F) (P : Db F → Prop) (p : DbProgram F α)
    (Q : α → Db F → Prop) : Prop :=
  Outline (orders self m) p (fun w => w.WellFormed ∧ P w) (ended m Q)

section Does
variable {self : Txn} {m : Regime F} {P P' : Db F → Prop} {Q Q' : α → Db F → Prop}

theorem Does.mono {p : DbProgram F α} (hp : Does self m P p Q) (hP : ∀ w, P' w → P w)
    (hQ : ∀ a w, Q a w → Q' a w) : Does self m P' p Q' := by
  refine Outline.mono hp (fun w h => ⟨h.1, hP w h.2⟩) ?_
  rintro (a | _) w h
  · exact ⟨h.1, hQ a w h.2⟩
  · exact h

theorem Does.pre {p : DbProgram F α} (hp : Does self m P p Q) (hP : ∀ w, P' w → P w) :
    Does self m P' p Q :=
  hp.mono hP fun _ _ h => h

theorem Does.post {p : DbProgram F α} (hp : Does self m P p Q) (hQ : ∀ a w, Q a w → Q' a w) :
    Does self m P p Q' :=
  hp.mono (fun _ h => h) hQ

theorem Does.pure {a : α} (h : ∀ w, P w → Q a w) : Does self m P (Pure.pure a : DbProgram F α) Q :=
  Outline.pure fun w hw => ⟨hw.1, h w hw.2⟩

theorem Does.pureOf {a : α} (h : ∀ w, w.WellFormed → P w → Q a w) :
    Does self m P (Pure.pure a : DbProgram F α) Q :=
  Outline.pure fun w hw => ⟨hw.1, h w hw.1 hw.2⟩

theorem Does.crash (h : m.mayFail) : Does self m P (Program.crash : DbProgram F α) Q :=
  Outline.crashed fun _ _ => h

theorem Does.bind {p : DbProgram F α} {f : α → DbProgram F β} {Q' : β → Db F → Prop}
    (hp : Does self m P p Q) (hf : ∀ a, Does self m (Q a) (f a) Q') : Does self m P (p >>= f) Q' :=
  Outline.bind hp hf fun _ h => h

theorem Does.fact {p : DbProgram F α} {φ : Prop} (hφ : ∀ w, P w → φ) (h : φ → Does self m P p Q) :
    Does self m P p Q :=
  (Outline.assume h).pre fun w hw => ⟨hφ w hw.2, hw⟩

theorem Does.exists {ι : Type} {p : DbProgram F α} {P : ι → Db F → Prop}
    (h : ∀ x, Does self m (P x) p Q) : Does self m (fun w => ∃ x, P x w) p Q := by
  refine (Outline.exists h).pre ?_
  rintro w ⟨hwf, x, hx⟩
  exact ⟨x, hwf, hx⟩

theorem Does.loop {body : σ → DbProgram F (σ ⊕ β)} {Q : β → Db F → Prop} (I : σ → Db F → Prop)
    (hI : m.shared → ∀ x w w', I x w → Others self w w' → I x w')
    (hbody : ∀ x, Does self m (I x) (body x) fun r w => match r with
      | .inl x' => I x' w
      | .inr b => Q b w) (x : σ) : Does self m (I x) (Program.loop body x) Q := by
  refine Outline.loop (fun x w => w.WellFormed ∧ I x w) (fun x w w' hw hrely => ?_) (fun x => ?_) x
  · rcases hrely with rfl | ⟨hshared, hothers, hwf⟩
    · exact hw
    · exact ⟨hwf hw.1, hI hshared x w w' hw.2 hothers⟩
  · refine Outline.post (hbody x) ?_
    rintro ((x' | b) | _) w hw <;> exact hw

theorem Does.call {c : DbCall F} {Q : Except DbError c.Payload → Db F → Prop}
    (hstable : m.shared → ∀ a w w', Q a w → Others self w w' → Q a w')
    (h : ∀ w fault a w', w.WellFormed → P w → (fault ≠ none → m.mayFail) →
      w.exec self fault c = some (a, w') →
      (∀ t, t ≠ self → Others t w w') ∧ w'.WellFormed ∧ m.owes c a.isOk w ∧ Q a w') :
    Does self m P (Benchmark.call c) Q := by
  refine Outline.perform (fun a w w' hw hrely => ?_) fun w a w' hw hact => ?_
  · rcases hrely with rfl | ⟨hshared, hothers, hwf⟩
    · exact hw
    · exact ⟨hwf hw.1, hstable hshared a w w' hw.2 hothers⟩
  · obtain ⟨fault, hfault, hexec⟩ := hact
    obtain ⟨hothers, hwf, howes, hq⟩ := h w fault a w' hw.1 hw.2 hfault hexec
    exact ⟨⟨hothers, fun _ => hwf, howes⟩, hwf, hq⟩

end Does

/-! ## Assertions that survive -/

/-- A step that leaves the data and the cursors in `X` as they are. -/
structure Aside (X : List CursorId) (w w' : Db F) : Prop where
  data : SameData w w'
  cursors : ∀ c ∈ X, w'.cursor? c = w.cursor? c
  next : w.nextCursor ≤ w'.nextCursor

structure Steady (t : Txn) (m : Regime F) (mk : Market F) (X : List CursorId)
    (A : Db F → Prop) : Prop where
  stable : m.shared → ∀ w w', A w → Others t w w' → A w'
  aside : ∀ w w', A w → Aside X w w' → A w'
  bound : ∀ w, A w → ∀ c ∈ X, c < w.nextCursor
  market : ∀ w, A w → w.personal = mk.personal ∧ w.stocks = mk.stocks ∧
    w.quotes.committed = mk.quote

/-- The thread's cursor, and where it stands. -/
def OpenAt (self : Txn) (dbp : Dbp) (pos : Option Position) (c : CursorId) (w : Db F) : Prop :=
  c < w.nextCursor ∧ w.cursor? c = some ⟨c, self, dbp, pos⟩

section Steady
variable {self : Txn} {m : Regime F} {mk : Market F} {X : List CursorId} {A : Db F → Prop}

theorem OpenAt.others {dbp : Dbp} {pos : Option Position} {c : CursorId} {w w' : Db F}
    (h : OpenAt self dbp pos c w) (ho : Others self w w') : OpenAt self dbp pos c w' :=
  ⟨h.1.trans_le ho.next, ho.cursors _ _ h.2 rfl⟩

theorem OpenAt.aside {dbp : Dbp} {pos : Option Position} {c : CursorId} {w w' : Db F}
    (h : OpenAt self dbp pos c w) (hc : c ∈ X) (ha : Aside X w w') : OpenAt self dbp pos c w' :=
  ⟨h.1.trans_le ha.next, by rw [ha.cursors c hc, h.2]⟩

theorem Aside.of_cons {c : CursorId} {w w' : Db F} (h : Aside (c :: X) w w') : Aside X w w' :=
  ⟨h.data, fun c' hc' => h.cursors c' (List.mem_cons_of_mem _ hc'), h.next⟩

theorem Steady.openAt (hA : Steady self m mk X A) (dbp : Dbp) (pos : Option Position)
    (c : CursorId) : Steady self m mk (c :: X) fun w => A w ∧ OpenAt self dbp pos c w where
  stable hshared w w' h ho := ⟨hA.stable hshared w w' h.1 ho, h.2.others ho⟩
  aside w w' h ha := ⟨hA.aside w w' h.1 ha.of_cons, h.2.aside List.mem_cons_self ha⟩
  bound w h c' hc' := by
    rcases List.mem_cons.mp hc' with rfl | hc'
    · exact h.2.1
    · exact hA.bound w h.1 c' hc'
  market w h := hA.market w h.1

theorem Steady.and {P : Db F → Prop} (hA : Steady self m mk X A)
    (hstable : m.shared → ∀ w w', A w → P w → Others self w w' → P w')
    (haside : ∀ w w', A w → P w → Aside X w w' → P w') : Steady self m mk X fun w => A w ∧ P w where
  stable hshared w w' h ho := ⟨hA.stable hshared w w' h.1 ho, hstable hshared w w' h.1 h.2 ho⟩
  aside w w' h ha := ⟨hA.aside w w' h.1 ha, haside w w' h.1 h.2 ha⟩
  bound w h := hA.bound w h.1
  market w h := hA.market w h.1

theorem aside_openCursor {w : Db F} {dbp : Dbp} (hX : ∀ c ∈ X, c < w.nextCursor) :
    Aside X w (w.openCursor self dbp) :=
  ⟨SameData.openCursor w self dbp, fun c hc => cursor?_openCursor_ne dbp (hX c hc).ne,
    Nat.le_succ _⟩

theorem aside_moveCursor {w : Db F} {c : CursorId} {pos : Position} (hc : c ∉ X) :
    Aside X w (w.moveCursor c pos) :=
  ⟨SameData.moveCursor w c pos,
    fun _ hc' => cursor?_moveCursor_ne (ne_of_mem_of_not_mem hc' hc).symm pos, le_rfl⟩

theorem aside_closeCursor {w : Db F} {c : CursorId} (hc : c ∉ X) : Aside X w (w.closeCursor c) :=
  ⟨SameData.closeCursor w c, fun _ hc' => cursor?_closeCursor_ne (ne_of_mem_of_not_mem hc' hc).symm,
    le_rfl⟩

/-! ## Calls on cursors -/

variable (hA : Steady self m mk X A)
include hA

theorem does_cursor (dbp : Dbp) :
    Does self m A (call (.cursor dbp self)) fun r w => A w ∧ match r with
    | .ok c => c ∉ X ∧ OpenAt self dbp none c w
    | .error _ => m.mayFail := by
  refine Does.call (fun hshared r w w' h ho => ⟨hA.stable hshared w w' h.1 ho, ?_⟩) ?_
  · cases r with
    | ok c => exact ⟨h.2.1, h.2.2.others ho⟩
    | error _ => exact h.2
  · intro w fault r w' hwf hw hfault hexec
    have howes : ∀ ok, m.owes (.cursor dbp self) ok w :=
      fun ok => m.plain _ ok w (by simp) (by simp) (by simp)
    cases fault with
    | some e =>
      cases hexec
      exact ⟨fun t _ => (SameData.refl w).others (fun _ _ h _ => h) le_rfl, hwf, howes _, hw,
        hfault (by simp)⟩
    | none =>
      cases hexec
      refine ⟨fun t _ => others_openCursor hwf dbp, wellFormed_openCursor hwf dbp, howes _,
        ?_, ?_, ?_⟩
      · exact hA.aside w _ hw (aside_openCursor (hA.bound w hw))
      · exact fun hc => (hA.bound w hw _ hc).ne rfl
      · exact ⟨Nat.lt_succ_self _, cursor?_openCursor_self dbp⟩

theorem does_close {c : CursorId} (hc : c ∉ X) :
    Does self m (fun w => A w ∧ ∃ dbp pos, OpenAt self dbp pos c w) (call (.close c)) fun r w =>
      A w ∧ (r.isOk = false → m.mayFail) := by
  refine Does.call (fun hshared r w w' h ho => ⟨hA.stable hshared w w' h.1 ho, h.2⟩) ?_
  rintro w fault r w' hwf ⟨hw, dbp, pos, hopen⟩ hfault hexec
  have howes : ∀ ok, m.owes (.close c) ok w :=
    fun ok => m.plain _ ok w (by simp) (by simp) (by simp)
  have hw' : w' = w.closeCursor c ∧ (r.isOk = false → m.mayFail) := by
    cases fault with
    | some e =>
      cases hexec
      exact ⟨rfl, fun _ => hfault (by simp)⟩
    | none =>
      cases hexec
      exact ⟨rfl, by simp [Except.isOk, Except.toBool]⟩
  obtain ⟨rfl, hr⟩ := hw'
  exact ⟨fun t ht => others_closeCursor hopen.2 (Ne.symm ht), wellFormed_closeCursor hwf c, howes _,
    hA.aside w _ hw (aside_closeCursor hc), hr⟩

end Steady

/-! ## Reads -/

theorem exec_get {self : Txn} {w : Db F} {dbp dbp' : Dbp} {pos : Option Position} {c : CursorId}
    {key : CStr} (h : OpenAt self dbp' pos c w) :
    w.exec self none (.get dbp c key) = w.get c self key dbp := by
  simp only [Db.exec, Db.perform, Db.onCursor, h.2]
  rfl

def Market.Has (mk : Market F) (dbp : Dbp) (key : CStr) : Prop :=
  match dbp with
  | .personal => key ∈ mk.personal
  | .stocks => key ∈ mk.stocks
  | _ => False

/-- The cursor stands on the record, and nobody else is writing it. -/
structure Reading (t : Txn) (c : CursorId) (k : CStr) (p : Portfolio) (w : Db F) : Prop where
  cursor : OpenAt t .portfoliosSec (some (toLex (p.accountId, k))) c w
  view : w.portfolios.view t k = some p
  free : w.portfolios.lockedByOther t k = false

section Reads
variable {self : Txn} {m : Regime F} {mk : Market F} {X : List CursorId} {A : Db F → Prop}
  {c : CursorId}

theorem Reading.held {k : CStr} {p : Portfolio} {w : Db F} (h : Reading self c k p w) :
    w.Held self k := by
  cases hown : w.portfolios.own self k with
  | some v => exact .inl (by simp [hown])
  | none =>
    refine .inr ⟨h.free, ?_, c, _, h.cursor.2, rfl, rfl, rfl⟩
    rw [← LockTable.view_eq_committed hown, h.view]
    simp

theorem Steady.reading (hA : Steady self m mk X A) (c : CursorId) (k : CStr) (p : Portfolio) :
    Steady self m mk (c :: X) fun w => A w ∧ Reading self c k p w where
  stable hshared w w' h ho :=
    ⟨hA.stable hshared w w' h.1 ho, h.2.cursor.others ho, (ho.view_of_held h.2.held).trans h.2.view,
      (ho.held k h.2.held).2⟩
  aside w w' h ha := by
    refine ⟨hA.aside w w' h.1 ha.of_cons, h.2.cursor.aside List.mem_cons_self ha, ?_, ?_⟩
    · rw [ha.data.portfolios]
      exact h.2.view
    · rw [ha.data.portfolios]
      exact h.2.free
  bound w h c' hc' := by
    rcases List.mem_cons.mp hc' with rfl | hc'
    · exact h.2.cursor.1
    · exact hA.bound w h.1 c' hc'
  market w h := hA.market w h.1

theorem mem_walkKeys {w : Db F} {pos : Position} :
    pos ∈ w.walkKeys self ↔ ∃ k p, w.portfolios.view self k = some p ∧
      pos = toLex (p.accountId, k) := by
  simp only [Db.walkKeys, List.mem_filterMap, LockTable.mem_visibleKeys, Option.map_eq_some_iff]
  constructor
  · rintro ⟨k, -, p, hp, rfl⟩
    exact ⟨k, p, hp, rfl⟩
  · rintro ⟨k, p, hp, rfl⟩
    exact ⟨k, ⟨p, hp⟩, p, hp, rfl⟩

/-- A read that fails leaves everything as it is. -/
theorem unchanged_others (w : Db F) (t : Txn) : Others t w w :=
  (SameData.refl w).others (fun _ _ h _ => h) le_rfl

theorem openAt_moveCursor {w : Db F} {dbp : Dbp} {pos : Option Position}
    (h : OpenAt self dbp pos c w) (pos' : Position) :
    OpenAt self dbp (some pos') c (w.moveCursor c pos') := ⟨h.1, cursor?_moveCursor_self h.2 pos'⟩

variable (hA : Steady self m mk X A) (hc : c ∉ X)
include hA hc

theorem moved {w : Db F} {dbp : Dbp} {pos : Option Position} (hwf : w.WellFormed) (hw : A w)
    (hopen : OpenAt self dbp pos c w) (pos' : Position) :
    (∀ t, t ≠ self → Others t w (w.moveCursor c pos')) ∧ (w.moveCursor c pos').WellFormed ∧
      A (w.moveCursor c pos') ∧ OpenAt self dbp (some pos') c (w.moveCursor c pos') :=
  ⟨fun _ ht => others_moveCursor hopen.2 (Ne.symm ht) pos', wellFormed_moveCursor hwf c pos',
    hA.aside w _ hw (aside_moveCursor hc), openAt_moveCursor hopen pos'⟩

theorem does_getListed {dbp : Dbp} (hdbp : dbp = .personal ∨ dbp = .stocks) (key : CStr) :
    Does self m (fun w => A w ∧ OpenAt self dbp none c w) (call (.get dbp c key)) fun r w =>
      (A w ∧ ∃ dbp pos, OpenAt self dbp pos c w) ∧ (r.isOk = true → mk.Has dbp key) ∧
        (r.isOk = false → m.mayFail ∨ ¬ mk.Has dbp key) := by
  refine Does.call (fun hshared r w w' h ho => ?_) ?_
  · obtain ⟨⟨hw, dbp', pos, hopen⟩, hr⟩ := h
    exact ⟨⟨hA.stable hshared w w' hw ho, dbp', pos, hopen.others ho⟩, hr⟩
  rintro w fault r w' hwf ⟨hw, hopen⟩ hfault hexec
  have howes : ∀ ok, m.owes (.get dbp c key) ok w :=
    fun ok => m.plain _ ok w (by simp) (by simp) (by simp)
  obtain ⟨hpersonal, hstocks, -⟩ := hA.market w hw
  have hmoved := moved hA hc hwf hw hopen (toLex (key, []))
  cases fault with
  | some e =>
    cases hexec
    exact ⟨fun t _ => unchanged_others w t, hwf, howes _, ⟨hw, _, _, hopen⟩,
      by simp [Except.isOk, Except.toBool],
      fun _ => .inl (hfault (by simp))⟩
  | none =>
    rw [exec_get hopen] at hexec
    have hget : ∀ {P : Prop} [Decidable P] {a : Value F dbp}, (P ↔ mk.Has dbp key) →
        some (if P then (.ok a, w.moveCursor c (toLex (key, []))) else (.error .notFound, w)) =
          some (r, w') →
        (∀ t, t ≠ self → Others t w w') ∧ w'.WellFormed ∧ m.owes (.get dbp c key) r.isOk w ∧
          (A w' ∧ ∃ dbp pos, OpenAt self dbp pos c w') ∧ (r.isOk = true → mk.Has dbp key) ∧
            (r.isOk = false → m.mayFail ∨ ¬ mk.Has dbp key) := by
      intro P _ a hP h
      split at h
      · rename_i hin
        cases h
        obtain ⟨hothers, hwf', hw', hopen'⟩ := hmoved
        exact ⟨hothers, hwf', howes _, ⟨hw', _, _, hopen'⟩, fun _ => hP.mp hin,
          by simp [Except.isOk, Except.toBool]⟩
      · rename_i hin
        cases h
        exact ⟨fun t _ => unchanged_others w t, hwf, howes _, ⟨hw, _, _, hopen⟩,
          by simp [Except.isOk, Except.toBool],
          fun _ => .inr fun h => hin (hP.mpr h)⟩
    rcases hdbp with rfl | rfl
    · exact hget (by simp [Market.Has, hpersonal]) hexec
    · exact hget (by simp [Market.Has, hstocks]) hexec

theorem does_getQuote (key : CStr) :
    Does self m (fun w => A w ∧ OpenAt self .quotes none c w) (call (.get .quotes c key)) fun r w =>
      (A w ∧ ∃ dbp pos, OpenAt self dbp pos c w) ∧ match r with
        | .ok price => mk.quote key = some price
        | .error _ => m.mayFail ∨ mk.quote key = none := by
  refine Does.call (fun hshared r w w' h ho => ?_) ?_
  · obtain ⟨⟨hw, dbp', pos, hopen⟩, hr⟩ := h
    exact ⟨⟨hA.stable hshared w w' hw ho, dbp', pos, hopen.others ho⟩, hr⟩
  rintro w fault r w' hwf ⟨hw, hopen⟩ hfault hexec
  have howes : ∀ ok, m.owes (.get .quotes c key) ok w :=
    fun ok => m.plain _ ok w (by simp) (by simp) (by simp)
  have hview : w.quotes.view self key = mk.quote key := by
    rw [LockTable.view_eq_committed (Cell.own_of_pending_none (hwf.settled key)),
      (hA.market w hw).2.2]
  cases fault with
  | some e =>
    cases hexec
    exact ⟨fun t _ => unchanged_others w t, hwf, howes _, ⟨hw, _, _, hopen⟩,
      .inl (hfault (by simp))⟩
  | none =>
    rw [exec_get hopen] at hexec
    simp only [Db.get, hview] at hexec
    split at hexec
    · cases hexec
    · split at hexec
      · rename_i hquote
        cases hexec
        obtain ⟨hothers, hwf', hw', hopen'⟩ := moved hA hc hwf hw hopen (toLex (key, []))
        exact ⟨hothers, hwf', howes _, ⟨hw', _, _, hopen'⟩, hquote⟩
      · rename_i hquote
        cases hexec
        exact ⟨fun t _ => unchanged_others w t, hwf, howes _, ⟨hw, _, _, hopen⟩, .inr hquote⟩

theorem does_getKnown {key : CStr} {p : Portfolio}
    (hknown : ∀ w, A w → w.portfolios.view self key = some p) :
    Does self m (fun w => A w ∧ OpenAt self .portfolios none c w) (call (.get .portfolios c key))
      fun r w =>
      (A w ∧ match r with
        | .ok p' => p' = p ∧ OpenAt self .portfolios (some (toLex (key, []))) c w
        | .error _ => m.mayFail) := by
  refine Does.call (fun hshared r w w' h ho => ⟨hA.stable hshared w w' h.1 ho, ?_⟩) ?_
  · cases r with
    | ok p' => exact ⟨h.2.1, h.2.2.others ho⟩
    | error _ => exact h.2
  rintro w fault r w' hwf ⟨hw, hopen⟩ hfault hexec
  have howes : ∀ ok, m.owes (.get .portfolios c key) ok w :=
    fun ok => m.plain _ ok w (by simp) (by simp) (by simp)
  cases fault with
  | some e =>
    cases hexec
    exact ⟨fun t _ => unchanged_others w t, hwf, howes _, hw, hfault (by simp)⟩
  | none =>
    rw [exec_get hopen] at hexec
    simp only [Db.get, hknown w hw] at hexec
    split at hexec
    · cases hexec
    · cases hexec
      obtain ⟨hothers, hwf', hw', hopen'⟩ := moved hA hc hwf hw hopen (toLex (key, []))
      exact ⟨hothers, hwf', howes _, hw', rfl, hopen'⟩

theorem does_pgetNext (pos : Option Position) :
    Does self m (fun w => A w ∧ OpenAt self .portfoliosSec pos c w) (call (.portfoliosPgetNext c))
      fun r w =>
      A w ∧ match r with
        | .ok (k, p) => Reading self c k p w ∧
          (m.Quiet → nextAfter (w.walkKeys self) pos = some (toLex (p.accountId, k)))
        | .error _ =>
          (∃ dbp pos, OpenAt self dbp pos c w) ∧
          (m.Quiet → nextAfter (w.walkKeys self) pos = none) := by
  refine Does.call (fun hshared r w w' h ho => ?_) ?_
  · have hno : ∀ {P : Prop}, m.Quiet → P := fun hq => absurd hshared hq.1
    cases r with
    | ok a =>
      obtain ⟨hw, hreading, -⟩ := h
      obtain ⟨hw', hreading'⟩ := (hA.reading c a.1 a.2).stable hshared w w' ⟨hw, hreading⟩ ho
      exact ⟨hw', hreading', hno⟩
    | error _ =>
      obtain ⟨hw, ⟨dbp, pos', hopen⟩, -⟩ := h
      exact ⟨hA.stable hshared w w' hw ho, ⟨dbp, pos', hopen.others ho⟩, hno⟩
  rintro w fault r w' hwf ⟨hw, hopen⟩ hfault hexec
  have howes : ∀ ok, m.owes (.portfoliosPgetNext c) ok w :=
    fun ok => m.plain _ ok w (by simp) (by simp) (by simp)
  cases fault with
  | some e =>
    cases hexec
    exact ⟨fun t _ => unchanged_others w t, hwf, howes _, hw, ⟨_, _, hopen⟩,
      fun hq => absurd (hfault (by simp)) hq.2⟩
  | none =>
    simp only [Db.exec, Db.perform, Db.onCursor, hopen.2, Db.portfoliosPgetNext] at hexec
    cases hnext : nextAfter (w.walkKeys self) pos with
    | none =>
      simp only [hnext] at hexec
      cases hexec
      exact ⟨fun t _ => unchanged_others w t, hwf, howes _, hw, ⟨_, _, hopen⟩, fun _ => hnext⟩
    | some pos' =>
      obtain ⟨k, p, hview, rfl⟩ := mem_walkKeys.mp (nextAfter_mem hnext)
      simp only [hnext, ofLex_toLex, hview] at hexec
      split at hexec
      · cases hexec
      · rename_i hfree
        rw [Bool.not_eq_true] at hfree
        cases hexec
        obtain ⟨hothers, hwf', hw', hopen'⟩ := moved hA hc hwf hw hopen (toLex (p.accountId, k))
        exact ⟨hothers, hwf', howes _, hw', ⟨hopen', hview, hfree⟩, fun _ => hnext⟩

end Reads

/-! ## Writes -/

section Writes
variable {self : Txn} {m : Regime F} {P : Db F → Prop} {D U : Db F → Prop}

theorem not_reads_of_readLocked {w : Db F} {t : Txn} {k : CStr} (hne : t ≠ self)
    (h : w.readLockedByOther self .portfolios k = false) : ¬ w.Reads t k := by
  rintro ⟨-, -, c, oc, hoc, rfl, htable, hrecord⟩
  have hlocked : w.readLockedByOther self .portfolios k = true := by
    simp only [Db.readLockedByOther, List.any_eq_true]
    exact ⟨oc, (cursor?_mem hoc).1, by simp [hne, htable, hrecord]⟩
  rw [h] at hlocked
  cases hlocked

theorem does_put {c : CursorId} {key : CStr} {p : Portfolio}
    (hstable : m.shared → ∀ w w', D w → Others self w w' → D w')
    (hP : m.shared → ∀ w w', P w → Others self w w' → P w')
    (hopen : ∀ w, P w → OpenAt self .portfolios (some (toLex (key, []))) c w)
    (howes : ∀ ok w, P w → m.owes (.portfoliosPut c p) ok w)
    (hD : ∀ w, P w → w.portfolios.lockedByOther self key = false →
      D { w with portfolios := w.portfolios.write self key p }) :
    Does self m P (call (.portfoliosPut c p)) fun r w => match r with
      | .ok _ => D w
      | .error _ => P w ∧ m.mayFail := by
  refine Does.call (fun hshared r w w' h ho => ?_) fun w fault r w' hwf hw hfault hexec => ?_
  · cases r with
    | ok _ => exact hstable hshared w w' h ho
    | error _ => exact ⟨hP hshared w w' h.1 ho, h.2⟩
  cases fault with
  | some e =>
    cases hexec
    exact ⟨fun t _ => unchanged_others w t, hwf, howes _ w hw, hw, hfault (by simp)⟩
  | none =>
    have hrecord : (⟨c, self, .portfolios, some (toLex (key, []))⟩ : OpenCursor).record =
      some key := rfl
    simp only [Db.exec, Db.perform, Db.onCursor, (hopen w hw).2, Db.portfoliosPut, hrecord] at hexec
    split at hexec
    · cases hexec
    · rename_i hlock
      rw [Bool.or_eq_true, not_or, Bool.not_eq_true, Bool.not_eq_true] at hlock
      cases hexec
      exact ⟨fun t ht => others_write ht hlock.1 (not_reads_of_readLocked ht hlock.2) p,
        ⟨hwf.nodup, hwf.fresh, hwf.settled⟩, howes _ w hw, hD w hw hlock.1⟩

theorem does_insert {key : CStr} {p : Portfolio}
    (hstable : m.shared → ∀ w w', D w → Others self w w' → D w')
    (hP : m.shared → ∀ w w', P w → Others self w w' → P w')
    (howes : ∀ ok w, P w → m.owes (.portfoliosInsert self key p) ok w)
    (hD : ∀ w, P w → w.portfolios.lockedByOther self key = false →
      w.portfolios.view self key = none →
      D { w with portfolios := w.portfolios.write self key p }) :
    Does self m P (call (.portfoliosInsert self key p)) fun r w => match r with
      | .ok _ => D w
      | .error _ => P w ∧ (m.Quiet → w.portfolios.view self key ≠ none) := by
  refine Does.call (fun hshared r w w' h ho => ?_) fun w fault r w' hwf hw hfault hexec => ?_
  · cases r with
    | ok _ => exact hstable hshared w w' h ho
    | error _ => exact ⟨hP hshared w w' h.1 ho, fun hq => absurd hshared hq.1⟩
  cases fault with
  | some e =>
    cases hexec
    exact ⟨fun t _ => unchanged_others w t, hwf, howes _ w hw, hw,
      fun hq => absurd (hfault (by simp)) hq.2⟩
  | none =>
    simp only [Db.exec, Db.perform, Db.portfoliosInsert] at hexec
    split at hexec
    · cases hexec
    · rename_i hfree
      rw [Bool.not_eq_true] at hfree
      split at hexec
      · rename_i hview
        cases hexec
        exact ⟨fun t _ => unchanged_others w t, hwf, howes _ w hw, hw, fun _ => by simp [hview]⟩
      · rename_i hview
        cases hexec
        refine ⟨fun t ht => others_write ht hfree ?_ p, ⟨hwf.nodup, hwf.fresh, hwf.settled⟩,
          howes _ w hw, hD w hw hfree hview⟩
        rintro ⟨-, hcommitted, -⟩
        cases hown : w.portfolios.own self key with
        | some v =>
          rw [LockTable.view_of_own hown] at hview
          cases hview
        | none => exact hcommitted ((LockTable.view_eq_committed hown).symm.trans hview)

theorem does_fetchAndAdd {P' : ℤ → Db F → Prop}
    (hstable : m.shared → ∀ n w w', P' n w → Others self w w' → P' n w')
    (h : ∀ w,
      P w → P' w.numberPortfolios { w with numberPortfolios := int32 (w.numberPortfolios + 1) }) :
    Does self m P fetchAndAdd P' := by
  refine Outline.perform (fun n w w' hw hrely => ?_) fun w n w' hw hact => ?_
  · rcases hrely with rfl | ⟨hshared, hothers, hwf⟩
    · exact hw
    · exact ⟨hwf hw.1, hstable hshared n w w' hw.2 hothers⟩
  · obtain ⟨rfl, rfl⟩ := hact
    have hwf' : Db.WellFormed { w with numberPortfolios := int32 (w.numberPortfolios + 1) } :=
      ⟨hw.1.nodup, hw.1.fresh, hw.1.settled⟩
    refine ⟨⟨fun t _ => ?_, fun _ => hwf'⟩, hwf', h w hw.2⟩
    exact ⟨rfl, rfl, rfl, rfl, fun k hk => ⟨rfl, hk.not_locked⟩, fun _ _ hc _ => hc,
      le_rfl, Iff.rfl⟩

/-! ## Beginning and ending -/

theorem does_txnBegin (hP : m.shared → ∀ w w', P w → Others self w w' → P w') :
    Does self m P (call .txnBegin) fun r w => P w ∧ match r with
      | .ok t => t = self
      | .error _ => m.mayFail := by
  refine Does.call (fun hshared r w w' h ho => ⟨hP hshared w w' h.1 ho, h.2⟩)
    fun w fault r w' hwf hw hfault hexec => ?_
  have howes : ∀ ok, m.owes .txnBegin ok w := fun ok => m.plain _ ok w (by simp) (by simp) (by simp)
  cases fault with
  | some e =>
    cases hexec
    exact ⟨fun t _ => unchanged_others w t, hwf, howes _, hw, hfault (by simp)⟩
  | none =>
    cases hexec
    exact ⟨fun t _ => unchanged_others w t, hwf, howes _, hw, rfl⟩

theorem does_setName (hP : m.shared → ∀ w w', P w → Others self w w' → P w') (txnName : String) :
    Does self m P (call (.setName self txnName)) fun r w => P w ∧ (r.isOk = false → m.mayFail) := by
  refine Does.call (fun hshared r w w' h ho => ⟨hP hshared w w' h.1 ho, h.2⟩)
    fun w fault r w' hwf hw hfault hexec => ?_
  have howes : ∀ ok, m.owes (.setName self txnName) ok w :=
    fun ok => m.plain _ ok w (by simp) (by simp) (by simp)
  cases fault with
  | some e =>
    cases hexec
    exact ⟨fun t _ => unchanged_others w t, hwf, howes _, hw, fun _ => hfault (by simp)⟩
  | none =>
    cases hexec
    exact ⟨fun t _ => unchanged_others w t, hwf, howes _, hw, by simp [Except.isOk, Except.toBool]⟩

theorem does_commit (hD : m.shared → ∀ w w', D w → Others self w w' → D w')
    (hU : m.shared → ∀ w w', U w → Others self w w' → U w')
    (howes : ∀ ok w, P w → m.owes (.commit self) ok w)
    (hdone : ∀ w, w.WellFormed → P w → D (w.commit self))
    (hundone : m.mayFail → ∀ w, w.WellFormed → P w → U (w.abort self)) :
    Does self m P (call (.commit self)) fun r w => match r with
      | .ok _ => D w
      | .error _ => U w ∧ m.mayFail := by
  refine Does.call (fun hshared r w w' h ho => ?_) fun w fault r w' hwf hw hfault hexec => ?_
  · cases r with
    | ok _ => exact hD hshared w w' h ho
    | error _ => exact ⟨hU hshared w w' h.1 ho, h.2⟩
  cases fault with
  | some e =>
    cases hexec
    exact ⟨fun t ht => others_abort ht hwf, wellFormed_abort hwf, howes _ w hw,
      hundone (hfault (by simp)) w hwf hw, hfault (by simp)⟩
  | none =>
    cases hexec
    exact ⟨fun t ht => others_commit ht hwf, wellFormed_commit hwf, howes _ w hw, hdone w hwf hw⟩

theorem does_abort (hU : m.shared → ∀ w w', U w → Others self w w' → U w')
    (hundone : ∀ w, w.WellFormed → P w → U (w.abort self)) :
    Does self m P (call (.abort self)) fun _ w => U w := by
  refine Does.call (fun hshared r w w' h ho => hU hshared w w' h ho)
    fun w fault r w' hwf hw hfault hexec => ?_
  have howes : ∀ ok, m.owes (.abort self) ok w :=
    fun ok => m.plain _ ok w (by simp) (by simp) (by simp)
  have hw' : w' = w.abort self := by
    cases fault <;> cases hexec <;> rfl
  subst hw'
  exact ⟨fun t ht => others_abort ht hwf, wellFormed_abort hwf, howes _, hundone w hwf hw⟩

end Writes

end Chronos.Orders
