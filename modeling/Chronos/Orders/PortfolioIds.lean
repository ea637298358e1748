import Chronos.Orders.Functions
import Chronos.Benchmark.Decimals

/-! # Ids of portfolios

Different ids make different keys, until the counter wraps around. The ids of the
records in use stay below the counter.
-/
namespace Chronos.Orders
open Foundation Storage Benchmark
variable {F : Type}

/-- The key of an id: below 10⁹ its digits fit their member, up to 2³¹ they fill it. -/
theorem portfolioIdString_natCast {n : ℕ} (h : n < 2 ^ 31) (accountId : CStr) :
    portfolioIdString n accountId = formatNat n ++ if (formatNat n).length < ID_SZ then []
      else accountId := by
  rw [portfolioIdString, formatInt_natCast]
  split
  · rw [List.append_nil]
  · rw [List.take_of_length_le (length_formatNat_le (h.trans (by norm_num)))]

theorem portfolioIdString_injective {n n' : ℕ} (hn : n < 2 ^ 31) (hn' : n' < 2 ^ 31) {a a' : CStr}
    (h : portfolioIdString n a = portfolioIdString n' a') : n = n' := by
  rw [portfolioIdString_natCast hn, portfolioIdString_natCast hn'] at h
  have hle := length_formatNat_le (hn.trans (by norm_num : 2 ^ 31 < 10 ^ ID_SZ))
  have hle' := length_formatNat_le (hn'.trans (by norm_num : 2 ^ 31 < 10 ^ ID_SZ))
  apply formatNat_injective
  by_cases hs : (formatNat n).length < ID_SZ <;> by_cases hs' : (formatNat n').length < ID_SZ
  · simpa only [if_pos hs, if_pos hs', List.append_nil] using h
  · have hlen := congrArg List.length h
    simp only [if_pos hs, if_neg hs', List.append_nil, List.length_append] at hlen
    omega
  · have hlen := congrArg List.length h
    simp only [if_neg hs, if_pos hs', List.append_nil, List.length_append] at hlen
    omega
  · exact (List.append_inj h (by omega)).1

def KeysBelow (n : ℕ) (c : CStr → Option Portfolio) : Prop :=
  ∀ k p, c k = some p → ∃ i < n, ∃ accountId, k = portfolioIdString i accountId

theorem KeysBelow.mono {n n' : ℕ} {c : CStr → Option Portfolio} (h : KeysBelow n c) (hle : n ≤ n') :
    KeysBelow n' c := by
  intro k p hp
  obtain ⟨i, hi, a, rfl⟩ := h k p hp
  exact ⟨i, hi.trans_le hle, a, rfl⟩

theorem KeysBelow.fresh {n : ℕ} {c : CStr → Option Portfolio} (h : KeysBelow n c) (hn : n < 2 ^ 31)
    (accountId : CStr) : c (portfolioIdString n accountId) = none := by
  cases hp : c (portfolioIdString n accountId) with
  | none => rfl
  | some p =>
    obtain ⟨i, hi, a, heq⟩ := h _ p hp
    exact absurd (portfolioIdString_injective hn (hi.trans hn) heq) hi.ne'

theorem KeysBelow.update {n : ℕ} {c : CStr → Option Portfolio} (h : KeysBelow n c)
    (accountId : CStr) (p : Portfolio) :
    KeysBelow (n + 1) (Function.update c (portfolioIdString n accountId) (some p)) := by
  intro k p' hp'
  by_cases hk : k = portfolioIdString n accountId
  · exact ⟨n, Nat.lt_succ_self n, accountId, hk⟩
  · rw [Function.update_of_ne hk] at hp'
    exact h.mono (Nat.le_succ n) k p' hp'

theorem KeysBelow.rewrite {n : ℕ} {c : CStr → Option Portfolio} (h : KeysBelow n c) {k : CStr}
    {p p' : Portfolio} (hk : c k = some p) : KeysBelow n (Function.update c k (some p')) := by
  intro k' p'' hp''
  by_cases hk' : k' = k
  · rw [hk']
    exact h k p hk
  · rw [Function.update_of_ne hk'] at hp''
    exact h k' p'' hp''

/-! ## In a transaction and between transactions -/

variable {self : Txn} {mk : Market F} {c₀ : CStr → Option Portfolio} {n n₀ : ℕ} {w w' : Db F}

/-- A thread in a transaction sees keys below a number; nothing has been committed yet. -/
structure Underway (t : Txn) (mk : Market F) (c₀ : CStr → Option Portfolio) (n : ℕ)
    (w : Db F) : Prop where
  market : marketOf w = mk
  committed : w.portfolios.committed = c₀
  keys : KeysBelow n (w.portfolios.view t)

/-- The thread has written nothing, and the counter is above the keys. -/
structure Idle (t : Txn) (n : ℕ) (w : Db F) : Prop where
  unwritten : ∀ k, w.portfolios.own t k = none
  keys : KeysBelow n w.portfolios.committed
  counter : w.numberPortfolios = n

theorem Underway.mono (h : Underway self mk c₀ n w) {n' : ℕ} (hle : n ≤ n') :
    Underway self mk c₀ n' w :=
  ⟨h.market, h.committed, h.keys.mono hle⟩

theorem Underway.sameData (h : Underway self mk c₀ n w) (hd : SameData w w') :
    Underway self mk c₀ n w' where
  market := by
    rw [← h.market, marketOf, marketOf, hd.personal, hd.stocks, hd.quotes]
  committed := by rw [hd.portfolios, h.committed]
  keys := by
    rw [hd.portfolios]
    exact h.keys

theorem Underway.steady {m : Regime F} (hshared : ¬ m.shared) {P : Db F → Prop}
    (hP : ∀ w, P w → ∃ c₀ n, Underway self mk c₀ n w) (hdata : ∀ w w', P w → SameData w w' → P w') :
    Steady self m mk [] P where
  stable h := absurd h hshared
  aside w w' hw ha := hdata w w' hw ha.data
  bound w _ c hc := by cases hc
  market w hw := by
    obtain ⟨c₀, n, h⟩ := hP w hw
    rw [← h.market]
    exact ⟨rfl, rfl, rfl⟩

theorem Underway.rewrite (h : Underway self mk c₀ n w) {k : CStr} {p : Portfolio}
    (hview : w.portfolios.view self k = some p) (p' : Portfolio) :
    Underway self mk c₀ n { w with portfolios := w.portfolios.write self k p' } where
  market := h.market
  committed := LockTable.committed_write.trans h.committed
  keys := by
    rw [LockTable.view_write]
    exact h.keys.rewrite hview

theorem Underway.insert (h : Underway self mk c₀ n w) (accountId : CStr) (p : Portfolio) :
    Underway self mk c₀ (n + 1)
      { w with portfolios := w.portfolios.write self (portfolioIdString n accountId) p } where
  market := h.market
  committed := LockTable.committed_write.trans h.committed
  keys := by
    rw [LockTable.view_write]
    exact h.keys.update accountId p

theorem view_of_unwritten (h : ∀ k, w.portfolios.own self k = none) :
    w.portfolios.view self = w.portfolios.committed :=
  funext fun k => LockTable.view_eq_committed (h k)

theorem committed_commit : (w.commit self).portfolios.committed = w.portfolios.view self :=
  funext fun _ => LockTable.committed_commit

theorem committed_abort : (w.abort self).portfolios.committed = w.portfolios.committed :=
  LockTable.committed_abort

theorem marketOf_commit (hwf : w.WellFormed) : marketOf (w.commit self) = marketOf w := by
  simp only [marketOf, Db.commit, Db.release, LockTable.commit_of_settled hwf.settled]

theorem marketOf_abort (hwf : w.WellFormed) : marketOf (w.abort self) = marketOf w := by
  simp only [marketOf, Db.abort, Db.release, LockTable.abort_of_settled hwf.settled]

theorem Idle.underway (h : Idle self n w) :
    Underway self (marketOf w) w.portfolios.committed n w where
  market := rfl
  committed := rfl
  keys := by
    rw [view_of_unwritten h.unwritten]
    exact h.keys

theorem Underway.commit (h : Underway self mk c₀ n w) (hn : w.numberPortfolios = n) :
    Idle self n (w.commit self) where
  unwritten _ := LockTable.own_commit_self
  keys := by
    rw [committed_commit]
    exact h.keys
  counter := hn

theorem Underway.abort (h : Underway self mk c₀ n w) (h₀ : KeysBelow n₀ c₀)
    (hn : w.numberPortfolios = n₀) : Idle self n₀ (w.abort self) where
  unwritten _ := LockTable.own_abort_self
  keys := by
    rw [committed_abort, h.committed]
    exact h₀
  counter := hn

end Chronos.Orders
