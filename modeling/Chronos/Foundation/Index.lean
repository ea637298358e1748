import Mathlib

/-! # Tables with an index

The records of a table have a name and a value. Where no two records share a name
the table is a partial map from names to values. A transaction that writes over the
table changes that map by what it wrote, provided that it does not duplicate a name.
-/
namespace Chronos.Foundation

variable {K V H X : Type} (name : V → H) (val : V → X)

/-- No two records share a name. -/
def Distinct (c : K → Option V) : Prop :=
  ∀ k k' v v', c k = some v → c k' = some v' → name v = name v' → k = k'

/-- The map from names to values that the table is. -/
structure Indexes (c : K → Option V) (b : H → Option X) : Prop where
  distinct : Distinct name c
  value : ∀ q x, b q = some x ↔ ∃ k v, c k = some v ∧ name v = q ∧ val v = x

/-- What is seen: the table with the writes over it. -/
def patch (w c : K → Option V) (k : K) : Option V := (w k).or (c k)

def KeepsNames (w c : K → Option V) : Prop :=
  ∀ k v v', w k = some v → c k = some v' → name v = name v'

/-- The map has, at the names of the written records, what the table has there. -/
structure Fits (w c : K → Option V) (b : H → Option X) : Prop where
  distinct : Distinct name w
  value : ∀ k v, w k = some v → b (name v) = (c k).map val

def NoneDoubled (w c : K → Option V) : Prop :=
  ∀ k v, w k = some v → c k = none → ∀ k' v', patch w c k' = some v' → name v' = name v → k' = k

structure Overlay (w : K → Option V) (b b' : H → Option X) : Prop where
  written : ∀ k v, w k = some v → b' (name v) = some (val v)
  kept : ∀ q, (∀ k v, w k = some v → name v ≠ q) → b' q = b q

variable {name val} {w c : K → Option V} {b b' : H → Option X}

theorem patch_of_some {k : K} {v : V} (h : w k = some v) : patch w c k = some v := by
  simp [patch, h]

theorem patch_of_none {k : K} (h : w k = none) : patch w c k = c k := by simp [patch, h]

theorem Indexes.of_mem (h : Indexes name val c b) {k : K} {v : V} (hv : c k = some v) :
    b (name v) = some (val v) :=
  (h.value _ _).mpr ⟨k, v, hv, rfl, rfl⟩

theorem Indexes.eq_none (h : Indexes name val c b) {q : H} (hq : ∀ k v, c k = some v → name v ≠ q) :
    b q = none := by
  cases hb : b q with
  | none => rfl
  | some x =>
    obtain ⟨k, v, hv, hname, -⟩ := (h.value q x).mp hb
    exact absurd hname (hq k v hv)

theorem indexes_empty : Indexes name val (fun _ : K => none) (fun _ => none) where
  distinct k k' v v' hv := by cases hv
  value q x := by simp

section Update
variable [DecidableEq K] [DecidableEq H] {k : K} {v : V}

theorem Indexes.update (h : Indexes name val c b)
    (hname : ∀ k' v', c k' = some v' → name v' = name v → k' = k)
    (hkey : ∀ v', c k = some v' → name v' = name v) :
    Indexes name val (Function.update c k (some v))
      (Function.update b (name v) (some (val v))) where
  distinct := by
    intro k₁ k₂ v₁ v₂ h₁ h₂ heq
    by_cases hk₁ : k₁ = k
    · subst hk₁
      rw [Function.update_self, Option.some.injEq] at h₁
      subst h₁
      by_cases hk₂ : k₂ = k₁
      · exact hk₂.symm
      · rw [Function.update_of_ne hk₂] at h₂
        exact (hname k₂ v₂ h₂ heq.symm).symm
    · rw [Function.update_of_ne hk₁] at h₁
      by_cases hk₂ : k₂ = k
      · subst hk₂
        rw [Function.update_self, Option.some.injEq] at h₂
        subst h₂
        exact hname k₁ v₁ h₁ heq
      · rw [Function.update_of_ne hk₂] at h₂
        exact h.distinct k₁ k₂ v₁ v₂ h₁ h₂ heq
  value q x := by
    by_cases hq : q = name v
    · subst hq
      rw [Function.update_self]
      constructor
      · rintro ⟨⟩
        exact ⟨k, v, Function.update_self .., rfl, rfl⟩
      · rintro ⟨k', v', hv', hn, rfl⟩
        by_cases hk : k' = k
        · subst hk
          rw [Function.update_self, Option.some.injEq] at hv'
          rw [hv']
        · rw [Function.update_of_ne hk] at hv'
          exact absurd (hname k' v' hv' hn) hk
    · rw [Function.update_of_ne hq, h.value]
      constructor
      · rintro ⟨k', v', hv', rfl, rfl⟩
        have hk : k' ≠ k := by
          rintro rfl
          exact hq (hkey v' hv')
        exact ⟨k', v', by rwa [Function.update_of_ne hk], rfl, rfl⟩
      · rintro ⟨k', v', hv', rfl, rfl⟩
        by_cases hk : k' = k
        · subst hk
          rw [Function.update_self, Option.some.injEq] at hv'
          exact absurd (by rw [hv']) hq
        · rw [Function.update_of_ne hk] at hv'
          exact ⟨k', v', hv', rfl, rfl⟩

end Update

/-- New records are all that can duplicate a name. -/
theorem distinct_patch_iff (h : Distinct name c) (hnames : KeepsNames name w c) :
    Distinct name (patch w c) ↔ NoneDoubled name w c := by
  constructor
  · intro hpatch k v hv _ k' v' hv' hname
    exact hpatch k' k v' v hv' (patch_of_some hv) hname
  · intro hnew k k' v v' hv hv' hname
    have hcases : ∀ k v, patch w c k = some v → (w k = some v ∧ c k = none) ∨
      ∃ v₀, c k = some v₀ ∧ name v = name v₀ := by
      intro k v hv
      cases hw : w k with
      | none => exact .inr ⟨v, (patch_of_none hw).symm.trans hv, rfl⟩
      | some v₁ =>
        obtain rfl : v₁ = v := Option.some.inj ((patch_of_some hw).symm.trans hv)
        cases hc : c k with
        | none => exact .inl ⟨rfl, rfl⟩
        | some v₀ => exact .inr ⟨v₀, rfl, hnames k _ v₀ hw hc⟩
    rcases hcases k v hv with ⟨hw, hc⟩ | ⟨v₀, hc, hn⟩
    · exact (hnew k v hw hc k' v' hv' hname.symm).symm
    · rcases hcases k' v' hv' with ⟨hw', hc'⟩ | ⟨v₀', hc', hn'⟩
      · exact hnew k' v' hw' hc' k v hv hname
      · exact h k k' v₀ v₀' hc hc' (by rw [← hn, ← hn', hname])

theorem Distinct.of_patch (h : Distinct name (patch w c)) (hnames : KeepsNames name w c) :
    Distinct name c := by
  have hkept : ∀ k v, c k = some v → ∃ v', patch w c k = some v' ∧ name v' = name v := by
    intro k v hv
    cases hw : w k with
    | none => exact ⟨v, (patch_of_none hw).trans hv, rfl⟩
    | some v' => exact ⟨v', patch_of_some hw, hnames k v' v hw hv⟩
  intro k k' v v' hv hv' hname
  obtain ⟨v₁, h₁, hn₁⟩ := hkept k v hv
  obtain ⟨v₂, h₂, hn₂⟩ := hkept k' v' hv'
  exact h k k' v₁ v₂ h₁ h₂ (by rw [hn₁, hn₂, hname])

theorem KeepsNames.congr (h : KeepsNames name w c) {c' : K → Option V}
    (hc : ∀ k, w k ≠ none → c' k = c k) :
    KeepsNames name w c' := fun k v v' hv hv' => h k v v' hv ((hc k (by simp [hv])).symm.trans hv')

theorem Fits.congr {c' : K → Option V} (h : Fits name val w c' b)
    (hc : ∀ k, w k ≠ none → c' k = c k) : Fits name val w c b where
  distinct := h.distinct
  value k v hv := by rw [h.value k v hv, hc k (by simp [hv])]

/-- The map of a table fits what is written over it if that leaves the names distinct. -/
theorem Indexes.fits (h : Indexes name val c b) (hpatch : Distinct name (patch w c))
    (hnames : KeepsNames name w c) : Fits name val w c b where
  distinct k k' v v' hv hv' := hpatch k k' v v' (patch_of_some hv) (patch_of_some hv')
  value k v hv := by
    cases hc : c k with
    | some v₀ =>
      rw [hnames k v v₀ hv hc, h.of_mem hc]
      rfl
    | none =>
      refine h.eq_none fun k' v' hv' hname => ?_
      cases hw : w k' with
      | some v₁ =>
        have hname' : name v₁ = name v' := hnames k' v₁ v' hw hv'
        obtain rfl := hpatch k' k v₁ v (patch_of_some hw) (patch_of_some hv) (hname'.trans hname)
        rw [hc] at hv'
        cases hv'
      | none =>
        obtain rfl := hpatch k' k v' v ((patch_of_none hw).trans hv') (patch_of_some hv) hname
        rw [hc] at hv'
        cases hv'

theorem Indexes.patched (h : Indexes name val c b) (hpatch : Distinct name (patch w c))
    (hnames : KeepsNames name w c) (hb : Overlay name val w b b') :
    Indexes name val (patch w c) b' where
  distinct := hpatch
  value q x := by
    constructor
    · intro hx
      by_cases hq : ∃ k v, w k = some v ∧ name v = q
      · obtain ⟨k, v, hv, rfl⟩ := hq
        rw [hb.written k v hv] at hx
        cases hx
        exact ⟨k, v, patch_of_some hv, rfl, rfl⟩
      · push Not at hq
        rw [hb.kept q hq] at hx
        obtain ⟨k, v, hv, rfl, rfl⟩ := (h.value q x).mp hx
        refine ⟨k, v, ?_, rfl, rfl⟩
        cases hw : w k with
        | none => rw [patch_of_none hw, hv]
        | some v₁ =>
          exact absurd (hnames k v₁ v hw hv) (hq k v₁ hw)
    · rintro ⟨k, v, hv, rfl, rfl⟩
      cases hw : w k with
      | some v₁ =>
        rw [patch_of_some hw] at hv
        cases hv
        exact hb.written k _ hw
      | none =>
        rw [patch_of_none hw] at hv
        rw [hb.kept, h.of_mem hv]
        intro k' v' hv' hname
        obtain rfl := hpatch k' k v' v (patch_of_some hv') ((patch_of_none hw).trans hv) hname
        rw [hw] at hv'
        cases hv'

theorem overlay_nothing : Overlay name val (fun _ : K => none) b b where
  written _ _ h := by cases h
  kept _ _ := rfl

section Write
variable [DecidableEq K] {k : K} {v : V}

/-- A map that fits one write more fits what was written before. -/
theorem Fits.of_update (h : Fits name val (Function.update w k (some v)) c b)
    (hkey : ∀ v', w k = some v' → name v' = name v) : Fits name val w c b where
  distinct k₁ k₂ v₁ v₂ h₁ h₂ hname := by
    have lift : ∀ k' v', w k' = some v' → ∃ v'', Function.update w k (some v) k' = some v'' ∧
      name v'' = name v' := by
      intro k' v' hv'
      by_cases hk : k' = k
      · subst hk
        exact ⟨v, Function.update_self .., (hkey v' hv').symm⟩
      · exact ⟨v', by rwa [Function.update_of_ne hk], rfl⟩
    obtain ⟨v₁', h₁', hn₁⟩ := lift k₁ v₁ h₁
    obtain ⟨v₂', h₂', hn₂⟩ := lift k₂ v₂ h₂
    exact h.distinct k₁ k₂ v₁' v₂' h₁' h₂' (by rw [hn₁, hn₂, hname])
  value k' v' hv' := by
    by_cases hk : k' = k
    · subst hk
      rw [hkey v' hv']
      exact h.value k' v (Function.update_self ..)
    · exact h.value k' v' (by rwa [Function.update_of_ne hk])

theorem Overlay.seen (hb : Overlay name val w b b')
    (hfits : Fits name val (Function.update w k (some v)) c b)
    (hkey : ∀ v', w k = some v' → name v' = name v) : b' (name v) = (patch w c k).map val := by
  cases hw : w k with
  | some v' =>
    rw [patch_of_some hw, ← hkey v' hw, hb.written k v' hw]
    rfl
  | none =>
    rw [patch_of_none hw, hb.kept, hfits.value k v (Function.update_self ..)]
    intro k' v' hv' hname
    have hk : k' ≠ k := by
      rintro rfl
      rw [hw] at hv'
      cases hv'
    exact hk (hfits.distinct k' k v' v (by rwa [Function.update_of_ne hk])
      (Function.update_self ..) hname)

variable [DecidableEq H]

theorem Overlay.update (hb : Overlay name val w b b')
    (hfits : Fits name val (Function.update w k (some v)) c b)
    (hkey : ∀ v', w k = some v' → name v' = name v) :
    Overlay name val (Function.update w k (some v)) b
      (Function.update b' (name v) (some (val v))) where
  written k' v' hv' := by
    by_cases hk : k' = k
    · subst hk
      rw [Function.update_self, Option.some.injEq] at hv'
      rw [hv', Function.update_self]
    · have hne : name v' ≠ name v :=
        fun hname => hk (hfits.distinct k' k v' v hv' (Function.update_self ..) hname)
      rw [Function.update_of_ne hne]
      exact hb.written k' v' (by rwa [Function.update_of_ne hk] at hv')
  kept q hq := by
    have hqv : q ≠ name v := (hq k v (Function.update_self ..)).symm
    rw [Function.update_of_ne hqv]
    refine hb.kept q fun k' v' hv' => ?_
    by_cases hk : k' = k
    · subst hk
      rw [hkey v' hv']
      exact hqv.symm
    · exact hq k' v' (by rwa [Function.update_of_ne hk])

end Write

end Chronos.Foundation
