import Chronos.Foundation.Program

/-! # What a run adds to a history

A state keeps a history. A run extends it by a word, and the words that the runs of
a program may add make up a language. Programs one after the other add the product
of their languages, a loop the star of its rounds. -/
namespace Chronos.Foundation
open Computability
variable {A W : Type} {history : W → List A} {L L' M M' : Language A} {w w' w'' : W}

/-- The words with a letter in `P`. -/
def containing (P : A → Prop) : Language A := {x | ∃ a ∈ x, P a}

/-- Unless a letter is in `P`, a word of a product has its parts in the languages. -/
theorem mem_mul_or_containing {P : A → Prop} {x y : List A} (hx : x ∈ L + containing P)
    (hy : y ∈ M + containing P) : x ++ y ∈ L * M + containing P := by
  rcases hx with hx | ⟨a, ha, hP⟩
  · rcases hy with hy | ⟨a, ha, hP⟩
    · exact Or.inl (Language.append_mem_mul hx hy)
    · exact Or.inr ⟨a, List.mem_append_right _ ha, hP⟩
  · exact Or.inr ⟨a, List.mem_append_left _ ha, hP⟩

theorem mem_mul_add_containing {P : A → Prop} {x : List A} (hx : x ∈ L * (M + containing P)) :
    x ∈ L * M + containing P := by
  obtain ⟨y, hy, z, hz, rfl⟩ := Language.mem_mul.mp hx
  exact mem_mul_or_containing (Or.inl hy) hz

theorem mem_kstar_or_containing {P : A → Prop} {x : List A} (hx : x ∈ (L + containing P)∗) :
    x ∈ L∗ + containing P := by
  obtain ⟨words, rfl, hwords⟩ := Language.mem_kstar.mp hx
  by_cases hall : ∀ word ∈ words, word ∈ L
  · exact Or.inl (Language.join_mem_kstar hall)
  · push Not at hall
    obtain ⟨word, hmem, hword⟩ := hall
    obtain ⟨a, ha, hP⟩ := (hwords word hmem).resolve_left hword
    exact Or.inr ⟨a, List.mem_flatten.mpr ⟨word, hmem, ha⟩, hP⟩

theorem forall_mem_mul {P : A → Prop} (hL : ∀ x ∈ L, ∀ a ∈ x, P a) (hM : ∀ x ∈ M, ∀ a ∈ x, P a) :
    ∀ x ∈ L * M, ∀ a ∈ x, P a := by
  intro x hx
  obtain ⟨y, hy, z, hz, rfl⟩ := Language.mem_mul.mp hx
  exact List.forall_mem_append.mpr ⟨hL y hy, hM z hz⟩

theorem forall_mem_kstar {P : A → Prop} (hL : ∀ x ∈ L, ∀ a ∈ x, P a) : ∀ x ∈ L∗, ∀ a ∈ x, P a := by
  intro x hx a ha
  obtain ⟨words, rfl, hwords⟩ := Language.mem_kstar.mp hx
  obtain ⟨word, hword, ha⟩ := List.mem_flatten.mp ha
  exact hL word (hwords word hword) a ha

theorem forall_mem_prod {ι : Type} {P : A → Prop} {K : ι → Language A}
    (hK : ∀ i, ∀ x ∈ K i, ∀ a ∈ x, P a) (items : List ι) :
    ∀ x ∈ (items.map K).prod, ∀ a ∈ x, P a := by
  induction items with
  | nil =>
    intro x hx
    obtain rfl : x = [] := hx
    simp
  | cons item items ih => exact forall_mem_mul (hK item) ih

def Grows (history : W → List A) (L : Language A) (w w' : W) : Prop :=
  ∃ x ∈ L, history w' = history w ++ x

theorem Grows.refl : Grows history 1 w w := ⟨[], rfl, by simp⟩

theorem Grows.mono (h : Grows history L w w') (hL : ∀ x ∈ L, x ∈ M) : Grows history M w w' := by
  obtain ⟨x, hx, hhistory⟩ := h
  exact ⟨x, hL x hx, hhistory⟩

theorem Grows.inl (h : Grows history L w w') : Grows history (L + M) w w' :=
  h.mono fun _ hx => Or.inl hx

theorem Grows.trans (h : Grows history L w w') (h' : Grows history M w' w'')
    (hLM : ∀ x ∈ L, ∀ y ∈ M, x ++ y ∈ M') : Grows history M' w w'' := by
  obtain ⟨x, hx, hhistory⟩ := h
  obtain ⟨y, hy, hhistory'⟩ := h'
  exact ⟨x ++ y, hLM x hx y hy, by rw [hhistory', hhistory, List.append_assoc]⟩

theorem Grows.mul (h : Grows history L w w') (h' : Grows history M w' w'') :
    Grows history (L * M) w w'' :=
  h.trans h' fun _ hx _ hy => Language.append_mem_mul hx hy

theorem Grows.mul_containing {P : A → Prop} (h : Grows history (L + containing P) w w')
    (h' : Grows history (M + containing P) w' w'') : Grows history (L * M + containing P) w w'' :=
  h.trans h' fun _ hx _ hy => mem_mul_or_containing hx hy

theorem Grows.star_mul (h : Grows history (L∗) w w') (h' : Grows history L w' w'') :
    Grows history (L∗) w w'' := by
  refine h.trans h' fun x hx y hy => ?_
  obtain ⟨words, rfl, hwords⟩ := Language.mem_kstar.mp hx
  refine Language.mem_kstar.mpr ⟨words ++ [y], by simp, fun word hword => ?_⟩
  rcases List.mem_append.mp hword with hword | hword
  · exact hwords word hword
  · exact List.mem_singleton.mp hword ▸ hy

namespace Program
variable {C : Type} {R : C → Type} {β σ : Type} {h : (c : C) → W → Option (R c × W)}

/-- The rule of a loop that yields its result: what holds at the start of every round. -/
theorem Exec.loop_value {body : σ → Program C R (σ ⊕ β)} (I : σ → W → Prop) (Q : β → W → Prop)
    (hnext : ∀ s w s' w', I s w → Exec h (body s) w (.value (.inl s')) w' → I s' w')
    (hdone : ∀ s w b w', I s w → Exec h (body s) w (.value (.inr b)) w' → Q b w')
    {s : σ} {b : β} (he : Exec h (loop body s) w (.value b) w') (hs : I s w) : Q b w' := by
  generalize hp : loop body s = p at he
  generalize ho : Outcome.value b = o at he
  induction he generalizing s with
  | ret => cases hp
  | crash => cases hp
  | call => cases hp
  | iterCrash => cases ho
  | @iter _ _ _ _ _ _ w₁ w₂ _ x _ hbody hk _ ihk =>
    cases hp
    cases x with
    | inl s' => exact ihk Q hnext hdone (hnext _ _ _ _ hs hbody) rfl ho
    | inr b' =>
      cases ho
      obtain ⟨heq, rfl⟩ := Exec.pure_cases hk
      cases heq
      exact hdone _ _ _ _ hs hbody

/-- The rounds of a loop add a word of the star, its last round another one. -/
theorem Exec.loop_grows {body : σ → Program C R (σ ⊕ β)} {K : β → Language A}
    (hnext : ∀ s w s' w', Exec h (body s) w (.value (.inl s')) w' → Grows history L w w')
    (hdone : ∀ s w b w', Exec h (body s) w (.value (.inr b)) w' → Grows history (K b) w w') {s : σ}
    {b : β} (he : Exec h (loop body s) w (.value b) w') : Grows history (L∗ * K b) w w' := by
  refine he.loop_value (fun _ w' => Grows history (L∗) w w')
    (fun b w' => Grows history (L∗ * K b) w w') ?_ ?_
    (Grows.refl.mono ?_)
  · exact fun s w₁ s' w₂ hI hbody => hI.star_mul (hnext s w₁ s' w₂ hbody)
  · exact fun s w₁ b w₂ hI hbody => hI.mul (hdone s w₁ b w₂ hbody)
  · rintro x rfl
    exact Language.nil_mem_kstar _

end Program

end Chronos.Foundation
