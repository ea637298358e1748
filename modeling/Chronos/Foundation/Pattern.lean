import Mathlib.Data.List.Basic
import Mathlib.Data.List.Infix

/-! # Patterns and formats

A pattern is a list of tokens with capturing groups; a greedy token gives back what it took too
much, one character at a time. A format puts literal texts before values. A pattern with the same
literal texts finds the values again when each group stops where the next literal begins.
-/
namespace Chronos.Foundation
variable {α : Type*}

/-- A literal character, a greedy repetition, the bounds of a group, and the end of a line. -/
inductive Token (α : Type*) where
  | lit (c : α)
  | many (least : ℕ) (cls : α → Bool)
  | opening
  | closing
  | eol (newline : α)

namespace Token
variable [DecidableEq α]

/-- Matching from the start of a text; `cur` is what the open group has taken. The result are the
texts of the groups. -/
def run : List (Token α) → List α → List α → Option (List (List α))
  | [], _, _ => some []
  | .lit c :: ts, cur, s => match s with
    | [] => none
    | x :: s => if x = c then run ts (cur ++ [x]) s else none
  | .many least cls :: ts, cur, s =>
    (List.range ((s.takeWhile cls).length + 1)).reverse.findSome? fun k =>
      if least ≤ k then run ts (cur ++ s.take k) (s.drop k) else none
  | .opening :: ts, _, s => run ts [] s
  | .closing :: ts, cur, s => (run ts [] s).map (cur :: ·)
  | .eol newline :: ts, cur, s => if s = [] ∨ s = [newline] then run ts cur s else none

def search (ts : List (Token α)) : List α → Option (List (List α))
  | [] => run ts [] []
  | x :: s => (run ts [] (x :: s)).or (search ts s)

def lits (xs : List α) : List (Token α) := xs.map .lit

variable {ts post : List (Token α)} {cur s xs : List α} {c x : α} {cls : α → Bool}

theorem run_lits (ts : List (Token α)) (xs cur s : List α) :
    run (lits xs ++ ts) cur (xs ++ s) = run ts (cur ++ xs) s := by
  induction xs generalizing cur with
  | nil => simp [lits]
  | cons x xs ih =>
    have hnext := ih (cur ++ [x])
    rw [List.append_assoc, List.singleton_append] at hnext
    rw [← hnext]
    exact if_pos rfl

def Stops (cls : α → Bool) (ts : List (Token α)) : Prop :=
  ∀ cur x s, cls x = true → run ts cur (x :: s) = none

theorem stops_lit (h : cls c = false) : Stops cls (.lit c :: ts) := by
  intro cur x s hx
  refine if_neg ?_
  rintro rfl
  rw [h] at hx
  cases hx

theorem stops_closing (h : Stops cls ts) : Stops cls (.closing :: ts) := by
  intro cur x s hx
  rw [run, h [] x s hx]
  rfl

/-- What a greedy token gives back helps nothing where the rest cannot start with it. -/
theorem run_many {least : ℕ} {ds : List α} (hds : ∀ d ∈ ds, cls d = true)
    (hleast : least ≤ ds.length) (hx : cls x = false) (hstops : Stops cls ts) (cur s : List α) :
    run (.many least cls :: ts) cur (ds ++ x :: s) = run ts (cur ++ ds) (x :: s) := by
  have htake : (ds ++ x :: s).takeWhile cls = ds := by
    rw [List.takeWhile_append_of_pos hds, List.takeWhile_cons_of_neg (by rw [hx]; decide),
      List.append_nil]
  have hshorter : ((List.range ds.length).reverse.findSome? fun k =>
      if least ≤ k then run ts (cur ++ (ds ++ x :: s).take k) ((ds ++ x :: s).drop k) else none) =
        none := by
    rw [List.findSome?_eq_none_iff]
    intro k hk
    have hlt : k < ds.length := List.mem_range.mp (List.mem_reverse.mp hk)
    split
    · rw [List.drop_append_of_le_length hlt.le, List.drop_eq_getElem_cons hlt, List.cons_append]
      exact hstops _ _ _ (hds _ (List.getElem_mem hlt))
    · rfl
  rw [run, htake, List.range_succ, List.reverse_append, List.reverse_singleton,
    List.singleton_append, List.findSome?_cons, if_pos hleast, List.take_left, List.drop_left]
  cases hlongest : run ts (cur ++ ds) (x :: s) with
  | some groups => rfl
  | none => exact hshorter

theorem run_lit (h : run (.lit c :: ts) cur s ≠ none) :
    ∃ s', s = c :: s' ∧ run ts (cur ++ [c]) s' ≠ none := by
  cases s with
  | nil => exact absurd rfl h
  | cons x s =>
    rw [run] at h
    split at h
    · rename_i hxc
      exact ⟨s, by rw [hxc], hxc ▸ h⟩
    · exact absurd rfl h

/-- A literal text of a pattern is in every text that it matches. -/
theorem infix_of_run {pre : List (Token α)} (h : run (pre ++ (lits xs ++ post)) cur s ≠ none) :
    xs <:+: s := by
  induction pre generalizing cur s with
  | nil =>
    rw [List.nil_append] at h
    refine List.IsPrefix.isInfix ?_
    induction xs generalizing cur s with
    | nil => exact List.nil_prefix
    | cons x xs ih =>
      obtain ⟨s', rfl, hrest⟩ := run_lit h
      exact List.cons_prefix_cons.mpr ⟨rfl, ih hrest⟩
  | cons t pre ih =>
    rw [List.cons_append] at h
    cases t with
    | lit c =>
      obtain ⟨s', rfl, hrest⟩ := run_lit h
      exact (ih hrest).trans (List.suffix_cons c s').isInfix
    | many least cls =>
      obtain ⟨groups, hgroups⟩ := Option.ne_none_iff_exists'.mp h
      rw [run] at hgroups
      obtain ⟨k, -, hk⟩ := List.exists_of_findSome?_eq_some hgroups
      split at hk
      · exact (ih (by rw [hk]; exact Option.some_ne_none _)).trans (List.drop_suffix k s).isInfix
      · cases hk
    | opening => exact ih h
    | closing =>
      have hrest : run (pre ++ (lits xs ++ post)) [] s ≠ none := by
        intro hnone
        rw [run, hnone] at h
        exact h rfl
      exact ih hrest
    | eol newline =>
      rw [run] at h
      split at h
      · exact ih h
      · exact absurd rfl h

theorem search_append {pre : List α} {groups : List (List α)} (hpre : c ∉ pre)
    (h : run (.lit c :: ts) [] s = some groups) :
    search (.lit c :: ts) (pre ++ s) = some groups := by
  induction pre with
  | nil =>
    cases s with
    | nil => exact h
    | cons x s => rw [List.nil_append, search, h, Option.some_or]
  | cons y pre ih =>
    have hy : y ≠ c := fun heq => hpre (heq ▸ List.mem_cons_self)
    have hhere : run (.lit c :: ts) [] (y :: (pre ++ s)) = none := if_neg hy
    rw [List.cons_append, search, hhere, Option.none_or]
    exact ih fun hmem => hpre (List.mem_cons_of_mem y hmem)

/-! ## A pattern in step with a format -/

/-- Each group stands between a literal text and the character `x`. -/
def compile (x : α) (slots : List (List α × List (Token α))) : List (Token α) :=
  slots.flatMap fun slot => lits slot.1 ++ (.opening :: (slot.2 ++ [.closing, .lit x]))

/-- Each value is printed between a literal text and the character `x`. -/
def render (x : α) (slots : List (List α × List α)) : List α :=
  slots.flatMap fun slot => slot.1 ++ (slot.2 ++ [x])

/-- The group takes this value before `x`, neither more nor less. -/
def Reads (x : α) (group : List (Token α)) (value : List α) : Prop :=
  ∀ ts s, run (group ++ .closing :: .lit x :: ts) [] (value ++ x :: s) =
    (run (.lit x :: ts) [] (x :: s)).map (value :: ·)

/-- A pattern with the same literal texts as the format captures what was printed. -/
theorem run_compile {pattern : List (List α × List (Token α))} {printed : List (List α × List α)}
    (h : List.Forall₂ (fun p v => p.1 = v.1 ∧ Reads x p.2 v.2) pattern printed)
    (cur rest : List α) :
    run (compile x pattern) cur (render x printed ++ rest) = some (printed.map Prod.snd) := by
  induction h generalizing cur with
  | nil => rfl
  | @cons p v pattern printed hslot _ ih =>
    obtain ⟨hliteral, hreads⟩ := hslot
    have htokens : compile x (p :: pattern) =
        lits p.1 ++ .opening :: (p.2 ++ .closing :: .lit x :: compile x pattern) := by
      simp [compile]
    have htext : render x (v :: printed) ++ rest =
      v.1 ++ (v.2 ++ x :: (render x printed ++ rest)) := by
      simp [render]
    rw [htokens, htext, hliteral, run_lits, run, hreads, run, if_pos rfl, ih]
    rfl

end Token

end Chronos.Foundation
