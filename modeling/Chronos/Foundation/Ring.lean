import Mathlib

/-! # Circular arrays read as lists

A circular array of `n` cells, a start index and a length denote the list of
cells visited from the start, wrapping at the end. Appending at the first free
cell and dropping the first cell are the two operations of a ring buffer.
-/
namespace Chronos.Foundation
variable {α : Type*} {n : ℕ}

/-- The `len` cells of a circular array from `start` on. -/
def ringContents (cells : Vector α n) (hn : 0 < n) (start len : ℕ) : List α :=
  (List.range len).map (fun k => cells.get ⟨(start + k) % n, Nat.mod_lt _ hn⟩)

@[simp] theorem ringContents_zero (cells : Vector α n) (hn : 0 < n) (start : ℕ) :
    ringContents cells hn start 0 = [] := rfl

@[simp] theorem ringContents_length (cells : Vector α n) (hn : 0 < n) (start len : ℕ) :
    (ringContents cells hn start len).length = len := by
  simp [ringContents]

theorem ring_index_injective {start i j : ℕ} (hi : i < n) (hj : j < n)
    (h : (start + i) % n = (start + j) % n) : i = j := by
  have hmod : i % n = j % n := Nat.ModEq.add_left_cancel' start h
  rwa [Nat.mod_eq_of_lt hi, Nat.mod_eq_of_lt hj] at hmod

theorem ringContents_push (cells : Vector α n) (hn : 0 < n) (start len slot : ℕ) (x : α)
    (hlen : len < n) (hslot : slot < n) (heq : slot = (start + len) % n) :
    ringContents (cells.set slot x) hn start (len + 1) =
      ringContents cells hn start len ++ [x] := by
  subst heq
  have hold : ∀ k ∈ List.range len,
      (cells.set ((start + len) % n) x).get ⟨(start + k) % n, Nat.mod_lt _ hn⟩ =
        cells.get ⟨(start + k) % n, Nat.mod_lt _ hn⟩ := by
    intro k hk
    simp only [Vector.get_eq_getElem]
    have hkl : k < len := List.mem_range.mp hk
    apply Vector.getElem_set_ne
    intro h
    have := ring_index_injective hlen (hkl.trans hlen) h
    omega
  simp only [ringContents, List.range_succ, List.map_append, List.map_cons, List.map_nil]
  rw [List.map_congr_left hold]
  simp [Vector.get_eq_getElem]

theorem ringContents_pop (cells : Vector α n) (hn : 0 < n) (start len : ℕ) (hstart : start < n) :
    ringContents cells hn start (len + 1) =
      cells[start] :: ringContents cells hn ((start + 1) % n) len := by
  simp only [ringContents, List.range_succ_eq_map, List.map_cons, List.map_map, Nat.add_zero]
  congr 1
  · simp [Vector.get_eq_getElem, Nat.mod_eq_of_lt hstart]
  · apply List.map_congr_left
    intro k _
    have hidx : (start + (k + 1)) % n = ((start + 1) % n + k) % n := by
      rw [Nat.mod_add_mod]
      congr 1
      omega
    simp [Vector.get_eq_getElem, hidx]

end Chronos.Foundation
