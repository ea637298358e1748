import Mathlib

/-! # Structures laid out in memory

The members of a structure follow one another, each at the next multiple of the width of
its elements. Between them and at the end there may be padding, whatever it contains.
-/
namespace Chronos.Foundation
variable {ν β : Type*}

/-- The next multiple of `width`. -/
def alignUp (width pos : ℕ) : ℕ := (pos + width - 1) / width * width

theorem isLeast_alignUp {width : ℕ} (hwidth : 0 < width) (pos : ℕ) :
    IsLeast {n | pos ≤ n ∧ width ∣ n} (alignUp width pos) := by
  have hsplit := Nat.div_add_mod (pos + width - 1) width
  have hmod := Nat.mod_lt (pos + width - 1) hwidth
  rw [Nat.mul_comm] at hsplit
  refine ⟨⟨by rw [alignUp]; omega, Nat.dvd_mul_left _ _⟩, ?_⟩
  rintro n ⟨hle, k, rfl⟩
  have hquot : (pos + width - 1) / width ≤ k := by
    rw [← Nat.lt_add_one_iff, Nat.div_lt_iff_lt_mul hwidth, Nat.add_one_mul, Nat.mul_comm k]
    omega
  rw [alignUp, Nat.mul_comm width k]
  exact Nat.mul_le_mul_right _ hquot

/-- A member that is an array; a single value is an array of one. -/
structure Member (ν : Type*) where
  name : ν
  width : ℕ
  count : ℕ
  width_pos : 0 < width

namespace Member

def size (m : Member ν) : ℕ := m.count * m.width

theorem le_alignUp (m : Member ν) (pos : ℕ) : pos ≤ alignUp m.width pos :=
  (isLeast_alignUp m.width_pos pos).1.1

end Member

/-- The members from a position on, with their offsets. -/
def layout : ℕ → List (Member ν) → List (Member ν × ℕ)
  | _, [] => []
  | pos, m :: ms => (m, alignUp m.width pos) :: layout (alignUp m.width pos + m.size) ms

def layoutEnd : ℕ → List (Member ν) → ℕ
  | pos, [] => pos
  | pos, m :: ms => layoutEnd (alignUp m.width pos + m.size) ms

/-- A structure is aligned like the widest of its members. -/
def maxWidth (ms : List (Member ν)) : ℕ := (ms.map Member.width).foldr max 1

def structSize (ms : List (Member ν)) : ℕ := alignUp (maxWidth ms) (layoutEnd 0 ms)

section Bytes
variable (pad : ℕ → β) (contents : ν → List β)

def padding (width pos : ℕ) : List β := (List.range' pos (alignUp width pos - pos)).map pad

/-- The members from a position on, as they are stored. -/
def layoutBytes : ℕ → List (Member ν) → List β
  | _, [] => []
  | pos, m :: ms =>
    padding pad m.width pos ++ (contents m.name ++ layoutBytes (alignUp m.width pos + m.size) ms)

variable {pad contents} {ms : List (Member ν)} {m : Member ν} {pos offset : ℕ}

theorem padding_length (width pos : ℕ) :
    (padding pad width pos).length = alignUp width pos - pos := by
  rw [padding, List.length_map, List.length_range']

theorem le_layoutEnd (pos : ℕ) (ms : List (Member ν)) : pos ≤ layoutEnd pos ms := by
  induction ms generalizing pos with
  | nil => exact le_rfl
  | cons m ms ih =>
    have hle := m.le_alignUp pos
    have hrest := ih (alignUp m.width pos + m.size)
    rw [layoutEnd]
    omega

theorem layoutBytes_length (hsize : ∀ m ∈ ms, (contents m.name).length = m.size) :
    (layoutBytes pad contents pos ms).length = layoutEnd pos ms - pos := by
  induction ms generalizing pos with
  | nil => simp [layoutBytes, layoutEnd]
  | cons m ms ih =>
    have hle := m.le_alignUp pos
    have hrest := le_layoutEnd (alignUp m.width pos + m.size) ms
    rw [layoutBytes, List.length_append, List.length_append, padding_length,
      hsize m List.mem_cons_self, ih fun m' hm' => hsize m' (List.mem_cons_of_mem m hm'), layoutEnd]
    omega

theorem maxWidth_pos (ms : List (Member ν)) : 0 < maxWidth ms := by
  induction ms with
  | nil => exact Nat.one_pos
  | cons m ms ih => exact lt_of_lt_of_le ih (le_max_right _ _)

theorem le_of_mem_layout (h : (m, offset) ∈ layout pos ms) : pos ≤ offset := by
  induction ms generalizing pos with
  | nil => exact absurd h List.not_mem_nil
  | cons m' ms ih =>
    have hle := m'.le_alignUp pos
    rcases List.mem_cons.mp h with heq | h
    · obtain ⟨-, rfl⟩ := Prod.mk.inj heq
      exact hle
    · have hrest := ih h
      omega

/-- The bytes at the offset of a member begin with its contents. -/
theorem contents_isPrefix_layoutBytes (hsize : ∀ m ∈ ms, (contents m.name).length = m.size)
    (h : (m, offset) ∈ layout pos ms) :
    contents m.name <+: (layoutBytes pad contents pos ms).drop (offset - pos) := by
  induction ms generalizing pos with
  | nil => exact absurd h List.not_mem_nil
  | cons m' ms ih =>
    have hle := m'.le_alignUp pos
    have hpadding : (padding pad m'.width pos).length = alignUp m'.width pos - pos :=
      padding_length _ _
    rw [layoutBytes]
    rcases List.mem_cons.mp h with heq | h
    · obtain ⟨rfl, rfl⟩ := Prod.mk.inj heq
      rw [← hpadding, List.drop_left]
      exact List.prefix_append _ _
    · have hafter := le_of_mem_layout h
      have hlength := hsize m' List.mem_cons_self
      have hoffset : offset - pos = (padding pad m'.width pos ++ contents m'.name).length +
          (offset - (alignUp m'.width pos + m'.size)) := by
        rw [List.length_append, hpadding, hlength]
        omega
      rw [← List.append_assoc, hoffset, List.drop_length_add_append]
      exact ih (fun m hm => hsize m (List.mem_cons_of_mem m' hm)) h

end Bytes

/-- A structure with contents that fill its members. -/
structure Struct (ν β : Type*) where
  members : List (Member ν)
  contents : ν → List β
  sized : ∀ m ∈ members, (contents m.name).length = m.size

namespace Struct
variable {s : Struct ν β} {pad : ℕ → β} {pos : ℕ}

def bytes (s : Struct ν β) (pad : ℕ → β) : List β :=
  layoutBytes pad s.contents 0 s.members ++ padding pad (maxWidth s.members) (layoutEnd 0 s.members)

theorem bytes_length : (s.bytes pad).length = structSize s.members := by
  have hle := (isLeast_alignUp (maxWidth_pos s.members) (layoutEnd 0 s.members)).1.1
  rw [bytes, List.length_append, padding_length, layoutBytes_length s.sized, structSize]
  omega

def offset [DecidableEq ν] (s : Struct ν β) (name : ν) : Option ℕ :=
  ((layout 0 s.members).find? fun place => place.1.name = name).map Prod.snd

theorem contents_isPrefix [DecidableEq ν] {name : ν} (h : s.offset name = some pos) :
    s.contents name <+: (s.bytes pad).drop pos := by
  obtain ⟨⟨m, _⟩, hfind, rfl⟩ := Option.map_eq_some_iff.mp h
  obtain rfl : m.name = name := by simpa using List.find?_some hfind
  rw [bytes, List.drop_append]
  exact (contents_isPrefix_layoutBytes s.sized (List.mem_of_find?_eq_some hfind)).trans
    (List.prefix_append _ _)

end Struct

/-! ## What is read up to an end mark -/

section Marked
variable [DecidableEq β] {stop : β} {bytes rest s : List β}

def upTo (stop : β) : List β → Option (List β)
  | [] => none
  | b :: bytes => if b = stop then some [b] else (upTo stop bytes).map (b :: ·)

theorem upTo_of_mem (h : stop ∈ bytes) : ∃ s, upTo stop bytes = some s := by
  induction bytes with
  | nil => exact absurd h List.not_mem_nil
  | cons b bytes ih =>
    rw [upTo]
    split_ifs with hb
    · exact ⟨_, rfl⟩
    · obtain ⟨s, hs⟩ := ih ((List.mem_cons.mp h).resolve_left (Ne.symm hb))
      exact ⟨b :: s, by rw [hs]; rfl⟩

theorem mem_and_isPrefix_of_upTo (h : upTo stop bytes = some s) : stop ∈ s ∧ s <+: bytes := by
  induction bytes generalizing s with
  | nil => exact absurd h nofun
  | cons b bytes ih =>
    rw [upTo] at h
    split_ifs at h with hb
    · obtain rfl := Option.some.inj h
      exact ⟨hb ▸ List.mem_singleton_self b, bytes, rfl⟩
    · obtain ⟨s', hs', rfl⟩ := Option.map_eq_some_iff.mp h
      obtain ⟨hmem, hpre⟩ := ih hs'
      exact ⟨List.mem_cons_of_mem b hmem, (List.prefix_cons_inj b).mpr hpre⟩

theorem upTo_append (h : upTo stop bytes = some s) (rest : List β) :
    upTo stop (bytes ++ rest) = some s := by
  induction bytes generalizing s with
  | nil => exact absurd h nofun
  | cons b bytes ih =>
    rw [upTo] at h
    rw [List.cons_append, upTo]
    split_ifs at h with hb
    · rw [if_pos hb, h]
    · obtain ⟨s', hs', rfl⟩ := Option.map_eq_some_iff.mp h
      rw [if_neg hb, ih hs']
      rfl

theorem upTo_append_stop (h : stop ∉ bytes) (rest : List β) :
    upTo stop (bytes ++ stop :: rest) = some (bytes ++ [stop]) := by
  induction bytes with
  | nil => exact if_pos rfl
  | cons b bytes ih =>
    have hb : b ≠ stop := fun heq => h (heq ▸ List.mem_cons_self)
    rw [List.cons_append, upTo, if_neg hb, ih fun hmem => h (List.mem_cons_of_mem b hmem)]
    rfl

theorem upTo_self (h : upTo stop bytes = some s) : upTo stop s = some s := by
  induction bytes generalizing s with
  | nil => exact absurd h nofun
  | cons b bytes ih =>
    rw [upTo] at h
    split_ifs at h with hb
    · obtain rfl := Option.some.inj h
      rw [upTo, if_pos hb]
    · obtain ⟨s', hs', rfl⟩ := Option.map_eq_some_iff.mp h
      rw [upTo, if_neg hb, ih hs']
      rfl

/-- What is read from the start of `bytes` ends within them exactly if the mark is there. -/
theorem upTo_isPrefix_iff (rest : List β) :
    (∃ s, upTo stop (bytes ++ rest) = some s ∧ s <+: bytes) ↔ stop ∈ bytes := by
  constructor
  · rintro ⟨s, hs, hpre⟩
    exact hpre.subset (mem_and_isPrefix_of_upTo hs).1
  · intro h
    obtain ⟨s, hs⟩ := upTo_of_mem h
    exact ⟨s, upTo_append hs rest, (mem_and_isPrefix_of_upTo hs).2⟩

end Marked

end Chronos.Foundation
