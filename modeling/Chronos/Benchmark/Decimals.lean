import Chronos.Benchmark.Lookups

/-! # Numbers in decimal

What `printf` writes for a number, and the number that such a text stands for.
-/
namespace Chronos.Benchmark

def ascii (s : String) : List Byte := s.toList.map fun c => Fin.ofNat 256 c.toNat

/-- The bytes `.` and `]`. -/
abbrev POINT : Byte := 46
abbrev BRACKET : Byte := 93

def isDigit (b : Byte) : Bool := decide (48 ≤ b ∧ b ≤ 57)

def digitsValue (s : CStr) : ℕ := Nat.ofDigits 10 (s.map fun b => b.val - 48).reverse

/-- The last `places` digits of a number, zeros included. -/
def padNat : ℕ → ℕ → CStr
  | 0, _ => []
  | places + 1, n => padNat places (n / 10) ++ [Fin.ofNat 256 (48 + n % 10)]

/-- A number of units of the last place, as `%.kf` prints it with `k` places. -/
def formatFixed (places units : ℕ) : CStr :=
  formatNat (units / 10 ^ places) ++ POINT :: padNat places (units % 10 ^ places)

def decimalValue (s : CStr) : ℚ :=
  let whole := s.takeWhile isDigit
  match s.drop whole.length with
  | [] => digitsValue whole
  | b :: rest =>
    if b = POINT then digitsValue (whole ++ rest.takeWhile isDigit) / 10 ^
      (rest.takeWhile isDigit).length
    else digitsValue whole

/-! ## Whole numbers -/

theorem digitsValue_formatNat (n : ℕ) : digitsValue (formatNat n) = n := by
  unfold digitsValue formatNat
  split
  · rename_i h
    subst h
    rfl
  · rw [List.map_reverse, List.reverse_reverse, List.map_map]
    have hdigit : ∀ d ∈ Nat.digits 10 n,
      ((fun b : Byte => b.val - 48) ∘ fun d => (Fin.ofNat 256 (48 + d) : Byte)) d = d := by
      intro d hd
      have hlt : d < 10 := Nat.digits_lt_base (by decide) hd
      simp only [Function.comp_apply, Fin.val_ofNat]
      omega
    rw [List.map_congr_left hdigit, List.map_id'', Nat.ofDigits_digits]
    exact fun _ => rfl

theorem formatNat_injective : Function.Injective formatNat :=
  Function.LeftInverse.injective digitsValue_formatNat

theorem formatInt_natCast (n : ℕ) : formatInt n = formatNat n := by
  rw [formatInt, if_neg (by omega), Int.natAbs_natCast]

theorem length_formatNat_le {n : ℕ} (h : n < 10 ^ ID_SZ) : (formatNat n).length ≤ ID_SZ := by
  unfold formatNat
  split
  · decide
  · rw [List.length_reverse, List.length_map]
    exact (Nat.digits_length_le_iff (by decide) n).mpr h

theorem isDigit_ofNat {d : ℕ} (h : d < 10) : isDigit (Fin.ofNat 256 (48 + d)) = true := by
  interval_cases d <;> decide

theorem isDigit_formatNat (n : ℕ) : ∀ b ∈ formatNat n, isDigit b = true := by
  intro b hb
  unfold formatNat at hb
  split at hb
  · rw [List.mem_singleton.mp hb]
    decide
  · obtain ⟨d, hd, rfl⟩ := List.mem_map.mp (List.mem_reverse.mp hb)
    exact isDigit_ofNat (Nat.digits_lt_base (by decide) hd)

theorem formatNat_length_pos (n : ℕ) : 0 < (formatNat n).length := by
  unfold formatNat
  split
  · decide
  · rename_i hn
    rw [List.length_reverse, List.length_map]
    exact List.length_pos_of_ne_nil (Nat.digits_ne_nil_iff_ne_zero.mpr hn)

theorem decimalValue_digits {s : CStr} (h : ∀ b ∈ s, isDigit b = true) :
    decimalValue s = digitsValue s := by
  have htake : s.takeWhile isDigit = s := List.takeWhile_eq_self_iff.mpr h
  simp only [decimalValue, htake, List.drop_length]

theorem decimalValue_formatNat (n : ℕ) : decimalValue (formatNat n) = n := by
  rw [decimalValue_digits (isDigit_formatNat n), digitsValue_formatNat]

/-! ## Fixed-point numbers -/

theorem digitsValue_append (s t : CStr) :
    digitsValue (s ++ t) = digitsValue s * 10 ^ t.length + digitsValue t := by
  unfold digitsValue
  rw [List.map_append, List.reverse_append, Nat.ofDigits_append, List.length_reverse,
    List.length_map]
  ring

theorem padNat_length (places n : ℕ) : (padNat places n).length = places := by
  induction places generalizing n with
  | zero => rfl
  | succ places ih => rw [padNat, List.length_append, ih, List.length_singleton]

theorem isDigit_padNat (places n : ℕ) : ∀ b ∈ padNat places n, isDigit b = true := by
  induction places generalizing n with
  | zero => simp [padNat]
  | succ places ih =>
    intro b hb
    rw [padNat, List.mem_append, List.mem_singleton] at hb
    rcases hb with hb | rfl
    · exact ih _ b hb
    · exact isDigit_ofNat (Nat.mod_lt n (by decide))

theorem digitsValue_padNat {places n : ℕ} (h : n < 10 ^ places) :
    digitsValue (padNat places n) = n := by
  induction places generalizing n with
  | zero =>
    rw [pow_zero, Nat.lt_one_iff] at h
    rw [h]
    rfl
  | succ places ih =>
    have hlast : digitsValue [Fin.ofNat 256 (48 + n % 10)] = n % 10 := by
      have hlt : n % 10 < 10 := Nat.mod_lt n (by decide)
      simp only [digitsValue, List.map_cons, List.map_nil, List.reverse_singleton,
        Nat.ofDigits_singleton, Fin.val_ofNat]
      omega
    have hdiv : n / 10 < 10 ^ places := Nat.div_lt_of_lt_mul (by rwa [pow_succ'] at h)
    rw [padNat, digitsValue_append, ih hdiv, hlast, List.length_singleton, pow_one]
    omega

theorem decimalValue_formatFixed (places units : ℕ) :
    decimalValue (formatFixed places units) = units / 10 ^ places := by
  have hwhole : (formatFixed places units).takeWhile isDigit = formatNat (units / 10 ^ places) := by
    rw [formatFixed, List.takeWhile_append_of_pos (isDigit_formatNat _),
      List.takeWhile_cons_of_neg (by decide), List.append_nil]
  have hfraction : (padNat places (units % 10 ^ places)).takeWhile isDigit =
    padNat places (units % 10 ^ places) :=
    List.takeWhile_eq_self_iff.mpr (isDigit_padNat _ _)
  have hlt : units % 10 ^ places < 10 ^ places := Nat.mod_lt units (by positivity)
  simp only [decimalValue, hwhole]
  rw [formatFixed, List.drop_left]
  simp only [if_true, hfraction]
  rw [digitsValue_append, digitsValue_formatNat, digitsValue_padNat hlt, padNat_length,
    Nat.div_add_mod']

end Chronos.Benchmark
