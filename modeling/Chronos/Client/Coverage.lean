import Chronos.Client.Requests

/-! # Which users the client threads manage

Thread number `t` of `n` takes `numPortfolios` users in a row, where the threads before it have
stopped, and counts modulo the number of users. The blocks reach every user if and only if
together they are as long as the list of users.
-/
namespace Chronos.Client

/-! ## Consecutive blocks modulo a length -/

section Blocks

variable {n k U : ℕ}

/-- The last element is missed when the blocks do not wrap around. -/
theorem blocks_cover_iff (hU : 0 < U) (hk : 0 < k) :
    (∀ u < U, ∃ t < n, ∃ i < k, (i + k * t) % U = u) ↔ U ≤ k * n := by
  constructor
  · intro hcover
    by_contra hshort
    obtain ⟨t, ht, i, hi, heq⟩ := hcover (U - 1) (by omega)
    have hblock : i + k * t < k * n := by
      have hnext : k * (t + 1) ≤ k * n := Nat.mul_le_mul_left k ht
      rw [Nat.mul_succ] at hnext
      omega
    rw [Nat.mod_eq_of_lt (by omega)] at heq
    omega
  · intro hlong u hu
    have hdiv : u / k < n := Nat.div_lt_of_lt_mul (by omega)
    refine ⟨u / k, hdiv, u % k, Nat.mod_lt u hk, ?_⟩
    rw [Nat.mod_add_div, Nat.mod_eq_of_lt hu]

/-- A block that is no longer than the list meets no element twice. -/
theorem block_nodup (hk : k ≤ U) (a : ℕ) : ((List.range k).map fun i => (i + a) % U).Nodup := by
  rw [List.nodup_map_iff_inj_on List.nodup_range]
  intro i hi j hj heq
  have hlt := List.mem_range.mp hi
  have hlt' := List.mem_range.mp hj
  have hmod : i % U = j % U := Nat.ModEq.add_right_cancel' a heq
  rwa [Nat.mod_eq_of_lt (by omega), Nat.mod_eq_of_lt (by omega)] at hmod

end Blocks

/-! ## The threads of a client -/

/-- `infoP[i].thread_num`, as `spawnClientThreads` sets it. -/
def threadNum (i : ℕ) : ℤ := i + 1

/-- The users whose portfolios the thread with this number makes. -/
def managedUsers (threadNum numClientsThreads : ℤ) (cache : ChronosCache) (rand : ℕ → ℕ) : List ℤ :=
  (createPortfolios threadNum numClientsThreads cache rand).map (·.userId)

def numPortfolios (numClients : ℤ) (cache : ChronosCache) : ℤ :=
  max (min (cache.numUsers.tdiv numClients) 100) 10

/-- Every thread manages from 10 to 100 different users, and every user has a thread. -/
structure Covered (n : ℕ) (cache : ChronosCache) (rand : ℕ → ℕ → ℕ) : Prop where
  size : ∀ i < n, 10 ≤ (managedUsers (threadNum i) n cache (rand i)).length ∧
    (managedUsers (threadNum i) n cache (rand i)).length ≤ 100
  inRange : ∀ i < n, ∀ u ∈ managedUsers (threadNum i) n cache (rand i), 0 ≤ u ∧ u < cache.numUsers
  distinct : ∀ i < n, (managedUsers (threadNum i) n cache (rand i)).Nodup
  all : ∀ u, 0 ≤ u → u < cache.numUsers → ∃ i < n, u ∈ managedUsers (threadNum i) n cache (rand i)

variable {n : ℕ} {file : List Byte}

theorem chronosCacheAlloc_numUsers (file : List Byte) :
    (chronosCacheAlloc file).numUsers = 50 := rfl

def blockLength (n : ℕ) : ℕ := max (50 / n) 10

theorem numPortfolios_eq (file : List Byte) (n : ℕ) :
    numPortfolios n (chronosCacheAlloc file) = blockLength n := by
  have hquot : (50 : ℤ).tdiv n = ((50 / n : ℕ) : ℤ) := by
    rw [Int.tdiv_eq_ediv_of_nonneg (by norm_num)]
    norm_cast
  have hle : 50 / n ≤ 50 := Nat.div_le_self 50 n
  change max (min ((50 : ℤ).tdiv n) 100) 10 = ((max (50 / n) 10 : ℕ) : ℤ)
  rw [hquot]
  omega

theorem blockLength_bounds (n : ℕ) : 10 ≤ blockLength n ∧ blockLength n ≤ 50 := by
  have hle : 50 / n ≤ 50 := Nat.div_le_self 50 n
  unfold blockLength
  omega

theorem blocks_long_iff (hn : 1 ≤ n) : 50 ≤ blockLength n * n ↔ n ≠ 3 ∧ n ≠ 4 := by
  have hbounds := blockLength_bounds n
  by_cases hmany : 5 ≤ n
  · have hlong : 10 * 5 ≤ blockLength n * n := Nat.mul_le_mul hbounds.1 hmany
    exact ⟨fun _ => ⟨by omega, by omega⟩, fun _ => by omega⟩
  · have hfew : n = 1 ∨ n = 2 ∨ n = 3 ∨ n = 4 := by omega
    rcases hfew with rfl | rfl | rfl | rfl <;> decide

/-- The users of a thread, as the code computes them. -/
theorem managedUsers_int (i n : ℕ) (rand : ℕ → ℕ) :
    managedUsers (threadNum i) n (chronosCacheAlloc file) rand =
      (List.range (blockLength n)).map fun j :
      ℕ => (int32 (j + int32 (blockLength n * int32 i))).tmod 50 := by
  have hsize := numPortfolios_eq file n
  rw [numPortfolios, chronosCacheAlloc_numUsers] at hsize
  simp only [managedUsers, createPortfolios, List.map_map, chronosCacheAlloc_numUsers, hsize,
    Int.toNat_natCast, threadNum, add_sub_cancel_right, Function.comp_def]

theorem managedUsers_length (i n : ℕ) (rand : ℕ → ℕ) :
    (managedUsers (threadNum i) n (chronosCacheAlloc file) rand).length = blockLength n := by
  rw [managedUsers_int, List.length_map, List.length_range]

theorem managedUsers_eq {i : ℕ} (rand : ℕ → ℕ) (hi : i < n)
    (hindex : blockLength n * n ≤ 2147483648) :
    managedUsers (threadNum i) n (chronosCacheAlloc file) rand =
      ((List.range (blockLength n)).map fun j => (j + blockLength n * i) % 50).map
      (Nat.cast : ℕ → ℤ) := by
  have hbounds := blockLength_bounds n
  rw [managedUsers_int, List.map_map]
  refine List.map_congr_left fun j hj => ?_
  have hlt : j < blockLength n := List.mem_range.mp hj
  have hblock : blockLength n * i + blockLength n ≤ blockLength n * n := by
    rw [← Nat.mul_succ]
    exact Nat.mul_le_mul_left _ hi
  have hfactor : 1 * i ≤ blockLength n * i := Nat.mul_le_mul_right i (by omega)
  have hthread : int32 i = i := int32_eq_self (by norm_num) (by norm_num; omega)
  have hproduct : int32 (blockLength n * i) = (blockLength n * i : ℕ) := by
    rw [← Nat.cast_mul]
    exact int32_eq_self (by norm_num; omega) (by norm_num; omega)
  have hsum : int32 (j + (blockLength n * i : ℕ)) = (j + blockLength n * i : ℕ) := by
    rw [← Nat.cast_add]
    exact int32_eq_self (by norm_num; omega) (by norm_num; omega)
  rw [hthread, hproduct, hsum, Int.tmod_eq_emod_of_nonneg (Int.natCast_nonneg _)]
  exact (Int.natCast_mod _ _).symm

/-- The ninth index of the last thread may be the first that an `int` does not hold. -/
theorem user_negative (hn : blockLength n = 10) (hlast : n = 214748365) (rand : ℕ → ℕ) :
    (-48 : ℤ) ∈ managedUsers (threadNum (n - 1)) n (chronosCacheAlloc file) rand := by
  rw [managedUsers_int, hn, hlast]
  exact List.mem_map.mpr ⟨8, by simp, by decide⟩

/-! ## When every account is managed -/

theorem covered_iff_blocks (rand : ℕ → ℕ → ℕ) (hindex : blockLength n * n ≤ 2147483648) :
    Covered n (chronosCacheAlloc file) rand ↔ 50 ≤ blockLength n * n := by
  have hbounds := blockLength_bounds n
  rw [← blocks_cover_iff (by norm_num) (by omega : 0 < blockLength n)]
  constructor
  · intro hcovered u hu
    obtain ⟨i, hi, hmem⟩ :=
      hcovered.all u (by positivity) (by rw [chronosCacheAlloc_numUsers]; omega)
    rw [managedUsers_eq (rand i) hi hindex, List.mem_map] at hmem
    obtain ⟨v, hv, heq⟩ := hmem
    obtain ⟨j, hj, hjv⟩ := List.mem_map.mp hv
    exact ⟨i, hi, j, List.mem_range.mp hj, by omega⟩
  · intro hcover
    refine ⟨fun i _ => ?_, fun i hi u hu => ?_, fun i hi => ?_, fun u hlo hhi => ?_⟩
    · rw [managedUsers_length]
      omega
    · rw [managedUsers_eq (rand i) hi hindex, List.mem_map] at hu
      obtain ⟨v, hv, rfl⟩ := hu
      obtain ⟨j, _, rfl⟩ := List.mem_map.mp hv
      rw [chronosCacheAlloc_numUsers]
      omega
    · rw [managedUsers_eq (rand i) hi hindex]
      exact (block_nodup hbounds.2 _).map Nat.cast_injective
    · rw [chronosCacheAlloc_numUsers] at hhi
      obtain ⟨i, hi, j, hj, heq⟩ := hcover u.toNat (by omega)
      refine ⟨i, hi, ?_⟩
      rw [managedUsers_eq (rand i) hi hindex, List.mem_map]
      exact ⟨u.toNat, List.mem_map.mpr ⟨j, List.mem_range.mpr hj, heq⟩, by omega⟩

/-- Of three threads each manages 16 users, so that the last two of the 50 have none. -/
theorem three_threads_leave_users : ¬ Covered 3 (chronosCacheAlloc []) fun _ _ => 0 := by
  rw [covered_iff_blocks _ (by decide)]
  decide

/-- When the products do not overflow: all users are managed if and only if there are neither three
nor four threads, and the last index does not overflow either. -/
theorem covered_iff (n : ℕ) (file : List Byte) (rand : ℕ → ℕ → ℕ) (hn : 1 ≤ n)
    (hproducts : ∀ i < n, numPortfolios n (chronosCacheAlloc file) * (threadNum i - 1) <
      INT_BOUND) :
    Covered n (chronosCacheAlloc file) rand ↔
      n ≠ 3 ∧ n ≠ 4 ∧ numPortfolios n (chronosCacheAlloc file) * n ≤ INT_BOUND := by
  have hbounds := blockLength_bounds n
  have hlast := hproducts (n - 1) (by omega)
  rw [numPortfolios_eq, threadNum, add_sub_cancel_right] at hlast
  have hproduct : blockLength n * (n - 1) < 2147483648 := by
    norm_num at hlast
    exact_mod_cast hlast
  rw [numPortfolios_eq, ← and_assoc, ← blocks_long_iff hn]
  by_cases hindex : blockLength n * n ≤ 2147483648
  · have hindex' : (blockLength n * n : ℤ) ≤ INT_BOUND := by
      norm_num
      exact_mod_cast hindex
    rw [covered_iff_blocks rand hindex]
    exact ⟨fun h => ⟨h, hindex'⟩, And.left⟩
  · have hten : blockLength n = 10 := by
      by_contra hmore
      have hfew : ¬ 5 ≤ n := fun h =>
        hmore (max_eq_right ((Nat.div_le_div_left h (by norm_num)).trans (by norm_num)))
      have hle : blockLength n * n ≤ 50 * 5 := Nat.mul_le_mul hbounds.2 (by omega)
      omega
    rw [hten] at hproduct hindex ⊢
    constructor
    · intro hcovered
      have hrange := hcovered.inRange (n - 1) (by omega) (-48) (user_negative hten (by omega) _)
      omega
    · rintro ⟨-, h⟩
      norm_num at h
      exact absurd (by exact_mod_cast h) hindex

theorem covered_iff_five : Covered 5 (chronosCacheAlloc []) fun _ _ => 0 := by
  refine (covered_iff 5 [] (fun _ _ => 0) (by decide) fun i hi => ?_).mpr
    ⟨by decide, by decide, by decide⟩
  rw [numPortfolios_eq, threadNum, add_sub_cancel_right]
  have hlength : blockLength 5 = 10 := by decide
  norm_num [hlength]
  omega

end Chronos.Client
