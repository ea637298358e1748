import Chronos.Client.Requests

/-! # Lookups in the client's cache

An accessor of the cache should give an entry for the number of an entry, NULL for every
other number, and read nothing but its array. Both accessors let through one number too
many: the length of the array itself.
-/
namespace Chronos.Client
open Benchmark

/-- A lookup over an array that has these entries is right at a number. -/
structure LooksUp (lookup : ℤ → Except CacheArray (Option CStr)) (entries : List CStr)
    (i : ℤ) : Prop where
  inBounds : ∀ array, lookup i ≠ .error array
  null : i < 0 ∨ entries.length ≤ i → lookup i = .ok none
  entry : ∀ name, 0 ≤ i → entries[i.toNat]? = some name → lookup i = .ok (some name)

def parsedSymbols (file : List Byte) : List CStr :=
  ((fileLines file).take CHRONOS_CLIENT_NUM_STOCKS).map symbolField

def userNames : List CStr := (List.range CHRONOS_CLIENT_NUM_USERS).map formatNat

/-- Both lookups in the cache built from a file are right at a number. -/
structure LookupsRight (file : List Byte) (i : ℤ) : Prop where
  symbol : LooksUp (fun n => chronosCacheSymbolGet n (chronosCacheAlloc file))
    (parsedSymbols file) i
  user : LooksUp (fun n => chronosCacheUserGet n (chronosCacheAlloc file)) userNames i

/-! ## An accessor that tests for more than the size -/

section Accessor
variable {lookup : ℤ → Except CacheArray (Option CStr)} {entries : List CStr} {size : ℕ}
  {slot : ℕ → Option CStr} {array : CacheArray}

theorem looksUp_iff (hentries : entries.length ≤ size)
    (hrefused : ∀ i : ℤ, i < 0 ∨ size < i → lookup i = .ok none)
    (hsize : lookup size = .error array) (hslot : ∀ i : ℕ, i < size → lookup i = .ok (slot i))
    (i : ℤ) :
    LooksUp lookup entries i ↔ i ≠ size ∧
      (0 ≤ i → i < size → slot i.toNat = entries[i.toNat]?) := by
  constructor
  · intro h
    refine ⟨?_, ?_⟩
    · intro heq
      exact h.inBounds array (heq ▸ hsize)
    · intro hpos hlt
      obtain ⟨n, rfl⟩ := Int.eq_ofNat_of_zero_le hpos
      have hget := hslot n (by omega)
      rw [Int.toNat_natCast]
      cases hname : entries[n]? with
      | none =>
        have hlen := List.getElem?_eq_none_iff.mp hname
        exact Except.ok.inj (hget.symm.trans (h.null (Or.inr (by omega))))
      | some name =>
        exact Except.ok.inj (hget.symm.trans (h.entry name hpos (by rwa [Int.toNat_natCast])))
  · rintro ⟨hne, hright⟩
    by_cases houtside : i < 0 ∨ size < i
    · have hget := hrefused i houtside
      refine ⟨fun array' => by simp [hget], fun _ => hget, fun name hpos hname => ?_⟩
      obtain ⟨hlt, -⟩ := List.getElem?_eq_some_iff.mp hname
      omega
    · obtain ⟨n, rfl⟩ := Int.eq_ofNat_of_zero_le (by omega : 0 ≤ i)
      have hlt : n < size := by omega
      have hentry : slot n = entries[n]? := hright (by omega) (by omega)
      have hget : lookup n = .ok entries[n]? := by rw [hslot n hlt, hentry]
      refine ⟨fun array' => by simp [hget], fun hout => ?_, fun name _ hname => ?_⟩
      · rw [hget, List.getElem?_eq_none (by omega)]
      · rw [hget, ← hname, Int.toNat_natCast]

end Accessor

/-! ## The two accessors -/

variable {file : List Byte} {i : ℤ}

theorem chronosCacheSymbolGet_refused (h : i < 0 ∨ (CHRONOS_CLIENT_NUM_STOCKS : ℕ) < i) :
    chronosCacheSymbolGet i (chronosCacheAlloc file) = .ok none := if_pos h

theorem chronosCacheSymbolGet_size :
    chronosCacheSymbolGet CHRONOS_CLIENT_NUM_STOCKS (chronosCacheAlloc file) =
      .error .stocksListP :=
  readSlot_error .stocksListP (stockListFromFile_length file).le

theorem chronosCacheUserGet_refused (h : i < 0 ∨ (CHRONOS_CLIENT_NUM_USERS : ℕ) < i) :
    chronosCacheUserGet i (chronosCacheAlloc file) = .ok none := if_pos h

theorem chronosCacheUserGet_size :
    chronosCacheUserGet CHRONOS_CLIENT_NUM_USERS (chronosCacheAlloc file) = .error .users := rfl

theorem chronosCacheUserGet_alloc {n : ℕ} (hn : n < CHRONOS_CLIENT_NUM_USERS) :
    chronosCacheUserGet n (chronosCacheAlloc file) = .ok (some (formatNat n)) := by
  have hslot : ¬ ((n : ℤ) < 0 ∨ (n : ℤ) > (chronosCacheAlloc file).numUsers) := by
    simp only [chronosCacheAlloc]
    omega
  have hname : userNames[n]? = some (formatNat n) := by simp [userNames, hn]
  rw [chronosCacheUserGet, if_neg hslot, Int.toNat_natCast]
  exact congrArg (Except.map some) (readSlot_ok .users hname)

theorem parsedSymbols_length_le (file : List Byte) :
    (parsedSymbols file).length ≤ CHRONOS_CLIENT_NUM_STOCKS := by
  rw [parsedSymbols, List.length_map]
  exact List.length_take_le _ _

theorem parsedSymbols_get (file : List Byte) {n : ℕ} (hn : n < CHRONOS_CLIENT_NUM_STOCKS) :
    (parsedSymbols file)[n]? = (fileLines file)[n]?.map symbolField := by
  rw [parsedSymbols, List.getElem?_map, List.getElem?_take_of_lt hn]

/-- The slot of a line holds the symbol parsed from it unless the name runs into it. -/
theorem stockSymbol_eq_symbolField {buf : List Byte} :
    stockSymbol buf = symbolField buf ↔ ¬ Overruns buf := by
  constructor
  · intro h hover
    have hname := List.length_pos_of_ne_nil hover.2
    have hlength := congrArg List.length h
    rw [stockSymbol_of_overruns hover, List.length_append] at hlength
    omega
  · exact stockSymbol_of_fits

theorem symbol_looksUp_iff (file : List Byte) (i : ℤ) :
    LooksUp (fun n => chronosCacheSymbolGet n (chronosCacheAlloc file)) (parsedSymbols file) i ↔
      i ≠ CHRONOS_CLIENT_NUM_STOCKS ∧ (0 ≤ i → i < CHRONOS_CLIENT_NUM_STOCKS →
        ∀ line, (fileLines file)[i.toNat]? = some line → ¬ Overruns line) := by
  refine (looksUp_iff (parsedSymbols_length_le file) (fun _ => chronosCacheSymbolGet_refused)
    chronosCacheSymbolGet_size (fun _ => chronosCacheSymbolGet_alloc file) i).trans ?_
  refine and_congr_right fun _ => forall_congr' fun hpos => forall_congr' fun hlt => ?_
  rw [parsedSymbols_get file (by omega)]
  cases (fileLines file)[i.toNat]? with
  | none => simp
  | some line => simp [stockSymbol_eq_symbolField]

theorem user_looksUp_iff (file : List Byte) (i : ℤ) :
    LooksUp (fun n => chronosCacheUserGet n (chronosCacheAlloc file)) userNames i ↔
      i ≠ CHRONOS_CLIENT_NUM_USERS := by
  refine (looksUp_iff (by simp [userNames]) (fun _ => chronosCacheUserGet_refused)
    chronosCacheUserGet_size (fun _ => chronosCacheUserGet_alloc) i).trans (and_iff_left ?_)
  intro hpos hlt
  simp [userNames, show i.toNat < CHRONOS_CLIENT_NUM_USERS by omega]

/-- The lookups are right except at the two sizes and at lines whose name overruns the symbol. -/
theorem lookupsRight_iff (file : List Byte) (i : ℤ) :
    LookupsRight file i ↔ i ≠ CHRONOS_CLIENT_NUM_STOCKS ∧ i ≠ CHRONOS_CLIENT_NUM_USERS ∧
      (0 ≤ i → i < CHRONOS_CLIENT_NUM_STOCKS →
        ∀ line, (fileLines file)[i.toNat]? = some line → ¬ Overruns line) := by
  constructor
  · rintro ⟨hsymbol, huser⟩
    obtain ⟨hstocks, hfits⟩ := (symbol_looksUp_iff file i).mp hsymbol
    exact ⟨hstocks, (user_looksUp_iff file i).mp huser, hfits⟩
  · rintro ⟨hstocks, husers, hfits⟩
    exact ⟨(symbol_looksUp_iff file i).mpr ⟨hstocks, hfits⟩, (user_looksUp_iff file i).mpr husers⟩

/-- At its size each array is read past its end, whatever the file. -/
theorem lookups_past_the_end :
    chronosCacheSymbolGet 300 (chronosCacheAlloc []) = .error .stocksListP ∧
      chronosCacheUserGet 50 (chronosCacheAlloc []) = .error .users ∧
      ¬ LookupsRight [] 300 ∧ ¬ LookupsRight [] 50 :=
  ⟨chronosCacheSymbolGet_size, chronosCacheUserGet_size,
    fun h => h.symbol.inBounds .stocksListP chronosCacheSymbolGet_size,
    fun h => h.user.inBounds .users chronosCacheUserGet_size⟩

/-! ## The lookups that the client makes -/

/-- Numbers taken modulo the sizes, as in `createPortfolios`, stay in the arrays. -/
theorem createPortfolios_inBounds (x : ℤ) (r : ℕ) (array : CacheArray) :
    chronosCacheUserGet (x.tmod (chronosCacheAlloc file).numUsers) (chronosCacheAlloc file) ≠
      .error array ∧
      chronosCacheSymbolGet ((r : ℤ).tmod (chronosCacheAlloc file).numStocks)
        (chronosCacheAlloc file) ≠
        .error array := by
  constructor
  · have hlt : x.tmod CHRONOS_CLIENT_NUM_USERS < CHRONOS_CLIENT_NUM_USERS :=
      Int.tmod_lt_of_pos x (by norm_num)
    exact ((user_looksUp_iff file _).mpr hlt.ne).inBounds array
  · have hmod : (r : ℤ).tmod CHRONOS_CLIENT_NUM_STOCKS = (r % CHRONOS_CLIENT_NUM_STOCKS : ℕ) := rfl
    have hget :=
      chronosCacheSymbolGet_alloc file (Nat.mod_lt r (by norm_num : 0 < CHRONOS_CLIENT_NUM_STOCKS))
    rw [← hmod] at hget
    intro herror
    exact absurd (hget.symm.trans herror) nofun

end Chronos.Client
