import Chronos.Benchmark.Orders

/-! # The stocks file

`load_stocks_database` and the client's `stockListFromFile` read the same file, line by
line through a buffer of `MAXLINE` bytes, and scan each line into the first two members
of a `STOCK`. What is used of the record is the string that begins at `stock_symbol`.
-/
namespace Chronos.Client
open Benchmark

abbrev MAXLINE : ℕ := 1024
abbrev NAME_SZ : ℕ := 128
abbrev CHRONOS_CLIENT_NUM_STOCKS : ℕ := 300
abbrev CHRONOS_CLIENT_NUM_USERS : ℕ := 50

/-- The byte `#`, which ends a field of a line. -/
abbrev HASH : Byte := 35

/-- `fgets(buf, n + 1, ifp)`: the bytes that it stores and those left in the file. -/
def fgets : ℕ → List Byte → List Byte × List Byte
  | 0, file => ([], file)
  | _ + 1, [] => ([], [])
  | n + 1, b :: file =>
    if b = NEWLINE then ([b], file) else (b :: (fgets n file).1, (fgets n file).2)

/-- `while (fgets(buf, MAXLINE, ifp) != NULL)`: the contents of `buf` one after another. -/
def readLines : ℕ → List Byte → List (List Byte)
  | 0, _ => []
  | fuel + 1, file =>
    if file = [] then [] else (fgets (MAXLINE - 1) file).1 :: readLines fuel
      (fgets (MAXLINE - 1) file).2

/-- Every call takes a byte at least, so that as many calls as bytes are enough. -/
def fileLines (file : List Byte) : List (List Byte) := readLines file.length file

def cString (memory : List Byte) : CStr := memory.takeWhile (· ≠ 0)

/-- `%n[^#]`. -/
def scanField (n : ℕ) (input : List Byte) : List Byte := (input.takeWhile (· ≠ HASH)).take n

/-- What `%10[^#]` stores in `stock_symbol`. -/
def symbolField (buf : List Byte) : List Byte := scanField ID_SZ (cString buf)

/-- What `#%128[^#]` then stores in `full_name`; nothing if there is no `#` or no name. -/
def nameField (buf : List Byte) : List Byte :=
  match (cString buf).drop (symbolField buf).length with
  | [] => []
  | c :: rest => if c = HASH then scanField NAME_SZ rest else []

/-- A string and its NUL are stored at an offset, over the end of the member if need be. -/
def storeString (memory : List Byte) (offset : ℕ) (s : List Byte) : List Byte :=
  memory.take offset ++ s ++ 0 :: memory.drop (offset + s.length + 1)

def scanStock (buf : List Byte) : List Byte :=
  let myStocks := List.replicate (ID_SZ + NAME_SZ) 0
  if symbolField buf = [] then myStocks
  else if nameField buf = [] then storeString myStocks 0 (symbolField buf)
  else storeString (storeString myStocks 0 (symbolField buf)) ID_SZ (nameField buf)

def stockSymbol (buf : List Byte) : CStr := cString (scanStock buf)

def putStock (stocks : List CStr) (buf : List Byte) : Option (List CStr) :=
  if stockSymbol buf ∈ stocks then none else some (stocks ++ [stockSymbol buf])

/-- `load_stocks_database` on an empty table. -/
def loadStocksDatabase (file : List Byte) : Option (List CStr) :=
  (fileLines file).foldlM putStock []

/-- `stocksListP`: 300 slots, of which those past the end of the file stay NULL. -/
def stockListFromFile (file : List Byte) : List (Option CStr) :=
  let symbols := ((fileLines file).take CHRONOS_CLIENT_NUM_STOCKS).map stockSymbol
  symbols.map some ++ List.replicate (CHRONOS_CLIENT_NUM_STOCKS - symbols.length) none

structure ChronosCache where
  numStocks : ℤ
  stocksListP : List (Option CStr)
  numUsers : ℤ
  users : List CStr

def chronosCacheAlloc (file : List Byte) : ChronosCache where
  numStocks := CHRONOS_CLIENT_NUM_STOCKS
  stocksListP := stockListFromFile file
  numUsers := CHRONOS_CLIENT_NUM_USERS
  users := (List.range CHRONOS_CLIENT_NUM_USERS).map formatNat

inductive CacheArray
  | stocksListP
  | users
  deriving DecidableEq

def readSlot {α : Type} (array : CacheArray) (slots : List α) (i : ℕ) : Except CacheArray α :=
  match slots[i]? with
  | some slot => .ok slot
  | none => .error array

def chronosCacheSymbolGet (symbolNum : ℤ) (cache : ChronosCache) :
    Except CacheArray (Option CStr) :=
  if symbolNum < 0 ∨ symbolNum > cache.numStocks then .ok none
  else readSlot .stocksListP cache.stocksListP symbolNum.toNat

def chronosCacheUserGet (userNum : ℤ) (cache : ChronosCache) : Except CacheArray (Option CStr) :=
  if userNum < 0 ∨ userNum > cache.numUsers then .ok none
  else (readSlot .users cache.users userNum.toNat).map some

/-! ## Lines -/

theorem fgets_append (n : ℕ) (file : List Byte) : (fgets n file).1 ++ (fgets n file).2 = file := by
  induction n generalizing file with
  | zero => rfl
  | succ n ih =>
    cases file with
    | nil => rfl
    | cons b file =>
      rw [fgets]
      split_ifs
      · rfl
      · rw [List.cons_append, ih]

theorem fgets_ne_nil {n : ℕ} (hn : 0 < n) {file : List Byte} (hfile : file ≠ []) :
    (fgets n file).1 ≠ [] := by
  obtain ⟨n, rfl⟩ := Nat.exists_eq_succ_of_ne_zero hn.ne'
  cases file with
  | nil => exact absurd rfl hfile
  | cons b file =>
    rw [fgets]
    split_ifs <;> simp

theorem fileLines_flatten (file : List Byte) : (fileLines file).flatten = file := by
  suffices h : ∀ fuel file, file.length ≤ fuel →
    (readLines fuel file).flatten = file from h _ _ le_rfl
  intro fuel
  induction fuel with
  | zero =>
    intro file hle
    rw [List.length_eq_zero_iff.mp (Nat.le_zero.mp hle)]
    rfl
  | succ fuel ih =>
    intro file hle
    rw [readLines]
    split_ifs with hfile
    · rw [hfile]
      rfl
    · have happend := fgets_append (MAXLINE - 1) file
      have hpos := List.length_pos_of_ne_nil (fgets_ne_nil (n := MAXLINE - 1) (by norm_num) hfile)
      have hlength := congrArg List.length happend
      rw [List.length_append] at hlength
      rw [List.flatten_cons, ih _ (by omega), happend]

/-! ## The string of a symbol -/

theorem cString_append {s : List Byte} (h : ∀ b ∈ s, b ≠ 0) (rest : List Byte) :
    cString (s ++ 0 :: rest) = s := by
  unfold cString
  rw [List.takeWhile_append_of_pos (by simpa using h)]
  simp

theorem nonzero_cString {memory : List Byte} : ∀ b ∈ cString memory, b ≠ 0 := by
  intro b hb
  simpa using List.mem_takeWhile_imp hb

theorem nonzero_scanField {n : ℕ} {input : List Byte} (h : ∀ b ∈ input, b ≠ 0) :
    ∀ b ∈ scanField n input, b ≠ 0 :=
  fun b hb => h b ((List.takeWhile_subset _) (List.mem_of_mem_take hb))

theorem nonzero_symbolField (buf : List Byte) : ∀ b ∈ symbolField buf, b ≠ 0 :=
  nonzero_scanField nonzero_cString

theorem nonzero_nameField (buf : List Byte) : ∀ b ∈ nameField buf, b ≠ 0 := by
  unfold nameField
  split
  · simp
  · rename_i c rest hdrop
    split_ifs
    · have hstring : ∀ b ∈ cString buf, b ≠ 0 := nonzero_cString
      refine nonzero_scanField fun b hb => hstring b ?_
      exact List.mem_of_mem_drop (hdrop ▸ List.mem_cons_of_mem c hb)
    · simp

theorem length_symbolField_le (buf : List Byte) : (symbolField buf).length ≤ ID_SZ :=
  List.length_take_le _ _

/-- The symbol fills its member and the name runs on from it. -/
def Overruns (buf : List Byte) : Prop := (symbolField buf).length = ID_SZ ∧ nameField buf ≠ []

instance overrunsDecidable (buf : List Byte) : Decidable (Overruns buf) :=
  inferInstanceAs (Decidable (_ ∧ _))

theorem stockSymbol_of_overruns {buf : List Byte} (h : Overruns buf) :
    stockSymbol buf = symbolField buf ++ nameField buf := by
  have hne : symbolField buf ≠ [] := List.ne_nil_of_length_pos (by rw [h.1]; norm_num)
  have hnonzero : ∀ b ∈ symbolField buf ++ nameField buf, b ≠ 0 := by
    intro b hb
    rcases List.mem_append.mp hb with hb | hb
    · exact nonzero_symbolField buf b hb
    · exact nonzero_nameField buf b hb
  have htake : (storeString (List.replicate (ID_SZ + NAME_SZ) 0) 0 (symbolField buf)).take ID_SZ =
    symbolField buf := by
    rw [storeString, List.take_zero, List.nil_append, List.take_append_of_le_length h.1.ge,
      List.take_of_length_le h.1.le]
  unfold stockSymbol scanStock
  rw [if_neg hne, if_neg h.2, storeString, htake, cString_append hnonzero]

theorem stockSymbol_of_fits {buf : List Byte} (h : ¬ Overruns buf) :
    stockSymbol buf = symbolField buf := by
  unfold stockSymbol scanStock
  split_ifs with hsymbol hname
  · rw [hsymbol]
    rfl
  · rw [storeString, List.take_zero, List.nil_append, cString_append (nonzero_symbolField buf)]
  · have hlt : (symbolField buf).length < ID_SZ :=
      lt_of_le_of_ne (length_symbolField_le buf) fun hlen => h ⟨hlen, hname⟩
    have htake : ∃ rest,
      (storeString (List.replicate (ID_SZ + NAME_SZ) 0) 0 (symbolField buf)).take ID_SZ =
        symbolField buf ++ 0 :: rest := by
      obtain ⟨k, hk⟩ := Nat.exists_eq_add_of_lt hlt
      rw [storeString, List.take_zero, List.nil_append, hk, Nat.add_assoc,
        List.take_length_add_append, List.take_succ_cons]
      exact ⟨_, rfl⟩
    obtain ⟨rest, hrest⟩ := htake
    rw [storeString, hrest, List.append_assoc, List.append_assoc, List.cons_append,
      cString_append (nonzero_symbolField buf)]

theorem take_stockSymbol (buf : List Byte) : (stockSymbol buf).take ID_SZ = symbolField buf := by
  by_cases h : Overruns buf
  · rw [stockSymbol_of_overruns h, List.take_append_of_le_length h.1.ge,
      List.take_of_length_le h.1.le]
  · rw [stockSymbol_of_fits h, List.take_of_length_le (length_symbolField_le buf)]

/-! ## The table and the cache -/

theorem loadStocksDatabase_eq_some {file : List Byte} {stocks : List CStr} :
    loadStocksDatabase file = some stocks ↔
      stocks = (fileLines file).map stockSymbol ∧ ((fileLines file).map stockSymbol).Nodup := by
  suffices h : ∀ (lines : List (List Byte)) (table : List CStr), table.Nodup →
      (lines.foldlM putStock table = some stocks ↔
        stocks = table ++ lines.map stockSymbol ∧ (table ++ lines.map stockSymbol).Nodup) from
    h (fileLines file) [] List.nodup_nil
  intro lines
  induction lines with
  | nil =>
    intro table hnodup
    simp [hnodup, eq_comm]
  | cons buf lines ih =>
    intro table hnodup
    rw [List.foldlM_cons, List.map_cons, putStock]
    by_cases hmem : stockSymbol buf ∈ table
    · simp only [if_pos hmem]
      refine iff_of_false (by simp) ?_
      rintro ⟨-, hnodup'⟩
      exact (List.disjoint_of_nodup_append hnodup') hmem List.mem_cons_self
    · have hnext : (table ++ [stockSymbol buf]).Nodup := by
        rw [List.nodup_append_comm]
        exact List.nodup_cons.mpr ⟨hmem, hnodup⟩
      simp only [if_neg hmem]
      exact (ih _ hnext).trans (by rw [List.append_assoc, List.singleton_append])

theorem readSlot_ok {α : Type} {slots : List α} {i : ℕ} {slot : α} (array : CacheArray)
    (h : slots[i]? = some slot) : readSlot array slots i = .ok slot := by
  rw [readSlot, h]

theorem readSlot_error {α : Type} {slots : List α} {i : ℕ} (array : CacheArray)
    (h : slots.length ≤ i) : readSlot array slots i = .error array := by
  rw [readSlot, List.getElem?_eq_none h]

theorem stockListFromFile_length (file : List Byte) :
    (stockListFromFile file).length = CHRONOS_CLIENT_NUM_STOCKS := by
  simp only [stockListFromFile, List.length_append, List.length_map, List.length_take,
    List.length_replicate]
  omega

theorem stockListFromFile_slot (file : List Byte) {i : ℕ} (hi : i < CHRONOS_CLIENT_NUM_STOCKS) :
    (stockListFromFile file)[i]? = some ((fileLines file)[i]?.map stockSymbol) := by
  simp only [stockListFromFile]
  cases hline : (fileLines file)[i]? with
  | none =>
    have hlen := List.getElem?_eq_none_iff.mp hline
    rw [List.getElem?_append_right (by simp; omega), List.getElem?_replicate_of_lt (by simp; omega)]
    rfl
  | some buf =>
    obtain ⟨hlen, -⟩ := List.getElem?_eq_some_iff.mp hline
    rw [List.getElem?_append_left (by simp; omega)]
    simp [hi, hline]

theorem chronosCacheSymbolGet_alloc (file : List Byte) {i : ℕ}
    (hi : i < CHRONOS_CLIENT_NUM_STOCKS) :
    chronosCacheSymbolGet i (chronosCacheAlloc file) =
      .ok ((fileLines file)[i]?.map stockSymbol) := by
  have hslot : ¬ ((i : ℤ) < 0 ∨ (i : ℤ) > (chronosCacheAlloc file).numStocks) := by
    simp only [chronosCacheAlloc]
    omega
  rw [chronosCacheSymbolGet, if_neg hslot, Int.toNat_natCast]
  exact readSlot_ok .stocksListP (stockListFromFile_slot file hi)

end Chronos.Client
