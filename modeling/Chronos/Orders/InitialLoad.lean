import Chronos.Client.QuotesFile
import Chronos.Orders.Requests

/-! # The initial load

`benchmark_initial_load` fills new tables from four files, a transaction for each line, and
gives up at the first call that fails. What it leaves is what the exchange opens with.
-/
namespace Chronos.InitialLoad
open Foundation Storage Benchmark Program Client Orders
variable {F : Type}

inductive LoadTable where
  | personal
  | stocks
  | currencies
  | quotes
deriving DecidableEq

/-- What a loader puts into a table; of the records only the keys are kept. -/
structure Row where
  table : LoadTable
  key : CStr
deriving DecidableEq

structure Tables (F : Type) where
  db : Db F
  currencies : List CStr

def Tables.has (x : Tables F) (r : Row) : Prop :=
  match r.table with
  | .personal => r.key ∈ x.db.personal
  | .stocks => r.key ∈ x.db.stocks
  | .currencies => r.key ∈ x.currencies
  | .quotes => (x.db.quotes.committed r.key).isSome = true

instance (x : Tables F) : (r : Row) → Decidable (x.has r)
  | ⟨.personal, key⟩ => inferInstanceAs (Decidable (key ∈ x.db.personal))
  | ⟨.stocks, key⟩ => inferInstanceAs (Decidable (key ∈ x.db.stocks))
  | ⟨.currencies, key⟩ => inferInstanceAs (Decidable (key ∈ x.currencies))
  | ⟨.quotes, key⟩ => inferInstanceAs (Decidable ((x.db.quotes.committed key).isSome = true))

/-- A committed row; a currency that is there already is overwritten, and `price` is the price of
every quote. -/
def Tables.insert (price : F) (x : Tables F) (r : Row) : Tables F :=
  match r.table with
  | .personal => { x with db := { x.db with personal := x.db.personal ++ [r.key] } }
  | .stocks => { x with db := { x.db with stocks := x.db.stocks ++ [r.key] } }
  | .currencies =>
    { x with currencies := if r.key ∈ x.currencies then x.currencies else x.currencies ++ [r.key] }
  | .quotes => { x with db := { x.db with quotes := (x.db.quotes.write 0 r.key price).commit 0 } }

inductive LoadCall where
  | fopen (table : LoadTable)
  | txnBegin
  | put (t : Txn) (r : Row)
  | commit (t : Txn)
  | abort (t : Txn)

def LoadAnswer : LoadCall → Type
  | .fopen _ => Except DbError (List Byte)
  | .txnBegin => Except DbError Txn
  | .put _ _ => Except DbError Unit
  | .commit _ => Except DbError Unit
  | .abort _ => Except DbError Unit

abbrev LoadProgram (α : Type) := Program LoadCall LoadAnswer α

/-- `written` are the rows of transactions that have not ended, `opened` these transactions. -/
structure Loading (F : Type) where
  tables : Tables F
  written : List (Txn × Row)
  opened : List Txn
  calls : ℕ

def Loading.end (s : Loading F) (t : Txn) (tables : Tables F) : Loading F :=
  ⟨tables, s.written.filter fun w => w.1 ≠ t, s.opened.filter fun u => u ≠ t, s.calls + 1⟩

/-- The row is there, committed or written by the transaction itself. -/
def Loading.has (s : Loading F) (t : Txn) (r : Row) : Prop := s.tables.has r ∨ (t, r) ∈ s.written

instance (s : Loading F) (t : Txn) (r : Row) : Decidable (s.has t r) :=
  inferInstanceAs (Decidable (_ ∨ _))

/-- The answer to a call that may be made to fail; a transaction that fails to commit is aborted. -/
def Loading.answer (files : LoadTable → List Byte) (price : F) (faults : Faults) :
    (c : LoadCall) → Loading F → Option (LoadAnswer c × Loading F)
  | .fopen table, s => some (match faults s.calls with
    | some e => .error e
    | none => .ok (files table), { s with calls := s.calls + 1 })
  | .txnBegin, s => match faults s.calls with
    | some e => some (.error e, { s with calls := s.calls + 1 })
    | none => some (.ok s.calls, { s with opened := s.calls :: s.opened, calls := s.calls + 1 })
  | .put t r, s => match faults s.calls with
    | some e => some (.error e, { s with calls := s.calls + 1 })
    | none =>
      -- another transaction holds the write lock
      if s.written.any fun w => w.1 ≠ t && w.2 = r then none
      -- `DB_NOOVERWRITE` but for the currencies
      else if r.table ≠ .currencies ∧ s.has t r then
        some (.error .keyExist, { s with calls := s.calls + 1 })
      else some (.ok (), { s with written := s.written ++ [(t, r)], calls := s.calls + 1 })
  | .commit t, s => match faults s.calls with
    | some e => some (.error e, s.end t s.tables)
    | none =>
      some (.ok (), s.end t (((s.written.filter fun w => w.1 = t).map Prod.snd).foldl
        (Tables.insert price) s.tables))
  | .abort t, s => some (match faults s.calls with
    | some e => .error e
    | none => .ok (), s.end t s.tables)

/-! ## The loaders -/

/-- `"%10[^#]#%128[^#]#%128[^#]#%128[^#]#%128[^#]#%128[^#]#%128[^#]#%16[^\n]"`. -/
def personalFormat : List Conversion :=
  [.set 10 HASH, .literal HASH, .set 128 HASH, .literal HASH, .set 128 HASH, .literal HASH,
    .set 128 HASH, .literal HASH,
    .set 128 HASH, .literal HASH, .set 128 HASH, .literal HASH, .set 128 HASH, .literal HASH,
      .set 16 NEWLINE]

/-- `sizeof(PERSONAL)`. -/
abbrev PERSONAL_SZ : ℕ := 1122

/-- `"%10[^#]#%128[^#]#%500[^\n]"`. -/
def stockFormat : List Conversion :=
  [.set 10 HASH, .literal HASH, .set 128 HASH, .literal HASH, .set 500 NEWLINE]

/-- `"%200[^#]#%200[^#]#%10[^\n]"`. -/
def currencyFormat : List Conversion :=
  [.set 200 HASH, .literal HASH, .set 200 HASH, .literal HASH, .set 10 NEWLINE]

/-- `sizeof(CURRENCY)`. -/
abbrev CURRENCY_SZ : ℕ := 344

/-- Where a conversion stores its string: in the struct, or in a buffer of its own. -/
inductive Place where
  | member (offset : ℕ)
  | buffer (size : ℕ)

/-- The struct after a string and its NUL are stored, over the end of the member if need be; nothing
if they run over the end of the struct or of the buffer. -/
def Place.store (place : Place) (memory s : List Byte) : Option (List Byte) :=
  match place with
  | .member offset =>
    if offset + s.length < memory.length then some (storeString memory offset s) else none
  | .buffer size => if s.length < size then some memory else none

/-- `account_id`, `last_name`, `first_name`, `address`, `city`, `state`, `country` and `phone` in
`PERSONAL`. -/
def personalPlaces : List Place :=
  [.member 0, .member 10, .member 138, .member 266, .member 522, .member 650, .member 778,
    .member 906]

/-- `stock_symbol` and `full_name` in `STOCK`, and `ignore_buf`. -/
def stockPlaces : List Place := [.member 0, .member ID_SZ, .buffer 500]

/-- `country`, `currency_name` and `currency_symbol` in `CURRENCY`. -/
def currencyPlaces : List Place := [.member 10, .member 210, .member 0]

/-- The zeroed struct, with the strings of the line stored one after another. -/
def scanStruct (size : ℕ) (format : List Conversion) (places : List Place) (buf : List Byte) :
    Option (List Byte) :=
  (places.zip (sscanf format (cString buf))).foldlM
    (fun memory s => s.1.store memory (Field.string (some s.2)))
    (List.replicate size 0)

/-- The key that a line gives its row: the string at the start of the struct; a `QUOTE` has room for
its strings. -/
def keyOf : LoadTable → List Byte → Option CStr
  | .personal => fun buf => (scanStruct PERSONAL_SZ personalFormat personalPlaces buf).map cString
  | .stocks => fun buf => (scanStruct (ID_SZ + NAME_SZ) stockFormat stockPlaces buf).map cString
  | .currencies => fun buf => (scanStruct CURRENCY_SZ currencyFormat currencyPlaces buf).map cString
  | .quotes => fun buf => some (scanQuote buf).symbol

/-- A round of the loop over the lines: one transaction. -/
def insertRow (r : Row) : LoadProgram Rc :=
  .call .txnBegin fun
    | .error _ => return BENCHMARK_FAIL
    | .ok txnP => .call (.put txnP r) fun
      | .error _ => .call (.abort txnP) fun _ => return BENCHMARK_FAIL
      | .ok _ => .call (.commit txnP) fun
        | .error _ => return BENCHMARK_FAIL
        | .ok _ => return BENCHMARK_SUCCESS

/-- A line that runs over its struct or its buffer crashes the loader. -/
def insertRows : List (Option Row) → LoadProgram Rc
  | [] => return BENCHMARK_SUCCESS
  | none :: _ => .crash
  | some r :: rows => do
    if (← insertRow r) ≠ BENCHMARK_SUCCESS then return BENCHMARK_FAIL
    insertRows rows

def rowsOf (table : LoadTable) (file : List Byte) : List (Option Row) :=
  (fileLines file).map fun buf => (keyOf table buf).map (Row.mk table)

/-- `load_personal_database`, `load_stocks_database`, `load_currencies_database` and
`load_quotes_database`. -/
def loadDatabase (table : LoadTable) : LoadProgram Rc :=
  .call (.fopen table) fun
    | .error _ => return BENCHMARK_FAIL
    | .ok file => insertRows (rowsOf table file)

def loadPersonalDatabase : LoadProgram Rc := loadDatabase .personal
def loadStocksDatabase : LoadProgram Rc := loadDatabase .stocks
def loadCurrenciesDatabase : LoadProgram Rc := loadDatabase .currencies
def loadQuotesDatabase : LoadProgram Rc := loadDatabase .quotes

/-- `benchmark_initial_load` between the opening and the closing of the databases. -/
def benchmarkInitialLoad : LoadProgram Rc := do
  if (← loadPersonalDatabase) ≠ BENCHMARK_SUCCESS then return BENCHMARK_FAIL
  if (← loadStocksDatabase) ≠ BENCHMARK_SUCCESS then return BENCHMARK_FAIL
  if (← loadCurrenciesDatabase) ≠ BENCHMARK_SUCCESS then return BENCHMARK_FAIL
  if (← loadQuotesDatabase) ≠ BENCHMARK_SUCCESS then return BENCHMARK_FAIL
  return BENCHMARK_SUCCESS

/-- `benchmark_handle_alloc` has created the databases, and they are empty. -/
def Loading.opening (rand : ℕ → ℕ) : Loading F :=
  ⟨⟨Db.fresh [] [] LockTable.empty rand, []⟩, [], [], 0⟩

/-! ## What has been loaded -/

def allRows (files : LoadTable → List Byte) : List (Option Row) :=
  rowsOf .personal (files .personal) ++ (rowsOf .stocks (files .stocks) ++
    (rowsOf .currencies (files .currencies) ++ rowsOf .quotes (files .quotes)))

def keysIn (table : LoadTable) (rows : List Row) : List CStr :=
  (rows.filter fun r => r.table = table).map Row.key

def Distinct (rows : List Row) : Prop := rows.Pairwise fun r r' => r = r' → r.table = .currencies

instance (rows : List Row) : Decidable (Distinct rows) :=
  inferInstanceAs (Decidable (List.Pairwise _ _))

/-- The rows are committed, nothing else is, and no transaction is open. -/
structure Loading.Holds (s : Loading F) (price : F) (rand : ℕ → ℕ) (rows : List Row) : Prop where
  written : s.written = []
  opened : s.opened = []
  db : s.tables.db = Db.fresh (keysIn .personal rows) (keysIn .stocks rows) s.tables.db.quotes rand
  settled : ∀ key, (s.tables.db.quotes.cell key).pending = none
  quotes : ∀ key, s.tables.db.quotes.committed key = if key ∈ keysIn .quotes rows then some price
    else none
  currencies : ∀ key, key ∈ s.tables.currencies ↔ key ∈ keysIn .currencies rows
  once : s.tables.currencies.Nodup
  distinct : Distinct rows

variable {files : LoadTable → List Byte} {price : F} {faults : Faults} {rand : ℕ → ℕ}
  {rows : List Row} {r : Row} {s : Loading F}

theorem mem_keysIn {table : LoadTable} {key : CStr} :
    key ∈ keysIn table rows ↔ ⟨table, key⟩ ∈ rows := by
  simp only [keysIn, List.mem_map, List.mem_filter, decide_eq_true_eq]
  constructor
  · rintro ⟨r, ⟨hr, rfl⟩, rfl⟩
    exact hr
  · exact fun h => ⟨_, ⟨h, rfl⟩, rfl⟩

theorem keysIn_snoc (table : LoadTable) :
    keysIn table (rows ++ [r]) = keysIn table rows ++ if r.table = table then [r.key] else [] := by
  by_cases h : r.table = table <;> simp [keysIn, List.filter_append, h]

theorem distinct_snoc : Distinct (rows ++ [r]) ↔ Distinct rows ∧
    (r ∈ rows → r.table = .currencies) := by
  simp only [Distinct, List.pairwise_append, List.pairwise_singleton, List.mem_singleton, forall_eq,
    true_and]
  refine and_congr_right fun _ => ⟨fun h hr => h r hr rfl, fun h r' hr' he => ?_⟩
  subst he
  exact h hr'

theorem Loading.Holds.has (h : s.Holds price rand rows) : s.tables.has r ↔ r ∈ rows := by
  obtain ⟨table, key⟩ := r
  cases table
  · rw [Tables.has, h.db]
    exact mem_keysIn
  · rw [Tables.has, h.db]
    exact mem_keysIn
  · exact (h.currencies key).trans mem_keysIn
  · rw [Tables.has, h.quotes]
    simp only [mem_keysIn]
    split <;> simp_all

theorem holds_opening : (Loading.opening rand : Loading F).Holds price rand [] where
  written := rfl
  opened := rfl
  db := rfl
  settled _ := rfl
  quotes _ := rfl
  currencies _ := Iff.rfl
  once := List.nodup_nil
  distinct := List.Pairwise.nil

theorem Loading.Holds.insert (h : s.Holds price rand rows) (hr : r ∈ rows → r.table = .currencies)
    (calls : ℕ) :
    (⟨s.tables.insert price r, [], [], calls⟩ : Loading F).Holds price rand (rows ++ [r]) where
  written := rfl
  opened := rfl
  db := by
    have hdb := h.db
    obtain ⟨table, key⟩ := r
    cases table <;> simp only [Tables.insert, keysIn_snoc, Db.fresh, reduceCtorEq, if_true,
      if_false, List.append_nil] at hdb ⊢
    · rw [hdb]
    · rw [hdb]
    · exact hdb
    · rw [hdb]
  settled := by
    obtain ⟨table, key⟩ := r
    cases table
    · exact h.settled
    · exact h.settled
    · exact h.settled
    · exact LockTable.settled_commit_write h.settled
  quotes key' := by
    obtain ⟨table, key⟩ := r
    have hkey := h.quotes key'
    cases table <;> simp only [Tables.insert, keysIn_snoc, reduceCtorEq, if_true, if_false,
      List.append_nil]
    · exact hkey
    · exact hkey
    · exact hkey
    · rw [LockTable.committed_commit_write h.settled]
      by_cases hk : key' = key
      · simp [hk]
      · simpa [hk] using hkey
  currencies key' := by
    obtain ⟨table, key⟩ := r
    have hkey := h.currencies key'
    cases table <;> simp only [Tables.insert, keysIn_snoc, reduceCtorEq, if_true, if_false,
      List.append_nil]
    · exact hkey
    · exact hkey
    · split
      · rename_i hmem
        rw [List.mem_append, ← hkey, List.mem_singleton]
        exact ⟨.inl, fun hor => hor.elim id fun he => he ▸ hmem⟩
      · rw [List.mem_append, List.mem_append, hkey]
    · exact hkey
  once := by
    obtain ⟨table, key⟩ := r
    cases table
    · exact h.once
    · exact h.once
    · simp only [Tables.insert]
      split
      · exact h.once
      · rename_i hmem
        exact List.nodup_append.mpr ⟨h.once, List.nodup_singleton key, fun a ha b hb => by
          rw [List.mem_singleton.mp hb]
          exact fun he => hmem (he ▸ ha)⟩
    · exact h.once
  distinct := distinct_snoc.mpr ⟨h.distinct, hr⟩

theorem Loading.Holds.later (h : s.Holds price rand rows) (calls : ℕ) :
    ({ s with calls := calls } : Loading F).Holds price rand rows :=
  ⟨h.written, h.opened, h.db, h.settled, h.quotes, h.currencies, h.once, h.distinct⟩

/-! ## Runs of the loaders -/

/-- From `before` the loader adds a part of its rows, all of them if it succeeds. If it fails a call
did, or the next row was there, and if it crashes the next line overruns its struct. -/
def Adds (price : F) (faults : Faults) (rand : ℕ → ℕ) (before : List Row) (rows : List (Option Row))
    (o : Outcome Rc) (s : Loading F) : Prop :=
  ∃ done rest, rows = done.map some ++ rest ∧ s.Holds price rand (before ++ done) ∧
    (o = .value BENCHMARK_SUCCESS ∧ rest = [] ∨
      o = .value BENCHMARK_FAIL ∧
        ((∃ n < s.calls, faults n ≠ none) ∨
          ∃ r rest', rest = some r :: rest' ∧ ¬ Distinct (before ++ done ++ [r])) ∨
      o = .crashed ∧ ∃ rest', rest = none :: rest')

def Loads (files : LoadTable → List Byte) (price : F) (faults : Faults) (rand : ℕ → ℕ)
    (p : LoadProgram Rc) (rows : List (Option Row)) : Prop :=
  ∀ before (s : Loading F), s.Holds price rand before →
    wp (Loading.answer files price faults) p s (Adds price faults rand before rows)

theorem adds_failed (h : s.Holds price rand rows) {e : DbError} {n : ℕ} (hfault : faults n = some e)
    (hn : n < s.calls) (rows' : List (Option Row)) :
    Adds price faults rand rows rows' (.value BENCHMARK_FAIL) s :=
  ⟨[], rows', rfl, by rwa [List.append_nil], .inr (.inl ⟨rfl, .inl ⟨n, hn, by simp [hfault]⟩⟩)⟩

theorem Loading.Holds.end (h : s.Holds price rand rows) (t : Txn) (s' : Loading F)
    (hwritten : ∀ w ∈ s'.written, w.1 = t) (hopened : ∀ u ∈ s'.opened, u = t) :
    (s'.end t s.tables).Holds price rand rows where
  written := List.filter_eq_nil_iff.mpr fun w hw => by simp [hwritten w hw]
  opened := List.filter_eq_nil_iff.mpr fun u hu => by simp [hopened u hu]
  db := h.db
  settled := h.settled
  quotes := h.quotes
  currencies := h.currencies
  once := h.once
  distinct := h.distinct

theorem loads_insertRow : Loads files price faults rand (insertRow r) [some r] := by
  intro before s h
  obtain ⟨tables, written, opened, calls⟩ := s
  obtain rfl : written = [] := h.written
  obtain rfl : opened = [] := h.opened
  unfold insertRow
  cases hbegin : faults calls with
  | some e =>
    refine wp_call.mpr ⟨_, _, by simp only [Loading.answer, hbegin]; rfl, ?_⟩
    exact wp_pure.mpr (adds_failed (h.later _) hbegin (Nat.lt_succ_self _) _)
  | none =>
    refine wp_call.mpr ⟨_, _, by simp only [Loading.answer, hbegin]; rfl, ?_⟩
    cases hput : faults (calls + 1) with
    | some e =>
      refine wp_call.mpr ⟨_, _, by simp only [Loading.answer, hput]; rfl, ?_⟩
      refine wp_call.mpr ⟨_, _, rfl, wp_pure.mpr ?_⟩
      exact adds_failed (h.end calls _ (by simp) (by simp)) hput (by simp [Loading.end]) _
    | none =>
      by_cases hthere : r.table ≠ .currencies ∧ r ∈ before
      · have hhas : (⟨tables, [], [calls], calls + 1⟩ : Loading F).has calls r :=
          .inl (h.has.mpr hthere.2)
        refine wp_call.mpr ⟨_, _, by simp [Loading.answer, hput, hthere.1, hhas]; rfl, ?_⟩
        refine wp_call.mpr ⟨_, _, rfl, wp_pure.mpr ?_⟩
        have hend := h.end calls ⟨tables, [], [calls], calls + 1 + 1⟩ (by simp) (by simp)
        refine ⟨[], [some r], rfl,
          by rwa [List.append_nil], .inr (.inl ⟨rfl, .inr ⟨r, [], rfl, ?_⟩⟩)⟩
        rw [List.append_nil, distinct_snoc]
        exact fun hd => hthere.1 (hd.2 hthere.2)
      · have hhas : ¬ (r.table ≠ .currencies ∧
          (⟨tables, [], [calls], calls + 1⟩ : Loading F).has calls r) := by
          rintro ⟨hr, hhas | hmem⟩
          · exact hthere ⟨hr, h.has.mp hhas⟩
          · cases hmem
        refine wp_call.mpr ⟨_, _, by simp only [Loading.answer, hput, if_neg hhas]; rfl, ?_⟩
        cases hcommit : faults (calls + 2) with
        | some e =>
          refine wp_call.mpr ⟨_, _, by simp only [Loading.answer, hcommit]; rfl, wp_pure.mpr ?_⟩
          exact adds_failed (h.end calls _ (by simp) (by simp)) hcommit (by simp [Loading.end]) _
        | none =>
          refine wp_call.mpr ⟨_, _, by simp only [Loading.answer, hcommit]; rfl, wp_pure.mpr ?_⟩
          have hadded := h.insert (r := r) (fun hr => by_contra fun hn => hthere ⟨hn, hr⟩)
            (calls + 3)
          refine ⟨[r], [], rfl, ?_, .inl ⟨rfl, rfl⟩⟩
          simpa [Loading.end] using hadded

theorem loads_nil : Loads files price faults rand (return BENCHMARK_SUCCESS) [] := fun before s h =>
  wp_pure.mpr ⟨[], [], rfl, by rwa [List.append_nil], .inl ⟨rfl, rfl⟩⟩

theorem loads_crash (rows : List (Option Row)) :
    Loads files price faults rand .crash (none :: rows) := fun before s h =>
  wp_crash.mpr ⟨[], _, rfl, by rwa [List.append_nil], .inr (.inr ⟨rfl, rows, rfl⟩)⟩

theorem Loads.and_then {p q : LoadProgram Rc} {rows rows' : List (Option Row)}
    (hp : Loads files price faults rand p rows) (hq : Loads files price faults rand q rows') :
    Loads files price faults rand (do
      if (← p) ≠ BENCHMARK_SUCCESS then return BENCHMARK_FAIL
      q) (rows ++ rows') := by
  intro before s h
  refine wp_bind'.mpr (wp_mono (hp before s h) ?_)
  rintro o s' ⟨done, rest, rfl, hs', ⟨rfl, rfl⟩ | ⟨rfl, hfail⟩ | ⟨rfl, rest', rfl⟩⟩
  · refine wp_mono (hq _ s' hs') ?_
    rintro o s'' ⟨done', rest', rfl, hs'', hend⟩
    rw [List.append_assoc] at hs''
    refine ⟨done ++ done', rest',
      by simp, hs'', hend.imp_right (Or.imp_left fun hfail => ⟨hfail.1, ?_⟩)⟩
    simpa only [List.append_assoc] using hfail.2
  · refine wp_pure.mpr ⟨done, rest ++ rows', List.append_assoc .., hs',
      .inr (.inl ⟨rfl, hfail.imp_right ?_⟩)⟩
    rintro ⟨r, rest', rfl, hr⟩
    exact ⟨r, rest' ++ rows', rfl, hr⟩
  · exact ⟨done, none :: rest' ++ rows', List.append_assoc .., hs',
      .inr (.inr ⟨rfl, rest' ++ rows', rfl⟩)⟩

theorem loads_insertRows (rows : List (Option Row)) :
    Loads files price faults rand (insertRows rows) rows := by
  induction rows with
  | nil => exact loads_nil
  | cons row rows ih =>
    cases row with
    | none => exact loads_crash rows
    | some r => exact loads_insertRow.and_then ih

theorem loads_loadDatabase (files : LoadTable → List Byte) (price : F) (faults : Faults)
    (rand : ℕ → ℕ) (table : LoadTable) :
    Loads files price faults rand (loadDatabase table) (rowsOf table (files table)) := by
  intro before s h
  unfold loadDatabase
  cases hopen : faults s.calls with
  | some e =>
    refine wp_call.mpr ⟨_, _, by simp only [Loading.answer, hopen]; rfl, ?_⟩
    exact wp_pure.mpr (adds_failed (h.later _) hopen (Nat.lt_succ_self _) _)
  | none =>
    refine wp_call.mpr ⟨_, _, by simp only [Loading.answer, hopen]; rfl, ?_⟩
    exact loads_insertRows _ before _ (h.later _)

theorem loads_benchmarkInitialLoad (files : LoadTable → List Byte) (price : F) (faults : Faults)
    (rand : ℕ → ℕ) : Loads files price faults rand benchmarkInitialLoad (allRows files) := by
  have h := (loads_loadDatabase files price faults rand .quotes).and_then loads_nil
  rw [List.append_nil] at h
  have h := (loads_loadDatabase files price faults rand .currencies).and_then h
  have h := (loads_loadDatabase files price faults rand .stocks).and_then h
  exact (loads_loadDatabase files price faults rand .personal).and_then h

/-- However the calls fail the load ends with no transaction open and a first part of the rows in
the tables, all of them if it succeeds; it gives up only at a call that fails or at a row that is
there already, and crashes only at a line that overruns its struct. -/
theorem initial_load_adds_rows (files : LoadTable → List Byte) (price : F) (faults : Faults)
    (rand : ℕ → ℕ) :
    ∃ o s done rest,
      Exec (Loading.answer files price faults) benchmarkInitialLoad (Loading.opening rand) o s ∧
      allRows files = done.map some ++ rest ∧ s.Holds price rand done ∧
      (o = .value BENCHMARK_SUCCESS ∧ rest = [] ∨
        o = .value BENCHMARK_FAIL ∧
          ((∃ n < s.calls, faults n ≠ none) ∨ ∃ r rest',
            rest = some r :: rest' ∧ ¬ Distinct (done ++ [r])) ∨
        o = .crashed ∧ ∃ rest', rest = none :: rest') := by
  obtain ⟨o, s, he, done, rest, hrows, hs, hend⟩ :=
    loads_benchmarkInitialLoad files price faults rand [] (Loading.opening rand) holds_opening
  exact ⟨o, s, done, rest, he, hrows, hs, hend⟩

/-! ## The exchange that opens -/

def keysOf (files : LoadTable → List Byte) (table : LoadTable) : List CStr :=
  (fileLines (files table)).filterMap (keyOf table)

theorem keysIn_append (table : LoadTable) (rows' : List Row) :
    keysIn table (rows ++ rows') = keysIn table rows ++ keysIn table rows' := by
  rw [keysIn, List.filter_append, List.map_append, ← keysIn, ← keysIn]

theorem keysIn_rowsOf (table table' : LoadTable) (file : List Byte) :
    keysIn table (rowsOf table' file).reduceOption = if table' = table then
      (fileLines file).filterMap (keyOf table') else [] := by
  rw [rowsOf]
  induction fileLines file with
  | nil => simp [keysIn]
  | cons buf lines ih =>
    cases hkey : keyOf table' buf with
    | none => simpa [hkey] using ih
    | some key =>
      rw [List.map_cons, hkey, Option.map_some, List.reduceOption_cons_of_some,
        List.filterMap_cons, hkey, ← List.singleton_append, keysIn_append, ih]
      by_cases h : table' = table <;> simp [keysIn, h]

theorem keysIn_allRows (table : LoadTable) : keysIn table (allRows files).reduceOption =
    keysOf files table := by
  simp only [allRows, List.reduceOption_append, keysIn_append, keysIn_rowsOf, keysOf]
  cases table <;> simp

theorem reduceOption_map_some (rows : List Row) : (rows.map some).reduceOption = rows := by
  simp [List.reduceOption]

theorem keysIn_of_read (hrows : allRows files = rows.map some) (table : LoadTable) :
    keysIn table rows = keysOf files table := by
  rw [← keysIn_allRows, hrows, reduceOption_map_some]

theorem sscanf_set {width : ℕ} {stop : Byte} {cs : List Conversion} {input t : List Byte}
    (htext : (input.takeWhile (· ≠ stop)).take width = t) (hne : t ≠ []) :
    sscanf (.set width stop :: cs) input = .text t :: sscanf cs (input.drop t.length) := by
  simp only [sscanf, htext, if_neg hne]

theorem sscanf_stock (buf : List Byte) : ∃ ignored, (ignored = [] ∨ ∃ t, ignored = [.text t]) ∧
    sscanf stockFormat (cString buf) =
      if symbolField buf = [] then [] else .text (symbolField buf) ::
        if nameField buf = [] then [] else .text (nameField buf) :: ignored := by
  rw [stockFormat]
  by_cases hsymbol : symbolField buf = []
  · refine ⟨[], .inl rfl, ?_⟩
    rw [if_pos hsymbol, sscanf]
    exact if_pos hsymbol
  simp only [if_neg hsymbol, sscanf_set (t := symbolField buf) rfl hsymbol]
  cases hrest : (cString buf).drop (symbolField buf).length with
  | nil => exact ⟨[], .inl rfl, by simp [nameField, hrest, sscanf]⟩
  | cons c rest =>
    by_cases hc : c = HASH
    · have hname : nameField buf = scanField NAME_SZ rest := by simp [nameField, hrest, hc]
      by_cases hnone : nameField buf = []
      · refine ⟨[], .inl rfl, ?_⟩
        rw [if_pos hnone, sscanf, if_pos hc, sscanf]
        exact congrArg (Field.text _ :: ·) (if_pos (hname.symm.trans hnone))
      refine ⟨sscanf [.literal HASH, .set 500 NEWLINE] (rest.drop (nameField buf).length), ?_, ?_⟩
      · rcases rest.drop (nameField buf).length with _ | ⟨c', ignored⟩
        · exact .inl rfl
        · simp only [sscanf]
          split_ifs
          · exact .inl rfl
          · exact .inr ⟨_, rfl⟩
          · exact .inl rfl
      · rw [if_neg hnone, sscanf, if_pos hc, sscanf_set hname.symm hnone]
    · exact ⟨[], .inl rfl, by simp [nameField, hrest, sscanf, hc]⟩

theorem Place.member_store {offset : ℕ} {memory t m : List Byte}
    (h : (Place.member offset).store memory t = some m) : m = storeString memory offset t := by
  simp only [Place.store, Option.ite_none_right_eq_some, Option.some.injEq] at h
  exact h.2.symm

theorem Place.buffer_store {size : ℕ} {memory t m : List Byte}
    (h : (Place.buffer size).store memory t = some m) : m = memory := by
  simp only [Place.store, Option.ite_none_right_eq_some, Option.some.injEq] at h
  exact h.2.symm

/-- A line that does not overrun `STOCK` gives the symbol that `scanStock` leaves. -/
theorem stockSymbol_of_keyOf {buf : List Byte} {key : CStr} (h : keyOf .stocks buf = some key) :
    key = stockSymbol buf := by
  obtain ⟨m, hscan, rfl⟩ := Option.map_eq_some_iff.mp h
  refine congrArg cString ?_
  obtain ⟨ignored, hignored, hfields⟩ := sscanf_stock buf
  rw [scanStruct, hfields, stockPlaces] at hscan
  rw [scanStock]
  by_cases hsymbol : symbolField buf = []
  · rw [if_pos hsymbol] at hscan ⊢
    exact (Option.some.inj hscan).symm
  rw [if_neg hsymbol] at hscan ⊢
  rw [List.zip_cons_cons, List.foldlM_cons, Option.bind_eq_bind, Option.bind_eq_some_iff] at hscan
  obtain ⟨m₁, hstore₁, hscan⟩ := hscan
  have hsymbolStored := Place.member_store hstore₁
  by_cases hname : nameField buf = []
  · rw [if_pos hname] at hscan ⊢
    exact (Option.some.inj hscan).symm.trans hsymbolStored
  rw [if_neg hname] at hscan ⊢
  rw [List.zip_cons_cons, List.foldlM_cons, Option.bind_eq_bind, Option.bind_eq_some_iff] at hscan
  obtain ⟨m₂, hstore₂, hscan⟩ := hscan
  have hnameStored := Place.member_store hstore₂
  rw [hsymbolStored] at hnameStored
  refine Eq.trans ?_ hnameStored
  rcases hignored with rfl | ⟨t, rfl⟩
  · exact (Option.some.inj hscan).symm
  · rw [List.zip_cons_cons, List.foldlM_cons, Option.bind_eq_bind, Option.bind_eq_some_iff] at hscan
    obtain ⟨m₃, hstore₃, hscan⟩ := hscan
    exact (Option.some.inj hscan).symm.trans (Place.buffer_store hstore₃)

/-- The loader of the stocks as a fold over the lines comes to the same table. -/
theorem Loading.Holds.stocks (h : s.Holds price rand rows) (hrows : allRows files = rows.map some) :
    Client.loadStocksDatabase (files .stocks) = some s.tables.db.stocks := by
  have hread : ∀ buf ∈ fileLines (files .stocks), keyOf .stocks buf = some (stockSymbol buf) := by
    intro buf hbuf
    cases hkey : keyOf .stocks buf with
    | none =>
      have hmem : none ∈ allRows files :=
        List.mem_append_right _
          (List.mem_append_left _ (List.mem_map.mpr ⟨buf, hbuf, by rw [hkey]; rfl⟩))
      rw [hrows] at hmem
      simp at hmem
    | some key => rw [stockSymbol_of_keyOf hkey]
  have hkeys : keysIn .stocks rows = (fileLines (files .stocks)).map stockSymbol := by
    rw [keysIn_of_read hrows, keysOf, ← List.filterMap_eq_map]
    exact List.filterMap_congr hread
  rw [h.db]
  refine loadStocksDatabase_eq_some.mpr ⟨hkeys, ?_⟩
  rw [← hkeys, keysIn]
  refine List.pairwise_map.mpr ((h.distinct.filter _).imp_of_mem fun {r r'} hr hr' hne he => ?_)
  have hr := of_decide_eq_true (List.mem_filter.mp hr).2
  have hr' := of_decide_eq_true (List.mem_filter.mp hr').2
  obtain ⟨table, key⟩ := r
  obtain ⟨table', key'⟩ := r'
  obtain rfl : table = .stocks := hr
  obtain rfl : table' = .stocks := hr'
  cases hne (congrArg (Row.mk .stocks) he)

end Chronos.InitialLoad
