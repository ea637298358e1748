import Chronos.Client.Requests
import Chronos.Orders.Exchange

/-! # The symbols a client asks for

Client and server read the same stocks file, the server into a table of keys and the
client into a list of 300. Which files make every symbol that a request can carry a key
of the table.
-/
namespace Chronos.Client
open Foundation Storage Benchmark Packet Program Orders

/-- `symbol_exists` returns 1 on a database with these stocks where nobody else is at work. -/
def SymbolFound (F : Type) (stocks : List CStr) (symbol : CStr) : Prop :=
  ∀ (t : Txn) (db : Db F), db.stocks = stocks → db.Alone t →
    ∃ s', Exec (Session.answer t noFaults) (symbolExists symbol t) ⟨db, []⟩ (.value true) s'

/-- Every symbol that the client can select is there, and the server finds it as packed. -/
def ClientSymbolsExist (F : Type) (file : List Byte) (stocks : List CStr) : Prop :=
  ∀ (numClient numClients : ℤ) (rand : ℕ → ℕ), 1 ≤ numClient → numClient ≤ numClients →
    (∀ info, Selectable (createPortfolios numClient numClients (chronosCacheAlloc file) rand) info →
      info.symbol ≠ none) ∧
    ∀ txnType rand' p i, NamesSymbols txnType → i < NUM_DATA_ITEMS →
      chronosRequestCreate txnType
        (createPortfolios numClient numClients (chronosCacheAlloc file) rand) rand' = some p →
        SymbolFound F stocks (packedSymbol p i)

/-- There are 300 lines, none of the first 300 begins with `#`, and a symbol of ten
characters that runs on into the name is also the whole symbol of some line. -/
def SymbolsUsable (lines : List (List Byte)) : Prop :=
  CHRONOS_CLIENT_NUM_STOCKS ≤ lines.length ∧ ∀ buf ∈ lines.take CHRONOS_CLIENT_NUM_STOCKS,
    symbolField buf ≠ [] ∧ (Overruns buf → ∃ buf' ∈ lines,
      ¬ Overruns buf' ∧ symbolField buf' = symbolField buf)

/-! ## Looking a symbol up -/

section Found
variable {F : Type} {t : Txn} {db : Db F}

theorem exec_symbolExists (hs : db.Alone t) (symbol : CStr) :
    ∃ s', Exec (Session.answer t noFaults) (symbolExists symbol t) ⟨db, []⟩
      (.value (decide (symbol ≠ [] ∧ symbol ∈ db.stocks))) s' := by
  suffices h : wp (Session.answer t noFaults) (symbolExists symbol t) ⟨db, []⟩ fun o _ =>
      o = .value (decide (symbol ≠ [] ∧ symbol ∈ db.stocks)) by
    obtain ⟨o, s', he, rfl⟩ := h
    exact ⟨s', he⟩
  unfold symbolExists recordExists
  by_cases hsymbol : symbol = []
  · rw [if_pos hsymbol]
    exact wp_pure.mpr (by simp [hsymbol])
  · rw [if_neg hsymbol]
    refine wp_bind'.mpr (wp_perform_noFaults hs (by simp [DbCall.handle]) rfl fun halone => ?_)
    have hopen : (db.openCursor t .stocks).cursor? db.nextCursor =
      some ⟨db.nextCursor, t, .stocks, none⟩ :=
      cursor?_openCursor_self .stocks
    by_cases hmem : symbol ∈ db.stocks
    · have hget : Db.perform t (db.openCursor t .stocks) (.get .stocks db.nextCursor symbol) =
          some (.ok (), (db.openCursor t .stocks).moveCursor db.nextCursor
            (toLex (symbol, []))) := by
        simp only [Db.perform, Db.onCursor, hopen, Db.get]
        exact congrArg some (if_pos hmem)
      refine wp_bind'.mpr (wp_perform_noFaults halone (by simp [DbCall.handle]) hget
        fun halone' => ?_)
      refine wp_bind'.mpr (wp_perform_noFaults halone' (by simp [DbCall.handle]) rfl fun _ =>
        wp_pure.mpr ?_)
      simp [hsymbol, hmem, Except.isOk, Except.toBool]
    · have hget : Db.perform t (db.openCursor t .stocks) (.get .stocks db.nextCursor symbol) =
          some (.error .notFound, db.openCursor t .stocks) := by
        simp only [Db.perform, Db.onCursor, hopen, Db.get]
        exact congrArg some (if_neg hmem)
      refine wp_bind'.mpr (wp_perform_noFaults halone (by simp [DbCall.handle]) hget
        fun halone' => ?_)
      refine wp_bind'.mpr (wp_perform_noFaults halone' (by simp [DbCall.handle]) rfl fun _ =>
        wp_pure.mpr ?_)
      simp [hmem, Except.isOk, Except.toBool]

theorem symbolFound_iff {stocks : List CStr} {symbol : CStr} :
    SymbolFound F stocks symbol ↔ symbol ≠ [] ∧ symbol ∈ stocks := by
  constructor
  · intro h
    have halone : (Db.fresh [] stocks (LockTable.empty : LockTable CStr Txn F) id).Alone 1 :=
      ⟨fun _ => rfl, fun _ => rfl, fun _ hoc => absurd hoc List.not_mem_nil⟩
    obtain ⟨s', he⟩ := h 1 _ rfl halone
    obtain ⟨s'', he'⟩ := exec_symbolExists halone symbol
    have heq := Outcome.value.inj (Exec.deterministic he he').1
    exact of_decide_eq_true heq.symm
  · rintro hsymbol t db rfl halone
    obtain ⟨s', he⟩ := exec_symbolExists halone symbol
    rw [decide_eq_true hsymbol] at he
    exact ⟨s', he⟩

end Found

/-! ## What the client selects -/

section Select
variable {file : List Byte} {numClient numClients : ℤ} {rand : ℕ → ℕ}
  {info : ChronosClientStockInfo}

/-- A selected stock is the line of its number, which a result of `rand` gives. -/
theorem selectable_createPortfolios
    (h : Selectable (createPortfolios numClient numClients (chronosCacheAlloc file) rand) info) :
    ∃ r, info.symbolId = (rand r % CHRONOS_CLIENT_NUM_STOCKS : ℕ) ∧
      info.symbol = (fileLines file)[rand r % CHRONOS_CLIENT_NUM_STOCKS]?.map stockSymbol := by
  obtain ⟨u, hu, hinfo⟩ := h
  obtain ⟨i, -, rfl⟩ := List.mem_map.mp hu
  obtain ⟨j, -, rfl⟩ := List.mem_map.mp hinfo
  refine ⟨_, rfl, ?_⟩
  exact congrArg (fun slot => slot.toOption.join)
    (chronosCacheSymbolGet_alloc file (Nat.mod_lt _ (by norm_num)))

theorem createPortfolios_length :
    0 < (createPortfolios numClient numClients (chronosCacheAlloc file) rand).length ∧
      ∀ u ∈ createPortfolios numClient numClients (chronosCacheAlloc file) rand, 0 <
        u.stockInfoArr.length := by
  constructor
  · rw [createPortfolios, List.length_map, List.length_range]
    exact Int.pos_iff_toNat_pos.mp (lt_of_lt_of_le (by norm_num) (le_max_right _ _))
  · intro u hu
    obtain ⟨i, -, rfl⟩ := List.mem_map.mp hu
    rw [List.length_map, List.length_range]
    exact Int.pos_iff_toNat_pos.mp (lt_of_lt_of_le (by norm_num) (le_max_right _ _))

end Select

/-! ## When all symbols exist -/

section Exist
variable {F : Type} {file : List Byte} {stocks : List CStr} {buf : List Byte}
  {lines : List (List Byte)}

theorem symbolField_mem_iff (hbuf : buf ∈ lines) :
    symbolField buf ∈ lines.map stockSymbol ↔
      (Overruns buf → ∃ buf' ∈ lines, ¬ Overruns buf' ∧ symbolField buf' = symbolField buf) := by
  constructor
  · intro h _
    obtain ⟨buf', hbuf', heq⟩ := List.mem_map.mp h
    have hfits : ¬ Overruns buf' := by
      intro h'
      have hlength := congrArg List.length heq
      have hname := List.length_pos_of_ne_nil h'.2
      have hle := length_symbolField_le buf
      rw [stockSymbol_of_overruns h', List.length_append, h'.1] at hlength
      omega
    exact ⟨buf', hbuf', hfits, by rw [← stockSymbol_of_fits hfits, heq]⟩
  · intro h
    by_cases hover : Overruns buf
    · obtain ⟨buf', hbuf', hfits, heq⟩ := h hover
      exact List.mem_map.mpr ⟨buf', hbuf', by rw [stockSymbol_of_fits hfits, heq]⟩
    · exact List.mem_map.mpr ⟨buf, hbuf, stockSymbol_of_fits hover⟩

theorem nonzero_selectable {numClient numClients : ℤ} {rand : ℕ → ℕ} (info : ChronosClientStockInfo)
    (s : CStr)
    (h : Selectable (createPortfolios numClient numClients (chronosCacheAlloc file) rand) info)
    (hs : info.symbol = some s) : ∀ b ∈ s, b ≠ 0 := by
  obtain ⟨r, -, hsymbol⟩ := selectable_createPortfolios h
  rw [hsymbol] at hs
  obtain ⟨buf, -, rfl⟩ := Option.map_eq_some_iff.mp hs
  exact nonzero_cString

theorem SymbolsUsable.exist (hstocks : stocks = (fileLines file).map stockSymbol)
    (h : SymbolsUsable (fileLines file)) : ClientSymbolsExist F file stocks := by
  obtain ⟨hlength, husable⟩ := h
  have hline : ∀ r : ℕ, ∃ buf ∈ (fileLines file).take CHRONOS_CLIENT_NUM_STOCKS,
      (fileLines file)[r % CHRONOS_CLIENT_NUM_STOCKS]? = some buf := by
    intro r
    have hr : r % CHRONOS_CLIENT_NUM_STOCKS < CHRONOS_CLIENT_NUM_STOCKS :=
      Nat.mod_lt _ (by norm_num)
    have hget := List.getElem?_eq_getElem (lt_of_lt_of_le hr hlength)
    refine ⟨_, List.mem_of_getElem? (i := r % CHRONOS_CLIENT_NUM_STOCKS) ?_, hget⟩
    rw [List.getElem?_take_of_lt hr, hget]
  intro numClient numClients rand _ _
  constructor
  · intro info hinfo hnone
    obtain ⟨r, -, hsymbol⟩ := selectable_createPortfolios hinfo
    obtain ⟨buf, -, hbuf⟩ := hline (rand r)
    rw [hbuf, hnone] at hsymbol
    cases hsymbol
  · intro txnType rand' p i htype hi hp
    obtain ⟨info, s, hinfo, hs, hpacked, -⟩ :=
      packedSymbol_of_created htype nonzero_selectable hp hi
    obtain ⟨r, -, hsymbol⟩ := selectable_createPortfolios hinfo
    obtain ⟨buf, htake, hbuf⟩ := hline (rand r)
    rw [hbuf, hs] at hsymbol
    obtain rfl : s = stockSymbol buf := Option.some.inj hsymbol
    obtain ⟨hne, hother⟩ := husable buf htake
    rw [hpacked, take_stockSymbol, symbolFound_iff, hstocks]
    exact ⟨hne, (symbolField_mem_iff (List.mem_of_mem_take htake)).mpr hother⟩

theorem usable_of_exist (hstocks : stocks = (fileLines file).map stockSymbol)
    (h : ClientSymbolsExist F file stocks) : SymbolsUsable (fileLines file) := by
  have hline : ∀ k < CHRONOS_CLIENT_NUM_STOCKS, ∃ buf, (fileLines file)[k]? = some buf ∧
      SymbolFound F stocks (symbolField buf) := by
    intro k hk
    obtain ⟨hsome, hfound⟩ := h 1 1 (fun _ => k) le_rfl le_rfl
    obtain ⟨hportfolios, hinfos⟩ := @createPortfolios_length file 1 1 fun _ => k
    obtain ⟨p, hp⟩ := viewStock_created hportfolios hinfos hsome fun _ => 0
    have htype : NamesSymbols CHRONOS_USER_TXN_VIEW_STOCK := ⟨by decide, by decide⟩
    obtain ⟨info, s, hinfo, hs, hpacked, -⟩ :=
      packedSymbol_of_created htype nonzero_selectable hp (i := 0) (by norm_num)
    obtain ⟨r, -, hsymbol⟩ := selectable_createPortfolios hinfo
    rw [hs, Nat.mod_eq_of_lt hk] at hsymbol
    obtain ⟨buf, hbuf, rfl⟩ := Option.map_eq_some_iff.mp hsymbol.symm
    refine ⟨buf, hbuf, ?_⟩
    rw [← take_stockSymbol, ← hpacked]
    exact hfound _ _ p 0 htype (by norm_num) hp
  constructor
  · obtain ⟨buf, hbuf, -⟩ := hline (CHRONOS_CLIENT_NUM_STOCKS - 1) (by norm_num)
    obtain ⟨hlt, -⟩ := List.getElem?_eq_some_iff.mp hbuf
    omega
  · intro buf hmem
    obtain ⟨k, hk, rfl⟩ := List.getElem_of_mem hmem
    rw [List.length_take] at hk
    obtain ⟨buf, hbuf, hfound⟩ := hline k (lt_min_iff.mp hk).1
    obtain ⟨hlt, rfl⟩ := List.getElem?_eq_some_iff.mp hbuf
    rw [List.getElem_take]
    obtain ⟨hne, hkey⟩ := symbolFound_iff.mp hfound
    rw [hstocks] at hkey
    exact ⟨hne, (symbolField_mem_iff (List.getElem_mem hlt)).mp hkey⟩

/-- Client and server agree exactly on the files with 300 lines none of which has an
empty symbol, or one that runs into its name and is not there alone. -/
theorem clientSymbolsExist_iff (F : Type) (file : List Byte) (stocks : List CStr)
    (hload : loadStocksDatabase file = some stocks) :
    ClientSymbolsExist F file stocks ↔ SymbolsUsable (fileLines file) :=
  have hstocks := (loadStocksDatabase_eq_some.mp hload).1
  ⟨usable_of_exist hstocks, fun h => h.exist hstocks⟩

def letterPair (i : ℕ) : CStr := [Fin.ofNat 256 (65 + i / 20), Fin.ofNat 256 (65 + i % 20)]

def letterPairs : List Byte :=
  (List.range CHRONOS_CLIENT_NUM_STOCKS).flatMap fun i => letterPair i ++ [HASH, 78, NEWLINE]

theorem letterPairs_symbols :
    (fileLines letterPairs).map stockSymbol =
    (List.range CHRONOS_CLIENT_NUM_STOCKS).map letterPair := by decide +kernel

theorem letterPairs_nodup : ((fileLines letterPairs).map stockSymbol).Nodup := by
  rw [letterPairs_symbols]
  refine List.Nodup.map_on ?_ List.nodup_range
  intro i hi j hj heq
  have hbound : CHRONOS_CLIENT_NUM_STOCKS = 300 := rfl
  rw [List.mem_range] at hi hj
  simp only [letterPair, List.cons.injEq, Fin.ext_iff, Fin.val_ofNat, and_true] at heq
  omega

instance symbolsUsableDecidable (lines : List (List Byte)) : Decidable (SymbolsUsable lines) :=
  inferInstanceAs (Decidable (_ ∧ _))

theorem clientSymbolsExist_letterPairs :
    ClientSymbolsExist ℚ letterPairs ((fileLines letterPairs).map stockSymbol) :=
  (clientSymbolsExist_iff ℚ letterPairs _
    (loadStocksDatabase_eq_some.mpr ⟨rfl, letterPairs_nodup⟩)).mpr (by decide +kernel)

/-- A file of one line is loaded, but the client selects from 300 slots. -/
theorem one_stock_not_enough : loadStocksDatabase [65, HASH, 78, NEWLINE] = some [[65]] ∧
    ¬ ClientSymbolsExist ℚ [65, HASH, 78, NEWLINE] [[65]] := by
  have hload : loadStocksDatabase [65, HASH, 78, NEWLINE] = some [[65]] := by decide +kernel
  refine ⟨hload, fun h => ?_⟩
  have husable := usable_of_exist (loadStocksDatabase_eq_some.mp hload).1 h
  revert husable
  decide +kernel

end Exist

end Chronos.Client
