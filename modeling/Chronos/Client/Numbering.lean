import Chronos.Client.Symbols
import Chronos.Foundation.KeyOrder

/-! # Numbers of stocks

A client numbers the stocks by their lines in the file. The server reads the keys of the
table in order and counts an access for the data item at the number in the packet. Which
files give a stock the same number on both sides.
-/
namespace Chronos.Client
open Foundation Storage Benchmark Packet

/-- `benchmark_stocks_symbols_get`: a cursor walks over the keys in ascending order. -/
def benchmarkStocksSymbolsGet (stocks : List CStr) : List CStr := stocks.insertionSort (· ≤ ·)

def dataItem (stocks : List CStr) (i : Fin (benchmarkStocksSymbolsGet stocks).length) : CStr :=
  (benchmarkStocksSymbolsGet stocks).get i

/-- The data items for which `dispatchTableFn` counts an access are the symbols viewed. -/
def AccountsViewed (stocks : List CStr) (p : RequestPacket) : Prop :=
  ∃ items, dispatchTableFn (benchmarkStocksSymbolsGet stocks).length p = .ok items ∧
    items.map (dataItem stocks) = (List.range NUM_DATA_ITEMS).map (packedSymbol p)

/-- So it is for every view of stocks that a client makes. -/
def NumberedAlike (file : List Byte) (stocks : List CStr) : Prop :=
  ∀ (numClient numClients : ℤ) (rand rand' : ℕ → ℕ) (p : RequestPacket), 1 ≤ numClient →
    numClient ≤ numClients →
    chronosRequestCreate CHRONOS_USER_TXN_VIEW_STOCK
      (createPortfolios numClient numClients (chronosCacheAlloc file) rand) rand' = some p →
        AccountsViewed stocks p

/-! ## The accounting of a view -/

theorem exists_forall₂_map {α β γ : Type} {R : α → β → Prop} {g : β → γ} {h : α → γ} {l : List α} :
    (∃ bs, List.Forall₂ R l bs ∧ bs.map g = l.map h) ↔ ∀ a ∈ l, ∃ b, R a b ∧ g b = h a := by
  induction l with
  | nil => simp
  | cons a l ih =>
    rw [List.forall_mem_cons, ← ih]
    constructor
    · rintro ⟨bs, hall, hmap⟩
      obtain ⟨b, bs', hab, hall', rfl⟩ := List.forall₂_cons_left_iff.mp hall
      rw [List.map_cons, List.map_cons, List.cons.injEq] at hmap
      exact ⟨⟨b, hab, hmap.1⟩, bs', hall', hmap.2⟩
    · rintro ⟨⟨b, hab, hb⟩, bs, hall, hmap⟩
      exact ⟨b :: bs, .cons hab hall, by rw [List.map_cons, List.map_cons, hb, hmap]⟩

theorem dispatchTableFn_eq_ok {n k : ℕ} {p : RequestPacket}
    (htype : p.txnType = CHRONOS_USER_TXN_VIEW_STOCK) (hnum : p.numItems = k)
    (hk : k ≤ CHRONOS_MAX_DATA_ITEMS_PER_XACT) {items : List (Fin n)} :
    dispatchTableFn n p = .ok items ↔
      List.Forall₂ (fun i (j : Fin n) => (j.val : ℤ) = p.symbolId i) (List.range k) items := by
  have hitem : ∀ (i : ℕ) (j : Fin n), i ∈ List.range k →
    ((at? .symbolInfo CHRONOS_MAX_DATA_ITEMS_PER_XACT i >>= fun a =>
      at? .dataItemsArray n (p.symbolId a)) = .ok j ↔ (j.val : ℤ) = p.symbolId i) := by
    intro i j hi
    have hlt : i < CHRONOS_MAX_DATA_ITEMS_PER_XACT := lt_of_lt_of_le (List.mem_range.mp hi) hk
    have hsymbol : at? .symbolInfo CHRONOS_MAX_DATA_ITEMS_PER_XACT i = .ok ⟨i, hlt⟩ :=
      at_eq_ok.mpr rfl
    rw [hsymbol, ok_bind, at_eq_ok]
  unfold dispatchTableFn forItems
  rw [if_pos htype, hnum, Int.toNat_natCast, mapM_eq_ok]
  constructor
  · intro h
    refine ((List.forall₂_and_left _ _).mpr ⟨fun i hi => hi, h⟩).imp fun i j hij => ?_
    exact (hitem i j hij.1).mp hij.2
  · intro h
    refine ((List.forall₂_and_left _ _).mpr ⟨fun i hi => hi, h⟩).imp fun i j hij => ?_
    exact (hitem i j hij.1).mpr hij.2

theorem accountsViewed_iff {stocks : List CStr} {p : RequestPacket}
    (htype : p.txnType = CHRONOS_USER_TXN_VIEW_STOCK) (hnum : p.numItems = NUM_DATA_ITEMS) :
    AccountsViewed stocks p ↔
      ∀ i < NUM_DATA_ITEMS, ∃ k : Fin (benchmarkStocksSymbolsGet stocks).length,
        (k.val : ℤ) = p.symbolId i ∧ dataItem stocks k = packedSymbol p i := by
  simp only [AccountsViewed, dispatchTableFn_eq_ok htype hnum (by norm_num), exists_forall₂_map,
    List.mem_range]

/-! ## When the numbers agree -/

section Agree
variable {file : List Byte} {stocks : List CStr} {p : RequestPacket} {rand rand' : ℕ → ℕ}
  {numClient numClients : ℤ}

theorem stockSymbol_of_short (hshort : ∀ buf ∈ fileLines file, (symbolField buf).length < ID_SZ) :
    (fileLines file).map stockSymbol = (fileLines file).map symbolField :=
  List.map_congr_left fun buf hbuf => stockSymbol_of_fits fun h => (hshort buf hbuf).ne h.1

/-- An item of a view carries the number of a line and its symbol. -/
theorem viewed_line (hlines : CHRONOS_CLIENT_NUM_STOCKS ≤ (fileLines file).length)
    (h : chronosRequestCreate CHRONOS_USER_TXN_VIEW_STOCK
      (createPortfolios numClient numClients (chronosCacheAlloc file) rand) rand' = some p)
    {i : ℕ} (hi : i < NUM_DATA_ITEMS) :
    ∃ r, p.symbolId i = (rand r % CHRONOS_CLIENT_NUM_STOCKS : ℕ) ∧
      ((fileLines file).map symbolField)[rand r % CHRONOS_CLIENT_NUM_STOCKS]? = some
      (packedSymbol p i) := by
  obtain ⟨info, s, hinfo, hs, hpacked, hid⟩ :=
    packedSymbol_of_created ⟨by decide, by decide⟩ nonzero_selectable h hi
  obtain ⟨r, hnumber, hsymbol⟩ := selectable_createPortfolios hinfo
  have hlt : rand r % CHRONOS_CLIENT_NUM_STOCKS < CHRONOS_CLIENT_NUM_STOCKS :=
    Nat.mod_lt _ (by norm_num)
  have hget := List.getElem?_eq_getElem (lt_of_lt_of_le hlt hlines)
  rw [hget, hs] at hsymbol
  obtain rfl := Option.some.inj hsymbol
  refine ⟨r, ?_, ?_⟩
  · rw [hid rfl, hnumber, int32_eq_self (by norm_num; omega)]
    norm_num
    omega
  · rw [List.getElem?_map, hget, hpacked, take_stockSymbol]
    rfl

theorem created_front {txnType : ℕ} {clientCache : List ChronosClientPortfolio}
    (htype : txnType < CHRONOS_USER_TXN_MAX)
    (h : chronosRequestCreate txnType clientCache rand = some p) :
    p.txnType = txnType ∧ p.numItems = NUM_DATA_ITEMS := by
  obtain ⟨items, -, rfl⟩ := Option.map_eq_some_iff.mp h
  exact ⟨packetBytes_txnType htype items, packetBytes_numItems txnType items⟩

/-- The numbers agree as far as the keys in order are the lines in theirs. -/
theorem numberedAlike_iff_keys (hlines : CHRONOS_CLIENT_NUM_STOCKS ≤ (fileLines file).length) :
    NumberedAlike file stocks ↔ ∀ k < CHRONOS_CLIENT_NUM_STOCKS,
      (benchmarkStocksSymbolsGet stocks)[k]? = ((fileLines file).map symbolField)[k]? := by
  constructor
  · intro h k hk
    obtain ⟨hportfolios, hinfos⟩ := @createPortfolios_length file 1 1 fun _ => k
    have hsome : ∀ info, Selectable
      (createPortfolios 1 1 (chronosCacheAlloc file) fun _ => k) info → info.symbol ≠ none := by
      intro info hinfo hnone
      obtain ⟨r, -, hsymbol⟩ := selectable_createPortfolios hinfo
      rw [hnone, Nat.mod_eq_of_lt hk, List.getElem?_eq_getElem (lt_of_lt_of_le hk hlines)]
        at hsymbol
      cases hsymbol
    obtain ⟨p, hp⟩ := viewStock_created hportfolios hinfos hsome fun _ => 0
    obtain ⟨htype, hnum⟩ := created_front (by norm_num) hp
    obtain ⟨r, hid, hline⟩ := viewed_line hlines hp (show 0 < NUM_DATA_ITEMS by norm_num)
    obtain ⟨j, hj, hitem⟩ := (accountsViewed_iff htype hnum).mp (h 1 1 _ _ p le_rfl le_rfl hp) 0
      (by norm_num)
    rw [Nat.mod_eq_of_lt hk] at hid hline
    have hjk : j.val = k := Int.ofNat_inj.mp (hj.trans hid)
    rw [hline, ← hitem, ← hjk]
    exact List.getElem?_eq_getElem j.isLt
  · intro h numClient numClients rand rand' p _ _ hp
    obtain ⟨htype, hnum⟩ := created_front (by norm_num) hp
    rw [accountsViewed_iff htype hnum]
    intro i hi
    obtain ⟨r, hid, hline⟩ := viewed_line hlines hp hi
    rw [← h _ (Nat.mod_lt _ (by norm_num))] at hline
    obtain ⟨hlt, hkey⟩ := List.getElem?_eq_some_iff.mp hline
    exact ⟨⟨_, hlt⟩, hid.symm, hkey⟩

theorem loadStocksDatabase_of_short (hdistinct : ((fileLines file).map symbolField).Nodup)
    (hshort : ∀ buf ∈ fileLines file, (symbolField buf).length < ID_SZ) :
    loadStocksDatabase file = some ((fileLines file).map symbolField) := by
  have hsymbols := stockSymbol_of_short hshort
  exact loadStocksDatabase_eq_some.mpr ⟨hsymbols.symm, hsymbols ▸ hdistinct⟩

theorem numberedAlike_iff_firstInOrder
    (hlines : CHRONOS_CLIENT_NUM_STOCKS ≤ (fileLines file).length)
    (hdistinct : ((fileLines file).map symbolField).Nodup) :
    NumberedAlike file ((fileLines file).map symbolField) ↔
      FirstInOrder CHRONOS_CLIENT_NUM_STOCKS ((fileLines file).map symbolField) := by
  rw [numberedAlike_iff_keys hlines, firstInOrder_iff hdistinct]
  rfl

/-- With 300 lines and distinct symbols that fit their member, client and server number
the stocks alike exactly if each of the first 300 symbols is below all later ones. -/
theorem numberedAlike_iff (file : List Byte)
    (hlines : CHRONOS_CLIENT_NUM_STOCKS ≤ (fileLines file).length)
    (hdistinct : ((fileLines file).map symbolField).Nodup)
    (hshort : ∀ buf ∈ fileLines file, (symbolField buf).length < ID_SZ) :
    ∃ stocks, loadStocksDatabase file = some stocks ∧
      (NumberedAlike file stocks ↔
        FirstInOrder CHRONOS_CLIENT_NUM_STOCKS ((fileLines file).map symbolField)) :=
  ⟨_, loadStocksDatabase_of_short hdistinct hshort, numberedAlike_iff_firstInOrder hlines hdistinct⟩

end Agree

/-! ## Letter pairs -/

section Pairs
variable {file : List Byte} {l : List ℕ}

theorem letterPair_lt {i j : ℕ} (hij : i < j) (hj : j < CHRONOS_CLIENT_NUM_STOCKS) :
    letterPair i < letterPair j := by
  have hbound : CHRONOS_CLIENT_NUM_STOCKS = 300 := rfl
  simp only [letterPair, List.cons_lt_cons_iff, Fin.lt_def, Fin.ext_iff, Fin.val_ofNat]
  omega

/-- A file of the letter pairs in whatever order is one that the numbers are about. -/
theorem letterPairs_fit (hl : l.Perm (List.range CHRONOS_CLIENT_NUM_STOCKS))
    (hfields : (fileLines file).map symbolField = l.map letterPair) :
    CHRONOS_CLIENT_NUM_STOCKS ≤ (fileLines file).length ∧ ((fileLines file).map symbolField).Nodup ∧
      ∀ buf ∈ fileLines file, (symbolField buf).length < ID_SZ := by
  refine ⟨?_, ?_, ?_⟩
  · have hlength := congrArg List.length hfields
    rw [List.length_map, List.length_map, hl.length_eq, List.length_range] at hlength
    exact hlength.ge
  · rw [hfields, (hl.map letterPair).nodup_iff]
    refine List.Nodup.map_on ?_ List.nodup_range
    intro i hi j hj heq
    rw [List.mem_range] at hi hj
    rcases lt_trichotomy i j with hij | hij | hij
    · exact absurd heq (letterPair_lt hij hj).ne
    · exact hij
    · exact absurd heq (letterPair_lt hij hi).ne'
  · intro buf hbuf
    have hmem : symbolField buf ∈ l.map letterPair := hfields ▸ List.mem_map_of_mem hbuf
    obtain ⟨i, -, hi⟩ := List.mem_map.mp hmem
    rw [← hi]
    exact show 2 < ID_SZ by norm_num

theorem numberedAlike_letterPairs :
    ∃ stocks, loadStocksDatabase letterPairs = some stocks ∧ NumberedAlike letterPairs stocks := by
  have hfields : (fileLines letterPairs).map symbolField =
    (List.range CHRONOS_CLIENT_NUM_STOCKS).map letterPair := by
    decide +kernel
  obtain ⟨hlines, hdistinct, hshort⟩ := letterPairs_fit (List.Perm.refl _) hfields
  obtain ⟨stocks, hload, hiff⟩ := numberedAlike_iff letterPairs hlines hdistinct hshort
  refine ⟨stocks, hload, hiff.mpr fun i j _ hij a b ha hb => ?_⟩
  rw [hfields, List.getElem?_map, Option.map_eq_some_iff] at ha hb
  obtain ⟨i', hi', rfl⟩ := ha
  obtain ⟨j', hj', rfl⟩ := hb
  obtain ⟨hi, rfl⟩ := List.getElem?_eq_some_iff.mp hi'
  obtain ⟨hj, rfl⟩ := List.getElem?_eq_some_iff.mp hj'
  rw [List.getElem_range, List.getElem_range]
  rw [List.length_range] at hj
  exact letterPair_lt hij hj

def descendingPairs : List Byte :=
  (List.range CHRONOS_CLIENT_NUM_STOCKS).reverse.flatMap
    fun i => letterPair i ++ [HASH, 78, NEWLINE]

/-- The client's stock 0 is the last of the server's data items. -/
theorem descendingPairs_apart :
    (CHRONOS_CLIENT_NUM_STOCKS ≤ (fileLines descendingPairs).length ∧
      ((fileLines descendingPairs).map symbolField).Nodup ∧
      ∀ buf ∈ fileLines descendingPairs, (symbolField buf).length < ID_SZ) ∧
    ∃ stocks, loadStocksDatabase descendingPairs = some stocks ∧
      ¬ NumberedAlike descendingPairs stocks := by
  have hfields : (fileLines descendingPairs).map symbolField =
      (List.range CHRONOS_CLIENT_NUM_STOCKS).reverse.map letterPair := by decide +kernel
  have hfit := letterPairs_fit (List.reverse_perm _) hfields
  obtain ⟨hlines, hdistinct, hshort⟩ := hfit
  refine ⟨⟨hlines, hdistinct, hshort⟩, _, loadStocksDatabase_of_short hdistinct hshort, ?_⟩
  rw [numberedAlike_iff_firstInOrder hlines hdistinct, hfields]
  intro h
  have hlt := h 0 1 (by norm_num) (by norm_num) (letterPair 299) (letterPair 298)
    (by decide +kernel) (by decide +kernel)
  exact lt_asymm hlt (letterPair_lt (by norm_num) (by norm_num))

end Pairs

end Chronos.Client
