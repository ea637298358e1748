import Chronos.Client.StocksFile
import Chronos.Foundation.SinglePrecision
import Chronos.Server.Packet

/-! # The portfolios of a client and the requests it makes

`createPortfolios` gives every user of a client thread stocks of the cache at random,
and `chronosRequestCreate` packs some of them into a zeroed packet. A member of a packet
is at the offset that the server reads it from.
-/
namespace Chronos.Client
open Foundation Benchmark Packet

structure ChronosClientStockInfo where
  symbolId : ℤ
  symbol : Option CStr
  randomAmount : ℤ
  randomPrice : ℕ

/-- `numSymbols` is the length of the array. -/
structure ChronosClientPortfolio where
  userId : ℤ
  user : Option CStr
  stockInfoArr : List ChronosClientStockInfo

/-- `createPortfolios`, with the successive results of `rand`. -/
def createPortfolios (numClient numClients : ℤ) (cache : ChronosCache) (rand : ℕ → ℕ) :
    List ChronosClientPortfolio :=
  let numPortfolios := max (min (cache.numUsers.tdiv numClients) 100) 10
  let symbolsPerUser := max (min (cache.numStocks.tdiv cache.numUsers) 100) 10
  (List.range numPortfolios.toNat).map fun i : ℕ =>
    let randomUser :=
      (int32 (i + int32 (numPortfolios * int32 (numClient - 1)))).tmod cache.numUsers
    { userId := randomUser
      user := (chronosCacheUserGet randomUser cache).toOption.join
      stockInfoArr := (List.range symbolsPerUser.toNat).map fun j : ℕ =>
        let k : ℕ := 2 * (i * symbolsPerUser.toNat + j)
        let randomSymbol := (rand k : ℤ).tmod cache.numStocks
        ⟨randomSymbol, (chronosCacheSymbolGet randomSymbol cache).toOption.join,
          (rand (k + 1) : ℤ).tmod 100, 500⟩ }

/-- `strncpy` into a member of `n` bytes. -/
def strncpy (n : ℕ) (s : CStr) : List Byte := s.take n ++ List.replicate (n - s.length) 0

def floatBytes (x : ℕ) : List Byte := wordBytes (singleOfNat x)

def chronosPackViewStock (symbolId : ℤ) (symbol : Option CStr) : Option (List Byte) :=
  symbol.map fun s => wordBytes symbolId ++ (strncpy ID_SZ s ++ [0, 0])

def chronosPackViewPortfolio (accountId : Option CStr) : Option (List Byte) :=
  accountId.map (strncpy ID_SZ)

def packTrade (accountId : Option CStr) (symbolId : ℤ) (symbol : Option CStr) (price : ℕ)
    (amount : ℤ) : Option (List Byte) :=
  accountId.bind fun a => symbol.map fun s =>
    (strncpy ID_SZ a ++ [0, 0] ++ wordBytes symbolId) ++
      (strncpy ID_SZ s ++ [0, 0] ++ floatBytes price ++ wordBytes amount)

def chronosPackPurchase (accountId : Option CStr) (symbolId : ℤ) (symbol : Option CStr) (price : ℕ)
    (amount : ℤ) :
    Option (List Byte) := packTrade accountId symbolId symbol price amount

def chronosPackSellStock (accountId : Option CStr) (symbolId : ℤ) (symbol : Option CStr) (price : ℕ)
    (amount : ℤ) :
    Option (List Byte) := packTrade accountId symbolId symbol price amount

/-- `random_num_data_items`. -/
abbrev NUM_DATA_ITEMS : ℕ := 3

def pickUser (clientCache : List ChronosClientPortfolio) (r : ℕ) : Option ChronosClientPortfolio :=
  clientCache[r % clientCache.length]?

def pickSymbol (u : ChronosClientPortfolio) (r : ℕ) : Option ChronosClientStockInfo :=
  u.stockInfoArr[r % u.stockInfoArr.length]?

def viewStockItem (u : ChronosClientPortfolio) (rand : ℕ → ℕ) (i : ℕ) : Option (List Byte) :=
  (pickSymbol u (rand (1 + i))).bind fun info => chronosPackViewStock info.symbolId info.symbol

def viewPortfolioItem (clientCache : List ChronosClientPortfolio) (rand : ℕ → ℕ) (i : ℕ) :
    Option (List Byte) :=
  (pickUser clientCache (rand i)).bind fun u => chronosPackViewPortfolio u.user

/-- The `i`-th item of a purchase or of a sale. -/
def tradeItem (pack : Option CStr → ℤ → Option CStr → ℕ → ℤ → Option (List Byte)) (price : ℕ → ℕ)
    (clientCache : List ChronosClientPortfolio) (rand : ℕ → ℕ) (i : ℕ) : Option (List Byte) :=
  (pickUser clientCache (rand (3 * i))).bind fun u => (pickSymbol u (rand (3 * i + 1))).bind
    fun info =>
    pack u.user info.symbolId info.symbol (price info.randomPrice) ((rand (3 * i + 2) : ℤ).tmod 100)

def requestItems (txnType : ℕ) (clientCache : List ChronosClientPortfolio) (rand : ℕ → ℕ) :
    Option (List (List Byte)) :=
  let items := List.range NUM_DATA_ITEMS
  if txnType = CHRONOS_USER_TXN_VIEW_STOCK then
    (pickUser clientCache (rand 0)).bind fun u => items.mapM (viewStockItem u rand)
  else if txnType = CHRONOS_USER_TXN_VIEW_PORTFOLIO then
    items.mapM (viewPortfolioItem clientCache rand)
  else if txnType = CHRONOS_USER_TXN_PURCHASE then
    items.mapM (tradeItem chronosPackPurchase (· + 10) clientCache rand)
  else if txnType = CHRONOS_USER_TXN_SALE then
    items.mapM (tradeItem chronosPackSellStock (· - 10) clientCache rand)
  else none

/-- The zeroed packet with its items. -/
def packetBytes (txnType : ℕ) (items : List (List Byte)) : List Byte :=
  (wordBytes txnType ++ wordBytes NUM_DATA_ITEMS ++ items.flatten ++ List.replicate
    REQUEST_PACKET_SZ 0).take
    REQUEST_PACKET_SZ

theorem packetBytes_length (txnType : ℕ) (items : List (List Byte)) :
    (packetBytes txnType items).length = REQUEST_PACKET_SZ := by
  rw [packetBytes, List.length_take, List.length_append, List.length_replicate]
  omega

/-- No request is made where a NULL string would be copied. -/
def chronosRequestCreate (txnType : ℕ) (clientCache : List ChronosClientPortfolio) (rand : ℕ → ℕ) :
    Option RequestPacket :=
  (requestItems txnType clientCache rand).map
    fun items => ⟨packetBytes txnType items, packetBytes_length txnType items⟩

/-- The string that the server finds at the symbol of an item. -/
def packedSymbol (p : RequestPacket) (i : ℕ) : CStr :=
  if p.txnType = CHRONOS_USER_TXN_VIEW_STOCK then cString (p.1.drop (8 + 16 * i + 4))
  else cString (p.1.drop (8 + 36 * i + 16))

def NamesSymbols (txnType : ℕ) : Prop :=
  txnType < CHRONOS_USER_TXN_MAX ∧ txnType ≠ CHRONOS_USER_TXN_VIEW_PORTFOLIO

/-! ## What is packed -/

theorem cString_strncpy {n : ℕ} {s : CStr} (h : ∀ b ∈ s, b ≠ 0) (rest : List Byte) :
    cString (strncpy n s ++ 0 :: rest) = s.take n := by
  have hnonzero : ∀ b ∈ s.take n, b ≠ 0 := fun b hb => h b (List.mem_of_mem_take hb)
  rw [strncpy, List.append_assoc]
  cases n - s.length with
  | zero => exact cString_append hnonzero rest
  | succ k => exact cString_append hnonzero _

theorem strncpy_length (n : ℕ) (s : CStr) : (strncpy n s).length = n := by
  rw [strncpy, List.length_append, List.length_take, List.length_replicate]
  omega

theorem packetBytes_drop (txnType : ℕ) {items : List (List Byte)} {size : ℕ}
    (hcount : items.length = NUM_DATA_ITEMS) (hsize : ∀ item ∈ items, item.length = size)
    (hfits : size ≤ 36) {i : ℕ} {item : List Byte} (hi : items[i]? = some item) :
    ∃ rest, (packetBytes txnType items).drop (8 + size * i) = item ++ rest := by
  obtain ⟨hlt, hitem⟩ := List.getElem?_eq_some_iff.mp hi
  have hsplit : items.flatten = (items.take i).flatten ++
    (item ++ (items.drop (i + 1)).flatten) := by
    rw [← List.flatten_cons, ← hitem, List.cons_getElem_drop_succ, ← List.flatten_append,
      List.take_append_drop]
  have hbefore : (items.take i).flatten.length = size * i := by
    rw [List.length_flatten, List.map_congr_left fun l hl => hsize l (List.mem_of_mem_take hl),
      List.map_const',
      List.sum_replicate, List.length_take, Nat.min_eq_left hlt.le, smul_eq_mul, Nat.mul_comm]
  have hlength : item.length = size := hsize item (List.mem_of_getElem? hi)
  have hroom : item.length ≤ REQUEST_PACKET_SZ - (8 + size * i) := by
    have hi3 : i < 3 := lt_of_lt_of_eq hlt hcount
    have hprod : size * i ≤ 36 * 2 := Nat.mul_le_mul hfits (by omega)
    norm_num
    omega
  have hhead : (wordBytes txnType ++ wordBytes NUM_DATA_ITEMS ++ (items.take i).flatten).length =
    8 + size * i := by
    simp only [List.length_append, wordBytes_length, hbefore]
  have hbytes : wordBytes txnType ++ wordBytes NUM_DATA_ITEMS ++ items.flatten ++
    List.replicate REQUEST_PACKET_SZ 0 =
      (wordBytes txnType ++ wordBytes NUM_DATA_ITEMS ++ (items.take i).flatten) ++
        (item ++ ((items.drop (i + 1)).flatten ++ List.replicate REQUEST_PACKET_SZ 0)) := by
    rw [hsplit]
    simp only [List.append_assoc]
  rw [packetBytes, hbytes, List.drop_take, ← hhead, List.drop_left, hhead]
  exact ⟨_, by rw [List.take_append, List.take_of_length_le hroom]⟩

theorem packetBytes_front (txnType : ℕ) (items : List (List Byte)) :
    ∃ rest, packetBytes txnType items = wordBytes txnType ++ wordBytes NUM_DATA_ITEMS ++ rest := by
  rw [packetBytes, List.append_assoc _ items.flatten, List.take_append, List.take_of_length_le]
  · exact ⟨_, rfl⟩
  · rw [List.length_append, wordBytes_length, wordBytes_length]
    norm_num

theorem packetBytes_txnType {txnType : ℕ} (h : txnType < CHRONOS_USER_TXN_MAX)
    (items : List (List Byte)) :
    RequestPacket.txnType ⟨packetBytes txnType items, packetBytes_length txnType items⟩ =
      txnType := by
  obtain ⟨rest, hbytes⟩ := packetBytes_front txnType items
  change word (packetBytes txnType items) 0 = txnType
  rw [hbytes, List.append_assoc]
  refine (word_wordBytes [] (wordBytes NUM_DATA_ITEMS ++ rest) txnType).trans ?_
  simp only [CHRONOS_USER_TXN_MAX] at h
  omega

theorem packetBytes_numItems (txnType : ℕ) (items : List (List Byte)) :
    RequestPacket.numItems ⟨packetBytes txnType items, packetBytes_length txnType items⟩ =
      NUM_DATA_ITEMS := by
  obtain ⟨rest, hbytes⟩ := packetBytes_front txnType items
  change signedWord (packetBytes txnType items) 4 = NUM_DATA_ITEMS
  rw [hbytes]
  exact (signedWord_wordBytes (wordBytes txnType) rest NUM_DATA_ITEMS).trans (by decide)

/-- The symbol of a packed item is the cached string, as far as it fits its member. -/
theorem packedSymbol_viewStock {s : CStr} (hs : ∀ b ∈ s, b ≠ 0) (symbolId : ℤ) (rest : List Byte) :
    cString ((wordBytes symbolId ++ (strncpy ID_SZ s ++ [0, 0]) ++ rest).drop 4) =
      s.take ID_SZ := by
  have hdrop : (wordBytes symbolId ++ (strncpy ID_SZ s ++ [0, 0]) ++ rest).drop 4 =
    strncpy ID_SZ s ++ 0 :: 0 :: rest := by
    rw [List.append_assoc, ← wordBytes_length symbolId, List.drop_left]
    simp
  rw [hdrop, cString_strncpy hs]

theorem packedSymbol_trade {s : CStr} (hs : ∀ b ∈ s, b ≠ 0) {front : List Byte}
    (hfront : front.length = 16) (back rest : List Byte) :
    cString ((front ++ (strncpy ID_SZ s ++ [0, 0] ++ back) ++ rest).drop 16) = s.take ID_SZ := by
  have hdrop : (front ++ (strncpy ID_SZ s ++ [0, 0] ++ back) ++ rest).drop 16 =
      strncpy ID_SZ s ++ 0 :: 0 :: (back ++ rest) := by
    rw [List.append_assoc, ← hfront, List.drop_left]
    simp
  rw [hdrop, cString_strncpy hs]

theorem mapM_eq_some {α β : Type} {l : List α} {f : α → Option β} {bs : List β}
    (h : l.mapM f = some bs) :
    bs.length = l.length ∧ ∀ (i : ℕ) (a : α), l[i]? = some a →
      ∃ b, bs[i]? = some b ∧ f a = some b := by
  induction l generalizing bs with
  | nil =>
    cases h
    exact ⟨rfl, fun i a h => by simp at h⟩
  | cons a l ih =>
    rw [List.mapM_cons] at h
    obtain ⟨b, hb, h⟩ := Option.bind_eq_some_iff.mp h
    obtain ⟨bs', hbs, h⟩ := Option.bind_eq_some_iff.mp h
    cases h
    obtain ⟨hlength, hget⟩ := ih hbs
    refine ⟨by rw [List.length_cons, List.length_cons, hlength], ?_⟩
    intro i a' ha'
    cases i with
    | zero =>
      cases ha'
      exact ⟨b, rfl, hb⟩
    | succ i => exact hget i a' ha'

/-- The items of a request, if every one has the size that the packet has for it. -/
theorem item_of_requestItems {make : ℕ → Option (List Byte)} {items : List (List Byte)}
    (h : (List.range NUM_DATA_ITEMS).mapM make = some items) {size : ℕ}
    (hsize : ∀ i item, make i = some item → item.length = size) (hfits : size ≤ 36) (txnType : ℕ)
    {i : ℕ} (hi : i < NUM_DATA_ITEMS) :
    ∃ item rest, make i = some item ∧
      (packetBytes txnType items).drop (8 + size * i) = item ++ rest := by
  obtain ⟨hlength, hget⟩ := mapM_eq_some h
  rw [List.length_range] at hlength
  obtain ⟨item, hitem, hmake⟩ := hget i i (List.getElem?_range hi)
  have hall : ∀ item ∈ items, item.length = size := by
    intro item hmem
    obtain ⟨k, hk, rfl⟩ := List.getElem_of_mem hmem
    obtain ⟨b, hb, hmake⟩ := hget k k (List.getElem?_range (hlength ▸ hk))
    rw [List.getElem?_eq_getElem hk] at hb
    cases hb
    exact hsize k _ hmake
  obtain ⟨rest, hrest⟩ := packetBytes_drop txnType hlength hall hfits hitem
  exact ⟨item, rest, hmake, hrest⟩

def Selectable (clientCache : List ChronosClientPortfolio) (info : ChronosClientStockInfo) : Prop :=
  ∃ u ∈ clientCache, info ∈ u.stockInfoArr

theorem selectable_of_picked {clientCache : List ChronosClientPortfolio}
    {u : ChronosClientPortfolio} {info : ChronosClientStockInfo} {r r' : ℕ}
    (hu : pickUser clientCache r = some u) (hinfo : pickSymbol u r' = some info) :
    Selectable clientCache info :=
  ⟨u, List.mem_of_getElem? hu, List.mem_of_getElem? hinfo⟩

theorem signedWord_of_drop {bytes rest : List Byte} {offset : ℕ} {x : ℤ}
    (hle : offset ≤ bytes.length) (h : bytes.drop offset = wordBytes x ++ rest) :
    signedWord bytes offset = int32 x := by
  have hbytes : bytes = bytes.take offset ++ wordBytes x ++ rest := by
    rw [List.append_assoc, ← h, List.take_append_drop]
  have hlength : (bytes.take offset).length = offset := by
    rw [List.length_take, Nat.min_eq_left hle]
  have hword := signedWord_wordBytes (bytes.take offset) rest x
  rwa [← hbytes, hlength] at hword

variable {clientCache : List ChronosClientPortfolio} {rand : ℕ → ℕ}
  {items : List (List Byte)} {i : ℕ}

theorem viewStockItem_eq_some {u : ChronosClientPortfolio} {item : List Byte}
    (h : viewStockItem u rand i = some item) :
    ∃ info ∈ u.stockInfoArr, ∃ s, info.symbol = some s ∧ item = wordBytes info.symbolId ++
      (strncpy ID_SZ s ++ [0, 0]) := by
  obtain ⟨info, hinfo, hpack⟩ := Option.bind_eq_some_iff.mp h
  obtain ⟨s, hs, rfl⟩ := Option.map_eq_some_iff.mp hpack
  exact ⟨info, List.mem_of_getElem? hinfo, s, hs, rfl⟩

theorem tradeItem_eq_some {price : ℕ → ℕ} {item : List Byte}
    (h : tradeItem packTrade price clientCache rand i = some item) :
    ∃ info s front back, Selectable clientCache info ∧ info.symbol = some s ∧ front.length = 16 ∧
      back.length = 8 ∧
      item = front ++ (strncpy ID_SZ s ++ [0, 0] ++ back) := by
  obtain ⟨u, hu, h⟩ := Option.bind_eq_some_iff.mp h
  obtain ⟨info, hinfo, hpack⟩ := Option.bind_eq_some_iff.mp h
  obtain ⟨a, -, hpack⟩ := Option.bind_eq_some_iff.mp hpack
  obtain ⟨s, hs, rfl⟩ := Option.map_eq_some_iff.mp hpack
  refine ⟨info, s, _, floatBytes (price info.randomPrice) ++ wordBytes
    ((rand (3 * i + 2) : ℤ).tmod 100),
    selectable_of_picked hu hinfo, hs, ?_, ?_, by
      rw [List.append_assoc (strncpy ID_SZ s ++ [0, 0])]⟩
  · simp [strncpy_length, wordBytes_length]
  · simp [floatBytes, wordBytes_length]

theorem viewStock_item {u : ChronosClientPortfolio}
    (hnonzero : ∀ info ∈ u.stockInfoArr, ∀ s, info.symbol = some s → ∀ b ∈ s, b ≠ 0)
    (h : (List.range NUM_DATA_ITEMS).mapM (viewStockItem u rand) = some items)
    (hi : i < NUM_DATA_ITEMS) (txnType : ℕ) :
    ∃ info ∈ u.stockInfoArr, ∃ s, info.symbol = some s ∧
      cString ((packetBytes txnType items).drop (8 + 16 * i + 4)) = s.take ID_SZ ∧
        signedWord (packetBytes txnType items) (8 + 16 * i) = int32 info.symbolId := by
  have hsize : ∀ i item, viewStockItem u rand i = some item → item.length = 16 := by
    intro i item hitem
    obtain ⟨info, -, s, -, rfl⟩ := viewStockItem_eq_some hitem
    simp only [List.length_append, wordBytes_length, strncpy_length]
    rfl
  obtain ⟨item, rest, hitem, hdrop⟩ := item_of_requestItems h hsize (by norm_num) txnType hi
  obtain ⟨info, hinfo, s, hs, rfl⟩ := viewStockItem_eq_some hitem
  refine ⟨info, hinfo, s, hs, ?_, ?_⟩
  · rw [← List.drop_drop, hdrop, packedSymbol_viewStock (hnonzero info hinfo s hs)]
  · refine signedWord_of_drop ?_ (hdrop.trans (List.append_assoc _ _ _))
    rw [packetBytes_length]
    norm_num at hi ⊢
    omega

theorem trade_item {price : ℕ → ℕ}
    (hnonzero : ∀ info s, Selectable clientCache info → info.symbol = some s → ∀ b ∈ s, b ≠ 0)
    (h : (List.range NUM_DATA_ITEMS).mapM (tradeItem packTrade price clientCache rand) = some items)
    (hi : i < NUM_DATA_ITEMS) (txnType : ℕ) :
    ∃ info s, Selectable clientCache info ∧ info.symbol = some s ∧
      cString ((packetBytes txnType items).drop (8 + 36 * i + 16)) = s.take ID_SZ := by
  have hsize : ∀ i item, tradeItem packTrade price clientCache rand i = some item →
    item.length = 36 := by
    intro i item hitem
    obtain ⟨info, s, front, back, -, -, hfront, hback, rfl⟩ := tradeItem_eq_some hitem
    simp only [List.length_append, strncpy_length, hfront, hback]
    rfl
  obtain ⟨item, rest, hitem, hdrop⟩ := item_of_requestItems h hsize (by norm_num) txnType hi
  obtain ⟨info, s, front, back, hinfo, hs, hfront, -, rfl⟩ := tradeItem_eq_some hitem
  refine ⟨info, s, hinfo, hs, ?_⟩
  rw [← List.drop_drop, hdrop, packedSymbol_trade (hnonzero info s hinfo hs) hfront]

/-- Every item of a request of this kind carries a symbol of the client's portfolios, cut
off at the end of its member, and a view carries its number as well. -/
theorem packedSymbol_of_created {txnType : ℕ} (htype : NamesSymbols txnType)
    (hnonzero : ∀ info s, Selectable clientCache info → info.symbol = some s → ∀ b ∈ s, b ≠ 0)
    {p : RequestPacket} (h : chronosRequestCreate txnType clientCache rand = some p)
    (hi : i < NUM_DATA_ITEMS) :
    ∃ info s, Selectable clientCache info ∧ info.symbol = some s ∧ packedSymbol p i = s.take ID_SZ ∧
      (txnType = CHRONOS_USER_TXN_VIEW_STOCK → p.symbolId i = int32 info.symbolId) := by
  obtain ⟨items, hitems, rfl⟩ := Option.map_eq_some_iff.mp h
  unfold packedSymbol
  rw [packetBytes_txnType htype.1]
  unfold requestItems at hitems
  by_cases hview : txnType = CHRONOS_USER_TXN_VIEW_STOCK
  · simp only [if_pos hview] at hitems ⊢
    obtain ⟨u, hu, hitems⟩ := Option.bind_eq_some_iff.mp hitems
    have hmem := List.mem_of_getElem? hu
    obtain ⟨info, hinfo, s, hs, hsymbol, hid⟩ :=
      viewStock_item (fun info hinfo s => hnonzero info s ⟨u, hmem, hinfo⟩) hitems hi txnType
    exact ⟨info, s, ⟨u, hmem, hinfo⟩, hs, hsymbol, fun _ => hid⟩
  · simp only [if_neg hview, if_neg htype.2] at hitems ⊢
    have htrade : ∃ info s, Selectable clientCache info ∧ info.symbol = some s ∧
        cString ((packetBytes txnType items).drop (8 + 36 * i + 16)) = s.take ID_SZ := by
      split_ifs at hitems
      · exact trade_item hnonzero hitems hi txnType
      · exact trade_item hnonzero hitems hi txnType
    obtain ⟨info, s, hinfo, hs, hsymbol⟩ := htrade
    exact ⟨info, s, hinfo, hs, hsymbol, fun hv => absurd hv hview⟩

theorem mapM_total {α β : Type} {l : List α} {f : α → Option β} (h : ∀ a ∈ l, ∃ b, f a = some b) :
    ∃ bs, l.mapM f = some bs := by
  induction l with
  | nil => exact ⟨[], rfl⟩
  | cons a l ih =>
    obtain ⟨b, hb⟩ := h a List.mem_cons_self
    obtain ⟨bs, hbs⟩ := ih fun a' ha' => h a' (List.mem_cons_of_mem _ ha')
    exact ⟨b :: bs, by rw [List.mapM_cons, hb, hbs]; rfl⟩

/-- A view of stocks is made wherever no string is NULL. -/
theorem viewStock_created (hportfolios : 0 < clientCache.length)
    (hstocks : ∀ u ∈ clientCache, 0 < u.stockInfoArr.length)
    (hsome : ∀ info, Selectable clientCache info → info.symbol ≠ none) (rand : ℕ → ℕ) :
    ∃ p, chronosRequestCreate CHRONOS_USER_TXN_VIEW_STOCK clientCache rand = some p := by
  obtain ⟨u, hu⟩ : ∃ u, pickUser clientCache (rand 0) = some u :=
    ⟨_, List.getElem?_eq_getElem (Nat.mod_lt _ hportfolios)⟩
  have hmem : u ∈ clientCache := List.mem_of_getElem? hu
  obtain ⟨items, hitems⟩ : ∃ items, (List.range NUM_DATA_ITEMS).mapM (viewStockItem u rand) =
    some items := by
    refine mapM_total fun i _ => ?_
    obtain ⟨info, hinfo⟩ : ∃ info, pickSymbol u (rand (1 + i)) = some info :=
      ⟨_, List.getElem?_eq_getElem (Nat.mod_lt _ (hstocks u hmem))⟩
    obtain ⟨s, hs⟩ :=
      Option.ne_none_iff_exists'.mp (hsome info ⟨u, hmem, List.mem_of_getElem? hinfo⟩)
    exact ⟨_, Option.bind_eq_some_iff.mpr ⟨info, hinfo, Option.map_eq_some_iff.mpr ⟨s, hs, rfl⟩⟩⟩
  refine ⟨⟨packetBytes CHRONOS_USER_TXN_VIEW_STOCK items, packetBytes_length _ items⟩, ?_⟩
  rw [chronosRequestCreate, requestItems, if_pos rfl, hu, Option.bind_some]
  exact Option.map_eq_some_iff.mpr ⟨items, hitems, rfl⟩

end Chronos.Client
