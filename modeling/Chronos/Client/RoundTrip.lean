import Chronos.Foundation.SinglePrecision
import Chronos.Client.Requests
import Chronos.Orders.Requests

/-! # From the client's choice to the server's transaction

What a client asks for, chosen from its portfolios, and what the server reads from the
packet: the strings in their members and the prices as single-precision numbers.
-/
namespace Chronos.Client
open Foundation Storage Benchmark Packet Program Orders
variable {F : Type}

/-! ## What the client asks for -/

def tradeOf (accountId symbol : CStr) (price : F) (amount : ℤ) : Option (BenchmarkXactData F) :=
  if h : accountId.length < ID_SZ ∧ symbol.length < ID_SZ then
    some ⟨accountId, symbol, price, amount, h.1, h.2⟩ else none

/-- The `i`-th item of a purchase or of a sale; `price` is how a price is stored. -/
def chosenTrade (price : ℚ → F) (priceOf : ℕ → ℕ) (clientCache : List ChronosClientPortfolio)
    (rand : ℕ → ℕ) (i : ℕ) : Option (BenchmarkXactData F) :=
  (pickUser clientCache (rand (3 * i))).bind fun u => (pickSymbol u (rand (3 * i + 1))).bind
    fun info =>
    u.user.bind fun accountId => info.symbol.bind fun symbol =>
      tradeOf accountId symbol (price (priceOf info.randomPrice)) ((rand (3 * i + 2) : ℤ).tmod 100)

/-- What is asked for by a request of a type. -/
def chosen (price : ℚ → F) (txnType : ℕ) (clientCache : List ChronosClientPortfolio)
    (rand : ℕ → ℕ) : Option (Request F) :=
  let items := List.range NUM_DATA_ITEMS
  if txnType = CHRONOS_USER_TXN_VIEW_STOCK then
    (pickUser clientCache (rand 0)).bind fun u =>
      (items.mapM fun i => (pickSymbol u (rand (1 + i))).bind fun info =>
        info.symbol).map .viewStock
  else if txnType = CHRONOS_USER_TXN_VIEW_PORTFOLIO then
    (items.mapM fun i => (pickUser clientCache (rand i)).bind fun u => u.user).map .viewPortfolio
  else if txnType = CHRONOS_USER_TXN_PURCHASE then
    (items.mapM (chosenTrade price (· + 10) clientCache rand)).map
      fun data => .op (.order (.purchase data))
  else if txnType = CHRONOS_USER_TXN_SALE then
    (items.mapM (chosenTrade price (· - 10) clientCache rand)).map
      fun data => .op (.order (.sell data))
  else none

/-! ## What the server reads -/

def stringIn (member : List Byte) : Option CStr :=
  (readIdentifier member).toOption.map fun _ => cString member

def xactOf (price : ℚ → F) (d : XactData) : Option (BenchmarkXactData F) :=
  (singleValue d.price).bind fun value => (stringIn d.accountId).bind
    fun accountId => (stringIn d.symbol).bind fun symbol =>
    tradeOf accountId symbol (price value) d.amount

/-- The transaction that a call of the benchmark is. -/
def requestOf (price : ℚ → F) : BenchmarkCall → Option (Request F)
  | .viewStock2 pkeyList => (pkeyList.mapM stringIn).map .viewStock
  | .viewPortfolio2 pkeyList => (pkeyList.mapM stringIn).map .viewPortfolio
  | .purchase2 data => (data.mapM (xactOf price)).map fun data => .op (.order (.purchase data))
  | .sell2 data => (data.mapM (xactOf price)).map fun data => .op (.order (.sell data))

theorem zero_mem_of_stringIn {member : CStr} {s : CStr} (h : stringIn member = some s) :
    0 ∈ member := by
  obtain ⟨u, hu, -⟩ := Option.map_eq_some_iff.mp h
  refine handled_readIdentifier.mp ⟨u, ?_⟩
  cases hread : readIdentifier member with
  | error f =>
    rw [hread] at hu
    cases hu
  | ok v => rfl

theorem zero_mem_of_xactOf {price : ℚ → F} {d : XactData} {x : BenchmarkXactData F}
    (h : xactOf price d = some x) : 0 ∈ d.accountId ∧ 0 ∈ d.symbol := by
  obtain ⟨value, -, h⟩ := Option.bind_eq_some_iff.mp h
  obtain ⟨accountId, haccount, h⟩ := Option.bind_eq_some_iff.mp h
  obtain ⟨symbol, hsymbol, -⟩ := Option.bind_eq_some_iff.mp h
  exact ⟨zero_mem_of_stringIn haccount, zero_mem_of_stringIn hsymbol⟩

theorem read_of_mapM {α β : Type} {read : α → Option β} {l : List α} {bs : List β}
    (h : l.mapM read = some bs) : ∀ a ∈ l, ∃ b, read a = some b := by
  induction l generalizing bs with
  | nil => exact fun a ha => absurd ha List.not_mem_nil
  | cons a l ih =>
    rw [List.mapM_cons] at h
    obtain ⟨b, hb, h⟩ := Option.bind_eq_some_iff.mp h
    obtain ⟨bs', hbs, -⟩ := Option.bind_eq_some_iff.mp h
    exact List.forall_mem_cons.mpr ⟨⟨b, hb⟩, ih hbs⟩

/-- The identifiers of a call that is a transaction end in their members. -/
theorem terminated_of_requestOf {price : ℚ → F} {call : BenchmarkCall} {q : Request F}
    (h : requestOf price call = some q) : ∀ s ∈ call.identifiers, 0 ∈ s := by
  have hviews : ∀ {pkeyList : List CStr} {strings : List CStr}, pkeyList.mapM stringIn =
    some strings →
      ∀ s ∈ pkeyList, 0 ∈ s := by
    intro pkeyList strings hread s hs
    obtain ⟨_, hstring⟩ := read_of_mapM hread s hs
    exact zero_mem_of_stringIn hstring
  have htrades : ∀ {data : List XactData} {items : List (BenchmarkXactData F)},
    data.mapM (xactOf price) = some items →
      ∀ s ∈ data.flatMap fun d => [d.accountId, d.symbol], 0 ∈ s := by
    intro data items hread s hs
    obtain ⟨d, hd, hs⟩ := List.mem_flatMap.mp hs
    obtain ⟨_, hitem⟩ := read_of_mapM hread d hd
    obtain ⟨haccount, hsymbol⟩ := zero_mem_of_xactOf hitem
    rcases List.mem_pair.mp hs with rfl | rfl
    · exact haccount
    · exact hsymbol
  cases call with
  | viewStock2 pkeyList =>
    obtain ⟨_, hread, -⟩ := Option.map_eq_some_iff.mp h
    exact hviews hread
  | viewPortfolio2 pkeyList =>
    obtain ⟨_, hread, -⟩ := Option.map_eq_some_iff.mp h
    exact hviews hread
  | purchase2 data =>
    obtain ⟨_, hread, -⟩ := Option.map_eq_some_iff.mp h
    exact htrades hread
  | sell2 data =>
    obtain ⟨_, hread, -⟩ := Option.map_eq_some_iff.mp h
    exact htrades hread

/-! ## Members -/

/-- The string has no NUL and ends in its member. -/
def FitsMember (s : CStr) : Prop := (∀ b ∈ s, b ≠ 0) ∧ s.length < ID_SZ

theorem stringIn_strncpy {s : CStr} (h : FitsMember s) : stringIn (strncpy ID_SZ s) = some s := by
  obtain ⟨k, hk⟩ : ∃ k, ID_SZ - s.length = k + 1 := ⟨ID_SZ - s.length - 1, by have := h.2; omega⟩
  have hbytes : strncpy ID_SZ s = s ++ 0 :: List.replicate k 0 := by
    rw [strncpy, List.take_of_length_le h.2.le, hk, List.replicate_succ]
  obtain ⟨u, hu⟩ := handled_readIdentifier.mpr (show 0 ∈ strncpy ID_SZ s by rw [hbytes]; simp)
  rw [stringIn, hu, hbytes, cString_append h.1]
  rfl

variable {p : RequestPacket} {offset : ℕ} {item rest : List Byte}

theorem drop_next {bytes more : List Byte} (front : List Byte)
    (h : bytes.drop offset = front ++ more) : bytes.drop (offset + front.length) = more := by
  rw [← List.drop_drop, h, List.drop_left]

theorem idAt_of_drop {s : CStr} (h : p.1.drop offset = strncpy ID_SZ s ++ rest) :
    p.idAt offset = strncpy ID_SZ s := by
  rw [RequestPacket.idAt, h, List.take_append_of_le_length (strncpy_length _ _).ge,
    List.take_of_length_le (strncpy_length _ _).le]

theorem word_of_drop {bytes : List Byte} {x : ℤ} (hle : offset ≤ bytes.length)
    (h : bytes.drop offset = wordBytes x ++ rest) : word bytes offset = (x % 2 ^ 32).toNat := by
  have hbytes : bytes = bytes.take offset ++ wordBytes x ++ rest := by
    rw [List.append_assoc, ← h, List.take_append_drop]
  have hlength : (bytes.take offset).length = offset := by
    rw [List.length_take, Nat.min_eq_left hle]
  have hword := word_wordBytes (bytes.take offset) rest x
  rwa [← hbytes, hlength] at hword

/-! ## Items -/

theorem mapM_read {α β : Type} {l : List ℕ} {entry : ℕ → α} {read : α → Option β}
    {choose : ℕ → Option β} (h : ∀ i ∈ l, ∃ b, read (entry i) = some b ∧ choose i = some b) :
    ∃ bs, (l.map entry).mapM read = some bs ∧ l.mapM choose = some bs := by
  induction l with
  | nil => exact ⟨[], rfl, rfl⟩
  | cons i l ih =>
    obtain ⟨b, hread, hchoose⟩ := h i List.mem_cons_self
    obtain ⟨bs, hreads, hchooses⟩ := ih fun i' hi' => h i' (List.mem_cons_of_mem _ hi')
    refine ⟨b :: bs, ?_, ?_⟩
    · rw [List.map_cons, List.mapM_cons, hread, hreads]
      rfl
    · rw [List.mapM_cons, hchoose, hchooses]
      rfl

/-- The strings of a client's portfolios end in the members of a packet, and its prices can be
raised and lowered by ten without leaving the whole numbers of single precision. -/
structure Packable (clientCache : List ChronosClientPortfolio) : Prop where
  user : ∀ u ∈ clientCache, ∀ s, u.user = some s → FitsMember s
  symbol : ∀ u ∈ clientCache, ∀ info ∈ u.stockInfoArr, ∀ s, info.symbol = some s → FitsMember s
  price : ∀ u ∈ clientCache, ∀ info ∈ u.stockInfoArr, 10 < info.randomPrice ∧
    info.randomPrice + 10 < 2 ^ 24

variable {clientCache : List ChronosClientPortfolio} {rand : ℕ → ℕ} {items : List (List Byte)}
  {txnType i : ℕ}

def packetOf (txnType : ℕ) (items : List (List Byte)) : RequestPacket :=
  ⟨packetBytes txnType items, packetBytes_length txnType items⟩

theorem viewStock_read (txnType : ℕ) {u : ChronosClientPortfolio}
    (hsymbol : ∀ info ∈ u.stockInfoArr, ∀ s, info.symbol = some s → FitsMember s)
    (h : (List.range NUM_DATA_ITEMS).mapM (viewStockItem u rand) = some items)
    (hi : i < NUM_DATA_ITEMS) :
    ∃ s, stringIn ((packetOf txnType items).symbol i) = some s ∧
      ((pickSymbol u (rand (1 + i))).bind fun info => info.symbol) = some s := by
  have hsize : ∀ i item, viewStockItem u rand i = some item → item.length = 16 := by
    intro i item hitem
    obtain ⟨info, -, s, -, rfl⟩ := viewStockItem_eq_some hitem
    simp only [List.length_append, wordBytes_length, strncpy_length]
    rfl
  obtain ⟨item, rest, hitem, hdrop⟩ := item_of_requestItems h hsize (by norm_num) txnType hi
  obtain ⟨info, hinfo, hpack⟩ := Option.bind_eq_some_iff.mp hitem
  obtain ⟨s, hs, rfl⟩ := Option.map_eq_some_iff.mp hpack
  refine ⟨s, ?_, by rw [hinfo, Option.bind_some, hs]⟩
  rw [List.append_assoc, List.append_assoc] at hdrop
  have hnext := drop_next (wordBytes info.symbolId) hdrop
  rw [wordBytes_length] at hnext
  have hid : (packetOf txnType items).symbol i = strncpy ID_SZ s := idAt_of_drop hnext
  rw [hid, stringIn_strncpy (hsymbol info (List.mem_of_getElem? hinfo) s hs)]

theorem viewPortfolio_read (txnType : ℕ)
    (huser : ∀ u ∈ clientCache, ∀ s, u.user = some s → FitsMember s)
    (h : (List.range NUM_DATA_ITEMS).mapM (viewPortfolioItem clientCache rand) = some items)
    (hi : i < NUM_DATA_ITEMS) :
    ∃ s, stringIn ((packetOf txnType items).accountId i) = some s ∧
      ((pickUser clientCache (rand i)).bind fun u => u.user) = some s := by
  have hsize : ∀ i item, viewPortfolioItem clientCache rand i = some item → item.length = 10 := by
    intro i item hitem
    obtain ⟨u, -, hpack⟩ := Option.bind_eq_some_iff.mp hitem
    obtain ⟨s, -, rfl⟩ := Option.map_eq_some_iff.mp hpack
    exact strncpy_length ID_SZ s
  obtain ⟨item, rest, hitem, hdrop⟩ := item_of_requestItems h hsize (by norm_num) txnType hi
  obtain ⟨u, hu, hpack⟩ := Option.bind_eq_some_iff.mp hitem
  obtain ⟨s, hs, rfl⟩ := Option.map_eq_some_iff.mp hpack
  refine ⟨s, ?_, by rw [hu, Option.bind_some, hs]⟩
  have hid : (packetOf txnType items).accountId i = strncpy ID_SZ s :=
    idAt_of_drop hdrop
  rw [hid, stringIn_strncpy (huser u (List.mem_of_getElem? hu) s hs)]

theorem xactData_of_drop {a s : CStr} {symbolId amount : ℤ} {bits : ℕ} (hi : i < NUM_DATA_ITEMS)
    (hdrop : p.1.drop (8 + 36 * i) = (strncpy ID_SZ a ++ [0, 0]) ++ (wordBytes symbolId ++
      ((strncpy ID_SZ s ++ [0, 0]) ++ (wordBytes bits ++ (wordBytes amount ++ rest))))) :
    p.xactData i = ⟨strncpy ID_SZ a, int32 symbolId, strncpy ID_SZ s, bits % 2 ^ 32,
      int32 amount⟩ := by
  have hlength : p.1.length = 3608 := p.2
  have hi3 : i < 3 := hi
  have hmember : ∀ t : CStr, (strncpy ID_SZ t ++ [0, 0]).length = 12 := by
    intro t
    rw [List.length_append, strncpy_length]
    rfl
  have hsymbolId := drop_next _ hdrop
  rw [hmember] at hsymbolId
  have hsymbol := drop_next _ hsymbolId
  rw [wordBytes_length] at hsymbol
  have hprice := drop_next _ hsymbol
  rw [hmember] at hprice
  have hamount := drop_next _ hprice
  rw [wordBytes_length] at hamount
  rw [List.append_assoc] at hdrop hsymbol
  have hbits : ((bits : ℤ) % 2 ^ 32).toNat = bits % 2 ^ 32 := by omega
  rw [RequestPacket.xactData, idAt_of_drop hdrop, signedWord_of_drop (by omega) hsymbolId,
    idAt_of_drop hsymbol,
    word_of_drop (by omega) hprice, signedWord_of_drop (by omega) hamount, hbits]

theorem tradeItem_size {priceOf : ℕ → ℕ} {item : List Byte}
    (h : tradeItem packTrade priceOf clientCache rand i = some item) : item.length = 36 := by
  obtain ⟨info, s, front, back, -, -, hfront, hback, rfl⟩ := tradeItem_eq_some h
  simp only [List.length_append, strncpy_length, hfront, hback]
  rfl

theorem trade_read (txnType : ℕ) (price : ℚ → F) {priceOf : ℕ → ℕ} (hcache : Packable clientCache)
    (hprice : ∀ n, 10 < n → n + 10 < 2 ^ 24 → 0 < priceOf n ∧ priceOf n < 2 ^ 24)
    (h : (List.range NUM_DATA_ITEMS).mapM (tradeItem packTrade priceOf clientCache rand) =
      some items)
    (hi : i < NUM_DATA_ITEMS) : ∃ d, xactOf price ((packetOf txnType items).xactData i) = some d ∧
      chosenTrade price priceOf clientCache rand i = some d := by
  obtain ⟨item, rest, hitem, hdrop⟩ :=
    item_of_requestItems h (fun i item => tradeItem_size) (by norm_num) txnType hi
  obtain ⟨u, hu, hitem⟩ := Option.bind_eq_some_iff.mp hitem
  obtain ⟨info, hinfo, hitem⟩ := Option.bind_eq_some_iff.mp hitem
  obtain ⟨a, ha, hitem⟩ := Option.bind_eq_some_iff.mp hitem
  obtain ⟨s, hs, rfl⟩ := Option.map_eq_some_iff.mp hitem
  have humem := List.mem_of_getElem? hu
  have hinfomem := List.mem_of_getElem? hinfo
  have hafits := hcache.user u humem a ha
  have hsfits := hcache.symbol u humem info hinfomem s hs
  obtain ⟨hlow, hhigh⟩ := hcache.price u humem info hinfomem
  obtain ⟨hpos, hlt⟩ := hprice _ hlow hhigh
  have hread : (packetOf txnType items).xactData i =
    ⟨strncpy ID_SZ a, int32 info.symbolId, strncpy ID_SZ s,
      singleOfNat (priceOf info.randomPrice) % 2 ^ 32,
        int32 ((rand (3 * i + 2) : ℤ).tmod 100)⟩ := by
    have hparts : (packetBytes txnType items).drop (8 + 36 * i) =
      (strncpy ID_SZ a ++ [0, 0]) ++ (wordBytes info.symbolId ++
        ((strncpy ID_SZ s ++ [0, 0]) ++ (wordBytes (singleOfNat (priceOf info.randomPrice)) ++
          (wordBytes ((rand (3 * i + 2) : ℤ).tmod 100) ++ rest)))) := by
      rw [hdrop]
      simp only [floatBytes, List.append_assoc]
    exact xactData_of_drop hi hparts
  have hbits : singleOfNat (priceOf info.randomPrice) % 2 ^ 32 =
    singleOfNat (priceOf info.randomPrice) :=
    Nat.mod_eq_of_lt ((singleOfNat_lt hpos hlt).trans (by norm_num))
  have hamount : int32 ((rand (3 * i + 2) : ℤ).tmod 100) = (rand (3 * i + 2) : ℤ).tmod 100 := by
    have hnat : (rand (3 * i + 2) : ℤ).tmod 100 = (rand (3 * i + 2) % 100 : ℕ) :=
      (Int.ofNat_tmod _ 100).symm
    rw [hnat]
    exact int32_eq_self (by norm_num; omega) (by norm_num; omega)
  have htrade : tradeOf a s (price (priceOf info.randomPrice)) ((rand (3 * i + 2) : ℤ).tmod 100) =
      some ⟨a, s, price (priceOf info.randomPrice), (rand (3 * i + 2) : ℤ).tmod 100, hafits.2,
        hsfits.2⟩ :=
    dif_pos ⟨hafits.2, hsfits.2⟩
  have hserver : xactOf price ((packetOf txnType items).xactData i) =
      tradeOf a s (price (priceOf info.randomPrice)) ((rand (3 * i + 2) : ℤ).tmod 100) := by
    rw [hread, xactOf, hbits, singleValue_ofNat hpos hlt, Option.bind_some, stringIn_strncpy hafits,
      Option.bind_some, stringIn_strncpy hsfits, Option.bind_some, hamount]
  have hclient : chosenTrade price priceOf clientCache rand i =
      tradeOf a s (price (priceOf info.randomPrice)) ((rand (3 * i + 2) : ℤ).tmod 100) := by
    rw [chosenTrade, hu, Option.bind_some, hinfo, Option.bind_some, ha, Option.bind_some, hs,
      Option.bind_some]
  exact ⟨_, hserver.trans htrade, hclient.trans htrade⟩

/-! ## Whole requests -/

theorem processUserTransaction_packetOf (htype : txnType < CHRONOS_USER_TXN_MAX) :
    processUserTransaction (packetOf txnType items) = .ok (
      if txnType = CHRONOS_USER_TXN_VIEW_STOCK then
        .viewStock2 ((List.range NUM_DATA_ITEMS).map (packetOf txnType items).symbol)
      else if txnType = CHRONOS_USER_TXN_VIEW_PORTFOLIO then
        .viewPortfolio2 ((List.range NUM_DATA_ITEMS).map (packetOf txnType items).accountId)
      else if txnType = CHRONOS_USER_TXN_PURCHASE then
        .purchase2 ((List.range NUM_DATA_ITEMS).map (packetOf txnType items).xactData)
      else .sell2 ((List.range NUM_DATA_ITEMS).map (packetOf txnType items).xactData)) := by
  have htxnType : (packetOf txnType items).txnType = txnType := packetBytes_txnType htype items
  have hnumItems : (packetOf txnType items).numItems = NUM_DATA_ITEMS :=
    packetBytes_numItems txnType items
  have htype' : (packetOf txnType items).txnType < CHRONOS_USER_TXN_MAX := htxnType.trans_lt htype
  have hnum : (packetOf txnType items).numItems ≤ CHRONOS_MAX_DATA_ITEMS_PER_XACT := by
    rw [hnumItems]
    decide
  rw [processUserTransaction_eq htype' hnum, RequestPacket.call, htxnType, hnumItems,
    Int.toNat_natCast]

theorem lt_max_of_requestItems (h : requestItems txnType clientCache rand = some items) :
    txnType < CHRONOS_USER_TXN_MAX := by
  unfold requestItems at h
  split_ifs at h with h0 h1 h2 h3 <;> subst_vars <;> decide

/-- What the client has chosen is what the server reads from the packet. -/
theorem chosen_arrives (price : ℚ → F) (hcache : Packable clientCache)
    (h : chronosRequestCreate txnType clientCache rand = some p) :
    ∃ call q, processUserTransaction p = .ok call ∧ requestOf price call = some q ∧
      chosen price txnType clientCache rand = some q := by
  obtain ⟨items, hitems, hp⟩ := Option.map_eq_some_iff.mp h
  obtain rfl : packetOf txnType items = p := hp
  rw [processUserTransaction_packetOf (lt_max_of_requestItems hitems)]
  unfold chosen
  unfold requestItems at hitems
  split_ifs at hitems ⊢ with h0 h1 h2 h3
  · obtain ⟨u, hu, hitems⟩ := Option.bind_eq_some_iff.mp hitems
    obtain ⟨symbols, hread, hchosen⟩ := mapM_read fun i hi => viewStock_read _
      (hcache.symbol u (List.mem_of_getElem? hu)) hitems (List.mem_range.mp hi)
    exact ⟨_, .viewStock symbols, rfl, Option.map_eq_some_iff.mpr ⟨_, hread, rfl⟩,
      Option.bind_eq_some_iff.mpr ⟨u, hu, Option.map_eq_some_iff.mpr ⟨_, hchosen, rfl⟩⟩⟩
  · obtain ⟨accounts, hread, hchosen⟩ := mapM_read fun i hi => viewPortfolio_read _
      hcache.user hitems (List.mem_range.mp hi)
    exact ⟨_, .viewPortfolio accounts, rfl, Option.map_eq_some_iff.mpr ⟨_, hread, rfl⟩,
      Option.map_eq_some_iff.mpr ⟨_, hchosen, rfl⟩⟩
  · obtain ⟨data, hread, hchosen⟩ := mapM_read fun i hi => trade_read _ price hcache
      (fun n hlow hhigh => ⟨by omega, by omega⟩) hitems (List.mem_range.mp hi)
    exact ⟨_, .op (.order (.purchase data)), rfl, Option.map_eq_some_iff.mpr ⟨_, hread, rfl⟩,
      Option.map_eq_some_iff.mpr ⟨_, hchosen, rfl⟩⟩
  · obtain ⟨data, hread, hchosen⟩ := mapM_read fun i hi => trade_read _ price hcache
      (fun n hlow hhigh => ⟨by omega, by omega⟩) hitems (List.mem_range.mp hi)
    exact ⟨_, .op (.order (.sell data)), rfl, Option.map_eq_some_iff.mpr ⟨_, hread, rfl⟩,
      Option.map_eq_some_iff.mpr ⟨_, hchosen, rfl⟩⟩

end Chronos.Client
