import Chronos.Client.RoundTrip
import Chronos.Client.CacheLookups
import Chronos.Client.Numbering
import Chronos.Orders.Accounts
import Chronos.Server.Stream

/-! # Clients and the server

From the portfolios of the clients to the records of the database and back: the server
handles the packets one after another, and a client is told what the exchange says about
the request that it has chosen.
-/
namespace Chronos.Client
open Foundation Storage Benchmark Packet Program Orders
variable {F : Type}

/-! ## What a client can pack -/

section Pack
variable {file : List Byte} {numClient numClients : ℤ} {rand : ℕ → ℕ}

/-- No symbol of the first 300 lines fills its member. -/
def SymbolsShort (file : List Byte) : Prop :=
  ∀ buf ∈ (fileLines file).take CHRONOS_CLIENT_NUM_STOCKS, (symbolField buf).length < ID_SZ

theorem fitsMember_formatNat {n : ℕ} (hn : n < 10 ^ 9) : FitsMember (formatNat n) := by
  constructor
  · intro b hb hzero
    have hdigit := isDigit_formatNat n b hb
    rw [hzero] at hdigit
    exact absurd hdigit (by decide)
  · unfold formatNat
    split
    · norm_num
    · rw [List.length_reverse, List.length_map]
      exact Nat.lt_succ_of_le ((Nat.digits_length_le_iff (by norm_num) n).mpr hn)

theorem user_createPortfolios {u : ChronosClientPortfolio}
    (hu : u ∈ createPortfolios numClient numClients (chronosCacheAlloc file) rand) {s : CStr}
    (hs : u.user = some s) : ∃ n < CHRONOS_CLIENT_NUM_USERS, s = formatNat n := by
  obtain ⟨i, -, rfl⟩ := List.mem_map.mp hu
  generalize hx : int32 (i + int32 (_ * int32 (numClient - 1))) = x at hs
  have hs' : (chronosCacheUserGet (x.tmod (chronosCacheAlloc file).numUsers)
    (chronosCacheAlloc file)).toOption.join = some s := hs
  have hlt : x.tmod (chronosCacheAlloc file).numUsers < CHRONOS_CLIENT_NUM_USERS :=
    Int.tmod_lt_of_pos x (by simp [chronosCacheAlloc])
  rcases Int.lt_or_le (x.tmod (chronosCacheAlloc file).numUsers) 0 with hneg | hnonneg
  · rw [chronosCacheUserGet_refused (.inl hneg)] at hs'
    cases hs'
  · obtain ⟨n, hn⟩ := Int.eq_ofNat_of_zero_le hnonneg
    have hn50 : n < CHRONOS_CLIENT_NUM_USERS := by omega
    rw [hn, chronosCacheUserGet_alloc hn50] at hs'
    exact ⟨n, hn50, (Option.some.inj hs').symm⟩

theorem packable_createPortfolios (hfile : SymbolsShort file) :
    Packable (createPortfolios numClient numClients (chronosCacheAlloc file) rand) where
  user u hu s hs := by
    obtain ⟨n, hn, rfl⟩ := user_createPortfolios hu hs
    exact fitsMember_formatNat (by norm_num at hn ⊢; omega)
  symbol u hu info hinfo s hs := by
    obtain ⟨r, -, hsymbol⟩ := selectable_createPortfolios ⟨u, hu, hinfo⟩
    rw [hs] at hsymbol
    obtain ⟨buf, hbuf, rfl⟩ := Option.map_eq_some_iff.mp hsymbol.symm
    have hmod : rand r % CHRONOS_CLIENT_NUM_STOCKS < CHRONOS_CLIENT_NUM_STOCKS :=
      Nat.mod_lt _ (by norm_num)
    have hmem : buf ∈ (fileLines file).take CHRONOS_CLIENT_NUM_STOCKS := by
      refine List.mem_of_getElem? (i := rand r % CHRONOS_CLIENT_NUM_STOCKS) ?_
      rw [List.getElem?_take_of_lt hmod, hbuf]
    have hshort := hfile buf hmem
    have hfits : ¬ Overruns buf := fun h => absurd h.1 hshort.ne
    rw [stockSymbol_of_fits hfits]
    exact ⟨nonzero_symbolField buf, hshort⟩
  price u hu info hinfo := by
    obtain ⟨i, -, rfl⟩ := List.mem_map.mp hu
    obtain ⟨j, -, rfl⟩ := List.mem_map.mp hinfo
    norm_num

end Pack

/-! ## Requests -/

/-- A request of one of the clients, with what `rand` returned for its portfolios and for the
request. -/
structure ClientRequest where
  numClient : ℤ
  numClients : ℤ
  randPortfolios : ℕ → ℕ
  txnType : ℕ
  rand : ℕ → ℕ

def ClientRequest.portfolios (file : List Byte) (c : ClientRequest) : List ChronosClientPortfolio :=
  createPortfolios c.numClient c.numClients (chronosCacheAlloc file) c.randPortfolios

def ClientRequest.packet (file : List Byte) (c : ClientRequest) : Option RequestPacket :=
  chronosRequestCreate c.txnType (c.portfolios file) c.rand

def ClientRequest.wish (price : ℚ → F) (file : List Byte) (c : ClientRequest) :
    Option (Request F) :=
  chosen price c.txnType (c.portfolios file) c.rand

theorem symbol_letterPairs {numClient numClients : ℤ} {rand : ℕ → ℕ} (info : ChronosClientStockInfo)
    (h : Selectable (createPortfolios numClient numClients
      (chronosCacheAlloc letterPairs) rand) info) :
    info.symbol ≠ none := by
  obtain ⟨r, -, hsymbol⟩ := selectable_createPortfolios h
  have hlines : (fileLines letterPairs).length = CHRONOS_CLIENT_NUM_STOCKS := by
    rw [← List.length_map (f := stockSymbol), letterPairs_symbols, List.length_map,
      List.length_range]
  have hlt : rand r % CHRONOS_CLIENT_NUM_STOCKS < (fileLines letterPairs).length := by
    rw [hlines]
    exact Nat.mod_lt _ (by norm_num)
  rw [hsymbol, List.getElem?_eq_getElem hlt]
  exact Option.some_ne_none _

theorem shortSymbols_letterPairs : SymbolsShort letterPairs := by
  intro buf hbuf
  have hmem : stockSymbol buf ∈ (fileLines letterPairs).map stockSymbol :=
    List.mem_map_of_mem (List.mem_of_mem_take hbuf)
  rw [letterPairs_symbols] at hmem
  obtain ⟨i, -, hi⟩ := List.mem_map.mp hmem
  rw [← take_stockSymbol, ← hi]
  have htwo : (letterPair i).length < ID_SZ := by
    rw [letterPair, List.length_cons, List.length_singleton]
    norm_num
  exact (List.length_take_le' ID_SZ (letterPair i)).trans_lt htwo

theorem chosen_viewStock {price : ℚ → F} {clientCache : List ChronosClientPortfolio} {rand : ℕ → ℕ}
    {q : Request F} (h : chosen price CHRONOS_USER_TXN_VIEW_STOCK clientCache rand = some q) :
    ∃ symbols, q = .viewStock symbols := by
  unfold chosen at h
  rw [if_pos rfl] at h
  obtain ⟨u, -, hu⟩ := Option.bind_eq_some_iff.mp h
  obtain ⟨symbols, -, rfl⟩ := Option.map_eq_some_iff.mp hu
  exact ⟨symbols, rfl⟩

def firstView : ClientRequest := ⟨1, 5, fun r => r, CHRONOS_USER_TXN_VIEW_STOCK, fun r => r⟩

theorem view_letterPairs : ∃ p, firstView.packet letterPairs = some p :=
  viewStock_created (createPortfolios_length : 0 < (firstView.portfolios letterPairs).length ∧ _).1
    createPortfolios_length.2 symbol_letterPairs _

/-- The packet of a request: both servers read from it what its client has chosen, and neither
leaves an array or runs into an assertion, whatever the benchmark does. -/
theorem request_round_trip (price : ℚ → F) (file : List Byte) (hfile : SymbolsShort file)
    (c : ClientRequest) (p : RequestPacket) (hp : c.packet file = some p) (benchmark : Benchmark)
    (szDataItemsArray : ℕ) (hitems : CHRONOS_CLIENT_NUM_STOCKS ≤ szDataItemsArray) :
    ∃ call q items, processUserTransaction p = .ok call ∧ requestOf price call = some q ∧
      c.wish price file = some q ∧
      handleRequest benchmark p = .ok ⟨c.txnType, benchmark.rc call⟩ ∧
      handleRequest2 benchmark szDataItemsArray p =
        .ok (⟨c.txnType, benchmark.rc call⟩, items) := by
  obtain ⟨call, q, hcall, hq, hchosen⟩ := chosen_arrives price (packable_createPortfolios hfile) hp
  obtain ⟨itemsPacked, hpacked, -⟩ := Option.map_eq_some_iff.mp hp
  have htype := lt_max_of_requestItems hpacked
  obtain ⟨htxnType, hnum⟩ := created_front htype hp
  have hids : SymbolIdsValid szDataItemsArray p := by
    intro hview i hi
    rw [hnum] at hi
    rw [htxnType] at hview
    obtain ⟨info, s, hinfo, -, -, hid⟩ := packedSymbol_of_created ⟨htype, by rw [hview]; decide⟩
      nonzero_selectable hp (Int.ofNat_lt.mp hi)
    obtain ⟨r, hnumber, -⟩ := selectable_createPortfolios hinfo
    have hlt : c.randPortfolios r % CHRONOS_CLIENT_NUM_STOCKS < CHRONOS_CLIENT_NUM_STOCKS :=
      Nat.mod_lt _ (by norm_num)
    rw [hid hview, hnumber, int32_eq_self (by norm_num; omega) (by norm_num; omega)]
    omega
  have hcount : p.numItems ≤ CHRONOS_MAX_DATA_ITEMS_PER_XACT := by
    rw [hnum]
    decide
  have hmax : p.txnType < CHRONOS_USER_TXN_MAX := htxnType.trans_lt htype
  obtain rfl : call = p.call :=
    Except.ok.inj (hcall.symm.trans (processUserTransaction_eq hmax hcount))
  have hacceptable : Acceptable benchmark p :=
    ⟨hmax, hcount, fun s hs => terminated_of_requestOf hq s (List.mem_of_mem_take hs)⟩
  obtain ⟨items, hitems⟩ := handleRequest2_eq hacceptable hids
  rw [← htxnType]
  exact ⟨p.call, q, items, hcall, hq, hchosen, handleRequest_eq hacceptable, hitems⟩

theorem request_round_trip_view : ∃ p call q items,
    firstView.packet letterPairs = some p ∧
      processUserTransaction p = .ok call ∧ requestOf id call = some q ∧
      handleRequest2 (.returning BENCHMARK_SUCCESS) 3000 p =
        .ok (⟨CHRONOS_USER_TXN_VIEW_STOCK, BENCHMARK_SUCCESS⟩, items) := by
  obtain ⟨p, hp⟩ := view_letterPairs
  obtain ⟨call, q, items, hcall, hq, -, -, hhandled⟩ :=
    request_round_trip id letterPairs shortSymbols_letterPairs
    firstView p hp (.returning BENCHMARK_SUCCESS) 3000 (by decide)
  exact ⟨p, call, q, items, hp, hcall, hq, hhandled⟩

/-! ## Serving -/

/-- What the client is told, and what the server has shown. -/
structure Told where
  response : ResponsePacket
  shown : List Shown

/-- The reply as the client reads it. -/
def Told.reply (told : Told) : Reply :=
  ⟨Stream.chronosResponseResultGet (Stream.responseBytes told.response), told.shown⟩

def Holds (price : ℚ → F) (p : RequestPacket) (q : Request F) : Prop :=
  ∃ call, processUserTransaction p = .ok call ∧ requestOf price call = some q

theorem Holds.unique {price : ℚ → F} {p : RequestPacket} {q q' : Request F} (h : Holds price p q)
    (h' : Holds price p q') : q = q' := by
  obtain ⟨call, hcall, hq⟩ := h
  obtain ⟨call', hcall', hq'⟩ := h'
  obtain rfl : call = call' := Except.ok.inj (hcall.symm.trans hcall')
  exact Option.some.inj (hq.symm.trans hq')

/-- A packet that holds a request is answered with the code of the transaction. -/
theorem Holds.handled {price : ℚ → F} {p : RequestPacket} {q : Request F} (h : Holds price p q)
    (rc : ℤ) : handleRequest (.returning rc) p = .ok ⟨p.txnType, rc⟩ := by
  obtain ⟨call, hcall, hq⟩ := h
  obtain ⟨htype, hnum⟩ := (processUserTransaction_handled p).mp ⟨call, hcall⟩
  obtain rfl : call = p.call :=
    Except.ok.inj (hcall.symm.trans (processUserTransaction_eq htype hnum))
  have hacceptable : Acceptable (.returning rc) p :=
    ⟨htype, hnum, fun s hs => terminated_of_requestOf hq s (List.mem_of_mem_take hs)⟩
  exact handleRequest_eq hacceptable

variable [CFloat F]

/-- The server handles packets one after another: it runs the transaction that the packet
holds and responds with its code. -/
inductive Service (price : ℚ → F) (t : Txn) : Db F → List (RequestPacket × Told) → Db F → Prop
  | nil {db : Db F} : Service price t db [] db
  | cons {db db' : Db F} {p : RequestPacket} {call : BenchmarkCall} {q : Request F} {rc : Rc}
      {s' : Session F} {res : ResponsePacket} {handled : List (RequestPacket × Told)} :
    processUserTransaction p = .ok call → requestOf price call = some q →
    Exec (Session.answer t noFaults) q.run ⟨db, []⟩ (.value rc) s' →
      handleRequest (.returning rc) p = .ok res →
    Service price t s'.db handled db' →
      Service price t db ((p, ⟨res, q.shown s'.trace⟩) :: handled) db'

theorem replies_rc {x : Exchange F} {q : Request F} {r : Reply} (h : x.Replies q r) :
    r.rc = BENCHMARK_SUCCESS ∨ r.rc = BENCHMARK_FAIL := by
  cases q with
  | op o =>
    obtain rfl : r = ⟨(x.step o).2, []⟩ := h
    cases o with
    | order o =>
      simp only [Exchange.step]
      split <;> simp
    | refresh symbol newValue =>
      simp only [Exchange.step]
      split
      · simp
      · split <;> simp
  | viewStock symbolList =>
    obtain rfl : r = ⟨quoted x.market.quote symbolList, []⟩ := h
    simp only [quoted]
    split <;> simp
  | viewPortfolio accountList => exact .inl h.1

theorem Service.dialogue {price : ℚ → F} {t : Txn} {db db' : Db F}
    {handled : List (RequestPacket × Told)} (h : Service price t db handled db') :
    ∃ served, Dialogue t db served db' ∧
      List.Forall₂ (fun ps qr => Holds price ps.1 qr.1 ∧
        ps.2 = ⟨⟨ps.1.txnType, qr.2.rc⟩, qr.2.shown⟩) handled served := by
  induction h with
  | nil => exact ⟨[], .nil, .nil⟩
  | @cons db db' p call q rc s' res handled hcall hq he hres _ ih =>
    obtain ⟨served, hdialogue, hsame⟩ := ih
    have hholds : Holds price p q := ⟨call, hcall, hq⟩
    obtain rfl : res = ⟨p.txnType, rc⟩ := Except.ok.inj (hres.symm.trans (hholds.handled rc))
    exact ⟨_, .cons he hdialogue, .cons ⟨hholds, rfl⟩ hsame⟩

theorem service_of_dialogue {price : ℚ → F} {t : Txn} {db db' : Db F}
    {served : List (Request F × Reply)} {packets : List RequestPacket}
    (h : Dialogue t db served db')
    (hholds : List.Forall₂ (Holds price) packets (served.map Prod.fst)) :
    ∃ handled, Service price t db handled db' ∧ handled.map Prod.fst = packets := by
  induction h generalizing packets with
  | nil =>
    obtain rfl := List.forall₂_nil_right_iff.mp hholds
    exact ⟨[], .nil, rfl⟩
  | cons he _ ih =>
    obtain ⟨p, packets, hp, hrest, rfl⟩ := List.forall₂_cons_right_iff.mp hholds
    obtain ⟨handled, hservice, rfl⟩ := ih hrest
    have hres := hp.handled
    obtain ⟨call, hcall, hq⟩ := hp
    exact ⟨_, .cons hcall hq he (hres _) hservice, rfl⟩

theorem codes_of_repliesAll {x : Exchange F} {served : List (Request F × Reply)}
    (h : x.RepliesAll served) :
    ∀ qr ∈ served, qr.2.rc = BENCHMARK_SUCCESS ∨ qr.2.rc = BENCHMARK_FAIL := by
  induction served generalizing x with
  | nil => exact fun qr hqr => absurd hqr List.not_mem_nil
  | cons qr served ih =>
    refine List.forall_mem_cons.mpr ⟨?_, ih h.2⟩
    exact replies_rc h.1

omit [CFloat F] in
/-- Every client has chosen something, and its packet holds that. -/
theorem wishes_of_packets (price : ℚ → F) {file : List Byte} (hfile : SymbolsShort file)
    {requests : List ClientRequest} {packets : List RequestPacket}
    (h : List.Forall₂ (fun c p => c.packet file = some p) requests packets) :
    ∃ wishes, List.Forall₂ (fun c q => ClientRequest.wish price file c = some q) requests wishes ∧
      List.Forall₂ (Holds price) packets wishes := by
  induction h with
  | nil => exact ⟨[], .nil, .nil⟩
  | cons hp _ ih =>
    obtain ⟨wishes, hwishes, hholds⟩ := ih
    obtain ⟨call, q, hcall, hq, hchosen⟩ :=
      chosen_arrives price (packable_createPortfolios hfile) hp
    exact ⟨q :: wishes, .cons hchosen hwishes, .cons ⟨call, hcall, hq⟩ hholds⟩

omit [CFloat F] in
theorem wishes_unique {price : ℚ → F} {handled : List (RequestPacket × Told)}
    {wishes : List (Request F)} {served : List (Request F × Reply)}
    (hholds : List.Forall₂ (Holds price) (handled.map Prod.fst) wishes)
    (hsame : List.Forall₂ (fun ps qr => Holds price ps.1 qr.1 ∧
      ps.2 = ⟨⟨ps.1.txnType, qr.2.rc⟩, qr.2.shown⟩) handled served) :
    served.map Prod.fst = wishes := by
  induction hsame generalizing wishes with
  | nil => exact (List.forall₂_nil_left_iff.mp hholds).symm
  | cons hps _ ih =>
    obtain ⟨q, wishes, hq, hrest, rfl⟩ := List.forall₂_cons_left_iff.mp hholds
    rw [List.map_cons, ih hrest, hps.1.unique hq]

omit [CFloat F] in
theorem zip_replies {price : ℚ → F} {handled : List (RequestPacket × Told)}
    {served : List (Request F × Reply)}
    (hsame : List.Forall₂ (fun ps qr => Holds price ps.1 qr.1 ∧
      ps.2 = ⟨⟨ps.1.txnType, qr.2.rc⟩, qr.2.shown⟩) handled served)
    (hcodes : ∀ qr ∈ served, qr.2.rc = BENCHMARK_SUCCESS ∨ qr.2.rc = BENCHMARK_FAIL) :
    (served.map Prod.fst).zip (handled.map fun ps => ps.2.reply) = served := by
  induction hsame with
  | nil => rfl
  | @cons ps qr handled served hps _ ih =>
    obtain ⟨hcode, hrest⟩ := List.forall_mem_cons.mp hcodes
    have hrc : int32 qr.2.rc = qr.2.rc := by
      rcases hcode with hrc | hrc <;> rw [hrc] <;> decide
    have hreply : ps.2.reply = qr.2 := by
      rw [hps.2, Told.reply, Stream.chronosResponseResultGet_responseBytes, hrc]
    rw [List.map_cons, List.map_cons, List.zip_cons_cons, ih hrest, hreply]

/-- The server serves the clients as the exchange would: every packet that the clients make holds
what its client has chosen, and the client is told what the exchange replies to that. -/
theorem clients_are_served (price : ℚ → F) (t : Txn) (file : List Byte) (hfile : SymbolsShort file)
    (personal stocks : List CStr) (quotes : LockTable CStr Txn F) (rand : ℕ → ℕ)
    (hquotes : ∀ k, (quotes.cell k).pending = none) (requests : List ClientRequest)
    (packets : List RequestPacket)
    (hpackets : List.Forall₂ (fun c p => c.packet file = some p) requests packets) :
    ∃ wishes, List.Forall₂ (fun c q => ClientRequest.wish price file c = some q) requests wishes ∧
      ((Exchange.opening ⟨personal, stocks, quotes.committed⟩ rand).AllowedAll wishes →
        (∃ handled db, Service price t (Db.fresh personal stocks quotes rand) handled db ∧
          handled.map Prod.fst = packets) ∧
        ∀ handled db, Service price t (Db.fresh personal stocks quotes rand) handled db →
          handled.map Prod.fst = packets →
          (Exchange.opening ⟨personal, stocks, quotes.committed⟩ rand).RepliesAll
            (wishes.zip (handled.map fun ps => ps.2.reply))) := by
  obtain ⟨wishes, hwishes, hholds⟩ := wishes_of_packets price hfile hpackets
  refine ⟨wishes, hwishes, fun hallowed => ⟨?_, fun handled db hservice hmap => ?_⟩⟩
  · have hfresh : Represents t (Db.fresh personal stocks quotes rand) _ := represents_fresh hquotes
    obtain ⟨served, db, hdialogue, rfl⟩ := dialogue_exists hfresh hallowed
    obtain ⟨handled, hservice, hmap⟩ := service_of_dialogue hdialogue hholds
    exact ⟨handled, db, hservice, hmap⟩
  · obtain ⟨served, hdialogue, hsame⟩ := hservice.dialogue
    subst hmap
    obtain rfl := wishes_unique hholds hsame
    have hreplies := (hdialogue.replies (represents_fresh hquotes) hallowed).1
    rw [zip_replies hsame (codes_of_repliesAll hreplies)]
    exact hreplies

/-- A client views the stocks of a file with pairs of letters. -/
theorem clients_are_served_view : ∃ p q handled db,
    firstView.packet letterPairs = some p ∧
      firstView.wish id letterPairs = some q ∧
      Service id 1 (Db.fresh [[49]] [[65, 65]]
        ((LockTable.empty.write 0 [65, 65] (10 : ℚ)).commit 0) id) handled db ∧
      handled.map Prod.fst = [p] ∧
      (Exchange.opening ⟨[[49]], [[65, 65]],
        ((LockTable.empty.write 0 [65, 65] (10 : ℚ)).commit 0).committed⟩ id).RepliesAll
        ([q].zip (handled.map fun ps => ps.2.reply)) := by
  obtain ⟨p, hp⟩ := view_letterPairs
  obtain ⟨wishes, hwishes, hserved⟩ :=
    clients_are_served id 1 letterPairs shortSymbols_letterPairs [[49]] [[65, 65]]
    ((LockTable.empty.write 0 [65, 65] (10 : ℚ)).commit 0) id
      (LockTable.settled_commit_write fun _ => rfl)
    [firstView] [p] (.cons hp .nil)
  obtain ⟨q, wishes, hq, hnil, rfl⟩ := List.forall₂_cons_left_iff.mp hwishes
  obtain rfl := List.forall₂_nil_left_iff.mp hnil
  obtain ⟨symbols, rfl⟩ := chosen_viewStock hq
  obtain ⟨⟨handled, db, hservice, hmap⟩, hreplies⟩ := hserved ⟨trivial, trivial⟩
  exact ⟨p, _, handled, db, hp, hq, hservice, hmap, hreplies handled db hservice hmap⟩

end Chronos.Client
