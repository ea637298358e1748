import Chronos.Server.Sampling

/-! # Handling of one request packet

A `chronosRequestPacket_t` is read from the socket as raw bytes, so every field
may hold anything. Array accesses and assertions are checked: the first one that
fails ends the handling with a fault.
-/
namespace Chronos.Packet

/-- `sizeof(chronosRequestPacket_t)`: two words and a union of 100 entries. -/
abbrev REQUEST_PACKET_SZ : ℕ := 3608

abbrev CHRONOS_USER_TXN_VIEW_STOCK : ℕ := 0
abbrev CHRONOS_USER_TXN_VIEW_PORTFOLIO : ℕ := 1
abbrev CHRONOS_USER_TXN_PURCHASE : ℕ := 2
abbrev CHRONOS_USER_TXN_SALE : ℕ := 3
abbrev CHRONOS_USER_TXN_MAX : ℕ := 4

abbrev RequestPacket := { bytes : List Byte // bytes.length = REQUEST_PACKET_SZ }

/-- The four bytes at an offset as a little-endian word. -/
def word (bytes : List Byte) (offset : ℕ) : ℕ :=
  (List.range 4).foldr (fun k acc => (bytes.getD (offset + k) 0).val + 256 * acc) 0

def signedWord (bytes : List Byte) (offset : ℕ) : ℤ := int32 (word bytes offset)

def RequestPacket.txnType (p : RequestPacket) : ℕ := word p.1 0

def RequestPacket.numItems (p : RequestPacket) : ℤ := signedWord p.1 4

def wordBytes (x : ℤ) : List Byte :=
  (List.range 4).map fun k => Fin.ofNat 256 ((x % 2 ^ 32).toNat / 256 ^ k)

theorem wordBytes_length (x : ℤ) : (wordBytes x).length = 4 := by simp [wordBytes]

theorem word_wordBytes (pre post : List Byte) (x : ℤ) :
    word (pre ++ wordBytes x ++ post) pre.length = (x % 2 ^ 32).toNat := by
  have hlt : (x % 2 ^ 32).toNat < 2 ^ 32 := by omega
  simp [word, wordBytes, List.range_succ]
  omega

theorem signedWord_wordBytes (pre post : List Byte) (x : ℤ) :
    signedWord (pre ++ wordBytes x ++ post) pre.length = int32 x := by
  rw [signedWord, word_wordBytes, Int.toNat_of_nonneg (Int.emod_nonneg _ (by norm_num))]
  exact_mod_cast Int.emod_bmod x (2 ^ 32)

/-- A `char [ID_SZ]` member. -/
def RequestPacket.idAt (p : RequestPacket) (offset : ℕ) : CStr := (p.1.drop offset).take ID_SZ

/-- `request_data.symbolInfo[i]`, 16 bytes each: `symbolId`, `symbol`. -/
def RequestPacket.symbolId (p : RequestPacket) (i : ℕ) : ℤ := signedWord p.1 (8 + 16 * i)

def RequestPacket.symbol (p : RequestPacket) (i : ℕ) : CStr := p.idAt (8 + 16 * i + 4)

/-- `request_data.portfolioInfo[i]`, 10 bytes each: `accountId`. -/
def RequestPacket.accountId (p : RequestPacket) (i : ℕ) : CStr := p.idAt (8 + 10 * i)

/-- `benchmark_xact_data_t`, with the bits of its price. -/
structure XactData where
  accountId : CStr
  symbolId : ℤ
  symbol : CStr
  price : ℕ
  amount : ℤ
deriving DecidableEq

/-- `request_data.purchaseInfo[i]` and `request_data.sellInfo[i]`, which have
the layout of a `benchmark_xact_data_t`: 36 bytes each. -/
def RequestPacket.xactData (p : RequestPacket) (i : ℕ) : XactData where
  accountId := p.idAt (8 + 36 * i)
  symbolId := signedWord p.1 (8 + 36 * i + 12)
  symbol := p.idAt (8 + 36 * i + 16)
  price := word p.1 (8 + 36 * i + 28)
  amount := signedWord p.1 (8 + 36 * i + 32)

/-- The arrays that a request can make the server index; an `identifier` is one `char [ID_SZ]`
member. -/
inductive ArrayName where
  | pkeyList
  | data
  | symbolInfo
  | portfolioInfo
  | purchaseInfo
  | sellInfo
  | dataItemsArray
  | identifier
deriving DecidableEq

inductive Fault where
  | outOfBounds (array : ArrayName) (index : ℤ)
  | assertion (text : String)
deriving DecidableEq

/-- An array access. -/
def at? (array : ArrayName) (size : ℕ) (i : ℤ) : Except Fault (Fin size) :=
  if h : 0 ≤ i ∧ i < size then .ok ⟨i.toNat, by omega⟩ else .error (.outOfBounds array i)

def assert (b : Bool) (text : String) : Except Fault Unit :=
  if b then .ok () else .error (.assertion text)

/-- `for (i=0; i<numItems; i++)`. -/
def forItems {α : Type} (numItems : ℤ) (body : ℤ → Except Fault α) : Except Fault (List α) :=
  (List.range numItems.toNat).mapM fun i : ℕ => body i

/-- `to[i] = from[i]`, both arrays of `CHRONOS_MAX_DATA_ITEMS_PER_XACT` entries. -/
def copyItem {α : Type} (source target : ArrayName) (entry : ℕ → α) (i : ℤ) : Except Fault α := do
  let j ← at? source CHRONOS_MAX_DATA_ITEMS_PER_XACT i
  let _ ← at? target CHRONOS_MAX_DATA_ITEMS_PER_XACT i
  return entry j

/-- The call into the benchmark that a request leads to. -/
inductive BenchmarkCall where
  | viewStock2 (pkeyList : List CStr)
  | viewPortfolio2 (pkeyList : List CStr)
  | purchase2 (data : List XactData)
  | sell2 (data : List XactData)
deriving DecidableEq

/-- The dispatch of `processUserTransaction`, the same in both servers. -/
def processUserTransaction (p : RequestPacket) : Except Fault BenchmarkCall :=
  if p.txnType = CHRONOS_USER_TXN_VIEW_STOCK then
    BenchmarkCall.viewStock2 <$> forItems p.numItems (copyItem .symbolInfo .pkeyList p.symbol)
  else if p.txnType = CHRONOS_USER_TXN_VIEW_PORTFOLIO then
    BenchmarkCall.viewPortfolio2 <$> forItems p.numItems
      (copyItem .portfolioInfo .pkeyList p.accountId)
  else if p.txnType = CHRONOS_USER_TXN_PURCHASE then
    BenchmarkCall.purchase2 <$> forItems p.numItems (copyItem .purchaseInfo .data p.xactData)
  else if p.txnType = CHRONOS_USER_TXN_SALE then
    BenchmarkCall.sell2 <$> forItems p.numItems (copyItem .sellInfo .data p.xactData)
  else .error (.assertion "0")

/-- The data items that `dispatchTableFn` of `startup_server_2.c` counts an access for. -/
def dispatchTableFn (szDataItemsArray : ℕ) (p : RequestPacket) :
    Except Fault (List (Fin szDataItemsArray)) :=
  if p.txnType = CHRONOS_USER_TXN_VIEW_STOCK then
    forItems p.numItems fun i => do
      let j ← at? .symbolInfo CHRONOS_MAX_DATA_ITEMS_PER_XACT i
      at? .dataItemsArray szDataItemsArray (p.symbolId j)
  else .ok []

/-- The identifiers handed over, in the order in which the benchmark comes to them:
an order's account before its symbol. -/
def BenchmarkCall.identifiers : BenchmarkCall → List CStr
  | .viewStock2 pkeyList => pkeyList
  | .viewPortfolio2 pkeyList => pkeyList
  | .purchase2 data => data.flatMap fun d => [d.accountId, d.symbol]
  | .sell2 data => data.flatMap fun d => [d.accountId, d.symbol]

/-- What a call of the benchmark comes to: how many of the identifiers it reads before
it returns, and the code that it returns. -/
structure Benchmark where
  reads : BenchmarkCall → ℕ
  rc : BenchmarkCall → ℤ

/-- `strlen` of an identifier: without a NUL it goes on past the member. -/
def readIdentifier (member : CStr) : Except Fault Unit :=
  if 0 ∈ member then .ok () else .error (.outOfBounds .identifier ID_SZ)

/-- The benchmark does what the call asks for. -/
def Benchmark.run (benchmark : Benchmark) (call : BenchmarkCall) : Except Fault ℤ := do
  let _ ← (call.identifiers.take (benchmark.reads call)).mapM readIdentifier
  return benchmark.rc call

/-- `CHRONOS_TXN_IS_VALID`. -/
def chronosTxnIsValid (txnType : ℕ) : Bool := txnType < CHRONOS_USER_TXN_MAX

/-- `chronosResponsePacket_t`. -/
structure ResponsePacket where
  txnType : ℕ
  rc : ℤ
deriving DecidableEq

/-- The handling of a packet in `startup_server.c`. -/
def handleRequest (benchmark : Benchmark) (p : RequestPacket) : Except Fault ResponsePacket := do
  assert (chronosTxnIsValid p.txnType) "CHRONOS_TXN_IS_VALID(reqPacket.txn_type)"
  let call ← processUserTransaction p
  let rc ← benchmark.run call
  return ⟨p.txnType, rc⟩

/-- The handling of a packet in `startup_server_2.c`, with the data items accessed. -/
def handleRequest2 (benchmark : Benchmark) (szDataItemsArray : ℕ) (p : RequestPacket) :
    Except Fault (ResponsePacket × List (Fin szDataItemsArray)) := do
  assert (chronosTxnIsValid p.txnType) "CHRONOS_TXN_IS_VALID(reqPacket.txn_type)"
  let items ← dispatchTableFn szDataItemsArray p
  let call ← processUserTransaction p
  let rc ← benchmark.run call
  return (⟨p.txnType, rc⟩, items)

/-! ## Which packets are handled -/

def Handled {α : Type} (x : Except Fault α) : Prop := ∃ a, x = .ok a

section Handled
variable {α β : Type}

@[simp] theorem handled_ok (a : α) : Handled (.ok a : Except Fault α) := ⟨a, rfl⟩

@[simp] theorem handled_pure (a : α) : Handled (pure a : Except Fault α) := ⟨a, rfl⟩

@[simp] theorem not_handled_error (f : Fault) : ¬ Handled (.error f : Except Fault α) := by
  rintro ⟨a, h⟩
  cases h

theorem handled_bind {x : Except Fault α} {f : α → Except Fault β} :
    Handled (x >>= f) ↔ ∃ a, x = .ok a ∧ Handled (f a) := by
  cases x with
  | error e => simp [Handled, bind, Except.bind]
  | ok a => simp [bind, Except.bind]

theorem handled_map {x : Except Fault α} {f : α → β} : Handled (f <$> x) ↔ Handled x := by
  cases x <;> simp [Functor.map, Except.map]

@[simp] theorem handled_at {array : ArrayName} {size : ℕ} {i : ℤ} :
    Handled (at? array size i) ↔ 0 ≤ i ∧ i < size := by
  unfold at?
  split <;> simp [*]

theorem ok_bind {α β : Type} (a : α) (f : α → Except Fault β) : (Except.ok a >>= f) = f a := rfl

theorem at_eq_ok {array : ArrayName} {size : ℕ} {i : ℤ} {j : Fin size} :
    at? array size i = .ok j ↔ (j.val : ℤ) = i := by
  have hj := j.isLt
  unfold at?
  split
  · rw [Except.ok.injEq, Fin.ext_iff]
    simp only
    omega
  · simp only [reduceCtorEq, false_iff]
    omega

@[simp] theorem handled_assert {b : Bool} {text : String} : Handled (assert b text) ↔ b = true := by
  cases b <;> simp [assert]

theorem mapM_eq_ok {l : List α} {f : α → Except Fault β} {bs : List β} :
    l.mapM f = .ok bs ↔ List.Forall₂ (fun a b => f a = .ok b) l bs := by
  induction l generalizing bs with
  | nil =>
    rw [List.forall₂_nil_left_iff, List.mapM_nil]
    exact ⟨fun h => (Except.ok.inj h).symm, fun h => by rw [h]; rfl⟩
  | cons a l ih =>
    rw [List.mapM_cons, List.forall₂_cons_left_iff]
    constructor
    · intro h
      cases ha : f a with
      | error e =>
        rw [ha] at h
        cases h
      | ok b =>
        cases hl : l.mapM f with
        | error e =>
          rw [ha, hl] at h
          cases h
        | ok bs' =>
          rw [ha, hl] at h
          cases h
          exact ⟨b, bs', rfl, ih.mp hl, rfl⟩
    · rintro ⟨b, bs', ha, hl, rfl⟩
      rw [ha, ih.mpr hl]
      rfl

theorem handled_mapM {l : List α} {f : α → Except Fault β} :
    Handled (l.mapM f) ↔ ∀ a ∈ l, Handled (f a) := by
  induction l with
  | nil => simp
  | cons a l ih =>
    rw [List.mapM_cons, handled_bind, List.forall_mem_cons]
    have hrest : ∀ b, Handled (l.mapM f >>= fun bs => pure (b :: bs)) ↔ ∀ a ∈ l, Handled (f a) := by
      intro b
      rw [handled_bind, ← ih]
      simp only [handled_pure, and_true]
      rfl
    simp only [hrest, exists_and_right]
    rfl

theorem handled_forItems {numItems : ℤ} {body : ℤ → Except Fault α} :
    Handled (forItems numItems body) ↔ ∀ i : ℤ, 0 ≤ i → i < numItems → Handled (body i) := by
  simp only [forItems, handled_mapM, List.mem_range]
  constructor
  · intro h i hi hlt
    have hi' := h i.toNat (by omega)
    rwa [Int.toNat_of_nonneg hi] at hi'
  · intro h i hi
    exact h i (by omega) (by omega)

theorem handled_copyItem {source target : ArrayName} {entry : ℕ → α} {i : ℤ} :
    Handled (copyItem source target entry i) ↔ 0 ≤ i ∧ i < CHRONOS_MAX_DATA_ITEMS_PER_XACT := by
  unfold copyItem
  rw [handled_bind]
  constructor
  · rintro ⟨j, hj, -⟩
    have := at_eq_ok.mp hj
    have := j.isLt
    omega
  · rintro ⟨hlo, hhi⟩
    have hsource : Handled (at? source CHRONOS_MAX_DATA_ITEMS_PER_XACT i) :=
      handled_at.mpr ⟨hlo, hhi⟩
    obtain ⟨j, hj⟩ := hsource
    have htarget : Handled (at? target CHRONOS_MAX_DATA_ITEMS_PER_XACT i) :=
      handled_at.mpr ⟨hlo, hhi⟩
    obtain ⟨k, hk⟩ := htarget
    exact ⟨j, hj, handled_bind.mpr ⟨k, hk, handled_pure _⟩⟩

theorem handled_forItems_copyItem {source target : ArrayName} {entry : ℕ → α} {numItems : ℤ} :
    Handled (forItems numItems (copyItem source target entry)) ↔
      numItems ≤ CHRONOS_MAX_DATA_ITEMS_PER_XACT := by
  simp only [handled_forItems, handled_copyItem]
  constructor
  · intro h
    by_contra hlt
    have := h (numItems - 1) (by omega) (by omega)
    omega
  · intro h i hlo hhi
    omega

theorem forItems_copyItem {source target : ArrayName} {entry : ℕ → α} {numItems : ℤ}
    (h : numItems ≤ CHRONOS_MAX_DATA_ITEMS_PER_XACT) :
    forItems numItems (copyItem source target entry) =
      .ok ((List.range numItems.toNat).map entry) := by
  rw [forItems, mapM_eq_ok, List.forall₂_map_right_iff, List.forall₂_same]
  intro i hi
  have hlt : i < CHRONOS_MAX_DATA_ITEMS_PER_XACT := by
    have := List.mem_range.mp hi
    omega
  have hat : ∀ array, at? array CHRONOS_MAX_DATA_ITEMS_PER_XACT i = .ok ⟨i, hlt⟩ :=
    fun array => at_eq_ok.mpr rfl
  simp only [copyItem, hat, ok_bind]
  rfl

end Handled

theorem processUserTransaction_handled (p : RequestPacket) : Handled (processUserTransaction p) ↔
    p.txnType < CHRONOS_USER_TXN_MAX ∧ p.numItems ≤ CHRONOS_MAX_DATA_ITEMS_PER_XACT := by
  unfold processUserTransaction
  split_ifs with h0 h1 h2 h3
  · rw [handled_map, handled_forItems_copyItem, h0, and_iff_right (by decide)]
  · rw [handled_map, handled_forItems_copyItem, h1, and_iff_right (by decide)]
  · rw [handled_map, handled_forItems_copyItem, h2, and_iff_right (by decide)]
  · rw [handled_map, handled_forItems_copyItem, h3, and_iff_right (by decide)]
  · have hbig : ¬ p.txnType < CHRONOS_USER_TXN_MAX := by
      simp only [CHRONOS_USER_TXN_VIEW_STOCK, CHRONOS_USER_TXN_VIEW_PORTFOLIO,
        CHRONOS_USER_TXN_PURCHASE, CHRONOS_USER_TXN_SALE, CHRONOS_USER_TXN_MAX] at *
      omega
    simp [hbig]

/-- Every symbol that a VIEW_STOCK packet names is a data item. -/
def SymbolIdsValid (szDataItemsArray : ℕ) (p : RequestPacket) : Prop :=
  p.txnType = CHRONOS_USER_TXN_VIEW_STOCK → ∀ i : ℕ, (i : ℤ) < p.numItems →
    0 ≤ p.symbolId i ∧ p.symbolId i < szDataItemsArray

theorem dispatchTableFn_handled {szDataItemsArray : ℕ} {p : RequestPacket}
    (hnum : p.numItems ≤ CHRONOS_MAX_DATA_ITEMS_PER_XACT) :
    Handled (dispatchTableFn szDataItemsArray p) ↔ SymbolIdsValid szDataItemsArray p := by
  unfold dispatchTableFn SymbolIdsValid
  split_ifs with htype
  · simp only [handled_forItems, handled_bind, at_eq_ok, handled_at, htype, forall_const]
    constructor
    · intro h i hi
      obtain ⟨j, hj, hid⟩ := h i (by omega) hi
      rwa [show j.val = i by omega] at hid
    · intro h i hlo hhi
      have hid := h i.toNat (by omega)
      exact ⟨⟨i.toNat, by omega⟩, by simp only; omega, hid⟩
  · simp [htype]

/-- The call that the packet asks for, if its type is one of the four and its items fit. -/
def RequestPacket.call (p : RequestPacket) : BenchmarkCall :=
  let items := List.range p.numItems.toNat
  if p.txnType = CHRONOS_USER_TXN_VIEW_STOCK then .viewStock2 (items.map p.symbol)
  else if p.txnType = CHRONOS_USER_TXN_VIEW_PORTFOLIO then .viewPortfolio2 (items.map p.accountId)
  else if p.txnType = CHRONOS_USER_TXN_PURCHASE then .purchase2 (items.map p.xactData)
  else .sell2 (items.map p.xactData)

theorem processUserTransaction_eq {p : RequestPacket} (htype : p.txnType < CHRONOS_USER_TXN_MAX)
    (hnum : p.numItems ≤ CHRONOS_MAX_DATA_ITEMS_PER_XACT) :
    processUserTransaction p = .ok p.call := by
  unfold processUserTransaction RequestPacket.call
  simp only [forItems_copyItem hnum]
  split_ifs with h0 h1 h2 h3
  · rfl
  · rfl
  · rfl
  · rfl
  · simp only [CHRONOS_USER_TXN_VIEW_STOCK, CHRONOS_USER_TXN_VIEW_PORTFOLIO,
      CHRONOS_USER_TXN_PURCHASE, CHRONOS_USER_TXN_SALE, CHRONOS_USER_TXN_MAX] at *
    omega

/-! ## What the benchmark reads -/

@[simp] theorem handled_readIdentifier {member : CStr} :
    Handled (readIdentifier member) ↔ 0 ∈ member := by
  unfold readIdentifier
  split <;> simp [*]

theorem handled_run {benchmark : Benchmark} {call : BenchmarkCall} :
    Handled (benchmark.run call) ↔ ∀ s ∈ call.identifiers.take (benchmark.reads call), 0 ∈ s := by
  have hreads : Handled (benchmark.run call) ↔
      Handled ((call.identifiers.take (benchmark.reads call)).mapM readIdentifier) := by
    simp only [Benchmark.run, handled_bind, handled_pure, and_true]
    rfl
  rw [hreads, handled_mapM]
  simp only [handled_readIdentifier]

theorem run_eq {benchmark : Benchmark} {call : BenchmarkCall}
    (h : ∀ s ∈ call.identifiers.take (benchmark.reads call), 0 ∈ s) :
    benchmark.run call = .ok (benchmark.rc call) := by
  obtain ⟨u, hu⟩ := handled_mapM.mpr fun s hs => handled_readIdentifier.mpr (h s hs)
  rw [Benchmark.run, hu]
  rfl

/-- Every identifier of the packet that the benchmark comes to read ends in its member. -/
def Terminated (benchmark : Benchmark) (p : RequestPacket) : Prop :=
  ∀ s ∈ p.call.identifiers.take (benchmark.reads p.call), 0 ∈ s

/-- The packet is well formed for `processUserTransaction` and for the benchmark. -/
structure Acceptable (benchmark : Benchmark) (p : RequestPacket) : Prop where
  txnType : p.txnType < CHRONOS_USER_TXN_MAX
  numItems : p.numItems ≤ CHRONOS_MAX_DATA_ITEMS_PER_XACT
  terminated : Terminated benchmark p

theorem run_call_handled {benchmark : Benchmark} {p : RequestPacket} :
    Handled (processUserTransaction p >>= fun call => benchmark.run call) ↔
      Acceptable benchmark p := by
  rw [handled_bind]
  constructor
  · rintro ⟨call, hcall, hrun⟩
    obtain ⟨htype, hnum⟩ := (processUserTransaction_handled p).mp ⟨call, hcall⟩
    obtain rfl : call = p.call :=
      Except.ok.inj (hcall.symm.trans (processUserTransaction_eq htype hnum))
    exact ⟨htype, hnum, handled_run.mp hrun⟩
  · rintro ⟨htype, hnum, hterminated⟩
    exact ⟨p.call, processUserTransaction_eq htype hnum, handled_run.mpr hterminated⟩

theorem handled_isValid {p : RequestPacket} (htype : p.txnType < CHRONOS_USER_TXN_MAX) :
    assert (chronosTxnIsValid p.txnType) "CHRONOS_TXN_IS_VALID(reqPacket.txn_type)" = .ok () := by
  rw [chronosTxnIsValid, decide_eq_true htype]
  rfl

section Handling
variable {benchmark : Benchmark} {szDataItemsArray : ℕ} {p : RequestPacket}

/-- The answer to a packet that neither server trips over. -/
theorem handleRequest_eq (h : Acceptable benchmark p) :
    handleRequest benchmark p = .ok ⟨p.txnType, benchmark.rc p.call⟩ := by
  rw [handleRequest, handled_isValid h.txnType, processUserTransaction_eq h.txnType h.numItems,
    ok_bind, ok_bind, run_eq h.terminated]
  rfl

theorem handleRequest2_eq (h : Acceptable benchmark p) (hids : SymbolIdsValid szDataItemsArray p) :
    ∃ items, handleRequest2 benchmark szDataItemsArray p =
      .ok (⟨p.txnType, benchmark.rc p.call⟩, items) := by
  obtain ⟨items, hitems⟩ := (dispatchTableFn_handled h.numItems).mpr hids
  refine ⟨items, ?_⟩
  rw [handleRequest2, handled_isValid h.txnType, hitems,
    processUserTransaction_eq h.txnType h.numItems, ok_bind, ok_bind, ok_bind, run_eq h.terminated]
  rfl

theorem handleRequest_handled : Handled (handleRequest benchmark p) ↔ Acceptable benchmark p := by
  refine ⟨fun h => ?_, fun h => ⟨_, handleRequest_eq h⟩⟩
  simp only [handleRequest, handled_bind, handled_pure, and_true] at h
  obtain ⟨-, -, call, hcall, rc, hrc⟩ := h
  exact run_call_handled.mp (handled_bind.mpr ⟨call, hcall, rc, hrc⟩)

theorem handleRequest2_handled : Handled (handleRequest2 benchmark szDataItemsArray p) ↔
    Acceptable benchmark p ∧ SymbolIdsValid szDataItemsArray p := by
  constructor
  · intro h
    simp only [handleRequest2, handled_bind, handled_pure, and_true] at h
    obtain ⟨-, -, items, hitems, call, hcall, rc, hrc⟩ := h
    have hacceptable := run_call_handled.mp (handled_bind.mpr ⟨call, hcall, rc, hrc⟩)
    exact ⟨hacceptable, (dispatchTableFn_handled hacceptable.numItems).mp ⟨items, hitems⟩⟩
  · rintro ⟨hacceptable, hids⟩
    obtain ⟨items, hitems⟩ := handleRequest2_eq hacceptable hids
    exact ⟨_, hitems⟩

end Handling

/-- A packet is answered without a fault exactly if its type is one of the four, it has at most
100 items, every identifier that the benchmark comes to read ends in its member and, in
`startup_server_2.c`, a VIEW_STOCK names data items only. -/
theorem handleRequest_handled_iff (benchmark : Benchmark) (szDataItemsArray : ℕ)
    (p : RequestPacket) : (Handled (handleRequest benchmark p) ↔
      p.txnType < CHRONOS_USER_TXN_MAX ∧ p.numItems ≤ CHRONOS_MAX_DATA_ITEMS_PER_XACT ∧
        Terminated benchmark p) ∧
    (Handled (handleRequest2 benchmark szDataItemsArray p) ↔
      p.txnType < CHRONOS_USER_TXN_MAX ∧ p.numItems ≤ CHRONOS_MAX_DATA_ITEMS_PER_XACT ∧
        Terminated benchmark p ∧
        SymbolIdsValid szDataItemsArray p) := by
  rw [handleRequest_handled, handleRequest2_handled]
  constructor
  · exact ⟨fun ⟨htype, hnum, hterminated⟩ => ⟨htype, hnum, hterminated⟩,
      fun ⟨htype, hnum, hterminated⟩ => ⟨htype, hnum, hterminated⟩⟩
  · exact ⟨fun ⟨⟨htype, hnum, hterminated⟩, hids⟩ => ⟨htype, hnum, hterminated, hids⟩,
      fun ⟨htype, hnum, hterminated, hids⟩ => ⟨⟨htype, hnum, hterminated⟩, hids⟩⟩

def filledPacket (header : List Byte) (fill : Byte) (h : header.length = 8) : RequestPacket :=
  ⟨header ++ List.replicate 3600 fill, by rw [List.length_append, h, List.length_replicate]⟩

/-- A benchmark that reads every identifier and returns the one code. -/
def Benchmark.returning (rc : ℤ) : Benchmark := ⟨fun call => call.identifiers.length, fun _ => rc⟩

/-- A view of 101 portfolios runs over the arrays, a packet of type 4 into the assertion, a view of
a symbol of ten bytes 255 past that symbol, and a view of the symbol -1 leaves `dataItemsArray`. -/
theorem handleRequest_faults :
    handleRequest (.returning BENCHMARK_SUCCESS) (filledPacket [1, 0, 0, 0, 101, 0, 0, 0] 0 rfl) =
      .error (.outOfBounds .portfolioInfo 100) ∧
    handleRequest (.returning BENCHMARK_SUCCESS) (filledPacket [0, 0, 0, 0, 1, 0, 0, 0] 255 rfl) =
      .error (.outOfBounds .identifier 10) ∧
    handleRequest2 (.returning BENCHMARK_SUCCESS) 3000
      (filledPacket [4, 0, 0, 0, 1, 0, 0, 0] 0 rfl) =
      .error (.assertion "CHRONOS_TXN_IS_VALID(reqPacket.txn_type)") ∧
    handleRequest2 (.returning BENCHMARK_SUCCESS) 3000
      (filledPacket [0, 0, 0, 0, 1, 0, 0, 0] 255 rfl) =
      .error (.outOfBounds .dataItemsArray (-1)) := by
  refine ⟨?_, ?_, ?_, ?_⟩ <;> decide +kernel

end Chronos.Packet
