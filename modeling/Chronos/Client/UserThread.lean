import Chronos.Client.ClientConnection

/-! # The loop of a client thread

`userTransactionThread` picks a transaction, sends the request and waits for its result, over and
over. The first client connects anew for every request, the second keeps one connection. Every ten
seconds the thread prints what it has counted.
-/
namespace Chronos.UserThread
open Foundation Benchmark Client Packet

abbrev CHRONOS_CLIENT_LOAD_ITERATIONS : ℕ := 10
abbrev CHRONOS_CLIENT_SAMPLING_INTERVAL : ℤ := 10

/-- What the loop reads of its context; `keepsConnection` is `startup_client_2.c`. -/
structure Context where
  serverAddress : Option CStr
  serverPort : ℤ
  percentageViewStockTransactions : ℤ
  clientCache : List ChronosClientPortfolio
  keepsConnection : Bool

/-- The type for what `rand` returns, twice; without a type the assertion fails. -/
def pickTransactionType (percentage : ℤ) (rand : ℕ × ℕ) : Option ℕ :=
  if ((rand.1 % 100 : ℕ) : ℤ) < percentage then some CHRONOS_USER_TXN_VIEW_STOCK
  else match rand.2 % (CHRONOS_USER_TXN_MAX - 1) with
    | 0 => some CHRONOS_USER_TXN_VIEW_PORTFOLIO
    | 1 => some CHRONOS_USER_TXN_PURCHASE
    | 2 => some CHRONOS_USER_TXN_SALE
    | _ => none

structure Stats where
  samplePeriod : ℕ
  cntTxns : ℕ
  cntSuccess : ℕ
  cntFail : ℕ
  cntViewStock : ℕ
  cntViewPortfolio : ℕ
  cntViewPurchase : ℕ
  cntViewSale : ℕ

inductive Status where
  | looping
  | waiting
  | crashed
  | killed
  | left
deriving DecidableEq

/-- `sent` are the types of the requests sent, `results` the codes that came back, `lines` the lines
printed, each with its time. -/
structure Thread extends Stats where
  status : Status
  endpoint : Endpoint
  inLoadPhase : Bool
  loadIterations : ℕ
  nextSampleTime : ℤ
  sent : List ℕ
  results : List ℤ
  lines : List (ℤ × Stats)

/-- What the calls of `write` come to. The signal of a broken pipe has no handler. -/
inductive WriteAnswer where
  | written
  | failed
  | brokenPipe
deriving DecidableEq

/-- What the calls of one round return: what `rand` gives for the type and for the items of the
request, whether there is memory for it, how it is written, and a result or none. -/
structure Round where
  connect : ConnectAnswers
  rand : ℕ × ℕ
  choices : ℕ → ℕ
  malloc : Bool
  write : WriteAnswer
  txnRc : Option ℤ
  now : ℤ
  timeToDie : Bool

/-- `chronosClientDisconnect`, which returns. -/
def Thread.disconnect (t : Thread) : Thread :=
  match chronosClientDisconnect t.endpoint with
  | .returned _ s => { t with endpoint := s }
  | .waiting => t
  | .crashed => t

def Thread.cleanup (t : Thread) : Thread := { t.disconnect with status := .left }

def Thread.connect (ctx : Context) (a : ConnectAnswers) (t : Thread)
    (k : Thread → Thread) : Thread :=
  match chronosClientConnect ctx.serverAddress ctx.serverPort none a t.endpoint with
  | .returned rc s =>
    if rc ≠ CHRONOS_SUCCESS then { t with endpoint := s }.cleanup else k { t with endpoint := s }
  | .waiting => { t with status := .waiting }
  | .crashed => { t with status := .crashed }

def Stats.countType (txnType : ℕ) (l : Stats) : Stats :=
  if txnType = CHRONOS_USER_TXN_VIEW_STOCK then { l with cntViewStock := l.cntViewStock + 1 }
  else if txnType = CHRONOS_USER_TXN_VIEW_PORTFOLIO then
    { l with cntViewPortfolio := l.cntViewPortfolio + 1 }
  else if txnType = CHRONOS_USER_TXN_PURCHASE then
    { l with cntViewPurchase := l.cntViewPurchase + 1 }
  else if txnType = CHRONOS_USER_TXN_SALE then { l with cntViewSale := l.cntViewSale + 1 }
  else l

def Stats.countResult (rc : ℤ) (l : Stats) : Stats :=
  if rc = 0 then { l with cntSuccess := l.cntSuccess + 1 } else { l with cntFail := l.cntFail + 1 }

def Thread.sample (now : ℤ) (t : Thread) : Thread :=
  if t.nextSampleTime ≤ now then
    { t with
      samplePeriod := t.samplePeriod + 1
      lines := t.lines ++ [(now, { t.toStats with samplePeriod := t.samplePeriod + 1 })]
      nextSampleTime := now + CHRONOS_CLIENT_SAMPLING_INTERVAL }
  else t

def Thread.finish (ctx : Context) (a : Round) (t : Thread) : Thread :=
  let closed := if ctx.keepsConnection then t else t.disconnect
  let sampled := closed.sample a.now
  if a.timeToDie then sampled.cleanup else sampled

/-- The request is written and its result received. -/
def Thread.send (ctx : Context) (a : Round) (txnType : ℕ) (t : Thread) : Thread :=
  if t.endpoint.handle.state ≠ .connected then t.cleanup
  else match a.write with
    | .failed => t.cleanup
    | .brokenPipe => { t with status := .killed }
    | .written =>
      let counted := { t with cntTxns := t.cntTxns + 1, sent := t.sent ++ [txnType] }
      match a.txnRc with
      | none => counted.cleanup
      | some rc =>
        { counted with toStats := counted.toStats.countResult rc, results :=
          counted.results ++ [rc] }.finish ctx a

/-- The request is made and sent; `strncpy` from a NULL string crashes. -/
def Thread.exchange (ctx : Context) (a : Round) (txnType : ℕ) (t : Thread) : Thread :=
  if a.malloc = false then t.cleanup
  else match chronosRequestCreate txnType ctx.clientCache a.choices with
    | none => { t with status := .crashed }
    | some _ => t.send ctx a txnType

def Thread.request (ctx : Context) (a : Round) (t : Thread) : Thread :=
  let loadIterations := t.loadIterations + 1
  let inLoadPhase := if CHRONOS_CLIENT_LOAD_ITERATIONS ≤ loadIterations then false
    else t.inLoadPhase
  let warm := { t with loadIterations := loadIterations, inLoadPhase := inLoadPhase }
  if inLoadPhase then
    { warm with cntViewPurchase := warm.cntViewPurchase + 1 }.exchange ctx a
      CHRONOS_USER_TXN_PURCHASE
  else match pickTransactionType ctx.percentageViewStockTransactions a.rand with
    | none => { warm with status := .crashed }
    | some txnType => { warm with toStats := warm.toStats.countType txnType }.exchange ctx a txnType

def Thread.round (ctx : Context) (t : Thread) (a : Round) : Thread :=
  if t.status ≠ .looping then t
  else if ctx.keepsConnection then t.request ctx a
  else t.connect ctx a.connect (Thread.request ctx a)

def Thread.start (ctx : Context) (now : ℤ) (a : ConnectAnswers) : Thread :=
  let t : Thread := {
    samplePeriod := 0, cntTxns := 0, cntSuccess := 0, cntFail := 0, cntViewStock :=
      0, cntViewPortfolio := 0
    cntViewPurchase := 0, cntViewSale := 0, status := .looping, endpoint :=
      chronosConnHandleAlloc, inLoadPhase := true
    loadIterations := 0, nextSampleTime := now + CHRONOS_CLIENT_SAMPLING_INTERVAL, sent :=
      [], results := [], lines := [] }
  if ctx.keepsConnection then t.connect ctx a id else t

def userTransactionThread (ctx : Context) (now : ℤ) (a : ConnectAnswers)
    (rounds : List Round) : Thread :=
  rounds.foldl (Thread.round ctx) (.start ctx now a)

/-! ## What the lines say -/

structure Stats.Of (sent : List ℕ) (results : List ℤ) (l : Stats) : Prop where
  txns : l.cntTxns = sent.length
  answered : results.length = sent.length
  success : l.cntSuccess = results.count 0
  outcomes : l.cntTxns = l.cntSuccess + l.cntFail
  viewStock : l.cntViewStock = sent.count CHRONOS_USER_TXN_VIEW_STOCK
  viewPortfolio : l.cntViewPortfolio = sent.count CHRONOS_USER_TXN_VIEW_PORTFOLIO
  viewPurchase : l.cntViewPurchase = sent.count CHRONOS_USER_TXN_PURCHASE
  viewSale : l.cntViewSale = sent.count CHRONOS_USER_TXN_SALE
  kinds : l.cntTxns = l.cntViewStock + l.cntViewPortfolio + l.cntViewPurchase + l.cntViewSale

/-- Each line has the next number and counts all requests up to some one; ten seconds lie between
two lines; and the first nine requests are purchases. -/
structure Thread.Reports (t : Thread) : Prop where
  numbered : t.lines.map (fun l => l.2.samplePeriod) = List.range' 1 t.lines.length
  counted : ∀ l ∈ t.lines, l.2.cntTxns ≤ t.results.length ∧
    l.2.Of (t.sent.take l.2.cntTxns) (t.results.take l.2.cntTxns)
  spaced : t.lines.Pairwise fun l l' => l.1 + CHRONOS_CLIENT_SAMPLING_INTERVAL ≤ l'.1
  warmUp : ∀ txnType ∈ t.sent.take (CHRONOS_CLIENT_LOAD_ITERATIONS - 1), txnType =
    CHRONOS_USER_TXN_PURCHASE
  answered : t.results.length ≤ t.sent.length ∧ t.sent.length ≤ t.results.length + 1

structure Thread.Ready (t : Thread) : Prop where
  reports : t.Reports
  stats : t.toStats.Of t.sent t.results
  period : t.samplePeriod = t.lines.length
  due : ∀ l ∈ t.lines, l.1 + CHRONOS_CLIENT_SAMPLING_INTERVAL ≤ t.nextSampleTime
  rounds : t.loadIterations = t.sent.length
  phase : t.inLoadPhase = true ↔ t.sent.length < CHRONOS_CLIENT_LOAD_ITERATIONS

variable {ctx : Context} {t t' : Thread} {a : Round} {txnType : ℕ}

theorem pickTransactionType_valid (percentage : ℤ) (rand : ℕ × ℕ) :
    ∃ txnType, pickTransactionType percentage rand = some txnType ∧
      txnType < CHRONOS_USER_TXN_MAX := by
  unfold pickTransactionType
  split
  · exact ⟨_, rfl, by decide⟩
  · have hlt : rand.2 % (CHRONOS_USER_TXN_MAX - 1) < 3 := Nat.mod_lt _ (by decide)
    generalize rand.2 % (CHRONOS_USER_TXN_MAX - 1) = r at hlt
    interval_cases r
    · exact ⟨_, rfl, by decide⟩
    · exact ⟨_, rfl, by decide⟩
    · exact ⟨_, rfl, by decide⟩

theorem Stats.Of.next {sent : List ℕ} {results : List ℤ} {l : Stats} (h : l.Of sent results)
    (htype : txnType < CHRONOS_USER_TXN_MAX) (rc : ℤ) :
    ({ l.countType txnType with cntTxns := (l.countType txnType).cntTxns + 1 }.countResult rc).Of
      (sent ++ [txnType]) (results ++ [rc]) := by
  obtain ⟨htxns, hanswered, hsuccess, houtcomes, hvs, hvp, hpu, hsa, hkinds⟩ := h
  simp only [Stats.countResult, Stats.countType]
  interval_cases txnType <;> by_cases hrc : rc = 0 <;>
    refine ⟨?_, ?_, ?_, ?_, ?_, ?_, ?_, ?_, ?_⟩ <;>
    simp [List.count_append, *] <;> omega

theorem Stats.Of.congr {sent : List ℕ} {results : List ℤ} {l l' : Stats} (h : l.Of sent results)
    (hl : { l with samplePeriod := 0 } = { l' with samplePeriod := 0 }) : l'.Of sent results := by
  obtain ⟨n, a, b, c, d, e, f, g⟩ := l
  obtain ⟨n', a', b', c', d', e', f', g'⟩ := l'
  simp only [Stats.mk.injEq, true_and] at hl
  obtain ⟨rfl, rfl, rfl, rfl, rfl, rfl, rfl⟩ := hl
  exact ⟨h.txns, h.answered, h.success, h.outcomes, h.viewStock, h.viewPortfolio, h.viewPurchase,
    h.viewSale, h.kinds⟩

theorem disconnect_eq (t : Thread) : ∃ e, t.disconnect = { t with endpoint := e } := by
  unfold Thread.disconnect chronosClientDisconnect
  by_cases h : t.endpoint.handle.state = .connected
  · rw [if_pos h]
    exact ⟨_, rfl⟩
  · rw [if_neg h]
    exact ⟨_, rfl⟩

theorem cleanup_eq (t : Thread) : ∃ e, t.cleanup = { t with status := .left, endpoint := e } := by
  obtain ⟨e, he⟩ := disconnect_eq t
  exact ⟨e, by rw [Thread.cleanup, he]⟩

theorem Thread.Reports.congr (h : t.Reports) (hsent : t'.sent = t.sent)
    (hresults : t'.results = t.results) (hlines : t'.lines = t.lines) : t'.Reports := by
  obtain ⟨hnumbered, hcounted, hspaced, hwarmUp, hanswered⟩ := h
  rw [← hlines] at hnumbered hcounted hspaced
  rw [← hsent] at hcounted hwarmUp hanswered
  rw [← hresults] at hcounted hanswered
  exact ⟨hnumbered, hcounted, hspaced, hwarmUp, hanswered⟩

theorem Thread.Reports.cleanup (h : t.Reports) : t.cleanup.Reports := by
  obtain ⟨e, he⟩ := cleanup_eq t
  rw [he]
  exact h.congr rfl rfl rfl

theorem Thread.Reports.sends (h : t.Reports) (hready : t.results.length = t.sent.length)
    (hwarm : t.sent.length + 1 < CHRONOS_CLIENT_LOAD_ITERATIONS →
      txnType = CHRONOS_USER_TXN_PURCHASE)
    (hsent : t'.sent = t.sent ++ [txnType])
    (hresults : t'.results = t.results ∨ ∃ rc, t'.results = t.results ++ [rc])
    (hlines : t'.lines = t.lines) : t'.Reports where
  numbered := hlines ▸ h.numbered
  counted l hl := by
    obtain ⟨hle, hof⟩ := h.counted l (hlines ▸ hl)
    have htake : t'.results.take l.2.cntTxns = t.results.take l.2.cntTxns ∧
      t.results.length ≤ t'.results.length := by
      rcases hresults with heq | ⟨rc, heq⟩
      · rw [heq]
        exact ⟨rfl, le_rfl⟩
      · rw [heq, List.take_append_of_le_length hle, List.length_append]
        exact ⟨rfl, Nat.le_add_right _ _⟩
    rw [htake.1, hsent, List.take_append_of_le_length (hready ▸ hle)]
    exact ⟨hle.trans htake.2, hof⟩
  spaced := hlines ▸ h.spaced
  warmUp ty hty := by
    rw [hsent, List.take_append, List.mem_append] at hty
    rcases hty with hold | hnew
    · exact h.warmUp ty hold
    · by_cases hlt : t.sent.length + 1 < CHRONOS_CLIENT_LOAD_ITERATIONS
      · rw [List.mem_singleton.mp (List.mem_of_mem_take hnew)]
        exact hwarm hlt
      · rw [Nat.sub_eq_zero_of_le (by omega)] at hnew
        cases hnew
  answered := by
    rcases hresults with heq | ⟨rc, heq⟩ <;> rw [heq, hsent] <;>
      simp only [List.length_append, List.length_singleton] <;> omega

theorem Thread.Ready.sample (h : t.Ready) (now : ℤ) : (t.sample now).Ready := by
  unfold Thread.sample
  split
  · rename_i hdue
    have hnumber : t.samplePeriod + 1 = 1 + 1 * t.lines.length := by rw [h.period]; omega
    refine ⟨⟨?_, fun l hl => ?_, ?_, h.reports.warmUp, h.reports.answered⟩, h.stats.congr rfl, ?_,
      fun l hl => ?_, h.rounds, h.phase⟩
    · rw [List.map_append, h.reports.numbered, List.length_append, List.length_singleton,
        List.range'_concat]
      exact congrArg (fun n => List.range' 1 t.lines.length ++ [n]) hnumber
    · rcases List.mem_append.mp hl with hold | hnew
      · exact h.reports.counted l hold
      · rw [List.mem_singleton.mp hnew]
        refine ⟨(h.stats.txns.trans h.stats.answered.symm).le, ?_⟩
        rw [List.take_of_length_le h.stats.txns.ge,
          List.take_of_length_le (h.stats.txns.trans h.stats.answered.symm).ge]
        exact h.stats.congr rfl
    · refine List.pairwise_append.mpr ⟨h.reports.spaced, List.pairwise_singleton ..,
        fun l hl l' hl' => ?_⟩
      rw [List.mem_singleton.mp hl']
      exact (h.due l hl).trans hdue
    · simp [h.period]
    · rcases List.mem_append.mp hl with hold | hnew
      · exact ((h.due l hold).trans hdue).trans (by simp)
      · rw [List.mem_singleton.mp hnew]
  · exact h

theorem Thread.Ready.withEndpoint (h : t.Ready) (e : Endpoint) : { t with endpoint := e }.Ready :=
  ⟨h.reports.congr rfl rfl rfl, h.stats, h.period, h.due, h.rounds, h.phase⟩

/-- The thread is done with its loop, or at the start of a round. -/
def Thread.Good (t : Thread) : Prop := t.Reports ∧ (t.status = .looping → t.Ready)

theorem Thread.Reports.good_cleanup (h : t.Reports) : t.cleanup.Good := by
  refine ⟨h.cleanup, fun hloops => ?_⟩
  obtain ⟨e, he⟩ := cleanup_eq t
  rw [he] at hloops
  cases hloops

theorem Thread.Ready.finish (h : t.Ready) : (t.finish ctx a).Good := by
  have hclosed : (if ctx.keepsConnection then t else t.disconnect).Ready := by
    split
    · exact h
    · obtain ⟨e, he⟩ := disconnect_eq t
      rw [he]
      exact h.withEndpoint e
  unfold Thread.finish
  have hsampled := hclosed.sample a.now
  simp only
  split
  · exact hsampled.reports.good_cleanup
  · exact ⟨hsampled.reports, fun _ => hsampled⟩

theorem countType_samplePeriod (txnType : ℕ) (l : Stats) :
    (l.countType txnType).samplePeriod = l.samplePeriod := by
  unfold Stats.countType
  split_ifs <;> rfl

theorem countResult_samplePeriod (rc : ℤ) (l : Stats) :
    (l.countResult rc).samplePeriod = l.samplePeriod := by
  unfold Stats.countResult
  split_ifs <;> rfl

/-! ## A round -/

/-- The request is counted before it is sent, and the result when it comes. -/
theorem Thread.Ready.exchange (h : t.Ready) {inLoadPhase : Bool}
    (htype : txnType < CHRONOS_USER_TXN_MAX)
    (hphase : inLoadPhase = true ↔ t.sent.length + 1 < CHRONOS_CLIENT_LOAD_ITERATIONS)
    (hwarm : inLoadPhase = true → txnType = CHRONOS_USER_TXN_PURCHASE) :
    ({ t with
      toStats := t.toStats.countType txnType
      loadIterations := t.loadIterations + 1
      inLoadPhase := inLoadPhase }.exchange ctx a txnType).Good := by
  have hwarm' := fun hlt => hwarm (hphase.mpr hlt)
  unfold Thread.exchange
  by_cases hmalloc : a.malloc = false
  · rw [if_pos hmalloc]
    exact Thread.Reports.good_cleanup (h.reports.congr rfl rfl rfl)
  rw [if_neg hmalloc]
  cases chronosRequestCreate txnType ctx.clientCache a.choices with
  | none => exact ⟨h.reports.congr rfl rfl rfl, fun hloops => (nomatch hloops)⟩
  | some packet =>
  unfold Thread.send
  by_cases hstate : t.endpoint.handle.state ≠ .connected
  · rw [if_pos hstate]
    exact Thread.Reports.good_cleanup (h.reports.congr rfl rfl rfl)
  rw [if_neg hstate]
  cases a.write with
  | failed => exact Thread.Reports.good_cleanup (h.reports.congr rfl rfl rfl)
  | brokenPipe => exact ⟨h.reports.congr rfl rfl rfl, fun hloops => (nomatch hloops)⟩
  | written =>
  cases a.txnRc with
  | none =>
    exact Thread.Reports.good_cleanup (h.reports.sends h.stats.answered hwarm' rfl (.inl rfl) rfl)
  | some rc =>
    refine Thread.Ready.finish ⟨h.reports.sends h.stats.answered hwarm' rfl (.inr ⟨rc, rfl⟩) rfl,
      h.stats.next htype rc, ?_, h.due, ?_, ?_⟩
    · exact (countResult_samplePeriod ..).trans ((countType_samplePeriod ..).trans h.period)
    · simp [h.rounds]
    · rw [hphase]
      simp

theorem Thread.Ready.request (h : t.Ready) : (t.request ctx a).Good := by
  have hphase : (if CHRONOS_CLIENT_LOAD_ITERATIONS ≤ t.loadIterations + 1 then false
    else t.inLoadPhase) = true ↔
      t.sent.length + 1 < CHRONOS_CLIENT_LOAD_ITERATIONS := by
    rw [h.rounds]
    split
    · simp; omega
    · rw [h.phase]
      omega
  unfold Thread.request
  simp only
  generalize (if CHRONOS_CLIENT_LOAD_ITERATIONS ≤ t.loadIterations + 1 then false
    else t.inLoadPhase) = inLoadPhase at hphase ⊢
  cases inLoadPhase with
  | true => exact h.exchange (by decide) hphase fun _ => rfl
  | false =>
    obtain ⟨txnType, hpick, htype⟩ :=
      pickTransactionType_valid ctx.percentageViewStockTransactions a.rand
    rw [hpick]
    exact h.exchange htype hphase fun hload => nomatch hload

theorem Thread.Ready.connect (h : t.Ready) {answers : ConnectAnswers} {k : Thread → Thread}
    (hk : ∀ e, ({ t with endpoint := e } : Thread).Ready → (k { t with endpoint := e }).Good) :
    (t.connect ctx answers k).Good := by
  unfold Thread.connect
  cases chronosClientConnect ctx.serverAddress ctx.serverPort none answers t.endpoint with
  | returned rc e =>
    have he := h.withEndpoint e
    by_cases hrc : rc = CHRONOS_SUCCESS
    · simpa only [hrc, ne_eq, not_true_eq_false, if_false] using hk e he
    · simpa only [hrc, ne_eq, not_false_eq_true, if_true] using he.reports.good_cleanup
  | waiting => exact ⟨h.reports.congr rfl rfl rfl, fun hloops => nomatch hloops⟩
  | crashed => exact ⟨h.reports.congr rfl rfl rfl, fun hloops => nomatch hloops⟩

theorem Thread.Good.round (h : t.Good) (a : Round) : (t.round ctx a).Good := by
  unfold Thread.round
  by_cases hloops : t.status = .looping
  · rw [if_neg (not_not.mpr hloops)]
    split
    · exact (h.2 hloops).request
    · exact (h.2 hloops).connect fun e he => he.request
  · rw [if_pos hloops]
    exact h

theorem good_start (ctx : Context) (now : ℤ) (answers : ConnectAnswers) :
    (Thread.start ctx now answers).Good := by
  have hready : (Thread.start { ctx with keepsConnection := false } now answers).Ready := by
    refine ⟨⟨rfl, ?_, List.Pairwise.nil, ?_, ?_⟩, ⟨rfl, rfl, rfl, rfl, rfl, rfl, rfl, rfl, rfl⟩,
      rfl, ?_, rfl, ?_⟩
    · exact fun l hl => nomatch hl
    · exact fun l hl => nomatch hl
    · exact ⟨le_rfl, Nat.zero_le _⟩
    · exact fun l hl => nomatch hl
    · exact iff_of_true rfl (Nat.zero_lt_succ 9)
  unfold Thread.start
  simp only
  split
  · exact hready.connect fun e he => ⟨he.reports, fun _ => he⟩
  · exact ⟨hready.reports, fun _ => hready⟩

/-- Whatever the calls return and however long the thread goes on, every line that it has printed
counts the requests sent so far, by type and by outcome; the first nine are purchases, and ten
seconds lie between two lines. -/
theorem lines_count_requests (ctx : Context) (now : ℤ) (answers : ConnectAnswers)
    (rounds : List Round) : (userTransactionThread ctx now answers rounds).Reports := by
  suffices h : (userTransactionThread ctx now answers rounds).Good from h.1
  unfold userTransactionThread
  have hstart := good_start ctx now answers
  generalize Thread.start ctx now answers = t at hstart
  induction rounds generalizing t with
  | nil => exact hstart
  | cons a rounds ih => exact ih _ (hstart.round a)

/-! ## The sockets of the thread -/

def Thread.Rests (sockets : List ℤ) (t : Thread) : Prop :=
  t.endpoint.handle.state = .disconnected ∧ t.endpoint.openSockets = sockets

def Thread.Connected (t : Thread) : Prop :=
  t.endpoint.handle.state = .connected ∧ t.endpoint.openSockets = [t.endpoint.handle.socketFd]

def Refused (a : ConnectAnswers) : Prop := a.socket ≠ -1 ∧ ¬ a.Established

/-- Every portfolio names its user and stocks, so that no request copies a NULL string. -/
def Packable (clientCache : List ChronosClientPortfolio) : Prop :=
  clientCache ≠ [] ∧ ∀ u ∈ clientCache, u.user.isSome = true ∧ u.stockInfoArr ≠ [] ∧
    ∀ info ∈ u.stockInfoArr, info.symbol.isSome = true

/-- At the start of a round the first client has no socket open and the second that of its
connection. A thread that has left has closed every socket but that of a connect that was refused.
Only invalid arguments and a string missing from the portfolios make it crash, and only a write to a
connection that the server has closed kills it. -/
structure Thread.Sockets (ctx : Context) (answers : ConnectAnswers) (rounds : List Round)
    (t : Thread) : Prop where
  looping : t.status = .looping → if ctx.keepsConnection then t.Connected else t.Rests []
  left : t.status = .left →
    t.Rests [] ∨ ∃ a ∈ answers :: rounds.map Round.connect, Refused a ∧ t.Rests [a.socket]
  crashed : t.status = .crashed → ctx.serverAddress = none ∨ ctx.serverPort = 0 ∨
    ¬ Packable ctx.clientCache
  killed : t.status = .killed → ∃ a ∈ rounds, a.write = .brokenPipe

variable {answers : ConnectAnswers} {rounds : List Round}

theorem Packable.pickUser {clientCache : List ChronosClientPortfolio} (h : Packable clientCache)
    (r : ℕ) : ∃ u ∈ clientCache, Client.pickUser clientCache r = some u :=
  have hlt : r % clientCache.length < clientCache.length :=
    Nat.mod_lt _ (List.length_pos_iff.mpr h.1)
  ⟨_, List.getElem_mem hlt, List.getElem?_eq_getElem hlt⟩

theorem Packable.pickSymbol {clientCache : List ChronosClientPortfolio} (h : Packable clientCache)
    {u : ChronosClientPortfolio} (hu : u ∈ clientCache) (r : ℕ) :
    ∃ info s, Client.pickSymbol u r = some info ∧ info.symbol = some s := by
  obtain ⟨-, hne, hsymbols⟩ := h.2 u hu
  have hlt : r % u.stockInfoArr.length < u.stockInfoArr.length :=
    Nat.mod_lt _ (List.length_pos_iff.mpr hne)
  obtain ⟨s, hs⟩ := Option.isSome_iff_exists.mp (hsymbols _ (List.getElem_mem hlt))
  exact ⟨_, s, List.getElem?_eq_getElem hlt, hs⟩

theorem Packable.viewStockItem {clientCache : List ChronosClientPortfolio}
    (h : Packable clientCache) {u : ChronosClientPortfolio} (hu : u ∈ clientCache) (rand : ℕ → ℕ)
    (i : ℕ) : ∃ item, Client.viewStockItem u rand i = some item := by
  obtain ⟨info, s, hinfo, hs⟩ := h.pickSymbol hu (rand (1 + i))
  exact ⟨_, by rw [Client.viewStockItem, hinfo, Option.bind_some, hs]; rfl⟩

theorem Packable.viewPortfolioItem {clientCache : List ChronosClientPortfolio}
    (h : Packable clientCache) (rand : ℕ → ℕ) (i : ℕ) :
    ∃ item, Client.viewPortfolioItem clientCache rand i = some item := by
  obtain ⟨u, hu, hpick⟩ := h.pickUser (rand i)
  obtain ⟨user, huser⟩ := Option.isSome_iff_exists.mp (h.2 u hu).1
  exact ⟨_, by rw [Client.viewPortfolioItem, hpick, Option.bind_some, huser]; rfl⟩

theorem Packable.tradeItem {clientCache : List ChronosClientPortfolio} (h : Packable clientCache)
    (price rand : ℕ → ℕ) (i : ℕ) :
    ∃ item, Client.tradeItem packTrade price clientCache rand i = some item := by
  obtain ⟨u, hu, hpick⟩ := h.pickUser (rand (3 * i))
  obtain ⟨info, s, hinfo, hs⟩ := h.pickSymbol hu (rand (3 * i + 1))
  obtain ⟨user, huser⟩ := Option.isSome_iff_exists.mp (h.2 u hu).1
  rw [Client.tradeItem, hpick, Option.bind_some, hinfo, Option.bind_some, packTrade, huser, hs,
    Option.bind_some]
  exact ⟨_, rfl⟩

theorem Packable.create {clientCache : List ChronosClientPortfolio} (h : Packable clientCache)
    (htype : txnType < CHRONOS_USER_TXN_MAX) (rand : ℕ → ℕ) :
    ∃ packet, chronosRequestCreate txnType clientCache rand = some packet := by
  suffices hitems : ∃ items, requestItems txnType clientCache rand = some items by
    obtain ⟨items, hitems⟩ := hitems
    exact ⟨_, by rw [chronosRequestCreate, hitems]; rfl⟩
  unfold requestItems
  interval_cases txnType
  · obtain ⟨u, hu, hpick⟩ := h.pickUser (rand 0)
    obtain ⟨items, hitems⟩ := mapM_total (l := List.range NUM_DATA_ITEMS)
      fun i _ => h.viewStockItem hu rand i
    exact ⟨items, by rw [if_pos rfl, hpick]; exact hitems⟩
  · exact mapM_total fun i _ => h.viewPortfolioItem rand i
  · exact mapM_total fun i _ => h.tradeItem (· + 10) rand i
  · exact mapM_total fun i _ => h.tradeItem (· - 10) rand i

theorem Thread.Rests.disconnect {sockets : List ℤ} (h : t.Rests sockets) :
    t.disconnect.Rests sockets := by
  have hstate : t.endpoint.handle.state ≠ .connected := by rw [h.1]; decide
  unfold Thread.disconnect chronosClientDisconnect
  rw [if_neg hstate]
  exact ⟨rfl, h.2⟩

theorem Thread.Connected.disconnect (h : t.Connected) : t.disconnect.Rests [] := by
  unfold Thread.disconnect chronosClientDisconnect
  rw [if_pos h.1]
  exact ⟨rfl, by rw [h.2, List.erase_cons_head]⟩

theorem sockets_of_looping (hloops : t.status = .looping)
    (h : if ctx.keepsConnection then t.Connected else t.Rests []) :
    t.Sockets ctx answers rounds where
  looping _ := h
  left hs := by rw [hloops] at hs; cases hs
  crashed hs := by rw [hloops] at hs; cases hs
  killed hs := by rw [hloops] at hs; cases hs

theorem sockets_of_left (hleft : t.status = .left)
    (h : t.Rests [] ∨ ∃ a ∈ answers :: rounds.map Round.connect, Refused a ∧ t.Rests [a.socket]) :
    t.Sockets ctx answers rounds where
  looping hs := by rw [hleft] at hs; cases hs
  left _ := h
  crashed hs := by rw [hleft] at hs; cases hs
  killed hs := by rw [hleft] at hs; cases hs

theorem Thread.Connected.cleanup (h : t.Connected) : t.cleanup.Sockets ctx answers rounds :=
  sockets_of_left rfl (.inl h.disconnect)

theorem disconnect_status (t : Thread) : t.disconnect.status = t.status := by
  obtain ⟨e, he⟩ := disconnect_eq t
  rw [he]

theorem sample_eq (t : Thread) (now : ℤ) :
    (t.sample now).endpoint = t.endpoint ∧ (t.sample now).status = t.status := by
  unfold Thread.sample
  split
  · exact ⟨rfl, rfl⟩
  · exact ⟨rfl, rfl⟩

theorem Thread.Connected.finish (h : t.Connected) (hloops : t.status = .looping) :
    (t.finish ctx a).Sockets ctx answers rounds := by
  unfold Thread.finish
  cases hkeeps : ctx.keepsConnection with
  | true =>
    obtain ⟨hendpoint, hstatus⟩ := sample_eq t a.now
    have hconnected : (t.sample a.now).Connected := by rwa [Thread.Connected, hendpoint]
    simp only [if_true]
    split
    · exact hconnected.cleanup
    · exact sockets_of_looping (hstatus.trans hloops) (by rwa [hkeeps, if_pos rfl])
  | false =>
    obtain ⟨hendpoint, hstatus⟩ := sample_eq t.disconnect a.now
    have hrests : (t.disconnect.sample a.now).Rests [] := by
      rw [Thread.Rests, hendpoint]
      exact h.disconnect
    simp only [Bool.false_eq_true, if_false]
    split
    · exact sockets_of_left rfl (.inl hrests.disconnect)
    · rw [disconnect_status, hloops] at hstatus
      exact sockets_of_looping hstatus (by rwa [hkeeps, if_neg Bool.false_ne_true])

theorem Thread.Connected.send (h : t.Connected) (hloops : t.status = .looping) (hmem : a ∈ rounds) :
    (t.send ctx a txnType).Sockets ctx answers rounds := by
  unfold Thread.send
  rw [if_neg (not_not.mpr h.1)]
  cases hwrite : a.write with
  | failed => exact h.cleanup
  | brokenPipe =>
    exact ⟨fun hs => (nomatch hs), fun hs => (nomatch hs),
      fun hs => (nomatch hs), fun _ => ⟨a, hmem, hwrite⟩⟩
  | written =>
    cases a.txnRc with
    | none => exact Thread.Connected.cleanup h
    | some rc => exact Thread.Connected.finish h hloops

theorem Thread.Connected.exchange (h : t.Connected) (hloops : t.status = .looping)
    (hmem : a ∈ rounds) (htype : txnType < CHRONOS_USER_TXN_MAX) :
    (t.exchange ctx a txnType).Sockets ctx answers rounds := by
  unfold Thread.exchange
  by_cases hmalloc : a.malloc = false
  · rw [if_pos hmalloc]
    exact h.cleanup
  rw [if_neg hmalloc]
  cases hcreate : chronosRequestCreate txnType ctx.clientCache a.choices with
  | some packet => exact h.send hloops hmem
  | none =>
    refine ⟨fun hs => (nomatch hs), fun hs => (nomatch hs),
      fun _ => .inr (.inr fun hpackable => ?_), fun hs => (nomatch hs)⟩
    obtain ⟨packet, hpacket⟩ := hpackable.create htype a.choices
    rw [hcreate] at hpacket
    cases hpacket

theorem Thread.Connected.request (h : t.Connected) (hloops : t.status = .looping)
    (hmem : a ∈ rounds) : (t.request ctx a).Sockets ctx answers rounds := by
  obtain ⟨txnType, hpick, htype⟩ :=
    pickTransactionType_valid ctx.percentageViewStockTransactions a.rand
  unfold Thread.request
  simp only [hpick]
  generalize (if CHRONOS_CLIENT_LOAD_ITERATIONS ≤ t.loadIterations + 1 then false
    else t.inLoadPhase) = inLoadPhase
  cases inLoadPhase with
  | true => exact Thread.Connected.exchange h hloops hmem (by decide)
  | false => exact Thread.Connected.exchange h hloops hmem htype

theorem connect_cases {serverAddress : Option CStr} {serverPort : ℤ} {answers : ConnectAnswers}
    {s e : Endpoint} {rc : ℤ} (hstate : s.handle.state = .disconnected) (hopen : s.openSockets = [])
    (h : chronosClientConnect serverAddress serverPort none answers s = .returned rc e) :
    rc = CHRONOS_SUCCESS ∧ e.handle.state = .connected ∧ e.openSockets = [e.handle.socketFd] ∨
      rc = CHRONOS_FAIL ∧ e.handle.state = .disconnected ∧
        (e.openSockets = [] ∨ Refused answers ∧ e.openSockets = [answers.socket]) := by
  cases serverAddress with
  | none => cases h
  | some address =>
    by_cases hport : serverPort = 0
    · simp only [chronosClientConnect, if_pos hport] at h
      cases h
    by_cases hsocket : answers.socket = -1
    · rw [connect_noSocket hport hstate hsocket] at h
      cases h
      exact .inr ⟨rfl, rfl, .inl hopen⟩
    by_cases hestablished : answers.Established
    · have hmade : chronosClientConnect (some address) serverPort none answers s =
          connectSucceeds answers.socket (s.opened address serverPort none answers.socket) ∨
          chronosClientConnect (some address) serverPort none answers s = .waiting :=
        connect_established hport hstate hsocket hestablished
      rcases hmade with heq | heq
      · rw [heq] at h
        cases h
        exact .inl ⟨rfl, rfl, by rw [Endpoint.opened, hopen]⟩
      · rw [heq] at h
        cases h
    · rw [connect_failed hport hstate hsocket hestablished] at h
      cases h
      exact .inr ⟨rfl, rfl, .inr ⟨⟨hsocket, hestablished⟩, by rw [Endpoint.opened, hopen]⟩⟩

theorem crashed_arguments {serverAddress : Option CStr} {serverPort : ℤ} {answers : ConnectAnswers}
    {s : Endpoint} (h : chronosClientConnect serverAddress serverPort none answers s = .crashed) :
    serverAddress = none ∨ serverPort = 0 := by
  cases serverAddress with
  | none => exact .inl rfl
  | some address =>
    by_contra hn
    have hport : ¬ serverPort = 0 := fun hp => hn (.inr hp)
    simp only [chronosClientConnect, if_neg hport, connectFailXit, connectSucceeds] at h
    split_ifs at h
    split at h <;> cases h

theorem Thread.Rests.connect (h : t.Rests []) {c : ConnectAnswers}
    (hmem : c ∈ answers :: rounds.map Round.connect) {k : Thread → Thread}
    (hk : ∀ e, ({ t with endpoint := e } : Thread).Connected →
      (k { t with endpoint := e }).Sockets ctx answers rounds) :
    (t.connect ctx c k).Sockets ctx answers rounds := by
  unfold Thread.connect
  cases hconnect : chronosClientConnect ctx.serverAddress ctx.serverPort none c t.endpoint with
  | returned rc e =>
    rcases connect_cases h.1 h.2 hconnect with ⟨rfl, hconnected⟩ | ⟨rfl, hstate, hopen⟩
    · exact hk e hconnected
    · have hrests := Thread.Rests.disconnect (t := { t with endpoint := e }) ⟨hstate, rfl⟩
      refine sockets_of_left rfl ?_
      rcases hopen with hnone | ⟨hrefused, hone⟩
      · exact .inl ⟨hrests.1, hrests.2.trans hnone⟩
      · exact .inr ⟨c, hmem, hrefused, hrests.1, hrests.2.trans hone⟩
  | waiting =>
    exact ⟨fun hs => (nomatch hs), fun hs => (nomatch hs), fun hs => (nomatch hs),
      fun hs => (nomatch hs)⟩
  | crashed =>
    refine ⟨fun hs => (nomatch hs), fun hs => (nomatch hs), fun _ => ?_, fun hs => (nomatch hs)⟩
    exact (crashed_arguments hconnect).imp_right .inl

theorem Thread.Sockets.round (h : t.Sockets ctx answers rounds) (hmem : a ∈ rounds) :
    (t.round ctx a).Sockets ctx answers rounds := by
  unfold Thread.round
  by_cases hloops : t.status = .looping
  · rw [if_neg (not_not.mpr hloops)]
    have hsockets := h.looping hloops
    split
    · rw [if_pos ‹_›] at hsockets
      exact hsockets.request hloops hmem
    · rw [if_neg ‹_›] at hsockets
      exact hsockets.connect (List.mem_cons_of_mem _ (List.mem_map_of_mem hmem))
        fun e he => he.request hloops hmem
  · rw [if_pos hloops]
    exact h

theorem sockets_start (ctx : Context) (now : ℤ) (answers : ConnectAnswers) (rounds : List Round) :
    (Thread.start ctx now answers).Sockets ctx answers rounds := by
  unfold Thread.start
  simp only
  split
  · exact Thread.Rests.connect ⟨rfl, rfl⟩ List.mem_cons_self
      fun e he => sockets_of_looping rfl (by rwa [if_pos ‹_›])
  · exact sockets_of_looping rfl (by rw [if_neg ‹_›]; exact ⟨rfl, rfl⟩)

/-- Between its rounds the thread of the first client has no socket open, that of the second the one
of its connection, and a thread that has left has at most the socket of a refused connect. -/
theorem sockets_closed (ctx : Context) (now : ℤ) (answers : ConnectAnswers) (rounds : List Round) :
    (userTransactionThread ctx now answers rounds).Sockets ctx answers rounds := by
  suffices h : ∀ (rs : List Round) (t : Thread), (∀ a ∈ rs, a ∈ rounds) →
    t.Sockets ctx answers rounds →
      (rs.foldl (Thread.round ctx) t).Sockets ctx answers rounds from
    h rounds _ (fun a ha => ha) (sockets_start ctx now answers rounds)
  intro rs
  induction rs with
  | nil => exact fun t _ ht => ht
  | cons a rs ih =>
    exact fun t hmem ht => ih _ (fun a' ha' => hmem a' (List.mem_cons_of_mem _ ha'))
      (ht.round (hmem a List.mem_cons_self))

end Chronos.UserThread
