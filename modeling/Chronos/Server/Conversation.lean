import Chronos.Server.Stream

/-! # Many requests over one connection

A client of `startup_client_2.c` keeps its connection: `userTransactionThread` sends a
request after the response to the one before, and `daHandler` of `startup_server_2.c`
goes back to reading after each reply. Client and handler run at their own pace, so each
may be ahead of the other by a part of an exchange.
-/
namespace Chronos.Conversation
open Foundation Packet Connection

/-- `results` are the `txn_rc` of the requests so far, `handled` the packets that
`dispatchTableFn` has returned for, with the responses made of what it returned. -/
structure State where
  exchange : Stream.State
  results : List ℤ
  clientLeft : Bool
  handled : List (RequestPacket × ResponsePacket)
  dispatched : Bool
  serverLeft : Bool

/-- How far things are where the handler waits: `num_txn_to_wait` is not down or `txn_done` not set;
`txn_done` is set and `txn_rc` still holds what it held before; or all is there. -/
inductive Progress where
  | waits
  | early (txnRc : ℤ)
  | done
deriving DecidableEq

/-- `room` is the free space of the socket's send buffer, `dies` whether `time_to_die` is set, and
`reset` whether the socket of a peer that has left answers what it is sent. -/
inductive Event where
  | client (room : ℕ) (dies reset : Bool)
  | server (room : ℕ) (dies reset : Bool) (progress : Progress)
  | toServer (n : ℕ)
  | toClient (n : ℕ)

def State.Closed (c : State) : Prop :=
  c.serverLeft = true ∧ c.exchange.toClient.inFlight = [] ∧ c.exchange.toClient.arrived = []

instance (c : State) : Decidable c.Closed := inferInstanceAs (Decidable (_ ∧ _ ∧ _))

/-- The result is there, and the thread goes on to the next request. -/
def State.next (requests : ℕ → RequestPacket) (dies : Bool) (c : State) : State :=
  let results := c.results ++ [c.exchange.txnRcRet.getD 0]
  -- a thread that leaves the loop does not come to send this request
  { c with
    exchange := { c.exchange with client := .sending (requests results.length).1, response := [] }
    results := results
    clientLeft := dies }

/-- The loop of `userTransactionThread`; `requests` are the packets that it makes. -/
def clientStep (requests : ℕ → RequestPacket) (room : ℕ) (dies reset : Bool) (c : State) : State :=
  if c.clientLeft then c
  else match c.exchange.client with
    | .returned rc =>
      if rc ≠ CHRONOS_SUCCESS then { c with clientLeft := true } else c.next requests dies
    | .sending buf =>
      -- the signal of a broken pipe ends the whole client
      if c.serverLeft ∧ reset ∧ buf ≠ [] then { c with clientLeft := true }
      else { c with exchange := Stream.clientStep room dies c.exchange }
    | .polling =>
      -- `poll` reports the closed socket, and `read` returns 0 or -1
      if dies = false ∧ (c.Closed ∨ c.serverLeft ∧ reset) then
        { c with exchange := { c.exchange with client := .returned CHRONOS_FAIL } }
      else { c with exchange := Stream.clientStep room dies c.exchange }
    | .reading toRead =>
      if c.serverLeft ∧ reset ∧ toRead ≠ 0 then
        { c with exchange := { c.exchange with client := .returned CHRONOS_FAIL } }
      else { c with exchange := Stream.clientStep room dies c.exchange }

/-- The benchmark as the handler comes to see it. -/
def Progress.seen (progress : Progress) (benchmark : Benchmark) : Benchmark :=
  match progress with
  | .early txnRc => { benchmark with rc := fun _ => txnRc }
  | _ => benchmark

/-- The loop of `daHandler`; `benchmark` is what the benchmark does at each request. -/
def serverStep (benchmark : ℕ → Benchmark) (szDataItemsArray room : ℕ) (dies reset : Bool)
    (progress : Progress) (c : State) : State :=
  if c.serverLeft then c
  else match c.exchange.server with
    | .serving p =>
      if progress = .waits then
        -- the admission control tests `time_to_die`, `while (!txn_done)` does not
        if dies ∧ c.dispatched = false then { c with serverLeft := true } else c
      else if c.dispatched = false then { c with dispatched := true }
      else match handleRequest2 (progress.seen (benchmark c.handled.length)) szDataItemsArray p with
        -- the whole server is aborted
        | .error _ => { c with serverLeft := true }
        | .ok (res, _) => { c with
            exchange := { c.exchange with server := .replying p (Stream.responseBytes res) }
            handled := c.handled ++ [(p, res)]
            dispatched := false }
    | .finished _ =>
      if dies then { c with serverLeft := true }
      else { c with exchange := { c.exchange with server := .reading .start } }
    | .reading r =>
      if c.clientLeft ∧ reset ∧ r.toRead ≠ 0 then { c with serverLeft := true }
      else { c with exchange := Stream.serverStep (benchmark c.handled.length) room c.exchange }
    | .replying _ buf =>
      -- the signal of a broken pipe ends the whole server
      if c.clientLeft ∧ reset ∧ buf ≠ [] then { c with serverLeft := true }
      else { c with exchange := Stream.serverStep (benchmark c.handled.length) room c.exchange }
    | .aborted => c

def step (benchmark : ℕ → Benchmark) (szDataItemsArray : ℕ) (requests : ℕ → RequestPacket)
    (c : State) : Event → State
  | .client room dies reset => clientStep requests room dies reset c
  | .server room dies reset progress =>
    serverStep benchmark szDataItemsArray room dies reset progress c
  | .toServer n =>
    { c with exchange := { c.exchange with toServer := c.exchange.toServer.deliver n } }
  | .toClient n =>
    { c with exchange := { c.exchange with toClient := c.exchange.toClient.deliver n } }

/-- The connection is made, and the first request about to be sent. -/
def start (requests : ℕ → RequestPacket) : State :=
  ⟨Stream.start (requests 0), [], false, [], false, false⟩

/-- The handler leaves its wait before `txn_rc` is stored. -/
def Early (c : State) (e : Event) : Prop :=
  c.dispatched = true ∧ ∃ room dies reset txnRc, e = .server room dies reset (.early txnRc)

end Chronos.Conversation

/-! ## One exchange -/

namespace Chronos.Stream
open Foundation Packet Connection

section Parts
variable {p : RequestPacket} {res : ResponsePacket} {s : State}

theorem clientStep_withServer (room : ℕ) (dies : Bool) (s : State) (server : ServerPc) :
    clientStep room dies { s with server := server } =
      { clientStep room dies s with server := server } := by
  obtain ⟨client, response, txnRcRet, toServer, serverPc, inFlight, arrived⟩ := s
  unfold clientStep
  cases client with
  | sending buf =>
    simp only
    split_ifs <;> rfl
  | polling =>
    simp only
    split_ifs <;> rfl
  | reading toRead =>
    simp only
    split_ifs
    · rfl
    · cases arrived <;> rfl
  | returned rc => rfl

theorem serverStep_withClient (benchmark : Benchmark) (room : ℕ) (s : State) (client : ClientPc) :
    serverStep benchmark room { s with client := client } =
      { serverStep benchmark room s with client := client } := by
  obtain ⟨clientPc, response, txnRcRet, ⟨inFlight, arrived⟩, server, toClient⟩ := s
  unfold serverStep
  cases server with
  | reading r =>
    simp only
    split_ifs
    · rfl
    · cases arrived <;> rfl
  | serving q =>
    simp only
    cases handleRequest benchmark q <;> rfl
  | replying q buf =>
    simp only
    split_ifs <;> rfl
  | finished q => rfl
  | aborted => rfl

theorem clientStep_of_not_ready {room : ℕ} {dies : Bool} (h : ¬ BytesReady (.client room dies) s) :
    clientStep room dies s = { s with client := .returned CHRONOS_FAIL } := by
  cases hpc : s.client with
  | sending buf =>
    have hfull : buf ≠ [] ∧ room = 0 := by simpa [BytesReady, hpc] using h
    simp [clientStep, hpc, hfull]
  | polling =>
    have hdies : dies = true := by simpa [BytesReady, hpc] using h
    simp [clientStep, hpc, hdies]
  | reading toRead =>
    have hempty : toRead ≠ 0 ∧ s.toClient.arrived = [] := by simpa [BytesReady, hpc] using h
    simp [clientStep, hpc, hempty]
  | returned rc => simp [BytesReady, hpc] at h

theorem Inv.reads (h : Inv p res s) {r : ReadState} (hpc : s.server = .reading r)
    (benchmark : Benchmark) (room : ℕ) : Inv p res (Stream.serverStep benchmark room s) := by
  have hrequest := h.request
  have hresponse := h.response
  simp only [hpc, ServerPc.got, ServerPc.unsent] at hrequest hresponse
  simp only [Stream.serverStep, hpc]
  split_ifs with hfull
  · exact ⟨hrequest, hresponse, h.client, by simp⟩
  · cases harrived : s.toServer.arrived with
    | nil => exact h
    | cons b rest =>
      rw [harrived] at hrequest
      refine ⟨?_, hresponse, h.client, by simp⟩
      simpa [ServerPc.got, ReadState.readByte] using hrequest

theorem Inv.replies (h : Inv p res s) {q : RequestPacket} {buf : List Byte}
    (hpc : s.server = .replying q buf) (benchmark : Benchmark) (room : ℕ) :
    Inv p res (Stream.serverStep benchmark room s) := by
  have hrequest := h.request
  have hresponse := h.response
  simp only [hpc, ServerPc.got, ServerPc.unsent] at hrequest hresponse
  simp only [Stream.serverStep, hpc]
  split_ifs with hempty hfull
  · subst hempty
    exact ⟨hrequest, hresponse, h.client, by simp⟩
  · exact h
  · refine ⟨hrequest, ?_, h.client, by simp⟩
    have hsend := s.toClient.send_append buf room
    simp only [List.append_assoc, ServerPc.unsent] at hsend hresponse ⊢
    rw [hsend]
    exact hresponse

/-- Until the server answers nothing of a response is on the way, so that it may be any. -/
theorem Inv.answered (h : Inv p res s) {q : RequestPacket} (hpc : s.server = .serving q)
    (res' : ResponsePacket) : Inv p res' { s with server := .replying q (responseBytes res') } := by
  have hrequest := h.request
  have hresponse := h.response
  simp only [hpc, ServerPc.got, ServerPc.unsent] at hrequest hresponse
  refine ⟨hrequest, ?_, h.client, by simp⟩
  rw [List.append_left_eq_self.mp hresponse]
  rfl

theorem Wire.eq_empty {w : Wire} (harrived : w.arrived = []) (hflight : w.inFlight = []) :
    w = ⟨[], []⟩ := by
  cases w
  simp_all

theorem ServerPc.got_of_reqPacket {server : ServerPc} {q : RequestPacket}
    (h : server.reqPacket = some q) : server.got = q.1 := by
  cases server <;> cases h <;> rfl

theorem serverStep_reading (benchmark : Benchmark) (room : ℕ) {r : ReadState}
    (hpc : s.server = .reading r) :
    (∃ r', (serverStep benchmark room s).server = .reading r') ∨ ∃ q,
    (serverStep benchmark room s).server = .serving q := by
  simp only [serverStep, hpc]
  split_ifs
  · exact .inr ⟨_, rfl⟩
  · cases s.toServer.arrived with
    | nil => exact .inl ⟨_, hpc⟩
    | cons b rest => exact .inl ⟨_, rfl⟩

theorem serverStep_replying (benchmark : Benchmark) (room : ℕ) {q : RequestPacket} {buf : List Byte}
    (hpc : s.server = .replying q buf) :
    (∃ buf', (serverStep benchmark room s).server = .replying q buf') ∨
    (serverStep benchmark room s).server = .finished q := by
  simp only [serverStep, hpc]
  split_ifs
  · exact .inr rfl
  · exact .inl ⟨_, hpc⟩
  · exact .inl ⟨_, rfl⟩

/-- Once the server has read the packet, nothing of it is left on the way. -/
theorem Inv.requestRead (h : Inv p res s) (hgot : s.server.got = p.1) : s.toServer = ⟨[], []⟩ := by
  have hrequest := h.request
  rw [hgot, List.append_assoc, List.append_assoc, List.append_right_eq_self] at hrequest
  obtain ⟨harrived, hrest⟩ := List.append_eq_nil_iff.mp hrequest
  exact Wire.eq_empty harrived (List.append_eq_nil_iff.mp hrest).1

structure Over (p : RequestPacket) (res : ResponsePacket) (s : State) : Prop where
  server : s.server = .replying p [] ∨ s.server = .finished p
  toServer : s.toServer = ⟨[], []⟩
  toClient : s.toClient = ⟨[], []⟩
  txnRcRet : s.txnRcRet = some (int32 res.rc)

theorem Inv.over (h : Inv p res s) {rc : ℤ} (hpc : s.client = .returned rc) : Over p res s := by
  obtain ⟨hread, -, hret⟩ := h.exchanged hpc
  have hlength : s.response.length = RESPONSE_PACKET_SZ := by
    have hclient := h.client
    rw [hpc] at hclient
    exact hclient.2.1
  have hresponse := congrArg List.length h.response
  simp only [List.length_append, hlength, responseBytes_length] at hresponse
  have harrived : s.toClient.arrived = [] := List.eq_nil_of_length_eq_zero (by omega)
  have hflight : s.toClient.inFlight = [] := List.eq_nil_of_length_eq_zero (by omega)
  have hunsent : (s.server.unsent res).length = 0 := by omega
  refine ⟨?_, h.requestRead (ServerPc.got_of_reqPacket hread), Wire.eq_empty harrived hflight, hret⟩
  cases hserver : s.server with
  | reading r =>
    rw [hserver] at hread
    cases hread
  | serving q =>
    rw [hserver, ServerPc.unsent, responseBytes_length] at hunsent
    cases hunsent
  | replying q buf =>
    rw [hserver] at hread hunsent
    obtain rfl : buf = [] := List.eq_nil_of_length_eq_zero hunsent
    exact .inl (by rw [Option.some.inj hread])
  | finished q =>
    rw [hserver] at hread
    exact .inr (by rw [Option.some.inj hread])
  | aborted => exact absurd hserver h.alive

theorem inv_next (txnRcRet : Option ℤ) :
    Inv p res ⟨.sending p.1, [], txnRcRet, ⟨[], []⟩, .reading .start, ⟨[], []⟩⟩ where
  request := by simp [ServerPc.got, ReadState.start, ClientPc.unsent]
  response := by simp [ServerPc.unsent]
  client := rfl
  alive := by simp

end Parts
end Chronos.Stream

namespace Chronos.Conversation
open Foundation Packet Connection

/-! ## What every run keeps -/

section Run
variable {benchmark : ℕ → Benchmark} {sz : ℕ} {requests : ℕ → RequestPacket} {c : State}
  {client : Stream.ClientPc}

def State.answer (c : State) : ResponsePacket := (c.handled[c.results.length]?).elim ⟨0, 0⟩ Prod.snd

/-- The server in the exchange of the client: one that is not done with the exchange before
has read nothing yet, one that has gone on is done. -/
def State.server (requests : ℕ → RequestPacket) (c : State) : Stream.ServerPc :=
  match c.exchange.server with
  | .reading r =>
    if c.handled.length = c.results.length then .reading r
      else .finished (requests c.results.length)
  | .serving p => .serving p
  | .replying p buf =>
    if c.handled.length = c.results.length then .reading .start else .replying p buf
  | .finished p => if c.handled.length = c.results.length then .reading .start else .finished p
  | .aborted => .aborted

def State.current (requests : ℕ → RequestPacket) (c : State) (client : Stream.ClientPc) :
    Stream.State :=
  { c.exchange with client := client, server := c.server requests }

/-- How far the handler may be from the client. -/
structure Abreast (requests : ℕ → RequestPacket) (c : State) : Prop where
  ahead : c.handled.length = c.results.length ∨ c.handled.length = c.results.length + 1
  reading : ∀ r, c.exchange.server = .reading r → c.handled.length ≠ c.results.length → r = .start
  serving : ∀ p, c.exchange.server = .serving p → c.handled.length = c.results.length
  replying : ∀ p buf, c.exchange.server = .replying p buf →
    c.handled.length = c.results.length → buf = []

/-- The exchange is in order, for the client that was there before a call failed. -/
structure Good (benchmark : ℕ → Benchmark) (sz : ℕ) (requests : ℕ → RequestPacket) (c : State)
    (client : Stream.ClientPc) : Prop where
  current : Stream.Inv (requests c.results.length) c.answer (c.current requests client)
  client : c.exchange.client = client ∨ c.exchange.client = .returned CHRONOS_FAIL
  abreast : Abreast requests c
  handled : ∀ i p res, c.handled[i]? = some (p, res) →
    p = requests i ∧ res.txnType = p.txnType ∧ Handled (handleRequest2 (benchmark i) sz p)
  results : c.results <+: c.handled.map fun h => int32 h.2.rc

theorem good_start : Good benchmark sz requests (start requests) (.sending (requests 0).1) where
  current := Stream.inv_start
  client := .inl rfl
  abreast :=
    ⟨.inl rfl, fun _ _ h => absurd rfl h, fun _ h => (by cases h), fun _ _ h => (by cases h)⟩
  handled i p res h := by simp [start] at h
  results := List.prefix_rfl

theorem Good.withExchange (h : Good benchmark sz requests c client) {exchange : Stream.State}
    {client' : Stream.ClientPc} (hserver : exchange.server = c.exchange.server)
    (hcurrent : Stream.Inv (requests c.results.length) c.answer
      (State.current requests { c with exchange := exchange } client'))
    (hclient : exchange.client = client' ∨ exchange.client = .returned CHRONOS_FAIL) :
    Good benchmark sz requests { c with exchange := exchange } client' where
  current := hcurrent
  client := hclient
  abreast := by
    obtain ⟨hahead, hreading, hserving, hreplying⟩ := h.abreast
    exact ⟨hahead, fun r hr => hreading r (hserver ▸ hr), fun p hp => hserving p (hserver ▸ hp),
      fun p buf hp => hreplying p buf (hserver ▸ hp)⟩
  handled := h.handled
  results := h.results

theorem Good.left (h : Good benchmark sz requests c client)
    (clientLeft serverLeft dispatched : Bool) :
    Good benchmark sz requests
      { c with clientLeft := clientLeft, serverLeft := serverLeft, dispatched :=
        dispatched } client :=
  ⟨h.current, h.client, ⟨h.abreast.ahead, h.abreast.reading, h.abreast.serving, h.abreast.replying⟩,
    h.handled, h.results⟩

theorem Good.failed (h : Good benchmark sz requests c client) :
    Good benchmark sz requests
      { c with exchange := { c.exchange with client := .returned CHRONOS_FAIL } } client :=
  h.withExchange rfl h.current (.inr rfl)

theorem Good.calledReady (h : Good benchmark sz requests c c.exchange.client) {room : ℕ}
    {dies : Bool} (hready : Stream.BytesReady (.client room dies) c.exchange) :
    Good benchmark sz requests { c with exchange := Stream.clientStep room dies c.exchange }
      (Stream.clientStep room dies c.exchange).client := by
  have hserver := (Stream.clientStep_keeps (s := c.exchange) room dies).2
  refine h.withExchange hserver ?_ (.inl rfl)
  have hcurrent : Stream.Inv _ _
    (Stream.clientStep room dies (c.current requests c.exchange.client)) :=
    h.current.clientStep hready
  rw [State.current, Stream.clientStep_withServer] at hcurrent
  rw [State.current, State.server, hserver]
  exact hcurrent

theorem Good.called (h : Good benchmark sz requests c client)
    (hnot : ∀ rc, c.exchange.client ≠ .returned rc) (room : ℕ) (dies : Bool) :
    ∃ client', Good benchmark sz requests
      { c with exchange := Stream.clientStep room dies c.exchange } client' := by
  obtain rfl : c.exchange.client = client := h.client.resolve_right (hnot _)
  by_cases hready : Stream.BytesReady (.client room dies) c.exchange
  · exact ⟨_, h.calledReady hready⟩
  · exact ⟨_, by rw [Stream.clientStep_of_not_ready hready]; exact h.failed⟩

theorem Good.over (h : Good benchmark sz requests c client)
    (hpc : c.exchange.client = .returned CHRONOS_SUCCESS) :
    c.handled.length = c.results.length + 1 ∧
      Stream.Over (requests c.results.length) c.answer (c.current requests client) := by
  obtain rfl : c.exchange.client = client := h.client.resolve_right (by simp [hpc])
  have hreturned : (c.current requests c.exchange.client).client = .returned CHRONOS_SUCCESS := hpc
  have hover := h.current.over hreturned
  refine ⟨h.abreast.ahead.resolve_left fun heq => ?_, hover⟩
  have hserver := hover.server
  simp only [State.current, State.server, heq, if_true] at hserver
  cases hactual : c.exchange.server <;> simp [hactual] at hserver

theorem lastHandled (hlen : c.handled.length = c.results.length + 1) :
    ∃ p, c.handled[c.results.length]? = some (p, c.answer) := by
  have hlt : c.results.length < c.handled.length := by omega
  obtain ⟨⟨p, res⟩, hget⟩ : ∃ x, c.handled[c.results.length]? = some x :=
    ⟨_, List.getElem?_eq_getElem hlt⟩
  exact ⟨p, by rw [hget, State.answer, hget, Option.elim_some]⟩

theorem Good.over_server (h : Good benchmark sz requests c client)
    (hpc : c.exchange.client = .returned CHRONOS_SUCCESS) :
    c.exchange.server = .reading .start ∨ (∃ q, c.exchange.server = .replying q []) ∨
      ∃ q, c.exchange.server = .finished q := by
  obtain ⟨hlen, hover⟩ := h.over hpc
  have hserver := hover.server
  simp only [State.current, State.server, hlen, Nat.succ_ne_self, if_false] at hserver
  cases hactual : c.exchange.server with
  | reading r => exact .inl (by rw [h.abreast.reading r hactual (by omega)])
  | serving q => simp [hactual] at hserver
  | replying q buf =>
    simp only [hactual, Stream.ServerPc.replying.injEq, reduceCtorEq, or_false] at hserver
    exact .inr (.inl ⟨q, by rw [hserver.2]⟩)
  | finished q => exact .inr (.inr ⟨q, rfl⟩)
  | aborted => simp [hactual] at hserver

theorem Good.next (h : Good benchmark sz requests c client)
    (hpc : c.exchange.client = .returned CHRONOS_SUCCESS) (dies : Bool) :
    Good benchmark sz requests (c.next requests dies)
      (.sending (requests (c.results.length + 1)).1) := by
  obtain ⟨hlen, hover⟩ := h.over hpc
  have hserver := h.over_server hpc
  have hlength : (c.next requests dies).results.length = c.results.length + 1 := List.length_append
  refine ⟨?_, .inl (congrArg (fun i => Stream.ClientPc.sending (requests i).1) hlength),
    ⟨.inl (hlen.trans hlength.symm), fun r _ hne => absurd (hlen.trans hlength.symm) hne, ?_, ?_⟩,
      h.handled, ?_⟩
  · have hbegins : (c.next requests dies).server requests = .reading .start := by
      have hsame : c.handled.length = (c.next requests dies).results.length :=
        hlen.trans hlength.symm
      simp only [State.server, State.next] at hsame ⊢
      rcases hserver with hs | ⟨q, hs⟩ | ⟨q, hs⟩ <;> rw [hs] <;> simp [hsame]
    have hcurrent : (c.next requests dies).current requests
      (.sending (requests (c.results.length + 1)).1) =
        ⟨.sending (requests (c.results.length + 1)).1, [], c.exchange.txnRcRet, ⟨[], []⟩,
          .reading .start, ⟨[], []⟩⟩ := by
      have hto : c.exchange.toServer = ⟨[], []⟩ := hover.toServer
      have hfrom : c.exchange.toClient = ⟨[], []⟩ := hover.toClient
      rw [State.current, hbegins]
      simp only [State.next, hto, hfrom]
    rw [hcurrent, hlength]
    exact Stream.inv_next _
  · intro q hq
    rcases hserver with hs | ⟨q', hs⟩ | ⟨q', hs⟩ <;> cases hs.symm.trans hq
  · intro q buf hq _
    rcases hserver with hs | ⟨q', hs⟩ | ⟨q', hs⟩ <;> cases hs.symm.trans hq
    rfl
  · obtain ⟨p, hlast⟩ := lastHandled hlen
    have hret : c.exchange.txnRcRet = some (int32 c.answer.rc) :=
      hover.txnRcRet
    obtain ⟨rest, hrest⟩ := h.results
    have hone : rest = [int32 c.answer.rc] := by
      have hget := congrArg (fun l => l[c.results.length]?) hrest
      have hlenrest := congrArg List.length hrest
      simp only [List.getElem?_append_right (le_refl _), Nat.sub_self, List.getElem?_map, hlast,
        Option.map_some] at hget
      simp only [List.length_append, List.length_map, hlen, Nat.add_left_cancel_iff] at hlenrest
      obtain ⟨x, rfl⟩ := List.length_eq_one_iff.mp hlenrest
      simpa using hget
    have hnext : (c.next requests dies).results = c.handled.map fun h => int32 h.2.rc := by
      rw [State.next, hret, Option.getD_some, ← hone]
      exact hrest
    exact ⟨[], (List.append_nil _).trans hnext⟩

theorem Good.clientStep (h : Good benchmark sz requests c client) (room : ℕ) (dies reset : Bool) :
    ∃ client', Good benchmark sz requests (clientStep requests room dies reset c) client' := by
  unfold Conversation.clientStep
  by_cases hleft : c.clientLeft
  · exact ⟨_, by rwa [if_pos hleft]⟩
  · rw [if_neg hleft]
    cases hpc : c.exchange.client with
    | returned rc =>
      simp only
      split_ifs with hrc
      · exact ⟨_, h.left true c.serverLeft c.dispatched⟩
      · obtain rfl := not_not.mp hrc
        exact ⟨_, h.next hpc dies⟩
    | sending buf =>
      simp only
      split_ifs
      · exact ⟨_, h.left true c.serverLeft c.dispatched⟩
      · exact h.called (by simp [hpc]) room dies
    | polling =>
      simp only
      split_ifs
      · exact ⟨_, h.failed⟩
      · exact h.called (by simp [hpc]) room dies
    | reading toRead =>
      simp only
      split_ifs
      · exact ⟨_, h.failed⟩
      · exact h.called (by simp [hpc]) room dies

/-- A step of the handler that keeps to the exchange of the client. -/
theorem Good.serverMoved (h : Good benchmark sz requests c client)
    (hsame : c.server requests = c.exchange.server) (b : Benchmark) (room : ℕ)
    (hinv : Stream.Inv (requests c.results.length) c.answer
      (Stream.serverStep b room (c.current requests client)))
    (hserver : State.server requests { c with exchange := Stream.serverStep b room c.exchange } =
      (Stream.serverStep b room c.exchange).server)
    (habreast : Abreast requests { c with exchange := Stream.serverStep b room c.exchange }) :
    Good benchmark sz requests
      { c with exchange := Stream.serverStep b room c.exchange } client where
  current := by
    rw [State.current, hsame] at hinv
    rw [State.current, hserver]
    exact (congrArg _ (Stream.serverStep_withClient b room c.exchange client)).mp hinv
  client := by
    rw [(Stream.serverStep_keeps b room c.exchange).1]
    exact h.client
  abreast := habreast
  handled := h.handled
  results := h.results

theorem Good.reads_ahead (h : Good benchmark sz requests c client) {r : ReadState}
    (hpc : c.exchange.server = .reading r) (hlen : c.handled.length = c.results.length + 1)
    (b : Benchmark) (room : ℕ) :
    Stream.serverStep b room c.exchange = c.exchange := by
  have hne : c.handled.length ≠ c.results.length := by omega
  obtain rfl := h.abreast.reading r hpc hne
  have hempty : c.exchange.toServer = ⟨[], []⟩ :=
    h.current.requestRead (by simp only [State.current, State.server, hpc, if_neg hne]; rfl)
  simp [Stream.serverStep, hpc, hempty, ReadState.start]

theorem Good.reads (h : Good benchmark sz requests c client) {r : ReadState}
    (hpc : c.exchange.server = .reading r) (b : Benchmark) (room : ℕ) :
    Good benchmark sz requests
      { c with exchange := Stream.serverStep b room c.exchange } client := by
  rcases h.abreast.ahead with hlen | hlen
  · have hsame : c.server requests = c.exchange.server := by
      simp only [State.server, hpc, if_pos hlen]
    have hcurrent := h.current.reads (hsame.trans hpc) b room
    rcases Stream.serverStep_reading b room hpc with ⟨r', hr'⟩ | ⟨p, hp⟩
    · exact h.serverMoved hsame b room hcurrent (by simp only [State.server, hr', if_pos hlen])
        ⟨.inl hlen, fun _ _ hne => absurd hlen hne, by simp [hr'], by simp [hr']⟩
    · exact h.serverMoved hsame b room hcurrent (by simp only [State.server, hp])
        ⟨.inl hlen, by simp [hp], fun _ _ => hlen, by simp [hp]⟩
  · rwa [h.reads_ahead hpc hlen]

theorem Good.replies (h : Good benchmark sz requests c client) {p : RequestPacket} {buf : List Byte}
    (hpc : c.exchange.server = .replying p buf) (b : Benchmark) (room : ℕ) :
    Good benchmark sz requests
      { c with exchange := Stream.serverStep b room c.exchange } client := by
  by_cases hlen : c.handled.length = c.results.length
  · obtain rfl := h.abreast.replying p buf hpc hlen
    have hends : Stream.serverStep b room c.exchange =
      { c.exchange with server := .finished p } := by
      simp [Stream.serverStep, hpc]
    rw [hends]
    refine ⟨?_, h.client, ⟨.inl hlen, by simp, by simp, by simp⟩, h.handled, h.results⟩
    have hcurrent := h.current
    simp only [State.current, State.server, hpc, if_pos hlen] at hcurrent ⊢
    exact hcurrent
  · have hsame : c.server requests = c.exchange.server := by
      simp only [State.server, hpc, if_neg hlen]
    have hcurrent := h.current.replies (hsame.trans hpc) b room
    rcases Stream.serverStep_replying b room hpc with ⟨buf', hbuf'⟩ | hdone
    · exact h.serverMoved hsame b room hcurrent (by simp only [State.server, hbuf', if_neg hlen])
        ⟨h.abreast.ahead, by simp [hbuf'], by simp [hbuf'], fun _ _ _ heq => absurd heq hlen⟩
    · exact h.serverMoved hsame b room hcurrent (by simp only [State.server, hdone, if_neg hlen])
        ⟨h.abreast.ahead, by simp [hdone], by simp [hdone], by simp [hdone]⟩

theorem handled_seen_iff {progress : Progress} {b : Benchmark} {p : RequestPacket} :
    Handled (handleRequest2 (progress.seen b) sz p) ↔ Handled (handleRequest2 b sz p) := by
  have hacceptable : Acceptable (progress.seen b) p ↔ Acceptable b p := by
    cases progress <;> exact ⟨fun ⟨htype, hnum, hread⟩ => ⟨htype, hnum, hread⟩,
      fun ⟨htype, hnum, hread⟩ => ⟨htype, hnum, hread⟩⟩
  rw [handleRequest2_handled, handleRequest2_handled, hacceptable]

theorem txnType_of_handled {b : Benchmark} {p : RequestPacket} {res : ResponsePacket}
    {items : List (Fin sz)} (h : handleRequest2 b sz p = .ok (res, items)) :
    res.txnType = p.txnType := by
  obtain ⟨hacceptable, hids⟩ := handleRequest2_handled.mp ⟨_, h⟩
  obtain ⟨items', hitems⟩ := handleRequest2_eq hacceptable hids
  exact congrArg (fun x => x.1.txnType) (Except.ok.inj (h.symm.trans hitems))

theorem handled_snoc {P : ℕ → RequestPacket → ResponsePacket → Prop}
    (hbefore : ∀ i p res, c.handled[i]? = some (p, res) → P i p res) {p : RequestPacket}
    {res : ResponsePacket} (hnew : P c.handled.length p res) (i : ℕ) (q : RequestPacket)
    (res' : ResponsePacket) (hget : (c.handled ++ [(p, res)])[i]? = some (q, res')) :
    P i q res' := by
  rcases Nat.lt_trichotomy i c.handled.length with hlt | rfl | hgt
  · rw [List.getElem?_append_left hlt] at hget
    exact hbefore i q res' hget
  · rw [List.getElem?_append_right (le_refl _), Nat.sub_self, List.getElem?_cons_zero,
      Option.some.injEq, Prod.mk.injEq] at hget
    obtain ⟨rfl, rfl⟩ := hget
    exact hnew
  · rw [List.getElem?_eq_none (by simpa using hgt)] at hget
    cases hget

theorem Good.handles (h : Good benchmark sz requests c client) {p : RequestPacket}
    (hpc : c.exchange.server = .serving p) {progress : Progress} {res : ResponsePacket}
    {items : List (Fin sz)}
    (hres : handleRequest2 (progress.seen (benchmark c.handled.length)) sz p = .ok (res, items)) :
    Good benchmark sz requests { c with
      exchange := { c.exchange with server := .replying p (Stream.responseBytes res) }
      handled := c.handled ++ [(p, res)]
      dispatched := false } client := by
  have hlen := h.abreast.serving p hpc
  have hne : (c.handled ++ [(p, res)]).length ≠ c.results.length := by simp [hlen]
  have hcurrent := h.current
  simp only [State.current, State.server, hpc] at hcurrent
  obtain rfl := hcurrent.reqPacket (q := p) rfl
  refine ⟨?_, h.client, ⟨.inr (by simp [hlen]), by simp, by simp, fun _ _ _ heq => absurd heq hne⟩,
    handled_snoc h.handled ⟨by rw [hlen], txnType_of_handled hres, handled_seen_iff.mp ⟨_, hres⟩⟩,
      h.results.trans (by simp)⟩
  have hanswer : (c.handled ++ [(requests c.results.length, res)])[c.results.length]?.elim
    ⟨0, 0⟩ Prod.snd = res := by
    rw [← hlen, List.getElem?_append_right (le_refl _), Nat.sub_self, List.getElem?_cons_zero,
      Option.elim_some]
  have hanswered := hcurrent.answered rfl res
  simp only [State.current, State.server, State.answer, if_neg hne, hanswer]
  exact hanswered

theorem Good.loops (h : Good benchmark sz requests c client) {p : RequestPacket}
    (hpc : c.exchange.server = .finished p) :
    Good benchmark sz requests
      { c with exchange := { c.exchange with server := .reading .start } } client := by
  refine ⟨?_, h.client, ⟨h.abreast.ahead, fun r hr _ =>
    (Stream.ServerPc.reading.inj hr).symm, by simp, by simp⟩,
    h.handled, h.results⟩
  have hcurrent := h.current
  by_cases hlen : c.handled.length = c.results.length
  · simp only [State.current, State.server, hpc, if_pos hlen] at hcurrent ⊢
    exact hcurrent
  · simp only [State.current, State.server, hpc, if_neg hlen] at hcurrent ⊢
    obtain rfl := hcurrent.reqPacket (q := p) rfl
    exact hcurrent

theorem Good.serverStep (h : Good benchmark sz requests c client) (room : ℕ) (dies reset : Bool)
    (progress : Progress) :
    Good benchmark sz requests (serverStep benchmark sz room dies reset progress c) client := by
  unfold Conversation.serverStep
  by_cases hleft : c.serverLeft
  · rwa [if_pos hleft]
  · rw [if_neg hleft]
    cases hpc : c.exchange.server with
    | reading r =>
      simp only
      split_ifs
      · exact h.left c.clientLeft true c.dispatched
      · exact h.reads hpc _ room
    | replying p buf =>
      simp only
      split_ifs
      · exact h.left c.clientLeft true c.dispatched
      · exact h.replies hpc _ room
    | serving p =>
      simp only
      split_ifs
      · exact h.left c.clientLeft true c.dispatched
      · exact h
      · exact h.left c.clientLeft c.serverLeft true
      · cases hres : handleRequest2 (progress.seen (benchmark c.handled.length)) sz p with
        | error f => exact h.left c.clientLeft true c.dispatched
        | ok answer => exact h.handles hpc hres
    | finished p =>
      simp only
      split_ifs
      · exact h.left c.clientLeft true c.dispatched
      · exact h.loops hpc
    | aborted => exact h

theorem Good.step (h : Good benchmark sz requests c client) (e : Event) :
    ∃ client', Good benchmark sz requests (step benchmark sz requests c e) client' := by
  cases e with
  | client room dies reset => exact h.clientStep room dies reset
  | server room dies reset progress => exact ⟨_, h.serverStep room dies reset progress⟩
  | toServer n => exact ⟨_, h.withExchange rfl (h.current.deliver_toServer n) h.client⟩
  | toClient n => exact ⟨_, h.withExchange rfl (h.current.deliver_toClient n) h.client⟩

theorem good_run (benchmark : ℕ → Benchmark) (sz : ℕ) (requests : ℕ → RequestPacket)
    (ev : ℕ → Event) (n : ℕ) :
    ∃ client, Good benchmark sz requests
      (runFor (step benchmark sz requests) ev (start requests) n) client := by
  induction n with
  | zero => exact ⟨_, good_start⟩
  | succ n ih =>
    obtain ⟨client, hgood⟩ := ih
    exact hgood.step (ev n)

/-! ## What the handler returns for a packet -/

theorem clientStep_frame (requests : ℕ → RequestPacket) (room : ℕ) (dies reset : Bool) (c : State) :
    (clientStep requests room dies reset c).handled = c.handled ∧
      (clientStep requests room dies reset c).serverLeft = c.serverLeft := by
  unfold clientStep
  by_cases hleft : c.clientLeft
  · rw [if_pos hleft]
    exact ⟨rfl, rfl⟩
  · rw [if_neg hleft]
    cases c.exchange.client with
    | returned rc =>
      simp only
      split_ifs <;> exact ⟨rfl, rfl⟩
    | sending buf =>
      simp only
      split_ifs <;> exact ⟨rfl, rfl⟩
    | polling =>
      simp only
      split_ifs <;> exact ⟨rfl, rfl⟩
    | reading toRead =>
      simp only
      split_ifs <;> exact ⟨rfl, rfl⟩

/-- The handler records nothing, or one more packet that it has dispatched, at a step that does not
wait. -/
theorem serverStep_handled (benchmark : ℕ → Benchmark) (sz room : ℕ) (dies reset : Bool)
    (progress : Progress) (c : State) :
    (serverStep benchmark sz room dies reset progress c).handled = c.handled ∨
      progress ≠ .waits ∧ c.dispatched = true ∧ ∃ p res items,
      handleRequest2 (progress.seen (benchmark c.handled.length)) sz p = .ok (res, items) ∧
        (serverStep benchmark sz room dies reset progress c).handled = c.handled ++ [(p, res)] := by
  unfold serverStep
  by_cases hleft : c.serverLeft
  · rw [if_pos hleft]
    exact .inl rfl
  · rw [if_neg hleft]
    cases c.exchange.server with
    | reading r =>
      left
      simp only
      split_ifs <;> rfl
    | replying p buf =>
      left
      simp only
      split_ifs <;> rfl
    | serving p =>
      simp only
      split_ifs with hwaits hdies hbefore
      · exact .inl rfl
      · exact .inl rfl
      · exact .inl rfl
      · cases hres : handleRequest2 (progress.seen (benchmark c.handled.length)) sz p with
        | error f => exact .inl rfl
        | ok answer => exact .inr ⟨hwaits, by simpa using hbefore, p, answer.1, answer.2, hres, rfl⟩
    | finished p =>
      left
      simp only
      split_ifs <;> rfl
    | aborted => exact .inl rfl

end Run

end Chronos.Conversation
