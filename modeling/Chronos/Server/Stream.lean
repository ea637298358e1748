import Chronos.Foundation.Fairness
import Chronos.Server.Connection

/-! # A request and its response over a byte stream

`chronosClientSendRequest` and `chronosClientReceiveResponse` on one side, `daHandler`
on the other, and the bytes on the way between them. A write takes as many bytes as the
socket has room for, the network delivers any number at a time, and the client reads
from a non-blocking socket, one byte at a time after a single `poll`.
-/
namespace Chronos.Stream
open Foundation Packet Connection

abbrev RESPONSE_PACKET_SZ : ℕ := 8

/-- The bytes of `resPacket`. -/
def responseBytes (res : ResponsePacket) : List Byte := wordBytes res.txnType ++ wordBytes res.rc

/-- `responseP->rc`. -/
def chronosResponseResultGet (response : List Byte) : ℤ := signedWord response 4

/-- One direction of the connection: the bytes sent but not delivered, and those
delivered but not read. -/
structure Wire where
  inFlight : List Byte
  arrived : List Byte

def Wire.send (w : Wire) (bytes : List Byte) : Wire := { w with inFlight := w.inFlight ++ bytes }

def Wire.deliver (w : Wire) (n : ℕ) : Wire := ⟨w.inFlight.drop n, w.arrived ++ w.inFlight.take n⟩

/-- `buf` of the write loop points to the bytes that are left, `to_write` is their
number; `toRead` is that of the read loop. -/
inductive ClientPc where
  | sending (buf : List Byte)
  | polling
  | reading (toRead : ℕ)
  | returned (rc : ℤ)

inductive ServerPc where
  | reading (r : ReadState)
  | serving (p : RequestPacket)
  | replying (p : RequestPacket) (buf : List Byte)
  | finished (p : RequestPacket)
  | aborted

/-- `response` is what has been read into the client's response packet. -/
structure State where
  client : ClientPc
  response : List Byte
  txnRcRet : Option ℤ
  toServer : Wire
  server : ServerPc
  toClient : Wire

/-- `room` is the free space of the socket's send buffer, `dies` what `isTimeToDieFp` returns. -/
inductive Event where
  | client (room : ℕ) (dies : Bool)
  | server (room : ℕ)
  | toServer (n : ℕ)
  | toClient (n : ℕ)

/-- `chronosClientSendRequest` and then `chronosClientReceiveResponse`. -/
def clientStep (room : ℕ) (dies : Bool) (s : State) : State :=
  match s.client with
  | .sending buf =>
    if buf = [] then { s with client := .polling }
    -- `write` to a non-blocking socket returns -1 when there is no room
    else if room = 0 then { s with client := .returned CHRONOS_FAIL }
    else { s with client := .sending (buf.drop room), toServer := s.toServer.send (buf.take room) }
  | .polling =>
    if dies then { s with client := .returned CHRONOS_FAIL }
    -- `poll` timed out
    else if s.toClient.arrived = [] then s
    else { s with client := .reading RESPONSE_PACKET_SZ, response := [] }
  | .reading toRead =>
    if toRead = 0 then
      { s with client :=
        .returned CHRONOS_SUCCESS, txnRcRet := some (chronosResponseResultGet s.response) }
    else match s.toClient.arrived with
      -- `read` from a non-blocking socket returns -1 when there is no byte
      | [] => { s with client := .returned CHRONOS_FAIL }
      | b :: rest => { s with
          client := .reading (toRead - 1)
          response := s.response ++ [b]
          toClient := { s.toClient with arrived := rest } }
  | .returned _ => s

/-- `daHandler`; its socket blocks. -/
def serverStep (benchmark : Benchmark) (room : ℕ) (s : State) : State :=
  match s.server with
  | .reading r =>
    if h : r.toRead = 0 then { s with server := .serving (r.packet h) }
    else match s.toServer.arrived with
      | [] => s
      | b :: rest =>
        { s with
          server := .reading (r.readByte b h), toServer := { s.toServer with arrived := rest } }
  | .serving p => match handleRequest benchmark p with
    | .error _ => { s with server := .aborted }
    | .ok res => { s with server := .replying p (responseBytes res) }
  | .replying p buf =>
    if buf = [] then { s with server := .finished p }
    else if room = 0 then s
    else { s with server := .replying p (buf.drop room), toClient :=
      s.toClient.send (buf.take room) }
  | .finished _ => s
  | .aborted => s

def step (benchmark : Benchmark) (s : State) : Event → State
  | .client room dies => clientStep room dies s
  | .server room => serverStep benchmark room s
  | .toServer n => { s with toServer := s.toServer.deliver n }
  | .toClient n => { s with toClient := s.toClient.deliver n }

def start (p : RequestPacket) : State :=
  ⟨.sending p.1, [], none, ⟨[], []⟩, .reading .start, ⟨[], []⟩⟩

def ServerPc.reqPacket : ServerPc → Option RequestPacket
  | .reading _ => none
  | .serving p => some p
  | .replying p _ => some p
  | .finished p => some p
  | .aborted => none

def Exchanged (p : RequestPacket) (rc : ℤ) (s : State) : Prop :=
  s.server.reqPacket = some p ∧ s.client = .returned CHRONOS_SUCCESS ∧ s.txnRcRet = some rc

/-- Nobody is asked to die, every write of the client finds room and every read a byte. -/
def BytesReady : Event → State → Prop
  | .client room dies, s =>
    (∀ buf, s.client = .sending buf → buf ≠ [] → room ≠ 0) ∧ (s.client = .polling → dies = false) ∧
      ∀ toRead, s.client = .reading toRead → toRead ≠ 0 → s.toClient.arrived ≠ []
  | _, _ => True

inductive Party where
  | client
  | server
  | toServer
  | toClient

/-- The party gets something done if it has anything to do. -/
def Serves : Party → Event → Prop
  | .client, e => ∃ room dies, e = .client room dies
  | .server, e => ∃ room > 0, e = .server room
  | .toServer, e => ∃ n > 0, e = .toServer n
  | .toClient, e => ∃ n > 0, e = .toClient n

/-! ## The bytes of a response -/

theorem responseBytes_length (res : ResponsePacket) :
    (responseBytes res).length = RESPONSE_PACKET_SZ := by
  simp [responseBytes, wordBytes_length]

theorem chronosResponseResultGet_responseBytes (res : ResponsePacket) :
    chronosResponseResultGet (responseBytes res) = int32 res.rc := by
  have hsigned := signedWord_wordBytes (wordBytes res.txnType) [] res.rc
  rwa [List.append_nil, wordBytes_length] at hsigned

/-! ## What holds while no read and no write fails -/

def ClientPc.unsent : ClientPc → List Byte
  | .sending buf => buf
  | _ => []

def ServerPc.got : ServerPc → List Byte
  | .reading r => r.buf
  | .serving p => p.1
  | .replying p _ => p.1
  | .finished p => p.1
  | .aborted => []

def ServerPc.unsent (res : ResponsePacket) : ServerPc → List Byte
  | .reading _ => responseBytes res
  | .serving _ => responseBytes res
  | .replying _ buf => buf
  | .finished _ => []
  | .aborted => []

/-- What the client has read fits where it is. -/
def ReadSoFar (client : ClientPc) (response : List Byte) (txnRcRet : Option ℤ) : Prop :=
  match client with
  | .sending _ => response = []
  | .polling => response = []
  | .reading toRead => response.length + toRead = RESPONSE_PACKET_SZ
  | .returned rc => rc = CHRONOS_SUCCESS ∧ response.length = RESPONSE_PACKET_SZ ∧
    txnRcRet = some (chronosResponseResultGet response)

/-- Every byte of the request and of the response is in one place, in order. -/
structure Inv (p : RequestPacket) (res : ResponsePacket) (s : State) : Prop where
  request : s.server.got ++ s.toServer.arrived ++ s.toServer.inFlight ++ s.client.unsent = p.1
  response : s.response ++ s.toClient.arrived ++ s.toClient.inFlight ++ s.server.unsent res =
    responseBytes res
  client : ReadSoFar s.client s.response s.txnRcRet
  alive : s.server ≠ .aborted

section Inv
variable {benchmark : Benchmark} {p : RequestPacket} {res : ResponsePacket} {s : State}

theorem inv_start : Inv p res (start p) where
  request := by simp [start, ServerPc.got, ReadState.start, ClientPc.unsent]
  response := by simp [start, ServerPc.unsent]
  client := rfl
  alive := by simp [start]

/-- A whole packet has been read only if it is the request. -/
theorem Inv.reqPacket (h : Inv p res s) {q : RequestPacket} (hp : s.server.reqPacket = some q) :
    q = p := by
  have hgot : s.server.got = q.1 := by
    cases hpc : s.server with
    | reading r => simp [hpc, ServerPc.reqPacket] at hp
    | aborted => simp [hpc, ServerPc.reqPacket] at hp
    | serving q =>
      rw [hpc] at hp
      cases hp
      rfl
    | replying q buf =>
      rw [hpc] at hp
      cases hp
      rfl
    | finished q =>
      rw [hpc] at hp
      cases hp
      rfl
  have hrequest := h.request
  rw [hgot] at hrequest
  have hlength := congrArg List.length hrequest
  simp only [List.length_append, p.2, q.2] at hlength
  have harrived : s.toServer.arrived = [] := List.eq_nil_of_length_eq_zero (by omega)
  have hflight : s.toServer.inFlight = [] := List.eq_nil_of_length_eq_zero (by omega)
  have hunsent : s.client.unsent = [] := List.eq_nil_of_length_eq_zero (by omega)
  rw [harrived, hflight, hunsent] at hrequest
  simpa [Subtype.ext_iff] using hrequest

theorem Wire.deliver_append (w : Wire) (n : ℕ) :
    (w.deliver n).arrived ++ (w.deliver n).inFlight = w.arrived ++ w.inFlight := by
  simp [Wire.deliver]

theorem Wire.send_append (w : Wire) (buf : List Byte) (room : ℕ) :
    (w.send (buf.take room)).arrived ++ (w.send (buf.take room)).inFlight ++ buf.drop room =
      w.arrived ++ w.inFlight ++ buf := by
  simp [Wire.send]

theorem Inv.deliver_toServer (h : Inv p res s) (n : ℕ) :
    Inv p res { s with toServer := s.toServer.deliver n } where
  request := by
    have hrequest := h.request
    rw [List.append_assoc s.server.got] at hrequest
    rw [List.append_assoc s.server.got, Wire.deliver_append]
    exact hrequest
  response := h.response
  client := h.client
  alive := h.alive

theorem Inv.deliver_toClient (h : Inv p res s) (n : ℕ) : Inv p res
    { s with toClient := s.toClient.deliver n } where
  request := h.request
  response := by
    have hresponse := h.response
    rw [List.append_assoc s.response] at hresponse
    rw [List.append_assoc s.response, Wire.deliver_append]
    exact hresponse
  client := h.client
  alive := h.alive

theorem Inv.clientStep (h : Inv p res s) {room : ℕ} {dies : Bool}
    (hready : BytesReady (.client room dies) s) : Inv p res (clientStep room dies s) := by
  obtain ⟨hroom, hdies, hbyte⟩ := hready
  have hrequest := h.request
  have hresponse := h.response
  have hclient := h.client
  unfold Stream.clientStep
  cases hpc : s.client with
  | sending buf =>
    simp only [hpc, ReadSoFar, ClientPc.unsent] at hclient hrequest
    simp only
    split_ifs with hempty hfull
    · subst hempty
      exact ⟨hrequest, hresponse, hclient, h.alive⟩
    · exact absurd hfull (hroom buf hpc hempty)
    · refine ⟨?_, hresponse, hclient, h.alive⟩
      have hsend := s.toServer.send_append buf room
      simp only [List.append_assoc, ClientPc.unsent] at hsend hrequest ⊢
      rw [hsend]
      exact hrequest
  | polling =>
    simp only [hpc, ReadSoFar, ClientPc.unsent] at hclient hrequest
    simp only [hdies hpc, Bool.false_eq_true, if_false]
    split_ifs with hempty
    · exact h
    · rw [hclient] at hresponse
      exact ⟨hrequest, hresponse, rfl, h.alive⟩
  | reading toRead =>
    simp only [hpc, ReadSoFar, ClientPc.unsent] at hclient hrequest
    simp only
    split_ifs with hzero
    · subst hzero
      exact ⟨hrequest, hresponse, ⟨rfl, hclient, rfl⟩, h.alive⟩
    · cases harrived : s.toClient.arrived with
      | nil => exact absurd harrived (hbyte toRead hpc hzero)
      | cons b rest =>
        rw [harrived] at hresponse
        refine ⟨hrequest, ?_, ?_, h.alive⟩
        · simpa using hresponse
        · simp only [ReadSoFar, List.length_append, List.length_singleton]
          omega
  | returned rc => exact h

theorem Inv.serverStep (hserve : handleRequest benchmark p = .ok res) (h : Inv p res s) (room : ℕ) :
    Inv p res (serverStep benchmark room s) := by
  have hrequest := h.request
  have hresponse := h.response
  unfold Stream.serverStep
  cases hpc : s.server with
  | reading r =>
    simp only [hpc, ServerPc.got, ServerPc.unsent] at hrequest hresponse
    simp only
    split_ifs with hfull
    · exact ⟨hrequest, hresponse, h.client, by simp⟩
    · cases harrived : s.toServer.arrived with
      | nil => exact h
      | cons b rest =>
        rw [harrived] at hrequest
        refine ⟨?_, hresponse, h.client, by simp⟩
        simpa [ServerPc.got, ReadState.readByte] using hrequest
  | serving q =>
    obtain rfl := h.reqPacket (q := q) (by rw [hpc]; rfl)
    simp only [hpc, ServerPc.got, ServerPc.unsent] at hrequest hresponse
    simp only [hserve]
    exact ⟨hrequest, hresponse, h.client, by simp⟩
  | replying q buf =>
    simp only [hpc, ServerPc.got, ServerPc.unsent] at hrequest hresponse
    simp only
    split_ifs with hempty hfull
    · subst hempty
      exact ⟨hrequest, hresponse, h.client, by simp⟩
    · exact h
    · refine ⟨hrequest, ?_, h.client, by simp⟩
      have hsend := s.toClient.send_append buf room
      simp only [List.append_assoc, ServerPc.unsent] at hsend hresponse ⊢
      rw [hsend]
      exact hresponse
  | finished q => exact h
  | aborted => exact h

theorem Inv.step (hserve : handleRequest benchmark p = .ok res) (h : Inv p res s) {e : Event}
    (hready : BytesReady e s) : Inv p res (step benchmark s e) := by
  cases e with
  | client room dies => exact h.clientStep hready
  | server room => exact h.serverStep hserve room
  | toServer n => exact h.deliver_toServer n
  | toClient n => exact h.deliver_toClient n

/-- When the client has returned, everything has arrived. -/
theorem Inv.exchanged (h : Inv p res s) {rc : ℤ} (hpc : s.client = .returned rc) :
    Exchanged p (int32 res.rc) s := by
  obtain ⟨hrc, hlength, hret⟩ : rc = CHRONOS_SUCCESS ∧ s.response.length = RESPONSE_PACKET_SZ ∧
      s.txnRcRet = some (chronosResponseResultGet s.response) := by
    have hclient := h.client
    rwa [hpc] at hclient
  have hresponse := h.response
  have htotal := congrArg List.length hresponse
  simp only [List.length_append, hlength, responseBytes_length] at htotal
  have harrived : s.toClient.arrived = [] := List.eq_nil_of_length_eq_zero (by omega)
  have hflight : s.toClient.inFlight = [] := List.eq_nil_of_length_eq_zero (by omega)
  have hunsent : s.server.unsent res = [] := List.eq_nil_of_length_eq_zero (by omega)
  rw [harrived, hflight, hunsent] at hresponse
  simp only [List.append_nil] at hresponse
  refine ⟨?_, by rw [hpc, hrc], ?_⟩
  · have hne : responseBytes res ≠ [] := fun h => by
      have hlen := responseBytes_length res
      rw [h] at hlen
      cases hlen
    cases hserver : s.server with
    | reading r =>
      rw [hserver] at hunsent
      exact absurd hunsent hne
    | serving q =>
      rw [hserver] at hunsent
      exact absurd hunsent hne
    | replying q buf => rw [← h.reqPacket (q := q) (by rw [hserver]; rfl)]; rfl
    | finished q => rw [← h.reqPacket (q := q) (by rw [hserver]; rfl)]; rfl
    | aborted => exact absurd hserver h.alive
  · rw [hret, hresponse, chronosResponseResultGet_responseBytes]

end Inv

/-! ## Progress -/

/-- A byte counts less the further it is on its way, a party the closer it is to its end. -/
def rank (s : State) : ℕ :=
  (match s.client with
    | .sending buf => 3 * buf.length + 3
    | .polling => 2
    | .reading _ => 1
    | .returned _ => 0) +
  (2 * s.toServer.inFlight.length + s.toServer.arrived.length) +
  (match s.server with
    | .reading _ => 3 * RESPONSE_PACKET_SZ + 3
    | .serving _ => 3 * RESPONSE_PACKET_SZ + 2
    | .replying _ buf => 3 * buf.length + 1
    | .finished _ => 0
    | .aborted => 0) +
  (2 * s.toClient.inFlight.length + s.toClient.arrived.length)

section Progress
variable {benchmark : Benchmark} {p : RequestPacket} {res : ResponsePacket} {s : State}

theorem deliver_lower (w : Wire) (n : ℕ) : w.deliver n = w ∨
    2 * (w.deliver n).inFlight.length + (w.deliver n).arrived.length <
      2 * w.inFlight.length + w.arrived.length := by
  by_cases h : w.inFlight.take n = []
  · left
    have hdrop : w.inFlight.drop n = w.inFlight := by
      have happend := w.inFlight.take_append_drop n
      rwa [h] at happend
    simp [Wire.deliver, h, hdrop]
  · right
    have hpos : 0 < min n w.inFlight.length := by
      have hlen := List.length_pos_of_ne_nil h
      rwa [List.length_take] at hlen
    simp only [Wire.deliver, List.length_drop, List.length_append, List.length_take]
    omega

theorem clientStep_lower (room : ℕ) (dies : Bool) :
    clientStep room dies s = s ∨ rank (clientStep room dies s) < rank s := by
  unfold clientStep
  cases hpc : s.client with
  | sending buf =>
    simp only
    split_ifs with hempty hfull
    · right
      simp only [rank, hpc]
      omega
    · right
      simp only [rank, hpc]
      omega
    · right
      have hpos := List.length_pos_of_ne_nil hempty
      simp only [rank, hpc, Wire.send, List.length_append, List.length_take, List.length_drop]
      omega
  | polling =>
    simp only
    split_ifs with hdies hempty
    · right
      simp only [rank, hpc]
      omega
    · exact Or.inl rfl
    · right
      simp only [rank, hpc]
      omega
  | reading toRead =>
    simp only
    split_ifs with hzero
    · right
      simp only [rank, hpc]
      omega
    · right
      cases harrived : s.toClient.arrived with
      | nil =>
        simp only [rank, hpc, harrived]
        omega
      | cons b rest =>
        simp only [rank, hpc, harrived, List.length_cons]
        omega
  | returned rc => exact Or.inl rfl

theorem serverStep_lower (room : ℕ) : serverStep benchmark room s = s ∨
    rank (serverStep benchmark room s) < rank s := by
  unfold serverStep
  cases hpc : s.server with
  | reading r =>
    simp only
    split_ifs with hfull
    · right
      simp only [rank, hpc]
      omega
    · cases harrived : s.toServer.arrived with
      | nil => exact Or.inl rfl
      | cons b rest =>
        right
        simp only [rank, hpc, harrived, List.length_cons]
        omega
  | serving q =>
    right
    simp only
    cases handleRequest benchmark q with
    | error f =>
      simp only [rank, hpc]
      omega
    | ok res =>
      simp only [rank, hpc, responseBytes_length]
      omega
  | replying q buf =>
    simp only
    split_ifs with hempty hfull
    · right
      simp only [rank, hpc, hempty]
      simp
    · exact Or.inl rfl
    · right
      have hpos := List.length_pos_of_ne_nil hempty
      simp only [rank, hpc, Wire.send, List.length_append, List.length_take, List.length_drop]
      omega
  | finished q => exact Or.inl rfl
  | aborted => exact Or.inl rfl

theorem step_lower (e : Event) : step benchmark s e = s ∨ rank (step benchmark s e) < rank s := by
  cases e with
  | client room dies => exact clientStep_lower room dies
  | server room => exact serverStep_lower room
  | toServer n =>
    rcases deliver_lower s.toServer n with heq | hlt
    · left
      simp only [Stream.step, heq]
    · right
      simp only [Stream.step, rank]
      omega
  | toClient n =>
    rcases deliver_lower s.toClient n with heq | hlt
    · left
      simp only [Stream.step, heq]
    · right
      simp only [Stream.step, rank]
      omega

theorem deliver_ne {w : Wire} (h : w.inFlight ≠ []) {n : ℕ} (hn : 0 < n) : w.deliver n ≠ w := by
  intro heq
  have hlen := congrArg (fun w => w.inFlight.length) heq
  have hpos := List.length_pos_of_ne_nil h
  simp only [Wire.deliver, List.length_drop] at hlen
  omega

theorem server_moves (halive : s.server ≠ .aborted) (hnot : ∀ q, s.server ≠ .finished q)
    (hbyte : ∀ r, s.server = .reading r → r.toRead ≠ 0 →
      s.toServer.arrived ≠ []) {room : ℕ} (hroom : 0 < room) :
    serverStep benchmark room s ≠ s := by
  intro heq
  have hpcs := congrArg State.server heq
  unfold serverStep at hpcs
  cases hpc : s.server with
  | reading r =>
    simp only [hpc] at hpcs
    split_ifs at hpcs with hfull
    cases harrived : s.toServer.arrived with
    | nil => exact hbyte r hpc hfull harrived
    | cons b rest =>
      simp only [harrived, ServerPc.reading.injEq] at hpcs
      have hbuf := congrArg (fun r => r.buf.length) hpcs
      simp [ReadState.readByte] at hbuf
  | serving q =>
    simp only [hpc] at hpcs
    cases hres : handleRequest benchmark q with
    | error f =>
      rw [hres] at hpcs
      cases hpcs
    | ok res =>
      rw [hres] at hpcs
      cases hpcs
  | replying q buf =>
    simp only [hpc, if_neg hroom.ne'] at hpcs
    split_ifs at hpcs with hempty
    simp only [ServerPc.replying.injEq, true_and] at hpcs
    have hlen := congrArg List.length hpcs
    have hpos := List.length_pos_of_ne_nil hempty
    rw [List.length_drop] at hlen
    omega
  | finished q => exact hnot q hpc
  | aborted => exact halive hpc

theorem client_moves (hnot : ∀ rc, s.client ≠ .returned rc)
    (hpoll : s.client = .polling → s.toClient.arrived ≠ []) (room : ℕ) (dies : Bool) :
    clientStep room dies s ≠ s := by
  intro heq
  have hpcs := congrArg State.client heq
  unfold clientStep at hpcs
  cases hpc : s.client with
  | sending buf =>
    simp only [hpc] at hpcs
    split_ifs at hpcs with hempty hfull
    simp only [ClientPc.sending.injEq] at hpcs
    have hlen := congrArg List.length hpcs
    have hpos := List.length_pos_of_ne_nil hempty
    rw [List.length_drop] at hlen
    omega
  | polling =>
    simp only [hpc, if_neg (hpoll hpc)] at hpcs
    split_ifs at hpcs
  | reading toRead =>
    simp only [hpc] at hpcs
    split_ifs at hpcs with hzero
    cases harrived : s.toClient.arrived with
    | nil =>
      rw [harrived] at hpcs
      cases hpcs
    | cons b rest =>
      simp only [harrived, ClientPc.reading.injEq] at hpcs
      omega
  | returned rc => exact hnot rc hpc

theorem Inv.progress (h : Inv p res s) (hnot : ∀ rc, s.client ≠ .returned rc) :
    ∃ k, ∀ e, Serves k e → Stream.step benchmark s e ≠ s := by
  have hrequest := congrArg List.length h.request
  have hresponse := congrArg List.length h.response
  simp only [List.length_append, p.2, responseBytes_length] at hrequest hresponse
  by_cases hto : s.toServer.inFlight = []
  rotate_left
  · refine ⟨.toServer, ?_⟩
    rintro e ⟨n, hn, rfl⟩ heq
    exact deliver_ne hto hn (congrArg State.toServer heq)
  by_cases hback : s.toClient.inFlight = []
  rotate_left
  · refine ⟨.toClient, ?_⟩
    rintro e ⟨n, hn, rfl⟩ heq
    exact deliver_ne hback hn (congrArg State.toClient heq)
  rw [hto, List.length_nil] at hrequest
  rw [hback, List.length_nil] at hresponse
  by_cases hsending : ∃ buf, s.client = .sending buf
  · obtain ⟨buf, hpc⟩ := hsending
    refine ⟨.client, ?_⟩
    rintro e ⟨room, dies, rfl⟩
    exact client_moves hnot (by simp [hpc]) room dies
  have hunsent : s.client.unsent = [] := by
    cases hpc : s.client with
    | sending buf => exact absurd ⟨buf, hpc⟩ hsending
    | _ => rfl
  rw [hunsent, List.length_nil] at hrequest
  by_cases hfinished : ∃ q, s.server = .finished q
  · obtain ⟨q, hserver⟩ := hfinished
    refine ⟨.client, ?_⟩
    rintro e ⟨room, dies, rfl⟩
    refine client_moves hnot (fun hpc harrived => ?_) room dies
    have hread := h.client
    simp only [hpc, ReadSoFar] at hread
    simp [hread, harrived, hserver, ServerPc.unsent] at hresponse
  · refine ⟨.server, ?_⟩
    rintro e ⟨room, hroom, rfl⟩
    refine server_moves h.alive (fun q hq => hfinished ⟨q, hq⟩) (fun r hpc hleft harrived =>
      ?_) hroom
    have hsizes := r.sizes
    rw [hpc, harrived] at hrequest
    simp only [ServerPc.got, List.length_nil] at hrequest
    omega

end Progress

/-! ## The exchange -/

section Exchange
variable {benchmark : Benchmark} {p : RequestPacket} {res : ResponsePacket} {s : State}

theorem returned_step {rc : ℤ} (h : s.client = .returned rc) (e : Event) :
    (step benchmark s e).client = .returned rc := by
  cases e with
  | client room dies =>
    simp only [step, clientStep, h]
  | server room =>
    simp only [step, serverStep]
    split
    · split_ifs
      · exact h
      · split <;> exact h
    · split <;> exact h
    · split_ifs <;> exact h
    · exact h
    · exact h
  | toServer n => exact h
  | toClient n => exact h

variable (benchmark) in
/-- A step that is not ready makes the client return with a failure. -/
theorem fails_of_not_ready {e : Event} (h : ¬ BytesReady e s) :
    (∀ rc, s.client ≠ .returned rc) ∧ (step benchmark s e).client = .returned CHRONOS_FAIL := by
  cases e with
  | client room dies =>
    cases hpc : s.client with
    | sending buf =>
      have hfull : buf ≠ [] ∧ room = 0 := by
        simpa [BytesReady, hpc] using h
      simp [step, clientStep, hpc, hfull]
    | polling =>
      have hdies : dies = true := by
        simpa [BytesReady, hpc] using h
      simp [step, clientStep, hpc, hdies]
    | reading toRead =>
      have hempty : toRead ≠ 0 ∧ s.toClient.arrived = [] := by
        simpa [BytesReady, hpc] using h
      simp [step, clientStep, hpc, hempty]
    | returned rc => simp [BytesReady, hpc] at h
  | server room => exact absurd trivial h
  | toServer n => exact absurd trivial h
  | toClient n => exact absurd trivial h

theorem returned_run {rc : ℤ} {ev : ℕ → Event} {n m : ℕ} (hle : n ≤ m)
    (h : (runFor (step benchmark) ev s n).client = .returned rc) :
    (runFor (step benchmark) ev s m).client = .returned rc :=
  runFor_stable (P := fun s : State => s.client = .returned rc)
    (fun _ e h => returned_step h e) hle h

theorem inv_run (hserve : handleRequest benchmark p = .ok res) {ev : ℕ → Event} {n : ℕ}
    (hready : ∀ k < n, BytesReady (ev k) (runFor (step benchmark) ev (start p) k)) :
    Inv p res (runFor (step benchmark) ev (start p) n) := by
  induction n with
  | zero => exact inv_start
  | succ n ih => exact (ih fun k hk => hready k (by omega)).step hserve (hready n (by omega))

def ClientReturned (s : State) : Prop := ∃ rc, s.client = .returned rc

/-- As long as every step is ready, a fair schedule brings everything through. -/
theorem exchanged_of_ready (hserve : handleRequest benchmark p = .ok res)
    (hint : -INT_BOUND ≤ res.rc ∧ res.rc < INT_BOUND) {ev : ℕ → Event} (hfair : Fair Serves ev)
    (hready : ∀ n, BytesReady (ev n) (runFor (step benchmark) ev (start p) n)) :
    ∃ n, Exchanged p res.rc (runFor (step benchmark) ev (start p) n) := by
  have hinv : ∀ n, Inv p res (runFor (step benchmark) ev (start p) n) :=
    fun n => inv_run hserve fun k _ => hready k
  have hreturned : ∃ n, ClientReturned (runFor (step benchmark) ev (start p) n) :=
    fair_reaches rank hfair hinv (fun n => step_lower (ev n))
      fun s hs hnot => hs.progress fun rc hpc => hnot ⟨rc, hpc⟩
  obtain ⟨n, rc, hpc⟩ := hreturned
  have hexchanged := (hinv n).exchanged hpc
  rw [int32_eq_self hint.1 hint.2] at hexchanged
  exact ⟨n, hexchanged⟩

/-- Under a fair schedule a request and its response come through exactly if at every step
of the client its socket has room for a write and a byte for a read. -/
theorem exchanged_iff (benchmark : Benchmark) (p : RequestPacket) (res : ResponsePacket)
    (hserve : handleRequest benchmark p = .ok res) (hint : -INT_BOUND ≤ res.rc ∧ res.rc < INT_BOUND)
    (ev : ℕ → Event) (hfair : Fair Serves ev) :
    (∃ n, Exchanged p res.rc (runFor (step benchmark) ev (start p) n)) ↔
      ∀ n, BytesReady (ev n) (runFor (step benchmark) ev (start p) n) := by
  refine ⟨?_, exchanged_of_ready hserve hint hfair⟩
  rintro ⟨m, -, hsuccess, -⟩ n
  by_contra hnot
  obtain ⟨hbefore, hfails⟩ := fails_of_not_ready benchmark hnot
  rcases Nat.lt_or_ge n m with hlt | hge
  · have hfailed := returned_run (n := n + 1) hlt hfails
    rw [hsuccess, ClientPc.returned.injEq] at hfailed
    cases hfailed
  · exact hbefore _ (returned_run hge hsuccess)

end Exchange

/-! ## Responses that arrive whole -/

/-- Writes and deliveries of a response take all that there is. -/
def Whole : Event → Prop
  | .client room dies => room ≠ 0 ∧ dies = false
  | .server room => RESPONSE_PACKET_SZ ≤ room
  | .toServer _ => True
  | .toClient n => RESPONSE_PACKET_SZ ≤ n

/-- No byte of the response has arrived, or all have. -/
def AllOrNothing (res : ResponsePacket) (s : State) : Prop :=
  ((∀ toRead, s.client ≠ .reading toRead) ∧ s.toClient.arrived = [] ∧
    (s.toClient.inFlight = [] ∨ s.server.unsent res = [])) ∨
    (s.toClient.inFlight = [] ∧ s.server.unsent res = [])

section Whole
variable {benchmark : Benchmark} {p : RequestPacket} {res : ResponsePacket} {s : State}

theorem AllOrNothing.ready (h : AllOrNothing res s) (hinv : Inv p res s) {e : Event}
    (he : Whole e) : BytesReady e s := by
  cases e with
  | client room dies =>
    refine ⟨fun _ _ _ => he.1, fun _ => he.2, fun toRead hpc hleft harrived => ?_⟩
    rcases h with ⟨hnot, -, -⟩ | ⟨hflight, hunsent⟩
    · exact hnot _ hpc
    · have hread := hinv.client
      have hresponse := congrArg List.length hinv.response
      rw [hpc] at hread
      simp only [ReadSoFar] at hread
      simp only [harrived, hflight, hunsent, List.append_nil, responseBytes_length] at hresponse
      omega
  | server room => trivial
  | toServer n => trivial
  | toClient n => trivial

theorem clientStep_keeps (room : ℕ) (dies : Bool) :
    (clientStep room dies s).toClient.inFlight = s.toClient.inFlight ∧
    (clientStep room dies s).server = s.server := by
  unfold clientStep
  split
  · split_ifs <;> exact ⟨rfl, rfl⟩
  · split_ifs <;> exact ⟨rfl, rfl⟩
  · split_ifs
    · exact ⟨rfl, rfl⟩
    · split <;> exact ⟨rfl, rfl⟩
  · exact ⟨rfl, rfl⟩

theorem AllOrNothing.clientStep (h : AllOrNothing res s) {room : ℕ} {dies : Bool}
    (he : Whole (.client room dies)) : AllOrNothing res (clientStep room dies s) := by
  obtain ⟨hflight, hserver⟩ := clientStep_keeps (s := s) room dies
  rcases h with ⟨hnot, harrived, hone⟩ | ⟨hempty, hunsent⟩
  · left
    rw [hflight, hserver]
    unfold Stream.clientStep
    cases hpc : s.client with
    | sending buf =>
      simp only [if_neg he.1]
      split_ifs
      · exact ⟨by simp, harrived, hone⟩
      · exact ⟨by simp, harrived, hone⟩
    | polling =>
      simp only [he.2, Bool.false_eq_true, if_false, if_pos harrived]
      exact ⟨hnot, harrived, hone⟩
    | reading toRead => exact absurd hpc (hnot toRead)
    | returned rc => exact ⟨hnot, harrived, hone⟩
  · right
    rw [hflight, hserver]
    exact ⟨hempty, hunsent⟩

theorem AllOrNothing.serverStep (h : AllOrNothing res s)
    (hserve : ∀ q, s.server = .serving q → handleRequest benchmark q = .ok res)
    (hinv : Inv p res s) {room : ℕ} (hroom : RESPONSE_PACKET_SZ ≤ room) :
    AllOrNothing res (serverStep benchmark room s) := by
  have hresponse := congrArg List.length hinv.response
  simp only [List.length_append, responseBytes_length] at hresponse
  unfold Stream.serverStep
  cases hpc : s.server with
  | reading r =>
    simp only [AllOrNothing, hpc, ServerPc.unsent] at h
    simp only
    split_ifs
    · exact h
    · split
      · simp only [AllOrNothing, hpc, ServerPc.unsent]
        exact h
      · exact h
  | serving q =>
    simp only [AllOrNothing, hpc, ServerPc.unsent] at h
    simp only [hserve q hpc]
    exact h
  | replying q buf =>
    simp only [hpc, ServerPc.unsent] at hresponse
    have hdrop : buf.drop room = [] := List.drop_eq_nil_of_le (by omega)
    simp only [AllOrNothing, hpc, ServerPc.unsent] at h
    have hpositive : room ≠ 0 := Nat.pos_iff_ne_zero.mp (Nat.lt_of_lt_of_le (by norm_num) hroom)
    simp only [if_neg hpositive]
    split_ifs with hempty
    · subst hempty
      exact h
    · rcases h with ⟨hnot, harrived, -⟩ | ⟨-, hunsent⟩
      · exact Or.inl ⟨hnot, harrived, Or.inr hdrop⟩
      · exact absurd hunsent hempty
  | finished q => exact h
  | aborted => exact h

theorem AllOrNothing.deliver_toClient (h : AllOrNothing res s) (hinv : Inv p res s) {n : ℕ}
    (hn : RESPONSE_PACKET_SZ ≤ n) :
    AllOrNothing res { s with toClient := s.toClient.deliver n } := by
  have hresponse := congrArg List.length hinv.response
  simp only [List.length_append, responseBytes_length] at hresponse
  have hdrop : s.toClient.inFlight.drop n = [] := List.drop_eq_nil_of_le (by omega)
  rcases h with ⟨hnot, harrived, hflight | hunsent⟩ | ⟨hflight, hunsent⟩
  · left
    simp only [Wire.deliver, hflight, harrived]
    exact ⟨hnot, by simp, Or.inl (by simp)⟩
  · exact Or.inr ⟨hdrop, hunsent⟩
  · exact Or.inr ⟨hdrop, hunsent⟩

theorem AllOrNothing.step (h : AllOrNothing res s) (hserve : handleRequest benchmark p = .ok res)
    (hinv : Inv p res s) {e : Event} (he : Whole e) :
    AllOrNothing res (Stream.step benchmark s e) := by
  cases e with
  | client room dies => exact h.clientStep he
  | server room =>
    refine h.serverStep (fun q hq => ?_) hinv he
    obtain rfl := hinv.reqPacket (q := q) (by rw [hq]; rfl)
    exact hserve
  | toServer n => exact h
  | toClient n => exact h.deliver_toClient hinv he

/-- Where the response is written and delivered in one piece, every read finds a byte. -/
theorem ready_of_whole (hserve : handleRequest benchmark p = .ok res) {ev : ℕ → Event}
    (hwhole : ∀ n, Whole (ev n)) (n : ℕ) :
    BytesReady (ev n) (runFor (Stream.step benchmark) ev (start p) n) := by
  have hboth : ∀ n, Inv p res (runFor (Stream.step benchmark) ev (start p) n) ∧
      AllOrNothing res (runFor (Stream.step benchmark) ev (start p) n) := by
    intro n
    induction n with
    | zero => exact ⟨inv_start, Or.inl ⟨by simp [runFor, start], rfl, Or.inl rfl⟩⟩
    | succ n ih =>
      exact ⟨ih.1.step hserve (ih.2.ready ih.1 (hwhole n)), ih.2.step hserve ih.1 (hwhole n)⟩
  exact (hboth n).2.ready (hboth n).1 (hwhole n)

end Whole

/-! ## Two schedules -/

/-- A view of one portfolio. -/
def viewOne : RequestPacket := filledPacket [1, 0, 0, 0, 1, 0, 0, 0] 0 rfl

def promptly (n : ℕ) : Event :=
  if n % 4 = 0 then .client REQUEST_PACKET_SZ false
  else if n % 4 = 1 then .toServer REQUEST_PACKET_SZ
  else if n % 4 = 2 then .server RESPONSE_PACKET_SZ
  else .toClient RESPONSE_PACKET_SZ

def byteByByte (n : ℕ) : Event :=
  if n % 6 = 0 then .toClient 1
  else if n % 6 = 4 then .toServer REQUEST_PACKET_SZ
  else if n % 6 = 5 then .server RESPONSE_PACKET_SZ
  else .client REQUEST_PACKET_SZ false

theorem handled_viewOne : handleRequest (.returning BENCHMARK_SUCCESS) viewOne = .ok ⟨1, 0⟩ := by
  decide +kernel

theorem fair_promptly : Fair Serves promptly := by
  intro k n
  cases k with
  | client => exact ⟨4 * n, by omega, REQUEST_PACKET_SZ, false, by simp [promptly]⟩
  | toServer => exact ⟨4 * n + 1, by omega, REQUEST_PACKET_SZ, by norm_num, by simp [promptly]⟩
  | server => exact ⟨4 * n + 2, by omega, RESPONSE_PACKET_SZ, by norm_num, by simp [promptly]⟩
  | toClient => exact ⟨4 * n + 3, by omega, RESPONSE_PACKET_SZ, by norm_num, by simp [promptly]⟩

theorem fair_byteByByte : Fair Serves byteByByte := by
  intro k n
  cases k with
  | toClient => exact ⟨6 * n, by omega, 1, by norm_num, by simp [byteByByte]⟩
  | client => exact ⟨6 * n + 1, by omega, REQUEST_PACKET_SZ, false, by simp [byteByByte]⟩
  | toServer => exact ⟨6 * n + 4, by omega, REQUEST_PACKET_SZ, by norm_num, by simp [byteByByte]⟩
  | server => exact ⟨6 * n + 5, by omega, RESPONSE_PACKET_SZ, by norm_num, by simp [byteByByte]⟩

theorem exchanged_promptly :
    ∃ n, Exchanged viewOne 0 (runFor (step (.returning BENCHMARK_SUCCESS)) promptly
      (start viewOne) n) := by
  have hwhole : ∀ n, Whole (promptly n) := by
    intro n
    unfold promptly
    split_ifs
    · exact ⟨by norm_num, rfl⟩
    · trivial
    · exact le_refl RESPONSE_PACKET_SZ
    · exact le_refl RESPONSE_PACKET_SZ
  exact (exchanged_iff (.returning BENCHMARK_SUCCESS) viewOne ⟨1, 0⟩ handled_viewOne
    (by norm_num) promptly fair_promptly).mpr
    (ready_of_whole handled_viewOne hwhole)

theorem serverStep_keeps (benchmark : Benchmark) (room : ℕ) (s : State) :
    (serverStep benchmark room s).client = s.client ∧
      (serverStep benchmark room s).toClient.arrived = s.toClient.arrived := by
  unfold serverStep
  split
  · split_ifs
    · exact ⟨rfl, rfl⟩
    · split <;> exact ⟨rfl, rfl⟩
  · split <;> exact ⟨rfl, rfl⟩
  · split_ifs <;> exact ⟨rfl, rfl⟩
  · exact ⟨rfl, rfl⟩
  · exact ⟨rfl, rfl⟩

/-- The client waits for the first byte, or has failed. -/
def Waiting (s : State) : Prop :=
  s.client = .polling ∧ s.toClient.arrived = [] ∨ s.client = .returned CHRONOS_FAIL

theorem runFor_round (benchmark : Benchmark) (s : State) (n : ℕ) :
    runFor (step benchmark) byteByByte s (6 * (n + 1)) =
      let quick := clientStep REQUEST_PACKET_SZ false
      let s' := runFor (step benchmark) byteByByte s (6 * n)
      let s' := quick (quick (quick { s' with toClient := s'.toClient.deliver 1 }))
      serverStep benchmark RESPONSE_PACKET_SZ
        { s' with toServer := s'.toServer.deliver REQUEST_PACKET_SZ } := by
  simp [Nat.mul_succ, runFor, byteByByte, step]

theorem waiting_round (n : ℕ) :
    Waiting (runFor (step (.returning BENCHMARK_SUCCESS)) byteByByte (start viewOne)
      (6 * (n + 1))) := by
  induction n with
  | zero =>
    have hne : viewOne.1 ≠ [] := List.ne_nil_of_length_pos (by rw [viewOne.2]; norm_num)
    have hdrop : viewOne.1.drop REQUEST_PACKET_SZ = [] := List.drop_eq_nil_of_le viewOne.2.le
    rw [runFor_round]
    simp only [Waiting, (serverStep_keeps _ _ _).1, (serverStep_keeps _ _ _).2]
    left
    simp [runFor, start, clientStep, Wire.deliver, hne, hdrop, Wire.send]
  | succ n ih =>
    rw [runFor_round]
    generalize runFor (step (.returning BENCHMARK_SUCCESS)) byteByByte (start viewOne)
      (6 * (n + 1)) = s at ih
    simp only [Waiting, (serverStep_keeps _ _ _).1, (serverStep_keeps _ _ _).2]
    rcases ih with ⟨hpc, harrived⟩ | hpc
    · cases hflight : s.toClient.inFlight with
      | nil =>
        left
        simp [clientStep, Wire.deliver, hpc, harrived, hflight]
      | cons b rest =>
        right
        simp [clientStep, Wire.deliver, hpc, harrived, hflight]
    · right
      simp [clientStep, hpc]

/-- The response is delivered in full, but the client finds no second byte after the first. -/
theorem response_lost : ∃ ev, Fair Serves ev ∧
    handleRequest (.returning BENCHMARK_SUCCESS) viewOne = .ok ⟨1, 0⟩ ∧
    (∃ n, (runFor (step (.returning BENCHMARK_SUCCESS)) ev (start viewOne) n).client =
      .returned CHRONOS_FAIL) ∧
    ∀ n, ¬ Exchanged viewOne 0
      (runFor (step (.returning BENCHMARK_SUCCESS)) ev (start viewOne) n) := by
  have hnever : ∀ n, ¬ Exchanged viewOne 0
    (runFor (step (.returning BENCHMARK_SUCCESS)) byteByByte (start viewOne) n) := by
    rintro n ⟨-, hsuccess, -⟩
    have hlater := returned_run (show n ≤ 6 * (n + 1) by omega) hsuccess
    rcases waiting_round n with ⟨hpc, -⟩ | hpc
    · rw [hpc] at hlater
      cases hlater
    · rw [hpc, ClientPc.returned.injEq] at hlater
      cases hlater
  refine ⟨byteByByte, fair_byteByByte, handled_viewOne, ?_, hnever⟩
  by_contra hnot
  rw [not_exists] at hnot
  obtain ⟨n, hn⟩ := exchanged_of_ready handled_viewOne (by norm_num) fair_byteByByte fun n => by
    by_contra hready
    exact hnot (n + 1) (fails_of_not_ready _ hready).2
  exact hnever n hn

end Chronos.Stream
