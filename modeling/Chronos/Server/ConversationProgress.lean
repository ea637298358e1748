import Chronos.Foundation.LeadsTo
import Chronos.Server.Conversation

/-! # Progress of a conversation

Within a request every step that does anything brings it closer to its result, so that a
fair schedule gets through all requests, as long as no call fails, nobody is told to
leave and the handler does not wait for ever. Once a call has failed the client has all
the results it will ever have.
-/
namespace Chronos.Stream
variable {s : State}

theorem rank_toServer {w : Wire}
    (h : 2 * w.inFlight.length + w.arrived.length <
      2 * s.toServer.inFlight.length + s.toServer.arrived.length) :
    rank { s with toServer := w } < rank s := by
  simp only [rank]
  omega

theorem rank_toClient {w : Wire}
    (h : 2 * w.inFlight.length + w.arrived.length <
      2 * s.toClient.inFlight.length + s.toClient.arrived.length) :
    rank { s with toClient := w } < rank s := by
  simp only [rank]
  omega

theorem AllOrNothing.answered {res : Packet.ResponsePacket} (h : AllOrNothing res s)
    {q : Packet.RequestPacket} (hpc : s.server = .serving q) (res' : Packet.ResponsePacket) :
    AllOrNothing res' { s with server := .replying q (responseBytes res') } := by
  have hnonempty : responseBytes res ≠ [] :=
    List.ne_nil_of_length_pos (by rw [responseBytes_length]; norm_num)
  simp only [AllOrNothing, hpc, ServerPc.unsent] at h
  rcases h with ⟨hnot, harrived, hflight | hunsent⟩ | ⟨-, hunsent⟩
  · exact .inl ⟨hnot, harrived, .inl hflight⟩
  · exact absurd hunsent hnonempty
  · exact absurd hunsent hnonempty

end Chronos.Stream

namespace Chronos.Conversation
open Foundation Packet Connection

/-- Every write of the client finds room and every read a byte, and nobody finds `time_to_die`
set. -/
def Ready : Event → State → Prop
  | .client room dies _, c =>
    Stream.BytesReady (.client room dies) c.exchange ∧
      ∀ rc, c.exchange.client = .returned rc → dies = false
  | .server _ dies _ progress, c => dies = true →
    (∀ p, c.exchange.server = .serving p → progress = .waits → c.dispatched = true) ∧
      ∀ p, c.exchange.server ≠ .finished p
  | .toServer _, _ => True
  | .toClient _, _ => True

/-- The party gets something done if it has anything to do. -/
def Serves : Stream.Party → Event → Prop
  | .client, e => ∃ room dies reset, e = .client room dies reset
  | .server, e => ∃ room > 0, ∃ dies reset progress, e = .server room dies reset progress
  | .toServer, e => ∃ n > 0, e = .toServer n
  | .toClient, e => ∃ n > 0, e = .toClient n

/-- The handler comes to look, and finds what it waits for. -/
def Proceeds (e : Event) : Prop :=
  ∃ room dies reset, ∃ progress ≠ .waits, e = .server room dies reset progress

section Run
variable {benchmark : ℕ → Benchmark} {sz : ℕ} {requests : ℕ → RequestPacket} {c : State} {k : ℕ}

/-- What the handler has still to do before it reads the request of the client, and afterwards. -/
def State.lag (c : State) : ℕ :=
  match c.exchange.server with
  | .reading _ => if c.handled.length = c.results.length then 2 else 0
  | .serving _ => if c.dispatched then 1 else 2
  | .replying _ _ => if c.handled.length = c.results.length then 4 else 1
  | .finished _ => if c.handled.length = c.results.length then 3 else 1
  | .aborted => 1

def rank (requests : ℕ → RequestPacket) (c : State) : ℕ :=
  Stream.rank (c.current requests c.exchange.client) + c.lag

/-- The client is in its `k`-th request, and neither side has left. -/
structure Going (benchmark : ℕ → Benchmark) (sz : ℕ) (requests : ℕ → RequestPacket) (k : ℕ)
    (c : State) : Prop where
  good : Good benchmark sz requests c c.exchange.client
  results : c.results.length = k
  client : c.clientLeft = false
  server : c.serverLeft = false

theorem clientStep_called {room : ℕ} {dies reset : Bool} (hleft : c.clientLeft = false)
    (hopen : c.serverLeft = false) (hnot : ∀ rc, c.exchange.client ≠ .returned rc) :
    clientStep requests room dies reset c =
      { c with exchange := Stream.clientStep room dies c.exchange } := by
  have hclosed : ¬ (dies = false ∧ (c.Closed ∨ c.serverLeft ∧ reset)) := by
    simp [State.Closed, hopen]
  cases hpc : c.exchange.client with
  | returned rc => exact absurd hpc (hnot rc)
  | sending buf => simp [clientStep, hleft, hopen, hpc]
  | polling => simp only [clientStep, hleft, hpc, if_neg hclosed, Bool.false_eq_true, if_false]
  | reading toRead => simp [clientStep, hleft, hopen, hpc]

/-- The step keeps to the request of the client, and brings it closer to its end if it does
anything. -/
def Moves (benchmark : ℕ → Benchmark) (sz : ℕ) (requests : ℕ → RequestPacket) (k : ℕ)
    (c c' : State) : Prop :=
  Going benchmark sz requests k c' ∧ (c' = c ∨ rank requests c' < rank requests c)

/-- A call of the client goes on in its exchange as in the exchange alone. -/
theorem current_called (room : ℕ) (dies : Bool) :
    State.current requests { c with exchange := Stream.clientStep room dies c.exchange }
      (Stream.clientStep room dies c.exchange).client =
        Stream.clientStep room dies (c.current requests c.exchange.client) := by
  have hsame : State.server requests { c with exchange := Stream.clientStep room dies c.exchange } =
    c.server requests := by
    simp only [State.server, (Stream.clientStep_keeps (s := c.exchange) room dies).2]
  rw [State.current, State.current, hsame]
  exact (Stream.clientStep_withServer room dies c.exchange (c.server requests)).symm

theorem Going.called (h : Going benchmark sz requests k c) {room : ℕ} {dies : Bool}
    (hready : Stream.BytesReady (.client room dies) c.exchange) :
    Moves benchmark sz requests k c
      { c with exchange := Stream.clientStep room dies c.exchange } := by
  refine ⟨⟨h.good.calledReady hready, h.results, h.client, h.server⟩, ?_⟩
  have hserver := (Stream.clientStep_keeps (s := c.exchange) room dies).2
  have hlag : State.lag { c with exchange := Stream.clientStep room dies c.exchange } = c.lag := by
    simp only [State.lag, hserver]
  rcases Stream.clientStep_lower (s := c.current requests c.exchange.client) room dies
    with heq | hlt
  · have hback := congrArg (fun s : Stream.State => { s with server := c.exchange.server }) heq
    rw [State.current, Stream.clientStep_withServer] at hback
    have hexchange : Stream.clientStep room dies c.exchange = c.exchange := by
      calc Stream.clientStep room dies c.exchange
          = { Stream.clientStep room dies c.exchange with server := c.exchange.server } := by
            rw [← hserver]
        _ = c.exchange := hback
    left
    rw [hexchange]
  · right
    simp only [rank, current_called, hlag]
    omega

theorem Going.success (h : Going benchmark sz requests k c) {rc : ℤ}
    (hpc : c.exchange.client = .returned rc) : rc = CHRONOS_SUCCESS := by
  have hclient := h.good.current.client
  simp only [State.current, hpc] at hclient
  exact hclient.1

theorem Going.next (h : Going benchmark sz requests k c)
    (hpc : c.exchange.client = .returned CHRONOS_SUCCESS) :
    Going benchmark sz requests (k + 1) (c.next requests false) where
  good := by
    have hclient : (c.next requests false).exchange.client =
      .sending (requests (c.results.length + 1)).1 := by
      simp [State.next]
    rw [hclient]
    exact h.good.next hpc false
  results := by simp [State.next, h.results]
  client := rfl
  server := h.server

theorem Going.clientStep (h : Going benchmark sz requests k c) {room : ℕ} {dies reset : Bool}
    (hready : Ready (.client room dies reset) c) :
    Going benchmark sz requests (k + 1) (clientStep requests room dies reset c) ∨
      Moves benchmark sz requests k c (clientStep requests room dies reset c) := by
  by_cases hreturned : ∃ rc, c.exchange.client = .returned rc
  · obtain ⟨rc, hpc⟩ := hreturned
    obtain rfl := h.success hpc
    have hnext : Conversation.clientStep requests room dies reset c = c.next requests false := by
      simp [Conversation.clientStep, h.client, hpc, hready.2 _ hpc]
    left
    rw [hnext]
    exact h.next hpc
  · right
    rw [clientStep_called h.client h.server fun rc hrc => hreturned ⟨rc, hrc⟩]
    exact h.called hready.1

theorem current_of_same (hsame : c.server requests = c.exchange.server) :
    c.current requests c.exchange.client = c.exchange := by
  rw [State.current, hsame]

theorem lower_of_serverMoved (hsame : c.server requests = c.exchange.server) (b : Benchmark)
    (room : ℕ)
    (hserver : State.server requests { c with exchange := Stream.serverStep b room c.exchange } =
      (Stream.serverStep b room c.exchange).server)
    (hlag : State.lag { c with exchange := Stream.serverStep b room c.exchange } ≤ c.lag) :
    ({ c with exchange := Stream.serverStep b room c.exchange } : State) = c ∨
      rank requests { c with exchange := Stream.serverStep b room c.exchange } <
        rank requests c := by
  have hlower : Stream.serverStep b room c.exchange = c.exchange ∨
      Stream.rank (Stream.serverStep b room c.exchange) < Stream.rank c.exchange :=
        Stream.serverStep_lower room
  rcases hlower with heq | hlt
  · left
    rw [heq]
  · right
    simp only [rank, current_of_same hserver, current_of_same hsame]
    omega

theorem Going.withServer (h : Going benchmark sz requests k c) {c' : State}
    (hgood : Good benchmark sz requests c' c.exchange.client)
    (hclient : c'.exchange.client = c.exchange.client) (hresults : c'.results = c.results)
    (hstay : c'.clientLeft = c.clientLeft ∧ c'.serverLeft = c.serverLeft) :
    Going benchmark sz requests k c' :=
  ⟨hclient ▸ hgood, (congrArg List.length hresults).trans h.results, hstay.1.trans h.client,
    hstay.2.trans h.server⟩

theorem Going.reads (h : Going benchmark sz requests k c) {r : ReadState}
    (hpc : c.exchange.server = .reading r) (b : Benchmark) (room : ℕ) :
    Moves benchmark sz requests k c { c with exchange := Stream.serverStep b room c.exchange } := by
  refine ⟨h.withServer (h.good.reads hpc b room) (Stream.serverStep_keeps _ _ _).1 rfl
    ⟨rfl, rfl⟩, ?_⟩
  rcases h.good.abreast.ahead with hlen | hlen
  · have hsame : c.server requests = c.exchange.server := by
      simp only [State.server, hpc, if_pos hlen]
    rcases Stream.serverStep_reading b room hpc with ⟨r', hr'⟩ | ⟨p, hp⟩
    · exact lower_of_serverMoved hsame b room (by simp only [State.server, hr', if_pos hlen])
        (by simp only [State.lag, hr', hpc, if_pos hlen, le_refl])
    · refine lower_of_serverMoved hsame b room (by simp only [State.server, hp]) ?_
      simp only [State.lag, hp, hpc, if_pos hlen]
      split_ifs <;> omega
  · left
    rw [h.good.reads_ahead hpc hlen]

theorem Going.replies (h : Going benchmark sz requests k c) {p : RequestPacket} {buf : List Byte}
    (hpc : c.exchange.server = .replying p buf) (b : Benchmark) (room : ℕ) :
    Moves benchmark sz requests k c { c with exchange := Stream.serverStep b room c.exchange } := by
  refine ⟨h.withServer (h.good.replies hpc b room) (Stream.serverStep_keeps _ _ _).1 rfl
    ⟨rfl, rfl⟩, ?_⟩
  by_cases hlen : c.handled.length = c.results.length
  · obtain rfl := h.good.abreast.replying p buf hpc hlen
    have hends : Stream.serverStep b room c.exchange =
      { c.exchange with server := .finished p } := by
      simp [Stream.serverStep, hpc]
    right
    rw [hends]
    simp [rank, State.current, State.server, State.lag, hpc, hlen]
  · have hsame : c.server requests = c.exchange.server := by
      simp only [State.server, hpc, if_neg hlen]
    rcases Stream.serverStep_replying b room hpc with ⟨buf', hbuf'⟩ | hdone
    · exact lower_of_serverMoved hsame b room (by simp only [State.server, hbuf', if_neg hlen])
        (by simp only [State.lag, hbuf', hpc, if_neg hlen, le_refl])
    · exact lower_of_serverMoved hsame b room (by simp only [State.server, hdone, if_neg hlen])
        (by simp only [State.lag, hdone, hpc, if_neg hlen, le_refl])

theorem Going.handles (h : Going benchmark sz requests k c) {p : RequestPacket}
    (hpc : c.exchange.server = .serving p) {progress : Progress} {res : ResponsePacket}
    {items : List (Fin sz)}
    (hres : handleRequest2 (progress.seen (benchmark c.handled.length)) sz p = .ok (res, items)) :
    Moves benchmark sz requests k c { c with
      exchange := { c.exchange with server := .replying p (Stream.responseBytes res) }
      handled := c.handled ++ [(p, res)]
      dispatched := false } := by
  refine ⟨h.withServer (h.good.handles hpc hres) rfl rfl ⟨rfl, rfl⟩, .inr ?_⟩
  have hlen := h.good.abreast.serving p hpc
  cases hdispatched : c.dispatched <;>
    simp [rank, Stream.rank, State.current, State.server, State.lag, hpc, hlen, hdispatched,
      Stream.responseBytes_length]

theorem Going.dispatches (h : Going benchmark sz requests k c) {p : RequestPacket}
    (hpc : c.exchange.server = .serving p) (hbefore : c.dispatched = false) :
    Moves benchmark sz requests k c { c with dispatched := true } := by
  refine ⟨h.withServer (h.good.left c.clientLeft c.serverLeft true) rfl rfl ⟨rfl, rfl⟩, .inr ?_⟩
  simp [rank, State.current, State.server, State.lag, hpc, hbefore]

theorem Going.loops (h : Going benchmark sz requests k c) {p : RequestPacket}
    (hpc : c.exchange.server = .finished p) :
    Moves benchmark sz requests k c
      { c with exchange := { c.exchange with server := .reading .start } } := by
  refine ⟨h.withServer (h.good.loops hpc) rfl rfl ⟨rfl, rfl⟩, .inr ?_⟩
  by_cases hlen : c.handled.length = c.results.length
  · simp [rank, State.current, State.server, State.lag, hpc, hlen]
  · simp [rank, Stream.rank, State.current, State.server, State.lag, hpc, hlen]

/-- What the handler serves is the request of the client. -/
theorem Going.served (h : Going benchmark sz requests k c) {p : RequestPacket}
    (hpc : c.exchange.server = .serving p) : p = requests c.handled.length := by
  have hcurrent := h.good.current
  simp only [State.current, State.server, hpc] at hcurrent
  rw [h.good.abreast.serving p hpc]
  exact hcurrent.reqPacket rfl

theorem Going.not_aborted (h : Going benchmark sz requests k c) : c.exchange.server ≠ .aborted := by
  intro hpc
  have halive := h.good.current.alive
  simp only [State.current, State.server, hpc] at halive
  exact halive rfl

theorem Going.not_reset (h : Going benchmark sz requests k c) (P : Prop) :
    ¬ (c.clientLeft = true ∧ P) := by
  simp [h.client]

theorem Going.serverStep (hhandled : ∀ i, Handled (handleRequest2 (benchmark i) sz (requests i)))
    (h : Going benchmark sz requests k c) {room : ℕ} {dies reset : Bool} {progress : Progress}
    (hready : Ready (.server room dies reset progress) c) :
    Moves benchmark sz requests k c (serverStep benchmark sz room dies reset progress c) := by
  unfold Conversation.serverStep
  rw [if_neg (by simp [h.server])]
  cases hpc : c.exchange.server with
  | reading r =>
    simp only [if_neg (h.not_reset _)]
    exact h.reads hpc _ room
  | replying p buf =>
    simp only [if_neg (h.not_reset _)]
    exact h.replies hpc _ room
  | serving p =>
    simp only
    split_ifs with hwaits hdies hbefore
    · have hafter := (hready hdies.1).1 p hpc hwaits
      rw [hdies.2] at hafter
      cases hafter
    · exact ⟨h, .inl rfl⟩
    · exact h.dispatches hpc hbefore
    · obtain ⟨⟨res, items⟩, hres⟩ : Handled
        (handleRequest2 (progress.seen (benchmark c.handled.length)) sz p) := by
        rw [h.served hpc]
        exact handled_seen_iff.mpr (hhandled _)
      simp only [hres]
      exact h.handles hpc hres
  | finished p =>
    have hdies : dies ≠ true := fun hdies => (hready hdies).2 p hpc
    simp only [if_neg hdies]
    exact h.loops hpc
  | aborted => exact absurd hpc h.not_aborted

theorem Going.step (hhandled : ∀ i, Handled (handleRequest2 (benchmark i) sz (requests i)))
    (h : Going benchmark sz requests k c) {e : Event} (hready : Ready e c) :
    Going benchmark sz requests (k + 1) (step benchmark sz requests c e) ∨
      Moves benchmark sz requests k c (step benchmark sz requests c e) := by
  cases e with
  | client room dies reset => exact h.clientStep hready
  | server room dies reset progress => exact .inr (h.serverStep hhandled hready)
  | toServer n =>
    refine .inr ⟨⟨h.good.withExchange rfl (h.good.current.deliver_toServer n) (.inl rfl), h.results,
      h.client, h.server⟩, ?_⟩
    rcases Stream.deliver_lower c.exchange.toServer n with heq | hlt
    · left
      simp only [Conversation.step, heq]
    · right
      simp only [Conversation.step]
      exact Nat.add_lt_add_right
        (Stream.rank_toServer (s := c.current requests c.exchange.client) hlt) c.lag
  | toClient n =>
    refine .inr ⟨⟨h.good.withExchange rfl (h.good.current.deliver_toClient n) (.inl rfl), h.results,
      h.client, h.server⟩, ?_⟩
    rcases Stream.deliver_lower c.exchange.toClient n with heq | hlt
    · left
      simp only [Conversation.step, heq]
    · right
      simp only [Conversation.step]
      exact Nat.add_lt_add_right
        (Stream.rank_toClient (s := c.current requests c.exchange.client) hlt) c.lag

theorem Going.server_moves (h : Going benchmark sz requests k c) {room : ℕ}
    (hnot : ∀ p, c.exchange.server ≠ .serving p)
    (hmoves : Stream.serverStep
      (benchmark c.handled.length) room (c.current requests c.exchange.client) ≠
      c.current requests c.exchange.client) (dies reset : Bool) (progress : Progress) :
    Conversation.serverStep benchmark sz room dies reset progress c ≠ c := by
  have hstep : ∀ exchange, c.exchange ≠ exchange → ({ c with exchange := exchange } : State) ≠ c :=
    fun exchange hne heq => hne (congrArg State.exchange heq).symm
  have hsame : c.server requests = c.exchange.server →
      ({ c with exchange := Stream.serverStep (benchmark c.handled.length) room c.exchange }
        : State) ≠ c := by
    intro hsame
    rw [State.current, hsame] at hmoves
    exact hstep _ (Ne.symm hmoves)
  have hleaves : ({ c with serverLeft := true } : State) ≠ c := by
    intro heq
    have hleft := congrArg State.serverLeft heq
    rw [h.server] at hleft
    cases hleft
  unfold Conversation.serverStep
  rw [if_neg (by simp [h.server])]
  cases hpc : c.exchange.server with
  | reading r =>
    simp only [if_neg (h.not_reset _)]
    by_cases hlen : c.handled.length = c.results.length
    · exact hsame (by simp only [State.server, hpc, if_pos hlen])
    · refine absurd ?_ hmoves
      simp [Stream.serverStep, State.current, State.server, hpc, hlen]
  | replying p buf =>
    simp only [if_neg (h.not_reset _)]
    by_cases hlen : c.handled.length = c.results.length
    · obtain rfl := h.good.abreast.replying p buf hpc hlen
      refine hstep _ fun heq => ?_
      have hserver := congrArg Stream.State.server heq
      simp [Stream.serverStep, hpc] at hserver
    · exact hsame (by simp only [State.server, hpc, if_neg hlen])
  | serving p => exact absurd hpc (hnot p)
  | finished p =>
    simp only
    split_ifs
    · exact hleaves
    · refine hstep _ fun heq => ?_
      have hserver := congrArg Stream.State.server heq
      simp [hpc] at hserver
  | aborted => exact absurd hpc h.not_aborted

theorem Going.serving_moves (h : Going benchmark sz requests k c) {p : RequestPacket}
    (hpc : c.exchange.server = .serving p) {progress : Progress} (hprogress : progress ≠ .waits)
    (room : ℕ) (dies reset : Bool) :
    Conversation.serverStep benchmark sz room dies reset progress c ≠ c := by
  unfold Conversation.serverStep
  rw [if_neg (by simp [h.server])]
  simp only [hpc, if_neg hprogress]
  split_ifs with hbefore
  · intro heq
    have hafter := congrArg State.dispatched heq
    rw [hbefore] at hafter
    cases hafter
  · cases handleRequest2 (progress.seen (benchmark c.handled.length)) sz p with
    | error f =>
      intro heq
      have hleft := congrArg State.serverLeft heq
      rw [h.server] at hleft
      cases hleft
    | ok answer =>
      intro heq
      have hserver := congrArg (fun c => c.exchange.server) heq
      simp [hpc] at hserver

/-- Who may have something to do: the parties, and `none` for the processing that the handler waits
for. -/
def Occurs (kind : Option Stream.Party) (e : Event) : Prop :=
  kind.elim (Proceeds e) fun party => Serves party e

theorem Going.progress (h : Going benchmark sz requests k c) :
    ∃ kind, ∀ e, Occurs kind e → Conversation.step benchmark sz requests c e ≠ c := by
  by_cases hserving : ∃ p, c.exchange.server = .serving p
  · obtain ⟨p, hpc⟩ := hserving
    refine ⟨none, ?_⟩
    rintro _ ⟨room, dies, reset, progress, hprogress, rfl⟩
    exact h.serving_moves hpc hprogress room dies reset
  by_cases hreturned : ∃ rc, c.exchange.client = .returned rc
  · obtain ⟨rc, hpc⟩ := hreturned
    obtain rfl := h.success hpc
    refine ⟨some .client, ?_⟩
    rintro _ ⟨room, dies, reset, rfl⟩ heq
    have hresults := congrArg (fun c => c.results.length) heq
    simp [Conversation.step, Conversation.clientStep, h.client, hpc, State.next] at hresults
  have hnot : ∀ rc, c.exchange.client ≠ .returned rc := fun rc hrc => hreturned ⟨rc, hrc⟩
  have hprogress : ∃ k, ∀ e, Stream.Serves k e →
      Stream.step (benchmark c.handled.length) (c.current requests c.exchange.client) e ≠
        c.current requests c.exchange.client :=
    h.good.current.progress hnot
  obtain ⟨party, hparty⟩ := hprogress
  refine ⟨some party, ?_⟩
  cases party with
  | client =>
    rintro _ ⟨room, dies, reset, rfl⟩ heq
    refine hparty _ ⟨room, dies, rfl⟩ ?_
    rw [Conversation.step, clientStep_called h.client h.server hnot] at heq
    have hexchange : Stream.clientStep room dies c.exchange = c.exchange :=
      congrArg State.exchange heq
    rw [Stream.step, State.current, Stream.clientStep_withServer, hexchange]
  | server =>
    rintro _ ⟨room, hroom, dies, reset, progress, rfl⟩
    exact h.server_moves (fun p hp => hserving ⟨p, hp⟩)
      (hparty _ ⟨room, hroom, rfl⟩) dies reset progress
  | toServer =>
    rintro _ ⟨n, hn, rfl⟩ heq
    refine hparty _ ⟨n, hn, rfl⟩ ?_
    have hwire := congrArg (fun c => c.exchange.toServer) heq
    simp only [Conversation.step] at hwire
    simp only [Stream.step, State.current, hwire]
  | toClient =>
    rintro _ ⟨n, hn, rfl⟩ heq
    refine hparty _ ⟨n, hn, rfl⟩ ?_
    have hwire := congrArg (fun c => c.exchange.toClient) heq
    simp only [Conversation.step] at hwire
    simp only [Stream.step, State.current, hwire]

/-! ## Runs -/

theorem going_start : Going benchmark sz requests 0 (start requests) := ⟨good_start, rfl, rfl, rfl⟩

theorem serverStep_frame (benchmark : ℕ → Benchmark) (sz room : ℕ) (dies reset : Bool)
    (progress : Progress) (c : State) :
    (serverStep benchmark sz room dies reset progress c).exchange.client = c.exchange.client ∧
      (serverStep benchmark sz room dies reset progress c).results = c.results ∧
        (serverStep benchmark sz room dies reset progress c).clientLeft = c.clientLeft := by
  unfold serverStep
  by_cases hleft : c.serverLeft
  · rw [if_pos hleft]
    exact ⟨rfl, rfl, rfl⟩
  · rw [if_neg hleft]
    cases c.exchange.server with
    | reading r =>
      simp only
      split_ifs
      · exact ⟨rfl, rfl, rfl⟩
      · exact ⟨(Stream.serverStep_keeps _ _ _).1, rfl, rfl⟩
    | replying p buf =>
      simp only
      split_ifs
      · exact ⟨rfl, rfl, rfl⟩
      · exact ⟨(Stream.serverStep_keeps _ _ _).1, rfl, rfl⟩
    | serving p =>
      simp only
      split_ifs
      · exact ⟨rfl, rfl, rfl⟩
      · exact ⟨rfl, rfl, rfl⟩
      · exact ⟨rfl, rfl, rfl⟩
      · cases handleRequest2 (progress.seen (benchmark c.handled.length)) sz p <;>
          exact ⟨rfl, rfl, rfl⟩
    | finished p =>
      simp only
      split_ifs <;> exact ⟨rfl, rfl, rfl⟩
    | aborted => exact ⟨rfl, rfl, rfl⟩

/-- The client has left its loop, or is about to. -/
def Stopped (c : State) : Prop := c.clientLeft = true ∨ c.exchange.client = .returned CHRONOS_FAIL

theorem stopped_step (benchmark : ℕ → Benchmark) (sz : ℕ) (requests : ℕ → RequestPacket)
    (h : Stopped c) (e : Event) :
    Stopped (step benchmark sz requests c e) ∧
      (step benchmark sz requests c e).results = c.results := by
  cases e with
  | client room dies reset =>
    simp only [step, clientStep]
    by_cases hleft : c.clientLeft
    · rw [if_pos hleft]
      exact ⟨h, rfl⟩
    · have hpc := h.resolve_left hleft
      simp only [if_neg hleft, hpc]
      exact ⟨.inl rfl, rfl⟩
  | server room dies reset progress =>
    obtain ⟨hclient, hresults, hleft⟩ := serverStep_frame benchmark sz room dies reset progress c
    exact ⟨h.imp (hleft.trans ·) (hclient.trans ·), hresults⟩
  | toServer n => exact ⟨h, rfl⟩
  | toClient n => exact ⟨h, rfl⟩

theorem serverLeft_step (benchmark : ℕ → Benchmark) (sz : ℕ) (requests : ℕ → RequestPacket)
    (h : c.serverLeft = true) (e : Event) :
    (step benchmark sz requests c e).serverLeft = true ∧
    (step benchmark sz requests c e).handled = c.handled := by
  cases e with
  | client room dies reset =>
    obtain ⟨hhandled, hleft⟩ := clientStep_frame requests room dies reset c
    exact ⟨hleft.trans h, hhandled⟩
  | server room dies reset progress =>
    simp only [step, serverStep, if_pos h]
    exact ⟨h, trivial⟩
  | toServer n => exact ⟨h, rfl⟩
  | toClient n => exact ⟨h, rfl⟩

theorem handled_of_not_proceeds {e : Event} (h : ¬ Proceeds e) :
    (step benchmark sz requests c e).handled = c.handled := by
  cases e with
  | client room dies reset => exact (clientStep_frame requests room dies reset c).1
  | server room dies reset progress =>
    rcases serverStep_handled benchmark sz room dies reset progress c with hsame | ⟨hprogress, -⟩
    · exact hsame
    · exact absurd ⟨room, dies, reset, progress, hprogress, rfl⟩ h
  | toServer n => rfl
  | toClient n => rfl

theorem results_le_step (c : State) (e : Event) :
    c.results.length ≤ (step benchmark sz requests c e).results.length := by
  cases e with
  | client room dies reset =>
    simp only [step, clientStep]
    by_cases hleft : c.clientLeft
    · rw [if_pos hleft]
    · rw [if_neg hleft]
      cases c.exchange.client with
      | returned rc =>
        simp only
        split_ifs
        · exact le_rfl
        · simp [State.next]
      | sending buf =>
        simp only
        split_ifs <;> exact le_rfl
      | polling =>
        simp only
        split_ifs <;> exact le_rfl
      | reading toRead =>
        simp only
        split_ifs <;> exact le_rfl
  | server room dies reset progress =>
    rw [step, (serverStep_frame benchmark sz room dies reset progress c).2.1]
  | toServer n => exact le_rfl
  | toClient n => exact le_rfl

/-- After a step that is not ready, one side does not go on. -/
theorem ends_of_not_ready {e : Event} (h : ¬ Ready e c) :
    Stopped (step benchmark sz requests c e) ∨
      (step benchmark sz requests c e).serverLeft = true := by
  cases e with
  | client room dies reset =>
    left
    simp only [step, clientStep]
    by_cases hleft : c.clientLeft
    · rw [if_pos hleft]
      exact .inl hleft
    rw [if_neg hleft]
    by_cases hready : Stream.BytesReady (.client room dies) c.exchange
    · have hdies : ∃ rc, c.exchange.client = .returned rc ∧ dies = true := by
        by_contra hnot
        refine h ⟨hready, fun rc hrc => ?_⟩
        by_contra hdies
        exact hnot ⟨rc, hrc, by simpa using hdies⟩
      obtain ⟨rc, hpc, rfl⟩ := hdies
      simp only [hpc]
      split_ifs <;> exact .inl rfl
    · have hfails := Stream.clientStep_of_not_ready hready
      cases hpc : c.exchange.client with
      | returned rc => simp [Stream.BytesReady, hpc] at hready
      | sending buf =>
        simp only
        split_ifs
        · exact .inl rfl
        · exact .inr (by simp only [hfails])
      | polling =>
        simp only
        split_ifs
        · exact .inr rfl
        · exact .inr (by simp only [hfails])
      | reading toRead =>
        simp only
        split_ifs
        · exact .inr rfl
        · exact .inr (by simp only [hfails])
  | server room dies reset progress =>
    right
    by_cases hleft : c.serverLeft
    · exact (serverLeft_step _ _ _ hleft _).1
    have hwhere : dies = true ∧
      ((∃ p, c.exchange.server = .serving p ∧ progress = .waits ∧ c.dispatched = false) ∨
        ∃ p, c.exchange.server = .finished p) := by
      by_contra hnot
      refine h fun hdies => ⟨fun p hp hwaits => ?_, fun p hp => hnot ⟨hdies, .inr ⟨p, hp⟩⟩⟩
      by_contra hbefore
      exact hnot ⟨hdies, .inl ⟨p, hp, hwaits, by simpa using hbefore⟩⟩
    obtain ⟨rfl, ⟨p, hp, rfl, hbefore⟩ | ⟨p, hp⟩⟩ := hwhere
    · simp [step, serverStep, hleft, hp, hbefore]
    · simp [step, serverStep, hleft, hp]
  | toServer n => exact absurd trivial h
  | toClient n => exact absurd trivial h

/-- Once one side does not go on, there are only finitely many results. -/
theorem bounded_of_ended {ev : ℕ → Event} {n : ℕ}
    (h : Stopped (runFor (step benchmark sz requests) ev (start requests) n) ∨
      (runFor (step benchmark sz requests) ev (start requests) n).serverLeft = true) :
    ∃ bound, ∀ m ≥ n, (runFor (step benchmark sz requests) ev (start requests) m).results.length ≤
      bound := by
  rcases h with hstopped | hleft
  · refine ⟨(runFor (step benchmark sz requests) ev (start requests) n).results.length,
      fun m hm => ?_⟩
    have hlater := runFor_stable (P := fun c : State => Stopped c ∧ c.results =
      (runFor (step benchmark sz requests) ev (start requests) n).results) ?_ hm ⟨hstopped, rfl⟩
    · rw [hlater.2]
    · rintro c e ⟨hc, hresults⟩
      obtain ⟨hc', hsame⟩ := stopped_step benchmark sz requests hc e
      exact ⟨hc', hsame.trans hresults⟩
  · refine ⟨(runFor (step benchmark sz requests) ev (start requests) n).handled.length,
      fun m hm => ?_⟩
    have hlater := runFor_stable (P := fun c : State => c.serverLeft = true ∧ c.handled =
      (runFor (step benchmark sz requests) ev (start requests) n).handled) ?_ hm ⟨hleft, rfl⟩
    · obtain ⟨client, hgood⟩ := good_run benchmark sz requests ev m
      have hprefix := hgood.results.length_le
      rwa [List.length_map, hlater.2] at hprefix
    · rintro c e ⟨hc, hhandled⟩
      obtain ⟨hc', hsame⟩ := serverLeft_step benchmark sz requests hc e
      exact ⟨hc', hsame.trans hhandled⟩

/-- Where the handler comes to find nothing that it waits for, there are only finitely many
results. -/
theorem bounded_of_waiting {ev : ℕ → Event} {n : ℕ} (h : ∀ m ≥ n, ¬ Proceeds (ev m)) :
    ∃ bound, ∀ m ≥ n, (runFor (step benchmark sz requests) ev (start requests) m).results.length ≤
      bound := by
  refine ⟨(runFor (step benchmark sz requests) ev (start requests) n).handled.length,
    fun m hm => ?_⟩
  have hsame : (runFor (step benchmark sz requests) ev (start requests) m).handled =
      (runFor (step benchmark sz requests) ev (start requests) n).handled := by
    induction m, hm using Nat.le_induction with
    | base => rfl
    | succ m hm ih => exact (handled_of_not_proceeds (h m hm)).trans ih
  obtain ⟨client, hgood⟩ := good_run benchmark sz requests ev m
  have hprefix := hgood.results.length_le
  rwa [List.length_map, hsame] at hprefix

theorem fair_occurs {ev : ℕ → Event} (hfair : Fair Serves ev)
    (hproceeds : ∀ n, ∃ m ≥ n, Proceeds (ev m)) : Fair Occurs ev := by
  rintro (_ | party) n
  · exact hproceeds n
  · exact hfair party n

/-- As long as every step is ready, a fair schedule brings each request to its result. -/
theorem going_of_ready (hhandled : ∀ i, Handled (handleRequest2 (benchmark i) sz (requests i)))
    {ev : ℕ → Event} (hfair : Fair Occurs ev)
    (hready : ∀ n,
      Ready (ev n) (runFor (step benchmark sz requests) ev (start requests) n)) (k : ℕ) :
    ∃ n, Going benchmark sz requests k
      (runFor (step benchmark sz requests) ev (start requests) n) := by
  induction k with
  | zero => exact ⟨0, going_start⟩
  | succ k ih =>
    obtain ⟨n, hn⟩ := ih
    obtain ⟨m, -, hm⟩ :=
      LeadsTo.of_fair (rank requests) hfair (fun n hn => hn.step hhandled (hready n))
      (fun c hc => hc.progress) n hn
    exact ⟨m, hm⟩

/-! ## Responses that arrive whole -/

/-- Writes of the client find room, those of a response and its deliveries take all that there
is. -/
def Whole : Event → Prop
  | .client room dies _ => room ≠ 0 ∧ dies = false
  | .server room dies _ _ => Stream.RESPONSE_PACKET_SZ ≤ room ∧ dies = false
  | .toServer _ => True
  | .toClient n => Stream.RESPONSE_PACKET_SZ ≤ n

/-- No byte of the response has arrived, or all have. -/
structure Undivided (benchmark : ℕ → Benchmark) (sz : ℕ) (requests : ℕ → RequestPacket) (k : ℕ)
    (c : State) : Prop where
  going : Going benchmark sz requests k c
  response : Stream.AllOrNothing c.answer (c.current requests c.exchange.client)

theorem Undivided.ready (h : Undivided benchmark sz requests k c) {e : Event} (he : Whole e) :
    Ready e c := by
  have hinv := h.going.good.current
  cases e with
  | client room dies reset =>
    exact ⟨h.response.ready (e := .client room dies) hinv he, fun _ _ => he.2⟩
  | server room dies reset progress =>
    intro hdies
    rw [he.2] at hdies
    cases hdies
  | toServer n => trivial
  | toClient n => trivial

theorem current_serverMoved (hsame : c.server requests = c.exchange.server) {b : Benchmark}
    {room : ℕ}
    (hserver : State.server requests { c with exchange := Stream.serverStep b room c.exchange } =
      (Stream.serverStep b room c.exchange).server) :
    State.current requests { c with exchange := Stream.serverStep b room c.exchange }
      c.exchange.client =
      Stream.serverStep b room (c.current requests c.exchange.client) := by
  rw [current_of_same hsame, State.current, hserver,
    ← (Stream.serverStep_keeps b room c.exchange).1]

theorem Going.current_serverStep (h : Going benchmark sz requests k c)
    (hnot : ∀ p, c.exchange.server ≠ .serving p) (room : ℕ) (reset : Bool) (progress : Progress) :
    (Conversation.serverStep benchmark sz room false reset progress c).current requests
      c.exchange.client =
        c.current requests c.exchange.client ∨
      (Conversation.serverStep benchmark sz room false reset progress c).current requests
        c.exchange.client =
        Stream.serverStep (benchmark c.handled.length) room
          (c.current requests c.exchange.client) := by
  unfold Conversation.serverStep
  rw [if_neg (by simp [h.server])]
  cases hpc : c.exchange.server with
  | reading r =>
    simp only [if_neg (h.not_reset _)]
    rcases h.good.abreast.ahead with hlen | hlen
    · have hsame : c.server requests = c.exchange.server := by
        simp only [State.server, hpc, if_pos hlen]
      right
      rcases Stream.serverStep_reading (benchmark c.handled.length) room hpc with
        ⟨r', hr'⟩ | ⟨p, hp⟩
      · exact current_serverMoved hsame (by simp only [State.server, hr', if_pos hlen])
      · exact current_serverMoved hsame (by simp only [State.server, hp])
    · left
      simp only [h.good.reads_ahead hpc hlen]
  | replying p buf =>
    simp only [if_neg (h.not_reset _)]
    by_cases hlen : c.handled.length = c.results.length
    · obtain rfl := h.good.abreast.replying p buf hpc hlen
      left
      simp [Stream.serverStep, State.current, State.server, hpc, hlen]
    · have hsame : c.server requests = c.exchange.server := by
        simp only [State.server, hpc, if_neg hlen]
      right
      rcases Stream.serverStep_replying (benchmark c.handled.length) room hpc with
        ⟨buf', hbuf'⟩ | hdone
      · exact current_serverMoved hsame (by simp only [State.server, hbuf', if_neg hlen])
      · exact current_serverMoved hsame (by simp only [State.server, hdone, if_neg hlen])
  | serving p => exact absurd hpc (hnot p)
  | finished p =>
    left
    by_cases hlen : c.handled.length = c.results.length
    · simp [State.current, State.server, hpc, hlen]
    · have hcurrent := h.good.current
      simp only [State.current, State.server, hpc, if_neg hlen] at hcurrent
      obtain rfl := hcurrent.reqPacket (q := p) rfl
      simp [State.current, State.server, hpc, hlen]
  | aborted => exact absurd hpc h.not_aborted

theorem not_serving_current (hnot : ∀ p, c.exchange.server ≠ .serving p) (client : Stream.ClientPc)
    (q : RequestPacket) : (c.current requests client).server ≠ .serving q := by
  simp only [State.current, State.server]
  cases hpc : c.exchange.server with
  | reading r =>
    simp only
    split_ifs <;> simp
  | serving p => exact absurd hpc (hnot p)
  | replying p buf =>
    simp only
    split_ifs <;> simp
  | finished p =>
    simp only
    split_ifs <;> simp
  | aborted => simp

/-- What arrives of a response stays undivided while the handler goes on. -/
theorem Undivided.serverStep
    (hhandled : ∀ i, Handled (handleRequest2 (benchmark i) sz (requests i)))
    (h : Undivided benchmark sz requests k c) {room : ℕ} (hroom : Stream.RESPONSE_PACKET_SZ ≤ room)
    (reset : Bool) (progress : Progress) :
    Stream.AllOrNothing (Conversation.serverStep benchmark sz room false reset progress c).answer
      ((Conversation.serverStep benchmark sz room false reset progress c).current requests
        c.exchange.client) := by
  by_cases hserving : ∃ p, c.exchange.server = .serving p
  · obtain ⟨p, hpc⟩ := hserving
    have hlen := h.going.good.abreast.serving p hpc
    unfold Conversation.serverStep
    rw [if_neg (by simp [h.going.server])]
    simp only [hpc, Bool.false_eq_true, false_and, if_false]
    split_ifs
    · exact h.response
    · exact h.response
    · obtain ⟨⟨res, items⟩, hres⟩ : Handled
        (handleRequest2 (progress.seen (benchmark c.handled.length)) sz p) := by
        rw [h.going.served hpc]
        exact handled_seen_iff.mpr (hhandled _)
      simp only [hres]
      have hserver : (c.current requests c.exchange.client).server = .serving p := by
        simp only [State.current, State.server, hpc]
      have hanswer : (c.handled ++ [(p, res)])[c.results.length]?.elim ⟨0, 0⟩ Prod.snd = res := by
        rw [← hlen, List.getElem?_append_right (le_refl _), Nat.sub_self, List.getElem?_cons_zero,
          Option.elim_some]
      have hne : (c.handled ++ [(p, res)]).length ≠ c.results.length := by simp [hlen]
      have hanswered := h.response.answered hserver res
      simp only [State.current, State.server, State.answer, if_neg hne, hanswer]
      exact hanswered
  · have hnot : ∀ p, c.exchange.server ≠ .serving p := fun p hp => hserving ⟨p, hp⟩
    have hkept : (Conversation.serverStep benchmark sz room false reset progress c).answer =
      c.answer := by
      have hhandled' : (Conversation.serverStep benchmark sz room false reset progress c).handled =
        c.handled := by
        unfold Conversation.serverStep
        rw [if_neg (by simp [h.going.server])]
        cases hpc : c.exchange.server with
        | reading r => simp only [if_neg (h.going.not_reset _)]
        | serving p => exact absurd hpc (hnot p)
        | replying p buf => simp only [if_neg (h.going.not_reset _)]
        | finished p => rfl
        | aborted => rfl
      rw [State.answer, State.answer, hhandled',
        (serverStep_frame benchmark sz room false reset progress c).2.1]
    rw [hkept]
    rcases h.going.current_serverStep hnot room reset progress with hsame | hmoved
    · rw [hsame]
      exact h.response
    · rw [hmoved]
      exact h.response.serverStep
        (fun q hq => absurd hq (not_serving_current hnot _ q)) h.going.good.current hroom

theorem Undivided.step (hhandled : ∀ i, Handled (handleRequest2 (benchmark i) sz (requests i)))
    (h : Undivided benchmark sz requests k c) {e : Event} (he : Whole e) :
    ∃ k', Undivided benchmark sz requests k' (step benchmark sz requests c e) := by
  have hready := h.ready he
  have hinv := h.going.good.current
  cases e with
  | client room dies reset =>
    obtain ⟨hroom, rfl⟩ := he
    by_cases hreturned : ∃ rc, c.exchange.client = .returned rc
    · obtain ⟨rc, hpc⟩ := hreturned
      obtain rfl := h.going.success hpc
      have hnext : Conversation.clientStep requests room false reset c = c.next requests false := by
        simp [Conversation.clientStep, h.going.client, hpc]
      refine ⟨k + 1, ?_⟩
      rw [Conversation.step, hnext]
      refine ⟨h.going.next hpc, .inl ⟨by simp [State.current, State.next], ?_, .inl ?_⟩⟩
      · exact congrArg Stream.Wire.arrived (h.going.good.over hpc).2.toClient
      · exact congrArg Stream.Wire.inFlight (h.going.good.over hpc).2.toClient
    · refine ⟨k, ?_⟩
      rw [Conversation.step, clientStep_called h.going.client h.going.server fun rc hrc =>
        hreturned ⟨rc, hrc⟩]
      refine ⟨(h.going.called hready.1).1, ?_⟩
      simp only [current_called]
      exact h.response.clientStep ⟨hroom, rfl⟩
  | server room dies reset progress =>
    obtain ⟨hroom, rfl⟩ := he
    refine ⟨k, (h.going.serverStep hhandled hready).1, ?_⟩
    have hclient : (Conversation.serverStep benchmark sz room false reset progress
      c).exchange.client = c.exchange.client :=
      (serverStep_frame benchmark sz room false reset progress c).1
    simp only [Conversation.step, hclient]
    exact h.serverStep hhandled hroom reset progress
  | toServer n =>
    exact ⟨k, ⟨h.going.good.withExchange rfl (h.going.good.current.deliver_toServer n) (.inl rfl),
      h.going.results, h.going.client, h.going.server⟩, h.response⟩
  | toClient n =>
    exact ⟨k, ⟨h.going.good.withExchange rfl (h.going.good.current.deliver_toClient n) (.inl rfl),
      h.going.results, h.going.client, h.going.server⟩, h.response.deliver_toClient hinv he⟩

/-- Where each response is written and delivered in one piece, every step is ready. -/
theorem ready_of_whole (hhandled : ∀ i, Handled (handleRequest2 (benchmark i) sz (requests i)))
    {ev : ℕ → Event} (hwhole : ∀ n, Whole (ev n)) (n : ℕ) :
    Ready (ev n) (runFor (Conversation.step benchmark sz requests) ev (start requests) n) := by
  have hundivided : ∃ k, Undivided benchmark sz requests k
      (runFor (Conversation.step benchmark sz requests) ev (start requests) n) := by
    induction n with
    | zero =>
      exact ⟨0, going_start,
        .inl ⟨by simp [runFor, start, Stream.start, State.current], rfl, .inl rfl⟩⟩
    | succ n ih =>
      obtain ⟨k, hk⟩ := ih
      exact hk.step hhandled (hwhole n)
  obtain ⟨k, hk⟩ := hundivided
  exact hk.ready (hwhole n)

end Run

/-- Under a fair schedule the conversation goes on for ever exactly if every write of the client
finds room, every read a byte, nobody finds that it is time to die, and the handler again and again
finds what it waits for. -/
theorem conversation_goes_on_iff (benchmark : ℕ → Benchmark) (szDataItemsArray : ℕ)
    (requests : ℕ → RequestPacket)
    (hhandled : ∀ i, Handled (handleRequest2 (benchmark i) szDataItemsArray (requests i)))
    (ev : ℕ → Event) (hfair : Fair Serves ev) :
    (∀ k, ∃ n, k ≤
      (runFor (step benchmark szDataItemsArray requests) ev (start requests) n).results.length) ↔
      (∀ n,
        Ready (ev n) (runFor (step benchmark szDataItemsArray requests) ev (start requests) n)) ∧
        ∀ n, ∃ m ≥ n, Proceeds (ev m) := by
  constructor
  · intro hall
    -- more results than any bound would allow
    have hunbounded : ∀ n, ¬ ∃ bound, ∀ m ≥ n,
        (runFor (step benchmark szDataItemsArray requests) ev (start requests) m).results.length ≤
          bound := by
      rintro n ⟨bound, hbound⟩
      obtain ⟨m, hm⟩ := hall (bound + 1)
      have hlater := runFor_stable (P := fun c : State => bound + 1 ≤ c.results.length)
        (fun c e hc => hc.trans (results_le_step c e)) (le_max_left m n) hm
      exact absurd (hbound _ (le_max_right m n)) (Nat.not_le.mpr hlater)
    constructor
    · intro n
      by_contra hnot
      exact hunbounded (n + 1) (bounded_of_ended (ends_of_not_ready hnot))
    · intro n
      by_contra hnot
      exact hunbounded n (bounded_of_waiting fun m hm hproceeds => hnot ⟨m, hm, hproceeds⟩)
  · rintro ⟨hready, hproceeds⟩ k
    obtain ⟨n, hgoing⟩ := going_of_ready hhandled (fair_occurs hfair hproceeds) hready k
    exact ⟨n, hgoing.results.ge⟩

/-- Every party in turn, everything in one piece. -/
def promptly (n : ℕ) : Event :=
  if n % 4 = 0 then .client REQUEST_PACKET_SZ false false
  else if n % 4 = 1 then .toServer REQUEST_PACKET_SZ
  else if n % 4 = 2 then .server Stream.RESPONSE_PACKET_SZ false false .done
  else .toClient Stream.RESPONSE_PACKET_SZ

/-- A client that looks at one portfolio again and again gets all its results. -/
theorem conversation_goes_on_promptly : Fair Serves promptly ∧ ∀ k, ∃ n,
    k ≤ (runFor (step (fun _ => .returning BENCHMARK_SUCCESS) 3000 fun _ => Stream.viewOne) promptly
      (start fun _ => Stream.viewOne) n).results.length := by
  have hhandled : ∀ i : ℕ, Handled
    (handleRequest2 (.returning BENCHMARK_SUCCESS) 3000 Stream.viewOne) :=
    fun _ => ⟨(⟨1, 0⟩, []), by decide +kernel⟩
  have hfair : Fair Serves promptly := by
    intro party n
    cases party with
    | client => exact ⟨4 * n, by omega, REQUEST_PACKET_SZ, false, false, by simp [promptly]⟩
    | toServer => exact ⟨4 * n + 1, by omega, REQUEST_PACKET_SZ, by norm_num, by simp [promptly]⟩
    | server =>
      exact ⟨4 * n + 2,
        by omega, Stream.RESPONSE_PACKET_SZ, by norm_num, false, false, .done, by simp [promptly]⟩
    | toClient =>
      exact ⟨4 * n + 3, by omega, Stream.RESPONSE_PACKET_SZ, by norm_num, by simp [promptly]⟩
  have hwhole : ∀ n, Whole (promptly n) := by
    intro n
    unfold promptly
    split_ifs
    · exact ⟨by norm_num, rfl⟩
    · trivial
    · exact ⟨le_refl Stream.RESPONSE_PACKET_SZ, rfl⟩
    · exact le_refl Stream.RESPONSE_PACKET_SZ
  have hproceeds : ∀ n, ∃ m ≥ n, Proceeds (promptly m) := fun n =>
    ⟨4 * n + 2,
      by omega, Stream.RESPONSE_PACKET_SZ, false, false, .done, by simp, by simp [promptly]⟩
  exact ⟨hfair, (conversation_goes_on_iff _ 3000 _ hhandled promptly hfair).mpr
    ⟨ready_of_whole hhandled hwhole, hproceeds⟩⟩

end Chronos.Conversation
