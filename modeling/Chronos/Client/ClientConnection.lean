import Chronos.Client.Requests
import Chronos.Foundation.Runs

/-! # The connection of a client and its socket

`chronosClientConnect` creates a socket, connects it, and waits for the connection with `poll`;
whatever fails goes to one label, which marks the handle as disconnected and closes nothing.
The open sockets are those created through the handle and not closed.
-/
namespace Chronos.Client
open Foundation Benchmark

inductive ChronosConnState where
  | invalid
  | disconnected
  | connected
deriving DecidableEq

structure ChronosClientConnection where
  connectionName : List Byte
  serverAddress : List Byte
  serverPort : ℤ
  socketFd : ℤ
  state : ChronosConnState

/-- The size of `connectionName` and `serverAddress`. -/
abbrev CONNECTION_NAME_SZ : ℕ := 256

abbrev COLON : Byte := 58

/-- A handle, and the sockets opened through it that are still open. -/
structure Endpoint where
  handle : ChronosClientConnection
  openSockets : List ℤ

/-- The handle is zeroed, its state apart. -/
def chronosConnHandleAlloc : Endpoint where
  handle := ⟨List.replicate CONNECTION_NAME_SZ 0, List.replicate CONNECTION_NAME_SZ 0, 0, 0,
    .disconnected⟩
  openSockets := []

/-- What `poll` does; if it reports the socket, what `getsockopt` returns and the error it reads. -/
inductive PollAnswer where
  | failed
  | timedOut
  | ready (rc result : ℤ)
deriving DecidableEq

/-- What the system calls of one `chronosClientConnect` return; `inProgress` is whether
`errno` is `EINPROGRESS`. -/
structure ConnectAnswers where
  socket : ℤ
  setsockopt : ℤ
  ioctl : ℤ
  connect : ℤ
  inProgress : Bool
  polls : List PollAnswer

/-- How a call ends: it returns, it is still waiting, or it crashes. -/
inductive CallResult where
  | returned (rc : ℤ) (s : Endpoint)
  | waiting
  | crashed

def waitConnect : List PollAnswer → Option Bool
  | [] => none
  | .failed :: _ => some false
  | .timedOut :: polls => waitConnect polls
  | .ready rc result :: _ => some (decide (¬ rc < 0 ∧ result = 0))

/-- The `failXit` of `chronosClientConnect`, with a handle. -/
def connectFailXit (s : Endpoint) : CallResult :=
  .returned CHRONOS_FAIL
    { s with handle := { s.handle with socketFd := -1, state := .disconnected } }

def connectSucceeds (socketFd : ℤ) (s : Endpoint) : CallResult :=
  .returned CHRONOS_SUCCESS { s with handle :=
    { s.handle with socketFd := socketFd, state := .connected } }

/-- The members that name the server. -/
def nameServer (serverAddress : CStr) (serverPort : ℤ) (connName : Option CStr)
    (h : ChronosClientConnection) : ChronosClientConnection :=
  { h with
    serverAddress := strncpy CONNECTION_NAME_SZ serverAddress
    serverPort := serverPort
    connectionName := match connName with
      | some name => strncpy CONNECTION_NAME_SZ name
      | none =>
        storeString h.connectionName 0
          ((serverAddress ++ COLON :: formatInt serverPort).take (CONNECTION_NAME_SZ - 1)) }

/-- `chronosClientConnect` on a handle that is not NULL. With invalid arguments it comes to
`failXit` before `connectionP` is set, and writes through NULL. -/
def chronosClientConnect (serverAddress : Option CStr) (serverPort : ℤ) (connName : Option CStr)
    (a : ConnectAnswers) (s : Endpoint) : CallResult :=
  match serverAddress with
  | none => .crashed
  | some address =>
    if serverPort = 0 then .crashed
    else if s.handle.state ≠ .disconnected then connectFailXit s
    else
      let named : Endpoint := { s with handle := nameServer address serverPort connName s.handle }
      if a.socket = -1 then connectFailXit named
      else
        let opened : Endpoint := { named with openSockets := a.socket :: named.openSockets }
        if a.setsockopt = -1 then connectFailXit opened
        else if a.ioctl < 0 then connectFailXit opened
        else if a.connect < 0 ∧ a.inProgress = false then connectFailXit opened
        else if a.connect = 0 then connectSucceeds a.socket opened
        else match waitConnect a.polls with
          | none => .waiting
          | some false => connectFailXit opened
          | some true => connectSucceeds a.socket opened

/-- `chronosClientDisconnect`; `close` gives the descriptor back, whatever it returns. -/
def chronosClientDisconnect (s : Endpoint) : CallResult :=
  if s.handle.state = .connected then
    .returned CHRONOS_SUCCESS
      ⟨{ s.handle with socketFd := -1, state := .disconnected },
        s.openSockets.erase s.handle.socketFd⟩
  else .returned CHRONOS_SUCCESS { s with handle := { s.handle with state := .disconnected } }

inductive Call where
  | connect (serverAddress : Option CStr) (serverPort : ℤ) (connName : Option CStr)
      (answers : ConnectAnswers)
  | disconnect

def Call.result : Call → Endpoint → CallResult
  | .connect serverAddress serverPort connName a, s =>
    chronosClientConnect serverAddress serverPort connName a s
  | .disconnect, s => chronosClientDisconnect s

def Call.step (s : Option Endpoint) (c : Call) : Option Endpoint :=
  s.bind fun s => match c.result s with
    | .returned _ s' => some s'
    | .waiting => none
    | .crashed => none

/-- The state of the handle says which sockets are open. -/
def Endpoint.Matches (s : Endpoint) : Prop :=
  (s.handle.state = .connected ∧ s.openSockets = [s.handle.socketFd]) ∨
    (s.handle.state = .disconnected ∧ s.openSockets = [])

/-- The arguments are invalid, or the handle is connected already. -/
def Call.Refused : Call → Endpoint → Prop
  | .connect serverAddress serverPort _ _, s =>
    serverAddress = none ∨ serverPort = 0 ∨ s.handle.state = .connected
  | .disconnect, _ => False

/-- After the call, if it returns, the state matches the sockets; and a refused call fails and
changes nothing. -/
structure Call.Keeps (s : Endpoint) (c : Call) : Prop where
  matched : ∀ rc s', c.result s = .returned rc s' → s'.Matches
  refused : c.Refused s → c.result s = .returned CHRONOS_FAIL s

structure ConnectAnswers.Established (a : ConnectAnswers) : Prop where
  options : a.setsockopt ≠ -1
  nonBlocking : 0 ≤ a.ioctl
  connects : a.connect = 0 ∨ (0 < a.connect ∨ a.inProgress = true) ∧
    ∀ p, a.polls.find? (· ≠ .timedOut) = some p → ∃ rc, 0 ≤ rc ∧ p = .ready rc 0

/-- A connect with valid arguments and a disconnected handle that gets no socket or establishes its
connection. -/
def Call.Safe (s : Endpoint) : Call → Prop
  | .connect serverAddress serverPort _ a =>
    serverAddress ≠ none ∧ serverPort ≠ 0 ∧ s.handle.state = .disconnected ∧
    (a.socket = -1 ∨ a.Established)
  | .disconnect => True

/-! ## One call -/

theorem waitConnect_ne_false_iff (polls : List PollAnswer) :
    waitConnect polls ≠ some false ↔
      ∀ p, polls.find? (· ≠ .timedOut) = some p → ∃ rc, 0 ≤ rc ∧ p = .ready rc 0 := by
  induction polls with
  | nil => simp [waitConnect]
  | cons p polls ih =>
    cases p with
    | failed => simp [waitConnect]
    | timedOut => simpa [waitConnect] using ih
    | ready rc result =>
      simp only [waitConnect, ne_eq, Option.some.injEq, decide_eq_false_iff_not, not_not, not_lt]
      simp [eq_comm]

section Connect

variable {address : CStr} {serverPort : ℤ} {connName : Option CStr} {a : ConnectAnswers}
  {s : Endpoint}

def Endpoint.opened (s : Endpoint) (address : CStr) (serverPort : ℤ) (connName : Option CStr)
    (socket : ℤ) : Endpoint :=
  ⟨nameServer address serverPort connName s.handle, socket :: s.openSockets⟩

theorem connect_noSocket (hport : serverPort ≠ 0) (hs : s.handle.state = .disconnected)
    (hsocket : a.socket = -1) :
    chronosClientConnect (some address) serverPort connName a s =
      connectFailXit { s with handle := nameServer address serverPort connName s.handle } := by
  simp only [chronosClientConnect, if_neg hport, hs, ne_eq, not_true_eq_false, if_false,
    if_pos hsocket]

theorem connect_failed (hport : serverPort ≠ 0) (hs : s.handle.state = .disconnected)
    (hsocket : a.socket ≠ -1) (hfails : ¬ a.Established) :
    chronosClientConnect (some address) serverPort connName a s =
      connectFailXit (s.opened address serverPort connName a.socket) := by
  simp only [chronosClientConnect, if_neg hport, hs, ne_eq, not_true_eq_false, if_false,
    if_neg hsocket]
  by_cases hoptions : a.setsockopt = -1
  · rw [if_pos hoptions]
    rfl
  rw [if_neg hoptions]
  by_cases hioctl : a.ioctl < 0
  · rw [if_pos hioctl]
    rfl
  rw [if_neg hioctl]
  by_cases hconnect : a.connect < 0 ∧ a.inProgress = false
  · rw [if_pos hconnect]
    rfl
  rw [if_neg hconnect]
  by_cases hzero : a.connect = 0
  · exact absurd ⟨hoptions, not_lt.mp hioctl, Or.inl hzero⟩ hfails
  rw [if_neg hzero]
  have hwaits : 0 < a.connect ∨ a.inProgress = true := by
    rcases lt_trichotomy a.connect 0 with hlt | heq | hgt
    · exact Or.inr (Bool.not_eq_false _ ▸ fun h => hconnect ⟨hlt, h⟩)
    · exact absurd heq hzero
    · exact Or.inl hgt
  have hpolls : waitConnect a.polls = some false := by
    by_contra hpolls
    exact hfails ⟨hoptions, not_lt.mp hioctl,
      Or.inr ⟨hwaits, (waitConnect_ne_false_iff _).mp hpolls⟩⟩
  rw [hpolls]
  rfl

theorem connect_established (hport : serverPort ≠ 0) (hs : s.handle.state = .disconnected)
    (hsocket : a.socket ≠ -1) (h : a.Established) :
    chronosClientConnect (some address) serverPort connName a s =
        connectSucceeds a.socket (s.opened address serverPort connName a.socket) ∨
      chronosClientConnect (some address) serverPort connName a s = .waiting := by
  have hconnect : ¬ (a.connect < 0 ∧ a.inProgress = false) := by
    rintro ⟨hlt, hprogress⟩
    rcases h.connects with hzero | ⟨hgt | htrue, -⟩
    · omega
    · omega
    · rw [hprogress] at htrue
      cases htrue
  simp only [chronosClientConnect, if_neg hport, hs, ne_eq, not_true_eq_false, if_false,
    if_neg hsocket, if_neg h.options, if_neg (not_lt.mpr h.nonBlocking), if_neg hconnect]
  by_cases hzero : a.connect = 0
  · rw [if_pos hzero]
    exact Or.inl rfl
  rw [if_neg hzero]
  have hpolls := (waitConnect_ne_false_iff a.polls).mpr (h.connects.resolve_left hzero).2
  cases hwait : waitConnect a.polls with
  | none => exact Or.inr rfl
  | some made =>
    cases made with
    | false => exact absurd hwait hpolls
    | true => exact Or.inl rfl

theorem disconnect_matches {rc : ℤ} {s' : Endpoint} (hs : s.Matches)
    (h : chronosClientDisconnect s = .returned rc s') : s'.Matches := by
  unfold chronosClientDisconnect at h
  rcases hs with ⟨hstate, hopen⟩ | ⟨hstate, hopen⟩
  · rw [if_pos hstate] at h
    cases h
    exact Or.inr ⟨rfl, by rw [hopen, List.erase_cons_head]⟩
  · rw [if_neg (by rw [hstate]; decide)] at h
    cases h
    exact Or.inr ⟨rfl, hopen⟩

/-- Where the state matches the sockets, a call keeps its promise if and only if it is safe. -/
theorem keeps_iff_safe (c : Call) (hs : s.Matches) : c.Keeps s ↔ c.Safe s := by
  cases c with
  | disconnect =>
    exact ⟨fun _ => trivial, fun _ => ⟨fun _ _ h => disconnect_matches hs h, False.elim⟩⟩
  | connect serverAddress serverPort connName a =>
    cases serverAddress with
    | none =>
      refine ⟨fun h => ?_, fun h => absurd rfl h.1⟩
      cases h.refused (Or.inl rfl)
    | some address =>
      by_cases hport : serverPort = 0
      · refine ⟨fun h => ?_, fun h => absurd hport h.2.1⟩
        have hcrash := h.refused (Or.inr (Or.inl hport))
        simp only [Call.result, chronosClientConnect, if_pos hport] at hcrash
        cases hcrash
      rcases hs with ⟨hstate, hopen⟩ | ⟨hstate, hopen⟩
      · refine ⟨fun h => ?_, fun h => ?_⟩
        · have hsame := h.refused (Or.inr (Or.inr hstate))
          simp only [Call.result, chronosClientConnect, if_neg hport] at hsame
          rw [if_pos (by rw [hstate]; decide)] at hsame
          have hstate' :=
            congrArg (fun e : Endpoint => e.handle.state) (CallResult.returned.inj hsame).2
          rw [hstate] at hstate'
          cases hstate'
        · have hdisconnected := h.2.2.1
          rw [hstate] at hdisconnected
          cases hdisconnected
      · have hrefused : ¬ Call.Refused (.connect (some address) serverPort connName a) s := by
          rintro (h | h | h)
          · cases h
          · exact hport h
          · rw [hstate] at h
            cases h
        by_cases hsocket : a.socket = -1
        · refine ⟨fun _ => ⟨by simp, hport, hstate, Or.inl hsocket⟩,
            fun _ => ⟨fun rc s' h => ?_, fun h => (hrefused h).elim⟩⟩
          rw [Call.result, connect_noSocket hport hstate hsocket] at h
          cases h
          exact Or.inr ⟨rfl, hopen⟩
        by_cases hestablished : a.Established
        · refine ⟨fun _ => ⟨by simp, hport, hstate, Or.inr hestablished⟩,
            fun _ => ⟨fun rc s' h => ?_, fun h => (hrefused h).elim⟩⟩
          rw [Call.result] at h
          have hconnect : chronosClientConnect (some address) serverPort connName a s =
              connectSucceeds a.socket (s.opened address serverPort connName a.socket) ∨
              chronosClientConnect (some address) serverPort connName a s = .waiting :=
            connect_established hport hstate hsocket hestablished
          rcases hconnect with heq | heq <;> rw [heq] at h <;> cases h
          exact Or.inl ⟨rfl, by rw [Endpoint.opened, hopen]⟩
        · refine ⟨fun h => ?_, fun h => (h.2.2.2.elim hsocket hestablished).elim⟩
          have hmatched :=
            h.matched CHRONOS_FAIL _ (connect_failed hport hstate hsocket hestablished)
          rcases hmatched with ⟨hconnected, -⟩ | ⟨-, hnone⟩
          · cases hconnected
          · cases hnone

end Connect

/-! ## Sequences of calls -/

theorem Call.step_matches {s : Option Endpoint} {c : Call} (hs : ∀ e, s = some e → e.Matches)
    (h : ∀ e, s = some e → c.Keeps e) : ∀ e, Call.step s c = some e → e.Matches := by
  intro e he
  cases s with
  | none => cases he
  | some before =>
    have hkeeps := h before rfl
    rw [Call.step, Option.bind_some] at he
    cases hresult : c.result before with
    | returned rc after =>
      rw [hresult] at he
      cases he
      exact hkeeps.matched rc _ hresult
    | waiting =>
      rw [hresult] at he
      cases he
    | crashed =>
      rw [hresult] at he
      cases he

/-- The server refuses the connection: the handle is disconnected, and its socket open. -/
theorem refused_leaves_socket : ¬ ∀ pre c,
    pre ++ [c] <+: [Call.connect (some [49]) 5000 none ⟨3, 0, 0, -1, false, []⟩] →
      ∀ s, pre.foldl Call.step (some chronosConnHandleAlloc) = some s → c.Keeps s := by
  intro h
  have hkeeps := h [] _ (List.prefix_refl _) _ rfl
  rcases hkeeps.matched _ _ rfl with ⟨hconnected, -⟩ | ⟨-, hnone⟩
  · cases hconnected
  · cases hnone

/-- In every sequence of calls, each keeps its promise if and only if every connect has valid
arguments, meets a disconnected handle, and once it has a socket establishes the connection. -/
theorem connection_matches_iff (calls : List Call) :
    (∀ pre c, pre ++ [c] <+: calls →
      ∀ s, pre.foldl Call.step (some chronosConnHandleAlloc) = some s → c.Keeps s) ↔
    ∀ pre c, pre ++ [c] <+: calls →
      ∀ s, pre.foldl Call.step (some chronosConnHandleAlloc) = some s → c.Safe s := by
  refine always_step_iff (fun s => ∀ e, s = some e → e.Matches) (fun s c => ∀ e, s = some e →
    c.Keeps e)
    (fun s c => ∀ e, s = some e → c.Safe e) ?_ (fun _ _ hs h => Call.step_matches hs h)
    (fun _ c hs => forall₂_congr fun e he => keeps_iff_safe c (hs e he)) calls
  intro e he
  cases he
  exact Or.inr ⟨rfl, rfl⟩

end Chronos.Client
