import Chronos.Server.Packet

/-! # The life of a connection

`daHandler` reads a request byte by byte, waits to be admitted, has it processed and
answers. The server in `startup_server.c` then closes the connection, that in
`startup_server_2.c` reads the next request. A client sends finitely many bytes and
closes, or reading fails.
-/
namespace Chronos.Connection
open Foundation Packet

/-- What `read` does when the bytes have run out. -/
inductive Ending where
  | closed
  | error
deriving DecidableEq

/-- `buf` and `to_read`. -/
structure ReadState where
  buf : List Byte
  toRead : ℕ
  sizes : buf.length + toRead = REQUEST_PACKET_SZ

def ReadState.start : ReadState := ⟨[], REQUEST_PACKET_SZ, rfl⟩

def ReadState.readByte (r : ReadState) (b : Byte) (h : r.toRead ≠ 0) : ReadState :=
  ⟨r.buf ++ [b], r.toRead - 1,
    by have := r.sizes; simp only [List.length_append, List.length_singleton]; omega⟩

def ReadState.packet (r : ReadState) (h : r.toRead = 0) : RequestPacket :=
  ⟨r.buf, by have := r.sizes; omega⟩

inductive HandlerPc where
  | reading (r : ReadState)
  | serving (packet : RequestPacket)
  | admission (packet : RequestPacket)
  | dispatching (packet : RequestPacket)
  | replying
  | cleanup
  | exited
  | aborted
  | killed

structure HandlerState where
  pc : HandlerPc
  stream : List Byte
  ending : Ending
  served : ℕ
  currentNumClients : ℤ
  timeToDie : Bool

/-- How the loop of the admission control ends: `num_txn_to_wait` is down, `time_to_die` is set, or
never. -/
inductive Admission where
  | admitted
  | died
  | waits
deriving DecidableEq

/-- What comes of the `write` of an answer. Nothing catches the signal of a broken pipe. -/
inductive WriteResult where
  | written
  | failed
  | brokenPipe
  | blocks
deriving DecidableEq

/-- What the handler meets beside its client, at each request: the benchmark, the admission
control, whether the transaction gets done, the `write`, and `time_to_die` after it. -/
structure Environment where
  benchmark : ℕ → Benchmark
  szDataItemsArray : ℕ
  admission : ℕ → Admission
  completes : ℕ → Bool
  write : ℕ → WriteResult
  dies : ℕ → Bool

/-- The handler as it starts to read its first request. -/
def accepted (stream : List Byte) (ending : Ending) (currentNumClients : ℤ) : HandlerState :=
  ⟨.reading .start, stream, ending, 0, currentNumClients, false⟩

section Reading
variable {env : Environment} {kind : ServerKind} {c : HandlerState} {r : ReadState}

end Reading

/-! ## Serving requests until the client is gone -/

def request (stream : List Byte) (j : ℕ) : List Byte :=
  (stream.drop (REQUEST_PACKET_SZ * j)).take REQUEST_PACKET_SZ

/-- A request that is admitted, processed without a fault in `startup_server_2.c`, and gets done. -/
structure Answered (env : Environment) (k : ℕ) (bytes : List Byte) : Prop where
  admitted : env.admission k = .admitted
  handled : ∃ h, Handled (handleRequest2 (env.benchmark k) env.szDataItemsArray ⟨bytes, h⟩)
  completes : env.completes k = true

section Serving
variable {env : Environment} {stream : List Byte} {ending : Ending} {served : ℕ}

variable {c : HandlerState} {clients : ℤ}

end Serving

end Chronos.Connection
